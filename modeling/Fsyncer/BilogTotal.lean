import Fsyncer.BilogRecord
import Fsyncer.BilogXattr

/-! Which calls a bilog journal can take. A call that would succeed on the
backing store may still have no entry, one that reads more than there is, or one
that cannot be serialised or is too large for a block. -/
namespace Fsyncer.BilogTotal
open Fsyncer.ByteFile Fsyncer.FileTree Fsyncer.Vfs Fsyncer.Machine
open Fsyncer.JournalStore Fsyncer.Bilog Fsyncer.BilogRecord

variable {host : Host} {t : Tree}

section Sizes

/-- The strings of an entry. -/
def texts : BilogEntry → List (List UInt8)
  | .chmod x => [pathText x.path]
  | .chown x => [pathText x.path]
  | .utimens x => [pathText x.path]
  | .rename x => [pathText x.source, pathText x.dest]
  | .dir x => [pathText x.path]
  | .symlink x => [x.source, pathText x.dest]
  | .link x => [pathText x.source, pathText x.dest]
  | .node x => [pathText x.path]
  | .file x => [pathText x.path]
  | .filestore path _ => [pathText path]
  | .truncate x => [pathText x.path]
  | .write x => [pathText x.path]
  | .xattr x => [pathText x.path]

/-- The bytes that an entry takes in the journal besides its strings. -/
def rest : BilogEntry → ℕ
  | .chmod _ => 36
  | .chown _ => 40
  | .utimens _ => 80
  | .rename _ => 37
  | .dir _ => 41
  | .symlink _ => 45
  | .link _ => 45
  | .node _ => 49
  | .file _ => 41
  | .filestore .. => 36
  | .truncate x => 48 + x.buf.length
  | .write x => 56 + x.buf.length
  | .xattr x => 42 + x.name.length + (x.value.elim 0 fun value => 8 + value.length)

/-- Strings that can be serialised and, with the other bytes, lie in a block. -/
def Fits (texts : List (List UInt8)) (rest : ℕ) : Prop :=
  (∀ text ∈ texts, continuesUtf8 [] text = true) ∧ rest + (texts.map List.length).sum < blockSize

theorem fits_texts (entry : BilogEntry) :
    (fields entry).all Field.valid = true ∧ 16 + serializedSize entry < blockSize ↔
      Fits (texts entry) (rest entry) := by
  have valid : (fields entry).all Field.valid = true ↔ ∀ text ∈ texts entry, continuesUtf8 [] text = true := by
    cases entry with
    | xattr x => cases value : x.value <;>
        simp [fields, texts, Field.valid, Field.path, Field.option, value]
    | _ => simp [fields, texts, Field.valid, Field.path, Field.signed, Field.timespec]
  have size : 16 + serializedSize entry = rest entry + ((texts entry).map List.length).sum := by
    cases entry with
    | xattr x => cases value : x.value <;>
        simp [serializedSize, fields, texts, rest, Field.size, Field.path, Field.option, value] <;> omega
    | _ =>
      simp [serializedSize, fields, texts, rest, Field.size, Field.path, Field.signed, Field.timespec]
      try omega
  rw [valid, size, Fits]

end Sizes

section Calls

/-- The calls that the registered handlers hand to `pre_op`. -/
def handled : VFSCall → Bool
  | .mknod _ _ _ (.unix ..) | .mkdir _ (.unix ..) _ | .symlink _ _ (.unix ..) | .unlink _ | .rmdir _
  | .rename .. | .link _ _ (.unix ..) | .chmod .. | .security _ (.unix ..) | .truncate ..
  | .create _ _ (.unix ..) _ | .write .. | .diffWrite .. | .utimens .. | .fallocate .. | .setxattr ..
  | .removexattr .. | .fsync .. => true
  | _ => false

/-- Executing the call on the backing store would succeed. A write counts the
bytes it wrote, and a difference stands for a write of the same range. -/
def Succeeds (host : Host) (t : Tree) : VFSCall → Prop
  | .write path offset buf | .diffWrite path offset buf =>
    ∃ fd after, t.openFile (translatePath path host.fspath) = .ok fd ∧ t.pwrite fd buf offset.toInt = .ok after
  | call => ∃ after, run host call t = some after

/-- The length of the file at a path. -/
def sizeAt (t : Tree) (path : Path) : ℕ := ((t.inode? path).map fun node => node.kind.size).getD 0

/-- The length of an extended attribute, zero for one that is not there. -/
def xattrSize (t : Tree) (path : Path) (name : Name) : ℕ :=
  (((t.inode? path).bind fun node => node.xattrs.find name).map List.length).getD 0

/-- What an unlink has to meet, by the kind of the object. -/
def RecordableUnlink (host : Host) (t : Tree) (path : Path) : Kind → Prop
  | .lnk target => isStr (translatePath path host.fspath) = true ∧ Fits [target.1, pathText path] 45
  | .reg data =>
    if 1 < t.nlink (translatePath path host.fspath) then
      ∃ source, findHardlink ((t.names.find (translatePath path host.fspath)).getD 0) host t = some source ∧
        Fits [pathText source, pathText path] 45
    else Fits [pathText path] (if data = [] then 41 else 36)
  | _ => Fits [pathText path] 49

/-- What a call has to meet so that the journal can take its entry. -/
def Recordable (host : Host) (t : Tree) : VFSCall → Prop
  | .mknod path .. => Fits [pathText path] 49
  | .mkdir path .. | .rmdir path | .create path .. => Fits [pathText path] 41
  | .symlink source dest _ => Fits [source, pathText dest] 45
  | .unlink path => ∀ node, t.inode? (translatePath path host.fspath) = some node →
      RecordableUnlink host t path node.kind
  | .rename source dest _ => Fits [pathText source, pathText dest] 37
  | .link source dest _ => Fits [pathText source, pathText dest] 45
  | .chmod path _ => Fits [pathText path] 36
  | .security path _ => Fits [pathText path] 40
  | .utimens path _ => Fits [pathText path] 80
  -- the file must not become longer
  | .truncate path size => size.toInt ≤ sizeAt t (translatePath path host.fspath) ∧ Fits [pathText path] 48
  | .write path _ buf => Fits [pathText path] (56 + buf.length)
  | .setxattr path name value _ => xattrSize t (translatePath path host.fspath) name ≤ 4096 ∧
      Fits [pathText path] (50 + name.length + max value.length (xattrSize t (translatePath path host.fspath) name))
  | .removexattr path name => xattrSize t (translatePath path host.fspath) name ≤ 4096 ∧
      Fits [pathText path] (50 + name.length + xattrSize t (translatePath path host.fspath) name)
  | _ => False

/-- The call has an entry that the journal takes. -/
def Enters (host : Host) (t : Tree) (call : VFSCall) : Prop :=
  ∃ entry, BilogEntry.tryFrom call host t = .ok entry ∧
    (fields entry).all Field.valid = true ∧ 16 + serializedSize entry < blockSize

theorem enters_of_ok (made : BilogEntry.tryFrom call host t = .ok entry) :
    Enters host t call ↔ Fits (texts entry) (rest entry) := by
  rw [← fits_texts]
  constructor
  · rintro ⟨entry', made', fits⟩
    cases made'.symm.trans made
    exact fits
  · intro fits
    exact ⟨entry, made, fits⟩

theorem not_enters_of_error (fault : Fault) (failed : BilogEntry.tryFrom call host t = .error fault) :
    ¬ Enters host t call := by
  rintro ⟨entry, made, -⟩
  cases made.symm.trans failed

variable {path : Path} {node : Inode}

theorem enters_rmdir (held : t.inode? (translatePath path host.fspath) = some node) :
    Enters host t (.rmdir path) ↔ Fits [pathText path] 41 := by
  have made : BilogEntry.tryFrom (.rmdir path) host t = .ok (.dir (BilogDir.xor
      { path, mode := node.mode, uid := node.uid, gid := node.gid, dirExists := true }
      { path, mode := 0, dirExists := true, uid := 0, gid := 0 })) := by
    simp only [BilogEntry.tryFrom, BilogDir.old, probe_met held]
    rfl
  exact enters_of_ok made

theorem enters_chmod (held : t.inode? (translatePath path host.fspath) = some node) (mode : UInt32) :
    Enters host t (.chmod path mode) ↔ Fits [pathText path] 36 := by
  have made : BilogEntry.tryFrom (.chmod path mode) host t =
      .ok (.chmod (BilogChmod.xor (.state path node.mode) (.state path mode))) := by
    simp only [BilogEntry.tryFrom, BilogChmod.old, stat_met held]
    rfl
  exact enters_of_ok made

theorem enters_security (held : t.inode? (translatePath path host.fspath) = some node) (uid gid : UInt32) :
    Enters host t (.security path (.unix uid gid)) ↔ Fits [pathText path] 40 := by
  have made : BilogEntry.tryFrom (.security path (.unix uid gid)) host t =
      .ok (.chown (BilogChown.xor (.state path node.uid node.gid) (.state path uid gid))) := by
    simp only [BilogEntry.tryFrom, BilogChown.old, stat_met held]
    rfl
  exact enters_of_ok made

theorem enters_utimens (held : t.inode? (translatePath path host.fspath) = some node) (timespec : Timespecs) :
    Enters host t (.utimens path timespec) ↔ Fits [pathText path] 80 := by
  obtain ⟨o, old⟩ : ∃ o, BilogUtimens.old path host t = .ok o := by
    rw [BilogUtimens.old, stat_met held]
    exact ⟨_, rfl⟩
  have made : BilogEntry.tryFrom (.utimens path timespec) host t =
      .ok (.utimens (BilogUtimens.xor o (.state path timespec))) := by
    simp only [BilogEntry.tryFrom, old]
    rfl
  exact enters_of_ok made

/-- A file that is to grow is read behind its end. -/
theorem enters_truncate (on : OnFile host t path fd data) (small : n ≤ offMax) :
    Enters host t (.truncate path (Int64.ofNat n)) ↔ n ≤ data.length ∧ Fits [pathText path] 48 := by
  have made := on.tryFrom_truncate small
  by_cases longer : data.length < n
  · rw [if_pos longer] at made
    exact iff_of_false (not_enters_of_error _ made) (by rintro ⟨shorter, -⟩; omega)
  · rw [if_neg longer] at made
    rw [enters_of_ok made]
    exact ⟨fun fits => ⟨by omega, fits⟩, fun ⟨_, fits⟩ => fits⟩

theorem enters_write (on : OnFile host t path fd data) (small : offset + buf.length ≤ offMax) :
    Enters host t (.write path (Int64.ofNat offset) buf) ↔ Fits [pathText path] (56 + buf.length) := by
  have length : (writeEntry path data offset buf).buf.length = buf.length :=
    length_changed (by rw [length_overwritten]; omega)
  rw [enters_of_ok (on.tryFrom small), rest, length]
  rfl

/-- The length of a value, zero for none. -/
def lengthOf (value : Option (List UInt8)) : ℕ := (value.map List.length).getD 0

/-- The value that one of the two states has is in the entry, in the length of the longer. -/
theorem xor_xattr (some_value : old ≠ none ∨ new ≠ none) :
    ∃ x, BilogXattr.xor (.state path name old old.isNone) (.state path name new new.isNone) = .ok x ∧
      x.path = path ∧ x.name = name ∧ ∃ value, x.value = some value ∧
        value.length = max (lengthOf new) (lengthOf old) := by
  cases old with
  | none =>
    cases new with
    | none => simp at some_value
    | some n => exact ⟨_, rfl, rfl, rfl, n, rfl, (Nat.max_zero _).symm⟩
  | some o =>
    cases new with
    | none => exact ⟨_, rfl, rfl, rfl, o, rfl, (Nat.zero_max _).symm⟩
    | some n =>
      refine ⟨⟨path, name, some (difference o n), false, BilogXattr.crc32 (some n) ^^^ BilogXattr.crc32 (some o)⟩,
        ?_, rfl, rfl, _, rfl, ?_⟩
      · rw [BilogXattr.xor]
        simp only [BilogXattr.state, xorValue_eq, ok_bind]
        rfl
      · rw [length_difference, Nat.max_comm]
        rfl

/-- An attribute of more than 4096 bytes cannot be read. -/
theorem enters_xattr (on : OnXattr host t path i name old) (puts : PutsXattr path name call new)
    (some_value : old ≠ none ∨ new ≠ none) :
    Enters host t call ↔ lengthOf old ≤ 4096 ∧
      Fits [pathText path] (50 + name.length + max (lengthOf new) (lengthOf old)) := by
  by_cases small : lengthOf old ≤ 4096
  · obtain ⟨x, made, target, names, value, holds, length⟩ := @xor_xattr path old new name some_value
    have entry := on.tryFrom (by rintro value rfl; exact small) puts made
    have size : rest (.xattr x) = 50 + name.length + max (lengthOf new) (lengthOf old) := by
      rw [rest, holds, names, Option.elim_some, length]
      omega
    rw [enters_of_ok entry, size]
    show Fits [pathText x.path] _ ↔ _
    rw [target]
    exact ⟨fun fits => ⟨small, fits⟩, fun ⟨_, fits⟩ => fits⟩
  · refine iff_of_false ?_ (by rintro ⟨short, -⟩; exact small short)
    obtain ⟨node, stat, holds⟩ := on.lstat
    cases old with
    | none => exact absurd (Nat.zero_le _) small
    | some o =>
      have failed : BilogXattr.old path name host t = .error (.os .erange) := by
        rw [BilogXattr.old, Tree.lgetxattr, stat, ok_bind, holds]
        exact if_neg small
      cases puts <;> refine not_enters_of_error (.os .erange) ?_ <;>
        rw [BilogEntry.tryFrom, BilogXattr.new, ok_bind, failed, error_bind]

theorem enters_unlink (held : t.inode? (translatePath path host.fspath) = some node) (file : node.isDir = false) :
    Enters host t (.unlink path) ↔ RecordableUnlink host t path node.kind := by
  have unlinked : BilogEntry.tryFrom (.unlink path) host t = BilogEntry.tryFromUnlink path host t := rfl
  have stat := stat_met held
  cases kind : node.kind with
  | dir => rw [Inode.isDir, kind] at file; cases file
  | lnk target =>
    by_cases string : isStr (translatePath path host.fspath) = true
    · have made : BilogEntry.tryFrom (.unlink path) host t =
          .ok (.symlink ⟨target.1, path, true, node.uid ^^^ 0, node.gid ^^^ 0⟩) := by
        rw [unlinked, BilogEntry.tryFromUnlink, stat, ok_bind]
        simp only [kind, old_symlink string held kind]
        rfl
      rw [enters_of_ok made]
      exact ⟨fun fits => ⟨string, fits⟩, And.right⟩
    · have failed : BilogEntry.tryFrom (.unlink path) host t =
          .error (.panic "called `Option::unwrap()` on a `None` value") := by
        rw [unlinked, BilogEntry.tryFromUnlink, stat, ok_bind]
        simp only [kind, BilogSymlink.old, probe_met held, ok_bind, if_neg string]
        rfl
      exact iff_of_false (not_enters_of_error _ failed) (by rintro ⟨text, -⟩; exact string text)
  | reg data =>
    rw [RecordableUnlink]
    split
    · next shared =>
      cases found : findHardlink ((t.names.find (translatePath path host.fspath)).getD 0) host t with
      | none =>
        have failed : BilogEntry.tryFrom (.unlink path) host t =
            .error (.io (.other "Hardlink source could not be found")) := by
          rw [unlinked, BilogEntry.tryFromUnlink, stat, ok_bind]
          simp only [kind, if_pos shared, BilogLink.old, probe_met held, ok_bind, found]
          rfl
        exact iff_of_false (not_enters_of_error _ failed) (by rintro ⟨_, ⟨⟩, -⟩)
      | some source =>
        have made : BilogEntry.tryFrom (.unlink path) host t =
            .ok (.link ⟨source, path, true, node.uid ^^^ 0, node.gid ^^^ 0⟩) := by
          rw [unlinked, BilogEntry.tryFromUnlink, stat, ok_bind]
          simp only [kind, if_pos shared, BilogLink.old, probe_met held, ok_bind, found]
          rfl
        rw [enters_of_ok made]
        exact ⟨fun fits => ⟨source, rfl, fits⟩, by rintro ⟨_, ⟨⟩, fits⟩; exact fits⟩
    · next single =>
      by_cases empty : data = []
      · have made : BilogEntry.tryFrom (.unlink path) host t =
            .ok (.file ⟨path, 0 ^^^ node.mode, true, node.uid ^^^ 0, node.gid ^^^ 0⟩) := by
          rw [unlinked, BilogEntry.tryFromUnlink, stat, ok_bind]
          simp only [kind, if_neg single, empty, List.length_nil, if_true, BilogFile.old, probe_met held]
          rfl
        rw [enters_of_ok made, if_pos empty]
        rfl
      · have made : BilogEntry.tryFrom (.unlink path) host t = .ok (.filestore path 0) := by
          rw [unlinked, BilogEntry.tryFromUnlink, stat, ok_bind]
          simp only [kind, if_neg single, List.length_eq_zero_iff, empty, if_false]
          rfl
        rw [enters_of_ok made, if_neg empty]
        rfl
  | _ =>
    obtain ⟨rdev, made⟩ : ∃ rdev, BilogEntry.tryFrom (.unlink path) host t =
        .ok (.node ⟨path, 0 ^^^ node.mode, rdev, true, node.uid ^^^ 0, node.gid ^^^ 0⟩) := by
      rw [unlinked, BilogEntry.tryFromUnlink, stat, ok_bind]
      simp only [kind, BilogNode.old, probe_met held]
      exact ⟨_, rfl⟩
    exact enters_of_ok made

end Calls

section Total

/-- No file is longer than the system can address. -/
def Bounded (t : Tree) : Prop :=
  ∀ i data, t.contents i = .ok data → data.length ≤ offMax

/-- `pre_op` returns: there is an entry, and it is smaller than a block. -/
def Journaled (host : Host) (t : Tree) (j : Journal) (now : SystemTime) (call : VFSCall) : Prop :=
  ∃ recorded, preOp host t j now call = .ok recorded ∧ BilogEntry.tryFrom call host t = .ok recorded.entry ∧
    16 + serializedSize recorded.entry < blockSize

variable {path : Path}

theorem held_of_find (present : t.names.find path ≠ none) : ∃ node, t.inode? path = some node := by
  obtain ⟨i, found⟩ := Option.ne_none_iff_exists'.mp present
  exact Tree.inode?_of_find found

theorem held_of_change {f : Inode → Inode} {kept : ∀ node, (f node).isDir = node.isDir}
    (changed : t.change path f kept = .ok after) : ∃ node, t.inode? path = some node := by
  rw [Tree.change] at changed
  split at changed
  · cases changed
  · next found => exact Tree.inode?_of_find found

theorem held_of_lstat (stat : t.lstat path = .ok node) : t.inode? path = some node := by
  rw [Tree.lstat] at stat
  split at stat
  · next held => cases stat; exact held
  · cases stat

theorem onFile_of_opened (bounded : Bounded t) (opened : t.openFile (translatePath path host.fspath) = .ok fd) :
    ∃ data, OnFile host t path fd data := by
  obtain ⟨-, data, held⟩ := Tree.kind_of_openFile opened
  exact ⟨data, opened, held, bounded fd data held⟩

theorem eq_ofNat (value : Int64) (nonneg : 0 ≤ value.toInt) : value = Int64.ofNat value.toInt.toNat := by
  have below := value.toInt_lt
  rw [← Int64.toInt_inj, Int64.toInt_ofNat_of_lt (by omega)]
  omega

theorem toNat_le_offMax (value : Int64) : value.toInt.toNat ≤ offMax := by
  have below := value.toInt_lt
  rw [offMax]
  omega

theorem sizeAt_of_onFile (on : OnFile host t path fd data) :
    sizeAt t (translatePath path host.fspath) = data.length := by
  obtain ⟨node, stat, kind⟩ := on.lstat
  rw [sizeAt, held_of_lstat stat, Option.map_some, Option.getD_some, kind, Kind.size]

/-- A write that succeeds starts at an offset, and ends below the largest one. -/
theorem pwrite_ok {t : Tree} (wrote : t.pwrite fd buf offset = .ok after) :
    0 ≤ offset ∧ (buf = [] ∨ offset + buf.length ≤ offMax) := by
  obtain ⟨data, -, wrote⟩ := bind_ok.mp wrote
  obtain ⟨nonneg, wrote⟩ := of_guard wrote
  refine ⟨by omega, ?_⟩
  by_cases empty : buf = []
  · exact .inl empty
  · rw [if_neg empty] at wrote
    split at wrote
    · next small => exact .inr small
    · cases wrote

theorem truncate_ok {t : Tree} (cut : t.truncate path size = .ok after) :
    ∃ fd, t.openFile path = .ok fd ∧ 0 ≤ size := by
  obtain ⟨fd, opened, cut⟩ := bind_ok.mp cut
  obtain ⟨data, -, cut⟩ := bind_ok.mp cut
  obtain ⟨nonneg, -⟩ := of_guard cut
  exact ⟨fd, opened, by omega⟩

theorem unlink_ok {t : Tree} (removed : t.unlink path = .ok after) :
    ∃ node, t.inode? path = some node ∧ node.isDir = false := by
  obtain ⟨present, removed⟩ := of_guard removed
  obtain ⟨node, held⟩ := held_of_find present
  refine ⟨node, held, ?_⟩
  by_cases dir : t.isDir path = true
  · rw [dif_pos dir] at removed
    cases removed
  · rw [Tree.isDir, isDirIn, ← Tree.inode?, held] at dir
    exact Bool.eq_false_iff.mpr dir

theorem onXattr_of_stat (stat : t.lstat (translatePath path host.fspath) = .ok node) (name : Name) :
    ∃ i, OnXattr host t path i name (node.xattrs.find name) ∧
      lengthOf (node.xattrs.find name) = xattrSize t (translatePath path host.fspath) name := by
  have held := held_of_lstat stat
  obtain ⟨i, found, there⟩ := Tree.find_of_inode? held
  exact ⟨i, ⟨found, node, there, rfl⟩, by rw [xattrSize, held]; rfl⟩

/-- A call that succeeds has an entry that the journal takes exactly under its condition. -/
theorem enters_iff (bounded : Bounded t) (made : handled call = true) (succeeds : Succeeds host t call) :
    Enters host t call ↔ Recordable host t call := by
  cases call with
  | mknod path mode rdev security =>
    cases security with
    | unix uid gid =>
      have entered : BilogEntry.tryFrom (.mknod path mode rdev (.unix uid gid)) host t =
        .ok (.node ⟨path, mode, rdev, true, uid, gid⟩) := rfl
      exact enters_of_ok entered
    | _ => cases made
  | mkdir path security mode =>
    cases security with
    | unix uid gid =>
      have entered : BilogEntry.tryFrom (.mkdir path (.unix uid gid) mode) host t =
        .ok (.dir ⟨path, mode, true, uid, gid⟩) := rfl
      exact enters_of_ok entered
    | _ => cases made
  | symlink source dest security =>
    cases security with
    | unix uid gid =>
      have entered : BilogEntry.tryFrom (.symlink source dest (.unix uid gid)) host t =
        .ok (.symlink ⟨source, dest, true, uid, gid⟩) := rfl
      exact enters_of_ok entered
    | _ => cases made
  | link source dest security =>
    cases security with
    | unix uid gid =>
      have entered : BilogEntry.tryFrom (.link source dest (.unix uid gid)) host t =
        .ok (.link ⟨source, dest, true, uid, gid⟩) := rfl
      exact enters_of_ok entered
    | _ => cases made
  | create path flags security mode =>
    cases security with
    | unix uid gid =>
      have entered : BilogEntry.tryFrom (.create path flags (.unix uid gid) mode) host t =
        .ok (.file ⟨path, mode, false, uid, gid⟩) := rfl
      exact enters_of_ok entered
    | _ => cases made
  | rename source dest flags =>
    have entered : BilogEntry.tryFrom (.rename source dest flags) host t =
      .ok (.rename ⟨source, dest, true⟩) := rfl
    exact enters_of_ok entered
  | unlink path =>
    obtain ⟨after, ran⟩ := succeeds
    rw [run_unlink] at ran
    obtain ⟨node, held, file⟩ := unlink_ok (toOption_some ran)
    rw [enters_unlink held file]
    constructor
    · intro recordable node' held'
      cases held.symm.trans held'
      exact recordable
    · intro recordable
      exact recordable node held
  | rmdir path =>
    obtain ⟨after, ran⟩ := succeeds
    rw [run_rmdir] at ran
    obtain ⟨present, -⟩ := of_guard (toOption_some ran)
    obtain ⟨node, held⟩ := held_of_find present
    exact enters_rmdir held
  | chmod path mode =>
    obtain ⟨after, ran⟩ := succeeds
    rw [run_chmod] at ran
    obtain ⟨-, changed⟩ := of_guard (toOption_some ran)
    obtain ⟨node, held⟩ := held_of_change changed
    exact enters_chmod held mode
  | security path security =>
    cases security with
    | unix uid gid =>
      obtain ⟨after, ran⟩ := succeeds
      rw [run_security] at ran
      obtain ⟨-, changed⟩ := of_guard (toOption_some ran)
      obtain ⟨node, held⟩ := held_of_change changed
      exact enters_security held uid gid
    | _ => cases made
  | utimens path timespec =>
    obtain ⟨after, ran⟩ := succeeds
    obtain ⟨node, stat, -⟩ := bind_ok.mp (toOption_some ((run_of_status rfl).symm.trans ran))
    exact enters_utimens (held_of_lstat stat) timespec
  | truncate path size =>
    obtain ⟨after, ran⟩ := succeeds
    obtain ⟨fd, opened, nonneg⟩ := truncate_ok (toOption_some ((run_of_status rfl).symm.trans ran))
    obtain ⟨data, on⟩ := onFile_of_opened bounded opened
    have entered := enters_truncate on (toNat_le_offMax size)
    rw [← eq_ofNat size nonneg] at entered
    rw [entered, Recordable, sizeAt_of_onFile on, Int.toNat_le]
  | write path offset buf =>
    obtain ⟨fd, after, opened, wrote⟩ := succeeds
    obtain ⟨nonneg, small⟩ := pwrite_ok wrote
    obtain ⟨data, on⟩ := onFile_of_opened bounded opened
    have ends : offset.toInt.toNat + buf.length ≤ offMax := by
      rcases small with rfl | small
      · exact toNat_le_offMax offset
      · omega
    have entered := enters_write on ends
    rw [← eq_ofNat offset nonneg] at entered
    exact entered
  | setxattr path name value flags =>
    obtain ⟨after, ran⟩ := succeeds
    obtain ⟨node, stat, -⟩ := bind_ok.mp (toOption_some ((run_of_status rfl).symm.trans ran))
    obtain ⟨i, on, size⟩ := onXattr_of_stat stat name
    have puts : PutsXattr path name (.setxattr path name value flags) (some value) := .set
    have entered := enters_xattr on puts (.inr (Option.some_ne_none value))
    rw [size] at entered
    exact entered
  | removexattr path name =>
    obtain ⟨after, ran⟩ := succeeds
    obtain ⟨node, stat, removed⟩ := bind_ok.mp (toOption_some ((run_of_status rfl).symm.trans ran))
    obtain ⟨i, on, size⟩ := onXattr_of_stat stat name
    have present : node.xattrs.find name ≠ none := by
      intro absent
      rw [absent] at removed
      cases removed
    have entered := enters_xattr on .removed (.inl present)
    rw [size] at entered
    exact entered.trans (by rw [Recordable, lengthOf, Option.map_none, Option.getD_none, Nat.zero_max])
  | diffWrite path offset buf => exact iff_of_false (not_enters_of_error _ rfl) id
  | fallocate path mode offset length => exact iff_of_false (not_enters_of_error _ rfl) id
  | fsync path isdatasync => exact iff_of_false (not_enters_of_error _ rfl) id
  | truncatingWrite path offset buf length => cases made

/-- Of the calls that would succeed, a bilog journal takes those whose strings
are UTF-8, whose entry is smaller than a block, and which neither make a file
longer, nor replace or remove an attribute of more than 4096 bytes, nor are one
of the three kinds that have no entry. -/
theorem journaled_iff (standing : Standing j) (bounded : Bounded t) (made : handled call = true)
    (succeeds : Succeeds host t call) :
    Journaled host t j now call ↔ j.lastTime.total ≤ now.total ∧ Recordable host t call := by
  rw [← enters_iff bounded made succeeds]
  constructor
  · rintro ⟨recorded, passed, -⟩
    exact standing.preOp_iff.mp ⟨recorded, passed⟩
  · intro enters
    obtain ⟨recorded, passed⟩ := standing.preOp_iff.mpr enters
    obtain ⟨entry, wrote, -⟩ := preOp_ok.mp passed
    obtain ⟨-, -, small⟩ := standing.record_iff.mp ⟨_, wrote⟩
    exact ⟨recorded, passed, entry, small⟩

theorem bounded_soloFile (small : data.length ≤ offMax) : Bounded (soloFile data) := by
  intro i found held
  obtain ⟨node, there, kind⟩ := Tree.node_of_contents held
  match i with
  | 0 => cases there; cases kind
  | 1 => cases there; cases kind; exact small
  | i + 2 => cases there

/-- A file that is made longer and a file that is flushed: both succeed, and both
end in a panic instead. -/
theorem successful_calls_panic :
    (Succeeds plainHost (soloFile []) (.truncate [[102]] 1) ∧
      ¬ Journaled plainHost (soloFile []) (freshJournal noon) noon (.truncate [[102]] 1)) ∧
    (Succeeds plainHost (soloFile []) (.fsync [[102]] 0) ∧
      ¬ Journaled plainHost (soloFile []) (freshJournal noon) noon (.fsync [[102]] 0)) := by
  have grown : BilogEntry.tryFrom (.truncate [[102]] 1) plainHost (soloFile []) =
    .error (.io .unexpectedEof) := rfl
  have flushed : BilogEntry.tryFrom (.fsync [[102]] 0) plainHost (soloFile []) =
    .error (.panic "Not an IO call") := rfl
  refine ⟨⟨⟨_, rfl⟩, ?_⟩, ⟨⟨_, rfl⟩, ?_⟩⟩
  · rintro ⟨recorded, -, made, -⟩
    cases made.symm.trans grown
  · rintro ⟨recorded, -, made, -⟩
    cases made.symm.trans flushed

theorem first_write_journaled :
    Journaled plainHost (soloFile []) (freshJournal noon) noon (.write [[102]] 0 [7]) := by
  have succeeds : Succeeds plainHost (soloFile []) (.write [[102]] 0 [7]) := ⟨1, _, rfl, rfl⟩
  refine (journaled_iff (standing_freshJournal noon) (bounded_soloFile (Nat.zero_le _)) rfl succeeds).mpr
    ⟨le_rfl, ?_, ?_⟩
  · decide
  · rw [blockSize_eq]
    decide

end Total
end Fsyncer.BilogTotal
