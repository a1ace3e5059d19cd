import Fsyncer.Base.AlikeTrees
import Fsyncer.Base.Machine
import Fsyncer.Base.UndoLog
import Fsyncer.BilogGuard

/-! Histories of metadata changes and of objects without contents, run backwards
and forwards through their bidirectional entries. An entry of a value turns the
old value into the new one and back; an entry of an object removes the object
where it is met and makes it where it is missing. -/
namespace Fsyncer.Bilog
open FileTree Vfs Machine UndoLog

/-- A call that ran without an error, and the tree it left. -/
def run (host : Host) (call : VFSCall) (t : Tree) : Option Tree :=
  match dispatch host.process host.fspath t call with
  | some (code, after) => if code = 0 then some after else none
  | none => none

/-- An entry applied and the resulting call dispatched. -/
def flip (host : Host) (entry : BilogEntry) (t : Tree) : Option Tree :=
  match entry.apply host t with
  | .ok call => run host call t
  | .error _ => none

/-! Calls that make an object and give it an owner at once make it with that owner. -/

def owned (process : Process) (kind : Kind) (mode uid gid : UInt32) : Inode :=
  (process.newInode kind mode).setOwner uid gid

theorem amend_attach {t : Tree} {f : Inode → Inode} (kept : ∀ node : Inode, (f node).isDir = node.isDir)
    (absent : t.names.find path = none) (parent : t.isDir path.dropLast = true) :
    (t.attach path node absent parent).amend t.inodes.length f kept = t.attach path (f node) absent parent := by
  ext1
  · rfl
  · show (t.inodes ++ [node]).modify t.inodes.length f = t.inodes ++ [f node]
    apply List.ext_getElem?
    intro i
    rw [List.getElem?_modify]
    rcases Nat.lt_trichotomy i t.inodes.length with before | rfl | after
    · rw [List.getElem?_append_left before, List.getElem?_append_left before]
      simp [Nat.ne_of_gt before]
    · simp
    · rw [List.getElem?_eq_none (by simp; omega), List.getElem?_eq_none (by simp; omega)]
      rfl

theorem lchown_attach {t : Tree} (absent : t.names.find path = none) (parent : t.isDir path.dropLast = true) :
    (t.attach path node absent parent).lchown path uid gid =
      .ok (t.attach path (node.setOwner uid gid) absent parent) := by
  have found : (t.attach path node absent parent).names.find path = some t.inodes.length := by
    rw [Tree.find_attach, if_pos rfl]
  rw [Tree.lchown, Tree.change_of found, amend_attach]

theorem chown_attach {t : Tree} (absent : t.names.find path = none) (parent : t.isDir path.dropLast = true)
    (firm : node.isLnk = false) :
    (t.attach path node absent parent).chown path uid gid =
      .ok (t.attach path (node.setOwner uid gid) absent parent) := by
  have shown : ((t.attach path node absent parent).inode? path).any Inode.isLnk = false := by
    rw [Tree.inode?_attach, if_pos rfl]
    exact firm
  rw [Tree.chown, shown, lchown_attach]
  rfl

theorem create_error {t : Tree} (failed : t.create path node = .error errno) (node' : Inode) :
    t.create path node' = .error errno := by
  rw [Tree.create] at failed ⊢
  split at failed
  · next absent =>
    rw [dif_pos absent]
    split at failed
    · cases failed
    · next orphan => rw [dif_neg orphan]; exact failed
  · next present => rw [dif_neg present]; exact failed

/-- An object made and then given its owner by `chown`. -/
theorem create_then_chown (t : Tree) (path : Path) (uid gid : UInt32) (firm : node.isLnk = false) :
    sequel t (t.create path node) (fun after => xmpChown after path uid gid) =
      status t (t.create path (node.setOwner uid gid)) := by
  cases made : t.create path node with
  | error errno => rw [create_error made]; rfl
  | ok after =>
    obtain ⟨absent, parent, rfl⟩ := Tree.create_ok made
    rw [Tree.create_of absent parent, sequel, xmpChown, chown_attach absent parent firm]
    rfl

theorem create_then_lchown (t : Tree) (path : Path) (uid gid : UInt32) :
    sequel t (t.create path node) (fun after => status after (after.lchown path uid gid)) =
      status t (t.create path (node.setOwner uid gid)) := by
  cases made : t.create path node with
  | error errno => rw [create_error made]; rfl
  | ok after =>
    obtain ⟨absent, parent, rfl⟩ := Tree.create_ok made
    rw [Tree.create_of absent parent, sequel, lchown_attach absent parent]
    rfl

/-- What `xmp_mknod` makes: a set fifo bit decides first. -/
def madeKind (mode : UInt32) (rdev : UInt64) : Except Errno Kind :=
  if mode &&& sIfifo = sIfifo then Tree.nodeKind (mode ||| sIfifo) 0 else Tree.nodeKind mode rdev

theorem nodeKind_firm (made : Tree.nodeKind mode rdev = .ok kind) : kind ≠ .dir ∧ ∀ target, kind ≠ .lnk target := by
  rw [Tree.nodeKind] at made
  split at made
  · split at made <;> cases made <;> exact ⟨Kind.noConfusion, fun _ => Kind.noConfusion⟩
  · cases made

theorem madeKind_firm (made : madeKind mode rdev = .ok kind) : kind ≠ .dir ∧ ∀ target, kind ≠ .lnk target := by
  rw [madeKind] at made
  split at made
  · exact nodeKind_firm made
  · exact nodeKind_firm made

theorem isLnk_newInode {process : Process} (firm : ∀ target, kind ≠ .lnk target) :
    (process.newInode kind mode).isLnk = false := by
  cases kind with
  | lnk target => exact absurd rfl (firm target)
  | _ => rfl

theorem permOf_fifo (mode : UInt32) : permOf (mode ||| sIfifo) = permOf mode := by
  have clear : sIfifo.toBitVec.setWidth 12 = 0#12 := by decide
  rw [permOf, UInt32.toBitVec_or, BitVec.setWidth_or, clear, BitVec.or_zero]
  rfl

theorem xmpMknod_eq (made : madeKind mode rdev = .ok kind) (process : Process) (t : Tree) (path : Path)
    (uid gid : UInt32) : xmpMknod process t path mode rdev uid gid =
      status t (t.create path (owned process kind mode uid gid)) := by
  have firm : (process.newInode kind mode).isLnk = false := isLnk_newInode (madeKind_firm made).2
  have node : (if mode &&& sIfifo = sIfifo then t.mkfifo process path mode else t.mknod process path mode rdev) =
      t.create path (process.newInode kind mode) := by
    rw [madeKind] at made
    split
    · next fifo =>
      rw [if_pos fifo] at made
      have same : process.newInode kind (mode ||| sIfifo) = process.newInode kind mode := by
        rw [Process.newInode, permOf_fifo, Process.newInode]
      rw [Tree.mkfifo, Tree.mknod]
      exact (congrArg (· >>= _) made).trans (by rw [ok_bind, ← same]; rfl)
    · next other =>
      rw [if_neg other] at made
      rw [Tree.mknod, made, ok_bind]
  rw [xmpMknod, node]
  exact create_then_chown t path uid gid firm

theorem xmpMknod_error (failed : madeKind mode rdev = .error errno) (process : Process) (t : Tree) (path : Path)
    (uid gid : UInt32) : xmpMknod process t path mode rdev uid gid = (-errno.code, t) := by
  have node : (if mode &&& sIfifo = sIfifo then t.mkfifo process path mode else t.mknod process path mode rdev) =
      .error errno := by
    rw [madeKind] at failed
    split
    · next fifo =>
      rw [if_pos fifo] at failed
      exact congrArg (· >>= _) failed
    · next other =>
      rw [if_neg other] at failed
      rw [Tree.mknod, failed, error_bind]
  rw [xmpMknod, node]
  rfl

/-- Where nothing is, a creating `open` makes an empty file. -/
theorem xmpCreate_eq {t : Tree} (absent : t.names.find path = none) (flag : flags.toUInt32 &&& Tree.oCreat ≠ 0)
    (process : Process) (mode uid gid : UInt32) :
    xmpCreate process t path mode flags uid gid =
      status t (t.create path (owned process (.reg []) mode uid gid)) := by
  rw [xmpCreate, Tree.openMode, if_pos absent, if_neg flag]
  cases made : t.create path (process.newInode (.reg []) mode) with
  | error errno => rw [create_error made]; rfl
  | ok after =>
    obtain ⟨absent, parent, rfl⟩ := Tree.create_ok made
    rw [Tree.create_of absent parent]
    exact congrArg (Prod.mk 0) (amend_attach _ absent parent)

theorem xmpCreate_missing {t : Tree} (absent : t.names.find path = none)
    (flag : flags.toUInt32 &&& Tree.oCreat = 0) (process : Process) (mode uid gid : UInt32) :
    xmpCreate process t path mode flags uid gid = (-(t.obstacle path).code, t) := by
  rw [xmpCreate, Tree.openMode, if_pos absent, if_pos flag]

theorem code_ne_zero (errno : Errno) : -errno.code ≠ 0 := by
  cases errno <;> decide

theorem run_of_status (dispatched : dispatch host.process host.fspath t call = some (status t result)) :
    run host call t = result.toOption := by
  rw [run, dispatched]
  cases result with
  | ok after => rfl
  | error errno => exact if_neg (code_ne_zero errno)

theorem run_of_error {errno : Errno} (dispatched : dispatch host.process host.fspath t call = some (-errno.code, u)) :
    run host call t = none := by
  rw [run, dispatched]
  exact if_neg (code_ne_zero errno)

section Calls

variable (host : Host) (t : Tree)

theorem run_unlink (path : Path) :
    run host (.unlink path) t = (t.unlink (translatePath path host.fspath)).toOption := run_of_status rfl

theorem run_rmdir (path : Path) :
    run host (.rmdir path) t = (t.rmdir (translatePath path host.fspath)).toOption := run_of_status rfl

theorem run_chmod (path : Path) (mode : UInt32) :
    run host (.chmod path mode) t = (t.chmod (translatePath path host.fspath) mode).toOption := run_of_status rfl

theorem run_security (path : Path) (uid gid : UInt32) : run host (.security path (.unix uid gid)) t =
    (t.chown (translatePath path host.fspath) uid gid).toOption := run_of_status rfl

theorem run_mkdir (path : Path) (mode uid gid : UInt32) : run host (.mkdir path (.unix uid gid) mode) t =
    (t.create (translatePath path host.fspath) (owned host.process .dir mode uid gid)).toOption :=
  run_of_status (congrArg some (create_then_chown t _ uid gid rfl))

theorem run_mknod (made : madeKind mode rdev = .ok kind) (path : Path) (uid gid : UInt32) :
    run host (.mknod path mode rdev (.unix uid gid)) t =
      (t.create (translatePath path host.fspath) (owned host.process kind mode uid gid)).toOption :=
  run_of_status (congrArg some (xmpMknod_eq made host.process t _ uid gid))

theorem run_symlink (nonempty : source ≠ []) (dest : Path) (uid gid : UInt32) :
    run host (.symlink source dest (.unix uid gid)) t =
      (t.create (translatePath dest host.fspath)
        (owned host.process (.lnk ⟨source, nonempty⟩) 0o777 uid gid)).toOption := by
  refine run_of_status (congrArg some ?_)
  rw [xmpSymlink, Tree.symlink, dif_neg nonempty]
  exact create_then_lchown t _ uid gid

variable {t}

theorem run_create (absent : t.names.find (translatePath path host.fspath) = none)
    (flag : flags.toUInt32 &&& Tree.oCreat ≠ 0) (mode uid gid : UInt32) :
    run host (.create path flags (.unix uid gid) mode) t =
      (t.create (translatePath path host.fspath) (owned host.process (.reg []) mode uid gid)).toOption :=
  run_of_status (congrArg some (xmpCreate_eq absent flag host.process mode uid gid))

end Calls

theorem probe_missing {t : Tree} (absent : t.names.find (translatePath path host.fspath) = none)
    (parent : t.isDir (translatePath path host.fspath).dropLast = true) : probe path host t = .ok none := by
  rw [probe, translateAndStat, Tree.lstat, Tree.inode?_eq_none.mpr absent, Tree.obstacle_in_dir parent]

theorem probe_met {t : Tree} (held : t.inode? (translatePath path host.fspath) = some node) :
    probe path host t = .ok (some node) := by
  rw [probe, translateAndStat, Tree.lstat, held]

/-- An entry that makes an object where it is missing and removes it where it is
met joins a tree without the object and one with it. -/
theorem joins_of_toggle {remove : Tree → Except Errno Tree} {entry : BilogEntry} {without with_ : Tree}
    (missing : ∀ u : Tree, u.names.find path = none → u.isDir path.dropLast = true →
      flip host entry u = (u.create path node).toOption)
    (met : ∀ u : Tree, u.sight path = with_.sight path → flip host entry u = (remove u).toOption)
    (alike : ∀ t u after, Tree.Alike t u → remove t = .ok after →
      ∃ after', remove u = .ok after' ∧ Tree.Alike after after')
    (made : without.create path node = .ok made_) (made_alike : Tree.Alike made_ with_)
    (removed : remove with_ = .ok removed_) (removed_alike : Tree.Alike removed_ without) :
    Joins (flip host) Tree.Alike entry without with_ where
  forth u near := by
    obtain ⟨absent, parent, -⟩ := Tree.create_ok made
    obtain ⟨after, created, alike'⟩ := near.symm.create rfl made
    refine ⟨after, ?_, alike'.symm.trans made_alike⟩
    rw [missing u ((near.find_none path).mpr absent) ((near.isDir _).trans parent), created]
    rfl
  back u near := by
    obtain ⟨after, gone, alike'⟩ := alike _ _ _ near.symm removed
    refine ⟨after, ?_, alike'.symm.trans removed_alike⟩
    rw [met u (near.same path), gone]
    rfl

theorem flip_of_apply (applied : entry.apply host t = .ok call) : flip host entry t = run host call t := by
  rw [flip, applied]

theorem toOption_some {result : Except Errno Tree} (found : result.toOption = some after) :
    result = .ok after := by
  cases result with
  | ok value => exact congrArg _ (Option.some.inj found)
  | error errno => cases found

theorem held_of_sight {t u : Tree} (same : t.sight path = u.sight path) (present : u.inode? path = some node) :
    ∃ node', t.inode? path = some node' ∧ node'.traits = node.traits := by
  rw [Tree.sight, Tree.sight, present] at same
  exact Option.map_eq_some_iff.mp same

theorem set_own (current owner : Owner) : current.set owner.1 = owner := dif_neg owner.2

/-- An object made again from what its entry recorded looks as before. -/
theorem traits_owned (process : Process) (node : Inode) (perms : node.isLnk = true ∨ permOf mode = node.perms) :
    (owned process node.kind mode node.uid node.gid).traits = node.traits := by
  have lnk : (owned process node.kind mode node.uid node.gid).isLnk = node.isLnk := rfl
  show Traits.mk node.kind (if (owned process node.kind mode node.uid node.gid).isLnk then 0o777#12
    else permOf mode) (process.uid.set node.uid) (process.gid.set node.gid) = node.traits
  rw [lnk, set_own, set_own, Inode.traits, Inode.perms]
  rcases perms with lnk | same
  · rw [if_pos lnk, if_pos lnk]
  · rw [same, Inode.perms]
    split <;> rfl

section Dir

variable {x : BilogDir} {t : Tree}

theorem flip_dir_missing (absent : t.names.find (translatePath x.path host.fspath) = none)
    (parent : t.isDir (translatePath x.path host.fspath).dropLast = true) :
    flip host (.dir x) t = (t.create (translatePath x.path host.fspath)
      (owned host.process .dir x.mode x.uid x.gid)).toOption := by
  have applied : (BilogEntry.dir x).apply host t = .ok (.mkdir x.path (.unix x.uid x.gid) x.mode) := by
    rw [BilogEntry.apply, BilogDir.old, probe_missing absent parent]
    rfl
  rw [flip_of_apply applied, run_mkdir]

theorem flip_dir_met (held : t.inode? (translatePath x.path host.fspath) = some node) :
    flip host (.dir x) t = (t.rmdir (translatePath x.path host.fspath)).toOption := by
  have applied : (BilogEntry.dir x).apply host t = .ok (.rmdir x.path) := by
    rw [BilogEntry.apply, BilogDir.old, probe_met held]
    rfl
  rw [flip_of_apply applied, run_rmdir]

/-- A directory made. -/
theorem mkdir_joins (ran : run host (.mkdir path (.unix uid gid) mode) t = some after) :
    Joins (flip host) Tree.Alike (.dir { path, mode, uid, gid, dirExists := true }) t after := by
  rw [run_mkdir] at ran
  have made := toOption_some ran
  obtain ⟨undone, removed, alike⟩ := Tree.rmdir_created made rfl
  obtain ⟨absent, parent, rfl⟩ := Tree.create_ok made
  refine joins_of_toggle (fun u => flip_dir_missing) (fun u same => ?_)
    (fun _ _ _ near gone => near.rmdir gone) made (Tree.Alike.refl _) removed alike
  obtain ⟨node, held, -⟩ := held_of_sight same (by rw [Tree.inode?_attach, if_pos rfl])
  exact flip_dir_met held

/-- A directory removed. -/
theorem rmdir_joins (ran : run host (.rmdir path) t = some after) :
    ∃ entry, BilogEntry.tryFrom (.rmdir path) host t = .ok entry ∧
      Joins (flip host) Tree.Alike entry t after := by
  rw [run_rmdir] at ran
  have removed := toOption_some ran
  obtain ⟨kind, proper, alone, rfl⟩ := Tree.rmdir_ok removed
  obtain ⟨node, held, isDir⟩ := Tree.isDir_iff.mp kind
  have recorded : BilogEntry.tryFrom (.rmdir path) host t =
      .ok (.dir ⟨path, node.mode ^^^ 0, true, node.uid ^^^ 0, node.gid ^^^ 0⟩) := by
    rw [BilogEntry.tryFrom, BilogDir.old, probe_met held]
    rfl
  have dir : node.kind = .dir := by simpa [Inode.isDir] using isDir
  have traits : (owned host.process .dir (node.mode ^^^ 0) (node.uid ^^^ 0) (node.gid ^^^ 0)).traits =
      node.traits := by
    rw [UInt32.xor_zero, UInt32.xor_zero, UInt32.xor_zero, ← dir]
    exact traits_owned _ node (Or.inr (permOf_mode node))
  have shown : t.sight (translatePath path host.fspath) =
      some (owned host.process .dir (node.mode ^^^ 0) (node.uid ^^^ 0) (node.gid ^^^ 0)).traits := by
    rw [traits, Tree.sight, held]
    rfl
  have sole : ∀ other, t.names.find other = t.names.find (translatePath path host.fspath) →
      other = translatePath path host.fspath := by
    intro other shared
    obtain ⟨i, found, -⟩ := Tree.find_of_inode? held
    exact (t.single _ other i found (shared.trans found) kind).symm
  obtain ⟨undone, made, alike⟩ := Tree.create_detached shown (fun _ => sole) proper alone
  refine ⟨_, recorded, (joins_of_toggle (fun u => flip_dir_missing) (fun u same => ?_)
    (fun _ _ _ near gone => near.rmdir gone) made alike removed (Tree.Alike.refl _)).symm⟩
  obtain ⟨node', held', -⟩ := held_of_sight same held
  exact flip_dir_met held'

end Dir

section Unlinked

variable {t : Tree} {entry : BilogEntry}
    (missing : ∀ u : Tree, u.names.find path = none → u.isDir path.dropLast = true →
      flip host entry u = (u.create path made).toOption)

include missing

/-- Of an object that `unlink` removes, its making. -/
theorem joins_of_created (created : t.create path made = .ok after) (kind : made.isDir = false)
    (met : ∀ u : Tree, u.sight path = some made.traits → flip host entry u = (u.unlink path).toOption) :
    Joins (flip host) Tree.Alike entry t after := by
  obtain ⟨undone, removed, alike⟩ := Tree.unlink_created created kind
  obtain ⟨absent, parent, rfl⟩ := Tree.create_ok created
  refine joins_of_toggle missing (fun u same => met u ?_) (fun _ _ _ near gone => near.unlink gone) created
    (Tree.Alike.refl _) removed alike
  rw [same, Tree.sight_attach, if_pos rfl]

/-- And its removal, if no other name shares it or it never changes. -/
theorem joins_of_unlinked (removed : t.unlink path = .ok after) (held : t.inode? path = some node)
    (traits : made.traits = node.traits)
    (sole : node.isLnk = false → ∀ other, t.names.find other = t.names.find path → other = path)
    (met : ∀ u : Tree, u.sight path = some node.traits → flip host entry u = (u.unlink path).toOption) :
    Joins (flip host) Tree.Alike entry t after := by
  obtain ⟨-, -, proper, alone, rfl⟩ := Tree.unlink_ok removed
  have shown : t.sight path = some made.traits := by
    rw [traits, Tree.sight, held]
    rfl
  have sole : made.traits.firm = true → ∀ other, t.names.find other = t.names.find path → other = path := by
    intro firm
    refine sole ?_
    rw [Tree.isLnk_eq_firm, ← traits, firm]
    rfl
  obtain ⟨undone, created, alike⟩ := Tree.create_detached shown sole proper alone
  refine (joins_of_toggle missing (fun u same => met u ?_) (fun _ _ _ near gone => near.unlink gone) created
    alike removed (Tree.Alike.refl _)).symm
  rw [same, shown, traits]

end Unlinked

/-- A shared inode would count at least twice. -/
theorem sole_of_nlink {t : Tree} (single : t.nlink path ≤ 1) (present : t.names.find path = some i)
    (shared : t.names.find other = t.names.find path) : other = path := by
  have member (name : Path) (found : t.names.find name = some i) :
      (name, i) ∈ t.names.entries.filter fun entry => some entry.2 = t.names.find path := by
    rw [List.mem_filter, SortedMap.mem_entries_iff]
    exact ⟨found, by simp [present]⟩
  rw [Tree.nlink, List.countP_eq_length_filter] at single
  have first := member other (shared.trans present)
  have second := member path present
  generalize t.names.entries.filter (fun entry => some entry.2 = t.names.find path) = named at *
  match named, single with
  | [], _ => cases first
  | [entry], _ =>
    have same := (List.mem_singleton.mp first).trans (List.mem_singleton.mp second).symm
    exact congrArg Prod.fst same

section File

variable {x : BilogFile} {t : Tree}

theorem flip_file_missing (absent : t.names.find (translatePath x.path host.fspath) = none)
    (parent : t.isDir (translatePath x.path host.fspath).dropLast = true) :
    flip host (.file x) t = (t.create (translatePath x.path host.fspath)
      (owned host.process (.reg []) x.mode x.uid x.gid)).toOption := by
  have applied : (BilogEntry.file x).apply host t =
      .ok (.create x.path BilogFile.createFlags (.unix x.uid x.gid) x.mode) := by
    rw [BilogEntry.apply, BilogFile.old, probe_missing absent parent]
    rfl
  rw [flip_of_apply applied, run_create host absent (by decide)]

theorem flip_file_met (held : t.inode? (translatePath x.path host.fspath) = some node) :
    flip host (.file x) t = (t.unlink (translatePath x.path host.fspath)).toOption := by
  have applied : (BilogEntry.file x).apply host t = .ok (.unlink x.path) := by
    rw [BilogEntry.apply, BilogFile.old, probe_met held]
    rfl
  rw [flip_of_apply applied, run_unlink]

theorem sight_met {u : Tree} (same : u.sight path = some traits) :
    ∃ node, u.inode? path = some node ∧ node.traits = traits :=
  Option.map_eq_some_iff.mp same

theorem create_joins (absent : t.names.find (translatePath path host.fspath) = none)
    (ran : run host (.create path flags (.unix uid gid) mode) t = some after) :
    Joins (flip host) Tree.Alike (.file { path, mode, present := false, uid, gid }) t after := by
  by_cases flag : flags.toUInt32 &&& Tree.oCreat = 0
  · have failed : run host (.create path flags (.unix uid gid) mode) t = none :=
      run_of_error (congrArg some (xmpCreate_missing absent flag host.process mode uid gid))
    rw [failed] at ran
    cases ran
  · rw [run_create host absent flag] at ran
    refine joins_of_created (fun u => flip_file_missing) (toOption_some ran) rfl fun u same => ?_
    obtain ⟨node, held, -⟩ := sight_met same
    exact flip_file_met held

theorem unlink_file_joins (removed : t.unlink (translatePath path host.fspath) = .ok after)
    (held : t.inode? (translatePath path host.fspath) = some node) (kind : node.kind = .reg [])
    (single : t.nlink (translatePath path host.fspath) ≤ 1) :
    ∃ entry, BilogEntry.tryFrom (.unlink path) host t = .ok entry ∧
      Joins (flip host) Tree.Alike entry t after := by
  obtain ⟨i, found, -⟩ := Tree.find_of_inode? held
  have recorded : BilogEntry.tryFrom (.unlink path) host t =
      .ok (.file ⟨path, 0 ^^^ node.mode, true, node.uid ^^^ 0, node.gid ^^^ 0⟩) := by
    rw [BilogEntry.tryFrom, BilogEntry.tryFromUnlink, translateAndStat, Tree.lstat, held]
    simp only [lift, ok_bind, kind, List.length_nil, if_neg (Nat.not_lt.mpr single), BilogFile.old, probe_met held]
    rfl
  have traits : (owned host.process (.reg []) (0 ^^^ node.mode) (node.uid ^^^ 0) (node.gid ^^^ 0)).traits =
      node.traits := by
    rw [UInt32.zero_xor, UInt32.xor_zero, UInt32.xor_zero, ← kind]
    exact traits_owned _ node (Or.inr (permOf_mode node))
  refine ⟨_, recorded, joins_of_unlinked (fun u => flip_file_missing) removed held traits
    (fun _ other shared => sole_of_nlink single found shared) fun u same => ?_⟩
  obtain ⟨node', held', -⟩ := sight_met same
  exact flip_file_met held'

end File

section Node

variable {x : BilogNode} {t : Tree}

theorem flip_node_missing (made : madeKind x.mode x.rdev = .ok kind)
    (absent : t.names.find (translatePath x.path host.fspath) = none)
    (parent : t.isDir (translatePath x.path host.fspath).dropLast = true) :
    flip host (.node x) t = (t.create (translatePath x.path host.fspath)
      (owned host.process kind x.mode x.uid x.gid)).toOption := by
  have applied : (BilogEntry.node x).apply host t = .ok (.mknod x.path x.mode x.rdev (.unix x.uid x.gid)) := by
    rw [BilogEntry.apply, BilogNode.old, probe_missing absent parent]
    rfl
  rw [flip_of_apply applied, run_mknod host t made]

theorem flip_node_met (held : t.inode? (translatePath x.path host.fspath) = some node) :
    flip host (.node x) t = (t.unlink (translatePath x.path host.fspath)).toOption := by
  have applied : (BilogEntry.node x).apply host t = .ok (.unlink x.path) := by
    rw [BilogEntry.apply, BilogNode.old, probe_met held]
    rfl
  rw [flip_of_apply applied, run_unlink]

theorem mknod_joins (ran : run host (.mknod path mode rdev (.unix uid gid)) t = some after) :
    Joins (flip host) Tree.Alike (.node { path, mode, rdev, present := true, uid, gid }) t after := by
  cases made : madeKind mode rdev with
  | error errno =>
    have failed : run host (.mknod path mode rdev (.unix uid gid)) t = none :=
      run_of_error (congrArg some (xmpMknod_error made host.process t _ uid gid))
    rw [failed] at ran
    cases ran
  | ok kind =>
    rw [run_mknod host t made] at ran
    have file : (owned host.process kind mode uid gid).isDir = false :=
      decide_eq_false (madeKind_firm made).1
    refine joins_of_created (fun u => flip_node_missing made) (toOption_some ran) file fun u same => ?_
    obtain ⟨node, held, -⟩ := sight_met same
    exact flip_node_met held

private theorem setWidth_and_mask (perms : BitVec 12) : perms.setWidth 32 &&& 0o170000#32 = 0#32 := by
  apply BitVec.eq_of_getLsbD_eq
  intro i bound
  rw [BitVec.getLsbD_and, BitVec.getLsbD_setWidth, BitVec.getLsbD_zero]
  by_cases low : i < 12
  · have clear : ∀ j : Fin 12, (0o170000#32).getLsbD j = false := by decide
    rw [clear ⟨i, low⟩, Bool.and_false]
  · rw [BitVec.getLsbD_of_ge perms i (by omega), Bool.and_false, Bool.false_and]

theorem or_and_mask (type : UInt32) (perms : BitVec 12) :
    (type ||| ⟨perms.setWidth 32⟩) &&& fileTypeMask = type &&& fileTypeMask := by
  apply UInt32.toBitVec_inj.mp
  rw [UInt32.toBitVec_and, UInt32.toBitVec_or, BitVec.and_or_distrib_right]
  show _ ||| perms.setWidth 32 &&& 0o170000#32 = _
  rw [setWidth_and_mask, BitVec.or_zero, UInt32.toBitVec_and]

/-- A mode shows the type of its object in the bits of the type. -/
theorem mode_and_mask (node : Inode) : node.mode &&& fileTypeMask = node.kind.typeBits := by
  rw [Inode.mode, or_and_mask]
  cases node.kind <;> simp only [Kind.typeBits] <;> decide

private theorem or_fifo_and_mask (mode : UInt32) :
    (mode ||| sIfifo) &&& fileTypeMask = mode &&& fileTypeMask ||| sIfifo := by
  apply UInt32.toBitVec_inj.mp
  rw [UInt32.toBitVec_and, UInt32.toBitVec_or, BitVec.and_or_distrib_right]
  rfl

theorem mode_and_fifo (node : Inode) : node.mode &&& sIfifo = node.kind.typeBits &&& sIfifo := by
  have inside : fileTypeMask &&& sIfifo = sIfifo := by decide
  rw [← mode_and_mask, UInt32.and_assoc, inside]

/-- The special files, as `unlink` tells them from the rest. -/
def isSpecial : Kind → Bool
  | .chr _ | .blk _ | .fifo | .sock => true
  | _ => false

/-- A special file is made again by `mknod` from its mode and device number. -/
theorem madeKind_mode (node : Inode) (special : isSpecial node.kind = true) :
    madeKind node.mode node.kind.rdev.toUInt64 = .ok node.kind := by
  have small : node.kind.rdev.toUInt64.toNat < 2 ^ 32 := by
    rw [UInt32.toNat_toUInt64]
    exact node.kind.rdev.toNat_lt
  have mask := mode_and_mask node
  rw [madeKind, mode_and_fifo]
  cases kind : node.kind with
  | reg data => rw [kind] at special; cases special
  | dir => rw [kind] at special; cases special
  | lnk target => rw [kind] at special; cases special
  | fifo =>
    rw [kind] at mask
    rw [if_pos (by decide), Tree.nodeKind, if_pos (by decide), or_fifo_and_mask, mask]
    rfl
  | chr rdev =>
    rw [kind] at mask small
    have other : (Kind.chr rdev).typeBits &&& sIfifo ≠ sIfifo :=
      show (0o020000 : UInt32) &&& sIfifo ≠ sIfifo by decide
    rw [if_neg other, Tree.nodeKind, if_pos small, mask]
    show Except.ok (Kind.chr rdev.toUInt64.toUInt32) = _
    rw [UInt32.toUInt32_toUInt64]
  | blk rdev =>
    rw [kind] at mask small
    have other : (Kind.blk rdev).typeBits &&& sIfifo ≠ sIfifo :=
      show (0o060000 : UInt32) &&& sIfifo ≠ sIfifo by decide
    rw [if_neg other, Tree.nodeKind, if_pos small, mask]
    show Except.ok (Kind.blk rdev.toUInt64.toUInt32) = _
    rw [UInt32.toUInt32_toUInt64]
  | sock =>
    rw [kind] at mask small
    rw [if_neg (by decide), Tree.nodeKind, if_pos small, mask]
    rfl

theorem unlink_node_joins (removed : t.unlink (translatePath path host.fspath) = .ok after)
    (held : t.inode? (translatePath path host.fspath) = some node) (special : isSpecial node.kind = true)
    (single : t.nlink (translatePath path host.fspath) ≤ 1) :
    ∃ entry, BilogEntry.tryFrom (.unlink path) host t = .ok entry ∧
      Joins (flip host) Tree.Alike entry t after := by
  obtain ⟨i, found, -⟩ := Tree.find_of_inode? held
  have recorded : BilogEntry.tryFrom (.unlink path) host t =
      .ok (.node ⟨path, 0 ^^^ node.mode, 0 ^^^ node.kind.rdev.toUInt64, true, node.uid ^^^ 0, node.gid ^^^ 0⟩) := by
    rw [BilogEntry.tryFrom, BilogEntry.tryFromUnlink, translateAndStat, Tree.lstat, held]
    simp only [lift, ok_bind, BilogNode.old, probe_met held]
    cases kind : node.kind with
    | reg data => rw [kind] at special; cases special
    | dir => rw [kind] at special; cases special
    | lnk target => rw [kind] at special; cases special
    | _ => rfl
  have made : madeKind (0 ^^^ node.mode) (0 ^^^ node.kind.rdev.toUInt64) = .ok node.kind := by
    rw [UInt32.zero_xor, UInt64.zero_xor]
    exact madeKind_mode node special
  have traits : (owned host.process node.kind (0 ^^^ node.mode) (node.uid ^^^ 0) (node.gid ^^^ 0)).traits =
      node.traits := by
    rw [UInt32.zero_xor, UInt32.xor_zero, UInt32.xor_zero]
    exact traits_owned _ node (Or.inr (permOf_mode node))
  refine ⟨_, recorded, joins_of_unlinked (fun u => flip_node_missing made) removed held traits
    (fun _ other shared => sole_of_nlink single found shared) fun u same => ?_⟩
  obtain ⟨node', held', -⟩ := sight_met same
  exact flip_node_met held'

end Node

section Symlink

variable {x : BilogSymlink} {t : Tree}

theorem flip_symlink_missing (nonempty : x.source ≠ [])
    (absent : t.names.find (translatePath x.dest host.fspath) = none)
    (parent : t.isDir (translatePath x.dest host.fspath).dropLast = true) :
    flip host (.symlink x) t = (t.create (translatePath x.dest host.fspath)
      (owned host.process (.lnk ⟨x.source, nonempty⟩) 0o777 x.uid x.gid)).toOption := by
  have applied : (BilogEntry.symlink x).apply host t = .ok (.symlink x.source x.dest (.unix x.uid x.gid)) := by
    rw [BilogEntry.apply, BilogSymlink.old, probe_missing absent parent]
    rfl
  rw [flip_of_apply applied, run_symlink host t nonempty]

theorem old_symlink (string : isStr (translatePath dest host.fspath) = true)
    (held : t.inode? (translatePath dest host.fspath) = some node) (kind : node.kind = .lnk target) :
    BilogSymlink.old dest host t = .ok ⟨target.1, dest, true, node.uid, node.gid⟩ := by
  have read : t.readlink (translatePath dest host.fspath) = .ok target.1 := by
    rw [Tree.readlink, Tree.lstat, held, ok_bind, kind]
  rw [BilogSymlink.old, probe_met held, ok_bind]
  simp only [string, if_true, read, lift, ok_bind]
  rfl

theorem flip_symlink_met (string : isStr (translatePath x.dest host.fspath) = true)
    (held : t.inode? (translatePath x.dest host.fspath) = some node) (kind : node.kind = .lnk target) :
    flip host (.symlink x) t = (t.unlink (translatePath x.dest host.fspath)).toOption := by
  have applied : (BilogEntry.symlink x).apply host t = .ok (.unlink x.dest) := by
    rw [BilogEntry.apply, old_symlink string held kind]
    rfl
  rw [flip_of_apply applied, run_unlink]

theorem symlink_joins (string : isStr (translatePath dest host.fspath) = true)
    (ran : run host (.symlink source dest (.unix uid gid)) t = some after) :
    Joins (flip host) Tree.Alike (.symlink { source, dest, uid, gid, toExists := true }) t after := by
  by_cases nonempty : source = []
  · have failed : xmpSymlink host.process t source (translatePath dest host.fspath) uid gid =
        (-Errno.enoent.code, t) := by
      rw [xmpSymlink, Tree.symlink, dif_pos nonempty]
      rfl
    have failed : run host (.symlink source dest (.unix uid gid)) t = none :=
      run_of_error (congrArg some failed)
    rw [failed] at ran
    cases ran
  · rw [run_symlink host t nonempty] at ran
    refine joins_of_created (fun u => flip_symlink_missing (x := ⟨source, dest, true, uid, gid⟩) nonempty)
      (toOption_some ran) rfl fun u same => ?_
    obtain ⟨node, held, traits⟩ := sight_met same
    exact flip_symlink_met string held (congrArg Traits.kind traits)

theorem unlink_symlink_joins (removed : t.unlink (translatePath path host.fspath) = .ok after)
    (held : t.inode? (translatePath path host.fspath) = some node) (kind : node.kind = .lnk target)
    (string : isStr (translatePath path host.fspath) = true) :
    ∃ entry, BilogEntry.tryFrom (.unlink path) host t = .ok entry ∧
      Joins (flip host) Tree.Alike entry t after := by
  have lnk : node.isLnk = true := by rw [Inode.isLnk, kind]
  have recorded : BilogEntry.tryFrom (.unlink path) host t =
      .ok (.symlink ⟨target.1, path, true, node.uid ^^^ 0, node.gid ^^^ 0⟩) := by
    rw [BilogEntry.tryFrom, BilogEntry.tryFromUnlink, translateAndStat, Tree.lstat, held]
    simp only [lift, ok_bind, kind, old_symlink string held kind]
    rfl
  have traits : (owned host.process (.lnk target) 0o777 (node.uid ^^^ 0) (node.gid ^^^ 0)).traits =
      node.traits := by
    rw [UInt32.xor_zero, UInt32.xor_zero, ← kind]
    exact traits_owned _ node (Or.inl lnk)
  refine ⟨_, recorded, joins_of_unlinked
    (fun u => flip_symlink_missing (x := ⟨target.1, path, true, node.uid ^^^ 0, node.gid ^^^ 0⟩) target.2)
    removed held traits (fun firm => absurd lnk (by rw [firm]; exact Bool.false_ne_true)) fun u same => ?_⟩
  obtain ⟨node', held', traits'⟩ := sight_met same
  exact flip_symlink_met string held' ((congrArg Traits.kind traits').trans kind)

end Symlink

section Value

variable {t : Tree} {entry : BilogEntry} {set : α → Inode → Inode}

/-- An entry of a value sets a value computed from the current one; it joins two
trees if it computes the new value from the old one and takes the change back. -/
theorem joins_of_value (value : Traits → α) (new : α) (steady : ∀ v, Tree.Steady (set v))
    (flips : ∀ (u : Tree) (node : Inode), u.inode? path = some node → (u.sight path).any Traits.firm = true →
      flip host entry u = (u.change path (set (value node.traits)) (steady _).isDir).toOption)
    (firm : (t.sight path).any Traits.firm = true) (held : t.inode? path = some node)
    (changed : t.change path (set new) (steady _).isDir = .ok after) (forth : value node.traits = new)
    (back : (set (value (set new node).traits) (set new node)).traits = node.traits) :
    Joins (flip host) Tree.Alike entry t after where
  forth u near := by
    have firm' : (u.sight path).any Traits.firm = true := by rw [near.same]; exact firm
    obtain ⟨node', held', traits⟩ := held_of_sight (near.same path) held
    obtain ⟨reached, changed', alike⟩ := near.symm.change (steady new) firm changed
    refine ⟨reached, ?_, alike.symm⟩
    rw [flips u node' held' firm', traits, forth, changed']
    rfl
  back u near := by
    obtain ⟨i, found, rfl⟩ := Tree.change_ok changed
    have set_held : (t.amend i (set new) (steady _).isDir).inode? path = some (set new node) := by
      rw [Tree.inode?_amend, if_pos found, held]
      rfl
    have set_firm : ((t.amend i (set new) (steady _).isDir).sight path).any Traits.firm = true := by
      rw [Tree.firm_amend (steady new)]
      exact firm
    have firm' : (u.sight path).any Traits.firm = true := by rw [near.same]; exact set_firm
    obtain ⟨node', held', traits⟩ := held_of_sight (near.same path) set_held
    have undone : (t.amend i (set new) (steady _).isDir).change path (set (value (set new node).traits))
        (steady _).isDir = .ok _ := Tree.change_of found
    obtain ⟨reached, changed', alike⟩ := near.symm.change (steady _) set_firm undone
    refine ⟨reached, ?_, alike.symm.trans (Tree.alike_amend_amend found held _ _ back)⟩
    rw [flips u node' held' firm', traits, changed']
    rfl

end Value

section Metadata

variable {t : Tree}

def Traits.mode (traits : Traits) : UInt32 := traits.kind.typeBits ||| ⟨traits.perms.setWidth 32⟩

theorem stat_met (held : t.inode? (translatePath path host.fspath) = some node) :
    lift (translateAndStat path host t) = .ok node := by
  rw [translateAndStat, Tree.lstat, held]
  rfl

theorem lnk_of_firm (held : t.inode? path = some node) (firm : (t.sight path).any Traits.firm = true) :
    node.isLnk = false := by
  rw [Tree.sight, held] at firm
  rw [Tree.isLnk_eq_firm, show node.traits.firm = true from firm]
  rfl

theorem perms_setMode {node : Inode} (lnk : node.isLnk = false) (mode : UInt32) : (node.setMode mode).perms = permOf mode := by
  have same : (node.setMode mode).isLnk = false := lnk
  rw [Inode.perms, same]
  rfl

/-- The exclusive or of the old and the new mode takes the new one back. -/
theorem setMode_back {node : Inode} (lnk : node.isLnk = false) (mode : UInt32) :
    ((node.setMode mode).setMode (mode ^^^ node.mode ^^^ (node.setMode mode).mode)).traits = node.traits := by
  have perms : ((node.setMode mode).setMode (mode ^^^ node.mode ^^^ (node.setMode mode).mode)).perms =
      node.perms := by
    have same : (node.setMode mode).isLnk = false := lnk
    rw [perms_setMode same, permOf_xor, permOf_xor, permOf_mode, permOf_mode, perms_setMode lnk,
      BitVec.xor_comm (permOf mode), BitVec.xor_assoc, BitVec.xor_self, BitVec.xor_zero]
  rw [Inode.traits, perms]
  rfl

/-- An owner given in a call, or left alone by it, is taken back the same way. -/
theorem set_back (current : Owner) (id : UInt32) :
    (current.set id).set (id ^^^ current ^^^ (current.set id).1) = current := by
  by_cases none : id = noOwner
  · have kept : current.set id = current := dif_pos none
    rw [kept, UInt32.xor_assoc, UInt32.xor_self, UInt32.xor_zero, kept]
  · have given : (current.set id).1 = id := by rw [Owner.set, dif_neg none]
    rw [given, UInt32.xor_comm id, UInt32.xor_assoc, UInt32.xor_self, UInt32.xor_zero, set_own]

theorem chmod_joins (ran : run host (.chmod path mode) t = some after) :
    ∃ entry, BilogEntry.tryFrom (.chmod path mode) host t = .ok entry ∧
      Joins (flip host) Tree.Alike entry t after := by
  rw [run_chmod] at ran
  obtain ⟨firm, changed⟩ := Tree.followed_ok (toOption_some ran)
  obtain ⟨i, found, -⟩ := Tree.change_ok changed
  obtain ⟨node, held⟩ := Tree.inode?_of_find found
  have recorded : BilogEntry.tryFrom (.chmod path mode) host t =
      .ok (.chmod (BilogChmod.xor (.state path node.mode) (.state path mode))) := by
    rw [BilogEntry.tryFrom, BilogChmod.old, stat_met held]
    rfl
  refine ⟨_, recorded, joins_of_value (fun traits => mode ^^^ node.mode ^^^ Traits.mode traits) mode
    Tree.steady_setMode (fun u current held' firm' => ?_) firm held changed ?_ ?_⟩
  · have applied : (BilogEntry.chmod (BilogChmod.xor (.state path node.mode) (.state path mode))).apply host u =
        .ok (.chmod path (mode ^^^ node.mode ^^^ current.mode)) := by
      rw [BilogEntry.apply]
      show (BilogChmod.old path host u >>= _) = _
      rw [BilogChmod.old, stat_met held']
      exact chmod_apply path node.mode mode current.mode
    rw [flip_of_apply applied, run_chmod, Tree.chmod, Tree.followed_eq firm']
    rfl
  · show mode ^^^ node.mode ^^^ node.mode = mode
    rw [UInt32.xor_assoc, UInt32.xor_self, UInt32.xor_zero]
  · exact setMode_back (lnk_of_firm held firm) mode

theorem chown_joins (ran : run host (.security path (.unix uid gid)) t = some after) :
    ∃ entry, BilogEntry.tryFrom (.security path (.unix uid gid)) host t = .ok entry ∧
      Joins (flip host) Tree.Alike entry t after := by
  rw [run_security] at ran
  obtain ⟨firm, changed⟩ := Tree.followed_ok (toOption_some ran)
  obtain ⟨i, found, -⟩ := Tree.change_ok changed
  obtain ⟨node, held⟩ := Tree.inode?_of_find found
  have recorded : BilogEntry.tryFrom (.security path (.unix uid gid)) host t =
      .ok (.chown (BilogChown.xor (.state path node.uid node.gid) (.state path uid gid))) := by
    rw [BilogEntry.tryFrom, BilogChown.new, ok_bind, BilogChown.old, stat_met held]
    rfl
  refine ⟨_, recorded, joins_of_value
    (fun traits => (uid ^^^ node.uid ^^^ traits.uid, gid ^^^ node.gid ^^^ traits.gid)) (uid, gid)
    (fun owner => Tree.steady_setOwner owner.1 owner.2) (fun u current held' firm' => ?_) firm held
    changed ?_ ?_⟩
  · have applied : (BilogEntry.chown (BilogChown.xor (.state path node.uid node.gid)
        (.state path uid gid))).apply host u =
          .ok (.security path (.unix (uid ^^^ node.uid ^^^ current.uid) (gid ^^^ node.gid ^^^ current.gid))) := by
      rw [BilogEntry.apply]
      show (BilogChown.old path host u >>= _) = _
      rw [BilogChown.old, stat_met held']
      exact chown_apply path node.uid node.gid uid gid current.uid current.gid
    rw [flip_of_apply applied, run_security, Tree.chown, Tree.followed_eq firm']
    rfl
  · show (uid ^^^ node.uid ^^^ node.uid.1, gid ^^^ node.gid ^^^ node.gid.1) = (uid, gid)
    simp only [UInt32.xor_assoc, UInt32.xor_self, UInt32.xor_zero]
  · show Traits.mk node.kind node.perms _ _ = Traits.mk node.kind node.perms node.uid node.gid
    congr 1
    · exact set_back node.uid uid
    · exact set_back node.gid gid

end Metadata

/-- Each call is turned into an entry just before it runs. -/
def history (host : Host) : List VFSCall → Tree → Option (List BilogEntry × Tree)
  | [], t => some ([], t)
  | call :: calls, t =>
    match BilogEntry.tryFrom call host t, run host call t with
    | .ok entry, some after => (history host calls after).map fun (entries, final) => (entry :: entries, final)
    | _, _ => none

/-- Paths, types, modes, owners and link targets, and the contents of files. -/
def SameTree (t u : Tree) : Prop := ∀ path, t.sight path = u.sight path

/-- The recorded entries lead back from the final to the initial tree, and from
there to the final tree again. -/
def Reversible (host : Host) (t : Tree) (calls : List VFSCall) (final : Tree) : Prop :=
  ∃ entries undone redone, history host calls t = some (entries, final) ∧
    replay (flip host) entries.reverse final = some undone ∧ SameTree undone t ∧
    replay (flip host) entries undone = some redone ∧ SameTree redone final

/-- Metadata changes and changes to objects without contents. -/
def MetadataCall (host : Host) (t : Tree) : VFSCall → Prop
  | .chmod _ _ | .security _ (.unix _ _) | .mkdir _ (.unix _ _) _ | .rmdir _ => True
  | .symlink _ _ (.unix _ _) | .mknod _ _ _ (.unix _ _) | .create _ _ (.unix _ _) _ => True
  | .unlink path => ∀ node data, t.inode? (translatePath path host.fspath) = some node →
      node.kind = .reg data → data = [] ∧ t.nlink (translatePath path host.fspath) ≤ 1
  | _ => False

/-- Symbolic links have paths that are strings, files are created where nothing
is, and special files are not removed while they have another name. -/
def Retraceable (host : Host) (t : Tree) : VFSCall → Prop
  | .symlink _ dest _ => isStr (translatePath dest host.fspath) = true
  | .create path _ _ _ => t.names.find (translatePath path host.fspath) = none
  | .unlink path => ∀ node, t.inode? (translatePath path host.fspath) = some node →
      (node.isLnk = true → isStr (translatePath path host.fspath) = true) ∧
      (isSpecial node.kind = true → t.nlink (translatePath path host.fspath) ≤ 1)
  | _ => True

/-- A sequence of successful calls, each of them allowed where it runs. -/
inductive Runs (host : Host) (allowed : Tree → VFSCall → Prop) : Tree → List VFSCall → Tree → Prop where
  | nil (t : Tree) : Runs host allowed t [] t
  | cons (fits : allowed t call) (ran : run host call t = some after) (rest : Runs host allowed after calls final) :
      Runs host allowed t (call :: calls) final

theorem unlink_joins (metadata : MetadataCall host t (.unlink path)) (retraceable : Retraceable host t (.unlink path))
    (ran : run host (.unlink path) t = some after) :
    ∃ entry, BilogEntry.tryFrom (.unlink path) host t = .ok entry ∧
      Joins (flip host) Tree.Alike entry t after := by
  rw [run_unlink] at ran
  have removed := toOption_some ran
  obtain ⟨present, other_kind, -⟩ := Tree.unlink_ok removed
  obtain ⟨i, found⟩ := Option.ne_none_iff_exists'.mp present
  obtain ⟨node, held⟩ := Tree.inode?_of_find found
  obtain ⟨string, single⟩ := retraceable node held
  cases kind : node.kind with
  | reg data =>
    obtain ⟨rfl, alone⟩ := metadata node data held kind
    exact unlink_file_joins removed held kind alone
  | dir =>
    rw [Tree.isDir, isDirIn, ← Tree.inode?, held] at other_kind
    exact absurd other_kind (by simp [Inode.isDir, kind])
  | lnk target => exact unlink_symlink_joins removed held kind (string (by rw [Inode.isLnk, kind]))
  | chr rdev => exact unlink_node_joins removed held (by rw [kind]; rfl) (single (by rw [kind]; rfl))
  | blk rdev => exact unlink_node_joins removed held (by rw [kind]; rfl) (single (by rw [kind]; rfl))
  | fifo => exact unlink_node_joins removed held (by rw [kind]; rfl) (single (by rw [kind]; rfl))
  | sock => exact unlink_node_joins removed held (by rw [kind]; rfl) (single (by rw [kind]; rfl))

/-- One step of a history: its entry is recorded and leads both ways. -/
theorem step_joins (metadata : MetadataCall host t call) (retraceable : Retraceable host t call)
    (ran : run host call t = some after) :
    ∃ entry, BilogEntry.tryFrom call host t = .ok entry ∧ Joins (flip host) Tree.Alike entry t after := by
  unfold MetadataCall at metadata
  split at metadata
  · exact chmod_joins ran
  · exact chown_joins ran
  · exact ⟨_, rfl, mkdir_joins ran⟩
  · exact rmdir_joins ran
  · exact ⟨_, rfl, symlink_joins retraceable ran⟩
  · exact ⟨_, rfl, mknod_joins ran⟩
  · exact ⟨_, rfl, create_joins retraceable ran⟩
  · exact unlink_joins metadata retraceable ran
  · cases metadata

theorem history_chain (runs : Runs host (fun t call => MetadataCall host t call ∧ Retraceable host t call)
    t calls final) :
    ∃ entries, history host calls t = some (entries, final) ∧ Chain (flip host) Tree.Alike t entries final := by
  induction runs with
  | nil t => exact ⟨[], rfl, .nil t⟩
  | cons fits ran _ ih =>
    obtain ⟨entry, recorded, joins⟩ := step_joins fits.1 fits.2 ran
    obtain ⟨entries, rest, chain⟩ := ih
    exact ⟨entry :: entries, by rw [history, recorded, ran]; simp [rest], .cons joins chain⟩

/-- Every history of such calls can be taken back and repeated. -/
theorem metadata_history_reversible
    (runs : Runs host (fun t call => MetadataCall host t call ∧ Retraceable host t call) t calls final) :
    Reversible host t calls final := by
  obtain ⟨entries, recorded, chain⟩ := history_chain runs
  obtain ⟨undone, back, alike⟩ := chain.back (Tree.Alike.refl final)
  obtain ⟨redone, forth, alike'⟩ := chain.forth alike
  exact ⟨entries, undone, redone, recorded, back, alike.same, forth, alike'.same⟩

/-- A store with a pipe that has the names `a` and `b`. -/
def pipeStore : Tree :=
  (emptyStore.attach [[97]] (plainHost.process.newInode .fifo 0o644) rfl rfl).join [[97]] [[98]] 1
    rfl rfl rfl rfl

/-- What the paths of interest show after a history was recorded and taken back. -/
def undoneSight (calls : List VFSCall) (t : Tree) (path : Path) : Option (Option Traits) :=
  ((history plainHost calls t).bind fun recorded =>
    replay (flip plainHost) recorded.1.reverse recorded.2).map fun undone => undone.sight path

theorem not_reversible (path : Path) (differs : undoneSight calls t path ≠ some (t.sight path)) :
    ¬ Reversible plainHost t calls final := by
  rintro ⟨entries, undone, redone, recorded, back, same, -⟩
  rw [undoneSight, recorded, Option.bind_some, back, Option.map_some, same path] at differs
  exact differs rfl

/-- A symbolic link whose name is no string cannot be taken back; an existing file
that is opened by a create is removed; a pipe with two names comes back as two. -/
theorem metadata_histories_not_reversible :
    (∃ final, Runs plainHost (MetadataCall plainHost) emptyStore [.symlink [120] [[255]] (.unix 0 0)] final ∧
      ¬ Reversible plainHost emptyStore [.symlink [120] [[255]] (.unix 0 0)] final) ∧
    (∃ final, Runs plainHost (MetadataCall plainHost) (soloFile []) [.create [[102]] 0o100 (.unix 0 0) 0o644] final ∧
      ¬ Reversible plainHost (soloFile []) [.create [[102]] 0o100 (.unix 0 0) 0o644] final) ∧
    (∃ final, Runs plainHost (MetadataCall plainHost) pipeStore [.chmod [[97]] 0o010600, .unlink [[97]]] final ∧
      ¬ Reversible plainHost pipeStore [.chmod [[97]] 0o010600, .unlink [[97]]] final) := by
  refine ⟨⟨_, .cons trivial rfl (.nil _), not_reversible [] ?_⟩,
    ⟨_, .cons trivial rfl (.nil _), not_reversible [[102]] ?_⟩,
    ⟨_, .cons trivial rfl (.cons ?_ rfl (.nil _)), not_reversible [[98]] ?_⟩⟩
  · decide
  · decide
  · intro node data held kind
    cases held
    cases kind
  · decide +kernel

theorem directory_history_reversible :
    ∃ final, Reversible plainHost emptyStore
      [.mkdir [[100]] (.unix 1 1) 0o755, .chmod [[100]] 0o040700, .rmdir [[100]]] final :=
  ⟨_, metadata_history_reversible (.cons ⟨trivial, trivial⟩ rfl (.cons ⟨trivial, trivial⟩ rfl
    (.cons ⟨trivial, trivial⟩ rfl (.nil _))))⟩

end Fsyncer.Bilog
