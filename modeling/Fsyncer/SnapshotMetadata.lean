import Fsyncer.BilogHistory
import Fsyncer.SnapshotExtents

/-! The metadata of a file in a snapshot. The history of a file is folded into
one value for each kind of metadata, and replayed from these. Names of extended
attributes are kept without the zero byte that the replay asks for. -/
namespace Fsyncer.SnapshotMetadata
open Fsyncer.ByteFile (Failure)
open Fsyncer.FileTree
open Fsyncer.Machine Fsyncer.SnapshotReplay Fsyncer.SnapshotStore Fsyncer.Vfs
open Fsyncer.Bilog (amend_attach)
open Fsyncer.SnapshotExtents (epoch)

/-! ### Histories -/

/-- The name of an extended attribute, as a C string holds it. -/
abbrev CName := { name : Name // (0 : UInt8) ∉ name }

/-- A change of the metadata of a file. -/
inductive Change where
  | chmod (mode : UInt32)
  | security (uid gid : UInt32)
  | utimens (timespec : Timespec × Timespec × Timespec)
  | setxattr (name : CName) (value : List UInt8) (flags : Int32)
  | removexattr (name : CName)

def Change.call (path : Path) : Change → VFSCall
  | .chmod mode => .chmod path mode
  | .security uid gid => .security path (.unix uid gid)
  | .utimens timespec => .utimens path timespec
  | .setxattr name value flags => .setxattr path name.1 value flags
  | .removexattr name => .removexattr path name.1

def Change.isXattr : Change → Bool
  | .setxattr .. | .removexattr .. => true
  | _ => false

/-- The calls that bring a file or a directory into being. -/
inductive Maker where
  | create (flags : Int32)
  | mkdir

/-- Who makes a file, and with which owner and mode. -/
structure Birth where
  maker : Maker
  uid : UInt32
  gid : UInt32
  mode : UInt32

def Birth.call (path : Path) (birth : Birth) : VFSCall :=
  match birth.maker with
  | .create flags => .create path flags (.unix birth.uid birth.gid) birth.mode
  | .mkdir => .mkdir path (.unix birth.uid birth.gid) birth.mode

/-- The calls on one path: it may be made first, and is changed then. -/
def history (path : Path) (birth : Option Birth) (changes : List Change) : List VFSCall :=
  birth.toList.map (Birth.call path) ++ changes.map (Change.call path)

/-! ### What the snapshot keeps -/

/-- One value for each kind of metadata. -/
structure Meta where
  mode : Option UInt32
  owner : Option (UInt32 × UInt32)
  time : Option (Timespec × Timespec × Timespec)
  xattrs : Option (SortedMap Name (Option (List UInt8)))

def Meta.empty : Meta := ⟨none, none, none, none⟩

/-- The entry of a file that is not written to. -/
def Meta.file (m : Meta) (ty : FileType) (data : Option DataList) : File where
  uid := m.owner.map Prod.fst
  gid := m.owner.map Prod.snd
  mode := m.mode
  size := .unknown
  xattrs := m.xattrs
  time := m.time
  ty := ty
  data := data

def Change.onMeta (m : Meta) : Change → Meta
  | .chmod mode => { m with mode := some mode }
  | .security uid gid => { m with owner := some (uid, gid) }
  | .utimens timespec => { m with time := some timespec }
  | .setxattr name value _ => { m with xattrs := some ((m.xattrs.getD .empty).insert name.1 (some value)) }
  | .removexattr name => { m with xattrs := some ((m.xattrs.getD .empty).insert name.1 none) }

def Maker.type : Maker → FileType
  | .create flags => .new flags
  | .mkdir => .directory

def Maker.data : Maker → Option DataList
  | .create _ => some .empty
  | .mkdir => none

def Birth.onMeta (birth : Birth) : Meta := ⟨some birth.mode, some (birth.uid, birth.gid), none, none⟩

/-- What is kept of a history. -/
def kept (birth : Option Birth) (changes : List Change) : Meta :=
  changes.foldl Change.onMeta ((birth.map Birth.onMeta).getD .empty)

/-- The entry for a history, if it has any calls. -/
def entryOf (birth : Option Birth) (changes : List Change) : Option File :=
  match birth with
  | some birth => some ((kept birth changes).file birth.maker.type birth.maker.data)
  | none => if changes.isEmpty then none else some ((kept none changes).file .opened (some .empty))

/-- The table with one file. -/
def single (path : Path) (file : File) : Files := SortedMap.empty.insert path file

theorem getOrOpen_single (path : Path) (file : File) : getOrOpen (single path file) path = file := by
  rw [getOrOpen, single, SortedMap.find_insert_self, Option.getD_some]

theorem insert_single (path : Path) (file file' : File) : (single path file).insert path file' = single path file' := by
  refine SortedMap.ext fun other => ?_
  unfold single
  rw [SortedMap.find_insert, SortedMap.find_insert, SortedMap.find_insert]
  split <;> rfl

theorem mergeCall_change (s : Snapshot) (path : Path) (change : Change) :
    ∃ f, s.mergeCall (change.call path) = .ok (s.amend path f) ∧
      ∀ m ty data, f (Meta.file m ty data) = (change.onMeta m).file ty data := by
  cases change <;> exact ⟨_, rfl, fun _ _ _ => rfl⟩

theorem mergeFrom_changes (changes : List Change) {s : Snapshot} {m : Meta}
    (holds : s.files = single path (m.file ty data)) :
    ∃ s', s.mergeFrom (changes.map (Change.call path)) = .ok s' ∧
      s'.files = single path ((changes.foldl Change.onMeta m).file ty data) := by
  induction changes generalizing s m with
  | nil => exact ⟨s, rfl, holds⟩
  | cons change changes ih =>
    obtain ⟨f, merged, amends⟩ := mergeCall_change s path change
    have next : (s.amend path f).files = single path ((change.onMeta m).file ty data) := by
      rw [Snapshot.amend, holds, getOrOpen_single, amends, insert_single]
    obtain ⟨s', rest, final⟩ := ih next
    exact ⟨s', bind_ok.mpr ⟨_, merged, rest⟩, final⟩

/-- All calls are accepted, and leave the entry. -/
theorem mergeFrom_history (toFile : ByteFile.File) (now : JournalStore.SystemTime) (path : Path) (birth : Option Birth)
    (changes : List Change) : ∃ s, (Snapshot.new toFile now).mergeFrom (history path birth changes) = .ok s ∧
      s.files.entries = (entryOf birth changes).toList.map (path, ·) := by
  unfold history entryOf
  cases birth with
  | some birth =>
    have made : ∃ s, (Snapshot.new toFile now).mergeCall (birth.call path) = .ok s ∧
        s.files = single path (birth.onMeta.file birth.maker.type birth.maker.data) := by
      obtain ⟨maker, uid, gid, mode⟩ := birth
      cases maker <;> exact ⟨_, rfl, rfl⟩
    obtain ⟨s, made, holds⟩ := made
    obtain ⟨s', merged, final⟩ := mergeFrom_changes changes holds
    refine ⟨s', bind_ok.mpr ⟨s, made, merged⟩, ?_⟩
    rw [final]
    rfl
  | none =>
    cases changes with
    | nil => exact ⟨_, rfl, rfl⟩
    | cons change changes =>
      obtain ⟨f, merged, amends⟩ := mergeCall_change (Snapshot.new toFile now) path change
      have next : ((Snapshot.new toFile now).amend path f).files =
          single path ((change.onMeta .empty).file .opened (some .empty)) := by
        rw [← amends]
        rfl
      obtain ⟨s', rest, final⟩ := mergeFrom_changes changes next
      refine ⟨s', bind_ok.mpr ⟨_, merged, rest⟩, ?_⟩
      rw [final]
      rfl

/-! ### What is replayed -/

/-- The changes that set the values, in the order of the replay. -/
def Meta.changes (m : Meta) : List Change :=
  m.owner.toList.map (fun owner => .security owner.1 owner.2) ++ m.mode.toList.map .chmod ++ m.time.toList.map .utimens

theorem metaCalls_file (m : Meta) (path : Path) (ty : FileType) (data : Option DataList) :
    metaCalls path (m.file ty data) = m.changes.map (Change.call path) := by
  obtain ⟨mode, owner, time, xattrs⟩ := m
  cases mode <;> cases owner <;> cases time <;> rfl

section Replay
variable {order : HashOrder} {serialised : ByteFile.File} {m : Meta}

theorem replayFile_file (order : HashOrder) (serialised : ByteFile.File) (path : Path) (m : Meta) (ty : FileType)
    (data : Option DataList) : replayFile order serialised (path, m.file ty data) =
      replayParts serialised path (Meta.file { m with xattrs := none } ty none) (data.map SortedMap.entries)
        (m.xattrs.map fun xattrs => order.arrange xattrs.entries) := rfl

/-- A file that was there before is changed. -/
theorem replayFile_opened (order : HashOrder) (serialised : ByteFile.File) (path : Path) (plain : m.xattrs = none) :
    replayFile order serialised (path, m.file .opened (some .empty)) = .ok (m.changes.map (Change.call path)) := by
  rw [replayFile_file, plain]
  refine replayParts_ok.mpr ⟨[], [], rfl, rfl, .inr ⟨rfl, ?_⟩⟩
  rw [metaCalls_file, List.append_nil]
  show afterFirst (m.changes.map (Change.call path)) [] = _
  cases m.changes.map (Change.call path) <;> rfl

/-- A new file is made with the owner and the mode that it has in the end. -/
theorem replayFile_made (order : HashOrder) (serialised : ByteFile.File) (path : Path) (maker : Maker)
    (mode : m.mode = some birthMode) (owner : m.owner = some (uid, gid)) (plain : m.xattrs = none) :
    replayFile order serialised (path, m.file maker.type maker.data) =
      .ok (Birth.call path ⟨maker, uid, gid, birthMode⟩ :: (m.time.toList.map .utimens).map (Change.call path)) := by
  obtain ⟨_, _, time, _⟩ := m
  cases mode
  cases owner
  cases plain
  rw [replayFile_file]
  refine replayParts_ok.mpr ⟨[], [], by cases maker <;> rfl, rfl, .inl ?_⟩
  refine ⟨Birth.call path ⟨maker, uid, gid, birthMode⟩, Meta.file ⟨none, none, time, none⟩ maker.type none, ?_, ?_⟩
  · cases maker <;> rfl
  · rw [metaCalls_file, List.append_nil]
    rfl

theorem fromBytesWithNul_eq_none (clean : (0 : UInt8) ∉ name) : fromBytesWithNul name = none := by
  unfold fromBytesWithNul
  rw [if_neg]
  rintro ⟨last, -⟩
  exact clean (List.mem_of_getLast? last)

/-- One attribute is enough for a panic. -/
theorem not_replayFile {attributes : SortedMap Name (Option (List UInt8))} (held : m.xattrs = some attributes)
    (listed : (name, value) ∈ attributes.entries) (clean : (0 : UInt8) ∉ name) :
    replayFile order serialised (path, m.file ty data) ≠ .ok calls := by
  intro replayed
  rw [replayFile_file, held] at replayed
  obtain ⟨-, changes, -, named, -⟩ := replayParts_ok.mp replayed
  obtain ⟨call, made⟩ := mapM_ok_of_mem named ((order.perm _).mem_iff.mpr listed)
  unfold xattrCall at made
  rw [fromBytesWithNul_eq_none clean] at made
  cases made

end Replay

/-! ### What is kept -/

section Kept
variable {m : Meta} {change : Change} {changes : List Change}

/-- The file has an attribute that was set or removed. -/
def Tainted (m : Meta) : Prop :=
  ∃ attributes name value, m.xattrs = some attributes ∧ (name, value) ∈ attributes.entries ∧ (0 : UInt8) ∉ name

theorem tainted_of_isXattr (xattr : change.isXattr = true) (m : Meta) : Tainted (change.onMeta m) := by
  cases change with
  | setxattr name value flags =>
    exact ⟨_, name.1, some value, rfl, SortedMap.mem_entries_iff.mpr (SortedMap.find_insert_self _ _ _), name.2⟩
  | removexattr name =>
    exact ⟨_, name.1, none, rfl, SortedMap.mem_entries_iff.mpr (SortedMap.find_insert_self _ _ _), name.2⟩
  | _ => cases xattr

theorem xattrs_onMeta (other : change.isXattr = false) (m : Meta) : (change.onMeta m).xattrs = m.xattrs := by
  cases change with
  | setxattr | removexattr => cases other
  | _ => rfl

theorem tainted_foldl (tainted : Tainted m ∨ ∃ change ∈ changes, change.isXattr = true) :
    Tainted (changes.foldl Change.onMeta m) := by
  induction changes generalizing m with
  | nil =>
    obtain tainted | ⟨change, listed, -⟩ := tainted
    · exact tainted
    · cases listed
  | cons change changes ih =>
    refine ih ?_
    by_cases xattr : change.isXattr = true
    · exact .inl (tainted_of_isXattr xattr m)
    · obtain ⟨attributes, name, value, held, rest⟩ | ⟨other, listed, isXattr⟩ := tainted
      · refine .inl ⟨attributes, name, value, ?_, rest⟩
        rw [xattrs_onMeta (Bool.eq_false_iff.mpr xattr), held]
      · rcases List.mem_cons.mp listed with rfl | listed
        · exact absurd isXattr xattr
        · exact .inr ⟨other, listed, isXattr⟩

theorem xattrs_foldl (others : ∀ change ∈ changes, change.isXattr = false) (m : Meta) :
    (changes.foldl Change.onMeta m).xattrs = m.xattrs := by
  induction changes generalizing m with
  | nil => rfl
  | cons change changes ih =>
    rw [List.foldl_cons, ih fun other listed => others other (List.mem_cons_of_mem _ listed),
      xattrs_onMeta (others change List.mem_cons_self)]

/-- Owner and mode of a new file are known. -/
theorem known_foldl (known : m.mode.isSome ∧ m.owner.isSome) (changes : List Change) :
    (changes.foldl Change.onMeta m).mode.isSome ∧ (changes.foldl Change.onMeta m).owner.isSome := by
  induction changes generalizing m with
  | nil => exact known
  | cons change changes ih =>
    refine ih ?_
    cases change with
    | chmod => exact ⟨rfl, known.2⟩
    | security => exact ⟨known.1, rfl⟩
    | _ => exact known

end Kept

/-- The calls that a history without attributes is replayed with. -/
def replayed (path : Path) (birth : Option Birth) (changes : List Change) : List VFSCall :=
  match birth with
  | none => (kept none changes).changes.map (Change.call path)
  | some birth =>
    let m := kept birth changes
    let owner := m.owner.getD (birth.uid, birth.gid)
    Birth.call path ⟨birth.maker, owner.1, owner.2, m.mode.getD birth.mode⟩ ::
      (m.time.toList.map .utimens).map (Change.call path)

/-- Owner and mode of a new file are known to the end. -/
theorem replayed_birth (path : Path) (birth : Birth) (changes : List Change) : ∃ uid gid mode,
    (kept (some birth) changes).owner = some (uid, gid) ∧ (kept (some birth) changes).mode = some mode ∧
      replayed path (some birth) changes = Birth.call path ⟨birth.maker, uid, gid, mode⟩ ::
        ((kept (some birth) changes).time.toList.map .utimens).map (Change.call path) := by
  obtain ⟨mode, owner⟩ := known_foldl (m := birth.onMeta) ⟨rfl, rfl⟩ changes
  obtain ⟨mode, modeKept⟩ := Option.isSome_iff_exists.mp mode
  obtain ⟨⟨uid, gid⟩, ownerKept⟩ := Option.isSome_iff_exists.mp owner
  have modeKept : (kept (some birth) changes).mode = some mode := modeKept
  have ownerKept : (kept (some birth) changes).owner = some (uid, gid) := ownerKept
  refine ⟨uid, gid, mode, ownerKept, modeKept, ?_⟩
  unfold replayed
  dsimp only
  rw [modeKept, ownerKept]
  rfl

theorem xattrs_kept (others : ∀ change ∈ changes, change.isXattr = false) (birth : Option Birth) :
    (kept birth changes).xattrs = none := by
  rw [kept, xattrs_foldl others]
  cases birth <;> rfl

theorem produces_replayed (order : HashOrder) {s : Snapshot}
    (entries : s.files.entries = (entryOf birth changes).toList.map (path, ·))
    (others : ∀ change ∈ changes, change.isXattr = false) :
    Produces order (SnapshotReplay.apply s) (replayed path birth changes) := by
  rw [produces_apply, entries]
  have plain := xattrs_kept others birth
  cases birth with
  | none =>
    cases changes with
    | nil => exact ⟨[], rfl, rfl⟩
    | cons change changes =>
      have file := replayFile_opened order s.serialised path plain
      exact ⟨_, mapM_cons_ok.mpr ⟨_, [], file, rfl, rfl⟩, (List.append_nil _).symm⟩
  | some birth =>
    obtain ⟨uid, gid, mode, owner, modeKept, same⟩ := replayed_birth path birth changes
    have file := replayFile_made order s.serialised path birth.maker modeKept owner plain
    rw [same]
    exact ⟨_, mapM_cons_ok.mpr ⟨_, [], file, rfl, rfl⟩, (List.append_nil _).symm⟩

/-- The replay comes to its end if and only if no attribute was ever set or
removed. -/
theorem produces_iff (order : HashOrder) {s : Snapshot}
    (entries : s.files.entries = (entryOf birth changes).toList.map (path, ·)) :
    (∃ calls, Produces order (SnapshotReplay.apply s) calls) ↔ ∀ change ∈ changes, change.isXattr = false := by
  refine ⟨fun produces change listed => ?_, fun others => ⟨_, produces_replayed order entries others⟩⟩
  obtain ⟨calls, produced⟩ := produces
  by_contra xattr
  obtain ⟨attributes, name, value, held, there, clean⟩ : Tainted (kept birth changes) :=
    tainted_foldl (.inr ⟨change, listed, Bool.not_eq_false _ ▸ xattr⟩)
  obtain ⟨file, entry, ty, data, shape⟩ : ∃ file, entryOf birth changes = some file ∧
      ∃ ty data, file = (kept birth changes).file ty data := by
    cases birth with
    | some birth => exact ⟨_, rfl, _, _, rfl⟩
    | none =>
      cases changes with
      | nil => cases listed
      | cons => exact ⟨_, rfl, _, _, rfl⟩
  rw [produces_apply, entries, entry] at produced
  obtain ⟨parts, mapped, -⟩ := produced
  obtain ⟨part, replayed⟩ := mapM_ok_of_mem mapped List.mem_cons_self
  rw [shape] at replayed
  exact not_replayFile held there clean replayed

/-! ### What the calls do -/

/-- All calls, one after the other; `none` where the client panics. -/
def dispatchAll (process : Process) (root : Path) (t : Tree) (calls : List VFSCall) : Option Tree :=
  calls.foldlM (fun t call => (dispatch process root t call).map Prod.snd) t

/-- A moment, neither the present one nor the one the file has. -/
def Moment (spec : Timespec) : Prop := 0 ≤ spec.low ∧ spec.low < 1000000000

/-- Changes that set a value whatever was there before. Set-id bits are left
out, which a change of the owner clears. -/
def Change.Plain : Change → Prop
  | .chmod mode => mode &&& 0o6000 = 0
  | .security uid gid => uid ≠ noOwner ∧ gid ≠ noOwner
  | .utimens timespec => Moment timespec.1 ∧ Moment timespec.2.1
  | .setxattr .. | .removexattr .. => False

/-- What a change makes of an inode: only times can be set of a symbolic link. -/
def Change.onNode (node : Inode) : Change → Inode
  | .chmod mode => if node.isLnk then node else node.setMode mode
  | .security uid gid => if node.isLnk then node else node.setOwner uid gid
  | .utimens timespec => node.setTimes timespec.1.clock timespec.2.1.clock
  | .setxattr .. | .removexattr .. => node

theorem isDir_onNode (change : Change) (node : Inode) : (change.onNode node).isDir = node.isDir := by
  cases change <;> simp only [Change.onNode]
  · split <;> rfl
  · split <;> rfl
  · rfl

/-- What many changes make of an inode. -/
def onNodes (changes : List Change) (node : Inode) : Inode := changes.foldl Change.onNode node

theorem isDir_onNodes (changes : List Change) (node : Inode) : (onNodes changes node).isDir = node.isDir := by
  induction changes generalizing node with
  | nil => rfl
  | cons change changes ih => exact (ih _).trans (isDir_onNode change node)

section Trees
variable {t : Tree} {i : ℕ} {f g : Inode → Inode} {keptF : ∀ node, (f node).isDir = node.isDir}
  {keptG : ∀ node, (g node).isDir = node.isDir}

theorem amend_amend : (t.amend i f keptF).amend i g keptG =
    t.amend i (g ∘ f) fun node => (keptG _).trans (keptF node) := by
  ext1
  · rfl
  · exact List.modify_modify_eq ..

theorem amend_of_eq (keptF : ∀ node, (f node).isDir = node.isDir) (keptG : ∀ node, (g node).isDir = node.isDir)
    (held : t.inodes[i]? = some node) (same : f node = g node) : t.amend i f keptF = t.amend i g keptG := by
  ext1
  · rfl
  · refine List.ext_getElem? fun j => ?_
    show (t.inodes.modify i f)[j]? = (t.inodes.modify i g)[j]?
    rw [List.getElem?_modify, List.getElem?_modify]
    by_cases here : i = j
    · subst here
      simp [held, same]
    · simp [here]

theorem amend_of_fixed (held : t.inodes[i]? = some node) (fixed : f node = node) : t.amend i f keptF = t := by
  ext1
  · rfl
  · refine List.ext_getElem? fun j => ?_
    show (t.inodes.modify i f)[j]? = t.inodes[j]?
    rw [List.getElem?_modify]
    by_cases here : i = j
    · subst here
      simp [held, fixed]
    · simp [here]

end Trees

section Dispatch
variable {process : Process} {root path : Path} {t : Tree} {change : Change} {changes : List Change}

theorem stamp_moment (moment : Moment spec) (now current : Clock) : Tree.stamp now spec.clock current = some spec.clock := by
  obtain ⟨positive, below⟩ := moment
  have small : spec.clock.nsec < 1000000000 := below
  unfold Tree.stamp
  rw [if_neg, if_neg, if_pos ⟨positive, below⟩]
  · intro same
    rw [same] at small
    exact absurd small (by decide)
  · intro same
    rw [same] at small
    exact absurd small (by decide)

theorem dispatch_absent (process : Process) (absent : t.names.find (root ++ path) = none) (other : change.isXattr = false) :
    (dispatch process root t (change.call path)).map Prod.snd = some t := by
  have none : t.inode? (root ++ path) = none := Tree.inode?_eq_none.mpr absent
  cases change with
  | chmod | security =>
    simp [Change.call, dispatch, xmpChown, status, sequel, Tree.chmod, Tree.chown, Tree.lchown, Tree.change, translatePath,
      absent, none]
  | utimens =>
    simp only [Change.call, dispatch, status, Tree.utimens, Tree.lstat, translatePath, none]
    rfl
  | _ => cases other

/-- The three changes are changes of the inode. -/
theorem dispatch_found (process : Process) (found : t.names.find (root ++ path) = some i) (plain : change.Plain) :
    (dispatch process root t (change.call path)).map Prod.snd = some (t.amend i change.onNode (isDir_onNode change)) := by
  obtain ⟨node, held⟩ := Tree.inode?_of_find found
  have at_i : t.inodes[i]? = some node := by
    rwa [Tree.inode?, inodeIn, found, Option.bind_some] at held
  have changed (f : Inode → Inode) (isDir : ∀ node, (f node).isDir = node.isDir) (same : f node = change.onNode node) :
      (status t (t.change (root ++ path) f isDir)).2 = t.amend i change.onNode (isDir_onNode change) := by
    simp only [Tree.change, found]
    exact amend_of_eq isDir _ at_i same
  cases change with
  | chmod mode =>
    refine congrArg some ?_
    by_cases link : node.isLnk = true
    · simp only [status, Tree.chmod, translatePath, held, Option.any_some, link]
      exact (amend_of_fixed at_i (by simp [Change.onNode, link])).symm
    · simp only [Tree.chmod, translatePath, held, Option.any_some, link]
      exact changed _ _ (by simp [Change.onNode, link])
  | security uid gid =>
    refine congrArg some ?_
    by_cases link : node.isLnk = true
    · simp only [xmpChown, status, Tree.chown, translatePath, held, Option.any_some, link]
      exact (amend_of_fixed at_i (by simp [Change.onNode, link])).symm
    · simp only [xmpChown, Tree.chown, translatePath, held, Option.any_some, link]
      exact changed _ _ (by simp [Change.onNode, link])
  | utimens timespec =>
    refine congrArg some ?_
    obtain ⟨first, second⟩ := plain
    have times : t.utimens process (root ++ path) timespec.1.clock timespec.2.1.clock =
        t.change (root ++ path) _ (Inode.isDir_setTimes timespec.1.clock timespec.2.1.clock) := by
      have stat : t.lstat (root ++ path) = .ok node := by rw [Tree.lstat, held]
      unfold Tree.utimens
      rw [stat, ok_bind, stamp_moment first, stamp_moment second]
    simp only [translatePath]
    rw [times]
    exact changed _ _ rfl
  | setxattr | removexattr => exact plain.elim

theorem isXattr_of_plain (plain : change.Plain) : change.isXattr = false := by
  cases change with
  | setxattr | removexattr => exact plain.elim
  | _ => rfl

theorem dispatchAll_found (process : Process) (found : t.names.find (root ++ path) = some i)
    (plain : ∀ change ∈ changes, change.Plain) : dispatchAll process root t (changes.map (Change.call path)) =
      some (t.amend i (onNodes changes) (isDir_onNodes changes)) := by
  induction changes generalizing t with
  | nil =>
    obtain ⟨node, held⟩ := Tree.inode?_of_find found
    rw [Tree.inode?, inodeIn, found, Option.bind_some] at held
    exact congrArg some (amend_of_fixed held rfl).symm
  | cons change changes ih =>
    have rest := ih (show (t.amend i change.onNode (isDir_onNode change)).names.find _ = some i from found)
      fun other listed => plain other (List.mem_cons_of_mem _ listed)
    rw [amend_amend] at rest
    unfold dispatchAll at rest ⊢
    rw [List.map_cons, List.foldlM_cons, dispatch_found process found (plain change List.mem_cons_self)]
    exact rest

theorem dispatchAll_absent (process : Process) (absent : t.names.find (root ++ path) = none)
    (others : ∀ change ∈ changes, change.isXattr = false) :
    dispatchAll process root t (changes.map (Change.call path)) = some t := by
  induction changes with
  | nil => rfl
  | cons change changes ih =>
    have rest := ih fun other listed => others other (List.mem_cons_of_mem _ listed)
    unfold dispatchAll at rest ⊢
    rw [List.map_cons, List.foldlM_cons, dispatch_absent process absent (others change List.mem_cons_self)]
    exact rest

end Dispatch

/-! ### The last value counts -/

section LastValue
variable {change : Change} {changes : List Change} {m : Meta}

@[simp] theorem isLnk_setMode (mode : UInt32) (node : Inode) : (node.setMode mode).isLnk = node.isLnk := rfl
@[simp] theorem isLnk_setOwner (uid gid : UInt32) (node : Inode) : (node.setOwner uid gid).isLnk = node.isLnk := rfl
@[simp] theorem isLnk_setTimes (atime mtime : Clock) (node : Inode) : (node.setTimes atime mtime).isLnk = node.isLnk := rfl

theorem setOwner_setMode (uid gid mode : UInt32) (node : Inode) :
    (node.setMode mode).setOwner uid gid = (node.setOwner uid gid).setMode mode := rfl

theorem setOwner_setTimes (uid gid : UInt32) (atime mtime : Clock) (node : Inode) :
    (node.setTimes atime mtime).setOwner uid gid = (node.setOwner uid gid).setTimes atime mtime := rfl

/-- The owner that is set last does not depend on the one before. -/
theorem setOwner_setOwner (plain : uid ≠ noOwner ∧ gid ≠ noOwner) (uid' gid' : UInt32) (node : Inode) :
    (node.setOwner uid' gid').setOwner uid gid = node.setOwner uid gid := by
  unfold Inode.setOwner Owner.set
  simp [plain.1, plain.2]

theorem onNodes_onMeta (plain : change.Plain) (m : Meta) (node : Inode) :
    onNodes (change.onMeta m).changes node = change.onNode (onNodes m.changes node) := by
  obtain ⟨mode, owner, time, xattrs⟩ := m
  cases change with
  | chmod mode' =>
    cases mode <;> cases owner <;> cases time <;> cases link : node.isLnk <;>
      simp [onNodes, Change.onMeta, Meta.changes, Change.onNode, link] <;> rfl
  | security uid gid =>
    cases mode <;> cases owner <;> cases time <;> cases link : node.isLnk <;>
      simp [onNodes, Change.onMeta, Meta.changes, Change.onNode, link, setOwner_setMode, setOwner_setTimes,
        setOwner_setOwner plain]
  | utimens timespec =>
    cases mode <;> cases owner <;> cases time <;> cases link : node.isLnk <;>
      simp [onNodes, Change.onMeta, Meta.changes, Change.onNode, link] <;> rfl
  | setxattr | removexattr => exact plain.elim

/-- Setting the kept values has the effect of the whole history. -/
theorem onNodes_foldl (plain : ∀ change ∈ changes, change.Plain) (m : Meta) (node : Inode) :
    onNodes (changes.foldl Change.onMeta m).changes node = onNodes changes (onNodes m.changes node) := by
  induction changes generalizing m with
  | nil => rfl
  | cons change changes ih =>
    rw [List.foldl_cons, ih (fun other listed => plain other (List.mem_cons_of_mem _ listed)),
      onNodes_onMeta (plain change List.mem_cons_self)]
    rfl

theorem plain_onMeta (plain : change.Plain) (before : ∀ other ∈ m.changes, other.Plain) :
    ∀ other ∈ (change.onMeta m).changes, other.Plain := by
  intro other listed
  unfold Meta.changes at before listed
  simp only [List.mem_append] at before listed
  cases change with
  | chmod mode =>
    rcases listed with (owner | mode) | time
    · exact before other (.inl (.inl owner))
    · rw [List.mem_singleton.mp mode]
      exact plain
    · exact before other (.inr time)
  | security uid gid =>
    rcases listed with (owner | mode) | time
    · rw [List.mem_singleton.mp owner]
      exact plain
    · exact before other (.inl (.inr mode))
    · exact before other (.inr time)
  | utimens timespec =>
    rcases listed with rest | time
    · exact before other (.inl rest)
    · rw [List.mem_singleton.mp time]
      exact plain
  | setxattr | removexattr => exact plain.elim

theorem plain_foldl (plain : ∀ change ∈ changes, change.Plain) (before : ∀ other ∈ m.changes, other.Plain) :
    ∀ other ∈ (changes.foldl Change.onMeta m).changes, other.Plain := by
  induction changes generalizing m with
  | nil => exact before
  | cons change changes ih =>
    exact ih (fun other listed => plain other (List.mem_cons_of_mem _ listed))
      (plain_onMeta (plain change List.mem_cons_self) before)

/-- The time that is kept was set by one of the changes. -/
theorem plain_time (plain : ∀ change ∈ changes, change.Plain)
    (before : ∀ timespec, m.time = some timespec → (Change.utimens timespec).Plain) :
    ∀ timespec, (changes.foldl Change.onMeta m).time = some timespec → (Change.utimens timespec).Plain := by
  induction changes generalizing m with
  | nil => exact before
  | cons change changes ih =>
    refine ih (fun other listed => plain other (List.mem_cons_of_mem _ listed)) fun timespec set => ?_
    have here := plain change List.mem_cons_self
    cases change with
    | utimens =>
      cases set
      exact here
    | _ => exact before timespec set

def Maker.kind : Maker → Kind
  | .create _ => .reg []
  | .mkdir => .dir

/-- The inode that a call makes, with its owner. -/
def Birth.node (process : Process) (birth : Birth) : Inode :=
  (process.newInode birth.maker.kind birth.mode).setOwner birth.uid birth.gid

/-- A file that is made as it is in the end is like one that is made and changed. -/
theorem onNodes_birth (process : Process) (birth : Birth) (plain : ∀ change ∈ changes, change.Plain)
    (mode : (kept (some birth) changes).mode = some lastMode) (owner : (kept (some birth) changes).owner = some (uid, gid)) :
    onNodes ((kept (some birth) changes).time.toList.map .utimens) (Birth.node process ⟨birth.maker, uid, gid, lastMode⟩) =
      onNodes changes (birth.node process) := by
  have made (uid gid mode : UInt32) : onNodes [.security uid gid, .chmod mode] (process.newInode birth.maker.kind 0) =
      Birth.node process ⟨birth.maker, uid, gid, mode⟩ := by
    cases birth.maker <;> rfl
  have whole := onNodes_foldl plain birth.onMeta (process.newInode birth.maker.kind 0)
  rw [show onNodes birth.onMeta.changes _ = _ from made birth.uid birth.gid birth.mode] at whole
  have split : (kept (some birth) changes).changes =
      [.security uid gid, .chmod lastMode] ++ (kept (some birth) changes).time.toList.map .utimens := by
    unfold Meta.changes
    rw [mode, owner]
    rfl
  rw [← made, ← whole, show changes.foldl Change.onMeta birth.onMeta = kept (some birth) changes from rfl, split]
  exact (List.foldl_append ..).symm

end LastValue

section Births
variable {process : Process} {root path : Path} {t : Tree}

/-- A file is only made if the flags say so. -/
def Maker.opens : Maker → Bool
  | .create flags => flags.toUInt32 &&& Tree.oCreat ≠ 0
  | .mkdir => true

/-- A directory to make the file in, and a call that makes it. -/
def Makeable (t : Tree) (path : Path) (maker : Maker) : Prop := t.isDir path.dropLast = true ∧ maker.opens = true

theorem dispatch_birth (process : Process) (absent : t.names.find (root ++ path) = none) (birth : Birth)
    (makeable : Makeable t (root ++ path) birth.maker) : (dispatch process root t (birth.call path)).map Prod.snd =
      some (t.attach (root ++ path) (birth.node process) absent makeable.1) := by
  obtain ⟨maker, uid, gid, mode⟩ := birth
  obtain ⟨parent, opens⟩ := makeable
  cases maker with
  | create flags =>
    have makes : flags.toUInt32 &&& Tree.oCreat ≠ 0 := of_decide_eq_true opens
    have opened : t.openMode process (root ++ path) flags.toUInt32 mode =
        .ok (t.inodes.length, t.attach (root ++ path) (process.newInode (.reg []) mode) absent parent) := by
      unfold Tree.openMode Tree.create
      rw [if_pos absent, if_neg makes, dif_pos absent, dif_pos parent]
      rfl
    simp only [Birth.call, dispatch, xmpCreate, translatePath, opened]
    exact congrArg some (amend_attach (Inode.isDir_setOwner uid gid) absent parent)
  | mkdir =>
    have made : t.mkdir process (root ++ path) mode =
        .ok (t.attach (root ++ path) (process.newInode .dir mode) absent parent) := by
      unfold Tree.mkdir Tree.create
      rw [dif_pos absent, dif_pos parent]
    have found : (t.attach (root ++ path) (process.newInode .dir mode) absent parent).names.find (root ++ path) =
        some t.inodes.length := (Tree.find_attach absent parent _).trans (if_pos rfl)
    have node : (t.attach (root ++ path) (process.newInode .dir mode) absent parent).inode? (root ++ path) =
        some (process.newInode .dir mode) := (Tree.inode?_attach absent parent _).trans (if_pos rfl)
    simp only [Birth.call, dispatch, xmpMkdir, translatePath, made, sequel, xmpChown, status, Tree.chown, Tree.lchown,
      Tree.change, found, node]
    exact congrArg some (amend_attach (Inode.isDir_setOwner uid gid) absent parent)

theorem dispatch_unmade (process : Process) (absent : t.names.find (root ++ path) = none) (birth : Birth)
    (failed : ¬ Makeable t (root ++ path) birth.maker) :
    (dispatch process root t (birth.call path)).map Prod.snd = some t := by
  obtain ⟨maker, uid, gid, mode⟩ := birth
  have refused (node : Inode) (opens : maker.opens = true) : ∃ errno, t.create (root ++ path) node = .error errno := by
    unfold Tree.create
    rw [dif_pos absent, dif_neg fun parent => failed ⟨parent, opens⟩]
    exact ⟨_, rfl⟩
  cases maker with
  | create flags =>
    have opened : ∃ errno, t.openMode process (root ++ path) flags.toUInt32 mode = .error errno := by
      unfold Tree.openMode
      rw [if_pos absent]
      by_cases makes : flags.toUInt32 &&& Tree.oCreat = 0
      · rw [if_pos makes]
        exact ⟨_, rfl⟩
      · obtain ⟨errno, create⟩ := refused (process.newInode (.reg []) mode) (decide_eq_true makes)
        rw [if_neg makes, create]
        exact ⟨errno, rfl⟩
    obtain ⟨errno, opened⟩ := opened
    simp only [Birth.call, dispatch, xmpCreate, translatePath, opened, Option.map_some]
  | mkdir =>
    obtain ⟨errno, made⟩ := refused (process.newInode .dir mode) rfl
    simp only [Birth.call, dispatch, xmpMkdir, translatePath, Tree.mkdir, made, sequel, Option.map_some]

theorem dispatchAll_birth (process : Process) (absent : t.names.find (root ++ path) = none) (birth : Birth)
    {changes : List Change} (plain : ∀ change ∈ changes, change.Plain)
    (makeable : Makeable t (root ++ path) birth.maker) :
    dispatchAll process root t (birth.call path :: changes.map (Change.call path)) =
      some (t.attach (root ++ path) (onNodes changes (birth.node process)) absent makeable.1) := by
  have found : (t.attach (root ++ path) (birth.node process) absent makeable.1).names.find (root ++ path) =
      some t.inodes.length := (Tree.find_attach absent makeable.1 _).trans (if_pos rfl)
  have rest := dispatchAll_found process found plain
  rw [amend_attach (isDir_onNodes changes)] at rest
  unfold dispatchAll at rest ⊢
  rw [List.foldlM_cons, dispatch_birth process absent birth makeable]
  exact rest

theorem dispatchAll_unmade (process : Process) (absent : t.names.find (root ++ path) = none) (birth : Birth)
    {changes : List Change} (plain : ∀ change ∈ changes, change.Plain)
    (failed : ¬ Makeable t (root ++ path) birth.maker) :
    dispatchAll process root t (birth.call path :: changes.map (Change.call path)) = some t := by
  have rest := dispatchAll_absent process absent fun change listed => isXattr_of_plain (plain change listed)
  unfold dispatchAll at rest ⊢
  rw [List.foldlM_cons, dispatch_unmade process absent birth failed]
  exact rest

end Births

/-- The replay of plain changes has the effect of the calls themselves. -/
theorem dispatchAll_replayed (process : Process) (root path : Path) (t : Tree) {birth : Option Birth}
    {changes : List Change} (plain : ∀ change ∈ changes, change.Plain)
    (fresh : birth ≠ none → t.names.find (root ++ path) = none) :
    dispatchAll process root t (replayed path birth changes) = dispatchAll process root t (history path birth changes) := by
  cases birth with
  | none =>
    have keptPlain : ∀ change ∈ (kept none changes).changes, change.Plain := plain_foldl plain nofun
    show dispatchAll process root t ((kept none changes).changes.map (Change.call path)) =
      dispatchAll process root t (changes.map (Change.call path))
    cases found : t.names.find (root ++ path) with
    | none =>
      rw [dispatchAll_absent process found fun change listed => isXattr_of_plain (plain change listed),
        dispatchAll_absent process found fun change listed => isXattr_of_plain (keptPlain change listed)]
    | some i =>
      rw [dispatchAll_found process found plain, dispatchAll_found process found keptPlain]
      congr 2
      funext node
      exact onNodes_foldl plain .empty node
  | some birth =>
    have absent := fresh nofun
    obtain ⟨uid, gid, mode, owner, modeKept, same⟩ := replayed_birth path birth changes
    have timePlain : ∀ change ∈ (kept (some birth) changes).time.toList.map Change.utimens, change.Plain := by
      intro change listed
      obtain ⟨timespec, set, rfl⟩ := List.mem_map.mp listed
      exact plain_time (m := birth.onMeta) plain (fun _ none => by cases none) timespec (Option.mem_toList.mp set)
    rw [same]
    show _ = dispatchAll process root t (birth.call path :: changes.map (Change.call path))
    by_cases makeable : Makeable t (root ++ path) birth.maker
    · rw [dispatchAll_birth process absent birth plain makeable,
        dispatchAll_birth process absent ⟨birth.maker, uid, gid, mode⟩ timePlain makeable]
      simp only [onNodes_birth process birth plain modeKept owner]
    · rw [dispatchAll_unmade process absent birth plain makeable,
        dispatchAll_unmade process absent ⟨birth.maker, uid, gid, mode⟩ timePlain makeable]

/-- Any history of plain changes on one path, which may be made first: all of it
is merged, the replay comes to its end, and leaves the tree that the history
itself leaves. -/
theorem metadata_replayed (process : Process) (root path : Path) (t : Tree) (order : HashOrder) (toFile : ByteFile.File)
    (now : JournalStore.SystemTime) (birth : Option Birth) (changes : List Change)
    (plain : ∀ change ∈ changes, change.Plain) (fresh : birth ≠ none → t.names.find (root ++ path) = none) :
    ∃ s calls, (Snapshot.new toFile now).mergeFrom (history path birth changes) = .ok s ∧
      Produces order (SnapshotReplay.apply s) calls ∧
      dispatchAll process root t calls = dispatchAll process root t (history path birth changes) := by
  obtain ⟨s, merged, entries⟩ := mergeFrom_history toFile now path birth changes
  have produced := produces_replayed order entries fun change listed => isXattr_of_plain (plain change listed)
  exact ⟨s, _, merged, produced, dispatchAll_replayed process root path t plain fresh⟩

/-- A file is made, and then given an attribute. -/
def attributeSet : List VFSCall := history [[97]] (some ⟨.create 64, 0, 0, 0o644⟩) [.setxattr ⟨[97], by decide⟩ [1] 0]

/-- The replay panics on the name of the attribute. -/
theorem attribute_not_replayed : ∃ s, (Snapshot.new [] epoch).mergeFrom attributeSet = .ok s ∧
    ∀ order, ¬ ∃ calls, Produces order (SnapshotReplay.apply s) calls := by
  obtain ⟨s, merged, entries⟩ := mergeFrom_history [] epoch [[97]] (some ⟨.create 64, 0, 0, 0o644⟩)
    [.setxattr ⟨[97], by decide⟩ [1] 0]
  refine ⟨s, merged, fun order produces => ?_⟩
  cases (produces_iff order entries).mp produces _ List.mem_cons_self

theorem zero_ne_noOwner : (0 : UInt32) ≠ noOwner := by decide

/-- The superuser at the epoch. -/
def superuser : Process := ⟨⟨0, zero_ne_noOwner⟩, ⟨0, zero_ne_noOwner⟩, ⟨0, 0⟩⟩

/-- A file is made, given to somebody else and closed to others. -/
theorem owner_and_mode_replayed : ∃ s calls, (Snapshot.new [] epoch).mergeFrom
      (history [[97]] (some ⟨.create 64, 0, 0, 0o644⟩) [.security 1 2, .chmod 0o600]) = .ok s ∧
    Produces ⟨id, fun _ => .refl _⟩ (SnapshotReplay.apply s) calls ∧
    dispatchAll superuser [] (Tree.bare superuser) calls = dispatchAll superuser [] (Tree.bare superuser)
      (history [[97]] (some ⟨.create 64, 0, 0, 0o644⟩) [.security 1 2, .chmod 0o600]) := by
  refine metadata_replayed superuser [] [[97]] (Tree.bare superuser) _ [] epoch _ _ ?_ fun _ => rfl
  intro change listed
  rcases List.mem_cons.mp listed with rfl | listed
  · exact ⟨by decide, by decide⟩
  · rw [List.mem_singleton.mp listed]
    exact (by decide : (0o600 : UInt32) &&& 0o6000 = 0)

end Fsyncer.SnapshotMetadata
