import Fsyncer.Base.ByteFile
import Fsyncer.Base.SortedMap
import Mathlib.Data.List.Lex

/-! A Unix file tree under canonical paths. Names lead to inodes, so that hard
links are names of one inode; the prefixes of a name are directories. The tree
is seen by a privileged process on a file system without quotas: modes are taken
as given, and only the errors that depend on the tree occur. Paths arrive with
their symbolic links resolved; a call that would have to follow one fails. -/
namespace Fsyncer

instance linearOrderUInt8 : LinearOrder UInt8 where
  le_refl := UInt8.le_refl
  le_trans _ _ _ := UInt8.le_trans
  le_antisymm _ _ := UInt8.le_antisymm
  le_total := UInt8.le_total
  lt_iff_le_not_ge a b := by rw [UInt8.le_iff_toNat_le, UInt8.le_iff_toNat_le, UInt8.lt_iff_toNat_lt]; omega
  toDecidableLE := inferInstance
  toDecidableEq := inferInstance
  toDecidableLT := inferInstance

namespace FileTree
open ByteFile

/-- The bytes of one path component. -/
abbrev Name := List UInt8

/-- The components from the root down. -/
abbrev Path := List Name

inductive Errno where
  | eperm | enoent | enxio | ebusy | eexist | enotdir | eisdir | einval | efbig | erange | enotempty | eloop
  | enodata | eopnotsupp
  deriving DecidableEq, Repr

def Errno.code : Errno → Int
  | .eperm => 1
  | .enoent => 2
  | .enxio => 6
  | .ebusy => 16
  | .eexist => 17
  | .enotdir => 20
  | .eisdir => 21
  | .einval => 22
  | .efbig => 27
  | .erange => 34
  | .enotempty => 39
  | .eloop => 40
  | .enodata => 61
  | .eopnotsupp => 95

/-- A symbolic link leads somewhere. -/
abbrev Target := { target : List UInt8 // target ≠ [] }

inductive Kind where
  | reg (data : File)
  | dir
  | lnk (target : Target)
  | chr (rdev : UInt32)
  | blk (rdev : UInt32)
  | fifo
  | sock
  deriving DecidableEq, Repr

def fileTypeMask : UInt32 := 0o170000

def Kind.typeBits : Kind → UInt32
  | .reg _ => 0o100000
  | .dir => 0o040000
  | .lnk _ => 0o120000
  | .chr _ => 0o020000
  | .blk _ => 0o060000
  | .fifo => 0o010000
  | .sock => 0o140000

def Kind.rdev : Kind → UInt32
  | .chr rdev => rdev
  | .blk rdev => rdev
  | _ => 0

/-- What a length query reports; the size of a directory is of no interest here. -/
def Kind.size : Kind → Nat
  | .reg data => data.length
  | .lnk target => target.1.length
  | _ => 0

/-- The number that stands for "leave the owner as it is" in a call, and for nobody. -/
def noOwner : UInt32 := 0xFFFFFFFF

/-- A user or group number. -/
abbrev Owner := { id : UInt32 // id ≠ noOwner }

structure Clock where
  sec : Int64
  nsec : Int64
  deriving DecidableEq, Repr

structure Inode where
  kind : Kind
  perm : BitVec 12
  uid : Owner
  gid : Owner
  atime : Clock
  mtime : Clock
  xattrs : SortedMap Name (List UInt8)

def Inode.isDir (node : Inode) : Bool := node.kind = .dir

def Inode.isLnk (node : Inode) : Bool :=
  match node.kind with
  | .lnk _ => true
  | _ => false

/-- The permission bits of a mode argument. -/
def permOf (mode : UInt32) : BitVec 12 := mode.toBitVec.setWidth 12

/-- A symbolic link shows all permissions. -/
def Inode.perms (node : Inode) : BitVec 12 := if node.isLnk then 0o777#12 else node.perm

def Inode.mode (node : Inode) : UInt32 := node.kind.typeBits ||| ⟨node.perms.setWidth 32⟩

theorem permOf_mode (node : Inode) : permOf node.mode = node.perms := by
  have type_clear : node.kind.typeBits.toBitVec.setWidth 12 = 0#12 := by
    cases node.kind <;> simp [Kind.typeBits]
  rw [permOf, Inode.mode, UInt32.toBitVec_or, BitVec.setWidth_or, type_clear]
  simp

theorem permOf_xor (left right : UInt32) : permOf (left ^^^ right) = permOf left ^^^ permOf right := by
  rw [permOf, UInt32.toBitVec_xor, BitVec.setWidth_xor]
  rfl

def Inode.setData (node : Inode) (data : File) : Inode :=
  match node.kind with
  | .reg _ => { node with kind := .reg data }
  | _ => node

theorem Inode.isDir_setData (data : File) (node : Inode) : (node.setData data).isDir = node.isDir := by
  rw [setData]
  split
  · next kind => simp [isDir, kind]
  · rfl

def Inode.setMode (mode : UInt32) (node : Inode) : Inode := { node with perm := permOf mode }

def Owner.set (current : Owner) (id : UInt32) : Owner :=
  if none : id = noOwner then current else ⟨id, none⟩

def Inode.setOwner (uid gid : UInt32) (node : Inode) : Inode :=
  { node with uid := node.uid.set uid, gid := node.gid.set gid }

def Inode.setTimes (atime mtime : Clock) (node : Inode) : Inode := { node with atime, mtime }

def Inode.setXattrs (change : SortedMap Name (List UInt8) → SortedMap Name (List UInt8)) (node : Inode) :
    Inode :=
  { node with xattrs := change node.xattrs }

theorem Inode.isDir_setMode (mode : UInt32) (node : Inode) : (node.setMode mode).isDir = node.isDir := rfl

theorem Inode.isDir_setOwner (uid gid : UInt32) (node : Inode) :
    (node.setOwner uid gid).isDir = node.isDir := rfl

theorem Inode.isDir_setTimes (atime mtime : Clock) (node : Inode) :
    (node.setTimes atime mtime).isDir = node.isDir := rfl

theorem Inode.isDir_setXattrs (change : SortedMap Name (List UInt8) → SortedMap Name (List UInt8))
    (node : Inode) : (node.setXattrs change).isDir = node.isDir := rfl

/-- The credentials and the clock a process brings to its calls. -/
structure Process where
  uid : Owner
  gid : Owner
  now : Clock

def Process.newInode (process : Process) (kind : Kind) (mode : UInt32) : Inode :=
  { kind, perm := permOf mode, uid := process.uid, gid := process.gid, atime := process.now,
    mtime := process.now, xattrs := .empty }

def inodeIn (names : SortedMap Path Nat) (inodes : List Inode) (path : Path) : Option Inode :=
  (names.find path).bind fun i => inodes[i]?

def isDirIn (names : SortedMap Path Nat) (inodes : List Inode) (path : Path) : Bool :=
  (inodeIn names inodes path).any Inode.isDir

@[ext] structure Tree where
  names : SortedMap Path Nat
  inodes : List Inode
  linked : ∀ path i, names.find path = some i → i < inodes.length
  rooted : isDirIn names inodes [] = true
  closed : ∀ path i, path ≠ [] → names.find path = some i → isDirIn names inodes path.dropLast = true
  single : ∀ path other i, names.find path = some i → names.find other = some i →
    isDirIn names inodes path = true → path = other

namespace Tree

def inode? (t : Tree) (path : Path) : Option Inode := inodeIn t.names t.inodes path

def isDir (t : Tree) (path : Path) : Bool := isDirIn t.names t.inodes path

variable {t : Tree}

theorem inode?_of_find (found : t.names.find path = some i) : ∃ node, t.inode? path = some node := by
  have bound := t.linked path i found
  exact ⟨t.inodes[i], by rw [inode?, inodeIn, found]; exact List.getElem?_eq_getElem bound⟩

theorem find_of_inode? (held : t.inode? path = some node) :
    ∃ i, t.names.find path = some i ∧ t.inodes[i]? = some node := by
  rw [inode?, inodeIn] at held
  cases found : t.names.find path with
  | none => rw [found] at held; cases held
  | some i => rw [found] at held; exact ⟨i, rfl, held⟩

theorem inode?_eq_none : t.inode? path = none ↔ t.names.find path = none := by
  constructor
  · intro missing
    cases found : t.names.find path with
    | none => rfl
    | some i =>
      obtain ⟨node, held⟩ := inode?_of_find found
      rw [missing] at held
      cases held
  · intro absent
    rw [inode?, inodeIn, absent]
    rfl

theorem isDir_iff : t.isDir path = true ↔ ∃ node, t.inode? path = some node ∧ node.isDir = true := by
  rw [isDir, isDirIn, ← inode?]
  cases t.inode? path <;> simp

theorem isDir_dropLast (held : t.inode? path = some node) (proper : path ≠ []) :
    t.isDir path.dropLast = true := by
  obtain ⟨i, found, -⟩ := find_of_inode? held
  exact t.closed path i proper found

/-- A file system that holds its root directory and nothing else. -/
def bare (process : Process) : Tree where
  names := SortedMap.empty.insert [] 0
  inodes := [process.newInode .dir 0o755]
  linked := by
    intro path i found
    rw [SortedMap.find_insert] at found
    split at found
    · cases found; exact Nat.one_pos
    · cases found
  rooted := rfl
  closed := by
    intro path i proper found
    rw [SortedMap.find_insert_of_ne _ (Ne.symm proper)] at found
    cases found
  single := by
    intro path other i found found' _
    rw [SortedMap.find_insert] at found found'
    split at found
    · next root =>
      split at found'
      · next root' => exact root.symm.trans root'
      · cases found'
    · cases found

theorem isDir_ne (dir : t.isDir path = true) (absent : t.names.find other = none) : path ≠ other := by
  rintro rfl
  obtain ⟨node, held, -⟩ := isDir_iff.mp dir
  rw [inode?_eq_none.mpr absent] at held
  cases held

private theorem inodeIn_attached (t : Tree) (path : Path) (node : Inode) (other : Path) :
    inodeIn (t.names.insert path t.inodes.length) (t.inodes ++ [node]) other =
      if path = other then some node else t.inode? other := by
  rw [inodeIn, SortedMap.find_insert]
  split
  · simp
  · rw [inode?, inodeIn]
    cases found : t.names.find other with
    | none => rfl
    | some i => exact List.getElem?_append_left (t.linked other i found)

private theorem isDirIn_attached (absent : t.names.find path = none) (dir : t.isDir other = true) :
    isDirIn (t.names.insert path t.inodes.length) (t.inodes ++ [node]) other = true := by
  rw [isDirIn, inodeIn_attached, if_neg (isDir_ne dir absent).symm]
  exact dir

/-- `path` leads to a new inode; every other name is as before. -/
def attach (t : Tree) (path : Path) (node : Inode) (absent : t.names.find path = none)
    (parent : t.isDir path.dropLast = true) : Tree where
  names := t.names.insert path t.inodes.length
  inodes := t.inodes ++ [node]
  linked := by
    intro other i found
    rw [SortedMap.find_insert] at found
    rw [List.length_append, List.length_singleton]
    split at found
    · cases found; omega
    · have := t.linked other i found; omega
  rooted := isDirIn_attached absent t.rooted
  closed := by
    intro other i proper found
    rw [SortedMap.find_insert] at found
    split at found
    · next here => exact isDirIn_attached absent (here ▸ parent)
    · exact isDirIn_attached absent (t.closed other i proper found)
  single := by
    intro first second i found found' dir
    rw [SortedMap.find_insert] at found found'
    rw [isDirIn, inodeIn_attached] at dir
    split at found
    · next here =>
      split at found'
      · next here' => exact here.symm.trans here'
      · -- the new inode is not yet the inode of any name
        cases found
        exact absurd (t.linked second _ found') (lt_irrefl _)
    · next elsewhere =>
      rw [if_neg elsewhere] at dir
      split at found'
      · cases found'
        exact absurd (t.linked first _ found) (lt_irrefl _)
      · exact t.single first second i found found' dir

theorem find_attach (absent : t.names.find path = none) (parent : t.isDir path.dropLast = true)
    (other : Path) : (t.attach path node absent parent).names.find other =
      if path = other then some t.inodes.length else t.names.find other :=
  SortedMap.find_insert ..

theorem inode?_attach (absent : t.names.find path = none) (parent : t.isDir path.dropLast = true)
    (other : Path) : (t.attach path node absent parent).inode? other =
      if path = other then some node else t.inode? other :=
  inodeIn_attached ..

/-- Nothing lies in `path`. -/
def childless (t : Tree) (path : Path) : Bool :=
  t.names.entries.all fun entry => entry.1 = [] ∨ entry.1.dropLast ≠ path

theorem childless_iff : t.childless path = true ↔
    ∀ other, other ≠ [] → other.dropLast = path → t.names.find other = none := by
  constructor
  · intro alone other proper below
    cases found : t.names.find other with
    | none => rfl
    | some i =>
      have entry := List.all_eq_true.mp alone (other, i) (SortedMap.mem_entries_iff.mpr found)
      simp [proper, below] at entry
  · intro empty
    rw [childless, List.all_eq_true]
    rintro ⟨other, i⟩ held
    have found := SortedMap.mem_entries_iff.mp held
    by_cases root : other = []
    · simp [root]
    · have differ : other.dropLast ≠ path := by
        intro below
        rw [empty other root below] at found
        cases found
      simp [differ]

theorem childless_of_not_isDir (other_kind : t.isDir path = false) : t.childless path = true := by
  apply childless_iff.mpr
  rintro other proper rfl
  cases found : t.names.find other with
  | none => rfl
  | some i =>
    rw [isDir, t.closed other i proper found] at other_kind
    cases other_kind

private theorem isDirIn_detached (differ : path ≠ other) (dir : t.isDir other = true) :
    isDirIn (t.names.erase path) t.inodes other = true := by
  rw [isDirIn, inodeIn, SortedMap.find_erase_of_ne _ differ]
  exact dir

/-- The name is gone, and its inode with it unless it has another name. -/
def detach (t : Tree) (path : Path) (proper : path ≠ []) (alone : t.childless path = true) : Tree where
  names := t.names.erase path
  inodes := t.inodes
  linked := by
    intro other i found
    rw [SortedMap.find_erase] at found
    split at found
    · cases found
    · exact t.linked other i found
  rooted := isDirIn_detached proper t.rooted
  closed := by
    intro other i nonroot found
    rw [SortedMap.find_erase] at found
    split at found
    · cases found
    · refine isDirIn_detached (fun below => ?_) (t.closed other i nonroot found)
      rw [childless_iff.mp alone other nonroot below.symm] at found
      cases found
  single := by
    intro first second i found found' dir
    rw [isDirIn, inodeIn] at dir
    rw [SortedMap.find_erase] at found found' dir
    split at found
    · cases found
    · next elsewhere =>
      rw [if_neg elsewhere] at dir
      split at found'
      · cases found'
      · exact t.single first second i found found' dir

theorem find_detach (proper : path ≠ []) (alone : t.childless path = true) (other : Path) :
    (t.detach path proper alone).names.find other = if path = other then none else t.names.find other :=
  SortedMap.find_erase ..

theorem inode?_detach (proper : path ≠ []) (alone : t.childless path = true) (other : Path) :
    (t.detach path proper alone).inode? other = if path = other then none else t.inode? other := by
  rw [inode?, inodeIn, find_detach]
  split <;> rfl

private theorem inodeIn_amended (t : Tree) (i : Nat) (f : Inode → Inode) (other : Path) :
    inodeIn t.names (t.inodes.modify i f) other =
      if t.names.find other = some i then (t.inode? other).map f else t.inode? other := by
  rw [inode?, inodeIn, inodeIn]
  cases found : t.names.find other with
  | none => rfl
  | some j =>
    rw [Option.bind_some, Option.bind_some, List.getElem?_modify]
    by_cases same : i = j
    · subst same; simp
    · rw [if_neg fun equal => same (Option.some.inj equal).symm]
      simp [same]

private theorem isDirIn_amended (t : Tree) (i : Nat) (kept : ∀ node : Inode, (f node).isDir = node.isDir)
    (path : Path) : isDirIn t.names (t.inodes.modify i f) path = t.isDir path := by
  rw [isDirIn, inodeIn_amended, isDir, isDirIn, ← inode?]
  split
  · cases t.inode? path with
    | none => rfl
    | some node => exact kept node
  · rfl

/-- The inode `i` changed by `f`, for each of its names. -/
def amend (t : Tree) (i : Nat) (f : Inode → Inode) (kept : ∀ node, (f node).isDir = node.isDir) : Tree where
  names := t.names
  inodes := t.inodes.modify i f
  linked := by
    intro path j found
    rw [List.length_modify]
    exact t.linked path j found
  rooted := (isDirIn_amended t i kept []).trans t.rooted
  closed := by
    intro path j proper found
    exact (isDirIn_amended t i kept path.dropLast).trans (t.closed path j proper found)
  single := by
    intro first second j found found' dir
    rw [isDirIn_amended t i kept] at dir
    exact t.single first second j found found' dir

theorem inode?_amend (kept : ∀ node : Inode, (f node).isDir = node.isDir) (other : Path) :
    (t.amend i f kept).inode? other =
      if t.names.find other = some i then (t.inode? other).map f else t.inode? other :=
  inodeIn_amended t i f other

/-- Two changes of an inode that cancel each other. -/
theorem amend_amend_cancel {kept : ∀ node : Inode, (f node).isDir = node.isDir}
    {kept' : ∀ node : Inode, (g node).isDir = node.isDir} (held : t.inodes[i]? = some node) (undone : g (f node) = node) :
    (t.amend i f kept).amend i g kept' = t := by
  ext1
  · rfl
  · show (t.inodes.modify i f).modify i g = t.inodes
    apply List.ext_getElem?
    intro j
    rw [List.getElem?_modify, List.getElem?_modify]
    by_cases same : i = j
    · subst same
      simp [held, undone]
    · simp [same]

private theorem isDirIn_joined (absent : t.names.find path = none) (dir : t.isDir other = true) :
    isDirIn (t.names.insert path i) t.inodes other = true := by
  rw [isDirIn, inodeIn, SortedMap.find_insert_of_ne _ (isDir_ne dir absent).symm]
  exact dir

/-- One more name for what `old` names. -/
def join (t : Tree) (old path : Path) (i : Nat) (held : t.names.find old = some i) (kind : t.isDir old = false)
    (absent : t.names.find path = none) (parent : t.isDir path.dropLast = true) : Tree where
  names := t.names.insert path i
  inodes := t.inodes
  linked := by
    intro other j found
    rw [SortedMap.find_insert] at found
    split at found
    · cases found; exact t.linked old i held
    · exact t.linked other j found
  rooted := isDirIn_joined absent t.rooted
  closed := by
    intro other j proper found
    rw [SortedMap.find_insert] at found
    split at found
    · next here => exact isDirIn_joined absent (here ▸ parent)
    · exact isDirIn_joined absent (t.closed other j proper found)
  single := by
    intro first second j found found' dir
    have inode : inodeIn (t.names.insert path i) t.inodes first = t.inodes[j]? := by
      rw [inodeIn, found, Option.bind_some]
    have differ : j ≠ i := by
      rintro rfl
      rw [isDirIn, inode] at dir
      rw [isDir, isDirIn, inodeIn, held, Option.bind_some, dir] at kind
      cases kind
    rw [SortedMap.find_insert] at found found'
    split at found
    · cases found; exact absurd rfl differ
    · split at found'
      · cases found'; exact absurd rfl differ
      · refine t.single first second j found found' ?_
        rw [isDirIn, inode] at dir
        rwa [isDirIn, inodeIn, found, Option.bind_some]

/-- What `path` is called once `old` is called `new`. -/
def reroot (old new path : Path) : Path :=
  if old <+: path then new ++ path.drop old.length else path

/-- A name outside `old` and `new` keeps its name, one under `old` gets one under `new`. -/
theorem reroot_injective (outside : ¬ new <+: a) (outside' : ¬ new <+: b)
    (same : reroot old new a = reroot old new b) : a = b := by
  rw [reroot, reroot] at same
  split at same
  · next under =>
    split at same
    · next under' =>
      obtain ⟨rest, rfl⟩ := under
      obtain ⟨rest', rfl⟩ := under'
      simpa using same
    · exact absurd ⟨_, same⟩ outside'
  · split at same
    · exact absurd ⟨_, same.symm⟩ outside
    · exact same

/-- The names that a move of `old` to `new` leaves: whatever was at `new` is
gone, and what lies under `old` is renamed with it. -/
def movedNames (names : SortedMap Path Nat) (old new : Path) : SortedMap Path Nat :=
  (names.filter fun entry => ¬ new <+: entry.1).mapKeys (reroot old new)

theorem find_movedNames {names : SortedMap Path Nat} :
    (movedNames names old new).find path = some i ↔
      ∃ before, reroot old new before = path ∧ names.find before = some i ∧ ¬ new <+: before := by
  have keeps (key : Path) : ((names.filter fun entry => ¬ new <+: entry.1).find key).isSome →
      ¬ new <+: key := by
    rw [SortedMap.find_filter]
    cases names.find key <;> simp [Option.filter]
  rw [movedNames, SortedMap.find_mapKeys fun a b inA inB => reroot_injective (keeps a inA) (keeps b inB)]
  refine exists_congr fun before => and_congr_right fun _ => ?_
  rw [SortedMap.find_filter]
  cases names.find before <;> simp [Option.filter]
  tauto

/-- Neither path is an ancestor of the other, nor are they the same. -/
def Apart (old new : Path) : Prop := ¬ old <+: new ∧ ¬ new <+: old

instance : Decidable (Apart old new) := inferInstanceAs (Decidable (_ ∧ _))

theorem Apart.not_under (apart : Apart old new) (under : old <+: path) : ¬ new <+: path := by
  intro under'
  rcases List.prefix_or_prefix_of_prefix under under' with ahead | ahead
  · exact apart.1 ahead
  · exact apart.2 ahead

theorem find_movedNames_of_apart {names : SortedMap Path Nat} (apart : Apart old new) (path : Path) :
    (movedNames names old new).find path =
      if new <+: path then names.find (old ++ path.drop new.length)
      else if old <+: path then none else names.find path := by
  apply Option.ext
  intro i
  rw [find_movedNames]
  constructor
  · rintro ⟨before, rfl, found, outside⟩
    rw [reroot]
    split
    · next under =>
      obtain ⟨rest, rfl⟩ := under
      simpa using found
    · next elsewhere => simpa [outside, elsewhere] using found
  · intro found
    split at found
    · next under =>
      obtain ⟨rest, rfl⟩ := under
      refine ⟨old ++ rest, by simp [reroot], by simpa using found, ?_⟩
      exact apart.not_under (List.prefix_append _ _)
    · next outside =>
      split at found
      · cases found
      · next elsewhere => exact ⟨path, by rw [reroot, if_neg elsewhere], found, outside⟩

private theorem isDirIn_moved (old new : Path) (dir : t.isDir before = true)
    (outside : ¬ new <+: before) :
    isDirIn (movedNames t.names old new) t.inodes (reroot old new before) = true := by
  obtain ⟨node, held, isDir⟩ := isDir_iff.mp dir
  obtain ⟨i, found, at_i⟩ := find_of_inode? held
  have moved : (movedNames t.names old new).find (reroot old new before) = some i :=
    find_movedNames.mpr ⟨before, rfl, found, outside⟩
  rw [isDirIn, inodeIn, moved, Option.bind_some, at_i]
  exact isDir

/-- Everything under `old` is moved to `new`, and what was there is dropped. -/
def move (t : Tree) (old new : Path) (apart : Apart old new) (parent : t.isDir new.dropLast = true) : Tree where
  names := movedNames t.names old new
  inodes := t.inodes
  linked := by
    intro path i found
    obtain ⟨before, -, held, -⟩ := find_movedNames.mp found
    exact t.linked before i held
  rooted := by
    have outside : ¬ old <+: [] := fun under => apart.1 (under.trans (List.nil_prefix))
    have outside' : ¬ new <+: [] := fun under => apart.2 (under.trans (List.nil_prefix))
    have root := isDirIn_moved old new t.rooted outside'
    rwa [reroot, if_neg outside] at root
  closed := by
    intro path i proper found
    obtain ⟨before, rfl, held, outside⟩ := find_movedNames.mp found
    have above : ¬ new <+: before.dropLast := fun under => outside (under.trans (List.dropLast_prefix _))
    rw [reroot] at proper ⊢
    by_cases under : old <+: before
    · obtain ⟨rest, rfl⟩ := under
      rw [if_pos (List.prefix_append _ _), List.drop_left] at proper ⊢
      rcases List.eq_nil_or_concat' rest with rfl | ⟨rest, last, rfl⟩
      · -- the moved object itself: its new directory lies neither in it nor at its target
        have here : ¬ old <+: new.dropLast := fun under => apart.1 (under.trans (List.dropLast_prefix _))
        have there : ¬ new <+: new.dropLast := fun under => by
          have shorter := under.length_le
          have nonempty : new ≠ [] := by simpa using proper
          have := List.length_pos_iff.mpr nonempty
          rw [List.length_dropLast] at shorter
          omega
        have dir := isDirIn_moved old new parent there
        rw [List.append_nil]
        rwa [reroot, if_neg here] at dir
      · have dir := t.closed _ i (by simp) held
        rw [← List.append_assoc, List.dropLast_concat] at dir above ⊢
        have moved := isDirIn_moved old new dir above
        rwa [reroot, if_pos (List.prefix_append _ _), List.drop_left] at moved
    · rw [if_neg under] at proper ⊢
      have elsewhere : ¬ old <+: before.dropLast := fun ahead => under (ahead.trans (List.dropLast_prefix _))
      have dir := isDirIn_moved old new (t.closed before i proper held) above
      rwa [reroot, if_neg elsewhere] at dir
  single := by
    intro first second i found found' dir
    rw [isDirIn, inodeIn, found, Option.bind_some] at dir
    obtain ⟨before, rfl, held, -⟩ := find_movedNames.mp found
    obtain ⟨before', rfl, held', -⟩ := find_movedNames.mp found'
    have same : before = before' := by
      refine t.single before before' i held held' ?_
      rwa [isDirIn, inodeIn, held, Option.bind_some]
    rw [same]

/-- The error of a lookup that fails: the first prefix that is no directory decides. -/
def obstacle (t : Tree) (path : Path) : Errno :=
  match path.dropLast.inits.find? fun ahead => ¬ t.isDir ahead with
  | some ahead => if t.names.find ahead = none then .enoent else .enotdir
  | none => .enoent

def lstat (t : Tree) (path : Path) : Except Errno Inode :=
  match t.inode? path with
  | some node => .ok node
  | none => .error (t.obstacle path)

/-- The number of names of the inode that `path` leads to. -/
def nlink (t : Tree) (path : Path) : Nat :=
  t.names.entries.countP fun entry => some entry.2 = t.names.find path

def readlink (t : Tree) (path : Path) : Except Errno (List UInt8) := do
  match (← t.lstat path).kind with
  | .lnk target => .ok target.1
  | _ => .error .einval

/-- What `mkdir`, `mknod`, `symlink` and a creating `open` share. -/
def create (t : Tree) (path : Path) (node : Inode) : Except Errno Tree :=
  if absent : t.names.find path = none then
    if parent : t.isDir path.dropLast = true then .ok (t.attach path node absent parent)
    else .error (t.obstacle path)
  else .error .eexist

def mkdir (process : Process) (t : Tree) (path : Path) (mode : UInt32) : Except Errno Tree :=
  t.create path (process.newInode .dir mode)

/-- What `mknod` makes. The device number has 32 bits, whatever the width of the argument. -/
def nodeKind (mode : UInt32) (rdev : UInt64) : Except Errno Kind :=
  if rdev.toNat < 2 ^ 32 then
    match (mode &&& fileTypeMask).toNat with
    | 0 | 0o100000 => .ok (.reg [])
    | 0o020000 => .ok (.chr rdev.toUInt32)
    | 0o060000 => .ok (.blk rdev.toUInt32)
    | 0o010000 => .ok .fifo
    | 0o140000 => .ok .sock
    | 0o040000 => .error .eperm
    | _ => .error .einval
  else .error .einval

def mknod (process : Process) (t : Tree) (path : Path) (mode : UInt32) (rdev : UInt64) :
    Except Errno Tree := do
  t.create path (process.newInode (← nodeKind mode rdev) mode)

def mkfifo (process : Process) (t : Tree) (path : Path) (mode : UInt32) : Except Errno Tree :=
  mknod process t path (mode ||| 0o010000) 0

def symlink (process : Process) (t : Tree) (target : List UInt8) (path : Path) : Except Errno Tree :=
  if empty : target = [] then .error .enoent
  else t.create path (process.newInode (.lnk ⟨target, empty⟩) 0o777)

def unlink (t : Tree) (path : Path) : Except Errno Tree :=
  if t.names.find path = none then .error (t.obstacle path)
  else if kind : t.isDir path = true then .error .eisdir
  else .ok (t.detach path (fun root => kind (root ▸ t.rooted))
    (childless_of_not_isDir (Bool.eq_false_iff.mpr kind)))

def rmdir (t : Tree) (path : Path) : Except Errno Tree :=
  if t.names.find path = none then .error (t.obstacle path)
  else if t.isDir path = false then .error .enotdir
  else if proper : path = [] then .error .ebusy
  else if alone : t.childless path = true then .ok (t.detach path proper alone)
  else .error .enotempty

def link (t : Tree) (old new : Path) : Except Errno Tree :=
  match found : t.names.find old with
  | none => .error (t.obstacle old)
  | some i =>
    if absent : t.names.find new = none then
      if parent : t.isDir new.dropLast = true then
        if kind : t.isDir old = false then .ok (t.join old new i found kind absent parent)
        else .error .eperm
      else .error (t.obstacle new)
    else .error .eexist

/-- `RENAME_NOREPLACE`, the one flag of `renameat2` this file system supports. -/
def noReplace : UInt32 := 1

/-- Two names of one inode are left alone; otherwise the target may be replaced
by an object of its own sort, a directory only if it is empty. -/
def rename (t : Tree) (old new : Path) (flags : UInt32) : Except Errno Tree :=
  if flags ≠ 0 ∧ flags ≠ noReplace then .error .einval
  else if t.names.find old = none then .error (t.obstacle old)
  else if parent : t.isDir new.dropLast = true then
    if old = [] ∨ new = [] then .error .ebusy
    else if flags = noReplace ∧ t.names.find new ≠ none then .error .eexist
    else if t.names.find old = t.names.find new then .ok t
    else if old <+: new then .error .einval
    else if new <+: old then .error .enotempty
    else if t.isDir old ∧ t.names.find new ≠ none ∧ ¬ t.isDir new then .error .enotdir
    else if ¬ t.isDir old ∧ t.isDir new then .error .eisdir
    else if ¬ t.childless new then .error .enotempty
    else if apart : Apart old new then .ok (t.move old new apart parent)
    else .error .einval
  else .error (t.obstacle new)

/-- The inode a descriptor stands for; only regular files carry data. -/
def openFile (t : Tree) (path : Path) : Except Errno Nat :=
  match t.names.find path, (t.inode? path).map Inode.kind with
  | some i, some (.reg _) => .ok i
  | some _, some .dir => .error .eisdir
  | some _, some (.lnk _) => .error .eloop
  | some _, some _ => .error .enxio
  | _, _ => .error (t.obstacle path)

/-- The contents behind a descriptor. -/
def contents (t : Tree) (i : Nat) : Except Errno File :=
  match t.inodes[i]?.map Inode.kind with
  | some (.reg data) => .ok data
  | _ => .error .einval

def store (t : Tree) (i : Nat) (data : File) : Tree :=
  t.amend i (·.setData data) (Inode.isDir_setData data)

theorem kind_of_openFile (opened : t.openFile path = .ok i) :
    t.names.find path = some i ∧ ∃ data, t.contents i = .ok data := by
  unfold openFile at opened
  split at opened
  · next j data found kind =>
    cases opened
    refine ⟨found, data, ?_⟩
    rw [inode?, inodeIn, found, Option.bind_some] at kind
    rw [contents, kind]
  all_goals cases opened

theorem node_of_contents (held : t.contents i = .ok data) :
    ∃ node, t.inodes[i]? = some node ∧ node.kind = .reg data := by
  unfold contents at held
  split at held
  · next found kind =>
    cases held
    obtain ⟨node, at_i, same⟩ := Option.map_eq_some_iff.mp kind
    exact ⟨node, at_i, same⟩
  · cases held

theorem contents_store (held : t.contents i = .ok data) (after : File) :
    (t.store i after).contents i = .ok after := by
  obtain ⟨node, at_i, kind⟩ := node_of_contents held
  rw [contents, store, amend, List.getElem?_modify_eq, at_i]
  simp [Inode.setData, kind]

theorem openFile_store (opened : t.openFile path = .ok i) (after : File) :
    (t.store i after).openFile path = .ok i := by
  obtain ⟨found, data, held⟩ := kind_of_openFile opened
  obtain ⟨node, at_i, kind⟩ := node_of_contents (contents_store held after)
  have same : (t.store i after).names.find path = some i := found
  rw [openFile, inode?, inodeIn, same, Option.bind_some, at_i, Option.map_some, kind]

theorem store_store (t : Tree) (i : Nat) (first second : File) :
    (t.store i first).store i second = t.store i second := by
  have twice (node : Inode) : (node.setData first).setData second = node.setData second := by
    cases kind : node.kind <;> simp [Inode.setData, kind]
  ext1
  · rfl
  · show (t.inodes.modify i _).modify i _ = t.inodes.modify i _
    rw [List.modify_modify_eq]
    congr 1
    funext node
    exact twice node

theorem store_contents (held : t.contents i = .ok data) : t.store i data = t := by
  obtain ⟨node, at_i, kind⟩ := node_of_contents held
  have unchanged : node.setData data = node := by
    cases node
    cases kind
    rfl
  ext1
  · rfl
  · apply List.ext_getElem?
    intro j
    show (t.inodes.modify i _)[j]? = t.inodes[j]?
    rw [List.getElem?_modify]
    by_cases same : i = j
    · subst same
      rw [at_i]
      simp [unchanged]
    · simp [same]

/-- `pwrite`: nothing happens for an empty buffer. -/
def pwrite (t : Tree) (i : Nat) (bytes : List UInt8) (offset : Int) : Except Errno Tree := do
  let data ← t.contents i
  if offset < 0 then .error .einval
  else if bytes = [] then .ok t
  else if offset + bytes.length ≤ offMax then .ok (t.store i (splice data offset.toNat bytes))
  else .error .efbig

def ftruncate (t : Tree) (i : Nat) (length : Int) : Except Errno Tree := do
  let data ← t.contents i
  if length < 0 then .error .einval
  else if length ≤ offMax then .ok (t.store i (setLen data length.toNat))
  else .error .efbig

def truncate (t : Tree) (path : Path) (length : Int) : Except Errno Tree := do
  t.ftruncate (← t.openFile path) length

/-- `fallocate` with the default mode and with the modes that keep the size. -/
def fallocate (t : Tree) (i : Nat) (mode : Int) (offset length : Int) : Except Errno Tree := do
  let data ← t.contents i
  if offset < 0 ∨ length ≤ 0 then .error .einval
  else if offMax < offset + length then .error .efbig
  else if mode = 0 then .ok (t.store i (setLen data (max data.length (offset + length).toNat)))
  else if mode = 1 then .ok t
  else if mode = 3 then
    .ok (t.store i ((splice data offset.toNat (List.replicate length.toNat 0)).take data.length))
  else .error .eopnotsupp

def oCreat : UInt32 := 0o100
def oExcl : UInt32 := 0o200
def oTrunc : UInt32 := 0o1000

/-- `open` with a mode argument, to the descriptor and the tree it leaves. -/
def openMode (process : Process) (t : Tree) (path : Path) (flags : UInt32) (mode : UInt32) :
    Except Errno (Nat × Tree) :=
  if t.names.find path = none then
    if flags &&& oCreat = 0 then .error (t.obstacle path)
    else do return (t.inodes.length, ← t.create path (process.newInode (.reg []) mode))
  else if flags &&& oCreat ≠ 0 ∧ flags &&& oExcl ≠ 0 then .error .eexist
  else do
    let i ← t.openFile path
    return (i, if flags &&& oTrunc = 0 then t else t.store i [])

/-- A change of the inode at `path`, the symbolic link itself if it is one. -/
def change (t : Tree) (path : Path) (f : Inode → Inode) (kept : ∀ node, (f node).isDir = node.isDir) :
    Except Errno Tree :=
  match t.names.find path with
  | none => .error (t.obstacle path)
  | some i => .ok (t.amend i f kept)

def chmod (t : Tree) (path : Path) (mode : UInt32) : Except Errno Tree :=
  if (t.inode? path).any Inode.isLnk then .error .eloop
  else t.change path (Inode.setMode mode) (Inode.isDir_setMode mode)

def lchown (t : Tree) (path : Path) (uid gid : UInt32) : Except Errno Tree :=
  t.change path (Inode.setOwner uid gid) (Inode.isDir_setOwner uid gid)

def chown (t : Tree) (path : Path) (uid gid : UInt32) : Except Errno Tree :=
  if (t.inode? path).any Inode.isLnk then .error .eloop else t.lchown path uid gid

def fchown (t : Tree) (i : Nat) (uid gid : UInt32) : Tree :=
  t.amend i (Inode.setOwner uid gid) (Inode.isDir_setOwner uid gid)

def utimeNow : Int64 := 0x3FFFFFFF
def utimeOmit : Int64 := 0x3FFFFFFE

/-- One timestamp of `utimensat`. -/
def stamp (now given current : Clock) : Option Clock :=
  if given.nsec = utimeNow then some now
  else if given.nsec = utimeOmit then some current
  else if 0 ≤ given.nsec ∧ given.nsec < 1000000000 then some given
  else none

def utimens (process : Process) (t : Tree) (path : Path) (atime mtime : Clock) : Except Errno Tree := do
  let node ← t.lstat path
  match stamp process.now atime node.atime, stamp process.now mtime node.mtime with
  | some atime, some mtime => t.change path (Inode.setTimes atime mtime) (Inode.isDir_setTimes atime mtime)
  | _, _ => .error .einval

def lgetxattr (t : Tree) (path : Path) (name : Name) : Except Errno (List UInt8) := do
  match (← t.lstat path).xattrs.find name with
  | some value => .ok value
  | none => .error .enodata

/-- Flag 1 insists on a new attribute, flag 2 on an existing one. -/
def lsetxattr (t : Tree) (path : Path) (name : Name) (value : List UInt8) (flags : Int) :
    Except Errno Tree := do
  let held := (← t.lstat path).xattrs.find name
  if flags = 1 ∧ held ≠ none then .error .eexist
  else if flags = 2 ∧ held = none then .error .enodata
  else if flags ≠ 0 ∧ flags ≠ 1 ∧ flags ≠ 2 then .error .einval
  else t.change path (Inode.setXattrs (·.insert name value)) (Inode.isDir_setXattrs _)

def lremovexattr (t : Tree) (path : Path) (name : Name) : Except Errno Tree := do
  match (← t.lstat path).xattrs.find name with
  | some _ => t.change path (Inode.setXattrs (·.erase name)) (Inode.isDir_setXattrs _)
  | none => .error .enodata

end Tree

end FileTree

end Fsyncer
