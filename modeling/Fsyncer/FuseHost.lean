import Fsyncer.Vfs
import Fsyncer.Base.Machine

/-! What the low-level file system asks of its host: directories by inode number,
attributes, and the process's table of descriptors. A call that the tree allows
may still be refused, for permissions, quotas or a failing disk; how often and
with which error the host does so is part of its state. -/
namespace Fsyncer.FuseHost
open FileTree (Name Clock noOwner)
open FileTree.Tree (stamp)
open Machine

/-- An error number. -/
abbrev Errno := { code : Nat // code ≠ 0 }

def eperm : Errno := ⟨1, by decide⟩
def enoent : Errno := ⟨2, by decide⟩
def eio : Errno := ⟨5, by decide⟩
def ebadf : Errno := ⟨9, by decide⟩
def eexist : Errno := ⟨17, by decide⟩
def einval : Errno := ⟨22, by decide⟩
def enospc : Errno := ⟨28, by decide⟩
def enotsup : Errno := ⟨95, by decide⟩

/-- The number of a file and of the device it is on. -/
structure SrcId where
  ino : UInt64
  dev : UInt64
  deriving DecidableEq, Repr

structure Attributes where
  mode : UInt32
  uid : UInt32
  gid : UInt32
  size : Int64
  atime : Clock
  mtime : Clock
  deriving DecidableEq, Repr

structure Stat extends Attributes where
  id : SrcId
  deriving DecidableEq, Repr

def sIfmt : UInt32 := 0o170000
def sIfdir : UInt32 := 0o040000
def sIflnk : UInt32 := 0o120000
def sIfreg : UInt32 := 0o100000

structure Host where
  dirs : SrcId → Name → Option SrcId
  /-- The files that there are. -/
  files : SrcId → Option Attributes
  /-- The files that the process's descriptors refer to. -/
  fds : List (Option SrcId)
  /-- The numbers that new files can get. -/
  spare : List SrcId
  now : Clock
  errno : Nat
  /-- Which of the next calls are refused. -/
  refusals : List (Option Errno)

namespace Host

/-- A system call: refused, or carried out as far as the host's state allows. -/
def sys (host : Host) (effect : Host → Except Errno (α × Host)) : Except Errno α × Host :=
  let after := { host with refusals := host.refusals.tail }
  match host.refusals.head?.join with
  | some errno => (.error errno, { after with errno := errno })
  | none =>
    match effect after with
    | .ok (value, done) => (.ok value, done)
    | .error errno => (.error errno, { after with errno := errno })

def descriptor (host : Host) (fd : Int) : Option SrcId :=
  if 0 ≤ fd then (host.fds[fd.toNat]?).join else none

def opened (host : Host) (fd : Int) : Except Errno SrcId :=
  match host.descriptor fd with
  | some id => .ok id
  | none => .error ebadf

def entry (host : Host) (dir : SrcId) (name : Name) : Except Errno SrcId :=
  match host.dirs dir name with
  | some id => .ok id
  | none => .error enoent

def setEntry (host : Host) (dir : SrcId) (name : Name) (target : Option SrcId) : Host :=
  { host with dirs := fun d n => if d = dir ∧ n = name then target else host.dirs d n }

theorem dirs_setEntry (host : Host) (dir other : SrcId) (name name' : Name) (target : Option SrcId) :
    (host.setEntry dir name target).dirs other name' =
      if other = dir ∧ name' = name then target else host.dirs other name' := rfl

def setAttributes (host : Host) (id : SrcId) (attributes : Attributes) : Host :=
  { host with files := fun other => if other = id then some attributes else host.files other }

def attributes (host : Host) (id : SrcId) : Except Errno Attributes :=
  match host.files id with
  | some attributes => .ok attributes
  | none => .error eio

/-- The lowest descriptor that is not in use. -/
def freeFd (host : Host) : Nat := host.fds.findIdx (·.isNone)

def install (host : Host) (id : SrcId) : Int × Host :=
  (host.freeFd, { host with fds := (host.fds ++ [none]).set host.freeFd (some id) })

/-- `openat` with `O_PATH | O_NOFOLLOW`. -/
def openat (host : Host) (fd : Int) (name : Name) : Except Errno Int × Host :=
  host.sys fun host => do
    let dir ← host.opened fd
    let id ← host.entry dir name
    return host.install id

/-- The descriptor is gone whatever `close` returns. -/
def close (host : Host) (fd : Int) : Host :=
  if 0 ≤ fd then { host with fds := host.fds.set fd.toNat none } else host

/-- `fstatat` with `AT_EMPTY_PATH`. -/
def fstat (host : Host) (fd : Int) : Except Errno Stat × Host :=
  host.sys fun host => do
    let id ← host.opened fd
    let attributes ← host.attributes id
    return ({ attributes with id }, host)

def fstatat (host : Host) (fd : Int) (name : Name) : Except Errno Stat × Host :=
  host.sys fun host => do
    let dir ← host.opened fd
    let id ← host.entry dir name
    let attributes ← host.attributes id
    return ({ attributes with id }, host)

/-- A new file under a name that is not taken. -/
def create (host : Host) (dir : SrcId) (name : Name) (attributes : Attributes) : Except Errno (SrcId × Host) :=
  match host.dirs dir name, host.spare.find? fun id => (host.files id).isNone with
  | some _, _ => .error eexist
  | none, none => .error enospc
  | none, some id => .ok (id, (host.setEntry dir name (some id)).setAttributes id attributes)

def newFile (host : Host) (mode : UInt32) (size : Int64) : Attributes := ⟨mode, 0, 0, size, host.now, host.now⟩

/-- `mknodat`, `mkdirat` and `symlinkat`. -/
def makeat (host : Host) (fd : Int) (name : Name) (mode : UInt32) (size : Int64) : Except Errno Unit × Host :=
  host.sys fun host => do
    let dir ← host.opened fd
    let (_, host) ← host.create dir name (host.newFile mode size)
    return ((), host)

def mknodat (host : Host) (fd : Int) (name : Name) (mode : UInt32) : Except Errno Unit × Host :=
  host.makeat fd name mode 0

def mkdirat (host : Host) (fd : Int) (name : Name) (mode : UInt32) : Except Errno Unit × Host :=
  host.makeat fd name (sIfdir ||| mode) 0

def symlinkat (host : Host) (link : Name) (fd : Int) (name : Name) : Except Errno Unit × Host :=
  host.makeat fd name (sIflnk ||| 0o777) (Int64.ofNat link.length)

/-- `openat` with `O_CREAT`: the file is made unless it is there. -/
def openCreate (host : Host) (fd : Int) (name : Name) (mode : UInt32) : Except Errno Int × Host :=
  host.sys fun host => do
    let dir ← host.opened fd
    match host.dirs dir name with
    | some id => return host.install id
    | none =>
      let (id, host) ← host.create dir name (host.newFile (sIfreg ||| mode) 0)
      return host.install id

/-- `linkat`; directories have one name only. -/
def linkat (host : Host) (file : Except Errno SrcId) (fd : Int) (name : Name) : Except Errno Unit × Host :=
  host.sys fun host => do
    let id ← file
    let dir ← host.opened fd
    let attributes ← host.attributes id
    if attributes.mode &&& sIfmt = sIfdir then .error eperm
    else match host.dirs dir name with
      | some _ => .error eexist
      | none => return ((), host.setEntry dir name (some id))

/-- Two names of one file stay as they are. -/
def renameat (host : Host) (oldfd : Int) (name : Name) (newfd : Int) (newname : Name) : Except Errno Unit × Host :=
  host.sys fun host => do
    let dir ← host.opened oldfd
    let newdir ← host.opened newfd
    let id ← host.entry dir name
    if host.dirs newdir newname = some id then return ((), host)
    else return ((), (host.setEntry dir name none).setEntry newdir newname (some id))

def unlinkat (host : Host) (fd : Int) (name : Name) : Except Errno Unit × Host :=
  host.sys fun host => do
    let dir ← host.opened fd
    let _ ← host.entry dir name
    return ((), host.setEntry dir name none)

/-- A change to the attributes of an open file, `einval` when it makes no sense. -/
def change (host : Host) (file : Except Errno SrcId) (f : Attributes → Option Attributes) :
    Except Errno Unit × Host :=
  host.sys fun host => do
    let id ← file
    let attributes ← host.attributes id
    match f attributes with
    | some attributes => return ((), host.setAttributes id attributes)
    | none => .error einval

/-- The file behind the path that `self_path` makes of a descriptor. -/
def selfPath (host : Host) (fd : Int) : Except Errno SrcId :=
  match host.descriptor fd with
  | some id => .ok id
  | none => .error enoent

theorem sys_ok {host : Host} {effect : Host → Except Errno (α × Host)}
    (done : host.sys effect = (.ok value, after)) :
    effect { host with refusals := host.refusals.tail } = .ok (value, after) := by
  simp only [sys] at done
  split at done
  · cases done
  · split at done
    · cases done
      assumption
    · cases done

theorem descriptor_natCast (host : Host) (n : Nat) : host.descriptor n = (host.fds[n]?).join := by simp [descriptor]

theorem descriptor_negative (host : Host) (negative : fd < 0) : host.descriptor fd = none :=
  if_neg (Int.not_le.mpr negative)

theorem descriptor_congr {host other : Host} (same : other.fds = host.fds) (fd : Int) :
    other.descriptor fd = host.descriptor fd := by
  rw [descriptor, same]
  rfl

@[simp] theorem descriptor_free (host : Host) : host.descriptor host.freeFd = none := by
  rw [descriptor_natCast, freeFd]
  by_cases inside : host.fds.findIdx (·.isNone) < host.fds.length
  · have unused := List.findIdx_getElem (w := inside)
    simp only [List.getElem?_eq_getElem inside]
    simpa using unused
  · simp [List.getElem?_eq_none (Nat.le_of_not_lt inside)]

theorem descriptor_install (host : Host) (id : SrcId) (fd : Int) :
    (host.install id).2.descriptor fd = if fd = host.freeFd then some id else host.descriptor fd := by
  have free : host.freeFd ≤ host.fds.length := List.findIdx_le_length
  by_cases negative : fd < 0
  · rw [descriptor_negative _ negative, descriptor_negative _ negative, if_neg (by omega)]
  · obtain ⟨n, rfl⟩ := Int.eq_ofNat_of_zero_le (Int.not_lt.mp negative)
    simp only [descriptor_natCast, install, Int.natCast_inj]
    by_cases same : n = host.freeFd
    · simp [same, Nat.lt_succ_of_le free]
    · rw [if_neg same, List.getElem?_set_ne (Ne.symm same)]
      rcases Nat.lt_trichotomy n host.fds.length with inside | rfl | beyond
      · rw [List.getElem?_append_left inside]
      · simp
      · rw [List.getElem?_eq_none (by simp; omega), List.getElem?_eq_none (by omega)]

/-- Open descriptors stay as they are, and so do the files that there are. -/
structure Keeps (host after : Host) : Prop where
  descriptors : ∀ fd id, host.descriptor fd = some id → after.descriptor fd = some id
  files : ∀ id attributes, host.files id = some attributes → after.files id = some attributes

theorem Keeps.refl (host : Host) : Keeps host host := ⟨fun _ _ held => held, fun _ _ held => held⟩

theorem Keeps.trans (first : Keeps host middle) (second : Keeps middle after) : Keeps host after :=
  ⟨fun fd id held => second.descriptors fd id (first.descriptors fd id held),
    fun id attributes held => second.files id attributes (first.files id attributes held)⟩

/-- What does not depend on errors holds after a call if it holds after the effect. -/
theorem sys_after {motive : Host → Prop} {host : Host} {effect : Host → Except Errno (α × Host)}
    (unchanged : ∀ refusals code, motive { host with refusals, errno := code })
    (done : ∀ value after, effect { host with refusals := host.refusals.tail } = .ok (value, after) → motive after) :
    motive (host.sys effect).2 := by
  simp only [sys]
  split
  · exact unchanged _ _
  · split
    · rename_i value after ran
      exact done value after ran
    · exact unchanged _ _

theorem sys_keeps {host : Host} {effect : Host → Except Errno (α × Host)}
    (kept : ∀ value after, effect { host with refusals := host.refusals.tail } = .ok (value, after) →
      Keeps { host with refusals := host.refusals.tail } after) : Keeps host (host.sys effect).2 := by
  refine sys_after (motive := Keeps host) (fun _ _ => ⟨fun _ _ held => held, fun _ _ held => held⟩) ?_
  intro value after done
  exact ⟨(kept value after done).descriptors, (kept value after done).files⟩

theorem install_keeps (host : Host) (id : SrcId) : Keeps host (host.install id).2 := by
  refine ⟨fun fd target held => ?_, fun _ _ held => held⟩
  rw [descriptor_install, if_neg]
  · exact held
  · rintro rfl
    simp at held

theorem create_keeps {host after : Host} {made : Attributes} {id : SrcId}
    (created : host.create dir name made = .ok (id, after)) : Keeps host after := by
  simp only [create] at created
  split at created
  · cases created
  · cases created
  · rename_i found
    cases created
    have new := List.find?_some found
    refine ⟨fun _ _ held => held, fun other held is => ?_⟩
    simp only [setAttributes, setEntry]
    rw [if_neg]
    · exact is
    · rintro rfl
      simp [is] at new

theorem openat_keeps (host : Host) (fd : Int) (name : Name) : Keeps host (host.openat fd name).2 := by
  refine sys_keeps fun value after done => ?_
  obtain ⟨dir, -, done⟩ := bind_ok.mp done
  obtain ⟨id, -, done⟩ := bind_ok.mp done
  cases done
  exact install_keeps _ id

theorem fstat_keeps (host : Host) (fd : Int) : Keeps host (host.fstat fd).2 := by
  refine sys_keeps fun value after done => ?_
  obtain ⟨id, -, done⟩ := bind_ok.mp done
  obtain ⟨attributes, -, done⟩ := bind_ok.mp done
  cases done
  exact ⟨fun _ _ held => held, fun _ _ held => held⟩

theorem makeat_keeps (host : Host) (fd : Int) (name : Name) (mode : UInt32) (size : Int64) :
    Keeps host (host.makeat fd name mode size).2 := by
  refine sys_keeps fun value after done => ?_
  obtain ⟨dir, -, done⟩ := bind_ok.mp done
  obtain ⟨⟨id, made⟩, created, done⟩ := bind_ok.mp done
  cases done
  exact create_keeps created

theorem openCreate_keeps (host : Host) (fd : Int) (name : Name) (mode : UInt32) :
    Keeps host (host.openCreate fd name mode).2 := by
  refine sys_keeps fun value after done => ?_
  obtain ⟨dir, -, done⟩ := bind_ok.mp done
  split at done
  · rename_i id found
    cases done
    exact install_keeps _ id
  · obtain ⟨⟨id, made⟩, created, done⟩ := bind_ok.mp done
    cases done
    exact (create_keeps created).trans (install_keeps made id)

theorem linkat_keeps (host : Host) (file : Except Errno SrcId) (fd : Int) (name : Name) :
    Keeps host (host.linkat file fd name).2 := by
  refine sys_keeps fun value after done => ?_
  obtain ⟨id, -, done⟩ := bind_ok.mp done
  obtain ⟨dir, -, done⟩ := bind_ok.mp done
  obtain ⟨attributes, -, done⟩ := bind_ok.mp done
  split at done
  · cases done
  · split at done
    · cases done
    · cases done
      exact ⟨fun _ _ held => held, fun _ _ held => held⟩

theorem attributes_ok {host : Host} {id : SrcId} {held : Attributes} :
    host.attributes id = .ok held ↔ host.files id = some held := by
  simp only [attributes]
  split <;> simp [*]

theorem opened_ok {host : Host} {id : SrcId} : host.opened fd = .ok id ↔ host.descriptor fd = some id := by
  simp only [opened]
  split <;> simp [*]

theorem entry_ok {host : Host} {id : SrcId} : host.entry dir name = .ok id ↔ host.dirs dir name = some id := by
  simp only [entry]
  split <;> simp [*]

/-- A refused call changes neither the tree nor the table of descriptors. -/
theorem sys_error {host : Host} {effect : Host → Except Errno (α × Host)}
    (failed : host.sys effect = (.error code, after)) : after.dirs = host.dirs ∧ after.fds = host.fds := by
  simp only [sys] at failed
  split at failed
  · cases failed
    exact ⟨rfl, rfl⟩
  · split at failed
    · cases failed
    · cases failed
      exact ⟨rfl, rfl⟩

theorem fstatat_frame (host : Host) (fd : Int) (name : Name) :
    (host.fstatat fd name).2.dirs = host.dirs ∧ (host.fstatat fd name).2.fds = host.fds := by
  refine sys_after (motive := fun after => after.dirs = host.dirs ∧ after.fds = host.fds) (fun _ _ => ⟨rfl, rfl⟩) ?_
  intro value after done
  obtain ⟨dir, -, done⟩ := bind_ok.mp done
  obtain ⟨id, -, done⟩ := bind_ok.mp done
  obtain ⟨held, -, done⟩ := bind_ok.mp done
  cases done
  exact ⟨rfl, rfl⟩

theorem openat_dirs (host : Host) (fd : Int) (name : Name) : (host.openat fd name).2.dirs = host.dirs := by
  refine sys_after (motive := fun after => after.dirs = host.dirs) (fun _ _ => rfl) fun value after done => ?_
  obtain ⟨dir, -, done⟩ := bind_ok.mp done
  obtain ⟨id, -, done⟩ := bind_ok.mp done
  cases done
  rfl

theorem fstat_dirs (host : Host) (fd : Int) : (host.fstat fd).2.dirs = host.dirs := by
  refine sys_after (motive := fun after => after.dirs = host.dirs) (fun _ _ => rfl) fun value after done => ?_
  obtain ⟨id, -, done⟩ := bind_ok.mp done
  obtain ⟨held, -, done⟩ := bind_ok.mp done
  cases done
  rfl

theorem close_dirs (host : Host) (fd : Int) : (host.close fd).dirs = host.dirs := by
  simp only [close]
  split <;> rfl

theorem fstatat_ok {host after : Host} (done : host.fstatat fd name = (.ok stat, after)) :
    ∃ dir, host.descriptor fd = some dir ∧ host.dirs dir name = some stat.id := by
  obtain ⟨dir, opened, done⟩ := bind_ok.mp (sys_ok done)
  obtain ⟨id, found, done⟩ := bind_ok.mp done
  obtain ⟨held, -, done⟩ := bind_ok.mp done
  cases done
  exact ⟨dir, opened_ok.mp opened, entry_ok.mp found⟩

theorem unlinkat_ok {host after : Host} (done : host.unlinkat fd name = (.ok value, after)) :
    ∃ dir, host.descriptor fd = some dir ∧ after.dirs = (host.setEntry dir name none).dirs := by
  obtain ⟨dir, opened, done⟩ := bind_ok.mp (sys_ok done)
  obtain ⟨id, -, done⟩ := bind_ok.mp done
  cases done
  exact ⟨dir, opened_ok.mp opened, rfl⟩

/-- A rename within one directory. -/
theorem renameat_ok {host after : Host} (done : host.renameat fd name fd newname = (.ok value, after)) :
    ∃ dir id, host.descriptor fd = some dir ∧ host.dirs dir name = some id ∧
      (after.dirs = host.dirs ∨
        after.dirs = ((host.setEntry dir name none).setEntry dir newname (some id)).dirs) := by
  obtain ⟨dir, opened, done⟩ := bind_ok.mp (sys_ok done)
  obtain ⟨newdir, same, done⟩ := bind_ok.mp done
  cases (opened.symm.trans same)
  obtain ⟨id, found, done⟩ := bind_ok.mp done
  split at done
  · cases done
    exact ⟨dir, id, opened_ok.mp opened, entry_ok.mp found, .inl rfl⟩
  · cases done
    exact ⟨dir, id, opened_ok.mp opened, entry_ok.mp found, .inr rfl⟩

/-- What gets a second name is no directory. -/
theorem linkat_ok {host after : Host} (done : host.linkat file fd name = (.ok value, after)) :
    ∃ id held, file = .ok id ∧ host.files id = some held ∧ held.mode &&& sIfmt ≠ sIfdir := by
  have effect := sys_ok done
  obtain ⟨id, found, effect⟩ := bind_ok.mp effect
  obtain ⟨dir, -, effect⟩ := bind_ok.mp effect
  obtain ⟨held, read, effect⟩ := bind_ok.mp effect
  exact ⟨id, held, found, attributes_ok.mp read, (of_guard effect).1⟩

end Host

/-- `chmod` keeps the type of a file. -/
def Attributes.setMode (mode : UInt32) (attributes : Attributes) : Option Attributes :=
  some { attributes with mode := attributes.mode &&& sIfmt ||| mode &&& 0o7777 }

def Attributes.setOwner (uid gid : UInt32) (attributes : Attributes) : Option Attributes :=
  some { attributes with
    uid := if uid = noOwner then attributes.uid else uid
    gid := if gid = noOwner then attributes.gid else gid }

def Attributes.setSize (size : Int64) (attributes : Attributes) : Option Attributes :=
  if size < 0 then none else some { attributes with size }

def Attributes.setTimes (now atime mtime : Clock) (attributes : Attributes) : Option Attributes :=
  match stamp now atime attributes.atime, stamp now mtime attributes.mtime with
  | some atime, some mtime => some { attributes with atime, mtime }
  | _, _ => none

end Fsyncer.FuseHost
