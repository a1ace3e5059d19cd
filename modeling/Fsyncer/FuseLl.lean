import Fsyncer.FuseHost
import Fsyncer.Base.Machine

/-! The low-level FUSE file system: its table of inodes and the requests that
change it. An inode is known to the kernel by the address of its box, the root
by a number of its own. Each request runs alone. -/
namespace Fsyncer.FuseLl
open FileTree (Name Clock noOwner)
open FileTree.Tree (utimeNow utimeOmit)
open FuseHost Machine

structure Inode where
  fd : Int
  isSymlink : Bool
  srcDev : UInt64
  srcIno : UInt64
  nlookup : Nat
  /-- The parent's address and a name in it. -/
  path : Option (Nat × Name)
  deriving DecidableEq, Repr

def Inode.srcId (inode : Inode) : SrcId := ⟨inode.srcIno, inode.srcDev⟩

def fuseRootId : Nat := 1

/-- `inodes` owns the boxes at the addresses it maps to. -/
structure Fs where
  inodes : SrcId → Option Nat
  boxes : Nat → Option Inode
  /-- Where the next box goes. -/
  heap : Nat
  root : Inode
  rootAt : Nat
  rootAt_ne : rootAt ≠ fuseRootId
  srcDev : UInt64
  timeout : UInt64

structure World where
  fs : Fs
  host : Host

/-- Ways in which the process goes down. -/
inductive Fault where
  | unknownInode
  | negativeLookupCount
  | fileWasNotLookedUp
  | mustHaveAPath
  | notUtf8
  | unreachable
  /-- The kernel named an inode that it was not given, or has forgotten. -/
  | dangling
  deriving DecidableEq, Repr

structure EntryParam where
  ino : Nat
  attr : Stat
  attrTimeout : UInt64
  entryTimeout : UInt64
  deriving DecidableEq, Repr

structure FileInfo where
  fh : Int
  deriving DecidableEq, Repr

/-- What `readdir` returns. -/
structure Dirent where
  dName : Name
  dIno : UInt64
  dType : UInt8
  dOff : Int64
  deriving DecidableEq, Repr

inductive Direntry where
  | plain (name : Name) (ino : UInt64) (mode : UInt32) (off : Int64)
  | plus (name : Name) (entry : EntryParam) (off : Int64)
  deriving DecidableEq, Repr

inductive FuseReply where
  | attr (stat : Stat) (timeout : UInt64)
  | buf (entries : List Direntry)
  | create (entry : EntryParam) (fi : FileInfo)
  | entry (entry : EntryParam)
  /-- Zero reports success. -/
  | err (code : Nat)
  | none
  deriving DecidableEq, Repr

abbrev Outcome := Except Fault (FuseReply × World)

namespace Fs

def getInode (fs : Fs) (ino : Nat) : Except Fault Inode :=
  if ino = fuseRootId then .ok fs.root
  else match fs.boxes ino with
    | none => .error .dangling
    | some inode => if inode.fd = -1 then .error .unknownInode else .ok inode

/-- The address of an inode. -/
def address (fs : Fs) (ino : Nat) : Nat := if ino = fuseRootId then fs.rootAt else ino

def setBox (fs : Fs) (ptr : Nat) (inode : Option Inode) : Fs :=
  { fs with boxes := fun other => if other = ptr then inode else fs.boxes other }

def setInode (fs : Fs) (ino : Nat) (inode : Inode) : Fs :=
  if ino = fuseRootId then { fs with root := inode } else fs.setBox ino (some inode)

def setEntry (fs : Fs) (id : SrcId) (ptr : Option Nat) : Fs :=
  { fs with inodes := fun other => if other = id then ptr else fs.inodes other }

/-- `HashMap::remove`, which drops the box. -/
def remove (fs : Fs) (id : SrcId) : Fs :=
  match fs.inodes id with
  | some ptr => (fs.setEntry id none).setBox ptr none
  | none => fs

def insert (fs : Fs) (inode : Inode) : Fs :=
  { (fs.setEntry inode.srcId (some fs.heap)).setBox fs.heap (some inode) with heap := fs.heap + 1 }

end Fs

/-- `CStr::to_str`. -/
def isStr (name : Name) : Bool := Vfs.continuesUtf8 [] name

/-- The inode that a lookup makes when the table has none. -/
def Inode.new (parent : Nat) (name : Name) (newfd : Int) (attr : Stat) : Inode where
  srcIno := attr.id.ino
  srcDev := attr.id.dev
  isSymlink := attr.mode &&& sIflnk = sIflnk
  nlookup := 1
  fd := newfd
  path := some (parent, name)

/-- The table's inode for a file, made if need be. -/
def Fs.orInsert (fs : Fs) (parent : Nat) (name : Name) (newfd : Int) (attr : Stat) : Except Fault (Nat × Fs) :=
  match fs.inodes attr.id with
  | some ptr => .ok (ptr, fs)
  | none => if isStr name then .ok (fs.heap, fs.insert (Inode.new parent name newfd attr)) else .error .notUtf8

/-- One more reference to a box. -/
def Fs.countUp (fs : Fs) (ptr : Nat) : Except Fault Fs :=
  match fs.boxes ptr with
  | some inode => .ok (fs.setBox ptr (some { inode with nlookup := u64 (inode.nlookup + 1) }))
  | none => .error .dangling

namespace World

def withHost (w : World) (host : Host) : World := { w with host }

def withFs (w : World) (fs : Fs) : World := { w with fs }

/-- Zero or the error number, as most requests reply. -/
def status (w : World) (result : Except Errno Unit × Host) : FuseReply × World :=
  match result with
  | (.ok _, host) => (.err 0, w.withHost host)
  | (.error errno, host) => (.err errno, w.withHost host)

/-- The system calls of a lookup; the descriptor stays open when they fail half-way. -/
def resolve (w : World) (parent : Inode) (name : Name) : Except Errno (Int × Stat) × Host :=
  match w.host.openat parent.fd name with
  | (.error errno, host) => (.error errno, host)
  | (.ok newfd, host) =>
    match host.fstat newfd with
    | (.error errno, host) => (.error errno, host)
    | (.ok attr, host) =>
      if attr.id.dev ≠ w.fs.srcDev then (.error enotsup, host)
      else if attr.id.ino = .ofNat fuseRootId then (.error eio, host)
      else (.ok (newfd, attr), host)

def entryParam (w : World) (ino : Nat) (attr : Stat) : EntryParam := ⟨ino, attr, w.fs.timeout, w.fs.timeout⟩

def lookup (w : World) (parent : Nat) (name : Name) : Outcome := do
  let inode ← w.fs.getInode parent
  match w.resolve inode name with
  | (.error errno, host) => return (.err errno, w.withHost host)
  | (.ok (newfd, attr), host) =>
    let (ptr, fs) ← w.fs.orInsert parent name newfd attr
    let fs ← fs.countUp ptr
    return (.entry (w.entryParam ptr attr), ⟨fs, host.close newfd⟩)

def forget (w : World) (ino : Nat) (nlookup : Nat) : Except Fault World := do
  let inode ← w.fs.getInode ino
  if inode.nlookup < nlookup then .error .negativeLookupCount
  else
    let fs := w.fs.setInode ino { inode with nlookup := inode.nlookup - nlookup }
    return w.withFs (if inode.nlookup - nlookup = 0 then fs.remove inode.srcId else fs)

def isDotOrDotdot (name : Name) : Bool := name = [0x2E] || name = [0x2E, 0x2E]

/-- The bytes that `fuse_add_direntry_plus` and `fuse_add_direntry` need, whether or not they are there. -/
def direntrySize (plus : Bool) (name : Name) : Nat := ((if plus then 152 else 24) + name.length + 7) / 8 * 8

/-- The entries still to come, those in the buffer, and the bytes they take. -/
def readdirLoop (ino : Nat) (size : Nat) (plus : Bool) (failed : Option Errno) :
    List Dirent → List Direntry → Nat → World → Outcome
  | [], done, _, w =>
    -- nothing sets `errno` to zero before `readdir`
    match failed with
    | some errno => .ok (.err errno, w)
    | none => if w.host.errno ≠ 0 then .ok (.err w.host.errno, w) else .ok (.buf done, w)
  | entry :: rest, done, cSize, w =>
    if isDotOrDotdot entry.dName then readdirLoop ino size plus failed rest done cSize w
    else
      let entsize := direntrySize plus entry.dName
      if plus then
        match w.lookup ino entry.dName with
        | .error fault => .error fault
        | .ok (.err code, w) => .ok (.err code, w)
        | .ok (.entry e, w) =>
          if size - cSize < entsize then
            match w.forget e.ino 1 with
            | .error fault => .error fault
            | .ok w => .ok (.buf done, w)
          else readdirLoop ino size plus failed rest (done ++ [.plus entry.dName e entry.dOff]) (cSize + entsize) w
        | .ok _ => .error .unreachable
      else if size - cSize < entsize then .ok (.buf done, w)
      else
        let plain := .plain entry.dName entry.dIno (entry.dType.toUInt32 <<< 12) entry.dOff
        readdirLoop ino size plus failed rest (done ++ [plain]) (cSize + entsize) w

/-- `stream` is what `readdir` returns after `seekdir`, before it ends or has `failed`. -/
def readdirCommon (w : World) (ino size : Nat) (stream : List Dirent) (failed : Option Errno) (plus : Bool) :
    Outcome := do
  let _ ← w.fs.getInode ino
  readdirLoop ino size plus failed stream [] 0 w

def readdirplus (w : World) (ino size : Nat) (stream : List Dirent) (failed : Option Errno) : Outcome :=
  w.readdirCommon ino size stream failed true

def readdir (w : World) (ino size : Nat) (stream : List Dirent) (failed : Option Errno) : Outcome :=
  w.readdirCommon ino size stream failed false

/-- A new entry, and then a lookup of it. -/
def made (w : World) (parent : Nat) (name : Name) (make : Host → Int → Except Errno Unit × Host) : Outcome := do
  let inode ← w.fs.getInode parent
  match make w.host inode.fd with
  | (.error errno, host) => return (.err errno, w.withHost host)
  | (.ok _, host) => (w.withHost host).lookup parent name

def mknod (w : World) (parent : Nat) (name : Name) (mode : UInt32) : Outcome :=
  w.made parent name fun host fd => host.mknodat fd name mode

def mkdir (w : World) (parent : Nat) (name : Name) (mode : UInt32) : Outcome :=
  w.made parent name fun host fd => host.mkdirat fd name mode

def symlink (w : World) (link : Name) (parent : Nat) (name : Name) : Outcome :=
  w.made parent name fun host fd => host.symlinkat link fd name

def create (w : World) (parent : Nat) (name : Name) (mode : UInt32) : Outcome := do
  let inode ← w.fs.getInode parent
  match w.host.openCreate inode.fd name mode with
  | (.error errno, host) => return (.err errno, w.withHost host)
  | (.ok fd, host) =>
    match ← (w.withHost host).lookup parent name with
    | (.err code, w) => return (.err code, w)
    | (.entry e, w) => return (.create e ⟨fd⟩, w)
    | _ => .error .unreachable

/-- `linkat` from a descriptor or from the path of one. -/
def linkInode (w : World) (inode : Inode) (fd : Int) (newname : Name) : Except Errno Unit × Host :=
  if inode.isSymlink then w.host.linkat (w.host.opened inode.fd) fd newname
  else w.host.linkat (w.host.selfPath inode.fd) fd newname

def link (w : World) (ino newparent : Nat) (newname : Name) : Outcome := do
  let inode ← w.fs.getInode ino
  let parent ← w.fs.getInode newparent
  match w.linkInode inode parent.fd newname with
  | (.error errno, host) =>
    if inode.isSymlink ∧ (errno = enoent ∨ errno = einval) then return (.err enotsup, w.withHost host)
    else return (.err errno, w.withHost host)
  | (.ok _, host) =>
    match host.fstat inode.fd with
    | (.error errno, host) => return (.err errno, w.withHost host)
    | (.ok attr, host) =>
      let fs := w.fs.setInode ino { inode with nlookup := u64 (inode.nlookup + 1) }
      return (.entry (w.entryParam ino attr), ⟨fs, host⟩)

end World

/-- A lookup fails with nothing changed, or gives out an inode of the table. -/
theorem lookup_cases {w after : World} (done : w.lookup parent name = .ok (reply, after)) :
    ∃ inode, w.fs.getInode parent = .ok inode ∧
      ((∃ errno host, w.resolve inode name = (.error errno, host) ∧ reply = .err errno ∧ after = w.withHost host) ∨
      ∃ newfd attr host ptr fs, w.resolve inode name = (.ok (newfd, attr), host) ∧
        w.fs.orInsert parent name newfd attr = .ok (ptr, fs) ∧ fs.countUp ptr = .ok after.fs ∧
        reply = .entry (w.entryParam ptr attr) ∧ after.host = host.close newfd) := by
  obtain ⟨inode, known, done⟩ := bind_ok.mp done
  refine ⟨inode, known, ?_⟩
  split at done
  · rename_i errno host failed
    cases done
    exact .inl ⟨errno, host, failed, rfl, rfl⟩
  · rename_i newfd attr host found
    obtain ⟨⟨ptr, fs⟩, inserted, done⟩ := bind_ok.mp done
    obtain ⟨counted, up, done⟩ := bind_ok.mp done
    cases done
    exact .inr ⟨newfd, attr, host, ptr, fs, found, inserted, up, rfl, rfl⟩

/-- A directory with one file in it, mounted. -/
def oneFile : World where
  fs := {
    inodes := fun _ => none
    boxes := fun _ => none
    heap := 4096
    root := ⟨3, false, 1, 2, 1, none⟩
    rootAt := 64
    rootAt_ne := by decide
    srcDev := 1
    timeout := 0 }
  host := {
    dirs := fun dir name => if dir = ⟨2, 1⟩ ∧ name = [0x61] then some ⟨7, 1⟩ else none
    files := fun id =>
      if id = ⟨2, 1⟩ then some ⟨sIfdir ||| 0o755, 0, 0, 0, ⟨0, 0⟩, ⟨0, 0⟩⟩
      else if id = ⟨7, 1⟩ then some ⟨sIfreg ||| 0o644, 0, 0, 0, ⟨0, 0⟩, ⟨0, 0⟩⟩ else none
    fds := [none, none, none, some ⟨2, 1⟩]
    spare := []
    now := ⟨0, 0⟩
    errno := 0
    refusals := [] }

end Fsyncer.FuseLl
