import Fsyncer.Base.Crc32
import Fsyncer.Vfs

/-! Bidirectional journal entries. An entry holds what two states differ in: the
exclusive or of their values, or an object that exists in one of them. Which way
it is applied is decided by the state met, guarded by a checksum for values. The
records of old and new state and of their difference have the same fields. -/
namespace Fsyncer.Bilog
open FileTree Vfs Wire Crc32 ByteFile

inductive Fault where
  | os (errno : Errno)
  | io (error : IoError)
  | panic (message : String)
  deriving DecidableEq, Repr

/-- Where the backing store lies, who accesses it, and in which order its
directory walk lists it. -/
structure Host where
  process : Process
  fspath : Path
  walkDir : Tree → List Path

/-- A host whose backing store is the root of the file system. -/
def plainHost : Host where
  process := ⟨⟨0, by decide⟩, ⟨0, by decide⟩, ⟨0, 0⟩⟩
  fspath := []
  walkDir _ := []

/-- Its store when empty, and with the one file `f`. -/
def emptyStore : Tree := Tree.bare plainHost.process

def soloFile (data : File) : Tree :=
  emptyStore.attach [[102]] (plainHost.process.newInode (.reg data) 0o644) rfl rfl

def lift (result : Except Errno α) : Except Fault α :=
  match result with
  | .ok value => .ok value
  | .error errno => .error (.os errno)

def translateAndStat (path : Path) (host : Host) (t : Tree) : Except Errno Inode :=
  t.lstat (translatePath path host.fspath)

/-- The first path of the walk that leads to the inode `ino`, as the walk spells it. -/
def findHardlink (ino : Nat) (host : Host) (t : Tree) : Option Path :=
  (host.walkDir t).find? fun path => t.names.find path = some ino

def mismatch : Fault := .io (.other "Cannot apply bilog entry, state checksum mismatch")

def stub : Fault := .panic "Cannot generate from"

/-! The byte streams that the standard `Hash` implementations feed to a hasher. -/

def hashU32 (value : UInt32) : List UInt8 := leBytes 4 value.toNat

def hashI64 (value : Int64) : List UInt8 := leBytes 8 value.toUInt64.toNat

def hashSlice (bytes : List UInt8) : List UInt8 := leBytes 8 bytes.length ++ bytes

def hashTimespec (spec : Timespec) : List UInt8 := hashI64 spec.high ++ hashI64 spec.low

def hashTimespecs (specs : Timespec × Timespec × Timespec) : List UInt8 :=
  leBytes 8 3 ++ hashTimespec specs.1 ++ hashTimespec specs.2.1 ++ hashTimespec specs.2.2

/-- The discriminant as a machine word, then the value if there is one. -/
def hashOption (value : Option (List UInt8)) : List UInt8 :=
  match value with
  | none => leBytes 8 0
  | some bytes => leBytes 8 1 ++ hashSlice bytes

structure BilogChmod where
  path : Path
  mode : UInt32
  checksum : UInt32
  deriving DecidableEq, Repr

namespace BilogChmod

def crc32 (mode : UInt32) : UInt32 := checksumIeee (hashU32 mode)

/-- A state record with its checksum set. -/
def state (path : Path) (mode : UInt32) : BilogChmod := { path, mode, checksum := crc32 mode }

def new : VFSCall → Except Fault BilogChmod
  | .chmod path mode => .ok (state path mode)
  | _ => .error stub

def xor (o n : BilogChmod) : BilogChmod :=
  { path := n.path, mode := n.mode ^^^ o.mode, checksum := n.checksum ^^^ o.checksum }

def apply (x o : BilogChmod) : Except Fault VFSCall :=
  if crc32 (x.mode ^^^ o.mode) ^^^ o.checksum ≠ x.checksum then .error mismatch
  else .ok (.chmod x.path (x.mode ^^^ o.mode))

def old (path : Path) (host : Host) (t : Tree) : Except Fault BilogChmod := do
  let stbuf ← lift (translateAndStat path host t)
  return state path stbuf.mode

end BilogChmod

structure BilogChown where
  path : Path
  uid : UInt32
  gid : UInt32
  checksum : UInt32
  deriving DecidableEq, Repr

namespace BilogChown

def crc32 (uid gid : UInt32) : UInt32 := checksumIeee (hashU32 uid ++ hashU32 gid)

def state (path : Path) (uid gid : UInt32) : BilogChown := { path, uid, gid, checksum := crc32 uid gid }

def new : VFSCall → Except Fault BilogChown
  | .security path (.unix uid gid) => .ok (state path uid gid)
  | _ => .error stub

def xor (o n : BilogChown) : BilogChown :=
  { path := n.path, uid := n.uid ^^^ o.uid, gid := n.gid ^^^ o.gid, checksum := n.checksum ^^^ o.checksum }

def apply (x o : BilogChown) : Except Fault VFSCall :=
  if crc32 (x.uid ^^^ o.uid) (x.gid ^^^ o.gid) ^^^ o.checksum ≠ x.checksum then .error mismatch
  else .ok (.security x.path (.unix (x.uid ^^^ o.uid) (x.gid ^^^ o.gid)))

def old (path : Path) (host : Host) (t : Tree) : Except Fault BilogChown := do
  let stbuf ← lift (translateAndStat path host t)
  return state path stbuf.uid stbuf.gid

end BilogChown

/-- Three timestamps, of which the last is unused on Unix. -/
abbrev Timespecs := Timespec × Timespec × Timespec

def xorTimespecs (left right : Timespecs) : Timespecs :=
  (left.1 ^^^ right.1, left.2.1 ^^^ right.2.1, left.2.2 ^^^ right.2.2)

structure BilogUtimens where
  path : Path
  timespec : Timespecs
  checksum : UInt32
  deriving DecidableEq, Repr

namespace BilogUtimens

def crc32 (timespec : Timespecs) : UInt32 := checksumIeee (hashTimespecs timespec)

def state (path : Path) (timespec : Timespecs) : BilogUtimens :=
  { path, timespec, checksum := crc32 timespec }

def new : VFSCall → Except Fault BilogUtimens
  | .utimens path timespec => .ok (state path timespec)
  | _ => .error stub

def xor (o n : BilogUtimens) : BilogUtimens :=
  { path := n.path, timespec := xorTimespecs n.timespec o.timespec, checksum := n.checksum ^^^ o.checksum }

def apply (x o : BilogUtimens) : Except Fault VFSCall :=
  if crc32 (xorTimespecs x.timespec o.timespec) ^^^ o.checksum ≠ x.checksum then .error mismatch
  else .ok (.utimens x.path (xorTimespecs x.timespec o.timespec))

def old (path : Path) (host : Host) (t : Tree) : Except Fault BilogUtimens := do
  let stbuf ← lift (translateAndStat path host t)
  return state path (⟨stbuf.atime.sec, stbuf.atime.nsec⟩, ⟨stbuf.mtime.sec, stbuf.mtime.nsec⟩, ⟨0, 0⟩)

end BilogUtimens

structure BilogRename where
  source : Path
  dest : Path
  fromExists : Bool
  deriving DecidableEq, Repr

namespace BilogRename

def apply (x o : BilogRename) : Except Fault VFSCall :=
  .ok (if o.fromExists then .rename x.source x.dest 0 else .rename x.dest x.source 0)

/-- The state is not looked at: the source counts as existing. -/
def old (x : BilogRename) : Except Fault BilogRename :=
  .ok { source := x.source, dest := x.dest, fromExists := true }

end BilogRename

/-- What looking for an object finds; only its absence is not an error. -/
def probe (path : Path) (host : Host) (t : Tree) : Except Fault (Option Inode) :=
  match translateAndStat path host t with
  | .ok stbuf => .ok (some stbuf)
  | .error .enoent => .ok none
  | .error errno => .error (.os errno)

structure BilogDir where
  path : Path
  mode : UInt32
  dirExists : Bool
  uid : UInt32
  gid : UInt32
  deriving DecidableEq, Repr

namespace BilogDir

def new : VFSCall → Except Fault BilogDir
  | .rmdir path => .ok { path, mode := 0, dirExists := true, uid := 0, gid := 0 }
  | _ => .error stub

def xor (o n : BilogDir) : BilogDir :=
  { path := o.path, mode := o.mode ^^^ n.mode, uid := o.uid ^^^ n.uid, gid := o.gid ^^^ n.gid,
    dirExists := true }

def apply (x o : BilogDir) : Except Fault VFSCall :=
  .ok (if o.dirExists then .rmdir x.path else .mkdir x.path (.unix x.uid x.gid) x.mode)

def old (path : Path) (host : Host) (t : Tree) : Except Fault BilogDir := do
  match ← probe path host t with
  | none => return { path, mode := 0, uid := 0, gid := 0, dirExists := false }
  | some stbuf =>
    return { path, mode := stbuf.mode, uid := stbuf.uid, gid := stbuf.gid, dirExists := true }

end BilogDir

structure BilogSymlink where
  source : List UInt8
  dest : Path
  toExists : Bool
  uid : UInt32
  gid : UInt32
  deriving DecidableEq, Repr

namespace BilogSymlink

def new : VFSCall → Except Fault BilogSymlink
  | .unlink path => .ok { source := [], dest := path, uid := 0, gid := 0, toExists := true }
  | _ => .error stub

def xor (o n : BilogSymlink) : BilogSymlink :=
  { source := if o.toExists then o.source else n.source, dest := o.dest, toExists := true,
    uid := o.uid ^^^ n.uid, gid := o.gid ^^^ n.gid }

def apply (x o : BilogSymlink) : Except Fault VFSCall :=
  .ok (if o.toExists then .unlink x.dest else .symlink x.source x.dest (.unix x.uid x.gid))

/-- The link is read through a path that has to be a string. -/
def old (dest : Path) (host : Host) (t : Tree) : Except Fault BilogSymlink := do
  match ← probe dest host t with
  | none => return { source := [], dest, uid := 0, gid := 0, toExists := false }
  | some stbuf =>
    let realPath := translatePath dest host.fspath
    if isStr realPath then
      let source ← lift (t.readlink realPath)
      return { source, dest, toExists := true, uid := stbuf.uid, gid := stbuf.gid }
    else .error (.panic "called `Option::unwrap()` on a `None` value")

end BilogSymlink

structure BilogLink where
  source : Path
  dest : Path
  toExists : Bool
  uid : UInt32
  gid : UInt32
  deriving DecidableEq, Repr

namespace BilogLink

def new : VFSCall → Except Fault BilogLink
  | .unlink path => .ok { source := [], dest := path, toExists := true, uid := 0, gid := 0 }
  | _ => .error stub

def xor (o n : BilogLink) : BilogLink :=
  { source := if o.toExists then o.source else n.source, dest := o.dest, toExists := true,
    uid := o.uid ^^^ n.uid, gid := o.gid ^^^ n.gid }

def apply (x o : BilogLink) : Except Fault VFSCall :=
  .ok (if o.toExists then .unlink x.dest else .link x.source x.dest (.unix x.uid x.gid))

def old (dest : Path) (host : Host) (t : Tree) : Except Fault BilogLink := do
  match ← probe dest host t with
  | none => return { source := [], dest, toExists := false, uid := 0, gid := 0 }
  | some stbuf =>
    let ino := (t.names.find (translatePath dest host.fspath)).getD 0
    match findHardlink ino host t with
    | none => .error (.io (.other "Hardlink source could not be found"))
    | some source => return { source, dest, toExists := true, uid := stbuf.uid, gid := stbuf.gid }

end BilogLink

structure BilogNode where
  path : Path
  mode : UInt32
  rdev : UInt64
  present : Bool
  uid : UInt32
  gid : UInt32
  deriving DecidableEq, Repr

namespace BilogNode

def new : VFSCall → Except Fault BilogNode
  | .unlink path => .ok { path, mode := 0, rdev := 0, uid := 0, gid := 0, present := true }
  | _ => .error stub

def xor (o n : BilogNode) : BilogNode :=
  { path := o.path, mode := n.mode ^^^ o.mode, rdev := n.rdev ^^^ o.rdev, uid := o.uid ^^^ n.uid,
    gid := o.gid ^^^ n.gid, present := true }

def apply (x o : BilogNode) : Except Fault VFSCall :=
  .ok (if o.present then .unlink x.path else .mknod x.path x.mode x.rdev (.unix x.uid x.gid))

def old (path : Path) (host : Host) (t : Tree) : Except Fault BilogNode := do
  match ← probe path host t with
  | none => return { path, mode := 0, rdev := 0, uid := 0, gid := 0, present := false }
  | some stbuf =>
    return { path, mode := stbuf.mode, rdev := stbuf.kind.rdev.toUInt64, present := true,
             uid := stbuf.uid, gid := stbuf.gid }

end BilogNode

structure BilogFile where
  path : Path
  mode : UInt32
  present : Bool
  uid : UInt32
  gid : UInt32
  deriving DecidableEq, Repr

namespace BilogFile

def new : VFSCall → Except Fault BilogFile
  | .unlink path => .ok { path, mode := 0, present := true, uid := 0, gid := 0 }
  | _ => .error stub

def xor (o n : BilogFile) : BilogFile :=
  { path := o.path, mode := n.mode ^^^ o.mode, uid := o.uid ^^^ n.uid, gid := o.gid ^^^ n.gid,
    present := true }

/-- `O_CREAT | O_RDONLY`. -/
def createFlags : Int32 := 0o100

def apply (x o : BilogFile) : Except Fault VFSCall :=
  .ok (if o.present then .unlink x.path else .create x.path createFlags (.unix x.uid x.gid) x.mode)

def old (path : Path) (host : Host) (t : Tree) : Except Fault BilogFile := do
  match ← probe path host t with
  | none => return { path, mode := 0, present := false, uid := 0, gid := 0 }
  | some stbuf =>
    return { path, mode := stbuf.mode, present := true, uid := stbuf.uid, gid := stbuf.gid }

end BilogFile

/-- `File::open` and the whole contents, of which callers read a range. -/
def readFile (path : Path) (host : Host) (t : Tree) : Except Fault File :=
  lift (t.openFile (translatePath path host.fspath) >>= t.contents)

def readRange (file : File) (offset count : Nat) : Except Fault (List UInt8) :=
  match readExactAt file offset count with
  | .ok bytes => .ok bytes
  | .error error => .error (.io error)

structure BilogTruncate where
  path : Path
  size : Int64
  buf : List UInt8
  checksum : UInt32
  deriving DecidableEq, Repr

namespace BilogTruncate

def crc32 (buf : List UInt8) (size : Int64) : UInt32 := checksumIeee (hashSlice buf ++ hashI64 size)

def state (path : Path) (size : Int64) (buf : List UInt8) : BilogTruncate :=
  { path, size, buf, checksum := crc32 buf size }

def new : VFSCall → Except Fault BilogTruncate
  | .truncate path size => .ok (state path size [])
  | _ => .error stub

def xor (o n : BilogTruncate) : BilogTruncate :=
  { path := n.path, size := o.size ^^^ n.size, buf := o.buf, checksum := n.checksum ^^^ o.checksum }

def apply (x o : BilogTruncate) : Except Fault VFSCall :=
  let nsize := x.size ^^^ o.size
  if crc32 x.buf nsize ^^^ o.checksum ≠ x.checksum then .error mismatch
  else .ok (if o.size < nsize ∧ x.buf = [] then .write x.path o.size x.buf
    else .truncate x.path (x.size ^^^ o.size))

/-- Bytes are read when the file grows, from its end on. -/
def old (path : Path) (nsizeOf : Int64 → Int64) (host : Host) (t : Tree) : Except Fault BilogTruncate := do
  let stbuf ← lift (translateAndStat path host t)
  let osize := Int64.ofNat stbuf.kind.size
  let nsize := nsizeOf osize
  if osize < nsize then
    let file ← readFile path host t
    return state path osize (← readRange file osize.toUInt64.toNat (nsize - osize).toUInt64.toNat)
  else return state path osize []

end BilogTruncate

/-- `xor_buf`: the front of `new` changed by `old`, which must not be longer. -/
def xorBuf (new old : List UInt8) : Except Fault (List UInt8) :=
  if old.length ≤ new.length then .ok (xorBytes new old ++ new.drop old.length)
  else .error (.panic "assertion failed: new.len() >= old.len()")

structure BilogWrite where
  path : Path
  offset : Int64
  buf : List UInt8
  length : Int64
  checksum : UInt32
  deriving DecidableEq, Repr

namespace BilogWrite

def crc32 (buf : List UInt8) (length : Int64) : UInt32 := checksumIeee (hashSlice buf ++ hashI64 length)

def state (path : Path) (offset : Int64) (buf : List UInt8) (length : Int64) : BilogWrite :=
  { path, offset, buf, length, checksum := crc32 buf length }

/-- The length of the new state is not known here and recorded as zero. -/
def new : VFSCall → Except Fault BilogWrite
  | .write path offset buf => .ok (state path offset buf 0)
  | _ => .error stub

def xor (o n : BilogWrite) : Except Fault BilogWrite := do
  let buf ← xorBuf n.buf o.buf
  let written := n.offset + Int64.ofNat n.buf.length
  let nsize := if written < o.length then o.length else written
  return { path := n.path, offset := n.offset, buf, length := nsize ^^^ o.length,
           checksum := n.checksum ^^^ o.checksum }

/-- The bytes to write on the state `o`; for an appending write the entry holds them as they are. -/
def target (x o : BilogWrite) : Except Fault (List UInt8) :=
  if o.buf = [] then .ok x.buf else xorBuf x.buf o.buf

def apply (x o : BilogWrite) : Except Fault VFSCall := do
  let buf ← x.target o
  if crc32 buf (x.length ^^^ o.length) ^^^ o.checksum ≠ x.checksum then .error mismatch
  else if o.length ≤ x.length ^^^ o.length then .ok (.write x.path x.offset buf)
  else .ok (.truncatingWrite x.path x.offset buf (o.length ^^^ x.length))

def old (path : Path) (offset : Int64) (writeLen : Nat) (host : Host) (t : Tree) :
    Except Fault BilogWrite := do
  let file ← readFile path host t
  let start := offset.toUInt64.toNat
  let buf ← if start < file.length then readRange file start (min (file.length - start) writeLen) else .ok []
  return state path offset buf (Int64.ofNat file.length)

end BilogWrite

structure BilogXattr where
  path : Path
  name : Name
  value : Option (List UInt8)
  remove : Bool
  checksum : UInt32
  deriving DecidableEq, Repr

namespace BilogXattr

def crc32 (value : Option (List UInt8)) : UInt32 := checksumIeee (hashOption value)

def state (path : Path) (name : Name) (value : Option (List UInt8)) (remove : Bool) : BilogXattr :=
  { path, name, value, remove, checksum := crc32 value }

def new : VFSCall → Except Fault BilogXattr
  | .setxattr path name value _ => .ok (state path name (some value) false)
  | .removexattr path name => .ok (state path name none true)
  | _ => .error stub

/-- The value of the entry and whether one of the states lacks the attribute. -/
def xorValue (o n : Option (List UInt8)) : Except Fault (List UInt8 × Bool) :=
  match n, o with
  | none, some ovalue => .ok (ovalue, true)
  | none, none => .error (.panic "If new state removes the value, oldstate must have it")
  | some nvalue, none => .ok (nvalue, true)
  | some nvalue, some ovalue => do
    let buf ← if nvalue.length < ovalue.length then xorBuf ovalue nvalue else xorBuf nvalue ovalue
    return (buf, false)

def xor (o n : BilogXattr) : Except Fault BilogXattr := do
  let (value, remove) ← xorValue o.value n.value
  return { path := n.path, name := n.name, value := some value, checksum := n.checksum ^^^ o.checksum, remove }

/-- The entry's value changed byte by byte, each of which the current value must have. -/
def flip (value ovalue : List UInt8) : Except Fault (List UInt8) :=
  if value.length ≤ ovalue.length then .ok (xorBytes value ovalue)
  else .error (.panic "index out of bounds")

def apply (x o : BilogXattr) : Except Fault VFSCall :=
  match o.value, x.value with
  | some ovalue, xvalue =>
    if x.remove then .ok (.removexattr x.path x.name)
    else match xvalue with
      | none => .error (.panic "called `Option::unwrap()` on a `None` value")
      | some value => do
        let value ← flip value ovalue
        if crc32 (some value) ^^^ o.checksum ≠ x.checksum then .error mismatch
        else .ok (.setxattr x.path x.name value 0)
  | none, some value => .ok (.setxattr x.path x.name value 0)
  | none, none => .error (.panic "Old value is not set, xor state must have it")

/-- Attributes are read into a buffer of 4096 bytes. -/
def old (path : Path) (name : Name) (host : Host) (t : Tree) : Except Fault BilogXattr :=
  match t.lgetxattr (translatePath path host.fspath) name with
  | .ok value => if value.length ≤ 4096 then .ok (state path name (some value) false) else .error (.os .erange)
  | .error .enodata => .ok (state path name none true)
  | .error errno => .error (.os errno)

end BilogXattr

inductive BilogEntry where
  | chmod (x : BilogChmod)
  | chown (x : BilogChown)
  | utimens (x : BilogUtimens)
  | rename (x : BilogRename)
  | dir (x : BilogDir)
  | symlink (x : BilogSymlink)
  | link (x : BilogLink)
  | node (x : BilogNode)
  | file (x : BilogFile)
  | filestore (path : Path) (token : UInt64)
  | truncate (x : BilogTruncate)
  | write (x : BilogWrite)
  | xattr (x : BilogXattr)
  deriving DecidableEq, Repr

namespace BilogEntry

/-- The entry of an unlink depends on what is at the path. -/
def tryFromUnlink (path : Path) (host : Host) (t : Tree) : Except Fault BilogEntry := do
  let call := VFSCall.unlink path
  let stbuf ← lift (translateAndStat path host t)
  match stbuf.kind with
  | .lnk _ => return symlink (BilogSymlink.xor (← BilogSymlink.old path host t) (← BilogSymlink.new call))
  | .reg data =>
    if 1 < t.nlink (translatePath path host.fspath) then
      return link (BilogLink.xor (← BilogLink.old path host t) (← BilogLink.new call))
    else if data.length = 0 then
      return file (BilogFile.xor (← BilogFile.old path host t) (← BilogFile.new call))
    else return filestore path 0
  | .dir => .error (.panic "Unknown file type deleted")
  | _ => return node (BilogNode.xor (← BilogNode.old path host t) (← BilogNode.new call))

/-- `BilogEntry::try_from`: the entry of a call about to run on `t`. -/
def tryFrom (call : VFSCall) (host : Host) (t : Tree) : Except Fault BilogEntry :=
  match call with
  | .mknod path mode rdev (.unix uid gid) => .ok (node { path, mode, rdev, present := true, uid, gid })
  | .mkdir path (.unix uid gid) mode => .ok (dir { path, mode, uid, gid, dirExists := true })
  | .rmdir path => do
    return dir (BilogDir.xor (← BilogDir.old path host t) (← BilogDir.new call))
  | .unlink path => tryFromUnlink path host t
  | .symlink source dest (.unix uid gid) => .ok (symlink { source, dest, uid, gid, toExists := true })
  | .rename source dest _ => .ok (rename { source, dest, fromExists := true })
  | .link source dest (.unix uid gid) => .ok (link { source, dest, toExists := true, uid, gid })
  | .chmod path _ => do
    return chmod (BilogChmod.xor (← BilogChmod.old path host t) (← BilogChmod.new call))
  | .security path _ => do
    let n ← BilogChown.new call
    return chown (BilogChown.xor (← BilogChown.old path host t) n)
  | .truncate path size => do
    let n ← BilogTruncate.new call
    return truncate (BilogTruncate.xor (← BilogTruncate.old path (fun _ => size) host t) n)
  | .write path offset buf => do
    let n ← BilogWrite.new call
    return write (← BilogWrite.xor (← BilogWrite.old path offset buf.length host t) n)
  | .setxattr path name .. | .removexattr path name => do
    let n ← BilogXattr.new call
    return xattr (← BilogXattr.xor (← BilogXattr.old path name host t) n)
  | .create path _ (.unix uid gid) mode => .ok (file { path, mode, present := false, uid, gid })
  | .utimens path _ => do
    return utimens (BilogUtimens.xor (← BilogUtimens.old path host t) (← BilogUtimens.new call))
  | .truncatingWrite .. => .error (.panic "Not a fuse syscall")
  | .fsync .. => .error (.panic "Not an IO call")
  | _ => .error (.panic "Not implemented")

/-- The name of a deleted file in the file store. -/
def storeName (token : UInt64) : Path :=
  [".fsyncer-deleted".toUTF8.toList, (toString token.toNat).toUTF8.toList]

/-- `FileStore::recover`: the kept file is linked back, with its owner. -/
def recover (path : Path) (token : UInt64) (host : Host) (t : Tree) : Except Fault VFSCall := do
  let stbuf ← lift (translateAndStat (storeName token) host t)
  return .link (storeName token) path (.unix stbuf.uid stbuf.gid)

/-- `BilogEntry::apply`: the call that leads from the state met to the other one. -/
def apply (entry : BilogEntry) (host : Host) (t : Tree) : Except Fault VFSCall :=
  match entry with
  | chmod x => do x.apply (← BilogChmod.old x.path host t)
  | chown x => do x.apply (← BilogChown.old x.path host t)
  | utimens x => do x.apply (← BilogUtimens.old x.path host t)
  | rename x => do x.apply (← x.old)
  | dir x => do x.apply (← BilogDir.old x.path host t)
  | symlink x => do x.apply (← BilogSymlink.old x.dest host t)
  | link x => do x.apply (← BilogLink.old x.dest host t)
  | node x => do x.apply (← BilogNode.old x.path host t)
  | file x => do x.apply (← BilogFile.old x.path host t)
  | truncate x => do x.apply (← BilogTruncate.old x.path (x.size ^^^ ·) host t)
  | write x => do x.apply (← BilogWrite.old x.path x.offset x.buf.length host t)
  | xattr x => do x.apply (← BilogXattr.old x.path x.name host t)
  | filestore path token => do
    match ← probe path host t with
    | none => recover path token host t
    | some _ => return .unlink path

end BilogEntry

end Fsyncer.Bilog
