import Fsyncer.Base.FileTree

/-! The file system calls that servers, journals and snapshots hand around, and
how a Unix client executes them. Files are written whole, never in part. -/
namespace Fsyncer.Vfs
open FileTree

structure Timespec where
  high : Int64
  low : Int64
  deriving DecidableEq, Repr

instance : XorOp Timespec where
  xor left right := ⟨left.high ^^^ right.high, left.low ^^^ right.low⟩

def Timespec.clock (spec : Timespec) : Clock := ⟨spec.high, spec.low⟩

inductive FileSecurity where
  | windows (strDesc : String) (info : Option UInt32)
  | unix (uid gid : UInt32)
  | portable (owner group : Option String)
  deriving DecidableEq, Repr

inductive VFSCall where
  | mknod (path : Path) (mode : UInt32) (rdev : UInt64) (security : FileSecurity)
  | mkdir (path : Path) (security : FileSecurity) (mode : UInt32)
  | unlink (path : Path)
  | rmdir (path : Path)
  | symlink (source : List UInt8) (dest : Path) (security : FileSecurity)
  | rename (source dest : Path) (flags : UInt32)
  | link (source dest : Path) (security : FileSecurity)
  | chmod (path : Path) (mode : UInt32)
  | truncate (path : Path) (size : Int64)
  | write (path : Path) (offset : Int64) (buf : List UInt8)
  | diffWrite (path : Path) (offset : Int64) (buf : List UInt8)
  | fallocate (path : Path) (mode : Int32) (offset length : Int64)
  | setxattr (path : Path) (name : Name) (value : List UInt8) (flags : Int32)
  | removexattr (path : Path) (name : Name)
  | create (path : Path) (flags : Int32) (security : FileSecurity) (mode : UInt32)
  | utimens (path : Path) (timespec : Timespec × Timespec × Timespec)
  | fsync (path : Path) (isdatasync : Int32)
  | truncatingWrite (path : Path) (offset : Int64) (buf : List UInt8) (length : Int64)
  | security (path : Path) (security : FileSecurity)
  deriving DecidableEq, Repr

/-- The path below the backing store; a leading slash is dropped. -/
def translatePath (path root : Path) : Path := root ++ path

/-- The ranges of the bytes that have to follow a leading byte in UTF-8. -/
def continuations (lead : UInt8) : Option (List (UInt8 × UInt8)) :=
  if lead < 0x80 then some []
  else if lead < 0xC2 then none
  else if lead < 0xE0 then some [(0x80, 0xBF)]
  else if lead = 0xE0 then some [(0xA0, 0xBF), (0x80, 0xBF)]
  else if lead = 0xED then some [(0x80, 0x9F), (0x80, 0xBF)]
  else if lead < 0xF0 then some [(0x80, 0xBF), (0x80, 0xBF)]
  else if lead = 0xF0 then some [(0x90, 0xBF), (0x80, 0xBF), (0x80, 0xBF)]
  else if lead < 0xF4 then some [(0x80, 0xBF), (0x80, 0xBF), (0x80, 0xBF)]
  else if lead = 0xF4 then some [(0x80, 0x8F), (0x80, 0xBF), (0x80, 0xBF)]
  else none

/-- `bytes` complete the `pending` character and go on as UTF-8. -/
def continuesUtf8 : List (UInt8 × UInt8) → List UInt8 → Bool
  | pending, [] => pending.isEmpty
  | [], lead :: rest =>
    match continuations lead with
    | some pending => continuesUtf8 pending rest
    | none => false
  | (low, high) :: pending, byte :: rest => low ≤ byte && byte ≤ high && continuesUtf8 pending rest

/-- The bytes of an absolute path. -/
def pathBytes (path : Path) : List UInt8 := path.flatMap fun name => 0x2F :: name

/-- Whether `Path::to_str` has an answer. -/
def isStr (path : Path) : Bool := continuesUtf8 [] (pathBytes path)

/-- A negated error number, or the effect of the rest. -/
def sequel (t : Tree) (first : Except Errno Tree) (next : Tree → Int × Tree) : Int × Tree :=
  match first with
  | .ok after => next after
  | .error errno => (-errno.code, t)

/-- Zero, or a negated error number with nothing changed. -/
def status (t : Tree) (result : Except Errno Tree) : Int × Tree := sequel t result fun after => (0, after)

def sIfifo : UInt32 := 0o010000

def xmpChown (t : Tree) (path : Path) (uid gid : UInt32) : Int × Tree := status t (t.chown path uid gid)

def xmpMknod (process : Process) (t : Tree) (path : Path) (mode : UInt32) (rdev : UInt64) (uid gid : UInt32) :
    Int × Tree :=
  let made := if mode &&& sIfifo = sIfifo then t.mkfifo process path mode else t.mknod process path mode rdev
  sequel t made fun after => xmpChown after path uid gid

def xmpMkdir (process : Process) (t : Tree) (path : Path) (mode : UInt32) (uid gid : UInt32) : Int × Tree :=
  sequel t (t.mkdir process path mode) fun after => xmpChown after path uid gid

def xmpSymlink (process : Process) (t : Tree) (source : List UInt8) (dest : Path) (uid gid : UInt32) :
    Int × Tree :=
  sequel t (t.symlink process source dest) fun after => status after (after.lchown dest uid gid)

/-- The system call's result is negated: a failure becomes one. -/
def xmpRename (t : Tree) (source dest : Path) (flags : UInt32) : Int × Tree :=
  match t.rename source dest flags with
  | .ok after => (0, after)
  | .error _ => (1, t)

def xmpLink (t : Tree) (source dest : Path) (uid gid : UInt32) : Int × Tree :=
  sequel t (t.link source dest) fun after => xmpChown after dest uid gid

def xmpCreate (process : Process) (t : Tree) (path : Path) (mode : UInt32) (flags : Int32) (uid gid : UInt32) :
    Int × Tree :=
  match t.openMode process path flags.toUInt32 mode with
  | .ok (fd, after) => (0, after.fchown fd uid gid)
  | .error errno => (-errno.code, t)

/-- The number of bytes, as the C integer it is returned in. -/
def xmpWrite (t : Tree) (fd : Nat) (buf : List UInt8) (offset : Int64) : Int × Tree :=
  match t.pwrite fd buf offset.toInt with
  | .ok after => ((Int32.ofNat buf.length).toInt, after)
  | .error errno => (-errno.code, t)

/-- `with_file`: an error on opening is returned as the bare error number. -/
def withFile (t : Tree) (path : Path) (f : Nat → Int × Tree) : Int × Tree :=
  match t.openFile path with
  | .ok fd => f fd
  | .error errno => (errno.code, t)

/-- The return value and the tree left; `none` where the client panics. -/
def dispatch (process : Process) (root : Path) (t : Tree) : VFSCall → Option (Int × Tree)
  | .mknod path mode rdev (.unix uid gid) =>
    some (xmpMknod process t (translatePath path root) mode rdev uid gid)
  | .mkdir path (.unix uid gid) mode => some (xmpMkdir process t (translatePath path root) mode uid gid)
  | .unlink path => some (status t (t.unlink (translatePath path root)))
  | .rmdir path => some (status t (t.rmdir (translatePath path root)))
  | .symlink source dest (.unix uid gid) => some (xmpSymlink process t source (translatePath dest root) uid gid)
  | .rename source dest flags => some (xmpRename t (translatePath source root) (translatePath dest root) flags)
  | .link source dest (.unix uid gid) =>
    some (xmpLink t (translatePath source root) (translatePath dest root) uid gid)
  | .chmod path mode => some (status t (t.chmod (translatePath path root) mode))
  | .security path (.unix uid gid) => some (xmpChown t (translatePath path root) uid gid)
  | .truncate path size => some (status t (t.truncate (translatePath path root) size.toInt))
  | .write path offset buf =>
    some (withFile t (translatePath path root) fun fd => xmpWrite t fd buf offset)
  | .truncatingWrite path offset buf length =>
    some (withFile t (translatePath path root) fun fd =>
      let (res, written) := xmpWrite t fd buf offset
      if res < 0 then (res, written)
      else sequel written (written.ftruncate fd length.toInt) fun after => (res, after))
  | .fallocate path mode offset length =>
    some (withFile t (translatePath path root) fun fd =>
      status t (t.fallocate fd mode.toInt offset.toInt length.toInt))
  | .setxattr path name value flags =>
    some (status t (t.lsetxattr (translatePath path root) name value flags.toInt))
  | .removexattr path name => some (status t (t.lremovexattr (translatePath path root) name))
  | .create path flags (.unix uid gid) mode =>
    some (xmpCreate process t (translatePath path root) mode flags uid gid)
  | .utimens path (atime, mtime, _) =>
    some (status t (t.utimens process (translatePath path root) atime.clock mtime.clock))
  | .fsync path _ => some (withFile t (translatePath path root) fun _ => (0, t))
  | _ => none

end Fsyncer.Vfs
