import Fsyncer.Base.Interaction
import Fsyncer.Vfs

/-! The system calls behind a dispatched call, in the order in which they are
made, and what the return value says about them. The kernel may fail each of
them at any time; that it is asked for a tree of files is one case. -/
namespace Fsyncer.DispatchSigns
open Fsyncer.FileTree Fsyncer.Interaction Fsyncer.Vfs

inductive SysCall where
  | mkfifo (path : Path) (mode : UInt32)
  | mknod (path : Path) (mode : UInt32) (rdev : UInt64)
  | mkdir (path : Path) (mode : UInt32)
  | unlink (path : Path)
  | rmdir (path : Path)
  | symlink (target : List UInt8) (path : Path)
  | renameat2 (source dest : Path) (flags : UInt32)
  | link (source dest : Path)
  | chmod (path : Path) (mode : UInt32)
  | chown (path : Path) (uid gid : UInt32)
  | lchown (path : Path) (uid gid : UInt32)
  | fchown (fd : ℕ) (uid gid : UInt32)
  | truncate64 (path : Path) (size : Int64)
  | ftruncate (fd : ℕ) (size : Int64)
  -- the `open` of `OpenOptions`, which starts again when it is interrupted
  | openOptions (path : Path)
  | openMode (path : Path) (flags : Int32) (mode : UInt32)
  | pwrite (fd : ℕ) (buf : List UInt8) (offset : Int64)
  | fallocate (fd : ℕ) (mode : Int32) (offset length : Int64)
  | fsync (fd : ℕ)
  | fdatasync (fd : ℕ)
  | lsetxattr (path : Path) (name : Name) (value : List UInt8) (flags : Int32)
  | lremovexattr (path : Path) (name : Name)
  | utimensat (path : Path) (atime mtime : Clock)
  | close (fd : ℕ)

/-- A system call returns a number, or fails and sets `errno`. -/
abbrev Answer := Except Int ℕ

abbrev Calls := Program SysCall Answer Int

/-- `if call == -1 { return neg_errno(); }` -/
def orErrno (call : SysCall) (next : ℕ → Calls) : Calls :=
  .ask call fun
    | .ok value => next value
    | .error errno => .ret (-errno)

def xmpChown (path : Path) (uid gid : UInt32) : Calls := orErrno (.chown path uid gid) fun _ => .ret 0

def xmpMknod (path : Path) (mode : UInt32) (rdev : UInt64) (uid gid : UInt32) : Calls :=
  orErrno (if mode &&& sIfifo = sIfifo then .mkfifo path mode else .mknod path mode rdev) fun _ =>
    xmpChown path uid gid

def xmpMkdir (path : Path) (mode : UInt32) (uid gid : UInt32) : Calls :=
  orErrno (.mkdir path mode) fun _ => xmpChown path uid gid

def xmpUnlink (path : Path) : Calls := orErrno (.unlink path) fun _ => .ret 0

def xmpRmdir (path : Path) : Calls := orErrno (.rmdir path) fun _ => .ret 0

def xmpSymlink (source : List UInt8) (dest : Path) (uid gid : UInt32) : Calls :=
  orErrno (.symlink source dest) fun _ => orErrno (.lchown dest uid gid) fun _ => .ret 0

/-- `-syscall(..)`: the `-1` of a failure is negated too. -/
def xmpRename (source dest : Path) (flags : UInt32) : Calls :=
  .ask (.renameat2 source dest flags) fun
    | .ok value => .ret (-value)
    | .error _ => .ret (-(-1))

def xmpLink (source dest : Path) (uid gid : UInt32) : Calls :=
  orErrno (.link source dest) fun _ => xmpChown dest uid gid

def xmpChmod (path : Path) (mode : UInt32) : Calls := orErrno (.chmod path mode) fun _ => .ret 0

def xmpTruncate (pathOrFd : Path ⊕ ℕ) (size : Int64) : Calls :=
  orErrno (pathOrFd.elim (.truncate64 · size) (.ftruncate · size)) fun _ => .ret 0

def xmpWrite (buf : List UInt8) (offset : Int64) (fd : ℕ) : Calls :=
  orErrno (.pwrite fd buf offset) fun count => .ret (Int32.ofNat count).toInt

def xmpFallocate (mode : Int32) (offset length : Int64) (fd : ℕ) : Calls :=
  orErrno (.fallocate fd mode offset length) fun _ => .ret 0

def xmpSetxattr (path : Path) (name : Name) (value : List UInt8) (flags : Int32) : Calls :=
  orErrno (.lsetxattr path name value flags) fun _ => .ret 0

def xmpRemovexattr (path : Path) (name : Name) : Calls := orErrno (.lremovexattr path name) fun _ => .ret 0

def xmpUtimens (path : Path) (atime mtime : Clock) : Calls := orErrno (.utimensat path atime mtime) fun _ => .ret 0

def xmpFsync (isdatasync : Int32) (fd : ℕ) : Calls :=
  orErrno (if isdatasync ≠ 0 then .fdatasync fd else .fsync fd) fun _ => .ret 0

/-- The result is returned whether or not the descriptor could be closed. -/
def closing (fd : ℕ) (result : Int) : Calls := .ask (.close fd) fun _ => .ret result

/-- `xmp_create`, and the `close` that follows if there is a descriptor. -/
def xmpCreate (path : Path) (mode : UInt32) (flags : Int32) (uid gid : UInt32) : Calls :=
  orErrno (.openMode path flags mode) fun fd =>
    (orErrno (.fchown fd uid gid) fun _ => .ret 0).bind (closing fd)

/-- `with_file`, with the bare error number for a file that cannot be opened. -/
def withFile (path : Path) (f : ℕ → Calls) : Calls :=
  .ask (.openOptions path) fun
    | .ok fd => (f fd).bind (closing fd)
    | .error errno => .ret errno

/-- The calls made for a call of the file system; none where the client panics. -/
def dispatch (root : Path) : VFSCall → Option Calls
  | .mknod path mode rdev (.unix uid gid) => some (xmpMknod (translatePath path root) mode rdev uid gid)
  | .mkdir path (.unix uid gid) mode => some (xmpMkdir (translatePath path root) mode uid gid)
  | .unlink path => some (xmpUnlink (translatePath path root))
  | .rmdir path => some (xmpRmdir (translatePath path root))
  | .symlink source dest (.unix uid gid) => some (xmpSymlink source (translatePath dest root) uid gid)
  | .rename source dest flags => some (xmpRename (translatePath source root) (translatePath dest root) flags)
  | .link source dest (.unix uid gid) =>
    some (xmpLink (translatePath source root) (translatePath dest root) uid gid)
  | .chmod path mode => some (xmpChmod (translatePath path root) mode)
  | .security path (.unix uid gid) => some (xmpChown (translatePath path root) uid gid)
  | .truncate path size => some (xmpTruncate (.inl (translatePath path root)) size)
  | .write path offset buf => some (withFile (translatePath path root) (xmpWrite buf offset))
  | .truncatingWrite path offset buf length =>
    some (withFile (translatePath path root) fun fd =>
      (xmpWrite buf offset fd).bind fun res =>
        if res < 0 then .ret res
        else (xmpTruncate (.inr fd) length).bind fun tres => if tres < 0 then .ret tres else .ret res)
  | .fallocate path mode offset length =>
    some (withFile (translatePath path root) (xmpFallocate mode offset length))
  | .setxattr path name value flags => some (xmpSetxattr (translatePath path root) name value flags)
  | .removexattr path name => some (xmpRemovexattr (translatePath path root) name)
  | .create path flags (.unix uid gid) mode => some (xmpCreate (translatePath path root) mode flags uid gid)
  | .utimens path (atime, mtime, _) => some (xmpUtimens (translatePath path root) atime.clock mtime.clock)
  | .fsync path isdatasync => some (withFile (translatePath path root) (xmpFsync isdatasync))
  | _ => none

/-- What the kernel may answer: error numbers are positive, and a write takes a
part of the buffer that a C integer can count. -/
def Possible (call : SysCall) : Answer → Prop
  | .error errno => 0 < errno ∧ errno < 4096
  | .ok value =>
    match call with
    | .pwrite _ buf _ => value ≤ buf.length ∧ value ≤ 0x7FFFF000
    | .openOptions _ | .openMode _ _ _ => value < 2 ^ 31
    | _ => value = 0

def Fails (event : SysCall × Answer) : Prop := ∃ errno, event.2 = .error errno

/-- The calls whose failure the return value does not tell. -/
def Silent : SysCall → Bool
  | .renameat2 .. | .openOptions _ | .close _ => true
  | _ => false

/-- A failure that the return value tells. -/
def Told (event : SysCall × Answer) : Prop := Fails event ∧ Silent event.1 = false

/-- The return value is negative when a failure is told. -/
def Signed (program : Calls) : Prop := Reports Possible Told (· < 0) program

theorem signed_ret (nonneg : 0 ≤ value) : Signed (.ret value) := reports_ret (not_lt.mpr nonneg)

theorem signed_orErrno (loud : Silent call = false) (rest : ∀ value, Possible call (.ok value) → Signed (next value)) :
    Signed (orErrno call next) := by
  refine reports_ask (fun answer possible told trace value runs => ?_) fun answer possible fine => ?_
  · obtain ⟨errno, failed⟩ := told.1
    cases failed
    obtain ⟨-, rfl⟩ := runs_ret.mp runs
    have positive := possible.1
    omega
  · cases answer with
    | ok value => exact rest value possible
    | error errno => exact absurd ⟨⟨errno, rfl⟩, loud⟩ fine

/-- A call that returns zero if nothing fails. -/
theorem signed_status (loud : Silent call = false) : Signed (orErrno call fun _ => .ret 0) :=
  signed_orErrno loud fun _ _ => signed_ret (le_refl _)

theorem runs_closing (runs : Runs Possible (closing fd result) trace value) : value = result := by
  obtain ⟨answer, rest, -, ended, -⟩ := runs_ask.mp runs
  exact (runs_ret.mp ended).2

/-- A descriptor that cannot be closed changes nothing. -/
theorem signed_closing (signed : Signed p) : Signed (p.bind (closing fd)) := by
  refine reports_bind signed (fun value negative trace last runs => ?_) fun value nonneg => ?_
  · rw [runs_closing runs]
    exact negative
  · refine reports_ask (fun answer _ told => ?_) fun answer _ _ => signed_ret (not_lt.mp nonneg)
    cases told.2

theorem signed_withFile (signed : ∀ fd, Signed (f fd)) : Signed (withFile path f) := by
  refine reports_ask (fun answer _ told => ?_) fun answer possible _ => ?_
  · cases told.2
  · cases answer with
    | ok fd => exact signed_closing (signed fd)
    | error errno => exact signed_ret possible.1.le

theorem signed_xmpChown (path : Path) (uid gid : UInt32) : Signed (xmpChown path uid gid) := signed_status rfl

/-- What a write counts fits a C integer. -/
theorem signed_xmpWrite (buf : List UInt8) (offset : Int64) (fd : ℕ) : Signed (xmpWrite buf offset fd) := by
  refine signed_orErrno rfl fun count possible => signed_ret ?_
  have small : count ≤ 0x7FFFF000 := possible.2
  rw [Int32.toInt_ofNat_of_lt (by omega)]
  exact Int.natCast_nonneg count

theorem signed_truncatingWrite (buf : List UInt8) (offset length : Int64) (fd : ℕ) :
    Signed ((xmpWrite buf offset fd).bind fun res =>
      if res < 0 then .ret res
      else (xmpTruncate (.inr fd) length).bind fun tres => if tres < 0 then .ret tres else .ret res) := by
  refine reports_bind (signed_xmpWrite buf offset fd) (fun res negative trace value runs => ?_) fun res nonneg => ?_
  · rw [if_pos negative] at runs
    rw [(runs_ret.mp runs).2]
    exact negative
  · rw [if_neg nonneg]
    refine reports_bind (signed_status rfl) (fun tres negative trace value runs => ?_) fun tres fine => ?_
    · rw [if_pos negative] at runs
      rw [(runs_ret.mp runs).2]
      exact negative
    · rw [if_neg fine]
      exact signed_ret (not_lt.mp nonneg)

theorem signed_xmpRename (source dest : Path) (flags : UInt32) : Signed (xmpRename source dest flags) := by
  refine reports_ask (fun answer _ told => ?_) fun answer possible _ => ?_
  · cases told.2
  · cases answer with
    | ok value =>
      have zero : value = 0 := possible
      exact signed_ret (by omega)
    | error errno => exact signed_ret (by decide)

/-- Whatever is dispatched, the sign tells the failures that are not silent. -/
theorem signed_dispatch (root : Path) (call : VFSCall) (handled : dispatch root call = some program) :
    Signed program := by
  cases call <;> try cases handled
  case mknod path mode rdev security =>
    cases security <;> cases handled
    refine signed_orErrno ?_ fun _ _ => signed_xmpChown _ _ _
    split <;> rfl
  case mkdir path security mode =>
    cases security <;> cases handled
    exact signed_orErrno rfl fun _ _ => signed_xmpChown _ _ _
  case symlink source dest security =>
    cases security <;> cases handled
    exact signed_orErrno rfl fun _ _ => signed_status rfl
  case link source dest security =>
    cases security <;> cases handled
    exact signed_orErrno rfl fun _ _ => signed_xmpChown _ _ _
  case create path flags security mode =>
    cases security <;> cases handled
    exact signed_orErrno rfl fun fd _ => signed_closing (signed_status rfl)
  case security path security =>
    cases security <;> cases handled
    exact signed_xmpChown _ _ _
  case rename => exact signed_xmpRename _ _ _
  case write => exact signed_withFile (signed_xmpWrite _ _)
  case truncatingWrite => exact signed_withFile (signed_truncatingWrite _ _ _)
  case fallocate => exact signed_withFile fun _ => signed_status rfl
  case fsync => exact signed_withFile fun _ => signed_status (by split <;> rfl)
  all_goals exact signed_status rfl

/-- The sign of the return value tells whether a system call failed, unless the
only failures are of calls whose failure it does not tell. -/
theorem dispatch_sign_iff (root : Path) (call : VFSCall) (program : Calls) (trace : List (SysCall × Answer))
    (value : Int) (handled : dispatch root call = some program) (runs : Runs Possible program trace value) :
    (value < 0 ↔ ∃ event ∈ trace, Fails event) ↔
      ¬ ((∃ event ∈ trace, Fails event) ∧ ∀ event ∈ trace, Fails event → Silent event.1 = true) := by
  have told : value < 0 ↔ ∃ event ∈ trace, Told event := signed_dispatch root call handled trace value runs
  by_cases failed : ∃ event ∈ trace, Fails event
  · rw [told, iff_true_right failed, and_iff_right failed]
    constructor
    · rintro ⟨event, listed, fails, loud⟩ silent
      rw [silent event listed fails] at loud
      cases loud
    · intro loud
      push Not at loud
      obtain ⟨event, listed, fails, not_silent⟩ := loud
      exact ⟨event, listed, fails, Bool.eq_false_iff.mpr not_silent⟩
  · have none : ¬ value < 0 := by
      rw [told]
      rintro ⟨event, listed, fails, -⟩
      exact failed ⟨event, listed, fails⟩
    exact iff_of_true (iff_of_false none failed) fun both => failed both.1

/-- A rename that fails returns one, a file that cannot be opened its error number. -/
theorem failures_not_told :
    (∃ program trace, dispatch [] (.rename [[1]] [[2]] 0) = some program ∧ Runs Possible program trace 1 ∧
      ∃ event ∈ trace, Fails event) ∧
    ∃ program trace, dispatch [] (.write [[1]] 0 [7]) = some program ∧ Runs Possible program trace 2 ∧
      ∃ event ∈ trace, Fails event :=
  ⟨⟨_, [(.renameat2 [[1]] [[2]] 0, .error 2)], rfl, .ask (by decide : (0 : Int) < 2 ∧ (2 : Int) < 4096) .ret,
      _, List.mem_singleton_self _, _, rfl⟩,
    _, [(.openOptions [[1]], .error 2)], rfl, .ask (by decide : (0 : Int) < 2 ∧ (2 : Int) < 4096) .ret,
      _, List.mem_singleton_self _, _, rfl⟩

theorem failed_unlink_told : ∃ program trace, dispatch [] (.unlink [[1]]) = some program ∧
    Runs Possible program trace (-2) ∧ ((-2 : Int) < 0 ↔ ∃ event ∈ trace, Fails event) := by
  have runs : Runs Possible (xmpUnlink [[1]]) [(.unlink [[1]], .error 2)] (-2) :=
    .ask (by decide : (0 : Int) < 2 ∧ (2 : Int) < 4096) .ret
  refine ⟨_, _, rfl, runs, (dispatch_sign_iff [] (.unlink [[1]]) _ _ _ rfl runs).mpr ?_⟩
  rintro ⟨⟨event, listed, fails⟩, silent⟩
  have told := silent event listed fails
  rw [List.mem_singleton.mp listed] at told
  cases told

/-! On a tree of files -/

/-- A change of the tree, as a system call answers it. -/
def answered (t : Tree) : Except Errno Tree → Answer × Tree
  | .ok after => (.ok 0, after)
  | .error errno => (.error errno.code, t)

/-- The kernel over a tree of files; writes are whole, and nothing else fails. -/
def system (process : Process) (t : Tree) : SysCall → Answer × Tree
  | .mkfifo path mode => answered t (t.mkfifo process path mode)
  | .mknod path mode rdev => answered t (t.mknod process path mode rdev)
  | .mkdir path mode => answered t (t.mkdir process path mode)
  | .unlink path => answered t (t.unlink path)
  | .rmdir path => answered t (t.rmdir path)
  | .symlink target path => answered t (t.symlink process target path)
  | .renameat2 source dest flags => answered t (t.rename source dest flags)
  | .link source dest => answered t (t.link source dest)
  | .chmod path mode => answered t (t.chmod path mode)
  | .chown path uid gid => answered t (t.chown path uid gid)
  | .lchown path uid gid => answered t (t.lchown path uid gid)
  | .fchown fd uid gid => (.ok 0, t.fchown fd uid gid)
  | .truncate64 path size => answered t (t.truncate path size.toInt)
  | .ftruncate fd size => answered t (t.ftruncate fd size.toInt)
  | .openOptions path =>
    match t.openFile path with
    | .ok fd => (.ok fd, t)
    | .error errno => (.error errno.code, t)
  | .openMode path flags mode =>
    match t.openMode process path flags.toUInt32 mode with
    | .ok (fd, after) => (.ok fd, after)
    | .error errno => (.error errno.code, t)
  | .pwrite fd buf offset =>
    match t.pwrite fd buf offset.toInt with
    | .ok after => (.ok buf.length, after)
    | .error errno => (.error errno.code, t)
  | .fallocate fd mode offset length => answered t (t.fallocate fd mode.toInt offset.toInt length.toInt)
  | .fsync _ | .fdatasync _ | .close _ => (.ok 0, t)
  | .lsetxattr path name value flags => answered t (t.lsetxattr path name value flags.toInt)
  | .lremovexattr path name => answered t (t.lremovexattr path name)
  | .utimensat path atime mtime => answered t (t.utimens process path atime mtime)

section
variable {process : Process} {t : Tree}

/-- A checked call, by what the tree answers. -/
theorem interpret_orErrno (answers : system process t call = answered t result) (next : ℕ → Calls) :
    (orErrno call next).interpret (system process) t =
      sequel t result fun after => (next 0).interpret (system process) after := by
  rw [orErrno, Program.interpret, answers]
  cases result <;> rfl

theorem interpret_status (answers : system process t call = answered t result) :
    (orErrno call fun _ => .ret 0).interpret (system process) t = status t result :=
  interpret_orErrno answers _

theorem interpret_closing (p : Calls) (fd : ℕ) :
    (p.bind (closing fd)).interpret (system process) t = p.interpret (system process) t := by
  rw [Program.interpret_bind]
  rfl

theorem interpret_xmpChown (path : Path) (uid gid : UInt32) :
    (xmpChown path uid gid).interpret (system process) t = Vfs.xmpChown t path uid gid := interpret_status rfl

theorem interpret_xmpWrite (buf : List UInt8) (offset : Int64) (fd : ℕ) :
    (xmpWrite buf offset fd).interpret (system process) t = Vfs.xmpWrite t fd buf offset := by
  rw [xmpWrite, orErrno, Program.interpret, Vfs.xmpWrite, system]
  cases t.pwrite fd buf offset.toInt <;> rfl

theorem interpret_withFile (path : Path) (f : ℕ → Calls) :
    (withFile path f).interpret (system process) t =
      Vfs.withFile t path fun fd => (f fd).interpret (system process) t := by
  rw [withFile, Program.interpret, Vfs.withFile, system]
  cases t.openFile path with
  | ok fd => exact interpret_closing (f fd) fd
  | error errno => rfl

theorem interpret_xmpRename (source dest : Path) (flags : UInt32) :
    (xmpRename source dest flags).interpret (system process) t = Vfs.xmpRename t source dest flags := by
  rw [xmpRename, Program.interpret, Vfs.xmpRename, system]
  cases t.rename source dest flags <;> rfl

theorem interpret_xmpCreate (path : Path) (mode : UInt32) (flags : Int32) (uid gid : UInt32) :
    (xmpCreate path mode flags uid gid).interpret (system process) t =
      Vfs.xmpCreate process t path mode flags uid gid := by
  rw [xmpCreate, orErrno, Program.interpret, Vfs.xmpCreate, system]
  cases t.openMode process path flags.toUInt32 mode with
  | ok opened =>
    obtain ⟨fd, after⟩ := opened
    exact interpret_closing _ fd
  | error errno => rfl

theorem interpret_truncatingWrite (buf : List UInt8) (offset length : Int64) (fd : ℕ) :
    Program.interpret (system process) ((xmpWrite buf offset fd).bind fun res =>
      if res < 0 then .ret res
      else (xmpTruncate (.inr fd) length).bind fun tres => if tres < 0 then .ret tres else .ret res) t =
    (let (res, written) := Vfs.xmpWrite t fd buf offset
    if res < 0 then (res, written)
    else sequel written (written.ftruncate fd length.toInt) fun after => (res, after)) := by
  rw [Program.interpret_bind, interpret_xmpWrite]
  obtain ⟨res, written⟩ := Vfs.xmpWrite t fd buf offset
  show Program.interpret _ (if res < 0 then _ else _) written = if res < 0 then _ else _
  split
  · rfl
  · have truncated : (xmpTruncate (.inr fd) length).interpret (system process) written = status written _ :=
      interpret_status rfl
    rw [Program.interpret_bind, truncated]
    cases written.ftruncate fd length.toInt with
    | ok after => rfl
    | error errno =>
      have negative : -errno.code < 0 := by cases errno <;> decide
      show Program.interpret _ (if -errno.code < 0 then _ else _) written = _
      rw [if_pos negative]
      rfl

/-- On a tree of files the system calls do what `dispatch` does. -/
theorem interpret_dispatch (process : Process) (root : Path) (t : Tree) (call : VFSCall) :
    (dispatch root call).map (fun program => program.interpret (system process) t) =
      Vfs.dispatch process root t call := by
  cases call
  case mknod path mode rdev security =>
    cases security <;> try rfl
    refine congrArg some ?_
    rw [xmpMknod, Vfs.xmpMknod]
    split
    · exact (interpret_orErrno rfl _).trans (congrArg _ (funext fun _ => interpret_xmpChown _ _ _))
    · exact (interpret_orErrno rfl _).trans (congrArg _ (funext fun _ => interpret_xmpChown _ _ _))
  case mkdir path security mode =>
    cases security <;> try rfl
    exact congrArg some ((interpret_orErrno rfl _).trans (congrArg _ (funext fun _ => interpret_xmpChown _ _ _)))
  case symlink source dest security =>
    cases security <;> try rfl
    exact congrArg some ((interpret_orErrno rfl _).trans (congrArg _ (funext fun _ => interpret_status rfl)))
  case link source dest security =>
    cases security <;> try rfl
    exact congrArg some ((interpret_orErrno rfl _).trans (congrArg _ (funext fun _ => interpret_xmpChown _ _ _)))
  case create path flags security mode =>
    cases security <;> try rfl
    exact congrArg some (interpret_xmpCreate _ _ _ _ _)
  case security path security =>
    cases security <;> try rfl
    exact congrArg some (interpret_xmpChown _ _ _)
  case rename => exact congrArg some (interpret_xmpRename _ _ _)
  case write =>
    exact congrArg some ((interpret_withFile _ _).trans (congrArg _ (funext fun _ => interpret_xmpWrite _ _ _)))
  case truncatingWrite =>
    exact congrArg some ((interpret_withFile _ _).trans
      (congrArg _ (funext fun _ => interpret_truncatingWrite _ _ _ _)))
  case fallocate =>
    exact congrArg some ((interpret_withFile _ _).trans (congrArg _ (funext fun _ => interpret_status rfl)))
  case fsync path isdatasync =>
    refine congrArg some ((interpret_withFile _ _).trans (congrArg _ (funext fun fd => ?_)))
    rw [xmpFsync]
    split <;> rfl
  case utimens path timespec => exact congrArg some (interpret_status rfl)
  case diffWrite => rfl
  all_goals exact congrArg some (interpret_status rfl)

end

end Fsyncer.DispatchSigns
