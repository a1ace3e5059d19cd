import Fsyncer.FuseLl

/-! How attributes are set: one request with a mask of the attributes to change,
which the FUSE layer takes apart into calls of the file system's own handlers.
Every handler replies with an error number, and the layer takes any such reply
for a failure, zero included. -/
namespace Fsyncer.FuseAttributes
open FileTree (Clock noOwner)
open FileTree.Tree (utimeNow utimeOmit)
open FuseHost FuseLl Machine

/-- A change through the open file, or else through the path of the inode's descriptor. -/
def amend (ino : Nat) (fi : Option FileInfo) (f : Attributes → Option Attributes) (w : World) : Outcome :=
  match fi with
  | some fi => .ok (w.status (w.host.change (w.host.opened fi.fh) f))
  | none => do
    let inode ← w.fs.getInode ino
    return w.status (w.host.change (w.host.selfPath inode.fd) f)

def chmod (ino : Nat) (mode : UInt32) (fi : Option FileInfo) (w : World) : Outcome :=
  amend ino fi (Attributes.setMode mode) w

def chown (ino : Nat) (uid gid : UInt32) (w : World) : Outcome := do
  let inode ← w.fs.getInode ino
  return w.status (w.host.change (w.host.opened inode.fd) (Attributes.setOwner uid gid))

def truncate (ino : Nat) (size : Int64) (fi : Option FileInfo) (w : World) : Outcome :=
  amend ino fi (Attributes.setSize size) w

/-- The times of a symbolic link are set through its descriptor. -/
def utimens (ino : Nat) (atime mtime : Clock) (fi : Option FileInfo) (w : World) : Outcome :=
  let set := Attributes.setTimes w.host.now atime mtime
  match fi with
  | some fi => .ok (w.status (w.host.change (w.host.opened fi.fh) set))
  | none => do
    let inode ← w.fs.getInode ino
    if inode.isSymlink then
      match w.host.change (w.host.opened inode.fd) set with
      | (.error errno, host) => return (.err (if errno = einval then eperm else errno).1, w.withHost host)
      | (.ok _, host) => return (.err 0, w.withHost host)
    else return w.status (w.host.change (w.host.selfPath inode.fd) set)

def getattr (ino : Nat) (w : World) : Outcome := do
  let inode ← w.fs.getInode ino
  match w.host.fstat inode.fd with
  | (.error errno, host) => return (.err errno, w.withHost host)
  | (.ok stat, host) => return (.attr stat w.fs.timeout, w.withHost host)

def setMode : UInt32 := 0x1
def setUid : UInt32 := 0x2
def setGid : UInt32 := 0x4
def setSize : UInt32 := 0x8
def setAtime : UInt32 := 0x10
def setMtime : UInt32 := 0x20
def setAtimeNow : UInt32 := 0x80
def setMtimeNow : UInt32 := 0x100

def asks (toSet mask : UInt32) : Bool := toSet &&& mask ≠ 0

/-- The seconds are handed over as nanoseconds. -/
def timespec (toSet now set : UInt32) (seconds : Int64) : Clock :=
  ⟨0, if asks toSet now then utimeNow else if asks toSet set then seconds else utimeOmit⟩

/-- The handlers in the order in which they are called, each with whether the mask asks for it. -/
def steps (ino : Nat) (attr : Attributes) (toSet : UInt32) (fi : Option FileInfo) :
    List (Bool × (World → Outcome)) :=
  [(asks toSet setMode, chmod ino attr.mode fi),
   (asks toSet (setUid ||| setGid),
    chown ino (if asks toSet setUid then attr.uid else noOwner) (if asks toSet setGid then attr.gid else noOwner)),
   (asks toSet setSize, truncate ino attr.size fi),
   (asks toSet (setAtime ||| setMtime),
    utimens ino (timespec toSet setAtimeNow setAtime attr.atime.sec)
      (timespec toSet setMtimeNow setMtime attr.mtime.sec) fi)]

/-- Every error reply ends the request. -/
def chain (ino : Nat) : List (Bool × (World → Outcome)) → World → Outcome
  | [], w => getattr ino w
  | (false, _) :: rest, w => chain ino rest w
  | (true, handler) :: rest, w =>
    match handler w with
    | .ok (.err code, w) => .ok (.err code, w)
    | .ok (_, w) => chain ino rest w
    | .error fault => .error fault

def setattr (ino : Nat) (attr : Attributes) (toSet : UInt32) (fi : Option FileInfo) (w : World) : Outcome :=
  chain ino (steps ino attr toSet fi) w

/-- The handlers that the mask asks for, one after the other, up to the first that reports a failure. -/
def inTurn : List (Bool × (World → Outcome)) → World → Except Fault (Nat × World)
  | [], w => .ok (0, w)
  | (false, _) :: rest, w => inTurn rest w
  | (true, handler) :: rest, w =>
    match handler w with
    | .ok (.err code, w) => if code = 0 then inTurn rest w else .ok (code, w)
    | .ok (_, w) => inTurn rest w
    | .error fault => .error fault

/-- Every change that the mask names has been made. -/
structure Changed (toSet : UInt32) (attr : Attributes) (now : Clock) (after : Attributes) : Prop where
  mode : asks toSet setMode → after.mode &&& 0o7777 = attr.mode &&& 0o7777
  uid : asks toSet setUid → after.uid = attr.uid
  gid : asks toSet setGid → after.gid = attr.gid
  size : asks toSet setSize → after.size = attr.size
  atime : asks toSet setAtime → after.atime.sec = if asks toSet setAtimeNow then now.sec else attr.atime.sec
  mtime : asks toSet setMtime → after.mtime.sec = if asks toSet setMtimeNow then now.sec else attr.mtime.sec

/-- A failing handler's error is the reply; if none fails, the changes are made and the attributes are the
reply, or the error of the call that fetches them. -/
def AppliesAll (ino : Nat) (attr : Attributes) (toSet : UInt32) (fi : Option FileInfo) (w : World) : Prop :=
  ∀ code between, inTurn (steps ino attr toSet fi) w = .ok (code, between) → ∃ reply after,
    setattr ino attr toSet fi w = .ok (reply, after) ∧
    (code ≠ 0 → reply = .err code) ∧
    (code = 0 → (∃ stat, reply = .attr stat w.fs.timeout ∧ getattr ino between = .ok (reply, after) ∧
        Changed toSet attr w.host.now stat.toAttributes) ∨
      ∃ errno : Errno, reply = .err errno ∧ getattr ino between = .ok (reply, after))

/-- The file that `chmod` and `truncate` change. -/
def file (inode : Inode) (fi : Option FileInfo) (host : Host) : Except Errno SrcId :=
  match fi with
  | some fi => host.opened fi.fh
  | none => host.selfPath inode.fd

/-- The system call of the first step that the mask asks for. -/
def firstCall (inode : Inode) (attr : Attributes) (toSet : UInt32) (fi : Option FileInfo) (host : Host) :
    Option (Except Errno Unit) :=
  if asks toSet setMode then some (host.change (file inode fi host) (Attributes.setMode attr.mode)).1
  else if asks toSet (setUid ||| setGid) then
    some (host.change (host.opened inode.fd) (Attributes.setOwner
      (if asks toSet setUid then attr.uid else noOwner) (if asks toSet setGid then attr.gid else noOwner))).1
  else if asks toSet setSize then some (host.change (file inode fi host) (Attributes.setSize attr.size)).1
  else if asks toSet (setAtime ||| setMtime) then
    some (host.change (if fi = none ∧ inode.isSymlink then host.opened inode.fd else file inode fi host)
      (Attributes.setTimes host.now (timespec toSet setAtimeNow setAtime attr.atime.sec)
        (timespec toSet setMtimeNow setMtime attr.mtime.sec))).1
  else none

/-- A reply that tells how a system call went. -/
def Reports (call : Except Errno Unit) (w : World) (outcome : Outcome) : Prop :=
  ∃ code after, outcome = .ok (.err code, after) ∧ after.fs = w.fs ∧ (code = 0 ↔ call = .ok ())

theorem reports_status (w : World) (result : Except Errno Unit × Host) :
    Reports result.1 w (.ok (w.status result)) := by
  obtain ⟨call, host⟩ := result
  cases call with
  | ok value => exact ⟨0, w.withHost host, rfl, rfl, by simp⟩
  | error errno => exact ⟨errno, w.withHost host, rfl, rfl, by simp [errno.2]⟩

section Handlers
variable {ino : Nat} {inode : Inode} {w : World} (known : w.fs.getInode ino = .ok inode)
include known

theorem reports_amend (fi : Option FileInfo) (f : Attributes → Option Attributes) :
    Reports (w.host.change (file inode fi w.host) f).1 w (amend ino fi f w) := by
  cases fi with
  | some fi => exact reports_status w _
  | none =>
    rw [amend, known]
    exact reports_status w _

theorem reports_chown (uid gid : UInt32) :
    Reports (w.host.change (w.host.opened inode.fd) (Attributes.setOwner uid gid)).1 w (chown ino uid gid w) := by
  rw [chown, known]
  exact reports_status w _

theorem reports_utimens (atime mtime : Clock) (fi : Option FileInfo) :
    Reports (w.host.change (if fi = none ∧ inode.isSymlink then w.host.opened inode.fd else file inode fi w.host)
      (Attributes.setTimes w.host.now atime mtime)).1 w (utimens ino atime mtime fi w) := by
  cases fi with
  | some fi => exact reports_status w _
  | none =>
    rw [utimens, known]
    cases symlink : inode.isSymlink with
    | false =>
      simp only [ok_bind, symlink, Bool.false_eq_true, if_false, and_false]
      exact reports_status w _
    | true =>
      simp only [ok_bind, symlink, if_true, and_self]
      generalize w.host.change (w.host.opened inode.fd) _ = result
      obtain ⟨call, host⟩ := result
      cases call with
      | ok value => exact ⟨0, w.withHost host, rfl, rfl, by simp⟩
      | error errno =>
        have nonzero : (if errno = einval then eperm else errno).1 ≠ 0 := (if errno = einval then eperm else errno).2
        exact ⟨_, w.withHost host, rfl, rfl, by simp [nonzero]⟩

/-- The first handler that is asked for reports the first system call. -/
theorem first_step (attr : Attributes) (toSet : UInt32) (fi : Option FileInfo) :
    match (steps ino attr toSet fi).find? (·.1) with
    | none => firstCall inode attr toSet fi w.host = none
    | some step => ∃ call, firstCall inode attr toSet fi w.host = some call ∧ Reports call w (step.2 w) := by
  cases mode : asks toSet setMode with
  | true => simpa [steps, firstCall, mode, chmod] using reports_amend known fi (Attributes.setMode attr.mode)
  | false =>
    cases owner : asks toSet (setUid ||| setGid) with
    | true => simpa [steps, firstCall, mode, owner] using reports_chown known _ _
    | false =>
      cases size : asks toSet setSize with
      | true => simpa [steps, firstCall, mode, owner, size, truncate] using
          reports_amend known fi (Attributes.setSize attr.size)
      | false =>
        cases times : asks toSet (setAtime ||| setMtime) with
        | true => simpa [steps, firstCall, mode, owner, size, times] using reports_utimens known _ _ fi
        | false => simp [steps, firstCall, mode, owner, size, times]

/-- Whatever the system calls do, the handlers end with a report. -/
theorem steps_report (attr : Attributes) (toSet : UInt32) (fi : Option FileInfo) :
    ∀ step ∈ steps ino attr toSet fi, ∃ call, Reports call w (step.2 w) := by
  intro step listed
  simp only [steps, List.mem_cons, List.not_mem_nil, or_false] at listed
  rcases listed with rfl | rfl | rfl | rfl
  · exact ⟨_, reports_amend known fi _⟩
  · exact ⟨_, reports_chown known _ _⟩
  · exact ⟨_, reports_amend known fi _⟩
  · exact ⟨_, reports_utimens known _ _ fi⟩

end Handlers

/-- With handlers that report, running them in turn comes to an end. -/
theorem inTurn_ends {list : List (Bool × (World → Outcome))} {fs : Fs}
    (report : ∀ step ∈ list, ∀ w : World, w.fs = fs → ∃ call, Reports call w (step.2 w)) :
    ∀ w : World, w.fs = fs → ∃ code between, inTurn list w = .ok (code, between) := by
  induction list with
  | nil => exact fun w _ => ⟨0, w, rfl⟩
  | cons step rest ih =>
    obtain ⟨asked, handler⟩ := step
    have later := ih fun step listed => report step (List.mem_cons_of_mem _ listed)
    intro w held
    cases asked with
    | false => exact later w held
    | true =>
      obtain ⟨call, code, after, replied, kept, -⟩ := report (true, handler) List.mem_cons_self w held
      have head : handler w = .ok (.err code, after) := replied
      simp only [inTurn, head]
      split
      · exact later after (kept.trans held)
      · exact ⟨code, after, rfl⟩

theorem chain_unasked (ino : Nat) {list : List (Bool × (World → Outcome))} (unasked : list.find? (·.1) = none) (w : World) :
    chain ino list w = getattr ino w ∧ inTurn list w = .ok (0, w) := by
  induction list with
  | nil => exact ⟨rfl, rfl⟩
  | cons step rest ih =>
    obtain ⟨asked, handler⟩ := step
    cases asked with
    | false => exact ih (by simpa using unasked)
    | true => simp at unasked

/-- The first report ends the chain, but not the run of all handlers unless it is a failure. -/
theorem chain_asked (ino : Nat) {list : List (Bool × (World → Outcome))} (asked : list.find? (·.1) = some step)
    (replied : step.2 w = .ok (.err code, after)) :
    chain ino list w = .ok (.err code, after) ∧ ∃ rest ⊆ list,
      inTurn list w = if code = 0 then inTurn rest after else .ok (code, after) := by
  induction list with
  | nil => simp at asked
  | cons head rest ih =>
    obtain ⟨wanted, handler⟩ := head
    cases wanted with
    | false =>
      obtain ⟨stops, others, within, runs⟩ := ih (by simpa using asked)
      exact ⟨stops, others, List.subset_cons_of_subset _ within, runs⟩
    | true =>
      obtain rfl : (true, handler) = step := by simpa using asked
      have head : handler w = .ok (.err code, after) := replied
      exact ⟨by simp only [chain, head], rest, List.subset_cons_self _ _, by simp only [inTurn, head]⟩

theorem asks_or (toSet left right : UInt32) : asks toSet (left ||| right) = (asks toSet left || asks toSet right) := by
  have split : toSet &&& (left ||| right) = (toSet &&& left) ||| (toSet &&& right) :=
    UInt32.toBitVec_inj.mp BitVec.and_or_distrib_left
  simp only [asks, split, ne_eq, UInt32.or_eq_zero_iff]
  rw [Bool.eq_iff_iff]
  simp

/-- A mask that asks for no step names no change. -/
theorem changed_of_unasked (unasked : (steps ino attr toSet fi).find? (·.1) = none) (now : Clock)
    (after : Attributes) : Changed toSet attr now after := by
  simp only [steps, List.find?_eq_none, List.mem_cons, List.not_mem_nil, or_false, forall_eq_or_imp, forall_eq,
    asks_or, Bool.or_eq_true, not_or] at unasked
  obtain ⟨mode, ⟨uid, gid⟩, size, atime, mtime⟩ := unasked
  exact ⟨(absurd · mode), (absurd · uid), (absurd · gid), (absurd · size), (absurd · atime), (absurd · mtime)⟩

/-- The attributes, or an error. -/
theorem getattr_replies (known : w.fs.getInode ino = .ok inode) : ∃ reply after, getattr ino w = .ok (reply, after) ∧
    ((∃ stat, reply = .attr stat w.fs.timeout) ∨ ∃ errno : Errno, reply = .err errno) := by
  rw [getattr, known, ok_bind]
  obtain ⟨call, host⟩ := w.host.fstat inode.fd
  cases call with
  | ok stat => exact ⟨_, _, rfl, .inl ⟨stat, rfl⟩⟩
  | error errno => exact ⟨_, _, rfl, .inr ⟨errno, rfl⟩⟩

/-- The request comes to what it should exactly when it asks for nothing or its first system call fails. -/
theorem applies_all_iff (ino : Nat) (inode : Inode) (attr : Attributes) (toSet : UInt32) (fi : Option FileInfo)
    (w : World) (known : w.fs.getInode ino = .ok inode) :
    AppliesAll ino attr toSet fi w ↔
      ∀ call, firstCall inode attr toSet fi w.host = some call → ∃ errno, call = .error errno := by
  have first := first_step known attr toSet fi
  cases asked : (steps ino attr toSet fi).find? (·.1) with
  | none =>
    rw [asked] at first
    obtain ⟨skips, ends⟩ := chain_unasked ino asked w
    refine ⟨fun _ call found => (nomatch first.symm.trans found), fun _ code between ran => ?_⟩
    cases ends.symm.trans ran
    obtain ⟨reply, after, fetched, kind⟩ := getattr_replies known
    refine ⟨reply, after, skips.trans fetched, fun nonzero => absurd rfl nonzero, fun _ => ?_⟩
    rcases kind with ⟨stat, rfl⟩ | ⟨errno, rfl⟩
    · exact .inl ⟨stat, rfl, fetched, changed_of_unasked asked _ _⟩
    · exact .inr ⟨errno, rfl, fetched⟩
  | some step =>
    rw [asked] at first
    obtain ⟨call, found, code, after, replied, kept, zero⟩ := first
    obtain ⟨stops, rest, within, runs⟩ := chain_asked ino asked replied
    constructor
    · intro applies other same
      obtain rfl : call = other := Option.some.inj (found.symm.trans same)
      cases call with
      | error errno => exact ⟨errno, rfl⟩
      | ok value =>
        -- the first report is zero, and the rest of the request is not carried out
        obtain rfl : code = 0 := zero.mpr rfl
        have reports : ∀ step ∈ rest, ∀ w' : World, w'.fs = w.fs → ∃ call, Reports call w' (step.2 w') := by
          intro step listed w' same
          exact steps_report (by rw [same]; exact known) attr toSet fi step (within listed)
        obtain ⟨last, between, ran⟩ := inTurn_ends reports after kept
        obtain ⟨reply, done, answered, failing, fine⟩ := applies last between (by simpa using runs.trans ran)
        have zero : reply = .err 0 := by cases stops.symm.trans answered; rfl
        by_cases ok : last = 0
        · rcases fine ok with ⟨stat, attributes, -⟩ | ⟨errno, failed, -⟩
          · simp [zero] at attributes
          · exact absurd (by simpa [zero] using failed.symm) errno.2
        · exact absurd (by simpa [zero] using (failing ok).symm) ok
    · intro fails last between ran
      obtain ⟨errno, rfl⟩ := fails call found
      have nonzero : code ≠ 0 := fun none => nomatch zero.mp none
      rw [runs, if_neg nonzero] at ran
      cases ran
      exact ⟨_, _, stops, fun _ => rfl, fun none => absurd none nonzero⟩

def epoch : Clock := ⟨0, 0⟩

def wanted : Attributes := ⟨0o700, 7, 7, 0, ⟨100, 0⟩, epoch⟩

/-- The reply to a request, and what the root's attributes then are. -/
def rootAfter (toSet : UInt32) : Except Fault (FuseReply × Option Attributes) :=
  (setattr fuseRootId wanted toSet none oneFile).map fun (reply, w) => (reply, w.host.files ⟨2, 1⟩)

/-- The reply is a success without attributes, and the owner is not set; a time of a hundred seconds is set to
as many nanoseconds. -/
theorem owner_is_skipped : ¬ AppliesAll fuseRootId wanted (setMode ||| setUid) none oneFile ∧
    rootAfter (setMode ||| setUid) = .ok (.err 0, some ⟨sIfdir ||| 0o700, 0, 0, 0, epoch, epoch⟩) ∧
    rootAfter setAtime = .ok (.err 0, some ⟨sIfdir ||| 0o755, 0, 0, 0, ⟨0, 100⟩, epoch⟩) := by
  have changed : rootAfter (setMode ||| setUid) = .ok (.err 0, some ⟨sIfdir ||| 0o700, 0, 0, 0, epoch, epoch⟩) := by
    decide
  refine ⟨fun applies => ?_, changed, by decide⟩
  obtain ⟨reply, after, replied, -, fine⟩ := applies 0 _ rfl
  rw [rootAfter, replied] at changed
  obtain rfl : reply = .err 0 := congrArg Prod.fst (Except.ok.inj changed)
  rcases fine rfl with ⟨stat, attributes, -⟩ | ⟨errno, failed, -⟩
  · cases attributes
  · exact absurd (FuseReply.err.inj failed).symm errno.2

/-- With nothing asked for, the attributes come back. -/
theorem empty_mask_applies : AppliesAll fuseRootId wanted 0 none oneFile :=
  (applies_all_iff fuseRootId oneFile.fs.root wanted 0 none oneFile rfl).mpr fun _ found => nomatch found

end Fsyncer.FuseAttributes
