import Fsyncer.Base.Interleaving
import Fsyncer.Base.Wire

/-! The initial synchronisation: two instances of `rsync_bridge` of
`common/rsync.rs`, one in the client and one in the fakeshell that the server's
rsync starts, carry what the two rsync processes say to each other over the
connection. Each instance has a main loop, which sends what its rsync puts out,
and a second thread, which hands what arrives to its rsync. Either of them may
write the terminator to the connection, and a frame is written in two pieces. -/
namespace Fsyncer.RsyncBridge
open Fsyncer.Interleaving Fsyncer.Wire

/-- Where the main loop is. -/
inductive Sender where
  | reading
  /-- A chunk was read. -/
  | sized (buf : List UInt8)
  /-- Its length was written, under a lock that has been given back. -/
  | midFrame (buf : List UInt8)
  /-- The end of the output was read. -/
  | closing
  | finished
  deriving DecidableEq, Repr

/-- Where the second thread is. -/
inductive Receiver where
  | waiting
  | filling (len : ℕ)
  | delivering (buf : List UInt8)
  /-- The terminator was read, and will be answered. -/
  | stopping
  | exiting
  | returned
  deriving DecidableEq, Repr

structure Bridge where
  terminate : Bool
  /-- What the rsync process has put out and the main loop has not read. -/
  pipe : List UInt8
  /-- The rsync process has closed its output. -/
  closed : Bool
  /-- Everything the rsync process has put out. -/
  emitted : List UInt8
  /-- Everything written to the rsync process. -/
  received : List UInt8
  sender : Sender
  receiver : Receiver
  exited : Bool
  /-- The terminator was answered before the main loop had finished. No step
  looks at it. -/
  early : Bool
  /-- Something was written after the first terminator. No step looks at it. -/
  late : Bool
  deriving DecidableEq, Repr

/-- What one of the two threads, or the rsync process, does next. -/
inductive Action where
  | emit (bytes : List UInt8)
  | close
  | read (count : ℕ)
  | readEnd
  | writeLength
  | writeBody
  | writeEnd
  | readLength
  | readBody
  | deliver
  | answer
  | exit
  deriving DecidableEq, Repr

namespace Bridge

def start (terminate : Bool) : Bridge where
  terminate := terminate
  pipe := []
  closed := false
  emitted := []
  received := []
  sender := .reading
  receiver := .waiting
  exited := false
  early := false
  late := false

/-- One of the threads has written the terminator. -/
def ended (b : Bridge) : Bool := b.sender = .finished ∨ b.receiver = .exiting

/-- Takes down that something is about to be written. -/
def wrote (b : Bridge) : Bridge := { b with late := b.late || b.ended }

/-- A step of one side. `nin` is what waits on the connection for it, `nout` what
it has put on the connection and the other side has not read. Reads block until
all they ask for is there. -/
def move (b : Bridge) (nin nout : List UInt8) : Action → Option (Bridge × List UInt8 × List UInt8)
  | .emit bytes =>
    if b.closed then none
    else some ({ b with pipe := b.pipe ++ bytes, emitted := b.emitted ++ bytes }, nin, nout)
  | .close => some ({ b with closed := true }, nin, nout)
  | .read count =>
    if b.exited = false ∧ b.sender = .reading ∧ 0 < count ∧ count ≤ 4096 ∧ count ≤ b.pipe.length then
      some ({ b with pipe := b.pipe.drop count, sender := .sized (b.pipe.take count) }, nin, nout)
    else none
  | .readEnd =>
    if b.exited = false ∧ b.sender = .reading ∧ b.pipe = [] ∧ b.closed then
      some ({ b with sender := .closing }, nin, nout)
    else none
  | .writeLength =>
    match b.exited, b.sender with
    | false, .sized buf =>
      some ({ b.wrote with sender := .midFrame buf }, nin, nout ++ beBytes 4 buf.length)
    | _, _ => none
  | .writeBody =>
    match b.exited, b.sender with
    | false, .midFrame buf => some ({ b.wrote with sender := .reading }, nin, nout ++ buf)
    | _, _ => none
  | .writeEnd =>
    if b.exited = false ∧ b.sender = .closing then
      some ({ b.wrote with sender := .finished }, nin, nout ++ beBytes 4 0)
    else none
  | .readLength =>
    if b.exited = false ∧ b.receiver = .waiting ∧ 4 ≤ nin.length then
      let len := beValue (nin.take 4)
      let receiver := if len = 0 then (if b.terminate then .stopping else .returned) else .filling len
      some ({ b with receiver }, nin.drop 4, nout)
    else none
  | .readBody =>
    match b.exited, b.receiver with
    | false, .filling len =>
      if len ≤ nin.length then some ({ b with receiver := .delivering (nin.take len) }, nin.drop len, nout)
      else none
    | _, _ => none
  | .deliver =>
    match b.exited, b.receiver with
    | false, .delivering buf =>
      some ({ b with receiver := .waiting, received := b.received ++ buf }, nin, nout)
    | _, _ => none
  | .answer =>
    if b.exited = false ∧ b.receiver = .stopping then
      some ({ b.wrote with receiver := .exiting, early := b.sender ≠ .finished }, nin, nout ++ beBytes 4 0)
    else none
  | .exit =>
    if b.exited = false ∧ b.receiver = .exiting then some ({ b with exited := true }, nin, nout) else none

end Bridge

inductive Side where
  | client
  | shell
  deriving DecidableEq, Repr

structure World where
  client : Bridge
  shell : Bridge
  /-- From the client to the fakeshell. -/
  up : List UInt8
  /-- From the fakeshell to the client. -/
  down : List UInt8
  deriving DecidableEq, Repr

def World.start : World := ⟨.start false, .start true, [], []⟩

def World.move (w : World) : Side × Action → Option World
  | (.client, action) =>
    (w.client.move w.down w.up action).map fun (client, down, up) => ⟨client, w.shell, up, down⟩
  | (.shell, action) =>
    (w.shell.move w.up w.down action).map fun (shell, up, down) => ⟨w.client, shell, up, down⟩

def Step (w : World) (event : Side × Action) (w' : World) : Prop := w.move event = some w'

/-- `rsync_bridge` has returned: the main loop is at its end and the second
thread was joined. -/
def Bridge.Returned (b : Bridge) : Prop := b.sender = .finished ∧ b.receiver = .returned

instance (b : Bridge) : Decidable b.Returned := inferInstanceAs (Decidable (_ ∧ _))

/-- Each rsync process has got the beginning of what the other has put out and
nothing else, and all of it where the terminator was sent at the end of it. -/
structure Transparent (w : World) : Prop where
  to_client : w.client.received <+: w.shell.emitted
  to_shell : w.shell.received <+: w.client.emitted
  client_all : w.client.receiver = .returned → w.shell.early = false → w.client.received = w.shell.emitted
  shell_all : w.shell.receiver = .stopping ∨ w.shell.receiver = .exiting →
    w.shell.received = w.client.emitted

/-- Nothing is left on the connection for the client when both sides are done. -/
def Clean (w : World) : Prop := w.client.Returned → w.shell.exited = true → w.down = []

/-- The fakeshell does not answer the terminator in the middle of a frame. -/
def unbroken (w : World) (event : Side × Action) : Prop :=
  event = (.shell, .answer) → ∀ buf, w.shell.sender ≠ .midFrame buf

def Action.writes : Action → Bool
  | .writeLength | .writeBody | .writeEnd | .answer => true
  | _ => false

/-- Nor does it write anything once it has written a terminator. -/
def orderly (w : World) (event : Side × Action) : Prop :=
  unbroken w event ∧ (event.1 = .shell → event.2.writes = true → w.shell.ended = false)

section Moves

/-- What the steps are, one by one. -/
inductive Moves (b : Bridge) (nin nout : List UInt8) : Action → Bridge → List UInt8 → List UInt8 → Prop where
  | emit (bytes : List UInt8) (still : b.closed = false) :
      Moves b nin nout (.emit bytes)
        { b with pipe := b.pipe ++ bytes, emitted := b.emitted ++ bytes } nin nout
  | close : Moves b nin nout .close { b with closed := true } nin nout
  | read (here : b.sender = .reading) (some_bytes : 0 < count) (few : count ≤ 4096)
      (there : count ≤ b.pipe.length) :
      Moves b nin nout (.read count)
        { b with pipe := b.pipe.drop count, sender := .sized (b.pipe.take count) } nin nout
  | readEnd (here : b.sender = .reading) (empty : b.pipe = []) (closed : b.closed = true) :
      Moves b nin nout .readEnd { b with sender := .closing } nin nout
  | writeLength (here : b.sender = .sized buf) :
      Moves b nin nout .writeLength { b.wrote with sender := .midFrame buf } nin
        (nout ++ beBytes 4 buf.length)
  | writeBody (here : b.sender = .midFrame buf) :
      Moves b nin nout .writeBody { b.wrote with sender := .reading } nin (nout ++ buf)
  | writeEnd (here : b.sender = .closing) :
      Moves b nin nout .writeEnd { b.wrote with sender := .finished } nin (nout ++ beBytes 4 0)
  | readSome (here : b.receiver = .waiting) (there : 4 ≤ nin.length) (frame : beValue (nin.take 4) ≠ 0) :
      Moves b nin nout .readLength { b with receiver := .filling (beValue (nin.take 4)) } (nin.drop 4) nout
  | readNone (here : b.receiver = .waiting) (there : 4 ≤ nin.length) (none_left : beValue (nin.take 4) = 0) :
      Moves b nin nout .readLength
        { b with receiver := if b.terminate then .stopping else .returned } (nin.drop 4) nout
  | readBody (here : b.receiver = .filling len) (there : len ≤ nin.length) :
      Moves b nin nout .readBody { b with receiver := .delivering (nin.take len) } (nin.drop len) nout
  | deliver (here : b.receiver = .delivering buf) :
      Moves b nin nout .deliver { b with receiver := .waiting, received := b.received ++ buf } nin nout
  | answer (here : b.receiver = .stopping) :
      Moves b nin nout .answer { b.wrote with receiver := .exiting, early := b.sender ≠ .finished } nin
        (nout ++ beBytes 4 0)
  | exit (here : b.receiver = .exiting) : Moves b nin nout .exit { b with exited := true } nin nout

variable {b b' : Bridge} {nin nout nin' nout' : List UInt8} {action : Action}

theorem moves_of_move (moved : b.move nin nout action = some (b', nin', nout')) :
    Moves b nin nout action b' nin' nout' := by
  cases action with
  | emit bytes =>
    rw [Bridge.move] at moved
    split at moved
    · cases moved
    · next still =>
      cases moved
      exact .emit bytes (Bool.eq_false_iff.mpr still)
  | close =>
    cases moved
    exact .close
  | read count =>
    rw [Bridge.move] at moved
    split at moved
    · next guards =>
      cases moved
      obtain ⟨_, here, some_bytes, few, there⟩ := guards
      exact .read here some_bytes few there
    · cases moved
  | readEnd =>
    rw [Bridge.move] at moved
    split at moved
    · next guards =>
      cases moved
      obtain ⟨_, here, empty, closed⟩ := guards
      exact .readEnd here empty closed
    · cases moved
  | writeLength =>
    rw [Bridge.move] at moved
    split at moved
    · next here =>
      cases moved
      exact .writeLength here
    · cases moved
  | writeBody =>
    rw [Bridge.move] at moved
    split at moved
    · next here =>
      cases moved
      exact .writeBody here
    · cases moved
  | writeEnd =>
    rw [Bridge.move] at moved
    split at moved
    · next guards =>
      cases moved
      exact .writeEnd guards.2
    · cases moved
  | readLength =>
    rw [Bridge.move] at moved
    split at moved
    · next guards =>
      obtain ⟨_, here, there⟩ := guards
      by_cases none_left : beValue (nin.take 4) = 0
      · simp only [if_pos none_left] at moved
        cases moved
        exact .readNone here there none_left
      · simp only [if_neg none_left] at moved
        cases moved
        exact .readSome here there none_left
    · cases moved
  | readBody =>
    rw [Bridge.move] at moved
    split at moved
    · next here =>
      split at moved
      · next there =>
        cases moved
        exact .readBody here there
      · cases moved
    · cases moved
  | deliver =>
    rw [Bridge.move] at moved
    split at moved
    · next here =>
      cases moved
      exact .deliver here
    · cases moved
  | answer =>
    rw [Bridge.move] at moved
    split at moved
    · next guards =>
      cases moved
      exact .answer guards.2
    · cases moved
  | exit =>
    rw [Bridge.move] at moved
    split at moved
    · next guards =>
      cases moved
      exact .exit guards.2
    · cases moved

/-- What holds of either side by itself. -/
structure Sane (b : Bridge) : Prop where
  chunk : b.sender = .sized buf ∨ b.sender = .midFrame buf → buf ≠ [] ∧ buf.length < 2 ^ 32
  drained : b.sender = .closing ∨ b.sender = .finished → b.pipe = [] ∧ b.closed = true
  filling : b.receiver = .filling len → len ≠ 0 ∧ len < 2 ^ 32
  delivering : b.receiver = .delivering buf → buf ≠ [] ∧ buf.length < 2 ^ 32
  silent : b.terminate = false → b.receiver ≠ .stopping ∧ b.receiver ≠ .exiting
  fresh : b.ended = false → b.late = false
  calm : b.receiver ≠ .exiting → b.early = false
  whole : b.early = false → b.receiver = .exiting → b.sender = .finished

theorem sane_start (terminate : Bool) : Sane (.start terminate) := by
  constructor <;> simp [Bridge.start]

theorem beValue_take_lt (bytes : List UInt8) : beValue (bytes.take 4) < 2 ^ 32 := by
  have small := leValue_lt (bytes.take 4).reverse
  rw [List.length_reverse] at small
  have short : (bytes.take 4).length ≤ 4 := List.length_take_le _ _
  exact small.trans_le (Nat.pow_le_pow_right (by decide : 0 < 256) short)

theorem Moves.sane (moves : Moves b nin nout action b' nin' nout') (sane : Sane b) : Sane b' := by
  obtain ⟨chunk, drained, filling, delivering, silent, fresh, calm, whole⟩ := sane
  cases moves with
  | emit bytes still =>
    refine ⟨chunk, fun past => ?_, filling, delivering, silent, fresh, calm, whole⟩
    rw [(drained past).2] at still
    cases still
  | close => exact ⟨chunk, fun past => ⟨(drained past).1, rfl⟩, filling, delivering, silent, fresh, calm, whole⟩
  | read here some_bytes few there =>
    refine ⟨?_, by simp, filling, delivering, silent, ?_, calm, ?_⟩
    · intro _ taken
      simp only [Sender.sized.injEq, reduceCtorEq, or_false] at taken
      rw [← taken, ← List.length_pos_iff, List.length_take]
      omega
    · simpa [Bridge.ended, here] using fresh
    · simpa [here] using whole
  | readEnd here empty closed =>
    refine ⟨by simp, fun _ => ⟨empty, closed⟩, filling, delivering, silent, ?_, calm, ?_⟩
    · simpa [Bridge.ended, here] using fresh
    · simpa [here] using whole
  | writeLength here =>
    refine ⟨?_, by simp, filling, delivering, silent, ?_, calm, ?_⟩
    · rintro _ (taken | taken)
      · cases taken
      · cases taken
        exact chunk (Or.inl here)
    · simp_all [Bridge.ended, Bridge.wrote]
    · simpa [here, Bridge.wrote] using whole
  | writeBody here =>
    refine ⟨by simp, by simp, filling, delivering, silent, ?_, calm, ?_⟩
    · simp_all [Bridge.ended, Bridge.wrote]
    · simpa [here, Bridge.wrote] using whole
  | writeEnd here =>
    refine ⟨by simp, fun _ => drained (Or.inl here), filling, delivering, silent, ?_, calm, fun _ _ => rfl⟩
    simp [Bridge.ended]
  | readSome here there frame =>
    refine ⟨chunk, drained, ?_, by simp, by simp, ?_, fun _ => calm (by simp [here]), by simp⟩
    · intro len same
      cases same
      exact ⟨frame, beValue_take_lt nin⟩
    · simpa [Bridge.ended, here] using fresh
  | readNone here there none_left =>
    refine ⟨chunk, drained, ?_, ?_, ?_, ?_, fun _ => calm (by simp [here]), ?_⟩
    all_goals cases flag : b.terminate <;> simp_all [Bridge.ended]
  | readBody here there =>
    refine ⟨chunk, drained, by simp, ?_, by simp, ?_, fun _ => calm (by simp [here]), by simp⟩
    · intro buf same
      cases same
      obtain ⟨some_bytes, small⟩ := filling here
      rw [← List.length_pos_iff, List.length_take]
      omega
    · simpa [Bridge.ended, here] using fresh
  | deliver here =>
    refine ⟨chunk, drained, by simp, by simp, by simp, ?_, fun _ => calm (by simp [here]), by simp⟩
    simpa [Bridge.ended, here] using fresh
  | answer here =>
    refine ⟨chunk, drained, by simp, by simp, fun silenced => absurd here (silent silenced).1, ?_, by simp, ?_⟩
    · simp [Bridge.ended]
    · simp [Bridge.wrote]
  | exit here => exact ⟨chunk, drained, filling, delivering, silent, fresh, calm, whole⟩

end Moves

section Links

/-- A chunk as it goes over the connection. -/
def frame (chunk : List UInt8) : List UInt8 := beBytes 4 chunk.length ++ chunk

/-- What the second thread has read of a frame that it has not delivered, or of
the terminator. -/
def Receiver.owes : Receiver → List UInt8
  | .waiting => []
  | .filling len => beBytes 4 len
  | .delivering buf => frame buf
  | .stopping | .exiting | .returned => beBytes 4 0

/-- What the main loop has written of a frame. -/
def Sender.header : Sender → List UInt8
  | .midFrame buf => beBytes 4 buf.length
  | _ => []

/-- What the main loop has read and not written. -/
def Sender.inHand : Sender → List UInt8
  | .sized buf | .midFrame buf => buf
  | _ => []

/-- One direction of the connection, from `x` to `y`: the chunks `done` have
been delivered, the chunks `todo` are on their way, and `tail` comes after them;
`rest` is the output of `x` that is in none of these chunks. -/
structure LinkAt (x : Bridge) (channel : List UInt8) (y : Bridge) (done todo : List (List UInt8))
    (tail rest : List UInt8) : Prop where
  chunks : ∀ chunk ∈ todo, chunk ≠ [] ∧ chunk.length < 2 ^ 32
  stream : y.receiver.owes ++ channel = todo.flatMap frame ++ tail
  received : y.received = done.flatten
  emitted : x.emitted = (done ++ todo).flatten ++ rest
  current : x.ended = false → tail = x.sender.header
  past : x.ended = true → ∃ extra, tail = beBytes 4 0 ++ extra ∧ (extra = [] ↔ x.late = false)
  unread : x.early = false → rest = x.sender.inHand ++ x.pipe

def Link (x : Bridge) (channel : List UInt8) (y : Bridge) : Prop :=
  ∃ done todo tail rest, LinkAt x channel y done todo tail rest

theorem link_start (here there : Bool) : Link (.start here) [] (.start there) :=
  ⟨[], [], [], [], by simp, rfl, rfl, rfl, fun _ => rfl, by simp [Bridge.ended, Bridge.start], fun _ => rfl⟩

variable {x x' y y' : Bridge} {channel channel' other other' : List UInt8} {action : Action}
  {done todo : List (List UInt8)} {tail rest : List UInt8}

theorem beBytes_inj (left_lt : left < 2 ^ 32) (right_lt : right < 2 ^ 32) (same : beBytes 4 left = beBytes 4 right) :
    left = right := by
  have values := congrArg beValue same
  rw [beValue_beBytes, beValue_beBytes] at values
  omega

/-- The stream can be taken apart in one way only. -/
theorem frame_cancel (first_lt : first.length < 2 ^ 32) (second_lt : second.length < 2 ^ 32)
    (same : frame first ++ after = frame second ++ after') : first = second ∧ after = after' := by
  rw [frame, frame, List.append_assoc, List.append_assoc] at same
  obtain ⟨lengths, same⟩ := List.append_inj same (by rw [length_beBytes, length_beBytes])
  exact List.append_inj same (beBytes_inj first_lt second_lt lengths)

/-- What comes after the chunks is not a chunk. -/
theorem tail_ne_frame (current : x.ended = false → tail = x.sender.header)
    (past : x.ended = true → ∃ extra, tail = beBytes 4 0 ++ extra ∧ (extra = [] ↔ x.late = false))
    (some_bytes : buf ≠ []) (small : buf.length < 2 ^ 32) : tail ≠ frame buf ++ after := by
  have positive := List.length_pos_iff.mpr some_bytes
  rintro rfl
  cases ended : x.ended with
  | false =>
    have length := congrArg List.length (current ended)
    have short : x.sender.header.length ≤ 4 := by
      cases x.sender <;> simp [Sender.header]
    rw [frame, List.length_append, List.length_append, length_beBytes] at length
    omega
  | true =>
    obtain ⟨extra, same, _⟩ := past ended
    rw [frame, List.append_assoc] at same
    have zero := (List.append_inj same (by rw [length_beBytes, length_beBytes])).1
    have none := beBytes_inj small (by decide) zero
    omega

/-- What the second thread of `y` does to the direction towards it. -/
theorem Link.receive (link : Link x channel y) (sane : Sane y)
    (moves : Moves y channel other action y' channel' other') : Link x channel' y' := by
  obtain ⟨done, todo, tail, rest, link⟩ := link
  obtain ⟨chunks, stream, received, emitted, current, past, unread⟩ := link
  -- all but the steps of the second thread leave this direction alone
  have same (owes : y'.receiver.owes = y.receiver.owes) (got : y'.received = y.received)
      (untouched : channel' = channel) : Link x channel' y' :=
    ⟨done, todo, tail, rest, chunks, by rw [owes, untouched, stream], by rw [got, received], emitted,
      current, past, unread⟩
  cases moves with
  | emit | close | read | readEnd | writeLength | writeBody | writeEnd | exit => exact same rfl rfl rfl
  | answer here => exact same (by simp [here, Receiver.owes]) rfl rfl
  | readSome here there more =>
    refine ⟨done, todo, tail, rest, chunks, ?_, received, emitted, current, past, unread⟩
    have length : (channel.take 4).length = 4 := by rw [List.length_take]; omega
    have value := beBytes_beValue (channel.take 4)
    rw [length] at value
    rw [here, Receiver.owes, List.nil_append] at stream
    rw [Receiver.owes, value, List.take_append_drop, stream]
  | readNone here there none_left =>
    refine ⟨done, todo, tail, rest, chunks, ?_, received, emitted, current, past, unread⟩
    have length : (channel.take 4).length = 4 := by rw [List.length_take]; omega
    have value := beBytes_beValue (channel.take 4)
    rw [length, none_left] at value
    rw [here, Receiver.owes, List.nil_append] at stream
    have owes : (if y.terminate then Receiver.stopping else .returned).owes = beBytes 4 0 := by
      split <;> rfl
    rw [owes, value, List.take_append_drop, stream]
  | readBody here there =>
    refine ⟨done, todo, tail, rest, chunks, ?_, received, emitted, current, past, unread⟩
    rw [here, Receiver.owes] at stream
    rw [Receiver.owes, frame, List.length_take, Nat.min_eq_left there, List.append_assoc,
      List.take_append_drop, stream]
  | @deliver buf here =>
    obtain ⟨some_bytes, small⟩ := sane.delivering here
    rw [here, Receiver.owes] at stream
    cases todo with
    | nil => exact absurd stream.symm (tail_ne_frame current past some_bytes small)
    | cons chunk todo =>
      obtain ⟨_, chunk_lt⟩ := chunks chunk List.mem_cons_self
      rw [List.flatMap_cons, List.append_assoc] at stream
      obtain ⟨rfl, remaining⟩ := frame_cancel small chunk_lt stream
      refine ⟨done ++ [buf], todo, tail, rest, fun chunk found => chunks chunk (List.mem_cons_of_mem _ found),
        ?_, ?_, ?_, current, past, unread⟩
      · rw [Receiver.owes, List.nil_append, remaining]
      · show y.received ++ buf = _
        rw [received]
        simp
      · rw [emitted]
        simp

/-- What is written after a terminator stays behind it. -/
theorem LinkAt.grow (link : LinkAt x channel y done todo tail rest) (ended : x.ended = true)
    (ended' : x'.ended = true) (late : x'.late = true) (emitted : x'.emitted = x.emitted)
    (unread : x'.early = false → rest = x'.sender.inHand ++ x'.pipe) (some_bytes : bytes ≠ []) :
    Link x' (channel ++ bytes) y := by
  obtain ⟨extra, shape, _⟩ := link.past ended
  refine ⟨done, todo, tail ++ bytes, rest, link.chunks, ?_, link.received, by rw [emitted, link.emitted],
    ?_, fun _ => ⟨extra ++ bytes, ?_, ?_⟩, unread⟩
  · rw [← List.append_assoc, link.stream, List.append_assoc]
  · rw [ended']
    exact fun impossible => absurd impossible (by decide)
  · rw [shape, List.append_assoc]
  · simp [late, some_bytes]

theorem beBytes_ne_nil (value : ℕ) : beBytes 4 value ≠ [] := by
  rw [← List.length_pos_iff, length_beBytes]
  decide

/-- A direction looks at nothing of its sender but this. -/
theorem Link.sender (link : Link x channel y) (emitted : x'.emitted = x.emitted) (ended : x'.ended = x.ended)
    (header : x'.sender.header = x.sender.header) (late : x'.late = x.late) (early : x'.early = x.early)
    (unread : x'.sender.inHand ++ x'.pipe = x.sender.inHand ++ x.pipe) : Link x' channel y := by
  obtain ⟨done, todo, tail, rest, link⟩ := link
  exact ⟨done, todo, tail, rest, link.chunks, link.stream, link.received, by rw [emitted, link.emitted],
    by rw [ended, header]; exact link.current, by rw [ended, late]; exact link.past,
    by rw [early, unread]; exact link.unread⟩

/-- What `x` does to the direction away from it. -/
theorem Link.send (link : Link x channel y) (sane : Sane x)
    (moves : Moves x other channel action x' other' channel')
    (unbroken : action = .answer → ∀ buf, x.sender ≠ .midFrame buf) : Link x' channel' y := by
  cases moves with
  | emit bytes still =>
    obtain ⟨done, todo, tail, rest, link⟩ := link
    refine ⟨done, todo, tail, rest ++ bytes, link.chunks, link.stream, link.received, ?_, link.current,
      link.past, fun kept => ?_⟩
    · show x.emitted ++ bytes = _
      rw [link.emitted, List.append_assoc]
    · show rest ++ bytes = x.sender.inHand ++ (x.pipe ++ bytes)
      rw [link.unread kept, List.append_assoc]
  | close => exact link.sender rfl rfl rfl rfl rfl rfl
  | read here some_bytes few there =>
    refine link.sender rfl ?_ ?_ rfl rfl ?_
    · simp [Bridge.ended, here]
    · simp [Sender.header, here]
    · simp [Sender.inHand, here]
  | readEnd here empty closed =>
    refine link.sender rfl ?_ ?_ rfl rfl ?_
    · simp [Bridge.ended, here]
    · simp [Sender.header, here]
    · simp [Sender.inHand, here]
  | @writeLength buf here =>
    obtain ⟨done, todo, tail, rest, link⟩ := link
    have hand : x.sender.inHand = buf := by rw [here]; rfl
    have header : x.sender.header = [] := by rw [here]; rfl
    cases ended : x.ended with
    | true =>
      refine link.grow ended (by simp_all [Bridge.ended, Bridge.wrote]) (by simp [Bridge.wrote, ended]) rfl
        (fun kept => ?_) (beBytes_ne_nil _)
      rw [link.unread kept, hand]
      rfl
    | false =>
      have late := sane.fresh ended
      have tail_eq := link.current ended
      rw [header] at tail_eq
      refine ⟨done, todo, _, rest, link.chunks, ?_, link.received, link.emitted, fun _ => rfl,
        by simp_all [Bridge.ended, Bridge.wrote], fun kept => ?_⟩
      · rw [← List.append_assoc, link.stream, tail_eq, List.append_nil]
        rfl
      · rw [link.unread kept, hand]
        rfl
  | @writeBody buf here =>
    obtain ⟨done, todo, tail, rest, link⟩ := link
    obtain ⟨some_bytes, small⟩ := sane.chunk (Or.inr here)
    have hand : x.sender.inHand = buf := by rw [here]; rfl
    cases ended : x.ended with
    | true =>
      -- the second thread has answered before the end of the output
      have out : x.receiver = .exiting := by simpa [Bridge.ended, here] using ended
      refine link.grow ended (by simp_all [Bridge.ended, Bridge.wrote]) (by simp [Bridge.wrote, ended]) rfl
        (fun kept => ?_) some_bytes
      have finished := sane.whole kept out
      rw [here] at finished
      cases finished
    | false =>
      have tail_eq := link.current ended
      have kept : x.early = false := sane.calm (by rintro out; simp [Bridge.ended, out] at ended)
      have split := link.unread kept
      rw [hand] at split
      rw [here, Sender.header] at tail_eq
      refine ⟨done, todo ++ [buf], [], x.pipe, ?_, ?_, link.received, ?_, fun _ => rfl,
        by simp_all [Bridge.ended, Bridge.wrote], fun _ => rfl⟩
      · intro chunk found
        rcases List.mem_append.mp found with earlier | last
        · exact link.chunks chunk earlier
        · rw [List.mem_singleton.mp last]
          exact ⟨some_bytes, small⟩
      · rw [← List.append_assoc, link.stream, tail_eq, List.flatMap_append]
        simp [frame]
      · show x.emitted = _
        rw [link.emitted, split]
        simp
  | writeEnd here =>
    obtain ⟨done, todo, tail, rest, link⟩ := link
    have hand : x.sender.inHand = [] := by rw [here]; rfl
    have header : x.sender.header = [] := by rw [here]; rfl
    cases ended : x.ended with
    | true =>
      refine link.grow ended (by simp [Bridge.ended]) (by simp [Bridge.wrote, ended]) rfl (fun kept => ?_)
        (beBytes_ne_nil _)
      rw [link.unread kept, hand]
      rfl
    | false =>
      have late := sane.fresh ended
      have tail_eq := link.current ended
      rw [header] at tail_eq
      refine ⟨done, todo, beBytes 4 0, rest, link.chunks, ?_, link.received, link.emitted,
        by simp [Bridge.ended], fun _ => ⟨[], by simp, by simp [Bridge.wrote, late, ended]⟩, fun kept => ?_⟩
      · rw [← List.append_assoc, link.stream, tail_eq, List.append_nil]
      · rw [link.unread kept, hand]
        rfl
  | answer here =>
    obtain ⟨done, todo, tail, rest, link⟩ := link
    have kept : x.early = false := sane.calm (by rw [here]; decide)
    cases ended : x.ended with
    | true =>
      have finished : x.sender = .finished := by simpa [Bridge.ended, here] using ended
      refine link.grow ended (by simp [Bridge.ended]) (by simp [Bridge.wrote, ended]) rfl (fun _ => ?_)
        (beBytes_ne_nil _)
      exact link.unread kept
    | false =>
      have late := sane.fresh ended
      have going : x.sender ≠ .finished := by
        intro finished
        simp [Bridge.ended, finished] at ended
      have header : x.sender.header = [] := by
        cases stage : x.sender with
        | midFrame buf => exact absurd stage (unbroken rfl buf)
        | _ => rfl
      have tail_eq := link.current ended
      rw [header] at tail_eq
      refine ⟨done, todo, beBytes 4 0, rest, link.chunks, ?_, link.received, link.emitted,
        by simp [Bridge.ended], fun _ => ⟨[], by simp, by simp [Bridge.wrote, late, ended]⟩, ?_⟩
      · rw [← List.append_assoc, link.stream, tail_eq, List.append_nil]
      · simp [going]
  | readSome here there more => exact link.sender rfl (by simp [Bridge.ended, here]) rfl rfl rfl rfl
  | readNone here there none_left =>
    refine link.sender rfl ?_ rfl rfl rfl rfl
    cases x.terminate <;> simp [Bridge.ended, here]
  | readBody here there => exact link.sender rfl (by simp [Bridge.ended, here]) rfl rfl rfl rfl
  | deliver here => exact link.sender rfl (by simp [Bridge.ended, here]) rfl rfl rfl rfl
  | exit here => exact link.sender rfl rfl rfl rfl rfl rfl

/-- When the second thread of `y` has read the terminator, the chunks are all
delivered, and what is left on the connection was written after it. -/
theorem Link.stopped (link : Link x channel y) (sane : Sane x) (stopped : y.receiver.owes = beBytes 4 0) :
    x.ended = true ∧ (channel = [] ↔ x.late = false) ∧ (x.early = false → y.received = x.emitted) := by
  obtain ⟨done, todo, tail, rest, link⟩ := link
  have stream := link.stream
  rw [stopped] at stream
  have delivered : todo = [] := by
    cases todo with
    | nil => rfl
    | cons chunk todo =>
      obtain ⟨some_bytes, small⟩ := link.chunks chunk List.mem_cons_self
      rw [List.flatMap_cons, frame, List.append_assoc, List.append_assoc] at stream
      have zero := (List.append_inj stream (by rw [length_beBytes, length_beBytes])).1
      have length := beBytes_inj (by decide) small zero
      exact absurd (List.length_eq_zero_iff.mp length.symm) some_bytes
  rw [delivered, List.flatMap_nil, List.nil_append] at stream
  have ended : x.ended = true := by
    by_contra going
    have header := link.current (Bool.eq_false_iff.mpr going)
    rw [← stream] at header
    cases stage : x.sender with
    | midFrame buf =>
      obtain ⟨some_bytes, small⟩ := sane.chunk (Or.inr stage)
      rw [stage, Sender.header] at header
      have zero := (List.append_inj (header.trans (List.append_nil _).symm)
        (by rw [length_beBytes, length_beBytes])).1
      have length := beBytes_inj (by decide) small zero
      exact absurd (List.length_eq_zero_iff.mp length.symm) some_bytes
    | _ =>
      rw [stage] at header
      exact absurd (List.append_eq_nil_iff.mp header).1 (beBytes_ne_nil 0)
  obtain ⟨extra, shape, late⟩ := link.past ended
  refine ⟨ended, ?_, fun kept => ?_⟩
  · rw [shape, List.append_right_inj] at stream
    rw [stream, late]
  · have finished : x.sender = .finished := by
      rcases of_decide_eq_true ended with finished | out
      · exact finished
      · exact sane.whole kept out
    have rest_nil := link.unread kept
    rw [(sane.drained (Or.inr finished)).1, finished] at rest_nil
    rw [link.received, link.emitted, delivered, rest_nil]
    simp [Sender.inHand]

theorem Link.delivers (link : Link x channel y) : y.received <+: x.emitted := by
  obtain ⟨done, todo, tail, rest, link⟩ := link
  rw [link.received, link.emitted, List.flatten_append, List.append_assoc]
  exact List.prefix_append _ _

end Links

section Runs

/-- The invariant of runs without a broken frame. -/
structure Linked (w : World) : Prop where
  client : Sane w.client
  shell : Sane w.shell
  up : Link w.client w.up w.shell
  down : Link w.shell w.down w.client
  silent : w.client.terminate = false

variable {w w' : World} {event : Side × Action}

theorem Moves.terminate_eq {b b' : Bridge} (moves : Moves b nin nout action b' nin' nout') :
    b'.terminate = b.terminate := by
  cases moves <;> rfl

theorem step_client (moved : Step w (.client, action) w') : ∃ b nin nout,
    Moves w.client w.down w.up action b nin nout ∧ w' = ⟨b, w.shell, nout, nin⟩ := by
  obtain ⟨⟨b, nin, nout⟩, stepped, rfl⟩ := Option.map_eq_some_iff.mp moved
  exact ⟨b, nin, nout, moves_of_move stepped, rfl⟩

theorem step_shell (moved : Step w (.shell, action) w') : ∃ b nin nout,
    Moves w.shell w.up w.down action b nin nout ∧ w' = ⟨w.client, b, nin, nout⟩ := by
  obtain ⟨⟨b, nin, nout⟩, stepped, rfl⟩ := Option.map_eq_some_iff.mp moved
  exact ⟨b, nin, nout, moves_of_move stepped, rfl⟩

theorem linked_step (linked : Linked w) (moved : Step w event w') (fine : unbroken w event) : Linked w' := by
  obtain ⟨client, shell, up, down, silent⟩ := linked
  obtain ⟨side, action⟩ := event
  cases side with
  | client =>
    obtain ⟨b, nin, nout, moves, rfl⟩ := step_client moved
    refine ⟨moves.sane client, shell, up.send client moves ?_, down.receive client moves,
      moves.terminate_eq.trans silent⟩
    rintro rfl
    cases moves with
    | answer here => exact absurd here (client.silent silent).1
  | shell =>
    obtain ⟨b, nin, nout, moves, rfl⟩ := step_shell moved
    refine ⟨client, moves.sane shell, up.receive shell moves, down.send shell moves ?_, silent⟩
    rintro rfl
    exact fine rfl

theorem linked_start : Linked .start :=
  ⟨sane_start false, sane_start true, link_start false true, link_start true false, rfl⟩

theorem Linked.transparent (linked : Linked w) : Transparent w := by
  refine ⟨linked.down.delivers, linked.up.delivers, fun returned kept => ?_, fun stopped => ?_⟩
  · exact (linked.down.stopped linked.shell (by rw [returned]; rfl)).2.2 kept
  · have owes : w.shell.receiver.owes = beBytes 4 0 := by
      rcases stopped with stopped | stopped <;> rw [stopped] <;> rfl
    have kept := linked.client.calm (linked.client.silent linked.silent).2
    exact (linked.up.stopped linked.client owes).2.2 kept

/-- Nothing comes late if nothing is written after the first terminator. -/
theorem late_step (timely : w.shell.late = false) (moved : Step w event w') (fine : orderly w event) :
    w'.shell.late = false := by
  obtain ⟨side, action⟩ := event
  cases side with
  | client =>
    obtain ⟨_, _, _, _, rfl⟩ := step_client moved
    exact timely
  | shell =>
    obtain ⟨b, nin, nout, moves, rfl⟩ := step_shell moved
    have unended := fine.2 rfl
    cases moves with
    | writeLength | writeBody | writeEnd | answer => simp [Bridge.wrote, timely, unended rfl]
    | _ => exact timely

/-- **The bridge.** In every run in which the fakeshell does not answer the
terminator in the middle of a frame, each rsync process gets the beginning of
what the other puts out, and all of it where the output was read to its end; and
when both sides are done the connection to the client is clean exactly if the
fakeshell has written nothing after its first terminator. -/
theorem bridge_transparent_and_clean (w : World) :
    (Reaches Step unbroken .start w → Transparent w ∧
      (w.client.Returned → w.shell.exited = true → (w.down = [] ↔ w.shell.late = false))) ∧
    (Reaches Step orderly .start w → Transparent w ∧ Clean w) := by
  have linked (reached : Reaches Step unbroken .start w) : Linked w :=
    reached.invariant linked_start fun _ _ _ linked moved fine => linked_step linked moved fine
  have cleared (linked : Linked w) (returned : w.client.Returned) :
      w.down = [] ↔ w.shell.late = false :=
    (linked.down.stopped linked.shell (by rw [returned.2]; rfl)).2.1
  refine ⟨fun reached => ⟨(linked reached).transparent, fun returned _ => cleared (linked reached) returned⟩,
    fun reached => ?_⟩
  have linked := linked (reached.weaken fun _ _ fine => fine.1)
  have timely : w.shell.late = false :=
    reached.invariant (motive := fun w => w.shell.late = false) rfl
      fun _ _ _ timely moved fine => late_step timely moved fine
  exact ⟨linked.transparent, fun returned _ => (cleared linked returned).mpr timely⟩

end Runs

section Traces

/-- The state a sequence of steps leads to, if each of them can be taken and
passes the check. -/
def World.play (check : World → Side × Action → Bool) (w : World) (events : List (Side × Action)) :
    Option World :=
  events.foldlM (fun w event => if check w event then w.move event else none) w

theorem reaches_of_play (check : World → Side × Action → Bool) {allowed : World → Side × Action → Prop}
    (sound : ∀ w event, check w event = true → allowed w event) (events : List (Side × Action))
    (reached : Reaches Step allowed start w) (played : w.play check events = some w') :
    Reaches Step allowed start w' := by
  induction events generalizing w with
  | nil =>
    cases played
    exact reached
  | cons event events ih =>
    rw [World.play, List.foldlM_cons] at played
    obtain ⟨between, moved, rest⟩ := Option.bind_eq_some_iff.mp played
    split at moved
    · next passed => exact ih (reached.next moved (sound w event passed)) rest
    · cases moved

/-- Whether a step is orderly. -/
def orderlyCheck (w : World) (event : Side × Action) : Bool :=
  (event ≠ (.shell, .answer) ∨ w.shell.sender.header = []) ∧
    (event.1 = .client ∨ event.2.writes = false ∨ w.shell.ended = false)

theorem orderly_of_check (w : World) (event : Side × Action) (passed : orderlyCheck w event = true) :
    orderly w event := by
  obtain ⟨whole, last⟩ := of_decide_eq_true passed
  refine ⟨fun answer buf here => ?_, fun shell writes => ?_⟩
  · have header := whole.resolve_left (not_not.mpr answer)
    rw [here] at header
    exact beBytes_ne_nil _ header
  · rw [shell, writes] at last
    simpa using last

/-- The server's rsync ends first: both loops of the fakeshell write the
terminator, and the second one stays on the connection. And an answer in the
middle of a frame: four zeros get into what the client's rsync receives. -/
theorem fakeshell_leaves_terminator :
    (∃ w, Reaches Step anyStep .start w ∧ w.client.Returned ∧ w.shell.exited = true ∧
      w.down = [0, 0, 0, 0]) ∧
    ∃ w, Reaches Step anyStep .start w ∧ w.shell.emitted = [1, 2, 3, 4, 5, 6, 7, 8] ∧
      w.client.received = [0, 0, 0, 0, 1, 2, 3, 4] := by
  refine ⟨⟨_, reaches_of_play (fun _ _ => true) (fun _ _ _ => trivial)
    [(.shell, .close), (.shell, .readEnd), (.shell, .writeEnd), (.client, .readLength), (.client, .close),
      (.client, .readEnd), (.client, .writeEnd), (.shell, .readLength), (.shell, .answer), (.shell, .exit)]
    .refl rfl, by decide⟩, ?_⟩
  exact ⟨_, reaches_of_play (fun _ _ => true) (fun _ _ _ => trivial)
    [(.client, .close), (.client, .readEnd), (.client, .writeEnd), (.shell, .readLength),
      (.shell, .emit [1, 2, 3, 4, 5, 6, 7, 8]), (.shell, .read 8), (.shell, .writeLength), (.shell, .answer),
      (.shell, .writeBody), (.client, .readLength), (.client, .readBody), (.client, .deliver)]
    .refl rfl, by decide⟩

/-- The client's rsync ends first, while the fakeshell waits for more: what
both have said has arrived, and the connection is clean. -/
theorem client_ends_first : ∃ w, Reaches Step orderly .start w ∧ w.client.Returned ∧ w.shell.exited = true ∧
    w.shell.received = [1, 2, 3] ∧ w.client.received = [9] ∧ Transparent w ∧ Clean w := by
  have run : ∃ w, Reaches Step orderly .start w ∧ w.client.Returned ∧ w.shell.exited = true ∧
      w.shell.received = [1, 2, 3] ∧ w.client.received = [9] :=
    ⟨_, reaches_of_play orderlyCheck orderly_of_check
      [(.client, .emit [1, 2, 3]), (.client, .read 3), (.client, .writeLength), (.client, .writeBody),
        (.shell, .readLength), (.shell, .readBody), (.shell, .deliver), (.shell, .emit [9]), (.shell, .read 1),
        (.shell, .writeLength), (.shell, .writeBody), (.client, .readLength), (.client, .readBody),
        (.client, .deliver), (.client, .close), (.client, .readEnd), (.client, .writeEnd),
        (.shell, .readLength), (.shell, .answer), (.shell, .exit), (.client, .readLength)] .refl rfl, by decide⟩
  obtain ⟨w, reached, returned, exited, to_shell, to_client⟩ := run
  exact ⟨w, reached, returned, exited, to_shell, to_client, (bridge_transparent_and_clean w).2 reached⟩

end Traces

end Fsyncer.RsyncBridge
