import Fsyncer.ReplicationConvergence

/-! Corking. The server holds back operations and every client is sent a cork,
which it answers once its receive loop gets to it. What the client has put on its
pool by then may still be unfinished, and a cork that another control client
lowers in the meantime holds nothing back. -/
namespace Fsyncer.Replication
open Interleaving Vfs
open Bilog (emptyStore)

variable {σ : Type} {setup : Setup σ}

namespace Client

variable {k k' : Client σ} {fs : FileSystem σ}

/-! ### What was sent and what was executed -/

/-- The client executes what it is sent, each operation once. -/
def Whole (k : Client σ) : Prop := k.written.Perm (k.ran ++ k.todo)

theorem Whole.shift (whole : k.Whole) (shift : Shift fs k k') : k'.Whole := by
  unfold Whole at whole ⊢
  cases shift with
  | more ops store ran todo written =>
    rw [written, ran, todo, ← List.append_assoc]
    exact whole.append_right ops
  | ran front job back rest split pending store ran before after written =>
    rw [written, ran, after, List.append_assoc]
    rw [before] at whole
    exact whole.trans (List.perm_middle.append_left k.ran)

theorem Fresh.todo (fresh : k.Fresh) : k.todo = [] := by
  simp [Client.todo, unrun, fresh.jobs, fresh.net, Fifo.empty]

theorem Fresh.whole (fresh : k.Fresh) : k.Whole := by
  unfold Whole
  rw [fresh.written, fresh.ran, fresh.todo]
  exact .nil

theorem Shift.quiet (shift : Shift fs k k') (unsent : k'.written = k.written) (done : k.todo = []) : k'.todo = [] := by
  cases shift with
  | more ops store ran todo written =>
    have nothing : ops = [] := List.append_right_eq_self.mp (written.symm.trans unsent)
    rw [todo, done, nothing]
    rfl
  | ran front job back rest split pending store ran before after written =>
    rw [done] at before
    simp at before

/-! ### Corks -/

/-- The corks of reader `c` that the client has still to answer, or has answered
without the reader's having looked. -/
def corks (k : Client σ) (c : ℕ) : ℕ :=
  k.net.write.waiting.count (.cork c) + k.answers.waiting.count (.ackCork c) +
    (k.net.parked (.reader c)).join.isSome.toNat

/-- Nothing is left to do, or nothing will be when the cork is answered. -/
def Heeds (k : Client σ) (c : ℕ) : Prop :=
  k.todo = [] ∨ ∃ front back, k.net.write.waiting = front ++ .cork c :: back ∧ back.filterMap FsyncerMsg.op = []

theorem Fresh.corks (fresh : k.Fresh) (c : ℕ) : k.corks c = 0 := by
  simp [Client.corks, fresh.net, fresh.answers, Fifo.empty]

/-- An answered cork is not on its way any more. -/
theorem Heeds.answered (heeds : k.Heeds c) (once : k.corks c ≤ 1)
    (filled : k.net.parked (.reader c) = some (some reply)) : k.todo = [] := by
  obtain done | ⟨front, back, waiting, _⟩ := heeds
  · exact done
  · have more : 0 < k.net.write.waiting.count (.cork c) := List.count_pos_iff.mpr (by simp [waiting])
    simp only [Client.corks, filled, Option.join_some, Option.isSome_some, Bool.toNat_true] at once
    omega

theorem corks_responseMsg (sent : k.responseMsg msg flush wantResponse tid cut = (k', result)) (c : ℕ) :
    k'.corks c ≤ k.corks c + if msg = .cork c then 1 else 0 := by
  obtain ⟨_, rfl, _⟩ | ⟨_, messages, parked, status, rfl, among, slots, _⟩ := responseMsg_cases sent
  · omega
  · have asked : messages.count (.cork c) ≤ if msg = .cork c then 1 else 0 := by
      refine (among.sublist.count_le _).trans (Nat.le_of_eq ?_)
      by_cases same : msg = .cork c <;> simp [same]
    simp only [corks, Fifo.waiting_push, List.count_append, slots]
    omega

theorem corks_sendOp (sent : k.sendOp op t cut = (k', awaited)) (c : ℕ) : k'.corks c ≤ k.corks c := by
  obtain ⟨_, rfl, _⟩ | ⟨msg, sync, result, message, sent, _⟩ := sendOp_cases sent
  · exact Nat.le_refl _
  · have operation := opMsg_op message
    have more := corks_responseMsg sent c
    rwa [if_neg (by rintro rfl; cases operation)] at more

theorem corks_process (next : k.net.write.waiting = msg :: rest) (c : ℕ) : (k.process msg).corks c = k.corks c := by
  have net := k.net_process msg
  have answers : (k.process msg).answers.waiting.count (.ackCork c) =
      k.answers.waiting.count (.ackCork c) + if msg = .cork c then 1 else 0 := by
    cases msg with
    | syncOp op tid =>
      simp only [process]
      split <;> simp [answer]
    | cork tid => by_cases same : tid = c <;> simp [process, answer, same]
    | _ => simp [process]
  unfold corks
  rw [answers, net, next, Fifo.waiting_pop, next, List.tail_cons, List.count_cons]
  by_cases same : msg = .cork c
  · simp [same]
    omega
  · simp [same]

theorem corks_step (moves : ClientStep fs k action k') (c : ℕ) : k'.corks c = k.corks c := by
  cases moves with
  | receive free next => exact corks_process next c
  | finish split done =>
    unfold acknowledge
    split <;> simp [corks, answer]
  | run split pending => rfl
  | requestCork control | requestUncork control => simp [corks, answer]

theorem corks_hear (next : k.answers.waiting = msg :: rest) (c : ℕ) : (k.hear msg).corks c ≤ k.corks c := by
  obtain ⟨_, _, _, write, _, popped, _⟩ := k.hear_rest msg
  have slot : (((k.hear msg).net.parked (.reader c)).join.isSome).toNat ≤
      ((k.net.parked (.reader c)).join.isSome).toNat + if msg = .ackCork c then 1 else 0 := by
    cases msg with
    | ackCork tid =>
      simp only [hear]
      split
      · by_cases same : c = tid <;> simp [notify, same]
      · exact Nat.le_add_right _ _
    | ack retcode tid op => simp [hear, notify]
    | _ => simp [hear]
  unfold corks
  rw [write, popped, Fifo.waiting_pop, next, List.tail_cons, List.count_cons]
  by_cases same : msg = .ackCork c <;> simp [same] at slot ⊢ <;> omega

theorem corks_take (k : Client σ) (tid : ThreadId) (c : ℕ) : (k.take tid).corks c ≤ k.corks c := by
  refine Nat.add_le_add_left ?_ _
  by_cases same : ThreadId.reader c = tid <;> simp [take, same]

theorem corks_take_self (filled : k.net.parked (.reader c) = some (some reply)) :
    (k.take (.reader c)).corks c + 1 = k.corks c := by
  simp [corks, take, filled]

/-- More messages without operations make no difference. -/
theorem Heeds.responseMsg (heeds : k.Heeds c) (unsent : k'.written = k.written)
    (sent : k.responseMsg msg flush wantResponse tid cut = (k', result)) : k'.Heeds c := by
  obtain ⟨_, rfl, _⟩ | ⟨_, messages, parked, status, rfl, _⟩ := responseMsg_cases sent
  · exact heeds
  · have nothing : messages.filterMap FsyncerMsg.op = [] := by simpa [written] using unsent
    obtain done | ⟨front, back, waiting, silent⟩ := heeds
    · exact .inl (by simpa [todo, nothing] using done)
    · exact .inr ⟨front, back ++ messages, by simp [waiting], by rw [List.filterMap_append, silent, nothing]; rfl⟩

/-- The client goes on towards the cork. When it gets there, all is done. -/
theorem Heeds.step (heeds : k.Heeds c) (moves : ClientStep fs k action k')
    (quiet : action = .receive → ∀ rest, k.net.write.waiting = .cork c :: rest → unrun k.jobs = []) : k'.Heeds c := by
  obtain done | ⟨front, back, waiting, silent⟩ := id heeds
  · exact .inl ((shift_of_step moves).quiet (step_kept moves).written done)
  cases moves with
  | @receive msg rest _ free next =>
    cases front with
    | nil =>
      obtain ⟨rfl, rfl⟩ : msg = .cork c ∧ rest = back := by simpa [next] using waiting
      refine .inl ?_
      rw [todo_process next, todo, quiet rfl rest next, next]
      exact silent
    | cons first front =>
      refine .inr ⟨front, back, ?_, silent⟩
      rw [k.net_process, Fifo.waiting_pop, waiting]
      rfl
  | finish split done =>
    unfold acknowledge
    split <;> exact .inr ⟨front, back, waiting, silent⟩
  | _ => exact .inr ⟨front, back, waiting, silent⟩

end Client

/-! ### The readers -/

/-- Within `cork_server`, once `CORK` is raised. -/
def Reader.corks : Reader → Bool
  | .raised | .corking _ _ | .awaiting _ _ _ => true
  | _ => false

/-- Within `cork_server`, with a guard of `SYNC_LIST`. -/
def Reader.lists : Reader → Bool
  | .corking _ _ | .awaiting _ _ _ => true
  | _ => false

/-- The clients that were corked with success. -/
def Reader.corked : Reader → List ℕ
  | .corking _ corked | .awaiting _ _ corked => corked
  | _ => []

def Reader.awaits : Reader → Option ℕ
  | .awaiting d _ _ => some d
  | _ => none

/-- Everything that can happen to the reader of client `c` in one step. -/
inductive Turn (w w' : World σ) (c : ℕ) : Event σ → Reader → Reader → Prop where
  | same : Turn w w' c e pc pc
  | apart (before : pc.corks = false) (goesOn : pc ≠ .gone) (after : pc'.corks = false) : Turn w w' c e pc pc'
  | raise (free : w.holder = none) (unheld : w'.holder = none) (up : w'.corked = true) : Turn w w' c e .raising .raised
  | list (guard : .reader c ∈ w'.guards) : Turn w w' c e .raised (.corking w.syncList [])
  | sent (turn : e = .corkSend c cut) (known : w.clients d = some k) (there : w'.clients d = some k')
      (sent : k.responseMsg (.cork c) true (k.mode ≠ .control) (.reader c) cut = (k', result)) :
      Turn w w' c e (.corking (d :: rest) corked) (.afterCork d rest corked result)
  | taken (turn : e = .corkTake c) (known : w.clients d = some k) (there : w'.clients d = some (k.take (.reader c)))
      (filled : k.net.parked (.reader c) = some (some reply)) :
      Turn w w' c e (.awaiting d rest corked) (.corking rest (corked ++ [d]))
  | timedOut : Turn w w' c e (.awaiting d rest corked) .gone
  | done : Turn w w' c e (.corking [] corked) .listening

theorem readers_setReader (w : World σ) (d : ℕ) (pc : Reader) (c : ℕ) :
    (w.setReader d pc).readers c = if c = d then pc else w.readers c :=
  Function.update_apply ..

theorem after_corks (msg : FsyncerMsg) : (Reader.after msg).corks = false := by
  cases msg <;> rfl

theorem Step.turn {w w' : World σ} (step : Step setup w e w') (c : ℕ) : Turn w w' c e (w.readers c) (w'.readers c) := by
  have moved : ∀ {d : ℕ} {pc : Reader}, w'.readers = (w.setReader d pc).readers →
      (d = c → Turn w w' c e (w.readers c) pc) → Turn w w' c e (w.readers c) (w'.readers c) := by
    intro d pc readers turn
    rw [readers, readers_setReader]
    split
    · next same => exact turn same.symm
    · exact .same
  cases step with
  | @hear k msg rest _ d here known next =>
    exact moved rfl fun same => .apart (by rw [← same, here]; rfl) (by rw [← same, here]; exact Reader.noConfusion)
      (after_corks msg)
  | @readFails k _ d here known =>
    exact moved rfl fun same => .apart (by rw [← same, here]; rfl) (by rw [← same, here]; exact Reader.noConfusion) rfl
  | raiseCork here free => exact moved rfl fun same => by rw [← same, here]; exact .raise free free rfl
  | corkList here => exact moved rfl fun same => by rw [← same, here]; exact .list List.mem_cons_self
  | @corkSend k k' result _ d cut l rest corked here known sent =>
    refine moved rfl fun same => ?_
    subst same
    rw [here]
    exact .sent rfl known (by simp [World.setClient, World.setReader]) sent
  | @corkTake k reply _ d l rest corked here known filled =>
    refine moved rfl fun same => ?_
    subst same
    rw [here]
    exact .taken rfl known (by simp [World.setClient, World.setReader]) filled
  | corkTimeOut here => exact moved rfl fun same => by rw [← same, here]; exact .timedOut
  | corkDone here => exact moved rfl fun same => by rw [← same, here]; exact .done
  | uncorkList here | uncorkDone here =>
    exact moved rfl fun same => .apart (by rw [← same, here]; rfl) (by rw [← same, here]; exact Reader.noConfusion) rfl
  | uncorkSend here known sent | lowerCork here free =>
    exact moved rfl fun same => .apart (by rw [← same, here]; rfl) (by rw [← same, here]; exact Reader.noConfusion) rfl
  | _ => exact .same

/-! ### What a cork achieves -/

/-- A client gets to a cork only when it has executed what it was sent before, and
nobody lowers the cork while another control client has it raised. -/
def Quiet (w : World σ) : Event σ → Prop
  | .client d .receive => ∀ k c rest, w.clients d = some k → k.net.write.waiting = .cork c :: rest →
      Client.unrun k.jobs = []
  | .lowerCork _ => ∀ c, (w.readers c).corks = false
  | _ => True

/-- What is known of the clients while a reader corks them. -/
structure Corked (w : World σ) : Prop where
  raised : ∀ c, (w.readers c).corks = true → w.corked = true ∧ w.holder = none
  guarded : ∀ c, (w.readers c).lists = true → .reader c ∈ w.guards
  whole : ∀ d k, w.clients d = some k → k.Whole
  control : ∀ d k, w.clients d = some k → k.mode = .control → k.written = []
  quiesced : ∀ c, ∀ d ∈ (w.readers c).corked, ∀ k, w.clients d = some k → k.todo = []
  awaited : ∀ c d k, (w.readers c).awaits = some d → w.clients d = some k → k.corks c ≤ 1 ∧ k.Heeds c
  clear : ∀ c d k, w.clients d = some k → k.mode ≠ .control → k.net.status = .alive → w.readers c ≠ .gone →
    (w.readers c).awaits ≠ some d → k.corks c = 0

variable {w w' : World σ} {k k' : Client σ}

/-- Once raised, the cork stays so. -/
theorem Step.cork_kept (step : Step setup w e w') (keeps : ∀ c, e ≠ .lowerCork c) (up : w.corked = true)
    (free : w.holder = none) : w'.corked = true ∧ w'.holder = none := by
  cases step with
  | lockCork here unheld uncorked => cases uncorked.symm.trans up
  | unlockCork here => exact ⟨up, rfl⟩
  | raiseCork here unheld => exact ⟨rfl, free⟩
  | lowerCork here unheld => exact absurd rfl (keeps _)
  | _ => exact ⟨up, free⟩

theorem nobody_sends (locks : Locks w) (free : w.holder = none) : w.workers t ≠ .sending op rest waits := by
  intro here
  have holds := (locks.held t).mpr (by rw [here]; trivial)
  cases free.symm.trans holds

/-- No operation is sent while nobody holds `CORK`. -/
theorem Step.unsent (step : Step setup w e w') (locks : Locks w) (free : w.holder = none)
    (known : w.clients c = some k) (there : w'.clients c = some k') : k'.written = k.written := by
  obtain ⟨l, found, outcome⟩ := step.written known
  obtain rfl : l = k' := Option.some.inj (found.symm.trans there)
  obtain kept | ⟨_, rfl⟩ | ⟨t, op, rest, waits, _, _, here, _⟩ := outcome
  · exact kept.written
  · rfl
  · exact absurd here (nobody_sends locks free)

theorem Step.was_alive (step : Step setup w e w') (known : w.clients c = some k) (there : w'.clients c = some k')
    (alive : k'.net.status = .alive) : k.net.status = .alive := by
  obtain ⟨l, found, outcome⟩ := step.written known
  obtain rfl : l = k' := Option.some.inj (found.symm.trans there)
  obtain kept | ⟨_, rfl⟩ | ⟨t, op, rest, waits, _, _, _, sent⟩ := outcome
  · exact kept.alive alive
  · exact alive
  · obtain ⟨_, rfl, _⟩ | ⟨msg, sync, result, message, sent, _⟩ := Client.sendOp_cases sent
    · exact alive
    · obtain ⟨_, rfl, _⟩ | ⟨alive, _⟩ := Client.responseMsg_cases sent
      · exact alive
      · exact alive

theorem Step.guard_kept (step : Step setup w e w') (member : .reader c ∈ w.guards)
    (still : (w'.readers c).lists = true) : .reader c ∈ w'.guards := by
  have other : ∀ {d : ℕ} {pc : Reader}, w'.readers = (w.setReader d pc).readers → pc.lists = false →
      .reader c ∈ w.guards.erase (.reader d) := by
    intro d pc readers unlisted
    refine (List.mem_erase_of_ne ?_).mpr member
    rintro same
    cases same
    rw [readers, readers_setReader, if_pos rfl, unlisted] at still
    cases still
  cases step with
  | readList here | corkList here | uncorkList here => exact List.mem_cons_of_mem _ member
  | journal here passes => exact (List.mem_erase_of_ne ThreadId.noConfusion).mpr member
  | corkTimeOut here | corkDone here | uncorkDone here => exact other rfl rfl
  | _ => exact member

/-- A client that was not there before has just connected. -/
theorem Step.fresh (step : Step setup w e w') (absent : w.clients d = none) (there : w'.clients d = some k') :
    k'.Fresh := by
  obtain known | rfl := step.client_origin there
  · exact absurd absent known
  · cases step with
    | connect asks accepted unused =>
      obtain ⟨_, rfl⟩ | ⟨other, _⟩ := clients_setClient (w := w) there
      · exact fromStream_fresh accepted
      · exact absurd rfl other

/-- How many corks of reader `c` a client has to answer, step by step. -/
theorem Step.corks (step : Step setup w e w') (known : w.clients d = some k) (there : w'.clients d = some k') (c : ℕ) :
    k'.corks c ≤ k.corks c ∨
      (∃ cut rest done, e = .corkSend c cut ∧ w.readers c = .corking (d :: rest) done) ∨
      e = .harvest d ∧ k.net.status = .dead := by
  cases step.touch_of known there with
  | same => exact .inl (Nat.le_refl _)
  | sent turn here sent => exact .inl (Client.corks_sendOp sent c)
  | taken turn here filled | corkTaken turn here filled => exact .inl (k.corks_take _ c)
  | moved turn moves => exact .inl (Nat.le_of_eq (Client.corks_step moves c))
  | heard turn next => exact .inl (Client.corks_hear next c)
  | died turn => exact .inl (Nat.le_refl _)
  | corked turn here sent =>
    have more := Client.corks_responseMsg sent c
    split at more
    · next same =>
      cases same
      exact .inr (.inl ⟨_, _, _, turn, here⟩)
    · exact .inl more
  | uncorked turn here sent | flushed turn sent =>
    have more := Client.corks_responseMsg sent c
    exact .inl (by simpa using more)
  | pushed turn ready => exact .inl (Nat.le_refl _)
  | dropped turn dead => exact .inr (.inr ⟨turn, dead⟩)

theorem Touch.heeds (touch : Touch setup w d e k k') (unsent : k'.written = k.written)
    (quiet : e = .client d .receive → ∀ rest, k.net.write.waiting = .cork c :: rest → Client.unrun k.jobs = [])
    (heeds : k.Heeds c) : k'.Heeds c := by
  cases touch with
  | sent turn here sent =>
    obtain ⟨_, rfl, _⟩ | ⟨msg, sync, result, message, sent, _⟩ := Client.sendOp_cases sent
    · exact heeds
    · exact heeds.responseMsg unsent sent
  | moved turn moves => exact heeds.step moves fun receives => quiet (receives ▸ turn)
  | heard turn next =>
    unfold Client.Heeds Client.todo at heeds ⊢
    rwa [(k.hear_rest _).2.2.1, (k.hear_rest _).2.2.2.1]
  | corked turn here sent | uncorked turn here sent | flushed turn sent => exact heeds.responseMsg unsent sent
  | _ => exact heeds

namespace Corked

theorem raised_step (corked : Corked w) (step : Step setup w e w') (quiet : Quiet w e)
    (corks : (w'.readers c).corks = true) : w'.corked = true ∧ w'.holder = none := by
  have stays : (w.readers c).corks = true → w'.corked = true ∧ w'.holder = none := by
    intro corks
    obtain ⟨up, free⟩ := corked.raised c corks
    refine step.cork_kept ?_ up free
    rintro d rfl
    cases (quiet c).symm.trans corks
  have turn := step.turn c
  generalize w.readers c = pc at turn stays
  generalize w'.readers c = pc' at turn corks
  cases turn with
  | apart before goesOn after => cases after.symm.trans corks
  | raise free unheld up => exact ⟨up, unheld⟩
  | timedOut | done => cases corks
  | same => exact stays corks
  | _ => exact stays rfl

theorem guarded_step (corked : Corked w) (step : Step setup w e w') (lists : (w'.readers c).lists = true) :
    .reader c ∈ w'.guards := by
  have stays : (w.readers c).lists = true → .reader c ∈ w'.guards := fun before =>
    step.guard_kept (corked.guarded c before) lists
  have turn := step.turn c
  generalize w.readers c = pc at turn stays
  generalize w'.readers c = pc' at turn lists
  cases turn with
  | same => exact stays lists
  | apart before goesOn after => cases pc' <;> cases after <;> cases lists
  | list guard => exact guard
  | sent turn known there sent | taken turn known there filled => exact stays rfl
  | _ => cases lists

theorem whole_step (corked : Corked w) (step : Step setup w e w') (there : w'.clients d = some k') : k'.Whole := by
  cases known : w.clients d with
  | none => exact (step.fresh known there).whole
  | some k => exact (corked.whole d k known).shift (step.touch_of known there).shift

theorem control_step (corked : Corked w) (step : Step setup w e w') (there : w'.clients d = some k')
    (control : k'.mode = .control) : k'.written = [] := by
  cases known : w.clients d with
  | none => exact (step.fresh known there).written
  | some k =>
    have mode := (step.stable known there).1
    have before := corked.control d k known (mode ▸ control)
    obtain ⟨l, found, outcome⟩ := step.written known
    obtain rfl : l = k' := Option.some.inj (found.symm.trans there)
    obtain kept | ⟨_, rfl⟩ | ⟨t, op, rest, waits, _, _, here, sent⟩ := outcome
    · exact kept.written.trans before
    · exact before
    · obtain ⟨_, rfl, _⟩ | ⟨msg, sync, result, message, _⟩ := Client.sendOp_cases sent
      · exact before
      · simp [Client.opMsg, mode ▸ control] at message

/-- What is done stays done while no operation is sent. -/
theorem todo_step (step : Step setup w e w') (locks : Locks w) (free : w.holder = none)
    (done : ∀ k, w.clients d = some k → k.todo = []) (there : w'.clients d = some k') : k'.todo = [] := by
  cases known : w.clients d with
  | none => exact (step.fresh known there).todo
  | some k => exact (step.touch_of known there).shift.quiet (step.unsent locks free known there) (done k known)

theorem quiesced_step (corked : Corked w) (step : Step setup w e w') (locks : Locks w)
    (among : d ∈ (w'.readers c).corked) (there : w'.clients d = some k') : k'.todo = [] := by
  have stays : (w.readers c).corks = true → d ∈ (w.readers c).corked → k'.todo = [] := fun corks before =>
    todo_step step locks (corked.raised c corks).2 (corked.quiesced c d before) there
  have awaited := corked.awaited c
  have turn := step.turn c
  generalize w.readers c = pc at turn stays awaited
  generalize w'.readers c = pc' at turn among
  cases turn with
  | same => cases pc <;> first | exact stays rfl among | cases among
  | apart before goesOn after => cases pc' <;> cases after <;> cases among
  | @sent _ l k l' cut result rest done turn known there' sent =>
    obtain before | ⟨same, unasked⟩ : d ∈ done ∨ d = l ∧ result = some false := by
      cases result with
      | none => exact .inl among
      | some asked =>
        cases asked with
        | true => exact .inl among
        | false => exact (List.mem_append.mp among).imp_right fun new => ⟨List.mem_singleton.mp new, rfl⟩
    · exact stays rfl before
    · -- A client that is not waited for is a control client.
      subst same unasked
      cases there.symm.trans there'
      have control : k.mode = .control := by
        obtain ⟨_, _, absent⟩ | ⟨_, _, _, _, _, _, _, ⟨_, _, _, asked⟩ | ⟨_, _, absent⟩⟩ := Client.responseMsg_cases sent
        · cases absent
        · simpa using asked
        · cases absent
      have written := corked.control_step step there ((step.stable known there).1.trans control)
      have whole := corked.whole_step step there
      rw [Client.Whole, written] at whole
      exact (List.append_eq_nil_iff.mp whole.symm.eq_nil).2
  | taken turn known there' filled =>
    obtain before | new := List.mem_append.mp among
    · exact stays rfl before
    · cases List.mem_singleton.mp new
      cases there.symm.trans there'
      obtain ⟨once, heeds⟩ := awaited _ _ rfl known
      exact heeds.answered once filled
  | _ => cases among

theorem awaited_step (corked : Corked w) (step : Step setup w e w') (locks : Locks w) (quiet : Quiet w e)
    (awaits : (w'.readers c).awaits = some d) (there : w'.clients d = some k') : k'.corks c ≤ 1 ∧ k'.Heeds c := by
  have stays : (w.readers c).awaits = some d → k'.corks c ≤ 1 ∧ k'.Heeds c := by
    intro before
    obtain ⟨rest, done, here⟩ : ∃ rest done, w.readers c = .awaiting d rest done := by
      cases pc : w.readers c with
      | awaiting l rest done =>
        rw [pc] at before
        cases before
        exact ⟨rest, done, rfl⟩
      | _ => rw [pc] at before; cases before
    cases known : w.clients d with
    | none =>
      have fresh := step.fresh known there
      exact ⟨by rw [fresh.corks]; omega, .inl fresh.todo⟩
    | some k =>
      obtain ⟨once, heeds⟩ := corked.awaited c d k before known
      have free := (corked.raised c (by rw [here]; rfl)).2
      refine ⟨?_, ?_⟩
      · obtain less | ⟨_, _, _, _, other⟩ | ⟨rfl, _⟩ := step.corks known there c
        · exact less.trans once
        · cases here.symm.trans other
        · -- Nobody is harvested while the reader holds the list.
          have guard := corked.guarded c (by rw [here]; rfl)
          cases step with
          | harvest listed known' dead unread => rw [unread] at guard; cases guard
      · refine (step.touch_of known there).heeds (step.unsent locks free known there) ?_ heeds
        rintro rfl rest next
        exact quiet k c rest known next
  have clear := corked.clear c d
  have turn := step.turn c
  generalize w.readers c = pc at turn stays clear
  generalize w'.readers c = pc' at turn awaits
  cases turn with
  | same => exact stays awaits
  | apart before goesOn after => cases pc' <;> cases after <;> cases awaits
  | @sent _ l k l' cut result rest done turn known there' sent =>
    -- The reader begins to wait, for a client that has no older cork of it.
    obtain ⟨rfl, rfl⟩ : result = some true ∧ l = d := by
      cases result with
      | none => cases awaits
      | some asked => cases asked <;> cases awaits; exact ⟨rfl, rfl⟩
    cases there.symm.trans there'
    have more := Client.corks_responseMsg sent c
    obtain ⟨_, _, absent⟩ | ⟨alive, messages, parked, status, rfl, among, _, outcome⟩ := Client.responseMsg_cases sent
    · cases absent
    · obtain ⟨_, _, member, asked⟩ | ⟨_, _, absent⟩ := outcome
      · have data : k.mode ≠ .control := by simpa using asked
        rw [if_pos rfl, clear k known data alive Reader.noConfusion (by rintro ⟨⟩)] at more
        refine ⟨more, .inr ?_⟩
        cases messages with
        | nil => cases member
        | cons msg back =>
          obtain ⟨rfl, among⟩ := List.cons_prefix_cons.mp among
          exact ⟨k.net.write.waiting, back, rfl, List.prefix_nil.mp (among.filterMap FsyncerMsg.op)⟩
      · cases absent
  | _ => cases awaits

theorem clear_step (corked : Corked w) (step : Step setup w e w') (there : w'.clients d = some k')
    (data : k'.mode ≠ .control) (alive : k'.net.status = .alive) (goesOn : w'.readers c ≠ .gone)
    (elsewhere : (w'.readers c).awaits ≠ some d) : k'.corks c = 0 := by
  cases known : w.clients d with
  | none => exact (step.fresh known there).corks c
  | some k =>
    have before := corked.clear c d k known ((step.stable known there).1 ▸ data) (step.was_alive known there alive)
    obtain less | ⟨cut, rest, done, rfl, here⟩ | ⟨_, dead⟩ := step.corks known there c
    · have awaited := corked.awaited c d k
      have turn := step.turn c
      generalize w.readers c = pc at turn before awaited
      generalize w'.readers c = pc' at turn elsewhere goesOn
      have unasked : pc ≠ .gone → pc.awaits ≠ some d → k'.corks c = 0 := fun going apart =>
        Nat.le_zero.mp (before going apart ▸ less)
      cases turn with
      | same => exact unasked goesOn elsewhere
      | apart outside going after => exact unasked going (by cases pc <;> cases outside <;> rintro ⟨⟩)
      | timedOut => exact absurd rfl goesOn
      | @taken _ l k reply rest done turn known' there' filled =>
        by_cases same : l = d
        · subst same
          cases known.symm.trans known'
          cases there.symm.trans there'
          have once := (awaited rfl known).1
          have taken := Client.corks_take_self filled
          omega
        · exact unasked Reader.noConfusion (by rintro ⟨⟩; exact same rfl)
      | _ => exact unasked Reader.noConfusion (by rintro ⟨⟩)
    · -- The cork has just been sent, and the reader does not wait.
      cases step with
      | @corkSend k _ result _ _ _ _ _ _ here' known' sent =>
        cases here.symm.trans here'
        cases known.symm.trans known'
        obtain ⟨_, rfl⟩ | ⟨other, _⟩ := clients_setClient (w := w) there
        · obtain ⟨dead, rfl, _⟩ | ⟨_, _, _, _, rfl, _, _, outcome⟩ := Client.responseMsg_cases sent
          · cases dead.symm.trans alive
          · obtain ⟨_, _, _, asked⟩ | ⟨dead, _⟩ := outcome
            · have waits : result = some true := by simpa [show k.mode ≠ .control from data] using asked
              rw [waits, readers_setReader, if_pos rfl] at elsewhere
              exact absurd rfl elsewhere
            · cases dead.symm.trans alive
        · exact absurd rfl other
    · cases dead.symm.trans (step.was_alive known there alive)

theorem step (corked : Corked w) (locks : Locks w) (step : Step setup w e w') (quiet : Quiet w e) : Corked w' where
  raised _ := corked.raised_step step quiet
  guarded _ := corked.guarded_step step
  whole _ _ := corked.whole_step step
  control _ _ := corked.control_step step
  quiesced _ _ among _ := corked.quiesced_step step locks among
  awaited _ _ _ := corked.awaited_step step locks quiet
  clear _ _ _ := corked.clear_step step

end Corked

theorem AtRest.corked (rest : AtRest w) : Corked w where
  raised := by simp [rest.readers, Reader.corks]
  guarded := by simp [rest.readers, Reader.lists]
  whole d k known := (rest.fresh d k known).whole
  control d k known _ := (rest.fresh d k known).written
  quiesced := by simp [rest.readers, Reader.corked]
  awaited := by simp [rest.readers, Reader.awaits]
  clear c d k known _ _ _ _ := (rest.fresh d k known).corks c

/-- The operations that were sent to a client, none if there is no such client. -/
def World.sentTo (w : World σ) (d : ℕ) : List Op := ((w.clients d).map Client.written).getD []

/-- Nothing is handed out while nobody holds `CORK`. -/
theorem Step.silent (step : Step setup w e w') (locks : Locks w) (free : w.holder = none) :
    w'.order = w.order ∧ ∀ d, w'.sentTo d = w.sentTo d := by
  refine ⟨?_, fun d => ?_⟩
  · cases step with
    | readList here =>
      have holds := (locks.held _).mpr (by rw [here]; trivial)
      cases free.symm.trans holds
    | _ => rfl
  · unfold World.sentTo
    cases known : w.clients d with
    | none =>
      cases there : w'.clients d with
      | none => rfl
      | some k' => exact (step.fresh known there).written
    | some k =>
      obtain ⟨k', there, _⟩ := step.touch known
      rw [there]
      exact step.unsent locks free known there

/-- In a run of quiet steps, when a reader is through with `cork_server`, every
client that was corked with success has executed exactly what it was sent. From
then on, as long as nobody lowers the cork, nothing is handed out and no operation
is sent to anybody. -/
theorem quiet_cork_quiesces {start w : World σ} (rest : AtRest start) (reached : Reaches (Step setup) Quiet start w)
    (returns : w.readers c = .corking [] corked) :
    (∀ d ∈ corked, ∀ k, w.clients d = some k → k.todo = [] ∧ k.written.Perm k.ran) ∧
    ∀ w', Reaches (Step setup) (fun _ e => ∀ r, e ≠ .lowerCork r) w w' →
      w'.order = w.order ∧ ∀ d, w'.sentTo d = w.sentTo d := by
  have inv : Coherent w ∧ Corked w := by
    refine reached.invariant (motive := fun w => Coherent w ∧ Corked w) ⟨rest.coherent, rest.corked⟩ ?_
    rintro s e s' ⟨coherent, corked⟩ step quiet
    exact ⟨coherent.step step, corked.step coherent.locks step quiet⟩
  obtain ⟨coherent, inv⟩ := inv
  obtain ⟨up, free⟩ := inv.raised c (by rw [returns]; rfl)
  refine ⟨fun d among k known => ?_, fun w' later => ?_⟩
  · have done := inv.quiesced c d (by rw [returns]; exact among) k known
    have whole := inv.whole d k known
    rw [Client.Whole, done, List.append_nil] at whole
    exact ⟨done, whole⟩
  · refine (later.invariant (motive := fun s => Locks s ∧ s.corked = true ∧ s.holder = none ∧
      s.order = w.order ∧ ∀ d, s.sentTo d = w.sentTo d) ⟨coherent.locks, up, free, rfl, fun _ => rfl⟩ ?_).2.2.2
    rintro s e s' ⟨locks, up, free, order, sent⟩ step keeps
    obtain ⟨up', free'⟩ := step.cork_kept keeps up free
    obtain ⟨order', sent'⟩ := step.silent locks free
    exact ⟨locks.step step, up', free', order'.trans order, fun d => (sent' d).trans (sent d)⟩

/-- A synchronous client with a pool answers the cork before the pool gets to the
operation. And a control client lowers the cork that another one has just raised:
the client is sent an operation after it was corked. -/
theorem cork_leaves_work :
    (∃ w k, Reaches (Step (demoSetup none)) anyStep (.start emptyStore
        [.connected .sync false true emptyStore none, .connected .control false false emptyStore none]) w ∧
      w.readers 1 = .corking [] [0, 1] ∧ w.clients 0 = some k ∧ k.todo = [⟨0, demoCall 97⟩]) ∧
    ∃ w k, Reaches (Step (demoSetup none)) anyStep (demoStart [.async, .control, .control]) w ∧
      w.readers 1 = .corking [] [0, 1, 2] ∧ w.clients 0 = some k ∧ k.todo = [⟨0, demoCall 97⟩] := by
  refine ⟨?_, ?_⟩
  · have started : Reaches (Step (demoSetup none)) anyStep (.start emptyStore
      [.connected .sync false true emptyStore none, .connected .control false false emptyStore none]) _ := .refl
    have sent := (started.next (e := .enter 0 (demoCall 97)) (.enter rfl) trivial
      |>.next (e := .lockCork 0) (.lockCork rfl rfl rfl) trivial
      |>.next (e := .readList 0) (.readList rfl) trivial
      |>.next (e := .send 0 none) (.send rfl rfl rfl) trivial
      |>.next (e := .send 0 none) (.send rfl rfl rfl) trivial
      |>.next (e := .unlockCork 0) (.unlockCork rfl) trivial
      |>.next (e := .client 0 .receive) (.client rfl (.receive (fun _ busy => by cases busy) rfl)) trivial)
    have corking := (sent.next (e := .client 1 .requestCork) (.client rfl (.requestCork rfl)) trivial
      |>.next (e := .hear 1) (.hear rfl rfl rfl) trivial
      |>.next (e := .raiseCork 1) (.raiseCork rfl rfl) trivial
      |>.next (e := .corkList 1) (.corkList rfl) trivial
      |>.next (e := .corkSend 1 none) (.corkSend rfl rfl rfl) trivial)
    have answered := (corking.next (e := .client 0 .receive)
        (.client rfl (.receive (fun job busy => by obtain rfl := List.mem_singleton.mp busy; rfl) rfl)) trivial
      |>.next (e := .hear 0) (.hear rfl rfl rfl) trivial
      |>.next (e := .corkTake 1) (.corkTake rfl rfl rfl) trivial
      |>.next (e := .corkSend 1 none) (.corkSend rfl rfl rfl) trivial)
    exact ⟨_, _, answered, rfl, rfl, rfl⟩
  · have started : Reaches (Step (demoSetup none)) anyStep (demoStart [.async, .control, .control]) _ := .refl
    have uncorking := (started.next (e := .client 2 .requestUncork) (.client rfl (.requestUncork rfl)) trivial
      |>.next (e := .hear 2) (.hear rfl rfl rfl) trivial
      |>.next (e := .uncorkList 2) (.uncorkList rfl) trivial
      |>.next (e := .uncorkSend 2 none) (.uncorkSend rfl rfl rfl) trivial
      |>.next (e := .uncorkSend 2 none) (.uncorkSend rfl rfl rfl) trivial
      |>.next (e := .uncorkSend 2 none) (.uncorkSend rfl rfl rfl) trivial
      |>.next (e := .uncorkDone 2) (.uncorkDone rfl) trivial)
    have corking := (uncorking.next (e := .client 1 .requestCork) (.client rfl (.requestCork rfl)) trivial
      |>.next (e := .hear 1) (.hear rfl rfl rfl) trivial
      |>.next (e := .raiseCork 1) (.raiseCork rfl rfl) trivial
      |>.next (e := .corkList 1) (.corkList rfl) trivial
      |>.next (e := .corkSend 1 none) (.corkSend rfl rfl rfl) trivial
      |>.next (e := .client 0 .receive) (.client rfl (.receive (fun _ busy => by cases busy) rfl)) trivial
      |>.next (e := .client 0 .receive) (.client rfl (.receive (fun _ busy => by cases busy) rfl)) trivial
      |>.next (e := .hear 0) (.hear rfl rfl rfl) trivial
      |>.next (e := .corkTake 1) (.corkTake rfl rfl rfl) trivial)
    have sent := (corking.next (e := .lowerCork 2) (.lowerCork rfl rfl) trivial
      |>.next (e := .enter 0 (demoCall 97)) (.enter rfl) trivial
      |>.next (e := .lockCork 0) (.lockCork rfl rfl rfl) trivial
      |>.next (e := .readList 0) (.readList rfl) trivial
      |>.next (e := .send 0 none) (.send rfl rfl rfl) trivial
      |>.next (e := .corkSend 1 none) (.corkSend rfl rfl rfl) trivial
      |>.next (e := .corkSend 1 none) (.corkSend rfl rfl rfl) trivial)
    exact ⟨_, _, sent, rfl, rfl, rfl⟩

/-- An asynchronous client has executed what it was sent when it answers the cork. -/
theorem single_client_quiesces :
    ∃ w k, w.readers 1 = .corking [] [0, 1] ∧ w.clients 0 = some k ∧ k.written = [⟨0, demoCall 97⟩] ∧
      Reaches (Step (demoSetup none)) Quiet (demoStart [.async, .control]) w ∧ k.written.Perm k.ran := by
  have started : Reaches (Step (demoSetup none)) Quiet (demoStart [.async, .control]) _ := .refl
  have sent := (started.next (e := .enter 0 (demoCall 97)) (.enter rfl) (by trivial)
    |>.next (e := .lockCork 0) (.lockCork rfl rfl rfl) (by trivial)
    |>.next (e := .readList 0) (.readList rfl) (by trivial)
    |>.next (e := .send 0 none) (.send rfl rfl rfl) (by trivial)
    |>.next (e := .send 0 none) (.send rfl rfl rfl) (by trivial)
    |>.next (e := .unlockCork 0) (.unlockCork rfl) (by trivial))
  have executed := (sent.next (e := .client 0 .receive) (.client rfl (.receive (fun _ busy => by cases busy) rfl))
      (by rintro k c rest known next; cases known; cases next)
    |>.next (e := .client 0 .run) (.client rfl (.run (show _ = [] ++ _ from rfl) rfl)) (by trivial)
    |>.next (e := .client 0 .finish) (.client rfl (.finish (show _ = [] ++ _ from rfl) rfl)) (by trivial))
  have corking := (executed.next (e := .client 1 .requestCork) (.client rfl (.requestCork rfl)) (by trivial)
    |>.next (e := .hear 1) (.hear rfl rfl rfl) (by trivial)
    |>.next (e := .raiseCork 1) (.raiseCork rfl rfl) (by trivial)
    |>.next (e := .corkList 1) (.corkList rfl) (by trivial)
    |>.next (e := .corkSend 1 none) (.corkSend rfl rfl rfl) (by trivial)
    |>.next (e := .client 0 .receive) (.client rfl (.receive (fun _ busy => by cases busy) rfl))
      (by rintro k c rest known _; cases known; rfl)
    |>.next (e := .hear 0) (.hear rfl rfl rfl) (by trivial)
    |>.next (e := .corkTake 1) (.corkTake rfl rfl rfl) (by trivial)
    |>.next (e := .corkSend 1 none) (.corkSend rfl rfl rfl) (by trivial))
  have quiesced := (quiet_cork_quiesces (c := 1) (demoStart_atRest _) corking rfl).1 0 List.mem_cons_self _ rfl
  exact ⟨_, _, rfl, rfl, rfl, corking, quiesced.2⟩

end Fsyncer.Replication
