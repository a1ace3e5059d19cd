import Fsyncer.ReplicationOrder

/-! Which operation an acknowledgement belongs to. A response slot belongs to a
thread and not to an operation; what keeps answers apart is that a client owes a
thread at most one. -/
namespace Fsyncer.Replication
open Interleaving Vfs

variable {σ : Type} {setup : Setup σ}

/-- The operation whose answer thread `t` is to get for this message. -/
def FsyncerMsg.asks (t : ℕ) : FsyncerMsg → Option Op
  | .syncOp op tid => if tid = t then some op else none
  | _ => none

@[simp] theorem FsyncerMsg.asks_nop : FsyncerMsg.nop.asks t = none := rfl

def FsyncerMsg.answers (t : ℕ) : FsyncerMsg → Option Op
  | .ack _ tid op => if tid = t then some op else none
  | _ => none

def Job.owes (t : ℕ) (job : Job) : Option Op := if job.tid = some t then some job.op else none

namespace Client

/-- The operation whose answer is in the thread's slot. -/
def slot (k : Client σ) (t : ℕ) : List Op :=
  match k.net.parked (.worker t) with
  | some (some reply) => reply.answers.toList
  | _ => []

/-- The operations of thread `t` that the client has still to answer, or has
answered without the thread's having looked. -/
def outstanding (k : Client σ) (t : ℕ) : List Op :=
  k.net.write.waiting.filterMap (FsyncerMsg.asks t) ++ k.jobs.filterMap (Job.owes t) ++
    k.answers.waiting.filterMap (FsyncerMsg.answers t) ++ k.slot t

variable {k k' : Client σ}

/-- Opening a slot leaves what is in it. -/
theorem slot_eq (k : Client σ) (t : ℕ) : k.slot t = ((k.net.parked (.worker t)).join.bind Reply.answers).toList := by
  unfold slot
  split
  · next parked => rw [parked]; rfl
  · next empty =>
    cases parked : k.net.parked (.worker t) with
    | none => rfl
    | some inner =>
      cases inner with
      | none => rfl
      | some reply => exact absurd parked (empty reply)

theorem slot_responseMsg (sent : k.responseMsg msg flush wantResponse tid cut = (k', result)) : k'.slot t = k.slot t := by
  obtain ⟨_, rfl, _⟩ | ⟨_, messages, parked, status, rfl, _, slots, _⟩ := responseMsg_cases sent
  · rfl
  · rw [slot_eq, slot_eq, slots]

/-- How often the client owes the thread an answer to the operation. -/
def debt (k : Client σ) (t : ℕ) (op : Op) : ℕ := (k.outstanding t).count op

theorem debt_eq (k : Client σ) (t : ℕ) (op : Op) :
    k.debt t op = (k.net.write.waiting.filterMap (FsyncerMsg.asks t)).count op +
      (k.jobs.filterMap (Job.owes t)).count op + (k.answers.waiting.filterMap (FsyncerMsg.answers t)).count op +
      (k.slot t).count op := by
  simp only [debt, outstanding, List.count_append]

theorem mem_outstanding_iff : op ∈ k.outstanding t ↔ 0 < k.debt t op := List.count_pos_iff.symm

/-- What a message to the client adds to that. -/
theorem debt_responseMsg (sent : k.responseMsg msg flush wantResponse tid cut = (k', result)) (t : ℕ) (op : Op) :
    k'.debt t op ≤ k.debt t op + (msg.asks t).toList.count op := by
  have slot := slot_responseMsg (t := t) sent
  rw [debt_eq, debt_eq, slot]
  obtain ⟨_, rfl, _⟩ | ⟨_, messages, parked, status, rfl, among, _, _⟩ := responseMsg_cases sent
  · omega
  · have all : [msg, .nop].filterMap (FsyncerMsg.asks t) = (msg.asks t).toList := by
      cases asks : msg.asks t <;> simp [List.filterMap_cons, asks]
    have more := (all ▸ among.filterMap (FsyncerMsg.asks t)).sublist.count_le op
    simp only [Fifo.waiting_push, List.filterMap_append, List.count_append]
    omega

theorem debt_sendOp (sent : k.sendOp op u cut = (k', awaited)) (t : ℕ) (o : Op) :
    k'.debt t o ≤ k.debt t o + if u = t ∧ op = o then 1 else 0 := by
  obtain ⟨_, rfl, _⟩ | ⟨msg, sync, result, message, sent, _⟩ := sendOp_cases sent
  · omega
  · refine (debt_responseMsg sent t o).trans (Nat.add_le_add_left ?_ _)
    unfold opMsg at message
    split at message
    · cases message
    · split at message <;> cases message
      · simp only [FsyncerMsg.asks]
        split
        · next same => by_cases equal : op = o <;> simp [same, equal]
        · simp
      · simp [FsyncerMsg.asks]

/-- A slot is waited on only if the whole message is on its way to a client that lives. -/
theorem sendOp_awaited (sent : k.sendOp op t cut = (k', true)) :
    ∃ msg, opMsg k.mode op t = some (msg, true) ∧ k.net.status = .alive ∧ k'.net.status = .alive ∧ cut = none := by
  obtain ⟨_, _, absent⟩ | ⟨msg, sync, result, message, sent, asked⟩ := sendOp_cases sent
  · cases absent
  · have asked : result = some true := by simpa using asked.symm
    subst asked
    obtain ⟨_, _, absent⟩ | ⟨alive, messages, parked, status, rfl, _, _, outcome⟩ := responseMsg_cases sent
    · cases absent
    · obtain ⟨rfl, uncut, _, asked⟩ | ⟨_, _, absent⟩ := outcome
      · cases asked
        exact ⟨msg, message, alive, rfl, uncut⟩
      · cases absent

private theorem count_filterMap_cons {M : Type} (f : M → Option Op) (m : M) (rest : List M) (o : Op) :
    ((m :: rest).filterMap f).count o = (f m).toList.count o + (rest.filterMap f).count o := by
  cases found : f m <;> simp [found, List.count_cons, Nat.add_comm]

/-- The head of the queue, taken out. -/
private theorem debt_pop (next : k.net.write.waiting = msg :: rest) (t : ℕ) (o : Op) :
    ({ k with net := { k.net with write := k.net.write.pop } } : Client σ).debt t o + (msg.asks t).toList.count o =
      k.debt t o := by
  rw [debt_eq, debt_eq, next, count_filterMap_cons]
  simp only [Fifo.waiting_pop, next, List.tail_cons]
  have slot : ({ k with net := { k.net with write := k.net.write.pop } } : Client σ).slot t = k.slot t := rfl
  rw [slot]
  omega

theorem debt_answer (k : Client σ) (msg : FsyncerMsg) (t : ℕ) (o : Op) :
    (k.answer msg).debt t o = k.debt t o + (msg.answers t).toList.count o := by
  rw [debt_eq, debt_eq]
  have slot : (k.answer msg).slot t = k.slot t := rfl
  rw [slot]
  simp only [answer, Fifo.waiting_push, List.filterMap_append, List.count_append, count_filterMap_cons,
    List.filterMap_nil, List.count_nil]
  omega

theorem debt_jobs (k : Client σ) (jobs : List Job) (t : ℕ) (o : Op) :
    ({ k with jobs := jobs } : Client σ).debt t o + (k.jobs.filterMap (Job.owes t)).count o =
      k.debt t o + (jobs.filterMap (Job.owes t)).count o := by
  rw [debt_eq, debt_eq]
  have slot : ({ k with jobs := jobs } : Client σ).slot t = k.slot t := rfl
  rw [slot]
  simp only
  omega

private theorem debt_addJob (k : Client σ) (job : Job) (t : ℕ) (o : Op) :
    ({ k with jobs := k.jobs ++ [job] } : Client σ).debt t o = k.debt t o + (job.owes t).toList.count o := by
  have jobs := debt_jobs k (k.jobs ++ [job]) t o
  simp only [List.filterMap_append, List.count_append, count_filterMap_cons, List.filterMap_nil,
    List.count_nil] at jobs
  omega

private theorem debt_process (next : k.net.write.waiting = msg :: rest) (t : ℕ) (o : Op) :
    (k.process msg).debt t o ≤ k.debt t o := by
  have popped := debt_pop next t o
  generalize popping : ({ k with net := { k.net with write := k.net.write.pop } } : Client σ) = l at popped
  cases msg with
  | syncOp op tid =>
    have step : k.process (.syncOp op tid) = (let l' := if l.mode = .semisync then l.answer (.ack .ack tid op) else l
        { l' with jobs := l'.jobs ++ [⟨op, if l.mode = .sync ∨ l.mode = .flushsync then some tid else none,
          !l.pool, none⟩] }) := by
      subst popping
      simp only [process]
      split <;> rfl
    rw [step, debt_addJob, ← popped]
    split
    · next semisync =>
      rw [debt_answer]
      simp [semisync, Job.owes, FsyncerMsg.asks, FsyncerMsg.answers]
    · simp only [Job.owes, FsyncerMsg.asks]
      split <;> simp
  | asyncOp op =>
    have step : k.process (.asyncOp op) = { l with jobs := l.jobs ++ [⟨op, none, true, none⟩] } := by
      subst popping
      rfl
    rw [step, debt_addJob, ← popped]
    simp [Job.owes]
  | cork tid =>
    have step : k.process (.cork tid) = l.answer (.ackCork tid) := by
      subst popping
      rfl
    rw [step, debt_answer, ← popped]
    simp [FsyncerMsg.answers]
  | _ =>
    rw [← popped, ← popping]
    exact Nat.le_add_right ..

/-- What a client does adds nothing. -/
theorem debt_step (step : ClientStep fs k action k') (t : ℕ) (o : Op) : k'.debt t o ≤ k.debt t o := by
  cases step with
  | receive free next => exact debt_process next t o
  | @run front job back _ split pending =>
    have jobs := debt_jobs k (front ++ { job with result := some (fs.exec job.op.call k.store).1 } :: back) t o
    have same : ({ job with result := some (fs.exec job.op.call k.store).1 } : Job).owes t = job.owes t := rfl
    simp only [split, List.filterMap_append, List.count_append, count_filterMap_cons, same] at jobs
    exact Nat.le_of_eq (Nat.add_right_cancel jobs)
  | @finish front job back code _ split done =>
    have jobs := debt_jobs k (front ++ back) t o
    simp only [split, List.filterMap_append, List.count_append, count_filterMap_cons] at jobs
    unfold acknowledge
    split
    · next tid waits =>
      rw [debt_answer]
      have same : (FsyncerMsg.ack (.retCode code) tid job.op).answers t = job.owes t := by
        simp [FsyncerMsg.answers, Job.owes, waits]
      rw [same]
      omega
    · omega
  | requestCork control | requestUncork control =>
    rw [debt_answer]
    exact Nat.le_of_eq rfl

theorem slot_notify (k : Client σ) (tid : ThreadId) (reply : Reply) (t : ℕ) :
    (k.notify tid reply).slot t = if tid = .worker t then reply.answers.toList else k.slot t := by
  by_cases same : tid = .worker t
  · simp [slot, notify, same]
  · simp [slot, notify, same, Ne.symm same]

theorem slot_take (k : Client σ) (tid : ThreadId) (t : ℕ) :
    (k.take tid).slot t = if tid = .worker t then [] else k.slot t := by
  by_cases same : tid = .worker t
  · simp [slot, take, same]
  · simp [slot, take, same, Ne.symm same]

theorem slot_drop (k : Client σ) (t : ℕ) : k.drop.slot t = [] := by
  unfold slot drop
  cases parked : k.net.parked (.worker t) <;> simp [parked]

/-- Listening touches only the slots and the queue of answers. -/
theorem hear_rest (k : Client σ) (msg : FsyncerMsg) :
    (k.hear msg).mode = k.mode ∧ (k.hear msg).pool = k.pool ∧ (k.hear msg).jobs = k.jobs ∧
      (k.hear msg).net.write = k.net.write ∧ (k.hear msg).net.status = k.net.status ∧
      (k.hear msg).answers = k.answers.pop ∧ (k.hear msg).store = k.store ∧ (k.hear msg).ran = k.ran := by
  cases msg with
  | ackCork tid =>
    simp only [hear]
    split <;> exact ⟨rfl, rfl, rfl, rfl, rfl, rfl, rfl, rfl⟩
  | _ => exact ⟨rfl, rfl, rfl, rfl, rfl, rfl, rfl, rfl⟩

/-- Listening moves an answer to its slot, where it may take the place of another. -/
theorem debt_hear (next : k.answers.waiting = msg :: rest) (t : ℕ) (o : Op) :
    (k.hear msg).debt t o ≤ k.debt t o := by
  obtain ⟨_, _, jobs, write, _, popped, _⟩ := k.hear_rest msg
  have answers : (k.hear msg).answers.waiting = rest := by rw [popped, Fifo.waiting_pop, next, List.tail_cons]
  have slot : ((k.hear msg).slot t).count o ≤ (msg.answers t).toList.count o + (k.slot t).count o := by
    cases msg with
    | ack retcode tid op =>
      simp only [hear, slot_notify, ThreadId.worker.injEq, FsyncerMsg.answers]
      split
      · simp
      · exact Nat.le_add_left ..
    | ackCork tid =>
      simp only [hear]
      split
      · rw [slot_notify, if_neg (by simp)]
        exact Nat.le_add_left ..
      · exact Nat.le_add_left ..
    | _ => exact Nat.le_add_left ..
  rw [debt_eq, debt_eq, write, jobs, answers, next, count_filterMap_cons]
  omega

theorem debt_take (k : Client σ) (tid : ThreadId) (t : ℕ) (o : Op) : (k.take tid).debt t o ≤ k.debt t o := by
  rw [debt_eq, debt_eq, slot_take]
  refine Nat.add_le_add_left ?_ _
  split
  · exact Nat.zero_le _
  · exact Nat.le_refl _

theorem debt_take_self (k : Client σ) (t : ℕ) (o : Op) :
    (k.take (.worker t)).debt t o + (k.slot t).count o = k.debt t o := by
  rw [debt_eq, debt_eq, slot_take, if_pos rfl]
  rfl

theorem debt_drop (k : Client σ) (t : ℕ) (o : Op) : k.drop.debt t o ≤ k.debt t o := by
  rw [debt_eq, debt_eq, slot_drop]
  exact Nat.add_le_add_left (Nat.zero_le _) _

end Client

/-! ### What every step does -/

/-- A step adds to what a client owes a thread only if the thread sends to it. -/
theorem Step.debt {w w' : World σ} (step : Step setup w e w') (known : w.clients c = some k)
    (there : w'.clients c = some k') (t : ℕ) (o : Op) :
    k'.debt t o ≤ k.debt t o ∨ ∃ rest waits cut awaited, e = .send t cut ∧
      w.workers t = .sending o (c :: rest) waits ∧ k.sendOp o t cut = (k', awaited) ∧
      k'.debt t o ≤ k.debt t o + 1 := by
  cases step.touch_of known there with
  | same => exact .inl (Nat.le_refl _)
  | sent turn here sent =>
    have less := Client.debt_sendOp sent t o
    split at less
    · next same =>
      obtain ⟨rfl, rfl⟩ := same
      exact .inr ⟨_, _, _, _, turn, here, sent, less⟩
    · exact .inl less
  | taken turn here filled | corkTaken turn here filled => exact .inl (Client.debt_take ..)
  | moved turn moves => exact .inl (Client.debt_step moves t o)
  | heard turn next => exact .inl (Client.debt_hear next t o)
  | died turn => exact .inl (Nat.le_refl _)
  | corked turn here sent | uncorked turn here sent | flushed turn sent =>
    exact .inl (Client.debt_responseMsg sent t o)
  | pushed turn ready => exact .inl (Nat.le_refl _)
  | dropped turn dead => exact .inl (Client.debt_drop ..)

/-- A worker waits for a client once it has sent it something to answer. -/
theorem Step.waits {w w' : World σ} (step : Step setup w e w') (there : c ∈ (w'.workers t).waits) :
    (c ∈ (w.workers t).waits ∧ (w'.workers t).op = (w.workers t).op) ∨
      ∃ op rest waits cut k k', e = .send t cut ∧ w.workers t = .sending op (c :: rest) waits ∧
        (w'.workers t).op = some op ∧ w.clients c = some k ∧ k.sendOp op t cut = (k', true) ∧
        w'.clients c = some k' := by
  have moved : ∀ {u : ℕ} {pc : Worker}, w'.workers = (w.setWorker u pc).workers →
      (u = t → c ∈ pc.waits → c ∈ (w.workers u).waits ∧ pc.op = (w.workers u).op) →
      c ∈ (w.workers t).waits ∧ (w'.workers t).op = (w.workers t).op := by
    intro u pc workers kept
    rw [workers, workers_setWorker] at there
    rw [workers, workers_setWorker]
    split at there
    · next same =>
      subst same
      rw [if_pos rfl]
      exact kept rfl there
    · next other =>
      rw [if_neg other]
      exact ⟨there, rfl⟩
  cases step with
  | @send k k' awaited _ u cut d op rest waits here known sent =>
    by_cases turn : u = t ∧ d = c ∧ awaited = true
    · obtain ⟨rfl, rfl, rfl⟩ := turn
      refine .inr ⟨op, rest, waits, cut, k, k', rfl, here, ?_, known, sent, ?_⟩
      · simp [World.setWorker, Worker.op]
      · simp [World.setWorker, World.setClient]
    · refine .inl (moved rfl fun same member => ?_)
      rw [here]
      refine ⟨?_, rfl⟩
      by_cases waited : awaited = true
      · have other : c ≠ d := fun equal => turn ⟨same, equal.symm, waited⟩
        simpa [Worker.waits, waited, other] using member
      · simpa [Worker.waits, waited] using member
  | enter idle | lockCork here free uncorked | readList here =>
    exact .inl (moved rfl fun _ member => absurd member List.not_mem_nil)
  | unlockCork here | execute here => exact .inl (moved rfl fun _ member => by rw [here]; exact ⟨member, rfl⟩)
  | @journal entry filestore _ _ op waits here passes =>
    refine .inl (moved rfl fun _ member => ?_)
    rw [here]
    cases filestore with
    | true => cases member
    | false => exact ⟨member, rfl⟩
  | take here known filled | timeOut here =>
    exact .inl (moved rfl fun _ member => by rw [here]; exact ⟨List.mem_cons_of_mem _ member, rfl⟩)
  | leave here => exact .inl (moved rfl fun _ member => absurd member List.not_mem_nil)
  | _ => exact .inl ⟨there, rfl⟩

/-! ### Answers and operations -/

/-- A thread asks a client for an answer only when the client owes it none. -/
def Cleared (w : World σ) : Event σ → Prop
  | .send t _ => ∀ op c rest waits k msg, w.workers t = .sending op (c :: rest) waits → w.clients c = some k →
      k.net.status = .alive → Client.opMsg k.mode op t = some (msg, true) → k.outstanding t = []
  | _ => True

/-- What a client owes a thread that waits for it is the answer to its operation. -/
def Matched (w : World σ) : Prop :=
  ∀ t c k op, (w.workers t).op = some op → c ∈ (w.workers t).waits → w.clients c = some k →
    ∀ o, 0 < k.debt t o → o = op

theorem Client.Fresh.debt {k : Client σ} (fresh : k.Fresh) (t : ℕ) (o : Op) : k.debt t o = 0 := by
  rw [Client.debt_eq, Client.slot, fresh.net, fresh.jobs, fresh.answers]
  rfl

theorem Matched.step {w w' : World σ} (matched : Matched w) (step : Step setup w e w') (cleared : Cleared w e) :
    Matched w' := by
  intro t c k' op own waits there o owes
  obtain known | rfl := step.client_origin there
  · obtain ⟨k, known⟩ := Option.ne_none_iff_exists'.mp known
    obtain ⟨waited, same⟩ | ⟨op', rest, others, cut, l, l', rfl, here, own', found, sent, _⟩ := step.waits waits
    · obtain less | ⟨rest, others, cut, awaited, _, here, _⟩ := step.debt known there t o
      · exact matched t c k op (same ▸ own) waited known o (Nat.lt_of_lt_of_le owes less)
      · rw [same, here] at own
        exact Option.some.inj own
    · obtain rfl := Option.some.inj (own'.symm.trans own)
      obtain less | ⟨_, _, _, _, _, here', _⟩ := step.debt known there t o
      · -- The answer is asked for in this very step, and no other was owed.
        obtain rfl := Option.some.inj (known.symm.trans found)
        obtain ⟨msg, message, alive, _⟩ := Client.sendOp_awaited sent
        have none_owed := cleared op' c rest others k msg here known alive message
        have nothing : k.debt t o = 0 := by
          rw [Client.debt, none_owed]
          rfl
        rw [nothing] at less
        exact absurd (Nat.lt_of_lt_of_le owes less) (Nat.not_lt_zero _)
      · cases here.symm.trans here'
        rfl
  · cases step with
    | connect asks accepted unused =>
      obtain ⟨_, rfl⟩ | ⟨other, _⟩ := clients_setClient there
      · rw [(fromStream_fresh accepted).debt] at owes
        cases owes
      · exact absurd rfl other

/-- What is in a worker's slot is an answer, or the note that the client is dead. -/
def Client.Genuine (k : Client σ) : Prop :=
  ∀ t reply, k.net.parked (.worker t) = some (some reply) → reply.answers = none → reply.retcode = .dead

/-- Sending, taking and executing fill no slot. -/
theorem Client.filled_responseMsg {k k' : Client σ}
    (sent : k.responseMsg msg flush wantResponse tid cut = (k', result))
    (filled : k'.net.parked u = some (some reply)) : k.net.parked u = some (some reply) := by
  obtain ⟨_, rfl, _⟩ | ⟨_, messages, parked, status, rfl, _, slots, _⟩ := Client.responseMsg_cases sent
  · exact filled
  · have same := slots u
    rw [show parked u = some (some reply) from filled] at same
    exact Option.join_eq_some_iff.mp same.symm

theorem Client.filled_take {k : Client σ} (filled : (k.take tid).net.parked u = some (some reply)) :
    k.net.parked u = some (some reply) := by
  simp only [Client.take, Function.update_apply] at filled
  split at filled
  · cases filled
  · exact filled

/-- A client's own steps only take messages out of its end of the connection. -/
theorem Client.net_process (k : Client σ) (msg : FsyncerMsg) :
    (k.process msg).net = { k.net with write := k.net.write.pop } := by
  cases msg with
  | syncOp op tid =>
    simp only [Client.process]
    split <;> rfl
  | _ => rfl

theorem Client.net_step {k k' : Client σ} (step : ClientStep fs k action k') :
    k'.net.parked = k.net.parked ∧ k'.net.status = k.net.status := by
  cases step with
  | receive free next =>
    rw [k.net_process]
    exact ⟨rfl, rfl⟩
  | finish split done =>
    unfold Client.acknowledge
    split <;> exact ⟨rfl, rfl⟩
  | _ => exact ⟨rfl, rfl⟩

/-- Listening fills a worker's slot with an answer only. -/
theorem Client.filled_hear {k : Client σ} (filled : (k.hear msg).net.parked (.worker t) = some (some reply)) :
    k.net.parked (.worker t) = some (some reply) ∨ reply.answers ≠ none := by
  cases msg with
  | ack retcode tid op =>
    simp only [Client.hear, Client.notify, Function.update_apply] at filled
    split at filled
    · cases filled
      exact .inr (by simp)
    · exact .inl filled
  | ackCork tid =>
    simp only [Client.hear] at filled
    split at filled
    · exact .inl (by simpa [Client.notify] using filled)
    · exact .inl filled
  | _ => exact .inl filled

theorem Touch.genuine {k k' : Client σ} (touch : Touch setup w c e k k') (genuine : k.Genuine) : k'.Genuine := by
  intro t reply filled unanswered
  cases touch with
  | same => exact genuine t reply filled unanswered
  | sent turn here sent =>
    obtain ⟨_, rfl, _⟩ | ⟨msg, sync, result, message, sent, _⟩ := Client.sendOp_cases sent
    · exact genuine t reply filled unanswered
    · exact genuine t reply (Client.filled_responseMsg sent filled) unanswered
  | taken turn here found | corkTaken turn here found => exact genuine t reply (Client.filled_take filled) unanswered
  | moved turn moves => exact genuine t reply ((Client.net_step moves).1 ▸ filled) unanswered
  | heard turn next =>
    obtain filled | answered := Client.filled_hear filled
    · exact genuine t reply filled unanswered
    · exact absurd unanswered answered
  | died turn => exact genuine t reply filled unanswered
  | corked turn here sent | uncorked turn here sent | flushed turn sent =>
    exact genuine t reply (Client.filled_responseMsg sent filled) unanswered
  | pushed turn ready => exact genuine t reply filled unanswered
  | dropped turn dead =>
    simp only [Client.drop, Option.map_eq_some_iff] at filled
    obtain ⟨_, _, same⟩ := filled
    cases same
    rfl

theorem Client.Fresh.genuine {k : Client σ} (fresh : k.Fresh) : k.Genuine := by
  intro t reply filled
  rw [fresh.net] at filled
  cases filled

private theorem genuine_step {w w' : World σ} (genuine : ∀ c k, w.clients c = some k → k.Genuine)
    (step : Step setup w e w') (there : w'.clients c = some k') : k'.Genuine := by
  obtain known | rfl := step.client_origin there
  · obtain ⟨k, known⟩ := Option.ne_none_iff_exists'.mp known
    exact (step.touch_of known there).genuine (genuine c k known)
  · cases step with
    | connect asks accepted unused =>
      obtain ⟨_, rfl⟩ | ⟨other, _⟩ := clients_setClient there
      · exact (fromStream_fresh accepted).genuine
      · exact absurd rfl other

/-- As long as no thread asks a client for an answer before the client has got rid
of the one before, `post_op` gets the answer to its own operation, or is told that
the client is dead. -/
theorem cleared_acks_match {start w : World σ} (rest : AtRest start)
    (reached : Reaches (Step setup) Cleared start w) (here : w.workers t = .waiting op (c :: others) ret)
    (known : w.clients c = some k) (filled : k.net.parked (.worker t) = some (some reply)) :
    reply.answers = some op ∨ reply = ⟨.dead, none⟩ := by
  obtain ⟨matched, genuine⟩ : Matched w ∧ ∀ c k, w.clients c = some k → k.Genuine := by
    refine reached.invariant (motive := fun w => Matched w ∧ ∀ c k, w.clients c = some k → k.Genuine) ⟨?_, ?_⟩ ?_
    · intro t c k op own
      rw [rest.workers] at own
      cases own
    · exact fun c k known => (rest.fresh c k known).genuine
    · rintro s e s' ⟨matched, genuine⟩ step cleared
      exact ⟨matched.step step cleared, fun c k' there => genuine_step genuine step there⟩
  obtain ⟨retcode, answers⟩ := reply
  cases answers with
  | none =>
    have dead := genuine c k known t _ filled rfl
    exact .inr (congrArg (Reply.mk · none) dead)
  | some o =>
    have slot : o ∈ k.slot t := by simp [Client.slot, filled]
    have owed : 0 < k.debt t o := by
      rw [← Client.mem_outstanding_iff, Client.outstanding]
      exact List.mem_append_right _ slot
    have own := matched t c k op (by rw [here]; rfl) (by rw [here]; exact List.mem_cons_self) known o owed
    exact .inl (congrArg some own)

open Bilog (soloFile)

/-- The wait for the first operation gives up; its answer is taken for that of the
second one, which fails. With a bilog, the handler of an unlink does not wait at
all, and its answer is taken for that of the next operation. -/
theorem stale_ack_is_taken :
    (∃ w k, Reaches (Step (demoSetup none)) anyStep (demoStart [.sync]) w ∧
      w.workers 0 = .waiting ⟨1, demoCall 97⟩ [0] (-17) ∧ w.clients 0 = some k ∧
      k.net.parked (.worker 0) = some (some ⟨.retCode 0, some ⟨0, demoCall 97⟩⟩)) ∧
    ∃ w k, Reaches (Step (demoSetup (some .bilog))) anyStep
        (.start (soloFile [1]) [.connected .sync false false (soloFile [1]) none]) w ∧
      w.workers 0 = .waiting ⟨1, demoCall 97⟩ [0] 0 ∧ w.clients 0 = some k ∧
      k.net.parked (.worker 0) = some (some ⟨.retCode 0, some ⟨0, .unlink [[102]]⟩⟩) := by
  constructor
  · have started : Reaches (Step (demoSetup none)) anyStep (demoStart [.sync]) _ := .refl
    have first := (started.next (e := .enter 0 (demoCall 97)) (.enter rfl) trivial
      |>.next (e := .lockCork 0) (.lockCork rfl rfl rfl) trivial
      |>.next (e := .readList 0) (.readList rfl) trivial
      |>.next (e := .send 0 none) (.send rfl rfl rfl) trivial
      |>.next (e := .unlockCork 0) (.unlockCork rfl) trivial
      |>.next (e := .journal 0) (.journal rfl rfl) trivial
      |>.next (e := .execute 0) (.execute rfl) trivial
      |>.next (e := .timeOut 0) (.timeOut rfl) trivial
      |>.next (e := .leave 0) (.leave rfl) trivial)
    have second := (first.next (e := .enter 0 (demoCall 97)) (.enter rfl) trivial
      |>.next (e := .lockCork 0) (.lockCork rfl rfl rfl) trivial
      |>.next (e := .readList 0) (.readList rfl) trivial
      |>.next (e := .send 0 none) (.send rfl rfl rfl) trivial
      |>.next (e := .unlockCork 0) (.unlockCork rfl) trivial
      |>.next (e := .journal 0) (.journal rfl rfl) trivial
      |>.next (e := .execute 0) (.execute rfl) trivial)
    have answered := (second.next (e := .client 0 .receive) (.client rfl (.receive (fun _ none => by cases none) rfl)) trivial
      |>.next (e := .client 0 .run) (.client rfl (.run (show _ = [] ++ _ from rfl) rfl)) trivial
      |>.next (e := .client 0 .finish) (.client rfl (.finish (show _ = [] ++ _ from rfl) rfl)) trivial
      |>.next (e := .hear 0) (.hear rfl rfl rfl) trivial)
    exact ⟨_, _, answered, rfl, rfl, rfl⟩
  · have started : Reaches (Step (demoSetup (some .bilog))) anyStep
        (.start (soloFile [1]) [.connected .sync false false (soloFile [1]) none]) _ := .refl
    have first := (started.next (e := .enter 0 (.unlink [[102]])) (.enter rfl) trivial
      |>.next (e := .lockCork 0) (.lockCork rfl rfl rfl) trivial
      |>.next (e := .readList 0) (.readList rfl) trivial
      |>.next (e := .send 0 none) (.send rfl rfl rfl) trivial
      |>.next (e := .unlockCork 0) (.unlockCork rfl) trivial
      |>.next (e := .journal 0) (.journal rfl rfl) trivial)
    have second := (first.next (e := .enter 0 (demoCall 97)) (.enter rfl) trivial
      |>.next (e := .lockCork 0) (.lockCork rfl rfl rfl) trivial
      |>.next (e := .readList 0) (.readList rfl) trivial
      |>.next (e := .send 0 none) (.send rfl rfl rfl) trivial
      |>.next (e := .unlockCork 0) (.unlockCork rfl) trivial
      |>.next (e := .journal 0) (.journal rfl rfl) trivial
      |>.next (e := .execute 0) (.execute rfl) trivial)
    have answered := (second.next (e := .client 0 .receive) (.client rfl (.receive (fun _ none => by cases none) rfl)) trivial
      |>.next (e := .client 0 .run) (.client rfl (.run (show _ = [] ++ _ from rfl) rfl)) trivial
      |>.next (e := .client 0 .finish) (.client rfl (.finish (show _ = [] ++ _ from rfl) rfl)) trivial
      |>.next (e := .hear 0) (.hear rfl rfl rfl) trivial)
    exact ⟨_, _, answered, rfl, rfl, rfl⟩

/-- An operation that waits for its answer gets it. -/
theorem patient_ack_matches :
    ∃ w k reply, Reaches (Step (demoSetup none)) Cleared (demoStart [.sync]) w ∧
      w.workers 0 = .waiting ⟨0, demoCall 97⟩ [0] 0 ∧ w.clients 0 = some k ∧
      k.net.parked (.worker 0) = some (some reply) ∧
      (reply.answers = some ⟨0, demoCall 97⟩ ∨ reply = ⟨.dead, none⟩) := by
  have started : Reaches (Step (demoSetup none)) Cleared (demoStart [.sync]) _ := .refl
  have sent := (started.next (e := .enter 0 (demoCall 97)) (.enter rfl) (by trivial)
    |>.next (e := .lockCork 0) (.lockCork rfl rfl rfl) (by trivial)
    |>.next (e := .readList 0) (.readList rfl) (by trivial)
    |>.next (e := .send 0 none) (.send rfl rfl rfl) (by
      intro op c rest waits k msg here known _ _
      cases here
      cases known
      rfl)
    |>.next (e := .unlockCork 0) (.unlockCork rfl) (by trivial)
    |>.next (e := .journal 0) (.journal rfl rfl) (by trivial)
    |>.next (e := .execute 0) (.execute rfl) (by trivial))
  have answered := (sent.next (e := .client 0 .receive)
      (.client rfl (.receive (fun _ none => by cases none) rfl)) (by trivial)
    |>.next (e := .client 0 .run) (.client rfl (.run (show _ = [] ++ _ from rfl) rfl)) (by trivial)
    |>.next (e := .client 0 .finish) (.client rfl (.finish (show _ = [] ++ _ from rfl) rfl)) (by trivial)
    |>.next (e := .hear 0) (.hear rfl rfl rfl) (by trivial))
  have matched := cleared_acks_match (t := 0) (c := 0) (demoStart_atRest _) answered rfl rfl rfl
  exact ⟨_, _, _, answered, rfl, rfl, rfl, matched⟩

end Fsyncer.Replication
