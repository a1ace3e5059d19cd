import Fsyncer.ReplicationAcks
import Fsyncer.ReplicationJoin
import Fsyncer.ReplicationJournal

/-! Replicas end up in the server's state. Three orders have to be reconciled: the
one in which operations are handed out, the one of their local execution, and the
one in which a client runs them. Operations that are under way at the same time
commute, and only those change places. -/
namespace Fsyncer.Replication
open Interleaving Vfs
open Bilog (emptyStore)

variable {σ : Type} {setup : Setup σ}

def FileSystem.effect (fs : FileSystem σ) (op : Op) (s : σ) : σ := (fs.exec op.call s).2

namespace Client

/-- The operations that are still to be executed in the receive loop or on the pool. -/
def unrun (jobs : List Job) : List Op := (jobs.filter (·.result.isNone)).map Job.op

/-- What the client has been sent and not executed. -/
def todo (k : Client σ) : List Op := unrun k.jobs ++ k.net.write.waiting.filterMap FsyncerMsg.op

/-- What the client has done is, together with what it has still to do, what it was sent. -/
structure InStep (fs : FileSystem σ) (start : σ) (k : Client σ) : Prop where
  store : k.store = replay fs.effect k.ran start
  log : replay fs.effect (k.ran ++ k.todo) start = replay fs.effect k.written start

variable {k k' : Client σ} {fs : FileSystem σ} {start : σ}

theorem unrun_append (front back : List Job) : unrun (front ++ back) = unrun front ++ unrun back := by
  simp [unrun]

theorem unrun_cons_pending {job : Job} (pending : job.result = none) (jobs : List Job) :
    unrun (job :: jobs) = job.op :: unrun jobs := by
  simp [unrun, pending]

theorem unrun_cons_done {job : Job} (done : job.result = some code) (jobs : List Job) :
    unrun (job :: jobs) = unrun jobs := by
  simp [unrun, done]

/-- What a step does to the operations of a client: more are sent to it, or it
executes one of its jobs. -/
inductive Shift (fs : FileSystem σ) (k k' : Client σ) : Prop where
  | more (ops : List Op) (store : k'.store = k.store) (ran : k'.ran = k.ran) (todo : k'.todo = k.todo ++ ops)
      (written : k'.written = k.written ++ ops) : Shift fs k k'
  | ran (front : List Job) (job : Job) (back : List Job) (rest : List Op) (split : k.jobs = front ++ job :: back)
      (pending : job.result = none) (store : k'.store = fs.effect job.op k.store) (ran : k'.ran = k.ran ++ [job.op])
      (before : k.todo = unrun front ++ job.op :: rest) (after : k'.todo = unrun front ++ rest)
      (written : k'.written = k.written) : Shift fs k k'

/-- Nothing happens to the operations. -/
theorem Shift.same (store : k'.store = k.store) (ran : k'.ran = k.ran) (todo : k'.todo = k.todo)
    (written : k'.written = k.written) : Shift fs k k' :=
  .more [] store ran (todo.trans (List.append_nil _).symm) (written.trans (List.append_nil _).symm)

theorem todo_process (next : k.net.write.waiting = msg :: rest) : (k.process msg).todo = k.todo := by
  have jobs : ∀ (jobs : List Job) (job : Job), job.result = none → unrun (jobs ++ [job]) = unrun jobs ++ [job.op] := by
    intro jobs job pending
    rw [unrun_append, unrun_cons_pending pending]
    rfl
  cases msg with
  | syncOp op tid =>
    simp only [process, todo]
    split <;> simp [answer, next, jobs, FsyncerMsg.op]
  | asyncOp op => simp [process, todo, next, jobs, FsyncerMsg.op]
  | _ =>
    simp only [process, todo, answer, Fifo.waiting_pop, next, List.tail_cons]
    rfl

theorem shift_of_step (moves : ClientStep fs k action k') : Shift fs k k' := by
  have kept := (step_kept moves).written
  cases moves with
  | @receive msg rest _ free next =>
    have same : (k.process msg).store = k.store ∧ (k.process msg).ran = k.ran := by
      cases msg with
      | syncOp op tid =>
        simp only [process]
        split <;> exact ⟨rfl, rfl⟩
      | _ => exact ⟨rfl, rfl⟩
    exact .same same.1 same.2 (todo_process next) kept
  | @run front job back _ split pending =>
    refine .ran front job back (unrun back ++ k.net.write.waiting.filterMap FsyncerMsg.op) split pending rfl rfl
      ?_ ?_ kept
    · rw [todo, split, unrun_append, unrun_cons_pending pending]
      simp
    · rw [todo, unrun_append, unrun_cons_done rfl, List.append_assoc]
  | @finish front job back code _ split done =>
    have jobs : unrun (front ++ back) = unrun k.jobs := by
      rw [split, unrun_append, unrun_append, unrun_cons_done done]
    unfold acknowledge at kept ⊢
    split at kept <;> exact .same rfl rfl (by simp only [todo, answer, jobs]) kept
  | requestCork control | requestUncork control => exact .same rfl rfl rfl kept

theorem shift_of_responseMsg (sent : k.responseMsg msg flush wantResponse tid cut = (k', result)) : Shift fs k k' := by
  obtain ⟨_, rfl, _⟩ | ⟨_, messages, parked, status, rfl, _⟩ := responseMsg_cases sent
  · exact .same rfl rfl rfl rfl
  · exact .more (messages.filterMap FsyncerMsg.op) rfl rfl (by simp [todo]) (by simp [written])

/-- A client stays in step if an operation overtakes only such as commute with it. -/
theorem InStep.shift (steady : InStep fs start k) (shift : Shift fs k k')
    (overtakes : ∀ front job back, k.jobs = front ++ job :: back → job.result = none →
      ∀ op ∈ unrun front, Commutes fs.effect job.op op) : InStep fs start k' := by
  cases shift with
  | more ops store ran todo written =>
    refine ⟨by rw [store, ran, steady.store], ?_⟩
    rw [ran, todo, written, ← List.append_assoc, replay_append, steady.log, ← replay_append]
  | ran front job back rest split pending store ran before after written =>
    refine ⟨by rw [store, ran, steady.store, replay_append]; rfl, ?_⟩
    rw [written, ← steady.log, ran, before, after, List.append_assoc, replay_append, replay_append k.ran,
      replay_overtake _ _ _ _ (overtakes front job back split pending)]
    rfl

end Client

theorem Touch.shift {w : World σ} {k k' : Client σ} (touch : Touch setup w c e k k') : Client.Shift setup.fs k k' := by
  cases touch with
  | sent turn here sent =>
    obtain ⟨_, rfl, _⟩ | ⟨msg, sync, result, message, sent, _⟩ := Client.sendOp_cases sent
    · exact .same rfl rfl rfl rfl
    · exact Client.shift_of_responseMsg sent
  | moved turn moves => exact Client.shift_of_step moves
  | heard turn next =>
    obtain ⟨_, _, jobs, write, _, _, store, ran⟩ := k.hear_rest _
    exact .same store ran (by simp [Client.todo, jobs, write]) (by simp [Client.written, write])
  | corked turn here sent | uncorked turn here sent | flushed turn sent => exact Client.shift_of_responseMsg sent
  | _ => exact .same rfl rfl rfl rfl

/-! ### The server -/

/-- Nothing fails, nobody gives up waiting, and the kernel starts an operation only
when it commutes with all that are under way. -/
def Orderly (setup : Setup σ) (w : World σ) : Event σ → Prop
  | .enter _ call => ∀ u op, (w.workers u).op = some op → Commutes setup.fs.effect ⟨w.serial, call⟩ op
  | .send _ cut | .corkSend _ cut | .uncorkSend _ cut | .flush _ cut => cut = none
  | .readFails _ | .timeOut _ | .corkTimeOut _ => False
  | _ => True

/-- Operations under way at the same time commute. -/
def Compatible (fs : FileSystem σ) (w : World σ) : Prop :=
  ∀ t u op other, t ≠ u → (w.workers t).op = some op → (w.workers u).op = some other → Commutes fs.effect op other

theorem Step.op_origin {w w' : World σ} (step : Step setup w e w') (own : (w'.workers t).op = some op) :
    (w.workers t).op = some op ∨ ∃ call, e = .enter t call ∧ op = ⟨w.serial, call⟩ := by
  have moved : ∀ {u : ℕ} {pc : Worker}, w'.workers = (w.setWorker u pc).workers →
      (pc.op = some op → u = t → (w.workers t).op = some op ∨ ∃ call, e = .enter t call ∧ op = ⟨w.serial, call⟩) →
      (w.workers t).op = some op ∨ ∃ call, e = .enter t call ∧ op = ⟨w.serial, call⟩ := by
    intro u pc workers same
    rw [workers, workers_setWorker] at own
    split at own
    · next equal => exact same own equal.symm
    · exact .inl own
  cases step with
  | @enter _ u call idle =>
    refine moved rfl fun own same => .inr ⟨call, ?_, ?_⟩
    · rw [same]
    · exact (Option.some.inj own).symm
  | lockCork here free uncorked => exact moved rfl fun own same => .inl (by rw [← same, here]; exact own)
  | readList here | unlockCork here | execute here => exact moved rfl fun own same => .inl (by rw [← same, here]; exact own)
  | send here known sent => exact moved rfl fun own same => .inl (by rw [← same, here]; exact own)
  | @journal entry filestore _ _ _ _ here passes =>
    refine moved rfl fun own same => .inl ?_
    rw [← same, here]
    cases filestore with
    | true => cases own
    | false => exact own
  | take here known filled => exact moved rfl fun own same => .inl (by rw [← same, here]; exact own)
  | timeOut here => exact moved rfl fun own same => .inl (by rw [← same, here]; exact own)
  | leave here => exact moved rfl fun own same => by cases own
  | _ => exact .inl own

theorem Compatible.step {w w' : World σ} (compatible : Compatible setup.fs w) (step : Step setup w e w')
    (orderly : Orderly setup w e) : Compatible setup.fs w' := by
  intro t u op other different own theirs
  obtain own | ⟨call, rfl, rfl⟩ := step.op_origin own <;> obtain theirs | ⟨call', enters, rfl⟩ := step.op_origin theirs
  · exact compatible t u op other different own theirs
  · subst enters
    exact fun s => (orderly t op own s).symm
  · exact orderly u other theirs
  · cases enters
    exact absurd rfl different

/-- The server is where the operations lead that were handed out, but for those it
has still to execute. -/
structure Executes (fs : FileSystem σ) (start : σ) (w : World σ) : Prop where
  store : w.store = replay fs.effect w.executed start
  order : ∃ items, Pending (fun t => (w.workers t).unexecuted) items ∧
    replay fs.effect (updates w.executed ++ items) start = replay fs.effect (updates w.order) start

private theorem unexecuted_update (w : World σ) (t : ℕ) (pc : Worker) :
    (fun u => ((w.setWorker t pc).workers u).unexecuted) =
      Function.update (fun u => (w.workers u).unexecuted) t pc.unexecuted := by
  funext u
  rw [workers_setWorker, Function.update_apply]
  split <;> rfl

private theorem unexecuted_same {w : World σ} (pc : Worker) (same : pc.unexecuted = (w.workers t).unexecuted) :
    (fun u => ((w.setWorker t pc).workers u).unexecuted) = fun u => (w.workers u).unexecuted := by
  rw [unexecuted_update, same]
  exact Function.update_eq_self ..

theorem Executes.frame {fs : FileSystem σ} {w w' : World σ} (executes : Executes fs start w)
    (workers : (fun t => (w'.workers t).unexecuted) = fun t => (w.workers t).unexecuted)
    (order : w'.order = w.order) (executed : w'.executed = w.executed) (store : w'.store = w.store) :
    Executes fs start w' := by
  refine ⟨by rw [store, executed, executes.store], ?_⟩
  rw [workers, order, executed]
  exact executes.order

theorem Executes.handedOut {fs : FileSystem σ} {w w' : World σ} (executes : Executes fs start w)
    (free : (w.workers t).unexecuted = none)
    (workers : (fun u => (w'.workers u).unexecuted) =
      Function.update (fun u => (w.workers u).unexecuted) t (if isFsync op.call then none else some op))
    (order : w'.order = w.order ++ [op]) (executed : w'.executed = w.executed) (store : w'.store = w.store) :
    Executes fs start w' := by
  refine ⟨by rw [store, executed, executes.store], ?_⟩
  obtain ⟨items, pending, all⟩ := executes.order
  rw [workers, order, executed]
  by_cases flush : isFsync op.call
  · refine ⟨items, ?_, by simpa [updates, flush] using all⟩
    rw [if_pos flush, ← free]
    exact (Function.update_eq_self t fun u => (w.workers u).unexecuted).symm ▸ pending
  · refine ⟨items ++ [op], ?_, ?_⟩
    · rw [if_neg flush]
      exact pending.take free op
    · rw [← List.append_assoc, replay_append, all, ← replay_append]
      simp [updates, flush]

/-- An operation is executed before others that were handed out earlier. -/
theorem Executes.executed {fs : FileSystem σ} {w w' : World σ} (executes : Executes fs start w)
    (compatible : Compatible fs w) (here : w.workers t = .executing op waits)
    (workers : (fun u => (w'.workers u).unexecuted) = Function.update (fun u => (w.workers u).unexecuted) t none)
    (order : w'.order = w.order) (executed : w'.executed = w.executed ++ [op])
    (store : w'.store = fs.effect op w.store) : Executes fs start w' := by
  refine ⟨by rw [store, executed, executes.store, replay_append]; rfl, ?_⟩
  obtain ⟨items, pending, all⟩ := executes.order
  rw [workers, order, executed]
  by_cases flush : isFsync op.call
  · have free : (w.workers t).unexecuted = none := by simp [here, Worker.unexecuted, flush]
    refine ⟨items, ?_, by simpa [updates, flush] using all⟩
    rw [← free]
    exact (Function.update_eq_self t fun u => (w.workers u).unexecuted).symm ▸ pending
  · have holds : (w.workers t).unexecuted = some op := by simp [here, Worker.unexecuted, flush]
    obtain ⟨front, back, rfl, rest, others⟩ := pending.put holds
    refine ⟨front ++ back, rest, ?_⟩
    have commute : ∀ other ∈ front, Commutes fs.effect op other := by
      intro other member
      obtain ⟨u, different, theirs⟩ := others other (List.mem_append_left back member)
      exact compatible t u op other different.symm (by rw [here]; rfl) (Worker.op_of_unexecuted theirs)
    have entry : updates [op] = [op] := by simp [updates, flush]
    rw [← all, updates_append, entry, List.append_assoc, replay_append,
      replay_append (updates w.executed) (front ++ op :: back), replay_overtake _ _ _ _ commute]
    rfl

/-- Without a bilog every operation is executed. -/
theorem stays_of_records (noBilog : setup.journal ≠ some .bilog)
    (passes : setup.records call store = some (entry, filestore)) : filestore = false := by
  unfold Setup.records at passes
  split at passes
  · cases passes
    rfl
  · cases passes
    rfl
  · next bilog => exact absurd bilog noBilog
  · cases passes

theorem Executes.step {w w' : World σ} (executes : Executes setup.fs start w) (compatible : Compatible setup.fs w)
    (noBilog : setup.journal ≠ some .bilog) (step : Step setup w e w') : Executes setup.fs start w' := by
  cases step with
  | @readList _ t op here =>
    exact executes.handedOut (by rw [here]; rfl) (unexecuted_update w t _) rfl rfl rfl
  | @execute _ t op waits here => exact executes.executed compatible here (unexecuted_update w t _) rfl rfl rfl
  | enter idle => exact executes.frame (unexecuted_same _ (by rw [idle]; rfl)) rfl rfl rfl
  | lockCork here free uncorked => exact executes.frame (unexecuted_same _ (by rw [here]; rfl)) rfl rfl rfl
  | @send k k' awaited _ t cut c op rest waits here known sent =>
    have same : (Worker.sending op rest (if awaited then waits ++ [c] else waits)).unexecuted =
        (w.workers t).unexecuted := by rw [here]; rfl
    exact executes.frame (unexecuted_same (w := w.setClient c k') _ same) rfl rfl rfl
  | unlockCork here | timeOut here | leave here =>
    exact executes.frame (unexecuted_same _ (by rw [here]; rfl)) rfl rfl rfl
  | @journal entry filestore _ t op waits here passes =>
    obtain rfl := stays_of_records noBilog passes
    exact executes.frame (unexecuted_same (.afterJournal op waits false) (by rw [here]; rfl)) rfl rfl rfl
  | @take k reply _ t c op rest ret here known filled =>
    have same : (Worker.waiting op rest ret).unexecuted = (w.workers t).unexecuted := by rw [here]; rfl
    exact executes.frame (unexecuted_same (w := w.setClient c _) _ same) rfl rfl rfl
  | _ => exact executes.frame rfl rfl rfl rfl

/-! ### What a client has under way -/

namespace Client

/-- How the messages, jobs and slots of a client that lives look like. Only
synchronous clients have a pool. -/
structure Shape (k : Client σ) : Prop where
  pooled : k.pool = true → k.mode = .sync
  single : k.pool = false → k.jobs.length ≤ 1 ∧ ∀ job ∈ k.jobs, job.inline = true
  owned : k.mode = .sync → ∀ job ∈ k.jobs, job.tid ≠ none
  asking : k.mode = .sync → ∀ msg ∈ k.net.write.waiting, ∀ op, msg.op = some op → ∃ t, msg = .syncOp op t
  answered : ∀ t reply, k.net.parked (.worker t) = some (some reply) → reply.answers ≠ none

variable {k k' : Client σ} {fs : FileSystem σ}

/-- Messages without operations, and messages that ask for an answer. -/
theorem Shape.responseMsg (shape : k.Shape) (asks : k.mode = .sync → ∀ op, msg.op = some op → ∃ t, msg = .syncOp op t)
    (sent : k.responseMsg msg flush wantResponse tid cut = (k', result)) : k'.Shape := by
  have same : k'.mode = k.mode ∧ k'.pool = k.pool ∧ k'.jobs = k.jobs ∧ ∀ other ∈ k'.net.write.waiting,
      other ∈ k.net.write.waiting ∨ other = msg ∨ other = .nop := by
    obtain ⟨_, rfl, _⟩ | ⟨_, messages, parked, status, rfl, among, _, _⟩ := Client.responseMsg_cases sent
    · exact ⟨rfl, rfl, rfl, fun _ member => .inl member⟩
    · refine ⟨rfl, rfl, rfl, fun other member => ?_⟩
      obtain old | new := List.mem_append.mp member
      · exact .inl old
      · exact .inr (by simpa using among.subset new)
  obtain ⟨mode, pool, jobs, waiting⟩ := same
  refine ⟨?_, ?_, ?_, fun sync other member op carries => ?_, fun t reply filled => ?_⟩
  · rw [mode, pool]
    exact shape.pooled
  · rw [pool, jobs]
    exact shape.single
  · rw [mode, jobs]
    exact shape.owned
  · rw [mode] at sync
    obtain old | rfl | rfl := waiting other member
    · exact shape.asking sync other old op carries
    · exact asks sync op carries
    · cases carries
  · exact shape.answered t reply (Client.filled_responseMsg sent filled)

theorem Shape.process (shape : k.Shape) (free : ∀ job ∈ k.jobs, job.inline = false)
    (next : k.net.write.waiting = msg :: rest) : (k.process msg).Shape := by
  have idle : k.pool = false → k.jobs = [] := by
    intro pool
    refine List.eq_nil_iff_forall_not_mem.mpr fun job member => ?_
    cases (free job member).symm.trans ((shape.single pool).2 job member)
  have mode := (k.process_kept msg).mode
  have pool := (k.process_kept msg).pool
  have waiting : (k.process msg).net.write.waiting = rest := by
    rw [k.net_process msg, Fifo.waiting_pop, next, List.tail_cons]
  have asking : k.mode = .sync → ∀ other ∈ rest, ∀ op, other.op = some op → ∃ t, other = .syncOp op t :=
    fun sync other member => shape.asking sync other (next ▸ List.mem_cons_of_mem msg member)
  have jobs : (k.process msg).jobs = k.jobs ∨ ∃ job, (k.process msg).jobs = k.jobs ++ [job] ∧
      (k.pool = false → job.inline = true) ∧ (k.mode = .sync → job.tid ≠ none) := by
    cases msg with
    | syncOp op tid =>
      refine .inr ⟨⟨op, if k.mode = .sync ∨ k.mode = .flushsync then some tid else none, !k.pool, none⟩, ?_, ?_, ?_⟩
      · simp only [Client.process]
        split <;> rfl
      · intro pool
        simp [pool]
      · intro sync
        simp [sync]
    | asyncOp op =>
      refine .inr ⟨⟨op, none, true, none⟩, rfl, fun _ => rfl, fun sync => ?_⟩
      obtain ⟨t, same⟩ := shape.asking sync (.asyncOp op) (next ▸ List.mem_cons_self) op rfl
      cases same
    | _ => exact .inl rfl
  refine ⟨?_, fun single => ?_, fun sync job member => ?_, ?_, ?_⟩
  · rw [mode, pool]
    exact shape.pooled
  · rw [pool] at single
    obtain same | ⟨job, same, inline, _⟩ := jobs <;> rw [same]
    · exact shape.single single
    · rw [idle single]
      simpa using inline single
  · rw [mode] at sync
    obtain same | ⟨new, same, _, tid⟩ := jobs <;> rw [same] at member
    · exact shape.owned sync job member
    · obtain member | same := List.mem_append.mp member
      · exact shape.owned sync job member
      · rw [List.mem_singleton.mp same]
        exact tid sync
  · rw [mode, waiting]
    exact asking
  · rw [k.net_process msg]
    exact shape.answered

/-- Jobs go on, or go away. -/
private theorem Shape.of_jobs (shape : k.Shape) (mode : k'.mode = k.mode) (pool : k'.pool = k.pool)
    (net : k'.net = k.net) (fewer : k'.jobs.length ≤ k.jobs.length)
    (jobs : ∀ job ∈ k'.jobs, ∃ old ∈ k.jobs, old.inline = job.inline ∧ old.tid = job.tid) : k'.Shape := by
  refine ⟨?_, fun single => ?_, fun sync job member => ?_, ?_, ?_⟩
  · rw [mode, pool]
    exact shape.pooled
  · rw [pool] at single
    obtain ⟨short, inline⟩ := shape.single single
    refine ⟨fewer.trans short, fun job member => ?_⟩
    obtain ⟨old, member, same, _⟩ := jobs job member
    exact same ▸ inline old member
  · rw [mode] at sync
    obtain ⟨old, member, _, same⟩ := jobs job member
    exact same ▸ shape.owned sync old member
  · rw [mode, net]
    exact shape.asking
  · rw [net]
    exact shape.answered

theorem Shape.moved (shape : k.Shape) (moves : ClientStep fs k action k') : k'.Shape := by
  cases moves with
  | receive free next => exact shape.process free next
  | @run front job back _ split pending =>
    refine shape.of_jobs rfl rfl rfl (by rw [split]; simp) fun other member => ?_
    rw [split]
    obtain member | member := List.mem_append.mp member
    · exact ⟨other, List.mem_append_left _ member, rfl, rfl⟩
    · obtain rfl | member := List.mem_cons.mp member
      · exact ⟨job, List.mem_append_right _ List.mem_cons_self, rfl, rfl⟩
      · exact ⟨other, List.mem_append_right _ (List.mem_cons_of_mem _ member), rfl, rfl⟩
  | @finish front job back code _ split done =>
    have rest : ({ k with jobs := front ++ back } : Client σ).Shape := by
      refine shape.of_jobs rfl rfl rfl (by rw [split]; simp) fun other member => ⟨other, ?_, rfl, rfl⟩
      rw [split]
      obtain member | member := List.mem_append.mp member
      · exact List.mem_append_left _ member
      · exact List.mem_append_right _ (List.mem_cons_of_mem _ member)
    unfold acknowledge
    split
    · exact ⟨rest.pooled, rest.single, rest.owned, rest.asking, rest.answered⟩
    · exact rest
  | requestCork control | requestUncork control =>
    exact ⟨shape.pooled, shape.single, shape.owned, shape.asking, shape.answered⟩

theorem Shape.take (shape : k.Shape) (tid : ThreadId) : (k.take tid).Shape :=
  ⟨shape.pooled, shape.single, shape.owned, shape.asking,
    fun t reply filled => shape.answered t reply (Client.filled_take filled)⟩

theorem Shape.hear (shape : k.Shape) (msg : FsyncerMsg) : (k.hear msg).Shape := by
  obtain ⟨mode, pool, jobs, write, _⟩ := k.hear_rest msg
  refine ⟨?_, ?_, ?_, ?_, fun t reply filled => ?_⟩
  · rw [mode, pool]
    exact shape.pooled
  · rw [pool, jobs]
    exact shape.single
  · rw [mode, jobs]
    exact shape.owned
  · rw [mode, write]
    exact shape.asking
  · exact (Client.filled_hear filled).elim (shape.answered t reply) id

end Client

theorem Touch.shape {k k' : Client σ} (touch : Touch setup w c e k k') (shape : k.Shape) (alive : k.net.status = .alive) :
    k'.Shape := by
  cases touch with
  | same => exact shape
  | sent turn here sent =>
    obtain ⟨_, rfl, _⟩ | ⟨msg, sync, result, message, sent, _⟩ := Client.sendOp_cases sent
    · exact shape
    · refine shape.responseMsg (fun mode op carries => ?_) sent
      rw [Client.opMsg, mode] at message
      simp only [reduceCtorEq, false_or, and_false, or_false, ite_false, true_or, ite_true, Option.some.injEq,
        Prod.mk.injEq] at message
      obtain ⟨rfl, _⟩ := message
      cases carries
      exact ⟨_, rfl⟩
  | taken turn here filled | corkTaken turn here filled => exact shape.take _
  | moved turn moves => exact shape.moved moves
  | heard turn next => exact shape.hear _
  | died turn => exact ⟨shape.pooled, shape.single, shape.owned, shape.asking, shape.answered⟩
  | corked turn here sent | uncorked turn here sent | flushed turn sent =>
    exact shape.responseMsg (fun _ _ carries => by cases carries) sent
  | pushed turn ready => exact ⟨shape.pooled, shape.single, shape.owned, shape.asking, shape.answered⟩
  | dropped turn dead => cases dead.symm.trans alive

/-- A worker that waits for a client goes on doing so until it has its answer. -/
theorem Step.waits_kept {w w' : World σ} (noBilog : setup.journal ≠ some .bilog) (orderly : Orderly setup w e)
    (step : Step setup w e w') (waits : c ∈ (w.workers t).waits) :
    (c ∈ (w'.workers t).waits ∧ (w'.workers t).op = (w.workers t).op) ∨
      ∃ op rest ret, e = .take t ∧ w.workers t = .waiting op (c :: rest) ret := by
  have moved : ∀ {u : ℕ} {pc : Worker}, w'.workers = (w.setWorker u pc).workers →
      (u = t → c ∈ pc.waits ∧ pc.op = (w.workers u).op) →
      c ∈ (w'.workers t).waits ∧ (w'.workers t).op = (w.workers t).op := by
    intro u pc workers kept
    rw [workers, workers_setWorker]
    split
    · next same =>
      subst same
      exact kept rfl
    · exact ⟨waits, rfl⟩
  cases step with
  | enter idle => exact .inl (moved rfl fun same => by rw [← same, idle] at waits; cases waits)
  | lockCork here free uncorked => exact .inl (moved rfl fun same => by rw [← same, here] at waits; cases waits)
  | readList here | leave here => exact .inl (moved rfl fun same => by rw [← same, here] at waits; cases waits)
  | @send k k' awaited _ u cut d op rest others here known sent =>
    refine .inl (moved rfl fun same => ?_)
    rw [← same, here] at waits
    rw [here]
    refine ⟨?_, rfl⟩
    cases awaited with
    | true => exact List.mem_append_left _ waits
    | false => exact waits
  | unlockCork here | execute here =>
    exact .inl (moved rfl fun same => by rw [← same, here] at waits; rw [here]; exact ⟨waits, rfl⟩)
  | @journal entry filestore _ u op others here passes =>
    refine .inl (moved rfl fun same => ?_)
    rw [stays_of_records noBilog passes]
    rw [← same, here] at waits
    rw [here]
    exact ⟨waits, rfl⟩
  | @take k reply _ u d op rest ret here known filled =>
    by_cases same : u = t ∧ d = c
    · obtain ⟨rfl, rfl⟩ := same
      exact .inr ⟨op, rest, ret, rfl, here⟩
    · refine .inl (moved rfl fun equal => ?_)
      rw [← equal, here] at waits
      rw [here]
      obtain rfl | waits := List.mem_cons.mp waits
      · exact absurd ⟨equal, rfl⟩ same
      · exact ⟨waits, rfl⟩
  | timeOut here => cases orderly
  | _ => exact .inl ⟨waits, rfl⟩

/-- No client is sent an operation twice. -/
def FanOut (w : World σ) : Prop :=
  ∀ t op rest waits, w.workers t = .sending op rest waits → (rest ++ waits).Nodup

theorem FanOut.step {w w' : World σ} (fanOut : FanOut w) (locks : Locks w) (step : Step setup w e w') : FanOut w' := by
  have moved : ∀ {u : ℕ} {pc : Worker}, w'.workers = (w.setWorker u pc).workers →
      (∀ op rest waits, pc = .sending op rest waits → (rest ++ waits).Nodup) → FanOut w' := by
    intro u pc workers fine t op rest waits here
    rw [workers, workers_setWorker] at here
    split at here
    · exact fine op rest waits here
    · exact fanOut t op rest waits here
  cases step with
  | readList here =>
    refine moved rfl fun op rest waits same => ?_
    cases same
    simpa using locks.distinct
  | @send k k' awaited _ u cut d op rest waits here known sent =>
    refine moved rfl fun op' rest' waits' same => ?_
    cases same
    have distinct := fanOut u op (d :: rest) waits here
    cases awaited with
    | true =>
      have turned : (rest ++ (waits ++ [d])).Perm (d :: rest ++ waits) := by
        rw [← List.append_assoc]
        exact List.perm_append_singleton d (rest ++ waits)
      exact turned.nodup_iff.mpr distinct
    | false => exact (List.nodup_cons.mp distinct).2
  | journal here passes =>
    refine moved rfl fun op' rest' waits' same => ?_
    unfold Worker.afterJournal at same
    split at same <;> cases same
  | enter idle => exact moved rfl fun _ _ _ same => by cases same
  | lockCork here free uncorked => exact moved rfl fun _ _ _ same => by cases same
  | unlockCork here | execute here | timeOut here | leave here => exact moved rfl fun _ _ _ same => by cases same
  | take here known filled => exact moved rfl fun _ _ _ same => by cases same
  | _ => exact fanOut

/-! ### Convergence -/

/-- A client that follows the server from the start. A synchronous one owes a
thread at most the answer to the operation the thread is waiting with. -/
structure Follows (fs : FileSystem σ) (start : σ) (w : World σ) (c : ℕ) (k : Client σ) : Prop where
  inStep : k.InStep fs start
  shape : k.Shape
  alive : k.net.status = .alive
  listed : c ∈ w.syncList
  owes : k.mode = .sync → ∀ t o, k.debt t o ≤ if c ∈ (w.workers t).waits ∧ (w.workers t).op = some o then 1 else 0

variable {fs : FileSystem σ} {start : σ} {w w' : World σ} {k k' : Client σ}

private theorem owes_pending {job : Job} (member : job ∈ k.jobs) (tid : job.tid = some t) : 0 < k.debt t job.op := by
  have owes : job.op ∈ k.jobs.filterMap (Job.owes t) :=
    List.mem_filterMap.mpr ⟨job, member, by simp [Job.owes, tid]⟩
  rw [Client.debt_eq]
  have count := List.count_pos_iff.mpr owes
  omega

/-- The pool runs operations only that are under way at the same time. -/
theorem Follows.overtakes (follows : Follows fs start w c k) (compatible : Compatible fs w) (front : List Job)
    (job : Job) (back : List Job) (split : k.jobs = front ++ job :: back) (op : Op)
    (member : op ∈ Client.unrun front) : Commutes fs.effect job.op op := by
  cases pool : k.pool with
  | false =>
    have short := (follows.shape.single pool).1
    rw [split] at short
    have none_before : front = [] := by
      cases front with
      | nil => rfl
      | cons first front => simp at short
    rw [none_before] at member
    cases member
  | true =>
    have sync := follows.shape.pooled pool
    obtain ⟨other, among, rfl⟩ := List.mem_map.mp member
    have among := List.mem_of_mem_filter among
    have inJobs : job ∈ k.jobs := split ▸ List.mem_append_right _ List.mem_cons_self
    have otherIn : other ∈ k.jobs := split ▸ List.mem_append_left _ among
    obtain ⟨t, own⟩ := Option.ne_none_iff_exists'.mp (follows.shape.owned sync job inJobs)
    obtain ⟨u, theirs⟩ := Option.ne_none_iff_exists'.mp (follows.shape.owned sync other otherIn)
    have working : ∀ {j : Job} {v : ℕ}, j ∈ k.jobs → j.tid = some v → (w.workers v).op = some j.op := by
      intro j v member tid
      have owed := owes_pending member tid
      have bound := follows.owes sync v j.op
      split at bound
      · next waiting => exact waiting.2
      · omega
    by_cases same : t = u
    · -- One thread would be owed two answers to one operation.
      subst same
      have equal : job.op = other.op :=
        Option.some.inj ((working inJobs own).symm.trans (working otherIn theirs))
      have first : 0 < (front.filterMap (Job.owes t)).count job.op :=
        List.count_pos_iff.mpr (List.mem_filterMap.mpr ⟨other, among, by simp [Job.owes, theirs, equal]⟩)
      have second : 0 < ((job :: back).filterMap (Job.owes t)).count job.op :=
        List.count_pos_iff.mpr (List.mem_filterMap.mpr ⟨job, List.mem_cons_self, by simp [Job.owes, own]⟩)
      have bound : k.debt t job.op ≤ 1 := (follows.owes sync t job.op).trans (by split <;> omega)
      rw [Client.debt_eq, split, List.filterMap_append, List.count_append] at bound
      omega
    · exact compatible t u job.op other.op same (working inJobs own) (working otherIn theirs)

/-- Nobody dies in an orderly run. -/
theorem Touch.alive (touch : Touch setup w c e k k') (orderly : Orderly setup w e) (alive : k.net.status = .alive) :
    k'.net.status = .alive := by
  have sends : ∀ {msg : FsyncerMsg} {flush wantResponse : Bool} {tid : ThreadId} {cut : Option ℕ}
      {result : Option Bool}, cut = none → k.responseMsg msg flush wantResponse tid cut = (k', result) →
      k'.net.status = .alive := by
    rintro msg flush wantResponse tid cut result rfl sent
    obtain ⟨_, rfl, _⟩ | ⟨_, messages, parked, status, rfl, _, _, outcome⟩ := Client.responseMsg_cases sent
    · exact alive
    · obtain ⟨rfl, _⟩ | ⟨_, cut, _⟩ := outcome
      · rfl
      · exact absurd rfl cut
  cases touch with
  | same => exact alive
  | sent turn here sent =>
    subst turn
    obtain ⟨_, rfl, _⟩ | ⟨msg, sync, result, message, sent, _⟩ := Client.sendOp_cases sent
    · exact alive
    · exact sends orderly sent
  | taken turn here filled | corkTaken turn here filled => exact alive
  | moved turn moves => exact (Client.net_step moves).2.trans alive
  | heard turn next => exact (k.hear_rest _).2.2.2.2.1.trans alive
  | died turn =>
    subst turn
    cases orderly
  | corked turn here sent | uncorked turn here sent | flushed turn sent =>
    subst turn
    exact sends orderly sent
  | pushed turn ready => exact alive
  | dropped turn dead => cases dead.symm.trans alive

/-- The answer that a thread takes is the one to its operation. -/
private theorem owes_take (follows : Follows fs start w c k) (sync : k.mode = .sync)
    (own : (w.workers t).op = some o) (filled : k.net.parked (.worker t) = some (some reply)) :
    (k.take (.worker t)).debt t o = 0 := by
  obtain ⟨answered, tag⟩ := Option.ne_none_iff_exists'.mp (follows.shape.answered t reply filled)
  have slot : k.slot t = [answered] := by simp [Client.slot, filled, tag]
  have present : 0 < k.debt t answered := by
    have taken := k.debt_take_self t answered
    simp only [slot, List.count_cons_self, List.count_nil] at taken
    omega
  have same : o = answered := by
    have bound := follows.owes sync t answered
    split at bound
    · next waiting => exact Option.some.inj (own.symm.trans waiting.2)
    · omega
  have taken := k.debt_take_self t o
  have bound : k.debt t o ≤ 1 := (follows.owes sync t o).trans (by split <;> omega)
  rw [slot, same, List.count_cons_self, List.count_nil] at taken
  rw [same] at bound ⊢
  omega

/-- A synchronous client is waited for. -/
private theorem sync_awaited (sync : k.mode = .sync) (alive : k.net.status = .alive)
    (sent : k.sendOp op t none = (k', awaited)) : awaited = true := by
  simp only [Client.sendOp, Client.opMsg, sync, Client.responseMsg, alive] at sent
  simp only [reduceCtorEq, false_or, and_false, or_false, ite_false, true_or, ite_true, Prod.mk.injEq] at sent
  simpa using sent.2.symm

/-- What a synchronous client owes, step by step. -/
theorem Follows.owes_step (follows : Follows setup.fs start w c k) (fanOut : FanOut w)
    (noBilog : setup.journal ≠ some .bilog) (step : Step setup w e w') (orderly : Orderly setup w e)
    (known : w.clients c = some k) (there : w'.clients c = some k') (sync : k.mode = .sync) (t : ℕ) (o : Op) :
    k'.debt t o ≤ if c ∈ (w'.workers t).waits ∧ (w'.workers t).op = some o then 1 else 0 := by
  have bound := follows.owes sync t o
  obtain less | ⟨rest, waits, cut, awaited, rfl, here, sent, less⟩ := step.debt known there t o
  · split at bound
    · next waiting =>
      obtain ⟨stays, own⟩ | ⟨op, rest, ret, rfl, here⟩ := step.waits_kept noBilog orderly waiting.1
      · rw [if_pos ⟨stays, own.trans waiting.2⟩]
        omega
      · cases step with
        | take here' known' filled =>
          cases here.symm.trans here'
          cases known.symm.trans known'
          obtain ⟨_, rfl⟩ | ⟨other, _⟩ := clients_setClient (w := w) there
          · rw [owes_take follows sync waiting.2 filled]
            exact Nat.zero_le _
          · exact absurd rfl other
    · exact (less.trans bound).trans (Nat.zero_le _)
  · obtain rfl : cut = none := orderly
    obtain rfl := sync_awaited sync follows.alive sent
    have free : c ∉ waits := fun among =>
      (List.nodup_cons.mp (fanOut t o (c :: rest) waits here)).1 (List.mem_append_right _ among)
    rw [if_neg (fun waiting => free (by rw [here] at waiting; exact waiting.1))] at bound
    cases step with
    | send here' known' sent' =>
      cases here.symm.trans here'
      cases known.symm.trans known'
      cases sent.symm.trans sent'
      rw [workers_setWorker, if_pos rfl, if_pos ⟨List.mem_append_right _ List.mem_cons_self, rfl⟩]
      omega

theorem Follows.step (follows : Follows setup.fs start w c k) (compatible : Compatible setup.fs w) (fanOut : FanOut w)
    (noBilog : setup.journal ≠ some .bilog) (step : Step setup w e w') (orderly : Orderly setup w e)
    (known : w.clients c = some k) : ∃ k', w'.clients c = some k' ∧ Follows setup.fs start w' c k' := by
  obtain ⟨k', there, touch⟩ := step.touch known
  have alive := touch.alive orderly follows.alive
  have mode := (step.stable known there).1
  refine ⟨k', there, follows.inStep.shift touch.shift fun front job back split _ =>
    follows.overtakes compatible front job back split, touch.shape follows.shape follows.alive, alive, ?_, ?_⟩
  · cases step with
    | push ready known' unread => exact List.mem_append_left _ follows.listed
    | @harvest d l _ listed known' dead unread =>
      have different : c ≠ d := by
        rintro rfl
        cases known.symm.trans known'
        cases dead.symm.trans follows.alive
      exact (List.mem_erase_of_ne different).mpr follows.listed
    | _ => exact follows.listed
  · intro sync
    exact follows.owes_step fanOut noBilog step orderly known there (mode ▸ sync)

theorem Client.Fresh.follows {w : World σ} {k : Client σ} (fresh : k.Fresh) (pooled : k.pool = true → k.mode = .sync)
    (listed : c ∈ w.syncList) : Follows fs k.store w c k where
  inStep := ⟨by rw [fresh.ran]; rfl, by simp [Client.todo, Client.unrun, fresh.ran, fresh.jobs, fresh.net, fresh.written, Fifo.empty]⟩
  shape := ⟨pooled, by simp [fresh.jobs], by simp [fresh.jobs], by simp [fresh.net, Fifo.empty], by simp [fresh.net]⟩
  alive := by rw [fresh.net]
  listed := listed
  owes _ t o := by
    have nothing : k.debt t o = 0 := by
      simp [Client.debt, Client.outstanding, Client.slot, fresh.jobs, fresh.net, fresh.answers, Fifo.empty]
    rw [nothing]
    exact Nat.zero_le _

/-- What an orderly run keeps, for a client that is there from the start. -/
structure Tracks (setup : Setup σ) (start : σ) (mode : ClientMode) (c : ℕ) (w : World σ) : Prop where
  compatible : Compatible setup.fs w
  fanOut : FanOut w
  coherent : Coherent w
  executes : Executes setup.fs start w
  follows : ∃ k, w.clients c = some k ∧ k.mode = mode ∧ Follows setup.fs start w c k

theorem Tracks.step (tracks : Tracks setup start mode c w) (noBilog : setup.journal ≠ some .bilog)
    (step : Step setup w e w') (orderly : Orderly setup w e) : Tracks setup start mode c w' := by
  obtain ⟨compatible, fanOut, coherent, executes, k, known, own, follows⟩ := tracks
  obtain ⟨k', there, follows'⟩ := follows.step compatible fanOut noBilog step orderly known
  exact ⟨compatible.step step orderly, fanOut.step coherent.locks step, coherent.step step,
    executes.step compatible noBilog step, k', there, (step.stable known there).1.trans own, follows'⟩

theorem AtRest.tracks {first : Client σ} (rest : AtRest w) (listed : c ∈ w.syncList) (there : w.clients c = some first)
    (pooled : first.pool = true → first.mode = .sync) (same : first.store = w.store) :
    Tracks setup w.store first.mode c w where
  compatible := by simp [Compatible, rest.workers, Worker.op]
  fanOut := by simp [FanOut, rest.workers]
  coherent := rest.coherent
  executes := {
    store := by rw [rest.executed]; rfl
    order := ⟨[], .nil fun t => by rw [rest.workers]; rfl, by rw [rest.executed, rest.order]; rfl⟩ }
  follows := ⟨first, there, rfl, same ▸ (rest.fresh c first there).follows pooled listed⟩

end Fsyncer.Replication
