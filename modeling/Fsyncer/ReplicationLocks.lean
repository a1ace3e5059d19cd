import Fsyncer.Replication

/-! What holds in every state of the protocol: what the steps leave of a client,
who holds which lock, and that no two operations are the same. -/
namespace Fsyncer.Replication
open Interleaving Vfs

variable {σ : Type} {setup : Setup σ}

namespace Client

variable (k : Client σ)

/-- What sending to a client, listening to it and its own work leave alone. -/
structure Kept (k k' : Client σ) : Prop where
  mode : k'.mode = k.mode
  pool : k'.pool = k.pool
  observed : k'.observed = k.observed
  before : k'.before = k.before
  written : k'.written = k.written
  alive : k'.net.status = .alive → k.net.status = .alive

theorem refl_kept : k.Kept k := ⟨rfl, rfl, rfl, rfl, rfl, id⟩

/-- A dead client is not written to. Otherwise the message and perhaps a `nop`
after it are on their way, or an initial part of them and the client is dead; no
slot is filled or emptied by it. -/
theorem responseMsg_cases {k k' : Client σ} (sent : k.responseMsg msg flush wantResponse tid cut = (k', result)) :
    k.net.status = .dead ∧ k' = k ∧ result = none ∨
    k.net.status = .alive ∧ ∃ messages parked status,
      k' = { k with net := ⟨k.net.write.push messages, parked, status⟩ } ∧
      messages <+: [msg, .nop] ∧ (∀ t, (parked t).join = (k.net.parked t).join) ∧
      (status = .alive ∧ cut = none ∧ msg ∈ messages ∧ result = some wantResponse ∨
        status = .dead ∧ cut ≠ none ∧ result = none) := by
  have all : (msg :: if flush && k.comp then [.nop] else []) <+: [msg, .nop] := by
    split
    · exact List.prefix_rfl
    · exact ⟨[.nop], rfl⟩
  have parked : ∀ t, ((if wantResponse then Function.update k.net.parked tid (some ((k.net.parked tid).getD none))
      else k.net.parked) t).join = (k.net.parked t).join := by
    intro t
    split
    · by_cases same : t = tid
      · subst same
        rw [Function.update_self]
        cases k.net.parked t <;> rfl
      · rw [Function.update_of_ne same]
    · rfl
  unfold responseMsg at sent
  cases status : k.net.status with
  | dead =>
    rw [if_pos status] at sent
    cases sent
    exact .inl ⟨rfl, rfl, rfl⟩
  | alive =>
    rw [if_neg (by simp [status])] at sent
    cases cut with
    | none =>
      cases sent
      exact .inr ⟨rfl, _, _, _, rfl, all, parked, .inl ⟨status, rfl, List.mem_cons_self, rfl⟩⟩
    | some n =>
      cases sent
      exact .inr ⟨rfl, _, _, _, rfl, (List.take_prefix n _).trans all, parked, .inr ⟨rfl, by simp, rfl⟩⟩

theorem responseMsg_kept {k' : Client σ} {msg : FsyncerMsg} {result : Option Bool} (noOp : msg.op = none)
    (sent : k.responseMsg msg flush wantResponse tid cut = (k', result)) : k.Kept k' := by
  obtain ⟨_, rfl, _⟩ | ⟨alive, messages, parked, status, rfl, among, _, _⟩ := responseMsg_cases sent
  · exact k'.refl_kept
  · refine ⟨rfl, rfl, rfl, rfl, ?_, fun _ => alive⟩
    have silent : messages.filterMap FsyncerMsg.op = [] := by
      have nothing : [msg, .nop].filterMap FsyncerMsg.op = [] := by
        rw [List.filterMap_cons_none noOp]
        rfl
      exact List.prefix_nil.mp (nothing ▸ among.filterMap FsyncerMsg.op)
    simp only [written, Fifo.all_push, List.filterMap_append, silent, List.append_nil]

theorem take_kept (tid : ThreadId) : k.Kept (k.take tid) := ⟨rfl, rfl, rfl, rfl, rfl, id⟩

theorem hear_kept (msg : FsyncerMsg) : k.Kept (k.hear msg) := by
  cases msg with
  | ackCork tid =>
    simp only [hear]
    split <;> exact ⟨rfl, rfl, rfl, rfl, rfl, id⟩
  | _ => exact ⟨rfl, rfl, rfl, rfl, rfl, id⟩

theorem die_kept : k.Kept k.die := ⟨rfl, rfl, rfl, rfl, rfl, fun alive => by cases alive⟩

theorem drop_kept : k.Kept k.drop := ⟨rfl, rfl, rfl, rfl, rfl, id⟩

private theorem pop_kept : k.Kept { k with net := { k.net with write := k.net.write.pop } } :=
  ⟨rfl, rfl, rfl, rfl, by simp only [written, Fifo.all_pop], id⟩

theorem process_kept (msg : FsyncerMsg) : k.Kept (k.process msg) := by
  obtain ⟨mode, pool, observed, before, written, alive⟩ := k.pop_kept
  cases msg with
  | syncOp op tid =>
    simp only [process]
    split <;> exact ⟨mode, pool, observed, before, written, alive⟩
  | _ => exact ⟨mode, pool, observed, before, written, alive⟩

theorem step_kept {k k' : Client σ} (step : ClientStep fs k action k') : k.Kept k' := by
  cases step with
  | receive free next => exact k.process_kept _
  | @finish _ _ job _ code split done =>
    unfold acknowledge
    split <;> exact ⟨rfl, rfl, rfl, rfl, rfl, id⟩
  | _ => exact ⟨rfl, rfl, rfl, rfl, rfl, id⟩

end Client

/-! ### Locks -/

def Worker.HoldsCork : Worker → Prop
  | .locked _ | .sending _ _ _ => True
  | _ => False

def Worker.ReadsList : Worker → Prop
  | .sending _ _ _ | .sent _ _ => True
  | _ => False

/-- Who holds `CORK` and `SYNC_LIST`, and what a worker keeps of the list it read. -/
structure Locks (w : World σ) : Prop where
  held : ∀ t, w.holder = some t ↔ (w.workers t).HoldsCork
  reading : ∀ t, (w.workers t).ReadsList → .worker t ∈ w.guards
  distinct : w.syncList.Nodup
  rest : ∀ t op rest waits, w.workers t = .sending op rest waits → rest.Nodup ∧ rest ⊆ w.syncList
  newcomer : ∀ c, w.joining = .connected c → c ∉ w.syncList
  known : ∀ c, c ∈ w.syncList ∨ w.joining = .connected c → w.clients c ≠ none

/-- A worker that does not touch the locks moves. -/
theorem Locks.setWorker {w : World σ} (locks : Locks w) (t : ℕ) (pc : Worker)
    (cork : pc.HoldsCork ↔ (w.workers t).HoldsCork) (list : pc.ReadsList → (w.workers t).ReadsList)
    (rest : ∀ op rest waits, pc = .sending op rest waits → rest.Nodup ∧ rest ⊆ w.syncList) :
    Locks (w.setWorker t pc) := by
  refine ⟨fun u => ?_, fun u => ?_, locks.distinct, fun u => ?_, locks.newcomer, locks.known⟩ <;>
    by_cases same : u = t
  · subst same
    simpa [World.setWorker, cork] using locks.held u
  · simpa [World.setWorker, same] using locks.held u
  · subst same
    simpa [World.setWorker] using fun reads => locks.reading u (list reads)
  · simpa [World.setWorker, same] using locks.reading u
  · subst same
    simpa [World.setWorker] using rest
  · simpa [World.setWorker, same] using locks.rest u

theorem Locks.setClient {w : World σ} (locks : Locks w) (c : ℕ) (k : Client σ) : Locks (w.setClient c k) := by
  refine ⟨locks.held, locks.reading, locks.distinct, locks.rest, locks.newcomer, fun d member => ?_⟩
  by_cases same : d = c
  · simp [World.setClient, same]
  · simpa [World.setClient, same] using locks.known d member


theorem Locks.setReader {w : World σ} (locks : Locks w) (c : ℕ) (pc : Reader) : Locks (w.setReader c pc) :=
  ⟨locks.held, locks.reading, locks.distinct, locks.rest, locks.newcomer, locks.known⟩

/-- The list is read by workers that are on it, whatever the other threads do. -/
private theorem reading_of_guards {w : World σ} (locks : Locks w) {guards : List ThreadId}
    (kept : ∀ t, .worker t ∈ w.guards → .worker t ∈ guards) (t : ℕ) (reads : (w.workers t).ReadsList) :
    ThreadId.worker t ∈ guards :=
  kept t (locks.reading t reads)

private theorem mem_erase_reader {guards : List ThreadId} {c t : ℕ} (member : ThreadId.worker t ∈ guards) :
    ThreadId.worker t ∈ guards.erase (.reader c) :=
  (List.mem_erase_of_ne (by simp)).mpr member

theorem nobody_reads {w : World σ} (locks : Locks w) (unread : w.guards = []) (t : ℕ) :
    ¬(w.workers t).ReadsList := by
  intro reads
  have guard := locks.reading t reads
  rw [unread] at guard
  cases guard

theorem Locks.step {w w' : World σ} (locks : Locks w) (step : Step setup w e w') : Locks w' := by
  cases step with
  | @enter _ t call idle =>
    have moved := locks.setWorker t (.entered ⟨w.serial, call⟩) (by simp [idle, Worker.HoldsCork])
      (by simp [Worker.ReadsList]) (by simp)
    exact ⟨moved.held, moved.reading, moved.distinct, moved.rest, moved.newcomer, moved.known⟩
  | @lockCork _ t op here free uncorked =>
    refine ⟨fun u => ?_, fun u => ?_, locks.distinct, fun u => ?_, locks.newcomer, locks.known⟩ <;>
      by_cases same : u = t
    · simp [World.setWorker, same, Worker.HoldsCork]
    · have nobody := (locks.held u).not.mp (by simp [free])
      simpa [World.setWorker, same, Ne.symm same] using nobody
    · simp [World.setWorker, same, Worker.ReadsList]
    · simpa [World.setWorker, same] using locks.reading u
    · simp [World.setWorker, same]
    · simpa [World.setWorker, same] using locks.rest u
  | @readList _ t op here =>
    refine ⟨fun u => ?_, fun u => ?_, locks.distinct, fun u => ?_, locks.newcomer, locks.known⟩ <;>
      by_cases same : u = t
    · subst same
      have holds := (locks.held u).mpr (by simp [here, Worker.HoldsCork])
      simp [World.setWorker, Worker.HoldsCork, holds]
    · simpa [World.setWorker, same] using locks.held u
    · simp [same]
    · simpa [World.setWorker, same] using locks.reading u
    · intro op rest waits at_
      simp [World.setWorker, same] at at_
      exact at_.2.1 ▸ ⟨locks.distinct, List.Subset.refl _⟩
    · simpa [World.setWorker, same] using locks.rest u
  | @send k k' awaited _ t cut c op rest waits here known sent =>
    have before := locks.rest t op (c :: rest) waits here
    refine (locks.setClient c _).setWorker t _ ?_ ?_ ?_
    · simp [World.setClient, here, Worker.HoldsCork]
    · simp [World.setClient, here, Worker.ReadsList]
    · intro _ _ _ same
      cases same
      exact ⟨(List.nodup_cons.mp before.1).2, fun d member => before.2 (List.mem_cons_of_mem c member)⟩
  | @unlockCork _ t op waits here =>
    have holds := (locks.held t).mpr (by simp [here, Worker.HoldsCork])
    refine ⟨fun u => ?_, fun u => ?_, locks.distinct, fun u => ?_, locks.newcomer, locks.known⟩ <;>
      by_cases same : u = t
    · simp [World.setWorker, same, Worker.HoldsCork]
    · have other := (locks.held u).not.mp (by simp [holds, Ne.symm same])
      simpa [World.setWorker, same] using other
    · subst same
      simpa [World.setWorker, Worker.ReadsList] using locks.reading u (by simp [here, Worker.ReadsList])
    · simpa [World.setWorker, same] using locks.reading u
    · simp [World.setWorker, same]
    · simpa [World.setWorker, same] using locks.rest u
  | @journal entry filestore _ t op waits here passes =>
    have quiet : ¬(Worker.afterJournal op waits filestore).HoldsCork ∧
        ¬(Worker.afterJournal op waits filestore).ReadsList := by
      cases filestore <;> exact ⟨id, id⟩
    have moved := locks.setWorker t (.afterJournal op waits filestore)
      (iff_of_false quiet.1 (by simp [here, Worker.HoldsCork])) (fun reads => absurd reads quiet.2)
      (by cases filestore <;> simp [Worker.afterJournal])
    refine ⟨moved.held, fun u reads => ?_, moved.distinct, moved.rest, moved.newcomer, moved.known⟩
    have other : u ≠ t := by
      rintro rfl
      exact quiet.2 (by simpa [World.setWorker] using reads)
    exact (List.mem_erase_of_ne (by simp [other])).mpr (moved.reading u reads)
  | @execute _ t op waits here =>
    have moved := locks.setWorker t (.waiting op waits (setup.fs.exec op.call w.store).1)
      (by simp [here, Worker.HoldsCork]) (by simp [Worker.ReadsList]) (by simp)
    exact ⟨moved.held, moved.reading, moved.distinct, moved.rest, moved.newcomer, moved.known⟩
  | take here known filled =>
    exact (locks.setClient _ _).setWorker _ _ (by simp [World.setClient, here, Worker.HoldsCork])
      (by simp [Worker.ReadsList]) (by simp)
  | timeOut here =>
    exact locks.setWorker _ _ (by simp [here, Worker.HoldsCork]) (by simp [Worker.ReadsList]) (by simp)
  | leave here =>
    exact locks.setWorker _ _ (by simp [here, Worker.HoldsCork]) (by simp [Worker.ReadsList]) (by simp)
  | corkList here | uncorkList here =>
    exact ⟨locks.held, reading_of_guards locks fun _ => List.mem_cons_of_mem _, locks.distinct, locks.rest,
      locks.newcomer, locks.known⟩
  | corkTimeOut here | corkDone here | uncorkDone here =>
    exact ⟨locks.held, reading_of_guards locks fun _ => mem_erase_reader, locks.distinct, locks.rest,
      locks.newcomer, locks.known⟩
  | client known moves | flush listed known async compressed sent => exact locks.setClient _ _
  | hear here known next | readFails here known | corkSend here known sent | corkTake here known filled
  | uncorkSend here known sent =>
    exact (locks.setClient _ _).setReader _ _
  | raiseCork here free | lowerCork here free =>
    exact ⟨locks.held, locks.reading, locks.distinct, locks.rest, locks.newcomer, locks.known⟩
  | accept vacant | refuse asks refused =>
    exact ⟨locks.held, locks.reading, locks.distinct, locks.rest, by simp,
      fun c member => locks.known c (.inl (by simpa using member))⟩
  | @connect _ k _ c asks accepted unused =>
    have moved := locks.setClient c k
    refine ⟨moved.held, moved.reading, moved.distinct, moved.rest, ?_, ?_⟩
    · rintro d joined listed
      cases joined
      exact locks.known c (.inl listed) unused
    · rintro d (listed | joined)
      · exact moved.known d (.inl listed)
      · cases joined
        simp [World.setClient]
  | @push k _ c ready known unread =>
    have moved := locks.setClient c { k with before := w.order }
    have idle := nobody_reads locks unread
    refine ⟨moved.held, moved.reading, ?_, ?_, by simp, ?_⟩
    · exact List.nodup_append'.mpr ⟨locks.distinct, List.nodup_singleton c, by
        rintro d listed joined
        rw [List.mem_singleton.mp joined] at listed
        exact locks.newcomer c ready listed⟩
    · intro t op rest waits here
      exact absurd (by rw [show w.workers t = _ from here]; trivial) (idle t)
    · rintro d (listed | joined)
      · obtain listed | rfl : d ∈ w.syncList ∨ d = c := by simpa using listed
        · exact moved.known d (.inl listed)
        · simp [World.setClient]
      · cases joined
  | @harvest c k _ listed known dead unread =>
    have moved := locks.setClient c k.drop
    have idle := nobody_reads locks unread
    refine ⟨moved.held, moved.reading, locks.distinct.erase c, ?_, ?_, ?_⟩
    · intro t op rest waits here
      exact absurd (by rw [show w.workers t = _ from here]; trivial) (idle t)
    · exact fun d joined listed => locks.newcomer d joined (List.mem_of_mem_erase listed)
    · exact fun d member => moved.known d (member.imp_left List.mem_of_mem_erase)

/-! ### What a step does to a client -/

theorem clients_setClient {w : World σ} (there : (w.setClient c k).clients d = some l) :
    d = c ∧ k = l ∨ d ≠ c ∧ w.clients d = some l := by
  by_cases same : d = c
  · exact .inl ⟨same, by simpa [World.setClient, same] using there⟩
  · exact .inr ⟨same, by simpa [World.setClient, same] using there⟩

/-- Everything that can happen to client `c` in one step. -/
inductive Touch (setup : Setup σ) (w : World σ) (c : ℕ) : Event σ → Client σ → Client σ → Prop where
  | same : Touch setup w c e k k
  | sent (turn : e = .send t cut) (here : w.workers t = .sending op (c :: rest) waits)
      (sent : k.sendOp op t cut = (k', awaited)) : Touch setup w c e k k'
  | taken (turn : e = .take t) (here : w.workers t = .waiting op (c :: rest) ret)
      (filled : k.net.parked (.worker t) = some (some reply)) : Touch setup w c e k (k.take (.worker t))
  | moved (turn : e = .client c action) (moves : ClientStep setup.fs k action k') : Touch setup w c e k k'
  | heard (turn : e = .hear c) (next : k.answers.waiting = msg :: rest) : Touch setup w c e k (k.hear msg)
  | died (turn : e = .readFails c) : Touch setup w c e k k.die
  | corked (turn : e = .corkSend d cut) (here : w.readers d = .corking (c :: rest) done)
      (sent : k.responseMsg (.cork d) true (k.mode ≠ .control) (.reader d) cut = (k', result)) : Touch setup w c e k k'
  | corkTaken (turn : e = .corkTake d) (here : w.readers d = .awaiting c rest done)
      (filled : k.net.parked (.reader d) = some (some reply)) : Touch setup w c e k (k.take (.reader d))
  | uncorked (turn : e = .uncorkSend d cut) (here : w.readers d = .uncorking (c :: rest))
      (sent : k.responseMsg .uncork false false (.reader d) cut = (k', result)) : Touch setup w c e k k'
  | flushed (turn : e = .flush c cut)
      (sent : k.responseMsg .nop true false (.worker 0) cut = (k', result)) : Touch setup w c e k k'
  | pushed (turn : e = .push) (ready : w.joining = .connected c) : Touch setup w c e k { k with before := w.order }
  | dropped (turn : e = .harvest c) (dead : k.net.status = .dead) : Touch setup w c e k k.drop

theorem Step.touch {w w' : World σ} (step : Step setup w e w') (known : w.clients c = some k) :
    ∃ k', w'.clients c = some k' ∧ Touch setup w c e k k' := by
  have replaced : ∀ {d : ℕ} {l l' : Client σ}, w.clients d = some l →
      (d = c → k = l → Touch setup w c e k l') →
      ∃ k', (w.setClient d l').clients c = some k' ∧ Touch setup w c e k k' := by
    intro d l l' there touch
    by_cases same : d = c
    · subst same
      exact ⟨l', by simp [World.setClient], touch rfl (Option.some.inj (known.symm.trans there))⟩
    · exact ⟨k, by simpa [World.setClient, Ne.symm same] using known, .same⟩
  cases step with
  | send here there sent => exact replaced there fun same equal => by subst same equal; exact .sent rfl here sent
  | take here there filled => exact replaced there fun same equal => by subst same equal; exact .taken rfl here filled
  | client there moves => exact replaced there fun same equal => by subst same equal; exact .moved rfl moves
  | hear here there next => exact replaced there fun same equal => by subst same equal; exact .heard rfl next
  | readFails here there => exact replaced there fun same equal => by subst same equal; exact .died rfl
  | corkSend here there sent => exact replaced there fun same equal => by subst same equal; exact .corked rfl here sent
  | corkTake here there filled =>
    exact replaced there fun same equal => by subst same equal; exact .corkTaken rfl here filled
  | uncorkSend here there sent =>
    exact replaced there fun same equal => by subst same equal; exact .uncorked rfl here sent
  | flush listed there async compressed sent =>
    exact replaced there fun same equal => by subst same equal; exact .flushed rfl sent
  | push ready there unread => exact replaced there fun same equal => by subst same equal; exact .pushed rfl ready
  | harvest listed there dead unread =>
    exact replaced there fun same equal => by subst same equal; exact .dropped rfl dead
  | @connect _ _ _ d asks accepted unused =>
    refine ⟨k, ?_, .same⟩
    have other : c ≠ d := by
      rintro rfl
      cases known.symm.trans unused
    simpa [World.setClient, other] using known
  | _ => exact ⟨k, known, .same⟩

theorem Step.touch_of {w w' : World σ} (step : Step setup w e w') (known : w.clients c = some k)
    (there : w'.clients c = some k') : Touch setup w c e k k' := by
  obtain ⟨l, found, touch⟩ := step.touch known
  exact Option.some.inj (found.symm.trans there) ▸ touch

/-! ### Serial numbers -/

/-- The operation, before it is handed out. -/
def Worker.ahead : Worker → Option Op
  | .entered op | .locked op => some op
  | _ => none

/-- No two operations are the same. -/
structure Serials (w : World σ) : Prop where
  below : ∀ t op, (w.workers t).op = some op → op.serial < w.serial
  distinct : ∀ t u op, (w.workers t).op = some op → (w.workers u).op = some op → t = u
  ahead : ∀ t op, (w.workers t).ahead = some op → op ∉ w.order
  order : ∀ op ∈ w.order, op.serial < w.serial
  nodup : w.order.Nodup

theorem Worker.op_of_ahead {pc : Worker} {op : Op} (ahead : pc.ahead = some op) : pc.op = some op := by
  cases pc <;> first | exact ahead | cases ahead

theorem workers_setWorker (w : World σ) (t : ℕ) (pc : Worker) (u : ℕ) :
    (w.setWorker t pc).workers u = if u = t then pc else w.workers u :=
  Function.update_apply ..

/-- A worker goes on with its operation or ends it. -/
theorem Serials.setWorker {w w' : World σ} (serials : Serials w) (workers : w'.workers = (w.setWorker t pc).workers)
    (op : pc.op = (w.workers t).op ∨ pc.op = none) (ahead : pc.ahead = (w.workers t).ahead ∨ pc.ahead = none)
    (serial : w'.serial = w.serial) (order : w'.order = w.order) : Serials w' := by
  have ops : ∀ u op, (w'.workers u).op = some op → (w.workers u).op = some op := by
    intro u found here
    rw [workers, workers_setWorker] at here
    split at here
    · next same =>
      subst same
      obtain op | op := op <;> rw [op] at here
      · exact here
      · cases here
    · exact here
  have aheads : ∀ u op, (w'.workers u).ahead = some op → (w.workers u).ahead = some op := by
    intro u found here
    rw [workers, workers_setWorker] at here
    split at here
    · next same =>
      subst same
      obtain ahead | ahead := ahead <;> rw [ahead] at here
      · exact here
      · cases here
    · exact here
  refine ⟨fun u found here => ?_, fun u v found here there => ?_, fun u found here => ?_, ?_, ?_⟩
  · exact serial ▸ serials.below u found (ops u found here)
  · exact serials.distinct u v found (ops u found here) (ops v found there)
  · exact order ▸ serials.ahead u found (aheads u found here)
  · rw [order, serial]
    exact serials.order
  · exact order ▸ serials.nodup

theorem Serials.entered {w : World σ} (serials : Serials w) :
    Serials { w.setWorker t (.entered ⟨w.serial, call⟩) with serial := w.serial + 1 } := by
  have older : ∀ u op, u ≠ t → ((w.setWorker t (.entered ⟨w.serial, call⟩)).workers u).op = some op →
      (w.workers u).op = some op := by
    intro u op other here
    rwa [workers_setWorker, if_neg other] at here
  have newest : ∀ op, ((w.setWorker t (.entered ⟨w.serial, call⟩)).workers t).op = some op →
      op = ⟨w.serial, call⟩ := by
    intro op here
    rw [workers_setWorker, if_pos rfl] at here
    cases here
    rfl
  refine ⟨fun u op here => ?_, fun u v op here there => ?_, fun u op here => ?_, fun op member => ?_, serials.nodup⟩
  · by_cases same : u = t
    · rw [newest op (same ▸ here)]
      exact Nat.lt_succ_self _
    · exact Nat.lt_succ_of_lt (serials.below u op (older u op same here))
  · by_cases first : u = t <;> by_cases second : v = t
    · rw [first, second]
    · have old := serials.below v op (older v op second there)
      rw [newest op (first ▸ here)] at old
      exact absurd old (Nat.lt_irrefl _)
    · have old := serials.below u op (older u op first here)
      rw [newest op (second ▸ there)] at old
      exact absurd old (Nat.lt_irrefl _)
    · exact serials.distinct u v op (older u op first here) (older v op second there)
  · have here : ((w.setWorker t (.entered ⟨w.serial, call⟩)).workers u).ahead = some op := here
    intro member
    by_cases same : u = t
    · subst same
      have old := serials.order op member
      rw [newest op (Worker.op_of_ahead here)] at old
      exact absurd old (Nat.lt_irrefl _)
    · rw [workers_setWorker, if_neg same] at here
      exact serials.ahead u op here member
  · exact Nat.lt_succ_of_lt (serials.order op member)

theorem Serials.handedOut {w w' : World σ} (serials : Serials w) (here : w.workers t = .locked op)
    (workers : w'.workers = (w.setWorker t (.sending op rest waits)).workers) (serial : w'.serial = w.serial)
    (order : w'.order = w.order ++ [op]) : Serials w' := by
  have moved : Serials { w' with order := w.order } :=
    serials.setWorker workers (.inl (by simp [here, Worker.op])) (.inr rfl) serial rfl
  refine ⟨moved.below, moved.distinct, fun u found ahead => ?_, fun found member => ?_, ?_⟩
  · rw [order, List.mem_append, List.mem_singleton]
    rintro (member | rfl)
    · exact moved.ahead u found ahead member
    · -- Only the worker itself has this operation, and it is past that point.
      have same := moved.distinct u t found (Worker.op_of_ahead ahead)
        (by simp [workers, World.setWorker, Worker.op])
      rw [same, workers] at ahead
      simp [World.setWorker, Worker.ahead] at ahead
  · rw [order, List.mem_append, List.mem_singleton] at member
    obtain member | rfl := member
    · exact moved.order found member
    · exact serial ▸ serials.below t found (by simp [here, Worker.op])
  · rw [order]
    refine List.nodup_append'.mpr ⟨serials.nodup, List.nodup_singleton op, fun found member same => ?_⟩
    rw [List.mem_singleton.mp same] at member
    exact serials.ahead t op (by simp [here, Worker.ahead]) member

theorem Serials.step {w w' : World σ} (serials : Serials w) (step : Step setup w e w') : Serials w' := by
  cases step with
  | enter idle => exact serials.entered
  | readList here => exact serials.handedOut here rfl rfl rfl
  | lockCork here free uncorked =>
    exact serials.setWorker rfl (.inl (by simp [here, Worker.op])) (.inl (by simp [here, Worker.ahead])) rfl rfl
  | send here known sent =>
    exact serials.setWorker rfl (.inl (by simp [here, Worker.op])) (.inr rfl) rfl rfl
  | unlockCork here | execute here | timeOut here =>
    exact serials.setWorker rfl (.inl (by simp [here, Worker.op])) (.inr rfl) rfl rfl
  | take here known filled =>
    exact serials.setWorker rfl (.inl (by simp [here, Worker.op])) (.inr rfl) rfl rfl
  | @journal _ filestore _ _ _ _ here passes =>
    refine serials.setWorker rfl ?_ (.inr ?_) rfl rfl <;> cases filestore <;>
      simp [here, Worker.afterJournal, Worker.op, Worker.ahead]
  | leave here => exact serials.setWorker rfl (.inr rfl) (.inr rfl) rfl rfl
  | _ => exact ⟨serials.below, serials.distinct, serials.ahead, serials.order, serials.nodup⟩

end Fsyncer.Replication
