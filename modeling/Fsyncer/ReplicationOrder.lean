import Mathlib.Data.List.Infix
import Fsyncer.ReplicationLocks

/-! In which order operations reach the clients. -/
namespace Fsyncer.Replication
open Interleaving Vfs

variable {σ : Type} {setup : Setup σ}

/-! ### What a client is sent -/

@[simp] theorem updates_nil : updates [] = [] := rfl

@[simp] theorem updates_append (first second : List Op) :
    updates (first ++ second) = updates first ++ updates second :=
  List.filter_append ..

theorem updates_prefix {first second : List Op} (fore : first <+: second) : updates first <+: updates second :=
  fore.filter _

theorem Client.opMsg_op {mode : ClientMode} {op : Op} (message : Client.opMsg mode op t = some (msg, sync)) :
    msg.op = some op := by
  unfold Client.opMsg at message
  split at message
  · cases message
  · split at message <;> cases message <;> rfl

/-- Only flushes are kept from a client, and everything from a control client. -/
theorem Client.opMsg_none {mode : ClientMode} {op : Op} (silent : Client.opMsg mode op t = none) :
    mode = .control ∨ isFsync op.call = true := by
  unfold Client.opMsg at silent
  split at silent
  · next skipped => exact skipped.imp_right And.left
  · split at silent <;> cases silent

/-- The effect of `response_msg` with an operation on what was written. -/
theorem Client.responseMsg_written {k k' : Client σ} {msg : FsyncerMsg} (carries : msg.op = some op)
    (sent : k.responseMsg msg flush wantResponse tid cut = (k', result)) :
    k'.mode = k.mode ∧ k'.before = k.before ∧ k'.observed = k.observed ∧
      (k' = k ∧ k.net.status = .dead ∨
        k'.net.status = .dead ∧ k.net.status = .alive ∧ k'.written <+: k.written ++ [op] ∧ k.written <+: k'.written ∨
        k'.net.status = .alive ∧ k.net.status = .alive ∧ k'.written = k.written ++ [op]) := by
  have ops : [msg, .nop].filterMap FsyncerMsg.op = [op] := by
    rw [List.filterMap_cons_some carries]
    rfl
  obtain ⟨dead, rfl, _⟩ | ⟨alive, messages, parked, status, rfl, among, _, outcome⟩ := responseMsg_cases sent
  · exact ⟨rfl, rfl, rfl, .inl ⟨rfl, dead⟩⟩
  · have fore : messages.filterMap FsyncerMsg.op <+: [op] := ops ▸ among.filterMap FsyncerMsg.op
    refine ⟨rfl, rfl, rfl, .inr ?_⟩
    obtain ⟨rfl, _, member, _⟩ | ⟨rfl, _⟩ := outcome
    · have all : messages.filterMap FsyncerMsg.op = [op] := by
        refine fore.eq_of_length_le (List.length_pos_of_mem (a := op) ?_)
        exact List.mem_filterMap.mpr ⟨msg, member, carries⟩
      refine .inr ⟨rfl, alive, ?_⟩
      simp only [written, Fifo.all_push, List.filterMap_append, all]
    · refine .inl ⟨rfl, alive, ?_, ?_⟩
      · simp only [written, Fifo.all_push, List.filterMap_append]
        exact (List.prefix_append_right_inj _).mpr fore
      · simp only [written, Fifo.all_push, List.filterMap_append]
        exact List.prefix_append _ _

/-- One client's turn in the loop of `pre_op`. -/
theorem Client.sendOp_cases {k k' : Client σ} (sent : k.sendOp op t cut = (k', awaited)) :
    opMsg k.mode op t = none ∧ k' = k ∧ awaited = false ∨
      ∃ msg sync result, opMsg k.mode op t = some (msg, sync) ∧
        k.responseMsg msg sync sync (.worker t) cut = (k', result) ∧ awaited = (result == some true) := by
  unfold sendOp at sent
  cases message : opMsg k.mode op t with
  | none =>
    rw [message] at sent
    cases sent
    exact .inl ⟨rfl, rfl, rfl⟩
  | some pair =>
    rw [message] at sent
    cases sent
    exact .inr ⟨_, _, _, rfl, rfl, rfl⟩

/-- The client has the operation then, or it is no update, or the client is dead
and has what it had or one more. -/
theorem Client.sendOp_updates {k k' : Client σ} (data : k.mode ≠ .control)
    (sent : k.sendOp op t cut = (k', awaited)) :
    k'.mode = k.mode ∧ k'.before = k.before ∧
      updates k'.written <+: updates k.written ++ updates [op] ∧ (k.net.status = .dead → k' = k) ∧
      (k'.net.status = .alive →
        k.net.status = .alive ∧ updates k'.written = updates k.written ++ updates [op]) := by
  obtain ⟨silent, rfl, _⟩ | ⟨msg, sync, result, message, sent, _⟩ := sendOp_cases sent
  · have skipped : updates [op] = [] := by simp [updates, (opMsg_none silent).resolve_left data]
    simp [skipped]
  · obtain ⟨mode, before, _, outcome⟩ := responseMsg_written (opMsg_op message) sent
    refine ⟨mode, before, ?_⟩
    obtain ⟨rfl, dead⟩ | ⟨dead, alive, fore, _⟩ | ⟨alive', alive, all⟩ := outcome
    · simp [dead]
    · simpa [dead, alive] using updates_prefix fore
    · simp [all, alive]

/-- The operation that is being handed out, as long as the client's turn is to come. -/
def World.owed (w : World σ) (c : ℕ) : List Op :=
  match w.holder.map w.workers with
  | some (.sending op rest _) => if c ∈ rest then [op] else []
  | _ => []

theorem owed_of_holder {w : World σ} (holds : w.holder = some t) (here : w.workers t = .sending op rest waits) :
    w.owed c = if c ∈ rest then [op] else [] := by
  simp [World.owed, holds, here]

theorem owed_of_not_sending {w : World σ} (holds : w.holder = some t)
    (here : ∀ op rest waits, w.workers t ≠ .sending op rest waits) : w.owed c = [] := by
  simp only [World.owed, holds, Option.map_some]
  split
  · next same => exact absurd (Option.some.inj same) (here _ _ _)
  · rfl

/-- Nothing but flushes is being handed out. -/
theorem updates_owed {w : World σ}
    (flushes : ∀ t op rest waits, w.workers t = .sending op rest waits → isFsync op.call = true) :
    updates (w.owed c) = [] := by
  unfold World.owed
  split
  · next op rest waits sending =>
    obtain ⟨t, _, here⟩ := Option.map_eq_some_iff.mp sending
    split <;> simp [updates, flushes t op rest waits here]
  · rfl

/-- The moves of a worker without `CORK` do not matter. -/
theorem owed_setWorker {w : World σ} (locks : Locks w) (free : ¬(w.workers t).HoldsCork) (pc : Worker) (c : ℕ) :
    (w.setWorker t pc).owed c = w.owed c := by
  cases holds : w.holder with
  | none => simp [World.owed, World.setWorker, holds]
  | some u =>
    have other : u ≠ t := by
      rintro rfl
      exact free ((locks.held u).mp holds)
    simp [World.owed, World.setWorker, holds, other]

/-- What every client was sent is what was handed out since it was listed, as far
as it got. -/
structure Ordered (w : World σ) : Prop where
  soFar : ∀ c k, w.clients c = some k → k.mode ≠ .control →
    updates k.before ++ updates k.written <+: updates w.order
  upToDate : ∀ c k, w.clients c = some k → k.mode ≠ .control → c ∈ w.syncList → k.net.status = .alive →
    updates w.order = updates k.before ++ updates k.written ++ updates (w.owed c)
  unsent : ∀ c k, w.joining = .connected c → w.clients c = some k → k.written = []

/-- Every client there is was there before and has been sent nothing new. -/
def Steady (w w' : World σ) : Prop :=
  ∀ c k', w'.clients c = some k' → ∃ k, w.clients c = some k ∧ k.Kept k'

theorem Steady.of_clients {w w' : World σ} (same : w'.clients = w.clients) : Steady w w' :=
  fun _ k known => ⟨k, same ▸ known, k.refl_kept⟩

theorem Steady.setClient {w : World σ} (known : w.clients c = some k) (kept : k.Kept k') :
    Steady w (w.setClient c k') := by
  intro d l there
  obtain ⟨rfl, rfl⟩ | ⟨_, there⟩ := clients_setClient there
  · exact ⟨k, known, kept⟩
  · exact ⟨l, there, l.refl_kept⟩

theorem Ordered.frame {w w' : World σ} (ordered : Ordered w) (steady : Steady w w') (order : w'.order = w.order)
    (list : w'.syncList ⊆ w.syncList) (owed : ∀ c, w'.owed c = w.owed c)
    (joining : ∀ c, w'.joining = .connected c → w.joining = .connected c) : Ordered w' := by
  refine ⟨fun c k' known data => ?_, fun c k' known data listed alive => ?_, fun c k' joined known => ?_⟩
  all_goals obtain ⟨k, there, kept⟩ := steady c k' known
  · rw [kept.before, kept.written, order]
    exact ordered.soFar c k there (kept.mode ▸ data)
  · rw [kept.before, kept.written, order, owed]
    exact ordered.upToDate c k there (kept.mode ▸ data) (list listed) (kept.alive alive)
  · rw [kept.written]
    exact ordered.unsent c k (joining c joined) there

/-- An operation is handed out to everybody on the list. -/
theorem Ordered.handedOut {w w' : World σ} (ordered : Ordered w) (clients : w'.clients = w.clients)
    (list : w'.syncList = w.syncList) (order : w'.order = w.order ++ [op])
    (owed : ∀ c ∈ w.syncList, w.owed c = [] ∧ w'.owed c = [op]) (joining : w'.joining = w.joining) :
    Ordered w' := by
  refine ⟨fun c k known data => ?_, fun c k known data listed alive => ?_, fun c k => ?_⟩
  · rw [order, updates_append]
    exact (ordered.soFar c k (clients ▸ known) data).trans (List.prefix_append _ _)
  · have before := ordered.upToDate c k (clients ▸ known) data (list ▸ listed) alive
    rw [(owed c (list ▸ listed)).1, updates_nil, List.append_nil] at before
    rw [order, updates_append, before, (owed c (list ▸ listed)).2]
  · rw [joining, clients]
    exact ordered.unsent c k

/-- One client has its turn. -/
theorem Ordered.sent {w w' : World σ} {k k' : Client σ} (ordered : Ordered w) (known : w.clients c = some k)
    (sent : k.sendOp op t cut = (k', awaited)) (clients : w'.clients = Function.update w.clients c (some k'))
    (list : w'.syncList = w.syncList) (order : w'.order = w.order) (listed : c ∈ w.syncList)
    (turn : w.owed c = [op] ∧ w'.owed c = []) (owed : ∀ d, d ≠ c → w'.owed d = w.owed d)
    (joining : ∀ d, w'.joining = .connected d → w.joining = .connected d ∧ d ≠ c) : Ordered w' := by
  have others : ∀ d l, d ≠ c → w'.clients d = some l → w.clients d = some l :=
    fun d l other there => by rwa [clients, Function.update_of_ne other] at there
  have own : ∀ l, w'.clients c = some l → k' = l :=
    fun l there => by rwa [clients, Function.update_self, Option.some.injEq] at there
  have mode : k'.mode ≠ .control → k.mode ≠ .control := by
    rintro data control
    obtain ⟨_, rfl, _⟩ | ⟨msg, sync, result, message, sent, _⟩ := Client.sendOp_cases sent
    · exact data control
    · exact data ((Client.responseMsg_written (Client.opMsg_op message) sent).1.trans control)
  refine ⟨fun d l there data => ?_, fun d l there data member alive => ?_, fun d l joined there => ?_⟩
  · by_cases same : d = c
    · subst same
      obtain rfl := own l there
      obtain ⟨_, before, fore, dead, alive⟩ := Client.sendOp_updates (mode data) sent
      rw [before, order]
      cases status : k.net.status with
      | dead =>
        rw [dead status]
        exact ordered.soFar d k known (mode data)
      | alive =>
        rw [ordered.upToDate d k known (mode data) listed status, turn.1, List.append_assoc]
        exact (List.prefix_append_right_inj _).mpr fore
    · rw [order]
      exact ordered.soFar d l (others d l same there) data
  · by_cases same : d = c
    · subst same
      obtain rfl := own l there
      obtain ⟨_, before, _, _, after⟩ := Client.sendOp_updates (mode data) sent
      obtain ⟨status, all⟩ := after alive
      rw [before, order, all, turn.2, updates_nil, List.append_nil,
        ordered.upToDate d k known (mode data) listed status, turn.1, List.append_assoc]
    · rw [order, owed d same]
      exact ordered.upToDate d l (others d l same there) data (list ▸ member) alive
  · obtain ⟨joined, other⟩ := joining d joined
    exact ordered.unsent d l joined (others d l other there)

/-- A client that has just connected. -/
structure Client.Fresh (k : Client σ) : Prop where
  net : k.net = ⟨.empty, fun _ => none, .alive⟩
  answers : k.answers = .empty
  jobs : k.jobs = []
  ran : k.ran = []
  before : k.before = []

theorem connected_fresh (mode : ClientMode) (comp pool : Bool) (store : σ) (observed : Option (List Op)) :
    (Client.connected mode comp pool store observed).Fresh :=
  ⟨rfl, rfl, rfl, rfl, rfl⟩

theorem fromStream_fresh {newcomer : Newcomer σ} (accepted : fromStream setup store executed newcomer = some k) :
    k.Fresh := by
  simp only [fromStream] at accepted
  split at accepted <;> cases accepted
  exact connected_fresh ..

theorem Client.Fresh.written {k : Client σ} (fresh : k.Fresh) : k.written = [] := by
  simp [Client.written, fresh.net, Fifo.all, Fifo.empty]

/-- A client connects, and is not on the list yet. -/
theorem Ordered.connected {w w' : World σ} {k : Client σ} (ordered : Ordered w) (fresh : k.Fresh)
    (clients : w'.clients = (w.setClient c k).clients) (list : w'.syncList = w.syncList) (unlisted : c ∉ w.syncList)
    (order : w'.order = w.order) (owed : ∀ d, w'.owed d = w.owed d) (joining : w'.joining = .connected c) :
    Ordered w' := by
  refine ⟨fun d l there data => ?_, fun d l there data listed alive => ?_, fun d l joined there => ?_⟩
  all_goals obtain ⟨rfl, rfl⟩ | ⟨other, there⟩ := clients_setClient (clients ▸ there)
  · simp [fresh.written, fresh.before]
  · exact order ▸ ordered.soFar d l there data
  · exact absurd (list ▸ listed) unlisted
  · rw [order, owed]
    exact ordered.upToDate d l there data (list ▸ listed) alive
  · exact fresh.written
  · rw [joining] at joined
    cases joined
    exact absurd rfl other

/-- It is put on the list while nothing is being handed out. -/
theorem Ordered.pushed {w w' : World σ} {k : Client σ} (ordered : Ordered w) (ready : w.joining = .connected c)
    (known : w.clients c = some k) (clients : w'.clients = (w.setClient c { k with before := w.order }).clients)
    (list : w'.syncList = w.syncList ++ [c]) (order : w'.order = w.order)
    (owed : ∀ d, w'.owed d = w.owed d ∧ w.owed d = []) (joining : w'.joining = .vacant) : Ordered w' := by
  have unsent : ({ k with before := w.order } : Client σ).written = [] := ordered.unsent c k ready known
  refine ⟨fun d l there data => ?_, fun d l there data listed alive => ?_, fun d l joined => ?_⟩
  · obtain ⟨rfl, rfl⟩ | ⟨other, there⟩ := clients_setClient (clients ▸ there)
    · simp [unsent, order]
    · exact order ▸ ordered.soFar d l there data
  · obtain ⟨rfl, rfl⟩ | ⟨other, there⟩ := clients_setClient (clients ▸ there)
    · simp [unsent, order, (owed d).1, (owed d).2]
    · have listed : d ∈ w.syncList := by simpa [list, other] using listed
      rw [order, (owed d).1]
      exact ordered.upToDate d l there data listed alive
  · rw [joining] at joined
    cases joined

private theorem owed_of_unread {w : World σ} (locks : Locks w) (unread : w.guards = []) (c : ℕ) : w.owed c = [] := by
  cases holds : w.holder with
  | none => simp [World.owed, holds]
  | some t =>
    refine owed_of_not_sending holds fun op rest waits here => nobody_reads locks unread t ?_
    rw [here]
    trivial

theorem Ordered.step {w w' : World σ} (ordered : Ordered w) (locks : Locks w) (step : Step setup w e w') :
    Ordered w' := by
  have holds := fun t => (locks.held t).mpr
  cases step with
  | enter idle =>
    exact ordered.frame (.of_clients rfl) rfl (List.Subset.refl _)
      (owed_setWorker locks (by simp [idle, Worker.HoldsCork]) _) fun _ => id
  | @lockCork _ t op here free uncorked =>
    refine ordered.frame (.of_clients rfl) rfl (List.Subset.refl _) (fun c => ?_) fun _ => id
    rw [owed_of_not_sending rfl (by simp [World.setWorker])]
    simp [World.owed, free]
  | @readList _ t op here =>
    have holder := holds t (by simp [here, Worker.HoldsCork])
    refine ordered.handedOut rfl rfl rfl (fun c listed => ⟨?_, ?_⟩) rfl
    · exact owed_of_not_sending holder (by simp [here])
    · simp [World.owed, World.setWorker, holder, listed]
  | @send k k' awaited _ t cut c op rest waits here known sent =>
    have holder := holds t (by simp [here, Worker.HoldsCork])
    obtain ⟨distinct, listed⟩ := locks.rest t op _ waits here
    have last : c ∉ rest := (List.nodup_cons.mp distinct).1
    have after : ∀ d, World.owed ((w.setClient c k').setWorker t
        (.sending op rest (if awaited then waits ++ [c] else waits))) d = if d ∈ rest then [op] else [] :=
      fun d => owed_of_holder holder (by simp only [World.setWorker, Function.update_self]; rfl)
    refine ordered.sent known sent rfl rfl rfl (listed List.mem_cons_self) ⟨?_, ?_⟩ (fun d other => ?_)
      fun d joined => ⟨joined, ?_⟩
    · rw [owed_of_holder holder here, if_pos List.mem_cons_self]
    · rw [after, if_neg last]
    · rw [after, owed_of_holder holder here]
      simp [other]
    · rintro rfl
      exact locks.newcomer d joined (listed List.mem_cons_self)
  | @unlockCork _ t op waits here =>
    refine ordered.frame (.of_clients rfl) rfl (List.Subset.refl _) (fun c => ?_) fun _ => id
    rw [owed_of_holder (holds t (by simp [here, Worker.HoldsCork])) here]
    rfl
  | journal here passes =>
    exact ordered.frame (.of_clients rfl) rfl (List.Subset.refl _)
      (owed_setWorker locks (by simp [here, Worker.HoldsCork]) _) fun _ => id
  | execute here =>
    exact ordered.frame (.of_clients rfl) rfl (List.Subset.refl _)
      (owed_setWorker locks (by simp [here, Worker.HoldsCork]) _) fun _ => id
  | take here known filled =>
    exact ordered.frame (.setClient known (Client.take_kept _ _)) rfl (List.Subset.refl _)
      (owed_setWorker locks (by simp [here, Worker.HoldsCork]) _) fun _ => id
  | timeOut here | leave here =>
    exact ordered.frame (.of_clients rfl) rfl (List.Subset.refl _)
      (owed_setWorker locks (by simp [here, Worker.HoldsCork]) _) fun _ => id
  | client known moves =>
    exact ordered.frame (.setClient known (Client.step_kept moves)) rfl (List.Subset.refl _) (fun _ => rfl) fun _ => id
  | hear here known next =>
    exact ordered.frame (.setClient known (Client.hear_kept _ _)) rfl (List.Subset.refl _) (fun _ => rfl) fun _ => id
  | readFails here known =>
    exact ordered.frame (.setClient known (Client.die_kept _)) rfl (List.Subset.refl _) (fun _ => rfl) fun _ => id
  | corkSend here known sent | uncorkSend here known sent | flush listed known async compressed sent =>
    exact ordered.frame (.setClient known (Client.responseMsg_kept _ rfl sent)) rfl (List.Subset.refl _)
      (fun _ => rfl) fun _ => id
  | corkTake here known filled =>
    exact ordered.frame (.setClient known (Client.take_kept _ _)) rfl (List.Subset.refl _) (fun _ => rfl) fun _ => id
  | accept vacant | refuse asks refused =>
    exact ordered.frame (.of_clients rfl) rfl (List.Subset.refl _) (fun _ => rfl) fun _ joined => by cases joined
  | @connect newcomer k _ c asks accepted unused =>
    exact ordered.connected (fromStream_fresh accepted) rfl rfl (fun listed => locks.known c (.inl listed) unused)
      rfl (fun _ => rfl) rfl
  | push ready known unread =>
    exact ordered.pushed ready known rfl rfl rfl (fun d => ⟨rfl, owed_of_unread locks unread d⟩) rfl
  | harvest listed known dead unread =>
    exact ordered.frame (.setClient known (Client.drop_kept _)) rfl List.erase_subset (fun _ => rfl) fun _ => id
  | _ => exact ordered.frame (.of_clients rfl) rfl (List.Subset.refl _) (fun _ => rfl) fun _ => id

/-! ### One order for all clients -/

/-- The server before its first operation, with the clients that are there. -/
structure AtRest (w : World σ) : Prop where
  holder : w.holder = none
  guards : w.guards = []
  workers : ∀ t, w.workers t = .idle
  readers : ∀ c, w.readers c = .listening
  joining : w.joining = .vacant
  distinct : w.syncList.Nodup
  known : ∀ c ∈ w.syncList, w.clients c ≠ none
  fresh : ∀ c k, w.clients c = some k → k.Fresh
  order : w.order = []
  executed : w.executed = []
  journal : w.journal = []

theorem start_atRest (store : σ) (clients : List (Client σ)) (fresh : ∀ k ∈ clients, k.Fresh) :
    AtRest (World.start store clients) where
  holder := rfl
  guards := rfl
  workers _ := rfl
  readers _ := rfl
  joining := rfl
  distinct := List.nodup_range
  known c listed := by
    simpa [World.start] using List.mem_range.mp listed
  fresh c k known := fresh k (List.mem_of_getElem? known)
  order := rfl
  executed := rfl
  journal := rfl

structure Coherent (w : World σ) : Prop where
  locks : Locks w
  serials : Serials w
  ordered : Ordered w

theorem AtRest.coherent {w : World σ} (rest : AtRest w) : Coherent w where
  locks := {
    held := by simp [rest.holder, rest.workers, Worker.HoldsCork]
    reading := by simp [rest.workers, Worker.ReadsList]
    distinct := rest.distinct
    rest := by simp [rest.workers]
    newcomer := by simp [rest.joining]
    known := by simpa [rest.joining] using rest.known }
  serials := {
    below := by simp [rest.workers, Worker.op]
    distinct := by simp [rest.workers, Worker.op]
    ahead := by simp [rest.workers, Worker.ahead]
    order := by simp [rest.order]
    nodup := by simp [rest.order] }
  ordered := {
    soFar := fun c k known _ => by simp [(rest.fresh c k known).before, (rest.fresh c k known).written]
    upToDate := fun c k known _ _ _ => by
      simp [(rest.fresh c k known).before, (rest.fresh c k known).written, rest.order, World.owed, rest.holder]
    unsent := by simp [rest.joining] }

theorem Coherent.step {w w' : World σ} (coherent : Coherent w) (step : Step setup w e w') : Coherent w' :=
  ⟨coherent.locks.step step, coherent.serials.step step, coherent.ordered.step coherent.locks step⟩

theorem coherent_of_reaches {allowed : World σ → Event σ → Prop} {start w : World σ} (rest : AtRest start)
    (reached : Reaches (Step setup) allowed start w) : Coherent w :=
  reached.invariant rest.coherent fun _ _ _ coherent step _ => coherent.step step

/-- What one step can do to what a client was sent. -/
theorem Step.written {w w' : World σ} (step : Step setup w e w') (known : w.clients c = some k) :
    ∃ k', w'.clients c = some k' ∧
      (k.Kept k' ∨ w.joining = .connected c ∧ k' = { k with before := w.order } ∨
        ∃ t op rest waits cut awaited, w.workers t = .sending op (c :: rest) waits ∧
          k.sendOp op t cut = (k', awaited)) := by
  obtain ⟨k', there, touch⟩ := step.touch known
  refine ⟨k', there, ?_⟩
  cases touch with
  | same => exact .inl k.refl_kept
  | sent turn here sent => exact .inr (.inr ⟨_, _, _, _, _, _, here, sent⟩)
  | taken turn here filled => exact .inl (k.take_kept _)
  | moved turn moves => exact .inl (Client.step_kept moves)
  | heard turn next => exact .inl (k.hear_kept _)
  | died turn => exact .inl k.die_kept
  | corked turn here sent | uncorked turn here sent | flushed turn sent =>
    exact .inl (k.responseMsg_kept rfl sent)
  | corkTaken turn here filled => exact .inl (k.take_kept _)
  | pushed turn ready => exact .inr (.inl ⟨ready, rfl⟩)
  | dropped turn dead => exact .inl k.drop_kept

/-- What never changes about a client, and when its start in the order is set. -/
theorem Step.stable {w w' : World σ} (step : Step setup w e w') (known : w.clients c = some k)
    (there : w'.clients c = some k') :
    k'.mode = k.mode ∧ k'.observed = k.observed ∧
      (k'.before = k.before ∨ w.joining = .connected c ∧ k'.before = w.order) := by
  obtain ⟨l, found, outcome⟩ := step.written known
  obtain rfl : l = k' := Option.some.inj (found.symm.trans there)
  obtain kept | ⟨joined, rfl⟩ | ⟨t, op, rest, waits, cut, awaited, _, sent⟩ := outcome
  · exact ⟨kept.mode, kept.observed, .inl kept.before⟩
  · exact ⟨rfl, rfl, .inr ⟨joined, rfl⟩⟩
  · obtain ⟨_, rfl, _⟩ | ⟨msg, sync, result, message, sent, _⟩ := Client.sendOp_cases sent
    · exact ⟨rfl, rfl, .inl rfl⟩
    · obtain ⟨mode, before, observed, _⟩ := Client.responseMsg_written (Client.opMsg_op message) sent
      exact ⟨mode, observed, .inl before⟩

/-- Clients come into being by connecting. -/
theorem Step.client_origin {w w' : World σ} (step : Step setup w e w') (there : w'.clients c = some k') :
    w.clients c ≠ none ∨ e = .connect c := by
  have origin : ∀ {d : ℕ} {l l' : Client σ}, w.clients d = some l → (w.setClient d l').clients c = some k' →
      w.clients c ≠ none ∨ e = .connect c := by
    intro d l l' known there
    obtain ⟨rfl, _⟩ | ⟨_, there⟩ := clients_setClient there
    · exact .inl (by simp [known])
    · exact .inl (by simp [there])
  cases step with
  | connect asks accepted unused =>
    obtain ⟨rfl, _⟩ | ⟨_, there⟩ := clients_setClient there
    · exact .inr rfl
    · exact .inl (by simp [there])
  | send here known sent => exact origin known there
  | take here known filled => exact origin known there
  | client known moves => exact origin known there
  | hear here known next => exact origin known there
  | readFails here known => exact origin known there
  | corkSend here known sent | uncorkSend here known sent => exact origin known there
  | corkTake here known filled => exact origin known there
  | push ready known unread => exact origin known there
  | harvest listed known dead unread => exact origin known there
  | flush listed known async compressed sent => exact origin known there
  | _ => exact .inl (by rw [show w.clients c = some k' from there]; simp)

/-- A client is between its check and the list from connecting to being pushed. -/
theorem Step.joining_origin {w w' : World σ} (step : Step setup w e w') (joined : w'.joining = .connected c) :
    w.joining = .connected c ∨ e = .connect c := by
  cases step with
  | connect asks accepted unused =>
    cases joined
    exact .inr rfl
  | accept vacant | refuse asks refused | push ready known unread => cases joined
  | _ => exact .inl joined

/-- A dead client is sent nothing any more. -/
theorem dead_written {w w' : World σ} (known : w.clients c = some k) (dead : k.net.status = .dead)
    (reached : Reaches (Step setup) allowed w w') :
    ∃ k', w'.clients c = some k' ∧ k'.net.status = .dead ∧ k'.written = k.written := by
  refine reached.invariant (motive := fun w => ∃ k', w.clients c = some k' ∧ k'.net.status = .dead ∧
    k'.written = k.written) ⟨k, known, dead, rfl⟩ ?_
  rintro s e s' ⟨l, there, gone, same⟩ step _
  obtain ⟨l', found, kept | ⟨_, rfl⟩ | ⟨t, op, rest, waits, cut, awaited, _, sent⟩⟩ := step.written there
  · refine ⟨l', found, ?_, kept.written.trans same⟩
    cases status : l'.net.status with
    | dead => rfl
    | alive => exact absurd (kept.alive status) (by simp [gone])
  · exact ⟨_, found, gone, same⟩
  · obtain ⟨_, rfl, _⟩ | ⟨msg, sync, result, message, sent, _⟩ := Client.sendOp_cases sent
    · exact ⟨_, found, gone, same⟩
    · obtain ⟨_, _, _, ⟨rfl, _⟩ | ⟨_, alive, _⟩ | ⟨_, alive, _⟩⟩ :=
        Client.responseMsg_written (Client.opMsg_op message) sent
      · exact ⟨_, found, gone, same⟩
      · exact absurd alive (by simp [gone])
      · exact absurd alive (by simp [gone])

/-- Every data client is sent a segment of one order of all operations, from the
first one after it was put on the list; it lacks nothing but what is just being
handed out, unless it is dead, and nothing is sent to it after that. Clients that
were put on the list at the same point are sent the same. -/
theorem clients_see_one_order {start w : World σ} (rest : AtRest start)
    (reached : Reaches (Step setup) anyStep start w) :
    w.order.Nodup ∧
    (∀ c k, w.clients c = some k → k.mode ≠ .control →
      ∃ missed, updates w.order = updates k.before ++ updates k.written ++ missed ∧
        (c ∈ w.syncList → k.net.status = .alive → missed = updates (w.owed c))) ∧
    (∀ c k later, w.clients c = some k → k.net.status = .dead → Reaches (Step setup) anyStep w later →
      ∃ k', later.clients c = some k' ∧ k'.net.status = .dead ∧ k'.written = k.written) ∧
    (∀ c d k l, w.clients c = some k → w.clients d = some l → k.mode ≠ .control → l.mode ≠ .control →
      c ∈ w.syncList → d ∈ w.syncList → k.net.status = .alive → l.net.status = .alive → k.before = l.before →
      updates k.written ++ updates (w.owed c) = updates l.written ++ updates (w.owed d)) := by
  obtain ⟨_, serials, ordered⟩ := coherent_of_reaches rest reached
  refine ⟨serials.nodup, fun c k known data => ?_, fun c k later known dead => dead_written known dead,
    fun c d k l known there data data' listed listed' alive alive' same => ?_⟩
  · obtain ⟨missed, all⟩ := ordered.soFar c k known data
    refine ⟨missed, all.symm, fun listed alive => ?_⟩
    exact List.append_cancel_left (all.trans (ordered.upToDate c k known data listed alive))
  · have first := ordered.upToDate c k known data listed alive
    have second := ordered.upToDate d l there data' listed' alive'
    rw [first, same, List.append_assoc, List.append_assoc] at second
    exact List.append_cancel_left second

open Bilog (plainHost emptyStore)

/-- A server that keeps its files in memory and does not compare hashes. -/
def demoSetup (journal : Option JournalStore.JournalType) : Setup FileTree.Tree :=
  treeSetup plainHost (fun _ => 0) true journal

def demoCall (n : UInt8) : VFSCall := .mkdir [[n]] (.unix 1 1) 0o755

/-- A server of an empty store with clients that start from the same. -/
def demoStart (modes : List ClientMode) : World FileTree.Tree :=
  .start emptyStore (modes.map fun mode => .connected mode false false emptyStore none)

theorem demoStart_atRest (modes : List ClientMode) : AtRest (demoStart modes) :=
  start_atRest _ _ (by simpa using fun mode _ => connected_fresh mode false false emptyStore none)

/-- The second of two clients fails while an operation is sent to it. -/
theorem failing_client_sees_order :
    ∃ w k missed, w.clients 1 = some k ∧ k.net.status = .dead ∧ w.order = [⟨0, demoCall 97⟩, ⟨1, demoCall 98⟩] ∧
      k.written = [⟨0, demoCall 97⟩] ∧ Reaches (Step (demoSetup none)) anyStep (demoStart [.async, .sync]) w ∧
      updates w.order = updates k.before ++ updates k.written ++ missed := by
  have started : Reaches (Step (demoSetup none)) anyStep (demoStart [.async, .sync]) _ := .refl
  have first := (started.next (e := .enter 0 (demoCall 97)) (.enter rfl) trivial
    |>.next (e := .lockCork 0) (.lockCork rfl rfl rfl) trivial
    |>.next (e := .readList 0) (.readList rfl) trivial
    |>.next (e := .send 0 none) (.send rfl rfl rfl) trivial
    |>.next (e := .send 0 none) (.send rfl rfl rfl) trivial
    |>.next (e := .unlockCork 0) (.unlockCork rfl) trivial)
  have second := (first.next (e := .enter 1 (demoCall 98)) (.enter rfl) trivial
    |>.next (e := .lockCork 1) (.lockCork rfl rfl rfl) trivial
    |>.next (e := .readList 1) (.readList rfl) trivial
    |>.next (e := .send 1 none) (.send rfl rfl rfl) trivial
    |>.next (e := .send 1 (some 0)) (.send rfl rfl rfl) trivial)
  obtain ⟨missed, all, _⟩ := (clients_see_one_order (demoStart_atRest _) second).2.1 1 _ rfl (by decide)
  exact ⟨_, _, missed, rfl, rfl, rfl, rfl, second, all⟩

end Fsyncer.Replication
