import Fsyncer.ReplicationOrder

/-! What a client that joins can miss. The hash check or the initial copy sees the
effects of the operations executed so far; the client is sent what is handed out
once it is on the list. An update handed out before that and executed after the
check is in neither. -/
namespace Fsyncer.Replication
open Interleaving Vfs

variable {σ : Type} {setup : Setup σ}

/-- An update that is handed out and has no local effect yet. -/
def Worker.unexecuted : Worker → Option Op
  | .sending op _ _ | .sent op _ | .executing op _ => if isFsync op.call then none else some op
  | _ => none

/-- The server's state is not looked at while an update is on its way to its local
effect, and no update is handed out between that and the client's being listed. -/
def Undisturbed (setup : Setup σ) (w : World σ) : Event σ → Prop
  | .connect _ => ∀ newcomer k, w.joining = .checking newcomer →
      fromStream setup w.store w.executed newcomer = some k → k.mode ≠ .control → k.observed ≠ none →
      ∀ t, (w.workers t).unexecuted = none
  | .readList t => ∀ op c k, w.workers t = .locked op → isFsync op.call = false → w.joining = .connected c →
      w.clients c = some k → k.mode ≠ .control → k.observed = none
  | _ => True

/-- The operation was seen, or will never have an effect. -/
def Settled (w : World σ) (seen : List Op) (op : Op) : Prop :=
  op ∈ seen ∨ op ∉ w.executed ∧ ∀ t, (w.workers t).unexecuted ≠ some op

/-- Where the updates are that have been handed out. -/
structure Progress (w : World σ) : Prop where
  executed : ∀ op ∈ updates w.executed, op ∈ w.order
  unexecuted : ∀ t op, (w.workers t).unexecuted = some op → op ∈ w.order ∧ op ∉ w.executed

theorem Worker.isFsync_of_unexecuted {pc : Worker} {op : Op} (unexecuted : pc.unexecuted = some op) :
    isFsync op.call = false := by
  cases pc with
  | sending | sent | executing =>
    simp only [Worker.unexecuted] at unexecuted
    split at unexecuted
    · cases unexecuted
    · next update =>
      cases unexecuted
      exact Bool.eq_false_iff.mpr update
  | _ => cases unexecuted

theorem mem_updates {ops : List Op} : op ∈ updates ops ↔ op ∈ ops ∧ isFsync op.call = false := by
  simp [updates, List.mem_filter]

/-- How a step changes which operations are handed out and executed. -/
inductive Advances (w : World σ) (e : Event σ) (w' : World σ) : Prop where
  | same (order : w'.order = w.order) (executed : w'.executed = w.executed)
      (fewer : ∀ t op, (w'.workers t).unexecuted = some op → (w.workers t).unexecuted = some op)
  | handOut (turn : e = .readList t) (here : w.workers t = .locked op) (order : w'.order = w.order ++ [op])
      (executed : w'.executed = w.executed)
      (others : ∀ u o, (w'.workers u).unexecuted = some o → u = t ∧ o = op ∨ (w.workers u).unexecuted = some o)
  | execute (here : w.workers t = .executing op waits) (order : w'.order = w.order)
      (executed : w'.executed = w.executed ++ [op])
      (others : ∀ u o, (w'.workers u).unexecuted = some o → u ≠ t ∧ (w.workers u).unexecuted = some o)

private theorem unexecuted_setWorker {w w' : World σ} {pc : Worker} (workers : w'.workers = (w.setWorker t pc).workers)
    (fewer : pc.unexecuted = (w.workers t).unexecuted ∨ pc.unexecuted = none) (u : ℕ) (op : Op)
    (there : (w'.workers u).unexecuted = some op) : (w.workers u).unexecuted = some op := by
  rw [workers, workers_setWorker] at there
  split at there
  · next same =>
    subst same
    obtain same | none := fewer
    · exact same ▸ there
    · cases none.symm.trans there
  · exact there

theorem Step.advances {w w' : World σ} (step : Step setup w e w') : Advances w e w' := by
  cases step with
  | @readList _ t op here =>
    refine .handOut rfl here rfl rfl fun u o there => ?_
    rw [show _ = _ from workers_setWorker w t (.sending op w.syncList []) u] at there
    split at there
    · next same =>
      refine .inl ⟨same, ?_⟩
      simp only [Worker.unexecuted] at there
      split at there <;> cases there
      rfl
    · exact .inr there
  | @execute _ t op waits here =>
    refine .execute here rfl rfl fun u o there => ?_
    rw [show _ = _ from workers_setWorker w t (.waiting op waits _) u] at there
    split at there
    · cases there
    · next other => exact ⟨other, there⟩
  | enter idle => exact .same rfl rfl (unexecuted_setWorker rfl (.inr rfl))
  | lockCork here free uncorked => exact .same rfl rfl (unexecuted_setWorker rfl (.inr rfl))
  | send here known sent => exact .same rfl rfl (unexecuted_setWorker rfl (.inl (by rw [here]; rfl)))
  | unlockCork here => exact .same rfl rfl (unexecuted_setWorker rfl (.inl (by rw [here]; rfl)))
  | @journal entry filestore _ t op waits here passes =>
    refine .same rfl rfl (unexecuted_setWorker rfl ?_)
    cases filestore with
    | true => exact .inr rfl
    | false => exact .inl (by rw [here]; rfl)
  | take here known filled => exact .same rfl rfl (unexecuted_setWorker rfl (.inr rfl))
  | timeOut here => exact .same rfl rfl (unexecuted_setWorker rfl (.inr rfl))
  | leave here => exact .same rfl rfl (unexecuted_setWorker rfl (.inr rfl))
  | _ => exact .same rfl rfl fun _ _ => id

theorem Worker.op_of_unexecuted {pc : Worker} {op : Op} (unexecuted : pc.unexecuted = some op) : pc.op = some op := by
  cases pc with
  | sending | sent | executing =>
    simp only [Worker.unexecuted] at unexecuted
    split at unexecuted <;> cases unexecuted
    rfl
  | _ => cases unexecuted

theorem Progress.step {w w' : World σ} (progress : Progress w) (serials : Serials w) (step : Step setup w e w') :
    Progress w' := by
  obtain ⟨order, executed, fewer⟩ | @⟨t, op, turn, here, order, executed, others⟩ |
    @⟨t, op, waits, here, order, executed, others⟩ := step.advances
  · refine ⟨?_, fun u o there => ?_⟩ <;> rw [order, executed]
    · exact progress.executed
    · exact progress.unexecuted u o (fewer u o there)
  · have new : op ∉ w.order := serials.ahead t op (by rw [here]; rfl)
    refine ⟨?_, fun u o there => ?_⟩ <;> rw [order, executed]
    · exact fun o member => List.mem_append_left _ (progress.executed o member)
    · obtain ⟨_, rfl⟩ | earlier := others u o there
      · have update := Worker.isFsync_of_unexecuted there
        exact ⟨List.mem_append_right _ List.mem_cons_self,
          fun member => new (progress.executed o (mem_updates.mpr ⟨member, update⟩))⟩
      · obtain ⟨member, fresh⟩ := progress.unexecuted u o earlier
        exact ⟨List.mem_append_left _ member, fresh⟩
  · refine ⟨?_, fun u o there => ?_⟩ <;> rw [order, executed]
    · intro o member
      obtain ⟨member, update⟩ := mem_updates.mp member
      obtain member | same := List.mem_append.mp member
      · exact progress.executed o (mem_updates.mpr ⟨member, update⟩)
      · obtain rfl := List.mem_singleton.mp same
        exact (progress.unexecuted t o (by simp [here, Worker.unexecuted, update])).1
    · obtain ⟨other, there⟩ := others u o there
      obtain ⟨member, fresh⟩ := progress.unexecuted u o there
      refine ⟨member, fun ran => ?_⟩
      obtain ran | same := List.mem_append.mp ran
      · exact fresh ran
      · obtain rfl := List.mem_singleton.mp same
        exact other (serials.distinct u t o (Worker.op_of_unexecuted there) (by rw [here]; rfl))

/-- What is settled stays so. -/
theorem Settled.step {w w' : World σ} (settled : Settled w seen op) (handed : op ∈ updates w.order)
    (serials : Serials w) (step : Step setup w e w') : Settled w' seen op := by
  obtain ⟨handed, update⟩ := mem_updates.mp handed
  refine settled.imp_right fun ⟨fresh, nobody⟩ => ?_
  obtain ⟨order, executed, fewer⟩ | @⟨t, o, turn, here, order, executed, others⟩ |
    @⟨t, o, waits, here, order, executed, others⟩ := step.advances
  · rw [executed]
    exact ⟨fresh, fun u there => nobody u (fewer u op there)⟩
  · rw [executed]
    refine ⟨fresh, fun u there => ?_⟩
    obtain ⟨_, rfl⟩ | there := others u op there
    · exact serials.ahead t op (by rw [here]; rfl) handed
    · exact nobody u there
  · rw [executed]
    refine ⟨fun ran => ?_, fun u there => nobody u (others u op there).2⟩
    obtain ran | same := List.mem_append.mp ran
    · exact fresh ran
    · obtain rfl := List.mem_singleton.mp same
      exact nobody t (by simp [here, Worker.unexecuted, update])

/-- What a client was not sent because it was not listed yet, its check had seen. -/
structure Informed (w : World σ) : Prop where
  joining : ∀ c k seen, w.joining = .connected c → w.clients c = some k → k.mode ≠ .control →
    k.observed = some seen → ∀ op ∈ updates w.order, Settled w seen op
  listed : ∀ c k seen, w.clients c = some k → k.mode ≠ .control → k.observed = some seen →
    ∀ op ∈ updates k.before, Settled w seen op

/-- The check of a client that connects while no update is under way. -/
private theorem settled_of_connect {newcomer : Newcomer σ}
    (accepted : fromStream setup w.store w.executed newcomer = some k) (observed : k.observed = some seen)
    (quiet : ∀ t, (w.workers t).unexecuted = none) (op : Op) : Settled w seen op := by
  have same : seen = w.executed := by
    simp only [fromStream] at accepted
    split at accepted
    · cases accepted
    · cases accepted
      simp only [Client.connected] at observed
      split at observed <;> cases observed
      rfl
  by_cases ran : op ∈ w.executed
  · exact .inl (same ▸ ran)
  · exact .inr ⟨ran, by simp [quiet]⟩

theorem Informed.step {w w' : World σ} (informed : Informed w) (coherent : Coherent w) (step : Step setup w e w')
    (fine : Undisturbed setup w e) : Informed w' := by
  refine ⟨fun c k' seen joined there data observed op member => ?_, fun c k' seen there data observed op member => ?_⟩
  · obtain joined | rfl := step.joining_origin joined
    · obtain ⟨k, known⟩ := Option.ne_none_iff_exists'.mp (coherent.locks.known c (.inr joined))
      obtain ⟨mode, saw, _⟩ := step.stable known there
      rw [mode] at data
      rw [saw] at observed
      have settled : op ∈ updates w.order → Settled w' seen op := fun handed =>
        (informed.joining c k seen joined known data observed op handed).step handed coherent.serials step
      obtain ⟨order, _⟩ | @⟨t, o, turn, here, order, _⟩ | ⟨_, order, _⟩ := step.advances
      · exact settled (order ▸ member)
      · rw [order, updates_append, List.mem_append] at member
        obtain handed | new := member
        · exact settled handed
        · obtain ⟨same, update⟩ := mem_updates.mp new
          obtain rfl := List.mem_singleton.mp same
          subst turn
          cases (fine op c k here update joined known data).symm.trans observed
      · exact settled (order ▸ member)
    · cases step with
      | connect asks accepted unused =>
        obtain ⟨_, rfl⟩ | ⟨other, _⟩ := clients_setClient there
        · have quiet := fine _ _ asks accepted data (by simp [observed])
          exact settled_of_connect accepted observed quiet op
        · exact absurd rfl other
  · obtain known | rfl := step.client_origin there
    · obtain ⟨k, known⟩ := Option.ne_none_iff_exists'.mp known
      obtain ⟨mode, saw, before⟩ := step.stable known there
      rw [mode] at data
      rw [saw] at observed
      obtain before | ⟨joined, before⟩ := before <;> rw [before] at member
      · have handed : op ∈ updates w.order :=
          (coherent.ordered.soFar c k known data).subset (List.mem_append_left _ member)
        exact (informed.listed c k seen known data observed op member).step handed coherent.serials step
      · exact (informed.joining c k seen joined known data observed op member).step member coherent.serials step
    · cases step with
      | connect asks accepted unused =>
        obtain ⟨_, rfl⟩ | ⟨other, _⟩ := clients_setClient there
        · rw [(fromStream_fresh accepted).before] at member
          cases member
        · exact absurd rfl other

theorem AtRest.progress {w : World σ} (rest : AtRest w) : Progress w :=
  ⟨by simp [rest.executed], by simp [rest.workers, Worker.unexecuted]⟩

theorem AtRest.informed {w : World σ} (rest : AtRest w) : Informed w :=
  ⟨by simp [rest.joining], fun c k seen known _ _ op member => by
    rw [(rest.fresh c k known).before] at member
    cases member⟩

/-- If nothing disturbs its joining, a client is sent every update whose effect its
check has not seen. -/
theorem undisturbed_join_loses_nothing {start w : World σ} (rest : AtRest start)
    (reached : Reaches (Step setup) (Undisturbed setup) start w) (known : w.clients c = some k)
    (data : k.mode ≠ .control) (observed : k.observed = some seen)
    (joined : w.joining = .connected c ∨ c ∈ w.syncList ∧ k.net.status = .alive) (op : Op)
    (ran : op ∈ updates w.executed) (unseen : op ∉ seen) : op ∈ k.written := by
  obtain ⟨coherent, progress, informed⟩ : Coherent w ∧ Progress w ∧ Informed w := by
    refine reached.invariant (motive := fun w => Coherent w ∧ Progress w ∧ Informed w)
      ⟨rest.coherent, rest.progress, rest.informed⟩ ?_
    rintro s e s' ⟨coherent, progress, informed⟩ step fine
    exact ⟨coherent.step step, progress.step coherent.serials step, informed.step coherent step fine⟩
  obtain ⟨ranAll, update⟩ := mem_updates.mp ran
  have handed : op ∈ updates w.order := mem_updates.mpr ⟨progress.executed op ran, update⟩
  have lost : ¬Settled w seen op := fun settled => settled.elim unseen fun settled => settled.1 ranAll
  obtain joined | ⟨listed, alive⟩ := joined
  · exact absurd (informed.joining c k seen joined known data observed op handed) lost
  · rw [coherent.ordered.upToDate c k known data listed alive, List.mem_append, List.mem_append] at handed
    obtain (before | written) | owed := handed
    · exact absurd (informed.listed c k seen known data observed op before) lost
    · exact (mem_updates.mp written).1
    · -- What is being handed out has not been executed.
      obtain ⟨owed, _⟩ := mem_updates.mp owed
      unfold World.owed at owed
      split at owed
      · next sending =>
        obtain ⟨t, _, here⟩ := Option.map_eq_some_iff.mp sending
        split at owed
        · obtain rfl := List.mem_singleton.mp owed
          exact absurd ranAll (progress.unexecuted t op (by simp [here, Worker.unexecuted, update])).2
        · cases owed
      · cases owed

open Bilog (emptyStore)

/-- A client that asks for an initial copy. -/
def demoNewcomer : Newcomer FileTree.Tree := ⟨⟨.async, 0, false, true⟩, emptyStore, false⟩

/-- The copy is made between an operation's being handed out and its execution. -/
theorem update_lost_on_join :
    ∃ w k, Reaches (Step (demoSetup none)) anyStep (demoStart []) w ∧ w.clients 0 = some k ∧ k.mode = .async ∧
      k.observed = some [] ∧ 0 ∈ w.syncList ∧ k.net.status = .alive ∧ (∀ t, w.workers t = .idle) ∧
      updates w.executed = [⟨0, demoCall 97⟩] ∧ k.written = [] := by
  have started : Reaches (Step (demoSetup none)) anyStep (demoStart []) _ := .refl
  have handed := (started.next (e := .enter 0 (demoCall 97)) (.enter rfl) trivial
    |>.next (e := .lockCork 0) (.lockCork rfl rfl rfl) trivial
    |>.next (e := .readList 0) (.readList rfl) trivial
    |>.next (e := .unlockCork 0) (.unlockCork rfl) trivial
    |>.next (e := .journal 0) (.journal rfl rfl) trivial)
  have joined := (handed.next (e := .accept demoNewcomer) (.accept rfl) trivial
    |>.next (e := .connect 0) (.connect rfl rfl rfl) trivial
    |>.next (e := .push) (.push rfl rfl rfl) trivial)
  have done := (joined.next (e := .execute 0) (.execute rfl) trivial
    |>.next (e := .leave 0) (.leave rfl) trivial)
  refine ⟨_, _, done, rfl, rfl, rfl, by decide, rfl, fun t => ?_, by decide, rfl⟩
  match t with
  | 0 | t + 1 => rfl

/-- The same operation, started when the client is on the list. -/
theorem update_sent_after_join :
    ∃ w k, Reaches (Step (demoSetup none)) (Undisturbed (demoSetup none)) (demoStart []) w ∧
      w.clients 0 = some k ∧ k.observed = some [] ∧ updates w.executed = [⟨0, demoCall 97⟩] ∧
      ⟨0, demoCall 97⟩ ∈ k.written := by
  have started : Reaches (Step (demoSetup none)) (Undisturbed (demoSetup none)) (demoStart []) _ := .refl
  have joined := (started.next (e := .accept demoNewcomer) (.accept rfl) (by trivial)
    |>.next (e := .connect 0) (.connect rfl rfl rfl) (by exact fun _ _ _ _ _ _ _ => rfl)
    |>.next (e := .push) (.push rfl rfl rfl) (by trivial))
  have handed := (joined.next (e := .enter 0 (demoCall 97)) (.enter rfl) (by trivial)
    |>.next (e := .lockCork 0) (.lockCork rfl rfl rfl) (by trivial)
    |>.next (e := .readList 0) (.readList rfl) (by exact fun _ _ _ _ _ joining => by cases joining)
    |>.next (e := .send 0 none) (.send rfl rfl rfl) (by trivial)
    |>.next (e := .unlockCork 0) (.unlockCork rfl) (by trivial)
    |>.next (e := .journal 0) (.journal rfl rfl) (by trivial))
  have done := handed.next (e := .execute 0) (.execute rfl) (by trivial)
  have sent := undisturbed_join_loses_nothing (c := 0) (demoStart_atRest _) done rfl (by decide) rfl
    (.inr ⟨by decide, rfl⟩) ⟨0, demoCall 97⟩ (by decide) List.not_mem_nil
  exact ⟨_, _, done, rfl, rfl, by decide, sent⟩

end Fsyncer.Replication
