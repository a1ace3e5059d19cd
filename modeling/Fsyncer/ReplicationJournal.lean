import Fsyncer.ReplicationOrder

/-! In which order a forward journal records what is sent to the clients. The
entry is written after `CORK` was given back, so workers can overtake each other
on the way to it. -/
namespace Fsyncer.Replication
open Interleaving Vfs

variable {σ : Type} {setup : Setup σ}

/-- An update that is handed out and not in the journal yet. -/
def Worker.unrecorded : Worker → Option Op
  | .sending op _ _ | .sent op _ => if isFsync op.call then none else some op
  | _ => none

/-- No entry is written while an update that was handed out earlier has none. -/
def InTurn (w : World σ) : Event σ → Prop
  | .journal t => ∀ op u other, (w.workers t).unrecorded = some op → (w.workers u).unrecorded = some other →
      ∀ front back, updates w.order = front ++ op :: back → other ∉ front
  | _ => True

/-- The updates handed out are those in the journal and then those still unrecorded. -/
def Recorded (w : World σ) : Prop :=
  ∃ items, Pending (fun t => (w.workers t).unrecorded) items ∧ updates w.order = updates w.journal ++ items

private theorem unrecorded_setWorker (w : World σ) (t : ℕ) (pc : Worker) :
    (fun u => ((w.setWorker t pc).workers u).unrecorded) =
      Function.update (fun u => (w.workers u).unrecorded) t pc.unrecorded := by
  funext u
  rw [workers_setWorker, Function.update_apply]
  split <;> rfl

private theorem unrecorded_same {w : World σ} (pc : Worker) (same : pc.unrecorded = (w.workers t).unrecorded) :
    (fun u => ((w.setWorker t pc).workers u).unrecorded) = fun u => (w.workers u).unrecorded := by
  rw [unrecorded_setWorker, same]
  exact Function.update_eq_self ..

theorem Recorded.frame {w w' : World σ} (recorded : Recorded w)
    (workers : (fun t => (w'.workers t).unrecorded) = fun t => (w.workers t).unrecorded)
    (order : w'.order = w.order) (journal : w'.journal = w.journal) : Recorded w' := by
  unfold Recorded
  rwa [workers, order, journal]

/-- One operation more is handed out. -/
theorem Recorded.handedOut {w w' : World σ} (recorded : Recorded w) (free : (w.workers t).unrecorded = none)
    (workers : (fun u => (w'.workers u).unrecorded) =
      Function.update (fun u => (w.workers u).unrecorded) t (if isFsync op.call then none else some op))
    (order : w'.order = w.order ++ [op]) (journal : w'.journal = w.journal) : Recorded w' := by
  obtain ⟨items, pending, all⟩ := recorded
  unfold Recorded
  rw [workers, order, journal, updates_append, all]
  by_cases flush : isFsync op.call
  · refine ⟨items, ?_, by simp [updates, flush]⟩
    rw [if_pos flush, ← free]
    exact (Function.update_eq_self t fun u => (w.workers u).unrecorded).symm ▸ pending
  · refine ⟨items ++ [op], ?_, by simp [updates, flush]⟩
    rw [if_neg flush]
    exact pending.take free op

private theorem eq_of_split {front front' back back' : List Op} {op : Op} (distinct : (front ++ op :: back).Nodup)
    (same : front ++ op :: back = front' ++ op :: back') : front = front' := by
  induction front generalizing front' with
  | nil =>
    cases front' with
    | nil => rfl
    | cons first front' =>
      obtain ⟨rfl, tail⟩ := List.cons.inj same
      exact absurd (tail ▸ List.mem_append_right front' List.mem_cons_self) (List.nodup_cons.mp distinct).1
  | cons first front ih =>
    cases front' with
    | nil =>
      obtain ⟨rfl, _⟩ := List.cons.inj same
      exact absurd (List.mem_append_right front List.mem_cons_self) (List.nodup_cons.mp distinct).1
    | cons _ front' =>
      obtain ⟨rfl, tail⟩ := List.cons.inj same
      rw [ih (List.nodup_cons.mp distinct).2 tail]

/-- An update is recorded. The journal goes on like the order it was handed out
in exactly if the worker is in turn. -/
theorem Recorded.recorded_iff {w w' : World σ} (recorded : Recorded w) (distinct : w.order.Nodup)
    (holds : (w.workers t).unrecorded = some op)
    (workers : (fun u => (w'.workers u).unrecorded) =
      Function.update (fun u => (w.workers u).unrecorded) t none)
    (order : w'.order = w.order) (journal : updates w'.journal = updates w.journal ++ [op]) :
    (InTurn w (.journal t) → Recorded w') ∧ (updates w'.journal <+: updates w'.order → InTurn w (.journal t)) := by
  obtain ⟨items, pending, all⟩ := recorded
  have distinct : (updates w.order).Nodup := distinct.filter _
  constructor
  · intro turn
    obtain ⟨front, back, rfl, rest, others⟩ := pending.put holds
    have first : front = [] := by
      refine List.eq_nil_iff_forall_not_mem.mpr fun other member => ?_
      obtain ⟨u, _, held⟩ := others other (List.mem_append_left back member)
      refine turn op u other holds held (updates w.journal ++ front) back ?_ (List.mem_append_right _ member)
      rw [all, List.append_assoc]
    subst first
    refine ⟨back, ?_, ?_⟩
    · rw [workers]
      exact rest
    · rw [order, journal, all, List.append_assoc]
      rfl
  · intro fore found u other same held front back split
    obtain rfl : op = found := Option.some.inj (holds.symm.trans same)
    rw [order, journal, all, List.prefix_append_right_inj] at fore
    obtain ⟨rest, rfl⟩ := fore
    rw [all] at split distinct
    obtain rfl := eq_of_split distinct split
    -- The other update is still unrecorded, and the journal would hold it twice.
    intro recorded
    exact List.disjoint_of_nodup_append distinct recorded (pending.mem held)

/-- Only handing out and recording matter. -/
theorem Recorded.step_iff {w w' : World σ} (forward : setup.journal = some .forward) (coherent : Coherent w)
    (recorded : Recorded w) (step : Step setup w e w') :
    (InTurn w e → Recorded w') ∧ (updates w'.journal <+: updates w'.order → InTurn w e) := by
  cases step with
  | @readList _ t op here =>
    exact ⟨fun _ => recorded.handedOut (by simp [here, Worker.unrecorded]) (unrecorded_setWorker w t _) rfl rfl,
      fun _ => trivial⟩
  | @journal entry filestore _ t op waits here passes =>
    obtain ⟨rfl, rfl⟩ : entry = true ∧ filestore = false := by
      simpa [Setup.records, forward, eq_comm] using passes
    by_cases flush : isFsync op.call
    · have free : (w.workers t).unrecorded = none := by simp [here, Worker.unrecorded, flush]
      refine ⟨fun _ => ?_, fun _ found _ _ holds => by simp [free] at holds⟩
      obtain ⟨items, pending, all⟩ := recorded
      refine ⟨items, ?_, ?_⟩
      · exact (unrecorded_same (.afterJournal op waits false) free.symm) ▸ pending
      · have unchanged : updates (w.journal ++ [op]) = updates w.journal := by simp [updates, flush]
        exact all.trans (congrArg (· ++ items) unchanged.symm)
    · have holds : (w.workers t).unrecorded = some op := by simp [here, Worker.unrecorded, flush]
      have entry : updates (w.journal ++ [op]) = updates w.journal ++ [op] := by simp [updates, flush]
      exact recorded.recorded_iff coherent.serials.nodup holds (unrecorded_setWorker w t _) rfl entry
  | enter idle =>
    exact ⟨fun _ => recorded.frame (unrecorded_same _ (by simp [idle, Worker.unrecorded])) rfl rfl, fun _ => trivial⟩
  | lockCork here free uncorked =>
    exact ⟨fun _ => recorded.frame (unrecorded_same _ (by simp [here, Worker.unrecorded])) rfl rfl, fun _ => trivial⟩
  | @send k k' awaited _ t cut c op rest waits here known sent =>
    have same : (Worker.sending op rest (if awaited then waits ++ [c] else waits)).unrecorded =
        (w.workers t).unrecorded := by rw [here]; rfl
    exact ⟨fun _ => recorded.frame (unrecorded_same (w := w.setClient c k') _ same) rfl rfl, fun _ => trivial⟩
  | unlockCork here | execute here | timeOut here | leave here =>
    exact ⟨fun _ => recorded.frame (unrecorded_same _ (by simp [here, Worker.unrecorded])) rfl rfl, fun _ => trivial⟩
  | @take k reply _ t c op rest ret here known filled =>
    have same : (Worker.waiting op rest ret).unrecorded = (w.workers t).unrecorded := by rw [here]; rfl
    exact ⟨fun _ => recorded.frame (unrecorded_same (w := w.setClient c _) _ same) rfl rfl, fun _ => trivial⟩
  | _ => exact ⟨fun _ => recorded.frame rfl rfl rfl, fun _ => trivial⟩

theorem AtRest.recorded {w : World σ} (rest : AtRest w) : Recorded w :=
  ⟨[], .nil fun t => by simp [rest.workers, Worker.unrecorded], by simp [rest.order, rest.journal]⟩

/-- A client that is on the list from the start has missed nothing before it was. -/
theorem before_of_listed {allowed : World σ → Event σ → Prop} {start w : World σ} (rest : AtRest start)
    (listed : c ∈ start.syncList) (reached : Reaches (Step setup) allowed start w) :
    ∃ k, w.clients c = some k ∧ k.before = [] ∧ w.joining ≠ .connected c := by
  refine reached.invariant (motive := fun w => ∃ k, w.clients c = some k ∧ k.before = [] ∧
    w.joining ≠ .connected c) ?_ ?_
  · obtain ⟨k, known⟩ := Option.ne_none_iff_exists'.mp (rest.known c listed)
    exact ⟨k, known, (rest.fresh c k known).before, by simp [rest.joining]⟩
  · rintro s e s' ⟨k, known, before, apart⟩ step _
    have apart' : s'.joining ≠ .connected c := by
      cases step with
      | connect asks accepted unused =>
        rintro same
        cases same
        cases known.symm.trans unused
      | accept vacant | refuse asks refused | push ready there unread => exact fun same => by cases same
      | _ => exact apart
    obtain ⟨k', found, kept | ⟨joined, _⟩ | ⟨t, op, others, waits, cut, awaited, _, sent⟩⟩ := step.written known
    · exact ⟨k', found, kept.before.trans before, apart'⟩
    · exact absurd joined apart
    · refine ⟨k', found, ?_, apart'⟩
      obtain ⟨_, rfl, _⟩ | ⟨msg, sync, result, message, sent, _⟩ := Client.sendOp_cases sent
      · exact before
      · exact (Client.responseMsg_written (Client.opMsg_op message) sent).2.1.trans before

/-- With entries written in turn, the journal and what is sent to a client that is
connected throughout are one sequence of updates: each lacks at most what is on
its way to it, and they are the same whenever nothing is. The first entry out of
turn puts the journal at odds with the order of the operations. -/
theorem journal_in_turn_is_wire_order {start w : World σ} (forward : setup.journal = some .forward)
    (rest : AtRest start) (listed : c ∈ start.syncList) (reached : Reaches (Step setup) InTurn start w)
    (known : w.clients c = some k) (data : k.mode ≠ .control) (connected : c ∈ w.syncList)
    (alive : k.net.status = .alive) :
    (∃ unrecorded, Pending (fun t => (w.workers t).unrecorded) unrecorded ∧
      updates w.journal ++ unrecorded = updates k.written ++ updates (w.owed c)) ∧
    ((∀ t, (w.workers t).unrecorded = none) → updates w.journal = updates k.written) ∧
    ∀ e w', Step setup w e w' → (InTurn w e ↔ updates w'.journal <+: updates w'.order) := by
  have coherent := coherent_of_reaches rest reached
  have recorded : Recorded w := by
    refine (reached.invariant (motive := fun w => Coherent w ∧ Recorded w) ⟨rest.coherent, rest.recorded⟩ ?_).2
    rintro s e s' ⟨coherent, recorded⟩ step turn
    exact ⟨coherent.step step, (recorded.step_iff forward coherent step).1 turn⟩
  obtain ⟨l, there, before, _⟩ := before_of_listed rest listed reached
  obtain rfl : k = l := Option.some.inj (known.symm.trans there)
  have wire := coherent.ordered.upToDate c k known data connected alive
  rw [before, updates_nil, List.nil_append] at wire
  obtain ⟨items, pending, all⟩ := id recorded
  refine ⟨⟨items, pending, all.symm.trans wire⟩, fun none_left => ?_, fun e w' step => ⟨fun turn => ?_, ?_⟩⟩
  · rw [pending.eq_nil none_left, List.append_nil] at all
    have flushes : updates (w.owed c) = [] := by
      refine updates_owed fun t op rest waits here => ?_
      simpa [here, Worker.unrecorded] using none_left t
    rw [← all, wire, flushes, List.append_nil]
  · obtain ⟨rest, _, all⟩ := (recorded.step_iff forward coherent step).1 turn
    exact all ▸ List.prefix_append _ _
  · exact (recorded.step_iff forward coherent step).2

/-- Two workers have sent their operations to the client; the second one is the
first to write its entry. -/
theorem journal_overtakes_wire :
    ∃ w k, Reaches (Step (demoSetup (some .forward))) anyStep (demoStart [.async]) w ∧
      (∀ t, (w.workers t).unrecorded = none) ∧ w.clients 0 = some k ∧ k.mode = .async ∧ 0 ∈ w.syncList ∧
      updates w.journal = [⟨1, demoCall 98⟩, ⟨0, demoCall 97⟩] ∧
      updates k.written = [⟨0, demoCall 97⟩, ⟨1, demoCall 98⟩] := by
  have started : Reaches (Step (demoSetup (some .forward))) anyStep (demoStart [.async]) _ := .refl
  have first := (started.next (e := .enter 0 (demoCall 97)) (.enter rfl) trivial
    |>.next (e := .lockCork 0) (.lockCork rfl rfl rfl) trivial
    |>.next (e := .readList 0) (.readList rfl) trivial
    |>.next (e := .send 0 none) (.send rfl rfl rfl) trivial
    |>.next (e := .unlockCork 0) (.unlockCork rfl) trivial)
  have second := (first.next (e := .enter 1 (demoCall 98)) (.enter rfl) trivial
    |>.next (e := .lockCork 1) (.lockCork rfl rfl rfl) trivial
    |>.next (e := .readList 1) (.readList rfl) trivial
    |>.next (e := .send 1 none) (.send rfl rfl rfl) trivial
    |>.next (e := .unlockCork 1) (.unlockCork rfl) trivial)
  have journaled := (second.next (e := .journal 1) (.journal rfl rfl) trivial
    |>.next (e := .journal 0) (.journal rfl rfl) trivial)
  refine ⟨_, _, journaled, fun t => ?_, rfl, rfl, by decide, by decide, by decide⟩
  match t with
  | 0 | 1 | t + 2 => rfl

private theorem inTurn_of_only {w : World σ} {only : Op} (alone : updates w.order = [only]) :
    InTurn w (.journal t) := by
  intro op u other here there front back split member
  rw [alone] at split
  cases front with
  | nil => cases member
  | cons first front => simp at split

/-- One worker at a time is in turn. -/
theorem single_worker_in_turn :
    ∃ w k, Reaches (Step (demoSetup (some .forward))) InTurn (demoStart [.async]) w ∧
      w.clients 0 = some k ∧ updates w.journal = [⟨0, demoCall 97⟩] ∧ updates w.journal = updates k.written := by
  have started : Reaches (Step (demoSetup (some .forward))) InTurn (demoStart [.async]) _ := .refl
  have sent := (started.next (e := .enter 0 (demoCall 97)) (.enter rfl) (by trivial)
    |>.next (e := .lockCork 0) (.lockCork rfl rfl rfl) (by trivial)
    |>.next (e := .readList 0) (.readList rfl) (by trivial)
    |>.next (e := .send 0 none) (.send rfl rfl rfl) (by trivial)
    |>.next (e := .unlockCork 0) (.unlockCork rfl) (by trivial))
  have journaled := sent.next (e := .journal 0) (.journal rfl rfl) (inTurn_of_only rfl)
  have same := (journal_in_turn_is_wire_order (c := 0) rfl (demoStart_atRest _) (by decide) journaled rfl
    (by decide) (by decide) rfl).2.1 fun t => by match t with | 0 | t + 1 => rfl
  exact ⟨_, _, journaled, rfl, by decide, same⟩

end Fsyncer.Replication
