import Mathlib.Data.List.Basic

/-! Logs whose entries do not say in which direction they are meant: applying an
entry leads from either of two states to the other, as far as the states can be
told apart. A log of such entries can be run backwards and forwards. -/
namespace Fsyncer.UndoLog

section

variable {S E : Type} (flip : E → S → Option S) (Alike : S → S → Prop)

def replay : List E → S → Option S
  | [], state => some state
  | entry :: entries, state => (flip entry state).bind (replay entries)

theorem replay_append (first second : List E) (state : S) :
    replay flip (first ++ second) state = (replay flip first state).bind (replay flip second) := by
  induction first generalizing state with
  | nil => rfl
  | cons entry first ih =>
    rw [List.cons_append, replay, replay]
    cases flip entry state with
    | none => rfl
    | some after => exact ih after

/-- The entry leads from `before` to `after` and back. -/
structure Joins (entry : E) (before after : S) : Prop where
  forth : ∀ state, Alike state before → ∃ reached, flip entry state = some reached ∧ Alike reached after
  back : ∀ state, Alike state after → ∃ reached, flip entry state = some reached ∧ Alike reached before

inductive Chain : S → List E → S → Prop where
  | nil (state : S) : Chain state [] state
  | cons (joins : Joins flip Alike entry before middle) (rest : Chain middle entries after) :
      Chain before (entry :: entries) after

end

variable {S E : Type} {flip : E → S → Option S} {Alike : S → S → Prop}

theorem Joins.symm (joins : Joins flip Alike entry before after) : Joins flip Alike entry after before :=
  ⟨joins.back, joins.forth⟩

theorem Chain.forth (chain : Chain flip Alike before entries after) (alike : Alike state before) :
    ∃ reached, replay flip entries state = some reached ∧ Alike reached after := by
  induction chain generalizing state with
  | nil => exact ⟨state, rfl, alike⟩
  | cons joins _ ih =>
    obtain ⟨middle, flipped, alike⟩ := joins.forth state alike
    obtain ⟨reached, replayed, alike⟩ := ih alike
    exact ⟨reached, by rw [replay, flipped]; exact replayed, alike⟩

theorem Chain.back (chain : Chain flip Alike before entries after) (alike : Alike state after) :
    ∃ reached, replay flip entries.reverse state = some reached ∧ Alike reached before := by
  induction chain generalizing state with
  | nil => exact ⟨state, rfl, alike⟩
  | cons joins _ ih =>
    obtain ⟨middle, replayed, alike⟩ := ih alike
    obtain ⟨reached, flipped, alike⟩ := joins.back middle alike
    refine ⟨reached, ?_, alike⟩
    rw [List.reverse_cons, replay_append, replayed, Option.bind_some, replay, flipped]
    rfl

end Fsyncer.UndoLog
