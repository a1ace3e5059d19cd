import Mathlib.Data.List.Basic

/-! Programs that ask a system questions and go on by its answers. A run is the
list of questions asked and answers got; what a program reports about its run is
proved from what its parts report. -/
namespace Fsyncer.Interaction

inductive Program (Q A V : Type) where
  | ret (value : V)
  | ask (question : Q) (next : A → Program Q A V)

variable {Q A V W S : Type}

def Program.bind : Program Q A V → (V → Program Q A W) → Program Q A W
  | .ret value, rest => rest value
  | .ask question next, rest => .ask question fun answer => (next answer).bind rest

@[simp] theorem Program.ret_bind (value : V) (rest : V → Program Q A W) :
    (Program.ret value).bind rest = rest value := rfl

@[simp] theorem Program.ask_bind (question : Q) (next : A → Program Q A V) (rest : V → Program Q A W) :
    (Program.ask question next).bind rest = .ask question fun answer => (next answer).bind rest := rfl

/-- The runs of a program whose questions get answers that are `possible`. -/
inductive Runs (possible : Q → A → Prop) : Program Q A V → List (Q × A) → V → Prop where
  | ret : Runs possible (.ret value) [] value
  | ask (answered : possible question answer) (rest : Runs possible (next answer) trace value) :
      Runs possible (.ask question next) ((question, answer) :: trace) value

variable {possible : Q → A → Prop} {p : Program Q A V} {value : V} {trace : List (Q × A)}

theorem runs_ret : Runs possible (.ret value : Program Q A V) trace other ↔ trace = [] ∧ other = value := by
  constructor
  · rintro ⟨⟩
    exact ⟨rfl, rfl⟩
  · rintro ⟨rfl, rfl⟩
    exact .ret

theorem runs_ask {next : A → Program Q A V} : Runs possible (.ask question next) trace value ↔
    ∃ answer rest, possible question answer ∧ Runs possible (next answer) rest value ∧
      trace = (question, answer) :: rest := by
  constructor
  · rintro (_ | ⟨answered, rest⟩)
    exact ⟨_, _, answered, rest, rfl⟩
  · rintro ⟨answer, rest, answered, runs, rfl⟩
    exact .ask answered runs

/-- A run of two programs one after the other is a run of each. -/
theorem runs_bind {rest : V → Program Q A W} (runs : Runs possible (p.bind rest) trace last) :
    ∃ first value second, Runs possible p first value ∧ Runs possible (rest value) second last ∧
      trace = first ++ second := by
  induction p generalizing trace with
  | ret value => exact ⟨[], value, trace, .ret, runs, rfl⟩
  | ask question next ih =>
    obtain ⟨answer, later, answered, continues, rfl⟩ := runs_ask.mp runs
    obtain ⟨first, value, second, before, after, rfl⟩ := ih answer continues
    exact ⟨_, value, second, .ask answered before, after, rfl⟩

/-- A system that answers by its state. -/
def Program.interpret (system : S → Q → A × S) : Program Q A V → S → V × S
  | .ret value, s => (value, s)
  | .ask question next, s => (next (system s question).1).interpret system (system s question).2

theorem Program.interpret_bind (system : S → Q → A × S) (p : Program Q A V) (rest : V → Program Q A W) (s : S) :
    (p.bind rest).interpret system s = (rest (p.interpret system s).1).interpret system (p.interpret system s).2 := by
  induction p generalizing s with
  | ret value => rfl
  | ask question next ih => exact ih _ _

/-- The value of every run tells whether something in it was `bad`. -/
def Reports (possible : Q → A → Prop) (bad : Q × A → Prop) (warns : V → Prop) (p : Program Q A V) : Prop :=
  ∀ trace value, Runs possible p trace value → (warns value ↔ ∃ event ∈ trace, bad event)

variable {bad : Q × A → Prop} {warns : V → Prop} {alarms : W → Prop}

theorem reports_ret (silent : ¬ warns value) : Reports possible bad warns (.ret value) := by
  intro trace other runs
  obtain ⟨rfl, rfl⟩ := runs_ret.mp runs
  exact iff_of_false silent nofun

/-- A bad answer has to be told whatever follows, a good one leaves it to the rest. -/
theorem reports_ask {next : A → Program Q A V}
    (told : ∀ answer, possible question answer → bad (question, answer) →
      ∀ trace value, Runs possible (next answer) trace value → warns value)
    (rest : ∀ answer, possible question answer → ¬ bad (question, answer) →
      Reports possible bad warns (next answer)) : Reports possible bad warns (.ask question next) := by
  intro trace value runs
  obtain ⟨answer, later, answered, continues, rfl⟩ := runs_ask.mp runs
  by_cases is_bad : bad (question, answer)
  · exact iff_of_true (told answer answered is_bad later value continues) ⟨_, List.mem_cons_self, is_bad⟩
  · rw [rest answer answered is_bad later value continues]
    simp [is_bad]

/-- One program after another: what the first tells is passed on, otherwise it
is left to the second. -/
theorem reports_bind {rest : V → Program Q A W} (first : Reports possible bad warns p)
    (passes : ∀ value, warns value → ∀ trace last, Runs possible (rest value) trace last → alarms last)
    (second : ∀ value, ¬ warns value → Reports possible bad alarms (rest value)) :
    Reports possible bad alarms (p.bind rest) := by
  intro trace last runs
  obtain ⟨before, value, after, ran, rest_ran, rfl⟩ := runs_bind runs
  have told := first before value ran
  by_cases said : warns value
  · obtain ⟨event, listed, is_bad⟩ := told.mp said
    exact iff_of_true (passes value said after last rest_ran) ⟨event, List.mem_append_left _ listed, is_bad⟩
  · have good : ¬ ∃ event ∈ before, bad event := fun found => said (told.mpr found)
    rw [second value said after last rest_ran]
    constructor
    · rintro ⟨event, listed, is_bad⟩
      exact ⟨event, List.mem_append_right _ listed, is_bad⟩
    · rintro ⟨event, listed, is_bad⟩
      rcases List.mem_append.mp listed with early | late
      · exact absurd ⟨event, early, is_bad⟩ good
      · exact ⟨event, late, is_bad⟩

end Fsyncer.Interaction
