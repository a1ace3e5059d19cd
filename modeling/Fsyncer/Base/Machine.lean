import Mathlib.Algebra.GroupWithZero.Nat
import Mathlib.Data.Nat.Notation
import Mathlib.Data.List.Basic

/-! Unsigned 64-bit arithmetic as a release build performs it, sequencing of
fallible steps, and iterators run to exhaustion. -/
namespace Fsyncer.Machine

/-- The value a 64-bit register keeps of `n`. -/
def u64 (n : ℕ) : ℕ := n % 2 ^ 64

/-- Unsigned subtraction, wrapping below zero. -/
def usub (a b : ℕ) : ℕ := (a + 2 ^ 64 - b) % 2 ^ 64

theorem u64_of_lt (small : n < 2 ^ 64) : u64 n = n := Nat.mod_eq_of_lt small

theorem u64_lt (n : ℕ) : u64 n < 2 ^ 64 := Nat.mod_lt _ (by decide)

theorem usub_of_le (order : b ≤ a) (small : a < 2 ^ 64) : usub a b = a - b := by
  unfold usub
  omega

@[simp] theorem ok_bind (value : α) (next : α → Except ε β) :
    ((.ok value : Except ε α) >>= next) = next value := rfl

@[simp] theorem error_bind (error : ε) (next : α → Except ε β) :
    ((.error error : Except ε α) >>= next) = .error error := rfl

/-- A sequence of two steps succeeds exactly when both do. -/
theorem bind_ok {first : Except ε α} {next : α → Except ε β} {result : β} :
    (first >>= next) = .ok result ↔ ∃ value, first = .ok value ∧ next value = .ok result := by
  cases first with
  | error error => simp [bind, Except.bind]
  | ok value => simp [bind, Except.bind]

/-- A sequence of two steps fails where one of them does. -/
theorem bind_eq_error {first : Except ε α} {next : α → Except ε β} {error : ε} :
    (first >>= next) = .error error ↔
      first = .error error ∨ ∃ value, first = .ok value ∧ next value = .error error := by
  cases first with
  | error error => simp
  | ok value => simp

@[simp] theorem mapM_nil_ok {f : α → Except ε β} : [].mapM f = .ok results ↔ results = [] := by
  rw [List.mapM_nil]
  exact ⟨fun same => (Except.ok.inj same).symm, fun same => same ▸ rfl⟩

/-- A step for every element succeeds exactly when the first and the others do. -/
theorem mapM_cons_ok {f : α → Except ε β} : (head :: tail).mapM f = .ok results ↔
    ∃ first rest, f head = .ok first ∧ tail.mapM f = .ok rest ∧ results = first :: rest := by
  rw [List.mapM_cons, bind_ok]
  simp only [bind_ok]
  constructor
  · rintro ⟨first, here, rest, there, same⟩
    exact ⟨first, rest, here, there, (Except.ok.inj same).symm⟩
  · rintro ⟨first, rest, here, there, same⟩
    exact ⟨first, here, rest, there, same ▸ rfl⟩

theorem mapM_ok_of_mem {f : α → Except ε β} {values : List α} (mapped : values.mapM f = .ok results) (listed : value ∈ values) :
    ∃ result, f value = .ok result := by
  induction values generalizing results with
  | nil => cases listed
  | cons head tail ih =>
    obtain ⟨first, rest, here, there, -⟩ := mapM_cons_ok.mp mapped
    rcases List.mem_cons.mp listed with rfl | listed
    · exact ⟨first, here⟩
    · exact ih there listed

/-- A result means that the check before it was passed. -/
theorem of_guard [Decidable c] {result : Except ε α} (passed : (if c then .error error else result) = .ok value) :
    ¬ c ∧ result = .ok value := by
  by_cases failed : c
  · rw [if_pos failed] at passed
    cases passed
  · rw [if_neg failed] at passed
    exact ⟨failed, passed⟩

/-- `Drains Next state items`: pulling from `state` until the iterator reports
its end produces exactly `items`. An iterator that never ends drains to
nothing at all, so this also says that it ends. -/
inductive Drains (Next : σ → Option ι → σ → Prop) : σ → List ι → Prop where
  | done (ended : Next state none state') : Drains Next state []
  | item (pulled : Next state (some head) state') (rest : Drains Next state' items) :
      Drains Next state (head :: items)

/-- Iterators that step alike drain alike. -/
theorem Drains.map {Next : σ → Option ι → σ → Prop} {Next' : σ' → Option ι → σ' → Prop} (f : σ → σ')
    (step : ∀ state item after, Next state item after → Next' (f state) item (f after))
    (drains : Drains Next state items) : Drains Next' (f state) items := by
  induction drains with
  | done ended => exact .done (step _ _ _ ended)
  | item pulled _ ih => exact .item (step _ _ _ pulled) ih

/-- A deterministic iterator drains to one list only. -/
theorem Drains.unique {Next : σ → Option ι → σ → Prop}
    (deterministic : ∀ state first second after after', Next state first after →
      Next state second after' → first = second ∧ after = after')
    (left : Drains Next state items) (right : Drains Next state items') : items = items' := by
  induction left generalizing items' with
  | done ended =>
    cases right with
    | done _ => rfl
    | item pulled _ => cases (deterministic _ _ _ _ _ ended pulled).1
  | item pulled _ ih =>
    cases right with
    | done ended => cases (deterministic _ _ _ _ _ pulled ended).1
    | item pulled' rest =>
      obtain ⟨same, rfl⟩ := deterministic _ _ _ _ _ pulled pulled'
      cases same
      rw [ih rest]

section Pull
variable {Next : σ → Except ε (Option ι × σ)}

/-- An iterator that fails on some of its pulls. -/
def Pulls (Next : σ → Except ε (Option ι × σ)) (state : σ) (item : Option ι) (after : σ) : Prop :=
  Next state = .ok (item, after)

theorem drains_item (pulled : Next state = .ok (some head, after)) :
    Drains (Pulls Next) state items ↔ ∃ rest, items = head :: rest ∧ Drains (Pulls Next) after rest := by
  constructor
  · intro drains
    cases drains with
    | done ended =>
      have same := pulled.symm.trans ended
      cases same
    | item pulled' rest =>
      have same := pulled.symm.trans pulled'
      cases same
      exact ⟨_, rfl, rest⟩
  · rintro ⟨rest, rfl, drains⟩
    exact .item pulled drains

theorem drains_done (ended : Next state = .ok (none, after)) :
    Drains (Pulls Next) state items ↔ items = [] := by
  constructor
  · intro drains
    cases drains with
    | done _ => rfl
    | item pulled _ =>
      have same := ended.symm.trans pulled
      cases same
  · rintro rfl
    exact .done ended

theorem not_drains_of_error (failed : Next state = .error error) : ¬ Drains (Pulls Next) state items := by
  intro drains
  cases drains with
  | done ended =>
    have same := failed.symm.trans ended
    cases same
  | item pulled _ =>
    have same := failed.symm.trans pulled
    cases same

/-- What is drained depends on the first pull only. -/
theorem drains_congr (alike : Next state = Next state') :
    Drains (Pulls Next) state items ↔ Drains (Pulls Next) state' items := by
  cases pulled : Next state' with
  | error error =>
    exact iff_of_false (not_drains_of_error (alike.trans pulled)) (not_drains_of_error pulled)
  | ok result =>
    obtain ⟨item, after⟩ := result
    cases item with
    | none => rw [drains_done (alike.trans pulled), drains_done pulled]
    | some head => rw [drains_item (alike.trans pulled), drains_item pulled]

/-- From `state` the iterator produces a list that satisfies `Out`, and goes on
as it would from `after`; it ends for no other lists. -/
def Leads (Next : σ → Except ε (Option ι × σ)) (state : σ) (Out : List ι → Prop) (after : σ) : Prop :=
  ∀ items, Drains (Pulls Next) state items ↔
    ∃ first rest, Out first ∧ items = first ++ rest ∧ Drains (Pulls Next) after rest

theorem Leads.of_alike (alike : Next state = Next after) : Leads Next state (· = []) after := by
  intro items
  rw [drains_congr alike]
  simp

theorem Leads.of_error (failed : Next state = .error error) : Leads Next state (fun _ => False) after := by
  intro items
  exact iff_of_false (not_drains_of_error failed) (by simp)

theorem Leads.cons (pulled : Next state = .ok (some head, middle)) (leads : Leads Next middle Out after) :
    Leads Next state (fun items => ∃ rest, Out rest ∧ items = head :: rest) after := by
  intro items
  rw [drains_item pulled]
  constructor
  · rintro ⟨later, rfl, drains⟩
    obtain ⟨first, rest, out, rfl, goes_on⟩ := (leads later).mp drains
    exact ⟨head :: first, rest, ⟨first, out, rfl⟩, rfl, goes_on⟩
  · rintro ⟨_, rest, ⟨first, out, rfl⟩, rfl, goes_on⟩
    exact ⟨first ++ rest, rfl, (leads _).mpr ⟨first, rest, out, rfl, goes_on⟩⟩

theorem Leads.trans (first : Leads Next state Out middle) (second : Leads Next middle Out' after) :
    Leads Next state (fun items => ∃ front back, Out front ∧ Out' back ∧ items = front ++ back) after := by
  intro items
  rw [first items]
  constructor
  · rintro ⟨front, later, out, rfl, drains⟩
    obtain ⟨back, rest, out', rfl, goes_on⟩ := (second later).mp drains
    exact ⟨front ++ back, rest, ⟨front, back, out, out', rfl⟩, (List.append_assoc ..).symm, goes_on⟩
  · rintro ⟨_, rest, ⟨front, back, out, out', rfl⟩, rfl, goes_on⟩
    exact ⟨front, back ++ rest, out, List.append_assoc .., (second _).mpr ⟨back, rest, out', rfl, goes_on⟩⟩

theorem Leads.congr (leads : Leads Next state Out after) (same : ∀ items, Out items ↔ Out' items) :
    Leads Next state Out' after := by
  intro items
  rw [leads items]
  simp only [same]

end Pull

end Fsyncer.Machine
