import Fsyncer.Base.SortedMap
import Mathlib.Algebra.BigOperators.Group.List.Basic
import Mathlib.Algebra.GroupWithZero.Nat

/-! Spans of addresses, and how often a collection of them covers an address.
Counting the covers of every address says at once that spans are disjoint (no
address is covered twice) and that none is lost (the count does not change). -/
namespace Fsyncer

namespace SortedMap
variable {K V : Type} [LinearOrder K] {map : SortedMap K V}

/-- The weights of all entries together. -/
def total (weight : K × V → ℕ) (map : SortedMap K V) : ℕ := (map.entries.map weight).sum

theorem total_insert (weight : K × V → ℕ) (absent : map.find key = none) (value : V) :
    (map.insert key value).total weight = map.total weight + weight (key, value) := by
  unfold total
  rw [((perm_insert absent).map weight).sum_eq, List.map_cons, List.sum_cons, Nat.add_comm]

theorem total_erase (weight : K × V → ℕ) (found : map.find key = some value) :
    (map.erase key).total weight + weight (key, value) = map.total weight := by
  have absent : (map.erase key).find key = none := find_erase_self map key
  rw [← total_insert weight absent value, insert_erase found]

theorem insert_of_erase (map : SortedMap K V) (key : K) (value : V) :
    (map.erase key).insert key value = map.insert key value := by
  ext1 other
  rw [find_insert, find_insert, find_erase]
  split <;> rfl

/-- What the entry under a key weighs, if there is one. -/
def weightAt (weight : K × V → ℕ) (map : SortedMap K V) (key : K) : ℕ :=
  ((map.find key).map fun value => weight (key, value)).getD 0

theorem weightAt_of_find (weight : K × V → ℕ) (found : map.find key = some value) :
    map.weightAt weight key = weight (key, value) := by
  rw [weightAt, found]
  rfl

theorem weightAt_of_absent (weight : K × V → ℕ) (absent : map.find key = none) :
    map.weightAt weight key = 0 := by
  rw [weightAt, absent]
  rfl

theorem total_erase_any (weight : K × V → ℕ) (map : SortedMap K V) (key : K) :
    (map.erase key).total weight + map.weightAt weight key = map.total weight := by
  cases found : map.find key with
  | some value => rw [weightAt_of_find weight found, total_erase weight found]
  | none =>
    have same : map.erase key = map := by
      ext1 other
      rw [find_erase]
      split
      · next same => rw [← same, found]
      · rfl
    rw [weightAt_of_absent weight found, same, Nat.add_zero]

/-- An insertion adds the new entry and gives up the one it replaces. -/
theorem total_insert_any (weight : K × V → ℕ) (map : SortedMap K V) (key : K) (value : V) :
    (map.insert key value).total weight + map.weightAt weight key = map.total weight + weight (key, value) := by
  have absent : (map.erase key).find key = none := find_erase_self map key
  rw [← insert_of_erase, total_insert weight absent, ← total_erase_any weight map key]
  omega

theorem weightAt_le_total (weight : K × V → ℕ) (map : SortedMap K V) (key : K) :
    map.weightAt weight key ≤ map.total weight := by
  have split := total_erase_any weight map key
  omega

theorem le_total (weight : K × V → ℕ) (found : map.find key = some value) :
    weight (key, value) ≤ map.total weight := by
  have split := total_erase weight found
  omega

/-- Two entries weigh no more than all together. -/
theorem add_le_total (weight : K × V → ℕ) (found : map.find key = some value)
    (found' : map.find other = some value') (differ : key ≠ other) :
    weight (key, value) + weight (other, value') ≤ map.total weight := by
  have split := total_erase weight found
  have rest : (map.erase key).find other = some value' := by rw [find_erase_of_ne map differ, found']
  have bound := le_total weight rest
  omega

theorem exists_of_total_pos (weight : K × V → ℕ) (positive : 0 < map.total weight) :
    ∃ key value, map.find key = some value ∧ 0 < weight (key, value) := by
  by_contra none
  have zero : map.total weight = 0 := by
    refine List.sum_eq_zero fun n listed => ?_
    obtain ⟨⟨key, value⟩, entry, rfl⟩ := List.mem_map.mp listed
    by_contra some
    exact none ⟨key, value, mem_entries_iff.mp entry, Nat.pos_of_ne_zero some⟩
  omega

/-- Entries kept and entries left out weigh what all of them do. -/
theorem total_filter_add (weight : K × V → ℕ) (keep : K × V → Bool) (map : SortedMap K V) :
    (map.filter keep).total weight + ((map.entries.filter fun entry => !keep entry).map weight).sum =
      map.total weight := by
  unfold total filter
  dsimp only
  induction map.entries with
  | nil => rfl
  | cons entry rest ih =>
    rw [List.filter_cons, List.filter_cons]
    cases keep entry <;> simp <;> omega

end SortedMap

namespace Spans

/-- One for an address in the span, and nothing for any other. -/
def within (start length address : ℕ) : ℕ :=
  if start ≤ address ∧ address < start + length then 1 else 0

theorem within_eq_one (inside : start ≤ address ∧ address < start + length) :
    within start length address = 1 := if_pos inside

theorem within_eq_zero (outside : ¬ (start ≤ address ∧ address < start + length)) :
    within start length address = 0 := if_neg outside

theorem within_pos : 0 < within start length address ↔ start ≤ address ∧ address < start + length := by
  unfold within
  split <;> simp_all

/-- A span is cut in two anywhere. -/
theorem within_add (start front back address : ℕ) :
    within start (front + back) address = within start front address + within (start + front) back address := by
  unfold within
  split <;> split <;> split <;> omega

/-- Spans that never cover an address together lie apart. -/
theorem apart_of_single (single : ∀ address, within start length address + within start' length' address ≤ 1)
    (solid : 0 < length) (solid' : 0 < length') : start + length ≤ start' ∨ start' + length' ≤ start := by
  by_contra meet
  have both := single (max start start')
  rw [within_eq_one (by omega), within_eq_one (by omega)] at both
  omega

end Spans

end Fsyncer
