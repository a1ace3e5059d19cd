import Mathlib.Data.List.Sort
import Mathlib.Order.Basic

/-! Finite maps as association lists in strictly increasing key order: what a
B-tree map is to its users. The order makes the list a function of the lookups,
so maps with the same lookups are equal. -/
namespace Fsyncer

namespace SortedMap

variable {K V W : Type} [LinearOrder K]

/-- Entries with strictly increasing keys. -/
def Increasing (entries : List (K × V)) : Prop := entries.Pairwise fun a b => a.1 < b.1

/-- The value of the first entry with the key. -/
def findIn (key : K) : List (K × V) → Option V
  | [] => none
  | (other, value) :: rest => if other = key then some value else findIn key rest

def insertIn (key : K) (value : V) : List (K × V) → List (K × V)
  | [] => [(key, value)]
  | (other, old) :: rest =>
    if key < other then (key, value) :: (other, old) :: rest
    else if key = other then (key, value) :: rest
    else (other, old) :: insertIn key value rest

theorem mem_of_findIn {entries : List (K × V)} (found : findIn key entries = some value) :
    (key, value) ∈ entries := by
  induction entries with
  | nil => cases found
  | cons entry rest ih =>
    obtain ⟨other, old⟩ := entry
    rw [findIn] at found
    split at found
    · next same =>
      cases found
      rw [same]
      exact List.mem_cons_self
    · exact List.mem_cons_of_mem _ (ih found)

theorem findIn_of_lt {entries : List (K × V)} (above : ∀ entry ∈ entries, key < entry.1) :
    findIn key entries = none := by
  cases found : findIn key entries with
  | none => rfl
  | some value => exact absurd (above _ (mem_of_findIn found)) (lt_irrefl _)

theorem findIn_of_mem {entries : List (K × V)} (sorted : Increasing entries)
    (found : (key, value) ∈ entries) : findIn key entries = some value := by
  induction entries with
  | nil => cases found
  | cons entry rest ih =>
    obtain ⟨below, rest_sorted⟩ := List.pairwise_cons.mp sorted
    rcases List.mem_cons.mp found with rfl | later
    · rw [findIn, if_pos rfl]
    · obtain ⟨other, old⟩ := entry
      have lower : other < key := below (key, value) later
      rw [findIn, if_neg lower.ne]
      exact ih rest_sorted later

theorem mem_insertIn {entries : List (K × V)} (found : entry ∈ insertIn key value entries) :
    entry = (key, value) ∨ entry ∈ entries := by
  induction entries with
  | nil => exact Or.inl (List.mem_singleton.mp found)
  | cons head rest ih =>
    obtain ⟨other, old⟩ := head
    rw [insertIn] at found
    split at found
    · exact List.mem_cons.mp found
    · split at found
      · rcases List.mem_cons.mp found with here | found
        · exact Or.inl here
        · exact Or.inr (List.mem_cons_of_mem _ found)
      · rcases List.mem_cons.mp found with here | found
        · exact Or.inr (here ▸ List.mem_cons_self)
        · rcases ih found with here | found
          · exact Or.inl here
          · exact Or.inr (List.mem_cons_of_mem _ found)

theorem increasing_insertIn {entries : List (K × V)} (sorted : Increasing entries) :
    Increasing (insertIn key value entries) := by
  induction entries with
  | nil => exact List.pairwise_singleton _ _
  | cons head rest ih =>
    obtain ⟨other, old⟩ := head
    obtain ⟨below, rest_sorted⟩ := List.pairwise_cons.mp sorted
    rw [insertIn]
    split
    · next first =>
      refine List.pairwise_cons.mpr ⟨fun entry found => ?_, sorted⟩
      rcases List.mem_cons.mp found with rfl | found
      · exact first
      · exact first.trans (below entry found)
    · next not_first =>
      split
      · next same =>
        subst same
        exact List.pairwise_cons.mpr ⟨below, rest_sorted⟩
      · next differ =>
        refine List.pairwise_cons.mpr ⟨fun entry found => ?_, ih rest_sorted⟩
        rcases mem_insertIn found with rfl | found
        · exact lt_of_le_of_ne (not_lt.mp not_first) (Ne.symm differ)
        · exact below entry found

theorem findIn_insertIn (key other : K) (value : V) (entries : List (K × V)) :
    findIn other (insertIn key value entries) = if key = other then some value else findIn other entries := by
  induction entries with
  | nil => rfl
  | cons head rest ih =>
    obtain ⟨first, old⟩ := head
    rw [insertIn]
    split
    · rfl
    · split
      · next same =>
        subst same
        rw [findIn, findIn]
        split <;> rfl
      · next differ =>
        rw [findIn, findIn, ih]
        split
        · next here =>
          rw [if_neg fun same => differ (same.trans here.symm)]
        · rfl

theorem findIn_filter {entries : List (K × V)} (sorted : Increasing entries) (key : K)
    (keep : K × V → Bool) :
    findIn key (entries.filter keep) = (findIn key entries).filter fun value => keep (key, value) := by
  induction entries with
  | nil => rfl
  | cons head rest ih =>
    obtain ⟨other, old⟩ := head
    obtain ⟨below, rest_sorted⟩ := List.pairwise_cons.mp sorted
    rw [findIn, List.filter_cons]
    by_cases here : other = key
    · subst here
      rw [if_pos rfl]
      cases kept : keep (other, old) with
      | true => simp [findIn, Option.filter, kept]
      | false =>
        have above : findIn other (rest.filter keep) = none :=
          findIn_of_lt fun entry found => below entry (List.mem_filter.mp found).1
        simp [above, Option.filter, kept]
    · rw [if_neg here]
      split
      · rw [findIn, if_neg here, ih rest_sorted]
      · exact ih rest_sorted

/-- Lists in order are determined by what is found in them. -/
theorem eq_of_findIn_eq {first second : List (K × V)} (sorted : Increasing first)
    (sorted' : Increasing second) (same : ∀ key, findIn key first = findIn key second) :
    first = second := by
  have subset {left right : List (K × V)} (sorted : Increasing left)
      (agree : ∀ key, findIn key left = findIn key right) : left ⊆ right := by
    intro entry found
    exact mem_of_findIn ((agree entry.1).symm.trans (findIn_of_mem sorted found))
  have distinct {entries : List (K × V)} (sorted : Increasing entries) : entries.Nodup :=
    sorted.imp fun lower same => absurd (same ▸ lower) (lt_irrefl _)
  refine List.Perm.eq_of_pairwise (fun a b _ _ ab ba => absurd (lt_trans ab ba) (lt_irrefl _))
    sorted sorted' ?_
  exact (List.subperm_of_subset (distinct sorted) (subset sorted same)).antisymm
    (List.subperm_of_subset (distinct sorted') (subset sorted' fun key => (same key).symm))

end SortedMap

/-- A finite map from `K` to `V`. -/
structure SortedMap (K V : Type) [LinearOrder K] where
  entries : List (K × V)
  sorted : SortedMap.Increasing entries

namespace SortedMap

variable {K V W : Type} [LinearOrder K]

def empty : SortedMap K V := ⟨[], List.Pairwise.nil⟩

def find (map : SortedMap K V) (key : K) : Option V := findIn key map.entries

def insert (map : SortedMap K V) (key : K) (value : V) : SortedMap K V :=
  ⟨insertIn key value map.entries, increasing_insertIn map.sorted⟩

/-- The entries that satisfy `keep`. -/
def filter (map : SortedMap K V) (keep : K × V → Bool) : SortedMap K V :=
  ⟨map.entries.filter keep, map.sorted.filter _⟩

def erase (map : SortedMap K V) (key : K) : SortedMap K V := map.filter fun entry => entry.1 ≠ key

variable {map : SortedMap K V}

@[simp] theorem find_empty (key : K) : (empty : SortedMap K V).find key = none := rfl

theorem find_insert (map : SortedMap K V) (key other : K) (value : V) [Decidable (key = other)] :
    (map.insert key value).find other = if key = other then some value else map.find other :=
  (findIn_insertIn key other value map.entries).trans (by congr)

@[simp] theorem find_insert_self (map : SortedMap K V) (key : K) (value : V) :
    (map.insert key value).find key = some value := by
  rw [find_insert, if_pos rfl]

theorem find_insert_of_ne (map : SortedMap K V) (differ : key ≠ other) (value : V) :
    (map.insert key value).find other = map.find other := by
  rw [find_insert, if_neg differ]

theorem find_filter (map : SortedMap K V) (keep : K × V → Bool) (key : K) :
    (map.filter keep).find key = (map.find key).filter fun value => keep (key, value) :=
  findIn_filter map.sorted key keep

theorem find_erase (map : SortedMap K V) (key other : K) [Decidable (key = other)] :
    (map.erase key).find other = if key = other then none else map.find other := by
  rw [erase, find_filter]
  split
  · next same => cases map.find other <;> simp [same]
  · next differ => cases map.find other <;> simp [Ne.symm differ]

@[simp] theorem find_erase_self (map : SortedMap K V) (key : K) : (map.erase key).find key = none := by
  rw [find_erase, if_pos rfl]

theorem find_erase_of_ne (map : SortedMap K V) (differ : key ≠ other) :
    (map.erase key).find other = map.find other := by
  rw [find_erase, if_neg differ]

theorem mem_entries_iff : (key, value) ∈ map.entries ↔ map.find key = some value :=
  ⟨findIn_of_mem map.sorted, mem_of_findIn⟩

@[ext] theorem ext {first second : SortedMap K V}
    (same : ∀ key, first.find key = second.find key) : first = second := by
  obtain ⟨entries, sorted⟩ := first
  obtain ⟨entries', sorted'⟩ := second
  obtain rfl := eq_of_findIn_eq sorted sorted' same
  rfl

theorem insert_erase (found : map.find key = some value) : (map.erase key).insert key value = map := by
  ext1 other
  rw [find_insert, find_erase]
  split
  · next same => rw [← same, found]
  · rfl

theorem erase_insert (absent : map.find key = none) : (map.insert key value).erase key = map := by
  ext1 other
  rw [find_erase, find_insert]
  split
  · next same => rw [← same, absent]
  · rfl

theorem insert_insert (map : SortedMap K V) (key : K) (first second : V) :
    (map.insert key first).insert key second = map.insert key second := by
  ext1 other
  simp only [find_insert]
  split <;> rfl

theorem insert_find (found : map.find key = some value) : map.insert key value = map := by
  ext1 other
  rw [find_insert]
  split
  · next same => rw [← same, found]
  · rfl

theorem perm_insertIn {entries : List (K × V)} (absent : findIn key entries = none) :
    (insertIn key value entries).Perm ((key, value) :: entries) := by
  induction entries with
  | nil => exact List.Perm.refl _
  | cons head rest ih =>
    obtain ⟨other, old⟩ := head
    rw [findIn] at absent
    split at absent
    · cases absent
    · next differ =>
      rw [insertIn]
      split
      · exact List.Perm.refl _
      · rw [if_neg (Ne.symm differ)]
        exact ((ih absent).cons _).trans (List.Perm.swap ..)

/-- A new key adds one entry. -/
theorem perm_insert (absent : map.find key = none) :
    (map.insert key value).entries.Perm ((key, value) :: map.entries) := perm_insertIn absent

/-- No key is above that of the last entry. -/
theorem le_last (last : map.entries.getLast? = some entry) (found : map.find key = some value) :
    key ≤ entry.1 := by
  obtain ⟨front, split⟩ := List.getLast?_eq_some_iff.mp last
  have listed := mem_entries_iff.mpr found
  have sorted := map.sorted
  rw [split] at listed sorted
  rcases List.mem_append.mp listed with before | here
  · exact ((List.pairwise_append.mp sorted).2.2 _ before entry List.mem_cons_self).le
  · rw [← List.mem_singleton.mp here]

/-- The entries inserted one after another under new keys. -/
def rekeyed (f : K → K) : List (K × V) → SortedMap K V
  | [] => empty
  | (key, value) :: rest => (rekeyed f rest).insert (f key) value

def mapKeys (map : SortedMap K V) (f : K → K) : SortedMap K V := rekeyed f map.entries

private theorem find_rekeyed {f : K → K} {entries : List (K × V)} (sorted : Increasing entries)
    (injective : ∀ a ∈ entries, ∀ b ∈ entries, f a.1 = f b.1 → a.1 = b.1) :
    (rekeyed f entries).find key = some value ↔ ∃ old, f old = key ∧ (old, value) ∈ entries := by
  induction entries with
  | nil => simp [rekeyed]
  | cons entry rest ih =>
    obtain ⟨first, held⟩ := entry
    obtain ⟨below, rest_sorted⟩ := List.pairwise_cons.mp sorted
    have ih := ih rest_sorted fun a inA b inB =>
      injective a (List.mem_cons_of_mem _ inA) b (List.mem_cons_of_mem _ inB)
    rw [rekeyed, find_insert]
    split
    · next here =>
      constructor
      · intro same
        cases same
        exact ⟨first, here, List.mem_cons_self⟩
      · rintro ⟨old, moved, found⟩
        rcases List.mem_cons.mp found with same | later
        · cases same; rfl
        · have equal : first = old := injective (first, held) List.mem_cons_self (old, value)
            (List.mem_cons_of_mem _ later) (here.trans moved.symm)
          have lower : first < old := below (old, value) later
          exact absurd equal lower.ne
    · next elsewhere =>
      rw [ih]
      constructor
      · rintro ⟨old, moved, found⟩
        exact ⟨old, moved, List.mem_cons_of_mem _ found⟩
      · rintro ⟨old, moved, found⟩
        rcases List.mem_cons.mp found with same | later
        · cases same; exact absurd moved elsewhere
        · exact ⟨old, moved, later⟩

theorem find_mapKeys {f : K → K} (injective : ∀ a b, (map.find a).isSome → (map.find b).isSome →
    f a = f b → a = b) :
    (map.mapKeys f).find key = some value ↔ ∃ old, f old = key ∧ map.find old = some value := by
  rw [mapKeys, find_rekeyed map.sorted]
  · simp only [mem_entries_iff]
  · rintro ⟨a, left⟩ inA ⟨b, right⟩ inB same
    exact injective a b (Option.isSome_of_mem (mem_entries_iff.mp inA))
      (Option.isSome_of_mem (mem_entries_iff.mp inB)) same

end SortedMap

end Fsyncer
