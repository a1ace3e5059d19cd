import Fsyncer.Base.Spans
import Fsyncer.SnapshotExtents

/-! The free list of a snapshot as a set of addresses. `allocate` takes a span
out of it and `deallocate` puts one back, joined with the free regions that
touch it, so the list stays coalesced; a block given back at once leaves the
list as it was. -/
namespace Fsyncer.SnapshotSpace
open Fsyncer.ByteFile (Failure offMax)
open Fsyncer.Machine Fsyncer.Spans Fsyncer.SnapshotExtents Fsyncer.SnapshotStore

/-! ### Coalesced lists -/

/-- Free regions of 64-bit locations and sizes that are not empty and do not
touch. -/
structure Coalesced (freeList : FreeList) : Prop where
  region : ∀ key size, freeList.find key = some size → key < 2 ^ 64 ∧ 0 < size ∧ size < 2 ^ 64
  gap : ∀ key size key' size', freeList.find key = some size → freeList.find key' = some size' →
    key < key' → key + size < key'

theorem Coalesced.erase (coalesced : Coalesced freeList) (key : ℕ) : Coalesced (freeList.erase key) := by
  have kept (other size) (found : (freeList.erase key).find other = some size) :
      freeList.find other = some size := by
    rw [SortedMap.find_erase] at found
    split at found
    · cases found
    · exact found
  exact ⟨fun other size found => coalesced.region other size (kept _ _ found),
    fun _ _ _ _ found found' => coalesced.gap _ _ _ _ (kept _ _ found) (kept _ _ found')⟩

/-- A region can be added that touches none of the others. -/
theorem Coalesced.insert (coalesced : Coalesced freeList) (small : key < 2 ^ 64) (solid : 0 < size)
    (bounded : size < 2 ^ 64) (apart : ∀ other held, freeList.find other = some held →
      other + held < key ∨ key + size < other) : Coalesced (freeList.insert key size) := by
  refine ⟨fun other held found => ?_, fun first held second held' found found' order => ?_⟩
  · rw [SortedMap.find_insert] at found
    split at found
    · next same => cases found; exact same ▸ ⟨small, solid, bounded⟩
    · exact coalesced.region other held found
  · rw [SortedMap.find_insert] at found found'
    split at found
    · next same =>
      cases found
      rw [if_neg (by omega)] at found'
      have := apart second held' found'
      omega
    · split at found'
      · next same =>
        cases found'
        have := apart first held found
        omega
      · exact coalesced.gap _ _ _ _ found found' order

theorem entryBelow_le (below : entryBelow freeList offset = some (location, size))
    (found : freeList.find key = some held) (lower : key < offset) : key ≤ location := by
  have listed : (freeList.filter fun entry => entry.1 < offset).find key = some held := by
    rw [SortedMap.find_filter, found]
    simp [lower]
  exact SortedMap.le_last below listed

theorem entryBelow_none (below : entryBelow freeList offset = none) (found : freeList.find key = some held) :
    offset ≤ key := by
  by_contra lower
  have listed : (freeList.filter fun entry => entry.1 < offset).find key = some held := by
    rw [SortedMap.find_filter, found]
    simp [Nat.lt_of_not_le lower]
  rw [entryBelow, List.getLast?_eq_none_iff] at below
  have listed := SortedMap.mem_entries_iff.mpr listed
  rw [below] at listed
  cases listed

/-! ### A block given back at once -/

/-- The entry that an allocation is to come from: the hinted one if it is large
enough, otherwise the lowest one that is. -/
structure Suits (freeList : FreeList) (size : ℕ) (hint : Option ℕ) (entry : ℕ × ℕ) : Prop where
  listed : freeList.find entry.1 = some entry.2
  large : size ≤ entry.2
  hinted : ∀ start held, hint = some start → freeList.find start = some held → size ≤ held → entry.1 = start
  lowest : (∀ start held, hint = some start → freeList.find start = some held → held < size) →
    ∀ lower held, freeList.find lower = some held → size ≤ held → entry.1 ≤ lower

theorem Suits.unique (first : Suits freeList size hint entry) (second : Suits freeList size hint entry') :
    entry = entry' := by
  have location : entry.1 = entry'.1 := by
    by_cases fits : ∃ start held, hint = some start ∧ freeList.find start = some held ∧ size ≤ held
    · obtain ⟨start, held, hinted, found, large⟩ := fits
      rw [first.hinted start held hinted found large, second.hinted start held hinted found large]
    · have unfit (start held) (hinted : hint = some start) (found : freeList.find start = some held) :
          held < size := by
        by_contra large
        exact fits ⟨start, held, hinted, found, Nat.le_of_not_lt large⟩
      exact Nat.le_antisymm (first.lowest unfit _ _ second.listed second.large)
        (second.lowest unfit _ _ first.listed first.large)
  have size : some entry.2 = some entry'.2 := by rw [← first.listed, ← second.listed, location]
  exact Prod.ext location (Option.some.inj size)

theorem suits_of_findSpace (found : findSpace freeList size hint = some entry) :
    Suits freeList size hint entry := by
  obtain ⟨listed, large⟩ := find_of_findSpace found
  refine ⟨listed, large, ?_, ?_⟩
  · rintro start held rfl there enough
    rw [findSpace, Option.bind_some, there, Option.filter_some, if_pos (decide_eq_true enough)] at found
    cases found
    rfl
  · intro unfit lower held there enough
    have none : (hint.bind fun hint => ((freeList.find hint).filter fun entrySize => size ≤ entrySize).map
        fun entrySize => (hint, entrySize)) = none := by
      cases hint with
      | none => rfl
      | some start =>
        cases there : freeList.find start with
        | none => simp [there]
        | some held =>
          have := unfit start held rfl there
          simp [there, this]
    rw [findSpace, none, Option.none_or] at found
    obtain ⟨-, front, rest, split, skipped⟩ := List.find?_eq_some_iff_append.mp found
    have listed := SortedMap.mem_entries_iff.mpr there
    have sorted := freeList.sorted
    rw [split] at listed sorted
    rcases List.mem_append.mp listed with before | after
    · have := skipped _ before
      simp at this
      omega
    · rcases List.mem_cons.mp after with rfl | after
      · exact Nat.le_refl _
      · exact ((List.pairwise_cons.mp (List.pairwise_append.mp sorted).2.1).1 _ after).le

theorem findSpace_of_room (listed : freeList.find key = some held) (large : size ≤ held) (hint : Option ℕ) :
    ∃ entry, findSpace freeList size hint = some entry := by
  have some : (freeList.entries.find? fun entry => size ≤ entry.2).isSome := by
    rw [List.find?_isSome]
    exact ⟨(key, held), SortedMap.mem_entries_iff.mpr listed, decide_eq_true large⟩
  obtain ⟨entry, found⟩ := Option.isSome_iff_exists.mp some
  unfold findSpace
  rw [found]
  cases hint.bind fun hint => ((freeList.find hint).filter fun entrySize => size ≤ entrySize).map
      fun entrySize => (hint, entrySize) with
  | none => exact ⟨entry, rfl⟩
  | some hinted => exact ⟨hinted, rfl⟩

/-- What `allocate` leaves of the free list when it takes `size` bytes from an
entry. -/
def remainder (freeList : FreeList) (location entrySize size : ℕ) : FreeList :=
  if size < entrySize
  then (freeList.erase location).insert (u64 (location + size)) (entrySize - size)
  else freeList.erase location

section Rollback
variable {freeList : FreeList} {location entrySize size : ℕ}

/-- The end of a span shorter than the address space is not its start. -/
theorem u64_add_ne (positive : 0 < size) (bounded : size < 2 ^ 64) : u64 (location + size) ≠ location := by
  unfold u64
  omega

/-- Nothing that allocation leaves ends where the block starts. -/
theorem joinBelow_remainder (coalesced : Coalesced freeList) (found : freeList.find location = some entrySize)
    (positive : 0 < size) :
    joinBelow (remainder freeList location entrySize size) ⟨location, size⟩ =
      (remainder freeList location entrySize size, ⟨location, size⟩) := by
  unfold joinBelow
  split
  · next key held below =>
    obtain ⟨listed, lower⟩ := find_of_entryBelow below
    have lower : key < location := lower
    refine if_neg ?_
    obtain ⟨small, -, bounded⟩ := coalesced.region location entrySize found
    have kept (other : (freeList.erase location).find key = some held) : u64 (key + held) ≠ location := by
      rw [SortedMap.find_erase_of_ne _ (by omega)] at other
      have apart := coalesced.gap _ _ _ _ other found lower
      rw [u64_of_lt (by omega)]
      omega
    unfold remainder at listed
    split at listed
    · rw [SortedMap.find_insert] at listed
      split at listed
      · next wrapped =>
        -- the remainder starts below the block only if its location has wrapped
        cases listed
        show u64 (key + (entrySize - size)) ≠ location
        unfold u64 at wrapped ⊢
        omega
      · exact kept listed
    · exact kept listed
  · rfl

theorem joinAbove_some (found : freeList.find (u64 (location + size)) = some held) :
    joinAbove freeList ⟨location, size⟩ =
      (freeList.erase (u64 (location + size)), ⟨location, u64 (size + held)⟩) := by
  unfold joinAbove
  dsimp only
  rw [found]

theorem joinAbove_none (absent : freeList.find (u64 (location + size)) = none) :
    joinAbove freeList ⟨location, size⟩ = (freeList, ⟨location, size⟩) := by
  unfold joinAbove
  dsimp only
  rw [absent]

/-- A block is given back to where it came from exactly if no other region
starts where the block ends, as 64-bit locations. -/
theorem deallocate_remainder_iff (coalesced : Coalesced freeList)
    (found : freeList.find location = some entrySize) (positive : 0 < size) (large : size ≤ entrySize) :
    deallocate (remainder freeList location entrySize size) ⟨location, size⟩ = freeList ↔
      freeList.find (u64 (location + size)) = none := by
  obtain ⟨-, -, bounded⟩ := coalesced.region location entrySize found
  have differ : location ≠ u64 (location + size) := (u64_add_ne positive (by omega)).symm
  have back : (freeList.erase location).insert location entrySize = freeList := SortedMap.insert_erase found
  -- a region at the end of the block is lost, whatever becomes of the block
  have lost {list : FreeList} {whole : ℕ} (missing : list.find (u64 (location + size)) = none)
      (same : list.insert location whole = freeList) : freeList.find (u64 (location + size)) = none := by
    rw [← same, SortedMap.find_insert_of_ne _ differ, missing]
  unfold deallocate
  rw [joinBelow_remainder coalesced found positive]
  dsimp only
  unfold remainder
  by_cases part : size < entrySize
  · rw [if_pos part, joinAbove_some (SortedMap.find_insert_self _ _ _)]
    dsimp only
    have whole : u64 (size + (entrySize - size)) = entrySize := by
      rw [Nat.add_sub_cancel' large]
      exact u64_of_lt bounded
    rw [whole]
    constructor
    · exact lost (SortedMap.find_erase_self _ _)
    · intro absent
      rw [SortedMap.erase_insert (by rw [SortedMap.find_erase_of_ne _ differ, absent]), back]
  · rw [if_neg part]
    obtain rfl : size = entrySize := by omega
    have kept := SortedMap.find_erase_of_ne freeList differ
    cases above : freeList.find (u64 (location + size)) with
    | none => rw [joinAbove_none (kept.trans above)]; exact ⟨fun _ => rfl, fun _ => back⟩
    | some held =>
      rw [joinAbove_some (kept.trans above)]
      refine ⟨fun same => ?_, fun absent => by cases absent⟩
      rw [← above]
      exact lost (SortedMap.find_erase_self _ _) same

end Rollback

/-- How many free regions an address lies in. -/
def freeAt (freeList : FreeList) (address : ℕ) : ℕ := freeList.total fun entry => within entry.1 entry.2 address

theorem le_freeAt {freeList : FreeList} (found : freeList.find key = some size) (address : ℕ) :
    within key size address ≤ freeAt freeList address :=
  SortedMap.le_total (fun entry => within entry.1 entry.2 address) found

/-- Whether the address lies in the block. -/
def blockAt (block : Block) (address : ℕ) : ℕ := within block.location block.size address

/-- Free regions end at or before `top`, and none has a byte right below `low`:
what lies behind `low` is never joined with what lies before it. -/
def Bounded (low top : ℕ) (freeList : FreeList) : Prop :=
  ∀ key size, freeList.find key = some size → (key + size < low ∨ low ≤ key) ∧ key + size ≤ top

/-- A block that can be given back: it lies apart from the free regions, on one
side of `low`, and what is joined keeps to 64 bits. -/
structure Loose (low top : ℕ) (freeList : FreeList) (block : Block) : Prop where
  coalesced : Coalesced freeList
  bounded : Bounded low top freeList
  apart : ∀ key size, freeList.find key = some size →
    key + size ≤ block.location ∨ block.location + block.size ≤ key
  solid : 0 < block.size
  small : block.location < 2 ^ 64
  side : block.location + block.size < low ∨ low ≤ block.location
  inside : block.location + block.size ≤ top
  narrow : low ≤ 2 ^ 64 ∧ top < low + 2 ^ 64

theorem Bounded.erase (bounded : Bounded low top freeList) (key : ℕ) : Bounded low top (freeList.erase key) := by
  intro other size found
  rw [SortedMap.find_erase] at found
  split at found
  · cases found
  · exact bounded other size found

theorem Bounded.insert (bounded : Bounded low top freeList) (side : key + size < low ∨ low ≤ key)
    (inside : key + size ≤ top) : Bounded low top (freeList.insert key size) := by
  intro other held found
  rw [SortedMap.find_insert] at found
  split at found
  · next same => cases found; exact same ▸ ⟨side, inside⟩
  · exact bounded other held found

theorem Loose.size_lt (loose : Loose low top freeList block) : block.size < 2 ^ 64 := by
  have := loose.side
  have := loose.inside
  have := loose.narrow
  omega

/-- A region that touches the block can be taken out and joined with it. -/
theorem Loose.join (loose : Loose low top freeList block) (found : freeList.find key = some held)
    (start : location = min key block.location) (joined : size = block.size + held)
    (touches : key + held = block.location ∨ block.location + block.size = key) :
    Loose low top (freeList.erase key) ⟨location, size⟩ ∧ ∀ address,
      freeAt (freeList.erase key) address + within location size address =
        freeAt freeList address + within block.location block.size address := by
  obtain ⟨small, solid, -⟩ := loose.coalesced.region key held found
  have here := loose.bounded key held found
  have := loose.small
  have := loose.side
  have := loose.inside
  refine ⟨⟨loose.coalesced.erase key, loose.bounded.erase key, fun other size' listed => ?_, ?_, ?_, ?_, ?_,
    loose.narrow⟩, fun address => ?_⟩
  · have differ : key ≠ other := by
      rintro rfl
      rw [SortedMap.find_erase_self] at listed
      cases listed
    rw [SortedMap.find_erase_of_ne _ differ] at listed
    have clear := loose.apart other size' listed
    show other + size' ≤ location ∨ location + size ≤ other
    rcases Nat.lt_or_gt_of_ne differ with above | below
    · have := loose.coalesced.gap _ _ _ _ found listed above
      omega
    · have := loose.coalesced.gap _ _ _ _ listed found below
      omega
  · show 0 < size; omega
  · show location < 2 ^ 64; omega
  · show location + size < low ∨ low ≤ location; omega
  · show location + size ≤ top; omega
  · have taken : freeAt (freeList.erase key) address + within key held address = freeAt freeList address :=
      SortedMap.total_erase _ found
    rcases touches with below | above
    · have whole := within_add key held block.size address
      rw [below, Nat.add_comm held, ← joined] at whole
      obtain rfl : location = key := by omega
      omega
    · have whole := within_add block.location block.size held address
      rw [above, ← joined] at whole
      obtain rfl : location = block.location := by omega
      omega

/-- After the region below has been joined, none is left that touches the block
from there. -/
theorem Loose.joinBelow (loose : Loose low top freeList block) :
    Loose low top (joinBelow freeList block).1 (joinBelow freeList block).2 ∧
      (joinBelow freeList block).2.location + (joinBelow freeList block).2.size = block.location + block.size ∧
      (∀ key size, (joinBelow freeList block).1.find key = some size →
        key + size ≠ (joinBelow freeList block).2.location) ∧
      ∀ address, freeAt (joinBelow freeList block).1 address + blockAt (joinBelow freeList block).2 address =
        freeAt freeList address + blockAt block address := by
  have exact (key held) (found : freeList.find key = some held) (lower : key < block.location) :
      key + held ≤ block.location := by
    have := loose.apart key held found
    omega
  have := loose.small
  have := loose.size_lt
  unfold SnapshotStore.joinBelow
  split
  · next key held below =>
    obtain ⟨found, lower⟩ := find_of_entryBelow below
    have ends := exact key held found lower
    obtain ⟨-, solid, bounded⟩ := loose.coalesced.region key held found
    rw [u64_of_lt (by omega)]
    split
    · next touches =>
      have side := loose.bounded key held found
      have := loose.side
      have := loose.inside
      have := loose.narrow
      have joined : u64 (block.size + held) = block.size + held := u64_of_lt (by omega)
      obtain ⟨loose', covers⟩ := loose.join found (show key = min key block.location by omega) joined (Or.inl touches)
      refine ⟨loose', by dsimp only; omega, fun other size listed => ?_, covers⟩
      have differ : key ≠ other := by
        rintro rfl
        rw [SortedMap.find_erase_self] at listed
        cases listed
      rw [SortedMap.find_erase_of_ne _ differ] at listed
      show other + size ≠ key
      intro touches'
      have positive := (loose.coalesced.region other size listed).2.1
      have := loose.coalesced.gap _ _ _ _ listed found (by omega)
      omega
    · next differ =>
      refine ⟨loose, rfl, fun other size listed touches => ?_, fun _ => rfl⟩
      have positive := (loose.coalesced.region other size listed).2.1
      have lower' : other < block.location := by dsimp only at touches; omega
      have least := entryBelow_le below listed lower'
      rcases Nat.eq_or_lt_of_le least with rfl | under
      · cases found.symm.trans listed
        exact differ touches
      · have := loose.coalesced.gap _ _ _ _ listed found under
        dsimp only at touches
        omega
  · next below =>
    refine ⟨loose, rfl, fun other size listed touches => ?_, fun _ => rfl⟩
    have positive := (loose.coalesced.region other size listed).2.1
    have := entryBelow_none below listed
    dsimp only at touches
    omega

/-- A block given back keeps the list coalesced and adds its addresses. -/
theorem Loose.deallocate (loose : Loose low top freeList block)
    (ends : block.location + block.size < 2 ^ 64) :
    Coalesced (deallocate freeList block) ∧ Bounded low top (deallocate freeList block) ∧
      ∀ address, freeAt (deallocate freeList block) address = freeAt freeList address + blockAt block address := by
  obtain ⟨loose₁, ends₁, clear₁, covers₁⟩ := loose.joinBelow
  unfold SnapshotStore.deallocate
  generalize SnapshotStore.joinBelow freeList block = joined at *
  obtain ⟨list, location, size⟩ := joined
  dsimp only at *
  rw [← ends₁] at ends
  have insert (list' : FreeList) (size' : ℕ) (loose' : Loose low top list' ⟨location, size'⟩)
      (kept : ∀ key held, list'.find key = some held → list.find key = some held)
      (clear : ∀ key held, list'.find key = some held → location + size' ≠ key)
      (covers : ∀ address, freeAt list' address + within location size' address =
        freeAt freeList address + blockAt block address) :
      Coalesced (list'.insert location size') ∧ Bounded low top (list'.insert location size') ∧
        ∀ address, freeAt (list'.insert location size') address =
          freeAt freeList address + blockAt block address := by
    refine ⟨loose'.coalesced.insert loose'.small loose'.solid loose'.size_lt fun other held found => ?_,
      loose'.bounded.insert loose'.side loose'.inside, fun address => ?_⟩
    · have apart := loose'.apart other held found
      have below := clear₁ other held (kept other held found)
      have above := clear other held found
      dsimp only at apart
      omega
    · rw [← covers address]
      refine SortedMap.total_insert _ ?_ _
      cases found : list'.find location with
      | none => rfl
      | some held =>
        have apart := loose'.apart location held found
        have solid := loose'.solid
        have solid' := (loose'.coalesced.region location held found).2.1
        dsimp only at apart solid
        omega
  cases above : list.find (u64 (location + size)) with
  | none =>
    rw [joinAbove_none above]
    refine insert list size loose₁ (fun _ _ found => found) (fun key held found touches => ?_) covers₁
    rw [u64_of_lt ends, touches, found] at above
    cases above
  | some held =>
    rw [joinAbove_some above]
    rw [u64_of_lt ends] at above ⊢
    have side := loose₁.side
    have inside := loose₁.inside
    have narrow := loose₁.narrow
    have region := loose₁.bounded _ _ above
    dsimp only at side inside
    have joined : u64 (size + held) = size + held := u64_of_lt (by omega)
    obtain ⟨loose₂, covers₂⟩ := loose₁.join above (show location = min (location + size) location by omega) joined (Or.inr rfl)
    have kept (key held') (found : (list.erase (location + size)).find key = some held') :
        location + size ≠ key ∧ list.find key = some held' := by
      rw [SortedMap.find_erase] at found
      split at found
      · cases found
      · next differ => exact ⟨differ, found⟩
    refine insert _ _ loose₂ (fun key held found => (kept key held found).2) (fun key held' found touches => ?_)
      fun address => (covers₂ address).trans (covers₁ address)
    obtain ⟨-, found⟩ := kept key held' found
    dsimp only at touches
    have solid := (loose₁.coalesced.region _ _ above).2.1
    have := loose₁.coalesced.gap _ _ _ _ above found (by omega)
    omega

/-- An allocation that ends within 64 bits takes the addresses of the block out
of the list. -/
theorem Coalesced.allocate (coalesced : Coalesced freeList) (bounded : Bounded low top freeList)
    (allocated : allocate freeList size hint = .ok (block, after)) (positive : 0 < size)
    (ends : block.location + size < 2 ^ 64) :
    Coalesced after ∧ Bounded low top after ∧
      ∀ address, freeAt after address + blockAt block address = freeAt freeList address := by
  obtain ⟨entrySize, found, rfl, rfl⟩ := allocate_ok allocated
  obtain ⟨listed, large⟩ := find_of_findSpace found
  obtain ⟨small, -, short⟩ := coalesced.region _ _ listed
  have taken (address : ℕ) : freeAt (freeList.erase block.location) address +
      within block.location entrySize address = freeAt freeList address := SortedMap.total_erase _ listed
  split
  · next part =>
    rw [u64_of_lt ends]
    have apart (other held) (rest : (freeList.erase block.location).find other = some held) :
        other + held < block.location + block.size ∨
          block.location + block.size + (entrySize - block.size) < other := by
      rw [SortedMap.find_erase] at rest
      split at rest
      · cases rest
      · next differ =>
        rcases Nat.lt_or_gt_of_ne differ with above | below
        · have := coalesced.gap _ _ _ _ listed rest above
          omega
        · have := coalesced.gap _ _ _ _ rest listed below
          omega
    have region := bounded _ _ listed
    refine ⟨(coalesced.erase _).insert ends (by omega) (by omega) apart,
      (bounded.erase _).insert (by omega) (by omega), fun address => ?_⟩
    have absent : (freeList.erase block.location).find (block.location + block.size) = none := by
      cases rest : (freeList.erase block.location).find (block.location + block.size) with
      | none => rfl
      | some held =>
        have := apart _ _ rest
        omega
    have added : freeAt ((freeList.erase block.location).insert (block.location + block.size)
        (entrySize - block.size)) address = freeAt (freeList.erase block.location) address +
          within (block.location + block.size) (entrySize - block.size) address :=
      SortedMap.total_insert _ absent _
    have cut := within_add block.location block.size (entrySize - block.size) address
    rw [Nat.add_sub_cancel' large] at cut
    rw [added, ← taken address, cut, blockAt]
    omega
  · next all =>
    refine ⟨coalesced.erase _, bounded.erase _, fun address => ?_⟩
    rw [← taken address, blockAt]
    obtain rfl : block.size = entrySize := by omega
    rfl

/-- A list that covers every address of a span has one region that does. -/
theorem Coalesced.covering (coalesced : Coalesced freeList) (positive : start < stop)
    (covered : ∀ address, start ≤ address → address < stop → 0 < freeAt freeList address) :
    ∃ key size, freeList.find key = some size ∧ key ≤ start ∧ stop ≤ key + size := by
  obtain ⟨key, size, found, first⟩ := SortedMap.exists_of_total_pos _ (covered start (Nat.le_refl _) positive)
  have first : key ≤ start ∧ start < key + size := within_pos.mp first
  refine ⟨key, size, found, first.1, ?_⟩
  by_contra short
  obtain ⟨key', size', found', next⟩ :=
    SortedMap.exists_of_total_pos _ (covered (key + size) (by omega) (by omega))
  have next : key' ≤ key + size ∧ key + size < key' + size' := within_pos.mp next
  rcases Nat.lt_trichotomy key key' with above | rfl | below
  · have := coalesced.gap _ _ _ _ found found' above
    omega
  · cases found.symm.trans found'
    omega
  · have := coalesced.gap _ _ _ _ found' found below
    omega

/-! ### Lists in order

The list of a snapshot ends at `top`, and its regions start where data can be. -/

structure Orderly (top : ℕ) (freeList : FreeList) : Prop where
  coalesced : Coalesced freeList
  ends : Bounded 0 top freeList
  keys : ∀ key size, freeList.find key = some size → key ≤ offMax
  wide : offMax ≤ top

/-- A block that holds data. -/
def Solid (block : Block) : Prop := 0 < block.size ∧ block.location + block.size ≤ offMax

/-- A byte in use that keeps the space behind it, up to `top`, from being
joined with the space before it. -/
def Barrier (top : ℕ) (used : ℕ → ℕ) : Prop := ∃ byte, byte < 2 ^ 64 ∧ top ≤ byte + 2 ^ 64 ∧ 0 < used byte

theorem offMax_lt : offMax < 2 ^ 63 := by decide

theorem Orderly.allocate (orderly : Orderly top freeList)
    (allocated : allocate freeList size hint = .ok (block, after)) (positive : 0 < size)
    (ends : block.location + size ≤ offMax) :
    Orderly top after ∧ ∀ address, freeAt after address + blockAt block address = freeAt freeList address := by
  have limit := offMax_lt
  obtain ⟨coalesced, bounded, covers⟩ :=
    orderly.coalesced.allocate orderly.ends allocated positive (by omega)
  refine ⟨⟨coalesced, bounded, fun key held found => ?_, orderly.wide⟩, covers⟩
  obtain ⟨entrySize, -, rfl, rfl⟩ := allocate_ok allocated
  have erased (found : (freeList.erase block.location).find key = some held) : key ≤ offMax := by
    rw [SortedMap.find_erase] at found
    split at found
    · cases found
    · exact orderly.keys key held found
  split at found
  · rw [SortedMap.find_insert] at found
    split at found
    · next same => rw [← same, u64_of_lt (by omega)]; exact ends
    · exact erased found
  · exact erased found

/-- An allocation that is given back at once leaves the list as it was. -/
theorem Orderly.rollback (orderly : Orderly top freeList)
    (allocated : SnapshotStore.allocate freeList size hint = .ok (block, after)) (positive : 0 < size)
    (short : size ≤ offMax) : deallocate after block = freeList := by
  obtain ⟨entrySize, found, rfl, rfl⟩ := allocate_ok allocated
  obtain ⟨listed, large⟩ := find_of_findSpace found
  have key := orderly.keys _ _ listed
  have limit := offMax_lt
  refine (deallocate_remainder_iff orderly.coalesced listed positive large).mpr ?_
  rw [u64_of_lt (by omega)]
  cases above : freeList.find (block.location + block.size) with
  | none => rfl
  | some held =>
    have := orderly.coalesced.gap _ _ _ _ listed above (by omega)
    omega

theorem key_of_deallocate (found : (deallocate freeList block).find key = some size) :
    key ≤ block.location ∨ ∃ held, freeList.find key = some held := by
  have first (key size) (found : (joinBelow freeList block).1.find key = some size) : freeList.find key = some size := by
    unfold joinBelow at found
    split at found
    · split at found
      · dsimp only at found
        rw [SortedMap.find_erase] at found
        split at found
        · cases found
        · exact found
      · exact found
    · exact found
  have start : (joinBelow freeList block).2.location ≤ block.location := by
    unfold joinBelow
    split
    · next below =>
      split
      · exact (find_of_entryBelow below).2.le
      · exact Nat.le_refl _
    · exact Nat.le_refl _
  have second (list : FreeList) (block : Block) : (joinAbove list block).2.location = block.location ∧
      ∀ key size, (joinAbove list block).1.find key = some size → list.find key = some size := by
    unfold joinAbove
    dsimp only
    split
    · refine ⟨rfl, fun key size found => ?_⟩
      dsimp only at found
      rw [SortedMap.find_erase] at found
      split at found
      · cases found
      · exact found
    · exact ⟨rfl, fun _ _ found => found⟩
  unfold deallocate at found
  dsimp only at found
  rw [SortedMap.find_insert] at found
  obtain ⟨located, kept⟩ := second (joinBelow freeList block).1 (joinBelow freeList block).2
  split at found
  · next same => left; omega
  · exact Or.inr ⟨size, first key size (kept key size found)⟩

/-- A block of data can be given back, if a byte in use keeps the end of the
space apart. -/
theorem Orderly.loose (orderly : Orderly top freeList)
    (single : ∀ address, used address + freeAt freeList address + blockAt block address ≤ 1)
    (barrier : Barrier top used) (solid : Solid block) : ∃ low, Loose low top freeList block := by
  obtain ⟨byte, small, near, kept⟩ := barrier
  obtain ⟨positive, ends⟩ := solid
  have limit := offMax_lt
  have wide := orderly.wide
  have clear := single byte
  refine ⟨byte + 1, orderly.coalesced, fun key size found => ⟨?_, (orderly.ends key size found).2⟩,
    fun key size found => ?_, positive, by omega, ?_, by omega, by omega⟩
  · have here := le_freeAt found byte
    have outside : ¬ 0 < within key size byte := by omega
    rw [within_pos] at outside
    omega
  · refine apart_of_single (fun address => ?_) (orderly.coalesced.region key size found).2.1 positive
    have here := le_freeAt found address
    have both := single address
    unfold blockAt at both
    omega
  · have outside : ¬ 0 < within block.location block.size byte := by
      unfold blockAt at clear
      omega
    rw [within_pos] at outside
    omega

theorem Orderly.deallocate (orderly : Orderly top freeList)
    (single : ∀ address, used address + freeAt freeList address + blockAt block address ≤ 1)
    (barrier : Barrier top used) (solid : Solid block) :
    Orderly top (deallocate freeList block) ∧
      ∀ address, freeAt (deallocate freeList block) address = freeAt freeList address + blockAt block address := by
  obtain ⟨low, loose⟩ := orderly.loose single barrier solid
  obtain ⟨positive, ends⟩ := solid
  have limit := offMax_lt
  obtain ⟨coalesced, bounded, covers⟩ := loose.deallocate (by omega)
  refine ⟨⟨coalesced, fun key size found => ⟨Or.inr (Nat.zero_le _), (bounded key size found).2⟩,
    fun key size found => ?_, orderly.wide⟩, covers⟩
  rcases key_of_deallocate found with low | ⟨held, there⟩
  · omega
  · exact orderly.keys key held there

/-- How many of the extents an address lies in. -/
def listAt (extents : List (ℕ × Block)) (address : ℕ) : ℕ :=
  (extents.map fun extent => blockAt extent.2 address).sum

/-- Blocks that lie apart are given back one after the other. -/
theorem Orderly.deallocateAll (orderly : Orderly top freeList)
    (single : ∀ address, used address + freeAt freeList address + listAt extents address ≤ 1)
    (barrier : Barrier top used) (solid : ∀ extent ∈ extents, Solid extent.2) :
    Orderly top (deallocateAll freeList extents) ∧ ∀ address,
      freeAt (deallocateAll freeList extents) address = freeAt freeList address + listAt extents address := by
  induction extents generalizing freeList with
  | nil => exact ⟨orderly, fun _ => rfl⟩
  | cons extent rest ih =>
    have split (address : ℕ) : listAt (extent :: rest) address = blockAt extent.2 address + listAt rest address := by
      rw [listAt, List.map_cons, List.sum_cons, listAt]
    have here (address : ℕ) : used address + freeAt freeList address + blockAt extent.2 address ≤ 1 := by
      have := single address
      rw [split] at this
      omega
    obtain ⟨orderly', covers⟩ := orderly.deallocate here barrier (solid extent List.mem_cons_self)
    obtain ⟨last, covers'⟩ := ih orderly'
      (fun address => by have := single address; rw [split] at this; rw [covers]; omega)
      fun other listed => solid other (List.mem_cons_of_mem _ listed)
    refine ⟨last, fun address => ?_⟩
    rw [split]
    have first := covers address
    have next := covers' address
    unfold SnapshotStore.deallocateAll at next ⊢
    rw [List.foldl_cons]
    omega

end Fsyncer.SnapshotSpace
