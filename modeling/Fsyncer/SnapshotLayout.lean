import Fsyncer.SnapshotBlocks

/-! Where the extents of a file lie in the file. A write whose end is a 64-bit
offset keeps them in order: the extents it merges are replaced by one that
reaches from the first of them, or the start of the write, to the last, or its
end. Nothing that a write touches is left unmerged but extents over the limit. -/
namespace Fsyncer.SnapshotLayout
open Fsyncer.ByteFile (Failure offMax writeAllAt)
open Fsyncer.FileTree (Path)
open Fsyncer.Machine Fsyncer.Spans Fsyncer.SnapshotBlocks Fsyncer.SnapshotExtents Fsyncer.SnapshotSpace
open Fsyncer.SnapshotStore Fsyncer.Vfs

/-! ### Overlaps -/

/-- Extents that do not overlap in the file, and end at 64-bit offsets. -/
structure Ordered (data : DataList) : Prop where
  solid : ∀ offset block, data.find offset = some block → 0 < block.size ∧ offset + block.size < 2 ^ 64
  apart : ∀ offset block offset' block', data.find offset = some block → data.find offset' = some block' →
    offset < offset' → offset + block.size ≤ offset'

theorem takeWhile_eq_filter {p : α → Bool} {list : List α} (closed : list.Pairwise fun a b => p b → p a) :
    list.takeWhile p = list.filter p := by
  induction list with
  | nil => rfl
  | cons head rest ih =>
    obtain ⟨above, closed⟩ := List.pairwise_cons.mp closed
    rw [List.takeWhile_cons, List.filter_cons]
    split
    · rw [ih closed]
    · next stops =>
      refine (List.filter_eq_nil_iff.mpr fun other listed holds => ?_).symm
      exact stops (above other listed holds)

/-- The backward scan finds all extents that end at or behind the offset. -/
theorem overlapsOf_eq (ordered : Ordered data) (ends : offset + len < 2 ^ 64) :
    overlapsOf data offset len =
      data.entries.filter fun extent => extent.1 ≤ offset + len ∧ offset ≤ extent.1 + extent.2.size := by
  unfold overlapsOf
  rw [u64_of_lt ends]
  have closed : ((data.entries.filter fun extent => extent.1 ≤ offset + len).reverse).Pairwise fun a b =>
      decide (offset ≤ u64 (b.1 + b.2.size)) = true → decide (offset ≤ u64 (a.1 + a.2.size)) = true := by
    rw [List.pairwise_reverse]
    refine (data.sorted.sublist List.filter_sublist).imp_of_mem fun {a b} inA inB below reaches => ?_
    have foundA := SortedMap.mem_entries_iff.mp (List.mem_filter.mp inA).1
    have foundB := SortedMap.mem_entries_iff.mp (List.mem_filter.mp inB).1
    have order := ordered.apart _ _ _ _ foundA foundB below
    have small := (ordered.solid _ _ foundB).2
    have reaches := of_decide_eq_true reaches
    rw [u64_of_lt (ordered.solid _ _ foundA).2] at reaches
    refine decide_eq_true ?_
    rw [u64_of_lt small]
    omega
  rw [takeWhile_eq_filter closed, List.filter_reverse, List.reverse_reverse, List.filter_filter]
  refine List.filter_congr fun extent listed => ?_
  have small := (ordered.solid _ _ (SortedMap.mem_entries_iff.mp listed)).2
  rw [u64_of_lt small]
  simp only [Bool.decide_and, Bool.and_comm]

theorem mem_overlapsOf (ordered : Ordered data) (ends : offset + len < 2 ^ 64) :
    extent ∈ overlapsOf data offset len ↔ data.find extent.1 = some extent.2 ∧
      extent.1 ≤ offset + len ∧ offset ≤ extent.1 + extent.2.size := by
  rw [overlapsOf_eq ordered ends, List.mem_filter, ← SortedMap.mem_entries_iff, decide_eq_true_iff]

/-- The overlaps that a write merges. -/
def keptOverlaps (data : DataList) (offset len : ℕ) : List (ℕ × Block) :=
  dropBack (u64 (offset + len)) (dropFront offset (overlapsOf data offset len))

theorem mem_dropFront (listed : extent ∈ overlaps) (offset : ℕ) :
    extent ∈ dropFront offset overlaps ∨ (mergeLimit < extent.2.size ∧ u64 (extent.1 + extent.2.size) = offset) := by
  unfold dropFront
  split
  · exact Or.inl listed
  · split
    · next large =>
      rcases List.mem_cons.mp listed with rfl | later
      · exact Or.inr large
      · exact Or.inl later
    · exact Or.inl listed

theorem mem_dropBack {overlaps : List (ℕ × Block)} (listed : extent ∈ overlaps) (after : ℕ) :
    extent ∈ dropBack after overlaps ∨ (mergeLimit < extent.2.size ∧ extent.1 = after) := by
  unfold dropBack
  split
  · next last final =>
    split
    · next large =>
      obtain ⟨front, rfl⟩ := List.getLast?_eq_some_iff.mp final
      rw [List.dropLast_concat]
      rcases List.mem_append.mp listed with before | here
      · exact Or.inl before
      · rw [List.mem_singleton.mp here]
        exact Or.inr large
    · exact Or.inl listed
  · exact Or.inl listed

/-- Where the merged extent starts. -/
def spanStart (offset : ℕ) : List (ℕ × Block) → ℕ
  | [] => offset
  | first :: _ => min first.1 offset

/-- Where the merged extent ends. -/
def spanStop (after : ℕ) : List (ℕ × Block) → ℕ
  | [] => after
  | first :: rest => max ((rest.getLastD first).1 + (rest.getLastD first).2.size) after

/-- The extents in `fused` are to be replaced by one from `start` to `stop`;
all others lie before or behind it, and touch the write only if they are large. -/
structure Fused (data : DataList) (offset after : ℕ) (fused : List (ℕ × Block)) (start stop : ℕ) : Prop where
  sub : fused.Sublist data.entries
  starts : start ≤ offset
  stops : after ≤ stop
  inside : ∀ extent ∈ fused, start ≤ extent.1 ∧ extent.1 + extent.2.size ≤ stop
  outside : ∀ other held, data.find other = some held → (other, held) ∉ fused →
    (other + held.size ≤ start ∧ (other + held.size < offset ∨ mergeLimit < held.size)) ∨
      (stop ≤ other ∧ (after < other ∨ mergeLimit < held.size))
  front : start = offset ∨ ∃ held, (start, held) ∈ fused ∧ start < offset ∧ offset ≤ start + held.size
  back : stop = after ∨ ∃ other held, (other, held) ∈ fused ∧ other + held.size = stop ∧ other ≤ after
  small : stop < 2 ^ 64

theorem getLastD_mem (first : α) (rest : List α) : rest.getLastD first ∈ first :: rest := by
  rw [List.getLastD_eq_getLast?]
  cases last : rest.getLast? with
  | none => exact List.mem_cons_self
  | some other => exact List.mem_cons_of_mem _ (List.mem_of_getLast? last)

theorem fused_of_kept (ordered : Ordered data) (ends : offset + len < 2 ^ 64) :
    Fused data offset (offset + len) (keptOverlaps data offset len)
      (spanStart offset (keptOverlaps data offset len))
      (spanStop (offset + len) (keptOverlaps data offset len)) := by
  have sub : (keptOverlaps data offset len).Sublist data.entries :=
    ((dropBack_sublist _ _).trans (dropFront_sublist _ _)).trans (overlapsOf_sublist _ _ _)
  have touching (extent) (listed : extent ∈ keptOverlaps data offset len) :=
    (mem_overlapsOf ordered ends).mp (mem_of_mem_dropFront (mem_of_mem_dropBack listed))
  -- an extent that is not merged ends before the write or starts behind it, or is large and just touches it
  have left (other held) (found : data.find other = some held) (kept : (other, held) ∉ keptOverlaps data offset len) :
      (other + held.size ≤ offset ∧ (other + held.size < offset ∨ mergeLimit < held.size)) ∨
        (offset + len ≤ other ∧ (offset + len < other ∨ mergeLimit < held.size)) := by
    by_cases overlaps : (other, held) ∈ overlapsOf data offset len
    · rcases mem_dropFront overlaps offset with listed | ⟨large, touches⟩
      · rcases mem_dropBack listed (u64 (offset + len)) with listed | ⟨large, touches⟩
        · exact absurd listed kept
        · rw [u64_of_lt ends] at touches
          dsimp only at large touches
          right; omega
      · rw [u64_of_lt (ordered.solid _ _ found).2] at touches
        dsimp only at large touches
        left; omega
    · have apart : ¬ (other ≤ offset + len ∧ offset ≤ other + held.size) := fun touches =>
        overlaps ((mem_overlapsOf ordered ends).mpr ⟨found, touches⟩)
      omega
  generalize keptOverlaps data offset len = fused at *
  cases fused with
  | nil =>
    exact ⟨sub, Nat.le_refl _, Nat.le_refl _, fun _ listed => (by cases listed), left, Or.inl rfl, Or.inl rfl, ends⟩
  | cons first rest =>
    rw [spanStart, spanStop]
    have final := getLastD_mem first rest
    generalize lastIs : rest.getLastD first = last at *
    have sorted := data.sorted.sublist sub
    have lowest (extent) (listed : extent ∈ first :: rest) : first.1 ≤ extent.1 := by
      rcases List.mem_cons.mp listed with rfl | later
      · exact Nat.le_refl _
      · exact ((List.pairwise_cons.mp sorted).1 extent later).le
    have highest (extent) (listed : extent ∈ first :: rest) : extent.1 ≤ last.1 := by
      subst lastIs
      rw [List.getLastD_eq_getLast?]
      cases final : rest.getLast? with
      | none =>
        rw [List.getLast?_eq_none_iff] at final
        subst final
        rw [List.mem_singleton.mp listed]
        exact Nat.le_refl _
      | some last =>
        have whole : (first :: rest).getLast? = some last := by rw [List.getLast?_cons, final]; rfl
        obtain ⟨front, split⟩ := List.getLast?_eq_some_iff.mp whole
        rw [split] at listed sorted
        rcases List.mem_append.mp listed with before | here
        · exact ((List.pairwise_append.mp sorted).2.2 _ before last List.mem_cons_self).le
        · rw [List.mem_singleton.mp here]
          exact Nat.le_refl _
    have atFirst := touching first List.mem_cons_self
    have atLast := touching last final
    have reaches (extent) (listed : extent ∈ first :: rest) : extent.1 + extent.2.size ≤ last.1 + last.2.size := by
      have found := (touching extent listed).1
      rcases Nat.eq_or_lt_of_le (highest extent listed) with same | before
      · rw [same] at found
        have sized := Option.some.inj (found.symm.trans atLast.1)
        rw [sized]
        omega
      · have := ordered.apart _ _ _ _ found atLast.1 before
        omega
    refine ⟨sub, by omega, by omega, fun extent listed => ?_, fun other held found kept => ?_, ?_, ?_, ?_⟩
    · have := lowest extent listed
      have := reaches extent listed
      omega
    · have solid := (ordered.solid _ _ found).1
      rcases left other held found kept with below | above
      · left
        rcases Nat.lt_trichotomy other first.1 with before | same | behind
        · have := ordered.apart _ _ _ _ found atFirst.1 before
          omega
        · rw [same, atFirst.1] at found
          cases found
          exact absurd (same ▸ List.mem_cons_self) kept
        · have := ordered.apart _ _ _ _ atFirst.1 found behind
          omega
      · right
        rcases Nat.eq_or_lt_of_le (show last.1 ≤ other by omega) with same | behind
        · rw [← same, atLast.1] at found
          cases found
          exact absurd (same ▸ final) kept
        · have := ordered.apart _ _ _ _ atLast.1 found behind
          omega
    · by_cases before : first.1 < offset
      · rw [Nat.min_eq_left before.le]
        exact Or.inr ⟨first.2, List.mem_cons_self, before, atFirst.2.2⟩
      · exact Or.inl (by omega)
    · by_cases behind : offset + len < last.1 + last.2.size
      · exact Or.inr ⟨last.1, last.2, final, by omega, atLast.2.1⟩
      · exact Or.inl (by omega)
    · have := (ordered.solid _ _ atLast.1).2
      omega

/-- The other extents around a write with a single overlap. -/
theorem outside_single (ordered : Ordered data) (unwrapped : offset + len < 2 ^ 64)
    (single : overlapsOf data offset len = [first]) (found : data.find other = some held)
    (differ : other ≠ first.1) : other + held.size < offset ∨ offset + len < other := by
  by_contra touches
  have listed : (other, held) ∈ overlapsOf data offset len :=
    (mem_overlapsOf ordered unwrapped).mpr ⟨found, by dsimp only; omega⟩
  rw [single] at listed
  exact differ (congrArg Prod.fst (List.mem_singleton.mp listed))

/-- A single overlap that the write does not start before is replaced by one
that reaches as far as either. -/
theorem fused_of_single (ordered : Ordered data) (unwrapped : offset + len < 2 ^ 64)
    (single : overlapsOf data offset len = [first]) (begins : first.1 ≤ offset) :
    Fused data offset (offset + len) [first] first.1 (max (first.1 + first.2.size) (offset + len)) := by
  obtain ⟨held, -, touches⟩ := (mem_overlapsOf ordered unwrapped).mp (single ▸ List.mem_singleton_self first)
  have solid := ordered.solid _ _ held
  refine ⟨single ▸ overlapsOf_sublist _ _ _, begins, by omega, fun extent listed => ?_, fun other block found kept => ?_,
    ?_, ?_, by omega⟩
  · rw [List.mem_singleton.mp listed]
    omega
  · have differ : other ≠ first.1 := by
      rintro rfl
      rw [Option.some.inj (found.symm.trans held)] at kept
      exact kept (List.mem_singleton_self first)
    have outside := outside_single ordered unwrapped single found differ
    have positive := (ordered.solid _ _ found).1
    rcases Nat.lt_or_gt_of_ne differ with before | behind
    · have := ordered.apart _ _ _ _ found held before
      left; omega
    · have := ordered.apart _ _ _ _ held found behind
      right; omega
  · by_cases early : first.1 < offset
    · exact Or.inr ⟨first.2, List.mem_singleton_self first, early, touches⟩
    · exact Or.inl (by omega)
  · by_cases behind : offset + len < first.1 + first.2.size
    · exact Or.inr ⟨first.1, first.2, List.mem_singleton_self first, by omega, by omega⟩
    · exact Or.inl (by omega)

/-! ### The merged extent -/

/-- The extents left when some are taken out. -/
def without (data : DataList) (extents : List (ℕ × Block)) : DataList :=
  extents.foldl (fun data extent => data.erase extent.1) data

theorem find_without {data : DataList} {extents : List (ℕ × Block)}
    (found : (without data extents).find offset = some block) :
    data.find offset = some block ∧ (offset, block) ∉ extents := by
  induction extents generalizing data with
  | nil => exact ⟨found, by simp⟩
  | cons extent rest ih =>
    obtain ⟨found, kept⟩ := ih found
    rw [SortedMap.find_erase] at found
    split at found
    · cases found
    · next differ =>
      refine ⟨found, fun listed => ?_⟩
      rcases List.mem_cons.mp listed with rfl | later
      · exact differ rfl
      · exact kept later

theorem find_without_of_kept {data : DataList} {extents : List (ℕ × Block)} (sub : extents.Sublist data.entries)
    (found : data.find offset = some block) (kept : (offset, block) ∉ extents) :
    (without data extents).find offset = some block := by
  have absent (extent) (listed : extent ∈ extents) : extent.1 ≠ offset := by
    rintro rfl
    have same := (SortedMap.mem_entries_iff.mp (sub.subset listed)).symm.trans found
    cases same
    exact kept listed
  clear sub kept
  induction extents generalizing data with
  | nil => exact found
  | cons extent rest ih =>
    refine ih ?_ fun other listed => absent other (List.mem_cons_of_mem _ listed)
    rw [SortedMap.find_erase_of_ne _ (absent extent List.mem_cons_self), found]

section Fused
variable {data : DataList} {offset after start stop : ℕ} {fused : List (ℕ × Block)}

/-- Nothing is left where the merged extent goes. -/
theorem Fused.absent (spans : Fused data offset after fused start stop) (ordered : Ordered data)
    (positive : offset < after) : (without data fused).find start = none := by
  cases there : (without data fused).find start with
  | none => rfl
  | some block =>
    obtain ⟨found, kept⟩ := find_without there
    have solid := (ordered.solid _ _ found).1
    have outside := spans.outside _ _ found kept
    have := spans.starts
    have := spans.stops
    omega

theorem Fused.ordered (spans : Fused data offset after fused start stop) (ordered : Ordered data)
    (positive : offset < after) (sized : block.size = stop - start) :
    Ordered ((without data fused).insert start block) := by
  have starts := spans.starts
  have stops := spans.stops
  have small := spans.small
  have outside (other held) (found : (without data fused).find other = some held) :
      other + held.size ≤ start ∨ stop ≤ other := by
    obtain ⟨found, kept⟩ := find_without found
    exact (spans.outside other held found kept).imp And.left And.left
  refine ⟨fun other held found => ?_, fun other held other' held' found found' before => ?_⟩
  · rw [SortedMap.find_insert] at found
    split at found
    · next same => cases found; omega
    · exact ordered.solid other held (find_without found).1
  · rw [SortedMap.find_insert] at found found'
    split at found
    · next same =>
      cases found
      rw [if_neg (by omega)] at found'
      have solid := (ordered.solid _ _ (find_without found').1).1
      have := outside other' held' found'
      omega
    · split at found'
      · next same =>
        cases found'
        have := outside other held found
        omega
      · exact ordered.apart _ _ _ _ (find_without found).1 (find_without found').1 before

end Fused

section Paths
variable {s s' : Space} {top : ℕ} {others : ℕ → ℕ}

/-- What a merge makes of the extents, and of the space: nothing is lost. -/
theorem merge_layout (tidy : Tidy top others s) (ordered : Ordered s.data) (filled : buff ≠ [])
    (unwrapped : offset + buff.length < 2 ^ 64)
    (merged : s.merge offset buff (overlapsOf s.data offset buff.length) = .ok s') :
    ∃ block, block.size = spanStop (offset + buff.length) (keptOverlaps s.data offset buff.length) -
        spanStart offset (keptOverlaps s.data offset buff.length) ∧
      s'.data = (without s.data (keptOverlaps s.data offset buff.length)).insert
        (spanStart offset (keptOverlaps s.data offset buff.length)) block ∧
      (Barrier top (fun address => others address + dataAt s'.data address) → Rearranged top s s' fun _ => 0) := by
  have positive := List.length_pos_iff.mpr filled
  have spans := fused_of_kept ordered unwrapped
  have absent := spans.absent ordered (by omega)
  unfold Space.merge at merged
  change (match keptOverlaps s.data offset buff.length with
    | [] => s.place offset buff
    | first :: rest => s.defragment offset buff first rest) = _ at merged
  generalize keptOverlaps s.data offset buff.length = fused at *
  cases fused with
  | nil =>
    have rearranged := tidy.place filled merged
    obtain ⟨block, freeList, serialised, allocated, wrote, rfl⟩ := place_ok merged
    have sized : block.size = buff.length := (allocate_ok allocated).choose_spec.2.1
    refine ⟨block, ?_, rfl, fun _ => ?_⟩
    · rw [sized, spanStop, spanStart]
      omega
    · have zero : (fun address => s.data.weightAt (extentAt address) offset) = fun _ => 0 :=
        funext fun address => SortedMap.weightAt_of_absent _ absent
      rw [zero] at rearranged
      exact rearranged
  | cons first rest =>
    have exact := tidy.defragment filled spans.sub merged
    have zero : (fun address => SortedMap.weightAt (extentAt address) ((first :: rest).foldl
        (fun data overlap => data.erase overlap.1) s.data) (min first.1 offset)) = fun _ => 0 :=
      funext fun address => SortedMap.weightAt_of_absent _ absent
    rw [zero] at exact
    obtain ⟨last, front, back, block, freeList, copied, written, serialised, rfl, rfl, rfl, allocated, copy, write, copy',
      rfl⟩ := defragment_ok merged
    obtain ⟨entrySize, found, sized, -⟩ := allocate_ok allocated
    have limit := offMax_lt
    have located := tidy.orderly.keys _ _ (find_of_findSpace found).1
    refine ⟨block, ?_, rfl, fun barrier => exact (Barrier.mono barrier fun address =>
      Nat.add_le_add_left (Nat.le_add_right _ _) _)⟩
    obtain ⟨-, -, -, empty | ⟨-, ends⟩⟩ := span_of_parts (by omega) copy write copy'
    · omega
    rw [sized, spanStop, spanStart, u64_of_lt (by omega)]
    have final : s.data.find (rest.getLastD first).1 = some (rest.getLastD first).2 :=
      SortedMap.mem_entries_iff.mp (spans.sub.subset (getLastD_mem first rest))
    have small := (ordered.solid _ _ final).2
    unfold firstExclusive lastExclusive
    rw [u64_of_lt small, u64_of_lt unwrapped]
    split <;> split <;> omega

/-- A write that ends at a 64-bit offset replaces the extents that it merges by
one, on each of its paths, and loses none of the space. -/
theorem encode_fused (tidy : Tidy top others s) (ordered : Ordered s.data) (filled : buff ≠ [])
    (unwrapped : offset + buff.length < 2 ^ 64) (encoded : s.encode offset buff = .ok s') :
    ∃ fused start stop block, Fused s.data offset (offset + buff.length) fused start stop ∧
      block.size = stop - start ∧ s'.data = (without s.data fused).insert start block ∧
      (Barrier top (fun address => others address + dataAt s'.data address) → Rearranged top s s' fun _ => 0) := by
  rcases tidy.encode_cases filled encoded with ⟨first, single, begins, inside, replaced⟩ |
    ⟨first, single, before, appended⟩ | ⟨-, merged⟩
  · have held : s.data.find first.1 = some first.2 :=
      (find_of_mem_overlapsOf (single ▸ List.mem_singleton_self first)).1
    rw [u64_of_lt unwrapped, u64_of_lt (ordered.solid _ _ held).2] at inside
    have rearranged := tidy.replace replaced
    obtain ⟨serialised, -, rfl⟩ := replace_ok replaced
    refine ⟨_, _, _, first.2, fused_of_single ordered unwrapped single begins, by omega, ?_, fun _ => rearranged⟩
    exact ((SortedMap.insert_of_erase _ _ _).trans (SortedMap.insert_find held)).symm
  · have held : s.data.find first.1 = some first.2 :=
      (find_of_mem_overlapsOf (single ▸ List.mem_singleton_self first)).1
    have rearranged := tidy.appended held before appended
    obtain ⟨touching, past, freeList, serialised, hint, -, -, rfl⟩ := appended
    refine ⟨_, _, _, ⟨first.2.location, offset + buff.length - first.1⟩,
      fused_of_single ordered unwrapped single before.le, ?_, ?_, fun _ => rearranged⟩
    · dsimp only; omega
    · exact (SortedMap.insert_of_erase _ _ _).symm
  · obtain ⟨block, sized, extents, exact⟩ := merge_layout tidy ordered filled unwrapped merged
    exact ⟨_, _, _, block, fused_of_kept ordered unwrapped, sized, extents, exact⟩

theorem encode_ordered (tidy : Tidy top others s) (ordered : Ordered s.data) (filled : buff ≠ [])
    (unwrapped : offset + buff.length < 2 ^ 64) (encoded : s.encode offset buff = .ok s') : Ordered s'.data := by
  have positive := List.length_pos_iff.mpr filled
  obtain ⟨fused, start, stop, block, spans, sized, extents, -⟩ := encode_fused tidy ordered filled unwrapped encoded
  rw [extents]
  exact spans.ordered ordered (by omega) sized

/-! ### Small extents do not touch -/

/-- Of two extents that touch, one is over the limit. -/
def Defragmented (data : DataList) : Prop :=
  ∀ offset block offset' block', data.find offset = some block → data.find offset' = some block' →
    offset + block.size = offset' → mergeLimit < block.size ∨ mergeLimit < block'.size

/-- A merged extent is as large as those that it replaces. -/
theorem Fused.defragmented {data : DataList} (spans : Fused data offset after fused start stop) (ordered : Ordered data)
    (positive : offset < after) (sized : block.size = stop - start) (defragmented : Defragmented data) :
    Defragmented ((without data fused).insert start block) := by
  have starts := spans.starts
  have stops := spans.stops
  intro other held other' held' found found' touches
  rw [SortedMap.find_insert] at found found'
  split at found
  · next same =>
    cases found
    rw [if_neg (by omega)] at found'
    obtain ⟨found', kept⟩ := find_without found'
    have solid := (ordered.solid _ _ found').1
    rcases spans.outside _ _ found' kept with below | ⟨-, behind | large⟩
    · omega
    · rcases spans.back with exact | ⟨last, block', listed, ends, -⟩
      · omega
      · have inside := spans.inside _ listed
        dsimp only at inside
        have here := SortedMap.mem_entries_iff.mp (spans.sub.subset listed)
        rcases defragmented last block' other' held' here found' (by omega) with large | large
        · left; omega
        · exact Or.inr large
    · exact Or.inr large
  · split at found'
    · next same =>
      cases found'
      obtain ⟨found, kept⟩ := find_without found
      have solid := (ordered.solid _ _ found).1
      rcases spans.outside _ _ found kept with ⟨-, ahead | large⟩ | above
      · rcases spans.front with exact | ⟨block', listed, early, -⟩
        · omega
        · have inside := spans.inside _ listed
          dsimp only at inside
          have here := SortedMap.mem_entries_iff.mp (spans.sub.subset listed)
          rcases defragmented other held start block' found here (by omega) with large | large
          · exact Or.inl large
          · right; omega
      · exact Or.inl large
      · omega
    · exact defragmented _ _ _ _ (find_without found).1 (find_without found').1 touches

theorem encode_defragmented (tidy : Tidy top others s) (ordered : Ordered s.data) (filled : buff ≠ [])
    (unwrapped : offset + buff.length < 2 ^ 64) (encoded : s.encode offset buff = .ok s')
    (defragmented : Defragmented s.data) : Defragmented s'.data := by
  have positive := List.length_pos_iff.mpr filled
  obtain ⟨fused, start, stop, block, spans, sized, extents, -⟩ := encode_fused tidy ordered filled unwrapped encoded
  rw [extents]
  exact spans.defragmented ordered (by omega) sized defragmented

end Paths

end Fsyncer.SnapshotLayout
