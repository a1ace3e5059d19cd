import Fsyncer.SnapshotSpace

/-! Who owns the bytes of the serialised file. No byte is in two extents, or in
an extent and in the free list, whatever calls are merged: every path of a
write, every release and every cut hands each byte on to at most one owner. -/
namespace Fsyncer.SnapshotBlocks
open Fsyncer.ByteFile (Failure offMax writeAllAt)
open Fsyncer.FileTree (Path)
open Fsyncer.Machine Fsyncer.Spans Fsyncer.SnapshotExtents Fsyncer.SnapshotSpace Fsyncer.SnapshotStore Fsyncer.Vfs

/-! ### The extents of one file -/

def extentAt (address : ℕ) (extent : ℕ × Block) : ℕ := blockAt extent.2 address

/-- How many extents of a file an address lies in. -/
def dataAt (data : DataList) (address : ℕ) : ℕ := data.total (extentAt address)

/-- How many owners an address has in the space of one write. -/
def heldAt (s : Space) (address : ℕ) : ℕ := freeAt s.freeList address + dataAt s.data address

/-- Space in which no address has two owners, those outside of it included. -/
structure Tidy (top : ℕ) (others : ℕ → ℕ) (s : Space) : Prop where
  orderly : Orderly top s.freeList
  solid : ∀ offset block, s.data.find offset = some block → Solid block
  single : ∀ address, others address + heldAt s address ≤ 1

/-- What a write makes of the space; `lost` was in extents, and is left without
an owner. -/
structure Rearranged (top : ℕ) (s s' : Space) (lost : ℕ → ℕ) : Prop where
  orderly : Orderly top s'.freeList
  solid : ∀ offset block, s'.data.find offset = some block → Solid block
  held : ∀ address, heldAt s' address + lost address = heldAt s address
  owned : ∀ address, lost address ≤ dataAt s.data address

theorem solid_insert {data : DataList} (solid : ∀ offset block, data.find offset = some block → Solid block)
    (new : Solid block) (found : (data.insert offset block).find other = some held) : Solid held := by
  rw [SortedMap.find_insert] at found
  split at found
  · cases found; exact new
  · exact solid other held found

theorem dataAt_insert (data : DataList) (offset : ℕ) (block : Block) (address : ℕ) :
    dataAt (data.insert offset block) address + data.weightAt (extentAt address) offset =
      dataAt data address + blockAt block address :=
  SortedMap.total_insert_any (extentAt address) data offset block

/-- Extents taken out of a list one after the other. -/
theorem dataAt_eraseAll {data : DataList} {extents : List (ℕ × Block)} (sub : extents.Sublist data.entries)
    (address : ℕ) :
    dataAt (extents.foldl (fun data extent => data.erase extent.1) data) address + listAt extents address =
      dataAt data address := by
  induction extents generalizing data with
  | nil => rfl
  | cons extent rest ih =>
    have found : data.find extent.1 = some extent.2 :=
      SortedMap.mem_entries_iff.mp (sub.subset List.mem_cons_self)
    have above := (List.pairwise_cons.mp (data.sorted.sublist sub)).1
    have kept : rest.Sublist (data.erase extent.1).entries := by
      have filtered := ((List.sublist_cons_self extent rest).trans sub).filter
        fun entry : ℕ × Block => decide (entry.1 ≠ extent.1)
      have all : rest.filter (fun entry => decide (entry.1 ≠ extent.1)) = rest :=
        List.filter_eq_self.mpr fun entry listed => decide_eq_true (above entry listed).ne'
      rw [all] at filtered
      exact filtered
    have taken : dataAt (data.erase extent.1) address + blockAt extent.2 address = dataAt data address :=
      SortedMap.total_erase (extentAt address) found
    have rest := ih kept
    rw [List.foldl_cons, listAt, List.map_cons, List.sum_cons]
    unfold listAt at rest
    omega

theorem Barrier.mono {used used' : ℕ → ℕ} (barrier : Barrier top used) (more : ∀ address, used address ≤ used' address) :
    Barrier top used' := by
  obtain ⟨byte, small, near, positive⟩ := barrier
  exact ⟨byte, small, near, positive.trans_le (more byte)⟩

section Paths
variable {s s' : Space} {top : ℕ} {others : ℕ → ℕ}

theorem Tidy.place (tidy : Tidy top others s) (filled : buff ≠ []) (placed : s.place offset buff = .ok s') :
    Rearranged top s s' fun address => s.data.weightAt (extentAt address) offset := by
  obtain ⟨block, freeList, serialised, allocated, wrote, rfl⟩ := place_ok placed
  have positive := List.length_pos_iff.mpr filled
  have sized : block.size = buff.length := (allocate_ok allocated).choose_spec.2.1
  have ends : block.location + buff.length ≤ offMax := by
    rcases (length_of_writeAllAt wrote).2 with empty | inside
    · omega
    · exact inside.2
  obtain ⟨orderly, covers⟩ := tidy.orderly.allocate allocated positive ends
  have new : Solid block := ⟨by omega, by omega⟩
  refine ⟨orderly, fun _ _ => solid_insert tidy.solid new, fun address => ?_,
    fun address => SortedMap.weightAt_le_total _ _ _⟩
  have taken := covers address
  have added := dataAt_insert s.data offset block address
  unfold heldAt
  dsimp only at added ⊢
  omega

theorem Tidy.replace (tidy : Tidy top others s) (replaced : s.replace offset buff first = .ok s') :
    Rearranged top s s' fun _ => 0 := by
  obtain ⟨serialised, -, rfl⟩ := replace_ok replaced
  exact ⟨tidy.orderly, tidy.solid, fun _ => rfl, fun _ => Nat.zero_le _⟩

theorem Tidy.defragment (tidy : Tidy top others s) (filled : buff ≠ [])
    (sub : (first :: rest).Sublist s.data.entries)
    (merged : s.defragment offset buff first rest = .ok s')
    (barrier : Barrier top fun address => others address + (dataAt s'.data address + SortedMap.weightAt (extentAt address)
      ((first :: rest).foldl (fun data overlap => data.erase overlap.1) s.data) (min first.1 offset))) :
    Rearranged top s s' fun address => SortedMap.weightAt (extentAt address)
      ((first :: rest).foldl (fun data overlap => data.erase overlap.1) s.data) (min first.1 offset) := by
  obtain ⟨last, front, back, block, freeList, copied, written, serialised, -, -, -, allocated, copy, write, copy',
    rfl⟩ := defragment_ok merged
  obtain ⟨entrySize, found, sized, -⟩ := allocate_ok allocated
  have limit := offMax_lt
  have located := tidy.orderly.keys _ _ (find_of_findSpace found).1
  have positive := List.length_pos_iff.mpr filled
  obtain ⟨-, -, -, empty | ⟨-, ends⟩⟩ := span_of_parts (by omega) copy write copy'
  · omega
  have whole : u64 (front + buff.length + back) = front + buff.length + back := u64_of_lt (by omega)
  rw [whole] at allocated sized
  obtain ⟨orderly, covers⟩ := tidy.orderly.allocate allocated (by omega) ends
  have new : Solid block := ⟨by omega, by omega⟩
  have old (extent) (listed : extent ∈ first :: rest) : Solid extent.2 :=
    tidy.solid extent.1 extent.2 (SortedMap.mem_entries_iff.mp (sub.subset listed))
  generalize erased : (first :: rest).foldl (fun data overlap => data.erase overlap.1) s.data = data at barrier ⊢
  have removed (address : ℕ) : dataAt data address + listAt (first :: rest) address = dataAt s.data address := by
    rw [← erased]
    exact dataAt_eraseAll sub address
  have added (address : ℕ) := dataAt_insert data (min first.1 offset) block address
  have single (address : ℕ) : others address + (dataAt (data.insert (min first.1 offset) block) address +
      data.weightAt (extentAt address) (min first.1 offset)) + freeAt freeList address +
      listAt (first :: rest) address ≤ 1 := by
    have before := tidy.single address
    have taken := covers address
    have removed := removed address
    have added := added address
    unfold heldAt at before
    omega
  obtain ⟨last, freed⟩ := orderly.deallocateAll single barrier old
  refine ⟨last, fun _ _ => solid_insert (fun offset block found => ?_) new, fun address => ?_, fun address => ?_⟩
  · rw [← erased] at found
    exact tidy.solid offset block (find_of_find_eraseAll found)
  · have taken := covers address
    have removed := removed address
    have added := added address
    have freed := freed address
    unfold heldAt
    dsimp only
    omega
  · have part : data.weightAt (extentAt address) (min first.1 offset) ≤ dataAt data address :=
      SortedMap.weightAt_le_total _ _ _
    have removed := removed address
    omega

theorem dropFront_sublist (offset : ℕ) (overlaps : List (ℕ × Block)) : (dropFront offset overlaps).Sublist overlaps := by
  unfold dropFront
  split
  · exact List.Sublist.refl _
  · split
    · exact List.sublist_cons_self _ _
    · exact List.Sublist.refl _

theorem dropBack_sublist (after : ℕ) (overlaps : List (ℕ × Block)) : (dropBack after overlaps).Sublist overlaps := by
  unfold dropBack
  split
  · split
    · exact List.dropLast_sublist _
    · exact List.Sublist.refl _
  · exact List.Sublist.refl _

theorem overlapsOf_sublist (data : DataList) (offset len : ℕ) : (overlapsOf data offset len).Sublist data.entries := by
  unfold overlapsOf
  have taken := (List.takeWhile_sublist (l := (data.entries.filter fun extent => extent.1 ≤ u64 (offset + len)).reverse)
    fun extent => decide (offset ≤ u64 (extent.1 + extent.2.size))).reverse
  rw [List.reverse_reverse] at taken
  exact taken.trans List.filter_sublist

theorem Tidy.merge (tidy : Tidy top others s) (filled : buff ≠ []) (sub : overlaps.Sublist s.data.entries)
    (merged : s.merge offset buff overlaps = .ok s')
    (barrier : Barrier top fun address => others address + dataAt s'.data address) :
    ∃ lost, Rearranged top s s' lost := by
  unfold Space.merge at merged
  split at merged
  · exact ⟨_, tidy.place filled merged⟩
  · next first rest kept =>
    have sub : (first :: rest).Sublist s.data.entries := by
      rw [← kept]
      exact ((dropBack_sublist _ _).trans (dropFront_sublist _ _)).trans sub
    exact ⟨_, tidy.defragment filled sub merged
      (Barrier.mono barrier fun address => Nat.add_le_add_left (Nat.le_add_right _ _) _)⟩

/-- A write that succeeds is short. -/
theorem length_of_merge (filled : buff ≠ []) (merged : s.merge offset buff overlaps = .ok s') :
    buff.length ≤ offMax := by
  have positive := List.length_pos_iff.mpr filled
  have short {file after : ByteFile.File} {position : ℕ} (wrote : writeAllAt file buff position = .ok after) :
      buff.length ≤ offMax := by
    have := (length_of_writeAllAt wrote).2
    omega
  unfold Space.merge at merged
  split at merged
  · obtain ⟨_, _, _, _, wrote, _⟩ := place_ok merged
    exact short wrote
  · obtain ⟨_, _, _, _, _, _, _, _, _, _, _, _, _, wrote, _, _⟩ := defragment_ok merged
    exact short wrote

/-- The write is appended in place: the overlap keeps its front and takes the
space right behind it. -/
structure Appended (s : Space) (offset : ℕ) (buff : List UInt8) (first : ℕ × Block) (s' : Space) : Prop where
  touching : offset ≤ first.1 + first.2.size
  past : first.1 + first.2.size < offset + buff.length
  result : ∃ freeList serialised hint,
    allocate s.freeList (offset + buff.length - (first.1 + first.2.size)) hint =
      .ok (⟨first.2.location + first.2.size, offset + buff.length - (first.1 + first.2.size)⟩, freeList) ∧
    writeAllAt s.serialised buff (first.2.location + (offset - first.1)) = .ok serialised ∧
    s' = { data := s.data.insert first.1 ⟨first.2.location, offset + buff.length - first.1⟩, freeList, serialised }

/-- The numbers with which an overlap is extended. -/
theorem extend_exact {first : ℕ × Block} (solid : Solid first.2) (before : first.1 < offset)
    (touching : offset ≤ u64 (first.1 + first.2.size))
    (past : u64 (first.1 + first.2.size) < u64 (offset + len)) :
    u64 (first.1 + first.2.size) = first.1 + first.2.size ∧ first.1 + first.2.size < offset + len ∧
      u64 (first.2.location + first.2.size) = first.2.location + first.2.size ∧
      usub (u64 (first.1 + first.2.size)) offset = first.1 + first.2.size - offset ∧
      (len ≤ offMax → usub len (usub (u64 (first.1 + first.2.size)) offset) = offset + len - (first.1 + first.2.size)) := by
  obtain ⟨positive, ends⟩ := solid
  have limit := offMax_lt
  -- neither the end of the overlap nor that of its block has wrapped
  have unwrapped : u64 (first.1 + first.2.size) = first.1 + first.2.size := by
    unfold u64 at touching ⊢
    omega
  have shorter : u64 (offset + len) ≤ offset + len := Nat.mod_le _ _
  have bound : first.1 + first.2.size < 2 ^ 64 := by rw [← unwrapped]; exact u64_lt _
  have overlap : usub (u64 (first.1 + first.2.size)) offset = first.1 + first.2.size - offset := by
    rw [unwrapped]
    exact usub_of_le (by omega) bound
  refine ⟨unwrapped, by omega, u64_of_lt (by omega), overlap, fun short => ?_⟩
  rw [overlap, usub_of_le (by omega) (by omega)]
  omega

/-- A write with a single overlap, that lies within it, or continues it where
there is free space right behind it. -/
def InPlace (data : DataList) (freeList : FreeList) (offset len : ℕ) : Prop :=
  ∃ first, overlapsOf data offset len = [first] ∧
    (first.1 ≤ offset ∧ u64 (offset + len) ≤ u64 (first.1 + first.2.size) ∨
      first.1 < offset ∧ ∃ size, freeList.find (first.2.location + first.2.size) = some size ∧
        offset + len - (first.1 + first.2.size) ≤ size)

theorem Tidy.extend_cases (tidy : Tidy top others s) (filled : buff ≠ []) (held : s.data.find first.1 = some first.2)
    (before : first.1 < offset) (touching : offset ≤ u64 (first.1 + first.2.size))
    (past : u64 (first.1 + first.2.size) < u64 (offset + buff.length))
    (extended : s.extend offset buff first = .ok s') :
    Appended s offset buff first s' ∨
      (∀ size, s.freeList.find (first.2.location + first.2.size) = some size →
        size < offset + buff.length - (first.1 + first.2.size)) ∧ s.merge offset buff [first] = .ok s' := by
  obtain ⟨overlapSize, behind, block, freeList, rfl, rfl, allocated, split⟩ := extend_ok extended
  have solid := tidy.solid _ _ held
  obtain ⟨unwrapped, longer, located, overlap, rest⟩ := extend_exact solid before touching past
  obtain ⟨positive, ends⟩ := solid
  have limit := offMax_lt
  have nonempty := List.length_pos_iff.mpr filled
  obtain ⟨entrySize, found, size, -⟩ := allocate_ok allocated
  rcases split with ⟨adjacent, serialised, wrote, rfl⟩ | ⟨apart, retried⟩
  · left
    have start : usub block.location (usub (u64 (first.1 + first.2.size)) offset) =
        first.2.location + (offset - first.1) := by
      rw [adjacent, located, overlap, usub_of_le (by omega) (by omega)]
      omega
    rw [start] at wrote
    have inside : first.2.location + (offset - first.1) + buff.length ≤ offMax := by
      have := (length_of_writeAllAt wrote).2
      omega
    have rest := rest (by omega)
    have whole : u64 (first.2.size + block.size) = offset + buff.length - first.1 := by
      rw [size, rest, u64_of_lt (by omega)]
      omega
    have new : block = ⟨first.2.location + first.2.size, offset + buff.length - (first.1 + first.2.size)⟩ := by
      rw [← located, ← adjacent, ← rest, ← size]
    rw [rest, new] at allocated
    exact ⟨by omega, by omega, freeList, serialised, _, allocated, wrote, by rw [whole]⟩
  · right
    have short := length_of_merge filled retried
    rw [tidy.orderly.rollback allocated (by rw [rest short]; omega) (by rw [rest short]; omega)] at retried
    refine ⟨fun size' there => not_le.mp fun enough => apart ?_, retried⟩
    rw [located] at found ⊢
    exact (suits_of_findSpace found).hinted _ size' rfl there (by rw [rest short]; exact enough)

theorem Tidy.appended (tidy : Tidy top others s) (held : s.data.find first.1 = some first.2)
    (before : first.1 < offset) (appended : Appended s offset buff first s') :
    Rearranged top s s' fun _ => 0 := by
  obtain ⟨touching, past, freeList, serialised, hint, allocated, wrote, rfl⟩ := appended
  obtain ⟨positive, -⟩ := tidy.solid _ _ held
  have inside : first.2.location + (offset - first.1) + buff.length ≤ offMax := by
    have := (length_of_writeAllAt wrote).2
    omega
  have grown : offset + buff.length - first.1 =
      first.2.size + (offset + buff.length - (first.1 + first.2.size)) := by omega
  obtain ⟨orderly, covers⟩ := tidy.orderly.allocate allocated (by omega) (by dsimp only; omega)
  refine ⟨orderly, fun _ _ => solid_insert tidy.solid ⟨by dsimp only; omega, by dsimp only; omega⟩, fun address => ?_,
    fun _ => Nat.zero_le _⟩
  have taken := covers address
  have added := dataAt_insert s.data first.1 ⟨first.2.location, offset + buff.length - first.1⟩ address
  rw [SortedMap.weightAt_of_find _ held] at added
  have joined := within_add first.2.location first.2.size (offset + buff.length - (first.1 + first.2.size)) address
  rw [← grown] at joined
  unfold heldAt
  unfold extentAt blockAt at added
  unfold blockAt at taken
  dsimp only at added taken ⊢
  omega

/-- A write within its only overlap. -/
structure Replaced (s : Space) (offset : ℕ) (buff : List UInt8) (s' : Space) : Prop where
  result : ∃ first, overlapsOf s.data offset buff.length = [first] ∧ first.1 ≤ offset ∧
    u64 (offset + buff.length) ≤ u64 (first.1 + first.2.size) ∧ s.replace offset buff first = .ok s'

/-- The three ways of a write. -/
theorem Tidy.encode_cases (tidy : Tidy top others s) (filled : buff ≠ []) (encoded : s.encode offset buff = .ok s') :
    Replaced s offset buff s' ∨
      (∃ first, overlapsOf s.data offset buff.length = [first] ∧ first.1 < offset ∧ Appended s offset buff first s') ∨
      ¬ InPlace s.data s.freeList offset buff.length ∧
        s.merge offset buff (overlapsOf s.data offset buff.length) = .ok s' := by
  unfold Space.encode at encoded
  split at encoded
  · next first single =>
    have only {other : ℕ × Block} (same : overlapsOf s.data offset buff.length = [other]) : other = first :=
      List.singleton_inj.mp (same.symm.trans single)
    have listed : first ∈ overlapsOf s.data offset buff.length := single ▸ List.mem_singleton_self first
    obtain ⟨found, -, touching⟩ := find_of_mem_overlapsOf listed
    split at encoded
    · next inside => exact Or.inl ⟨first, single, inside.1, inside.2, encoded⟩
    · next outside =>
      split at encoded
      · next before =>
        have past : u64 (first.1 + first.2.size) < u64 (offset + buff.length) :=
          not_le.mp fun inside => outside ⟨before.le, inside⟩
        rcases tidy.extend_cases filled found before touching past encoded with appended | ⟨small, merged⟩
        · exact Or.inr (Or.inl ⟨first, single, before, appended⟩)
        · refine Or.inr (Or.inr ⟨?_, single ▸ merged⟩)
          rintro ⟨other, same, inside | ⟨-, size, there, enough⟩⟩
          · exact outside (only same ▸ inside)
          · obtain rfl := only same
            exact absurd enough (not_le.mpr (small size there))
      · next before =>
        refine Or.inr (Or.inr ⟨?_, single ▸ encoded⟩)
        rintro ⟨other, same, inside | ⟨after, -⟩⟩
        · exact outside (only same ▸ inside)
        · exact before (only same ▸ after)
  · next several =>
    refine Or.inr (Or.inr ⟨?_, encoded⟩)
    rintro ⟨other, same, -⟩
    exact several other same

/-- A write leaves no address with two owners. -/
theorem Tidy.encode (tidy : Tidy top others s) (filled : buff ≠ []) (encoded : s.encode offset buff = .ok s')
    (barrier : Barrier top fun address => others address + dataAt s'.data address) :
    ∃ lost, Rearranged top s s' lost := by
  rcases tidy.encode_cases filled encoded with ⟨first, -, -, -, replaced⟩ |
    ⟨first, single, before, appended⟩ | ⟨-, merged⟩
  · exact ⟨_, tidy.replace replaced⟩
  · have listed : first ∈ overlapsOf s.data offset buff.length := single ▸ List.mem_singleton_self first
    exact ⟨_, tidy.appended (find_of_mem_overlapsOf listed).1 before appended⟩
  · exact tidy.merge filled (overlapsOf_sublist _ _ _) merged barrier

end Paths

/-! ### Cuts -/

/-- The numbers with which an extent is cut. -/
theorem cut_exact (solid : Solid block) (before : offset < size) (past : size < u64 (offset + block.size)) :
    u64 (offset + block.size) = offset + block.size ∧
      usub block.size (u64 (offset + block.size) - size) = size - offset ∧
      u64 (block.location + (size - offset)) = block.location + (size - offset) := by
  have limit := offMax_lt
  obtain ⟨positive, ends⟩ := solid
  have unwrapped : u64 (offset + block.size) = offset + block.size := by
    unfold u64 at past ⊢
    omega
  rw [unwrapped] at past ⊢
  refine ⟨rfl, ?_, u64_of_lt (by omega)⟩
  rw [usub_of_le (by omega) (by omega)]
  omega

/-- The last extent is cut between two of its bytes, if at all. -/
theorem cutLast_cases {data : DataList} (solid : ∀ offset block, data.find offset = some block → Solid block)
    (low : ∀ offset block, data.find offset = some block → offset < size) :
    (cutLast data freeList size = (data, freeList) ∧
        ∀ offset block, data.entries.getLast? = some (offset, block) → u64 (offset + block.size) ≤ size) ∨
      ∃ offset block, data.entries.getLast? = some (offset, block) ∧ size < offset + block.size ∧ cutLast data freeList size =
        (data.insert offset ⟨block.location, size - offset⟩,
          deallocate freeList ⟨block.location + (size - offset), offset + block.size - size⟩) := by
  unfold cutLast
  split
  · next offset block last =>
    have found := SortedMap.mem_entries_iff.mp (List.mem_of_getLast? last)
    split
    · next past =>
      obtain ⟨unwrapped, kept, located⟩ := cut_exact (solid offset block found) (low offset block found) past
      refine Or.inr ⟨offset, block, last, by omega, ?_⟩
      dsimp only
      rw [kept, located, unwrapped]
    · next whole =>
      refine Or.inl ⟨rfl, fun other held same => ?_⟩
      cases last.symm.trans same
      exact Nat.le_of_not_lt whole
  · next none => exact Or.inl ⟨rfl, fun other held same => by cases none.symm.trans same⟩

section Cuts
variable {s : Space} {top : ℕ} {others : ℕ → ℕ}

/-- What a cut at `size` leaves whole, and what it takes away whole. -/
def keptBelow (data : DataList) (size : ℕ) : DataList := data.filter fun extent => extent.1 < size

def deletedFrom (data : DataList) (size : ℕ) : List (ℕ × Block) := data.entries.filter fun extent => size ≤ extent.1

theorem find_keptBelow {data : DataList} : (keptBelow data size).find offset = some block ↔
    data.find offset = some block ∧ offset < size := by
  rw [keptBelow, SortedMap.find_filter, Option.filter_eq_some_iff]
  exact and_congr_right fun _ => decide_eq_true_iff

theorem dataAt_keptBelow (data : DataList) (size address : ℕ) :
    dataAt (keptBelow data size) address + listAt (deletedFrom data size) address = dataAt data address := by
  have deleted : deletedFrom data size = data.entries.filter fun extent => !decide (extent.1 < size) := by
    refine List.filter_congr fun extent _ => ?_
    rw [← decide_not]
    exact decide_eq_decide.mpr (by omega)
  rw [deleted]
  exact SortedMap.total_filter_add (extentAt address) (fun extent => decide (extent.1 < size)) data

theorem Tidy.solid_keptBelow (tidy : Tidy top others s) (size : ℕ) (offset : ℕ) (block : Block)
    (found : (keptBelow s.data size).find offset = some block) : Solid block :=
  tidy.solid offset block (find_keptBelow.mp found).1

theorem cut_cases {data : DataList} (solid : ∀ offset block, data.find offset = some block → Solid block)
    (freeList : FreeList) (size : ℕ) :
    (cutLast (keptBelow data size) freeList size = (keptBelow data size, freeList) ∧
        ∀ offset block, (keptBelow data size).entries.getLast? = some (offset, block) → u64 (offset + block.size) ≤ size) ∨
      ∃ offset block, (keptBelow data size).entries.getLast? = some (offset, block) ∧ size < offset + block.size ∧
        cutLast (keptBelow data size) freeList size = ((keptBelow data size).insert offset ⟨block.location, size - offset⟩,
          deallocate freeList ⟨block.location + (size - offset), offset + block.size - size⟩) :=
  cutLast_cases (fun offset block found => solid offset block (find_keptBelow.mp found).1)
    fun _ _ found => (find_keptBelow.mp found).2

/-- The extents behind the cut can be given back. -/
theorem Tidy.deleted (tidy : Tidy top others s) (size : ℕ)
    (barrier : Barrier top fun address =>
      others address + dataAt (truncateData s.data s.freeList size).1 address) :
    (∀ address, others address + dataAt (keptBelow s.data size) address + freeAt s.freeList address +
        listAt (deletedFrom s.data size) address ≤ 1) ∧
      (Barrier top fun address => others address + dataAt (keptBelow s.data size) address) ∧
      ∀ extent ∈ deletedFrom s.data size, Solid extent.2 := by
  refine ⟨fun address => ?_, Barrier.mono barrier fun address => Nat.add_le_add_left ?_ _, fun extent listed =>
    tidy.solid extent.1 extent.2 (SortedMap.mem_entries_iff.mp (List.mem_filter.mp listed).1)⟩
  · have before := tidy.single address
    have parted := dataAt_keptBelow s.data size address
    unfold heldAt at before
    omega
  · -- whatever is left of the last extent was there before the cut
    show dataAt (cutLast (keptBelow s.data size) _ size).1 address ≤ _
    rcases cut_cases tidy.solid (deallocateAll s.freeList (deletedFrom s.data size)) size with
      ⟨same, -⟩ | ⟨offset, block, last, past, same⟩
    · exact (congrArg (fun cut => dataAt cut.1 address) same).le
    · refine (congrArg (fun cut => dataAt cut.1 address) same).trans_le ?_
      have found := SortedMap.mem_entries_iff.mp (List.mem_of_getLast? last)
      have kept := dataAt_insert (keptBelow s.data size) offset ⟨block.location, size - offset⟩ address
      rw [SortedMap.weightAt_of_find _ found] at kept
      have cut := within_add block.location (size - offset) (offset + block.size - size) address
      rw [show size - offset + (offset + block.size - size) = block.size by
        have := (find_keptBelow.mp found).2; omega] at cut
      unfold extentAt blockAt at kept
      dsimp only at kept ⊢
      omega

/-- So can the end of the extent that is cut. -/
theorem Tidy.cutOff (tidy : Tidy top others s)
    (freed : ∀ address, freeAt freeList address = freeAt s.freeList address + listAt (deletedFrom s.data size) address)
    (last : (keptBelow s.data size).entries.getLast? = some (offset, block)) (past : size < offset + block.size) :
    Solid ⟨block.location + (size - offset), offset + block.size - size⟩ ∧ Solid ⟨block.location, size - offset⟩ ∧
      ∀ address, others address + dataAt ((keptBelow s.data size).insert offset ⟨block.location, size - offset⟩) address +
        freeAt freeList address + blockAt ⟨block.location + (size - offset), offset + block.size - size⟩ address =
          others address + heldAt s address := by
  have found := SortedMap.mem_entries_iff.mp (List.mem_of_getLast? last)
  have before := (find_keptBelow.mp found).2
  obtain ⟨positive, ends⟩ := tidy.solid_keptBelow size offset block found
  refine ⟨⟨by dsimp only; omega, by dsimp only; omega⟩, ⟨by dsimp only; omega, by dsimp only; omega⟩, fun address => ?_⟩
  have joined := within_add block.location (size - offset) (offset + block.size - size) address
  rw [show size - offset + (offset + block.size - size) = block.size by omega] at joined
  have kept := dataAt_insert (keptBelow s.data size) offset ⟨block.location, size - offset⟩ address
  rw [SortedMap.weightAt_of_find _ found] at kept
  have parted := dataAt_keptBelow s.data size address
  have freed := freed address
  unfold extentAt blockAt at kept
  unfold heldAt blockAt
  dsimp only at kept ⊢
  omega

/-- Truncation gives back exactly what it cuts off. -/
theorem Tidy.truncate (tidy : Tidy top others s) (size : ℕ)
    (barrier : Barrier top fun address =>
      others address + dataAt (truncateData s.data s.freeList size).1 address) :
    Rearranged top s { s with
      data := (truncateData s.data s.freeList size).1
      freeList := (truncateData s.data s.freeList size).2 } fun _ => 0 := by
  obtain ⟨single, whole, gone⟩ := tidy.deleted size barrier
  obtain ⟨orderly, freed⟩ := tidy.orderly.deallocateAll single whole gone
  have split : truncateData s.data s.freeList size =
    cutLast (keptBelow s.data size) (deallocateAll s.freeList (deletedFrom s.data size)) size := rfl
  rw [split] at barrier ⊢
  generalize deallocateAll s.freeList (deletedFrom s.data size) = freeList at *
  rcases cut_cases tidy.solid freeList size with ⟨same, -⟩ | ⟨offset, block, last, past, same⟩
  · rw [same]
    refine ⟨orderly, tidy.solid_keptBelow size, fun address => ?_, fun _ => Nat.zero_le _⟩
    have freed := freed address
    have parted := dataAt_keptBelow s.data size address
    unfold heldAt
    dsimp only
    omega
  · rw [same] at barrier ⊢
    obtain ⟨solid, kept, shared⟩ := tidy.cutOff freed last past
    obtain ⟨orderly', freed'⟩ := orderly.deallocate (fun address => (shared address).trans_le (tidy.single address))
      barrier solid
    refine ⟨orderly', fun _ _ => solid_insert (tidy.solid_keptBelow size) kept, fun address => ?_, fun _ => Nat.zero_le _⟩
    have freed' := freed' address
    have shared := shared address
    unfold heldAt at shared ⊢
    dsimp only
    omega

end Cuts

/-! ### The table -/

/-- How many extents of a file, if there is one, an address lies in. -/
def fileAt (file : File) (address : ℕ) : ℕ := (file.data.map fun data => dataAt data address).getD 0

/-- How many extents of all files an address lies in. -/
def liveAt (files : Files) (address : ℕ) : ℕ := files.total fun entry => fileAt entry.2 address

/-- What the file under a path, if there is one, has of an address. -/
def pathAt (files : Files) (path : Path) (address : ℕ) : ℕ :=
  files.weightAt (fun entry => fileAt entry.2 address) path

/-- How many owners an address has. -/
def usedAt (s : Snapshot) (address : ℕ) : ℕ := freeAt s.freeList address + liveAt s.files address

def SolidFile (file : File) : Prop :=
  ∀ data offset block, file.data = some data → data.find offset = some block → Solid block

/-- No byte has two owners; the `reserved` ones have none of these. What lies
beyond the reach of any write is free. -/
structure Settled (top : ℕ) (reserved : ℕ → ℕ) (s : Snapshot) : Prop where
  orderly : Orderly top s.freeList
  solid : ∀ path file, s.files.find path = some file → SolidFile file
  single : ∀ address, reserved address + usedAt s address ≤ 1
  beyond : ∀ address, offMax ≤ address → address < top → 0 < freeAt s.freeList address

/-- What a call makes of the owners; `lost` was in extents, and is left without
an owner. -/
structure Resettled (top : ℕ) (s s' : Snapshot) (lost : ℕ → ℕ) : Prop where
  orderly : Orderly top s'.freeList
  solid : ∀ path file, s'.files.find path = some file → SolidFile file
  used : ∀ address, usedAt s' address + lost address = usedAt s address
  owned : ∀ address, lost address ≤ liveAt s.files address

/-- No extent reaches beyond the largest offset. -/
theorem liveAt_beyond {files : Files} (solid : ∀ path file, files.find path = some file → SolidFile file)
    (beyond : offMax ≤ address) : liveAt files address = 0 := by
  by_contra some
  obtain ⟨path, file, found, positive⟩ := SortedMap.exists_of_total_pos _ (Nat.pos_of_ne_zero some)
  cases held : file.data with
  | none => rw [fileAt, held] at positive; exact absurd positive (lt_irrefl 0)
  | some data =>
    rw [fileAt, held] at positive
    obtain ⟨offset, block, there, inside⟩ := SortedMap.exists_of_total_pos _ positive
    have ends := (solid path file found data offset block held there).2
    have inside := within_pos.mp inside
    dsimp only at inside
    omega

theorem Settled.resettled (settled : Settled top reserved s) (resettled : Resettled top s s' lost) :
    Settled top reserved s' := by
  refine ⟨resettled.orderly, resettled.solid, fun address => ?_, fun address beyond inside => ?_⟩
  · have before := settled.single address
    have same := resettled.used address
    omega
  · have free := settled.beyond address beyond inside
    have same := resettled.used address
    have lost := resettled.owned address
    have before := liveAt_beyond settled.solid beyond
    have after := liveAt_beyond resettled.solid beyond
    unfold usedAt at same
    omega

theorem fileAt_of_data {file : File} (held : file.data = some data) (address : ℕ) :
    fileAt file address = dataAt data address := by
  rw [fileAt, held]
  rfl

theorem fileAt_of_none {file : File} (empty : file.data = none) (address : ℕ) : fileAt file address = 0 := by
  rw [fileAt, empty]
  rfl

theorem liveAt_insert (files : Files) (path : Path) (file : File) (address : ℕ) :
    liveAt (files.insert path file) address + pathAt files path address = liveAt files address + fileAt file address :=
  SortedMap.total_insert_any _ files path file

theorem liveAt_erase (files : Files) (path : Path) (address : ℕ) :
    liveAt (files.erase path) address + pathAt files path address = liveAt files address :=
  SortedMap.total_erase_any _ files path

theorem pathAt_of_find {files : Files} (found : files.find path = some file) (address : ℕ) :
    pathAt files path address = fileAt file address :=
  SortedMap.weightAt_of_find (fun entry => fileAt entry.2 address) found

theorem pathAt_of_absent {files : Files} (absent : files.find path = none) (address : ℕ) :
    pathAt files path address = 0 :=
  SortedMap.weightAt_of_absent (fun entry => fileAt entry.2 address) absent

/-- A file that is opened owns what it owned before. -/
theorem pathAt_opened (files : Files) (path : Path) (address : ℕ) :
    pathAt files path address = fileAt (getOrOpen files path) address := by
  unfold getOrOpen
  cases found : files.find path with
  | some file => rw [pathAt_of_find found]; rfl
  | none => rw [pathAt_of_absent found]; rfl

theorem Settled.opened (settled : Settled top reserved s) (path : Path) : SolidFile (getOrOpen s.files path) := by
  unfold getOrOpen
  cases found : s.files.find path with
  | some file => exact settled.solid path file found
  | none =>
    intro data offset block held there
    cases held
    cases there

theorem solid_put {files : Files} (solid : ∀ path file, files.find path = some file → SolidFile file)
    (new : SolidFile file) (found : (files.insert path file).find other = some held) : SolidFile held := by
  rw [SortedMap.find_insert] at found
  split at found
  · cases found; exact new
  · exact solid other held found

theorem solid_erase {files : Files} (solid : ∀ path file, files.find path = some file → SolidFile file)
    (found : (files.erase path).find other = some held) : SolidFile held := by
  rw [SortedMap.find_erase] at found
  split at found
  · cases found
  · exact solid other held found

section Calls
variable {s s' : Snapshot} {top : ℕ} {reserved : ℕ → ℕ}

/-- An entry without extents takes the place of what was there. -/
theorem Settled.put (settled : Settled top reserved s) (path : Path) (empty : ∀ address, fileAt file address = 0)
    (solid : SolidFile file) : Resettled top s (s.put path file) (pathAt s.files path) := by
  refine ⟨settled.orderly, fun _ _ => solid_put settled.solid solid, fun address => ?_,
    fun address => SortedMap.weightAt_le_total _ _ _⟩
  have put := liveAt_insert s.files path file address
  rw [empty] at put
  unfold usedAt
  show freeAt s.freeList address + liveAt (s.files.insert path file) address + _ = _
  omega

/-- A change of fields leaves all bytes where they are. -/
theorem Settled.amend (settled : Settled top reserved s) (path : Path) (kept : ∀ file, (f file).data = file.data) :
    Resettled top s (s.amend path f) fun _ => 0 := by
  have solid : SolidFile (f (getOrOpen s.files path)) := by
    intro data offset block held found
    rw [kept] at held
    exact settled.opened path data offset block held found
  refine ⟨settled.orderly, fun _ _ => solid_put settled.solid solid, fun address => ?_, fun _ => Nat.zero_le _⟩
  have put := liveAt_insert s.files path (f (getOrOpen s.files path)) address
  have same : fileAt (f (getOrOpen s.files path)) address = pathAt s.files path address := by
    rw [pathAt_opened, fileAt, kept]
    rfl
  unfold usedAt
  show freeAt s.freeList address + liveAt (s.files.insert path (f (getOrOpen s.files path))) address + 0 = _
  omega

/-- A file that leaves the table gives back all of its blocks. -/
theorem Orderly.release (orderly : Orderly top freeList) (file : Option File)
    (single : ∀ address, used address + freeAt freeList address +
      (file.map fun file => fileAt file address).getD 0 ≤ 1)
    (barrier : Barrier top used) (solid : ∀ held, file = some held → SolidFile held) :
    Orderly top (release freeList file) ∧ ∀ address, freeAt (release freeList file) address =
      freeAt freeList address + (file.map fun file => fileAt file address).getD 0 := by
  have none {file : Option File} (empty : file.bind File.data = none) (address : ℕ) :
      (file.map fun file => fileAt file address).getD 0 = 0 := by
    cases file with
    | none => rfl
    | some held => exact fileAt_of_none empty address
  unfold SnapshotStore.release
  split
  · next data found =>
    obtain ⟨held, rfl, same⟩ := Option.bind_eq_some_iff.mp found
    have owned (address : ℕ) : (((some held).map fun file => fileAt file address).getD 0) = listAt data.entries address :=
      fileAt_of_data same address
    simp only [owned] at single ⊢
    refine orderly.deallocateAll single barrier fun extent listed => ?_
    exact solid held rfl data extent.1 extent.2 same (SortedMap.mem_entries_iff.mp listed)
  · next empty =>
    refine ⟨orderly, fun address => ?_⟩
    rw [none empty, Nat.add_zero]

theorem Settled.single_remove (settled : Settled top reserved s) (path : Path) (address : ℕ) :
    reserved address + liveAt (s.files.erase path) address + freeAt s.freeList address +
      pathAt s.files path address ≤ 1 := by
  have before := settled.single address
  have taken := liveAt_erase s.files path address
  unfold usedAt at before
  omega

theorem Settled.remove (settled : Settled top reserved s) (path : Path)
    (barrier : Barrier top fun address => reserved address + liveAt (s.remove path).files address) :
    Resettled top s (s.remove path) fun _ => 0 := by
  obtain ⟨orderly, freed⟩ := Orderly.release settled.orderly (s.files.find path) (settled.single_remove path) barrier
    fun held found => settled.solid path held found
  refine ⟨orderly, fun _ _ => solid_erase settled.solid, fun address => ?_, fun _ => Nat.zero_le _⟩
  have taken := liveAt_erase s.files path address
  have freed : freeAt (release s.freeList (s.files.find path)) address =
    freeAt s.freeList address + pathAt s.files path address := freed address
  unfold usedAt
  show freeAt (release s.freeList (s.files.find path)) address + liveAt (s.files.erase path) address + 0 = _
  omega

/-- The file that a renaming puts in place. -/
def movedFile (s : Snapshot) (source : Path) : File :=
  (s.files.find source).getD { File.default with ty := .moved source, data := some .empty }

theorem rename_files (s : Snapshot) (source dest : Path) :
    (s.rename source dest).files = (s.files.erase source).insert dest (movedFile s source) := rfl

theorem Settled.solid_moved (settled : Settled top reserved s) (source : Path) : SolidFile (movedFile s source) := by
  unfold movedFile
  cases found : s.files.find source with
  | some held => exact settled.solid source held found
  | none =>
    intro data offset block held there
    cases held
    cases there

/-- A renaming drops what was under the new name. -/
theorem liveAt_rename (s : Snapshot) (source dest : Path) (address : ℕ) :
    liveAt (s.rename source dest).files address + pathAt (s.files.erase source) dest address =
      liveAt s.files address := by
  have owned : fileAt (movedFile s source) address = pathAt s.files source address := by
    unfold movedFile
    cases found : s.files.find source with
    | some held => exact (pathAt_of_find found address).symm
    | none => exact (pathAt_of_absent found address).symm
  have taken := liveAt_erase s.files source address
  have put := liveAt_insert (s.files.erase source) dest (movedFile s source) address
  rw [rename_files]
  omega

theorem Settled.single_rename (settled : Settled top reserved s) (source dest : Path) (address : ℕ) :
    reserved address + liveAt (s.rename source dest).files address + freeAt s.freeList address +
      pathAt (s.files.erase source) dest address ≤ 1 := by
  have before := settled.single address
  have renamed := liveAt_rename s source dest address
  unfold usedAt at before
  omega

theorem Settled.rename (settled : Settled top reserved s) (source dest : Path)
    (barrier : Barrier top fun address => reserved address + liveAt (s.rename source dest).files address) :
    Resettled top s (s.rename source dest) fun _ => 0 := by
  obtain ⟨orderly, freed⟩ := Orderly.release settled.orderly ((s.files.erase source).find dest)
    (settled.single_rename source dest) barrier fun held found => solid_erase settled.solid found
  refine ⟨orderly, fun path held found => ?_, fun address => ?_, fun _ => Nat.zero_le _⟩
  · rw [rename_files] at found
    exact solid_put (fun _ _ => solid_erase settled.solid) (settled.solid_moved source) found
  · have renamed := liveAt_rename s source dest address
    have freed : freeAt (s.rename source dest).freeList address =
      freeAt s.freeList address + pathAt (s.files.erase source) dest address := freed address
    unfold usedAt
    rw [freed]
    omega

/-- What the other files own, and what is reserved. -/
def besides (reserved : ℕ → ℕ) (files : Files) (path : Path) (address : ℕ) : ℕ :=
  reserved address + liveAt (files.erase path) address

theorem liveAt_put (files : Files) {file : File} (held : file.data = some data) (path : Path) (address : ℕ) :
    liveAt (files.insert path file) address = liveAt (files.erase path) address + dataAt data address := by
  have put := liveAt_insert files path file address
  have taken := liveAt_erase files path address
  rw [fileAt_of_data held] at put
  omega

/-- The space that a write to one file works on. -/
theorem Settled.space (settled : Settled top reserved s) (held : (getOrOpen s.files path).data = some data)
    (serialised : ByteFile.File) :
    Tidy top (besides reserved s.files path) { data, freeList := s.freeList, serialised } := by
  refine ⟨settled.orderly, fun offset block found => settled.opened path data offset block held found, fun address => ?_⟩
  have before := settled.single address
  have taken := liveAt_erase s.files path address
  rw [pathAt_opened, fileAt_of_data held] at taken
  unfold usedAt at before
  unfold besides heldAt
  dsimp only
  omega

/-- The table after the space of one file was rearranged. -/
theorem Settled.of_space (settled : Settled top reserved s) (held : (getOrOpen s.files path).data = some data)
    {before after : Space} (extents : before.data = data) (free : before.freeList = s.freeList)
    (rearranged : Rearranged top before after lost) {file : File} (new : file.data = some after.data) :
    Resettled top s { s with files := s.files.insert path file, freeList := after.freeList,
                             serialised := serialised } lost := by
  have solid : SolidFile file := by
    intro data offset block held found
    cases new.symm.trans held
    exact rearranged.solid offset block found
  refine ⟨rearranged.orderly, fun _ _ => solid_put settled.solid solid, fun address => ?_, fun address => ?_⟩
  all_goals
    have taken := liveAt_erase s.files path address
    rw [pathAt_opened, fileAt_of_data held] at taken
  · have same := rearranged.held address
    have put := liveAt_put s.files new path address
    unfold heldAt at same
    rw [extents, free] at same
    unfold usedAt
    dsimp only
    omega
  · have owned := rearranged.owned address
    rw [extents] at owned
    omega

theorem truncate_some (held : (getOrOpen s.files path).data = some data) (size : Int64) :
    s.truncate path size = { s with
      files := s.files.insert path { getOrOpen s.files path with
        size := .exactly size.toUInt64
        data := some (truncateData data s.freeList size.toUInt64.toNat).1 }
      freeList := (truncateData data s.freeList size.toUInt64.toNat).2 } := by
  unfold Snapshot.truncate
  dsimp only
  rw [held]

theorem truncate_none (held : (getOrOpen s.files path).data = none) (size : Int64) :
    s.truncate path size = s.amend path fun file => { file with size := .exactly size.toUInt64 } := by
  unfold Snapshot.truncate Snapshot.amend
  dsimp only
  rw [held]

theorem Settled.truncate (settled : Settled top reserved s) (path : Path) (size : Int64)
    (barrier : Barrier top fun address => reserved address + liveAt (s.truncate path size).files address) :
    Resettled top s (s.truncate path size) fun _ => 0 := by
  cases held : (getOrOpen s.files path).data with
  | some data =>
    have tidy := settled.space held s.serialised
    rw [truncate_some held] at barrier ⊢
    refine settled.of_space held rfl rfl (tidy.truncate size.toUInt64.toNat ?_) rfl
    refine Barrier.mono barrier fun address => ?_
    rw [liveAt_put s.files rfl]
    exact (Nat.add_assoc _ _ _).ge
  | none =>
    rw [truncate_none held]
    exact settled.amend path fun _ => rfl

theorem Settled.write (settled : Settled top reserved s) (filled : buff ≠ [])
    (wrote : s.encodeWrite path offset buff = .ok s')
    (barrier : Barrier top fun address => reserved address + liveAt s'.files address) :
    ∃ lost, Resettled top s s' lost := by
  obtain ⟨data, after, held, encoded, rfl⟩ := encodeWrite_ok wrote
  have tidy := settled.space held s.serialised
  obtain ⟨lost, rearranged⟩ := tidy.encode filled encoded <| Barrier.mono barrier fun address => by
    rw [liveAt_put s.files rfl]
    exact (Nat.add_assoc _ _ _).ge
  exact ⟨lost, settled.of_space held rfl rfl rearranged rfl⟩

/-- The call does not link, and if it writes, it writes something. -/
def proper : VFSCall → Bool
  | .link .. => false
  | .write _ _ buf | .diffWrite _ _ buf => !buf.isEmpty
  | _ => true

theorem amends_data (amends : Amends call path f) (file : File) : (f file).data = file.data := by
  cases amends <;> rfl

theorem makes_empty (makes : Makes call path file) : (∀ address, fileAt file address = 0) ∧ SolidFile file := by
  have none {data : DataList} {offset : ℕ} {block : Block} (same : some SortedMap.empty = some data)
      (found : data.find offset = some block) : Solid block := by
    cases same
    cases found
  cases makes with
  | mknod => exact ⟨fun _ => rfl, fun data offset block held found => none held found⟩
  | mkdir | symlink => exact ⟨fun _ => rfl, fun data offset block held found => by cases held⟩

/-- A call leaves no address with two owners. -/
theorem Settled.merges (settled : Settled top reserved s) (merges : Merges s call s') (fit : proper call = true)
    (barrier : Barrier top fun address => reserved address + liveAt s'.files address) :
    ∃ lost, Resettled top s s' lost := by
  cases merges with
  | make makes _ => exact ⟨_, settled.put _ (makes_empty makes).1 (makes_empty makes).2⟩
  | amend amends => exact ⟨_, settled.amend _ (amends_data amends)⟩
  | rename => exact ⟨_, settled.rename _ _ barrier⟩
  | link => cases fit
  | create =>
    refine ⟨_, settled.put _ (fun _ => rfl) fun data offset block held found => ?_⟩
    cases held
    cases found
  | unlink => exact ⟨_, settled.remove _ barrier⟩
  | rmdir => exact ⟨_, settled.remove _ barrier⟩
  | truncate => exact ⟨_, settled.truncate _ _ barrier⟩
  | write wrote => exact settled.write (by simpa [proper] using fit) wrote barrier
  | diffWrite wrote => exact settled.write (by simpa [proper] using fit) wrote barrier
  | fsync => exact ⟨fun _ => 0, settled.orderly, settled.solid, fun _ => rfl, fun _ => Nat.zero_le _⟩

end Calls

/-! ### Extents apart -/

/-- `block` is the extent at `offset` of the file under `path`. -/
def Extent (s : Snapshot) (path : Path) (offset : ℕ) (block : Block) : Prop :=
  ∃ file data, s.files.find path = some file ∧ file.data = some data ∧ data.find offset = some block

/-- Blocks without a common byte. -/
def Apart (a b : Block) : Prop := a.location + a.size ≤ b.location ∨ b.location + b.size ≤ a.location

/-- Extents lie apart from each other and from the free regions. -/
structure Separate (s : Snapshot) : Prop where
  extents : ∀ path offset block path' offset' block', Extent s path offset block → Extent s path' offset' block' →
    (path, offset) ≠ (path', offset') → Apart block block'
  free : ∀ path offset block key size, Extent s path offset block → s.freeList.find key = some size →
    Apart block ⟨key, size⟩

theorem le_dataAt {data : DataList} (found : data.find offset = some block) (address : ℕ) :
    blockAt block address ≤ dataAt data address := SortedMap.le_total (extentAt address) found

theorem le_liveAt {s : Snapshot} (extent : Extent s path offset block) (address : ℕ) :
    blockAt block address ≤ liveAt s.files address := by
  obtain ⟨file, data, found, held, there⟩ := extent
  have inFile := le_dataAt there address
  rw [← fileAt_of_data held] at inFile
  exact inFile.trans (SortedMap.le_total (fun entry => fileAt entry.2 address) found)

theorem add_le_liveAt {s : Snapshot} (extent : Extent s path offset block) (extent' : Extent s path' offset' block')
    (differ : (path, offset) ≠ (path', offset')) (address : ℕ) :
    blockAt block address + blockAt block' address ≤ liveAt s.files address := by
  obtain ⟨file, data, found, held, there⟩ := extent
  obtain ⟨file', data', found', held', there'⟩ := extent'
  have inFile := le_dataAt there address
  have inFile' := le_dataAt there' address
  rw [← fileAt_of_data held] at inFile
  rw [← fileAt_of_data held'] at inFile'
  by_cases same : path = path'
  · subst same
    cases found.symm.trans found'
    cases held.symm.trans held'
    have both : blockAt block address + blockAt block' address ≤ dataAt data address :=
      SortedMap.add_le_total (extentAt address) there there' fun same => differ (by rw [same])
    rw [← fileAt_of_data held] at both
    exact both.trans (SortedMap.le_total (fun entry => fileAt entry.2 address) found)
  · have both := SortedMap.add_le_total (fun entry : Path × File => fileAt entry.2 address) found found' same
    unfold liveAt
    dsimp only at both
    omega

theorem Settled.solid_extent (settled : Settled top reserved s) (extent : Extent s path offset block) : Solid block := by
  obtain ⟨file, data, found, held, there⟩ := extent
  exact settled.solid path file found data offset block held there

theorem Settled.separate (settled : Settled top reserved s) : Separate s := by
  constructor
  · intro path offset block path' offset' block' extent extent' differ
    refine apart_of_single (fun address => ?_) (settled.solid_extent extent).1 (settled.solid_extent extent').1
    have both := add_le_liveAt extent extent' differ address
    have single := settled.single address
    unfold usedAt at single
    unfold blockAt at both
    omega
  · intro path offset block key size extent found
    refine apart_of_single (fun address => ?_) (settled.solid_extent extent).1
      (settled.orderly.coalesced.region key size found).2.1
    have live := le_liveAt extent address
    have free := le_freeAt found address
    have single := settled.single address
    unfold usedAt at single
    unfold blockAt at live
    dsimp only
    omega

/-! ### Every snapshot -/

/-- Where the space of a snapshot ends. -/
def fileTop : ℕ := headerSize + usizeMax

/-- The header at the start of the file. -/
def headerAt (address : ℕ) : ℕ := within 0 headerSize address

/-- The last byte of the header is never given back. -/
theorem barrier_header (more : ℕ → ℕ) : Barrier fileTop fun address => headerAt address + more address := by
  refine ⟨headerSize - 1, by decide, by decide, ?_⟩
  have last : headerAt (headerSize - 1) = 1 := by decide
  show 0 < headerAt (headerSize - 1) + more (headerSize - 1)
  omega

theorem settled_new (toFile : ByteFile.File) (now : JournalStore.SystemTime) :
    Settled fileTop headerAt (Snapshot.new toFile now) := by
  have limit := offMax_lt
  have top : fileTop = 40 + (2 ^ 64 - 1) := rfl
  have only (key size) (found : (Snapshot.new toFile now).freeList.find key = some size) :
      key = 40 ∧ size = 2 ^ 64 - 1 := by
    rw [Snapshot.new, SortedMap.find_insert] at found
    split at found
    · next same => cases found; exact ⟨same.symm, rfl⟩
    · cases found
  have free (address : ℕ) : freeAt (Snapshot.new toFile now).freeList address = within 40 (2 ^ 64 - 1) address :=
    (SortedMap.total_insert (fun entry : ℕ × ℕ => within entry.1 entry.2 address) (SortedMap.find_empty 40)
      (2 ^ 64 - 1)).trans (Nat.zero_add _)
  refine ⟨⟨⟨fun key size found => ?_, fun key size key' size' found found' order => ?_⟩, fun key size found => ?_,
    fun key size found => ?_, by omega⟩, fun path file found => (by cases found), fun address => ?_, fun address beyond inside => ?_⟩
  · have := only key size found
    omega
  · have := only key size found
    have := only key' size' found'
    omega
  · have := only key size found
    omega
  · have := only key size found
    have : 40 ≤ offMax := by decide
    omega
  · have live : liveAt (Snapshot.new toFile now).files address = 0 := rfl
    unfold usedAt
    rw [live, free]
    unfold headerAt headerSize within
    split <;> split <;> omega
  · have : 40 ≤ offMax := by decide
    rw [free, within_pos]
    omega

/-- No byte of a snapshot has two owners, whatever calls it was merged from. -/
theorem settled_of_mergeFrom {calls : List VFSCall} (fit : ∀ call ∈ calls, proper call = true)
    (merged : (Snapshot.new toFile now).mergeFrom calls = .ok s) : Settled fileTop headerAt s := by
  refine mergeFrom_induction (Settled fileTop headerAt) (fun call listed s s' settled merges => ?_)
    (settled_new toFile now) merged
  obtain ⟨lost, resettled⟩ := settled.merges merges (fit call listed) (barrier_header _)
  exact settled.resettled resettled

end Fsyncer.SnapshotBlocks
