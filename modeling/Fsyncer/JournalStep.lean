import Fsyncer.JournalRetention

/-! One `write_inner` on a laid out journal: what it does to the head, to the
layout and to what a forward reader gets, up to the end of the 64-bit range. -/
namespace Fsyncer.JournalStep
open Fsyncer.ByteFile Fsyncer.Machine Fsyncer.Wire Fsyncer.JournalStore
open Fsyncer.JournalLayout Fsyncer.JournalWrite Fsyncer.JournalRun Fsyncer.JournalRetention

variable {T : Type} {codec : Codec T} {j j' : Journal} {e : StoreEntry T}
  {blocks : List (List (Stored codec))}

/-- The entry does not fit into the block of the tail. -/
def Crosses (codec : Codec T) (j : Journal) (e : StoreEntry T) : Prop :=
  blockSize - j.header.tail % blockSize < (encodeEntry codec e).length

instance : Decidable (Crosses codec j e) :=
  inferInstanceAs (Decidable (blockSize - j.header.tail % blockSize < (encodeEntry codec e).length))

/-- The start of the block after the one of the tail. -/
def nextBlock (j : Journal) : ℕ := (j.header.tail / blockSize + 1) * blockSize

/-- The entry needs the next block, which is a whole ring ahead of the head. -/
def Evicts (codec : Codec T) (j : Journal) (e : StoreEntry T) : Prop :=
  Crosses codec j e ∧ nextBlock j = j.header.head + j.size

instance : Decidable (Evicts codec j e) :=
  inferInstanceAs (Decidable (Crosses codec j e ∧ nextBlock j = j.header.head + j.size))

/-- Where the entry ends, counted without bound. -/
def endOffset (codec : Codec T) (j : Journal) (e : StoreEntry T) : ℕ :=
  (if Crosses codec j e then nextBlock j else j.header.tail) + (encodeEntry codec e).length

/-- The effect a write is meant to have: the layout is kept, the head moves by
one block exactly on an eviction, and a forward reader gets what it got before,
without the evicted block, followed by the new entry. -/
structure Stepped (codec : Codec T) (j : Journal) (blocks : List (List (Stored codec)))
    (e : StoreEntry T) (j' : Journal) : Prop where
  laid : ∃ blocks', WellLaid codec j' blocks'
  head_eq : j'.header.head = if Evicts codec j e then j.header.head + blockSize else j.header.head
  reads : Drains (ForwardNext codec) j'.readForward
    ((entriesOf (if Evicts codec j e then blocks.tail else blocks) ++ [sealedEntry codec e]).map .ok)
  numbered : (sealedEntry codec e).transId = j.header.transCtr

theorem nextBlock_eq (j : Journal) :
    nextBlock j = j.header.tail + (blockSize - j.header.tail % blockSize) := by
  have split := Nat.div_add_mod j.header.tail blockSize
  have below := Nat.mod_lt j.header.tail blockSize_pos
  have boundary : nextBlock j = blockSize * (j.header.tail / blockSize) + blockSize := by
    rw [nextBlock, Nat.succ_mul, Nat.mul_comm]
  omega

/-- Multiples of the block size leave a whole block below the end of the range. -/
private theorem block_below (aligned : blockSize ∣ off) (small : off < 2 ^ 64) :
    off + blockSize ≤ 2 ^ 64 := by
  obtain ⟨index, rfl⟩ := aligned
  rw [blockSize_eq] at small ⊢
  omega

/-- An entry laid down in a slot makes the step complete. -/
private theorem stepped_landed {opened : Journal} {before : List (List (Stored codec))}
    {current : List (Stored codec)} (ring : Ring opened) (head_dvd : blockSize ∣ opened.header.head)
    (small : (encodeEntry codec e).length < blockSize)
    (slot : Slot codec opened before current (encodeEntry codec e).length)
    (fits : opened.header.tail + (encodeEntry codec e).length < 2 ^ 64)
    (live : (before ++ [current]).flatten = (if Evicts codec j e then blocks.tail else blocks).flatten)
    (head : opened.header.head = if Evicts codec j e then j.header.head + blockSize else j.header.head)
    (numbered : e.transId = j.header.transCtr) :
    Stepped codec j blocks e (landed opened (storedEntry codec e small).bytes) := by
  rw [← length_storedEntry e small] at slot fits
  obtain ⟨_, laid⟩ := slot_landed ring head_dvd _ slot fits
  refine ⟨⟨_, laid⟩, (landed_head _ _).trans head, ?_, numbered⟩
  have drained := forward_drains laid
  have entries : entriesOf (before ++ [current ++ [storedEntry codec e small]]) =
      entriesOf (if Evicts codec j e then blocks.tail else blocks) ++ [sealedEntry codec e] := by
    rw [entriesOf, entriesOf, ← live]
    simp [storedEntry]
  rw [entries] at drained
  exact drained

private theorem stepped_of_fits (ring : Ring j) (size_lt : j.size < 2 ^ 64)
    (laid : WellLaid codec j blocks) (spare : j.header.tail < j.header.head + j.size)
    (numbered : e.transId = j.header.transCtr) (wrote : j.writeInner codec e = .ok j')
    (fits : endOffset codec j e < 2 ^ 64) : Stepped codec j blocks e j' := by
  have boundary := nextBlock_eq j
  have below := Nat.mod_lt j.header.tail blockSize_pos
  obtain ⟨small, opened, prepared, rfl⟩ := writeInner_ok laid.tail_lt wrote
  rcases prepared with ⟨tight, closed⟩ | ⟨roomy, rfl⟩
  · have crosses : Crosses codec j e := tight
    rw [endOffset, if_pos crosses] at fits
    have aligned : blockSize ∣ nextBlock j := Nat.dvd_mul_left _ _
    have room := block_below aligned (by omega)
    have closed := closedTo_of_closeBlock ring closed
    have tail := closed.tail (by omega)
    obtain ⟨before, current, _, slot, head_dvd, _, _, live, _⟩ :=
      slot_closed ring laid size_lt (by omega) small tight closed
    have evicts : Evicts codec j e ↔ opened.header.tail = j.header.head + j.size := by
      rw [tail, ← boundary]
      exact ⟨fun both => both.2, fun lap => ⟨crosses, lap⟩⟩
    have head := closed.head (by omega) laid.head_le size_lt
    simp only [← evicts] at live head
    exact stepped_landed closed.ring head_dvd small slot (by omega) live head numbered
  · have inside : ¬Crosses codec opened e := Nat.not_lt.mpr roomy
    rw [endOffset, if_neg inside] at fits
    obtain ⟨before, current, slot, live, _⟩ := slot_here laid spare.ne roomy
    have stays : ¬Evicts codec opened e := fun both => inside both.1
    exact stepped_landed ring laid.head_dvd small slot fits (by rw [if_neg stays]; exact live)
      (by rw [if_neg stays]) numbered

/-- A write that runs over the end of the range leaves its tail below its head. -/
private theorem fits_of_stepped (size_lt : j.size < 2 ^ 64)
    (laid : WellLaid codec j blocks) (spare : j.header.tail < j.header.head + j.size)
    (wrote : j.writeInner codec e = .ok j') (stepped : Stepped codec j blocks e j') :
    endOffset codec j e < 2 ^ 64 := by
  have boundary := nextBlock_eq j
  have below := Nat.mod_lt j.header.tail blockSize_pos
  have tail_lt := laid.tail_lt
  have room := block_below laid.size_dvd size_lt
  obtain ⟨_, laid'⟩ := stepped.laid
  have order := laid'.head_le
  have head := stepped.head_eq
  have top : nextBlock j ≤ 2 ^ 64 := by
    rw [nextBlock, blockSize_eq]
    omega
  -- below the topmost block, no head is at zero with the tail this far ahead
  have far : j.header.head < blockSize → nextBlock j < 2 ^ 64 := by
    intro low
    have zero := Nat.eq_zero_of_dvd_of_lt laid.head_dvd low
    omega
  by_contra wraps
  obtain ⟨small, opened, prepared, rfl⟩ := writeInner_ok laid.tail_lt wrote
  have length := length_storedEntry e small
  rcases prepared with ⟨tight, closed⟩ | ⟨roomy, rfl⟩
  · have crosses : Crosses codec j e := tight
    rw [endOffset, if_pos crosses] at wraps
    have last : nextBlock j = 2 ^ 64 := by
      by_contra lower
      have aligned : blockSize ∣ nextBlock j := Nat.dvd_mul_left _ _
      have room := block_below aligned (by omega)
      omega
    obtain ⟨_, _, rfl⟩ := closeBlock_ok closed
    have tail : alignUpAlways j.header.tail blockSize = 0 := by
      show u64 (nextBlock j) = 0
      rw [last, u64, Nat.mod_self]
    have order : _ ≤ u64 (alignUpAlways j.header.tail blockSize +
        (storedEntry codec e small).bytes.length) := order
    rw [tail, length, Nat.zero_add, u64_of_lt (by rw [blockSize_eq] at small; omega)] at order
    rw [head] at order
    split at order
    · omega
    · have below := far (by omega)
      omega
  · have inside : ¬Crosses codec opened e := Nat.not_lt.mpr roomy
    rw [endOffset, if_neg inside] at wraps
    have tail : (landed opened (storedEntry codec e small).bytes).header.tail = 0 := by
      show u64 (opened.header.tail + _) = 0
      rw [length, (by omega : opened.header.tail + (encodeEntry codec e).length = 2 ^ 64), u64,
        Nat.mod_self]
    rw [head, tail, if_neg fun both => inside both.1] at order
    have below := far (by rw [Nat.le_zero.mp order]; exact blockSize_pos)
    omega

/-- **The write step.** On a laid out journal that is not full, a successful
write does what it is meant to do exactly if the entry ends inside the 64-bit
range. -/
theorem write_steps_iff (ring : Ring j) (size_lt : j.size < 2 ^ 64)
    (laid : WellLaid codec j blocks) (spare : j.header.tail < j.header.head + j.size)
    (numbered : e.transId = j.header.transCtr) (wrote : j.writeInner codec e = .ok j') :
    Stepped codec j blocks e j' ↔ endOffset codec j e < 2 ^ 64 :=
  ⟨fits_of_stepped size_lt laid spare wrote, stepped_of_fits ring size_lt laid spare numbered wrote⟩

section OneBlock

/-- A journal of one block that starts at `start` and holds one empty payload. -/
def loneAt (start : ℕ) : Journal :=
  { loneEntry with header := ⟨start + 24, start, 1, .forward⟩ }

/-- A payload whose entry fills what the empty payload leaves of the block. -/
def restOfBlock : ByteVec :=
  ⟨List.replicate 131024 0, by rw [List.length_replicate]; omega⟩

private theorem length_rest (j : Journal) :
    (encodeEntry byteVec (payloadEntry j restOfBlock)).length = 131048 := by
  have length : restOfBlock.1.length = 131024 := List.length_replicate
  rw [length_encodeEntry, payloadEntry, encodeContent, List.length_append, length_leBytes,
    length_byteVec_encode, length]

private theorem ring_loneAt (start : ℕ) : Ring (loneAt start) := by
  have length : emptyPayload.bytes.length = 24 := rfl
  refine ⟨blockSize_pos, Nat.dvd_refl _, ?_⟩
  show headerSize + blockSize ≤ loneEntry.file.length
  rw [loneEntry, List.length_append, List.length_append, List.length_replicate,
    List.length_replicate, headerSize_eq]
  omega

private theorem laid_loneAt (aligned : blockSize ∣ start) (below : start + 24 < 2 ^ 64) :
    WellLaid byteVec (loneAt start) ([] ++ [[emptyPayload]]) := by
  have whole : start % blockSize = 0 := Nat.mod_eq_zero_of_dvd aligned
  have held : Holds (loneAt start).file ((loneAt start).fileOff start) (packed [emptyPayload]) := by
    show Holds loneEntry.file (headerSize + start % blockSize) _
    rw [whole, headerSize_eq]
    intro i inside
    rw [packed_cons, packed_nil, List.append_nil] at inside ⊢
    rw [loneEntry, List.getElem?_append_right (by rw [List.length_replicate]; omega),
      List.length_replicate, Nat.add_zero, Nat.add_sub_cancel_left,
      List.getElem?_append_left inside]
  have current : Current (loneAt start) start [emptyPayload] :=
    ⟨List.cons_ne_nil _ _, held, by rw [blockSize_eq]; decide, rfl⟩
  have room : start + 24 ≤ start + blockSize := by rw [blockSize_eq]; omega
  exact ⟨blockSize_pos, Nat.dvd_refl _, aligned, Nat.le_add_right _ _, room, below,
    .filled trivial (by rw [List.length_nil, Nat.zero_mul]; exact current)⟩

private theorem rest_written (below : start + 24 < 2 ^ 64) : ∃ j',
    (loneAt start).writeInner byteVec (payloadEntry (loneAt start) restOfBlock) = .ok j' := by
  have length := length_rest (loneAt start)
  have signed : headerSize + blockSize + blockSize ≤ offMax := by
    rw [headerSize_eq, blockSize_eq, offMax]
    omega
  exact writeInner_succeeds below blockSize_pos (by rw [length, blockSize_eq]; omega) signed

private theorem rest_ends (aligned : blockSize ∣ start) :
    endOffset byteVec (loneAt start) (payloadEntry (loneAt start) restOfBlock) =
      start + blockSize := by
  have length := length_rest (loneAt start)
  have whole : start % blockSize = 0 := Nat.mod_eq_zero_of_dvd aligned
  have value := blockSize_eq
  have inside : ¬Crosses byteVec (loneAt start) (payloadEntry (loneAt start) restOfBlock) := by
    rw [Crosses, length, Nat.not_lt]
    show 131048 ≤ blockSize - (start + 24) % blockSize
    rw [Nat.add_mod, whole, blockSize_eq]
  rw [endOffset, if_neg inside, length]
  show start + 24 + 131048 = _
  omega

private theorem spare_loneAt (start : ℕ) :
    (loneAt start).header.tail < (loneAt start).header.head + (loneAt start).size := by
  show start + 24 < start + blockSize
  rw [blockSize_eq]
  omega

/-- In the topmost block of the 64-bit range an entry that fills the block
takes the tail to zero, below the head. -/
theorem top_block_wraps_tail : ∃ j',
    WellLaid byteVec (loneAt (2 ^ 64 - blockSize)) ([] ++ [[emptyPayload]]) ∧
    (loneAt (2 ^ 64 - blockSize)).writeInner byteVec
      (payloadEntry (loneAt (2 ^ 64 - blockSize)) restOfBlock) = .ok j' ∧
    ¬Stepped byteVec (loneAt (2 ^ 64 - blockSize)) ([] ++ [[emptyPayload]])
      (payloadEntry (loneAt (2 ^ 64 - blockSize)) restOfBlock) j' := by
  have aligned : blockSize ∣ 2 ^ 64 - blockSize := by rw [blockSize_eq]; decide
  have below : 2 ^ 64 - blockSize + 24 < 2 ^ 64 := by rw [blockSize_eq]; omega
  have laid := laid_loneAt aligned below
  obtain ⟨j', wrote⟩ := rest_written below
  refine ⟨j', laid, wrote, fun stepped => ?_⟩
  have size_lt : (loneAt (2 ^ 64 - blockSize)).size < 2 ^ 64 := by
    show blockSize < 2 ^ 64
    rw [blockSize_eq]
    omega
  have fits := fits_of_stepped size_lt laid (spare_loneAt _) wrote stepped
  rw [rest_ends aligned, blockSize_eq] at fits
  omega

/-- In the first block the same entry is laid down as it should be. -/
theorem first_block_steps : ∃ j',
    Stepped byteVec (loneAt 0) ([] ++ [[emptyPayload]])
      (payloadEntry (loneAt 0) restOfBlock) j' := by
  obtain ⟨j', wrote⟩ := rest_written (by omega : 0 + 24 < 2 ^ 64)
  have size_lt : (loneAt 0).size < 2 ^ 64 := by
    show blockSize < 2 ^ 64
    rw [blockSize_eq]
    omega
  have fits : endOffset byteVec (loneAt 0) (payloadEntry (loneAt 0) restOfBlock) < 2 ^ 64 := by
    rw [rest_ends (Nat.dvd_zero _), blockSize_eq]
    omega
  exact ⟨j', (write_steps_iff (ring_loneAt 0) size_lt (laid_loneAt (Nat.dvd_zero _) (by omega))
    (spare_loneAt 0) rfl wrote).mpr fits⟩

end OneBlock

end Fsyncer.JournalStep
