import Fsyncer.JournalRetention

/-! Where `write_inner` writes. A place in the file is an offset modulo the size
of the ring, while the number of bytes written there is not; what keeps the bytes
inside is that no entry crosses a block and that the ring is made of blocks. -/
namespace Fsyncer.JournalBounds
open Fsyncer.ByteFile Fsyncer.Machine Fsyncer.Wire Fsyncer.JournalStore
open Fsyncer.JournalLayout Fsyncer.JournalWrite Fsyncer.JournalRun Fsyncer.JournalRetention

variable {T : Type} {codec : Codec T} {j j' : Journal} {e : StoreEntry T}

section Writes

/-- A positioned write: where it starts in the file, and its bytes. -/
abbrev Piece := ℕ × List UInt8

def perform (file : File) (pieces : List Piece) : File :=
  pieces.foldl (fun file piece => splice file piece.1 piece.2) file

/-- The zero length that ends a block with room for it. -/
def markerWrites (codec : Codec T) (write : Write T) : List Piece :=
  let j := write.before
  if write.closes codec ∧ 4 ≤ usub (alignUpAlways j.header.tail blockSize) j.header.tail
  then [(j.fileOff j.header.tail, [0, 0, 0, 0])] else []

def headerWrites (codec : Codec T) (write : Write T) : List Piece :=
  if write.closes codec then [(0, encodeHeader (closedHeader write.before))] else []

def entryWrites (codec : Codec T) (write : Write T) : List Piece :=
  [(write.before.fileOff (write.offset codec), encodeEntry codec (sealedEntry codec write.entry))]

/-- The writes of `write_inner` that are not of the header. -/
def dataWrites (codec : Codec T) (write : Write T) : List Piece :=
  markerWrites codec write ++ entryWrites codec write

theorem closes_eq (tail_lt : j.header.tail < 2 ^ 64) :
    Write.closes codec ⟨j, e⟩ = decide (blockSize - j.header.tail % blockSize < (encodeEntry codec e).length) := by
  rw [Write.closes, space_in_block tail_lt]

theorem markerWrites_of_room (closes : Write.closes codec ⟨j, e⟩ = true)
    (room : 4 ≤ usub (alignUpAlways j.header.tail blockSize) j.header.tail) :
    markerWrites codec ⟨j, e⟩ = [(j.fileOff j.header.tail, [0, 0, 0, 0])] := if_pos ⟨closes, room⟩

theorem markerWrites_of_none (none : ¬ (Write.closes codec ⟨j, e⟩ = true ∧
    4 ≤ usub (alignUpAlways j.header.tail blockSize) j.header.tail)) : markerWrites codec ⟨j, e⟩ = [] := if_neg none

theorem headerWrites_of_closes (closes : Write.closes codec ⟨j, e⟩ = true) :
    headerWrites codec ⟨j, e⟩ = [(0, encodeHeader (closedHeader j))] := if_pos closes

theorem headerWrites_of_stays (stays : Write.closes codec ⟨j, e⟩ = false) : headerWrites codec ⟨j, e⟩ = [] :=
  if_neg (by rw [stays]; exact Bool.false_ne_true)

theorem fileOff_of_size {opened : Journal} (size : opened.size = j.size) (off : ℕ) :
    opened.fileOff off = j.fileOff off := by
  rw [Journal.fileOff, Journal.fileOff, size]

theorem offset_of_closes (closes : Write.closes codec ⟨j, e⟩ = true) :
    Write.offset codec ⟨j, e⟩ = alignUpAlways j.header.tail blockSize := if_pos closes

theorem offset_of_stays (stays : Write.closes codec ⟨j, e⟩ = false) : Write.offset codec ⟨j, e⟩ = j.header.tail :=
  if_neg (by rw [stays]; exact Bool.false_ne_true)

theorem entryWrites_eq (codec : Codec T) (j : Journal) (e : StoreEntry T) : entryWrites codec ⟨j, e⟩ =
    [(j.fileOff (Write.offset codec ⟨j, e⟩), encodeEntry codec (sealedEntry codec e))] := rfl

theorem perform_one (file : File) (piece : Piece) : perform file [piece] = splice file piece.1 piece.2 := rfl

theorem perform_append (file : File) (first second : List Piece) :
    perform file (first ++ second) = perform (perform file first) second := List.foldl_append

/-- These are all the writes that a successful `write_inner` makes. -/
theorem writeInner_performs (tail_lt : j.header.tail < 2 ^ 64) (wrote : j.writeInner codec e = .ok j') :
    j'.file = perform j.file
      (markerWrites codec ⟨j, e⟩ ++ headerWrites codec ⟨j, e⟩ ++ entryWrites codec ⟨j, e⟩) := by
  have closes : Write.closes codec ⟨j, e⟩ = _ := closes_eq tail_lt
  have space := space_in_block tail_lt
  obtain ⟨small, opened, opens, rfl⟩ := writeInner_ok tail_lt wrote
  have bytes : (storedEntry codec e small).bytes = encodeEntry codec (sealedEntry codec e) := rfl
  rw [landed_file, bytes, entryWrites_eq, perform_append, perform_append, perform_one]
  rcases opens with ⟨tight, closed⟩ | ⟨roomy, rfl⟩
  · rw [decide_eq_true tight] at closes
    obtain ⟨file, marked, same⟩ := closeBlock_ok closed
    have contents : opened.file = splice file 0 (encodeHeader (closedHeader j)) := by rw [same]
    have header : opened.header = closedHeader j := by rw [same]
    have size : opened.size = j.size := by rw [same]
    rw [fileOff_of_size size, header, closedHeader_tail, contents, headerWrites_of_closes closes, perform_one,
      offset_of_closes closes]
    rcases marked with ⟨room, rfl⟩ | ⟨room, rfl⟩
    · rw [markerWrites_of_room closes (space ▸ room), perform_one]
    · have none : markerWrites codec ⟨j, e⟩ = [] :=
        markerWrites_of_none (fun both => Nat.not_lt.mpr (space ▸ both.2) room)
      rw [none]
      rfl
  · rw [decide_eq_false (Nat.not_lt.mpr roomy)] at closes
    have none : markerWrites codec ⟨opened, e⟩ = [] := markerWrites_of_none (by rw [closes]; simp)
    rw [offset_of_stays closes, headerWrites_of_stays closes, none]
    rfl

end Writes

section Bounds

/-- The bytes lie in the ring and in one of its blocks. -/
structure InBlock (j : Journal) (piece : Piece) : Prop where
  above : headerSize ≤ piece.1
  below : piece.1 + piece.2.length ≤ headerSize + j.size
  single : (piece.1 - headerSize) / blockSize = (piece.1 - headerSize + (piece.2.length - 1)) / blockSize

/-- The writes of data stay in their blocks, and the space left in the block is
computed without going below zero. -/
structure Contained (codec : Codec T) (write : Write T) : Prop where
  inside : ∀ piece ∈ dataWrites codec write, InBlock write.before piece
  no_underflow : write.before.header.tail ≤ alignUpAlways write.before.header.tail blockSize

/-- A ring of whole blocks, and a tail of 64 bits. -/
structure Blocks (j : Journal) : Prop where
  size_pos : 0 < j.size
  size_dvd : blockSize ∣ j.size
  tail_lt : j.header.tail < 2 ^ 64

/-- What starts and ends in one block of offsets does so in the file. -/
theorem inBlock_of_fits (blocks : Blocks j) (nonempty : bytes ≠ [])
    (fits : off % blockSize + bytes.length ≤ blockSize) : InBlock j (j.fileOff off, bytes) := by
  have positive := List.length_pos_iff.mpr nonempty
  have whole : off % j.size % blockSize = off % blockSize := Nat.mod_mod_of_dvd off blocks.size_dvd
  have inside := Nat.mod_lt off blocks.size_pos
  obtain ⟨count, size⟩ := blocks.size_dvd
  have split := Nat.div_add_mod (off % j.size) blockSize
  -- the block of the offset is one of the ring
  have earlier : off % j.size / blockSize + 1 ≤ count := by
    have lower : blockSize * (off % j.size / blockSize) < blockSize * count := by omega
    exact Nat.lt_of_mul_lt_mul_left lower
  have ends := Nat.mul_le_mul_left blockSize earlier
  rw [Nat.mul_succ] at ends
  have place : j.fileOff off - headerSize = off % j.size := by rw [Journal.fileOff, Nat.add_sub_cancel_left]
  refine ⟨Nat.le_add_right _ _, ?_, ?_⟩
  · show headerSize + off % j.size + bytes.length ≤ _
    omega
  · show (j.fileOff off - headerSize) / blockSize = (j.fileOff off - headerSize + (bytes.length - 1)) / blockSize
    have shifted : off % j.size + (bytes.length - 1) =
        (off % blockSize + (bytes.length - 1)) + blockSize * (off % j.size / blockSize) := by omega
    have front : (off % blockSize + (bytes.length - 1)) / blockSize = 0 := Nat.div_eq_of_lt (by omega)
    rw [place, shifted, Nat.add_mul_div_left _ _ blockSize_pos, front, Nat.zero_add]

theorem dataWrites_inside (blocks : Blocks j) (small : (encodeEntry codec e).length < blockSize) :
    ∀ piece ∈ dataWrites codec ⟨j, e⟩, InBlock j piece := by
  have length : (encodeEntry codec (sealedEntry codec e)).length = _ := length_sealedEntry e
  have closes : Write.closes codec ⟨j, e⟩ = _ := closes_eq blocks.tail_lt
  have below := Nat.mod_lt j.header.tail blockSize_pos
  intro piece found
  rcases List.mem_append.mp found with marker | entry
  · rw [markerWrites] at marker
    split at marker
    · next room =>
      cases List.mem_singleton.mp marker
      have space : 4 ≤ blockSize - j.header.tail % blockSize := space_in_block blocks.tail_lt ▸ room.2
      exact inBlock_of_fits blocks (List.cons_ne_nil _ _) (show j.header.tail % blockSize + 4 ≤ _ by omega)
    · cases marker
  · cases List.mem_singleton.mp entry
    refine inBlock_of_fits blocks (List.length_pos_iff.mp ?_) ?_
    · rw [length, length_encodeEntry]
      omega
    · rw [length]
      by_cases tight : blockSize - j.header.tail % blockSize < (encodeEntry codec e).length
      · rw [decide_eq_true tight] at closes
        rw [offset_of_closes closes, alignUpAlways_mod]
        omega
      · rw [decide_eq_false tight] at closes
        rw [offset_of_stays closes]
        omega

/-- Behind the last block boundary of the 64-bit range there is no other. -/
theorem tail_le_alignUp_iff (tail_lt : off < 2 ^ 64) :
    off ≤ alignUpAlways off blockSize ↔ off + blockSize < 2 ^ 64 := by
  simp only [alignUpAlways, u64, blockSize_eq]
  omega

theorem contained_iff (blocks : Blocks j) (small : (encodeEntry codec e).length < blockSize) :
    Contained codec ⟨j, e⟩ ↔ j.header.tail + blockSize < 2 ^ 64 := by
  rw [← tail_le_alignUp_iff blocks.tail_lt]
  exact ⟨fun contained => contained.no_underflow, fun order => ⟨dataWrites_inside blocks small, order⟩⟩

theorem Blocks.writeInner (blocks : Blocks j) (wrote : j.writeInner codec e = .ok j') : Blocks j' := by
  obtain ⟨small, opened, opens, rfl⟩ := writeInner_ok blocks.tail_lt wrote
  have size : opened.size = j.size := by
    rcases opens with ⟨-, closed⟩ | ⟨-, rfl⟩
    · obtain ⟨_, -, rfl⟩ := closeBlock_ok closed
      rfl
    · rfl
  rw [← landed_size opened (storedEntry codec e small).bytes] at size
  exact ⟨size ▸ blocks.size_pos, size ▸ blocks.size_dvd, u64_lt _⟩

/-- In every run every write of data stays in one block of the ring, on every lap;
the space left in the block is the difference of two offsets in the right order
as long as the tail is not in the last block of the 64-bit range. -/
theorem writes_contained_iff {c : JournalConfig} {started : SystemTime}
    (covers : headerSize + blockSize ≤ file.length) (signed : file.length ≤ offMax)
    (run : Run codec (fun _ => True) (Journal.new file c started) j history) (member : write ∈ history) :
    Contained codec write ↔ write.before.header.tail + blockSize < 2 ^ 64 := by
  have initial := (kept_new covers signed c started : Kept codec _ []).ring
  have all : Blocks j ∧ ∀ write ∈ history, Blocks write.before ∧ (encodeEntry codec write.entry).length < blockSize := by
    refine run_keeps _ (fun j history => Blocks j ∧ ∀ write ∈ history, Blocks write.before ∧
      (encodeEntry codec write.entry).length < blockSize) ?_ ?_ ?_ run
    · rintro j e j' history ⟨blocks, earlier⟩ - - wrote
      obtain ⟨small, -⟩ := writeInner_ok blocks.tail_lt wrote
      refine ⟨blocks.writeInner wrote, fun write found => ?_⟩
      rcases List.mem_append.mp found with before | last
      · exact earlier write before
      · cases List.mem_singleton.mp last
        exact ⟨blocks, small⟩
    · rintro j history moment ⟨blocks, earlier⟩
      exact ⟨⟨blocks.size_pos, blocks.size_dvd, blocks.tail_lt⟩, earlier⟩
    · exact ⟨⟨initial.size_pos, initial.size_dvd, Nat.two_pow_pos 64⟩, by simp⟩
  obtain ⟨blocks, small⟩ := all.2 write member
  exact contained_iff blocks small

/-- Entries of half a block, one after the other. -/
theorem run_halves (count : ℕ) (low : count * 65536 < 2 ^ 64) :
    ∃ j history, Run byteVec (fun _ => True) (Journal.new singleBlock forwardConfig epoch) j history ∧
      j.size = blockSize ∧ j.header.tail = count * 65536 ∧ j.lastTime = epoch := by
  induction count with
  | zero => exact ⟨_, _, .refl, size_singleBlock, by rw [new_tail, Nat.zero_mul], rfl⟩
  | succ count ih =>
    obtain ⟨j, history, run, size, tail, clock⟩ := ih ((Nat.mul_le_mul_right _ count.le_succ).trans_lt low)
    obtain ⟨j', wrote, size', tail', -, clock'⟩ := halfBlock_lands size low tail
    rw [clock] at wrote clock'
    exact ⟨j', _, run.recent trivial clock wrote, size', tail', clock'⟩

/-- After 16 EiB the next block boundary is zero, below the tail. -/
theorem last_block_underflows : ∃ (j : Journal) (history : List (Write ByteVec)) (write : Write ByteVec),
    Run byteVec (fun _ => True) (Journal.new singleBlock forwardConfig epoch) j history ∧ write ∈ history ∧
      alignUpAlways write.before.header.tail blockSize < write.before.header.tail := by
  obtain ⟨j, history, run, size, tail, clock⟩ := run_halves (2 ^ 48 - 1) (by decide)
  have length := length_halfBlock j
  have value := blockSize_eq
  obtain ⟨j', wrote⟩ := @writeInner_succeeds _ byteVec j (payloadEntry j halfBlock) (by omega) (by omega)
    (by omega) (by rw [headerSize_eq, offMax]; omega)
  rw [← writeEntry_recent, clock] at wrote
  refine ⟨j', _, ⟨j, payloadEntry j halfBlock⟩, run.recent trivial clock wrote,
    List.mem_append_right _ (List.mem_singleton_self _), ?_⟩
  have top := tail_le_alignUp_iff (by omega : j.header.tail < 2 ^ 64)
  show alignUpAlways j.header.tail blockSize < j.header.tail
  by_contra order
  have far := top.mp (Nat.not_lt.mp order)
  omega

/-- The first entry of a journal stays in its block. -/
theorem first_entry_contained : ∃ write : Write ByteVec,
    write.before = Journal.new singleBlock forwardConfig epoch ∧ Contained byteVec write := by
  have covers : headerSize + blockSize ≤ singleBlock.length := by
    rw [length_singleBlock, headerSize_eq, blockSize_eq]
  have signed : singleBlock.length ≤ offMax := by
    rw [length_singleBlock, offMax]
    decide
  obtain ⟨j, wrote, -⟩ :=
    halfBlock_lands size_singleBlock (by decide : (0 + 1) * 65536 < 2 ^ 64) (new_tail _ _ _)
  have run := (Run.refl : Run byteVec (fun _ => True) _ _ _).recent trivial rfl wrote
  refine ⟨_, rfl, (writes_contained_iff covers signed run (List.mem_singleton_self _)).mpr ?_⟩
  rw [new_tail, blockSize_eq]
  omega

end Bounds
end Fsyncer.JournalBounds
