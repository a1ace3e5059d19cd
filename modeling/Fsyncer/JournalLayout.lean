import Fsyncer.JournalStore
import Mathlib.Data.List.Induction

/-! The block layout the two journal iterators rely on, and what each of them
makes of it. Both walk the same physical bytes; the forward one steps over the
padding of a finished block, the reverse one decodes a whole block before it
hands out its last entry. -/
namespace Fsyncer.JournalLayout
open Fsyncer.ByteFile Fsyncer.Crc32 Fsyncer.Machine Fsyncer.Wire Fsyncer.JournalStore

section Offsets

theorem headerSize_eq : headerSize = 24 := by decide

theorem blockSize_pos : 0 < blockSize := by rw [blockSize_eq]; decide

/-- The bytes left in the block of `off`, also in the topmost block of the
64-bit range where the next boundary wraps to zero. -/
theorem space_in_block (small : off < 2 ^ 64) :
    usub (alignUpAlways off blockSize) off = blockSize - off % blockSize := by
  simp only [usub, alignUpAlways, u64, blockSize_eq]
  omega

theorem alignUpAlways_eq (small : (off / blockSize + 1) * blockSize < 2 ^ 64) :
    alignUpAlways off blockSize = (off / blockSize + 1) * blockSize := u64_of_lt small

/-- Offsets of one block keep their distance in the file: a block never
straddles the end of the ring. -/
theorem fileOff_add {j : Journal} (multiple : blockSize ∣ j.size) (positive : 0 < j.size)
    (aligned : blockSize ∣ start) (inside : i < blockSize) :
    j.fileOff (start + i) = j.fileOff start + i := by
  obtain ⟨count, size⟩ := multiple
  obtain ⟨index, rfl⟩ := aligned
  have room : index % count < count := Nat.mod_lt _ (by
    rcases Nat.eq_zero_or_pos count with rfl | found
    · simp [size] at positive
    · exact found)
  have fits : blockSize * (index % count) + i < blockSize * count := by
    calc blockSize * (index % count) + i < blockSize * (index % count) + blockSize := by omega
      _ = blockSize * (index % count + 1) := by rw [Nat.mul_succ]
      _ ≤ blockSize * count := Nat.mul_le_mul_left _ room
  have low : blockSize * index % (blockSize * count) = blockSize * (index % count) :=
    Nat.mul_mod_mul_left _ _ _
  simp only [Journal.fileOff, size]
  rw [Nat.add_mod, low, Nat.mod_eq_of_lt (by omega : i < blockSize * count), Nat.mod_eq_of_lt fits,
    Nat.add_assoc]

end Offsets

variable {T : Type} {codec : Codec T} {j : Journal}

/-- One whole entry as it lies in the file: its length field counts its own
bytes and its last four bytes are the checksum of the others. -/
structure Stored (codec : Codec T) where
  bytes : List UInt8
  entry : StoreEntry T
  decodes : deserialize codec bytes = some entry
  fsize_eq : entry.fsize.toNat = bytes.length
  crc_eq : leValue (bytes.drop (bytes.length - 4)) =
    (checksumIeee (bytes.take (bytes.length - 4))).toNat

private theorem deserialize_front (decoded : deserialize codec bytes = some entry) :
    8 ≤ bytes.length ∧ entry.fsize.toNat = leValue (bytes.take 4) ∧
      entry.transId.toNat = leValue ((bytes.drop 4).take 4) := by
  have bound (word : List UInt8) (short : word.length ≤ 4) : leValue word % 2 ^ 32 = leValue word := by
    have small := leValue_lt word
    have : 256 ^ word.length ≤ 256 ^ 4 := Nat.pow_le_pow_right (by decide) short
    omega
  simp only [deserialize, takeLe, Option.bind_eq_bind] at decoded
  split at decoded
  · next long =>
    simp only [Option.bind_some, List.length_drop] at decoded
    split at decoded
    · next longer =>
      simp only [Option.bind_some] at decoded
      obtain ⟨⟨inner, rest⟩, _, decoded⟩ := Option.bind_eq_some_iff.mp decoded
      obtain ⟨⟨crc, rest⟩, _, decoded⟩ := Option.bind_eq_some_iff.mp decoded
      cases decoded
      refine ⟨by omega, ?_, ?_⟩ <;> simp only [UInt32.toNat_ofNat'] <;>
        exact bound _ (by simp only [List.length_take]; omega)
    · simp at decoded
  · simp at decoded

theorem Stored.length_ge (stored : Stored codec) : 8 ≤ stored.bytes.length :=
  (deserialize_front stored.decodes).1

theorem Stored.leValue_front (stored : Stored codec) :
    leValue (stored.bytes.take 4) = stored.bytes.length :=
  (deserialize_front stored.decodes).2.1.symm.trans stored.fsize_eq

theorem Stored.leValue_transId (stored : Stored codec) :
    leValue ((stored.bytes.drop 4).take 4) = stored.entry.transId.toNat :=
  (deserialize_front stored.decodes).2.2.symm

theorem Stored.front_ne_zero (stored : Stored codec) : stored.bytes.take 4 ≠ [0, 0, 0, 0] := by
  intro zero
  have front := stored.leValue_front
  have long := stored.length_ge
  rw [zero] at front
  simp [leValue] at front
  omega

/-- The bytes of consecutive entries. -/
def packed (entries : List (Stored codec)) : List UInt8 := entries.flatMap Stored.bytes

@[simp] theorem packed_nil : packed ([] : List (Stored codec)) = [] := rfl

@[simp] theorem packed_cons (stored : Stored codec) (entries : List (Stored codec)) :
    packed (stored :: entries) = stored.bytes ++ packed entries := rfl

@[simp] theorem packed_append (first second : List (Stored codec)) :
    packed (first ++ second) = packed first ++ packed second := List.flatMap_append

theorem packed_length_pos {entries : List (Stored codec)} (nonempty : entries ≠ []) :
    0 < (packed entries).length := by
  cases entries with
  | nil => exact absurd rfl nonempty
  | cons stored entries =>
    have long := stored.length_ge
    rw [packed_cons, List.length_append]
    omega

theorem packed_length_ge (entries : List (Stored codec)) :
    entries.length * 8 ≤ (packed entries).length := by
  induction entries with
  | nil => exact Nat.le_refl _
  | cons stored entries ih =>
    have long := stored.length_ge
    rw [packed_cons, List.length_append, List.length_cons]
    omega

/-- A block that is no longer written to: whole entries back to back from its
start, then fewer than four spare bytes or a zero length. -/
structure Finished (j : Journal) (start : ℕ) (entries : List (Stored codec)) : Prop where
  nonempty : entries ≠ []
  held : Holds j.file (j.fileOff start) (packed entries)
  fits : (packed entries).length ≤ blockSize
  closed : blockSize - (packed entries).length < 4 ∨
    Holds j.file (j.fileOff start + (packed entries).length) [0, 0, 0, 0]

/-- The block being written: whole entries back to back, the last ending at `tail`. -/
structure Current (j : Journal) (start : ℕ) (entries : List (Stored codec)) : Prop where
  nonempty : entries ≠ []
  held : Holds j.file (j.fileOff start) (packed entries)
  fits : (packed entries).length ≤ blockSize
  ends : start + (packed entries).length = j.header.tail

def FinishedRun (j : Journal) : ℕ → List (List (Stored codec)) → Prop
  | _, [] => True
  | start, entries :: rest => Finished j start entries ∧ FinishedRun j (start + blockSize) rest

/-- What the blocks from `head` up to the block of `tail` hold. -/
inductive Blocks (codec : Codec T) (j : Journal) : List (List (Stored codec)) → Prop where
  | empty (none_live : j.header.head = j.header.tail) : Blocks codec j []
  | filled (finished : FinishedRun j j.header.head before)
      (current : Current j (j.header.head + before.length * blockSize) last) :
      Blocks codec j (before ++ [last])

/-- A journal state with the block layout, over a ring of whole blocks. -/
structure WellLaid (codec : Codec T) (j : Journal) (blocks : List (List (Stored codec))) : Prop where
  size_pos : 0 < j.size
  size_dvd : blockSize ∣ j.size
  head_dvd : blockSize ∣ j.header.head
  head_le : j.header.head ≤ j.header.tail
  tail_le : j.header.tail ≤ j.header.head + j.size
  tail_lt : j.header.tail < 2 ^ 64
  blocks : Blocks codec j blocks

/-- The entries of a layout in the order they were laid down. -/
def entriesOf (blocks : List (List (Stored codec))) : List (StoreEntry T) :=
  blocks.flatten.map Stored.entry

section Forward

private theorem skipPadding_here (stored : Stored codec) (small : head < 2 ^ 64)
    (room : 4 ≤ blockSize - head % blockSize)
    (held : Holds j.file (j.fileOff head) stored.bytes) : skipPadding j head = .ok head := by
  have long := stored.length_ge
  simp only [skipPadding, space_in_block small, if_neg (by omega : ¬blockSize - head % blockSize < 4),
    readExactAt_of_holds held 4 (by omega), ok_bind, stored.front_ne_zero, ↓reduceIte]
  rfl

private theorem fetchEntry_held (stored : Stored codec)
    (held : Holds j.file (j.fileOff head) stored.bytes) :
    fetchEntry codec j head = .ok stored.entry := by
  have long := stored.length_ge
  have whole := readExactAt_of_holds held stored.bytes.length le_rfl
  rw [List.take_length] at whole
  simp only [fetchEntry, readExactAt_of_holds held 4 (by omega), ok_bind, stored.leValue_front,
    whole, stored.decodes]
  rfl

/-- The iterator standing at logical offset `head`. -/
def standing (j : Journal) (head : ℕ) : JournalIterator T :=
  ⟨{ j.header with head := head }, j, []⟩

/-- A pull depends only on where the padding, if any, leads. -/
private theorem forwardNext_standing (codec : Codec T) (before : head ≠ j.header.tail)
    (skip : skipPadding j head = .ok next) :
    forwardNext codec (standing j head) = match fetchEntry codec j next with
      | .error error => (some (.error (.io error)), standing j next)
      | .ok entry => (some (.ok entry), standing j (u64 (next + entry.fsize.toNat))) := by
  cases fetched : fetchEntry codec j next with
  | error error => simp only [forwardNext, standing, before, ↓reduceIte, skip, fetched]
  | ok entry => simp only [forwardNext, standing, before, ↓reduceIte, skip, fetched]

private theorem forward_pull (stored : Stored codec) (before : head ≠ j.header.tail)
    (skip : skipPadding j head = .ok next) (held : Holds j.file (j.fileOff next) stored.bytes)
    (small : next + stored.bytes.length < 2 ^ 64) :
    ForwardNext codec (standing j head) (some (.ok stored.entry))
      (standing j (next + stored.bytes.length)) := by
  rw [ForwardNext, forwardNext_standing codec before skip, fetchEntry_held stored held]
  simp only [stored.fsize_eq, u64_of_lt small]

/-- Inside a block the iterator hands out the remaining entries one by one. -/
private theorem forward_entries (positive : 0 < j.size) (multiple : blockSize ∣ j.size)
    (aligned : blockSize ∣ start) (tail_lt : j.header.tail < 2 ^ 64)
    (entries : List (Stored codec)) (passed : ℕ)
    (held : Holds j.file (j.fileOff start + passed) (packed entries))
    (fits : passed + (packed entries).length ≤ blockSize)
    (bound : start + passed + (packed entries).length ≤ j.header.tail)
    (rest : Drains (ForwardNext codec) (standing j (start + passed + (packed entries).length)) items) :
    Drains (ForwardNext codec) (standing j (start + passed))
      (entries.map (fun stored => .ok stored.entry) ++ items) := by
  induction entries generalizing passed with
  | nil => simpa using rest
  | cons stored entries ih =>
    have long := stored.length_ge
    rw [packed_cons, holds_append] at held
    rw [packed_cons, List.length_append] at fits bound rest
    have place := fileOff_add multiple positive aligned (by omega : passed < blockSize)
    have within : (start + passed) % blockSize = passed := by
      obtain ⟨index, rfl⟩ := aligned
      rw [Nat.mul_add_mod]
      exact Nat.mod_eq_of_lt (by omega)
    have here : Holds j.file (j.fileOff (start + passed)) stored.bytes := place ▸ held.1
    refine .item (forward_pull stored (by omega)
      (skipPadding_here stored (by omega) (by omega) here) here (by omega)) ?_
    rw [Nat.add_assoc start]
    refine ih (passed + stored.bytes.length) ?_ (by omega) (by omega) ?_
    · rw [← Nat.add_assoc]; exact held.2
    · simpa only [Nat.add_assoc] using rest

/-- From the end of a finished block's entries the iterator resumes at the next
block, whether the block is exactly full, nearly full or closed by a marker. -/
private theorem skipPadding_finished (positive : 0 < j.size) (multiple : blockSize ∣ j.size)
    (aligned : blockSize ∣ start) {entries : List (Stored codec)} (finished : Finished j start entries)
    (small : start + blockSize < 2 ^ 64) (next : Stored codec)
    (held : Holds j.file (j.fileOff (start + blockSize)) next.bytes) :
    skipPadding j (start + (packed entries).length) = .ok (start + blockSize) := by
  have fits := finished.fits
  have filled := packed_length_pos finished.nonempty
  rcases Nat.eq_or_lt_of_le fits with full | partly
  · have modulo : (start + blockSize) % blockSize = 0 :=
      Nat.mod_eq_zero_of_dvd (Nat.dvd_add aligned (Nat.dvd_refl _))
    rw [full]
    exact skipPadding_here next small (by rw [modulo, blockSize_eq]; omega) held
  · obtain ⟨index, rfl⟩ := aligned
    have within : (blockSize * index + (packed entries).length) % blockSize = (packed entries).length := by
      rw [Nat.mul_add_mod]
      exact Nat.mod_eq_of_lt partly
    have quotient : (blockSize * index + (packed entries).length) / blockSize = index := by
      rw [Nat.mul_add_div blockSize_pos, Nat.div_eq_of_lt partly, Nat.add_zero]
    have boundary : alignUpAlways (blockSize * index + (packed entries).length) blockSize =
        blockSize * index + blockSize := by
      rw [alignUpAlways_eq (by rw [quotient, Nat.succ_mul, Nat.mul_comm]; exact small), quotient,
        Nat.succ_mul, Nat.mul_comm]
    have space := space_in_block (by omega : blockSize * index + (packed entries).length < 2 ^ 64)
    rw [within] at space
    by_cases spare : blockSize - (packed entries).length < 4
    · rw [skipPadding, space, if_pos spare, boundary]
      rfl
    · have marker := finished.closed.resolve_left spare
      rw [← fileOff_add multiple positive (Nat.dvd_mul_right _ _) partly] at marker
      have zeros := readExactAt_of_holds marker 4 (by decide)
      simp only [List.take_succ_cons, List.take_zero] at zeros
      rw [skipPadding, space, if_neg spare, zeros, ok_bind, if_pos rfl, boundary]
      rfl

private theorem drains_forward_cross (skip : skipPadding j head = .ok next)
    (stays : skipPadding j next = .ok next) (before : head ≠ j.header.tail)
    (before' : next ≠ j.header.tail) (drains : Drains (ForwardNext codec) (standing j next) items) :
    Drains (ForwardNext codec) (standing j head) items := by
  have same : forwardNext codec (standing j head) = forwardNext codec (standing j next) := by
    rw [forwardNext_standing codec before skip, forwardNext_standing codec before' stays]
  cases drains with
  | done ended => exact .done (same.trans ended)
  | item pulled rest => exact .item (same.trans pulled) rest

private theorem first_stored {before : List (List (Stored codec))} {last : List (Stored codec)}
    (run : FinishedRun j start before) (current : Current j (start + before.length * blockSize) last) :
    ∃ stored : Stored codec, Holds j.file (j.fileOff start) stored.bytes := by
  have first {start : ℕ} {entries : List (Stored codec)} (nonempty : entries ≠ [])
      (held : Holds j.file (j.fileOff start) (packed entries)) :
      ∃ stored : Stored codec, Holds j.file (j.fileOff start) stored.bytes := by
    cases entries with
    | nil => exact absurd rfl nonempty
    | cons stored entries => exact ⟨stored, (holds_append.mp held).1⟩
  cases before with
  | nil =>
    rw [List.length_nil, Nat.zero_mul, Nat.add_zero] at current
    exact first current.nonempty current.held
  | cons entries before => exact first run.1.nonempty run.1.held

theorem forward_blocks (positive : 0 < j.size) (multiple : blockSize ∣ j.size)
    (tail_lt : j.header.tail < 2 ^ 64) (before : List (List (Stored codec))) (start : ℕ)
    (aligned : blockSize ∣ start) (run : FinishedRun j start before)
    (current : Current j (start + before.length * blockSize) last) :
    Drains (ForwardNext codec) (standing j start)
      ((entriesOf (before ++ [last])).map .ok) := by
  induction before generalizing start with
  | nil =>
    simp only [List.length_nil, Nat.zero_mul, Nat.add_zero] at current
    have ends := current.ends
    have finish : Drains (ForwardNext codec) (standing j (start + 0 + (packed last).length)) [] := by
      refine .done (?_ : ForwardNext codec _ none (standing j (start + 0 + (packed last).length)))
      simp [ForwardNext, forwardNext, standing, ends]
    have drained := forward_entries positive multiple aligned tail_lt last 0 current.held
      (by have := current.fits; omega) (by omega) finish
    simpa [entriesOf, Function.comp_def] using drained
  | cons entries before ih =>
    have ends := current.ends
    have nonempty := packed_length_pos current.nonempty
    have fits := run.1.fits
    rw [List.length_cons, Nat.succ_mul, Nat.add_comm (before.length * blockSize), ← Nat.add_assoc] at current ends
    have rest := ih (start + blockSize) (Nat.dvd_add aligned (Nat.dvd_refl _)) run.2 current
    obtain ⟨next, held⟩ := first_stored run.2 current
    have modulo : (start + blockSize) % blockSize = 0 :=
      Nat.mod_eq_zero_of_dvd (Nat.dvd_add aligned (Nat.dvd_refl _))
    have cross := drains_forward_cross
      (skipPadding_finished positive multiple aligned run.1 (by omega) next held)
      (skipPadding_here next (by omega) (by rw [modulo, blockSize_eq]; omega) held) (by omega) (by omega) rest
    have drained := forward_entries positive multiple aligned tail_lt entries 0 run.1.held
      (by omega) (by omega) cross
    simpa [entriesOf, Function.comp_def] using drained

/-- Reading forward hands out every entry of the layout, in order, and stops. -/
theorem forward_drains {blocks : List (List (Stored codec))} (laid : WellLaid codec j blocks) :
    Drains (ForwardNext codec) j.readForward ((entriesOf blocks).map .ok) := by
  cases laid.blocks with
  | empty none_live =>
    refine .done (?_ : ForwardNext codec _ none j.readForward)
    simp [ForwardNext, forwardNext, Journal.readForward, none_live]
  | filled finished current =>
    exact forward_blocks laid.size_pos laid.size_dvd laid.tail_lt _ _ laid.head_dvd finished current

end Forward

section Reverse

/-- What makes the decoding loop stop behind the last entry of a block. -/
private def Stops (j : Journal) (tail position : ℕ) : Prop :=
  usub tail position < 4 ∨ Holds j.file (j.fileOff position) [0, 0, 0, 0]

private theorem decodeBlock_stops (stops : Stops j tail position) (fuel : ℕ)
    (buffer : List (StoreEntry T)) :
    decodeBlock codec j tail (fuel + 1) position buffer = some (buffer, none) := by
  unfold decodeBlock
  split
  · rfl
  · next far =>
    have zeros := readExactAt_of_holds (stops.resolve_left far) 4 (by decide)
    simp only [List.take_succ_cons, List.take_zero] at zeros
    simp only [zeros, ↓reduceIte]

/-- One round of the loop decodes one entry. -/
private theorem decodeBlock_round (stored : Stored codec) (small : tail < 2 ^ 64)
    (room : position % blockSize + stored.bytes.length ≤ blockSize)
    (bound : position + stored.bytes.length ≤ tail)
    (held : Holds j.file (j.fileOff position) stored.bytes) (fuel : ℕ)
    (buffer : List (StoreEntry T)) :
    decodeBlock codec j tail (fuel + 1) position buffer =
      decodeBlock codec j tail fuel (position + stored.bytes.length) (buffer ++ [stored.entry]) := by
  have long := stored.length_ge
  have space := space_in_block (by omega : position < 2 ^ 64)
  have whole := readExactAt_of_holds held stored.bytes.length le_rfl
  rw [List.take_length] at whole
  rw [decodeBlock, if_neg (by rw [usub_of_le (by omega) small]; omega),
    readExactAt_of_holds held 4 (by omega)]
  simp only [stored.front_ne_zero, ↓reduceIte, stored.leValue_front, space]
  rw [if_neg (by omega), whole]
  simp only [if_neg (by omega : ¬stored.bytes.length < 4), stored.crc_eq, ne_eq, not_true_eq_false,
    ↓reduceIte, stored.decodes]
  rw [u64_of_lt (by omega)]

private theorem decodeBlock_entries (positive : 0 < j.size) (multiple : blockSize ∣ j.size)
    (aligned : blockSize ∣ start) (small : tail < 2 ^ 64)
    (entries : List (Stored codec)) (passed : ℕ) (buffer : List (StoreEntry T))
    (held : Holds j.file (j.fileOff start + passed) (packed entries))
    (fits : passed + (packed entries).length ≤ blockSize)
    (bound : start + passed + (packed entries).length ≤ tail)
    (stops : Stops j tail (start + passed + (packed entries).length)) :
    decodeBlock codec j tail (entries.length + 1) (start + passed) buffer =
      some (buffer ++ entries.map Stored.entry, none) := by
  induction entries generalizing passed buffer with
  | nil =>
    simpa using decodeBlock_stops stops 0 buffer
  | cons stored entries ih =>
    have long := stored.length_ge
    rw [packed_cons, holds_append] at held
    rw [packed_cons, List.length_append] at fits bound stops
    have within : (start + passed) % blockSize = passed := by
      obtain ⟨index, rfl⟩ := aligned
      rw [Nat.mul_add_mod]
      exact Nat.mod_eq_of_lt (by omega)
    have place := fileOff_add multiple positive aligned (by omega : passed < blockSize)
    rw [List.length_cons, decodeBlock_round stored small (by omega) (by omega) (place ▸ held.1),
      Nat.add_assoc start, ih (passed + stored.bytes.length) (buffer ++ [stored.entry])]
    · simp
    · rw [← Nat.add_assoc]; exact held.2
    · omega
    · omega
    · simpa only [Nat.add_assoc] using stops

/-- The iterator with everything from `tail` on already decoded and handed out,
except for the entries in `buffer`. -/
private def rewound (j : Journal) (tail : ℕ) (buffer : List (StoreEntry T)) : JournalIterator T :=
  ⟨{ j.header with tail := tail }, j, buffer⟩

/-- Entries already in the block buffer come out last first. -/
private theorem drains_buffer (buffer : List (StoreEntry T))
    (rest : Drains (ReverseNext codec) (rewound j tail []) items) :
    Drains (ReverseNext codec) (rewound j tail buffer) (buffer.reverse.map .ok ++ items) := by
  induction buffer using List.reverseRecOn with
  | nil => simpa using rest
  | append_singleton buffer entry ih =>
    rw [List.reverse_append, List.reverse_singleton, List.singleton_append, List.map_cons,
      List.cons_append]
    refine .item ⟨0, ?_⟩ ih
    simp [reverseNext, rewound, popBuffer]

/-- One block is decoded at once, and its entries come out in reverse. -/
private theorem reverse_block (positive : 0 < j.size) (multiple : blockSize ∣ j.size)
    (aligned : blockSize ∣ start) (small : tail < 2 ^ 64) {entries : List (Stored codec)}
    (nonempty : entries ≠ []) (held : Holds j.file (j.fileOff start) (packed entries))
    (bound : start + (packed entries).length ≤ tail) (within : tail ≤ start + blockSize)
    (live : j.header.head ≤ start) (stops : Stops j tail (start + (packed entries).length))
    (rest : Drains (ReverseNext codec) (rewound j start []) items) :
    Drains (ReverseNext codec) (rewound j tail [])
      ((entries.map Stored.entry).reverse.map .ok ++ items) := by
  have filled := packed_length_pos nonempty
  have decoded := decodeBlock_entries positive multiple aligned small entries 0 []
    (by simpa using held) (by omega) (by simpa using bound) (by simpa using stops)
  simp only [Nat.add_zero, List.nil_append] at decoded
  have remainder : tail % blockSize = 0 → tail = start + blockSize := by
    intro zero
    obtain ⟨index, rfl⟩ := aligned
    obtain ⟨other, rfl⟩ := Nat.dvd_of_mod_eq_zero zero
    have above : index < other := Nat.lt_of_mul_lt_mul_left (a := blockSize) (by omega)
    have below : other ≤ index + 1 :=
      Nat.le_of_mul_le_mul_left (by rw [Nat.mul_succ]; exact within) blockSize_pos
    rw [show other = index + 1 by omega, Nat.mul_succ]
  have down : tail % blockSize ≠ 0 → alignDown tail blockSize = start := by
    intro partly
    obtain ⟨index, rfl⟩ := aligned
    have strict : tail < blockSize * index + blockSize := by
      rcases Nat.eq_or_lt_of_le within with full | strict
      · rw [full, ← Nat.mul_succ, Nat.mul_mod_right] at partly
        exact absurd rfl partly
      · exact strict
    have quotient : tail / blockSize = index := by
      rw [Nat.div_eq_iff blockSize_pos, Nat.mul_comm]
      omega
    rw [alignDown, quotient, Nat.mul_comm]
  have awake : ¬(j.header.head = tail ∨ tail = 0) := by omega
  have next : reverseNext codec (entries.length + 1) (rewound j tail []) =
      some (popBuffer (rewound j start (entries.map Stored.entry))) := by
    by_cases whole : tail % blockSize = 0
    · have back : usub tail blockSize = start := by
        have ends := remainder whole
        rw [usub_of_le (by omega) small]
        omega
      have later : tail ≠ 0 ∧ tail ≠ j.header.head := ⟨by omega, by omega⟩
      simp only [reverseNext, rewound, List.isEmpty_nil, ↓reduceIte, awake, whole, ne_eq,
        not_true_eq_false, back, decoded]
      rw [if_pos later]
    · simp only [reverseNext, rewound, List.isEmpty_nil, ↓reduceIte, awake, whole, ne_eq,
        not_false_eq_true, down whole, decoded]
  cases entries using List.reverseRecOn with
  | nil => exact absurd rfl nonempty
  | append_singleton entries stored =>
    have drained := drains_buffer (entries.map Stored.entry) rest
    rw [List.map_append, List.map_singleton, List.reverse_append, List.reverse_singleton,
      List.singleton_append, List.map_cons, List.cons_append]
    refine .item ⟨_, next.trans ?_⟩ drained
    simp [rewound, popBuffer]

theorem finishedRun_append {before rest : List (List (Stored codec))} :
    FinishedRun j start (before ++ rest) ↔
      FinishedRun j start before ∧ FinishedRun j (start + before.length * blockSize) rest := by
  induction before generalizing start with
  | nil => simp [FinishedRun]
  | cons entries before ih =>
    have regroup : start + (entries :: before).length * blockSize =
        start + blockSize + before.length * blockSize := by
      rw [List.length_cons, Nat.succ_mul]
      omega
    simp only [List.cons_append, FinishedRun, ih, regroup, and_assoc]

private theorem reverse_finished (positive : 0 < j.size) (multiple : blockSize ∣ j.size)
    (aligned : blockSize ∣ j.header.head) (before : List (List (Stored codec)))
    (run : FinishedRun j j.header.head before)
    (small : j.header.head + before.length * blockSize < 2 ^ 64) :
    Drains (ReverseNext codec) (rewound j (j.header.head + before.length * blockSize) [])
      ((entriesOf before).reverse.map .ok) := by
  induction before using List.reverseRecOn with
  | nil =>
    refine .done ⟨0, (?_ : _ = some (none, rewound j j.header.head []))⟩
    simp [reverseNext, rewound]
  | append_singleton before entries ih =>
    obtain ⟨earlier, ⟨finished, _⟩⟩ := finishedRun_append.mp run
    rw [List.length_append, List.length_singleton, Nat.succ_mul, ← Nat.add_assoc] at small ⊢
    have aligned' : blockSize ∣ j.header.head + before.length * blockSize :=
      Nat.dvd_add aligned (Nat.dvd_mul_left _ _)
    have fits := finished.fits
    have stops : Stops j (j.header.head + before.length * blockSize + blockSize)
        (j.header.head + before.length * blockSize + (packed entries).length) := by
      rcases finished.closed with spare | marker
      · exact Or.inl (by rw [usub_of_le (by omega) small]; omega)
      · rcases Nat.eq_or_lt_of_le fits with full | partly
        · exact Or.inl (by rw [usub_of_le (by omega) small]; omega)
        · exact Or.inr (by rw [fileOff_add multiple positive aligned' partly]; exact marker)
    have drained := reverse_block positive multiple aligned' small finished.nonempty finished.held
      (by omega) le_rfl (by omega) stops (ih earlier (by omega))
    simpa [entriesOf] using drained

/-- Reading in reverse hands out every entry of the layout, last first, and stops. -/
theorem reverse_drains {blocks : List (List (Stored codec))} (laid : WellLaid codec j blocks) :
    Drains (ReverseNext codec) j.readReverse ((entriesOf blocks).reverse.map .ok) := by
  cases laid.blocks with
  | empty none_live =>
    refine .done ⟨0, (?_ : _ = some (none, j.readReverse))⟩
    simp [reverseNext, Journal.readReverse, none_live]
  | @filled before last finished current =>
    have ends := current.ends
    have fits := current.fits
    have tail_lt := laid.tail_lt
    have earlier := reverse_finished laid.size_pos laid.size_dvd laid.head_dvd before finished
      (by omega)
    have drained := reverse_block laid.size_pos laid.size_dvd
      (Nat.dvd_add laid.head_dvd (Nat.dvd_mul_left _ _)) tail_lt current.nonempty current.held
      (by omega) (by omega) (by omega) (Or.inl (by rw [usub_of_le (by omega) tail_lt]; omega)) earlier
    simpa [entriesOf, rewound, Journal.readReverse] using drained

end Reverse

/-- **Forward and reverse reading agree.** On every state with the block layout
both iterators come to an end with nothing but entries, and the reverse one
hands out the entries of the forward one in the opposite order. -/
theorem forward_reverse_agree {blocks : List (List (Stored codec))} (laid : WellLaid codec j blocks) :
    Drains (ForwardNext codec) j.readForward ((entriesOf blocks).map .ok) ∧
      Drains (ReverseNext codec) j.readReverse ((entriesOf blocks).reverse.map .ok) :=
  ⟨forward_drains laid, reverse_drains laid⟩

/-- The entry of an empty payload, as it is written first. -/
def emptyPayload : Stored byteVec where
  bytes := [24, 0, 0, 0] ++ List.replicate 16 0 ++ [26, 230, 200, 114]
  entry := ⟨24, 0, .payload ⟨[], by decide⟩, 1925768730⟩
  decodes := by decide +kernel
  fsize_eq := by decide
  crc_eq := by decide +kernel

/-- A journal of one block that holds this entry and nothing else. -/
def loneEntry : Journal where
  header := ⟨24, 0, 1, .forward⟩
  size := blockSize
  file := List.replicate 24 0 ++ (emptyPayload.bytes ++ List.replicate (blockSize - 24) 0)
  sync := false
  lastTime := ⟨0, 0, Nat.two_pow_pos 64, Nat.pow_pos (by decide)⟩

theorem lone_entry_read_both_ways :
    Drains (ForwardNext byteVec) loneEntry.readForward [.ok emptyPayload.entry] ∧
      Drains (ReverseNext byteVec) loneEntry.readReverse [.ok emptyPayload.entry] := by
  have held : Holds loneEntry.file 24 (packed [emptyPayload]) := by
    intro i inside
    rw [packed_cons, packed_nil, List.append_nil] at inside ⊢
    rw [loneEntry, List.getElem?_append_right (by rw [List.length_replicate]; omega),
      List.length_replicate, Nat.add_sub_cancel_left, List.getElem?_append_left inside]
  have current : Current loneEntry 0 [emptyPayload] :=
    ⟨List.cons_ne_nil _ _, held, by rw [blockSize_eq]; decide, rfl⟩
  have laid : WellLaid byteVec loneEntry ([] ++ [[emptyPayload]]) :=
    ⟨blockSize_pos, Nat.dvd_refl _, Nat.dvd_zero _, Nat.zero_le _,
      (by rw [blockSize_eq]; decide : 24 ≤ 0 + blockSize), (by decide : 24 < 2 ^ 64),
      .filled trivial (by rw [List.length_nil, Nat.zero_mul]; exact current)⟩
  exact forward_reverse_agree laid

end Fsyncer.JournalLayout
