import Fsyncer.JournalLayout

/-! What one `write_inner` does to the header and to the file, and that the
entry it leaves behind can be read back. -/
namespace Fsyncer.JournalWrite
open Fsyncer.ByteFile Fsyncer.Crc32 Fsyncer.Machine Fsyncer.Wire Fsyncer.JournalStore
open Fsyncer.JournalLayout

variable {T : Type} {codec : Codec T} {j j' : Journal} {e : StoreEntry T}

section RoundTrip

theorem takeLe_u32 (word : UInt32) (rest : List UInt8) :
    takeLe 4 (leBytes 4 word.toNat ++ rest) = some (word.toNat, rest) :=
  takeLe_leBytes_of_lt 4 word.toNat_lt rest

private theorem systemTime_self (moment : SystemTime) :
    systemTime moment.secs moment.nanos = some moment := by
  have carry : moment.nanos / 10 ^ 9 = 0 := Nat.div_eq_of_lt moment.nanos_lt
  have rest : moment.nanos % 10 ^ 9 = moment.nanos := Nat.mod_eq_of_lt moment.nanos_lt
  simp only [systemTime, carry, rest, Nat.add_zero, moment.secs_lt, ↓reduceDIte]

theorem decodeContent_encode (content : EntryContent T) (rest : List UInt8) :
    decodeContent codec (encodeContent codec content ++ rest) = some (content, rest) := by
  have tag (index : ℕ) (small : index < 2) (rest : List UInt8) :=
    takeLe_leBytes_of_lt 4 (by omega : index < 256 ^ 4) rest
  cases content with
  | payload value =>
    simp [decodeContent, encodeContent, tag, codec.decode_encode]
  | time moment =>
    have secs := takeLe_leBytes_of_lt 8 moment.secs_lt
    have nanos := takeLe_leBytes_of_lt 4
      (by have := moment.nanos_lt; omega : moment.nanos < 256 ^ 4)
    simp [decodeContent, encodeContent, tag, secs, nanos, systemTime_self]

theorem deserialize_encodeEntry (entry : StoreEntry T) :
    deserialize codec (encodeEntry codec entry) = some entry := by
  have last := takeLe_u32 entry.crc32 []
  rw [List.append_nil] at last
  simp [deserialize, encodeEntry, takeLe_u32, decodeContent_encode, last]

/-- The length of a serialised entry does not depend on the two fields that are
filled in while it is written. -/
theorem length_encodeEntry (entry : StoreEntry T) :
    (encodeEntry codec entry).length = 12 + (encodeContent codec entry.inner).length := by
  simp only [encodeEntry, List.length_append, length_leBytes]
  omega

/-- The header survives being written down, as long as its offsets are 64-bit. -/
theorem decodeHeader_encodeHeader (header : JournalHeader) (tail_lt : header.tail < 2 ^ 64)
    (head_lt : header.head < 2 ^ 64) (rest : List UInt8) :
    decodeHeader (encodeHeader header ++ rest) = some header := by
  have tail := takeLe_leBytes_of_lt 8 tail_lt
  have head := takeLe_leBytes_of_lt 8 head_lt
  have index := takeLe_leBytes_of_lt 4
    (by cases header.ty <;> decide : header.ty.index < 256 ^ 4)
  have kind : JournalType.ofIndex header.ty.index = some header.ty := by cases header.ty <;> rfl
  simp [decodeHeader, encodeHeader, takeLe_u32, tail, head, index, kind]

@[simp] theorem length_encodeHeader (header : JournalHeader) :
    (encodeHeader header).length = 24 := by
  simp [encodeHeader]

end RoundTrip

/-- The entry as it stands in the journal: `write_inner` fills in the length,
and the checksum of everything before the checksum. -/
def sealedEntry (codec : Codec T) (e : StoreEntry T) : StoreEntry T :=
  let sized := { e with fsize := UInt32.ofNat (encodeEntry codec e).length }
  let sbuf := encodeEntry codec sized
  { sized with crc32 := checksumIeee (sbuf.take (sbuf.length - 4)) }

private theorem encodeEntry_body (entry : StoreEntry T) :
    (encodeEntry codec entry).take ((encodeEntry codec entry).length - 4) =
      leBytes 4 entry.fsize.toNat ++ leBytes 4 entry.transId.toNat ++
        encodeContent codec entry.inner := by
  have split : encodeEntry codec entry = (leBytes 4 entry.fsize.toNat ++
    leBytes 4 entry.transId.toNat ++ encodeContent codec entry.inner) ++
      leBytes 4 entry.crc32.toNat := rfl
  rw [split]
  exact List.take_left' (by simp only [List.length_append, length_leBytes]; omega)

private theorem encodeEntry_trailer (entry : StoreEntry T) :
    (encodeEntry codec entry).drop ((encodeEntry codec entry).length - 4) =
      leBytes 4 entry.crc32.toNat := by
  have split : encodeEntry codec entry = (leBytes 4 entry.fsize.toNat ++
    leBytes 4 entry.transId.toNat ++ encodeContent codec entry.inner) ++
      leBytes 4 entry.crc32.toNat := rfl
  rw [split]
  exact List.drop_left' (by simp only [List.length_append, length_leBytes]; omega)

theorem sealBytes_encodeEntry (e : StoreEntry T) :
    sealBytes (encodeEntry codec { e with fsize := UInt32.ofNat (encodeEntry codec e).length }) =
      encodeEntry codec (sealedEntry codec e) := by
  simp only [sealBytes, sealedEntry, encodeEntry_body]
  rfl

theorem length_sealedEntry (e : StoreEntry T) :
    (encodeEntry codec (sealedEntry codec e)).length = (encodeEntry codec e).length := by
  rw [length_encodeEntry, length_encodeEntry]
  rfl

/-- The sealed entry is a whole one, whenever it is small enough to be written. -/
def storedEntry (codec : Codec T) (e : StoreEntry T)
    (small : (encodeEntry codec e).length < blockSize) : Stored codec where
  bytes := encodeEntry codec (sealedEntry codec e)
  entry := sealedEntry codec e
  decodes := deserialize_encodeEntry _
  fsize_eq := by
    rw [length_sealedEntry]
    simp only [sealedEntry, UInt32.toNat_ofNat']
    exact Nat.mod_eq_of_lt (by rw [blockSize_eq] at small; omega)
  crc_eq := by
    have whole : (sealedEntry codec e).crc32.toNat % 256 ^ 4 = (sealedEntry codec e).crc32.toNat :=
      Nat.mod_eq_of_lt (sealedEntry codec e).crc32.toNat_lt
    rw [encodeEntry_trailer, encodeEntry_body, leValue_leBytes, whole]
    simp only [sealedEntry, encodeEntry_body]

theorem length_storedEntry (e : StoreEntry T) (small : (encodeEntry codec e).length < blockSize) :
    (storedEntry codec e small).bytes.length = (encodeEntry codec e).length := length_sealedEntry e

theorem storedEntry_transId (e : StoreEntry T) (small : (encodeEntry codec e).length < blockSize) :
    (storedEntry codec e small).entry.transId = e.transId := rfl

section Steps

/-- The head once the current block is given up. -/
def closedHead (j : Journal) : ℕ :=
  if u64 (j.header.head + j.size) = alignUpAlways j.header.tail blockSize
  then u64 (j.header.head + blockSize) else j.header.head

/-- The header once the current block is given up. -/
def closedHeader (j : Journal) : JournalHeader where
  tail := alignUpAlways j.header.tail blockSize
  head := closedHead j
  transCtr := j.header.transCtr
  ty := j.header.ty

@[simp] theorem closedHeader_tail (j : Journal) :
    (closedHeader j).tail = alignUpAlways j.header.tail blockSize := rfl

@[simp] theorem closedHeader_transCtr (j : Journal) :
    (closedHeader j).transCtr = j.header.transCtr := by rw [closedHeader]

@[simp] theorem closedHeader_ty (j : Journal) : (closedHeader j).ty = j.header.ty := by
  rw [closedHeader]

/-- The journal with one more entry at its tail. -/
def landed (j : Journal) (bytes : List UInt8) : Journal :=
  { j with
    file := splice j.file (j.fileOff j.header.tail) bytes
    header := { j.header with
      tail := u64 (j.header.tail + bytes.length), transCtr := j.header.transCtr + 1 } }

@[simp] theorem landed_head (j : Journal) (bytes : List UInt8) :
    (landed j bytes).header.head = j.header.head := rfl

@[simp] theorem landed_transCtr (j : Journal) (bytes : List UInt8) :
    (landed j bytes).header.transCtr = j.header.transCtr + 1 := rfl

@[simp] theorem landed_ty (j : Journal) (bytes : List UInt8) :
    (landed j bytes).header.ty = j.header.ty := rfl

@[simp] theorem landed_size (j : Journal) (bytes : List UInt8) : (landed j bytes).size = j.size := rfl

@[simp] theorem landed_file (j : Journal) (bytes : List UInt8) :
    (landed j bytes).file = splice j.file (j.fileOff j.header.tail) bytes := rfl

@[simp] theorem landed_fileOff (j : Journal) (bytes : List UInt8) (off : ℕ) :
    (landed j bytes).fileOff off = j.fileOff off := rfl

@[simp] theorem landed_lastTime (j : Journal) (bytes : List UInt8) :
    (landed j bytes).lastTime = j.lastTime := rfl

theorem landed_tail (small : j.header.tail + bytes.length < 2 ^ 64) :
    (landed j bytes).header.tail = j.header.tail + bytes.length := u64_of_lt small

private theorem writeHeader_ok (wrote : j.writeHeader = .ok j') :
    j' = { j with file := splice j.file 0 (encodeHeader j.header) } := by
  obtain ⟨file, stored, same⟩ := bind_ok.mp wrote
  cases same
  rcases writeAllAt_ok (traced_ok stored) with ⟨empty, _⟩ | ⟨_, _, rfl⟩
  · have long := length_encodeHeader j.header
    simp [empty] at long
  · rfl

theorem closeBlock_ok (closed : j.closeBlock space = .ok j') :
    ∃ file, (4 ≤ space ∧ file = splice j.file (j.fileOff j.header.tail) [0, 0, 0, 0] ∨
        space < 4 ∧ file = j.file) ∧
      j' = { j with
        file := splice file 0 (encodeHeader (closedHeader j)), header := closedHeader j } := by
  rw [Journal.closeBlock] at closed
  split at closed
  · next room =>
    obtain ⟨file, marked, wrote⟩ := bind_ok.mp closed
    refine ⟨file, Or.inl ⟨room, ?_⟩, writeHeader_ok wrote⟩
    rcases writeAllAt_ok (traced_ok marked) with ⟨empty, _⟩ | ⟨_, _, same⟩
    · cases empty
    · exact same
  · next room =>
    exact ⟨j.file, Or.inr ⟨by omega, rfl⟩, writeHeader_ok closed⟩

private theorem layDown_ok (small : (encodeEntry codec e).length < blockSize)
    (wrote : j.layDown (encodeEntry codec (sealedEntry codec e)) (encodeEntry codec e).length = .ok j') :
    j' = landed j (storedEntry codec e small).bytes := by
  obtain ⟨file, stored, same⟩ := bind_ok.mp wrote
  cases same
  rcases writeAllAt_ok (traced_ok stored) with ⟨empty, _⟩ | ⟨_, _, rfl⟩
  · have long := @length_encodeEntry _ codec (sealedEntry codec e)
    rw [empty, List.length_nil] at long
    omega
  · simp only [landed, storedEntry, length_sealedEntry]

/-- A successful `write_inner` closes the block if the entry does not fit, and
then lays the sealed entry down at the tail. -/
theorem writeInner_ok (tail_lt : j.header.tail < 2 ^ 64) (wrote : j.writeInner codec e = .ok j') :
    ∃ (small : (encodeEntry codec e).length < blockSize) (opened : Journal),
      (blockSize - j.header.tail % blockSize < (encodeEntry codec e).length ∧
          j.closeBlock (blockSize - j.header.tail % blockSize) = .ok opened ∨
        (encodeEntry codec e).length ≤ blockSize - j.header.tail % blockSize ∧ opened = j) ∧
      j' = landed opened (storedEntry codec e small).bytes := by
  simp only [Journal.writeInner, space_in_block tail_lt, sealBytes_encodeEntry] at wrote
  split at wrote
  · next small =>
    split at wrote
    · next tight =>
      obtain ⟨opened, closed, wrote⟩ := bind_ok.mp wrote
      exact ⟨small, opened, Or.inl ⟨tight, closed⟩, layDown_ok small wrote⟩
    · next roomy => exact ⟨small, j, Or.inr ⟨by omega, rfl⟩, layDown_ok small wrote⟩
  · cases wrote

private theorem writeAllAt_succeeds (file : File) (bytes : List UInt8)
    (small : offset + bytes.length ≤ offMax) :
    ∃ written, traced (writeAllAt file bytes offset) = .ok written := by
  rw [writeAllAt, if_pos small]
  split <;> exact ⟨_, rfl⟩

theorem alignUpAlways_mod (off : ℕ) : alignUpAlways off blockSize % blockSize = 0 := by
  simp only [alignUpAlways, u64, blockSize_eq]
  omega

/-- What lies inside one block stays below the largest offset. -/
def Roomy (j : Journal) : Prop :=
  ∀ off count, off % blockSize + count ≤ blockSize → j.fileOff off + count ≤ offMax

/-- Where every block has its place in the file, every small entry can be written. -/
theorem Roomy.writeInner (roomy : Roomy j) (tail_lt : j.header.tail < 2 ^ 64)
    (small : (encodeEntry codec e).length < blockSize) : ∃ j', j.writeInner codec e = .ok j' := by
  have value := blockSize_eq
  have below := Nat.mod_lt j.header.tail blockSize_pos
  have lay {opened : Journal} (size : opened.size = j.size)
      (fits : opened.header.tail % blockSize + (encodeEntry codec e).length ≤ blockSize) : ∃ j',
      opened.layDown (encodeEntry codec (sealedEntry codec e)) (encodeEntry codec e).length = .ok j' := by
    have inside := roomy _ _ fits
    obtain ⟨file, wrote⟩ := writeAllAt_succeeds opened.file (encodeEntry codec (sealedEntry codec e))
      (by rw [length_sealedEntry]; omega : j.fileOff opened.header.tail + _ ≤ offMax)
    rw [Journal.fileOff, ← size] at wrote
    exact ⟨_, bind_ok.mpr ⟨file, wrote, rfl⟩⟩
  simp only [Journal.writeInner, space_in_block tail_lt, sealBytes_encodeEntry, if_pos small]
  split
  · have header (file : File) := writeAllAt_succeeds file (encodeHeader (closedHeader j))
      (by rw [length_encodeHeader, offMax]; omega : 0 + _ ≤ offMax)
    have closed : ∃ opened, j.closeBlock (blockSize - j.header.tail % blockSize) = .ok opened ∧
        opened.size = j.size ∧ opened.header.tail = alignUpAlways j.header.tail blockSize := by
      rw [Journal.closeBlock]
      split
      · obtain ⟨marked, wrote⟩ := writeAllAt_succeeds j.file [0, 0, 0, 0]
          (roomy j.header.tail 4 (by omega) : j.fileOff j.header.tail + _ ≤ offMax)
        obtain ⟨file, headed⟩ := header marked
        exact ⟨_, bind_ok.mpr ⟨marked, wrote, bind_ok.mpr ⟨file, headed, rfl⟩⟩, rfl, rfl⟩
      · obtain ⟨file, headed⟩ := header j.file
        exact ⟨_, bind_ok.mpr ⟨j.file, rfl, bind_ok.mpr ⟨file, headed, rfl⟩⟩, rfl, rfl⟩
    obtain ⟨opened, closed, size, tail⟩ := closed
    obtain ⟨j', wrote⟩ := lay size (by rw [tail, alignUpAlways_mod]; omega)
    exact ⟨j', bind_ok.mpr ⟨opened, closed, wrote⟩⟩
  · exact lay rfl (by omega)

/-- In a file well below the largest offset every small entry can be written. -/
theorem writeInner_succeeds (tail_lt : j.header.tail < 2 ^ 64) (size_pos : 0 < j.size)
    (small : (encodeEntry codec e).length < blockSize)
    (signed : headerSize + j.size + blockSize ≤ offMax) : ∃ j', j.writeInner codec e = .ok j' := by
  have roomy : Roomy j := by
    intro off count fits
    have inside := Nat.mod_lt off size_pos
    rw [Journal.fileOff]
    omega
  exact roomy.writeInner tail_lt small

end Steps

section Ring

/-- A ring of whole blocks that the file has room for. -/
structure Ring (j : Journal) : Prop where
  size_pos : 0 < j.size
  size_dvd : blockSize ∣ j.size
  covers : headerSize + j.size ≤ j.file.length

/-- The bytes at the logical offsets from `low` up to `high` are the same in
both files. -/
def Untouched (j j' : Journal) (low high : ℕ) : Prop :=
  ∀ off, low ≤ off → off < high → j'.file[j.fileOff off]? = j.file[j.fileOff off]?

theorem Ring.fileOff_lt (ring : Ring j) (off : ℕ) : j.fileOff off < j.file.length := by
  have inside := Nat.mod_lt off ring.size_pos
  have covers := ring.covers
  rw [Journal.fileOff]
  omega

theorem mod_of_block (aligned : blockSize ∣ start) (inside : i < blockSize) :
    (start + i) % blockSize = i := by
  rw [Nat.add_mod, Nat.mod_eq_zero_of_dvd aligned, Nat.zero_add, Nat.mod_mod]
  exact Nat.mod_eq_of_lt inside

/-- Different offsets less than a lap apart lie in different places of the file. -/
theorem fileOff_ne (later : off < off') (lap : off' < off + j.size) :
    j.fileOff off ≠ j.fileOff off' := by
  intro same
  have congruent : off' % j.size = off % j.size := by
    simp only [Journal.fileOff] at same
    omega
  have gap := Nat.sub_mod_eq_zero_of_mod_eq congruent
  rw [Nat.mod_eq_of_lt (by omega)] at gap
  omega

theorem fileOff_add_within (ring : Ring j) (within : off % blockSize + i < blockSize) :
    j.fileOff (off + i) = j.fileOff off + i := by
  have aligned : blockSize ∣ blockSize * (off / blockSize) := Nat.dvd_mul_right _ _
  have far := fileOff_add ring.size_dvd ring.size_pos aligned within
  have near := fileOff_add ring.size_dvd ring.size_pos aligned (by omega : off % blockSize < blockSize)
  rw [← Nat.add_assoc, Nat.div_add_mod] at far
  rw [Nat.div_add_mod] at near
  omega

/-- A write inside one block reaches none of the bytes of the lap that ends
with the write. -/
theorem untouched_splice (ring : Ring j) (fits : off % blockSize + bytes.length ≤ blockSize)
    (file : j'.file = splice j.file (j.fileOff off) bytes) (lap : off + bytes.length ≤ low + j.size) :
    Untouched j j' low off := by
  intro position above below
  rw [file]
  refine getElem?_splice_outside (ring.fileOff_lt position) ?_
  by_contra inside
  have place := fileOff_add_within ring
    (by omega : off % blockSize + (j.fileOff position - j.fileOff off) < blockSize)
  exact fileOff_ne (j := j) (by omega : position < off + (j.fileOff position - j.fileOff off)) (by omega)
    (by omega)

theorem untouched_header (ring : Ring j) (short : bytes.length ≤ headerSize)
    (file : j'.file = splice j.file 0 bytes) : Untouched j j' low high := by
  intro off _ _
  rw [file]
  refine getElem?_splice_outside (ring.fileOff_lt off) (Or.inr ?_)
  rw [Journal.fileOff]
  omega

theorem Untouched.mono (untouched : Untouched j j' low high) (lower : low ≤ low')
    (higher : high' ≤ high) : Untouched j j' low' high' :=
  fun off above below => untouched off (by omega) (by omega)

theorem Untouched.trans (first : Untouched j j' low high) (second : Untouched j' j'' low high)
    (size : j'.size = j.size) : Untouched j j'' low high := by
  intro off above below
  have same : j'.fileOff off = j.fileOff off := by rw [Journal.fileOff, size]; rfl
  rw [← first off above below, ← same]
  exact second off above below

/-- What lies inside one block of an untouched stretch is still there. -/
theorem Untouched.holds (untouched : Untouched j j' low high) (ring : Ring j)
    (size : j'.size = j.size) (fits : off % blockSize + bytes.length ≤ blockSize) (above : low ≤ off)
    (below : off + bytes.length ≤ high) (held : Holds j.file (j.fileOff off) bytes) :
    Holds j'.file (j'.fileOff off) bytes := by
  intro i small
  have same : j'.fileOff off = j.fileOff off := by rw [Journal.fileOff, size]; rfl
  have place := fileOff_add_within ring (by omega : off % blockSize + i < blockSize)
  rw [same, ← place, untouched _ (by omega) (by omega), place]
  exact held i small

theorem Untouched.holds_start (untouched : Untouched j j' low high) (ring : Ring j)
    (size : j'.size = j.size) (aligned : blockSize ∣ start) (above : low ≤ start)
    (fits : bytes.length ≤ blockSize) (below : start + bytes.length ≤ high)
    (held : Holds j.file (j.fileOff start) bytes) : Holds j'.file (j'.fileOff start) bytes :=
  untouched.holds ring size (by rw [Nat.mod_eq_zero_of_dvd aligned]; omega) above below held

theorem Untouched.finishedRun (untouched : Untouched j j' low high) (ring : Ring j)
    (size : j'.size = j.size) (aligned : blockSize ∣ start) (above : low ≤ start)
    {blocks : List (List (Stored codec))} (below : start + blocks.length * blockSize ≤ high)
    (run : FinishedRun j start blocks) : FinishedRun j' start blocks := by
  induction blocks generalizing start with
  | nil => trivial
  | cons entries blocks ih =>
    rw [List.length_cons, Nat.succ_mul] at below
    obtain ⟨finished, rest⟩ := run
    have fits := finished.fits
    refine ⟨⟨finished.nonempty, ?_, fits, ?_⟩,
      ih (Nat.dvd_add aligned (Nat.dvd_refl _)) (by omega) (by omega) rest⟩
    · exact untouched.holds_start ring size aligned above fits (by omega) finished.held
    · rcases finished.closed with spare | marker
      · exact Or.inl spare
      · by_cases spare : blockSize - (packed entries).length < 4
        · exact Or.inl spare
        · have within := mod_of_block aligned (by omega : (packed entries).length < blockSize)
          have same : j'.fileOff start = j.fileOff start := by rw [Journal.fileOff, size]; rfl
          rw [← fileOff_add ring.size_dvd ring.size_pos aligned (by omega)] at marker
          have kept := untouched.holds ring size (by simp only [List.length_cons, List.length_nil]; omega)
            (by omega) (by simp only [List.length_cons, List.length_nil]; omega) marker
          refine Or.inr ?_
          rw [same, ← fileOff_add ring.size_dvd ring.size_pos aligned (by omega)]
          simpa only [Journal.fileOff, size] using kept

theorem Ring.grow (ring : Ring j) (size : j'.size = j.size)
    (longer : j.file.length ≤ j'.file.length) : Ring j' :=
  ⟨size ▸ ring.size_pos, size ▸ ring.size_dvd, by rw [size]; exact ring.covers.trans longer⟩

theorem Ring.landed (ring : Ring j) (bytes : List UInt8) : Ring (landed j bytes) :=
  ring.grow rfl (by rw [landed_file, length_splice]; omega)

/-- The next block boundary above an offset, away from the end of the 64-bit range. -/
theorem alignUpAlways_off (small : off + blockSize < 2 ^ 64) :
    alignUpAlways off blockSize = off + (blockSize - off % blockSize) := by
  have split := Nat.div_add_mod off blockSize
  have below := Nat.mod_lt off blockSize_pos
  have boundary : (off / blockSize + 1) * blockSize = blockSize * (off / blockSize) + blockSize := by
    rw [Nat.succ_mul, Nat.mul_comm]
  rw [alignUpAlways_eq (by omega)]
  omega

/-- A write inside one block does not make the file longer. -/
theorem length_splice_within (ring : Ring j) (fits : off % blockSize + bytes.length ≤ blockSize) :
    (splice j.file (j.fileOff off) bytes).length = j.file.length := by
  rw [length_splice]
  rcases Nat.eq_zero_or_pos bytes.length with empty | positive
  · have inside := ring.fileOff_lt off
    omega
  · have last := fileOff_add_within ring (by omega : off % blockSize + (bytes.length - 1) < blockSize)
    have inside := ring.fileOff_lt (off + (bytes.length - 1))
    omega

/-- What closing a block does to the file: the header is on disk, the block
carries its zero length if that fits, and the lap behind the tail is as before. -/
structure ClosedTo (j opened : Journal) : Prop where
  ring : Ring opened
  size : opened.size = j.size
  length : opened.file.length = j.file.length
  header : opened.header = closedHeader j
  lastTime : opened.lastTime = j.lastTime
  persisted : Holds opened.file 0 (encodeHeader (closedHeader j))
  marker : 4 ≤ blockSize - j.header.tail % blockSize →
    Holds opened.file (j.fileOff j.header.tail) [0, 0, 0, 0]
  untouched : ∀ low, j.header.tail + (blockSize - j.header.tail % blockSize) ≤ low + j.size →
    Untouched j opened low j.header.tail

theorem closedTo_of_marked {file : File} (ring : Ring j)
    (marked : 4 ≤ blockSize - j.header.tail % blockSize ∧
        file = splice j.file (j.fileOff j.header.tail) [0, 0, 0, 0] ∨
      blockSize - j.header.tail % blockSize < 4 ∧ file = j.file) :
    ClosedTo j { j with
      file := splice file 0 (encodeHeader (closedHeader j)), header := closedHeader j } := by
  have header_length : (encodeHeader (closedHeader j)).length = headerSize := by
    rw [length_encodeHeader, headerSize_eq]
  have marked_length : file.length = j.file.length := by
    rcases marked with ⟨room, rfl⟩ | ⟨_, rfl⟩
    · have below := Nat.mod_lt j.header.tail blockSize_pos
      exact length_splice_within ring (by simp only [List.length_cons, List.length_nil]; omega)
    · rfl
  have marked_ring : Ring { j with file := file } := ring.grow rfl marked_length.ge
  have covers := ring.covers
  refine ⟨marked_ring.grow rfl (by rw [length_splice]; exact Nat.le_max_left _ _), rfl, ?_, rfl, rfl,
    holds_splice_self _ _ _, fun room => ?_, fun low lap => ?_⟩
  · rw [length_splice, header_length, Nat.zero_add, ← marked_length]
    exact Nat.max_eq_left (by omega)
  · rcases marked with ⟨_, rfl⟩ | ⟨tight, _⟩
    · refine (holds_splice_self _ _ _).splice (Or.inr ?_)
      rw [header_length, Journal.fileOff]
      omega
    · omega
  · have rewritten : Untouched { j with file := file }
        { j with file := splice file 0 (encodeHeader (closedHeader j)), header := closedHeader j }
        low j.header.tail := untouched_header marked_ring (by omega) rfl
    rcases marked with ⟨room, rfl⟩ | ⟨_, rfl⟩
    · have zeros : Untouched j
          { j with file := splice j.file (j.fileOff j.header.tail) [0, 0, 0, 0] } low j.header.tail :=
        untouched_splice ring (by simp only [List.length_cons, List.length_nil]; omega) rfl
          (by simp only [List.length_cons, List.length_nil]; omega)
      exact zeros.trans rewritten rfl
    · exact rewritten

theorem closedTo_of_closeBlock (ring : Ring j)
    (closed : j.closeBlock (blockSize - j.header.tail % blockSize) = .ok opened) :
    ClosedTo j opened := by
  obtain ⟨file, marked, rfl⟩ := closeBlock_ok closed
  exact closedTo_of_marked ring marked

theorem ClosedTo.tail (closed : ClosedTo j opened) (small : j.header.tail + blockSize < 2 ^ 64) :
    opened.header.tail = j.header.tail + (blockSize - j.header.tail % blockSize) := by
  rw [closed.header, closedHeader_tail, alignUpAlways_off small]

/-- The head moves by one block exactly when the new tail is a whole lap ahead. -/
theorem ClosedTo.head (closed : ClosedTo j opened) (small : j.header.tail + blockSize < 2 ^ 64)
    (head_le : j.header.head ≤ j.header.tail) (size_lt : j.size < 2 ^ 64) :
    opened.header.head = if opened.header.tail = j.header.head + j.size
      then j.header.head + blockSize else j.header.head := by
  have tail := alignUpAlways_off small
  have lap : u64 (j.header.head + j.size) = j.header.tail + (blockSize - j.header.tail % blockSize) ↔
      j.header.tail + (blockSize - j.header.tail % blockSize) = j.header.head + j.size := by
    have below := Nat.mod_lt j.header.tail blockSize_pos
    rw [u64]
    omega
  rw [closed.tail small, closed.header]
  simp only [closedHeader, closedHead, tail, lap, u64_of_lt (by omega : j.header.head + blockSize < 2 ^ 64)]

end Ring

end Fsyncer.JournalWrite
