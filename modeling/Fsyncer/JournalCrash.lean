import Fsyncer.JournalRecovery
import Fsyncer.JournalStep

/-! A crash inside `write_inner` on the first lap over a blank file: what the
interrupted call can have left on disk, and what `Journal::open` makes of it. -/
namespace Fsyncer.JournalCrash
open Fsyncer.ByteFile Fsyncer.Machine Fsyncer.Wire Fsyncer.JournalStore
open Fsyncer.JournalLayout Fsyncer.JournalWrite Fsyncer.JournalRun Fsyncer.JournalRetention
open Fsyncer.JournalRecovery Fsyncer.JournalStep

variable {T : Type} {codec : Codec T} {j j' : Journal} {e : StoreEntry T}

instance (file : File) (offset : ℕ) (bytes : List UInt8) : Decidable (Holds file offset bytes) :=
  inferInstanceAs (Decidable (∀ i < bytes.length, file[offset + i]? = bytes[i]?))

section Interruption

/-- The bytes of the entry as they are to stand on disk. -/
def Write.bytes (codec : Codec T) (write : Write T) : List UInt8 :=
  encodeEntry codec (sealedEntry codec write.entry)

/-- Every byte of the entry is on disk. -/
def Write.OnDisk (codec : Codec T) (disk : File) (write : Write T) : Prop :=
  Holds disk (write.before.fileOff (write.offset codec)) (Write.bytes codec write)

instance (disk : File) (write : Write T) : Decidable (Write.OnDisk codec disk write) :=
  inferInstanceAs (Decidable (Holds _ _ _))

/-- Positioned writes, one after the other. -/
def play (file : File) (writes : List (ℕ × List UInt8)) : File :=
  writes.foldl (fun file write => splice file write.1 write.2) file

/-- The writes that give up the block of the tail: its zero length, if there is
room for one, and the header. -/
def closingWrites (codec : Codec T) (write : Write T) : List (ℕ × List UInt8) :=
  let j := write.before
  if write.closes codec then
    (if 4 ≤ usub (alignUpAlways j.header.tail blockSize) j.header.tail
      then [(j.fileOff j.header.tail, [0, 0, 0, 0])] else []) ++
    [(0, encodeHeader (closedHeader j))]
  else []

/-- `Torn codec write disk`: the call was cut off between two of its writes, or
inside the last one, which is the entry's. -/
inductive Torn (codec : Codec T) (write : Write T) : File → Prop where
  | closing (made : writes <+: closingWrites codec write) :
      Torn codec write (play write.before.file writes)
  | entry (count : ℕ) : Torn codec write
      (splice (play write.before.file (closingWrites codec write))
        (write.before.fileOff (write.offset codec)) ((Write.bytes codec write).take count))

/-- The journal with another file and header. -/
def revised (j : Journal) (file : File) (header : JournalHeader) : Journal := { j with file, header }

@[simp] theorem revised_file (j : Journal) (file : File) (header : JournalHeader) :
    (revised j file header).file = file := rfl

@[simp] theorem revised_header (j : Journal) (file : File) (header : JournalHeader) :
    (revised j file header).header = header := rfl

@[simp] theorem revised_size (j : Journal) (file : File) (header : JournalHeader) :
    (revised j file header).size = j.size := rfl

@[simp] theorem revised_fileOff (j : Journal) (file : File) (header : JournalHeader) (off : ℕ) :
    (revised j file header).fileOff off = j.fileOff off := rfl

@[simp] theorem revised_lastTime (j : Journal) (file : File) (header : JournalHeader) :
    (revised j file header).lastTime = j.lastTime := rfl

/-- The journal once the closing writes are done. -/
def opened (codec : Codec T) (write : Write T) : Journal :=
  revised write.before (play write.before.file (closingWrites codec write))
    (if write.closes codec then closedHeader write.before else write.before.header)

theorem closes_iff {write : Write T} (tail_lt : write.before.header.tail < 2 ^ 64) :
    write.closes codec = true ↔
      blockSize - write.before.header.tail % blockSize < (encodeEntry codec write.entry).length := by
  simp only [Write.closes, space_in_block tail_lt, decide_eq_true_eq]

theorem place_of_closes (small : j.header.tail + blockSize < 2 ^ 64)
    (closes : Write.closes codec ⟨j, e⟩ = true) :
    Write.offset codec ⟨j, e⟩ = j.header.tail + (blockSize - j.header.tail % blockSize) := by
  rw [Write.offset, if_pos closes]
  exact alignUpAlways_off small

theorem place_of_stays {write : Write T} (stays : write.closes codec = false) :
    write.offset codec = write.before.header.tail := by
  rw [Write.offset, if_neg (by rw [stays]; decide)]

theorem opened_fileOff (codec : Codec T) (write : Write T) (off : ℕ) :
    (opened codec write).fileOff off = write.before.fileOff off := by
  rw [opened, revised_fileOff]

theorem opened_tail (codec : Codec T) (write : Write T) :
    (opened codec write).header.tail = write.offset codec := by
  rw [opened, revised_header, Write.offset, apply_ite JournalHeader.tail, closedHeader_tail]

theorem opened_ty (codec : Codec T) (write : Write T) :
    (opened codec write).header.ty = write.before.header.ty := by
  rw [opened, revised_header, apply_ite JournalHeader.ty, closedHeader_ty, ite_self]

theorem opened_of_stays {write : Write T} (stays : write.closes codec = false) :
    opened codec write = write.before := by
  rw [opened, closingWrites, if_neg (by rw [stays]; decide), if_neg (by rw [stays]; decide)]
  rfl

/-- The file after the zero length, if there is room for one. -/
private theorem opened_of_closes (tail_lt : j.header.tail < 2 ^ 64)
    (closes : Write.closes codec ⟨j, e⟩ = true) : ∃ file,
    (4 ≤ blockSize - j.header.tail % blockSize ∧
        file = splice j.file (j.fileOff j.header.tail) [0, 0, 0, 0] ∨
      blockSize - j.header.tail % blockSize < 4 ∧ file = j.file) ∧
    opened codec ⟨j, e⟩ = revised j (splice file 0 (encodeHeader (closedHeader j))) (closedHeader j) := by
  rw [opened, closingWrites, if_pos closes, if_pos closes, space_in_block tail_lt]
  by_cases room : 4 ≤ blockSize - j.header.tail % blockSize
  · rw [if_pos room]
    exact ⟨_, Or.inl ⟨room, rfl⟩, rfl⟩
  · rw [if_neg room]
    exact ⟨_, Or.inr ⟨Nat.lt_of_not_le room, rfl⟩, rfl⟩

/-- They give up the block if the entry does not fit, and do nothing otherwise. -/
theorem opened_prepared (codec : Codec T) (e : StoreEntry T) (ring : Ring j) (tail_lt : j.header.tail < 2 ^ 64) :
    Prepared codec j e (opened codec ⟨j, e⟩) := by
  rcases Bool.eq_false_or_eq_true (Write.closes codec ⟨j, e⟩) with closes | stays
  · obtain ⟨file, marked, shape⟩ := opened_of_closes tail_lt closes
    rw [shape]
    exact Or.inl ⟨(closes_iff tail_lt).mp closes, closedTo_of_marked ring marked⟩
  · refine Or.inr ⟨Nat.le_of_not_lt fun tight => ?_, opened_of_stays stays⟩
    have closes := (@closes_iff _ codec ⟨j, e⟩ tail_lt).mpr tight
    rw [stays] at closes
    cases closes

/-- The call as a whole makes these writes and then lays the entry down. -/
theorem writeInner_opened (tail_lt : j.header.tail < 2 ^ 64) (wrote : j.writeInner codec e = .ok j') :
    ∃ small : (encodeEntry codec e).length < blockSize,
      j' = landed (opened codec ⟨j, e⟩) (storedEntry codec e small).bytes := by
  obtain ⟨small, ready, prepared, rfl⟩ := writeInner_ok tail_lt wrote
  have same : ready = opened codec ⟨j, e⟩ := by
    rcases prepared with ⟨tight, closed⟩ | ⟨roomy, rfl⟩
    · obtain ⟨file, marked, rfl⟩ := closeBlock_ok closed
      obtain ⟨file', marked', shape⟩ := opened_of_closes tail_lt ((closes_iff tail_lt).mpr tight)
      have agree : file = file' := by
        rcases marked with ⟨room, rfl⟩ | ⟨room, rfl⟩ <;> rcases marked' with ⟨room', rfl⟩ | ⟨room', rfl⟩ <;>
          first | rfl | omega
      rw [shape, ← agree]
      rfl
    · have stays : Write.closes codec ⟨ready, e⟩ = false := by
        rw [Bool.eq_false_iff, ne_eq, closes_iff tail_lt]
        exact Nat.not_lt.mpr roomy
      exact (opened_of_stays stays).symm
  exact ⟨small, by rw [same]⟩

end Interruption

section Reading

/-- What a forward reader makes of the place it is led to and of what it finds
there, and where that leaves it. -/
private def outcome (head : ℕ) (skipped : Except IoError ℕ)
    (fetched : ℕ → Except IoError (StoreEntry T)) : Except Failure (StoreEntry T) × ℕ :=
  match skipped with
  | .error error => (.error (.io error), head)
  | .ok next =>
    match fetched next with
    | .error error => (.error (.io error), next)
    | .ok entry => (.ok entry, u64 (next + entry.fsize.toNat))

private def moveTo (it : JournalIterator T) (head : ℕ) : JournalIterator T :=
  { it with header := { it.header with head } }

private theorem forwardNext_outcome (codec : Codec T) (it : JournalIterator T) :
    forwardNext codec it =
      if it.header.head = it.header.tail then (none, it)
      else
        let pulled := outcome it.header.head (skipPadding it.journal it.header.head)
          (fetchEntry codec it.journal)
        (some pulled.1, moveTo it pulled.2) := by
  unfold forwardNext
  generalize fetchEntry codec it.journal = fetched
  generalize skipPadding it.journal it.header.head = skipped
  split
  · rfl
  · rcases skipped with error | next
    · rfl
    · dsimp only [outcome]
      rcases fetched next with error | entry <;> rfl

private theorem skipPadding_alike (file : j'.file = j.file) (size : j'.size = j.size) (head : ℕ) :
    skipPadding j' head = skipPadding j head := by
  have place (off : ℕ) : j'.fileOff off = j.fileOff off := by rw [Journal.fileOff, size]; rfl
  rw [skipPadding, skipPadding, file, place]

private theorem fetchEntry_alike (codec : Codec T) (file : j'.file = j.file) (size : j'.size = j.size) :
    fetchEntry codec j' = fetchEntry codec j := by
  have place (off : ℕ) : j'.fileOff off = j.fileOff off := by rw [Journal.fileOff, size]; rfl
  funext head
  rw [fetchEntry, fetchEntry, file, place]

/-- A reader has come to its end, or gets what is there and moves on. -/
private theorem forwardNext_cases {it it' : JournalIterator T} (pulled : ForwardNext codec it item it') :
    it.header.head = it.header.tail ∧ item = none ∨
    it.header.head ≠ it.header.tail ∧ ∃ result,
      outcome it.header.head (skipPadding it.journal it.header.head) (fetchEntry codec it.journal) =
        result ∧ item = some result.1 ∧ it' = moveTo it result.2 := by
  rw [ForwardNext, forwardNext_outcome] at pulled
  generalize outcome it.header.head (skipPadding it.journal it.header.head)
    (fetchEntry codec it.journal) = result at pulled ⊢
  split at pulled
  · next ended =>
    cases pulled
    exact Or.inl ⟨ended, rfl⟩
  · next more =>
    cases pulled
    exact Or.inr ⟨more, result, rfl, rfl, rfl⟩

/-- Readers of one file that start at one place and get the same items also
stop at the same place. -/
private theorem same_tail {it it' : JournalIterator T} (file : it'.journal.file = it.journal.file)
    (size : it'.journal.size = it.journal.size) (head : it'.header.head = it.header.head)
    (drains : Drains (ForwardNext codec) it items) (drains' : Drains (ForwardNext codec) it' items) :
    it'.header.tail = it.header.tail := by
  induction drains generalizing it' with
  | done ended =>
    cases drains' with
    | done ended' =>
      obtain ⟨here, _⟩ | ⟨_, _, _, more, _⟩ := forwardNext_cases ended
      · obtain ⟨here', _⟩ | ⟨_, _, _, more, _⟩ := forwardNext_cases ended'
        · omega
        · cases more
      · cases more
  | item pulled rest ih =>
    cases drains' with
    | item pulled' rest' =>
      obtain ⟨_, none⟩ | ⟨_, result, found, _, rfl⟩ := forwardNext_cases pulled
      · cases none
      · obtain ⟨_, none⟩ | ⟨_, result', found', _, rfl⟩ := forwardNext_cases pulled'
        · cases none
        · rw [head, skipPadding_alike file size, fetchEntry_alike codec file size, found] at found'
          rw [← found'] at rest'
          exact @ih (moveTo it' result.2) file size rfl rest'

end Reading

section FirstLap
variable {history : List (Write T)}

/-- The logical offset behind the entry. -/
def Write.finish (codec : Codec T) (write : Write T) : ℕ :=
  write.offset codec + (encodeEntry codec write.entry).length

/-- The call stays on the first lap. -/
def Write.FirstLap (codec : Codec T) (write : Write T) : Prop :=
  Write.finish codec write ≤ write.before.size

/-- A journal on its first lap: whatever was written is still there, the last
entry ends at the tail, and behind the tail the file is blank. -/
structure Fresh (codec : Codec T) (j : Journal) (history : List (Write T)) : Prop where
  ring : Ring j
  signed : j.size ≤ offMax
  head : j.header.head = 0
  bound : j.header.tail ≤ j.size
  blank : ∀ off, j.header.tail ≤ off → off < j.size → j.file[j.fileOff off]? = some 0
  laid : ∃ blocks, WellLaid codec j blocks ∧
    entriesOf blocks = history.map fun write => sealedEntry codec write.entry
  held : ∀ write ∈ history, write.before.size = j.size ∧
    write.offset codec % blockSize + (encodeEntry codec write.entry).length ≤ blockSize ∧
    Write.finish codec write ≤ j.header.tail ∧ Write.OnDisk codec j.file write
  ends : ∀ last, history.getLast? = some last → Write.finish codec last = j.header.tail

theorem Fresh.far (fresh : Fresh codec j history) : FarFromWrap j := by
  have signed := fresh.signed
  have bound := fresh.bound
  rw [offMax] at signed
  rw [FarFromWrap]
  omega

theorem Write.length_bytes (codec : Codec T) (write : Write T) :
    (Write.bytes codec write).length = (encodeEntry codec write.entry).length := length_sealedEntry _

/-- On the first lap an offset is the distance from the end of the header. -/
theorem fileOff_first (inside : off < j.size) : j.fileOff off = headerSize + off := by
  rw [Journal.fileOff, Nat.mod_eq_of_lt inside]

/-- The state in which the entry is laid down: nothing below the tail has
changed, and behind the place of the entry the file is blank. -/
structure Ready (codec : Codec T) (j ready : Journal) (blocks : List (List (Stored codec)))
    (place room : ℕ) : Prop where
  ring : Ring ready
  size : ready.size = j.size
  head : ready.header.head = 0
  tail : ready.header.tail = place
  above : j.header.tail ≤ place
  fits : place % blockSize + room ≤ blockSize
  untouched : Untouched j ready 0 j.header.tail
  blank : ∀ off, place ≤ off → off < j.size → ready.file[j.fileOff off]? = some 0
  slot : ∃ before current, Slot codec ready before current room ∧
    (before ++ [current]).flatten = blocks.flatten

/-- Giving up the block of the tail on the first lap. -/
private theorem blank_opened {file : File} (fresh : Fresh codec j history)
    (marked : 4 ≤ blockSize - j.header.tail % blockSize ∧
        file = splice j.file (j.fileOff j.header.tail) [0, 0, 0, 0] ∨
      blockSize - j.header.tail % blockSize < 4 ∧ file = j.file)
    (above : j.header.tail + (blockSize - j.header.tail % blockSize) ≤ off) (inside : off < j.size) :
    (splice file 0 (encodeHeader (closedHeader j)))[j.fileOff off]? = some 0 := by
  have covers := fresh.ring.covers
  have header := headerSize_eq
  have below := Nat.mod_lt j.header.tail blockSize_pos
  have place := fileOff_first inside
  have old := fresh.blank off (by omega) inside
  have length : j.file.length ≤ file.length := by
    rcases marked with ⟨_, rfl⟩ | ⟨_, rfl⟩
    · rw [length_splice]
      exact Nat.le_max_left _ _
    · exact le_rfl
  rw [getElem?_splice_outside (by omega) (Or.inr (by rw [length_encodeHeader]; omega))]
  rcases marked with ⟨room, rfl⟩ | ⟨_, rfl⟩
  · have tail := fileOff_first (j := j) (by omega : j.header.tail < j.size)
    rw [getElem?_splice_outside (by omega)
      (Or.inr (by simp only [List.length_cons, List.length_nil]; omega))]
    exact old
  · exact old

theorem Fresh.ready {blocks : List (List (Stored codec))} (fresh : Fresh codec j history)
    (laid : WellLaid codec j blocks) (small : (encodeEntry codec e).length < blockSize)
    (lap : Write.FirstLap codec ⟨j, e⟩) :
    Ready codec j (opened codec ⟨j, e⟩) blocks (Write.offset codec ⟨j, e⟩)
      (encodeEntry codec e).length := by
  have far := fresh.far.two_blocks
  have below := Nat.mod_lt j.header.tail blockSize_pos
  have head := fresh.head
  have long := @length_encodeEntry _ codec e
  have lap : Write.offset codec ⟨j, e⟩ + (encodeEntry codec e).length ≤ j.size := lap
  have tail := opened_tail codec ⟨j, e⟩
  rcases Bool.eq_false_or_eq_true (Write.closes codec ⟨j, e⟩) with closes | stays
  · have tight : blockSize - j.header.tail % blockSize < (encodeEntry codec e).length :=
      (closes_iff laid.tail_lt).mp closes
    obtain ⟨file, marked, shape⟩ := opened_of_closes laid.tail_lt closes
    have closed := closedTo_of_marked fresh.ring marked
    have place := place_of_closes (by omega) closes
    have behind := closed.tail (by omega)
    obtain ⟨before, current, _, slot, _, _, _, live, _⟩ := slot_closed fresh.ring laid
      (by have := fresh.signed; rw [offMax] at this; omega) (by omega) small tight closed
    have head' := closed.head (by omega) laid.head_le
      (by have := fresh.signed; rw [offMax] at this; omega)
    rw [if_neg (by omega)] at head' live
    rw [shape, place]
    refine ⟨closed.ring, closed.size, head'.trans head, behind, by omega, ?_, ?_, ?_, _, _, slot, live⟩
    · have whole : (j.header.tail + (blockSize - j.header.tail % blockSize)) % blockSize = 0 := by
        rw [← nextBlock_eq]
        exact Nat.mul_mod_left _ _
      omega
    · exact closed.untouched 0 (by omega)
    · intro off above inside
      exact blank_opened fresh marked above inside
  · have roomy : (encodeEntry codec e).length ≤ blockSize - j.header.tail % blockSize := by
      refine Nat.le_of_not_lt fun tight => ?_
      have closes := (@closes_iff _ codec ⟨j, e⟩ laid.tail_lt).mpr tight
      rw [stays] at closes
      cases closes
    have place : Write.offset codec ⟨j, e⟩ = j.header.tail := place_of_stays stays
    obtain ⟨before, current, slot, live, _⟩ := slot_here laid (by omega) roomy
    rw [@opened_of_stays _ codec ⟨j, e⟩ stays, place]
    exact ⟨fresh.ring, rfl, head, rfl, le_rfl, by omega, fun _ _ _ => rfl, fresh.blank, _, _, slot, live⟩

/-- What is on disk below an untouched tail stays there. -/
private theorem onDisk_kept (ring : Ring j) (size : j'.size = j.size)
    (untouched : Untouched j j' 0 j.header.tail) {write : Write T}
    (held : write.before.size = j.size ∧
      write.offset codec % blockSize + (encodeEntry codec write.entry).length ≤ blockSize ∧
      Write.finish codec write ≤ j.header.tail ∧ Write.OnDisk codec j.file write) :
    Write.OnDisk codec j'.file write := by
  obtain ⟨same, fits, below, there⟩ := held
  have length := Write.length_bytes codec write
  have place : write.before.fileOff (write.offset codec) = j.fileOff (write.offset codec) := by
    rw [Journal.fileOff, same, Journal.fileOff]
  have place' : write.before.fileOff (write.offset codec) = j'.fileOff (write.offset codec) := by
    rw [place, Journal.fileOff, Journal.fileOff, size]
  rw [Write.OnDisk, place] at there
  rw [Write.finish] at below
  rw [Write.OnDisk, place']
  exact untouched.holds ring size (by omega) (Nat.zero_le _) (by omega) there

/-- The step: a call that stays on the first lap keeps everything in place. -/
theorem Fresh.landed (fresh : Fresh codec j history)
    (small : (encodeEntry codec e).length < blockSize) (lap : Write.FirstLap codec ⟨j, e⟩) :
    Fresh codec (landed (opened codec ⟨j, e⟩) (storedEntry codec e small).bytes)
      (history ++ [⟨j, e⟩]) := by
  obtain ⟨blocks, laid, entries⟩ := fresh.laid
  have ready := fresh.ready laid small lap
  have signed := fresh.signed
  have lap : Write.offset codec ⟨j, e⟩ + (encodeEntry codec e).length ≤ j.size := lap
  have length := length_storedEntry e small
  have long := @length_encodeEntry _ codec e
  have bytes : Write.bytes codec ⟨j, e⟩ = (storedEntry codec e small).bytes := rfl
  have finish : Write.finish codec ⟨j, e⟩ =
    Write.offset codec ⟨j, e⟩ + (storedEntry codec e small).bytes.length := by rw [length]; rfl
  generalize opened codec ⟨j, e⟩ = opened at ready ⊢
  obtain ⟨ring, size, head, tail, above, fits, untouched, blank, before, current, slot, live⟩ := ready
  have place (off : ℕ) : opened.fileOff off = j.fileOff off := by
    rw [Journal.fileOff, Journal.fileOff, size]
  have head_dvd : blockSize ∣ opened.header.head := by rw [head]; exact Nat.dvd_zero _
  have short : opened.header.tail + (storedEntry codec e small).bytes.length < 2 ^ 64 := by
    rw [offMax] at signed
    omega
  have end_tail := landed_tail short
  rw [← length] at slot
  obtain ⟨kept, laid'⟩ := slot_landed ring head_dvd _ slot short
  rw [head] at kept
  have all_kept : Untouched j (JournalWrite.landed opened (storedEntry codec e small).bytes) 0
      j.header.tail := untouched.trans (kept.mono le_rfl (by omega)) size
  refine ⟨ring.landed _, ?_, ?_, ?_, ?_, ⟨_, laid', ?_⟩, ?_, ?_⟩
  · rw [landed_size, size]
    exact signed
  · rw [landed_head, head]
  · rw [end_tail, landed_size]
    omega
  · intro off behind inside
    rw [landed_size, size] at inside
    rw [end_tail] at behind
    have covers := ring.covers
    rw [landed_file, landed_fileOff, place, place, fileOff_first inside,
      fileOff_first (j := j) (by omega : opened.header.tail < j.size),
      getElem?_splice_outside (by omega) (Or.inr (by omega)), ← fileOff_first inside]
    exact blank off (by omega) inside
  · rw [entriesOf, List.map_append, ← entries, entriesOf, ← live]
    simp [storedEntry]
  · intro write found
    rw [end_tail, landed_size, size]
    rcases List.mem_append.mp found with earlier | here
    · obtain ⟨same, within, below, there⟩ := fresh.held write earlier
      exact ⟨same, within, by omega, onDisk_kept fresh.ring (by rw [landed_size, size]) all_kept
        ⟨same, within, below, there⟩⟩
    · cases List.mem_singleton.mp here
      refine ⟨rfl, fits, by omega, ?_⟩
      rw [Write.OnDisk, bytes, landed_file, tail, place]
      exact holds_splice_self _ _ _
  · intro last found
    rw [List.getLast?_concat] at found
    cases found
    omega

theorem Fresh.clock (fresh : Fresh codec j history) (moment : SystemTime) :
    Fresh codec { j with lastTime := moment } history := by
  obtain ⟨blocks, laid, entries⟩ := fresh.laid
  exact ⟨fresh.ring.grow rfl le_rfl, fresh.signed, fresh.head, fresh.bound, fresh.blank,
    ⟨blocks, WellLaid.carry laid fresh.ring rfl rfl rfl fun _ _ _ => rfl, entries⟩, fresh.held, fresh.ends⟩

theorem fresh_new (covers : headerSize + blockSize ≤ count) (signed : count ≤ offMax)
    (c : JournalConfig) (now : SystemTime) :
    Fresh codec (Journal.new (List.replicate count 0) c now) [] := by
  have length : (List.replicate count (0 : UInt8)).length = count := List.length_replicate
  have kept : Kept codec (Journal.new (List.replicate count 0) c now) [] :=
    kept_new (by omega) (by omega) c now
  obtain ⟨blocks, dropped, laid, split, _⟩ := kept.laid
  have within := kept.ring.covers
  have file : (Journal.new (List.replicate count 0) c now).file = List.replicate count 0 := rfl
  rw [file, length] at within
  refine ⟨kept.ring, by omega, rfl, Nat.zero_le _, ?_, ⟨blocks, laid, ?_⟩, by simp, by simp⟩
  · intro off _ inside
    rw [fileOff_first inside, file]
    exact List.getElem?_replicate_of_lt (by omega)
  · rw [← locate_snd 0 blocks]
    have none := (List.append_eq_nil_iff.mp split.symm).2
    rw [new_head] at none
    rw [none]
    rfl

/-- A run that never leaves the first lap. -/
theorem run_fresh (covers : headerSize + blockSize ≤ count) (signed : count ≤ offMax)
    (run : Run codec (fun _ => True) (Journal.new (List.replicate count 0) c started) j history)
    (lap : ∀ write ∈ history, Write.FirstLap codec write) :
    Fresh codec j history ∧ Tracked codec j history := by
  have length : (List.replicate count (0 : UInt8)).length = count := List.length_replicate
  refine run_keeps (fun _ => True) (fun j history => (∀ write ∈ history, Write.FirstLap codec write) →
    Fresh codec j history ∧ Tracked codec j history) ?_ ?_ ?_ run lap
  · intro j e j' history kept _ numbered wrote lap
    obtain ⟨fresh, tracked⟩ := kept fun write found => lap write (List.mem_append_left _ found)
    have far := fresh.far
    have here := lap _ (List.mem_append_right _ (List.mem_singleton_self _))
    have tail_lt : j.header.tail < 2 ^ 64 := by
      have room := far.two_blocks
      omega
    obtain ⟨small, rfl⟩ := writeInner_opened tail_lt wrote
    exact ⟨fresh.landed small here,
      tracked.landed far numbered small (opened_prepared codec e fresh.ring tail_lt)⟩
  · intro j history moment kept lap
    exact ⟨(kept lap).1.clock moment, (kept lap).2.clock moment⟩
  · intro _
    exact ⟨fresh_new covers signed c started,
      (Started.new (by omega) (by omega)).sound, fun ⟨_, found, _⟩ => absurd found List.not_mem_nil⟩

end FirstLap

section Resumption
variable {history : List (Write T)} {disk : File} {c : JournalConfig} {now : SystemTime}

/-- The calls whose entries are on disk with every byte. -/
def completed (codec : Codec T) (disk : File) (writes : List (Write T)) : List (Write T) :=
  writes.filter fun write => decide (Write.OnDisk codec disk write)

/-- Opening the disk works, and a forward reader gets exactly these entries. -/
def Resumes (codec : Codec T) (disk : File) (c : JournalConfig) (now : SystemTime)
    (writes : List (Write T)) : Prop :=
  ∃ fuel j', Journal.reopen fuel disk c now = some (.ok j') ∧
    Drains (ForwardNext codec) j'.readForward
      ((writes.map fun write => sealedEntry codec write.entry).map .ok)

/-- The last complete entry starts in the block the header on disk points at,
or right behind it, and the traversal has a reason to stop where it ends. -/
structure Resumable (codec : Codec T) (disk : File) (persisted : JournalHeader) (last : Write T) :
    Prop where
  behind : persisted.tail ≤ last.offset codec
  in_reach : last.offset codec ≤ persisted.tail + blockSize
  ends : persisted.tail + blockSize < Write.finish codec last ∨
    blockSize - Write.finish codec last % blockSize < 4 ∨
    Holds disk (last.before.fileOff (Write.finish codec last)) [0, 0, 0, 0]

/-- Reading gives the laid out entries exactly if the traversal ends at their end. -/
theorem resumes_iff {blocks : List (List (Stored codec))} {writes : List (Write T)}
    (ring : Ring j) (laid : WellLaid codec j blocks)
    (sized : j.size = alignDown (usub j.file.length headerSize) blockSize)
    (decoded : decodeHeader j.file = some persisted) (head : persisted.head = j.header.head)
    (kind : c.journalType = .invalid ∨ c.journalType = persisted.ty)
    (entries : entriesOf blocks = writes.map fun write => sealedEntry codec write.entry) :
    Resumes codec j.file c now writes ↔ ∃ fuel txMax,
      traverseTail (loaded j c now persisted) fuel persisted.tail ((persisted.transCtr.toNat : ℤ) - 1) =
        some (.ok (j.header.tail, txMax)) := by
  rw [Resumes, ← entries]
  constructor
  · rintro ⟨fuel, j', opened, drains⟩
    obtain ⟨newTail, txMax, found, rfl⟩ := (reopen_eq decoded sized kind fuel).mp opened
    have ends : newTail = j.header.tail := @same_tail T codec _ j.readForward
      (loaded j c now { persisted with tail := newTail, transCtr := asU32 (txMax + 1) }).readForward
      rfl rfl head (forward_drains laid) drains
    rw [ends] at found
    exact ⟨fuel, txMax, found⟩
  · rintro ⟨fuel, txMax, found⟩
    refine ⟨fuel, _, (reopen_eq decoded sized kind fuel).mpr ⟨_, _, found, rfl⟩, ?_⟩
    exact forward_drains (WellLaid.carry laid ring rfl head rfl fun _ _ _ => rfl)

/-- With a trail to the tail, that is the condition. -/
private theorem resumes_iff_resumable (now : SystemTime) {blocks : List (List (Stored codec))}
    (tracked : Tracked codec j history) (headed : ∃ write ∈ history, write.closes codec = true)
    (kind : c.journalType = .invalid ∨ c.journalType = j.header.ty) (laid : WellLaid codec j blocks)
    (entries : entriesOf blocks = history.map fun write => sealedEntry codec write.entry)
    (bound : j.header.tail ≤ j.size)
    (ends : ∀ last, history.getLast? = some last →
      last.before.size = j.size ∧ Write.finish codec last = j.header.tail) :
    ∃ persisted last, decodeHeader j.file = some persisted ∧ history.getLast? = some last ∧
      (Resumes codec j.file c now history ↔ Resumable codec j.file persisted last) := by
  obtain ⟨sound, trail⟩ := tracked
  obtain ⟨persisted, front, final, last, trail, found, offset⟩ := trail headed
  have decoded := persisted_decodes trail sound
  obtain ⟨same, finish⟩ := ends last found
  have place : last.before.fileOff (Write.finish codec last) = j.fileOff j.header.tail := by
    rw [finish, Journal.fileOff, Journal.fileOff, same]
  refine ⟨persisted, last, decoded, found, ?_⟩
  rw [← trail.ty_eq] at kind
  rw [resumes_iff sound.ring laid sound.sized decoded trail.head_eq kind entries]
  constructor
  · rintro ⟨fuel, txMax, ended⟩
    have recoverable := recoverable_of_traverse trail offset (by omega) ended
    have ends := recoverable.ends
    rw [← place, ← finish] at ends
    exact ⟨by omega, recoverable.in_reach, ends⟩
  · intro resumable
    have ends := resumable.ends
    rw [place, finish] at ends
    obtain ⟨fuel, txMax, ended, _⟩ := traverse_of_recoverable c now trail offset
      ⟨by omega, resumable.in_reach, ends⟩
    exact ⟨fuel, txMax, ended⟩

private theorem opened_ring (codec : Codec T) (e : StoreEntry T) (ring : Ring j)
    (tail_lt : j.header.tail < 2 ^ 64) : Ring (opened codec ⟨j, e⟩) := by
  rcases opened_prepared codec e ring tail_lt with ⟨_, closed⟩ | ⟨_, same⟩
  · exact closed.ring
  · rw [same]
    exact ring

/-- The crash came after the header, if there was one to write, or it came
before and only the zero length may have been written. -/
private theorem torn_cases (ring : Ring j) (tail_lt : j.header.tail < 2 ^ 64)
    (torn : Torn codec ⟨j, e⟩ disk) :
    (∃ count, disk = splice (opened codec ⟨j, e⟩).file (j.fileOff (Write.offset codec ⟨j, e⟩))
      ((Write.bytes codec ⟨j, e⟩).take count)) ∨
    Write.closes codec ⟨j, e⟩ = true ∧ ∃ zeros, disk = splice j.file (j.fileOff j.header.tail) zeros ∧
      zeros.length ≤ blockSize - j.header.tail % blockSize := by
  have whole : splice (opened codec ⟨j, e⟩).file (j.fileOff (Write.offset codec ⟨j, e⟩))
      ((Write.bytes codec ⟨j, e⟩).take 0) = (opened codec ⟨j, e⟩).file := by
    have inside := (opened_ring codec e ring tail_lt).fileOff_lt (Write.offset codec ⟨j, e⟩)
    rw [opened_fileOff] at inside
    rw [List.take_zero]
    exact splice_nil inside.le
  have nothing : j.file = splice j.file (j.fileOff j.header.tail) [] :=
    (splice_nil (ring.fileOff_lt _).le).symm
  cases torn with
  | entry count => exact Or.inl ⟨count, rfl⟩
  | @closing writes made =>
    rcases Bool.eq_false_or_eq_true (Write.closes codec ⟨j, e⟩) with closes | stays
    · have all : play j.file (closingWrites codec ⟨j, e⟩) = (opened codec ⟨j, e⟩).file := by
        rw [opened, revised_file]
      rw [closingWrites, if_pos closes, List.prefix_concat_iff, space_in_block tail_lt] at made
      rcases made with complete | early
      · refine Or.inl ⟨0, ?_⟩
        rw [whole, ← all, complete, closingWrites, if_pos closes, space_in_block tail_lt]
      · refine Or.inr ⟨closes, ?_⟩
        split at early
        · next room =>
          rcases List.prefix_cons_iff.mp early with rfl | ⟨rest, rfl, none⟩
          · exact ⟨[], nothing, Nat.zero_le _⟩
          · rw [List.prefix_nil] at none
            subst none
            exact ⟨[0, 0, 0, 0], rfl, room⟩
        · rw [List.prefix_nil] at early
          subst early
          exact ⟨[], nothing, Nat.zero_le _⟩
    · have none : closingWrites codec ⟨j, e⟩ = [] := by
        rw [closingWrites, if_neg (by rw [stays]; decide)]
      rw [none, List.prefix_nil] at made
      refine Or.inl ⟨0, ?_⟩
      rw [whole, made, @opened_of_stays _ codec ⟨j, e⟩ stays]
      rfl

/-- A crash that left the header alone and bytes behind the tail in its block. -/
private theorem in_block_resumes (fresh : Fresh codec j history) (tracked : Tracked codec j history)
    (headed : ∃ write ∈ history, write.closes codec = true)
    (kind : c.journalType = .invalid ∨ c.journalType = j.header.ty)
    (fits : j.header.tail % blockSize + bytes.length ≤ blockSize)
    (lap : j.header.tail + bytes.length ≤ j.size) :
    ∃ persisted last, decodeHeader (splice j.file (j.fileOff j.header.tail) bytes) = some persisted ∧
      history.getLast? = some last ∧
      (Resumes codec (splice j.file (j.fileOff j.header.tail) bytes) c now history ↔
        Resumable codec (splice j.file (j.fileOff j.header.tail) bytes) persisted last) := by
  obtain ⟨blocks, laid, entries⟩ := fresh.laid
  have head := fresh.head
  generalize torn : revised j (splice j.file (j.fileOff j.header.tail) bytes) j.header = v
  have file : v.file = splice j.file (j.fileOff j.header.tail) bytes := by rw [← torn, revised_file]
  have size : v.size = j.size := by rw [← torn, revised_size]
  have header : v.header = j.header := by rw [← torn, revised_header]
  have untouched (low : ℕ) : Untouched j v low j.header.tail :=
    untouched_splice fresh.ring fits file (by omega)
  have tracked' : Tracked codec v history := by
    refine tracked.carry size header ?_ (fun low _ => untouched low) fun written held => ?_
    · rw [file]
      exact length_splice_within fresh.ring fits
    · rw [file]
      refine held.splice (Or.inl ?_)
      rw [length_encodeHeader, Journal.fileOff, headerSize_eq]
      omega
  have resumes := resumes_iff_resumable now tracked' headed (by rw [header]; exact kind)
    (WellLaid.carry laid fresh.ring size (by rw [header]) (by rw [header]) (untouched _)) entries
    (by rw [header, size]; exact fresh.bound) fun last found =>
      ⟨(fresh.held last (List.mem_of_getLast? found)).1.trans size.symm,
        (fresh.ends last found).trans (by rw [header])⟩
  rw [file] at resumes
  exact resumes

private theorem length_part (codec : Codec T) (write : Write T) (count : ℕ) :
    ((Write.bytes codec write).take count).length ≤ (encodeEntry codec write.entry).length := by
  rw [← Write.length_bytes codec write]
  exact List.length_take_le' _ _

/-- A part of the entry touches nothing below the tail. -/
private theorem untouched_entry {blocks : List (List (Stored codec))} {v : Journal}
    (ready : Ready codec j (opened codec ⟨j, e⟩) blocks (Write.offset codec ⟨j, e⟩)
      (encodeEntry codec e).length) (lap : Write.FirstLap codec ⟨j, e⟩)
    (file : v.file = splice (opened codec ⟨j, e⟩).file (j.fileOff (Write.offset codec ⟨j, e⟩))
      ((Write.bytes codec ⟨j, e⟩).take count)) : Untouched j v 0 j.header.tail := by
  have short : ((Write.bytes codec ⟨j, e⟩).take count).length ≤ (encodeEntry codec e).length :=
    length_part codec _ _
  have lap : Write.offset codec ⟨j, e⟩ + (encodeEntry codec e).length ≤ j.size := lap
  have fits := ready.fits
  have place : (opened codec ⟨j, e⟩).fileOff (Write.offset codec ⟨j, e⟩) =
    j.fileOff (Write.offset codec ⟨j, e⟩) := opened_fileOff _ _ _
  rw [← place] at file
  have entry : Untouched (opened codec ⟨j, e⟩) v 0 (Write.offset codec ⟨j, e⟩) :=
    untouched_splice ready.ring (by omega) file (by rw [ready.size]; omega)
  exact ready.untouched.trans (entry.mono le_rfl ready.above) ready.size

/-- A crash between the header and the end of the entry it was written for: the
header leads past everything that is there. -/
private theorem headed_not_resumed (now : SystemTime) (fresh : Fresh codec j history) (tracked : Tracked codec j history)
    (kind : c.journalType = .invalid ∨ c.journalType = j.header.ty)
    (small : (encodeEntry codec e).length < blockSize) (lap : Write.FirstLap codec ⟨j, e⟩)
    (closes : Write.closes codec ⟨j, e⟩ = true) (count : ℕ) :
    let disk := splice (opened codec ⟨j, e⟩).file (j.fileOff (Write.offset codec ⟨j, e⟩))
      ((Write.bytes codec ⟨j, e⟩).take count)
    decodeHeader disk = some (closedHeader j) ∧ ¬Resumes codec disk c now history ∧
      ∀ last, history.getLast? = some last → ¬Resumable codec disk (closedHeader j) last := by
  intro disk
  obtain ⟨blocks, laid, entries⟩ := fresh.laid
  have ready := fresh.ready laid small lap
  have far : j.header.tail + 2 ^ 33 < 2 ^ 64 := fresh.far
  have below := Nat.mod_lt j.header.tail blockSize_pos
  have value := blockSize_eq
  obtain ⟨marked_file, marked, shape⟩ := opened_of_closes laid.tail_lt closes
  have closed := closedTo_of_marked fresh.ring marked
  have persisted_tail := closed.tail (by omega)
  have persisted : Holds (opened codec ⟨j, e⟩).file 0 (encodeHeader (closedHeader j)) := by
    rw [shape]
    exact closed.persisted
  have length : (opened codec ⟨j, e⟩).file.length = j.file.length := by
    rw [shape]
    exact closed.length
  have persisted_head : (closedHeader j).head = 0 := by
    have head := ready.head
    rw [shape, revised_header] at head
    exact head
  have short : ((Write.bytes codec ⟨j, e⟩).take count).length ≤ (encodeEntry codec e).length :=
    length_part codec _ _
  have fits := ready.fits
  have place (off : ℕ) : (opened codec ⟨j, e⟩).fileOff off = j.fileOff off := opened_fileOff _ _ _
  generalize torn : revised j disk j.header = v
  have file : v.file = disk := by rw [← torn, revised_file]
  have size : v.size = j.size := by rw [← torn, revised_size]
  have header : v.header = j.header := by rw [← torn, revised_header]
  have untouched := untouched_entry ready lap file
  have disk_length : disk.length = j.file.length := by
    rw [← length, ← length_splice_within ready.ring
      (by omega : Write.offset codec ⟨j, e⟩ % blockSize + ((Write.bytes codec ⟨j, e⟩).take count).length ≤
        blockSize), place]
  have decoded : decodeHeader disk = some (closedHeader j) := by
    have held : Holds disk 0 (encodeHeader (closedHeader j)) := by
      refine persisted.splice (Or.inl ?_)
      rw [length_encodeHeader, Journal.fileOff, headerSize_eq]
      omega
    rw [held.eq_append]
    exact decodeHeader_encodeHeader _ (by rw [closedHeader_tail]; exact u64_lt _) (by omega) _
  refine ⟨decoded, fun resumes => ?_, fun last found resumable => ?_⟩
  · rw [← file] at decoded resumes
    rw [resumes_iff (fresh.ring.grow size (by rw [file]; omega))
      (WellLaid.carry laid fresh.ring size (by rw [header]) (by rw [header])
        (by rw [fresh.head]; exact untouched))
      (by rw [size, file, disk_length]; exact tracked.1.sized) decoded
      (by rw [persisted_head, header, fresh.head]) (by rw [closedHeader_ty]; exact kind) entries]
      at resumes
    obtain ⟨fuel, txMax, found⟩ := resumes
    have tail : (closedHeader j).tail = j.header.tail + (blockSize - j.header.tail % blockSize) :=
      persisted_tail
    have grows := traverse_grows (by
      show alignUpAlways (closedHeader j).tail blockSize + 2 ^ 32 < 2 ^ 64
      rw [alignUpAlways_off (by omega)]
      omega) found
    rw [header] at grows
    omega
  · have behind := resumable.behind
    have tail : (closedHeader j).tail = j.header.tail + (blockSize - j.header.tail % blockSize) :=
      persisted_tail
    have finish := fresh.ends last found
    rw [Write.finish] at finish
    omega

/-- Where the file is blank there is no entry. -/
private theorem not_onDisk_of_blank (small : (encodeEntry codec e).length < blockSize)
    (blank : Holds disk (j.fileOff (Write.offset codec ⟨j, e⟩)) [0, 0, 0, 0]) :
    ¬Write.OnDisk codec disk ⟨j, e⟩ := by
  intro held
  have here : Holds disk (j.fileOff (Write.offset codec ⟨j, e⟩)) (storedEntry codec e small).bytes := held
  have long := (storedEntry codec e small).length_ge
  have read := readExactAt_of_holds here 4 (by omega)
  rw [readExactAt_of_holds blank 4 (by decide), Except.ok.injEq] at read
  exact (storedEntry codec e small).front_ne_zero read.symm

/-- In a blank stretch of the first lap there are four zeros anywhere. -/
private theorem zeros_of_blank {file : File} (room : place + 4 ≤ j.size)
    (blank : ∀ off, place ≤ off → off < j.size → file[j.fileOff off]? = some 0) :
    Holds file (j.fileOff place) [0, 0, 0, 0] := by
  intro i few
  have few : i < 4 := few
  have zero : ([0, 0, 0, 0] : List UInt8)[i]? = some 0 :=
    List.getElem?_replicate_of_lt (n := 4) few
  have here := blank (place + i) (by omega) (by omega)
  rw [fileOff_first (by omega), ← Nat.add_assoc] at here
  rw [fileOff_first (by omega), here, zero]

/-- A call on the first lap has room for more than four bytes. -/
private theorem place_room (lap : Write.FirstLap codec ⟨j, e⟩) :
    Write.offset codec ⟨j, e⟩ + 4 ≤ j.size := by
  have lap : Write.offset codec ⟨j, e⟩ + (encodeEntry codec e).length ≤ j.size := lap
  have long := @length_encodeEntry _ codec e
  omega

private theorem not_onDisk_before_header {zeros : List UInt8} (fresh : Fresh codec j history)
    (small : (encodeEntry codec e).length < blockSize) (lap : Write.FirstLap codec ⟨j, e⟩)
    (closes : Write.closes codec ⟨j, e⟩ = true)
    (within : zeros.length ≤ blockSize - j.header.tail % blockSize) :
    ¬Write.OnDisk codec (splice j.file (j.fileOff j.header.tail) zeros) ⟨j, e⟩ := by
  have far := fresh.far.two_blocks
  have place := place_of_closes (by omega) closes
  have covers := fresh.ring.covers
  refine not_onDisk_of_blank small (zeros_of_blank (place_room lap) fun off above inside => ?_)
  have start := fileOff_first (j := j) (by omega : j.header.tail < j.size)
  have spot := fileOff_first inside
  rw [getElem?_splice_outside (by omega) (Or.inr (by omega))]
  exact fresh.blank off (by omega) inside

/-- Everything the run had written is still complete. -/
private theorem completed_of_torn (fresh : Fresh codec j history)
    (small : (encodeEntry codec e).length < blockSize) (lap : Write.FirstLap codec ⟨j, e⟩)
    (torn : Torn codec ⟨j, e⟩ disk) (cut : ¬Write.OnDisk codec disk ⟨j, e⟩) :
    completed codec disk (history ++ [⟨j, e⟩]) = history := by
  obtain ⟨blocks, laid, _⟩ := fresh.laid
  have inside : Write.offset codec ⟨j, e⟩ + (encodeEntry codec e).length ≤ j.size := lap
  have untouched : Untouched j (revised j disk j.header) 0 j.header.tail := by
    rcases torn_cases fresh.ring laid.tail_lt torn with ⟨part, file⟩ | ⟨closes, zeros, file, within⟩
    · exact untouched_entry (fresh.ready laid small lap) lap file
    · have far := fresh.far.two_blocks
      have below := Nat.mod_lt j.header.tail blockSize_pos
      have place := place_of_closes (by omega) closes
      exact untouched_splice fresh.ring (by omega) file (by omega)
  have kept (write : Write T) (found : write ∈ history) :
      Write.OnDisk codec (revised j disk j.header).file write :=
    onDisk_kept fresh.ring (revised_size j disk j.header) untouched (fresh.held write found)
  have all : history.filter (fun write => decide (Write.OnDisk codec disk write)) = history :=
    List.filter_eq_self.mpr fun write found => decide_eq_true (kept write found)
  rw [completed, List.filter_append, all, List.filter_cons_of_neg (by simpa using cut),
    List.filter_nil, List.append_nil]

/-- **Crash recovery.** A call cut off on the first lap over a blank file leaves
a disk on which the complete entries, and nothing else, are found again exactly
if the last of them starts in the block the header on disk points at, or right
behind it, and the traversal has a reason to stop where it ends. -/
theorem torn_write_resumes_iff (covers : headerSize + blockSize ≤ count) (signed : count ≤ offMax)
    (run : Run codec (fun _ => True) (Journal.new (List.replicate count 0) c₀ started) j history)
    (headed : ∃ write ∈ history, write.closes codec = true)
    (lap : ∀ write ∈ history ++ [⟨j, e⟩], Write.FirstLap codec write)
    (numbered : e.transId = j.header.transCtr) (small : (encodeEntry codec e).length < blockSize)
    (torn : Torn codec ⟨j, e⟩ disk)
    (kind : c.journalType = .invalid ∨ c.journalType = j.header.ty) :
    ∃ persisted last, decodeHeader disk = some persisted ∧
      (completed codec disk (history ++ [⟨j, e⟩])).getLast? = some last ∧
      (Resumes codec disk c now (completed codec disk (history ++ [⟨j, e⟩])) ↔
        Resumable codec disk persisted last) := by
  obtain ⟨fresh, tracked⟩ := run_fresh covers signed run fun write found =>
    lap write (List.mem_append_left _ found)
  have here : Write.FirstLap codec ⟨j, e⟩ := lap _ (List.mem_append_right _ (List.mem_singleton_self _))
  obtain ⟨blocks, laid, entries⟩ := fresh.laid
  have ready := fresh.ready laid small here
  by_cases whole : Write.OnDisk codec disk ⟨j, e⟩
  · rcases torn_cases fresh.ring laid.tail_lt torn with ⟨part, rfl⟩ | ⟨closes, zeros, rfl, within⟩
    · have fresh' := fresh.landed small here
      have tracked' := tracked.landed fresh.far numbered small
        (opened_prepared codec e fresh.ring laid.tail_lt)
      have file : splice (opened codec ⟨j, e⟩).file (j.fileOff (Write.offset codec ⟨j, e⟩))
          ((Write.bytes codec ⟨j, e⟩).take part) =
            (landed (opened codec ⟨j, e⟩) (storedEntry codec e small).bytes).file := by
        rw [splice_take_of_holds whole, landed_file, opened_tail, opened_fileOff]
        rfl
      have all : completed codec (landed (opened codec ⟨j, e⟩) (storedEntry codec e small).bytes).file
          (history ++ [⟨j, e⟩]) = history ++ [⟨j, e⟩] :=
        List.filter_eq_self.mpr fun write found => decide_eq_true (fresh'.held write found).2.2.2
      obtain ⟨blocks', laid', entries'⟩ := fresh'.laid
      obtain ⟨write, found, closes⟩ := headed
      rw [file, all]
      refine resumes_iff_resumable now tracked' ⟨write, List.mem_append_left _ found, closes⟩ ?_ laid'
        entries' fresh'.bound fun last found =>
          ⟨(fresh'.held last (List.mem_of_getLast? found)).1, fresh'.ends last found⟩
      rw [landed_ty, opened_ty]
      exact kind
    · exact absurd whole (not_onDisk_before_header fresh small here closes within)
  · have far := fresh.far.two_blocks
    have below := Nat.mod_lt j.header.tail blockSize_pos
    have inside : Write.offset codec ⟨j, e⟩ + (encodeEntry codec e).length ≤ j.size := here
    rw [completed_of_torn fresh small here torn whole]
    rcases torn_cases fresh.ring laid.tail_lt torn with ⟨part, rfl⟩ | ⟨closes, zeros, rfl, within⟩
    · rcases Bool.eq_false_or_eq_true (Write.closes codec ⟨j, e⟩) with closes | stays
      · obtain ⟨decoded, not_resumed, not_resumable⟩ :=
          headed_not_resumed now fresh tracked kind small here closes part
        obtain ⟨write, found, _⟩ := headed
        have last_eq := List.getLast?_eq_some_getLast (List.ne_nil_of_mem found)
        exact ⟨_, _, decoded, last_eq, fun resumes => absurd resumes not_resumed,
          fun resumable => absurd resumable (not_resumable _ last_eq)⟩
      · have short : ((Write.bytes codec ⟨j, e⟩).take part).length ≤ (encodeEntry codec e).length :=
          length_part codec _ _
        have fits := ready.fits
        have place : Write.offset codec ⟨j, e⟩ = j.header.tail := place_of_stays stays
        have same : opened codec ⟨j, e⟩ = j := opened_of_stays stays
        rw [same, place]
        exact in_block_resumes fresh tracked headed kind (by rw [place] at fits; omega) (by omega)
    · have place := place_of_closes (by omega) closes
      exact in_block_resumes fresh tracked headed kind (by omega) (by omega)

end Resumption

section ThreeBlocks

/-- A blank file of three blocks. -/
def threeBlocks : File := List.replicate 393240 0

private theorem size_threeBlocks : (Journal.new threeBlocks forwardConfig epoch).size = 393216 := by
  have length : threeBlocks.length = 393240 := List.length_replicate
  show alignDown (usub threeBlocks.length headerSize) blockSize = 393216
  rw [length, headerSize_eq, blockSize_eq]
  decide

private theorem length_longEntry (j : Journal) (byte : UInt8) :
    (encodeEntry byteVec (payloadEntry j (longEntry byte))).length = 100000 := by
  have length : (longEntry byte).1.length = 99976 := List.length_replicate
  rw [length_encodeEntry, payloadEntry, encodeContent, List.length_append, length_leBytes,
    length_byteVec_encode, length]

/-- The long entry is laid down where it fits. -/
private theorem long_lands (size : j.size = 393216) (tail_lt : j.header.tail < 2 ^ 32) :
    ∃ j', j.writeEntry byteVec j.lastTime (longEntry 1) = .ok j' ∧ j'.size = 393216 ∧
      j'.lastTime = j.lastTime ∧ j'.header.ty = j.header.ty ∧
      j'.header.tail = Write.finish byteVec ⟨j, payloadEntry j (longEntry 1)⟩ := by
  have value := blockSize_eq
  have header := headerSize_eq
  have largest : offMax = 2 ^ 63 - 1 := rfl
  have length := length_longEntry j 1
  obtain ⟨j', wrote⟩ := @writeInner_succeeds _ byteVec j (payloadEntry j (longEntry 1)) (by omega)
    (by omega) (by omega) (by omega)
  have entered := (writeEntry_recent byteVec j (longEntry 1)).trans wrote
  obtain ⟨small, rfl⟩ := writeInner_opened (by omega) wrote
  have stored := length_storedEntry _ small
  have tail := opened_tail byteVec ⟨j, payloadEntry j (longEntry 1)⟩
  have near : Write.offset byteVec ⟨j, payloadEntry j (longEntry 1)⟩ ≤ j.header.tail + blockSize := by
    rcases Bool.eq_false_or_eq_true (Write.closes byteVec ⟨j, payloadEntry j (longEntry 1)⟩)
      with closes | stays
    · rw [place_of_closes (by omega) closes]
      omega
    · rw [place_of_stays stays]
      exact Nat.le_add_right _ _
  refine ⟨_, entered, ?_, ?_, ?_, ?_⟩
  · rw [landed_size, opened, revised_size, size]
  · rw [landed_lastTime, opened, revised_lastTime]
  · rw [landed_ty, opened_ty]
  · rw [landed_tail (by omega), tail, stored, Write.finish]

/-- Two long entries, in a block each; the second writes the header, and a
third would do so again. -/
private theorem two_blocks : ∃ j₁ j₂ history,
    Run byteVec (fun _ => True) (Journal.new threeBlocks forwardConfig epoch) j₂ history ∧
    history.getLast? = some ⟨j₁, payloadEntry j₁ (longEntry 1)⟩ ∧
    (∀ write ∈ history ++ [⟨j₂, payloadEntry j₂ (longEntry 1)⟩], Write.FirstLap byteVec write) ∧
    j₁.header.tail = 100000 ∧ j₂.header.tail = 231072 ∧ j₂.header.ty = .forward ∧
    Write.closes byteVec ⟨j₁, payloadEntry j₁ (longEntry 1)⟩ = true ∧
    Write.closes byteVec ⟨j₂, payloadEntry j₂ (longEntry 1)⟩ = true := by
  have value := blockSize_eq
  have size := size_threeBlocks
  have tail := new_tail threeBlocks forwardConfig epoch
  have kind : (Journal.new threeBlocks forwardConfig epoch).header.ty = .forward := rfl
  generalize Journal.new threeBlocks forwardConfig epoch = start at size tail kind ⊢
  have stays : Write.closes byteVec ⟨start, payloadEntry start (longEntry 1)⟩ = false := by
    rw [Bool.eq_false_iff, ne_eq, closes_iff (by omega : start.header.tail < 2 ^ 64), length_longEntry,
      tail, Nat.zero_mod]
    omega
  obtain ⟨j₁, wrote₁, size₁, _, kind₁, tail₁⟩ := long_lands size (by omega)
  have lap : Write.FirstLap byteVec ⟨start, payloadEntry start (longEntry 1)⟩ := by
    rw [Write.FirstLap, size, Write.finish, place_of_stays stays, length_longEntry, tail]
    omega
  rw [Write.finish, place_of_stays stays, length_longEntry, tail] at tail₁
  have closes₁ : Write.closes byteVec ⟨j₁, payloadEntry j₁ (longEntry 1)⟩ = true := by
    rw [closes_iff (by omega : j₁.header.tail < 2 ^ 64), length_longEntry, tail₁, blockSize_eq]
    omega
  have finish₁ : Write.finish byteVec ⟨j₁, payloadEntry j₁ (longEntry 1)⟩ = 231072 := by
    rw [Write.finish, place_of_closes (by omega) closes₁, length_longEntry, tail₁, blockSize_eq]
  obtain ⟨j₂, wrote₂, size₂, _, kind₂, tail₂⟩ := long_lands size₁ (by omega)
  rw [finish₁] at tail₂
  have closes₂ : Write.closes byteVec ⟨j₂, payloadEntry j₂ (longEntry 1)⟩ = true := by
    rw [closes_iff (by omega : j₂.header.tail < 2 ^ 64), length_longEntry, tail₂, blockSize_eq]
    omega
  have finish₂ : Write.finish byteVec ⟨j₂, payloadEntry j₂ (longEntry 1)⟩ = 362144 := by
    rw [Write.finish, place_of_closes (by omega) closes₂, length_longEntry, tail₂, blockSize_eq]
  have run : Run byteVec (fun _ => True) start j₁ ([] ++ [⟨start, payloadEntry start (longEntry 1)⟩]) :=
    Run.refl.recent trivial rfl wrote₁
  refine ⟨j₁, j₂, _, run.recent trivial rfl wrote₂, List.getLast?_concat, ?_, tail₁, tail₂,
    by rw [kind₂, kind₁, kind], closes₁, closes₂⟩
  intro write found
  simp only [List.nil_append, List.cons_append, List.mem_cons, List.not_mem_nil, or_false] at found
  rcases found with rfl | rfl | rfl
  · exact lap
  · rw [Write.FirstLap, finish₁, size₁]
    omega
  · rw [Write.FirstLap, finish₂, size₂]
    omega

/-- A crash right after the header for a new block: the reader is led into a
block in which nothing was written. -/
theorem crash_behind_header_not_resumed : ∃ j history disk,
    Run byteVec (fun _ => True) (Journal.new threeBlocks forwardConfig epoch) j history ∧
    (∃ write ∈ history, write.closes byteVec = true) ∧
    (∀ write ∈ history ++ [⟨j, payloadEntry j (longEntry 1)⟩], Write.FirstLap byteVec write) ∧
    Torn byteVec ⟨j, payloadEntry j (longEntry 1)⟩ disk ∧
    ¬Resumes byteVec disk forwardConfig epoch
      (completed byteVec disk (history ++ [⟨j, payloadEntry j (longEntry 1)⟩])) := by
  obtain ⟨j₁, j, history, run, last, lap, _, _, kind, closes₁, closes⟩ := two_blocks
  have small : (encodeEntry byteVec (payloadEntry j (longEntry 1))).length < blockSize := by
    rw [length_longEntry, blockSize_eq]
    omega
  obtain ⟨fresh, tracked⟩ := run_fresh (by rw [headerSize_eq, blockSize_eq]; omega)
    (by rw [offMax]; omega) run fun write found => lap write (List.mem_append_left _ found)
  have here : Write.FirstLap byteVec ⟨j, payloadEntry j (longEntry 1)⟩ :=
    lap _ (List.mem_append_right _ (List.mem_singleton_self _))
  obtain ⟨blocks, laid, _⟩ := fresh.laid
  have ready := fresh.ready laid small here
  have torn : Torn byteVec ⟨j, payloadEntry j (longEntry 1)⟩ _ := .entry 0
  have disk : splice (opened byteVec ⟨j, payloadEntry j (longEntry 1)⟩).file
      (j.fileOff (Write.offset byteVec ⟨j, payloadEntry j (longEntry 1)⟩))
      ((Write.bytes byteVec ⟨j, payloadEntry j (longEntry 1)⟩).take 0) =
      (opened byteVec ⟨j, payloadEntry j (longEntry 1)⟩).file := by
    have inside := ready.ring.fileOff_lt (Write.offset byteVec ⟨j, payloadEntry j (longEntry 1)⟩)
    rw [opened_fileOff] at inside
    rw [List.take_zero]
    exact splice_nil inside.le
  have cut : ¬Write.OnDisk byteVec _ ⟨j, payloadEntry j (longEntry 1)⟩ :=
    not_onDisk_of_blank small (zeros_of_blank (place_room here) ready.blank)
  rw [← disk] at cut
  refine ⟨j, history, _, run, ⟨_, List.mem_of_getLast? last, closes₁⟩, lap, torn, ?_⟩
  have rest := completed_of_torn fresh small here torn cut
  rw [rest]
  exact (headed_not_resumed epoch fresh tracked (Or.inr kind.symm) small here closes 0).2.1

/-- A crash before the first of these writes loses nothing. -/
theorem crash_before_closing_resumed : ∃ (j : Journal) (history : List (Write ByteVec)),
    Run byteVec (fun _ => True) (Journal.new threeBlocks forwardConfig epoch) j history ∧
    j.header.tail = 231072 ∧ Resumes byteVec j.file forwardConfig epoch history := by
  obtain ⟨j₁, j, history, run, last, lap, tail₁, tail, kind, closes₁, closes⟩ := two_blocks
  have value := blockSize_eq
  have small : (encodeEntry byteVec (payloadEntry j (longEntry 1))).length < blockSize := by
    rw [length_longEntry, blockSize_eq]
    omega
  have covers : headerSize + blockSize ≤ 393240 := by
    rw [headerSize_eq, blockSize_eq]
    omega
  have signed : 393240 ≤ offMax := by
    rw [offMax]
    omega
  obtain ⟨fresh, tracked⟩ := run_fresh covers signed run fun write found =>
    lap write (List.mem_append_left _ found)
  have here : Write.FirstLap byteVec ⟨j, payloadEntry j (longEntry 1)⟩ :=
    lap _ (List.mem_append_right _ (List.mem_singleton_self _))
  have headed : ∃ write ∈ history, write.closes byteVec = true :=
    ⟨_, List.mem_of_getLast? last, closes₁⟩
  have torn : Torn byteVec ⟨j, payloadEntry j (longEntry 1)⟩ j.file := .closing List.nil_prefix
  have place := place_of_closes (by omega) closes
  have cut : ¬Write.OnDisk byteVec j.file ⟨j, payloadEntry j (longEntry 1)⟩ :=
    not_onDisk_of_blank small
      (zeros_of_blank (place_room here) fun off above => fresh.blank off (by omega))
  have rest := completed_of_torn fresh small here torn cut
  obtain ⟨persisted, final, decoded, found, resumes⟩ := torn_write_resumes_iff covers signed run headed
    lap rfl small torn (Or.inr kind.symm : forwardConfig.journalType = .invalid ∨ _)
  rw [rest] at found resumes
  rw [last] at found
  cases found
  obtain ⟨sound, trail⟩ := tracked
  obtain ⟨header, front, _, _, trail, found, offset⟩ := trail headed
  rw [last] at found
  cases found
  rw [persisted_decodes trail sound] at decoded
  cases decoded
  have finish := fresh.ends _ last
  have start := place_of_closes (by omega) closes₁
  rw [tail₁, blockSize_eq] at start
  obtain ⟨same, _⟩ := fresh.held _ (List.mem_of_getLast? last)
  have spot : j₁.fileOff (Write.finish byteVec ⟨j₁, payloadEntry j₁ (longEntry 1)⟩) =
      j.fileOff j.header.tail := by
    rw [finish, Journal.fileOff, Journal.fileOff, same]
  have room := place_room here
  refine ⟨j, history, run, tail, resumes.mpr ⟨by omega, by omega, Or.inr (Or.inr ?_)⟩⟩
  rw [spot]
  exact zeros_of_blank (by omega) fresh.blank

end ThreeBlocks

end Fsyncer.JournalCrash
