import Fsyncer.JournalRun

/-! What a run of writes keeps readable. The ring moves `head` only while it
closes a block, so a block that an entry fills to the last byte is the one way
to run into `head` unnoticed. -/
namespace Fsyncer.JournalRetention
open Fsyncer.ByteFile Fsyncer.Machine Fsyncer.Wire Fsyncer.JournalStore
open Fsyncer.JournalLayout Fsyncer.JournalWrite Fsyncer.JournalRun

variable {T : Type} {codec : Codec T} {j j' : Journal} {e : StoreEntry T}

/-- The entries of one block with the logical offsets they start at. -/
def locateEntries : ℕ → List (Stored codec) → List (ℕ × StoreEntry T)
  | _, [] => []
  | off, stored :: rest => (off, stored.entry) :: locateEntries (off + stored.bytes.length) rest

/-- The entries of consecutive blocks with the logical offsets they start at. -/
def locate : ℕ → List (List (Stored codec)) → List (ℕ × StoreEntry T)
  | _, [] => []
  | start, entries :: rest => locateEntries start entries ++ locate (start + blockSize) rest

theorem locateEntries_append (off : ℕ) (first second : List (Stored codec)) :
    locateEntries off (first ++ second) =
      locateEntries off first ++ locateEntries (off + (packed first).length) second := by
  induction first generalizing off with
  | nil => simp [locateEntries]
  | cons stored first ih =>
    simp only [List.cons_append, locateEntries, ih, packed_cons, List.length_append, Nat.add_assoc]

theorem locate_append (start : ℕ) (first second : List (List (Stored codec))) :
    locate start (first ++ second) =
      locate start first ++ locate (start + first.length * blockSize) second := by
  induction first generalizing start with
  | nil => simp [locate]
  | cons entries first ih =>
    have regroup : start + (entries :: first).length * blockSize =
        start + blockSize + first.length * blockSize := by
      rw [List.length_cons, Nat.succ_mul]
      omega
    simp only [List.cons_append, locate, ih, regroup, List.append_assoc]

theorem locate_snd (start : ℕ) (blocks : List (List (Stored codec))) :
    (locate start blocks).map Prod.snd = entriesOf blocks := by
  have inner (off : ℕ) (entries : List (Stored codec)) :
      (locateEntries off entries).map Prod.snd = entries.map Stored.entry := by
    induction entries generalizing off with
    | nil => rfl
    | cons stored entries ih => simp [locateEntries, ih]
  induction blocks generalizing start with
  | nil => rfl
  | cons entries blocks ih => simp [locate, inner, ih, entriesOf]

section Slots

/-- The tail stands behind the entries `current` of a block of the ring that
still has room for `room` bytes; the blocks before it are finished. -/
structure Slot (codec : Codec T) (j : Journal) (before : List (List (Stored codec)))
    (current : List (Stored codec)) (room : ℕ) : Prop where
  finished : FinishedRun j j.header.head before
  held : Holds j.file (j.fileOff (j.header.head + before.length * blockSize)) (packed current)
  ends : j.header.head + before.length * blockSize + (packed current).length = j.header.tail
  fits : (packed current).length + room ≤ blockSize
  window : before.length * blockSize + blockSize ≤ j.size

/-- Landing an entry in a slot gives a block layout again, and reaches nothing
that was live. -/
theorem slot_landed (ring : Ring j) (head_dvd : blockSize ∣ j.header.head)
    {before : List (List (Stored codec))} {current : List (Stored codec)} (stored : Stored codec)
    (slot : Slot codec j before current stored.bytes.length)
    (small : j.header.tail + stored.bytes.length < 2 ^ 64) :
    Untouched j (landed j stored.bytes) j.header.head j.header.tail ∧
      WellLaid codec (landed j stored.bytes) (before ++ [current ++ [stored]]) := by
  have ends := slot.ends
  have fits := slot.fits
  have window := slot.window
  have long := stored.length_ge
  have start_dvd : blockSize ∣ j.header.head + before.length * blockSize :=
    Nat.dvd_add head_dvd (Nat.dvd_mul_left _ _)
  have place : j.fileOff j.header.tail =
      j.fileOff (j.header.head + before.length * blockSize) + (packed current).length := by
    rw [← ends, fileOff_add ring.size_dvd ring.size_pos start_dvd (by omega)]
  have within := mod_of_block start_dvd (by omega : (packed current).length < blockSize)
  rw [ends] at within
  have untouched : Untouched j (landed j stored.bytes) j.header.head j.header.tail :=
    untouched_splice ring (by omega) (landed_file j stored.bytes) (by omega)
  have tail := landed_tail small
  refine ⟨untouched, ?_⟩
  refine ⟨ring.size_pos, ring.size_dvd, head_dvd, ?_, ?_, by omega, .filled ?_ ⟨by simp, ?_, ?_, ?_⟩⟩
  · rw [tail, landed_head]; omega
  · rw [tail, landed_head, landed_size]; omega
  · exact untouched.finishedRun ring rfl head_dvd le_rfl (by omega) slot.finished
  · rw [packed_append, holds_append, landed_head]
    refine ⟨untouched.holds_start ring rfl start_dvd (by omega) (by omega) (by omega) slot.held, ?_⟩
    rw [packed_cons, packed_nil, List.append_nil, landed_file, landed_fileOff, place]
    exact holds_splice_self _ _ _
  · simpa using fits
  · rw [tail, packed_append, List.length_append, packed_cons, packed_nil, List.append_nil, landed_head]
    omega

/-- Below the end of the ring there is room for a whole block. -/
private theorem block_fits (multiple : blockSize ∣ size) (aligned : blockSize ∣ start)
    (below : start < size) : start + blockSize ≤ size := by
  obtain ⟨count, rfl⟩ := multiple
  obtain ⟨index, rfl⟩ := aligned
  rw [← Nat.mul_succ]
  exact Nat.mul_le_mul_left _ (Nat.lt_of_mul_lt_mul_left below)

/-- The tail of a laid out journal that is not full is in front of free room:
either in its block, or at the start of the next one. -/
theorem slot_here (laid : WellLaid codec j blocks) (spare : j.header.tail ≠ j.header.head + j.size)
    (roomy : room ≤ blockSize - j.header.tail % blockSize) :
    ∃ before current, Slot codec j before current room ∧
      (before ++ [current]).flatten = blocks.flatten ∧
      locate j.header.head (before ++ [current]) = locate j.header.head blocks := by
  have tail_le := laid.tail_le
  cases laid.blocks with
  | empty none_live =>
    refine ⟨[], [], ⟨trivial, holds_nil _ _, ?_, ?_, ?_⟩, rfl, rfl⟩
    · simpa using none_live
    · rw [packed_nil, List.length_nil]; omega
    · have := block_fits laid.size_dvd (Nat.dvd_zero _) laid.size_pos
      simpa using this
  | @filled before last finished current =>
    have start_dvd : blockSize ∣ j.header.head + before.length * blockSize :=
      Nat.dvd_add laid.head_dvd (Nat.dvd_mul_left _ _)
    have ends := current.ends
    have filled := packed_length_pos current.nonempty
    rcases Nat.eq_or_lt_of_le current.fits with full | partly
    · have count : (before ++ [last]).length * blockSize = before.length * blockSize + blockSize := by
        rw [List.length_append, List.length_singleton, Nat.succ_mul]
      refine ⟨before ++ [last], [], ⟨?_, holds_nil _ _, ?_, ?_, ?_⟩, by simp, ?_⟩
      · exact finishedRun_append.mpr ⟨finished, ⟨current.nonempty, current.held, current.fits,
          Or.inl (by omega)⟩, trivial⟩
      · rw [packed_nil, List.length_nil, count]; omega
      · rw [packed_nil, List.length_nil]; omega
      · exact block_fits laid.size_dvd (Nat.dvd_mul_left _ _) (by omega)
      · simp [locate_append, locate, locateEntries]
    · have within := mod_of_block start_dvd partly
      rw [ends] at within
      exact ⟨before, last, ⟨finished, current.held, ends, by omega,
        block_fits laid.size_dvd (Nat.dvd_mul_left _ _) (by omega)⟩, rfl, rfl⟩

/-- The blocks of a journal whose current one has been closed are all finished. -/
private theorem finished_closed (ring : Ring j) (laid : WellLaid codec j (before ++ [last]))
    (finished : FinishedRun j j.header.head before)
    (current : Current j (j.header.head + before.length * blockSize) last)
    (partly : (packed last).length < blockSize) (closed : ClosedTo j opened)
    (untouched : Untouched j opened j.header.head j.header.tail) :
    FinishedRun opened j.header.head (before ++ [last]) := by
  have start_dvd : blockSize ∣ j.header.head + before.length * blockSize :=
    Nat.dvd_add laid.head_dvd (Nat.dvd_mul_left _ _)
  have ends := current.ends
  have within := mod_of_block start_dvd partly
  rw [ends] at within
  refine finishedRun_append.mpr ⟨untouched.finishedRun ring closed.size laid.head_dvd le_rfl
    (by omega) finished, ⟨current.nonempty, ?_, current.fits, ?_⟩, trivial⟩
  · exact untouched.holds_start ring closed.size start_dvd (by omega) current.fits (by omega)
      current.held
  · by_cases spare : blockSize - (packed last).length < 4
    · exact Or.inl spare
    · have marker := closed.marker (by omega)
      rw [← ends, fileOff_add ring.size_dvd ring.size_pos start_dvd partly] at marker
      simp only [Journal.fileOff, closed.size] at marker ⊢
      exact Or.inr marker

/-- Closing a block that has too little room opens the next one, after giving
up the oldest block if the ring was full. -/
theorem slot_closed (ring : Ring j) (laid : WellLaid codec j blocks) (size_lt : j.size < 2 ^ 64)
    (small : j.header.tail + blockSize < 2 ^ 64) (short : room < blockSize)
    (tight : blockSize - j.header.tail % blockSize < room) (closed : ClosedTo j opened) :
    ∃ before current dropped, Slot codec opened before current room ∧
      blockSize ∣ opened.header.head ∧ j.header.head ≤ opened.header.head ∧
      Untouched j opened j.header.head j.header.tail ∧
      (before ++ [current]).flatten =
        (if opened.header.tail = j.header.head + j.size then blocks.tail else blocks).flatten ∧
      locate j.header.head blocks = dropped ++ locate opened.header.head (before ++ [current]) := by
  have tail_le := laid.tail_le
  cases laid.blocks with
  | empty none_live =>
    rw [← none_live, Nat.mod_eq_zero_of_dvd laid.head_dvd] at tight
    omega
  | @filled before last finished current =>
    have start_dvd : blockSize ∣ j.header.head + before.length * blockSize :=
      Nat.dvd_add laid.head_dvd (Nat.dvd_mul_left _ _)
    have ends := current.ends
    have filled := packed_length_pos current.nonempty
    have partly : (packed last).length < blockSize := by
      refine Nat.lt_of_le_of_ne current.fits fun full => ?_
      have whole : j.header.tail % blockSize = 0 :=
        Nat.mod_eq_zero_of_dvd (by rw [← ends, full]; exact Nat.dvd_add start_dvd (Nat.dvd_refl _))
      omega
    have within := mod_of_block start_dvd partly
    rw [ends] at within
    have window := block_fits laid.size_dvd (Nat.dvd_mul_left blockSize before.length) (by omega)
    have count : (before ++ [last]).length * blockSize = before.length * blockSize + blockSize := by
      rw [List.length_append, List.length_singleton, Nat.succ_mul]
    have untouched := closed.untouched j.header.head (by omega)
    have run := finished_closed ring laid finished current partly closed untouched
    have tail := closed.tail small
    have head := closed.head small laid.head_le size_lt
    split at head
    · next lap =>
      -- the ring is full, so its first block is dropped
      obtain ⟨first, rest, split⟩ := List.exists_cons_of_ne_nil (List.concat_ne_nil last before)
      rw [split, List.length_cons, Nat.succ_mul] at count
      rw [split] at run ⊢
      refine ⟨rest, [], locateEntries j.header.head first, ⟨?_, holds_nil _ _, ?_, ?_, ?_⟩, ?_, ?_,
        untouched, by simp [lap], ?_⟩
      · rw [head]; exact run.2
      · rw [packed_nil, List.length_nil, head, tail]; omega
      · rw [packed_nil, List.length_nil]; omega
      · rw [closed.size]; omega
      · rw [head]; exact Nat.dvd_add laid.head_dvd (Nat.dvd_refl _)
      · omega
      · simp [locate, locate_append, locateEntries, head]
    · next more =>
      refine ⟨before ++ [last], [], [], ⟨?_, holds_nil _ _, ?_, ?_, ?_⟩, ?_, ?_, untouched,
        by simp [more], ?_⟩
      · rw [head]; exact run
      · rw [packed_nil, List.length_nil, head, tail, count]; omega
      · rw [packed_nil, List.length_nil]; omega
      · rw [closed.size]
        exact block_fits laid.size_dvd (Nat.dvd_mul_left _ _) (by omega)
      · rw [head]; exact laid.head_dvd
      · omega
      · simp [locate, locate_append, locateEntries, head]

end Slots

section Runs

/-- The next write would have to start one whole ring behind `head`. -/
def Full (j : Journal) : Prop := j.header.tail = j.header.head + j.size

instance : DecidablePred Full := fun j => inferInstanceAs (Decidable (j.header.tail = j.header.head + j.size))

/-- What a reader of the journal is promised, given the entries written so far
with their offsets. -/
structure Retained (codec : Codec T) (j : Journal) (log : List (ℕ × StoreEntry T)) : Prop where
  head_le : j.header.head ≤ j.header.tail
  tail_le : j.header.tail ≤ j.header.head + j.size
  head_dvd : blockSize ∣ j.header.head
  reads : ∃ live, live <:+ log ∧
    Drains (ForwardNext codec) j.readForward ((live.map Prod.snd).map .ok) ∧
    (log ≠ [] → ∃ first rest, live = (j.header.head, first) :: rest)

/-- The invariant behind `Retained`: the live part of the log is laid out in
the blocks from `head` on. -/
structure Kept (codec : Codec T) (j : Journal) (log : List (ℕ × StoreEntry T)) : Prop where
  ring : Ring j
  size_lt : j.size < 2 ^ 64
  laid : ∃ blocks dropped, WellLaid codec j blocks ∧ log = dropped ++ locate j.header.head blocks ∧
    (log ≠ [] → blocks ≠ [])

/-- The layout is a matter of the bytes between head and tail. -/
theorem WellLaid.carry {blocks : List (List (Stored codec))} (laid : WellLaid codec j blocks)
    (ring : Ring j) (size : j'.size = j.size) (head : j'.header.head = j.header.head)
    (tail : j'.header.tail = j.header.tail)
    (untouched : Untouched j j' j.header.head j.header.tail) : WellLaid codec j' blocks := by
  obtain ⟨size_pos, size_dvd, head_dvd, head_le, tail_le, tail_lt, filled⟩ := laid
  refine ⟨size ▸ size_pos, size ▸ size_dvd, head ▸ head_dvd, by omega, by omega, by omega, ?_⟩
  cases filled with
  | empty none_live => exact .empty (by omega)
  | @filled before last finished current =>
    have start_dvd : blockSize ∣ j.header.head + before.length * blockSize :=
      Nat.dvd_add head_dvd (Nat.dvd_mul_left _ _)
    have ends := current.ends
    have fits := current.fits
    refine .filled ?_ ⟨current.nonempty, ?_, fits, by rw [head, tail]; exact ends⟩
    · rw [head]
      exact untouched.finishedRun ring size head_dvd le_rfl (by omega) finished
    · rw [head]
      exact untouched.holds_start ring size start_dvd (by omega) fits (by omega) current.held

/-- The time of the last marker plays no part in the layout. -/
theorem Kept.clock (kept : Kept codec j log) (moment : SystemTime) :
    Kept codec { j with lastTime := moment } log := by
  obtain ⟨blocks, dropped, laid, split, some_live⟩ := kept.laid
  exact ⟨kept.ring.grow rfl le_rfl, kept.size_lt, blocks, dropped,
    WellLaid.carry laid kept.ring rfl rfl rfl fun _ _ _ => rfl, split, some_live⟩

theorem locate_starts (laid : WellLaid codec j blocks) (some_live : blocks ≠ []) :
    ∃ first rest, locate j.header.head blocks = (j.header.head, first) :: rest := by
  have starts {entries : List (Stored codec)} (more : List (List (Stored codec)))
      (nonempty : entries ≠ []) : ∃ first rest,
      locate j.header.head (entries :: more) = (j.header.head, first) :: rest := by
    cases entries with
    | nil => exact absurd rfl nonempty
    | cons stored entries => exact ⟨_, _, rfl⟩
  cases laid.blocks with
  | empty none_live => exact absurd rfl some_live
  | @filled before last finished current =>
    cases before with
    | nil => exact starts [] current.nonempty
    | cons entries before => exact starts (before ++ [last]) finished.1.nonempty

theorem Kept.retained (kept : Kept codec j log) : Retained codec j log := by
  obtain ⟨blocks, dropped, laid, split, some_live⟩ := kept.laid
  refine ⟨laid.head_le, laid.tail_le, laid.head_dvd, locate j.header.head blocks, ?_, ?_, ?_⟩
  · exact ⟨dropped, split.symm⟩
  · rw [locate_snd]
    exact forward_drains laid
  · intro written
    exact locate_starts laid (some_live written)

/-- One `write_inner` that does not start full keeps the invariant, and the
live bytes that stay live. -/
theorem writeInner_keeps (kept : Kept codec j log) (spare : ¬Full j) (far : FarFromWrap j)
    (wrote : j.writeInner codec e = .ok j') :
    Kept codec j' (log ++ [Write.logged codec ⟨j, e⟩]) ∧ j'.size = j.size ∧
      j.header.head ≤ j'.header.head ∧ j.header.tail ≤ j'.header.tail ∧
      Untouched j j' j'.header.head j.header.tail := by
  obtain ⟨blocks, dropped, laid, split, some_live⟩ := kept.laid
  have room := far.two_blocks
  obtain ⟨small, opened, prepared, rfl⟩ := writeInner_ok laid.tail_lt wrote
  have length := length_storedEntry e small
  have space := space_in_block laid.tail_lt
  have land {opened : Journal} {before : List (List (Stored codec))} {current : List (Stored codec)}
      {gone : List (ℕ × StoreEntry T)} (ring : Ring opened) (size : opened.size = j.size)
      (head_dvd : blockSize ∣ opened.header.head) (head_le : j.header.head ≤ opened.header.head)
      (near : opened.header.tail ≤ j.header.tail + blockSize) (ahead : j.header.tail ≤ opened.header.tail)
      (slot : Slot codec opened before current (encodeEntry codec e).length)
      (untouched : Untouched j opened j.header.head j.header.tail)
      (live : locate j.header.head blocks = gone ++ locate opened.header.head (before ++ [current]))
      (offset : Write.offset codec ⟨j, e⟩ = opened.header.tail) :
      Kept codec (landed opened (storedEntry codec e small).bytes)
          (log ++ [Write.logged codec ⟨j, e⟩]) ∧ opened.size = j.size ∧
        j.header.head ≤ opened.header.head ∧
        j.header.tail ≤ (landed opened (storedEntry codec e small).bytes).header.tail ∧
        Untouched j (landed opened (storedEntry codec e small).bytes) opened.header.head
          j.header.tail := by
    have fits : opened.header.tail + (storedEntry codec e small).bytes.length < 2 ^ 64 := by omega
    rw [← length] at slot
    obtain ⟨kept_bytes, laid⟩ := slot_landed ring head_dvd _ slot fits
    refine ⟨⟨ring.landed _, by rw [landed_size, size]; exact kept.size_lt, _, dropped ++ gone, laid,
      ?_, by simp⟩, size, head_le, by rw [landed_tail fits]; omega, ?_⟩
    · have ends := slot.ends
      rw [split, live, Write.logged, offset, landed_head, locate_append, locate_append, locate, locate,
        locate, locate, locateEntries_append, ends]
      simp [locateEntries, storedEntry]
    · exact (untouched.mono head_le le_rfl).trans (kept_bytes.mono le_rfl ahead) size
  rcases prepared with ⟨tight, closed⟩ | ⟨roomy, rfl⟩
  · have closed := closedTo_of_closeBlock kept.ring closed
    have tail := closed.tail (by omega)
    obtain ⟨before, current, gone, slot, head_dvd, head_le, untouched, _, live⟩ :=
      slot_closed kept.ring laid kept.size_lt (by omega) small tight closed
    refine land closed.ring closed.size head_dvd head_le (by omega) (by omega) slot untouched live ?_
    rw [Write.offset, if_pos (by simp only [Write.closes, space, decide_eq_true_eq]; exact tight),
      closed.header, closedHeader_tail]
  · obtain ⟨before, current, slot, _, live⟩ := slot_here laid spare roomy
    refine land kept.ring rfl laid.head_dvd le_rfl (by omega) le_rfl slot (fun _ _ _ => rfl)
      (live.symm.trans (List.nil_append _).symm) ?_
    rw [Write.offset, if_neg (by simp only [Write.closes, space, decide_eq_true_eq]; omega)]

/-- A write that starts a whole ring behind `head`, or further, ends further
than that: nothing moves `head` any more. -/
theorem writeInner_overruns (ring : Ring j) (size_lt : j.size < 2 ^ 64) (far : FarFromWrap j)
    (past : j.header.head + j.size ≤ j.header.tail) (wrote : j.writeInner codec e = .ok j') :
    Ring j' ∧ j'.size = j.size ∧ j'.header.head + j'.size < j'.header.tail := by
  have size_pos := ring.size_pos
  have room := far.two_blocks
  obtain ⟨small, opened, prepared, rfl⟩ := writeInner_ok (by omega) wrote
  have long := (storedEntry codec e small).length_ge
  have length := length_storedEntry e small
  rcases prepared with ⟨tight, closed⟩ | ⟨roomy, rfl⟩
  · have closed := closedTo_of_closeBlock ring closed
    have below := Nat.mod_lt j.header.tail blockSize_pos
    have tail := closed.tail (by omega)
    have head := closed.head (by omega) (by omega) size_lt
    rw [if_neg (by omega)] at head
    refine ⟨closed.ring.landed _, closed.size, ?_⟩
    rw [landed_tail (by omega), landed_head, landed_size, closed.size, head]
    omega
  · refine ⟨ring.landed _, rfl, ?_⟩
    rw [landed_tail (by omega), landed_head, landed_size]
    omega

@[simp] theorem new_head (file : File) (c : JournalConfig) (now : SystemTime) :
    (Journal.new file c now).header.head = 0 := rfl

@[simp] theorem new_tail (file : File) (c : JournalConfig) (now : SystemTime) :
    (Journal.new file c now).header.tail = 0 := rfl

theorem kept_new (covers : headerSize + blockSize ≤ file.length) (signed : file.length ≤ offMax)
    (c : JournalConfig) (now : SystemTime) : Kept codec (Journal.new file c now) [] := by
  have length : usub file.length headerSize = file.length - headerSize :=
    usub_of_le (by omega) (by rw [offMax] at signed; omega)
  have size : (Journal.new file c now).size = (file.length - headerSize) / blockSize * blockSize := by
    rw [← length]
    rfl
  have below := Nat.div_mul_le_self (file.length - headerSize) blockSize
  have dvd : blockSize ∣ (Journal.new file c now).size := size ▸ Nat.dvd_mul_left _ _
  have positive : 0 < (Journal.new file c now).size := by
    rw [size]
    exact Nat.mul_pos (Nat.div_pos (by omega) blockSize_pos) blockSize_pos
  refine ⟨⟨positive, dvd, ?_⟩, by rw [offMax] at signed; omega, [], [],
    ⟨positive, dvd, Nat.dvd_zero _, le_rfl, Nat.zero_le _, Nat.two_pow_pos 64, .empty rfl⟩, rfl, by simp⟩
  rw [size]
  show headerSize + _ ≤ file.length
  omega

/-- Everything a `write_entry` keeps, seen from the journal `base` it started on. -/
private def KeptSince (codec : Codec T) (base j : Journal) (history : List (Write T)) : Prop :=
  Kept codec j (history.map (Write.logged codec)) ∧ j.size = base.size ∧
    base.header.head ≤ j.header.head ∧ base.header.tail ≤ j.header.tail ∧
    Untouched base j j.header.head base.header.tail

private theorem writeInner_keptSince (kept : KeptSince codec base j history)
    (meets : ¬Full j ∧ FarFromWrap j) (wrote : j.writeInner codec e = .ok j') :
    KeptSince codec base j' (history ++ [⟨j, e⟩]) := by
  obtain ⟨kept, size, head_le, tail_le, untouched⟩ := kept
  obtain ⟨kept', size', head_le', tail_le', untouched'⟩ := writeInner_keeps kept meets.1 meets.2 wrote
  refine ⟨by simpa using kept', size'.trans size, head_le.trans head_le', tail_le.trans tail_le', ?_⟩
  exact (untouched.mono head_le' le_rfl).trans (untouched'.mono le_rfl tail_le) size

private theorem keptSince_call (kept : Kept codec j (history.map (Write.logged codec)))
    (ready : j.writeMarker codec now = .ok marked) (wrote : j.writeEntry codec now value = .ok j')
    (meets : ∀ write ∈ innerWrites j now marked value, ¬Full write.before ∧ FarFromWrap write.before) :
    KeptSince codec j j' (history ++ innerWrites j now marked value) :=
  call_keeps (fun j => ¬Full j ∧ FarFromWrap j) (KeptSince codec j)
    (fun kept meets _ wrote => writeInner_keptSince kept meets wrote)
    (fun moment kept => ⟨kept.1.clock moment, kept.2⟩) ⟨kept, rfl, le_rfl, le_rfl, fun _ _ _ => rfl⟩ ready meets wrote

/-- A call one of whose writes starts full overruns `head`. -/
private theorem call_overruns (kept : Kept codec j log)
    (ready : j.writeMarker codec now = .ok marked) (wrote : j.writeEntry codec now value = .ok j')
    (far : ∀ write ∈ innerWrites j now marked value, FarFromWrap write.before)
    (full : ∃ write ∈ innerWrites j now marked value, Full write.before) :
    j'.header.head + j'.size < j'.header.tail := by
  rcases writeEntry_cases ready wrote with ⟨writes, wrote⟩ | ⟨timed, written, rfl, writes, wrote⟩
  · rw [writes] at far full
    obtain ⟨_, member, full⟩ := full
    cases List.mem_singleton.mp member
    exact (writeInner_overruns kept.ring kept.size_lt (far _ (List.mem_singleton_self _)) full.ge
      wrote).2.2
  · rw [writes] at far full
    have far_first : FarFromWrap j := far _ List.mem_cons_self
    have far_second := far _ (List.mem_cons_of_mem _ (List.mem_singleton_self _))
    by_cases early : Full j
    · obtain ⟨ring, size, past⟩ :=
        writeInner_overruns kept.ring kept.size_lt far_first early.ge written
      exact (writeInner_overruns (j := { timed with lastTime := now }) (ring.grow rfl le_rfl)
        (by rw [size]; exact kept.size_lt) far_second past.le wrote).2.2
    · obtain ⟨kept', size, _⟩ := writeInner_keeps kept early far_first written
      have late : Full { timed with lastTime := now } := by
        obtain ⟨_, member, full⟩ := full
        rcases List.mem_cons.mp member with rfl | member
        · exact absurd full early
        · cases List.mem_singleton.mp member
          exact full
      exact (writeInner_overruns (kept'.clock now).ring (kept'.clock now).size_lt far_second late.ge
        wrote).2.2

/-- **Retention.** As long as no write starts exactly one ring behind `head`,
reading forward gives the most recent entries, from the one at `head` on, and
no live byte is overwritten. The first call with a write that does start there
breaks this. -/
theorem retained_while_never_full (covers : headerSize + blockSize ≤ file.length)
    (signed : file.length ≤ offMax)
    (run : Run codec (fun j => ¬Full j ∧ FarFromWrap j) (Journal.new file c started) j history) :
    Retained codec j (history.map (Write.logged codec)) ∧
    ∀ now value marked j', j.writeMarker codec now = .ok marked →
      j.writeEntry codec now value = .ok j' →
      (∀ write ∈ innerWrites j now marked value, FarFromWrap write.before) →
      ((∀ write ∈ innerWrites j now marked value, ¬Full write.before) ↔
        Retained codec j' ((history ++ innerWrites j now marked value).map (Write.logged codec))) ∧
      ((∀ write ∈ innerWrites j now marked value, ¬Full write.before) →
        Untouched j j' j'.header.head j.header.tail) := by
  have kept : Kept codec j (history.map (Write.logged codec)) := by
    refine run_keeps _ (fun j history => Kept codec j (history.map (Write.logged codec))) ?_
      (fun moment kept => kept.clock moment) (kept_new covers signed c started) run
    intro j e j' history kept meets _ wrote
    simpa using (writeInner_keeps kept meets.1 meets.2 wrote).1
  refine ⟨kept.retained, fun now value marked j' ready wrote far => ⟨⟨?_, ?_⟩, ?_⟩⟩
  · intro spare
    exact (keptSince_call kept ready wrote fun write found => ⟨spare write found, far write found⟩).1.retained
  · intro retained write found full
    have overrun := call_overruns kept ready wrote far ⟨write, found, full⟩
    have bound := retained.tail_le
    omega
  · intro spare
    exact (keptSince_call kept ready wrote fun write found =>
      ⟨spare write found, far write found⟩).2.2.2.2

end Runs

section ExactFill

/-- A file for a ring of a single block. -/
def singleBlock : File := List.replicate (headerSize + blockSize) 0

def forwardConfig : JournalConfig := ⟨false, .forward⟩

def epoch : SystemTime := ⟨0, 0, SystemTime.secs_zero, SystemTime.nanos_zero⟩

/-- A payload whose entry takes exactly half a block. -/
def halfBlock : ByteVec :=
  ⟨List.replicate 65512 0, by rw [List.length_replicate]; omega⟩

theorem length_halfBlock (j : Journal) :
    (encodeEntry byteVec (payloadEntry j halfBlock)).length = 65536 := by
  have length : halfBlock.1.length = 65512 := List.length_replicate
  rw [length_encodeEntry, payloadEntry, encodeContent, List.length_append, length_leBytes,
    length_byteVec_encode, length]

theorem halfBlock_lands (size : j.size = blockSize) (low : (count + 1) * 65536 < 2 ^ 64)
    (tail : j.header.tail = count * 65536) :
    ∃ j', j.writeEntry byteVec j.lastTime halfBlock = .ok j' ∧ j'.size = blockSize ∧
      j'.header.tail = (count + 1) * 65536 ∧ j'.header.head = j.header.head ∧
      j'.lastTime = j.lastTime := by
  have length := length_halfBlock j
  have value := blockSize_eq
  have within : j.header.tail % blockSize ≤ 65536 := by rw [blockSize_eq]; omega
  obtain ⟨j', wrote⟩ := @writeInner_succeeds _ byteVec j (payloadEntry j halfBlock) (by omega)
    (by omega) (by omega) (by rw [headerSize_eq, offMax]; omega)
  obtain ⟨small, opened, prepared, rfl⟩ := writeInner_ok (by omega) wrote
  have stored := length_storedEntry _ small
  rcases prepared with ⟨tight, _⟩ | ⟨_, rfl⟩
  · omega
  · refine ⟨_, (writeEntry_recent _ _ _).trans wrote, (landed_size _ _).trans size, ?_,
      landed_head _ _, landed_lastTime _ _⟩
    rw [landed_tail (by omega)]
    omega

theorem length_singleBlock : singleBlock.length = 131096 := by
  rw [singleBlock, List.length_replicate, headerSize_eq, blockSize_eq]

theorem size_singleBlock :
    (Journal.new singleBlock forwardConfig epoch).size = blockSize := by
  show alignDown (usub singleBlock.length headerSize) blockSize = blockSize
  rw [length_singleBlock, headerSize_eq, blockSize_eq]
  decide

theorem not_full_singleBlock : ¬Full (Journal.new singleBlock forwardConfig epoch) ∧
    FarFromWrap (Journal.new singleBlock forwardConfig epoch) := by
  rw [Full, FarFromWrap, size_singleBlock, new_tail, new_head, blockSize_eq]
  omega

/-- Two entries fill the only block exactly; the third is laid over the first
while `head` still points at it. -/
theorem exact_fill_overruns_head : ∃ j₁ j₂ j₃,
    (Journal.new singleBlock forwardConfig epoch).writeEntry byteVec epoch halfBlock = .ok j₁ ∧
    j₁.writeEntry byteVec epoch halfBlock = .ok j₂ ∧
    j₂.writeEntry byteVec epoch halfBlock = .ok j₃ ∧ ∀ log, ¬Retained byteVec j₃ log := by
  obtain ⟨j₁, wrote₁, size₁, tail₁, head₁, time₁⟩ :=
    halfBlock_lands size_singleBlock (by decide : (0 + 1) * 65536 < 2 ^ 64) (new_tail _ _ _)
  obtain ⟨j₂, wrote₂, size₂, tail₂, head₂, time₂⟩ := halfBlock_lands size₁ (by decide) tail₁
  obtain ⟨j₃, wrote₃, size₃, tail₃, head₃, time₃⟩ := halfBlock_lands size₂ (by decide) tail₂
  have clock : (Journal.new singleBlock forwardConfig epoch).lastTime = epoch := rfl
  rw [time₁, clock] at time₂
  rw [time₂] at wrote₃
  rw [time₁] at wrote₂
  refine ⟨j₁, j₂, j₃, wrote₁, wrote₂, wrote₃, fun log retained => ?_⟩
  have bound := retained.tail_le
  rw [new_head] at head₁
  have value := blockSize_eq
  omega

/-- The first of these writes still finds everything in order. -/
theorem half_block_is_retained : ∃ (j : Journal) (history : List (Write ByteVec)),
    j.header.tail = 65536 ∧ Retained byteVec j (history.map (Write.logged byteVec)) := by
  obtain ⟨j, wrote, _, tail, _⟩ :=
    halfBlock_lands size_singleBlock (by decide : (0 + 1) * 65536 < 2 ^ 64) (new_tail _ _ _)
  have run := (Run.refl : Run byteVec (fun j => ¬Full j ∧ FarFromWrap j) _ _ _).recent
    not_full_singleBlock rfl wrote
  have covers : headerSize + blockSize ≤ singleBlock.length := by
    rw [length_singleBlock, headerSize_eq, blockSize_eq]
  have signed : singleBlock.length ≤ offMax := by
    rw [length_singleBlock, offMax]
    decide
  exact ⟨j, _, tail, (retained_while_never_full covers signed run).1⟩

end ExactFill

end Fsyncer.JournalRetention
