import Fsyncer.JournalCrash

/-! Reopening a journal that was created a while ago. `Journal::new` leaves the
header on disk as it finds it, and only an entry that opens a block writes it
down; until then there is nothing for `Journal::open` to find. -/
namespace Fsyncer.JournalReopen
open Fsyncer.ByteFile Fsyncer.Machine Fsyncer.Wire Fsyncer.JournalStore
open Fsyncer.JournalLayout Fsyncer.JournalWrite Fsyncer.JournalRun Fsyncer.JournalRetention
open Fsyncer.JournalRecovery Fsyncer.JournalCrash

variable {T : Type} {codec : Codec T} {j j' : Journal} {history : List (Write T)}
  {c : JournalConfig} {kind : JournalType} {now started : SystemTime}

/-- The calls whose entries have not been given up: they lie at `head` or behind it. -/
def live (codec : Codec T) (j : Journal) (history : List (Write T)) : List (Write T) :=
  history.filter fun write => decide (j.header.head ≤ write.offset codec)

/-- Opening the file works, the journal is of the configured type, and a
forward reader gets exactly these entries. -/
def Reopens (codec : Codec T) (j : Journal) (c : JournalConfig) (now : SystemTime)
    (writes : List (Write T)) : Prop :=
  ∃ fuel j', Journal.reopen fuel j.file c now = some (.ok j') ∧ j'.header.ty = c.journalType ∧
    Drains (ForwardNext codec) j'.readForward
      ((writes.map fun write => sealedEntry codec write.entry).map .ok)

/-- Where the calls of a run have put their entries: one behind the other, all
in front of the tail. As long as none has written the header, it is blank; once
one has, the tail it names is not behind the head. -/
structure Placed (codec : Codec T) (kind : JournalType) (j : Journal) (history : List (Write T)) :
    Prop where
  ascending : history.Pairwise fun first second => first.offset codec < second.offset codec
  below : ∀ write ∈ history, write.offset codec < j.header.tail
  ty : j.header.ty = kind
  blank : (∀ write ∈ history, write.closes codec = false) →
    Holds j.file 0 (List.replicate headerSize 0)
  ahead : (∃ write ∈ history, write.closes codec = true) → ∃ persisted,
    Holds j.file 0 (encodeHeader persisted) ∧ persisted.tail < 2 ^ 64 ∧ persisted.head < 2 ^ 64 ∧
      j.header.head ≤ persisted.tail

section Runs

theorem header_short (header : JournalHeader) : (encodeHeader header).length ≤ headerSize := by
  rw [length_encodeHeader, headerSize_eq]

/-- An entry at the tail leaves the header on disk alone. -/
theorem header_landed (j : Journal) (bytes : List UInt8) (short : front.length ≤ headerSize)
    (held : Holds j.file 0 front) : Holds (landed j bytes).file 0 front := by
  rw [landed_file]
  refine held.splice (Or.inl ?_)
  rw [Journal.fileOff]
  omega

/-- The header written when a block is closed does not put the tail behind the head. -/
theorem closed_ahead (closed : ClosedTo j j') (kept : Kept codec j log) (far : FarFromWrap j) :
    (closedHeader j).tail < 2 ^ 64 ∧ (closedHeader j).head < 2 ^ 64 ∧
      j'.header.head ≤ (closedHeader j).tail := by
  obtain ⟨blocks, _, laid, _⟩ := kept.laid
  have room := far.two_blocks
  have head_le := laid.head_le
  have whole : blockSize ≤ j.size := Nat.le_of_dvd kept.ring.size_pos kept.ring.size_dvd
  have tail := closed.tail (by omega)
  have head := closed.head (by omega) head_le kept.size_lt
  have below := Nat.mod_lt j.header.tail blockSize_pos
  rw [← closed.header]
  split at head <;> omega

theorem tail_le_offset (codec : Codec T) (far : FarFromWrap j) (e : StoreEntry T) :
    j.header.tail ≤ Write.offset codec ⟨j, e⟩ ∧
      Write.offset codec ⟨j, e⟩ ≤ j.header.tail + blockSize := by
  have room := far.two_blocks
  rcases Bool.eq_false_or_eq_true (Write.closes codec ⟨j, e⟩) with closes | stays
  · rw [place_of_closes (by omega) closes]
    omega
  · rw [place_of_stays stays]
    exact ⟨le_rfl, Nat.le_add_right _ _⟩

/-- The step: the new entry lies behind all others, and the header changes only
if the call writes it. -/
theorem writeInner_places (placed : Placed codec kind j history) (kept : Kept codec j log)
    (far : FarFromWrap j) (wrote : j.writeInner codec e = .ok j') : Placed codec kind j' (history ++ [⟨j, e⟩]) := by
  have room := far.two_blocks
  obtain ⟨above, near⟩ := tail_le_offset codec far e
  obtain ⟨small, rfl⟩ := writeInner_opened (by omega) wrote
  have length := length_storedEntry e small
  have front := (storedEntry codec e small).length_ge
  have place := opened_tail codec ⟨j, e⟩
  have tail : (landed (opened codec ⟨j, e⟩) (storedEntry codec e small).bytes).header.tail =
      Write.offset codec ⟨j, e⟩ + (storedEntry codec e small).bytes.length := by
    rw [landed_tail (by omega), place]
  have tail_lt : j.header.tail < 2 ^ 64 := by omega
  have prepared := opened_prepared codec e kept.ring tail_lt
  refine ⟨?_, ?_, ?_, ?_, ?_⟩
  · refine List.pairwise_append.mpr ⟨placed.ascending, List.pairwise_singleton _ _, ?_⟩
    intro first earlier second here
    rw [List.mem_singleton.mp here]
    exact (placed.below first earlier).trans_le above
  · intro write found
    rcases List.mem_append.mp found with earlier | here
    · have before := placed.below write earlier
      omega
    · rw [List.mem_singleton.mp here]
      omega
  · rw [landed_ty, opened_ty]
    exact placed.ty
  · intro unwritten
    have stays := unwritten _ (List.mem_append_right _ (List.mem_singleton_self _))
    have blank := placed.blank fun write earlier => unwritten write (List.mem_append_left _ earlier)
    rw [opened_of_stays stays]
    exact header_landed j _ List.length_replicate.le blank
  · rintro ⟨write, found, closes⟩
    rcases prepared with ⟨_, closed⟩ | ⟨roomy, same⟩
    · refine ⟨closedHeader j, header_landed _ _ (header_short _) closed.persisted, ?_⟩
      rw [landed_head]
      exact closed_ahead closed kept far
    · have earlier : write ∈ history := by
        rcases List.mem_append.mp found with earlier | here
        · exact earlier
        · rw [List.mem_singleton.mp here] at closes
          exact absurd ((closes_iff tail_lt).mp closes) (Nat.not_lt.mpr roomy)
      obtain ⟨persisted, held, bounds⟩ := placed.ahead ⟨write, earlier, closes⟩
      rw [same, landed_head]
      exact ⟨persisted, header_landed j _ (header_short _) held, bounds⟩

theorem placed_new (c : JournalConfig) (now : SystemTime) (covers : headerSize ≤ count) :
    Placed codec c.journalType (Journal.new (List.replicate count 0) c now) [] := by
  refine ⟨List.Pairwise.nil, by simp, rfl, fun _ i inside => ?_, by simp⟩
  rw [List.length_replicate] at inside
  show (List.replicate count 0)[0 + i]? = _
  rw [List.getElem?_replicate_of_lt (by omega), List.getElem?_replicate_of_lt inside]

theorem Placed.clock (placed : Placed codec kind j history) (moment : SystemTime) :
    Placed codec kind { j with lastTime := moment } history :=
  ⟨placed.ascending, placed.below, placed.ty, placed.blank, placed.ahead⟩

/-- Everything that is known about a journal whose ring was never full. -/
theorem run_placed (covers : headerSize + blockSize ≤ count) (signed : count ≤ offMax)
    (run : Run codec (fun j => ¬Full j ∧ FarFromWrap j) (Journal.new (List.replicate count 0) c started)
      j history) :
    Kept codec j (history.map (Write.logged codec)) ∧ Tracked codec j history ∧
      Placed codec c.journalType j history := by
  have length : (List.replicate count (0 : UInt8)).length = count := List.length_replicate
  refine run_keeps _ (fun j history => Kept codec j (history.map (Write.logged codec)) ∧
    Tracked codec j history ∧ Placed codec c.journalType j history) ?_ ?_ ?_ run
  · rintro j e j' history ⟨kept, tracked, placed⟩ ⟨spare, far⟩ numbered wrote
    refine ⟨?_, writeInner_tracks tracked far numbered wrote, writeInner_places placed kept far wrote⟩
    simpa using (writeInner_keeps kept spare far wrote).1
  · rintro j history moment ⟨kept, tracked, placed⟩
    exact ⟨kept.clock moment, tracked.clock moment, placed.clock moment⟩
  · exact ⟨kept_new (by omega) (by omega) c started, ⟨(Started.new (by omega) (by omega)).sound,
      fun ⟨_, found, _⟩ => absurd found List.not_mem_nil⟩, placed_new c started (by omega)⟩

/-- The blocks from `head` on hold the live entries. -/
theorem live_laid (kept : Kept codec j (history.map (Write.logged codec)))
    (placed : Placed codec kind j history) : ∃ blocks, WellLaid codec j blocks ∧
    entriesOf blocks = (live codec j history).map fun write => sealedEntry codec write.entry := by
  obtain ⟨blocks, dropped, laid, split, some_live⟩ := kept.laid
  obtain ⟨given_up, kept_writes, rfl, _, located⟩ := List.map_eq_append_iff.mp split
  have same : live codec j (given_up ++ kept_writes) = kept_writes := by
    rcases List.eq_nil_or_concat' (given_up ++ kept_writes) with none | ⟨front, last, more⟩
    · obtain ⟨rfl, rfl⟩ := List.append_eq_nil_iff.mp none
      rfl
    obtain ⟨first, rest, starts⟩ := locate_starts laid (some_live (by rw [more]; simp))
    rw [starts] at located
    obtain ⟨opening, later, rfl, here, _⟩ := List.map_eq_cons_iff.mp located
    have offset : opening.offset codec = j.header.head := congrArg Prod.fst here
    obtain ⟨_, ascending, before⟩ := List.pairwise_append.mp placed.ascending
    have behind := (List.pairwise_cons.mp ascending).1
    rw [live, List.filter_append, List.filter_eq_nil_iff.mpr, List.nil_append, List.filter_eq_self]
    · intro write found
      rw [decide_eq_true_eq]
      rcases List.mem_cons.mp found with rfl | found
      · exact offset.ge
      · exact offset ▸ (behind write found).le
    · intro write found
      rw [decide_eq_true_eq, ← offset]
      exact Nat.not_le.mpr (before write found opening List.mem_cons_self)
  refine ⟨blocks, laid, ?_⟩
  rw [same, ← locate_snd j.header.head, ← located, List.map_map]
  rfl

end Runs

section Reopening

/-- A blank header is one of the invalid type, which no configuration asks for. -/
theorem reopen_blank (typed : c.journalType ≠ .invalid)
    (blank : Holds file 0 (List.replicate headerSize 0)) (now : SystemTime) (fuel : ℕ) :
    Journal.reopen fuel file c now =
      some (.error (.io (.other "Journal type on disk does not match requested"))) := by
  have decoded : decodeHeader file = some { tail := 0, head := 0, transCtr := 0, ty := .invalid } := by
    rw [blank.eq_append]
    exact decodeHeader_encodeHeader { tail := 0, head := 0, transCtr := 0, ty := .invalid }
      (Nat.two_pow_pos 64) (Nat.two_pow_pos 64) _
  have load : Journal.load file c now =
      .error (.io (.other "Journal type on disk does not match requested")) := by
    rw [Journal.load, decoded]
    dsimp only
    rw [if_pos ⟨typed, typed.symm⟩]
    rfl
  rw [Journal.reopen, load]

/-- A journal that could be opened for a valid type is of that type. -/
theorem reopen_type (typed : c.journalType ≠ .invalid)
    (opened : Journal.reopen fuel file c now = some (.ok j)) : j.header.ty = c.journalType := by
  have load : ∃ found, Journal.load file c now = .ok found ∧ j.header.ty = found.header.ty := by
    rw [Journal.reopen] at opened
    split at opened
    · cases opened
    · next found load =>
      refine ⟨found, load, ?_⟩
      split at opened
      · cases opened
      · cases opened
      · cases opened
        rfl
  obtain ⟨found, load, same⟩ := load
  rw [same]
  rw [Journal.load] at load
  split at load
  · cases load
  · split at load
    · cases load
    · next matching =>
      cases load
      by_contra differ
      exact matching ⟨typed, differ⟩

theorem reopens_iff_resumes (typed : c.journalType ≠ .invalid) (writes : List (Write T)) :
    Reopens codec j c now writes ↔ Resumes codec j.file c now writes := by
  constructor
  · rintro ⟨fuel, j', opened, _, drains⟩
    exact ⟨fuel, j', opened, drains⟩
  · rintro ⟨fuel, j', opened, drains⟩
    exact ⟨fuel, j', opened, reopen_type typed opened, drains⟩

/-- **Reopening.** A journal created over a blank file, whose ring was never
full, can be reopened with its live entries exactly if its header has been
written and the traversal from there finds the tail. Before the first header
nothing at all can be reopened. -/
theorem created_journal_reopens_iff (covers : headerSize + blockSize ≤ count) (signed : count ≤ offMax)
    (typed : c.journalType ≠ .invalid)
    (run : Run codec (fun j => ¬Full j ∧ FarFromWrap j) (Journal.new (List.replicate count 0) c started)
      j history) :
    (Reopens codec j c now (live codec j history) ↔
      (∃ write ∈ history, write.closes codec = true) ∧
      ∃ persisted last, decodeHeader j.file = some persisted ∧ history.getLast? = some last ∧
        Recoverable codec j persisted last) ∧
    ((∀ write ∈ history, write.closes codec = false) → ∀ fuel,
      Journal.reopen fuel j.file c now =
        some (.error (.io (.other "Journal type on disk does not match requested")))) := by
  obtain ⟨kept, ⟨sound, trail⟩, placed⟩ := run_placed covers signed run
  have unwritten (never : ∀ write ∈ history, write.closes codec = false) (fuel : ℕ) :=
    reopen_blank typed (placed.blank never) now fuel
  refine ⟨?_, unwritten⟩
  by_cases headed : ∃ write ∈ history, write.closes codec = true
  · obtain ⟨persisted, front, final, last, trail, found, offset⟩ := trail headed
    have decoded := persisted_decodes trail sound
    obtain ⟨blocks, laid, entries⟩ := live_laid kept placed
    have kind : c.journalType = persisted.ty := placed.ty.symm.trans trail.ty_eq.symm
    have tail_le := laid.tail_le
    rw [reopens_iff_resumes typed,
      resumes_iff sound.ring laid sound.sized decoded trail.head_eq (Or.inr kind) entries]
    constructor
    · rintro ⟨fuel, txMax, ended⟩
      have one_lap : j.header.tail ≤ persisted.tail + j.size := by
        obtain ⟨_, held, tail_lt, head_lt, ahead⟩ := placed.ahead headed
        rw [held.eq_append, decodeHeader_encodeHeader _ tail_lt head_lt] at decoded
        cases decoded
        omega
      exact ⟨headed, persisted, last, decoded, found, recoverable_of_traverse trail offset one_lap ended⟩
    · rintro ⟨_, _, _, decoded', found', recoverable⟩
      cases decoded.symm.trans decoded'
      cases found.symm.trans found'
      obtain ⟨fuel, txMax, ended, _⟩ := traverse_of_recoverable c now trail offset recoverable
      exact ⟨fuel, txMax, ended⟩
  · constructor
    · rintro ⟨fuel, j', opened, _⟩
      have never : ∀ write ∈ history, write.closes codec = false := fun write found =>
        Bool.eq_false_iff.mpr fun closes => headed ⟨write, found, closes⟩
      rw [unwritten never] at opened
      cases opened
    · rintro ⟨written, _⟩
      exact absurd written headed

/-- A first entry that leaves its block open: neither before nor after it can
the journal be reopened. -/
theorem first_block_not_reopened : ∃ j,
    (Journal.new singleBlock forwardConfig epoch).writeEntry byteVec epoch halfBlock = .ok j ∧
    (∀ fuel, Journal.reopen fuel (Journal.new singleBlock forwardConfig epoch).file forwardConfig epoch =
      some (.error (.io (.other "Journal type on disk does not match requested")))) ∧
    ∀ fuel, Journal.reopen fuel j.file forwardConfig epoch =
      some (.error (.io (.other "Journal type on disk does not match requested"))) := by
  obtain ⟨j, wrote, _⟩ := halfBlock_lands size_singleBlock (by decide : (0 + 1) * 65536 < 2 ^ 64) (new_tail _ _ _)
  have typed : forwardConfig.journalType ≠ .invalid := by decide
  have covers : headerSize + blockSize ≤ headerSize + blockSize := le_rfl
  have signed : headerSize + blockSize ≤ offMax := by
    rw [headerSize_eq, blockSize_eq, offMax]
    omega
  have start : Run byteVec (fun j => ¬Full j ∧ FarFromWrap j)
      (Journal.new (List.replicate (headerSize + blockSize) 0) forwardConfig epoch) _ [] := .refl
  have run := start.recent not_full_singleBlock rfl wrote
  obtain ⟨_, _, created⟩ := run_placed covers signed start
  obtain ⟨_, _, placed⟩ := run_placed covers signed run
  refine ⟨j, wrote, reopen_blank typed (created.blank (by simp)) epoch,
    reopen_blank typed (placed.blank ?_) epoch⟩
  intro write found
  rw [List.nil_append, List.mem_singleton] at found
  rw [found, Bool.eq_false_iff, ne_eq, closes_iff, length_halfBlock, new_tail, Nat.zero_mod, blockSize_eq]
  · omega
  · exact Nat.two_pow_pos 64

/-- Once an entry has opened the second block, over zeros, the journal can be
reopened. -/
theorem second_block_reopened : ∃ (j : Journal) (history : List (Write ByteVec)),
    Run byteVec (fun j => ¬Full j ∧ FarFromWrap j) (Journal.new singleBlock forwardConfig epoch) j
      history ∧ j.header.tail = 181072 ∧
    Reopens byteVec j forwardConfig epoch (live byteVec j history) := by
  obtain ⟨j₁, j₂, wrote₁, wrote₂, tail₁, clock₁, tail₂, size₂, kind, sound, ⟨stored, trail⟩, boundary,
    closes, zeros⟩ := second_lap 0
  have value := blockSize_eq
  have first := (Run.refl : Run byteVec (fun j => ¬Full j ∧ FarFromWrap j)
    (Journal.new (List.replicate (headerSize + blockSize) 0) forwardConfig epoch) _ _).recent
    not_full_singleBlock rfl wrote₁
  obtain ⟨kept, _, _⟩ := run_placed le_rfl (by rw [headerSize_eq, blockSize_eq, offMax]; omega) first
  have meets : ¬Full j₁ ∧ FarFromWrap j₁ := by
    obtain ⟨blocks, _, laid, _⟩ := kept.laid
    have lap : blockSize ∣ j₁.header.head + j₁.size := Nat.dvd_add laid.head_dvd laid.size_dvd
    rw [Full, FarFromWrap, tail₁]
    refine ⟨fun full => ?_, by omega⟩
    rw [← full, blockSize_eq] at lap
    omega
  have run := first.recent meets clock₁ wrote₂
  refine ⟨j₂, _, run, tail₂, (created_journal_reopens_iff le_rfl ?_ (by decide) run).1.mpr ?_⟩
  · rw [headerSize_eq, blockSize_eq, offMax]
    omega
  refine ⟨⟨_, List.mem_append_right _ (List.mem_singleton_self _), closes⟩, closedHeader j₁, _,
    persisted_decodes trail sound, List.getLast?_concat, ?_, ?_, Or.inr (Or.inr zeros)⟩
  · omega
  · rw [offset_of_closes closes, packed_nil, List.length_nil, boundary]
    omega

end Reopening

end Fsyncer.JournalReopen
