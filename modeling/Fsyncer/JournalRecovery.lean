import Fsyncer.JournalRetention

/-! What `Journal::open` makes of a file. It starts from the header that was
last written down and follows the lengths it finds from there, so it sees the
entries written since, and then whatever the ring holds behind them. -/
namespace Fsyncer.JournalRecovery
open Fsyncer.ByteFile Fsyncer.Machine Fsyncer.Wire Fsyncer.JournalStore
open Fsyncer.JournalLayout Fsyncer.JournalWrite Fsyncer.JournalRun Fsyncer.JournalRetention

variable {T : Type} {codec : Codec T} {j j' : Journal} {e : StoreEntry T}

/-- Consecutive entries from `off` on, numbered from `tx` on, none across a
block boundary. An entry is there to be read as long as the tail has not come
around to it. -/
def Chain (j : Journal) : ℕ → UInt32 → List (Stored codec) → Prop
  | _, _, [] => True
  | off, tx, stored :: rest =>
    (stored.entry.transId = tx ∧ off % blockSize + stored.bytes.length ≤ blockSize ∧
      (j.header.tail ≤ off + j.size → Holds j.file (j.fileOff off) stored.bytes)) ∧
    Chain j (off + stored.bytes.length) (tx + 1) rest

theorem chain_append {first second : List (Stored codec)} :
    Chain j off tx (first ++ second) ↔ Chain j off tx first ∧
      Chain j (off + (packed first).length) (tx + UInt32.ofNat first.length) second := by
  induction first generalizing off tx with
  | nil => simp [Chain]
  | cons stored first ih =>
    have count : tx + 1 + UInt32.ofNat first.length = tx + UInt32.ofNat (first.length + 1) := by
      rw [UInt32.ofNat_add, UInt32.add_assoc, UInt32.add_comm (UInt32.ofNat first.length)]
      rfl
    simp only [List.cons_append, Chain, ih, packed_cons, List.length_append, List.length_cons, count,
      Nat.add_assoc, and_assoc]

/-- A later state in which the lap behind the new tail is as before still has
the chain. -/
theorem Chain.keep {entries : List (Stored codec)} (chain : Chain j off tx entries) (ring : Ring j)
    (size : j'.size = j.size) (grows : j.header.tail ≤ j'.header.tail)
    (ends : off + (packed entries).length ≤ j.header.tail)
    (untouched : ∀ low, j'.header.tail ≤ low + j.size → Untouched j j' low j.header.tail) :
    Chain j' off tx entries := by
  induction entries generalizing off tx with
  | nil => trivial
  | cons stored entries ih =>
    obtain ⟨⟨numbered, fits, held⟩, rest⟩ := chain
    rw [packed_cons, List.length_append] at ends
    refine ⟨⟨numbered, fits, fun lap => ?_⟩, ih rest (by omega)⟩
    rw [size] at lap
    exact (untouched off lap).holds ring size fits le_rfl (by omega) (held (by omega))

/-- Every block boundary inside a chain is the start of one of its entries. -/
theorem Chain.boundary {entries : List (Stored codec)} (chain : Chain j off tx entries)
    (aligned : blockSize ∣ start) (above : off ≤ start)
    (below : start < off + (packed entries).length) :
    ∃ before stored after, entries = before ++ stored :: after ∧
      off + (packed before).length = start := by
  induction entries generalizing off tx with
  | nil => simp at below; omega
  | cons stored entries ih =>
    obtain ⟨⟨_, fits, _⟩, rest⟩ := chain
    rw [packed_cons, List.length_append] at below
    rcases Nat.eq_or_lt_of_le above with rfl | above
    · exact ⟨[], stored, entries, rfl, rfl⟩
    · have behind : off + stored.bytes.length ≤ start := by
        have remainder := Nat.mod_lt off blockSize_pos
        have split := Nat.div_add_mod off blockSize
        obtain ⟨index, rfl⟩ := aligned
        have order : off / blockSize < index := by
          rw [Nat.div_lt_iff_lt_mul blockSize_pos, Nat.mul_comm]
          exact above
        have step := Nat.mul_le_mul_left blockSize (Nat.succ_le_of_lt order)
        rw [Nat.mul_succ] at step
        omega
      obtain ⟨before, found, after, rfl, place⟩ := ih rest behind (by omega)
      refine ⟨stored :: before, found, after, rfl, ?_⟩
      rw [packed_cons, List.length_append]
      omega

section Traversal

private theorem asU32_succ (word : UInt32) : asU32 ((word.toNat : ℤ) + 1) = word + 1 := by
  have small := word.toNat_lt
  apply UInt32.toNat_inj.mp
  rw [asU32, UInt32.toNat_ofNat', UInt32.toNat_add]
  simp only [UInt32.reduceToNat]
  omega

theorem asU32_pred_succ (word : UInt32) : asU32 ((word.toNat : ℤ) - 1 + 1) = word := by
  have small := word.toNat_lt
  apply UInt32.toNat_inj.mp
  rw [asU32, UInt32.toNat_ofNat']
  omega

/-- What makes the traversal take `off` for the end. -/
def Stops (j : Journal) (off : ℕ) : Prop :=
  alignUpAlways j.header.tail blockSize < off ∨ blockSize - off % blockSize < 4 ∨
    Holds j.file (j.fileOff off) [0, 0, 0, 0]

theorem traverse_stops (stops : Stops j off) (small : off < 2 ^ 64) (fuel : ℕ) (txMax : ℤ) :
    traverseTail j (fuel + 1) off txMax = some (.ok (off, txMax)) := by
  rw [traverseTail, space_in_block small]
  split
  · rfl
  · next near =>
    split
    · rfl
    · next room =>
      have zeros := (stops.resolve_left near).resolve_left room
      have read := readExactAt_of_holds zeros 4 (by decide)
      rw [read]
      rfl

/-- At an entry the traversal steps over it, but goes on only if the entry
carries the next number. -/
theorem traverse_entry (stored : Stored codec)
    (near : off ≤ alignUpAlways j.header.tail blockSize) (small : off + 2 ^ 32 < 2 ^ 64)
    (fits : off % blockSize + stored.bytes.length ≤ blockSize)
    (held : Holds j.file (j.fileOff off) stored.bytes) (fuel : ℕ) (txMax : ℤ) :
    traverseTail j (fuel + 1) off txMax =
      if stored.entry.transId = asU32 (txMax + 1)
      then traverseTail j fuel (off + stored.bytes.length) stored.entry.transId.toNat
      else some (.ok (off + stored.bytes.length, txMax)) := by
  have long := stored.length_ge
  have value := blockSize_eq
  have after := held.drop (by omega : 4 ≤ stored.bytes.length)
  have next := readExactAt_of_holds after 4 (by rw [List.length_drop]; omega)
  rw [traverseTail, space_in_block (by omega), if_neg (by omega), if_neg (by omega),
    readExactAt_of_holds held 4 (by omega)]
  simp only [stored.leValue_front, if_neg (by omega : ¬stored.bytes.length = 0), next,
    UInt32.ofNat_toNat, u64_of_lt (by omega : off + stored.bytes.length < 2 ^ 64), ne_eq, ite_not, stored.leValue_transId]

/-- Whatever it reads, the traversal never moves back. -/
theorem traverse_grows (room : alignUpAlways j.header.tail blockSize + 2 ^ 32 < 2 ^ 64)
    (found : traverseTail j fuel off txMax = some (.ok (newTail, tx))) : off ≤ newTail := by
  induction fuel generalizing off txMax with
  | zero => cases found
  | succ fuel ih =>
    rw [traverseTail] at found
    split at found
    · cases found; exact le_rfl
    · next near =>
      split at found
      · cases found; exact le_rfl
      · split at found
        · cases found
        · next buf read =>
          split at found
          · cases found; exact le_rfl
          · split at found
            · cases found
            · next next _ =>
              have small := leValue_lt buf
              rw [length_of_readExactAt read] at small
              have moved : off ≤ u64 (off + leValue buf) := by
                rw [u64_of_lt (by omega)]
                omega
              simp only at found
              split at found
              · cases found; exact moved
              · exact moved.trans (ih found)

/-- If the traversal takes `off` for the end, something told it to stop there. -/
theorem stops_of_traverse (room : alignUpAlways j.header.tail blockSize + 2 ^ 32 < 2 ^ 64)
    (found : traverseTail j fuel off txMax = some (.ok (off, tx))) : Stops j off := by
  by_cases near : alignUpAlways j.header.tail blockSize < off
  · exact Or.inl near
  cases fuel with
  | zero => cases found
  | succ fuel =>
    rw [traverseTail, if_neg near, space_in_block (by omega)] at found
    split at found
    · next spare => exact Or.inr (Or.inl spare)
    · split at found
      · cases found
      · next buf read =>
        have length := length_of_readExactAt read
        split at found
        · next zero =>
          rw [leValue_eq_zero, length] at zero
          have held := holds_of_readExactAt read
          rw [zero] at held
          exact Or.inr (Or.inr held)
        · next nonzero =>
          have small := leValue_lt buf
          rw [length] at small
          split at found
          · cases found
          · simp only [u64_of_lt (by omega : off + leValue buf < 2 ^ 64)] at found
            split at found
            · simp only [Option.some.injEq, Except.ok.injEq, Prod.mk.injEq] at found
              omega
            · have moved := traverse_grows room found
              omega

/-- Only inside the block does the traversal move at all. -/
private theorem traverse_advances
    (found : traverseTail j fuel off txMax = some (.ok (off + length, tx))) (moved : 0 < length) :
    off ≤ alignUpAlways j.header.tail blockSize ∧ ∃ fewer, fuel = fewer + 1 := by
  cases fuel with
  | zero => cases found
  | succ fewer =>
    refine ⟨Nat.le_of_not_lt fun far => ?_, fewer, rfl⟩
    rw [traverseTail, if_pos far] at found
    simp only [Option.some.injEq, Except.ok.injEq, Prod.mk.injEq] at found
    omega

section Walk
variable {opened : Journal} (file : opened.file = j.file) (size : opened.size = j.size)
  (room : alignUpAlways opened.header.tail blockSize + 2 ^ 32 < 2 ^ 64)

include file size room

private theorem traverse_first {stored : Stored codec} {rest : List (Stored codec)}
    (chain : Chain j off tx (stored :: rest)) (lap : j.header.tail ≤ off + j.size)
    (near : off ≤ alignUpAlways opened.header.tail blockSize) (number : asU32 (txMax + 1) = tx)
    (fuel : ℕ) : traverseTail opened (fuel + 1) off txMax =
      traverseTail opened fuel (off + stored.bytes.length) stored.entry.transId.toNat := by
  obtain ⟨⟨numbered, fits, held⟩, _⟩ := chain
  have there : Holds opened.file (opened.fileOff off) stored.bytes := by
    rw [file, Journal.fileOff, size]
    exact held lap
  rw [traverse_entry stored near (by omega) fits there, number, if_pos numbered]

/-- The traversal steps over the whole chain if the last entry starts no later
than the next block boundary. -/
theorem traverse_chain {front : List (Stored codec)} {final : Stored codec}
    (chain : Chain j off tx (front ++ [final])) (lap : j.header.tail ≤ off + j.size)
    (near : off + (packed front).length ≤ alignUpAlways opened.header.tail blockSize)
    (number : asU32 (txMax + 1) = tx) :
    ∃ txMax', asU32 (txMax' + 1) = tx + UInt32.ofNat (front.length + 1) ∧
      ∀ fuel, traverseTail opened (front.length + 1 + fuel) off txMax =
        traverseTail opened fuel (off + (packed (front ++ [final])).length) txMax' := by
  induction front generalizing off tx txMax with
  | nil =>
    refine ⟨final.entry.transId.toNat, ?_, fun fuel => ?_⟩
    · rw [asU32_succ, chain.1.1]
      rfl
    · rw [List.length_nil, Nat.zero_add, Nat.add_comm,
        traverse_first file size room chain lap (by simpa using near) number]
      simp
  | cons stored front ih =>
    rw [packed_cons, List.length_append] at near
    have next := asU32_succ stored.entry.transId
    rw [chain.1.1] at next
    obtain ⟨txMax', number', walk⟩ := ih chain.2 (by omega) (by omega) next
    refine ⟨txMax', ?_, fun fuel => ?_⟩
    · rw [number', List.length_cons, UInt32.ofNat_add (front.length + 1), UInt32.add_assoc,
        UInt32.add_comm (UInt32.ofNat (front.length + 1))]
      rfl
    · have step := traverse_first file size room chain lap (by omega) number (front.length + 1 + fuel)
      rw [chain.1.1, walk] at step
      rw [List.length_cons, show front.length + 1 + 1 + fuel = front.length + 1 + fuel + 1 by omega, step,
        List.cons_append, packed_cons, List.length_append, Nat.add_assoc]

/-- Conversely, a traversal that ends exactly behind the chain has stepped over
all of it, and was told to stop there. -/
theorem chain_of_traverse {front : List (Stored codec)} {final : Stored codec}
    (chain : Chain j off tx (front ++ [final])) (lap : j.header.tail ≤ off + j.size)
    (number : asU32 (txMax + 1) = tx)
    (found : traverseTail opened fuel off txMax =
      some (.ok (off + (packed (front ++ [final])).length, tx'))) :
    off + (packed front).length ≤ alignUpAlways opened.header.tail blockSize ∧
      Stops opened (off + (packed (front ++ [final])).length) := by
  have long {entries : List (Stored codec)} : 0 < (packed (entries ++ [final])).length :=
    packed_length_pos (List.concat_ne_nil _ _)
  obtain ⟨near, fewer, rfl⟩ := traverse_advances found long
  induction front generalizing off tx txMax fewer with
  | nil =>
    rw [List.nil_append] at found chain ⊢
    rw [traverse_first file size room chain lap near number] at found
    rw [packed_cons, packed_nil, List.append_nil] at found ⊢
    exact ⟨by simpa using near, stops_of_traverse room found⟩
  | cons stored front ih =>
    rw [List.cons_append] at found chain ⊢
    rw [traverse_first file size room chain lap near number] at found
    rw [packed_cons, List.length_append, ← Nat.add_assoc] at found ⊢
    have next := asU32_succ stored.entry.transId
    rw [chain.1.1] at next found
    obtain ⟨near', fewer', rfl⟩ := traverse_advances found long
    rw [packed_cons, List.length_append, ← Nat.add_assoc]
    exact ih chain.2 (by omega) next near' fewer' found

end Walk

end Traversal

section Runs

/-- What every journal has that comes from `Journal::new` or `Journal::open`. -/
structure Sound (j : Journal) : Prop where
  ring : Ring j
  sized : j.size = alignDown (usub j.file.length headerSize) blockSize
  head_lt : j.header.head < 2 ^ 64

/-- The state of a journal some time after its header was written down as
`persisted`: since then the entries `front` and `final` have been added. -/
structure Trail (codec : Codec T) (j : Journal) (persisted : JournalHeader)
    (front : List (Stored codec)) (final : Stored codec) : Prop where
  on_disk : Holds j.file 0 (encodeHeader persisted)
  aligned : blockSize ∣ persisted.tail
  room : persisted.tail + blockSize + 2 ^ 32 < 2 ^ 64
  head_eq : persisted.head = j.header.head
  ty_eq : persisted.ty = j.header.ty
  ctr_eq : j.header.transCtr = persisted.transCtr + UInt32.ofNat (front.length + 1)
  tail_eq : j.header.tail = persisted.tail + (packed (front ++ [final])).length
  tail_lt : j.header.tail < 2 ^ 64
  chain : Chain j persisted.tail persisted.transCtr (front ++ [final])

theorem Sound.landed (sound : Sound j)
    (fits : j.header.tail % blockSize + bytes.length ≤ blockSize) : Sound (landed j bytes) := by
  refine ⟨sound.ring.landed bytes, ?_, sound.head_lt⟩
  rw [landed_file, length_splice_within sound.ring fits]
  exact sound.sized

theorem Sound.closed (sound : Sound j) (closed : ClosedTo j opened) : Sound opened := by
  refine ⟨closed.ring, by rw [closed.size, closed.length]; exact sound.sized, ?_⟩
  rw [closed.header]
  show closedHead j < 2 ^ 64
  rw [closedHead]
  split
  · exact u64_lt _
  · exact sound.head_lt

/-- Laying an entry down at the tail, in its block, extends the trail. -/
theorem Trail.landed (trail : Trail codec j persisted front final) (ring : Ring j)
    (stored : Stored codec) (numbered : stored.entry.transId = j.header.transCtr)
    (fits : j.header.tail % blockSize + stored.bytes.length ≤ blockSize)
    (small : j.header.tail + stored.bytes.length < 2 ^ 64) :
    Trail codec (landed j stored.bytes) persisted (front ++ [final]) stored := by
  have tail := landed_tail small
  refine ⟨?_, trail.aligned, trail.room, trail.head_eq, trail.ty_eq, ?_, ?_, by omega, ?_⟩
  · refine trail.on_disk.splice (Or.inl ?_)
    rw [length_encodeHeader, Journal.fileOff, headerSize_eq]
    omega
  · rw [landed_transCtr, trail.ctr_eq, UInt32.add_assoc, ← UInt32.ofNat_one, ← UInt32.ofNat_add, List.length_append]
    rfl
  · rw [tail, trail.tail_eq, packed_append, packed_append (front ++ [final])]
    simp [Nat.add_assoc]
  · refine chain_append.mpr ⟨trail.chain.keep ring rfl (by omega) trail.tail_eq.ge ?_, ⟨?_, ?_, ?_⟩,
      trivial⟩
    · intro low lap
      exact untouched_splice ring fits rfl (by omega)
    · rw [numbered, trail.ctr_eq, List.length_append]
      rfl
    · rw [← trail.tail_eq]
      exact fits
    · intro _
      rw [← trail.tail_eq]
      exact holds_splice_self _ _ _

/-- Closing a block and laying the first entry down in the next one starts a
new trail. -/
theorem trail_closed (far : FarFromWrap j) (closed : ClosedTo j opened)
    (stored : Stored codec) (numbered : stored.entry.transId = j.header.transCtr)
    (short : stored.bytes.length ≤ blockSize) :
    Trail codec (landed opened stored.bytes) (closedHeader j) [] stored := by
  have room := far.two_blocks
  have value := blockSize_eq
  have bound : j.header.tail + 2 ^ 33 < 2 ^ 64 := far
  have below := Nat.mod_lt j.header.tail blockSize_pos
  have tail := closed.tail (by omega)
  have aligned : blockSize ∣ opened.header.tail := by
    rw [tail]
    exact ⟨j.header.tail / blockSize + 1, by
      have split := Nat.div_add_mod j.header.tail blockSize
      rw [Nat.mul_succ]
      omega⟩
  have moved := landed_tail (by omega : opened.header.tail + stored.bytes.length < 2 ^ 64)
  rw [← closed.header]
  refine ⟨?_, aligned, by omega, (landed_head _ _).symm, (landed_ty _ _).symm, landed_transCtr _ _, ?_,
    by omega, ⟨?_, ?_, fun _ => ?_⟩, trivial⟩
  · have persisted := closed.persisted
    rw [← closed.header] at persisted
    refine persisted.splice (Or.inl ?_)
    rw [length_encodeHeader, Journal.fileOff, headerSize_eq]
    omega
  · rw [moved]
    simp
  · rw [numbered, closed.header, closedHeader_transCtr]
  · rw [Nat.mod_eq_zero_of_dvd aligned]
    omega
  · exact holds_splice_self _ _ _

/-- The invariant of runs: once the header has been written, the trail from
there leads to the tail, and its last entry is the one written last. -/
def Tracked (codec : Codec T) (j : Journal) (history : List (Write T)) : Prop :=
  Sound j ∧ ((∃ write ∈ history, write.closes codec = true) →
    ∃ persisted front final last, Trail codec j persisted front final ∧
      history.getLast? = some last ∧
      last.offset codec = persisted.tail + (packed front).length)

/-- What `write_inner` has done to the block of the tail by the time it lays
the entry down in `opened`. -/
def Prepared (codec : Codec T) (j : Journal) (e : StoreEntry T) (opened : Journal) : Prop :=
  blockSize - j.header.tail % blockSize < (encodeEntry codec e).length ∧ ClosedTo j opened ∨
    (encodeEntry codec e).length ≤ blockSize - j.header.tail % blockSize ∧ opened = j

theorem Tracked.landed (tracked : Tracked codec j history) (far : FarFromWrap j)
    (numbered : e.transId = j.header.transCtr) (small : (encodeEntry codec e).length < blockSize)
    (prepared : Prepared codec j e opened) :
    Tracked codec (landed opened (storedEntry codec e small).bytes) (history ++ [⟨j, e⟩]) := by
  obtain ⟨sound, trail⟩ := tracked
  have room := far.two_blocks
  have below := Nat.mod_lt j.header.tail blockSize_pos
  have space := space_in_block (by omega : j.header.tail < 2 ^ 64)
  have length := length_storedEntry e small
  have last : (history ++ [(⟨j, e⟩ : Write T)]).getLast? = some ⟨j, e⟩ := List.getLast?_concat
  rcases prepared with ⟨tight, closed⟩ | ⟨roomy, rfl⟩
  · have trail := trail_closed far closed (storedEntry codec e small) numbered (by omega)
    have tail := closed.tail (by omega)
    have aligned := trail.aligned
    rw [← closed.header] at aligned
    refine ⟨(sound.closed closed).landed ?_, fun _ => ⟨_, _, _, _, trail, last, ?_⟩⟩
    · rw [Nat.mod_eq_zero_of_dvd aligned]
      omega
    · rw [Write.offset, if_pos (by simp only [Write.closes, space, decide_eq_true_eq]; exact tight),
        closedHeader_tail, packed_nil, List.length_nil, Nat.add_zero]
  · have open_block : Write.closes codec ⟨opened, e⟩ = false := by
      simp only [Write.closes, space, decide_eq_false_iff_not]
      omega
    refine ⟨sound.landed (by omega), ?_⟩
    rintro ⟨write, found, closes⟩
    have earlier : write ∈ history := by
      rcases List.mem_append.mp found with earlier | here
      · exact earlier
      · rw [List.mem_singleton.mp here, open_block] at closes
        cases closes
    obtain ⟨persisted, front, final, _, trail, _, _⟩ := trail ⟨write, earlier, closes⟩
    refine ⟨persisted, front ++ [final], _, _,
      trail.landed sound.ring (storedEntry codec e small) numbered (by omega) (by omega), last, ?_⟩
    rw [Write.offset, open_block]
    exact trail.tail_eq

theorem writeInner_tracks (tracked : Tracked codec j history) (far : FarFromWrap j)
    (numbered : e.transId = j.header.transCtr) (wrote : j.writeInner codec e = .ok j') :
    Tracked codec j' (history ++ [⟨j, e⟩]) := by
  have room := far.two_blocks
  obtain ⟨small, opened, prepared, rfl⟩ := writeInner_ok (by omega) wrote
  exact tracked.landed far numbered small
    (prepared.imp_left fun both => ⟨both.1, closedTo_of_closeBlock tracked.1.ring both.2⟩)

/-- A journal with the same header, the header on disk and the last lap as
before is tracked as before. -/
theorem Tracked.carry (tracked : Tracked codec j history) (size : j'.size = j.size)
    (header : j'.header = j.header) (length : j'.file.length = j.file.length)
    (untouched : ∀ low, j.header.tail ≤ low + j.size → Untouched j j' low j.header.tail)
    (on_disk : ∀ header, Holds j.file 0 (encodeHeader header) → Holds j'.file 0 (encodeHeader header)) :
    Tracked codec j' history := by
  obtain ⟨sound, trail⟩ := tracked
  refine ⟨⟨sound.ring.grow size length.ge, by rw [size, length]; exact sound.sized,
    by rw [header]; exact sound.head_lt⟩, fun headed => ?_⟩
  obtain ⟨persisted, front, final, last, trail, found, offset⟩ := trail headed
  refine ⟨persisted, front, final, last, ⟨on_disk _ trail.on_disk, trail.aligned, trail.room,
    by rw [header]; exact trail.head_eq, by rw [header]; exact trail.ty_eq,
    by rw [header]; exact trail.ctr_eq, by rw [header]; exact trail.tail_eq,
    by rw [header]; exact trail.tail_lt, ?_⟩, found, offset⟩
  have tail : j'.header.tail = j.header.tail := by rw [header]
  exact trail.chain.keep sound.ring size (by omega) trail.tail_eq.ge
    fun low lap => untouched low (by omega)

theorem Tracked.clock (tracked : Tracked codec j history) (moment : SystemTime) :
    Tracked codec { j with lastTime := moment } history :=
  tracked.carry rfl rfl rfl (fun _ _ _ _ _ => rfl) fun _ held => held

theorem run_tracked (sound : Sound start) (run : Run codec FarFromWrap start j history) :
    Tracked codec j history :=
  run_keeps FarFromWrap (Tracked codec) (fun tracked far numbered wrote =>
    writeInner_tracks tracked far numbered wrote) (fun moment tracked => tracked.clock moment)
    ⟨sound, fun ⟨_, found, _⟩ => absurd found List.not_mem_nil⟩ run

end Runs

section Readers

/-- The iterators look at neither the `sync` flag nor the clock. -/
private def stamp (sync : Bool) (moment : SystemTime) (j : Journal) : Journal :=
  { j with sync := sync, lastTime := moment }

private def restamp (sync : Bool) (moment : SystemTime) (it : JournalIterator T) : JournalIterator T :=
  { it with journal := stamp sync moment it.journal }

private theorem stamp_file (sync : Bool) (moment : SystemTime) : (stamp sync moment j).file = j.file := rfl

private theorem stamp_fileOff (sync : Bool) (moment : SystemTime) (off : ℕ) :
    (stamp sync moment j).fileOff off = j.fileOff off := rfl

private theorem skipPadding_stamp (sync : Bool) (moment : SystemTime) (head : ℕ) :
    skipPadding (stamp sync moment j) head = skipPadding j head := by
  rw [skipPadding, skipPadding, stamp_file, stamp_fileOff]

private theorem fetchEntry_stamp (sync : Bool) (moment : SystemTime) (head : ℕ) :
    fetchEntry codec (stamp sync moment j) head = fetchEntry codec j head := by
  rw [fetchEntry, fetchEntry, stamp_file, stamp_fileOff]

private theorem decodeBlock_stamp (sync : Bool) (moment : SystemTime) (tail fuel position : ℕ)
    (buffer : List (StoreEntry T)) :
    decodeBlock codec (stamp sync moment j) tail fuel position buffer =
      decodeBlock codec j tail fuel position buffer := by
  induction fuel generalizing position buffer with
  | zero => rfl
  | succ fuel ih => simp only [decodeBlock, ih, stamp_file, stamp_fileOff]

private theorem forwardNext_restamp (codec : Codec T) (sync : Bool) (moment : SystemTime)
    (it : JournalIterator T) : forwardNext codec (restamp sync moment it) =
      Prod.map id (restamp sync moment) (forwardNext codec it) := by
  have fetch : fetchEntry codec (restamp sync moment it).journal = fetchEntry codec it.journal :=
    funext fun head => fetchEntry_stamp sync moment head
  have skip : skipPadding (restamp sync moment it).journal (restamp sync moment it).header.head =
      skipPadding it.journal it.header.head := skipPadding_stamp sync moment _
  unfold forwardNext
  rw [fetch, skip]
  generalize fetchEntry codec it.journal = fetched
  generalize skipPadding it.journal it.header.head = skipped
  have header : (restamp sync moment it).header = it.header := rfl
  rw [header]
  split
  · rfl
  · rcases skipped with error | head
    · rfl
    · dsimp only
      rcases fetched head with error | entry <;> rfl

private theorem reverseNext_restamp (codec : Codec T) (sync : Bool) (moment : SystemTime) (fuel : ℕ)
    (it : JournalIterator T) : reverseNext codec fuel (restamp sync moment it) =
      (reverseNext codec fuel it).map fun (item, after) => (item, restamp sync moment after) := by
  have decode (tail position : ℕ) :
      decodeBlock codec (restamp sync moment it).journal tail fuel position [] =
        decodeBlock codec it.journal tail fuel position [] := decodeBlock_stamp sync moment _ _ _ _
  have header : (restamp sync moment it).header = it.header := rfl
  have buffer : (restamp sync moment it).blockBuffer = it.blockBuffer := rfl
  unfold reverseNext
  dsimp only
  rw [header, buffer, decode]
  split
  · split
    · rfl
    · generalize decodeBlock codec it.journal it.header.tail fuel _ [] = decoded
      rcases decoded with _ | ⟨buffer, _ | failure⟩ <;> rfl
  · rfl

/-- Journals that agree on header, size and file read alike, in both directions. -/
theorem reads_alike (codec : Codec T) (header : j'.header = j.header) (size : j'.size = j.size)
    (file : j'.file = j.file) (items : List (Except Failure (StoreEntry T))) :
    (Drains (ForwardNext codec) j.readForward items → Drains (ForwardNext codec) j'.readForward items) ∧
      (Drains (ReverseNext codec) j.readReverse items →
        Drains (ReverseNext codec) j'.readReverse items) := by
  obtain ⟨_, _, _, sync, moment⟩ := j'
  cases header
  cases size
  cases file
  constructor
  · refine Drains.map (restamp sync moment) fun it item after pulled => ?_
    rw [ForwardNext] at pulled ⊢
    rw [forwardNext_restamp, pulled]
    rfl
  · refine Drains.map (restamp sync moment) fun it item after pulled => ?_
    obtain ⟨fuel, pulled⟩ := pulled
    exact ⟨fuel, by rw [reverseNext_restamp, pulled]; rfl⟩

end Readers

section Recovery
variable {c : JournalConfig} {now : SystemTime} {persisted : JournalHeader}
  {front : List (Stored codec)} {final : Stored codec}

/-- A journal as `Journal::new` or `Journal::open` delivers it, over a file
with room for at least one block. -/
inductive Started : Journal → Prop where
  | new {c : JournalConfig} {now : SystemTime} (covers : headerSize + blockSize ≤ file.length)
      (signed : file.length ≤ offMax) : Started (Journal.new file c now)
  | reopened {c : JournalConfig} {now : SystemTime} {j : Journal} (covers : headerSize + blockSize ≤ file.length)
      (signed : file.length ≤ offMax)
      (opened : Journal.reopen fuel file c now = some (.ok j)) : Started j

/-- Opening the file gives back the header, and with it the entries. -/
def Recovers (codec : Codec T) (j : Journal) (c : JournalConfig) (now : SystemTime) : Prop :=
  ∃ fuel j', Journal.reopen fuel j.file c now = some (.ok j') ∧ j'.header = j.header ∧
    ∀ items, (Drains (ForwardNext codec) j.readForward items →
        Drains (ForwardNext codec) j'.readForward items) ∧
      (Drains (ReverseNext codec) j.readReverse items →
        Drains (ReverseNext codec) j'.readReverse items)

/-- The tail has not come around to the block the header on disk points at, the
last entry starts no later than one block behind that point, and the traversal
finds a reason to stop at the tail: it is beyond its block, or fewer than four
bytes are left there, or the four bytes it finds are zero. -/
structure Recoverable (codec : Codec T) (j : Journal) (persisted : JournalHeader) (last : Write T) :
    Prop where
  one_lap : j.header.tail ≤ persisted.tail + j.size
  in_reach : last.offset codec ≤ persisted.tail + blockSize
  ends : persisted.tail + blockSize < j.header.tail ∨ blockSize - j.header.tail % blockSize < 4 ∨
    Holds j.file (j.fileOff j.header.tail) [0, 0, 0, 0]

theorem sound_of_file (covers : headerSize + blockSize ≤ file.length)
    (signed : file.length ≤ offMax) (same : j.file = file)
    (size : j.size = alignDown (usub file.length headerSize) blockSize)
    (head_lt : j.header.head < 2 ^ 64) : Sound j := by
  have length : usub file.length headerSize = file.length - headerSize :=
    usub_of_le (by omega) (by rw [offMax] at signed; omega)
  have below := Nat.div_mul_le_self (file.length - headerSize) blockSize
  have value : j.size = (file.length - headerSize) / blockSize * blockSize := by
    rw [size, length, alignDown]
  refine ⟨⟨?_, ?_, ?_⟩, by rw [same]; exact size, head_lt⟩
  · rw [value]
    exact Nat.mul_pos (Nat.div_pos (by omega) blockSize_pos) blockSize_pos
  · rw [value]
    exact Nat.dvd_mul_left _ _
  · rw [same, value]
    omega

private theorem takeLe_lt (taken : takeLe 8 bytes = some (value, rest)) : value < 2 ^ 64 := by
  rw [takeLe] at taken
  split at taken
  · cases taken
    have small := leValue_lt (bytes.take 8)
    have short : (bytes.take 8).length ≤ 8 := List.length_take_le _ _
    exact small.trans_le (Nat.pow_le_pow_right (by decide) short)
  · cases taken

private theorem decodeHeader_head_lt (decoded : decodeHeader file = some header) :
    header.head < 2 ^ 64 := by
  simp only [decodeHeader, Option.bind_eq_bind, Option.bind_eq_some_iff, Prod.exists,
    Option.some.injEq] at decoded
  obtain ⟨_, _, _, head, _, found, _, _, _, _, _, _, _, _, rfl⟩ := decoded
  exact takeLe_lt found

/-- The journal `open` makes of the file of `j` and a header. -/
def loaded (j : Journal) (c : JournalConfig) (now : SystemTime) (header : JournalHeader) :
    Journal :=
  { header, size := j.size, file := j.file, sync := c.sync, lastTime := now }

theorem load_ok (found : Journal.load file c now = .ok j) :
    decodeHeader file = some j.header ∧ j.file = file ∧
      j.size = alignDown (usub file.length headerSize) blockSize := by
  rw [Journal.load] at found
  split at found
  · cases found
  · next header decoded =>
    split at found
    · cases found
    · cases found
      exact ⟨decoded, rfl, rfl⟩

theorem Started.sound (started : Started j) : Sound j := by
  cases started with
  | new covers signed => exact sound_of_file covers signed rfl rfl (Nat.two_pow_pos 64)
  | reopened covers signed opened =>
    rw [Journal.reopen] at opened
    split at opened
    · cases opened
    · next loaded found =>
      obtain ⟨decoded, same, size⟩ := load_ok found
      split at opened
      · cases opened
      · cases opened
      · cases opened
        have head_lt := decodeHeader_head_lt decoded
        exact sound_of_file covers signed same size head_lt

theorem persisted_decodes (trail : Trail codec j persisted front final) (sound : Sound j) :
    decodeHeader j.file = some persisted := by
  have room := trail.room
  rw [trail.on_disk.eq_append]
  exact decodeHeader_encodeHeader persisted (by omega) (by rw [trail.head_eq]; exact sound.head_lt) _

/-- Opening a file is the traversal from the header on disk. -/
theorem reopen_eq (decoded : decodeHeader j.file = some persisted)
    (sized : j.size = alignDown (usub j.file.length headerSize) blockSize)
    (kind : c.journalType = .invalid ∨ c.journalType = persisted.ty) (fuel : ℕ) :
    Journal.reopen fuel j.file c now = some (.ok j') ↔ ∃ newTail txMax,
      traverseTail (loaded j c now persisted) fuel persisted.tail ((persisted.transCtr.toNat : ℤ) - 1) =
        some (.ok (newTail, txMax)) ∧
      j' = loaded j c now { persisted with tail := newTail, transCtr := asU32 (txMax + 1) } := by
  have load : Journal.load j.file c now = .ok (loaded j c now persisted) := by
    rw [Journal.load, decoded]
    dsimp only
    rw [if_neg (by rintro ⟨valid, differ⟩; rcases kind with kind | kind <;> simp_all), loaded, sized]
    rfl
  rw [Journal.reopen, load]
  dsimp only [loaded]
  split
  · next out => simp [out]
  · next error => simp [error]
  · next newTail txMax found =>
    simp only [found, Option.some.injEq, Except.ok.injEq, Prod.mk.injEq]
    constructor
    · intro same
      exact ⟨newTail, txMax, ⟨rfl, rfl⟩, same.symm⟩
    · rintro ⟨_, _, ⟨rfl, rfl⟩, same⟩
      exact same.symm

private theorem boundary_loaded (trail : Trail codec j persisted front final) :
    alignUpAlways (loaded j c now persisted).header.tail blockSize = persisted.tail + blockSize := by
  have room := trail.room
  show alignUpAlways persisted.tail blockSize = _
  rw [alignUpAlways_off (by omega), Nat.mod_eq_zero_of_dvd trail.aligned, Nat.sub_zero]

private theorem header_ext {header header' : JournalHeader} (tail : header.tail = header'.tail)
    (head : header.head = header'.head) (ctr : header.transCtr = header'.transCtr)
    (ty : header.ty = header'.ty) : header = header' := by
  obtain ⟨_, _, _, _⟩ := header
  simp_all

/-- The traversal of a recoverable journal comes to its end at the tail. -/
theorem traverse_of_recoverable (c : JournalConfig) (now : SystemTime)
    (trail : Trail codec j persisted front final)
    (offset : last.offset codec = persisted.tail + (packed front).length)
    (recoverable : Recoverable codec j persisted last) : ∃ fuel txMax,
    traverseTail (loaded j c now persisted) fuel persisted.tail ((persisted.transCtr.toNat : ℤ) - 1) =
      some (.ok (j.header.tail, txMax)) ∧ asU32 (txMax + 1) = j.header.transCtr := by
  have boundary : alignUpAlways (loaded j c now persisted).header.tail blockSize =
      persisted.tail + blockSize := boundary_loaded trail
  have file : (loaded j c now persisted).file = j.file := rfl
  have room := trail.room
  have tail := trail.tail_eq
  have in_reach := recoverable.in_reach
  obtain ⟨txMax, number, walk⟩ := traverse_chain file rfl (by omega) trail.chain recoverable.one_lap
    (by omega) (asU32_pred_succ _)
  have stops : Stops (loaded j c now persisted) j.header.tail := by
    rw [Stops, boundary]
    exact recoverable.ends
  have ended := walk 1
  rw [← tail, traverse_stops stops trail.tail_lt] at ended
  exact ⟨_, txMax, ended, number.trans trail.ctr_eq.symm⟩

private theorem recovers_of_recoverable (trail : Trail codec j persisted front final) (sound : Sound j)
    (kind : c.journalType = .invalid ∨ c.journalType = j.header.ty)
    (offset : last.offset codec = persisted.tail + (packed front).length)
    (recoverable : Recoverable codec j persisted last) : Recovers codec j c now := by
  rw [← trail.ty_eq] at kind
  obtain ⟨fuel, txMax, ended, number⟩ :=
    traverse_of_recoverable c now trail offset recoverable
  have header : { persisted with tail := j.header.tail, transCtr := asU32 (txMax + 1) } = j.header :=
    header_ext rfl trail.head_eq number trail.ty_eq
  have opened := (reopen_eq (persisted_decodes trail sound) sound.sized kind _).mpr ⟨_, _, ended, rfl⟩
  rw [header] at opened
  have same : (loaded j c now j.header).header = j.header := rfl
  have file' : (loaded j c now j.header).file = j.file := rfl
  exact ⟨_, _, opened, rfl, reads_alike codec same rfl file'⟩

/-- Once the tail has come around to the block the header points at, that block
starts with a later entry, whose number gives it away. -/
private theorem lapped_not_recovered (trail : Trail codec j persisted front final) (sound : Sound j)
    (lapped : persisted.tail + j.size < j.header.tail)
    (few : j.header.tail < persisted.tail + 2 ^ 35)
    (found : traverseTail (loaded j c now persisted) fuel persisted.tail
      ((persisted.transCtr.toNat : ℤ) - 1) = some (.ok (newTail, txMax))) :
    newTail < j.header.tail := by
  have boundary : alignUpAlways (loaded j c now persisted).header.tail blockSize =
      persisted.tail + blockSize := boundary_loaded trail
  have room := trail.room
  have tail := trail.tail_eq
  have size_pos := sound.ring.size_pos
  -- the last time the tail passed over the block
  obtain ⟨laps, start, some_laps, below, above⟩ : ∃ laps start,
      start = persisted.tail + laps * j.size ∧ start < j.header.tail ∧
        j.header.tail ≤ start + j.size := by
    have split := Nat.div_add_mod (j.header.tail - 1 - persisted.tail) j.size
    have remainder := Nat.mod_lt (j.header.tail - 1 - persisted.tail) size_pos
    refine ⟨(j.header.tail - 1 - persisted.tail) / j.size, _, rfl, ?_, ?_⟩ <;>
    · rw [Nat.mul_comm]
      omega
  have start_dvd : blockSize ∣ start := by
    rw [some_laps]
    exact Nat.dvd_add trail.aligned (Nat.dvd_mul_left_of_dvd sound.ring.size_dvd _)
  obtain ⟨before, stored, after, split, place⟩ :=
    trail.chain.boundary start_dvd (by omega) (by omega)
  have chain := trail.chain
  rw [split, chain_append, place] at chain
  obtain ⟨_, ⟨numbered, fits, held⟩, _⟩ := chain
  have size_ge : blockSize ≤ j.size := Nat.le_of_dvd size_pos sound.ring.size_dvd
  have there : Holds (loaded j c now persisted).file
      ((loaded j c now persisted).fileOff persisted.tail) stored.bytes := by
    have found := held above
    rw [some_laps, Journal.fileOff, Nat.add_mul_mod_self_right] at found
    exact found
  have numbers : stored.entry.transId ≠ persisted.transCtr := by
    have count := packed_length_ge before
    have positive : before.length ≠ 0 := by
      intro none_before
      rw [List.length_eq_zero_iff.mp none_before, packed_nil, List.length_nil] at place
      omega
    intro same
    rw [numbered, UInt32.add_eq_left] at same
    have zero := congrArg UInt32.toNat same
    rw [UInt32.toNat_ofNat', UInt32.toNat_zero, Nat.mod_eq_of_lt (by omega)] at zero
    exact positive zero
  have whole := Nat.mod_eq_zero_of_dvd trail.aligned
  have short : stored.bytes.length ≤ blockSize := by omega
  cases fuel with
  | zero => cases found
  | succ fuel =>
    rw [traverse_entry stored (by omega) (by omega) (by omega) there, asU32_pred_succ,
      if_neg numbers] at found
    cases found
    omega

/-- A traversal that ends at the tail found it in reach, with a reason to stop. -/
theorem recoverable_of_traverse (trail : Trail codec j persisted front final)
    (offset : last.offset codec = persisted.tail + (packed front).length)
    (one_lap : j.header.tail ≤ persisted.tail + j.size)
    (found : traverseTail (loaded j c now persisted) fuel persisted.tail
      ((persisted.transCtr.toNat : ℤ) - 1) = some (.ok (j.header.tail, txMax))) :
    Recoverable codec j persisted last := by
  have boundary : alignUpAlways (loaded j c now persisted).header.tail blockSize =
      persisted.tail + blockSize := boundary_loaded trail
  have file : (loaded j c now persisted).file = j.file := rfl
  have room := trail.room
  have tail := trail.tail_eq
  rw [tail] at found
  obtain ⟨in_reach, stops⟩ :=
    chain_of_traverse file rfl (by omega) trail.chain one_lap (asU32_pred_succ _) found
  rw [Stops, boundary, ← tail] at stops
  exact ⟨one_lap, by omega, stops⟩

private theorem recoverable_of_recovers (trail : Trail codec j persisted front final) (sound : Sound j)
    (kind : c.journalType = .invalid ∨ c.journalType = j.header.ty)
    (offset : last.offset codec = persisted.tail + (packed front).length)
    (few : j.header.tail < persisted.tail + 2 ^ 35) (recovers : Recovers codec j c now) :
    Recoverable codec j persisted last := by
  rw [← trail.ty_eq] at kind
  obtain ⟨fuel, j', opened, header, _⟩ := recovers
  obtain ⟨newTail, txMax, found, rfl⟩ :=
    (reopen_eq (persisted_decodes trail sound) sound.sized kind fuel).mp opened
  have same : newTail = j.header.tail := congrArg JournalHeader.tail header
  have one_lap : j.header.tail ≤ persisted.tail + j.size := by
    by_contra lapped
    have behind := lapped_not_recovered trail sound (by omega) few found
    omega
  rw [same] at found
  exact recoverable_of_traverse trail offset one_lap found

/-- **Recovery.** A run that has written its header at least once is recovered
by `open` whenever the state it leaves is recoverable, and, short of 2 ^ 35
bytes written since that header, only then. -/
theorem reopen_recovers_iff (started : Started start) (run : Run codec FarFromWrap start j history)
    (headed : ∃ write ∈ history, write.closes codec = true)
    (kind : c.journalType = .invalid ∨ c.journalType = j.header.ty) :
    ∃ persisted last, decodeHeader j.file = some persisted ∧ history.getLast? = some last ∧
      (Recoverable codec j persisted last → Recovers codec j c now) ∧
      (j.header.tail < persisted.tail + 2 ^ 35 → Recovers codec j c now →
        Recoverable codec j persisted last) := by
  obtain ⟨sound, trail⟩ := run_tracked started.sound run
  obtain ⟨persisted, front, final, last, trail, found, offset⟩ := trail headed
  exact ⟨persisted, last, persisted_decodes trail sound, found,
    recovers_of_recoverable trail sound kind offset, recoverable_of_recovers trail sound kind offset⟩

end Recovery

section SecondLap

/-- A payload whose entry takes 100000 bytes, filled with one byte. -/
def longEntry (byte : UInt8) : ByteVec :=
  ⟨List.replicate 99976 byte, by rw [List.length_replicate]; omega⟩

/-- A payload whose entry takes 50000 bytes. -/
def shortEntry : ByteVec := ⟨List.replicate 49976 0, by rw [List.length_replicate]; omega⟩

theorem length_payload (j : Journal) (value : ByteVec) :
    (encodeEntry byteVec (payloadEntry j value)).length = 24 + value.1.length := by
  rw [length_encodeEntry, payloadEntry, encodeContent, List.length_append, length_leBytes,
    length_byteVec_encode]
  omega

theorem length_long (byte : UInt8) : (longEntry byte).1.length = 99976 :=
  List.length_replicate

theorem length_short : shortEntry.1.length = 49976 := List.length_replicate

/-- The bytes of an entry's payload follow its twenty bytes of lengths and tags. -/
private theorem payload_byte (j : Journal) (value : ByteVec) (inside : i < value.1.length) :
    (encodeEntry byteVec (sealedEntry byteVec (payloadEntry j value)))[20 + i]? = value.1[i]? := by
  have split : encodeEntry byteVec (sealedEntry byteVec (payloadEntry j value)) =
      (leBytes 4 (sealedEntry byteVec (payloadEntry j value)).fsize.toNat ++
        leBytes 4 j.header.transCtr.toNat ++ leBytes 4 0 ++ leBytes 8 value.1.length) ++
      (value.1 ++ leBytes 4 (sealedEntry byteVec (payloadEntry j value)).crc32.toNat) := by
    simp only [encodeEntry, sealedEntry, payloadEntry, encodeContent, byteVec, List.append_assoc]
  rw [split, List.getElem?_append_right (by simp), List.getElem?_append_left (by simp; omega)]
  simp

/-- The long entry, then the short one, into a ring of one block: the second
closes the block, writes the header and starts over at the front. -/
theorem second_lap (byte : UInt8) : ∃ j₁ j₂,
    (Journal.new singleBlock forwardConfig epoch).writeEntry byteVec epoch (longEntry byte) = .ok j₁ ∧
    j₁.writeEntry byteVec epoch shortEntry = .ok j₂ ∧
    j₁.header.tail = 100000 ∧ j₁.lastTime = epoch ∧ j₂.header.tail = 181072 ∧ j₂.size = blockSize ∧
    j₂.header.ty = .forward ∧ Sound j₂ ∧
    (∃ stored : Stored byteVec, Trail byteVec j₂ (closedHeader j₁) [] stored) ∧
    (closedHeader j₁).tail = 131072 ∧
    (⟨j₁, payloadEntry j₁ shortEntry⟩ : Write ByteVec).closes byteVec = true ∧
    Holds j₂.file (j₂.fileOff j₂.header.tail) [byte, byte, byte, byte] := by
  have value := blockSize_eq
  have header := headerSize_eq
  have largest : offMax = 2 ^ 63 - 1 := rfl
  have size := size_singleBlock
  have sound : Sound (Journal.new singleBlock forwardConfig epoch) := by
    refine Started.sound (.new ?_ ?_) <;> rw [length_singleBlock] <;> omega
  generalize fresh : Journal.new singleBlock forwardConfig epoch = start at size sound
  have tail : start.header.tail = 0 := by rw [← fresh, new_tail]
  have clock : start.lastTime = epoch := by rw [← fresh]; rfl
  have kind : start.header.ty = .forward := by rw [← fresh]; rfl
  have first_length := length_payload start (longEntry byte)
  rw [length_long] at first_length
  obtain ⟨j₁, wrote₁⟩ := @writeInner_succeeds _ byteVec start (payloadEntry start (longEntry byte))
    (by omega) (by omega) (by omega) (by omega)
  have entered₁ := (writeEntry_recent byteVec start (longEntry byte)).trans wrote₁
  obtain ⟨small₁, _, ⟨tight, _⟩ | ⟨_, here⟩, shape₁⟩ := writeInner_ok (by omega) wrote₁
  · rw [tail, Nat.zero_mod] at tight
    omega
  rw [here] at shape₁
  have stored₁ := length_storedEntry _ small₁
  have tail₁ : j₁.header.tail = 100000 := by
    rw [shape₁, landed_tail (by omega)]
    omega
  have size₁ : j₁.size = blockSize := by rw [shape₁, landed_size, size]
  have clock₁ : j₁.lastTime = epoch := by rw [shape₁, landed_lastTime, clock]
  have kind₁ : j₁.header.ty = .forward := by rw [shape₁, landed_ty, kind]
  have sound₁ : Sound j₁ := by
    rw [shape₁]
    exact sound.landed (by rw [tail, Nat.zero_mod]; omega)
  have held₁ : Holds j₁.file (j₁.fileOff 0) (storedEntry _ _ small₁).bytes := by
    have here := holds_splice_self start.file (start.fileOff start.header.tail) (storedEntry _ _ small₁).bytes
    rw [tail] at here
    rw [shape₁, landed_file, tail, landed_fileOff]
    exact here
  clear shape₁ wrote₁
  have second_length := length_payload j₁ shortEntry
  rw [length_short] at second_length
  obtain ⟨j₂, wrote₂⟩ := @writeInner_succeeds _ byteVec j₁ (payloadEntry j₁ shortEntry)
    (by omega) (by omega) (by omega) (by omega)
  have entered₂ := (writeEntry_recent byteVec j₁ shortEntry).trans wrote₂
  rw [clock₁] at entered₂
  have within : j₁.header.tail % blockSize = 100000 := by
    rw [tail₁, blockSize_eq]
  obtain ⟨small₂, opened, ⟨tight, closed⟩ | ⟨roomy, _⟩, shape₂⟩ := writeInner_ok (by omega) wrote₂
  rotate_left
  · omega
  have closed := closedTo_of_closeBlock sound₁.ring closed
  have boundary := closed.tail (by omega)
  have far : FarFromWrap j₁ := by
    rw [FarFromWrap]
    omega
  have stored₂ := length_storedEntry _ small₂
  have trail := trail_closed far closed (storedEntry _ _ small₂) (storedEntry_transId _ small₂) (by omega)
  rw [← shape₂] at trail
  have tail₂ : j₂.header.tail = 181072 := by
    rw [shape₂, landed_tail (by omega)]
    omega
  have aligned : opened.header.tail % blockSize = 0 := by
    rw [boundary, within, tail₁, blockSize_eq]
  have first_kept := closed.untouched 0 (by omega)
  have file₂ : j₂.file = splice opened.file (opened.fileOff opened.header.tail)
      (storedEntry _ _ small₂).bytes := by rw [shape₂, landed_file]
  have size₂ : opened.size = blockSize := closed.size.trans size₁
  have second_kept : Untouched opened j₂ 50000 opened.header.tail :=
    untouched_splice closed.ring (by rw [aligned]; omega) file₂ (by omega)
  refine ⟨j₁, j₂, by rw [← clock]; exact entered₁, entered₂, tail₁, clock₁, tail₂, ?_,
    by rw [← trail.ty_eq, closedHeader_ty, kind₁], ?_, ⟨_, trail⟩, ?_, ?_, ?_⟩
  · rw [shape₂, landed_size, size₂]
  · rw [shape₂]
    exact (sound₁.closed closed).landed (by rw [aligned]; omega)
  · rw [closedHeader_tail, alignUpAlways_off (by omega)]
    omega
  · simp only [Write.closes, space_in_block (by omega : j₁.header.tail < 2 ^ 64), decide_eq_true_eq]
    exact tight
  · intro i inside
    have few : i < 4 := inside
    have place : j₂.fileOff j₂.header.tail + i = 24 + (50000 + i) := by
      rw [tail₂, Journal.fileOff, shape₂, landed_size, size₂, blockSize_eq, headerSize_eq]
      omega
    have same : opened.fileOff (50000 + i) = 24 + (50000 + i) := by
      rw [Journal.fileOff, size₂, blockSize_eq, headerSize_eq, Nat.mod_eq_of_lt (by omega)]
    have same₁ : j₁.fileOff (50000 + i) = 24 + (50000 + i) := by
      rw [Journal.fileOff, size₁, blockSize_eq, headerSize_eq, Nat.mod_eq_of_lt (by omega)]
    have origin : j₁.fileOff 0 = 24 := by rw [Journal.fileOff, Nat.zero_mod, headerSize_eq]
    have late := second_kept (50000 + i) (by omega) (by omega)
    have early := first_kept (50000 + i) (by omega) (by omega)
    have there := held₁ (50000 + i) (by omega)
    have content : (storedEntry _ _ small₁).bytes[20 + (49980 + i)]? = (longEntry byte).1[49980 + i]? :=
      payload_byte start (longEntry byte) (by rw [length_long]; omega)
    rw [place, ← same, late, same, ← same₁, early, same₁, ← origin, there,
      show 50000 + i = 20 + (49980 + i) by omega, content, longEntry,
      List.getElem?_replicate_of_lt (by omega)]
    exact (List.getElem?_replicate_of_lt (by omega : i < 4)).symm

theorem offset_of_closes {write : Write T} (closes : write.closes codec = true) :
    write.offset codec = (closedHeader write.before).tail + (packed ([] : List (Stored codec))).length := by
  rw [Write.offset, if_pos closes, closedHeader_tail, packed_nil, List.length_nil, Nat.add_zero]

/-- The bytes of the first lap behind the tail are taken for one more entry. -/
theorem stale_bytes_defeat_recovery : ∃ j₁ j₂,
    (Journal.new singleBlock forwardConfig epoch).writeEntry byteVec epoch (longEntry 1) = .ok j₁ ∧
    j₁.writeEntry byteVec epoch shortEntry = .ok j₂ ∧
    (⟨j₁, payloadEntry j₁ shortEntry⟩ : Write ByteVec).closes byteVec = true ∧
    ¬Recovers byteVec j₂ forwardConfig epoch := by
  obtain ⟨j₁, j₂, wrote₁, wrote₂, _, _, tail₂, size₂, kind, sound, ⟨stored, trail⟩, boundary, closes, ones⟩ :=
    second_lap 1
  refine ⟨j₁, j₂, wrote₁, wrote₂, closes, fun recovers => ?_⟩
  have recoverable := recoverable_of_recovers trail sound (Or.inr kind.symm) (offset_of_closes closes)
    (by omega) recovers
  have value := blockSize_eq
  rcases recoverable.ends with beyond | spare | zeros
  · omega
  · rw [tail₂, blockSize_eq] at spare
    omega
  · have zero := zeros 0 (by decide)
    rw [ones 0 (by decide)] at zero
    exact absurd zero (by decide)

/-- Over zeros the same run is recovered. -/
theorem fresh_bytes_are_recovered : ∃ (j : Journal) (history : List (Write ByteVec)),
    Run byteVec FarFromWrap (Journal.new singleBlock forwardConfig epoch) j history ∧
    j.header.tail = 181072 ∧ Recovers byteVec j forwardConfig epoch := by
  obtain ⟨j₁, j₂, wrote₁, wrote₂, tail₁, clock₁, tail₂, size₂, kind, sound, ⟨stored, trail⟩, boundary,
    closes, zeros⟩ := second_lap 0
  have value := blockSize_eq
  have far : FarFromWrap (Journal.new singleBlock forwardConfig epoch) := by
    rw [FarFromWrap, new_tail]
    omega
  have far₁ : FarFromWrap j₁ := by
    rw [FarFromWrap, tail₁]
    omega
  have run := (Run.refl.recent far rfl wrote₁).recent far₁ clock₁ wrote₂
  refine ⟨j₂, _, run, tail₂, ?_⟩
  obtain ⟨persisted, last, decoded, found, recovers, _⟩ := reopen_recovers_iff (c := forwardConfig)
    (.new (by rw [length_singleBlock, headerSize_eq]; omega) (by rw [length_singleBlock, offMax]; omega))
    run ⟨_, List.mem_append_right _ (List.mem_singleton_self _), closes⟩ (Or.inr kind.symm)
  rw [persisted_decodes trail sound] at decoded
  cases decoded
  rw [List.getLast?_concat] at found
  cases found
  refine recovers ⟨?_, ?_, Or.inr (Or.inr zeros)⟩
  · omega
  · rw [offset_of_closes closes, packed_nil, List.length_nil, boundary]
    omega

end SecondLap

end Fsyncer.JournalRecovery
