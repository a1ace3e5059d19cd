import Fsyncer.JournalWrite

/-! Runs of `write_entry`. A call makes one or two `write_inner` calls; a run
remembers all of them with the journal each one found, so that a property of
runs is a property of single `write_inner` steps carried along. -/
namespace Fsyncer.JournalRun
open Fsyncer.ByteFile Fsyncer.Machine Fsyncer.Wire Fsyncer.JournalStore
open Fsyncer.JournalLayout Fsyncer.JournalWrite

variable {T : Type} {codec : Codec T} {j j' : Journal}

/-- One call of `write_inner`: the journal it is called on and the entry. -/
structure Write (T : Type) where
  before : Journal
  entry : StoreEntry T

/-- The call finds too little room in the block, and so writes the header. -/
def Write.closes (codec : Codec T) (write : Write T) : Bool :=
  let tail := write.before.header.tail
  usub (alignUpAlways tail blockSize) tail < (encodeEntry codec write.entry).length

/-- The logical offset the entry is laid down at. -/
def Write.offset (codec : Codec T) (write : Write T) : ℕ :=
  if write.closes codec then alignUpAlways write.before.header.tail blockSize
  else write.before.header.tail

/-- The entry as written, with its offset. -/
def Write.logged (codec : Codec T) (write : Write T) : ℕ × StoreEntry T :=
  (write.offset codec, sealedEntry codec write.entry)

def timeEntry (T : Type) (j : Journal) (now : SystemTime) : StoreEntry T :=
  { fsize := 0, transId := j.header.transCtr, inner := .time now, crc32 := 0 }

def payloadEntry (j : Journal) (value : T) : StoreEntry T :=
  { fsize := 0, transId := j.header.transCtr, inner := .payload value, crc32 := 0 }

/-- More than a second has passed since the last time marker. -/
def due (j : Journal) (now : SystemTime) : Bool := 10 ^ 9 < now.total - j.lastTime.total

/-- The `write_inner` calls of one `write_entry`, whose first half led to `marked`. -/
def innerWrites (j : Journal) (now : SystemTime) (marked : Journal) (value : T) : List (Write T) :=
  (if due j now then [⟨j, timeEntry T j now⟩] else []) ++ [⟨marked, payloadEntry marked value⟩]

/-- The tail is not about to wrap around the 64-bit range. -/
def FarFromWrap (j : Journal) : Prop := j.header.tail + 2 ^ 33 < 2 ^ 64

theorem FarFromWrap.two_blocks (far : FarFromWrap j) : j.header.tail + 2 * blockSize < 2 ^ 64 := by
  have bound : j.header.tail + 2 ^ 33 < 2 ^ 64 := far
  rw [blockSize_eq]
  omega

/-- `Run codec Meets start j history`: successful `write_entry` calls, all of
whose `write_inner` calls found a journal that `Meets` accepts, lead from
`start` to `j`. -/
inductive Run (codec : Codec T) (Meets : Journal → Prop) (start : Journal) :
    Journal → List (Write T) → Prop where
  | refl : Run codec Meets start start []
  | call {j marked j' : Journal} (earlier : Run codec Meets start j history)
      (ready : j.writeMarker codec now = .ok marked)
      (meets : ∀ write ∈ innerWrites j now marked value, Meets write.before)
      (wrote : j.writeEntry codec now value = .ok j') :
      Run codec Meets start j' (history ++ innerWrites j now marked value)

/-- A `write_entry` is a `write_inner` of the payload, after one of the time
when more than a second has passed. -/
theorem writeEntry_cases (ready : j.writeMarker codec now = .ok marked)
    (wrote : j.writeEntry codec now value = .ok j') :
    (innerWrites j now marked value = [⟨j, payloadEntry j value⟩] ∧
      j.writeInner codec (payloadEntry j value) = .ok j') ∨
    ∃ timed, j.writeInner codec (timeEntry T j now) = .ok timed ∧
      marked = { timed with lastTime := now } ∧
      innerWrites j now marked value =
        [⟨j, timeEntry T j now⟩, ⟨marked, payloadEntry marked value⟩] ∧
      marked.writeInner codec (payloadEntry marked value) = .ok j' := by
  rw [Journal.writeEntry, ready, ok_bind] at wrote
  rw [Journal.writeMarker] at ready
  split at ready
  · cases ready
  · split at ready
    · next late =>
      obtain ⟨timed, written, same⟩ := bind_ok.mp ready
      cases same
      have marks : due j now = true := decide_eq_true late
      exact Or.inr ⟨timed, written, rfl, by rw [innerWrites, if_pos marks, List.singleton_append], wrote⟩
    · next recent =>
      cases ready
      have unmarked : ¬due j now = true := fun late => recent (of_decide_eq_true late)
      exact Or.inl ⟨by rw [innerWrites, if_neg unmarked, List.nil_append], wrote⟩

/-- A call at the time of the last marker writes the payload only. -/
theorem writeMarker_recent (codec : Codec T) (j : Journal) :
    j.writeMarker codec j.lastTime = .ok j := by
  rw [Journal.writeMarker, if_neg (Nat.lt_irrefl _), if_neg (by rw [Nat.sub_self]; exact Nat.not_lt_zero _)]
  rfl

theorem writeEntry_recent (codec : Codec T) (j : Journal) (value : T) :
    j.writeEntry codec j.lastTime value = j.writeInner codec (payloadEntry j value) := by
  rw [Journal.writeEntry, writeMarker_recent, ok_bind]
  rfl

theorem innerWrites_recent (j : Journal) (value : T) :
    innerWrites j j.lastTime j value = [⟨j, payloadEntry j value⟩] := by
  have unmarked : due j j.lastTime = false := decide_eq_false (by rw [Nat.sub_self]; exact Nat.not_lt_zero _)
  rw [innerWrites, unmarked]
  rfl

/-- One more call at the time of the last marker. -/
theorem Run.recent (run : Run codec Meets start j history) (meets : Meets j)
    (clock : j.lastTime = now) (wrote : j.writeEntry codec now value = .ok j') :
    Run codec Meets start j' (history ++ [⟨j, payloadEntry j value⟩]) := by
  rw [← clock] at wrote
  rw [← innerWrites_recent]
  refine .call run (writeMarker_recent codec j) (fun write found => ?_) wrote
  rw [innerWrites_recent, List.mem_singleton] at found
  rw [found]
  exact meets

section Induction
variable (Meets : Journal → Prop) (Inv : Journal → List (Write T) → Prop)

/-- What every `write_inner` keeps, and the clock does not matter to, a
`write_entry` keeps. -/
theorem call_keeps
    (inner : ∀ {j e j' history}, Inv j history → Meets j → e.transId = j.header.transCtr →
      j.writeInner codec e = .ok j' → Inv j' (history ++ [⟨j, e⟩]))
    (clock : ∀ {j history} moment, Inv j history → Inv { j with lastTime := moment } history)
    (kept : Inv j history) (ready : j.writeMarker codec now = .ok marked)
    (meets : ∀ write ∈ innerWrites j now marked value, Meets write.before)
    (wrote : j.writeEntry codec now value = .ok j') :
    Inv j' (history ++ innerWrites j now marked value) := by
  rcases writeEntry_cases ready wrote with ⟨writes, wrote⟩ | ⟨timed, written, rfl, writes, wrote⟩
  · rw [writes] at meets ⊢
    exact inner kept (meets _ (List.mem_singleton_self _)) rfl wrote
  · rw [writes] at meets ⊢
    have first := clock now (inner kept (meets _ List.mem_cons_self) rfl written)
    have second := inner first (meets _ (List.mem_cons_of_mem _ (List.mem_singleton_self _))) rfl wrote
    simpa using second

/-- The induction over runs. -/
theorem run_keeps
    (inner : ∀ {j e j' history}, Inv j history → Meets j → e.transId = j.header.transCtr →
      j.writeInner codec e = .ok j' → Inv j' (history ++ [⟨j, e⟩]))
    (clock : ∀ {j history} moment, Inv j history → Inv { j with lastTime := moment } history)
    (initial : Inv start []) (run : Run codec Meets start j history) : Inv j history := by
  induction run with
  | refl => exact initial
  | call _ ready meets wrote ih => exact call_keeps Meets Inv inner clock ih ready meets wrote

end Induction

end Fsyncer.JournalRun
