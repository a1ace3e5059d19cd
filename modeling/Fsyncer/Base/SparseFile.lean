import Fsyncer.Base.ByteFile

/-! Files with holes. What was written to a file gives some of its bytes, and
all others read as zeros; two files to which the same was written differ in
their length at most. -/
namespace Fsyncer.SparseFile
open ByteFile

/-- The bytes that were written, by their positions. -/
abbrev Written := ℕ → Option UInt8

def Written.write (written : Written) (offset : ℕ) (bytes : List UInt8) : Written := fun i =>
  if offset ≤ i ∧ i < offset + bytes.length then bytes[i - offset]? else written i

def Written.cut (written : Written) (length : ℕ) : Written := fun i => if i < length then written i else none

/-- The file has the bytes that were written, and zeros elsewhere. -/
structure Represents (file : File) (written : Written) : Prop where
  within : ∀ i, written i ≠ none → i < file.length
  bytes : ∀ i < file.length, file[i]? = some ((written i).getD 0)

section Represents
variable {file other : File} {written : Written}

theorem represents_nil : Represents [] fun _ => none :=
  ⟨fun _ some => absurd rfl some, fun _ inside => absurd inside (Nat.not_lt_zero _)⟩

theorem Represents.splice (represents : Represents file written) (offset : ℕ) (bytes : List UInt8) :
    Represents (ByteFile.splice file offset bytes) (written.write offset bytes) := by
  refine ⟨fun i some => ?_, fun i inside => ?_⟩
  · rw [length_splice]
    unfold Written.write at some
    split at some
    · omega
    · have := represents.within i some
      omega
  · rw [length_splice] at inside
    rw [getElem?_splice]
    unfold Written.write
    by_cases covered : offset ≤ i ∧ i < offset + bytes.length
    · rw [if_neg (by omega), if_pos covered.2, if_pos covered, List.getElem?_eq_getElem (by omega), Option.getD_some]
    · rw [if_neg covered]
      by_cases held : i < file.length
      · rw [represents.bytes i held]
        split_ifs <;> first | rfl | omega
      · have none : written i = none := by
          by_contra some
          exact held (represents.within i some)
        rw [none, if_pos (by omega), if_neg held]
        rfl

theorem Represents.setLen (represents : Represents file written) (length : ℕ) :
    Represents (ByteFile.setLen file length) (written.cut length) := by
  refine ⟨fun i some => ?_, fun i inside => ?_⟩
  · rw [length_setLen]
    unfold Written.cut at some
    split at some
    · next inside => exact inside
    · exact absurd rfl some
  · rw [length_setLen] at inside
    rw [getElem?_setLen, if_pos inside]
    unfold Written.cut
    rw [if_pos inside]
    by_cases held : i < file.length
    · rw [if_pos held, represents.bytes i held]
    · have none : written i = none := by
        by_contra some
        exact held (represents.within i some)
      rw [if_neg held, none]
      rfl

/-- Nothing is cut off. -/
theorem Represents.cut_eq (represents : Represents file written) (longer : file.length ≤ length) :
    written.cut length = written := by
  funext i
  unfold Written.cut
  split
  · rfl
  · next outside =>
    by_contra some
    have := represents.within i (Ne.symm some)
    omega

theorem Represents.extend (represents : Represents file written) (longer : file.length ≤ length) :
    Represents (ByteFile.setLen file length) written := by
  have cut := represents.setLen length
  rwa [represents.cut_eq longer] at cut

/-- What was written and how long the file is say everything. -/
theorem Represents.eq_iff (first : Represents file written) (second : Represents other written) :
    file = other ↔ file.length = other.length := by
  refine ⟨congrArg List.length, fun same => List.ext_getElem? fun i => ?_⟩
  by_cases inside : i < file.length
  · rw [first.bytes i inside, second.bytes i (same ▸ inside)]
  · rw [List.getElem?_eq_none (by omega), List.getElem?_eq_none (by omega)]

/-- The file ends with a byte that was written. -/
def Tight (file : File) (written : Written) : Prop := file.length = 0 ∨ written (file.length - 1) ≠ none

/-- No other file to which this was written is shorter. -/
theorem Tight.length_le (tight : Tight file written) (represents : Represents other written) :
    file.length ≤ other.length := by
  rcases tight with empty | last
  · omega
  · have := represents.within _ last
    omega

/-- A write up to the end or beyond it. -/
theorem tight_splice (filled : bytes ≠ []) (ends : file.length ≤ offset + bytes.length) :
    Tight (ByteFile.splice file offset bytes) (written.write offset bytes) := by
  have positive : 0 < bytes.length := List.length_pos_iff.mpr filled
  refine .inr ?_
  unfold Written.write
  rw [length_splice, Nat.max_eq_right ends, if_pos (by omega), List.getElem?_eq_getElem (by omega)]
  exact Option.some_ne_none _

theorem Tight.splice (tight : Tight file written) (filled : bytes ≠ []) (offset : ℕ) :
    Tight (ByteFile.splice file offset bytes) (written.write offset bytes) := by
  by_cases ends : file.length ≤ offset + bytes.length
  · exact tight_splice filled ends
  · refine .inr ?_
    unfold Written.write
    rw [length_splice, Nat.max_eq_left (by omega), if_neg (by omega)]
    exact tight.resolve_left (by omega)

/-- A part of a file: where it starts, and its bytes. -/
abbrev Part := ℕ × List UInt8

def Part.Covers (part : Part) (i : ℕ) : Prop := part.1 ≤ i ∧ i < part.1 + part.2.length

/-- Parts without a common position, all of them written. -/
theorem foldl_write {parts : List Part}
    (disjoint : parts.Pairwise fun part later => ∀ i, part.Covers i → ¬ later.Covers i) (written : Written) (i : ℕ)
    (byte : UInt8) : parts.foldl (fun written part => written.write part.1 part.2) written i = some byte ↔
      (∃ part ∈ parts, part.Covers i ∧ part.2[i - part.1]? = some byte) ∨
        (∀ part ∈ parts, ¬ part.Covers i) ∧ written i = some byte := by
  induction parts generalizing written with
  | nil => simp
  | cons part parts ih =>
    obtain ⟨first, disjoint⟩ := List.pairwise_cons.mp disjoint
    rw [List.foldl_cons, ih disjoint]
    simp only [List.mem_cons, exists_eq_or_imp, forall_eq_or_imp]
    by_cases covers : part.Covers i
    · have alone : ∀ later ∈ parts, ¬ later.Covers i := fun later listed => first later listed i covers
      have none : ¬ ∃ later ∈ parts, later.Covers i ∧ later.2[i - later.1]? = some byte := by
        rintro ⟨later, listed, inside, -⟩
        exact alone later listed inside
      have here : written.write part.1 part.2 i = part.2[i - part.1]? := if_pos covers
      simp only [here, none, covers, not_true, false_and, true_and, false_or, or_false]
      exact and_iff_right alone
    · have elsewhere : written.write part.1 part.2 i = written i := if_neg covers
      simp [elsewhere, covers]

end Represents

end Fsyncer.SparseFile
