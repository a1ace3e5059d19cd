import Mathlib.Algebra.GroupWithZero.Nat
import Mathlib.Data.List.Basic
import Mathlib.Tactic.SplitIfs

/-! Files as byte sequences under positioned reads and writes. A write past the
end fills the hole with zeros, a read past the end is an error, and no write
reaches beyond the largest signed 64-bit offset. -/
namespace Fsyncer.ByteFile

/-- The contents of a regular file, first byte first. -/
abbrev File := List UInt8

inductive IoError where
  | unexpectedEof
  | fileTooLarge
  | other (message : String)
  deriving DecidableEq, Repr

/-- A call either fails with an input/output error or unwinds with a message. -/
inductive Failure where
  | io (error : IoError)
  | panic (message : String)
  deriving DecidableEq, Repr

/-- Offsets are signed, so no byte lives at or beyond `2 ^ 63 - 1`. -/
def offMax : Nat := 2 ^ 63 - 1

/-- `FileExt::read_exact_at`: an empty buffer is filled without a system call. -/
def readExactAt (file : File) (offset count : Nat) : Except IoError (List UInt8) :=
  if count = 0 ∨ offset + count ≤ file.length then .ok ((file.drop offset).take count)
  else .error .unexpectedEof

/-- The file after `bytes` have replaced what was at `offset`; a gap between
the old end and `offset` reads as zeros. -/
def splice (file : File) (offset : Nat) (bytes : List UInt8) : File :=
  file.take offset ++ List.replicate (offset - file.length) 0 ++ bytes ++
    file.drop (offset + bytes.length)

/-- `FileExt::write_all_at`: an empty buffer makes no system call at all. -/
def writeAllAt (file : File) (bytes : List UInt8) (offset : Nat) : Except IoError File :=
  if bytes = [] then .ok file
  else if offset + bytes.length ≤ offMax then .ok (splice file offset bytes)
  else .error .fileTooLarge

/-- `File::set_len`: cut, or extend with zeros. -/
def setLen (file : File) (length : Nat) : File :=
  file.take length ++ List.replicate (length - file.length) 0

/-- The bytes found at `offset` are exactly `bytes`. -/
def Holds (file : File) (offset : Nat) (bytes : List UInt8) : Prop :=
  ∀ i < bytes.length, file[offset + i]? = bytes[i]?

@[simp] theorem length_splice (file : File) (offset : Nat) (bytes : List UInt8) :
    (splice file offset bytes).length = max file.length (offset + bytes.length) := by
  simp only [splice, List.length_append, List.length_take, List.length_replicate, List.length_drop]
  omega

/-- A byte after a write is the written one inside the range and the old one
outside, with zeros in a freshly opened hole. -/
theorem getElem?_splice (file : File) (offset : Nat) (bytes : List UInt8) (i : Nat) :
    (splice file offset bytes)[i]? =
      if i < offset then (if i < file.length then file[i]? else some 0)
      else if i < offset + bytes.length then bytes[i - offset]? else file[i]? := by
  have front : (file.take offset ++ List.replicate (offset - file.length) 0).length = offset := by
    simp only [List.length_append, List.length_take, List.length_replicate]
    omega
  by_cases before : i < offset
  · rw [splice, List.append_assoc, List.getElem?_append_left (by omega), if_pos before]
    by_cases held : i < file.length
    · rw [List.getElem?_append_left (by simp only [List.length_take]; omega),
        List.getElem?_take_of_lt before, if_pos held]
    · rw [List.getElem?_append_right (by simp only [List.length_take]; omega),
        List.getElem?_replicate_of_lt (by simp only [List.length_take]; omega), if_neg held]
  · rw [splice, List.append_assoc, List.getElem?_append_right (by omega), front, if_neg before]
    by_cases inside : i < offset + bytes.length
    · rw [List.getElem?_append_left (by omega), if_pos inside]
    · rw [List.getElem?_append_right (by omega), List.getElem?_drop, if_neg inside]
      congr 1
      omega

theorem getElem?_splice_inside {file : File} (low : offset ≤ i) (high : i < offset + bytes.length) :
    (splice file offset bytes)[i]? = bytes[i - offset]? := by
  rw [getElem?_splice, if_neg (by omega), if_pos high]

/-- Bytes the file already had and the write does not cover keep their value. -/
theorem getElem?_splice_outside {file : File} (held : i < file.length)
    (outside : i < offset ∨ offset + bytes.length ≤ i) :
    (splice file offset bytes)[i]? = file[i]? := by
  rw [getElem?_splice]
  split_ifs <;> first | rfl | omega

/-- A write of nothing inside the file changes nothing. -/
theorem splice_nil {file : File} (inside : offset ≤ file.length) : splice file offset [] = file := by
  simp only [splice, Nat.sub_eq_zero_of_le inside, List.replicate_zero, List.append_nil,
    List.length_nil, Nat.add_zero, List.take_append_drop]

theorem Holds.length_le (held : Holds file offset bytes) (nonempty : bytes ≠ []) :
    offset + bytes.length ≤ file.length := by
  have positive := List.length_pos_iff.mpr nonempty
  have last := held (bytes.length - 1) (by omega)
  rw [List.getElem?_eq_getElem (by omega : bytes.length - 1 < bytes.length)] at last
  obtain ⟨inside, _⟩ := List.getElem?_eq_some_iff.mp last
  omega

theorem holds_nil (file : File) (offset : Nat) : Holds file offset [] := by
  intro i small
  simp at small

theorem holds_append : Holds file offset (first ++ second) ↔
    Holds file offset first ∧ Holds file (offset + first.length) second := by
  constructor
  · intro held
    refine ⟨fun i small => ?_, fun i small => ?_⟩
    · rw [held i (by rw [List.length_append]; omega), List.getElem?_append_left small]
    · have there := held (first.length + i) (by rw [List.length_append]; omega)
      rw [List.getElem?_append_right (by omega), Nat.add_sub_cancel_left, ← Nat.add_assoc] at there
      exact there
  · rintro ⟨front, back⟩ i small
    by_cases early : i < first.length
    · rw [front i early, List.getElem?_append_left early]
    · have there := back (i - first.length) (by rw [List.length_append] at small; omega)
      rw [List.getElem?_append_right (by omega), ← there]
      congr 1
      omega

theorem Holds.drop (held : Holds file offset bytes) (small : count ≤ bytes.length) :
    Holds file (offset + count) (bytes.drop count) := by
  rw [← List.take_append_drop count bytes, holds_append, List.length_take, Nat.min_eq_left small] at held
  exact held.2

theorem holds_splice_self (file : File) (offset : Nat) (bytes : List UInt8) :
    Holds (splice file offset bytes) offset bytes := by
  intro i small
  rw [getElem?_splice_inside (by omega) (by omega), Nat.add_sub_cancel_left]

/-- A write leaves alone what is held outside its range. -/
theorem Holds.splice (held : Holds file position kept)
    (apart : position + kept.length ≤ offset ∨ offset + bytes.length ≤ position) :
    Holds (splice file offset bytes) position kept := by
  intro i small
  have inside := held.length_le (List.length_pos_iff.mp (by omega))
  rw [getElem?_splice_outside (by omega) (by omega)]
  exact held i small

/-- A write cut short that left every byte in place is as good as the whole one. -/
theorem splice_take_of_holds {file : File}
    (held : Holds (ByteFile.splice file offset (bytes.take count)) offset bytes) :
    ByteFile.splice file offset (bytes.take count) = ByteFile.splice file offset bytes := by
  apply List.ext_getElem?
  intro i
  by_cases inside : offset ≤ i ∧ i < offset + bytes.length
  · have there := held (i - offset) (by omega)
    rw [Nat.add_sub_cancel' inside.1] at there
    rw [there, getElem?_splice_inside inside.1 inside.2]
  · have short : (bytes.take count).length ≤ bytes.length := List.length_take_le' _ _
    rw [getElem?_splice, getElem?_splice]
    split_ifs <;> first | rfl | omega

theorem readExactAt_of_holds (held : Holds file offset bytes) (count : Nat)
    (small : count ≤ bytes.length) :
    readExactAt file offset count = .ok (bytes.take count) := by
  by_cases zero : count = 0
  · subst count
    simp [readExactAt]
  have nonempty : bytes ≠ [] := List.length_pos_iff.mp (by omega)
  have inside := held.length_le nonempty
  rw [readExactAt, if_pos (Or.inr (by omega))]
  congr 1
  apply List.ext_getElem?
  intro i
  by_cases early : i < count
  · rw [List.getElem?_take_of_lt early, List.getElem?_take_of_lt early, List.getElem?_drop]
    exact held i (by omega)
  · rw [List.getElem?_eq_none (by simp only [List.length_take]; omega),
      List.getElem?_eq_none (by simp only [List.length_take]; omega)]

theorem Holds.eq_append (held : Holds file 0 bytes) : file = bytes ++ file.drop bytes.length := by
  have front := readExactAt_of_holds held bytes.length (Nat.le_refl _)
  unfold readExactAt at front
  split at front
  · rw [List.drop_zero, List.take_length, Except.ok.injEq] at front
    conv_lhs => rw [← List.take_append_drop bytes.length file, front]
  · cases front

theorem holds_of_readExactAt (read : readExactAt file offset count = .ok bytes) :
    Holds file offset bytes := by
  unfold readExactAt at read
  split at read
  · cases read
    intro i small
    rw [List.length_take] at small
    rw [List.getElem?_take_of_lt (by omega), List.getElem?_drop]
  · cases read

theorem length_of_readExactAt (read : readExactAt file offset count = .ok bytes) :
    bytes.length = count := by
  unfold readExactAt at read
  split at read
  · next inside =>
    cases read
    rw [List.length_take, List.length_drop]
    omega
  · cases read

theorem writeAllAt_ok (wrote : writeAllAt file bytes offset = .ok written) :
    (bytes = [] ∧ written = file) ∨
      (bytes ≠ [] ∧ offset + bytes.length ≤ offMax ∧ written = splice file offset bytes) := by
  unfold writeAllAt at wrote
  split at wrote
  · next empty => cases wrote; exact Or.inl ⟨empty, rfl⟩
  · next nonempty =>
    split at wrote
    · next small => cases wrote; exact Or.inr ⟨nonempty, small, rfl⟩
    · cases wrote

theorem getElem?_setLen (file : File) (length i : Nat) :
    (setLen file length)[i]? =
      if i < length then (if i < file.length then file[i]? else some 0) else none := by
  unfold setLen
  by_cases inside : i < length
  · rw [if_pos inside]
    by_cases held : i < file.length
    · rw [List.getElem?_append_left (by simp only [List.length_take]; omega),
        List.getElem?_take_of_lt inside, if_pos held]
    · rw [List.getElem?_append_right (by simp only [List.length_take]; omega),
        List.getElem?_replicate_of_lt (by simp only [List.length_take]; omega), if_neg held]
  · rw [if_neg inside, List.getElem?_eq_none]
    simp only [List.length_append, List.length_take, List.length_replicate]
    omega

@[simp] theorem length_setLen (file : File) (length : Nat) :
    (setLen file length).length = length := by
  simp only [setLen, List.length_append, List.length_take, List.length_replicate]
  omega

end Fsyncer.ByteFile
