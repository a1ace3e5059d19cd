import Fsyncer.Base.Wire

/-! The IEEE CRC-32: reflected polynomial, all-ones start, complemented result.
One shift of the remainder is linear over exclusive or and can be undone, so two
messages of one length that share a beginning collide exactly when their ends
leave the same remainder. -/
namespace Fsyncer.Crc32
open Fsyncer.Wire

def polynomial : BitVec 32 := 0xEDB88320#32

/-- One bit of polynomial division. -/
def shift (remainder : BitVec 32) : BitVec 32 :=
  if remainder.getLsbD 0 then (remainder >>> 1) ^^^ polynomial else remainder >>> 1

def shifts : Nat → BitVec 32 → BitVec 32
  | 0, remainder => remainder
  | count + 1, remainder => shifts count (shift remainder)

def update (remainder : BitVec 32) (byte : UInt8) : BitVec 32 :=
  shifts 8 (remainder ^^^ byte.toBitVec.setWidth 32)

/-- The remainder after feeding `bytes`, before the final complement. -/
def feed (remainder : BitVec 32) (bytes : List UInt8) : BitVec 32 :=
  bytes.foldl update remainder

/-- `crc32::checksum_ieee`. -/
def checksumIeee (bytes : List UInt8) : UInt32 :=
  ⟨~~~(feed 0xFFFFFFFF#32 bytes)⟩

-- The published check value of this CRC: the digits "123456789".
example : checksumIeee [49, 50, 51, 52, 53, 54, 55, 56, 57] = 0xCBF43926 := by decide +kernel

theorem shift_xor (left right : BitVec 32) :
    shift (left ^^^ right) = shift left ^^^ shift right := by
  simp only [shift, BitVec.getLsbD_xor, BitVec.ushiftRight_xor_distrib]
  cases left.getLsbD 0 <;> cases right.getLsbD 0 <;>
    simp only [Bool.xor_self, Bool.xor_false, Bool.false_xor, Bool.false_eq_true, ↓reduceIte]
  · rw [BitVec.xor_assoc]
  · rw [BitVec.xor_assoc, BitVec.xor_assoc, BitVec.xor_comm polynomial]
  · -- both low bits are set, so the polynomial is subtracted twice
    rw [BitVec.xor_assoc, ← BitVec.xor_assoc polynomial, BitVec.xor_comm polynomial,
      BitVec.xor_assoc (right >>> 1), BitVec.xor_self, BitVec.xor_zero]

theorem shifts_xor (count : Nat) (left right : BitVec 32) :
    shifts count (left ^^^ right) = shifts count left ^^^ shifts count right := by
  induction count generalizing left right with
  | zero => rfl
  | succ count ih => rw [shifts, shifts, shifts, shift_xor, ih]

theorem feed_append (remainder : BitVec 32) (first second : List UInt8) :
    feed remainder (first ++ second) = feed (feed remainder first) second :=
  List.foldl_append

theorem update_xor (left right : BitVec 32) (a b : UInt8) :
    update (left ^^^ right) (a ^^^ b) = update left a ^^^ update right b := by
  have widened : (a ^^^ b).toBitVec.setWidth 32 =
      a.toBitVec.setWidth 32 ^^^ b.toBitVec.setWidth 32 := by
    rw [UInt8.toBitVec_xor, BitVec.setWidth_xor]
  rw [update, update, update, ← shifts_xor, widened]
  congr 1
  ac_rfl

/-- Feeding is linear in register and message together. -/
theorem feed_xor (left right : BitVec 32) (first second : List UInt8)
    (length : first.length = second.length) :
    feed (left ^^^ right) (xorBytes first second) = feed left first ^^^ feed right second := by
  induction first generalizing left right second with
  | nil =>
    rw [List.length_nil] at length
    rw [List.length_eq_zero_iff.mp length.symm]
    rfl
  | cons a first ih =>
    cases second with
    | nil => cases length
    | cons b second =>
      have rest := ih (update left a) (update right b) second (Nat.succ.inj length)
      rw [← update_xor] at rest
      exact rest

theorem shift_eq_zero (zero : shift remainder = 0#32) : remainder = 0#32 := by
  rw [shift] at zero
  split at zero
  · -- the polynomial has its top bit set, a shifted remainder has not
    have top := congrArg (BitVec.getLsbD · 31) zero
    simp [polynomial] at top
  · next even =>
    apply BitVec.eq_of_getLsbD_eq
    intro i inside
    cases i with
    | zero => simpa using even
    | succ i =>
      have bit := congrArg (BitVec.getLsbD · i) zero
      simp only [BitVec.getLsbD_ushiftRight, BitVec.getLsbD_zero] at bit
      rw [Nat.add_comm, bit, BitVec.getLsbD_zero]

theorem shifts_eq_zero (zero : shifts count remainder = 0#32) : remainder = 0#32 := by
  induction count generalizing remainder with
  | zero => exact zero
  | succ count ih => exact shift_eq_zero (ih zero)

private theorem xor_eq_zero {left right : BitVec 32} : left ^^^ right = 0#32 ↔ left = right :=
  BitVec.xor_eq_zero_iff

/-- No message makes two registers meet. -/
theorem feed_injective (bytes : List UInt8) (same : feed left bytes = feed right bytes) :
    left = right := by
  induction bytes generalizing left right with
  | nil => exact same
  | cons byte bytes ih =>
    have met := ih same
    rw [update, update, ← xor_eq_zero, ← shifts_xor] at met
    have zero := shifts_eq_zero met
    rw [xor_eq_zero] at zero
    simpa using zero

private theorem not_xor_xor (first second third : BitVec 32) :
    ~~~(first ^^^ second ^^^ third) = ~~~first ^^^ ~~~second ^^^ ~~~third := by
  ext i
  simp only [BitVec.getElem_not, BitVec.getElem_xor]
  cases first[i] <;> cases second[i] <;> cases third[i] <;> rfl

/-- The checksum is affine: over messages of one length it carries the exclusive
or of three messages to that of their checksums. -/
theorem checksumIeee_xor_xor (first second third : List UInt8) (length : second.length = first.length)
    (length' : third.length = first.length) :
    checksumIeee (xorBytes (xorBytes first second) third) =
      checksumIeee first ^^^ checksumIeee second ^^^ checksumIeee third := by
  have start : (0xFFFFFFFF#32 : BitVec 32) = 0xFFFFFFFF#32 ^^^ 0xFFFFFFFF#32 ^^^ 0xFFFFFFFF#32 := by
    decide
  have fed : feed 0xFFFFFFFF#32 (xorBytes (xorBytes first second) third) =
      feed 0xFFFFFFFF#32 first ^^^ feed 0xFFFFFFFF#32 second ^^^ feed 0xFFFFFFFF#32 third := by
    conv_lhs => rw [start]
    rw [feed_xor _ _ _ _ (by rw [length_xorBytes]; omega), feed_xor _ _ _ _ length.symm]
  apply UInt32.toBitVec_inj.mp
  rw [UInt32.toBitVec_xor, UInt32.toBitVec_xor]
  show ~~~feed 0xFFFFFFFF#32 (xorBytes (xorBytes first second) third) =
    ~~~feed 0xFFFFFFFF#32 first ^^^ ~~~feed 0xFFFFFFFF#32 second ^^^ ~~~feed 0xFFFFFFFF#32 third
  rw [fed, not_xor_xor]

/-- Two messages with a common beginning and ends of one length have the same
checksum exactly if the difference of the ends leaves no remainder. -/
theorem checksumIeee_append_eq (front first second : List UInt8) (length : second.length = first.length) :
    checksumIeee (front ++ first) = checksumIeee (front ++ second) ↔
      feed 0#32 (xorBytes first second) = 0#32 := by
  have difference := feed_xor (feed 0xFFFFFFFF#32 front) (feed 0xFFFFFFFF#32 front) first second length.symm
  rw [BitVec.xor_self] at difference
  rw [difference, xor_eq_zero, ← feed_append, ← feed_append, ← BitVec.not_inj]
  exact UInt32.toBitVec_inj.symm

/-- A common end changes nothing about whether two messages collide. -/
theorem checksumIeee_append_right (first second tail : List UInt8) :
    checksumIeee (first ++ tail) = checksumIeee (second ++ tail) ↔
      checksumIeee first = checksumIeee second := by
  rw [← UInt32.toBitVec_inj, ← UInt32.toBitVec_inj]
  show ~~~_ = ~~~_ ↔ ~~~_ = ~~~_
  rw [BitVec.not_inj, BitVec.not_inj, feed_append, feed_append]
  exact ⟨fun same => feed_injective tail same, fun same => by rw [same]⟩

end Fsyncer.Crc32
