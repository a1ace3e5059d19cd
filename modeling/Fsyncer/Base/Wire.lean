import Mathlib.Data.List.Basic
import Mathlib.Tactic.Ring

/-! Little-endian integers and self-delimiting codecs. A codec decodes its own
output and hands back whatever followed it, which is all that readers of a
concatenation of encodings rely on. -/
namespace Fsyncer.Wire

/-- The `width` low bytes of `value`, least significant first. -/
def leBytes : Nat → Nat → List UInt8
  | 0, _ => []
  | width + 1, value => UInt8.ofNat value :: leBytes width (value / 256)

def leValue : List UInt8 → Nat
  | [] => 0
  | byte :: rest => byte.toNat + 256 * leValue rest

/-- Reads an unsigned integer of `width` bytes off the front of the input. -/
def takeLe (width : Nat) (bytes : List UInt8) : Option (Nat × List UInt8) :=
  if width ≤ bytes.length then some (leValue (bytes.take width), bytes.drop width) else none

@[simp] theorem length_leBytes (width value : Nat) : (leBytes width value).length = width := by
  induction width generalizing value with
  | zero => rfl
  | succ width ih => simp [leBytes, ih]

theorem leValue_leBytes (width value : Nat) :
    leValue (leBytes width value) = value % 256 ^ width := by
  induction width generalizing value with
  | zero => simp [leBytes, leValue, Nat.mod_one]
  | succ width ih =>
    have split := Nat.mod_mul (x := value) (a := 256) (b := 256 ^ width)
    rw [leBytes, leValue, ih, Nat.pow_succ', split]
    simp

theorem leValue_lt (bytes : List UInt8) : leValue bytes < 256 ^ bytes.length := by
  induction bytes with
  | nil => simp [leValue]
  | cons byte rest ih =>
    have small := byte.toNat_lt
    rw [leValue, List.length_cons, Nat.pow_succ]
    omega

/-- Bytewise exclusive or. -/
def xorBytes (left right : List UInt8) : List UInt8 := List.zipWith (· ^^^ ·) left right

@[simp] theorem length_xorBytes (left right : List UInt8) :
    (xorBytes left right).length = min left.length right.length := List.length_zipWith

theorem xorBytes_append (length : a.length = b.length) (c d : List UInt8) :
    xorBytes (a ++ c) (b ++ d) = xorBytes a b ++ xorBytes c d :=
  List.zipWith_append length

theorem xorBytes_thrice (bytes : List UInt8) : xorBytes (xorBytes bytes bytes) bytes = bytes := by
  induction bytes with
  | nil => rfl
  | cons byte rest ih =>
    show (byte ^^^ byte ^^^ byte) :: xorBytes (xorBytes rest rest) rest = byte :: rest
    rw [ih, UInt8.xor_self, UInt8.zero_xor]

theorem leBytes_xor (width left right : Nat) :
    leBytes width (left ^^^ right) = xorBytes (leBytes width left) (leBytes width right) := by
  induction width generalizing left right with
  | zero => rfl
  | succ width ih =>
    have high : (left ^^^ right) / 256 = left / 256 ^^^ right / 256 := Nat.xor_div_two_pow (n := 8)
    have low : UInt8.ofNat (left ^^^ right) = UInt8.ofNat left ^^^ UInt8.ofNat right := by
      apply UInt8.toBitVec_inj.mp
      simp
    rw [leBytes, leBytes, leBytes, high, ih, low]
    rfl

theorem takeLe_leBytes (width value : Nat) (rest : List UInt8) :
    takeLe width (leBytes width value ++ rest) = some (value % 256 ^ width, rest) := by
  have len := length_leBytes width value
  rw [takeLe, if_pos (by rw [List.length_append, len]; omega), List.take_left' len,
    List.drop_left' len, leValue_leBytes]

theorem takeLe_leBytes_of_lt (width : Nat) (small : value < 256 ^ width) (rest : List UInt8) :
    takeLe width (leBytes width value ++ rest) = some (value, rest) := by
  rw [takeLe_leBytes, Nat.mod_eq_of_lt small]

/-- Four bytes spell zero exactly when all four are zero. -/
theorem leValue_eq_zero (bytes : List UInt8) :
    leValue bytes = 0 ↔ bytes = List.replicate bytes.length 0 := by
  induction bytes with
  | nil => simp [leValue]
  | cons byte rest ih =>
    rw [leValue, List.length_cons, List.replicate_succ, List.cons.injEq, ← ih]
    constructor
    · intro total
      exact ⟨UInt8.toNat_inj.mp (by simp; omega), by omega⟩
    · rintro ⟨rfl, tail⟩
      simp [tail]

/-- A serialisation that can be read back from the front of any input. -/
structure Codec (T : Type) where
  encode : T → List UInt8
  decode : List UInt8 → Option (T × List UInt8)
  decode_encode : ∀ value rest, decode (encode value ++ rest) = some (value, rest)

namespace Codec

variable {A B : Type}

def u32 : Codec UInt32 where
  encode value := leBytes 4 value.toNat
  decode bytes := (takeLe 4 bytes).map fun (value, rest) => (UInt32.ofNat value, rest)
  decode_encode value rest := by
    rw [takeLe_leBytes_of_lt 4 value.toNat_lt]
    simp

def u64 : Codec UInt64 where
  encode value := leBytes 8 value.toNat
  decode bytes := (takeLe 8 bytes).map fun (value, rest) => (UInt64.ofNat value, rest)
  decode_encode value rest := by
    rw [takeLe_leBytes_of_lt 8 value.toNat_lt]
    simp

/-- One value behind the other. -/
def both (first : Codec A) (second : Codec B) : Codec (A × B) where
  encode value := first.encode value.1 ++ second.encode value.2
  decode bytes := do
    let (a, bytes) ← first.decode bytes
    let (b, bytes) ← second.decode bytes
    some ((a, b), bytes)
  decode_encode value rest := by
    rw [List.append_assoc, first.decode_encode]
    simp [second.decode_encode]

/-- A value written as one of another type, which not every value of that type
has to stand for. -/
def through (inner : Codec A) (write : B → A) (read : A → Option B)
    (read_write : ∀ value, read (write value) = some value) : Codec B where
  encode value := inner.encode (write value)
  decode bytes := do
    let (a, bytes) ← inner.decode bytes
    let value ← read a
    some (value, bytes)
  decode_encode value rest := by
    rw [inner.decode_encode]
    simp [read_write]

/-- The codec of the one value that `bytes` stand for. -/
def only (bytes : List UInt8) : Codec Unit where
  encode _ := bytes
  decode input := if bytes.isPrefixOf input then some ((), input.drop bytes.length) else none
  decode_encode _ rest := by
    rw [if_pos (List.isPrefixOf_iff_prefix.mpr (List.prefix_append ..)), List.drop_left]

end Codec

theorem leBytes_leValue (bytes : List UInt8) : leBytes bytes.length (leValue bytes) = bytes := by
  induction bytes with
  | nil => rfl
  | cons byte rest ih =>
    have low : UInt8.ofNat (byte.toNat + 256 * leValue rest) = byte := by
      apply UInt8.toNat_inj.mp
      have small := byte.toNat_lt
      rw [UInt8.toNat_ofNat']
      omega
    have high : (byte.toNat + 256 * leValue rest) / 256 = leValue rest := by
      have small := byte.toNat_lt
      omega
    rw [List.length_cons, leValue, leBytes, low, high, ih]

/-- Most significant byte first. -/
def beBytes (width value : Nat) : List UInt8 := (leBytes width value).reverse

def beValue (bytes : List UInt8) : Nat := leValue bytes.reverse

@[simp] theorem length_beBytes (width value : Nat) : (beBytes width value).length = width := by
  rw [beBytes, List.length_reverse, length_leBytes]

theorem beValue_beBytes (width value : Nat) : beValue (beBytes width value) = value % 256 ^ width := by
  rw [beValue, beBytes, List.reverse_reverse, leValue_leBytes]

theorem beBytes_beValue (bytes : List UInt8) : beBytes bytes.length (beValue bytes) = bytes := by
  have read := leBytes_leValue bytes.reverse
  rw [List.length_reverse] at read
  rw [beBytes, beValue, read, List.reverse_reverse]

/-- A byte vector behind its 64-bit length. -/
abbrev ByteVec := { bytes : List UInt8 // bytes.length < 2 ^ 64 }

def decodeByteVec (input : List UInt8) : Option (ByteVec × List UInt8) :=
  match takeLe 8 input with
  | none => none
  | some (count, rest) =>
    if fits : count ≤ rest.length ∧ count < 2 ^ 64 then
      some (⟨rest.take count, by rw [List.length_take]; omega⟩, rest.drop count)
    else none

def byteVec : Codec ByteVec where
  encode value := leBytes 8 value.1.length ++ value.1
  decode := decodeByteVec
  decode_encode := by
    rintro ⟨bytes, small⟩ rest
    have exact : bytes.length % 256 ^ 8 = bytes.length := Nat.mod_eq_of_lt small
    simp only [decodeByteVec, List.append_assoc, takeLe_leBytes, exact]
    rw [dif_pos ⟨by rw [List.length_append]; omega, small⟩]
    simp

@[simp] theorem length_byteVec_encode (value : ByteVec) :
    (byteVec.encode value).length = 8 + value.1.length := by
  simp [byteVec]

end Fsyncer.Wire
