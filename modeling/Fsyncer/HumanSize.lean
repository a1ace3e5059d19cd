import Fsyncer.Base.ByteFile
import Fsyncer.Base.Machine

/-! Sizes as they are given on the command line: a number and a unit. Strings
are lists of characters; a slice is taken by bytes and must end between two of
them. -/
namespace Fsyncer.HumanSize
open Fsyncer.ByteFile Fsyncer.Machine

section Strings

/-- `str::len`, in bytes. -/
def byteLen (s : List Char) : ℕ := (s.map Char.utf8Size).sum

/-- `&s[..count]`. -/
def sliceTo : List Char → ℕ → Except Failure (List Char)
  | _, 0 => .ok []
  | [], _ + 1 => .error (.panic "byte index is out of bounds")
  | char :: rest, count + 1 =>
    if char.utf8Size ≤ count + 1 then do
      let front ← sliceTo rest (count + 1 - char.utf8Size)
      return char :: front
    else .error (.panic "byte index is not a char boundary")

/-- A slice up to the end of a character is there. -/
theorem sliceTo_append (front back : List Char) : sliceTo (front ++ back) (byteLen front) = .ok front := by
  induction front with
  | nil => cases back <;> rfl
  | cons char rest ih =>
    have positive := char.utf8Size_pos
    obtain ⟨count, total⟩ : ∃ count, byteLen (char :: rest) = count + 1 :=
      Nat.exists_eq_add_one.mpr (by simp only [byteLen, List.map_cons, List.sum_cons]; omega)
    have others : count + 1 - char.utf8Size = byteLen rest := by
      rw [← total]
      simp only [byteLen, List.map_cons, List.sum_cons]
      omega
    rw [List.cons_append, total, sliceTo, if_pos (by rw [← total, byteLen, List.map_cons, List.sum_cons]; omega),
      others, ih]
    rfl

theorem sliceTo_self (s : List Char) : sliceTo s (byteLen s) = .ok s := by
  have whole := sliceTo_append s []
  rwa [List.append_nil] at whole

end Strings

section Numbers

/-- `checked_mul` by ten and `checked_add` of a digit. -/
def pushDigit (value : ℕ) (char : Char) : Option ℕ :=
  if char.isDigit ∧ value * 10 + (char.toNat - 48) < 2 ^ 64 then some (value * 10 + (char.toNat - 48)) else none

/-- A plus sign in front of the digits is skipped. -/
def unsign : List Char → List Char
  | '+' :: digits => digits
  | digits => digits

/-- `usize::from_str`. -/
def parseUsize (s : List Char) : Option ℕ :=
  if unsign s = [] then none else (unsign s).foldlM pushDigit 0

/-- The number that decimal digits stand for, behind `value`. -/
def decimal (value : ℕ) (digits : List Char) : ℕ :=
  digits.foldl (fun value char => value * 10 + (char.toNat - 48)) value

theorem le_decimal (value : ℕ) (digits : List Char) : value ≤ decimal value digits := by
  induction digits generalizing value with
  | nil => exact Nat.le_refl _
  | cons char rest ih =>
    have later := ih (value * 10 + (char.toNat - 48))
    show value ≤ decimal (value * 10 + (char.toNat - 48)) rest
    omega

/-- The checks on the way amount to one check of the result. -/
theorem foldlM_pushDigit {digits : List Char} (start : value < 2 ^ 64) : digits.foldlM pushDigit value = some n ↔
    (∀ char ∈ digits, char.isDigit = true) ∧ n = decimal value digits ∧ n < 2 ^ 64 := by
  induction digits generalizing value with
  | nil =>
    show some value = some n ↔ _
    simp only [Option.some.injEq, List.not_mem_nil, false_imp_iff, implies_true, true_and]
    constructor
    · rintro rfl
      exact ⟨rfl, start⟩
    · rintro ⟨same, -⟩
      exact same.symm
  | cons char rest ih =>
    have later := le_decimal (value * 10 + (char.toNat - 48)) rest
    rw [List.foldlM_cons, pushDigit]
    split
    · next passed =>
      show rest.foldlM pushDigit _ = some n ↔ _
      rw [ih passed.2, List.forall_mem_cons]
      simp only [passed.1, true_and]
      rfl
    · next failed =>
      refine iff_of_false (by rintro ⟨⟩) ?_
      rintro ⟨all, same, small⟩
      refine failed ⟨(List.forall_mem_cons.mp all).1, ?_⟩
      have total : n = decimal (value * 10 + (char.toNat - 48)) rest := same
      omega

/-- What `usize` parsing accepts: decimal digits, with a plus sign or without,
that stand for a number of 64 bits. -/
theorem parseUsize_iff (s : List Char) : parseUsize s = some n ↔
    unsign s ≠ [] ∧ (∀ char ∈ unsign s, char.isDigit = true) ∧ n = decimal 0 (unsign s) ∧ n < 2 ^ 64 := by
  rw [parseUsize]
  split
  · next empty => exact iff_of_false (by rintro ⟨⟩) (by rintro ⟨digits, -⟩; exact digits empty)
  · next digits => rw [foldlM_pushDigit (by decide), and_iff_right digits]

/-- A number ends in a digit. -/
theorem parseUsize_last (parsed : parseUsize (front ++ [last]) = some n) : last.isDigit = true := by
  obtain ⟨digits, all, -⟩ := (parseUsize_iff _).mp parsed
  have ends : last ∈ unsign (front ++ [last]) := by
    cases front with
    | nil =>
      rw [List.nil_append] at digits ⊢
      by_cases plus : last = '+'
      · subst plus
        exact absurd rfl digits
      · rw [unsign]
        · exact List.mem_singleton_self _
        · rintro rest same
          exact plus (List.cons.inj same).1
    | cons first rest =>
      rw [unsign.eq_def]
      split
      · next same =>
        rw [← (List.cons.inj same).2]
        exact List.mem_append_right _ (List.mem_singleton_self _)
      · exact List.mem_append_right _ (List.mem_singleton_self _)
  exact all last ends

end Numbers

section Units

/-- The product of two words, as a release build computes it. -/
def mul (a b : ℕ) : ℕ := u64 (a * b)

/-- The number in front of the last byte, if it is one. -/
def number (s : List Char) : Except Failure (Option ℕ) := do
  let digits ← sliceTo s (byteLen s - 1)
  return parseUsize digits

def parseHumanSize (s : List Char) : Except Failure (Option ℕ) :=
  match s.getLast? with
  | none => .error (.panic "called `Option::unwrap()` on a `None` value")
  | some 'K' | some 'k' => do return (← number s).map fun n => mul n 1024
  | some 'M' | some 'm' => do return (← number s).map fun n => mul (mul n 1024) 1024
  | some 'G' | some 'g' => do return (← number s).map fun n => mul (mul (mul n 1024) 1024) 1024
  | some _ => do return parseUsize (← sliceTo s (byteLen s))

/-- How many bytes a unit stands for. -/
def factor : Char → Option ℕ
  | 'K' | 'k' => some 1024
  | 'M' | 'm' => some (1024 * 1024)
  | 'G' | 'g' => some (1024 * 1024 * 1024)
  | _ => none

/-- `s` is a number, alone or followed by a unit, and stands for `v` bytes. -/
def Denotes (s : List Char) (v : ℕ) : Prop :=
  parseUsize s = some v ∨ ∃ digits unit n bytes, s = digits ++ [unit] ∧ factor unit = some bytes ∧
    parseUsize digits = some n ∧ v = n * bytes ∧ v < 2 ^ 64

/-- The parser returns, and it returns a value exactly when the string stands for it. -/
def Exact (s : List Char) : Prop :=
  ∃ result, parseHumanSize s = .ok result ∧ ∀ v, result = some v ↔ Denotes s v

theorem mul_mul (a b c : ℕ) : mul (mul a b) c = mul a (b * c) := by
  rw [mul, mul, mul, u64, u64, u64, Nat.mod_mul_mod, Nat.mul_assoc]

theorem factor_not_digit (unit : factor last = some bytes) : last.isDigit = false := by
  rw [factor.eq_def] at unit
  split at unit <;> first | rfl | cases unit

theorem size_of_unit (unit : factor last = some bytes) : last.utf8Size = 1 := by
  rw [factor.eq_def] at unit
  split at unit <;> first | rfl | cases unit

/-- A unit is one byte, so the number is what stands in front of it. -/
theorem number_append (digits : List Char) (unit : factor last = some bytes) :
    number (digits ++ [last]) = .ok (parseUsize digits) := by
  have length : byteLen (digits ++ [last]) - 1 = byteLen digits := by
    rw [byteLen, List.map_append, List.sum_append, List.map_singleton, List.sum_singleton, size_of_unit unit]
    rfl
  rw [number, length, sliceTo_append]
  rfl

theorem parse_unit (digits : List Char) (unit : factor last = some bytes) :
    parseHumanSize (digits ++ [last]) = .ok ((parseUsize digits).map fun n => mul n bytes) := by
  have front := number_append digits unit
  have ends : (digits ++ [last]).getLast? = some last := List.getLast?_concat
  rw [parseHumanSize, ends]
  split
  case h_1 absent => cases absent
  case h_8 plain =>
    cases plain
    rw [factor.eq_def] at unit
    split at unit <;> contradiction
  all_goals
    next same =>
    cases same
    cases unit
    rw [front]
    simp only [ok_bind, mul_mul]
    rfl

theorem parse_plain (digits : List Char) (plain : factor last = none) :
    parseHumanSize (digits ++ [last]) = .ok (parseUsize (digits ++ [last])) := by
  have ends : (digits ++ [last]).getLast? = some last := List.getLast?_concat
  rw [parseHumanSize, ends]
  split
  case h_1 absent => cases absent
  case h_8 => rw [sliceTo_self]; rfl
  all_goals
    next same =>
    cases same
    cases plain

theorem denotes_unit (front : List Char) (unit : factor last = some bytes) : Denotes (front ++ [last]) v ↔
    ∃ n, parseUsize front = some n ∧ v = n * bytes ∧ v < 2 ^ 64 := by
  constructor
  · rintro (alone | ⟨digits, unit', n, bytes', same, unit'', parsed, product⟩)
    · have digit := parseUsize_last alone
      rw [factor_not_digit unit] at digit
      cases digit
    · obtain ⟨rfl, sameUnit⟩ := List.append_inj' same rfl
      cases sameUnit
      cases unit.symm.trans unit''
      exact ⟨n, parsed, product⟩
  · rintro ⟨n, parsed, product⟩
    exact Or.inr ⟨front, last, n, bytes, rfl, unit, parsed, product⟩

theorem denotes_plain (front : List Char) (plain : factor last = none) : Denotes (front ++ [last]) v ↔
    parseUsize (front ++ [last]) = some v := by
  constructor
  · rintro (alone | ⟨digits, unit, n, bytes, same, unit', -⟩)
    · exact alone
    · obtain ⟨-, sameUnit⟩ := List.append_inj' same rfl
      cases sameUnit
      cases plain.symm.trans unit'
  · exact Or.inl

/-- The string is parsed as it should be unless it is empty, where there is no
last character to look at, or stands for more bytes than a word can count. -/
theorem exact_iff (s : List Char) : Exact s ↔ s ≠ [] ∧ ∀ digits unit n bytes, s = digits ++ [unit] →
    factor unit = some bytes → parseUsize digits = some n → n * bytes < 2 ^ 64 := by
  rcases List.eq_nil_or_concat s with rfl | ⟨front, last, rfl⟩
  · refine iff_of_false ?_ (by rintro ⟨some_text, -⟩; exact some_text rfl)
    rintro ⟨result, parsed, -⟩
    cases parsed
  rw [List.concat_eq_append]
  cases unit : factor last with
  | none =>
    refine iff_of_true ⟨_, parse_plain front unit, fun v => (denotes_plain front unit).symm⟩ ⟨by simp, ?_⟩
    intro digits unit' n bytes same unit''
    obtain ⟨-, sameUnit⟩ := List.append_inj' same rfl
    cases sameUnit
    cases unit.symm.trans unit''
  | some bytes =>
    constructor
    · rintro ⟨result, parsed, exact⟩
      refine ⟨by simp, ?_⟩
      intro digits unit' n bytes' same unit'' number
      obtain ⟨rfl, sameUnit⟩ := List.append_inj' same rfl
      cases sameUnit
      cases unit.symm.trans unit''
      rw [parse_unit _ unit, number] at parsed
      cases parsed
      -- what is returned is the product only if nothing was cut off
      obtain ⟨n', number', product, small⟩ := (denotes_unit _ unit).mp ((exact _).mp rfl)
      cases number.symm.trans number'
      omega
    · rintro ⟨-, fits⟩
      refine ⟨_, parse_unit front unit, fun v => ?_⟩
      rw [denotes_unit front unit, Option.map_eq_some_iff]
      constructor
      · rintro ⟨n, parsed, rfl⟩
        have small := fits front last n bytes rfl unit parsed
        rw [mul, u64_of_lt small]
        exact ⟨n, parsed, rfl, small⟩
      · rintro ⟨n, parsed, rfl, small⟩
        exact ⟨n, parsed, u64_of_lt small⟩

/-- Nothing at all is a panic, and a size of just too many bytes is zero. -/
theorem empty_panics_and_large_wraps :
    parseHumanSize [] = .error (.panic "called `Option::unwrap()` on a `None` value") ∧
      parseHumanSize "17179869184G".toList = .ok (some 0) := by
  exact ⟨rfl, by decide⟩

end Units
end Fsyncer.HumanSize
