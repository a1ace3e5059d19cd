import Fsyncer.Base.ByteFile
import Fsyncer.Base.Machine
import Mathlib.Data.List.TakeWhile

/-! The codec for runs of zeros. The encoder works in place: it reads at `i`,
writes `saved` bytes behind, and gives up as soon as a single zero would take
more than it has saved. A buffer that starts with another byte has a first run
of length zero, which puts it ahead of itself: it then reads what it wrote. -/
namespace Fsyncer.ZeroRuns
open Fsyncer.ByteFile Fsyncer.Machine

/-- `buf[index] = byte`. -/
def store (buf : List UInt8) (index : ℕ) (byte : UInt8) : Except Failure (List UInt8) :=
  if index < buf.length then .ok (buf.set index byte) else .error (.panic "index out of bounds")

/-- The zeros from `i` on, as long as the counter lasts. -/
def zeroRun (buf : List UInt8) (i : ℕ) : ℕ → ℕ
  | 0 => 0
  | left + 1 => if buf[i]? = some 0 then zeroRun buf (i + 1) left + 1 else 0

/-- Moves the other bytes from `i` on; `left` counts the bytes up to the end. -/
def copyRun (saved : ℕ) : ℕ → List UInt8 → ℕ → Except Failure (List UInt8 × ℕ)
  | 0, buf, i => .ok (buf, i)
  | left + 1, buf, i =>
    match buf[i]? with
    | none => .ok (buf, i)
    | some byte =>
      if byte = 0 then .ok (buf, i)
      else do
        let buf ← store buf (usub i saved) byte
        copyRun saved left buf (i + 1)

/-- Writes a run that ends at `i`, and what follows it. -/
def encodeRun (buf : List UInt8) (i saved run : ℕ) : Except Failure (List UInt8 × ℕ) := do
  let buf ← store buf (usub (usub i saved) 2) 0
  let buf ← store buf (usub (usub i saved) 1) (UInt8.ofNat run)
  copyRun saved (buf.length - i) buf i

/-- What a turn of the loop does: it returns, or goes on. -/
inductive Turn where
  | returns (result : Except Failure (Option (List UInt8)))
  | goesOn (buf : List UInt8) (i saved : ℕ)

/-- What is done about a run that was read up to `i`. -/
def runTurn (buf : List UInt8) (i saved run : ℕ) : Turn :=
  if run = 1 ∧ saved = 0 then .returns (.ok none)
  else
    match encodeRun buf i (usub (u64 (saved + run)) 2) run with
    | .error failure => .returns (.error failure)
    | .ok (buf, i) => .goesOn buf i (usub (u64 (saved + run)) 2)

def zrleTurn (buf : List UInt8) (i saved : ℕ) : Turn :=
  if i < buf.length then runTurn buf (i + zeroRun buf i 255) saved (zeroRun buf i 255)
  else if usub buf.length saved ≤ buf.length then .returns (.ok (some (buf.take (usub buf.length saved))))
  else .returns (.error (.panic "range end index out of range for slice"))

/-- The loop of `zrle`; nothing when the fuel does not last. -/
def zrleLoop : ℕ → List UInt8 → ℕ → ℕ → Option (Except Failure (Option (List UInt8)))
  | 0, _, _, _ => none
  | fuel + 1, buf, i, saved =>
    match zrleTurn buf i saved with
    | .returns result => some result
    | .goesOn buf i saved => zrleLoop fuel buf i saved

def zrle (fuel : ℕ) (buf : List UInt8) : Option (Except Failure (Option (List UInt8))) := zrleLoop fuel buf 0 0

/-- A vector of bytes and the room that is allocated for it. -/
structure Vec where
  bytes : List UInt8
  capacity : ℕ
  deriving DecidableEq, Repr

def Vec.new : Vec := ⟨[], 0⟩

def Vec.withCapacity (size : ℕ) : Except Failure Vec :=
  if size < 2 ^ 63 then .ok ⟨[], size⟩ else .error (.panic "capacity overflow")

/-- `set_len` and the zeros written up to it. Beyond what is allocated this is
undefined, and fails here. -/
def Vec.pushZeroes (vec : Vec) (num : ℕ) : Except Failure Vec :=
  if vec.bytes.length + num ≤ vec.capacity then .ok { vec with bytes := vec.bytes ++ List.replicate num 0 }
  else .error (.panic "set_len past the capacity")

def Vec.extendFromSlice (vec : Vec) (slice : List UInt8) : Vec where
  bytes := vec.bytes ++ slice
  capacity :=
    if vec.bytes.length + slice.length ≤ vec.capacity then vec.capacity
    else max 8 (max (2 * vec.capacity) (vec.bytes.length + slice.length))

/-- Decodes a run, if the rest of the buffer starts with one. -/
def decodeRun (vec : Vec) : List UInt8 → Except Failure (Vec × List UInt8)
  | [] => .ok (vec, [])
  | byte :: rest =>
    if byte = 0 then
      match rest with
      | [] => .error (.panic "index out of bounds")
      | num :: rest => do
        let vec ← vec.pushZeroes num.toNat
        .ok (vec, rest)
    else .ok (vec, byte :: rest)

/-- The loop of `zrld` over the rest of the buffer. -/
def zrldLoop : ℕ → Vec → List UInt8 → Option (Except Failure (List UInt8))
  | 0, _, _ => none
  | _ + 1, vec, [] => some (.ok vec.bytes)
  | fuel + 1, vec, byte :: rest =>
    match decodeRun vec (byte :: rest) with
    | .error failure => some (.error failure)
    | .ok (vec, rest) => zrldLoop fuel (vec.extendFromSlice (rest.takeWhile (· ≠ 0))) (rest.dropWhile (· ≠ 0))

def zrld (fuel : ℕ) (buf : List UInt8) (sizeHint : Option ℕ) : Option (Except Failure (List UInt8)) :=
  match sizeHint with
  | none => zrldLoop fuel Vec.new buf
  | some size =>
    match Vec.withCapacity size with
    | .error failure => some (.error failure)
    | .ok vec => zrldLoop fuel vec buf

/-- The encoder returns, and what it produces is no longer than the buffer and
decodes to it whatever the hint. -/
def RoundTrips (buf : List UInt8) : Prop :=
  ∃ fuel encoded, zrle fuel buf = some (.ok encoded) ∧ ∀ bytes, encoded = some bytes →
    bytes.length ≤ buf.length ∧ ∀ sizeHint, ∃ fuel, zrld fuel bytes sizeHint = some (.ok buf)

/-! Runs -/

/-- The lengths of the runs of zeros, the long ones in parts of 255; `run` zeros
have been read already. -/
def zeroRuns (run : ℕ) : List UInt8 → List ℕ
  | [] => if run = 0 then [] else [run]
  | byte :: rest =>
    if byte = 0 then
      if run = 255 then 255 :: zeroRuns 1 rest else zeroRuns (run + 1) rest
    else if run = 0 then zeroRuns 0 rest
    else run :: zeroRuns 0 rest

/-- Some run is a single zero, and the runs before it add up to two bytes each
and `debt` more. -/
def GivesUp (debt : ℤ) (runs : List ℕ) : Prop :=
  ∃ before after, runs = before ++ 1 :: after ∧ (before.sum : ℤ) = 2 * before.length + debt

/-- A run and the bytes up to the next one. -/
structure Piece where
  run : ℕ
  plain : List UInt8
  positive : 1 ≤ run
  counted : run ≤ 255
  nonzero : ∀ byte ∈ plain, byte ≠ 0

def Piece.expand (piece : Piece) : List UInt8 := List.replicate piece.run 0 ++ piece.plain

def Piece.encoded (piece : Piece) : List UInt8 := 0 :: UInt8.ofNat piece.run :: piece.plain

def expand (pieces : List Piece) : List UInt8 := pieces.flatMap Piece.expand

def encoded (pieces : List Piece) : List UInt8 := pieces.flatMap Piece.encoded

@[simp] theorem expand_nil : expand [] = [] := rfl

@[simp] theorem expand_cons (piece : Piece) (pieces : List Piece) :
    expand (piece :: pieces) = List.replicate piece.run 0 ++ (piece.plain ++ expand pieces) := by
  rw [expand, List.flatMap_cons, Piece.expand, List.append_assoc]
  rfl

@[simp] theorem encoded_nil : encoded [] = [] := rfl

@[simp] theorem encoded_cons (piece : Piece) (pieces : List Piece) :
    encoded (piece :: pieces) = 0 :: UInt8.ofNat piece.run :: (piece.plain ++ encoded pieces) := rfl

/-- No run is cut short unless its counter is full. -/
def Maximal : List Piece → Prop
  | [] => True
  | piece :: pieces => (piece.run = 255 ∨ (piece.plain ++ expand pieces).head? ≠ some 0) ∧ Maximal pieces

theorem head?_expand (pieces : List Piece) : expand pieces = [] ∨ (expand pieces).head? = some 0 := by
  cases pieces with
  | nil => exact Or.inl rfl
  | cons piece pieces =>
    right
    obtain ⟨n, long⟩ : ∃ n, piece.run = n + 1 := ⟨piece.run - 1, by have := piece.positive; omega⟩
    rw [expand_cons, long, List.replicate_succ]
    rfl

theorem zeroRuns_replicate (small : run + n ≤ 255) (rest : List UInt8) :
    zeroRuns run (List.replicate n 0 ++ rest) = zeroRuns (run + n) rest := by
  induction n generalizing run with
  | zero => rfl
  | succ n ih =>
    rw [List.replicate_succ, List.cons_append, zeroRuns, if_pos rfl, if_neg (by omega), ih (by omega)]
    congr 1
    omega

theorem zeroRuns_plain {plain : List UInt8} (nonzero : ∀ byte ∈ plain, byte ≠ 0) (rest : List UInt8) :
    zeroRuns 0 (plain ++ rest) = zeroRuns 0 rest := by
  induction plain with
  | nil => rfl
  | cons byte plain ih =>
    rw [List.cons_append, zeroRuns, if_neg (nonzero byte List.mem_cons_self), if_pos rfl]
    exact ih fun byte listed => nonzero byte (List.mem_cons_of_mem _ listed)

/-- A run ends where its counter is full or no zero follows. -/
theorem zeroRuns_stop (positive : 1 ≤ run) (ends : run = 255 ∨ rest.head? ≠ some 0) :
    zeroRuns run rest = run :: zeroRuns 0 rest := by
  cases rest with
  | nil => rw [zeroRuns, if_neg (by omega)]; rfl
  | cons byte rest =>
    by_cases zero : byte = 0
    · rcases ends with full | other
      · rw [zeroRuns, if_pos zero, if_pos full, zeroRuns, if_pos zero, if_neg (by omega), full]
      · exact absurd (congrArg some zero) other
    · rw [zeroRuns, if_neg zero, if_neg (by omega), zeroRuns, if_neg zero, if_pos rfl]

theorem zeroRuns_expand {pieces : List Piece} (maximal : Maximal pieces) :
    zeroRuns 0 (expand pieces) = pieces.map Piece.run := by
  induction pieces with
  | nil => rfl
  | cons piece pieces ih =>
    rw [expand_cons, zeroRuns_replicate (by have := piece.counted; omega), Nat.zero_add,
      zeroRuns_stop piece.positive maximal.1, zeroRuns_plain piece.nonzero, ih maximal.2]
    rfl

/-- The zeros that a counter gets to. -/
theorem exists_run (left : ℕ) (buf : List UInt8) : ∃ n rest, buf = List.replicate n 0 ++ rest ∧ n ≤ left ∧
    (n = left ∨ rest.head? ≠ some 0) := by
  induction left generalizing buf with
  | zero => exact ⟨0, buf, rfl, le_refl _, Or.inl rfl⟩
  | succ left ih =>
    by_cases zero : buf.head? = some 0
    · obtain ⟨tail, rfl⟩ := List.head?_eq_some_iff.mp zero
      obtain ⟨n, rest, rfl, small, ends⟩ := ih tail
      exact ⟨n + 1, rest, by rw [List.replicate_succ]; rfl, by omega, ends.imp_left fun full => by omega⟩
    · exact ⟨0, buf, rfl, Nat.zero_le _, Or.inr zero⟩

theorem head?_dropWhile_nonzero (buf : List UInt8) :
    buf.dropWhile (· ≠ 0) = [] ∨ (buf.dropWhile (· ≠ 0)).head? = some 0 := by
  induction buf with
  | nil => exact Or.inl rfl
  | cons byte rest ih =>
    by_cases zero : byte = 0
    · right; simp [zero]
    · simpa [zero] using ih

/-- Every buffer that does not start with another byte is cut into pieces. -/
theorem exists_pieces (buf : List UInt8) (starts : buf = [] ∨ buf.head? = some 0) :
    ∃ pieces, Maximal pieces ∧ expand pieces = buf := by
  induction measured : buf.length using Nat.strong_induction_on generalizing buf with
  | _ size ih =>
    rcases starts with rfl | zero
    · exact ⟨[], trivial, rfl⟩
    · obtain ⟨n, rest, rfl, small, ends⟩ := exists_run 255 buf
      have positive : 1 ≤ n := by
        by_contra none
        obtain rfl : n = 0 := by omega
        rcases ends with full | other
        · cases full
        · exact other zero
      have nonzero : ∀ byte ∈ rest.takeWhile (· ≠ 0), byte ≠ 0 := by
        intro byte listed
        simpa using List.mem_takeWhile_imp listed
      have shorter : (rest.dropWhile (· ≠ 0)).length < size := by
        have := (List.dropWhile_sublist (l := rest) (· ≠ 0)).length_le
        rw [List.length_append, List.length_replicate] at measured
        omega
      obtain ⟨pieces, maximal, expanded⟩ := ih _ shorter _ (head?_dropWhile_nonzero rest) rfl
      have whole : rest.takeWhile (· ≠ 0) ++ expand pieces = rest := by
        rw [expanded, List.takeWhile_append_dropWhile]
      refine ⟨⟨n, rest.takeWhile (· ≠ 0), positive, small, nonzero⟩ :: pieces, ⟨?_, maximal⟩, ?_⟩
      · rw [whole]
        exact ends
      · rw [expand_cons, whole]

/-- The counter reads one run. -/
theorem zeroRun_append (front : List UInt8) (small : n ≤ left) (ends : n = left ∨ rest.head? ≠ some 0) :
    zeroRun (front ++ (List.replicate n 0 ++ rest)) front.length left = n := by
  induction left generalizing front n with
  | zero => exact (Nat.le_zero.mp small).symm
  | succ left ih =>
    cases n with
    | zero =>
      rcases ends with full | other
      · cases full
      · rw [zeroRun, if_neg]
        rw [List.getElem?_append_right (le_refl _), Nat.sub_self, ← List.head?_eq_getElem?]
        exact other
    | succ n =>
      have next := ih (front ++ [0]) (by omega : n ≤ left) (ends.imp_left fun full => by omega)
      rw [List.length_append, List.length_singleton, List.append_assoc] at next
      rw [List.replicate_succ, zeroRun, if_pos]
      · exact congrArg (· + 1) next
      · rw [List.getElem?_append_right (le_refl _), Nat.sub_self]
        rfl

/-- Reading one run leaves a debt that the rest has to pay. -/
theorem givesUp_cons : GivesUp debt (run :: runs) ↔ (run = 1 ∧ debt = 0) ∨ GivesUp (debt + 2 - run) runs := by
  constructor
  · rintro ⟨before, after, listed, total⟩
    cases before with
    | nil =>
      cases listed
      left
      simpa using total.symm
    | cons first before =>
      cases listed
      right
      refine ⟨before, after, rfl, ?_⟩
      rw [List.sum_cons, List.length_cons] at total
      omega
  · rintro (⟨rfl, rfl⟩ | ⟨before, after, rfl, total⟩)
    · exact ⟨[], runs, rfl, rfl⟩
    · refine ⟨run :: before, after, rfl, ?_⟩
      rw [List.sum_cons, List.length_cons]
      omega

theorem not_givesUp_nil : ¬ GivesUp debt [] := by
  rintro ⟨before, after, listed, -⟩
  cases before <;> cases listed

/-! The encoder behind itself -/

theorem store_append (front rest : List UInt8) (old byte : UInt8) (there : index = front.length) :
    store (front ++ old :: rest) index byte = .ok (front ++ byte :: rest) := by
  rw [store, if_pos (by rw [there, List.length_append, List.length_cons]; omega), there,
    List.set_append_right _ _ (le_refl _), Nat.sub_self, List.set_cons_zero]

theorem store_error (beyond : buf.length ≤ index) (byte : UInt8) :
    store buf index byte = .error (.panic "index out of bounds") := by
  rw [store, if_neg (by omega)]

theorem copyRun_step (saved left : ℕ) (front rest : List UInt8) (nonzero : byte ≠ 0) :
    copyRun saved (left + 1) (front ++ byte :: rest) front.length =
      store (front ++ byte :: rest) (usub front.length saved) byte >>= fun buf =>
        copyRun saved left buf (front.length + 1) := by
  rw [copyRun, List.getElem?_append_right (le_refl _), Nat.sub_self]
  show (if byte = 0 then _ else _) = _
  rw [if_neg nonzero]

theorem copyRun_stop (saved left : ℕ) (front : List UInt8) (stops : rest = [] ∨ rest.head? = some 0) :
    copyRun saved left (front ++ rest) front.length = .ok (front ++ rest, front.length) := by
  cases left with
  | zero => rfl
  | succ left =>
    rw [copyRun, List.getElem?_append_right (le_refl _), Nat.sub_self, ← List.head?_eq_getElem?]
    rcases stops with rfl | zero
    · rfl
    · rw [zero]
      rfl

/-- Bytes are moved down over a gap, which moves up. -/
theorem copyRun_behind (left : ℕ) (out gap : List UInt8) {plain rest : List UInt8} (nonzero : ∀ byte ∈ plain, byte ≠ 0)
    (stops : rest = [] ∨ rest.head? = some 0) (enough : plain.length ≤ left)
    (sized : (out ++ gap ++ (plain ++ rest)).length < 2 ^ 63) :
    ∃ gap', gap'.length = gap.length ∧
      copyRun gap.length left (out ++ gap ++ (plain ++ rest)) (out ++ gap).length =
        .ok (out ++ plain ++ gap' ++ rest, (out ++ gap).length + plain.length) := by
  induction plain generalizing out gap left with
  | nil =>
    refine ⟨gap, rfl, ?_⟩
    rw [List.nil_append, copyRun_stop _ _ _ stops, List.append_nil]
    rfl
  | cons byte plain ih =>
    obtain ⟨left, rfl⟩ : ∃ n, left = n + 1 := ⟨left - 1, by rw [List.length_cons] at enough; omega⟩
    have target : usub (out ++ gap).length gap.length = out.length := by
      simp only [List.length_append, List.length_cons] at sized ⊢
      rw [usub_of_le (by omega) (by omega)]
      omega
    -- what is overwritten is the first byte of the gap, or the byte itself
    obtain ⟨first, gap', moved, same⟩ : ∃ first gap', gap ++ [byte] = first :: gap' ∧ gap'.length = gap.length := by
      cases gap with
      | nil => exact ⟨byte, [], rfl, rfl⟩
      | cons first gap => exact ⟨first, gap ++ [byte], rfl, by simp⟩
    have before : out ++ gap ++ byte :: (plain ++ rest) = out ++ first :: (gap' ++ (plain ++ rest)) := by
      have shifted : gap ++ byte :: (plain ++ rest) = (gap ++ [byte]) ++ (plain ++ rest) := by simp
      rw [List.append_assoc, shifted, moved, List.cons_append]
    have after : out ++ byte :: (gap' ++ (plain ++ rest)) = out ++ [byte] ++ gap' ++ (plain ++ rest) := by simp
    have advanced : (out ++ gap).length + 1 = (out ++ [byte] ++ gap').length := by
      simp only [List.length_append, List.length_cons, List.length_nil]
      omega
    obtain ⟨gap'', kept, rest_moved⟩ := ih left (out ++ [byte]) gap'
      (fun byte listed => nonzero byte (List.mem_cons_of_mem _ listed))
      (by rw [List.length_cons] at enough; omega)
      (by simp only [List.length_append, List.length_cons, List.length_nil] at sized ⊢; omega)
    refine ⟨gap'', kept.trans same, ?_⟩
    rw [List.cons_append, copyRun_step _ _ _ _ (nonzero byte List.mem_cons_self), target, before,
      store_append _ _ _ _ rfl, ok_bind, ← same, after, advanced, rest_moved, ← advanced]
    simp only [List.append_assoc, List.length_cons, List.cons_append, List.nil_append]
    rw [Nat.add_assoc, Nat.add_comm 1]

/-- A run is written over the first two bytes of the gap that it makes. -/
theorem encodeRun_behind (out gap : List UInt8) (first second : UInt8) (run : ℕ) {plain rest : List UInt8}
    (nonzero : ∀ byte ∈ plain, byte ≠ 0) (stops : rest = [] ∨ rest.head? = some 0)
    (sized : (out ++ first :: second :: gap ++ (plain ++ rest)).length < 2 ^ 63) :
    ∃ gap', gap'.length = gap.length ∧
      encodeRun (out ++ first :: second :: gap ++ (plain ++ rest)) (out ++ first :: second :: gap).length
          gap.length run =
        .ok (out ++ 0 :: UInt8.ofNat run :: plain ++ gap' ++ rest,
          (out ++ first :: second :: gap).length + plain.length) := by
  simp only [List.length_append, List.length_cons] at sized
  have written : (out ++ first :: second :: gap).length = (out ++ [0, UInt8.ofNat run] ++ gap).length := by simp
  have zero_at : usub (usub (out ++ first :: second :: gap).length gap.length) 2 = out.length := by
    simp only [List.length_append, List.length_cons, usub]
    omega
  have run_at : usub (usub (out ++ first :: second :: gap).length gap.length) 1 = (out ++ [(0 : UInt8)]).length := by
    simp only [List.length_append, List.length_cons, List.length_nil, usub]
    omega
  obtain ⟨gap', kept, moved⟩ := copyRun_behind (plain ++ rest).length (out ++ [0, UInt8.ofNat run]) gap nonzero
    stops (by rw [List.length_append]; omega)
    (by simp only [List.length_append, List.length_cons, List.length_nil]; omega)
  refine ⟨gap', kept, ?_⟩
  have shown : out ++ first :: second :: gap ++ (plain ++ rest) =
      out ++ first :: (second :: gap ++ (plain ++ rest)) := by simp
  have zeroed : out ++ 0 :: (second :: gap ++ (plain ++ rest)) =
      out ++ [0] ++ second :: (gap ++ (plain ++ rest)) := by simp
  have counted : out ++ [0] ++ UInt8.ofNat run :: (gap ++ (plain ++ rest)) =
      out ++ [0, UInt8.ofNat run] ++ gap ++ (plain ++ rest) := by simp
  have left : (out ++ [0, UInt8.ofNat run] ++ gap ++ (plain ++ rest)).length -
      (out ++ first :: second :: gap).length = (plain ++ rest).length := by
    simp only [List.length_append, List.length_cons, List.length_nil]
    omega
  rw [encodeRun, zero_at, run_at, shown, store_append _ _ _ _ rfl, ok_bind, zeroed, store_append _ _ _ _ rfl,
    ok_bind, counted, left, written, moved]
  simp

theorem zrleTurn_run (inside : i < buf.length) (counted : zeroRun buf i 255 = run) :
    zrleTurn buf i saved = runTurn buf (i + run) saved run := by
  rw [zrleTurn, if_pos inside, counted]

theorem runTurn_encodes (worth : ¬ (run = 1 ∧ saved = 0)) (less : usub (u64 (saved + run)) 2 = saved')
    (encodes : encodeRun buf i saved' run = .ok (buf', i')) :
    runTurn buf i saved run = .goesOn buf' i' saved' := by
  rw [runTurn, if_neg worth, less, encodes]

theorem zrleLoop_goesOn (turn : zrleTurn buf i saved = .goesOn buf' i' saved') (fuel : ℕ) :
    zrleLoop (fuel + 1) buf i saved = zrleLoop fuel buf' i' saved' := by
  rw [zrleLoop, turn]

theorem zrleLoop_returns (turn : zrleTurn buf i saved = .returns result) (fuel : ℕ) :
    zrleLoop (fuel + 1) buf i saved = some result := by
  rw [zrleLoop, turn]

section
variable {pieces : List Piece} {piece : Piece}

theorem zeroRun_piece (front : List UInt8) (maximal : Maximal (piece :: pieces)) :
    zeroRun (front ++ expand (piece :: pieces)) front.length 255 = piece.run := by
  rw [expand_cons]
  exact zeroRun_append front piece.counted maximal.1

theorem length_lt_append_expand (front : List UInt8) (piece : Piece) (pieces : List Piece) :
    front.length < (front ++ expand (piece :: pieces)).length := by
  have positive := piece.positive
  rw [List.length_append, expand_cons, List.length_append, List.length_replicate]
  omega

/-- One turn over a piece, when two bytes are there to write the run to. -/
theorem zrleTurn_piece (out gap : List UInt8) (maximal : Maximal (piece :: pieces))
    (sized : (out ++ gap ++ expand (piece :: pieces)).length < 2 ^ 63)
    (worth : ¬ (piece.run = 1 ∧ gap.length = 0)) :
    ∃ gap', gap'.length + 2 = gap.length + piece.run ∧
      zrleTurn (out ++ gap ++ expand (piece :: pieces)) (out ++ gap).length gap.length =
        .goesOn (out ++ piece.encoded ++ gap' ++ expand pieces) (out ++ piece.encoded ++ gap').length gap'.length := by
  have positive := piece.positive
  have turn : zrleTurn (out ++ gap ++ expand (piece :: pieces)) (out ++ gap).length gap.length = _ :=
    zrleTurn_run (length_lt_append_expand (out ++ gap) piece pieces) (zeroRun_piece (out ++ gap) maximal)
  rw [turn]
  rw [expand_cons] at sized ⊢
  simp only [List.length_append, List.length_replicate] at sized
  obtain ⟨first, second, gap', opened⟩ :
      ∃ first second gap', gap ++ List.replicate piece.run 0 = first :: second :: gap' := by
    have long : 2 ≤ (gap ++ List.replicate piece.run (0 : UInt8)).length := by
      rw [List.length_append, List.length_replicate]
      omega
    match gap ++ List.replicate piece.run (0 : UInt8), long with
    | first :: second :: gap', _ => exact ⟨first, second, gap', rfl⟩
  have size := congrArg List.length opened
  simp only [List.length_append, List.length_replicate, List.length_cons] at size
  have less : usub (u64 (gap.length + piece.run)) 2 = gap'.length := by
    rw [u64_of_lt (by omega), usub_of_le (by omega) (by omega)]
    omega
  have shown : out ++ gap ++ (List.replicate piece.run 0 ++ (piece.plain ++ expand pieces)) =
      out ++ first :: second :: gap' ++ (piece.plain ++ expand pieces) := by
    rw [← opened]
    simp
  have at_end : (out ++ gap).length + piece.run = (out ++ first :: second :: gap').length := by
    simp only [List.length_append, List.length_cons]
    omega
  obtain ⟨gap'', kept, encodes⟩ := encodeRun_behind out gap' first second piece.run piece.nonzero
    (head?_expand pieces) (by simp only [List.length_append, List.length_cons]; omega)
  have advanced : (out ++ first :: second :: gap').length + piece.plain.length =
      (out ++ piece.encoded ++ gap'').length := by
    simp only [Piece.encoded, List.length_append, List.length_cons, kept]
    omega
  refine ⟨gap'', by omega, ?_⟩
  rw [shown, at_end, runTurn_encodes worth less encodes, advanced, kept]
  rfl

/-- What the loop makes of the pieces that are left. -/
theorem zrleLoop_pieces (out gap : List UInt8) (maximal : Maximal pieces)
    (sized : (out ++ gap ++ expand pieces).length < 2 ^ 63) :
    ∃ fuel result, zrleLoop fuel (out ++ gap ++ expand pieces) (out ++ gap).length gap.length = some (.ok result) ∧
      (result = none ∧ GivesUp (-gap.length) (pieces.map Piece.run) ∨
        result = some (out ++ encoded pieces) ∧ ¬ GivesUp (-gap.length) (pieces.map Piece.run)) := by
  induction pieces generalizing out gap with
  | nil =>
    rw [expand_nil, List.append_nil] at sized ⊢
    rw [List.length_append] at sized
    have final : usub (out ++ gap).length gap.length = out.length := by
      rw [List.length_append, usub_of_le (by omega) (by omega)]
      omega
    have turn : zrleTurn (out ++ gap) (out ++ gap).length gap.length = .returns (.ok (some out)) := by
      rw [zrleTurn, if_neg (lt_irrefl _), final, if_pos (by rw [List.length_append]; omega), List.take_left]
    exact ⟨1, _, zrleLoop_returns turn 0, Or.inr ⟨by rw [encoded_nil, List.append_nil], not_givesUp_nil⟩⟩
  | cons piece pieces ih =>
    rw [List.map_cons, givesUp_cons]
    by_cases single : piece.run = 1 ∧ gap.length = 0
    · have turn : zrleTurn (out ++ gap ++ expand (piece :: pieces)) (out ++ gap).length gap.length =
          .returns (.ok none) := by
        rw [zrleTurn_run (length_lt_append_expand ..) (zeroRun_piece _ maximal), runTurn, if_pos single]
      exact ⟨1, none, zrleLoop_returns turn 0, Or.inl ⟨rfl, Or.inl ⟨single.1, by omega⟩⟩⟩
    · obtain ⟨gap', grown, turn⟩ := zrleTurn_piece out gap maximal sized single
      have shorter : (out ++ piece.encoded ++ gap' ++ expand pieces).length < 2 ^ 63 := by
        rw [expand_cons] at sized
        simp only [Piece.encoded, List.length_append, List.length_cons, List.length_replicate] at sized ⊢
        omega
      obtain ⟨fuel, result, looped, outcome⟩ := ih (out ++ piece.encoded) gap' maximal.2 shorter
      refine ⟨fuel + 1, result, (zrleLoop_goesOn turn fuel).trans looped, ?_⟩
      have same_debt : -(gap'.length : ℤ) = -gap.length + 2 - piece.run := by omega
      have still : (piece.run = 1 ∧ -(gap.length : ℤ) = 0 ∨
          GivesUp (-gap.length + 2 - piece.run) (pieces.map Piece.run)) ↔
          GivesUp (-gap'.length) (pieces.map Piece.run) := by
        rw [same_debt]
        exact or_iff_right fun both => single ⟨both.1, by omega⟩
      rw [still]
      refine outcome.imp_right fun made => ⟨?_, made.2⟩
      rw [made.1, List.append_assoc]
      rfl

end

/-! The encoder ahead of itself -/

/-- Every zero is followed by another byte. -/
def Isolated : List UInt8 → Prop
  | [] => True
  | byte :: rest => (byte = 0 → ∃ next, rest.head? = some next ∧ next ≠ 0) ∧ Isolated rest

theorem Isolated.append (left : Isolated first) (right : Isolated second) : Isolated (first ++ second) := by
  induction first with
  | nil => exact right
  | cons byte rest ih =>
    refine ⟨fun zero => ?_, ih left.2⟩
    obtain ⟨next, follows, nonzero⟩ := left.1 zero
    refine ⟨next, ?_, nonzero⟩
    show (rest ++ second).head? = some next
    rw [List.head?_append, follows]
    rfl

theorem isolated_plain (nonzero : byte ≠ 0) : Isolated [byte] := ⟨fun zero => absurd zero nonzero, trivial⟩

theorem isolated_run (nonzero : byte ≠ 0) : Isolated [0, byte] := ⟨fun _ => ⟨byte, rfl, nonzero⟩, isolated_plain nonzero⟩

/-- Between the place it reads and the place it writes the encoder finds only
single zeros. -/
def Ahead (buf : List UInt8) (i saved : ℕ) : Prop :=
  ∃ front region rest, buf = front ++ region ++ rest ∧ i = front.length ∧ saved = 2 ^ 64 - region.length ∧
    Isolated region ∧ region.head? = some 0

/-- Copying ahead stops only at a zero it has written itself, and otherwise
runs out of the buffer. -/
theorem copyRun_ahead (front region rest : List UInt8) (nonempty : region ≠ []) (single : Isolated region)
    (sized : (front ++ region ++ rest).length < 2 ^ 63)
    (copies : copyRun (2 ^ 64 - region.length) (region.length + rest.length) (front ++ region ++ rest) front.length =
      .ok (buf', i')) :
    Ahead buf' i' (2 ^ 64 - region.length) ∧ buf'.length = (front ++ region ++ rest).length := by
  induction rest generalizing front region with
  | nil =>
    obtain ⟨byte, tail, rfl⟩ := List.exists_cons_of_ne_nil nonempty
    by_cases zero : byte = 0
    · subst zero
      rw [List.append_nil, copyRun_stop _ _ _ (Or.inr rfl)] at copies
      cases copies
      exact ⟨⟨front, 0 :: tail, [], by rw [List.append_nil], rfl, rfl, single, rfl⟩, by rw [List.append_nil]⟩
    · exfalso
      simp only [List.length_append, List.length_cons, List.length_nil] at sized
      rw [List.append_nil, List.length_nil, Nat.add_zero, List.length_cons, copyRun_step _ _ _ _ zero,
        store_error] at copies
      · cases copies
      · simp only [List.length_append, List.length_cons, usub]
        omega
  | cons old rest ih =>
    obtain ⟨byte, tail, rfl⟩ := List.exists_cons_of_ne_nil nonempty
    by_cases zero : byte = 0
    · subst zero
      rw [List.append_assoc, copyRun_stop _ _ _ (Or.inr rfl)] at copies
      cases copies
      exact ⟨⟨front, 0 :: tail, old :: rest, by rw [List.append_assoc], rfl, rfl, single, rfl⟩,
        by rw [List.append_assoc]⟩
    · simp only [List.length_append, List.length_cons] at sized
      have target : usub front.length (2 ^ 64 - (byte :: tail).length) = (front ++ byte :: tail).length := by
        simp only [List.length_append, List.length_cons, usub]
        omega
      have read : front ++ byte :: tail ++ old :: rest = front ++ byte :: (tail ++ old :: rest) := by simp
      have next : front ++ byte :: tail ++ byte :: rest = front ++ [byte] ++ (tail ++ [byte]) ++ rest := by simp
      have same_size : (tail ++ [byte]).length = (byte :: tail).length := by simp
      have left : (byte :: tail).length + (old :: rest).length = (tail ++ [byte]).length + rest.length + 1 := by
        simp only [List.length_append, List.length_cons, List.length_nil]
        omega
      have advanced : front.length + 1 = (front ++ [byte]).length := by simp
      rw [left, read, copyRun_step _ _ _ _ zero, ← read, target, store_append _ _ _ _ rfl, ok_bind, next,
        advanced, ← same_size] at copies
      obtain ⟨ahead, kept⟩ := ih (front ++ [byte]) (tail ++ [byte]) (by simp)
        (single.2.append (isolated_plain zero))
        (by simp only [List.length_append, List.length_cons, List.length_nil]; omega) copies
      rw [same_size] at ahead
      refine ⟨ahead, kept.trans ?_⟩
      simp only [List.length_append, List.length_cons, List.length_nil]
      omega

/-- So does a run that is written ahead of what is read. -/
theorem encodeRun_ahead (written rest : List UInt8) (placed : written.length + 2 = i + ahead) (positive : 1 ≤ ahead)
    (single : Isolated ((written ++ [0, UInt8.ofNat run]).drop i)) (sized : (written ++ rest).length < 2 ^ 63)
    (encodes : encodeRun (written ++ rest) i (2 ^ 64 - ahead) run = .ok (buf', i')) :
    Ahead buf' i' (2 ^ 64 - ahead) ∧ buf'.length = (written ++ rest).length := by
  rw [List.length_append] at sized
  have zero_at : usub (usub i (2 ^ 64 - ahead)) 2 = written.length := by
    unfold usub
    omega
  have run_at : usub (usub i (2 ^ 64 - ahead)) 1 = (written ++ [(0 : UInt8)]).length := by
    rw [List.length_append, List.length_singleton]
    unfold usub
    omega
  rw [encodeRun, zero_at, run_at] at encodes
  match rest with
  | [] =>
    rw [List.append_nil, store_error (le_refl _)] at encodes
    cases encodes
  | [old] =>
    rw [store_append _ _ _ _ rfl, ok_bind, store_error (le_refl _)] at encodes
    cases encodes
  | first :: second :: rest =>
    have zeroed : written ++ 0 :: second :: rest = written ++ [0] ++ second :: rest := by simp
    have cut : written ++ [0] ++ UInt8.ofNat run :: rest = (written ++ [0, UInt8.ofNat run]).take i ++
        (written ++ [0, UInt8.ofNat run]).drop i ++ rest := by
      rw [List.take_append_drop]
      simp
    have reads : ((written ++ [0, UInt8.ofNat run]).take i).length = i := by
      rw [List.length_take, List.length_append, List.length_cons, List.length_singleton]
      omega
    have region : ((written ++ [0, UInt8.ofNat run]).drop i).length = ahead := by
      rw [List.length_drop, List.length_append, List.length_cons, List.length_singleton]
      omega
    have left : (written ++ [0] ++ UInt8.ofNat run :: rest).length - i =
        ((written ++ [0, UInt8.ofNat run]).drop i).length + rest.length := by
      rw [region]
      simp only [List.length_append, List.length_cons, List.length_nil]
      omega
    simp only [List.length_cons] at sized
    rw [store_append _ _ _ _ rfl, ok_bind, zeroed, store_append _ _ _ _ rfl, ok_bind, left, cut] at encodes
    rw [region] at encodes
    have copied := copyRun_ahead ((written ++ [0, UInt8.ofNat run]).take i) _ rest (List.length_pos_iff.mp (by omega)) single
      (by simp only [List.length_append, reads, region]; omega)
      (by rw [reads, region]; exact encodes)
    rw [region] at copied
    refine ⟨copied.1, copied.2.trans ?_⟩
    simp only [List.length_append, List.length_cons, reads, region]
    omega

/-- A turn taken ahead leads to another one, or out of the buffer. -/
theorem zrleTurn_ahead (ahead : Ahead buf i saved) (sized : buf.length < 2 ^ 63) :
    (∃ failure, zrleTurn buf i saved = .returns (.error failure)) ∨
      ∃ buf' i' saved', zrleTurn buf i saved = .goesOn buf' i' saved' ∧ Ahead buf' i' saved' ∧
        buf'.length = buf.length := by
  obtain ⟨front, region, rest, rfl, rfl, rfl, single, starts⟩ := ahead
  obtain ⟨tail, rfl⟩ := List.head?_eq_some_iff.mp starts
  obtain ⟨next, follows, nonzero⟩ := single.1 rfl
  obtain ⟨tail, rfl⟩ := List.head?_eq_some_iff.mp follows
  have inside : front.length < (front ++ 0 :: next :: tail ++ rest).length := by
    simp only [List.length_append, List.length_cons]
    omega
  have counted : zeroRun (front ++ 0 :: next :: tail ++ rest) front.length 255 = 1 := by
    have other : (next :: tail ++ rest).head? ≠ some 0 := fun zero => nonzero (Option.some.inj zero)
    rw [List.append_assoc]
    exact zeroRun_append front (by decide : 1 ≤ 255) (Or.inr other)
  have size : (front ++ 0 :: next :: tail).length = front.length + (tail.length + 2) := by simp
  rw [List.length_append, size] at sized
  have less : usub (u64 (2 ^ 64 - (0 :: next :: tail).length + 1)) 2 = 2 ^ 64 - (tail.length + 3) := by
    simp only [List.length_cons, usub, u64]
    omega
  rw [zrleTurn_run inside counted, runTurn, if_neg (by simp only [List.length_cons]; omega), less]
  cases encodes : encodeRun (front ++ 0 :: next :: tail ++ rest) (front.length + 1) (2 ^ 64 - (tail.length + 3)) 1 with
  | error failure => exact Or.inl ⟨failure, rfl⟩
  | ok after =>
    have region : (front ++ 0 :: next :: tail ++ [0, UInt8.ofNat 1]).drop (front.length + 1) =
        next :: tail ++ [0, UInt8.ofNat 1] := by
      rw [List.append_assoc, List.drop_append, List.drop_eq_nil_of_le (by omega)]
      simp
    right
    refine ⟨after.1, after.2, _, rfl, encodeRun_ahead _ _ (by rw [size]; omega) (by omega) ?_ ?_ encodes⟩
    · rw [region]
      exact single.2.append (isolated_run (by decide))
    · rw [List.length_append, size]
      omega

/-- From there the encoder never returns a result. -/
theorem zrleLoop_ahead (ahead : Ahead buf i saved) (sized : buf.length < 2 ^ 63) (fuel : ℕ)
    (result : Option (List UInt8)) : zrleLoop fuel buf i saved ≠ some (.ok result) := by
  induction fuel generalizing buf i saved with
  | zero => exact nofun
  | succ fuel ih =>
    rcases zrleTurn_ahead ahead sized with ⟨failure, turn⟩ | ⟨buf', i', saved', turn, still, kept⟩
    · rw [zrleLoop_returns turn]
      exact nofun
    · rw [zrleLoop_goesOn turn]
      exact ih still (kept ▸ sized)

/-! Whole runs of the codec -/

/-- More fuel does not change a result. -/
theorem zrleLoop_add (more : ℕ) (looped : zrleLoop fuel buf i saved = some result) :
    zrleLoop (fuel + more) buf i saved = some result := by
  induction fuel generalizing buf i saved with
  | zero => cases looped
  | succ fuel ih =>
    rw [Nat.add_right_comm]
    cases turn : zrleTurn buf i saved with
    | returns other =>
      rw [zrleLoop_returns turn] at looped ⊢
      exact looped
    | goesOn buf' i' saved' =>
      rw [zrleLoop_goesOn turn] at looped ⊢
      exact ih looped

theorem zrleLoop_unique (one : zrleLoop fuel buf i saved = some result)
    (two : zrleLoop fuel' buf i saved = some result') : result = result' := by
  have first := zrleLoop_add fuel' one
  have second := zrleLoop_add fuel two
  rw [Nat.add_comm, second] at first
  exact (Option.some.inj first).symm

theorem zrldLoop_run (fuel : ℕ) (num : UInt8) (rest : List UInt8) (room : vec.bytes.length + num.toNat ≤ vec.capacity) :
    zrldLoop (fuel + 1) vec (0 :: num :: rest) =
      zrldLoop fuel (({ vec with bytes := vec.bytes ++ List.replicate num.toNat 0 } : Vec).extendFromSlice
        (rest.takeWhile (· ≠ 0))) (rest.dropWhile (· ≠ 0)) := by
  have pushed : vec.pushZeroes num.toNat = .ok { vec with bytes := vec.bytes ++ List.replicate num.toNat 0 } := by
    rw [Vec.pushZeroes, if_pos room]
  have decoded : decodeRun vec (0 :: num :: rest) =
      .ok ({ vec with bytes := vec.bytes ++ List.replicate num.toNat 0 }, rest) := by
    rw [decodeRun, if_pos rfl, pushed]
    rfl
  rw [zrldLoop, decoded]

/-- A run that does not fit what is allocated is where the decoder fails. -/
theorem zrldLoop_no_room (fuel : ℕ) (num : UInt8) (rest : List UInt8)
    (room : vec.capacity < vec.bytes.length + num.toNat) :
    zrldLoop fuel vec (0 :: num :: rest) ≠ some (.ok result) := by
  intro returned
  cases fuel with
  | zero => cases returned
  | succ fuel =>
    have decoded : decodeRun vec (0 :: num :: rest) = .error (.panic "set_len past the capacity") := by
      rw [decodeRun, if_pos rfl, Vec.pushZeroes, if_neg (by omega)]
      rfl
    rw [zrldLoop, decoded] at returned
    cases returned

/-- With room for all of them, the pieces are decoded. -/
theorem zrldLoop_encoded (vec : Vec) (pieces : List Piece)
    (room : vec.bytes.length + (expand pieces).length ≤ vec.capacity) :
    zrldLoop (pieces.length + 1) vec (encoded pieces) = some (.ok (vec.bytes ++ expand pieces)) := by
  induction pieces generalizing vec with
  | nil => rw [encoded_nil, expand_nil, List.append_nil]; rfl
  | cons piece pieces ih =>
    rw [expand_cons] at room ⊢
    simp only [List.length_append, List.length_replicate] at room
    have count : (UInt8.ofNat piece.run).toNat = piece.run := by
      rw [UInt8.toNat_ofNat', Nat.mod_eq_of_lt (by have := piece.counted; omega)]
    have starts : encoded pieces = [] ∨ (encoded pieces).head? = some 0 := by
      cases pieces with
      | nil => exact Or.inl rfl
      | cons piece pieces => exact Or.inr rfl
    have kept : ∀ byte ∈ piece.plain, decide (byte ≠ 0) = true := fun byte listed =>
      decide_eq_true (piece.nonzero byte listed)
    have taken : (piece.plain ++ encoded pieces).takeWhile (· ≠ 0) = piece.plain := by
      rw [List.takeWhile_append_of_pos kept]
      rcases starts with none | zero
      · rw [none]; simp
      · obtain ⟨tail, same⟩ := List.head?_eq_some_iff.mp zero
        rw [same]; simp
    have dropped : (piece.plain ++ encoded pieces).dropWhile (· ≠ 0) = encoded pieces := by
      rw [List.dropWhile_append_of_pos kept]
      rcases starts with none | zero
      · rw [none]; rfl
      · obtain ⟨tail, same⟩ := List.head?_eq_some_iff.mp zero
        rw [same]; simp
    rw [encoded_cons, List.length_cons, zrldLoop_run _ _ _ (by omega), count, taken, dropped, ih]
    · simp [Vec.extendFromSlice]
    · simp only [Vec.extendFromSlice, List.length_append, List.length_replicate]
      split <;> omega

theorem length_of_store (stored : store buf index byte = .ok buf') : buf'.length = buf.length := by
  unfold store at stored
  split at stored
  · cases stored
    exact List.length_set
  · cases stored

theorem length_of_copyRun (copies : copyRun saved left buf i = .ok (buf', i')) : buf'.length = buf.length := by
  induction left generalizing buf i with
  | zero => cases copies; rfl
  | succ left ih =>
    unfold copyRun at copies
    split at copies
    · cases copies; rfl
    · split at copies
      · cases copies; rfl
      · obtain ⟨stored, first, rest⟩ := bind_ok.mp copies
        exact (ih rest).trans (length_of_store first)

theorem length_of_encodeRun (encodes : encodeRun buf i saved run = .ok (buf', i')) : buf'.length = buf.length := by
  obtain ⟨zeroed, first, encodes⟩ := bind_ok.mp encodes
  obtain ⟨counted, second, copies⟩ := bind_ok.mp encodes
  exact (length_of_copyRun copies).trans ((length_of_store second).trans (length_of_store first))

theorem length_of_zrleTurn (turn : zrleTurn buf i saved = .goesOn buf' i' saved') : buf'.length = buf.length := by
  unfold zrleTurn at turn
  split at turn
  · unfold runTurn at turn
    split at turn
    · cases turn
    · split at turn
      · cases turn
      · next encodes =>
        cases turn
        exact length_of_encodeRun encodes
  · split at turn <;> cases turn

/-- What the encoder produces is never longer than the buffer. -/
theorem length_of_zrleLoop (looped : zrleLoop fuel buf i saved = some (.ok (some bytes))) :
    bytes.length ≤ buf.length := by
  induction fuel generalizing buf i saved with
  | zero => cases looped
  | succ fuel ih =>
    cases turn : zrleTurn buf i saved with
    | goesOn buf' i' saved' =>
      rw [zrleLoop_goesOn turn] at looped
      exact (ih looped).trans (length_of_zrleTurn turn).le
    | returns result =>
      rw [zrleLoop_returns turn] at looped
      cases looped
      unfold zrleTurn at turn
      split at turn
      · unfold runTurn at turn
        split at turn
        · cases turn
        · split at turn <;> cases turn
      · split at turn
        · cases turn
          exact List.length_take_le' _ _
        · cases turn

/-- What the encoder makes of a buffer that does not start with another byte. -/
theorem zrle_pieces {pieces : List Piece} (maximal : Maximal pieces) (sized : (expand pieces).length < 2 ^ 63) :
    ∃ fuel result, zrle fuel (expand pieces) = some (.ok result) ∧
      (result = none ∧ GivesUp 0 (zeroRuns 0 (expand pieces)) ∨
        result = some (encoded pieces) ∧ ¬ GivesUp 0 (zeroRuns 0 (expand pieces))) := by
  rw [zeroRuns_expand maximal]
  exact zrleLoop_pieces [] [] maximal sized

/-- Such a buffer does not grow when it is encoded, and comes back when it is decoded
into enough room. -/
theorem zrld_restores (starts : buf = [] ∨ buf.head? = some 0) (sized : buf.length < 2 ^ 63)
    (encodes : zrle fuel buf = some (.ok (some bytes))) (room : buf.length ≤ size) (allocates : size < 2 ^ 63) :
    bytes.length ≤ buf.length ∧ ∃ fuel, zrld fuel bytes (some size) = some (.ok buf) := by
  refine ⟨length_of_zrleLoop encodes, ?_⟩
  obtain ⟨pieces, maximal, rfl⟩ := exists_pieces buf starts
  obtain ⟨fuel', result, looped, outcome⟩ := zrle_pieces maximal sized
  have same := Except.ok.inj (zrleLoop_unique encodes looped)
  rcases outcome with ⟨none, -⟩ | ⟨packed, -⟩
  · rw [none] at same
    cases same
  · rw [packed] at same
    cases same
    refine ⟨pieces.length + 1, ?_⟩
    rw [zrld, Vec.withCapacity, if_pos allocates]
    exact zrldLoop_encoded ⟨[], size⟩ pieces (by simpa using room)

theorem short_run_restored : ∃ fuel bytes, zrle fuel [0, 0, 0, 7] = some (.ok (some bytes)) ∧
    bytes.length ≤ 4 ∧ ∃ fuel, zrld fuel bytes (some 4) = some (.ok [0, 0, 0, 7]) :=
  have encodes : zrle 3 [0, 0, 0, 7] = some (.ok (some [0, 3, 7])) := by decide
  ⟨3, [0, 3, 7], encodes, zrld_restores (.inr rfl) (by decide) encodes (by decide) (by decide)⟩

/-! Buffers that start with another byte -/

theorem zeroRun_other (nonzero : byte ≠ 0) (rest : List UInt8) : zeroRun (byte :: rest) 0 255 = 0 :=
  zeroRun_append [] (Nat.zero_le _) (Or.inr fun zero => nonzero (Option.some.inj zero))

/-- The empty run is written over the first two bytes. -/
theorem zrleTurn_other (nonzero : byte ≠ 0) (second : UInt8) (rest : List UInt8) :
    zrleTurn (byte :: second :: rest) 0 0 = .goesOn (0 :: 0 :: rest) 0 (2 ^ 64 - 2) := by
  have encodes : encodeRun (byte :: second :: rest) 0 (2 ^ 64 - 2) 0 = .ok (0 :: 0 :: rest, 0) := by
    have first : store (byte :: second :: rest) 0 0 = .ok (0 :: second :: rest) := store_append [] _ _ _ rfl
    have next : store (0 :: second :: rest) 1 (UInt8.ofNat 0) = .ok (0 :: 0 :: rest) := store_append [0] _ _ _ rfl
    have zero_at : usub (usub 0 (2 ^ 64 - 2)) 2 = 0 := by decide
    have run_at : usub (usub 0 (2 ^ 64 - 2)) 1 = 1 := by decide
    rw [encodeRun, zero_at, run_at, first, ok_bind, next, ok_bind]
    exact copyRun_stop _ _ [] (Or.inr rfl)
  rw [zrleTurn_run (by rw [List.length_cons]; omega) (zeroRun_other nonzero _)]
  exact runTurn_encodes (fun single => absurd single.1 (by decide)) (by decide) encodes

/-- One byte alone has no room for it. -/
theorem zrle_single (nonzero : byte ≠ 0) : zrle fuel [byte] ≠ some (.ok result) := by
  cases fuel with
  | zero => exact nofun
  | succ fuel =>
    have zero_at : usub (usub 0 (2 ^ 64 - 2)) 2 = 0 := by decide
    have run_at : usub (usub 0 (2 ^ 64 - 2)) 1 = 1 := by decide
    have less : usub (u64 (0 + 0)) 2 = 2 ^ 64 - 2 := by decide
    have first : store [byte] 0 0 = .ok [0] := store_append [] _ _ _ rfl
    have encodes : encodeRun [byte] 0 (2 ^ 64 - 2) 0 = .error (.panic "index out of bounds") := by
      rw [encodeRun, zero_at, run_at, first, ok_bind, store_error (by decide)]
      rfl
    have turn : zrleTurn [byte] 0 0 = .returns (.error (.panic "index out of bounds")) := by
      rw [zrleTurn_run Nat.one_pos (zeroRun_other nonzero _), runTurn, if_neg (by decide), less, Nat.zero_add, encodes]
    rw [zrle, zrleLoop_returns turn]
    exact nofun

section
variable {pieces : List Piece} {piece : Piece}

theorem getElem?_expand_of_lt (low : i < piece.run) : (expand (piece :: pieces))[i]? = some 0 := by
  rw [expand_cons, List.getElem?_append_left (by rw [List.length_replicate]; exact low), List.getElem?_replicate,
    if_pos low]

theorem getElem?_expand_run (maximal : Maximal (piece :: pieces)) (short : piece.run ≠ 255) :
    (expand (piece :: pieces))[piece.run]? ≠ some 0 := by
  rw [expand_cons, List.getElem?_append_right (by rw [List.length_replicate]), List.length_replicate, Nat.sub_self,
    ← List.head?_eq_getElem?]
  exact maximal.1.resolve_left short

/-- The run that is read next takes the two bytes for zeros. If less than four
zeros follow in all, the encoder stays ahead of itself. -/
theorem zrleLoop_short (maximal : Maximal (piece :: pieces)) (starts : expand (piece :: pieces) = 0 :: 0 :: rest)
    (sized : (expand (piece :: pieces)).length < 2 ^ 63) (short : piece.run < 4) (fuel : ℕ)
    (result : Option (List UInt8)) : zrleLoop fuel (expand (piece :: pieces)) 0 (2 ^ 64 - 2) ≠ some (.ok result) := by
  have two : 2 ≤ piece.run := by
    have positive := piece.positive
    by_contra one
    have single : piece.run = 1 := by omega
    have other := getElem?_expand_run maximal (by omega)
    rw [starts, single] at other
    exact other rfl
  cases fuel with
  | zero => exact nofun
  | succ fuel =>
    have turn : zrleTurn (expand (piece :: pieces)) 0 (2 ^ 64 - 2) = _ :=
      zrleTurn_run (length_lt_append_expand [] piece pieces) (zeroRun_piece [] maximal)
    have less : usub (u64 (2 ^ 64 - 2 + piece.run)) 2 = 2 ^ 64 - (4 - piece.run) := by
      unfold usub u64
      omega
    rw [runTurn, if_neg (by omega), less, starts] at turn
    have single : Isolated (([0, 0] ++ [0, UInt8.ofNat piece.run]).drop piece.run) := by
      obtain same | same : piece.run = 2 ∨ piece.run = 3 := by omega
      · rw [same]
        exact isolated_run (by decide)
      · rw [same]
        exact isolated_plain (by decide)
    cases encodes : encodeRun (0 :: 0 :: rest) (0 + piece.run) (2 ^ 64 - (4 - piece.run)) piece.run with
    | error failure =>
      rw [encodes, ← starts] at turn
      rw [zrleLoop_returns turn]
      exact nofun
    | ok after =>
      rw [encodes, ← starts] at turn
      rw [zrleLoop_goesOn turn]
      rw [starts] at sized
      rw [Nat.zero_add] at encodes
      obtain ⟨ahead, kept⟩ := encodeRun_ahead [0, 0] rest (by rw [List.length_cons, List.length_singleton]; omega)
        (by omega) single sized encodes
      exact zrleLoop_ahead ahead (kept ▸ sized) fuel result

/-- Otherwise it is behind again, with two bytes written that stand for nothing. -/
theorem zrleLoop_long (maximal : Maximal (piece :: pieces)) (sized : (expand (piece :: pieces)).length < 2 ^ 63)
    (long : 4 ≤ piece.run) :
    ∃ fuel result, zrleLoop fuel (expand (piece :: pieces)) 0 (2 ^ 64 - 2) = some (.ok result) ∧
      (result = none ∧ GivesUp 2 (zeroRuns 0 (expand (piece :: pieces))) ∨
        result = some (0 :: 0 :: encoded (piece :: pieces)) ∧
          ¬ GivesUp 2 (zeroRuns 0 (expand (piece :: pieces)))) := by
  have small := piece.counted
  have turn : zrleTurn (expand (piece :: pieces)) 0 (2 ^ 64 - 2) = _ :=
    zrleTurn_run (length_lt_append_expand [] piece pieces) (zeroRun_piece [] maximal)
  have less : usub (u64 (2 ^ 64 - 2 + piece.run)) 2 = (List.replicate (piece.run - 4) (0 : UInt8)).length := by
    rw [List.length_replicate]
    unfold usub u64
    omega
  have opened : List.replicate piece.run (0 : UInt8) = [0, 0] ++ 0 :: 0 :: List.replicate (piece.run - 4) 0 := by
    obtain ⟨n, same⟩ : ∃ n, piece.run = n + 4 := ⟨piece.run - 4, by omega⟩
    rw [same]
    rfl
  have at_run : 0 + piece.run = ([0, 0] ++ 0 :: 0 :: List.replicate (piece.run - 4) (0 : UInt8)).length := by
    rw [← opened, List.length_replicate, Nat.zero_add]
  rw [expand_cons, opened] at sized
  obtain ⟨gap, kept, encodes⟩ := encodeRun_behind [0, 0] (List.replicate (piece.run - 4) 0) 0 0 piece.run
    piece.nonzero (head?_expand pieces) sized
  rw [← opened, ← expand_cons, opened, ← at_run] at encodes
  rw [runTurn_encodes (by omega) less encodes] at turn
  have advanced : 0 + piece.run + piece.plain.length = ([0, 0] ++ piece.encoded ++ gap).length := by
    rw [List.length_replicate] at kept
    simp only [Piece.encoded, List.length_append, List.length_cons, List.length_nil, kept]
    omega
  have shorter : ([0, 0] ++ piece.encoded ++ gap ++ expand pieces).length < 2 ^ 63 := by
    simp only [Piece.encoded, List.length_append, List.length_cons, List.length_nil, List.length_replicate, kept]
      at sized ⊢
    omega
  obtain ⟨fuel, result, looped, outcome⟩ := zrleLoop_pieces ([0, 0] ++ piece.encoded) gap maximal.2 shorter
  rw [advanced, ← kept] at turn
  refine ⟨fuel + 1, result, (zrleLoop_goesOn turn fuel).trans looped, ?_⟩
  have debt : -(gap.length : ℤ) = 2 + 2 - piece.run := by
    rw [kept, List.length_replicate]
    omega
  have still : GivesUp 2 (zeroRuns 0 (expand (piece :: pieces))) ↔ GivesUp (-gap.length) (pieces.map Piece.run) := by
    rw [zeroRuns_expand maximal, List.map_cons, givesUp_cons, debt]
    exact or_iff_right fun both => absurd both.2 (by decide)
  rw [still]
  exact outcome

end

/-- The two bytes that stand for nothing are where every decoding starts. -/
theorem zrld_unhinted (fuel : ℕ) (piece : Piece) (pieces : List Piece) :
    zrld fuel (encoded (piece :: pieces)) none ≠ some (.ok result) ∧
      zrld fuel (0 :: 0 :: encoded (piece :: pieces)) none ≠ some (.ok result) := by
  have count : 0 < (UInt8.ofNat piece.run).toNat := by
    have positive := piece.positive
    have small := piece.counted
    rw [UInt8.toNat_ofNat', Nat.mod_eq_of_lt (by omega)]
    exact positive
  have stuck : ∀ fuel, zrldLoop fuel Vec.new (encoded (piece :: pieces)) ≠ some (.ok result) := fun fuel =>
    zrldLoop_no_room fuel _ _ (by simpa [Vec.new] using count)
  refine ⟨stuck fuel, ?_⟩
  cases fuel with
  | zero => exact nofun
  | succ fuel =>
    have skipped : zrldLoop (fuel + 1) Vec.new (0 :: 0 :: encoded (piece :: pieces)) =
        zrldLoop fuel Vec.new (encoded (piece :: pieces)) :=
      zrldLoop_run fuel 0 (encoded (piece :: pieces)) (le_refl _)
    rw [zrld, skipped]
    exact stuck fuel

/-- Where the encoder either gives up or produces what some hint does not
decode, it round-trips by giving up. -/
theorem roundTrips_iff (looped : zrle fuel buf = some (.ok result))
    (outcome : result = none ∧ gives_up ∨ result = some bytes ∧ ¬ gives_up)
    (fails : ∃ sizeHint, ∀ fuel, zrld fuel bytes sizeHint ≠ some (.ok buf)) : RoundTrips buf ↔ gives_up := by
  rcases outcome with ⟨rfl, given_up⟩ | ⟨rfl, goes_on⟩
  · exact iff_of_true ⟨fuel, none, looped, nofun⟩ given_up
  · refine iff_of_false ?_ goes_on
    rintro ⟨fuel', encoded, looped', decodes⟩
    obtain rfl := Except.ok.inj (zrleLoop_unique looped looped')
    obtain ⟨sizeHint, stuck⟩ := fails
    obtain ⟨fuel, decoded⟩ := (decodes bytes rfl).2 sizeHint
    exact stuck fuel decoded

theorem roundTrips_other_iff (nonzero : byte ≠ 0) (second : UInt8) (rest : List UInt8)
    (sized : (byte :: second :: rest).length < 2 ^ 63) :
    RoundTrips (byte :: second :: rest) ↔
      rest[0]? = some 0 ∧ rest[1]? = some 0 ∧ GivesUp 2 (zeroRuns 0 (0 :: 0 :: rest)) := by
  have turn := zrleLoop_goesOn (zrleTurn_other nonzero second rest)
  obtain ⟨pieces, maximal, starts⟩ := exists_pieces (0 :: 0 :: rest) (Or.inr rfl)
  cases pieces with
  | nil => cases starts
  | cons piece pieces =>
    have same_sized : (expand (piece :: pieces)).length < 2 ^ 63 := by rw [starts]; exact sized
    by_cases short : piece.run < 4
    · refine iff_of_false ?_ ?_
      · rintro ⟨fuel, encoded, looped, -⟩
        cases fuel with
        | zero => cases looped
        | succ fuel =>
          rw [zrle, turn, ← starts] at looped
          exact zrleLoop_short maximal starts same_sized short fuel encoded looped
      · rintro ⟨third, fourth, -⟩
        have other := getElem?_expand_run maximal (by omega)
        rw [starts] at other
        have positive := piece.positive
        obtain same | same | same : piece.run = 1 ∨ piece.run = 2 ∨ piece.run = 3 := by omega
        · rw [same] at other; exact other rfl
        · rw [same] at other; exact other third
        · rw [same] at other; exact other fourth
    · obtain ⟨fuel, result, looped, outcome⟩ := zrleLoop_long maximal same_sized (by omega)
      rw [starts] at looped outcome
      have third : (expand (piece :: pieces))[2]? = some 0 := getElem?_expand_of_lt (by omega)
      have fourth : (expand (piece :: pieces))[3]? = some 0 := getElem?_expand_of_lt (by omega)
      rw [starts] at third fourth
      rw [roundTrips_iff ((turn fuel).trans looped) outcome ⟨none, fun fuel => (zrld_unhinted fuel piece pieces).2⟩]
      exact ⟨fun given_up => ⟨third, fourth, given_up⟩, fun all => all.2.2⟩

/-- The codec round-trips exactly the buffers for which the encoder gives up.
Whatever it does encode is not decoded without a size hint, except for the empty
buffer, for which a hint can be too large; and in front of a buffer that starts
with another byte it needs two zeros in the third and fourth place to come back. -/
theorem zrle_round_trips_iff (buf : List UInt8) (sized : buf.length < 2 ^ 63) :
    RoundTrips buf ↔
      buf[0]? = some 0 ∧ GivesUp 0 (zeroRuns 0 buf) ∨
        buf[0]? ≠ some 0 ∧ buf[2]? = some 0 ∧ buf[3]? = some 0 ∧ GivesUp 2 (zeroRuns 0 (0 :: 0 :: buf.drop 2)) := by
  match buf with
  | [] =>
    have looped : zrle 1 [] = some (.ok (some [])) := rfl
    have too_large : ∀ fuel, zrld fuel [] (some (2 ^ 63)) ≠ some (.ok []) := by
      intro fuel
      rw [zrld, Vec.withCapacity, if_neg (lt_irrefl _)]
      exact nofun
    rw [roundTrips_iff looped (Or.inr ⟨rfl, id⟩) ⟨_, too_large⟩]
    simp
  | byte :: rest =>
    by_cases zero : byte = 0
    · subst zero
      obtain ⟨pieces, maximal, starts⟩ := exists_pieces (0 :: rest) (Or.inr rfl)
      cases pieces with
      | nil => cases starts
      | cons piece pieces =>
        obtain ⟨fuel, result, looped, outcome⟩ := zrle_pieces maximal (by rw [starts]; exact sized)
        rw [starts] at looped outcome
        rw [roundTrips_iff looped outcome ⟨none, fun fuel => (zrld_unhinted fuel piece pieces).1⟩]
        simp
    · cases rest with
      | nil =>
        refine iff_of_false ?_ (by simp [zero])
        rintro ⟨fuel, encoded, looped, -⟩
        exact zrle_single zero looped
      | cons second rest =>
        rw [roundTrips_other_iff zero second rest sized]
        simp [zero]

/-- One byte that is not zero is enough to go out of bounds, and two zeros are
encoded to what cannot be decoded without a hint. -/
theorem buffers_not_round_tripped : ¬ RoundTrips [1] ∧ ¬ RoundTrips [0, 0] := by
  constructor
  · rintro ⟨fuel, encoded, looped, -⟩
    exact zrle_single (by decide) looped
  · let two : Piece := ⟨2, [], by decide, by decide, nofun⟩
    have maximal : Maximal [two] := ⟨Or.inr nofun, trivial⟩
    obtain ⟨fuel, result, looped, outcome⟩ := zrle_pieces maximal (by decide)
    have decided : RoundTrips [0, 0] ↔ _ :=
      roundTrips_iff looped outcome ⟨none, fun fuel => (zrld_unhinted fuel two []).1⟩
    rw [decided, zeroRuns_expand maximal, List.map_cons, givesUp_cons]
    rintro (⟨single, -⟩ | rest)
    · cases single
    · exact not_givesUp_nil rest

/-- A single zero is not worth encoding. -/
theorem single_zero_round_trips : RoundTrips [0, 7] :=
  (zrle_round_trips_iff [0, 7] (by decide)).mpr (Or.inl ⟨rfl, [], [], rfl, rfl⟩)

end Fsyncer.ZeroRuns
