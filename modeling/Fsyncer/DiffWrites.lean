import Fsyncer.Base.Machine
import Fsyncer.Base.Wire
import Fsyncer.Vfs

/-! Writes sent as differences. With `DIFF_WRITES` the handler of a write reads
the bytes it is about to replace, turns the caller's buffer into the exclusive
or with them, and sends what is left of it without the zeros at its ends. -/
namespace Fsyncer.DiffWrites
open Fsyncer.ByteFile Fsyncer.FileTree Fsyncer.Vfs Fsyncer.Wire

/-- `pwrite` on the contents of a file. -/
def pwrite (file : File) (buf : List UInt8) (offset : Int64) : Except Errno File :=
  if offset.toInt < 0 then .error .einval
  else if buf = [] then .ok file
  else if offset.toInt + buf.length ≤ offMax then .ok (splice file offset.toInt.toNat buf)
  else .error .efbig

/-- What a descriptor's write does to the tree is what it does to the contents. -/
theorem tree_pwrite {t : Tree} (held : t.contents fd = .ok file) (buf : List UInt8) (offset : Int64) :
    t.pwrite fd buf offset.toInt = (pwrite file buf offset).map (t.store fd) := by
  rw [Tree.pwrite, held, pwrite]
  show (if _ then _ else _) = _
  split
  · rfl
  · split
    · show _ = Except.ok (t.store fd file)
      rw [Tree.store_contents held]
    · split <;> rfl

/-- `FileExt::read_at`: the bytes that are there; an error for a descriptor that
is open for writing only. -/
def readAt (readable : Bool) (file : File) (offset : Int64) (count : ℕ) : Option (List UInt8) :=
  if readable then some ((file.drop offset.toInt.toNat).take count) else none

def xorBuf (new old : List UInt8) : Except Failure (List UInt8) :=
  if old.length ≤ new.length then .ok (xorBytes new old ++ new.drop old.length)
  else .error (.panic "assertion failed: new.len() >= old.len()")

/-- How many zeros a buffer starts with. -/
def zeroes (buf : List UInt8) : ℕ := (buf.takeWhile (· = 0)).length

/-- `&buf[start..stop]`. -/
def slice (buf : List UInt8) (start stop : ℕ) : Except Failure (List UInt8) :=
  if start ≤ stop ∧ stop ≤ buf.length then .ok ((buf.take stop).drop start)
  else .error (.panic "slice index out of range")

/-- The call that `do_write` makes, and the caller's buffer as it leaves it. -/
def buildCall (diffWrites readable : Bool) (path : Path) (file : File) (buf : List UInt8) (offset : Int64) :
    Except Failure (VFSCall × List UInt8) :=
  if diffWrites then
    match readAt readable file offset buf.length with
    | none => .ok (.write path offset buf, buf)
    -- Optimisation, there is no overlap
    | some [] => .ok (.write path offset buf, buf)
    | some old => do
      let front ← xorBuf (buf.take old.length) old
      let buf := front ++ buf.drop old.length
      let leading := zeroes buf
      -- Zeroes past the end of the file extend the file
      let trailing := if old.length = buf.length then zeroes buf.reverse else 0
      let part ← slice buf leading (buf.length - trailing)
      .ok (.diffWrite path (offset + Int64.ofNat leading) part, buf)
  else .ok (.write path offset buf, buf)

/-- The file after a write, which changes nothing if it fails. -/
def written (file : File) (buf : List UInt8) (offset : Int64) : File :=
  match pwrite file buf offset with
  | .ok after => after
  | .error _ => file

/-- `do_write`, to the call it hands on and the backing file it leaves. -/
def doWrite (diffWrites readable : Bool) (path : Path) (file : File) (buf : List UInt8) (offset : Int64) :
    Except Failure (VFSCall × File) := do
  let (call, buf) ← buildCall diffWrites readable path file buf offset
  .ok (call, written file buf offset)

/-- What a replica does: a difference is applied to the bytes that are there,
the rest is copied. -/
def applyCall (file : File) : VFSCall → Except Failure File
  | .write _ offset buf => .ok (written file buf offset)
  | .diffWrite _ offset buf => do
    let old := (file.drop offset.toInt.toNat).take buf.length
    let front ← xorBuf old (buf.take old.length)
    .ok (written file (front ++ buf.drop old.length) offset)
  | _ => .error (.panic "Not implemented")

section
variable {file : File} {buf : List UInt8} {offset : Int64}

/-- The bytes that a write replaces. -/
def overlap (file : File) (buf : List UInt8) (offset : Int64) : List UInt8 :=
  (file.drop offset.toInt.toNat).take buf.length

/-- The buffer as `do_write` leaves it. -/
def difference (file : File) (buf : List UInt8) (offset : Int64) : List UInt8 :=
  xorBytes (buf.take (overlap file buf offset).length) (overlap file buf offset) ++
    buf.drop (overlap file buf offset).length

theorem length_overlap_le (file : File) (buf : List UInt8) (offset : Int64) :
    (overlap file buf offset).length ≤ buf.length := by
  rw [overlap, List.length_take]
  omega

theorem length_difference (file : File) (buf : List UInt8) (offset : Int64) :
    (difference file buf offset).length = buf.length := by
  have short := length_overlap_le file buf offset
  rw [difference, List.length_append, length_xorBytes, List.length_take, List.length_drop]
  omega

theorem getElem?_overlap (file : File) (offset : Int64) (inside : i < buf.length) :
    (overlap file buf offset)[i]? = file[offset.toInt.toNat + i]? := by
  rw [overlap, List.getElem?_take_of_lt inside, List.getElem?_drop]

/-- Byte for byte the difference is the exclusive or with the old byte, or the
new byte where there is none. -/
theorem getElem?_difference (inside : i < buf.length) :
    (difference file buf offset)[i]? = some (buf[i] ^^^ (file[offset.toInt.toNat + i]?).getD 0) := by
  have short := length_overlap_le file buf offset
  have old := getElem?_overlap file offset inside
  rw [difference]
  by_cases there : i < (overlap file buf offset).length
  · rw [List.getElem?_append_left (by rw [length_xorBytes, List.length_take]; omega), xorBytes,
      List.getElem?_zipWith, List.getElem?_take_of_lt there, List.getElem?_eq_getElem inside]
    rw [List.getElem?_eq_getElem there] at old ⊢
    rw [← old]
    rfl
  · rw [List.getElem?_append_right (by rw [length_xorBytes, List.length_take]; omega), List.getElem?_drop,
      length_xorBytes, List.length_take]
    rw [List.getElem?_eq_none (by omega)] at old
    rw [← old, Option.getD_none, UInt8.xor_zero, ← List.getElem?_eq_getElem inside]
    congr 1
    omega

/-- The difference taken again gives the buffer back. -/
theorem difference_again (inside : i < buf.length) (held : (difference file buf offset)[i]? = some byte) :
    byte ^^^ (file[offset.toInt.toNat + i]?).getD 0 = buf[i] := by
  rw [getElem?_difference inside] at held
  rw [← Option.some.inj held, UInt8.xor_assoc, UInt8.xor_self, UInt8.xor_zero]

/-- The buffer says what the file says already, read as zeros past its end. -/
def Repeats (file : File) (buf : List UInt8) (offset : Int64) : Prop :=
  ∀ i < buf.length, buf[i]? = some ((file[offset.toInt.toNat + i]?).getD 0)

theorem difference_eq_zero (inside : i < buf.length) :
    (difference file buf offset)[i]? = some 0 ↔ buf[i]? = some ((file[offset.toInt.toNat + i]?).getD 0) := by
  rw [getElem?_difference inside, Option.some.injEq, UInt8.xor_eq_zero_iff, List.getElem?_eq_getElem inside,
    Option.some.injEq]

theorem zeroes_le (buf : List UInt8) : zeroes buf ≤ buf.length := (List.takeWhile_sublist _).length_le

theorem getElem?_of_lt_zeroes {buf : List UInt8} (low : i < zeroes buf) : buf[i]? = some 0 := by
  have front := List.takeWhile_prefix (l := buf) (· = (0 : UInt8))
  obtain ⟨rest, whole⟩ := front
  have listed := List.getElem_mem (l := buf.takeWhile (· = 0)) low
  have zero : (buf.takeWhile (· = 0))[i] = 0 := by
    simpa using List.all_eq_true.mp (List.all_takeWhile (l := buf) (p := (· = 0))) _ listed
  rw [← whole, List.getElem?_append_left low, List.getElem?_eq_getElem low, zero]

theorem getElem?_zeroes {buf : List UInt8} (some_left : zeroes buf < buf.length) : buf[zeroes buf]? ≠ some 0 := by
  induction buf with
  | nil => cases some_left
  | cons byte rest ih =>
    by_cases zero : byte = 0
    · have next : zeroes (byte :: rest) = zeroes rest + 1 := by simp [zeroes, zero]
      rw [next, List.getElem?_cons_succ]
      exact ih (by rw [next] at some_left; exact Nat.lt_of_succ_lt_succ some_left)
    · have none : zeroes (byte :: rest) = 0 := by simp [zeroes, zero]
      rw [none, List.getElem?_cons_zero]
      exact fun same => zero (Option.some.inj same)

/-- The zeros at the end. -/
theorem getElem?_of_zeroes_reverse {buf : List UInt8} (high : buf.length - zeroes buf.reverse ≤ i)
    (inside : i < buf.length) : buf[i]? = some 0 := by
  have zero : buf.reverse[buf.length - 1 - i]? = some 0 := getElem?_of_lt_zeroes (by omega)
  rw [List.getElem?_reverse (by omega)] at zero
  rw [← zero]
  congr 1
  omega

theorem zeroes_eq_length {buf : List UInt8} : zeroes buf = buf.length ↔ ∀ i < buf.length, buf[i]? = some 0 := by
  constructor
  · intro all i inside
    exact getElem?_of_lt_zeroes (all ▸ inside)
  · intro all
    by_contra fewer
    have some_left := lt_of_le_of_ne (zeroes_le buf) fewer
    exact getElem?_zeroes some_left (all _ some_left)

theorem zeroes_difference_eq_length :
    zeroes (difference file buf offset) = (difference file buf offset).length ↔ Repeats file buf offset := by
  rw [zeroes_eq_length, length_difference]
  exact forall₂_congr fun i inside => difference_eq_zero inside

/-- The zeros that are cut off the end. -/
def trailing (file : File) (buf : List UInt8) (offset : Int64) : ℕ :=
  if (overlap file buf offset).length = buf.length then zeroes (difference file buf offset).reverse else 0

/-- What `do_write` does with a buffer that overlaps the file. -/
theorem buildCall_of_overlap (path : Path) (some_old : overlap file buf offset ≠ []) :
    buildCall true true path file buf offset = (slice (difference file buf offset)
      (zeroes (difference file buf offset)) (buf.length - trailing file buf offset)).map
        fun part => (.diffWrite path (offset + Int64.ofNat (zeroes (difference file buf offset))) part,
          difference file buf offset) := by
  have short := length_overlap_le file buf offset
  have read : readAt true file offset buf.length = some (overlap file buf offset) := rfl
  have xored : xorBuf (buf.take (overlap file buf offset).length) (overlap file buf offset) =
      .ok (xorBytes (buf.take (overlap file buf offset).length) (overlap file buf offset)) := by
    rw [xorBuf, if_pos (by rw [List.length_take]; omega), List.drop_eq_nil_of_le (by rw [List.length_take]; omega),
      List.append_nil]
  rw [buildCall, if_pos rfl, read]
  split
  · next none => cases none
  · next none => exact absurd (Option.some.inj none) some_old
  · next old _ same =>
    cases same
    have folded : xorBytes (buf.take (overlap file buf offset).length) (overlap file buf offset) ++
        buf.drop (overlap file buf offset).length = difference file buf offset := rfl
    simp only [xored, Machine.ok_bind, folded, length_difference]
    show (slice _ _ (_ - trailing file buf offset) >>= _) = _
    cases slice (difference file buf offset) (zeroes (difference file buf offset))
      (buf.length - trailing file buf offset) <;> rfl

theorem buildCall_plain (path : Path) (plain : readable = false ∨ overlap file buf offset = []) :
    buildCall true readable path file buf offset = .ok (.write path offset buf, buf) := by
  rw [buildCall, if_pos rfl]
  rcases plain with unreadable | none
  · rw [unreadable]; rfl
  · cases readable with
    | false => rfl
    | true =>
      have read : readAt true file offset buf.length = some (overlap file buf offset) := rfl
      rw [read, none]

/-- A replica takes the difference again, and writes that. -/
theorem applyCall_diffWrite (path : Path) (file : File) (part : List UInt8) (offset : Int64) :
    applyCall file (.diffWrite path offset part) = .ok (written file (difference file part offset) offset) := by
  have short := length_overlap_le file part offset
  have taken : (part.take (overlap file part offset).length).length = (overlap file part offset).length := by
    rw [List.length_take]
    omega
  have xored : xorBuf (overlap file part offset) (part.take (overlap file part offset).length) =
      .ok (xorBytes (part.take (overlap file part offset).length) (overlap file part offset)) := by
    rw [xorBuf, if_pos taken.le, taken, List.drop_length, List.append_nil, xorBytes, xorBytes,
      List.zipWith_comm_of_comm (fun left right => UInt8.xor_comm left right)]
  show (xorBuf (overlap file part offset) (part.take (overlap file part offset).length) >>= _) = _
  rw [xored]
  rfl

/-- What is sent of a difference, and where it starts. -/
def part (file : File) (buf : List UInt8) (offset : Int64) : List UInt8 :=
  ((difference file buf offset).take (buf.length - trailing file buf offset)).drop
    (zeroes (difference file buf offset))

/-- A zero is cut off the end only where the file reaches to the end of the write. -/
theorem trailing_cases (file : File) (buf : List UInt8) (offset : Int64) :
    trailing file buf offset = 0 ∨ (offset.toInt.toNat + buf.length ≤ file.length ∨ buf = []) := by
  unfold trailing
  split
  · next full =>
    right
    rw [overlap, List.length_take, List.length_drop] at full
    by_cases none : buf = []
    · exact Or.inr none
    · have := List.length_pos_iff.mpr none
      omega
  · exact Or.inl rfl

/-- Something is left to send unless the buffer repeats the file. -/
theorem zeroes_lt_of_not_repeats (news : ¬ Repeats file buf offset) :
    zeroes (difference file buf offset) < buf.length - trailing file buf offset := by
  have fewer : zeroes (difference file buf offset) < (difference file buf offset).length :=
    lt_of_le_of_ne (zeroes_le _) fun all => news (zeroes_difference_eq_length.mp all)
  have nonzero := getElem?_zeroes fewer
  rw [length_difference] at fewer
  unfold trailing
  split
  · by_contra beyond
    exact nonzero (getElem?_of_zeroes_reverse (by rw [length_difference]; omega) (by rw [length_difference]; exact fewer))
  · omega

theorem buildCall_of_news (path : Path) (some_old : overlap file buf offset ≠ [])
    (news : ¬ Repeats file buf offset) : buildCall true true path file buf offset =
      .ok (.diffWrite path (offset + Int64.ofNat (zeroes (difference file buf offset))) (part file buf offset),
        difference file buf offset) := by
  have left := zeroes_lt_of_not_repeats news
  rw [buildCall_of_overlap path some_old, slice, if_pos ⟨left.le, by rw [length_difference]; omega⟩]
  rfl

/-- The difference of what is sent is the middle of the buffer. -/
theorem getElem?_difference_part (at_part : (offset + Int64.ofNat (zeroes (difference file buf offset))).toInt.toNat =
      offset.toInt.toNat + zeroes (difference file buf offset))
    (inside : zeroes (difference file buf offset) + i < buf.length - trailing file buf offset) :
    (difference file (part file buf offset)
      (offset + Int64.ofNat (zeroes (difference file buf offset))))[i]? =
        buf[zeroes (difference file buf offset) + i]? := by
  have length : (part file buf offset).length =
      buf.length - trailing file buf offset - zeroes (difference file buf offset) := by
    rw [part, List.length_drop, List.length_take, length_difference]
    omega
  have held : (part file buf offset)[i]? =
      (difference file buf offset)[zeroes (difference file buf offset) + i]? := by
    rw [part, List.getElem?_drop, List.getElem?_take_of_lt inside]
  have within : i < (part file buf offset).length := by omega
  rw [List.getElem?_eq_getElem within] at held
  rw [getElem?_difference within, at_part, List.getElem?_eq_getElem (by omega : _ < buf.length), Nat.add_assoc]
  exact congrArg some (difference_again (by omega) held.symm)

theorem length_difference_part (file : File) (buf : List UInt8) (offset at_part : Int64) :
    (difference file (part file buf offset) at_part).length =
      buf.length - trailing file buf offset - zeroes (difference file buf offset) := by
  rw [length_difference, part, List.length_drop, List.length_take, length_difference]
  omega

/-- An offset moved up: exact, or negative once it leaves the signed range. -/
theorem toInt_add_ofNat (nonneg : 0 ≤ offset.toInt) (small : n < 2 ^ 63) :
    (offset + Int64.ofNat n).toInt =
      if offset.toInt + n < 2 ^ 63 then offset.toInt + n else offset.toInt + n - 2 ^ 64 := by
  have high := offset.toInt_lt
  rw [Int64.toInt_add, Int64.toInt_ofNat_of_lt small, Int.bmod_def]
  split <;> split <;> omega

theorem written_of_fits (nonneg : 0 ≤ offset.toInt) (nonempty : buf ≠ [])
    (fits : offset.toInt + buf.length ≤ offMax) :
    written file buf offset = splice file offset.toInt.toNat buf := by
  rw [written, pwrite, if_neg (by omega), if_neg nonempty, if_pos fits]

theorem written_of_not_fits (outside : buf = [] ∨ offset.toInt < 0 ∨ offMax < offset.toInt + buf.length) :
    written file buf offset = file := by
  unfold written pwrite
  split_ifs with negative none fits
  · rfl
  · rfl
  · rcases outside with none' | negative' | beyond
    · exact absurd none' none
    · exact absurd negative' negative
    · omega
  · rfl

/-- The byte that is there, or the zero that a hole reads as. -/
theorem byte_or_zero (file : File) (i : ℕ) :
    (if i < file.length then file[i]? else some 0) = some ((file[i]?).getD 0) := by
  split
  · next inside => rw [List.getElem?_eq_getElem inside]; rfl
  · next outside => rw [List.getElem?_eq_none (by omega)]; rfl

/-- The ends of a write that repeat the file need not be written, provided that
the file is as long as it would be. -/
theorem splice_middle {start : ℕ} {middle : List UInt8}
    (front : ∀ i < first, buf[i]? = some ((file[start + i]?).getD 0))
    (inner : ∀ i < middle.length, middle[i]? = buf[first + i]?)
    (back : ∀ i, first + middle.length ≤ i → i < buf.length → buf[i]? = some ((file[start + i]?).getD 0))
    (within : first + middle.length ≤ buf.length)
    (reaches : first + middle.length = buf.length ∨ start + buf.length ≤ file.length) :
    splice file (start + first) middle = splice file start buf := by
  apply List.ext_getElem?
  intro i
  rw [getElem?_splice, getElem?_splice]
  by_cases before : i < start
  · rw [if_pos (by omega), if_pos before]
  rw [if_neg before]
  have shift : start + (i - start) = i := by omega
  by_cases early : i < start + first
  · rw [if_pos early, byte_or_zero, if_pos (by omega), front _ (by omega), shift]
  rw [if_neg early]
  by_cases inside : i < start + first + middle.length
  · rw [if_pos inside, if_pos (by omega), inner _ (by omega)]
    congr 1
    omega
  rw [if_neg inside]
  by_cases late : i < start + buf.length
  · rw [if_pos late, back _ (by omega) (by omega), shift, ← byte_or_zero, if_pos (by omega)]
  · rw [if_neg late]

/-- A replica that gets the difference ends up with the file that the plain
write makes. -/
theorem written_part (held : file.length ≤ offMax) (sized : buf.length < 2 ^ 63) (nonneg : 0 ≤ offset.toInt)
    (news : ¬ Repeats file buf offset) :
    written file (difference file (part file buf offset)
      (offset + Int64.ofNat (zeroes (difference file buf offset))))
        (offset + Int64.ofNat (zeroes (difference file buf offset))) = written file buf offset := by
  have left := zeroes_lt_of_not_repeats news
  have length := length_difference_part file buf offset
    (offset + Int64.ofNat (zeroes (difference file buf offset)))
  have nonempty : buf ≠ [] := List.length_pos_iff.mp (by omega)
  have start := toInt_add_ofNat nonneg (show zeroes (difference file buf offset) < 2 ^ 63 by omega)
  have cut := trailing_cases file buf offset
  by_cases fits : offset.toInt + buf.length ≤ offMax
  · have small : offMax < 2 ^ 63 := by decide
    rw [if_pos (by omega)] at start
    rw [written_of_fits nonneg nonempty fits,
      written_of_fits (by omega) (List.length_pos_iff.mp (by omega)) (by omega)]
    have at_part : (offset + Int64.ofNat (zeroes (difference file buf offset))).toInt.toNat =
        offset.toInt.toNat + zeroes (difference file buf offset) := by omega
    rw [at_part]
    refine splice_middle (fun i low => ?_) (fun i inside => ?_) (fun i high inside => ?_) (by omega) ?_
    · exact (difference_eq_zero (by omega)).mp (getElem?_of_lt_zeroes low)
    · exact getElem?_difference_part at_part (by omega)
    · refine (difference_eq_zero inside).mp (getElem?_of_zeroes_reverse ?_ (by rw [length_difference]; exact inside))
      rw [length_difference]
      rw [length] at high
      unfold trailing at high
      split at high <;> omega
    · rcases cut with whole | reaches | none
      · left; omega
      · exact Or.inr reaches
      · exact absurd none nonempty
  · -- the write fails, and so does what is sent of it: nothing was cut off its end
    have failed : written file buf offset = file := written_of_not_fits (Or.inr (Or.inr (by omega)))
    rw [failed]
    apply written_of_not_fits
    split at start
    · rcases cut with whole | reaches | none
      · exact Or.inr (Or.inr (by omega))
      · omega
      · exact absurd none nonempty
    · have high := offset.toInt_lt
      exact Or.inr (Or.inl (by omega))

/-- A buffer that repeats the file to its end leaves nothing to send, and the
slice that takes it out runs backwards. -/
theorem buildCall_of_repeats_within (path : Path) (nonempty : buf ≠ []) (same : Repeats file buf offset)
    (full : (overlap file buf offset).length = buf.length) :
    ∃ message, buildCall true true path file buf offset = .error (.panic message) := by
  have positive := List.length_pos_iff.mpr nonempty
  have front := zeroes_difference_eq_length.mpr same
  have back : trailing file buf offset = buf.length := by
    rw [trailing, if_pos full, ← length_difference file buf offset, ← List.length_reverse,
      zeroes_eq_length, List.length_reverse]
    intro i inside
    rw [List.getElem?_reverse inside]
    exact zeroes_eq_length.mp front _ (by omega)
  rw [length_difference] at front
  rw [buildCall_of_overlap path (List.length_pos_iff.mp (full ▸ positive)), front, back, slice, if_neg (by omega)]
  exact ⟨_, rfl⟩

/-- One that repeats it and goes on with zeros is sent as an empty difference. -/
theorem buildCall_of_repeats_beyond (path : Path) (same : Repeats file buf offset)
    (some_old : overlap file buf offset ≠ []) (beyond : (overlap file buf offset).length ≠ buf.length) :
    buildCall true true path file buf offset =
      .ok (.diffWrite path (offset + Int64.ofNat buf.length) [], difference file buf offset) := by
  have front := zeroes_difference_eq_length.mpr same
  rw [length_difference] at front
  rw [buildCall_of_overlap path some_old, front, trailing, if_neg beyond, slice,
    if_pos ⟨le_refl _, (length_difference ..).ge⟩, Nat.sub_zero,
    List.drop_eq_nil_of_le (by rw [List.length_take]; omega)]
  rfl

theorem length_overlap (file : File) (buf : List UInt8) (offset : Int64) :
    (overlap file buf offset).length = min buf.length (file.length - offset.toInt.toNat) := by
  rw [overlap, List.length_take, List.length_drop]

/-- An empty difference changes nothing. -/
theorem applyCall_diffWrite_nil (path : Path) (file : File) (offset : Int64) :
    applyCall file (.diffWrite path offset []) = .ok file := by
  rw [applyCall_diffWrite, written_of_not_fits]
  exact Or.inl (List.length_eq_zero_iff.mp (length_difference ..))

end

/-- The call is built, and a replica with the same file is left with what the
plain write makes. -/
def Reconstructs (readable : Bool) (path : Path) (file : File) (buf : List UInt8) (offset : Int64) : Prop :=
  ∃ call left, buildCall true readable path file buf offset = .ok (call, left) ∧
    applyCall file call = .ok (written file buf offset)

/-- A write of a repeated buffer past the end of the file is longer than the file. -/
theorem written_ne_of_beyond {file : File} {buf : List UInt8} {offset : Int64} (nonneg : 0 ≤ offset.toInt)
    (nonempty : buf ≠ []) (fits : offset.toInt + buf.length ≤ offMax)
    (beyond : file.length < offset.toInt.toNat + buf.length) : written file buf offset ≠ file := by
  intro unchanged
  have grown := congrArg List.length unchanged
  rw [written_of_fits nonneg nonempty fits, length_splice] at grown
  omega

/-- A write sent as a difference is reconstructed unless it starts inside the
file, fits, and repeats it: then all of the difference is zero. Within the file
nothing can be cut out of it, and past the end the replica is not extended. A
file and a buffer are as long as the machine can make them. -/
theorem diff_write_reconstructs_iff (readable : Bool) (path : Path) (file : File) (buf : List UInt8)
    (offset : Int64) (held : file.length ≤ offMax) (sized : buf.length < 2 ^ 63) (nonneg : 0 ≤ offset.toInt)
    (nonempty : buf ≠ []) :
    Reconstructs readable path file buf offset ↔
      ¬ (readable = true ∧ offset.toInt.toNat < file.length ∧ offset.toInt + buf.length ≤ offMax ∧
        Repeats file buf offset) := by
  have positive := List.length_pos_iff.mpr nonempty
  have length := length_overlap file buf offset
  by_cases plain : readable = false ∨ overlap file buf offset = []
  · refine iff_of_true ⟨_, _, buildCall_plain path plain, rfl⟩ ?_
    rintro ⟨open_for_reading, inside, -, -⟩
    rcases plain with unreadable | none
    · rw [unreadable] at open_for_reading; cases open_for_reading
    · rw [none, List.length_nil] at length
      omega
  obtain ⟨open_for_reading, some_old⟩ := not_or.mp plain
  rw [Bool.not_eq_false] at open_for_reading
  subst open_for_reading
  have inside : offset.toInt.toNat < file.length := by
    have := List.length_pos_iff.mpr some_old
    omega
  by_cases same : Repeats file buf offset
  · by_cases full : (overlap file buf offset).length = buf.length
    · refine iff_of_false ?_ fun differs => differs ⟨rfl, inside, by omega, same⟩
      rintro ⟨call, left, built, -⟩
      obtain ⟨message, stuck⟩ := buildCall_of_repeats_within path nonempty same full
      rw [stuck] at built
      cases built
    · have built := buildCall_of_repeats_beyond path same some_old full
      have reconstructs : Reconstructs true path file buf offset ↔ written file buf offset = file := by
        constructor
        · rintro ⟨call, left, made, applied⟩
          rw [built] at made
          cases made
          rw [applyCall_diffWrite_nil] at applied
          exact (Except.ok.inj applied).symm
        · intro unchanged
          exact ⟨_, _, built, by rw [unchanged]; exact applyCall_diffWrite_nil ..⟩
      rw [reconstructs]
      by_cases fits : offset.toInt + buf.length ≤ offMax
      · exact iff_of_false (written_ne_of_beyond nonneg nonempty fits (by omega))
          fun differs => differs ⟨rfl, inside, fits, same⟩
      · exact iff_of_true (written_of_not_fits (Or.inr (Or.inr (by omega)))) fun repeated => fits repeated.2.2.1
  · exact iff_of_true ⟨_, _, buildCall_of_news path some_old same,
      (applyCall_diffWrite ..).trans (congrArg _ (written_part held sized nonneg same))⟩
      fun repeated => same repeated.2.2.2

/-- Writing over a byte what it holds already stops the handler, and writing one
more zero after it does not reach the replica. -/
theorem repeated_write_not_reconstructed :
    ¬ Reconstructs true [] [1] [1] 0 ∧ ¬ Reconstructs true [] [1] [1, 0] 0 := by
  constructor
  · rintro ⟨call, left, built, -⟩
    cases built
  · rintro ⟨call, left, built, applied⟩
    cases built
    cases applied

theorem changed_write_reconstructed : Reconstructs true [] [1, 2, 3] [1, 7, 0, 0] 0 :=
  (diff_write_reconstructs_iff true [] [1, 2, 3] [1, 7, 0, 0] 0 (by decide) (by decide) (by decide) (by decide)).mpr
    fun same => absurd (same.2.2.2 1 (by decide)) (by decide)

/-- The buffer is left as it was where nothing was read over it, or only zeros. -/
theorem difference_eq_self {file : File} {buf : List UInt8} {offset : Int64} :
    difference file buf offset = buf ↔ ∀ byte ∈ overlap file buf offset, byte = 0 := by
  constructor
  · intro same byte listed
    obtain ⟨i, there, rfl⟩ := List.getElem_of_mem listed
    have inside : i < buf.length := there.trans_le (length_overlap_le ..)
    have left : (difference file buf offset)[i]? = _ := getElem?_difference inside
    rw [same, List.getElem?_eq_getElem inside, ← getElem?_overlap file offset inside,
      List.getElem?_eq_getElem there, Option.getD_some, Option.some.injEq] at left
    rw [← UInt8.xor_right_inj buf[i], UInt8.xor_zero]
    exact left.symm
  · intro blank
    apply List.ext_getElem?
    intro i
    by_cases inside : i < buf.length
    · have zero : (file[offset.toInt.toNat + i]?).getD 0 = 0 := by
        rw [← getElem?_overlap file offset inside]
        cases held : (overlap file buf offset)[i]? with
        | none => rfl
        | some byte => exact blank byte (List.mem_of_getElem? held)
      rw [getElem?_difference inside, zero, UInt8.xor_zero, List.getElem?_eq_getElem inside]
    · rw [List.getElem?_eq_none (by rw [length_difference]; omega), List.getElem?_eq_none (by omega)]

/-- A write is told from the file it leaves. -/
theorem splice_inj {file : File} {start : ℕ} {left right : List UInt8} (same_length : left.length = right.length) :
    splice file start left = splice file start right ↔ left = right := by
  refine ⟨fun same => ?_, fun same => same ▸ rfl⟩
  have held : Holds (splice file start right) start left := same ▸ holds_splice_self file start left
  have expected := holds_splice_self file start right
  apply List.ext_getElem?
  intro i
  by_cases inside : i < left.length
  · rw [← held i inside, expected i (same_length ▸ inside)]
  · rw [List.getElem?_eq_none (by omega), List.getElem?_eq_none (by omega)]

/-- What is left in the buffer is what is written to the server's own file. -/
theorem doWrite_ok (made : doWrite diffWrites readable path file buf offset = .ok (call, after)) :
    ∃ left, buildCall diffWrites readable path file buf offset = .ok (call, left) ∧
      after = written file left offset := by
  obtain ⟨⟨call', left⟩, built, rest⟩ := Machine.bind_ok.mp made
  cases rest
  exact ⟨left, built, rfl⟩

/-- The buffer a completed handler leaves. -/
theorem left_of_buildCall (built : buildCall true true path file buf offset = .ok (call, left)) :
    left = difference file buf offset := by
  by_cases none : overlap file buf offset = []
  · rw [buildCall_plain path (Or.inr none)] at built
    cases built
    exact (difference_eq_self.mpr (none ▸ fun byte listed => absurd listed List.not_mem_nil)).symm
  · rw [buildCall_of_overlap path none] at built
    cases taken : slice (difference file buf offset) (zeroes (difference file buf offset))
        (buf.length - trailing file buf offset) with
    | error failure => rw [taken] at built; cases built
    | ok part => rw [taken] at built; cases built; rfl

/-- The handler overwrites the caller's buffer with the difference and then
writes that buffer to its own file, which is what the plain write leaves only
when nothing was read, when the write fails, or over bytes that were all zero. -/
theorem diff_write_local_iff (readable : Bool) (path : Path) (file : File) (buf : List UInt8) (offset : Int64)
    (nonneg : 0 ≤ offset.toInt) (nonempty : buf ≠ [])
    (completes : doWrite true readable path file buf offset = .ok (call, after))
    (plain : doWrite false readable path file buf offset = .ok (other, expected)) :
    after = expected ↔
      readable = false ∨ offMax < offset.toInt + buf.length ∨ ∀ byte ∈ overlap file buf offset, byte = 0 := by
  cases plain
  obtain ⟨left, built, rfl⟩ := doWrite_ok completes
  cases readable with
  | false =>
    rw [buildCall_plain path (Or.inl rfl)] at built
    cases built
    exact iff_of_true rfl (Or.inl rfl)
  | true =>
    rw [left_of_buildCall built, ← difference_eq_self]
    have length := length_difference file buf offset
    by_cases fits : offset.toInt + buf.length ≤ offMax
    · rw [written_of_fits nonneg nonempty fits, written_of_fits nonneg (by grind) (by omega), splice_inj length]
      constructor
      · exact fun same => Or.inr (Or.inr same)
      · rintro (unreadable | beyond | same)
        · cases unreadable
        · omega
        · exact same
    · rw [written_of_not_fits (Or.inr (Or.inr (by omega))), written_of_not_fits (Or.inr (Or.inr (by omega)))]
      exact iff_of_true rfl (Or.inr (Or.inl (by omega)))

/-- Over a byte `1`, a `3` is sent as a `2`, and a `2` is what the server keeps. -/
theorem difference_written_locally :
    doWrite true true [] [1] [3] 0 = .ok (.diffWrite [] 0 [2], [2]) ∧
      doWrite false true [] [1] [3] 0 = .ok (.write [] 0 [3], [3]) := ⟨rfl, rfl⟩

theorem blank_overlap_written_locally : ∃ call after other expected,
    doWrite true true [] [0, 0] [3] 0 = .ok (call, after) ∧
      doWrite false true [] [0, 0] [3] 0 = .ok (other, expected) ∧ after = expected :=
  ⟨_, _, _, _, rfl, rfl, (diff_write_local_iff true [] [0, 0] [3] 0 (by decide) (by decide) rfl rfl).mpr
    (Or.inr (Or.inr fun _ (listed : _ ∈ [(0 : UInt8)]) => List.mem_singleton.mp listed))⟩

end Fsyncer.DiffWrites
