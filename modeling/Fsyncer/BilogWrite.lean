import Fsyncer.Base.Machine
import Fsyncer.BilogGuard

/-! When the entries of writes and truncations can be applied both ways. The record
of the new state of a write is made with length zero and an unpadded buffer of
overwritten bytes, while `apply` checks the length and the padded buffer it is
about to write; so the guard passes only where these differences leave the checksum
unchanged. A truncation reads the bytes beyond the end of the file that it is about
to extend, and there are none. -/
namespace Fsyncer.Bilog
open FileTree Vfs Wire Crc32 ByteFile Machine

/-- The bytes of `s` that a write of `count` bytes at `offset` replaces. -/
def overwritten (s : File) (offset count : Nat) : List UInt8 := (s.drop offset).take count

/-- Filled up with zeros to the length of the write. -/
def padded (bytes : List UInt8) (count : Nat) : List UInt8 :=
  bytes ++ List.replicate (count - bytes.length) 0

theorem length_overwritten (s : File) (offset count : Nat) :
    (overwritten s offset count).length = min count (s.length - offset) := by
  rw [overwritten, List.length_take, List.length_drop]

theorem getElem?_overwritten (s : File) (offset count i : Nat) :
    (overwritten s offset count)[i]? = if i < count then s[offset + i]? else none := by
  rw [overwritten, List.getElem?_take]
  split
  · rw [List.getElem?_drop]
  · rfl

theorem overwritten_splice (s : File) (offset : Nat) (buf : List UInt8) :
    overwritten (splice s offset buf) offset buf.length = buf := by
  apply List.ext_getElem?
  intro i
  rw [getElem?_overwritten]
  split
  · next inside => rw [getElem?_splice_inside (by omega) (by omega), Nat.add_sub_cancel_left]
  · next beyond => rw [List.getElem?_eq_none (by omega)]

theorem getElem?_padded (s : File) (offset count i : Nat) (inside : i < count) :
    (padded (overwritten s offset count) count)[i]? = some (s[offset + i]?.getD 0) := by
  have bound := length_overwritten s offset count
  rw [padded]
  by_cases held : offset + i < s.length
  · rw [List.getElem?_append_left (by omega), getElem?_overwritten, if_pos inside,
      List.getElem?_eq_getElem held]
    rfl
  · rw [List.getElem?_append_right (by omega), List.getElem?_replicate_of_lt (by omega),
      List.getElem?_eq_none (by omega)]
    rfl

/-- Writing the replaced bytes back and cutting to the old length undoes a write. -/
theorem setLen_splice_back (s : File) (offset : Nat) (buf : List UInt8) :
    setLen (splice (splice s offset buf) offset
      (padded (overwritten s offset buf.length) buf.length)) s.length = s := by
  have bound := length_overwritten s offset buf.length
  have len : (padded (overwritten s offset buf.length) buf.length).length = buf.length := by
    rw [padded, List.length_append, List.length_replicate]
    omega
  apply List.ext_getElem?
  intro i
  rw [getElem?_setLen]
  split
  · next inside =>
    rw [if_pos (by rw [length_splice, length_splice]; omega)]
    by_cases touched : offset ≤ i ∧ i < offset + buf.length
    · rw [getElem?_splice_inside touched.1 (by omega), getElem?_padded _ _ _ _ (by omega),
        Nat.add_sub_cancel' touched.1, List.getElem?_eq_getElem inside]
      rfl
    · rw [getElem?_splice_outside (by rw [length_splice]; omega) (by omega),
        getElem?_splice_outside inside (by omega)]
  · next beyond => rw [List.getElem?_eq_none (by omega)]

/-- Inside the file there is nothing to pad and nothing to cut. -/
theorem splice_back (inside : offset + buf.length ≤ s.length) :
    splice (splice s offset buf) offset (padded (overwritten s offset buf.length) buf.length) = s := by
  have undone := setLen_splice_back s offset buf
  have bound := length_overwritten s offset buf.length
  have len : (splice (splice s offset buf) offset
      (padded (overwritten s offset buf.length) buf.length)).length = s.length := by
    rw [length_splice, length_splice, padded, List.length_append, List.length_replicate]
    omega
  rwa [setLen, len, Nat.sub_self, List.replicate_zero, List.append_nil,
    List.take_of_length_le (by omega)] at undone

/-- The buffer of an entry: the written bytes, changed where they replace others. -/
def changed (buf before : List UInt8) : List UInt8 := xorBytes buf before ++ buf.drop before.length

theorem xorBuf_eq (shorter : before.length ≤ buf.length) : xorBuf buf before = .ok (changed buf before) :=
  if_pos shorter

@[simp] theorem length_changed (shorter : before.length ≤ buf.length) :
    (changed buf before).length = buf.length := by
  rw [changed, List.length_append, length_xorBytes, List.length_drop]
  omega

theorem changed_nil (buf : List UInt8) : changed buf [] = buf := by
  simp [changed, xorBytes]

theorem changed_changed (shorter : before.length ≤ buf.length) : changed (changed buf before) before = buf := by
  induction before generalizing buf with
  | nil => rw [changed_nil, changed_nil]
  | cons old before ih =>
    cases buf with
    | nil => simp at shorter
    | cons new buf =>
      have rest := ih (Nat.le_of_succ_le_succ shorter)
      show (new ^^^ old ^^^ old) :: changed (changed buf before) before = new :: buf
      rw [rest, UInt8.xor_assoc, UInt8.xor_self, UInt8.xor_zero]

theorem changed_back (shorter : before.length ≤ buf.length) :
    changed (changed buf before) buf = padded before buf.length := by
  induction before generalizing buf with
  | nil =>
    rw [changed_nil, changed, List.drop_length, List.append_nil, padded, List.nil_append,
      List.length_nil, Nat.sub_zero]
    induction buf with
    | nil => rfl
    | cons new buf ih =>
      rw [List.length_cons, List.replicate_succ, ← ih (Nat.zero_le _)]
      show (new ^^^ new) :: xorBytes buf buf = 0 :: xorBytes buf buf
      rw [UInt8.xor_self]
  | cons old before ih =>
    cases buf with
    | nil => simp at shorter
    | cons new buf =>
      have rest := ih (Nat.le_of_succ_le_succ shorter)
      have pad : padded (old :: before) (new :: buf).length = old :: padded before buf.length := by
        rw [padded, padded, List.length_cons, List.length_cons, Nat.add_sub_add_right, List.cons_append]
      rw [pad]
      show (new ^^^ old ^^^ new) :: changed (changed buf before) buf = old :: padded before buf.length
      rw [rest, UInt8.xor_comm new old, UInt8.xor_assoc, UInt8.xor_self, UInt8.xor_zero]

/-- `path` leads to a regular file with the contents `s`. -/
structure OnFile (host : Host) (t : Tree) (path : Path) (fd : Nat) (s : File) : Prop where
  opened : t.openFile (translatePath path host.fspath) = .ok fd
  held : t.contents fd = .ok s
  small : s.length ≤ offMax

theorem OnFile.readFile (on : OnFile host t path fd s) : readFile path host t = .ok s := by
  rw [Bilog.readFile, on.opened, ok_bind, on.held]
  rfl

private theorem toNat_ofNat (small : n ≤ offMax) : (Int64.ofNat n).toUInt64.toNat = n := by
  have bound : n < 2 ^ 64 := by unfold offMax at small; omega
  simpa using bound

private theorem toInt_ofNat (small : n ≤ offMax) : (Int64.ofNat n).toInt = n :=
  Int64.toInt_ofNat_of_lt (by unfold offMax at small; omega)

private theorem ofNat_lt (small : a ≤ offMax) (small' : b ≤ offMax) :
    Int64.ofNat a < Int64.ofNat b ↔ a < b := by
  rw [Int64.lt_iff_toInt_lt, toInt_ofNat small, toInt_ofNat small', Int.ofNat_lt]

theorem hashI64_ofNat (small : n ≤ offMax) : hashI64 (Int64.ofNat n) = leBytes 8 n := by
  rw [hashI64, toNat_ofNat small]

/-- The record of the state that an entry meets. -/
theorem OnFile.old (on : OnFile host t path fd s) (small : offset ≤ offMax) (count : Nat) :
    BilogWrite.old path (Int64.ofNat offset) count host t =
      .ok (.state path (Int64.ofNat offset) (overwritten s offset count) (Int64.ofNat s.length)) := by
  rw [BilogWrite.old, on.readFile, ok_bind, toNat_ofNat small]
  dsimp only
  split
  · next inside =>
    rw [readRange, readExactAt, if_pos (by omega), ok_bind, overwritten, Nat.min_comm, ← List.length_drop,
      ← List.take_eq_take_min]
    rfl
  · next beyond =>
    rw [ok_bind, overwritten, List.drop_eq_nil_of_le (by omega), List.take_nil]
    rfl

/-- The length of the file once the write has run. -/
def sizeAfter (s : File) (offset : Nat) (buf : List UInt8) : Nat := max s.length (offset + buf.length)

/-- The entry of a write of `buf` at `offset` on the contents `s`. -/
def writeEntry (path : Path) (s : File) (offset : Nat) (buf : List UInt8) : BilogWrite where
  path := path
  offset := Int64.ofNat offset
  buf := changed buf (overwritten s offset buf.length)
  length := Int64.ofNat (sizeAfter s offset buf) ^^^ Int64.ofNat s.length
  checksum := BilogWrite.crc32 buf 0 ^^^
    BilogWrite.crc32 (overwritten s offset buf.length) (Int64.ofNat s.length)

theorem OnFile.tryFrom (on : OnFile host t path fd s) (small : offset + buf.length ≤ offMax) :
    BilogEntry.tryFrom (.write path (Int64.ofNat offset) buf) host t =
      .ok (.write (writeEntry path s offset buf)) := by
  have short : (overwritten s offset buf.length).length ≤ buf.length := by
    rw [length_overwritten]
    omega
  have size : (if Int64.ofNat offset + Int64.ofNat buf.length < Int64.ofNat s.length then Int64.ofNat s.length
      else Int64.ofNat offset + Int64.ofNat buf.length) = Int64.ofNat (sizeAfter s offset buf) := by
    simp only [← Int64.ofNat_add, ofNat_lt small on.small, sizeAfter]
    split
    · rw [Nat.max_eq_left (by omega)]
    · rw [Nat.max_eq_right (by omega)]
  rw [BilogEntry.tryFrom, BilogWrite.new, ok_bind, on.old (by omega), ok_bind, BilogWrite.xor]
  simp only [BilogWrite.state, xorBuf_eq short, ok_bind, pure, Except.pure]
  rw [writeEntry, ← size]
  congr

theorem crc32_length_eq (buf : List UInt8) (small : size ≤ offMax) :
    BilogWrite.crc32 buf (Int64.ofNat size) = BilogWrite.crc32 buf 0 ↔ feed 0#32 (leBytes 8 size) = 0#32 := by
  have zero : hashI64 0 = leBytes 8 0 := rfl
  rw [BilogWrite.crc32, BilogWrite.crc32, checksumIeee_append_eq _ _ _ (by simp), hashI64_ofNat small, zero,
    ← leBytes_xor, Nat.xor_zero]

theorem crc32_buffer_eq (first second : List UInt8) (length : Int64) :
    BilogWrite.crc32 first length = BilogWrite.crc32 second length ↔
      checksumIeee (hashSlice first) = checksumIeee (hashSlice second) :=
  checksumIeee_append_right ..

theorem target_eq {x o : BilogWrite} (short : o.buf.length ≤ x.buf.length) :
    x.target o = .ok (changed x.buf o.buf) := by
  rw [BilogWrite.target]
  split
  · next appending => rw [appending, changed_nil]
  · exact xorBuf_eq short

theorem apply_of_target {x o : BilogWrite} (target : x.target o = .ok buf)
    (passes : BilogWrite.crc32 buf (x.length ^^^ o.length) ^^^ o.checksum = x.checksum) :
    x.apply o = if o.length ≤ x.length ^^^ o.length then .ok (.write x.path x.offset buf)
      else .ok (.truncatingWrite x.path x.offset buf (o.length ^^^ x.length)) := by
  rw [BilogWrite.apply, target, ok_bind, if_neg (not_not.mpr passes)]

theorem apply_mismatch {x o : BilogWrite} (target : x.target o = .ok buf)
    (fails : BilogWrite.crc32 buf (x.length ^^^ o.length) ^^^ o.checksum ≠ x.checksum) :
    x.apply o = .error mismatch := by
  rw [BilogWrite.apply, target, ok_bind, if_pos fails]

private theorem xor_cancel (a b : Int64) : a ^^^ b ^^^ b = a := by
  rw [Int64.xor_assoc, Int64.xor_self, Int64.xor_zero]

section Apply

variable {s : File} {offset : Nat} {buf : List UInt8}

theorem short_overwritten (s : File) (offset : Nat) (buf : List UInt8) :
    (overwritten s offset buf.length).length ≤ buf.length := by
  rw [length_overwritten]
  omega

/-- On the old contents the entry is applied with the written bytes, provided the
new length, recorded as zero, does not show in the checksum. -/
theorem OnFile.apply_old (on : OnFile host t path fd s) (small : offset + buf.length ≤ offMax) :
    (BilogEntry.write (writeEntry path s offset buf)).apply host t =
      if feed 0#32 (leBytes 8 (sizeAfter s offset buf)) = 0#32
      then .ok (.write path (Int64.ofNat offset) buf) else .error mismatch := by
  have short := short_overwritten s offset buf
  have bound : sizeAfter s offset buf ≤ offMax := max_le on.small small
  have count : (writeEntry path s offset buf).buf.length = buf.length := length_changed short
  have target : (writeEntry path s offset buf).target
      (.state path (Int64.ofNat offset) (overwritten s offset buf.length) (Int64.ofNat s.length)) = .ok buf := by
    rw [target_eq (by rw [count]; exact short)]
    exact congrArg _ (changed_changed short)
  have length : (writeEntry path s offset buf).length ^^^ Int64.ofNat s.length =
      Int64.ofNat (sizeAfter s offset buf) := xor_cancel _ _
  show (BilogWrite.old path (Int64.ofNat offset) _ host t >>= fun o =>
    (writeEntry path s offset buf).apply o) = _
  rw [count, on.old (by omega), ok_bind]
  split
  · next vanishes =>
    have same := (crc32_length_eq buf bound).mpr vanishes
    rw [apply_of_target target (by rw [BilogWrite.state, length, same]; rfl)]
    refine if_pos ?_
    rw [BilogWrite.state, length, Int64.le_iff_toInt_le, toInt_ofNat on.small, toInt_ofNat bound]
    exact Int.ofNat_le.mpr (le_max_left _ _)
  · next shows =>
    apply apply_mismatch target
    rw [BilogWrite.state, length]
    intro equal
    exact shows ((crc32_length_eq buf bound).mp ((UInt32.xor_left_inj _).mp equal))

/-- On the new contents it is applied with the replaced bytes, padded, provided
neither the new length nor the padding shows in the checksum. -/
theorem OnFile.apply_new (on : OnFile host t path fd (splice s offset buf))
    (before : s.length ≤ offMax) (small : offset + buf.length ≤ offMax) :
    (BilogEntry.write (writeEntry path s offset buf)).apply host t =
      if BilogWrite.crc32 (padded (overwritten s offset buf.length) buf.length) (Int64.ofNat s.length) ^^^
          BilogWrite.crc32 buf (Int64.ofNat (sizeAfter s offset buf)) =
        BilogWrite.crc32 buf 0 ^^^ BilogWrite.crc32 (overwritten s offset buf.length) (Int64.ofNat s.length)
      then
        if offset + buf.length ≤ s.length then
          .ok (.write path (Int64.ofNat offset) (padded (overwritten s offset buf.length) buf.length))
        else .ok (.truncatingWrite path (Int64.ofNat offset)
          (padded (overwritten s offset buf.length) buf.length) (Int64.ofNat s.length))
      else .error mismatch := by
  have short := short_overwritten s offset buf
  have bound : sizeAfter s offset buf ≤ offMax := max_le before small
  have size : (splice s offset buf).length = sizeAfter s offset buf := length_splice ..
  have count : (writeEntry path s offset buf).buf.length = buf.length := length_changed short
  have target : (writeEntry path s offset buf).target (.state path (Int64.ofNat offset) buf
      (Int64.ofNat (sizeAfter s offset buf))) = .ok (padded (overwritten s offset buf.length) buf.length) := by
    rw [target_eq (by rw [count]; exact le_refl _)]
    exact congrArg _ (changed_back short)
  have length : (writeEntry path s offset buf).length ^^^ Int64.ofNat (sizeAfter s offset buf) =
      Int64.ofNat s.length := by
    rw [writeEntry, Int64.xor_comm, ← Int64.xor_assoc, Int64.xor_self, Int64.zero_xor]
  have order : Int64.ofNat (sizeAfter s offset buf) ≤ Int64.ofNat s.length ↔ offset + buf.length ≤ s.length := by
    rw [Int64.le_iff_toInt_le, toInt_ofNat before, toInt_ofNat bound, Int.ofNat_le, sizeAfter]
    omega
  show (BilogWrite.old path (Int64.ofNat offset) _ host t >>= fun o =>
    (writeEntry path s offset buf).apply o) = _
  rw [count, on.old (by omega), ok_bind, overwritten_splice, size]
  split
  · next passes =>
    rw [apply_of_target target (by rw [BilogWrite.state, length]; exact passes)]
    simp only [BilogWrite.state, length, order]
    rw [Int64.xor_comm, length]
    rfl
  · next fails =>
    apply apply_mismatch target
    rw [BilogWrite.state, length]
    exact fails

theorem OnFile.xmpWrite (on : OnFile host t path fd s) (nonempty : buf ≠ [])
    (small : offset + buf.length ≤ offMax) :
    xmpWrite t fd buf (Int64.ofNat offset) =
      ((Int32.ofNat buf.length).toInt, t.store fd (splice s offset buf)) := by
  have written : t.pwrite fd buf (offset : Int) = .ok (t.store fd (splice s offset buf)) := by
    rw [Tree.pwrite, on.held, ok_bind, if_neg (by omega), if_neg nonempty, if_pos (by omega), Int.toNat_natCast]
  rw [Vfs.xmpWrite, toInt_ofNat (by omega), written]

theorem OnFile.dispatch_write (on : OnFile host t path fd s) (nonempty : buf ≠ [])
    (small : offset + buf.length ≤ offMax) :
    dispatch host.process host.fspath t (.write path (Int64.ofNat offset) buf) =
      some ((Int32.ofNat buf.length).toInt, t.store fd (splice s offset buf)) := by
  rw [dispatch, withFile, on.opened]
  exact congrArg some (on.xmpWrite nonempty small)

/-- The file is cut only if the number of bytes written is not negative as a C integer. -/
theorem OnFile.dispatch_truncatingWrite (on : OnFile host t path fd s) (nonempty : buf ≠ [])
    (small : offset + buf.length ≤ offMax) (small' : length ≤ offMax) :
    dispatch host.process host.fspath t (.truncatingWrite path (Int64.ofNat offset) buf (Int64.ofNat length)) =
      some ((Int32.ofNat buf.length).toInt, t.store fd (if (Int32.ofNat buf.length).toInt < 0
        then splice s offset buf else setLen (splice s offset buf) length)) := by
  have cut : (t.store fd (splice s offset buf)).ftruncate fd (length : Int) =
      .ok (t.store fd (setLen (splice s offset buf) length)) := by
    rw [Tree.ftruncate, Tree.contents_store on.held, ok_bind, if_neg (by omega), if_pos (by omega),
      Int.toNat_natCast, Tree.store_store]
  rw [dispatch, withFile, on.opened]
  simp only [on.xmpWrite nonempty small, toInt_ofNat small', cut]
  split
  · rfl
  · rfl

end Apply

/-- Applied on `t` and dispatched, the entry leaves the contents `after` in the file. -/
def Turns (host : Host) (entry : BilogEntry) (t : Tree) (fd : Nat) (after : File) : Prop :=
  ∃ call code u, entry.apply host t = .ok call ∧
    dispatch host.process host.fspath t call = some (code, u) ∧ u.contents fd = .ok after

/-- The new length leaves no remainder, the padding of the replaced bytes does not
change their checksum, and the write of an extending buffer is not taken for an error. -/
def WriteReversible (s : File) (offset : Nat) (buf : List UInt8) : Prop :=
  feed 0#32 (leBytes 8 (sizeAfter s offset buf)) = 0#32 ∧
  checksumIeee (hashSlice (padded (overwritten s offset buf.length) buf.length)) =
    checksumIeee (hashSlice (overwritten s offset buf.length)) ∧
  (s.length < offset + buf.length → 0 ≤ (Int32.ofNat buf.length).toInt)

private theorem turns_old (on : OnFile host t path fd s) (nonempty : buf ≠ [])
    (small : offset + buf.length ≤ offMax) :
    Turns host (.write (writeEntry path s offset buf)) t fd (splice s offset buf) ↔
      feed 0#32 (leBytes 8 (sizeAfter s offset buf)) = 0#32 := by
  have applied := on.apply_old small
  constructor
  · rintro ⟨call, code, u, shown, -, -⟩
    rw [applied] at shown
    split at shown
    · next vanishes => exact vanishes
    · cases shown
  · intro vanishes
    rw [if_pos vanishes] at applied
    exact ⟨_, _, _, applied, on.dispatch_write nonempty small, Tree.contents_store on.held _⟩

private theorem turns_new (on : OnFile host t path fd (splice s offset buf)) (before : s.length ≤ offMax)
    (nonempty : buf ≠ []) (small : offset + buf.length ≤ offMax)
    (vanishes : feed 0#32 (leBytes 8 (sizeAfter s offset buf)) = 0#32) :
    Turns host (.write (writeEntry path s offset buf)) t fd s ↔
      checksumIeee (hashSlice (padded (overwritten s offset buf.length) buf.length)) =
        checksumIeee (hashSlice (overwritten s offset buf.length)) ∧
      (s.length < offset + buf.length → 0 ≤ (Int32.ofNat buf.length).toInt) := by
  have applied := on.apply_new before small
  have bound : sizeAfter s offset buf ≤ offMax := max_le before small
  rw [(crc32_length_eq buf bound).mpr vanishes, UInt32.xor_comm] at applied
  simp only [UInt32.xor_right_inj, crc32_buffer_eq] at applied
  have count : (padded (overwritten s offset buf.length) buf.length).length = buf.length := by
    have short := short_overwritten s offset buf
    rw [padded, List.length_append, List.length_replicate]
    omega
  have filled : padded (overwritten s offset buf.length) buf.length ≠ [] :=
    List.ne_nil_of_length_pos (by rw [count]; exact List.length_pos_iff.mpr nonempty)
  by_cases collides : checksumIeee (hashSlice (padded (overwritten s offset buf.length) buf.length)) =
      checksumIeee (hashSlice (overwritten s offset buf.length))
  · rw [if_pos collides] at applied
    by_cases inside : offset + buf.length ≤ s.length
    · rw [if_pos inside] at applied
      have written := on.dispatch_write filled (by rw [count]; exact small)
      refine ⟨fun _ => ⟨collides, fun extends_ => absurd extends_ (by omega)⟩, fun _ => ?_⟩
      refine ⟨_, _, _, applied, written, ?_⟩
      rw [splice_back inside]
      exact Tree.contents_store on.held s
    · rw [if_neg inside] at applied
      have written := on.dispatch_truncatingWrite filled (by rw [count]; exact small) before
      rw [count] at written
      constructor
      · rintro ⟨call, code, u, shown, dispatched, held⟩
        rw [applied] at shown
        cases shown
        rw [written] at dispatched
        cases dispatched
        refine ⟨collides, fun _ => ?_⟩
        by_contra negative
        -- the write was taken for an error, so the file keeps the length it had grown to
        rw [if_pos (by omega), Tree.contents_store on.held] at held
        have same := congrArg List.length (Except.ok.inj held)
        rw [length_splice, length_splice, count] at same
        omega
      · rintro ⟨-, counted⟩
        refine ⟨_, _, _, applied, written, ?_⟩
        rw [if_neg (by have := counted (by omega); omega), setLen_splice_back]
        exact Tree.contents_store on.held s
  · rw [if_neg collides] at applied
    constructor
    · rintro ⟨call, code, u, shown, -, -⟩
      rw [applied] at shown
      cases shown
    · rintro ⟨same, -⟩
      exact absurd same collides

/-- The entry of a write turns the old contents into the new ones and the new ones
into the old ones exactly for the writes that are reversible in this sense. -/
theorem write_entry_reversible_iff (on : OnFile host t path fd s)
    (on' : OnFile host t' path fd' (splice s offset buf)) (nonempty : buf ≠ [])
    (small : offset + buf.length ≤ offMax) :
    (∃ entry, BilogEntry.tryFrom (.write path (Int64.ofNat offset) buf) host t = .ok entry ∧
      Turns host entry t fd (splice s offset buf) ∧ Turns host entry t' fd' s) ↔
    WriteReversible s offset buf := by
  constructor
  · rintro ⟨entry, made, forth, back⟩
    rw [on.tryFrom small] at made
    cases made
    have vanishes := (turns_old on nonempty small).mp forth
    exact ⟨vanishes, (turns_new on' on.small nonempty small vanishes).mp back⟩
  · rintro ⟨vanishes, rest⟩
    exact ⟨_, on.tryFrom small, (turns_old on nonempty small).mpr vanishes,
      (turns_new on' on.small nonempty small vanishes).mpr rest⟩

theorem onFile_soloFile (small : data.length ≤ offMax) : OnFile plainHost (soloFile data) [[102]] 1 data :=
  ⟨rfl, rfl, small⟩

/-- One byte appended to an empty file: the entry cannot even be applied again on
the state it was recorded on. -/
theorem first_byte_not_reversed :
    ¬ ∃ entry, BilogEntry.tryFrom (.write [[102]] (Int64.ofNat 0) [1]) plainHost (soloFile []) = .ok entry ∧
      Turns plainHost entry (soloFile []) 1 (splice [] 0 [1]) ∧
      Turns plainHost entry (soloFile (splice [] 0 [1])) 1 [] := by
  have on : OnFile plainHost (soloFile []) [[102]] 1 [] := onFile_soloFile (by decide)
  rintro ⟨entry, made, forth, -⟩
  rw [on.tryFrom (by decide)] at made
  cases made
  have vanishes := (turns_old on (by decide) (by decide)).mp forth
  exact absurd vanishes (by decide +kernel)

theorem first_byte_reversible_iff :
    (∃ entry, BilogEntry.tryFrom (.write [[102]] (Int64.ofNat 0) [1]) plainHost (soloFile []) = .ok entry ∧
      Turns plainHost entry (soloFile []) 1 (splice [] 0 [1]) ∧
      Turns plainHost entry (soloFile (splice [] 0 [1])) 1 []) ↔ WriteReversible [] 0 [1] :=
  write_entry_reversible_iff (onFile_soloFile (by decide)) (onFile_soloFile (by decide)) (by decide) (by decide)

/-! ### Truncation -/

section Truncate

variable {s : File} {n : Nat}

theorem OnFile.lstat (on : OnFile host t path fd s) :
    ∃ node, translateAndStat path host t = .ok node ∧ node.kind = .reg s := by
  obtain ⟨found, _⟩ := Tree.kind_of_openFile on.opened
  obtain ⟨node, held, kind⟩ := Tree.node_of_contents on.held
  have inode : t.inode? (translatePath path host.fspath) = some node := by
    rw [Tree.inode?, inodeIn, found, Option.bind_some, held]
  exact ⟨node, by rw [translateAndStat, Tree.lstat, inode], kind⟩

/-- The state met is recorded, unless the file is to be extended. -/
theorem OnFile.old_truncate (on : OnFile host t path fd s) (small : n ≤ offMax)
    (nsize : nsizeOf (Int64.ofNat s.length) = Int64.ofNat n) :
    BilogTruncate.old path nsizeOf host t = if s.length < n then .error (.io .unexpectedEof)
      else .ok (.state path (Int64.ofNat s.length) []) := by
  obtain ⟨node, stat, kind⟩ := on.lstat
  simp only [BilogTruncate.old, stat, lift, ok_bind, kind, Kind.size, nsize, ofNat_lt on.small small]
  split
  · next longer =>
    have some_bytes : (Int64.ofNat n - Int64.ofNat s.length).toUInt64.toNat ≠ 0 := by
      rw [← Int64.ofNat_sub _ _ (by omega), toNat_ofNat (by omega)]
      omega
    rw [on.readFile, ok_bind, readRange, readExactAt, toNat_ofNat on.small, if_neg (by omega)]
    rfl
  · rfl

/-- The entry of a truncation of the contents `s` to `n` bytes. -/
def truncateEntry (path : Path) (s : File) (n : Nat) : BilogTruncate where
  path := path
  size := Int64.ofNat s.length ^^^ Int64.ofNat n
  buf := []
  checksum := BilogTruncate.crc32 [] (Int64.ofNat n) ^^^ BilogTruncate.crc32 [] (Int64.ofNat s.length)

theorem OnFile.tryFrom_truncate (on : OnFile host t path fd s) (small : n ≤ offMax) :
    BilogEntry.tryFrom (.truncate path (Int64.ofNat n)) host t =
      if s.length < n then .error (.io .unexpectedEof) else .ok (.truncate (truncateEntry path s n)) := by
  rw [BilogEntry.tryFrom, BilogTruncate.new, ok_bind, on.old_truncate small rfl]
  split <;> rfl

/-- A file of `m` bytes that the entry leads to `k` bytes is never extended. -/
theorem OnFile.apply_truncate (on : OnFile host t path fd s) (small : k ≤ offMax)
    {x : BilogTruncate} (target : x.path = path) (empty : x.buf = [])
    (size : x.size ^^^ Int64.ofNat s.length = Int64.ofNat k)
    (checksum : x.checksum = BilogTruncate.crc32 [] (Int64.ofNat k) ^^^ BilogTruncate.crc32 [] (Int64.ofNat s.length)) :
    (BilogEntry.truncate x).apply host t = if s.length < k then .error (.io .unexpectedEof)
      else .ok (.truncate path (Int64.ofNat k)) := by
  rw [BilogEntry.apply, target, on.old_truncate small size]
  split
  · rfl
  · next shorter =>
    rw [ok_bind, BilogTruncate.apply]
    simp only [BilogTruncate.state, size, empty, checksum, target, ofNat_lt on.small small, shorter]
    rw [if_neg (not_not.mpr rfl), if_neg (fun extending => extending.1)]

theorem OnFile.dispatch_truncate (on : OnFile host t path fd s) (small : n ≤ offMax) :
    dispatch host.process host.fspath t (.truncate path (Int64.ofNat n)) = some (0, t.store fd (setLen s n)) := by
  rw [dispatch, Tree.truncate, on.opened, ok_bind, Tree.ftruncate, on.held, ok_bind, toInt_ofNat small,
    if_neg (by omega), if_pos (by omega), Int.toNat_natCast]
  rfl

/-- The entry of a truncation can be made and applied both ways only if it does not
change the length. -/
theorem truncate_entry_reversible_iff (on : OnFile host t path fd s) (on' : OnFile host t' path fd' (setLen s n))
    (small : n ≤ offMax) :
    (∃ entry, BilogEntry.tryFrom (.truncate path (Int64.ofNat n)) host t = .ok entry ∧
      Turns host entry t fd (setLen s n) ∧ Turns host entry t' fd' s) ↔ n = s.length := by
  have made := on.tryFrom_truncate small
  have forth := on.apply_truncate (x := truncateEntry path s n) small rfl rfl
    (by rw [truncateEntry, Int64.xor_comm (Int64.ofNat s.length), xor_cancel]) rfl
  have back := on'.apply_truncate (x := truncateEntry path s n) on.small rfl rfl
    (by rw [truncateEntry, length_setLen, xor_cancel]) (by rw [length_setLen]; exact UInt32.xor_comm _ _)
  rw [length_setLen] at back
  constructor
  · rintro ⟨entry, made', -, call, code, u, applied, -, -⟩
    rw [made] at made'
    split at made'
    · cases made'
    · next shorter =>
      cases made'
      rw [back] at applied
      split at applied
      · cases applied
      · next longer => omega
  · intro same
    rw [if_neg (by omega)] at made forth back
    refine ⟨_, made, ⟨_, _, _, forth, on.dispatch_truncate small, Tree.contents_store on.held _⟩, ?_⟩
    refine ⟨_, _, _, back, on'.dispatch_truncate on.small, ?_⟩
    have whole : setLen s s.length = s := by simp [setLen]
    rw [same, whole, whole]
    exact Tree.contents_store on'.held s

/-- A file cut to nothing: its byte is not in the entry, and the entry cannot be
applied on the result. A file cannot be extended at all. -/
theorem cut_file_not_restored :
    (¬ ∃ entry, BilogEntry.tryFrom (.truncate [[102]] (Int64.ofNat 0)) plainHost (soloFile [1]) = .ok entry ∧
      Turns plainHost entry (soloFile [1]) 1 (setLen [1] 0) ∧ Turns plainHost entry (soloFile (setLen [1] 0)) 1 [1]) ∧
    BilogEntry.tryFrom (.truncate [[102]] (Int64.ofNat 1)) plainHost (soloFile []) = .error (.io .unexpectedEof) := by
  refine ⟨?_, rfl⟩
  rintro ⟨entry, made, -, call, code, u, applied, -, -⟩
  cases made
  cases applied

theorem same_length_reversible_iff :
    (∃ entry, BilogEntry.tryFrom (.truncate [[102]] (Int64.ofNat 1)) plainHost (soloFile [1]) = .ok entry ∧
      Turns plainHost entry (soloFile [1]) 1 (setLen [1] 1) ∧ Turns plainHost entry (soloFile (setLen [1] 1)) 1 [1]) ↔
    1 = [(1 : UInt8)].length :=
  truncate_entry_reversible_iff (onFile_soloFile (by decide)) (onFile_soloFile (by decide)) (by decide)

end Truncate

end Fsyncer.Bilog
