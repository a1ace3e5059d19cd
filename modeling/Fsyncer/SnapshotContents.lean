import Fsyncer.SnapshotPartition

/-! The bytes that a snapshot holds of each file, and that calls change them as
they change the files: reading the extents of a file gives what was written,
cut and moved, and no other file is touched. -/
namespace Fsyncer.SnapshotContents
open Fsyncer.ByteFile (Failure IoError offMax readExactAt writeAllAt splice writeAllAt_ok)
open Fsyncer.FileTree (Path)
open Fsyncer.Machine Fsyncer.Spans Fsyncer.SnapshotBlocks Fsyncer.SnapshotExtents Fsyncer.SnapshotLayout
open Fsyncer.SnapshotPartition Fsyncer.SnapshotSpace Fsyncer.SnapshotStore Fsyncer.Vfs

/-! ### Copies -/

/-- `after` has `bytes` at `dest`, and is otherwise like `file`, as far as that
goes. -/
structure Overwrites (file : ByteFile.File) (dest : ℕ) (bytes : List UInt8) (after : ByteFile.File) : Prop where
  inside : ∀ i < bytes.length, after[dest + i]? = bytes[i]?
  outside : ∀ address < file.length, address < dest ∨ dest + bytes.length ≤ address → after[address]? = file[address]?
  longer : file.length ≤ after.length

theorem overwrites_of_write (wrote : writeAllAt file bytes dest = .ok after) : Overwrites file dest bytes after := by
  rcases writeAllAt_ok wrote with ⟨rfl, rfl⟩ | ⟨-, -, rfl⟩
  · exact ⟨fun i small => (by cases small), fun _ _ _ => rfl, Nat.le_refl _⟩
  · refine ⟨fun i small => ?_, fun address held apart => ByteFile.getElem?_splice_outside held apart, ?_⟩
    · rw [ByteFile.getElem?_splice_inside (by omega) (by omega), Nat.add_sub_cancel_left]
    · rw [ByteFile.length_splice]
      omega

/-- The bytes of a file between two addresses. -/
def slice (file : ByteFile.File) (source size : ℕ) : List UInt8 := (file.drop source).take size

theorem getElem?_slice (file : ByteFile.File) (source size : ℕ) (small : i < size) :
    (slice file source size)[i]? = file[source + i]? := by
  rw [slice, List.getElem?_take_of_lt small, List.getElem?_drop]

theorem length_slice {file : ByteFile.File} (inside : source + size ≤ file.length) : (slice file source size).length = size := by
  rw [slice, List.length_take, List.length_drop]
  omega

theorem slice_add (file : ByteFile.File) (source front back : ℕ) :
    slice file source (front + back) = slice file source front ++ slice file (source + front) back := by
  unfold slice
  rw [List.take_add, List.drop_drop]

/-- Two writes, one behind the other. -/
theorem Overwrites.append (first : Overwrites file dest front middle)
    (second : Overwrites middle (dest + front.length) back after) : Overwrites file dest (front ++ back) after := by
  refine ⟨fun i small => ?_, fun address held apart => ?_, first.longer.trans second.longer⟩
  · rw [List.length_append] at small
    by_cases early : i < front.length
    · have here := first.inside i early
      rw [List.getElem?_eq_getElem early] at here
      obtain ⟨inside, -⟩ := List.getElem?_eq_some_iff.mp here
      rw [second.outside _ inside (by omega), first.inside i early, List.getElem?_append_left early]
    · have here := second.inside (i - front.length) (by omega)
      rw [List.getElem?_append_right (by omega), ← here]
      congr 1
      omega
  · rw [List.length_append] at apart
    have longer := first.longer
    rw [second.outside address (by omega) (by omega), first.outside address held (by omega)]

theorem Overwrites.nil (file : ByteFile.File) (dest : ℕ) : Overwrites file dest [] file :=
  ⟨fun i small => (by cases small), fun _ _ _ => rfl, Nat.le_refl _⟩

/-- A range apart from the written one reads as before. -/
theorem Overwrites.slice (overwrites : Overwrites file dest bytes after) (held : source + size ≤ file.length)
    (apart : source + size ≤ dest ∨ dest + bytes.length ≤ source) :
    slice after source size = slice file source size := by
  have longer := overwrites.longer
  refine List.ext_getElem? fun i => ?_
  by_cases small : i < size
  · rw [getElem?_slice _ _ _ small, getElem?_slice _ _ _ small, overwrites.outside _ (by omega) (by omega)]
  · rw [List.getElem?_eq_none (by rw [length_slice (by omega)]; omega),
      List.getElem?_eq_none (by rw [length_slice held]; omega)]

/-- The copy of a range, chunk by chunk, to a place apart from it. -/
theorem overwrites_of_moveFileRange (moved : moveFileRange file source dest size = .ok after)
    (held : source + size ≤ file.length) (small : source + size < 2 ^ 64) (low : dest < 2 ^ 64)
    (apart : source + size ≤ dest ∨ dest + size ≤ source) :
    Overwrites file dest (slice file source size) after := by
  have bound : offMax < 2 ^ 64 := by decide
  have positive : 0 < bufSize := by decide
  have turns (count : ℕ) (after : ByteFile.File)
      (moved : (List.range count).foldlM (moveChunk source dest size) file = .ok after)
      (reached : count * bufSize < size + bufSize) :
      Overwrites file dest (slice file source (min size (count * bufSize))) after ∧
        dest + min size (count * bufSize) < 2 ^ 64 := by
    induction count generalizing after with
    | zero =>
      cases moved
      rw [Nat.zero_mul, Nat.min_zero, SnapshotContents.slice, List.take_zero]
      exact ⟨.nil file dest, low⟩
    | succ count ih =>
      rw [List.range_succ, List.foldlM_append] at moved
      obtain ⟨middle, before, moved⟩ := bind_ok.mp moved
      rw [List.foldlM_cons] at moved
      obtain ⟨_, turn, same⟩ := bind_ok.mp moved
      cases same
      obtain ⟨buf, read, wrote⟩ := bind_ok.mp turn
      rw [Nat.succ_mul] at reached ⊢
      obtain ⟨copied, ended⟩ := ih middle before (by omega)
      rw [Nat.min_eq_right (show count * bufSize ≤ size by omega)] at copied ended
      generalize count * bufSize = done at *
      generalize sized : min (size - done) bufSize = chunk at *
      have whole : min size (done + bufSize) = done + chunk := by omega
      have front : (SnapshotContents.slice file source done).length = done := length_slice (by omega)
      -- what is read has not been overwritten yet
      have exact : buf = SnapshotContents.slice file (source + done) chunk := by
        rw [u64_of_lt (by omega), readExactAt] at read
        split at read
        · cases read
          exact copied.slice (by omega) (by rw [front]; omega)
        · cases read
      have filled : buf.length = chunk := by rw [exact, length_slice (by omega)]
      rw [u64_of_lt (by omega)] at wrote
      have ends := (length_of_writeAllAt wrote).2
      rw [whole, slice_add, ← exact]
      refine ⟨copied.append ?_, by omega⟩
      rw [front]
      exact overwrites_of_write wrote
  have last : (size + bufSize - 1) / bufSize * bufSize < size + bufSize := by
    have := Nat.div_mul_le_self (size + bufSize - 1) bufSize
    omega
  have covered : size ≤ (size + bufSize - 1) / bufSize * bufSize := by
    have := Nat.lt_div_mul_add (a := size + bufSize - 1) positive
    omega
  have all := (turns _ after moved last).1
  rw [Nat.min_eq_left covered] at all
  exact all

theorem overwrites_of_moveUnlessEmpty (moved : moveUnlessEmpty file source dest size = .ok after)
    (held : source + size ≤ file.length) (small : source + size < 2 ^ 64) (low : dest < 2 ^ 64)
    (apart : size = 0 ∨ source + size ≤ dest ∨ dest + size ≤ source) :
    Overwrites file dest (slice file source size) after := by
  unfold moveUnlessEmpty at moved
  split at moved
  · next some => exact overwrites_of_moveFileRange moved held small low (apart.resolve_left some)
  · next none =>
    cases moved
    rw [not_not.mp none, SnapshotContents.slice, List.take_zero]
    exact .nil file dest

/-! ### What a write changes -/

/-- The extents of a file can be read: they are apart in the space and in the
file, and all their bytes are there. -/
structure Readable (top : ℕ) (others : ℕ → ℕ) (s : Space) : Prop where
  tidy : Tidy top others s
  ordered : Ordered s.data
  stored : ∀ offset block, s.data.find offset = some block → block.location + block.size ≤ s.serialised.length

/-- The byte at a position of the file, read through the extents. -/
def Reads (data : DataList) (serialised : ByteFile.File) (position : ℕ) (byte : UInt8) : Prop :=
  ∃ offset block, data.find offset = some block ∧ offset ≤ position ∧ position < offset + block.size ∧
    serialised[block.location + (position - offset)]? = some byte

/-- The bytes of a merged extent: those written, and around them those of the
extents that it replaces. -/
structure FusedBytes (serialised : ByteFile.File) (offset : ℕ) (buff : List UInt8) (fused : List (ℕ × Block)) (start : ℕ)
    (bytes : List UInt8) : Prop where
  written : ∀ position, offset ≤ position → position < offset + buff.length →
    bytes[position - start]? = buff[position - offset]?
  copied : ∀ other held position, (other, held) ∈ fused → other ≤ position → position < other + held.size →
    position < offset ∨ offset + buff.length ≤ position →
    bytes[position - start]? = serialised[held.location + (position - other)]?

section Paths
variable {s s' : Space} {top : ℕ} {others : ℕ → ℕ}

/-- A block out of the free list is apart from all extents. -/
theorem free_apart (tidy : Tidy top others s) (free : ∀ address, blockAt block address ≤ freeAt s.freeList address)
    (solid : 0 < block.size) (found : s.data.find other = some held) : Apart held block := by
  refine apart_of_single (fun address => ?_) (tidy.solid other held found).1 solid
  have inData := le_dataAt found address
  have inFree := free address
  have single := tidy.single address
  unfold heldAt at single
  unfold blockAt at inData inFree
  omega

theorem free_of_allocate (orderly : Orderly top freeList)
    (allocated : allocate freeList size hint = .ok (block, after)) (positive : 0 < size)
    (ends : block.location + size ≤ offMax) (address : ℕ) : blockAt block address ≤ freeAt freeList address := by
  have covers := (orderly.allocate allocated positive ends).2 address
  omega

/-- The front of the first overlap, what is written, and the back of the last
one. -/
theorem fusedBytes_of_parts {data : DataList} {first last : ℕ × Block} {fused : List (ℕ × Block)} (ordered : Ordered data)
    (listed : ∀ extent ∈ fused, data.find extent.1 = some extent.2 ∧ min first.1 offset ≤ extent.1 ∧
      extent.1 + extent.2.size ≤ max (last.1 + last.2.size) (offset + buff.length))
    (atFirst : data.find first.1 = some first.2) (atLast : data.find last.1 = some last.2)
    (touchesFirst : offset ≤ first.1 + first.2.size) (touchesLast : last.1 ≤ offset + buff.length)
    (fronted : front = offset - min first.1 offset) (backed : back = last.1 + last.2.size - (offset + buff.length))
    (storedFirst : first.2.location + first.2.size ≤ serialised.length) :
    FusedBytes serialised offset buff fused (min first.1 offset) ((slice serialised first.2.location front ++ buff) ++
      slice serialised (last.2.location + (last.2.size - back)) back) := by
  have frontLength : (slice serialised first.2.location front).length = front := length_slice (by omega)
  refine ⟨fun position low high => ?_, fun other held position member low high outside => ?_⟩
  · rw [List.getElem?_append_left (by rw [List.length_append, frontLength]; omega),
      List.getElem?_append_right (by rw [frontLength]; omega), frontLength]
    congr 1
    omega
  · obtain ⟨there, begins, ends⟩ := listed _ member
    dsimp only at there begins ends
    rcases outside with before | behind
    · -- only the first overlap reaches before the write
      rcases Nat.eq_or_lt_of_le (show first.1 ≤ other by omega) with here | after
      · rw [← here] at there
        obtain rfl := Option.some.inj (atFirst.symm.trans there)
        rw [List.append_assoc, List.getElem?_append_left (by rw [frontLength]; omega), getElem?_slice _ _ _ (by omega)]
        congr 1
        omega
      · have := ordered.apart _ _ _ _ atFirst there after
        omega
    · -- only the last one reaches behind it
      rcases Nat.lt_trichotomy other last.1 with before | here | after
      · have := ordered.apart _ _ _ _ there atLast before
        omega
      · rw [here] at there
        obtain rfl := Option.some.inj (atLast.symm.trans there)
        rw [List.getElem?_append_right (by rw [List.length_append, frontLength]; omega),
          List.length_append, frontLength, getElem?_slice _ _ _ (by omega)]
        congr 1
        omega
      · have := ordered.apart _ _ _ _ atLast there after
        omega

/-- The bytes that the copies and the write of a merge put into the new block. -/
theorem defragment_bytes (readable : Readable top others s) (filled : buff ≠ [])
    (unwrapped : offset + buff.length < 2 ^ 64) (kept : keptOverlaps s.data offset buff.length = first :: rest)
    (merged : s.defragment offset buff first rest = .ok s') :
    ∃ block bytes, s'.data = (without s.data (first :: rest)).insert (min first.1 offset) block ∧
      bytes.length = block.size ∧ Solid block ∧ Overwrites s.serialised block.location bytes s'.serialised ∧
      (∀ address, blockAt block address ≤ freeAt s.freeList address) ∧
      FusedBytes s.serialised offset buff (first :: rest) (min first.1 offset) bytes := by
  have positive := List.length_pos_iff.mpr filled
  have spans := fused_of_kept readable.ordered unwrapped
  rw [kept] at spans
  obtain ⟨last, front, back, block, freeList, copied, written, serialised, lastIs, fronted, backed, allocated, copy, write,
    copy', rfl⟩ := defragment_ok merged
  obtain ⟨entrySize, found, sized, -⟩ := allocate_ok allocated
  have limit := offMax_lt
  have located := readable.tidy.orderly.keys _ _ (find_of_findSpace found).1
  obtain ⟨exact, exact', -, empty | ⟨-, ends⟩⟩ := span_of_parts (by omega) copy write copy'
  · omega
  rw [u64_of_lt (by omega)] at sized allocated
  rw [exact] at write
  rw [exact'] at copy'
  have free := free_of_allocate readable.tidy.orderly allocated (by omega) ends
  -- the first and the last of the overlaps touch the write
  have final : last ∈ first :: rest := lastIs ▸ getLastD_mem first rest
  have touching (extent) (listed : extent ∈ first :: rest) :=
    (mem_overlapsOf readable.ordered unwrapped).mp
      (mem_of_mem_dropFront (mem_of_mem_dropBack (show extent ∈ keptOverlaps s.data offset buff.length from kept ▸ listed)))
  obtain ⟨atFirst, -, touchesFirst⟩ := touching first List.mem_cons_self
  obtain ⟨atLast, touchesLast, -⟩ := touching last final
  have fronted : front = offset - min first.1 offset := by
    rw [fronted, firstExclusive]
    split <;> omega
  have backed : back = last.1 + last.2.size - (offset + buff.length) := by
    rw [backed, lastExclusive, u64_of_lt unwrapped, u64_of_lt (readable.ordered.solid _ _ atLast).2]
    split <;> omega
  have solidFirst := readable.tidy.solid _ _ atFirst
  have solidLast := readable.tidy.solid _ _ atLast
  have storedFirst := readable.stored _ _ atFirst
  have storedLast := readable.stored _ _ atLast
  have apartFirst := free_apart readable.tidy free (by omega) atFirst
  have apartLast := free_apart readable.tidy free (by omega) atLast
  unfold Apart at apartFirst apartLast
  unfold Solid at solidFirst solidLast
  have source : u64 (last.2.location + usub last.2.size back) = last.2.location + (last.2.size - back) := by
    rw [usub_of_le (by omega) (by omega), u64_of_lt (by omega)]
  rw [source] at copy'
  have frontLength : (slice s.serialised first.2.location front).length = front := length_slice (by omega)
  have wroteFront := overwrites_of_moveUnlessEmpty copy (by omega) (by omega) (by omega) (by omega)
  have wrote : Overwrites s.serialised block.location (slice s.serialised first.2.location front ++ buff) written := by
    refine wroteFront.append ?_
    rw [frontLength]
    exact overwrites_of_write write
  have same : slice written (last.2.location + (last.2.size - back)) back =
      slice s.serialised (last.2.location + (last.2.size - back)) back := by
    refine wrote.slice (by omega) ?_
    rw [List.length_append, frontLength]
    omega
  have longer := wrote.longer
  have backLength : (slice s.serialised (last.2.location + (last.2.size - back)) back).length = back :=
    length_slice (by omega)
  have wroteBack := overwrites_of_moveUnlessEmpty copy' (by omega) (by omega) (by omega) (by omega)
  rw [same] at wroteBack
  have all : Overwrites s.serialised block.location ((slice s.serialised first.2.location front ++ buff) ++
      slice s.serialised (last.2.location + (last.2.size - back)) back) serialised := by
    refine wrote.append ?_
    rw [List.length_append, frontLength]
    exact wroteBack
  refine ⟨block, _, rfl, ?_, ⟨by omega, by omega⟩, all, free, ?_⟩
  · rw [List.length_append, List.length_append, frontLength, backLength]
    omega
  · refine fusedBytes_of_parts readable.ordered (fun extent listed => ?_) atFirst atLast touchesFirst touchesLast
      fronted backed storedFirst
    have inside := spans.inside extent listed
    rw [spanStart, spanStop, ← lastIs] at inside
    exact ⟨(touching extent listed).1, inside⟩

/-- What a write does to the extents of the file and to the bytes behind them. -/
structure Rewritten (s : Space) (offset : ℕ) (buff : List UInt8) (fused : List (ℕ × Block)) (start stop : ℕ)
    (block : Block) (s' : Space) : Prop where
  spans : Fused s.data offset (offset + buff.length) fused start stop
  sized : block.size = stop - start
  extents : s'.data = (without s.data fused).insert start block
  written : ∀ position, offset ≤ position → position < offset + buff.length →
    s'.serialised[block.location + (position - start)]? = buff[position - offset]?
  copied : ∀ other held position, (other, held) ∈ fused → other ≤ position → position < other + held.size →
    position < offset ∨ offset + buff.length ≤ position →
    s'.serialised[block.location + (position - start)]? = s.serialised[held.location + (position - other)]?
  kept : ∀ other held, s.data.find other = some held → (other, held) ∉ fused → ∀ i < held.size,
    s'.serialised[held.location + i]? = s.serialised[held.location + i]?
  besides : ∀ address < s.serialised.length, heldAt s address = 0 → s'.serialised[address]? = s.serialised[address]?

/-- In place: the bytes go into the only overlap, and into free space right
behind it. -/
theorem rewritten_of_single (readable : Readable top others s)
    (unwrapped : offset + buff.length < 2 ^ 64) (single : overlapsOf s.data offset buff.length = [first])
    (begins : first.1 ≤ offset)
    (overwrites : Overwrites s.serialised (first.2.location + (offset - first.1)) buff s'.serialised)
    (free : ∀ address, first.2.location + first.2.size ≤ address →
      address < first.2.location + (offset + buff.length - first.1) → 0 < freeAt s.freeList address)
    (sized : size = max (first.1 + first.2.size) (offset + buff.length) - first.1)
    (extents : s'.data = s.data.insert first.1 ⟨first.2.location, size⟩) :
    Rewritten s offset buff [first] first.1 (max (first.1 + first.2.size) (offset + buff.length))
      ⟨first.2.location, size⟩ s' := by
  have held : s.data.find first.1 = some first.2 :=
    (find_of_mem_overlapsOf (single ▸ List.mem_singleton_self first)).1
  have stored := readable.stored _ _ held
  -- every byte that is written belongs to the overlap or was free
  have owned (address : ℕ) (low : first.2.location + (offset - first.1) ≤ address)
      (high : address < first.2.location + (offset - first.1) + buff.length) :
      0 < freeAt s.freeList address + blockAt first.2 address := by
    by_cases inside : address < first.2.location + first.2.size
    · have here : blockAt first.2 address = 1 := within_eq_one (by omega)
      omega
    · have := free address (by omega) (by omega)
      omega
  refine ⟨fused_of_single readable.ordered unwrapped single begins, sized, ?_, fun position low high => ?_,
    fun other block position listed low high outside => ?_, fun other block found apart i small => ?_,
    fun address inside unused => ?_⟩
  · rw [extents]
    exact (SortedMap.insert_of_erase _ _ _).symm
  · rw [← overwrites.inside (position - offset) (by omega)]
    congr 1
    dsimp only
    omega
  · cases List.mem_singleton.mp listed
    exact overwrites.outside _ (by dsimp only at stored high ⊢; omega) (by dsimp only at begins ⊢; omega)
  · have differ : other ≠ first.1 := by
      rintro rfl
      rw [Option.some.inj (found.symm.trans held)] at apart
      exact apart (List.mem_singleton_self first)
    have there := readable.stored _ _ found
    refine overwrites.outside _ (by omega) ?_
    by_contra written
    have here := owned (block.location + i) (by omega) (by omega)
    have both : blockAt first.2 (block.location + i) + blockAt block (block.location + i) ≤
        dataAt s.data (block.location + i) := SortedMap.add_le_total (extentAt _) held found differ.symm
    have own : blockAt block (block.location + i) = 1 := within_eq_one (by omega)
    have alone := readable.tidy.single (block.location + i)
    unfold heldAt at alone
    omega
  · refine overwrites.outside _ inside ?_
    by_contra written
    have here := owned address (by omega) (by omega)
    have inData := le_dataAt held address
    unfold heldAt at unused
    omega

/-- In a new block: the bytes of all extents that it replaces go with it. -/
theorem rewritten_of_block (readable : Readable top others s)
    (spans : Fused s.data offset (offset + buff.length) fused start stop) (sized : block.size = stop - start)
    (extents : s'.data = (without s.data fused).insert start block)
    (overwrites : Overwrites s.serialised block.location bytes s'.serialised) (filled : bytes.length = block.size)
    (solid : 0 < block.size) (free : ∀ address, blockAt block address ≤ freeAt s.freeList address)
    (parts : FusedBytes s.serialised offset buff fused start bytes) : Rewritten s offset buff fused start stop block s' := by
  have starts := spans.starts
  have stops := spans.stops
  refine ⟨spans, sized, extents, fun position low high => ?_, fun other held position listed low high outside => ?_,
    fun other held found apart i small => ?_, fun address inside unused => ?_⟩
  · rw [overwrites.inside (position - start) (by omega), parts.written position low high]
  · have inside := spans.inside _ listed
    dsimp only at inside
    rw [overwrites.inside (position - start) (by omega), parts.copied other held position listed low high outside]
  · have there := readable.stored _ _ found
    have apart := free_apart readable.tidy free solid found
    unfold Apart at apart
    exact overwrites.outside _ (by omega) (by omega)
  · refine overwrites.outside _ inside ?_
    by_contra written
    have here : blockAt block address = 1 := within_eq_one (by omega)
    have free := free address
    unfold heldAt at unused
    omega

theorem insert_inj {data : DataList} (same : data.insert offset block = data.insert offset block') : block = block' := by
  have found := congrArg (fun data => SortedMap.find data offset) same
  rw [SortedMap.find_insert_self, SortedMap.find_insert_self] at found
  exact Option.some.inj found

theorem merge_rewritten (readable : Readable top others s) (filled : buff ≠ [])
    (unwrapped : offset + buff.length < 2 ^ 64)
    (merged : s.merge offset buff (overlapsOf s.data offset buff.length) = .ok s') :
    ∃ fused start stop block, Rewritten s offset buff fused start stop block s' := by
  have positive := List.length_pos_iff.mpr filled
  have spans := fused_of_kept readable.ordered unwrapped
  obtain ⟨block, sized, extents, -⟩ := merge_layout readable.tidy readable.ordered filled unwrapped merged
  unfold Space.merge at merged
  split at merged
  · next kept =>
    have kept : keptOverlaps s.data offset buff.length = [] := kept
    rw [kept] at spans sized extents
    obtain ⟨block', freeList, serialised, allocated, wrote, rfl⟩ := place_ok merged
    obtain rfl : block' = block := insert_inj extents
    have sized' : block'.size = buff.length := (allocate_ok allocated).choose_spec.2.1
    have ends : block'.location + buff.length ≤ offMax := by
      have := (length_of_writeAllAt wrote).2
      omega
    have parts : FusedBytes s.serialised offset buff [] offset buff :=
      ⟨fun _ _ _ => rfl, fun _ _ _ listed => (by cases listed)⟩
    exact ⟨_, _, _, block', rewritten_of_block readable spans sized extents (overwrites_of_write wrote) sized'.symm
      (by omega) (free_of_allocate readable.tidy.orderly allocated positive ends) parts⟩
  · next first rest kept =>
    have kept : keptOverlaps s.data offset buff.length = first :: rest := kept
    rw [kept] at spans sized extents
    obtain ⟨block', bytes, extents', length, solid, overwrites, free, parts⟩ :=
      defragment_bytes readable filled unwrapped kept merged
    obtain rfl : block' = block := insert_inj (extents'.symm.trans extents)
    exact ⟨_, _, _, block', rewritten_of_block readable spans sized extents overwrites length solid.1 free parts⟩

theorem encode_rewritten (readable : Readable top others s) (filled : buff ≠ [])
    (unwrapped : offset + buff.length < 2 ^ 64) (encoded : s.encode offset buff = .ok s') :
    ∃ fused start stop block, Rewritten s offset buff fused start stop block s' := by
  rcases readable.tidy.encode_cases filled encoded with ⟨first, single, begins, inside, replaced⟩ |
    ⟨first, single, before, appended⟩ | ⟨-, merged⟩
  · have held : s.data.find first.1 = some first.2 :=
      (find_of_mem_overlapsOf (single ▸ List.mem_singleton_self first)).1
    have limit := offMax_lt
    obtain ⟨-, ends⟩ := readable.tidy.solid _ _ held
    rw [u64_of_lt unwrapped, u64_of_lt (readable.ordered.solid _ _ held).2] at inside
    obtain ⟨serialised, wrote, rfl⟩ := replace_ok replaced
    have positive := List.length_pos_iff.mpr filled
    rw [u64_of_lt (by omega)] at wrote
    exact ⟨_, _, _, _, rewritten_of_single readable unwrapped single begins (overwrites_of_write wrote)
      (fun address low high => by omega) (show first.2.size = _ by omega) (SortedMap.insert_find held).symm⟩
  · obtain ⟨touching, past, freeList, serialised, hint, allocated, wrote, rfl⟩ := appended
    have inside : first.2.location + (offset - first.1) + buff.length ≤ offMax := by
      have := (length_of_writeAllAt wrote).2
      omega
    have free := free_of_allocate readable.tidy.orderly allocated (by omega) (by dsimp only; omega)
    refine ⟨_, _, _, _, rewritten_of_single readable unwrapped single before.le (overwrites_of_write wrote)
      (fun address low high => ?_) (show offset + buff.length - first.1 = _ by omega) rfl⟩
    have here : blockAt ⟨first.2.location + first.2.size, offset + buff.length - (first.1 + first.2.size)⟩ address = 1 :=
      within_eq_one (by dsimp only; omega)
    have := free address
    omega
  · exact merge_rewritten readable filled unwrapped merged

/-- After a write the file reads as written where the write was, and as before
elsewhere. -/
theorem Rewritten.reads (rewritten : Rewritten s offset buff fused start stop block s') (ordered : Ordered s.data)
    (filled : buff ≠ []) (position : ℕ) (byte : UInt8) :
    Reads s'.data s'.serialised position byte ↔
      if offset ≤ position ∧ position < offset + buff.length then buff[position - offset]? = some byte
      else Reads s.data s.serialised position byte := by
  have positive := List.length_pos_iff.mpr filled
  have spans := rewritten.spans
  have sized := rewritten.sized
  have starts := spans.starts
  have stops := spans.stops
  have absent := spans.absent ordered (by omega)
  constructor
  · rintro ⟨other, held, found, low, high, there⟩
    rw [rewritten.extents, SortedMap.find_insert] at found
    split at found
    · next same =>
      subst same
      cases found
      split
      · next inside => rw [← rewritten.written position inside.1 inside.2, there]
      · next outside =>
        -- before and behind the write the extent has replaced others
        have from_ : ∃ other held, (other, held) ∈ fused ∧ other ≤ position ∧ position < other + held.size := by
          by_cases before : position < offset
          · rcases spans.front with same | ⟨held, listed, -, reaches⟩
            · omega
            · exact ⟨start, held, listed, low, by omega⟩
          · rcases spans.back with same | ⟨other, held, listed, ends, begins⟩
            · omega
            · exact ⟨other, held, listed, by omega, by omega⟩
        obtain ⟨other, held, listed, low', high'⟩ := from_
        refine ⟨other, held, SortedMap.mem_entries_iff.mp (spans.sub.subset listed), low', high', ?_⟩
        rw [← rewritten.copied other held position listed low' high' (by omega), there]
    · obtain ⟨found, kept⟩ := find_without found
      have outside := spans.outside _ _ found kept
      rw [if_neg (by omega)]
      refine ⟨other, held, found, low, high, ?_⟩
      rw [← rewritten.kept other held found kept _ (by omega), there]
  · intro reads
    split at reads
    · next inside =>
      refine ⟨start, block, ?_, by omega, by omega, ?_⟩
      · rw [rewritten.extents, SortedMap.find_insert_self]
      · rw [rewritten.written position inside.1 inside.2, reads]
    · next outside =>
      obtain ⟨other, held, found, low, high, there⟩ := reads
      by_cases listed : (other, held) ∈ fused
      · have inside := spans.inside _ listed
        dsimp only at inside
        refine ⟨start, block, ?_, by omega, by omega, ?_⟩
        · rw [rewritten.extents, SortedMap.find_insert_self]
        · rw [rewritten.copied other held position listed low high (by omega), there]
      · have still := find_without_of_kept spans.sub found listed
        refine ⟨other, held, ?_, low, high, ?_⟩
        · have differ : start ≠ other := by
            rintro rfl
            rw [absent] at still
            cases still
          rw [rewritten.extents, SortedMap.find_insert_of_ne _ differ, still]
        · rw [rewritten.kept other held found listed _ (by omega), there]

end Paths

/-! ### What a cut leaves -/

theorem reads_truncated (ordered : Ordered data)
    (solid : ∀ offset block, data.find offset = some block → Solid block) (freeList : FreeList) (size : ℕ) :
    Reads (truncateData data freeList size).1 serialised position byte ↔
      position < size ∧ Reads data serialised position byte := by
  constructor
  · rintro ⟨offset, block, found, low, high, there⟩
    obtain ⟨whole, held, before, rfl⟩ := (find_truncateData ordered solid freeList size offset block).mp found
    dsimp only at high
    exact ⟨by omega, offset, whole, held, low, by omega, there⟩
  · rintro ⟨before, offset, whole, found, low, high, there⟩
    refine ⟨offset, ⟨whole.location, min whole.size (size - offset)⟩,
      (find_truncateData ordered solid freeList size offset _).mpr ⟨whole, found, by omega, rfl⟩, low, ?_, there⟩
    dsimp only
    omega

/-! ### What the calls mean -/

/-- The bytes of every file: a byte that was not written, or is not there any
more, is none. -/
abbrev Contents := Path → ℕ → Option UInt8

/-- What a call does to the bytes of the files, as far as they are known. -/
def Contents.apply (contents : Contents) : VFSCall → Contents
  | .create path _ _ _ => Function.update contents path fun _ => none
  | .write path offset buf => Function.update contents path fun position =>
      if offset.toUInt64.toNat ≤ position ∧ position < offset.toUInt64.toNat + buf.length
      then buf[position - offset.toUInt64.toNat]? else contents path position
  | .truncate path size => Function.update contents path fun position =>
      if position < size.toUInt64.toNat then contents path position else none
  | .unlink path => Function.update contents path fun _ => none
  | .rename source dest _ =>
      Function.update (Function.update contents source fun _ => none) dest (contents source)
  | _ => contents

/-- The byte at a position of the file under a path. -/
def PathReads (s : Snapshot) (path : Path) (position : ℕ) (byte : UInt8) : Prop :=
  ∃ file data, s.files.find path = some file ∧ file.data = some data ∧ Reads data s.serialised position byte

/-- Reading the extents of any file gives its contents. -/
def Denotes (s : Snapshot) (contents : Contents) : Prop :=
  ∀ path position byte, PathReads s path position byte ↔ contents path position = some byte

/-- All bytes of the extents are in a file of this length. -/
def Stored (length : ℕ) (data : DataList) : Prop :=
  ∀ offset block, data.find offset = some block → block.location + block.size ≤ length

section Calls
variable {s s' : Snapshot}

theorem pathReads_found (found : s.files.find path = some file) (held : file.data = some data) :
    PathReads s path position byte ↔ Reads data s.serialised position byte := by
  constructor
  · rintro ⟨file', data', found', held', reads⟩
    cases found.symm.trans found'
    cases held.symm.trans held'
    exact reads
  · exact fun reads => ⟨file, data, found, held, reads⟩

/-- The file under a path is replaced. -/
theorem pathReads_insert (s : Snapshot) (path : Path) (file : File) (freeList : FreeList) (other : Path) (position : ℕ)
    (byte : UInt8) : PathReads { s with files := s.files.insert path file, freeList := freeList } other position byte ↔
      if path = other then ∃ data, file.data = some data ∧ Reads data s.serialised position byte
      else PathReads s other position byte := by
  unfold PathReads
  dsimp only
  rw [SortedMap.find_insert]
  split
  · constructor
    · rintro ⟨_, data, same, held, reads⟩
      cases same
      exact ⟨data, held, reads⟩
    · rintro ⟨data, held, reads⟩
      exact ⟨file, data, rfl, held, reads⟩
  · exact Iff.rfl

theorem pathReads_erase (s : Snapshot) (path : Path) (freeList : FreeList) (other : Path) (position : ℕ)
    (byte : UInt8) : PathReads { s with files := s.files.erase path, freeList := freeList } other position byte ↔
      if path = other then False else PathReads s other position byte := by
  unfold PathReads
  dsimp only
  rw [SortedMap.find_erase]
  split
  · simp
  · exact Iff.rfl

theorem not_reads_empty : ¬ ∃ data, some SortedMap.empty = some data ∧ Reads data serialised position byte := by
  rintro ⟨data, same, offset, block, found, -⟩
  cases same
  cases found

/-- A file that may be absent reads as before, given an empty one in its place. -/
theorem pathReads_getD (s : Snapshot) (path : Path) {absent : File} (empty : absent.data = some .empty) (position : ℕ)
    (byte : UInt8) :
    (∃ data, ((s.files.find path).getD absent).data = some data ∧ Reads data s.serialised position byte) ↔
      PathReads s path position byte := by
  unfold PathReads
  cases found : s.files.find path with
  | some file => simp
  | none =>
    simp only [Option.getD_none, reduceCtorEq, false_and, exists_false, iff_false]
    rw [empty]
    exact not_reads_empty

/-- The new contents are given for one path. -/
theorem denotes_update {contents : Contents} {bytes : ℕ → Option UInt8}
    (others : ∀ other, other ≠ path → ∀ position byte, PathReads s' other position byte ↔ PathReads s other position byte)
    (here : ∀ position byte, PathReads s' path position byte ↔ bytes position = some byte) (denotes : Denotes s contents) :
    Denotes s' (Function.update contents path bytes) := by
  intro other position byte
  by_cases same : other = path
  · subst same
    rw [Function.update_self, here]
  · rw [Function.update_of_ne same, others other same, denotes]

/-! ### What each call keeps -/

theorem length_of_merges (merges : Merges s call s') (laid : ∀ path data, (getOrOpen s.files path).data = some data →
    Laid { data, freeList := s.freeList, serialised := s.serialised }) :
    s.serialised.length ≤ s'.serialised.length := by
  have write {path : Path} {offset : ℕ} {buf : List UInt8} (wrote : s.encodeWrite path offset buf = .ok s') :
      s.serialised.length ≤ s'.serialised.length := by
    obtain ⟨data, after, held, encoded, rfl⟩ := encodeWrite_ok wrote
    exact ((laid path data held).encode encoded).longer
  cases merges with
  | write wrote => exact write wrote
  | diffWrite wrote => exact write wrote
  | truncate =>
    unfold Snapshot.truncate
    dsimp only
    split <;> exact le_rfl
  | _ => exact le_rfl

/-- A snapshot whose files read as the contents. -/
structure Faithful (s : Snapshot) (contents : Contents) : Prop where
  arranged : Arranged s
  stored : AllData (Stored s.serialised.length) s
  denotes : Denotes s contents

variable {contents : Contents}

theorem stored_empty (length : ℕ) : Stored length .empty := fun _ _ found => by cases found

theorem Faithful.readable (faithful : Faithful s contents) (held : (getOrOpen s.files path).data = some data) :
    Readable fileTop (besides headerAt s.files path) { data, freeList := s.freeList, serialised := s.serialised } := by
  obtain ⟨tidy, ordered⟩ := faithful.arranged.space held s.serialised
  exact ⟨tidy, ordered, faithful.stored.opened (stored_empty _) held⟩

theorem Faithful.opened (faithful : Faithful s contents) (path : Path) (position : ℕ) (byte : UInt8) :
    (∃ data, (getOrOpen s.files path).data = some data ∧ Reads data s.serialised position byte) ↔
      contents path position = some byte :=
  (pathReads_getD s path rfl position byte).trans (faithful.denotes path position byte)

theorem Readable.laid {space : Space} (readable : Readable top others space) : Laid space := by
  have limit := offMax_lt
  refine ⟨fun offset block found => ?_, fun key size found => ?_⟩
  · have solid := readable.tidy.solid offset block found
    have stored := readable.stored offset block found
    unfold Solid at solid
    exact ⟨by omega, Or.inr ⟨stored, solid.2⟩⟩
  · have small := readable.tidy.orderly.keys key size found
    omega

theorem encodeWrite_of_merges (merges : Merges s call s')
    (named : call = .write path offset buf ∨ call = .diffWrite path offset buf) :
    s.encodeWrite path offset.toUInt64.toNat buf = .ok s' := by
  rcases named with rfl | rfl
  · cases merges with
    | make makes => cases makes
    | amend amends => cases amends
    | write wrote => exact wrote
  · cases merges with
    | make makes => cases makes
    | amend amends => cases amends
    | diffWrite wrote => exact wrote

theorem Faithful.stored_merges (faithful : Faithful s contents) (merges : Merges s call s') (fit : proper call = true)
    (small : unwrapped call = true) : AllData (Stored s'.serialised.length) s' := by
  have longer := length_of_merges merges fun path data held => (faithful.readable held).laid
  have before : AllData (Stored s'.serialised.length) s := fun path file data found held offset block there =>
    (faithful.stored path file data found held offset block there).trans longer
  refine before.merges (stored_empty _) merges fit ?_ ?_
  · intro path size data _ held stored offset block found
    obtain ⟨tidy, ordered⟩ := faithful.arranged.space held s.serialised
    obtain ⟨whole, there, -, rfl⟩ := (find_truncateData ordered tidy.solid _ _ offset block).mp found
    have := stored offset whole there
    dsimp only
    omega
  · intro path offset buf data after named held _ encoded other block found
    have settled := (faithful.arranged.merges merges fit small).settled
    obtain ⟨data', after', held', encoded', rfl⟩ := encodeWrite_ok (encodeWrite_of_merges merges named)
    cases held.symm.trans held'
    cases encoded.symm.trans encoded'
    have solid := settled.solid_extent ⟨_, _, SortedMap.find_insert_self _ path _, rfl, found⟩
    obtain ⟨-, empty | ⟨inside, -⟩⟩ := ((faithful.readable held).laid.encode encoded).laid.backed other block found
    · exact absurd solid.1 empty.not_gt
    · exact inside

/-! ### What each call reads -/

theorem reads_congr (same : ∀ offset block, data.find offset = some block → ∀ i < block.size,
      after[block.location + i]? = serialised[block.location + i]?) :
    Reads data after position byte ↔ Reads data serialised position byte := by
  have bytes (offset block) (found : data.find offset = some block) (low : offset ≤ position)
      (high : position < offset + block.size) := same offset block found (position - offset) (by omega)
  constructor
  · rintro ⟨offset, block, found, low, high, there⟩
    exact ⟨offset, block, found, low, high, bytes offset block found low high ▸ there⟩
  · rintro ⟨offset, block, found, low, high, there⟩
    exact ⟨offset, block, found, low, high, (bytes offset block found low high).trans there⟩

/-- A write to one path changes what is read there, and nowhere else. -/
theorem Faithful.write (faithful : Faithful s contents) (filled : buf ≠ [])
    (ends : offset.toUInt64.toNat + buf.length < 2 ^ 64)
    (wrote : s.encodeWrite path offset.toUInt64.toNat buf = .ok s') :
    Denotes s' (contents.apply (.write path offset buf)) := by
  obtain ⟨data, after, held, encoded, rfl⟩ := encodeWrite_ok wrote
  have readable := faithful.readable held
  obtain ⟨fused, start, stop, block, rewritten⟩ := encode_rewritten readable filled ends encoded
  refine denotes_update (fun other differ position byte => ?_) (fun position byte => ?_) faithful.denotes
  · unfold PathReads
    dsimp only
    rw [SortedMap.find_insert, if_neg (Ne.symm differ)]
    refine exists_congr fun file => exists_congr fun data' => and_congr_right fun found => and_congr_right fun held' => ?_
    refine reads_congr fun offset' block' there i inside => ?_
    -- the byte belongs to another file, so it is neither free nor in this one
    refine rewritten.besides _ ?_ ?_
    · exact (Nat.add_lt_add_left inside _).trans_le (faithful.stored other file data' found held' offset' block' there)
    · have elsewhere : Extent { s with files := s.files.erase path } other offset' block' :=
        ⟨file, data', (SortedMap.find_erase _ _ _).trans ((if_neg (Ne.symm differ)).trans found), held', there⟩
      have owned := le_liveAt elsewhere (block'.location + i)
      have one : blockAt block' (block'.location + i) = 1 := within_eq_one (by omega)
      have single := readable.tidy.single (block'.location + i)
      unfold SnapshotBlocks.besides at single
      dsimp only at owned
      omega
  · have reads := rewritten.reads readable.ordered filled position byte
    rw [pathReads_found (SortedMap.find_insert_self _ _ _) rfl, reads]
    split
    · exact Iff.rfl
    · rw [← faithful.opened, held]
      simp

/-- A file that is replaced by an empty one. -/
theorem Faithful.put_empty (faithful : Faithful s contents) (path : Path) (empty : file.data = some .empty) :
    Denotes (s.put path file) (Function.update contents path fun _ => none) := by
  have reads := pathReads_insert s path file s.freeList
  refine denotes_update (fun other differ position byte => ?_) (fun position byte => ?_) faithful.denotes
  · exact (reads other position byte).trans (by rw [if_neg (Ne.symm differ)])
  · refine (reads path position byte).trans ?_
    rw [if_pos rfl, empty]
    exact iff_of_false not_reads_empty nofun

theorem Faithful.remove (faithful : Faithful s contents) (path : Path) :
    Denotes (s.remove path) (Function.update contents path fun _ => none) := by
  have reads := pathReads_erase s path (release s.freeList (s.files.find path))
  refine denotes_update (fun other differ position byte => ?_) (fun position byte => ?_) faithful.denotes
  · exact (reads other position byte).trans (by rw [if_neg (Ne.symm differ)])
  · refine (reads path position byte).trans ?_
    rw [if_pos rfl]
    exact iff_of_false id nofun

theorem Faithful.amend (faithful : Faithful s contents) (path : Path) (kept : ∀ file, (f file).data = file.data) :
    Denotes (s.amend path f) contents := by
  intro other position byte
  refine (pathReads_insert s path (f (getOrOpen s.files path)) s.freeList other position byte).trans ?_
  split
  · next same => rw [kept, faithful.opened, same]
  · exact faithful.denotes other position byte

theorem Faithful.truncate (faithful : Faithful s contents) (path : Path) (size : Int64) :
    Denotes (s.truncate path size) (contents.apply (.truncate path size)) := by
  cases held : (getOrOpen s.files path).data with
  | some data =>
    obtain ⟨tidy, ordered⟩ := faithful.arranged.space held s.serialised
    rw [truncate_some held]
    have reads := pathReads_insert s path { getOrOpen s.files path with
        size := .exactly size.toUInt64, data := some (truncateData data s.freeList size.toUInt64.toNat).1 }
      (truncateData data s.freeList size.toUInt64.toNat).2
    refine denotes_update (fun other differ position byte => ?_) (fun position byte => ?_) faithful.denotes
    · exact (reads other position byte).trans (by rw [if_neg (Ne.symm differ)])
    · have opened := faithful.opened path position byte
      rw [held] at opened
      rw [pathReads_found (SortedMap.find_insert_self _ _ _) rfl, reads_truncated ordered tidy.solid]
      split
      · next before => rw [← opened]; simp [before]
      · next behind => simp [behind]
  | none =>
    rw [truncate_none held]
    have amended := faithful.amend path (f := fun file => { file with size := .exactly size.toUInt64 }) fun _ => rfl
    intro other position byte
    rw [amended other position byte]
    by_cases same : other = path
    · subst same
      rw [Contents.apply, Function.update_self]
      have nothing : contents other position ≠ some byte := by
        rw [Ne, ← faithful.opened, held]
        rintro ⟨data, same, -⟩
        cases same
      split
      · exact Iff.rfl
      · exact iff_of_false nothing nofun
    · rw [Contents.apply, Function.update_of_ne same]

theorem Faithful.rename (faithful : Faithful s contents) (source dest : Path) (flags : UInt32) :
    Denotes (s.rename source dest) (contents.apply (.rename source dest flags)) := by
  intro other position byte
  refine (pathReads_insert { s with files := s.files.erase source } dest _ _ other position byte).trans ?_
  rw [Contents.apply]
  split
  · next same =>
    subst same
    rw [Function.update_self, ← faithful.denotes]
    exact pathReads_getD s source rfl position byte
  · next differ =>
    rw [Function.update_of_ne (Ne.symm differ)]
    refine (pathReads_erase s source s.freeList other position byte).trans ?_
    split
    · next same =>
      subst same
      rw [Function.update_self]
      exact iff_of_false id nofun
    · next besides =>
      rw [Function.update_of_ne (Ne.symm besides)]
      exact faithful.denotes other position byte

end Calls

/-! ### Runs -/

/-- The calls that make, fill, cut, move and remove files; a write writes
something. -/
def plain : VFSCall → Bool
  | .create .. | .truncate .. | .fallocate .. | .unlink .. | .rename .. => true
  | .write _ _ buf => !buf.isEmpty
  | _ => false

theorem proper_of_plain (fine : plain call = true) : proper call = true := by
  cases call <;> first | rfl | exact fine | cases fine

theorem Faithful.merges {s s' : Snapshot} (faithful : Faithful s contents) (merges : Merges s call s')
    (fine : plain call = true) (small : unwrapped call = true) : Faithful s' (contents.apply call) := by
  have fit := proper_of_plain fine
  refine ⟨faithful.arranged.merges merges fit small, faithful.stored_merges merges fit small, ?_⟩
  cases merges with
  | make makes => cases makes <;> cases fine
  | amend amends =>
    cases amends with
    | fallocate => exact faithful.amend _ fun _ => rfl
    | _ => cases fine
  | rename => exact faithful.rename _ _ _
  | create => exact faithful.put_empty _ rfl
  | unlink => exact faithful.remove _
  | truncate => exact faithful.truncate _ _
  | write wrote =>
    obtain ⟨filled, ends⟩ := filled_of_proper (Or.inl rfl) fit small
    exact faithful.write filled ends wrote
  | link | rmdir | diffWrite | fsync => cases fine

/-- The contents after a run of calls from nothing. -/
def Contents.after (calls : List VFSCall) : Contents := calls.foldl Contents.apply fun _ _ => none

theorem faithful_new (toFile : ByteFile.File) (now : JournalStore.SystemTime) :
    Faithful (Snapshot.new toFile now) fun _ _ => none :=
  ⟨arranged_new toFile now, fun _ _ _ found => (by cases found),
    fun _ _ _ => iff_of_false (fun ⟨_, _, found, _⟩ => by cases found) nofun⟩

theorem Faithful.mergeFrom {s s' : Snapshot} {calls : List VFSCall} (faithful : Faithful s contents)
    (fine : ∀ call ∈ calls, plain call = true ∧ unwrapped call = true) (merged : s.mergeFrom calls = .ok s') :
    Faithful s' (calls.foldl Contents.apply contents) := by
  induction calls generalizing s contents with
  | nil => cases merged; exact faithful
  | cons call rest ih =>
    rw [Snapshot.mergeFrom, List.foldlM_cons] at merged
    obtain ⟨middle, moves, merged⟩ := bind_ok.mp merged
    obtain ⟨allowed, small⟩ := fine call List.mem_cons_self
    exact ih (faithful.merges (merges_of_mergeCall moves) allowed small)
      (fun other listed => fine other (List.mem_cons_of_mem _ listed)) merged

/-- The extents of all files read as the calls merged wrote them, if every write
ends at a 64-bit offset. -/
theorem contents_of_run (toFile : ByteFile.File) (now : JournalStore.SystemTime) (calls : List VFSCall) (s : Snapshot)
    (merged : (Snapshot.new toFile now).mergeFrom calls = .ok s)
    (fine : ∀ call ∈ calls, plain call = true ∧ unwrapped call = true) : Denotes s (Contents.after calls) :=
  ((faithful_new toFile now).mergeFrom fine merged).denotes

/-- A write of two bytes, and one behind its first whose end wraps. -/
def wrappedOverlap : List VFSCall := [.write [[97]] (-3) [1, 2], .write [[97]] (-2) [3, 4, 5]]

/-- The second write does not see the first, and both extents hold a byte at the
offset where they overlap. -/
theorem wrapped_write_read_twice : ∃ s, (∀ call ∈ wrappedOverlap, plain call = true) ∧
    (Snapshot.new [] epoch).mergeFrom wrappedOverlap = .ok s ∧ ¬ Denotes s (Contents.after wrappedOverlap) := by
  have merged : ∃ s file data, (Snapshot.new [] epoch).mergeFrom wrappedOverlap = .ok s ∧
      s.files.find [[97]] = some file ∧ file.data = some data ∧
      data.find (2 ^ 64 - 3) = some ⟨40, 2⟩ ∧ data.find (2 ^ 64 - 2) = some ⟨42, 3⟩ ∧
      s.serialised[41]? = some 2 ∧ s.serialised[42]? = some 3 :=
    ⟨_, _, _, rfl, rfl, rfl, rfl, rfl, rfl, rfl⟩
  obtain ⟨s, file, data, merged, found, held, first, second, two, three⟩ := merged
  refine ⟨s, by decide, merged, fun denotes => ?_⟩
  have old : PathReads s [[97]] (2 ^ 64 - 2) 2 := ⟨file, data, found, held, _, _, first, by decide, by decide, two⟩
  have new : PathReads s [[97]] (2 ^ 64 - 2) 3 := ⟨file, data, found, held, _, _, second, by decide, by decide, three⟩
  have same := ((denotes _ _ _).mp old).symm.trans ((denotes _ _ _).mp new)
  exact absurd (Option.some.inj same) (by decide)

/-- A write, and one that covers its second byte and one behind. -/
theorem overlapping_writes_read_last : ∃ s, (Snapshot.new [] epoch).mergeFrom
    [.write [[97]] 0 [1, 2], .write [[97]] 1 [3, 4]] = .ok s ∧
    Denotes s (Contents.after [.write [[97]] 0 [1, 2], .write [[97]] 1 [3, 4]]) ∧ PathReads s [[97]] 1 3 := by
  have merged : ∃ s, (Snapshot.new [] epoch).mergeFrom [.write [[97]] 0 [1, 2], .write [[97]] 1 [3, 4]] = .ok s :=
    ⟨_, rfl⟩
  obtain ⟨s, merged⟩ := merged
  have denotes := contents_of_run [] epoch _ s merged (by decide)
  exact ⟨s, merged, denotes, (denotes [[97]] 1 3).mpr rfl⟩

end Fsyncer.SnapshotContents
