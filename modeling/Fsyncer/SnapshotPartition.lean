import Fsyncer.Base.Interleaving
import Fsyncer.SnapshotLayout

/-! Runs of calls. As long as no write ends beyond the 64-bit offsets, the
extents of all files and the free regions divide the space behind the header
among them, and extents that touch are large. -/
namespace Fsyncer.SnapshotPartition
open Fsyncer.ByteFile (Failure offMax)
open Fsyncer.FileTree (Path)
open Fsyncer.Interleaving (Reaches)
open Fsyncer.Machine Fsyncer.Spans Fsyncer.SnapshotBlocks Fsyncer.SnapshotExtents Fsyncer.SnapshotLayout
open Fsyncer.SnapshotSpace Fsyncer.SnapshotStore Fsyncer.Vfs

/-! ### What holds of the extents of every file -/

/-- The extents of every file in the table satisfy `P`. -/
def AllData (P : DataList → Prop) (s : Snapshot) : Prop :=
  ∀ path file data, s.files.find path = some file → file.data = some data → P data

section AllData
variable {P : DataList → Prop} {s s' : Snapshot}

theorem AllData.opened (all : AllData P s) (empty : P .empty) (held : (getOrOpen s.files path).data = some data) :
    P data := by
  unfold getOrOpen at held
  cases found : s.files.find path with
  | some file => rw [found] at held; exact all path file data found held
  | none => rw [found] at held; cases held; exact empty

theorem AllData.insert (all : AllData P s) (new : ∀ data, file.data = some data → P data)
    (found : (s.files.insert path file).find other = some held) (has : held.data = some data) : P data := by
  rw [SortedMap.find_insert] at found
  split at found
  · cases found; exact new data has
  · exact all other held data found has

theorem AllData.erase (all : AllData P s) (found : (s.files.erase path).find other = some held)
    (has : held.data = some data) : P data := by
  rw [SortedMap.find_erase] at found
  split at found
  · cases found
  · exact all other held data found has

/-- Only writes and cuts change the extents of a file. -/
theorem AllData.merges (all : AllData P s) (empty : P .empty) (merges : Merges s call s') (fit : proper call = true)
    (cut : ∀ path size data, call = .truncate path size → (getOrOpen s.files path).data = some data → P data →
      P (truncateData data s.freeList size.toUInt64.toNat).1)
    (wrote : ∀ path offset buf data after, call = .write path offset buf ∨ call = .diffWrite path offset buf →
      (getOrOpen s.files path).data = some data → P data →
      Space.encode { data, freeList := s.freeList, serialised := s.serialised } offset.toUInt64.toNat buf = .ok after →
      P after.data) : AllData P s' := by
  have fresh {data : DataList} (same : some SortedMap.empty = some data) : P data := by cases same; exact empty
  have write {path : Path} {offset : Int64} {buf : List UInt8} {s' : Snapshot}
      (named : call = .write path offset buf ∨ call = .diffWrite path offset buf)
      (done : s.encodeWrite path offset.toUInt64.toNat buf = .ok s') : AllData P s' := by
    obtain ⟨data, after, held, encoded, rfl⟩ := encodeWrite_ok done
    intro other file data' found has
    refine all.insert (fun new same => ?_) found has
    cases same
    exact wrote path offset buf data after named held (all.opened empty held) encoded
  cases merges with
  | make makes _ =>
    refine fun other file data found has => all.insert (fun new same => ?_) found has
    cases makes with
    | mknod => exact fresh same
    | mkdir | symlink => cases same
  | amend amends =>
    refine fun other file data found has => all.insert (fun new same => ?_) found has
    rw [amends_data amends] at same
    exact all.opened empty same
  | rename =>
    rename_i source dest flags
    intro other file data found has
    have found : ((s.files.erase source).insert dest _).find other = some file := found
    rw [SortedMap.find_insert] at found
    split at found
    · cases found
      cases moved : s.files.find source with
      | some held => rw [moved] at has; exact all source held data moved has
      | none => rw [moved] at has; exact fresh has
    · exact all.erase found has
  | link => cases fit
  | create => exact fun other file data found has => all.insert (fun new same => fresh same) found has
  | unlink => exact fun other file data found has => all.erase found has
  | rmdir => exact fun other file data found has => all.erase found has
  | truncate =>
    rename_i path size
    cases held : (getOrOpen s.files path).data with
    | some data =>
      rw [truncate_some held]
      refine fun other file data' found has => all.insert (fun new same => ?_) found has
      cases same
      exact cut path size data rfl held (all.opened empty held)
    | none =>
      rw [truncate_none held]
      refine fun other file data' found has => all.insert (fun new same => ?_) found has
      rw [show (getOrOpen s.files path).data = some new from same] at held
      cases held
  | write done => exact write (Or.inl rfl) done
  | diffWrite done => exact write (Or.inr rfl) done
  | fsync => exact all

end AllData

/-! ### Order -/

theorem ordered_empty : Ordered .empty :=
  ⟨fun _ _ found => (by cases found), fun _ _ _ _ found => (by cases found)⟩

/-- The end of a write is a 64-bit offset. -/
def unwrapped : VFSCall → Bool
  | .write _ offset buf | .diffWrite _ offset buf => offset.toUInt64.toNat + buf.length < 2 ^ 64
  | _ => true

/-- Each extent in front of a cut keeps what lies before it. -/
theorem find_truncateData (ordered : Ordered data)
    (solid : ∀ offset block, data.find offset = some block → Solid block) (freeList : FreeList) (size offset : ℕ)
    (block : Block) : (truncateData data freeList size).1.find offset = some block ↔
      ∃ whole, data.find offset = some whole ∧ offset < size ∧
        block = ⟨whole.location, min whole.size (size - offset)⟩ := by
  have split : truncateData data freeList size =
    cutLast (keptBelow data size) (deallocateAll freeList (deletedFrom data size)) size := rfl
  -- extents that the cut does not reach are whole
  have uncut (short : ∀ held, data.find offset = some held → offset < size → offset + held.size ≤ size) :
      (keptBelow data size).find offset = some block ↔ ∃ whole, data.find offset = some whole ∧ offset < size ∧
        block = ⟨whole.location, min whole.size (size - offset)⟩ := by
    rw [find_keptBelow]
    constructor
    · rintro ⟨found, low⟩
      have := short block found low
      exact ⟨block, found, low, by rw [Nat.min_eq_left (by omega)]⟩
    · rintro ⟨whole, found, low, rfl⟩
      have := short whole found low
      rw [Nat.min_eq_left (by omega)]
      exact ⟨found, low⟩
  rw [split]
  rcases cut_cases solid (deallocateAll freeList (deletedFrom data size)) size with
    ⟨same, whole⟩ | ⟨last, held, final, past, same⟩
  · rw [same]
    refine uncut fun other found low => ?_
    have listed := SortedMap.mem_entries_iff.mpr (find_keptBelow.mpr ⟨found, low⟩)
    cases final : (keptBelow data size).entries.getLast? with
    | none => rw [List.getLast?_eq_none_iff.mp final] at listed; cases listed
    | some last =>
      have atLast := find_keptBelow.mp (SortedMap.mem_entries_iff.mp (List.mem_of_getLast? final))
      have ends := whole last.1 last.2 final
      rw [u64_of_lt (ordered.solid _ _ atLast.1).2] at ends
      have before : offset ≤ last.1 := SortedMap.le_last final (SortedMap.mem_entries_iff.mp listed)
      rcases Nat.eq_or_lt_of_le before with here | earlier
      · rw [here] at found
        rw [Option.some.inj (found.symm.trans atLast.1), here]
        exact ends
      · have := ordered.apart _ _ _ _ found atLast.1 earlier
        omega
  · rw [same]
    have atLast := find_keptBelow.mp (SortedMap.mem_entries_iff.mp (List.mem_of_getLast? final))
    by_cases here : last = offset
    · subst here
      rw [SortedMap.find_insert_self]
      constructor
      · intro same
        cases same
        exact ⟨held, atLast.1, atLast.2, by rw [Nat.min_eq_right (by omega)]⟩
      · rintro ⟨whole, found, -, rfl⟩
        cases atLast.1.symm.trans found
        rw [Nat.min_eq_right (by omega)]
    · rw [SortedMap.find_insert_of_ne _ here]
      refine uncut fun other found low => ?_
      have before : offset ≤ last := SortedMap.le_last final (find_keptBelow.mpr ⟨found, low⟩)
      have := ordered.apart _ _ _ _ found atLast.1 (by omega)
      omega

/-- A cut leaves fewer and shorter extents. -/
theorem truncate_ordered (ordered : Ordered data)
    (solid : ∀ offset block, data.find offset = some block → Solid block) (freeList : FreeList) (size : ℕ) :
    Ordered (truncateData data freeList size).1 := by
  have cut := find_truncateData ordered solid freeList size
  refine ⟨fun offset block found => ?_, fun offset block offset' block' found found' order => ?_⟩
  · obtain ⟨whole, there, low, rfl⟩ := (cut offset block).mp found
    have small := ordered.solid offset whole there
    dsimp only
    omega
  · obtain ⟨whole, there, low, rfl⟩ := (cut offset block).mp found
    obtain ⟨whole', there', low', rfl⟩ := (cut offset' block').mp found'
    have apart := ordered.apart offset whole offset' whole' there there' order
    dsimp only
    omega

/-- A snapshot in which no byte has two owners and the extents are in order. -/
structure Arranged (s : Snapshot) : Prop where
  settled : Settled fileTop headerAt s
  ordered : AllData Ordered s

theorem Arranged.space {s : Snapshot} (arranged : Arranged s) (held : (getOrOpen s.files path).data = some data)
    (serialised : ByteFile.File) :
    Tidy fileTop (besides headerAt s.files path) { data, freeList := s.freeList, serialised } ∧ Ordered data :=
  ⟨arranged.settled.space held serialised, arranged.ordered.opened ordered_empty held⟩

theorem filled_of_proper (named : call = .write path offset buf ∨ call = .diffWrite path offset buf)
    (fit : proper call = true) (small : unwrapped call = true) :
    buf ≠ [] ∧ offset.toUInt64.toNat + buf.length < 2 ^ 64 := by
  rcases named with rfl | rfl
  · exact ⟨by simpa [proper] using fit, of_decide_eq_true small⟩
  · exact ⟨by simpa [proper] using fit, of_decide_eq_true small⟩

theorem Arranged.merges {s s' : Snapshot} (arranged : Arranged s) (merges : Merges s call s')
    (fit : proper call = true) (small : unwrapped call = true) : Arranged s' := by
  obtain ⟨lost, resettled⟩ := arranged.settled.merges merges fit (barrier_header _)
  refine ⟨arranged.settled.resettled resettled, arranged.ordered.merges ordered_empty merges fit ?_ ?_⟩
  · intro path size data _ held ordered
    exact truncate_ordered ordered (arranged.space held s.serialised).1.solid s.freeList size.toUInt64.toNat
  · intro path offset buf data after named held ordered encoded
    obtain ⟨filled, ends⟩ := filled_of_proper named fit small
    exact encode_ordered (arranged.space held s.serialised).1 ordered filled ends encoded

theorem arranged_new (toFile : ByteFile.File) (now : JournalStore.SystemTime) : Arranged (Snapshot.new toFile now) :=
  ⟨settled_new toFile now, fun _ _ _ found => (by cases found)⟩

/-! ### The partition -/

/-- A file is only created where there is none, nothing is linked, and no write
is empty. -/
def Regular (s : Snapshot) (call : VFSCall) : Prop :=
  proper call = true ∧ ∀ path flags security mode, call = .create path flags security mode → s.files.find path = none

theorem used_write {s s' : Snapshot} (arranged : Arranged s) (filled : buf ≠ []) (ends : offset + buf.length < 2 ^ 64)
    (wrote : s.encodeWrite path offset buf = .ok s') (address : ℕ) : usedAt s' address = usedAt s address := by
  obtain ⟨data, after, held, encoded, rfl⟩ := encodeWrite_ok wrote
  obtain ⟨tidy, ordered⟩ := arranged.space held s.serialised
  have barrier : Barrier fileTop fun address => besides headerAt s.files path address + dataAt after.data address :=
    Barrier.mono (barrier_header fun address => liveAt (s.files.erase path) address + dataAt after.data address)
      fun _ => (Nat.add_assoc _ _ _).ge
  obtain ⟨_, _, _, _, -, -, -, exact⟩ := encode_fused tidy ordered filled ends encoded
  exact (arranged.settled.of_space held rfl rfl (exact barrier) rfl).used address

/-- Regular calls whose writes end at 64-bit offsets lose no byte. -/
theorem Arranged.used {s s' : Snapshot} (arranged : Arranged s) (merges : Merges s call s') (regular : Regular s call)
    (small : unwrapped call = true) (address : ℕ) : usedAt s' address = usedAt s address := by
  have settled := arranged.settled
  obtain ⟨fit, fresh⟩ := regular
  cases merges with
  | make makes absent =>
    rename_i path file
    have put := (settled.put path (makes_empty makes).1 (makes_empty makes).2).used address
    rw [pathAt_of_absent absent] at put
    exact put
  | amend amends => exact (settled.amend _ (amends_data amends)).used address
  | rename => exact (settled.rename _ _ (barrier_header _)).used address
  | link => cases fit
  | create =>
    rename_i path flags uid gid mode
    have empty : SolidFile (newFile uid gid mode flags) := by
      intro data offset block held found
      cases held
      cases found
    have put := (settled.put path (fun _ => rfl) empty).used address
    rw [pathAt_of_absent (fresh path flags _ mode rfl)] at put
    exact put
  | unlink => exact (settled.remove _ (barrier_header _)).used address
  | rmdir => exact (settled.remove _ (barrier_header _)).used address
  | truncate => exact (settled.truncate _ _ (barrier_header _)).used address
  | write wrote =>
    obtain ⟨filled, ends⟩ := filled_of_proper (Or.inl rfl) fit small
    exact used_write arranged filled ends wrote address
  | diffWrite wrote =>
    obtain ⟨filled, ends⟩ := filled_of_proper (Or.inr rfl) fit small
    exact used_write arranged filled ends wrote address
  | fsync => rfl

/-- One call of `merge_from`. -/
def merging (s : Snapshot) (call : VFSCall) (s' : Snapshot) : Prop := s.mergeCall call = .ok s'

/-- An address in a block. -/
def Holds (block : Block) (address : ℕ) : Prop :=
  block.location ≤ address ∧ address < block.location + block.size

/-- The space behind the header is divided among the extents and the free
regions: they lie apart, and together they cover it exactly. -/
structure Partition (s : Snapshot) : Prop where
  separate : Separate s
  coalesced : ∀ key size key' size', s.freeList.find key = some size → s.freeList.find key' = some size' →
    key < key' → key + size < key'
  covers : ∀ address, (headerSize ≤ address ∧ address < headerSize + usizeMax) ↔
    (∃ path offset block, Extent s path offset block ∧ Holds block address) ∨
      ∃ key size, s.freeList.find key = some size ∧ Holds ⟨key, size⟩ address
  last : ∃ key size, s.freeList.entries.getLast? = some (key, size) ∧ key + size = headerSize + usizeMax ∧
    ∀ path offset block, Extent s path offset block → block.location + block.size ≤ key
  inFile : ∀ path file data offset block offset' block', s.files.find path = some file → file.data = some data →
    data.find offset = some block → data.find offset' = some block' → offset < offset' →
    offset + block.size ≤ offset'

theorem freeAt_pos : 0 < freeAt freeList address ↔
    ∃ key size, freeList.find key = some size ∧ Holds ⟨key, size⟩ address := by
  constructor
  · intro positive
    obtain ⟨key, size, found, inside⟩ := SortedMap.exists_of_total_pos _ positive
    exact ⟨key, size, found, within_pos.mp inside⟩
  · rintro ⟨key, size, found, inside⟩
    exact (within_pos.mpr inside).trans_le (le_freeAt found address)

theorem fileAt_pos {file : File} : 0 < fileAt file address ↔
    ∃ data offset block, file.data = some data ∧ data.find offset = some block ∧ Holds block address := by
  constructor
  · intro positive
    cases held : file.data with
    | none => rw [fileAt_of_none held] at positive; exact absurd positive (lt_irrefl 0)
    | some data =>
      rw [fileAt_of_data held] at positive
      obtain ⟨offset, block, there, inside⟩ := SortedMap.exists_of_total_pos _ positive
      exact ⟨data, offset, block, rfl, there, within_pos.mp inside⟩
  · rintro ⟨data, offset, block, held, there, inside⟩
    rw [fileAt_of_data held]
    exact (within_pos.mpr inside).trans_le (le_dataAt there address)

theorem liveAt_pos {s : Snapshot} : 0 < liveAt s.files address ↔
    ∃ path offset block, Extent s path offset block ∧ Holds block address := by
  constructor
  · intro positive
    obtain ⟨path, file, found, positive⟩ := SortedMap.exists_of_total_pos _ positive
    obtain ⟨data, offset, block, held, there, inside⟩ := fileAt_pos.mp positive
    exact ⟨path, offset, block, ⟨file, data, found, held, there⟩, inside⟩
  · rintro ⟨path, offset, block, extent, inside⟩
    exact (within_pos.mpr inside).trans_le (le_liveAt extent address)

theorem Arranged.partition {s : Snapshot} (arranged : Arranged s)
    (used : ∀ address, usedAt s address = within headerSize usizeMax address) : Partition s := by
  have settled := arranged.settled
  refine ⟨settled.separate, settled.orderly.coalesced.gap, fun address => ?_, ?_,
    fun path file data _ _ _ _ found held => (arranged.ordered path file data found held).apart _ _ _ _⟩
  · rw [← within_pos, ← used, usedAt, ← freeAt_pos, ← liveAt_pos]
    omega
  · -- the region that holds the last address of the space is the last one
    obtain ⟨key, size, found, inside⟩ := freeAt_pos.mp
      (settled.beyond (fileTop - 1) (by decide) (by decide))
    unfold Holds at inside
    have ends := (settled.orderly.ends key size found).2
    have top : fileTop = headerSize + usizeMax := rfl
    have whole : key + size = headerSize + usizeMax := by
      dsimp only at inside
      omega
    refine ⟨key, size, ?_, whole, fun path offset block extent => ?_⟩
    · have listed := SortedMap.mem_entries_iff.mpr found
      cases last : s.freeList.entries.getLast? with
      | none => rw [List.getLast?_eq_none_iff.mp last] at listed; cases listed
      | some entry =>
        have there := SortedMap.mem_entries_iff.mp (List.mem_of_getLast? last)
        rcases Nat.eq_or_lt_of_le (SortedMap.le_last last found) with same | above
        · subst same
          rw [← Option.some.inj (there.symm.trans found)]
        · have gap := settled.orderly.coalesced.gap _ _ _ _ found there above
          have bound := (settled.orderly.ends _ _ there).2
          omega
    · have solid := settled.solid_extent extent
      have apart := settled.separate.free path offset block key size extent found
      have limit := offMax_lt
      unfold Apart at apart
      unfold Solid at solid
      have huge : offMax < headerSize + usizeMax := by decide
      dsimp only at apart
      omega

/-- In every run of regular calls whose writes end at 64-bit offsets, extents and
free regions divide the space. -/
theorem partition_of_run (toFile : ByteFile.File) (now : JournalStore.SystemTime) (s : Snapshot)
    (reached : Reaches merging (fun s call => Regular s call ∧ unwrapped call = true) (Snapshot.new toFile now) s) :
    Partition s := by
  have invariant : Arranged s ∧ ∀ address, usedAt s address = within headerSize usizeMax address := by
    refine reached.invariant (motive := fun s =>
      Arranged s ∧ ∀ address, usedAt s address = within headerSize usizeMax address) ?_ ?_
    · refine ⟨arranged_new toFile now, fun address => ?_⟩
      have free : freeAt (Snapshot.new toFile now).freeList address = within headerSize usizeMax address :=
        (SortedMap.total_insert (fun entry : ℕ × ℕ => within entry.1 entry.2 address)
          (SortedMap.find_empty headerSize) usizeMax).trans (Nat.zero_add _)
      rw [usedAt, free]
      rfl
    · intro s call s' held moves fine
      have merges := merges_of_mergeCall moves
      refine ⟨held.1.merges merges fine.1.1 fine.2, fun address => ?_⟩
      rw [held.1.used merges fine.1 fine.2, held.2]
  exact invariant.1.partition invariant.2

theorem reaches_of_mergeFrom {calls : List VFSCall} {start first s : Snapshot}
    (reached : Reaches merging allowed start first) (merged : first.mergeFrom calls = .ok s)
    (fine : ∀ call ∈ calls, ∀ s, allowed s call) : Reaches merging allowed start s := by
  induction calls generalizing first with
  | nil => cases merged; exact reached
  | cons call rest ih =>
    rw [Snapshot.mergeFrom, List.foldlM_cons] at merged
    obtain ⟨middle, moves, merged⟩ := bind_ok.mp merged
    exact ih (reached.next moves (fine call List.mem_cons_self first)) merged fun other listed =>
      fine other (List.mem_cons_of_mem _ listed)

/-- Two bytes at the largest offset, whose end wraps, written twice. -/
def lastOffsetTwice : List VFSCall := [.write [[97]] (-1) [1, 2], .write [[97]] (-1) [3, 4]]

theorem regular_lastOffsetTwice (listed : call ∈ lastOffsetTwice) (s : Snapshot) : Regular s call := by
  rcases List.mem_cons.mp listed with rfl | listed
  · exact ⟨rfl, fun _ _ _ _ same => by cases same⟩
  · rw [List.mem_singleton.mp listed]
    exact ⟨rfl, fun _ _ _ _ same => by cases same⟩

/-- The second write finds no overlap with the first and takes its place in the
table, and the block of the first is lost. -/
theorem wrapped_write_leaks : ∃ s, Reaches merging Regular (Snapshot.new [] epoch) s ∧ ¬ Partition s := by
  have merged : ∃ s, (Snapshot.new [] epoch).mergeFrom lastOffsetTwice = .ok s ∧
      (∀ path offset block, Extent s path offset block → block = ⟨42, 2⟩) ∧
      ∀ key size, s.freeList.find key = some size → key = 44 := by
    refine ⟨_, rfl, ?_, ?_⟩
    · rintro path offset block ⟨file, data, found, held, there⟩
      cases List.mem_singleton.mp (SortedMap.mem_entries_iff.mpr found)
      cases held
      cases List.mem_singleton.mp (SortedMap.mem_entries_iff.mpr there)
      rfl
    · intro key size found
      cases List.mem_singleton.mp (SortedMap.mem_entries_iff.mpr found)
      rfl
  obtain ⟨s, merged, extents, free⟩ := merged
  refine ⟨s, reaches_of_mergeFrom .refl merged fun call listed s => regular_lastOffsetTwice listed s, fun partition => ?_⟩
  rcases (partition.covers 40).mp (by decide) with ⟨path, offset, block, extent, inside⟩ | ⟨key, size, found, inside⟩
  · rw [extents path offset block extent] at inside
    exact absurd inside.1 (by decide)
  · rw [free key size found] at inside
    exact absurd inside.1 (show ¬ 44 ≤ 40 by decide)

/-- A file that is written and cut. -/
theorem written_and_cut_partitioned : ∃ s, Reaches merging (fun s call => Regular s call ∧ unwrapped call = true)
    (Snapshot.new [] epoch) s ∧ s.freeList.find 41 = some (usizeMax - 1) ∧ Partition s := by
  have merged : ∃ s, (Snapshot.new [] epoch).mergeFrom [.write [[97]] 0 [1, 2], .truncate [[97]] 1] = .ok s ∧
      s.freeList.find 41 = some (usizeMax - 1) := ⟨_, rfl, rfl⟩
  obtain ⟨s, merged, free⟩ := merged
  have reached : Reaches merging (fun s call => Regular s call ∧ unwrapped call = true) (Snapshot.new [] epoch) s := by
    refine reaches_of_mergeFrom .refl merged fun call listed s => ?_
    rcases List.mem_cons.mp listed with rfl | listed
    · exact ⟨⟨rfl, fun _ _ _ _ same => by cases same⟩, by decide⟩
    · rw [List.mem_singleton.mp listed]
      exact ⟨⟨rfl, fun _ _ _ _ same => by cases same⟩, rfl⟩
  exact ⟨s, reached, free, partition_of_run [] epoch s reached⟩

/-! ### Defragmentation -/

/-- Writes that write something, and calls that neither link nor cut. -/
def Uncut (call : VFSCall) : Prop := proper call = true ∧ ∀ path size, call ≠ .truncate path size

theorem defragmented_empty : Defragmented .empty := fun _ _ _ _ found => by cases found

/-- In every run without links and cuts whose writes end at 64-bit offsets, one of
two extents of a file that touch is over the limit. -/
theorem defragmented_of_run (toFile : ByteFile.File) (now : JournalStore.SystemTime) (s : Snapshot)
    (reached : Reaches merging (fun _ call => Uncut call ∧ unwrapped call = true) (Snapshot.new toFile now) s) :
    AllData Defragmented s := by
  refine (reached.invariant (motive := fun s => Arranged s ∧ AllData Defragmented s)
    ⟨arranged_new toFile now, fun _ _ _ found => (by cases found)⟩ ?_).2
  rintro s call s' ⟨arranged, defragmented⟩ moves ⟨⟨fit, uncut⟩, small⟩
  have merges := merges_of_mergeCall moves
  refine ⟨arranged.merges merges fit small, defragmented.merges defragmented_empty merges fit ?_ ?_⟩
  · intro path size data named
    exact absurd named (uncut path size)
  · intro path offset buf data after named held before encoded
    obtain ⟨filled, ends⟩ := filled_of_proper named fit small
    obtain ⟨tidy, ordered⟩ := arranged.space held s.serialised
    exact encode_defragmented tidy ordered filled ends encoded before

/-- The last byte before the largest offset, and the byte there. -/
def lastTwoBytes : List VFSCall := [.write [[97]] (-2) [1], .write [[97]] (-1) [2]]

/-- The end of the second write wraps, so that it does not see the first. -/
theorem wrapped_write_fragments : ∃ s, Reaches merging (fun _ call => Uncut call) (Snapshot.new [] epoch) s ∧
    ¬ AllData Defragmented s := by
  have merged : ∃ s file data, (Snapshot.new [] epoch).mergeFrom lastTwoBytes = .ok s ∧
      s.files.find [[97]] = some file ∧ file.data = some data ∧
      data.find (2 ^ 64 - 2) = some ⟨40, 1⟩ ∧ data.find (2 ^ 64 - 1) = some ⟨41, 1⟩ :=
    ⟨_, _, _, rfl, rfl, rfl, rfl, rfl⟩
  obtain ⟨s, file, data, merged, found, held, first, second⟩ := merged
  refine ⟨s, reaches_of_mergeFrom .refl merged fun call listed s => ?_, fun defragmented => ?_⟩
  · rcases List.mem_cons.mp listed with rfl | listed
    · exact ⟨rfl, fun _ _ same => by cases same⟩
    · rw [List.mem_singleton.mp listed]
      exact ⟨rfl, fun _ _ same => by cases same⟩
  · exact absurd (defragmented [[97]] file data found held _ _ _ _ first second (by decide)) (by decide)

/-- Two writes that touch are merged to one extent. -/
theorem touching_writes_defragmented : ∃ s, (Snapshot.new [] epoch).mergeFrom
    [.write [[97]] 1 [2], .write [[97]] 0 [1]] = .ok s ∧ Extent s [[97]] 0 ⟨41, 2⟩ ∧ AllData Defragmented s := by
  have merged : ∃ s, (Snapshot.new [] epoch).mergeFrom [.write [[97]] 1 [2], .write [[97]] 0 [1]] = .ok s ∧
      Extent s [[97]] 0 ⟨41, 2⟩ := ⟨_, rfl, _, _, rfl, rfl, rfl⟩
  obtain ⟨s, merged, extent⟩ := merged
  refine ⟨s, merged, extent, defragmented_of_run [] epoch s (reaches_of_mergeFrom .refl merged fun call listed s => ?_)⟩
  rcases List.mem_cons.mp listed with rfl | listed
  · exact ⟨⟨rfl, fun _ _ same => by cases same⟩, by decide⟩
  · rw [List.mem_singleton.mp listed]
    exact ⟨⟨rfl, fun _ _ same => by cases same⟩, by decide⟩

end Fsyncer.SnapshotPartition
