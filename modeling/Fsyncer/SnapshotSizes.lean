import Fsyncer.Base.SparseFile
import Fsyncer.SnapshotContents
import Fsyncer.SnapshotMetadata

/-! The length of a file in a snapshot. Writes, cuts and allocations of a file are
kept as its extents and one size, and the replay writes all extents before it
sets the size. A cut is then repeated behind writes that came after it. -/
namespace Fsyncer.SnapshotSizes
open Fsyncer.ByteFile (offMax readExactAt setLen splice length_setLen length_splice)
open Fsyncer.FileTree
open Fsyncer.Machine Fsyncer.SnapshotContents Fsyncer.SnapshotLayout Fsyncer.SnapshotMetadata Fsyncer.SnapshotPartition
open Fsyncer.SnapshotReplay Fsyncer.SnapshotStore Fsyncer.SparseFile Fsyncer.Vfs
open Fsyncer.SnapshotExtents (epoch)

/-! ### Calls -/

/-- A call that changes the bytes or the length of a file. -/
inductive DataCall where
  | write (offset : Int64) (buf : List UInt8)
  | truncate (size : Int64)
  | fallocate (offset length : Int64)

def DataCall.call (path : Path) : DataCall → VFSCall
  | .write offset buf => .write path offset buf
  | .truncate size => .truncate path size
  | .fallocate offset length => .fallocate path 0 offset length

/-- The arguments for which a file system carries the call out. -/
def DataCall.Valid : DataCall → Prop
  | .write offset buf => buf ≠ [] ∧ 0 ≤ offset.toInt ∧ offset.toInt + buf.length ≤ offMax
  | .truncate size => 0 ≤ size.toInt
  | .fallocate offset length => 0 ≤ offset.toInt ∧ 0 < length.toInt ∧ offset.toInt + length.toInt ≤ offMax

/-- What the call makes of the file. -/
def DataCall.onData (file : ByteFile.File) : DataCall → ByteFile.File
  | .write offset buf => splice file offset.toInt.toNat buf
  | .truncate size => setLen file size.toInt.toNat
  | .fallocate offset length => setLen file (max file.length (offset.toInt + length.toInt).toNat)

/-- What it makes of the bytes that were written. -/
def DataCall.onWritten (written : Written) : DataCall → Written
  | .write offset buf => written.write offset.toInt.toNat buf
  | .truncate size => written.cut size.toInt.toNat
  | .fallocate .. => written

/-- What it makes of the size that the snapshot keeps. -/
def DataCall.onSize (size : FileSize) : DataCall → FileSize
  | .write .. => size
  | .truncate length => .exactly length.toUInt64
  | .fallocate offset length => size.atLeast (offset + length).toUInt64

/-- The file that the calls leave of an empty one. -/
def fileAfter (calls : List DataCall) : ByteFile.File := calls.foldl DataCall.onData []

def sizeAfter (calls : List DataCall) : FileSize := calls.foldl DataCall.onSize .unknown

def writtenAfter (calls : List DataCall) : Written := calls.foldl DataCall.onWritten fun _ => none

/-- No write behind the last cut ends beyond the size that is kept. -/
def Capped (calls : List DataCall) : Prop :=
  ∀ size, sizeAfter calls = .exactly size → (fileAfter calls).length ≤ size.toNat

/-! ### The size that is kept -/

theorem toNat_toUInt64 (nonneg : 0 ≤ value.toInt) : (value : Int64).toUInt64.toNat = value.toInt.toNat := by
  have below := value.toInt_lt
  have same : value = Int64.ofNat value.toInt.toNat := by
    rw [← Int64.toInt_inj, Int64.toInt_ofNat_of_lt (by omega)]
    omega
  have bound : value.toInt.toNat < 2 ^ 64 := by omega
  conv_lhs => rw [same]
  simpa using bound

theorem toInt_toInt64 (small : value.toNat ≤ offMax) : (value : UInt64).toInt64.toInt = value.toNat := by
  have same : value.toInt64 = Int64.ofNat value.toNat := by
    rw [← UInt64.toInt64_ofNat', UInt64.ofNat_toNat]
  rw [same]
  exact Int64.toInt_ofNat_of_lt (by unfold offMax at small; omega)

theorem toInt_add {offset length : Int64} (valid : (DataCall.fallocate offset length).Valid) :
    (offset + length).toInt = offset.toInt + length.toInt := by
  obtain ⟨nonneg, positive, small⟩ := valid
  rw [Int64.toInt_add]
  unfold offMax at small
  exact Int.bmod_eq_of_le (by omega) (by omega)

/-- What the kept size says about the length of the file. -/
def Fits (file : ByteFile.File) (written : Written) : FileSize → Prop
  | .exactly size => size.toNat ≤ file.length
  | .moreThan size => 0 < size.toNat ∧ size.toNat ≤ file.length ∧ (file.length = size.toNat ∨ Tight file written)
  | .unknown => Tight file written

theorem fits_congr (size : FileSize) (same : other.length = file.length) (fits : Fits file written size) : Fits other written size := by
  cases size <;> simpa only [Fits, Tight, same] using fits

section Calls
variable {file : ByteFile.File} {written : Written} {size : FileSize} {call : DataCall} {calls : List DataCall}

theorem represents_onData (represents : Represents file written) (call : DataCall) :
    Represents (call.onData file) (call.onWritten written) := by
  cases call with
  | write offset buf => exact represents.splice _ _
  | truncate size => exact represents.setLen _
  | fallocate offset length => exact represents.extend (Nat.le_max_left _ _)

theorem fits_write (fits : Fits file written size) (filled : buf ≠ []) (offset : ℕ) :
    Fits (splice file offset buf) (written.write offset buf) size := by
  have length : (splice file offset buf).length = max file.length (offset + buf.length) := length_splice ..
  cases size with
  | exactly size =>
    show size.toNat ≤ _
    have : size.toNat ≤ file.length := fits
    omega
  | moreThan size =>
    obtain ⟨positive, least, ends⟩ := fits
    refine ⟨positive, by omega, ?_⟩
    by_cases beyond : file.length ≤ offset + buf.length
    · exact .inr (tight_splice filled beyond)
    · refine ends.imp (fun same => by omega) fun tight => tight.splice filled offset
  | unknown => exact Tight.splice fits filled offset

theorem fits_fallocate (fits : Fits file written size) (ends : UInt64) (positive : 0 < ends.toNat) :
    Fits (setLen file (max file.length ends.toNat)) written (size.atLeast ends) := by
  have length : (setLen file (max file.length ends.toNat)).length = max file.length ends.toNat := length_setLen ..
  have same (within : ends.toNat ≤ file.length) : (setLen file (max file.length ends.toNat)).length = file.length := by
    omega
  cases size with
  | exactly held =>
    have least : held.toNat ≤ file.length := fits
    unfold FileSize.atLeast
    dsimp only
    split
    · show ends.toNat ≤ _
      omega
    · show held.toNat ≤ _
      omega
  | moreThan held =>
    obtain ⟨positiveHeld, least, last⟩ := fits
    unfold FileSize.atLeast
    dsimp only
    split
    · next more =>
      have more : held.toNat < ends.toNat := UInt64.lt_iff_toNat_lt.mp more
      refine ⟨positive, by omega, ?_⟩
      by_cases within : file.length ≤ ends.toNat
      · exact .inl (by omega)
      · have tight := last.resolve_left (by omega)
        exact .inr (fits_congr .unknown (same (by omega)) tight)
    · next less =>
      have less : ends.toNat ≤ held.toNat := Nat.not_lt.mp fun more => less (UInt64.lt_iff_toNat_lt.mpr more)
      exact fits_congr (.moreThan held) (same (by omega)) ⟨positiveHeld, least, last⟩
  | unknown =>
    refine ⟨positive, by omega, ?_⟩
    by_cases within : file.length ≤ ends.toNat
    · exact .inl (by omega)
    · exact .inr (fits_congr .unknown (same (by omega)) fits)

theorem fits_onData (fits : Fits file written size) (valid : call.Valid) :
    Fits (call.onData file) (call.onWritten written) (call.onSize size) := by
  cases call with
  | write offset buf => exact fits_write fits valid.1 _
  | truncate length =>
    show length.toUInt64.toNat ≤ (setLen file length.toInt.toNat).length
    rw [length_setLen, toNat_toUInt64 valid]
  | fallocate offset length =>
    have added := toInt_add valid
    obtain ⟨nonneg, positive, -⟩ := valid
    have ends : (offset + length).toUInt64.toNat = (offset.toInt + length.toInt).toNat := by
      rw [toNat_toUInt64 (by omega), added]
    have kept := fits_fallocate fits (offset + length).toUInt64 (by omega)
    rwa [ends] at kept

theorem length_onData (small : file.length ≤ offMax) (valid : call.Valid) : (call.onData file).length ≤ offMax := by
  cases call with
  | write offset buf =>
    obtain ⟨-, nonneg, ends⟩ := valid
    show (splice ..).length ≤ _
    rw [length_splice]
    omega
  | truncate size =>
    have below := size.toInt_lt
    show (setLen ..).length ≤ _
    rw [length_setLen]
    unfold offMax
    omega
  | fallocate offset length =>
    obtain ⟨nonneg, positive, ends⟩ := valid
    show (setLen ..).length ≤ _
    rw [length_setLen]
    omega

/-- A file while calls are made on it, and what the snapshot knows of it. -/
structure Follows (file : ByteFile.File) (written : Written) (size : FileSize) : Prop where
  represents : Represents file written
  fits : Fits file written size
  small : file.length ≤ offMax

theorem Follows.foldl (follows : Follows file written size) (valid : ∀ call ∈ calls, call.Valid) :
    Follows (calls.foldl DataCall.onData file) (calls.foldl DataCall.onWritten written)
      (calls.foldl DataCall.onSize size) := by
  induction calls generalizing file written size with
  | nil => exact follows
  | cons call calls ih =>
    have here := valid call List.mem_cons_self
    exact ih ⟨represents_onData follows.represents call, fits_onData follows.fits here, length_onData follows.small here⟩
      fun other listed => valid other (List.mem_cons_of_mem _ listed)

theorem follows_after (valid : ∀ call ∈ calls, call.Valid) :
    Follows (fileAfter calls) (writtenAfter calls) (sizeAfter calls) :=
  Follows.foldl ⟨represents_nil, .inl rfl, Nat.zero_le _⟩ valid

end Calls

/-! ### What the snapshot holds -/

/-- The entry of a new file with extents and a size. -/
def sizedFile (uid gid mode : UInt32) (flags : Int32) (size : FileSize) (data : DataList) : File :=
  { newFile uid gid mode flags with size := size, data := some data }

/-- A new file, and the calls on it. -/
def history (path : Path) (uid gid mode : UInt32) (flags : Int32) (calls : List DataCall) : List VFSCall :=
  .create path flags (.unix uid gid) mode :: calls.map (DataCall.call path)

section Snapshots
variable {s s' : Snapshot} {path : Path} {uid gid mode : UInt32} {flags : Int32} {size : FileSize} {data : DataList}
  {calls : List DataCall}

theorem mergeCall_data (call : DataCall) (holds : s.files = single path (sizedFile uid gid mode flags size data))
    (merged : s.mergeCall (call.call path) = .ok s') :
    ∃ after, s'.files = single path (sizedFile uid gid mode flags (call.onSize size) after) := by
  have found : getOrOpen s.files path = sizedFile uid gid mode flags size data := by
    rw [holds, getOrOpen_single]
  cases call with
  | write offset buf =>
    obtain ⟨_, after, -, -, rfl⟩ := encodeWrite_ok merged
    refine ⟨after.data, ?_⟩
    dsimp only
    rw [found, holds, insert_single]
    rfl
  | truncate length =>
    cases merged
    refine ⟨(truncateData data s.freeList length.toUInt64.toNat).1, ?_⟩
    unfold Snapshot.truncate
    rw [found, holds]
    exact insert_single ..
  | fallocate offset length =>
    cases merged
    refine ⟨data, ?_⟩
    unfold Snapshot.amend
    dsimp only
    rw [found, holds, insert_single]
    rfl

theorem mergeFrom_data (calls : List DataCall) (holds : s.files = single path (sizedFile uid gid mode flags size data))
    (merged : s.mergeFrom (calls.map (DataCall.call path)) = .ok s') :
    ∃ after, s'.files = single path (sizedFile uid gid mode flags (calls.foldl DataCall.onSize size) after) := by
  induction calls generalizing s size data with
  | nil =>
    cases merged
    exact ⟨data, holds⟩
  | cons call calls ih =>
    rw [Snapshot.mergeFrom, List.map_cons, List.foldlM_cons] at merged
    obtain ⟨middle, here, rest⟩ := bind_ok.mp merged
    obtain ⟨after, next⟩ := mergeCall_data call holds here
    exact ih next rest

/-- One file, with the size that is kept. -/
theorem files_of_merged (merged : (Snapshot.new toFile now).mergeFrom (history path uid gid mode flags calls) = .ok s) :
    ∃ data, s.files = single path (sizedFile uid gid mode flags (sizeAfter calls) data) := by
  rw [Snapshot.mergeFrom, history, List.foldlM_cons] at merged
  obtain ⟨middle, here, rest⟩ := bind_ok.mp merged
  cases here
  have holds : ((Snapshot.new toFile now).put path (newFile uid gid mode flags)).files =
      single path (sizedFile uid gid mode flags .unknown .empty) := rfl
  exact mergeFrom_data calls holds rest

theorem apply_call (contents : Contents) (path : Path) {call : DataCall} (valid : call.Valid) :
    contents.apply (call.call path) path = call.onWritten (contents path) := by
  cases call with
  | write offset buf =>
    rw [DataCall.call, Contents.apply, Function.update_self, toNat_toUInt64 valid.2.1]
    rfl
  | truncate size =>
    rw [DataCall.call, Contents.apply, Function.update_self, toNat_toUInt64 valid]
    rfl
  | fallocate => rfl

theorem foldl_apply (contents : Contents) (path : Path) (valid : ∀ call ∈ calls, call.Valid) :
    (calls.map (DataCall.call path)).foldl Contents.apply contents path =
      calls.foldl DataCall.onWritten (contents path) := by
  induction calls generalizing contents with
  | nil => rfl
  | cons call calls ih =>
    rw [List.map_cons, List.foldl_cons, ih _ fun other listed => valid other (List.mem_cons_of_mem _ listed),
      apply_call contents path (valid call List.mem_cons_self), List.foldl_cons]

theorem fine_call (path : Path) {call : DataCall} (valid : call.Valid) :
    plain (call.call path) = true ∧ unwrapped (call.call path) = true := by
  cases call with
  | write offset buf =>
    obtain ⟨filled, nonneg, ends⟩ := valid
    refine ⟨by simp [DataCall.call, plain, filled], decide_eq_true ?_⟩
    unfold offMax at ends
    rw [toNat_toUInt64 nonneg]
    omega
  | truncate | fallocate => exact ⟨rfl, rfl⟩

/-- The extents are in the snapshot's file, are apart, and read as what was written. -/
structure Extents (s : Snapshot) (data : DataList) (written : Written) : Prop where
  ordered : Ordered data
  stored : Stored s.serialised.length data
  reads : ∀ position byte, Reads data s.serialised position byte ↔ written position = some byte

theorem extents_of_merged (merged : (Snapshot.new toFile now).mergeFrom (history path uid gid mode flags calls) = .ok s)
    (holds : s.files = single path (sizedFile uid gid mode flags (sizeAfter calls) data))
    (valid : ∀ call ∈ calls, call.Valid) : Extents s data (writtenAfter calls) := by
  have fine : ∀ call ∈ history path uid gid mode flags calls, plain call = true ∧ unwrapped call = true := by
    intro call listed
    rcases List.mem_cons.mp listed with rfl | listed
    · exact ⟨rfl, rfl⟩
    · obtain ⟨made, here, rfl⟩ := List.mem_map.mp listed
      exact fine_call path (valid made here)
  have faithful := (faithful_new toFile now).mergeFrom fine merged
  have found : s.files.find path = some (sizedFile uid gid mode flags (sizeAfter calls) data) := by
    rw [holds]
    exact SortedMap.find_insert_self ..
  refine ⟨faithful.arranged.ordered path _ data found rfl, faithful.stored path _ data found rfl, fun position byte => ?_⟩
  have created : Contents.apply (fun _ _ => none) (.create path flags (.unix uid gid) mode) path = fun _ => none := by
    rw [Contents.apply, Function.update_self]
  rw [← pathReads_found found rfl, faithful.denotes, history, List.foldl_cons, foldl_apply _ path valid, created]
  rfl

end Snapshots

/-! ### What is replayed -/

/-- An extent as a part of the file. -/
def partOf (serialised : ByteFile.File) (extent : ℕ × Block) : Part :=
  (extent.1, slice serialised extent.2.location extent.2.size)

def writeOf (part : Part) : DataCall := .write (Int64.ofNat part.1) part.2

/-- The call that sets the size. -/
def sizeCall : FileSize → List DataCall
  | .exactly size => [.truncate size.toInt64]
  | .moreThan size => [.fallocate 0 size.toInt64]
  | .unknown => []

def partsOf (serialised : ByteFile.File) (data : DataList) : List Part := data.entries.map (partOf serialised)

/-- The calls on the file when the snapshot is applied. -/
def replayed (serialised : ByteFile.File) (data : DataList) (size : FileSize) : List DataCall :=
  (partsOf serialised data).map writeOf ++ sizeCall size

section Replay
variable {s : Snapshot} {path : Path} {uid gid mode : UInt32} {flags : Int32} {size : FileSize} {data : DataList}
  {calls : List DataCall} {written : Written}

theorem extentCall_stored (path : Path) (stored : extent.2.location + extent.2.size ≤ serialised.length) :
    extentCall serialised path extent = .ok ((writeOf (partOf serialised extent)).call path) := by
  unfold extentCall readExactAt
  rw [if_pos (.inr stored)]
  rfl

theorem extentCalls_stored (path : Path) (stored : Stored serialised.length data) :
    extentCalls serialised path (some data.entries) =
      .ok (((partsOf serialised data).map writeOf).map (DataCall.call path)) := by
  have each : ∀ extent ∈ data.entries, extent.2.location + extent.2.size ≤ serialised.length :=
    fun extent listed => stored extent.1 extent.2 (SortedMap.mem_entries_iff.mp listed)
  unfold extentCalls partsOf
  rw [Option.getD_some]
  generalize data.entries = extents at each
  induction extents with
  | nil => rfl
  | cons extent extents ih =>
    exact mapM_cons_ok.mpr ⟨_, _, extentCall_stored path (each extent List.mem_cons_self),
      ih fun other listed => each other (List.mem_cons_of_mem _ listed), rfl⟩

/-- First the file is made, then come its extents, and its size comes last. -/
theorem produces_sized (order : HashOrder) (holds : s.files = single path (sizedFile uid gid mode flags size data))
    (stored : Stored s.serialised.length data) : Produces order (SnapshotReplay.apply s)
      (history path uid gid mode flags (replayed s.serialised data size)) := by
  have file : replayFile order s.serialised (path, sizedFile uid gid mode flags size data) =
      .ok (history path uid gid mode flags (replayed s.serialised data size)) := by
    refine replayParts_ok.mpr ⟨_, [], extentCalls_stored path stored, rfl, .inl ?_⟩
    refine ⟨.create path flags (.unix uid gid) mode, { File.default with size := size, ty := .new flags }, rfl, ?_⟩
    unfold history replayed
    rw [List.map_append, List.append_nil]
    cases size <;> rfl
  rw [produces_apply, holds]
  exact ⟨_, mapM_cons_ok.mpr ⟨_, [], file, rfl, rfl⟩, (List.append_nil _).symm⟩

/-- What is written again is what was written. -/
theorem foldl_parts (extents : Extents s data written) :
    (partsOf s.serialised data).foldl (fun (written : Written) part => written.write part.1 part.2) (fun _ => none) = written := by
  have length {offset : ℕ} {block : Block} (found : data.find offset = some block) :
      (slice s.serialised block.location block.size).length = block.size := length_slice (extents.stored offset block found)
  have disjoint : (partsOf s.serialised data).Pairwise fun part later => ∀ i, part.Covers i → ¬ later.Covers i := by
    refine List.pairwise_map.mpr (data.sorted.imp_of_mem fun {first second} here there below i covers covers' => ?_)
    have found := SortedMap.mem_entries_iff.mp here
    have apart := extents.ordered.apart _ _ _ _ found (SortedMap.mem_entries_iff.mp there) below
    have inside : i < first.1 + (slice s.serialised first.2.location first.2.size).length := covers.2
    have begins : second.1 ≤ i := covers'.1
    rw [length found] at inside
    omega
  funext i
  refine Option.ext fun byte => ?_
  rw [foldl_write disjoint, ← extents.reads]
  constructor
  · rintro (⟨part, listed, ⟨begins, inside⟩, read⟩ | ⟨-, none⟩)
    · obtain ⟨⟨offset, block⟩, there, rfl⟩ := List.mem_map.mp listed
      have found := SortedMap.mem_entries_iff.mp there
      have inside : i < offset + (slice s.serialised block.location block.size).length := inside
      rw [length found] at inside
      have begins : offset ≤ i := begins
      have read : (slice s.serialised block.location block.size)[i - offset]? = some byte := read
      rw [getElem?_slice _ _ _ (by omega)] at read
      exact ⟨offset, block, found, begins, inside, read⟩
    · cases none
  · rintro ⟨offset, block, found, begins, inside, read⟩
    refine .inl ⟨_, List.mem_map.mpr ⟨(offset, block), SortedMap.mem_entries_iff.mpr found, rfl⟩, ⟨begins, ?_⟩, ?_⟩
    · show i < offset + (slice s.serialised block.location block.size).length
      rwa [length found]
    · show (slice s.serialised block.location block.size)[i - offset]? = some byte
      rwa [getElem?_slice _ _ _ (by omega)]

/-- An extent ends where the file ends, or before. -/
theorem end_le (extents : Extents s data written) (represents : Represents file written)
    (found : data.find offset = some block) : offset + block.size ≤ file.length := by
  obtain ⟨positive, -⟩ := extents.ordered.solid offset block found
  have stored := extents.stored offset block found
  have inside : block.location + (block.size - 1) < s.serialised.length := by omega
  have reads : Reads data s.serialised (offset + block.size - 1) (s.serialised.get ⟨_, inside⟩) := by
    refine ⟨offset, block, found, by omega, by omega, ?_⟩
    rw [show offset + block.size - 1 - offset = block.size - 1 by omega]
    exact List.getElem?_eq_getElem inside
  have last := represents.within _ ((extents.reads _ _).mp reads ▸ Option.some_ne_none _)
  omega

theorem valid_writeOf (extents : Extents s data written) (represents : Represents file written)
    (small : file.length ≤ offMax) (listed : part ∈ partsOf s.serialised data) :
    (writeOf part).Valid ∧ (Int64.ofNat part.1).toInt.toNat = part.1 := by
  obtain ⟨⟨offset, block⟩, there, rfl⟩ := List.mem_map.mp listed
  have found := SortedMap.mem_entries_iff.mp there
  obtain ⟨positive, -⟩ := extents.ordered.solid offset block found
  have ends := end_le extents represents found
  have length : (slice s.serialised block.location block.size).length = block.size :=
    length_slice (extents.stored offset block found)
  have toInt : (Int64.ofNat offset).toInt = offset := Int64.toInt_ofNat_of_lt (by unfold offMax at small; omega)
  refine ⟨⟨List.length_pos_iff.mp (length ▸ positive), ?_, ?_⟩, ?_⟩
  · show 0 ≤ (Int64.ofNat offset).toInt
    omega
  · show (Int64.ofNat offset).toInt + (slice s.serialised block.location block.size).length ≤ offMax
    omega
  · show (Int64.ofNat offset).toInt.toNat = offset
    omega

theorem valid_sizeCall (follows : Follows file written size) : ∀ call ∈ sizeCall size, call.Valid := by
  obtain ⟨-, fits, small⟩ := follows
  intro call listed
  cases size with
  | unknown => cases listed
  | exactly length =>
    have least : length.toNat ≤ file.length := fits
    rw [List.mem_singleton.mp listed]
    show 0 ≤ length.toInt64.toInt
    rw [toInt_toInt64 (by omega)]
    omega
  | moreThan length =>
    obtain ⟨positive, least, -⟩ := fits
    rw [List.mem_singleton.mp listed]
    refine ⟨Int.le_refl 0, ?_, ?_⟩
    · rw [toInt_toInt64 (by omega)]
      omega
    · rw [toInt_toInt64 (by omega)]
      show (0 : Int) + length.toNat ≤ offMax
      omega

/-- All calls of the replay are carried out. -/
theorem valid_replayed (extents : Extents s data written) (follows : Follows file written size) :
    ∀ call ∈ replayed s.serialised data size, call.Valid := by
  intro call listed
  rcases List.mem_append.mp listed with listed | listed
  · obtain ⟨part, there, rfl⟩ := List.mem_map.mp listed
    exact (valid_writeOf extents follows.represents follows.small there).1
  · exact valid_sizeCall follows call listed

/-- The extents alone give the file up to the last byte that was written. -/
theorem tight_parts (extents : Extents s data written) (represents : Represents file written)
    (small : file.length ≤ offMax) : ∃ restored, ((partsOf s.serialised data).map writeOf).foldl DataCall.onData [] = restored ∧
      Represents restored written ∧ Tight restored written := by
  have each {part : Part} (listed : part ∈ partsOf s.serialised data) := valid_writeOf extents represents small listed
  have fold : ∀ parts ⊆ partsOf s.serialised data, ∀ start begun, Represents start begun → Tight start begun →
      Represents ((parts.map writeOf).foldl DataCall.onData start)
          (parts.foldl (fun (written : Written) part => written.write part.1 part.2) begun) ∧
        Tight ((parts.map writeOf).foldl DataCall.onData start)
          (parts.foldl (fun (written : Written) part => written.write part.1 part.2) begun) := by
    intro parts
    induction parts with
    | nil => exact fun _ start begun represents tight => ⟨represents, tight⟩
    | cons part parts ih =>
      intro within start begun represents tight
      obtain ⟨valid, offset⟩ := each (within List.mem_cons_self)
      have step : (writeOf part).onData start = splice start part.1 part.2 := by
        show splice start (Int64.ofNat part.1).toInt.toNat part.2 = _
        rw [offset]
      rw [List.map_cons, List.foldl_cons, List.foldl_cons, step]
      exact ih (fun other listed => within (List.mem_cons_of_mem _ listed)) _ _ (represents.splice _ _)
        (tight.splice valid.1 _)
  have whole := fold _ (List.Subset.refl _) [] (fun _ => none) represents_nil (.inl rfl)
  rw [foldl_parts extents] at whole
  exact ⟨_, rfl, whole⟩

/-- The size is set on what the extents give. -/
theorem restored_iff (follows : Follows file written size) (again : Represents restored written)
    (tight : Tight restored written) : (sizeCall size).foldl DataCall.onData restored = file ↔
      ∀ kept, size = .exactly kept → file.length ≤ kept.toNat := by
  obtain ⟨represents, fits, small⟩ := follows
  have shorter := tight.length_le represents
  cases size with
  | unknown =>
    have same : restored = file := (again.eq_iff represents).mpr (Nat.le_antisymm shorter (Tight.length_le fits again))
    exact iff_of_true same nofun
  | exactly kept =>
    have least : kept.toNat ≤ file.length := fits
    have set : (sizeCall (.exactly kept)).foldl DataCall.onData restored = setLen restored kept.toNat := by
      show setLen restored kept.toInt64.toInt.toNat = _
      rw [toInt_toInt64 (by omega), Int.toNat_natCast]
    rw [set]
    constructor
    · rintro rfl _ ⟨⟩
      rw [length_setLen]
    · intro capped
      have same : file.length = kept.toNat := Nat.le_antisymm (capped kept rfl) least
      rw [(again.extend (by omega)).eq_iff represents, length_setLen, same]
  | moreThan kept =>
    obtain ⟨positive, least, ends⟩ := fits
    have set : (sizeCall (.moreThan kept)).foldl DataCall.onData restored =
        setLen restored (max restored.length kept.toNat) := by
      show setLen restored (max restored.length (0 + kept.toInt64.toInt).toNat) = _
      rw [toInt_toInt64 (by omega), Int.zero_add, Int.toNat_natCast]
    refine iff_of_true ?_ nofun
    rw [set, (again.extend (Nat.le_max_left _ _)).eq_iff represents, length_setLen]
    rcases ends with same | tightFile
    · omega
    · have := Tight.length_le tightFile again
      omega

/-- The replay gives the file back unless the size that is kept cuts it. -/
theorem fileAfter_replayed (extents : Extents s data (writtenAfter calls)) (valid : ∀ call ∈ calls, call.Valid) :
    fileAfter (replayed s.serialised data (sizeAfter calls)) = fileAfter calls ↔ Capped calls := by
  have follows := follows_after valid
  obtain ⟨restored, parts, again, tight⟩ := tight_parts extents follows.represents follows.small
  rw [fileAfter, replayed, List.foldl_append, parts]
  exact restored_iff follows again tight

end Replay

/-! ### Files on a tree -/

/-- The bytes of the file under a path. -/
def bytesAt (t : Tree) (path : Path) : Except Errno ByteFile.File := do
  t.contents (← t.openFile path)

section Dispatch
variable {process : Process} {root path : Path} {t : Tree} {i : ℕ} {file : ByteFile.File} {call : DataCall}
  {calls : List DataCall}

theorem dispatch_data (process : Process) (opened : t.openFile (root ++ path) = .ok i) (held : t.contents i = .ok file)
    (valid : call.Valid) :
    (dispatch process root t (call.call path)).map Prod.snd = some (t.store i (call.onData file)) := by
  cases call with
  | write offset buf =>
    obtain ⟨filled, nonneg, ends⟩ := valid
    have wrote : t.pwrite i buf offset.toInt = .ok (t.store i (splice file offset.toInt.toNat buf)) := by
      unfold Tree.pwrite
      rw [held, ok_bind, if_neg (by omega), if_neg filled, if_pos ends]
    simp only [DataCall.call, dispatch, withFile, translatePath, opened, xmpWrite, wrote]
    rfl
  | truncate size =>
    have below := size.toInt_lt
    have small : size.toInt ≤ offMax := by unfold offMax; omega
    have nonneg : 0 ≤ size.toInt := valid
    have cut : t.truncate (root ++ path) size.toInt = .ok (t.store i (setLen file size.toInt.toNat)) := by
      unfold Tree.truncate Tree.ftruncate
      rw [opened, ok_bind, held, ok_bind, if_neg (by omega), if_pos small]
    simp only [DataCall.call, dispatch, translatePath, cut, status]
    rfl
  | fallocate offset length =>
    obtain ⟨nonneg, positive, ends⟩ := valid
    have reserved : t.fallocate i (0 : Int32).toInt offset.toInt length.toInt =
        .ok (t.store i (setLen file (max file.length (offset.toInt + length.toInt).toNat))) := by
      unfold Tree.fallocate
      rw [held, ok_bind, if_neg (by omega), if_neg (by omega)]
      exact if_pos rfl
    simp only [DataCall.call, dispatch, withFile, translatePath, opened, reserved, status]
    rfl

theorem dispatchAll_data (process : Process) (opened : t.openFile (root ++ path) = .ok i)
    (held : t.contents i = .ok file) (valid : ∀ call ∈ calls, call.Valid) :
    dispatchAll process root t (calls.map (DataCall.call path)) =
      some (t.store i (calls.foldl DataCall.onData file)) := by
  induction calls generalizing t file with
  | nil => exact congrArg some (Tree.store_contents held).symm
  | cons call calls ih =>
    have rest := ih (Tree.openFile_store opened (call.onData file)) (Tree.contents_store held _)
      fun other listed => valid other (List.mem_cons_of_mem _ listed)
    rw [Tree.store_store] at rest
    unfold dispatchAll at rest ⊢
    rw [List.map_cons, List.foldlM_cons, dispatch_data process opened held (valid call List.mem_cons_self)]
    exact rest

/-- The calls leave the file that they make of an empty one. -/
theorem dispatchAll_history (process : Process) (uid gid mode : UInt32) (absent : t.names.find (root ++ path) = none)
    (makeable : Makeable t (root ++ path) (.create flags)) (valid : ∀ call ∈ calls, call.Valid) :
    ∃ after, dispatchAll process root t (history path uid gid mode flags calls) = some after ∧
      bytesAt after (root ++ path) = .ok (fileAfter calls) := by
  let birth : Birth := ⟨.create flags, uid, gid, mode⟩
  let made := t.attach (root ++ path) (birth.node process) absent makeable.1
  have found : made.names.find (root ++ path) = some t.inodes.length :=
    (Tree.find_attach absent makeable.1 _).trans (if_pos rfl)
  have node : made.inode? (root ++ path) = some (birth.node process) :=
    (Tree.inode?_attach absent makeable.1 _).trans (if_pos rfl)
  have opened : made.openFile (root ++ path) = .ok t.inodes.length := by
    rw [Tree.openFile, found, node]
    rfl
  have held : made.contents t.inodes.length = .ok [] := by
    rw [Tree.inode?, inodeIn, found, Option.bind_some] at node
    rw [Tree.contents, node]
    rfl
  refine ⟨made.store t.inodes.length (fileAfter calls), ?_, ?_⟩
  · have rest := dispatchAll_data process opened held valid
    unfold dispatchAll at rest ⊢
    rw [history, List.foldlM_cons,
      show (dispatch process root t (.create path flags (.unix uid gid) mode)).map Prod.snd = some made from
        dispatch_birth process absent birth makeable]
    exact rest
  · rw [bytesAt, Tree.openFile_store opened, ok_bind, Tree.contents_store held]

end Dispatch

/-- A new file, and any writes, cuts and allocations of it that are carried out:
when the snapshot of these calls is applied, the file has the bytes and the
length that it has after the calls themselves if and only if no write behind
the last cut ends beyond the size that is kept. -/
theorem replay_restores_file_iff (process : Process) (root path : Path) (t : Tree) (order : HashOrder)
    (toFile : ByteFile.File) (now : JournalStore.SystemTime) (uid gid mode : UInt32) (flags : Int32)
    (calls : List DataCall) (s : Snapshot) (absent : t.names.find (root ++ path) = none)
    (makeable : Makeable t (root ++ path) (.create flags)) (valid : ∀ call ∈ calls, call.Valid)
    (merged : (Snapshot.new toFile now).mergeFrom (history path uid gid mode flags calls) = .ok s) :
    ∃ replay before after, Produces order (SnapshotReplay.apply s) replay ∧
      dispatchAll process root t (history path uid gid mode flags calls) = some before ∧
      dispatchAll process root t replay = some after ∧
      bytesAt before (root ++ path) = .ok (fileAfter calls) ∧
      (bytesAt after (root ++ path) = bytesAt before (root ++ path) ↔ Capped calls) := by
  obtain ⟨data, holds⟩ := files_of_merged merged
  have extents := extents_of_merged merged holds valid
  have again := valid_replayed extents (follows_after valid)
  obtain ⟨before, first, bytes⟩ := dispatchAll_history process uid gid mode absent makeable valid
  obtain ⟨after, second, restored⟩ := dispatchAll_history process uid gid mode absent makeable again
  refine ⟨_, before, after, produces_sized order holds extents.stored, first, second, bytes, ?_⟩
  rw [bytes, restored, Except.ok.injEq]
  exact fileAfter_replayed extents valid

/-- A hole, an allocation, and a cut that nothing is written behind. -/
def cutInTheEnd : List DataCall := [.write 4 [1, 2], .fallocate 0 9, .truncate 5]

theorem cut_last_restored : ∃ s replay before after,
    (Snapshot.new [] epoch).mergeFrom (history [[97]] 0 0 0o644 64 cutInTheEnd) = .ok s ∧
    Produces ⟨id, fun _ => .refl _⟩ (SnapshotReplay.apply s) replay ∧
    dispatchAll superuser [] (Tree.bare superuser) (history [[97]] 0 0 0o644 64 cutInTheEnd) = some before ∧
    dispatchAll superuser [] (Tree.bare superuser) replay = some after ∧
    bytesAt before [[97]] = .ok [0, 0, 0, 0, 1] ∧ bytesAt after [[97]] = bytesAt before [[97]] := by
  have valid : ∀ call ∈ cutInTheEnd, call.Valid := by
    intro call listed
    simp only [cutInTheEnd, List.mem_cons, List.not_mem_nil, or_false] at listed
    rcases listed with rfl | rfl | rfl
    · exact ⟨by decide, by decide, by decide⟩
    · exact ⟨by decide, by decide, by decide⟩
    · exact (by decide : 0 ≤ (5 : Int64).toInt)
  have capped : Capped cutInTheEnd := by
    intro size kept
    cases kept
    decide
  obtain ⟨s, merged⟩ : ∃ s, (Snapshot.new [] epoch).mergeFrom (history [[97]] 0 0 0o644 64 cutInTheEnd) = .ok s := ⟨_, rfl⟩
  obtain ⟨replay, before, after, produced, first, second, bytes, restored⟩ := replay_restores_file_iff superuser [] [[97]]
    (Tree.bare superuser) ⟨id, fun _ => .refl _⟩ [] epoch 0 0 0o644 64 cutInTheEnd s rfl ⟨rfl, rfl⟩ valid merged
  exact ⟨s, replay, before, after, merged, produced, first, second, bytes, restored.mpr capped⟩

/-- A file is cut to two bytes, and then written again. -/
def cutAndWritten : List DataCall := [.truncate 2, .write 0 [1, 2, 3, 4]]

/-- The last two bytes are cut off again. -/
theorem written_bytes_cut : ∃ s before after,
    (Snapshot.new [] epoch).mergeFrom (history [[97]] 0 0 0o644 64 cutAndWritten) = .ok s ∧
    (∀ order, Produces order (SnapshotReplay.apply s)
      (history [[97]] 0 0 0o644 64 [.write 0 [1, 2, 3, 4], .truncate 2])) ∧
    dispatchAll superuser [] (Tree.bare superuser) (history [[97]] 0 0 0o644 64 cutAndWritten) = some before ∧
    dispatchAll superuser [] (Tree.bare superuser) (history [[97]] 0 0 0o644 64 [.write 0 [1, 2, 3, 4], .truncate 2]) =
      some after ∧
    bytesAt before [[97]] = .ok [1, 2, 3, 4] ∧ bytesAt after [[97]] = .ok [1, 2] := by
  have merged : ∃ s data, (Snapshot.new [] epoch).mergeFrom (history [[97]] 0 0 0o644 64 cutAndWritten) = .ok s ∧
      s.files = single [[97]] (sizedFile 0 0 0o644 64 (.exactly 2) data) ∧
      replayed s.serialised data (.exactly 2) = [.write 0 [1, 2, 3, 4], .truncate 2] :=
    ⟨_, SortedMap.empty.insert 0 ⟨40, 4⟩, rfl, rfl, rfl⟩
  obtain ⟨s, data, merged, holds, calls⟩ := merged
  have valid : ∀ call ∈ cutAndWritten, call.Valid := by
    intro call listed
    simp only [cutAndWritten, List.mem_cons, List.not_mem_nil, or_false] at listed
    rcases listed with rfl | rfl
    · exact (by decide : 0 ≤ (2 : Int64).toInt)
    · exact ⟨by decide, by decide, by decide⟩
  have again : ∀ call ∈ [DataCall.write 0 [1, 2, 3, 4], .truncate 2], call.Valid := by
    intro call listed
    simp only [List.mem_cons, List.not_mem_nil, or_false] at listed
    rcases listed with rfl | rfl
    · exact ⟨by decide, by decide, by decide⟩
    · exact (by decide : 0 ≤ (2 : Int64).toInt)
  have stored := (extents_of_merged merged holds valid).stored
  have makeable : Makeable (Tree.bare superuser) ([] ++ [[97]]) (.create 64) := ⟨rfl, rfl⟩
  obtain ⟨before, first, bytes⟩ := dispatchAll_history superuser 0 0 0o644 rfl makeable valid
  obtain ⟨after, second, restored⟩ := dispatchAll_history superuser 0 0 0o644 rfl makeable again
  exact ⟨s, before, after, merged, fun order => calls ▸ produces_sized order holds stored, first, second, bytes, restored⟩

end Fsyncer.SnapshotSizes
