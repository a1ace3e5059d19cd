import Fsyncer.SnapshotCompaction
import Fsyncer.SnapshotFile
import Fsyncer.SnapshotPartition

/-! Snapshots that are opened again. `open` takes everything behind the data for
free, as much as a `usize` can say, so that this region must not be joined with
a block in front of it. -/
namespace Fsyncer.SnapshotReopen
open Fsyncer.ByteFile (Failure offMax setLen writeAllAt)
open Fsyncer.FileTree (Path)
open Fsyncer.Interleaving (Reaches)
open Fsyncer.JournalStore (traced traced_ok)
open Fsyncer.Machine Fsyncer.Spans Fsyncer.SnapshotBlocks Fsyncer.SnapshotCompaction Fsyncer.SnapshotExtents
open Fsyncer.SnapshotFile Fsyncer.SnapshotLayout Fsyncer.SnapshotPartition Fsyncer.SnapshotSpace Fsyncer.SnapshotStore Fsyncer.Vfs
open Fsyncer.Wire (Codec)

/-! ### What a call does with the free list -/

/-- A use of the free list. -/
inductive SpaceOp where
  | allocate (size : ℕ) (hint : Option ℕ)
  | deallocate (block : Block)

def SpaceOp.run (freeList : FreeList) : SpaceOp → Except Failure FreeList
  | .allocate size hint => (SnapshotStore.allocate freeList size hint).map Prod.snd
  | .deallocate block => .ok (SnapshotStore.deallocate freeList block)

/-- An allocation finds space, and no sum of locations and sizes exceeds 64 bits. -/
def SpaceOp.Fits (freeList : FreeList) : SpaceOp → Prop
  | .allocate size hint => ∃ location entrySize,
    findSpace freeList size hint = some (location, entrySize) ∧ location + size < 2 ^ 64
  | .deallocate block =>
    (∀ location size, entryBelow freeList block.location = some (location, size) → location + size < 2 ^ 64 ∧
      (location + size = block.location → block.size + size < 2 ^ 64)) ∧
    (joinBelow freeList block).2.location + (joinBelow freeList block).2.size < 2 ^ 64 ∧
    ∀ size, (joinBelow freeList block).1.find
        ((joinBelow freeList block).2.location + (joinBelow freeList block).2.size) = some size →
      (joinBelow freeList block).2.size + size < 2 ^ 64

/-- All of the operations fit, one after the other. -/
def OpsFit : FreeList → List SpaceOp → Prop
  | _, [] => True
  | freeList, op :: rest => op.Fits freeList ∧ ∀ after, op.run freeList = .ok after → OpsFit after rest

def releaseOps (extents : List (ℕ × Block)) : List SpaceOp := extents.map fun extent => .deallocate extent.2

/-- Those of `Space.merge`. -/
def mergeOps (offset : ℕ) (buff : List UInt8) (overlaps : List (ℕ × Block)) : List SpaceOp :=
  match dropBack (u64 (offset + buff.length)) (dropFront offset overlaps) with
  | [] => [.allocate buff.length none]
  | first :: rest =>
    let front := firstExclusive offset first
    let back := lastExclusive (u64 (offset + buff.length)) (rest.getLastD first)
    .allocate (u64 (front + buff.length + back)) none :: releaseOps (first :: rest)

/-- Those of `Space.extend`. -/
def extendOps (freeList : FreeList) (offset : ℕ) (buff : List UInt8) (first : ℕ × Block) : List SpaceOp :=
  let overlapSize := usub (u64 (first.1 + first.2.size)) offset
  let behind := u64 (first.2.location + first.2.size)
  .allocate (usub buff.length overlapSize) (some behind) ::
    match allocate freeList (usub buff.length overlapSize) (some behind) with
    | .ok (block, _) => if block.location = behind then [] else .deallocate block :: mergeOps offset buff [first]
    | .error _ => []

/-- Those of `Space.encode`. -/
def encodeOps (data : DataList) (freeList : FreeList) (offset : ℕ) (buff : List UInt8) : List SpaceOp :=
  match overlapsOf data offset buff.length with
  | [first] =>
    if first.1 ≤ offset ∧ u64 (offset + buff.length) ≤ u64 (first.1 + first.2.size) then []
    else if first.1 < offset then extendOps freeList offset buff first
    else mergeOps offset buff [first]
  | overlaps => mergeOps offset buff overlaps

/-- Those of `cutLast`. -/
def cutOps (data : DataList) (size : ℕ) : List SpaceOp :=
  match data.entries.getLast? with
  | some (offset, block) =>
    if size < u64 (offset + block.size) then
      let deallocSize := u64 (offset + block.size) - size
      [.deallocate ⟨u64 (block.location + usub block.size deallocSize), deallocSize⟩]
    else []
  | none => []

def truncateOps (data : DataList) (size : ℕ) : List SpaceOp :=
  releaseOps (data.entries.filter fun extent => size ≤ extent.1) ++
    cutOps (data.filter fun extent => extent.1 < size) size

def fileOps (file : Option File) : List SpaceOp :=
  match file.bind File.data with
  | some data => releaseOps data.entries
  | none => []

/-- The extents that a write or a cut finds under a path. -/
def extentsOf (s : Snapshot) (path : Path) : DataList := (getOrOpen s.files path).data.getD .empty

/-- What `merge_from` does with the free list on a call. -/
def spaceOps (s : Snapshot) : VFSCall → List SpaceOp
  | .unlink path | .rmdir path => fileOps (s.files.find path)
  | .rename source dest _ => fileOps ((s.files.erase source).find dest)
  | .truncate path size => truncateOps (extentsOf s path) size.toUInt64.toNat
  | .write path offset buf | .diffWrite path offset buf =>
    match (getOrOpen s.files path).data with
    | some data => encodeOps data s.freeList offset.toUInt64.toNat buf
    | none => []
  | _ => []

/-- The free list after some operations. -/
def runOps (freeList : FreeList) (ops : List SpaceOp) : Except Failure FreeList := ops.foldlM SpaceOp.run freeList

theorem runOps_append (first second : List SpaceOp) (done : runOps freeList first = .ok middle) :
    runOps freeList (first ++ second) = runOps middle second := by
  unfold runOps at done ⊢
  rw [List.foldlM_append, done]
  rfl

theorem runOps_allocate (allocated : allocate freeList size hint = .ok (block, after)) (rest : List SpaceOp) :
    runOps freeList (.allocate size hint :: rest) = runOps after rest := by
  unfold runOps
  rw [List.foldlM_cons, SpaceOp.run, allocated]
  rfl

theorem allocate_of_run (ran : (SpaceOp.allocate size hint).run freeList = .ok after) :
    ∃ block, allocate freeList size hint = .ok (block, after) := by
  change (allocate freeList size hint).map Prod.snd = .ok after at ran
  cases done : allocate freeList size hint with
  | error => rw [done] at ran; cases ran
  | ok result => rw [done] at ran; cases ran; exact ⟨result.1, rfl⟩

theorem runOps_release (freeList : FreeList) (extents : List (ℕ × Block)) :
    runOps freeList (releaseOps extents) = .ok (deallocateAll freeList extents) := by
  induction extents generalizing freeList with
  | nil => rfl
  | cons extent rest ih => exact ih (deallocate freeList extent.2)

theorem runOps_file (freeList : FreeList) (file : Option File) :
    runOps freeList (fileOps file) = .ok (release freeList file) := by
  unfold fileOps release
  cases file.bind File.data with
  | some data => exact runOps_release freeList data.entries
  | none => rfl

theorem runOps_truncate (data : DataList) (freeList : FreeList) (size : ℕ) :
    runOps freeList (truncateOps data size) = .ok (truncateData data freeList size).2 := by
  unfold truncateOps truncateData
  rw [runOps_append _ _ (runOps_release freeList _)]
  unfold cutOps cutLast
  cases (data.filter fun extent => extent.1 < size).entries.getLast? with
  | none => rfl
  | some last =>
    dsimp only
    split <;> rfl

theorem runOps_merge {s s' : Space} (merged : s.merge offset buff overlaps = .ok s') :
    runOps s.freeList (mergeOps offset buff overlaps) = .ok s'.freeList := by
  unfold Space.merge at merged
  unfold mergeOps
  generalize dropBack (u64 (offset + buff.length)) (dropFront offset overlaps) = kept at merged ⊢
  split at merged
  · obtain ⟨block, freeList, serialised, allocated, -, rfl⟩ := place_ok merged
    exact runOps_allocate allocated []
  · obtain ⟨last, front, back, block, freeList, copied, written, serialised, rfl, rfl, rfl, allocated, -, -, -, rfl⟩ :=
      defragment_ok merged
    exact (runOps_allocate allocated _).trans (runOps_release freeList _)

theorem runOps_encode {s s' : Space} (encoded : s.encode offset buff = .ok s') :
    runOps s.freeList (encodeOps s.data s.freeList offset buff) = .ok s'.freeList := by
  unfold Space.encode at encoded
  unfold encodeOps
  generalize overlapsOf s.data offset buff.length = overlaps at encoded ⊢
  match overlaps with
  | [] => exact runOps_merge encoded
  | first :: second :: rest => exact runOps_merge encoded
  | [first] =>
    dsimp only at encoded ⊢
    split at encoded
    · next inside =>
      obtain ⟨serialised, -, rfl⟩ := replace_ok encoded
      rw [if_pos inside]
      rfl
    · next outside =>
      rw [if_neg outside]
      split at encoded
      · next before =>
        rw [if_pos before]
        unfold extendOps
        obtain ⟨overlapSize, behind, block, freeList, rfl, rfl, allocated, ⟨adjacent, serialised, -, rfl⟩ |
          ⟨apart, retried⟩⟩ := extend_ok encoded
        · dsimp only
          rw [allocated, runOps_allocate allocated]
          dsimp only
          rw [if_pos adjacent]
          rfl
        · dsimp only
          rw [allocated, runOps_allocate allocated]
          dsimp only
          rw [if_neg apart]
          exact runOps_merge retried
      · next before =>
        rw [if_neg before]
        exact runOps_merge encoded

/-- They are all of its uses of the list: run one after the other, they leave the
list that the call leaves. -/
theorem runOps_of_mergeCall {s s' : Snapshot} (merged : s.mergeCall call = .ok s') :
    runOps s.freeList (spaceOps s call) = .ok s'.freeList := by
  have write {path : Path} {offset : ℕ} {buf : List UInt8} (wrote : s.encodeWrite path offset buf = .ok s') :
      runOps s.freeList (match (getOrOpen s.files path).data with
        | some data => encodeOps data s.freeList offset buf
        | none => []) = .ok s'.freeList := by
    obtain ⟨data, after, held, encoded, rfl⟩ := encodeWrite_ok wrote
    rw [held]
    exact runOps_encode encoded
  cases merges_of_mergeCall merged with
  | make makes => cases makes <;> rfl
  | amend amends => cases amends <;> rfl
  | rename => exact runOps_file _ _
  | unlink => exact runOps_file _ _
  | rmdir => exact runOps_file _ _
  | truncate =>
    rename_i path size
    show runOps s.freeList (truncateOps (extentsOf s path) size.toUInt64.toNat) = _
    cases held : (getOrOpen s.files path).data with
    | some data => rw [truncate_some held, extentsOf, held]; exact runOps_truncate data s.freeList _
    | none => rw [truncate_none held, extentsOf, held]; exact runOps_truncate .empty s.freeList _
  | write wrote => exact write wrote
  | diffWrite wrote => exact write wrote
  | link | create | fsync => rfl

/-! ### When the operations fit -/

theorem fits_of_loose (loose : Loose low top freeList block) (ends : block.location + block.size < 2 ^ 64) :
    (SpaceOp.deallocate block).Fits freeList := by
  obtain ⟨joined, whole, -, -⟩ := loose.joinBelow
  refine ⟨fun location size below => ?_, by omega, fun size above => ?_⟩
  · obtain ⟨found, lower⟩ := find_of_entryBelow below
    have apart := loose.apart location size found
    have bounds := loose.bounded location size found
    have side := loose.side
    have inside := loose.inside
    have narrow := loose.narrow
    have small := loose.small
    omega
  · have bounds := joined.bounded _ _ above
    have side := joined.side
    have narrow := joined.narrow
    omega

theorem opsFit_release (orderly : Orderly top freeList)
    (single : ∀ address, used address + freeAt freeList address + listAt extents address ≤ 1)
    (barrier : Barrier top used) (solid : ∀ extent ∈ extents, Solid extent.2) {rest : List SpaceOp}
    (fits : OpsFit (deallocateAll freeList extents) rest) : OpsFit freeList (releaseOps extents ++ rest) := by
  induction extents generalizing freeList with
  | nil => exact fits
  | cons extent others ih =>
    have split (address : ℕ) := listAt_cons extent.1 extent.2 others address
    have here (address : ℕ) : used address + freeAt freeList address + blockAt extent.2 address ≤ 1 := by
      have := single address
      rw [split] at this
      omega
    have solid' := solid extent List.mem_cons_self
    obtain ⟨orderly', covers⟩ := orderly.deallocate here barrier solid'
    obtain ⟨low, loose⟩ := orderly.loose here barrier solid'
    have limit := offMax_lt
    unfold Solid at solid'
    refine ⟨fits_of_loose loose (by omega), fun after done => ?_⟩
    cases done
    refine ih orderly' (fun address => ?_) (fun other listed => solid other (List.mem_cons_of_mem _ listed)) fits
    have := single address
    rw [split] at this
    rw [covers]
    omega

/-- No region starts behind the one that reaches the end of the space. -/
theorem le_of_reaches (orderly : Orderly top freeList) (found : freeList.find key = some held)
    (reaches : top ≤ key + held) (listed : freeList.find other = some size) : other ≤ key := by
  by_contra above
  have gap := orderly.coalesced.gap _ _ _ _ found listed (not_le.mp above)
  have ends := (orderly.ends _ _ listed).2
  omega

/-- There, there is room for everything that can be written. -/
theorem fits_allocate (orderly : Orderly top freeList) (found : freeList.find key = some held)
    (reaches : top ≤ key + held) (room : key + size ≤ offMax) (hint : Option ℕ) :
    (SpaceOp.allocate size hint).Fits freeList := by
  have wide := orderly.wide
  have limit := offMax_lt
  obtain ⟨entry, space⟩ := findSpace_of_room found (show size ≤ held by omega) hint
  have before := le_of_reaches orderly found reaches (find_of_findSpace space).1
  exact ⟨entry.1, entry.2, space, by omega⟩

/-! ### Keeping the end of the old data -/

/-- A byte of the last one of the old data, or one behind it, that is not free. -/
def Taken (ft : ℕ) (freeList : FreeList) (address : ℕ) : Prop :=
  ft ≤ address + 1 ∧ address < ft + usizeMax ∧ freeAt freeList address = 0

/-- A byte of an extent of the file under a path. -/
def Owns (s : Snapshot) (path : Path) (address : ℕ) : Prop :=
  ∃ offset block, Extent s path offset block ∧ Holds block address

/-- A byte that a call gives back, unless a write stays in place. -/
def GivesUp (s : Snapshot) (call : VFSCall) (address : ℕ) : Prop :=
  match call with
  | .unlink path | .rmdir path => Owns s path address
  | .rename source dest _ => source ≠ dest ∧ Owns s dest address
  | .truncate path size => ∃ offset block, (extentsOf s path).find offset = some block ∧ Holds block address ∧
      size.toUInt64.toNat ≤ offset + (address - block.location)
  | .write path offset buf | .diffWrite path offset buf =>
    ∃ extent ∈ keptOverlaps (extentsOf s path) offset.toUInt64.toNat buf.length, Holds extent.2 address
  | _ => False

/-- The length of the extent that a write and its overlaps are merged to. -/
def mergedLength (data : DataList) (offset len : ℕ) : ℕ :=
  match keptOverlaps data offset len with
  | [] => len
  | first :: rest => firstExclusive offset first + len + lastExclusive (u64 (offset + len)) (rest.getLastD first)

/-- The merged extent reaches the end of the old data wherever it is placed. -/
def Beyond (ft : ℕ) (data : DataList) (freeList : FreeList) (offset len : ℕ) : Prop :=
  ∀ key size, freeList.find key = some size → mergedLength data offset len ≤ size →
    ft ≤ key + mergedLength data offset len

/-- After the call there is still a byte in use that keeps the free space behind
the data from the free space in front of its end. -/
def Keeps (ft : ℕ) (s : Snapshot) (call : VFSCall) : Prop :=
  (∃ address, Taken ft s.freeList address ∧ ¬ GivesUp s call address) ∨
    match call with
    | .write path offset buf | .diffWrite path offset buf =>
      InPlace (extentsOf s path) s.freeList offset.toUInt64.toNat buf.length ∨
        Beyond ft (extentsOf s path) s.freeList offset.toUInt64.toNat buf.length
    | _ => False

/-- What a write is merged to can be stored behind all of the data. -/
def Room (s : Snapshot) (call : VFSCall) : Prop :=
  match call with
  | .write path offset buf | .diffWrite path offset buf => ∀ key, endOfData s.freeList = .ok key →
    key + mergedLength (extentsOf s path) offset.toUInt64.toNat buf.length ≤ offMax
  | _ => True

/-- Every byte of the space has one owner; `reserved` are those that are neither
free nor in an extent. -/
structure Accounted (ft : ℕ) (reserved : ℕ → ℕ) (s : Snapshot) : Prop where
  settled : Settled (ft + usizeMax) reserved s
  whole : ∀ address, address < ft + usizeMax → reserved address + usedAt s address = 1
  positive : 0 < ft

section Calls
variable {ft : ℕ} {reserved : ℕ → ℕ} {s s' : Snapshot}

theorem Accounted.taken_lt (accounted : Accounted ft reserved s) (taken : Taken ft s.freeList address) :
    address < offMax := by
  by_contra beyond
  have := accounted.settled.beyond address (not_lt.mp beyond) taken.2.1
  have := taken.2.2
  omega

/-- A taken byte that is still in use makes a barrier. -/
theorem Accounted.barrier (accounted : Accounted ft reserved s) (taken : Taken ft s.freeList address)
    (used : ℕ → ℕ) (kept : liveAt s.files address ≤ used address) :
    Barrier (ft + usizeMax) fun address => reserved address + used address := by
  have small := accounted.taken_lt taken
  have limit := offMax_lt
  obtain ⟨near, inside, busy⟩ := taken
  have one := accounted.whole address inside
  unfold usedAt at one
  have wide : usizeMax = 2 ^ 64 - 1 := rfl
  refine ⟨address, by omega, by omega, ?_⟩
  show 0 < reserved address + used address
  omega

theorem pathAt_pos : 0 < pathAt s.files path address ↔ Owns s path address := by
  constructor
  · intro positive
    cases found : s.files.find path with
    | none => rw [pathAt_of_absent found] at positive; exact absurd positive (lt_irrefl 0)
    | some file =>
      rw [pathAt_of_find found] at positive
      obtain ⟨data, offset, block, held, there, inside⟩ := fileAt_pos.mp positive
      exact ⟨offset, block, ⟨file, data, found, held, there⟩, inside⟩
  · rintro ⟨offset, block, ⟨file, data, found, held, there⟩, inside⟩
    rw [pathAt_of_find found]
    exact fileAt_pos.mpr ⟨data, offset, block, held, there, inside⟩

/-! Files that are dropped. -/

theorem opsFit_file (orderly : Orderly top freeList) (file : Option File)
    (single : ∀ address, used address + freeAt freeList address +
      (file.map fun file => fileAt file address).getD 0 ≤ 1)
    (barrier : Barrier top used) (solid : ∀ held, file = some held → SolidFile held) :
    OpsFit freeList (fileOps file) := by
  unfold fileOps
  split
  · next data found =>
    obtain ⟨held, rfl, same⟩ := Option.bind_eq_some_iff.mp found
    have owned (address : ℕ) : (((some held).map fun file => fileAt file address).getD 0) = listAt data.entries address :=
      fileAt_of_data same address
    simp only [owned] at single
    have fits := opsFit_release orderly single barrier (fun extent listed =>
      solid held rfl data extent.1 extent.2 same (SortedMap.mem_entries_iff.mp listed)) (show OpsFit _ [] from trivial)
    rwa [List.append_nil] at fits
  · exact trivial

theorem Accounted.barrier_remove (accounted : Accounted ft reserved s) (taken : Taken ft s.freeList address)
    (kept : ¬ Owns s path address) :
    Barrier (ft + usizeMax) fun address => reserved address + liveAt (s.files.erase path) address := by
  refine accounted.barrier taken _ ?_
  have parted := liveAt_erase s.files path address
  rw [← pathAt_pos] at kept
  omega

theorem Accounted.barrier_rename (accounted : Accounted ft reserved s) (taken : Taken ft s.freeList address)
    (kept : ¬ (source ≠ dest ∧ Owns s dest address)) :
    Barrier (ft + usizeMax) fun address => reserved address + liveAt (s.rename source dest).files address := by
  refine accounted.barrier taken _ ?_
  have parted := liveAt_rename s source dest address
  have none : pathAt (s.files.erase source) dest address = 0 := by
    by_cases same : source = dest
    · subst same
      exact pathAt_of_absent (SortedMap.find_erase_self _ _) address
    · by_contra some
      obtain ⟨offset, block, ⟨file, data, found, held, there⟩, inside⟩ :=
        (pathAt_pos (s := { s with files := s.files.erase source })).mp (Nat.pos_of_ne_zero some)
      dsimp only at found
      rw [SortedMap.find_erase_of_ne _ same] at found
      exact kept ⟨same, offset, block, ⟨file, data, found, held, there⟩, inside⟩
  omega

/-! Cuts. -/

/-- A byte in front of the cut stays in its extent. -/
theorem dataAt_truncateData {data : DataList} (solid : ∀ offset block, data.find offset = some block → Solid block)
    (single : dataAt data address ≤ 1) (freeList : FreeList)
    (kept : ∀ offset block, data.find offset = some block → Holds block address →
      offset + (address - block.location) < size) :
    dataAt data address ≤ dataAt (truncateData data freeList size).1 address := by
  rcases Nat.eq_zero_or_pos (dataAt data address) with nowhere | owned
  · omega
  · obtain ⟨offset, block, found, positive⟩ := SortedMap.exists_of_total_pos _ owned
    have inside : Holds block address := within_pos.mp positive
    have before := kept offset block found inside
    have there : (keptBelow data size).find offset = some block := find_keptBelow.mpr ⟨found, by omega⟩
    suffices ∃ left, (truncateData data freeList size).1.find offset = some left ∧ Holds left address by
      obtain ⟨left, held, inside⟩ := this
      exact single.trans ((within_pos.mpr inside).trans_le (le_dataAt held address))
    show ∃ left, (cutLast (keptBelow data size) _ size).1.find offset = some left ∧ Holds left address
    rcases cut_cases solid (deallocateAll freeList (deletedFrom data size)) size with
      ⟨same, -⟩ | ⟨offset', block', last, past, same⟩
    · exact ⟨block, (congrArg (fun cut => cut.1.find offset) same).trans there, inside⟩
    · by_cases here : offset' = offset
      · subst here
        cases there.symm.trans (SortedMap.mem_entries_iff.mp (List.mem_of_getLast? last))
        refine ⟨⟨block.location, size - offset'⟩, (congrArg (fun cut => cut.1.find offset') same).trans
          (SortedMap.find_insert_self _ _ _), inside.1, ?_⟩
        have := inside.1
        dsimp only
        omega
      · exact ⟨block, (congrArg (fun cut => cut.1.find offset) same).trans
          ((SortedMap.find_insert_of_ne _ here _).trans there), inside⟩

theorem opsFit_truncate {space : Space} (tidy : Tidy top others space) (size : ℕ)
    (barrier : Barrier top fun address =>
      others address + dataAt (truncateData space.data space.freeList size).1 address) :
    OpsFit space.freeList (truncateOps space.data size) := by
  obtain ⟨single, whole, gone⟩ := tidy.deleted size barrier
  obtain ⟨orderly, freed⟩ := tidy.orderly.deallocateAll single whole gone
  refine opsFit_release tidy.orderly single whole gone ?_
  have split : truncateData space.data space.freeList size =
    cutLast (keptBelow space.data size) (deallocateAll space.freeList (deletedFrom space.data size)) size := rfl
  rw [split] at barrier
  show OpsFit (deallocateAll space.freeList (deletedFrom space.data size)) (cutOps (keptBelow space.data size) size)
  unfold cutOps
  unfold cutLast at barrier
  generalize deallocateAll space.freeList (deletedFrom space.data size) = freeList at *
  split
  · next offset block last =>
    split
    · next past =>
      have found := SortedMap.mem_entries_iff.mp (List.mem_of_getLast? last)
      obtain ⟨unwrapped, kept, located⟩ :=
        cut_exact (tidy.solid_keptBelow size offset block found) (find_keptBelow.mp found).2 past
      rw [last] at barrier
      dsimp only at barrier ⊢
      rw [if_pos past, kept] at barrier
      rw [kept, located, unwrapped]
      obtain ⟨solid, -, shared⟩ := tidy.cutOff freed last (by omega)
      obtain ⟨low, loose⟩ := orderly.loose (fun address => (shared address).trans_le (tidy.single address)) barrier solid
      have limit := offMax_lt
      have ends := solid.2
      exact ⟨fits_of_loose loose (by omega), fun _ _ => trivial⟩
    · exact trivial
  · exact trivial

/-- What a cut leaves in use. -/
theorem Accounted.barrier_truncate (accounted : Accounted ft reserved s)
    (held : (getOrOpen s.files path).data = some data) (taken : Taken ft s.freeList address)
    (kept : ¬ ∃ offset block, data.find offset = some block ∧ Holds block address ∧
      size ≤ offset + (address - block.location)) :
    Barrier (ft + usizeMax) fun address =>
      besides reserved s.files path address + dataAt (truncateData data s.freeList size).1 address := by
  have tidy := accounted.settled.space held s.serialised
  have parted := liveAt_erase s.files path address
  rw [pathAt_opened, fileAt_of_data held] at parted
  refine Barrier.mono (accounted.barrier taken (fun address => liveAt (s.files.erase path) address +
    dataAt (truncateData data s.freeList size).1 address) ?_) fun address => (Nat.add_assoc _ _ _).ge
  rw [← parted]
  refine Nat.add_le_add_left (dataAt_truncateData tidy.solid ?_ s.freeList fun offset block found inside => ?_) _
  · have single := tidy.single address
    unfold heldAt at single
    dsimp only at single ⊢
    omega
  · by_contra behind
    exact kept ⟨offset, block, found, inside, not_lt.mp behind⟩

/-! Writes. -/

/-- The space of a write, in which every byte has one owner. -/
structure Filled (ft : ℕ) (others : ℕ → ℕ) (space : Space) : Prop where
  tidy : Tidy (ft + usizeMax) others space
  whole : ∀ address, address < ft + usizeMax → others address + heldAt space address = 1
  beyond : ∀ address, offMax ≤ address → address < ft + usizeMax → 0 < freeAt space.freeList address
  positive : 0 < ft

variable {space after : Space} {others : ℕ → ℕ}

theorem Filled.last (filled : Filled ft others space) : ∃ key held, space.freeList.find key = some held ∧
    ft + usizeMax ≤ key + held ∧ endOfData space.freeList = .ok key := by
  have huge : offMax < usizeMax := by decide
  obtain ⟨key, held, found, -, reaches⟩ :=
    filled.tidy.orderly.coalesced.covering (show offMax < ft + usizeMax by omega) filled.beyond
  exact ⟨key, held, found, reaches, endOfData_of_covering filled.tidy.orderly found reaches⟩

theorem Filled.taken (filled : Filled ft others space) (taken : Taken ft space.freeList address) :
    address < offMax ∧ others address + dataAt space.data address = 1 := by
  obtain ⟨-, inside, busy⟩ := taken
  have one := filled.whole address inside
  unfold heldAt at one
  refine ⟨not_le.mp fun above => ?_, by omega⟩
  have := filled.beyond address above inside
  omega

/-- If a write only takes from the free list, what was taken still is. -/
theorem Filled.barrier_of_fewer (filled : Filled ft others space) (taken : Taken ft space.freeList address)
    (rearranged : Rearranged (ft + usizeMax) space after lost)
    (fewer : ∀ address, freeAt after.freeList address ≤ freeAt space.freeList address) :
    Barrier (ft + usizeMax) fun address => others address + (dataAt after.data address + lost address) := by
  obtain ⟨small, busy⟩ := filled.taken taken
  have limit := offMax_lt
  have held := rearranged.held address
  have fewer := fewer address
  have near := taken.1
  have free := taken.2.2
  have wide : usizeMax = 2 ^ 64 - 1 := rfl
  unfold heldAt at held
  refine ⟨address, by omega, by omega, ?_⟩
  show 0 < others address + (dataAt after.data address + lost address)
  omega

/-- A write is merged to an extent that reaches the end of the old data, or
another byte there stays in use. -/
def Anchored (ft : ℕ) (space : Space) (offset len : ℕ) : Prop :=
  (∃ address, Taken ft space.freeList address ∧
      ¬ ∃ extent ∈ keptOverlaps space.data offset len, Holds extent.2 address) ∨
    Beyond ft space.data space.freeList offset len

theorem Filled.barrier_merged (filled : Filled ft others space) (anchored : Anchored ft space offset len)
    (found : space.freeList.find block.location = some held) (large : block.size ≤ held) (some : 0 < block.size)
    (sized : block.size = mergedLength space.data offset len) (ends : block.location + block.size ≤ offMax) :
    Barrier (ft + usizeMax) fun address => others address +
      (dataAt (without space.data (keptOverlaps space.data offset len)) address + blockAt block address) := by
  have limit := offMax_lt
  have wide : usizeMax = 2 ^ 64 - 1 := rfl
  rcases anchored with ⟨address, taken, kept⟩ | beyond
  · obtain ⟨small, busy⟩ := filled.taken taken
    have near := taken.1
    have sub : (keptOverlaps space.data offset len).Sublist space.data.entries :=
      ((dropBack_sublist _ _).trans (dropFront_sublist _ _)).trans (overlapsOf_sublist _ _ _)
    have removed : dataAt (without space.data (keptOverlaps space.data offset len)) address +
      listAt (keptOverlaps space.data offset len) address = dataAt space.data address := dataAt_eraseAll sub address
    have none : listAt (keptOverlaps space.data offset len) address = 0 := by
      refine List.sum_eq_zero fun weight listed => ?_
      obtain ⟨extent, member, rfl⟩ := List.mem_map.mp listed
      exact Nat.eq_zero_of_not_pos fun inside => kept ⟨extent, member, within_pos.mp inside⟩
    refine ⟨address, by omega, by omega, ?_⟩
    dsimp only
    omega
  · have reaches := beyond block.location held found (by omega)
    refine ⟨block.location + block.size - 1, by omega, by omega, ?_⟩
    have inside : blockAt block (block.location + block.size - 1) = 1 := within_eq_one (by omega)
    dsimp only
    omega

theorem le_mergedLength (data : DataList) (offset len : ℕ) : len ≤ mergedLength data offset len := by
  unfold mergedLength
  split <;> omega

/-- A merge finds space, and gives the overlaps back. -/
theorem Filled.opsFit_merge (filled : Filled ft others space) (some : buff ≠ [])
    (anchored : Anchored ft space offset buff.length)
    (room : ∀ key, endOfData space.freeList = .ok key → key + mergedLength space.data offset buff.length ≤ offMax) :
    OpsFit space.freeList (mergeOps offset buff (overlapsOf space.data offset buff.length)) := by
  obtain ⟨key, held, found, reaches, last⟩ := filled.last
  have room := room key last
  have positive := List.length_pos_iff.mpr some
  have limit := offMax_lt
  have longer := le_mergedLength space.data offset buff.length
  show OpsFit space.freeList (match keptOverlaps space.data offset buff.length with
    | [] => [.allocate buff.length none]
    | first :: rest =>
      .allocate (u64 (firstExclusive offset first + buff.length +
        lastExclusive (u64 (offset + buff.length)) (rest.getLastD first))) none :: releaseOps (first :: rest))
  have length : mergedLength space.data offset buff.length = match keptOverlaps space.data offset buff.length with
    | [] => buff.length
    | first :: rest => firstExclusive offset first + buff.length +
        lastExclusive (u64 (offset + buff.length)) (rest.getLastD first) := rfl
  have barrier {block : Block} {held : ℕ} (there : space.freeList.find block.location = Option.some held)
      (large : block.size ≤ held) (sized : block.size = mergedLength space.data offset buff.length)
      (ends : block.location + block.size ≤ offMax) :=
    filled.barrier_merged anchored there large (by omega) sized ends
  have sub : (keptOverlaps space.data offset buff.length).Sublist space.data.entries :=
    ((dropBack_sublist _ _).trans (dropFront_sublist _ _)).trans (overlapsOf_sublist _ _ _)
  generalize keptOverlaps space.data offset buff.length = fused at *
  cases fused with
  | nil => exact ⟨fits_allocate filled.tidy.orderly found reaches (by omega) none, fun _ _ => trivial⟩
  | cons first rest =>
    dsimp only at length ⊢
    rw [← length, u64_of_lt (by omega)]
    refine ⟨fits_allocate filled.tidy.orderly found reaches room none, fun freeList ran => ?_⟩
    obtain ⟨block, allocated⟩ := allocate_of_run ran
    obtain ⟨entrySize, space', sized, -⟩ := allocate_ok allocated
    obtain ⟨there, large⟩ := find_of_findSpace space'
    have before := le_of_reaches filled.tidy.orderly found reaches there
    obtain ⟨orderly, covers⟩ := filled.tidy.orderly.allocate allocated (by omega) (by omega)
    have fits := opsFit_release orderly (fun address => ?_) (barrier there (by omega) sized (by omega))
      (fun extent listed => filled.tidy.solid extent.1 extent.2 (SortedMap.mem_entries_iff.mp (sub.subset listed)))
      (show OpsFit _ [] from trivial)
    · rwa [List.append_nil] at fits
    · have removed : dataAt (without space.data (first :: rest)) address + listAt (first :: rest) address =
        dataAt space.data address := dataAt_eraseAll sub address
      have covers := covers address
      have single := filled.tidy.single address
      unfold heldAt at single
      omega

/-- A try to extend an overlap can be taken back. -/
theorem Filled.opsFit_extend (filled : Filled ft others space) (some : buff ≠ [])
    (taken : Taken ft space.freeList address) (single : overlapsOf space.data offset buff.length = [first])
    (before : first.1 < offset) (past : u64 (first.1 + first.2.size) < u64 (offset + buff.length))
    (anchored : ¬ InPlace space.data space.freeList offset buff.length → Anchored ft space offset buff.length)
    (room : ∀ key, endOfData space.freeList = .ok key → key + mergedLength space.data offset buff.length ≤ offMax) :
    OpsFit space.freeList (extendOps space.freeList offset buff first) := by
  obtain ⟨key, held, found, reaches, last⟩ := filled.last
  have enough := room key last
  have limit := offMax_lt
  have longer := le_mergedLength space.data offset buff.length
  have listed : first ∈ overlapsOf space.data offset buff.length := single ▸ List.mem_singleton_self first
  obtain ⟨overlap, -, touching⟩ := find_of_mem_overlapsOf listed
  obtain ⟨unwrapped, shorter, located, -, rest⟩ := extend_exact (filled.tidy.solid _ _ overlap) before touching past
  have rest := rest (by omega)
  unfold extendOps
  dsimp only
  rw [located, rest]
  refine ⟨fits_allocate filled.tidy.orderly found reaches (by omega) _, fun freeList ran => ?_⟩
  obtain ⟨block, allocated⟩ := allocate_of_run ran
  rw [allocated]
  dsimp only
  split
  · exact trivial
  · next apart =>
    obtain ⟨entrySize, space', sized, -⟩ := allocate_ok allocated
    have below := le_of_reaches filled.tidy.orderly found reaches (find_of_findSpace space').1
    have elsewhere : ¬ InPlace space.data space.freeList offset buff.length := by
      rintro ⟨other, same, inside⟩
      obtain rfl : other = first := List.singleton_inj.mp (same.symm.trans single)
      rcases inside with ⟨-, within⟩ | ⟨-, size, there, large⟩
      · omega
      · exact apart ((suits_of_findSpace space').hinted _ size rfl there large)
    obtain ⟨orderly, covers⟩ := filled.tidy.orderly.allocate allocated (by omega) (by omega)
    have solid : Solid block := ⟨by omega, by omega⟩
    obtain ⟨small, busy⟩ := filled.taken taken
    have barrier : Barrier (ft + usizeMax) fun address => others address + dataAt space.data address := by
      have near := taken.1
      have wide : usizeMax = 2 ^ 64 - 1 := rfl
      refine ⟨address, by omega, by omega, ?_⟩
      dsimp only
      omega
    have apart (address : ℕ) : others address + dataAt space.data address + freeAt freeList address +
        blockAt block address ≤ 1 := by
      have covers := covers address
      have single := filled.tidy.single address
      unfold heldAt at single
      omega
    obtain ⟨low, loose⟩ := orderly.loose apart barrier solid
    refine ⟨fits_of_loose loose (by omega), fun after done => ?_⟩
    cases done
    rw [filled.tidy.orderly.rollback allocated (by omega) (by omega), ← single]
    exact filled.opsFit_merge some (anchored elsewhere) room

theorem Filled.opsFit_encode (filled : Filled ft others space) (some : buff ≠ [])
    (taken : Taken ft space.freeList address)
    (anchored : ¬ InPlace space.data space.freeList offset buff.length → Anchored ft space offset buff.length)
    (room : ∀ key, endOfData space.freeList = .ok key → key + mergedLength space.data offset buff.length ≤ offMax) :
    OpsFit space.freeList (encodeOps space.data space.freeList offset buff) := by
  unfold encodeOps
  split
  · next first single =>
    have only {other : ℕ × Block} (same : overlapsOf space.data offset buff.length = [other]) : other = first :=
      List.singleton_inj.mp (same.symm.trans single)
    split
    · exact trivial
    · next outside =>
      split
      · next before =>
        exact filled.opsFit_extend some taken single before
          (not_le.mp fun inside => outside ⟨before.le, inside⟩) anchored room
      · next before =>
        rw [← single]
        refine filled.opsFit_merge some (anchored ?_) room
        rintro ⟨other, same, inside | ⟨after, -⟩⟩
        · exact outside (only same ▸ inside)
        · exact before (only same ▸ after)
  · next several =>
    refine filled.opsFit_merge some (anchored ?_) room
    rintro ⟨other, same, -⟩
    exact several other same

/-- What a merge leaves in use. -/
theorem Filled.merge (filled : Filled ft others space) (some : buff ≠ []) (taken : Taken ft space.freeList address)
    (anchored : Anchored ft space offset buff.length)
    (merged : space.merge offset buff (overlapsOf space.data offset buff.length) = .ok after) :
    ∃ lost, Rearranged (ft + usizeMax) space after lost ∧
      Barrier (ft + usizeMax) fun address => others address + (dataAt after.data address + lost address) := by
  have positive := List.length_pos_iff.mpr some
  have limit := offMax_lt
  have barrier {block : Block} {held : ℕ} (there : space.freeList.find block.location = Option.some held)
      (large : block.size ≤ held) (sized : block.size = mergedLength space.data offset buff.length)
      (filled' : 0 < block.size) (ends : block.location + block.size ≤ offMax) :=
    filled.barrier_merged anchored there large filled' sized ends
  have sub : (keptOverlaps space.data offset buff.length).Sublist space.data.entries :=
    ((dropBack_sublist _ _).trans (dropFront_sublist _ _)).trans (overlapsOf_sublist _ _ _)
  have length : mergedLength space.data offset buff.length = match keptOverlaps space.data offset buff.length with
    | [] => buff.length
    | first :: rest => firstExclusive offset first + buff.length +
        lastExclusive (u64 (offset + buff.length)) (rest.getLastD first) := rfl
  unfold Space.merge at merged
  change (match keptOverlaps space.data offset buff.length with
    | [] => space.place offset buff
    | first :: rest => space.defragment offset buff first rest) = _ at merged
  generalize keptOverlaps space.data offset buff.length = fused at *
  cases fused with
  | nil =>
    have rearranged := filled.tidy.place some merged
    obtain ⟨block, freeList, serialised, allocated, wrote, rfl⟩ := place_ok merged
    have inside := (length_of_writeAllAt wrote).2
    obtain ⟨-, covers⟩ := filled.tidy.orderly.allocate allocated positive (by omega)
    refine ⟨_, rearranged, filled.barrier_of_fewer taken rearranged fun address => ?_⟩
    have := covers address
    dsimp only
    omega
  | cons first rest =>
    have result := defragment_ok merged
    obtain ⟨last, front, back, block, freeList, copied, written, serialised, rfl, rfl, rfl, allocated, copy, write, copy',
      shape⟩ := result
    obtain ⟨entrySize, found, sized, -⟩ := allocate_ok allocated
    obtain ⟨there, large⟩ := find_of_findSpace found
    have located := filled.tidy.orderly.keys _ _ there
    obtain ⟨-, -, -, empty | ⟨-, ends⟩⟩ := span_of_parts (by omega) copy write copy'
    · omega
    rw [u64_of_lt (by omega)] at sized large
    have barrier' : Barrier (ft + usizeMax) fun address => others address + (dataAt after.data address +
        SortedMap.weightAt (extentAt address) ((first :: rest).foldl (fun data overlap => data.erase overlap.1) space.data)
          (min first.1 offset)) := by
      refine Barrier.mono (barrier there (by omega) (by rw [sized, length]) (by omega) (by omega)) fun address => ?_
      rw [shape]
      exact Nat.add_le_add_left (dataAt_insert _ _ _ address).ge _
    exact ⟨_, filled.tidy.defragment some sub merged barrier', barrier'⟩

/-- What a write leaves in use. -/
theorem Filled.encode (filled : Filled ft others space) (some : buff ≠ []) (taken : Taken ft space.freeList address)
    (anchored : ¬ InPlace space.data space.freeList offset buff.length → Anchored ft space offset buff.length)
    (encoded : space.encode offset buff = .ok after) :
    ∃ lost, Rearranged (ft + usizeMax) space after lost ∧
      Barrier (ft + usizeMax) fun address => others address + (dataAt after.data address + lost address) := by
  rcases filled.tidy.encode_cases some encoded with ⟨first, -, -, -, replaced⟩ |
    ⟨first, single, before, appended⟩ | ⟨elsewhere, merged⟩
  · have rearranged := filled.tidy.replace replaced
    obtain ⟨serialised, -, rfl⟩ := replace_ok replaced
    exact ⟨_, rearranged, filled.barrier_of_fewer taken rearranged fun _ => Nat.le_refl _⟩
  · have listed : first ∈ overlapsOf space.data offset buff.length := single ▸ List.mem_singleton_self first
    have rearranged := filled.tidy.appended (find_of_mem_overlapsOf listed).1 before appended
    obtain ⟨touching, past, freeList, serialised, hint, allocated, wrote, rfl⟩ := appended
    have inside := (length_of_writeAllAt wrote).2
    obtain ⟨-, covers⟩ := filled.tidy.orderly.allocate allocated (by omega) (by dsimp only; omega)
    refine ⟨_, rearranged, filled.barrier_of_fewer taken rearranged fun address => ?_⟩
    have := covers address
    dsimp only
    omega
  · exact filled.merge some taken (anchored elsewhere) merged

/-! ### One call -/

theorem Accounted.filled (accounted : Accounted ft reserved s) (held : (getOrOpen s.files path).data = some data) :
    Filled ft (besides reserved s.files path) { data, freeList := s.freeList, serialised := s.serialised } := by
  refine ⟨accounted.settled.space held s.serialised, fun address inside => ?_, accounted.settled.beyond,
    accounted.positive⟩
  have one := accounted.whole address inside
  have parted := liveAt_erase s.files path address
  rw [pathAt_opened, fileAt_of_data held] at parted
  unfold usedAt at one
  unfold besides heldAt
  dsimp only
  omega

theorem extentsOf_eq (held : (getOrOpen s.files path).data = some data) : extentsOf s path = data := by
  rw [extentsOf, held]
  rfl

/-- What was lost is reserved from then on, so that every byte still has one owner. -/
theorem Accounted.resettled (accounted : Accounted ft reserved s) (resettled : Resettled (ft + usizeMax) s s' lost)
    (barrier : Barrier (ft + usizeMax) fun address => reserved address + (liveAt s'.files address + lost address)) :
    (∃ reserved', Accounted ft reserved' s') ∧ ∃ address, Taken ft s'.freeList address := by
  have kept := accounted.settled.resettled resettled
  have single (address : ℕ) : reserved address + lost address + usedAt s' address ≤ 1 := by
    have before := accounted.settled.single address
    have same := resettled.used address
    omega
  refine ⟨⟨fun address => reserved address + lost address, ⟨kept.orderly, kept.solid, single, kept.beyond⟩,
    fun address inside => ?_, accounted.positive⟩, ?_⟩
  · have one := accounted.whole address inside
    have same := resettled.used address
    omega
  · obtain ⟨byte, small, near, busy⟩ := barrier
    have positive := accounted.positive
    have wide : usizeMax = 2 ^ 64 - 1 := rfl
    have single := single byte
    unfold usedAt at single
    dsimp only at busy
    exact ⟨byte, by omega, by omega, by omega⟩

/-- The condition on a write, for the space that it works on. -/
theorem anchored_of_keeps (named : call = .write path offset buf ∨ call = .diffWrite path offset buf)
    (held : (getOrOpen s.files path).data = some data) (keeps : Keeps ft s call)
    (elsewhere : ¬ InPlace data s.freeList offset.toUInt64.toNat buf.length) :
    Anchored ft { data, freeList := s.freeList, serialised := s.serialised } offset.toUInt64.toNat buf.length := by
  rcases named with rfl | rfl
  all_goals
    unfold Keeps GivesUp at keeps
    dsimp only at keeps
    rw [extentsOf_eq held] at keeps
    rcases keeps with kept | inPlace | beyond
    · exact Or.inl kept
    · exact absurd inPlace elsewhere
    · exact Or.inr beyond

theorem room_of_call (named : call = .write path offset buf ∨ call = .diffWrite path offset buf)
    (held : (getOrOpen s.files path).data = some data) (room : Room s call) (last : endOfData s.freeList = .ok key) :
    key + mergedLength data offset.toUInt64.toNat buf.length ≤ offMax := by
  rcases named with rfl | rfl
  all_goals
    rw [← extentsOf_eq held]
    exact room key last

/-- A call that keeps a byte at the end of the old data in use leaves every byte
with one owner. -/
theorem Accounted.merges (accounted : Accounted ft reserved s) (taken : Taken ft s.freeList address)
    (merges : Merges s call s') (fit : proper call = true) (keeps : Keeps ft s call) :
    (∃ reserved', Accounted ft reserved' s') ∧ ∃ address, Taken ft s'.freeList address := by
  have settled := accounted.settled
  have write {path : Path} {offset : Int64} {buf : List UInt8}
      (named : call = .write path offset buf ∨ call = .diffWrite path offset buf)
      (wrote : s.encodeWrite path offset.toUInt64.toNat buf = .ok s') :
      (∃ reserved', Accounted ft reserved' s') ∧ ∃ address, Taken ft s'.freeList address := by
    obtain ⟨data, after, held, encoded, rfl⟩ := encodeWrite_ok wrote
    have some : buf ≠ [] := by rcases named with rfl | rfl <;> simpa [proper] using fit
    obtain ⟨lost, rearranged, barrier⟩ := (accounted.filled held).encode some taken
      (anchored_of_keeps named held keeps) encoded
    refine accounted.resettled (settled.of_space held rfl rfl rearranged rfl) (Barrier.mono barrier fun address => ?_)
    rw [liveAt_put s.files rfl, besides]
    omega
  -- nothing is given back, so what was taken still is
  have unchanged {lost : ℕ → ℕ} (resettled : Resettled (ft + usizeMax) s s' lost) (same : s'.freeList = s.freeList) :
      (∃ reserved', Accounted ft reserved' s') ∧ ∃ address, Taken ft s'.freeList address := by
    refine accounted.resettled resettled (accounted.barrier taken _ ?_)
    have used := resettled.used address
    unfold usedAt at used
    rw [same] at used
    omega
  have dropped {files : Files} (barrier : Barrier (ft + usizeMax) fun address => reserved address + liveAt files address) :
      Barrier (ft + usizeMax) fun address => reserved address + (liveAt files address + 0) := barrier
  cases merges with
  | make makes _ => exact unchanged (settled.put _ (makes_empty makes).1 (makes_empty makes).2) rfl
  | amend amends => exact unchanged (settled.amend _ (amends_data amends)) rfl
  | create =>
    refine unchanged (settled.put _ (fun _ => rfl) fun data offset block held found => ?_) rfl
    cases held
    cases found
  | fsync => exact ⟨⟨reserved, accounted⟩, address, taken⟩
  | link => cases fit
  | unlink | rmdir =>
    obtain ⟨byte, there, kept⟩ | impossible := keeps
    · have barrier := accounted.barrier_remove there kept
      exact accounted.resettled (settled.remove _ barrier) (dropped barrier)
    · exact impossible.elim
  | rename =>
    obtain ⟨byte, there, kept⟩ | impossible := keeps
    · have barrier := accounted.barrier_rename there kept
      exact accounted.resettled (settled.rename _ _ barrier) (dropped barrier)
    · exact impossible.elim
  | truncate =>
    rename_i path size
    obtain ⟨byte, there, kept⟩ | impossible := keeps
    · cases held : (getOrOpen s.files path).data with
      | some data =>
        unfold GivesUp at kept
        dsimp only at kept
        rw [extentsOf_eq held] at kept
        have barrier : Barrier (ft + usizeMax) fun address =>
            reserved address + liveAt (s.truncate path size).files address := by
          refine Barrier.mono (accounted.barrier_truncate held there kept) fun address => ?_
          rw [truncate_some held, liveAt_put s.files rfl, besides, Nat.add_assoc]
        exact accounted.resettled (settled.truncate path size barrier) (dropped barrier)
      | none =>
        rw [truncate_none held]
        rw [truncate_none held] at unchanged
        exact unchanged (settled.amend path fun _ => rfl) rfl
    · exact impossible.elim
  | write wrote => exact write (Or.inl rfl) wrote
  | diffWrite wrote => exact write (Or.inr rfl) wrote

/-- What such a call does with the free list fits. -/
theorem Accounted.opsFit (accounted : Accounted ft reserved s) (taken : Taken ft s.freeList address)
    (fit : proper call = true) (keeps : Keeps ft s call) (room : Room s call) :
    OpsFit s.freeList (spaceOps s call) := by
  have settled := accounted.settled
  have write {path : Path} {offset : Int64} {buf : List UInt8}
      (named : call = .write path offset buf ∨ call = .diffWrite path offset buf) :
      OpsFit s.freeList (match (getOrOpen s.files path).data with
        | some data => encodeOps data s.freeList offset.toUInt64.toNat buf
        | none => []) := by
    cases held : (getOrOpen s.files path).data with
    | none => exact trivial
    | some data =>
      have some : buf ≠ [] := by rcases named with rfl | rfl <;> simpa [proper] using fit
      exact (accounted.filled held).opsFit_encode some taken (anchored_of_keeps named held keeps)
        fun key last => room_of_call named held room last
  have remove {path : Path} (keeps : Keeps ft s (.unlink path)) : OpsFit s.freeList (fileOps (s.files.find path)) := by
    obtain ⟨byte, there, kept⟩ | impossible := keeps
    · exact opsFit_file settled.orderly _ (settled.single_remove path) (accounted.barrier_remove there kept)
        fun held found => settled.solid path held found
    · exact impossible.elim
  cases call with
  | unlink path => exact remove keeps
  | rmdir path => exact remove keeps
  | rename source dest flags =>
    obtain ⟨byte, there, kept⟩ | impossible := keeps
    · exact opsFit_file settled.orderly _ (settled.single_rename source dest) (accounted.barrier_rename there kept)
        fun held found => solid_erase settled.solid found
    · exact impossible.elim
  | truncate path size =>
    obtain ⟨byte, there, kept⟩ | impossible := keeps
    · show OpsFit s.freeList (truncateOps (extentsOf s path) size.toUInt64.toNat)
      unfold GivesUp at kept
      dsimp only at kept
      cases held : (getOrOpen s.files path).data with
      | some data =>
        rw [extentsOf_eq held] at kept ⊢
        exact opsFit_truncate (settled.space held s.serialised) size.toUInt64.toNat
          (accounted.barrier_truncate held there kept)
      | none =>
        rw [extentsOf, held]
        exact trivial
    · exact impossible.elim
  | write path offset buf => exact write (Or.inl rfl)
  | diffWrite path offset buf => exact write (Or.inr rfl)
  | _ => exact trivial

end Calls

/-! ### Runs -/

/-- Data ends where the last free region starts, behind the header. -/
theorem end_of_settled {s : Snapshot} (settled : Settled fileTop headerAt s) :
    ∃ stop, endOfData s.freeList = .ok stop ∧ headerSize ≤ stop ∧ stop ≤ offMax ∧
      ∀ address, stop ≤ address → liveAt s.files address = 0 := by
  have low : offMax < fileTop := by decide
  obtain ⟨stop, last, bound, free⟩ := endOfData_le settled.orderly low (freeFrom_offMax settled)
  refine ⟨stop, last, ?_, bound, fun address behind => ?_⟩
  · by_contra inHeader
    have inside : headerAt stop = 1 := within_eq_one (by omega)
    have busy := free stop (Nat.le_refl _) (by omega)
    have single := settled.single stop
    unfold usedAt at single
    omega
  · by_cases inside : address < fileTop
    · have busy := free address behind inside
      have single := settled.single address
      unfold usedAt at single
      omega
    · exact liveAt_beyond settled.solid (by omega)

/-- The snapshot that is put into the file, and where its data ends. -/
theorem onDisk_of_settled {s : Snapshot} (settled : Settled fileTop headerAt s)
    (finalized : s.finalize spare codec = .ok file) :
    ∃ s' stop, s.compact spare = .ok s' ∧ Settled fileTop headerAt s' ∧ endOfData s'.freeList = .ok stop ∧
      headerSize ≤ stop ∧ stop ≤ offMax ∧ (∀ address, stop ≤ address → liveAt s'.files address = 0) ∧
      OnDisk codec s' stop file := by
  obtain ⟨s', stop, compacted, last, small, disk⟩ := onDisk_of_finalize finalized
  have remaining : Remaining s s.files.entries :=
    ⟨s.files.sorted, fun entry listed => SortedMap.mem_entries_iff.mp listed⟩
  have settled' := (settled_compactFiles settled remaining compacted).1
  obtain ⟨stop', last', behind, -, empty⟩ := end_of_settled settled'
  cases last.symm.trans last'
  exact ⟨s', stop, compacted, settled', last, behind, small, empty, disk behind⟩

/-- What is not in an extent of the reopened table is reserved. -/
def forgotten (files : Files) (stop address : ℕ) : ℕ := if address < stop then 1 - liveAt files address else 0

theorem accounted_opened {s opened : Snapshot} (settled : Settled fileTop headerAt s) (small : stop ≤ offMax)
    (behind : headerSize ≤ stop) (empty : ∀ address, stop ≤ address → liveAt s.files address = 0)
    (files : opened.files = s.files) (free : opened.freeList = SortedMap.empty.insert stop usizeMax) :
    Accounted stop (forgotten s.files stop) opened ∧ Taken stop opened.freeList (stop - 1) := by
  have limit := offMax_lt
  have wide : usizeMax = 2 ^ 64 - 1 := rfl
  have header : headerSize = 40 := rfl
  have only (key size) (found : opened.freeList.find key = some size) : key = stop ∧ size = usizeMax := by
    rw [free, SortedMap.find_insert] at found
    split at found
    · next same => exact ⟨same.symm, (Option.some.inj found).symm⟩
    · cases found
  have freeAt_eq (address : ℕ) : freeAt opened.freeList address = within stop usizeMax address := by
    rw [free]
    exact (SortedMap.total_insert (fun entry : ℕ × ℕ => within entry.1 entry.2 address) (SortedMap.find_empty stop)
      usizeMax).trans (Nat.zero_add _)
  have whole (address : ℕ) : forgotten s.files stop address + usedAt opened address = within 0 (stop + usizeMax) address := by
    have single := settled.single address
    have parted := within_add 0 stop usizeMax address
    rw [Nat.zero_add] at parted
    unfold usedAt at single ⊢
    rw [freeAt_eq, files, parted]
    unfold forgotten
    split
    · next inside =>
      have front : within 0 stop address = 1 := within_eq_one (by omega)
      omega
    · next outside =>
      have front : within 0 stop address = 0 := within_eq_zero (by omega)
      rw [empty address (not_lt.mp outside), front]
      omega
  refine ⟨⟨⟨⟨⟨fun key size found => ?_, fun key size key' size' found found' order => ?_⟩,
    fun key size found => ?_, fun key size found => ?_, by omega⟩, fun path file found => ?_, fun address => ?_,
    fun address beyond inside => ?_⟩, fun address inside => ?_, by omega⟩, by omega, by omega, ?_⟩
  · obtain ⟨rfl, rfl⟩ := only key size found
    omega
  · obtain ⟨rfl, -⟩ := only key size found
    obtain ⟨rfl, -⟩ := only key' size' found'
    exact absurd order (lt_irrefl _)
  · obtain ⟨rfl, rfl⟩ := only key size found
    omega
  · obtain ⟨rfl, -⟩ := only key size found
    exact small
  · rw [files] at found
    exact settled.solid path file found
  · rw [whole]
    unfold within
    split <;> omega
  · rw [freeAt_eq]
    exact within_pos.mpr (by omega)
  · rw [whole]
    exact within_eq_one (by omega)
  · rw [freeAt_eq]
    exact within_eq_zero (by omega)

/-- Where the free list of a reopened snapshot stands: no sum exceeds 64 bits on
any call that keeps the end of the old data, the last region is large enough for
everything that can be written, and all extents lie in front of it. -/
structure Sound (ft : ℕ) (s : Snapshot) : Prop where
  fits : ∀ call, proper call = true → Keeps ft s call → Room s call → OpsFit s.freeList (spaceOps s call)
  last : ∃ key size, s.freeList.entries.getLast? = some (key, size) ∧ (∀ wanted, key + wanted ≤ offMax → wanted ≤ size) ∧
    ∀ path offset block, Extent s path offset block → block.location + block.size ≤ key

theorem Accounted.sound {s : Snapshot} (accounted : Accounted ft reserved s) (taken : Taken ft s.freeList address) :
    Sound ft s := by
  refine ⟨fun call fit keeps room => accounted.opsFit taken fit keeps room, ?_⟩
  have settled := accounted.settled
  have huge : offMax < usizeMax := by decide
  obtain ⟨key, size, found, -, reaches⟩ :=
    settled.orderly.coalesced.covering (show offMax < ft + usizeMax by omega) settled.beyond
  refine ⟨key, size, ?_, fun wanted fits => by omega, fun path offset block extent => ?_⟩
  · cases last : s.freeList.entries.getLast? with
    | none =>
      have listed := SortedMap.mem_entries_iff.mpr found
      rw [List.getLast?_eq_none_iff.mp last] at listed
      cases listed
    | some entry =>
      have there := SortedMap.mem_entries_iff.mp (List.mem_of_getLast? last)
      have before := le_of_reaches settled.orderly found reaches there
      have after := SortedMap.le_last last found
      obtain rfl : key = entry.1 := by omega
      rw [← Option.some.inj (there.symm.trans found)]
  · have solid := settled.solid_extent extent
    have apart := settled.separate.free path offset block key size extent found
    unfold Apart at apart
    unfold Solid at solid
    dsimp only at apart
    omega

/-- A snapshot that was made from calls without links, finalized and opened
again: as long as every further call leaves a byte at the end of the old data or
behind it in use, the free list is sound in every state. -/
theorem sound_of_reopened (toFile : ByteFile.File) (now : JournalStore.SystemTime) (calls : List VFSCall)
    (spare : ℕ → ℕ → Bool) (codec : Codec Files) (s : Snapshot) (file : ByteFile.File) (opened current : Snapshot)
    (fit : ∀ call ∈ calls, proper call = true) (merged : (Snapshot.new toFile now).mergeFrom calls = .ok s)
    (finalized : s.finalize spare codec = .ok file) (reopened : Snapshot.open codec file = .ok opened)
    (reached : Reaches merging (fun s call => proper call = true ∧ Keeps opened.header.ftOffset s call ∧ Room s call)
      opened current) : Sound opened.header.ftOffset current := by
  obtain ⟨s', stop, -, settled, -, behind, small, empty, disk⟩ :=
    onDisk_of_settled (settled_of_mergeFrom fit merged) finalized
  obtain ⟨checksum, opens⟩ := disk.opens small
  have same := Except.ok.inj (reopened.symm.trans opens)
  have offset : opened.header.ftOffset = stop := by rw [same]
  have start := accounted_opened settled small behind empty (show opened.files = s'.files by rw [same])
    (show opened.freeList = SortedMap.empty.insert stop usizeMax by rw [same])
  rw [offset] at reached ⊢
  have invariant : (∃ reserved, Accounted stop reserved current) ∧ ∃ address, Taken stop current.freeList address := by
    refine reached.invariant (motive := fun s =>
      (∃ reserved, Accounted stop reserved s) ∧ ∃ address, Taken stop s.freeList address) ⟨⟨_, start.1⟩, _, start.2⟩ ?_
    rintro s call s' ⟨⟨reserved, accounted⟩, address, taken⟩ moves ⟨fit, keeps, -⟩
    exact accounted.merges taken (merges_of_mergeCall moves) fit keeps
  obtain ⟨⟨reserved, accounted⟩, address, taken⟩ := invariant
  exact accounted.sound taken

/-- One byte of one file. -/
def oneByte : List VFSCall := [.write [[97]] 0 [1]]

/-- The table of the file with one byte, in the block right behind the header, is
finalized with any codec that encodes it shortly, and opened again. -/
theorem oneByte_reopened : ∃ (codec : Codec Files) (s : Snapshot) (file : ByteFile.File) (opened : Snapshot),
    (Snapshot.new [] epoch).mergeFrom oneByte = .ok s ∧ s.finalize (fun _ _ => true) codec = .ok file ∧
      Snapshot.open codec file = .ok opened ∧ opened.files = s.files ∧
      opened.freeList = SortedMap.empty.insert 41 usizeMax ∧ opened.header.ftOffset = 41 := by
  obtain ⟨s, merged, compacted, last⟩ : ∃ s, (Snapshot.new [] epoch).mergeFrom oneByte = .ok s ∧
      s.compact (fun _ _ => true) = .ok s ∧ endOfData s.freeList = .ok 41 := ⟨_, rfl, rfl, rfl⟩
  obtain ⟨codec, short⟩ := exists_codec s.files
  obtain ⟨file, finalized⟩ := finalize_succeeds codec compacted last (by rw [short]; decide)
  obtain ⟨s', stop, compacted', -, last', -, small, -, disk⟩ :=
    onDisk_of_settled (settled_of_mergeFrom (by decide) merged) finalized
  cases compacted.symm.trans compacted'
  cases last.symm.trans last'
  obtain ⟨checksum, opens⟩ := disk.opens small
  exact ⟨codec, s, file, _, merged, finalized, opens, rfl, rfl, rfl⟩

/-- Removing that file joins its block with the free space of `usize::MAX` bytes
behind it. -/
theorem last_block_joined_overflows : ∃ (codec : Codec Files) (s : Snapshot) (file : ByteFile.File) (opened : Snapshot),
    (Snapshot.new [] epoch).mergeFrom oneByte = .ok s ∧ s.finalize (fun _ _ => true) codec = .ok file ∧
      Snapshot.open codec file = .ok opened ∧ proper (.unlink [[97]]) = true ∧ Room opened (.unlink [[97]]) ∧
      ¬ OpsFit opened.freeList (spaceOps opened (.unlink [[97]])) := by
  obtain ⟨codec, s, file, opened, merged, finalized, reopened, files, free, -⟩ := oneByte_reopened
  refine ⟨codec, s, file, opened, merged, finalized, reopened, rfl, trivial, fun fits => ?_⟩
  have ops : spaceOps opened (.unlink [[97]]) = [.deallocate ⟨40, 1⟩] := by
    unfold spaceOps
    dsimp only
    rw [files]
    cases merged
    rfl
  rw [ops, free] at fits
  have sum : 1 + usizeMax < 2 ^ 64 := fits.1.2.2 usizeMax rfl
  exact absurd sum (by decide)

/-- A second file, put behind the old data. -/
theorem second_file_sound : ∃ (codec : Codec Files) (s : Snapshot) (file : ByteFile.File) (opened current : Snapshot),
    (Snapshot.new [] epoch).mergeFrom oneByte = .ok s ∧ s.finalize (fun _ _ => true) codec = .ok file ∧
      Snapshot.open codec file = .ok opened ∧ opened.mergeCall (.write [[98]] 0 [2]) = .ok current ∧
      Extent current [[98]] 0 ⟨41, 1⟩ ∧ Sound opened.header.ftOffset current := by
  obtain ⟨codec, s, file, opened, merged, finalized, reopened, files, free, offset⟩ := oneByte_reopened
  have empty : extentsOf opened [[98]] = .empty := by
    unfold extentsOf
    rw [files]
    cases merged
    rfl
  obtain ⟨current, wrote, extent⟩ : ∃ current, opened.mergeCall (.write [[98]] 0 [2]) = .ok current ∧
      Extent current [[98]] 0 ⟨41, 1⟩ := by
    obtain ⟨header, table, serialised, freeList⟩ := opened
    cases files
    cases free
    cases merged
    exact ⟨_, rfl, _, _, rfl, rfl, rfl⟩
  have keeps : Keeps 41 opened (.write [[98]] 0 [2]) := by
    refine Or.inl ⟨40, ⟨by decide, by decide, by rw [free]; rfl⟩, ?_⟩
    rintro ⟨extent, listed, -⟩
    rw [empty] at listed
    cases listed
  have room : Room opened (.write [[98]] 0 [2]) := by
    intro key last
    rw [free] at last
    cases last
    rw [empty]
    decide
  refine ⟨codec, s, file, opened, current, merged, finalized, reopened, wrote, extent, ?_⟩
  exact sound_of_reopened [] epoch oneByte (fun _ _ => true) codec s file opened current (by decide) merged finalized
    reopened (.next .refl wrote ⟨rfl, offset.symm ▸ keeps, room⟩)

end Fsyncer.SnapshotReopen
