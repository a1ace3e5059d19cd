import Fsyncer.SnapshotBlocks

/-! Compaction moves blocks down into free regions. Every copy goes to a free
region below the block, an allocation that would move a block up is taken back,
and the end of the data never rises. -/
namespace Fsyncer.SnapshotCompaction
open Fsyncer.ByteFile (Failure offMax)
open Fsyncer.FileTree (Path)
open Fsyncer.JournalStore (traced traced_ok)
open Fsyncer.Machine Fsyncer.Spans Fsyncer.SnapshotBlocks Fsyncer.SnapshotExtents Fsyncer.SnapshotSpace
open Fsyncer.SnapshotStore Fsyncer.Vfs

/-! ### One extent -/

/-- The extent is copied to `newBlock`. -/
def Copies (stop wasted : ℕ) (c : Compaction) (extent : ℕ × Block) (newBlock : Block) : Prop :=
  usub stop wasted < extent.2.location ∧ newBlock.location ≤ extent.2.location ∧
    ∃ freeList, allocate c.freeList extent.2.size (some (u64 (c.run.2.location + c.run.2.size))) =
      .ok (newBlock, freeList)

@[simp] theorem addToRun_freeList (c : Compaction) (offset : ℕ) (block newBlock : Block) :
    (c.addToRun offset block newBlock).freeList = c.freeList := by
  unfold Compaction.addToRun
  split
  · rfl
  · split <;> rfl

/-- The extent stays where it is, or is moved up and back, or is copied. -/
theorem step_ok {c c' : Compaction} (stepped : c.step stop wasted (offset, block) = .ok c') :
    c' = { c with merged := c.merged.insert offset block } ∨
      (∃ newBlock freeList hint, allocate c.freeList block.size hint = .ok (newBlock, freeList) ∧
        c' = { c with freeList := deallocate freeList newBlock, merged := c.merged.insert offset block }) ∨
      ∃ newBlock freeList serialised, Copies stop wasted c (offset, block) newBlock ∧
        (∃ hint, allocate c.freeList block.size hint = .ok (newBlock, freeList)) ∧
        moveFileRange c.serialised block.location newBlock.location block.size = .ok serialised ∧
        c' = { Compaction.addToRun { c with freeList, serialised } offset block newBlock with
               freeList := deallocate freeList block } := by
  unfold Compaction.step at stepped
  dsimp only at stepped
  split at stepped
  · next behind =>
    obtain ⟨⟨newBlock, freeList⟩, allocated, stepped⟩ := bind_ok.mp stepped
    dsimp only at stepped
    split at stepped
    · cases stepped
      exact Or.inr (Or.inl ⟨newBlock, freeList, _, allocated, rfl⟩)
    · next below =>
      obtain ⟨serialised, moved, stepped⟩ := bind_ok.mp stepped
      cases stepped
      refine Or.inr (Or.inr ⟨newBlock, freeList, serialised,
        ⟨behind, Nat.le_of_not_lt below, freeList, allocated⟩, ⟨_, allocated⟩, traced_ok moved, ?_⟩)
      rw [addToRun_freeList]
  · cases stepped
    exact Or.inl rfl

/-- The space within the loop over the extents of a file: what has been dealt
with, the run, and the extents still to come. -/
structure Compacting (others : ℕ → ℕ) (c : Compaction) (rest : List (ℕ × Block)) : Prop where
  orderly : Orderly fileTop c.freeList
  merged : ∀ offset block, c.merged.find offset = some block → Solid block
  run : c.run = emptyRun ∨ Solid c.run.2
  pending : ∀ extent ∈ rest, Solid extent.2
  single : ∀ address, headerAt address + others address + freeAt c.freeList address + dataAt c.merged address +
    blockAt c.run.2 address + listAt rest address ≤ 1

section Step
variable {others : ℕ → ℕ} {c c' : Compaction} {offset : ℕ} {block newBlock : Block} {rest : List (ℕ × Block)}

theorem listAt_cons (offset : ℕ) (block : Block) (rest : List (ℕ × Block)) (address : ℕ) :
    listAt ((offset, block) :: rest) address = blockAt block address + listAt rest address := by
  rw [listAt, List.map_cons, List.sum_cons, listAt]

theorem Compacting.stays (compacting : Compacting others c ((offset, block) :: rest)) :
    Compacting others { c with merged := c.merged.insert offset block } rest := by
  refine ⟨compacting.orderly, fun _ _ => solid_insert compacting.merged (compacting.pending _ List.mem_cons_self),
    compacting.run, fun extent listed => compacting.pending extent (List.mem_cons_of_mem _ listed), fun address => ?_⟩
  have before := compacting.single address
  have added := dataAt_insert c.merged offset block address
  rw [listAt_cons] at before
  dsimp only
  omega

/-- A block is copied to the front of a free region that ends before it. -/
theorem Compacting.copies_down (compacting : Compacting others c ((offset, block) :: rest))
    (copies : Copies stop wasted c (offset, block) newBlock) :
    newBlock.size = block.size ∧ newBlock.location < block.location ∧ Apart newBlock block ∧
      ∃ entrySize, c.freeList.find newBlock.location = some entrySize ∧ block.size ≤ entrySize ∧
        newBlock.location + entrySize ≤ block.location := by
  obtain ⟨-, low, freeList, allocated⟩ := copies
  obtain ⟨entrySize, found, sized, -⟩ := allocate_ok allocated
  obtain ⟨listed, large⟩ := find_of_findSpace found
  obtain ⟨positive, -⟩ := compacting.pending _ List.mem_cons_self
  have apart : newBlock.location + entrySize ≤ block.location ∨ block.location + block.size ≤ newBlock.location := by
    refine apart_of_single (fun address => ?_) (compacting.orderly.coalesced.region _ _ listed).2.1 positive
    have here := le_freeAt listed address
    have single := compacting.single address
    rw [listAt_cons] at single
    unfold blockAt at single
    omega
  dsimp only at low sized large positive
  refine ⟨sized, by omega, ?_, entrySize, listed, by omega, by omega⟩
  unfold Apart
  omega

theorem addToRun_owns (merged : ∀ offset block, c.merged.find offset = some block → Solid block)
    (run : c.run = emptyRun ∨ Solid c.run.2) (solid : Solid newBlock) (sized : newBlock.size = block.size)
    (offset : ℕ) :
    (∀ other held, (c.addToRun offset block newBlock).merged.find other = some held → Solid held) ∧
      Solid (c.addToRun offset block newBlock).run.2 ∧ ∀ address,
      dataAt (c.addToRun offset block newBlock).merged address +
        blockAt (c.addToRun offset block newBlock).run.2 address ≤
      dataAt c.merged address + blockAt c.run.2 address + blockAt newBlock address := by
  unfold Compaction.addToRun
  split
  · exact ⟨merged, solid, fun address => by dsimp only; omega⟩
  · next filled =>
    have run : Solid c.run.2 := run.resolve_left filled
    have limit := offMax_lt
    obtain ⟨positive, ends⟩ := run
    obtain ⟨positive', ends'⟩ := solid
    split
    · next follows =>
      have behind : c.run.2.location + c.run.2.size = newBlock.location := by
        rw [← follows.2, u64_of_lt (by omega)]
      have joined : u64 (c.run.2.size + block.size) = c.run.2.size + newBlock.size := by
        rw [← sized]
        exact u64_of_lt (by omega)
      rw [joined]
      refine ⟨merged, ⟨by dsimp only; omega, by dsimp only; omega⟩, fun address => ?_⟩
      have both := within_add c.run.2.location c.run.2.size newBlock.size address
      rw [behind] at both
      unfold blockAt
      dsimp only
      omega
    · refine ⟨fun _ _ => solid_insert merged ⟨positive, ends⟩, ⟨positive', ends'⟩, fun address => ?_⟩
      have added := dataAt_insert c.merged c.run.1 c.run.2 address
      dsimp only
      omega

/-- A copied block becomes part of a run, and its old place is given back. -/
theorem Compacting.moves (compacting : Compacting others c ((offset, block) :: rest))
    (copies : Copies stop wasted c (offset, block) newBlock)
    (allocated : allocate c.freeList block.size hint = .ok (newBlock, freeList)) (serialised : ByteFile.File) :
    Compacting others { Compaction.addToRun { c with freeList, serialised } offset block newBlock with
      freeList := deallocate freeList block } rest ∧
    ∀ address, freeAt (deallocate freeList block) address + blockAt newBlock address =
      freeAt c.freeList address + blockAt block address := by
  obtain ⟨sized, below, -, entrySize, listed, large, clear⟩ := compacting.copies_down copies
  obtain ⟨positive, ends⟩ := compacting.pending _ List.mem_cons_self
  have limit := offMax_lt
  dsimp only at positive ends
  obtain ⟨orderly, taken⟩ := compacting.orderly.allocate allocated positive (by omega)
  have solid : Solid newBlock := ⟨by omega, by omega⟩
  have owns := addToRun_owns (c := { c with freeList, serialised }) compacting.merged compacting.run solid sized offset
  generalize Compaction.addToRun { c with freeList, serialised } offset block newBlock = after at owns ⊢
  obtain ⟨merged, run, owned⟩ := owns
  have single (address : ℕ) : headerAt address + (others address + dataAt after.merged address +
      blockAt after.run.2 address + listAt rest address) + freeAt freeList address + blockAt block address ≤ 1 := by
    have before := compacting.single address
    have owned := owned address
    have taken := taken address
    rw [listAt_cons] at before
    dsimp only at owned
    omega
  obtain ⟨orderly', freed⟩ := orderly.deallocate single (barrier_header _) ⟨positive, ends⟩
  refine ⟨⟨orderly', merged, Or.inr run, fun extent listed => compacting.pending extent (List.mem_cons_of_mem _ listed),
    fun address => ?_⟩, fun address => ?_⟩
  · have single := single address
    have freed := freed address
    dsimp only
    omega
  · have taken := taken address
    have freed := freed address
    omega

/-- Everything from `stop` on is free. -/
def FreeFrom (stop : ℕ) (freeList : FreeList) : Prop :=
  ∀ address, stop ≤ address → address < fileTop → 0 < freeAt freeList address

/-- What one turn of the loop keeps. -/
theorem Compacting.step (compacting : Compacting others c ((offset, block) :: rest))
    (stepped : c.step stop wasted (offset, block) = .ok c') :
    Compacting others c' rest ∧ ∀ end_, FreeFrom end_ c.freeList → FreeFrom end_ c'.freeList := by
  rcases step_ok stepped with rfl | ⟨newBlock, freeList, hint, allocated, rfl⟩ |
    ⟨newBlock, freeList, serialised, copies, ⟨hint, allocated⟩, moved, rfl⟩
  · exact ⟨compacting.stays, fun _ free => free⟩
  · obtain ⟨positive, ends⟩ := compacting.pending _ List.mem_cons_self
    rw [compacting.orderly.rollback allocated positive (by dsimp only at ends; omega)]
    exact ⟨compacting.stays, fun _ free => free⟩
  · obtain ⟨kept, changed⟩ := compacting.moves copies allocated serialised
    refine ⟨kept, fun end_ free address behind inside => ?_⟩
    obtain ⟨sized, below, -, entrySize, listed, large, clear⟩ := compacting.copies_down copies
    obtain ⟨positive, ends⟩ := compacting.pending _ List.mem_cons_self
    -- the block is in use, so it lies before the free end of the file, and so does its new place
    have before : block.location < end_ := by
      by_contra after
      have limit := offMax_lt
      have top : fileTop = 40 + (2 ^ 64 - 1) := rfl
      dsimp only at positive ends
      have here := free block.location (by omega) (by omega)
      have single := compacting.single block.location
      have own : blockAt block block.location = 1 := within_eq_one (by omega)
      rw [listAt_cons] at single
      omega
    have outside : blockAt newBlock address = 0 := within_eq_zero (by omega)
    have changed := changed address
    have here := free address behind inside
    dsimp only
    omega

end Step

/-! ### One file, and all of them -/

theorem Compacting.loop {c c' : Compaction} {extents : List (ℕ × Block)}
    (compacting : Compacting others c (extents ++ rest))
    (done : extents.foldlM (Compaction.step stop wasted) c = .ok c') :
    Compacting others c' rest ∧ ∀ end_, FreeFrom end_ c.freeList → FreeFrom end_ c'.freeList := by
  induction extents generalizing c with
  | nil => cases done; exact ⟨compacting, fun _ free => free⟩
  | cons extent extents ih =>
    rw [List.foldlM_cons] at done
    obtain ⟨middle, first, done⟩ := bind_ok.mp done
    obtain ⟨kept, free⟩ := Compacting.step compacting first
    obtain ⟨kept, free'⟩ := ih kept done
    exact ⟨kept, fun end_ before => free' end_ (free end_ before)⟩

def Compaction.start (s : Snapshot) : Compaction :=
  { merged := .empty, run := emptyRun, freeList := s.freeList, serialised := s.serialised }

theorem compacting_of_settled {s : Snapshot} (settled : Settled fileTop headerAt s)
    (found : s.files.find path = some file) (held : file.data = some data) :
    Compacting (liveAt (s.files.erase path)) (Compaction.start s) data.entries := by
  refine ⟨settled.orderly, fun _ _ none => (by cases none), Or.inl rfl, fun extent listed => ?_, fun address => ?_⟩
  · exact settled.solid path file found data extent.1 extent.2 held (SortedMap.mem_entries_iff.mp listed)
  · have single := settled.single address
    have taken := liveAt_erase s.files path address
    rw [pathAt_of_find found, fileAt_of_data held] at taken
    have all : listAt data.entries address = dataAt data address := rfl
    have none : dataAt (Compaction.start s).merged address = 0 := rfl
    have empty : blockAt (Compaction.start s).run.2 address = 0 := within_eq_zero (by show ¬ (0 ≤ address ∧ address < 0 + 0); omega)
    unfold usedAt at single
    rw [all, none, empty]
    show _ + _ + freeAt s.freeList address + 0 + 0 + _ ≤ 1
    omega

/-- The table after the extents of one file were gone through. -/
def compacted (s : Snapshot) (path : Path) (file : File) (c : Compaction) : Snapshot :=
  { s with files := s.files.insert path { file with data := some c.finish },
           freeList := c.freeList, serialised := c.serialised }

theorem settled_compacted {s : Snapshot} (compacting : Compacting (liveAt (s.files.erase path)) c [])
    (settled : Settled fileTop headerAt s) (free : FreeFrom offMax c.freeList) (file : File) :
    Settled fileTop headerAt (compacted s path file c) := by
  have owned : (∀ offset block, c.finish.find offset = some block → Solid block) ∧
      ∀ address, dataAt c.finish address ≤ dataAt c.merged address + blockAt c.run.2 address := by
    unfold Compaction.finish
    split
    · next flushed =>
      have run := compacting.run.resolve_left fun empty => flushed (congrArg Prod.fst empty)
      refine ⟨fun _ _ => solid_insert compacting.merged run, fun address => ?_⟩
      have added := dataAt_insert c.merged c.run.1 c.run.2 address
      omega
    · exact ⟨compacting.merged, fun address => Nat.le_add_right _ _⟩
  refine ⟨compacting.orderly, fun _ _ => solid_put settled.solid ?_, fun address => ?_, free⟩
  · intro data offset block held found
    cases held
    exact owned.1 offset block found
  · have single := compacting.single address
    have owned := owned.2 address
    unfold usedAt compacted
    dsimp only
    rw [liveAt_put s.files rfl]
    omega

/-- What compaction does with the first of the files. -/
theorem compactFiles_ok {s s' : Snapshot} (done : s.compactFiles spare ((path, file) :: files) = .ok s') :
    (file.data = none ∧ s.compactFiles spare files = .ok s') ∨
      ∃ data stop, file.data = some data ∧ endOfData s.freeList = .ok stop ∧
        ((spare (wastedSpace s.freeList) stop = true ∧ s' = s) ∨
          (spare (wastedSpace s.freeList) stop = false ∧ ∃ c,
            data.entries.foldlM (Compaction.step stop (wastedSpace s.freeList)) (Compaction.start s) = .ok c ∧
            (compacted s path file c).compactFiles spare files = .ok s')) := by
  unfold Snapshot.compactFiles at done
  split at done
  · next empty => exact Or.inl ⟨empty, done⟩
  · next data held =>
    obtain ⟨stop, last, done⟩ := bind_ok.mp done
    refine Or.inr ⟨data, stop, held, last, ?_⟩
    split at done
    · next enough => exact Or.inl ⟨enough, (Except.ok.inj done).symm⟩
    · next needed =>
      obtain ⟨c, looped, done⟩ := bind_ok.mp done
      exact Or.inr ⟨Bool.eq_false_iff.mpr needed, c, looped, done⟩

/-- The files still to be compacted are in the table as they were. -/
structure Remaining (s : Snapshot) (files : List (Path × File)) : Prop where
  sorted : SortedMap.Increasing files
  listed : ∀ entry ∈ files, s.files.find entry.1 = some entry.2

theorem Remaining.tail (remaining : Remaining s (entry :: files)) : Remaining s files :=
  ⟨(List.pairwise_cons.mp remaining.sorted).2, fun other listed => remaining.listed other (List.mem_cons_of_mem _ listed)⟩

theorem Remaining.compacted (remaining : Remaining s ((path, file) :: files)) (c : Compaction) :
    Remaining (compacted s path file c) files := by
  obtain ⟨below, sorted⟩ := List.pairwise_cons.mp remaining.sorted
  refine ⟨sorted, fun other listed => ?_⟩
  have found := remaining.tail.listed other listed
  have differ : path ≠ other.1 := (below other listed).ne
  show (s.files.insert path _).find other.1 = _
  rw [SortedMap.find_insert_of_ne _ differ, found]

theorem freeFrom_offMax (settled : Settled fileTop headerAt s) : FreeFrom offMax s.freeList :=
  fun address beyond inside => settled.beyond address beyond inside

/-- One file: no byte gets a second owner, and the end of the data does not
rise. -/
theorem settled_compactFile {s : Snapshot} (settled : Settled fileTop headerAt s)
    (found : s.files.find path = some file) (held : file.data = some data)
    (done : data.entries.foldlM (Compaction.step stop wasted) (Compaction.start s) = .ok c) :
    Settled fileTop headerAt (compacted s path file c) ∧
      ∀ end_, FreeFrom end_ s.freeList → FreeFrom end_ c.freeList := by
  have compacting := compacting_of_settled settled found held
  rw [← List.append_nil data.entries] at compacting
  obtain ⟨kept, free⟩ := compacting.loop done
  exact ⟨settled_compacted kept settled (free offMax (freeFrom_offMax settled)) file, free⟩

theorem settled_compactFiles {s s' : Snapshot} {files : List (Path × File)} (settled : Settled fileTop headerAt s)
    (remaining : Remaining s files) (done : s.compactFiles spare files = .ok s') :
    Settled fileTop headerAt s' ∧ ∀ end_, FreeFrom end_ s.freeList → FreeFrom end_ s'.freeList := by
  induction files generalizing s with
  | nil => cases done; exact ⟨settled, fun _ free => free⟩
  | cons entry files ih =>
    obtain ⟨path, file⟩ := entry
    have found := remaining.listed _ List.mem_cons_self
    rcases compactFiles_ok done with ⟨-, done⟩ | ⟨data, stop, held, -, ⟨-, rfl⟩ | ⟨-, c, looped, done⟩⟩
    · exact ih settled remaining.tail done
    · exact ⟨settled, fun _ free => free⟩
    · obtain ⟨kept, free⟩ := settled_compactFile settled found held looped
      obtain ⟨last, free'⟩ := ih kept (remaining.compacted c) done
      exact ⟨last, fun end_ before => free' end_ (free end_ before)⟩

/-- The last free region is the one that reaches the end of the space. -/
theorem endOfData_of_covering (orderly : Orderly top freeList) (found : freeList.find key = some size)
    (reaches : top ≤ key + size) : endOfData freeList = .ok key := by
  unfold endOfData
  split
  · next entry last =>
    have listed := SortedMap.mem_entries_iff.mp (List.mem_of_getLast? last)
    rcases Nat.eq_or_lt_of_le (SortedMap.le_last last found) with same | above
    · rw [same]
    · have gap := orderly.coalesced.gap _ _ _ _ found listed above
      have ends := (orderly.ends _ _ listed).2
      omega
  · next none =>
    rw [List.getLast?_eq_none_iff] at none
    have listed := SortedMap.mem_entries_iff.mpr found
    rw [none] at listed
    cases listed

/-- If everything from `stop` on is free, the last region starts there or
before. -/
theorem endOfData_le (orderly : Orderly fileTop freeList) (low : stop < fileTop) (free : FreeFrom stop freeList) :
    ∃ key, endOfData freeList = .ok key ∧ key ≤ stop ∧ FreeFrom key freeList := by
  obtain ⟨key, size, found, start, reaches⟩ := orderly.coalesced.covering low free
  refine ⟨key, endOfData_of_covering orderly found reaches, start, fun address behind inside => ?_⟩
  refine Nat.lt_of_lt_of_le ?_ (le_freeAt found address)
  exact within_pos.mpr ⟨behind, by omega⟩

end Fsyncer.SnapshotCompaction
