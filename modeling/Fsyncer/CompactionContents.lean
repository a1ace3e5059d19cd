import Fsyncer.SnapshotContents
import Fsyncer.SnapshotReopen
import Mathlib.Algebra.Order.BigOperators.Group.List

/-! What compaction makes of the bytes of the files. A block is copied before its
old place is given back, so the extents read the same after every turn of the
loop. But the run that is pending behind the last extent of a file is entered
only if it does not start at offset zero of the file. -/
namespace Fsyncer.CompactionContents
open Fsyncer.ByteFile (offMax)
open Fsyncer.FileTree (Path)
open Fsyncer.Machine Fsyncer.Spans Fsyncer.SnapshotBlocks Fsyncer.SnapshotCompaction Fsyncer.SnapshotContents
open Fsyncer.SnapshotExtents Fsyncer.SnapshotFile Fsyncer.SnapshotLayout Fsyncer.SnapshotPartition Fsyncer.SnapshotReopen
open Fsyncer.SnapshotSpace Fsyncer.SnapshotStore Fsyncer.Vfs
open Fsyncer.Wire (Codec)

/-! ### Reading through extents -/

/-- The byte at a position of the file, read through any of the extents. -/
def ReadsIn (extents : ℕ → Block → Prop) (serialised : ByteFile.File) (position : ℕ) (byte : UInt8) : Prop :=
  ∃ offset block, extents offset block ∧ offset ≤ position ∧ position < offset + block.size ∧
    serialised[block.location + (position - offset)]? = some byte

section ReadsIn
variable {extents extents' : ℕ → Block → Prop} {serialised after : ByteFile.File} {position : ℕ} {byte : UInt8}

theorem readsIn_iff (same : ∀ offset block, extents offset block ↔ extents' offset block) :
    ReadsIn extents serialised position byte ↔ ReadsIn extents' serialised position byte := by
  simp only [ReadsIn, same]

theorem readsIn_or : ReadsIn (fun offset block => extents offset block ∨ extents' offset block) serialised position byte ↔
    ReadsIn extents serialised position byte ∨ ReadsIn extents' serialised position byte := by
  simp only [ReadsIn, or_and_right, exists_or]

/-- The bytes of the extents are the same in both files. -/
theorem readsIn_congr (same : ∀ offset block, extents offset block → ∀ i < block.size,
      after[block.location + i]? = serialised[block.location + i]?) (position : ℕ) (byte : UInt8) :
    ReadsIn extents after position byte ↔ ReadsIn extents serialised position byte := by
  unfold ReadsIn
  refine exists_congr fun offset => exists_congr fun block => and_congr_right fun held => and_congr_right fun low => ?_
  refine and_congr_right fun high => ?_
  rw [same offset block held (position - offset) (by omega)]

/-- One extent. -/
def Only (extent : ℕ × Block) (offset : ℕ) (block : Block) : Prop := (offset, block) = extent

theorem readsIn_only (extent : ℕ × Block) : ReadsIn (Only extent) serialised position byte ↔
    extent.1 ≤ position ∧ position < extent.1 + extent.2.size ∧
      serialised[extent.2.location + (position - extent.1)]? = some byte := by
  constructor
  · rintro ⟨offset, block, rfl, reads⟩
    exact reads
  · intro reads
    exact ⟨extent.1, extent.2, rfl, reads⟩

/-- The same bytes in another place. -/
theorem readsIn_moved {block block' : Block} (sized : block'.size = block.size)
    (same : ∀ i < block.size, after[block'.location + i]? = serialised[block.location + i]?) (offset : ℕ) :
    ReadsIn (Only (offset, block')) after position byte ↔ ReadsIn (Only (offset, block)) serialised position byte := by
  rw [readsIn_only, readsIn_only, sized]
  refine and_congr_right fun low => and_congr_right fun high => ?_
  dsimp only at low high
  rw [same (position - offset) (by omega)]

/-- Two extents that follow each other in the file and in the space. -/
theorem readsIn_joined (offset : ℕ) (block : Block) (size : ℕ) :
    ReadsIn (Only (offset, ⟨block.location, block.size + size⟩)) serialised position byte ↔
      ReadsIn (Only (offset, block)) serialised position byte ∨
        ReadsIn (Only (offset + block.size, ⟨block.location + block.size, size⟩)) serialised position byte := by
  simp only [readsIn_only]
  have behind (late : offset + block.size ≤ position) :
      block.location + block.size + (position - (offset + block.size)) = block.location + (position - offset) := by
    omega
  constructor
  · rintro ⟨low, high, reads⟩
    by_cases early : position < offset + block.size
    · exact .inl ⟨low, early, reads⟩
    · exact .inr ⟨by omega, by omega, by rwa [behind (by omega)]⟩
  · rintro (⟨low, high, reads⟩ | ⟨low, high, reads⟩)
    · exact ⟨low, by omega, reads⟩
    · rw [behind low] at reads
      exact ⟨by omega, by omega, reads⟩

end ReadsIn

/-! ### One turn of the loop -/

/-- The extents that the loop is done with: those entered, and the run. -/
def Done (c : Compaction) (offset : ℕ) (block : Block) : Prop :=
  c.merged.find offset = some block ∨ c.run ≠ emptyRun ∧ Only c.run offset block

/-- All extents of the file, with those still to come. -/
def InLoop (c : Compaction) (rest : List (ℕ × Block)) (offset : ℕ) (block : Block) : Prop :=
  Done c offset block ∨ (offset, block) ∈ rest

/-- The extents lie one behind the other in the file, and their bytes are there. -/
structure Carries (others : ℕ → ℕ) (c : Compaction) (rest : List (ℕ × Block)) : Prop where
  compacting : Compacting others c rest
  fresh : c.run ≠ emptyRun → c.merged.find c.run.1 = none
  before : ∀ offset block, Done c offset block → ∀ later ∈ rest, offset + block.size ≤ later.1
  sorted : rest.Pairwise fun extent later => extent.1 + extent.2.size ≤ later.1
  small : ∀ extent ∈ rest, extent.1 + extent.2.size < 2 ^ 64
  stored : ∀ offset block, InLoop c rest offset block → block.location + block.size ≤ c.serialised.length

/-- The extents of the file read as before, and so does every byte of others. -/
structure Preserves (others : ℕ → ℕ) (c : Compaction) (rest : List (ℕ × Block)) (c' : Compaction)
    (rest' : List (ℕ × Block)) : Prop where
  reads : ∀ position byte, ReadsIn (InLoop c' rest') c'.serialised position byte ↔
    ReadsIn (InLoop c rest) c.serialised position byte
  longer : c.serialised.length ≤ c'.serialised.length
  besides : ∀ address < c.serialised.length, 0 < others address → c'.serialised[address]? = c.serialised[address]?

section Turn
variable {others : ℕ → ℕ} {c c' : Compaction} {offset : ℕ} {block newBlock : Block} {rest : List (ℕ × Block)}

theorem solid_of_done (compacting : Compacting others c rest) (done : Done c offset block) : Solid block := by
  rcases done with entered | ⟨running, only⟩
  · exact compacting.merged offset block entered
  · have solid := compacting.run.resolve_left running
    rwa [← only] at solid

theorem solid_of_inLoop (compacting : Compacting others c rest) (held : InLoop c rest offset block) : Solid block := by
  rcases held with done | listed
  · exact solid_of_done compacting done
  · exact compacting.pending _ listed

theorem find_insert_fresh {data : DataList} (absent : data.find offset = none) :
    (data.insert offset block).find other = some held ↔ data.find other = some held ∨ Only (offset, block) other held := by
  unfold Only
  rw [SortedMap.find_insert]
  split
  · next here =>
    subst here
    simp [absent, eq_comm]
  · next differ => simp [Ne.symm differ]

/-- What the loop is done with ends before the next extent. -/
theorem Carries.ends (carries : Carries others c ((offset, block) :: rest)) (done : Done c other held) :
    other + held.size ≤ offset ∧ 0 < held.size :=
  ⟨carries.before other held done _ List.mem_cons_self, (solid_of_done carries.compacting done).1⟩

theorem Carries.run_ends (carries : Carries others c ((offset, block) :: rest)) (running : c.run ≠ emptyRun) :
    c.run.1 + c.run.2.size ≤ offset ∧ 0 < c.run.2.size := carries.ends (.inr ⟨running, rfl⟩)

theorem Carries.absent (carries : Carries others c ((offset, block) :: rest)) : c.merged.find offset = none := by
  cases found : c.merged.find offset with
  | none => rfl
  | some held =>
    have ends := carries.ends (.inl found)
    omega

theorem done_stays (carries : Carries others c ((offset, block) :: rest)) :
    Done { c with merged := c.merged.insert offset block } other held ↔
      Done c other held ∨ Only (offset, block) other held := by
  unfold Done
  dsimp only
  rw [find_insert_fresh carries.absent, or_right_comm]

theorem inLoop_cons : InLoop c ((offset, block) :: rest) other held ↔
    (Done c other held ∨ Only (offset, block) other held) ∨ (other, held) ∈ rest := by
  unfold InLoop Only
  rw [List.mem_cons, or_assoc]

/-- The extent is entered as it is. -/
theorem Carries.stays (carries : Carries others c ((offset, block) :: rest)) :
    Carries others { c with merged := c.merged.insert offset block } rest ∧ ∀ other held,
      InLoop { c with merged := c.merged.insert offset block } rest other held ↔
        InLoop c ((offset, block) :: rest) other held := by
  have same (other : ℕ) (held : Block) : InLoop { c with merged := c.merged.insert offset block } rest other held ↔
      InLoop c ((offset, block) :: rest) other held := by
    rw [inLoop_cons, InLoop, done_stays carries]
  obtain ⟨first, sorted⟩ := List.pairwise_cons.mp carries.sorted
  refine ⟨⟨carries.compacting.stays, fun running => ?_, fun other held done later listed => ?_, sorted,
    fun extent listed => carries.small extent (List.mem_cons_of_mem _ listed), fun other held there => ?_⟩, same⟩
  · have ends := carries.run_ends running
    dsimp only
    rw [SortedMap.find_insert_of_ne _ (by omega)]
    exact carries.fresh running
  · rcases (done_stays carries).mp done with done | only
    · exact carries.before other held done later (List.mem_cons_of_mem _ listed)
    · cases only
      exact first later listed
  · exact carries.stored other held ((same other held).mp there)

/-- What a moved block makes of the run. -/
theorem addToRun_cases (carries : Carries others c ((offset, block) :: rest)) (sized : newBlock.size = block.size)
    (solid : Solid newBlock) :
    (∀ other held, Done (c.addToRun offset block newBlock) other held ↔
      Done c other held ∨ Only (offset, newBlock) other held) ∨
    c.run ≠ emptyRun ∧ c.run.1 + c.run.2.size = offset ∧ c.run.2.location + c.run.2.size = newBlock.location ∧
      (c.addToRun offset block newBlock).merged = c.merged ∧
      (c.addToRun offset block newBlock).run = (c.run.1, ⟨c.run.2.location, c.run.2.size + newBlock.size⟩) := by
  have filled : (offset, newBlock) ≠ emptyRun := by
    rintro same
    cases same
    exact absurd solid.1 (by decide)
  unfold Compaction.addToRun
  split
  · next none =>
    refine .inl fun other held => ?_
    simp [Done, none, filled]
  · next running =>
    have run := carries.compacting.run.resolve_left running
    have ends := carries.run_ends running
    have small := carries.small _ List.mem_cons_self
    have limit := offMax_lt
    unfold Solid at run solid
    dsimp only at small
    split
    · next follows =>
      obtain ⟨inFile, inSpace⟩ := follows
      rw [u64_of_lt (by omega)] at inFile inSpace
      refine .inr ⟨running, inFile, inSpace, rfl, ?_⟩
      rw [sized, u64_of_lt (by omega)]
    · refine .inl fun other held => ?_
      unfold Done
      dsimp only
      rw [find_insert_fresh (carries.fresh running)]
      simp only [ne_eq, filled, running, not_false_eq_true, true_and]

/-- Where the extents end that a moved block gives rise to. -/
theorem done_addToRun (carries : Carries others c ((offset, block) :: rest)) (sized : newBlock.size = block.size)
    (solid : Solid newBlock) (done : Done (c.addToRun offset block newBlock) other held) : Done c other held ∨
      other + held.size = offset + block.size ∧ held.location + held.size = newBlock.location + newBlock.size := by
  rcases addToRun_cases carries sized solid with apart | ⟨-, inFile, inSpace, merged, run⟩
  · rcases (apart other held).mp done with done | only
    · exact .inl done
    · cases only
      exact .inr ⟨by rw [sized], rfl⟩
  · unfold Done at done
    rw [merged, run] at done
    rcases done with entered | ⟨-, only⟩
    · exact .inl (.inl entered)
    · cases only
      dsimp only
      exact .inr ⟨by omega, by omega⟩

/-- The run is not entered yet. -/
theorem addToRun_fresh (carries : Carries others c ((offset, block) :: rest)) (newBlock : Block) :
    (c.addToRun offset block newBlock).merged.find (c.addToRun offset block newBlock).run.1 = none := by
  unfold Compaction.addToRun
  split
  · exact carries.absent
  · next running =>
    split
    · exact carries.fresh running
    · have ends := carries.run_ends running
      dsimp only
      rw [SortedMap.find_insert_of_ne _ (by omega)]
      exact carries.absent

/-- The moved block is read together with what was there. -/
theorem readsIn_addToRun (carries : Carries others c ((offset, block) :: rest)) (sized : newBlock.size = block.size)
    (solid : Solid newBlock) (serialised : ByteFile.File) (position : ℕ) (byte : UInt8) :
    ReadsIn (Done (c.addToRun offset block newBlock)) serialised position byte ↔
      ReadsIn (Done c) serialised position byte ∨ ReadsIn (Only (offset, newBlock)) serialised position byte := by
  rcases addToRun_cases carries sized solid with apart | ⟨running, inFile, inSpace, merged, run⟩
  · rw [readsIn_iff apart, readsIn_or]
  · have joined (other : ℕ) (held : Block) : Done (c.addToRun offset block newBlock) other held ↔
        c.merged.find other = some held ∨ Only (c.run.1, ⟨c.run.2.location, c.run.2.size + newBlock.size⟩) other held := by
      have filled : (c.run.1, (⟨c.run.2.location, c.run.2.size + newBlock.size⟩ : Block)) ≠ emptyRun := by
        intro same
        have empty : c.run.2.size + newBlock.size = 0 := congrArg (fun extent => extent.2.size) same
        have positive := solid.1
        omega
      unfold Done
      rw [merged, run]
      simp [filled]
    have before (other : ℕ) (held : Block) : Done c other held ↔ c.merged.find other = some held ∨ Only c.run other held := by
      simp [Done, running]
    have new : (offset, newBlock) = (c.run.1 + c.run.2.size, ⟨c.run.2.location + c.run.2.size, newBlock.size⟩) := by
      rw [inFile, inSpace]
    rw [readsIn_iff joined, readsIn_iff before, readsIn_or, readsIn_or, readsIn_joined, new, or_assoc]

theorem addToRun_eq (c : Compaction) (freeList : FreeList) (serialised : ByteFile.File) (offset : ℕ) (block newBlock : Block) :
    Compaction.addToRun { c with freeList, serialised } offset block newBlock =
      { c.addToRun offset block newBlock with freeList, serialised } := by
  unfold Compaction.addToRun
  dsimp only
  split
  · rfl
  · split <;> rfl

theorem le_listAt {extents : List (ℕ × Block)} (listed : (offset, block) ∈ extents) (address : ℕ) :
    blockAt block address ≤ listAt extents address :=
  List.single_le_sum (fun _ _ => Nat.zero_le _) _ (List.mem_map.mpr ⟨_, listed, rfl⟩)

/-- What belongs to the file, at any address. -/
def loopAt (c : Compaction) (rest : List (ℕ × Block)) (address : ℕ) : ℕ :=
  dataAt c.merged address + blockAt c.run.2 address + listAt rest address

theorem loopAt_pos (held : InLoop c rest offset block) (inside : i < block.size) : 0 < loopAt c rest (block.location + i) := by
  have one : blockAt block (block.location + i) = 1 := within_eq_one (by omega)
  unfold loopAt
  rcases held with (entered | ⟨-, only⟩) | listed
  · have := le_dataAt entered (block.location + i)
    omega
  · rw [← only]
    dsimp only
    omega
  · have := le_listAt listed (block.location + i)
    omega

/-- A copy overwrites nothing that belongs to a file. -/
theorem kept_of_copy (compacting : Compacting others c ((offset, block) :: rest))
    (copies : Copies stop wasted c (offset, block) newBlock)
    (overwrites : Overwrites c.serialised newBlock.location bytes after) (length : bytes.length = newBlock.size)
    (there : address < c.serialised.length) (used : 0 < others address + loopAt c ((offset, block) :: rest) address) :
    after[address]? = c.serialised[address]? := by
  refine overwrites.outside address there ?_
  obtain ⟨sized, -, -, entrySize, free, large, -⟩ := compacting.copies_down copies
  have single := compacting.single address
  have taken := le_freeAt free address
  by_contra inside
  have covered : within newBlock.location entrySize address = 1 := within_eq_one (by omega)
  unfold loopAt at used
  omega

/-- The copy of a block, which becomes part of the run. -/
theorem Carries.moves (carries : Carries others c ((offset, block) :: rest))
    (copies : Copies stop wasted c (offset, block) newBlock)
    (allocated : allocate c.freeList block.size hint = .ok (newBlock, freeList))
    (moved : moveFileRange c.serialised block.location newBlock.location block.size = .ok serialised)
    (stepped : c' = { Compaction.addToRun { c with freeList, serialised } offset block newBlock with
      freeList := deallocate freeList block }) :
    Carries others c' rest ∧ Preserves others c ((offset, block) :: rest) c' rest := by
  have compacting := carries.compacting
  obtain ⟨sized, below, apart, -⟩ := compacting.copies_down copies
  have solidBlock : Solid block := compacting.pending _ List.mem_cons_self
  have there : block.location + block.size ≤ c.serialised.length :=
    carries.stored offset block (.inr List.mem_cons_self)
  have limit := offMax_lt
  have solid : Solid newBlock := by
    unfold Solid at solidBlock ⊢
    omega
  have overwrites : Overwrites c.serialised newBlock.location (slice c.serialised block.location block.size) serialised := by
    unfold Solid at solidBlock
    unfold Apart at apart
    exact overwrites_of_moveFileRange moved there (by omega) (by omega) (by omega)
  have length : (slice c.serialised block.location block.size).length = newBlock.size := by
    rw [length_slice there, sized]
  have kept (address : ℕ) (inside : address < c.serialised.length) :=
    kept_of_copy compacting copies overwrites length inside
  rw [addToRun_eq] at stepped
  subst stepped
  dsimp only
  have bytes (other : ℕ) (held : Block) (inLoop : InLoop c ((offset, block) :: rest) other held) (i : ℕ)
      (inside : i < held.size) : serialised[held.location + i]? = c.serialised[held.location + i]? := by
    have stored := carries.stored other held inLoop
    exact kept _ (by omega) (Nat.add_pos_right _ (loopAt_pos inLoop inside))
  have copied (i : ℕ) (inside : i < block.size) :
      serialised[newBlock.location + i]? = c.serialised[block.location + i]? := by
    rw [overwrites.inside i (by omega), getElem?_slice _ _ _ inside]
  refine ⟨?_, fun position byte => ?_, overwrites.longer, fun address inside used => kept address inside (by omega)⟩
  · have next := (compacting.moves copies allocated serialised).1
    rw [addToRun_eq] at next
    obtain ⟨first, sorted⟩ := List.pairwise_cons.mp carries.sorted
    refine ⟨next, fun _ => addToRun_fresh carries newBlock, fun other held done later listed => ?_, sorted,
      fun extent listed => carries.small extent (List.mem_cons_of_mem _ listed), fun other held inLoop => ?_⟩
    · rcases done_addToRun carries sized solid done with done | ⟨ends, -⟩
      · exact carries.before other held done later (List.mem_cons_of_mem _ listed)
      · rw [ends]
        exact first later listed
    · have longer := overwrites.longer
      dsimp only
      rcases inLoop with done | listed
      · rcases done_addToRun carries sized solid done with done | ⟨-, ends⟩
        · have stored := carries.stored other held (.inl done)
          omega
        · unfold Apart at apart
          omega
      · have stored := carries.stored other held (.inr (List.mem_cons_of_mem _ listed))
        omega
  · have fromDone := readsIn_congr fun other held (done : Done c other held) => bytes other held (.inl done)
    have fromRest := readsIn_congr fun other held (listed : (other, held) ∈ rest) =>
      bytes other held (.inr (List.mem_cons_of_mem _ listed))
    rw [readsIn_iff fun other held => inLoop_cons, readsIn_or, readsIn_or, ← fromDone, ← fromRest,
      ← readsIn_moved sized copied offset, ← readsIn_addToRun carries sized solid]
    exact readsIn_or

theorem Carries.step (carries : Carries others c ((offset, block) :: rest))
    (stepped : c.step stop wasted (offset, block) = .ok c') :
    Carries others c' rest ∧ Preserves others c ((offset, block) :: rest) c' rest := by
  have stays : Preserves others c ((offset, block) :: rest) { c with merged := c.merged.insert offset block } rest :=
    ⟨fun position byte => readsIn_iff carries.stays.2, Nat.le_refl _, fun _ _ _ => rfl⟩
  rcases step_ok stepped with rfl | ⟨newBlock, freeList, hint, allocated, rfl⟩ |
    ⟨newBlock, freeList, serialised, copies, ⟨hint, allocated⟩, moved, same⟩
  · exact ⟨carries.stays.1, stays⟩
  · obtain ⟨positive, ends⟩ := carries.compacting.pending _ List.mem_cons_self
    rw [carries.compacting.orderly.rollback allocated positive (by dsimp only at ends; omega)]
    exact ⟨carries.stays.1, stays⟩
  · exact carries.moves copies allocated moved same

theorem Preserves.trans {c₁ c₂ c₃ : Compaction} (first : Preserves others c₁ rest₁ c₂ rest₂)
    (second : Preserves others c₂ rest₂ c₃ rest₃) : Preserves others c₁ rest₁ c₃ rest₃ := by
  refine ⟨fun position byte => (second.reads position byte).trans (first.reads position byte),
    first.longer.trans second.longer, fun address inside used => ?_⟩
  rw [second.besides address (inside.trans_le first.longer) used, first.besides address inside used]

theorem Carries.loop {extents : List (ℕ × Block)} (carries : Carries others c extents)
    (done : extents.foldlM (Compaction.step stop wasted) c = .ok c') :
    Carries others c' [] ∧ Preserves others c extents c' [] := by
  induction extents generalizing c with
  | nil =>
    cases done
    exact ⟨carries, fun _ _ => Iff.rfl, Nat.le_refl _, fun _ _ _ => rfl⟩
  | cons extent extents ih =>
    rw [List.foldlM_cons] at done
    obtain ⟨middle, first, done⟩ := bind_ok.mp done
    obtain ⟨carries, preserves⟩ := Carries.step carries first
    obtain ⟨carries, preserves'⟩ := ih carries done
    exact ⟨carries, preserves.trans preserves'⟩

/-! ### The end of a file -/

/-- The last run is entered, if there is one. -/
def Flushed (c : Compaction) : Prop := c.run = emptyRun ∨ c.run.1 ≠ 0

theorem find_finish (carries : Carries others c []) (flushed : Flushed c) :
    c.finish.find offset = some block ↔ InLoop c [] offset block := by
  unfold Compaction.finish InLoop Done
  by_cases zero : c.run.1 = 0
  · have empty := flushed.resolve_right (not_not.mpr zero)
    rw [if_neg (not_not.mpr zero)]
    simp [empty]
  · have running : c.run ≠ emptyRun := fun empty => zero (congrArg Prod.fst empty)
    simp only [if_pos zero, find_insert_fresh (carries.fresh running), running, List.not_mem_nil, or_false, ne_eq,
      not_false_eq_true, true_and]

theorem inLoop_of_finish (carries : Carries others c []) (found : c.finish.find offset = some block) :
    InLoop c [] offset block := by
  by_cases flushed : Flushed c
  · exact (find_finish carries flushed).mp found
  · unfold Flushed at flushed
    rw [not_or, not_not] at flushed
    rw [Compaction.finish, if_neg (not_not.mpr flushed.2)] at found
    exact .inl (.inl found)

/-- A run from offset zero is dropped, and the first byte of the file with it. -/
theorem lost_of_dropped (carries : Carries others c []) (dropped : ¬ Flushed c) :
    (∃ byte, ReadsIn (InLoop c []) c.serialised 0 byte) ∧ ∀ serialised byte, ¬ Reads c.finish serialised 0 byte := by
  unfold Flushed at dropped
  rw [not_or, not_not] at dropped
  obtain ⟨running, zero⟩ := dropped
  have held : InLoop c [] c.run.1 c.run.2 := .inl (.inr ⟨running, rfl⟩)
  constructor
  · have solid := solid_of_inLoop carries.compacting held
    have stored := carries.stored _ _ held
    unfold Solid at solid
    obtain ⟨byte, there⟩ : ∃ byte, c.serialised[c.run.2.location + (0 - c.run.1)]? = some byte :=
      ⟨_, List.getElem?_eq_getElem (by omega)⟩
    exact ⟨byte, c.run.1, c.run.2, held, by omega, by omega, there⟩
  · rintro serialised byte ⟨offset, block, found, low, -⟩
    rw [Compaction.finish, if_neg (not_not.mpr zero), Nat.le_zero.mp low, ← zero, carries.fresh running] at found
    cases found

end Turn

/-! ### All files -/

/-- The snapshot between two files. -/
structure Intact (s : Snapshot) (files : List (Path × File)) : Prop where
  settled : Settled fileTop headerAt s
  stored : AllData (Stored s.serialised.length) s
  remaining : Remaining s files
  ordered : ∀ entry ∈ files, ∀ data, entry.2.data = some data → Ordered data

/-- `Ends spare files s c`: compaction of `files` goes through the extents of one
of them, and leaves the loop in state `c`. -/
inductive Ends (spare : ℕ → ℕ → Bool) : List (Path × File) → Snapshot → Compaction → Prop where
  | here (held : file.data = some data) (last : endOfData s.freeList = .ok stop)
      (needed : spare (wastedSpace s.freeList) stop = false)
      (looped : data.entries.foldlM (Compaction.step stop (wastedSpace s.freeList)) (Compaction.start s) = .ok c) :
      Ends spare ((path, file) :: files) s c
  | skip (empty : file.data = none) (later : Ends spare files s c) : Ends spare ((path, file) :: files) s c
  | next (held : file.data = some data) (last : endOfData s.freeList = .ok stop)
      (needed : spare (wastedSpace s.freeList) stop = false)
      (looped : data.entries.foldlM (Compaction.step stop (wastedSpace s.freeList)) (Compaction.start s) = .ok c)
      (later : Ends spare files (compacted s path file c) c') : Ends spare ((path, file) :: files) s c'

/-- The same bytes are read under every name. -/
def SameContents (s s' : Snapshot) : Prop :=
  ∀ path position byte, PathReads s' path position byte ↔ PathReads s path position byte

section Files
variable {s s' : Snapshot} {path : Path} {file : File} {files : List (Path × File)} {c : Compaction} {data : DataList}

theorem Intact.found (intact : Intact s ((path, file) :: files)) : s.files.find path = some file :=
  intact.remaining.listed _ List.mem_cons_self

theorem Intact.tail (intact : Intact s (entry :: files)) : Intact s files :=
  ⟨intact.settled, intact.stored, intact.remaining.tail, fun other listed =>
    intact.ordered other (List.mem_cons_of_mem _ listed)⟩

theorem inLoop_start (s : Snapshot) (data : DataList) (offset : ℕ) (block : Block) :
    InLoop (Compaction.start s) data.entries offset block ↔ data.find offset = some block := by
  refine Iff.trans (or_iff_right ?_) SortedMap.mem_entries_iff
  rintro (none | ⟨running, -⟩)
  · cases none
  · exact running rfl

theorem Intact.carries (intact : Intact s ((path, file) :: files)) (held : file.data = some data) :
    Carries (liveAt (s.files.erase path)) (Compaction.start s) data.entries := by
  have ordered := intact.ordered _ List.mem_cons_self data held
  have inData {extent : ℕ × Block} (listed : extent ∈ data.entries) : data.find extent.1 = some extent.2 :=
    SortedMap.mem_entries_iff.mp listed
  refine ⟨compacting_of_settled intact.settled intact.found held, fun running => absurd rfl running, ?_, ?_,
    fun extent listed => (ordered.solid _ _ (inData listed)).2, fun offset block there => ?_⟩
  · rintro offset block (none | ⟨running, -⟩)
    · cases none
    · exact absurd rfl running
  · refine data.sorted.imp_of_mem fun {extent later} first second order => ?_
    exact ordered.apart _ _ _ _ (inData first) (inData second) order
  · exact intact.stored path file data intact.found held offset block ((inLoop_start s data offset block).mp there)

/-- Bytes of other files are where they were. -/
theorem Intact.besides (intact : Intact s ((path, file) :: files))
    (preserves : Preserves (liveAt (s.files.erase path)) (Compaction.start s) extents c rest)
    (differ : other ≠ path) (position : ℕ) (byte : UInt8) :
    PathReads (compacted s path file c) other position byte ↔ PathReads s other position byte := by
  unfold PathReads compacted
  dsimp only
  rw [SortedMap.find_insert, if_neg (Ne.symm differ)]
  refine exists_congr fun held => exists_congr fun data => and_congr_right fun found => and_congr_right fun has => ?_
  refine reads_congr fun offset block there i inside => ?_
  have stored := intact.stored other held data found has offset block there
  refine preserves.besides _ (show _ < s.serialised.length by omega) ?_
  have elsewhere : Extent { s with files := s.files.erase path } other offset block :=
    ⟨held, data, (SortedMap.find_erase _ _ _).trans ((if_neg (Ne.symm differ)).trans found), has, there⟩
  have owned := le_liveAt elsewhere (block.location + i)
  have one : blockAt block (block.location + i) = 1 := within_eq_one (by omega)
  dsimp only at owned
  omega

/-- The extents of one file are gone through. -/
theorem Intact.compacted (intact : Intact s ((path, file) :: files)) (held : file.data = some data)
    (looped : data.entries.foldlM (Compaction.step stop wasted) (Compaction.start s) = .ok c) :
    Intact (compacted s path file c) files ∧
      (∀ other, other ≠ path → ∀ position byte,
        PathReads (compacted s path file c) other position byte ↔ PathReads s other position byte) ∧
      ((∀ position byte, PathReads (compacted s path file c) path position byte ↔ PathReads s path position byte) ↔
        Flushed c) := by
  obtain ⟨carries, preserves⟩ := (intact.carries held).loop looped
  have before (position : ℕ) (byte : UInt8) : PathReads s path position byte ↔
      ReadsIn (InLoop c []) c.serialised position byte := by
    rw [preserves.reads, readsIn_iff (inLoop_start s data)]
    exact pathReads_found intact.found held
  have after (position : ℕ) (byte : UInt8) : PathReads (SnapshotCompaction.compacted s path file c) path position byte ↔
      Reads c.finish c.serialised position byte := pathReads_found (SortedMap.find_insert_self _ _ _) rfl
  refine ⟨⟨(settled_compactFile intact.settled intact.found held looped).1, ?_, intact.remaining.compacted c,
    intact.tail.ordered⟩, fun other differ => intact.besides preserves differ, ?_, fun flushed position byte => ?_⟩
  · intro other entry extents found has offset block there
    by_cases here : other = path
    · subst here
      cases (SortedMap.find_insert_self _ _ _).symm.trans found
      cases has
      exact carries.stored offset block (inLoop_of_finish carries there)
    · have kept : s.files.find other = some entry :=
        (SortedMap.find_insert_of_ne _ (Ne.symm here) _).symm.trans found
      exact (intact.stored other entry extents kept has offset block there).trans preserves.longer
  · intro kept
    by_contra dropped
    obtain ⟨⟨byte, read⟩, lost⟩ := lost_of_dropped carries dropped
    exact lost _ byte ((after 0 byte).mp ((kept 0 byte).mpr ((before 0 byte).mpr read)))
  · rw [after, before]
    exact readsIn_iff fun _ _ => find_finish carries flushed

theorem ends_of_spare (held : file.data = some data) (last : endOfData s.freeList = .ok stop)
    (enough : spare (wastedSpace s.freeList) stop = true) : ¬ Ends spare ((path, file) :: files) s c := by
  intro ends
  cases ends with
  | here _ last' needed _ | next _ last' needed _ _ =>
    cases last.symm.trans last'
    rw [enough] at needed
    cases needed
  | skip empty _ => cases held.symm.trans empty

theorem ends_cons (held : file.data = some data) (last : endOfData s.freeList = .ok stop)
    (needed : spare (wastedSpace s.freeList) stop = false)
    (looped : data.entries.foldlM (Compaction.step stop (wastedSpace s.freeList)) (Compaction.start s) = .ok c) :
    Ends spare ((path, file) :: files) s c' ↔ c' = c ∨ Ends spare files (compacted s path file c) c' := by
  constructor
  · intro ends
    cases ends with
    | here held' last' _ looped' =>
      cases held.symm.trans held'
      cases last.symm.trans last'
      exact .inl (Except.ok.inj (looped'.symm.trans looped))
    | skip empty _ => cases held.symm.trans empty
    | next held' last' _ looped' later =>
      cases held.symm.trans held'
      cases last.symm.trans last'
      cases looped.symm.trans looped'
      exact .inr later
  · rintro (rfl | later)
    · exact .here held last needed looped
    · exact .next held last needed looped later

/-- Compaction keeps the contents of all files but those that lose a run. -/
theorem Intact.compactFiles (intact : Intact s files) (done : s.compactFiles spare files = .ok s') :
    AllData (Stored s'.serialised.length) s' ∧
      (∀ path, (∀ entry ∈ files, entry.1 ≠ path) → ∀ position byte,
        PathReads s' path position byte ↔ PathReads s path position byte) ∧
      (SameContents s s' ↔ ∀ c, Ends spare files s c → Flushed c) := by
  induction files generalizing s with
  | nil =>
    cases done
    exact ⟨intact.stored, fun _ _ _ _ => Iff.rfl, fun _ c ends => (by cases ends), fun _ _ _ _ => Iff.rfl⟩
  | cons entry files ih =>
    obtain ⟨path, file⟩ := entry
    rcases compactFiles_ok done with ⟨empty, done⟩ | ⟨data, stop, held, last, ⟨enough, rfl⟩ | ⟨needed, c, looped, done⟩⟩
    · obtain ⟨stored, besides, kept⟩ := ih intact.tail done
      refine ⟨stored, fun other apart => besides other fun entry listed => apart entry (List.mem_cons_of_mem _ listed), ?_⟩
      rw [kept]
      refine forall_congr' fun c => imp_congr_left ⟨.skip empty, fun ends => ?_⟩
      cases ends with
      | skip _ later => exact later
      | here held | next held => cases empty.symm.trans held
    · exact ⟨intact.stored, fun _ _ _ _ => Iff.rfl, fun _ c ends => absurd ends (ends_of_spare held last enough),
        fun _ _ _ _ => Iff.rfl⟩
    · obtain ⟨intact', others, own⟩ := intact.compacted held looped
      obtain ⟨stored, besides, kept⟩ := ih intact' done
      -- the files behind this one have other names
      have names (entry : Path × File) (listed : entry ∈ files) : entry.1 ≠ path :=
        ((List.pairwise_cons.mp intact.remaining.sorted).1 entry listed).ne'
      have settled := besides path names
      refine ⟨stored, fun other apart position byte => ?_, ?_⟩
      · rw [besides other (fun entry listed => apart entry (List.mem_cons_of_mem _ listed)),
          others other (apart _ List.mem_cons_self).symm]
      · simp only [ends_cons held last needed looped, forall_eq_or_imp, ← own, ← kept]
        constructor
        · intro same
          refine ⟨fun position byte => (settled position byte).symm.trans (same path position byte), fun other => ?_⟩
          by_cases here : other = path
          · rw [here]
            exact settled
          · exact fun position byte => (same other position byte).trans (others other here position byte).symm
        · rintro ⟨own, same⟩ other position byte
          refine (same other position byte).trans ?_
          by_cases here : other = path
          · rw [here]
            exact own position byte
          · exact others other here position byte

end Files

/-! ### Files that have been merged from calls -/

section Runs
variable {s : Snapshot}

theorem reads_unique {data : DataList} (ordered : Ordered data) (first : Reads data serialised position byte)
    (second : Reads data serialised position byte') : byte = byte' := by
  obtain ⟨offset, block, found, low, high, read⟩ := first
  obtain ⟨offset', block', found', low', high', read'⟩ := second
  have same : offset = offset' := by
    rcases Nat.lt_trichotomy offset offset' with less | same | more
    · have := ordered.apart _ _ _ _ found found' less
      omega
    · exact same
    · have := ordered.apart _ _ _ _ found' found more
      omega
  subst same
  cases found.symm.trans found'
  exact Option.some.inj (read.symm.trans read')

/-- Extents in order read as some contents. -/
theorem exists_denotes (ordered : AllData Ordered s) : ∃ contents, Denotes s contents := by
  classical
  refine ⟨fun path position => if read : ∃ byte, PathReads s path position byte then some read.choose else none, ?_⟩
  intro path position byte
  dsimp only
  split
  · next read =>
    refine ⟨fun here => ?_, fun same => Option.some.inj same ▸ read.choose_spec⟩
    obtain ⟨file, data, found, held, reads⟩ := here
    have chosen := (pathReads_found found held).mp read.choose_spec
    rw [reads_unique (ordered path file data found held) chosen reads]
  · next none => exact iff_of_false (fun here => none ⟨byte, here⟩) nofun

theorem faithful_of_mergeFrom {calls : List VFSCall} (fit : ∀ call ∈ calls, proper call = true ∧ unwrapped call = true)
    (merged : (Snapshot.new toFile now).mergeFrom calls = .ok s) : ∃ contents, Faithful s contents := by
  refine mergeFrom_induction (fun s => ∃ contents, Faithful s contents) ?_ ⟨_, faithful_new toFile now⟩ merged
  rintro call listed s s' ⟨contents, faithful⟩ merges
  obtain ⟨proper, small⟩ := fit call listed
  have arranged := faithful.arranged.merges merges proper small
  obtain ⟨contents', denotes⟩ := exists_denotes arranged.ordered
  exact ⟨contents', arranged, faithful.stored_merges merges proper small, denotes⟩

theorem intact_of_mergeFrom {calls : List VFSCall} (fit : ∀ call ∈ calls, proper call = true ∧ unwrapped call = true)
    (merged : (Snapshot.new toFile now).mergeFrom calls = .ok s) : Intact s s.files.entries := by
  obtain ⟨contents, faithful⟩ := faithful_of_mergeFrom fit merged
  refine ⟨faithful.arranged.settled, faithful.stored, ⟨s.files.sorted, fun entry listed => ?_⟩, ?_⟩
  · exact SortedMap.mem_entries_iff.mp listed
  · intro entry listed data held
    exact faithful.arranged.ordered _ _ data (SortedMap.mem_entries_iff.mp listed) held

end Runs

end Fsyncer.CompactionContents
