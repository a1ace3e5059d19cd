import Fsyncer.SnapshotReplay

/-! Every extent of a snapshot is backed by bytes of the serialised file,
whatever calls were merged, so replay reads all of them; and the fields that a
creating call needs are set. The one way for replay to panic is left: a file
that was there before and has been written, and nothing else. -/
namespace Fsyncer.SnapshotExtents
open Fsyncer.ByteFile (Failure IoError offMax readExactAt writeAllAt splice writeAllAt_ok length_splice)
open Fsyncer.FileTree (Name Path)
open Fsyncer.Machine Fsyncer.SnapshotReplay Fsyncer.SnapshotStore Fsyncer.Vfs

/-! ### Bytes behind the extents -/

/-- All bytes of the block are in a file of the given length, and were written
there. -/
def Backed (length : ℕ) (block : Block) : Prop :=
  block.location < 2 ^ 64 ∧
    (block.size = 0 ∨ (block.location + block.size ≤ length ∧ block.location + block.size ≤ offMax))

theorem Backed.mono (backed : Backed length block) (longer : length ≤ length') : Backed length' block :=
  ⟨backed.1, backed.2.imp id fun inside => ⟨inside.1.trans longer, inside.2⟩⟩

theorem Backed.size_lt (backed : Backed length block) : block.size < 2 ^ 64 := by
  have bound : offMax < 2 ^ 64 := by decide
  rcases backed.2 with empty | inside <;> omega

/-- Locations of free regions are 64-bit numbers. -/
def Keyed (freeList : FreeList) : Prop := ∀ key size, freeList.find key = some size → key < 2 ^ 64

theorem Keyed.insert (keyed : Keyed freeList) (small : key < 2 ^ 64) (size : ℕ) :
    Keyed (freeList.insert key size) := by
  intro other found present
  rw [SortedMap.find_insert] at present
  split at present
  · next same => exact same ▸ small
  · exact keyed other found present

theorem Keyed.erase (keyed : Keyed freeList) (key : ℕ) : Keyed (freeList.erase key) := by
  intro other size present
  rw [SortedMap.find_erase] at present
  split at present
  · cases present
  · exact keyed other size present

theorem find_of_findSpace (found : findSpace freeList size hint = some (location, entrySize)) :
    freeList.find location = some entrySize ∧ size ≤ entrySize := by
  unfold findSpace at found
  rcases Option.or_eq_some_iff.mp found with hinted | ⟨-, lowest⟩
  · obtain ⟨hint, -, fits⟩ := Option.bind_eq_some_iff.mp hinted
    obtain ⟨entry, held, same⟩ := Option.map_eq_some_iff.mp fits
    obtain ⟨present, large⟩ := Option.filter_eq_some_iff.mp held
    cases same
    exact ⟨present, of_decide_eq_true large⟩
  · have large := List.find?_some lowest
    exact ⟨SortedMap.mem_entries_iff.mp (List.mem_of_find?_eq_some lowest), of_decide_eq_true large⟩

theorem Keyed.allocate (keyed : Keyed freeList) (allocated : allocate freeList size hint = .ok (block, after)) :
    block.location < 2 ^ 64 ∧ block.size = size ∧ Keyed after := by
  obtain ⟨entrySize, found, sized, rfl⟩ := allocate_ok allocated
  refine ⟨keyed _ _ (find_of_findSpace found).1, sized, ?_⟩
  split
  · exact (keyed.erase _).insert (u64_lt _) _
  · exact keyed.erase _

theorem find_of_entryBelow (below : entryBelow freeList offset = some (location, size)) :
    freeList.find location = some size ∧ location < offset := by
  have listed := SortedMap.mem_entries_iff.mp (List.mem_of_getLast? below)
  rw [SortedMap.find_filter] at listed
  obtain ⟨present, lower⟩ := Option.filter_eq_some_iff.mp listed
  exact ⟨present, of_decide_eq_true lower⟩

theorem Keyed.deallocate (keyed : Keyed freeList) (small : block.location < 2 ^ 64) :
    Keyed (deallocate freeList block) := by
  have below : Keyed (joinBelow freeList block).1 ∧ (joinBelow freeList block).2.location < 2 ^ 64 := by
    unfold joinBelow
    split
    · next location size found =>
      split
      · exact ⟨keyed.erase _, keyed _ _ (find_of_entryBelow found).1⟩
      · exact ⟨keyed, small⟩
    · exact ⟨keyed, small⟩
  have above {list : FreeList} (keyed : Keyed list) (block : Block) :
      Keyed (joinAbove list block).1 ∧ (joinAbove list block).2.location = block.location := by
    unfold joinAbove
    dsimp only
    split
    · exact ⟨keyed.erase _, rfl⟩
    · exact ⟨keyed, rfl⟩
  obtain ⟨kept, located⟩ := above below.1 (joinBelow freeList block).2
  have start : (joinAbove (joinBelow freeList block).1 (joinBelow freeList block).2).2.location < 2 ^ 64 := by
    rw [located]
    exact below.2
  exact kept.insert start _

theorem Keyed.deallocateAll (keyed : Keyed freeList) (small : ∀ extent ∈ extents, extent.2.location < 2 ^ 64) :
    Keyed (deallocateAll freeList extents) := by
  induction extents generalizing freeList with
  | nil => exact keyed
  | cons extent rest ih =>
    exact ih (keyed.deallocate (small extent List.mem_cons_self))
      fun other listed => small other (List.mem_cons_of_mem _ listed)

theorem length_of_writeAllAt (wrote : writeAllAt file bytes offset = .ok written) :
    file.length ≤ written.length ∧
      (bytes.length = 0 ∨ (offset + bytes.length ≤ written.length ∧ offset + bytes.length ≤ offMax)) := by
  rcases writeAllAt_ok wrote with ⟨rfl, rfl⟩ | ⟨-, small, rfl⟩
  · exact ⟨Nat.le_refl _, Or.inl rfl⟩
  · rw [length_splice]
    omega

theorem length_of_moveFileRange (moved : moveFileRange file source dest size = .ok after)
    (small : dest < 2 ^ 64) :
    file.length ≤ after.length ∧
      (size = 0 ∨ (dest + size ≤ after.length ∧ dest + size ≤ offMax)) := by
  have turns (count : ℕ) (after : ByteFile.File)
      (moved : (List.range count).foldlM (moveChunk source dest size) file = .ok after)
      (within : count * bufSize < size + bufSize) : file.length ≤ after.length ∧
      (count = 0 ∨ (dest + min size (count * bufSize) ≤ after.length ∧
        dest + min size (count * bufSize) ≤ offMax)) := by
    induction count generalizing after with
    | zero => cases moved; exact ⟨Nat.le_refl _, Or.inl rfl⟩
    | succ count ih =>
      rw [List.range_succ, List.foldlM_append] at moved
      obtain ⟨middle, before, moved⟩ := bind_ok.mp moved
      rw [List.foldlM_cons] at moved
      obtain ⟨_, turn, same⟩ := bind_ok.mp moved
      cases same
      obtain ⟨buf, read, wrote⟩ := bind_ok.mp turn
      have filled := ByteFile.length_of_readExactAt read
      have ih := ih middle before (by rw [Nat.succ_mul] at within; omega)
      have grown := length_of_writeAllAt wrote
      have bound : offMax < 2 ^ 64 := by decide
      have positive : 0 < bufSize := by decide
      rw [filled, Nat.succ_mul] at *
      -- the turns before have ended below `offMax`, so the next offset does not wrap
      have exact : u64 (dest + count * bufSize) = dest + count * bufSize := by
        apply u64_of_lt
        rcases ih.2 with first | ended
        · subst first; omega
        · omega
      rw [exact] at grown
      omega
  have positive : 0 < bufSize := by decide
  have last : (size + bufSize - 1) / bufSize * bufSize < size + bufSize := by
    have := Nat.div_mul_le_self (size + bufSize - 1) bufSize
    omega
  have covered : size ≤ (size + bufSize - 1) / bufSize * bufSize := by
    have := Nat.lt_div_mul_add (a := size + bufSize - 1) positive
    omega
  obtain ⟨longer, none | ended⟩ := turns _ after moved last
  · refine ⟨longer, Or.inl ?_⟩
    rw [none] at covered
    omega
  · rw [Nat.min_eq_left covered] at ended
    exact ⟨longer, Or.inr ended⟩

theorem length_of_moveUnlessEmpty (moved : moveUnlessEmpty file source dest size = .ok after)
    (small : dest < 2 ^ 64) :
    file.length ≤ after.length ∧
      (size = 0 ∨ (dest + size ≤ after.length ∧ dest + size ≤ offMax)) := by
  unfold moveUnlessEmpty at moved
  split at moved
  · exact length_of_moveFileRange moved small
  · next empty =>
    cases moved
    exact ⟨Nat.le_refl _, Or.inl (not_not.mp empty)⟩

/-! ### Writes keep the extents backed -/

structure Laid (s : Space) : Prop where
  backed : ∀ offset block, s.data.find offset = some block → Backed s.serialised.length block
  keyed : Keyed s.freeList

/-- The space after a write: still in order, and the file has not shrunk. -/
structure Grown (s s' : Space) : Prop where
  laid : Laid s'
  longer : s.serialised.length ≤ s'.serialised.length

theorem backed_insert {data : DataList} (backed : ∀ offset block, data.find offset = some block → Backed length block)
    (longer : length ≤ length') (new : Backed length' block) (found : (data.insert offset block).find other = some held) :
    Backed length' held := by
  rw [SortedMap.find_insert] at found
  split at found
  · cases found; exact new
  · exact (backed other held found).mono longer

theorem Laid.place {s : Space} (laid : Laid s) (placed : s.place offset buff = .ok s') : Grown s s' := by
  obtain ⟨block, freeList, serialised, allocated, wrote, rfl⟩ := place_ok placed
  obtain ⟨small, sized, keyed⟩ := laid.keyed.allocate allocated
  obtain ⟨longer, inside⟩ := length_of_writeAllAt wrote
  have new : Backed serialised.length block := ⟨small, by rwa [sized]⟩
  exact ⟨⟨fun _ _ => backed_insert laid.backed longer new, keyed⟩, longer⟩

theorem Laid.replace {s : Space} (laid : Laid s) (replaced : s.replace offset buff first = .ok s') :
    Grown s s' := by
  obtain ⟨serialised, wrote, rfl⟩ := replace_ok replaced
  obtain ⟨longer, -⟩ := length_of_writeAllAt wrote
  exact ⟨⟨fun other block found => (laid.backed other block found).mono longer, laid.keyed⟩, longer⟩

theorem find_of_find_eraseAll {data : DataList} {overlaps : List (ℕ × Block)}
    (found : (overlaps.foldl (fun data overlap => data.erase overlap.1) data).find other = some held) :
    data.find other = some held := by
  induction overlaps generalizing data with
  | nil => exact found
  | cons overlap rest ih =>
    have found := ih found
    rw [SortedMap.find_erase] at found
    split at found
    · cases found
    · exact found

/-- The three parts that a merge writes lie one behind the other, and none of
the offsets wraps. -/
theorem span_of_parts (small : location < 2 ^ 64) (copy : moveUnlessEmpty file source location front = .ok copied)
    (write : writeAllAt copied buff (u64 (location + front)) = .ok written)
    (copy' : moveUnlessEmpty written source' (u64 (location + (front + buff.length))) back = .ok after) :
    u64 (location + front) = location + front ∧
      u64 (location + (front + buff.length)) = location + (front + buff.length) ∧
      file.length ≤ after.length ∧ (front + buff.length + back = 0 ∨
        (location + (front + buff.length + back) ≤ after.length ∧
          location + (front + buff.length + back) ≤ offMax)) := by
  obtain ⟨longer, inside⟩ := length_of_moveUnlessEmpty copy small
  obtain ⟨longer', inside'⟩ := length_of_writeAllAt write
  obtain ⟨longer'', inside''⟩ := length_of_moveUnlessEmpty copy' (u64_lt _)
  have bound : offMax < 2 ^ 64 := by decide
  have exact : u64 (location + front) = location + front := by
    apply u64_of_lt
    omega
  rw [exact] at inside'
  have exact' : u64 (location + (front + buff.length)) = location + (front + buff.length) := by
    apply u64_of_lt
    omega
  rw [exact'] at inside''
  exact ⟨exact, exact', by omega, by omega⟩

theorem Laid.defragment {s : Space} (laid : Laid s)
    (held : ∀ extent ∈ first :: rest, s.data.find extent.1 = some extent.2)
    (merged : s.defragment offset buff first rest = .ok s') : Grown s s' := by
  obtain ⟨last, front, back, block, freeList, copied, written, serialised, -, -, -, allocated, copy, write, copy',
    rfl⟩ := defragment_ok merged
  obtain ⟨small, sized, keyed⟩ := laid.keyed.allocate allocated
  obtain ⟨-, -, longer, inside⟩ := span_of_parts small copy write copy'
  have bound : offMax < 2 ^ 64 := by decide
  have new : Backed serialised.length block := by
    refine ⟨small, ?_⟩
    rcases inside with empty | inside
    · left; rw [sized, empty]; rfl
    · right
      have whole : block.size = front + buff.length + back := by
        rw [sized]
        apply u64_of_lt
        omega
      omega
  refine ⟨⟨fun _ _ => backed_insert (fun _ _ found => laid.backed _ _ (find_of_find_eraseAll found)) longer new,
    keyed.deallocateAll fun extent listed => (laid.backed _ _ (held extent listed)).1⟩, longer⟩

theorem mem_of_mem_dropFront (listed : extent ∈ dropFront offset overlaps) : extent ∈ overlaps := by
  unfold dropFront at listed
  split at listed
  · exact listed
  · split at listed
    · exact List.mem_cons_of_mem _ listed
    · exact listed

theorem mem_of_mem_dropBack (listed : extent ∈ dropBack after overlaps) : extent ∈ overlaps := by
  unfold dropBack at listed
  split at listed
  · split at listed
    · exact List.dropLast_subset _ listed
    · exact listed
  · exact listed

theorem Laid.merge {s : Space} (laid : Laid s)
    (held : ∀ extent ∈ overlaps, s.data.find extent.1 = some extent.2)
    (merged : s.merge offset buff overlaps = .ok s') : Grown s s' := by
  unfold Space.merge at merged
  split at merged
  · exact laid.place merged
  · next first rest kept =>
    refine laid.defragment (fun extent listed => held extent ?_) merged
    exact mem_of_mem_dropFront (mem_of_mem_dropBack (kept ▸ listed))

theorem find_of_mem_overlapsOf {data : DataList} (listed : extent ∈ overlapsOf data offset len) :
    data.find extent.1 = some extent.2 ∧ extent.1 ≤ u64 (offset + len) ∧
      offset ≤ u64 (extent.1 + extent.2.size) := by
  unfold overlapsOf at listed
  rw [List.mem_reverse] at listed
  have touching := List.all_eq_true.mp List.all_takeWhile _ listed
  have listed := List.mem_reverse.mp ((List.takeWhile_sublist _).subset listed)
  obtain ⟨entry, low⟩ := List.mem_filter.mp listed
  exact ⟨SortedMap.mem_entries_iff.mp entry, of_decide_eq_true low, of_decide_eq_true touching⟩

theorem Laid.extend {s : Space} (laid : Laid s) (held : s.data.find first.1 = some first.2)
    (before : first.1 < offset) (touching : offset ≤ u64 (first.1 + first.2.size))
    (past : u64 (first.1 + first.2.size) < u64 (offset + buff.length))
    (extended : s.extend offset buff first = .ok s') : Grown s s' := by
  obtain ⟨overlapSize, behind, block, freeList, overlap, follows, allocated, appended | retried⟩ :=
    extend_ok extended
  · obtain ⟨adjacent, serialised, wrote, rfl⟩ := appended
    obtain ⟨-, sized, keyed⟩ := laid.keyed.allocate allocated
    obtain ⟨longer, inside⟩ := length_of_writeAllAt wrote
    have old := laid.backed _ _ held
    have size := old.size_lt
    have bound : offMax < 2 ^ 64 := by decide
    -- neither the end of the overlap nor that of its block has wrapped
    have ends : u64 (first.1 + first.2.size) = first.1 + first.2.size := by
      unfold u64 at touching ⊢
      omega
    have shorter : u64 (offset + buff.length) ≤ offset + buff.length := Nat.mod_le _ _
    have located : behind = first.2.location + first.2.size := by
      rw [follows]
      apply u64_of_lt
      rcases old with ⟨small, empty | ⟨-, low⟩⟩ <;> omega
    have overlap : overlapSize = first.1 + first.2.size - offset := by
      rw [overlap, ends]
      exact usub_of_le (by omega) (by rw [← ends]; exact u64_lt _)
    have start : usub block.location overlapSize = first.2.location + first.2.size - overlapSize := by
      rw [adjacent, located]
      refine usub_of_le (by omega) ?_
      rw [← located, follows]
      exact u64_lt _
    rw [start] at inside
    have rest : usub buff.length overlapSize = buff.length - overlapSize := usub_of_le (by omega) (by omega)
    have new : Backed serialised.length ⟨first.2.location, u64 (first.2.size + block.size)⟩ := by
      have exact : u64 (first.2.size + block.size) = first.2.size + block.size := by
        apply u64_of_lt
        omega
      refine ⟨old.1, Or.inr ?_⟩
      dsimp only
      omega
    exact ⟨⟨fun _ _ => backed_insert laid.backed longer new, keyed⟩, longer⟩
  · obtain ⟨small, -, keyed⟩ := laid.keyed.allocate allocated
    have laid' : Laid { s with freeList := deallocate freeList block } :=
      ⟨laid.backed, keyed.deallocate small⟩
    have grown := laid'.merge (fun extent listed => by rw [List.mem_singleton.mp listed]; exact held) retried.2
    exact ⟨grown.laid, grown.longer⟩

/-- A write keeps every extent of the file backed, on each of its paths. -/
theorem Laid.encode {s : Space} (laid : Laid s) (encoded : s.encode offset buff = .ok s') : Grown s s' := by
  unfold Space.encode at encoded
  have held (extent) (listed : extent ∈ overlapsOf s.data offset buff.length) := find_of_mem_overlapsOf listed
  split at encoded
  · next first single =>
    rw [single] at held
    obtain ⟨found, -, touching⟩ := held first List.mem_cons_self
    split at encoded
    · exact laid.replace encoded
    · next outside =>
      split at encoded
      · next before =>
        refine laid.extend found before touching ?_ encoded
        exact not_le.mp fun inside => outside ⟨before.le, inside⟩
      · exact laid.merge (fun extent listed => (held extent listed).1) encoded
  · exact laid.merge (fun extent listed => (held extent listed).1) encoded

/-! ### The table -/

/-- The fields that the creating call for the file needs are set. -/
def Ready (file : File) : Prop :=
  match file.ty with
  | .invalid => False
  | .opened | .moved _ => True
  | .directory | .new _ | .special _ => file.mode.isSome ∧ file.uid.isSome ∧ file.gid.isSome
  | .symlink _ | .hardlink _ => file.uid.isSome ∧ file.gid.isSome

structure Sound (length : ℕ) (file : File) : Prop where
  backed : ∀ data, file.data = some data → ∀ offset block, data.find offset = some block → Backed length block
  ready : Ready file
  paired : file.uid.isSome = file.gid.isSome
  plain : file.xattrs = none

theorem Sound.mono (sound : Sound length file) (longer : length ≤ length') : Sound length' file :=
  { sound with backed := fun data held offset block found => (sound.backed data held offset block found).mono longer }

theorem Sound.setData (sound : Sound length file)
    (backed : ∀ offset block, data.find offset = some block → Backed length block) :
    Sound length { file with data := some data } :=
  { sound with
    ready := sound.ready
    backed := fun _ held offset block found => by cases held; exact backed offset block found }

structure Intact (s : Snapshot) : Prop where
  sound : ∀ path file, s.files.find path = some file → Sound s.serialised.length file
  keyed : Keyed s.freeList

theorem backed_empty (found : (SortedMap.empty : DataList).find offset = some block) : Backed length block := by
  cases found

theorem Intact.opened {s : Snapshot} (intact : Intact s) (path : Path) :
    Sound s.serialised.length (getOrOpen s.files path) := by
  unfold getOrOpen
  cases held : s.files.find path with
  | some file => exact intact.sound path file held
  | none =>
    exact { backed := fun _ held _ _ found => by cases held; exact backed_empty found,
            ready := trivial, paired := rfl, plain := rfl }

theorem Intact.put {s : Snapshot} (intact : Intact s) (path : Path) (sound : Sound s.serialised.length file) :
    Intact (s.put path file) := by
  refine ⟨fun other held found => ?_, intact.keyed⟩
  rw [Snapshot.put, SortedMap.find_insert] at found
  split at found
  · cases found; exact sound
  · exact intact.sound other held found

/-- The call is neither `setxattr` nor `removexattr`. -/
def noXattr : VFSCall → Bool
  | .setxattr .. | .removexattr .. => false
  | _ => true

theorem Sound.amend (sound : Sound length file) (amends : Amends call path f) (plain : noXattr call = true) :
    Sound length (f file) := by
  have ready := sound.ready
  cases amends with
  | setxattr => cases plain
  | removexattr => cases plain
  | security | chmod | fallocate | utimens =>
    refine { sound with ready := ?_, paired := ?_ }
    all_goals first | exact sound.paired | rfl | skip
    all_goals
      unfold Ready at ready ⊢
      dsimp only
      split at ready <;> simp_all

theorem Sound.make (makes : Makes call path file) : Sound length file := by
  cases makes with
  | mknod | mkdir | symlink =>
    exact { backed := fun _ held _ _ found => by cases held <;> exact backed_empty found,
            ready := by simp [Ready], paired := rfl, plain := rfl }

theorem Keyed.release (keyed : Keyed freeList) (sound : ∀ held, file = some held → Sound length held) :
    Keyed (release freeList file) := by
  unfold SnapshotStore.release
  split
  · next data found =>
    obtain ⟨held, rfl, same⟩ := Option.bind_eq_some_iff.mp found
    refine keyed.deallocateAll fun extent listed => ?_
    exact ((sound held rfl).backed data same _ _ (SortedMap.mem_entries_iff.mp listed)).1
  · exact keyed

theorem Intact.rename {s : Snapshot} (intact : Intact s) (source dest : Path) : Intact (s.rename source dest) := by
  have others (path file) (found : (s.files.erase source).find path = some file) :
      Sound s.serialised.length file := by
    rw [SortedMap.find_erase] at found
    split at found
    · cases found
    · exact intact.sound path file found
  refine ⟨fun path file found => ?_, intact.keyed.release fun held found => others dest held found⟩
  rw [Snapshot.rename, SortedMap.find_insert] at found
  split at found
  · cases found
    cases moved : s.files.find source with
    | some file => exact intact.sound source file moved
    | none =>
      exact { backed := fun _ held _ _ found => by cases held; exact backed_empty found,
              ready := trivial, paired := rfl, plain := rfl }
  · exact others path file found

theorem Intact.remove {s : Snapshot} (intact : Intact s) (path : Path) : Intact (s.remove path) := by
  refine ⟨fun other file found => ?_, intact.keyed.release fun held found => intact.sound path held found⟩
  rw [Snapshot.remove, SortedMap.find_erase] at found
  split at found
  · cases found
  · exact intact.sound other file found

/-- What is cut off a block leaves the front of it. -/
theorem Backed.cut (backed : Backed length block) (smaller : kept ≤ block.size) :
    Backed length ⟨block.location, kept⟩ := by
  refine ⟨backed.1, ?_⟩
  rcases backed.2 with empty | inside
  · left; dsimp only; omega
  · right; dsimp only; omega

theorem truncateData_backed {data : DataList}
    (backed : ∀ offset block, data.find offset = some block → Backed length block) (keyed : Keyed freeList)
    (size : ℕ) :
    (∀ offset block, (truncateData data freeList size).1.find offset = some block → Backed length block) ∧
      Keyed (truncateData data freeList size).2 := by
  unfold truncateData
  have keyed : Keyed (deallocateAll freeList (data.entries.filter fun extent => size ≤ extent.1)) :=
    keyed.deallocateAll fun extent listed =>
      (backed _ _ (SortedMap.mem_entries_iff.mp (List.mem_filter.mp listed).1)).1
  have kept (offset block) (found : (data.filter fun extent => extent.1 < size).find offset = some block) :
      Backed length block ∧ offset < size := by
    rw [SortedMap.find_filter] at found
    obtain ⟨found, low⟩ := Option.filter_eq_some_iff.mp found
    exact ⟨backed offset block found, of_decide_eq_true low⟩
  dsimp only
  generalize deallocateAll freeList (data.entries.filter fun extent => size ≤ extent.1) = freed at keyed ⊢
  generalize data.filter (fun extent => extent.1 < size) = front at kept ⊢
  unfold cutLast
  split
  · next offset block last =>
    obtain ⟨backed, low⟩ := kept offset block (SortedMap.mem_entries_iff.mp (List.mem_of_getLast? last))
    split
    · next past =>
      have shorter : u64 (offset + block.size) ≤ offset + block.size := Nat.mod_le _ _
      have smaller : usub block.size (u64 (offset + block.size) - size) ≤ block.size := by
        rw [usub_of_le (by omega) backed.size_lt]
        omega
      exact ⟨fun _ _ => backed_insert (fun _ _ found => (kept _ _ found).1) (Nat.le_refl _) (backed.cut smaller),
        keyed.deallocate (u64_lt _)⟩
    · exact ⟨fun offset block found => (kept offset block found).1, keyed⟩
  · exact ⟨fun offset block found => (kept offset block found).1, keyed⟩

theorem Intact.truncate {s : Snapshot} (intact : Intact s) (path : Path) (size : Int64) :
    Intact (s.truncate path size) := by
  have sound := intact.opened path
  have resized : Sound s.serialised.length { getOrOpen s.files path with size := .exactly size.toUInt64 } :=
    { sound with ready := sound.ready }
  unfold Snapshot.truncate
  dsimp only
  split
  · next data held =>
    obtain ⟨backed, keyed⟩ := truncateData_backed (sound.backed data held) intact.keyed size.toUInt64.toNat
    have cut := intact.put path (resized.setData backed)
    exact ⟨cut.sound, keyed⟩
  · exact intact.put path resized

theorem Intact.write {s : Snapshot} (intact : Intact s) (wrote : s.encodeWrite path offset buff = .ok s') :
    Intact s' := by
  obtain ⟨data, after, held, encoded, rfl⟩ := encodeWrite_ok wrote
  have sound := intact.opened path
  have laid : Laid { data, freeList := s.freeList, serialised := s.serialised } :=
    ⟨sound.backed data held, intact.keyed⟩
  have grown := laid.encode encoded
  refine ⟨fun other file found => ?_, grown.laid.keyed⟩
  rw [SortedMap.find_insert] at found
  split at found
  · cases found
    exact (sound.mono grown.longer).setData grown.laid.backed
  · exact (intact.sound other file found).mono grown.longer

theorem Intact.merges {s : Snapshot} (intact : Intact s) (merges : Merges s call s')
    (plain : noXattr call = true) : Intact s' := by
  have fresh {data : DataList} (backed : ∀ offset block, data.find offset = some block →
      Backed s.serialised.length block) (held) (same : some data = some held) (offset block)
      (found : held.find offset = some block) : Backed s.serialised.length block := by
    cases same
    exact backed offset block found
  cases merges with
  | make makes _ => exact intact.put _ (.make makes)
  | amend amends => exact intact.put _ ((intact.opened _).amend amends plain)
  | rename => exact intact.rename _ _
  | link shared _ =>
    refine intact.put _ { backed := fresh fun offset block found => ?_, ready := ⟨rfl, rfl⟩, paired := rfl, plain := rfl }
    unfold sharedData at shared
    split at shared
    · cases shared; exact backed_empty found
    · next file linked =>
      split at shared
      · next data held =>
        cases shared
        exact (intact.sound _ file linked).backed _ held offset block found
      · cases shared
  | create =>
    exact intact.put _ { backed := fresh fun _ _ => backed_empty, ready := ⟨rfl, rfl, rfl⟩, paired := rfl, plain := rfl }
  | unlink => exact intact.remove _
  | rmdir => exact intact.remove _
  | truncate => exact intact.truncate _ _
  | write wrote => exact intact.write wrote
  | diffWrite wrote => exact intact.write wrote
  | fsync => exact intact

/-- In every snapshot that calls without attributes lead to, all extents are
backed and all entries can be replayed. -/
theorem intact_of_mergeFrom {calls : List VFSCall} (plain : ∀ call ∈ calls, noXattr call = true)
    (merged : (Snapshot.new toFile now).mergeFrom calls = .ok s) : Intact s := by
  refine mergeFrom_induction Intact
    (fun call listed s s' intact merges => intact.merges merges (plain call listed)) ?_ merged
  refine ⟨fun path file found => (by cases found), fun key size found => ?_⟩
  rw [Snapshot.new, SortedMap.find_insert] at found
  split at found
  · next same => rw [← same]; decide
  · cases found

/-! ### What replay writes -/

def writtenPath : VFSCall → Option Path
  | .write path _ _ => some path
  | .diffWrite path _ _ => some path
  | .truncatingWrite path _ _ _ => some path
  | _ => none

/-- The path that a call brings into being. -/
def createdPath : VFSCall → Option Path
  | .mknod path _ _ _ => some path
  | .mkdir path _ _ => some path
  | .symlink _ dest _ => some dest
  | .rename _ dest _ => some dest
  | .link _ dest _ => some dest
  | .create path _ _ _ => some path
  | _ => none

def isWrite (call : VFSCall) : Bool := (writtenPath call).isSome

/-- The write of one extent. -/
def extentWrite (serialised : ByteFile.File) (path : Path) (extent : ℕ × Block) : VFSCall :=
  .write path (Int64.ofNat extent.1) ((serialised.drop extent.2.location).take extent.2.size)

/-- The writes of the extents of one file. -/
def fileWrites (serialised : ByteFile.File) (entry : Path × File) : List VFSCall :=
  ((entry.2.data.map SortedMap.entries).getD []).map (extentWrite serialised entry.1)

/-- The writes of all extents of all files, one for each. -/
def extentWrites (s : Snapshot) : List VFSCall := s.files.entries.flatMap (fileWrites s.serialised)

/-- No write to a path comes before the call that creates it. -/
def CreatesFirst (calls : List VFSCall) : Prop :=
  calls.Pairwise fun earlier later => ∀ path, writtenPath earlier = some path → createdPath later ≠ some path

/-- Replay ends without a panic, and writes every extent once, to a file that
is there. -/
def Enumerates (order : HashOrder) (s : Snapshot) : Prop :=
  ∃ calls, Produces order (apply s) calls ∧ (calls.filter isWrite).Perm (extentWrites s) ∧ CreatesFirst calls

/-- The file was there before the first call, and no call has changed anything
but its bytes. -/
def OnlyWritten (file : File) : Prop :=
  file.ty = .opened ∧ file.uid = none ∧ file.mode = none ∧ file.size = .unknown ∧ file.time = none ∧
    (file.data.map SortedMap.entries).getD [] ≠ []

theorem extentCall_of_backed (backed : Backed serialised.length block) :
    extentCall serialised path (offset, block) = .ok (extentWrite serialised path (offset, block)) := by
  have inside : block.size = 0 ∨ block.location + block.size ≤ serialised.length := backed.2.imp id And.left
  rw [extentCall, readExactAt, if_pos inside]
  rfl

theorem extentCalls_of_backed {extents : List (ℕ × Block)}
    (backed : ∀ extent ∈ extents, Backed serialised.length extent.2) :
    extents.mapM (extentCall serialised path) = .ok (extents.map (extentWrite serialised path)) := by
  induction extents with
  | nil => rfl
  | cons extent rest ih =>
    rw [mapM_cons_ok]
    exact ⟨_, _, extentCall_of_backed (backed extent List.mem_cons_self),
      ih fun other listed => backed other (List.mem_cons_of_mem _ listed), rfl⟩

/-- A call that neither writes nor creates. -/
def Neutral (call : VFSCall) : Prop := writtenPath call = none ∧ createdPath call = none

theorem neutral_of_mem_metaCalls (listed : call ∈ metaCalls path file) : Neutral call := by
  simp only [metaCalls, ownerCalls, sizeCalls, List.mem_append, List.mem_map] at listed
  rcases listed with ((owner | ⟨mode, -, rfl⟩) | size) | ⟨time, -, rfl⟩
  · split at owner
    · rw [List.mem_singleton.mp owner]; exact ⟨rfl, rfl⟩
    · cases owner
  · exact ⟨rfl, rfl⟩
  · split at size
    · rw [List.mem_singleton.mp size]; exact ⟨rfl, rfl⟩
    · rw [List.mem_singleton.mp size]; exact ⟨rfl, rfl⟩
    · cases size
  · exact ⟨rfl, rfl⟩

/-- A ready file is created by a call for its own path, unless it was there
before. -/
theorem creation_of_ready (ready : Ready file) (path : Path) :
    (file.ty = .opened ∧ creation path file = .ok none) ∨
      (file.ty ≠ .opened ∧ ∃ call rest, creation path file = .ok (some (call, rest)) ∧
        writtenPath call = none ∧ createdPath call = some path) := by
  obtain ⟨uid, gid, mode, size, xattrs, time, ty, data⟩ := file
  have unset : ¬ (none : Option UInt32).isSome := by simp
  cases ty with
  | invalid => exact ready.elim
  | opened => exact Or.inl ⟨rfl, rfl⟩
  | moved source => exact Or.inr ⟨by simp, _, _, rfl, rfl, rfl⟩
  | directory | new _ | special _ =>
    obtain ⟨told, owned, grouped⟩ := ready
    rcases mode with _ | mode
    · exact absurd told unset
    rcases uid with _ | uid
    · exact absurd owned unset
    rcases gid with _ | gid
    · exact absurd grouped unset
    exact Or.inr ⟨by simp, _, _, rfl, rfl, rfl⟩
  | symlink _ | hardlink _ =>
    obtain ⟨owned, grouped⟩ := ready
    rcases uid with _ | uid
    · exact absurd owned unset
    rcases gid with _ | gid
    · exact absurd grouped unset
    exact Or.inr ⟨by simp, _, _, rfl, rfl, rfl⟩

theorem metaCalls_eq_nil_iff (paired : file.uid.isSome = file.gid.isSome) :
    metaCalls path file = [] ↔
      file.uid = none ∧ file.mode = none ∧ file.size = .unknown ∧ file.time = none := by
  obtain ⟨uid, gid, mode, size, xattrs, time, ty, data⟩ := file
  cases uid <;> cases gid <;> cases mode <;> cases size <;> cases time <;>
    simp_all [metaCalls, ownerCalls, sizeCalls]

/-- The calls for one file: at most the first creates it, and the writes are its
extents. -/
structure Replayed (serialised : ByteFile.File) (entry : Path × File) (calls : List VFSCall) : Prop where
  writes : calls.filter isWrite = fileWrites serialised entry
  creates : ∀ call ∈ calls.tail, createdPath call = none
  named : ∀ call ∈ calls, ∀ path, writtenPath call = some path ∨ createdPath call = some path → path = entry.1

theorem replayed_cons (head : writtenPath call = none) (created : ∀ path, createdPath call = some path → path = entry.1)
    (neutral : ∀ call ∈ rest, Neutral call) :
    Replayed serialised entry (call :: (fileWrites serialised entry ++ rest)) := by
  have written (call) (listed : call ∈ fileWrites serialised entry) :
      writtenPath call = some entry.1 ∧ createdPath call = none := by
    obtain ⟨extent, -, rfl⟩ := List.mem_map.mp listed
    exact ⟨rfl, rfl⟩
  refine ⟨?_, fun other listed => ?_, fun other listed path names => ?_⟩
  · have kept : (fileWrites serialised entry).filter isWrite = fileWrites serialised entry :=
      List.filter_eq_self.mpr fun call listed => by rw [isWrite, (written call listed).1]; rfl
    have dropped : rest.filter isWrite = [] :=
      List.filter_eq_nil_iff.mpr fun call listed => by rw [isWrite, (neutral call listed).1]; simp
    rw [List.filter_cons_of_neg (by rw [isWrite, head]; simp), List.filter_append, kept, dropped, List.append_nil]
  · rcases List.mem_append.mp listed with listed | listed
    · exact (written other listed).2
    · exact (neutral other listed).2
  · rcases List.mem_cons.mp listed with rfl | listed
    · rcases names with wrote | made
      · rw [head] at wrote; cases wrote
      · exact created path made
    · rcases List.mem_append.mp listed with listed | listed
      · rw [(written other listed).1, (written other listed).2] at names
        rcases names with same | same <;> cases same
        rfl
      · rw [(neutral other listed).1, (neutral other listed).2] at names
        rcases names with same | same <;> cases same

section File
variable {serialised : ByteFile.File} {file : File}

theorem extentCalls_of_sound (sound : Sound serialised.length file) (path : Path) :
    extentCalls serialised path (file.data.map SortedMap.entries) = .ok (fileWrites serialised (path, file)) := by
  refine extentCalls_of_backed fun extent listed => ?_
  cases held : file.data with
  | none => rw [held] at listed; cases listed
  | some data =>
    rw [held] at listed
    exact sound.backed data held _ _ (SortedMap.mem_entries_iff.mp listed)

theorem xattrCalls_of_sound (sound : Sound serialised.length file) (order : HashOrder) (path : Path) :
    xattrCalls path (file.xattrs.map fun xattrs => order.arrange xattrs.entries) = .ok [] := by
  rw [sound.plain]
  rfl

/-- A file is replayed as it should be, unless it has only been written. -/
theorem replayFile_of_sound (sound : Sound serialised.length file) (more : ¬ OnlyWritten file)
    (order : HashOrder) (path : Path) :
    ∃ calls, replayFile order serialised (path, file) = .ok calls ∧ Replayed serialised (path, file) calls := by
  have fetched := extentCalls_of_sound sound path
  have changes := xattrCalls_of_sound sound order path
  have ready : Ready { file with data := none, xattrs := none } := sound.ready
  rcases creation_of_ready ready path with ⟨opened, made⟩ | ⟨-, call, rest, made, head, created⟩
  · cases asked : metaCalls path file with
    | nil =>
      have unset := (metaCalls_eq_nil_iff sound.paired).mp asked
      have empty : (file.data.map SortedMap.entries).getD [] = [] := by
        by_contra some
        exact more ⟨opened, unset.1, unset.2.1, unset.2.2.1, unset.2.2.2, some⟩
      have none : fileWrites serialised (path, file) = [] := by rw [fileWrites, empty]; rfl
      refine ⟨[], replayParts_ok.mpr ⟨_, _, fetched, changes, Or.inr ⟨made, ?_⟩⟩, by rw [none]; rfl, ?_, ?_⟩
      · rw [none, List.append_nil]
        show afterFirst (metaCalls path file) [] = _
        rw [asked]
        rfl
      · intro call listed; cases listed
      · intro call listed; cases listed
    | cons call rest =>
      have neutral (other) (listed : other ∈ call :: rest) : Neutral other :=
        neutral_of_mem_metaCalls (asked ▸ listed)
      refine ⟨call :: (fileWrites serialised (path, file) ++ rest),
        replayParts_ok.mpr ⟨_, _, fetched, changes, Or.inr ⟨made, ?_⟩⟩, replayed_cons ?_ ?_ ?_⟩
      · rw [List.append_nil]
        show afterFirst (metaCalls path file) _ = _
        rw [asked]
        rfl
      · exact (neutral call List.mem_cons_self).1
      · intro path created
        rw [(neutral call List.mem_cons_self).2] at created
        cases created
      · exact fun other listed => neutral other (List.mem_cons_of_mem _ listed)
  · refine ⟨_, replayParts_ok.mpr ⟨_, _, fetched, changes, Or.inl ⟨call, rest, made, rfl⟩⟩,
      replayed_cons head ?_ ?_⟩
    · intro other same
      rw [created] at same
      exact (Option.some.inj same).symm
    · intro other listed
      rw [List.append_nil] at listed
      exact neutral_of_mem_metaCalls listed

theorem not_replayFile_of_onlyWritten (sound : Sound serialised.length file) (only : OnlyWritten file) :
    replayFile order serialised (path, file) ≠ .ok calls := by
  obtain ⟨opened, owner, mode, size, time, extents⟩ := only
  have asked : metaCalls path file = [] := (metaCalls_eq_nil_iff sound.paired).mpr ⟨owner, mode, size, time⟩
  have made : creation path { file with data := none, xattrs := none } = .ok none := by
    rw [creation]
    simp only [opened]
  intro replayed
  obtain ⟨writes, changes, fetched, named, ⟨_, _, impossible, _⟩ | ⟨-, same⟩⟩ := replayParts_ok.mp replayed
  · rw [made] at impossible
    cases impossible
  · rw [xattrCalls_of_sound sound] at named
    cases named
    have same : afterFirst (metaCalls path file ++ []) writes = .ok calls := same
    rw [asked] at same
    cases writes with
    | nil => exact extents (extentCalls_eq_nil.mp fetched)
    | cons write rest => cases same

end File

/-- All files, in the order of their paths. -/
theorem replayFiles_of_sound {entries : List (Path × File)} (sorted : SortedMap.Increasing entries)
    (sound : ∀ entry ∈ entries, Sound serialised.length entry.2) (more : ∀ entry ∈ entries, ¬ OnlyWritten entry.2)
    (order : HashOrder) : ∃ parts, entries.mapM (replayFile order serialised) = .ok parts ∧
      parts.flatten.filter isWrite = entries.flatMap (fileWrites serialised) ∧ CreatesFirst parts.flatten ∧
      ∀ call ∈ parts.flatten, ∀ path, writtenPath call = some path ∨ createdPath call = some path →
        path ∈ entries.map Prod.fst := by
  induction entries with
  | nil => exact ⟨[], rfl, rfl, List.Pairwise.nil, fun call listed => by cases listed⟩
  | cons entry rest ih =>
    obtain ⟨below, sorted⟩ := List.pairwise_cons.mp sorted
    obtain ⟨parts, others, writes, first, named⟩ := ih sorted
      (fun entry listed => sound entry (List.mem_cons_of_mem _ listed))
      (fun entry listed => more entry (List.mem_cons_of_mem _ listed))
    obtain ⟨calls, here, replayed⟩ := replayFile_of_sound (sound entry List.mem_cons_self)
      (more entry List.mem_cons_self) order entry.1
    refine ⟨calls :: parts, mapM_cons_ok.mpr ⟨calls, parts, here, others, rfl⟩, ?_, ?_, ?_⟩
    · rw [List.flatten_cons, List.filter_append, replayed.writes, writes, List.flatMap_cons]
    · refine List.pairwise_append.mpr ⟨?_, first, fun earlier inFile later inRest path wrote made => ?_⟩
      · -- only the first call for a file creates anything, and nothing comes before it
        have creates := replayed.creates
        cases calls with
        | nil => exact List.Pairwise.nil
        | cons call tail =>
          refine List.pairwise_cons.mpr ⟨fun later listed path _ made => ?_, ?_⟩
          · rw [creates later listed] at made; cases made
          · exact List.pairwise_of_forall_mem_list fun earlier _ later listed path _ made => by
              rw [creates later listed] at made; cases made
      · have same := replayed.named earlier inFile path (Or.inl wrote)
        obtain ⟨other, listed, rfl⟩ := List.mem_map.mp (named later inRest path (Or.inr made))
        exact absurd same.symm (below other listed).ne
    · intro call listed path names
      rcases List.mem_append.mp listed with listed | listed
      · exact replayed.named call listed path names ▸ List.mem_cons_self
      · exact List.mem_cons_of_mem _ (named call listed path names)

/-- Replay of a snapshot that was merged from calls without attributes writes
every extent of every file once, exactly if the table has no file that was
there before and has only been written. -/
theorem replay_enumerates_iff (toFile : ByteFile.File) (now : JournalStore.SystemTime) (calls : List VFSCall)
    (s : Snapshot) (order : HashOrder) (plain : ∀ call ∈ calls, noXattr call = true)
    (merged : (Snapshot.new toFile now).mergeFrom calls = .ok s) :
    Enumerates order s ↔ ∀ path file, s.files.find path = some file → ¬ OnlyWritten file := by
  have intact := intact_of_mergeFrom plain merged
  have sound (entry) (listed : entry ∈ s.files.entries) : Sound s.serialised.length entry.2 :=
    intact.sound entry.1 entry.2 (SortedMap.mem_entries_iff.mp listed)
  constructor
  · rintro ⟨emitted, produced, -, -⟩ path file found only
    obtain ⟨parts, replayed, -⟩ := produces_apply.mp produced
    obtain ⟨part, here⟩ := mapM_ok_of_mem replayed (SortedMap.mem_entries_iff.mpr found)
    exact not_replayFile_of_onlyWritten (intact.sound path file found) only here
  · intro more
    obtain ⟨parts, replayed, writes, first, -⟩ := replayFiles_of_sound s.files.sorted sound
      (fun entry listed => more entry.1 entry.2 (SortedMap.mem_entries_iff.mp listed)) order
    exact ⟨parts.flatten, produces_apply.mpr ⟨parts, replayed, rfl⟩, .of_eq writes, first⟩

def epoch : JournalStore.SystemTime := ⟨0, 0, JournalStore.SystemTime.secs_zero, JournalStore.SystemTime.nanos_zero⟩

/-- Attributes in the order of their names. -/
def byName : HashOrder := ⟨id, List.Perm.refl⟩

/-- One byte is written to the file `a`, which the snapshot knows nothing about. -/
theorem only_written_file_not_replayed :
    ∃ s, (Snapshot.new [] epoch).mergeFrom [.write [[97]] 0 [1]] = .ok s ∧ ∀ order, ¬ Enumerates order s := by
  refine ⟨_, rfl, fun order enumerates => ?_⟩
  obtain ⟨calls, produced, -, -⟩ := enumerates
  obtain ⟨parts, replayed, -⟩ := produces_apply.mp produced
  cases replayed

/-- The same write after the file was created. -/
def createdAndWritten : List VFSCall := [.create [[97]] 0o101 (.unix 0 0) 0o644, .write [[97]] 0 [1]]

theorem created_file_replayed :
    ∃ s, (Snapshot.new [] epoch).mergeFrom createdAndWritten = .ok s ∧ Enumerates byName s := by
  refine ⟨_, rfl, (replay_enumerates_iff [] epoch createdAndWritten _ byName (by decide) rfl).mpr
    fun path file found only => ?_⟩
  have listed := SortedMap.mem_entries_iff.mpr found
  cases List.mem_singleton.mp listed
  cases only.1

end Fsyncer.SnapshotExtents
