import Fsyncer.Base.Interleaving
import Fsyncer.SnapshotContents

/-! Hard links in a snapshot. A link copies the extents of its source, so two
names then own the same blocks; unlinking, cutting or writing under one of them
gives blocks back that the other still needs.

As long as calls that may give blocks back are made only under names that share
none, each block has one owner up to links: `owners` is the table in which each
of these is entered under a single name, and the calls act on it as they do on a
table without links. -/
namespace Fsyncer.SnapshotLinks
open Fsyncer.FileTree (Name Path)
open Fsyncer.Interleaving (Reaches)
open Fsyncer.Machine Fsyncer.Vfs Fsyncer.SnapshotStore Fsyncer.SnapshotBlocks Fsyncer.SnapshotPartition
open Fsyncer.SnapshotContents Fsyncer.SnapshotSpace
open Fsyncer.SnapshotExtents (epoch)

/-- The extents entered under a name, if it is entered. -/
def dataOf (files : Files) (path : Path) : Option (Option DataList) := (files.find path).map File.data

section DataOf
variable {s : Snapshot} {files files' : Files}

theorem dataOf_insert (files : Files) (path : Path) (file : File) (other : Path) :
    dataOf (files.insert path file) other = if path = other then some file.data else dataOf files other := by
  unfold dataOf
  rw [SortedMap.find_insert]
  split <;> rfl

theorem dataOf_erase (files : Files) (path other : Path) :
    dataOf (files.erase path) other = if path = other then none else dataOf files other := by
  unfold dataOf
  rw [SortedMap.find_erase]
  split <;> rfl

theorem getOrOpen_data (files : Files) (path : Path) :
    (getOrOpen files path).data = (dataOf files path).getD (some .empty) := by
  unfold getOrOpen dataOf
  cases files.find path <;> rfl

theorem release_congr (freeList : FreeList) {file file' : Option File}
    (same : file.map File.data = file'.map File.data) : release freeList file = release freeList file' := by
  unfold release
  cases file <;> cases file' <;> simp_all

theorem extent_iff : Extent s path offset block ↔
    ∃ data, dataOf s.files path = some (some data) ∧ data.find offset = some block := by
  unfold Extent dataOf
  constructor
  · rintro ⟨file, data, found, held, there⟩
    exact ⟨data, by rw [found, Option.map_some, held], there⟩
  · rintro ⟨data, entered, there⟩
    obtain ⟨file, found, held⟩ := Option.map_eq_some_iff.mp entered
    exact ⟨file, data, found, held, there⟩

theorem pathReads_iff : PathReads s path position byte ↔
    ∃ data, dataOf s.files path = some (some data) ∧ Reads data s.serialised position byte := by
  unfold PathReads dataOf
  constructor
  · rintro ⟨file, data, found, held, reads⟩
    exact ⟨data, by rw [found, Option.map_some, held], reads⟩
  · rintro ⟨data, entered, reads⟩
    obtain ⟨file, found, held⟩ := Option.map_eq_some_iff.mp entered
    exact ⟨file, data, found, held, reads⟩

theorem exists_extent {data : DataList} (filled : data ≠ .empty) : ∃ offset block, data.find offset = some block := by
  by_contra none
  refine filled (SortedMap.ext fun offset => ?_)
  cases found : data.find offset with
  | none => rfl
  | some block => exact absurd ⟨offset, block, found⟩ none

end DataOf

/-- The snapshot with another table. -/
def withFiles (s : Snapshot) (files : Files) : Snapshot := { s with files }

/-- Every name is entered in `owners`, or shares what its owner has there. -/
structure Backed (s : Snapshot) (owners : Files) (owner : Path → Path) : Prop where
  own : ∀ path, owner path = path → dataOf owners path = dataOf s.files path
  linked : ∀ path, owner path ≠ path → dataOf owners path = none ∧ ∃ data, data ≠ .empty ∧
    dataOf s.files path = some (some data) ∧ dataOf owners (owner path) = some (some data)

/-- The extents under a name have no byte in common with those under another. -/
def Alone (s : Snapshot) (path : Path) : Prop :=
  ∀ other, other ≠ path → ∀ offset block offset' block', Extent s path offset block →
    Extent s other offset' block' → Apart block block'

section Backed
variable {s : Snapshot} {owners : Files} {owner : Path → Path}

/-- What is under a name is what its owner has. -/
theorem Backed.data (backed : Backed s owners owner) (path : Path) :
    dataOf s.files path = dataOf owners (owner path) := by
  by_cases own : owner path = path
  · rw [own, backed.own path own]
  · obtain ⟨-, data, -, here, there⟩ := backed.linked path own
    rw [here, there]

theorem Backed.owner_owner (backed : Backed s owners owner) (path : Path) : owner (owner path) = owner path := by
  by_contra differ
  have absent := (backed.linked _ differ).1
  by_cases own : owner path = path
  · rw [own, own] at differ
    exact differ rfl
  · obtain ⟨-, data, -, -, there⟩ := backed.linked path own
    cases absent.symm.trans there

theorem Backed.extent (backed : Backed s owners owner) :
    Extent s path offset block ↔ Extent (withFiles s owners) (owner path) offset block := by
  rw [extent_iff, extent_iff, backed.data]
  rfl

theorem Backed.reads (backed : Backed s owners owner) :
    PathReads s path position byte ↔ PathReads (withFiles s owners) (owner path) position byte := by
  rw [pathReads_iff, pathReads_iff, backed.data]
  rfl

/-- A name that shares nothing owns what it has, and nobody links to it. -/
theorem Backed.alone (backed : Backed s owners owner) (settled : Settled top reserved (withFiles s owners))
    (alone : Alone s path) : owner path = path ∧ ∀ other, other ≠ path → owner other ≠ path := by
  -- two names with the same extents, of which there are some
  have apart {other : Path} {data : DataList} (differ : other ≠ path) (filled : data ≠ .empty)
      (here : dataOf s.files path = some (some data)) (there : dataOf s.files other = some (some data)) : False := by
    obtain ⟨offset, block, found⟩ := exists_extent filled
    have extent : Extent s path offset block := extent_iff.mpr ⟨data, here, found⟩
    have solid := settled.solid_extent (backed.extent.mp extent)
    have separate := alone other differ offset block offset block extent (extent_iff.mpr ⟨data, there, found⟩)
    unfold Apart at separate
    unfold Solid at solid
    omega
  have own : owner path = path := by
    by_contra differ
    obtain ⟨-, data, filled, here, there⟩ := backed.linked path differ
    exact apart differ filled here ((backed.own _ (backed.owner_owner path)).symm.trans there)
  refine ⟨own, fun other differ same => ?_⟩
  obtain ⟨-, data, filled, here, there⟩ := backed.linked other (by rw [same]; exact Ne.symm differ)
  rw [same, backed.own path own] at there
  exact apart differ filled there here

/-- A name that is not entered links to nothing, and nothing to it. -/
theorem Backed.absent (backed : Backed s owners owner) (absent : dataOf s.files path = none) :
    owner path = path ∧ dataOf owners path = none ∧ ∀ other, owner other = path → other = path := by
  have own : owner path = path := by
    by_contra differ
    obtain ⟨-, data, -, here, -⟩ := backed.linked path differ
    cases absent.symm.trans here
  have empty : dataOf owners path = none := (backed.own path own).trans absent
  refine ⟨own, empty, fun other same => ?_⟩
  by_contra differ
  obtain ⟨-, data, -, -, there⟩ := backed.linked other (by rw [same]; exact Ne.symm differ)
  rw [same, empty] at there
  cases there

/-- Only one name is changed, and it owns what it has. -/
theorem Backed.change (backed : Backed s owners owner) (own : owner path = path)
    (unlinked : ∀ other, other ≠ path → owner other ≠ path) {s' : Snapshot} {owners' : Files}
    (here : dataOf owners' path = dataOf s'.files path)
    (files : ∀ other, other ≠ path → dataOf s'.files other = dataOf s.files other)
    (kept : ∀ other, other ≠ path → dataOf owners' other = dataOf owners other) : Backed s' owners' owner := by
  constructor
  · intro other same
    by_cases changed : other = path
    · rw [changed, here]
    · rw [kept other changed, files other changed, backed.own other same]
  · intro other differ
    have besides : other ≠ path := fun same => differ (same ▸ own)
    rw [kept other besides, files other besides, kept _ (unlinked other besides)]
    exact backed.linked other differ

end Backed

/-! ### Which names are links of each other -/

/-- The numbers of the files behind the names, and the next one to be given. -/
structure Inodes where
  number : Path → Option ℕ
  next : ℕ

/-- A name that is used for the first time gets a number of its own. -/
def Inodes.touch (inodes : Inodes) (path : Path) : Inodes where
  number := Function.update inodes.number path (some ((inodes.number path).getD inodes.next))
  next := inodes.next + 1

def Inodes.apply (inodes : Inodes) : VFSCall → Inodes
  | .link source dest _ =>
    let touched := inodes.touch source
    { touched with number := Function.update touched.number dest (touched.number source) }
  | .rename source dest _ =>
    let touched := inodes.touch source
    { touched with
      number := Function.update (Function.update touched.number source none) dest (touched.number source) }
  | .unlink path => { inodes with number := Function.update inodes.number path none }
  | .create path .. | .truncate path .. | .fallocate path .. | .write path .. => inodes.touch path
  | _ => inodes

theorem number_touch (inodes : Inodes) (path : Path) : (inodes.touch path).number path ≠ none := by
  unfold Inodes.touch
  dsimp only
  rw [Function.update_self]
  exact Option.some_ne_none _

theorem number_touch_of_ne (inodes : Inodes) (differ : other ≠ path) :
    (inodes.touch path).number other = inodes.number other := Function.update_of_ne differ _ _

theorem number_touch_of_some (inodes : Inodes) (known : inodes.number path ≠ none) :
    (inodes.touch path).number = inodes.number := by
  obtain ⟨number, found⟩ := Option.ne_none_iff_exists'.mp known
  unfold Inodes.touch
  dsimp only
  rw [found, Option.getD_some, ← found, Function.update_eq_self]

/-- Names that share blocks are links of each other, and each block has one
owner in a table that reads as `contents`. -/
structure Owned (s : Snapshot) (inodes : Inodes) (owners : Files) (owner : Path → Path) (contents : Contents) :
    Prop where
  backed : Backed s owners owner
  faithful : Faithful (withFiles s owners) contents
  numbered : ∀ path, inodes.number (owner path) = inodes.number path
  entered : ∀ path, dataOf s.files path ≠ none → inodes.number path ≠ none

section Steps
variable {s s' : Snapshot} {inodes : Inodes} {owners : Files} {owner : Path → Path} {contents : Contents}

theorem Owned.touched (owned : Owned s inodes owners owner contents) (path other : Path) :
    (inodes.touch path).number (owner other) = (inodes.touch path).number other := by
  by_cases known : inodes.number path = none
  · have absent : dataOf s.files path = none := by
      by_contra present
      exact owned.entered path present known
    obtain ⟨own, -, only⟩ := owned.backed.absent absent
    by_cases same : other = path
    · rw [same, own]
    · rw [number_touch_of_ne _ same, number_touch_of_ne _ fun links => same (only other links), owned.numbered]
  · rw [number_touch_of_some _ known, owned.numbered]

theorem Owned.known (owned : Owned s inodes owners owner contents) (path other : Path)
    (present : other = path ∨ dataOf s.files other ≠ none) : (inodes.touch path).number other ≠ none := by
  by_cases same : other = path
  · rw [same]
    exact number_touch inodes path
  · rw [number_touch_of_ne _ same]
    exact owned.entered other (present.resolve_left same)

/-- A call that changes one name, which shares nothing. -/
theorem Owned.change (owned : Owned s inodes owners owner contents) (alone : Alone s path)
    (merges : Merges (withFiles s owners) call (withFiles s' owners')) (fine : plain call = true) (small : unwrapped call = true)
    (here : dataOf owners' path = dataOf s'.files path)
    (files : ∀ other, other ≠ path → dataOf s'.files other = dataOf s.files other)
    (kept : ∀ other, other ≠ path → dataOf owners' other = dataOf owners other) {inodes' : Inodes}
    (numbered : ∀ other, inodes'.number (owner other) = inodes'.number other)
    (entered : ∀ other, dataOf s'.files other ≠ none → inodes'.number other ≠ none) :
    Owned s' inodes' owners' owner (contents.apply call) := by
  obtain ⟨own, unlinked⟩ := owned.backed.alone owned.faithful.arranged.settled alone
  exact ⟨owned.backed.change own unlinked here files kept, owned.faithful.merges merges fine small, numbered, entered⟩

/-- The file under such a name is replaced, in both tables by one with the same
extents. -/
theorem Owned.insert (owned : Owned s inodes owners owner contents) (alone : Alone s path) {file held : File}
    {freeList : FreeList} {serialised : ByteFile.File}
    (merges : Merges (withFiles s owners) call
      { s with files := owners.insert path held, freeList := freeList, serialised := serialised })
    (fine : plain call = true) (small : unwrapped call = true) (same : held.data = file.data) {inodes' : Inodes}
    (numbered : ∀ other, inodes'.number (owner other) = inodes'.number other)
    (entered : ∀ other, other = path ∨ dataOf s.files other ≠ none → inodes'.number other ≠ none) :
    Owned { s with files := s.files.insert path file, freeList := freeList, serialised := serialised }
      inodes' (owners.insert path held) owner (contents.apply call) := by
  have files (other : Path) (differ : other ≠ path) :
      dataOf (s.files.insert path file) other = dataOf s.files other := by
    rw [dataOf_insert, if_neg (Ne.symm differ)]
  refine owned.change alone merges fine small ?_ files (fun other differ => ?_) numbered fun other present => ?_
  · dsimp only
    rw [dataOf_insert, dataOf_insert, if_pos rfl, if_pos rfl, same]
  · rw [dataOf_insert, if_neg (Ne.symm differ)]
  · refine entered other (or_iff_not_imp_left.mpr fun differ => ?_)
    rwa [← files other differ]

theorem Backed.opened (backed : Backed s owners owner) (own : owner path = path) :
    (getOrOpen owners path).data = (getOrOpen s.files path).data := by
  rw [getOrOpen_data, getOrOpen_data, backed.own path own]

theorem Owned.create (owned : Owned s inodes owners owner contents) (alone : Alone s path) :
    Owned (s.put path (newFile uid gid mode flags)) (inodes.touch path)
      (owners.insert path (newFile uid gid mode flags)) owner
      (contents.apply (.create path flags (.unix uid gid) mode)) :=
  owned.insert alone (Merges.create : Merges (withFiles s owners) _ _) rfl rfl rfl (owned.touched path) (owned.known path)

theorem Owned.truncate (owned : Owned s inodes owners owner contents) (alone : Alone s path) (size : Int64) :
    ∃ owners', Owned (s.truncate path size) (inodes.touch path) owners' owner
      (contents.apply (.truncate path size)) := by
  obtain ⟨own, -⟩ := owned.backed.alone owned.faithful.arranged.settled alone
  have same := owned.backed.opened own
  have merges : Merges (withFiles s owners) (.truncate path size) ((withFiles s owners).truncate path size) := .truncate
  cases held : (getOrOpen s.files path).data with
  | some data =>
    rw [truncate_some (s := withFiles s owners) (same.trans held)] at merges
    rw [truncate_some held]
    refine ⟨_, owned.insert alone merges rfl rfl ?_ (owned.touched path) (owned.known path)⟩
    rfl
  | none =>
    rw [truncate_none (s := withFiles s owners) (same.trans held)] at merges
    rw [truncate_none held]
    refine ⟨_, owned.insert alone merges rfl rfl ?_ (owned.touched path) (owned.known path)⟩
    exact same

theorem Owned.write (owned : Owned s inodes owners owner contents) (alone : Alone s path)
    (filled : buf ≠ []) (small : unwrapped (.write path offset buf) = true)
    (wrote : s.encodeWrite path offset.toUInt64.toNat buf = .ok s') :
    ∃ owners', Owned s' (inodes.touch path) owners' owner (contents.apply (.write path offset buf)) := by
  obtain ⟨own, -⟩ := owned.backed.alone owned.faithful.arranged.settled alone
  have same := owned.backed.opened own
  obtain ⟨data, after, held, encoded, rfl⟩ := encodeWrite_ok wrote
  have wrote' : (withFiles s owners).encodeWrite path offset.toUInt64.toNat buf = .ok { s with
      files := owners.insert path { getOrOpen owners path with data := some after.data }
      freeList := after.freeList, serialised := after.serialised } := by
    unfold Snapshot.encodeWrite
    dsimp only [withFiles]
    rw [same, held]
    exact bind_ok.mpr ⟨after, encoded, rfl⟩
  refine ⟨_, owned.insert alone (.write wrote') ?_ small ?_ (owned.touched path) (owned.known path)⟩
  · simpa [plain] using filled
  · rfl

theorem Owned.unlink (owned : Owned s inodes owners owner contents) (alone : Alone s path) :
    Owned (s.remove path) (inodes.apply (.unlink path)) (owners.erase path) owner
      (contents.apply (.unlink path)) := by
  obtain ⟨own, unlinked⟩ := owned.backed.alone owned.faithful.arranged.settled alone
  have freed : release s.freeList (owners.find path) = release s.freeList (s.files.find path) :=
    release_congr _ (owned.backed.own path own)
  have merges : Merges (withFiles s owners) (.unlink path) (withFiles (s.remove path) (owners.erase path)) := by
    have removed : withFiles (s.remove path) (owners.erase path) = (withFiles s owners).remove path := by
      unfold withFiles Snapshot.remove
      dsimp only
      rw [freed]
    rw [removed]
    exact .unlink
  have files (other : Path) (differ : other ≠ path) : dataOf (s.files.erase path) other = dataOf s.files other := by
    rw [dataOf_erase, if_neg (Ne.symm differ)]
  refine owned.change alone merges rfl rfl ?_ files (fun other differ => ?_) (fun other => ?_) (fun other present => ?_)
  · rw [dataOf_erase, if_pos rfl]
    exact (dataOf_erase _ _ _).symm ▸ (if_pos rfl).symm
  · rw [dataOf_erase, if_neg (Ne.symm differ)]
  · by_cases same : other = path
    · rw [same, own]
    · unfold Inodes.apply
      dsimp only
      rw [Function.update_of_ne same, Function.update_of_ne (unlinked other same), owned.numbered]
  · have besides : other ≠ path := by
      rintro rfl
      exact present ((dataOf_erase _ _ _).trans (if_pos rfl))
    unfold Inodes.apply
    dsimp only
    rw [Function.update_of_ne besides]
    exact owned.entered other (files other besides ▸ present)

theorem Backed.congr (backed : Backed s owners owner) (same : ∀ path, dataOf s'.files path = dataOf s.files path) :
    Backed s' owners owner := by
  constructor
  · intro path own
    rw [same, backed.own path own]
  · intro path differ
    rw [same]
    exact backed.linked path differ

theorem alone_of_absent (absent : dataOf s.files path = none) : Alone s path := by
  intro other _ offset block _ _ extent
  obtain ⟨data, here, -⟩ := extent_iff.mp extent
  cases absent.symm.trans here

/-- The length of a file is raised, be its name a link or not. -/
theorem Owned.fallocate (owned : Owned s inodes owners owner contents) {f : File → File}
    (amends : Amends (.fallocate path mode offset length) path f) (kept : ∀ file, (f file).data = file.data) :
    ∃ owners', Owned (s.amend path f) (inodes.touch path) owners' owner contents := by
  by_cases absent : dataOf s.files path = none
  · have opened : (f (getOrOpen owners path)).data = (f (getOrOpen s.files path)).data := by
      rw [kept, kept, owned.backed.opened (owned.backed.absent absent).1]
    refine ⟨_, owned.insert (alone_of_absent absent) (.amend amends : Merges (withFiles s owners) _ _) rfl rfl ?_
      (owned.touched path) (owned.known path)⟩
    exact opened
  · have same (other : Path) : dataOf (s.amend path f).files other = dataOf s.files other := by
      rw [Snapshot.amend, dataOf_insert]
      split
      · next here =>
        obtain ⟨data, held⟩ := Option.ne_none_iff_exists'.mp absent
        rw [kept, getOrOpen_data, ← here, held, Option.getD_some]
      · rfl
    exact ⟨owners, owned.backed.congr same, owned.faithful, owned.touched path,
      fun other present => owned.known path other (.inr (same other ▸ present))⟩

/-- The name of a new link has the number of its source. -/
theorem Owned.number_link (owned : Owned s inodes owners owner contents) (source dest : Path) (security : FileSecurity)
    (other : Path) (present : other = dest ∨ dataOf s.files other ≠ none) :
    (inodes.apply (.link source dest security)).number other ≠ none := by
  unfold Inodes.apply
  dsimp only
  by_cases here : other = dest
  · rw [here, Function.update_self]
    exact number_touch inodes source
  · rw [Function.update_of_ne here]
    exact owned.known source other (.inr (present.resolve_left here))

/-- The source of a link has nothing yet: the new name has nothing either. -/
theorem Owned.link_empty (owned : Owned s inodes owners owner contents) (uid gid : UInt32) (source : Path)
    (absent : dataOf s.files dest = none) :
    ∃ owners', Owned (s.put dest (linkedFile uid gid source .empty))
      (inodes.apply (.link source dest (.unix uid gid))) owners' owner (Function.update contents dest fun _ => none) := by
  obtain ⟨own, -, only⟩ := owned.backed.absent absent
  refine ⟨_, owned.insert (alone_of_absent absent) (Merges.create : Merges (withFiles s owners) (.create dest 0 (.unix 0 0) 0) _)
    rfl rfl ?_ (fun other => ?_) (owned.number_link source dest _)⟩
  · rfl
  unfold Inodes.apply
  dsimp only
  by_cases here : other = dest
  · rw [here, own]
  · rw [Function.update_of_ne here, Function.update_of_ne (fun links => here (only other links)), owned.touched]

/-- The new name links to the owner of what the source has. -/
theorem Owned.link_filled (owned : Owned s inodes owners owner contents) {data : DataList} (filled : data ≠ .empty)
    (held : dataOf s.files source = some (some data)) (absent : dataOf s.files dest = none) :
    Owned (s.put dest (linkedFile uid gid source data)) (inodes.apply (.link source dest (.unix uid gid))) owners
      (Function.update owner dest (owner source)) contents := by
  obtain ⟨own, empty, only⟩ := owned.backed.absent absent
  have differ : owner source ≠ dest := by
    intro links
    rw [only source links, absent] at held
    cases held
  have files (other : Path) : dataOf (s.put dest (linkedFile uid gid source data)).files other =
      if dest = other then some (some data) else dataOf s.files other := dataOf_insert _ _ _ _
  refine ⟨⟨fun other same => ?_, fun other links => ?_⟩, owned.faithful, fun other => ?_, fun other present => ?_⟩
  · by_cases here : other = dest
    · rw [here, Function.update_self] at same
      exact absurd same differ
    · rw [Function.update_of_ne here] at same
      rw [files, if_neg (Ne.symm here), owned.backed.own other same]
  · by_cases here : other = dest
    · rw [here, Function.update_self, files, if_pos rfl, ← owned.backed.data]
      exact ⟨empty, data, filled, rfl, held⟩
    · rw [Function.update_of_ne here] at links ⊢
      rw [files, if_neg (Ne.symm here)]
      exact owned.backed.linked other links
  · unfold Inodes.apply
    dsimp only
    by_cases here : other = dest
    · rw [here, Function.update_self, Function.update_self, Function.update_of_ne differ, owned.touched]
    · rw [Function.update_of_ne here, Function.update_of_ne here, Function.update_of_ne fun links => here (only other links),
        owned.touched]
  · refine owned.number_link source dest _ other (or_iff_not_imp_left.mpr fun here => ?_)
    rwa [files, if_neg (Ne.symm here)] at present

theorem sharedData_ok (shared : sharedData (s.files.find source) = .ok data) :
    dataOf s.files source = some (some data) ∨ dataOf s.files source = none ∧ data = .empty := by
  unfold sharedData at shared
  unfold dataOf
  split at shared
  · next absent =>
    cases shared
    exact .inr ⟨by rw [absent, Option.map_none], rfl⟩
  · next file found =>
    split at shared
    · next held =>
      cases shared
      exact .inl (by rw [found, Option.map_some, held])
    · cases shared

/-- A name reads as what its owner has. -/
theorem Owned.denotes (owned : Owned s inodes owners owner contents) : Denotes s fun path => contents (owner path) :=
  fun path position byte => owned.backed.reads.trans (owned.faithful.denotes (owner path) position byte)

theorem nothing_of_denotes {reading : Contents} (denotes : Denotes s reading) (path : Path)
    (empty : ∀ data, dataOf s.files path = some (some data) → data = .empty) : reading path = fun _ => none := by
  funext position
  by_contra some
  obtain ⟨byte, read⟩ := Option.ne_none_iff_exists'.mp some
  obtain ⟨data, held, offset, block, found, -⟩ := pathReads_iff.mp ((denotes path position byte).mpr read)
  rw [empty data held] at found
  cases found

/-- Nobody else reads what is entered under a name without links. -/
theorem update_owner (contents : Contents) (own : owner path = path) (only : ∀ other, other ≠ path → owner other ≠ path)
    (bytes : ℕ → Option UInt8) : (fun other => Function.update contents path bytes (owner other)) =
      Function.update (fun other => contents (owner other)) path bytes := by
  funext other
  by_cases here : other = path
  · rw [here, own, Function.update_self, Function.update_self]
  · rw [Function.update_of_ne here, Function.update_of_ne (only other here)]

theorem Owned.link (owned : Owned s inodes owners owner contents) (uid gid : UInt32)
    (shared : sharedData (s.files.find source) = .ok data) (absent : dataOf s.files dest = none) :
    ∃ owners' owner' contents', Owned (s.put dest (linkedFile uid gid source data))
        (inodes.apply (.link source dest (.unix uid gid))) owners' owner' contents' ∧
      (fun path => contents' (owner' path)) =
        Function.update (fun path => contents (owner path)) dest (contents (owner source)) := by
  obtain ⟨own, -, only⟩ := owned.backed.absent absent
  by_cases filled : data = .empty
  · obtain ⟨owners', linked⟩ := owned.link_empty uid gid source absent
    have nothing : contents (owner source) = fun _ => none := by
      refine nothing_of_denotes owned.denotes source fun held found => ?_
      rcases sharedData_ok shared with there | ⟨there, -⟩
      · rw [there] at found
        cases found
        exact filled
      · cases there.symm.trans found
    refine ⟨owners', owner, _, filled ▸ linked, ?_⟩
    rw [update_owner contents own fun other differ links => differ (only other links), nothing]
  · have held := (sharedData_ok shared).resolve_right fun empty => filled empty.2
    refine ⟨owners, _, contents, owned.link_filled filled held absent, ?_⟩
    funext path
    by_cases here : path = dest
    · rw [here, Function.update_self, Function.update_self]
    · rw [Function.update_of_ne here, Function.update_of_ne here]

theorem dataOf_rename (s : Snapshot) (source dest other : Path) : dataOf (s.rename source dest).files other =
    if dest = other then some ((dataOf s.files source).getD (some .empty))
    else if source = other then none else dataOf s.files other := by
  refine (dataOf_insert _ _ _ _).trans ?_
  rw [dataOf_erase]
  congr 2
  unfold dataOf
  cases s.files.find source <;> rfl

/-- A name that shares nothing gives the same blocks back in both tables. -/
theorem Backed.released (backed : Backed s owners owner) (own : owner dest = dest) (source : Path) :
    release s.freeList ((owners.erase source).find dest) = release s.freeList ((s.files.erase source).find dest) := by
  refine release_congr _ ((dataOf_erase _ _ _).trans (Eq.trans ?_ (dataOf_erase _ _ _).symm))
  rw [backed.own dest own]

theorem Owned.number_rename (owned : Owned s inodes owners owner contents) (flags : UInt32) (other : Path)
    (present : dataOf (s.rename source dest).files other ≠ none) :
    (inodes.apply (.rename source dest flags)).number other ≠ none := by
  unfold Inodes.apply
  dsimp only
  rw [dataOf_rename] at present
  by_cases here : other = dest
  · rw [here, Function.update_self]
    exact number_touch inodes source
  · rw [if_neg (Ne.symm here)] at present
    by_cases moved : other = source
    · rw [if_pos moved.symm] at present
      exact absurd rfl present
    · rw [if_neg (Ne.symm moved)] at present
      rw [Function.update_of_ne here, Function.update_of_ne moved]
      exact owned.known source other (.inr present)

theorem dataOf_rename_of_ne (s : Snapshot) (apart : other ≠ source ∧ other ≠ dest) :
    dataOf (s.rename source dest).files other = dataOf s.files other := by
  rw [dataOf_rename, if_neg apart.2.symm, if_neg apart.1.symm]

theorem number_rename_of_ne (inodes : Inodes) (flags : UInt32) (apart : other ≠ source ∧ other ≠ dest) :
    (inodes.apply (.rename source dest flags)).number other = (inodes.touch source).number other := by
  unfold Inodes.apply
  dsimp only
  rw [Function.update_of_ne apart.2, Function.update_of_ne apart.1]

theorem number_rename_dest (inodes : Inodes) (source dest : Path) (flags : UInt32) :
    (inodes.apply (.rename source dest flags)).number dest = (inodes.touch source).number source := by
  unfold Inodes.apply
  dsimp only
  rw [Function.update_self]

/-- The owners after a name that owns what it has was given up for another. -/
def movedOwner (owner : Path → Path) (source dest path : Path) : Path :=
  if path = source ∨ path = dest then path else if owner path = source then dest else owner path

theorem movedOwner_named (owner : Path → Path) (name : path = source ∨ path = dest) :
    movedOwner owner source dest path = path := if_pos name

theorem movedOwner_follows (other : ¬ (path = source ∨ path = dest)) (links : owner path = source) :
    movedOwner owner source dest path = dest := (if_neg other).trans (if_pos links)

theorem movedOwner_stays (other : ¬ (path = source ∨ path = dest)) (differ : owner path ≠ source) :
    movedOwner owner source dest path = owner path := (if_neg other).trans (if_neg differ)

theorem Backed.rename_own (backed : Backed s owners owner) (own : owner source = source)
    (unlinked : ∀ other, other ≠ dest → owner other ≠ dest) :
    Backed (s.rename source dest) ((withFiles s owners).rename source dest).files (movedOwner owner source dest) := by
  have arrived (t : Snapshot) : dataOf (t.rename source dest).files dest =
      some ((dataOf t.files source).getD (some .empty)) := by
    rw [dataOf_rename, if_pos rfl]
  refine ⟨fun path same => ?_, fun path links => ?_⟩
  · by_cases name : path = source ∨ path = dest
    · by_cases here : path = dest
      · rw [here, arrived, arrived, ← backed.own source own]
        rfl
      · rw [dataOf_rename, dataOf_rename, if_neg (Ne.symm here), if_neg (Ne.symm here),
          if_pos (name.resolve_right here).symm, if_pos (name.resolve_right here).symm]
    · have stays : owner path ≠ source := fun links =>
        name (.inr ((movedOwner_follows name links).symm.trans same).symm)
      rw [movedOwner_stays name stays] at same
      rw [dataOf_rename_of_ne _ (not_or.mp name), dataOf_rename_of_ne _ (not_or.mp name), ← backed.own path same]
      rfl
  · have name : ¬ (path = source ∨ path = dest) := fun name => links (movedOwner_named owner name)
    rw [dataOf_rename_of_ne _ (not_or.mp name), dataOf_rename_of_ne _ (not_or.mp name)]
    by_cases follows : owner path = source
    · obtain ⟨absent, data, filled, held, there⟩ :=
        backed.linked path fun same => name (.inl (same.symm.trans follows))
      rw [follows] at there
      refine ⟨absent, data, filled, held, ?_⟩
      rw [movedOwner_follows name follows, arrived, show dataOf (withFiles s owners).files source = _ from there]
      rfl
    · rw [movedOwner_stays name follows] at links ⊢
      rw [dataOf_rename_of_ne _ ⟨follows, unlinked path fun here => name (.inr here)⟩]
      exact backed.linked path links

/-- The file under a name that owns it moves, and takes its links along. -/
theorem Owned.rename_own (owned : Owned s inodes owners owner contents) (own : owner source = source)
    (alone : Alone s dest) (flags : UInt32) :
    Owned (s.rename source dest) (inodes.apply (.rename source dest flags))
      ((withFiles s owners).rename source dest).files (movedOwner owner source dest)
      (contents.apply (.rename source dest flags)) := by
  obtain ⟨destOwn, unlinked⟩ := owned.backed.alone owned.faithful.arranged.settled alone
  have renamed : withFiles (s.rename source dest) ((withFiles s owners).rename source dest).files =
      (withFiles s owners).rename source dest := by
    unfold withFiles Snapshot.rename
    dsimp only
    rw [owned.backed.released destOwn]
  refine ⟨owned.backed.rename_own own unlinked, ?_, fun path => ?_, owned.number_rename flags⟩
  · rw [renamed]
    exact owned.faithful.merges .rename rfl rfl
  · by_cases name : path = source ∨ path = dest
    · rw [movedOwner_named owner name]
    · rw [number_rename_of_ne inodes flags (not_or.mp name), ← owned.touched]
      by_cases links : owner path = source
      · rw [movedOwner_follows name links, number_rename_dest, links]
      · rw [movedOwner_stays name links,
          number_rename_of_ne inodes flags ⟨links, unlinked path fun here => name (.inr here)⟩]

theorem movedOwner_reading (contents : Contents) (own : owner source = source)
    (unlinked : ∀ other, other ≠ dest → owner other ≠ dest) (flags : UInt32) :
    (fun path => contents.apply (.rename source dest flags) (movedOwner owner source dest path)) =
      Contents.apply (fun path => contents (owner path)) (.rename source dest flags) := by
  funext path
  unfold Contents.apply
  dsimp only
  by_cases name : path = source ∨ path = dest
  · rw [movedOwner_named owner name]
    by_cases here : path = dest
    · rw [here, Function.update_self, Function.update_self, own]
    · rw [Function.update_of_ne here, Function.update_of_ne here, name.resolve_right here, Function.update_self,
        Function.update_self]
  · obtain ⟨left, right⟩ := not_or.mp name
    rw [Function.update_of_ne right, Function.update_of_ne left]
    by_cases links : owner path = source
    · rw [movedOwner_follows name links, Function.update_self, links]
    · rw [movedOwner_stays name links, Function.update_of_ne (unlinked path right), Function.update_of_ne links]

/-- A link moves: nothing becomes of its old name, and what was under the new
one is given back. -/
theorem Owned.rename_linked (owned : Owned s inodes owners owner contents) (linked : owner source ≠ source)
    (alone : Alone s dest) (flags : UInt32) :
    Owned (s.rename source dest) (inodes.apply (.rename source dest flags)) (owners.erase dest)
      (Function.update (Function.update owner source source) dest (owner source))
      (Function.update contents dest fun _ => none) := by
  obtain ⟨own, unlinked⟩ := owned.backed.alone owned.faithful.arranged.settled alone
  have differ : source ≠ dest := fun same => linked (same ▸ own)
  obtain ⟨absent, data, filled, held, there⟩ := owned.backed.linked source linked
  have unclaimed (path : Path) : owner path ≠ source := fun links =>
    linked (links ▸ owned.backed.owner_owner path)
  have erased (path : Path) (apart : path ≠ dest) : dataOf (owners.erase dest) path = dataOf owners path := by
    rw [dataOf_erase, if_neg apart.symm]
  have atSource : Function.update (Function.update owner source source) dest (owner source) source = source := by
    rw [Function.update_of_ne differ, Function.update_self]
  have besides {path : Path} (left : path ≠ source) (right : path ≠ dest) :
      Function.update (Function.update owner source source) dest (owner source) path = owner path := by
    rw [Function.update_of_ne right, Function.update_of_ne left]
  refine ⟨⟨fun path same => ?_, fun path links => ?_⟩, ?_, fun path => ?_, owned.number_rename flags⟩
  · by_cases here : path = dest
    · rw [here, Function.update_self] at same
      exact absurd same (unlinked source differ)
    · rw [erased path here]
      by_cases moved : path = source
      · rw [moved, absent, dataOf_rename, if_neg differ.symm, if_pos rfl]
      · rw [besides moved here] at same
        rw [dataOf_rename_of_ne s ⟨moved, here⟩, owned.backed.own path same]
  · by_cases here : path = dest
    · rw [here, Function.update_self, erased _ (unlinked source differ), dataOf_rename, if_pos rfl, held]
      exact ⟨by rw [dataOf_erase, if_pos rfl], data, filled, rfl, there⟩
    · by_cases moved : path = source
      · rw [moved] at links
        exact absurd atSource links
      · rw [besides moved here] at links ⊢
        rw [erased path here, erased _ (unlinked path here), dataOf_rename_of_ne s ⟨moved, here⟩]
        exact owned.backed.linked path links
  · have freed : release s.freeList ((s.files.erase source).find dest) = release s.freeList (owners.find dest) := by
      refine release_congr _ ((dataOf_erase _ _ _).trans ?_)
      rw [if_neg differ]
      exact (owned.backed.own dest own).symm
    have removed : withFiles (s.rename source dest) (owners.erase dest) = (withFiles s owners).remove dest := by
      unfold withFiles Snapshot.rename Snapshot.remove
      dsimp only
      rw [freed]
    rw [removed]
    exact owned.faithful.merges .unlink rfl rfl
  · by_cases here : path = dest
    · rw [here, Function.update_self, number_rename_dest,
        number_rename_of_ne inodes flags ⟨linked, unlinked source differ⟩, owned.touched]
    · by_cases moved : path = source
      · rw [moved, atSource]
      · rw [besides moved here, number_rename_of_ne inodes flags ⟨moved, here⟩,
          number_rename_of_ne inodes flags ⟨unclaimed path, unlinked path here⟩, owned.touched]

theorem Owned.rename (owned : Owned s inodes owners owner contents) (alone : Alone s dest) (flags : UInt32) :
    ∃ owners' owner' contents', Owned (s.rename source dest) (inodes.apply (.rename source dest flags))
        owners' owner' contents' ∧
      (fun path => contents' (owner' path)) =
        Contents.apply (fun path => contents (owner path)) (.rename source dest flags) := by
  obtain ⟨destOwn, unlinked⟩ := owned.backed.alone owned.faithful.arranged.settled alone
  by_cases own : owner source = source
  · exact ⟨_, _, _, owned.rename_own own alone flags, movedOwner_reading contents own unlinked flags⟩
  · refine ⟨_, _, _, owned.rename_linked own alone flags, ?_⟩
    have differ : source ≠ dest := fun same => own (same ▸ destOwn)
    -- a link has no entry of its own among the owners
    have nothing : contents source = fun _ => none := by
      refine nothing_of_denotes owned.faithful.denotes source fun data held => ?_
      cases (owned.backed.linked source own).1.symm.trans held
    funext path
    unfold Contents.apply
    dsimp only
    by_cases here : path = dest
    · rw [here, Function.update_self, Function.update_self, Function.update_of_ne (unlinked source differ)]
    · rw [Function.update_of_ne here, Function.update_of_ne here]
      by_cases moved : path = source
      · rw [moved, Function.update_self, Function.update_self, Function.update_of_ne differ, nothing]
      · rw [Function.update_of_ne moved, Function.update_of_ne moved, Function.update_of_ne (unlinked path here)]

end Steps

/-! ### Runs with links -/

/-- Calls that cut, write, remove or replace what is under a name are made only
where it shares no byte with another name. -/
def Sparing (s : Snapshot) : VFSCall → Prop
  | .link .. | .fallocate .. => True
  | .create path .. | .truncate path _ | .unlink path => Alone s path
  | .write path offset buf => Alone s path ∧ buf ≠ [] ∧ unwrapped (.write path offset buf) = true
  | .rename _ dest _ => Alone s dest
  | _ => False

/-- What the names read after a call: a link reads what its source does. -/
def readingAfter (reading : Contents) : VFSCall → Contents
  | .link source dest _ => Function.update reading dest (reading source)
  | call => reading.apply call

/-- A snapshot, the files behind its names, and what these should read. -/
structure Traced where
  snapshot : Snapshot
  inodes : Inodes
  reading : Contents

def Traced.start (toFile : ByteFile.File) (now : JournalStore.SystemTime) : Traced where
  snapshot := .new toFile now
  inodes := ⟨fun _ => none, 0⟩
  reading := fun _ _ => none

/-- One call of `merge_from`, with what becomes of the names. -/
def Traced.merging (t : Traced) (call : VFSCall) (t' : Traced) : Prop :=
  SnapshotPartition.merging t.snapshot call t'.snapshot ∧ t'.inodes = t.inodes.apply call ∧
    t'.reading = readingAfter t.reading call

/-- There is an owner for every byte. -/
def Traced.Owned (t : Traced) : Prop :=
  ∃ owners owner contents, SnapshotLinks.Owned t.snapshot t.inodes owners owner contents ∧
    t.reading = fun path => contents (owner path)

theorem owned_start (toFile : ByteFile.File) (now : JournalStore.SystemTime) : (Traced.start toFile now).Owned := by
  refine ⟨.empty, id, fun _ _ => none, ⟨⟨fun _ _ => rfl, fun path differ => absurd rfl differ⟩, faithful_new toFile now,
    fun _ => rfl, fun path present => absurd rfl present⟩, rfl⟩

/-- The calls that change the bytes under one name. -/
inductive Changes : VFSCall → Path → Prop where
  | create : Changes (.create path flags security mode) path
  | write : Changes (.write path offset buf) path
  | truncate : Changes (.truncate path size) path
  | unlink : Changes (.unlink path) path

/-- If it has no links, the other names read what they did. -/
theorem Owned.reading_apply (owned : Owned s inodes owners owner contents) (alone : Alone s path)
    (changes : Changes call path) : readingAfter (fun other => contents (owner other)) call =
      fun other => contents.apply call (owner other) := by
  obtain ⟨own, unlinked⟩ := owned.backed.alone owned.faithful.arranged.settled alone
  cases changes with
  | create | unlink => exact (update_owner contents own unlinked _).symm
  | write | truncate =>
    unfold readingAfter Contents.apply
    dsimp only
    rw [update_owner contents own unlinked, own]

theorem owned_of_merging {t t' : Traced} (owned : t.Owned) (moves : t.merging call t') (fine : Sparing t.snapshot call) :
    t'.Owned := by
  obtain ⟨owners, owner, contents, owned, read⟩ := owned
  obtain ⟨merged, numbers, reads⟩ := moves
  unfold Traced.Owned
  rw [numbers, reads, read]
  generalize t'.snapshot = s' at merged ⊢
  cases merges_of_mergeCall merged with
  | make makes => cases makes <;> cases fine
  | amend amends =>
    cases amends with
    | fallocate =>
      obtain ⟨owners', after⟩ := owned.fallocate (.fallocate : Amends (.fallocate _ 0 _ _) _ _) fun _ => rfl
      exact ⟨owners', owner, contents, after, rfl⟩
    | _ => cases fine
  | rename =>
    obtain ⟨owners', owner', contents', after, read⟩ := owned.rename fine _
    exact ⟨owners', owner', contents', after, read.symm⟩
  | link shared absent =>
    obtain ⟨owners', owner', contents', after, read⟩ := owned.link _ _ shared (by rw [dataOf, absent, Option.map_none])
    exact ⟨owners', owner', contents', after, read.symm⟩
  | create => exact ⟨_, owner, _, owned.create fine, owned.reading_apply fine .create⟩
  | unlink => exact ⟨_, owner, _, owned.unlink fine, owned.reading_apply fine .unlink⟩
  | truncate =>
    obtain ⟨owners', after⟩ := owned.truncate fine _
    exact ⟨owners', owner, _, after, owned.reading_apply fine .truncate⟩
  | write wrote =>
    obtain ⟨alone, filled, small⟩ := fine
    obtain ⟨owners', after⟩ := owned.write alone filled small wrote
    exact ⟨owners', owner, _, after, owned.reading_apply alone .write⟩
  | rmdir | diffWrite | fsync => cases fine

theorem Owned.separate (owned : Owned s inodes owners owner contents) (extent : Extent s path offset block)
    (extent' : Extent s path' offset' block') (differ : (path, offset) ≠ (path', offset')) (shared : ¬ Apart block block') :
    path ≠ path' ∧ owner path = owner path' := by
  have same : (owner path, offset) = (owner path', offset') := by
    by_contra distinct
    exact shared (owned.faithful.arranged.settled.separate.extents _ _ _ _ _ _ (owned.backed.extent.mp extent)
      (owned.backed.extent.mp extent') distinct)
  obtain ⟨owners, rfl⟩ := Prod.mk.inj same
  exact ⟨fun named => differ (by rw [named]), owners⟩

/-- As long as calls spare shared blocks, no block of a file is free, blocks are
shared only by links of one file, and every name reads what was written under it
or under the name it was linked to: in particular the other names do not see
that a name is cut or removed. -/
theorem links_spare_live_data (toFile : ByteFile.File) (now : JournalStore.SystemTime) {t : Traced}
    (reached : Reaches Traced.merging (fun t call => Sparing t.snapshot call) (Traced.start toFile now) t) :
    (∀ path offset block key size, Extent t.snapshot path offset block → t.snapshot.freeList.find key = some size →
      Apart block ⟨key, size⟩) ∧
    (∀ path offset block path' offset' block', Extent t.snapshot path offset block →
      Extent t.snapshot path' offset' block' → (path, offset) ≠ (path', offset') → ¬ Apart block block' →
      path ≠ path' ∧ ∃ number, t.inodes.number path = some number ∧ t.inodes.number path' = some number) ∧
    Denotes t.snapshot t.reading ∧
    ∀ call path t', Changes call path → Sparing t.snapshot call → t.merging call t' → ∀ other, other ≠ path →
      ∀ position byte, PathReads t'.snapshot other position byte ↔ PathReads t.snapshot other position byte := by
  have invariant : t.Owned := reached.invariant (owned_start toFile now) fun _ _ _ => owned_of_merging
  have denotes {t : Traced} (owned : t.Owned) : Denotes t.snapshot t.reading := by
    obtain ⟨owners, owner, contents, owned, read⟩ := owned
    exact read ▸ owned.denotes
  refine ⟨?_, ?_, denotes invariant, fun call path t' changes fine moves other differ position byte => ?_⟩
  · obtain ⟨owners, owner, contents, owned, -⟩ := invariant
    intro path offset block key size extent free
    exact owned.faithful.arranged.settled.separate.free _ _ _ _ _ (owned.backed.extent.mp extent) free
  · obtain ⟨owners, owner, contents, owned, -⟩ := invariant
    intro path offset block path' offset' block' extent extent' differ shared
    obtain ⟨distinct, same⟩ := owned.separate extent extent' differ shared
    obtain ⟨data, held, -⟩ := extent_iff.mp extent
    obtain ⟨number, known⟩ := Option.ne_none_iff_exists'.mp (owned.entered path (by rw [held]; exact nofun))
    exact ⟨distinct, number, known, by rw [← owned.numbered path', ← same, owned.numbered, known]⟩
  · rw [denotes (owned_of_merging invariant moves fine), denotes invariant, moves.2.2]
    have kept : readingAfter t.reading call other = t.reading other := by
      cases changes <;> exact Function.update_of_ne differ _ _
    rw [kept]

theorem reaches_merged {t : Traced} (reached : Reaches Traced.merging (fun t call => Sparing t.snapshot call) start t)
    (call : VFSCall) (merged : t.snapshot.mergeCall call = .ok s') (fine : Sparing t.snapshot call) :
    Reaches Traced.merging (fun t call => Sparing t.snapshot call) start
      ⟨s', t.inodes.apply call, readingAfter t.reading call⟩ :=
  reached.next ⟨merged, rfl, rfl⟩ fine

/-- A file is written, linked and moved, and then another one is written. -/
theorem moved_link_reads : ∃ t, Reaches Traced.merging (fun t call => Sparing t.snapshot call) (Traced.start [] epoch) t ∧
    PathReads t.snapshot [[98]] 0 1 ∧ PathReads t.snapshot [[99]] 0 1 ∧ PathReads t.snapshot [[100]] 0 2 := by
  have wrote := reaches_merged (.refl : Reaches _ _ (Traced.start [] epoch) _) (.write [[97]] 0 [1]) rfl
    ⟨alone_of_absent rfl, by decide, by decide⟩
  have linked := reaches_merged wrote (.link [[97]] [[98]] (.unix 0 0)) rfl trivial
  have moved := reaches_merged linked (.rename [[97]] [[99]] 0) rfl (alone_of_absent rfl)
  have reached := reaches_merged moved (.write [[100]] 0 [2]) rfl ⟨alone_of_absent rfl, by decide, by decide⟩
  obtain ⟨-, -, denotes, -⟩ := links_spare_live_data [] epoch reached
  exact ⟨_, reached, (denotes [[98]] 0 1).mpr rfl, (denotes [[99]] 0 1).mpr rfl, (denotes [[100]] 0 2).mpr rfl⟩

/-- A file is written and linked, and its first name is removed. -/
def linkedAndRemoved : List VFSCall :=
  [.create [[97]] 0 (.unix 0 0) 0, .write [[97]] 0 [1], .link [[97]] [[98]] (.unix 0 0), .unlink [[97]]]

/-- The block that the other name still has is free then, and the next file to be
written overwrites it. -/
theorem removed_link_overwritten : ∃ s s', (Snapshot.new [] epoch).mergeFrom linkedAndRemoved = .ok s ∧
    Extent s [[98]] 0 ⟨40, 1⟩ ∧ s.freeList.find 40 = some usizeMax ∧ PathReads s [[98]] 0 1 ∧
    s.mergeCall (.write [[99]] 0 [2]) = .ok s' ∧ Extent s' [[99]] 0 ⟨40, 1⟩ ∧ Extent s' [[98]] 0 ⟨40, 1⟩ ∧
    PathReads s' [[98]] 0 2 := by
  refine ⟨_, _, rfl, ⟨_, _, rfl, rfl, rfl⟩, rfl, ⟨_, _, rfl, rfl, 0, ⟨40, 1⟩, rfl, by decide, by decide, rfl⟩, rfl,
    ⟨_, _, rfl, rfl, rfl⟩, ⟨_, _, rfl, rfl, rfl⟩, ⟨_, _, rfl, rfl, 0, ⟨40, 1⟩, rfl, by decide, by decide, rfl⟩⟩

end Fsyncer.SnapshotLinks
