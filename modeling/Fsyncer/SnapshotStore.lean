import Fsyncer.Base.SortedMap
import Fsyncer.JournalStore
import Fsyncer.Vfs

/-! The forward snapshot of `snapshot/forward.rs`: a history of calls folded
into a table of files. The bytes written to a file lie in blocks of the
serialised file, found through the file's extents; the rest of the serialised
file is handed out and taken back through a list of free regions. -/
namespace Fsyncer.SnapshotStore
open Fsyncer.ByteFile (Failure IoError offMax readExactAt writeAllAt setLen)
open Fsyncer.FileTree (Name Path)
open Fsyncer.JournalStore (SystemTime systemTime traced traced_ok)
open Fsyncer.Machine Fsyncer.Vfs Fsyncer.Wire

/-! ### Data -/

/-- A region of the serialised file. -/
structure Block where
  location : ℕ
  size : ℕ
  deriving DecidableEq, Repr

/-- The extents of a file: where its bytes lie, by their offset in the file. -/
abbrev DataList := SortedMap ℕ Block

inductive FileType where
  | invalid
  | opened
  | directory
  | new (flags : Int32)
  | special (rdev : UInt64)
  | symlink (source : List UInt8)
  | hardlink (source : Path)
  | moved (source : Path)
  deriving DecidableEq, Repr

inductive FileSize where
  | unknown
  | moreThan (size : UInt64)
  | exactly (size : UInt64)
  deriving DecidableEq, Repr

/-- What the snapshot holds of a file; a field that no call has set is left
alone when the snapshot is applied. -/
structure File where
  uid : Option UInt32
  gid : Option UInt32
  mode : Option UInt32
  size : FileSize
  xattrs : Option (SortedMap Name (Option (List UInt8)))
  time : Option (Timespec × Timespec × Timespec)
  ty : FileType
  data : Option DataList

/-- `File::default`. -/
def File.default : File where
  uid := none
  gid := none
  mode := none
  size := .unknown
  xattrs := none
  time := none
  ty := .invalid
  data := none

abbrev Files := SortedMap Path File

/-- Free regions of the serialised file: their sizes by their locations. -/
abbrev FreeList := SortedMap ℕ ℕ

inductive SnapshotType where
  | forward
  | bidirectional
  | undo
  deriving DecidableEq, Repr

structure Header where
  ty : SnapshotType
  ftOffset : ℕ
  start : SystemTime
  finish : SystemTime
  checksum : UInt32
  deriving DecidableEq, Repr

structure Snapshot where
  header : Header
  files : Files
  serialised : ByteFile.File
  freeList : FreeList

/-! ### The header -/

def SnapshotType.index : SnapshotType → ℕ
  | .forward => 0
  | .bidirectional => 1
  | .undo => 2

def SnapshotType.ofIndex : ℕ → Option SnapshotType
  | 0 => some .forward
  | 1 => some .bidirectional
  | 2 => some .undo
  | _ => none

def encodeTime (moment : SystemTime) : List UInt8 := leBytes 8 moment.secs ++ leBytes 4 moment.nanos

def decodeTime (bytes : List UInt8) : Option (SystemTime × List UInt8) := do
  let (secs, bytes) ← takeLe 8 bytes
  let (nanos, bytes) ← takeLe 4 bytes
  let moment ← systemTime secs nanos
  some (moment, bytes)

def encodeHeader (header : Header) : List UInt8 :=
  leBytes 4 header.ty.index ++ leBytes 8 header.ftOffset ++ encodeTime header.start ++
    encodeTime header.finish ++ leBytes 4 header.checksum.toNat

def decodeHeader (bytes : List UInt8) : Option Header := do
  let (index, bytes) ← takeLe 4 bytes
  let ty ← SnapshotType.ofIndex index
  let (ftOffset, bytes) ← takeLe 8 bytes
  let (start, bytes) ← decodeTime bytes
  let (finish, bytes) ← decodeTime bytes
  let (checksum, _) ← takeLe 4 bytes
  some { ty, ftOffset, start, finish, checksum := UInt32.ofNat checksum }

/-- `serialized_size` of a header. -/
def headerSize : ℕ := 40

theorem length_encodeHeader (header : Header) : (encodeHeader header).length = headerSize := by
  simp [encodeHeader, encodeTime, headerSize]

/-- `usize::MAX`. -/
def usizeMax : ℕ := 2 ^ 64 - 1

/-- `Snapshot::new`. -/
def Snapshot.new (toFile : ByteFile.File) (now : SystemTime) : Snapshot where
  header := { ty := .forward, ftOffset := 0, start := now, finish := now, checksum := 0 }
  files := .empty
  serialised := toFile
  freeList := SortedMap.empty.insert headerSize usizeMax

/-! ### Free space -/

/-- The entry that `allocate` takes space from: the hinted one if it is large
enough, otherwise the lowest one that is. -/
def findSpace (freeList : FreeList) (size : ℕ) (hint : Option ℕ) : Option (ℕ × ℕ) :=
  let hinted := hint.bind fun hint =>
    ((freeList.find hint).filter fun entrySize => size ≤ entrySize).map fun entrySize => (hint, entrySize)
  hinted.or (freeList.entries.find? fun entry => size ≤ entry.2)

/-- `Snapshot::allocate`. -/
def allocate (freeList : FreeList) (size : ℕ) (hint : Option ℕ) : Except Failure (Block × FreeList) :=
  match findSpace freeList size hint with
  | none => .error (.panic "called `Option::unwrap()` on a `None` value")
  | some (location, entrySize) =>
    let removed := freeList.erase location
    .ok (⟨location, size⟩,
      if size < entrySize then removed.insert (u64 (location + size)) (entrySize - size) else removed)

/-- The last entry below `offset`. -/
def entryBelow (freeList : FreeList) (offset : ℕ) : Option (ℕ × ℕ) :=
  (freeList.filter fun entry => entry.1 < offset).entries.getLast?

/-- The first half of `deallocate`: a free region that ends where the block
starts is taken out and put in front of it. -/
def joinBelow (freeList : FreeList) (block : Block) : FreeList × Block :=
  match entryBelow freeList block.location with
  | some (location, size) =>
    if u64 (location + size) = block.location
    then (freeList.erase location, ⟨location, u64 (block.size + size)⟩)
    else (freeList, block)
  | none => (freeList, block)

/-- The second half: so is one that starts where the block ends. -/
def joinAbove (freeList : FreeList) (block : Block) : FreeList × Block :=
  let after := u64 (block.location + block.size)
  match freeList.find after with
  | some size => (freeList.erase after, ⟨block.location, u64 (block.size + size)⟩)
  | none => (freeList, block)

/-- `Snapshot::deallocate`. -/
def deallocate (freeList : FreeList) (block : Block) : FreeList :=
  let (freeList, block) := joinBelow freeList block
  let (freeList, block) := joinAbove freeList block
  freeList.insert block.location block.size

/-- The blocks of extents, given back one after the other. -/
def deallocateAll (freeList : FreeList) (extents : List (ℕ × Block)) : FreeList :=
  extents.foldl (fun freeList extent => deallocate freeList extent.2) freeList

def bufSize : ℕ := 16 * 1024

/-- One turn of the loop of `move_file_range`. -/
def moveChunk (source dest size : ℕ) (file : ByteFile.File) (turn : ℕ) : Except IoError ByteFile.File := do
  let offset := turn * bufSize
  let buf ← readExactAt file (u64 (source + offset)) (min (size - offset) bufSize)
  writeAllAt file buf (u64 (dest + offset))

/-- `Snapshot::move_file_range`. -/
def moveFileRange (file : ByteFile.File) (source dest size : ℕ) : Except IoError ByteFile.File :=
  (List.range ((size + bufSize - 1) / bufSize)).foldlM (moveChunk source dest size) file

/-! ### Writes -/

/-- The entry of a file that existed before the first call on it. -/
def File.opened : File := { File.default with ty := .opened, data := some .empty }

/-- `Snapshot::get_or_open`. -/
def getOrOpen (files : Files) (path : Path) : File := (files.find path).getD File.opened

def mergeLimit : ℕ := 1024 * 1024

/-- The extents that a write of `len` bytes at `offset` overlaps or touches. -/
def overlapsOf (data : DataList) (offset len : ℕ) : List (ℕ × Block) :=
  (((data.entries.filter fun extent => extent.1 ≤ u64 (offset + len)).reverse).takeWhile
    fun extent => offset ≤ u64 (extent.1 + extent.2.size)).reverse

/-- Don't do front and back merges if they are too big. -/
def dropFront (offset : ℕ) : List (ℕ × Block) → List (ℕ × Block)
  | [] => []
  | first :: rest =>
    if mergeLimit < first.2.size ∧ u64 (first.1 + first.2.size) = offset then rest else first :: rest

def dropBack (after : ℕ) (overlaps : List (ℕ × Block)) : List (ℕ × Block) :=
  match overlaps.getLast? with
  | some last => if mergeLimit < last.2.size ∧ last.1 = after then overlaps.dropLast else overlaps
  | none => overlaps

/-- What `encode_write` works on: the extents of one file, and the space. -/
structure Space where
  data : DataList
  freeList : FreeList
  serialised : ByteFile.File

/-- A write that overlaps nothing gets a block of its own. -/
def Space.place (s : Space) (offset : ℕ) (buff : List UInt8) : Except Failure Space := do
  let (block, freeList) ← allocate s.freeList buff.length none
  let serialised ← traced (writeAllAt s.serialised buff block.location)
  .ok { data := s.data.insert offset block, freeList, serialised }

/-- `move_file_range` under a test for an empty range. -/
def moveUnlessEmpty (file : ByteFile.File) (source dest size : ℕ) : Except IoError ByteFile.File :=
  if size ≠ 0 then moveFileRange file source dest size else .ok file

/-- How many bytes of the first overlap lie before the write. -/
def firstExclusive (offset : ℕ) (first : ℕ × Block) : ℕ := if first.1 < offset then offset - first.1 else 0

/-- How many bytes of the last overlap lie behind a write that ends at `after`. -/
def lastExclusive (after : ℕ) (last : ℕ × Block) : ℕ :=
  if after < u64 (last.1 + last.2.size) then u64 (last.1 + last.2.size) - after else 0

/-- Copies what is left of the overlaps, with the write between, to one new
block, and gives the old blocks back. The allocation comes first, so the copies
do not overwrite each other. -/
def Space.defragment (s : Space) (offset : ℕ) (buff : List UInt8) (first : ℕ × Block)
    (rest : List (ℕ × Block)) : Except Failure Space := do
  let last := rest.getLastD first
  let front := firstExclusive offset first
  let back := lastExclusive (u64 (offset + buff.length)) last
  let (block, freeList) ← allocate s.freeList (u64 (front + buff.length + back)) none
  let serialised ← traced (moveUnlessEmpty s.serialised first.2.location block.location front)
  let serialised ← traced (writeAllAt serialised buff (u64 (block.location + front)))
  let serialised ← traced (moveUnlessEmpty serialised (u64 (last.2.location + usub last.2.size back))
    (u64 (block.location + (front + buff.length))) back)
  let overlaps := first :: rest
  let data := overlaps.foldl (fun data overlap => data.erase overlap.1) s.data
  .ok { data := data.insert (min first.1 offset) block,
        freeList := deallocateAll freeList overlaps, serialised }

/-- The second part of `encode_write`, after the paths for a single overlap. -/
def Space.merge (s : Space) (offset : ℕ) (buff : List UInt8) (overlaps : List (ℕ × Block)) :
    Except Failure Space :=
  match dropBack (u64 (offset + buff.length)) (dropFront offset overlaps) with
  | [] => s.place offset buff
  | first :: rest => s.defragment offset buff first rest

/-- The write continues its only overlap: try to allocate right behind it. -/
def Space.extend (s : Space) (offset : ℕ) (buff : List UInt8) (first : ℕ × Block) : Except Failure Space := do
  let overlapSize := usub (u64 (first.1 + first.2.size)) offset
  let behind := u64 (first.2.location + first.2.size)
  let (block, freeList) ← allocate s.freeList (usub buff.length overlapSize) (some behind)
  if block.location = behind then
    let serialised ← traced (writeAllAt s.serialised buff (usub block.location overlapSize))
    .ok { data := s.data.insert first.1 ⟨first.2.location, u64 (first.2.size + block.size)⟩,
          freeList, serialised }
  else Space.merge { s with freeList := deallocate freeList block } offset buff [first]

/-- The write lies within its only overlap: the bytes there are replaced. -/
def Space.replace (s : Space) (offset : ℕ) (buff : List UInt8) (first : ℕ × Block) : Except Failure Space := do
  let serialised ← traced (writeAllAt s.serialised buff (u64 (first.2.location + (offset - first.1))))
  .ok { s with serialised }

/-- `encode_write`, once the extents of the file are at hand. -/
def Space.encode (s : Space) (offset : ℕ) (buff : List UInt8) : Except Failure Space :=
  match overlapsOf s.data offset buff.length with
  | [first] =>
    if first.1 ≤ offset ∧ u64 (offset + buff.length) ≤ u64 (first.1 + first.2.size)
    then s.replace offset buff first
    else if first.1 < offset then s.extend offset buff first
    else s.merge offset buff [first]
  | overlaps => s.merge offset buff overlaps

/-- `Snapshot::encode_write`. -/
def Snapshot.encodeWrite (s : Snapshot) (path : Path) (offset : ℕ) (buff : List UInt8) :
    Except Failure Snapshot :=
  let file := getOrOpen s.files path
  match file.data with
  | none => .error (.panic "Cannot encode write when there is no data")
  | some data => do
    let after ← Space.encode { data, freeList := s.freeList, serialised := s.serialised } offset buff
    .ok { s with files := s.files.insert path { file with data := some after.data },
                 freeList := after.freeList, serialised := after.serialised }

/-! What each path of a write does when it succeeds. -/

theorem allocate_ok (allocated : allocate freeList size hint = .ok (block, after)) :
    ∃ entrySize, findSpace freeList size hint = some (block.location, entrySize) ∧ block.size = size ∧
      after = if size < entrySize
        then (freeList.erase block.location).insert (u64 (block.location + size)) (entrySize - size)
        else freeList.erase block.location := by
  unfold allocate at allocated
  split at allocated
  · cases allocated
  · next location entrySize found =>
    cases allocated
    exact ⟨entrySize, found, rfl, rfl⟩

theorem place_ok {s s' : Space} (placed : s.place offset buff = .ok s') : ∃ block freeList serialised,
    allocate s.freeList buff.length none = .ok (block, freeList) ∧
    writeAllAt s.serialised buff block.location = .ok serialised ∧
    s' = { data := s.data.insert offset block, freeList, serialised } := by
  obtain ⟨⟨block, freeList⟩, allocated, placed⟩ := bind_ok.mp placed
  obtain ⟨serialised, wrote, placed⟩ := bind_ok.mp placed
  exact ⟨block, freeList, serialised, allocated, traced_ok wrote, (Except.ok.inj placed).symm⟩

theorem replace_ok {s s' : Space} (replaced : s.replace offset buff first = .ok s') : ∃ serialised,
    writeAllAt s.serialised buff (u64 (first.2.location + (offset - first.1))) = .ok serialised ∧
    s' = { s with serialised } := by
  obtain ⟨serialised, wrote, replaced⟩ := bind_ok.mp replaced
  exact ⟨serialised, traced_ok wrote, (Except.ok.inj replaced).symm⟩

theorem defragment_ok {s s' : Space} (merged : s.defragment offset buff first rest = .ok s') :
    ∃ last front back block freeList copied written serialised,
      last = rest.getLastD first ∧ front = firstExclusive offset first ∧
      back = lastExclusive (u64 (offset + buff.length)) last ∧
      allocate s.freeList (u64 (front + buff.length + back)) none = .ok (block, freeList) ∧
      moveUnlessEmpty s.serialised first.2.location block.location front = .ok copied ∧
      writeAllAt copied buff (u64 (block.location + front)) = .ok written ∧
      moveUnlessEmpty written (u64 (last.2.location + usub last.2.size back))
        (u64 (block.location + (front + buff.length))) back = .ok serialised ∧
      s' = { data := ((first :: rest).foldl (fun data overlap => data.erase overlap.1) s.data).insert
               (min first.1 offset) block,
             freeList := deallocateAll freeList (first :: rest), serialised } := by
  obtain ⟨⟨block, freeList⟩, allocated, merged⟩ := bind_ok.mp merged
  obtain ⟨copied, copy, merged⟩ := bind_ok.mp merged
  obtain ⟨written, write, merged⟩ := bind_ok.mp merged
  obtain ⟨serialised, copy', merged⟩ := bind_ok.mp merged
  exact ⟨_, _, _, block, freeList, copied, written, serialised, rfl, rfl, rfl, allocated, traced_ok copy,
    traced_ok write, traced_ok copy', (Except.ok.inj merged).symm⟩

/-- The write is appended to its only overlap, or the allocation is taken back
and the write goes on as if it had not been tried. -/
theorem extend_ok {s s' : Space} (extended : s.extend offset buff first = .ok s') :
    ∃ overlapSize behind block freeList,
      overlapSize = usub (u64 (first.1 + first.2.size)) offset ∧
      behind = u64 (first.2.location + first.2.size) ∧
      allocate s.freeList (usub buff.length overlapSize) (some behind) = .ok (block, freeList) ∧
      ((block.location = behind ∧ ∃ serialised,
          writeAllAt s.serialised buff (usub block.location overlapSize) = .ok serialised ∧
          s' = { data := s.data.insert first.1 ⟨first.2.location, u64 (first.2.size + block.size)⟩,
                 freeList, serialised }) ∨
        (block.location ≠ behind ∧
          Space.merge { s with freeList := deallocate freeList block } offset buff [first] = .ok s')) := by
  obtain ⟨⟨block, freeList⟩, allocated, extended⟩ := bind_ok.mp extended
  refine ⟨_, _, block, freeList, rfl, rfl, allocated, ?_⟩
  dsimp only at extended
  split at extended
  · next adjacent =>
    obtain ⟨serialised, wrote, extended⟩ := bind_ok.mp extended
    exact Or.inl ⟨adjacent, serialised, traced_ok wrote, (Except.ok.inj extended).symm⟩
  · next apart => exact Or.inr ⟨apart, extended⟩

theorem encodeWrite_ok {s s' : Snapshot} (wrote : s.encodeWrite path offset buff = .ok s') :
    ∃ data after, (getOrOpen s.files path).data = some data ∧
      Space.encode { data, freeList := s.freeList, serialised := s.serialised } offset buff = .ok after ∧
      s' = { s with files := s.files.insert path { getOrOpen s.files path with data := some after.data },
                    freeList := after.freeList, serialised := after.serialised } := by
  unfold Snapshot.encodeWrite at wrote
  dsimp only at wrote
  split at wrote
  · cases wrote
  · next data held =>
    obtain ⟨after, encoded, wrote⟩ := bind_ok.mp wrote
    exact ⟨data, after, held, encoded, (Except.ok.inj wrote).symm⟩

/-! ### Merging calls -/

/-- Gives back the blocks of a file that leaves the table. -/
def release (freeList : FreeList) (file : Option File) : FreeList :=
  match file.bind File.data with
  | some data => deallocateAll freeList data.entries
  | none => freeList

/-- A new entry, under the assertion that there was none. -/
def Snapshot.insertNew (s : Snapshot) (path : Path) (file : File) : Except Failure Snapshot :=
  if s.files.find path = none then .ok { s with files := s.files.insert path file }
  else .error (.panic "assertion failed: self.files.insert(..).is_none()")

/-- A change of an entry that is there afterwards in any case. -/
def Snapshot.amend (s : Snapshot) (path : Path) (f : File → File) : Snapshot :=
  { s with files := s.files.insert path (f (getOrOpen s.files path)) }

def Snapshot.rename (s : Snapshot) (source dest : Path) : Snapshot :=
  let file := (s.files.find source).getD { File.default with ty := .moved source, data := some .empty }
  let files := s.files.erase source
  { s with files := files.insert dest file, freeList := release s.freeList (files.find dest) }

def Snapshot.remove (s : Snapshot) (path : Path) : Snapshot :=
  { s with files := s.files.erase path, freeList := release s.freeList (s.files.find path) }

/-- `DataList::shared` of the source of a link. -/
def sharedData (source : Option File) : Except Failure DataList :=
  match source with
  | none => .ok .empty
  | some file =>
    match file.data with
    | some data => .ok data
    | none => .error (.panic "Hardlink from is not a regualar file?")

/-- The last extent loses what lies at or behind `size`. -/
def cutLast (data : DataList) (freeList : FreeList) (size : ℕ) : DataList × FreeList :=
  match data.entries.getLast? with
  | some (offset, block) =>
    if size < u64 (offset + block.size) then
      let deallocSize := u64 (offset + block.size) - size
      let kept := usub block.size deallocSize
      (data.insert offset ⟨block.location, kept⟩,
        deallocate freeList ⟨u64 (block.location + kept), deallocSize⟩)
    else (data, freeList)
  | none => (data, freeList)

/-- The extents that `truncate` leaves. -/
def truncateData (data : DataList) (freeList : FreeList) (size : ℕ) : DataList × FreeList :=
  let deleted := data.entries.filter fun extent => size ≤ extent.1
  cutLast (data.filter fun extent => extent.1 < size) (deallocateAll freeList deleted) size

def Snapshot.truncate (s : Snapshot) (path : Path) (size : Int64) : Snapshot :=
  let file := { getOrOpen s.files path with size := .exactly size.toUInt64 }
  match file.data with
  | some data =>
    let (data, freeList) := truncateData data s.freeList size.toUInt64.toNat
    { s with files := s.files.insert path { file with data := some data }, freeList }
  | none => { s with files := s.files.insert path file }

/-- This is only valid for `posix_fallocate`, which only extends the file. -/
def FileSize.atLeast (size : FileSize) (nsize : UInt64) : FileSize :=
  match size with
  | .exactly held => if held < nsize then .exactly nsize else .exactly held
  | .moreThan held => if held < nsize then .moreThan nsize else .moreThan held
  | .unknown => .moreThan nsize

def File.setXattr (file : File) (name : Name) (value : Option (List UInt8)) : File :=
  { file with xattrs := some ((file.xattrs.getD .empty).insert name value) }

/-- One turn of the loop of `merge_from`. -/
def Snapshot.mergeCall (s : Snapshot) : VFSCall → Except Failure Snapshot
  | .rename source dest _ => .ok (s.rename source dest)
  | .mknod path mode rdev (.unix uid gid) =>
    s.insertNew path { File.default with
      uid := some uid, gid := some gid, mode := some mode, ty := .special rdev, data := some .empty }
  | .mkdir path (.unix uid gid) mode =>
    s.insertNew path { File.default with
      uid := some uid, gid := some gid, mode := some mode, ty := .directory }
  | .symlink source dest (.unix uid gid) =>
    s.insertNew dest { File.default with uid := some uid, gid := some gid, ty := .symlink source }
  | .link source dest (.unix uid gid) => do
    let data ← sharedData (s.files.find source)
    s.insertNew dest { File.default with
      uid := some uid, gid := some gid, ty := .hardlink source, data := some data }
  | .create path flags (.unix uid gid) mode =>
    .ok { s with files := s.files.insert path { File.default with
      uid := some uid, gid := some gid, mode := some mode, ty := .new flags, data := some .empty } }
  | .unlink path => .ok (s.remove path)
  | .rmdir path => .ok (s.remove path)
  | .security path (.unix uid gid) =>
    .ok (s.amend path fun file => { file with uid := some uid, gid := some gid })
  | .chmod path mode => .ok (s.amend path fun file => { file with mode := some mode })
  | .truncate path size => .ok (s.truncate path size)
  | .fallocate path _ offset length =>
    .ok (s.amend path fun file => { file with size := file.size.atLeast (offset + length).toUInt64 })
  | .write path offset buf => s.encodeWrite path offset.toUInt64.toNat buf
  | .diffWrite path offset buf => s.encodeWrite path offset.toUInt64.toNat buf
  | .setxattr path name value _ => .ok (s.amend path fun file => file.setXattr name (some value))
  | .removexattr path name => .ok (s.amend path fun file => file.setXattr name none)
  | .utimens path timespec => .ok (s.amend path fun file => { file with time := some timespec })
  | .fsync _ _ => .ok s
  | .truncatingWrite _ _ _ _ => .error (.panic "This is a bullshit vfscall")
  | _ => .error (.panic "Not handled, maybe windows stuff?")

/-- `Snapshot::merge_from`. -/
def Snapshot.mergeFrom (s : Snapshot) (calls : List VFSCall) : Except Failure Snapshot :=
  calls.foldlM Snapshot.mergeCall s

/-! ### What one call does

The calls that only enter a new file, or only change the fields of one, differ
in the file and the change. -/

def Snapshot.put (s : Snapshot) (path : Path) (file : File) : Snapshot :=
  { s with files := s.files.insert path file }

/-- The entry of a new node, directory or symbolic link. -/
inductive Makes : VFSCall → Path → File → Prop where
  | mknod : Makes (.mknod path mode rdev (.unix uid gid)) path { File.default with
      uid := some uid, gid := some gid, mode := some mode, ty := .special rdev, data := some .empty }
  | mkdir : Makes (.mkdir path (.unix uid gid) mode) path { File.default with
      uid := some uid, gid := some gid, mode := some mode, ty := .directory }
  | symlink : Makes (.symlink source path (.unix uid gid)) path { File.default with
      uid := some uid, gid := some gid, ty := .symlink source }

/-- A change of fields that leaves the extents alone. -/
inductive Amends : VFSCall → Path → (File → File) → Prop where
  | security : Amends (.security path (.unix uid gid)) path
      fun file => { file with uid := some uid, gid := some gid }
  | chmod : Amends (.chmod path mode) path fun file => { file with mode := some mode }
  | fallocate : Amends (.fallocate path mode offset length) path
      fun file => { file with size := file.size.atLeast (offset + length).toUInt64 }
  | setxattr : Amends (.setxattr path name value flags) path fun file => file.setXattr name (some value)
  | removexattr : Amends (.removexattr path name) path fun file => file.setXattr name none
  | utimens : Amends (.utimens path timespec) path fun file => { file with time := some timespec }

def newFile (uid gid mode : UInt32) (flags : Int32) : File :=
  { File.default with
    uid := some uid, gid := some gid, mode := some mode, ty := .new flags, data := some .empty }

def linkedFile (uid gid : UInt32) (source : Path) (data : DataList) : File :=
  { File.default with uid := some uid, gid := some gid, ty := .hardlink source, data := some data }

/-- Everything that a call does when `merge_from` accepts it. -/
inductive Merges (s : Snapshot) : VFSCall → Snapshot → Prop where
  | make (makes : Makes call path file) (absent : s.files.find path = none) : Merges s call (s.put path file)
  | amend (amends : Amends call path f) : Merges s call (s.amend path f)
  | rename : Merges s (.rename source dest flags) (s.rename source dest)
  | link (shared : sharedData (s.files.find source) = .ok data) (absent : s.files.find dest = none) :
      Merges s (.link source dest (.unix uid gid)) (s.put dest (linkedFile uid gid source data))
  | create : Merges s (.create path flags (.unix uid gid) mode) (s.put path (newFile uid gid mode flags))
  | unlink : Merges s (.unlink path) (s.remove path)
  | rmdir : Merges s (.rmdir path) (s.remove path)
  | truncate : Merges s (.truncate path size) (s.truncate path size)
  | write (wrote : s.encodeWrite path offset.toUInt64.toNat buf = .ok s') :
      Merges s (.write path offset buf) s'
  | diffWrite (wrote : s.encodeWrite path offset.toUInt64.toNat buf = .ok s') :
      Merges s (.diffWrite path offset buf) s'
  | fsync : Merges s (.fsync path isdatasync) s

theorem insertNew_ok {s s' : Snapshot} (inserted : s.insertNew path file = .ok s') :
    s.files.find path = none ∧ s' = s.put path file := by
  unfold Snapshot.insertNew at inserted
  split at inserted
  · next absent => exact ⟨absent, (Except.ok.inj inserted).symm⟩
  · cases inserted

theorem merges_of_mergeCall {s s' : Snapshot} (merged : s.mergeCall call = .ok s') : Merges s call s' := by
  unfold Snapshot.mergeCall at merged
  split at merged
  · cases merged; exact .rename
  · obtain ⟨absent, rfl⟩ := insertNew_ok merged; exact .make .mknod absent
  · obtain ⟨absent, rfl⟩ := insertNew_ok merged; exact .make .mkdir absent
  · obtain ⟨absent, rfl⟩ := insertNew_ok merged; exact .make .symlink absent
  · obtain ⟨data, shared, merged⟩ := bind_ok.mp merged
    obtain ⟨absent, rfl⟩ := insertNew_ok merged
    exact .link shared absent
  · cases merged; exact .create
  · cases merged; exact .unlink
  · cases merged; exact .rmdir
  · cases merged; exact .amend .security
  · cases merged; exact .amend .chmod
  · cases merged; exact .truncate
  · cases merged; exact .amend .fallocate
  · exact .write merged
  · exact .diffWrite merged
  · cases merged; exact .amend .setxattr
  · cases merged; exact .amend .removexattr
  · cases merged; exact .amend .utimens
  · cases merged; exact .fsync
  · cases merged
  · cases merged

/-- What every accepted call keeps holds after any number of them. -/
theorem mergeFrom_induction (Inv : Snapshot → Prop) {calls : List VFSCall} {s s' : Snapshot}
    (step : ∀ call ∈ calls, ∀ s s', Inv s → Merges s call s' → Inv s') (started : Inv s)
    (merged : s.mergeFrom calls = .ok s') : Inv s' := by
  induction calls generalizing s with
  | nil => cases merged; exact started
  | cons call rest ih =>
    rw [Snapshot.mergeFrom, List.foldlM_cons] at merged
    obtain ⟨middle, first, merged⟩ := bind_ok.mp merged
    refine ih (fun call listed => step call (List.mem_cons_of_mem _ listed)) ?_ merged
    exact step call List.mem_cons_self s middle started (merges_of_mergeCall first)

/-! ### Compaction, and the file on disk -/

/-- The state of `compact` within one file. -/
structure Compaction where
  merged : DataList
  run : ℕ × Block
  freeList : FreeList
  serialised : ByteFile.File

def emptyRun : ℕ × Block := (0, ⟨0, 0⟩)

/-- The moved block joins the run, or starts a new one. -/
def Compaction.addToRun (c : Compaction) (offset : ℕ) (block newBlock : Block) : Compaction :=
  if c.run = emptyRun then { c with run := (offset, newBlock) }
  else if u64 (c.run.1 + c.run.2.size) = offset ∧
      u64 (c.run.2.location + c.run.2.size) = newBlock.location then
    { c with run := (c.run.1, ⟨c.run.2.location, u64 (c.run.2.size + block.size)⟩) }
  else { c with merged := c.merged.insert c.run.1 c.run.2, run := (offset, newBlock) }

/-- One extent: it is moved down if it lies behind the space that is needed. -/
def Compaction.step (endOfData wastedSpace : ℕ) (c : Compaction) (extent : ℕ × Block) :
    Except Failure Compaction := do
  let (offset, block) := extent
  if usub endOfData wastedSpace < block.location then
    let (newBlock, freeList) ← allocate c.freeList block.size
      (some (u64 (c.run.2.location + c.run.2.size)))
    if block.location < newBlock.location then
      -- Don't let blocks move up
      .ok { c with freeList := deallocate freeList newBlock, merged := c.merged.insert offset block }
    else
      let serialised ← traced (moveFileRange c.serialised block.location newBlock.location block.size)
      let c := Compaction.addToRun { c with freeList, serialised } offset block newBlock
      .ok { c with freeList := deallocate c.freeList block }
  else .ok { c with merged := c.merged.insert offset block }

def Compaction.finish (c : Compaction) : DataList :=
  if c.run.1 ≠ 0 then c.merged.insert c.run.1 c.run.2 else c.merged

/-- The key of the last free region. -/
def endOfData (freeList : FreeList) : Except Failure ℕ :=
  match freeList.entries.getLast? with
  | some entry => .ok entry.1
  | none => .error (.panic "called `Option::unwrap()` on a `None` value")

/-- The free bytes in front of the last free region. -/
def wastedSpace (freeList : FreeList) : ℕ := u64 (freeList.entries.dropLast.map Prod.snd).sum

/-- `compact` over the files still to come. `spare` is the test that less than
five percent are wasted, which is made in floating point. -/
def Snapshot.compactFiles (spare : ℕ → ℕ → Bool) : List (Path × File) → Snapshot → Except Failure Snapshot
  | [], s => .ok s
  | (path, file) :: rest, s =>
    match file.data with
    | none => s.compactFiles spare rest
    | some data => do
      let wasted := wastedSpace s.freeList
      let stop ← endOfData s.freeList
      -- Don't bother with compaction if wasted space is below 5%
      if spare wasted stop then .ok s
      else
        let c ← data.entries.foldlM (Compaction.step stop wasted)
          { merged := .empty, run := emptyRun, freeList := s.freeList, serialised := s.serialised }
        Snapshot.compactFiles spare rest
          { s with files := s.files.insert path { file with data := some c.finish },
                   freeList := c.freeList, serialised := c.serialised }

/-- `Snapshot::compact`. -/
def Snapshot.compact (spare : ℕ → ℕ → Bool) (s : Snapshot) : Except Failure Snapshot :=
  s.compactFiles spare s.files.entries

/-- `Snapshot::finalize`, to the file it leaves. -/
def Snapshot.finalize (spare : ℕ → ℕ → Bool) (codec : Codec Files) (s : Snapshot) :
    Except Failure ByteFile.File := do
  let s ← s.compact spare
  let stop ← endOfData s.freeList
  let cut ← if stop ≤ offMax then .ok (setLen s.serialised stop) else .error (.io .fileTooLarge)
  let written ← traced (writeAllAt cut (codec.encode s.files) stop)
  let checksum := Crc32.checksumIeee (written.drop headerSize)
  traced (writeAllAt written (encodeHeader { s.header with checksum, ftOffset := stop }) 0)

/-- `Snapshot::open`. -/
def Snapshot.open (codec : Codec Files) (fromFile : ByteFile.File) : Except Failure Snapshot :=
  match decodeHeader fromFile with
  | none => .error (.io (.other "deserialize"))
  | some header =>
    match codec.decode (fromFile.drop header.ftOffset) with
    | none => .error (.io (.other "deserialize"))
    | some (files, _) =>
      .ok { header, files, serialised := fromFile,
            freeList := SortedMap.empty.insert header.ftOffset usizeMax }

end Fsyncer.SnapshotStore
