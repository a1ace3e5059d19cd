import Fsyncer.Base.ByteFile
import Fsyncer.Base.Crc32
import Fsyncer.Base.Machine
import Fsyncer.Base.Wire

/-! The circular journal of `journal/store.rs`: a header followed by a ring of
fixed blocks. `head` and `tail` are logical offsets that only grow; the ring
position of an offset is its remainder by `size`. Entries never cross a block,
and a block that cannot take the next entry is closed with a zero length. -/
namespace Fsyncer.JournalStore
open Fsyncer.ByteFile Fsyncer.Crc32 Fsyncer.Machine Fsyncer.Wire

/-- `BLOCK_SIZE`. Proofs use its value only through `blockSize_eq`. -/
@[irreducible] def blockSize : ℕ := 1024 * 128

theorem blockSize_eq : blockSize = 131072 := by rw [blockSize]

inductive JournalType where
  | invalid
  | bilog
  | forward
  | undo
  deriving DecidableEq, Repr

/-- The variant index written in front of an enumeration's fields. -/
def JournalType.index : JournalType → ℕ
  | .invalid => 0
  | .bilog => 1
  | .forward => 2
  | .undo => 3

def JournalType.ofIndex : ℕ → Option JournalType
  | 0 => some .invalid
  | 1 => some .bilog
  | 2 => some .forward
  | 3 => some .undo
  | _ => none

structure JournalHeader where
  tail : ℕ
  head : ℕ
  transCtr : UInt32
  ty : JournalType
  deriving DecidableEq, Repr

def encodeHeader (header : JournalHeader) : List UInt8 :=
  leBytes 8 header.tail ++ leBytes 8 header.head ++ leBytes 4 header.transCtr.toNat ++
    leBytes 4 header.ty.index

def decodeHeader (bytes : List UInt8) : Option JournalHeader := do
  let (tail, bytes) ← takeLe 8 bytes
  let (head, bytes) ← takeLe 8 bytes
  let (transCtr, bytes) ← takeLe 4 bytes
  let (index, _) ← takeLe 4 bytes
  let ty ← JournalType.ofIndex index
  some { tail, head, transCtr := UInt32.ofNat transCtr, ty }

/-- `HEADER_SIZE`. -/
def headerSize : ℕ :=
  (encodeHeader { tail := 0, head := 0, transCtr := 0, ty := .invalid }).length

/-- A wall clock reading, counted from the epoch. -/
structure SystemTime where
  secs : ℕ
  nanos : ℕ
  secs_lt : secs < 2 ^ 64
  nanos_lt : nanos < 10 ^ 9
  deriving DecidableEq, Repr

theorem SystemTime.secs_zero : 0 < 2 ^ 64 := Nat.two_pow_pos 64

theorem SystemTime.nanos_zero : 0 < 10 ^ 9 := Nat.pow_pos (by decide)

inductive EntryContent (T : Type) where
  | payload (value : T)
  | time (moment : SystemTime)
  deriving DecidableEq, Repr

structure StoreEntry (T : Type) where
  fsize : UInt32
  transId : UInt32
  inner : EntryContent T
  crc32 : UInt32
  deriving DecidableEq, Repr

section Serialisation
variable {T : Type} (codec : Codec T)

def encodeContent : EntryContent T → List UInt8
  | .payload value => leBytes 4 0 ++ codec.encode value
  | .time moment => leBytes 4 1 ++ leBytes 8 moment.secs ++ leBytes 4 moment.nanos

/-- Nanoseconds beyond a second are carried, and a carry out of the seconds is
an error. -/
def systemTime (secs nanos : ℕ) : Option SystemTime :=
  if fits : secs + nanos / 10 ^ 9 < 2 ^ 64 then
    some ⟨secs + nanos / 10 ^ 9, nanos % 10 ^ 9, fits, Nat.mod_lt _ (by decide)⟩
  else none

def decodeContent (bytes : List UInt8) : Option (EntryContent T × List UInt8) := do
  let (index, bytes) ← takeLe 4 bytes
  if index = 0 then
    let (value, bytes) ← codec.decode bytes
    some (.payload value, bytes)
  else if index = 1 then
    let (secs, bytes) ← takeLe 8 bytes
    let (nanos, bytes) ← takeLe 4 bytes
    let moment ← systemTime secs nanos
    some (.time moment, bytes)
  else none

def encodeEntry (entry : StoreEntry T) : List UInt8 :=
  leBytes 4 entry.fsize.toNat ++ leBytes 4 entry.transId.toNat ++ encodeContent codec entry.inner ++
    leBytes 4 entry.crc32.toNat

/-- `bincode::deserialize`, which does not look at bytes after the value. -/
def deserialize (bytes : List UInt8) : Option (StoreEntry T) := do
  let (fsize, bytes) ← takeLe 4 bytes
  let (transId, bytes) ← takeLe 4 bytes
  let (inner, bytes) ← decodeContent codec bytes
  let (crc32, _) ← takeLe 4 bytes
  some ⟨UInt32.ofNat fsize, UInt32.ofNat transId, inner, UInt32.ofNat crc32⟩

end Serialisation

structure JournalConfig where
  sync : Bool
  journalType : JournalType

structure Journal where
  header : JournalHeader
  size : ℕ
  file : File
  sync : Bool
  lastTime : SystemTime

def alignUpAlways (off align : ℕ) : ℕ := u64 ((off / align + 1) * align)

/-- `off & !(align - 1)`: the alignments used are powers of two. -/
def alignDown (off align : ℕ) : ℕ := off / align * align

def Journal.fileOff (j : Journal) (off : ℕ) : ℕ := headerSize + off % j.size

/-- Lifts an input/output error into the caller's failures, as `trace!` does. -/
def traced (result : Except IoError α) : Except Failure α := result.mapError Failure.io

theorem traced_ok {result : Except IoError α} (succeeded : traced result = .ok value) :
    result = .ok value := by
  cases result with
  | error error => cases succeeded
  | ok found => cases succeeded; rfl

/-- `Journal::new`. -/
def Journal.new (file : File) (c : JournalConfig) (now : SystemTime) : Journal where
  header := { head := 0, tail := 0, transCtr := 0, ty := c.journalType }
  size := alignDown (usub file.length headerSize) blockSize
  file := file
  sync := c.sync
  lastTime := now

def Journal.writeHeader (j : Journal) : Except Failure Journal := do
  let file ← traced (writeAllAt j.file (encodeHeader j.header) 0)
  pure { j with file }

/-- The branch of `write_inner` for an entry that does not fit: the block is
closed with a zero length if there is room for one, `tail` moves to the next
block, and the header is written down. -/
def Journal.closeBlock (j : Journal) (spaceInBlock : ℕ) : Except Failure Journal := do
  let file ← if 4 ≤ spaceInBlock
    then traced (writeAllAt j.file [0, 0, 0, 0] (j.fileOff j.header.tail)) else pure j.file
  let tail := alignUpAlways j.header.tail blockSize
  -- Journal is full, will move head
  let head := if u64 (j.header.head + j.size) = tail then u64 (j.header.head + blockSize)
    else j.header.head
  Journal.writeHeader { j with file, header := { j.header with tail, head } }

/-- The last four bytes of a serialised entry are replaced by the checksum of
the bytes before them. -/
def sealBytes (sbuf : List UInt8) : List UInt8 :=
  let body := sbuf.take (sbuf.length - 4)
  body ++ leBytes 4 (checksumIeee body).toNat

/-- The end of `write_inner`: the serialised entry goes to the tail. -/
def Journal.layDown (j : Journal) (sbuf : List UInt8) (esize : ℕ) : Except Failure Journal := do
  let file ← traced (writeAllAt j.file sbuf (j.fileOff j.header.tail))
  let tail := u64 (j.header.tail + esize)
  pure { j with file, header := { j.header with tail, transCtr := j.header.transCtr + 1 } }

def Journal.writeInner (codec : Codec T) (j : Journal) (e : StoreEntry T) :
    Except Failure Journal := do
  let esize := (encodeEntry codec e).length
  if esize < blockSize then
    let e := { e with fsize := UInt32.ofNat esize }
    let spaceInBlock := usub (alignUpAlways j.header.tail blockSize) j.header.tail
    let j ← if spaceInBlock < esize then j.closeBlock spaceInBlock else pure j
    j.layDown (sealBytes (encodeEntry codec e)) esize
  else throw (.panic "Journal is too small for this entry")

/-- Nanoseconds since the epoch. -/
def SystemTime.total (moment : SystemTime) : ℕ := moment.secs * 10 ^ 9 + moment.nanos

/-- The first half of `write_entry`: a time marker when more than a second has
passed since the last one. -/
def Journal.writeMarker (codec : Codec T) (j : Journal) (now : SystemTime) :
    Except Failure Journal := do
  if now.total < j.lastTime.total then throw (.panic "System clock anomaly")
  else if 10 ^ 9 < now.total - j.lastTime.total then
    let j ← j.writeInner codec
      { fsize := 0, transId := j.header.transCtr, inner := .time now, crc32 := 0 }
    pure { j with lastTime := now }
  else pure j

/-- `Journal::write_entry`, at the moment `now`. -/
def Journal.writeEntry (codec : Codec T) (j : Journal) (now : SystemTime) (entry : T) :
    Except Failure Journal := do
  let j ← j.writeMarker codec now
  j.writeInner codec
    { fsize := 0, transId := j.header.transCtr, inner := .payload entry, crc32 := 0 }

structure JournalIterator (T : Type) where
  header : JournalHeader
  journal : Journal
  blockBuffer : List (StoreEntry T)

def Journal.readForward (j : Journal) : JournalIterator T := ⟨j.header, j, []⟩

def Journal.readReverse (j : Journal) : JournalIterator T := ⟨j.header, j, []⟩

/-- Where the next entry really starts: behind the zero length, or the few
spare bytes, that end a block. -/
def skipPadding (j : Journal) (head : ℕ) : Except IoError ℕ := do
  if usub (alignUpAlways head blockSize) head < 4 then pure (alignUpAlways head blockSize)
  else
    let buf ← readExactAt j.file (j.fileOff head) 4
    pure (if buf = [0, 0, 0, 0] then alignUpAlways head blockSize else head)

/-- Reads the length, then the whole entry, at a logical offset. -/
def fetchEntry (codec : Codec T) (j : Journal) (head : ℕ) : Except IoError (StoreEntry T) := do
  let buf ← readExactAt j.file (j.fileOff head) 4
  let buf ← readExactAt j.file (j.fileOff head) (leValue buf)
  match deserialize codec buf with
  | some entry => pure entry
  | none => throw (.other "deserialize")

/-- `JournalIterator<Forward>::next`. -/
def forwardNext (codec : Codec T) (it : JournalIterator T) :
    Option (Except Failure (StoreEntry T)) × JournalIterator T :=
  if it.header.head = it.header.tail then (none, it)
  else match skipPadding it.journal it.header.head with
    | .error error => (some (.error (.io error)), it)
    | .ok head =>
      match fetchEntry codec it.journal head with
      | .error error => (some (.error (.io error)), { it with header := { it.header with head } })
      | .ok entry =>
        (some (.ok entry),
          { it with header := { it.header with head := u64 (head + entry.fsize.toNat) } })

/-- The decoding loop of `JournalIterator<Reverse>::next`. It returns the block
buffer and the failure that stopped it, if any; `none` means that it was still
going when the fuel ran out. -/
def decodeBlock (codec : Codec T) (j : Journal) (tail : ℕ) :
    ℕ → ℕ → List (StoreEntry T) → Option (List (StoreEntry T) × Option Failure)
  | 0, _, _ => none
  | fuel + 1, decodeTail, buffer =>
    if usub tail decodeTail < 4 then some (buffer, none)
    else match readExactAt j.file (j.fileOff decodeTail) 4 with
      | .error error => some (buffer, some (.io error))
      | .ok buf =>
        if buf = [0, 0, 0, 0] then some (buffer, none)
        else if usub (alignUpAlways decodeTail blockSize) decodeTail < leValue buf then
          some (buffer, some (.io (.other "Entry too large")))
        else match readExactAt j.file (j.fileOff decodeTail) (leValue buf) with
          | .error error => some (buffer, some (.io error))
          | .ok buf =>
            -- the slice of the recorded checksum would start before the buffer
            if buf.length < 4 then some (buffer, some (.panic "range start out of range"))
            else if leValue (buf.drop (buf.length - 4)) ≠
                (checksumIeee (buf.take (buf.length - 4))).toNat then
              some (buffer, some (.io (.other "Entry checksum mismatch")))
            else match deserialize codec buf with
              | none => some (buffer, some (.io (.other "deserialize")))
              | some entry =>
                decodeBlock codec j tail fuel (u64 (decodeTail + buf.length)) (buffer ++ [entry])

/-- Takes the most recently decoded entry off the block buffer. -/
def popBuffer (it : JournalIterator T) : Option (Except Failure (StoreEntry T)) × JournalIterator T :=
  (it.blockBuffer.getLast?.map .ok, { it with blockBuffer := it.blockBuffer.dropLast })

/-- `JournalIterator<Reverse>::next`, with fuel for its loop. -/
def reverseNext (codec : Codec T) (fuel : ℕ) (it : JournalIterator T) :
    Option (Option (Except Failure (StoreEntry T)) × JournalIterator T) :=
  if it.blockBuffer.isEmpty then
    let tail := it.header.tail
    if it.header.head = tail ∨ tail = 0 then some (none, it)
    else
      let decodeTail := if tail % blockSize ≠ 0 then alignDown tail blockSize
        else usub tail blockSize
      match decodeBlock codec it.journal tail fuel decodeTail [] with
      | none => none
      | some (buffer, some failure) =>
        some (some (.error failure), { it with blockBuffer := buffer })
      | some (buffer, none) =>
        let tail := if tail % blockSize ≠ 0 then alignDown tail blockSize
          else if tail ≠ 0 ∧ tail ≠ it.header.head then usub tail blockSize else tail
        some (popBuffer { it with header := { it.header with tail }, blockBuffer := buffer })
  else some (popBuffer it)

def ForwardNext (codec : Codec T) (it : JournalIterator T)
    (item : Option (Except Failure (StoreEntry T))) (it' : JournalIterator T) : Prop :=
  forwardNext codec it = (item, it')

def ReverseNext (codec : Codec T) (it : JournalIterator T)
    (item : Option (Except Failure (StoreEntry T))) (it' : JournalIterator T) : Prop :=
  ∃ fuel, reverseNext codec fuel it = some (item, it')

/-- `n as u32` for a signed 64-bit `n`. -/
def asU32 (n : ℤ) : UInt32 := UInt32.ofNat (n % 2 ^ 32).toNat

/-- The loop of `Journal::open` that looks for the end of the block that was
being written. It returns the tail it settled on and the last transaction. -/
def traverseTail (j : Journal) : ℕ → ℕ → ℤ → Option (Except IoError (ℕ × ℤ))
  | 0, _, _ => none
  | fuel + 1, newTail, txMax =>
    if alignUpAlways j.header.tail blockSize < newTail then some (.ok (newTail, txMax))
    else if usub (alignUpAlways newTail blockSize) newTail < 4 then some (.ok (newTail, txMax))
    else match readExactAt j.file (j.fileOff newTail) 4 with
      | .error error => some (.error error)
      | .ok buf =>
        if leValue buf = 0 then some (.ok (newTail, txMax))  -- last entry in the block
        else match readExactAt j.file (j.fileOff newTail + 4) 4 with
          | .error error => some (.error error)
          | .ok next =>
            let newTail := u64 (newTail + leValue buf)
            -- Allows for overflow to happen
            if UInt32.ofNat (leValue next) ≠ asU32 (txMax + 1) then some (.ok (newTail, txMax))
            else traverseTail j fuel newTail (leValue next)

/-- The part of `Journal::open` before the traversal: the header as it was last
written, checked against the requested type. -/
def Journal.load (file : File) (c : JournalConfig) (now : SystemTime) : Except Failure Journal := do
  match decodeHeader file with
  | none => throw (.io (.other "deserialize"))
  | some header =>
    if c.journalType ≠ .invalid ∧ header.ty ≠ c.journalType then
      throw (.io (.other "Journal type on disk does not match requested"))
    else
      pure { header, size := alignDown (usub file.length headerSize) blockSize, file,
             sync := c.sync, lastTime := now }

/-- `Journal::open`, with fuel for its traversal. -/
def Journal.reopen (fuel : ℕ) (file : File) (c : JournalConfig) (now : SystemTime) :
    Option (Except Failure Journal) :=
  match Journal.load file c now with
  | .error failure => some (.error failure)
  | .ok j =>
    -- Because the ctr has been advanced before flush
    match traverseTail j fuel j.header.tail ((j.header.transCtr.toNat : ℤ) - 1) with
    | none => none
    | some (.error error) => some (.error (.io error))
    | some (.ok (newTail, txMax)) =>
      some (.ok { j with header := { j.header with tail := newTail, transCtr := asU32 (txMax + 1) } })

end Fsyncer.JournalStore
