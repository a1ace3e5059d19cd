import Fsyncer.Bilog
import Fsyncer.JournalRecovery

/-! Journaling a call before it runs: the entry is made from the state met, put
into bytes and written at the tail of the journal. An unlink that is recorded as
a file to be kept in the file store is then not executed at all. -/
namespace Fsyncer.BilogRecord
open Fsyncer.ByteFile Fsyncer.FileTree Fsyncer.Vfs Fsyncer.Wire Fsyncer.Machine
open Fsyncer.JournalStore Fsyncer.JournalLayout Fsyncer.JournalWrite Fsyncer.Bilog

section Serialisation

/-- The text of a path; the root is a lone slash. -/
def pathText (path : Path) : List UInt8 := if path = [] then [0x2F] else pathBytes path

/-- The primitive values that entries are serialised as. -/
inductive Field where
  | str (text : List UInt8)
  | vec (bytes : List UInt8)
  | flag (value : Bool)
  | word (value : UInt32)
  | long (value : UInt64)
  deriving DecidableEq, Repr

namespace Field

/-- Only a string has to be of a certain form. -/
def valid : Field → Bool
  | str text => continuesUtf8 [] text
  | _ => true

def encode : Field → List UInt8
  | str text => leBytes 8 text.length ++ text
  | vec bytes => leBytes 8 bytes.length ++ bytes
  | flag value => [if value then 1 else 0]
  | word value => leBytes 4 value.toNat
  | long value => leBytes 8 value.toNat

def size : Field → ℕ
  | str text => 8 + text.length
  | vec bytes => 8 + bytes.length
  | flag _ => 1
  | word _ => 4
  | long _ => 8

/-- A path is serialised as a string. -/
def path (path : Path) : Field := str (pathText path)

def signed (value : Int64) : Field := long value.toUInt64

def timespec (spec : Timespec) : List Field := [signed spec.high, signed spec.low]

def option : Option (List UInt8) → List Field
  | none => [flag false]
  | some bytes => [flag true, vec bytes]

theorem length_encode (field : Field) : field.encode.length = field.size := by
  cases field with
  | str text => simp [encode, size]
  | vec bytes => simp [encode, size]
  | flag value => rfl
  | word value => exact length_leBytes ..
  | long value => exact length_leBytes ..

end Field

/-- The variant's index and its fields in the order of their declaration. -/
def fields : BilogEntry → List Field
  | .chmod x => [.word 0, .path x.path, .word x.mode, .word x.checksum]
  | .chown x => [.word 1, .path x.path, .word x.uid, .word x.gid, .word x.checksum]
  | .utimens x => [.word 2, .path x.path] ++ Field.timespec x.timespec.1 ++ Field.timespec x.timespec.2.1 ++
      Field.timespec x.timespec.2.2 ++ [.word x.checksum]
  | .rename x => [.word 3, .path x.source, .path x.dest, .flag x.fromExists]
  | .dir x => [.word 4, .path x.path, .word x.mode, .flag x.dirExists, .word x.uid, .word x.gid]
  | .symlink x => [.word 5, .str x.source, .path x.dest, .flag x.toExists, .word x.uid, .word x.gid]
  | .link x => [.word 6, .path x.source, .path x.dest, .flag x.toExists, .word x.uid, .word x.gid]
  | .node x => [.word 7, .path x.path, .word x.mode, .long x.rdev, .flag x.present, .word x.uid, .word x.gid]
  | .file x => [.word 8, .path x.path, .word x.mode, .flag x.present, .word x.uid, .word x.gid]
  | .filestore path token => [.word 9, .path path, .long token]
  | .truncate x => [.word 10, .path x.path, .signed x.size, .vec x.buf, .word x.checksum]
  | .write x => [.word 11, .path x.path, .signed x.offset, .vec x.buf, .signed x.length, .word x.checksum]
  | .xattr x => [.word 12, .path x.path, .vec x.name] ++ Field.option x.value ++ [.flag x.remove, .word x.checksum]

/-- `bincode::serialize`, which refuses a path that is no string. -/
def serialize (entry : BilogEntry) : Option (List UInt8) :=
  if (fields entry).all Field.valid then some ((fields entry).flatMap Field.encode) else none

/-- The number of bytes of the serialised entry. -/
def serializedSize (entry : BilogEntry) : ℕ := ((fields entry).map Field.size).sum

theorem length_serialize (done : serialize entry = some bytes) : bytes.length = serializedSize entry := by
  rw [serialize] at done
  split at done
  · cases done
    rw [List.length_flatMap, serializedSize]
    simp only [Field.length_encode]
  · cases done

end Serialisation

section Record

/-- `write_entry` for a bilog entry. -/
def record (j : Journal) (now : SystemTime) (entry : BilogEntry) : Except Failure Journal :=
  match serialize entry with
  | some bytes => j.writeEntry (Codec.only bytes) now ()
  | none => do
    let _ ← j.writeMarker (Codec.only []) now
    throw (.io (.other "path contains invalid UTF-8 characters"))

/-- A journal whose ring lies in its file, at offsets that the system can address. -/
structure Standing (j : Journal) : Prop where
  ring : Ring j
  signed : headerSize + j.size ≤ offMax
  tail_lt : j.header.tail < 2 ^ 64

variable {j j' : Journal} {now : SystemTime} {entry : BilogEntry}

theorem Standing.roomy (standing : Standing j) : Roomy j := by
  intro off count fits
  have whole : off % j.size % blockSize = off % blockSize := Nat.mod_mod_of_dvd off standing.ring.size_dvd
  have inside := Nat.mod_lt off standing.ring.size_pos
  obtain ⟨blocks, size⟩ := standing.ring.size_dvd
  have split := Nat.div_add_mod (off % j.size) blockSize
  -- the block of the offset ends within the ring
  have earlier : off % j.size / blockSize + 1 ≤ blocks := by
    have lower : blockSize * (off % j.size / blockSize) < blockSize * blocks := by omega
    exact Nat.lt_of_mul_lt_mul_left lower
  have ends := Nat.mul_le_mul_left blockSize earlier
  have signed := standing.signed
  rw [Nat.mul_succ] at ends
  rw [Journal.fileOff]
  omega

theorem Standing.writeInner {codec : Codec T} {e : StoreEntry T} (standing : Standing j)
    (wrote : j.writeInner codec e = .ok j') : Standing j' := by
  obtain ⟨small, opened, opens, rfl⟩ := writeInner_ok standing.tail_lt wrote
  have open_ring : Ring opened ∧ opened.size = j.size := by
    rcases opens with ⟨-, closed⟩ | ⟨-, rfl⟩
    · obtain ⟨file, marked, rfl⟩ := closeBlock_ok closed
      refine ⟨standing.ring.grow rfl ?_, rfl⟩
      rcases marked with ⟨-, rfl⟩ | ⟨-, rfl⟩ <;> simp only [length_splice] <;> omega
    · exact ⟨standing.ring, rfl⟩
  refine ⟨open_ring.1.landed _, ?_, u64_lt _⟩
  rw [landed_size, open_ring.2]
  exact standing.signed

/-- A time marker can be written unless the clock has gone back. -/
theorem Standing.writeMarker (standing : Standing j) (codec : Codec T) :
    (∃ j', j.writeMarker codec now = .ok j' ∧ Standing j') ↔ j.lastTime.total ≤ now.total := by
  rw [Journal.writeMarker]
  by_cases early : now.total < j.lastTime.total
  · rw [if_pos early]
    exact iff_of_false (by rintro ⟨_, failed, -⟩; cases failed) (by omega)
  · rw [if_neg early]
    refine iff_of_true ?_ (by omega)
    split
    · obtain ⟨marked, wrote⟩ := @Roomy.writeInner _ codec j
        { fsize := 0, transId := j.header.transCtr, inner := .time now, crc32 := 0 } standing.roomy
        standing.tail_lt (by rw [length_encodeEntry, blockSize_eq]; simp [encodeContent])
      have after := standing.writeInner wrote
      exact ⟨_, bind_ok.mpr ⟨marked, wrote, rfl⟩, ⟨after.ring.grow rfl le_rfl, after.signed, after.tail_lt⟩⟩
    · exact ⟨j, rfl, standing⟩

/-- Once the marker is down the entry can be written if it is smaller than a block. -/
theorem Standing.writeEntry (standing : Standing j) (codec : Codec T) (value : T) :
    (∃ j', j.writeEntry codec now value = .ok j') ↔
      j.lastTime.total ≤ now.total ∧ 16 + (codec.encode value).length < blockSize := by
  have length (marked : Journal) : (encodeEntry codec
      { fsize := 0, transId := marked.header.transCtr, inner := .payload value, crc32 := 0 }).length =
        16 + (codec.encode value).length := by
    rw [length_encodeEntry]
    simp only [encodeContent, List.length_append, length_leBytes]
    omega
  constructor
  · rintro ⟨j', wrote⟩
    obtain ⟨marked, marks, wrote⟩ := bind_ok.mp wrote
    have early : j.lastTime.total ≤ now.total := by
      by_contra before
      rw [Journal.writeMarker, if_pos (by omega)] at marks
      cases marks
    obtain ⟨after, same, stands⟩ := (standing.writeMarker codec).mpr early
    cases same.symm.trans marks
    obtain ⟨small, -⟩ := writeInner_ok stands.tail_lt wrote
    rw [length] at small
    exact ⟨early, small⟩
  · rintro ⟨early, small⟩
    obtain ⟨marked, marks, stands⟩ := (standing.writeMarker codec).mpr early
    obtain ⟨j', wrote⟩ := stands.roomy.writeInner stands.tail_lt (by rw [length marked]; exact small)
    exact ⟨j', bind_ok.mpr ⟨marked, marks, wrote⟩⟩

/-- What the journal takes: at a moment not before its last marker, an entry
whose paths are strings and that is smaller than a block. -/
theorem Standing.record_iff (standing : Standing j) : (∃ j', record j now entry = .ok j') ↔
    j.lastTime.total ≤ now.total ∧ (fields entry).all Field.valid = true ∧
      16 + serializedSize entry < blockSize := by
  rw [record]
  by_cases valid : (fields entry).all Field.valid = true
  · obtain ⟨bytes, done⟩ : ∃ bytes, serialize entry = some bytes := ⟨_, by rw [serialize, if_pos valid]⟩
    rw [done]
    have length : ((Codec.only bytes).encode ()).length = serializedSize entry := length_serialize done
    rw [standing.writeEntry, length]
    simp only [valid, true_and]
  · have refused : serialize entry = none := by rw [serialize, if_neg valid]
    rw [refused]
    refine iff_of_false ?_ (by rintro ⟨-, taken, -⟩; exact valid taken)
    rintro ⟨j', wrote⟩
    obtain ⟨_, -, failed⟩ := bind_ok.mp wrote
    cases failed

end Record

section PreOp

def Fault.ofFailure : Failure → Fault
  | .io error => .io error
  | .panic message => .panic message

/-- `Result::expect`: an error becomes a panic. -/
def expect (message : String) : Except Fault α → Except Fault α
  | .ok value => .ok value
  | .error (.panic cause) => .error (.panic cause)
  | .error _ => .error (.panic message)

theorem expect_ok {result : Except Fault α} : expect message result = .ok value ↔ result = .ok value := by
  cases result with
  | ok found => rfl
  | error fault => cases fault <;> exact iff_of_false (by rintro ⟨⟩) (by rintro ⟨⟩)

theorem mapError_ok {result : Except ε α} (f : ε → ε') : result.mapError f = .ok value ↔ result = .ok value := by
  cases result with
  | ok found => exact ⟨fun same => by cases same; rfl, fun same => by cases same; rfl⟩
  | error error => exact iff_of_false (by rintro ⟨⟩) (by rintro ⟨⟩)

/-- The result that `pre_op` returns in place of the call's own. -/
def bypass : BilogEntry → Option Int
  -- Bypass real unlink when using filestore
  | .filestore .. => some 0
  | _ => none

structure Recorded where
  ret : Option Int
  entry : BilogEntry
  journal : Journal

/-- `pre_op` with a bilog journal, behind the messages to the clients. -/
def preOp (host : Host) (t : Tree) (j : Journal) (now : SystemTime) (call : VFSCall) : Except Fault Recorded := do
  let bilog ← expect "Failed to generate journal entry from vfscall" (BilogEntry.tryFrom call host t)
  let journal ← expect "Failed to write journal entry" ((record j now bilog).mapError Fault.ofFailure)
  return { ret := bypass bilog, entry := bilog, journal }

variable {host : Host} {t : Tree} {j : Journal} {now : SystemTime}

/-- A call passes when it has an entry that the journal takes. -/
theorem preOp_ok : preOp host t j now call = .ok recorded ↔
    BilogEntry.tryFrom call host t = .ok recorded.entry ∧
      record j now recorded.entry = .ok recorded.journal ∧ recorded.ret = bypass recorded.entry := by
  simp only [preOp, bind_ok, expect_ok, mapError_ok]
  constructor
  · rintro ⟨entry, made, journal, wrote, same⟩
    cases same
    exact ⟨made, wrote, rfl⟩
  · rintro ⟨made, wrote, ret⟩
    refine ⟨_, made, _, wrote, ?_⟩
    rw [← ret]
    rfl

theorem Standing.preOp_iff (standing : Standing j) : (∃ recorded, preOp host t j now call = .ok recorded) ↔
    j.lastTime.total ≤ now.total ∧ ∃ entry, BilogEntry.tryFrom call host t = .ok entry ∧
      (fields entry).all Field.valid = true ∧ 16 + serializedSize entry < blockSize := by
  constructor
  · rintro ⟨recorded, passed⟩
    obtain ⟨made, wrote, -⟩ := preOp_ok.mp passed
    obtain ⟨early, valid, small⟩ := standing.record_iff.mp ⟨_, wrote⟩
    exact ⟨early, _, made, valid, small⟩
  · rintro ⟨early, entry, made, valid, small⟩
    obtain ⟨journal, wrote⟩ := standing.record_iff.mpr ⟨early, valid, small⟩
    exact ⟨⟨bypass entry, entry, journal⟩, preOp_ok.mpr ⟨made, wrote, rfl⟩⟩

end PreOp

section Unlink

/-- What a call returned, and what it left. -/
structure Outcome where
  res : Int
  tree : Tree
  entry : BilogEntry
  journal : Journal

def doUnlink (host : Host) (t : Tree) (j : Journal) (now : SystemTime) (path : Path) : Except Fault Outcome := do
  let opref ← preOp host t j now (.unlink path)
  match opref.ret with
  | some r => return { res := r, tree := t, entry := opref.entry, journal := opref.journal }
  | none =>
    let (res, tree) := status t (t.unlink (translatePath path host.fspath))
    return { res, tree, entry := opref.entry, journal := opref.journal }

/-- The file is gone, kept in the file store under the token of the entry, and
brought back with its content and owner by the entry. -/
structure Restorable (host : Host) (path : Path) (node : Inode) (out : Outcome) : Prop where
  gone : out.tree.names.find (translatePath path host.fspath) = none
  kept : ∃ token, out.entry = .filestore path token ∧
    (out.tree.inode? (translatePath (BilogEntry.storeName token) host.fspath)).map Inode.kind = some node.kind
  back : ∃ call after node', out.entry.apply host out.tree = .ok call ∧
    dispatch host.process host.fspath out.tree call = some (0, after) ∧
    after.inode? (translatePath path host.fspath) = some node' ∧
    node'.kind = node.kind ∧ node'.uid = node.uid ∧ node'.gid = node.gid

/-- A file that was unlinked with success can be restored. -/
def UnlinkRestorable (host : Host) (t : Tree) (j : Journal) (now : SystemTime) (path : Path) (node : Inode) : Prop :=
  ∀ out, doUnlink host t j now path = .ok out → out.res = 0 → Restorable host path node out

variable {host : Host} {t : Tree} {j : Journal} {now : SystemTime} {node : Inode}

theorem tryFrom_filestore (held : t.inode? (translatePath path host.fspath) = some node)
    (regular : node.kind = .reg data) (single : t.nlink (translatePath path host.fspath) = 1) (nonempty : data ≠ []) :
    BilogEntry.tryFrom (.unlink path) host t = .ok (.filestore path 0) := by
  have found : translateAndStat path host t = .ok node := by rw [translateAndStat, Tree.lstat, held]
  show BilogEntry.tryFromUnlink path host t = _
  simp [BilogEntry.tryFromUnlink, found, lift, regular, single, nonempty]
  rfl

/-- The token of the entry is the placeholder, and the tree is the one met. -/
theorem doUnlink_ok (held : t.inode? (translatePath path host.fspath) = some node)
    (regular : node.kind = .reg data) (single : t.nlink (translatePath path host.fspath) = 1) (nonempty : data ≠ [])
    (done : doUnlink host t j now path = .ok out) :
    out.res = 0 ∧ out.tree = t ∧ out.entry = .filestore path 0 := by
  obtain ⟨opref, passed, done⟩ := bind_ok.mp done
  obtain ⟨made, -, ret⟩ := preOp_ok.mp passed
  have entry := Except.ok.inj (made.symm.trans (tryFrom_filestore held regular single nonempty))
  rw [ret, entry] at done
  cases done
  exact ⟨rfl, rfl, rfl⟩

theorem size_filestore (path : Path) (token : UInt64) :
    16 + serializedSize (.filestore path token) = 36 + (pathText path).length := by
  simp [serializedSize, fields, Field.path, Field.size]
  omega

theorem valid_filestore (path : Path) (token : UInt64) :
    (fields (.filestore path token)).all Field.valid = continuesUtf8 [] (pathText path) := by
  simp [fields, Field.path, Field.valid]

/-- An unlink comes to an end exactly when `pre_op` does. -/
theorem doUnlink_iff : (∃ out, doUnlink host t j now path = .ok out) ↔
    ∃ recorded, preOp host t j now (.unlink path) = .ok recorded := by
  constructor
  · rintro ⟨out, done⟩
    obtain ⟨opref, passed, -⟩ := bind_ok.mp done
    exact ⟨opref, passed⟩
  · rintro ⟨opref, passed⟩
    rw [doUnlink, passed, ok_bind]
    split <;> exact ⟨_, rfl⟩

theorem find_ne_none {t : Tree} (held : t.inode? path = some node) : t.names.find path ≠ none := by
  intro absent
  rw [Tree.inode?, inodeIn, absent] at held
  cases held

/-- `pre_op` records the placeholder and makes the unlink return zero, but
nothing moves the file: it can be restored after a successful unlink only where
there is no successful unlink, because the journal does not take the entry. -/
theorem unlink_restorable_iff (standing : Standing j)
    (held : t.inode? (translatePath path host.fspath) = some node) (regular : node.kind = .reg data)
    (single : t.nlink (translatePath path host.fspath) = 1) (nonempty : data ≠ []) :
    UnlinkRestorable host t j now path node ↔
      now.total < j.lastTime.total ∨ continuesUtf8 [] (pathText path) = false ∨
        blockSize ≤ 36 + (pathText path).length := by
  have stays : UnlinkRestorable host t j now path node ↔ ¬ ∃ out, doUnlink host t j now path = .ok out := by
    constructor
    · rintro restorable ⟨out, done⟩
      obtain ⟨zero, same, -⟩ := doUnlink_ok held regular single nonempty done
      have gone := (restorable out done zero).gone
      rw [same] at gone
      exact find_ne_none held gone
    · intro never out done
      exact absurd ⟨out, done⟩ never
  have made := tryFrom_filestore held regular single nonempty
  rw [stays, doUnlink_iff, standing.preOp_iff]
  constructor
  · intro refused
    by_contra taken
    rw [not_or, not_or, Bool.not_eq_false] at taken
    refine refused ⟨by omega, _, made, ?_, ?_⟩
    · rw [valid_filestore]
      exact taken.2.1
    · rw [size_filestore]
      omega
  · rintro refused ⟨early, entry, made', valid, small⟩
    cases made'.symm.trans made
    rw [valid_filestore] at valid
    rw [size_filestore] at small
    rcases refused with late | invalid | large
    · omega
    · rw [invalid] at valid
      cases valid
    · omega

theorem standing_new (covers : headerSize + blockSize ≤ file.length) (signed : file.length ≤ offMax)
    (c : JournalConfig) (now : SystemTime) : Standing (Journal.new file c now) := by
  have started : JournalRecovery.Started (Journal.new file c now) := .new covers signed
  have sound := started.sound
  exact ⟨sound.ring, sound.ring.covers.trans signed, by rw [Journal.new]; exact Nat.two_pow_pos 64⟩

/-- A fresh journal of one block. -/
def freshJournal (now : SystemTime) : Journal :=
  Journal.new (List.replicate (headerSize + blockSize) 0) { sync := false, journalType := .bilog } now

theorem standing_freshJournal (now : SystemTime) : Standing (freshJournal now) := by
  have length : (List.replicate (headerSize + blockSize) (0 : UInt8)).length = headerSize + blockSize :=
    List.length_replicate
  refine standing_new (by rw [length]) ?_ _ now
  rw [length, headerSize_eq, blockSize_eq, offMax]
  omega

def noon : SystemTime := ⟨43200, 0, by decide, by decide⟩

def morning : SystemTime := ⟨28800, 0, by decide, by decide⟩

/-- The unlink of a file of one byte returns zero and leaves the file where it is. -/
theorem unlink_leaves_file : ∃ out, doUnlink plainHost (soloFile [7]) (freshJournal noon) noon [[102]] = .ok out ∧
    out.res = 0 ∧ out.tree.names.find [[102]] ≠ none ∧ out.entry = .filestore [[102]] 0 := by
  have held : (soloFile [7]).inode? (translatePath [[102]] plainHost.fspath) =
    some (plainHost.process.newInode (.reg [7]) 0o644) := rfl
  have single : (soloFile [7]).nlink (translatePath [[102]] plainHost.fspath) = 1 := by decide
  obtain ⟨out, done⟩ : ∃ out, doUnlink plainHost (soloFile [7]) (freshJournal noon) noon [[102]] = .ok out := by
    rw [doUnlink_iff, (standing_freshJournal noon).preOp_iff]
    refine ⟨le_rfl, _, tryFrom_filestore held rfl single (by decide), ?_, ?_⟩
    · rw [valid_filestore]
      decide
    · rw [size_filestore, blockSize_eq]
      decide
  obtain ⟨zero, same, entry⟩ := doUnlink_ok held rfl single (by decide) done
  refine ⟨out, done, zero, ?_, entry⟩
  rw [same]
  exact find_ne_none held

/-- With the clock set back the unlink is refused. -/
theorem unlink_before_last_marker :
    UnlinkRestorable plainHost (soloFile [7]) (freshJournal noon) morning [[102]]
      (plainHost.process.newInode (.reg [7]) 0o644) :=
  (unlink_restorable_iff (standing_freshJournal noon) rfl rfl (by decide) (by decide)).mpr
    (Or.inl (by decide))

end Unlink
end Fsyncer.BilogRecord
