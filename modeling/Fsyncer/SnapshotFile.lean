import Fsyncer.SnapshotStore
import Mathlib.Data.Countable.Basic
import Mathlib.Logic.Equiv.List
import Mathlib.Tactic.DeriveCountable

/-! The file that `finalize` leaves and `open` reads: the header, the data up to
the end, and behind it the table of files. Opened again, it gives the table and
all data back, with everything behind the data free. -/
namespace Fsyncer.SnapshotFile
open Fsyncer.ByteFile (Failure offMax setLen length_setLen splice writeAllAt)
open Fsyncer.JournalStore (SystemTime systemTime traced traced_ok)
open Fsyncer.Machine Fsyncer.SnapshotStore Fsyncer.Wire

/-! ### The header -/

theorem decodeTime_encodeTime (moment : SystemTime) (rest : List UInt8) :
    decodeTime (encodeTime moment ++ rest) = some (moment, rest) := by
  have secs := moment.secs_lt
  have nanos := moment.nanos_lt
  have carry : moment.nanos / 10 ^ 9 = 0 := Nat.div_eq_of_lt nanos
  have made : systemTime moment.secs moment.nanos = some moment := by
    unfold systemTime
    rw [dif_pos (by omega)]
    simp only [carry, Nat.add_zero, Nat.mod_eq_of_lt nanos]
  unfold decodeTime encodeTime
  rw [List.append_assoc, takeLe_leBytes_of_lt 8 (by omega)]
  dsimp only [Option.bind_eq_bind, Option.bind_some]
  rw [takeLe_leBytes_of_lt 4 (by omega)]
  dsimp only [Option.bind_some]
  rw [made]
  rfl

theorem SnapshotType.ofIndex_index (ty : SnapshotType) : SnapshotType.ofIndex ty.index = some ty := by
  cases ty <;> rfl

theorem SnapshotType.index_lt (ty : SnapshotType) : ty.index < 256 ^ 4 := by
  cases ty <;> decide

/-- A header is read back as it was written, whatever follows it. -/
theorem decodeHeader_encodeHeader (header : Header) (small : header.ftOffset < 2 ^ 64) (rest : List UInt8) :
    decodeHeader (encodeHeader header ++ rest) = some header := by
  have checksum := header.checksum.toNat_lt
  unfold decodeHeader encodeHeader
  simp only [List.append_assoc]
  rw [takeLe_leBytes_of_lt 4 (SnapshotType.index_lt header.ty)]
  dsimp only [Option.bind_eq_bind, Option.bind_some]
  rw [SnapshotType.ofIndex_index]
  dsimp only [Option.bind_some]
  rw [takeLe_leBytes_of_lt 8 (by omega)]
  dsimp only [Option.bind_some]
  rw [decodeTime_encodeTime]
  dsimp only [Option.bind_some]
  rw [decodeTime_encodeTime]
  dsimp only [Option.bind_some]
  rw [takeLe_leBytes_of_lt 4 (by omega)]
  dsimp only [Option.bind_some]
  rw [UInt32.ofNat_toNat]

/-! ### The file -/

theorem getElem?_setLen {file : ByteFile.File} (inside : i < length) (held : i < file.length) :
    (setLen file length)[i]? = file[i]? := by
  rw [setLen, List.getElem?_append_left (by rw [List.length_take]; omega), List.getElem?_take_of_lt inside]

/-- A write where the file ends is appended to it. -/
theorem append_of_writeAllAt {file : ByteFile.File} (wrote : writeAllAt file bytes file.length = .ok after) :
    after = file ++ bytes := by
  unfold writeAllAt at wrote
  split at wrote
  · next none => cases wrote; rw [none, List.append_nil]
  · split at wrote
    · cases wrote
      simp [splice]
    · cases wrote

/-- A write at the start of a file that is long enough. -/
theorem splice_of_writeAllAt (wrote : writeAllAt file bytes 0 = .ok after) : after = bytes ++ file.drop bytes.length := by
  unfold writeAllAt at wrote
  split at wrote
  · next none => cases wrote; rw [none]; rfl
  · split at wrote
    · cases wrote
      simp [splice]
    · cases wrote

/-- The parts of the file that a snapshot with end of data `stop` is put into. -/
structure OnDisk (codec : Codec Files) (s : Snapshot) (stop : ℕ) (file : ByteFile.File) : Prop where
  header : ∃ checksum, file.take headerSize = encodeHeader { s.header with checksum, ftOffset := stop }
  data : ∀ i, headerSize ≤ i → i < stop → i < s.serialised.length → file[i]? = s.serialised[i]?
  table : file.drop stop = codec.encode s.files

theorem onDisk_of_finalize {s : Snapshot} (done : s.finalize spare codec = .ok file) :
    ∃ s' stop, s.compact spare = .ok s' ∧ endOfData s'.freeList = .ok stop ∧ stop ≤ offMax ∧
      (headerSize ≤ stop → OnDisk codec s' stop file) := by
  unfold Snapshot.finalize at done
  obtain ⟨s', compacted, done⟩ := bind_ok.mp done
  obtain ⟨stop, last, done⟩ := bind_ok.mp done
  dsimp only at done
  split at done
  · next low =>
    obtain ⟨cut, shortened, done⟩ := bind_ok.mp done
    cases shortened
    obtain ⟨written, wrote, done⟩ := bind_ok.mp done
    refine ⟨s', stop, compacted, last, low, fun behind => ?_⟩
    have length := length_setLen s'.serialised stop
    have body : written = setLen s'.serialised stop ++ codec.encode s'.files :=
      append_of_writeAllAt (length.symm ▸ traced_ok wrote)
    have whole := splice_of_writeAllAt (traced_ok done)
    have front (header : Header) : (encodeHeader header).length = headerSize := length_encodeHeader header
    rw [front] at whole
    subst whole
    refine ⟨⟨_, List.take_left' (front _)⟩, fun i low high held => ?_, ?_⟩
    · rw [List.getElem?_append_right (by rw [front]; exact low), front, List.getElem?_drop, body,
        List.getElem?_append_left (by omega), Nat.add_sub_cancel' low, getElem?_setLen high held]
    · rw [List.drop_append, List.drop_eq_nil_of_le (by rw [front]; exact behind), List.nil_append, front, List.drop_drop,
        Nat.add_sub_cancel' behind, body, List.drop_left' length]
  · obtain ⟨cut, shortened, -⟩ := bind_ok.mp done
    cases shortened

/-- Only a file that would be too large is not written. -/
theorem finalize_succeeds {s s' : Snapshot} (codec : Codec Files) (compacted : s.compact spare = .ok s')
    (last : endOfData s'.freeList = .ok stop) (room : stop + (codec.encode s'.files).length ≤ offMax) :
    ∃ file, s.finalize spare codec = .ok file := by
  have wrote (file : ByteFile.File) (bytes : List UInt8) (offset : ℕ) (fits : offset + bytes.length ≤ offMax) :
      ∃ after, traced (writeAllAt file bytes offset) = .ok after := by
    unfold writeAllAt
    split <;> exact ⟨_, rfl⟩
  obtain ⟨written, first⟩ := wrote (setLen s'.serialised stop) _ stop room
  obtain ⟨file, second⟩ := wrote written (encodeHeader
      { s'.header with checksum := Crc32.checksumIeee (written.drop headerSize), ftOffset := stop }) 0
    (by rw [length_encodeHeader]; decide)
  refine ⟨file, bind_ok.mpr ⟨s', compacted, bind_ok.mpr ⟨stop, last, ?_⟩⟩⟩
  dsimp only
  rw [if_pos (by omega)]
  exact bind_ok.mpr ⟨_, rfl, bind_ok.mpr ⟨written, first, second⟩⟩

/-- A file on disk is opened to the snapshot it was made of, with everything
behind the data free. -/
theorem OnDisk.opens {s : Snapshot} (onDisk : OnDisk codec s stop file) (small : stop ≤ offMax) :
    ∃ checksum, Snapshot.open codec file = .ok {
      header := { s.header with checksum, ftOffset := stop }
      files := s.files
      serialised := file
      freeList := SortedMap.empty.insert stop usizeMax } := by
  obtain ⟨checksum, header⟩ := onDisk.header
  refine ⟨checksum, ?_⟩
  have split : file = encodeHeader { s.header with checksum, ftOffset := stop } ++ file.drop headerSize := by
    rw [← header, List.take_append_drop]
  have limit : offMax < 2 ^ 64 := by decide
  have read : decodeHeader file = some { s.header with checksum, ftOffset := stop } := by
    rw [split]
    exact decodeHeader_encodeHeader _ (show stop < 2 ^ 64 by omega) _
  have table := codec.decode_encode s.files []
  rw [List.append_nil] at table
  unfold Snapshot.open
  rw [read]
  dsimp only
  rw [onDisk.table, table]

/-! ### Codecs of the table

There are codecs of every countable type, so there are some of tables of files;
and any one table may have a short encoding. -/

/-- A number as that many ones, closed by a zero. -/
def encodeUnary (value : ℕ) : List UInt8 := List.replicate value 1 ++ [0]

def decodeUnary : List UInt8 → Option (ℕ × List UInt8)
  | [] => none
  | byte :: rest => if byte = 0 then some (0, rest) else (decodeUnary rest).map fun (value, rest) => (value + 1, rest)

def unary : Codec ℕ where
  encode := encodeUnary
  decode := decodeUnary
  decode_encode value rest := by
    induction value with
    | zero => rfl
    | succ value ih =>
      rw [encodeUnary, List.replicate_succ, List.cons_append, List.cons_append, decodeUnary, if_neg (by decide)]
      rw [encodeUnary] at ih
      rw [ih]
      rfl

theorem exists_codec {T : Type} [Countable T] (value : T) : ∃ codec : Codec T, codec.encode value = [0] := by
  obtain ⟨number, injective⟩ := exists_injective_nat T
  have swapped : Function.Injective (Equiv.swap (number value) 0 ∘ number) := (Equiv.injective _).comp injective
  refine ⟨unary.through _ (Function.partialInv _) fun value => Function.partialInv_left swapped value, ?_⟩
  show encodeUnary (Equiv.swap (number value) 0 (number value)) = [0]
  rw [Equiv.swap_apply_left]
  rfl

instance countableUInt8 : Countable UInt8 := Function.Injective.countable (f := UInt8.toNat) fun _ _ => UInt8.toNat_inj.mp
instance countableUInt32 : Countable UInt32 := Function.Injective.countable (f := UInt32.toNat) fun _ _ => UInt32.toNat_inj.mp
instance countableUInt64 : Countable UInt64 := Function.Injective.countable (f := UInt64.toNat) fun _ _ => UInt64.toNat_inj.mp
instance countableInt32 : Countable Int32 := Function.Injective.countable (f := Int32.toInt) fun _ _ => Int32.toInt_inj.mp
instance countableInt64 : Countable Int64 := Function.Injective.countable (f := Int64.toInt) fun _ _ => Int64.toInt_inj.mp

instance countableSortedMap {K V : Type} [LinearOrder K] [Countable K] [Countable V] : Countable (SortedMap K V) :=
  Function.Injective.countable (f := SortedMap.entries) fun first second same => by
    cases first
    cases second
    cases same
    rfl

deriving instance Countable for Vfs.Timespec, FileType, FileSize, Block
deriving instance Countable for SnapshotStore.File

end Fsyncer.SnapshotFile
