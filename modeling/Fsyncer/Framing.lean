import Fsyncer.Base.ByteFile
import Fsyncer.Base.Machine
import Fsyncer.Base.Wire
import Fsyncer.Replication

/-! Messages on the wire from the server to a client. `Client::response_msg`
puts a big-endian length in front of each serialised message, after a realtime
compressor if one was asked for and into a stream compressor if one was asked
for; `ServerConnection::read_msg` takes them off again. The compressors are
libraries: all that is known about them is that they are lossless. -/
namespace Fsyncer.Framing
open Fsyncer.ByteFile Fsyncer.Machine Fsyncer.Wire
open Fsyncer.Replication (ClientMode ClientStatus)

variable {V : Type}

/-! ### Messages -/

structure CompMode where
  bits : UInt32
  deriving DecidableEq, Repr

namespace CompMode

def rtDsscChunked : CompMode := ⟨0b000010⟩
def rtDsscZstd : CompMode := ⟨0b000100⟩
def streamZstd : CompMode := ⟨0b001000⟩
def streamLz4 : CompMode := ⟨0b010000⟩
def streamMask : CompMode := ⟨0b011000⟩

def contains (mode flag : CompMode) : Bool := mode.bits &&& flag.bits == flag.bits

def intersects (mode flag : CompMode) : Bool := mode.bits &&& flag.bits != 0

end CompMode

structure InitMsg where
  mode : ClientMode
  dsthash : UInt64
  compress : CompMode
  iolimitBps : UInt64
  options : UInt32
  deriving DecidableEq, Repr

inductive ClientAck where
  | ack
  | dead
  | retCode (code : Int32)
  deriving DecidableEq, Repr

structure AckMsg where
  retcode : ClientAck
  tid : UInt64
  deriving DecidableEq, Repr

/-- `FsyncerMsg`, over the type of calls. -/
inductive FsyncerMsg (V : Type) where
  | initMsg (msg : InitMsg)
  | asyncOp (call : V)
  | syncOp (call : V) (tid : UInt64)
  | ack (msg : AckMsg)
  | cork (tid : UInt64)
  | ackCork (tid : UInt64)
  | uncork
  | nop
  deriving DecidableEq, Repr

/-! ### Serialisation

An enumeration is its variant number in four bytes and then the fields. -/

def modeIndex : ClientMode → UInt32
  | .async => 0
  | .sync => 1
  | .semisync => 2
  | .flushsync => 3
  | .control => 4

def modeOfIndex (index : UInt32) : Option ClientMode :=
  if index = 0 then some .async
  else if index = 1 then some .sync
  else if index = 2 then some .semisync
  else if index = 3 then some .flushsync
  else if index = 4 then some .control
  else none

def modeCodec : Codec ClientMode := Codec.u32.through modeIndex modeOfIndex (by rintro (_ | _) <;> rfl)

def initCodec : Codec InitMsg :=
  (modeCodec.both (Codec.u64.both (Codec.u32.both (Codec.u64.both Codec.u32)))).through
    (fun msg => (msg.mode, msg.dsthash, msg.compress.bits, msg.iolimitBps, msg.options))
    (fun (mode, dsthash, bits, iolimitBps, options) => some ⟨mode, dsthash, ⟨bits⟩, iolimitBps, options⟩)
    (fun _ => rfl)

/-- Either of the acknowledgements without a code, or the code behind its number. -/
def ackCodec : Codec ClientAck where
  encode
    | .ack => Codec.u32.encode 0
    | .dead => Codec.u32.encode 1
    | .retCode code => Codec.u32.encode 2 ++ Codec.u32.encode code.toUInt32
  decode bytes := do
    let (index, bytes) ← Codec.u32.decode bytes
    if index = 0 then some (.ack, bytes)
    else if index = 1 then some (.dead, bytes)
    else if index = 2 then
      let (code, bytes) ← Codec.u32.decode bytes
      some (.retCode code.toInt32, bytes)
    else none
  decode_encode value rest := by
    cases value <;> simp [Codec.decode_encode]

def ackMsgCodec : Codec AckMsg :=
  (ackCodec.both Codec.u64).through (fun msg => (msg.retcode, msg.tid))
    (fun (retcode, tid) => some ⟨retcode, tid⟩) (fun _ => rfl)

section Serialisation
variable (calls : Codec V)

def serialize : FsyncerMsg V → List UInt8
  | .initMsg msg => Codec.u32.encode 0 ++ initCodec.encode msg
  | .asyncOp call => Codec.u32.encode 1 ++ calls.encode call
  | .syncOp call tid => Codec.u32.encode 2 ++ (calls.both Codec.u64).encode (call, tid)
  | .ack msg => Codec.u32.encode 3 ++ ackMsgCodec.encode msg
  | .cork tid => Codec.u32.encode 4 ++ Codec.u64.encode tid
  | .ackCork tid => Codec.u32.encode 5 ++ Codec.u64.encode tid
  | .uncork => Codec.u32.encode 6
  | .nop => Codec.u32.encode 7

/-- `bincode::deserialize`, which does not look at bytes after the value. -/
def deserialize (bytes : List UInt8) : Option (FsyncerMsg V) := do
  let (index, bytes) ← Codec.u32.decode bytes
  if index = 0 then (initCodec.decode bytes).map fun (msg, _) => .initMsg msg
  else if index = 1 then (calls.decode bytes).map fun (call, _) => .asyncOp call
  else if index = 2 then ((calls.both Codec.u64).decode bytes).map fun (value, _) => .syncOp value.1 value.2
  else if index = 3 then (ackMsgCodec.decode bytes).map fun (msg, _) => .ack msg
  else if index = 4 then (Codec.u64.decode bytes).map fun (tid, _) => .cork tid
  else if index = 5 then (Codec.u64.decode bytes).map fun (tid, _) => .ackCork tid
  else if index = 6 then some .uncork
  else if index = 7 then some .nop
  else none

theorem deserialize_serialize (msg : FsyncerMsg V) : deserialize calls (serialize calls msg) = some msg := by
  have whole {A : Type} (codec : Codec A) (value : A) : codec.decode (codec.encode value) = some (value, []) := by
    have decoded := codec.decode_encode value []
    rwa [List.append_nil] at decoded
  cases msg <;> simp [serialize, deserialize, Codec.decode_encode, whole]

end Serialisation

/-! ### The compressors -/

/-- What is done to a writer. -/
inductive WriteOp where
  | write (bytes : List UInt8)
  | flush
  deriving DecidableEq, Repr

def WriteOp.bytes : WriteOp → List UInt8
  | .write bytes => bytes
  | .flush => []

def payload (ops : List WriteOp) : List UInt8 := ops.flatMap WriteOp.bytes

@[simp] theorem payload_append (first second : List WriteOp) :
    payload (first ++ second) = payload first ++ payload second := List.flatMap_append

/-- A stream compressor around the connection: what reaches the other side
depends on everything done to the writer so far. -/
structure StreamCompressor where
  encoder : List WriteOp → List UInt8
  decoder : List UInt8 → List UInt8
  lossless : ∀ ops, decoder (encoder ops) = payload ops

/-- The connection without one. -/
def uncompressed : StreamCompressor := ⟨payload, id, fun _ => rfl⟩

/-- `Compressor` of the realtime kind, as each end sees it: both ends keep a
state. Decoding unwinds where the result is `none`. -/
structure Compression where
  Encoder : Type
  Decoder : Type
  encoder : Encoder
  decoder : Decoder
  encode : Encoder → List UInt8 → List UInt8 × Encoder
  decode : Decoder → List UInt8 → Option (List UInt8 × Decoder)

/-- The buffers come out as they went in, if what is decoded is what was
encoded, in the same order. -/
def Compression.Replays (c : Compression) : c.Encoder → c.Decoder → List (List UInt8) → Prop
  | _, _, [] => True
  | e, d, buf :: rest => ∃ d', c.decode d (c.encode e buf).1 = some (buf, d') ∧
      c.Replays (c.encode e buf).2 d' rest

structure Compressor extends Compression where
  lossless : ∀ bufs, toCompression.Replays encoder decoder bufs

structure Libraries where
  zstd : StreamCompressor
  lz4 : StreamCompressor
  chunkMap : Compressor
  zstdBlock : Compressor

/-- The stream compressor of a mode. Both ends choose it alike. -/
def Libraries.stream (lib : Libraries) (mode : CompMode) : StreamCompressor :=
  if mode.contains .streamZstd then lib.zstd
  else if mode.contains .streamLz4 then lib.lz4
  else uncompressed

/-- The realtime compressor of a mode. Both ends choose it alike. -/
def Libraries.rtComp (lib : Libraries) (mode : CompMode) : Option Compressor :=
  if mode.contains .rtDsscChunked then some lib.chunkMap
  else if mode.contains .rtDsscZstd then some lib.zstdBlock
  else none

/-! ### The server's end -/

/-- A realtime compressor in use for encoding. -/
structure Encoding where
  library : Compressor
  state : library.Encoder

structure ClientNetwork where
  write : List WriteOp
  rtComp : Option Encoding
  status : ClientStatus

structure Client where
  comp : CompMode
  net : ClientNetwork

/-- The end of `Client::from_stream`. -/
def Client.fromStream (lib : Libraries) (mode : CompMode) : Client where
  comp := mode
  net := { write := [], rtComp := (lib.rtComp mode).map fun c => ⟨c, c.encoder⟩, status := .alive }

/-- The part of `inner` that does not depend on `flush`: the length, as 32 bits,
and the buffer. -/
def ClientNetwork.frame (net : ClientNetwork) (serbuf : List UInt8) (size : ℕ) : ClientNetwork :=
  match net.rtComp with
  | some rt =>
    let (nbuf, state) := rt.library.encode rt.state serbuf
    { net with
      write := net.write ++ [.write (beBytes 4 nbuf.length), .write nbuf]
      rtComp := some ⟨rt.library, state⟩ }
  | none => { net with write := net.write ++ [.write (beBytes 4 size), .write serbuf] }

def ClientNetwork.flush (net : ClientNetwork) : ClientNetwork := { net with write := net.write ++ [.flush] }

section Sending
variable (calls : Codec V)

/-- `inner` of `response_msg`. The call it makes itself, for the message that
makes a compressor let go of what it holds, does not flush. -/
def inner (serbuf : List UInt8) (size : ℕ) (net : ClientNetwork) (flush comp : Bool) : ClientNetwork :=
  let net := net.frame serbuf size
  if flush then
    let net := net.flush
    if comp then (net.frame (serialize calls .nop) (serialize calls .nop).length).flush else net
  else net

/-- `Client::response_msg`, on a connection that takes what is written. -/
def Client.responseMsg (k : Client) (msg : FsyncerMsg V) (flush : Bool) : Except Failure Client :=
  if k.net.status = .dead then .error (.io (.other "Client is dead"))
  else
    let serbuf := serialize calls msg
    .ok { k with net := inner calls serbuf serbuf.length k.net flush (k.comp.intersects .streamMask) }

/-- Messages passed to `response_msg` one after the other. -/
def Client.sendAll (k : Client) (msgs : List (FsyncerMsg V × Bool)) : Except Failure Client :=
  msgs.foldlM (fun k msg => k.responseMsg calls msg.1 msg.2) k

end Sending

/-! ### The client's end -/

/-- A realtime compressor in use for decoding. -/
structure Decoding where
  library : Compressor
  state : library.Decoder

structure ServerConnection where
  read : List UInt8
  rcvBuf : List UInt8
  rtComp : Option Decoding

/-- The end of `ConnectionBuilder::build`, for a connection on which `netin` arrives. -/
def ServerConnection.build (lib : Libraries) (mode : CompMode) (netin : List UInt8) : ServerConnection where
  read := (lib.stream mode).decoder netin
  rcvBuf := []
  rtComp := (lib.rtComp mode).map fun c => ⟨c, c.decoder⟩

/-- The last line of `read_msg`, on a connection that has moved on to `s`. -/
def ServerConnection.parse (calls : Codec V) (s : ServerConnection) (msgbuf : List UInt8) :
    Except Failure (FsyncerMsg V × ServerConnection) :=
  match deserialize calls msgbuf with
  | some msg => .ok (msg, s)
  | none => .error (.io (.other "deserialize"))

/-- `ServerConnection::read_msg`. The receive buffer only grows; what it grows
by is overwritten before it is looked at. -/
def ServerConnection.readMsg (calls : Codec V) (s : ServerConnection) :
    Except Failure (FsyncerMsg V × ServerConnection) :=
  if s.read.length < 4 then .error (.io .unexpectedEof)
  else
    let length := beValue (s.read.take 4)
    let read := s.read.drop 4
    let rcvBuf := s.rcvBuf ++ List.replicate (length - s.rcvBuf.length) 0
    if read.length < length then .error (.io .unexpectedEof)
    else
      let rcvBuf := read.take length ++ rcvBuf.drop length
      let read := read.drop length
      match s.rtComp with
      | some rt =>
        if length < 4 then .error (.panic "slice index starts at 4")
        else match rt.library.decode rt.state ((rcvBuf.take length).drop 4) with
          | none => .error (.panic "decode")
          | some (dbuf, state) =>
            ServerConnection.parse calls ⟨read, rcvBuf, some ⟨rt.library, state⟩⟩ dbuf
      | none => ServerConnection.parse calls ⟨read, rcvBuf, none⟩ (rcvBuf.take length)

/-- Successive calls return these messages. -/
inductive Reads (calls : Codec V) : ServerConnection → List (FsyncerMsg V) → ServerConnection → Prop where
  | done : Reads calls s [] s
  | got (received : s.readMsg calls = .ok (msg, s')) (rest : Reads calls s' msgs s'') :
      Reads calls s (msg :: msgs) s''

/-! ### The round trip -/

/-- The messages with one that means nothing behind each flush of a compressed
stream. -/
def withNops (mode : CompMode) (msgs : List (FsyncerMsg V × Bool)) : List (FsyncerMsg V) :=
  msgs.flatMap fun msg => msg.1 :: if msg.2 && mode.intersects .streamMask then [.nop] else []

/-- Everything that is sent arrives, in order, and nothing else. -/
def RoundTrips (lib : Libraries) (calls : Codec V) (mode : CompMode) (msgs : List (FsyncerMsg V × Bool)) :
    Prop :=
  ∃ k s, (Client.fromStream lib mode).sendAll calls msgs = .ok k ∧
    Reads calls (ServerConnection.build lib mode ((lib.stream mode).encoder k.net.write))
      (withNops mode msgs) s ∧ s.read = []

section RoundTrip
variable {lib : Libraries} {calls : Codec V} {mode : CompMode}

/-- A message behind its length. -/
def framed (calls : Codec V) (msg : FsyncerMsg V) : List UInt8 :=
  beBytes 4 (serialize calls msg).length ++ serialize calls msg

/-- What a call does to the writer when there is no realtime compressor. -/
structure Appends (net net' : ClientNetwork) (bytes : List UInt8) : Prop where
  sent : payload net'.write = payload net.write ++ bytes
  plain : net'.rtComp = none
  status : net'.status = net.status

theorem appends_frame {net : ClientNetwork} (plain : net.rtComp = none) (serbuf : List UInt8) :
    Appends net (net.frame serbuf serbuf.length) (beBytes 4 serbuf.length ++ serbuf) := by
  have shape : net.frame serbuf serbuf.length =
      { net with write := net.write ++ [.write (beBytes 4 serbuf.length), .write serbuf] } := by
    rw [ClientNetwork.frame, plain]
  rw [shape]
  refine ⟨?_, plain, rfl⟩
  rw [payload_append]
  simp [payload, WriteOp.bytes]

theorem Appends.flush (appends : Appends net net' bytes) : Appends net net'.flush bytes := by
  refine ⟨?_, appends.plain, appends.status⟩
  rw [ClientNetwork.flush, payload_append, appends.sent]
  simp [payload, WriteOp.bytes]

theorem Appends.trans (first : Appends net net' bytes) (second : Appends net' net'' more) :
    Appends net net'' (bytes ++ more) :=
  ⟨by rw [second.sent, first.sent, List.append_assoc], second.plain, second.status.trans first.status⟩

/-- One call sends its message, and one that means nothing where the mode asks
for it. -/
theorem responseMsg_appends (calls : Codec V) {k : Client} (plain : k.net.rtComp = none) (alive : k.net.status = .alive)
    (msg : FsyncerMsg V × Bool) : ∃ k', k.responseMsg calls msg.1 msg.2 = .ok k' ∧ k'.comp = k.comp ∧
      Appends k.net k'.net ((withNops k.comp [msg]).flatMap (framed calls)) := by
  obtain ⟨msg, flush⟩ := msg
  refine ⟨_, if_neg (by rw [alive]; decide), rfl, ?_⟩
  have first := appends_frame plain (serialize calls msg)
  have nop := appends_frame first.flush.plain (serialize calls .nop)
  cases flush with
  | false => simpa [inner, withNops, framed] using first
  | true =>
    rcases Bool.eq_false_or_eq_true (k.comp.intersects .streamMask) with stream | raw
    · simpa [inner, withNops, framed, stream] using first.flush.trans nop.flush
    · simpa [inner, withNops, framed, raw] using first.flush

theorem sendAll_appends (calls : Codec V) (msgs : List (FsyncerMsg V × Bool)) {k : Client}
    (plain : k.net.rtComp = none) (alive : k.net.status = .alive) : ∃ k', k.sendAll calls msgs = .ok k' ∧
      payload k'.net.write = payload k.net.write ++ (withNops k.comp msgs).flatMap (framed calls) := by
  induction msgs generalizing k with
  | nil => exact ⟨k, rfl, by simp [withNops]⟩
  | cons msg msgs ih =>
    obtain ⟨between, sent, comp, appends⟩ := responseMsg_appends calls plain alive msg
    obtain ⟨k', rest, written⟩ := ih appends.plain (appends.status.trans alive)
    refine ⟨k', ?_, ?_⟩
    · rw [Client.sendAll, List.foldlM_cons, sent]
      exact rest
    · rw [written, appends.sent, comp]
      simp [withNops]

/-- Reading a message takes exactly its frame off the front. -/
theorem readMsg_framed {s : ServerConnection} (plain : s.rtComp = none) {msg : FsyncerMsg V}
    (short : (serialize calls msg).length < 2 ^ 32) (front : s.read = framed calls msg ++ rest) :
    ∃ s', s.readMsg calls = .ok (msg, s') ∧ s'.rtComp = none ∧ s'.read = rest := by
  have width := length_beBytes 4 (serialize calls msg).length
  have take : s.read.take 4 = beBytes 4 (serialize calls msg).length := by
    rw [front, framed, List.append_assoc, List.take_left' width]
  have drop : s.read.drop 4 = serialize calls msg ++ rest := by
    rw [front, framed, List.append_assoc, List.drop_left' width]
  have value : beValue (s.read.take 4) = (serialize calls msg).length := by
    rw [take, beValue_beBytes]
    exact Nat.mod_eq_of_lt (by omega)
  have long : ¬s.read.length < 4 := by
    rw [front, framed, List.length_append, List.length_append, width]
    omega
  rw [ServerConnection.readMsg, if_neg long]
  simp only [value, drop, plain, List.take_left, List.drop_left]
  rw [if_neg (by rw [List.length_append]; omega), ServerConnection.parse, deserialize_serialize]
  exact ⟨_, rfl, rfl, rfl⟩

theorem reads_framed (msgs : List (FsyncerMsg V)) {s : ServerConnection} (plain : s.rtComp = none)
    (short : ∀ msg ∈ msgs, (serialize calls msg).length < 2 ^ 32)
    (front : s.read = msgs.flatMap (framed calls)) : ∃ s', Reads calls s msgs s' ∧ s'.read = [] := by
  induction msgs generalizing s with
  | nil => exact ⟨s, .done, front⟩
  | cons msg msgs ih =>
    rw [List.flatMap_cons] at front
    obtain ⟨between, received, plain, rest⟩ := readMsg_framed plain (short msg List.mem_cons_self) front
    obtain ⟨s', reads, empty⟩ := ih plain (fun msg found => short msg (List.mem_cons_of_mem _ found)) rest
    exact ⟨s', .got received reads, empty⟩

theorem length_nop (calls : Codec V) : (serialize calls .nop).length < 2 ^ 32 := by
  have length : (serialize calls .nop).length = 4 := length_leBytes 4 _
  omega

theorem short_withNops {msgs : List (FsyncerMsg V × Bool)}
    (short : ∀ msg ∈ msgs, (serialize calls msg.1).length < 2 ^ 32) :
    ∀ msg ∈ withNops mode msgs, (serialize calls msg).length < 2 ^ 32 := by
  intro msg found
  obtain ⟨source, member, found⟩ := List.mem_flatMap.mp found
  rcases List.mem_cons.mp found with rfl | found
  · exact short source member
  · split at found
    · rw [List.mem_singleton.mp found]
      exact length_nop calls
    · cases found

/-- Without a realtime compressor every stream of messages makes the trip. -/
theorem roundTrips_of_plain (plain : lib.rtComp mode = none) {msgs : List (FsyncerMsg V × Bool)}
    (short : ∀ msg ∈ msgs, (serialize calls msg.1).length < 2 ^ 32) :
    RoundTrips lib calls mode msgs := by
  have start : (Client.fromStream lib mode).net.rtComp = none := by
    show (lib.rtComp mode).map _ = none
    rw [plain]
    rfl
  obtain ⟨k, sent, written⟩ := sendAll_appends calls msgs start rfl
  have arrives : (ServerConnection.build lib mode ((lib.stream mode).encoder k.net.write)).read =
      (withNops mode msgs).flatMap (framed calls) := by
    show (lib.stream mode).decoder _ = _
    rw [(lib.stream mode).lossless, written]
    rfl
  have opened : (ServerConnection.build lib mode ((lib.stream mode).encoder k.net.write)).rtComp = none := by
    show (lib.rtComp mode).map _ = none
    rw [plain]
    rfl
  obtain ⟨s, reads, empty⟩ := reads_framed _ opened (short_withNops short) arrives
  exact ⟨k, s, sent, reads, empty⟩

/-- The mode asks for a realtime compressor. -/
def CompMode.realtime (mode : CompMode) : Bool := mode.contains .rtDsscChunked || mode.contains .rtDsscZstd

/-- A lossless compressor that puts a mark of five bytes in front of a buffer
and takes nothing back that does not start with it. -/
def marking : Compressor where
  Encoder := Unit
  Decoder := Unit
  encoder := ()
  decoder := ()
  encode _ buf := ([0, 0, 0, 0, 1] ++ buf, ())
  decode _ buf := if buf.take 5 = [0, 0, 0, 0, 1] then some (buf.drop 5, ()) else none
  lossless bufs := by
    induction bufs with
    | nil => trivial
    | cons buf bufs ih => exact ⟨(), rfl, ih⟩

/-- No compression anywhere but for the marks. -/
def markingLibraries : Libraries := ⟨uncompressed, uncompressed, marking, marking⟩

theorem rtComp_marking (realtime : mode.realtime = true) : markingLibraries.rtComp mode = some marking := by
  rw [CompMode.realtime, Bool.or_eq_true] at realtime
  rw [Libraries.rtComp]
  split
  · rfl
  · next other =>
    rw [if_pos (realtime.resolve_left other)]
    rfl

/-- The first four bytes of the buffer are not decoded, and with them the mark
is lost. -/
theorem readMsg_marked {s : ServerConnection} (realtime : s.rtComp = some ⟨marking, ()⟩)
    (front : s.read = beBytes 4 size ++ ([0, 0, 0, 0, 1] ++ rest)) :
    ∃ failure, s.readMsg calls = .error failure := by
  have drop : s.read.drop 4 = [0, 0, 0, 0, 1] ++ rest := by rw [front, List.drop_left' (length_beBytes 4 size)]
  rw [ServerConnection.readMsg]
  generalize beValue (s.read.take 4) = length
  simp only [drop, realtime]
  split
  · exact ⟨_, rfl⟩
  split
  · exact ⟨_, rfl⟩
  next complete =>
  split
  · exact ⟨_, rfl⟩
  next long =>
  have unmarked (buffer : List UInt8) : marking.decode ()
      (((([0, 0, 0, 0, 1] ++ rest).take length ++ buffer).take length).drop 4) = none := by
    rw [List.take_left' (by rw [List.length_take]; omega)]
    obtain ⟨count, rfl⟩ : ∃ count, length = 4 + count := ⟨length - 4, by omega⟩
    rw [List.take_add, List.drop_append]
    refine if_neg fun marked => ?_
    cases count with
    | zero => simp at marked
    | succ count => simp at marked
  rw [unmarked]
  exact ⟨_, rfl⟩

theorem frame_grows (net : ClientNetwork) (serbuf : List UInt8) (size : ℕ) :
    net.write <+: (net.frame serbuf size).write := by
  rw [ClientNetwork.frame]
  split <;> exact List.prefix_append _ _

theorem inner_grows (calls : Codec V) (serbuf : List UInt8) (size : ℕ) (net : ClientNetwork)
    (flush comp : Bool) : (net.frame serbuf size).write <+: (inner calls serbuf size net flush comp).write := by
  have flushed (net : ClientNetwork) : net.write <+: net.flush.write := List.prefix_append _ _
  rw [inner]
  cases flush with
  | false => exact List.prefix_refl _
  | true =>
    cases comp with
    | false => exact flushed _
    | true => exact (flushed _).trans ((frame_grows _ _ _).trans (flushed _))

/-- What has been written stays, whatever is sent after it. -/
theorem sendAll_grows (msgs : List (FsyncerMsg V × Bool)) {k k' : Client}
    (sent : k.sendAll calls msgs = .ok k') : k.net.write <+: k'.net.write := by
  induction msgs generalizing k with
  | nil =>
    cases sent
    exact List.prefix_refl _
  | cons msg msgs ih =>
    rw [Client.sendAll, List.foldlM_cons] at sent
    obtain ⟨between, first, rest⟩ := bind_ok.mp sent
    obtain ⟨_, shape⟩ := of_guard first
    cases shape
    exact (frame_grows _ _ _).trans ((inner_grows _ _ _ _ _ _).trans (ih rest))

/-- The first message sent through the marking compressor cannot be read. -/
theorem marked_not_received (realtime : mode.realtime = true) (msg : FsyncerMsg V × Bool)
    (more : List (FsyncerMsg V × Bool)) : ¬RoundTrips markingLibraries calls mode (msg :: more) := by
  rintro ⟨k, s, sent, reads, _⟩
  have library := rtComp_marking realtime
  rw [Client.sendAll, List.foldlM_cons] at sent
  obtain ⟨between, first, rest⟩ := bind_ok.mp sent
  obtain ⟨_, shape⟩ := of_guard first
  cases shape
  have front : ((Client.fromStream markingLibraries mode).net.frame (serialize calls msg.1)
      (serialize calls msg.1).length).write =
      [.write (beBytes 4 ((serialize calls msg.1).length + 5)),
        .write ([0, 0, 0, 0, 1] ++ serialize calls msg.1)] := by
    simp [ClientNetwork.frame, Client.fromStream, library, marking]
  obtain ⟨later, written⟩ := (inner_grows _ _ _ _ _ _).trans (sendAll_grows _ rest)
  rw [front] at written
  cases reads with
  | got received _ =>
    obtain ⟨failure, failed⟩ := @readMsg_marked V calls _ _
      (ServerConnection.build markingLibraries mode ((markingLibraries.stream mode).encoder k.net.write))
      (by simp [ServerConnection.build, library, marking])
      (show (markingLibraries.stream mode).decoder _ = _ by
        rw [(markingLibraries.stream mode).lossless, ← written, payload_append]
        simp [payload, WriteOp.bytes]
        rfl)
    rw [failed] at received
    cases received

/-- **The round trip.** Whatever the compression libraries are, the messages
sent arrive as they were sent, with the inserted ones, exactly if the mode has no
realtime compressor, or there are no messages at all. -/
theorem messages_round_trip_iff (calls : Codec V) (mode : CompMode) (msgs : List (FsyncerMsg V × Bool))
    (short : ∀ msg ∈ msgs, (serialize calls msg.1).length < 2 ^ 32) :
    (∀ lib, RoundTrips lib calls mode msgs) ↔ mode.realtime = false ∨ msgs = [] := by
  constructor
  · intro trips
    by_contra neither
    obtain ⟨realtime, some_msgs⟩ := not_or.mp neither
    rw [Bool.not_eq_false] at realtime
    obtain ⟨msg, more, rfl⟩ := List.exists_cons_of_ne_nil some_msgs
    exact marked_not_received realtime msg more (trips markingLibraries)
  · rintro (plain | rfl) lib
    · refine roundTrips_of_plain ?_ short
      rw [CompMode.realtime, Bool.or_eq_false_iff] at plain
      rw [Libraries.rtComp, plain.1, plain.2]
      rfl
    · refine ⟨_, _, rfl, .done, ?_⟩
      exact (lib.stream mode).lossless []

/-- A compressor that leaves everything as it is. -/
def stored : Compressor where
  Encoder := Unit
  Decoder := Unit
  encoder := ()
  decoder := ()
  encode _ buf := (buf, ())
  decode _ buf := some (buf, ())
  lossless bufs := by
    induction bufs with
    | nil => trivial
    | cons buf bufs ih => exact ⟨(), rfl, ih⟩

/-- Nothing is left to decode of a message of four bytes. -/
theorem uncork_not_received :
    ¬RoundTrips ⟨uncompressed, uncompressed, stored, stored⟩ byteVec .rtDsscZstd [(.uncork, false)] := by
  rintro ⟨k, s, sent, reads, _⟩
  cases sent
  cases reads with
  | got received _ =>
    have failed : ServerConnection.readMsg byteVec
        (.build ⟨uncompressed, uncompressed, stored, stored⟩ .rtDsscZstd [0, 0, 0, 4, 6, 0, 0, 0]) =
        .error (.io (.other "deserialize")) := rfl
    exact absurd (failed.symm.trans received) (by simp)

/-- Two messages, the first of them flushed, with a stream compressor. -/
theorem cork_and_uncork_received : RoundTrips ⟨uncompressed, uncompressed, stored, stored⟩ byteVec .streamZstd
    [(.cork 7, true), (.uncork, false)] := by
  refine (messages_round_trip_iff byteVec .streamZstd [(.cork 7, true), (.uncork, false)] ?_).mpr
    (Or.inl (by decide)) _
  decide

end RoundTrip

end Fsyncer.Framing
