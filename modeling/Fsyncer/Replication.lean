import Mathlib.Logic.Function.Basic
import Fsyncer.Base.Interleaving
import Fsyncer.Bilog
import Fsyncer.JournalStore

/-! The replication protocol: the server's worker threads between `pre_op` and
`post_op`, the thread that reads each client's answers and corks the server, the
thread that lets clients join, the harvester, and the client processes. Every
step is one that no other thread can look into; a lock is held between steps
exactly where the source holds it. -/
namespace Fsyncer.Replication
open Interleaving Vfs
open JournalStore (JournalType)

inductive ClientMode where
  | async
  | sync
  | semisync
  | flushsync
  | control
  deriving DecidableEq, Repr

inductive ClientStatus where
  | dead
  | alive
  deriving DecidableEq, Repr

/-- What a replica does with a call. Flushing changes nothing that can be read. -/
structure FileSystem (σ : Type) where
  exec : VFSCall → σ → Int × σ
  fsync_keeps : ∀ path isdatasync s, (exec (.fsync path isdatasync) s).2 = s

/-- A call on its way through the server. The serial number tells it from other
operations with the same call; no step looks at it. -/
structure Op where
  serial : ℕ
  call : VFSCall
  deriving DecidableEq, Repr

def isFsync : VFSCall → Bool
  | .fsync _ _ => true
  | _ => false

/-- The operations other than flushes. -/
def updates (ops : List Op) : List Op := ops.filter fun op => !isFsync op.call

inductive ThreadId where
  | worker (n : ℕ)
  | reader (client : ℕ)
  deriving DecidableEq, Repr

inductive ClientAck where
  | ack
  | dead
  | retCode (code : Int)
  deriving DecidableEq, Repr

/-- Thread ids of operations are those of workers and thread ids of corks those
of readers, so a number is enough. An acknowledgement carries the operation it
was produced for, which no step looks at. -/
inductive FsyncerMsg where
  | asyncOp (op : Op)
  | syncOp (op : Op) (tid : ℕ)
  | ack (retcode : ClientAck) (tid : ℕ) (op : Op)
  | cork (tid : ℕ)
  | ackCork (tid : ℕ)
  | uncork
  | nop
  deriving DecidableEq, Repr

def FsyncerMsg.op : FsyncerMsg → Option Op
  | .asyncOp op => some op
  | .syncOp op _ => some op
  | _ => none

structure InitMsg where
  mode : ClientMode
  dsthash : UInt64
  /-- A stream compressor is asked for. -/
  compress : Bool
  /-- `INITIAL_RSYNC`. -/
  rsync : Bool
  deriving DecidableEq, Repr

/-- What a response slot holds, and the operation it answers. -/
structure Reply where
  retcode : ClientAck
  answers : Option Op
  deriving DecidableEq, Repr

structure ClientNetwork where
  write : Fifo FsyncerMsg
  parked : ThreadId → Option (Option Reply)
  status : ClientStatus

/-- An operation that the client is executing, in its receive loop or on the
pool. -/
structure Job where
  op : Op
  /-- The thread that waits for an acknowledgement. -/
  tid : Option ℕ
  inline : Bool
  result : Option Int
  deriving DecidableEq, Repr

/-- One client, at both ends of its connection. -/
structure Client (σ : Type) where
  mode : ClientMode
  comp : Bool
  net : ClientNetwork
  /-- From the client to the server. -/
  answers : Fifo FsyncerMsg
  /-- More than one dispatch thread. -/
  pool : Bool
  jobs : List Job
  store : σ
  /-- The operations executed so far, in that order. -/
  ran : List Op
  /-- The operations whose effects were in the state that the hash check or the
  initial synchronisation saw. -/
  observed : Option (List Op)
  /-- The operations that were handed out before the client was on the list. -/
  before : List Op

namespace Client

variable {σ : Type}

/-- The operations written to the client. -/
def written (k : Client σ) : List Op := k.net.write.all.filterMap FsyncerMsg.op

/-! ### The server's end -/

/-- `Client::response_msg`. The write may fail, after a number of complete
messages. Nothing is answered to a message that was not sent. -/
def responseMsg (k : Client σ) (msg : FsyncerMsg) (flush wantResponse : Bool) (tid : ThreadId)
    (cut : Option ℕ) : Client σ × Option Bool :=
  if k.net.status = .dead then (k, none)
  else
    let parked := if wantResponse then
        Function.update k.net.parked tid (some ((k.net.parked tid).getD none))
      else k.net.parked
    let messages := msg :: if flush && k.comp then [.nop] else []
    match cut with
    | none => ({ k with net := ⟨k.net.write.push messages, parked, k.net.status⟩ }, some wantResponse)
    | some n => ({ k with net := ⟨k.net.write.push (messages.take n), parked, .dead⟩ }, none)

/-- The message of an operation and whether its answer is waited for; control
clients get nothing, asynchronous ones no flushes. -/
def opMsg (mode : ClientMode) (op : Op) (tid : ℕ) : Option (FsyncerMsg × Bool) :=
  if mode = .control ∨ (isFsync op.call ∧ (mode = .async ∨ mode = .semisync)) then none
  else if mode = .sync ∨ mode = .semisync ∨ (mode = .flushsync ∧ isFsync op.call) then
    some (.syncOp op tid, true)
  else some (.asyncOp op, false)

/-- The body of `pre_op`'s loop for one client, and whether there is a slot to
wait on. -/
def sendOp (k : Client σ) (op : Op) (tid : ℕ) (cut : Option ℕ) : Client σ × Bool :=
  match opMsg k.mode op tid with
  | none => (k, false)
  | some (msg, sync) =>
    let (k, sent) := k.responseMsg msg sync sync (.worker tid) cut
    (k, sent == some true)

/-- `ClientResponse::notify` on the slot of a thread. -/
def notify (k : Client σ) (tid : ThreadId) (reply : Reply) : Client σ :=
  { k with net := { k.net with parked := Function.update k.net.parked tid (some (some reply)) } }

/-- The slot is emptied by the thread that waited on it. -/
def take (k : Client σ) (tid : ThreadId) : Client σ :=
  { k with net := { k.net with parked := Function.update k.net.parked tid (some none) } }

/-- `Client::reader` on one message. -/
def hear (k : Client σ) (msg : FsyncerMsg) : Client σ :=
  let k := { k with answers := k.answers.pop }
  match msg with
  | .ackCork tid => if (k.net.parked (.reader tid)).isSome then k.notify (.reader tid) ⟨.ack, none⟩ else k
  | .ack retcode tid op => k.notify (.worker tid) ⟨retcode, some op⟩
  | _ => k

def die (k : Client σ) : Client σ := { k with net := { k.net with status := .dead } }

/-- `Client::drop`: every thread that waits on the client is told so. -/
def drop (k : Client σ) : Client σ :=
  { k with net := { k.net with parked := fun tid => (k.net.parked tid).map fun _ => some ⟨.dead, none⟩ } }

/-! ### The client's end -/

def answer (k : Client σ) (msg : FsyncerMsg) : Client σ := { k with answers := k.answers.push [msg] }

/-- `ServerConnection::process_ops` on one message. -/
def process (k : Client σ) (msg : FsyncerMsg) : Client σ :=
  let k := { k with net := { k.net with write := k.net.write.pop } }
  match msg with
  | .syncOp op tid =>
    let k := if k.mode = .semisync then k.answer (.ack .ack tid op) else k
    let needAck := k.mode = .sync ∨ k.mode = .flushsync
    { k with jobs := k.jobs ++ [⟨op, if needAck then some tid else none, !k.pool, none⟩] }
  | .asyncOp op => { k with jobs := k.jobs ++ [⟨op, none, true, none⟩] }
  | .cork tid => k.answer (.ackCork tid)
  | _ => k

/-- An executed operation is acknowledged, where somebody waits for that. -/
def acknowledge (k : Client σ) (job : Job) (code : Int) : Client σ :=
  match job.tid with
  | some tid => k.answer (.ack (.retCode code) tid job.op)
  | none => k

end Client

/-- A thread that serves file system calls: where it is in the handler, with the
clients it has still to send to and those whose slots it will wait on. -/
inductive Worker where
  | idle
  | entered (op : Op)
  | locked (op : Op)
  | sending (op : Op) (rest waits : List ℕ)
  | sent (op : Op) (waits : List ℕ)
  | executing (op : Op) (waits : List ℕ)
  | waiting (op : Op) (waits : List ℕ) (ret : Int)
  deriving DecidableEq, Repr

/-- The operation the handler was entered for. -/
def Worker.op : Worker → Option Op
  | .idle => none
  | .entered op | .locked op | .sending op _ _ | .sent op _ | .executing op _ | .waiting op _ _ => some op

def Worker.waits : Worker → List ℕ
  | .sending _ _ waits | .sent _ waits | .executing _ waits | .waiting _ waits _ => waits
  | _ => []

/-- The thread that reads a client's answers: where it is in `cork_server` or
`uncork_server`, with the clients still to cork and those corked with success. -/
inductive Reader where
  | listening
  | raising
  | raised
  | corking (rest corked : List ℕ)
  | awaiting (client : ℕ) (rest corked : List ℕ)
  | lowering
  | uncorking (rest : List ℕ)
  | uncorked
  | gone
  deriving DecidableEq, Repr

/-- A process that has connected and said what it wants. -/
structure Newcomer (σ : Type) where
  init : InitMsg
  store : σ
  pool : Bool

/-- The accept loop. -/
inductive Joining (σ : Type) where
  | vacant
  | checking (newcomer : Newcomer σ)
  | connected (client : ℕ)

structure Setup (σ : Type) where
  fs : FileSystem σ
  hash : σ → UInt64
  dontcheck : Bool
  journal : Option JournalType
  /-- Whether the entry of a call moves a file to the file store; none where no
  entry can be made. -/
  filestore : VFSCall → σ → Option Bool

structure World (σ : Type) where
  store : σ
  corked : Bool
  /-- The worker that holds `CORK`; readers hold it for one statement only. -/
  holder : Option ℕ
  syncList : List ℕ
  /-- The threads that hold `SYNC_LIST` for reading. -/
  guards : List ThreadId
  clients : ℕ → Option (Client σ)
  workers : ℕ → Worker
  readers : ℕ → Reader
  joining : Joining σ
  serial : ℕ
  /-- The operations in the order in which `pre_op` handed them out. -/
  order : List Op
  /-- The operations in the order of their local execution. -/
  executed : List Op
  /-- The operations in the order of their journal entries. -/
  journal : List Op

namespace World

variable {σ : Type}

def setWorker (w : World σ) (t : ℕ) (pc : Worker) : World σ :=
  { w with workers := Function.update w.workers t pc }

def setReader (w : World σ) (c : ℕ) (pc : Reader) : World σ :=
  { w with readers := Function.update w.readers c pc }

def setClient (w : World σ) (c : ℕ) (k : Client σ) : World σ :=
  { w with clients := Function.update w.clients c (some k) }

end World

/-- A client whose connection was made just now. -/
def Client.connected (mode : ClientMode) (comp pool : Bool) (store : σ) (observed : Option (List Op)) :
    Client σ where
  mode := mode
  comp := comp
  net := ⟨.empty, fun _ => none, .alive⟩
  answers := .empty
  pool := pool
  jobs := []
  store := store
  ran := []
  observed := observed
  before := []

/-- `Client::from_stream` up to the reader thread: the hashes are compared unless
that is waived, the files copied if that is asked for. -/
def fromStream (setup : Setup σ) (store : σ) (executed : List Op) (newcomer : Newcomer σ) :
    Option (Client σ) :=
  let init := newcomer.init
  let waived := init.mode = .control ∨ setup.dontcheck ∨ init.rsync
  if ¬waived ∧ init.dsthash ≠ setup.hash store then none
  else some (.connected init.mode init.compress newcomer.pool (if init.rsync then store else newcomer.store)
    (if init.rsync ∨ ¬waived then some executed else none))

inductive ClientAction where
  | receive
  | run
  | finish
  | requestCork
  | requestUncork
  deriving DecidableEq, Repr

/-- What a client process does on its own. -/
inductive ClientStep (fs : FileSystem σ) : Client σ → ClientAction → Client σ → Prop where
  | receive (free : ∀ job ∈ k.jobs, job.inline = false) (next : k.net.write.waiting = msg :: rest) :
      ClientStep fs k .receive (k.process msg)
  | run (split : k.jobs = front ++ job :: back) (pending : job.result = none) :
      ClientStep fs k .run { k with
        store := (fs.exec job.op.call k.store).2
        ran := k.ran ++ [job.op]
        jobs := front ++ { job with result := some (fs.exec job.op.call k.store).1 } :: back }
  | finish (split : k.jobs = front ++ job :: back) (done : job.result = some code) :
      ClientStep fs k .finish ({ k with jobs := front ++ back }.acknowledge job code)
  | requestCork (control : k.mode = .control) : ClientStep fs k .requestCork (k.answer (.cork 0))
  | requestUncork (control : k.mode = .control) : ClientStep fs k .requestUncork (k.answer .uncork)

/-- What the reader does after a message. -/
def Reader.after : FsyncerMsg → Reader
  | .cork _ => .raising
  | .uncork => .lowering
  | _ => .listening

/-- What it does after a cork was sent: control clients are not waited for. -/
def Reader.afterCork (d : ℕ) (rest corked : List ℕ) : Option Bool → Reader
  | some true => .awaiting d rest corked
  | some false => .corking rest (corked ++ [d])
  | none => .corking rest corked

inductive Event (σ : Type) where
  | enter (t : ℕ) (call : VFSCall)
  | lockCork (t : ℕ)
  | readList (t : ℕ)
  | send (t : ℕ) (cut : Option ℕ)
  | unlockCork (t : ℕ)
  | journal (t : ℕ)
  | execute (t : ℕ)
  | take (t : ℕ)
  | timeOut (t : ℕ)
  | leave (t : ℕ)
  | client (c : ℕ) (action : ClientAction)
  | hear (c : ℕ)
  | readFails (c : ℕ)
  | raiseCork (c : ℕ)
  | corkList (c : ℕ)
  | corkSend (c : ℕ) (cut : Option ℕ)
  | corkTake (c : ℕ)
  | corkTimeOut (c : ℕ)
  | corkDone (c : ℕ)
  | uncorkList (c : ℕ)
  | uncorkSend (c : ℕ) (cut : Option ℕ)
  | uncorkDone (c : ℕ)
  | lowerCork (c : ℕ)
  | accept (newcomer : Newcomer σ)
  | refuse
  | connect (c : ℕ)
  | push
  | harvest (c : ℕ)
  | flush (c : ℕ) (cut : Option ℕ)

/-- Where the handler is after `pre_op`; a file moved to the file store ends it. -/
def Worker.afterJournal (op : Op) (waits : List ℕ) (filestore : Bool) : Worker :=
  if filestore then .idle else .executing op waits

/-- Whether the journal lets the operation pass, and if so whether it is the last
that the handler does; the entry is written unless there is no journal. -/
def Setup.records (setup : Setup σ) (call : VFSCall) (store : σ) : Option (Bool × Bool) :=
  match setup.journal with
  | none => some (false, false)
  | some .forward => some (true, false)
  | some .bilog => (setup.filestore call store).map fun filestore => (true, filestore)
  | some _ => none

inductive Step (setup : Setup σ) : World σ → Event σ → World σ → Prop where
  /- Workers. -/
  | enter (idle : w.workers t = .idle) :
      Step setup w (.enter t call) { w.setWorker t (.entered ⟨w.serial, call⟩) with serial := w.serial + 1 }
  | lockCork (here : w.workers t = .entered op) (free : w.holder = none) (uncorked : w.corked = false) :
      Step setup w (.lockCork t) { w.setWorker t (.locked op) with holder := some t }
  | readList (here : w.workers t = .locked op) :
      Step setup w (.readList t) { w.setWorker t (.sending op w.syncList []) with
        guards := .worker t :: w.guards
        order := w.order ++ [op] }
  | send (here : w.workers t = .sending op (c :: rest) waits) (known : w.clients c = some k)
      (sent : k.sendOp op t cut = (k', awaited)) :
      Step setup w (.send t cut)
        ((w.setClient c k').setWorker t (.sending op rest (if awaited then waits ++ [c] else waits)))
  | unlockCork (here : w.workers t = .sending op [] waits) :
      Step setup w (.unlockCork t) { w.setWorker t (.sent op waits) with holder := none }
  | journal (here : w.workers t = .sent op waits) (passes : setup.records op.call w.store = some (entry, filestore)) :
      Step setup w (.journal t) { w.setWorker t (.afterJournal op waits filestore) with
        guards := w.guards.erase (.worker t)
        journal := if entry then w.journal ++ [op] else w.journal }
  | execute (here : w.workers t = .executing op waits) :
      Step setup w (.execute t) { w.setWorker t (.waiting op waits (setup.fs.exec op.call w.store).1) with
        store := (setup.fs.exec op.call w.store).2
        executed := w.executed ++ [op] }
  | take (here : w.workers t = .waiting op (c :: rest) ret) (known : w.clients c = some k)
      (filled : k.net.parked (.worker t) = some (some reply)) :
      Step setup w (.take t) ((w.setClient c (k.take (.worker t))).setWorker t (.waiting op rest ret))
  | timeOut (here : w.workers t = .waiting op (c :: rest) ret) :
      Step setup w (.timeOut t) (w.setWorker t (.waiting op rest ret))
  | leave (here : w.workers t = .waiting op [] ret) : Step setup w (.leave t) (w.setWorker t .idle)
  /- Clients and their readers. -/
  | client (known : w.clients c = some k) (moves : ClientStep setup.fs k action k') :
      Step setup w (.client c action) (w.setClient c k')
  | hear (here : w.readers c = .listening) (known : w.clients c = some k)
      (next : k.answers.waiting = msg :: rest) :
      Step setup w (.hear c) ((w.setClient c (k.hear msg)).setReader c (.after msg))
  | readFails (here : w.readers c = .listening) (known : w.clients c = some k) :
      Step setup w (.readFails c) ((w.setClient c k.die).setReader c .gone)
  /- `cork_server` and `uncork_server`. -/
  | raiseCork (here : w.readers c = .raising) (free : w.holder = none) :
      Step setup w (.raiseCork c) { w.setReader c .raised with corked := true }
  | corkList (here : w.readers c = .raised) :
      Step setup w (.corkList c) { w.setReader c (.corking w.syncList []) with guards := .reader c :: w.guards }
  | corkSend (here : w.readers c = .corking (d :: rest) corked) (known : w.clients d = some k)
      (sent : k.responseMsg (.cork c) true (k.mode ≠ .control) (.reader c) cut = (k', result)) :
      Step setup w (.corkSend c cut) ((w.setClient d k').setReader c (.afterCork d rest corked result))
  | corkTake (here : w.readers c = .awaiting d rest corked) (known : w.clients d = some k)
      (filled : k.net.parked (.reader c) = some (some reply)) :
      Step setup w (.corkTake c)
        ((w.setClient d (k.take (.reader c))).setReader c (.corking rest (corked ++ [d])))
  | corkTimeOut (here : w.readers c = .awaiting d rest corked) :
      Step setup w (.corkTimeOut c) { w.setReader c .gone with guards := w.guards.erase (.reader c) }
  | corkDone (here : w.readers c = .corking [] corked) :
      Step setup w (.corkDone c) { w.setReader c .listening with guards := w.guards.erase (.reader c) }
  | uncorkList (here : w.readers c = .lowering) :
      Step setup w (.uncorkList c) { w.setReader c (.uncorking w.syncList) with guards := .reader c :: w.guards }
  | uncorkSend (here : w.readers c = .uncorking (d :: rest)) (known : w.clients d = some k)
      (sent : k.responseMsg .uncork false false (.reader c) cut = (k', result)) :
      Step setup w (.uncorkSend c cut) ((w.setClient d k').setReader c (.uncorking rest))
  | uncorkDone (here : w.readers c = .uncorking []) :
      Step setup w (.uncorkDone c) { w.setReader c .uncorked with guards := w.guards.erase (.reader c) }
  | lowerCork (here : w.readers c = .uncorked) (free : w.holder = none) :
      Step setup w (.lowerCork c) { w.setReader c .listening with corked := false }
  /- Joining and leaving. -/
  | accept (vacant : w.joining = .vacant) :
      Step setup w (.accept newcomer) { w with joining := .checking newcomer }
  | refuse (asks : w.joining = .checking newcomer) (refused : fromStream setup w.store w.executed newcomer = none) :
      Step setup w .refuse { w with joining := .vacant }
  | connect (asks : w.joining = .checking newcomer)
      (accepted : fromStream setup w.store w.executed newcomer = some k) (unused : w.clients c = none) :
      Step setup w (.connect c) { w.setClient c k with joining := .connected c }
  | push (ready : w.joining = .connected c) (known : w.clients c = some k) (unread : w.guards = []) :
      Step setup w .push { w.setClient c { k with before := w.order } with
        joining := .vacant
        syncList := w.syncList ++ [c] }
  | harvest (listed : c ∈ w.syncList) (known : w.clients c = some k) (dead : k.net.status = .dead)
      (unread : w.guards = []) :
      Step setup w (.harvest c) { w.setClient c k.drop with syncList := w.syncList.erase c }
  | flush (listed : c ∈ w.syncList) (known : w.clients c = some k) (async : k.mode = .async)
      (compressed : k.comp = true) (sent : k.responseMsg .nop true false (.worker 0) cut = (k', result)) :
      Step setup w (.flush c cut) (w.setClient c k')

/-- A server at rest, with clients connected to it. -/
def World.start (store : σ) (clients : List (Client σ)) : World σ where
  store := store
  corked := false
  holder := none
  syncList := List.range clients.length
  guards := []
  clients := fun c => clients[c]?
  workers := fun _ => .idle
  readers := fun _ => .listening
  joining := .vacant
  serial := 0
  order := []
  executed := []
  journal := []

/-! ### Trees of files -/

open FileTree (Tree)

def treeFileSystem (host : Bilog.Host) : FileSystem Tree where
  exec call t := (dispatch host.process host.fspath t call).getD (0, t)
  fsync_keeps := by
    intro path isdatasync t
    simp only [dispatch, Option.getD_some, withFile]
    split <;> rfl

/-- A server of a tree of files, with its journal. -/
def treeSetup (host : Bilog.Host) (hash : Tree → UInt64) (dontcheck : Bool) (journal : Option JournalType) :
    Setup Tree where
  fs := treeFileSystem host
  hash := hash
  dontcheck := dontcheck
  journal := journal
  filestore := fun call t =>
    match Bilog.BilogEntry.tryFrom call host t with
    | .ok (.filestore _ _) => some true
    | .ok _ => some false
    | .error _ => none

end Fsyncer.Replication
