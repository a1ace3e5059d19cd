import Fsyncer.BilogHistory
import Fsyncer.BilogRecord
import Fsyncer.JournalRetention
import Fsyncer.SnapshotFile

/-! Journals that are replayed backwards. The viewer reads the entries that the ring
still holds and dispatches what they stand for; entries that work both ways take the
store back to where the oldest of them was recorded. -/
namespace Fsyncer.JournalReplay
open Fsyncer.Bilog Fsyncer.BilogRecord Fsyncer.ByteFile Fsyncer.FileTree Fsyncer.Machine
open Fsyncer.JournalLayout Fsyncer.JournalRetention Fsyncer.JournalRun Fsyncer.JournalStore
open Fsyncer.JournalWrite Fsyncer.UndoLog Fsyncer.Vfs Fsyncer.Wire

/-! ### The viewer -/

/-- How a replay ends, and the tree that it leaves. -/
inductive Ending where
  | finished (tree : Tree)
  | panicked (tree : Tree)

/-- The body of the loop of `replay`. -/
def replayEntry (host : Host) (e : StoreEntry BilogEntry) (t : Tree) : Ending :=
  match e.inner with
  | .time _ => .finished t
  | .payload entry =>
    match entry.apply host t with
    | .error _ => .panicked t
    | .ok call =>
      match dispatch host.process host.fspath t call with
      | some (res, after) => if res < 0 then .panicked after else .finished after
      | none => .panicked t

/-- A turn of the loop of `replay` behind the filter. -/
def turn (test : StoreEntry BilogEntry → Except Failure Bool) (host : Host)
    (item : Except Failure (StoreEntry BilogEntry)) (t : Tree) : Ending :=
  match item with
  | .error _ => .panicked t
  | .ok e =>
    match test e with
    | .error _ => .panicked t
    | .ok false => .finished t
    | .ok true => replayEntry host e t

/-- The loop of `replay` over an iterator of the journal. -/
inductive Replays (Next : σ → Option (Except Failure (StoreEntry BilogEntry)) → σ → Prop)
    (test : StoreEntry BilogEntry → Except Failure Bool) (host : Host) : σ → Tree → Ending → Prop where
  | ended (stop : Next it none it') : Replays Next test host it t (.finished t)
  | item (pulled : Next it (some item) it') (done : turn test host item t = .finished after)
      (rest : Replays Next test host it' after ending) : Replays Next test host it t ending
  | stopped (pulled : Next it (some item) it') (failed : turn test host item t = .panicked after) :
      Replays Next test host it t (.panicked after)

section Loop
variable {σ : Type} {Next : σ → Option (Except Failure (StoreEntry BilogEntry)) → σ → Prop}
  {test : StoreEntry BilogEntry → Except Failure Bool} {host : Host} {entries : List (StoreEntry BilogEntry)}

end Loop

/-! ### What is read -/

section Reading
variable {T : Type} {codec : Codec T} {j : Journal} {writes : List (Write T)}

end Reading

/-! ### Replaying backwards -/

section Reversal
variable {host : Host} {t : Tree}

deriving instance Countable for BilogChmod, BilogChown, BilogUtimens, BilogRename, BilogDir, BilogSymlink, BilogLink
deriving instance Countable for BilogNode, BilogFile, BilogTruncate, BilogWrite, BilogXattr
deriving instance Countable for BilogEntry

end Reversal

end Fsyncer.JournalReplay
