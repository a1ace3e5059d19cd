import Fsyncer.Base.ByteFile
import Fsyncer.Base.Machine
import Fsyncer.Base.SortedMap
import Mathlib.Algebra.BigOperators.Group.List.Basic

/-! The store that keeps deleted files for the bilog: files named by tokens in a
directory of their own, the oldest of which make room for new ones. The counters
are kept in memory and read back from the directory by a restart, which takes
the last name it is shown for the next token. -/
namespace Fsyncer.DeletedFiles
open Fsyncer.ByteFile Fsyncer.Machine

structure FileStore where
  currentSize : ℕ
  oldestToken : ℕ
  currentToken : ℕ
  maxSize : ℕ
  deriving DecidableEq, Repr

/-- The directory `.fsyncer-deleted`. -/
abbrev Dir := SortedMap ℕ File

def total (dir : Dir) : ℕ := (dir.entries.map fun entry => entry.2.length).sum

def tokens (dir : Dir) : List ℕ := dir.entries.map Prod.fst

/-- The store and its directory. -/
structure State where
  store : FileStore
  dir : Dir

/-- `FileStore::new`: the directory is listed for the first name and once more
for the last. -/
def new (maxSize : ℕ) (dir : Dir) (first last : List ℕ) : State where
  store := ⟨u64 (total dir), first.head?.getD 0, last.getLast?.getD 0, maxSize⟩
  dir := dir

/-- `delete`; `removable` says which files the system lets go. -/
def delete (removable : ℕ → Bool) (s : State) (token : ℕ) : Except Failure (State × ℕ) :=
  match s.dir.find token with
  | none => .error (.io (.other "No such file or directory"))
  | some file =>
    if removable token then
      .ok (⟨{ s.store with
        currentSize := usub s.store.currentSize file.length
        oldestToken := u64 (s.store.oldestToken + 1) }, s.dir.erase token⟩, file.length)
    else .error (.io (.other "Operation not permitted"))

/-- The loop of `store` that eliminates old entries. Every turn takes a file out
of the directory, so that their number bounds the turns. -/
def evict (removable : ℕ → Bool) (size : ℕ) : ℕ → State → State × Except Failure Unit
  | 0, s => (s, .error (.panic "no turn left"))
  | turns + 1, s =>
    if s.store.maxSize < u64 (s.store.currentSize + size) then
      match delete removable s s.store.oldestToken with
      | .error failure => (s, .error failure)
      | .ok (s, _) => evict removable size turns s
    else (s, .ok ())

/-- `store`, to the token of the file; `renames` says whether the system moves it. -/
def store (removable : ℕ → Bool) (renames : Bool) (s : State) (file : File) : State × Except Failure ℕ :=
  match evict removable file.length (s.dir.entries.length + 1) s with
  | (s, .error failure) => (s, .error failure)
  | (s, .ok ()) =>
    let token := s.store.currentToken
    if renames then
      (⟨{ s.store with
        currentToken := u64 (token + 1)
        currentSize := u64 (s.store.currentSize + file.length) }, s.dir.insert token file⟩, .ok token)
    else
      (⟨{ s.store with currentToken := u64 (token + 1) }, s.dir⟩, .error (.io (.other "rename failed")))

/-! A call that fails -/

section
variable {removable : ℕ → Bool} {s : State}

/-- The file under a token can be removed. -/
def Removable (removable : ℕ → Bool) (s : State) (token : ℕ) : Prop :=
  (s.dir.find token).isSome ∧ removable token = true

/-- The size that is left without the `n` oldest files. -/
def sizeWithout (s : State) : ℕ → ℕ
  | 0 => s.store.currentSize
  | n + 1 => usub (sizeWithout s n) (((s.dir.find (u64 (s.store.oldestToken + n))).map List.length).getD 0)

/-- A file of the size fits without the `n` oldest files, all of which can be
removed, and not without fewer. -/
def Frees (removable : ℕ → Bool) (s : State) (size n : ℕ) : Prop :=
  n ≤ 2 ^ 64 ∧ (∀ i < n, s.store.maxSize < u64 (sizeWithout s i + size) ∧
    Removable removable s (u64 (s.store.oldestToken + i))) ∧ ¬ s.store.maxSize < u64 (sizeWithout s n + size)

/-- The state without the oldest file. -/
def withoutOldest (s : State) : State where
  store := { s.store with
    currentSize := sizeWithout s 1
    oldestToken := u64 (s.store.oldestToken + 1) }
  dir := s.dir.erase s.store.oldestToken

theorem delete_oldest (word : s.store.oldestToken < 2 ^ 64) (found : Removable removable s s.store.oldestToken) :
    ∃ size, delete removable s s.store.oldestToken = .ok (withoutOldest s, size) := by
  obtain ⟨file, held⟩ := Option.isSome_iff_exists.mp found.1
  refine ⟨file.length, ?_⟩
  have left : sizeWithout s 1 = usub s.store.currentSize file.length := by
    rw [sizeWithout, sizeWithout, Nat.add_zero, u64_of_lt word, held]
    rfl
  rw [delete, held]
  show (if _ then _ else _) = _
  rw [if_pos found.2, withoutOldest, left]

theorem delete_error (kept : ¬ Removable removable s token) : ∃ failure, delete removable s token = .error failure := by
  cases held : s.dir.find token with
  | none => exact ⟨_, by rw [delete, held]⟩
  | some file =>
    have stays : ¬ removable token = true := fun lets => kept ⟨by rw [held]; rfl, lets⟩
    exact ⟨_, by rw [delete, held]; exact if_neg stays⟩

theorem length_entries_erase (found : (s.dir.find token).isSome) :
    (s.dir.erase token).entries.length < s.dir.entries.length := by
  obtain ⟨file, held⟩ := Option.isSome_iff_exists.mp found
  refine List.length_filter_lt_length_iff_exists.mpr ⟨(token, file), SortedMap.mem_entries_iff.mpr held, ?_⟩
  simp

/-- A turn of the loop: it fits, the oldest file stays, or it goes. -/
theorem evict_fits (fits : ¬ s.store.maxSize < u64 (s.store.currentSize + size)) (turns : ℕ) :
    evict removable size (turns + 1) s = (s, .ok ()) := by
  rw [evict, if_neg fits]

theorem evict_stuck (exceeds : s.store.maxSize < u64 (s.store.currentSize + size))
    (kept : ¬ Removable removable s s.store.oldestToken) (turns : ℕ) :
    ∃ failure, evict removable size (turns + 1) s = (s, .error failure) := by
  obtain ⟨failure, failed⟩ := delete_error kept
  exact ⟨failure, by rw [evict, if_pos exceeds, failed]⟩

theorem evict_oldest (word : s.store.oldestToken < 2 ^ 64)
    (exceeds : s.store.maxSize < u64 (s.store.currentSize + size))
    (goes : Removable removable s s.store.oldestToken) (turns : ℕ) :
    evict removable size (turns + 1) s = evict removable size turns (withoutOldest s) := by
  obtain ⟨freed, deleted⟩ := delete_oldest word goes
  rw [evict, if_pos exceeds, deleted]

-- stated for any fields: unfolding a wrapped difference to compare it with a
-- counter does not end
theorem maxSize_mk (currentSize oldestToken currentToken maxSize : ℕ) (dir : Dir) :
    (State.mk ⟨currentSize, oldestToken, currentToken, maxSize⟩ dir).store.maxSize = maxSize := rfl

theorem currentToken_mk (currentSize oldestToken currentToken maxSize : ℕ) (dir : Dir) :
    (State.mk ⟨currentSize, oldestToken, currentToken, maxSize⟩ dir).store.currentToken = currentToken := rfl

theorem withoutOldest_maxSize (s : State) : (withoutOldest s).store.maxSize = s.store.maxSize :=
  maxSize_mk (sizeWithout s 1) (u64 (s.store.oldestToken + 1)) s.store.currentToken s.store.maxSize _

theorem withoutOldest_currentToken (s : State) :
    (withoutOldest s).store.currentToken = s.store.currentToken :=
  currentToken_mk (sizeWithout s 1) (u64 (s.store.oldestToken + 1)) s.store.currentToken s.store.maxSize _

theorem withoutOldest_word (s : State) : (withoutOldest s).store.oldestToken < 2 ^ 64 := u64_lt _

/-- The loop only takes files away. -/
theorem find_evict (word : s.store.oldestToken < 2 ^ 64) (absent : s.dir.find token = none) (turns : ℕ) :
    (evict removable size turns s).1.dir.find token = none := by
  induction turns generalizing s with
  | zero => exact absent
  | succ turns ih =>
    by_cases exceeds : s.store.maxSize < u64 (s.store.currentSize + size)
    · by_cases goes : Removable removable s s.store.oldestToken
      · rw [evict_oldest word exceeds goes]
        apply ih (withoutOldest_word s)
        rw [withoutOldest, SortedMap.find_erase]
        split
        · rfl
        · exact absent
      · obtain ⟨failure, stuck⟩ := evict_stuck exceeds goes turns
        rw [stuck]
        exact absent
    · rw [evict_fits exceeds]
      exact absent

theorem evict_currentToken (word : s.store.oldestToken < 2 ^ 64) (turns : ℕ) :
    (evict removable size turns s).1.store.currentToken = s.store.currentToken := by
  induction turns generalizing s with
  | zero => rfl
  | succ turns ih =>
    by_cases exceeds : s.store.maxSize < u64 (s.store.currentSize + size)
    · by_cases goes : Removable removable s s.store.oldestToken
      · rw [evict_oldest word exceeds goes, ih (withoutOldest_word s), withoutOldest_currentToken]
      · obtain ⟨failure, stuck⟩ := evict_stuck exceeds goes turns
        rw [stuck]
    · rw [evict_fits exceeds]

theorem next_token (s : State) (i : ℕ) :
    u64 ((withoutOldest s).store.oldestToken + i) = u64 (s.store.oldestToken + (i + 1)) := by
  show u64 (u64 (s.store.oldestToken + 1) + i) = _
  unfold u64
  omega

theorem find_withoutOldest (s : State) (small : i + 1 < 2 ^ 64) :
    (withoutOldest s).dir.find (u64 (s.store.oldestToken + (i + 1))) =
      s.dir.find (u64 (s.store.oldestToken + (i + 1))) := by
  refine SortedMap.find_erase_of_ne _ fun same => ?_
  unfold u64 at same
  omega

theorem sizeWithout_withoutOldest (s : State) (small : n < 2 ^ 64) :
    sizeWithout (withoutOldest s) n = sizeWithout s (n + 1) := by
  induction n with
  | zero => rfl
  | succ n ih =>
    rw [sizeWithout, ih (by omega), next_token, find_withoutOldest s small, ← sizeWithout]

theorem removable_withoutOldest (s : State) (small : i + 1 < 2 ^ 64) :
    Removable removable (withoutOldest s) (u64 ((withoutOldest s).store.oldestToken + i)) ↔
      Removable removable s (u64 (s.store.oldestToken + (i + 1))) := by
  rw [next_token, Removable, Removable, find_withoutOldest s small]

/-- The token of the oldest file does not come round again. -/
theorem lt_of_frees_withoutOldest (word : s.store.oldestToken < 2 ^ 64)
    (frees : Frees removable (withoutOldest s) size n) : n < 2 ^ 64 := by
  by_contra many
  have round : ∀ i, i + 1 = 2 ^ 64 → u64 (s.store.oldestToken + (i + 1)) = s.store.oldestToken := by
    intro i last
    rw [last]
    unfold u64
    omega
  obtain ⟨i, last⟩ : ∃ i, i + 1 = 2 ^ 64 := ⟨2 ^ 64 - 1, by omega⟩
  have again := (frees.2.1 i (by omega)).2
  have absent : (withoutOldest s).dir.find s.store.oldestToken = none := SortedMap.find_erase_self ..
  rw [next_token, round i last, Removable, absent] at again
  cases again.1

/-- What fits without `n + 1` files fits without `n` once the oldest is gone. -/
theorem frees_succ (word : s.store.oldestToken < 2 ^ 64) :
    Frees removable s size (n + 1) ↔ s.store.maxSize < u64 (s.store.currentSize + size) ∧
      Removable removable s s.store.oldestToken ∧ Frees removable (withoutOldest s) size n := by
  have first : u64 (s.store.oldestToken + 0) = s.store.oldestToken := by rw [Nat.add_zero, u64_of_lt word]
  constructor
  · intro frees
    have few := frees.1
    have here := frees.2.1 0 (Nat.succ_pos n)
    rw [first, sizeWithout] at here
    refine ⟨here.1, here.2, by omega, fun i low => ?_, ?_⟩
    · rw [withoutOldest_maxSize, sizeWithout_withoutOldest s (by omega), removable_withoutOldest s (by omega)]
      exact frees.2.1 (i + 1) (by omega)
    · rw [withoutOldest_maxSize, sizeWithout_withoutOldest s (by omega)]
      exact frees.2.2
  · intro both
    have frees := both.2.2
    have few := lt_of_frees_withoutOldest word frees
    refine ⟨few, fun i low => ?_, ?_⟩
    · cases i with
      | zero =>
        rw [first, sizeWithout]
        exact ⟨both.1, both.2.1⟩
      | succ i =>
        have there := frees.2.1 i (by omega)
        rw [withoutOldest_maxSize, sizeWithout_withoutOldest s (by omega), removable_withoutOldest s (by omega)]
          at there
        exact there
    · rw [← sizeWithout_withoutOldest s few, ← withoutOldest_maxSize s]
      exact frees.2.2

theorem frees_zero : Frees removable s size 0 ↔ ¬ s.store.maxSize < u64 (s.store.currentSize + size) := by
  rw [Frees, sizeWithout]
  exact ⟨fun frees => frees.2.2, fun fits => ⟨Nat.zero_le _, fun i low => absurd low (Nat.not_lt_zero i), fits⟩⟩

theorem length_withoutOldest (goes : Removable removable s s.store.oldestToken) :
    (withoutOldest s).dir.entries.length < s.dir.entries.length := length_entries_erase goes.1

/-- The loop ends well exactly when some number of the oldest files makes room. -/
theorem evict_ok_iff (word : s.store.oldestToken < 2 ^ 64) (enough : s.dir.entries.length < turns) :
    (evict removable size turns s).2 = .ok () ↔ ∃ n, Frees removable s size n := by
  induction turns generalizing s with
  | zero => exact absurd enough (Nat.not_lt_zero _)
  | succ turns ih =>
    by_cases exceeds : s.store.maxSize < u64 (s.store.currentSize + size)
    · by_cases goes : Removable removable s s.store.oldestToken
      · have fewer := length_withoutOldest goes
        rw [evict_oldest word exceeds goes, ih (withoutOldest_word s) (by omega)]
        constructor
        · rintro ⟨n, frees⟩
          exact ⟨n + 1, (frees_succ word).mpr ⟨exceeds, goes, frees⟩⟩
        · rintro ⟨n, frees⟩
          cases n with
          | zero => exact absurd exceeds (frees_zero.mp frees)
          | succ n => exact ⟨n, ((frees_succ word).mp frees).2.2⟩
      · obtain ⟨failure, stuck⟩ := evict_stuck exceeds goes turns
        rw [stuck]
        refine iff_of_false nofun ?_
        rintro ⟨n, frees⟩
        cases n with
        | zero => exact frees_zero.mp frees exceeds
        | succ n => exact goes ((frees_succ word).mp frees).2.1
    · rw [evict_fits exceeds]
      exact iff_of_true rfl ⟨0, frees_zero.mpr exceeds⟩

theorem store_of_evict_error {failure : Failure} (evicts : evict removable file.length (s.dir.entries.length + 1) s = (after, .error failure))
    (renames : Bool) : store removable renames s file = (after, .error failure) := by
  rw [store, evicts]

theorem store_of_evict_ok (evicts : evict removable file.length (s.dir.entries.length + 1) s = (after, .ok ())) :
    store removable true s file = (⟨{ after.store with
      currentToken := u64 (after.store.currentToken + 1)
      currentSize := u64 (after.store.currentSize + file.length) },
        after.dir.insert after.store.currentToken file⟩, .ok after.store.currentToken) := by
  rw [store, evicts]
  rfl

theorem store_of_rename_error (evicts : evict removable file.length (s.dir.entries.length + 1) s = (after, .ok ())) :
    store removable false s file = (⟨{ after.store with currentToken := u64 (after.store.currentToken + 1) }, after.dir⟩,
      .error (.io (.other "rename failed"))) := by
  rw [store, evicts]
  rfl

end

/-- A failed call leaves every file under its token and the counters as they were. -/
def Keeps (before after : State) : Prop :=
  (∀ token file, before.dir.find token = some file → after.dir.find token = some file) ∧
    after.store.currentSize = before.store.currentSize ∧ after.store.oldestToken = before.store.oldestToken ∧
      after.store.currentToken = before.store.currentToken

/-- Once the oldest file is gone it is not there when the loop fails. -/
theorem not_keeps_of_evict_oldest (word : s.store.oldestToken < 2 ^ 64)
    (exceeds : s.store.maxSize < u64 (s.store.currentSize + size))
    (goes : Removable removable s s.store.oldestToken) (turns : ℕ) :
    ¬ Keeps s (evict removable size (turns + 1) s).1 := by
  rintro ⟨files, -⟩
  obtain ⟨file, held⟩ := Option.isSome_iff_exists.mp goes.1
  have still := files _ _ held
  rw [evict_oldest word exceeds goes, find_evict (withoutOldest_word s) (SortedMap.find_erase_self ..)] at still
  cases still

/-- A call that fails loses nothing exactly when it cannot fail, or when it has
no room and the oldest file stays where it is. A file for which there never can
be room makes it remove everything first, and a rename that fails takes a token. -/
theorem failed_store_keeps_iff (removable : ℕ → Bool) (renames : Bool) (s : State) (file : File)
    (oldest : s.store.oldestToken < 2 ^ 64) :
    (∀ failure, (store removable renames s file).2 = .error failure → Keeps s (store removable renames s file).1) ↔
      renames = true ∧ (∃ n, Frees removable s file.length n) ∨
        s.store.maxSize < u64 (s.store.currentSize + file.length) ∧ ¬ Removable removable s s.store.oldestToken := by
  have decided : (evict removable file.length (s.dir.entries.length + 1) s).2 = .ok () ↔ _ :=
    evict_ok_iff oldest (Nat.lt_succ_self _)
  have token : (evict removable file.length (s.dir.entries.length + 1) s).1.store.currentToken = _ :=
    evict_currentToken oldest _
  rcases ended : evict removable file.length (s.dir.entries.length + 1) s with ⟨after, result⟩
  rw [ended] at decided token
  cases result with
  | ok _ =>
    have frees := decided.mp rfl
    have goes : ¬ (s.store.maxSize < u64 (s.store.currentSize + file.length) ∧
        ¬ Removable removable s s.store.oldestToken) := by
      rintro ⟨exceeds, stays⟩
      obtain ⟨failure, stuck⟩ := evict_stuck exceeds stays s.dir.entries.length
      rw [stuck] at ended
      cases ended
    cases renames with
    | true =>
      rw [store_of_evict_ok ended]
      exact iff_of_true (fun failure failed => by cases failed) (Or.inl ⟨rfl, frees⟩)
    | false =>
      rw [store_of_rename_error ended]
      refine iff_of_false (fun keeps => ?_) ?_
      · have same : u64 (after.store.currentToken + 1) = s.store.currentToken := (keeps _ rfl).2.2.2
        rw [show after.store.currentToken = s.store.currentToken from token] at same
        unfold u64 at same
        omega
      · rintro (⟨renamed, -⟩ | stuck)
        · cases renamed
        · exact goes stuck
  | error failure =>
    rw [store_of_evict_error ended]
    have never : ¬ ∃ n, Frees removable s file.length n := fun frees => by cases decided.mpr frees
    have exceeds : s.store.maxSize < u64 (s.store.currentSize + file.length) := by
      by_contra fits
      exact never ⟨0, frees_zero.mpr fits⟩
    by_cases goes : Removable removable s s.store.oldestToken
    · refine iff_of_false (fun keeps => ?_) ?_
      · have lost := not_keeps_of_evict_oldest oldest exceeds goes s.dir.entries.length
        rw [ended] at lost
        exact lost (keeps failure rfl)
      · rintro (⟨-, frees⟩ | ⟨-, stays⟩)
        · exact never frees
        · exact stays goes
    · obtain ⟨other, stuck⟩ := evict_stuck exceeds goes s.dir.entries.length
      rw [ended] at stuck
      cases stuck
      exact iff_of_true (fun failure _ => ⟨fun token file held => held, rfl, rfl, rfl⟩) (Or.inr ⟨exceeds, goes⟩)

/-- A store of two bytes with one file of one byte in it. -/
def oneStored : State := (store (fun _ => true) true (new 2 SortedMap.empty [] []) [7]).1

/-- Three bytes cost it the file that was there, a failed rename its next token. -/
theorem failed_store_loses :
    (store (fun _ => true) true oneStored [1, 2, 3]).2 = .error (.io (.other "No such file or directory")) ∧
      oneStored.dir.find 0 = some [7] ∧ (store (fun _ => true) true oneStored [1, 2, 3]).1.dir.find 0 = none ∧
    (store (fun _ => true) false oneStored [1]).2 = .error (.io (.other "rename failed")) ∧
      oneStored.store.currentToken = 1 ∧ (store (fun _ => true) false oneStored [1]).1.store.currentToken = 2 :=
  ⟨rfl, rfl, rfl, rfl, rfl, rfl⟩

theorem stuck_store_keeps :
    (store (fun _ => false) true oneStored [1, 2]).2 = .error (.io (.other "Operation not permitted")) ∧
      Keeps oneStored (store (fun _ => false) true oneStored [1, 2]).1 :=
  ⟨rfl, (failed_store_keeps_iff (fun _ => false) true oneStored [1, 2] (by decide)).mpr
    (Or.inr ⟨by decide, fun goes => Bool.false_ne_true goes.2⟩) _ rfl⟩

/-! Runs with restarts -/

/-- What is done to the store, and what the system does with it. A restart is
shown the names in some order, each time. -/
inductive Event where
  | store (file : File) (removable : ℕ → Bool) (renames : Bool)
  | delete (removable : ℕ → Bool)
  | restart (maxSize : ℕ) (first last : List ℕ)

/-- The state after an event, and the token or size it reports. -/
def perform (s : State) : Event → State × Except Failure ℕ
  | .store file removable renames => store removable renames s file
  | .delete removable =>
    match delete removable s s.store.oldestToken with
    | .error failure => (s, .error failure)
    | .ok (after, size) => (after, .ok size)
  | .restart maxSize first last => (new maxSize s.dir first last, .ok 0)

/-- The stored tokens are those from the oldest to the current one, and the size
is theirs. -/
structure Sound (s : State) : Prop where
  stored : ∀ token, (s.dir.find token).isSome ↔ s.store.oldestToken ≤ token ∧ token < s.store.currentToken
  size : s.store.currentSize = total s.dir

/-- What an event has to leave: a sound store, and a new file under a token that
was free, within the size. -/
def Fine (s : State) (event : Event) : Prop :=
  Sound (perform s event).1 ∧ ∀ file removable renames token, event = .store file removable renames →
    (perform s event).2 = .ok token → s.dir.find token = none ∧
      (perform s event).1.store.currentSize ≤ (perform s event).1.store.maxSize

/-- Every event of a run is fine. -/
def AllFine (s : State) : List Event → Prop
  | [] => True
  | event :: events => Fine s event ∧ AllFine (perform s event).1 events

/-- A restart is shown the names that are there. -/
def Listed (s : State) : Event → Prop
  | .restart _ first last => first.Perm (tokens s.dir) ∧ last.Perm (tokens s.dir)
  | _ => True

def AllListed (s : State) : List Event → Prop
  | [] => True
  | event :: events => Listed s event ∧ AllListed (perform s event).1 events

/-- The system moves the files it is told to, and sizes are far from wrapping. -/
def Regular : Event → Prop
  | .store file _ renames => renames = true ∧ file.length < 2 ^ 63
  | .delete _ => True
  | .restart maxSize _ _ => maxSize ≤ 2 ^ 63

/-- No restart finds a file. -/
def RestartsEmpty (s : State) : List Event → Prop
  | [] => True
  | event :: events => (∀ maxSize first last, event = .restart maxSize first last → s.dir = SortedMap.empty) ∧
      RestartsEmpty (perform s event).1 events

theorem total_insert {dir : Dir} (free : dir.find token = none) (file : File) :
    total (dir.insert token file) = file.length + total dir := by
  have added : (dir.insert token file).entries.Perm ((token, file) :: dir.entries) := SortedMap.perm_insert free
  rw [total, (added.map _).sum_eq, List.map_cons, List.sum_cons, total]

theorem total_erase {dir : Dir} (held : dir.find token = some file) :
    total dir = file.length + total (dir.erase token) := by
  have whole := total_insert (SortedMap.find_erase_self dir token) file
  rw [SortedMap.insert_erase held] at whole
  exact whole

/-- A sound store whose counters do not wrap in the next `left` events. -/
structure Steady (left : ℕ) (s : State) : Prop extends Sound s where
  order : s.store.oldestToken ≤ s.store.currentToken
  tokens_left : s.store.currentToken + left < 2 ^ 64
  within : s.store.currentSize ≤ s.store.maxSize
  small : s.store.maxSize ≤ 2 ^ 63

section
variable {s : State} {left : ℕ}

theorem Steady.word (held : Steady left s) : s.store.oldestToken < 2 ^ 64 := by
  have := held.order
  have := held.tokens_left
  omega

/-- The oldest file goes, and the interval starts one later. -/
theorem Steady.oldestGone (held : Steady left s) (goes : (s.dir.find s.store.oldestToken).isSome) :
    Steady left (withoutOldest s) := by
  obtain ⟨file, found⟩ := Option.isSome_iff_exists.mp goes
  have bounds := (held.stored _).mp goes
  have tokens := held.tokens_left
  have sum := total_erase found
  have size := held.size
  have within := held.within
  have small := held.small
  have freed : sizeWithout s 1 = s.store.currentSize - file.length := by
    rw [sizeWithout, sizeWithout, Nat.add_zero, u64_of_lt held.word, found]
    exact usub_of_le (by show file.length ≤ _; omega) (by omega)
  have next : u64 (s.store.oldestToken + 1) = s.store.oldestToken + 1 := u64_of_lt (by omega)
  have shape : withoutOldest s = ⟨⟨s.store.currentSize - file.length, s.store.oldestToken + 1,
      s.store.currentToken, s.store.maxSize⟩, s.dir.erase s.store.oldestToken⟩ := by
    unfold withoutOldest
    rw [freed, next]
  rw [shape]
  refine ⟨⟨fun token => ?_, ?_⟩, bounds.2, tokens, ?_, small⟩
  · show ((s.dir.erase s.store.oldestToken).find token).isSome ↔ s.store.oldestToken + 1 ≤ token ∧ _
    rw [SortedMap.find_erase]
    split
    · next same =>
      refine iff_of_false nofun fun high => ?_
      omega
    · next other =>
      rw [held.stored token]
      dsimp only
      omega
  · show s.store.currentSize - file.length = total (s.dir.erase s.store.oldestToken)
    omega
  · show s.store.currentSize - file.length ≤ s.store.maxSize
    omega

/-- So it stays while the loop makes room, and when the loop ends well there is room. -/
theorem Steady.evicted (held : Steady left s) (size_small : size < 2 ^ 63) (turns : ℕ) :
    Steady left (evict removable size turns s).1 ∧
      ((evict removable size turns s).2 = .ok () →
        (evict removable size turns s).1.store.currentSize + size ≤ (evict removable size turns s).1.store.maxSize) := by
  induction turns generalizing s with
  | zero => exact ⟨held, nofun⟩
  | succ turns ih =>
    have within := held.within
    have small := held.small
    by_cases exceeds : s.store.maxSize < u64 (s.store.currentSize + size)
    · by_cases goes : Removable removable s s.store.oldestToken
      · rw [evict_oldest held.word exceeds goes]
        exact ih (held.oldestGone goes.1)
      · obtain ⟨failure, stuck⟩ := evict_stuck exceeds goes turns
        rw [stuck]
        exact ⟨held, nofun⟩
    · rw [evict_fits exceeds]
      rw [u64_of_lt (by omega)] at exceeds
      exact ⟨held, fun _ => Nat.not_lt.mp exceeds⟩

theorem Steady.weaken (held : Steady (left + 1) s) : Steady left s :=
  { held with tokens_left := by have := held.tokens_left; omega }

/-- The current token is free. -/
theorem Sound.free (sound : Sound s) : s.dir.find s.store.currentToken = none := by
  cases found : s.dir.find s.store.currentToken with
  | none => rfl
  | some file => exact absurd ((sound.stored _).mp (by rw [found]; rfl)).2 (lt_irrefl _)

/-- A file put under the current token. -/
theorem Steady.stored_file (held : Steady (left + 1) s) (room : s.store.currentSize + file.length ≤ s.store.maxSize) :
    Steady left ⟨{ s.store with
      currentToken := u64 (s.store.currentToken + 1)
      currentSize := u64 (s.store.currentSize + file.length) }, s.dir.insert s.store.currentToken file⟩ := by
  have order := held.order
  have tokens := held.tokens_left
  have small := held.small
  have sum := total_insert held.free file
  have size := held.size
  have next : u64 (s.store.currentToken + 1) = s.store.currentToken + 1 := u64_of_lt (by omega)
  have grown : u64 (s.store.currentSize + file.length) = s.store.currentSize + file.length := u64_of_lt (by omega)
  rw [next, grown]
  refine ⟨⟨fun token => ?_, ?_⟩, ?_, ?_, room, small⟩
  · show ((s.dir.insert s.store.currentToken file).find token).isSome ↔
      s.store.oldestToken ≤ token ∧ token < s.store.currentToken + 1
    rw [SortedMap.find_insert]
    split
    · exact iff_of_true rfl (by omega)
    · rw [held.stored token]
      omega
  · show s.store.currentSize + file.length = total (s.dir.insert s.store.currentToken file)
    omega
  · show s.store.oldestToken ≤ s.store.currentToken + 1
    omega
  · show s.store.currentToken + 1 + left < 2 ^ 64
    omega

/-- A store of a file whose rename does not fail. -/
theorem Steady.store (held : Steady (left + 1) s) (small : file.length < 2 ^ 63) :
    Steady left (store removable true s file).1 ∧ ∀ token, (store removable true s file).2 = .ok token →
      s.dir.find token = none ∧
        (store removable true s file).1.store.currentSize ≤ (store removable true s file).1.store.maxSize := by
  have loop : Steady (left + 1) (evict removable file.length (s.dir.entries.length + 1) s).1 ∧ _ :=
    held.evicted small _
  have same : (evict removable file.length (s.dir.entries.length + 1) s).1.store.currentToken = _ :=
    evict_currentToken held.word _
  rcases ended : evict removable file.length (s.dir.entries.length + 1) s with ⟨after, result⟩
  rw [ended] at loop same
  cases result with
  | error failure =>
    rw [store_of_evict_error ended]
    exact ⟨loop.1.weaken, nofun⟩
  | ok _ =>
    have steady := loop.1.stored_file (loop.2 rfl)
    rw [store_of_evict_ok ended]
    refine ⟨steady, fun token assigned => ⟨?_, steady.within⟩⟩
    cases assigned
    rw [show after.store.currentToken = s.store.currentToken from same]
    exact held.free

/-- Deleting the oldest file, or failing to. -/
theorem Steady.delete (held : Steady left s) : Steady left (perform s (.delete removable)).1 := by
  by_cases goes : Removable removable s s.store.oldestToken
  · obtain ⟨size, deleted⟩ := delete_oldest held.word goes
    have moves : perform s (.delete removable) = (withoutOldest s, .ok size) := by rw [perform, deleted]
    rw [moves]
    exact held.oldestGone goes.1
  · obtain ⟨failure, failed⟩ := delete_error goes
    have stays : perform s (.delete removable) = (s, .error failure) := by rw [perform, failed]
    rw [stays]
    exact held

/-- An empty directory makes a new store. -/
theorem steady_new (small : maxSize ≤ 2 ^ 63) (few : left < 2 ^ 64) :
    Steady left (new maxSize SortedMap.empty [] []) where
  stored token := iff_of_false nofun fun bounds => Nat.not_lt_zero _ bounds.2
  size := rfl
  order := le_refl _
  tokens_left := by show 0 + left < 2 ^ 64; omega
  within := Nat.zero_le _
  small := small

/-- A restart that finds a file takes the last name for a token that is free. -/
theorem not_sound_restart (listed : Listed s (.restart maxSize first last)) (found : s.dir ≠ SortedMap.empty) :
    ¬ Sound (perform s (.restart maxSize first last)).1 := by
  intro sound
  have names : tokens s.dir ≠ [] := by
    intro none
    apply found
    ext1 token
    cases held : s.dir.find token with
    | none => rfl
    | some file =>
      have member := List.mem_map_of_mem (f := Prod.fst) (SortedMap.mem_entries_iff.mpr held)
      rw [show s.dir.entries.map Prod.fst = [] from none] at member
      cases member
  have shown : last ≠ [] := fun none => names (List.nil_perm.mp (none ▸ listed.2))
  have current : (perform s (.restart maxSize first last)).1.store.currentToken = last.getLast shown := by
    show last.getLast?.getD 0 = _
    rw [List.getLast?_eq_some_getLast shown]
    rfl
  have member : last.getLast shown ∈ tokens s.dir := listed.2.subset (List.getLast_mem shown)
  obtain ⟨⟨token, file⟩, entry, same⟩ := List.mem_map.mp member
  have held : (s.dir.find (last.getLast shown)).isSome := by
    rw [← same]
    exact Option.isSome_of_mem (SortedMap.mem_entries_iff.mp entry)
  have below := ((sound.stored _).mp held).2
  rw [current] at below
  exact lt_irrefl _ below

/-- One event of a run: fine unless it is a restart that finds a file. -/
theorem Steady.fine (held : Steady (left + 1) s) (regular : Regular event) (few : left < 2 ^ 64)
    (empty : ∀ maxSize first last, event = .restart maxSize first last → s.dir = SortedMap.empty)
    (listed : Listed s event) : Fine s event ∧ Steady left (perform s event).1 := by
  cases event with
  | store file removable renames =>
    obtain ⟨rfl, small⟩ := regular
    obtain ⟨steady, assigned⟩ : Steady left (DeletedFiles.store removable true s file).1 ∧ _ := held.store small
    exact ⟨⟨steady.toSound, fun _ _ _ token _ made => assigned token made⟩, steady⟩
  | delete removable =>
    have steady : Steady left (perform s (.delete removable)).1 := held.weaken.delete
    exact ⟨⟨steady.toSound, fun _ _ _ _ same => by cases same⟩, steady⟩
  | restart maxSize first last =>
    have none := empty maxSize first last rfl
    have names : tokens s.dir = [] := by rw [none]; rfl
    have first_nil : first = [] := List.perm_nil.mp (names ▸ listed.1)
    have last_nil : last = [] := List.perm_nil.mp (names ▸ listed.2)
    have steady : Steady left (perform s (.restart maxSize first last)).1 := by
      rw [perform, none, first_nil, last_nil]
      exact steady_new regular few
    exact ⟨⟨steady.toSound, fun _ _ _ _ same => by cases same⟩, steady⟩

theorem allFine_iff (events : List Event) (held : Steady events.length s) (few : events.length < 2 ^ 64)
    (regular : ∀ event ∈ events, Regular event) (listed : AllListed s events) :
    AllFine s events ↔ RestartsEmpty s events := by
  induction events generalizing s with
  | nil => exact Iff.rfl
  | cons event events ih =>
    rw [List.length_cons] at held few
    by_cases empty : ∀ maxSize first last, event = .restart maxSize first last → s.dir = SortedMap.empty
    · obtain ⟨fine, steady⟩ := held.fine (regular event List.mem_cons_self) (by omega) empty listed.1
      have rest := ih steady (by omega) (fun event member => regular event (List.mem_cons_of_mem _ member)) listed.2
      exact ⟨fun all => ⟨empty, rest.mp all.2⟩, fun empties => ⟨fine, rest.mpr empties.2⟩⟩
    · refine iff_of_false (fun all => ?_) fun empties => empty empties.1
      push Not at empty
      obtain ⟨maxSize, first, last, rfl, found⟩ := empty
      exact not_sound_restart listed.1 found all.1.1

end

/-- From an empty store on, the tokens are the interval between the counters, no
token is given out while a file is stored under it, and the size is exact and
within its limit, as long as no restart finds a file; and only so long. -/
theorem tokens_unique_iff (maxSize : ℕ) (small : maxSize ≤ 2 ^ 63) (events : List Event)
    (few : events.length < 2 ^ 64) (regular : ∀ event ∈ events, Regular event)
    (listed : AllListed (new maxSize SortedMap.empty [] []) events) :
    AllFine (new maxSize SortedMap.empty [] []) events ↔ RestartsEmpty (new maxSize SortedMap.empty [] []) events :=
  allFine_iff events (steady_new small few) few regular listed

/-- After a restart the next file goes over the last one. -/
theorem restart_overwrites :
    ¬ AllFine (new 10 SortedMap.empty [] []) [.store [7] (fun _ => true) true, .restart 10 [0] [0]] ∧
      (perform (perform (perform (new 10 SortedMap.empty [] []) (.store [7] (fun _ => true) true)).1
        (.restart 10 [0] [0])).1 (.store [8] (fun _ => true) true)).1.dir.find 0 = some [8] := by
  refine ⟨fun all => ?_, rfl⟩
  exact absurd (all.2.1.1.stored 0) (by decide)

/-- A file is stored and deleted before the restart. -/
def deletedBeforeRestart : List Event :=
  [.store [7] (fun _ => true) true, .delete (fun _ => true), .restart 10 [] [], .store [8] (fun _ => true) true]

theorem empty_restart_fine : AllFine (new 10 SortedMap.empty [] []) deletedBeforeRestart :=
  (tokens_unique_iff 10 (by decide) deletedBeforeRestart (by decide) (by simp [deletedBeforeRestart, Regular])
    ⟨trivial, trivial, ⟨.nil, .nil⟩, trivial, trivial⟩).mpr ⟨nofun, nofun, fun _ _ _ _ => rfl, nofun, trivial⟩

end Fsyncer.DeletedFiles
