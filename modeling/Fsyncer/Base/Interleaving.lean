import Mathlib.Data.List.Basic
import Mathlib.Data.List.Nodup
import Mathlib.Logic.Function.Basic

/-! Systems of threads and processes that move one step at a time: the states
their runs reach, the queues between them, and operations that may be executed
in another order than the one they were handed out in. -/
namespace Fsyncer.Interleaving

section Runs

variable {S E : Type}

/-- The states that runs from `start` reach when every step is `allowed`. -/
inductive Reaches (step : S → E → S → Prop) (allowed : S → E → Prop) (start : S) : S → Prop where
  | refl : Reaches step allowed start start
  | next (reached : Reaches step allowed start s) (moves : step s e s') (fine : allowed s e) :
      Reaches step allowed start s'

variable {step : S → E → S → Prop} {allowed other : S → E → Prop} {start s : S}

theorem Reaches.invariant {motive : S → Prop} (reached : Reaches step allowed start s) (holds : motive start)
    (kept : ∀ s e s', motive s → step s e s' → allowed s e → motive s') : motive s := by
  induction reached with
  | refl => exact holds
  | next _ moves fine ih => exact kept _ _ _ ih moves fine

theorem Reaches.weaken (reached : Reaches step allowed start s) (weaker : ∀ s e, allowed s e → other s e) :
    Reaches step other start s := by
  induction reached with
  | refl => exact .refl
  | next _ moves fine ih => exact .next ih moves (weaker _ _ fine)

/-- Any run at all. -/
def anyStep : S → E → Prop := fun _ _ => True

end Runs

section Queues

variable {M : Type}

/-- A first-in first-out queue that remembers what was taken out of it. -/
structure Fifo (M : Type) where
  taken : List M
  waiting : List M
  deriving DecidableEq, Repr

def Fifo.empty : Fifo M := ⟨[], []⟩

/-- Everything ever put in, in that order. -/
def Fifo.all (q : Fifo M) : List M := q.taken ++ q.waiting

def Fifo.push (q : Fifo M) (messages : List M) : Fifo M := ⟨q.taken, q.waiting ++ messages⟩

def Fifo.pop (q : Fifo M) : Fifo M := ⟨q.taken ++ q.waiting.take 1, q.waiting.drop 1⟩

@[simp] theorem Fifo.waiting_push (q : Fifo M) (messages : List M) :
    (q.push messages).waiting = q.waiting ++ messages := rfl

@[simp] theorem Fifo.all_push (q : Fifo M) (messages : List M) : (q.push messages).all = q.all ++ messages := by
  simp only [all, push, List.append_assoc]

@[simp] theorem Fifo.all_pop (q : Fifo M) : q.pop.all = q.all := by
  simp only [all, pop, List.append_assoc, List.take_append_drop]

@[simp] theorem Fifo.waiting_pop (q : Fifo M) : q.pop.waiting = q.waiting.tail := by
  simp only [pop, List.drop_one]

end Queues

section Replays

variable {A S : Type} (effect : A → S → S)

def replay (ops : List A) (s : S) : S := ops.foldl (fun s a => effect a s) s

/-- The order of the two makes no difference. -/
def Commutes (a b : A) : Prop := ∀ s, effect a (effect b s) = effect b (effect a s)

variable {effect}

@[simp] theorem replay_nil (s : S) : replay effect [] s = s := rfl

@[simp] theorem replay_cons (a : A) (ops : List A) (s : S) :
    replay effect (a :: ops) s = replay effect ops (effect a s) := rfl

theorem replay_append (first second : List A) (s : S) :
    replay effect (first ++ second) s = replay effect second (replay effect first s) :=
  List.foldl_append

/-- An operation may overtake those it commutes with. -/
theorem replay_overtake (front back : List A) (a : A) (s : S) (commute : ∀ b ∈ front, Commutes effect a b) :
    replay effect (front ++ a :: back) s = replay effect (front ++ back) (effect a s) := by
  induction front generalizing s with
  | nil => rfl
  | cons b front ih =>
    rw [List.cons_append, replay_cons, ih _ fun c member => commute c (List.mem_cons_of_mem b member),
      commute b List.mem_cons_self s]
    rfl

end Replays

section Pending

variable {T A : Type}

/-- Every thread has at most one item in hand, and `items` are all of them, in
some order of the threads. -/
def Pending (inHand : T → Option A) (items : List A) : Prop :=
  ∃ threads : List T, threads.Nodup ∧ (∀ t, t ∈ threads ↔ inHand t ≠ none) ∧ threads.filterMap inHand = items

variable {inHand : T → Option A} {items : List A}

theorem Pending.nil (free : ∀ t, inHand t = none) : Pending inHand [] :=
  ⟨[], List.nodup_nil, by simp [free], rfl⟩

theorem Pending.eq_nil (pending : Pending inHand items) (free : ∀ t, inHand t = none) : items = [] := by
  obtain ⟨threads, _, members, rfl⟩ := pending
  rw [List.filterMap_eq_nil_iff]
  exact fun t _ => free t

theorem Pending.mem (pending : Pending inHand items) (holds : inHand t = some a) : a ∈ items := by
  obtain ⟨threads, _, members, rfl⟩ := pending
  exact List.mem_filterMap.mpr ⟨t, (members t).mpr (by simp [holds]), holds⟩

variable [DecidableEq T]

private theorem filterMap_update {threads : List T} (absent : t ∉ threads) (item : Option A) :
    threads.filterMap (Function.update inHand t item) = threads.filterMap inHand := by
  refine List.filterMap_congr fun u member => Function.update_of_ne ?_ ..
  rintro rfl
  exact absent member

/-- A thread takes an item in hand. -/
theorem Pending.take (pending : Pending inHand items) (free : inHand t = none) (a : A) :
    Pending (Function.update inHand t (some a)) (items ++ [a]) := by
  obtain ⟨threads, distinct, members, rfl⟩ := pending
  have absent : t ∉ threads := fun member => (members t).mp member free
  refine ⟨threads ++ [t], ?_, fun u => ?_, ?_⟩
  · refine List.nodup_append'.mpr ⟨distinct, List.nodup_singleton t, fun u member same => ?_⟩
    exact absent (List.mem_singleton.mp same ▸ member)
  · by_cases same : u = t
    · simp [same]
    · simp [members, same]
  · rw [List.filterMap_append, filterMap_update absent]
    simp

/-- A thread puts its item down; the others have the rest in hand. -/
theorem Pending.put (pending : Pending inHand items) (holds : inHand t = some a) :
    ∃ front back, items = front ++ a :: back ∧ Pending (Function.update inHand t none) (front ++ back) ∧
      ∀ b ∈ front ++ back, ∃ u, u ≠ t ∧ inHand u = some b := by
  obtain ⟨threads, distinct, members, rfl⟩ := pending
  obtain ⟨front, back, rfl⟩ := List.append_of_mem ((members t).mpr (by simp [holds]))
  have absent : t ∉ front ++ back := (List.nodup_middle.mp distinct).notMem
  have rest : (front ++ back).filterMap (Function.update inHand t none) =
      front.filterMap inHand ++ back.filterMap inHand := by
    rw [filterMap_update absent, List.filterMap_append]
  refine ⟨front.filterMap inHand, back.filterMap inHand, ?_, ⟨front ++ back, ?_, fun u => ?_, rest⟩, ?_⟩
  · rw [List.filterMap_append, List.filterMap_cons_some holds]
  · exact (List.nodup_cons.mp (List.nodup_middle.mp distinct)).2
  · by_cases same : u = t
    · simpa [same] using absent
    · have member := members u
      simpa [same] using member
  · intro b member
    rw [← List.filterMap_append, List.mem_filterMap] at member
    obtain ⟨u, member, holds⟩ := member
    exact ⟨u, fun same => absent (same ▸ member), holds⟩

end Pending

end Fsyncer.Interleaving
