import Fsyncer.Base.ByteFile
import Fsyncer.Base.Interleaving
import Fsyncer.Base.Machine
import Mathlib.Algebra.Order.BigOperators.Group.List
import Mathlib.Tactic.Linarith
import Mathlib.Tactic.Ring

/-! The writer that limits the rate. Credit grows with the whole milliseconds
that have passed since it was last counted, and a write that exceeds it sleeps
for the whole milliseconds that make up for the rest: what is left of the
division is given away, at every write that waits. Instants are nanoseconds. -/
namespace Fsyncer.RateLimiter
open Fsyncer.ByteFile Fsyncer.Interleaving Fsyncer.Machine

structure LimitWriter where
  bytesLeft : ℕ
  bps : ℕ
  lastUpdated : ℕ
  blocking : Bool
  partialWrites : Bool
  deriving DecidableEq, Repr

def LimitWriter.new (bps now : ℕ) : LimitWriter := ⟨bps, bps, now, true, false⟩

/-- Nanoseconds in a millisecond. -/
def milli : ℕ := 10 ^ 6

/-- `bytes_left` after the time since `last_updated` has been credited. -/
def LimitWriter.credited (w : LimitWriter) (length now : ℕ) : ℕ :=
  u64 (w.bytesLeft + min (u64 (u64 ((now - w.lastUpdated) / milli) * (w.bps / 1000)))
    (max (usub length w.bytesLeft) w.bps))

/-- `write` up to the call of the inner writer: how much of the buffer may go. -/
def LimitWriter.allow (w : LimitWriter) (length now : ℕ) (sleepUntil : ℕ → ℕ) :
    Except Failure (LimitWriter × ℕ) :=
  if w.bps = 0 then .ok (w, length) -- Unlimited
  else if length ≤ w.bytesLeft then .ok (w, length)
  else if w.partialWrites ∧ w.bytesLeft ≠ 0 then .ok (w, min w.bytesLeft length)
  else if length ≤ w.credited length now then
    .ok ({ w with bytesLeft := w.credited length now, lastUpdated := now }, length)
  else if w.blocking then
    if w.bps / 1000 = 0 then .error (.panic "attempt to divide by zero")
    else .ok ({ w with
      bytesLeft := w.credited length now
      lastUpdated := sleepUntil (now + milli * ((length - w.credited length now) / (w.bps / 1000))) }, length)
  else .error (.io (.other "IO limit exceeded"))

/-- `write` of a buffer over an inner writer that says how much it took. -/
def LimitWriter.write (w : LimitWriter) (length now : ℕ) (sleepUntil : ℕ → ℕ) (inner : ℕ → Except Failure ℕ) :
    Except Failure (LimitWriter × ℕ) := do
  let (w, length) ← w.allow length now sleepUntil
  let written ← inner length
  .ok ({ w with bytesLeft := w.bytesLeft - min written w.bytesLeft }, written)

/-- The writer, the time, and what the inner writer was passed at which time. -/
structure Run where
  writer : LimitWriter
  clock : ℕ
  passed : List (ℕ × ℕ)

def Run.start (bps now : ℕ) : Run := ⟨LimitWriter.new bps now, now, []⟩

/-- A call of `write`: the time it is made, the sleep it may get, and the time
at which the inner writer has the buffer. -/
structure Call where
  length : ℕ
  now : ℕ
  sleepUntil : ℕ → ℕ
  done : ℕ

/-- The clock never goes back, a sleep ends after the instant it was for, and
the inner writer takes every buffer whole. -/
def Step (run : Run) (call : Call) (after : Run) : Prop :=
  call.length < 2 ^ 63 ∧ run.clock ≤ call.now ∧ (∀ instant, instant < call.sleepUntil instant) ∧
    ∃ writer written, run.writer.write call.length call.now call.sleepUntil .ok = .ok (writer, written) ∧
      call.now ≤ call.done ∧ writer.lastUpdated ≤ call.done ∧
        after = ⟨writer, call.done, run.passed ++ [(call.done, written)]⟩

/-- The bytes passed on up to an instant. -/
def Run.bytesUntil (run : Run) (instant : ℕ) : ℕ :=
  ((run.passed.filter fun pass => pass.1 ≤ instant).map Prod.snd).sum

def Run.total (run : Run) : ℕ := (run.passed.map Prod.snd).sum

def Run.largest (run : Run) : ℕ := (run.passed.map Prod.snd).foldr max 0

/-- Within `t` milliseconds no more than the initial credit, `t + 1`
milliseconds' worth and one buffer. -/
def Limited (bps start : ℕ) (run : Run) : Prop :=
  ∀ t, run.bytesUntil (start + milli * t) ≤ bps + bps / 1000 * (t + 1) + run.largest

/-- The write falls short of the credit by whole milliseconds' worth, if at all. -/
def Whole (run : Run) (call : Call) : Prop :=
  run.writer.bps / 1000 ∣ call.length - run.writer.credited call.length call.now

/-- Credit grows no faster than the rate. -/
theorem credited_le (w : LimitWriter) (length now : ℕ) :
    milli * w.credited length now ≤ milli * w.bytesLeft + w.bps / 1000 * (now - w.lastUpdated) := by
  have whole : milli * ((now - w.lastUpdated) / milli) ≤ now - w.lastUpdated := Nat.mul_div_le ..
  have elapsed : u64 ((now - w.lastUpdated) / milli) ≤ (now - w.lastUpdated) / milli := Nat.mod_le ..
  have wrapped : w.credited length now ≤ w.bytesLeft + (now - w.lastUpdated) / milli * (w.bps / 1000) :=
    calc w.credited length now
      _ ≤ _ := Nat.mod_le ..
      _ ≤ w.bytesLeft + u64 (u64 ((now - w.lastUpdated) / milli) * (w.bps / 1000)) :=
        Nat.add_le_add_left (min_le_left ..) _
      _ ≤ w.bytesLeft + u64 ((now - w.lastUpdated) / milli) * (w.bps / 1000) :=
        Nat.add_le_add_left (Nat.mod_le ..) _
      _ ≤ _ := Nat.add_le_add_left (Nat.mul_le_mul_right _ elapsed) _
  calc milli * w.credited length now
    _ ≤ milli * (w.bytesLeft + (now - w.lastUpdated) / milli * (w.bps / 1000)) := Nat.mul_le_mul_left _ wrapped
    _ = milli * w.bytesLeft + w.bps / 1000 * (milli * ((now - w.lastUpdated) / milli)) := by ring
    _ ≤ _ := Nat.add_le_add_left (Nat.mul_le_mul_left _ whole) _

/-- What a blocking writer without partial writes does with a buffer: it has the
credit, it has it after counting the time, or it sleeps. -/
theorem write_cases {w : LimitWriter} (limits : w.bps / 1000 ≠ 0) (blocks : w.blocking = true)
    (whole : w.partialWrites = false)
    (wrote : w.write length now sleepUntil .ok = .ok (after, written)) :
    written = length ∧
      (length ≤ w.bytesLeft ∧ after = { w with bytesLeft := w.bytesLeft - length } ∨
      length ≤ w.credited length now ∧
        after = { w with bytesLeft := w.credited length now - length, lastUpdated := now } ∨
      w.credited length now < length ∧ after = { w with
        bytesLeft := 0
        lastUpdated := sleepUntil (now + milli * ((length - w.credited length now) / (w.bps / 1000))) }) := by
  obtain ⟨⟨allowed_writer, taken⟩, allows, rest⟩ := bind_ok.mp wrote
  cases rest
  have limited : w.bps ≠ 0 := fun none => limits (by rw [none])
  rw [LimitWriter.allow, if_neg limited] at allows
  by_cases enough : length ≤ w.bytesLeft
  · rw [if_pos enough] at allows
    cases allows
    exact ⟨rfl, Or.inl ⟨enough, by rw [min_eq_left enough]⟩⟩
  rw [if_neg enough, if_neg (by rw [whole]; exact fun partly => Bool.false_ne_true partly.1)] at allows
  by_cases counted : length ≤ w.credited length now
  · rw [if_pos counted] at allows
    cases allows
    exact ⟨rfl, Or.inr (Or.inl ⟨counted, by dsimp only; rw [min_eq_left counted]⟩)⟩
  · rw [if_neg counted, if_pos blocks, if_neg limits] at allows
    cases allows
    refine ⟨rfl, Or.inr (Or.inr ⟨by omega, ?_⟩)⟩
    dsimp only
    rw [min_eq_right (by omega), Nat.sub_self]

/-- The time that a whole shortfall is slept makes up for it. -/
theorem slept_pays (divides : rate ∣ short) (slept : now + milli * (short / rate) < woken) :
    milli * short ≤ rate * (woken - now) := by
  obtain ⟨count, rfl⟩ := divides
  rcases Nat.eq_zero_or_pos rate with rfl | positive
  · simp
  · rw [Nat.mul_div_cancel_left _ positive] at slept
    calc milli * (rate * count)
      _ = rate * (milli * count) := by ring
      _ ≤ _ := Nat.mul_le_mul_left _ (by omega)

/-- A write that falls short by whole milliseconds' worth is paid from the
credit and the time that it counts. -/
theorem write_pays {w : LimitWriter} (limits : w.bps / 1000 ≠ 0) (blocks : w.blocking = true)
    (whole : w.partialWrites = false) (order : w.lastUpdated ≤ now) (sleeps : ∀ instant, instant < sleepUntil instant)
    (divides : w.bps / 1000 ∣ length - w.credited length now)
    (wrote : w.write length now sleepUntil .ok = .ok (after, written)) :
    after.bps = w.bps ∧ after.blocking = true ∧ after.partialWrites = false ∧ w.lastUpdated ≤ after.lastUpdated ∧
      milli * (written + after.bytesLeft) ≤
        milli * w.bytesLeft + w.bps / 1000 * (after.lastUpdated - w.lastUpdated) := by
  have earned := credited_le w length now
  obtain ⟨rfl, ⟨enough, rfl⟩ | ⟨enough, rfl⟩ | ⟨short, rfl⟩⟩ := write_cases limits blocks whole wrote
  · refine ⟨rfl, blocks, whole, le_refl _, ?_⟩
    show milli * (written + (w.bytesLeft - written)) ≤ _
    rw [Nat.add_sub_cancel' enough]
    exact Nat.le_add_right ..
  · refine ⟨rfl, blocks, whole, order, ?_⟩
    show milli * (written + (w.credited written now - written)) ≤ _
    rw [Nat.add_sub_cancel' enough]
    exact earned
  · have woken := sleeps (now + milli * ((written - w.credited written now) / (w.bps / 1000)))
    refine ⟨rfl, blocks, whole, ?_, ?_⟩
    · show w.lastUpdated ≤ sleepUntil _
      omega
    · have paid := slept_pays divides woken
      have missing : written + 0 = w.credited written now + (written - w.credited written now) := by omega
      have elapsed : now - w.lastUpdated +
          (sleepUntil (now + milli * ((written - w.credited written now) / (w.bps / 1000))) - now) =
          sleepUntil (now + milli * ((written - w.credited written now) / (w.bps / 1000))) - w.lastUpdated := by omega
      show milli * (written + 0) ≤ _
      dsimp only
      rw [missing, ← elapsed, Nat.mul_add, Nat.mul_add]
      linarith

/-- What has been passed on and what may still be is covered by the initial
credit and the time that has been counted. -/
structure Covered (bps start : ℕ) (run : Run) : Prop where
  rate : run.writer.bps = bps
  blocks : run.writer.blocking = true
  whole : run.writer.partialWrites = false
  started : start ≤ run.writer.lastUpdated
  counted : run.writer.lastUpdated ≤ run.clock
  covered : milli * (run.total + run.writer.bytesLeft) ≤
    milli * bps + bps / 1000 * (run.writer.lastUpdated - start)
  limited : ∀ t, run.bytesUntil (start + milli * t) ≤ bps + bps / 1000 * t

theorem covered_start (bps now : ℕ) : Covered bps now (Run.start bps now) where
  rate := rfl
  blocks := rfl
  whole := rfl
  started := le_refl _
  counted := le_refl _
  covered := by simp [Run.start, LimitWriter.new, Run.total]
  limited t := by simp [Run.start, Run.bytesUntil]

theorem total_snoc (writer : LimitWriter) (clock : ℕ) (passed : List (ℕ × ℕ)) (pass : ℕ × ℕ) :
    (⟨writer, clock, passed ++ [pass]⟩ : Run).total = (passed.map Prod.snd).sum + pass.2 := by
  simp [Run.total]

theorem bytesUntil_le_total (run : Run) (instant : ℕ) : run.bytesUntil instant ≤ run.total :=
  (List.filter_sublist.map _).sum_le_sum fun _ _ => Nat.zero_le _

/-- Passes after an instant do not count. -/
theorem bytesUntil_snoc (writer : LimitWriter) (clock : ℕ) (passed : List (ℕ × ℕ)) (pass : ℕ × ℕ)
    (late : instant < pass.1) : (⟨writer, clock, passed ++ [pass]⟩ : Run).bytesUntil instant =
      ((passed.filter fun pass => pass.1 ≤ instant).map Prod.snd).sum := by
  have dropped : ¬ pass.1 ≤ instant := by omega
  simp [Run.bytesUntil, List.filter_append, dropped]

/-- A write that falls short by whole milliseconds' worth stays covered. -/
theorem Covered.step (held : Covered bps start run) (limits : 1000 ≤ bps) (moves : Step run call after)
    (fine : Whole run call) : Covered bps start after := by
  obtain ⟨-, order, sleeps, writer, written, wrote, later, counted, rfl⟩ := moves
  have started := held.started
  obtain ⟨rate, blocks, whole, onward, paid⟩ := write_pays (by rw [held.rate]; omega) held.blocks held.whole
    (held.counted.trans order) sleeps fine wrote
  rw [held.rate] at rate paid
  have covered : milli * (run.total + written + writer.bytesLeft) ≤
      milli * bps + bps / 1000 * (writer.lastUpdated - start) := by
    have before := held.covered
    have elapsed : run.writer.lastUpdated - start + (writer.lastUpdated - run.writer.lastUpdated) =
        writer.lastUpdated - start := by omega
    rw [← elapsed, Nat.mul_add (bps / 1000)]
    linarith
  refine ⟨rate, blocks, whole, started.trans onward, counted, ?_, fun t => ?_⟩
  · rw [total_snoc]
    exact covered
  · by_cases late : start + milli * t < call.done
    · rw [bytesUntil_snoc _ _ _ _ late]
      exact held.limited t
    · -- everything so far is counted, and so is the time up to then
      refine (bytesUntil_le_total _ _).trans ?_
      rw [total_snoc]
      have time : writer.lastUpdated - start ≤ milli * t := by omega
      have allowed : bps / 1000 * (writer.lastUpdated - start) ≤ milli * (bps / 1000 * t) :=
        calc bps / 1000 * (writer.lastUpdated - start)
          _ ≤ bps / 1000 * (milli * t) := Nat.mul_le_mul_left _ time
          _ = milli * (bps / 1000 * t) := by ring
      have less : milli * (run.total + written) ≤ milli * (run.total + written + writer.bytesLeft) :=
        Nat.mul_le_mul_left _ (Nat.le_add_right ..)
      refine Nat.le_of_mul_le_mul_left (?_ : milli * (run.total + written) ≤ milli * _) (by decide)
      rw [Nat.mul_add milli bps]
      exact less.trans (covered.trans (Nat.add_le_add_left allowed _))

/-- Less than a millisecond's worth, asked for within a millisecond of the last
count, goes after at most a nanosecond. -/
theorem write_hurried {w : LimitWriter} (blocks : w.blocking = true) (whole : w.partialWrites = false)
    (small : w.bytesLeft < 2 ^ 64) (soon : now - w.lastUpdated < milli) (little : length < w.bps / 1000) :
    ∃ after, w.write length now (· + 1) .ok = .ok (after, length) ∧ after.bps = w.bps ∧ after.blocking = true ∧
      after.partialWrites = false ∧ after.bytesLeft ≤ w.bytesLeft ∧
        (after.lastUpdated = w.lastUpdated ∨ after.lastUpdated = now + 1) := by
  have limited : w.bps ≠ 0 := by omega
  by_cases enough : length ≤ w.bytesLeft
  · refine ⟨{ w with bytesLeft := w.bytesLeft - min length w.bytesLeft }, ?_, rfl, blocks, whole, Nat.sub_le ..,
      Or.inl rfl⟩
    rw [LimitWriter.write, LimitWriter.allow, if_neg limited, if_pos enough]
    rfl
  · have none : w.credited length now = w.bytesLeft := by
      rw [LimitWriter.credited, Nat.div_eq_of_lt soon]
      simp only [u64, Nat.zero_mod, Nat.zero_mul, Nat.zero_min, Nat.add_zero]
      exact Nat.mod_eq_of_lt small
    have no_wait : (length - w.credited length now) / (w.bps / 1000) = 0 := Nat.div_eq_of_lt (by omega)
    refine ⟨{ w with bytesLeft := w.bytesLeft - min length w.bytesLeft, lastUpdated := now + 1 }, ?_, rfl, blocks,
      whole, Nat.sub_le .., Or.inr rfl⟩
    rw [LimitWriter.write, LimitWriter.allow, if_neg limited, if_neg enough,
      if_neg (by rw [whole]; exact fun partly => Bool.false_ne_true partly.1), if_neg (by omega), if_pos blocks,
      if_neg (by omega), no_wait, none]
    rfl

/-- In as many nanoseconds as writes, up to a millisecond, every write of one
byte less than a millisecond's worth goes through. -/
theorem hurried_run (large : 2000 ≤ bps) (usize : bps < 2 ^ 64) (few : k ≤ milli) :
    ∃ run, Reaches Step anyStep (Run.start bps 0) run ∧ run.writer.bps = bps ∧ run.writer.blocking = true ∧
      run.writer.partialWrites = false ∧ run.writer.bytesLeft ≤ bps ∧ run.writer.lastUpdated ≤ run.clock ∧
        run.clock ≤ k ∧ run.passed.map Prod.snd = List.replicate k (bps / 1000 - 1) ∧
          ∀ pass ∈ run.passed, pass.1 ≤ k := by
  induction k with
  | zero => exact ⟨_, .refl, rfl, rfl, rfl, le_refl _, le_refl _, le_refl _, rfl, nofun⟩
  | succ k ih =>
    obtain ⟨run, reached, rate, blocks, whole, left, counted, clock, lengths, times⟩ := ih (by omega)
    obtain ⟨after, wrote, rate', blocks', whole', left', updated⟩ :=
      write_hurried blocks whole (by omega) (by omega : run.clock - run.writer.lastUpdated < milli)
        (by rw [rate]; omega : bps / 1000 - 1 < run.writer.bps / 1000)
    have moves : Step run ⟨bps / 1000 - 1, run.clock, (· + 1), run.clock + 1⟩
        ⟨after, run.clock + 1, run.passed ++ [(run.clock + 1, bps / 1000 - 1)]⟩ :=
      ⟨by show bps / 1000 - 1 < _; omega, le_refl _, fun instant => Nat.lt_succ_self instant, after, _, wrote,
        Nat.le_succ _, by show after.lastUpdated ≤ run.clock + 1; omega, rfl⟩
    refine ⟨_, reached.next moves trivial, rate'.trans rate, blocks', whole', left'.trans left, ?_, ?_, ?_, ?_⟩
    · show after.lastUpdated ≤ run.clock + 1
      omega
    · show run.clock + 1 ≤ k + 1
      omega
    · rw [List.map_append, lengths, List.replicate_succ']
      rfl
    · intro pass listed
      rcases List.mem_append.mp listed with old | new
      · exact (times pass old).trans (Nat.le_succ _)
      · rw [List.mem_singleton.mp new]
        show run.clock + 1 ≤ k + 1
        omega

theorem foldr_max_replicate (k n : ℕ) : (List.replicate k n).foldr max 0 ≤ n := by
  induction k with
  | zero => exact Nat.zero_le _
  | succ k ih =>
    rw [List.replicate_succ, List.foldr_cons]
    exact max_le (le_refl _) ih

/-- From two bytes a millisecond on the limit can be exceeded. -/
theorem not_limited (large : 2000 ≤ bps) (usize : bps < 2 ^ 64) :
    ∃ run, Reaches Step anyStep (Run.start bps 0) run ∧ ¬ Limited bps 0 run := by
  obtain ⟨run, reached, -, -, -, -, -, -, lengths, times⟩ := hurried_run large usize (le_refl milli)
  refine ⟨run, reached, fun limited => ?_⟩
  have bound := limited 1
  have kept : run.passed.filter (fun pass => pass.1 ≤ 0 + milli * 1) = run.passed := by
    rw [List.filter_eq_self]
    intro pass listed
    have := times pass listed
    exact decide_eq_true (by omega)
  have biggest := foldr_max_replicate milli (bps / 1000 - 1)
  rw [Run.bytesUntil, kept, Run.largest, lengths, List.sum_replicate_nat] at bound
  have many : milli = 1000000 := rfl
  rw [many] at bound biggest
  omega

/-- In a run whose writes fall short by whole milliseconds' worth only, the
limit holds. -/
theorem limited_of_whole (limits : 1000 ≤ bps) (reached : Reaches Step allowed (Run.start bps start) run)
    (fine : ∀ run call, run.writer.bps = bps → allowed run call → Whole run call) : Limited bps start run := by
  have held : Covered bps start run := reached.invariant (covered_start bps start)
    fun _ _ _ held moves passes => held.step limits moves (fine _ _ held.rate passes)
  intro t
  have bound := held.limited t
  rw [Nat.mul_add]
  omega

/-- The limit holds in every run in which no write waits for a part of a
millisecond's worth. It holds in all runs only at one byte a millisecond, when
there are no parts. -/
theorem rate_limited_iff (bps : ℕ) (limits : 1000 ≤ bps) (usize : bps < 2 ^ 64) :
    (∀ start run, Reaches Step Whole (Run.start bps start) run → Limited bps start run) ∧
      ((∀ start run, Reaches Step anyStep (Run.start bps start) run → Limited bps start run) ↔ bps < 2000) := by
  refine ⟨fun start run reached => limited_of_whole limits reached fun _ _ _ whole => whole, fun all => ?_,
    fun small start run reached => limited_of_whole limits reached fun run call same _ => ?_⟩
  · by_contra large
    obtain ⟨run, reached, exceeds⟩ := not_limited (by omega : 2000 ≤ bps) usize
    exact exceeds (all 0 run reached)
  · have one : run.writer.bps / 1000 = 1 := by omega
    rw [Whole, one]
    exact one_dvd _

/-- At two bytes a millisecond a million writes of a byte go through in one. -/
theorem rate_exceeded : ¬ ∀ run, Reaches Step anyStep (Run.start 2000 0) run → Limited 2000 0 run := by
  intro all
  obtain ⟨run, reached, exceeds⟩ := not_limited (le_refl 2000) (by decide)
  exact exceeds (all run reached)

/-- A write of twice the credit waits for a second. -/
theorem waited_write_limited : ∃ run, Reaches Step Whole (Run.start 2000 0) run ∧
    run.passed = [(1000000001, 4000)] ∧ Limited 2000 0 run := by
  have moves : Step (Run.start 2000 0) ⟨4000, 0, (· + 1), 1000000001⟩
      ⟨⟨0, 2000, 1000000001, true, false⟩, 1000000001, [(1000000001, 4000)]⟩ :=
    ⟨by decide, by decide, fun instant => Nat.lt_succ_self instant, _, _, rfl, by decide, by decide, rfl⟩
  have reached := Reaches.refl.next moves (show Whole _ _ from ⟨1000, rfl⟩)
  exact ⟨_, reached, rfl, (rate_limited_iff 2000 (by decide) (by decide)).1 0 _ reached⟩

end Fsyncer.RateLimiter
