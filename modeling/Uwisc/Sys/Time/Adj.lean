import Mathlib.Algebra.BigOperators.Group.Finset.Basic
import Mathlib.Algebra.Order.Ring.Abs
import Mathlib.Tactic.Linarith
import Uwisc.Lib.System
import Uwisc.Sys.Time

/-!
# Slewing the clock

A tick takes `tickdelta` off what is left of a correction, until exactly nothing is left of it. So
a correction ends if and only if it is a multiple of `tickdelta` (`converges_iff`). That is what
`adjtime` rounds it for, but what it rounds to is a multiple of `tickadj`
(`adjtime_converges_iff`).
-/

namespace Uwisc.Time

open Function Lib

variable {r : Rates} {k k' : Kernel}

/-- Calls of `adjtime`, and ticks of the clock. -/
inductive Label
  | adjtime (suser : Bool) (atv : Option Timeval) (olddelta : Bool)
  | hardclock

def exec (r : Rates) (k : Kernel) : Label → Option Kernel
  | .adjtime suser atv olddelta => some (adjtime r k suser atv olddelta).1
  | .hardclock => some (hardclock r k)

/-- The runs from the time of day at boot. -/
def system (r : Rates) : System Kernel Label :=
  .ofExec { k | InRange 32 k.time.tv_sec ∧ k.tickdelta = 0 ∧ k.timedelta = 0 } (exec r)

/-- The correction is over when as many ticks have passed as it takes, and stays over, and all of
    it has been applied. -/
structure Converges (r : Rates) (k : Kernel) : Prop where
  zero : ∀ n : ℕ, |k.timedelta| / k.tickdelta ≤ n → ((hardclock r)^[n] k).timedelta = 0
  total : ∀ n : ℕ, |k.timedelta| / k.tickdelta ≤ n →
    ∑ i ∈ Finset.range n, (delta r ((hardclock r)^[i] k) - r.tick) = k.timedelta

/-- The skew is the standard one, or the correction is a multiple of the tenfold one, but for
    less than a `tickadj`. -/
def Exact (r : Rates) (k : Kernel) (ndelta : ℤ) : Prop :=
  (if k.timedelta = 0 then ndelta ≤ bigadj else k.tickdelta = r.tickadj) ∨ 10 ∣ ndelta.tdiv r.tickadj

/-- The seconds of the time of day overflow at the next tick. -/
def Overflows (r : Rates) (k : Kernel) : Prop :=
  k.time.tv_sec = 2147483647 ∧ 1000000 ≤ k.time.tv_usec + delta r k

/-! ### Every state -/

/-- What holds in every state of a run. -/
structure Inv (r : Rates) (k : Kernel) : Prop where
  inRange : InRange 32 k.time.tv_sec
  nonneg : 0 ≤ k.tickdelta
  tickdelta : k.timedelta ≠ 0 → k.tickdelta = r.tickadj ∨ k.tickdelta = 10 * r.tickadj

theorem Inv.hardclock (h : Inv r k) : Inv r (hardclock r k) := by
  obtain ⟨hrng, hnon, htic⟩ := h
  have hbump : (Time.hardclock r k).time = bumptime k.time (delta r k) := rfl
  refine ⟨?_, hnon, fun hne => htic fun hzero => hne ?_⟩
  · rw [hbump, bumptime]
    split_ifs
    · exact wrap_inRange ..
    · exact hrng
  · rw [Time.hardclock]
    dsimp only
    rw [if_pos hzero, hzero]

/-- The skew that `adjtime` picks. -/
theorem tickdelta_adjtime (h : Inv r k) (atv : Timeval) (olddelta : Bool) :
    (adjtime r k true (some atv) olddelta).1.tickdelta = r.tickadj ∨
      (adjtime r k true (some atv) olddelta).1.tickdelta = 10 * r.tickadj := by
  simp only [adjtime, Bool.not_true, Bool.false_eq_true, if_false]
  split_ifs with hzero
  · exact .inr rfl
  · exact .inl rfl
  · exact h.tickdelta hzero

theorem Inv.adjtime (h : Inv r k) (suser : Bool) (atv : Option Timeval) (olddelta : Bool) :
    Inv r (adjtime r k suser atv olddelta).1 := by
  cases suser with
  | false => exact h
  | true =>
    cases atv with
    | none => exact h
    | some atv =>
      have hpos := r.tickadj_pos
      have htic := tickdelta_adjtime h atv olddelta
      exact ⟨h.inRange, by omega, fun _ => htic⟩

theorem inv_of_reachable (hk : (system r).Reachable k) : Inv r k := by
  refine hk.invariant ?_ ?_
  · rintro k ⟨hrng, htic, htim⟩
    exact ⟨hrng, htic.ge, fun hne => absurd htim hne⟩
  · rintro k a k' h hstep
    cases a with
    | adjtime suser atv olddelta =>
      cases hstep
      exact h.adjtime suser atv olddelta
    | hardclock =>
      cases hstep
      exact h.hardclock

/-! ### Time goes on -/

theorem hardclock_forward_iff (h : Inv r k) (hlt : k.tickdelta < r.tick) :
    k.time.usecs ≤ (hardclock r k).time.usecs ↔ ¬Overflows r k := by
  obtain ⟨hrng, hnon, -⟩ := h
  have hrng := inRange_int.1 hrng
  have hpos := r.tick_pos
  have htick := r.tick_lt
  have hdelta : 0 < delta r k ∧ delta r k < 2000000 := by
    rw [delta]
    split_ifs <;> omega
  have hbump : (hardclock r k).time = bumptime k.time (delta r k) := rfl
  rw [hbump, bumptime, Overflows]
  by_cases hcry : 1000000 ≤ k.time.tv_usec + delta r k
  · rw [if_pos hcry]
    by_cases hlast : k.time.tv_sec = 2147483647
    · have hwrap : wrap 32 (2147483647 + 1) = -2147483648 := by decide
      rw [hlast, hwrap]
      dsimp only [Timeval.usecs]
      omega
    · have hwrap : wrap 32 (k.time.tv_sec + 1) = k.time.tv_sec + 1 := wrap_int (by omega) (by omega)
      rw [hwrap]
      dsimp only [Timeval.usecs]
      omega
  · rw [if_neg hcry]
    dsimp only [Timeval.usecs]
    omega

/-! ### The end of a correction -/

@[simp] theorem hardclock_tickdelta (k : Kernel) : (hardclock r k).tickdelta = k.tickdelta := rfl

@[simp] theorem iterate_tickdelta (k : Kernel) (n : ℕ) :
    ((hardclock r)^[n] k).tickdelta = k.tickdelta := by
  induction n with
  | zero => rfl
  | succ n ih => rw [iterate_succ_apply', hardclock_tickdelta, ih]

/-- What is applied at a tick is taken off what is left. -/
theorem hardclock_timedelta (k : Kernel) :
    (hardclock r k).timedelta = k.timedelta - (delta r k - r.tick) := by
  rw [hardclock, delta]
  dsimp only
  split_ifs <;> omega

/-- What is applied until some tick is no longer left. -/
theorem iterate_timedelta (k : Kernel) (n : ℕ) : ((hardclock r)^[n] k).timedelta =
      k.timedelta - ∑ i ∈ Finset.range n, (delta r ((hardclock r)^[i] k) - r.tick) := by
  induction n with
  | zero => simp
  | succ n ih =>
    rw [iterate_succ_apply', hardclock_timedelta, ih, Finset.sum_range_succ]
    omega

/-- A tick changes what is left by `tickdelta`, if by anything. -/
theorem dvd_hardclock_iff (k : Kernel) :
    k.tickdelta ∣ (hardclock r k).timedelta ↔ k.tickdelta ∣ k.timedelta := by
  rw [hardclock]
  dsimp only
  split_ifs
  · exact Iff.rfl
  · exact dvd_add_self_right
  · exact dvd_sub_self_right

theorem dvd_iterate_iff (k : Kernel) (n : ℕ) :
    k.tickdelta ∣ ((hardclock r)^[n] k).timedelta ↔ k.tickdelta ∣ k.timedelta := by
  induction n with
  | zero => exact Iff.rfl
  | succ n ih =>
    have h := dvd_hardclock_iff (r := r) ((hardclock r)^[n] k)
    rw [iterate_tickdelta] at h
    rw [iterate_succ_apply', h, ih]

/-- What is left of a multiple of `tickdelta` gets less by one of them at a tick. -/
theorem abs_hardclock (hpos : 0 < k.tickdelta) (hdvd : k.tickdelta ∣ k.timedelta) :
    |(hardclock r k).timedelta| = max 0 (|k.timedelta| - k.tickdelta) := by
  rw [hardclock]
  dsimp only
  split_ifs with hzero hneg
  · rw [hzero, abs_zero, zero_sub, max_eq_left (by omega)]
  · have hle := Int.le_of_dvd (by omega) (dvd_neg.2 hdvd)
    rw [abs_of_neg hneg, abs_of_nonpos (by omega)]
    omega
  · have htim : 0 < k.timedelta := by omega
    have hle := Int.le_of_dvd htim hdvd
    rw [abs_of_pos htim, abs_of_nonneg (by omega)]
    omega

theorem abs_iterate (hpos : 0 < k.tickdelta) (hdvd : k.tickdelta ∣ k.timedelta) (n : ℕ) :
    |((hardclock r)^[n] k).timedelta| = max 0 (|k.timedelta| - n * k.tickdelta) := by
  induction n with
  | zero => simp
  | succ n ih =>
    have h := abs_hardclock (r := r) (k := (hardclock r)^[n] k) (by rwa [iterate_tickdelta])
      (by rwa [iterate_tickdelta, dvd_iterate_iff])
    rw [iterate_tickdelta, ih] at h
    have hsucc : ((n + 1 : ℕ) : ℤ) * k.tickdelta = n * k.tickdelta + k.tickdelta := by
      push_cast
      linarith
    rw [iterate_succ_apply', h, hsucc]
    omega

/-- A correction ends if and only if it is a multiple of `tickdelta`. -/
theorem converges_iff (hpos : 0 < k.tickdelta) : Converges r k ↔ k.tickdelta ∣ k.timedelta := by
  constructor
  · intro h
    have hzero := h.zero (|k.timedelta| / k.tickdelta).toNat (Int.self_le_toNat _)
    rw [← dvd_iterate_iff (r := r) k, hzero]
    exact dvd_zero _
  · intro hdvd
    have hzero : ∀ n : ℕ, |k.timedelta| / k.tickdelta ≤ n → ((hardclock r)^[n] k).timedelta = 0 := by
      intro n hn
      have habs := abs_iterate (r := r) hpos hdvd n
      have hle : |k.timedelta| ≤ n * k.tickdelta := by
        rw [← Int.ediv_mul_cancel ((dvd_abs _ _).2 hdvd)]
        exact mul_le_mul_of_nonneg_right hn hpos.le
      rw [max_eq_left (by omega)] at habs
      exact abs_eq_zero.1 habs
    refine ⟨hzero, fun n hn => ?_⟩
    have h := iterate_timedelta (r := r) k n
    rw [hzero n hn] at h
    omega

/-! ### What adjtime stores -/

/-- Rounding to a multiple of `tickadj` is enough for a skew that is the standard one. -/
theorem dvd_round_iff {ndelta : ℤ} (hpos : 0 < r.tickadj) :
    (10 * r.tickadj ∣ if ndelta.tmod (10 * r.tickadj) ≠ 0 then ndelta.tdiv r.tickadj * r.tickadj
      else ndelta) ↔ 10 ∣ ndelta.tdiv r.tickadj := by
  by_cases h : ndelta.tmod (10 * r.tickadj) = 0
  · have hdvd := Int.dvd_of_tmod_eq_zero h
    rw [if_neg (not_not.2 h), iff_true_left hdvd]
    obtain ⟨q, rfl⟩ := hdvd
    rw [mul_right_comm, Int.mul_tdiv_cancel _ hpos.ne']
    exact dvd_mul_right 10 q
  · rw [if_pos h]
    exact mul_dvd_mul_iff_right hpos.ne'

theorem dvd_round {ndelta : ℤ} :
    r.tickadj ∣ if ndelta.tmod r.tickadj ≠ 0 then ndelta.tdiv r.tickadj * r.tickadj else ndelta := by
  split_ifs with h
  · exact dvd_mul_left _ _
  · exact Int.dvd_of_tmod_eq_zero (not_not.1 h)

/-- In every state of a run, time goes on at a tick but for the overflow of the seconds, and the
    correction that a call of `adjtime` starts comes to an end, and is applied as stored, if and
    only if the skew is the standard one or the correction allows for the tenfold one. -/
theorem adjtime_converges_iff (hk : (system r).Reachable k) :
    (k.tickdelta < r.tick → (k.time.usecs ≤ (hardclock r k).time.usecs ↔ ¬Overflows r k)) ∧
    ∀ atv olddelta, Converges r (adjtime r k true (some atv) olddelta).1 ↔ Exact r k atv.ndelta := by
  have hinv := inv_of_reachable hk
  refine ⟨hardclock_forward_iff hinv, fun atv olddelta => ?_⟩
  have hpos := r.tickadj_pos
  have htic := tickdelta_adjtime hinv atv olddelta
  rw [converges_iff (by omega), Exact]
  simp only [adjtime, Bool.not_true, Bool.false_eq_true, if_false]
  by_cases hzero : k.timedelta = 0
  · simp only [if_pos hzero]
    by_cases hbig : bigadj < atv.ndelta
    · simp only [if_pos hbig]
      rw [dvd_round_iff hpos, or_iff_right (by omega)]
    · simp only [if_neg hbig]
      exact iff_of_true dvd_round (.inl (not_lt.1 hbig))
  · simp only [if_neg hzero]
    rcases hinv.tickdelta hzero with heq | heq
    · rw [heq]
      exact iff_of_true dvd_round (.inl rfl)
    · rw [heq, dvd_round_iff hpos, or_iff_right (by omega)]

/-- The kernel at boot, at midnight on 1 January 1970. -/
def boot : Kernel := ⟨⟨0, 0⟩, 0, 0⟩

theorem boot_reachable (r : Rates) : (system r).Reachable boot :=
  .init ⟨by decide, rfl, rfl⟩

/-- A correction of a second comes to an end. -/
theorem adjtime_converges_iff_second :
    Converges .param (adjtime .param boot true (some ⟨1, 0⟩) false).1 :=
  ((adjtime_converges_iff (boot_reachable .param)).2 ⟨1, 0⟩ false).2 (.inl (by decide))

/-- A correction of a second and fifty microseconds does not. -/
theorem adjtime_overshoots :
    ¬∀ k, (system .param).Reachable k → ∀ atv olddelta,
      Converges .param (adjtime .param k true (some atv) olddelta).1 := by
  intro h
  have hdvd := (converges_iff (by decide)).1 (h boot (boot_reachable _) ⟨1, 50⟩ false)
  exact absurd hdvd (by decide)

end Uwisc.Time
