import Uwisc.Sys.Time
import Mathlib.Tactic.Linarith

/-!
# Virtual interval timers

What is left of a tick when a timer expires is taken from the next interval. So it expires when
the time is over for the first time, and then once an interval (`itimerdecr_exact`).
-/

namespace Uwisc.Time

variable {r : Rates} {tv tv' : Timeval} {itp : Itimerval}

/-- `n` calls of `itimerdecr` at ticks of the clock, each made while the timer is set: the timer
    after them, and how many of them returned 0. -/
def itimerdecrs (r : Rates) (itp : Itimerval) : ℕ → Option (Itimerval × ℕ)
  | 0 => some (itp, 0)
  | n + 1 =>
    (itimerdecrs r itp n).bind fun q =>
      if timerisset q.1.it_value then
        let d := itimerdecr q.1 r.tick
        some (d.1, if d.2 = 0 then q.2 + 1 else q.2)
      else none

/-- How often a timer is to expire in `n` ticks, by its first value and its interval. -/
def expiries (r : Rates) (value interval : ℤ) (n : ℕ) : ℤ :=
  if n * r.tick < value then 0
  else if interval = 0 then 1
  else 1 + (n * r.tick - value) / interval

/-! ### One call -/

theorem timerisset_iff (h : tv.Normalised) : timerisset tv ↔ 0 < tv.usecs := by
  obtain ⟨hsec, husec, -⟩ := h
  rw [timerisset, Timeval.usecs]
  omega

/-- A value for a timer: it is zero, or it takes a tick at least. -/
structure Fixed (r : Rates) (tv : Timeval) : Prop where
  normalised : tv.Normalised
  resolution : tv.usecs = 0 ∨ r.tick ≤ tv.usecs

theorem itimerfix_fixed (h : itimerfix r tv = .ok tv') : Fixed r tv' := by
  have hpos := r.tick_pos
  have hlt := r.tick_lt
  rw [itimerfix] at h
  split_ifs at h with hbad hrnd
  · cases h
    refine ⟨⟨?_, ?_, ?_⟩, Or.inr ?_⟩ <;> dsimp only [Timeval.usecs] <;> omega
  · cases h
    refine ⟨⟨by omega, by omega, by omega⟩, ?_⟩
    rw [Timeval.usecs]
    omega

/-- What is left of a tick is taken from the interval. -/
theorem expire_spec (itp : Itimerval) (usec : ℤ) (h : Fixed r itp.it_interval)
    (hsec : itp.it_value.tv_sec = 0) (husec : 0 ≤ usec) (hlt : usec < r.tick) :
    (expire itp usec).it_interval = itp.it_interval ∧ (expire itp usec).it_value.Normalised ∧
      (expire itp usec).it_value.usecs =
        if itp.it_interval.usecs = 0 then 0 else itp.it_interval.usecs - usec := by
  have htick := r.tick_lt
  have hset := timerisset_iff h.normalised
  obtain ⟨⟨hs, hu, hu'⟩, hres⟩ := h
  rw [expire]
  by_cases hi : timerisset itp.it_interval
  · have hpos := hset.1 hi
    rw [if_pos hi, if_neg hpos.ne']
    dsimp only
    refine ⟨rfl, ?_⟩
    rw [Timeval.usecs] at hres hpos
    split_ifs
    · refine ⟨⟨?_, ?_, ?_⟩, ?_⟩ <;> dsimp only [Timeval.usecs] <;> omega
    · refine ⟨⟨?_, ?_, ?_⟩, ?_⟩ <;> dsimp only [Timeval.usecs] <;> omega
  · have hzero : itp.it_interval.usecs = 0 := by
      have := hset.not.1 hi
      have : 0 ≤ itp.it_interval.usecs := by
        rw [Timeval.usecs]
        omega
      omega
    rw [if_neg hi, if_pos hzero]
    refine ⟨rfl, ⟨?_, ?_, ?_⟩, ?_⟩ <;> dsimp only [Timeval.usecs] <;> omega

/-- A timer that takes more than a tick is decremented by one. -/
theorem itimerdecr_of_lt (h : itp.it_value.Normalised) (hlt : r.tick < itp.it_value.usecs) :
    ∃ it_value : Timeval, itimerdecr itp r.tick = ({ itp with it_value }, 1) ∧
      it_value.Normalised ∧ it_value.usecs = itp.it_value.usecs - r.tick := by
  have hpos := r.tick_pos
  have htick := r.tick_lt
  obtain ⟨interval, sec, usec⟩ := itp
  obtain ⟨hs, hu, hu'⟩ := h
  simp only [Timeval.usecs] at hlt hs hu hu'
  have hnot : ¬(usec < r.tick ∧ sec = 0) := by omega
  simp only [itimerdecr, if_neg hnot]
  by_cases hbor : usec < r.tick
  · have hset : timerisset ⟨sec - 1, usec + 1000000 - r.tick⟩ := Or.inr (by dsimp only; omega)
    rw [if_pos hbor, if_pos hset]
    refine ⟨_, rfl, ⟨?_, ?_, ?_⟩, ?_⟩ <;> dsimp only [Timeval.usecs] <;> omega
  · have hset : timerisset ⟨sec, usec - r.tick⟩ := by
      rw [timerisset]
      dsimp only
      omega
    rw [if_neg hbor, if_pos hset]
    refine ⟨_, rfl, ⟨?_, ?_, ?_⟩, ?_⟩ <;> dsimp only [Timeval.usecs] <;> omega

/-- A timer that takes a tick at most expires, and what is left of the tick is taken from the
    interval. -/
theorem itimerdecr_of_le (h : itp.it_value.Normalised) (hset : 0 < itp.it_value.usecs)
    (hle : itp.it_value.usecs ≤ r.tick) (hi : Fixed r itp.it_interval) :
    (itimerdecr itp r.tick).2 = 0 ∧ (itimerdecr itp r.tick).1.it_interval = itp.it_interval ∧
      (itimerdecr itp r.tick).1.it_value.Normalised ∧
      (itimerdecr itp r.tick).1.it_value.usecs = if itp.it_interval.usecs = 0 then 0
        else itp.it_interval.usecs - (r.tick - itp.it_value.usecs) := by
  have htick := r.tick_lt
  obtain ⟨interval, sec, usec⟩ := itp
  obtain ⟨hs, hu, hu'⟩ := h
  simp only [Timeval.usecs] at hset hle hs hu hu' ⊢
  have hsec : sec = 0 := by omega
  subst hsec
  by_cases hlt : usec < r.tick
  · have := expire_spec ⟨interval, 0, usec⟩ (r.tick - usec) hi rfl (by omega) (by omega)
    simp only [itimerdecr, hlt, and_self, if_true, zero_mul, zero_add]
    exact ⟨trivial, this⟩
  · have heq : usec = r.tick := by omega
    subst heq
    have := expire_spec ⟨interval, 0, 0⟩ 0 hi rfl le_rfl r.tick_pos
    have hclr : ¬timerisset ⟨0, 0⟩ := by simp [timerisset]
    simp only [itimerdecr, lt_irrefl, false_and, if_false, sub_self, hclr, zero_mul, zero_add]
    exact ⟨trivial, this⟩

/-! ### Any number of calls -/

variable {value : ℤ} {n k : ℕ}

/-- The timer after `n` calls, of which `k` returned 0. -/
inductive Phase (r : Rates) (value interval : ℤ) (n : ℕ) : ℕ → ℤ → Prop
  /-- It has not expired yet. -/
  | first {now : ℤ} : 0 < now → now + n * r.tick = value → Phase r value interval n 0 now
  /-- It is in the interval after the `k`th expiry. -/
  | interval {k : ℕ} {now : ℤ} : 0 < k → 0 < now → now ≤ interval →
      now + n * r.tick = value + k * interval → Phase r value interval n k now
  /-- It has expired, and there is no interval. -/
  | off {now : ℤ} : interval = 0 → now = 0 → value ≤ n * r.tick → Phase r value interval n 1 now

/-- A timer decremented `n` times. -/
structure After (r : Rates) (start : Itimerval) (n k : ℕ) (itp : Itimerval) : Prop where
  it_interval : itp.it_interval = start.it_interval
  normalised : itp.it_value.Normalised
  phase : Phase r start.it_value.usecs start.it_interval.usecs n k itp.it_value.usecs

variable {start : Itimerval}

/-- A call while the timer is set. -/
theorem After.step (h : After r start n k itp) (hi : Fixed r start.it_interval)
    (hset : 0 < itp.it_value.usecs) :
    After r start (n + 1) (if (itimerdecr itp r.tick).2 = 0 then k + 1 else k)
      (itimerdecr itp r.tick).1 := by
  obtain ⟨hint, hnorm, hphase⟩ := h
  have hpos := r.tick_pos
  have hinterval : 0 ≤ start.it_interval.usecs := by
    obtain ⟨⟨hs, hu, -⟩, -⟩ := hi
    rw [Timeval.usecs]
    omega
  have hsucc : ((n + 1 : ℕ) : ℤ) * r.tick = n * r.tick + r.tick := by
    push_cast
    ring
  by_cases hlt : r.tick < itp.it_value.usecs
  · obtain ⟨it_value, heq, hnorm', husecs⟩ := itimerdecr_of_lt hnorm hlt
    rw [heq]
    refine ⟨hint, hnorm', ?_⟩
    dsimp only
    rw [if_neg one_ne_zero, husecs]
    cases hphase with
    | first _ heq => exact .first (by omega) (by rw [hsucc]; omega)
    | interval hk _ hle heq => exact .interval hk (by omega) (by omega) (by rw [hsucc]; omega)
    | off => omega
  · obtain ⟨hret, hint', hnorm', husecs⟩ := itimerdecr_of_le hnorm hset (not_lt.1 hlt) (hint ▸ hi)
    refine ⟨hint'.trans hint, hnorm', ?_⟩
    rw [if_pos hret, husecs, hint]
    have hres := hi.resolution
    split_ifs with hzero
    · cases hphase with
      | first _ heq => exact .off hzero rfl (by rw [hsucc]; omega)
      | interval _ _ hle => omega
      | off => omega
    · cases hphase with
      | first _ heq =>
        refine .interval Nat.one_pos (by omega) (by omega) ?_
        rw [hsucc]
        push_cast
        omega
      | interval _ _ hle heq =>
        refine .interval (Nat.succ_pos _) (by omega) (by omega) ?_
        rw [hsucc]
        push_cast
        linarith
      | off => omega

theorem After.run (hi : Fixed r start.it_interval) (hv : start.it_value.Normalised)
    (hset : timerisset start.it_value) :
    ∀ n q, itimerdecrs r start n = some q → After r start n q.2 q.1 := by
  intro n
  induction n with
  | zero =>
    rintro q ⟨⟩
    exact ⟨rfl, hv, .first ((timerisset_iff hv).1 hset) (by push_cast; ring)⟩
  | succ n ih =>
    intro q hq
    obtain ⟨q', hq', h⟩ := Option.bind_eq_some_iff.1 hq
    split_ifs at h with hset'
    cases h
    exact (ih q' hq').step hi ((timerisset_iff (ih q' hq').normalised).1 hset')

/-- With an interval, the timer stays set. -/
theorem After.isSome (hi : Fixed r start.it_interval) (hv : start.it_value.Normalised)
    (hset : timerisset start.it_value) (hint : timerisset start.it_interval) (n : ℕ) :
    (itimerdecrs r start n).isSome := by
  induction n with
  | zero => rfl
  | succ n ih =>
    obtain ⟨⟨itp, k⟩, hq⟩ := Option.isSome_iff_exists.1 ih
    obtain ⟨-, hnorm, hphase⟩ := After.run hi hv hset n (itp, k) hq
    have hpos := (timerisset_iff hi.normalised).1 hint
    have : timerisset itp.it_value := by
      rw [timerisset_iff hnorm]
      cases hphase with
      | first hnow => exact hnow
      | interval _ hnow => exact hnow
      | off hzero => omega
    rw [itimerdecrs, hq, Option.bind_some, if_pos this]
    rfl

/-- The phase tells how often the timer has expired. -/
theorem Phase.expiries {interval now : ℤ} (h : Phase r value interval n k now) :
    (k : ℤ) = expiries r value interval n := by
  rw [Time.expiries]
  cases h with
  | first hnow heq => rw [if_pos (by omega), Nat.cast_zero]
  | interval hk hnow hle heq =>
    obtain ⟨j, rfl⟩ := Nat.exists_eq_succ_of_ne_zero hk.ne'
    push_cast at heq ⊢
    have hj : 0 ≤ (j : ℤ) * interval := mul_nonneg (Nat.cast_nonneg j) (by omega)
    have hrs : (n : ℤ) * r.tick - value = interval - now + j * interval := by linarith
    rw [if_neg (by linarith), if_neg (by omega), hrs,
      Int.add_mul_ediv_right _ _ (by omega : interval ≠ 0), Int.ediv_eq_zero_of_lt (by omega) (by omega)]
    ring
  | off hzero _ hle => rw [if_neg (not_lt.2 hle), if_pos hzero, Nat.cast_one]

/-- Whatever values `itimerfix` accepts, a timer that is set stays normalised, and by any number
    of calls it has expired as often as it should have by then. -/
theorem itimerdecr_exact {value interval it_value it_interval : Timeval}
    (hvalue : itimerfix r value = .ok it_value) (hinterval : itimerfix r interval = .ok it_interval)
    (hset : timerisset it_value) (n : ℕ) :
    (∀ itp k, itimerdecrs r ⟨it_interval, it_value⟩ n = some (itp, k) →
      itp.it_value.Normalised ∧ (k : ℤ) = expiries r it_value.usecs it_interval.usecs n) ∧
    (timerisset it_interval → (itimerdecrs r ⟨it_interval, it_value⟩ n).isSome) := by
  have hv := (itimerfix_fixed hvalue).normalised
  have hi := itimerfix_fixed hinterval
  refine ⟨fun itp k hq => ?_, fun hint => After.isSome hi hv hset hint n⟩
  have := After.run hi hv hset n (itp, k) hq
  exact ⟨this.normalised, this.phase.expiries⟩

/-- A timer of 25 ms, and then of 10 ms, has expired twice after 4 ticks of 10 ms. -/
theorem itimerdecr_exact_four : (2 : ℤ) = expiries .param 25000 10000 4 :=
  have h : itimerfix .param ⟨0, 25000⟩ = .ok ⟨0, 25000⟩ := by decide
  have h' : itimerfix .param ⟨0, 10⟩ = .ok ⟨0, 10000⟩ := by decide
  ((itimerdecr_exact h h' (by decide) 4).1 ⟨⟨0, 10000⟩, ⟨0, 5000⟩⟩ 2 (by decide)).2

end Uwisc.Time
