import Uwisc.Sys.Clock
import Uwisc.Sys.Time
import Uwisc.Sys.Time.Virtual

/-!
# Real interval timers

The timers of processes by the real time, as in `sys/sys/kern_time.c`: the time at which a timer
goes off is turned into a number of ticks (`hzto`), and then it is left to the callout queue.

Along with the kernel's variables go the first value of each timer and a log of what happened
(`State`). While `realitexpire` looks for the next time at which a timer is to go off, there may be
ticks, and other timeouts may be arranged for, but neither does `softclock` go on nor does any
process run.
-/

namespace Uwisc.Time

open Function Lib

/-- The rates of `conf/param.c`. -/
def tick : ℤ := Rates.param.tick

def hz : ℤ := HZ

/-- The ticks until the specified time. -/
def hzto (tv time : Timeval) : ℤ :=
  let sec := wrap 32 (tv.tv_sec - time.tv_sec)
  if sec ≤ 0x7fffffff / 1000 - 1000 then
    (wrap 32 (wrap 32 (sec * 1000) + (tv.tv_usec - time.tv_usec).tdiv 1000)).tdiv (tick / 1000)
  else if sec ≤ 0x7fffffff / hz then sec * hz
  else 0x7fffffff

/-- The number of the function in callouts. -/
def realitexpire : ℕ := 0

/-- What happens. -/
inductive Event
  /-- `SIGALRM` is posted, with the time that the timer was to go off, and the time it is. -/
  | psignal (it_value time : Timeval)
  /-- The timer is set to go off again. -/
  | reload (first : Timeval) (p_realtimer : Itimerval) (time : Timeval)

/-- The callouts, the time of day, the timers of the processes, the one that is being reloaded, the
    values they had at first, and what happened so far. -/
structure Timers where
  clock : Clock.State
  time : Timeval
  p_realtimer : ℕ → Itimerval
  expiring : Option ℕ
  first : ℕ → Timeval
  log : List Event

namespace Timers

/-- `timeout(realitexpire, p, hzto(&it_value))`. -/
def timeout (s : Timers) (p : ℕ) (it_value : Timeval) : Option Timers :=
  (Clock.exec s.clock (.timeout realitexpire p (.ofInt 32 (hzto it_value s.time)))).map fun clock =>
    { s with clock }

/-- `setitimer` of `ITIMER_REAL`, once the new setting is copied in. -/
def setitimer (s : Timers) (p : ℕ) (aitv : Itimerval) : Option Timers :=
  match itimerfix .param aitv.it_value, itimerfix .param aitv.it_interval with
  | .ok it_value, .ok it_interval =>
    (Clock.exec s.clock (.untimeout realitexpire p)).bind fun clock =>
      let s := { s with clock }
      if timerisset it_value then
        let it_value := timevaladd it_value s.time
        (s.timeout p it_value).map fun s =>
          { s with
            p_realtimer := update s.p_realtimer p ⟨it_interval, it_value⟩
            first := update s.first p it_value }
      else
        some { s with
          p_realtimer := update s.p_realtimer p ⟨it_interval, it_value⟩
          first := update s.first p it_value }
  | _, _ => some s

/-- `realitexpire`, up to its loop. -/
def expire (s : Timers) (p : ℕ) : Timers :=
  let s := { s with log := .psignal (s.p_realtimer p).it_value s.time :: s.log }
  if timerisset (s.p_realtimer p).it_interval then { s with expiring := some p }
  else
    { s with
      p_realtimer := update s.p_realtimer p { s.p_realtimer p with it_value := timerclear } }

/-- A round of the loop of `realitexpire`. -/
def reload (s : Timers) (p : ℕ) : Option Timers :=
  let p_realtimer : Itimerval :=
    { s.p_realtimer p with
      it_value := timevaladd (s.p_realtimer p).it_value (s.p_realtimer p).it_interval }
  let s := { s with p_realtimer := update s.p_realtimer p p_realtimer }
  if timercmp p_realtimer.it_value s.time then
    (s.timeout p p_realtimer.it_value).map fun s =>
      { s with expiring := none, log := .reload (s.first p) p_realtimer s.time :: s.log }
  else some s

/-- Sets a timer, arranges for another timeout or cancels it, ticks, and executes a round of the
    loop of `softclock` or of `realitexpire`. -/
inductive Label
  | setitimer (p : ℕ) (aitv : Itimerval)
  | timeout (func arg : ℕ) (t : BitVec 32)
  | untimeout (func arg : ℕ)
  | hardclock
  | softclock
  | reload

def exec (s : Timers) : Label → Option Timers
  | .setitimer p aitv => if s.expiring.isSome then none else s.setitimer p aitv
  | .timeout func arg t =>
    if func = realitexpire then none
    else (Clock.exec s.clock (.timeout func arg t)).map fun clock => { s with clock }
  | .untimeout func arg =>
    if func = realitexpire then none
    else (Clock.exec s.clock (.untimeout func arg)).map fun clock => { s with clock }
  | .hardclock =>
    (Clock.exec s.clock .hardclock).map fun clock =>
      { s with clock, time := bumptime s.time tick }
  | .softclock =>
    if s.expiring.isSome then none
    else
      (Clock.exec s.clock .softclock).map fun clock =>
        match Clock.softclock s.clock.callouts with
        | some (p1, _) =>
          if p1.c_func = realitexpire then { s with clock }.expire p1.c_arg else { s with clock }
        | none => { s with clock }
  | .reload => s.expiring.bind s.reload

/-- The runs of a table of `ncallout` entries, from any time of day, with no timer set. -/
def system (ncallout : ℕ) : System Timers Label :=
  .ofExec
    { s | s.clock ∈ (Clock.system ncallout).init ∧ s.time.Normalised ∧ s.expiring = none ∧
      s.log = [] }
    exec

end Timers

/-!
### Runs of the real interval timers

What `hzto` gives is rounded down, and then it is not even more than some 248 days. Where the time
that a timer is set for is ticks away (`OnTick`), it does not go off early, and it does not drift
(`realitexpire_punctual`).
-/

open Clock Delta List Option

variable {tv time t1 t2 : Timeval}

/-! ### Sums of times -/

/-- The seconds of the sum are not too many for a `long`. -/
def Fits (t1 t2 : Timeval) : Prop := t1.usecs + t2.usecs < 2147483648 * 1000000

theorem timevaladd_spec (h1 : t1.Normalised) (h2 : t2.Normalised) (hfits : Fits t1 t2) :
    (timevaladd t1 t2).Normalised ∧ (timevaladd t1 t2).usecs = t1.usecs + t2.usecs := by
  obtain ⟨hs1, hu1, hl1⟩ := h1
  obtain ⟨hs2, hu2, hl2⟩ := h2
  rw [Fits, Timeval.usecs, Timeval.usecs] at hfits
  have hwrap : wrap 32 (t1.tv_sec + t2.tv_sec) = t1.tv_sec + t2.tv_sec :=
    wrap_int (by omega) (by omega)
  have hnon : ¬t1.tv_usec + t2.tv_usec < 0 := by omega
  rw [timevaladd, timevalfix, hwrap]
  simp only [if_neg hnon]
  by_cases hcry : 1000000 ≤ t1.tv_usec + t2.tv_usec
  · have hwrap' : wrap 32 (t1.tv_sec + t2.tv_sec + 1) = t1.tv_sec + t2.tv_sec + 1 :=
      wrap_int (by omega) (by omega)
    rw [if_pos hcry, hwrap']
    refine ⟨⟨?_, ?_, ?_⟩, ?_⟩ <;> dsimp only [Timeval.usecs] <;> omega
  · rw [if_neg hcry]
    refine ⟨⟨?_, ?_, ?_⟩, ?_⟩ <;> dsimp only [Timeval.usecs] <;> omega

theorem bumptime_tick (h : time.Normalised) (hfits : time.usecs + tick < 2147483648 * 1000000) :
    (bumptime time tick).Normalised ∧ (bumptime time tick).usecs = time.usecs + tick := by
  have htick : tick = 10000 := rfl
  obtain ⟨hs, hu, hl⟩ := h
  rw [Timeval.usecs] at hfits
  rw [bumptime]
  by_cases hcry : 1000000 ≤ time.tv_usec + tick
  · have hwrap : wrap 32 (time.tv_sec + 1) = time.tv_sec + 1 := wrap_int (by omega) (by omega)
    rw [if_pos hcry, hwrap]
    refine ⟨⟨?_, ?_, ?_⟩, ?_⟩ <;> dsimp only [Timeval.usecs] <;> omega
  · rw [if_neg hcry]
    refine ⟨⟨?_, ?_, ?_⟩, ?_⟩ <;> dsimp only [Timeval.usecs] <;> omega

theorem timercmp_iff (h1 : t1.Normalised) (h2 : t2.Normalised) :
    timercmp t1 t2 ↔ t2.usecs < t1.usecs := by
  obtain ⟨hs1, hu1, hl1⟩ := h1
  obtain ⟨hs2, hu2, hl2⟩ := h2
  rw [timercmp, Timeval.usecs, Timeval.usecs]
  omega

/-! ### From a time to ticks -/

/-- By as many ticks as `hzto` gives, or by one, the time has come. -/
def OnTick (tv time : Timeval) : Prop :=
  let sec := tv.tv_sec - time.tv_sec
  let usec := tv.tv_usec - time.tv_usec
  if sec ≤ 2146483 then
    sec * 1000000 + usec ≤ 10000 ∨ 10000 ∣ usec ∨ usec < 0 ∧ 10 ∣ usec.tdiv 1000
  else if sec ≤ 21474836 then usec ≤ 0
  else sec * 1000000 + usec ≤ 21474836470000

/-- What is passed to `timeout`. -/
def ticks (tv time : Timeval) : ℤ := max (BitVec.ofInt 32 (hzto tv time)).toInt 1

theorem ticks_eq {t : ℤ} (h : hzto tv time = t) (hl : -2147483648 ≤ t) (hu : t ≤ 2147483647) :
    ticks tv time = max t 1 := by
  rw [ticks, h, BitVec.toInt_ofInt]
  congr 1
  exact wrap_int hl hu

/-- Division is towards zero. -/
theorem tdiv_cases (x : ℤ) (n : ℕ) :
    0 ≤ x ∧ x.tdiv n = x / n ∨ x < 0 ∧ x.tdiv n = -(-x / n) := by
  rcases le_or_gt 0 x with h | h
  · exact .inl ⟨h, Int.tdiv_eq_ediv_of_nonneg h⟩
  · refine .inr ⟨h, ?_⟩
    rw [← Int.tdiv_eq_ediv_of_nonneg (by omega), Int.neg_tdiv, neg_neg]

theorem hzto_eq (h : time.Normalised) (hlt : time.usecs < tv.usecs) (htv : tv.Normalised)
    (hmax : tv.usecs < 2147483648 * 1000000) :
    hzto tv time = if tv.tv_sec - time.tv_sec ≤ 2146483 then
        ((tv.tv_sec - time.tv_sec) * 1000 + (tv.tv_usec - time.tv_usec).tdiv 1000).tdiv 10
      else if tv.tv_sec - time.tv_sec ≤ 21474836 then (tv.tv_sec - time.tv_sec) * 100
      else 2147483647 := by
  obtain ⟨hs, hu, hl⟩ := h
  obtain ⟨hs', hu', hl'⟩ := htv
  rw [Timeval.usecs, Timeval.usecs] at hlt
  rw [Timeval.usecs] at hmax
  have hwrap : wrap 32 (tv.tv_sec - time.tv_sec) = tv.tv_sec - time.tv_sec :=
    wrap_int (by omega) (by omega)
  have hfst : (0x7fffffff : ℤ) / 1000 - 1000 = 2146483 := by decide
  have hsec : (0x7fffffff : ℤ) / hz = 21474836 := by decide
  have htick : tick / 1000 = 10 := by decide
  rw [hzto, hwrap, hfst, hsec, htick]
  by_cases hle : tv.tv_sec - time.tv_sec ≤ 2146483
  · have hms : -1000 < (tv.tv_usec - time.tv_usec).tdiv 1000 ∧
        (tv.tv_usec - time.tv_usec).tdiv 1000 < 1000 := by
      have := tdiv_cases (tv.tv_usec - time.tv_usec) 1000
      push_cast at this
      omega
    have hwrap1 : wrap 32 ((tv.tv_sec - time.tv_sec) * 1000) = (tv.tv_sec - time.tv_sec) * 1000 :=
      wrap_int (by omega) (by omega)
    simp only [if_pos hle]
    rw [hwrap1, wrap_int (by omega) (by omega)]
  · simp only [if_neg hle]
    rfl

/-- `OnTick` says what it should. -/
theorem le_add_ticks_iff (h : time.Normalised) (hlt : time.usecs < tv.usecs) (htv : tv.Normalised)
    (hmax : tv.usecs < 2147483648 * 1000000) :
    tv.usecs ≤ time.usecs + tick * ticks tv time ↔ OnTick tv time := by
  have hhzto := hzto_eq h hlt htv hmax
  have htick : tick = 10000 := rfl
  obtain ⟨hs, hu, hl⟩ := h
  obtain ⟨hs', hu', hl'⟩ := htv
  rw [Timeval.usecs, Timeval.usecs] at hlt
  rw [Timeval.usecs] at hmax
  rw [OnTick, htick, Timeval.usecs, Timeval.usecs]
  split_ifs at hhzto with hfst hsec
  · have hms := tdiv_cases (tv.tv_usec - time.tv_usec) 1000
    push_cast at hms
    rw [Int.tdiv_eq_ediv_of_nonneg (by omega)] at hhzto
    rw [ticks_eq hhzto (by omega) (by omega)]
    simp only [if_pos hfst]
    omega
  · rw [ticks_eq hhzto (by omega) (by omega)]
    simp only [if_neg hfst, if_pos hsec]
    omega
  · rw [ticks_eq hhzto (by omega) (by omega)]
    simp only [if_neg hfst, if_neg hsec]
    omega

/-! ### Timers that are set -/

/-- A timer that is a whole number of intervals after its first value. -/
structure Kept (p_realtimer : Itimerval) (first : Timeval) : Prop where
  value : p_realtimer.it_value.Normalised
  interval : p_realtimer.it_interval.Normalised
  multiple : ∃ m : ℕ, p_realtimer.it_value.usecs = first.usecs + m * p_realtimer.it_interval.usecs

variable {q q' : List (ℤ × ℕ × ℕ × ℕ)} {now : ℤ} {p_realtimer : ℕ → Itimerval} {first : ℕ → Timeval}
  {p : ℕ}

/-- The callout is for this timer. -/
abbrev Mine (p : ℕ) (x : ℤ × ℕ × ℕ × ℕ) : Prop := Matches realitexpire p x.2

/-- The callouts of timers: each is the only one of its timer, and by the time it is due the timer
    is to go off. -/
structure Armed (q : List (ℤ × ℕ × ℕ × ℕ)) (now : ℤ) (time : Timeval)
    (p_realtimer : ℕ → Itimerval) (first : ℕ → Timeval) : Prop where
  kept : ∀ x ∈ q, ∀ p, Mine p x → Kept (p_realtimer p) (first p)
  due : ∀ x ∈ q, ∀ p, Mine p x → (p_realtimer p).it_value.usecs ≤ time.usecs + tick * (x.1 - now)
  alone : q.Pairwise fun x y => ∀ p, Mine p x → ¬Mine p y

namespace Armed

theorem sublist (h : Armed q now time p_realtimer first) (hsub : q'.Sublist q) :
    Armed q' now time p_realtimer first :=
  ⟨fun x hx => h.kept x (hsub.mem hx), fun x hx => h.due x (hsub.mem hx), h.alone.sublist hsub⟩

/-- There is no other callout of a timer. -/
theorem not_mine {u v : List (ℤ × ℕ × ℕ × ℕ)} {x : ℤ × ℕ × ℕ × ℕ}
    (h : Armed (u ++ x :: v) now time p_realtimer first) (hx : Mine p x) :
    ∀ y ∈ u ++ v, ¬Mine p y := by
  obtain ⟨-, hxv, huv⟩ := pairwise_append.1 h.alone
  intro y hy
  rcases mem_append.1 hy with hy | hy
  · exact fun hmine => huv y hy x mem_cons_self p hmine hx
  · exact (pairwise_cons.1 hxv).1 y hy p hx

/-- What is written to a timer without a callout. -/
theorem update (h : Armed q now time p_realtimer first) (hnone : ∀ x ∈ q, ¬Mine p x)
    (itv : Itimerval) (tv : Timeval) :
    Armed q now time (update p_realtimer p itv) (update first p tv) := by
  have hne : ∀ x ∈ q, ∀ p', Mine p' x → p' ≠ p := fun x hx p' hmine heq =>
    hnone x hx (heq ▸ hmine)
  refine ⟨fun x hx p' hmine => ?_, fun x hx p' hmine => ?_, h.alone⟩
  · rw [update_of_ne (hne x hx p' hmine), update_of_ne (hne x hx p' hmine)]
    exact h.kept x hx p' hmine
  · rw [update_of_ne (hne x hx p' hmine)]
    exact h.due x hx p' hmine

/-- A tick. -/
theorem tick (h : Armed q now time p_realtimer first) {time' : Timeval}
    (htime : time'.usecs = time.usecs + Time.tick) :
    Armed q (now + 1) time' p_realtimer first := by
  refine ⟨h.kept, fun x hx p hmine => ?_, h.alone⟩
  have hdue := h.due x hx p hmine
  have htick : Time.tick = 10000 := rfl
  rw [htick] at hdue htime ⊢
  omega

/-- A callout is inserted. If it is for a timer, then for one without a callout. -/
theorem insert (h : Armed q now time p_realtimer first) {d : ℤ} {y : ℕ × ℕ × ℕ}
    (hnone : ∀ p, Mine p (d, y) → ∀ x ∈ q, ¬Mine p x)
    (hkept : ∀ p, Mine p (d, y) → Kept (p_realtimer p) (first p) ∧
      (p_realtimer p).it_value.usecs ≤ time.usecs + Time.tick * (d - now)) :
    Armed (insertAt d y q) now time p_realtimer first := by
  have hperm := insertAt_perm d y q
  have hmem : ∀ x ∈ insertAt d y q, x = (d, y) ∨ x ∈ q := fun x hx =>
    mem_cons.1 (hperm.subset hx)
  refine ⟨fun x hx p hmine => ?_, fun x hx p hmine => ?_, ?_⟩
  · rcases hmem x hx with rfl | hx
    · exact (hkept p hmine).1
    · exact h.kept x hx p hmine
  · rcases hmem x hx with rfl | hx
    · exact (hkept p hmine).2
    · exact h.due x hx p hmine
  · refine (hperm.pairwise_iff fun {a b} hab p hb ha => hab p ha hb).2 ?_
    exact pairwise_cons.2 ⟨fun x hx p hmine => hnone p hmine x hx, h.alone⟩

end Armed

/-! ### Every run -/

/-- A signal comes when it should, and a timer is set for a time that is a whole number of intervals
    after the first one and that has not come yet. -/
def Event.Sound : Event → Prop
  | .psignal it_value time => it_value.usecs ≤ time.usecs
  | .reload first p_realtimer time =>
    (∃ m : ℕ, p_realtimer.it_value.usecs = first.usecs + m * p_realtimer.it_interval.usecs) ∧
      time.usecs < p_realtimer.it_value.usecs

namespace Timers

variable {ncallout : ℕ} {s s' : Timers} {clock : Clock.State}

/-- A timer is set for a time that is ticks away, and no `long` or `int` overflows. -/
def OnTime (s : Timers) : Label → Prop
  | .setitimer _ aitv => ∀ it_value, itimerfix .param aitv.it_value = .ok it_value →
      timerisset it_value →
      Fits it_value s.time ∧ OnTick (timevaladd it_value s.time) s.time
  | .hardclock => Clock.Counts s.clock .hardclock ∧ s.time.usecs + tick < 2147483648 * 1000000
  | .reload => ∀ p, s.expiring = some p → let itv := s.p_realtimer p
      Fits itv.it_value itv.it_interval ∧
        (s.time.usecs < itv.it_value.usecs + itv.it_interval.usecs →
          OnTick (timevaladd itv.it_value itv.it_interval) s.time)
  | _ => True

/-- What holds in every state of a run. -/
structure Inv (ncallout : ℕ) (s : Timers) : Prop where
  clock : Clock.Inv ncallout s.clock
  time : s.time.Normalised
  armed : Armed s.clock.queue s.clock.now s.time s.p_realtimer s.first
  expiring : ∀ p, s.expiring = some p →
    Kept (s.p_realtimer p) (s.first p) ∧ ∀ x ∈ s.clock.queue, ¬Mine p x
  sound : ∀ e ∈ s.log, e.Sound

/-- A callout for a timer without one, that is set for a time ticks away. -/
theorem armed_timeout {c clock : Clock.State} {it_value : Timeval} (hclk : Clock.Inv ncallout c)
    (hexec : Clock.exec c (.timeout realitexpire p (.ofInt 32 (hzto it_value time))) = some clock)
    (harm : Armed c.queue c.now time p_realtimer first) (hnone : ∀ x ∈ c.queue, ¬Mine p x)
    (hkept : Kept (p_realtimer p) (first p)) (hval : (p_realtimer p).it_value = it_value)
    (htime : time.Normalised) (hlt : time.usecs < it_value.usecs)
    (hmax : it_value.usecs < 2147483648 * 1000000) (hont : OnTick it_value time) :
    Clock.Inv ncallout clock ∧ Armed clock.queue clock.now time p_realtimer first := by
  obtain ⟨pnew, callfree, -, hnow, hque⟩ := hclk.queue_timeout hexec
  have hle := (le_add_ticks_iff htime hlt (hval ▸ hkept.value) hmax).2 hont
  refine ⟨hclk.timeout hexec, ?_⟩
  rw [hque, hnow]
  refine harm.insert (fun p' hmine => ?_) fun p' hmine => ?_
  · obtain rfl := hmine.2
    exact hnone
  · obtain rfl := hmine.2
    refine ⟨hkept, ?_⟩
    rw [hval, add_sub_cancel_left]
    exact hle

/-- After `untimeout`, a timer has no callout. -/
theorem Inv.untimeout (h : Inv ncallout s)
    (hexec : Clock.exec s.clock (.untimeout realitexpire p) = some clock) :
    Clock.Inv ncallout clock ∧ Armed clock.queue clock.now s.time s.p_realtimer s.first ∧
      ∀ x ∈ clock.queue, ¬Mine p x := by
  obtain ⟨hnow, hque⟩ := h.clock.queue_untimeout hexec
  refine ⟨h.clock.untimeout hexec, ?_⟩
  rw [hnow]
  rcases hque with ⟨hque, hnone⟩ | ⟨u, x, v, hu, hv, hm⟩
  · rw [hque]
    exact ⟨h.armed, hnone⟩
  · have harm := hu ▸ h.armed
    rw [hv]
    exact ⟨harm.sublist ((List.Sublist.refl u).append (sublist_cons_self x v)), harm.not_mine hm⟩

theorem Inv.setitimer {aitv : Itimerval} (h : Inv ncallout s) (hexp : s.expiring = none)
    (htime : OnTime s (.setitimer p aitv)) (hs : s.setitimer p aitv = some s') :
    Inv ncallout s' := by
  rw [Timers.setitimer] at hs
  cases hval : itimerfix .param aitv.it_value with
  | error e =>
    simp only [hval, some_inj] at hs
    exact hs ▸ h
  | ok it_value =>
    cases hinte : itimerfix .param aitv.it_interval with
    | error e =>
      simp only [hval, hinte, some_inj] at hs
      exact hs ▸ h
    | ok it_interval =>
      simp only [hval, hinte] at hs
      obtain ⟨clock, hexec, hs⟩ := bind_eq_some_iff.1 hs
      obtain ⟨hclk, harm, hnone⟩ := h.untimeout hexec
      have hv := (itimerfix_fixed hval).normalised
      by_cases hset : timerisset it_value
      · obtain ⟨hfits, hont⟩ := htime it_value hval hset
        obtain ⟨hnorm, husecs⟩ := timevaladd_spec hv h.time hfits
        have hpos := (timerisset_iff hv).1 hset
        have hlt : s.time.usecs < (timevaladd it_value s.time).usecs := by omega
        have hkept : Kept (update s.p_realtimer p ⟨it_interval, timevaladd it_value s.time⟩ p)
            (update s.first p (timevaladd it_value s.time) p) := by
          rw [update_self, update_self]
          exact ⟨hnorm, (itimerfix_fixed hinte).normalised, 0, by simp⟩
        rw [if_pos hset] at hs
        obtain ⟨s1, hs1, rfl⟩ := map_eq_some_iff.1 hs
        obtain ⟨clock', hexec', rfl⟩ := map_eq_some_iff.1 hs1
        obtain ⟨hclk', harm'⟩ := armed_timeout hclk hexec' (harm.update hnone _ _) hnone
          hkept (by rw [update_self]) h.time hlt (by rw [husecs]; exact hfits) hont
        refine ⟨hclk', h.time, harm', fun p' hp' => ?_, h.sound⟩
        rw [hexp] at hp'
        cases hp'
      · rw [if_neg hset] at hs
        cases hs
        refine ⟨hclk, h.time, harm.update hnone _ _, fun p' hp' => ?_, h.sound⟩
        rw [hexp] at hp'
        cases hp'

/-- Another timeout. -/
theorem Inv.other {func arg : ℕ} {t : BitVec 32} (h : Inv ncallout s) (hfunc : func ≠ realitexpire)
    (hexec : Clock.exec s.clock (.timeout func arg t) = some clock) :
    Inv ncallout { s with clock } := by
  obtain ⟨pnew, callfree, -, hnow, hque⟩ := h.clock.queue_timeout hexec
  have hoth : ∀ p, ¬Mine p (s.clock.now + max t.toInt 1, pnew, func, arg) := fun p hmine =>
    hfunc hmine.1
  refine ⟨h.clock.timeout hexec, h.time, ?_, fun p hp => ?_, h.sound⟩
  · dsimp only
    rw [hque, hnow]
    exact h.armed.insert (fun p hmine => absurd hmine (hoth p)) fun p hmine =>
      absurd hmine (hoth p)
  · refine ⟨(h.expiring p hp).1, fun x hx => ?_⟩
    dsimp only at hx
    rw [hque] at hx
    rcases mem_cons.1 ((insertAt_perm _ _ _).subset hx) with rfl | hx
    · exact hoth p
    · exact (h.expiring p hp).2 x hx

/-- Callouts that are gone. -/
theorem Inv.sublist (h : Inv ncallout s) (hclk : Clock.Inv ncallout clock)
    (hnow : clock.now = s.clock.now) (hsub : clock.queue.Sublist s.clock.queue) :
    Inv ncallout { s with clock } := by
  refine ⟨hclk, h.time, ?_, fun p hp => ?_, h.sound⟩
  · dsimp only
    rw [hnow]
    exact h.armed.sublist hsub
  · exact ⟨(h.expiring p hp).1, fun x hx => (h.expiring p hp).2 x (hsub.mem hx)⟩

theorem Inv.hardclock (h : Inv ncallout s) (htime : OnTime s .hardclock)
    (hexec : Clock.exec s.clock .hardclock = some clock) :
    Inv ncallout { s with clock, time := bumptime s.time tick } := by
  obtain ⟨hcou, hfits⟩ := htime
  obtain ⟨hque, hnow⟩ := h.clock.queue_hardclock hcou hexec
  obtain ⟨hnorm, husecs⟩ := bumptime_tick h.time hfits
  refine ⟨h.clock.hardclock hcou hexec, hnorm, ?_, fun p hp => ?_, h.sound⟩
  · dsimp only
    rw [hque, hnow]
    exact h.armed.tick husecs
  · dsimp only
    rw [hque]
    exact h.expiring p hp

/-- The callout of a timer is taken off the queue, and the timer expires. -/
theorem Inv.expire {due : ℤ} {slot : ℕ} (h : Inv ncallout s) (hexp : s.expiring = none)
    (hclk : Clock.Inv ncallout clock) (hnow : clock.now = s.clock.now) (hdue : due ≤ s.clock.now)
    (hque : s.clock.queue = (due, slot, realitexpire, p) :: clock.queue) :
    Inv ncallout ({ s with clock }.expire p) := by
  have hmine : Mine p (due, slot, realitexpire, p) := ⟨rfl, rfl⟩
  have harm : Armed ([] ++ (due, slot, realitexpire, p) :: clock.queue) s.clock.now s.time
      s.p_realtimer s.first := by
    rw [nil_append, ← hque]
    exact h.armed
  have hnone := harm.not_mine hmine
  have hrs := harm.sublist (sublist_cons_self _ _)
  have hkept := harm.kept _ mem_cons_self p hmine
  have hle := harm.due _ mem_cons_self p hmine
  have hsnd : (Event.psignal (s.p_realtimer p).it_value s.time).Sound := by
    have htick : tick = 10000 := rfl
    rw [htick] at hle
    rw [Event.Sound]
    dsimp only at hle
    omega
  rw [Timers.expire]
  dsimp only
  split_ifs with hset
  · refine ⟨hclk, h.time, hnow ▸ hrs, fun p' hp' => ?_, forall_mem_cons.2 ⟨hsnd, h.sound⟩⟩
    cases hp'
    exact ⟨hkept, hnone⟩
  · refine ⟨hclk, h.time, ?_, fun p' hp' => ?_, forall_mem_cons.2 ⟨hsnd, h.sound⟩⟩
    · have := hrs.update hnone { s.p_realtimer p with it_value := timerclear } (s.first p)
      rw [update_eq_self] at this
      exact hnow ▸ this
    · rw [hexp] at hp'
      cases hp'

theorem Inv.softclock (h : Inv ncallout s) (hs : exec s .softclock = some s') :
    Inv ncallout s' := by
  rw [exec] at hs
  split_ifs at hs with hexp
  obtain ⟨clock, hexec, rfl⟩ := map_eq_some_iff.1 hs
  have hclk := h.clock.softclock hexec
  cases hq : Clock.softclock s.clock.callouts with
  | none =>
    simp only [Clock.exec, hq, some_inj] at hexec
    subst hexec
    exact h.sublist hclk rfl (List.Sublist.refl _)
  | some q =>
    obtain ⟨p1, c⟩ := q
    obtain ⟨due, hdue, hque⟩ := queue_softclock hq
    simp only [Clock.exec, hq, some_inj] at hexec
    subst hexec
    dsimp only
    split_ifs with hfunc
    · obtain ⟨slot, c_time, c_arg, c_func⟩ := p1
      obtain rfl := hfunc
      exact h.expire (not_isSome_iff_eq_none.1 hexp) hclk rfl hdue hque
    · refine h.sublist hclk rfl ?_
      rw [hque]
      exact sublist_cons_self _ _

theorem Inv.reload (h : Inv ncallout s) (hexp : s.expiring = some p)
    (htime : OnTime s .reload) (hs : s.reload p = some s') : Inv ncallout s' := by
  obtain ⟨hfits, hont⟩ := htime p hexp
  obtain ⟨⟨hval, hinte, m, hm⟩, hnone⟩ := h.expiring p hexp
  obtain ⟨hnorm, husecs⟩ := timevaladd_spec hval hinte hfits
  have harm := h.armed.update hnone ⟨(s.p_realtimer p).it_interval,
    timevaladd (s.p_realtimer p).it_value (s.p_realtimer p).it_interval⟩ (s.first p)
  have hkept : Kept ⟨(s.p_realtimer p).it_interval,
      timevaladd (s.p_realtimer p).it_value (s.p_realtimer p).it_interval⟩ (s.first p) := by
    refine ⟨hnorm, hinte, m + 1, ?_⟩
    dsimp only
    rw [husecs, hm]
    push_cast
    ring
  rw [update_eq_self] at harm
  rw [Timers.reload] at hs
  dsimp only at hs
  split_ifs at hs with hcmp
  · have hlt := (timercmp_iff hnorm h.time).1 hcmp
    obtain ⟨s1, hs1, rfl⟩ := map_eq_some_iff.1 hs
    obtain ⟨clock', hexec', rfl⟩ := map_eq_some_iff.1 hs1
    obtain ⟨hclk', harm'⟩ := armed_timeout h.clock hexec' harm hnone
      (by rwa [update_self]) (by rw [update_self]) h.time hlt (by rw [husecs]; exact hfits)
      (hont (husecs ▸ hlt))
    refine ⟨hclk', h.time, harm', fun p' hp' => ?_, ?_⟩
    · cases hp'
    · exact forall_mem_cons.2 ⟨⟨hkept.multiple, hlt⟩, h.sound⟩
  · cases hs
    refine ⟨h.clock, h.time, harm, fun p' hp' => ?_, h.sound⟩
    obtain rfl := some_inj.1 (hexp.symm.trans hp')
    dsimp only
    rw [update_self]
    exact ⟨hkept, hnone⟩

theorem Inv.step {a : Label} (h : Inv ncallout s) (htime : OnTime s a) (hs : exec s a = some s') :
    Inv ncallout s' := by
  cases a with
  | setitimer p aitv =>
    rw [exec] at hs
    split_ifs at hs with hexp
    exact h.setitimer (not_isSome_iff_eq_none.1 hexp) htime hs
  | timeout func arg t =>
    rw [exec] at hs
    split_ifs at hs with hfunc
    obtain ⟨clock, hexec, rfl⟩ := map_eq_some_iff.1 hs
    exact h.other hfunc hexec
  | untimeout func arg =>
    rw [exec] at hs
    split_ifs at hs with hfunc
    obtain ⟨clock, hexec, rfl⟩ := map_eq_some_iff.1 hs
    obtain ⟨hnow, hque⟩ := h.clock.queue_untimeout hexec
    refine h.sublist (h.clock.untimeout hexec) hnow ?_
    rcases hque with ⟨hque, -⟩ | ⟨u, x, v, hu, hv, -⟩
    · rw [hque]
    · rw [hu, hv]
      exact (List.Sublist.refl u).append (sublist_cons_self x v)
  | hardclock =>
    rw [exec] at hs
    obtain ⟨clock, hexec, rfl⟩ := map_eq_some_iff.1 hs
    exact h.hardclock htime hexec
  | softclock => exact h.softclock hs
  | reload =>
    obtain ⟨p, hexp, hs⟩ := bind_eq_some_iff.1 hs
    exact h.reload hexp htime hs

theorem inv_of_init (hs : s ∈ (system ncallout).init) : Inv ncallout s := by
  obtain ⟨hclk, htime, hexp, hlog⟩ := hs
  have hque : s.clock.queue = [] := by
    rw [Clock.State.queue, hclk.1]
    rfl
  refine ⟨Clock.inv_of_init hclk, htime, ?_, fun p hp => ?_, ?_⟩
  · rw [hque]
    exact ⟨fun x hx => absurd hx not_mem_nil, fun x hx => absurd hx not_mem_nil, .nil⟩
  · rw [hexp] at hp
    cases hp
  · rw [hlog]
    exact fun e he => absurd he not_mem_nil

/-- In every run in which timers are set for times that are ticks away, no signal is early, and
    timers do not drift, however late `softclock` is. -/
theorem realitexpire_punctual (hs : ((system ncallout).restrict OnTime).Reachable s) :
    ∀ e ∈ s.log, e.Sound :=
  have hinv : Inv ncallout s :=
    System.Reachable.invariant (S := (system ncallout).restrict OnTime) (fun _ h => inv_of_init h)
      (fun _ _ _ hi h => hi.step h.1 h.2) hs
  hinv.sound

/-- A table of one callout, at midnight on 1 January 1970. -/
def boot : Timers where
  clock := ⟨⟨[], [0]⟩, 0, fun _ => ⟨0, 0, 0, 0⟩, []⟩
  time := ⟨0, 0⟩
  p_realtimer := fun _ => ⟨⟨0, 0⟩, ⟨0, 0⟩⟩
  expiring := none
  first := fun _ => ⟨0, 0⟩
  log := []

/-- A timer of `usec` microseconds, a tick, and a round of `softclock`. -/
def alarm (usec : ℤ) : List Label := [.setitimer 3 ⟨⟨0, 0⟩, ⟨0, usec⟩⟩, .hardclock, .softclock]

theorem boot_mem_init : boot ∈ (system 1).init :=
  ⟨⟨rfl, rfl⟩, ⟨le_rfl, le_rfl, by decide⟩, rfl, rfl⟩

/-- A timer of 10 ms is on time. -/
theorem realitexpire_punctual_tick : ∃ s, (alarm 10000).foldlM exec boot = some s ∧
    s.log = [.psignal ⟨0, 10000⟩ ⟨0, 10000⟩] ∧ ∀ e ∈ s.log, e.Sound := by
  have h0 : ((system 1).restrict OnTime).Reachable boot := .init boot_mem_init
  have hset : OnTime boot (.setitimer 3 ⟨⟨0, 0⟩, ⟨0, 10000⟩⟩) := by
    intro it_value hval hset
    cases hval
    exact ⟨by rw [Fits]; decide, .inl (by decide)⟩
  have h1 := h0.step (a := Label.setitimer 3 ⟨⟨0, 0⟩, ⟨0, 10000⟩⟩) ⟨hset, rfl⟩
  have hcou : ∀ e : Clock.Entry, e.due = 1 → (0 : ℤ) - e.due < 2147483648 := by
    intro e he
    omega
  have h2 := h1.step (a := Label.hardclock)
    ⟨⟨fun e he => hcou e (by rw [mem_singleton.1 he]; rfl), by decide⟩, rfl⟩
  have h3 := h2.step (a := Label.softclock) ⟨trivial, rfl⟩
  exact ⟨_, rfl, rfl, realitexpire_punctual h3⟩

/-- A timer of 15 ms is early. -/
theorem realitexpire_early : ¬∀ s, (system 1).Reachable s → ∀ e ∈ s.log, e.Sound := by
  intro h
  have hinit : (system 1).Reachable boot := .init boot_mem_init
  have hrun : ∃ s, (alarm 15000).foldlM exec boot = some s ∧
      s.log = [.psignal ⟨0, 15000⟩ ⟨0, 10000⟩] := ⟨_, rfl, rfl⟩
  obtain ⟨s, hs, hlog⟩ := hrun
  have hsnd := h s (hinit.foldlM hs) (.psignal ⟨0, 15000⟩ ⟨0, 10000⟩) (by rw [hlog]; exact mem_cons_self)
  have hlt : ¬Timeval.usecs ⟨0, 15000⟩ ≤ Timeval.usecs ⟨0, 10000⟩ := by decide
  exact hlt hsnd

end Timers

end Uwisc.Time
