import Uwisc.Lib.Wrap

/-!
# Time of day and interval timers

Times and interval timers as in `sys/h/time.h` and `sys/sys/kern_time.c`, and what `hardclock`
(`sys/sys/kern_clock.c`) does to the time of day.

A `long` has 32 bits. Where the fields of a time are those of a normalised one, no sum of
microseconds gets out of its range, and so none is wrapped here; those of seconds are.
-/

namespace Uwisc.Time

open Lib

/-- `struct timeval`. -/
structure Timeval where
  tv_sec : ℤ
  tv_usec : ℤ
  deriving DecidableEq, Repr

/-- The rates of the clock (`conf/param.c`), in microseconds per tick. -/
structure Rates where
  tick : ℤ
  /-- The standard clock skew. -/
  tickadj : ℤ
  tick_pos : 0 < tick
  tick_lt : tick < 1000000
  tickadj_pos : 0 < tickadj

/-- `HZ` of `conf/param.c`. -/
abbrev HZ : ℤ := 100

/-- The rates of `conf/param.c`. -/
def Rates.param : Rates where
  tick := 1000000 / HZ
  tickadj := 240000 / (60 * HZ)
  tick_pos := by decide
  tick_lt := by decide
  tickadj_pos := by decide

inductive Errno
  | EPERM | EFAULT | EINVAL
  deriving DecidableEq, Repr

/-! ### Times -/

/-- Seconds, and less than a million microseconds. -/
def Timeval.Normalised (tv : Timeval) : Prop := 0 ≤ tv.tv_sec ∧ 0 ≤ tv.tv_usec ∧ tv.tv_usec < 1000000

/-- All of it in microseconds. -/
def Timeval.usecs (tv : Timeval) : ℤ := tv.tv_sec * 1000000 + tv.tv_usec

def timerisset (tvp : Timeval) : Prop := tvp.tv_sec ≠ 0 ∨ tvp.tv_usec ≠ 0

instance (tvp : Timeval) : Decidable (timerisset tvp) := inferInstanceAs (Decidable (_ ∨ _))

/-- `timercmp(tvp, uvp, >)`. -/
def timercmp (tvp uvp : Timeval) : Prop :=
  uvp.tv_sec < tvp.tv_sec ∨ tvp.tv_sec = uvp.tv_sec ∧ uvp.tv_usec < tvp.tv_usec

instance (tvp uvp : Timeval) : Decidable (timercmp tvp uvp) := inferInstanceAs (Decidable (_ ∨ _))

def timerclear : Timeval := ⟨0, 0⟩

def timevalfix (t1 : Timeval) : Timeval :=
  let t1 := if t1.tv_usec < 0 then ⟨wrap 32 (t1.tv_sec - 1), t1.tv_usec + 1000000⟩ else t1
  if 1000000 ≤ t1.tv_usec then ⟨wrap 32 (t1.tv_sec + 1), t1.tv_usec - 1000000⟩ else t1

def timevaladd (t1 t2 : Timeval) : Timeval :=
  timevalfix ⟨wrap 32 (t1.tv_sec + t2.tv_sec), t1.tv_usec + t2.tv_usec⟩

/-- `BUMPTIME`: bumps a time by a small number of microseconds. -/
def bumptime (tp : Timeval) (usec : ℤ) : Timeval :=
  if 1000000 ≤ tp.tv_usec + usec then ⟨wrap 32 (tp.tv_sec + 1), tp.tv_usec + usec - 1000000⟩
  else ⟨tp.tv_sec, tp.tv_usec + usec⟩

/-! ### Interval timers -/

/-- `struct itimerval`. -/
structure Itimerval where
  it_interval : Timeval
  it_value : Timeval
  deriving DecidableEq, Repr

/-- Checks a value to load into an interval timer, and rounds it up to the resolution of the
    clock. -/
def itimerfix (r : Rates) (tv : Timeval) : Except Errno Timeval :=
  if tv.tv_sec < 0 ∨ 100000000 < tv.tv_sec ∨ tv.tv_usec < 0 ∨ 1000000 ≤ tv.tv_usec then
    .error .EINVAL
  else if tv.tv_sec = 0 ∧ tv.tv_usec ≠ 0 ∧ tv.tv_usec < r.tick then .ok ⟨tv.tv_sec, r.tick⟩
  else .ok tv

/-- From `expire` in `itimerdecr`: reloads the timer, `usec` into the next interval. -/
def expire (itp : Itimerval) (usec : ℤ) : Itimerval :=
  if timerisset itp.it_interval then
    let it_value : Timeval := ⟨itp.it_interval.tv_sec, itp.it_interval.tv_usec - usec⟩
    { itp with it_value :=
        if it_value.tv_usec < 0 then ⟨it_value.tv_sec - 1, it_value.tv_usec + 1000000⟩
        else it_value }
  else { itp with it_value := ⟨itp.it_value.tv_sec, 0⟩ }

/-- Decrements an interval timer, and returns 0 if it expires. -/
def itimerdecr (itp : Itimerval) (usec : ℤ) : Itimerval × ℕ :=
  if itp.it_value.tv_usec < usec ∧ itp.it_value.tv_sec = 0 then
    -- expired, and already in the next interval
    (expire itp (usec - itp.it_value.tv_usec), 0)
  else
    let it_value : Timeval :=
      if itp.it_value.tv_usec < usec then
        ⟨itp.it_value.tv_sec - 1, itp.it_value.tv_usec + 1000000 - usec⟩
      else ⟨itp.it_value.tv_sec, itp.it_value.tv_usec - usec⟩
    if timerisset it_value then ({ itp with it_value }, 1)
    -- expired, exactly at the end of the interval
    else (expire { itp with it_value } 0, 0)

/-! ### The time of day -/

/-- The time of day, and the correction of it: how much is left of it, and how much of it is done
    at a tick. -/
structure Kernel where
  time : Timeval
  tickdelta : ℤ
  timedelta : ℤ

/-- The correction above which the skew is tenfold. -/
def bigadj : ℤ := 1000000

/-- The correction a call of `adjtime` asks for, in microseconds. -/
def Timeval.ndelta (atv : Timeval) : ℤ := wrap 32 (wrap 32 (atv.tv_sec * 1000000) + atv.tv_usec)

/-- Corrects the time of day slowly. `atv` is none where it is not in the space of the process.
    Returns what was left of the correction before, if there is an `olddelta`. -/
def adjtime (r : Rates) (k : Kernel) (suser : Bool) (atv : Option Timeval) (olddelta : Bool) :
    Kernel × Except Errno (Option Timeval) :=
  if !suser then (k, .error .EPERM)
  else match atv with
  | none => (k, .error .EFAULT)
  | some atv =>
    let ndelta := atv.ndelta
    let tickdelta :=
      if k.timedelta = 0 then if bigadj < ndelta then 10 * r.tickadj else r.tickadj
      else k.tickdelta
    let ndelta :=
      if ndelta.tmod tickdelta ≠ 0 then ndelta.tdiv r.tickadj * r.tickadj else ndelta
    let oatv := ⟨k.timedelta.tdiv 1000000, k.timedelta.tmod 1000000⟩
    ({ k with tickdelta, timedelta := ndelta }, .ok (if olddelta then some oatv else none))

/-- By how much `hardclock` bumps the time of day. -/
def delta (r : Rates) (k : Kernel) : ℤ :=
  if k.timedelta = 0 then r.tick
  else if k.timedelta < 0 then r.tick - k.tickdelta
  else r.tick + k.tickdelta

/-- The time of day at a tick, at the end of `hardclock`. -/
def hardclock (r : Rates) (k : Kernel) : Kernel :=
  { k with
    time := bumptime k.time (delta r k)
    timedelta :=
      if k.timedelta = 0 then k.timedelta
      else if k.timedelta < 0 then k.timedelta + k.tickdelta
      else k.timedelta - k.tickdelta }

end Uwisc.Time
