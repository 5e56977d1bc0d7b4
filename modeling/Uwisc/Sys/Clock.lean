import Mathlib.Data.List.Basic
import Uwisc.Lib.Delta
import Uwisc.Lib.System
import Uwisc.Lib.Wrap

/-!
# The callout queue

Timeouts as in `sys/sys/kern_clock.c`: the entries to do, each with the time from the one
before it (`calltodo`), and the free ones (`callfree`), in the table `callout`.

Times are in ticks of the clock, and are `int`s. Entries of the table go by their number.
-/

namespace Uwisc.Clock

open Lib

/-- An entry of the table (`struct callout`). -/
structure Callout where
  slot : ℕ
  c_time : ℤ
  c_arg : ℕ
  c_func : ℕ

/-- The entries to do, in order, and those that are free. -/
structure Callouts where
  calltodo : List Callout
  callfree : List ℕ

/-- The loop of `hardclock`: the entries after a tick, and if one of them is due. -/
def updateTimes : List Callout → List Callout × Bool
  | [] => ([], false)
  | p1 :: l =>
    let p1 := { p1 with c_time := wrap 32 (p1.c_time - 1) }
    if 0 < p1.c_time then (p1 :: l, false)
    else if p1.c_time = 0 then (p1 :: l, true)
    -- already due: the time to the next one is from now
    else (p1 :: (updateTimes l).1, true)

/-- Updates the timeout queue; `needsoft` says if `softclock` is to run. -/
def hardclock (c : Callouts) : Callouts × Bool :=
  let r := updateTimes c.calltodo
  ({ c with calltodo := r.1 }, r.2)

/-- One round of the loop of `softclock`: the entry it takes off the queue and calls, or none if
    the loop ends. -/
def softclock (c : Callouts) : Option (Callout × Callouts) :=
  match c.calltodo with
  | [] => none
  | p1 :: l =>
    if 0 < p1.c_time then none else some (p1, { calltodo := l, callfree := p1.slot :: c.callfree })

/-- The loop of `timeout`: puts an entry where it belongs. -/
def enqueue (pnew : Callout) (t : ℤ) : List Callout → List Callout
  | [] => [{ pnew with c_time := t }]
  | p2 :: l =>
    if p2.c_time < t then
      p2 :: enqueue pnew (if 0 < p2.c_time then wrap 32 (t - p2.c_time) else t) l
    else { pnew with c_time := t } :: { p2 with c_time := wrap 32 (p2.c_time - t) } :: l

inductive Panic
  | timeoutTableOverflow
  deriving DecidableEq, Repr

/-- Arranges that `fun` is called with `arg` in `t` ticks. -/
def timeout (c : Callouts) (func arg : ℕ) (t : ℤ) : Except Panic Callouts :=
  let t := if t ≤ 0 then 1 else t
  match c.callfree with
  | [] => .error .timeoutTableOverflow
  | pnew :: callfree =>
    .ok {
      calltodo := enqueue { slot := pnew, c_time := t, c_arg := arg, c_func := func } t c.calltodo
      callfree }

/-- Adds the time of an entry that is removed to the next one. -/
def addTime (p2 : Callout) : List Callout → List Callout
  | [] => []
  | p :: l =>
    if 0 < p2.c_time then { p with c_time := wrap 32 (p.c_time + p2.c_time) } :: l else p :: l

/-- The loop of `untimeout`: the slot of the entry found, and the other entries. -/
def dequeue (func arg : ℕ) : List Callout → Option (ℕ × List Callout)
  | [] => none
  | p2 :: l =>
    if p2.c_func = func ∧ p2.c_arg = arg then some (p2.slot, addTime p2 l)
    else (dequeue func arg l).map fun q => (q.1, p2 :: q.2)

/-- Removes a call of a function from the queue. -/
def untimeout (c : Callouts) (func arg : ℕ) : Callouts :=
  match dequeue func arg c.calltodo with
  | some (p2, calltodo) => { calltodo, callfree := p2 :: c.callfree }
  | none => c

/-!
### Runs of the callout queue

The queue is a delta queue (`updateTimes_key`, `enqueue_key`, `dequeue_key`): as long as its
times do not overflow, its operations are those of a list sorted by the time an entry is due.

A run is any sequence of calls of `timeout` and `untimeout`, ticks of the clock, and rounds of
the loop of `softclock`, from a table that is all free. Along with the queue go the entry
each slot is used for and a log of what happened (`State`). `timeout_sound` says that in every
state of a run in which no entry gets overdue by the range of an `int` (`Counts`)

* every slot is in exactly one of the lists;
* every entry inserted is run once or cancelled once, or is still to be run;
* none is run early, and no run of `softclock` ends at a time at which it is due before it has
    been run, whatever is inserted or cancelled meanwhile.

An entry overdue by more than that counts as one in the far future (`softclock_late`).
-/

open Delta Function List Option

variable {p : Callout} {l : List Callout} {func arg : ℕ} {t : ℤ}

/-- What is in the queue besides times: the slot, and what is to be called. -/
def Callout.call (p : Callout) : ℕ × ℕ × ℕ := (p.slot, p.c_func, p.c_arg)

/-- An entry as one of a delta queue. -/
def Callout.key (p : Callout) : ℤ × ℕ × ℕ × ℕ := (p.c_time, p.call)

theorem updateTimes_key (h : ∀ p ∈ l, -2147483648 < p.c_time ∧ p.c_time ≤ 2147483647) :
    (updateTimes l).1.map Callout.key = tick (l.map Callout.key) := by
  induction l with
  | nil => rfl
  | cons p l ih =>
    obtain ⟨hp, hl⟩ := forall_mem_cons.1 h
    have hwrap : wrap 32 (p.c_time - 1) = p.c_time - 1 := wrap_int (by omega) (by omega)
    rw [updateTimes, map_cons, Callout.key, tick]
    simp only [hwrap]
    split_ifs
    · rfl
    · rfl
    · rw [map_cons, ih hl]
      rfl

theorem enqueue_key {pnew : Callout} (h : ∀ p ∈ l, InRange 32 p.c_time) (ht : 0 < t)
    (hmax : t ≤ 2147483647) :
    (enqueue pnew t l).map Callout.key = Delta.insert t pnew.call (l.map Callout.key) := by
  induction l generalizing t with
  | nil => rfl
  | cons p l ih =>
    obtain ⟨hp, hl⟩ := forall_mem_cons.1 h
    have hp := inRange_int.1 hp
    rw [enqueue, map_cons, Callout.key, Delta.insert]
    by_cases hlt : p.c_time < t
    · rw [if_pos hlt, if_pos hlt, map_cons]
      by_cases hpos : 0 < p.c_time
      · have hwrap : wrap 32 (t - p.c_time) = t - p.c_time := wrap_int (by omega) (by omega)
        rw [if_pos hpos, if_pos hpos, hwrap, ih hl (by omega) (by omega)]
        rfl
      · rw [if_neg hpos, if_neg hpos, ih hl ht hmax]
        rfl
    · have hwrap : wrap 32 (p.c_time - t) = p.c_time - t := wrap_int (by omega) (by omega)
      rw [if_neg hlt, if_neg hlt, map_cons, map_cons, hwrap]
      rfl

theorem addTime_key (h : ∀ p ∈ l, InRange 32 p.c_time)
    (hmax : ∀ q ∈ absolute t ((p :: l).map Callout.key), q.1 - t ≤ 2147483647) :
    (addTime p l).map Callout.key = relink p.c_time (l.map Callout.key) := by
  cases l with
  | nil => rfl
  | cons p' l =>
    rw [addTime, map_cons, Callout.key, relink]
    split_ifs with hpos
    · have hp' := inRange_int.1 (h p' mem_cons_self)
      have hle := hmax (t + max p.c_time 0 + p'.c_time, p'.call)
        (mem_cons_of_mem _ mem_cons_self)
      rw [max_eq_left hpos.le] at hle
      have hwrap : wrap 32 (p'.c_time + p.c_time) = p'.c_time + p.c_time :=
        wrap_int (by omega) (by dsimp only at hle; omega)
      rw [map_cons, hwrap]
      rfl
    · rfl

/-- What `untimeout` looks for. -/
def Matches (func arg : ℕ) (x : ℕ × ℕ × ℕ) : Prop := x.2.1 = func ∧ x.2.2 = arg

instance : DecidablePred (Matches func arg) := fun _ => inferInstanceAs (Decidable (_ ∧ _))

theorem dequeue_key (func arg : ℕ) (h : ∀ p ∈ l, InRange 32 p.c_time)
    (hmax : ∀ q ∈ absolute t (l.map Callout.key), q.1 - t ≤ 2147483647) :
    (dequeue func arg l).map (fun q => (q.1, q.2.map Callout.key)) =
      (remove (Matches func arg) (l.map Callout.key)).map fun q => (q.1.1, q.2) := by
  induction l generalizing t with
  | nil => rfl
  | cons p l ih =>
    obtain ⟨-, hl⟩ := forall_mem_cons.1 h
    rw [dequeue, map_cons, Callout.key, remove]
    by_cases hp : p.c_func = func ∧ p.c_arg = arg
    · have hm : Matches func arg p.call := hp
      rw [if_pos hp, if_pos hm, map_some, addTime_key hl hmax]
      rfl
    · have hm : ¬Matches func arg p.call := hp
      have hmax' : ∀ q ∈ absolute (t + max p.c_time 0) (l.map Callout.key),
          q.1 - (t + max p.c_time 0) ≤ 2147483647 := by
        intro q hq
        have := hmax q (mem_cons_of_mem _ hq)
        omega
      have hih := ih hl hmax'
      rw [if_neg hp, if_neg hm, Option.map_map]
      cases hq : dequeue func arg l <;> cases hr : remove (Matches func arg) (l.map Callout.key)
        <;> simp_all [Callout.key]

/-! ### Runs -/

/-- A call arranged for by `timeout`, and the time it is due. -/
structure Entry where
  id : ℕ
  c_func : ℕ
  c_arg : ℕ
  due : ℤ

/-- What happens, with the time it is. -/
inductive Event
  /-- An entry is inserted, to be run in `t` ticks. -/
  | inserted (e : Entry) (t now : ℤ)
  /-- An entry is removed by a call of `untimeout`. -/
  | cancelled (e : Entry) (func arg : ℕ)
  /-- `softclock` takes an entry off the queue and does a call. -/
  | ran (e : Entry) (func arg : ℕ) (now : ℤ)
  /-- A run of `softclock` ends. -/
  | exit (now : ℤ)

/-- The queue, the time, the entries the slots were last used for, and what happened so far,
    latest first. -/
structure State where
  callouts : Callouts
  now : ℤ
  owner : ℕ → Entry
  log : List Event

inductive Label
  | timeout (func arg : ℕ) (t : BitVec 32)
  | untimeout (func arg : ℕ)
  | hardclock
  | softclock

/-- Executes a call, a tick, or a round of `softclock`. -/
def exec (s : State) : Label → Option State
  | .timeout func arg t =>
    match timeout s.callouts func arg t.toInt, s.callouts.callfree with
    | .ok c, pnew :: _ =>
      let e := { id := s.log.length, c_func := func, c_arg := arg, due := s.now + max t.toInt 1 }
      some { s with
        callouts := c
        owner := update s.owner pnew e
        log := .inserted e t.toInt s.now :: s.log }
    | _, _ => none
  | .untimeout func arg =>
    some { s with
      callouts := untimeout s.callouts func arg
      log := match dequeue func arg s.callouts.calltodo with
        | some (p2, _) => .cancelled (s.owner p2) func arg :: s.log
        | none => s.log }
  | .hardclock => some { s with callouts := (hardclock s.callouts).1, now := s.now + 1 }
  | .softclock =>
    match softclock s.callouts with
    | some (p1, c) => some { s with
        callouts := c
        log := .ran (s.owner p1.slot) p1.c_func p1.c_arg s.now :: s.log }
    | none => some { s with log := .exit s.now :: s.log }

/-- The runs of a table of `ncallout` entries. -/
def system (ncallout : ℕ) : System State Label :=
  .ofExec { s | s.callouts = ⟨[], range ncallout⟩ ∧ s.log = [] } exec

/-- The entries still to be run. -/
def State.pending (s : State) : List Entry := s.callouts.calltodo.map fun p => s.owner p.slot

/-- The entries that were inserted. -/
def insertions : List Event → List Entry :=
  filterMap fun
    | .inserted e _ _ => some e
    | _ => none

/-- The entries that were run or cancelled. -/
def ends : List Event → List Entry :=
  filterMap fun
    | .cancelled e _ _ | .ran e _ _ _ => some e
    | _ => none

/-- What happens is as it should be, given what happened before. -/
def Event.Sound (past : List Event) : Event → Prop
  | inserted e t now => e.due = now + max t 1
  | cancelled e func arg => e.c_func = func ∧ e.c_arg = arg
  | ran e func arg now =>
    func = e.c_func ∧ arg = e.c_arg ∧ e.due ≤ now ∧ ∀ τ, .exit τ ∈ past → τ < e.due
  | exit _ => True

/-- All that happened is. -/
def Sound : List Event → Prop
  | [] => True
  | x :: past => x.Sound past ∧ Sound past

/-- Every slot is in one of the lists, and every entry that was inserted is run or cancelled once
    or is still to be run; no run of `softclock` ended after the time it is due. -/
structure Correct (ncallout : ℕ) (s : State) : Prop where
  slots : (s.callouts.calltodo.map Callout.slot ++ s.callouts.callfree).Perm (range ncallout)
  nodup : (insertions s.log).Nodup
  entries : (s.pending ++ ends s.log).Perm (insertions s.log)
  sound : Sound s.log
  missed : ∀ e ∈ s.pending, ∀ τ, .exit τ ∈ s.log → τ < e.due

/-- At a tick, no entry is overdue by the range of an `int`. -/
def Counts (s : State) : Label → Prop
  | .hardclock => ∀ e ∈ s.pending, s.now - e.due < 2147483648
  | _ => True

/-! ### The agenda -/

/-- The queue sorted by time, with the calls that were arranged for. -/
structure Agenda (ncallout : ℕ) (s : State) (q : List (ℤ × ℕ × ℕ × ℕ)) (callfree : List ℕ) :
    Prop where
  sorted : Sorted q
  near : ∀ x ∈ q, x.1 ≤ s.now + 2147483647
  owner : ∀ x ∈ q, (s.owner x.2.1).due = x.1 ∧ (s.owner x.2.1).c_func = x.2.2.1 ∧
    (s.owner x.2.1).c_arg = x.2.2.2
  slots : (q.map (fun x => x.2.1) ++ callfree).Perm (range ncallout)
  entries : (q.map (fun x => s.owner x.2.1) ++ ends s.log).Perm (insertions s.log)
  fresh : ∀ e ∈ insertions s.log, e.id < s.log.length
  nodup : (insertions s.log).Nodup
  exits : ∀ τ, .exit τ ∈ s.log → τ ≤ s.now
  missed : ∀ x ∈ q, ∀ τ, .exit τ ∈ s.log → τ < x.1
  sound : Sound s.log

namespace Agenda

variable {ncallout : ℕ} {s : State} {q u v : List (ℤ × ℕ × ℕ × ℕ)} {callfree : List ℕ}

/-- An entry is inserted. -/
theorem insert {pnew : ℕ} (h : Agenda ncallout s q (pnew :: callfree)) {e : Entry}
    (hid : e.id = s.log.length) (hdue : e.due = s.now + max t 1) (hmax : t ≤ 2147483647)
    (c : Callouts) :
    Agenda ncallout
      ⟨c, s.now, update s.owner pnew e, .inserted e t s.now :: s.log⟩
      (insertAt e.due (pnew, e.c_func, e.c_arg) q) callfree := by
  have hperm := insertAt_perm e.due (pnew, e.c_func, e.c_arg) q
  have hnew : ∀ x ∈ q, x.2.1 ≠ pnew := by
    intro x hx heq
    have hnd := h.slots.nodup_iff.2 (nodup_range)
    exact (nodup_append.1 hnd).2.2 _ (List.mem_map_of_mem hx) _ mem_cons_self heq
  have howner : ∀ x ∈ q, update s.owner pnew e x.2.1 = s.owner x.2.1 := fun x hx =>
    update_of_ne (hnew x hx) _ _
  have hmem : ∀ x, x ∈ insertAt e.due (pnew, e.c_func, e.c_arg) q ↔
      x = (e.due, pnew, e.c_func, e.c_arg) ∨ x ∈ q := fun x => by
    rw [hperm.mem_iff, mem_cons]
  refine ⟨h.sorted.insertAt _ _, ?_, ?_, ?_, ?_, ?_, ?_, ?_, ?_, hdue, h.sound⟩
  · intro x hx
    rcases (hmem x).1 hx with rfl | hx
    · dsimp only
      omega
    · exact h.near x hx
  · intro x hx
    rcases (hmem x).1 hx with rfl | hx
    · simp
    · dsimp only
      rw [howner x hx]
      exact h.owner x hx
  · refine ((hperm.map _).append_right _).trans (.trans ?_ h.slots)
    exact (perm_middle (a := pnew)).symm
  · refine ((hperm.map _).append_right _).trans ?_
    have hmap : q.map (fun x => update s.owner pnew e x.2.1) =
        q.map fun x => s.owner x.2.1 := map_congr_left howner
    dsimp only
    rw [map_cons, hmap, update_self]
    exact h.entries.cons e
  · intro e' he'
    rcases mem_cons.1 he' with rfl | he'
    · exact hid.trans_lt (Nat.lt_succ_self _)
    · exact (h.fresh e' he').trans (Nat.lt_succ_self _)
  · refine nodup_cons.2 ⟨fun he => ?_, h.nodup⟩
    exact (h.fresh e he).ne hid
  · intro τ hτ
    exact h.exits τ ((mem_cons.1 hτ).resolve_left nofun)
  · intro x hx τ hτ
    have hτ := (mem_cons.1 hτ).resolve_left nofun
    rcases (hmem x).1 hx with rfl | hx
    · -- due later than now, and so than any run of `softclock` so far
      have := h.exits τ hτ
      dsimp only
      omega
    · exact h.missed x hx τ hτ

/-- An entry is taken off the queue. -/
theorem remove {x : ℤ × ℕ × ℕ × ℕ} (h : Agenda ncallout s (u ++ x :: v) callfree) (ev : Event)
    (hins : insertions (ev :: s.log) = insertions s.log)
    (hends : ends (ev :: s.log) = s.owner x.2.1 :: ends s.log)
    (hexit : ∀ τ, ev ≠ .exit τ) (hev : ev.Sound s.log) (c : Callouts) :
    Agenda ncallout ⟨c, s.now, s.owner, ev :: s.log⟩ (u ++ v) (x.2.1 :: callfree) := by
  have hsubl : (u ++ v).Sublist (u ++ x :: v) :=
    (List.Sublist.refl u).append (sublist_cons_self x v)
  have hsub : ∀ y ∈ u ++ v, y ∈ u ++ x :: v := fun _ => hsubl.mem
  have hlog : ∀ τ, Event.exit τ ∈ ev :: s.log → Event.exit τ ∈ s.log := fun τ hτ =>
    (mem_cons.1 hτ).resolve_left (hexit τ).symm
  refine ⟨h.sorted.sublist hsubl, fun y hy => h.near y (hsub y hy),
    fun y hy => h.owner y (hsub y hy), ?_, ?_, ?_, ?_, fun τ hτ => h.exits τ (hlog τ hτ),
    fun y hy τ hτ => h.missed y (hsub y hy) τ (hlog τ hτ), hev, h.sound⟩
  · refine .trans ?_ h.slots
    rw [map_append, map_append, map_cons, append_assoc, append_assoc]
    exact List.Perm.append_left _ perm_middle
  · refine .trans ?_ (hins ▸ h.entries)
    rw [hends, map_append, map_append, map_cons, append_assoc, append_assoc]
    exact List.Perm.append_left _ perm_middle
  · rw [hins]
    exact fun e he => (h.fresh e he).trans (Nat.lt_succ_self _)
  · rw [hins]
    exact h.nodup

/-- The clock ticks. -/
theorem tick (h : Agenda ncallout s q callfree) (c : Callouts) :
    Agenda ncallout ⟨c, s.now + 1, s.owner, s.log⟩ q callfree where
  __ := h
  near := fun x hx => (h.near x hx).trans (by dsimp only; omega)
  exits := fun τ hτ => (h.exits τ hτ).trans (by dsimp only; omega)

/-- A run of `softclock` ends, when nothing is due. -/
theorem exit (h : Agenda ncallout s q callfree) (hq : ∀ x ∈ q, s.now < x.1) :
    Agenda ncallout ⟨s.callouts, s.now, s.owner, .exit s.now :: s.log⟩ q callfree where
  __ := h
  fresh := fun e he => (h.fresh e he).trans (Nat.lt_succ_self _)
  exits := by
    intro τ hτ
    rcases mem_cons.1 hτ with hτ | hτ
    · cases hτ
      exact le_rfl
    · exact h.exits τ hτ
  missed := by
    intro x hx τ hτ
    rcases mem_cons.1 hτ with hτ | hτ
    · cases hτ
      exact hq x hx
    · exact h.missed x hx τ hτ
  sound := ⟨trivial, h.sound⟩

end Agenda

/-! ### Every run -/

theorem updateTimes_inRange (h : ∀ p ∈ l, InRange 32 p.c_time) :
    ∀ p ∈ (updateTimes l).1, InRange 32 p.c_time := by
  induction l with
  | nil => exact h
  | cons p l ih =>
    obtain ⟨-, hl⟩ := forall_mem_cons.1 h
    have hp := wrap_inRange 32 (p.c_time - 1)
    rw [updateTimes]
    dsimp only
    split_ifs
    · exact forall_mem_cons.2 ⟨hp, hl⟩
    · exact forall_mem_cons.2 ⟨hp, hl⟩
    · exact forall_mem_cons.2 ⟨hp, ih hl⟩

theorem enqueue_inRange {pnew : Callout} (h : ∀ p ∈ l, InRange 32 p.c_time) (ht : InRange 32 t) :
    ∀ p ∈ enqueue pnew t l, InRange 32 p.c_time := by
  induction l generalizing t with
  | nil => exact forall_mem_singleton.2 ht
  | cons p l ih =>
    obtain ⟨hp, hl⟩ := forall_mem_cons.1 h
    rw [enqueue]
    split_ifs
    · exact forall_mem_cons.2 ⟨hp, ih hl (wrap_inRange _ _)⟩
    · exact forall_mem_cons.2 ⟨hp, ih hl ht⟩
    · exact forall_mem_cons.2 ⟨ht, forall_mem_cons.2 ⟨wrap_inRange _ _, hl⟩⟩

theorem addTime_inRange (h : ∀ p ∈ l, InRange 32 p.c_time) :
    ∀ p' ∈ addTime p l, InRange 32 p'.c_time := by
  cases l with
  | nil => exact h
  | cons p' l =>
    rw [addTime]
    split_ifs
    · exact forall_mem_cons.2 ⟨wrap_inRange _ _, (forall_mem_cons.1 h).2⟩
    · exact h

theorem dequeue_inRange {p2 : ℕ} {l' : List Callout} (h : ∀ p ∈ l, InRange 32 p.c_time)
    (hq : dequeue func arg l = some (p2, l')) : ∀ p ∈ l', InRange 32 p.c_time := by
  induction l generalizing l' with
  | nil => cases hq
  | cons p l ih =>
    obtain ⟨hp, hl⟩ := forall_mem_cons.1 h
    rw [dequeue] at hq
    split_ifs at hq
    · cases hq
      exact addTime_inRange hl
    · obtain ⟨⟨p2', l''⟩, hq', hl'⟩ := map_eq_some_iff.1 hq
      cases hl'
      exact forall_mem_cons.2 ⟨hp, ih hl hq'⟩

/-- The times of entries that are not overdue by the range of an `int` may be decremented. -/
theorem lt_c_time (hsor : Sorted (absolute t (l.map Callout.key)))
    (h : ∀ x ∈ absolute t (l.map Callout.key), t - x.1 < 2147483648) :
    ∀ p ∈ l, -2147483648 < p.c_time := by
  induction l generalizing t with
  | nil => exact fun _ hp => absurd hp not_mem_nil
  | cons p l ih =>
    obtain ⟨hle, hl⟩ := pairwise_cons.1 hsor
    obtain ⟨hp, hall⟩ := forall_mem_cons.1 h
    dsimp only at hle hp
    refine forall_mem_cons.2 ⟨by omega, ih hl fun x hx => ?_⟩
    have := hle x hx
    have := hall x hx
    omega

/-- The queue by the time entries are due. -/
def State.queue (s : State) : List (ℤ × ℕ × ℕ × ℕ) :=
  absolute s.now (s.callouts.calltodo.map Callout.key)

theorem map_snd_queue (s : State) : s.queue.map Prod.snd = s.callouts.calltodo.map Callout.call := by
  rw [State.queue, map_snd_absolute, List.map_map]
  rfl

theorem State.pending_eq (s : State) : s.pending = s.queue.map fun x => s.owner x.2.1 := by
  have h := congrArg (map fun x => s.owner x.1) (map_snd_queue s)
  rw [List.map_map, List.map_map] at h
  exact h.symm

/-- What holds in every state of a run. -/
structure Inv (ncallout : ℕ) (s : State) : Prop where
  inRange : ∀ p ∈ s.callouts.calltodo, InRange 32 p.c_time
  agenda : Agenda ncallout s s.queue s.callouts.callfree

variable {ncallout : ℕ} {s s' : State}

/-- `timeout` inserts an entry. -/
theorem Inv.queue_timeout {t : BitVec 32} (h : Inv ncallout s)
    (hs : exec s (.timeout func arg t) = some s') :
    ∃ pnew callfree, s.callouts.callfree = pnew :: callfree ∧ s'.now = s.now ∧
      s'.queue = insertAt (s.now + max t.toInt 1) (pnew, func, arg) s.queue := by
  obtain ⟨hrng, -⟩ := h
  obtain ⟨⟨calltodo, callfree⟩, now, owner, log⟩ := s
  cases callfree with
  | nil => simp [exec, Clock.timeout] at hs
  | cons pnew callfree =>
    have hlt : t.toInt < 2147483648 := by simpa using BitVec.toInt_lt (x := t)
    have ht : (if t.toInt ≤ 0 then 1 else t.toInt) = max t.toInt 1 := by
      split_ifs <;> omega
    simp only [exec, Clock.timeout, ht, some_inj] at hs
    subst hs
    refine ⟨pnew, callfree, rfl, rfl, ?_⟩
    rw [State.queue, State.queue]
    dsimp only at hrng ⊢
    rw [enqueue_key hrng (by omega) (by omega), absolute_insert (by omega)]
    rfl

theorem Inv.timeout {t : BitVec 32} (h : Inv ncallout s)
    (hs : exec s (.timeout func arg t) = some s') : Inv ncallout s' := by
  obtain ⟨pnew, callfree, hfree, -, hque⟩ := h.queue_timeout hs
  obtain ⟨hrng, hage⟩ := h
  obtain ⟨⟨calltodo, callfree⟩, now, owner, log⟩ := s
  cases hfree
  have hlt : t.toInt < 2147483648 := by simpa using BitVec.toInt_lt (x := t)
  have ht : (if t.toInt ≤ 0 then 1 else t.toInt) = max t.toInt 1 := by
    split_ifs <;> omega
  simp only [exec, Clock.timeout, ht, some_inj] at hs
  subst hs
  have hmax : InRange 32 (max t.toInt 1) := inRange_int.2 ⟨by omega, by omega⟩
  refine ⟨enqueue_inRange hrng hmax, ?_⟩
  rw [hque]
  exact hage.insert (e := ⟨log.length, func, arg, now + max t.toInt 1⟩) rfl rfl (by omega) _

/-- What `untimeout` finds: the first entry for the call, if there is one. -/
theorem Inv.dequeue_queue (h : Inv ncallout s) (func arg : ℕ) :
    match dequeue func arg s.callouts.calltodo with
    | none => ∀ x ∈ s.queue, ¬Matches func arg x.2
    | some (p2, l') => ∃ u x v, s.queue = u ++ x :: v ∧
        absolute s.now (l'.map Callout.key) = u ++ v ∧ Matches func arg x.2 ∧ x.2.1 = p2 := by
  have hmax : ∀ x ∈ s.queue, x.1 - s.now ≤ 2147483647 := fun x hx => by
    have := h.agenda.near x hx
    omega
  have hkey := dequeue_key func arg h.inRange hmax
  have hrem := absolute_remove (Matches func arg) h.agenda.sorted
  cases hq : dequeue func arg s.callouts.calltodo with
  | none =>
    rw [hq] at hkey
    rw [map_eq_none_iff.1 hkey.symm] at hrem
    intro x hx
    have hmem : x.2 ∈ s.queue.map Prod.snd := List.mem_map_of_mem hx
    rw [State.queue, map_snd_absolute] at hmem
    obtain ⟨e, he, heq⟩ := List.mem_map.1 hmem
    exact heq ▸ hrem e he
  | some q =>
    obtain ⟨p2, l'⟩ := q
    rw [hq] at hkey
    obtain ⟨⟨x, q⟩, hr, hx⟩ := map_eq_some_iff.1 hkey.symm
    rw [hr] at hrem
    obtain ⟨rfl, hl'⟩ := Prod.mk.inj hx
    obtain ⟨hm, u, d, v, hu, hv⟩ := hrem
    dsimp only at hl'
    subst hl'
    exact ⟨u, (d, x), v, hu, hv, hm, rfl⟩

theorem Inv.untimeout (h : Inv ncallout s) (hs : exec s (.untimeout func arg) = some s') :
    Inv ncallout s' := by
  have hdeq := h.dequeue_queue func arg
  simp only [exec, Clock.untimeout, some_inj] at hs
  subst hs
  cases hq : dequeue func arg s.callouts.calltodo with
  | none => exact h
  | some q =>
    obtain ⟨p2, l'⟩ := q
    rw [hq] at hdeq
    obtain ⟨u, x, v, hu, hv, hm, rfl⟩ := hdeq
    have hage : Agenda ncallout s (u ++ x :: v) s.callouts.callfree := hu ▸ h.agenda
    have howner := hage.owner x (mem_append_right _ mem_cons_self)
    refine ⟨dequeue_inRange h.inRange hq, ?_⟩
    have := hage.remove (.cancelled (s.owner x.2.1) func arg) rfl rfl
      (fun _ hexit => by cases hexit) ⟨howner.2.1.trans hm.1, howner.2.2.trans hm.2⟩
      ⟨l', x.2.1 :: s.callouts.callfree⟩
    rw [State.queue]
    dsimp only
    rw [hv]
    exact this

/-- `untimeout` removes the first entry for the call, if there is one. -/
theorem Inv.queue_untimeout (h : Inv ncallout s) (hs : exec s (.untimeout func arg) = some s') :
    s'.now = s.now ∧ ((s'.queue = s.queue ∧ ∀ x ∈ s.queue, ¬Matches func arg x.2) ∨
      ∃ u x v, s.queue = u ++ x :: v ∧ s'.queue = u ++ v ∧ Matches func arg x.2) := by
  have hdeq := h.dequeue_queue func arg
  simp only [exec, Clock.untimeout, some_inj] at hs
  subst hs
  refine ⟨rfl, ?_⟩
  cases hq : dequeue func arg s.callouts.calltodo with
  | none =>
    rw [hq] at hdeq
    exact .inl ⟨rfl, hdeq⟩
  | some q =>
    obtain ⟨p2, l'⟩ := q
    rw [hq] at hdeq
    obtain ⟨u, x, v, hu, hv, hm, -⟩ := hdeq
    exact .inr ⟨u, x, v, hu, hv, hm⟩

/-- A tick changes no time at which an entry is due. -/
theorem Inv.queue_hardclock (h : Inv ncallout s) (hc : Counts s .hardclock)
    (hs : exec s .hardclock = some s') : s'.queue = s.queue ∧ s'.now = s.now + 1 := by
  simp only [exec, Clock.hardclock, some_inj] at hs
  subst hs
  have hlt : ∀ p ∈ s.callouts.calltodo, -2147483648 < p.c_time := by
    refine lt_c_time h.agenda.sorted fun x hx => ?_
    have := hc (s.owner x.2.1) (s.pending_eq ▸ List.mem_map_of_mem hx)
    rw [(h.agenda.owner x hx).1] at this
    exact this
  refine ⟨?_, rfl⟩
  rw [State.queue, State.queue]
  dsimp only
  rw [updateTimes_key fun p hp => ⟨hlt p hp, (inRange_int.1 (h.inRange p hp)).2⟩, absolute_tick]

theorem Inv.hardclock (h : Inv ncallout s) (hc : Counts s .hardclock)
    (hs : exec s .hardclock = some s') : Inv ncallout s' := by
  obtain ⟨hque, -⟩ := h.queue_hardclock hc hs
  simp only [exec, Clock.hardclock, some_inj] at hs
  subst hs
  refine ⟨updateTimes_inRange h.inRange, ?_⟩
  rw [hque]
  exact h.agenda.tick ⟨(updateTimes s.callouts.calltodo).1, s.callouts.callfree⟩

/-- The entry that `softclock` takes off the queue is the first one, and it is due. -/
theorem queue_softclock {p1 : Callout} {c : Callouts} (hs : softclock s.callouts = some (p1, c)) :
    ∃ due, due ≤ s.now ∧ s.queue = (due, p1.call) :: absolute s.now (c.calltodo.map Callout.key) := by
  obtain ⟨⟨calltodo, callfree⟩, now, owner, log⟩ := s
  cases calltodo with
  | nil => cases hs
  | cons p l =>
    simp only [Clock.softclock] at hs
    split_ifs at hs with hpos
    cases hs
    refine ⟨now + p1.c_time, by dsimp only; omega, ?_⟩
    rw [State.queue, map_cons, Callout.key, absolute, max_eq_right (not_lt.1 hpos), add_zero]

theorem Inv.softclock (h : Inv ncallout s) (hs : exec s .softclock = some s') :
    Inv ncallout s' := by
  obtain ⟨hrng, hage⟩ := h
  obtain ⟨⟨calltodo, callfree⟩, now, owner, log⟩ := s
  cases calltodo with
  | nil =>
    cases hs
    exact ⟨hrng, hage.exit fun x hx => absurd hx not_mem_nil⟩
  | cons p1 l =>
    simp only [exec, Clock.softclock] at hs
    by_cases hpos : 0 < p1.c_time
    · rw [if_pos hpos] at hs
      cases hs
      refine ⟨hrng, hage.exit fun x hx => ?_⟩
      -- the first entry is not due, and so no entry is
      have hfst : now + p1.c_time ≤ x.1 := by
        rcases mem_cons.1 hx with rfl | hx
        · exact le_rfl
        · exact (pairwise_cons.1 hage.sorted).1 x hx
      dsimp only
      omega
    · rw [if_neg hpos] at hs
      cases hs
      have hq : (State.mk ⟨p1 :: l, callfree⟩ now owner log).queue =
          [] ++ (now + p1.c_time, p1.call) :: absolute now (l.map Callout.key) := by
        rw [State.queue, map_cons, Callout.key, absolute, max_eq_right (not_lt.1 hpos), add_zero,
          nil_append]
      rw [hq] at hage
      have howner := hage.owner _ mem_cons_self
      refine ⟨(forall_mem_cons.1 hrng).2,
        hage.remove (.ran _ _ _ _) rfl rfl (fun _ hexit => by cases hexit) ?_ _⟩
      refine ⟨howner.2.1.symm, howner.2.2.symm, ?_, fun τ hτ => ?_⟩
      · rw [howner.1]
        dsimp only
        omega
      · rw [howner.1]
        exact hage.missed _ mem_cons_self τ hτ

theorem Inv.step {a : Label} (h : Inv ncallout s) (hc : Counts s a)
    (hs : exec s a = some s') : Inv ncallout s' := by
  cases a with
  | timeout func arg t => exact h.timeout hs
  | untimeout func arg => exact h.untimeout hs
  | hardclock => exact h.hardclock hc hs
  | softclock => exact h.softclock hs

theorem inv_of_init (hs : s ∈ (system ncallout).init) : Inv ncallout s := by
  obtain ⟨⟨calltodo, callfree⟩, now, owner, log⟩ := s
  obtain ⟨hc, hlog⟩ := hs
  cases hc
  cases hlog
  exact ⟨nofun, .nil, nofun, nofun, .refl _, .refl _, nofun, .nil,
    fun _ h => absurd h not_mem_nil, nofun, trivial⟩

/-- In every run in which no entry gets overdue by the range of an `int`, every entry is run
    once, at the first run of `softclock` at which it is due, unless it is cancelled. -/
theorem timeout_sound (hs : ((system ncallout).restrict Counts).Reachable s) :
    Correct ncallout s := by
  have hinv : Inv ncallout s :=
    System.Reachable.invariant (S := (system ncallout).restrict Counts) (fun s h => inv_of_init h)
      (fun _ _ _ hi h => hi.step h.1 h.2) hs
  obtain ⟨-, hage⟩ := hinv
  have hslots : s.queue.map (fun x => x.2.1) = s.callouts.calltodo.map Callout.slot := by
    have h := congrArg (map fun x => x.1) (map_snd_queue s)
    rwa [List.map_map, List.map_map] at h
  refine ⟨hslots ▸ hage.slots, hage.nodup, s.pending_eq ▸ hage.entries, hage.sound, ?_⟩
  rw [s.pending_eq]
  intro e he τ hτ
  obtain ⟨x, hx, rfl⟩ := List.mem_map.1 he
  rw [(hage.owner x hx).1]
  exact hage.missed x hx τ hτ

/-- An entry that is due at `1`. -/
def due1 : Entry := ⟨0, 5, 7, 1⟩

/-- A table of one entry, just used for `due1`, after `k` ticks. -/
def ticked (k : ℕ) : State where
  callouts := ⟨[⟨0, wrap 32 (1 - k), 7, 5⟩], []⟩
  now := k
  owner := update (fun _ => due1) 0 due1
  log := [.inserted due1 1 0]

theorem exec_ticked (k : ℕ) : exec (ticked k) .hardclock = some (ticked (k + 1)) := by
  have hwrap : wrap 32 (wrap 32 (1 - k) - 1) = wrap 32 (1 - (k + 1 : ℕ)) := by
    rw [wrap_wrap_sub]
    congr 1
    omega
  simp only [exec, ticked, hardclock, updateTimes, hwrap, Nat.cast_succ]
  split_ifs <;> rfl

theorem exec_timeout_ticked :
    exec ⟨⟨[], [0]⟩, 0, fun _ => due1, []⟩ (.timeout 5 7 1) = some (ticked 0) := by
  rfl

/-- The entry is run at the first run of `softclock`. -/
theorem timeout_sound_once :
    Correct 1 ⟨⟨[], [0]⟩, 1, update (fun _ => due1) 0 due1,
      [.exit 1, .ran due1 5 7 1, .inserted due1 1 0]⟩ := by
  have h0 : ((system 1).restrict Counts).Reachable (ticked 0) :=
    .step (a := .timeout 5 7 1) (.init ⟨rfl, rfl⟩) ⟨trivial, exec_timeout_ticked⟩
  have hcou : Counts (ticked 0) .hardclock := by
    simp [Counts, ticked, State.pending, due1]
  have h1 := h0.step ⟨hcou, exec_ticked 0⟩
  have hran : exec (ticked 1) .softclock = some ⟨⟨[], [0]⟩, 1, (ticked 1).owner,
    [.ran due1 5 7 1, .inserted due1 1 0]⟩ := rfl
  have h2 := h1.step (a := Label.softclock) ⟨trivial, hran⟩
  exact timeout_sound (h2.step (a := Label.softclock) ⟨trivial, rfl⟩)

/-- After `2 ^ 31 + 2` ticks, `softclock` leaves the entry in the queue. -/
theorem softclock_late : ¬∀ s, (system 1).Reachable s → Correct 1 s := by
  intro h
  have htic : ∀ k, (system 1).Reachable (ticked k) := by
    intro k
    induction k with
    | zero => exact .step (.init ⟨rfl, rfl⟩) exec_timeout_ticked
    | succ k ih => exact ih.step (exec_ticked k)
  have hexec : exec (ticked 2147483650) .softclock =
    some { ticked 2147483650 with log := [.exit 2147483650, .inserted due1 1 0] } := rfl
  have hexit := (htic 2147483650).step hexec
  have hlt := (h _ hexit).missed due1 mem_cons_self 2147483650 mem_cons_self
  exact absurd hlt (by decide)

end Uwisc.Clock
