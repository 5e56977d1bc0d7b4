import Mathlib.Data.List.Basic
import Mathlib.Algebra.Order.Group.Int

/-!
# Delta queues

A queue of events in which the time of an event is kept as the difference from the event
before it, so that a clock has to count down the first of them only. Events that are due
count on below zero.

The times of a queue relative to a clock at `t` are those of `absolute t`. The operations
are those of a list sorted by these times:

* `absolute_insert`: an event is inserted before the first one that is not earlier;
* `absolute_remove`: removing an event keeps the times of the others;
* `absolute_tick`: so does a tick of the clock.
-/

namespace Uwisc.Lib.Delta

open List

variable {α : Type*} {t r : ℤ} {l : List (ℤ × α)}

/-- The times of the events, by a clock at `t`. -/
def absolute (t : ℤ) : List (ℤ × α) → List (ℤ × α)
  | [] => []
  | (c, x) :: l => (t + c, x) :: absolute (t + max c 0) l

/-- The clock moves on. -/
def tick : List (ℤ × α) → List (ℤ × α)
  | [] => []
  | (c, x) :: l =>
    if 0 < c - 1 then (c - 1, x) :: l
    else if c - 1 = 0 then (c - 1, x) :: l
    else (c - 1, x) :: tick l

/-- Inserts an event that is due `r` later. -/
def insert (r : ℤ) (x : α) : List (ℤ × α) → List (ℤ × α)
  | [] => [(r, x)]
  | (c, y) :: l =>
    if c < r then (c, y) :: insert (if 0 < c then r - c else r) x l
    else (r, x) :: (c - r, y) :: l

/-- Gives what an event was behind to the one after it. -/
def relink (c : ℤ) : List (ℤ × α) → List (ℤ × α)
  | [] => []
  | (d, y) :: l => if 0 < c then (d + c, y) :: l else (d, y) :: l

/-- Removes the first event of a kind. -/
def remove (p : α → Prop) [DecidablePred p] : List (ℤ × α) → Option (α × List (ℤ × α))
  | [] => none
  | (c, x) :: l => if p x then some (x, relink c l) else (remove p l).map fun q => (q.1, (c, x) :: q.2)

/-- Inserts an event in a list sorted by time. -/
def insertAt (d : ℤ) (x : α) : List (ℤ × α) → List (ℤ × α)
  | [] => [(d, x)]
  | e :: l => if e.1 < d then e :: insertAt d x l else (d, x) :: e :: l

/-- No event is later than one after it. -/
def Sorted (l : List (ℤ × α)) : Prop := l.Pairwise fun e f => e.1 ≤ f.1

theorem map_snd_absolute (t : ℤ) (l : List (ℤ × α)) : (absolute t l).map Prod.snd = l.map Prod.snd := by
  induction l generalizing t with
  | nil => rfl
  | cons e l ih => rw [absolute, map_cons, map_cons, ih]

theorem absolute_tick (t : ℤ) (l : List (ℤ × α)) : absolute (t + 1) (tick l) = absolute t l := by
  induction l generalizing t with
  | nil => rfl
  | cons e l ih =>
    obtain ⟨c, x⟩ := e
    have hdue : t + 1 + (c - 1) = t + c := by omega
    rw [tick]
    split_ifs with h1 h2
    · rw [absolute, absolute, hdue, max_eq_left h1.le, max_eq_left (by omega), hdue]
    · rw [absolute, absolute, hdue, max_eq_left h2.ge, max_eq_left (by omega), hdue]
    · -- the event is due already, so the next one counts from the clock as well
      rw [absolute, absolute, hdue, max_eq_right (by omega), max_eq_right (by omega), add_zero, add_zero, ih]

theorem absolute_insert (hr : 0 < r) (x : α) (t : ℤ) (l : List (ℤ × α)) :
    absolute t (insert r x l) = insertAt (t + r) x (absolute t l) := by
  induction l generalizing t r with
  | nil => rfl
  | cons e l ih =>
    obtain ⟨c, y⟩ := e
    rw [insert]
    by_cases hc : c < r
    · have hlt : t + c < t + r := by omega
      rw [if_pos hc, absolute, absolute, insertAt, if_pos hlt, ih (by split_ifs <;> omega)]
      have hsum : t + max c 0 + (if 0 < c then r - c else r) = t + r := by
        split_ifs with hpos
        · rw [max_eq_left hpos.le]
          omega
        · rw [max_eq_right (not_lt.1 hpos), add_zero]
      rw [hsum]
    · have hge : ¬t + c < t + r := by omega
      have hdue : t + r + (c - r) = t + c := by omega
      rw [if_neg hc, absolute, absolute, absolute, insertAt, if_neg hge, max_eq_left hr.le, hdue,
        max_eq_left (by omega), max_eq_left (by omega), hdue]

theorem absolute_relink {c : ℤ} {x : α} (h : Sorted (absolute t ((c, x) :: l))) :
    absolute t (relink c l) = absolute (t + max c 0) l := by
  cases l with
  | nil => rfl
  | cons e l =>
    obtain ⟨d, y⟩ := e
    have hle := (pairwise_cons.1 h).1 (t + max c 0 + d, y) mem_cons_self
    rw [relink]
    split_ifs with hpos
    · rw [max_eq_left hpos.le] at hle ⊢
      have hd : 0 ≤ d := by
        dsimp only at hle
        omega
      have hdue : t + (d + c) = t + c + d := by omega
      rw [absolute, absolute, max_eq_left (by omega), max_eq_left hd, hdue]
    · rw [max_eq_right (not_lt.1 hpos), add_zero]

/-- Removing an event keeps the times of the others. -/
theorem absolute_remove (p : α → Prop) [DecidablePred p] (h : Sorted (absolute t l)) :
    match remove p l with
    | none => ∀ e ∈ l, ¬p e.2
    | some (x, l') => p x ∧ ∃ u d v, absolute t l = u ++ (d, x) :: v ∧ absolute t l' = u ++ v := by
  induction l generalizing t with
  | nil => simp [remove]
  | cons e l ih =>
    obtain ⟨c, x⟩ := e
    rw [remove]
    by_cases hx : p x
    · rw [if_pos hx]
      exact ⟨hx, [], t + c, absolute (t + max c 0) l, rfl, absolute_relink h⟩
    · rw [if_neg hx]
      have hih := ih (pairwise_cons.1 h).2
      cases hq : remove p l with
      | none =>
        rw [hq] at hih
        exact forall_mem_cons.2 ⟨hx, hih⟩
      | some q =>
        rw [hq] at hih
        obtain ⟨hp, u, d, v, hu, hv⟩ := hih
        refine ⟨hp, (t + c, x) :: u, d, v, ?_, ?_⟩
        · rw [absolute, hu, cons_append]
        · rw [absolute, hv, cons_append]

theorem insertAt_perm (d : ℤ) (x : α) (l : List (ℤ × α)) : (insertAt d x l).Perm ((d, x) :: l) := by
  induction l with
  | nil => exact .refl _
  | cons e l ih =>
    rw [insertAt]
    split_ifs
    · exact (ih.cons e).trans (.swap _ _ _)
    · exact .refl _

theorem Sorted.insertAt (h : Sorted l) (d : ℤ) (x : α) : Sorted (insertAt d x l) := by
  induction l with
  | nil => exact pairwise_singleton _ _
  | cons e l ih =>
    obtain ⟨he, hl⟩ := pairwise_cons.1 h
    rw [Delta.insertAt]
    split_ifs with hlt
    · refine pairwise_cons.2 ⟨fun f hf => ?_, ih hl⟩
      rcases mem_cons.1 ((insertAt_perm d x l).subset hf) with rfl | hf
      · exact hlt.le
      · exact he f hf
    · refine pairwise_cons.2 ⟨fun f hf => ?_, h⟩
      rcases mem_cons.1 hf with rfl | hf
      · exact not_lt.1 hlt
      · exact (not_lt.1 hlt).trans (he f hf)

end Uwisc.Lib.Delta
