import Mathlib.Algebra.Order.Ring.Int

/-!
# Matching with wildcards

A pattern of items that take one token each and wildcards that take as many as they like. A way of
matching is given by where each item ends (`Cuts`). Extending only the last wildcard, whenever the
items after it do not match, loses nothing: every item then ends as early as in any way of matching
that is looked for (`Ahead`), and where the next item takes nothing the last wildcard must be
longer (`Stuck`).
-/

namespace Uwisc.Lib

open Function Nat

/-- An item of a pattern: one token that it admits, or at least `least` tokens. -/
inductive Wild (α : Type*)
  | single (admits : α → Prop)
  | wild (least : ℕ)

variable {α : Type*} {P : List (Wild α)} {xs : List α} {e e' : ℕ → ℕ} {i j k : ℕ}
  {T : (ℕ → ℕ) → Prop}

namespace Wild

/-- The item takes the tokens from `a` to `b`. -/
def Takes (xs : List α) (a b : ℕ) : Wild α → Prop
  | single admits => b = a + 1 ∧ ∃ x, xs[a]? = some x ∧ admits x
  | wild least => a + least ≤ b ∧ b ≤ xs.length

theorem Takes.le {p : Wild α} {a b : ℕ} (h : p.Takes xs a b) : a ≤ b ∧ b ≤ xs.length := by
  cases p with
  | single =>
    obtain ⟨rfl, x, hx, _⟩ := h
    exact ⟨le_succ a, (List.getElem?_eq_some_iff.1 hx).1⟩
  | wild least => exact ⟨le_of_add_right_le h.1, h.2⟩

end Wild

/-- The first `i` items take the tokens before `e i`, the item `j` those from `e j` to
    `e (j + 1)`. -/
structure Cuts (P : List (Wild α)) (xs : List α) (i : ℕ) (e : ℕ → ℕ) : Prop where
  zero : e 0 = 0
  takes : ∀ j < i, ∀ p, P[j]? = some p → p.Takes xs (e j) (e (j + 1))

/-- The pattern takes all of the tokens. -/
def Splits (P : List (Wild α)) (xs : List α) (e : ℕ → ℕ) : Prop :=
  Cuts P xs P.length e ∧ e P.length = xs.length

/-- The first way of matching in which every item is as short as can be, those before it being as
    they are. -/
def Leftmost (P : List (Wild α)) (xs : List α) (e : ℕ → ℕ) : Prop :=
  Splits P xs e ∧ ∀ e', Splits P xs e' → ∀ j ≤ P.length, (∀ i < j, e i = e' i) → e j ≤ e' j

/-- Each of the first `i` items ends no later than in any way in `T`. -/
def Ahead (T : (ℕ → ℕ) → Prop) (i : ℕ) (e : ℕ → ℕ) : Prop :=
  ∀ e', T e' → ∀ j ≤ i, e j ≤ e' j

/-- The first `i` items end elsewhere in every way in `T`. -/
def Stuck (T : (ℕ → ℕ) → Prop) (i : ℕ) (e : ℕ → ℕ) : Prop :=
  ∀ e', T e' → e i ≠ e' i

namespace Cuts

theorem mono (h : Cuts P xs k e) (hik : i ≤ k) : Cuts P xs i e :=
  ⟨h.zero, fun j hj => h.takes j (hj.trans_le hik)⟩

theorem le_length (h : Cuts P xs i e) (hi : i ≤ P.length) : e i ≤ xs.length := by
  cases i with
  | zero => rw [h.zero]; exact Nat.zero_le _
  | succ i => exact (h.takes i (lt_succ_self i) _ (List.getElem?_eq_getElem hi)).le.2

/-- One more item is matched. -/
theorem succ (h : Cuts P xs i e) {p : Wild α} {b : ℕ} (hp : P[i]? = some p) (hb : p.Takes xs (e i) b) :
    Cuts P xs (i + 1) (update e (i + 1) b) := by
  have hoth : ∀ j ≤ i, update e (i + 1) b j = e j := fun j hj =>
    update_of_ne (Nat.ne_of_lt (lt_succ_of_le hj)) _ _
  refine ⟨by rw [hoth 0 (Nat.zero_le i), h.zero], fun j hj q hq => ?_⟩
  rcases Nat.lt_succ_iff_lt_or_eq.1 hj with hj | rfl
  · rw [hoth j hj.le, hoth (j + 1) hj]
    exact h.takes j hj q hq
  · obtain rfl := Option.some_inj.1 (hp.symm.trans hq)
    rwa [hoth j le_rfl, update_self]

/-- The last item, a wildcard, is one longer. -/
theorem extend (h : Cuts P xs (i + 1) e) {least : ℕ} (hp : P[i]? = some (.wild least))
    (hlt : e (i + 1) < xs.length) : Cuts P xs (i + 1) (update e (i + 1) (e (i + 1) + 1)) :=
  (h.mono (le_succ i)).succ hp
    ⟨(h.takes i (lt_succ_self i) _ hp).1.trans (le_succ _), hlt⟩

end Cuts

namespace Ahead

theorem snoc (h : Ahead T i e) {b : ℕ} (hb : ∀ e', T e' → b ≤ e' (i + 1)) :
    Ahead T (i + 1) (update e (i + 1) b) := by
  intro e' he' j hj
  rcases Nat.le_succ_iff.1 hj with hj | rfl
  · rw [update_of_ne (Nat.ne_of_lt (lt_succ_of_le hj))]
    exact h e' he' j hj
  · rw [update_self]
    exact hb e' he'

/-- An item that ends as early as it can ends first. -/
theorem succ (h : Ahead T i e) (hT : ∀ e', T e' → Cuts P xs k e') (hik : i < k) {p : Wild α}
    (hp : P[i]? = some p) {n : ℕ} (hn : ∀ a b, p.Takes xs a b → a + n ≤ b) :
    Ahead T (i + 1) (update e (i + 1) (e i + n)) :=
  h.snoc fun e' he' => (Nat.add_le_add_right (h e' he' i le_rfl) n).trans
    (hn _ _ ((hT e' he').takes i hik p hp))

/-- A wildcard after which nothing matches must be longer. -/
theorem extend (h : Ahead T (i + 1) e) (hstuck : Stuck T (i + 1) e) :
    Ahead T (i + 1) (update e (i + 1) (e (i + 1) + 1)) := by
  have hbef : Ahead T i e := fun e' he' j hj => h e' he' j (hj.trans (le_succ i))
  exact hbef.snoc fun e' he' => Nat.lt_of_le_of_ne (h e' he' (i + 1) le_rfl) (hstuck e' he')

/-- What is ahead of all ways of matching is the leftmost. -/
theorem leftmost (h : Ahead (Splits P xs) P.length e) (he : Splits P xs e) : Leftmost P xs e :=
  ⟨he, fun e' he' j hj _ => h e' he' j hj⟩

end Ahead

/-- There is one leftmost way. -/
theorem Leftmost.unique (h : Leftmost P xs e) (h' : Leftmost P xs e') (hj : j ≤ P.length) : e j = e' j := by
  induction j using Nat.strong_induction_on with
  | _ j ih =>
    have hbef : ∀ i < j, e i = e' i := fun i hi => ih i hi (hi.le.trans hj)
    exact le_antisymm (h.2 e' h'.1 j hj hbef) (h'.2 e h.1 j hj fun i hi => (hbef i hi).symm)

namespace Stuck

/-- Before an item of one token it is stuck if it is after it. -/
theorem pred (h : Stuck T (i + 1) e) (he : Cuts P xs (i + 1) e) (hT : ∀ e', T e' → Cuts P xs k e')
    (hik : i < k) {admits : α → Prop} (hp : P[i]? = some (.single admits)) : Stuck T i e := by
  intro e' he' heq
  refine h e' he' ?_
  rw [(he.takes i (lt_succ_self i) _ hp).1, ((hT e' he').takes i hik _ hp).1, heq]

/-- An item that does not take the token after those taken. -/
theorem of_not_admits (hT : ∀ e', T e' → Cuts P xs k e') (hik : i < k) {admits : α → Prop}
    (hp : P[i]? = some (.single admits)) (hx : ∀ x, xs[e i]? = some x → ¬admits x) : Stuck T i e := by
  intro e' he' heq
  obtain ⟨_, x, hx', hadm⟩ := (hT e' he').takes i hik _ hp
  exact hx x (heq ▸ hx') hadm

/-- Before the first item nothing is stuck. -/
theorem empty (h : Stuck T 0 e) (he : e 0 = 0) (hT : ∀ e', T e' → Cuts P xs k e') : ∀ e', ¬T e' :=
  fun e' he' => h e' he' (he.trans (hT e' he').zero.symm)

end Stuck

end Uwisc.Lib
