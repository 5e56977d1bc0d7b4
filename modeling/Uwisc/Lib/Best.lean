import Mathlib.Algebra.Order.Ring.Int
import Mathlib.Data.List.Basic

/-!
# The best element of a list

A search that keeps the element with the lowest score found so far, passes over
those without a score, and stops at a score of `0` (`pick`). It finds an element
of lowest score (`pick_spec`).
-/

namespace Uwisc.Lib

open List Option

variable {α : Type*} {score : α → Option ℕ}

/-- Goes through a list for an element with a score below `n`, the score of `best`. -/
def pick (score : α → Option ℕ) : Option α → ℕ → List α → Option α
  | best, _, [] => best
  | best, n, a :: l =>
    match score a with
    | some w => if w < n then if w = 0 then some a else pick score (some a) w l else pick score best n l
    | none => pick score best n l

/-- What the search gives has the lowest score, or none has a score below `n`. -/
theorem pick_spec (best : Option α) (n : ℕ) (l : List α) :
    pick score best n l = best ∧ (∀ a ∈ l, ∀ w, score a = some w → n ≤ w) ∨
      ∃ a ∈ l, ∃ w, pick score best n l = some a ∧ score a = some w ∧ w < n ∧
        ∀ b ∈ l, ∀ w', score b = some w' → w ≤ w' := by
  induction l generalizing best n with
  | nil => exact .inl ⟨rfl, fun _ h => absurd h not_mem_nil⟩
  | cons a l ih =>
    -- An element that is passed over does not matter.
    have hpass : (∀ w, score a = some w → n ≤ w) → pick score best n (a :: l) = pick score best n l →
        pick score best n (a :: l) = best ∧ (∀ b ∈ a :: l, ∀ w, score b = some w → n ≤ w) ∨
          ∃ b ∈ a :: l, ∃ w, pick score best n (a :: l) = some b ∧ score b = some w ∧ w < n ∧
            ∀ c ∈ a :: l, ∀ w', score c = some w' → w ≤ w' := by
      intro hle heq
      rw [heq]
      rcases ih best n with ⟨h, hall⟩ | ⟨b, hb, w, h, hw, hlt, hmin⟩
      · exact .inl ⟨h, forall_mem_cons.2 ⟨hle, hall⟩⟩
      · exact .inr ⟨b, mem_cons_of_mem a hb, w, h, hw, hlt,
          forall_mem_cons.2 ⟨fun w' hw' => hlt.le.trans (hle w' hw'), hmin⟩⟩
    cases hscore : score a with
    | none => exact hpass (by simp [hscore]) (by rw [pick, hscore])
    | some v =>
      by_cases hlt : v < n
      · refine .inr ?_
        rcases Nat.eq_zero_or_pos v with rfl | hpos
        · exact ⟨a, mem_cons_self, 0, by simp [pick, hscore, hlt], hscore, hlt, fun _ _ _ _ => Nat.zero_le _⟩
        · have heq : pick score best n (a :: l) = pick score (some a) v l := by
            simp [pick, hscore, hlt, hpos.ne']
          rw [heq]
          rcases ih (some a) v with ⟨h, hall⟩ | ⟨b, hb, w, h, hw, hwv, hmin⟩
          · refine ⟨a, mem_cons_self, v, h, hscore, hlt, forall_mem_cons.2 ⟨fun w' hw' => ?_, hall⟩⟩
            exact (some_inj.1 (hscore.symm.trans hw')).le
          · refine ⟨b, mem_cons_of_mem a hb, w, h, hw, hwv.trans hlt,
              forall_mem_cons.2 ⟨fun w' hw' => ?_, hmin⟩⟩
            exact hwv.le.trans (some_inj.1 (hscore.symm.trans hw')).le
      · refine hpass (fun w hw => ?_) (by simp [pick, hscore, hlt])
        exact (not_lt.1 hlt).trans (some_inj.1 (hscore.symm.trans hw)).le

/-- The search for any score below `n`: it finds an element of lowest score. -/
theorem pick_some {n : ℕ} {l : List α} {a : α} (h : pick score none n l = some a) :
    a ∈ l ∧ ∃ w, score a = some w ∧ ∀ b ∈ l, ∀ w', score b = some w' → w ≤ w' := by
  rcases pick_spec none n l with ⟨hnone, -⟩ | ⟨b, hb, w, hsome, hw, -, hmin⟩
  · exact absurd (h.symm.trans hnone) (some_ne_none a)
  · obtain rfl := some_inj.1 (h.symm.trans hsome)
    exact ⟨hb, w, hw, hmin⟩

theorem pick_none {n : ℕ} {l : List α} (h : pick score none n l = none) {a : α} (ha : a ∈ l) {w : ℕ}
    (hw : score a = some w) : n ≤ w := by
  rcases pick_spec none n l with ⟨-, hall⟩ | ⟨b, -, -, hsome, -⟩
  · exact hall a ha w hw
  · exact absurd (hsome.symm.trans h) (some_ne_none b)

/-- The only element of score `0` is found in whatever order they come. -/
theorem pick_of_unique {n : ℕ} (hn : 0 < n) {l : List α} {a : α} (ha : a ∈ l) (hzero : score a = some 0)
    (huniq : ∀ b ∈ l, score b = some 0 → b = a) : pick score none n l = some a := by
  cases h : pick score none n l with
  | none => exact absurd (pick_none h ha hzero) hn.not_ge
  | some b =>
    obtain ⟨hb, w, hw, hmin⟩ := pick_some h
    obtain rfl : w = 0 := Nat.le_zero.1 (hmin a ha 0 hzero)
    rw [huniq b hb hw]

end Uwisc.Lib
