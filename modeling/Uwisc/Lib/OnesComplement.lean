import Mathlib.Algebra.BigOperators.Group.List.Basic
import Mathlib.Algebra.Order.Ring.Int
import Mathlib.Data.Nat.ModEq

/-!
# Sums in ones' complement

Words up to `M` (all ones) are added with the carry out of the top going in again at the bottom (`addWord`). The
sum of many words may be put together in other ways, in wider words and with the carries in other places, as
long as it is the same up to multiples of `M` and becomes zero only where it is (`Same`); what is no
larger than `M` is then the sum itself (`Same.eq`).
-/

namespace Uwisc.Lib.OnesComplement

variable {M a b c x y : ℕ}

/-- Adds two words; the carry goes in again. -/
def addWord (M x y : ℕ) : ℕ := if x + y ≤ M then x + y else x + y - M

/-- The sum of some words. -/
def sum (M : ℕ) (l : List ℕ) : ℕ := l.foldl (addWord M) 0

/-- They are the same up to multiples of `M`, and zero together. -/
structure Same (M a b : ℕ) : Prop where
  modEq : a ≡ b [MOD M]
  zero_iff : a = 0 ↔ b = 0

namespace Same

theorem refl (M a : ℕ) : Same M a a := ⟨rfl, .rfl⟩

theorem symm (h : Same M a b) : Same M b a := ⟨h.modEq.symm, h.zero_iff.symm⟩

theorem trans (h : Same M a b) (h' : Same M b c) : Same M a c :=
  ⟨h.modEq.trans h'.modEq, h.zero_iff.trans h'.zero_iff⟩

theorem add (h : Same M a b) (h' : Same M x y) : Same M (a + x) (b + y) := by
  refine ⟨h.modEq.add h'.modEq, ?_⟩
  rw [Nat.add_eq_zero_iff, Nat.add_eq_zero_iff, h.zero_iff, h'.zero_iff]

theorem add_right (h : Same M a b) (x : ℕ) : Same M (a + x) (b + x) := h.add (refl M x)

/-- A carry out of a word of `M * k + 1` values goes in at the bottom. -/
theorem carry (M k a b : ℕ) : Same M (a + (M * k + 1) * b) (a + b) := by
  refine ⟨?_, by simp⟩
  have heq : a + (M * k + 1) * b = a + b + M * (k * b) := by
    rw [add_mul, one_mul, mul_assoc]
    omega
  rw [Nat.ModEq, heq, Nat.add_mul_mod_self_left]

/-- Where both are words. -/
theorem eq (h : Same M a b) (ha : a ≤ M) (hb : b ≤ M) : a = b := by
  by_cases h0 : a = 0
  · rw [h0, h.zero_iff.1 h0]
  · have h0' := mt h.zero_iff.2 h0
    rcases ha.lt_or_eq with ha | rfl
    · rcases hb.lt_or_eq with hb | rfl
      · exact h.modEq.eq_of_lt_of_lt ha hb
      · exact absurd (Nat.ModEq.eq_of_lt_of_lt (h.modEq.trans (by simp [Nat.ModEq])) ha (by omega)) h0
    · rcases hb.lt_or_eq with hb | rfl
      · refine absurd (Nat.ModEq.eq_of_lt_of_lt ((h.modEq.symm).trans (by simp [Nat.ModEq])) hb (by omega)) h0'
      · rfl

end Same

theorem addWord_same (M x y : ℕ) : Same M (addWord M x y) (x + y) := by
  rw [addWord]
  split_ifs with hle
  · exact .refl _ _
  · refine ⟨?_, by omega⟩
    have heq : x + y = x + y - M + M := by omega
    rw [Nat.ModEq]
    conv_rhs => rw [heq]
    simp

theorem addWord_le (hx : x ≤ M) (hy : y ≤ M) : addWord M x y ≤ M := by
  rw [addWord]
  split_ifs <;> omega

theorem foldl_same (h : Same M a b) (l : List ℕ) : Same M (l.foldl (addWord M) a) (b + l.sum) := by
  induction l generalizing a b with
  | nil => exact h
  | cons x l ih =>
    rw [List.foldl_cons, List.sum_cons, ← add_assoc]
    exact ih ((addWord_same M a x).trans (h.add_right x))

theorem foldl_le (ha : a ≤ M) {l : List ℕ} (hl : ∀ x ∈ l, x ≤ M) : l.foldl (addWord M) a ≤ M := by
  induction l generalizing a with
  | nil => exact ha
  | cons x l ih =>
    obtain ⟨hx, hl⟩ := List.forall_mem_cons.1 hl
    exact ih (addWord_le ha hx) hl

/-- What is the same as the numbers added is the sum of the words. -/
theorem sum_eq {l : List ℕ} (hl : ∀ x ∈ l, x ≤ M) (ha : a ≤ M) (h : Same M a l.sum) : sum M l = a := by
  have hsame := foldl_same (.refl M 0) l
  rw [zero_add] at hsame
  exact (hsame.trans h.symm).eq (foldl_le (Nat.zero_le _) hl) ha

end Uwisc.Lib.OnesComplement
