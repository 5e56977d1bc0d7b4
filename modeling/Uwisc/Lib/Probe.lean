import Mathlib.Data.Int.ModEq
import Mathlib.RingTheory.Coprime.Basic
import Mathlib.Tactic.LinearCombination

/-!
# Double hashing

A probe goes back by `d` at a time in a table of `n` slots, around its start (`back`). It stays in
the table, and comes to every slot if `d` has no divisor in common with `n` (`exists_back_eq`).
-/

namespace Uwisc.Lib

variable {n d i j : ℤ}

/-- The slot that is `d` before `i`, in a table of `n` slots. -/
def back (n d i : ℤ) : ℤ := if i - d < 0 then i - d + n else i - d

theorem back_eq_emod (hi : 0 ≤ i) (hi' : i < n) (hd : 0 ≤ d) (hd' : d ≤ n) : back n d i = (i - d) % n := by
  rw [back]
  split_ifs with h
  · rw [← Int.add_emod_right]
    exact (Int.emod_eq_of_lt (by omega) (by omega)).symm
  · exact (Int.emod_eq_of_lt (by omega) (by omega)).symm

theorem back_mem (hi : 0 ≤ i) (hi' : i < n) (hd : 0 ≤ d) (hd' : d ≤ n) :
    0 ≤ back n d i ∧ back n d i < n := by
  rw [back_eq_emod hi hi' hd hd']
  exact ⟨Int.emod_nonneg _ (by omega), Int.emod_lt_of_pos _ (by omega)⟩

/-- Where a probe is after `k` steps. -/
theorem iterate_back (hi : 0 ≤ i) (hi' : i < n) (hd : 0 ≤ d) (hd' : d ≤ n) (k : ℕ) :
    (back n d)^[k] i = (i - k * d) % n := by
  induction k with
  | zero =>
    rw [Function.iterate_zero, id, Nat.cast_zero, zero_mul, sub_zero]
    exact (Int.emod_eq_of_lt hi hi').symm
  | succ k ih =>
    rw [Function.iterate_succ_apply', ih, back_eq_emod (Int.emod_nonneg _ (by omega))
      (Int.emod_lt_of_pos _ (by omega)) hd hd', Int.emod_sub_emod]
    congr 1
    push_cast
    ring

/-- A probe comes to every slot. -/
theorem exists_back_eq (hi : 0 ≤ i) (hi' : i < n) (hd : 0 ≤ d) (hd' : d ≤ n) (h : IsCoprime d n)
    (hj : 0 ≤ j) (hj' : j < n) : ∃ k : ℕ, (back n d)^[k] i = j := by
  obtain ⟨u, v, huv⟩ := h
  obtain ⟨k, hk⟩ := Int.eq_ofNat_of_zero_le (Int.emod_nonneg ((i - j) * u) (by omega : n ≠ 0))
  refine ⟨k, ?_⟩
  rw [iterate_back hi hi' hd hd', ← Int.emod_eq_of_lt hj hj', Int.emod_eq_emod_iff_emod_sub_eq_zero]
  have hdiv := Int.emod_add_mul_ediv ((i - j) * u) n
  rw [hk] at hdiv
  refine Int.emod_eq_zero_of_dvd ⟨(i - j) * v + (i - j) * u / n * d, ?_⟩
  linear_combination (i - j) * -huv - d * hdiv

end Uwisc.Lib
