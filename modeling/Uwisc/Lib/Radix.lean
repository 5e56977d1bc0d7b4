import Mathlib.Algebra.BigOperators.Intervals
import Mathlib.Algebra.BigOperators.Ring.Finset
import Mathlib.Algebra.Order.BigOperators.Group.Finset
import Mathlib.Data.List.GetD
import Mathlib.Data.Nat.Digits.Defs

/-!
# Digits

Numbers as lists of digits, the low one foremost.

* `getLast?_ne_zero_iff`: a list has no leading zero if its number is large enough;
* `sum_columns`: the columns of a product;
* `Estimate`: a digit of a quotient, estimated from the two leading digits of the divisor, is
  right or one too much (`Estimate.le_div_add_one`).
-/

namespace Uwisc.Lib

open Finset List Nat

open Nat (ofDigits ofDigits_cons ofDigits_append ofDigits_lt_base_pow_length)

variable {b n : ℕ} {l : List ℕ}

/-- The digits from some place on. -/
theorem ofDigits_take_drop (b : ℕ) (l : List ℕ) (h : n ≤ l.length) :
    ofDigits b l = ofDigits b (l.take n) + b ^ n * ofDigits b (l.drop n) := by
  conv_lhs => rw [← take_append_drop n l, ofDigits_append, length_take_of_le h]

theorem ofDigits_concat (b : ℕ) (l : List ℕ) (d : ℕ) :
    ofDigits b (l ++ [d]) = ofDigits b l + b ^ l.length * d := by
  rw [ofDigits_append, ofDigits_singleton]

/-- There is no leading zero if the number is large enough for its length. -/
theorem getLast?_ne_zero_iff (hb : 1 < b) (hl : ∀ d ∈ l, d < b) :
    l.getLast? ≠ some 0 ↔ l = [] ∨ b ^ (l.length - 1) ≤ ofDigits b l := by
  rcases eq_nil_or_concat l with rfl | ⟨l, d, rfl⟩
  · simp
  · have hlow : ofDigits b l < b ^ l.length :=
      ofDigits_lt_base_pow_length hb fun d hd => hl d (by simp [hd])
    have hne : l.concat d ≠ [] := by simp
    rw [or_iff_right hne, concat_eq_append, getLast?_concat, length_append,
      length_singleton, Nat.add_sub_cancel, ofDigits_concat]
    constructor
    · intro h
      have hd : 1 ≤ d := Nat.one_le_iff_ne_zero.2 fun hd => h (by rw [hd])
      calc b ^ l.length = b ^ l.length * 1 := (mul_one _).symm
        _ ≤ b ^ l.length * d := Nat.mul_le_mul_left _ hd
        _ ≤ _ := Nat.le_add_left _ _
    · intro h hd
      rw [Option.some.inj hd, mul_zero, add_zero] at h
      omega

/-! ### Products -/

theorem ofDigits_eq_sum (b : ℕ) (l : List ℕ) (h : l.length ≤ n) :
    ofDigits b l = ∑ k ∈ Finset.range n, l.getD k 0 * b ^ k := by
  induction l generalizing n with
  | nil => simp
  | cons d l ih =>
    obtain ⟨n, rfl⟩ : ∃ m, n = m + 1 := ⟨n - 1, by simp at h; omega⟩
    rw [ofDigits_cons, Finset.sum_range_succ', ih (by simpa using h), mul_sum]
    simp only [getD_cons_succ, getD_cons_zero, pow_zero, mul_one]
    rw [add_comm]
    congr 1
    exact sum_congr rfl fun k _ => by ring

/-- The columns of a product. -/
theorem sum_columns (b : ℕ) (l l' : List ℕ) :
    ∑ i ∈ Finset.range (l.length + l'.length),
        (∑ j ∈ Finset.range (i + 1), l.getD j 0 * l'.getD (i - j) 0) * b ^ i =
      ofDigits b l * ofDigits b l' := by
  have hcol : ∀ j ∈ Finset.range (l.length + l'.length),
      ∑ i ∈ Finset.Ico j (l.length + l'.length), l.getD j 0 * l'.getD (i - j) 0 * b ^ i =
        l.getD j 0 * b ^ j * ofDigits b l' := by
    intro j _
    by_cases hj : j < l.length
    · rw [sum_Ico_eq_sum_range, ofDigits_eq_sum b l' (n := l.length + l'.length - j) (by omega),
        mul_sum]
      refine sum_congr rfl fun k _ => ?_
      rw [Nat.add_sub_cancel_left, pow_add]
      ring
    · rw [getD_eq_default _ _ (by omega)]
      simp
  calc ∑ i ∈ Finset.range (l.length + l'.length),
          (∑ j ∈ Finset.range (i + 1), l.getD j 0 * l'.getD (i - j) 0) * b ^ i
      = ∑ j ∈ Finset.range (l.length + l'.length),
          ∑ i ∈ Finset.Ico j (l.length + l'.length), l.getD j 0 * l'.getD (i - j) 0 * b ^ i := by
        simp only [sum_mul, range_eq_Ico]
        exact (sum_Ico_Ico_comm _ _ _).symm
    _ = ∑ j ∈ Finset.range (l.length + l'.length), l.getD j 0 * b ^ j * ofDigits b l' :=
        sum_congr rfl hcol
    _ = ofDigits b l * ofDigits b l' := by
        rw [← sum_mul, ← ofDigits_eq_sum b l (Nat.le_add_right _ _)]

/-! ### Quotients -/

/-- The largest `q` less than `b` such that `q` times the leading digits of the divisor are no
    more than those of the number. -/
structure Estimate (b v u q : ℕ) : Prop where
  lt : q < b
  le : q * v ≤ u
  max : ∀ d < b, d * v ≤ u → d ≤ q

variable {v u v' u' q t : ℕ}

/-- An estimate is not too small. -/
theorem Estimate.div_le (h : Estimate b v u q) (hu' : u' < t)
    (hlt : u * t + u' < (v * t + v') * b) : (u * t + u') / (v * t + v') ≤ q := by
  refine h.max _ (Nat.div_lt_of_lt_mul hlt) (le_of_lt_succ ?_)
  have hdiv := div_mul_le_self (u * t + u') (v * t + v')
  generalize (u * t + u') / (v * t + v') = d at hdiv ⊢
  refine Nat.lt_of_mul_lt_mul_right (a := t) ?_
  calc d * v * t = d * (v * t) := mul_assoc _ _ _
    _ ≤ d * (v * t + v') := Nat.mul_le_mul_left _ (Nat.le_add_right _ _)
    _ ≤ u * t + u' := hdiv
    _ < u * t + t := Nat.add_lt_add_left hu' _
    _ = (u + 1) * t := (succ_mul _ _).symm

/-- An estimate is at most one too much. -/
theorem Estimate.le_div_add_one (h : Estimate b v u q) (hv' : v' < t) (hv : b ≤ v) :
    q ≤ (u * t + u') / (v * t + v') + 1 := by
  obtain - | d := q
  · exact Nat.zero_le _
  have hd : d ≤ v := le_of_lt ((lt_of_succ_lt h.lt).trans_le hv)
  have hpos : 0 < v * t + v' := Nat.add_pos_left
    (Nat.mul_pos (lt_of_lt_of_le (zero_lt_of_lt h.lt) hv) (zero_lt_of_lt hv')) _
  refine Nat.add_le_add_right ((Nat.le_div_iff_mul_le hpos).2 ?_) 1
  calc d * (v * t + v') = d * v * t + d * v' := by ring
    _ ≤ d * v * t + v * t := Nat.add_le_add_left (Nat.mul_le_mul hd hv'.le) _
    _ = (d + 1) * v * t := by ring
    _ ≤ u * t := Nat.mul_le_mul_right _ h.le
    _ ≤ u * t + u' := Nat.le_add_right _ _

end Uwisc.Lib
