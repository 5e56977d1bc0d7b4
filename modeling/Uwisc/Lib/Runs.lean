import Mathlib.Algebra.Order.BigOperators.Group.Finset
import Mathlib.Order.Interval.Finset.Nat
import Mathlib.Tactic.Ring

/-!
# Maximal runs of bits

The bits `b` of a map that are set, among the first `n`, are counted one by one
(`setBits`), and by the lengths of the maximal runs they form (`runs`). Taking bits
from the start of a run shortens the run, and leaves every other one as it is
(`runs_take`).

* `setBits_take`, `runs_take`: what taking bits does to the counts;
* `sum_update`: a sum of which one term changes.
-/

namespace Uwisc.Lib

open Finset

variable {n p k x j m : ℕ} {b b' : ℕ → Bool}

/-- A maximal run of `k` set bits, from `p` on, among the first `n`. -/
def RunAt (n : ℕ) (b : ℕ → Bool) (p k : ℕ) : Prop :=
  0 < k ∧ p + k ≤ n ∧ (∀ i, p ≤ i → i < p + k → b i = true) ∧ (0 < p → b (p - 1) = false) ∧
    (p + k < n → b (p + k) = false)

instance : Decidable (RunAt n b p k) := inferInstanceAs (Decidable (_ ∧ _))

/-- The number of maximal runs of length `k`. -/
def runs (n : ℕ) (b : ℕ → Bool) (k : ℕ) : ℕ := ((range n).filter fun p => RunAt n b p k).card

/-- The number of set bits. -/
def setBits (n : ℕ) (b : ℕ → Bool) : ℕ := ((range n).filter fun i => b i).card

theorem runAt_congr (h : ∀ i < n, b i = b' i) : RunAt n b p k ↔ RunAt n b' p k := by
  constructor
  all_goals
    rintro ⟨hk, hn, hset, hlo, hhi⟩
    refine ⟨hk, hn, fun i hi hi' => ?_, fun hp => ?_, fun hp => ?_⟩
    · simpa only [h i (by omega)] using hset i hi hi'
    · simpa only [h (p - 1) (by omega)] using hlo hp
    · simpa only [h (p + k) hp] using hhi hp

theorem runs_congr (h : ∀ i < n, b i = b' i) : runs n b k = runs n b' k := by
  simp only [runs, runAt_congr h]

theorem setBits_congr (h : ∀ i < n, b i = b' i) : setBits n b = setBits n b' := by
  rw [setBits, setBits, filter_congr fun i hi => by rw [h i (mem_range.1 hi)]]

/-- All bits are set if as many are as there are. -/
theorem setBits_eq_iff : setBits n b = n ↔ ∀ i < n, b i = true := by
  have h := card_filter_eq_iff (s := range n) (p := fun i => b i = true)
  simpa [setBits] using h

theorem setBits_eq_zero (h : ∀ i < n, b i = false) : setBits n b = 0 := by
  rw [setBits, card_eq_zero, filter_eq_empty_iff]
  intro i hi
  simp [h i (mem_range.1 hi)]

/-- Among clear bits there are no runs. -/
theorem runs_eq_zero_of_clear (h : ∀ i < n, b i = false) : runs n b k = 0 := by
  rw [runs, card_eq_zero, filter_eq_empty_iff]
  rintro p - ⟨hk, hn, hset, -⟩
  simpa [h p (by omega)] using hset p le_rfl (by omega)

/-- If all bits are set there is one run, of all of them. -/
theorem runs_eq_zero_of_full (h : ∀ i < n, b i = true) (hk : k < n) : runs n b k = 0 := by
  rw [runs, card_eq_zero, filter_eq_empty_iff]
  rintro p - ⟨hpos, hn, -, hlo, hhi⟩
  rcases Nat.eq_zero_or_pos p with rfl | hp
  · have := hhi (by omega)
    rw [h _ (by omega)] at this
    exact absurd this (by decide)
  · have := hlo hp
    rw [h _ (by omega)] at this
    exact absurd this (by decide)

/-! ### Taking bits from the start of a run -/

/-- The bits without `j` of them from `x` on. -/
def TakenBits (b b' : ℕ → Bool) (x j : ℕ) : Prop :=
  ∀ i, b' i = (b i && !decide (x ≤ i ∧ i < x + j))

theorem TakenBits.of_mem (h : TakenBits b b' x j) {i : ℕ} (hlo : x ≤ i) (hhi : i < x + j) :
    b' i = false := by
  simp [h i, hlo, hhi]

theorem TakenBits.of_not_mem (h : TakenBits b b' x j) {i : ℕ} (hi : i < x ∨ x + j ≤ i) :
    b' i = b i := by
  have : ¬(x ≤ i ∧ i < x + j) := by omega
  simp [h i, this]

theorem setBits_take (h : TakenBits b b' x j) (hset : ∀ i, x ≤ i → i < x + j → b i = true)
    (hn : x + j ≤ n) : setBits n b' + j = setBits n b := by
  have hspl : (range n).filter (fun i => b i) =
      (range n).filter (fun i => b' i) ∪ Finset.Ico x (x + j) := by
    ext i
    by_cases hi : x ≤ i ∧ i < x + j
    · simp [hi.1, hi.2, hset i hi.1 hi.2]
      omega
    · have : b' i = b i := h.of_not_mem (by omega)
      simp [this, hi]
  have hdis : Disjoint ((range n).filter fun i => b' i) (Finset.Ico x (x + j)) :=
    disjoint_left.2 fun i hi hi' => by
      rw [mem_Ico] at hi'
      simp [h.of_mem hi'.1 hi'.2] at hi
  rw [setBits, setBits, hspl, card_union_of_disjoint hdis, Nat.card_Ico]
  omega

/-- The bits before a run and after it are those of other runs. -/
theorem RunAt.apart (hx : RunAt n b x m) (hp : RunAt n b p k) (hne : p ≠ x) : p + k < x ∨ x + m < p := by
  obtain ⟨hm, -, hxset, hxlo, -⟩ := hx
  obtain ⟨hk, -, hset, hlo, -⟩ := hp
  by_contra hnot
  rcases lt_or_gt_of_ne hne with hlt | hgt
  · have h1 := hxlo (by omega)
    have h2 := hset (x - 1) (by omega) (by omega)
    exact absurd (h1.symm.trans h2) (by decide)
  · have h1 := hlo (by omega)
    have h2 := hxset (p - 1) (by omega) (by omega)
    exact absurd (h1.symm.trans h2) (by decide)

/-- A run that starts where another one does is that one. -/
theorem RunAt.length_eq (hx : RunAt n b x m) (hp : RunAt n b x k) : k = m := by
  obtain ⟨-, hmn, hxset, -, hxhi⟩ := hx
  obtain ⟨-, hkn, hset, -, hhi⟩ := hp
  rcases lt_trichotomy k m with hlt | heq | hgt
  · exact absurd ((hhi (by omega)).symm.trans (hxset _ (by omega) (by omega))) (by decide)
  · exact heq
  · exact absurd ((hxhi (by omega)).symm.trans (hset _ (by omega) (by omega))) (by decide)

/-- A run apart from the bits taken is a run with them and without. -/
theorem TakenBits.runAt_iff (h : TakenBits b b' x j) (hp : p + k < x ∨ x + j < p) :
    RunAt n b' p k ↔ RunAt n b p k := by
  have heq : ∀ i, p - 1 ≤ i → i ≤ p + k → b' i = b i := fun i hi hi' => h.of_not_mem (by omega)
  constructor
  all_goals
    rintro ⟨hk, hn, hset, hlo, hhi⟩
    refine ⟨hk, hn, fun i hi hi' => ?_, fun hp => ?_, fun hp => ?_⟩
    · simpa only [heq i (by omega) (by omega)] using hset i hi hi'
    · simpa only [heq (p - 1) le_rfl (by omega)] using hlo hp
    · simpa only [heq (p + k) (by omega) le_rfl] using hhi hp

/-- What is left of a run is a run. -/
theorem RunAt.rest (hx : RunAt n b x m) (h : TakenBits b b' x j) (hj : 0 < j) (hjm : j < m) :
    RunAt n b' (x + j) (m - j) := by
  obtain ⟨-, hmn, hxset, -, hxhi⟩ := hx
  refine ⟨by omega, by omega, fun i hi hi' => ?_, fun _ => h.of_mem (by omega) (by omega), fun hn => ?_⟩
  · rw [h.of_not_mem (.inr hi)]
    exact hxset i (by omega) (by omega)
  · rw [h.of_not_mem (.inr (by omega)), show x + j + (m - j) = x + m by omega]
    exact hxhi (by omega)

/-- The runs there are without the first `j` bits of the run at `x`. -/
theorem runAt_take (h : TakenBits b b' x j) (hx : RunAt n b x m) (hj : 0 < j) (hjm : j ≤ m) :
    RunAt n b' p k ↔ (RunAt n b p k ∧ p ≠ x) ∨ (p = x + j ∧ j < m ∧ k = m - j) := by
  constructor
  · intro hp
    obtain ⟨hk, hn, hset, hlo, hhi⟩ := id hp
    have hout : ∀ i, p ≤ i → i < p + k → i < x ∨ x + j ≤ i := fun i hi hi' => by
      by_contra hin
      exact absurd ((h.of_mem (by omega) (by omega)).symm.trans (hset i hi hi')) (by decide)
    have hset' : ∀ i, p ≤ i → i < p + k → b i = true := fun i hi hi' =>
      (h.of_not_mem (hout i hi hi')).symm.trans (hset i hi hi')
    by_cases hpx : p < x
    · have hend : p + k < x := by
        have hlt : p + k ≤ x := by
          by_contra hgt
          have := hout x (by omega) (by omega)
          omega
        have hne : p + k ≠ x := fun heq => by
          have h1 := hx.2.2.2.1 (by omega)
          have h2 := hset' (x - 1) (by omega) (by omega)
          exact absurd (h1.symm.trans h2) (by decide)
        omega
      exact .inl ⟨(h.runAt_iff (.inl hend)).1 hp, by omega⟩
    · have hge := (hout p le_rfl (by omega)).resolve_left hpx
      by_cases hpj : p = x + j
      · have hlt : j < m := by
          by_contra hge
          have h1 := hx.2.2.2.2 (by omega)
          have h2 := hset' (x + m) (by omega) (by omega)
          exact absurd (h1.symm.trans h2) (by decide)
        subst hpj
        exact .inr ⟨rfl, hlt, (hx.rest h hj hlt).length_eq hp⟩
      · by_cases hpm : x + j < p
        · exact .inl ⟨(h.runAt_iff (.inr hpm)).1 hp, by omega⟩
        · omega
  · rintro (⟨hp, hne⟩ | ⟨rfl, hlt, rfl⟩)
    · exact (h.runAt_iff ((hx.apart hp hne).imp_right fun h => by omega)).2 hp
    · exact hx.rest h hj hlt

/-- Taking the first `j` bits of a run leaves a run of the rest of it, if there is one. -/
theorem runs_take (h : TakenBits b b' x j) (hx : RunAt n b x m) (hj : 0 < j) (hjm : j ≤ m) (k : ℕ) :
    runs n b' k + (if k = m then 1 else 0) = runs n b k + (if j < m ∧ k = m - j then 1 else 0) := by
  have hxn : x < n := by
    have := hx.1
    have := hx.2.1
    omega
  have hwit : (range n).filter (fun p => RunAt n b' p k) =
      ((range n).filter fun p => RunAt n b p k).erase x ∪
        (if j < m ∧ k = m - j then {x + j} else ∅) := by
    ext p
    have hmn := hx.2.1
    simp only [mem_filter, mem_range, runAt_take h hx hj hjm, mem_union, mem_erase]
    split_ifs with hrs
    · simp only [mem_singleton]
      constructor
      · rintro ⟨hp, ⟨hr, hne⟩ | ⟨rfl, -⟩⟩
        · exact .inl ⟨hne, hp, hr⟩
        · exact .inr rfl
      · rintro (⟨hne, hp, hr⟩ | rfl)
        · exact ⟨hp, .inl ⟨hr, hne⟩⟩
        · exact ⟨by omega, .inr ⟨rfl, hrs⟩⟩
    · simp only [hrs, and_false, or_false, notMem_empty]
      exact ⟨fun h => ⟨h.2.2, h.1, h.2.1⟩, fun h => ⟨h.2.1, h.2.2, h.1⟩⟩
  have hold : x + j ∉ (range n).filter fun p => RunAt n b p k := fun hmem => by
    have hlo := (mem_filter.1 hmem).2.2.2.2.1 (by omega)
    exact absurd (hlo.symm.trans (hx.2.2.1 _ (by omega) (by omega))) (by decide)
  have herase : (((range n).filter fun p => RunAt n b p k).erase x).card +
      (if k = m then 1 else 0) = runs n b k := by
    split_ifs with hk
    · subst hk
      exact card_erase_add_one (mem_filter.2 ⟨mem_range.2 hxn, hx⟩)
    · have hnot : x ∉ (range n).filter fun p => RunAt n b p k := fun hmem =>
        hk (hx.length_eq (mem_filter.1 hmem).2)
      rw [erase_eq_of_notMem hnot]
      rfl
  rw [runs, hwit, card_union_of_disjoint, ← herase]
  · split_ifs <;> simp
  · split_ifs
    · exact disjoint_singleton_right.2 fun hmem => hold (mem_of_mem_erase hmem)
    · exact disjoint_empty_right _

/-- The bits from `x` on are one run. -/
theorem runs_suffix (h : ∀ i < n, b i = decide (x ≤ i)) (hx : 0 < x) (hxn : x < n) (hk : k < n) :
    runs n b k = if k = n - x then 1 else 0 := by
  have hfull : RunAt n (fun _ => true) 0 n := ⟨by omega, by omega, fun _ _ _ => rfl, by simp, by simp⟩
  have htake : TakenBits (fun _ => true) (fun i => decide (x ≤ i)) 0 x := fun i => by
    rcases lt_or_ge i x with hi | hi <;> simp [hi]
  have hruns := runs_take htake hfull hx hxn.le k
  rw [runs_eq_zero_of_full (fun _ _ => rfl) hk, ← runs_congr h, if_neg hk.ne] at hruns
  simpa [hxn] using hruns

/-! ### Sums -/

/-- A sum of which only the term of `x` changes. -/
theorem sum_update {f g : ℕ → ℤ} (hx : x < n) (h : ∀ i, i ≠ x → g i = f i) :
    ∑ i ∈ range n, g i = ∑ i ∈ range n, f i + (g x - f x) := by
  have hmem : x ∈ range n := mem_range.2 hx
  rw [← add_sum_erase _ g hmem, ← add_sum_erase _ f hmem,
    sum_congr rfl fun i hi => h i (ne_of_mem_erase hi)]
  ring

end Uwisc.Lib
