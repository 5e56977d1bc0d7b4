import Mathlib.Algebra.Group.End

/-!
# Shellsort

Arrays are functions of the index, from 1 on. A pass of Shellsort lets each element go down by steps of
a gap until the one before it is to stay there (`shellPass`); the gap is halved until the passes end with
one of gap 1.

* `shellSort_perm`: the elements are exchanged, whatever the gaps are;
* `shellSort_sorted`: the last pass sorts, as it is an insertion sort.
-/

namespace Uwisc.Lib

open Function List

variable {α : Type}

/-- Exchanges two elements. -/
def swapAt (a : ℕ → α) (i j : ℕ) : ℕ → α := update (update a i (a j)) j (a i)

variable (stop : α → α → Bool) (n : ℕ)

/-- An element goes down from `ai + m` by steps of `m`. -/
def sift (m : ℕ) : ℕ → (ℕ → α) → ℕ → ℕ → α
  | 0, a, _ => a
  | fuel + 1, a, ai =>
    if ai = 0 then a
    else if stop (a ai) (a (ai + m)) then a
    else sift m fuel (swapAt a ai (ai + m)) (ai - m)

/-- A pass with the gap `m`. -/
def shellPass (m : ℕ) (a : ℕ → α) : ℕ → α :=
  (range' 1 (n - m)).foldl (fun a j => sift stop m j a j) a

/-- The passes from the gap `m` on. -/
def shellPasses : ℕ → ℕ → (ℕ → α) → ℕ → α
  | 0, _, a => a
  | fuel + 1, m, a => if m = 0 then a else shellPasses fuel (m / 2) (shellPass stop n m a)

/-- The first gap, doubled. -/
def shellGap : ℕ → ℕ → ℕ → ℕ
  | 0, _, m => m
  | fuel + 1, j, m => if j ≤ n then shellGap fuel (2 * j) (2 * j - 1) else m

/-- Sorts the elements from 1 to `n`. -/
def shellSort (a : ℕ → α) : ℕ → α :=
  if n = 0 then a
  else
    let m := shellGap n n 1 0 / 2
    shellPasses stop n m m a

variable {stop n}

/-! ### Exchanges -/

theorem swapAt_eq (a : ℕ → α) (i j : ℕ) : swapAt a i j = a ∘ Equiv.swap i j := by
  funext k
  rw [swapAt, comp_apply]
  rcases eq_or_ne k j with rfl | hj
  · rw [update_self, Equiv.swap_apply_right]
  · rw [update_of_ne hj]
    rcases eq_or_ne k i with rfl | hi
    · rw [update_self, Equiv.swap_apply_left]
    · rw [update_of_ne hi, Equiv.swap_apply_of_ne_of_ne hi hj]

/-- The elements from 1 to `n` in another order. -/
def Permuted (n : ℕ) (a b : ℕ → α) : Prop :=
  ∃ σ : Equiv.Perm ℕ, (∀ i, i = 0 ∨ n < i → σ i = i) ∧ b = a ∘ σ

theorem Permuted.refl (a : ℕ → α) : Permuted n a a := ⟨1, fun _ _ => rfl, rfl⟩

theorem Permuted.trans {a b c : ℕ → α} (h : Permuted n a b) (h' : Permuted n b c) : Permuted n a c := by
  obtain ⟨σ, hσ, rfl⟩ := h
  obtain ⟨τ, hτ, rfl⟩ := h'
  refine ⟨σ * τ, fun i hi => ?_, rfl⟩
  rw [Equiv.Perm.mul_apply, hτ i hi, hσ i hi]

theorem Permuted.swap (a : ℕ → α) {i j : ℕ} (hi : 0 < i) (hi' : i ≤ n) (hj : 0 < j) (hj' : j ≤ n) :
    Permuted n a (swapAt a i j) := by
  refine ⟨Equiv.swap i j, fun k hk => Equiv.swap_apply_of_ne_of_ne ?_ ?_, swapAt_eq a i j⟩
  · omega
  · omega

theorem sift_perm {m : ℕ} (fuel : ℕ) (a : ℕ → α) {ai : ℕ} (h : ai + m ≤ n) :
    Permuted n a (sift stop m fuel a ai) := by
  induction fuel generalizing a ai with
  | zero => exact .refl a
  | succ fuel ih =>
    rw [sift]
    split_ifs with hzero hstop
    · exact .refl a
    · exact .refl a
    · exact (Permuted.swap a (by omega) (by omega) (by omega) h).trans (ih _ (by omega))

theorem shellPass_perm (m : ℕ) (a : ℕ → α) : Permuted n a (shellPass stop n m a) := by
  have hfold : ∀ (l : List ℕ) (a : ℕ → α), (∀ j ∈ l, j + m ≤ n) →
      Permuted n a (l.foldl (fun a j => sift stop m j a j) a) := by
    intro l
    induction l with
    | nil => exact fun a _ => .refl a
    | cons j l ih =>
      intro a hl
      rw [foldl_cons]
      exact (sift_perm j a (hl j mem_cons_self)).trans
        (ih _ fun i hi => hl i (mem_cons_of_mem _ hi))
  refine hfold _ a fun j hj => ?_
  have := mem_range'_1.1 hj
  omega

theorem shellPasses_perm (fuel m : ℕ) (a : ℕ → α) : Permuted n a (shellPasses stop n fuel m a) := by
  induction fuel generalizing m a with
  | zero => exact .refl a
  | succ fuel ih =>
    rw [shellPasses]
    split_ifs
    · exact .refl a
    · exact (shellPass_perm m a).trans (ih _ _)

theorem shellSort_perm (a : ℕ → α) : Permuted n a (shellSort stop n a) := by
  rw [shellSort]
  split_ifs
  · exact .refl a
  · exact shellPasses_perm _ _ a

/-! ### The last pass -/

/-- The elements from 1 to `n` are in order. -/
def SortedTo (le : α → α → Prop) (n : ℕ) (a : ℕ → α) : Prop :=
  ∀ i j, 0 < i → i < j → j ≤ n → le (a i) (a j)

section Sorted

variable {le : α → α → Prop} (htrans : ∀ x y z, le x y → le y z → le x z)
  (hstop : ∀ x y, stop x y = true → le x y) (hgo : ∀ x y, stop x y = false → le y x)

include htrans hstop hgo

/-- An element is inserted before those that are sorted. -/
theorem sift_sorted (fuel : ℕ) (a : ℕ → α) {ai : ℕ} (hfuel : ai ≤ fuel) (hn : ai < n)
    (hoth : ∀ i j, 0 < i → i < j → j ≤ n → i ≠ ai + 1 → j ≠ ai + 1 → le (a i) (a j))
    (haft : ∀ j, ai + 1 < j → j ≤ n → le (a (ai + 1)) (a j)) :
    SortedTo le n (sift stop 1 fuel a ai) := by
  induction fuel generalizing a ai with
  | zero =>
    obtain rfl := Nat.le_zero.1 hfuel
    intro i j hi hij hj
    rcases eq_or_ne i 1 with rfl | hne
    · exact haft j hij hj
    · exact hoth i j hi hij hj hne (by omega)
  | succ fuel ih =>
    rw [sift]
    split_ifs with hzero hs
    · subst hzero
      intro i j hi hij hj
      rcases eq_or_ne i 1 with rfl | hne
      · exact haft j hij hj
      · exact hoth i j hi hij hj hne (by omega)
    · have hle := hstop _ _ hs
      intro i j hi hij hj
      rcases eq_or_ne i (ai + 1) with rfl | hne
      · exact haft j hij hj
      · rcases eq_or_ne j (ai + 1) with rfl | hne'
        · rcases (Nat.lt_succ_iff.1 hij).lt_or_eq with hlt | rfl
          · exact htrans _ _ _ (hoth i ai hi hlt (by omega) hne (by omega)) hle
          · exact hle
        · exact hoth i j hi hij hj hne hne'
    · have hle := hgo _ _ (Bool.eq_false_iff.2 hs)
      have hpos : 0 < ai := Nat.pos_of_ne_zero hzero
      have hsub : ai - 1 + 1 = ai := Nat.sub_add_cancel hpos
      have hat : swapAt a ai (ai + 1) ai = a (ai + 1) := by rw [swapAt_eq]; simp
      have hnx : swapAt a ai (ai + 1) (ai + 1) = a ai := by rw [swapAt_eq]; simp
      have hother : ∀ i, i ≠ ai → i ≠ ai + 1 → swapAt a ai (ai + 1) i = a i := by
        intro i hi hi'
        rw [swapAt_eq, comp_apply, Equiv.swap_apply_of_ne_of_ne hi hi']
      refine ih _ (by omega) (by omega) (fun i j hi hij hj hne hne' => ?_) fun j hij hj => ?_
      · rw [hsub] at hne hne'
        rcases eq_or_ne i (ai + 1) with rfl | hi'
        · rw [hnx, hother j hne' (by omega)]
          exact hoth ai j hpos (by omega) hj (by omega) (by omega)
        · rw [hother i hne hi']
          rcases eq_or_ne j (ai + 1) with rfl | hj'
          · rw [hnx]
            exact hoth i ai hi (by omega) (by omega) hi' (by omega)
          · rw [hother j hne' hj']
            exact hoth i j hi hij hj hi' hj'
      · rw [hsub] at hij ⊢
        rw [hat]
        rcases eq_or_ne j (ai + 1) with rfl | hj'
        · rwa [hnx]
        · rw [hother j (by omega) hj']
          exact haft j (by omega) hj

theorem shellPass_sorted (a : ℕ → α) : SortedTo le n (shellPass stop n 1 a) := by
  have hfold : ∀ k, k + 1 ≤ n → SortedTo le (k + 1) ((range' 1 k).foldl (fun a j => sift stop 1 j a j) a) := by
    intro k
    induction k with
    | zero =>
      intro _ i j hi hij hj
      omega
    | succ k ih =>
      intro hk
      rw [range'_concat, foldl_append, foldl_cons, foldl_nil, Nat.one_mul, Nat.add_comm 1 k]
      have hsor := ih (by omega)
      refine sift_sorted htrans hstop hgo (k + 1) _ le_rfl (by omega) (fun i j hi hij hj hne hne' => ?_)
        fun j hij hj => ?_
      · exact hsor i j hi hij (by omega)
      · omega
  cases n with
  | zero =>
    intro i j hi hij hj
    omega
  | succ k => exact hfold k le_rfl

theorem shellPasses_sorted {fuel m : ℕ} (hm : 0 < m) (hfuel : m ≤ fuel) (a : ℕ → α) :
    SortedTo le n (shellPasses stop n fuel m a) := by
  induction fuel generalizing m a with
  | zero => omega
  | succ fuel ih =>
    rw [shellPasses, if_neg (by omega)]
    rcases lt_or_ge 1 m with hlt | hge
    · exact ih (by omega) (by omega) _
    · obtain rfl : m = 1 := by omega
      have hdone : ∀ a : ℕ → α, shellPasses stop n fuel 0 a = a := by
        intro a
        cases fuel with
        | zero => rfl
        | succ fuel => exact if_pos rfl
      rw [hdone]
      exact shellPass_sorted htrans hstop hgo a

end Sorted

theorem le_shellGap {fuel j m : ℕ} (h : m ≤ 2 * j - 1) (hj : 0 < j) : m ≤ shellGap n fuel j m := by
  induction fuel generalizing j m with
  | zero => exact le_rfl
  | succ fuel ih =>
    rw [shellGap]
    split_ifs
    · exact h.trans (ih (by omega) (by omega))
    · exact le_rfl

/-- The elements from 1 to `n` are sorted. -/
theorem shellSort_sorted {le : α → α → Prop} (htrans : ∀ x y z, le x y → le y z → le x z)
    (hstop : ∀ x y, stop x y = true → le x y) (hgo : ∀ x y, stop x y = false → le y x) (a : ℕ → α) :
    SortedTo le n (shellSort stop n a) := by
  rcases lt_or_ge 1 n with hn | hn
  · have hgap : 3 ≤ shellGap n n 1 0 := by
      obtain ⟨k, rfl⟩ : ∃ k, n = k + 2 := ⟨n - 2, by omega⟩
      rw [shellGap, if_pos (by omega), shellGap, if_pos (by omega)]
      exact le_shellGap (by omega) (by omega)
    rw [shellSort, if_neg (by omega)]
    exact shellPasses_sorted htrans hstop hgo (by omega) le_rfl a
  · intro i j hi hij hj
    omega

end Uwisc.Lib
