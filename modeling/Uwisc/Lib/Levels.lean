import Mathlib.Data.List.Basic
import Mathlib.Tactic.Ring

/-!
# Trees of levels

A tree of `k` levels leads from the numbers below `n ^ k` to leaves: a node of the level `k + 1` has
trees of `k` levels for the `n` values of the digit of weight `n ^ k`, some of which may be missing.

* `Tree.lookup`: the leaf of a number; `Tree.modify` changes it, with the nodes on the way added if they
  are missing (`lookup_modify`);
* `Tree.names`: all leaves and nodes, each with the first number that it is for, the nodes after what
  they lead to.
-/

namespace Uwisc.Lib

open Function List Nat

/-- Trees of `k` levels, with data `ι` at the nodes and `β` at the leaves. -/
@[reducible] def Tree (ι β : Type) : ℕ → Type
  | 0 => β
  | k + 1 => ι × (ℕ → Option (Tree ι β k))

namespace Tree

variable {ι β : Type} (n : ℕ)

/-- The digit of weight `n ^ k`. -/
def digit (k i : ℕ) : ℕ := i / n ^ k % n

/-- The leaf of a number. -/
def lookup : (k : ℕ) → Option (Tree ι β k) → ℕ → Option β
  | 0, t, _ => t
  | k + 1, t, i => t.bind fun t => lookup k (t.2 (digit n k i)) i

/-- Changes the leaf of a number, by way of nodes with the data `e` where there are none. -/
def modify (e : ι) (f : Option β → β) : (k : ℕ) → Option (Tree ι β k) → ℕ → Tree ι β k
  | 0, t, _ => f t
  | k + 1, t, i =>
    let node := t.getD (e, fun _ => none)
    (node.1, update node.2 (digit n k i) (some (modify e f k (node.2 (digit n k i)) i)))

/-- What a tree names: a node, or a leaf. -/
def name : (k : ℕ) → Tree ι β k → ι ⊕ β
  | 0, t => .inr t
  | _ + 1, t => .inl t.1

/-- What the trees below a node name, if the node is for the numbers from `first` on. -/
def below (names : Tree ι β k → ℕ → List (ℕ × (ι ⊕ β))) (t : Tree ι β (k + 1)) (first : ℕ) :
    List (ℕ × (ι ⊕ β)) :=
  (range n).flatMap fun i => (t.2 i).elim [] fun t => names t (first + i * n ^ k)

/-- All that a tree names, with the first number it is for. -/
def names : (k : ℕ) → Tree ι β k → ℕ → List (ℕ × (ι ⊕ β))
  | 0, t, first => [(first, .inr t)]
  | k + 1, t, first => below n (names k) t first ++ [(first, .inl t.1)]

variable {n} {k i j first : ℕ} {e : ι} {f : Option β → β}

theorem lookup_none : lookup n k (none : Option (Tree ι β k)) i = none := by
  cases k <;> rfl

/-- Two numbers have the same digits below `n ^ k`. -/
theorem mod_pow_eq_iff (hn : 0 < n) : i % n ^ (k + 1) = j % n ^ (k + 1) ↔
    digit n k i = digit n k j ∧ i % n ^ k = j % n ^ k := by
  have hi := mod_pow_succ (x := i) (b := n) (k := k)
  have hj := mod_pow_succ (x := j) (b := n) (k := k)
  have hpow : 0 < n ^ k := Nat.pow_pos hn
  have hli := mod_lt i hpow
  have hlj := mod_lt j hpow
  rw [digit, digit]
  constructor
  · intro h
    rw [hi, hj] at h
    have hdiv := congrArg (· / n ^ k) h
    rw [add_mul_div_left _ _ hpow, add_mul_div_left _ _ hpow, div_eq_of_lt hli,
      div_eq_of_lt hlj, zero_add, zero_add] at hdiv
    rw [hdiv] at h
    exact ⟨hdiv, Nat.add_right_cancel h⟩
  · rintro ⟨hdgt, hmod⟩
    rw [hi, hj, hdgt, hmod]

/-- A leaf after one was changed. -/
theorem lookup_modify (hn : 0 < n) (t : Option (Tree ι β k)) (i j : ℕ) :
    lookup n k (some (modify n e f k t i)) j =
      if i % n ^ k = j % n ^ k then some (f (lookup n k t i)) else lookup n k t j := by
  induction k with
  | zero =>
    rw [pow_zero, mod_one, mod_one, if_pos rfl]
    rfl
  | succ k ih =>
    have hnode : ∀ i, lookup n (k + 1) t i =
        lookup n k ((t.getD (e, fun _ => none)).2 (digit n k i)) i := by
      intro i
      cases t with
      | none => exact lookup_none.symm
      | some t => rfl
    rw [hnode, hnode, lookup, Option.bind_some, modify]
    dsimp only
    by_cases hdgt : digit n k i = digit n k j
    · rw [← hdgt, update_self, ih]
      simp only [mod_pow_eq_iff hn, hdgt, true_and]
    · rw [update_of_ne (Ne.symm hdgt)]
      simp only [mod_pow_eq_iff hn, hdgt, false_and, if_false]

/-- Numbers with the same digits have the same leaf. -/
theorem lookup_congr (hn : 0 < n) (t : Option (Tree ι β k)) (h : i % n ^ k = j % n ^ k) :
    lookup n k t i = lookup n k t j := by
  induction k with
  | zero => rfl
  | succ k ih =>
    obtain ⟨hdgt, hmod⟩ := (mod_pow_eq_iff hn).1 h
    rw [lookup, lookup, hdgt]
    cases t with
    | none => rfl
    | some t => exact ih _ hmod

theorem digit_of_lt (h : i < n ^ (k + 1)) : digit n k i = i / n ^ k := by
  rw [digit, mod_eq_of_lt]
  exact Nat.div_lt_of_lt_mul (by rwa [← pow_succ])

/-- What a tree names is for its numbers. -/
theorem names_bounds (hn : 0 < n) {t : Tree ι β k} {q : ℕ × (ι ⊕ β)} (h : q ∈ names n k t first) :
    first ≤ q.1 ∧ q.1 < first + n ^ k := by
  induction k generalizing first with
  | zero =>
    rw [names, mem_singleton] at h
    rw [h]
    simp
  | succ k ih =>
    have hpow : 0 < n ^ k := Nat.pow_pos hn
    rw [names, mem_append, below, mem_flatMap, mem_singleton] at h
    rw [Nat.pow_succ']
    rcases h with ⟨i, hi, hq⟩ | rfl
    · cases hs : t.2 i with
      | none =>
        rw [hs] at hq
        exact absurd hq not_mem_nil
      | some s =>
        rw [hs] at hq
        obtain ⟨hle, hlt⟩ := ih hq
        have hmul : (i + 1) * n ^ k ≤ n * n ^ k := Nat.mul_le_mul_right _ (mem_range.1 hi)
        rw [add_mul] at hmul
        omega
    · exact ⟨le_rfl, Nat.lt_add_of_pos_right (Nat.mul_pos hn hpow)⟩

end Tree

end Uwisc.Lib
