import Mathlib.Data.List.Basic
import Mathlib.Order.Lattice

/-!
# Cartesian trees

A Cartesian tree is a binary tree whose nodes are ordered by their keys from left to
right (`inorder`), and whose sizes decrease with their depth (`Heap`). Each operation
is described by what it does to the nodes in order, to the heap order, and to the
size of the root:

* `merge`, `demote`: put a tree in place of a node that is deleted, or that
  has become smaller;
* `insert`: puts a node where its size belongs, splitting the subtree there by its key.
-/

namespace Uwisc.Lib

open List

/-- A binary tree of nodes with a key and a size. -/
inductive Cartesian (κ : Type*)
  | nil
  | node (left : Cartesian κ) (key : κ) (size : ℕ) (right : Cartesian κ)
  deriving DecidableEq, Repr

namespace Cartesian

variable {κ : Type*}

/-- The size of the root, and `0` of the empty tree. -/
def weight : Cartesian κ → ℕ
  | nil => 0
  | node _ _ s _ => s

/-- The number of nodes. -/
def count : Cartesian κ → ℕ
  | nil => 0
  | node l _ _ r => l.count + r.count + 1

/-- The nodes from left to right. -/
def inorder : Cartesian κ → List (κ × ℕ)
  | nil => []
  | node l k s r => l.inorder ++ (k, s) :: r.inorder

/-- No node is larger than the one above it. -/
def Heap : Cartesian κ → Prop
  | nil => True
  | node l _ s r => l.weight ≤ s ∧ r.weight ≤ s ∧ l.Heap ∧ r.Heap

@[simp] theorem weight_nil : (nil : Cartesian κ).weight = 0 := rfl

@[simp] theorem weight_node (l : Cartesian κ) (k : κ) (s : ℕ) (r : Cartesian κ) :
    (node l k s r).weight = s := rfl

@[simp] theorem inorder_nil : (nil : Cartesian κ).inorder = [] := rfl

@[simp] theorem inorder_node (l : Cartesian κ) (k : κ) (s : ℕ) (r : Cartesian κ) :
    (node l k s r).inorder = l.inorder ++ (k, s) :: r.inorder := rfl

@[simp] theorem heap_nil : (nil : Cartesian κ).Heap := trivial

variable {s : ℕ}

@[simp] theorem heap_node {l : Cartesian κ} {k : κ} {r : Cartesian κ} :
    (node l k s r).Heap ↔ l.weight ≤ s ∧ r.weight ≤ s ∧ l.Heap ∧ r.Heap := Iff.rfl

/-- The root of a heap is its largest node. -/
theorem Heap.size_le {t : Cartesian κ} (h : t.Heap) : ∀ e ∈ t.inorder, e.2 ≤ t.weight := by
  induction t with
  | nil => simp
  | node l k s r ihl ihr =>
    obtain ⟨hl, hr, hhl, hhr⟩ := h
    intro e he
    rcases mem_append.1 he with he | he
    · exact (ihl hhl e he).trans hl
    · rcases mem_cons.1 he with rfl | he
      · exact le_rfl
      · exact (ihr hhr e he).trans hr

/-! ### Merging two trees -/

/-- The two trees, merged along their inside edges, longer nodes above the shorter ones. -/
def merge : Cartesian κ → Cartesian κ → Cartesian κ
  | nil, r => r
  | l, nil => l
  | node ll lk ls lr, node rl rk rs rr =>
    if rs ≤ ls then node ll lk ls (merge lr (node rl rk rs rr))
    else node (merge (node ll lk ls lr) rl) rk rs rr
termination_by l r => l.count + r.count
decreasing_by
  all_goals simp only [count]; omega

@[simp] theorem inorder_merge (l r : Cartesian κ) :
    (merge l r).inorder = l.inorder ++ r.inorder := by
  induction l, r using merge.induct with
  | case1 r => simp [merge]
  | case2 l h => cases l <;> simp [merge]
  | case3 ll lk ls lr rl rk rs rr h ih => simp [merge, h, ih]
  | case4 ll lk ls lr rl rk rs rr h ih => simp [merge, h, ih]

theorem weight_merge (l r : Cartesian κ) : (merge l r).weight = max l.weight r.weight := by
  cases l with
  | nil => simp [merge]
  | node ll lk ls lr =>
    cases r with
    | nil => simp [merge]
    | node rl rk rs rr =>
      rw [merge]
      split_ifs with h
      · simp [h]
      · simp [(not_le.1 h).le]

theorem heap_merge {l r : Cartesian κ} (hl : l.Heap) (hr : r.Heap) : (merge l r).Heap := by
  induction l, r using merge.induct with
  | case1 r => simpa [merge]
  | case2 l h =>
    cases l with
    | nil => simp [merge]
    | node => simpa [merge] using hl
  | case3 ll lk ls lr rl rk rs rr h ih =>
    obtain ⟨hll, hlr, hhl, hhr⟩ := heap_node.1 hl
    rw [merge, if_pos h]
    exact heap_node.2 ⟨hll, by rw [weight_merge]; exact max_le hlr h, hhl, ih hhr hr⟩
  | case4 ll lk ls lr rl rk rs rr h ih =>
    obtain ⟨hrl, hrr, hhl, hhr⟩ := heap_node.1 hr
    rw [merge, if_neg h]
    exact heap_node.2 ⟨by rw [weight_merge]; exact max_le (not_le.1 h).le hrl, hrr, ih hl hhl, hhr⟩

theorem count_merge (l r : Cartesian κ) : (merge l r).count = l.count + r.count := by
  induction l, r using merge.induct with
  | case1 r => simp [merge, count]
  | case2 l h => cases l <;> simp [merge, count]
  | case3 ll lk ls lr rl rk rs rr h ih =>
    rw [merge, if_pos h, count, ih, count, count]
    omega
  | case4 ll lk ls lr rl rk rs rr h ih =>
    rw [merge, if_neg h, count, ih, count, count]
    omega

/-! ### Demoting a node -/

/-- The node `k` of the size `s` between two trees, below the longer nodes of their
    inside edges. -/
def demote (k : κ) (s : ℕ) (l r : Cartesian κ) : Cartesian κ :=
  if s < l.weight ∨ s < r.weight then
    match l, r with
    | node ll lk ls lr, r =>
      if r.weight ≤ ls then node ll lk ls (demote k s lr r)
      else
        match r with
        | node rl rk rs rr => node (demote k s (node ll lk ls lr) rl) rk rs rr
        | nil => node (node ll lk ls lr) k s nil
    | nil, node rl rk rs rr => node (demote k s nil rl) rk rs rr
    | nil, nil => node nil k s nil
  else node l k s r
termination_by l.count + r.count
decreasing_by
  all_goals simp only [count]; omega

/-- The node is attached above both branches, or the longer one is promoted. -/
theorem demote_cases (k : κ) (s : ℕ) (l r : Cartesian κ) :
    (l.weight ≤ s ∧ r.weight ≤ s ∧ demote k s l r = node l k s r) ∨
      (∃ ll lk ls lr, l = node ll lk ls lr ∧ s < ls ∧ r.weight ≤ ls ∧
        demote k s l r = node ll lk ls (demote k s lr r)) ∨
      ∃ rl rk rs rr, r = node rl rk rs rr ∧ s < rs ∧ l.weight ≤ rs ∧
        demote k s l r = node (demote k s l rl) rk rs rr := by
  rw [demote.eq_def]
  by_cases h : s < l.weight ∨ s < r.weight
  · rw [if_pos h]
    refine .inr ?_
    cases l with
    | nil =>
      cases r with
      | nil => simp at h
      | node rl rk rs rr =>
        exact .inr ⟨rl, rk, rs, rr, rfl, by simpa using h, Nat.zero_le _, rfl⟩
    | node ll lk ls lr =>
      simp only [weight_node] at h
      by_cases h' : r.weight ≤ ls
      · exact .inl ⟨ll, lk, ls, lr, rfl, by omega, h', if_pos h'⟩
      · cases r with
        | nil => simp at h'
        | node rl rk rs rr =>
          simp only [weight_node] at h h'
          exact .inr ⟨rl, rk, rs, rr, rfl, by omega, (not_le.1 h').le, if_neg h'⟩
  · rw [if_neg h]
    exact .inl ⟨by omega, by omega, rfl⟩

@[simp] theorem inorder_demote (k : κ) (s : ℕ) (l r : Cartesian κ) :
    (demote k s l r).inorder = l.inorder ++ (k, s) :: r.inorder := by
  induction hn : l.count + r.count using Nat.strong_induction_on generalizing l r with
  | h n ih =>
  subst hn
  rcases demote_cases k s l r with ⟨-, -, h⟩ | ⟨ll, lk, ls, lr, rfl, -, -, h⟩ |
    ⟨rl, rk, rs, rr, rfl, -, -, h⟩
  · rw [h, inorder_node]
  · rw [h, inorder_node, ih _ (by simp only [count]; omega) lr r rfl, inorder_node,
      append_assoc, cons_append]
  · rw [h, inorder_node, ih _ (by simp only [count]; omega) l rl rfl, inorder_node,
      append_assoc, cons_append]

theorem weight_demote (k : κ) (s : ℕ) (l r : Cartesian κ) :
    (demote k s l r).weight = max s (max l.weight r.weight) := by
  rcases demote_cases k s l r with ⟨hl, hr, h⟩ | ⟨ll, lk, ls, lr, rfl, hl, hr, h⟩ |
    ⟨rl, rk, rs, rr, rfl, hr, hl, h⟩
  all_goals
    rw [h]
    simp only [weight_node] at *
    omega

theorem heap_demote (k : κ) (s : ℕ) {l r : Cartesian κ} (hl : l.Heap) (hr : r.Heap) :
    (demote k s l r).Heap := by
  induction hn : l.count + r.count using Nat.strong_induction_on generalizing l r with
  | h n ih =>
  subst hn
  rcases demote_cases k s l r with ⟨hls, hrs, h⟩ | ⟨ll, lk, ls, lr, rfl, hls, hrs, h⟩ |
    ⟨rl, rk, rs, rr, rfl, hrs, hls, h⟩
  · rw [h]
    exact ⟨hls, hrs, hl, hr⟩
  · obtain ⟨hll, hlr, hhl, hhr⟩ := hl
    rw [h]
    refine ⟨hll, ?_, hhl, ih _ (by simp only [count]; omega) hhr hr rfl⟩
    rw [weight_demote]
    omega
  · obtain ⟨hrl, hrr, hhl, hhr⟩ := hr
    rw [h]
    refine ⟨?_, hrr, ih _ (by simp only [count]; omega) hl hhl rfl, hhr⟩
    rw [weight_demote]
    omega

/-! ### Inserting a node -/

variable [LinearOrder κ]

/-- The trees of the nodes below the key `k`, and of the others: all links that cross the
    key are rewritten. -/
def split (k : κ) : Cartesian κ → Cartesian κ × Cartesian κ
  | nil => (nil, nil)
  | node l x s r =>
    if x < k then
      let p := split k r
      (node l x s p.1, p.2)
    else
      let p := split k l
      (p.1, node p.2 x s r)

/-- Inserts a node of the size `n` where the first shorter node is on the way to its
    key, or at the end of the way. -/
def insert (k : κ) (n : ℕ) : Cartesian κ → Cartesian κ
  | nil => node nil k n nil
  | node l x s r =>
    if n ≤ s then
      if k < x then node (insert k n l) x s r else node l x s (insert k n r)
    else
      let p := split k (node l x s r)
      node p.1 k n p.2

/-- The keys grow from left to right. -/
def Ordered (t : Cartesian κ) : Prop := t.inorder.Pairwise fun a b => a.1 < b.1

theorem Ordered.left {l : Cartesian κ} {x : κ} {r : Cartesian κ}
    (h : (node l x s r).Ordered) : l.Ordered := (pairwise_append.1 h).1

theorem Ordered.right {l : Cartesian κ} {x : κ} {r : Cartesian κ}
    (h : (node l x s r).Ordered) : r.Ordered :=
  (pairwise_cons.1 (pairwise_append.1 h).2.1).2

theorem Ordered.lt_root {l : Cartesian κ} {x : κ} {r : Cartesian κ}
    (h : (node l x s r).Ordered) : ∀ e ∈ l.inorder, e.1 < x := fun e he =>
  (pairwise_append.1 h).2.2 e he (x, s) mem_cons_self

theorem Ordered.root_lt {l : Cartesian κ} {x : κ} {r : Cartesian κ}
    (h : (node l x s r).Ordered) : ∀ e ∈ r.inorder, x < e.1 :=
  (pairwise_cons.1 (pairwise_append.1 h).2.1).1

/-- Splitting keeps the nodes, and separates them by the key. -/
theorem split_spec (k : κ) {t : Cartesian κ} (h : t.Ordered) :
    t.inorder = (split k t).1.inorder ++ (split k t).2.inorder ∧
      (∀ e ∈ (split k t).1.inorder, e.1 < k) ∧ ∀ e ∈ (split k t).2.inorder, k ≤ e.1 := by
  induction t with
  | nil => simp [split]
  | node l x s r ihl ihr =>
    rw [split]
    by_cases hx : x < k
    · obtain ⟨heq, hlt, hge⟩ := ihr h.right
      rw [if_pos hx]
      refine ⟨?_, forall_mem_append.2 ⟨fun e he => (h.lt_root e he).trans hx,
        forall_mem_cons.2 ⟨hx, hlt⟩⟩, hge⟩
      rw [inorder_node, heq, inorder_node, append_assoc, cons_append]
    · obtain ⟨heq, hlt, hge⟩ := ihl h.left
      rw [if_neg hx]
      refine ⟨?_, hlt, forall_mem_append.2 ⟨hge, forall_mem_cons.2 ⟨not_lt.1 hx,
        fun e he => (not_lt.1 hx).trans (h.root_lt e he).le⟩⟩⟩
      rw [inorder_node, heq, inorder_node, append_assoc]

theorem weight_split_le (k : κ) {t : Cartesian κ} (h : t.Heap) :
    (split k t).1.weight ≤ t.weight ∧ (split k t).2.weight ≤ t.weight := by
  induction t with
  | nil => simp [split]
  | node l x s r ihl ihr =>
    obtain ⟨hl, hr, hhl, hhr⟩ := h
    rw [split]
    split_ifs
    · exact ⟨le_rfl, (ihr hhr).2.trans hr⟩
    · exact ⟨(ihl hhl).1.trans hl, le_rfl⟩

theorem heap_split (k : κ) {t : Cartesian κ} (h : t.Heap) :
    (split k t).1.Heap ∧ (split k t).2.Heap := by
  induction t with
  | nil => simp [split]
  | node l x s r ihl ihr =>
    obtain ⟨hl, hr, hhl, hhr⟩ := h
    rw [split]
    split_ifs
    · exact ⟨⟨hl, (weight_split_le k hhr).1.trans hr, hhl, (ihr hhr).1⟩, (ihr hhr).2⟩
    · exact ⟨(ihl hhl).1, (weight_split_le k hhl).2.trans hl, hr, (ihl hhl).2, hhr⟩

/-- Inserting puts the node between those below its key and the others. -/
theorem inorder_insert (k : κ) (n : ℕ) {t : Cartesian κ} (h : t.Ordered) :
    ∃ u v, t.inorder = u ++ v ∧ (insert k n t).inorder = u ++ (k, n) :: v ∧
      (∀ e ∈ u, e.1 ≤ k) ∧ ∀ e ∈ v, k ≤ e.1 := by
  induction t with
  | nil => exact ⟨[], [], rfl, rfl, by simp, by simp⟩
  | node l x s r ihl ihr =>
    rw [insert]
    by_cases hn : n ≤ s
    · rw [if_pos hn]
      by_cases hk : k < x
      · obtain ⟨u, v, hl, hins, hu, hv⟩ := ihl h.left
        rw [if_pos hk]
        refine ⟨u, v ++ (x, s) :: r.inorder, ?_, ?_, hu, forall_mem_append.2 ⟨hv,
          forall_mem_cons.2 ⟨hk.le, fun e he => hk.le.trans (h.root_lt e he).le⟩⟩⟩
        · rw [inorder_node, hl, append_assoc]
        · rw [inorder_node, hins, append_assoc, cons_append]
      · obtain ⟨u, v, hr, hins, hu, hv⟩ := ihr h.right
        rw [if_neg hk]
        refine ⟨l.inorder ++ (x, s) :: u, v, ?_, ?_, forall_mem_append.2 ⟨fun e he =>
          (h.lt_root e he).le.trans (not_lt.1 hk), forall_mem_cons.2 ⟨not_lt.1 hk, hu⟩⟩, hv⟩
        · rw [inorder_node, hr, append_assoc, cons_append]
        · rw [inorder_node, hins, append_assoc, cons_append]
    · obtain ⟨heq, hlt, hge⟩ := split_spec k h
      rw [if_neg hn]
      exact ⟨_, _, heq, rfl, fun e he => (hlt e he).le, hge⟩

theorem weight_insert (k : κ) (n : ℕ) (t : Cartesian κ) :
    (insert k n t).weight = max n t.weight := by
  cases t with
  | nil => simp [insert]
  | node l x s r =>
    rw [insert]
    split_ifs with hn hk
    · simp [hn]
    · simp [hn]
    · simp [(not_le.1 hn).le]

theorem heap_insert (k : κ) (n : ℕ) {t : Cartesian κ} (h : t.Heap) : (insert k n t).Heap := by
  induction t with
  | nil => simp [insert]
  | node l x s r ihl ihr =>
    have hspl := heap_split k h
    have hwei := weight_split_le k h
    obtain ⟨hl, hr, hhl, hhr⟩ := h
    rw [insert]
    split_ifs with hn hk
    · exact ⟨by rw [weight_insert]; exact max_le hn hl, hr, ihl hhl, hhr⟩
    · exact ⟨hl, by rw [weight_insert]; exact max_le hn hr, hhl, ihr hhr⟩
    · exact ⟨hwei.1.trans (not_le.1 hn).le, hwei.2.trans (not_le.1 hn).le, hspl⟩

end Cartesian

end Uwisc.Lib
