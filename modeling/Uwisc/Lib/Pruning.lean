import Mathlib.Algebra.Order.Group.Nat
import Mathlib.Data.Finset.Card

/-!
# Choosing backwards, with fewer and fewer candidates

Among the nodes of a graph some are chosen, and some are candidates. A candidate that leads to a
node that is chosen is chosen as well; one that leads neither to such a node nor to a candidate is
a candidate no more. Passes are made over all nodes until one chooses nothing.

* `Pruned`: what is not chosen and no candidate leads to nothing that is chosen or may be;
* `closed_of_pass`: after a pass that chooses nothing, what leads to chosen nodes is chosen;
* `passes_spec`: the passes come to an end, and what is chosen then are the nodes chosen first and
  the candidates from which one of them can be reached.
-/

namespace Uwisc.Lib

open List

/-- A graph, and the nodes that are gone through. -/
structure Digraph where
  edge : ℕ → ℕ → Prop
  nodes : List ℕ

/-- The nodes that are chosen, those that may be, and how many were chosen in a pass. -/
@[ext] structure Choice where
  chosen : Set ℕ
  cand : Set ℕ
  count : ℕ

namespace Digraph

variable (G : Digraph)

open Classical in
/-- Looks at where a candidate leads. -/
noncomputable def visit (m : Choice) (i : ℕ) : Choice :=
  if i ∈ m.cand ∧ i ∉ m.chosen then
    if ∃ j ∈ m.chosen, G.edge i j then { m with chosen := insert i m.chosen, count := m.count + 1 }
    else if ∃ j ∈ m.cand, G.edge i j then m
    else { m with cand := m.cand \ {i} }
  else m

noncomputable def pass (m : Choice) : Choice := G.nodes.foldl G.visit { m with count := 0 }

/-- At most so many passes; `none` if they are not enough. -/
noncomputable def passes : ℕ → Choice → Option Choice
  | 0, _ => none
  | k + 1, m => if (G.pass m).count = 0 then some (G.pass m) else passes k (G.pass m)

/-- What holds of passes that started with the nodes `S` chosen and the candidates `D`. -/
structure Pruned (S D : Set ℕ) (m : Choice) : Prop where
  start : S ⊆ m.chosen
  sound : ∀ {i}, i ∈ m.chosen → i ∈ S ∨ i ∈ D ∧ ∃ j ∈ S, Relation.TransGen G.edge i j
  cand : m.cand ⊆ D
  pruned : ∀ {i j}, i ∈ D → i ∉ m.cand → G.edge i j → j ∉ m.chosen ∧ j ∉ m.cand

variable {G} {S D : Set ℕ} {m m' : Choice} {i : ℕ} {l : List ℕ}

/-- What is chosen stays so; what is no candidate is not chosen later. -/
structure Narrows (m m' : Choice) : Prop where
  chosen : m.chosen ⊆ m'.chosen
  count : m.count ≤ m'.count
  same : m'.count = m.count → m'.chosen = m.chosen

theorem Narrows.refl (m : Choice) : Narrows m m := ⟨subset_rfl, le_rfl, fun _ => rfl⟩

theorem Narrows.trans {m'' : Choice} (h : Narrows m m') (h' : Narrows m' m'') : Narrows m m'' := by
  refine ⟨h.chosen.trans h'.chosen, h.count.trans h'.count, fun heq => ?_⟩
  have h1 := h.count
  have h2 := h'.count
  rw [h'.same (by omega), h.same (by omega)]

theorem visit_narrows (m : Choice) (i : ℕ) : Narrows m (G.visit m i) := by
  rw [visit]
  split_ifs with hi hj hj
  · exact ⟨Set.subset_insert _ _, Nat.le_succ _, fun h => absurd h (Nat.succ_ne_self _)⟩
  · exact .refl m
  · exact ⟨subset_rfl, le_rfl, fun _ => rfl⟩
  · exact .refl m

/-- A visit keeps what holds of passes. -/
theorem Pruned.visit (h : G.Pruned S D m) (i : ℕ) : G.Pruned S D (G.visit m i) := by
  rw [Digraph.visit]
  split_ifs with hi hj hj
  · obtain ⟨hcand, -⟩ := hi
    obtain ⟨j, hj, hedge⟩ := hj
    refine ⟨h.start.trans (Set.subset_insert _ _), fun {i'} hi' => ?_, h.cand, fun {i' j'} hD hi' he => ?_⟩
    · rcases hi' with rfl | hi'
      · right
        refine ⟨h.cand hcand, ?_⟩
        rcases h.sound hj with hS | ⟨-, k, hS, hpath⟩
        · exact ⟨j, hS, .single hedge⟩
        · exact ⟨k, hS, .head hedge hpath⟩
      · exact h.sound hi'
    · obtain ⟨hcho, hcand'⟩ := h.pruned hD hi' he
      -- what is chosen now was a candidate
      exact ⟨fun hmem => hmem.elim (fun heq => hcand' (heq ▸ hcand)) hcho, hcand'⟩
  · exact h
  · refine ⟨h.start, h.sound, Set.sdiff_subset.trans h.cand, fun {i' j'} hD hi' he => ?_⟩
    by_cases heq : i' = i
    · subst heq
      rename_i hnone
      exact ⟨fun hmem => hnone ⟨j', hmem, he⟩, fun hmem => hj ⟨j', hmem.1, he⟩⟩
    · obtain ⟨hcho, hcand⟩ := h.pruned hD (fun hmem => hi' ⟨hmem, heq⟩) he
      exact ⟨hcho, fun hmem => hcand hmem.1⟩
  · exact h

/-- A visit that chooses nothing found nothing chosen. -/
theorem visit_same (h : (G.visit m i).count = m.count) (hi : i ∈ m.cand) (hni : i ∉ m.chosen) :
    ∀ j ∈ m.chosen, ¬G.edge i j := by
  intro j hj hedge
  rw [visit, if_pos ⟨hi, hni⟩, if_pos ⟨j, hj, hedge⟩] at h
  exact Nat.succ_ne_self _ h

theorem Pruned.foldl_visit (h : G.Pruned S D m) (l : List ℕ) : G.Pruned S D (l.foldl G.visit m) := by
  induction l generalizing m with
  | nil => exact h
  | cons i l ih => exact ih (h.visit i)

theorem foldl_narrows (m : Choice) (l : List ℕ) : Narrows m (l.foldl G.visit m) := by
  induction l generalizing m with
  | nil => exact .refl m
  | cons i l ih => exact (visit_narrows m i).trans (ih _)

/-- Of nodes that are gone through without choosing any, none leads to a chosen one but those chosen. -/
theorem foldl_same (h : G.Pruned S D m) (hcnt : (l.foldl G.visit m).count = m.count) (hi : i ∈ l) (hD : i ∈ D)
    (hni : i ∉ m.chosen) : ∀ j ∈ m.chosen, ¬G.edge i j := by
  induction l generalizing m with
  | nil => simp at hi
  | cons k l ih =>
    rw [foldl_cons] at hcnt
    have hfst : Narrows m (G.visit m k) := visit_narrows m k
    have hlater : Narrows (G.visit m k) (l.foldl G.visit (G.visit m k)) := foldl_narrows _ l
    have hsame : (G.visit m k).count = m.count := by
      have := hfst.count
      have := hlater.count
      omega
    rcases List.mem_cons.1 hi with rfl | hi
    · by_cases hcand : i ∈ m.cand
      · exact visit_same hsame hcand hni
      · intro j hj hedge
        exact (h.pruned hD hcand hedge).1 hj
    · rw [← hfst.same hsame] at hni ⊢
      exact ih (h.visit k) (hcnt.trans hsame.symm) hi hni

theorem Pruned.count (h : G.Pruned S D m) (n : ℕ) : G.Pruned S D { m with count := n } :=
  ⟨h.start, h.sound, h.cand, h.pruned⟩

/-- After a pass that chooses nothing, what leads to a chosen node is chosen. -/
theorem closed_of_pass (h : G.Pruned S D m) (hcnt : (G.pass m).count = 0) (hD : D ⊆ {i | i ∈ G.nodes}) {i j : ℕ}
    (hi : i ∈ D) (hedge : G.edge i j) (hj : j ∈ (G.pass m).chosen) : i ∈ (G.pass m).chosen := by
  have hsame : (G.pass m).chosen = m.chosen := (foldl_narrows _ G.nodes).same hcnt
  rw [hsame] at hj ⊢
  by_contra hni
  exact foldl_same (h.count 0) hcnt (hD hi) hi hni j hj hedge

/-- A pass that chooses something chooses a node that was not chosen. -/
theorem exists_new (h : (l.foldl G.visit m).count ≠ m.count) :
    ∃ i ∈ l, i ∉ m.chosen ∧ i ∈ (l.foldl G.visit m).chosen := by
  induction l generalizing m with
  | nil => exact absurd rfl h
  | cons k l ih =>
    rw [foldl_cons] at h ⊢
    have hlater : Narrows (G.visit m k) (l.foldl G.visit (G.visit m k)) := foldl_narrows _ l
    by_cases hsame : (G.visit m k).count = m.count
    · obtain ⟨i, hi, hni, hmem⟩ := ih (hsame ▸ h)
      exact ⟨i, List.mem_cons_of_mem k hi, fun hc => hni ((visit_narrows m k).chosen hc), hmem⟩
    · refine ⟨k, List.mem_cons_self, ?_⟩
      rw [visit] at hsame
      split_ifs at hsame with hk hj
      · exact ⟨hk.2, hlater.chosen (by rw [visit, if_pos hk, if_pos hj]; exact Set.mem_insert _ _)⟩
      all_goals exact absurd rfl hsame

open Classical in
/-- The nodes gone through that are not chosen. -/
noncomputable def left (G : Digraph) (m : Choice) : Finset ℕ := G.nodes.toFinset.filter (· ∉ m.chosen)

theorem mem_left : i ∈ G.left m ↔ i ∈ G.nodes ∧ i ∉ m.chosen := by
  classical
  rw [left, Finset.mem_filter, mem_toFinset]

/-- A pass that chooses something leaves less. -/
theorem left_pass (h : (G.pass m).count ≠ 0) : (G.left (G.pass m)).card < (G.left m).card := by
  have hgrw : Narrows { m with count := 0 } (G.pass m) := foldl_narrows _ G.nodes
  obtain ⟨i, hi, hni, hmem⟩ : ∃ i ∈ G.nodes, i ∉ m.chosen ∧ i ∈ (G.pass m).chosen := exists_new h
  refine Finset.card_lt_card (Finset.ssubset_iff_of_subset (fun k hk => ?_) |>.2 ⟨i, mem_left.2 ⟨hi, hni⟩, fun hk => ?_⟩)
  · obtain ⟨hk, hnk⟩ := mem_left.1 hk
    exact mem_left.2 ⟨hk, fun hc => hnk (hgrw.chosen hc)⟩
  · exact (mem_left.1 hk).2 hmem

/-- What is chosen in the end. -/
structure Chosen (G : Digraph) (S D : Set ℕ) (m : Choice) : Prop where
  start : S ⊆ m.chosen
  sound : ∀ {i}, i ∈ m.chosen → i ∈ S ∨ i ∈ D ∧ ∃ j ∈ S, Relation.TransGen G.edge i j
  closed : ∀ {i j}, i ∈ D → G.edge i j → j ∈ m.chosen → i ∈ m.chosen

/-- Enough passes come to an end, with the right nodes chosen. -/
theorem passes_spec (hD : D ⊆ {i | i ∈ G.nodes}) {k : ℕ} (hk : (G.left m).card < k) (h : G.Pruned S D m) :
    ∃ m', G.passes k m = some m' ∧ G.Chosen S D m' := by
  induction k generalizing m with
  | zero => exact absurd hk (Nat.not_lt_zero _)
  | succ k ih =>
    have hpass : G.Pruned S D (G.pass m) := (h.count 0).foldl_visit G.nodes
    rw [passes]
    split_ifs with hcnt
    · exact ⟨_, rfl, hpass.start, hpass.sound, closed_of_pass h hcnt hD⟩
    · have := left_pass hcnt
      exact ih (by omega) hpass

/-- From the start, one pass more than there are nodes is enough. -/
theorem passes_start (hD : D ⊆ {i | i ∈ G.nodes}) {k : ℕ} (hk : G.nodes.length < k) (n : ℕ) :
    ∃ m, G.passes k ⟨S, D, n⟩ = some m ∧ G.Chosen S D m := by
  refine passes_spec hD ?_ ⟨subset_rfl, .inl, subset_rfl, fun hi hni => absurd hi hni⟩
  have hsub : G.left ⟨S, D, n⟩ ⊆ G.nodes.toFinset := fun i hi => mem_toFinset.2 (mem_left.1 hi).1
  exact ((Finset.card_le_card hsub).trans (toFinset_card_le _)).trans_lt hk

/-- What leads to a chosen node by way of candidates is chosen. -/
theorem Chosen.of_path (h : G.Chosen S D m) (hD : ∀ {i j}, G.edge i j → i ∈ D) {j : ℕ} (hpath : Relation.TransGen G.edge i j)
    (hj : j ∈ m.chosen) : i ∈ m.chosen := by
  induction hpath using Relation.TransGen.head_induction_on with
  | single hedge => exact h.closed (hD hedge) hedge hj
  | head hedge _ ih => exact h.closed (hD hedge) hedge ih

end Digraph

end Uwisc.Lib
