import Mathlib.Data.Finset.Card
import Mathlib.Tactic.Ring

/-!
# Marking what can be reached

The nodes `0, …, n - 1` of a graph are marked in passes over all of them. A node that is marked as
the successor of another one is deferred: its own successors are marked when a pass comes to
it. Passes are made until nothing is deferred.

* `Marked`: what is marked can be reached, and what is marked and not deferred has its successors
  marked;
* `pass_defer`: what is deferred after a pass was not marked before it;
* `passes_spec`: the passes come to an end, and what can be reached is marked.
-/

namespace Uwisc.Lib

open Finset Function

/-- A graph on `0, …, n - 1`: the nodes there are, those to begin with, and what each leads to. -/
structure Graph where
  n : ℕ
  live : ℕ → Bool
  root : ℕ → Bool
  succ : ℕ → List ℕ

/-- The nodes that are marked, those that are deferred, and how many those are. -/
structure Marks where
  mark : ℕ → Bool
  defer : ℕ → Bool
  count : ℤ

/-- Nothing is marked. -/
def Marks.clear : Marks := ⟨fun _ => false, fun _ => false, 0⟩

/-- Marks a successor. -/
def Marks.touch (m : Marks) (i : ℕ) : Marks :=
  if m.mark i then m
  else ⟨update m.mark i true, update m.defer i true, m.count + 1⟩

namespace Graph

variable (G : Graph)

/-- Goes on from a node, if that is to be done. -/
def visit (m : Marks) (i : ℕ) : Marks :=
  if G.live i = false then m
  else if m.defer i then
    (G.succ i).foldl Marks.touch { m with defer := update m.defer i false, count := m.count - 1 }
  else if m.mark i then m
  else if G.root i then (G.succ i).foldl Marks.touch { m with mark := update m.mark i true }
  else m

def pass (m : Marks) : Marks := (List.range G.n).foldl G.visit m

/-- At most so many passes; `none` if they are not enough. -/
def passes : ℕ → Marks → Option Marks
  | 0, _ => none
  | k + 1, m => if (G.pass m).count = 0 then some (G.pass m) else passes k (G.pass m)

/-- What can be reached. -/
inductive Reach : ℕ → Prop
  | root {i : ℕ} : i < G.n → G.live i = true → G.root i = true → Reach i
  | step {i j : ℕ} : Reach i → j ∈ G.succ i → Reach j

/-- What a node leads to is there. -/
structure Closed : Prop where
  lt : ∀ {i j : ℕ}, j ∈ G.succ i → j < G.n
  live : ∀ {i j : ℕ}, j ∈ G.succ i → G.live j = true

/-- What marks say while passes are made; the successors `l` of the node `i` are still to be marked. -/
structure Marked (i : ℕ) (l : List ℕ) (m : Marks) : Prop where
  sound : ∀ {i'}, m.mark i' = true → G.Reach i'
  defer : ∀ {i'}, m.defer i' = true → m.mark i' = true ∧ i' < G.n
  closed : ∀ {i' j}, m.mark i' = true → m.defer i' = false → j ∈ G.succ i' →
    m.mark j = true ∨ i' = i ∧ j ∈ l
  count : m.count = ((Finset.range G.n).filter (m.defer · = true)).card

variable {G} {m m' : Marks} {i j : ℕ} {l : List ℕ}

theorem Reach.there (hG : G.Closed) (h : G.Reach i) : i < G.n ∧ G.live i = true := by
  cases h with
  | root hlt hlive _ => exact ⟨hlt, hlive⟩
  | step _ h => exact ⟨hG.lt h, hG.live h⟩

/-- What is marked stays so, and only what was not is deferred. -/
structure Grows (m m' : Marks) : Prop where
  mark : ∀ {i}, m.mark i = true → m'.mark i = true
  defer : ∀ {i}, m'.defer i = true → m.defer i = true ∨ m.mark i = false

theorem Grows.refl (m : Marks) : Grows m m := ⟨id, .inl⟩

theorem Grows.trans {m'' : Marks} (h : Grows m m') (h' : Grows m' m'') : Grows m m'' := by
  refine ⟨fun hi => h'.mark (h.mark hi), fun {i} hi => ?_⟩
  rcases h'.defer hi with hd | hm
  · exact h.defer hd
  · right
    by_contra hne
    rw [h.mark (Bool.eq_true_of_not_eq_false hne)] at hm
    exact absurd hm (by decide)

theorem grows_touch (m : Marks) (i : ℕ) : Grows m (m.touch i) := by
  rw [Marks.touch]
  split_ifs with h
  · exact .refl m
  · refine ⟨fun {j} hj => ?_, fun {j} hj => ?_⟩
    · simp only [update_apply]
      split_ifs
      · rfl
      · exact hj
    · simp only [update_apply] at hj
      split_ifs at hj with hji
      · exact .inr (hji ▸ Bool.eq_false_of_not_eq_true h)
      · exact .inl hj

theorem grows_foldl_touch (m : Marks) (l : List ℕ) : Grows m (l.foldl Marks.touch m) := by
  induction l generalizing m with
  | nil => exact .refl m
  | cons i l ih => exact (grows_touch m i).trans (ih _)

theorem filter_update_true (hlt : j < G.n) (h : m.defer j = false) :
    (((Finset.range G.n).filter (update m.defer j true · = true)).card : ℤ) =
      ((Finset.range G.n).filter (m.defer · = true)).card + 1 := by
  have hins : (Finset.range G.n).filter (update m.defer j true · = true) =
      insert j ((Finset.range G.n).filter (m.defer · = true)) := by
    ext i
    simp only [mem_filter, mem_insert, mem_range, update_apply]
    split_ifs with hi
    · simp [hi, hlt]
    · simp [hi]
  rw [hins, card_insert_of_notMem (by simp [h])]
  push_cast
  ring

theorem filter_update_false (hlt : j < G.n) (h : m.defer j = true) :
    (((Finset.range G.n).filter (update m.defer j false · = true)).card : ℤ) =
      ((Finset.range G.n).filter (m.defer · = true)).card - 1 := by
  have hcard := @filter_update_true G { m with defer := update m.defer j false } j hlt (by simp)
  have hself : update m.defer j true = m.defer := h ▸ update_eq_self j m.defer
  simp only [update_idem, hself] at hcard
  omega

/-- A successor that was to be marked is. -/
theorem Marked.touch (hlt : j < G.n) (hrch : G.Reach j) (h : G.Marked i (j :: l) m) :
    G.Marked i l (m.touch j) := by
  rw [Marks.touch]
  split_ifs with hm
  · refine ⟨h.sound, h.defer, fun {i' j'} hi' hd hj' => ?_, h.count⟩
    rcases h.closed hi' hd hj' with hmark | ⟨rfl, hmem⟩
    · exact .inl hmark
    · rcases List.mem_cons.1 hmem with rfl | hmem
      · exact .inl hm
      · exact .inr ⟨rfl, hmem⟩
  · have hdefer : m.defer j = false := by
      by_contra hne
      exact hm (h.defer (Bool.eq_true_of_not_eq_false hne)).1
    refine ⟨fun {i'} hi' => ?_, fun {i'} hi' => ?_, fun {i' j'} hi' hd hj' => ?_, ?_⟩
    · simp only [update_apply] at hi'
      split_ifs at hi' with heq
      · exact heq ▸ hrch
      · exact h.sound hi'
    · simp only [update_apply] at hi' ⊢
      split_ifs at hi' ⊢ with heq
      · exact ⟨rfl, heq ▸ hlt⟩
      · exact h.defer hi'
    · simp only [update_apply] at hi' hd ⊢
      split_ifs at hi' hd with heq
      split_ifs with heq'
      · exact .inl rfl
      · rcases h.closed hi' hd hj' with hmark | ⟨rfl, hmem⟩
        · exact .inl hmark
        · exact .inr ⟨rfl, (List.mem_cons.1 hmem).resolve_left heq'⟩
    · simp only
      rw [filter_update_true hlt hdefer, h.count]

theorem Marked.foldl_touch (hG : G.Closed) (h : G.Marked i l m) (hl : ∀ j ∈ l, G.Reach j) :
    G.Marked i [] (l.foldl Marks.touch m) := by
  induction l generalizing m with
  | nil => exact h
  | cons j l ih =>
    obtain ⟨hj, hl⟩ := List.forall_mem_cons.1 hl
    exact ih (h.touch (hj.there hG).1 hj) hl

theorem Marked.done (h : G.Marked i [] m) (k : ℕ) : G.Marked k [] m :=
  ⟨h.sound, h.defer, fun hi' hd hj => .inl ((h.closed hi' hd hj).resolve_right fun h => by simp at h), h.count⟩

/-- A node that is deferred no more has its successors marked. -/
theorem Marked.undefer (h : G.Marked i [] m) (hd : m.defer i = true) :
    G.Marked i (G.succ i) { m with defer := update m.defer i false, count := m.count - 1 } := by
  refine ⟨h.sound, fun {i'} hi' => ?_, fun {i' j} hi' hd' hj => ?_, ?_⟩
  · simp only [update_apply] at hi'
    split_ifs at hi'
    exact h.defer hi'
  · simp only [update_apply] at hd'
    split_ifs at hd' with heq
    · exact .inr ⟨heq, heq ▸ hj⟩
    · exact .inl ((h.closed hi' hd' hj).resolve_right fun h => by simp at h)
  · simp only
    rw [filter_update_false (h.defer hd).2 hd, h.count]

/-- A root that was not marked is. -/
theorem Marked.start (h : G.Marked i [] m) (hrch : G.Reach i) :
    G.Marked i (G.succ i) { m with mark := update m.mark i true } := by
  refine ⟨fun {i'} hi' => ?_, fun {i'} hi' => ?_, fun {i' j} hi' hd' hj => ?_, h.count⟩
  · simp only [update_apply] at hi'
    split_ifs at hi' with heq
    · exact heq ▸ hrch
    · exact h.sound hi'
  · simp only [update_apply]
    split_ifs
    · exact ⟨rfl, (h.defer hi').2⟩
    · exact h.defer hi'
  · simp only [update_apply] at hi' ⊢
    by_cases heq : i' = i
    · exact .inr ⟨heq, heq ▸ hj⟩
    · rw [if_neg heq] at hi'
      have hmark := (h.closed hi' hd' hj).resolve_right fun h => by simp at h
      left
      split_ifs
      · rfl
      · exact hmark

/-- A visit of a node. -/
theorem visit_spec (hG : G.Closed) (hlt : i < G.n) (h : G.Marked i [] m) :
    G.Marked i [] (G.visit m i) ∧ Grows m (G.visit m i) ∧
      (m.mark i = true → (G.visit m i).defer i = false) ∧
      (G.live i = true → G.root i = true → (G.visit m i).mark i = true) := by
  have hsucc : G.Reach i → ∀ j ∈ G.succ i, G.Reach j := fun hi j hj => .step hi hj
  rw [visit]
  by_cases hlive : G.live i = false
  · rw [if_pos hlive]
    refine ⟨h, .refl m, fun hm => ?_, fun hl => by simp [hlive] at hl⟩
    rw [((h.sound hm).there hG).2] at hlive
    exact absurd hlive (by decide)
  rw [if_neg hlive]
  by_cases hd : m.defer i = true
  · rw [if_pos hd]
    have hm := (h.defer hd).1
    have hfold := grows_foldl_touch
      { m with defer := update m.defer i false, count := m.count - 1 } (G.succ i)
    have hgrw : Grows m { m with defer := update m.defer i false, count := m.count - 1 } := by
      refine ⟨id, fun {j} hj => ?_⟩
      simp only [update_apply] at hj
      split_ifs at hj
      exact .inl hj
    refine ⟨(h.undefer hd).foldl_touch hG (hsucc (h.sound hm)), hgrw.trans hfold, fun _ => ?_, fun _ _ =>
      hfold.mark hm⟩
    by_contra hne
    rcases hfold.defer (Bool.eq_true_of_not_eq_false hne) with h | h
    · simp at h
    · simp [hm] at h
  rw [if_neg hd]
  by_cases hm : m.mark i = true
  · rw [if_pos hm]
    exact ⟨h, .refl m, fun _ => Bool.eq_false_of_not_eq_true hd, fun _ _ => hm⟩
  rw [if_neg hm]
  by_cases hroot : G.root i = true
  · rw [if_pos hroot]
    have hrch : G.Reach i := .root hlt (Bool.eq_true_of_not_eq_false hlive) hroot
    have hfold := grows_foldl_touch { m with mark := update m.mark i true } (G.succ i)
    have hgrw : Grows m { m with mark := update m.mark i true } := by
      refine ⟨fun {j} hj => ?_, .inl⟩
      simp only [update_apply]
      split_ifs
      · rfl
      · exact hj
    exact ⟨(h.start hrch).foldl_touch hG (hsucc hrch), hgrw.trans hfold, fun h => absurd h hm,
      fun _ _ => hfold.mark (by simp)⟩
  · rw [if_neg hroot]
    exact ⟨h, .refl m, fun h => absurd h hm, fun _ h => absurd h hroot⟩

/-- Visits of some nodes, one after the other. -/
theorem foldl_visit (hG : G.Closed) (hl : ∀ i ∈ l, i < G.n) (h : ∀ k, G.Marked k [] m) :
    (∀ k, G.Marked k [] (l.foldl G.visit m)) ∧ Grows m (l.foldl G.visit m) ∧
      (∀ i ∈ l, m.mark i = true → (l.foldl G.visit m).defer i = false) ∧
      (∀ i ∈ l, G.live i = true → G.root i = true → (l.foldl G.visit m).mark i = true) := by
  induction l generalizing m with
  | nil => exact ⟨h, .refl m, by simp, by simp⟩
  | cons i l ih =>
    obtain ⟨hi, hl⟩ := List.forall_mem_cons.1 hl
    obtain ⟨hmar, hgrw, hdefer, hroot⟩ := visit_spec hG hi (h i)
    obtain ⟨hmar', hgrw', hdefer', hroot'⟩ := ih hl fun k => hmar.done k
    rw [List.foldl_cons]
    refine ⟨hmar', hgrw.trans hgrw', fun j hj hm => ?_, fun j hj hlive hr => ?_⟩
    · rcases List.mem_cons.1 hj with rfl | hj
      · by_contra hne
        rcases hgrw'.defer (Bool.eq_true_of_not_eq_false hne) with h | h
        · simp [hdefer hm] at h
        · simp [hgrw.mark hm] at h
      · exact hdefer' j hj (hgrw.mark hm)
    · rcases List.mem_cons.1 hj with rfl | hj
      · exact hgrw'.mark (hroot hlive hr)
      · exact hroot' j hj hlive hr

/-- How many nodes are not marked. -/
def unmarked (G : Graph) (m : Marks) : ℕ := ((Finset.range G.n).filter (m.mark · = false)).card

/-- Enough passes come to an end, with what can be reached marked. -/
theorem passes_spec (hG : G.Closed) {k : ℕ} (hk : G.unmarked m < k) (h : ∀ k, G.Marked k [] m) :
    ∃ m', G.passes k m = some m' ∧ ∀ i, m'.mark i = true ↔ G.Reach i := by
  induction k generalizing m with
  | zero => exact absurd hk (Nat.not_lt_zero _)
  | succ k ih =>
    obtain ⟨hmar, hgrw, hdefer, hroot⟩ := @foldl_visit G m _ hG (fun i hi => List.mem_range.1 hi) h
    change ∀ k, G.Marked k [] (G.pass m) at hmar
    rw [passes]
    split_ifs with hcnt
    · refine ⟨_, rfl, fun i => ⟨(hmar 0).sound, fun hrch => ?_⟩⟩
      have hnone : ∀ i, (G.pass m).defer i = false := fun i => by
        by_contra hne
        have hd := Bool.eq_true_of_not_eq_false hne
        have hzero := (hmar 0).count
        rw [hcnt, eq_comm, Nat.cast_eq_zero, card_eq_zero] at hzero
        have hmem : i ∈ (Finset.range G.n).filter ((G.pass m).defer · = true) :=
          Finset.mem_filter.2 ⟨Finset.mem_range.2 ((hmar 0).defer hd).2, hd⟩
        rw [hzero] at hmem
        simp at hmem
      induction hrch with
      | root hlt hlive hr => exact hroot _ (List.mem_range.2 hlt) hlive hr
      | step _ hj ih => exact ((hmar 0).closed ih (hnone _) hj).resolve_right fun h => by simp at h
    · refine ih ?_ hmar
      -- what is deferred was marked in this pass
      have hsome : ((Finset.range G.n).filter ((G.pass m).defer · = true)).Nonempty := by
        rw [nonempty_iff_ne_empty]
        intro hemp
        rw [(hmar 0).count, hemp] at hcnt
        exact hcnt rfl
      obtain ⟨i, hi⟩ := hsome
      obtain ⟨hlt, hd⟩ := Finset.mem_filter.1 hi
      have hnew : m.mark i = false := by
        by_contra hne
        have := hdefer i (List.mem_range.2 (Finset.mem_range.1 hlt)) (Bool.eq_true_of_not_eq_false hne)
        exact absurd (hd.symm.trans this) (by decide)
      have hless : G.unmarked (G.pass m) < G.unmarked m := by
        refine card_lt_card (ssubset_iff_of_subset ?_ |>.2 ⟨i, ?_, ?_⟩)
        · intro j hj
          obtain ⟨hj, hm⟩ := Finset.mem_filter.1 hj
          refine Finset.mem_filter.2 ⟨hj, ?_⟩
          by_contra hne
          have hm' : (G.pass m).mark j = true := hgrw.mark (Bool.eq_true_of_not_eq_false hne)
          exact absurd (hm.symm.trans hm') (by decide)
        · exact Finset.mem_filter.2 ⟨hlt, hnew⟩
        · intro hmem
          have := (Finset.mem_filter.1 hmem).2
          rw [((hmar 0).defer hd).1] at this
          exact absurd this (by decide)
      omega

theorem marked_clear (k : ℕ) : G.Marked k [] Marks.clear := by
  refine ⟨fun h => ?_, fun h => ?_, fun h => ?_, ?_⟩
  · simp [Marks.clear] at h
  · simp [Marks.clear] at h
  · simp [Marks.clear] at h
  · simp [Marks.clear]

/-- From the start, one pass more than there are nodes is enough. -/
theorem passes_clear (hG : G.Closed) :
    ∃ m, G.passes (G.n + 1) Marks.clear = some m ∧ ∀ i, m.mark i = true ↔ G.Reach i := by
  refine passes_spec hG ?_ marked_clear
  have : G.unmarked Marks.clear ≤ (Finset.range G.n).card := card_filter_le _ _
  rw [card_range] at this
  omega

end Graph

end Uwisc.Lib
