import Mathlib.Data.Set.Lattice
import Mathlib.Order.CompletePartialOrder

/-!
# Covers by a list of pieces

The set covered by the pieces of a list, each piece `e` covering `f e`: what a
table of segments, a queue of fragments or the nodes of a tree stand for.
-/

namespace Uwisc.Lib

open List

section Cover

variable {α β : Type*} (f : β → Set α)

/-- The set covered by the pieces of `l`. -/
def cover (l : List β) : Set α := {u | ∃ e ∈ l, u ∈ f e}

variable {f}

@[simp] theorem cover_nil : cover f [] = ∅ := by
  ext; simp [cover]

@[simp] theorem cover_cons (e : β) (l : List β) : cover f (e :: l) = f e ∪ cover f l := by
  ext; simp [cover]

@[simp] theorem cover_append (l1 l2 : List β) :
    cover f (l1 ++ l2) = cover f l1 ∪ cover f l2 := by
  ext; simp [cover, or_and_right, exists_or]

theorem mem_cover {l : List β} {u : α} : u ∈ cover f l ↔ ∃ e ∈ l, u ∈ f e := Iff.rfl

theorem subset_cover {l : List β} {e : β} (he : e ∈ l) : f e ⊆ cover f l :=
  fun _ hu => ⟨e, he, hu⟩

end Cover

/-!
### Separated segments

A list of segments of integers, each from `lo e` up to `hi e`, that are nonempty,
sorted and never adjacent (`Separated`). So a set of units is kept by allocators: its
maximal runs, in order.

* `separated_append`, `Separated.insert`: a segment apart from the others may stand
  between those below and above it;
* `lt_of_mem_cover`, `gt_of_mem_cover`: the segments below or above a unit cover
  only units below or above it.
-/

variable {ε : Type*} (lo hi : ε → ℕ)

/-- The units of a segment. -/
def segUnits (e : ε) : Set ℕ := Set.Ico (lo e) (hi e)

/-- Nonempty segments, sorted and never adjacent. -/
structure Separated (l : List ε) : Prop where
  nonempty : ∀ e ∈ l, lo e < hi e
  sorted : l.Pairwise fun a b => hi a < lo b

variable {lo hi}

theorem separated_nil : Separated lo hi [] := ⟨by simp, .nil⟩

theorem separated_cons {e : ε} {l : List ε} :
    Separated lo hi (e :: l) ↔ lo e < hi e ∧ Separated lo hi l ∧ ∀ b ∈ l, hi e < lo b := by
  constructor
  · rintro ⟨hne, hs⟩
    obtain ⟨hle, hs⟩ := pairwise_cons.1 hs
    exact ⟨hne e mem_cons_self, ⟨fun b hb => hne b (mem_cons_of_mem _ hb), hs⟩, hle⟩
  · rintro ⟨he, ⟨hne, hs⟩, hle⟩
    exact ⟨forall_mem_cons.2 ⟨he, hne⟩, pairwise_cons.2 ⟨hle, hs⟩⟩

theorem separated_append {l1 l2 : List ε} :
    Separated lo hi (l1 ++ l2) ↔ Separated lo hi l1 ∧ Separated lo hi l2 ∧
      ∀ a ∈ l1, ∀ b ∈ l2, hi a < lo b := by
  constructor
  · rintro ⟨hne, hs⟩
    obtain ⟨h1, h2, h⟩ := pairwise_append.1 hs
    exact ⟨⟨fun e he => hne e (mem_append_left _ he), h1⟩,
      ⟨fun e he => hne e (mem_append_right _ he), h2⟩, h⟩
  · rintro ⟨⟨hne1, h1⟩, ⟨hne2, h2⟩, h⟩
    exact ⟨forall_mem_append.2 ⟨hne1, hne2⟩, pairwise_append.2 ⟨h1, h2, h⟩⟩

theorem Separated.sublist {l l' : List ε} (h : Separated lo hi l) (hs : l'.Sublist l) :
    Separated lo hi l' :=
  ⟨fun e he => h.nonempty e (hs.subset he), h.sorted.sublist hs⟩

/-- A segment apart from the others may stand between those below and above it. -/
theorem Separated.insert {l1 l2 : List ε} (h : Separated lo hi (l1 ++ l2)) {e : ε}
    (he : lo e < hi e) (hlt : ∀ a ∈ l1, hi a < lo e) (hgt : ∀ b ∈ l2, hi e < lo b) :
    Separated lo hi (l1 ++ e :: l2) := by
  obtain ⟨h1, h2, h12⟩ := separated_append.1 h
  exact separated_append.2 ⟨h1, separated_cons.2 ⟨he, h2, hgt⟩, fun a ha =>
    forall_mem_cons.2 ⟨hlt a ha, h12 a ha⟩⟩

/-- Segments ending below `x` cover units below `x`. -/
theorem lt_of_mem_cover {l : List ε} {x u : ℕ} (h : ∀ a ∈ l, hi a < x)
    (hu : u ∈ cover (segUnits lo hi) l) : u + 1 < x := by
  obtain ⟨e, he, -, hu⟩ := hu
  have := h e he
  omega

/-- Segments starting above `x` cover units above `x`. -/
theorem gt_of_mem_cover {l : List ε} {x u : ℕ} (h : ∀ b ∈ l, x < lo b)
    (hu : u ∈ cover (segUnits lo hi) l) : x < u := by
  obtain ⟨e, he, hu, -⟩ := hu
  have := h e he
  omega

/-- Consecutive units are all in one segment. -/
theorem Separated.exists_of_subset {l : List ε} (h : Separated lo hi l) {a b : ℕ} (hab : a < b)
    (hsub : Set.Ico a b ⊆ cover (segUnits lo hi) l) : ∃ e ∈ l, lo e ≤ a ∧ b ≤ hi e := by
  induction l with
  | nil => exact absurd (hsub ⟨le_rfl, hab⟩) (by simp)
  | cons e l ih =>
    obtain ⟨he, hl, hlt⟩ := separated_cons.1 h
    have hgt : ∀ u ∈ cover (segUnits lo hi) l, hi e < u := fun u => gt_of_mem_cover hlt
    have hmem : ∀ u, a ≤ u → u < b → u ∈ segUnits lo hi e ∨ u ∈ cover (segUnits lo hi) l :=
      fun u h1 h2 => by simpa using hsub ⟨h1, h2⟩
    by_cases ha : a < hi e
    · refine ⟨e, mem_cons_self, ?_, ?_⟩
      · rcases hmem a le_rfl hab with h | h
        · exact h.1
        · exact absurd (hgt a h) (by omega)
      · -- the unit where the segment ends is in no segment
        by_contra hb
        rcases hmem (hi e) ha.le (not_le.1 hb) with h | h
        · exact lt_irrefl _ h.2
        · exact lt_irrefl _ (hgt _ h)
    · obtain ⟨e', he', hin⟩ := ih hl fun u hu => (hmem u hu.1 hu.2).resolve_left fun h => by
        have := h.2
        have := hu.1
        omega
      exact ⟨e', mem_cons_of_mem _ he', hin⟩

end Uwisc.Lib
