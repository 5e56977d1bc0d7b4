import Mathlib.Algebra.Order.Ring.Int
import Mathlib.Data.List.Chain

/-!
# Elevators

A queue that is served from its head, in two ascending lists: the first from the key of the head on, the
second below it, for the next way round (`Elevator`). The queue is their concatenation, and nothing says where
the second begins: an inversion of the keys does (`Elevator.prefix_of_isChain`).

* `Elevator.insert_first`, `Elevator.insert_second`: an element put in behind all whose keys are not above its own;
* `Elevator.remove`: the head is taken;
* `Stable`: elements of equal keys are in the order of their arrival.
-/

namespace Uwisc.Lib

open List

variable {α K : Type*} [LinearOrder K] {key key' : α → K} {first second u v l arrived : List α} {a x : α}

/-- Two ascending lists, the second below the head of the first. -/
structure Elevator (key : α → K) (first second : List α) : Prop where
  first_le : first.Pairwise fun a b => key a ≤ key b
  second_le : second.Pairwise fun a b => key a ≤ key b
  below : ∀ b ∈ second, ∃ a, first.head? = some a ∧ key b < key a

theorem Elevator.congr (h : Elevator key first second) (hkey : ∀ a ∈ first ++ second, key' a = key a) :
    Elevator key' first second := by
  have hfst (a : α) (ha : a ∈ first) : key' a = key a := hkey a (mem_append_left _ ha)
  have hsec (a : α) (ha : a ∈ second) : key' a = key a := hkey a (mem_append_right _ ha)
  refine ⟨?_, ?_, ?_⟩
  · refine h.first_le.imp_of_mem fun ha hb hab => ?_
    rwa [hfst _ ha, hfst _ hb]
  · refine h.second_le.imp_of_mem fun ha hb hab => ?_
    rwa [hsec _ ha, hsec _ hb]
  · intro b hb
    obtain ⟨a, ha, hab⟩ := h.below b hb
    refine ⟨a, ha, ?_⟩
    rwa [hsec b hb, hfst a (mem_of_mem_head? ha)]

/-- A list that ascends stays so, if an element is put in where it belongs. -/
theorem pairwise_insert (h : (u ++ v).Pairwise fun a b => key a ≤ key b) (hu : ∀ b ∈ u, key b ≤ key x)
    (hv : ∀ b ∈ v, key x < key b) : (u ++ x :: v).Pairwise fun a b => key a ≤ key b := by
  obtain ⟨hpu, hpv, huv⟩ := pairwise_append.1 h
  refine pairwise_append.2 ⟨hpu, pairwise_cons.2 ⟨fun b hb => (hv b hb).le, hpv⟩, fun b hb c hc => ?_⟩
  rcases mem_cons.1 hc with rfl | hc
  · exact hu b hb
  · exact huv b hb c hc

/-- Elements behind the first key above that of `x` have such keys as well. -/
theorem forall_lt_of_head (h : v.Pairwise fun a b => key a ≤ key b) (hv : ∀ b, v.head? = some b → key x < key b) :
    ∀ b ∈ v, key x < key b := by
  cases v with
  | nil => simp
  | cons c v =>
    have hc := hv c rfl
    intro b hb
    rcases mem_cons.1 hb with rfl | hb
    · exact hc
    · exact hc.trans_le ((pairwise_cons.1 h).1 b hb)

/-- Into the first list, behind its head at least. -/
theorem Elevator.insert_first (h : Elevator key (u ++ v) second) (hne : u ≠ []) (hu : ∀ b ∈ u, key b ≤ key x)
    (hv : ∀ b ∈ v, key x < key b) : Elevator key (u ++ x :: v) second := by
  refine ⟨pairwise_insert h.first_le hu hv, h.second_le, fun b hb => ?_⟩
  obtain ⟨a, ha, hlt⟩ := h.below b hb
  refine ⟨a, ?_, hlt⟩
  rwa [head?_append_of_ne_nil _ hne] at ha ⊢

/-- Into the second list, below the head of the first. -/
theorem Elevator.insert_second (h : Elevator key (a :: first) (u ++ v)) (hx : key x < key a)
    (hu : ∀ b ∈ u, key b ≤ key x) (hv : ∀ b ∈ v, key x < key b) : Elevator key (a :: first) (u ++ x :: v) := by
  refine ⟨h.first_le, pairwise_insert h.second_le hu hv, fun b hb => ?_⟩
  rcases mem_append.1 hb with hb | hb
  · exact h.below b (mem_append_left _ hb)
  · rcases mem_cons.1 hb with rfl | hb
    · exact ⟨a, rfl, hx⟩
    · exact h.below b (mem_append_right _ hb)

/-- What holds of the head of a chain, and of what follows an element of it, holds of all. -/
theorem forall_of_isChain {P : α → Prop} (h : l.IsChain fun _ b => P b) (hhead : ∀ a, l.head? = some a → P a) :
    ∀ b ∈ l, P b := by
  induction l with
  | nil => simp
  | cons a l ih =>
    obtain ⟨ha, h⟩ := isChain_cons.1 h
    exact forall_mem_cons.2 ⟨hhead a rfl, ih h ha⟩

/-- The head is taken; if it was the last of the first list, the second becomes the first. -/
theorem Elevator.remove (h : Elevator key (a :: first) second) :
    Elevator key first second ∨ first = [] ∧ Elevator key second [] := by
  obtain ⟨ha, hfst⟩ := pairwise_cons.1 h.first_le
  cases first with
  | nil => exact .inr ⟨rfl, h.second_le, .nil, by simp⟩
  | cons c first =>
    refine .inl ⟨hfst, h.second_le, fun b hb => ⟨c, rfl, ?_⟩⟩
    obtain ⟨a', ha', hlt⟩ := h.below b hb
    cases ha'
    exact hlt.trans_le (ha c mem_cons_self)

/-- What goes on without an inversion is in the first list. -/
theorem Elevator.prefix_of_isChain (h : Elevator key first second) (hl : first ++ second = u ++ v) (hne : first ≠ [])
    (hu : u.IsChain fun a b => key a ≤ key b) : ∃ w, first = u ++ w ∧ v = w ++ second := by
  rcases append_eq_append_iff.1 hl with ⟨w, rfl, rfl⟩ | ⟨w, rfl, rfl⟩
  · cases w with
    | nil => exact ⟨[], by simp, rfl⟩
    | cons b w =>
      -- the last of the first list is not below its head, the first of the second one is
      obtain ⟨a, ha, hlt⟩ := h.below b (by simp)
      have hsor := hu.pairwise
      obtain ⟨-, -, hle⟩ := pairwise_append.1 hsor
      exact absurd (hle a (mem_of_mem_head? ha) b mem_cons_self) (not_le.2 hlt)
  · exact ⟨w, rfl, rfl⟩

/-- Elements of equal keys are in the order of their arrival. -/
def Stable (key : α → K) (arrived l : List α) : Prop := ∀ k, (l.filter fun a => key a = k) <+ arrived

theorem Stable.congr (h : Stable key arrived l) (hkey : ∀ a ∈ l, key' a = key a) : Stable key' arrived l := by
  intro k
  rw [filter_congr fun a ha => by rw [hkey a ha]]
  exact h k

theorem Stable.append (h : Stable key arrived l) (x : α) : Stable key (arrived ++ [x]) l :=
  fun k => (h k).trans (sublist_append_left ..)

/-- The last that arrived is put in before all whose keys are above its own. -/
theorem Stable.insert (h : Stable key arrived (u ++ v)) (hv : ∀ b ∈ v, key x < key b) :
    Stable key (arrived ++ [x]) (u ++ x :: v) := by
  intro k
  have hk := h k
  rw [filter_append] at hk
  by_cases hx : key x = k
  · have hnil : v.filter (fun a => key a = k) = [] := by
      refine filter_eq_nil_iff.2 fun b hb => ?_
      simpa using hx ▸ (hv b hb).ne'
    rw [hnil, append_nil] at hk
    rw [filter_append, filter_cons_of_pos (by simpa using hx), hnil]
    exact hk.append (.refl _)
  · rw [filter_append, filter_cons_of_neg (by simpa using hx)]
    exact hk.trans (sublist_append_left ..)

theorem Stable.sublist (h : Stable key arrived l) {l' : List α} (hl : l' <+ l) : Stable key arrived l' :=
  fun k => (hl.filter _).trans (h k)

/-- What is served was not in the list. -/
theorem Stable.erase [DecidableEq α] (h : Stable key arrived l) (ha : a ∉ l) : Stable key (arrived.erase a) l := by
  intro k
  have hmem : a ∉ l.filter fun a => key a = k := fun hmem => ha (mem_of_mem_filter hmem)
  rw [← erase_of_not_mem hmem]
  exact (h k).erase a

end Uwisc.Lib
