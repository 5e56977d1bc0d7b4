import Uwisc.Lib.Cover
import Uwisc.Sys.Kmem

/-!
# What the kernel memory allocator does

The free tree is well formed if its blocks, in order, are disjoint and never
adjacent, and no block is longer than the one above it (`WellFormed`). It stands
for the set of its free bytes (`free`).

* `kmemFree_spec`: a block that is not free becomes free, joined with its neighbours;
* `descend_spec`: a block is taken from one node, as long as the root or one of its
  sons is large enough (`Suitable`);
* `kmemAlloc_spec`: the block `kmem_alloc` returns was free, unless the pages it gets do
  not make the tree suitable (`Overruns`).
-/

namespace Uwisc.Kmem

open Except Lib List

/-- The bytes of a block. -/
abbrev blockBytes : ℕ × ℕ → Set ℕ := segUnits Prod.fst fun e => e.1 + e.2

/-- The blocks are nonempty, sorted and never adjacent. -/
abbrev Apart : List (ℕ × ℕ) → Prop := Separated Prod.fst fun e => e.1 + e.2

/-- The free bytes. -/
def free (t : Freehdr) : Set ℕ := cover blockBytes t.inorder

/-- The tree is ordered by address and by size, and its blocks are never adjacent. -/
structure WellFormed (t : Freehdr) : Prop where
  heap : t.Heap
  apart : Apart t.inorder

theorem mem_blockBytes {e : ℕ × ℕ} {u : ℕ} : u ∈ blockBytes e ↔ e.1 ≤ u ∧ u < e.1 + e.2 := Iff.rfl

@[simp] theorem free_nil : free .nil = ∅ := cover_nil

@[simp] theorem free_node (l : Freehdr) (b s : ℕ) (r : Freehdr) :
    free (.node l b s r) = free l ∪ (Set.Ico b (b + s) ∪ free r) := by
  rw [free, Cartesian.inorder_node, cover_append, cover_cons]
  rfl

@[simp] theorem free_merge (l r : Freehdr) : free (l.merge r) = free l ∪ free r := by
  rw [free, Cartesian.inorder_merge, cover_append]
  rfl

@[simp] theorem free_demote (b s : ℕ) (l r : Freehdr) :
    free (.demote b s l r) = free l ∪ (Set.Ico b (b + s) ∪ free r) := by
  rw [free, Cartesian.inorder_demote, cover_append, cover_cons]
  rfl

/-- What the order of a well-formed node says of its parts. -/
structure NodeOrder (l : Freehdr) (b s : ℕ) (r : Freehdr) : Prop where
  left : WellFormed l
  right : WellFormed r
  pos : 0 < s
  left_lt : ∀ e ∈ l.inorder, e.1 + e.2 < b
  lt_right : ∀ e ∈ r.inorder, b + s < e.1
  left_right : ∀ e ∈ l.inorder, ∀ e' ∈ r.inorder, e.1 + e.2 < e'.1
  left_le : l.weight ≤ s
  right_le : r.weight ≤ s

theorem WellFormed.node {l : Freehdr} {b s : ℕ} {r : Freehdr} (h : WellFormed (.node l b s r)) :
    NodeOrder l b s r := by
  obtain ⟨⟨hl, hr, hhl, hhr⟩, hap⟩ := h
  obtain ⟨hapl, hap, hlt⟩ := separated_append.1 hap
  obtain ⟨hpos, hapr, hgt⟩ := separated_cons.1 hap
  exact ⟨⟨hhl, hapl⟩, ⟨hhr, hapr⟩, by omega, fun e he => hlt e he (b, s) mem_cons_self, hgt,
    fun e he e' he' => hlt e he e' (mem_cons_of_mem _ he'), hl, hr⟩

theorem NodeOrder.merge {l : Freehdr} {b s : ℕ} {r : Freehdr} (h : NodeOrder l b s r) :
    WellFormed (l.merge r) := by
  refine ⟨Cartesian.heap_merge h.left.heap h.right.heap, ?_⟩
  rw [Cartesian.inorder_merge]
  exact separated_append.2 ⟨h.left.apart, h.right.apart, h.left_right⟩

theorem WellFormed.ordered {t : Freehdr} (h : WellFormed t) : t.Ordered :=
  h.apart.sorted.imp fun {a _} hab => (Nat.le_add_right a.1 a.2).trans_lt hab

/-! ### Freeing -/

/-- The bytes in the blocks of a list that adjoin a block. -/
def adjoining (ptr nbytes : ℕ) (es : List (ℕ × ℕ)) : ℕ :=
  ((es.filter fun e => e.1 + e.2 = ptr ∨ e.1 = ptr + nbytes).map Prod.snd).sum

@[simp] theorem adjoining_nil (ptr nbytes : ℕ) : adjoining ptr nbytes [] = 0 := rfl

theorem adjoining_cons (ptr nbytes : ℕ) (e : ℕ × ℕ) (es : List (ℕ × ℕ)) :
    adjoining ptr nbytes (e :: es) =
      (if e.1 + e.2 = ptr ∨ e.1 = ptr + nbytes then e.2 else 0) + adjoining ptr nbytes es := by
  rw [adjoining, filter_cons]
  by_cases h : e.1 + e.2 = ptr ∨ e.1 = ptr + nbytes <;> simp [h, adjoining]

theorem adjoining_append (ptr nbytes : ℕ) (es fs : List (ℕ × ℕ)) :
    adjoining ptr nbytes (es ++ fs) = adjoining ptr nbytes es + adjoining ptr nbytes fs := by
  simp [adjoining]

variable {ptr' usrpt p a n : ℕ} {q : Freehdr × ℕ × ℕ} {t1 : Freehdr}

/-- Two blocks adjoined by the same blocks. -/
theorem adjoining_congr {ptr nbytes nbytes' : ℕ} {es : List (ℕ × ℕ)}
    (h : ∀ e ∈ es, (e.1 + e.2 = ptr ∨ e.1 = ptr + nbytes) ↔ (e.1 + e.2 = ptr' ∨ e.1 = ptr' + nbytes')) :
    adjoining ptr nbytes es = adjoining ptr' nbytes' es := by
  rw [adjoining, adjoining, filter_congr fun e he => decide_eq_decide.2 (h e he)]

theorem adjoining_eq_zero {ptr nbytes : ℕ} (es : List (ℕ × ℕ))
    (h : ∀ e ∈ es, e.1 + e.2 ≠ ptr ∧ e.1 ≠ ptr + nbytes) : adjoining ptr nbytes es = 0 := by
  rw [adjoining, filter_eq_nil_iff.2 fun e he => by simpa using h e he]
  rfl

/-- What the search of `kmem_free` leaves: the tree without the neighbours of a block,
    and the block with them. -/
structure Coalesced (t : Freehdr) (ptr nbytes : ℕ) (r : Freehdr × ℕ × ℕ) : Prop where
  heap : r.1.Heap
  weight : r.1.weight ≤ t.weight
  sublist : r.1.inorder.Sublist t.inorder
  pos : 0 < r.2.2
  start_le : r.2.1 ≤ ptr
  le_end : ptr + nbytes ≤ r.2.1 + r.2.2
  size : r.2.2 = nbytes + adjoining ptr nbytes t.inorder
  bytes : free r.1 ∪ Set.Ico r.2.1 (r.2.1 + r.2.2) = free t ∪ Set.Ico ptr (ptr + nbytes)
  apart : ∀ e ∈ r.1.inorder, e.1 + e.2 < r.2.1 ∨ r.2.1 + r.2.2 < e.1

variable {l r t : Freehdr} {b s ptr nbytes : ℕ}

/-- Coalescing in the tree without a node that is joined with the block. -/
theorem Coalesced.of_merge (h : NodeOrder l b s r)
    (hq : Coalesced (l.merge r) ptr' (nbytes + s) q) (hpos : 0 < nbytes)
    (hadj : ptr' = ptr ∧ ptr + nbytes = b ∨ ptr' = b ∧ b + s = ptr)
    (hjoin : Set.Ico ptr' (ptr' + (nbytes + s)) = Set.Ico b (b + s) ∪ Set.Ico ptr (ptr + nbytes)) :
    Coalesced (.node l b s r) ptr nbytes q := by
  have hst := hq.start_le
  have hend := hq.le_end
  refine ⟨hq.heap, hq.weight.trans ?_, hq.sublist.trans ?_, hq.pos, by omega, by omega, ?_, ?_, hq.apart⟩
  · rw [Cartesian.weight_merge, Cartesian.weight_node]
    exact max_le h.left_le h.right_le
  · rw [Cartesian.inorder_merge, Cartesian.inorder_node]
    exact (List.Sublist.refl _).append (sublist_cons_self _ _)
  · have hl : adjoining ptr' (nbytes + s) l.inorder = adjoining ptr nbytes l.inorder :=
      adjoining_congr fun e he => by
        have := h.left_lt e he
        omega
    have hr : adjoining ptr' (nbytes + s) r.inorder = adjoining ptr nbytes r.inorder :=
      adjoining_congr fun e he => by
        have := h.lt_right e he
        omega
    rw [hq.size, Cartesian.inorder_merge, Cartesian.inorder_node, adjoining_append,
      adjoining_append, adjoining_cons, hl, hr, if_pos (by simp only; omega)]
    simp only
    omega
  · rw [hq.bytes, free_merge, free_node, hjoin]
    ac_rfl

/-- A block that is not free is found a place, and no sanity check fails. -/
theorem coalesce_spec (ht : WellFormed t) (hpos : 0 < nbytes)
    (hd : Disjoint (Set.Ico ptr (ptr + nbytes)) (free t)) :
    ∃ q, coalesce ptr nbytes t = .ok q ∧ Coalesced t ptr nbytes q := by
  induction hn : t.count using Nat.strong_induction_on generalizing t ptr nbytes with
  | h n ih =>
  subst hn
  cases t with
  | nil => exact ⟨_, by rw [coalesce], Cartesian.heap_nil, le_rfl, .refl _, hpos, le_rfl, le_rfl, rfl, rfl, by simp⟩
  | node l b s r =>
    have hnode := ht.node
    have hspos := hnode.pos
    have hlt : ∀ u ∈ free l, u + 1 < b := fun u => lt_of_mem_cover hnode.left_lt
    have hgt : ∀ u ∈ free r, b + s < u := fun u => gt_of_mem_cover hnode.lt_right
    rw [free_node, Set.disjoint_union_right, Set.disjoint_union_right] at hd
    obtain ⟨hdl, hdb, hdr⟩ := hd
    have hapart : ptr + nbytes ≤ b ∨ b + s ≤ ptr := by
      by_contra h
      have hmem : max ptr b ∈ Set.Ico ptr (ptr + nbytes) := ⟨by omega, by omega⟩
      exact Set.disjoint_left.1 hdb hmem ⟨by omega, by omega⟩
    have hmerge : (l.merge r).count < (Cartesian.node l b s r).count := by
      rw [Cartesian.count_merge, Cartesian.count]
      omega
    -- the block with the node is not free in the rest of the tree
    have hrs : ∀ u, u ∈ Set.Ico b (b + s) ∪ Set.Ico ptr (ptr + nbytes) → u ∉ free (l.merge r) := by
      rintro u (hu | hu) hf
      · rw [free_merge] at hf
        have h1 := hu.1
        have h2 := hu.2
        rcases hf with hf | hf
        · have := hlt u hf
          omega
        · have := hgt u hf
          omega
      · rw [free_merge] at hf
        exact hf.elim (Set.disjoint_left.1 hdl hu) (Set.disjoint_left.1 hdr hu)
    rw [coalesce]
    by_cases hside : ptr < b
    · rw [if_pos hside]
      by_cases hadj : ptr + nbytes = b
      · have hjoin : Set.Ico ptr (ptr + (nbytes + s)) =
            Set.Ico b (b + s) ∪ Set.Ico ptr (ptr + nbytes) := by
          ext u
          simp only [Set.mem_union, Set.mem_Ico]
          omega
        obtain ⟨q, hq, hc⟩ := @ih _ hmerge _ ptr (nbytes + s) hnode.merge (by omega)
          (Set.disjoint_left.2 fun u hu => hrs u (hjoin ▸ hu)) rfl
        exact ⟨q, by rw [if_pos hadj, hq], hc.of_merge hnode hpos (.inl ⟨rfl, hadj⟩) hjoin⟩
      · obtain ⟨q, hq, hc⟩ := ih _ (by rw [Cartesian.count]; omega) hnode.left hpos hdl rfl
        refine ⟨(.node q.1 b s r, q.2), ?_, ?_⟩
        · rw [if_neg hadj, if_neg (by omega), hq]
          rfl
        · have hend : q.2.1 + q.2.2 < b := by
            have hqpos := hc.pos
            have hmem : q.2.1 + q.2.2 - 1 ∈ free l ∪ Set.Ico ptr (ptr + nbytes) :=
              hc.bytes ▸ .inr ⟨by omega, by omega⟩
            rcases hmem with hmem | ⟨-, hmem⟩
            · have := hlt _ hmem
              omega
            · omega
          refine ⟨⟨hc.weight.trans hnode.left_le, hnode.right_le, hc.heap, hnode.right.heap⟩, le_rfl,
            hc.sublist.append (.refl _), hc.pos, hc.start_le, hc.le_end, ?_, ?_,
            forall_mem_append.2 ⟨hc.apart, forall_mem_cons.2 ⟨.inr hend, fun e he => .inr ?_⟩⟩⟩
          · rw [Cartesian.inorder_node, adjoining_append, adjoining_eq_zero ((b, s) :: _)
              (forall_mem_cons.2 ⟨by simp only; omega, fun e he => by
                have := hnode.lt_right e he
                omega⟩)]
            exact hc.size
          · rw [free_node, free_node, Set.union_right_comm, hc.bytes, Set.union_right_comm]
          · have := hnode.lt_right e he
            have hend' : (Cartesian.node q.1 b s r, q.2).2.1 + (Cartesian.node q.1 b s r, q.2).2.2 < b :=
              hend
            omega
    · have hge : b + s ≤ ptr := hapart.resolve_left (by omega)
      rw [if_neg hside, if_pos (by omega)]
      by_cases hadj : b + s = ptr
      · have hjoin : Set.Ico b (b + (nbytes + s)) =
            Set.Ico b (b + s) ∪ Set.Ico ptr (ptr + nbytes) := by
          ext u
          simp only [Set.mem_union, Set.mem_Ico]
          omega
        obtain ⟨q, hq, hc⟩ := @ih _ hmerge _ b (nbytes + s) hnode.merge (by omega)
          (Set.disjoint_left.2 fun u hu => hrs u (hjoin ▸ hu)) rfl
        exact ⟨q, by rw [if_pos hadj, hq], hc.of_merge hnode hpos (.inr ⟨rfl, hadj⟩) hjoin⟩
      · obtain ⟨q, hq, hc⟩ := ih _ (by rw [Cartesian.count]; omega) hnode.right hpos hdr rfl
        refine ⟨(.node l b s q.1, q.2), ?_, ?_⟩
        · rw [if_neg hadj, if_neg (by omega), hq]
          rfl
        · have hst : b + s < q.2.1 := by
            have hqpos := hc.pos
            have hmem : q.2.1 ∈ free r ∪ Set.Ico ptr (ptr + nbytes) :=
              hc.bytes ▸ .inr ⟨le_rfl, by omega⟩
            rcases hmem with hmem | ⟨hmem, -⟩
            · exact hgt _ hmem
            · omega
          refine ⟨⟨hnode.left_le, hc.weight.trans hnode.right_le, hnode.left.heap, hc.heap⟩, le_rfl,
            (List.Sublist.refl _).append (hc.sublist.cons_cons _), hc.pos, hc.start_le, hc.le_end, ?_, ?_,
            forall_mem_append.2 ⟨fun e he => .inl ?_, forall_mem_cons.2
              ⟨.inl hst, hc.apart⟩⟩⟩
          · rw [Cartesian.inorder_node, adjoining_append, adjoining_cons, adjoining_eq_zero l.inorder
              (fun e he => by
                have := hnode.left_lt e he
                omega), if_neg (by simp only; omega), zero_add, zero_add]
            exact hc.size
          · simp only [free_node, Set.union_assoc, hc.bytes]
          · have := hnode.left_lt e he
            have hst' : b + s < (Cartesian.node l b s q.1, q.2).2.1 := hst
            omega

/-- A block that is not free, within the bounds of the arena, becomes free. -/
theorem kmemFree_spec (usrpt : ℕ) (ht : WellFormed t) (hd : Disjoint (Set.Ico ptr (ptr + nbytes)) (free t))
    (hlo : 0 < nbytes → usrpt ≤ ptr) (hhi : 0 < nbytes → ptr ≤ usrpt + USRPTSIZE * NBPG) :
    ∃ t', kmemFree usrpt ptr nbytes t = .ok t' ∧ WellFormed t' ∧
      free t' = free t ∪ Set.Ico ptr (ptr + nbytes) := by
  rcases Nat.eq_zero_or_pos nbytes with rfl | hpos
  · exact ⟨t, if_pos rfl, ht, by simp⟩
  · have hlo := hlo hpos
    have hhi := hhi hpos
    obtain ⟨⟨t', p, n⟩, hq, hc⟩ := coalesce_spec ht hpos hd
    have hap : Apart t'.inorder := ht.apart.sublist hc.sublist
    have ht' : WellFormed t' := ⟨hc.heap, hap⟩
    obtain ⟨u, v, huv, hins, hu, hv⟩ := Cartesian.inorder_insert p n ht'.ordered
    have hapart := hc.apart
    have hnpos : 0 < n := hc.pos
    simp only [huv, forall_mem_append] at hapart
    refine ⟨t'.insert p n, ?_, ⟨Cartesian.heap_insert p n hc.heap, ?_⟩, ?_⟩
    · rw [kmemFree, if_neg hpos.ne', if_neg (by omega), hq]
      rfl
    · rw [hins]
      refine (huv ▸ hap).insert (by simpa using hnpos) (fun e he => ?_) fun e he => ?_
      · have := hu e he
        have := hapart.1 e he
        simp only
        omega
      · have := hv e he
        have := hapart.2 e he
        simp only
        omega
    · have hins' : free (t'.insert p n) = free t' ∪ Set.Ico p (p + n) := by
        rw [free, free, hins, huv, cover_append, cover_append, cover_cons, Set.union_assoc,
          Set.union_comm (cover blockBytes v)]
        rfl
      rw [hins', hc.bytes]

/-! ### Allocating -/

/-- The root is large enough for `nbytes` from a word on, or just as large, or a son of
    it is large enough. -/
def Suitable (nbytes : ℕ) : Freehdr → Prop
  | .nil => False
  | .node l b s r => nbytes ≤ mweight (.node l b s r) ∨ s = nbytes ∨ nbytes ≤ mweight l ∨
      nbytes ≤ mweight r

instance (nbytes : ℕ) : DecidablePred (Suitable nbytes)
  | .nil => inferInstanceAs (Decidable False)
  | .node .. => inferInstanceAs (Decidable (_ ∨ _))

/-- What is taken of the tree `t`: `nbytes` free bytes, of which a tail is to be freed again. -/
structure Taken (t : Freehdr) (nbytes : ℕ) (q : Split) : Prop where
  wellFormed : WellFormed q.tree
  weight : q.tree.weight ≤ t.weight
  block : Set.Ico q.retblock (q.retblock + nbytes) ⊆ free t
  bytes : free q.tree ∪ Set.Ico q.tail.1 (q.tail.1 + q.tail.2) =
    free t \ Set.Ico q.retblock (q.retblock + nbytes)
  tail : Disjoint (Set.Ico q.tail.1 (q.tail.1 + q.tail.2)) (free q.tree)

/-- A tree of fewer bytes ends before what the bytes are before. -/
theorem WellFormed.end_lt {l' : Freehdr} (h : WellFormed l') (hlt : ∀ u ∈ free l', u + 1 < b) :
    ∀ e ∈ l'.inorder, e.1 + e.2 < b := fun e he => by
  have hpos := h.apart.nonempty e he
  have hlast : e.1 + e.2 - 1 ∈ free l' := ⟨e, he, mem_blockBytes.2 ⟨by omega, by omega⟩⟩
  have := hlt _ hlast
  omega

/-- A tree of fewer bytes starts after what the bytes are after. -/
theorem WellFormed.lt_start {r' : Freehdr} {x : ℕ} (h : WellFormed r') (hlt : ∀ u ∈ free r', x < u) :
    ∀ e ∈ r'.inorder, x < e.1 := fun e he =>
  hlt _ ⟨e, he, mem_blockBytes.2 ⟨le_rfl, h.apart.nonempty e he⟩⟩

theorem NodeOrder.lt_left (h : NodeOrder l b s r) : ∀ u ∈ free l, u + 1 < b :=
  fun _ => lt_of_mem_cover h.left_lt

theorem NodeOrder.right_gt (h : NodeOrder l b s r) : ∀ u ∈ free r, b + s < u :=
  fun _ => gt_of_mem_cover h.lt_right

/-- Taking from the left son. -/
theorem Taken.of_left {q : Split} (h : NodeOrder l b s r) (hq : Taken l nbytes q) :
    Taken (.node l b s r) nbytes { q with tree := .node q.tree b s r } := by
  have hsub : free q.tree ⊆ free l := fun u hu =>
    (hq.bytes.subset (.inl hu)).1
  have htail : Set.Ico q.tail.1 (q.tail.1 + q.tail.2) ⊆ free l := fun u hu =>
    (hq.bytes.subset (.inr hu)).1
  have hrs : Disjoint (free l) (Set.Ico b (b + s) ∪ free r) := Set.disjoint_left.2 fun u hu hu' => by
    have := h.lt_left u hu
    rcases hu' with hu' | hu'
    · have := hu'.1
      omega
    · have := h.right_gt u hu'
      omega
  refine ⟨⟨⟨hq.weight.trans h.left_le, h.right_le, hq.wellFormed.heap, h.right.heap⟩, ?_⟩, le_rfl, ?_, ?_, ?_⟩
  · refine separated_append.2 ⟨hq.wellFormed.apart, separated_cons.2 ⟨by have := h.pos; omega,
      h.right.apart, h.lt_right⟩, fun e he => ?_⟩
    have hend := hq.wellFormed.end_lt (fun u hu => h.lt_left u (hsub hu)) e he
    refine forall_mem_cons.2 ⟨hend, fun e' he' => ?_⟩
    have := h.lt_right e' he'
    omega
  · rw [free_node]
    exact hq.block.trans Set.subset_union_left
  · rw [free_node, free_node, Set.union_right_comm, hq.bytes, Set.union_sdiff_distrib,
      (hrs.mono_left hq.block).sdiff_eq_right]
  · rw [free_node]
    exact Set.disjoint_union_right.2 ⟨hq.tail, hrs.mono_left htail⟩

/-- Taking from the right son. -/
theorem Taken.of_right {q : Split} (h : NodeOrder l b s r) (hq : Taken r nbytes q) :
    Taken (.node l b s r) nbytes { q with tree := .node l b s q.tree } := by
  have hsub : free q.tree ⊆ free r := fun u hu =>
    (hq.bytes.subset (.inl hu)).1
  have htail : Set.Ico q.tail.1 (q.tail.1 + q.tail.2) ⊆ free r := fun u hu =>
    (hq.bytes.subset (.inr hu)).1
  have hrs : Disjoint (free r) (free l ∪ Set.Ico b (b + s)) := Set.disjoint_left.2 fun u hu hu' => by
    have := h.right_gt u hu
    rcases hu' with hu' | hu'
    · have := h.lt_left u hu'
      omega
    · have := hu'.2
      omega
  have hst := hq.wellFormed.lt_start fun u hu => h.right_gt u (hsub hu)
  refine ⟨⟨⟨h.left_le, hq.weight.trans h.right_le, h.left.heap, hq.wellFormed.heap⟩, ?_⟩, le_rfl, ?_, ?_, ?_⟩
  · refine separated_append.2 ⟨h.left.apart, separated_cons.2 ⟨by have := h.pos; omega,
      hq.wellFormed.apart, hst⟩, fun e he => ?_⟩
    have hend := h.left_lt e he
    refine forall_mem_cons.2 ⟨hend, fun e' he' => ?_⟩
    have := hst e' he'
    omega
  · rw [free_node, ← Set.union_assoc]
    exact hq.block.trans Set.subset_union_right
  · rw [free_node, free_node, ← Set.union_assoc, ← Set.union_assoc, Set.union_assoc _ (free q.tree),
      hq.bytes, Set.union_sdiff_distrib, (hrs.mono_left hq.block).sdiff_eq_right]
  · rw [free_node, ← Set.union_assoc]
    exact Set.disjoint_union_right.2 ⟨hrs.mono_left htail, hq.tail⟩

/-- A part of a node, in the place of the node. -/
theorem NodeOrder.demote (h : NodeOrder l b s r) (b' s' : ℕ) (hpos : 0 < s') (hlo : b ≤ b')
    (hhi : b' + s' ≤ b + s) :
    WellFormed (.demote b' s' l r) ∧ (Cartesian.demote b' s' l r).weight ≤ s := by
  refine ⟨⟨Cartesian.heap_demote b' s' h.left.heap h.right.heap, ?_⟩, ?_⟩
  · rw [Cartesian.inorder_demote]
    refine separated_append.2 ⟨h.left.apart, separated_cons.2 ⟨by omega, h.right.apart, fun e he => ?_⟩,
      fun e he => forall_mem_cons.2 ⟨?_, h.left_right e he⟩⟩
    · have := h.lt_right e he
      omega
    · have := h.left_lt e he
      omega
  · have := h.left_le
    have := h.right_le
    rw [Cartesian.weight_demote]
    omega

/-- The node selected is large enough. -/
theorem takeNode_spec (ht : WellFormed (.node l b s r)) (hpos : 0 < nbytes)
    (hsize : nbytes ≤ mweight (.node l b s r) ∨ s = nbytes) :
    Taken (.node l b s r) nbytes (takeNode nbytes l b s r) := by
  have hnode := ht.node
  have hlt := hnode.lt_left
  have hgt := hnode.right_gt
  have hmore : 0 < alignmore b := by
    have : b % align < align := Nat.mod_lt _ (by decide)
    rw [alignmore]
    omega
  rw [mweight] at hsize
  rw [takeNode]
  by_cases hall : s = nbytes
  · subst hall
    rw [if_pos rfl]
    refine ⟨hnode.merge, ?_, ?_, ?_, by simp⟩
    · rw [Cartesian.weight_merge]
      exact max_le hnode.left_le hnode.right_le
    · rw [free_node]
      exact fun u hu => .inr (.inl hu)
    · ext u
      have := hlt u
      have := hgt u
      simp only [free_merge, free_node, Set.mem_union, Set.mem_sdiff, Set.mem_Ico]
      grind
  · have hsize := hsize.resolve_right hall
    rw [if_neg hall]
    by_cases hodd : b % align ≠ 0 ∧ s > alignmore b
    · -- the part before the next word stays free, and what is left after the block
      rw [if_pos hodd] at hsize ⊢
      obtain ⟨hwf, hwei⟩ := hnode.demote b _ hmore le_rfl (by omega)
      have htail : ∀ u, u ∈ Set.Ico (if s > nbytes + alignmore b then
            (b + (nbytes + alignmore b), s - (nbytes + alignmore b)) else (0, 0)).1
          ((if s > nbytes + alignmore b then
            (b + (nbytes + alignmore b), s - (nbytes + alignmore b)) else (0, 0)).1 +
          (if s > nbytes + alignmore b then
            (b + (nbytes + alignmore b), s - (nbytes + alignmore b)) else (0, 0)).2) ↔
          b + (nbytes + alignmore b) ≤ u ∧ u < b + s := fun u => by
        split_ifs <;> simp only [Set.mem_Ico] <;> omega
      refine ⟨hwf, hwei, ?_, ?_, Set.disjoint_left.2 fun u hu hf => ?_⟩
      · rw [free_node]
        exact fun u hu => .inr (.inl ⟨by have := hu.1; simp only at this; omega,
          by have := hu.2; simp only at this; omega⟩)
      · ext u
        have := hlt u
        have := hgt u
        have := htail u
        simp only [free_demote, free_node, Set.mem_union, Set.mem_sdiff, Set.mem_Ico] at *
        grind
      · have := (htail u).1 hu
        rw [free_demote] at hf
        rcases hf with hf | hf | hf
        · have := hlt u hf
          omega
        · have := hf.2
          omega
        · have := hgt u hf
          omega
    · rw [if_neg hodd] at hsize ⊢
      obtain ⟨hwf, hwei⟩ := hnode.demote (b + nbytes) (s - nbytes) (by omega) (by omega)
        (by omega)
      refine ⟨hwf, hwei, ?_, ?_, by simp⟩
      · rw [free_node]
        exact fun u hu => .inr (.inl ⟨hu.1, by have := hu.2; simp only at this; omega⟩)
      · ext u
        have := hlt u
        have := hgt u
        simp only [free_demote, free_node, Set.mem_union, Set.mem_sdiff, Set.mem_Ico]
        grind

theorem suitable_of_mweight (hpos : 0 < nbytes) (h : nbytes ≤ mweight t) : Suitable nbytes t := by
  cases t with
  | nil => exact absurd h (by simp [mweight]; omega)
  | node => exact .inl h

/-- In a suitable tree the search finds a block to take. -/
theorem descend_spec (ht : WellFormed t) (hpos : 0 < nbytes) (hsuit : Suitable nbytes t) :
    ∃ q, descend nbytes t = some q ∧ Taken t nbytes q := by
  induction t with
  | nil => exact hsuit.elim
  | node l b s r ihl ihr =>
    have hnode := ht.node
    have hleft : nbytes ≤ mweight l → ∃ q, (descend nbytes l).map
        (fun q => { q with tree := .node q.tree b s r }) = some q ∧ Taken (.node l b s r) nbytes q :=
      fun h => by
        obtain ⟨q, hq, htkn⟩ := ihl hnode.left (suitable_of_mweight hpos h)
        exact ⟨_, by rw [hq]; rfl, htkn.of_left hnode⟩
    have hrgt : nbytes ≤ mweight r → ∃ q, (descend nbytes r).map
        (fun q => { q with tree := .node l b s q.tree }) = some q ∧ Taken (.node l b s r) nbytes q :=
      fun h => by
        obtain ⟨q, hq, htkn⟩ := ihr hnode.right (suitable_of_mweight hpos h)
        exact ⟨_, by rw [hq]; rfl, htkn.of_right hnode⟩
    rw [descend]
    split_ifs with hson hcmp hl hr
    · exact hleft hl
    · exact hrgt (hson.resolve_left hl)
    · exact hrgt hr
    · exact hleft (hson.resolve_right hr)
    · refine ⟨_, rfl, takeNode_spec ht hpos ?_⟩
      rcases hsuit with h | h | h | h
      · exact .inl h
      · exact .inr h
      · exact absurd (.inl h) hson
      · exact absurd (.inr h) hson

/-- In a tree that is long enough at the root but not suitable, the search stops at the
    root, and the block it takes ends beyond what is free. -/
theorem descend_overrun (ht : WellFormed t) (hpos : 0 < nbytes) (hlong : nbytes ≤ t.weight)
    (hsuit : ¬Suitable nbytes t) : ∃ q, descend nbytes t = some q ∧ q.tail = (0, 0) ∧
      ¬Set.Ico q.retblock (q.retblock + nbytes) ⊆ free t := by
  cases t with
  | nil => simp at hlong; omega
  | node l b s r =>
    have hnode := ht.node
    rw [Cartesian.weight_node] at hlong
    simp only [Suitable, not_or, not_le] at hsuit
    obtain ⟨hroot, hne, hl, hr⟩ := hsuit
    rw [mweight] at hroot
    split_ifs at hroot with hodd
    · refine ⟨_, by rw [descend, if_neg (by omega)], ?_, fun hsub => ?_⟩
      · rw [takeNode, if_neg hne, if_pos hodd]
        exact if_neg (by omega)
      · rw [takeNode, if_neg hne, if_pos hodd] at hsub
        have hend : b + s ∈ free (.node l b s r) := hsub ⟨by simp only; omega, by simp only; omega⟩
        rw [free_node] at hend
        rcases hend with h | h | h
        · have := hnode.lt_left _ h
          omega
        · exact lt_irrefl _ h.2
        · exact lt_irrefl _ (hnode.right_gt _ h)
    · omega

/-- The pages `kmem_alloc` gets, at `p`, if the root is not large enough. -/
def pages (nbytes p : ℕ) (root : Freehdr) : Set ℕ :=
  if mweight root < nbytes then Set.Ico p (p + morecoreSize nbytes) else ∅

/-- The bytes of the arena. -/
def arena (usrpt : ℕ) : Set ℕ := Set.Ico usrpt (usrpt + USRPTSIZE * NBPG)

theorem le_morecoreSize {nbytes : ℕ} (hint : nbytes < 2 ^ 32) (hsome : morecoreSize nbytes ≠ 0) :
    nbytes ≤ morecoreSize nbytes := by
  rw [morecoreSize, CLBYTES] at *
  omega

/-- The tree the search starts from. -/
theorem ensure_spec (ht : WellFormed t) (hpgs : pages nbytes p t ⊆ arena usrpt)
    (hfrs : Disjoint (pages nbytes p t) (free t))
    (hsome : mweight t < nbytes → morecoreSize nbytes ≠ 0) :
    ∃ t1, ensure usrpt nbytes p t = .ok t1 ∧ WellFormed t1 ∧ free t1 = free t ∪ pages nbytes p t := by
  rw [pages] at hpgs hfrs ⊢
  rw [ensure]
  split_ifs at hpgs hfrs ⊢ with hmore
  · have hsome := hsome hmore
    have hmem : p ∈ arena usrpt := hpgs ⟨le_rfl, by omega⟩
    obtain ⟨t1, h1, hwf, hfree⟩ := kmemFree_spec _ ht hfrs (fun _ => hmem.1) fun _ => hmem.2.le
    exact ⟨t1, by rw [morecore, if_neg hsome, h1], hwf, hfree⟩
  · exact ⟨t, rfl, ht, (Set.union_empty _).symm⟩

/-- The pages got do not make a tree suitable: its root is longer than the request, but too
    short from its first word on; the sons are too short; and the pages, with
    the blocks they adjoin, become no son of it, being below the son they are on the side of. -/
def Overruns (nbytes p : ℕ) : Freehdr → Prop
  | .nil => False
  | .node l b s r => mweight (.node l b s r) < nbytes ∧ nbytes < s ∧ mweight l < nbytes ∧
      mweight r < nbytes ∧ p + morecoreSize nbytes ≠ b ∧ b + s ≠ p ∧
      morecoreSize nbytes + adjoining p (morecoreSize nbytes) (if p < b then l else r).inorder ≤
        (if p < b then l else r).weight

instance (nbytes p : ℕ) : DecidablePred (Overruns nbytes p)
  | .nil => inferInstanceAs (Decidable False)
  | .node .. => inferInstanceAs (Decidable (_ ∧ _))

/-- Only a root that is too short for the request is overrun. -/
theorem Overruns.short (h : Overruns nbytes p t) : mweight t < nbytes := by
  cases t with
  | nil => exact h.elim
  | node => exact h.1

/-- What the search of `kmem_free` does to the root: it is joined with the block, or stays. -/
theorem coalesce_node (h : coalesce ptr nbytes (.node l b s r) = .ok q) :
    (ptr + nbytes = b ∨ b + s = ptr) ∨
      (ptr < b ∧ ptr + nbytes ≠ b ∧ ∃ l', coalesce ptr nbytes l = .ok (l', q.2) ∧ q.1 = .node l' b s r) ∨
      b < ptr ∧ b + s ≠ ptr ∧ ∃ r', coalesce ptr nbytes r = .ok (r', q.2) ∧ q.1 = .node l b s r' := by
  rw [coalesce] at h
  split_ifs at h with hlt hadj _ hgt hadj
  · exact .inl (.inl hadj)
  · cases hl : coalesce ptr nbytes l with
    | error => simp [hl, Except.map] at h
    | ok q' =>
      obtain rfl : _ = q := by simpa [hl, Except.map] using h
      exact .inr (.inl ⟨hlt, hadj, q'.1, rfl, rfl⟩)
  · exact .inl (.inr hadj)
  · cases hr : coalesce ptr nbytes r with
    | error => simp [hr, Except.map] at h
    | ok q' =>
      obtain rfl : _ = q := by simpa [hr, Except.map] using h
      exact .inr (.inr ⟨hgt, hadj, q'.1, rfl, rfl⟩)

/-- A block around `nbytes` bytes that start on a word boundary. -/
theorem le_mweight (hptr : ptr % align = 0) (hlo : a ≤ ptr) (hhi : ptr + nbytes ≤ a + n)
    (l r : Freehdr) : nbytes ≤ mweight (.node l a n r) := by
  have hmore : a % align ≠ 0 → alignmore a ≤ ptr - a := by
    rw [alignmore, align] at *
    omega
  rw [mweight]
  split_ifs with h
  · have := hmore h.1
    omega
  · omega

/-- A block longer than the root becomes the root. -/
theorem insert_root (h : t.weight < n) : ∃ l r, t.insert a n = .node l a n r := by
  cases t with
  | nil => exact ⟨_, _, rfl⟩
  | node l b s r => exact ⟨_, _, if_neg (not_le.2 h)⟩

/-- A block freed is at the root, if it is longer than the root with what it adjoins, or
    leaves the root as it is. -/
theorem Coalesced.insert_root (hq : coalesce ptr nbytes t = .ok q)
    (hc : Coalesced t ptr nbytes q) (hpos : 0 < nbytes) :
    (t.weight < q.2.2 ∧ ∃ l r, q.1.insert q.2.1 q.2.2 = .node l q.2.1 q.2.2 r) ∨
      q.2.2 ≤ t.weight ∧ mweight (q.1.insert q.2.1 q.2.2) = mweight t := by
  rcases lt_or_ge t.weight q.2.2 with h | h
  · exact .inl ⟨h, Kmem.insert_root (hc.weight.trans_lt h)⟩
  · refine .inr ⟨h, ?_⟩
    cases t with
    | nil =>
      have := hc.pos
      rw [Cartesian.weight_nil] at h
      omega
    | node l b s r =>
      rw [Cartesian.weight_node] at h
      rcases coalesce_node hq with hadj | ⟨-, -, l', -, hroot⟩ | ⟨-, -, r', -, hroot⟩
      · have hsize := hc.size
        rw [Cartesian.inorder_node, adjoining_append, adjoining_cons, if_pos (by simp only; omega)]
          at hsize
        simp only at hsize
        omega
      all_goals
        rw [hroot, Cartesian.insert, if_pos h]
        split_ifs <;> rfl

/-- The tree the search starts from is not suitable exactly if the root is overrun. -/
theorem suitable_iff (ht : WellFormed t) (hpos : 0 < nbytes)
    (hint : nbytes < 2 ^ 32) (hpage : mweight t < nbytes → p % NBPG = 0)
    (hpgs : pages nbytes p t ⊆ arena usrpt) (hfrs : Disjoint (pages nbytes p t) (free t))
    (hsome : mweight t < nbytes → morecoreSize nbytes ≠ 0)
    (h1 : ensure usrpt nbytes p t = .ok t1) : Suitable nbytes t1 ↔ ¬Overruns nbytes p t := by
  by_cases hmore : mweight t < nbytes
  · have hle := le_morecoreSize hint (hsome hmore)
    rw [pages, if_pos hmore] at hpgs hfrs
    have hmem : p ∈ arena usrpt := hpgs ⟨le_rfl, by omega⟩
    have hword : p % align = 0 := by
      have := hpage hmore
      rw [NBPG] at this
      rw [align]
      omega
    -- the root holds the pages, or they go below it
    have hbig : ∀ {u : Freehdr} {q : Freehdr × ℕ × ℕ}, Coalesced u p (morecoreSize nbytes) q →
        ∀ l r, nbytes ≤ mweight (.node l q.2.1 q.2.2 r) := fun hc l r =>
      hle.trans (le_mweight hword hc.start_le hc.le_end l r)
    have hson : ∀ {u u' : Freehdr} {q : ℕ × ℕ}, coalesce p (morecoreSize nbytes) u = .ok (u', q) →
        Coalesced u p (morecoreSize nbytes) (u', q) → (mweight (u'.insert q.1 q.2) < nbytes ↔
          mweight u < nbytes ∧
            morecoreSize nbytes + adjoining p (morecoreSize nbytes) u.inorder ≤ u.weight) :=
      fun hq hc => by
        have hsize := hc.size
        rcases hc.insert_root hq (hpos.trans_le hle) with ⟨hlt, l, r, hroot⟩ | ⟨hle, hwei⟩
        · have := hbig hc l r
          rw [hroot]
          simp only at *
          omega
        · simp only at *
          omega
    obtain ⟨q, hq, hc⟩ := coalesce_spec ht (hpos.trans_le hle) hfrs
    obtain rfl : q.1.insert q.2.1 q.2.2 = t1 := by
      rw [ensure, if_pos hmore, morecore, if_neg (hsome hmore), kmemFree, if_neg (hsome hmore),
        if_neg (by have := hmem.1; have := hmem.2; omega), hq] at h1
      exact ok.inj h1
    have htop : t.weight < q.2.2 → Suitable nbytes (q.1.insert q.2.1 q.2.2) := fun hn => by
      obtain ⟨l, r, hroot⟩ := insert_root (a := q.2.1) (hc.weight.trans_lt hn)
      rw [hroot]
      exact .inl (hbig hc l r)
    cases t with
    | nil => exact iff_of_true (htop hc.pos) id
    | node l b s r =>
      have hnode := ht.node
      have hleft := hnode.left_le
      have hrgt := hnode.right_le
      rw [free_node, Set.disjoint_union_right, Set.disjoint_union_right] at hfrs
      rw [Cartesian.weight_node] at htop
      rcases coalesce_node hq with hadj | ⟨hlt, hne, l', hl, hroot⟩ | ⟨hlt, hne, r', hr, hroot⟩
      · have hsize := hc.size
        rw [Cartesian.inorder_node, adjoining_append, adjoining_cons, if_pos (by simp only; omega)]
          at hsize
        simp only at hsize
        exact iff_of_true (htop (by omega)) fun h => hadj.elim h.2.2.2.2.1 h.2.2.2.2.2.1
      · obtain ⟨_, hl', hcl⟩ := coalesce_spec hnode.left (hpos.trans_le hle) hfrs.1
        obtain rfl := ok.inj (hl.symm.trans hl')
        have hsize : q.2.2 = _ := hcl.size
        have hson := hson hl hcl
        have hst := hc.start_le
        simp only [Overruns, if_pos hlt]
        by_cases hn : q.2.2 ≤ s
        · have hsame : mweight (.node (l'.insert q.2.1 q.2.2) b s r) = mweight (.node l b s r) := rfl
          rw [hroot, Cartesian.insert, if_pos hn, if_pos (by omega), Suitable]
          omega
        · exact iff_of_true (htop (by omega)) (by omega)
      · obtain ⟨_, hr', hcr⟩ := coalesce_spec hnode.right (hpos.trans_le hle) hfrs.2.2
        obtain rfl := ok.inj (hr.symm.trans hr')
        have hsize : q.2.2 = _ := hcr.size
        have hson := hson hr hcr
        simp only [Overruns, if_neg (not_lt.2 hlt.le)]
        by_cases hn : q.2.2 ≤ s
        · have hsame : mweight (.node l b s (r'.insert q.2.1 q.2.2)) = mweight (.node l b s r) := rfl
          have hend := hc.le_end
          have hapart := hc.apart (b, s) (by rw [hroot]; simp)
          rw [hroot, Cartesian.insert, if_pos hn, if_neg (by omega), Suitable]
          omega
        · exact iff_of_true (htop (by omega)) (by omega)
  · rw [ensure, if_neg hmore] at h1
    cases h1
    exact iff_of_true (suitable_of_mweight hpos (not_lt.1 hmore)) fun h => hmore h.short

/-- The root of the tree the search starts from is long enough. -/
theorem le_weight_of_ensure (hpos : 0 < nbytes) (hint : nbytes < 2 ^ 32)
    (hsome : mweight t < nbytes → morecoreSize nbytes ≠ 0)
    (h1 : ensure usrpt nbytes p t = .ok t1) (hwf : WellFormed t1)
    (hfree : free t1 = free t ∪ pages nbytes p t) (hsuit : ¬Suitable nbytes t1) :
    nbytes ≤ t1.weight := by
  by_cases hmore : mweight t < nbytes
  · have hle := le_morecoreSize hint (hsome hmore)
    rw [pages, if_pos hmore] at hfree
    obtain ⟨e, he, hlo, hhi⟩ := hwf.apart.exists_of_subset (a := p) (b := p + morecoreSize nbytes)
      (by omega) (Set.subset_union_right.trans hfree.superset)
    have := hwf.heap.size_le e he
    omega
  · rw [ensure, if_neg hmore] at h1
    cases h1
    exact absurd (suitable_of_mweight hpos (not_lt.1 hmore)) hsuit

/-- What `kmem_alloc` does to the tree: the block returned was free, or is from the pages
    got, and nothing else is free no longer. -/
structure Allocated (t : Freehdr) (nbytes p : ℕ) (r : Freehdr × ℕ) : Prop where
  wellFormed : WellFormed r.1
  block : Set.Ico r.2 (r.2 + nbytes) ⊆ free t ∪ pages nbytes p t
  free : free r.1 = (free t ∪ pages nbytes p t) \ Set.Ico r.2 (r.2 + nbytes)

/-- `kmem_alloc` returns a block as it should exactly if it does not overrun the root. -/
theorem kmemAlloc_spec (ht : WellFormed t) (harena : free t ⊆ arena usrpt)
    (hpos : 0 < nbytes) (hint : nbytes < 2 ^ 32) (hpage : mweight t < nbytes → p % NBPG = 0)
    (hpgs : pages nbytes p t ⊆ arena usrpt) (hfrs : Disjoint (pages nbytes p t) (free t))
    (hsome : mweight t < nbytes → morecoreSize nbytes ≠ 0) :
    ∃ r, kmemAlloc usrpt nbytes p t = .ok r ∧ (Allocated t nbytes p r ↔ ¬Overruns nbytes p t) := by
  obtain ⟨t1, h1, hwf1, hfree1⟩ := ensure_spec ht hpgs hfrs hsome
  have hres : ∀ {q : Split} {t2 : Freehdr}, descend nbytes t1 = some q →
      kmemFree usrpt q.tail.1 q.tail.2 q.tree = .ok t2 →
      kmemAlloc usrpt nbytes p t = .ok (t2, q.retblock) := fun hq h2 => by
    rw [kmemAlloc, if_neg (by rw [SMALLEST_BLK]; omega)]
    simp only [bind, Except.bind, h1, hq, h2]
  rw [← suitable_iff ht hpos hint hpage hpgs hfrs hsome h1]
  by_cases h : Suitable nbytes t1
  · obtain ⟨q, hq, htkn⟩ := descend_spec hwf1 hpos h
    have hin : Set.Ico q.tail.1 (q.tail.1 + q.tail.2) ⊆ arena usrpt := fun u hu => by
      have hu := (htkn.bytes.subset (.inr hu)).1
      rw [hfree1] at hu
      exact hu.elim (fun h => harena h) fun h => hpgs h
    obtain ⟨t2, h2, hwf2, hfree2⟩ := kmemFree_spec usrpt htkn.wellFormed htkn.tail
      (fun h => (hin ⟨le_rfl, by omega⟩).1) fun h => (hin ⟨le_rfl, by omega⟩).2.le
    exact ⟨_, hres hq h2, iff_of_true ⟨hwf2, hfree1 ▸ htkn.block,
      by rw [hfree2, htkn.bytes, hfree1]⟩ h⟩
  · have hlong := le_weight_of_ensure hpos hint hsome h1 hwf1 hfree1 h
    obtain ⟨q, hq, htail, hover⟩ := descend_overrun hwf1 hpos hlong h
    refine ⟨_, @hres q q.tree hq ?_, iff_of_false (fun ha => hover ?_) h⟩
    · rw [htail]
      exact if_pos rfl
    · rw [hfree1]
      exact ha.block

end Uwisc.Kmem
