import Mathlib.Algebra.Order.Ring.Int
import Mathlib.Data.Set.Lattice
import Mathlib.Order.CompletePartialOrder
import Uwisc.Lib.Ring

/-!
# Rings that share their links

Nodes with two links each, which are on rings: every head has one, of its `nodes`, and no
node is on two (`Buckets`). A node that is on no ring may be a head of its own, with no nodes.

* `Ring.rotate`, `Ring.insert`: a ring has no first node, and a node can be put in after any;
* `Buckets.insque`, `Buckets.remque`, `Buckets.null`: what the operations on links do to the rings.
-/

namespace Uwisc.Lib

open Function List

section Ring

variable {next prev next' prev' : ℕ → ℕ} {head c p : ℕ} {l u v : List ℕ}

theorem Path.rotate (h : Path next head head (head :: (u ++ p :: v))) :
    Path next p p (p :: (v ++ head :: u)) := by
  rw [← cons_append] at h ⊢
  obtain ⟨b, hu, hv⟩ := path_append.1 h
  obtain rfl := hv.head
  exact path_append.2 ⟨head, hv, hu⟩

namespace Ring

theorem congr (h : Ring next prev head l) (hnx : ∀ c ∈ head :: l, next' c = next c)
    (hprev : ∀ c ∈ head :: l, prev' c = prev c) : Ring next' prev' head l where
  nodup := h.nodup
  next_path := h.next_path.congr hnx
  prev_path := h.prev_path.congr fun c hc => hprev c (mem_cons_reverse.1 hc)

/-- Any node of a ring may be its head. -/
theorem rotate (h : Ring next prev head (u ++ p :: v)) : Ring next prev p (v ++ head :: u) where
  nodup := by
    have hperm : (p :: (v ++ head :: u)).Perm (head :: (u ++ p :: v)) := by
      rw [← cons_append, ← cons_append]
      exact perm_append_comm
    exact hperm.nodup_iff.2 h.nodup
  next_path := h.next_path.rotate
  prev_path := by
    have hprev := h.prev_path
    rw [reverse_append, reverse_cons, append_assoc, singleton_append] at hprev ⊢
    exact hprev.rotate

theorem exists_head (h : Ring next prev head l) (hp : p ∈ head :: l) :
    ∃ l', Ring next prev p l' ∧ ∀ i, i ∈ p :: l' ↔ i ∈ head :: l := by
  obtain rfl | hp := mem_cons.1 hp
  · exact ⟨l, h, fun i => Iff.rfl⟩
  · obtain ⟨u, v, rfl⟩ := append_of_mem hp
    refine ⟨v ++ head :: u, h.rotate, fun i => ?_⟩
    simp only [mem_cons, mem_append]
    tauto

theorem next_mem (h : Ring next prev head l) (hp : p ∈ head :: l) : next p ∈ head :: l := by
  obtain ⟨l', h', hmem⟩ := h.exists_head hp
  rw [← hmem]
  cases l' with
  | nil => exact mem_cons.2 (.inl (h'.eq_nil_iff.1 rfl))
  | cons c l' =>
    rw [h'.next_head]
    exact mem_cons_of_mem _ mem_cons_self

theorem prev_mem (h : Ring next prev head l) (hp : p ∈ head :: l) : prev p ∈ head :: l :=
  mem_cons_reverse.1 (h.reverse.next_mem (mem_cons_reverse.2 hp))

/-- A node is put in after any node of a ring. -/
theorem insert (h : Ring next prev head l) (hp : p ∈ head :: l) (hc : c ∉ head :: l) :
    ∃ l', Ring (update (update next p c) c (next p)) (update (update prev (next p) c) c p) head l' ∧
      ∀ i, i ∈ l' ↔ i = c ∨ i ∈ l := by
  have hne : c ≠ p := (ne_of_mem_of_not_mem hp hc).symm
  rw [update_comm hne.symm]
  obtain rfl | hp := mem_cons.1 hp
  · exact ⟨c :: l, h.pushFront hc, fun i => mem_cons⟩
  · obtain ⟨u, v, rfl⟩ := append_of_mem hp
    have hc' : c ∉ p :: (v ++ head :: u) := by
      simp only [mem_cons, mem_append, not_or] at hc ⊢
      tauto
    have hpush := h.rotate.pushFront hc'
    rw [← cons_append] at hpush
    refine ⟨u ++ p :: c :: v, hpush.rotate, fun i => ?_⟩
    simp only [mem_cons, mem_append]
    tauto

end Ring

end Ring

/-! ### Links -/

/-- The links of all nodes. -/
structure Links where
  next : ℕ → ℕ
  prev : ℕ → ℕ

namespace Links

/-- Puts `c` in after `pred`. -/
def insque (q : Links) (c pred : ℕ) : Links where
  next := update (update q.next pred c) c (q.next pred)
  prev := update (update q.prev (q.next pred) c) c pred

/-- Takes `c` out. -/
def remque (q : Links) (c : ℕ) : Links where
  next := update q.next (q.prev c) (q.next c)
  prev := update q.prev (q.next c) (q.prev c)

/-- Links `c` to itself. -/
def null (q : Links) (c : ℕ) : Links where
  next := update q.next c c
  prev := update q.prev c c

/-- The ring of a head. -/
def HasRing (q : Links) (h : ℕ) (nodes : Set ℕ) : Prop :=
  ∃ l, Ring q.next q.prev h l ∧ ∀ i, i ∈ l ↔ i ∈ nodes

variable {q q' : Links} {h c p : ℕ} {nodes : Set ℕ}

theorem HasRing.congr (hq : q.HasRing h nodes) (hnx : ∀ c ∈ insert h nodes, q'.next c = q.next c)
    (hprev : ∀ c ∈ insert h nodes, q'.prev c = q.prev c) : q'.HasRing h nodes := by
  obtain ⟨l, hl, hmem⟩ := hq
  have hcell : ∀ c ∈ h :: l, c ∈ insert h nodes := fun c hc =>
    (mem_cons.1 hc).imp_right (hmem c).1
  exact ⟨l, hl.congr (fun c hc => hnx c (hcell c hc)) fun c hc => hprev c (hcell c hc), hmem⟩

theorem HasRing.next_mem (hq : q.HasRing h nodes) (hp : p ∈ insert h nodes) :
    q.next p ∈ insert h nodes := by
  obtain ⟨l, hl, hmem⟩ := hq
  have hp' : p ∈ h :: l := mem_cons.2 (hp.imp_right (hmem p).2)
  exact (mem_cons.1 (hl.next_mem hp')).imp_right (hmem _).1

theorem HasRing.prev_mem (hq : q.HasRing h nodes) (hp : p ∈ insert h nodes) :
    q.prev p ∈ insert h nodes := by
  obtain ⟨l, hl, hmem⟩ := hq
  have hp' : p ∈ h :: l := mem_cons.2 (hp.imp_right (hmem p).2)
  exact (mem_cons.1 (hl.prev_mem hp')).imp_right (hmem _).1

theorem HasRing.insque (hq : q.HasRing h nodes) (hp : p ∈ insert h nodes)
    (hc : c ∉ insert h nodes) : (q.insque c p).HasRing h (insert c nodes) := by
  obtain ⟨l, hl, hmem⟩ := hq
  have hp' : p ∈ h :: l := mem_cons.2 (hp.imp_right (hmem p).2)
  have hc' : c ∉ h :: l := fun hmem' => hc ((mem_cons.1 hmem').imp_right (hmem c).1)
  obtain ⟨l', hl', hmem'⟩ := hl.insert hp' hc'
  exact ⟨l', hl', fun i => (hmem' i).trans (or_congr_right (hmem i))⟩

theorem HasRing.remque (hq : q.HasRing h nodes) (hc : c ∈ nodes) : (q.remque c).HasRing h (nodes \ {c}) := by
  obtain ⟨l, hl, hmem⟩ := hq
  obtain ⟨u, v, rfl⟩ := append_of_mem ((hmem c).2 hc)
  refine ⟨u ++ v, hl.unlink, fun i => ?_⟩
  rw [mem_append_iff_of_nodup (nodup_cons.1 hl.nodup).2, hmem]
  rfl

theorem hasRing_null (q : Links) (c : ℕ) : (q.null c).HasRing c ∅ :=
  ⟨[], ⟨nodup_singleton c, ⟨rfl, update_self ..⟩, ⟨rfl, update_self ..⟩⟩, by simp⟩

/-- To take a node out that is on no ring does nothing. -/
theorem HasRing.remque_self (hq : q.HasRing c ∅) : q.remque c = q := by
  obtain ⟨l, hl, hmem⟩ := hq
  obtain rfl : l = [] := eq_nil_iff_forall_not_mem.2 fun i hi => (hmem i).1 hi
  have hnx : q.next c = c := hl.eq_nil_iff.1 rfl
  have hprev : q.prev c = c := hl.reverse.eq_nil_iff.1 rfl
  rw [Links.remque, hnx, hprev, update_eq_self_iff.2 hnx.symm, update_eq_self_iff.2 hprev.symm]

end Links

/-! ### Rings side by side -/

/-- Every head has its ring, and no node is on two. -/
structure Buckets (q : Links) (heads : Set ℕ) (nodes : ℕ → Set ℕ) : Prop where
  ring : ∀ h ∈ heads, q.HasRing h (nodes h)
  disjoint : heads.PairwiseDisjoint fun h => insert h (nodes h)

namespace Buckets

variable {q : Links} {heads heads' : Set ℕ} {nodes nodes' : ℕ → Set ℕ} {h c p : ℕ}

section

variable (hb : Buckets q heads nodes)

include hb

theorem mono (hsub : heads' ⊆ heads) (hnodes : ∀ h ∈ heads', nodes' h = nodes h) :
    Buckets q heads' nodes' where
  ring h hh := by
    rw [hnodes h hh]
    exact hb.ring h (hsub hh)
  disjoint h hh h' hh' hne := by
    have hd := hb.disjoint (hsub hh) (hsub hh') hne
    simpa only [onFun, hnodes h hh, hnodes h' hh'] using hd

/-- Links that are in one ring are in no other. -/
theorem frame {q' : Links} {h h' : ℕ} (hh : h ∈ heads) (hh' : h' ∈ heads)
    (hne : h' ≠ h) (hnx : ∀ c, c ∉ insert h (nodes h) → c ∈ insert h' (nodes h') → q'.next c = q.next c)
    (hprev : ∀ c, c ∉ insert h (nodes h) → c ∈ insert h' (nodes h') → q'.prev c = q.prev c) :
    q'.HasRing h' (nodes h') := by
  have hout : ∀ c ∈ insert h' (nodes h'), c ∉ insert h (nodes h) := fun c hc hc' =>
    hne (hb.disjoint.elim_set hh' hh c hc hc')
  exact (hb.ring h' hh').congr (fun c hc => hnx c (hout c hc) hc) fun c hc => hprev c (hout c hc) hc

theorem notMem {h' : ℕ} (hh : h ∈ heads) (hh' : h' ∈ heads) (hne : h' ≠ h)
    (hc : c ∈ insert h (nodes h)) : c ∉ insert h' (nodes h') := fun hc' =>
  hne (hb.disjoint.elim_set hh' hh c hc' hc)

/-- A head has the nodes `s`, which are on no other ring, and the other heads have those they had. -/
theorem of_ring {q' : Links} {s : Set ℕ} (hh : h ∈ heads)
    (hring : q'.HasRing h s) (hout : ∀ h' ∈ heads, h' ≠ h → ∀ i ∈ s, i ∉ insert h' (nodes h'))
    (hfrm : ∀ h' ∈ heads, h' ≠ h → q'.HasRing h' (nodes h')) :
    Buckets q' heads (update nodes h s) where
  ring h' hh' := by
    by_cases hne : h' = h
    · subst hne
      rwa [update_self]
    · rw [update_of_ne hne]
      exact hfrm h' hh' hne
  disjoint := by
    have hcell : ∀ h' ∈ heads, h' ≠ h → Disjoint (insert h s) (insert h' (nodes h')) := by
      intro h' hh' hne
      refine Set.disjoint_left.2 ?_
      rintro i (rfl | hi)
      · exact hb.notMem hh hh' hne (.inl rfl)
      · exact hout h' hh' hne i hi
    intro h1 hh1 h2 hh2 hne
    simp only [onFun]
    by_cases h1h : h1 = h
    · subst h1h
      rw [update_self, update_of_ne hne.symm]
      exact hcell h2 hh2 hne.symm
    · rw [update_of_ne h1h]
      by_cases h2h : h2 = h
      · subst h2h
        rw [update_self]
        exact (hcell h1 hh1 h1h).symm
      · rw [update_of_ne h2h]
        exact hb.disjoint hh1 hh2 hne

/-- The node `c` is put on the ring of `h` after `p`. -/
theorem insque (hh : h ∈ heads) (hp : p ∈ insert h (nodes h))
    (hc : ∀ h' ∈ heads, c ∉ insert h' (nodes h')) :
    Buckets (q.insque c p) heads (update nodes h (insert c (nodes h))) := by
  have hnx := (hb.ring h hh).next_mem hp
  refine hb.of_ring hh ((hb.ring h hh).insque hp (hc h hh)) (fun h' hh' hne => ?_)
    fun h' hh' hne => hb.frame hh hh' hne (fun d hd hd' => ?_) fun d hd hd' => ?_
  · rintro i (rfl | hi)
    · exact hc h' hh'
    · exact hb.notMem hh hh' hne (.inr hi)
  · have hdc : d ≠ c := ne_of_mem_of_not_mem hd' (hc h' hh')
    have hdp : d ≠ p := (ne_of_mem_of_not_mem hp hd).symm
    exact (update_of_ne hdc _ _).trans (update_of_ne hdp _ _)
  · have hdc : d ≠ c := ne_of_mem_of_not_mem hd' (hc h' hh')
    have hdn : d ≠ q.next p := (ne_of_mem_of_not_mem hnx hd).symm
    exact (update_of_ne hdc _ _).trans (update_of_ne hdn _ _)

/-- The node `c` is taken off the ring of `h`. -/
theorem remque (hh : h ∈ heads) (hc : c ∈ nodes h) :
    Buckets (q.remque c) heads (update nodes h (nodes h \ {c})) := by
  have hnx := (hb.ring h hh).next_mem (.inr hc)
  have hprev := (hb.ring h hh).prev_mem (.inr hc)
  refine hb.of_ring hh ((hb.ring h hh).remque hc) (fun h' hh' hne i hi => hb.notMem hh hh' hne (.inr hi.1))
    fun h' hh' hne => hb.frame hh hh' hne (fun d hd hd' => ?_) fun d hd hd' => ?_
  · have hdp : d ≠ q.prev c := (ne_of_mem_of_not_mem hprev hd).symm
    exact update_of_ne hdp _ _
  · have hdn : d ≠ q.next c := (ne_of_mem_of_not_mem hnx hd).symm
    exact update_of_ne hdn _ _

/-- The node `c` becomes a head. -/
theorem null (hc : ∀ h' ∈ heads, c ∉ insert h' (nodes h')) :
    Buckets (q.null c) (insert c heads) (update nodes c ∅) := by
  have hne : ∀ h' ∈ heads, h' ≠ c := fun h' hh' heq => hc h' hh' (.inl heq.symm)
  constructor
  · rintro h' (rfl | hh')
    · rw [update_self]
      exact Links.hasRing_null q h'
    · rw [update_of_ne (hne h' hh')]
      have hcell : ∀ d ∈ insert h' (nodes h'), d ≠ c := fun d hd => ne_of_mem_of_not_mem hd (hc h' hh')
      exact (hb.ring h' hh').congr (fun d hd => update_of_ne (hcell d hd) _ _)
        fun d hd => update_of_ne (hcell d hd) _ _
  · refine (Set.pairwiseDisjoint_insert_of_notMem fun hh' => hne c hh' rfl).2 ⟨?_, fun h' hh' => ?_⟩
    · intro h1 hh1 h2 hh2 hne'
      have hd := hb.disjoint hh1 hh2 hne'
      simpa only [onFun, update_of_ne (hne h1 hh1), update_of_ne (hne h2 hh2)] using hd
    · rw [update_self, update_of_ne (hne h' hh')]
      refine Set.disjoint_left.2 ?_
      rintro i (rfl | hi)
      · exact hc h' hh'
      · exact absurd hi (Set.notMem_empty i)

end

/-- Nodes become heads one after the other. -/
theorem foldl_null (hb : Buckets q heads fun _ => ∅) {l : List ℕ} (hl : l.Nodup) (hd : ∀ i ∈ l, i ∉ heads) :
    Buckets (l.foldl Links.null q) (heads ∪ {i | i ∈ l}) fun _ => ∅ := by
  induction l generalizing q heads with
  | nil => exact hb.mono (fun h hh => hh.resolve_right not_mem_nil) fun _ _ => rfl
  | cons c l ih =>
    obtain ⟨hcl, hl⟩ := nodup_cons.1 hl
    have hc : ∀ h' ∈ heads, c ∉ insert h' (∅ : Set ℕ) := by
      rintro h' hh' (rfl | hmem)
      · exact hd c mem_cons_self hh'
      · exact hmem
    have hnull : Buckets (q.null c) (insert c heads) fun _ => ∅ :=
      (hb.null hc).mono subset_rfl fun h _ => by rw [update_eq_self_iff.2 rfl]
    refine (ih hnull hl fun i hi => ?_).mono (fun i hi => ?_) fun _ _ => rfl
    · rintro (rfl | hmem)
      · exact hcl hi
      · exact hd i (mem_cons_of_mem _ hi) hmem
    · obtain hi | hi := hi
      · exact .inl (.inr hi)
      · exact (mem_cons.1 hi).elim (fun h => .inl (.inl h)) .inr

end Buckets

/-- What comes two nodes before `c`, if what comes before is not the head. -/
theorem Links.HasRing.before {q : Links} {h c : ℕ} {nodes : Set ℕ} (hq : q.HasRing h nodes) (hc : c ∈ nodes)
    (hp : q.prev c ≠ h) : q.prev (q.prev c) ∈ insert h (nodes \ {c}) := by
  obtain ⟨l, hl, hmem⟩ := hq
  obtain ⟨u, v, rfl⟩ := append_of_mem ((hmem c).2 hc)
  have hpath := hl.prev_path
  rw [reverse_append, reverse_cons, append_assoc, singleton_append, ← cons_append] at hpath
  rcases u.eq_nil_or_concat with rfl | ⟨w, p, rfl⟩
  · exact absurd hpath.next_last hp
  rw [concat_eq_append] at hl hmem hpath
  rw [reverse_append, reverse_singleton, singleton_append] at hpath
  rw [hpath.next_eq]
  rw [← singleton_append (x := c), ← append_assoc] at hpath
  rcases w.eq_nil_or_concat with rfl | ⟨w', p', rfl⟩
  · exact .inl hpath.next_last
  · rw [concat_eq_append] at hl hmem hpath
    rw [reverse_append, reverse_singleton, singleton_append] at hpath
    rw [hpath.next_eq]
    have hmem' : p' ∈ w' ++ [p'] ++ [p] ++ v := by simp
    have hin := (mem_append_iff_of_nodup (nodup_cons.1 hl.nodup).2).1 hmem'
    exact .inr ⟨(hmem p').1 hin.1, hin.2⟩

end Uwisc.Lib
