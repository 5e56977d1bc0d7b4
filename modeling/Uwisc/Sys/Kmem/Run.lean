import Uwisc.Lib.System
import Uwisc.Sys.Kmem.Spec

/-!
# Runs of the kernel memory allocator

Any sequence of calls of `kmem_alloc` and `kmem_free`, from an arena with nothing in
it. Only bytes that are allocated are freed, in any pieces, and the pages
`getpages` gets are page aligned, within the arena and fresh (`Allowed`). Along
with the tree go the bytes allocated and the bytes supplied (`State`).

In every state a run reaches the tree is well formed, and the bytes free and live are
the bytes supplied, each of them once; a call from it returns a block of free
bytes, or frees its block (`kmem_sound`).

The condition is that no call overruns the root (`NoOverrun`). Where `morecore` was
needed, the root may be a block off a word boundary that is as long as the request
but not from its first word on; if the pages got do not end up in it or in a son
of it the search stops there, and the block returned ends beyond the node
(`kmemAlloc_overrun`).
-/

namespace Uwisc.Kmem

open Except Lib

/-- A call of the allocator; `p` is where `getpages` gets pages if it is called. -/
inductive Call
  | kmemAlloc (nbytes p : ℕ)
  | kmemFree (ptr nbytes : ℕ)

/-- The tree, the bytes allocated and not yet freed, and those supplied by `getpages`. -/
structure State where
  root : Freehdr
  live : Set ℕ
  supplied : Set ℕ

/-- Sizes are unsigned words; the pages got are page aligned, in the arena and fresh; only
    bytes that are allocated are freed. -/
def Allowed (usrpt : ℕ) (s : State) : Call → Prop
  | .kmemAlloc nbytes p => nbytes < 2 ^ 32 ∧ (mweight s.root < nbytes → p % NBPG = 0) ∧
      pages nbytes p s.root ⊆ arena usrpt ∧ Disjoint (pages nbytes p s.root) s.supplied
  | .kmemFree ptr nbytes => Set.Ico ptr (ptr + nbytes) ⊆ s.live

/-- No block is allocated by overrunning the root. -/
def NoOverrun (s : State) : Call → Prop
  | .kmemAlloc nbytes p => ¬Overruns nbytes p s.root
  | .kmemFree _ _ => True

/-- What a call that returns does to the state. -/
inductive Returns (usrpt : ℕ) (s : State) : Call → State → Prop
  | kmemAlloc {nbytes p ret : ℕ} {t : Freehdr} : 0 < nbytes →
      Kmem.kmemAlloc usrpt nbytes p s.root = .ok (t, ret) →
      Returns usrpt s (.kmemAlloc nbytes p)
        ⟨t, s.live ∪ Set.Ico ret (ret + nbytes), s.supplied ∪ pages nbytes p s.root⟩
  | null {p ret : ℕ} {t : Freehdr} : Kmem.kmemAlloc usrpt 0 p s.root = .ok (t, ret) →
      Returns usrpt s (.kmemAlloc 0 p) ⟨t, s.live, s.supplied⟩
  | kmemFree {ptr nbytes : ℕ} {t : Freehdr} : Kmem.kmemFree usrpt ptr nbytes s.root = .ok t →
      Returns usrpt s (.kmemFree ptr nbytes) ⟨t, s.live \ Set.Ico ptr (ptr + nbytes), s.supplied⟩

/-- The runs of the allocator, from an empty arena. -/
def system (usrpt : ℕ) : System State Call where
  init := {⟨.nil, ∅, ∅⟩}
  step s c s' := Allowed usrpt s c ∧ Returns usrpt s c s'

/-- The tree is well formed, and the bytes free and live are those supplied. -/
structure Inv (usrpt : ℕ) (s : State) : Prop where
  wellFormed : WellFormed s.root
  disjoint : Disjoint (free s.root) s.live
  bytes : free s.root ∪ s.live = s.supplied
  arena : s.supplied ⊆ arena usrpt

/-- The outcome of a call is as it should be. `getpages` panics if the size asked for is no
    unsigned word when rounded up. -/
def Sound (usrpt : ℕ) (s : State) : Call → Prop
  | .kmemAlloc nbytes p =>
    if nbytes = 0 then Kmem.kmemAlloc usrpt nbytes p s.root = .ok (s.root, 0)
    else if mweight s.root < nbytes ∧ morecoreSize nbytes = 0 then
      Kmem.kmemAlloc usrpt nbytes p s.root = .error .rmalloc
    else ∃ r, Kmem.kmemAlloc usrpt nbytes p s.root = .ok r ∧ Allocated s.root nbytes p r ∧
      Disjoint (Set.Ico r.2 (r.2 + nbytes)) s.live
  | .kmemFree ptr nbytes => ∃ t, Kmem.kmemFree usrpt ptr nbytes s.root = .ok t ∧ WellFormed t ∧
      free t = free s.root ∪ Set.Ico ptr (ptr + nbytes)

theorem alloc_zero (usrpt p : ℕ) (t : Freehdr) : kmemAlloc usrpt 0 p t = .ok (t, 0) := by
  rw [kmemAlloc, if_pos (by decide)]

variable {usrpt : ℕ} {s s' : State}

theorem Inv.free_subset (h : Inv usrpt s) : free s.root ⊆ s.supplied :=
  Set.subset_union_left.trans h.bytes.subset

theorem Inv.live_subset (h : Inv usrpt s) : s.live ⊆ s.supplied :=
  Set.subset_union_right.trans h.bytes.subset

variable {nbytes p : ℕ} {c : Call}

/-- A call of `kmem_alloc` that should return a block does so exactly if it
    does not overrun the root. -/
theorem Inv.alloc (h : Inv usrpt s) (hc : Allowed usrpt s (.kmemAlloc nbytes p))
    (hpos : 0 < nbytes) (hsome : mweight s.root < nbytes → morecoreSize nbytes ≠ 0) :
    ∃ r, kmemAlloc usrpt nbytes p s.root = .ok r ∧
      (Allocated s.root nbytes p r ↔ NoOverrun s (.kmemAlloc nbytes p)) := by
  obtain ⟨hint, hpage, hin, hfrs⟩ := hc
  exact kmemAlloc_spec h.wellFormed (h.free_subset.trans h.arena) hpos hint hpage hin
    (hfrs.mono_right h.free_subset) hsome

/-- A root that is overrun is within the arena, and so is what `getpages` is asked for. -/
theorem Inv.morecoreSize_ne_zero (h : Inv usrpt s) (hpos : 0 < nbytes)
    (hover : Overruns nbytes p s.root) : morecoreSize nbytes ≠ 0 := by
  have hfree := h.free_subset.trans h.arena
  cases hroot : s.root with
  | nil => exact absurd hover (by rw [hroot]; exact id)
  | node l b size r =>
    rw [hroot] at hover hfree
    rw [free_node] at hfree
    have hlt : nbytes < size := hover.2.1
    obtain ⟨hlo, -⟩ : b ∈ Kmem.arena usrpt := hfree (.inr (.inl ⟨le_rfl, by omega⟩))
    obtain ⟨-, hhi⟩ : b + size - 1 ∈ Kmem.arena usrpt := hfree (.inr (.inl ⟨by omega, by omega⟩))
    simp only [USRPTSIZE, NBPG] at hhi
    rw [morecoreSize, CLBYTES]
    omega

/-- What a block is allocated from is not live. -/
theorem Inv.disjoint_live (h : Inv usrpt s) (hc : Allowed usrpt s (.kmemAlloc nbytes p)) :
    Disjoint (free s.root ∪ pages nbytes p s.root) s.live :=
  Set.disjoint_union_left.2 ⟨h.disjoint, hc.2.2.2.mono_right h.live_subset⟩

theorem Inv.freed (h : Inv usrpt s) {ptr : ℕ} (hc : Allowed usrpt s (.kmemFree ptr nbytes)) :
    Sound usrpt s (.kmemFree ptr nbytes) := by
  have hin : Set.Ico ptr (ptr + nbytes) ⊆ Kmem.arena usrpt :=
    Set.Subset.trans hc (h.live_subset.trans h.arena)
  exact kmemFree_spec _ h.wellFormed (h.disjoint.symm.mono_left hc)
    (fun hpos => (hin ⟨le_rfl, by omega⟩).1) fun hpos => (hin ⟨le_rfl, by omega⟩).2.le

/-- A call is sound exactly if it does not overrun the root. -/
theorem Inv.sound_iff (h : Inv usrpt s) (hc : Allowed usrpt s c) :
    Sound usrpt s c ↔ NoOverrun s c := by
  cases c with
  | kmemFree ptr nbytes => exact iff_of_true (h.freed hc) trivial
  | kmemAlloc nbytes p =>
    rw [Sound]
    split_ifs with hzero hnone
    · subst hzero
      exact iff_of_true (alloc_zero usrpt p s.root) fun hover => Nat.not_lt_zero _ hover.short
    · have hfail : ensure usrpt nbytes p s.root = .error .rmalloc := by
        rw [ensure, if_pos hnone.1, morecore, if_pos hnone.2]
      refine iff_of_true ?_ fun hover => h.morecoreSize_ne_zero (by omega) hover hnone.2
      rw [kmemAlloc, if_neg (by rw [SMALLEST_BLK]; omega)]
      simp only [bind, Except.bind, hfail]
    · obtain ⟨r, hr, hiff⟩ := h.alloc hc (by omega) fun hmore h => hnone ⟨hmore, h⟩
      rw [← hiff]
      refine ⟨?_, fun ha => ⟨r, hr, ha, (h.disjoint_live hc).mono_left ha.block⟩⟩
      rintro ⟨r', hr', ha, -⟩
      obtain rfl := ok.inj (hr.symm.trans hr')
      exact ha

/-- A call keeps the invariant. -/
theorem Inv.step (h : Inv usrpt s) (hn : NoOverrun s c)
    (hs : (system usrpt).step s c s') : Inv usrpt s' := by
  obtain ⟨hc, hret⟩ := hs
  have hsnd := (h.sound_iff hc).2 hn
  cases hret with
  | null heq =>
    rw [alloc_zero] at heq
    cases heq
    exact h
  | @kmemAlloc nbytes p ret t hpos heq =>
    rw [Sound, if_neg hpos.ne'] at hsnd
    split_ifs at hsnd with hnone
    · exact nomatch hsnd.symm.trans heq
    · obtain ⟨r, hr, ha, hlive⟩ := hsnd
      obtain rfl := ok.inj (hr.symm.trans heq)
      have hdis := h.disjoint_live hc
      refine ⟨ha.wellFormed, ?_, ?_, Set.union_subset h.arena hc.2.2.1⟩
      · rw [ha.free]
        exact Set.disjoint_union_right.2 ⟨hdis.mono_left Set.sdiff_subset, Set.disjoint_sdiff_left⟩
      · have hblk := ha.block
        rw [ha.free, ← h.bytes]
        ext u
        have hu := @hblk u
        simp only [Set.mem_union, Set.mem_sdiff] at hu ⊢
        by_cases h1 : u ∈ Set.Ico ret (ret + nbytes) <;> simp only [h1] at hu ⊢ <;> grind
  | @kmemFree ptr nbytes t heq =>
    obtain ⟨t', ht', hwf, hfree⟩ := hsnd
    obtain rfl := ok.inj (ht'.symm.trans heq)
    have hc : Set.Ico ptr (ptr + nbytes) ⊆ s.live := hc
    refine ⟨hwf, ?_, ?_, h.arena⟩
    · rw [hfree]
      exact Set.disjoint_union_left.2 ⟨h.disjoint.mono_right Set.sdiff_subset, Set.disjoint_sdiff_right⟩
    · rw [hfree, ← h.bytes, Set.union_assoc, Set.union_sdiff_cancel hc]

/-- The invariant holds in every run without overrun. -/
theorem inv_of_reachable (hs : ((system usrpt).restrict NoOverrun).Reachable s) : Inv usrpt s := by
  refine hs.invariant (fun s hs => ?_) fun _ _ _ hi h => hi.step h.1 h.2
  obtain rfl := Set.mem_singleton_iff.1 hs
  exact ⟨⟨Cartesian.heap_nil, separated_nil⟩, by simp, by simp, by simp⟩

/-- In every run without overrun the tree stays well formed, the bytes free and live are
    those supplied, and a call is sound exactly if it does not overrun the root. -/
theorem kmem_sound (hs : ((system usrpt).restrict NoOverrun).Reachable s) :
    WellFormed s.root ∧ Disjoint (free s.root) s.live ∧ free s.root ∪ s.live = s.supplied ∧
      ∀ c, Allowed usrpt s c → (Sound usrpt s c ↔ NoOverrun s c) := by
  have hinv := inv_of_reachable hs
  exact ⟨hinv.wellFormed, hinv.disjoint, hinv.bytes, fun _ => hinv.sound_iff⟩

/-- After allocating 4096 bytes, all that was got. -/
theorem reachable_block : ((system 1024).restrict NoOverrun).Reachable
    ⟨.nil, ∅ ∪ Set.Ico 1024 (1024 + 4096), ∅ ∪ pages 4096 1024 .nil⟩ := by
  refine .step (a := .kmemAlloc 4096 1024) (.init rfl) ⟨id, ⟨by decide, fun _ => by decide, ?_, by simp⟩,
    .kmemAlloc (by decide) ?_⟩
  · rw [pages, if_pos (by decide), arena]
    exact Set.Ico_subset_Ico (by decide) (by decide)
  · have hfree : kmemFree 1024 1024 4096 .nil = .ok (.node .nil 1024 4096 .nil) := by
      simp [kmemFree, USRPTSIZE, NBPG, coalesce, Cartesian.insert, bind, Except.bind]
    have hens : ensure 1024 4096 1024 .nil = .ok (.node .nil 1024 4096 .nil) := by
      rw [ensure, if_pos (by decide), morecore, if_neg (by decide), ← hfree]
      rfl
    rw [kmemAlloc, if_neg (by decide)]
    simp [hens, descend, mweight, takeNode, Cartesian.merge, kmemFree, bind, Except.bind]

/-- A part of a live block may be freed in every run. -/
theorem reachable_kmemFree (ptr nbytes : ℕ) (t : Freehdr)
    (hs : ((system usrpt).restrict NoOverrun).Reachable s) (hsub : Set.Ico ptr (ptr + nbytes) ⊆ s.live)
    (ht : kmemFree usrpt ptr nbytes s.root = .ok t) : ((system usrpt).restrict NoOverrun).Reachable
      ⟨t, s.live \ Set.Ico ptr (ptr + nbytes), s.supplied⟩ :=
  hs.step (a := .kmemFree ptr nbytes) ⟨trivial, hsub, .kmemFree ht⟩

/-- Freeing the last 96 bytes of a block of 4096. -/
theorem kmem_sound_tail : WellFormed (.node .nil 5024 96 .nil) ∧
    Sound 1024 ⟨.node .nil 5024 96 .nil, (∅ ∪ Set.Ico 1024 (1024 + 4096)) \ Set.Ico 5024 (5024 + 96),
      ∅ ∪ pages 4096 1024 .nil⟩ (.kmemFree 1024 4000) := by
  have hs := reachable_kmemFree 5024 96 (.node .nil 5024 96 .nil)
    reachable_block (Set.subset_union_of_subset_right (Set.Ico_subset_Ico (by decide) (by decide)) _)
    (by simp [kmemFree, USRPTSIZE, NBPG, coalesce, Cartesian.insert, bind, Except.bind])
  have h := kmem_sound hs
  refine ⟨h.1, (h.2.2.2 (.kmemFree 1024 4000) fun u hu => ?_).2 trivial⟩
  simp only [Set.mem_Ico, Set.mem_sdiff, Set.mem_union] at hu ⊢
  omega

/-- With two blocks of 1026 bytes free that start on odd addresses, a block of 1024 bytes is
    taken from the first one, and ends beyond it in a byte that was not freed. -/
theorem kmemAlloc_overrun : ¬∀ s, (system 1024).Reachable s → ∀ c, Allowed 1024 s c →
    Sound 1024 s c := by
  intro h
  have hone := reachable_kmemFree 1025 1026 (.node .nil 1025 1026 .nil)
    reachable_block (Set.subset_union_of_subset_right (Set.Ico_subset_Ico (by decide) (by decide)) _)
    (by simp [kmemFree, USRPTSIZE, NBPG, coalesce, Cartesian.insert, bind, Except.bind])
  have htwo := reachable_kmemFree 3073 1026
    (.node .nil 1025 1026 (.node .nil 3073 1026 .nil)) hone
    (fun u hu => ⟨.inr ⟨hu.1.trans' (by decide), hu.2.trans_le (by decide)⟩,
      fun hu' => absurd (hu.1.trans_lt hu'.2) (by decide)⟩)
    (by simp [kmemFree, USRPTSIZE, NBPG, coalesce, Cartesian.insert, bind, Except.bind, Except.map])
  obtain ⟨s, hs, hc, hover⟩ : ∃ s, ((system 1024).restrict NoOverrun).Reachable s ∧
      Allowed 1024 s (.kmemAlloc 1024 9216) ∧ Overruns 1024 9216 s.root := by
    refine ⟨_, htwo, ⟨by decide, fun _ => by decide, ?_, ?_⟩, by decide⟩
    · rw [pages, if_pos (by decide)]
      exact Set.Ico_subset_Ico (by decide) (by decide)
    · rw [pages, if_pos (by decide), pages, if_pos (by decide)]
      exact Set.disjoint_union_right.2 ⟨by simp,
        Set.disjoint_left.2 fun u hu hu' => absurd (hu.1.trans_lt hu'.2) (by decide)⟩
  exact ((inv_of_reachable hs).sound_iff hc).1 (h s hs.of_restrict _ hc) hover

/-!
### Blocks on word boundaries

`kmem_alloc` is to return blocks on word boundaries. At each decision point of the search the better
fitting node is selected (`Found`): the shorter one, if it is long enough, or the longer one otherwise.
A block that starts on an odd boundary is returned from the next word on only if it is longer than the
part before it and not as long as the request (`kmemAlloc_aligned_iff`).

A request of a word or more, which needs no pages, is on a word boundary (`OnWord.of_le`); what is not are
requests of three bytes at most, taken from pieces as small (`kmemAlloc_unaligned`).
-/

variable {usrpt nbytes : ℕ} {t : Freehdr} {b s b' s' : ℕ}

/-- The search for a block ends at the node of the block `b` of `s` bytes. -/
inductive Found (nbytes : ℕ) : Freehdr → ℕ → ℕ → Prop
  | here {l r : Freehdr} {b s : ℕ} : mweight l < nbytes → mweight r < nbytes → Found nbytes (.node l b s r) b s
  | left {l r : Freehdr} {k n b s : ℕ} : nbytes ≤ mweight l → mweight l ≤ mweight r ∨ mweight r < nbytes →
      Found nbytes l b s → Found nbytes (.node l k n r) b s
  | right {l r : Freehdr} {k n b s : ℕ} : nbytes ≤ mweight r → mweight r < mweight l ∨ mweight l < nbytes →
      Found nbytes r b s → Found nbytes (.node l k n r) b s

/-- It ends at one node. -/
theorem Found.unique (h : Found nbytes t b s) (h' : Found nbytes t b' s') : b = b' ∧ s = s' := by
  induction h with
  | here hl hr =>
    cases h' with
    | here => exact ⟨rfl, rfl⟩
    | left hl' => omega
    | right hr' => omega
  | left hl hor _ ih =>
    cases h' with
    | here hl' => omega
    | left _ _ h' => exact ih h'
    | right => omega
  | right hr hor _ ih =>
    cases h' with
    | here _ hr' => omega
    | left => omega
    | right _ _ h' => exact ih h'

/-- The block that is returned of a node. -/
def retblock (nbytes b s : ℕ) : ℕ := if s ≠ nbytes ∧ b % align ≠ 0 ∧ alignmore b < s then b + alignmore b else b

theorem takeNode_retblock (l r : Freehdr) (b s : ℕ) : (takeNode nbytes l b s r).retblock = retblock nbytes b s := by
  rw [takeNode, retblock]
  by_cases hsize : s = nbytes
  · rw [if_pos hsize, if_neg fun h => h.1 hsize]
  · rw [if_neg hsize]
    by_cases hodd : b % align ≠ 0 ∧ s > alignmore b
    · rw [if_pos hodd, if_pos ⟨hsize, hodd⟩]
    · rw [if_neg hodd, if_neg fun h => hodd h.2]

/-- The search takes from the node at which it ends. -/
theorem descend_found {q : Split} (h : descend nbytes t = some q) :
    ∃ b s, Found nbytes t b s ∧ q.retblock = retblock nbytes b s := by
  induction t generalizing q with
  | nil => cases h
  | node l k n r ihl ihr =>
    rw [descend] at h
    have hleft (hl : nbytes ≤ mweight l) (hor : mweight l ≤ mweight r ∨ mweight r < nbytes)
        (h : (descend nbytes l).map (fun q => ({ q with tree := .node q.tree k n r } : Split)) = some q) :
        ∃ b s, Found nbytes (.node l k n r) b s ∧ q.retblock = retblock nbytes b s := by
      obtain ⟨q', hq', rfl⟩ := Option.map_eq_some_iff.1 h
      obtain ⟨b, s, hfnd, hret⟩ := ihl hq'
      exact ⟨b, s, .left hl hor hfnd, hret⟩
    have hrgt (hr : nbytes ≤ mweight r) (hor : mweight r < mweight l ∨ mweight l < nbytes)
        (h : (descend nbytes r).map (fun q => ({ q with tree := .node l k n q.tree } : Split)) = some q) :
        ∃ b s, Found nbytes (.node l k n r) b s ∧ q.retblock = retblock nbytes b s := by
      obtain ⟨q', hq', rfl⟩ := Option.map_eq_some_iff.1 h
      obtain ⟨b, s, hfnd, hret⟩ := ihr hq'
      exact ⟨b, s, .right hr hor hfnd, hret⟩
    split_ifs at h with hany hle hl hr
    · exact hleft hl (.inl hle) h
    · exact hrgt (by omega) (.inr (by omega)) h
    · exact hrgt hr (.inl (by omega)) h
    · exact hleft (by omega) (.inr (by omega)) h
    · cases h
      exact ⟨k, n, .here (by omega) (by omega), takeNode_retblock l r k n⟩

/-- What is returned of a block is on a word boundary: it starts on one, or it is longer than the part before
    the next one, and not as long as the request. -/
def OnWord (nbytes b s : ℕ) : Prop := b % align = 0 ∨ alignmore b < s ∧ s ≠ nbytes

theorem retblock_onWord : retblock nbytes b s % align = 0 ↔ OnWord nbytes b s := by
  have halign : align = 4 := rfl
  have hmore : (b + alignmore b) % align = 0 := by
    rw [alignmore, halign]
    omega
  rw [retblock, OnWord]
  split_ifs with h
  · exact iff_of_true hmore (.inr ⟨h.2.2, h.1⟩)
  · exact ⟨.inl, fun hor => hor.elim id fun hlong => by_contra fun hodd => h ⟨hlong.2, hodd, hlong.1⟩⟩

/-- The search of a call ends at a block of which what is returned is on a word boundary. -/
def EndsOnWord (usrpt nbytes p : ℕ) (root : Freehdr) : Prop :=
  ∀ t, ensure usrpt nbytes p root = .ok t → ∃ b s, Found nbytes t b s ∧ OnWord nbytes b s

/-- What a call returns is on a word boundary if and only if the search ends at a block that starts on one,
    or that is longer than the part before the next one and not as long as the request. -/
theorem kmemAlloc_aligned_iff {p ret : ℕ} {root : Freehdr} (hpos : 0 < nbytes)
    (h : kmemAlloc usrpt nbytes p root = .ok (t, ret)) : ret % align = 0 ↔ EndsOnWord usrpt nbytes p root := by
  rw [kmemAlloc, if_neg (by rw [SMALLEST_BLK]; omega)] at h
  cases hens : ensure usrpt nbytes p root with
  | error e => simp [hens, bind, Except.bind] at h
  | ok t1 =>
    simp only [hens, bind, Except.bind] at h
    cases hdes : descend nbytes t1 with
    | none => simp [hdes] at h
    | some q =>
      rw [hdes] at h
      dsimp only at h
      cases hfree : kmemFree usrpt q.tail.1 q.tail.2 q.tree with
      | error e => simp [hfree] at h
      | ok t2 =>
        rw [hfree] at h
        cases h
        obtain ⟨b, s, hfnd, hret⟩ := descend_found hdes
        rw [hret, retblock_onWord]
        constructor
        · intro hword t' ht'
          obtain rfl := Except.ok.inj (hens.symm.trans ht')
          exact ⟨b, s, hfnd, hword⟩
        · intro hends
          obtain ⟨b', s', hfnd', hword⟩ := hends t1 hens
          obtain ⟨rfl, rfl⟩ := hfnd.unique hfnd'
          exact hword

/-- A block of 2048 bytes is allocated from pages that start on a word boundary. -/
theorem kmemAlloc_aligned_pages : EndsOnWord 1024 2048 1024 .nil := by
  have h : kmemAlloc 1024 2048 1024 .nil = .ok (.nil, 1024) := by
    have hfree : kmemFree 1024 1024 2048 .nil = .ok (.node .nil 1024 2048 .nil) := by
      simp [kmemFree, USRPTSIZE, NBPG, coalesce, Cartesian.insert, bind, Except.bind]
    have hens : ensure 1024 2048 1024 .nil = .ok (.node .nil 1024 2048 .nil) := by
      rw [ensure, if_pos (by decide), morecore, if_neg (by decide), ← hfree]
      rfl
    rw [kmemAlloc, if_neg (by decide)]
    simp [hens, descend, mweight, takeNode, Cartesian.merge, kmemFree, bind, Except.bind]
  exact (kmemAlloc_aligned_iff (by decide) h).1 (by decide)

/-- With the three bytes free that follow the first of a block, they are what is returned of three. -/
theorem kmemAlloc_unaligned : ¬∀ s, (system 1024).Reachable s → ∀ nbytes p t ret,
    Allowed 1024 s (.kmemAlloc nbytes p) → 0 < nbytes → kmemAlloc 1024 nbytes p s.root = .ok (t, ret) →
    ret % align = 0 := by
  intro h
  have hfree := reachable_kmemFree 1025 3 (.node .nil 1025 3 .nil)
    reachable_block (Set.subset_union_of_subset_right (Set.Ico_subset_Ico (by decide) (by decide)) _)
    (by simp [kmemFree, USRPTSIZE, NBPG, coalesce, Cartesian.insert, bind, Except.bind])
  have hpgs : pages 3 9216 (.node .nil 1025 3 .nil) = ∅ := by rw [pages, if_neg (by decide)]
  have halc : kmemAlloc 1024 3 9216 (.node .nil 1025 3 .nil) = .ok (.nil, 1025) := by
    have hens : ensure 1024 3 9216 (.node .nil 1025 3 .nil) = .ok (.node .nil 1025 3 .nil) := by
      rw [ensure, if_neg (by decide)]
    rw [kmemAlloc, if_neg (by decide)]
    simp [hens, descend, mweight, takeNode, Cartesian.merge, kmemFree, bind, Except.bind]
  have hali := h _ hfree.of_restrict 3 9216 .nil 1025
    ⟨by decide, fun hmore => absurd hmore (by decide), by simp [hpgs], by simp [hpgs]⟩ (by decide) halc
  revert hali
  decide

end Uwisc.Kmem
