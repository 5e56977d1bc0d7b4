import Mathlib.Data.Finset.Card
import Mathlib.Tactic.Ring
import Uwisc.Sys.Vm

/-!
# The lists in the core map

What the routines do to the free list (`FreeList`) and to the chains (`Hashed`), which are in fields of their
own.

* `FreeList.munlink`, `FreeList.take`, `FreeList.free`: an entry leaves the free list or is put on it;
* `Hashed.remove`: an entry that was found on a chain is taken off it and loses its block, and its vnode a
  hold;
* `Hashed.enter`: an entry gets a block.
-/

namespace Uwisc.Vm

open Finset Function Lib List Nat Option

section Fields

variable {V : Type*} (s : Core V) (i : ℕ) (f : Cmap V → Cmap V)

/-- A field of the entries after a change. -/
theorem Core.comp_set {β : Type*} (π : Cmap V → β) :
    π ∘ (s.set i f).cmap = update (π ∘ s.cmap) i (π (f (s.cmap i))) := comp_update _ _ _ _

/-- A field that is not changed. -/
theorem Core.comp_set_of_eq {β : Type*} {π : Cmap V → β} (hf : π (f (s.cmap i)) = π (s.cmap i)) :
    π ∘ (s.set i f).cmap = π ∘ s.cmap := by
  rw [Core.comp_set, hf]
  exact update_eq_self _ _

end Fields

section Same

variable {V : Type*} {s s' s'' : Core V} {i : ℕ} {f : Cmap V → Cmap V}

/-- The states agree in what the free list is made of. -/
structure SameFree (s s' : Core V) : Prop where
  next : Cmap.c_next ∘ s'.cmap = Cmap.c_next ∘ s.cmap
  prev : Cmap.c_prev ∘ s'.cmap = Cmap.c_prev ∘ s.cmap
  free : Cmap.c_free ∘ s'.cmap = Cmap.c_free ∘ s.cmap
  freemem : s'.freemem = s.freemem

theorem SameFree.trans (h : SameFree s s') (h' : SameFree s' s'') : SameFree s s'' :=
  ⟨h'.next.trans h.next, h'.prev.trans h.prev, h'.free.trans h.free, h'.freemem.trans h.freemem⟩

theorem SameFree.set (hf : ∀ c, (f c).c_next = c.c_next ∧ (f c).c_prev = c.c_prev ∧ (f c).c_free = c.c_free) :
    SameFree s (s.set i f) :=
  ⟨Core.comp_set_of_eq _ _ _ (hf _).1, Core.comp_set_of_eq _ _ _ (hf _).2.1,
    Core.comp_set_of_eq _ _ _ (hf _).2.2, rfl⟩

/-- The states agree in what the chains are made of. -/
structure SameHash (s s' : Core V) : Prop where
  hlink : Cmap.c_hlink ∘ s'.cmap = Cmap.c_hlink ∘ s.cmap
  blkno : Cmap.c_blkno ∘ s'.cmap = Cmap.c_blkno ∘ s.cmap
  vp : Cmap.c_vp ∘ s'.cmap = Cmap.c_vp ∘ s.cmap
  cmhash : s'.cmhash = s.cmhash
  v_count : s'.v_count = s.v_count
  held : s'.held = s.held

theorem SameHash.refl (s : Core V) : SameHash s s := ⟨rfl, rfl, rfl, rfl, rfl, rfl⟩

theorem SameHash.trans (h : SameHash s s') (h' : SameHash s' s'') : SameHash s s'' :=
  ⟨h'.hlink.trans h.hlink, h'.blkno.trans h.blkno, h'.vp.trans h.vp, h'.cmhash.trans h.cmhash,
    h'.v_count.trans h.v_count, h'.held.trans h.held⟩

theorem SameHash.set (hf : ∀ c, (f c).c_hlink = c.c_hlink ∧ (f c).c_blkno = c.c_blkno ∧ (f c).c_vp = c.c_vp) :
    SameHash s (s.set i f) :=
  ⟨Core.comp_set_of_eq _ _ _ (hf _).1, Core.comp_set_of_eq _ _ _ (hf _).2.1,
    Core.comp_set_of_eq _ _ _ (hf _).2.2, rfl, rfl, rfl⟩

/-- What `unlink` leaves as it is. -/
theorem unlink_same (s : Core V) (i : ℕ) (p : Option ℕ × ℕ) :
    SameFree s (unlink s i p) ∧ Cmap.c_blkno ∘ (unlink s i p).cmap = Cmap.c_blkno ∘ s.cmap ∧
      Cmap.c_vp ∘ (unlink s i p).cmap = Cmap.c_vp ∘ s.cmap ∧ (unlink s i p).held = s.held ∧
      (unlink s i p).v_count = s.v_count := by
  obtain ⟨c2 | c2, c1⟩ := p
  · exact ⟨⟨rfl, rfl, rfl, rfl⟩, rfl, rfl, rfl, rfl⟩
  · rw [unlink]
    exact ⟨SameFree.set fun _ => ⟨rfl, rfl, rfl⟩, Core.comp_set_of_eq _ _ _ rfl, Core.comp_set_of_eq _ _ _ rfl,
      rfl, rfl⟩

/-- The fields of an entry that has lost its block. -/
theorem clear_fields (s : Core V) (c d : ℕ) :
    ((clear c s).cmap d).c_blkno = (if d = c then 0 else (s.cmap d).c_blkno) ∧
      ((clear c s).cmap d).c_vp = if d = c then none else (s.cmap d).c_vp := by
  rw [clear, Core.set]
  dsimp only
  by_cases hd : d = c
  · rw [hd, update_self, if_pos rfl, if_pos rfl]
    exact ⟨rfl, rfl⟩
  · rw [update_of_ne hd, if_neg hd, if_neg hd]
    exact ⟨rfl, rfl⟩

theorem sameFree_clear (c : ℕ) (s : Core V) : SameFree s (clear c s) := SameFree.set fun _ => ⟨rfl, rfl, rfl⟩

/-- A frame that is taken does not depend on the rest. -/
theorem SameFree.taken {s s' : Core V} (h : SameFree s s') (c : ℕ) :
    SameFree (s.set c fun e => { e with c_free := false }) (s'.set c fun e => { e with c_free := false }) := by
  refine ⟨?_, ?_, ?_, h.freemem⟩
  · rw [Core.comp_set_of_eq, Core.comp_set_of_eq, h.next] <;> rfl
  · rw [Core.comp_set_of_eq, Core.comp_set_of_eq, h.prev] <;> rfl
  · rw [Core.comp_set, Core.comp_set, h.free]

/-- `memall` takes the frame and marks it. -/
theorem frame_spec {type : Kind} {c : ℕ} (h : frame type c s = some s') :
    SameFree (s.set c fun e => { e with c_free := false }) s' ∧ SameHash s s' := by
  simp only [frame] at h
  split_ifs at h
  cases h
  refine ⟨⟨?_, ?_, ?_, rfl⟩, SameHash.trans (SameHash.set ?_) (SameHash.set ?_)⟩
  · rw [Core.comp_set_of_eq, Core.comp_set_of_eq, Core.comp_set_of_eq] <;> rfl
  · rw [Core.comp_set_of_eq, Core.comp_set_of_eq, Core.comp_set_of_eq] <;> rfl
  · rw [Core.comp_set_of_eq, Core.comp_set, Core.comp_set]
    rfl
  · exact fun _ => ⟨rfl, rfl, rfl⟩
  · exact fun _ => ⟨rfl, rfl, rfl⟩

theorem sameHash_munlink (c : ℕ) (s : Core V) : SameHash s (munlink c s) := by
  rw [munlink]
  refine ⟨?_, ?_, ?_, rfl, rfl, rfl⟩ <;> dsimp only <;>
    rw [Core.comp_set_of_eq, Core.comp_set_of_eq, Core.comp_set_of_eq] <;> rfl

theorem sameFree_mhash [DecidableEq V] (c : ℕ) (vp : V) (bn : ℕ) (s : Core V) : SameFree s (mhash c vp bn s) := by
  rw [mhash]
  refine ⟨?_, ?_, ?_, rfl⟩ <;> dsimp only <;> rw [Core.comp_set_of_eq] <;> rfl

end Same

/-! ### The free list -/

section FreeList

variable {V F : Type*} {m : Machine V F} {s s' : Core V} {l : List ℕ} {c : ℕ}

/-- The free frames are those of the list `l`, and as many as `freemem` says. -/
structure FreeList (m : Machine V F) (s : Core V) (l : List ℕ) : Prop where
  ring : Ring (Cmap.c_next ∘ s.cmap) (Cmap.c_prev ∘ s.cmap) CMHEAD l
  free : ∀ i, (s.cmap i).c_free = true ↔ i ∈ l
  lt : ∀ i ∈ l, i < m.ecmx
  freemem : s.freemem = CLSIZE * l.length

theorem FreeList.congr (h : FreeList m s l) (hs : SameFree s s') : FreeList m s' l where
  ring := by
    rw [hs.next, hs.prev]
    exact h.ring
  free := fun i => by
    have hfree : (s'.cmap i).c_free = (s.cmap i).c_free := congrFun hs.free i
    rw [hfree]
    exact h.free i
  lt := h.lt
  freemem := hs.freemem.trans h.freemem

/-- A frame leaves the list. -/
theorem FreeList.unlink {u v : List ℕ} (h : FreeList m s (u ++ c :: v))
    (hnx : Cmap.c_next ∘ s'.cmap = update (Cmap.c_next ∘ s.cmap) (s.cmap c).c_prev (s.cmap c).c_next)
    (hprev : Cmap.c_prev ∘ s'.cmap = update (Cmap.c_prev ∘ s.cmap) (s.cmap c).c_next (s.cmap c).c_prev)
    (hfree : Cmap.c_free ∘ s'.cmap = update (Cmap.c_free ∘ s.cmap) c false)
    (hfre : s'.freemem = s.freemem - CLSIZE) : FreeList m s' (u ++ v) where
  ring := by
    rw [hnx, hprev]
    exact h.ring.unlink
  free := by
    intro i
    have hi : (s'.cmap i).c_free = update (Cmap.c_free ∘ s.cmap) c false i := congrFun hfree i
    rw [hi, mem_append_iff_of_nodup (nodup_cons.1 h.ring.nodup).2]
    by_cases hic : i = c
    · rw [hic, update_self]
      exact iff_of_false Bool.false_ne_true fun hmem => hmem.2 rfl
    · rw [update_of_ne hic, comp_apply, h.free]
      exact (and_iff_left hic).symm
  lt := fun i hi => h.lt i <| by
    rw [mem_append] at hi ⊢
    exact hi.imp_right (List.mem_cons_of_mem _)
  freemem := by
    rw [hfre, h.freemem, length_append, length_append, length_cons]
    push_cast
    ring

theorem FreeList.munlink {u v : List ℕ} (h : FreeList m s (u ++ c :: v)) : FreeList m (munlink c s) (u ++ v) := by
  refine h.unlink ?_ ?_ ?_ rfl
  all_goals rw [Vm.munlink]; dsimp only
  · rw [Core.comp_set_of_eq, Core.comp_set_of_eq, Core.comp_set] <;> rfl
  · rw [Core.comp_set_of_eq, Core.comp_set, Core.comp_set_of_eq] <;> rfl
  · rw [Core.comp_set, Core.comp_set_of_eq, Core.comp_set_of_eq] <;> rfl

/-- `memall` takes the first frame off the list. -/
theorem FreeList.take {v : List ℕ} (h : FreeList m s (c :: v)) (s' : Core V)
    (hs' : s' = ({ s with freemem := s.freemem - CLSIZE }.set CMHEAD fun e =>
      { e with c_next := (s.cmap c).c_next }).set (s.cmap c).c_next fun e => { e with c_prev := CMHEAD }) :
    (s'.cmap c).c_free = true ∧ FreeList m (s'.set c fun e => { e with c_free := false }) v := by
  have hprev : (s.cmap c).c_prev = CMHEAD := h.ring.prev_first
  have hfree : Cmap.c_free ∘ s'.cmap = Cmap.c_free ∘ s.cmap := by
    rw [hs', Core.comp_set_of_eq, Core.comp_set_of_eq] <;> rfl
  refine ⟨(congrFun hfree c).trans ((h.free c).2 List.mem_cons_self), ?_⟩
  refine FreeList.unlink (u := []) h ?_ ?_ ?_ ?_
  · rw [hprev, Core.comp_set_of_eq, hs', Core.comp_set_of_eq, Core.comp_set] <;> rfl
  · rw [hprev, Core.comp_set_of_eq, hs', Core.comp_set, Core.comp_set_of_eq] <;> rfl
  · rw [Core.comp_set, hfree]
  · rw [hs']
    rfl

/-- `memfree` puts a frame on the list, at either end. -/
theorem FreeList.push {l' : List ℕ} (h : FreeList m s l) (hc : c ∉ l) (hlt : c < m.ecmx)
    (hring : Ring (Cmap.c_next ∘ s'.cmap) (Cmap.c_prev ∘ s'.cmap) CMHEAD l') (hl' : l'.Perm (c :: l))
    (hfree : Cmap.c_free ∘ s'.cmap = update (Cmap.c_free ∘ s.cmap) c true)
    (hfre : s'.freemem = s.freemem + CLSIZE) : FreeList m s' l' where
  ring := hring
  free := by
    intro i
    have hi : (s'.cmap i).c_free = update (Cmap.c_free ∘ s.cmap) c true i := congrFun hfree i
    rw [hi, hl'.mem_iff, List.mem_cons]
    by_cases hic : i = c
    · rw [hic, update_self]
      exact iff_of_true rfl (Or.inl rfl)
    · rw [update_of_ne hic, comp_apply, h.free, or_iff_right hic]
  lt := by
    intro i hi
    rcases List.mem_cons.1 (hl'.mem_iff.1 hi) with rfl | hi
    · exact hlt
    · exact h.lt i hi
  freemem := by
    rw [hfre, h.freemem, hl'.length_eq, length_cons]
    push_cast
    ring

/-- A frame is put after the head. -/
theorem FreeList.front (h : FreeList m s l) (hc : c ∉ l) (hne : c ≠ CMHEAD) (hlt : c < m.ecmx) {s1 s2 s3 : Core V}
    (h1 : s1 = s.set (s.cmap CMHEAD).c_next fun e => { e with c_prev := c })
    (h2 : s2 = s1.set c fun e => { e with c_prev := CMHEAD, c_next := (s.cmap CMHEAD).c_next })
    (h3 : s3 = s2.set CMHEAD fun e => { e with c_next := c }) (h' : s'.cmap = (s3.set c fun e =>
      { e with c_free := true }).cmap) (hfre : s'.freemem = s.freemem + CLSIZE) : FreeList m s' (c :: l) := by
  have hring := h.ring.pushFront (mt List.mem_cons.1 (not_or.2 ⟨hne, hc⟩))
  refine h.push hc hlt ?_ (List.Perm.refl _) ?_ hfre
  · have hnx : Cmap.c_next ∘ s'.cmap =
        update (update (Cmap.c_next ∘ s.cmap) c (s.cmap CMHEAD).c_next) CMHEAD c := by
      rw [h', Core.comp_set_of_eq, h3, Core.comp_set, h2, Core.comp_set, h1, Core.comp_set_of_eq] <;> rfl
    have hprev : Cmap.c_prev ∘ s'.cmap =
        update (update (Cmap.c_prev ∘ s.cmap) (s.cmap CMHEAD).c_next c) c CMHEAD := by
      rw [h', Core.comp_set_of_eq, h3, Core.comp_set_of_eq, h2, Core.comp_set, h1, Core.comp_set] <;> rfl
    rw [hnx, hprev]
    exact hring
  · rw [h', Core.comp_set, h3, Core.comp_set_of_eq, h2, Core.comp_set_of_eq, h1, Core.comp_set_of_eq] <;> rfl

/-- A frame is put before the head. -/
theorem FreeList.back (h : FreeList m s l) (hc : c ∉ l) (hne : c ≠ CMHEAD) (hlt : c < m.ecmx) {s1 s2 s3 : Core V}
    (h1 : s1 = s.set (s.cmap CMHEAD).c_prev fun e => { e with c_next := c })
    (h2 : s2 = s1.set c fun e => { e with c_next := CMHEAD, c_prev := (s.cmap CMHEAD).c_prev })
    (h3 : s3 = s2.set CMHEAD fun e => { e with c_prev := c }) (h' : s'.cmap = (s3.set c fun e =>
      { e with c_free := true }).cmap) (hfre : s'.freemem = s.freemem + CLSIZE) : FreeList m s' (l ++ [c]) := by
  have hring := h.ring.pushBack (mt List.mem_cons.1 (not_or.2 ⟨hne, hc⟩))
  refine h.push hc hlt ?_ (perm_append_singleton c l) ?_ hfre
  · have hnx : Cmap.c_next ∘ s'.cmap =
        update (update (Cmap.c_next ∘ s.cmap) (s.cmap CMHEAD).c_prev c) c CMHEAD := by
      rw [h', Core.comp_set_of_eq, h3, Core.comp_set_of_eq, h2, Core.comp_set, h1, Core.comp_set] <;> rfl
    have hprev : Cmap.c_prev ∘ s'.cmap =
        update (update (Cmap.c_prev ∘ s.cmap) c (s.cmap CMHEAD).c_prev) CMHEAD c := by
      rw [h', Core.comp_set_of_eq, h3, Core.comp_set, h2, Core.comp_set, h1, Core.comp_set_of_eq] <;> rfl
    rw [hnx, hprev]
    exact hring
  · rw [h', Core.comp_set, h3, Core.comp_set_of_eq, h2, Core.comp_set_of_eq, h1, Core.comp_set_of_eq] <;> rfl

/-- What becomes of a call that frees frames. -/
def Freed (m : Machine V F) (s : Core V) (out : Out V F) : Prop :=
  (∃ s' l', out = .done [] s' ∧ FreeList m s' l' ∧ SameHash s s') ∨
    out = .panic "bad mem free" ∨ out = .panic "dup mem free"

/-- `memfree` puts frames on the list that are not there, and leaves the chains as they are. -/
theorem memfree_spec (hm : m.pgtocm m.maxfree < m.ecmx) (detach : Bool) (pfs : List ℕ) (h : FreeList m s l) :
    Freed m s (memfree m detach pfs s) := by
  induction pfs generalizing s l with
  | nil => exact Or.inl ⟨s, l, rfl, h, SameHash.refl s⟩
  | cons pf pfs ih =>
    rw [memfree]
    by_cases hrng : pf < m.firstfree ∨ m.maxfree < pf
    · rw [if_pos hrng]
      exact Or.inr (Or.inl rfl)
    rw [if_neg hrng]
    dsimp only
    by_cases hfree : (s.cmap (m.pgtocm pf)).c_free = true
    · rw [if_pos hfree]
      exact Or.inr (Or.inr rfl)
    rw [if_neg hfree]
    have hlt : m.pgtocm pf < m.ecmx := by
      refine lt_of_le_of_lt ?_ hm
      exact succ_le_succ (Nat.div_le_div_right (Nat.sub_le_sub_right (not_lt.1 (not_or.1 hrng).2) _))
    have hne : m.pgtocm pf ≠ CMHEAD := succ_ne_zero _
    have hmem : m.pgtocm pf ∉ l := mt (h.free _).2 hfree
    generalize m.pgtocm pf = i at *
    have hgone : ∃ s1, (if detach ∧ (s.cmap i).c_type ≠ .CSYS then s.set i fun c => { c with c_gone := true }
        else s) = s1 ∧ FreeList m s1 l ∧ SameHash s s1 := by
      refine ⟨_, rfl, ?_⟩
      split_ifs
      · exact ⟨h.congr (SameFree.set fun _ => ⟨rfl, rfl, rfl⟩), SameHash.set fun _ => ⟨rfl, rfl, rfl⟩⟩
      · exact ⟨h, SameHash.refl s⟩
    obtain ⟨s1, hs1, h1, hhash1⟩ := hgone
    rw [hs1]
    have hsame : ∀ {s2 : Core V} {j : ℕ} {f : Cmap V → Cmap V}, SameHash s s2 → (∀ c, (f c).c_hlink = c.c_hlink ∧
        (f c).c_blkno = c.c_blkno ∧ (f c).c_vp = c.c_vp) → SameHash s (s2.set j f) :=
      fun h2 hf => h2.trans (SameHash.set hf)
    -- at either end, the frame is on the list, and the rest goes on from there
    have hpus : ∀ {s2 : Core V} {l2 : List ℕ}, FreeList m { s2 with freemem := s2.freemem + CLSIZE } l2 →
        SameHash s s2 → Freed m s (memfree m detach pfs { s2 with freemem := s2.freemem + CLSIZE }) := by
      intro s2 l2 h2 hhash2
      refine (ih h2).imp_left fun ⟨s', l', heq, h', hhash'⟩ => ⟨s', l', heq, h', ?_⟩
      exact hhash2.trans ⟨hhash'.hlink, hhash'.blkno, hhash'.vp, hhash'.cmhash, hhash'.v_count, hhash'.held⟩
    split_ifs with hend
    · exact hpus (h1.front hmem hne hlt rfl rfl rfl rfl rfl) (hsame (hsame (hsame (hsame hhash1
        fun _ => ⟨rfl, rfl, rfl⟩) fun _ => ⟨rfl, rfl, rfl⟩) fun _ => ⟨rfl, rfl, rfl⟩) fun _ => ⟨rfl, rfl, rfl⟩)
    · exact hpus (h1.back hmem hne hlt rfl rfl rfl rfl rfl) (hsame (hsame (hsame (hsame hhash1
        fun _ => ⟨rfl, rfl, rfl⟩) fun _ => ⟨rfl, rfl, rfl⟩) fun _ => ⟨rfl, rfl, rfl⟩) fun _ => ⟨rfl, rfl, rfl⟩)

end FreeList

/-! ### The chains -/

section Hashed

variable {V F : Type*} [DecidableEq V] {m : Machine V F} {s s' : Core V} {ch : ℕ → List ℕ} {c i : ℕ}

/-- The entries that have a block of `vp`. -/
def named (m : Machine V F) (s : Core V) (vp : V) : Finset ℕ :=
  (Finset.range m.ecmx).filter fun c => (s.cmap c).c_vp = some vp

/-- The entries that have a block are those of the chains `ch`, each once, and `mhash` holds their vnodes. -/
structure Hashed (m : Machine V F) (s : Core V) (ch : ℕ → List ℕ) : Prop where
  path : ∀ i, i < CMHSIZ → Path (Cmap.c_hlink ∘ s.cmap) (s.cmhash i) m.ecmx (ch i)
  nodup : ∀ i, i < CMHSIZ → (ch i).Nodup
  mem : ∀ i, i < CMHSIZ → ∀ c, c ∈ ch i ↔ (s.cmap c).c_blkno ≠ 0 ∧ CMHASH (s.cmap c).c_blkno = i
  entry : ∀ c, (s.cmap c).c_blkno ≠ 0 → 0 < c ∧ c < m.ecmx ∧ ∃ vp, (s.cmap c).c_vp = some vp
  no_vp : ∀ c, (s.cmap c).c_blkno = 0 → (s.cmap c).c_vp = none
  unique : ∀ c c', (s.cmap c).c_blkno ≠ 0 → (s.cmap c).c_blkno = (s.cmap c').c_blkno →
    (s.cmap c).c_vp = (s.cmap c').c_vp → c = c'
  held : ∀ vp, s.held vp = (named m s vp).card
  count : ∀ vp, s.held vp ≤ s.v_count vp

theorem CMHASH_lt (bn : ℕ) : CMHASH bn < CMHSIZ := mod_lt _ (by rw [CMHSIZ]; decide)

theorem named_congr (hvp : Cmap.c_vp ∘ s'.cmap = Cmap.c_vp ∘ s.cmap) (vp : V) : named m s' vp = named m s vp :=
  Finset.filter_congr fun c _ => by
    have hc : (s'.cmap c).c_vp = (s.cmap c).c_vp := congrFun hvp c
    rw [hc]

/-- Only these fields matter. -/
theorem Hashed.congr (h : Hashed m s ch) (hs : SameHash s s') : Hashed m s' ch := by
  have hbno : ∀ c, (s'.cmap c).c_blkno = (s.cmap c).c_blkno := congrFun hs.blkno
  have hvp : ∀ c, (s'.cmap c).c_vp = (s.cmap c).c_vp := congrFun hs.vp
  refine ⟨?_, h.nodup, ?_, ?_, ?_, ?_, ?_, ?_⟩
  · rw [hs.hlink, hs.cmhash]
    exact h.path
  · simp only [hbno]
    exact h.mem
  · simp only [hbno, hvp]
    exact h.entry
  · simp only [hbno, hvp]
    exact h.no_vp
  · simp only [hbno, hvp]
    exact h.unique
  · simp only [hs.held, named_congr hs.vp]
    exact h.held
  · simp only [hs.held, hs.v_count]
    exact h.count

theorem Hashed.ecmx_notMem (h : Hashed m s ch) (hi : i < CMHSIZ) : m.ecmx ∉ ch i := fun hmem =>
  absurd (h.entry _ ((h.mem i hi _).1 hmem).1).2.1 (lt_irrefl _)

theorem Hashed.length_le (h : Hashed m s ch) (hi : i < CMHSIZ) : (ch i).length ≤ m.ecmx := by
  have hsub : (ch i).toFinset ⊆ Finset.range m.ecmx := by
    intro c hc
    rw [List.mem_toFinset, h.mem i hi] at hc
    exact Finset.mem_range.2 (h.entry c hc.1).2.1
  have hcard := card_le_card hsub
  rwa [toFinset_card_of_nodup (h.nodup i hi), card_range] at hcard

variable {u v : List ℕ} {bn : ℕ} {hit : ℕ → Bool}

/-- What is found on a chain. -/
theorem Hashed.find_eq_some (h : Hashed m s ch) (hi : i < CMHSIZ) {p : Option ℕ × ℕ}
    (hp : find m s hit i = some p) : hit p.2 = true ∧ ∃ u v, ch i = u ++ p.2 :: v ∧ p.1 = u.getLast? := by
  obtain ⟨hhit, u, v, hch, hbef⟩ := (h.path i hi).seek_eq_some (h.ecmx_notMem hi) hp
  rw [or_none] at hbef
  exact ⟨hhit, u, v, hch, hbef⟩

theorem Hashed.find_eq_none (h : Hashed m s ch) (hi : i < CMHSIZ) (hp : find m s hit i = none) :
    ∀ c ∈ ch i, hit c = false :=
  (h.path i hi).seek_eq_none (h.ecmx_notMem hi) (lt_succ_of_le (h.length_le hi)) hp

/-- The entry leaves its chain, and the others stay as they are. -/
theorem Hashed.unlink_path (h : Hashed m s ch) (hi : i < CMHSIZ) (hch : ch i = u ++ c :: v) (j : ℕ)
    (hj : j < CMHSIZ) : Path (Cmap.c_hlink ∘ (unlink s i (u.getLast?, c)).cmap)
      ((unlink s i (u.getLast?, c)).cmhash j) m.ecmx (update ch i (u ++ v) j) := by
  have hpath := h.path i hi
  rw [hch] at hpath
  rcases u.eq_nil_or_concat with rfl | ⟨w, q, rfl⟩
  · rw [getLast?_nil, unlink]
    dsimp only
    by_cases hji : j = i
    · subst hji
      rw [update_self, update_self]
      exact hpath.2
    · rw [update_of_ne hji, update_of_ne hji]
      exact h.path j hj
  · rw [concat_eq_append, getLast?_concat, unlink]
    rw [Core.comp_set]
    dsimp only [Core.set]
    have hq : q ∈ ch i := by
      rw [hch, concat_eq_append]
      exact mem_append_left _ (mem_append_right _ (List.mem_singleton.2 rfl))
    by_cases hji : j = i
    · subst hji
      have hnd := h.nodup j hj
      rw [concat_eq_append, append_assoc, singleton_append] at hpath hch
      rw [hch] at hnd
      rw [update_self, append_assoc, singleton_append]
      obtain ⟨-, hrgt, hdisj⟩ := nodup_append.1 hnd
      refine hpath.unlink (fun hmem => hdisj _ hmem _ List.mem_cons_self rfl) fun hmem => ?_
      exact (nodup_cons.1 hrgt).1 (List.mem_cons_of_mem _ hmem)
    · rw [update_of_ne hji]
      refine (h.path j hj).update (fun hmem => hji ?_) _
      rw [← ((h.mem j hj q).1 hmem).2, ((h.mem i hi q).1 hq).2]

/-- A block is on its chain and nowhere else, so it is not found when it has been taken off. -/
theorem Hashed.mfind_unlink (h : Hashed m s ch) {vp : V}
    (hch : ch (CMHASH bn) = u ++ c :: v) (hbn : (s.cmap c).c_blkno = bn) (hvp : (s.cmap c).c_vp = some vp) :
    mfind m (unlink s (CMHASH bn) (u.getLast?, c)) vp bn = none := by
  have hi := CMHASH_lt bn
  have hpath := h.unlink_path hi hch (CMHASH bn) hi
  rw [update_self] at hpath
  have hsub : ∀ d ∈ u ++ v, d ∈ ch (CMHASH bn) ∧ d ≠ c := by
    intro d hd
    have hnd := h.nodup _ hi
    rw [hch] at hnd ⊢
    exact (mem_append_iff_of_nodup hnd).1 hd
  obtain ⟨-, hbno', hvp', -, -⟩ := unlink_same s (CMHASH bn) (u.getLast?, c)
  by_contra hne
  rw [mfind, map_eq_none_iff] at hne
  obtain ⟨r, hr⟩ := ne_none_iff_exists'.1 hne
  obtain ⟨hhas, u', v', huv, -⟩ := hpath.seek_eq_some (fun hmem => h.ecmx_notMem hi (hsub _ hmem).1) hr
  obtain ⟨hmem, hrc⟩ := hsub r.2 (huv ▸ mem_append_right _ List.mem_cons_self)
  obtain ⟨hrbn, hrvp⟩ := (Bool.and_eq_true_iff.1 hhas).imp beq_iff_eq.1 beq_iff_eq.1
  rw [show ((unlink s (CMHASH bn) (u.getLast?, c)).cmap r.2).c_blkno = (s.cmap r.2).c_blkno from
    congrFun hbno' r.2] at hrbn
  rw [show ((unlink s (CMHASH bn) (u.getLast?, c)).cmap r.2).c_vp = (s.cmap r.2).c_vp from
    congrFun hvp' r.2] at hrvp
  exact hrc (h.unique _ _ ((h.mem _ hi _).1 hmem).1 (hrbn.trans hbn.symm) (hrvp.trans hvp.symm))

/-- The entry that was found loses its block, and its vnode a hold. -/
theorem Hashed.remove (h : Hashed m s ch) (hi : i < CMHSIZ) {vp : V} (hch : ch i = u ++ c :: v)
    (hvp : (s.cmap c).c_vp = some vp) :
    Hashed m (clear c (giveBack vp 1 (unlink s i (u.getLast?, c)))) (update ch i (u ++ v)) := by
  have hpath := h.unlink_path hi hch
  obtain ⟨-, hbno, hvps, hheld, hcnt⟩ := unlink_same s i (u.getLast?, c)
  generalize unlink s i (u.getLast?, c) = s1 at *
  have hnd := h.nodup i hi
  have hmemc : c ∈ ch i := hch ▸ mem_append_right _ List.mem_cons_self
  rw [hch] at hnd
  have hspl : ∀ j, j < CMHSIZ → ∀ d, d ∈ update ch i (u ++ v) j ↔ d ∈ ch j ∧ d ≠ c := by
    intro j hj d
    by_cases hji : j = i
    · rw [hji, update_self, hch]
      exact mem_append_iff_of_nodup hnd
    · rw [update_of_ne hji]
      refine (and_iff_left_of_imp fun hd => ?_).symm
      rintro rfl
      exact hji (((h.mem j hj d).1 hd).2.symm.trans ((h.mem i hi d).1 hmemc).2)
  have hbno' : ∀ d, ((clear c (giveBack vp 1 s1)).cmap d).c_blkno = if d = c then 0 else (s.cmap d).c_blkno :=
    fun d => (clear_fields _ c d).1.trans (congrArg (ite (d = c) 0) (congrFun hbno d))
  have hvp' : ∀ d, ((clear c (giveBack vp 1 s1)).cmap d).c_vp = if d = c then none else (s.cmap d).c_vp :=
    fun d => (clear_fields _ c d).2.trans (congrArg (ite (d = c) none) (congrFun hvps d))
  have hbn : (s.cmap c).c_blkno ≠ 0 := ((h.mem i hi c).1 hmemc).1
  have hnamed : ∀ w, named m (clear c (giveBack vp 1 s1)) w = (named m s w).erase c := by
    intro w
    ext d
    rw [named, Finset.mem_filter, mem_erase, named, Finset.mem_filter, hvp']
    by_cases hd : d = c
    · rw [if_pos hd]
      exact iff_of_false (fun hmem => some_ne_none _ hmem.2.symm) fun hmem => hmem.1 hd
    · rw [if_neg hd]
      exact ⟨fun hmem => ⟨hd, hmem⟩, fun hmem => hmem.2⟩
  refine ⟨fun j hj => ?_, fun j hj => ?_, fun j hj d => ?_, fun d hd => ?_, fun d hd => ?_, fun d d' hd heq hvpeq => ?_,
    fun w => ?_, fun w => ?_⟩
  · have hlink : Cmap.c_hlink ∘ (clear c (giveBack vp 1 s1)).cmap = update (Cmap.c_hlink ∘ s1.cmap) c 0 :=
      Core.comp_set _ _ _ _
    rw [hlink]
    exact (hpath j hj).update (fun hmem => ((hspl j hj c).1 hmem).2 rfl) _
  · by_cases hji : j = i
    · rw [hji, update_self]
      exact hnd.sublist (List.Sublist.append_left (sublist_cons_self c v) u)
    · rw [update_of_ne hji]
      exact h.nodup j hj
  · rw [hspl j hj, h.mem j hj, hbno']
    by_cases hd : d = c
    · rw [if_pos hd]
      exact iff_of_false (fun hmem => hmem.2 hd) fun hmem => hmem.1 rfl
    · rw [if_neg hd]
      exact and_iff_left hd
  · rw [hbno'] at hd
    rw [hvp']
    split_ifs at hd ⊢ with hdc
    · exact absurd rfl hd
    · exact h.entry d hd
  · rw [hbno'] at hd
    rw [hvp']
    split_ifs at hd ⊢ with hdc
    · rfl
    · exact h.no_vp d hd
  · rw [hbno'] at hd
    rw [hbno', hbno'] at heq
    rw [hvp', hvp'] at hvpeq
    have hdc : d ≠ c := fun hdc => hd (if_pos hdc)
    rw [if_neg hdc] at hd heq hvpeq
    have hdc' : d' ≠ c := fun hdc' => hd (heq.trans (if_pos hdc'))
    rw [if_neg hdc'] at heq hvpeq
    exact h.unique d d' hd heq hvpeq
  · have hw : (clear c (giveBack vp 1 s1)).held w = update s.held vp (s.held vp - 1) w := hheld ▸ rfl
    rw [hnamed, hw]
    by_cases hwvp : w = vp
    · subst hwvp
      rw [update_self, h.held, card_erase_of_mem]
      exact Finset.mem_filter.2 ⟨Finset.mem_range.2 (h.entry c hbn).2.1, hvp⟩
    · rw [update_of_ne hwvp, h.held, erase_eq_of_notMem]
      intro hmem
      exact hwvp (some_inj.1 ((Finset.mem_filter.1 hmem).2.symm.trans hvp))
  · have hw : (clear c (giveBack vp 1 s1)).held w = update s.held vp (s.held vp - 1) w := hheld ▸ rfl
    have hw' : (clear c (giveBack vp 1 s1)).v_count w = update s.v_count vp (s.v_count vp - 1) w := hcnt ▸ rfl
    rw [hw, hw']
    by_cases hwvp : w = vp
    · rw [hwvp, update_self, update_self]
      exact Nat.sub_le_sub_right (h.count vp) 1
    · rw [update_of_ne hwvp, update_of_ne hwvp]
      exact h.count w

/-- An entry without a block gets one that is not there. -/
theorem Hashed.enter (h : Hashed m s ch) {vp : V} (hc : 0 < c) (hlt : c < m.ecmx)
    (hfree : (s.cmap c).c_blkno = 0) (hbn : 0 < bn) (hbn' : bn < 2 ^ 24) (hfind : mfind m s vp bn = none) :
    Hashed m (mhash c vp bn s) (update ch (CMHASH bn) (c :: ch (CMHASH bn))) := by
  have hi := CMHASH_lt bn
  have hcmap : (mhash c vp bn s).cmap = update s.cmap c
      { s.cmap c with c_hlink := s.cmhash (CMHASH bn), c_blkno := bn % 2 ^ 24, c_vp := some vp } := rfl
  have hoth : ∀ d, d ≠ c → (mhash c vp bn s).cmap d = s.cmap d := by
    intro d hd
    rw [hcmap, update_of_ne hd]
  have hbno : ((mhash c vp bn s).cmap c).c_blkno = bn := by
    rw [hcmap, update_self]
    exact mod_eq_of_lt hbn'
  have hvp : ((mhash c vp bn s).cmap c).c_vp = some vp := by
    rw [hcmap, update_self]
  have hnotMem : ∀ j, j < CMHSIZ → c ∉ ch j := fun j hj hmem => ((h.mem j hj c).1 hmem).1 hfree
  -- the block was not there before
  have hnew : ∀ d, (s.cmap d).c_blkno = bn → (s.cmap d).c_vp ≠ some vp := by
    intro d hd hdvp
    have hmem := (h.mem _ hi d).2 ⟨hd ▸ hbn.ne', by rw [hd]⟩
    rw [mfind, map_eq_none_iff] at hfind
    have hhas := h.find_eq_none hi hfind d hmem
    rw [Core.has, hd, hdvp] at hhas
    simp at hhas
  have hnamed : ∀ w, named m (mhash c vp bn s) w = if w = vp then insert c (named m s w) else named m s w := by
    intro w
    ext d
    rw [named, Finset.mem_filter]
    by_cases hdc : d = c
    · rw [hdc, hvp, some_inj]
      split_ifs with hw
      · exact iff_of_true ⟨Finset.mem_range.2 hlt, hw.symm⟩ (Finset.mem_insert_self _ _)
      · refine iff_of_false (fun hmem => hw hmem.2.symm) fun hmem => ?_
        exact some_ne_none w ((Finset.mem_filter.1 hmem).2.symm.trans (h.no_vp c hfree))
    · rw [hoth d hdc]
      split_ifs
      · rw [mem_insert, or_iff_right hdc, named, Finset.mem_filter]
      · rw [named, Finset.mem_filter]
  refine ⟨fun j hj => ?_, fun j hj => ?_, fun j hj d => ?_, fun d hd => ?_, fun d hd => ?_, fun d d' hd heq hvpeq => ?_,
    fun w => ?_, fun w => ?_⟩
  · have hlink : Cmap.c_hlink ∘ (mhash c vp bn s).cmap =
        update (Cmap.c_hlink ∘ s.cmap) c (s.cmhash (CMHASH bn)) := by
      rw [hcmap, comp_update]
    have hhash : (mhash c vp bn s).cmhash = update s.cmhash (CMHASH bn) c := rfl
    rw [hlink, hhash]
    by_cases hji : j = CMHASH bn
    · rw [hji, update_self, update_self]
      refine ⟨rfl, ?_⟩
      rw [update_self]
      exact (h.path _ hi).update (hnotMem _ hi) _
    · rw [update_of_ne hji, update_of_ne hji]
      exact (h.path j hj).update (hnotMem j hj) _
  · by_cases hji : j = CMHASH bn
    · rw [hji, update_self]
      exact nodup_cons.2 ⟨hnotMem _ hi, h.nodup _ hi⟩
    · rw [update_of_ne hji]
      exact h.nodup j hj
  · have hmem : d ∈ update ch (CMHASH bn) (c :: ch (CMHASH bn)) j ↔ d = c ∧ j = CMHASH bn ∨ d ∈ ch j := by
      by_cases hji : j = CMHASH bn
      · rw [hji, update_self, List.mem_cons, and_iff_left rfl]
      · rw [update_of_ne hji, or_iff_right fun hor => hji hor.2]
    rw [hmem]
    by_cases hdc : d = c
    · rw [hdc, hbno, or_iff_left (hnotMem j hj), and_iff_right rfl, and_iff_right hbn.ne']
      exact eq_comm
    · rw [hoth d hdc, or_iff_right fun hor => hdc hor.1]
      exact h.mem j hj d
  · by_cases hdc : d = c
    · rw [hdc, hvp]
      exact ⟨hc, hlt, vp, rfl⟩
    · rw [hoth d hdc] at hd ⊢
      exact h.entry d hd
  · by_cases hdc : d = c
    · rw [hdc, hbno] at hd
      exact absurd hd hbn.ne'
    · rw [hoth d hdc] at hd ⊢
      exact h.no_vp d hd
  · by_cases hdc : d = c
    · by_cases hdc' : d' = c
      · rw [hdc, hdc']
      · rw [hdc, hbno, hoth d' hdc'] at heq
        rw [hdc, hvp, hoth d' hdc'] at hvpeq
        exact absurd hvpeq.symm (hnew d' heq.symm)
    · by_cases hdc' : d' = c
      · rw [hdc', hbno, hoth d hdc] at heq
        rw [hdc', hvp, hoth d hdc] at hvpeq
        exact absurd hvpeq (hnew d heq)
      · rw [hoth d hdc] at hd heq hvpeq
        rw [hoth d' hdc'] at heq hvpeq
        exact h.unique d d' hd heq hvpeq
  · have hw : (mhash c vp bn s).held w = update s.held vp (s.held vp + 1) w := rfl
    rw [hnamed, hw]
    split_ifs with hwvp
    · rw [hwvp, update_self, h.held, card_insert_of_notMem]
      intro hmem
      exact some_ne_none vp ((Finset.mem_filter.1 hmem).2.symm.trans (h.no_vp c hfree))
    · rw [update_of_ne hwvp, h.held]
  · have hw : (mhash c vp bn s).held w = update s.held vp (s.held vp + 1) w := rfl
    have hw' : (mhash c vp bn s).v_count w = update s.v_count vp (s.v_count vp + 1) w := rfl
    rw [hw, hw']
    by_cases hwvp : w = vp
    · rw [hwvp, update_self, update_self]
      exact succ_le_succ (h.count vp)
    · rw [update_of_ne hwvp, update_of_ne hwvp]
      exact h.count w

/-- Other holds do not matter. -/
theorem Hashed.hold (h : Hashed m s ch) {vp : V} {v_count : ℕ} (hle : s.held vp ≤ v_count) :
    Hashed m { s with v_count := update s.v_count vp v_count } ch where
  path := h.path
  nodup := h.nodup
  mem := h.mem
  entry := h.entry
  no_vp := h.no_vp
  unique := h.unique
  held := h.held
  count := by
    intro w
    dsimp only
    by_cases hw : w = vp
    · rw [hw, update_self]
      exact hle
    · rw [update_of_ne hw]
      exact h.count w

end Hashed

end Uwisc.Vm
