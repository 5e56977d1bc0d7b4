import Uwisc.Sys.Vm.Lists

/-!
# Runs of the memory calls

`VN_RELE` may sleep before `memall`, `munhash` and `mpurgevfs` have cleared the entry they took off its chain.
Other calls then find an entry with a block that is on no chain, and `memall` goes on with frames it has not
got. `mpurge` gives the holds back last, and this is how all of them should: if only `mpurge` sleeps in
`VN_RELE`, the books are always right (`vm_run`).

* `After`: what holds when a call is about to give a vnode back;
* `memallLoop_ok`, `munhash_ok`, `mpurge_ok`, `mpurgevfs_ok`, `resume_ok`: what each part of a call keeps;
* `Inv.step`: what a step keeps.
-/

namespace Uwisc.Vm

open Function Lib List Nat Option

variable {V F : Type*} [DecidableEq V] {m : Machine V F}

/-- The books are right. -/
structure Sound (m : Machine V F) (s : Core V) : Prop where
  freemem : s.freemem = CLSIZE * ((Finset.range m.ecmx).filter fun c => (s.cmap c).c_free = true).card
  freeList : ∃ l, Ring (Cmap.c_next ∘ s.cmap) (Cmap.c_prev ∘ s.cmap) CMHEAD l ∧
    ∀ c, c ∈ l ↔ c < m.ecmx ∧ (s.cmap c).c_free = true
  chains : ∀ i, i < CMHSIZ → ∃ l, Path (Cmap.c_hlink ∘ s.cmap) (s.cmhash i) m.ecmx l ∧ l.Nodup ∧
    ∀ c, c ∈ l ↔ c < m.ecmx ∧ (s.cmap c).c_blkno ≠ 0 ∧ CMHASH (s.cmap c).c_blkno = i
  unique : ∀ c c', c < m.ecmx → c' < m.ecmx → (s.cmap c).c_blkno ≠ 0 →
    (s.cmap c).c_blkno = (s.cmap c').c_blkno → (s.cmap c).c_vp = (s.cmap c').c_vp → c = c'
  held : ∀ vp, s.held vp = ((Finset.range m.ecmx).filter fun c =>
    (s.cmap c).c_blkno ≠ 0 ∧ (s.cmap c).c_vp = some vp).card

/-- The lists are those of the entries. -/
def Good (m : Machine V F) (s : Core V) : Prop := (∃ l, FreeList m s l) ∧ ∃ ch, Hashed m s ch

theorem Good.sound {s : Core V} (h : Good m s) : Sound m s := by
  obtain ⟨⟨l, hl⟩, ch, hch⟩ := h
  have hfree : ∀ c, c ∈ l ↔ c < m.ecmx ∧ (s.cmap c).c_free = true := fun c =>
    ⟨fun hc => ⟨hl.lt c hc, (hl.free c).2 hc⟩, fun hc => (hl.free c).1 hc.2⟩
  refine ⟨?_, ⟨l, hl.ring, hfree⟩, fun i hi => ⟨ch i, hch.path i hi, hch.nodup i hi, fun c => ?_⟩,
    fun c c' _ _ => hch.unique c c', fun vp => ?_⟩
  · rw [hl.freemem, ← toFinset_card_of_nodup (nodup_cons.1 hl.ring.nodup).2]
    congr 3
    ext c
    rw [List.mem_toFinset, hfree, Finset.mem_filter, Finset.mem_range]
  · rw [hch.mem i hi]
    exact ⟨fun hc => ⟨(hch.entry c hc.1).2.1, hc⟩, fun hc => hc.2⟩
  · rw [hch.held, named]
    congr 1
    refine Finset.filter_congr fun c _ => ⟨fun hvp => ⟨fun hzero => ?_, hvp⟩, fun hvp => hvp.2⟩
    exact some_ne_none vp (hvp.symm.trans (hch.no_vp c hzero))

/-- The entry `c` is off its chain and still has its block: it has to be cleared when `vp` is given back. -/
structure Pending (m : Machine V F) (vp : V) (c : ℕ) (s : Core V) : Prop where
  blkno : (s.cmap c).c_blkno ≠ 0
  lt : c < m.ecmx
  hashed : ∃ ch, Hashed m (clear c (giveBack vp 1 s)) ch

/-- What holds when `vp` is about to be given back, for what is left of the call. -/
def After (m : Machine V F) (vp : V) : Cont V F → Core V → Prop
  | .memall _ clusters _ c, s =>
    (∃ l, clusters ≤ l.length ∧ FreeList m (s.set c fun e => { e with c_free := false }) l) ∧ Pending m vp c s
  | .munhash c, s => (∃ l, FreeList m s l) ∧ Pending m vp c s
  | .mpurge vp' j, s => vp' = vp ∧ (∃ l, FreeList m s l) ∧ (∃ ch, Hashed m (giveBack vp (j + 1) s) ch) ∧
      j + 1 ≤ s.held vp ∧ s.held vp ≤ s.v_count vp
  | .mpurgevfs _ c, s => (∃ l, FreeList m s l) ∧ Pending m vp c s

/-- The panics that the books are to exclude. -/
def excluded : List String := ["dup mem alloc", "memall ecmap", "munhash"]

/-- A call gets somewhere, and the books are right or will be. -/
def Out.Ok (m : Machine V F) : Out V F → Prop
  | .done _ s => Good m s
  | .rele vp k s => After m vp k s
  | .panic message => message ∉ excluded

/-! ### Giving back -/

theorem giveBack_zero (vp : V) (s : Core V) : giveBack vp 0 s = s := by
  rw [giveBack, Nat.sub_zero, Nat.sub_zero, update_eq_self, update_eq_self]

theorem giveBack_giveBack (vp : V) (i j : ℕ) (s : Core V) :
    giveBack vp j (giveBack vp i s) = giveBack vp (i + j) s := by
  rw [giveBack, giveBack, giveBack]
  dsimp only
  rw [update_self, update_self, update_idem, update_idem, Nat.sub_sub, Nat.sub_sub]

theorem unlink_giveBack (vp : V) (j i : ℕ) (p : Option ℕ × ℕ) (s : Core V) :
    unlink (giveBack vp j s) i p = giveBack vp j (unlink s i p) := by
  obtain ⟨c2 | c2, c1⟩ := p <;> rfl

theorem sameFree_giveBack (vp : V) (j : ℕ) (s : Core V) : SameFree s (giveBack vp j s) := ⟨rfl, rfl, rfl, rfl⟩

variable {i c j n : ℕ} {ch : ℕ → List ℕ}

/-- An entry that was found is off its chain. -/
theorem Hashed.pending {s : Core V} (h : Hashed m s ch) (hi : i < CMHSIZ)
    {u v : List ℕ} {vp : V} (hch : ch i = u ++ c :: v) (hvp : (s.cmap c).c_vp = some vp) :
    Pending m vp c (unlink s i (u.getLast?, c)) := by
  have hbn : (s.cmap c).c_blkno ≠ 0 := ((h.mem i hi c).1 (hch ▸ mem_append_right _ List.mem_cons_self)).1
  have hsame : ((unlink s i (u.getLast?, c)).cmap c).c_blkno = (s.cmap c).c_blkno :=
    congrFun (unlink_same _ _ _).2.1 c
  exact ⟨hsame ▸ hbn, (h.entry c hbn).2.1, _, h.remove hi hch hvp⟩

/-! ### `memall` -/

theorem memallLoop_ok (type : Kind) (clusters : ℕ) {pfs l : List ℕ} {s : Core V}
    (hl : FreeList m s l) (hle : clusters ≤ l.length) (hch : Hashed m s ch) :
    (memallLoop m type clusters pfs s).Ok m := by
  induction clusters generalizing pfs l s with
  | zero => exact ⟨⟨l, hl⟩, ch, hch⟩
  | succ clusters ih =>
    obtain ⟨c, v, rfl⟩ : ∃ c v, l = c :: v := by
      cases l with
      | nil => exact absurd hle (not_succ_le_zero _)
      | cons c v => exact ⟨c, v, rfl⟩
    have hc : (s.cmap CMHEAD).c_next = c := hl.ring.next_head
    obtain ⟨s1, hs1⟩ : ∃ s1, s1 = ({ s with freemem := s.freemem - CLSIZE }.set CMHEAD fun e =>
      { e with c_next := (s.cmap c).c_next }).set (s.cmap c).c_next fun e => { e with c_prev := CMHEAD } := ⟨_, rfl⟩
    obtain ⟨hfree, htkn⟩ := hl.take s1 hs1
    have hsame : SameHash s s1 := by
      have hst : SameHash s { s with freemem := s.freemem - CLSIZE } := ⟨rfl, rfl, rfl, rfl, rfl, rfl⟩
      rw [hs1]
      refine (hst.trans (SameHash.set ?_)).trans (SameHash.set ?_) <;> exact fun _ => ⟨rfl, rfl, rfl⟩
    have hch1 := hch.congr hsame
    rw [memallLoop]
    dsimp only
    rw [hc, ← hs1, if_neg (by rw [hfree]; decide)]
    split_ifs with hmax hblk
    · exact (by decide : "bad mem alloc" ∉ excluded)
    · have hi := CMHASH_lt (s1.cmap c).c_blkno
      have hmem := (hch1.mem _ hi c).2 ⟨hblk, rfl⟩
      obtain ⟨-, -, vp, hvp⟩ := hch1.entry c hblk
      rw [hvp]
      rcases hfind : find m s1 (· == c) (CMHASH (s1.cmap c).c_blkno) with _ | p
      · have := hch1.find_eq_none hi hfind c hmem
        simp at this
      · obtain ⟨hhit, u, w, hspl, hbef⟩ := hch1.find_eq_some hi hfind
        obtain ⟨c2, c1⟩ := p
        obtain rfl : c1 = c := beq_iff_eq.1 hhit
        obtain rfl : c2 = u.getLast? := hbef
        dsimp only
        have hbn : ((unlink s1 (CMHASH (s1.cmap c1).c_blkno) (u.getLast?, c1)).cmap c1).c_blkno =
            (s1.cmap c1).c_blkno := congrFun (unlink_same _ _ _).2.1 c1
        rw [hbn, hch1.mfind_unlink hspl rfl hvp, if_neg (by decide)]
        exact ⟨⟨v, le_of_succ_le_succ hle, htkn.congr ((unlink_same _ _ _).1.taken c1)⟩,
          hch1.pending hi hspl hvp⟩
    · rcases hfrm : frame type c s1 with _ | s2
      · exact (by decide : "memall intrans|want" ∉ excluded)
      · obtain ⟨hsf, hsh⟩ := frame_spec hfrm
        exact ih (htkn.congr hsf) (le_of_succ_le_succ hle) (hch1.congr hsh)

theorem memall_ok (size : ℕ) (type : Kind) {s : Core V} (h : Good m s) : (memall m size type s).Ok m := by
  obtain ⟨⟨l, hl⟩, ch, hch⟩ := h
  rw [memall]
  split_ifs with hsize hfree
  · exact (by decide : "memall" ∉ excluded)
  · exact ⟨⟨l, hl⟩, ch, hch⟩
  · refine memallLoop_ok type _ hl ?_ hch
    have hfre := hl.freemem
    have hmod : (size : ℤ) = CLSIZE * (size / CLSIZE : ℕ) := by
      exact_mod_cast (Nat.mul_div_cancel' (dvd_of_mod_eq_zero (not_not.1 hsize))).symm
    rw [hfre, hmod] at hfree
    have hle : CLSIZE * (size / CLSIZE) ≤ CLSIZE * l.length := by exact_mod_cast not_lt.1 hfree
    exact Nat.le_of_mul_le_mul_left hle (by decide)

/-! ### The other calls -/

theorem munhash_ok {vp : V} {bn : ℕ} {s : Core V} (h : Good m s) (hfind : (mfind m s vp bn).isSome = true) :
    (munhash m vp bn s).Ok m := by
  obtain ⟨⟨l, hl⟩, ch, hch⟩ := h
  have hi := CMHASH_lt bn
  rw [mfind, isSome_map] at hfind
  obtain ⟨⟨c2, c1⟩, hp⟩ := isSome_iff_exists.1 hfind
  obtain ⟨hhit, u, v, hspl, hbef⟩ := hch.find_eq_some hi hp
  obtain rfl : c2 = u.getLast? := hbef
  obtain ⟨hbn, hvp⟩ := (Bool.and_eq_true_iff.1 hhit).imp beq_iff_eq.1 beq_iff_eq.1
  rw [munhash, hp]
  dsimp only
  rw [hch.mfind_unlink hspl hbn hvp, if_neg (by decide)]
  exact ⟨⟨l, hl.congr (unlink_same _ _ _).1⟩, hch.pending hi hspl hvp⟩

/-- In the middle of `mpurge`, when `j` blocks of `vp` are gone and their holds are not. -/
structure Purged (m : Machine V F) (vp : V) (j : ℕ) (s : Core V) : Prop where
  free : ∃ l, FreeList m s l
  hashed : ∃ ch, Hashed m (giveBack vp j s) ch
  le : j ≤ s.held vp
  count : s.held vp ≤ s.v_count vp

theorem Purged.chain {vp : V} (hi : i < CMHSIZ) (fuel : ℕ) {s : Core V} (h : Purged m vp j s) :
    Purged m vp (mpurgeChain m vp i fuel j s).1 (mpurgeChain m vp i fuel j s).2 := by
  induction fuel generalizing j s with
  | zero => exact h
  | succ fuel ih =>
    rw [mpurgeChain]
    rcases hfind : find m s (s.ofVnode vp) i with _ | ⟨c2, c1⟩
    · exact h
    · obtain ⟨⟨l, hl⟩, ⟨ch, hch⟩, hle, hcnt⟩ := h
      have hfind' : find m (giveBack vp j s) (s.ofVnode vp) i = some (c2, c1) := hfind
      obtain ⟨hhit, u, v, hspl, hbef⟩ := hch.find_eq_some hi hfind'
      obtain rfl : c2 = u.getLast? := hbef
      have hvp : ((giveBack vp j s).cmap c1).c_vp = some vp := beq_iff_eq.1 hhit
      have hrem := hch.remove hi hspl hvp
      rw [unlink_giveBack, giveBack_giveBack] at hrem
      obtain ⟨hsame, -, -, hheld, hcou⟩ := unlink_same s i (u.getLast?, c1)
      -- the entry is one of those that name `vp`
      have hlt : j + 1 ≤ s.held vp := by
        have hcard := hch.held vp
        have hmem : c1 ∈ named m (giveBack vp j s) vp := by
          have hbn := ((hch.mem i hi c1).1 (hspl ▸ mem_append_right _ List.mem_cons_self)).1
          exact Finset.mem_filter.2 ⟨Finset.mem_range.2 (hch.entry c1 hbn).2.1, hvp⟩
        have hpos := Finset.card_pos.2 ⟨c1, hmem⟩
        have hgive : (giveBack vp j s).held vp = s.held vp - j := update_self _ _ _
        omega
      refine ih ⟨⟨l, hl.congr (hsame.trans (sameFree_clear _ _))⟩, ⟨_, hrem⟩, ?_, ?_⟩
      · exact hlt.trans_eq (congrFun hheld vp).symm
      · exact (congrFun hheld vp).trans_le (hcnt.trans_eq (congrFun hcou vp).symm)

theorem Purged.rele_ok {vp : V} {s : Core V} (h : Purged m vp j s) : (mpurgeRele vp j s : Out V F).Ok m := by
  cases j with
  | zero =>
    obtain ⟨hl, hch, -, -⟩ := h
    rw [giveBack_zero] at hch
    exact ⟨hl, hch⟩
  | succ j => exact ⟨rfl, h.free, h.hashed, h.le, h.count⟩

theorem mpurge_ok (vp : V) {s : Core V} (h : Good m s) : (mpurge m vp s).Ok m := by
  have hst : Purged m vp 0 s := by
    obtain ⟨hl, ch, hch⟩ := h
    refine ⟨hl, ⟨ch, ?_⟩, Nat.zero_le _, hch.count vp⟩
    rwa [giveBack_zero]
  have hfold : ∀ is : List ℕ, (∀ i ∈ is, i < CMHSIZ) → ∀ p : ℕ × Core V, Purged m vp p.1 p.2 →
      Purged m vp (is.foldl (fun p i => mpurgeChain m vp i (m.ecmx + 1) p.1 p.2) p).1
        (is.foldl (fun p i => mpurgeChain m vp i (m.ecmx + 1) p.1 p.2) p).2 := by
    intro is
    induction is with
    | nil => exact fun _ _ hp => hp
    | cons i is ih =>
      intro his p hp
      exact ih (fun k hk => his k (List.mem_cons_of_mem _ hk)) _ (hp.chain (his i List.mem_cons_self) _)
  exact (hfold _ (fun i hi => List.mem_range.1 hi) (0, s) hst).rele_ok

/-- As long as the entry is not cleared, the books are wrong. -/
theorem Pending.not_sound {vp : V} {core : Core V} (h : Pending m vp c core) :
    ¬ Sound m (giveBack vp 1 core) := by
  intro hsnd
  obtain ⟨hbn, hlt, ch, hch⟩ := h
  have hi := CMHASH_lt (core.cmap c).c_blkno
  obtain ⟨l, hpath, -, hmem⟩ := hsnd.chains _ hi
  have hc : c ∈ l := (hmem c).2 ⟨hlt, hbn, rfl⟩
  have hnotMem : c ∉ ch (CMHASH (core.cmap c).c_blkno) := fun hc' =>
    ((hch.mem _ hi c).1 hc').1 ((clear_fields _ c c).1.trans (if_pos rfl))
  -- but for the entry, the chain is the same
  have hpath' : Path (Cmap.c_hlink ∘ core.cmap) (core.cmhash (CMHASH (core.cmap c).c_blkno)) m.ecmx
      (ch (CMHASH (core.cmap c).c_blkno)) := by
    refine (hch.path _ hi).congr fun d hd => ?_
    have hlink : Cmap.c_hlink ∘ (clear c (giveBack vp 1 core)).cmap =
        update (Cmap.c_hlink ∘ core.cmap) c 0 := Core.comp_set _ _ _ _
    rw [hlink, update_of_ne (ne_of_mem_of_not_mem hd hnotMem)]
  have hstop : m.ecmx ∉ l := fun hmem' => lt_irrefl _ ((hmem _).1 hmem').1
  exact hnotMem (hpath.unique hpath' hstop (hch.ecmx_notMem hi) ▸ hc)

/-! ### Runs -/

/-- What holds in every state. -/
structure Inv (m : Machine V F) (s : State V F) : Prop where
  running : ∀ vp k, s.running = some (vp, k) → After m vp k s.core
  idle : s.running = none → s.panic = none → Good m s.core
  asleep : ∀ k ∈ s.asleep, ∃ vp, k = .mpurge vp 0
  panic : ∀ message, s.panic = some message → message ∉ excluded

/-- The condition on the steps: only `mpurge` sleeps in `VN_RELE`. -/
def OnlyMpurgeSleeps (s : State V F) (a : Act V F) : Prop :=
  a = .rele true → ∃ vp vp' j, s.running = some (vp, .mpurge vp' j)

theorem inv_after {s : State V F} {out : Out V F} {asleep : List (Cont V F)} (h : out.Ok m)
    (hasl : ∀ k ∈ asleep, ∃ vp, k = .mpurge vp 0) : Inv m (s.after asleep out) := by
  cases out with
  | done pfs core =>
    exact ⟨fun _ _ hrun => absurd hrun.symm (some_ne_none _), fun _ _ => h, hasl,
      fun _ hpnc => absurd hpnc.symm (some_ne_none _)⟩
  | rele vp k core =>
    refine ⟨fun vp' k' hrun => ?_, fun hrun => absurd hrun (some_ne_none _), hasl,
      fun _ hpnc => absurd hpnc.symm (some_ne_none _)⟩
    cases hrun
    exact h
  | panic message =>
    refine ⟨fun _ _ hrun => absurd hrun.symm (some_ne_none _), fun _ hpnc =>
      absurd hpnc (some_ne_none _), hasl, fun message' hpnc => ?_⟩
    cases hpnc
    exact h

/-- A step that leaves nothing under way. -/
theorem Inv.idle_core {s : State V F} {core : Core V} (h : Inv m s) (hrun : s.running = none)
    (hpnc : s.panic = none) (hgood : Good m core) : Inv m { s with core := core } where
  running := fun _ _ hrun' => absurd (hrun'.symm.trans hrun) (some_ne_none _)
  idle := fun _ _ => hgood
  asleep := h.asleep
  panic := fun _ hpnc' => absurd (hpnc'.symm.trans hpnc) (some_ne_none _)

section Steps

variable [DecidableEq F]

/-! ### Steps -/

theorem mpurgevfs_ok (vfsp : F) {s : Core V} (h : Good m s) : (mpurgevfs m vfsp s).Ok m := by
  obtain ⟨⟨l, hl⟩, ch, hch⟩ := h
  rw [mpurgevfs]
  generalize hsome : ((List.range CMHSIZ).findSome? fun i => (find m s (s.ofVfs m vfsp) i).map fun p => (i, p)) = r
  cases r with
  | none => exact ⟨⟨l, hl⟩, ch, hch⟩
  | some r =>
    obtain ⟨i, c2, c1⟩ := r
    obtain ⟨k, hk, hfind⟩ := exists_of_findSome?_eq_some hsome
    obtain ⟨p, hp, heq⟩ := map_eq_some_iff.1 hfind
    obtain ⟨rfl, rfl⟩ := Prod.mk.inj heq
    have hi := List.mem_range.1 hk
    obtain ⟨hhit, u, v, hspl, hbef⟩ := hch.find_eq_some hi hp
    obtain rfl : c2 = u.getLast? := hbef
    obtain ⟨vp, hvp⟩ : ∃ vp, (s.cmap c1).c_vp = some vp :=
      (hch.entry c1 ((hch.mem k hi c1).1 (hspl ▸ mem_append_right _ List.mem_cons_self)).1).2.2
    dsimp only
    have hvp' : ((unlink s k (u.getLast?, c1)).cmap c1).c_vp = some vp :=
      (congrFun (unlink_same s k (u.getLast?, c1)).2.2.1 c1).trans hvp
    rw [hvp']
    exact ⟨⟨l, hl.congr (unlink_same _ _ _).1⟩, hch.pending hi hspl hvp⟩

/-- The rest of a call, when `vp` has been given back. -/
theorem resume_ok {vp : V} {k : Cont V F} {s : Core V} (h : After m vp k s) :
    (resume m (giveBack vp 1 s) k).Ok m := by
  cases k with
  | memall type clusters pfs c =>
    obtain ⟨⟨l, hle, hl⟩, -, -, ch, hch⟩ := h
    rw [resume]
    rcases hfrm : frame type c (clear c (giveBack vp 1 s)) with _ | s'
    · exact (by decide : "memall intrans|want" ∉ excluded)
    · obtain ⟨hsf, hsh⟩ := frame_spec hfrm
      have hsame := ((sameFree_giveBack vp 1 s).trans (sameFree_clear c _)).taken c
      exact memallLoop_ok type clusters ((hl.congr hsame).congr hsf) hle (hch.congr hsh)
  | munhash c =>
    obtain ⟨⟨l, hl⟩, -, -, hch⟩ := h
    exact ⟨⟨l, hl.congr ((sameFree_giveBack vp 1 s).trans (sameFree_clear c _))⟩, hch⟩
  | mpurge vp' j =>
    obtain ⟨rfl, ⟨l, hl⟩, ⟨ch, hch⟩, hle, hcnt⟩ := h
    have hheld : (giveBack vp' 1 s).held vp' = s.held vp' - 1 := update_self _ _ _
    have hcou : (giveBack vp' 1 s).v_count vp' = s.v_count vp' - 1 := update_self _ _ _
    refine Purged.rele_ok ⟨⟨l, hl.congr (sameFree_giveBack _ 1 s)⟩, ⟨ch, ?_⟩, by omega, by omega⟩
    rwa [giveBack_giveBack, add_comm]
  | mpurgevfs vfsp c =>
    obtain ⟨⟨l, hl⟩, -, -, hch⟩ := h
    rw [resume]
    exact mpurgevfs_ok vfsp ⟨⟨l, hl.congr ((sameFree_giveBack vp 1 s).trans (sameFree_clear c _))⟩, hch⟩

/-- A vnode is given back, and the call goes on or, if it is `mpurge`, may sleep. -/
theorem Inv.rele {core : Core V} {vp : V} {k : Cont V F} {asleep : List (Cont V F)} {sleeps : Bool}
    {s' : State V F} (h : Inv m ⟨core, some (vp, k), asleep, none⟩) (haft : After m vp k core)
    (hstep : exec m ⟨core, some (vp, k), asleep, none⟩ (.rele sleeps) = some s')
    (hcond : OnlyMpurgeSleeps ⟨core, some (vp, k), asleep, none⟩ (.rele sleeps)) : Inv m s' := by
  change (if core.v_count vp = 0 then some _
    else if sleeps then (if (giveBack vp 1 core).v_count vp = 0 then some _ else none)
    else some (State.after _ asleep (resume m (giveBack vp 1 core) k))) = some s' at hstep
  split_ifs at hstep with hzero hsle hlast
  · cases hstep
    refine ⟨fun _ _ hrun => absurd hrun.symm (some_ne_none _), fun _ hpnc =>
      absurd hpnc (some_ne_none _), h.asleep, fun message hpnc => ?_⟩
    cases hpnc
    decide
  · cases hstep
    subst hsle
    obtain ⟨vp1, vp', j, hrun⟩ := hcond rfl
    cases hrun
    obtain ⟨rfl, ⟨l, hl⟩, hch, hle, hcnt⟩ := haft
    -- the last hold there is, so the last one `mpurge` has to give back
    have hcou : (giveBack vp' 1 core).v_count vp' = core.v_count vp' - 1 := update_self _ _ _
    obtain rfl : j = 0 := by omega
    refine ⟨fun _ _ hrun => absurd hrun.symm (some_ne_none _), fun _ _ =>
      ⟨⟨l, hl.congr (sameFree_giveBack _ 1 core)⟩, hch⟩, fun k hk => ?_,
      fun _ hpnc => absurd hpnc.symm (some_ne_none _)⟩
    rcases mem_append.1 hk with hk | hk
    · exact h.asleep k hk
    · exact ⟨vp', List.mem_singleton.1 hk⟩
  · cases hstep
    exact inv_after (resume_ok haft) h.asleep

theorem exec_wakeup (m : Machine V F) (core : Core V) (asleep : List (Cont V F)) (n : ℕ) :
    exec m ⟨core, none, asleep, none⟩ (.wakeup n) = match asleep[n]? with
      | none => none
      | some k => some (State.after ⟨core, none, asleep, none⟩ (asleep.eraseIdx n) (resume m core k)) := rfl

theorem Inv.step (hm : m.pgtocm m.maxfree < m.ecmx) {s s' : State V F} {a : Act V F} (h : Inv m s)
    (hstep : exec m s a = some s') (hcond : OnlyMpurgeSleeps s a) : Inv m s' := by
  obtain ⟨core, running, asleep, panic⟩ := s
  rcases panic with _ | message
  swap
  · exact absurd hstep.symm (some_ne_none _)
  rcases running with _ | ⟨vp, k⟩
  · have hgood : Good m core := h.idle rfl rfl
    obtain ⟨⟨l, hl⟩, ch, hch⟩ := id hgood
    cases a with
    | memall size type =>
      cases hstep
      exact inv_after (memall_ok size type hgood) h.asleep
    | memfree detach pfs =>
      cases hstep
      refine inv_after ?_ h.asleep
      change (memfree m detach pfs core).Ok m
      rcases memfree_spec hm detach pfs hl with ⟨core', l', hout, hl', hsame⟩ | hout | hout
      · rw [hout]
        exact ⟨⟨l', hl'⟩, ch, hch.congr hsame⟩
      · rw [hout]
        exact (by decide : "bad mem free" ∉ excluded)
      · rw [hout]
        exact (by decide : "dup mem free" ∉ excluded)
    | munlink c =>
      obtain ⟨hfree, heq⟩ := ite_none_right_eq_some.1 hstep
      cases heq
      obtain ⟨u, v, rfl⟩ := append_of_mem ((hl.free c).1 hfree)
      exact h.idle_core rfl rfl ⟨⟨_, hl.munlink⟩, ch, hch.congr (sameHash_munlink c core)⟩
    | mhash c vp bn =>
      obtain ⟨⟨hpos, hlt, hbno, hbn, hbn', hfind⟩, heq⟩ := ite_none_right_eq_some.1 hstep
      cases heq
      exact h.idle_core rfl rfl ⟨⟨l, hl.congr (sameFree_mhash c vp bn core)⟩, _,
        hch.enter hpos hlt hbno hbn hbn' hfind⟩
    | munhash vp bn =>
      obtain ⟨hfind, heq⟩ := ite_none_right_eq_some.1 hstep
      cases heq
      exact inv_after (munhash_ok hgood hfind) h.asleep
    | mpurge vp =>
      cases hstep
      exact inv_after (mpurge_ok vp hgood) h.asleep
    | mpurgevfs vfsp =>
      cases hstep
      exact inv_after (mpurgevfs_ok vfsp hgood) h.asleep
    | rele sleeps => exact absurd hstep.symm (some_ne_none _)
    | wakeup n =>
      rw [exec_wakeup] at hstep
      rcases hk : asleep[n]? with _ | k
      · rw [hk] at hstep
        exact absurd hstep.symm (some_ne_none _)
      · rw [hk] at hstep
        cases hstep
        obtain ⟨vp, rfl⟩ := h.asleep k (mem_of_getElem? hk)
        exact inv_after hgood fun k hk => h.asleep k (mem_of_mem_eraseIdx hk)
    | hold vp v_count =>
      obtain ⟨hle, heq⟩ := ite_none_right_eq_some.1 hstep
      cases heq
      exact h.idle_core rfl rfl ⟨⟨l, hl.congr ⟨rfl, rfl, rfl, rfl⟩⟩, ch, hch.hold hle⟩
    | flags c lock want intrans =>
      cases hstep
      refine h.idle_core rfl rfl ⟨⟨l, hl.congr (SameFree.set ?_)⟩, ch, hch.congr (SameHash.set ?_)⟩
      · exact fun _ => ⟨rfl, rfl, rfl⟩
      · exact fun _ => ⟨rfl, rfl, rfl⟩
  · have haft := h.running vp k rfl
    cases a with
    | rele sleeps => exact h.rele haft hstep hcond
    | _ => exact absurd hstep.symm (some_ne_none _)

/-- If another call than `mpurge` sleeps, the books are wrong. -/
theorem Inv.not_sound {s s' : State V F} (h : Inv m s) (hstep : exec m s (.rele true) = some s')
    (hcond : ¬ OnlyMpurgeSleeps s (.rele true)) (hpnc : s'.panic = none) : ¬ Sound m s'.core := by
  obtain ⟨core, running, asleep, panic⟩ := s
  rcases panic with _ | message
  swap
  · exact absurd hstep.symm (some_ne_none _)
  rcases running with _ | ⟨vp, k⟩
  · exact absurd hstep.symm (some_ne_none _)
  have haft := h.running vp k rfl
  change (if core.v_count vp = 0 then some (State.mk core none asleep (some "vn_rele"))
    else if (giveBack vp 1 core).v_count vp = 0 then some (State.mk (giveBack vp 1 core) none (asleep ++ [k]) none)
    else none) = some s' at hstep
  split_ifs at hstep
  · cases hstep
    exact absurd hpnc (some_ne_none _)
  · cases hstep
    cases k with
    | memall type clusters pfs c => exact haft.2.not_sound
    | munhash c => exact haft.2.not_sound
    | mpurge vp' j => exact absurd (fun _ => ⟨vp, vp', j, rfl⟩) hcond
    | mpurgevfs vfsp c => exact haft.2.not_sound

end Steps

/-!
### When the books are right

From `meminit` on, the books are right as long as only `mpurge` sleeps in `VN_RELE`, and wrong as soon as
another call does (`vm_run`). What may come of it is a panic: `memall` has looked whether there are enough free
frames, sleeps, and finds none (`dup_mem_alloc`).
-/

/-- The entries of the core map that `startup` lays out after `used` bytes of `maxmem` pages of 512 bytes: an entry
    takes 20 bytes. -/
def startupNcmap (maxmem used : ℕ) : ℕ := (maxmem * 512 - used) / (CLSIZE * 512 + 20) + 2

/-- There is an entry for every frame that is left after that. -/
theorem startup_fits {V F : Type*} {first maxmem used : ℕ} (v_vfsp : V → F)
    (hfst : used + startupNcmap maxmem used * 20 ≤ first * 512) :
    (machine first maxmem (startupNcmap maxmem used) v_vfsp).pgtocm
      (machine first maxmem (startupNcmap maxmem used) v_vfsp).maxfree <
    (machine first maxmem (startupNcmap maxmem used) v_vfsp).ecmx := by
  simp only [machine, Machine.pgtocm, clrnd, startupNcmap, CLSIZE] at *
  omega

/-- From an index on, the free frames lead up to the last one and from there to the head. -/
theorem path_up (k : ℕ) {a : ℕ} (ha : a + k = n) :
    Path (fun i => if i < n then i + 1 else CMHEAD) a CMHEAD (range' a (k + 1)) := by
  induction k generalizing a with
  | zero => exact ⟨rfl, if_neg (Nat.not_lt.2 (Nat.le_of_eq ha.symm))⟩
  | succ k ih =>
    refine ⟨rfl, ?_⟩
    dsimp only
    rw [if_pos (by omega)]
    exact ih (by omega)

/-- And back. -/
theorem path_down (k : ℕ) (hk : k ≤ n) :
    Path (fun i => if i = CMHEAD then n else if i ≤ n then i - 1 else 0) k CMHEAD (range' 1 k).reverse := by
  induction k with
  | zero => exact rfl
  | succ k ih =>
    rw [range'_1_concat, reverse_append, reverse_singleton, singleton_append, add_comm 1 k]
    refine ⟨rfl, ?_⟩
    dsimp only
    rw [if_neg (show k + 1 ≠ CMHEAD from succ_ne_zero k), if_pos hk]
    exact ih (le_of_succ_le hk)

theorem meminit_good (hm : m.pgtocm m.maxfree < m.ecmx) (v_count : V → ℕ) : Good m (meminit m v_count) := by
  have hfra : m.frames < m.ecmx := lt_of_le_of_lt (Nat.min_le_left _ _) (lt_of_succ_lt hm)
  refine ⟨⟨range' 1 m.frames, ⟨?_, ?_, ?_⟩, fun i => ?_, fun i hi => ?_, ?_⟩, fun _ => [], ?_⟩
  · exact nodup_range' (s := 0) (n := m.frames + 1)
  · exact path_up m.frames (a := 0) (zero_add _)
  · exact ⟨rfl, path_down m.frames le_rfl⟩
  · rw [mem_range'_1]
    refine decide_eq_true_iff.trans ?_
    omega
  · rw [mem_range'_1] at hi
    omega
  · rw [length_range', mul_comm]
    rfl
  · have hzero : ∀ vp, named m (meminit m v_count) vp = ∅ := by
      intro vp
      exact Finset.filter_false_of_mem fun c _ hvp => some_ne_none vp hvp.symm
    refine ⟨fun i _ => rfl, fun i _ => nodup_nil, fun i _ c => ?_, fun c hc => absurd rfl hc, fun c _ => rfl,
      fun c c' hc => absurd rfl hc, fun vp => ?_, fun vp => Nat.zero_le _⟩
    · exact iff_of_false not_mem_nil fun hc => hc.1 rfl
    · rw [hzero, Finset.card_empty]
      rfl

section Exact

variable [DecidableEq F]

theorem reachable_inv {m : Machine V F} (hm : m.pgtocm m.maxfree < m.ecmx) {s : State V F}
    (hs : ((system m).restrict OnlyMpurgeSleeps).Reachable s) : Inv m s := by
  refine System.Reachable.invariant (I := fun s => Inv m s) ?_ (fun s a s' h hstep => ?_) hs
  swap
  · exact h.step hm hstep.2 hstep.1
  rintro s ⟨v_count, rfl⟩
  exact ⟨fun _ _ hrun => absurd hrun.symm (some_ne_none _), fun _ _ => meminit_good hm v_count,
    fun k hk => absurd hk not_mem_nil, fun _ hpnc => absurd hpnc.symm (some_ne_none _)⟩

/-- In a run in which only `mpurge` sleeps, the books are right whenever no call is under way, and none of the
    panics happens; when another call sleeps next, they are wrong. The core map has an entry for every frame
    that `memfree` takes. -/
theorem vm_run {m : Machine V F} (hm : m.pgtocm m.maxfree < m.ecmx) {s : State V F}
    (hs : ((system m).restrict OnlyMpurgeSleeps).Reachable s) :
    (s.running = none → s.panic = none → Sound m s.core) ∧
      (∀ message, s.panic = some message → message ∉ ["dup mem alloc", "memall ecmap", "munhash"]) ∧
      ∀ s', (system m).step s (.rele true) s' → ¬ OnlyMpurgeSleeps s (.rele true) → s'.panic = none →
        ¬ Sound m s'.core := by
  have h := reachable_inv hm hs
  exact ⟨fun hrun hpnc => (h.idle hrun hpnc).sound, h.panic, fun s' hstep hcond => h.not_sound hstep hcond⟩

end Exact

/-- Two frames, and a core map of four entries. -/
def twoFrames : Machine Unit Unit := machine 0 4 4 fun _ => ()

/-- A frame is allocated. -/
theorem vm_run_memall : ∃ s : State Unit Unit, ((system twoFrames).restrict OnlyMpurgeSleeps).Reachable s ∧
    s.core.freemem = 2 ∧ Sound twoFrames s.core := by
  have hs : ((system twoFrames).restrict OnlyMpurgeSleeps).Reachable
      (State.after ⟨meminit twoFrames fun _ => 0, none, [], none⟩ []
        (memall twoFrames 2 .CDATA (meminit twoFrames fun _ => 0))) := by
    refine @System.Reachable.step _ _ _ _ _ (.memall 2 .CDATA) (.init ⟨fun _ => 0, rfl⟩) ⟨?_, ?_⟩
    · exact fun h => absurd h (by simp)
    · rfl
  exact ⟨_, hs, rfl, (vm_run (by decide) hs).1 rfl rfl⟩

/-- A frame is cached for a vnode that is held by nothing else. `memall` takes it off the list for the first of
    two frames, and sleeps. Meanwhile the other one is allocated, which `memall` does not find any more. -/
theorem dup_mem_alloc : ∃ s : State Unit Unit, (system twoFrames).Reachable s ∧
    s.panic = some "dup mem alloc" := by
  have hrun : ([.memall 2 .CTEXT, .mhash 1 () 5, .memfree true [0], .memall 2 .CDATA, .memfree false [2],
      .memall 4 .CDATA, .rele true, .memall 2 .CDATA, .wakeup 0].foldlM (exec twoFrames)
      ⟨meminit twoFrames fun _ => 0, none, [], none⟩).map State.panic = some (some "dup mem alloc") := by
    decide +kernel
  obtain ⟨s, hs, hpnc⟩ := map_eq_some_iff.1 hrun
  exact ⟨s, System.Reachable.foldlM (.init ⟨fun _ => 0, rfl⟩) hs, hpnc⟩

end Uwisc.Vm
