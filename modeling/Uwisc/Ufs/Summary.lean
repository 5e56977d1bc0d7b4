import Uwisc.Lib.System
import Uwisc.Ufs.Map

/-!
# The summaries of the free space

The summaries of a cylinder group are what is recomputed from its map
(`Cg.Consistent`), and those of the file system are copies and sums of them
(`Consistent`). What a call does changes one block of one group; the summaries stay
consistent if they change by what the block contributes to them
(`Cg.Consistent.change`), in all of their places (`Tracks`).

* `alloccg_consistent`, `fragextend_consistent`, `free_consistent`: a call keeps the
  summaries consistent;
* `run_consistent`: they are, in every state of every run of such calls.
-/

namespace Uwisc.Ufs

open Function Lib List Nat

/-- The number of blocks of a group. -/
def nblk (fs : Fs) : ℕ := fs.fs_fpg / fs.fs_frag

/-- What a block counts for as a free one. -/
def fullCount (fs : Fs) (b : ℕ → Bool) : ℤ := if Full fs b then 1 else 0

/-- What it counts for in free fragments: those of a block that is not free. -/
def fragCount (fs : Fs) (b : ℕ → Bool) : ℤ := if Full fs b then 0 else setBits fs.fs_frag b

/-- The summaries of a group are those of its map, nothing is free beyond it, and the
    position of the last fragment used is within it. -/
structure Cg.Consistent (fs : Fs) (cgp : Cg) : Prop where
  nbfree : cgp.cg_cs.cs_nbfree = ∑ h ∈ Finset.range (nblk fs), fullCount fs (blk fs cgp.cg_free h)
  nffree : cgp.cg_cs.cs_nffree = ∑ h ∈ Finset.range (nblk fs), fragCount fs (blk fs cgp.cg_free h)
  frsum : ∀ k, 0 < k → k < fs.fs_frag → cgp.cg_frsum k =
    ∑ h ∈ Finset.range (nblk fs), (runs fs.fs_frag (blk fs cgp.cg_free h) k : ℤ)
  btot : ∀ cyl, cgp.cg_btot cyl = ∑ h ∈ Finset.range (nblk fs),
    if cbtocylno fs (h * fs.fs_frag) = cyl then fullCount fs (blk fs cgp.cg_free h) else 0
  b : ∀ cyl rpos, cgp.cg_b cyl rpos = ∑ h ∈ Finset.range (nblk fs),
    if cbtocylno fs (h * fs.fs_frag) = cyl ∧ cbtorpos fs (h * fs.fs_frag) = rpos then
      fullCount fs (blk fs cgp.cg_free h) else 0
  within : ∀ i, fs.fs_fpg ≤ i → bit cgp.cg_free i = false
  rotor : Rotor fs cgp.cg_frotor

/-- The groups are consistent, and the summaries of the file system are theirs. -/
structure Consistent (fs : Fs) (s : State) : Prop where
  group : ∀ cg < fs.fs_ncg, (s.cgs cg).Consistent fs
  cgx : ∀ cg < fs.fs_ncg, (s.cgs cg).cg_cgx = cg
  copy : ∀ cg < fs.fs_ncg, s.fs_cs cg = (s.cgs cg).cg_cs
  nbfree : s.fs_cstotal.cs_nbfree = ∑ cg ∈ Finset.range fs.fs_ncg, (s.fs_cs cg).cs_nbfree
  nffree : s.fs_cstotal.cs_nffree = ∑ cg ∈ Finset.range fs.fs_ncg, (s.fs_cs cg).cs_nffree

variable {fs : Fs} {cgp cgp' : Cg} {s s' : State} {cg h0 : ℕ}

/-! ### One block of a group -/

theorem Fs.nblk_mul (fs : Fs) : nblk fs * fs.fs_frag = fs.fs_fpg := Nat.div_mul_cancel fs.frag_dvd

theorem Cg.Consistent.lt_nblk (hc : cgp.Consistent fs) {i : ℕ} (hbit : blk fs cgp.cg_free h0 i = true) :
    h0 < nblk fs := by
  by_contra hge
  have hle := Nat.mul_le_mul_right fs.fs_frag (not_lt.1 hge)
  rw [fs.nblk_mul] at hle
  exact absurd ((hc.within _ (by omega)).symm.trans hbit) (by decide)

/-- The map changes in one block only. -/
def SameBut (fs : Fs) (h0 : ℕ) (map map' : FreeMap) : Prop :=
  ∀ i, i / fs.fs_frag ≠ h0 → bit map' i = bit map i

theorem SameBut.blk_eq {map map' : FreeMap} (h : SameBut fs h0 map map') {h1 : ℕ} (hne : h1 ≠ h0) :
    ∀ i < fs.fs_frag, blk fs map' h1 i = blk fs map h1 i := fun i hi => by
  refine h _ ?_
  rwa [add_comm, add_mul_div_right _ _ fs.frag_pos, div_eq_of_lt hi, zero_add]

theorem full_congr {b b' : ℕ → Bool} (h : ∀ i < fs.fs_frag, b' i = b i) : Full fs b' ↔ Full fs b :=
  forall₂_congr fun i hi => by rw [h i hi]

theorem fullCount_congr {b b' : ℕ → Bool} (h : ∀ i < fs.fs_frag, b' i = b i) :
    fullCount fs b' = fullCount fs b := by
  simp only [fullCount, full_congr h]

theorem fragCount_congr {b b' : ℕ → Bool} (h : ∀ i < fs.fs_frag, b' i = b i) :
    fragCount fs b' = fragCount fs b := by
  simp only [fragCount, full_congr h, setBits_congr h]

/-- A sum over the blocks changes by what the block that changes contributes to it. -/
theorem SameBut.sum_blk {map map' : FreeMap} (hsame : SameBut fs h0 map map') (hlt : h0 < nblk fs)
    {c : ℕ → (ℕ → Bool) → ℤ}
    (hcongr : ∀ h {b b'}, (∀ i < fs.fs_frag, b' i = b i) → c h b' = c h b) :
    ∑ h ∈ Finset.range (nblk fs), c h (blk fs map' h) =
      ∑ h ∈ Finset.range (nblk fs), c h (blk fs map h) +
        (c h0 (blk fs map' h0) - c h0 (blk fs map h0)) :=
  sum_update hlt fun h hne => hcongr h (hsame.blk_eq hne)

/-- Summaries that change by what the block that changes contributes to them stay
    consistent. -/
theorem Cg.Consistent.change (hc : cgp.Consistent fs) (hlt : h0 < nblk fs)
    (hsame : SameBut fs h0 cgp.cg_free cgp'.cg_free) {d : ℤ}
    (hd : d = fullCount fs (blk fs cgp'.cg_free h0) - fullCount fs (blk fs cgp.cg_free h0))
    (hnbf : cgp'.cg_cs.cs_nbfree = cgp.cg_cs.cs_nbfree + d)
    (hnff : cgp'.cg_cs.cs_nffree = cgp.cg_cs.cs_nffree +
      (fragCount fs (blk fs cgp'.cg_free h0) - fragCount fs (blk fs cgp.cg_free h0)))
    (hfrsum : ∀ k, 0 < k → k < fs.fs_frag → cgp'.cg_frsum k = cgp.cg_frsum k +
      ((runs fs.fs_frag (blk fs cgp'.cg_free h0) k : ℤ) - runs fs.fs_frag (blk fs cgp.cg_free h0) k))
    (hbtot : ∀ cyl, cgp'.cg_btot cyl = cgp.cg_btot cyl +
      if cbtocylno fs (h0 * fs.fs_frag) = cyl then d else 0)
    (hb : ∀ cyl rpos, cgp'.cg_b cyl rpos = cgp.cg_b cyl rpos +
      if cbtocylno fs (h0 * fs.fs_frag) = cyl ∧ cbtorpos fs (h0 * fs.fs_frag) = rpos then d else 0)
    (hrotor : Rotor fs cgp'.cg_frotor) : cgp'.Consistent fs := by
  refine ⟨?_, ?_, fun k hk hkn => ?_, fun cyl => ?_, fun cyl rpos => ?_, fun i hi => ?_, hrotor⟩
  · rw [hnbf, hc.nbfree, hd, hsame.sum_blk hlt (c := fun _ b => fullCount fs b)
      fun _ _ _ => fullCount_congr]
  · rw [hnff, hc.nffree, hsame.sum_blk hlt (c := fun _ b => fragCount fs b)
      fun _ _ _ => fragCount_congr]
  · rw [hfrsum k hk hkn, hc.frsum k hk hkn, hsame.sum_blk hlt (c := fun _ b => runs fs.fs_frag b k)
      fun _ _ _ h => by rw [runs_congr h]]
  · rw [hbtot, hc.btot, hsame.sum_blk hlt (c := fun h b =>
      if cbtocylno fs (h * fs.fs_frag) = cyl then fullCount fs b else 0)
      fun _ _ _ h => by rw [fullCount_congr h], hd]
    split_ifs <;> simp
  · rw [hb, hc.b, hsame.sum_blk hlt (c := fun h b =>
      if cbtocylno fs (h * fs.fs_frag) = cyl ∧ cbtorpos fs (h * fs.fs_frag) = rpos then fullCount fs b
      else 0) fun _ _ _ h => by rw [fullCount_congr h], hd]
    split_ifs <;> simp
  · rw [hsame i ?_]
    · exact hc.within i hi
    · rintro rfl
      rw [nblk] at hlt
      exact absurd hlt (not_lt.2 (Nat.div_le_div_right hi))

/-! ### The places of a summary -/

/-- What changes in the summary of the group `cg` changes in the total and in the copy, and
    nothing changes elsewhere. -/
structure Tracks (cg : ℕ) (s s' : State) : Prop where
  cgs : ∀ g, g ≠ cg → s'.cgs g = s.cgs g
  fs_cs : ∀ g, g ≠ cg → s'.fs_cs g = s.fs_cs g
  cgx : (s'.cgs cg).cg_cgx = (s.cgs cg).cg_cgx
  magic : (s'.cgs cg).cg_magic = (s.cgs cg).cg_magic
  nbfree : (s'.fs_cs cg).cs_nbfree - (s.fs_cs cg).cs_nbfree =
    (s'.cgs cg).cg_cs.cs_nbfree - (s.cgs cg).cg_cs.cs_nbfree
  nffree : (s'.fs_cs cg).cs_nffree - (s.fs_cs cg).cs_nffree =
    (s'.cgs cg).cg_cs.cs_nffree - (s.cgs cg).cg_cs.cs_nffree
  total_nbfree : s'.fs_cstotal.cs_nbfree - s.fs_cstotal.cs_nbfree =
    (s'.fs_cs cg).cs_nbfree - (s.fs_cs cg).cs_nbfree
  total_nffree : s'.fs_cstotal.cs_nffree - s.fs_cstotal.cs_nffree =
    (s'.fs_cs cg).cs_nffree - (s.fs_cs cg).cs_nffree

theorem Tracks.refl (cg : ℕ) (s : State) : Tracks cg s s := by
  constructor <;> simp

theorem Tracks.trans {s1 s2 s3 : State} (h : Tracks cg s1 s2) (h' : Tracks cg s2 s3) :
    Tracks cg s1 s3 where
  cgs g hg := (h'.cgs g hg).trans (h.cgs g hg)
  fs_cs g hg := (h'.fs_cs g hg).trans (h.fs_cs g hg)
  cgx := h'.cgx.trans h.cgx
  magic := h'.magic.trans h.magic
  nbfree := by have := h.nbfree; have := h'.nbfree; omega
  nffree := by have := h.nffree; have := h'.nffree; omega
  total_nbfree := by have := h.total_nbfree; have := h'.total_nbfree; omega
  total_nffree := by have := h.total_nffree; have := h'.total_nffree; omega

@[simp] theorem cgs_modify (s : State) (cg : ℕ) (f : Cg → Cg) : (s.modify cg f).cgs cg = f (s.cgs cg) :=
  update_self ..

@[simp] theorem cgs_addNbfree (s : State) (cg cgx : ℕ) (d : ℤ) :
    (s.addNbfree cg cgx d).cgs cg = (s.cgs cg).addNbfree d :=
  update_self ..

@[simp] theorem cgs_addNffree (s : State) (cg : ℕ) (d : ℤ) :
    (s.addNffree cg d).cgs cg = (s.cgs cg).addNffree d :=
  update_self ..

theorem tracks_modify (s : State) (cg : ℕ) {f : Cg → Cg} (hcs : (f (s.cgs cg)).cg_cs = (s.cgs cg).cg_cs)
    (hcgx : (f (s.cgs cg)).cg_cgx = (s.cgs cg).cg_cgx)
    (hmag : (f (s.cgs cg)).cg_magic = (s.cgs cg).cg_magic) : Tracks cg s (s.modify cg f) := by
  refine ⟨fun g hg => update_of_ne hg .., fun g _ => rfl, ?_, ?_, ?_, ?_, ?_, ?_⟩
  all_goals simp [hcs, hcgx, hmag, State.modify]

theorem tracks_addNbfree (s : State) (cg : ℕ) (d : ℤ) : Tracks cg s (s.addNbfree cg cg d) := by
  refine ⟨fun g hg => update_of_ne hg .., fun g hg => update_of_ne hg .., ?_, ?_, ?_, ?_, ?_, ?_⟩
  all_goals simp [State.addNbfree, Cg.addNbfree]

theorem tracks_addNffree (s : State) (cg : ℕ) (d : ℤ) : Tracks cg s (s.addNffree cg d) := by
  refine ⟨fun g hg => update_of_ne hg .., fun g hg => update_of_ne hg .., ?_, ?_, ?_, ?_, ?_, ?_⟩
  all_goals simp [State.addNffree, Cg.addNffree]

/-- A file system whose summaries change with those of a group stays consistent if the
    group does. -/
theorem Consistent.of_tracks (hc : Consistent fs s) (hcg : cg < fs.fs_ncg) (ht : Tracks cg s s')
    (hgroup : (s'.cgs cg).Consistent fs) : Consistent fs s' := by
  have hcopy := hc.copy cg hcg
  refine ⟨fun g hg => ?_, fun g hg => ?_, fun g hg => ?_, ?_, ?_⟩
  · by_cases h : g = cg
    · exact h ▸ hgroup
    · exact ht.cgs g h ▸ hc.group g hg
  · by_cases h : g = cg
    · exact h ▸ ht.cgx.trans (hc.cgx cg hcg)
    · rw [ht.cgs g h]
      exact hc.cgx g hg
  · by_cases h : g = cg
    · subst h
      have hnbf := ht.nbfree
      have hnff := ht.nffree
      rw [hcopy] at hnbf hnff
      cases hs : s'.fs_cs g
      cases hs' : (s'.cgs g).cg_cs
      rw [hs, hs'] at hnbf hnff
      rw [Csum.mk.injEq]
      simp only at hnbf hnff
      omega
    · rw [ht.cgs g h, ht.fs_cs g h]
      exact hc.copy g hg
  · have htot := ht.total_nbfree
    rw [sum_update hcg fun g hg => by rw [ht.fs_cs g hg], ← hc.nbfree]
    omega
  · have htot := ht.total_nffree
    rw [sum_update hcg fun g hg => by rw [ht.fs_cs g hg], ← hc.nffree]
    omega

/-! ### What a block counts for -/

variable {b b' : ℕ → Bool} {map map' : FreeMap} {x m n : ℕ}

theorem not_full_of_clear {i : ℕ} (hi : i < fs.fs_frag) (h : b i = false) : ¬Full fs b := fun hfull =>
  absurd (h.symm.trans (hfull i hi)) (by decide)

theorem not_full_of_runAt (h : RunAt fs.fs_frag b x m) (hm : m < fs.fs_frag) : ¬Full fs b := by
  obtain ⟨-, hn, -, hlo, hhi⟩ := h
  rcases Nat.eq_zero_or_pos x with rfl | hx
  · exact not_full_of_clear (by omega) (hhi (by omega))
  · exact not_full_of_clear (by omega) (hlo hx)

theorem fullCount_of_full (h : Full fs b) : fullCount fs b = 1 := if_pos h

theorem fragCount_of_full (h : Full fs b) : fragCount fs b = 0 := if_pos h

theorem fullCount_of_not_full (h : ¬Full fs b) : fullCount fs b = 0 := if_neg h

theorem fragCount_of_not_full (h : ¬Full fs b) : fragCount fs b = setBits fs.fs_frag b := if_neg h

theorem fullCount_of_clear (h : ∀ i < fs.fs_frag, b i = false) : fullCount fs b = 0 :=
  fullCount_of_not_full (not_full_of_clear fs.frag_pos (h 0 fs.frag_pos))

theorem fragCount_of_clear (h : ∀ i < fs.fs_frag, b i = false) : fragCount fs b = 0 := by
  rw [fragCount_of_not_full (not_full_of_clear fs.frag_pos (h 0 fs.frag_pos)), setBits_eq_zero h]
  rfl

theorem mul_add_div_frag {i : ℕ} (h : ℕ) (hi : i < fs.fs_frag) : (h * fs.fs_frag + i) / fs.fs_frag = h := by
  rw [add_comm, add_mul_div_right _ _ fs.frag_pos, div_eq_of_lt hi, zero_add]

theorem sameBut_clrblock (map : FreeMap) (h0 : ℕ) : SameBut fs h0 map (clrblock fs map h0) := fun i hi => by
  simp [bit_clrblock, hi]

theorem sameBut_setblock (map : FreeMap) (h0 : ℕ) : SameBut fs h0 map (setblock fs map h0) := fun i hi => by
  simp [bit_setblock, hi]

theorem blk_clrblock (map : FreeMap) (h0 : ℕ) : ∀ i < fs.fs_frag, blk fs (clrblock fs map h0) h0 i = false :=
  fun i hi => by simp [blk, bit_clrblock, mul_add_div_frag h0 hi]

theorem blk_setblock (map : FreeMap) (h0 : ℕ) : Full fs (blk fs (setblock fs map h0) h0) := fun i hi => by
  simp [blk, bit_setblock, mul_add_div_frag h0 hi]

/-- Fragments of a block that are set or cleared are not in another one. -/
theorem not_mem_of_div_ne {i : ℕ} (hx : x + n ≤ fs.fs_frag) (hi : i / fs.fs_frag ≠ h0) :
    ¬(h0 * fs.fs_frag + x ≤ i ∧ i < h0 * fs.fs_frag + x + n) := fun ⟨hlo, hhi⟩ =>
  hi (by rw [← @mul_add_div_frag fs (i - h0 * fs.fs_frag) h0 (by omega),
    Nat.add_sub_cancel' (by omega)])

theorem sameBut_clrFrags (map : FreeMap) (hx : x + n ≤ fs.fs_frag) :
    SameBut fs h0 map ((range' (h0 * fs.fs_frag + x) n).foldl clrbit map) := fun i hi => by
  rw [bit_foldl_clrbit, decide_eq_false (not_mem_of_div_ne hx hi)]
  simp

theorem sameBut_setFrags (map : FreeMap) (hx : x + n ≤ fs.fs_frag) :
    SameBut fs h0 map ((range' (h0 * fs.fs_frag + x) n).foldl setbit map) := fun i hi => by
  rw [bit_foldl_setbit, decide_eq_false (not_mem_of_div_ne hx hi)]
  simp

theorem takenBits_clrFrags (map : FreeMap) (h0 x n : ℕ) : TakenBits (blk fs map h0)
    (blk fs ((range' (h0 * fs.fs_frag + x) n).foldl clrbit map) h0) x n := fun i => by
  rw [blk, bit_foldl_clrbit, blk]
  congr 2
  rw [decide_eq_decide]
  omega

theorem blk_setFrags (map : FreeMap) (h0 x n i : ℕ) :
    blk fs ((range' (h0 * fs.fs_frag + x) n).foldl setbit map) h0 i =
      (blk fs map h0 i || decide (x ≤ i ∧ i < x + n)) := by
  rw [blk, bit_foldl_setbit, blk]
  congr 1
  rw [decide_eq_decide]
  omega

/-! ### Allocating -/

@[simp] theorem addBlk_btot (cgp : Cg) (bno : ℕ) (d : ℤ) (cyl : ℕ) : (cgp.addBlk fs bno d).cg_btot cyl =
    cgp.cg_btot cyl + if cbtocylno fs bno = cyl then d else 0 := by
  simp only [Cg.addBlk, update_apply]
  by_cases h : cyl = cbtocylno fs bno
  · simp [h]
  · simp [h, Ne.symm h]

@[simp] theorem addBlk_b (cgp : Cg) (bno : ℕ) (d : ℤ) (cyl rpos : ℕ) :
    (cgp.addBlk fs bno d).cg_b cyl rpos =
      cgp.cg_b cyl rpos + if cbtocylno fs bno = cyl ∧ cbtorpos fs bno = rpos then d else 0 := by
  simp only [Cg.addBlk, update_apply]
  by_cases h : cyl = cbtocylno fs bno
  · subst h
    by_cases h' : rpos = cbtorpos fs bno
    · simp [h']
    · simp [h', Ne.symm h']
  · simp [h, Ne.symm h]

/-- A block is allocated: it is free before, and has no free fragment after. -/
theorem alloccgblk_spec (hc : Consistent fs s) (hcg : cg < fs.fs_ncg) {bpref r : ℕ}
    (h : alloccgblk fs s cg bpref = .ok (s', r)) : Consistent fs s' ∧ ∃ h0 < nblk fs,
      r = cg * fs.fs_fpg + h0 * fs.fs_frag ∧
        ∀ i < fs.fs_frag, blk fs (s'.cgs cg).cg_free h0 i = false := by
  have hgroup := hc.group cg hcg
  cases hcho : choose fs (s.cgs cg) bpref with
  | error e => simp [alloccgblk, hcho, bind, Except.bind] at h
  | ok q =>
    obtain ⟨cgp, bno⟩ := q
    obtain ⟨⟨rotor, frotor, hfro, rfl⟩, h0, rfl, hfull⟩ := choose_spec hgroup.rotor hcho
    simp only [alloccgblk, hcho, bind, Except.bind, fragstoblks, Nat.mul_div_cancel _ fs.frag_pos,
      hc.cgx cg hcg] at h
    cases h
    have hlt : h0 < nblk fs := hgroup.lt_nblk (hfull 0 fs.frag_pos)
    have hclr := @blk_clrblock fs (s.cgs cg).cg_free h0
    refine ⟨hc.of_tracks hcg ?_ ?_, h0, hlt, rfl, ?_⟩
    · exact ((tracks_modify _ _ rfl (hc.cgx cg hcg).symm rfl).trans (tracks_addNbfree _ _ _)).trans
        (tracks_modify _ _ rfl rfl rfl)
    · rw [cgs_modify, cgs_addNbfree, cgs_modify]
      refine hgroup.change hlt (d := -1) (sameBut_clrblock _ _) ?_ rfl ?_ (fun k hk hkn => ?_)
        (addBlk_btot _ _ _) (addBlk_b _ _ _) hfro
      · have hone : fullCount fs (blk fs (clrblock fs (s.cgs cg).cg_free h0) h0) -
            fullCount fs (blk fs (s.cgs cg).cg_free h0) = -1 := by
          rw [fullCount_of_clear hclr, fullCount_of_full hfull]
          rfl
        exact hone.symm
      · have hnone : fragCount fs (blk fs (clrblock fs (s.cgs cg).cg_free h0) h0) -
            fragCount fs (blk fs (s.cgs cg).cg_free h0) = 0 := by
          rw [fragCount_of_clear hclr, fragCount_of_full hfull]
          rfl
        exact (add_eq_left.2 hnone).symm
      · have hnone : (runs fs.fs_frag (blk fs (clrblock fs (s.cgs cg).cg_free h0) h0) k : ℤ) -
            runs fs.fs_frag (blk fs (s.cgs cg).cg_free h0) k = 0 := by
          rw [runs_eq_zero_of_clear hclr, runs_eq_zero_of_full hfull hkn]
          rfl
        exact (add_eq_left.2 hnone).symm
    · rw [cgs_modify, cgs_addNbfree, cgs_modify]
      exact hclr

/-- Fragments that are set in a block with none free are a run of it. -/
theorem Cg.Consistent.setFrags (hc : cgp.Consistent fs) (hlt : h0 < nblk fs)
    (hclr : ∀ i < fs.fs_frag, blk fs cgp.cg_free h0 i = false) (hx : 0 < x) (hxn : x < fs.fs_frag) :
    (((cgp.setFrags (h0 * fs.fs_frag + x) (fs.fs_frag - x)).addNffree ↑(fs.fs_frag - x)).addFrsum
      (fs.fs_frag - x) 1).Consistent fs := by
  set map' := (range' (h0 * fs.fs_frag + x) (fs.fs_frag - x)).foldl setbit cgp.cg_free with hmap'
  have hblk : ∀ i < fs.fs_frag, blk fs map' h0 i = decide (x ≤ i) := fun i hi => by
    rw [blk_setFrags, hclr i hi, Bool.false_or, decide_eq_decide]
    omega
  have hset : setBits fs.fs_frag (blk fs map' h0) = fs.fs_frag - x := by
    have htake : TakenBits (fun _ => true) (fun i => decide (x ≤ i)) 0 x := fun i => by
      rcases lt_or_ge i x with hi | hi <;> simp [hi]
    have hall := setBits_take htake (fun _ _ _ => rfl) (n := fs.fs_frag) (by omega)
    rw [setBits_eq_iff.2 fun _ _ => rfl, ← setBits_congr hblk] at hall
    omega
  have hnot : ¬Full fs (blk fs map' h0) := not_full_of_clear fs.frag_pos (by
    rw [hblk 0 fs.frag_pos, decide_eq_false]
    omega)
  refine hc.change hlt (d := 0) (sameBut_setFrags _ (by omega)) ?_ ?_ ?_ (fun k hk hkn => ?_) ?_ ?_ hc.rotor
  · change 0 = fullCount fs (blk fs map' h0) - _
    rw [fullCount_of_not_full hnot, fullCount_of_clear hclr]
    rfl
  · exact (add_zero _).symm
  · change cgp.cg_cs.cs_nffree + ↑(fs.fs_frag - x) = cgp.cg_cs.cs_nffree +
      (fragCount fs (blk fs map' h0) - fragCount fs (blk fs cgp.cg_free h0))
    rw [fragCount_of_not_full hnot, fragCount_of_clear hclr, hset, sub_zero]
  · change update cgp.cg_frsum (fs.fs_frag - x) (cgp.cg_frsum (fs.fs_frag - x) + 1) k =
      cgp.cg_frsum k + ((runs fs.fs_frag (blk fs map' h0) k : ℤ) - runs fs.fs_frag (blk fs cgp.cg_free h0) k)
    rw [runs_suffix hblk hx hxn hkn, runs_eq_zero_of_clear hclr, update_apply]
    split_ifs with h
    · subst h
      simp
    · simp
  · simp [Cg.addFrsum, Cg.addNffree, Cg.setFrags]
  · simp [Cg.addFrsum, Cg.addNffree, Cg.setFrags]

/-- Taking the start of a run of a group: the fragments are no longer free, and what is
    left of the run is one. -/
def Cg.takeRun (cgp : Cg) (bno m n : ℕ) : Cg :=
  let cgp := ((cgp.clrFrags bno n).addNffree (-n)).addFrsum m (-1)
  if n ≠ m then cgp.addFrsum (m - n) 1 else cgp

theorem takeRun_cs (cgp : Cg) (bno m n : ℕ) :
    (cgp.takeRun bno m n).cg_cs = { cgp.cg_cs with cs_nffree := cgp.cg_cs.cs_nffree + -n } := by
  rw [Cg.takeRun]
  split_ifs <;> rfl

theorem takeRun_frsum (cgp : Cg) (bno : ℕ) {m n : ℕ} (hn : 0 < n) (hnm : n ≤ m) (k : ℕ) :
    (cgp.takeRun bno m n).cg_frsum k =
      cgp.cg_frsum k - (if k = m then 1 else 0) + if n < m ∧ k = m - n then 1 else 0 := by
  rcases hnm.eq_or_lt with rfl | hlt
  · have hall : (cgp.takeRun bno n n).cg_frsum k =
        update cgp.cg_frsum n (cgp.cg_frsum n + -1) k := by
      rw [Cg.takeRun, if_neg (not_not.2 rfl)]
      rfl
    rw [hall, update_apply]
    by_cases h : k = n
    · subst h
      simp [sub_eq_add_neg]
    · simp [h]
  · have hrs : (cgp.takeRun bno m n).cg_frsum k =
        update (update cgp.cg_frsum m (cgp.cg_frsum m + -1)) (m - n)
          (update cgp.cg_frsum m (cgp.cg_frsum m + -1) (m - n) + 1) k := by
      rw [Cg.takeRun, if_pos hlt.ne]
      rfl
    have hne : m - n ≠ m := by omega
    simp only [hrs, update_apply, if_neg hne]
    by_cases h : k = m
    · subst h
      simp [hne.symm, sub_eq_add_neg]
    · by_cases h' : k = m - n
      · subst h'
        simp [hne, hlt]
      · simp [h, h']

/-- Taking the start of a run keeps the summaries of a group consistent. -/
theorem Cg.Consistent.takeRun (hc : cgp.Consistent fs) (hrun : RunAt fs.fs_frag (blk fs cgp.cg_free h0) x m)
    (hm : m < fs.fs_frag) (hn : 0 < n) (hnm : n ≤ m) :
    (cgp.takeRun (h0 * fs.fs_frag + x) m n).Consistent fs := by
  set map' := (range' (h0 * fs.fs_frag + x) n).foldl clrbit cgp.cg_free with hmap'
  have hfree : (cgp.takeRun (h0 * fs.fs_frag + x) m n).cg_free = map' := by
    rw [Cg.takeRun]
    split_ifs <;> rfl
  obtain ⟨-, hxm, hset, -⟩ := id hrun
  have htake : TakenBits (blk fs cgp.cg_free h0) (blk fs map' h0) x n := takenBits_clrFrags _ _ _ _
  have hnot := not_full_of_runAt hrun hm
  have hnot' : ¬Full fs (blk fs map' h0) :=
    not_full_of_clear (i := x) (by omega) (htake.of_mem le_rfl (by omega))
  have hbits := setBits_take htake (fun i hi hi' => hset i hi (by omega)) (n := fs.fs_frag) (by omega)
  have hlt := hc.lt_nblk (hset x le_rfl (by omega))
  refine hc.change hlt (d := 0) (hfree ▸ sameBut_clrFrags _ (by omega)) ?_ ?_ ?_ (fun k hk hkn => ?_)
    (fun _ => ?_) (fun _ _ => ?_) ?_
  · rw [hfree, fullCount_of_not_full hnot, fullCount_of_not_full hnot', sub_zero]
  · rw [takeRun_cs, add_zero]
  · rw [takeRun_cs, hfree, fragCount_of_not_full hnot, fragCount_of_not_full hnot']
    simp only
    omega
  · have hruns := runs_take htake hrun hn hnm k
    rw [takeRun_frsum _ _ hn hnm, hfree]
    split_ifs at hruns ⊢ <;> omega
  all_goals
    rw [Cg.takeRun]
    split_ifs <;> simp [Cg.addFrsum, Cg.addNffree, Cg.clrFrags, hc.rotor]

theorem Cg.Consistent.frotor (hc : cgp.Consistent fs) {frotor : ℕ} (h : Rotor fs frotor) :
    ({ cgp with cg_frotor := frotor } : Cg).Consistent fs :=
  ⟨hc.nbfree, hc.nffree, hc.frsum, hc.btot, hc.b, hc.within, h⟩

/-- A size in whole fragments. -/
theorem numfrags_spec {size : ℕ} (hoff : fragoff fs size = 0) : size = numfrags fs size * fs.fs_fsize :=
  (Nat.div_mul_cancel (dvd_of_mod_eq_zero hoff)).symm

theorem numfrags_pos {size : ℕ} (hoff : fragoff fs size = 0) (hpos : 0 < size) : 0 < numfrags fs size := by
  rw [numfrags_spec hoff] at hpos
  exact Nat.pos_of_mul_pos_right hpos

theorem numfrags_lt {size size' : ℕ} (hoff : fragoff fs size = 0) (hoff' : fragoff fs size' = 0)
    (h : size < size') : numfrags fs size < numfrags fs size' := by
  rw [numfrags_spec hoff, numfrags_spec hoff'] at h
  exact Nat.lt_of_mul_lt_mul_right h

theorem fragoff_bsize (fs : Fs) : fragoff fs fs.fs_bsize = 0 := by
  rw [fragoff, fs.bsize_eq, mul_mod_left]

theorem numfrags_bsize (fs : Fs) : numfrags fs fs.fs_bsize = fs.fs_frag := by
  rw [numfrags, fs.bsize_eq, Nat.mul_div_cancel _ fs.fsize_pos]

/-- `alloccg` of up to a block of fragments keeps the summaries consistent. -/
theorem alloccg_consistent (hc : Consistent fs s) (hcg : cg < fs.fs_ncg) {error : Bool}
    {bpref size r : ℕ} (hoff : fragoff fs size = 0) (hpos : 0 < size) (hle : size ≤ fs.fs_bsize)
    (h : alloccg fs s error cg bpref size = .ok (s', r)) : Consistent fs s' := by
  have hsame : ∀ {r'}, (.ok (s, r') : Except Panic _) = .ok (s', r) → Consistent fs s' := fun h =>
    (Prod.mk.inj (Except.ok.inj h)).1 ▸ hc
  have hgroup := hc.group cg hcg
  simp only [alloccg] at h
  split at h
  · exact hsame h
  split at h
  · exact hsame h
  split at h
  · exact (alloccgblk_spec hc hcg h).1
  · rename_i hblock
    have hfrg := numfrags_pos hoff hpos
    have hfrag : numfrags fs size < fs.fs_frag := by
      rw [← numfrags_bsize fs]
      exact numfrags_lt hoff (fragoff_bsize fs) (lt_of_le_of_ne hle hblock)
    split at h
    · split at h
      · exact hsame h
      · -- a block is allocated, and hacked up
        cases halc : alloccgblk fs s cg bpref with
        | error e => simp [halc, bind, Except.bind] at h
        | ok q =>
          obtain ⟨s1, bno⟩ := q
          obtain ⟨hc1, h0, hlt, rfl, hclr⟩ := alloccgblk_spec hc hcg halc
          have hbno : dtogd fs (cg * fs.fs_fpg + h0 * fs.fs_frag) = h0 * fs.fs_frag := by
            have hmul := Nat.mul_lt_mul_of_pos_right hlt fs.frag_pos
            rw [fs.nblk_mul] at hmul
            rw [dtogd, mul_add_mod_self_right, mod_eq_of_lt hmul]
          simp only [halc, bind, Except.bind, hbno] at h
          cases h
          refine hc1.of_tracks hcg (((tracks_modify _ _ rfl rfl rfl).trans (tracks_addNffree _ _ _)).trans
            (tracks_modify _ _ rfl rfl rfl)) ?_
          rw [cgs_modify, cgs_addNffree, cgs_modify]
          exact (hc1.group cg hcg).setFrags hlt hclr hfrg hfrag
    · rename_i allocsiz hfind
      have hmem := mem_range'_1.1 (mem_of_find?_eq_some hfind)
      cases hsea : mapsearch fs (s.cgs cg) bpref allocsiz with
      | error e => simp [hsea, bind, Except.bind] at h
      | ok q =>
        obtain ⟨cgp, bno⟩ := q
        obtain ⟨⟨frotor, hfro, rfl⟩, h0, pos, rfl, hrun⟩ :=
          mapsearch_spec hgroup.rotor (by omega) (by omega) hsea
        simp only [hsea, bind, Except.bind] at h
        cases h
        refine hc.of_tracks hcg (((tracks_modify _ _ rfl rfl rfl).trans (tracks_addNffree _ _ _)).trans
          (tracks_modify _ _ ?_ ?_ ?_)) ?_
        iterate 3
          split_ifs <;> rfl
        rw [cgs_modify, cgs_addNffree, cgs_modify]
        exact (hgroup.frotor hfro).takeRun hrun (by omega) hfrg (by omega)

/-- The fragments from `bno` on are allocated. -/
def Allocated (fs : Fs) (s : State) (bno n : ℕ) : Prop :=
  ∀ i < n, bit (s.cgs (dtog fs bno)).cg_free (dtogd fs bno + i) = false

/-- A block of the group, and the fragment of it that a number is of. -/
theorem dtogd_eq (fs : Fs) (bno : ℕ) :
    dtogd fs bno = dtogd fs bno / fs.fs_frag * fs.fs_frag + fragnum fs bno := by
  have hmod : dtogd fs bno % fs.fs_frag = fragnum fs bno := mod_mod_of_dvd bno fs.frag_dvd
  have := div_add_mod (dtogd fs bno) fs.fs_frag
  rw [hmod, mul_comm] at this
  exact this.symm

theorem dtog_lt {bno : ℕ} (h : bno < fs.fs_size) : dtog fs bno < fs.fs_ncg :=
  Nat.div_lt_of_lt_mul ((h.trans_le fs.size_le).trans_eq (mul_comm _ _))

/-! ### Extending -/

/-- A fragment that is not to cross a block boundary ends in its block. -/
theorem fragnum_add_le {bprev frags : ℕ} (hpos : 0 < frags) (hle : frags ≤ fs.fs_frag)
    (h : ¬fragnum fs bprev > fragnum fs (bprev + frags - 1)) : fragnum fs bprev + frags ≤ fs.fs_frag := by
  have hf := fs.frag_cases
  simp only [fragnum] at *
  generalize fs.fs_frag = frag at *
  rcases hf with rfl | rfl | rfl | rfl <;> omega

/-- The fragments of an extension are taken one by one. -/
theorem foldl_clrbit (s : State) (cg bno lo n : ℕ) :
    Tracks cg s ((range' lo n).foldl (fun s i => (s.modify cg fun cgp =>
      { cgp with cg_free := clrbit cgp.cg_free (bno + i) }).addNffree cg (-1)) s) ∧
    ((range' lo n).foldl (fun s i => (s.modify cg fun cgp =>
      { cgp with cg_free := clrbit cgp.cg_free (bno + i) }).addNffree cg (-1)) s).cgs cg =
        ((s.cgs cg).clrFrags (bno + lo) n).addNffree (-n) := by
  induction n generalizing lo s with
  | zero => exact ⟨Tracks.refl _ _, by simp [Cg.clrFrags, Cg.addNffree]⟩
  | succ n ih =>
    rw [range'_succ, foldl_cons]
    obtain ⟨htra, hcgs⟩ := ih ((s.modify cg fun cgp =>
      { cgp with cg_free := clrbit cgp.cg_free (bno + lo) }).addNffree cg (-1)) (lo + 1)
    refine ⟨((tracks_modify _ _ rfl rfl rfl).trans (tracks_addNffree _ _ _)).trans htra, ?_⟩
    rw [hcgs, cgs_addNffree, cgs_modify]
    simp only [Cg.clrFrags, Cg.addNffree, range'_succ, foldl_cons, add_assoc,
      cast_add, cast_one]
    congr 2
    ring

/-- Where the run of free fragments an extension starts ends. -/
theorem extension_end (p : ℕ → Bool) {frags lim : ℕ} (h : frags ≤ lim) :
    let i := ((range' frags (lim - frags)).find? p).getD (max frags lim)
    frags ≤ i ∧ i ≤ lim ∧ (∀ j, frags ≤ j → j < i → p j = false) ∧ (i < lim → p i = true) := by
  cases hfind : (range' frags (lim - frags)).find? p with
  | none =>
    rw [find?_eq_none] at hfind
    simp only [Option.getD_none, max_eq_right h]
    refine ⟨h, le_rfl, fun j hlo hhi => ?_, fun hlt => absurd hlt (lt_irrefl _)⟩
    simpa using hfind j (mem_range'_1.2 ⟨hlo, by omega⟩)
  | some i =>
    obtain ⟨hp, hmem, hbef⟩ := find?_range'_eq_some.1 hfind
    have hmem := mem_range'_1.1 hmem
    refine ⟨hmem.1, by simp only [Option.getD_some]; omega, fun j hlo hhi => ?_, fun _ => hp⟩
    simpa using hbef j hlo hhi

/-- The free fragments after an allocated one are a run, as far as they go. -/
theorem runAt_extension {e : ℕ} (hclr : b (x - 1) = false) (hxe : x < e)
    (he : e ≤ fs.fs_frag) (hset : ∀ i, x ≤ i → i < e → b i = true) (hend : e < fs.fs_frag → b e = false) :
    RunAt fs.fs_frag b x (e - x) :=
  ⟨by omega, by omega, fun i hi hi' => hset i hi (by omega), fun _ => hclr, fun h => by
    rw [Nat.add_sub_cancel' hxe.le]
    exact hend (by omega)⟩

/-- `fragextend` of an allocated fragment, up to a block, keeps the summaries consistent. -/
theorem fragextend_consistent (hc : Consistent fs s) {error : Bool} {bprev osize nsize : ℕ}
    (hlt : bprev < fs.fs_size) (hooff : fragoff fs osize = 0) (hnoff : fragoff fs nsize = 0)
    (hpos : 0 < osize) (hgrow : osize < nsize) (hle : nsize ≤ fs.fs_bsize)
    (halc : Allocated fs s bprev (numfrags fs osize)) :
    Consistent fs (fragextend fs s error (dtog fs bprev) bprev osize nsize).1 := by
  have hcg := dtog_lt hlt
  have hgroup := hc.group _ hcg
  have hofr := numfrags_pos hooff hpos
  have hfrg := numfrags_lt hooff hnoff hgrow
  have hfrag : numfrags fs nsize ≤ fs.fs_frag := by
    rw [← numfrags_bsize fs]
    exact Nat.div_le_div_right hle
  simp only [fragextend]
  split
  · exact hc
  split
  · exact hc
  rename_i hblock
  split
  · exact hc
  split
  · exact hc
  rename_i hfree
  have hin := fragnum_add_le (by omega) hfrag hblock
  have hdtogd := dtogd_eq fs bprev
  rw [Allocated] at halc
  generalize numfrags fs osize = ofrags at *
  generalize numfrags fs nsize = frags at *
  generalize dtog fs bprev = cg at *
  set h0 := dtogd fs bprev / fs.fs_frag
  set x := fragnum fs bprev
  have hblk : ∀ i, bit (s.cgs cg).cg_free (dtogd fs bprev + i) = blk fs (s.cgs cg).cg_free h0 (x + i) :=
    fun i => by rw [blk, hdtogd, add_assoc]
  have hfree' : ∀ i, ofrags ≤ i → i < frags → blk fs (s.cgs cg).cg_free h0 (x + i) = true := by
    intro i hlo hhi
    have := hfree
    simp only [any_eq_true, not_exists, not_and, isclr_eq] at this
    simpa [hblk] using this i (mem_range'_1.2 ⟨hlo, by omega⟩)
  -- the run that is extended into
  obtain ⟨hi1, hi2, hi3, hi4⟩ := @extension_end (fun i => isclr (s.cgs cg).cg_free (dtogd fs bprev + i))
    frags (fs.fs_frag - x) (by omega)
  generalize ((range' frags (fs.fs_frag - x - frags)).find? fun i =>
    isclr (s.cgs cg).cg_free (dtogd fs bprev + i)).getD (max frags (fs.fs_frag - x)) = e at *
  have hrun : RunAt fs.fs_frag (blk fs (s.cgs cg).cg_free h0) (x + ofrags) (x + e - (x + ofrags)) := by
    refine runAt_extension ?_ (by omega) (by omega) (fun i hlo hhi => ?_) fun h => ?_
    · rw [Nat.add_sub_assoc hofr, ← hblk]
      exact halc _ (by omega)
    · obtain ⟨j, rfl⟩ := Nat.exists_eq_add_of_le (show x ≤ i by omega)
      by_cases hj : j < frags
      · exact hfree' j (by omega) hj
      · simpa [isclr_eq, hblk] using hi3 j (by omega) (by omega)
    · simpa [isclr_eq, hblk] using hi4 (by omega)
  rw [Nat.add_sub_add_left] at hrun
  obtain ⟨htra, hcgs⟩ := foldl_clrbit (s.modify cg fun cgp =>
    if e ≠ frags then (cgp.addFrsum (e - ofrags) (-1)).addFrsum (e - frags) 1
    else cgp.addFrsum (e - ofrags) (-1)) cg (dtogd fs bprev) ofrags (frags - ofrags)
  refine hc.of_tracks hcg ((tracks_modify _ _ ?_ ?_ ?_).trans htra) ?_
  iterate 3
    split_ifs <;> rfl
  have htake := hgroup.takeRun hrun (by omega) (n := frags - ofrags) (by omega) (by omega)
  rw [← add_assoc, ← hdtogd, Cg.takeRun] at htake
  rw [hcgs, cgs_modify]
  by_cases he : e = frags
  · rw [if_neg (by simp [he])] at htake ⊢
    exact htake
  · rw [if_pos (by omega), Nat.sub_sub_sub_cancel_right hfrg.le] at htake
    rw [if_pos he]
    exact htake

/-! ### Freeing -/

/-- The map of a group with fragments of a block freed, and the counts of them. -/
theorem Cg.Consistent.freeFrags (hc : cgp.Consistent fs) (hlt : h0 < nblk fs) (hn : 0 < n)
    (hxn : x + n ≤ fs.fs_frag) (hclr : ∀ i, x ≤ i → i < x + n → blk fs cgp.cg_free h0 i = false)
    {g : ℕ → ℤ} (hmap : map = (range' (h0 * fs.fs_frag + x) n).foldl setbit cgp.cg_free)
    (hfrsum : ∀ k, 0 < k → k < fs.fs_frag → g k = cgp.cg_frsum k +
      ((runs fs.fs_frag (blk fs map h0) k : ℤ) - runs fs.fs_frag (blk fs cgp.cg_free h0) k)) :
    if Full fs (blk fs map h0) then
      (((({ cgp with cg_free := map, cg_frsum := g } : Cg).addNffree n).addNffree
        (-fs.fs_frag)).addNbfree 1 |>.addBlk fs (h0 * fs.fs_frag) 1).Consistent fs
    else (({ cgp with cg_free := map, cg_frsum := g } : Cg).addNffree n).Consistent fs := by
  have hsame : SameBut fs h0 cgp.cg_free map := hmap ▸ sameBut_setFrags _ hxn
  have htake : TakenBits (blk fs map h0) (blk fs cgp.cg_free h0) x n := fun i => by
    rw [hmap, blk_setFrags]
    by_cases hi : x ≤ i ∧ i < x + n
    · rw [hclr i hi.1 hi.2, decide_eq_true hi]
      rfl
    · simp [hi]
  have hset : ∀ i, x ≤ i → i < x + n → blk fs map h0 i = true := fun i hi hi' => by
    rw [hmap, blk_setFrags, decide_eq_true ⟨hi, hi'⟩, Bool.or_true]
  have hbits := setBits_take htake hset hxn
  have hnot : ¬Full fs (blk fs cgp.cg_free h0) :=
    not_full_of_clear (i := x) (by omega) (hclr x le_rfl (by omega))
  split_ifs with hfull
  · refine hc.change hlt (d := 1) hsame ?_ rfl ?_ hfrsum (addBlk_btot _ _ _) (addBlk_b _ _ _) hc.rotor
    · change 1 = fullCount fs (blk fs map h0) - _
      rw [fullCount_of_full hfull, fullCount_of_not_full hnot, sub_zero]
    · change cgp.cg_cs.cs_nffree + ↑n + -↑fs.fs_frag =
        cgp.cg_cs.cs_nffree + (fragCount fs (blk fs map h0) - fragCount fs (blk fs cgp.cg_free h0))
      rw [fragCount_of_full hfull, fragCount_of_not_full hnot]
      have hall := setBits_eq_iff.2 hfull
      omega
  · refine hc.change hlt (d := 0) hsame ?_ (add_zero _).symm ?_ hfrsum (fun _ => ?_) (fun _ _ => ?_) hc.rotor
    · change 0 = fullCount fs (blk fs map h0) - _
      rw [fullCount_of_not_full hfull, fullCount_of_not_full hnot, sub_zero]
    · change cgp.cg_cs.cs_nffree + ↑n =
        cgp.cg_cs.cs_nffree + (fragCount fs (blk fs map h0) - fragCount fs (blk fs cgp.cg_free h0))
      rw [fragCount_of_not_full hfull, fragCount_of_not_full hnot]
      omega
    all_goals simp [Cg.addNffree]

/-- The map of a group with a block freed, and the counts of it. -/
theorem Cg.Consistent.freeBlock (hc : cgp.Consistent fs) (hlt : h0 < nblk fs)
    (hclr : ∀ i < fs.fs_frag, blk fs cgp.cg_free h0 i = false) :
    ((({ cgp with cg_free := setblock fs cgp.cg_free h0 } : Cg).addNbfree 1).addBlk fs (h0 * fs.fs_frag)
      1).Consistent fs := by
  have hfull := @blk_setblock fs cgp.cg_free h0
  refine hc.change hlt (d := 1) (sameBut_setblock _ _) ?_ rfl ?_ (fun k hk hkn => ?_)
    (addBlk_btot _ _ _) (addBlk_b _ _ _) hc.rotor
  · change 1 = fullCount fs (blk fs (setblock fs cgp.cg_free h0) h0) - _
    rw [fullCount_of_full hfull, fullCount_of_clear hclr]
    rfl
  · change cgp.cg_cs.cs_nffree = cgp.cg_cs.cs_nffree +
      (fragCount fs (blk fs (setblock fs cgp.cg_free h0) h0) - _)
    rw [fragCount_of_full hfull, fragCount_of_clear hclr]
    simp
  · change cgp.cg_frsum k = cgp.cg_frsum k +
      ((runs fs.fs_frag (blk fs (setblock fs cgp.cg_free h0) h0) k : ℤ) - _)
    rw [runs_eq_zero_of_full hfull hkn, runs_eq_zero_of_clear hclr]
    simp

/-- `free` of an allocated fragment, or block, keeps the summaries consistent. -/
theorem free_consistent (hc : Consistent fs s) {error : Bool} {bno size : ℕ}
    (hoff : fragoff fs size = 0) (hpos : 0 < size)
    (hin : fragnum fs bno + numfrags fs size ≤ fs.fs_frag)
    (halc : Allocated fs s bno (numfrags fs size))
    (h : free fs s error bno size = .ok s') : Consistent fs s' := by
  have hsame : (.ok s : Except Panic _) = .ok s' → Consistent fs s' := fun h => Except.ok.inj h ▸ hc
  have hfrg := numfrags_pos hoff hpos
  have hdtogd := dtogd_eq fs bno
  have hlt : dtogd fs bno / fs.fs_frag < nblk fs :=
    div_lt_div_of_lt_of_dvd fs.frag_dvd (mod_lt _ fs.fpg_pos)
  simp only [free] at h
  split at h
  · cases h
  split at h
  · exact hsame h
  rename_i hsize
  split at h
  · exact hsame h
  have hcg := dtog_lt (not_le.1 hsize)
  have hgroup := hc.group _ hcg
  rw [Allocated] at halc
  generalize dtog fs bno = cg at *
  set h0 := dtogd fs bno / fs.fs_frag with hh0
  set x := fragnum fs bno
  have hclr : ∀ i, x ≤ i → i < x + numfrags fs size → blk fs (s.cgs cg).cg_free h0 i = false :=
    fun i hi hi' => by
      rw [blk, ← Nat.add_sub_cancel' hi, ← add_assoc, ← hdtogd]
      exact halc _ (by omega)
  split at h
  · rename_i hblock
    rw [hblock, numfrags_bsize] at hin hclr
    split at h
    · cases h
    cases h
    have hx : x = 0 := by omega
    rw [hx, add_zero] at hdtogd
    refine hc.of_tracks hcg ((tracks_modify _ _ rfl rfl rfl).trans ((tracks_addNbfree _ _ _).trans
      (tracks_modify _ _ rfl rfl rfl))) ?_
    rw [State.addBlk, cgs_modify, cgs_addNbfree, cgs_modify, fragstoblks, ← hh0, hdtogd]
    exact hgroup.freeBlock hlt fun i hi => hclr i (by omega) (by omega)
  · have hbbase : dtogd fs bno - fragnum fs (dtogd fs bno) = h0 * fs.fs_frag := by
      have hmod : fragnum fs (dtogd fs bno) = x := mod_mod_of_dvd bno fs.frag_dvd
      omega
    rw [freeFrags_spec (fun i hi hi' => ?_), hbbase, fragstoblks, Nat.mul_div_cancel _ fs.frag_pos] at h
    simp only [bind, Except.bind] at h
    have hfrd := hgroup.freeFrags hlt hfrg hin hclr (congrArg (fun bno =>
      (range' bno (numfrags fs size)).foldl setbit (s.cgs cg).cg_free) hdtogd) (g := fragacct fs
        (blkmap fs ((range' (dtogd fs bno) (numfrags fs size)).foldl setbit (s.cgs cg).cg_free)
          (h0 * fs.fs_frag)) (fragacct fs (blkmap fs (s.cgs cg).cg_free (h0 * fs.fs_frag))
            (s.cgs cg).cg_frsum (-1)) 1) fun k hk hkn => by
        rw [fragacct_spec _ _ _ _ hk hkn, fragacct_spec _ _ _ _ hk hkn]
        ring
    split at h
    · rename_i hfull
      cases h
      rw [if_pos ((isblock_iff _ _).1 hfull)] at hfrd
      refine hc.of_tracks hcg ((tracks_modify _ _ rfl rfl rfl).trans ((tracks_addNffree _ _ _).trans
        ((tracks_addNffree _ _ _).trans ((tracks_addNbfree _ _ _).trans (tracks_modify _ _ rfl rfl rfl))))) ?_
      rw [State.addBlk, cgs_modify, cgs_addNbfree, cgs_addNffree, cgs_addNffree, cgs_modify]
      exact hfrd
    · rename_i hfull
      cases h
      rw [if_neg (mt (isblock_iff _ _).2 hfull)] at hfrd
      refine hc.of_tracks hcg ((tracks_modify _ _ rfl rfl rfl).trans (tracks_addNffree _ _ _)) ?_
      rw [cgs_addNffree, cgs_modify]
      exact hfrd
    · obtain ⟨j, rfl⟩ := Nat.exists_eq_add_of_le hi
      exact halc j (by omega)

/-! ### Runs -/

/-- A call; `error` says that the block of the group cannot be read. -/
inductive Call
  | alloccg (error : Bool) (cg bpref size : ℕ)
  | fragextend (error : Bool) (cg bprev osize nsize : ℕ)
  | free (error : Bool) (bno size : ℕ)

/-- Sizes are of up to a block, in fragments; only fragments that are allocated are
    extended, and freed, these within one block. -/
def Allowed (fs : Fs) (s : State) : Call → Prop
  | .alloccg _ cg _ size => cg < fs.fs_ncg ∧ fragoff fs size = 0 ∧ 0 < size ∧ size ≤ fs.fs_bsize
  | .fragextend _ cg bprev osize nsize => cg = dtog fs bprev ∧ bprev < fs.fs_size ∧
      fragoff fs osize = 0 ∧ fragoff fs nsize = 0 ∧ 0 < osize ∧ osize < nsize ∧ nsize ≤ fs.fs_bsize ∧
      Allocated fs s bprev (numfrags fs osize)
  | .free _ bno size => fragoff fs size = 0 ∧ 0 < size ∧
      fragnum fs bno + numfrags fs size ≤ fs.fs_frag ∧ Allocated fs s bno (numfrags fs size)

/-- What a call does. -/
def exec (fs : Fs) (s : State) : Call → Except Panic State
  | .alloccg error cg bpref size => (alloccg fs s error cg bpref size).map Prod.fst
  | .fragextend error cg bprev osize nsize => .ok (fragextend fs s error cg bprev osize nsize).1
  | .free error bno size => free fs s error bno size

/-- The runs from a state. -/
def system (fs : Fs) (s0 : State) : System State Call where
  init := {s0}
  step s c s' := Allowed fs s c ∧ exec fs s c = .ok s'

/-- A call keeps the summaries consistent. -/
theorem Consistent.step (hc : Consistent fs s) {c : Call} (ha : Allowed fs s c)
    (h : exec fs s c = .ok s') : Consistent fs s' := by
  cases c with
  | alloccg error cg bpref size =>
    obtain ⟨hcg, hoff, hpos, hle⟩ := ha
    rw [exec] at h
    cases halc : alloccg fs s error cg bpref size with
    | error => simp [halc, Except.map] at h
    | ok r =>
      obtain rfl : r.1 = s' := by simpa [halc, Except.map] using h
      exact alloccg_consistent hc hcg hoff hpos hle halc
  | fragextend error cg bprev osize nsize =>
    obtain ⟨rfl, hlt, hooff, hnoff, hpos, hgrow, hle, halc⟩ := ha
    cases h
    exact fragextend_consistent hc hlt hooff hnoff hpos hgrow hle halc
  | free error bno size =>
    obtain ⟨hoff, hpos, hin, halc⟩ := ha
    exact free_consistent hc hoff hpos hin halc h

/-- From a file system whose summaries are consistent, they are in every state reached. -/
theorem run_consistent {s0 : State} (hc : Consistent fs s0) (hs : (system fs s0).Reachable s) :
    Consistent fs s := by
  refine hs.invariant (fun s hs => ?_) fun _ _ _ hc h => hc.step h.1 h.2
  rwa [Set.mem_singleton_iff.1 hs]

/-- A file system of one block of eight fragments. -/
def oneBlock : Fs where
  fs_size := 8
  fs_ncg := 1
  fs_bsize := 8192
  fs_fsize := 1024
  fs_frag := 8
  fs_nspf := 2
  fs_nsect := 16
  fs_spc := 16
  fs_fpg := 8
  fs_cpc := 0
  fs_postbl _ _ := -1
  fs_rotbl _ := 0
  frag_mem := eight_frags
  fsize_pos := kilo_pos
  bsize_eq := eight_kilo
  fpg_pos := by decide
  frag_dvd := ⟨1, rfl⟩
  size_le := by decide

/-- The block is free. -/
def oneFree : State where
  fs_cstotal := ⟨1, 0⟩
  fs_cs _ := ⟨1, 0⟩
  cgs _ :=
    { cg_cgx := 0
      cg_cs := ⟨1, 0⟩
      cg_rotor := 0
      cg_frotor := 0
      cg_frsum := fun _ => 0
      cg_btot := fun cyl => if cyl = 0 then 1 else 0
      cg_b := fun cyl rpos => if cyl = 0 ∧ rpos = 0 then 1 else 0
      cg_magic := CG_MAGIC
      cg_free := fun i => if i = 0 then 0xff else 0 }

theorem oneFree_consistent : Consistent oneBlock oneFree := by
  have hfull : Full oneBlock (blk oneBlock (oneFree.cgs 0).cg_free 0) := by decide
  have hgroup : (oneFree.cgs 0).Consistent oneBlock := by
    have hone := fullCount_of_full hfull
    refine ⟨by decide, by decide, fun k hk hkn => ?_, fun cyl => ?_, fun cyl rpos => ?_, fun i hi => ?_,
      (by decide : 0 / NBBY < howmany oneBlock.fs_fpg NBBY)⟩
    all_goals
      try rw [show nblk oneBlock = 1 from rfl, Finset.sum_range_one]
    · rw [runs_eq_zero_of_full hfull hkn]
      rfl
    · rw [hone, show cbtocylno oneBlock (0 * oneBlock.fs_frag) = 0 from rfl]
      exact if_congr eq_comm rfl rfl
    · rw [hone, show cbtocylno oneBlock (0 * oneBlock.fs_frag) = 0 from rfl,
        show cbtorpos oneBlock (0 * oneBlock.fs_frag) = 0 from rfl]
      exact if_congr (and_congr eq_comm eq_comm) rfl rfl
    · have hi : 8 ≤ i := hi
      have hne : i / NBBY ≠ 0 := by
        rw [NBBY]
        omega
      rw [bit]
      simp [oneFree, hne]
  refine ⟨fun cg _ => hgroup, fun cg hcg => ?_, fun _ _ => rfl, rfl, rfl⟩
  have : cg < 1 := hcg
  change 0 = cg
  omega

/-- Allocating one fragment leaves seven. -/
theorem run_consistent_oneFree : ∃ s, exec oneBlock oneFree (.alloccg false 0 0 1024) = .ok s ∧
    s.fs_cstotal = ⟨0, 7⟩ ∧ Consistent oneBlock s :=
  ⟨_, rfl, rfl, run_consistent oneFree_consistent (.step (a := .alloccg false 0 0 1024) (.init rfl)
    ⟨⟨by decide, by decide, by decide, by decide⟩, rfl⟩)⟩

end Uwisc.Ufs
