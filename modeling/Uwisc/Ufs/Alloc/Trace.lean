import Uwisc.Ufs.Alloc.Charge

/-!
# What a call that fails leaves

A call of `alloc` or `realloccg` that returns `NULL` leaves the usage of the user, the blocks of the
inode, the maps and the summaries as they were, if and only if it was `Spared` (`null_iff`).

* `alloccg_ok`: a group without space is left as it is, and from one that has space some is taken;
* `hashalloc_ok`: the same, for the groups that are searched;
* `fragextend_ok`: a fragment that can be extended is.
-/

namespace Uwisc.Ufs.Charge

open Chkdq Except Lib List Option

variable {fs : Super} {s s' : State} {cg r : ℕ}

/-! ### One group -/

variable {bno bpref size ncg n icg bprev osize nsize : ℕ} {ret : Ret} {readError : Bool}
  {error : ℕ → Bool}

/-- A fragment that is free is not the first one of the file system. -/
theorem Valid.ne_zero (hv : Valid fs s) (hbit : bit (s.cgs cg).cg_free bno = true) :
    cg * fs.fs_fpg + bno ≠ 0 := by
  intro hzero
  obtain ⟨hcg, rfl⟩ := Nat.add_eq_zero_iff.1 hzero
  obtain rfl := (Nat.mul_eq_zero.1 hcg).resolve_right (Nat.ne_of_gt fs.fpg_pos)
  rw [hv.boot] at hbit
  cases hbit

/-- A block is taken, and it is not the first one of the file system. -/
theorem alloccgblk_ok (hv : Valid fs s) (hcg : cg < fs.fs_ncg)
    (h : alloccgblk fs s cg bpref = .ok (s', r)) :
    r ≠ 0 ∧ s'.fs_cstotal.cs_nbfree = s.fs_cstotal.cs_nbfree - 1 := by
  cases hcho : choose fs (s.cgs cg) bpref with
  | error e => simp [alloccgblk, hcho, bind, Except.bind] at h
  | ok q =>
    obtain ⟨cgp, bno⟩ := q
    obtain ⟨⟨rotor, frotor, -, rfl⟩, h0, rfl, hfull⟩ := choose_spec (hv.group cg hcg).rotor hcho
    simp only [alloccgblk, hcho, bind, Except.bind, hv.cgx cg hcg] at h
    cases h
    exact ⟨hv.ne_zero (hfull 0 fs.frag_pos), rfl⟩

/-- A group without space is left as it is, and from one that has space some is taken. -/
theorem alloccg_ok (hv : Valid fs s) (hcg : cg < fs.fs_ncg) {error : Bool}
    (hoff : fragoff fs size = 0) (hpos : 0 < size) (h : alloccg fs s error cg bpref size = .ok (s', r)) :
    ¬Available fs s error cg size ∧ s' = s ∧ r = 0 ∨
      Available fs s error cg size ∧ r ≠ 0 ∧ s'.fs_cstotal ≠ s.fs_cstotal := by
  have hnone (hun : ¬Available fs s error cg size) (h : (.ok (s, 0) : Except Ufs.Panic _) = .ok (s', r)) :
      ¬Available fs s error cg size ∧ s' = s ∧ r = 0 ∨
        Available fs s error cg size ∧ r ≠ 0 ∧ s'.fs_cstotal ≠ s.fs_cstotal := by
    cases h
    exact .inl ⟨hun, rfl, rfl⟩
  have htot {t : State} (ht : t.fs_cstotal.cs_nbfree = s.fs_cstotal.cs_nbfree - 1) : t.fs_cstotal ≠ s.fs_cstotal :=
    fun heq => by
      rw [heq] at ht
      omega
  simp only [alloccg] at h
  split at h
  case isTrue hfull => exact hnone (fun hav => (if_pos hfull.2 ▸ hav.2.2).1 hfull.1) h
  case isFalse h1 =>
  split at h
  case isTrue hbad =>
    refine hnone ?_ h
    rintro ⟨herr, hmag, hspc⟩
    rcases hbad with herr' | hmag' | hfull
    · exact Bool.false_ne_true (herr.symm.trans herr')
    · exact hmag' hmag
    · exact (if_pos hfull.2 ▸ hspc).2 hfull.1
  case isFalse h2 =>
  have hread : error = false ∧ (s.cgs cg).cg_magic = CG_MAGIC :=
    ⟨by simpa using fun h => h2 (.inl h), by simpa using fun h => h2 (.inr (.inl h))⟩
  split at h
  case isTrue hsize =>
    obtain ⟨hr, ht⟩ := alloccgblk_ok hv hcg h
    refine .inr ⟨⟨hread.1, hread.2, ?_⟩, hr, htot ht⟩
    rw [if_pos hsize]
    exact ⟨fun hz => h1 ⟨hz, hsize⟩, fun hz => h2 (.inr (.inr ⟨hz, hsize⟩))⟩
  case isFalse hsize =>
  have hspc : Available fs s error cg size ↔ (s.cgs cg).cg_cs.cs_nbfree ≠ 0 ∨
      ∃ siz, numfrags fs size ≤ siz ∧ siz < fs.fs_frag ∧ (s.cgs cg).cg_frsum siz ≠ 0 := by
    rw [Available, if_neg hsize]
    exact ⟨fun h => h.2.2, fun h => ⟨hread.1, hread.2, h⟩⟩
  split at h
  · rename_i hfind
    have hno : ¬∃ siz, numfrags fs size ≤ siz ∧ siz < fs.fs_frag ∧ (s.cgs cg).cg_frsum siz ≠ 0 := by
      rintro ⟨siz, hlo, hhi, hne⟩
      exact find?_eq_none.1 hfind siz (mem_range'_1.2 ⟨hlo, by omega⟩) (by simpa using hne)
    split at h
    · rename_i hzero
      exact hnone (fun hav => (hspc.1 hav).elim (fun hne => hne hzero) hno) h
    · -- a block is hacked up
      rename_i hne
      cases halc : alloccgblk fs s cg bpref with
      | error e => simp [halc, bind, Except.bind] at h
      | ok q =>
        obtain ⟨hr, ht⟩ := alloccgblk_ok hv hcg halc
        simp only [halc, bind, Except.bind] at h
        cases h
        exact .inr ⟨hspc.2 (.inl hne), hr, htot ht⟩
  · rename_i allocsiz hfind
    have hmem := mem_range'_1.1 (mem_of_find?_eq_some hfind)
    have hfrg := numfrags_pos hoff hpos
    cases hsea : mapsearch fs (s.cgs cg) bpref allocsiz with
    | error e => simp [hsea, bind, Except.bind] at h
    | ok q =>
      obtain ⟨cgp, bno⟩ := q
      obtain ⟨-, h0, pos, rfl, hrun⟩ := mapsearch_spec (hv.group cg hcg).rotor (by omega) (by omega) hsea
      simp only [hsea, bind, Except.bind] at h
      cases h
      have hfnd := find?_some hfind
      refine .inr ⟨hspc.2 (.inr ⟨allocsiz, hmem.1, by omega, by simpa using hfnd⟩),
        hv.ne_zero (hrun.2.2.1 pos (le_refl _) (by have := hrun.1; omega)), fun heq => ?_⟩
      have hnff := congrArg Csum.cs_nffree heq
      change s.fs_cstotal.cs_nffree + -(numfrags fs size : ℤ) = s.fs_cstotal.cs_nffree at hnff
      omega

/-! ### The groups that are searched -/

theorem rehash_lt {i : ℕ} (hcg : icg < ncg) : ∀ cg ∈ rehash ncg n i icg, cg < ncg := by
  induction n generalizing i icg with
  | zero => exact fun cg h => absurd h not_mem_nil
  | succ n ih =>
    rw [rehash]
    split_ifs with hi hwrap
    · have hnx : icg + i - ncg < ncg := by omega
      exact forall_mem_cons.2 ⟨hnx, ih hnx⟩
    · exact forall_mem_cons.2 ⟨not_le.1 hwrap, ih (not_le.1 hwrap)⟩
    · exact fun cg h => absurd h not_mem_nil

theorem others_lt (hcg : icg < ncg) : ∀ cg ∈ others ncg icg, cg < ncg := by
  intro cg h
  rcases mem_append.1 h with h | h
  · exact rehash_lt hcg cg h
  · obtain ⟨i, -, rfl⟩ := List.mem_map.1 h
    exact Nat.mod_lt _ (Nat.zero_lt_of_lt hcg)

/-- A call that finds nothing has changed nothing. -/
theorem tryGroups_ok (hv : Valid fs s) (hoff : fragoff fs size = 0)
    (hpos : 0 < size) {cgs : List (ℕ × ℕ)} (hcgs : ∀ p ∈ cgs, p.1 < fs.fs_ncg)
    (h : tryGroups fs s error size cgs n = .ok (s', r)) :
    let found := ∃ i p, cgs[i]? = some p ∧ Available fs s (error (n + i)) p.1 size
    ¬found ∧ s' = s ∧ r = 0 ∨ found ∧ r ≠ 0 ∧ s'.fs_cstotal ≠ s.fs_cstotal := by
  induction cgs generalizing n with
  | nil =>
    cases h
    exact .inl ⟨fun ⟨i, p, hp, _⟩ => by simp at hp, rfl, rfl⟩
  | cons p cgs ih =>
    obtain ⟨cg, pref⟩ := p
    obtain ⟨hcg, hcgs⟩ := forall_mem_cons.1 hcgs
    rw [tryGroups] at h
    split at h
    · cases h
    · rename_i s1 result halc
      rcases alloccg_ok hv hcg hoff hpos halc with ⟨hno, rfl, rfl⟩ | ⟨hav, hr, ht⟩
      · rw [if_neg (by simp)] at h
        have hstep : (∃ i p, ((cg, pref) :: cgs)[i]? = some p ∧ Available fs s1 (error (n + i)) p.1 size) ↔
            ∃ i p, cgs[i]? = some p ∧ Available fs s1 (error (n + 1 + i)) p.1 size := by
          constructor
          · rintro ⟨i, p, hp, hav⟩
            cases i with
            | zero =>
              cases hp
              exact absurd hav hno
            | succ i => exact ⟨i, p, hp, by rwa [add_right_comm]⟩
          · rintro ⟨i, p, hp, hav⟩
            exact ⟨i + 1, p, hp, by rwa [← add_assoc, add_right_comm]⟩
        simp only [hstep]
        exact ih hcgs h
      · rw [if_pos hr] at h
        cases h
        exact .inr ⟨⟨0, _, rfl, hav⟩, hr, ht⟩

/-- If no group that is searched has space nothing is done, and else some is taken. -/
theorem hashalloc_ok (hv : Valid fs s) {pref : ℕ} (hcg : cg < fs.fs_ncg)
    (hoff : fragoff fs size = 0) (hpos : 0 < size) (h : hashalloc fs s error cg pref size = .ok (s', r)) :
    ¬AnyAvailable fs s error cg size ∧ s' = s ∧ r = 0 ∨
      AnyAvailable fs s error cg size ∧ r ≠ 0 ∧ s'.fs_cstotal ≠ s.fs_cstotal := by
  have hcgs : ∀ p ∈ (cg, pref) :: (others fs.fs_ncg cg).map fun cg => (cg, 0), p.1 < fs.fs_ncg := by
    refine forall_mem_cons.2 ⟨hcg, fun p hp => ?_⟩
    obtain ⟨cg', hcg', rfl⟩ := List.mem_map.1 hp
    exact others_lt hcg cg' hcg'
  have hany : AnyAvailable fs s error cg size ↔
      ∃ i p, ((cg, pref) :: (others fs.fs_ncg cg).map fun cg => (cg, 0))[i]? = some p ∧
        Available fs s (error (0 + i)) p.1 size := by
    constructor
    · rintro ⟨i, cg', hp, hav⟩
      cases i with
      | zero =>
        cases hp
        exact ⟨0, _, rfl, hav⟩
      | succ i => exact ⟨i + 1, (cg', 0), by simpa using hp, by rwa [zero_add]⟩
    · rintro ⟨i, p, hp, hav⟩
      rw [zero_add] at hav
      cases i with
      | zero =>
        cases hp
        exact ⟨0, cg, rfl, hav⟩
      | succ i =>
        refine ⟨i + 1, p.1, ?_, hav⟩
        obtain ⟨cg', hcg', rfl⟩ := map_eq_some_iff.1 (by simpa using hp)
        exact hcg'
  rw [hany]
  exact tryGroups_ok hv hoff hpos hcgs h

/-! ### Extending -/

/-- A fragment that can be extended is, and takes space; else nothing is done. -/
theorem fragextend_ok {error : Bool} (hooff : fragoff fs osize = 0)
    (hnoff : fragoff fs nsize = 0) (hgrow : osize < nsize)
    (h : fragextend fs s error (dtog fs bprev) bprev osize nsize = (s', r)) :
    ¬Extendable fs s error bprev osize nsize ∧ s' = s ∧ r = 0 ∨
      Extendable fs s error bprev osize nsize ∧ r = bprev ∧ s'.fs_cstotal ≠ s.fs_cstotal := by
  have hfrg := numfrags_lt hooff hnoff hgrow
  have hnone (hun : ¬Extendable fs s error bprev osize nsize) (h : (s, 0) = (s', r)) :
      ¬Extendable fs s error bprev osize nsize ∧ s' = s ∧ r = 0 ∨
        Extendable fs s error bprev osize nsize ∧ r = bprev ∧ s'.fs_cstotal ≠ s.fs_cstotal := by
    obtain ⟨rfl, rfl⟩ := Prod.mk.inj h
    exact .inl ⟨hun, rfl, rfl⟩
  simp only [fragextend] at h
  split at h
  case isTrue hfew => exact hnone (fun hext => absurd hfew (not_lt.2 hext.1)) h
  case isFalse hmany =>
  split at h
  case isTrue hcross => exact hnone (fun hext => absurd hcross (not_lt.2 hext.2.1)) h
  case isFalse hin =>
  split at h
  case isTrue hbad =>
    refine hnone ?_ h
    rintro ⟨-, -, herr, hmag, -⟩
    rcases hbad with herr' | hmag'
    · exact Bool.false_ne_true (herr.symm.trans herr')
    · exact hmag' hmag
  case isFalse hread =>
  split at h
  case isTrue hclr =>
    obtain ⟨i, hi, hbit⟩ := List.any_eq_true.1 hclr
    have hmem := mem_range'_1.1 hi
    refine hnone ?_ h
    rintro ⟨-, -, -, -, hfree⟩
    have := hfree i hmem.1 (by omega)
    simp [isclr_eq, this] at hbit
  case isFalse hfree =>
  refine .inr ⟨⟨not_lt.1 hmany, not_lt.1 hin, by simpa using fun h => hread (.inl h),
    by simpa using fun h => hread (.inr h), fun i hlo hhi => ?_⟩, (Prod.mk.inj h).2.symm, fun heq => ?_⟩
  · simp only [List.any_eq_true, not_exists, not_and, isclr_eq] at hfree
    simpa using hfree i (mem_range'_1.2 ⟨hlo, by omega⟩)
  · -- the fragments that are taken are no longer counted as free
    obtain ⟨rfl, -⟩ := Prod.mk.inj h
    generalize hs : s.modify (dtog fs bprev) _ = t at heq
    have ht : t.fs_cstotal = s.fs_cstotal := hs ▸ rfl
    obtain ⟨htra, hcgs⟩ := foldl_clrbit t (dtog fs bprev) (dtogd fs bprev) (numfrags fs osize)
      (numfrags fs nsize - numfrags fs osize)
    have htot := htra.total_nffree.trans htra.nffree
    rw [hcgs, heq, ht] at htot
    change _ = (t.cgs _).cg_cs.cs_nffree + -((numfrags fs nsize - numfrags fs osize : ℕ) : ℤ) - _ at htot
    omega

/-! ### The charge -/

variable {k k' : Kernel} {e : Env} {blocks : ℕ}

theorem btodb_lt (h : size ≤ fs.fs_bsize) : btodb size < 2 ^ 31 := by
  have := h.trans fs.bsize_le
  rw [MAXBSIZE] at this
  rw [btodb, DEV_BSIZE]
  omega

theorem toInt_change (h : blocks < 2 ^ 31) : (e.call blocks).change.toInt = blocks := by
  exact (BitVec.toInt_ofNat' _).trans (Int.bmod_eq_of_le (by omega) (by omega))

/-- A charge is refused if a limit is exceeded, and else it changes the usage if the user is charged. -/
theorem charge_spec (k : Kernel) (e : Env) (h : blocks < 2 ^ 31) :
    (k.charge e blocks).1.s = k.s ∧ (k.charge e blocks).1.i_blocks = k.i_blocks ∧
      ((k.charge e blocks).2 = true ↔ Denied k e blocks) ∧
      ((k.charge e blocks).1.i_dquot.map Dquot.dq_curblocks = k.i_dquot.map Dquot.dq_curblocks ↔
        Denied k e blocks ∨ ¬Charged k e blocks) := by
  have hchan := toInt_change (e := e) h
  cases hd : k.i_dquot with
  | none => simp [Kernel.charge, Denied, Charged, hd]
  | some d =>
    have hden : Denied k e blocks ↔ blocks ≠ 0 ∧ e.u_uid ≠ 0 ∧ Refused (e.call blocks) d := by simp [Denied, hd]
    have hcha : Charged k e blocks ↔ blocks ≠ 0 ∧ (e.u_uid = 0 → e.junk ≠ d.dq_curblocks) := by simp [Charged, hd]
    simp only [Kernel.charge, hd, map_some, some_inj, hden, hcha, true_and]
    by_cases hzero : blocks = 0
    · subst hzero
      simp [chkdq, Env.call]
    have hpos : 0 < (e.call blocks).change.toInt := by omega
    by_cases huid : e.u_uid = 0
    · -- the super-user is charged with what is in ncurblocks
      obtain ⟨herr, hcur⟩ := chkdq_root (c := e.call blocks) e.junk d hpos huid
      simp [herr, hcur, hzero, huid]
    · obtain ⟨herr, hcur⟩ := chkdq_charge e.junk d hpos huid
      have hne : (e.call blocks).change ≠ 0 := by
        intro h
        simp [h] at hpos
      by_cases href : Refused (e.call blocks) d
      · simp [herr, hcur, href, hzero, huid]
      · have hmvd : d.dq_curblocks + (e.call blocks).change ≠ d.dq_curblocks := mt BitVec.add_right_eq_self.1 hne
        simp [herr, hcur, href, hmvd, hzero, huid]

/-! ### What a call leaves -/

theorem SameSpace.refl (s : State) : SameSpace s s :=
  ⟨rfl, rfl, fun _ => rfl, fun _ => rfl, fun _ => rfl, fun _ => rfl, fun _ => rfl⟩

theorem NoTrace.refl (k : Kernel) : NoTrace k k := ⟨rfl, rfl, SameSpace.refl _⟩

/-- A call that has only charged the user leaves no trace if he was refused, or not charged. -/
theorem noTrace_charge (k : Kernel) (e : Env) (h : blocks < 2 ^ 31) :
    NoTrace k (k.charge e blocks).1 ↔ Denied k e blocks ∨ ¬Charged k e blocks := by
  obtain ⟨hs, hblo, -, husg⟩ := charge_spec k e h
  exact ⟨fun hno => husg.1 hno.usage, fun hok => ⟨husg.2 hok, hblo, hs ▸ SameSpace.refl _⟩⟩

/-- What is taken is a trace. -/
theorem not_noTrace (h : k'.s.fs_cstotal ≠ k.s.fs_cstotal) : ¬NoTrace k k' := fun hno => h hno.space.total

/-- A call that returns `NULL` leaves no trace. -/
def Clean (k k' : Kernel) (ret : Ret) : Prop := ∀ err, ret = .error err → NoTrace k k'

theorem clean_ok : Clean k k' (.ok bno) := nofun

theorem clean_error {err : Errno} : Clean k k' (.error err) ↔ NoTrace k k' :=
  ⟨fun h => h err rfl, fun h _ _ => h⟩

/-- `alloc`. -/
theorem alloc_clean (hv : Valid fs k.s)
    (hp : Proper fs e (.alloc error bpref size)) (h : alloc fs k e error bpref size = .ok (k', ret)) :
    Clean k k' ret ↔ Spared fs k e (.alloc error bpref size) := by
  obtain ⟨hino, hpos⟩ := hp
  simp only [alloc] at h
  split at h
  case isTrue => cases h
  case isFalse hsize =>
  obtain ⟨hle, hoff⟩ := not_or.1 hsize
  have hblo := btodb_lt (not_lt.1 hle)
  obtain ⟨hs, -, herr, -⟩ := charge_spec k e hblo
  split at h
  case isTrue hfull =>
    cases h
    exact iff_of_true (clean_error.2 (NoTrace.refl _)) (.inl hfull)
  case isFalse hfull =>
  split at h
  case isTrue hres =>
    cases h
    exact iff_of_true (clean_error.2 (NoTrace.refl _)) (.inr (.inl hres))
  case isFalse hres =>
  change ¬Reserved fs k.s e at hres
  split at h
  case isTrue hden =>
    cases h
    have hden := herr.1 hden
    exact iff_of_true (clean_error.2 ((noTrace_charge k e hblo).2 (.inl hden))) (.inr (.inr (.inl hden)))
  case isFalse hden =>
  have hden := mt herr.2 hden
  split at h
  · cases h
  rename_i s1 bno hhash
  -- the group where the search begins
  have hicg : (if (if fs.fs_size ≤ bpref then 0 else bpref) = 0 then itog fs e.i_number
      else dtog fs (if fs.fs_size ≤ bpref then 0 else bpref)) =
        if fs.fs_size ≤ bpref ∨ bpref = 0 then itog fs e.i_number else dtog fs bpref := by
    by_cases hbig : fs.fs_size ≤ bpref
    · simp [hbig]
    · simp [hbig]
  have hcg : (if fs.fs_size ≤ bpref ∨ bpref = 0 then itog fs e.i_number else dtog fs bpref) < fs.fs_ncg := by
    split_ifs with hbig
    · exact hino
    · exact dtog_lt (not_le.1 (not_or.1 hbig).1)
  rw [hicg, hs] at hhash
  rcases hashalloc_ok hv hcg (not_not.1 hoff) hpos hhash with ⟨hno, rfl, rfl⟩ | ⟨hany, hne, htot⟩
  · rw [if_pos rfl] at h
    cases h
    rw [← hs, clean_error]
    refine (noTrace_charge k e hblo).trans ?_
    simp only [Spared, hfull, hres, hden, hno, false_or]
  · rw [if_neg hne] at h
    cases h
    exact iff_of_true clean_ok (.inr (.inr (.inr (.inl hany))))

/-- Where there is space, the call leaves no trace exactly if the old fragment can be read. -/
theorem moved_clean {k1 : Kernel}
    (htot : k1.s.fs_cstotal ≠ k.s.fs_cstotal) (h : k1.moved readError blocks bno = (k', ret)) :
    Clean k k' ret ↔ readError = false := by
  cases readError with
  | true =>
    cases h
    exact iff_of_false (fun hcln => not_noTrace htot (clean_error.1 hcln)) Bool.noConfusion
  | false =>
    cases h
    exact iff_of_true clean_ok rfl

/-- `realloccg`. -/
theorem realloccg_clean (hv : Valid fs k.s) {extError : Bool}
        (hp : Proper fs e (.realloccg extError error readError bprev bpref osize nsize))
    (h : realloccg fs k e extError error readError bprev bpref osize nsize = .ok (k', ret)) :
    Clean k k' ret ↔ Spared fs k e (.realloccg extError error readError bprev bpref osize nsize) := by
  obtain ⟨hbprev, hgrow⟩ := hp
  simp only [realloccg] at h
  split at h
  case isTrue => cases h
  case isFalse hsize =>
  simp only [not_or, not_lt, not_not] at hsize
  obtain ⟨-, hooff, hle, hnoff⟩ := hsize
  have hblo : btodb (nsize - osize) < 2 ^ 31 := btodb_lt ((Nat.sub_le _ _).trans hle)
  obtain ⟨hs, -, herr, -⟩ := charge_spec k e hblo
  split at h
  case isTrue hres =>
    cases h
    exact iff_of_true (clean_error.2 (NoTrace.refl _)) (.inl hres)
  case isFalse hres =>
  change ¬Reserved fs k.s e at hres
  split at h
  case isTrue => cases h
  case isFalse hzero =>
  split at h
  case isTrue hden =>
    cases h
    have hden := herr.1 hden
    exact iff_of_true (clean_error.2 ((noTrace_charge k e hblo).2 (.inl hden))) (.inr (.inl hden))
  case isFalse hden =>
  have hden := mt herr.2 hden
  have hspa : Spared fs k e (.realloccg extError error readError bprev bpref osize nsize) ↔
      readError = false ∧ (Extendable fs k.s extError bprev osize nsize ∨
        AnyAvailable fs k.s error (dtog fs bprev) nsize) ∨
      ¬(Extendable fs k.s extError bprev osize nsize ∨
        AnyAvailable fs k.s error (dtog fs bprev) nsize) ∧ ¬Charged k e (btodb (nsize - osize)) := by
    simp only [Spared, hres, hden, false_or]
  rw [hspa]
  rw [hs] at h
  rcases hext : fragextend fs k.s extError (dtog fs bprev) bprev osize nsize with ⟨s1, bno⟩
  simp only [hext] at h
  rcases fragextend_ok hooff hnoff hgrow hext with ⟨hno, rfl, rfl⟩ | ⟨hyes, rfl, htot⟩
  · rw [if_neg (by simp)] at h
    split at h
    · cases h
    rename_i s2 bno hhash
    rcases hashalloc_ok hv (dtog_lt hbprev) hnoff (Nat.zero_lt_of_lt hgrow) hhash with
      ⟨hnone, rfl, rfl⟩ | ⟨hany, hne, htot⟩
    · rw [if_pos rfl] at h
      cases h
      have hkept := noTrace_charge k e hblo
      rw [clean_error]
      simp only [hden, hno, hnone, false_or, or_false, and_false, not_false_eq_true, true_and] at hkept ⊢
      rwa [← hs]
    · rw [if_neg hne] at h
      rw [moved_clean htot (ok.inj h)]
      simp [hany]
  · rw [if_pos hzero] at h
    rw [moved_clean htot (ok.inj h)]
    simp [hyes]

/-- A call that returns `NULL` leaves no trace, if and only if it fails before the user is charged, or
    there is nothing to charge and no space. -/
theorem null_iff (hv : Valid fs k.s) {req : Request} (hp : Proper fs e req) {ret : Ret}
    (h : exec fs k e req = .ok (k', ret)) :
    (∀ err, ret = .error err → NoTrace k k') ↔ Spared fs k e req := by
  cases req with
  | alloc error bpref size => exact alloc_clean hv hp h
  | realloccg extError error readError bprev bpref osize nsize => exact realloccg_clean hv hp h

/-! ### One fragment -/

/-- A file system of one block of eight fragments, without a reserve. -/
def oneBlock : Super where
  toFs := Ufs.oneBlock
  fs_ipg := 8
  fs_dsize := 7
  fs_minfree := 0
  bsize_le := by decide

/-- The last fragment is free. -/
def lastFree : State where
  fs_cstotal := ⟨0, 1⟩
  fs_cs _ := ⟨0, 1⟩
  cgs _ :=
    { cg_cgx := 0
      cg_cs := ⟨0, 1⟩
      cg_rotor := 0
      cg_frotor := 0
      cg_frsum := fun k => if k = 1 then 1 else 0
      cg_btot := fun _ => 0
      cg_b := fun _ _ => 0
      cg_magic := CG_MAGIC
      cg_free := fun i => if i = 0 then 0x80 else 0 }

theorem lastFree_valid : Valid oneBlock lastFree := by
  have hblk : ∀ i < 8, blk oneBlock.toFs (lastFree.cgs 0).cg_free 0 i = decide (7 ≤ i) := by decide
  have hnot : ¬Full oneBlock.toFs (blk oneBlock.toFs (lastFree.cgs 0).cg_free 0) := by decide
  have hgroup : (lastFree.cgs 0).Consistent oneBlock.toFs := by
    have hzero := fullCount_of_not_full hnot
    refine ⟨by decide, by decide, fun k hk hkn => ?_, fun cyl => ?_, fun cyl rpos => ?_, fun i hi => ?_,
      (by decide : 0 / NBBY < howmany oneBlock.fs_fpg NBBY)⟩
    all_goals
      try rw [show nblk oneBlock.toFs = 1 from rfl, Finset.sum_range_one]
    · rw [show runs oneBlock.fs_frag (blk oneBlock.toFs (lastFree.cgs 0).cg_free 0) k = if k = 1 then 1 else 0 from
        runs_suffix hblk (by decide) (by decide) hkn]
      exact (Nat.cast_ite ..).symm
    · rw [hzero, ite_self]
      rfl
    · rw [hzero, ite_self]
      rfl
    · have hi : 8 ≤ i := hi
      have hne : i / NBBY ≠ 0 := by
        rw [NBBY]
        omega
      rw [bit]
      simp [lastFree, hne]
  refine { group := fun cg _ => hgroup, cgx := fun cg hcg => ?_, copy := fun _ _ => rfl, nbfree := rfl,
           nffree := rfl, boot := by decide }
  have : cg < 1 := hcg
  change 0 = cg
  omega

/-- An ordinary user whose usage is five, of a limit of a hundred. -/
def ordinary : Env where
  u_uid := 7
  u_ruid := 7
  i_uid := 7
  i_number := 2
  tv_sec := 0
  m_btimelimit := 0
  junk := 0

def five : Kernel where
  s := lastFree
  i_dquot := some ⟨false, false, 100, 0, 5, 0⟩
  i_blocks := 0

/-- The fragment is taken. -/
theorem null_iff_lastFree : ∃ k', exec oneBlock five ordinary (.alloc (fun _ => false) 0 1024) = .ok (k', .ok 7) ∧
    Spared oneBlock five ordinary (.alloc (fun _ => false) 0 1024) := by
  have hp : Proper oneBlock ordinary (.alloc (fun _ => false) 0 1024) := ⟨by decide, by decide⟩
  exact ⟨_, rfl, (null_iff (k := five) lastFree_valid hp rfl).1 nofun⟩

/-- There is no space for two fragments, and the user is charged with them. -/
theorem charge_kept : ¬∀ (fs : Super) (k k' : Kernel) (e : Env) (req : Request) (ret : Ret), Valid fs k.s →
    Proper fs e req → exec fs k e req = .ok (k', ret) → ∀ err, ret = .error err → NoTrace k k' := by
  intro h
  have husg := (h oneBlock five _ ordinary (.alloc (fun _ => false) 0 2048) _ lastFree_valid
    ⟨by decide, by decide⟩ rfl .ENOSPC rfl).usage
  revert husg
  decide

end Uwisc.Ufs.Charge
