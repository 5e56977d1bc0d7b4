import Uwisc.Ufs.Map

/-!
# Searching the map

`mapsearch` scans the map for a byte that has a fragment of a size, by a table of the sizes in every
byte, and then sifts through the byte for it. If there is a fragment of the size in the group,
it finds one, and neither panics (`mapsearch_finds`).

* `table_iff`: a byte is found by the table if and only if one of its blocks has a maximal run;
* `scanc_spec`: a scan stops at the first byte found;
* `siftBits_finds`: a run in a byte is sifted out.
-/

namespace Uwisc.Ufs

open Lib List Nat

variable {fs : Fs} {map : FreeMap} {k : ℕ}

/-- The bit of a size in the table. -/
def sizeMask (fs : Fs) (k : ℕ) : ℕ := 1 <<< (k - 1 + fs.fs_frag % NBBY)

/-- The pattern of a size matches at a position of a block. -/
def Matches (v k pos : ℕ) : Prop := v <<< 1 &&& around.getD k 0 <<< pos = inside.getD k 0 <<< pos

instance (v k pos : ℕ) : Decidable (Matches v k pos) := inferInstanceAs (Decidable (_ = _))

/-- The size is that of a fragment in one of the blocks of a byte. -/
def sifts (frag k v : ℕ) : Bool :=
  (range (NBBY / frag)).any fun j => (range (frag - k + 1)).any fun pos =>
    decide (Matches (v >>> (j * frag) % 2 ^ frag) k pos)

/-- The table is right: the sizes of a byte are those of the fragments in its blocks. -/
theorem fragtbl_all : ∀ frag ∈ [1, 2, 4, 8], (fragtbl frag).length = 256 ∧ ((fragtbl frag).zipIdx.all fun p =>
    (range' 1 frag).all fun k => decide (p.1 &&& 1 <<< (k - 1 + frag % NBBY) ≠ 0) == sifts frag k p.2) = true := by
  decide +kernel

theorem fragtbl_iff {frag v : ℕ} (hfrag : frag ∈ [1, 2, 4, 8]) (hv : v < 256) (hk : 0 < k) (hle : k ≤ frag) :
    (fragtbl frag).getD v 0 &&& 1 <<< (k - 1 + frag % NBBY) ≠ 0 ↔ sifts frag k v = true := by
  obtain ⟨hlen, hall⟩ := fragtbl_all frag hfrag
  have hget : (fragtbl frag)[v]? = some ((fragtbl frag).getD v 0) := by
    rw [getD_eq_getElem?_getD, getElem?_eq_getElem (hlen ▸ hv), Option.getD_some]
  have hmem : ((fragtbl frag).getD v 0, v) ∈ (fragtbl frag).zipIdx := mem_zipIdx_iff_getElem?.2 hget
  have hsize := all_eq_true.1 (all_eq_true.1 hall _ hmem) k (mem_range'_1.2 ⟨hk, by omega⟩)
  rw [beq_iff_eq] at hsize
  rw [← hsize, decide_eq_true_iff]

theorem around_eq : ∀ k < 9, around.getD k 0 = 2 ^ (k + 2) - 1 ∧ inside.getD k 0 = (2 ^ k - 1) <<< 1 := by
  decide

/-- A maximal run matches the pattern of its size. -/
theorem match_of_runAt {n v pos : ℕ} (hv : v < 2 ^ n) (hn : n ≤ 8) (h : RunAt n v.testBit pos k) : Matches v k pos := by
  obtain ⟨hk, hle, hset, hlo, hhi⟩ := h
  obtain ⟨haro, hins⟩ := around_eq k (by omega)
  rw [Matches, haro, hins]
  have hbit (i : ℕ) : v.testBit i = true → i < n := fun hi => by
    by_contra hge
    exact absurd (hi.symm.trans (testBit_lt_two_pow (hv.trans_le (Nat.pow_le_pow_right (by decide) (not_lt.1 hge)))))
      (by decide)
  refine eq_of_testBit_eq fun i => Bool.eq_iff_iff.2 ?_
  simp only [testBit_and, testBit_shiftLeft, testBit_two_pow_sub_one, Bool.and_eq_true, decide_eq_true_iff]
  constructor
  · -- the bits beside the run are clear
    rintro ⟨⟨hi, hvi⟩, hpos, hlt⟩
    have hbef : i ≠ pos := fun heq => by
      subst heq
      rw [hlo hi] at hvi
      cases hvi
    have haft : i ≠ pos + k + 1 := fun heq => by
      have hin := hbit _ hvi
      rw [heq, Nat.add_sub_cancel] at hvi hin
      rw [hhi hin] at hvi
      cases hvi
    omega
  · rintro ⟨hpos, hone, hlt⟩
    exact ⟨⟨by omega, hset (i - 1) (by omega) (by omega)⟩, hpos, by omega⟩

theorem Fs.frag_le (fs : Fs) : fs.fs_frag ≤ 8 := by
  rcases fs.frag_cases with hf | hf | hf | hf <;> omega

/-! ### The blocks of a byte -/

theorem Fs.nbby_eq (fs : Fs) : NBBY / fs.fs_frag * fs.fs_frag = NBBY := by
  rcases fs.frag_cases with hf | hf | hf | hf <;> rw [hf] <;> rfl

/-- The first block of a byte. -/
theorem byte_mul_nbby (fs : Fs) (byte j : ℕ) :
    byte * NBBY + j * fs.fs_frag = (byte * (NBBY / fs.fs_frag) + j) * fs.fs_frag := by
  rw [add_mul, mul_assoc, fs.nbby_eq]

/-- The bits of a block are those of its byte. -/
theorem blk_byte (map : FreeMap) (byte : ℕ) {j i : ℕ} (hj : j < NBBY / fs.fs_frag) (hi : i < fs.fs_frag) :
    blk fs map (byte * (NBBY / fs.fs_frag) + j) i = ((map byte).toNat >>> (j * fs.fs_frag)).testBit i := by
  have hin : j * fs.fs_frag + i < NBBY := by
    have hle : (j + 1) * fs.fs_frag ≤ NBBY / fs.fs_frag * fs.fs_frag := Nat.mul_le_mul_right _ hj
    rw [fs.nbby_eq, add_mul] at hle
    omega
  have hdiv : (byte * NBBY + (j * fs.fs_frag + i)) / NBBY = byte ∧
      (byte * NBBY + (j * fs.fs_frag + i)) % NBBY = j * fs.fs_frag + i := by
    rw [NBBY] at hin ⊢
    omega
  rw [blk, ← byte_mul_nbby, add_assoc, bit, hdiv.1, hdiv.2, testBit_shiftRight, BitVec.getLsbD]

/-- A block of the map is one of the blocks of a byte. -/
theorem exists_byte (fs : Fs) (h : ℕ) : ∃ j < NBBY / fs.fs_frag,
    h = h * fs.fs_frag / NBBY * (NBBY / fs.fs_frag) + j := by
  have hpos : 0 < NBBY / fs.fs_frag := by
    rcases fs.frag_cases with hf | hf | hf | hf <;> rw [hf] <;> decide
  have hdiv : h * fs.fs_frag / NBBY = h / (NBBY / fs.fs_frag) := by
    conv_lhs => rw [← fs.nbby_eq]
    exact Nat.mul_div_mul_right _ _ fs.frag_pos
  refine ⟨h % (NBBY / fs.fs_frag), mod_lt _ hpos, ?_⟩
  rw [hdiv]
  exact (div_add_mod' _ _).symm

/-- A byte is found by the table if and only if one of its blocks has a maximal run. -/
theorem table_iff (map : FreeMap) (byte : ℕ) (hk : 0 < k) (hle : k ≤ fs.fs_frag) :
    (fragtbl fs.fs_frag).getD (map byte).toNat 0 &&& sizeMask fs k ≠ 0 ↔
      ∃ h pos, h * fs.fs_frag / NBBY = byte ∧ RunAt fs.fs_frag (blk fs map h) pos k := by
  have hcongr {j pos : ℕ} (hj : j < NBBY / fs.fs_frag) :
      RunAt fs.fs_frag ((map byte).toNat >>> (j * fs.fs_frag) % 2 ^ fs.fs_frag).testBit pos k ↔
        RunAt fs.fs_frag (blk fs map (byte * (NBBY / fs.fs_frag) + j)) pos k := by
    refine runAt_congr fun i hi => ?_
    rw [blk_byte map byte hj hi, testBit_mod_two_pow, decide_eq_true hi, Bool.true_and]
  have hlt (v : ℕ) : v % 2 ^ fs.fs_frag < 2 ^ fs.fs_frag := mod_lt _ (Nat.two_pow_pos _)
  rw [sizeMask, fragtbl_iff fs.frag_mem (map byte).isLt hk hle, sifts]
  simp only [any_eq_true, mem_range, decide_eq_true_iff]
  constructor
  · rintro ⟨j, hj, pos, hpos, hmch⟩
    refine ⟨byte * (NBBY / fs.fs_frag) + j, pos, ?_, (hcongr hj).1 ?_⟩
    · have hbyte : j * fs.fs_frag < NBBY := by
        have hle : (j + 1) * fs.fs_frag ≤ NBBY / fs.fs_frag * fs.fs_frag := Nat.mul_le_mul_right _ hj
        have hpos := fs.frag_pos
        rw [fs.nbby_eq, add_mul] at hle
        omega
      rw [← byte_mul_nbby, NBBY] at *
      omega
    · exact runAt_of_match _ fs.frag_mem _ (hlt _) k (lt_succ_of_le hle) hk pos hpos hmch
  · rintro ⟨h, pos, rfl, hrun⟩
    obtain ⟨j, hj, heq⟩ := exists_byte fs h
    refine ⟨j, hj, pos, ?_, match_of_runAt (hlt _) fs.frag_le ((hcongr hj).2 (heq ▸ hrun))⟩
    obtain ⟨-, hn, -⟩ := hrun
    omega

/-- A run in a byte is sifted out. -/
theorem siftBits_finds (map : FreeMap) {byte h pos : ℕ} (hbyte : h * fs.fs_frag / NBBY = byte)
    (hrun : RunAt fs.fs_frag (blk fs map h) pos k) : ∃ q, siftBits fs map k (byte * NBBY) = some q := by
  obtain ⟨j, hj, heq⟩ := exists_byte fs h
  rw [hbyte] at heq
  rw [← Option.isSome_iff_exists, siftBits, findSome?_isSome_iff]
  refine ⟨j, mem_range.2 hj, ?_⟩
  rw [Option.isSome_map, find?_isSome]
  have hmem : pos < fs.fs_frag - k + 1 := by
    obtain ⟨hk, hn, -⟩ := hrun
    omega
  refine ⟨pos, mem_range.2 hmem, ?_⟩
  rw [byte_mul_nbby, ← heq]
  have hmch := match_of_runAt (blkmap_lt map h) fs.frag_le ((runAt_congr (testBit_blkmap_congr map h)).2 hrun)
  exact decide_eq_true hmch

/-! ### Scanning -/

/-- A scan stops at a byte that has a bit of the mask, or finds none. -/
theorem scanc_spec (cp : FreeMap) (table : List ℕ) (mask size start : ℕ) :
    (scanc cp table mask size start = 0 ∧ ∀ i < size, table.getD (cp (start + i)).toNat 0 &&& mask = 0) ∨
      ∃ i < size, scanc cp table mask size start = size - i ∧ table.getD (cp (start + i)).toNat 0 &&& mask ≠ 0 := by
  induction size generalizing start with
  | zero => exact .inl ⟨rfl, fun i hi => absurd hi (Nat.not_lt_zero i)⟩
  | succ size ih =>
    rw [scanc]
    split_ifs with h
    · rcases ih (start + 1) with ⟨hzero, hnone⟩ | ⟨i, hi, heq, hfnd⟩
      · refine .inl ⟨hzero, fun i hi => ?_⟩
        cases i with
        | zero => exact h
        | succ i =>
          have hi' := hnone i (lt_of_succ_lt_succ hi)
          rwa [add_right_comm] at hi'
      · refine .inr ⟨i + 1, succ_lt_succ hi, ?_, ?_⟩
        · rw [heq]
          omega
        · rwa [add_right_comm] at hfnd
    · exact .inr ⟨0, succ_pos size, rfl, h⟩

/-- What `mapsearch` does with a byte that the scan has found. -/
theorem found_ok {cgp : Cg} {byte : ℕ} (hbyte : byte < howmany fs.fs_fpg NBBY) (hk : 0 < k) (hle : k ≤ fs.fs_frag)
    (hfnd : (fragtbl fs.fs_frag).getD (cgp.cg_free byte).toNat 0 &&& sizeMask fs k ≠ 0) :
    ∃ cgp' q, (match siftBits fs cgp.cg_free k (byte * NBBY) with
        | some bno' => Except.ok ({ cgp with cg_frotor := byte * NBBY }, bno')
        | none => Except.error Panic.blockNotInMap) = .ok (cgp', q) ∧ Rotor fs cgp'.cg_frotor ∧
      ∃ h pos, q = h * fs.fs_frag + pos ∧ RunAt fs.fs_frag (blk fs cgp.cg_free h) pos k := by
  obtain ⟨h, pos, hdiv, hrun⟩ := (table_iff cgp.cg_free byte hk hle).1 hfnd
  obtain ⟨q, hq⟩ := siftBits_finds cgp.cg_free hdiv hrun
  rw [hq]
  refine ⟨_, q, rfl, ?_, siftBits_spec hk hle hq⟩
  rw [Rotor, NBBY, Nat.mul_div_cancel _ (by decide)]
  exact hbyte

/-- If there is a fragment of a size in the group, `mapsearch` finds one, and the next search can begin
    there. -/
theorem mapsearch_finds {cgp : Cg} {bpref : ℕ} (hrotor : Rotor fs cgp.cg_frotor) (hk : 0 < k) (hle : k ≤ fs.fs_frag)
    (hwithin : ∀ i, fs.fs_fpg ≤ i → bit cgp.cg_free i = false)
    (hrun : ∃ h pos, RunAt fs.fs_frag (blk fs cgp.cg_free h) pos k) :
    ∃ cgp' q, mapsearch fs cgp bpref k = .ok (cgp', q) ∧ Rotor fs cgp'.cg_frotor ∧ q + k ≤ fs.fs_fpg ∧
      ∃ h pos, q = h * fs.fs_frag + pos ∧ RunAt fs.fs_frag (blk fs cgp.cg_free h) pos k := by
  -- a run is of fragments of the group
  have hin : ∀ h pos, RunAt fs.fs_frag (blk fs cgp.cg_free h) pos k → h * fs.fs_frag + pos + k ≤ fs.fs_fpg := by
    intro h pos hrun
    by_contra hlt
    have hlast := hrun.2.2.1 (pos + k - 1) (by omega) (by omega)
    rw [blk, hwithin _ (by omega)] at hlast
    cases hlast
  suffices hsuff : ∃ cgp' q, mapsearch fs cgp bpref k = .ok (cgp', q) ∧ Rotor fs cgp'.cg_frotor ∧
      ∃ h pos, q = h * fs.fs_frag + pos ∧ RunAt fs.fs_frag (blk fs cgp.cg_free h) pos k by
    obtain ⟨cgp', q, hq, hrot, h, pos, rfl, hrun⟩ := hsuff
    exact ⟨cgp', _, hq, hrot, hin h pos hrun, h, pos, rfl, hrun⟩
  obtain ⟨h, pos, hrun⟩ := hrun
  have hbyte : h * fs.fs_frag / NBBY < howmany fs.fs_fpg NBBY := by
    have hle' := hin h pos hrun
    rw [howmany, NBBY]
    omega
  have hhit := (table_iff cgp.cg_free _ hk hle).2 ⟨h, pos, rfl, hrun⟩
  have hst : (if bpref ≠ 0 then dtogd fs bpref else cgp.cg_frotor) / NBBY < howmany fs.fs_fpg NBBY := by
    split_ifs
    · exact rotor_dtogd fs bpref
    · exact hrotor
  rw [mapsearch]
  simp only
  generalize (if bpref ≠ 0 then dtogd fs bpref else cgp.cg_frotor) / NBBY = start at hst ⊢
  rcases scanc_spec cgp.cg_free (fragtbl fs.fs_frag) (sizeMask fs k) (howmany fs.fs_fpg NBBY - start) start with
    ⟨hzero, hnone⟩ | ⟨i, hi, heq, hfnd⟩
  · -- the byte is before the start, or that of the start
    have hbef : h * fs.fs_frag / NBBY < start + 1 := by
      by_contra hlt
      refine hhit ?_
      have hmiss := hnone (h * fs.fs_frag / NBBY - start) (by omega)
      rwa [Nat.add_sub_cancel' (by omega)] at hmiss
    rw [sizeMask] at hzero
    rw [if_neg (by rw [hzero]; exact fun h => h rfl)]
    rcases scanc_spec cgp.cg_free (fragtbl fs.fs_frag) (sizeMask fs k) (start + 1) 0 with
      ⟨hzero', hnone'⟩ | ⟨i, hi, heq, hfnd⟩
    · refine absurd ?_ hhit
      have hmiss := hnone' _ hbef
      rwa [zero_add] at hmiss
    · rw [zero_add] at hfnd
      rw [sizeMask] at heq
      rw [if_neg (by rw [heq]; omega), heq, Nat.sub_sub_self (le_of_lt hi)]
      exact found_ok (by omega) hk hle hfnd
  · rw [sizeMask] at heq
    have hbno : start + (howmany fs.fs_fpg NBBY - start) - (howmany fs.fs_fpg NBBY - start - i) = start + i := by omega
    rw [if_pos (by rw [heq]; omega), heq, hbno]
    exact found_ok (by omega) hk hle hfnd

/-- A group of two blocks of eight fragments. -/
def twoBlocks : Fs where
  fs_size := 16
  fs_ncg := 1
  fs_bsize := 8192
  fs_fsize := 1024
  fs_frag := 8
  fs_nspf := 2
  fs_nsect := 16
  fs_spc := 32
  fs_fpg := 16
  fs_cpc := 0
  fs_postbl _ _ := -1
  fs_rotbl _ := 0
  frag_mem := eight_frags
  fsize_pos := kilo_pos
  bsize_eq := eight_kilo
  fpg_pos := by decide
  frag_dvd := ⟨2, rfl⟩
  size_le := by decide

/-- Two fragments of the first block are free, and the last one used was in the second. -/
def twoFree : Cg where
  cg_cgx := 0
  cg_cs := ⟨0, 2⟩
  cg_rotor := 0
  cg_frotor := 8
  cg_frsum := fun siz => if siz = 2 then 1 else 0
  cg_btot := fun _ => 0
  cg_b := fun _ _ => 0
  cg_magic := CG_MAGIC
  cg_free := fun i => if i = 0 then 6 else 0

/-- They are found, as the scan goes round. -/
theorem mapsearch_finds_twoFree : ∃ cgp' q, mapsearch twoBlocks twoFree 0 2 = .ok (cgp', q) ∧
    Rotor twoBlocks cgp'.cg_frotor ∧ q + 2 ≤ 16 ∧
      ∃ h pos, q = h * 8 + pos ∧ RunAt 8 (blk twoBlocks twoFree.cg_free h) pos 2 := by
  refine mapsearch_finds (show 8 / NBBY < howmany 16 NBBY by decide) (by decide) (by decide)
    (fun i hi => ?_) ⟨0, 1, by decide⟩
  have hne : i / NBBY ≠ 0 := by
    have hle : 16 ≤ i := hi
    rw [NBBY]
    omega
  rw [bit]
  simp [twoFree, hne]

end Uwisc.Ufs
