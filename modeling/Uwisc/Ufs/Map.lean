import Uwisc.Lib.Runs
import Uwisc.Ufs.Alloc

/-!
# What the operations on maps do

A map stands for the bits it holds (`bit`), and a block of it for `fs_frag` of
them (`blk`). Setting and clearing bits and blocks, and the patterns and tables used
to recognize fragments, are described by these:

* `siftBits_spec`: the fragment found is a maximal run of its size;
* `fragacct_spec`: the counts change by the numbers of maximal runs of the block.
-/

namespace Uwisc.Ufs

open BitVec Except Function Lib List Nat

/-- A bit of the map. -/
def bit (map : FreeMap) (i : ℕ) : Bool := (map (i / NBBY)).getLsbD (i % NBBY)

/-- The bits of a block. -/
def blk (fs : Fs) (map : FreeMap) (h i : ℕ) : Bool := bit map (h * fs.fs_frag + i)

/-- All fragments of a block are free. -/
def Full (fs : Fs) (b : ℕ → Bool) : Prop := ∀ i < fs.fs_frag, b i = true

instance (fs : Fs) (b : ℕ → Bool) : Decidable (Full fs b) := inferInstanceAs (Decidable (∀ i < _, _))

variable {fs : Fs} {map : FreeMap}

theorem Fs.frag_cases (fs : Fs) : fs.fs_frag = 1 ∨ fs.fs_frag = 2 ∨ fs.fs_frag = 4 ∨ fs.fs_frag = 8 := by
  simpa using fs.frag_mem

theorem Fs.frag_pos (fs : Fs) : 0 < fs.fs_frag := by
  rcases fs.frag_cases with h | h | h | h <;> omega

/-! ### Bits -/

variable {i bno k byte q bpref : ℕ} {cgp cgp' : Cg}

theorem getLsbD_one_shiftLeft {j : ℕ} (hj : j < 8) : (1#8 <<< i).getLsbD j = decide (j = i) := by
  rw [getLsbD_shiftLeft, getLsbD_one]
  by_cases h : j = i <;> simp [h, hj] <;> omega

theorem bit_setbit (i j : ℕ) : bit (setbit map i) j = (bit map j || decide (j = i)) := by
  have hj : j % 8 < 8 := mod_lt _ (by decide)
  rw [bit, setbit, NBBY]
  by_cases h : j / 8 = i / 8
  · rw [h, update_self, getLsbD_or, getLsbD_one_shiftLeft hj, bit, NBBY, h]
    by_cases h' : j = i
    · simp [h']
    · have : j % 8 ≠ i % 8 := by omega
      simp [h', this]
  · have : j ≠ i := fun h' => h (by rw [h'])
    rw [update_of_ne h, bit, NBBY]
    simp [this]

theorem bit_clrbit (i j : ℕ) : bit (clrbit map i) j = (bit map j && !decide (j = i)) := by
  have hj : j % 8 < 8 := mod_lt _ (by decide)
  rw [bit, clrbit, NBBY]
  by_cases h : j / 8 = i / 8
  · rw [h, update_self, getLsbD_and, getLsbD_not, getLsbD_one_shiftLeft hj, bit, NBBY, h]
    by_cases h' : j = i
    · simp [h']
    · have : j % 8 ≠ i % 8 := by omega
      simp [h', this, hj]
  · have : j ≠ i := fun h' => h (by rw [h'])
    rw [update_of_ne h, bit, NBBY]
    simp [this]

theorem isclr_eq (map : FreeMap) (i : ℕ) : isclr map i = !bit map i := by
  have hi : i % 8 < 8 := mod_lt _ (by decide)
  rw [isclr, bit, NBBY]
  cases hb : (map (i / 8)).getLsbD (i % 8)
  · have : map (i / 8) &&& 1#8 <<< (i % 8) = 0 := eq_of_getLsbD_eq fun j hj => by
      rw [getLsbD_and, getLsbD_one_shiftLeft hj]
      by_cases h : j = i % 8 <;> simp [h, hb]
    simpa using this
  · have : map (i / 8) &&& 1#8 <<< (i % 8) ≠ 0 := fun h => by
      have := congrArg (getLsbD · (i % 8)) h
      simp only [getLsbD_and, getLsbD_one_shiftLeft hi, hb] at this
      simp at this
    simpa using this

theorem isset_eq (map : FreeMap) (i : ℕ) : isset map i = bit map i := by
  have h : isset map i = !isclr map i := by simp [isset, isclr]
  rw [h, isclr_eq, Bool.not_not]

theorem bit_foldl_setbit (lo n j : ℕ) (map : FreeMap) :
    bit ((range' lo n).foldl setbit map) j = (bit map j || decide (lo ≤ j ∧ j < lo + n)) := by
  induction n generalizing lo map with
  | zero =>
    have : ¬(lo ≤ j ∧ j < lo + 0) := by omega
    rw [decide_eq_false this]
    simp
  | succ n ih =>
    rw [range'_succ, foldl_cons, ih, bit_setbit, Bool.or_assoc]
    congr 1
    rw [← Bool.decide_or, decide_eq_decide]
    omega

theorem bit_foldl_clrbit (lo n j : ℕ) (map : FreeMap) :
    bit ((range' lo n).foldl clrbit map) j = (bit map j && !decide (lo ≤ j ∧ j < lo + n)) := by
  induction n generalizing lo map with
  | zero =>
    have : ¬(lo ≤ j ∧ j < lo + 0) := by omega
    rw [decide_eq_false this]
    simp
  | succ n ih =>
    rw [range'_succ, foldl_cons, ih, bit_clrbit, Bool.and_assoc, ← Bool.not_or]
    congr 2
    rw [← Bool.decide_or, decide_eq_decide]
    omega

/-- Fragments that are all allocated are freed. -/
theorem freeFrags_spec {n : ℕ} (h : ∀ i, bno ≤ i → i < bno + n → bit map i = false) :
    freeFrags map bno n = .ok ((range' bno n).foldl setbit map) := by
  induction n generalizing bno map with
  | zero => rfl
  | succ n ih =>
    rw [freeFrags, isset_eq, h bno le_rfl (by omega), if_neg (by simp), ih, range'_succ, foldl_cons]
    intro i hlo hhi
    rw [bit_setbit, h i (by omega) (by omega)]
    simpa using (by omega : i ≠ bno)

/-! ### Blocks -/

theorem blk_eq (map : FreeMap) (h : ℕ) (hi : i < fs.fs_frag) :
    blk fs map h i = (map (h * fs.fs_frag / NBBY)).getLsbD (h * fs.fs_frag % NBBY + i) := by
  have hdiv : (h * fs.fs_frag + i) / 8 = h * fs.fs_frag / 8 ∧
      (h * fs.fs_frag + i) % 8 = h * fs.fs_frag % 8 + i := by
    rcases fs.frag_cases with hf | hf | hf | hf <;> rw [hf] at hi ⊢ <;> omega
  rw [blk, bit, NBBY, hdiv.1, hdiv.2]

theorem testBit_blkmap (map : FreeMap) (h i : ℕ) :
    (blkmap fs map (h * fs.fs_frag)).testBit i = (decide (i < fs.fs_frag) && blk fs map h i) := by
  have hmask : ∀ i < 8, (0xff#8).getLsbD i = true := by decide
  have hf : fs.fs_frag ≤ 8 := by
    rcases fs.frag_cases with hf | hf | hf | hf <;> omega
  rw [blkmap, testBit_toNat, getLsbD_and, getLsbD_ushiftRight, getLsbD_ushiftRight]
  by_cases hi : i < fs.fs_frag
  · rw [blk_eq map h hi, hmask (NBBY - fs.fs_frag + i) (by rw [NBBY]; omega)]
    simp [hi]
  · rw [getLsbD_of_ge (0xff#8) _ (by rw [NBBY]; omega)]
    simp [hi]

theorem blkmap_lt (map : FreeMap) (h : ℕ) : blkmap fs map (h * fs.fs_frag) < 2 ^ fs.fs_frag :=
  lt_pow_two_of_testBit _ fun i hi => by
    rw [testBit_blkmap]
    simpa using fun h' => absurd h' (not_lt.2 hi)

/-- The operations on a block are those on the bits of a mask. -/
theorem block_ops (fs : Fs) (map : FreeMap) (h : ℕ) : ∃ m : BitVec 8,
    (∀ j < 8, m.getLsbD j = decide (h * fs.fs_frag % 8 ≤ j ∧ j < h * fs.fs_frag % 8 + fs.fs_frag)) ∧
    isblock fs map h = decide (map (h * fs.fs_frag / 8) &&& m = m) ∧
    clrblock fs map h = update map (h * fs.fs_frag / 8) (map (h * fs.fs_frag / 8) &&& ~~~m) ∧
    setblock fs map h = update map (h * fs.fs_frag / 8) (map (h * fs.fs_frag / 8) ||| m) := by
  unfold isblock clrblock setblock
  rcases fs.frag_cases with hf | hf | hf | hf
  · have hmask : ∀ k < 8, ∀ j < 8, (0x01#8 <<< k).getLsbD j = decide (k ≤ j ∧ j < k + 1) := by decide
    have hlt : h * 1 % 8 < 8 := by omega
    simp only [hf]
    refine ⟨0x01#8 <<< (h % 8), fun j hj => ?_, ?_, ?_, ?_⟩
    · rw [mul_one] at *
      exact hmask _ hlt j hj
    all_goals rw [mul_one]
  · have hmask : ∀ k < 4, ∀ j < 8, (0x03#8 <<< (k * 2)).getLsbD j = decide (k * 2 ≤ j ∧ j < k * 2 + 2) := by
      decide
    have hdiv : h * 2 / 8 = h / 4 ∧ h * 2 % 8 = h % 4 * 2 := by omega
    simp only [hf, hdiv.1, hdiv.2]
    exact ⟨_, hmask _ (mod_lt _ (by decide)), rfl, rfl, rfl⟩
  · have hmask : ∀ k < 2, ∀ j < 8, (0x0f#8 <<< (k * 4)).getLsbD j = decide (k * 4 ≤ j ∧ j < k * 4 + 4) := by
      decide
    have hdiv : h * 4 / 8 = h / 2 ∧ h * 4 % 8 = h % 2 * 4 := by omega
    simp only [hf, hdiv.1, hdiv.2]
    exact ⟨_, hmask _ (mod_lt _ (by decide)), rfl, rfl, rfl⟩
  · have hmask : ∀ j < 8, (0xff#8).getLsbD j = decide (0 ≤ j ∧ j < 0 + 8) := by decide
    have hdiv : h * 8 / 8 = h ∧ h * 8 % 8 = 0 := by omega
    simp only [hf, hdiv.1, hdiv.2]
    refine ⟨0xff#8, hmask, ?_, ?_, ?_⟩
    · rw [show (0xff#8) = allOnes 8 from rfl, and_allOnes]
      rfl
    · rw [show ~~~(0xff#8) = 0#8 from rfl, BitVec.and_zero]
      rfl
    · rw [show (0xff#8) = allOnes 8 from rfl, or_allOnes]
      rfl

theorem Fs.frag_bounds (fs : Fs) (h : ℕ) : h * fs.fs_frag % 8 + fs.fs_frag ≤ 8 := by
  rcases fs.frag_cases with hf | hf | hf | hf <;> rw [hf] <;> omega

theorem isblock_iff (map : FreeMap) (h : ℕ) : isblock fs map h ↔ Full fs (blk fs map h) := by
  obtain ⟨m, hm, hblk, -, -⟩ := block_ops fs map h
  have hbnd := fs.frag_bounds h
  rw [hblk, decide_eq_true_iff]
  constructor
  · intro heq i hi
    have hbit := congrArg (getLsbD · (h * fs.fs_frag % 8 + i)) heq
    simp only [getLsbD_and, hm (h * fs.fs_frag % 8 + i) (by omega)] at hbit
    rw [blk_eq map h hi, NBBY]
    simpa [hi] using hbit
  · intro hfull
    refine eq_of_getLsbD_eq fun j hj => ?_
    rw [getLsbD_and, hm j hj]
    by_cases hin : h * fs.fs_frag % 8 ≤ j ∧ j < h * fs.fs_frag % 8 + fs.fs_frag
    · have hbit := hfull (j - h * fs.fs_frag % 8) (by omega)
      rw [blk_eq map h (by omega), NBBY, Nat.add_sub_cancel' hin.1] at hbit
      rw [hbit, Bool.true_and]
    · rw [decide_eq_false hin, Bool.and_false]

/-- The bits of a block are those of its byte that the mask has. -/
theorem div_frag_eq_iff (fs : Fs) (h i : ℕ) : i / fs.fs_frag = h ↔ i / 8 = h * fs.fs_frag / 8 ∧
    h * fs.fs_frag % 8 ≤ i % 8 ∧ i % 8 < h * fs.fs_frag % 8 + fs.fs_frag := by
  rcases fs.frag_cases with hf | hf | hf | hf <;> rw [hf] <;> omega

theorem bit_clrblock (map : FreeMap) (h i : ℕ) :
    bit (clrblock fs map h) i = (bit map i && !decide (i / fs.fs_frag = h)) := by
  obtain ⟨m, hm, -, hclr, -⟩ := block_ops fs map h
  have hi : i % 8 < 8 := mod_lt _ (by decide)
  rw [bit, hclr, NBBY]
  by_cases hbyte : i / 8 = h * fs.fs_frag / 8
  · rw [hbyte, update_self, getLsbD_and, getLsbD_not, hm _ hi, bit, NBBY, hbyte]
    simp [div_frag_eq_iff, hbyte, hi]
  · rw [update_of_ne hbyte, bit, NBBY]
    simp [div_frag_eq_iff, hbyte]

theorem bit_setblock (map : FreeMap) (h i : ℕ) :
    bit (setblock fs map h) i = (bit map i || decide (i / fs.fs_frag = h)) := by
  obtain ⟨m, hm, -, -, hset⟩ := block_ops fs map h
  have hi : i % 8 < 8 := mod_lt _ (by decide)
  rw [bit, hset, NBBY]
  by_cases hbyte : i / 8 = h * fs.fs_frag / 8
  · rw [hbyte, update_self, getLsbD_or, hm _ hi, bit, NBBY, hbyte]
    simp [div_frag_eq_iff, hbyte]
  · rw [update_of_ne hbyte, bit, NBBY]
    simp [div_frag_eq_iff, hbyte]

/-! ### Patterns -/

/-- Where the pattern of a fragment matches there is a maximal run. -/
theorem runAt_of_match : ∀ frag ∈ [1, 2, 4, 8], ∀ v < 2 ^ frag, ∀ k < frag + 1, 0 < k → ∀ pos < frag - k + 1,
    v <<< 1 &&& around.getD k 0 <<< pos = inside.getD k 0 <<< pos → RunAt frag v.testBit pos k := by
  decide +kernel

/-- The runs counted by the patterns, where the table says there are some, are all there are. -/
theorem countFrags_eq : ∀ frag ∈ [1, 2, 4, 8], ∀ v < 2 ^ frag, ∀ k < frag, 0 < k →
    (if (fragtbl frag).getD v 0 <<< 1 &&& 1 <<< (k + frag % NBBY) = 0 then 0
    else countFrags frag (v <<< 1) k frag k (around.getD k 0) (inside.getD k 0)) =
      runs frag v.testBit k := by
  decide +kernel

theorem testBit_blkmap_congr (map : FreeMap) (h : ℕ) :
    ∀ i < fs.fs_frag, (blkmap fs map (h * fs.fs_frag)).testBit i = blk fs map h i := fun i hi => by
  rw [testBit_blkmap, decide_eq_true hi, Bool.true_and]

/-- Adding to different entries one after the other. -/
theorem foldl_update (c : ℕ → Prop) [DecidablePred c] (g : ℕ → ℤ) {l : List ℕ} (hl : l.Nodup)
    (f : ℕ → ℤ) (k : ℕ) :
    l.foldl (fun f a => if c a then f else update f a (f a + g a)) f k =
      f k + if k ∈ l ∧ ¬c k then g k else 0 := by
  induction l generalizing f with
  | nil => simp
  | cons a l ih =>
    obtain ⟨ha, hl⟩ := nodup_cons.1 hl
    rw [foldl_cons, ih hl]
    by_cases hk : k = a
    · subst hk
      by_cases hc : c k <;> simp [hc, ha]
    · by_cases hc : c a <;> simp [hc, hk]

/-- The counts change by the runs of the block, `cnt` times. -/
theorem fragacct_spec (map : FreeMap) (h : ℕ) (fraglist : ℕ → ℤ) (cnt : ℤ) (hk : 0 < k)
    (hlt : k < fs.fs_frag) : fragacct fs (blkmap fs map (h * fs.fs_frag)) fraglist cnt k =
      fraglist k + cnt * runs fs.fs_frag (blk fs map h) k := by
  have hmem : k ∈ range' 1 (fs.fs_frag - 1) := mem_range'_1.2 ⟨hk, by omega⟩
  have hcnt := countFrags_eq _ fs.frag_mem _ (blkmap_lt map h) k hlt hk
  rw [runs_congr (testBit_blkmap_congr map h)] at hcnt
  rw [fragacct, foldl_update _ _ nodup_range', ← hcnt]
  split_ifs with h1 h2 <;> simp_all

/-! ### What the searches find -/

/-- The fragment found in a byte is a maximal run. -/
theorem siftBits_spec (hk : 0 < k) (hle : k ≤ fs.fs_frag)
    (hq : siftBits fs map k (byte * NBBY) = some q) :
    ∃ h pos, q = h * fs.fs_frag + pos ∧ RunAt fs.fs_frag (blk fs map h) pos k := by
  obtain ⟨j, -, hj⟩ := exists_of_findSome?_eq_some hq
  obtain ⟨pos, hpos, rfl⟩ := Option.map_eq_some_iff.1 hj
  have hmem := mem_range.1 (mem_of_find?_eq_some hpos)
  have hmch := find?_some hpos
  obtain ⟨m, hm⟩ : fs.fs_frag ∣ byte * NBBY := by
    rw [NBBY]
    rcases fs.frag_cases with hf | hf | hf | hf <;> rw [hf] <;> omega
  have hbno : byte * NBBY + j * fs.fs_frag = (m + j) * fs.fs_frag := by
    rw [hm, Nat.add_mul, Nat.mul_comm]
  rw [hbno] at hmch ⊢
  exact ⟨m + j, pos, rfl, (runAt_congr (testBit_blkmap_congr map (m + j))).1
    (runAt_of_match _ fs.frag_mem _ (blkmap_lt map _) k (by omega) hk pos hmem (by simpa using hmch))⟩

theorem scanc_le (cp : FreeMap) (table : List ℕ) (mask size start : ℕ) :
    scanc cp table mask size start ≤ size := by
  induction size generalizing start with
  | zero => exact le_rfl
  | succ size ih =>
    rw [scanc]
    split_ifs
    · exact (ih (start + 1)).trans (le_succ size)
    · exact le_rfl

/-- The position of the last fragment used is within the map. -/
def Rotor (fs : Fs) (frotor : ℕ) : Prop := frotor / NBBY < howmany fs.fs_fpg NBBY

theorem rotor_dtogd (fs : Fs) (d : ℕ) : Rotor fs (dtogd fs d) := by
  have := mod_lt d fs.fpg_pos
  rw [Rotor, dtogd, NBBY, howmany]
  omega

/-- In a byte that fits, a maximal run is found. -/
theorem siftBits_found (hk : 0 < k) (hle : k ≤ fs.fs_frag) (hbyte : byte < howmany fs.fs_fpg NBBY)
    (h : (match siftBits fs cgp.cg_free k (byte * NBBY) with
      | some bno' => ok ({ cgp with cg_frotor := byte * NBBY }, bno')
      | none => error Panic.blockNotInMap) = .ok (cgp', q)) :
    (∃ bno, Rotor fs bno ∧ cgp' = { cgp with cg_frotor := bno }) ∧
      ∃ h pos, q = h * fs.fs_frag + pos ∧ RunAt fs.fs_frag (blk fs cgp.cg_free h) pos k := by
  split at h
  · rename_i bno' hsift
    cases h
    refine ⟨⟨_, ?_, rfl⟩, siftBits_spec hk hle hsift⟩
    rw [Rotor, NBBY, Nat.mul_div_cancel _ (by decide)]
    exact hbyte
  · cases h

/-- The fragment found is a maximal run, and only the position of the last one changes. -/
theorem mapsearch_spec (hrotor : Rotor fs cgp.cg_frotor) (hk : 0 < k)
    (hle : k ≤ fs.fs_frag) (hq : mapsearch fs cgp bpref k = .ok (cgp', q)) :
    (∃ bno, Rotor fs bno ∧ cgp' = { cgp with cg_frotor := bno }) ∧
      ∃ h pos, q = h * fs.fs_frag + pos ∧ RunAt fs.fs_frag (blk fs cgp.cg_free h) pos k := by
  have hst : (if bpref ≠ 0 then dtogd fs bpref else cgp.cg_frotor) / NBBY < howmany fs.fs_fpg NBBY := by
    split_ifs
    · exact rotor_dtogd fs bpref
    · exact hrotor
  rw [mapsearch] at hq
  simp only at hq
  generalize (if bpref ≠ 0 then dtogd fs bpref else cgp.cg_frotor) / NBBY = start at hq hst
  split_ifs at hq with hloc hloc'
  · have := scanc_le cgp.cg_free (fragtbl fs.fs_frag) (1 <<< (k - 1 + fs.fs_frag % NBBY))
      (howmany fs.fs_fpg NBBY - start) start
    exact siftBits_found hk hle (by omega) hq
  · have := scanc_le cgp.cg_free (fragtbl fs.fs_frag) (1 <<< (k - 1 + fs.fs_frag % NBBY)) (start + 1) 0
    exact siftBits_found hk hle (by omega) hq

/-- A run of as many fragments as there are is the whole block. -/
theorem full_of_runAt {b : ℕ → Bool} {pos : ℕ} (h : RunAt fs.fs_frag b pos fs.fs_frag) :
    pos = 0 ∧ Full fs b := by
  obtain ⟨-, hn, hset, -⟩ := h
  obtain rfl : pos = 0 := by omega
  exact ⟨rfl, fun i hi => hset i (Nat.zero_le i) (by omega)⟩

theorem rotblk_spec (hq : rotblk fs map bno i = some q) :
    ∃ h, q = h * fs.fs_frag ∧ Full fs (blk fs map h) := by
  induction i using rotblk.induct fs map bno with
  | case1 i hblk =>
    rw [rotblk, if_pos hblk] at hq
    exact ⟨_, (Option.some.inj hq).symm, (isblock_iff map _).1 hblk⟩
  | case2 i hblk delta hdelta =>
    rw [rotblk, if_neg hblk, if_pos hdelta] at hq
    cases hq
  | case3 i hblk delta hdelta ih =>
    rw [rotblk, if_neg hblk, if_neg hdelta] at hq
    exact ih hq

/-- The block chosen is free, and only the positions of the last ones used change. -/
structure Chosen (fs : Fs) (cgp cgp' : Cg) (bno : ℕ) : Prop where
  cgp_eq : ∃ rotor frotor, Rotor fs frotor ∧
    cgp' = { cgp with cg_rotor := rotor, cg_frotor := frotor }
  full : ∃ h, bno = h * fs.fs_frag ∧ Full fs (blk fs cgp.cg_free h)

theorem norot_spec (hrotor : Rotor fs cgp.cg_frotor)
    (h : norot fs cgp bpref = .ok (cgp', bno)) : Chosen fs cgp cgp' bno := by
  cases hsea : mapsearch fs cgp bpref fs.fs_frag with
  | error e => simp [norot, hsea, bind, Except.bind] at h
  | ok r =>
    obtain ⟨⟨frotor, hfro, hr⟩, b, pos, hpos, hrun⟩ := mapsearch_spec hrotor fs.frag_pos le_rfl hsea
    obtain ⟨rfl, hfull⟩ := full_of_runAt hrun
    simp only [norot, hsea, bind, Except.bind] at h
    cases h
    exact ⟨⟨_, _, hfro, by rw [hr]⟩, b, hpos, hfull⟩

theorem choose_spec (hrotor : Rotor fs cgp.cg_frotor)
    (h : choose fs cgp bpref = .ok (cgp', bno)) : Chosen fs cgp cgp' bno := by
  have hsame : ∀ {q}, (∃ h, q = h * fs.fs_frag ∧ Full fs (blk fs cgp.cg_free h)) →
      (.ok (cgp, q) : Except Panic _) = .ok (cgp', bno) → Chosen fs cgp cgp' bno := fun hq h => by
    cases h
    exact ⟨⟨_, _, hrotor, rfl⟩, hq⟩
  simp only [choose] at h
  split_ifs at h with _ hblk _ _ _ hcor
  · exact norot_spec hrotor h
  · refine hsame ⟨_, ?_, (isblock_iff _ _).1 hblk⟩ h
    have hdvd : fs.fs_frag ∣ dtogd fs (blknum fs bpref) :=
      (dvd_mod_iff fs.frag_dvd).2 (Nat.dvd_mul_left _ _)
    rw [fragstoblks, Nat.div_mul_cancel hdvd]
  · exact norot_spec hrotor h
  · exact norot_spec hrotor h
  · split at h
    · rename_i q hq
      exact hsame (rotblk_spec hq) h
    · cases h
  · exact norot_spec hrotor h

end Uwisc.Ufs
