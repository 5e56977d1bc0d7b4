import Uwisc.Ufs.Inode.Trunc

/-!
# `itrunc` is exact

* `itrunc_spec`: whatever is in the blocks, `itrunc` does not panic, and leaves and releases what it should;
* `itrunc_exact`: with the addresses of the blocks in their place, the fragments that the inode had are
  those it has and those released, each once.
-/

namespace Uwisc.Ufs

open Function Lib List Nat Option

variable {fs : Fs} {ι β : Type}

theorem bsize_pos (fs : Fs) : 0 < fs.fs_bsize := by
  have hfrag : 0 < fs.fs_frag := by
    have := fs.frag_mem
    simp only [mem_cons, not_mem_nil, or_false] at this
    omega
  rw [fs.bsize_eq]
  exact Nat.mul_pos hfrag fs.fsize_pos

theorem fsize_dvd_bsize (fs : Fs) : fs.fs_fsize ∣ fs.fs_bsize := ⟨fs.fs_frag, by rw [fs.bsize_eq, mul_comm]⟩

/-! ### Sizes of blocks -/

theorem fsize_dvd_fragroundup (size : ℕ) : fs.fs_fsize ∣ fragroundup fs size := Nat.dvd_mul_left _ _

theorem le_fragroundup (size : ℕ) : size ≤ fragroundup fs size := by
  have hpos := fs.fsize_pos
  have hlt := lt_div_mul_add hpos (a := size + fs.fs_fsize - 1)
  rw [fragroundup]
  omega

theorem fragroundup_le {size n : ℕ} (hdvd : fs.fs_fsize ∣ n) (h : size ≤ n) : fragroundup fs size ≤ n := by
  obtain ⟨m, rfl⟩ := hdvd
  have hpos := fs.fsize_pos
  rw [fragroundup, mul_comm fs.fs_fsize m]
  refine Nat.mul_le_mul_right _ (Nat.lt_succ_iff.1 (Nat.div_lt_of_lt_mul ?_))
  rw [mul_succ]
  omega

theorem fragroundup_mono {size size' : ℕ} (h : size ≤ size') : fragroundup fs size ≤ fragroundup fs size' :=
  fragroundup_le (fsize_dvd_fragroundup size') (h.trans (le_fragroundup size'))

section Sizes

variable {i length i_size : ℕ}

theorem blksize_whole (h : NDADDR ≤ i ∨ (i + 1) * fs.fs_bsize ≤ i_size) :
    blksize fs i_size i = fs.fs_bsize := if_pos h

theorem fsize_dvd_blksize : fs.fs_fsize ∣ blksize fs i_size i := by
  rw [blksize]
  split_ifs
  · exact fsize_dvd_bsize fs
  · exact fsize_dvd_fragroundup _

theorem blksize_le : blksize fs i_size i ≤ fs.fs_bsize := by
  rw [blksize]
  split_ifs
  · exact le_rfl
  · exact fragroundup_le (fsize_dvd_bsize fs) (mod_lt _ (bsize_pos fs)).le

/-- The last block, of a file that ends in it. -/
theorem blksize_last (hi : i < NDADDR) (h : i * fs.fs_bsize ≤ i_size) (h' : i_size < (i + 1) * fs.fs_bsize) :
    blksize fs i_size i = fragroundup fs (i_size - i * fs.fs_bsize) := by
  rw [blksize, if_neg (not_or.2 ⟨hi.not_ge, h'.not_ge⟩), blkoff]
  congr 1
  obtain ⟨d, rfl⟩ := Nat.exists_eq_add_of_le h
  rw [add_mul, one_mul] at h'
  rw [Nat.add_sub_cancel_left, mul_add_mod_self_right, mod_eq_of_lt (by omega)]

/-- A block has room for what a file has of it. -/
theorem le_blksize (h : i * fs.fs_bsize ≤ i_size) : min i_size ((i + 1) * fs.fs_bsize) - i * fs.fs_bsize ≤
    blksize fs i_size i := by
  by_cases hwhl : NDADDR ≤ i ∨ (i + 1) * fs.fs_bsize ≤ i_size
  · rw [blksize_whole hwhl, add_mul, one_mul]
    omega
  · rw [not_or, not_le, not_le] at hwhl
    rw [blksize_last hwhl.1 h hwhl.2, Nat.min_eq_left hwhl.2.le]
    exact le_fragroundup _

theorem blksize_pos (h : i * fs.fs_bsize < i_size) : 0 < blksize fs i_size i := by
  refine lt_of_lt_of_le ?_ (le_blksize h.le)
  have := bsize_pos fs
  rw [add_mul, one_mul]
  omega

theorem blksize_mono (h : i * fs.fs_bsize < length) (hle : length ≤ i_size) :
    blksize fs length i ≤ blksize fs i_size i := by
  by_cases hwhl : NDADDR ≤ i ∨ (i + 1) * fs.fs_bsize ≤ i_size
  · rw [blksize_whole hwhl]
    exact blksize_le
  · rw [not_or, not_le, not_le] at hwhl
    rw [blksize_last hwhl.1 (h.le.trans hle) hwhl.2, blksize_last hwhl.1 h.le (hle.trans_lt hwhl.2)]
    exact fragroundup_mono (Nat.sub_le_sub_right hle _)

/-- The logical blocks of a file of `length` bytes. -/
def blocksOf (fs : Fs) (length : ℕ) : ℕ := lblkno fs (length + fs.fs_bsize - 1)

theorem lt_blocksOf : i < blocksOf fs length ↔ i * fs.fs_bsize < length := by
  have hpos := bsize_pos fs
  rw [blocksOf, lblkno, ← succ_le_iff, Nat.le_div_iff_mul_le hpos, succ_mul]
  omega

end Sizes

/-! ### `itrunc` -/

namespace Inode

/-- The fragments of a block that are cut off when the file becomes `length` bytes. -/
def tailOf (fs : Fs) (ip : Inode ι β) (length i : ℕ) : List (β × ℕ × ℕ) :=
  if i * fs.fs_bsize < length ∧ blksize fs length i < blksize fs ip.i_size i then
    (ip.i_db i).elim [] fun b =>
      [(b, blksize fs length i, blksize fs ip.i_size i - blksize fs length i)]
  else []

/-- A direct block of which the fragments beyond `length` are cut off. -/
def cutAt (fs : Fs) (cut : β → ℕ → β) (ip : Inode ι β) (length i : ℕ) : Option β :=
  if blksize fs length i < blksize fs ip.i_size i then (ip.i_db i).map (cut · (blksize fs length i))
  else ip.i_db i

theorem truncLast_spec (cut : β → ℕ → β) {length i : ℕ} (h : i * fs.fs_bsize < length) (c : Copies ι β)
    (hsame : c.oip.i_db i = c.ip.i_db i) : ∃ r', r'.Counted ∧ r'.blocks = [] ∧
      r'.frags = tailOf fs c.ip length i ∧
      truncLast fs cut i length c = .ok
        ⟨{ c.oip with i_db := update c.oip.i_db i (cutAt fs cut c.ip length i) },
          { c.ip with i_db := update c.ip.i_db i (cutAt fs cut c.ip length i) },
          c.r.append r'⟩ := by
  -- where the block is left as it is
  have hleft : cutAt fs cut c.ip length i = c.ip.i_db i →
      (⟨{ c.oip with i_db := update c.oip.i_db i (cutAt fs cut c.ip length i) },
        { c.ip with i_db := update c.ip.i_db i (cutAt fs cut c.ip length i) },
        c.r.append .empty⟩ : Copies ι β) = c := by
    intro heq
    rw [heq, update_eq_self, ← hsame, update_eq_self, Released.append_empty]
  rw [truncLast]
  cases hb : c.ip.i_db i with
  | none =>
    refine ⟨.empty, .empty, rfl, ?_, ?_⟩
    · rw [tailOf, hb, elim_none, ite_self]
      rfl
    · rw [hleft]
      rw [cutAt, hb, map_none, ite_self]
  | some b =>
    dsimp only
    rw [if_neg (blksize_pos h).ne']
    by_cases hlt : blksize fs length i < blksize fs c.ip.i_size i
    · refine ⟨_, Released.Counted.empty.freeFrags b (blksize fs length i) (blksize fs c.ip.i_size i), rfl,
        ?_, ?_⟩
      · rw [tailOf, if_pos ⟨h, hlt⟩, hb, elim_some]
        rfl
      · rw [if_pos hlt, cutAt, if_pos hlt, hb, map_some]
        simp only [Released.append, Released.freeFrags, Released.empty, append_nil, nil_append,
          zero_add]
    · refine ⟨.empty, .empty, rfl, ?_, ?_⟩
      · rw [tailOf, if_neg fun h => hlt h.2]
        rfl
      · rw [if_neg hlt, hleft]
        rw [cutAt, if_neg hlt]

/-- What `itrunc` leaves and releases. -/
structure Truncated (fs : Fs) (cut : β → ℕ → β) (ip : Inode ι β) (length : ℕ) (ip' : Inode ι β)
    (r : Released ι β) : Prop where
  size : ip'.i_size = length
  direct : ∀ i < NDADDR, ip'.i_db i = if i * fs.fs_bsize < length then cutAt fs cut ip length i else none
  kept : ∀ level < NIADDR, Kept fs (blocksOf fs length) (ip.i_ib level) (ip'.i_ib level)
  blocks : r.blocks.Perm (freedAt fs ip.i_size ((ip.names fs).filter fun q => blocksOf fs length ≤ q.1))
  frags : r.frags = (range NDADDR).flatMap (tailOf fs ip length)
  counted : r.Counted

theorem paranoia_ok [DecidableEq ι] [DecidableEq β] {c : Copies ι β}
    (htrees : ∀ level < NIADDR, (c.ip.i_ib level).map Prod.fst = (c.oip.i_ib level).map Prod.fst)
    (hdir : ∀ i < NDADDR, c.ip.i_db i = c.oip.i_db i) : paranoia c = .ok (c.oip, c.r) := by
  rw [paranoia, if_neg, if_neg]
  · rintro ⟨i, hi, hne⟩
    exact hne (hdir i hi)
  · rintro ⟨level, hlvl, hne⟩
    exact hne (htrees level hlvl)

/-- A block before the last that is kept has the size of a block. -/
theorem cutAt_before {cut : β → ℕ → β} {ip : Inode ι β} {length i : ℕ}
    (h : (i + 1) * fs.fs_bsize ≤ length) : cutAt fs cut ip length i = ip.i_db i := by
  rw [cutAt, if_neg]
  rw [blksize_whole (Or.inr h)]
  exact blksize_le.not_gt

theorem tailOf_before {ip : Inode ι β} {length i : ℕ} (h : (i + 1) * fs.fs_bsize ≤ length) :
    tailOf fs ip length i = [] := by
  rw [tailOf, if_neg]
  rw [blksize_whole (Or.inr h)]
  exact fun h => blksize_le.not_gt h.2

theorem tailOf_after {ip : Inode ι β} {length i : ℕ} (h : blocksOf fs length ≤ i) :
    tailOf fs ip length i = [] := by
  rw [tailOf, if_neg]
  exact fun hlt => h.not_gt (lt_blocksOf.2 hlt.1)

/-- Only the last block that is kept has fragments that are cut off. -/
theorem tails_eq {ip : Inode ι β} {length i : ℕ} (hi : i < NDADDR) (hk : blocksOf fs length = i + 1) :
    (range NDADDR).flatMap (tailOf fs ip length) = tailOf fs ip length i := by
  have hrng : range NDADDR = range i ++ i :: (range' (i + 1) (NDADDR - (i + 1))) := by
    have hsum : NDADDR = i + (NDADDR - (i + 1) + 1) := by omega
    rw [← range'_succ, range_eq_range', range_eq_range']
    conv_lhs => rw [hsum, ← range'_append_1, zero_add]
  have hbef : (range i).flatMap (tailOf fs ip length) = [] := by
    rw [flatMap_eq_nil_iff]
    intro j hj
    refine tailOf_before (lt_blocksOf.1 ?_).le
    have := mem_range.1 hj
    omega
  have haft : (range' (i + 1) (NDADDR - (i + 1))).flatMap (tailOf fs ip length) = [] := by
    rw [flatMap_eq_nil_iff]
    intro j hj
    refine tailOf_after ?_
    rw [hk]
    exact (mem_range'_1.1 hj).1
  rw [hrng, flatMap_append, flatMap_cons, hbef, haft, append_nil, nil_append]

theorem mem_directNames {ip : Inode ι β} {n : ℕ} {q : ℕ × (ι ⊕ β)}
    (hq : q ∈ (range n).flatMap fun i => directNames (ip.i_db i) i) : q.1 < n := by
  obtain ⟨i, hi, hq⟩ := mem_flatMap.1 hq
  cases hb : ip.i_db i with
  | none =>
    rw [hb] at hq
    exact absurd hq not_mem_nil
  | some b =>
    rw [hb] at hq
    rw [mem_singleton.1 hq]
    exact mem_range.1 hi

theorem blocks_perm {k : ℕ} {ip : Inode ι β} {rt rd : List ((ι ⊕ β) × ℕ)}
    (ht : rt.Perm (freedOf fs ((range NIADDR).flatMap fun level =>
      (treeNames fs (ip.i_ib level)).filter fun q => k ≤ q.1)))
    (hd : rd.Perm (freedAt fs ip.i_size (((range NDADDR).flatMap fun i =>
      directNames (ip.i_db i) i).filter fun q => k ≤ q.1))) (hn : 0 < nindir fs) :
    (rt ++ rd).Perm (freedAt fs ip.i_size ((ip.names fs).filter fun q => k ≤ q.1)) := by
  rw [freedOf_eq ip.i_size] at ht
  · rw [names, filter_append, freedAt, map_append, filter_flatMap (l := range NIADDR)]
    exact perm_append_comm.trans (hd.append ht)
  · intro q hq
    obtain ⟨level, -, hq⟩ := mem_flatMap.1 hq
    exact (firstOf_ge level).trans (treeNames_bounds hn (mem_filter.1 hq).1).1

theorem itrunc_spec [DecidableEq ι] [DecidableEq β] (hn : 0 < nindir fs) (cut : β → ℕ → β)
    (ip : Inode ι β) {length : ℕ} (h : length < ip.i_size) :
    ∃ ip' r, itrunc fs cut ip length = .ok (ip', r) ∧ Truncated fs cut ip length ip' r := by
  obtain ⟨k, hk⟩ : ∃ k, k = blocksOf fs length := ⟨_, rfl⟩
  have hpart : ∀ i, i < k ↔ i * fs.fs_bsize < length := fun i => hk ▸ lt_blocksOf
  have hdone := truncLevels_spec (k := k) (c := ⟨shorten fs ip (k - 1) length, ip, .empty⟩) hn le_rfl
    fun level hlvl => by
      dsimp only [shorten]
      rw [lastiblock_eq hlvl]
      refine if_congr ?_ rfl rfl
      omega
  rw [itrunc, if_neg h.not_ge, ← blocksOf, ← hk]
  obtain ⟨p, hp⟩ : ∃ p, p = truncLevels fs (k - 1) NIADDR ⟨shorten fs ip (k - 1) length, ip, .empty⟩ :=
    ⟨_, rfl⟩
  rw [← hp] at hdone
  dsimp only
  rw [← hp]
  obtain ⟨done, c⟩ := p
  obtain ⟨rt, hrt, hwhl⟩ := hdone.released
  have hip : c.ip.i_db = ip.i_db ∧ c.ip.i_size = ip.i_size := hdone.ip_direct
  have hoip : ∀ i, c.oip.i_db i = if i < NDADDR ∧ (k : ℤ) - 1 < i then none else ip.i_db i :=
    fun i => congrFun hdone.oip_direct.1 i
  have hsize : c.oip.i_size = length := hdone.oip_direct.2
  have hc : c.r = rt := hrt.trans (Released.empty_append rt)
  have htrees := hdone.kept
  have hsame := hdone.same
  by_cases hmany : NDADDR < k
  · -- all direct blocks are kept
    obtain rfl : done = true := hdone.done.trans (decide_eq_true ⟨by decide, hmany⟩)
    have hdir : ∀ i < NDADDR, c.oip.i_db i = ip.i_db i := by
      intro i hi
      rw [hoip, if_neg]
      omega
    have hbef : ∀ i < NDADDR, (i + 1) * fs.fs_bsize ≤ length := fun i hi =>
      ((hpart (i + 1)).1 (by omega)).le
    refine ⟨c.oip, c.r, paranoia_ok hsame fun i hi => ?_, hsize, fun i hi => ?_, fun level hlvl => ?_,
      ?_, ?_, ?_⟩
    · rw [hip.1, hdir i hi]
    · rw [hdir i hi, if_pos ((hpart i).1 (by omega)), cutAt_before (hbef i hi)]
    · rw [← hk]
      exact htrees level hlvl
    · rw [hc, ← append_nil rt.blocks, ← hk]
      refine blocks_perm hwhl.blocks (.of_eq (map_eq_nil_iff.2 (filter_eq_nil_iff.2 ?_)).symm) hn
      intro q hq
      have hlt := (mem_directNames hq).trans hmany
      simpa using hlt
    · rw [hc, hwhl.frags, eq_comm, flatMap_eq_nil_iff]
      exact fun i hi => tailOf_before (hbef i (mem_range.1 hi))
    · rw [hc]
      exact hwhl.counted
  · obtain rfl : done = false := hdone.done.trans (decide_eq_false fun h => hmany h.2)
    obtain ⟨rd, hcou, hfrg, hblo, heq⟩ := truncDirect_spec fs (k - 1) c
    dsimp only
    rw [heq]
    have hdb : (fun i => if i < NDADDR ∧ (k : ℤ) - 1 < i then none else c.ip.i_db i) = c.oip.i_db := by
      funext i
      rw [hoip, hip.1]
    rw [hip.1, hip.2] at hblo
    have haft : rd.blocks.Perm (freedAt fs ip.i_size (((range NDADDR).flatMap fun i =>
        directNames (ip.i_db i) i).filter fun q => k ≤ q.1)) := by
      refine hblo.trans (.of_eq (congrArg _ (filter_congr fun q _ => ?_)))
      rw [decide_eq_decide]
      omega
    by_cases hzero : k = 0
    · rw [if_pos (by omega), hdb]
      refine ⟨c.oip, c.r.append rd, paranoia_ok hsame fun i hi => rfl, hsize, fun i hi => ?_,
        fun level hlvl => ?_, ?_, ?_, ?_⟩
      · rw [hoip, if_pos ⟨hi, by omega⟩, if_neg fun h => absurd ((hpart i).2 h) (by omega)]
      · rw [← hk]
        exact htrees level hlvl
      · rw [hc, ← hk]
        exact blocks_perm hwhl.blocks haft hn
      · rw [hc, Released.append, hwhl.frags, hfrg, eq_comm, append_nil, flatMap_eq_nil_iff]
        exact fun i _ => tailOf_after (by omega)
      · rw [hc]
        exact hwhl.counted.append hcou
    · obtain ⟨i, rfl⟩ := exists_eq_succ_of_ne_zero hzero
      have hi : i < NDADDR := by omega
      have hlast : ((succ i : ℕ) : ℤ) - 1 = i := by omega
      have hkept : c.oip.i_db i = ip.i_db i := by
        rw [hoip, if_neg]
        omega
      obtain ⟨rl, hcou', hblo', hfrg', heq'⟩ := truncLast_spec cut ((hpart i).1 i.lt_succ_self)
        ⟨c.oip, { c.ip with i_db := c.oip.i_db }, c.r.append rd⟩ rfl
      have hcut : cutAt fs cut { c.ip with i_db := c.oip.i_db } length i = cutAt fs cut ip length i := by
        rw [cutAt, cutAt]
        dsimp only
        rw [hkept, hip.2]
      have htail : tailOf fs { c.ip with i_db := c.oip.i_db } length i = tailOf fs ip length i := by
        rw [tailOf, tailOf]
        dsimp only
        rw [hkept, hip.2]
      rw [if_neg (by omega), hdb, hlast, Int.toNat_natCast, heq', hcut]
      rw [htail] at hfrg'
      refine ⟨{ c.oip with i_db := update c.oip.i_db i (cutAt fs cut ip length i) },
        (c.r.append rd).append rl, paranoia_ok hsame fun j hj => rfl, hsize, fun j hj => ?_,
        fun level hlvl => ?_, ?_, ?_, ?_⟩
      · dsimp only
        rcases lt_trichotomy j i with h | rfl | h
        · have hnx := ((hpart (j + 1)).1 (succ_lt_succ h)).le
          rw [update_of_ne h.ne, hoip, if_neg (by omega), cutAt_before hnx,
            if_pos ((hpart j).1 (h.trans i.lt_succ_self))]
        · rw [update_self, if_pos ((hpart j).1 j.lt_succ_self)]
        · rw [update_of_ne h.ne', hoip, if_pos ⟨hj, by omega⟩,
            if_neg fun hlt => absurd ((hpart j).2 hlt) (succ_le_of_lt h).not_gt]
      · rw [← hk]
        exact htrees level hlvl
      · rw [hc, ← hk, Released.append, hblo', append_nil]
        exact blocks_perm hwhl.blocks haft hn
      · rw [hc, Released.append, Released.append, hwhl.frags, hfrg, hfrg', tails_eq hi hk.symm]
        rfl
      · rw [hc]
        exact (hwhl.counted.append hcou).append hcou'

/-! ### Blocks that are kept -/

/-- The tree that the loop of `bmap` finds is that of the block. -/
theorem levelOf_spec {j level bn l i : ℕ} (h : levelOf fs j level (nindir fs ^ level) bn = some (l, i)) :
    l < level + j ∧ firstOf fs level + bn = firstOf fs l + i ∧ i < nindir fs ^ (l + 1) := by
  induction j generalizing level bn with
  | zero => cases h
  | succ j ih =>
    have hpow : nindir fs ^ level * nindir fs = nindir fs ^ (level + 1) := (pow_succ _ _).symm
    rw [levelOf, hpow] at h
    split_ifs at h with hlt
    · cases h
      exact ⟨Nat.lt_add_of_pos_right j.succ_pos, rfl, hlt⟩
    · obtain ⟨hl, heq, hi⟩ := ih h
      refine ⟨by omega, ?_, hi⟩
      rw [← heq, firstOf]
      omega

theorem levelOf_top {bn l i : ℕ} (h : levelOf fs NIADDR 0 1 bn = some (l, i)) :
    l < NIADDR ∧ NDADDR + bn = firstOf fs l + i ∧ i < nindir fs ^ (l + 1) := by
  obtain ⟨hl, heq, hi⟩ := @levelOf_spec fs NIADDR 0 bn l i h
  exact ⟨by rwa [zero_add] at hl, heq, hi⟩

/-- The blocks up to the new end of the file are where they were. -/
theorem Truncated.bmapRead {cut : β → ℕ → β} {ip ip' : Inode ι β} {length : ℕ} {r : Released ι β}
    (h : Truncated fs cut ip length ip' r) (lbn : ℕ) : ip'.bmapRead fs lbn =
      if lbn * fs.fs_bsize < length then
        if lbn < NDADDR then cutAt fs cut ip length lbn else ip.bmapRead fs lbn
      else none := by
  rw [Inode.bmapRead, Inode.bmapRead]
  by_cases hdir : lbn < NDADDR
  · rw [if_pos hdir, if_pos hdir, h.direct lbn hdir]
  · rw [if_neg hdir, if_neg hdir, if_neg hdir]
    cases hlvl : levelOf fs NIADDR 0 1 (lbn - NDADDR) with
    | none => rw [bind_none, bind_none, ite_self]
    | some p =>
      obtain ⟨hl, heq, hi⟩ := levelOf_top hlvl
      rw [Nat.add_sub_cancel' (Nat.le_of_not_lt hdir)] at heq
      rw [bind_some, bind_some, (h.kept p.1 hl).lookup p.2 hi, ← heq]
      exact if_congr lt_blocksOf rfl rfl

theorem Truncated.names {ip ip' : Inode ι β} {length : ℕ} {r : Released ι β}
    (h : Truncated fs (fun b _ => b) ip length ip' r) :
    ip'.names fs = (ip.names fs).filter fun q => q.1 * fs.fs_bsize < length := by
  have hpart : (fun q : ℕ × (ι ⊕ β) => decide (q.1 * fs.fs_bsize < length)) =
      fun q => decide (q.1 < blocksOf fs length) := by
    funext q
    rw [decide_eq_decide, lt_blocksOf]
  rw [Inode.names, Inode.names, filter_append, filter_flatMap, filter_flatMap]
  congr 1
  · refine flatMap_congr fun i hi => ?_
    rw [h.direct i (mem_range.1 hi), cutAt, Option.map_id', ite_self]
    cases hb : ip.i_db i with
    | none => exact congrArg (fun o => directNames o i) (ite_self _)
    | some b =>
      rw [directNames, directNames, elim_some, filter_singleton, cond_eq_ite]
      by_cases hlt : i * fs.fs_bsize < length
      · rw [if_pos hlt, if_pos (decide_eq_true hlt), elim_some]
      · rw [if_neg hlt, if_neg (by simpa using hlt), elim_none]
  · refine flatMap_congr fun level hlvl => ?_
    rw [hpart]
    exact (h.kept level (mem_range.1 hlvl)).names

/-! ### Fragments -/

/-- The fragments of a block. -/
def fragments (fs : Fs) (bno size : ℕ) : List ℕ := range' bno (numfrags fs size)

/-- The fragments of all blocks that an inode names. -/
def space (fs : Fs) (ip : Inode ℕ ℕ) : List ℕ :=
  (ip.names fs).flatMap fun q => fragments fs (q.2.elim id id) (blksize fs ip.i_size q.1)

end Inode

/-- The fragments that were freed. -/
def Released.space (fs : Fs) (r : Released ℕ ℕ) : List ℕ :=
  r.blocks.flatMap (fun p => Inode.fragments fs (p.1.elim id id) p.2) ++
    r.frags.flatMap fun p => Inode.fragments fs (p.1 + numfrags fs p.2.1) p.2.2

namespace Inode

/-- A block is its first fragments and the others. -/
theorem fragments_append (bno : ℕ) {newspace oldspace : ℕ} (hdvd : fs.fs_fsize ∣ newspace)
    (hle : newspace ≤ oldspace) : fragments fs bno oldspace = fragments fs bno newspace ++
      fragments fs (bno + numfrags fs newspace) (oldspace - newspace) := by
  obtain ⟨m, rfl⟩ := hdvd
  have hsum : numfrags fs oldspace = numfrags fs (fs.fs_fsize * m) +
      numfrags fs (oldspace - fs.fs_fsize * m) := by
    rw [numfrags, numfrags, numfrags, Nat.mul_div_cancel_left m fs.fsize_pos, sub_mul_div,
      Nat.add_sub_cancel']
    exact (Nat.le_div_iff_mul_le fs.fsize_pos).2 (by rwa [mul_comm])
  rw [fragments, fragments, fragments, hsum, range'_append_1]

variable {ip ip' : Inode ℕ ℕ} {r : Released ℕ ℕ}

/-- The direct blocks that remain, with the sizes that they had. -/
theorem direct_space {length : ℕ} (hle : length < ip.i_size)
    (h : Truncated fs (fun b _ => b) ip length ip' r) :
    (((range NDADDR).flatMap fun i => directNames (ip'.i_db i) i).flatMap fun q =>
      fragments fs (q.2.elim id id) (blksize fs ip.i_size q.1)).Perm
      (((range NDADDR).flatMap fun i => directNames (ip'.i_db i) i).flatMap (fun q =>
        fragments fs (q.2.elim id id) (blksize fs length q.1)) ++
      r.frags.flatMap fun p => fragments fs (p.1 + numfrags fs p.2.1) p.2.2) := by
  rw [h.frags, flatMap_assoc, flatMap_assoc, flatMap_assoc]
  refine (List.Perm.of_eq (flatMap_congr fun i hi => ?_)).trans
    (flatMap_append_perm _ _ _).symm
  rw [h.direct i (mem_range.1 hi), cutAt, Option.map_id', ite_self, tailOf]
  by_cases hlt : i * fs.fs_bsize < length
  · cases ip.i_db i with
    | none => simp [directNames]
    | some b =>
      have hsize := blksize_mono hlt hle.le
      rw [if_pos hlt]
      rcases hsize.lt_or_eq with hcut | heq
      · rw [if_pos ⟨hlt, hcut⟩]
        simp only [directNames, elim_some, flatMap_singleton]
        exact fragments_append b fsize_dvd_blksize hsize
      · rw [if_neg fun h => heq.not_lt h.2, flatMap_nil, append_nil]
        simp only [directNames, elim_some, flatMap_singleton, heq]
  · rw [if_neg hlt, if_neg fun h => hlt h.1]
    rfl

theorem itrunc_space {length : ℕ} (hle : length < ip.i_size)
    (hn : 0 < nindir fs) (h : Truncated fs (fun b _ => b) ip length ip' r) :
    (ip.space fs).Perm (ip'.space fs ++ r.space fs) := by
  have hpart : ((ip.names fs).filter fun q => !decide (q.1 * fs.fs_bsize < length)) =
      (ip.names fs).filter fun q => blocksOf fs length ≤ q.1 := by
    refine filter_congr fun q _ => ?_
    rw [← decide_not, decide_eq_decide, ← lt_blocksOf, not_lt]
  have hkept := filter_append_perm (fun q => decide (q.1 * fs.fs_bsize < length)) (ip.names fs)
  rw [← h.names, hpart] at hkept
  have hblo := h.blocks.flatMap_right fun p => fragments fs (p.1.elim id id) p.2
  rw [freedAt, flatMap_map] at hblo
  -- the size of a block that a tree names does not depend on that of the file
  have htrees : (((range NIADDR).flatMap fun level => treeNames fs (ip'.i_ib level)).flatMap
      fun q => fragments fs (q.2.elim id id) (blksize fs ip.i_size q.1)) =
      ((range NIADDR).flatMap fun level => treeNames fs (ip'.i_ib level)).flatMap
        fun q => fragments fs (q.2.elim id id) (blksize fs length q.1) := by
    refine flatMap_congr fun q hq => ?_
    obtain ⟨level, -, hq⟩ := mem_flatMap.1 hq
    have hge := (firstOf_ge level).trans (treeNames_bounds hn hq).1
    rw [blksize_whole (Or.inl hge), blksize_whole (Or.inl hge)]
  have hnames : ((ip'.names fs).flatMap fun q =>
      fragments fs (q.2.elim id id) (blksize fs ip.i_size q.1)).Perm
      (ip'.space fs ++ r.frags.flatMap fun p => fragments fs (p.1 + numfrags fs p.2.1) p.2.2) := by
    rw [space, names, flatMap_append, flatMap_append, htrees, h.size, append_assoc]
    refine ((direct_space hle h).append_right _).trans ?_
    rw [append_assoc]
    exact perm_append_comm.append_left _
  refine (hkept.symm.flatMap_right _).trans ?_
  rw [flatMap_append, Released.space]
  refine (hnames.append hblo.symm).trans ?_
  rw [append_assoc]
  exact perm_append_comm.append_left _

/-- What was released is counted in sectors. -/
theorem sectors_eq (hfsize : DEV_BSIZE ∣ fs.fs_fsize) {l : List ℕ} (h : ∀ size ∈ l, fs.fs_fsize ∣ size) :
    (l.map btodb).sum * DEV_BSIZE = (l.map (numfrags fs)).sum * fs.fs_fsize := by
  induction l with
  | nil => simp
  | cons size l ih =>
    obtain ⟨hsize, hl⟩ := forall_mem_cons.1 h
    rw [map_cons, map_cons, sum_cons, sum_cons, add_mul, add_mul, ih hl,
      btodb, numfrags, Nat.div_mul_cancel (hfsize.trans hsize), Nat.div_mul_cancel hsize]

theorem length_space (r : Released ℕ ℕ) : (r.space fs).length =
    ((r.blocks.map Prod.snd ++ r.frags.map fun p => p.2.2).map (numfrags fs)).sum := by
  simp only [Released.space, length_append, length_flatMap, fragments, length_range',
    map_append, List.map_map, List.sum_append, comp_def]

theorem blocksreleased_spec (hfsize : DEV_BSIZE ∣ fs.fs_fsize) {length : ℕ}
    (h : Truncated fs (fun b _ => b) ip length ip' r) :
    r.blocksreleased * DEV_BSIZE = (r.space fs).length * fs.fs_fsize := by
  have hdvd : ∀ size ∈ r.blocks.map Prod.snd ++ r.frags.map fun p => p.2.2, fs.fs_fsize ∣ size := by
    intro size hsize
    rcases mem_append.1 hsize with hsize | hsize
    · obtain ⟨p, hp, rfl⟩ := List.mem_map.1 hsize
      obtain ⟨q, -, rfl⟩ := List.mem_map.1 (h.blocks.mem_iff.1 hp)
      exact fsize_dvd_blksize
    · obtain ⟨p, hp, rfl⟩ := List.mem_map.1 hsize
      rw [h.frags] at hp
      obtain ⟨i, -, hp⟩ := mem_flatMap.1 hp
      rw [tailOf] at hp
      split_ifs at hp with hlt
      · cases hb : ip.i_db i with
        | none =>
          rw [hb] at hp
          exact absurd hp not_mem_nil
        | some b =>
          rw [hb] at hp
          rw [mem_singleton.1 hp]
          exact Nat.dvd_sub fsize_dvd_blksize fsize_dvd_blksize
      · exact absurd hp not_mem_nil
  have hcou : r.blocksreleased =
      ((r.blocks.map Prod.snd ++ r.frags.map fun p => p.2.2).map btodb).sum := by
    have hcou := h.counted
    rw [Released.Counted] at hcou
    rw [hcou, map_append, List.sum_append, List.map_map, List.map_map]
    rfl
  rw [hcou, length_space, sectors_eq hfsize hdvd]

/-- `itrunc` does not panic. It leaves the logical blocks before the new end of the file as they are,
    with the indirect blocks that are for one of them; it frees all others once, with the fragments of
    the last block that the file no longer needs; and counts what it frees. -/
theorem itrunc_exact (hn : 0 < nindir fs) (hfsize : DEV_BSIZE ∣ fs.fs_fsize) (ip : Inode ℕ ℕ)
    {length : ℕ} (h : length < ip.i_size) :
    ∃ ip' r, itrunc fs (fun b _ => b) ip length = .ok (ip', r) ∧ ip'.i_size = length ∧
      (∀ lbn, ip'.bmapRead fs lbn =
        if lbn * fs.fs_bsize < length then ip.bmapRead fs lbn else none) ∧
      ip'.names fs = (ip.names fs).filter (fun q => q.1 * fs.fs_bsize < length) ∧
      r.blocks.Perm (((ip.names fs).filter fun q => length ≤ q.1 * fs.fs_bsize).map
        fun q => (q.2, blksize fs ip.i_size q.1)) ∧
      r.frags = (range NDADDR).flatMap (tailOf fs ip length) ∧
      (ip.space fs).Perm (ip'.space fs ++ r.space fs) ∧
      ((ip.space fs).Nodup → (r.space fs).Nodup ∧ (ip'.space fs).Disjoint (r.space fs)) ∧
      r.blocksreleased * DEV_BSIZE = (r.space fs).length * fs.fs_fsize := by
  obtain ⟨ip', r, heq, htrunc⟩ := itrunc_spec hn (fun b _ => b) ip h
  have hspc := itrunc_space h hn htrunc
  refine ⟨ip', r, heq, htrunc.size, fun lbn => ?_, htrunc.names, ?_, htrunc.frags, hspc, fun hnd => ?_,
    blocksreleased_spec hfsize htrunc⟩
  · rw [htrunc.bmapRead]
    refine if_congr Iff.rfl ?_ rfl
    split_ifs with hdir
    · rw [cutAt, Option.map_id', ite_self, Inode.bmapRead, if_pos hdir]
    · rfl
  · have hpart : ((ip.names fs).filter fun q => length ≤ q.1 * fs.fs_bsize) =
        (ip.names fs).filter fun q => blocksOf fs length ≤ q.1 := by
      refine filter_congr fun q _ => ?_
      rw [decide_eq_decide, ← not_lt, ← not_lt, lt_blocksOf]
    rw [hpart]
    exact htrunc.blocks
  · obtain ⟨-, hrel, hdis⟩ := nodup_append'.1 (hspc.nodup_iff.1 hnd)
    exact ⟨hrel, hdis⟩

/-- A file system with blocks of the smallest size. -/
def smallBlocks : Fs where
  fs_size := 1024
  fs_ncg := 1
  fs_bsize := 4096
  fs_fsize := 1024
  fs_frag := 4
  fs_nspf := 2
  fs_nsect := 16
  fs_spc := 16
  fs_fpg := 1024
  fs_cpc := 0
  fs_postbl _ _ := -1
  fs_rotbl _ := 0
  frag_mem := by decide
  fsize_pos := kilo_pos
  bsize_eq := rfl
  fpg_pos := by decide
  frag_dvd := ⟨256, rfl⟩
  size_le := by decide

/-- A file of 14 blocks, most of which are holes. -/
def holes : Inode ℕ ℕ where
  i_size := 57344
  i_db i := if i = 0 then some 8 else if i = 5 then some 16 else none
  i_ib level := match level with
    | 0 => some (24, fun i => if i = 1 then some 32 else none)
    | _ => none

theorem itrunc_exact_holes : ∃ ip' r, itrunc smallBlocks (fun b _ => b) holes 1500 = .ok (ip', r) ∧
    (r.space smallBlocks).Nodup ∧ (ip'.space smallBlocks).Disjoint (r.space smallBlocks) := by
  obtain ⟨ip', r, heq, -, -, -, -, -, -, hnd, -⟩ :=
    @itrunc_exact smallBlocks (by decide) ⟨2, rfl⟩ holes 1500 (by decide)
  exact ⟨ip', r, heq, hnd (by decide +kernel)⟩

end Inode

end Uwisc.Ufs
