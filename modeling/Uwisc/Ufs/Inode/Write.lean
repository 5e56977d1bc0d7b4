import Uwisc.Ufs.Inode.Exact
import Uwisc.Ufs.Inode.File

/-!
# Writing in a file

The bytes of a file are those of its blocks (`raw`), also beyond its end. A block has the fragments that
the size of the file calls for (`Shape`), and is not beyond its end. A write stores the bytes that are
copied (`rwipWrite_spec`), if the last block is not a hole that it would extend (`HoleOk`), and if a piece
that is copied in part neither extends the file nor is written without being read (`Whole`).
-/

namespace Uwisc.Ufs.File

open Lib List

variable {fs : Fs}

/-! ### Blocks -/

theorem levelOf_isSome (hbsz : MINBSIZE ≤ fs.fs_bsize) {bn : ℕ} (h : bn * fs.fs_bsize < 2 ^ 31) :
    ∃ level i, levelOf fs NIADDR 0 1 (bn - NDADDR) = some (level, i) := by
  have hlev : ∀ i, i < nindir fs * nindir fs →
      ∃ level j, levelOf fs NIADDR 0 1 i = some (level, j) := by
    intro i hi
    rw [NIADDR, levelOf, one_mul]
    by_cases hfst : i < nindir fs
    · exact ⟨0, i, if_pos hfst⟩
    · exact ⟨1, i - nindir fs, by rw [if_neg hfst, levelOf, if_pos ((Nat.sub_le _ _).trans_lt hi)]⟩
  have hn : 1024 ≤ nindir fs := (Nat.le_div_iff_mul_le (by decide)).2 hbsz
  have hsqu : 1024 * 1024 ≤ nindir fs * nindir fs := Nat.mul_le_mul hn hn
  have hbn : bn * MINBSIZE < 2 ^ 31 := (Nat.mul_le_mul_left bn hbsz).trans_lt h
  rw [MINBSIZE] at hbn
  exact hlev _ (by omega)

/-- A block after one was changed. -/
theorem bmapRead_setBlock (hbsz : MINBSIZE ≤ fs.fs_bsize) (f : Option Data → Data) (ip : File) {bn : ℕ}
    (h : bn * fs.fs_bsize < 2 ^ 31) (j : ℕ) : (setBlock fs f ip bn).bmapRead fs j =
      if j = bn then some (f (ip.bmapRead fs bn)) else ip.bmapRead fs j := by
  have hn := nindir_pos hbsz
  rw [setBlock]
  by_cases hdir : bn < NDADDR
  · rw [if_pos hdir, Inode.bmapRead, Inode.bmapRead, Inode.bmapRead, if_pos hdir]
    by_cases hj : j = bn
    · rw [if_pos hj, hj, if_pos hdir]
      exact Function.update_self _ _ _
    · rw [if_neg hj]
      refine if_congr Iff.rfl ?_ rfl
      exact Function.update_of_ne hj _ _
  · obtain ⟨level, i, hlvl⟩ := levelOf_isSome hbsz h
    have hat := Inode.levelOf_top hlvl
    rw [Nat.add_sub_cancel' (Nat.le_of_not_lt hdir)] at hat
    rw [if_neg hdir, hlvl, Inode.bmapRead, Inode.bmapRead, Inode.bmapRead, if_neg hdir, hlvl,
      Option.bind_some]
    dsimp only
    by_cases hj : j < NDADDR
    · rw [if_pos hj, if_pos hj, if_neg fun h : j = bn => hdir (h ▸ hj)]
    · rw [if_neg hj, if_neg hj]
      cases hlvl' : levelOf fs NIADDR 0 1 (j - NDADDR) with
      | none =>
        have hne : j ≠ bn := by
          rintro rfl
          rw [hlvl] at hlvl'
          cases hlvl'
        rw [if_neg hne]
        rfl
      | some p =>
        obtain ⟨level', i'⟩ := p
        have hat' := Inode.levelOf_top hlvl'
        rw [Nat.add_sub_cancel' (Nat.le_of_not_lt hj)] at hat'
        rw [Option.bind_some, Option.bind_some]
        dsimp only
        by_cases hsame : level' = level
        · subst hsame
          rw [Function.update_self, Tree.lookup_modify hn, Nat.mod_eq_of_lt hat.2.2,
            Nat.mod_eq_of_lt hat'.2.2]
          refine if_congr ?_ rfl rfl
          omega
        · have hne : j ≠ bn := by
            rintro rfl
            rw [hlvl] at hlvl'
            exact hsame (Prod.mk.inj (Option.some.inj hlvl')).1.symm
          rw [Function.update_of_ne hsame, if_neg hne]

theorem setBlock_size (f : Option Data → Data) (ip : File) (bn : ℕ) :
    (setBlock fs f ip bn).i_size = ip.i_size := by
  rw [setBlock]
  split_ifs
  · rfl
  · cases levelOf fs NIADDR 0 1 (bn - NDADDR) <;> rfl

/-! ### The bytes of a file -/

/-- A byte of a block, if there is such a block. -/
def byteOf (b : Option Data) (i : ℕ) : UInt8 := (b.getD []).getD i 0

/-- The bytes that the blocks have. -/
def raw (fs : Fs) (ip : File) : Mem := fun x => byteOf (ip.bmapRead fs (lblkno fs x)) (blkoff fs x)

/-- A block has the size that it should have, and is not beyond the end of the file. -/
def Shape (fs : Fs) (ip : File) : Prop :=
  ∀ bn b, ip.bmapRead fs bn = some b → b.length = blksize fs ip.i_size bn ∧ bn * fs.fs_bsize < ip.i_size

theorem lblkno_le (fs : Fs) (x : ℕ) : lblkno fs x * fs.fs_bsize ≤ x := Nat.div_mul_le_self _ _

theorem lt_lblkno (fs : Fs) (x : ℕ) : x < (lblkno fs x + 1) * fs.fs_bsize := by
  rw [add_mul, one_mul]
  exact Nat.lt_div_mul_add (bsize_pos fs)

theorem lblkno_eq {x bn : ℕ} (h : bn * fs.fs_bsize ≤ x) (h' : x < (bn + 1) * fs.fs_bsize) :
    lblkno fs x = bn := by
  rw [lblkno]
  exact Nat.div_eq_of_lt_le h h'

theorem lblkno_add_blkoff (fs : Fs) (x : ℕ) : lblkno fs x * fs.fs_bsize + blkoff fs x = x := by
  rw [lblkno, blkoff, mul_comm]
  exact Nat.div_add_mod _ _

/-- The place of a byte of a block. -/
theorem place_of {bn i : ℕ} (hi : i < fs.fs_bsize) :
    lblkno fs (bn * fs.fs_bsize + i) = bn ∧ blkoff fs (bn * fs.fs_bsize + i) = i := by
  have hblk : lblkno fs (bn * fs.fs_bsize + i) = bn :=
    lblkno_eq (Nat.le_add_right _ _) (by rw [add_mul, one_mul]; omega)
  have hsum := lblkno_add_blkoff fs (bn * fs.fs_bsize + i)
  rw [hblk] at hsum
  exact ⟨hblk, Nat.add_left_cancel hsum⟩

theorem byteOf_append_zeros (b : Data) (n i : ℕ) : byteOf (some (b ++ zeros n)) i = byteOf (some b) i := by
  rw [byteOf, byteOf, Option.getD_some, Option.getD_some, getD_eq_getElem?_getD,
    getD_eq_getElem?_getD, getElem?_append]
  split_ifs with h
  · rfl
  · rw [zeros, getElem?_replicate, getElem?_eq_none (Nat.le_of_not_lt h)]
    split_ifs <;> rfl

theorem byteOf_zeros (n i : ℕ) : byteOf (some (zeros n)) i = 0 := by
  rw [← nil_append (zeros n), byteOf_append_zeros]
  rfl

theorem bread_ok {b : Data} {size : ℕ} (h : b.length = size) : bread b size = .ok b := by
  rw [bread, if_pos h.ge, ← h, take_length]

/-- A block of fragments becomes one of more. -/
theorem realloccg_ok {b : Data} {osize nsize : ℕ} (h : b.length = osize) (ho : osize ≤ fs.fs_bsize)
    (hn : nsize ≤ fs.fs_bsize) (hdvdo : fs.fs_fsize ∣ osize) (hdvdn : fs.fs_fsize ∣ nsize) :
    realloccg fs (some b) osize nsize = .ok (b ++ zeros (nsize - osize)) := by
  rw [realloccg, if_neg]
  · rw [bread_ok h]
    rfl
  · rw [fragoff, fragoff, Nat.mod_eq_zero_of_dvd hdvdo, Nat.mod_eq_zero_of_dvd hdvdn]
    omega

section Shape

variable {ip : File} {bn : ℕ} {b : Data}

theorem Shape.le_last (h : Shape fs ip) (hb : ip.bmapRead fs bn = some b) : bn ≤ lblkno fs ip.i_size := by
  rw [lblkno, Nat.le_div_iff_mul_le (bsize_pos fs)]
  exact (h bn b hb).2.le

/-- A block before the last is whole. -/
theorem Shape.whole (h : Shape fs ip) (hb : ip.bmapRead fs bn = some b) (hlt : bn < lblkno fs ip.i_size) :
    b.length = fs.fs_bsize := by
  rw [(h bn b hb).1]
  refine blksize_whole (Or.inr ?_)
  exact (Nat.mul_le_mul_right _ (Nat.succ_le_of_lt hlt)).trans (lblkno_le fs _)

end Shape

/-- The blocks have the same bytes, and there are the same blocks. -/
structure Same (fs : Fs) (ip ip' : File) : Prop where
  byte : ∀ j i, byteOf (ip'.bmapRead fs j) i = byteOf (ip.bmapRead fs j) i
  some : ∀ j, (ip'.bmapRead fs j).isSome = (ip.bmapRead fs j).isSome

/-- A file with another direct block. -/
theorem bmapRead_update (hbsz : MINBSIZE ≤ fs.fs_bsize) (ip : File) {bn : ℕ} (hbn : bn < NDADDR)
    (hmax : bn * fs.fs_bsize < 2 ^ 31) (size : ℕ) (b : Data) (j : ℕ) :
    Inode.bmapRead fs { ip with i_size := size, i_db := Function.update ip.i_db bn (some b) } j =
      if j = bn then some b else ip.bmapRead fs j := by
  rw [← bmapRead_setBlock hbsz (fun _ => b) ip hmax j, setBlock, if_pos hbn]
  rfl

theorem extendLast_spec (hbsz : MINBSIZE ≤ fs.fs_bsize) {ip : File} (h : Shape fs ip)
    (hsize : ip.i_size < 2 ^ 31) {bn : ℕ}
    (hhole : lblkno fs ip.i_size < NDADDR → lblkno fs ip.i_size < bn → 0 < blkoff fs ip.i_size →
      ip.bmapRead fs (lblkno fs ip.i_size) = none → fragroundup fs (blkoff fs ip.i_size) = fs.fs_bsize) :
    ∃ ip', extendLast fs ip bn = .ok ip' ∧ Shape fs ip' ∧ Same fs ip ip' ∧ ip.i_size ≤ ip'.i_size ∧
      ip'.i_size ≤ max ip.i_size (bn * fs.fs_bsize) ∧
      ∀ j b, j < bn → ip'.bmapRead fs j = some b → b.length = fs.fs_bsize := by
  obtain ⟨l, hl⟩ : ∃ l, l = lblkno fs ip.i_size := ⟨_, rfl⟩
  have hle : l * fs.fs_bsize ≤ ip.i_size := hl ▸ lblkno_le fs _
  have hlt : ip.i_size < (l + 1) * fs.fs_bsize := hl ▸ lt_lblkno fs _
  rw [extendLast, ← hl]
  rw [← hl] at hhole
  by_cases hgrow : l < NDADDR ∧ l < bn ∧ blksize fs ip.i_size l < fs.fs_bsize ∧ 0 < blksize fs ip.i_size l
  · obtain ⟨hdir, hbn, hsml, hpos⟩ := hgrow
    have hfrag : blksize fs ip.i_size l = fragroundup fs (blkoff fs ip.i_size) :=
      if_neg (not_or.2 ⟨hdir.not_ge, hlt.not_ge⟩)
    have hblk : ∃ b, ip.bmapRead fs l = some b := by
      cases hb : ip.bmapRead fs l with
      | some b => exact ⟨b, rfl⟩
      | none =>
        have hoff : 0 < blkoff fs ip.i_size := by
          rw [hfrag] at hpos
          refine Nat.pos_of_ne_zero fun hzero => hpos.not_ge ?_
          rw [hzero]
          exact fragroundup_le (Nat.dvd_zero _) le_rfl
        have hfull := hhole hdir hbn hoff hb
        omega
    obtain ⟨b, hb⟩ := hblk
    have hlen := (h l b hb).1
    have hread : ip.i_db l = some b := by rwa [Inode.bmapRead, if_pos hdir] at hb
    have hupd := bmapRead_update hbsz ip hdir (hle.trans_lt hsize) ((l + 1) * fs.fs_bsize)
      (b ++ zeros (fs.fs_bsize - blksize fs ip.i_size l))
    have hwhl : (b ++ zeros (fs.fs_bsize - blksize fs ip.i_size l)).length = fs.fs_bsize := by
      rw [length_append, hlen, zeros, length_replicate]
      omega
    rw [if_pos ⟨hdir, hbn, hsml, hpos⟩, hread, realloccg_ok hlen blksize_le le_rfl fsize_dvd_blksize
      (fsize_dvd_bsize fs)]
    refine ⟨_, rfl, fun j c hj => ?_, ⟨fun j i => ?_, fun j => ?_⟩, hlt.le, ?_, fun j c hj hc => ?_⟩
    · rw [hupd] at hj
      split_ifs at hj with hjl
      · rw [hjl, ← Option.some.inj hj, hwhl]
        dsimp only
        exact ⟨(blksize_whole (Or.inr le_rfl)).symm,
          Nat.mul_lt_mul_of_pos_right l.lt_succ_self (bsize_pos fs)⟩
      · have hjlt : j < l := lt_of_le_of_ne (hl ▸ h.le_last hj) hjl
        have hst := Nat.mul_le_mul_right fs.fs_bsize hjlt.le
        refine ⟨?_, by dsimp only; omega⟩
        rw [h.whole hj (hl ▸ hjlt)]
        exact (blksize_whole (Or.inr (Nat.mul_le_mul_right _ (Nat.succ_le_succ hjlt.le)))).symm
    · rw [hupd]
      split_ifs with hjl
      · rw [hjl, hb, byteOf_append_zeros]
      · rfl
    · rw [hupd]
      split_ifs with hjl
      · rw [hjl, hb, Option.isSome_some, Option.isSome_some]
      · rfl
    · exact le_max_of_le_right (Nat.mul_le_mul_right _ hbn)
    · rw [hupd] at hc
      split_ifs at hc with hjl
      · rw [← Option.some.inj hc, hwhl]
      · exact h.whole hc (hl ▸ lt_of_le_of_ne (hl ▸ h.le_last hc) hjl)
  · rw [if_neg hgrow]
    refine ⟨ip, rfl, h, ⟨fun _ _ => rfl, fun _ => rfl⟩, le_rfl, le_max_left _ _, fun j b hj hb => ?_⟩
    rcases (h.le_last hb).lt_or_eq with hjl | hjl
    · exact h.whole hb hjl
    · -- the last block, which is as large as it can be
      obtain ⟨hlen, hst⟩ := h j b hb
      rw [← hl] at hjl
      subst hjl
      have hpos := blksize_pos hst
      have hmax : blksize fs ip.i_size j ≤ fs.fs_bsize := blksize_le
      by_cases hdir : j < NDADDR
      · have hnot : ¬blksize fs ip.i_size j < fs.fs_bsize := fun hsml => hgrow ⟨hdir, hj, hsml, hpos⟩
        omega
      · rw [hlen, blksize_whole (Or.inl (Nat.le_of_not_lt hdir))]

/-! ### `bmap` -/

/-- A block of a file that ends in it. -/
theorem blksize_add {bn x : ℕ} (hbn : bn < NDADDR) (hx : x ≤ fs.fs_bsize) :
    blksize fs (bn * fs.fs_bsize + x) bn = fragroundup fs x := by
  rcases hx.lt_or_eq with hx | rfl
  · rw [blksize_last hbn (Nat.le_add_right _ _), Nat.add_sub_cancel_left]
    rw [add_mul, one_mul]
    exact Nat.add_lt_add_left hx _
  · rw [blksize_whole]
    · exact (le_fragroundup _).antisymm (fragroundup_le (fsize_dvd_bsize fs) le_rfl)
    · rw [add_mul, one_mul]
      exact Or.inr le_rfl

/-- A hole at the end of the file is filled only by a piece with which it gets all its fragments, and the
    file is extended after it only if no fragments would be added to it. -/
def HoleOk (fs : Fs) (ip : File) (offset last : ℕ) : Prop :=
  let lbn := lblkno fs ip.i_size
  let osize := fragroundup fs (blkoff fs ip.i_size)
  lbn < NDADDR → 0 < blkoff fs ip.i_size → ip.bmapRead fs lbn = none → last ≤ lbn * fs.fs_bsize ∨
    offset < (lbn + 1) * fs.fs_bsize ∧
      osize ≤ fragroundup fs (min last ((lbn + 1) * fs.fs_bsize) - lbn * fs.fs_bsize) ∨
    (lbn + 1) * fs.fs_bsize ≤ offset ∧ osize = fs.fs_bsize

/-- The file with a block that a piece is written in. -/
structure Mapped (fs : Fs) (ip : File) (bn last : ℕ) (ip' : File) : Prop where
  le_size : ip.i_size ≤ ip'.i_size
  size_le : ip'.i_size ≤ max ip.i_size (bn * fs.fs_bsize)
  shape : Shape fs { ip' with i_size := max ip'.i_size last }
  byte : ∀ j i, byteOf (ip'.bmapRead fs j) i = byteOf (ip.bmapRead fs j) i
  isSome : ∀ j, j ≠ bn → (ip'.bmapRead fs j).isSome = (ip.bmapRead fs j).isSome
  block : ∃ b, ip'.bmapRead fs bn = some b

/-- It is enough that the block has the right size. -/
theorem Mapped.of_block {ip ip1 ip' : File} {bn size : ℕ} (hsize : size ≤ fs.fs_bsize) (h : Shape fs ip1)
    (hsame : Same fs ip ip1) (hle : ip.i_size ≤ ip1.i_size)
    (hle' : ip1.i_size ≤ max ip.i_size (bn * fs.fs_bsize))
    (hbef : ∀ j b, j < bn → ip1.bmapRead fs j = some b → b.length = fs.fs_bsize)
    (hpos : 0 < size) (hsize' : ip'.i_size = ip1.i_size) {b : Data}
    (hread : ∀ j, ip'.bmapRead fs j = if j = bn then some b else ip1.bmapRead fs j)
    (hlen : b.length = blksize fs (max ip1.i_size (bn * fs.fs_bsize + size)) bn)
    (hbyte : ∀ i, byteOf (some b) i = byteOf (ip1.bmapRead fs bn) i) :
    Mapped fs ip bn (bn * fs.fs_bsize + size) ip' where
  le_size := hsize' ▸ hle
  size_le := hsize' ▸ hle'
  shape := by
    intro j c hc
    have hc' : ip'.bmapRead fs j = some c := hc
    rw [hread] at hc'
    rw [hsize']
    dsimp only
    split_ifs at hc' with hj
    · rw [hj, ← Option.some.inj hc', hlen]
      exact ⟨rfl, lt_max_of_lt_right (Nat.lt_add_of_pos_right hpos)⟩
    · obtain ⟨hclen, hcst⟩ := h j c hc'
      rcases Nat.lt_or_gt_of_ne hj with hlt | hgt
      · have hend : (j + 1) * fs.fs_bsize ≤ bn * fs.fs_bsize := Nat.mul_le_mul_right _ hlt
        rw [hbef j c hlt hc', blksize_whole (Or.inr ?_)]
        · exact ⟨rfl, hcst.trans_le (le_max_left _ _)⟩
        · exact le_max_of_le_right (hend.trans (Nat.le_add_right _ _))
      · have hend : (bn + 1) * fs.fs_bsize ≤ j * fs.fs_bsize := Nat.mul_le_mul_right _ hgt
        rw [add_mul, one_mul] at hend
        rw [max_eq_left (by omega)]
        exact ⟨hclen, hcst⟩
  byte := by
    intro j i
    rw [hread, ← hsame.byte]
    split_ifs with hj
    · rw [hj, hbyte]
    · rfl
  isSome := by
    intro j hj
    rw [hread, if_neg hj, hsame.some]
  block := ⟨b, by rw [hread, if_pos rfl]⟩

/-- Where the file ends in a block, or before it. -/
theorem end_in_block {i_size bn : ℕ} (hlt : i_size < (bn + 1) * fs.fs_bsize) :
    i_size ≤ bn * fs.fs_bsize ∨ ∃ y, 0 < y ∧ y < fs.fs_bsize ∧ i_size = bn * fs.fs_bsize + y ∧
      lblkno fs i_size = bn ∧ blkoff fs i_size = y := by
  rcases lt_or_ge (bn * fs.fs_bsize) i_size with h | h
  · right
    have hblk := lblkno_eq h.le hlt
    have hsum := lblkno_add_blkoff fs i_size
    rw [hblk] at hsum
    rw [add_mul, one_mul] at hlt
    exact ⟨blkoff fs i_size, by omega, by omega, hsum.symm, hblk, rfl⟩
  · exact Or.inl h

theorem fragroundup_max (x y : ℕ) :
    fragroundup fs (max x y) = max (fragroundup fs x) (fragroundup fs y) :=
  Monotone.map_max fun _ _ h => fragroundup_mono h

theorem bmapWrite_spec (hbsz : MINBSIZE ≤ fs.fs_bsize) {ip : File} (h : Shape fs ip)
    (hsize : ip.i_size < 2 ^ 31) {bn size : ℕ} (hpos : 0 < size) (hle : size ≤ fs.fs_bsize)
    (hmax : bn * fs.fs_bsize + size < 2 ^ 31)
    (hhole : lblkno fs ip.i_size < NDADDR → 0 < blkoff fs ip.i_size →
      ip.bmapRead fs (lblkno fs ip.i_size) = none → bn < lblkno fs ip.i_size ∨
        bn = lblkno fs ip.i_size ∧ fragroundup fs (blkoff fs ip.i_size) ≤ fragroundup fs size ∨
        lblkno fs ip.i_size < bn ∧ fragroundup fs (blkoff fs ip.i_size) = fs.fs_bsize) :
    ∃ ip', bmapWrite fs ip bn size = .ok (true, ip') ∧
      Mapped fs ip bn (bn * fs.fs_bsize + size) ip' := by
  obtain ⟨ip1, heq, hshp, hsame, hge, hgrown, hbef⟩ := @extendLast_spec fs hbsz ip h hsize bn
    fun hdir hbn hoff hnone => by
      rcases hhole hdir hoff hnone with hlt | ⟨rfl, -⟩ | ⟨-, hfull⟩
      · exact absurd hbn hlt.not_gt
      · exact absurd hbn (lt_irrefl _)
      · exact hfull
  have hbn : bn * fs.fs_bsize < 2 ^ 31 := (Nat.le_add_right _ _).trans_lt hmax
  rw [bmapWrite, heq]
  -- a block that is added or grows
  have hset : ∀ (f : Option Data → Data) (b : Data), f (ip1.bmapRead fs bn) = b →
      b.length = blksize fs (max ip1.i_size (bn * fs.fs_bsize + size)) bn →
      (∀ i, byteOf (some b) i = byteOf (ip1.bmapRead fs bn) i) →
      Mapped fs ip bn (bn * fs.fs_bsize + size) (setBlock fs f ip1 bn) := by
    intro f b hf hlen hbyte
    refine Mapped.of_block hle hshp hsame hge hgrown hbef hpos (setBlock_size f ip1 bn)
      (fun j => ?_) hlen hbyte
    rw [bmapRead_setBlock hbsz f ip1 hbn, hf]
  have hkeep : ∀ b, ip1.bmapRead fs bn = some b →
      b.length = blksize fs (max ip1.i_size (bn * fs.fs_bsize + size)) bn →
      Mapped fs ip bn (bn * fs.fs_bsize + size) ip1 := by
    intro b hb hlen
    refine Mapped.of_block hle hshp hsame hge hgrown hbef hpos rfl (fun j => ?_) hlen
      fun i => by rw [hb]
    split_ifs with hj
    · rw [hj, hb]
    · rfl
  change ∃ ip', (if bn < NDADDR then _ else _) = _ ∧ _
  by_cases hdir : bn < NDADDR
  · rw [if_pos hdir]
    have hread : ip1.bmapRead fs bn = ip1.i_db bn := if_pos hdir
    cases hb : ip1.i_db bn with
    | none =>
      refine ⟨_, rfl, hset _ _ rfl ?_ fun i => ?_⟩
      · rw [zeros, length_replicate]
        split_ifs with hlt
        · rcases end_in_block hlt with hout | ⟨y, hy, hybs, hend, hblk, hyoff⟩
          · rw [max_eq_right (hout.trans (Nat.le_add_right _ _)), blksize_add hdir hle]
          · -- the block is a hole at the end of the file
            have hsame_size : ip1.i_size = ip.i_size := by omega
            rw [hsame_size] at hblk hyoff
            have hnone : ip.bmapRead fs bn = none := by
              have hsome := hsame.some bn
              rw [hread, hb, Option.isSome_none] at hsome
              exact Option.isSome_eq_false_iff.1 hsome.symm |> Option.isNone_iff_eq_none.1
            rw [hblk, hyoff] at hhole
            have hfits : fragroundup fs y ≤ fragroundup fs size := by
              rcases hhole hdir hy hnone with hlt | ⟨-, hfits⟩ | ⟨hlt, -⟩
              · exact absurd hlt (lt_irrefl _)
              · exact hfits
              · exact absurd hlt (lt_irrefl _)
            rw [hend, Nat.add_max_add_left, blksize_add hdir (max_le hybs.le hle), fragroundup_max,
              max_eq_right hfits]
        · rw [blksize_whole (Or.inr (le_max_of_le_left (Nat.le_of_not_lt hlt)))]
      · rw [byteOf_zeros, hread, hb]
        rfl
    | some b =>
      obtain ⟨hlen, hst⟩ := hshp bn b (hread.trans hb)
      dsimp only
      by_cases hlt : ip1.i_size < (bn + 1) * fs.fs_bsize
      · obtain ⟨y, hy, hybs, hend, hblk, hyoff⟩ := (end_in_block hlt).resolve_left hst.not_ge
        have hlast : blksize fs (max ip1.i_size (bn * fs.fs_bsize + size)) bn =
            max (fragroundup fs y) (fragroundup fs size) := by
          rw [hend, Nat.add_max_add_left, blksize_add hdir (max_le hybs.le hle), fragroundup_max]
        rw [hend, blksize_add hdir hybs.le] at hlen
        rw [hyoff]
        by_cases hgrw : fragroundup fs y < fragroundup fs size
        · rw [if_pos ⟨hlt, hgrw⟩, realloccg_ok hlen (fragroundup_le (fsize_dvd_bsize fs) hybs.le)
            (fragroundup_le (fsize_dvd_bsize fs) hle) (fsize_dvd_fragroundup y) (fsize_dvd_fragroundup size)]
          refine ⟨_, rfl, hset _ _ rfl ?_ fun i => ?_⟩
          · rw [hlast, max_eq_right hgrw.le, length_append, hlen, zeros, length_replicate]
            omega
          · rw [byteOf_append_zeros, hread, hb]
        · rw [if_neg fun h => hgrw h.2]
          refine ⟨_, rfl, hkeep b (hread.trans hb) ?_⟩
          rw [hlast, hlen, max_eq_left (Nat.le_of_not_lt hgrw)]
      · rw [if_neg fun h => hlt h.1]
        refine ⟨_, rfl, hkeep b (hread.trans hb) ?_⟩
        rw [hlen, blksize_whole (Or.inr (Nat.le_of_not_lt hlt)),
          blksize_whole (Or.inr (le_max_of_le_left (Nat.le_of_not_lt hlt)))]
  · rw [if_neg hdir]
    obtain ⟨level, i, hlvl⟩ := levelOf_isSome hbsz hbn
    have hwhl : ∀ i_size, blksize fs i_size bn = fs.fs_bsize := fun _ =>
      blksize_whole (Or.inl (Nat.le_of_not_lt hdir))
    rw [hlvl]
    refine ⟨_, rfl, hset _ _ rfl ?_ fun i => ?_⟩
    · rw [hwhl]
      cases hb : ip1.bmapRead fs bn with
      | none => rw [Option.getD_none, zeros, length_replicate]
      | some b => rw [Option.getD_some, (hshp bn b hb).1, hwhl]
    · cases hb : ip1.bmapRead fs bn with
      | none =>
        rw [Option.getD_none, byteOf_zeros]
        rfl
      | some b => rfl

/-! ### A piece -/

theorem byteOf_bytes (m : Mem) (n i : ℕ) : byteOf (some (bytes m 0 n)) i = if i < n then m i else 0 := by
  rw [byteOf, Option.getD_some, getD_eq_getElem?_getD]
  split_ifs with h
  · rw [getElem?_eq_getElem (by rwa [length_bytes]), Option.getD_some]
    simp [bytes]
  · rw [getElem?_eq_none (by rw [length_bytes]; exact Nat.le_of_not_lt h), Option.getD_none]

/-- What an unfinished write of a whole block leaves after the bytes that were copied is what there was. -/
def Whole (fs : Fs) (stale : ℕ → Mem) (ip : File) (offset : ℕ) (piece : Data) (copied : ℕ) : Prop :=
  copied < piece.length → piece.length = fs.fs_bsize → ∀ x, offset + copied ≤ x →
    x < offset + piece.length → stale (lblkno fs x) (blkoff fs x) = raw fs ip x

theorem HoleOk.piece {ip : File} {offset size : ℕ} (h : HoleOk fs ip offset (offset + size))
    (hpos : 0 < size) (hin : blkoff fs offset + size ≤ fs.fs_bsize)
    (hdir : lblkno fs ip.i_size < NDADDR) (hoff : 0 < blkoff fs ip.i_size)
    (hnone : ip.bmapRead fs (lblkno fs ip.i_size) = none) :
    lblkno fs offset < lblkno fs ip.i_size ∨ lblkno fs offset = lblkno fs ip.i_size ∧
        fragroundup fs (blkoff fs ip.i_size) ≤ fragroundup fs (blkoff fs offset + size) ∨
      lblkno fs ip.i_size < lblkno fs offset ∧ fragroundup fs (blkoff fs ip.i_size) = fs.fs_bsize := by
  have hbs := bsize_pos fs
  have hsum := lblkno_add_blkoff fs offset
  rcases h hdir hoff hnone with hbef | ⟨hlt, hfits⟩ | ⟨hge, hfull⟩
  · exact Or.inl ((Nat.div_lt_iff_lt_mul hbs).2 (by omega))
  · rcases (Nat.lt_succ_iff.1 ((Nat.div_lt_iff_lt_mul hbs).2 hlt)).lt_or_eq with hblk | hblk
    · exact Or.inl hblk
    · have heq : lblkno fs offset = lblkno fs ip.i_size := hblk
      refine Or.inr (Or.inl ⟨heq, hfits.trans_eq ?_⟩)
      rw [← heq, add_mul, one_mul, min_eq_left (by omega)]
      congr 1
      omega
  · exact Or.inr (Or.inr ⟨(Nat.le_div_iff_mul_le hbs).2 hge, hfull⟩)

theorem writePiece_spec (hbsz : MINBSIZE ≤ fs.fs_bsize) {ip : File} (h : Shape fs ip)
    (hsize : ip.i_size < 2 ^ 31) {stale : ℕ → Mem} {offset copied : ℕ} {piece : Data}
    (hpos : 0 < piece.length) (hin : blkoff fs offset + piece.length ≤ fs.fs_bsize)
    (hmax : offset + piece.length < 2 ^ 31) (hhole : HoleOk fs ip offset (offset + piece.length))
    (hwhl : Whole fs stale ip offset piece copied) :
    ∃ ip', writePiece fs stale ip offset piece copied = .ok (piece.length, ip') ∧ Shape fs ip' ∧
      ip'.i_size = max ip.i_size (offset + piece.length) ∧
      raw fs ip' = store (raw fs ip) offset (piece.take copied) ∧
      (∀ j, j ≠ lblkno fs offset → (ip'.bmapRead fs j).isSome = (ip.bmapRead fs j).isSome) ∧
      (ip'.bmapRead fs (lblkno fs offset)).isSome := by
  obtain ⟨bn, hbn⟩ : ∃ bn, bn = lblkno fs offset := ⟨_, rfl⟩
  obtain ⟨on, hon⟩ : ∃ on, on = blkoff fs offset := ⟨_, rfl⟩
  have hsum : bn * fs.fs_bsize + on = offset := by
    rw [hbn, hon]
    exact lblkno_add_blkoff fs offset
  have hlast : bn * fs.fs_bsize + (on + piece.length) = offset + piece.length := by omega
  obtain ⟨ip1, heq, hmap⟩ := @bmapWrite_spec fs hbsz ip h hsize bn (on + piece.length)
    (by omega) (by omega) (by omega) fun hdir hoff hnone => by
      rw [hbn, hon]
      exact hhole.piece hpos hin hdir hoff hnone
  rw [hlast] at hmap
  have hend : max ip1.i_size (offset + piece.length) = max ip.i_size (offset + piece.length) := by
    have hle := hmap.le_size
    have hle' := hmap.size_le
    omega
  obtain ⟨b, hb⟩ := hmap.block
  have hlen : b.length = blksize fs (max ip1.i_size (offset + piece.length)) bn :=
    (hmap.shape bn b hb).1
  have hroom : on + piece.length ≤ b.length := by
    have hst : bn * fs.fs_bsize ≤ max ip1.i_size (offset + piece.length) := by omega
    have hle := le_blksize hst
    rw [← hlen, add_mul, one_mul] at hle
    omega
  obtain ⟨buf, hbuf, hbufl, hbyt⟩ : ∃ buf : Data,
      (if piece.length = fs.fs_bsize then getblk b b.length (stale bn) else bread b b.length) = .ok buf ∧
      buf.length = b.length ∧
      ∀ i, on + (piece.take copied).length ≤ i ∨ i < on → i < b.length → buf.getD i 0 = byteOf (some b) i := by
    by_cases hfull : piece.length = fs.fs_bsize
    · have hzero : on = 0 := by omega
      have hlen' : b.length = fs.fs_bsize := (hlen.trans_le blksize_le).antisymm (by omega)
      refine ⟨bytes (stale bn) 0 b.length, ?_, length_bytes _ _ _, fun i hi hib => ?_⟩
      · rw [if_pos hfull, getblk, if_pos le_rfl]
      · have hbyte := byteOf_bytes (stale bn) b.length i
        rw [if_pos hib, byteOf, Option.getD_some] at hbyte
        have hi' : copied ≤ i ∧ copied < piece.length := by
          rw [length_take] at hi
          omega
        have hx := hwhl hi'.2 hfull (bn * fs.fs_bsize + i) (by omega) (by omega)
        rw [raw, (place_of (by omega)).1, (place_of (by omega)).2] at hx
        rw [hbyte, ← hb, hmap.byte, hx]
    · exact ⟨b, by rw [if_neg hfull, bread_ok rfl], rfl, fun i _ _ => rfl⟩
  have hsize' : blksize fs (max ip1.i_size (offset + piece.length)) bn = b.length := hlen.symm
  have hread : Inode.bmapRead fs { ip1 with i_size := max ip1.i_size (offset + piece.length) } bn =
    some b := hb
  have hval : writePiece fs stale ip offset piece copied = .ok (piece.length,
      setBlock fs (fun _ => bytes (store (fun i => buf.getD i 0) on (piece.take copied)) 0 b.length)
        { ip1 with i_size := max ip1.i_size (offset + piece.length) } bn) := by
    have htake : piece.take (min piece.length copied) = piece.take copied :=
      List.take_eq_take_iff.2 (by omega)
    rw [writePiece, ← hbn, ← hon, heq]
    simp only [bind, Except.bind, if_true, hsize', hread, Option.getD_some]
    rw [min_eq_left (by omega), htake, drop_length]
    simp only [append_nil]
    split_ifs at hbuf ⊢
    · rw [hbuf]
    · rw [hbuf]
  have hset := bmapRead_setBlock hbsz
    (fun _ => bytes (store (fun i => buf.getD i 0) on (piece.take copied)) 0 b.length)
    { ip1 with i_size := max ip1.i_size (offset + piece.length) } (show bn * fs.fs_bsize < 2 ^ 31 by omega)
  refine ⟨_, hval, fun j c hc => ?_, ?_, funext fun x => ?_, fun j hj => ?_, ?_⟩
  · rw [hset] at hc
    rw [setBlock_size]
    split_ifs at hc with hj
    · rw [hj, ← Option.some.inj hc, length_bytes]
      exact hmap.shape bn b hb
    · exact hmap.shape j c hc
  · rw [setBlock_size, hend]
  · have hplc := lblkno_add_blkoff fs x
    have htkn := length_take_le' copied piece
    rw [raw, hset]
    simp only [store]
    split_ifs with hx hcop hcop
    · rw [hx] at hplc
      have hin' : on ≤ blkoff fs x ∧ blkoff fs x < on + (piece.take copied).length := by omega
      have hroom' : blkoff fs x < b.length := by omega
      rw [byteOf_bytes, if_pos hroom', store, if_pos hin']
      congr 1
      omega
    · rw [hx] at hplc
      have hout : ¬(on ≤ blkoff fs x ∧ blkoff fs x < on + (piece.take copied).length) := by omega
      rw [byteOf_bytes, store, if_neg hout, raw, hx, ← hmap.byte, hb]
      split_ifs with hlt
      · exact hbyt _ (by omega) hlt
      · rw [byteOf, Option.getD_some, getD_eq_getElem?_getD,
          getElem?_eq_none (Nat.le_of_not_lt hlt), Option.getD_none]
    · refine absurd (lblkno_eq ?_ ?_) hx
      · omega
      · rw [add_mul, one_mul]
        omega
    · exact hmap.byte _ _
  · rw [← hbn] at hj
    rw [hset, if_neg hj]
    exact hmap.isSome j hj
  · rw [← hbn, hset, if_pos rfl, Option.isSome_some]

/-! ### All pieces -/

/-- The end of the last piece that is written, which is the one that is copied in part if there is one. -/
def reached (fs : Fs) (offset len copied : ℕ) : ℕ :=
  if copied < len then min (offset + len) ((lblkno fs (offset + copied) + 1) * fs.fs_bsize)
  else offset + len

/-- If a piece that is copied in part is a whole block, then its buffer had what is in the block. -/
def StaleOk (fs : Fs) (stale : ℕ → Mem) (ip : File) (offset len copied : ℕ) : Prop :=
  copied < len → offset ≤ lblkno fs (offset + copied) * fs.fs_bsize →
    reached fs offset len copied = (lblkno fs (offset + copied) + 1) * fs.fs_bsize →
    ∀ x, offset + copied ≤ x → x < reached fs offset len copied →
      stale (lblkno fs x) (blkoff fs x) = raw fs ip x

section Pieces

variable {ip ip' : File} {offset last : ℕ}

/-- A piece up to the end of its block. -/
theorem HoleOk.first (h : HoleOk fs ip offset last) (hlast : (lblkno fs offset + 1) * fs.fs_bsize ≤ last) :
    HoleOk fs ip offset ((lblkno fs offset + 1) * fs.fs_bsize) := by
  intro hdir hoff hnone
  rcases h hdir hoff hnone with hbef | ⟨hlt, hfits⟩ | haft
  · exact Or.inl (hlast.trans hbef)
  · rcases (Nat.lt_succ_iff.1 ((Nat.div_lt_iff_lt_mul (bsize_pos fs)).2 hlt)).lt_or_eq with hblk | hblk
    · exact Or.inl (Nat.mul_le_mul_right _ hblk)
    · have heq : lblkno fs offset = lblkno fs ip.i_size := hblk
      rw [heq] at hlast ⊢
      rw [min_eq_right hlast] at hfits
      exact Or.inr (Or.inl ⟨hlt, by rwa [min_self]⟩)
  · exact Or.inr (Or.inr haft)

/-- The pieces after the first. -/
theorem HoleOk.rest (h : HoleOk fs ip offset last)
    (hsize : ip'.i_size = max ip.i_size ((lblkno fs offset + 1) * fs.fs_bsize))
    (hsome : ∀ j, j ≠ lblkno fs offset → (ip'.bmapRead fs j).isSome = (ip.bmapRead fs j).isSome) :
    HoleOk fs ip' ((lblkno fs offset + 1) * fs.fs_bsize) last := by
  intro hdir hoff hnone
  have hbs := bsize_pos fs
  have hoffs := lt_lblkno fs offset
  rcases le_total ip.i_size ((lblkno fs offset + 1) * fs.fs_bsize) with hle | hle
  · rw [hsize, max_eq_right hle, blkoff, Nat.mul_mod_left] at hoff
    exact absurd hoff (lt_irrefl 0)
  · rw [max_eq_left hle] at hsize
    rw [hsize] at hdir hoff hnone ⊢
    have hblk : lblkno fs offset + 1 ≤ lblkno fs ip.i_size := (Nat.le_div_iff_mul_le hbs).2 hle
    have hst := Nat.mul_le_mul_right fs.fs_bsize hblk
    have hnone' : ip.bmapRead fs (lblkno fs ip.i_size) = none := by
      have hsame := hsome _ (Nat.ne_of_gt hblk)
      rw [hnone, Option.isSome_none] at hsame
      exact Option.not_isSome_iff_eq_none.1 (by rw [← hsame]; exact Bool.false_ne_true)
    rcases h hdir hoff hnone' with hbef | ⟨-, hfits⟩ | ⟨haft, -⟩
    · exact Or.inl hbef
    · refine Or.inr (Or.inl ⟨?_, hfits⟩)
      rw [add_mul (lblkno fs ip.i_size), one_mul]
      omega
    · rw [add_mul (lblkno fs ip.i_size), one_mul] at haft
      omega

end Pieces

/-- The first piece is the last, or it goes up to the end of its block. -/
theorem reached_piece {offset len copied n : ℕ} (hn : n = min (fs.fs_bsize - blkoff fs offset) len)
    (h : copied < n ∨ n = len) : reached fs offset len copied = offset + n := by
  have hbs := bsize_pos fs
  have hplc := lblkno_add_blkoff fs offset
  have hoff : blkoff fs offset < fs.fs_bsize := Nat.mod_lt _ hbs
  rw [reached]
  split_ifs with hcop
  · have hblk : lblkno fs (offset + copied) = lblkno fs offset := by
      refine lblkno_eq (by omega) ?_
      rw [add_mul, one_mul]
      omega
    rw [hblk, add_mul, one_mul]
    omega
  · omega

theorem le_reached {offset len copied n : ℕ} (hn : n ≤ copied) (hlen : n ≤ len) :
    offset + n ≤ reached fs offset len copied := by
  rw [reached]
  split_ifs
  · have := lt_lblkno fs (offset + copied)
    omega
  · omega

/-- What is reached does not depend on where the loop is. -/
theorem reached_rest {offset len copied n : ℕ} (hn : n ≤ copied) (hlen : n ≤ len) :
    reached fs (offset + n) (len - n) (copied - n) = reached fs offset len copied := by
  rw [reached, reached, add_assoc, add_assoc, Nat.add_sub_cancel' hn, Nat.add_sub_cancel' hlen]
  refine if_congr ?_ rfl rfl
  omega

theorem rwipWrite_spec (hbsz : MINBSIZE ≤ fs.fs_bsize) {stale : ℕ → Mem} (fuel : ℕ) {ip : File}
    {offset copied : ℕ} {data : Data} (h : Shape fs ip) (hsize : ip.i_size < 2 ^ 31)
    (hpos : 0 < data.length) (hfuel : data.length ≤ fuel) (hmax : offset + data.length < 2 ^ 31)
    (hhole : HoleOk fs ip offset (reached fs offset data.length copied))
    (hstale : StaleOk fs stale ip offset data.length copied) :
    ∃ ip', rwipWrite fs stale fuel ip offset data copied = .ok ip' ∧ Shape fs ip' ∧
      ip'.i_size = max ip.i_size (reached fs offset data.length copied) ∧
      raw fs ip' = store (raw fs ip) offset (data.take copied) := by
  induction fuel generalizing ip offset data copied with
  | zero => exact absurd (hpos.trans_le hfuel) (lt_irrefl 0)
  | succ fuel ih =>
    have hbs := bsize_pos fs
    have hplc := lblkno_add_blkoff fs offset
    have hoff : blkoff fs offset < fs.fs_bsize := Nat.mod_lt _ hbs
    obtain ⟨piece, hpiece⟩ : ∃ piece, piece = data.take (fs.fs_bsize - blkoff fs offset) := ⟨_, rfl⟩
    have hn : piece.length = min (fs.fs_bsize - blkoff fs offset) data.length := by
      rw [hpiece, length_take]
    rw [rwipWrite]
    dsimp only
    rw [← hpiece]
    by_cases hlast : copied < piece.length ∨ piece.length = data.length
    · -- the last piece
      have hrea := reached_piece hn hlast
      rw [hrea] at hhole ⊢
      have hwhl : Whole fs stale ip offset piece copied := by
        intro hcop hfull x hx hx'
        have hblk : lblkno fs (offset + copied) = lblkno fs offset := by
          refine lblkno_eq (by omega) ?_
          rw [add_mul, one_mul]
          omega
        refine hstale (by omega) ?_ ?_ x hx (by rwa [hrea])
        · rw [hblk]
          omega
        · rw [hrea, hblk, add_mul, one_mul]
          omega
      obtain ⟨ip', heq, hshp, hend, hraw, -, -⟩ := writePiece_spec hbsz h hsize
        (by omega : 0 < piece.length) (by omega) (by omega) hhole hwhl
      have htake : piece.take copied = data.take copied := by
        rw [hpiece, take_take]
        exact List.take_eq_take_iff.2 (by omega)
      rw [heq]
      refine ⟨ip', if_neg ?_, hshp, hend, hraw.trans (by rw [htake])⟩
      omega
    · -- a piece up to the end of its block
      rw [not_or, not_lt] at hlast
      have hnx : offset + piece.length = (lblkno fs offset + 1) * fs.fs_bsize := by
        rw [add_mul, one_mul]
        omega
      have hle : offset + piece.length ≤ reached fs offset data.length copied :=
        le_reached hlast.1 (by omega)
      have hrs : reached fs (offset + piece.length) (data.drop piece.length).length
          (copied - piece.length) = reached fs offset data.length copied := by
        rw [length_drop]
        exact reached_rest hlast.1 (by omega)
      have hfst : HoleOk fs ip offset (offset + piece.length) := by
        rw [hnx] at hle ⊢
        exact hhole.first hle
      obtain ⟨ip1, heq, hshp, hend, hraw, hsome, -⟩ := writePiece_spec hbsz h hsize
        (by omega : 0 < piece.length) (by omega) (by omega) hfst
        fun hcop _ => absurd hcop hlast.1.not_gt
      have hlen := length_drop (i := piece.length) (l := data)
      rw [heq]
      have hstale' : StaleOk fs stale ip1 (offset + piece.length) (data.drop piece.length).length
          (copied - piece.length) := by
        intro hcop hst hblk x hx hx'
        have hsum : offset + piece.length + (copied - piece.length) = offset + copied := by omega
        rw [hsum] at hst hblk hx
        rw [hrs] at hblk hx'
        rw [hstale (by omega) (by omega) hblk x hx hx', hraw, store, if_neg]
        rw [length_take]
        omega
      have hhole' : HoleOk fs ip1 (offset + piece.length) (reached fs (offset + piece.length)
          (data.drop piece.length).length (copied - piece.length)) := by
        rw [hrs, hnx]
        exact hhole.rest (hnx ▸ hend) hsome
      obtain ⟨ip', heq', hshp', hend', hraw'⟩ := ih hshp (by omega) (by omega) (by omega) (by omega)
        hhole' hstale'
      refine ⟨ip', (if_pos ⟨by omega, hlast.1, by omega⟩).trans heq', hshp', ?_, ?_⟩
      · rw [hend', hrs, hend]
        omega
      · have hall : piece.take copied = piece := take_of_length_le hlast.1
        have htake : piece = data.take piece.length := by
          conv_lhs => rw [hpiece]
          exact List.take_eq_take_iff.2 (by omega)
        have hspl : piece ++ (data.drop piece.length).take (copied - piece.length) = data.take copied := by
          conv_lhs => rw [htake, length_take]
          rw [min_eq_left (by omega), ← take_add, Nat.add_sub_cancel' hlast.1]
        rw [hraw', hraw, hall, store_append, hspl]

end Uwisc.Ufs.File
