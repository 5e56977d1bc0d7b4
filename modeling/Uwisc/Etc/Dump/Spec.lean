import Mathlib.Algebra.Order.Group.Nat
import Mathlib.Data.List.ReduceOption
import Mathlib.Data.Nat.ModEq
import Uwisc.Etc.Restore

/-!
# What is on the tape

A file is a sequence of records (`entry`), some of them in holes. `dump` cuts it into segments and
writes each as a header and the records of the segment that are not in holes (`Segs`,
`dumpBlocks_emits`). A header is read back as it was written (`asHeader_sealed`, `isGood_sealed`).
-/

namespace Uwisc.Dump

open Function Lib List Nat

/-! ### Headers -/

variable {n k a b j i : ℕ} {o o' o'' : Out} {x y : List (Option Record)} {m : Mem} {blkp : ℕ → ℕ}

theorem long_encode_zero (hn : n < 2 ^ 32) (l : List UInt8) : long (encode 4 n ++ l) 0 = n := by
  rw [long, drop_zero, take_append_of_le_length (by rw [length_encode])]
  rw [take_of_length_le (by rw [length_encode]), decode_encode (by omega)]

theorem drop_append_ge {r : List UInt8} (hr : r.length = n) (hk : n ≤ k) (l : List UInt8) :
    (r ++ l).drop k = l.drop (k - n) := by
  rw [drop_append, drop_of_length_le (hr ▸ hk), nil_append, hr]

theorem long_encode_ge {v : ℕ} (hk : 4 ≤ k) (l : List UInt8) : long (encode 4 v ++ l) k = long l (k - 4) := by
  rw [long, drop_append_ge (length_encode 4 v) hk, long]

theorem long_bytes_ge (hk : n ≤ k) (l : List UInt8) :
    long (bytes m a n ++ l) k = long l (k - n) := by
  rw [long, drop_append_ge (length_bytes m a n) hk, long]

theorem long_bytes (hk : k + 4 ≤ n) (l : List UInt8) :
    long (bytes m a n ++ l) k = load 4 m (a + k) := by
  obtain ⟨d, rfl⟩ := Nat.exists_eq_add_of_le hk
  rw [bytes_add, bytes_add, append_assoc, append_assoc, long,
    drop_left' (length_bytes m a k), take_left' (length_bytes m (a + k) 4), load]

theorem long_magic (s : Spcl) (c : ℕ) : long (spclBytes s c) 24 = NFS_MAGIC := by
  simp (disch := decide) only [spclBytes, long_encode_ge, reduceSub, long_encode_zero]

/-- A header is read back, whatever its checksum. -/
theorem asHeader_spclBytes (s : Spcl) (c : ℕ) (htype : s.c_type < 2 ^ 32) (hcount : s.c_count ≤ TP_NINDIR) :
    asHeader (spclBytes s c) = ⟨s.c_type, NFS_MAGIC, s.c_dinode.di_size, bytes s.c_addr 0 s.c_count⟩ := by
  have hcount' : s.c_count < 2 ^ 32 := hcount.trans_lt (by decide)
  have hsize : long (spclBytes s c) 40 = s.c_dinode.di_size := by
    simp (disch := decide) only [spclBytes, long_encode_ge, reduceSub, long_bytes, zero_add, Dinode.di_size]
  have hlong : long (spclBytes s c) 160 = s.c_count := by
    simp (disch := decide) only [spclBytes, long_encode_ge, long_bytes_ge, reduceSub]
    exact long_encode_zero hcount' _
  have haddr : (spclBytes s c).drop 164 = bytes s.c_addr 0 TP_NINDIR ++ replicate 348 0 := by
    simp (disch := first | exact length_encode _ _ | exact length_bytes _ _ _ | decide) only [spclBytes, drop_append_ge,
      reduceSub, drop_zero]
  obtain ⟨d, hd⟩ := Nat.exists_eq_add_of_le hcount
  rw [asHeader, long_magic, hsize, hlong, haddr, hd, bytes_add, append_assoc,
    take_left' (length_bytes s.c_addr 0 s.c_count), spclBytes, long_encode_zero htype]

/-! ### Checksums -/

theorem words_append {l l' : List UInt8} (h : l.length % 4 = 0) : words (l ++ l') = words l ++ words l' := by
  induction l using words.induct with
  | case1 a b c d l ih =>
    simp only [cons_append, words]
    rw [ih ((add_mod_right l.length 4).symm.trans h)]
  | case2 l hl =>
    -- There is nothing left, since no four integers are.
    have hnil : l = [] := by
      match l, hl, h with
      | [], _, _ => rfl
      | a :: b :: c :: d :: l, hl, _ => exact absurd rfl (hl a b c d l)
    rw [hnil]
    rfl

theorem words_encode (n : ℕ) (hn : n < 2 ^ 32) : words (encode 4 n) = [n] := by
  have h := decode_encode (n := 4) (v := n) (by omega)
  simp only [encode] at h ⊢
  simp [words, h]

/-- The checksum is one of the integers of a header, and the others do not depend on it. -/
theorem sum_spclBytes (s : Spcl) : ∃ n, ∀ c < 2 ^ 32, sum (spclBytes s c) = (n + c) % 2 ^ 32 := by
  obtain ⟨A, B, hspl, hA⟩ : ∃ A B : List UInt8, (∀ c, spclBytes s c = A ++ (encode 4 c ++ B)) ∧ A.length % 4 = 0 :=
    ⟨encode 4 s.c_type ++ encode 4 s.c_date ++ encode 4 s.c_ddate ++ encode 4 s.c_volume ++ encode 4 s.c_tapea ++
      encode 4 s.c_inumber ++ encode 4 NFS_MAGIC, bytes s.c_dinode 0 128 ++ (encode 4 s.c_count ++
        (bytes s.c_addr 0 TP_NINDIR ++ replicate 348 0)), fun c => by simp only [spclBytes, append_assoc],
      by simp only [length_append, length_encode]⟩
  refine ⟨(words A).sum + (words B).sum, fun c hc => ?_⟩
  rw [sum, hspl, words_append hA, words_append (by rw [length_encode]), words_encode c hc]
  simp only [List.sum_append, sum_cons, sum_nil]
  congr 1
  omega

/-- With its checksum, the sum of a header is right. -/
theorem isGood_sealed (s : Spcl) : isGood (sealed s) = true := by
  obtain ⟨n, hn⟩ := sum_spclBytes s
  have hc : (CHECKSUM + (2 ^ 32 - sum (spclBytes s 0))) % 2 ^ 32 < 2 ^ 32 := mod_lt _ (by decide)
  have hsum : sum (sealed s) = CHECKSUM := by
    rw [sealed, hn _ hc, hn 0 (by decide)]
    simp only [CHECKSUM]
    omega
  exact decide_eq_true ⟨long_magic s _, hsum⟩

/-! ### Segments -/

variable (fs : Fs) (ntrec ino : ℕ) (disk : Mem)

/-- The record `j` of the blocks at some pointers; there is none in a hole. -/
def entry (blkp : ℕ → ℕ) (j : ℕ) : Option Record :=
  let b := blkp (j / fs.tbperdb)
  if b = 0 then none
  else some (bytes disk (fs.fsbtodb b * DEV_BSIZE + j % fs.tbperdb * TP_BSIZE) TP_BSIZE)

/-- `n` records from the record `i` on. -/
def entries (blkp : ℕ → ℕ) (i n : ℕ) : List (Option Record) := (range' i n).map (entry fs disk blkp)

/-- The header of a segment. -/
structure Headed (size t : ℕ) (seg : List (Option Record)) (h : Record) : Prop where
  good : isGood h = true
  c_type : (asHeader h).c_type = t
  di_size : (asHeader h).di_size = size
  c_addr : (asHeader h).c_addr.map (fun a => decide (a ≠ 0)) = seg.map Option.isSome

/-- A sequence of records cut into segments, with whole blocks in all but the last one. -/
inductive Segs (tb size : ℕ) : ℕ → List Record → List (Option Record) → Prop
  | nil (t : ℕ) : Segs tb size t [] []
  | cons {t : ℕ} {h : Record} {seg ents : List (Option Record)} {tape : List Record} : seg ≠ [] →
      Headed size t seg h → (ents ≠ [] → seg.length % tb = 0) → Segs tb size TS_ADDR tape ents →
      Segs tb size t (h :: (seg.reduceOption ++ tape)) (seg ++ ents)

variable {fs ntrec ino disk}

/-- Whole blocks, and segments of what comes after them. -/
theorem Segs.append {tb size t : ℕ} {a b : List Record} (hx : Segs tb size t a x)
    (hy : Segs tb size (if x = [] then t else TS_ADDR) b y) (htb : y ≠ [] → x.length % tb = 0) :
    Segs tb size t (a ++ b) (x ++ y) := by
  induction hx with
  | nil t => simpa using hy
  | @cons t h seg ents tape hne hhead hwhl hents ih =>
    have hseg : seg ++ ents ≠ [] := fun h => hne (append_eq_nil_iff.1 h).1
    rw [if_neg hseg] at hy
    have hmod : ents ++ y ≠ [] → seg.length % tb = 0 := fun happ => by
      by_cases hents : ents = []
      · subst hents
        simpa using htb (by simpa using happ)
      · exact hwhl hents
    rw [cons_append, append_assoc, append_assoc]
    refine .cons hne hhead hmod (ih (by simpa using hy) fun hy' => ?_)
    have htot := htb hy'
    rw [length_append, add_mod, hmod (by simp [hy']), zero_add, mod_mod] at htot
    exact htot

/-! ### Blocks -/

/-- Records are written, and nothing else changes. -/
structure Puts (ntrec : ℕ) (o o' : Out) (rs : List Record) : Prop where
  tape : o'.tape = o.tape ++ rs
  trecno : o'.trecno < ntrec
  c_type : o'.spcl.c_type = o.spcl.c_type
  c_dinode : o'.spcl.c_dinode = o.spcl.c_dinode

theorem Puts.refl (h : o.trecno < ntrec) : Puts ntrec o o [] := ⟨(append_nil _).symm, h, rfl, rfl⟩

theorem Puts.trans {rs rs' : List Record} (h : Puts ntrec o o' rs) (h' : Puts ntrec o' o'' rs') :
    Puts ntrec o o'' (rs ++ rs') :=
  ⟨by rw [h'.tape, h.tape, append_assoc], h'.trecno, h'.c_type.trans h.c_type, h'.c_dinode.trans h.c_dinode⟩

/-- Records that fit in the buffer. -/
theorem flusht_puts (hn : 0 < ntrec) (o : Out) (rs : List Record) : Puts ntrec o (flusht ntrec (o.put rs)) rs := by
  rw [flusht]
  split_ifs with h
  · exact ⟨rfl, hn, rfl, rfl⟩
  · exact ⟨rfl, not_le.1 h, rfl, rfl⟩

theorem bread_add (disk : Mem) (dblk m n : ℕ) :
    bread disk dblk (m + n) = bread disk dblk m ++ bread disk (dblk + m * (TP_BSIZE / DEV_BSIZE)) n := by
  have haddr : ∀ k, dblk * DEV_BSIZE + (m + k) * TP_BSIZE =
      (dblk + m * (TP_BSIZE / DEV_BSIZE)) * DEV_BSIZE + k * TP_BSIZE := fun k => by
    simp only [TP_BSIZE, DEV_BSIZE]
    omega
  simp only [bread, range_add, map_append, map_map, comp_def, haddr]

theorem dmpdb_puts (hn : 0 < ntrec) (o : Out) (dblkno tpblks : ℕ) (ho : o.trecno < ntrec) :
    Puts ntrec o (dmpdb ntrec disk o dblkno tpblks) (bread disk dblkno tpblks) := by
  induction o, dblkno, tpblks using dmpdb.induct ntrec disk with
  | case1 o dblkno tpblks avail havail ih =>
    rw [dmpdb, if_pos havail]
    have hput := flusht_puts hn o (bread disk dblkno avail)
    have hle : avail ≤ tpblks := min_le_left _ _
    have hspl := bread_add disk dblkno avail (tpblks - avail)
    rw [Nat.add_sub_cancel' hle] at hspl
    rw [hspl]
    exact hput.trans (ih hput.trecno)
  | case2 o dblkno tpblks avail havail =>
    rw [dmpdb, if_neg havail]
    have hzero : tpblks = 0 := by
      simp only [avail] at havail
      omega
    rw [hzero]
    exact .refl ho

theorem entries_add (blkp : ℕ → ℕ) (i m n : ℕ) :
    entries fs disk blkp i (m + n) = entries fs disk blkp i m ++ entries fs disk blkp (i + m) n := by
  rw [entries, entries, entries, ← map_append, range'_append_1]

theorem Fs.tbperdb_pos (fs : Fs) : 0 < fs.tbperdb := by
  rcases fs.bsize with h | h <;> simp [Fs.tbperdb, h, TP_BSIZE]

theorem Fs.tbperdb_mul (fs : Fs) : fs.tbperdb * TP_BSIZE = fs.fs_bsize := by
  rcases fs.bsize with h | h <;> simp [Fs.tbperdb, h, TP_BSIZE]

/-- The records of one block, or of its beginning. -/
theorem entries_block (hj : j % fs.tbperdb = 0) (hn : n ≤ fs.tbperdb) :
    (entries fs disk blkp j n).reduceOption =
      if blkp (j / fs.tbperdb) = 0 then [] else bread disk (fs.fsbtodb (blkp (j / fs.tbperdb))) n := by
  have hentry : ∀ k ∈ range n, entry fs disk blkp (j + k) = if blkp (j / fs.tbperdb) = 0 then none
      else some (bytes disk (fs.fsbtodb (blkp (j / fs.tbperdb)) * DEV_BSIZE + k * TP_BSIZE) TP_BSIZE) := by
    intro k hk
    have hlt : k < fs.tbperdb := (mem_range.1 hk).trans_le hn
    have hdvd := dvd_of_mod_eq_zero hj
    rw [entry, Nat.add_div_of_dvd_right hdvd, div_eq_of_lt hlt, add_zero, add_mod, hj, zero_add,
      mod_mod, mod_eq_of_lt hlt]
  rw [entries, range'_eq_map_range, map_map]
  have hmap : (range n).map (entry fs disk blkp ∘ fun k => j + k) = (range n).map fun k =>
      if blkp (j / fs.tbperdb) = 0 then none
      else some (bytes disk (fs.fsbtodb (blkp (j / fs.tbperdb)) * DEV_BSIZE + k * TP_BSIZE) TP_BSIZE) := by
    refine map_congr_left fun k hk => ?_
    rw [comp_apply, hentry k hk]
  rw [hmap]
  split_ifs
  · simp [reduceOption]
  · simp [reduceOption, bread]

theorem dmpblk_puts (hn : 0 < ntrec) (o : Out) (blkno n : ℕ) (ho : o.trecno < ntrec) :
    Puts ntrec o (dmpblk fs ntrec disk o blkno (n * TP_BSIZE)) (bread disk (fs.fsbtodb blkno) n) := by
  rw [dmpblk, Nat.mul_div_cancel n (by decide)]
  exact dmpdb_puts hn o _ _ ho

theorem dmpAt_puts (fs : Fs) (disk : Mem) (hn : 0 < ntrec) (blkp : ℕ → ℕ) (o : Out) (j count : ℕ) (ho : o.trecno < ntrec)
    (hj : j % fs.tbperdb = 0) :
    Puts ntrec o (dmpAt fs ntrec disk blkp o j count)
      (entries fs disk blkp j (min fs.tbperdb (count - j))).reduceOption := by
  rw [entries_block hj (min_le_left _ _), dmpAt]
  by_cases hb : blkp (j / fs.tbperdb) = 0
  · rw [if_pos hb, if_neg (not_not.2 hb)]
    exact .refl ho
  · rw [if_neg hb, if_pos hb]
    split_ifs with hwhl
    · rw [min_eq_left (by omega), ← fs.tbperdb_mul]
      exact dmpblk_puts hn o _ _ ho
    · rw [min_eq_right (by omega)]
      exact dmpblk_puts hn o _ _ ho

theorem dmpblks_puts (fs : Fs) (disk : Mem) (hn : 0 < ntrec) (blkp : ℕ → ℕ) (o : Out) (j count : ℕ) (ho : o.trecno < ntrec)
    (hj : j % fs.tbperdb = 0) :
    Puts ntrec o (dmpblks fs ntrec disk blkp o j count) (entries fs disk blkp j (count - j)).reduceOption := by
  induction o, j using dmpblks.induct fs ntrec disk blkp count with
  | case1 o j h ih =>
    rw [dmpblks, if_pos h]
    -- The records of this block, and those of the next ones.
    have hblk := dmpAt_puts fs disk hn blkp o j count ho hj
    have hrest := ih hblk.trecno (by rw [add_mod_right, hj])
    have hspl : (entries fs disk blkp j (count - j)).reduceOption =
        (entries fs disk blkp j (min fs.tbperdb (count - j))).reduceOption ++
          (entries fs disk blkp (j + fs.tbperdb) (count - (j + fs.tbperdb))).reduceOption := by
      rw [← reduceOption_append]
      rcases le_or_gt (j + fs.tbperdb) count with hle | hgt
      · rw [min_eq_left (by omega), ← entries_add]
        congr 2
        omega
      · rw [min_eq_right (by omega), Nat.sub_eq_zero_of_le hgt.le]
        simp [entries]
    rw [hspl]
    exact hblk.trans hrest
  | case2 o j h =>
    rw [dmpblks, if_neg h]
    have hzero : count - j = 0 := by
      have := fs.tbperdb_pos
      omega
    rw [hzero]
    exact .refl ho

/-! ### Files -/

/-- Segments are written for some records. -/
structure Emits (fs : Fs) (ntrec : ℕ) (o o' : Out) (ents : List (Option Record)) : Prop where
  tape : ∃ rs, o'.tape = o.tape ++ rs ∧ Segs fs.tbperdb o.spcl.c_dinode.di_size o.spcl.c_type rs ents
  trecno : o'.trecno < ntrec
  c_type : o'.spcl.c_type = if ents = [] then o.spcl.c_type else TS_ADDR
  c_dinode : o'.spcl.c_dinode = o.spcl.c_dinode

theorem Emits.refl (h : o.trecno < ntrec) : Emits fs ntrec o o [] :=
  ⟨⟨[], (append_nil _).symm, .nil _⟩, h, (if_pos rfl).symm, rfl⟩

theorem Emits.trans (h : Emits fs ntrec o o' x)
    (h' : Emits fs ntrec o' o'' y) (htb : y ≠ [] → x.length % fs.tbperdb = 0) : Emits fs ntrec o o'' (x ++ y) := by
  obtain ⟨rs, hrs, hx⟩ := h.tape
  obtain ⟨rs', hrs', hy⟩ := h'.tape
  rw [h.c_type, h.c_dinode] at hy
  refine ⟨⟨rs ++ rs', by rw [hrs', hrs, append_assoc], hx.append hy htb⟩, h'.trecno, ?_, h'.c_dinode.trans h.c_dinode⟩
  rw [h'.c_type, h.c_type]
  by_cases hx : x = [] <;> by_cases hy : y = [] <;> simp [hx, hy]

theorem markHoles_c_addr (fs : Fs) (disk : Mem) (blkp : ℕ → ℕ) (o : Out) (i count : ℕ) :
    (bytes (markHoles fs blkp o i count).spcl.c_addr 0 (count - i)).map (fun a => decide (a ≠ 0)) =
      (entries fs disk blkp i (count - i)).map Option.isSome := by
  rw [bytes, entries, range'_eq_map_range, map_map, map_map, map_map]
  refine map_congr_left fun k hk => ?_
  have hlt := mem_range.1 hk
  by_cases hb : blkp ((i + k) / fs.tbperdb) = 0
  · simp [markHoles, entry, hlt, hb]
  · simp [markHoles, entry, hlt, hb]

/-- A header and the records of its segment. -/
theorem segout_emits (hn : 0 < ntrec) {count : ℕ}
    (hi : i % fs.tbperdb = 0) (hlt : i < count) (hmax : count ≤ i + TP_NINDIR) (htype : o.spcl.c_type < 2 ^ 32) :
    Emits fs ntrec o (segout fs ntrec ino disk blkp o i count) (entries fs disk blkp i (count - i)) := by
  set s : Spcl := { (markHoles fs blkp o i count).spcl with c_inumber := ino }
  have hlen : (entries fs disk blkp i (count - i)).length = count - i := by simp [entries]
  have hne : entries fs disk blkp i (count - i) ≠ [] := fun h => by
    rw [h] at hlen
    simp only [length_nil] at hlen
    omega
  have hhead : Headed o.spcl.c_dinode.di_size o.spcl.c_type (entries fs disk blkp i (count - i)) (sealed s) := by
    have hread := asHeader_spclBytes s ((CHECKSUM + (2 ^ 32 - sum (spclBytes s 0))) % 2 ^ 32) htype
      (Nat.sub_le_iff_le_add'.2 hmax)
    exact ⟨isGood_sealed s, by rw [sealed, hread]; rfl, by rw [sealed, hread]; rfl,
      by rw [sealed, hread]; exact markHoles_c_addr fs disk blkp o i count⟩
  have hspcl : Puts ntrec o (spclrec ntrec ino (markHoles fs blkp o i count)) [sealed s] := by
    have h := flusht_puts hn { o with spcl := s } [sealed s]
    exact ⟨h.tape, h.trecno, h.c_type, h.c_dinode⟩
  have hdata := dmpblks_puts fs disk hn blkp _ i count hspcl.trecno hi
  have hput := hspcl.trans hdata
  refine ⟨⟨_, hput.tape, ?_⟩, hput.trecno, (if_neg hne).symm, hput.c_dinode⟩
  have hseg : Segs fs.tbperdb _ _ _ _ := .cons hne hhead (fun h => absurd rfl h) (.nil TS_ADDR)
  simpa using hseg

theorem TP_NINDIR_mod (fs : Fs) : TP_NINDIR % fs.tbperdb = 0 := by
  rcases fs.bsize with h | h <;> simp [Fs.tbperdb, h, TP_BSIZE, TP_NINDIR]

theorem entries_ne_nil : entries fs disk blkp i n ≠ [] ↔ 0 < n := by
  rw [← length_pos_iff]
  simp [entries]

theorem blksoutFrom_emits (hn : 0 < ntrec) (blkp : ℕ → ℕ) (blks : ℕ) (o : Out) (i : ℕ) (ho : o.trecno < ntrec)
    (hi : i % fs.tbperdb = 0) (htype : o.spcl.c_type < 2 ^ 32) :
    Emits fs ntrec o (blksoutFrom fs ntrec ino disk blkp blks o i) (entries fs disk blkp i (blks - i)) := by
  induction o, i using blksoutFrom.induct fs ntrec ino disk blkp blks with
  | case1 o i h ih =>
    rw [blksoutFrom, if_pos h]
    have hcount : countFrom blks i = min blks (i + TP_NINDIR) := by
      rw [countFrom]
      split_ifs <;> omega
    have hlt : i < countFrom blks i := by
      rw [hcount]
      exact lt_min h (Nat.lt_add_of_pos_right (by decide))
    have hseg : Emits fs ntrec o (segout fs ntrec ino disk blkp o i (countFrom blks i)) _ :=
      segout_emits hn hi hlt (hcount ▸ min_le_right _ _) htype
    have hmod : (i + TP_NINDIR) % fs.tbperdb = 0 := by
      rw [add_mod, hi, TP_NINDIR_mod]
      exact zero_mod _
    have hrest := ih hseg.trecno hmod (hseg.c_type ▸ by rw [if_neg (entries_ne_nil.2 (Nat.sub_pos_of_lt hlt))]; decide)
    -- Another header comes only after one for `TP_NINDIR` records.
    rcases le_or_gt blks (i + TP_NINDIR) with hle | hgt
    · rw [Nat.sub_eq_zero_of_le hle] at hrest
      rw [hcount, min_eq_left hle] at hseg hrest ⊢
      simpa [entries] using hseg.trans hrest (fun h => absurd rfl h)
    · rw [hcount, min_eq_right hgt.le, Nat.add_sub_cancel_left] at hseg
      rw [hcount, min_eq_right hgt.le] at hrest ⊢
      have hspl : blks - i = TP_NINDIR + (blks - (i + TP_NINDIR)) := by omega
      rw [hspl, entries_add]
      exact hseg.trans hrest fun _ => by rw [entries, length_map, length_range', TP_NINDIR_mod]
  | case2 o i h =>
    rw [blksoutFrom, if_neg h, Nat.sub_eq_zero_of_le (not_lt.1 h)]
    exact .refl ho

/-! ### Sizes -/

theorem howmany_add (hb : 0 < b) (a s : ℕ) : howmany (a * b + s) b = a + howmany s b := by
  rw [howmany, howmany, add_assoc, add_comm, add_mul_div_right _ _ hb, add_comm]

theorem howmany_mono {s s' : ℕ} (h : s ≤ s') : howmany s b ≤ howmany s' b :=
  Nat.div_le_div_right (Nat.add_le_add_right h _)

namespace Fs

theorem fsize_mul (fs : Fs) : fs.fs_frag * fs.fs_fsize = fs.fs_bsize := by
  rcases fs.bsize with h | h <;> rcases fs.frag with h' | h' | h' | h' <;> simp [fs_fsize, h, h']

theorem fsize_pos (fs : Fs) : 0 < fs.fs_fsize := by
  rcases fs.bsize with h | h <;> rcases fs.frag with h' | h' | h' | h' <;> simp [fs_fsize, h, h']

/-- The records of a file of some size. -/
def records (fs : Fs) (size : ℕ) : ℕ := howmany (howmany size fs.fs_fsize * fs.fs_fsize) TP_BSIZE

theorem records_add (fs : Fs) (n s : ℕ) : fs.records (n * fs.fs_bsize + s) = n * fs.tbperdb + fs.records s := by
  have hfrg : n * fs.fs_bsize = n * fs.fs_frag * fs.fs_fsize := by rw [mul_assoc, fs.fsize_mul]
  have hrecs : n * fs.fs_frag * fs.fs_fsize = n * fs.tbperdb * TP_BSIZE := by
    rw [← hfrg, mul_assoc, fs.tbperdb_mul]
  rw [records, hfrg, howmany_add fs.fsize_pos, add_mul, hrecs, howmany_add (by decide), records]

theorem records_zero (fs : Fs) : fs.records 0 = 0 := by
  have hzero : howmany 0 fs.fs_fsize = 0 := div_eq_of_lt (by have := fs.fsize_pos; omega)
  rw [records, hzero, zero_mul]
  rfl

theorem records_blocks (fs : Fs) (n : ℕ) : fs.records (n * fs.fs_bsize) = n * fs.tbperdb := by
  have h := fs.records_add n 0
  rwa [add_zero, fs.records_zero, add_zero] at h

theorem records_mono (fs : Fs) {s s' : ℕ} (h : s ≤ s') : fs.records s ≤ fs.records s' :=
  howmany_mono (Nat.mul_le_mul_right _ (howmany_mono h))

end Fs

/-! ### Indirect blocks -/

/-- A step that dumps what there is of `M` blocks, from the block `b` on. -/
structure Dumps (fs : Fs) (ntrec : ℕ) (disk : Mem) (blkp : ℕ → ℕ) (b M : ℕ) (f : Out × ℤ → Out × ℤ) : Prop where
  emits : ∀ (o : Out) (s : ℕ), 0 < s → o.trecno < ntrec → o.spcl.c_type < 2 ^ 32 →
    Emits fs ntrec o (f (o, s)).1 (entries fs disk blkp (b * fs.tbperdb) (min (fs.records s) (M * fs.tbperdb)))
  done : ∀ (o : Out) (s : ℕ), 0 < s → s ≤ M * fs.fs_bsize → (f (o, s)).2 ≤ 0
  left : ∀ (o : Out) (s : ℕ), (f (o, ((M * fs.fs_bsize + s : ℕ) : ℤ))).2 = s

theorem Dumps.shift {blkp' : ℕ → ℕ} {M : ℕ} {f : Out × ℤ → Out × ℤ} (h : Dumps fs ntrec disk blkp 0 M f)
    (heq : ∀ k < M, blkp k = blkp' (b + k)) : Dumps fs ntrec disk blkp' b M f := by
  refine ⟨fun o s hs ho htype => ?_, h.done, h.left⟩
  have hent : entries fs disk blkp (0 * fs.tbperdb) (min (fs.records s) (M * fs.tbperdb)) =
      entries fs disk blkp' (b * fs.tbperdb) (min (fs.records s) (M * fs.tbperdb)) := by
    rw [entries, entries, range'_eq_map_range, range'_eq_map_range, map_map, map_map]
    refine map_congr_left fun k hk => ?_
    have hlt : k / fs.tbperdb < M :=
      Nat.div_lt_of_lt_mul ((mem_range.1 hk).trans_le (mul_comm M _ ▸ min_le_right _ _))
    have hdiv : (b * fs.tbperdb + k) / fs.tbperdb = b + k / fs.tbperdb := by
      rw [add_comm, add_mul_div_right _ _ fs.tbperdb_pos, add_comm]
    simp only [comp_apply, entry, zero_mul, zero_add, hdiv, heq _ hlt, mul_add_mod']
  exact hent ▸ h.emits o s hs ho htype

/-- Steps for blocks that follow one another, as long as something is left. -/
theorem Dumps.untilDone {S M : ℕ → ℕ} {f : ℕ → Out × ℤ → Out × ℤ} (hS : ∀ j, S (j + 1) = S j + M j)
    (n i : ℕ) (hf : ∀ j, i ≤ j → j ≤ i + n → Dumps fs ntrec disk blkp (S j) (M j) (f j)) :
    Dumps fs ntrec disk blkp (S i) (S (i + n + 1) - S i) (untilDone f (range' i (n + 1))) := by
  induction n generalizing i with
  | zero =>
    have hone : Dump.untilDone f (range' i (0 + 1)) = f i := by
      funext st
      simp [range', Dump.untilDone]
    rw [hone, add_zero, hS, Nat.add_sub_cancel_left]
    exact hf i le_rfl le_rfl
  | succ n ih =>
    have h := hf i le_rfl (Nat.le_add_right _ _)
    have hrest := ih (i + 1) fun j hj hj' => hf j (by omega) (by omega)
    have hmono : S (i + 1) ≤ S (i + 1 + n + 1) :=
      monotone_nat_of_le_succ (fun j => by rw [hS]; exact Nat.le_add_right _ _) (by omega)
    obtain ⟨R, hR⟩ := Nat.exists_eq_add_of_le hmono
    rw [hR, Nat.add_sub_cancel_left, hS] at hrest
    have htot : S (i + (n + 1) + 1) - S i = M i + R := by
      rw [show i + (n + 1) + 1 = i + 1 + n + 1 by omega, hR, hS]
      omega
    rw [htot, range'_succ]
    -- The first step leaves nothing, or all of what is behind its blocks.
    have hdone : ∀ (o : Out) (s : ℕ), 0 < s → s ≤ M i * fs.fs_bsize →
        Dump.untilDone f (i :: range' (i + 1) (n + 1)) (o, s) = f i (o, s) := fun o s hs hle => by
      rw [Dump.untilDone, if_pos (h.done o s hs hle)]
    have hmore : ∀ (o : Out) (s : ℕ), 0 < s →
        Dump.untilDone f (i :: range' (i + 1) (n + 1)) (o, ((M i * fs.fs_bsize + s : ℕ) : ℤ)) =
          Dump.untilDone f (range' (i + 1) (n + 1)) ((f i (o, ((M i * fs.fs_bsize + s : ℕ) : ℤ))).1, s) := by
      intro o s hs
      have hleft := h.left o s
      rw [Dump.untilDone, if_neg (by rw [hleft]; omega)]
      congr 1
      exact Prod.ext rfl hleft
    refine ⟨fun o s hs ho htype => ?_, fun o s hs hle => ?_, fun o s => ?_⟩
    · rcases le_or_gt s (M i * fs.fs_bsize) with hle | hgt
      · have hrec := fs.records_mono hle
        rw [fs.records_blocks] at hrec
        rw [hdone o s hs hle, add_mul, min_eq_left (hrec.trans (Nat.le_add_right _ _)), ← min_eq_left hrec]
        exact h.emits o s hs ho htype
      · obtain ⟨s', rfl⟩ := Nat.exists_eq_add_of_le hgt.le
        have hs' : 0 < s' := Nat.pos_of_lt_add_right hgt
        have hfst := h.emits o _ hs ho htype
        rw [fs.records_add, min_eq_right (Nat.le_add_right _ _)] at hfst
        have hnx := hrest.emits _ s' hs' hfst.trecno (by rw [hfst.c_type]; split_ifs; exacts [htype, by decide])
        rw [hmore o s' hs', fs.records_add, add_mul, Nat.add_min_add_left, entries_add, ← add_mul]
        exact hfst.trans hnx fun _ => by rw [entries, length_map, length_range', mul_mod_left]
    · rcases le_or_gt s (M i * fs.fs_bsize) with hle' | hgt
      · rw [hdone o s hs hle']
        exact h.done o s hs hle'
      · obtain ⟨s', rfl⟩ := Nat.exists_eq_add_of_le hgt.le
        have hs' : 0 < s' := Nat.pos_of_lt_add_right hgt
        rw [hmore o s' hs']
        exact hrest.done _ s' hs' (by rw [add_mul] at hle; exact Nat.le_of_add_le_add_left hle)
    · rw [add_mul, add_assoc]
      rcases Nat.eq_zero_or_pos (R * fs.fs_bsize + s) with hzero | hpos
      · have hleft := h.left o 0
        obtain rfl : s = 0 := by omega
        rw [hzero, Dump.untilDone, if_pos (by rw [hleft]; exact le_rfl), hleft]
      · rw [hmore o _ hpos]
        exact hrest.left _ s

theorem blksout_emits (fs : Fs) (ino : ℕ) (disk : Mem) (hn : 0 < ntrec) (blkp : ℕ → ℕ) (frags : ℕ) (o : Out) (ho : o.trecno < ntrec)
    (htype : o.spcl.c_type < 2 ^ 32) :
    Emits fs ntrec o (blksout fs ntrec ino disk blkp frags o)
      (entries fs disk blkp 0 (howmany (frags * fs.fs_fsize) TP_BSIZE)) :=
  blksoutFrom_emits hn blkp _ o 0 ho (zero_mod _) htype

/-- The fragments of the whole blocks of an array, or of what there is of them. -/
theorem records_of_frags (fs : Fs) (M s : ℕ) :
    howmany ((if s < M * fs.fs_bsize then howmany s fs.fs_fsize else M * fs.fs_frag) * fs.fs_fsize) TP_BSIZE =
      min (fs.records s) (M * fs.tbperdb) := by
  have hblo := fs.records_blocks M
  split_ifs with h
  · have hle := fs.records_mono h.le
    rw [hblo] at hle
    rw [min_eq_left hle, Fs.records]
  · have hle := fs.records_mono (not_lt.1 h)
    rw [hblo] at hle
    rw [min_eq_right hle, mul_assoc, fs.fsize_mul, ← fs.tbperdb_mul, ← mul_assoc]
    have hmul := howmany_add (b := TP_BSIZE) (by decide) (M * fs.tbperdb) 0
    rwa [add_zero] at hmul

/-- The pointer `i` of those that an indirect block leads to. -/
def ptrs (fs : Fs) (disk : Mem) : (lvl blk i : ℕ) → ℕ
  | 0, blk, i => idblk fs disk blk i
  | lvl + 1, blk, i => ptrs fs disk lvl (idblk fs disk blk (i / fs.NINDIR ^ (lvl + 1))) (i % fs.NINDIR ^ (lvl + 1))

theorem Fs.NINDIR_pos (fs : Fs) : 0 < fs.NINDIR := by
  rcases fs.bsize with h | h <;> simp [Fs.NINDIR, h]

theorem dmpindir_dumps (hn : 0 < ntrec) (lvl blk : ℕ) :
    Dumps fs ntrec disk (ptrs fs disk lvl blk) 0 (fs.NINDIR ^ (lvl + 1)) (dmpindir fs ntrec ino disk blk lvl) := by
  induction lvl generalizing blk with
  | zero =>
    rw [zero_add, Nat.pow_one]
    refine ⟨fun o s hs ho htype => ?_, fun o s hs hle => ?_, fun o s => ?_⟩
    · have hcnt : (if (s : ℤ) < fs.NINDIR * fs.fs_bsize then howmany (s : ℤ).toNat fs.fs_fsize
          else fs.NINDIR * fs.fs_frag) = if s < fs.NINDIR * fs.fs_bsize then howmany s fs.fs_fsize
          else fs.NINDIR * fs.fs_frag := by
        rw [Int.toNat_natCast]
        norm_cast
      rw [zero_mul, ← records_of_frags, ← hcnt]
      exact blksout_emits fs ino disk hn _ _ o ho htype
    · simp only [dmpindir]
      omega
    · simp only [dmpindir]
      push_cast
      omega
  | succ lvl ih =>
    set M := fs.NINDIR ^ (lvl + 1)
    have hM : 0 < M := Nat.pow_pos fs.NINDIR_pos
    obtain ⟨n, hN⟩ := Nat.exists_eq_add_of_lt fs.NINDIR_pos
    rw [zero_add] at hN
    have hchild : ∀ j, Dumps fs ntrec disk (ptrs fs disk (lvl + 1) blk) (j * M) M
        (dmpindir fs ntrec ino disk (idblk fs disk blk j) lvl) := fun j => by
      refine (ih (idblk fs disk blk j)).shift fun k hk => ?_
      rw [ptrs, add_comm, add_mul_div_right _ _ hM, div_eq_of_lt hk, zero_add, add_mul_mod_self_right,
        mod_eq_of_lt hk]
    have h := Dumps.untilDone (S := fun j => j * M) (M := fun _ => M) (fun j => succ_mul j M) n 0
      fun j _ _ => hchild j
    rw [zero_mul, Nat.sub_zero, zero_add, ← hN] at h
    rw [pow_succ, mul_comm]
    simpa only [dmpindir, range_eq_range'] using h

/-! ### Inodes -/

/-- The block of a file with the number `lbn`; `0` is a hole. -/
def blockOf (fs : Fs) (disk : Mem) (ip : Dinode) (lbn : ℕ) : ℕ :=
  if lbn < NDADDR then ip.di_db lbn
  else if lbn - NDADDR < fs.NINDIR then ptrs fs disk 0 (ip.di_ib 0) (lbn - NDADDR)
  else if lbn - NDADDR - fs.NINDIR < fs.NINDIR ^ 2 then ptrs fs disk 1 (ip.di_ib 1) (lbn - NDADDR - fs.NINDIR)
  else ptrs fs disk 2 (ip.di_ib 2) (lbn - NDADDR - fs.NINDIR - fs.NINDIR ^ 2)

/-- The first block of those that the indirect block `j` of an inode leads to. -/
def firstBlock (fs : Fs) : ℕ → ℕ
  | 0 => NDADDR
  | j + 1 => firstBlock fs j + fs.NINDIR ^ (j + 1)

theorem blockOf_indirect (ip : Dinode) (hj : j ≤ 2) (hk : k < fs.NINDIR ^ (j + 1)) :
    ptrs fs disk j (ip.di_ib j) k = blockOf fs disk ip (firstBlock fs j + k) := by
  have hdir : ∀ n, ¬NDADDR + n < NDADDR := fun n => by omega
  match j, hj with
  | 0, _ =>
    rw [zero_add, Nat.pow_one] at hk
    rw [firstBlock, blockOf, if_neg (hdir k), Nat.add_sub_cancel_left, if_pos hk]
  | 1, _ =>
    have hsub : firstBlock fs 1 + k - NDADDR = fs.NINDIR + k := by
      simp only [firstBlock, zero_add, Nat.pow_one]
      omega
    rw [blockOf, if_neg (by simp only [firstBlock]; omega), hsub, if_neg (by omega), Nat.add_sub_cancel_left, if_pos hk]
  | 2, _ =>
    have hsub : firstBlock fs 2 + k - NDADDR = fs.NINDIR + (fs.NINDIR ^ 2 + k) := by
      simp only [firstBlock, zero_add, Nat.pow_one, reduceAdd]
      omega
    rw [blockOf, if_neg (by simp only [firstBlock]; omega), hsub, if_neg (by omega), Nat.add_sub_cancel_left,
      if_neg (by omega), Nat.add_sub_cancel_left]

/-- A file of less than 2 GB has no more blocks than its pointers lead to. -/
theorem le_firstBlock (fs : Fs) : 2 ^ 31 ≤ firstBlock fs 3 * fs.fs_bsize := by
  rcases fs.bsize with h | h <;> simp [firstBlock, Fs.NINDIR, NDADDR, h]

theorem entries_direct (ip : Dinode) (hn : n ≤ NDADDR * fs.tbperdb) :
    entries fs disk ip.di_db 0 n = entries fs disk (blockOf fs disk ip) 0 n := by
  refine map_congr_left fun k hk => ?_
  obtain ⟨d, hd, rfl⟩ := mem_range'.1 hk
  have hlt : (0 + 1 * d) / fs.tbperdb < NDADDR :=
    Nat.div_lt_of_lt_mul (by rw [mul_comm fs.tbperdb]; omega)
  simp only [entry, blockOf, if_pos hlt]

/-- The records of a file, in segments. -/
theorem dumpBlocks_emits (hn : 0 < ntrec) {ip : Dinode} (hsize : ip.di_size < 2 ^ 31) (ho : o.trecno < ntrec)
    (htype : o.spcl.c_type < 2 ^ 32) :
    Emits fs ntrec o (dumpBlocks fs ntrec ino disk ip o)
      (entries fs disk (blockOf fs disk ip) 0 (fs.records ip.di_size)) := by
  have hfrg : (if NDADDR * fs.fs_bsize < ip.di_size then NDADDR * fs.fs_frag else howmany ip.di_size fs.fs_fsize) =
      if ip.di_size < NDADDR * fs.fs_bsize then howmany ip.di_size fs.fs_fsize else NDADDR * fs.fs_frag := by
    rcases lt_trichotomy ip.di_size (NDADDR * fs.fs_bsize) with h | h | h
    · rw [if_neg h.not_gt, if_pos h]
    · have hmul := howmany_add fs.fsize_pos (NDADDR * fs.fs_frag) 0
      rw [h, if_neg (lt_irrefl _), if_neg (lt_irrefl _), ← fs.fsize_mul, ← mul_assoc]
      have hzero : howmany 0 fs.fs_fsize = 0 := div_eq_of_lt (by have := fs.fsize_pos; omega)
      rwa [hzero] at hmul
    · rw [if_pos h, if_neg h.not_gt]
  have hdir := blksout_emits fs ino disk hn ip.di_db
    (if ip.di_size < NDADDR * fs.fs_bsize then howmany ip.di_size fs.fs_fsize else NDADDR * fs.fs_frag) o ho htype
  rw [records_of_frags, entries_direct ip (min_le_right _ _), ← hfrg] at hdir
  have htype' : (blksout fs ntrec ino disk ip.di_db (if NDADDR * fs.fs_bsize < ip.di_size then NDADDR * fs.fs_frag
      else howmany ip.di_size fs.fs_fsize) o).spcl.c_type < 2 ^ 32 := by
    rw [hdir.c_type]
    split_ifs
    exacts [htype, by decide]
  -- The blocks that the indirect blocks lead to.
  have hind : Dumps fs ntrec disk (blockOf fs disk ip) (firstBlock fs 0) (firstBlock fs (0 + 2 + 1) - firstBlock fs 0)
      (untilDone (fun i => dmpindir fs ntrec ino disk (ip.di_ib i) i) (range' 0 (2 + 1))) :=
    .untilDone (M := fun j => fs.NINDIR ^ (j + 1)) (fun _ => rfl) 2 0 fun j _ hj =>
      (dmpindir_dumps hn j (ip.di_ib j)).shift fun k hk => blockOf_indirect ip (by omega) hk
  simp only [dumpBlocks, NIADDR, range_eq_range']
  rcases le_or_gt ip.di_size (NDADDR * fs.fs_bsize) with hle | hgt
  · have hrec := fs.records_mono hle
    rw [fs.records_blocks] at hrec
    rw [min_eq_left hrec] at hdir
    rw [if_pos (by omega)]
    exact hdir
  · obtain ⟨s, hs⟩ := Nat.exists_eq_add_of_le hgt.le
    have hpos : 0 < s := by omega
    have hrest : s ≤ (firstBlock fs 3 - NDADDR) * fs.fs_bsize := by
      have := le_firstBlock fs
      rw [Nat.sub_mul]
      omega
    have hrec := fs.records_mono hrest
    rw [fs.records_blocks] at hrec
    have hsub : (ip.di_size : ℤ) - NDADDR * fs.fs_bsize = s := by
      rw [hs]
      push_cast
      omega
    rw [hs, fs.records_add, min_eq_right (Nat.le_add_right _ _), ← hs] at hdir
    rw [hsub, if_neg (by omega)]
    have hmore := hind.emits _ s hpos hdir.trecno htype'
    have hmin : min (fs.records s) ((firstBlock fs (0 + 2 + 1) - firstBlock fs 0) * fs.tbperdb) = fs.records s :=
      min_eq_left hrec
    have hst : firstBlock fs 0 = NDADDR := rfl
    rw [hmin, hst] at hmore
    rw [hs, fs.records_add, entries_add, zero_add, ← hs]
    exact hdir.trans hmore fun _ => by rw [entries, length_map, length_range', mul_mod_left]

end Uwisc.Dump
