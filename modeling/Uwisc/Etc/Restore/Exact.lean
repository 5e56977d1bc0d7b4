import Mathlib.Algebra.BigOperators.Group.List.Basic
import Mathlib.Data.List.Induction
import Uwisc.Etc.Dump.Spec

/-!
# What is extracted is what was dumped

A file that is dumped and extracted again. The records on the tape are headers, each followed by
as many records as it says (`Framed`). What the functions of `getfile` get is what the file has,
and the next header of a file is found, if and only if (`dump_restore`)

* the last record of the file is not in a hole, or is whole, or comes when the buffer is empty:
  otherwise the records that are in the buffer then are taken to end where the file does
  (`short_hole`);
* none of the records that the last fragment has after those of the file looks like a header
  that `findinode` looks for.
-/

namespace Uwisc.Dump

open Function Lib List

variable {fs : Fs} {disk : Mem} {fssize : ℕ}

/-- Headers, each followed by a record for each entry of it that is not zero. -/
inductive Framed : List Record → Prop
  | nil : Framed []
  | cons {h : Record} {data tape : List Record} : isGood h = true →
      data.length = ((asHeader h).c_addr.filter (· ≠ 0)).length → Framed tape → Framed (h :: (data ++ tape))

variable {tb size t s n : ℕ} {rs tape tape' : List Record} {r next : Record} {spcl : Header}
  {ip : Dinode} {ents : List (Option Record)} {blkp : ℕ → ℕ}

theorem Segs.framed (h : Segs tb size t rs ents) :
    Framed rs := by
  induction h with
  | nil => exact .nil
  | @cons t h seg ents tape _ hhead _ _ ih =>
    refine .cons hhead.good ?_ ih
    have hcnt := congrArg (fun l => (l.filter id).length) hhead.c_addr
    rw [reduceOption_length_eq]
    simpa [filter_map, comp_def] using hcnt.symm

/-! ### The loop over records -/

/-- The body of the loop of `getfile`. -/
def Get.step (fssize : ℕ) (g : Get) : Option Record → Get
  | some r => g.data fssize r
  | none => g.hole

@[simp] theorem Get.step_size (fssize : ℕ) (g : Get) (e : Option Record) :
    (g.step fssize e).size = g.size - TP_BSIZE := by
  cases e with
  | none =>
    simp only [step, hole, count]
    split_ifs <;> rfl
  | some r =>
    simp only [step, data, count]
    split_ifs <;> rfl

theorem foldl_step_size (fssize : ℕ) (l : List (Option Record)) (g : Get) :
    (l.foldl (Get.step fssize) g).size = g.size - l.length * TP_BSIZE := by
  induction l generalizing g with
  | nil => simp
  | cons e l ih =>
    rw [foldl_cons, ih, Get.step_size, length_cons, Int.natCast_add, Int.natCast_one, add_mul, one_mul, Int.sub_sub,
      add_comm]

/-- The loop of `getfile` goes through the records of a header, up to the one that the file ends in. -/
theorem getblks_eq (fssize : ℕ) {addr : List UInt8} {seg : List (Option Record)} (tape : List Record) (g : Get)
    (haddr : addr.map (fun a => decide (a ≠ 0)) = seg.map Option.isSome) (hsize : 0 < g.size) :
    getblks fssize addr (seg.reduceOption ++ tape) g =
      some ((seg.take (howmany g.size.toNat TP_BSIZE)).foldl (Get.step fssize) g,
        (seg.drop (howmany g.size.toNat TP_BSIZE)).reduceOption ++ tape) := by
  induction seg generalizing addr g with
  | nil =>
    obtain rfl : addr = [] := by simpa using haddr
    simp [getblks]
  | cons e seg ih =>
    cases addr with
    | nil => simp at haddr
    | cons a addr =>
      obtain ⟨ha, haddr⟩ := cons.inj haddr
      have hstep : getblks fssize (a :: addr) ((e :: seg).reduceOption ++ tape) g =
          if (g.step fssize e).size ≤ 0 then some (g.step fssize e, seg.reduceOption ++ tape)
          else getblks fssize addr (seg.reduceOption ++ tape) (g.step fssize e) := by
        cases e with
        | none =>
          obtain rfl : a = 0 := by simpa using ha
          rw [reduceOption_cons_of_none]
          rfl
        | some r =>
          have hne : a ≠ 0 := by simpa using ha
          rw [reduceOption_cons_of_some, cons_append, getblks, if_pos hne]
          rfl
      rw [hstep]
      -- The file ends in this record, or there is one less to go.
      have hnext := g.step_size fssize e
      simp only [TP_BSIZE, Nat.cast_ofNat] at hnext
      split_ifs with hend
      · have hone : howmany g.size.toNat TP_BSIZE = 1 := by
          simp only [howmany, TP_BSIZE]
          omega
        rw [hone]
        rfl
      · rw [not_le] at hend
        have hmore : howmany g.size.toNat TP_BSIZE = howmany (g.step fssize e).size.toNat TP_BSIZE + 1 := by
          simp only [howmany, TP_BSIZE]
          omega
        rw [hmore, ih _ haddr hend]
        rfl

/-! ### Headers -/

theorem Segs.cons_of_ne (h : Segs tb size t rs ents)
    (hne : ents ≠ []) : ∃ h seg tape, rs = h :: tape ∧ Headed size t seg h := by
  cases h with
  | nil => exact absurd rfl hne
  | cons _ hhead _ _ => exact ⟨_, _, _, rfl, hhead⟩

theorem Segs.eq_nil (h : Segs tb size t rs []) : rs = [] := by
  generalize hx : ([] : List (Option Record)) = ents at h
  cases h with
  | nil => rfl
  | cons hne _ _ _ => exact absurd (append_eq_nil_iff.1 hx.symm).1 hne

theorem gethead_of_good (hgood : isGood r = true)
    (htype : (asHeader r).c_type = TS_INODE ∨ (asHeader r).c_type = TS_ADDR ∨ (asHeader r).c_type = TS_END) :
    gethead r = .GOOD (asHeader r) := by
  rcases htype with h | h | h <;>
    simp [gethead, hgood, h, TS_INODE, TS_ADDR, TS_END, TS_CLRI, TS_BITS, TS_TAPE]

/-- What `getfile` does when no bytes are left. -/
def finish (g : Get) : List Record → Option (List Piece × Header × List Record)
  | [] => none
  | r :: tape =>
    match gethead r with
    | .panic => none
    | .FAIL spcl | .GOOD spcl => endfile g spcl tape

/-- One round of `getfile`. -/
theorem getloop_of_getblks {g g' : Get}
    (h : getblks fssize spcl.c_addr tape g = some (g', r :: tape')) : getloop fssize spcl tape g =
      match gethead r with
      | .panic => none
      | .FAIL spcl => endfile g' spcl tape'
      | .GOOD spcl =>
        if 0 < g'.size ∧ spcl.c_type = TS_ADDR then getloop fssize spcl tape' g' else endfile g' spcl tape' := by
  rw [getloop]
  split
  · next hnone => rw [h] at hnone; cases hnone
  · next hnil => rw [h] at hnil; cases hnil
  · next hcons =>
    rw [h] at hcons
    cases hcons
    rfl

theorem getloop_eq_finish {g g' : Get}
    (h : getblks fssize spcl.c_addr tape g = some (g', tape')) (hsize : g'.size ≤ 0) :
    getloop fssize spcl tape g = finish g' tape' := by
  cases tape' with
  | nil =>
    rw [getloop]
    split
    · rfl
    · rfl
    · next hcons => rw [h] at hcons; cases hcons
  | cons r tape' =>
    rw [getloop_of_getblks h, finish]
    split <;> simp [hsize.not_gt]

/-- `getfile` goes through the records of a file, up to the one it ends in, if the records after that one
    are of the same block. -/
theorem getloop_eq {h : Record}
    (rest : List Record) {g : Get} (htb : 0 < tb) (hsegs : Segs tb size t rs ents) (hrs : rs = h :: tape)
    (hsize : 0 < g.size) (heno : howmany g.size.toNat TP_BSIZE ≤ ents.length)
    (hblk : (ents.length - 1) / tb = (howmany g.size.toNat TP_BSIZE - 1) / tb) :
    getloop fssize (asHeader h) (tape ++ rest) g =
      finish ((ents.take (howmany g.size.toNat TP_BSIZE)).foldl (Get.step fssize) g)
        ((ents.drop (howmany g.size.toNat TP_BSIZE)).reduceOption ++ rest) := by
  induction hsegs generalizing h tape g with
  | nil => cases hrs
  | @cons t h' seg ents tape' hne hhead hwhl hents ih =>
    cases hrs
    have hblks := getblks_eq fssize (tape' ++ rest) g hhead.c_addr hsize
    rw [← append_assoc] at hblks
    have hleft := foldl_step_size fssize (seg.take (howmany g.size.toNat TP_BSIZE)) g
    have hneed : howmany g.size.toNat TP_BSIZE = (g.size.toNat + 1023) / 1024 := rfl
    generalize howmany g.size.toNat TP_BSIZE = need at *
    simp only [TP_BSIZE, Nat.cast_ofNat] at hleft
    rw [length_append] at heno hblk
    rcases le_or_gt need seg.length with hle | hgt
    · -- The file ends in this segment, and in its last block: there is no other segment.
      have hnil : ents = [] := by
        by_contra hne'
        obtain ⟨q, hq⟩ := Nat.dvd_of_mod_eq_zero (hwhl hne')
        have hpos := length_pos_of_ne_nil hne'
        have hlast : q ≤ (seg.length + ents.length - 1) / tb :=
          (Nat.le_div_iff_mul_le htb).2 (by rw [mul_comm]; omega)
        have hfst : (need - 1) / tb < q := Nat.div_lt_of_lt_mul (by omega)
        omega
      subst hnil
      obtain rfl := hents.eq_nil
      rw [length_take, min_eq_left hle] at hleft
      rw [nil_append] at hblks
      rw [append_nil, append_nil]
      rw [append_nil] at hblks
      exact getloop_eq_finish hblks (by omega)
    · -- The header of the next segment follows.
      rw [take_of_length_le hgt.le] at hleft
      rw [take_of_length_le hgt.le, drop_of_length_le hgt.le, reduceOption_nil, nil_append] at hblks
      have hnil : ents ≠ [] := fun hnil => by
        rw [hnil, length_nil, add_zero] at heno
        exact heno.not_gt hgt
      obtain ⟨h2, seg2, tape2, rfl, hhead2⟩ := hents.cons_of_ne hnil
      rw [getloop_of_getblks hblks, gethead_of_good hhead2.good (.inr (.inl hhead2.c_type))]
      have hpos : 0 < (seg.foldl (Get.step fssize) g).size := by omega
      have hneed2 : howmany (seg.foldl (Get.step fssize) g).size.toNat TP_BSIZE = need - seg.length := by
        simp only [howmany, TP_BSIZE]
        omega
      have hblo2 : (ents.length - 1) / tb = (need - seg.length - 1) / tb := by
        obtain ⟨q, hq⟩ := Nat.dvd_of_mod_eq_zero (hwhl hnil)
        have hlen : seg.length + ents.length - 1 = (ents.length - 1) + tb * q := by
          have := length_pos_of_ne_nil hnil
          omega
        have hlast : need - 1 = (need - seg.length - 1) + tb * q := by omega
        rw [hlen, hlast, Nat.add_mul_div_left _ _ htb, Nat.add_mul_div_left _ _ htb] at hblk
        exact Nat.add_right_cancel hblk
      have hmore := ih rfl hpos (by rw [hneed2]; omega) (by rw [hneed2]; exact hblo2)
      simp only [hpos, hhead2.c_type, and_self, if_true]
      rw [take_append, drop_append, take_of_length_le hgt.le, drop_of_length_le hgt.le,
        foldl_append, nil_append]
      rw [hneed2] at hmore
      exact hmore

/-! ### Pieces -/

/-- The bytes of a record of a file; those of a hole are zero. -/
def filled (e : Option Record) : Record := e.getD (replicate TP_BSIZE 0)

/-- What the functions of `getfile` got, and what is in the buffer. -/
def Get.written (g : Get) : List UInt8 := g.out.flatMap Piece.bytes ++ g.buf.flatten

/-- The records after the last hole. -/
def run (l : List (Option Record)) : ℕ := (l.reverse.takeWhile Option.isSome).length

@[simp] theorem run_nil : run [] = 0 := rfl

@[simp] theorem run_some (l : List (Option Record)) (r : Record) : run (l ++ [some r]) = run l + 1 := by
  simp [run]

@[simp] theorem run_none (l : List (Option Record)) : run (l ++ [none]) = 0 := by simp [run]

/-- After some records, none of which the file ends in. -/
structure Get.After (fssize : ℕ) (l : List (Option Record)) (g : Get) : Prop where
  written : g.written = l.flatMap filled
  whole : ∀ r ∈ g.buf, r.length = TP_BSIZE
  buf : g.buf.length = run l % (fssize / TP_BSIZE)

theorem length_flatten_whole {buf : List Record} (h : ∀ r ∈ buf, r.length = TP_BSIZE) :
    buf.flatten.length = buf.length * TP_BSIZE := by
  rw [length_flatten, map_congr_left h, map_const', sum_replicate]
  rfl

/-- What the functions of `getfile` get up to its end. -/
def Get.pieces (g : Get) : List Piece := (if g.buf ≠ [] then g.flush (g.buf.length * TP_BSIZE + g.size) else g).out

/-- The bytes of a record that are in the file. -/
def Get.taken (g : Get) : ℕ := if TP_BSIZE < g.size then TP_BSIZE else g.size.toNat

theorem Get.data_full (hdvd : TP_BSIZE ∣ fssize) {g : Get} (hsize : 0 < g.size)
    (hfull : g.buf.length + 1 = fssize / TP_BSIZE) (r : Record) :
    g.data fssize r =
      ⟨[], g.size - TP_BSIZE, g.out ++ [.f1 ((g.buf ++ [r]).flatten.take (g.buf.length * TP_BSIZE + g.taken))]⟩ := by
  have hlen : (if (TP_BSIZE : ℤ) < g.size then (fssize : ℤ) else ((g.buf ++ [r]).length - 1) * TP_BSIZE + g.size).toNat =
      g.buf.length * TP_BSIZE + g.taken := by
    have hfss := Nat.div_mul_cancel hdvd
    rw [← hfull] at hfss
    rw [length_append, length_singleton, taken]
    by_cases hmore : (TP_BSIZE : ℤ) < g.size
    · rw [if_pos hmore, if_pos hmore, Int.toNat_natCast, ← hfss, Nat.succ_mul]
    · rw [if_neg hmore, if_neg hmore]
      simp only [TP_BSIZE]
      omega
  rw [data]
  simp only [length_append, length_singleton, if_pos hfull] at hlen ⊢
  rw [flush, count, hlen]

theorem Get.data_part {g : Get} (hpart : g.buf.length + 1 ≠ fssize / TP_BSIZE) (r : Record) :
    g.data fssize r = ⟨g.buf ++ [r], g.size - TP_BSIZE, g.out⟩ := by
  rw [data]
  simp only [length_append, length_singleton, if_neg hpart]
  rfl

/-- At a hole, the last of the records in the buffer is cut as if it were the one in the hole. -/
theorem Get.hole_full {g : Get} (hsize : 0 < g.size) (hbuf : g.buf ≠ []) :
    g.hole = ⟨[], g.size - TP_BSIZE,
      g.out ++ [.f1 (g.buf.flatten.take ((g.buf.length - 1) * TP_BSIZE + g.taken)), .f2 g.taken]⟩ := by
  have hlen : (if (TP_BSIZE : ℤ) < g.size then (g.buf.length : ℤ) * TP_BSIZE
      else (g.buf.length - 1) * TP_BSIZE + g.size).toNat = (g.buf.length - 1) * TP_BSIZE + g.taken := by
    have hpos := length_pos_of_ne_nil hbuf
    rw [taken]
    by_cases hmore : (TP_BSIZE : ℤ) < g.size
    · rw [if_pos hmore, if_pos hmore]
      simp only [TP_BSIZE]
      omega
    · rw [if_neg hmore, if_neg hmore]
      simp only [TP_BSIZE]
      omega
  rw [hole]
  simp only [if_pos hbuf, flush, count, hlen, taken, append_assoc, singleton_append]

theorem Get.hole_empty {g : Get} (hbuf : g.buf = []) :
    g.hole = ⟨[], g.size - TP_BSIZE, g.out ++ [.f2 g.taken]⟩ := by
  rw [hole]
  simp only [hbuf, ne_eq, not_true_eq_false, if_false, count, taken]

namespace Get.After

variable {l : List (Option Record)} {g : Get}

/-- The records in the buffer, and those that are read to it. -/
theorem whole_append (h : After fssize l g) {r : Record} (hr : r.length = TP_BSIZE) :
    ∀ r' ∈ g.buf ++ [r], r'.length = TP_BSIZE := by
  intro r' hr'
  rcases mem_append.1 hr' with hmem | hmem
  · exact h.whole r' hmem
  · rw [mem_singleton.1 hmem, hr]

theorem mod_succ {n w : ℕ} (hw : 0 < w) : (n + 1) % w = if n % w + 1 = w then 0 else n % w + 1 := by
  have hlt := Nat.mod_lt n hw
  rw [← Nat.mod_add_mod]
  split_ifs with hfull
  · rw [hfull, Nat.mod_self]
  · exact Nat.mod_eq_of_lt (by omega)

/-- Nothing is lost or added, and the buffer is given away when it is full and at a hole. -/
theorem step (hw : 0 < fssize / TP_BSIZE) (hdvd : TP_BSIZE ∣ fssize) (h : After fssize l g) {e : Option Record}
    (he : ∀ r, e = some r → r.length = TP_BSIZE) (hmore : (TP_BSIZE : ℤ) < g.size) :
    After fssize (l ++ [e]) (g.step fssize e) := by
  have hwri := h.written
  have hsize : 0 < g.size := (by decide : (0 : ℤ) < TP_BSIZE).trans hmore
  have htkn : g.taken = TP_BSIZE := if_pos hmore
  rw [Get.written] at hwri
  cases e with
  | none =>
    by_cases hbuf : g.buf = []
    · rw [Get.step, Get.hole_empty hbuf, htkn]
      rw [hbuf] at hwri
      exact ⟨by simpa [Get.written, filled, Piece.bytes] using hwri, by simp, by simp⟩
    · have hlen : (g.buf.length - 1) * TP_BSIZE + TP_BSIZE = g.buf.flatten.length := by
        rw [length_flatten_whole h.whole, ← Nat.succ_mul, Nat.succ_eq_add_one,
          Nat.sub_add_cancel (length_pos_of_ne_nil hbuf)]
      rw [Get.step, Get.hole_full hsize hbuf, htkn, hlen, take_length]
      exact ⟨by simp [Get.written, filled, Piece.bytes, ← hwri], by simp, by simp⟩
  | some r =>
    have hr := he r rfl
    have hmod := mod_succ (n := run l) hw
    rw [← h.buf] at hmod
    by_cases hfull : g.buf.length + 1 = fssize / TP_BSIZE
    · have hlen : g.buf.length * TP_BSIZE + TP_BSIZE = (g.buf ++ [r]).flatten.length := by
        rw [length_flatten_whole (h.whole_append hr), length_append, length_singleton, Nat.succ_mul]
      rw [Get.step, Get.data_full hdvd hsize hfull, htkn, hlen, take_length]
      rw [if_pos hfull] at hmod
      exact ⟨by simp [Get.written, filled, Piece.bytes, ← hwri], by simp, by simp [hmod]⟩
    · rw [Get.step, Get.data_part hfull]
      rw [if_neg hfull] at hmod
      exact ⟨by simp [Get.written, filled, ← hwri], h.whole_append hr, by simp [hmod]⟩

/-- With the record that the file ends in, the functions get what is left of the file, but for a hole of
    less than a record that comes when something is in the buffer. -/
theorem last (hdvd : TP_BSIZE ∣ fssize) (h : After fssize l g) {e : Option Record}
    (he : ∀ r, e = some r → r.length = TP_BSIZE) (hsize : 0 < g.size) (hlast : g.size ≤ TP_BSIZE) :
    (g.step fssize e).pieces.flatMap Piece.bytes = l.flatMap filled ++ (filled e).take g.size.toNat ↔
      g.size = TP_BSIZE ∨ e ≠ none ∨ run l % (fssize / TP_BSIZE) = 0 := by
  have hwri := h.written
  rw [Get.written] at hwri
  have htkn : g.taken = g.size.toNat := if_neg hlast.not_gt
  have hle : g.size.toNat ≤ TP_BSIZE := Int.toNat_le.2 hlast
  rw [← hwri, ← h.buf]
  cases e with
  | none =>
    have hzero : (filled none).take g.size.toNat = replicate g.size.toNat 0 := by
      rw [filled, Option.getD_none, take_replicate, min_eq_left hle]
    by_cases hbuf : g.buf = []
    · rw [Get.step, Get.hole_empty hbuf, htkn, hzero, hbuf]
      simp [Get.pieces, Piece.bytes]
    · have hpos := length_pos_of_ne_nil hbuf
      have hfla := length_flatten_whole h.whole
      rw [Get.step, Get.hole_full hsize hbuf, htkn, hzero]
      simp only [Get.pieces, ne_eq, not_true_eq_false, if_false, flatMap_append, flatMap_cons, Piece.bytes,
        flatMap_nil, append_nil, append_assoc, append_cancel_left_eq, append_cancel_right_eq,
        length_eq_zero_iff, hbuf, or_self, or_false]
      rw [take_eq_self_iff, hfla]
      simp only [TP_BSIZE] at hle ⊢
      omega
  | some r =>
    have hr := he r rfl
    refine iff_of_true ?_ (.inr (.inl (Option.some_ne_none r)))
    -- The records before this one are taken whole.
    have hcut : (g.buf ++ [r]).flatten.take (g.buf.length * TP_BSIZE + g.size.toNat) =
        g.buf.flatten ++ r.take g.size.toNat := by
      rw [flatten_concat, ← length_flatten_whole h.whole, take_length_add_append]
    by_cases hfull : g.buf.length + 1 = fssize / TP_BSIZE
    · rw [Get.step, Get.data_full hdvd hsize hfull, htkn, hcut]
      simp [Get.pieces, Piece.bytes, filled]
    · have hlen : ((g.buf ++ [r]).length * TP_BSIZE + (g.size - TP_BSIZE) : ℤ).toNat =
          g.buf.length * TP_BSIZE + g.size.toNat := by
        rw [length_append, length_singleton]
        simp only [TP_BSIZE]
        omega
      rw [Get.step, Get.data_part hfull]
      simp only [Get.pieces, Get.flush, hlen, hcut]
      simp [Piece.bytes, filled]

/-- The buffer is empty before the first record. -/
theorem start (fssize : ℕ) (size : ℤ) : After fssize [] ⟨[], size, []⟩ := ⟨rfl, fun _ h => absurd h not_mem_nil, rfl⟩

/-- The records before the one the file ends in. -/
theorem foldl (hw : 0 < fssize / TP_BSIZE) (hdvd : TP_BSIZE ∣ fssize) {l : List (Option Record)} {size : ℤ}
    (hl : ∀ r, some r ∈ l → r.length = TP_BSIZE) (hsize : (l.length * TP_BSIZE : ℤ) < size) :
    After fssize l (l.foldl (Get.step fssize) ⟨[], size, []⟩) := by
  induction l using reverseRecOn with
  | nil => exact start fssize size
  | append_singleton l e ih =>
    rw [length_append, length_singleton, Int.natCast_add, Int.natCast_one, add_mul, one_mul] at hsize
    have hpos : (0 : ℤ) < TP_BSIZE := by decide
    have hbef := ih (fun r hr => hl r (mem_append_left _ hr)) (by omega)
    have hleft := foldl_step_size fssize l ⟨[], size, []⟩
    rw [foldl_append]
    exact hbef.step hw hdvd (fun r hr => hl r (mem_append_right _ (hr ▸ mem_singleton_self e)))
      (by rw [hleft]; simp only; omega)

end Get.After

/-! ### The end of a file -/

/-- `gethead` and `findinode` do not take the record that comes first after those of a file for a header. -/
def notFirst (r : Record) : Bool :=
  match gethead r with
  | .panic => false
  | .FAIL h | .GOOD h => ¬(h.c_magic = NFS_MAGIC ∧ h.found)

/-- `findinode` goes on after the record. -/
def notFound (r : Record) : Bool :=
  match gethead r with
  | .panic => false
  | .FAIL _ => true
  | .GOOD h => !h.found

/-- The records that a file has after its last one are gone through. -/
def Skipped : List Record → Prop
  | [] => True
  | r :: l => notFirst r = true ∧ ∀ r' ∈ l, notFound r' = true

instance : DecidablePred Skipped
  | [] => .isTrue trivial
  | r :: l => inferInstanceAs (Decidable (notFirst r = true ∧ ∀ r' ∈ l, notFound r' = true))

theorem skipTo_eq_iff (l after : List Record) (hnext : gethead next = .GOOD (asHeader next))
    (hfnd : (asHeader next).found = true) :
    skipTo (l ++ next :: after) = some (asHeader next, after) ↔ ∀ r ∈ l, notFound r = true := by
  induction l with
  | nil => simp [skipTo, hnext, hfnd]
  | cons r l ih =>
    rw [forall_mem_cons, cons_append, skipTo, notFound]
    cases hr : gethead r with
    | panic => simp
    | FAIL h => simpa using ih
    | GOOD h =>
      simp only [Bool.not_eq_eq_eq_not, Bool.not_true]
      cases hh : h.found with
      | true =>
        -- More is left than after the header.
        refine iff_of_false (fun heq => ?_) (by simp)
        have hlen := congrArg length (Prod.mk.inj (Option.some.inj heq)).2
        rw [length_append, length_cons] at hlen
        omega
      | false => simpa using ih

theorem endfile_eq (g : Get) (spcl : Header) (tape : List Record) :
    endfile g spcl tape = (findinode spcl tape).map fun (spcl, tape) => (g.pieces, spcl, tape) := rfl

theorem finish_eq_iff {g : Get} {l after : List Record} {out : List Piece}
    (hnext : gethead next = .GOOD (asHeader next)) (hfnd : (asHeader next).found = true)
    (hmag : (asHeader next).c_magic = NFS_MAGIC) :
    finish g (l ++ next :: after) = some (out, asHeader next, after) ↔ g.pieces = out ∧ Skipped l := by
  cases l with
  | nil => simp [finish, hnext, endfile_eq, findinode, hfnd, hmag, Skipped]
  | cons r l =>
    have hskip := skipTo_eq_iff l after hnext hfnd
    have hend : ∀ h : Header, endfile g h (l ++ next :: after) = some (out, asHeader next, after) ↔
        g.pieces = out ∧ ¬(h.c_magic = NFS_MAGIC ∧ h.found = true) ∧ ∀ r' ∈ l, notFound r' = true := by
      intro h
      rw [endfile_eq, findinode]
      split_ifs with hh
      · refine iff_of_false (fun heq => ?_) (fun h => h.2.1 hh)
        simp only [Option.map_some, Option.some.injEq, Prod.mk.injEq] at heq
        have hlen := congrArg length heq.2.2
        rw [length_append, length_cons] at hlen
        omega
      · rw [← hskip]
        simp only [hh, not_false_eq_true, true_and, Option.map_eq_some_iff]
        constructor
        · rintro ⟨⟨h', tape⟩, hsome, heq⟩
          simp only [Prod.mk.injEq] at heq
          obtain ⟨rfl, rfl, rfl⟩ := heq
          exact ⟨rfl, hsome⟩
        · rintro ⟨rfl, hsome⟩
          exact ⟨_, hsome, rfl⟩
    rw [cons_append, finish, Skipped, notFirst]
    cases hr : gethead r with
    | panic => simp
    | FAIL h => simpa only [decide_eq_true_eq] using hend h
    | GOOD h => simpa only [decide_eq_true_eq] using hend h

/-! ### The bytes of a file -/

/-- The byte of a file at an offset. -/
def byteAt (fs : Fs) (disk : Mem) (ip : Dinode) (o : ℕ) : UInt8 :=
  let b := blockOf fs disk ip (o / fs.fs_bsize)
  if b = 0 then 0 else disk (fs.fsbtodb b * DEV_BSIZE + o % fs.fs_bsize)

/-- The bytes of a file. -/
def contents (fs : Fs) (disk : Mem) (ip : Dinode) : List UInt8 := (range ip.di_size).map (byteAt fs disk ip)

theorem filled_entry (fs : Fs) (disk : Mem) (ip : Dinode) (j : ℕ) :
    filled (entry fs disk (blockOf fs disk ip) j) = (range' (j * TP_BSIZE) TP_BSIZE).map (byteAt fs disk ip) := by
  have hblk : ∀ k < TP_BSIZE, (j * TP_BSIZE + k) / fs.fs_bsize = j / fs.tbperdb ∧
      (j * TP_BSIZE + k) % fs.fs_bsize = j % fs.tbperdb * TP_BSIZE + k := fun k hk => by
    rw [← fs.tbperdb_mul, mul_comm fs.tbperdb, ← Nat.div_div_eq_div_mul, Nat.mod_mul, add_comm,
      Nat.add_mul_div_right _ _ (by decide), Nat.div_eq_of_lt hk, zero_add, Nat.add_mul_mod_self_right,
      Nat.mod_eq_of_lt hk, add_comm, mul_comm TP_BSIZE]
    exact ⟨rfl, rfl⟩
  rw [range'_eq_map_range, map_map, entry]
  by_cases hb : blockOf fs disk ip (j / fs.tbperdb) = 0
  · simp only [hb, if_true, filled, Option.getD_none]
    have hzero : ∀ k ∈ range TP_BSIZE, (byteAt fs disk ip ∘ fun k => j * TP_BSIZE + k) k = 0 := fun k hk => by
      simp only [comp_apply, byteAt, (hblk k (mem_range.1 hk)).1, hb, if_true]
    rw [map_congr_left hzero, map_const', length_range]
  · simp only [hb, if_false, filled, Option.getD_some, bytes]
    refine map_congr_left fun k hk => ?_
    obtain ⟨hdiv, hmod⟩ := hblk k (mem_range.1 hk)
    simp only [comp_apply, byteAt, hdiv, hb, if_false, hmod, add_assoc]

theorem flatMap_filled (fs : Fs) (disk : Mem) (ip : Dinode) (n : ℕ) :
    (entries fs disk (blockOf fs disk ip) 0 n).flatMap filled =
      (range (n * TP_BSIZE)).map (byteAt fs disk ip) := by
  induction n with
  | zero => simp [entries]
  | succ n ih =>
    rw [entries_add, flatMap_append, ih, Nat.succ_mul, range_eq_range', range_eq_range',
      ← range'_append_1, map_append, zero_add, zero_add, ← filled_entry]
    simp [entries]

/-! ### Files -/

/-- The records of a file. -/
def fileEntries (fs : Fs) (disk : Mem) (ip : Dinode) : List (Option Record) :=
  entries fs disk (blockOf fs disk ip) 0 (fs.records ip.di_size)

/-- The file ends in a record that is whole or not in a hole, or when the buffer is empty, and the records
    after that one are not taken for headers. -/
def Clean (fs : Fs) (disk : Mem) (ip : Dinode) (fssize : ℕ) : Prop :=
  let n := howmany ip.di_size TP_BSIZE
  (ip.di_size % TP_BSIZE = 0 ∨ blockOf fs disk ip ((n - 1) / fs.tbperdb) ≠ 0 ∨
    run ((fileEntries fs disk ip).take (n - 1)) % (fssize / TP_BSIZE) = 0) ∧
  Skipped ((fileEntries fs disk ip).drop n).reduceOption

theorem howmany_pos (hs : 0 < s) : 0 < howmany s TP_BSIZE :=
  Nat.div_pos (Nat.le_sub_one_of_lt (Nat.lt_add_of_pos_left hs)) (by decide)

theorem howmany_cut (hpos : 0 < s) (hs : s ≤ TP_BSIZE) : howmany (n * TP_BSIZE + s) TP_BSIZE = n + 1 := by
  have hone : howmany s TP_BSIZE = 1 := by
    simp only [howmany, TP_BSIZE] at hs ⊢
    omega
  rw [howmany_add (by decide), hone]

/-- There are records for the whole file, and those after its last one are of the same block. -/
theorem records_bounds (fs : Fs) (hsize : 0 < size) :
    howmany size TP_BSIZE ≤ fs.records size ∧
      (fs.records size - 1) / fs.tbperdb = (howmany size TP_BSIZE - 1) / fs.tbperdb := by
  rcases fs.bsize with h | h <;> rcases fs.frag with h' | h' | h' | h' <;>
    simp only [Fs.records, Fs.tbperdb, Fs.fs_fsize, h, h', howmany, TP_BSIZE] <;> omega

theorem some_mem_entries {i : ℕ} (h : some r ∈ entries fs disk blkp i n) :
    r.length = TP_BSIZE := by
  obtain ⟨j, -, hj⟩ := List.mem_map.1 h
  rw [entry] at hj
  split_ifs at hj
  rw [← Option.some.inj hj, length_bytes]

theorem take_entries {N : ℕ} (h : n ≤ N) :
    (entries fs disk blkp 0 N).take n = entries fs disk blkp 0 n := by
  obtain ⟨k, rfl⟩ := Nat.exists_eq_add_of_le h
  rw [entries_add, take_left' (by rw [entries, length_map, length_range'])]

theorem entries_succ (n : ℕ) :
    entries fs disk blkp 0 (n + 1) = entries fs disk blkp 0 n ++ [entry fs disk blkp n] := by
  rw [entries_add, zero_add]
  rfl

theorem found_of_type {h : Header} (htype : h.c_type = TS_INODE ∨ h.c_type = TS_END) : h.found = true :=
  decide_eq_true (htype.imp_right .inl)

/-- The contents of a file, cut at its last record. -/
theorem contents_eq (fs : Fs) (disk : Mem) (hs : s ≤ TP_BSIZE) (hsize : ip.di_size = n * TP_BSIZE + s) :
    contents fs disk ip = (entries fs disk (blockOf fs disk ip) 0 n).flatMap filled ++
      (filled (entry fs disk (blockOf fs disk ip) n)).take s := by
  have hlen : ((entries fs disk (blockOf fs disk ip) 0 n).flatMap filled).length = n * TP_BSIZE := by
    rw [flatMap_filled, length_map, length_range]
  have htot := flatMap_filled fs disk ip (n + 1)
  rw [entries_succ, flatMap_append, flatMap_singleton] at htot
  rw [← take_length_add_append, hlen, htot, ← map_take, take_range, ← hsize, contents,
    min_eq_left (by rw [hsize, Nat.succ_mul]; exact Nat.add_le_add_left hs _)]

/-- The pieces of a file that is not empty are what is in it, unless it ends in a hole of less than a record
    when the buffer is not empty. -/
theorem pieces_eq_contents_iff (fs : Fs) (disk : Mem) (hw : 0 < fssize / TP_BSIZE) (hdvd : TP_BSIZE ∣ fssize)
    (hpos : 0 < s) (hs : s ≤ TP_BSIZE) (hsize : ip.di_size = n * TP_BSIZE + s) :
    ((entries fs disk (blockOf fs disk ip) 0 (n + 1)).foldl (Get.step fssize) ⟨[], ip.di_size, []⟩).pieces.flatMap
        Piece.bytes = contents fs disk ip ↔
      s = TP_BSIZE ∨ blockOf fs disk ip (n / fs.tbperdb) ≠ 0 ∨
        run (entries fs disk (blockOf fs disk ip) 0 n) % (fssize / TP_BSIZE) = 0 := by
  set l := entries fs disk (blockOf fs disk ip) 0 n
  set e := entry fs disk (blockOf fs disk ip) n with he
  have hlen : l.length = n := by simp [l, entries]
  have hbef : Get.After fssize l (l.foldl (Get.step fssize) ⟨[], ip.di_size, []⟩) :=
    .foldl hw hdvd (fun r => some_mem_entries) (by rw [hlen, hsize, Int.natCast_add, Int.natCast_mul]; omega)
  have hleft : (l.foldl (Get.step fssize) ⟨[], ip.di_size, []⟩).size = s := by
    rw [foldl_step_size, hlen, hsize, Int.natCast_add, Int.natCast_mul]
    simp only
    omega
  have hlast := hbef.last (e := e) hdvd (fun r hr => some_mem_entries (i := n) (n := 1) (mem_singleton.2 hr.symm))
    (by rw [hleft]; exact Int.natCast_pos.2 hpos) (by rw [hleft]; exact Int.ofNat_le.2 hs)
  have hhole : e ≠ none ↔ blockOf fs disk ip (n / fs.tbperdb) ≠ 0 := by
    rw [he, entry]
    split_ifs with hb <;> simp [hb]
  rw [hleft, Int.toNat_natCast, hhole, Int.natCast_inj] at hlast
  rw [entries_succ, foldl_append, contents_eq fs disk hs hsize]
  exact hlast

/-- What `getfile` does with a file that is not empty. -/
theorem getfile_of_segs (fssize : ℕ) (hsize : 0 < ip.di_size)
    (hsegs : Segs fs.tbperdb ip.di_size TS_INODE rs (fileEntries fs disk ip)) :
    ∃ h tape, rs = h :: tape ∧ ∀ rest, getfile fssize (asHeader h) (tape ++ rest) =
      finish (((fileEntries fs disk ip).take (howmany ip.di_size TP_BSIZE)).foldl (Get.step fssize) ⟨[], ip.di_size, []⟩)
        (((fileEntries fs disk ip).drop (howmany ip.di_size TP_BSIZE)).reduceOption ++ rest) := by
  obtain ⟨hneed, hblk⟩ := records_bounds fs hsize
  have hlen : (fileEntries fs disk ip).length = fs.records ip.di_size := by simp [fileEntries, entries]
  obtain ⟨h, seg, tape, rfl, hhead⟩ := hsegs.cons_of_ne (ne_nil_of_length_pos
    (by rw [hlen]; exact (howmany_pos hsize).trans_le hneed))
  refine ⟨h, tape, rfl, fun rest => ?_⟩
  have hhea : ¬((asHeader h).c_type = TS_END ∨ (asHeader h).c_magic ≠ NFS_MAGIC) := by
    rw [hhead.c_type, not_or, not_not]
    exact ⟨by decide, (of_decide_eq_true hhead.good).1⟩
  rw [getfile, if_neg hhea, hhead.di_size]
  exact getloop_eq rest fs.tbperdb_pos hsegs rfl (Int.natCast_pos.2 hsize) (by rw [hlen]; exact hneed)
    (by rw [hlen]; exact hblk)

theorem clean_iff (hpos : 0 < s) (hs : s ≤ TP_BSIZE) (hsize : ip.di_size = n * TP_BSIZE + s) :
    Clean fs disk ip fssize ↔ (s = TP_BSIZE ∨ blockOf fs disk ip (n / fs.tbperdb) ≠ 0 ∨
        run (entries fs disk (blockOf fs disk ip) 0 n) % (fssize / TP_BSIZE) = 0) ∧
      Skipped ((fileEntries fs disk ip).drop (n + 1)).reduceOption := by
  have hneed := (records_bounds fs (hsize ▸ Nat.add_pos_right _ hpos : 0 < ip.di_size)).1
  have hmod : ip.di_size % TP_BSIZE = 0 ↔ s = TP_BSIZE := by
    rw [hsize, Nat.mul_add_mod']
    simp only [TP_BSIZE] at hs ⊢
    omega
  have hn : howmany ip.di_size TP_BSIZE = n + 1 := hsize ▸ howmany_cut hpos hs
  rw [hn] at hneed
  simp only [Clean, hmod, hn, Nat.add_sub_cancel]
  rw [fileEntries, take_entries (Nat.le_of_succ_le hneed)]

/-- A file that is not empty, and that is on the tape before another one or the end, is extracted if and only
    if it is `Clean`. -/
theorem getfile_iff_clean (hsize : 0 < ip.di_size)
    (hsegs : Segs fs.tbperdb ip.di_size TS_INODE rs (fileEntries fs disk ip)) (hpos : 0 < fssize)
    (hdvd : TP_BSIZE ∣ fssize) (hnext : isGood next = true)
    (htype : (asHeader next).c_type = TS_INODE ∨ (asHeader next).c_type = TS_END) (after : List Record) :
    ∃ h tape, rs = h :: tape ∧
      ((∃ out, getfile fssize (asHeader h) (tape ++ next :: after) = some (out, asHeader next, after) ∧
        out.flatMap Piece.bytes = contents fs disk ip) ↔ Clean fs disk ip fssize) := by
  have hw : 0 < fssize / TP_BSIZE := Nat.div_pos (Nat.le_of_dvd hpos hdvd) (by decide)
  obtain ⟨h, tape, rfl, hget⟩ := getfile_of_segs fssize hsize hsegs
  -- The file ends in the record `n`, which has `s` bytes of it.
  obtain ⟨n, s, hs, hs', hcut⟩ : ∃ n s, 0 < s ∧ s ≤ TP_BSIZE ∧ ip.di_size = n * TP_BSIZE + s := by
    refine ⟨(ip.di_size - 1) / TP_BSIZE, (ip.di_size - 1) % TP_BSIZE + 1, Nat.succ_pos _, Nat.mod_lt _ (by decide), ?_⟩
    rw [← add_assoc, Nat.div_add_mod', Nat.sub_add_cancel hsize]
  have hn : howmany ip.di_size TP_BSIZE = n + 1 := hcut ▸ howmany_cut hs hs'
  have htake : (fileEntries fs disk ip).take (n + 1) = entries fs disk (blockOf fs disk ip) 0 (n + 1) :=
    take_entries (hn ▸ (records_bounds fs hsize).1)
  refine ⟨h, tape, rfl, ?_⟩
  rw [clean_iff hs hs' hcut, ← pieces_eq_contents_iff fs disk hw hdvd hs hs' hcut, hget, hn, htake]
  simp only [finish_eq_iff (gethead_of_good hnext (htype.imp_right .inr)) (found_of_type htype) (of_decide_eq_true hnext).1]
  constructor
  · rintro ⟨out, ⟨rfl, hskip⟩, hout⟩
    exact ⟨hout, hskip⟩
  · rintro ⟨hout, hskip⟩
    exact ⟨_, ⟨rfl, hskip⟩, hout⟩

theorem clean_empty (hsize : ip.di_size = 0) : Clean fs disk ip fssize := by
  simp only [Clean, fileEntries, hsize, fs.records_zero]
  exact ⟨.inl rfl, trivial⟩

/-- What is dumped of an inode. -/
def Out.inode (o : Out) (ip : Dinode) : Out :=
  { o with spcl := { o.spcl with c_dinode := ip, c_type := TS_INODE, c_count := 0 } }

/-- A regular file that is not empty is dumped as segments. -/
theorem dump_segs (fs : Fs) {ntrec : ℕ} (hn : 0 < ntrec) (ino : ℕ) (disk : Mem)
    (hreg : ip.di_mode &&& IFMT = IFREG) (hpos : 0 < ip.di_size) (hsize : ip.di_size < 2 ^ 31) {o : Out}
    (ho : o.trecno < ntrec) :
    ∃ rs, (dump fs ntrec ino disk ip o).tape = o.tape ++ rs ∧
      Segs fs.tbperdb ip.di_size TS_INODE rs (fileEntries fs disk ip) := by
  have hemits : Emits fs ntrec (o.inode ip) (dumpBlocks fs ntrec ino disk ip (o.inode ip)) (fileEntries fs disk ip) :=
    dumpBlocks_emits hn hsize ho (by decide : TS_INODE < 2 ^ 32)
  have hmode : IFREG ≠ 0 ∧ ¬(IFREG ≠ IFDIR ∧ IFREG ≠ IFREG ∧ IFREG ≠ IFLNK) := by decide
  have hdump : dump fs ntrec ino disk ip o = dumpBlocks fs ntrec ino disk ip (o.inode ip) := by
    simp only [dump, hreg, hmode, hpos.ne', or_false, if_false]
    rfl
  rw [hdump]
  exact hemits.tape

/-- A regular file that is dumped: the records on the tape are headers, each followed by as many records as
    it says, and what is extracted is the file, up to the next header of one, if and only if it is `Clean`. -/
theorem dump_restore (fs : Fs) {ntrec : ℕ} (hn : 0 < ntrec) (ino : ℕ) (disk : Mem) {ip : Dinode}
    (hreg : ip.di_mode &&& IFMT = IFREG) (hsize : ip.di_size < 2 ^ 31) {o : Out} (ho : o.trecno < ntrec) {fssize : ℕ}
    (hpos : 0 < fssize) (hdvd : TP_BSIZE ∣ fssize) {next : Record} (hnext : isGood next = true)
    (htype : (asHeader next).c_type = TS_INODE ∨ (asHeader next).c_type = TS_END) (after : List Record) :
    ∃ h tape, (dump fs ntrec ino disk ip o).tape = o.tape ++ h :: tape ∧ Framed (h :: tape) ∧
      ((∃ out, getfile fssize (asHeader h) (tape ++ next :: after) = some (out, asHeader next, after) ∧
        out.flatMap Piece.bytes = contents fs disk ip) ↔ Clean fs disk ip fssize) := by
  rcases Nat.eq_zero_or_pos ip.di_size with hzero | hne
  · -- There is only a header, without records.
    set s : Spcl := { (o.inode ip).spcl with c_inumber := ino }
    have hmode : IFREG ≠ 0 ∧ ¬(IFREG ≠ IFDIR ∧ IFREG ≠ IFREG ∧ IFREG ≠ IFLNK) := by decide
    have htape : (dump fs ntrec ino disk ip o).tape = o.tape ++ [sealed s] := by
      simp only [dump, hreg, hmode, hzero, or_true, if_true, if_false]
      exact (flusht_puts hn { o with spcl := s } [sealed s]).tape
    have hread : asHeader (sealed s) = ⟨TS_INODE, NFS_MAGIC, ip.di_size, []⟩ :=
      asHeader_spclBytes s _ (by decide : TS_INODE < 2 ^ 32) (Nat.zero_le _)
    have hfra : Framed (sealed s :: ([] ++ [])) := .cons (isGood_sealed s) (by rw [hread]; rfl) .nil
    have hget : getfile fssize (asHeader (sealed s)) ([] ++ next :: after) = some ([], asHeader next, after) := by
      rw [hread, hzero, getfile, if_neg (by decide), getloop_eq_finish rfl le_rfl,
        finish_eq_iff (gethead_of_good hnext (htype.imp_right .inr)) (found_of_type htype) (of_decide_eq_true hnext).1]
      exact ⟨rfl, trivial⟩
    exact ⟨sealed s, [], htape, hfra, iff_of_true ⟨[], hget, by rw [contents, hzero]; rfl⟩ (clean_empty hzero)⟩
  · obtain ⟨rs, htape, hsegs⟩ := dump_segs fs hn ino disk hreg hne hsize ho
    obtain ⟨h, tape, rfl, hiff⟩ := getfile_iff_clean hne hsegs hpos hdvd hnext htype after
    exact ⟨h, tape, htape, hsegs.framed, hiff⟩

/-! ### A short hole at the end -/

/-- An inode of a regular file with one block. -/
def oneBlock (di_size : ℕ) : Dinode :=
  storeNum 4 (storeNum 4 (storeNum 2 (fun _ => 0) 0 IFREG) 8 di_size) 40 100

/-- Fragments of the size of a record. -/
def fs₀ : Fs := ⟨4096, 4, .inl rfl, .inr (.inr (.inl rfl))⟩

def spcl₀ : Spcl := ⟨TS_END, 0, 0, 0, 0, 0, fun _ => 0, 0, fun _ => 0⟩

theorem isGood_end : isGood (sealed spcl₀) = true := isGood_sealed spcl₀

theorem c_type_end : (asHeader (sealed spcl₀)).c_type = TS_END := by
  rw [sealed, asHeader_spclBytes _ _ (by decide) (by decide)]
  rfl

/-- A file of 100 bytes is extracted. -/
theorem dump_restore_small : ∃ h tape,
    (dump fs₀ 10 2 (fun _ => 7) (oneBlock 100) ⟨spcl₀, 0, []⟩).tape = [] ++ h :: tape ∧ Framed (h :: tape) ∧
      ∃ out, getfile 8192 (asHeader h) (tape ++ [sealed spcl₀]) = some (out, asHeader (sealed spcl₀), []) ∧
        out.flatMap Piece.bytes = contents fs₀ (fun _ => 7) (oneBlock 100) := by
  obtain ⟨h, tape, htape, hfra, hiff⟩ := dump_restore fs₀ (by decide : 0 < 10) 2 (fun _ => 7)
    (by decide : (oneBlock 100).di_mode &&& IFMT = IFREG) (by decide) (by decide : (⟨spcl₀, 0, []⟩ : Out).trecno < 10)
    (by decide : 0 < 8192) (by decide) isGood_end (.inr c_type_end) []
  exact ⟨h, tape, htape, hfra, hiff.2 ⟨.inr (.inl (by decide)), by decide⟩⟩

/-- A file of a block and a hole of 100 bytes is not extracted: the last record before the hole is cut to 100
    bytes too. -/
theorem short_hole : ¬∃ h tape out,
    (dump fs₀ 10 2 (fun _ => 7) (oneBlock (4096 + 100)) ⟨spcl₀, 0, []⟩).tape = h :: tape ∧
      getfile 8192 (asHeader h) (tape ++ [sealed spcl₀]) = some (out, asHeader (sealed spcl₀), []) ∧
        out.flatMap Piece.bytes = contents fs₀ (fun _ => 7) (oneBlock (4096 + 100)) := by
  rintro ⟨h, tape, out, htape, hout⟩
  obtain ⟨rs, hrs, hsegs⟩ := dump_segs fs₀ (by decide : 0 < 10) 2 (fun _ => 7)
    (by decide : (oneBlock (4096 + 100)).di_mode &&& IFMT = IFREG) (by decide) (by decide)
    (by decide : (⟨spcl₀, 0, []⟩ : Out).trecno < 10)
  obtain ⟨h', tape', rfl, hiff⟩ := getfile_iff_clean (by decide) hsegs (by decide : 0 < 8192) (by decide) isGood_end
    (.inr c_type_end) []
  rw [htape] at hrs
  cases hrs
  have hcln := (hiff.1 ⟨out, hout⟩).1
  exact absurd hcln (by decide)

end Uwisc.Dump
