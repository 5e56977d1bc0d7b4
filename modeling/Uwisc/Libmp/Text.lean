import Uwisc.Libmp.Naturals

/-!
# Numbers as text

`m_out` and `m_in` of `mout.c`. The text is written from its end into a buffer of seven bytes for
each digit, ten digits to a group. It fits, and what is read back is the number, but for zero, which
`m_in` reads as a number of one digit (`mOut_mIn_iff`).
-/

namespace Uwisc.Mp

open List Nat

/-! ### Writing -/

/-- The buffer of `m_out`. -/
structure Obuf where
  bp : ℤ
  /-- The bytes behind `bp`. -/
  text : List Char
  /-- Whether nothing was written before the start. -/
  inside : Bool

/-- `*bp-- = c`. -/
def Obuf.put (o : Obuf) (c : Char) : Obuf := ⟨o.bp - 1, c :: o.text, o.inside && decide (0 ≤ o.bp)⟩

/-- `r + '0'`. -/
def digitChar (r : ℕ) : Char := Char.ofNat ((r + '0'.toNat) % 2 ^ 8)

/-- The inner loop of `m_out`. -/
def mOutGroup (b : ℕ) : ℕ → Mint → Obuf → Mint × Obuf
  | 0, x, o => (x, o)
  | i + 1, x, o =>
    if x.len > 0 then
      let s := sDiv x b
      mOutGroup b i s.1 (o.put (digitChar s.2))
    else (x, o)

def mOutLoop (b : ℕ) : ℕ → Mint → Obuf → Option Obuf
  | 0, _, _ => none
  | fuel + 1, x, o =>
    if x.len > 0 then
      let r := mOutGroup b 10 x o
      mOutLoop b fuel r.1 (if r.1.len > 0 then r.2.put ' ' else r.2)
    else some o

/-- The text that is printed, and whether it was in the buffer. -/
def mOut (fuel b : ℕ) (a : Mint) : Option (List Char × Bool) :=
  let xlen := if a.len < 0 then -a.len else a.len
  if xlen = 0 then some (['0', '\n'], true)
  else
    let obuf : Obuf := ⟨7 * xlen - 1, [], true⟩
    (mOutLoop b fuel ⟨xlen, a.digits⟩ (obuf.put '\x00')).map fun o =>
      let o := if a.len < 0 then o.put '-' else o
      (o.text.takeWhile (· ≠ '\x00') ++ ['\n'], o.inside)

/-! ### Reading -/

def EOF : ℤ := -1

/-- `a->len *= sign`. -/
def Mint.times (a : Mint) (sign : ℤ) : Mint := ⟨a.len * sign, a.val⟩

/-- The loop of `m_in`, and what it returns; a number that ends with the file has no sign. -/
def mInLoop (before b : ℕ) : List Char → Mint → Mint → ℤ → Mint × ℤ
  | [], a, _, _ => (a, EOF)
  | c :: cs, a, x, sign =>
    if c = '\\' then
      match cs with
      | [] => (a, EOF)
      | _ :: cs => mInLoop before b cs a x sign
    else if c = '\t' ∨ c = '\n' then (a.times sign, 0)
    else if c = ' ' then mInLoop before b cs a x sign
    else if c = '-' then mInLoop before b cs a x (-sign)
    else if '0' ≤ c ∧ c ≤ '9' then
      let a := madd (mult before x ⟨1, [b]⟩) ⟨1, [c.toNat - '0'.toNat]⟩
      mInLoop before b cs a (move a) sign
    else (a.times sign, 0)

def mIn (before b : ℕ) (f : List Char) : Mint × ℤ := mInLoop before b f ⟨0, []⟩ ⟨0, []⟩ 1

/-! ### The buffer -/

/-- Writes a text, its last character foremost. -/
def Obuf.puts (o : Obuf) (t : List Char) : Obuf := t.foldr (fun c o => o.put c) o

theorem Obuf.puts_cons (o : Obuf) (c : Char) (t : List Char) : o.puts (c :: t) = (o.puts t).put c := rfl

theorem Obuf.text_puts (o : Obuf) (t : List Char) : (o.puts t).text = t ++ o.text := by
  induction t with
  | nil => rfl
  | cons c t ih => rw [puts_cons, put, ih, cons_append]

theorem Obuf.bp_puts (o : Obuf) (t : List Char) : (o.puts t).bp = o.bp - t.length := by
  induction t with
  | nil => exact (sub_zero o.bp).symm
  | cons c t ih =>
    rw [puts_cons, put, ih, length_cons, cast_succ]
    exact sub_sub _ _ _

/-- A text that is not longer than the buffer is inside. -/
theorem Obuf.inside_puts {o : Obuf} (ho : o.inside = true) {t : List Char} (h : t.length ≤ o.bp + 1) :
    (o.puts t).inside = true := by
  induction t with
  | nil => exact ho
  | cons c t ih =>
    rw [length_cons, cast_succ] at h
    rw [puts_cons, put, ih (by omega), bp_puts, Bool.true_and, decide_eq_true_eq]
    omega

/-! ### What is written -/

/-- From the number `n` to its leading digits, which are `m`: `t` is written, of `j` digits and `s`
    spaces. -/
inductive Printed (b n : ℕ) : ℕ → ℕ → ℕ → List Char → Prop
  | nil : Printed b n n 0 0 []
  | digit {m j s t} : 0 < m → Printed b n m j s t →
    Printed b n (m / b) (j + 1) s (digitChar (m % b) :: t)
  | space {m j s t} : 0 < m → Printed b n m j s t → Printed b n m j (s + 1) (' ' :: t)

variable {b n m j s : ℕ} {t : List Char} {a x : Mint} {o : Obuf}

namespace Printed

theorem length (h : Printed b n m j s t) : t.length = j + s := by
  induction h with
  | nil => rfl
  | digit _ _ ih =>
    rw [length_cons, ih]
    omega
  | space _ _ ih =>
    rw [length_cons, ih]
    omega

theorem eq_div (h : Printed b n m j s t) : m = n / b ^ j := by
  induction h with
  | nil => rw [pow_zero, Nat.div_one]
  | digit _ _ ih => rw [ih, Nat.div_div_eq_div_mul, pow_succ]
  | space _ _ ih => exact ih

/-- There is no digit in front of the leading one. -/
theorem pow_le (h : Printed b n m j s t) (hj : 0 < j) : b ^ (j - 1) ≤ n := by
  induction h with
  | nil => exact absurd hj (lt_irrefl 0)
  | digit hm h _ =>
    rw [Nat.add_sub_cancel]
    rw [h.eq_div] at hm
    exact Nat.le_of_not_lt fun hlt => hm.ne' (div_eq_of_lt hlt)
  | space _ _ ih => exact ih hj

theorem le_of_lt_pow (h : Printed b n m j s t) {k : ℕ} (hb : 1 < b) (hn : n < b ^ k) : j ≤ k := by
  rcases Nat.eq_zero_or_pos j with rfl | hj
  · exact Nat.zero_le k
  · have hlt := (Nat.pow_lt_pow_iff_right hb).1 ((h.pow_le hj).trans_lt hn)
    omega

theorem ne_nul (h : Printed b n m j s t) (hb : b ≤ 10) (hb0 : 0 < b) : ∀ c ∈ t, c ≠ '\x00' := by
  have hdgt : ∀ d < 10, digitChar d ≠ '\x00' := by decide
  induction h with
  | nil => exact forall_mem_nil _
  | digit _ _ ih => exact List.forall_mem_cons.2 ⟨hdgt _ ((mod_lt _ hb0).trans_le hb), ih⟩
  | space _ _ ih => exact List.forall_mem_cons.2 ⟨by decide, ih⟩

/-- With more digits written there is less left. -/
theorem lt {m' j' s' : ℕ} {t' : List Char} (h : Printed b n m j s t) (h' : Printed b n m' j' s' t')
    (hb : 1 < b) (hm : 0 < m) (hj : j < j') : m' < m := by
  calc m' = n / b ^ j' := h'.eq_div
    _ ≤ n / b ^ (j + 1) := div_le_div_left (Nat.pow_le_pow_right (by omega) hj) (by positivity)
    _ = m / b := by rw [pow_succ, ← Nat.div_div_eq_div_mul, ← h.eq_div]
    _ < m := Nat.div_lt_self hm hb

end Printed

/-- A group is of so many digits, unless there are no more. -/
theorem mOutGroup_spec (hb0 : 0 < b) (hb : b < BASE) (hx : Is x m) (h : Printed b n m j s t) (i : ℕ) :
    ∃ m' j' t', Is (mOutGroup b i x (o.puts t)).1 m' ∧
      (mOutGroup b i x (o.puts t)).2 = o.puts t' ∧ Printed b n m' j' s t' ∧
        (0 < m' → j' = j + i) ∧ j ≤ j' ∧ (0 < m → 0 < i → j < j') := by
  induction i generalizing x m j t with
  | zero => exact ⟨m, j, t, hx, rfl, h, fun _ => rfl, le_rfl, fun _ hi => absurd hi (lt_irrefl 0)⟩
  | succ i ih =>
    rw [mOutGroup]
    split_ifs with hlen
    · have hm := hx.len_pos.1 hlen
      obtain ⟨hq, hr⟩ := hx.sDiv hb0 hb
      obtain ⟨m', j', t', hm', ho, h', hmore, hle, -⟩ := ih hq (h.digit hm)
      dsimp only
      rw [hr]
      exact ⟨m', j', t', hm', ho, h', fun hpos => (hmore hpos).trans (by omega), by omega,
        fun _ _ => by omega⟩
    · have hm := mt hx.len_pos.2 hlen
      exact ⟨m, j, t, hx, rfl, h, fun hpos => absurd hpos hm, le_rfl, fun hpos => absurd hpos hm⟩

/-- All is written, with fewer spaces than groups. -/
theorem mOutLoop_spec (hb0 : 1 < b) (hb : b < BASE) (hx : Is x m) (hm : 0 < m)
    (h : Printed b n m j s t) (hj : j = 10 * s) {fuel : ℕ} (hfuel : m < fuel) :
    ∃ j' s' t', mOutLoop b fuel x (o.puts t) = some (o.puts t') ∧ Printed b n 0 j' s' t' ∧
      10 * s' < j' := by
  induction fuel generalizing x m j s t with
  | zero => exact absurd hfuel (Nat.not_lt_zero m)
  | succ fuel ih =>
    obtain ⟨m', j', t', hm', ho, h', hmore, -, hlt⟩ :=
      mOutGroup_spec (o := o) (by omega) hb hx h 10
    have hjlt := hlt hm (by decide)
    rw [mOutLoop, if_pos (hx.len_pos.2 hm)]
    dsimp only
    rw [ho]
    split_ifs with hlen
    · have hpos := hm'.len_pos.1 hlen
      have hsma := h.lt h' hb0 hm hjlt
      rw [← Obuf.puts_cons]
      exact ih hm' hpos (h'.space hpos) (by rw [hmore hpos]; omega) (by omega)
    · obtain rfl : m' = 0 := Nat.eq_zero_of_not_pos (mt hm'.len_pos.2 hlen)
      refine ⟨j', s, t', ?_, h', by omega⟩
      obtain - | fuel := fuel
      · omega
      · rw [mOutLoop, if_neg hlen]

/-! ### What is read -/

theorem mInLoop_cons (before : ℕ) {c : Char} (hc : c ≠ '\\') (cs : List Char) (a x : Mint) (sign : ℤ) :
    mInLoop before b (c :: cs) a x sign = if c = '\t' ∨ c = '\n' then (a.times sign, 0)
      else if c = ' ' then mInLoop before b cs a x sign
      else if c = '-' then mInLoop before b cs a x (-sign)
      else if '0' ≤ c ∧ c ≤ '9' then
        mInLoop before b cs (madd (mult before x ⟨1, [b]⟩) ⟨1, [c.toNat - '0'.toNat]⟩)
          (move (madd (mult before x ⟨1, [b]⟩) ⟨1, [c.toNat - '0'.toNat]⟩)) sign
      else (a.times sign, 0) := by
  cases cs <;> exact if_neg hc

/-- A digit is read. -/
theorem mInLoop_digit (before : ℕ) {d : ℕ} (hd : d < 10) (cs : List Char) (a x : Mint) (sign : ℤ) :
    mInLoop before b (digitChar d :: cs) a x sign =
      mInLoop before b cs (madd (mult before x ⟨1, [b]⟩) ⟨1, [d]⟩)
        (move (madd (mult before x ⟨1, [b]⟩) ⟨1, [d]⟩)) sign := by
  have hoth : ∀ d < 10, digitChar d ≠ '\\' ∧ ¬ (digitChar d = '\t' ∨ digitChar d = '\n') ∧
      digitChar d ≠ ' ' ∧ digitChar d ≠ '-' ∧ ('0' ≤ digitChar d ∧ digitChar d ≤ '9') ∧
        (digitChar d).toNat - '0'.toNat = d := by decide
  obtain ⟨hesc, hend, hspc, hminus, hdgt, hval⟩ := hoth d hd
  rw [mInLoop_cons before hesc, if_neg hend, if_neg hspc, if_neg hminus, if_pos hdgt, hval]

/-- The number that was written is read, if its leading digits have been. -/
theorem mInLoop_printed (before : ℕ) (hb0 : 0 < b) (hb : b ≤ 10) (h : Printed b n m j s t)
    (hx : Is x m) (ha : Is a m) (sign : ℤ) :
    ∃ z, mInLoop before b (t ++ ['\n']) a x sign = (z.times sign, 0) ∧ Is z n := by
  have hbase : b < BASE := hb.trans_lt (by decide)
  induction h generalizing a x with
  | nil => exact ⟨a, rfl, ha⟩
  | @digit m j s t hm h ih =>
    have hpro : Is (mult before x ⟨1, [b]⟩) (m / b * b) := by
      rcases Nat.eq_zero_or_pos (m / b) with hzero | hpos
      · rw [hzero] at hx
        rw [hzero, zero_mul]
        exact hx.mult_zero_digit (is_digit hbase hb0) rfl before
      · exact hx.mult_short (is_digit hbase hb0) hpos hb0 (.inr (by decide : (1 : ℤ) < 3 * 2 ^ 15)) before
    have hlt := mod_lt m hb0
    have hdiv := div_add_mod' m b
    have hsum := hpro.madd_digit (hlt.trans hbase) (by omega)
    rw [hdiv] at hsum
    rw [cons_append, mInLoop_digit before (hlt.trans_le hb)]
    exact ih hsum.move hsum
  | space hm h ih =>
    rw [cons_append, mInLoop_cons before (by decide), if_neg (by decide), if_pos rfl]
    exact ih hx ha

/-! ### There and back -/

/-- The text was in the buffer, and the number is read from it. -/
def RoundTrip (before b : ℕ) (a : Mint) (out : List Char × Bool) : Prop :=
  out.2 = true ∧ (mIn before b out.1).2 = 0 ∧ Canonical (mIn before b out.1).1 ∧
    (mIn before b out.1).1.toInt = a.toInt

theorem toInt_times (a : Mint) (sign : ℤ) (h : sign = 1 ∨ sign = -1) :
    (a.times sign).toInt = sign * a.toInt ∧ (Canonical a → Canonical (a.times sign)) := by
  rcases h with rfl | rfl
  · have htimes : a.times 1 = a := by rw [Mint.times, mul_one]
    rw [htimes, one_mul]
    exact ⟨rfl, id⟩
  · have htimes : a.times (-1) = a.neg := by rw [Mint.times, mul_neg_one, Mint.neg]
    rw [htimes, toInt_neg, neg_one_mul]
    exact ⟨rfl, Canonical.neg⟩

/-- The digits of a number without its sign. -/
theorem is_natAbs (ha : Canonical a) {len : ℤ} (hlen : len = if a.len < 0 then -a.len else a.len) :
    Is ⟨len, a.digits⟩ (value a.digits) := by
  have habs : len = a.len.natAbs := by split_ifs at hlen <;> omega
  rw [habs]
  have hdig := digits_mk ha.length
  refine ⟨⟨?_, ?_, ?_⟩, Int.natCast_nonneg _, ?_⟩ <;> rw [hdig]
  · rw [ha.length, Int.natAbs_natCast]
  · exact ha.isDigits
  · exact ha.top

/-- What `m_out` writes, and that it fits. -/
theorem mOut_spec (ha : Canonical a) (hb : 8 ≤ b) (hb' : b ≤ 10) (ha0 : a.len ≠ 0) {fuel : ℕ}
    (hfuel : value a.digits < fuel) :
    ∃ j s t, Printed b (value a.digits) 0 j s t ∧
      mOut fuel b a = some ((if a.len < 0 then '-' :: t else t) ++ ['\n'], true) := by
  generalize hlen : (if a.len < 0 then -a.len else a.len) = len
  have habs : a.len.natAbs = len := by split_ifs at hlen <;> omega
  have hx := is_natAbs ha hlen.symm
  have hpos := hx.len_pos.1 (by dsimp only; omega)
  generalize ho : (Obuf.mk (7 * len - 1) [] true).put '\x00' = o
  have hins : o.inside = true := by
    rw [← ho]
    exact decide_eq_true (by omega : 0 ≤ 7 * len - 1)
  have hbp : o.bp = 7 * len - 2 := by
    rw [← ho]
    exact sub_sub _ 1 1
  have htext : o.text = ['\x00'] := by
    rw [← ho]
    rfl
  obtain ⟨j, s, t, hloop, hpri, hspa⟩ :=
    mOutLoop_spec (o := o) (by omega) (hb'.trans_lt (by decide)) hx hpos .nil rfl hfuel
  -- five digits are enough for each one of the number
  have hj : j ≤ 5 * a.len.natAbs := by
    refine hpri.le_of_lt_pow (by omega) ?_
    calc value a.digits < BASE ^ a.len.natAbs := ha.bounds.1
      _ = 8 ^ (5 * a.len.natAbs) := by
        rw [pow_mul]
        rfl
      _ ≤ b ^ (5 * a.len.natAbs) := Nat.pow_le_pow_left hb _
  have hleng := hpri.length
  have hne := hpri.ne_nul hb' (by omega)
  have htake : ∀ t : List Char, (∀ c ∈ t, c ≠ '\x00') → (t ++ ['\x00']).takeWhile (· ≠ '\x00') = t := by
    intro t ht
    rw [takeWhile_append_of_pos fun c hc => decide_eq_true (ht c hc)]
    exact append_nil t
  have hloop' : mOutLoop b fuel ⟨len, a.digits⟩ o = some (o.puts t) := hloop
  refine ⟨j, s, t, hpri, ?_⟩
  rw [mOut]
  dsimp only
  rw [hlen, if_neg (by omega), ho, hloop', Option.map_some]
  split_ifs with hneg
  · rw [← Obuf.puts_cons, Obuf.text_puts, htext, htake _ (List.forall_mem_cons.2 ⟨by decide, hne⟩),
      Obuf.inside_puts hins (by rw [length_cons]; omega)]
  · rw [Obuf.text_puts, htext, htake _ hne, Obuf.inside_puts hins (by omega)]

/-- The number that was written is read. -/
theorem mIn_spec (before : ℕ) (hb0 : 0 < b) (hb : b ≤ 10) (h : Printed b n 0 j s t) (neg : Prop)
    [Decidable neg] :
    ∃ z, mIn before b ((if neg then '-' :: t else t) ++ ['\n']) =
      (z.times (if neg then -1 else 1), 0) ∧ Is z n := by
  have hzero : Is ⟨0, []⟩ 0 := is_zero_of_len rfl
  rw [mIn]
  split_ifs
  · obtain ⟨z, hz, hn⟩ := mInLoop_printed before hb0 hb h hzero hzero (-1)
    refine ⟨z, ?_, hn⟩
    rw [cons_append, mInLoop_cons before (by decide), if_neg (by decide), if_neg (by decide),
      if_pos rfl, hz]
  · exact mInLoop_printed before hb0 hb h hzero hzero 1

/-- Zero is read as a number of one digit. -/
theorem mIn_zero (before : ℕ) (hb : b = 8 ∨ b = 10) : (mIn before b ['0', '\n']).1 = ⟨1, [0]⟩ := by
  rcases hb with rfl | rfl <;> rfl

/-- What is printed is read back exactly if the number is not zero. -/
theorem mOut_mIn_iff (before b : ℕ) (a : Mint) (ha : Canonical a) (hb : b = 8 ∨ b = 10) :
    (∃ least, ∀ fuel ≥ least, ∃ out, mOut fuel b a = some out ∧ RoundTrip before b a out) ↔
      a.len ≠ 0 := by
  constructor
  · rintro ⟨least, h⟩ hzero
    obtain ⟨out, hout, -, -, hcan, -⟩ := h least le_rfl
    rw [mOut, hzero] at hout
    cases hout
    rw [mIn_zero before hb] at hcan
    exact hcan.top rfl
  · intro ha0
    refine ⟨value a.digits + 1, fun fuel hfuel => ?_⟩
    obtain ⟨j, s, t, hpri, hout⟩ := mOut_spec (b := b) ha (by omega) (by omega) ha0 hfuel
    obtain ⟨z, hz, hn⟩ := mIn_spec before (by omega) (by omega) hpri (a.len < 0)
    obtain ⟨htoInt, hcan⟩ :=
      toInt_times z (if a.len < 0 then -1 else 1) (by split_ifs <;> decide)
    refine ⟨_, hout, rfl, ?_⟩
    rw [hz]
    refine ⟨rfl, hcan hn.canonical, ?_⟩
    rw [htoInt, hn.toInt, ha.toInt_eq]
    split_ifs
    · exact neg_one_mul _
    · exact one_mul _

theorem mOut_mIn_iff_minusOne :
    (∃ least, ∀ fuel ≥ least, ∃ out, mOut fuel 8 ⟨-1, [1]⟩ = some out ∧ RoundTrip 0 8 ⟨-1, [1]⟩ out) ↔
      (-1 : ℤ) ≠ 0 :=
  mOut_mIn_iff 0 8 ⟨-1, [1]⟩ (canonical_digit rfl (by decide) (by decide)) (.inl rfl)

/-- Zero does not come back. -/
theorem mOut_mIn_zero :
    ¬ ∀ (before b : ℕ) (a : Mint), Canonical a → b = 8 ∨ b = 10 →
      ∃ least, ∀ fuel ≥ least, ∃ out, mOut fuel b a = some out ∧ RoundTrip before b a out := by
  intro h
  obtain ⟨least, h⟩ := h 0 10 ⟨0, []⟩ canonical_zero (.inr rfl)
  obtain ⟨out, hout, -, -, hcan, -⟩ := h least le_rfl
  cases hout
  exact hcan.top rfl

end Uwisc.Mp
