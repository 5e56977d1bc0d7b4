import Mathlib.Data.Nat.Bits
import Uwisc.Lib.Bytes
import Uwisc.Lib.OnesComplement

/-!
# Checksums of chains of buffers

`in_cksum` of `sys/vax/in_cksum.c`: the checksum of the first bytes of a chain of `mbuf`s. The sum is in a register
of 32 bits (`r8`) to which longs are added with their carries (`adwc`), and which is folded to 16 bits before the
last words of each buffer; a word that two buffers share is added in two halves.

Registers are the numbers they hold; a pointer to data (`r9`) is the bytes from there on. The checksum is that of
the bytes, whatever the buffers they are in (`inCksum_eq`).
-/

namespace Uwisc.Cksum

open Lib List Nat

/-- A buffer of a chain: the address of its data (`mtod`), and the data, `m_len` bytes. -/
structure Mbuf where
  addr : ℕ
  data : List UInt8

/-- The bytes of a chain. -/
def contents (c : List Mbuf) : List UInt8 := c.flatMap Mbuf.data

/-- `*(u_char *)w`. -/
def uChar (w : List UInt8) : ℕ := decode (w.take 1)

/-- `*w`, of a `u_short *w`. -/
def uShort (w : List UInt8) : ℕ := decode (w.take 2)

/-- `adwc x,r8`: the register and the carry that it leaves. -/
def adwc (x r8 : ℕ) (carry : Bool) : ℕ × Bool :=
  let s := r8 + x + carry.toNat
  (s % 2 ^ 32, decide (2 ^ 32 ≤ s))

/-- So many `ADD`s, one after the other: the register, the carry and the pointer. -/
def adds : ℕ → ℕ → Bool → List UInt8 → ℕ × Bool × List UInt8
  | 0, r8, carry, w => (r8, carry, w)
  | k + 1, r8, carry, w =>
    let r := adwc (decode (w.take 4)) r8 carry
    adds k r.1 r.2 (w.drop 4)

/-- `while ((mlen -= 4 * k) >= 0) { ADD; ...; adwc $0,r8 }  mlen += 4 * k`, with `k` times `ADD`: `mlen`, the sum and
    the pointer. The subtraction leaves no carry where the loop goes on. -/
def unrolled (k mlen sum : ℕ) (w : List UInt8) : ℕ × ℕ × List UInt8 :=
  if h : 0 < 4 * k ∧ 4 * k ≤ mlen then
    let r := adds k sum false w
    unrolled k (mlen - 4 * k) (adwc 0 r.1 r.2.1).1 r.2.2
  else (mlen, sum, w)
termination_by mlen
decreasing_by omega

/-- `ashl $-16,r8,r0; addw2 r0,r8; adwc $0,r8`. -/
def fold (r8 : ℕ) : ℕ :=
  -- only the low word of `r0` goes into `addw2`, and only the low word of `r8` comes out of it
  let s := r8 % 2 ^ 16 + r8 / 2 ^ 16 % 2 ^ 16
  (adwc 0 (r8 / 2 ^ 16 * 2 ^ 16 + s % 2 ^ 16) (decide (2 ^ 16 ≤ s))).1

/-- The words that are left, and maybe a byte: the sum, and whether there was one (`mlen == -1`). -/
def mop : ℕ → ℕ → List UInt8 → ℕ × Bool
  | 0, sum, _ => (sum, false)
  | 1, sum, w => ((sum + uChar w) % 2 ^ 32, true)
  | mlen + 2, sum, w => mop mlen ((sum + uShort w) % 2 ^ 32) (w.drop 2)

/-- What a trip around the loop goes on with: the sum, whether a byte is left from the last segment, and how many
    bytes are to come. -/
structure State where
  sum : ℕ
  left : Bool
  len : ℕ

/-- From the test of the alignment of `w` to the end of the segment. -/
def segment (addr mlen sum : ℕ) (w : List UInt8) : ℕ × Bool :=
  let (mlen, sum, w) :=
    if addr.testBit 1 ∧ 2 ≤ mlen then (mlen - 2, (sum + uShort w) % 2 ^ 32, w.drop 2) else (mlen, sum, w)
  let (mlen, sum, w) := unrolled 8 mlen sum w
  let (mlen, sum, w) := unrolled 2 mlen sum w
  mop mlen (fold sum % 2 ^ 16) w

/-- A trip around the loop. -/
def trip (m : Mbuf) (s : State) : State :=
  if s.left then
    let len := s.len - 1
    let mlen := min len (m.data.length - 1)
    let r := segment (m.addr + 1) mlen ((s.sum + uChar m.data * 2 ^ 8) % 2 ^ 32) (m.data.drop 1)
    ⟨r.1, r.2, len - mlen⟩
  else
    let mlen := min s.len m.data.length
    let r := segment m.addr mlen s.sum m.data
    ⟨r.1, r.2, s.len - mlen⟩

/-- What is done at `done`. -/
def finish (sum : ℕ) : ℕ := (2 ^ 32 - 1 - fold sum) % 2 ^ 16

/-- From the end of a trip on; buffers without data are passed over. -/
def loop : List Mbuf → State → ℕ
  | [], s => finish s.sum
  | m :: c, s =>
    if s.len = 0 then finish s.sum
    else if m.data = [] then loop c s
    else loop c (trip m s)

/-- `in_cksum`; there is no chain without a buffer. -/
def inCksum (c : List Mbuf) (len : ℕ) : Option ℕ :=
  match c with
  | [] => none
  | m :: c => some (loop c (trip m ⟨0, false, len⟩))

/-! ## The checksum -/

/-- The words of some bytes in the order of memory, the last one padded with a zero byte. -/
def words : List UInt8 → List ℕ
  | [] => []
  | [a] => [decode [a]]
  | a :: b :: l => decode [a, b] :: words l

/-- The complement of the sum of the words in ones' complement. -/
def checksum (l : List UInt8) : ℕ := 2 ^ 16 - 1 - OnesComplement.sum (2 ^ 16 - 1) (words l)

/-! ## Lanes -/

open OnesComplement (Same)

/-- What some bytes add to the sum, if the first of them is the high one of a word or the low one. -/
def lanes (high : Bool) : List UInt8 → ℕ
  | [] => 0
  | b :: l => (if high then b.toNat * 2 ^ 8 else b.toNat) + lanes (!high) l

theorem lanes_append (high : Bool) (u v : List UInt8) :
    lanes high (u ++ v) = lanes high u + lanes (high ^^ u.length.bodd) v := by
  induction u generalizing high with
  | nil => simp [lanes]
  | cons b u ih =>
    rw [cons_append, lanes, lanes, ih, length_cons, bodd_succ, add_assoc, Bool.xor_not, Bool.not_xor]

/-- A part of the bytes that is made of whole words. -/
theorem lanes_take (w : List UInt8) {n k : ℕ} (hn : n.bodd = false) (hw : n ≤ w.length) :
    lanes false (w.take (n + k)) = lanes false (w.take n) + lanes false ((w.drop n).take k) := by
  rw [take_add, lanes_append, length_take_of_le hw, hn]
  rfl

theorem sum_words (l : List UInt8) : (words l).sum = lanes false l := by
  induction l using words.induct with
  | case1 => rfl
  | case2 a => simp [words, lanes, decode]
  | case3 a b l ih =>
    rw [words, sum_cons, ih]
    simp only [decode, lanes]
    simp
    omega

theorem words_le (l : List UInt8) : ∀ x ∈ words l, x ≤ 2 ^ 16 - 1 := by
  induction l using words.induct with
  | case1 => simp [words]
  | case2 a =>
    have ha := a.toNat_lt
    simp only [words, forall_mem_cons, decode]
    simp
    omega
  | case3 a b l ih =>
    have hab : decode [a, b] < 256 ^ 2 := decode_lt [a, b]
    rw [words]
    exact List.forall_mem_cons.2 ⟨by omega, ih⟩

/-- A number of any width counts as the words that it is made of. -/
theorem decode_same (l : List UInt8) : Same (2 ^ 16 - 1) (decode l) (lanes false l) := by
  induction l using words.induct with
  | case1 => exact .refl _ _
  | case2 a =>
    have heq : decode [a] = lanes false [a] := by simp [decode, lanes]
    rw [heq]
    exact .refl _ _
  | case3 a b l ih =>
    have hdec : decode (a :: b :: l) = a.toNat + b.toNat * 2 ^ 8 + ((2 ^ 16 - 1) * 1 + 1) * decode l := by
      simp only [decode]
      omega
    have hlanes : lanes false (a :: b :: l) = a.toNat + b.toNat * 2 ^ 8 + lanes false l := by
      simp only [lanes]
      simp
      omega
    rw [hdec, hlanes]
    exact (Same.carry _ _ _ _).trans ((Same.refl _ _).add ih)

/-! ## The sum -/

variable {T k mlen r8 sum : ℕ} {carry : Bool} {w : List UInt8}

/-- The longs added and their carry, and the bytes that are left of the segment, come to `T`; the carry may be
    added without another one. -/
structure Adding (T mlen r8 : ℕ) (carry : Bool) (w : List UInt8) : Prop where
  mlen_le : mlen ≤ w.length
  lt : r8 + carry.toNat < 2 ^ 32
  same : Same (2 ^ 16 - 1) (r8 + carry.toNat + lanes false (w.take mlen)) T

theorem Adding.adwc (h : Adding T (4 + mlen) r8 carry w) :
    Adding T mlen (adwc (decode (w.take 4)) r8 carry).1 (adwc (decode (w.take 4)) r8 carry).2 (w.drop 4) := by
  have hw : 4 ≤ w.length := (Nat.le_add_right _ _).trans h.mlen_le
  have hlong : decode (w.take 4) < 256 ^ 4 := by
    have hlt := decode_lt (w.take 4)
    rwa [length_take_of_le hw] at hlt
  have hlt := h.lt
  rw [Cksum.adwc]
  dsimp only
  generalize hs : r8 + decode (w.take 4) + carry.toNat = s
  -- the carry that comes out is worth what it is at the bottom
  have hs' : s = s % 2 ^ 32 + ((2 ^ 16 - 1) * (2 ^ 16 + 1) + 1) * (decide (2 ^ 32 ≤ s)).toNat := by
    by_cases hle : 2 ^ 32 ≤ s
    · simp only [hle, decide_true, Bool.toNat_true]
      omega
    · simp only [hle, decide_false, Bool.toNat_false]
      omega
  refine ⟨?_, ?_, ?_⟩
  · rw [length_drop]
    have := h.mlen_le
    omega
  · by_cases hle : 2 ^ 32 ≤ s
    · simp only [hle, decide_true, Bool.toNat_true]
      omega
    · simp only [hle, decide_false, Bool.toNat_false]
      omega
  · have hsame := h.same
    rw [lanes_take w rfl hw] at hsame
    refine Same.trans ?_ hsame
    have hcry : Same (2 ^ 16 - 1) (s % 2 ^ 32 + (decide (2 ^ 32 ≤ s)).toNat) (r8 + carry.toNat + lanes false (w.take 4)) := by
      have hlanes := ((decode_same (w.take 4)).add (.refl _ (r8 + carry.toNat)))
      have heq : decode (w.take 4) + (r8 + carry.toNat) = s := by omega
      rw [heq, hs', add_comm (lanes _ _)] at hlanes
      exact (Same.carry _ _ _ _).symm.trans hlanes
    rw [← add_assoc]
    exact hcry.add_right _

theorem Adding.adds (h : Adding T (4 * k + mlen) r8 carry w) :
    Adding T mlen (adds k r8 carry w).1 (adds k r8 carry w).2.1 (adds k r8 carry w).2.2 := by
  induction k generalizing r8 carry w with
  | zero =>
    rw [mul_zero, zero_add] at h
    exact h
  | succ k ih =>
    rw [mul_succ, add_comm (4 * k), add_assoc] at h
    exact ih h.adwc

/-- Between the instructions there is no carry. -/
abbrev Sum (T mlen sum : ℕ) (w : List UInt8) : Prop := Adding T mlen sum false w

/-- `adwc $0,r8`. -/
theorem Adding.adwc_zero (h : Adding T mlen r8 carry w) : Sum T mlen (Cksum.adwc 0 r8 carry).1 w := by
  have hlt := h.lt
  have heq : (Cksum.adwc 0 r8 carry).1 = r8 + carry.toNat := mod_eq_of_lt (by omega)
  rw [heq]
  exact ⟨h.mlen_le, hlt, h.same⟩

theorem Sum.unrolled (h : Sum T mlen sum w) :
    Sum T (unrolled k mlen sum w).1 (unrolled k mlen sum w).2.1 (unrolled k mlen sum w).2.2 ∧
      (unrolled k mlen sum w).1.bodd = mlen.bodd ∧ (0 < k → (unrolled k mlen sum w).1 < 4 * k) := by
  induction mlen using Nat.strong_induction_on generalizing sum w with
  | _ mlen ih =>
    rw [Cksum.unrolled]
    split_ifs with hpass
    · obtain ⟨n, rfl⟩ := Nat.exists_eq_add_of_le hpass.2
      rw [Nat.add_sub_cancel_left]
      obtain ⟨hsum, hbodd, hlt⟩ := ih n (by omega) (Adding.adds h).adwc_zero
      refine ⟨hsum, hbodd.trans ?_, hlt⟩
      simp
    · exact ⟨h, rfl, fun hk => by dsimp only; omega⟩

theorem fold_same (h : sum < 2 ^ 32) : Same (2 ^ 16 - 1) (fold sum % 2 ^ 16) sum := by
  have hspl : sum = sum % 2 ^ 16 + ((2 ^ 16 - 1) * 1 + 1) * (sum / 2 ^ 16) := by omega
  have hwds : Same (2 ^ 16 - 1) (sum % 2 ^ 16 + sum / 2 ^ 16) sum := by
    conv_rhs => rw [hspl]
    exact (Same.carry _ _ _ _).symm
  refine Same.trans ?_ hwds
  by_cases hcry : 2 ^ 16 ≤ sum % 2 ^ 16 + sum / 2 ^ 16
  · have hfold : fold sum % 2 ^ 16 = sum % 2 ^ 16 + sum / 2 ^ 16 - 2 ^ 16 + 1 := by
      have hhigh : sum / 2 ^ 16 % 2 ^ 16 = sum / 2 ^ 16 := mod_eq_of_lt (by omega)
      simp only [fold, adwc, hhigh, hcry, decide_true, Bool.toNat_true]
      omega
    have hback : sum % 2 ^ 16 + sum / 2 ^ 16 =
        sum % 2 ^ 16 + sum / 2 ^ 16 - 2 ^ 16 + ((2 ^ 16 - 1) * 1 + 1) * 1 := by omega
    rw [hfold]
    conv_rhs => rw [hback]
    exact (Same.carry _ _ _ _).symm
  · have hfold : fold sum % 2 ^ 16 = sum % 2 ^ 16 + sum / 2 ^ 16 := by
      have hhigh : sum / 2 ^ 16 % 2 ^ 16 = sum / 2 ^ 16 := mod_eq_of_lt (by omega)
      simp only [fold, adwc, hhigh, hcry, decide_false, Bool.toNat_false]
      omega
    rw [hfold]
    exact .refl _ _

theorem uChar_le (w : List UInt8) : uChar w ≤ 2 ^ 8 - 1 := by
  have hlt := decode_lt (w.take 1)
  have hpow : 256 ^ (w.take 1).length ≤ 256 ^ 1 := Nat.pow_le_pow_right (by decide) (length_take_le _ _)
  rw [uChar]
  omega

theorem uShort_le (w : List UInt8) : uShort w ≤ 2 ^ 16 - 1 := by
  have hlt := decode_lt (w.take 2)
  have hpow : 256 ^ (w.take 2).length ≤ 256 ^ 2 := Nat.pow_le_pow_right (by decide) (length_take_le _ _)
  rw [uShort]
  omega

/-- A word goes into a sum that is small enough. -/
theorem Sum.word (h : Sum T (2 + mlen) sum w) (hsum : sum < 2 ^ 31) :
    Sum T mlen ((sum + uShort w) % 2 ^ 32) (w.drop 2) := by
  have hw : 2 ≤ w.length := (Nat.le_add_right _ _).trans h.mlen_le
  have hle := uShort_le w
  rw [mod_eq_of_lt (by omega)]
  refine ⟨?_, ?_, ?_⟩
  · rw [length_drop]
    have := h.mlen_le
    omega
  · change sum + uShort w < _
    omega
  · have hsame := h.same
    rw [lanes_take w rfl hw, ← add_assoc] at hsame
    exact (((Same.refl _ sum).add (decode_same _)).add_right _).trans hsame

theorem Sum.mop (h : Sum T mlen sum w) (hsum : sum + (2 ^ 16 - 1) * mlen < 2 ^ 31) :
    Same (2 ^ 16 - 1) (mop mlen sum w).1 T ∧ (mop mlen sum w).1 ≤ sum + (2 ^ 16 - 1) * mlen ∧
      (mop mlen sum w).2 = mlen.bodd := by
  induction mlen using Nat.strong_induction_on generalizing sum w with
  | _ mlen ih =>
    obtain _ | _ | mlen := mlen
    · exact ⟨h.same, le_refl _, rfl⟩
    · have hle := uChar_le w
      have hsame := ((Same.refl (2 ^ 16 - 1) sum).add (decode_same (w.take 1))).trans h.same
      rw [zero_add, Cksum.mop, mod_eq_of_lt (by omega)]
      exact ⟨hsame, by omega, rfl⟩
    · have hle := uShort_le w
      have hword : Sum T mlen ((sum + uShort w) % 2 ^ 32) (w.drop 2) :=
        Sum.word (by rwa [add_comm]) (by omega)
      have hmod : (sum + uShort w) % 2 ^ 32 = sum + uShort w := mod_eq_of_lt (by omega)
      rw [hmod] at hword
      obtain ⟨hsame, hle', hbodd⟩ := ih mlen (by omega) hword (by omega)
      rw [Cksum.mop, hmod]
      exact ⟨hsame, by omega, by rw [hbodd]; simp⟩

/-- The sum that a trip leaves is no larger than this. -/
def sumMax : ℕ := (2 ^ 16 - 1) * 9

/-- From the first of the two loops on. -/
theorem Sum.rest (h : Sum T mlen sum w) :
    let r := Cksum.unrolled 8 mlen sum w
    let r := Cksum.unrolled 2 r.1 r.2.1 r.2.2
    let r := Cksum.mop r.1 (fold r.2.1 % 2 ^ 16) r.2.2
    Same (2 ^ 16 - 1) r.1 T ∧ r.1 ≤ sumMax ∧ r.2 = mlen.bodd := by
  obtain ⟨h8, hbodd8, -⟩ := Sum.unrolled (k := 8) h
  obtain ⟨h2, hbodd2, hlt⟩ := Sum.unrolled (k := 2) h8
  dsimp only
  generalize Cksum.unrolled 2 _ _ _ = r at *
  have hfold := fold_same h2.lt
  have hlt' := mod_lt (fold r.2.1) (Nat.two_pow_pos 16)
  have hsum : Sum T r.1 (fold r.2.1 % 2 ^ 16) r.2.2 := ⟨h2.mlen_le, hlt'.trans (by decide), (hfold.add_right _).trans h2.same⟩
  have hlt := hlt (by decide)
  obtain ⟨hsame, hle, hbodd⟩ := hsum.mop (by omega)
  exact ⟨hsame, hle.trans (by rw [sumMax]; omega), by rw [hbodd, hbodd2, hbodd8]⟩

theorem Sum.segment (h : Sum T mlen sum w) (addr : ℕ) (hsum : sum < 2 ^ 31) :
    Same (2 ^ 16 - 1) (segment addr mlen sum w).1 T ∧ (segment addr mlen sum w).1 ≤ sumMax ∧
      (segment addr mlen sum w).2 = mlen.bodd := by
  rw [Cksum.segment]
  split_ifs with hali
  · obtain ⟨n, rfl⟩ := Nat.exists_eq_add_of_le hali.2
    rw [Nat.add_sub_cancel_left]
    obtain ⟨hsame, hle, hbodd⟩ := (Sum.word h hsum).rest
    exact ⟨hsame, hle, by rw [bodd_add]; simpa using hbodd⟩
  · exact h.rest

/-! ## The chain -/

/-- The sum of what went before comes to `S`. -/
structure Holds (S : ℕ) (s : State) : Prop where
  same : Same (2 ^ 16 - 1) s.sum S
  le : s.sum ≤ sumMax

variable {S : ℕ} {s : State}

/-- A trip adds the bytes of its buffer, as many as there are to come. -/
theorem Holds.trip (h : Holds S s) (m : Mbuf) (hleft : s.left = true → s.len ≠ 0 ∧ m.data ≠ []) :
    Holds (S + lanes s.left (m.data.take s.len)) (trip m s) ∧
      (trip m s).left = (s.left ^^ (m.data.take s.len).length.bodd) ∧
      (trip m s).len = s.len - m.data.length := by
  have hle := h.le
  rw [sumMax] at hle
  rw [Cksum.trip]
  split_ifs with hl
  · obtain ⟨hlen, hdata⟩ := hleft hl
    obtain ⟨b, d, hd⟩ := exists_cons_of_ne_nil hdata
    obtain ⟨len, hlen⟩ := exists_eq_succ_of_ne_zero hlen
    rw [hl, hd, hlen, take_succ_cons]
    dsimp only
    have hb := b.toNat_lt
    have hchar : uChar (b :: d) = b.toNat := by simp [uChar, decode]
    have hsum : (s.sum + uChar (b :: d) * 2 ^ 8) % 2 ^ 32 = s.sum + b.toNat * 2 ^ 8 := by
      rw [hchar]
      exact mod_eq_of_lt (by omega)
    have hst : Sum (S + lanes true (b :: d.take len)) (min len d.length) (s.sum + b.toNat * 2 ^ 8) d := by
      refine ⟨Nat.min_le_right _ _, ?_, ?_⟩
      · change s.sum + b.toNat * 2 ^ 8 < _
        omega
      · rw [lanes, if_pos rfl, ← take_eq_take_min, ← add_assoc]
        exact (h.same.add_right _).add_right _
    obtain ⟨hsame, hle, hbodd⟩ := hst.segment (m.addr + 1) (by omega)
    rw [hsum]
    refine ⟨⟨hsame, hle⟩, ?_, ?_⟩
    · have hleng : (b :: d.take len).length.bodd = !(min len d.length).bodd := by
        rw [length_cons, length_take, bodd_succ]
      rw [hleng, Bool.true_xor, Bool.not_not]
      exact hbodd
    · simp only [length_cons]
      omega
  · rw [Bool.not_eq_true] at hl
    rw [hl]
    have hst : Sum (S + lanes false (m.data.take s.len)) (min s.len m.data.length) s.sum m.data := by
      refine ⟨Nat.min_le_right _ _, ?_, ?_⟩
      · change s.sum < _
        omega
      · rw [← take_eq_take_min]
        exact h.same.add_right _
    obtain ⟨hsame, hle, hbodd⟩ := hst.segment m.addr (by omega)
    refine ⟨⟨hsame, hle⟩, ?_, ?_⟩
    · rw [length_take, Bool.false_xor]
      exact hbodd
    · dsimp only
      omega

theorem Holds.finish (h : Holds S s) : Same (2 ^ 16 - 1) (2 ^ 16 - 1 - finish s.sum) S ∧ Cksum.finish s.sum ≤ 2 ^ 16 - 1 := by
  have hle := h.le
  rw [sumMax] at hle
  have hsum : s.sum < 2 ^ 32 := by omega
  have hsame := (fold_same hsum).trans h.same
  have hlt : fold s.sum < 2 ^ 32 := mod_lt _ (Nat.two_pow_pos 32)
  have heq : 2 ^ 16 - 1 - Cksum.finish s.sum = fold s.sum % 2 ^ 16 := by
    rw [Cksum.finish]
    omega
  rw [heq]
  refine ⟨hsame, ?_⟩
  rw [Cksum.finish]
  omega

/-- The rest of the chain has the bytes that are to come. -/
theorem Holds.loop (h : Holds S s) (c : List Mbuf) (hlen : s.len ≤ (contents c).length) :
    Same (2 ^ 16 - 1) (2 ^ 16 - 1 - loop c s) (S + lanes s.left ((contents c).take s.len)) ∧
      Cksum.loop c s ≤ 2 ^ 16 - 1 := by
  induction c generalizing S s with
  | nil =>
    obtain ⟨hsame, hle⟩ := h.finish
    rw [Cksum.loop, contents, flatMap_nil, take_nil, lanes]
    exact ⟨hsame, hle⟩
  | cons m c ih =>
    have hcons : contents (m :: c) = m.data ++ contents c := flatMap_cons
    rw [hcons] at hlen ⊢
    rw [Cksum.loop]
    split_ifs with hzero hdata
    · obtain ⟨hsame, hle⟩ := h.finish
      rw [hzero, take_zero]
      exact ⟨hsame, hle⟩
    · rw [hdata, nil_append] at hlen ⊢
      exact ih h hlen
    · obtain ⟨htrip, hleft, hlen'⟩ := h.trip m fun _ => ⟨hzero, hdata⟩
      rw [length_append] at hlen
      obtain ⟨hsame, hle⟩ := ih htrip (by omega)
      refine ⟨?_, hle⟩
      rwa [hleft, hlen', add_assoc, ← lanes_append, ← take_append] at hsame

/-- The checksum of the bytes a chain begins with is that of the bytes, however they are split and aligned. -/
theorem inCksum_eq {l : List UInt8} {c : List Mbuf} (hc : c ≠ []) (hl : l <+: contents c) :
    inCksum c l.length = some (checksum l) := by
  obtain ⟨m, c, rfl⟩ := exists_cons_of_ne_nil hc
  have hcons : contents (m :: c) = m.data ++ contents c := flatMap_cons
  have hst : Holds 0 ⟨0, false, l.length⟩ := ⟨.refl _ _, Nat.zero_le _⟩
  obtain ⟨htrip, hleft, hlen⟩ := hst.trip m (by simp)
  have hle := hl.length_le
  rw [hcons, length_append] at hle
  obtain ⟨hsame, hle'⟩ := htrip.loop c (by rw [hlen]; dsimp only; omega)
  rw [hleft, hlen, add_assoc, ← lanes_append, ← take_append, ← hcons, ← List.prefix_iff_eq_take.1 hl,
    ← sum_words, zero_add] at hsame
  have hsum := OnesComplement.sum_eq (words_le l) (sub_le _ _) hsame
  rw [inCksum, checksum, hsum, Nat.sub_sub_self hle']

/-- Three bytes at an odd address, no data, and two more; a word is in two buffers. -/
theorem inCksum_eq_five :
    inCksum [⟨1, [1, 2, 3]⟩, ⟨2, []⟩, ⟨0, [4, 5]⟩] 5 = some (checksum [1, 2, 3, 4, 5]) :=
  inCksum_eq (by simp) (prefix_rfl)

end Uwisc.Cksum
