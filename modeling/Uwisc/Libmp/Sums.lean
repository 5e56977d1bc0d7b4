import Mathlib.Tactic.LinearCombination
import Uwisc.Lib.Radix
import Uwisc.Libmp

/-!
# Sums and differences of multiple precision integers

* `addLoop_spec`, `subLoop_spec`: the loops keep the sum and the difference, up to a carry;
* `mAdd_spec`, `mSub_spec`: positive numbers, where the first is as long as the second;
* `madd_spec`, `msub_spec`: any signs; `msub` is wrong if both are negative, or the second is zero.
-/

namespace Uwisc.Mp

open Lib List
open Nat (ofDigits ofDigits_lt_base_pow_length)

theorem one_lt_BASE : 1 < BASE := by decide

/-- All digits are less than the base. -/
def IsDigits (l : List ℕ) : Prop := ∀ d ∈ l, d < BASE

/-- The number of some digits. -/
def value (l : List ℕ) : ℕ := ofDigits BASE l

def Mint.toInt (a : Mint) : ℤ := a.len.sign * value a.digits

/-- As many digits as there should be, with no leading zero. -/
structure Canonical (a : Mint) : Prop where
  length : a.digits.length = a.len.natAbs
  isDigits : IsDigits a.digits
  top : a.digits.getLast? ≠ some 0

variable {a b : Mint} {as bs : List ℕ}

theorem value_nil : value [] = 0 := rfl

theorem value_cons (d : ℕ) (l : List ℕ) : value (d :: l) = d + BASE * value l := rfl

theorem value_concat (l : List ℕ) (d : ℕ) : value (l ++ [d]) = value l + BASE ^ l.length * d :=
  ofDigits_concat BASE l d

theorem IsDigits.lt (h : IsDigits as) : value as < BASE ^ as.length :=
  ofDigits_lt_base_pow_length one_lt_BASE h

variable {l val : List ℕ} {d n : ℕ}

theorem IsDigits.cons (hd : d < BASE) (h : IsDigits as) : IsDigits (d :: as) :=
  forall_mem_cons.2 ⟨hd, h⟩

theorem IsDigits.append (ha : IsDigits as) (hb : IsDigits bs) : IsDigits (as ++ bs) :=
  forall_mem_append.2 ⟨ha, hb⟩

theorem digitOf_lt (x : ℤ) : digitOf x < BASE := by
  rw [digitOf, BASE]
  omega

/-- The digit and the carry of a place. -/
theorem digitOf_add_carry (h : n < 2 * BASE) :
    digitOf n + BASE * (if carryBit n then 1 else 0) = n := by
  rw [digitOf, carryBit]
  rw [BASE] at h ⊢
  by_cases hbit : (n : ℤ) / 32768 % 2 = 1
  · simp only [hbit, decide_true, if_true]
    omega
  · simp only [hbit, decide_false, Bool.false_eq_true, if_false]
    omega

/-- The digit and the borrow of a place. -/
theorem digitOf_add_borrow {x : ℤ} (h : -BASE ≤ x) (h' : x < BASE) :
    (digitOf x : ℤ) + BASE * (if carryBit x then -1 else 0) = x := by
  rw [digitOf, carryBit]
  rw [BASE] at h h' ⊢
  push_cast at h h' ⊢
  by_cases hbit : x / 32768 % 2 = 1
  · simp only [hbit, decide_true, if_true]
    omega
  · simp only [hbit, decide_false, Bool.false_eq_true, if_false]
    omega

/-! ### Positive numbers -/

/-- The digits are added, up to a carry. -/
theorem addLoop_spec {carry : ℕ} (hcry : carry ≤ 1) (ha : IsDigits as) (hb : IsDigits bs)
    (hleng : bs.length ≤ as.length) :
    value (addLoop carry as bs).1 + BASE ^ as.length * (addLoop carry as bs).2 =
      value as + value bs + carry ∧
    IsDigits (addLoop carry as bs).1 ∧ (addLoop carry as bs).1.length = as.length ∧
      (addLoop carry as bs).2 ≤ 1 := by
  have hbase : BASE = 32768 := rfl
  induction as generalizing carry bs with
  | nil =>
    obtain rfl : bs = [] := eq_nil_of_length_eq_zero (by simpa using hleng)
    simp [addLoop, IsDigits, hcry, value_nil]
  | cons a as ih =>
    obtain ⟨ha1, ha⟩ := forall_mem_cons.1 ha
    have hbit : ∀ x : ℤ, (if carryBit x then 1 else 0) ≤ 1 := fun x => by split_ifs <;> omega
    cases bs with
    | nil =>
      -- the carry is one if there is one from this place
      have hkeep : (if carryBit ((carry : ℤ) + a) then carry else 0) =
          if carryBit ((carry : ℤ) + a) then 1 else 0 := by
        split_ifs with h
        · rw [carryBit, decide_eq_true_eq] at h
          omega
        · rfl
      have hplc := digitOf_add_carry (n := carry + a) (by omega)
      push_cast at hplc
      obtain ⟨hsum, hdig, hlen, hone⟩ := ih (hbit ((carry : ℤ) + a)) ha hb (Nat.zero_le _)
      rw [addLoop, hkeep]
      refine ⟨?_, hdig.cons (digitOf_lt _), by rw [length_cons, hlen, length_cons], hone⟩
      dsimp only
      rw [value_cons, value_cons, length_cons, pow_succ]
      rw [value_nil] at hsum ⊢
      nlinarith only [hsum, hplc]
    | cons b bs =>
      obtain ⟨hb1, hb⟩ := forall_mem_cons.1 hb
      have hplc := digitOf_add_carry (n := carry + a + b) (by omega)
      push_cast at hplc
      obtain ⟨hsum, hdig, hlen, hone⟩ := ih (hbit ((carry : ℤ) + a + b)) ha hb
        (Nat.le_of_succ_le_succ hleng)
      rw [addLoop]
      refine ⟨?_, hdig.cons (digitOf_lt _), by rw [length_cons, hlen, length_cons], hone⟩
      dsimp only
      rw [value_cons, value_cons, value_cons, length_cons, pow_succ]
      nlinarith only [hsum, hplc]

/-- The digits are subtracted, up to a borrow. -/
theorem subLoop_spec {borrow : ℤ} (hbor : borrow = 0 ∨ borrow = -1) (ha : IsDigits as)
    (hb : IsDigits bs) (hleng : bs.length ≤ as.length) :
    (value (subLoop borrow as bs).1 : ℤ) + BASE ^ as.length * (subLoop borrow as bs).2 =
      value as - value bs + borrow ∧
    IsDigits (subLoop borrow as bs).1 ∧ (subLoop borrow as bs).1.length = as.length ∧
      ((subLoop borrow as bs).2 = 0 ∨ (subLoop borrow as bs).2 = -1) := by
  have hbase : BASE = 32768 := rfl
  induction as generalizing borrow bs with
  | nil =>
    obtain rfl : bs = [] := eq_nil_of_length_eq_zero (by simpa using hleng)
    simp [subLoop, IsDigits, hbor, value_nil]
  | cons a as ih =>
    obtain ⟨ha1, ha⟩ := forall_mem_cons.1 ha
    have hbit : ∀ x : ℤ, (if carryBit x then -1 else 0 : ℤ) = 0 ∨
        (if carryBit x then -1 else 0 : ℤ) = -1 := fun x => by split_ifs <;> simp
    cases bs with
    | nil =>
      -- the borrow is one if there is one from this place
      have hkeep : (if carryBit (borrow + a) then borrow else 0) =
          if carryBit (borrow + a) then -1 else 0 := by
        split_ifs with h
        · rw [carryBit, decide_eq_true_eq] at h
          omega
        · rfl
      have hplc := digitOf_add_borrow (x := borrow + a) (by omega) (by omega)
      obtain ⟨hsum, hdig, hlen, hone⟩ := ih (hbit (borrow + a)) ha hb (Nat.zero_le _)
      rw [subLoop, hkeep]
      refine ⟨?_, hdig.cons (digitOf_lt _), by rw [length_cons, hlen, length_cons], hone⟩
      dsimp only
      rw [value_cons, value_cons, length_cons, pow_succ]
      rw [value_nil] at hsum ⊢
      push_cast at hsum ⊢
      linear_combination (BASE : ℤ) * hsum + hplc
    | cons b bs =>
      obtain ⟨hb1, hb⟩ := forall_mem_cons.1 hb
      have hplc := digitOf_add_borrow (x := borrow + a - b) (by omega) (by omega)
      obtain ⟨hsum, hdig, hlen, hone⟩ := ih (hbit (borrow + a - b)) ha hb
        (Nat.le_of_succ_le_succ hleng)
      rw [subLoop]
      refine ⟨?_, hdig.cons (digitOf_lt _), by rw [length_cons, hlen, length_cons], hone⟩
      dsimp only
      rw [value_cons, value_cons, value_cons, length_cons, pow_succ]
      push_cast at hsum ⊢
      linear_combination (BASE : ℤ) * hsum + hplc

/-- A positive number, which may have leading zeros. -/
structure Positive (a : Mint) : Prop where
  nonneg : 0 ≤ a.len
  length : a.digits.length = a.len.natAbs
  isDigits : IsDigits a.digits

theorem Canonical.positive (h : Canonical a) (hlen : 0 ≤ a.len) : Positive a :=
  ⟨hlen, h.length, h.isDigits⟩

/-- There is no leading zero if the number is large enough. -/
theorem Positive.canonical_iff (h : Positive a) :
    Canonical a ↔ a.len = 0 ∨ BASE ^ (a.len.natAbs - 1) ≤ value a.digits := by
  have htop := getLast?_ne_zero_iff one_lt_BASE h.isDigits
  have hnil : a.digits = [] ↔ a.len = 0 := by
    rw [← length_eq_zero_iff, h.length, Int.natAbs_eq_zero]
  rw [hnil, h.length] at htop
  exact ⟨fun hc => htop.1 hc.top, fun hlrg => ⟨h.length, h.isDigits, htop.2 hlrg⟩⟩

/-- A number whose digits are given. -/
theorem digits_mk (h : l.length = n) : Mint.digits ⟨n, l⟩ = l :=
  take_of_length_le (by rw [h, Int.natAbs_natCast])

theorem Positive.mk_of (h : l.length = n) (hl : IsDigits l) :
    Positive ⟨n, l⟩ := by
  refine ⟨Int.natCast_nonneg _, ?_, ?_⟩
  · rw [digits_mk h, h, Int.natAbs_natCast]
  · rwa [digits_mk h]

/-- Positive numbers are added, the first as long as the second. -/
theorem mAdd_spec (ha : Positive a) (hb : Positive b) (h : b.len ≤ a.len) :
    Positive (mAdd a b) ∧ value (mAdd a b).digits = value a.digits + value b.digits ∧
      (Canonical a → Canonical (mAdd a b)) ∧
        ((mAdd a b).len = a.len ∨ BASE ^ a.len.natAbs ≤ value a.digits + value b.digits) := by
  have hnon := hb.nonneg
  obtain ⟨n, hn⟩ : ∃ n : ℕ, a.len = n := Int.eq_ofNat_of_zero_le ha.nonneg
  have hleng : a.digits.length = n := by rw [ha.length, hn, Int.natAbs_natCast]
  obtain ⟨hsum, hdig, hlen, hone⟩ := addLoop_spec (Nat.zero_le 1) ha.isDigits hb.isDigits
    (by rw [ha.length, hb.length]; omega)
  rw [hleng] at hsum hlen
  rw [mAdd]
  split_ifs with hcry
  · have hlen' : ((addLoop 0 a.digits b.digits).1 ++ [1]).length = n + 1 := by
      rw [length_append, hlen, length_singleton]
    have hpos := Positive.mk_of hlen' (hdig.append (forall_mem_singleton.2 one_lt_BASE))
    have hval := digits_mk hlen'
    rw [hn]
    push_cast at hpos hval ⊢
    rw [add_zero, hcry, mul_one] at hsum
    refine ⟨hpos, ?_, fun _ => ⟨hpos.length, hpos.isDigits, ?_⟩, .inr ?_⟩
    · rw [hval, value_concat, hlen, ← hsum, mul_one]
    · rw [hval, getLast?_concat]
      decide
    · rw [← hsum, Int.natAbs_natCast]
      exact Nat.le_add_left _ _
  · have hzero : (addLoop 0 a.digits b.digits).2 = 0 := by omega
    rw [hzero, mul_zero, add_zero, add_zero] at hsum
    have hpos := Positive.mk_of hlen hdig
    have hval := digits_mk hlen
    rw [hn]
    refine ⟨hpos, by rw [hval, hsum], fun hcan => hpos.canonical_iff.2 ?_, .inl rfl⟩
    rw [hval, hsum]
    rcases ha.canonical_iff.1 hcan with hzero | hlrg
    · exact .inl (hn.symm.trans hzero)
    · rw [hn] at hlrg
      exact .inr (hlrg.trans (Nat.le_add_right _ _))

theorem maddPos_spec (ha : Positive a) (hb : Positive b) :
    Positive (maddPos a b) ∧ value (maddPos a b).digits = value a.digits + value b.digits ∧
      (Canonical a → Canonical b → Canonical (maddPos a b)) := by
  rw [maddPos]
  split_ifs with h
  · obtain ⟨hpos, hsum, hcan, -⟩ := mAdd_spec ha hb h
    exact ⟨hpos, hsum, fun h _ => hcan h⟩
  · obtain ⟨hpos, hsum, hcan, -⟩ := mAdd_spec hb ha (by omega)
    exact ⟨hpos, hsum.trans (add_comm _ _), fun _ h => hcan h⟩

/-- The digits up to the last one that is not zero are those of the same number. -/
theorem topDigit_spec (h : n ≤ val.length) :
    topDigit val n ≤ n ∧ value (val.take (topDigit val n)) = value (val.take n) ∧
      (val.take (topDigit val n)).getLast? ≠ some 0 := by
  induction n with
  | zero => simp [topDigit]
  | succ n ih =>
    have hlt : n < val.length := h
    have htake : val.take (n + 1) = val.take n ++ [val.getD n 0] := by
      rw [take_succ_eq_append_getElem hlt, getD_eq_getElem _ _ hlt]
    rw [topDigit]
    split_ifs with hd
    · refine ⟨le_rfl, rfl, ?_⟩
      rw [htake, getLast?_concat]
      exact fun h => absurd (Option.some.inj h) hd.ne'
    · obtain ⟨hle, hvalue, hlast⟩ := ih hlt.le
      refine ⟨hle.trans n.le_succ, ?_, hlast⟩
      rw [hvalue, htake, value_concat, Nat.eq_zero_of_not_pos hd, mul_zero, add_zero]

/-- The digits that are complemented. -/
theorem xor_digit (h : d < BASE) : d ^^^ 0o77777 = 0o77777 - d := by
  have hd : d < 2 ^ 15 := h
  have hxor := congrArg BitVec.toNat (BitVec.xor_allOnes (x := BitVec.ofNat 15 d))
  rw [BitVec.toNat_xor, BitVec.toNat_not, BitVec.toNat_ofNat, Nat.mod_eq_of_lt hd,
    BitVec.toNat_allOnes] at hxor
  exact hxor

theorem complement_spec (h : IsDigits l) :
    value (l.map fun d => d ^^^ 0o77777) + value l + 1 = BASE ^ l.length ∧
      IsDigits (l.map fun d => d ^^^ 0o77777) := by
  induction l with
  | nil => exact ⟨rfl, h⟩
  | cons d l ih =>
    obtain ⟨hd, hl⟩ := forall_mem_cons.1 h
    obtain ⟨hvalue, hdig⟩ := ih hl
    have hbase : BASE = 32768 := rfl
    rw [map_cons, xor_digit hd]
    refine ⟨?_, hdig.cons (by omega)⟩
    rw [value_cons, value_cons, length_cons, pow_succ, ← hvalue]
    rw [hbase] at hd ⊢
    omega

theorem canonical_zero : Canonical ⟨0, []⟩ where
  length := rfl
  isDigits _ h := nomatch h
  top := by decide

/-- The first digits of `val` that are not zero, with a sign. -/
theorem topDigit_canonical (h : n ≤ val.length) (hval : IsDigits (val.take n))
    {len : ℤ} (hlen : len.natAbs = topDigit val n) :
    Canonical ⟨len, val⟩ ∧ value (Mint.digits ⟨len, val⟩) = value (val.take n) := by
  obtain ⟨hle, hvalue, hlast⟩ := topDigit_spec h
  have hdig : Mint.digits ⟨len, val⟩ = val.take (topDigit val n) := by rw [Mint.digits, hlen]
  refine ⟨⟨?_, ?_, ?_⟩, by rw [hdig, hvalue]⟩
  · rw [hdig, length_take_of_le (hle.trans h), hlen]
  · rw [hdig]
    exact fun d hd => hval d (take_subset_take_left _ hle hd)
  · rwa [hdig]

/-- Positive numbers are subtracted, the first as long as the second. -/
theorem mSub_spec (ha : Positive a) (hb : Positive b) (h : b.len ≤ a.len) :
    Canonical (mSub a b) ∧ (mSub a b).toInt = value a.digits - value b.digits := by
  have hnon := hb.nonneg
  obtain ⟨n, hn⟩ : ∃ n : ℕ, a.len = n := Int.eq_ofNat_of_zero_le ha.nonneg
  have hleng : a.digits.length = n := by rw [ha.length, hn, Int.natAbs_natCast]
  obtain ⟨hsum, hdig, hlen, hone⟩ := subLoop_spec (.inl rfl) ha.isDigits hb.isDigits
    (by rw [ha.length, hb.length]; omega)
  rw [hleng] at hsum hlen
  rw [mSub, hn, Int.natAbs_natCast]
  generalize subLoop 0 a.digits b.digits = r at hsum hdig hlen hone ⊢
  obtain ⟨cval, borrow⟩ := r
  dsimp only at hsum hdig hlen hone ⊢
  rcases hone with rfl | rfl
  · have htake : cval.take n = cval := take_of_length_le hlen.le
    obtain ⟨hcan, hvalue⟩ := topDigit_canonical hlen.ge (by rwa [htake])
      (Int.natAbs_natCast (topDigit cval n))
    rw [htake] at hvalue
    rw [if_neg (lt_irrefl (0 : ℤ)), if_pos rfl]
    by_cases hzero : topDigit cval n = 0
    · rw [if_pos hzero]
      rw [hzero] at hvalue
      have hnone : value cval = 0 := hvalue.symm
      refine ⟨canonical_zero, ?_⟩
      rw [Mint.toInt]
      push_cast [hnone] at hsum ⊢
      simp only [Int.sign_zero, zero_mul]
      linarith only [hsum]
    · rw [if_neg hzero]
      refine ⟨hcan, ?_⟩
      rw [Mint.toInt, hvalue, Int.sign_eq_one_of_pos (by omega : (0 : ℤ) < topDigit cval n)]
      linarith only [hsum]
  · have hlt : value cval < BASE ^ n := by
      have := hdig.lt
      rwa [hlen] at this
    have hltb : value b.digits < BASE ^ n :=
      hb.isDigits.lt.trans_le (Nat.pow_le_pow_right (by decide) (by rw [hb.length]; omega))
    have hsum' : value cval + value b.digits = value a.digits + BASE ^ n := by
      zify
      linarith only [hsum]
    have hn0 : 1 ≤ n := by
      by_contra hn0
      obtain rfl : n = 0 := by omega
      simp only [pow_zero] at hlt hltb hsum'
      omega
    obtain ⟨hcompl, hcdi⟩ := complement_spec hdig
    rw [hlen] at hcompl
    have hx : Positive ⟨n, cval.map fun d => d ^^^ 0o77777⟩ :=
      .mk_of (by rw [length_map, hlen]) hcdi
    have hone : Positive ⟨1, [1]⟩ := .mk_of (n := 1) rfl (forall_mem_singleton.2 one_lt_BASE)
    have hxdi := digits_mk (n := n) (l := cval.map fun d => d ^^^ 0o77777)
      (by rw [length_map, hlen])
    obtain ⟨hpos, hvalue, -, hclen⟩ := mAdd_spec hx hone (by push_cast; omega)
    have hvone : value (Mint.digits ⟨1, [1]⟩) = 1 := rfl
    rw [hxdi, hvone] at hvalue hclen
    have hmadd : maddPos ⟨n, cval.map fun d => d ^^^ 0o77777⟩ ⟨1, [1]⟩ =
        mAdd ⟨n, cval.map fun d => d ^^^ 0o77777⟩ ⟨1, [1]⟩ := if_pos (by push_cast; omega)
    rw [if_pos (by decide : (-1 : ℤ) < 0), hmadd]
    generalize mAdd ⟨n, cval.map fun d => d ^^^ 0o77777⟩ ⟨1, [1]⟩ = c at hpos hvalue hclen ⊢
    have hclen : c.len = n := by
      rcases hclen with hclen | hlrg
      · exact hclen
      · rw [Int.natAbs_natCast] at hlrg
        omega
    have hctake : c.val.take n = c.digits := by rw [Mint.digits, hclen, Int.natAbs_natCast]
    have hcval : n ≤ c.val.length := by
      have := hpos.length
      rw [Mint.digits, hclen, Int.natAbs_natCast, length_take] at this
      omega
    have htop : (-(topDigit c.val n : ℤ)).natAbs = topDigit c.val n := by
      rw [Int.natAbs_neg, Int.natAbs_natCast]
    obtain ⟨hcan, hctop⟩ := topDigit_canonical hcval (by rw [hctake]; exact hpos.isDigits) htop
    rw [hctake, hvalue] at hctop
    by_cases hzero : topDigit c.val n = 0
    · rw [hzero] at hctop
      have hnone : 0 = value (cval.map fun d => d ^^^ 0o77777) + 1 := hctop
      omega
    · rw [if_neg hzero, if_neg (by decide : (-1 : ℤ) ≠ 0)]
      refine ⟨hcan, ?_⟩
      rw [Mint.toInt, hctop, Int.sign_eq_neg_one_of_neg (by dsimp only; omega)]
      push_cast
      zify at hcompl hsum'
      linarith only [hcompl, hsum']

/-! ### Any signs -/

theorem len_neg (a : Mint) : a.neg.len = -a.len := rfl

theorem digits_neg (a : Mint) : a.neg.digits = a.digits := by
  rw [Mint.digits, Mint.neg, Int.natAbs_neg, Mint.digits]

theorem toInt_neg (a : Mint) : a.neg.toInt = -a.toInt := by
  rw [Mint.toInt, digits_neg, Mint.neg, Int.sign_neg, Int.neg_mul, Mint.toInt]

theorem Canonical.neg (h : Canonical a) : Canonical a.neg := by
  refine ⟨?_, ?_, ?_⟩
  · rw [digits_neg, h.length, Mint.neg, Int.natAbs_neg]
  · rw [digits_neg]
    exact h.isDigits
  · rw [digits_neg]
    exact h.top

theorem Positive.toInt (h : Positive a) : a.toInt = value a.digits := by
  rw [Mint.toInt]
  rcases h.nonneg.eq_or_lt with hzero | hpos
  · have hnil : a.digits = [] := eq_nil_of_length_eq_zero (by rw [h.length, ← hzero]; rfl)
    rw [hnil, value_nil, Nat.cast_zero, mul_zero]
  · rw [Int.sign_eq_one_of_pos hpos, one_mul]

/-- How large a number of some digits is. -/
theorem Canonical.bounds (h : Canonical a) : value a.digits < BASE ^ a.len.natAbs ∧
    (a.len ≠ 0 → BASE ^ (a.len.natAbs - 1) ≤ value a.digits) := by
  have hlrg := getLast?_ne_zero_iff one_lt_BASE h.isDigits
  rw [← length_eq_zero_iff, h.length, Int.natAbs_eq_zero] at hlrg
  refine ⟨?_, fun hlen => (hlrg.1 h.top).resolve_left hlen⟩
  rw [← h.length]
  exact h.isDigits.lt

/-- The sign of a number is that of its length. -/
theorem Canonical.sign_toInt (h : Canonical a) : a.toInt.sign = a.len.sign := by
  rw [Mint.toInt, Int.sign_mul, Int.sign_sign]
  rcases eq_or_ne a.len 0 with hlen | hlen
  · rw [hlen, Int.sign_zero, zero_mul]
  · have hpos : 0 < value a.digits := (Nat.pow_pos (by decide)).trans_le (h.bounds.2 hlen)
    rw [Int.sign_eq_one_of_pos (Int.natCast_pos.2 hpos), mul_one]

theorem Canonical.toInt_eq_zero (h : Canonical a) : a.toInt = 0 ↔ a.len = 0 := by
  rw [← Int.sign_eq_zero_iff_zero, h.sign_toInt, Int.sign_eq_zero_iff_zero]

theorem Canonical.toInt_neg_iff (h : Canonical a) : a.toInt < 0 ↔ a.len < 0 := by
  rw [← Int.sign_eq_neg_one_iff_neg, h.sign_toInt, Int.sign_eq_neg_one_iff_neg]

theorem Canonical.toInt_nonneg (h : Canonical a) : 0 ≤ a.toInt ↔ 0 ≤ a.len := by
  rw [← not_lt, h.toInt_neg_iff, not_lt]

theorem maddPos_canonical (ha : Canonical a) (hb : Canonical b) (ha0 : 0 ≤ a.len)
    (hb0 : 0 ≤ b.len) : Canonical (maddPos a b) ∧ (maddPos a b).toInt = a.toInt + b.toInt := by
  obtain ⟨hpos, hvalue, hcan⟩ := maddPos_spec (ha.positive ha0) (hb.positive hb0)
  refine ⟨hcan ha hb, ?_⟩
  rw [hpos.toInt, hvalue, (ha.positive ha0).toInt, (hb.positive hb0).toInt]
  exact Nat.cast_add _ _

theorem msubPos_canonical (ha : Canonical a) (hb : Canonical b) (ha0 : 0 ≤ a.len)
    (hb0 : 0 ≤ b.len) : Canonical (msubPos a b) ∧ (msubPos a b).toInt = a.toInt - b.toInt := by
  rw [msubPos, (ha.positive ha0).toInt, (hb.positive hb0).toInt]
  split_ifs with h
  · exact mSub_spec (ha.positive ha0) (hb.positive hb0) h
  · obtain ⟨hcan, hvalue⟩ := mSub_spec (hb.positive hb0) (ha.positive ha0) (by omega)
    refine ⟨hcan.neg, (toInt_neg _).trans ?_⟩
    rw [hvalue]
    ring

/-- Sums are right. -/
theorem madd_spec (ha : Canonical a) (hb : Canonical b) :
    Canonical (madd a b) ∧ (madd a b).toInt = a.toInt + b.toInt := by
  have hneg : ∀ c : Mint, c.len < 0 → 0 ≤ c.neg.len := fun c hc => by
    rw [len_neg]
    omega
  rw [madd]
  split_ifs with ha0 hb0 hb0
  · exact maddPos_canonical ha hb ha0 hb0
  · have hspec := msubPos_canonical ha hb.neg ha0 (hneg b (by omega))
    rwa [toInt_neg, sub_neg_eq_add] at hspec
  · obtain ⟨hcan, hvalue⟩ := maddPos_canonical ha.neg hb.neg (hneg a (by omega))
      (by rw [len_neg]; omega)
    rw [toInt_neg, toInt_neg] at hvalue
    refine ⟨hcan.neg, ?_⟩
    rw [toInt_neg, hvalue]
    ring
  · have hspec := msubPos_canonical hb ha.neg (by omega) (hneg a (by omega))
    rwa [toInt_neg, sub_neg_eq_add, add_comm] at hspec

/-- Differences are right, unless both numbers are negative or the second is zero: then the sign is
    wrong. -/
theorem msub_spec (ha : Canonical a) (hb : Canonical b) :
    Canonical (msub a b) ∧
      (msub a b).toInt = if a.len < 0 ∧ b.len ≤ 0 then b.toInt - a.toInt else a.toInt - b.toInt := by
  have hneg : ∀ c : Mint, c.len < 0 → 0 ≤ c.neg.len := fun c hc => by
    rw [len_neg]
    omega
  rw [msub]
  split_ifs with ha0 hb0 hsgn hsgn hb0 hsgn hsgn
  · omega
  · exact msubPos_canonical ha hb ha0 hb0
  · omega
  · have hspec := maddPos_canonical ha hb.neg ha0 (hneg b (by omega))
    rwa [toInt_neg, ← sub_eq_add_neg] at hspec
  · obtain ⟨hcan, hvalue⟩ := msubPos_canonical hb.neg ha.neg (by rw [len_neg]; omega)
      (hneg a (by omega))
    rw [toInt_neg, toInt_neg] at hvalue
    refine ⟨hcan.neg, ?_⟩
    rw [toInt_neg, hvalue]
    ring
  · omega
  · omega
  · obtain ⟨hcan, hvalue⟩ := maddPos_canonical ha.neg hb (hneg a (by omega)) (by omega)
    rw [toInt_neg] at hvalue
    refine ⟨hcan.neg, ?_⟩
    rw [toInt_neg, hvalue]
    ring

/-! ### Comparison -/

theorem toInt_lt_of_len_lt_of_nonneg (ha : Canonical a) (hb : Canonical b) (ha0 : 0 ≤ a.len)
    (h : a.len < b.len) : a.toInt < b.toInt := by
  rw [(ha.positive ha0).toInt, (hb.positive (by omega)).toInt, Nat.cast_lt]
  calc value a.digits < BASE ^ a.len.natAbs := ha.bounds.1
    _ ≤ BASE ^ (b.len.natAbs - 1) := Nat.pow_le_pow_right (by decide) (by omega)
    _ ≤ value b.digits := hb.bounds.2 (by omega)

/-- The shorter number is the smaller one. -/
theorem toInt_lt_of_len_lt (ha : Canonical a) (hb : Canonical b) (h : a.len < b.len) :
    a.toInt < b.toInt := by
  by_cases ha0 : 0 ≤ a.len
  · exact toInt_lt_of_len_lt_of_nonneg ha hb ha0 h
  · by_cases hb0 : 0 ≤ b.len
    · exact (ha.toInt_neg_iff.2 (by omega)).trans_le (hb.toInt_nonneg.2 hb0)
    · have hneg := toInt_lt_of_len_lt_of_nonneg hb.neg ha.neg (by rw [len_neg]; omega)
        (by rw [len_neg, len_neg]; omega)
      rw [toInt_neg, toInt_neg] at hneg
      omega

/-- Numbers are compared, unless they are negative and of one length: then the sign is wrong. -/
theorem sign_mcmp (ha : Canonical a) (hb : Canonical b) : (mcmp a b).sign =
    if a.len = b.len ∧ a.len < 0 then (b.toInt - a.toInt).sign else (a.toInt - b.toInt).sign := by
  rw [mcmp]
  split_ifs with hlen hsgn hsgn
  · exact absurd hsgn.1 hlen
  · rcases lt_or_gt_of_ne hlen with hlt | hlt
    · have := toInt_lt_of_len_lt ha hb hlt
      rw [Int.sign_eq_neg_one_of_neg (by omega), Int.sign_eq_neg_one_of_neg (by omega)]
    · have := toInt_lt_of_len_lt hb ha hlt
      rw [Int.sign_eq_one_of_pos (by omega), Int.sign_eq_one_of_pos (by omega)]
  · obtain ⟨hcan, hvalue⟩ := msub_spec ha hb
    rw [if_pos ⟨hsgn.2, by omega⟩] at hvalue
    rw [← hcan.sign_toInt, hvalue]
  · obtain ⟨hcan, hvalue⟩ := msub_spec ha hb
    rw [if_neg (by omega)] at hvalue
    rw [← hcan.sign_toInt, hvalue]

end Uwisc.Mp
