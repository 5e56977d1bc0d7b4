import Uwisc.Libmp.Sums

/-!
# Products of multiple precision integers

* `column_spec`: a column is summed up, with the carry counted in units of `2 ^ 31`;
* `multLoop_spec`: one column after the other gives the digits of the product;
* `mult_spec`: a product is right, unless a number is zero: then its digits are zero, but there may
  be some left, or the number of them may be negative.
-/

namespace Uwisc.Mp

open Lib List
open Nat (ofDigits ofDigits_cons)

variable {a b : Mint} {as bs : List ℕ}

/-! ### Columns -/

theorem tradd_spec (carry : ℕ) {x : ℕ} {sum : BitVec 32} (hx : sum.toNat + x < 2 ^ 32) :
    (tradd carry sum x).2.toNat < 2 ^ 31 ∧
      (tradd carry sum x).1 * 2 ^ 31 + (tradd carry sum x).2.toNat =
        carry * 2 ^ 31 + sum.toNat + x := by
  have hadd : (sum + BitVec.ofNat 32 x).toNat = sum.toNat + x := by
    rw [BitVec.toNat_add, BitVec.toNat_ofNat]
    omega
  have hmask : ((sum + BitVec.ofNat 32 x) &&& 0x7fffffff).toNat = (sum.toNat + x) % 2 ^ 31 := by
    have hand := Nat.and_two_pow_sub_one_eq_mod (sum.toNat + x) 31
    rw [BitVec.toNat_and, hadd]
    exact hand
  rw [tradd, BitVec.msb_eq_decide, hadd]
  by_cases hbit : 2 ^ (32 - 1) ≤ sum.toNat + x
  · simp only [hbit, decide_true, if_true, hmask]
    omega
  · simp only [hbit, decide_false, Bool.false_eq_true, if_false, hadd]
    omega

/-- The products of a column. -/
def columnTotal (a b : List ℕ) (col : ℕ × ℕ × ℕ) : ℕ :=
  ((range' col.2.1 (col.2.2 - col.2.1)).map fun j => a.getD j 0 * b.getD (col.1 - j) 0).sum

theorem IsDigits.getD_lt {l : List ℕ} (hl : IsDigits l) (n : ℕ) : l.getD n 0 < BASE := by
  rcases lt_or_ge n l.length with h | h
  · rw [getD_eq_getElem _ _ h]
    exact hl _ (getElem_mem h)
  · rw [getD_eq_default _ _ h]
    decide

theorem mul_lt_of_isDigits (ha : IsDigits as) (hb : IsDigits bs) (i j : ℕ) :
    as.getD j 0 * bs.getD i 0 < 2 ^ 30 := by
  calc as.getD j 0 * bs.getD i 0 < BASE * BASE := Nat.mul_lt_mul'' (ha.getD_lt j) (hb.getD_lt i)
    _ = 2 ^ 30 := by norm_num [BASE]

/-- The sum that is kept in two parts. -/
def total (s : ℕ × BitVec 32) : ℕ := s.1 * 2 ^ 31 + s.2.toNat

/-- A column is summed up; what comes into a column of no products has its high bit clear. -/
theorem column_spec (ha : IsDigits as) (hb : IsDigits bs) {sum : BitVec 32} {i lo hi : ℕ}
    (hsum : sum.toNat ≤ 3 * 2 ^ 30) (hemp : hi ≤ lo → sum.toNat < 2 ^ 31) :
    (column as bs i lo hi sum).2.toNat < 2 ^ 31 ∧
      total (column as bs i lo hi sum) = sum.toNat + columnTotal as bs (i, lo, hi) := by
  have hfold : ∀ (js : List ℕ) (s : ℕ × BitVec 32), s.2.toNat ≤ 3 * 2 ^ 30 →
      (js = [] → s.2.toNat < 2 ^ 31) →
      (js.foldl (fun s j => tradd s.1 s.2 (as.getD j 0 * bs.getD (i - j) 0)) s).2.toNat < 2 ^ 31 ∧
        total (js.foldl (fun s j => tradd s.1 s.2 (as.getD j 0 * bs.getD (i - j) 0)) s) =
          total s + (js.map fun j => as.getD j 0 * bs.getD (i - j) 0).sum := by
    intro js
    induction js with
    | nil =>
      intro s _ hs
      exact ⟨hs rfl, (add_zero _).symm⟩
    | cons j js ih =>
      intro s hs _
      have hpro := mul_lt_of_isDigits ha hb (i - j) j
      obtain ⟨hlt, hone⟩ := tradd_spec s.1
        (by omega : s.2.toNat + as.getD j 0 * bs.getD (i - j) 0 < 2 ^ 32)
      obtain ⟨hlt', hall⟩ :=
        ih (tradd s.1 s.2 (as.getD j 0 * bs.getD (i - j) 0)) (by omega) fun _ => hlt
      refine ⟨hlt', ?_⟩
      rw [foldl_cons, hall, map_cons, sum_cons, ← add_assoc]
      exact congrArg (· + _) hone
  obtain ⟨hlt, hall⟩ := hfold (range' lo (hi - lo)) (0, sum) hsum fun hnil =>
    hemp (Nat.sub_eq_zero_iff_le.1 (range'_eq_nil_iff.1 hnil))
  refine ⟨hlt, hall.trans ?_⟩
  rw [total, zero_mul, zero_add, columnTotal]

/-- How many products there are in a column. -/
def terms (col : ℕ × ℕ × ℕ) : ℕ := col.2.2 - col.2.1

theorem columnTotal_le (ha : IsDigits as) (hb : IsDigits bs) (col : ℕ × ℕ × ℕ) :
    columnTotal as bs col ≤ terms col * (0o77777 * 0o77777) := by
  have hsum := sum_le_card_nsmul ((range' col.2.1 (col.2.2 - col.2.1)).map
    fun j => as.getD j 0 * bs.getD (col.1 - j) 0) (0o77777 * 0o77777) (by
      intro x hx
      obtain ⟨j, -, rfl⟩ := List.mem_map.1 hx
      exact Nat.mul_le_mul (Nat.le_of_lt_succ (ha.getD_lt j))
        (Nat.le_of_lt_succ (hb.getD_lt (col.1 - j))))
  rwa [length_map, length_range', smul_eq_mul] at hsum

/-- The digit of a column, and what is carried over to the next. -/
theorem next_spec {s : ℕ × BitVec 32} (hs : s.2.toNat < 2 ^ 31) (htotal : total s < 2 ^ 47) :
    s.2.toNat % BASE = total s % BASE ∧
      (BitVec.ofNat 16 s.1 ++ ((s.2.sshiftRight 15).extractLsb' 0 16)).toNat = total s / BASE := by
  obtain ⟨carry, sum⟩ := s
  rw [total] at htotal ⊢
  dsimp only at hs htotal ⊢
  have hbase : BASE = 32768 := rfl
  have hmsb : sum.msb = false := by
    rw [BitVec.msb_eq_decide, decide_eq_false_iff_not]
    exact not_le.2 hs
  have hlow : ((sum.sshiftRight 15).extractLsb' 0 16).toNat = sum.toNat / 2 ^ 15 := by
    rw [BitVec.sshiftRight_eq_of_msb_false hmsb, BitVec.extractLsb'_toNat, BitVec.toNat_ushiftRight,
      Nat.shiftRight_zero, Nat.shiftRight_eq_div_pow]
    omega
  refine ⟨by rw [hbase]; omega, ?_⟩
  rw [BitVec.toNat_append, hlow, BitVec.toNat_ofNat, ← Nat.shiftLeft_add_eq_or_of_lt (by omega),
    Nat.shiftLeft_eq, hbase]
  omega

/-- A sum and its carry, up to some digits. -/
theorem mod_add_mul_mod (s r c n : ℕ) :
    s % c + c * ((s / c + r) % c ^ n) = (s + c * r) % c ^ (n + 1) := by
  rw [pow_succ', Nat.mod_mul, Nat.add_mul_mod_self_left]
  rcases Nat.eq_zero_or_pos c with rfl | hc
  · simp
  · rw [Nat.add_mul_div_left _ _ hc]

/-- One column after the other. What comes into a column is less than a digit for each of its
    products and one more, as there is at most one product less than in the column before. -/
theorem multLoop_spec (ha : IsDigits as) (hb : IsDigits bs) {sum : BitVec 32}
    {cols : List (ℕ × ℕ × ℕ)} (hsum : ∀ col ∈ cols.head?, sum.toNat ≤ (terms col + 1) * 2 ^ 15)
    (hcols : ∀ col ∈ cols, terms col < 3 * 2 ^ 15)
    (hchn : cols.IsChain fun col col' => terms col ≤ terms col' + 1) :
    value (multLoop as bs sum cols) =
        (sum.toNat + ofDigits BASE (cols.map (columnTotal as bs))) % BASE ^ cols.length ∧
      IsDigits (multLoop as bs sum cols) ∧ (multLoop as bs sum cols).length = cols.length := by
  induction cols generalizing sum with
  | nil => exact ⟨by simp [multLoop, value_nil, Nat.mod_one], (fun _ h => nomatch h), rfl⟩
  | cons col cols ih =>
    obtain ⟨i, lo, hi⟩ := col
    obtain ⟨hcol, hcols⟩ := List.forall_mem_cons.1 hcols
    have hin := hsum (i, lo, hi) rfl
    have hterms : terms (i, lo, hi) = hi - lo := rfl
    have hsum' : sum.toNat ≤ 3 * 2 ^ 30 := by
      calc sum.toNat ≤ (terms (i, lo, hi) + 1) * 2 ^ 15 := hin
        _ ≤ 3 * 2 ^ 15 * 2 ^ 15 := Nat.mul_le_mul_right _ hcol
        _ = 3 * 2 ^ 30 := by norm_num
    obtain ⟨hlt, htotal⟩ := @column_spec as bs ha hb sum i lo hi hsum' (by omega)
    have hle := columnTotal_le ha hb (i, lo, hi)
    have hbase : BASE = 32768 := rfl
    rw [multLoop]
    generalize column as bs i lo hi sum = s at hlt htotal ⊢
    obtain ⟨hdgt, hnx⟩ := next_spec (s := s) hlt (by omega)
    rw [htotal] at hdgt hnx
    obtain ⟨hfew, hchn⟩ := isChain_cons.1 hchn
    obtain ⟨hvalue, hdig, hleng⟩ := ih (fun col' hcol' => by
      have hfew := hfew col' hcol'
      rw [hnx, hbase]
      omega) hcols hchn
    refine ⟨?_, hdig.cons (Nat.mod_lt _ (by decide)), by
      rw [length_cons, hleng, length_cons]⟩
    rw [value_cons, hvalue, hnx, hdgt, map_cons, ofDigits_cons, length_cons, ← add_assoc]
    exact mod_add_mul_mod _ _ _ _

/-! ### The product -/

/-- The three loops, as one. -/
theorem columns_eq {la lb : ℕ} (h : lb ≤ la) :
    columns la lb = (List.range (la + lb)).map fun i => (i, i + 1 - lb, min (i + 1) la) := by
  have hrng : List.range (la + lb) = List.range lb ++ (range' lb (la - lb) ++ range' la lb) := by
    have hhigh : range' lb (la - lb) ++ range' la lb = range' lb la := by
      have happ := range'_append_1 (s := lb) (m := la - lb) (n := lb)
      rwa [Nat.add_sub_cancel' h, Nat.sub_add_cancel h] at happ
    have happ := range'_append_1 (s := 0) (m := lb) (n := la)
    rw [zero_add, add_comm] at happ
    rw [hhigh, range_eq_range', range_eq_range', happ]
  rw [hrng, map_append, map_append, columns]
  refine congrArg₂ _ ?_ (congrArg₂ _ ?_ ?_)
  · refine map_congr_left fun i hi => ?_
    have := List.mem_range.1 hi
    rw [Nat.sub_eq_zero_of_le (by omega : i + 1 ≤ lb), Nat.min_eq_left (by omega)]
  · refine map_congr_left fun i hi => ?_
    have := mem_range'_1.1 hi
    rw [Nat.min_eq_left (by omega)]
  · refine map_congr_left fun i hi => ?_
    have := mem_range'_1.1 hi
    rw [Nat.min_eq_right (by omega)]

/-- The products that are left out are of no digits. -/
theorem columnTotal_eq (as bs : List ℕ) (i : ℕ) :
    columnTotal as bs (i, i + 1 - bs.length, min (i + 1) as.length) =
      ∑ j ∈ Finset.range (i + 1), as.getD j 0 * bs.getD (i - j) 0 := by
  change ∑ j ∈ Finset.Ico (i + 1 - bs.length) (min (i + 1) as.length),
    as.getD j 0 * bs.getD (i - j) 0 = _
  refine Finset.sum_subset ?_ ?_
  · intro j hj
    rw [Finset.mem_Ico] at hj
    exact Finset.mem_range.2 (by omega)
  · intro j hj hnot
    rw [Finset.mem_range] at hj
    rw [Finset.mem_Ico] at hnot
    by_cases hlow : j < i + 1 - bs.length
    · rw [getD_eq_default bs _ (by omega), mul_zero]
    · rw [getD_eq_default as _ (by omega), zero_mul]

/-- The digits of the product. -/
theorem multLoop_columns (ha : IsDigits as) (hb : IsDigits bs) (h : bs.length ≤ as.length)
    (hsht : bs.length < 3 * 2 ^ 15) :
    value (multLoop as bs 0 (columns as.length bs.length)) = value as * value bs ∧
      IsDigits (multLoop as bs 0 (columns as.length bs.length)) ∧
      (multLoop as bs 0 (columns as.length bs.length)).length = as.length + bs.length := by
  have hcolu := columns_eq h
  have hcols : ∀ col ∈ columns as.length bs.length, terms col < 3 * 2 ^ 15 := by
    rw [hcolu]
    intro col hcol
    obtain ⟨i, -, rfl⟩ := List.mem_map.1 hcol
    rw [terms]
    dsimp only
    omega
  have hchn : (columns as.length bs.length).IsChain fun col col' => terms col ≤ terms col' + 1 := by
    rw [hcolu, isChain_map, isChain_range]
    intro i _
    rw [terms, terms]
    dsimp only
    omega
  have hsum : (0 : BitVec 32).toNat = 0 := rfl
  obtain ⟨hvalue, hdig, hleng⟩ := @multLoop_spec as bs ha hb 0 _ (by
    intro col _
    rw [hsum]
    exact Nat.zero_le _) hcols hchn
  have hlen : (columns as.length bs.length).length = as.length + bs.length := by
    rw [hcolu, length_map, length_range]
  have htot : (columns as.length bs.length).map (columnTotal as bs) =
      (List.range (as.length + bs.length)).map fun i =>
        ∑ j ∈ Finset.range (i + 1), as.getD j 0 * bs.getD (i - j) 0 := by
    rw [hcolu, map_map]
    exact map_congr_left fun i _ => columnTotal_eq as bs i
  have hpro : ofDigits BASE ((columns as.length bs.length).map (columnTotal as bs)) =
      value as * value bs := by
    rw [htot, ofDigits_eq_sum BASE _ (n := as.length + bs.length) (by simp)]
    refine (Finset.sum_congr rfl fun i hi => ?_).trans (sum_columns BASE as bs)
    rw [getD_eq_getElem _ _ (by simpa using hi), getElem_map, getElem_range]
  refine ⟨?_, hdig, hleng.trans hlen⟩
  have hzero : (0 : BitVec 32).toNat = 0 := rfl
  rw [hvalue, hpro, hlen, hzero, zero_add, pow_add]
  exact Nat.mod_eq_of_lt (Nat.mul_lt_mul'' ha.lt hb.lt)

/-- At most one leading zero is left out. -/
theorem canonical_top {l : List ℕ} {n : ℕ} (hl : IsDigits l) (hleng : l.length = n + 1)
    (hlrg : n ≠ 0 → BASE ^ (n - 1) ≤ value l) :
    Canonical ⟨(if l.getD n 0 = 0 then n else n + 1 : ℕ), l⟩ ∧
      value (Mint.digits ⟨(if l.getD n 0 = 0 then n else n + 1 : ℕ), l⟩) = value l := by
  have htake : l.take n ++ [l.getD n 0] = l := by
    rw [getD_eq_getElem _ _ (by omega), ← take_succ_eq_append_getElem (by omega),
      ← hleng, take_length]
  split_ifs with htop
  · have hdig : Mint.digits ⟨n, l⟩ = l.take n := by rw [Mint.digits, Int.natAbs_natCast]
    have hvalue : value (Mint.digits ⟨n, l⟩) = value l := by
      conv_rhs => rw [← htake, htop, value_concat, mul_zero, add_zero]
      rw [hdig]
    have hpos : Positive ⟨n, l⟩ := by
      refine ⟨Int.natCast_nonneg _, ?_, ?_⟩
      · rw [hdig, length_take_of_le (by omega), Int.natAbs_natCast]
      · rw [hdig]
        exact fun d hd => hl d (mem_of_mem_take hd)
    refine ⟨hpos.canonical_iff.2 ?_, hvalue⟩
    rw [hvalue, Int.natAbs_natCast, Nat.cast_eq_zero]
    exact or_iff_not_imp_left.2 hlrg
  · have hdig := digits_mk hleng
    refine ⟨⟨?_, ?_, ?_⟩, by rw [hdig]⟩
    · rw [hdig, hleng, Int.natAbs_natCast]
    · rwa [hdig]
    · rw [hdig, ← htake, getLast?_concat]
      exact fun h => htop (Option.some.inj h)

variable (before : ℕ)

theorem mMult_val (ha : Positive a) (hb : Positive b) (h : b.len ≤ a.len)
    (hsht : b.len < 3 * 2 ^ 15) :
    value (mMult before a b).val = value a.digits * value b.digits ∧
      IsDigits (mMult before a b).val ∧
      (mMult before a b).val.length = a.len.natAbs + b.len.natAbs := by
  have hnon := hb.nonneg
  have hspec := multLoop_columns ha.isDigits hb.isDigits (by rw [ha.length, hb.length]; omega)
    (by rw [hb.length]; omega)
  rw [ha.length, hb.length] at hspec
  exact hspec

/-- The product of numbers that are not zero. -/
theorem mMult_spec (ha : Canonical a) (hb : Canonical b) (hb0 : 0 < b.len)
    (h : b.len ≤ a.len) (hsht : b.len < 3 * 2 ^ 15) :
    Canonical (mMult before a b) ∧ 0 < (mMult before a b).len ∧
      value (mMult before a b).digits = value a.digits * value b.digits := by
  obtain ⟨hvalue, hdig, hleng⟩ :=
    mMult_val before (ha.positive (by omega)) (hb.positive hb0.le) h hsht
  obtain ⟨la, hla⟩ : ∃ la : ℕ, a.len.natAbs = la + 1 := ⟨a.len.natAbs - 1, by omega⟩
  obtain ⟨lb, hlb⟩ : ∃ lb : ℕ, b.len.natAbs = lb + 1 := ⟨b.len.natAbs - 1, by omega⟩
  have hlrg : BASE ^ (la + lb) ≤ value a.digits * value b.digits := by
    have hla' := ha.bounds.2 (by omega)
    have hlb' := hb.bounds.2 (by omega)
    rw [hla, Nat.add_sub_cancel] at hla'
    rw [hlb, Nat.add_sub_cancel] at hlb'
    rw [pow_add]
    exact Nat.mul_le_mul hla' hlb'
  have hn : a.len.natAbs + b.len.natAbs = la + lb + 1 + 1 := by omega
  rw [hn] at hleng
  obtain ⟨hcan, htop⟩ := canonical_top hdig hleng fun _ => by
    rw [hvalue, Nat.add_sub_cancel]
    exact hlrg
  have hlen : (mMult before a b).len =
      ((if (mMult before a b).val.getD (la + lb + 1) 0 = 0 then la + lb + 1 else la + lb + 1 + 1 : ℕ)
        : ℤ) := by
    have hval : (mMult before a b).len = if (if la + lb + 1 + 1 = 0 then before else
        (mMult before a b).val.getD (la + lb + 1 + 1 - 1) 0) ≠ 0 then ((la + lb + 1 + 1 : ℕ) : ℤ)
        else ((la + lb + 1 + 1 : ℕ) : ℤ) - 1 := by rw [← hn]; rfl
    rw [hval, if_neg (Nat.succ_ne_zero _), Nat.add_sub_cancel]
    simp only [ne_eq, ite_not]
    split_ifs
    · push_cast
      ring
    · rfl
  rw [← hlen] at hcan htop
  refine ⟨hcan, ?_, htop.trans hvalue⟩
  rw [hlen]
  split_ifs <;> omega

theorem getD_eq_zero_of_value {l : List ℕ} (h : value l = 0) (i : ℕ) : l.getD i 0 = 0 := by
  induction l generalizing i with
  | nil => rfl
  | cons d l ih =>
    rw [value_cons, Nat.add_eq_zero_iff, Nat.mul_eq_zero] at h
    cases i with
    | zero => exact h.1
    | succ i => exact ih (h.2.resolve_left (by decide)) i

/-- The number of digits that is found if a number is zero. -/
theorem mMult_len_of_zero (ha : Positive a) (hb : Positive b) (hb0 : b.len = 0)
    (h : b.len ≤ a.len) :
    (mMult before a b).len = if a.len = 0 ∧ before ≠ 0 then 0 else a.len - 1 := by
  have hnil : b.digits = [] := eq_nil_of_length_eq_zero (by rw [hb.length, hb0]; rfl)
  obtain ⟨hvalue, -, -⟩ := mMult_val before ha hb h (by rw [hb0]; decide)
  rw [hnil, value_nil, mul_zero] at hvalue
  have hlast := getD_eq_zero_of_value hvalue (a.len.natAbs - 1)
  have hlen : (mMult before a b).len = if (if a.len.natAbs = 0 then before else
      (mMult before a b).val.getD (a.len.natAbs - 1) 0) ≠ 0 then (a.len.natAbs : ℤ)
      else (a.len.natAbs : ℤ) - 1 := by
    have hn : a.len.natAbs + b.len.natAbs = a.len.natAbs := by rw [hb0]; rfl
    conv_rhs => rw [← hn]
    rfl
  have hnon := ha.nonneg
  rw [hlen, hlast, Int.natAbs_of_nonneg hnon]
  by_cases hzero : a.len = 0
  · by_cases hbef : before = 0 <;> simp [hzero, hbef]
  · simp [hzero]

/-- Numbers whose product is right: not zero, or zero and of a single digit; with no digit at all,
    what is in memory before the digits is looked at. -/
def MultRight (before : ℕ) (a b : Mint) : Prop :=
  a.len ≠ 0 ∧ b.len ≠ 0 ∨ a.len.natAbs + b.len.natAbs = 1 ∨ a.len = 0 ∧ b.len = 0 ∧ before ≠ 0

/-- The number without its sign, as `mult` and `mdiv` make it. -/
theorem abs_spec (ha : Canonical a) : Canonical (if a.len < 0 then a.neg else a) ∧
    (if a.len < 0 then a.neg else a).len = a.len.natAbs ∧
      (if a.len < 0 then a.neg else a).digits = a.digits := by
  split_ifs with h
  · exact ⟨ha.neg, by rw [len_neg]; omega, digits_neg a⟩
  · exact ⟨ha, by omega, rfl⟩

/-- The product of two numbers without their signs, the longer one first. -/
theorem mMult_of_swap {x y : Mint} (hx : Canonical x) (hy : Canonical y)
    (hx0 : 0 < x.len) (hy0 : 0 < y.len) (hx' : x.len < 3 * 2 ^ 15) (hy' : y.len < 3 * 2 ^ 15) {z : Mint}
    (hz : z = if x.len < y.len then mMult before y x else mMult before x y) :
    Canonical z ∧ 0 < z.len ∧ value z.digits = value x.digits * value y.digits := by
  subst hz
  split_ifs with h
  · rw [mul_comm]
    exact mMult_spec before hy hx hx0 h.le hx'
  · exact mMult_spec before hx hy hy0 (not_lt.1 h) hy'

/-- Of a product with zero, there may be digits left. -/
theorem mMult_len_of_swap {x y : Mint} (hx : Positive x) (hy : Positive y)
    (h : x.len = 0 ∨ y.len = 0) {z : Mint}
    (hz : z = if x.len < y.len then mMult before y x else mMult before x y) :
    z.len = 0 ↔ x.len + y.len = 1 ∨ x.len = 0 ∧ y.len = 0 ∧ before ≠ 0 := by
  have hx0 := hx.nonneg
  have hy0 := hy.nonneg
  subst hz
  split_ifs with hlt
  · rw [mMult_len_of_zero before hy hx (by omega) hlt.le]
    split_ifs <;> omega
  · rw [mMult_len_of_zero before hx hy (by omega) (by omega)]
    split_ifs <;> omega

/-- Products are right, but for zeros. -/
theorem mult_spec (ha : Canonical a) (hb : Canonical b)
    (ha' : a.len.natAbs < 3 * 2 ^ 15) (hb' : b.len.natAbs < 3 * 2 ^ 15) :
    Canonical (mult before a b) ∧ (mult before a b).toInt = a.toInt * b.toInt ↔
      MultRight before a b := by
  obtain ⟨hx, hxlen, hxdi⟩ := abs_spec ha
  obtain ⟨hy, hylen, hydi⟩ := abs_spec hb
  rw [mult]
  generalize (if a.len < 0 then a.neg else a) = x at *
  generalize (if b.len < 0 then b.neg else b) = y at *
  generalize hz : (if x.len < y.len then mMult before y x else mMult before x y) = z
  by_cases hzero : a.len = 0 ∨ b.len = 0
  · have hrgt : MultRight before a b ↔ z.len = 0 := by
      rw [mMult_len_of_swap before (hx.positive (by omega)) (hy.positive (by omega)) (by omega)
        hz.symm, MultRight]
      omega
    have hpro : a.toInt * b.toInt = 0 := by
      rw [Int.mul_eq_zero, ha.toInt_eq_zero, hb.toInt_eq_zero]
      exact hzero
    have hlen : (if (a.len < 0) ≠ (b.len < 0) then -z.len else z.len) = 0 ↔ z.len = 0 := by
      split_ifs <;> omega
    rw [hrgt, hpro]
    generalize (if (a.len < 0) ≠ (b.len < 0) then -z.len else z.len) = len at hlen ⊢
    rw [← hlen]
    constructor
    · rintro ⟨hcan, htoInt⟩
      exact hcan.toInt_eq_zero.1 htoInt
    · rintro rfl
      exact ⟨canonical_zero, rfl⟩
  · obtain ⟨hcan, hpos, hvalue⟩ := mMult_of_swap before hx hy (by omega) (by omega) (by omega)
      (by omega) hz.symm
    rw [iff_true_right (.inl (not_or.1 hzero)), Mint.toInt.eq_def a, Mint.toInt.eq_def b, ← hxdi,
      ← hydi]
    have htoInt : z.toInt = value x.digits * value y.digits := by
      rw [(hcan.positive hpos.le).toInt, hvalue, Nat.cast_mul]
    split_ifs with hsgn hlen hlen
    · omega
    · refine ⟨hcan.neg, (toInt_neg z).trans ?_⟩
      rw [htoInt]
      rcases lt_or_ge a.len 0 with ha0 | ha0
      · have hb0 : 0 < b.len := by
          rcases lt_trichotomy b.len 0 with h | h | h
          · exact absurd (propext ⟨fun _ => h, fun _ => ha0⟩) hsgn
          · omega
          · exact h
        rw [Int.sign_eq_neg_one_of_neg ha0, Int.sign_eq_one_of_pos hb0]
        ring
      · have hb0 : b.len < 0 := by
          by_contra hb0
          exact hsgn (propext ⟨fun h => absurd h (not_lt.2 ha0), fun h => absurd h hb0⟩)
        rw [Int.sign_eq_neg_one_of_neg hb0, Int.sign_eq_one_of_pos (by omega)]
        ring
    · omega
    · refine ⟨hcan, htoInt.trans ?_⟩
      have hsgn : a.len < 0 ↔ b.len < 0 := iff_of_eq (not_ne_iff.1 hsgn)
      rcases lt_or_ge a.len 0 with ha0 | ha0
      · rw [Int.sign_eq_neg_one_of_neg ha0, Int.sign_eq_neg_one_of_neg (hsgn.1 ha0)]
        ring
      · rw [Int.sign_eq_one_of_pos (by omega), Int.sign_eq_one_of_pos (by omega)]
        ring

end Uwisc.Mp
