import Uwisc.Libmp.Products

/-!
# Quotients of multiple precision integers

* `sDiv_spec`: division by a digit;
* `mTrq_estimate`: the digit that is tried first is right or one too much;
* `mDsb_spec`: the product is subtracted, and the divisor added again if that was too much;
* `divLoop_spec`: the digits of the quotient, where what is left stays less than the divisor;
* `mdiv_spec`: quotients are right, but the remainder has the wrong sign if the divisor is negative.
-/

namespace Uwisc.Mp

open Lib List Nat

variable {a b : Mint} {as bs : List ℕ}

/-! ### Division by a digit -/

variable {n d q m j k : ℕ} {l v w u : List ℕ} {r : List ℕ × List ℕ} {s : List ℕ × Bool}

theorem sDivLoop_spec (hn : 0 < n) (ha : IsDigits as) :
    value (sDivLoop n as).1 * n + (sDivLoop n as).2 = value as ∧ (sDivLoop n as).2 < n ∧
      IsDigits (sDivLoop n as).1 ∧ (sDivLoop n as).1.length = as.length := by
  induction as with
  | nil => exact ⟨zero_mul n, hn, (fun _ h => nomatch h), rfl⟩
  | cons d ds ih =>
    obtain ⟨hd, hds⟩ := forall_mem_cons.1 ha
    obtain ⟨hvalue, hrs, hdig, hleng⟩ := ih hds
    rw [sDivLoop]
    generalize sDivLoop n ds = r at *
    have hx : (r.2 * 0o100000 + d) / n < BASE := by
      rw [Nat.div_lt_iff_lt_mul hn]
      calc r.2 * BASE + d < r.2 * BASE + BASE := Nat.add_lt_add_left hd _
        _ = (r.2 + 1) * BASE := (succ_mul _ _).symm
        _ ≤ n * BASE := Nat.mul_le_mul_right _ hrs
        _ = BASE * n := mul_comm _ _
    refine ⟨?_, mod_lt _ hn, hdig.cons hx, by rw [length_cons, hleng, length_cons]⟩
    rw [value_cons, value_cons, ← hvalue]
    have hdiv : (r.2 * 0o100000 + d) / n * n + (r.2 * 0o100000 + d) % n = r.2 * BASE + d :=
      div_add_mod' _ _
    calc ((r.2 * 0o100000 + d) / n + BASE * value r.1) * n + (r.2 * 0o100000 + d) % n
        = ((r.2 * 0o100000 + d) / n * n + (r.2 * 0o100000 + d) % n) + BASE * value r.1 * n := by ring
      _ = (r.2 * BASE + d) + BASE * value r.1 * n := by rw [hdiv]
      _ = d + BASE * (value r.1 * n + r.2) := by ring

/-- A number is divided by a digit. -/
theorem sDiv_spec (hn : 0 < n) (hn' : n < BASE) (ha : Canonical a) :
    Canonical (sDiv a n).1 ∧ value (sDiv a n).1.digits = value a.digits / n ∧
      (sDiv a n).2 = value a.digits % n := by
  obtain ⟨hvalue, hrs, hdig, hleng⟩ := sDivLoop_spec hn ha.isDigits
  rw [ha.length] at hleng
  have hquo : value (sDivLoop n a.digits).1 = value a.digits / n := by
    rw [← hvalue, mul_comm, mul_add_div hn, div_eq_of_lt hrs, add_zero]
  have hmod : (sDivLoop n a.digits).2 = value a.digits % n := by
    rw [← hvalue, mul_comm, mul_add_mod, mod_eq_of_lt hrs]
  rw [sDiv]
  generalize sDivLoop n a.digits = r at *
  rcases Nat.eq_zero_or_pos a.len.natAbs with hlen | hlen
  · rw [hlen] at hleng ⊢
    have hnil : r.1 = [] := eq_nil_of_length_eq_zero hleng
    rw [hnil] at hquo ⊢
    exact ⟨canonical_zero, hquo, hmod⟩
  · obtain ⟨k, hk⟩ : ∃ k, a.len.natAbs = k + 1 := ⟨a.len.natAbs - 1, by omega⟩
    rw [hk] at hleng ⊢
    obtain ⟨hcan, htop⟩ := canonical_top hdig hleng fun hk0 => by
      have hlrg := ha.bounds.2 (by omega)
      rw [hk, Nat.add_sub_cancel] at hlrg
      rw [hquo, Nat.le_div_iff_mul_le hn]
      calc BASE ^ (k - 1) * n ≤ BASE ^ (k - 1) * BASE := Nat.mul_le_mul_left _ hn'.le
        _ = BASE ^ k := by rw [← pow_succ, Nat.sub_add_cancel (by omega)]
        _ ≤ value a.digits := hlrg
    rw [hquo] at htop
    have hlen : (if k + 1 ≠ 0 ∧ r.1.getD (k + 1 - 1) 0 = 0 then k + 1 - 1 else k + 1) =
        if r.1.getD k 0 = 0 then k else k + 1 := by simp
    dsimp only
    rw [hlen]
    exact ⟨hcan, htop, hmod⟩

/-! ### Leading digits -/

theorem value_append (l l' : List ℕ) : value (l ++ l') = value l + BASE ^ l.length * value l' :=
  ofDigits_append

theorem value_take_succ (l : List ℕ) (n : ℕ) :
    value (l.take (n + 1)) = value (l.take n) + BASE ^ n * l.getD n 0 := by
  rcases lt_or_ge n l.length with h | h
  · rw [take_succ_eq_append_getElem h, value_concat, length_take_of_le h.le, getD_eq_getElem _ _ h]
  · rw [take_of_length_le (by omega), take_of_length_le h, getD_eq_default _ _ h,
      mul_zero, add_zero]

theorem value_take_lt (hl : IsDigits l) (n : ℕ) : value (l.take n) < BASE ^ n := by
  have hlt : value (l.take n) < BASE ^ (l.take n).length :=
    IsDigits.lt fun d hd => hl d (mem_of_mem_take hd)
  exact hlt.trans_le (Nat.pow_le_pow_right (by decide) (length_take_le n l))

/-! ### The digit that is tried -/

theorem long_of_bounds {x : ℤ} (h : -2 ^ 31 ≤ x) (h' : x < 2 ^ 31) : long x = x := by
  rw [long]
  exact Int.bmod_eq_of_le (by omega) (by omega)

variable {v1 v2 u1 u2 u3 : ℕ}

/-- Nothing overflows if what is left of the first two digits is small. -/
theorem trqRest_eq (hd : d < BASE) (hv2 : v2 < BASE) (hu3 : u3 < BASE)
    (h : v1 * d ≤ u1 * BASE + u2) (h' : u1 * BASE + u2 < v1 * d + 2 * BASE - 1) :
    trqRest v1 v2 u1 u2 u3 d = ((u1 * BASE + u2) * BASE + u3 : ℕ) - (d * (v1 * BASE + v2) : ℕ) := by
  have hbase : BASE = 32768 := rfl
  have hprod : v2 * d ≤ 32767 * 32767 := Nat.mul_le_mul (by omega) (by omega)
  have hsml : ∃ x : ℕ, x < 65535 ∧ u1 * BASE + u2 = v1 * d + x :=
    ⟨u1 * BASE + u2 - v1 * d, by omega, by omega⟩
  obtain ⟨x, hx, hrs⟩ := hsml
  have hone : (u1 : ℤ) * 0o100000 + u2 - v1 * d = x := by
    have hcast : ((u1 * BASE + u2 : ℕ) : ℤ) = ((v1 * d + x : ℕ) : ℤ) := congrArg _ hrs
    rw [hbase] at hcast
    push_cast at hcast
    linarith only [hcast]
  have hprod' : (v2 : ℤ) * d ≤ 32767 * 32767 := by exact_mod_cast hprod
  have hnon : (0 : ℤ) ≤ (v2 : ℤ) * d := by positivity
  have hfits : long x = x := long_of_bounds (by omega) (by omega)
  have hfits' : long ((x : ℤ) * 0o100000 + u3 - v2 * d) = (x : ℤ) * 0o100000 + u3 - v2 * d := by
    have hx' : (x : ℤ) ≤ 65534 := by exact_mod_cast le_of_lt_succ hx
    have hu3' : (u3 : ℤ) ≤ 32767 := by exact_mod_cast le_of_lt_succ hu3
    exact long_of_bounds (by linarith) (by linarith)
  rw [trqRest, hone, hfits, hfits', hrs, hbase]
  push_cast
  ring

/-- If a digit is too much, then what is left of the first two digits is small for the next one. -/
theorem trqRest_pred (hd : d + 1 < BASE) (hv1 : v1 < BASE) (hv2 : v2 < BASE) (hu3 : u3 < BASE)
    (h : v1 * (d + 1) ≤ u1 * BASE + u2) (h' : u1 * BASE + u2 < v1 * (d + 1) + 2 * BASE - 1)
    (hneg : trqRest v1 v2 u1 u2 u3 (d + 1) < 0) :
    v1 * d ≤ u1 * BASE + u2 ∧ u1 * BASE + u2 < v1 * d + 2 * BASE - 1 ∧
      (u1 * BASE + u2) * BASE + u3 < (d + 1) * (v1 * BASE + v2) := by
  have hrs := trqRest_eq hd hv2 hu3 h h'
  have htoo : (u1 * BASE + u2) * BASE + u3 < (d + 1) * (v1 * BASE + v2) := by omega
  have hv1d : v1 * (d + 1) = v1 * d + v1 := mul_succ _ _
  -- what is left of the first two digits is less than one of them
  have hsml : u1 * BASE + u2 < v1 * (d + 1) + BASE := by
    refine Nat.lt_of_mul_lt_mul_right (a := BASE) ?_
    calc (u1 * BASE + u2) * BASE ≤ (u1 * BASE + u2) * BASE + u3 := Nat.le_add_right _ _
      _ < (d + 1) * (v1 * BASE + v2) := htoo
      _ = v1 * (d + 1) * BASE + (d + 1) * v2 := by ring
      _ ≤ v1 * (d + 1) * BASE + BASE * BASE :=
        Nat.add_le_add_left (Nat.mul_le_mul hd.le hv2.le) _
      _ = (v1 * (d + 1) + BASE) * BASE := (add_mul _ _ _).symm
  exact ⟨by omega, by omega, htoo⟩

/-- The loop stops at the largest digit that is not too much. -/
theorem trqLoop_spec (hd : d < BASE) (hv1 : v1 < BASE) (hv2 : v2 < BASE) (hu3 : u3 < BASE)
    (h : v1 * d ≤ u1 * BASE + u2) (h' : u1 * BASE + u2 < v1 * d + 2 * BASE - 1) :
    trqLoop v1 v2 u1 u2 u3 d ≤ d ∧
      trqLoop v1 v2 u1 u2 u3 d * (v1 * BASE + v2) ≤ (u1 * BASE + u2) * BASE + u3 ∧
      ∀ e ≤ d, e * (v1 * BASE + v2) ≤ (u1 * BASE + u2) * BASE + u3 →
        e ≤ trqLoop v1 v2 u1 u2 u3 d := by
  induction d with
  | zero => exact ⟨le_rfl, by rw [trqLoop, zero_mul]; exact Nat.zero_le _, fun e he _ => he⟩
  | succ d ih =>
    rw [trqLoop]
    split_ifs with hneg
    · obtain ⟨hnx, hnx', htoo⟩ := trqRest_pred hd hv1 hv2 hu3 h h' hneg
      obtain ⟨hle, hprod, hmax⟩ := ih (lt_of_succ_lt hd) hnx hnx'
      refine ⟨hle.trans d.le_succ, hprod, fun e he hfits => hmax e ?_ hfits⟩
      rcases lt_or_ge d e with hlt | hle
      · obtain rfl : e = d + 1 := by omega
        omega
      · exact hle
    · have hrs := trqRest_eq hd hv2 hu3 h h'
      exact ⟨le_rfl, by omega, fun e he _ => he⟩

/-- The digit that the loop starts with. -/
theorem trq_start (hv1 : v1 < BASE) (hu2 : u2 < BASE) (hv10 : 0 < v1) (hu1 : u1 ≤ v1) {d0 : ℕ}
    (hd0 : d0 = if u1 = v1 then 0o77777 else (u1 * 0o100000 + u2) / v1) :
    d0 < BASE ∧ v1 * d0 ≤ u1 * BASE + u2 ∧ u1 * BASE + u2 < v1 * d0 + 2 * BASE - 1 ∧
      ∀ d < BASE, d * v1 ≤ u1 * BASE + u2 → d ≤ d0 := by
  have hbase : BASE = 32768 := rfl
  split_ifs at hd0 with heq
  · subst heq hd0
    have hall : u1 * BASE = u1 * 0o77777 + u1 := by rw [hbase]; omega
    exact ⟨by decide, by omega, by omega, fun d hd _ => by omega⟩
  · have hlt : u1 < v1 := by omega
    have hdiv : v1 * d0 + (u1 * BASE + u2) % v1 = u1 * BASE + u2 := by
      rw [hd0]
      exact div_add_mod _ _
    have hmod := mod_lt (u1 * BASE + u2) hv10
    refine ⟨?_, by omega, by omega, fun d _ hd => ?_⟩
    · rw [hd0, Nat.div_lt_iff_lt_mul hv10]
      calc u1 * BASE + u2 < u1 * BASE + BASE := Nat.add_lt_add_left hu2 _
        _ = (u1 + 1) * BASE := (succ_mul _ _).symm
        _ ≤ v1 * BASE := Nat.mul_le_mul_right _ hlt
        _ = BASE * v1 := mul_comm _ _
    · rw [hd0]
      exact (Nat.le_div_iff_mul_le hv10).2 hd

/-- The digit that is tried is estimated from two digits of the divisor. -/
theorem mTrq_estimate (hv1 : v1 < BASE) (hv2 : v2 < BASE) (hu2 : u2 < BASE) (hu3 : u3 < BASE)
    (hv10 : 0 < v1) (hu1 : u1 ≤ v1) :
    Estimate BASE (v1 * BASE + v2) ((u1 * BASE + u2) * BASE + u3) (mTrq v1 v2 u1 u2 u3) := by
  obtain ⟨hlt, hle, hsml, hmax⟩ := trq_start hv1 hu2 hv10 hu1 rfl
  obtain ⟨hq, hprod, hlar⟩ := trqLoop_spec hlt hv1 hv2 hu3 hle hsml
  refine ⟨hq.trans_lt hlt, hprod, fun d hd hfits => hlar d (hmax d hd ?_) hfits⟩
  refine le_of_lt_succ (Nat.lt_of_mul_lt_mul_right (a := BASE) ?_)
  calc d * v1 * BASE ≤ d * (v1 * BASE + v2) := by
        rw [mul_add, mul_assoc]
        exact Nat.le_add_right _ _
    _ ≤ (u1 * BASE + u2) * BASE + u3 := hfits
    _ < (u1 * BASE + u2) * BASE + BASE := Nat.add_lt_add_left hu3 _
    _ = (u1 * BASE + u2 + 1) * BASE := (succ_mul _ _).symm

/-! ### Multiply and subtract -/

/-- `q` times `a` is subtracted, up to a borrow. -/
theorem dsbLoop_spec (hq : q < BASE) {borrow : ℤ} (hbor : -BASE < borrow)
    (hbor' : borrow ≤ 0) (ha : IsDigits as) (hb : IsDigits bs) (h : as.length ≤ bs.length) :
    (value (dsbLoop q borrow as bs).1 : ℤ) + BASE ^ as.length * (dsbLoop q borrow as bs).2 =
        value (bs.take as.length) + borrow - q * value as ∧
      (dsbLoop q borrow as bs).2 ≤ 0 ∧ IsDigits (dsbLoop q borrow as bs).1 ∧
        (dsbLoop q borrow as bs).1.length = as.length := by
  induction as generalizing borrow bs with
  | nil => exact ⟨by simp [dsbLoop, value_nil], hbor', (fun _ h => nomatch h), rfl⟩
  | cons a as ih =>
    obtain - | ⟨b, bs⟩ := bs
    · exact absurd h (by simp)
    obtain ⟨ha1, ha⟩ := forall_mem_cons.1 ha
    obtain ⟨hb1, hb⟩ := forall_mem_cons.1 hb
    have hprod : (a : ℤ) * q ≤ 32767 * 32767 := by
      have hle : a * q ≤ 32767 * 32767 :=
        Nat.mul_le_mul (le_of_lt_succ ha1) (le_of_lt_succ hq)
      exact_mod_cast hle
    have hnon : (0 : ℤ) ≤ (a : ℤ) * q := by positivity
    have hbase : BASE = 32768 := rfl
    rw [hbase] at ha1 hb1 hbor
    have hnx : -(BASE : ℤ) < (borrow - a * q + b) / 0o100000 := by
      rw [hbase]
      omega
    obtain ⟨hvalue, hrs, hdig, hleng⟩ :=
      ih hnx (by omega) ha hb (le_of_succ_le_succ h)
    have hx : (digitOf (borrow - a * q + b) : ℤ) + 32768 * ((borrow - a * q + b) / 0o100000) =
        borrow - a * q + b := by
      rw [digitOf]
      omega
    rw [dsbLoop]
    refine ⟨?_, hrs, hdig.cons (digitOf_lt _), by
      rw [length_cons, hleng, length_cons]⟩
    rw [length_cons, take_succ_cons, value_cons, value_cons, value_cons, pow_succ]
    rw [hbase] at hvalue ⊢
    push_cast at hvalue ⊢
    linear_combination hx + 32768 * hvalue

/-- `a` is added again, and a carry at the end is dropped. -/
theorem addBack_spec {carry : ℕ} (hcry : carry ≤ 1) (ha : IsDigits as) (hb : IsDigits bs)
    (h : as.length = bs.length) :
    value (addBack carry as bs) = (value as + value bs + carry) % BASE ^ as.length ∧
      IsDigits (addBack carry as bs) ∧ (addBack carry as bs).length = as.length := by
  induction as generalizing carry bs with
  | nil => exact ⟨by simp [addBack, value_nil, mod_one], (fun _ h => nomatch h), rfl⟩
  | cons a as ih =>
    obtain - | ⟨b, bs⟩ := bs
    · exact absurd h (by simp)
    obtain ⟨ha1, ha⟩ := forall_mem_cons.1 ha
    obtain ⟨hb1, hb⟩ := forall_mem_cons.1 hb
    have hnx : (if carryBit (a + b + carry : ℕ) then 1 else 0) ≤ 1 := by split_ifs <;> omega
    obtain ⟨hvalue, hdig, hleng⟩ := ih hnx ha hb (succ.inj h)
    have hone := digitOf_add_carry (n := a + b + carry) (by omega)
    have hmod : digitOf (a + b + carry : ℕ) = (a + b + carry) % BASE := by
      rw [← hone, add_mul_mod_self_left, mod_eq_of_lt (digitOf_lt _), hone]
    have hdiv : (if carryBit (a + b + carry : ℕ) then 1 else 0) = (a + b + carry) / BASE := by
      conv_rhs => rw [← hone]
      rw [add_mul_div_left _ _ (by decide), div_eq_of_lt (digitOf_lt _), zero_add]
    rw [addBack]
    push_cast at hvalue hdig hleng hmod hdiv ⊢
    refine ⟨?_, hdig.cons (digitOf_lt _), by rw [length_cons, hleng, length_cons]⟩
    rw [value_cons, hvalue, value_cons, value_cons, length_cons, hmod, hdiv,
      add_comm _ ((a + b + carry) / BASE), mod_add_mul_mod]
    congr 1
    ring

/-- A digit of the quotient, and what is left of the number; its last digit is not looked at again. -/
theorem mDsb_spec (hq : q < BASE) (ha : IsDigits as) (hb : IsDigits bs)
    (h : bs.length = as.length + 1) (hle : value bs / value as ≤ q)
    (hone : q ≤ value bs / value as + 1) (hpos : 0 < value as) :
    ((mDsb q as bs).2 = true ↔ q = value bs / value as + 1) ∧
      value ((mDsb q as bs).1.take as.length) = value bs % value as ∧ IsDigits (mDsb q as bs).1 ∧
        (mDsb q as bs).1.length = bs.length := by
  obtain ⟨hvalue, hrs, hdig, hleng⟩ :=
    dsbLoop_spec hq (by decide : -(BASE : ℤ) < 0) le_rfl ha hb (by omega)
  have hbs : value bs = value (bs.take as.length) + BASE ^ as.length * bs.getD as.length 0 := by
    rw [← value_take_succ, ← h, take_length]
  have hdiv := div_add_mod (value bs) (value as)
  have hmod := mod_lt (value bs) hpos
  have haslt := ha.lt
  rw [mDsb]
  generalize dsbLoop q 0 as bs = r at *
  obtain ⟨l, borrow⟩ := r
  dsimp only at hvalue hrs hdig hleng ⊢
  have hllt := hdig.lt
  rw [hleng] at hllt
  have htake : ∀ (l : List ℕ) (d : ℕ), l.length = as.length → (l ++ [d]).take as.length = l :=
    fun l d hl => by rw [← hl, take_left]
  -- what is left, with the borrow in the last digit
  have hdiff : (value l : ℤ) + BASE ^ as.length * (borrow + bs.getD as.length 0) =
      value bs - q * value as := by
    rw [hbs]
    push_cast
    linear_combination hvalue
  generalize borrow + (bs.getD as.length 0 : ℤ) = x at hdiff ⊢
  have hpow : (0 : ℤ) < BASE ^ as.length := pow_pos (by decide) _
  have hnon : (0 : ℤ) ≤ value l := Int.natCast_nonneg _
  have hext : q = value bs / value as ∨ q = value bs / value as + 1 := by omega
  rcases hext with hext | hext
  · have hleft : (value l : ℤ) + BASE ^ as.length * x = (value bs % value as : ℕ) := by
      rw [hdiff, hext, Int.natCast_mod, Int.emod_def]
      push_cast
      ring
    have hzero : x = 0 := by
      have hquot := congrArg (· / (BASE : ℤ) ^ as.length) hleft
      rwa [Int.add_mul_ediv_left _ _ hpow.ne', Int.ediv_eq_zero_of_lt hnon (by exact_mod_cast hllt),
        Int.ediv_eq_zero_of_lt (Int.natCast_nonneg _) (by exact_mod_cast hmod.trans haslt),
        zero_add] at hquot
    subst hzero
    rw [mul_zero, add_zero, Nat.cast_inj] at hleft
    rw [if_pos (by decide : (0 : ℤ) / 0o100000 = 0)]
    exact ⟨iff_of_false Bool.false_ne_true (by omega), (congrArg value (htake l _ hleng)).trans hleft,
      hdig.append (forall_mem_singleton.2 (digitOf_lt _)), by
        rw [length_append, hleng, length_singleton, h]⟩
  · have hleft : (value l : ℤ) + BASE ^ as.length * x = (value bs % value as : ℕ) - value as := by
      rw [hdiff, hext, Int.natCast_mod, Int.emod_def]
      push_cast
      ring
    have hneg : x < 0 := by
      by_contra hx
      have := mul_nonneg hpow.le (not_lt.1 hx)
      omega
    obtain ⟨hback, hbdi, hble⟩ :=
      addBack_spec (Nat.zero_le 1) ha hdig hleng.symm
    have hmodu : (value as + value l + 0) % BASE ^ as.length = value bs % value as := by
      have hsum : ((value as + value l + 0 : ℕ) : ℤ) =
          (value bs % value as : ℕ) + BASE ^ as.length * -x := by
        push_cast at hleft ⊢
        linear_combination hleft
      have hcast := congrArg (· % (BASE : ℤ) ^ as.length) hsum
      rw [Int.add_mul_emod_self_left,
        Int.emod_eq_of_lt (a := (value bs % value as : ℕ)) (Int.natCast_nonneg _)
          (by exact_mod_cast hmod.trans haslt)] at hcast
      exact_mod_cast hcast
    rw [if_neg (by omega : x / 0o100000 ≠ 0)]
    refine ⟨iff_of_true rfl hext, (congrArg value (htake _ _ hble)).trans (hback.trans hmodu),
      hbdi.append (forall_mem_singleton.2 (digitOf_lt _)), ?_⟩
    rw [length_append, hble, length_singleton, h]

/-! ### The digits of the quotient -/

/-- The leading digit of a window is at most that of the divisor. -/
theorem leading_le (hv : IsDigits v)
    (hlt : value (w.take (m + 3)) < BASE * value (v.take (m + 2))) :
    w.getD (m + 2) 0 ≤ v.getD (m + 1) 0 := by
  refine le_of_lt_succ (Nat.lt_of_mul_lt_mul_left (a := BASE ^ (m + 2)) ?_)
  calc BASE ^ (m + 2) * w.getD (m + 2) 0
      ≤ value (w.take (m + 2)) + BASE ^ (m + 2) * w.getD (m + 2) 0 := Nat.le_add_left _ _
    _ = value (w.take (m + 3)) := (value_take_succ w (m + 2)).symm
    _ < BASE * value (v.take (m + 2)) := hlt
    _ = BASE * (value (v.take (m + 1)) + BASE ^ (m + 1) * v.getD (m + 1) 0) := by
      rw [value_take_succ v (m + 1)]
    _ ≤ BASE * (BASE ^ (m + 1) + BASE ^ (m + 1) * v.getD (m + 1) 0) :=
      Nat.mul_le_mul_left _ (Nat.add_le_add_right (value_take_lt hv _).le _)
    _ = BASE ^ (m + 2) * (v.getD (m + 1) 0 + 1) := by ring

/-- The digit that is tried for a window of the number. -/
theorem window_estimate (hv : IsDigits v) (hw : IsDigits w) (htop : 0 < v.getD (m + 1) 0)
    (hlt : value (w.take (m + 3)) < BASE * value (v.take (m + 2))) :
    let q := mTrq (v.getD (m + 1) 0) (v.getD m 0) (w.getD (m + 2) 0) (w.getD (m + 1) 0) (w.getD m 0)
    q < BASE ∧ value (w.take (m + 3)) / value (v.take (m + 2)) ≤ q ∧
      q ≤ value (w.take (m + 3)) / value (v.take (m + 2)) + 1 := by
  intro q
  have hest := mTrq_estimate (hv.getD_lt (m + 1)) (hv.getD_lt m) (hw.getD_lt (m + 1)) (hw.getD_lt m)
    htop (leading_le hv hlt)
  have hvalue : value (v.take (m + 2)) =
      (v.getD (m + 1) 0 * BASE + v.getD m 0) * BASE ^ m + value (v.take m) := by
    rw [value_take_succ, value_take_succ]
    ring
  have hwva : value (w.take (m + 3)) =
      ((w.getD (m + 2) 0 * BASE + w.getD (m + 1) 0) * BASE + w.getD m 0) * BASE ^ m +
        value (w.take m) := by
    rw [value_take_succ, value_take_succ, value_take_succ]
    ring
  rw [hvalue, hwva, mul_comm BASE] at hlt
  rw [hvalue, hwva]
  refine ⟨hest.lt, hest.div_le (value_take_lt hw m) hlt, hest.le_div_add_one (value_take_lt hv m) ?_⟩
  exact (Nat.le_mul_of_pos_left _ htop).trans (Nat.le_add_right _ _)

/-- The digits that a digit of the quotient depends on. -/
theorem window_length (h : j + k ≤ u.length) : ((u.drop j).take k).length = k := by
  rw [length_take_of_le]
  rw [length_drop]
  omega

theorem window_getD {i : ℕ} (h : j + k ≤ u.length) (hi : i < k) :
    ((u.drop j).take k).getD i 0 = u.getD (j + i) 0 := by
  have hleng := window_length h
  rw [getD_eq_getElem _ _ (by omega), getElem_take, getElem_drop, getD_eq_getElem _ _ (by omega)]

theorem window_isDigits (hu : IsDigits u) (j k : ℕ) : IsDigits ((u.drop j).take k) :=
  fun d hd => hu d (mem_of_mem_drop (mem_of_mem_take hd))

/-- With one digit more, what is left is less than the divisor and a digit more. -/
theorem window_lt {N : ℕ} (hu : IsDigits u) (hj : j < u.length)
    (hlt : value ((u.drop (j + 1)).take k) < N) : value ((u.drop j).take (k + 1)) < BASE * N := by
  rw [drop_eq_getElem_cons hj, take_succ_cons, value_cons]
  calc u[j] + BASE * value ((u.drop (j + 1)).take k)
      < BASE + BASE * value ((u.drop (j + 1)).take k) :=
        Nat.add_lt_add_right (hu _ (getElem_mem hj)) _
    _ = BASE * (value ((u.drop (j + 1)).take k) + 1) := by ring
    _ ≤ BASE * N := Nat.mul_le_mul_left _ hlt

/-- The digit of the quotient that a window gives, and what is left of the window. -/
theorem digit_step (hv : IsDigits v) (hvle : m + 2 ≤ v.length)
    (htop : 0 < v.getD (m + 1) 0) (hu : IsDigits u)
    (hule : j + 1 + (m + 2) ≤ u.length)
    (hlt : value ((u.drop (j + 1)).take (m + 2)) < value (v.take (m + 2)))
    (hq : mTrq (v.getD (m + 1) 0) (v.getD m 0) (u.getD (j + (m + 2)) 0) (u.getD (j + (m + 1)) 0)
      (u.getD (j + m) 0) = q)
    (hs : mDsb q (v.take (m + 2)) ((u.drop j).take (m + 2 + 1)) = s) {W V : ℕ}
    (hW : value ((u.drop j).take (m + 2 + 1)) = W) (hV : value (v.take (m + 2)) = V) :
    (q < BASE ∧ W / V ≤ q ∧ q ≤ W / V + 1) ∧ (s.2 = true ↔ q = W / V + 1) ∧
      value (s.1.take (m + 2)) = W % V ∧ IsDigits s.1 ∧ s.1.length = m + 2 + 1 := by
  have hleng : j + (m + 2 + 1) ≤ u.length := by omega
  have hwle := window_length hleng
  have hw := window_isDigits hu j (m + 2 + 1)
  have htake := take_of_length_le (i := m + 3) hwle.le
  obtain ⟨hq1, hle, hone⟩ := window_estimate hv hw htop
    (by rw [htake]; exact window_lt hu (by omega) hlt)
  rw [window_getD hleng (by omega), window_getD hleng (by omega), window_getD hleng (by omega),
    hq] at hq1 hle hone
  rw [htake] at hle hone
  have hvn : (v.take (m + 2)).length = m + 2 := length_take_of_le hvle
  obtain ⟨hback, hrs, hdig, hsle⟩ := mDsb_spec hq1
    (fun d hd => hv d (mem_of_mem_take hd)) hw (by rw [hwle, hvn]) hle hone (by omega)
  rw [hvn] at hrs
  rw [hwle] at hsle
  rw [hW, hV] at hle hone hrs hback
  rw [hs] at hback hrs hdig hsle
  exact ⟨⟨hq1, hle, hone⟩, hback, hrs, hdig, hsle⟩

/-- A window is replaced by as many digits. -/
theorem replace_window (hu : j + 1 + k ≤ u.length) (hl : l.length = k + 1) :
    (u.take j ++ l ++ u.drop (j + k + 1)).length = u.length ∧
      (u.take j ++ l ++ u.drop (j + k + 1)).take (j + k) = u.take j ++ l.take k ∧
      ((u.take j ++ l ++ u.drop (j + k + 1)).drop j).take k = l.take k := by
  have hlow : (u.take j).length = j := length_take_of_le (by omega)
  have hfrt : (u.take j ++ l).take (j + k) = u.take j ++ l.take k := by
    have hadd : (u.take j ++ l).take ((u.take j).length + k) = u.take j ++ l.take k :=
      take_length_add_append _
    rwa [hlow] at hadd
  have htake : (u.take j ++ l ++ u.drop (j + k + 1)).take (j + k) = u.take j ++ l.take k := by
    rw [take_append_of_le_length (by rw [length_append, hlow, hl]; omega), hfrt]
  refine ⟨?_, htake, ?_⟩
  · rw [length_append, length_append, hlow, hl, length_drop]
    omega
  · rw [take_drop, htake, drop_left' hlow]

theorem divLoop_succ
    (hq : mTrq (v.getD (m + 1) 0) (v.getD m 0) (u.getD (j + (m + 2)) 0) (u.getD (j + (m + 1)) 0)
      (u.getD (j + m) 0) = q)
    (hs : mDsb q (v.take (m + 2)) ((u.drop j).take (m + 2 + 1)) = s) :
    divLoop v (m + 2) (j + 1) u =
      ((divLoop v (m + 2) j (u.take j ++ s.1 ++ u.drop (j + (m + 2) + 1))).1 ++
          [if s.2 then q - 1 else q],
        (divLoop v (m + 2) j (u.take j ++ s.1 ++ u.drop (j + (m + 2) + 1))).2) := by
  subst hs hq
  rfl

/-- The quotient and what is left, where the leading digits are less than the divisor. -/
theorem divLoop_spec (hv : IsDigits v) (hvle : m + 2 ≤ v.length)
    (htop : 0 < v.getD (m + 1) 0) (hu : IsDigits u)
    (hule : j + (m + 2) ≤ u.length)
    (hlt : value ((u.drop j).take (m + 2)) < value (v.take (m + 2)))
    (hr : divLoop v (m + 2) j u = r) :
    value r.1 * value (v.take (m + 2)) + value (r.2.take (m + 2)) = value (u.take (j + (m + 2))) ∧
      value (r.2.take (m + 2)) < value (v.take (m + 2)) ∧ IsDigits r.1 ∧ IsDigits r.2 ∧
        r.1.length = j ∧ r.2.length = u.length := by
  induction j generalizing u r with
  | zero =>
    rw [drop_zero] at hlt
    subst hr
    exact ⟨by simp [divLoop, value_nil], hlt, (fun _ h => nomatch h), hu, rfl, rfl⟩
  | succ j ih =>
    -- the digits of the number that the digit of the quotient depends on
    have hwlt := window_lt hu (by omega) hlt
    obtain ⟨⟨-, hle, hone⟩, hback, hrs, hdig, hleng⟩ :=
      digit_step hv hvle htop hu hule hlt rfl rfl rfl rfl
    rw [divLoop_succ rfl rfl] at hr
    generalize mTrq _ _ _ _ _ = q at *
    generalize mDsb q (v.take (m + 2)) ((u.drop j).take (m + 2 + 1)) = s at *
    have hdgt : (if s.2 then q - 1 else q) =
        value ((u.drop j).take (m + 2 + 1)) / value (v.take (m + 2)) := by
      split_ifs with hs
      · rw [hback.1 hs, Nat.add_sub_cancel]
      · exact hle.antisymm' (le_of_lt_succ (hone.lt_of_ne fun h => hs (hback.2 h)))
    rw [hdgt] at hr
    have hlow : (u.take j).length = j := length_take_of_le (by omega)
    obtain ⟨hu'length, hu'take, hu'drop⟩ := replace_window hule hleng
    have hu' : IsDigits (u.take j ++ s.1 ++ u.drop (j + (m + 2) + 1)) :=
      IsDigits.append (IsDigits.append (fun d hd => hu d (mem_of_mem_take hd)) hdig)
        fun d hd => hu d (mem_of_mem_drop hd)
    obtain ⟨hvalue, hleft, hqdi, hudi, hqle, hleng'⟩ := ih hu' (by omega)
      (by rw [hu'drop, hrs]; exact mod_lt _ (by omega)) rfl
    generalize divLoop v (m + 2) j _ = rest at *
    subst hr
    rw [hu'take] at hvalue
    refine ⟨?_, hleft, hqdi.append (forall_mem_singleton.2 ?_), hudi, ?_, ?_⟩
    · rw [value_append, hlow, hrs] at hvalue
      have htake : u.take (j + 1 + (m + 2)) = u.take j ++ (u.drop j).take (m + 2 + 1) := by
        rw [← take_add]
        congr 1
        omega
      have hdiv := div_add_mod (value ((u.drop j).take (m + 2 + 1))) (value (v.take (m + 2)))
      rw [value_concat, hqle, htake, value_append, hlow]
      generalize value ((u.drop j).take (m + 2 + 1)) = W at *
      calc (value rest.1 + BASE ^ j * (W / value (v.take (m + 2)))) * value (v.take (m + 2)) +
            value (rest.2.take (m + 2))
          = value rest.1 * value (v.take (m + 2)) + value (rest.2.take (m + 2)) +
            BASE ^ j * (value (v.take (m + 2)) * (W / value (v.take (m + 2)))) := by ring
        _ = value (u.take j) + BASE ^ j * (W % value (v.take (m + 2))) +
            BASE ^ j * (value (v.take (m + 2)) * (W / value (v.take (m + 2)))) := by rw [hvalue]
        _ = value (u.take j) + BASE ^ j * (value (v.take (m + 2)) * (W / value (v.take (m + 2))) +
            W % value (v.take (m + 2))) := by ring
        _ = value (u.take j) + BASE ^ j * W := by rw [hdiv]
    · exact Nat.div_lt_of_lt_mul (by rwa [mul_comm] at hwlt)
    · rw [length_append, hqle, length_singleton]
    · rw [hleng', hu'length]

theorem mcan_spec {val : List ℕ} (h : n ≤ val.length) (hval : IsDigits (val.take n)) :
    Canonical (mcan ⟨n, val⟩) ∧ value (mcan ⟨n, val⟩).digits = value (val.take n) := by
  obtain ⟨hle, -, -⟩ := topDigit_spec h
  rw [mcan]
  dsimp only
  rw [Int.natAbs_natCast]
  by_cases hzero : topDigit val n = 0
  · have hlen : (0 : ℤ).natAbs = topDigit val n := hzero.symm
    obtain ⟨-, hvalue⟩ := topDigit_canonical h hval hlen
    rw [if_pos hzero]
    exact ⟨canonical_zero, hvalue⟩
  · rw [if_neg hzero, if_pos (by omega)]
    exact topDigit_canonical h hval (Int.natAbs_natCast _)

variable (before : ℕ)

/-- A number times a digit, as `m_div` needs it. -/
theorem mult_digit (ha : Positive a) (ha0 : 0 < a.len) (hd : d < BASE) :
    value (mult before a ⟨1, [d]⟩).val = value a.digits * d ∧
      IsDigits (mult before a ⟨1, [d]⟩).val ∧
        (mult before a ⟨1, [d]⟩).val.length = a.len.natAbs + 1 := by
  have hone : Positive ⟨1, [d]⟩ := ⟨zero_le_one, rfl, forall_mem_singleton.2 hd⟩
  have hle : (Mint.mk 1 [d]).len ≤ a.len := ha0
  have hlen : (mMult before a ⟨1, [d]⟩).len ≠ 0 := by
    rw [mMult]
    dsimp only
    have habs : (1 : ℤ).natAbs = 1 := rfl
    rw [habs]
    split_ifs <;> omega
  have hval : (mult before a ⟨1, [d]⟩).val = (mMult before a ⟨1, [d]⟩).val := by
    rw [mult]
    dsimp only
    rw [if_neg (not_lt.2 ha0.le), if_neg (by decide : ¬ (1 : ℤ) < 0), if_neg (not_lt.2 hle)]
    refine if_neg ?_
    split_ifs <;> omega
  obtain ⟨hvalue, hdig, hleng⟩ :=
    mMult_val before ha hone hle (by decide : (1 : ℤ) < 3 * 2 ^ 15)
  rw [hval]
  exact ⟨hvalue.trans rfl, hdig, hleng⟩

/-- A quotient and a remainder of positive numbers. -/
def IsQuotient (a b : Mint) (r : Mint × Mint) : Prop :=
  (Canonical r.1 ∧ 0 ≤ r.1.len ∧ value r.1.digits = value a.digits / value b.digits) ∧
    Canonical r.2 ∧ 0 ≤ r.2.len ∧ value r.2.digits = value a.digits % value b.digits

theorem Canonical.value_pos (h : Canonical a) (ha0 : a.len ≠ 0) : 0 < value a.digits :=
  (Nat.pow_pos (by decide)).trans_le (h.bounds.2 ha0)

/-- Division by a number of one digit. -/
theorem isQuotient_of_digit (ha : Canonical a) (hb : Canonical b) (hb1 : b.len = 1) :
    let r := sDiv a (b.val.getD 0 0)
    IsQuotient a b (r.1, if r.2 = 0 then ⟨0, []⟩ else ⟨1, [r.2]⟩) := by
  intro r
  have hdgt : value b.digits = b.val.getD 0 0 := by
    rw [Mint.digits, hb1]
    exact (value_take_succ b.val 0).trans (by simp [value_nil])
  have hpos : 0 < value b.digits := hb.value_pos (by omega)
  have hlt : value b.digits < BASE := by
    have hlt := hb.bounds.1
    rwa [hb1] at hlt
  obtain ⟨hcan, hquo, hrs⟩ := sDiv_spec hpos hlt ha
  rw [hdgt] at hcan hquo hrs
  have hlen : 0 ≤ r.1.len := by
    have hlen : r.1.len = (_ : ℕ) := rfl
    rw [hlen]
    exact Int.natCast_nonneg _
  rw [IsQuotient, hdgt]
  refine ⟨⟨hcan, hlen, hquo⟩, ?_⟩
  rw [← hrs]
  split_ifs with hzero
  · exact ⟨canonical_zero, le_rfl, hzero.symm⟩
  · refine ⟨⟨rfl, forall_mem_singleton.2 ?_, fun h => hzero (Option.some.inj h)⟩, zero_le_one, rfl⟩
    rw [hrs, ← hdgt]
    exact (mod_lt _ hpos).trans hlt

/-- Division by a longer number. -/
theorem isQuotient_of_shorter (ha : Canonical a) (hb : Canonical b) (ha0 : 0 ≤ a.len)
    (h : a.len < b.len) : IsQuotient a b (⟨0, []⟩, ⟨a.len, a.digits⟩) := by
  have hlt : value a.digits < value b.digits := by
    have hlt := toInt_lt_of_len_lt ha hb h
    rw [(ha.positive ha0).toInt, (hb.positive (by omega)).toInt] at hlt
    exact_mod_cast hlt
  have hdig : Mint.digits ⟨a.len, a.digits⟩ = a.digits := take_of_length_le ha.length.le
  refine ⟨⟨canonical_zero, le_rfl, (div_eq_of_lt hlt).symm⟩, ⟨?_, ?_, ?_⟩, ha0, ?_⟩
  · rw [hdig]
    exact ha.length
  · rw [hdig]
    exact ha.isDigits
  · rw [hdig]
    exact ha.top
  · rw [hdig, mod_eq_of_lt hlt]

/-- The divisor is multiplied so that it is as long as before, and its last digit is not zero. -/
theorem scaled_divisor (hb : Canonical b) (hlen : b.len = (m + 2 : ℕ))
    (hd : d = 0o100000 / (b.val.getD (m + 1) 0 + 1)) :
    0 < d ∧ d < BASE ∧ IsDigits (mult before b ⟨1, [d]⟩).val ∧
      m + 2 ≤ (mult before b ⟨1, [d]⟩).val.length ∧
      value ((mult before b ⟨1, [d]⟩).val.take (m + 2)) = value b.digits * d ∧
      0 < (mult before b ⟨1, [d]⟩).val.getD (m + 1) 0 := by
  have habs : b.len.natAbs = m + 2 := by omega
  have htop : b.digits.getD (m + 1) 0 = b.val.getD (m + 1) 0 := by
    rw [Mint.digits, habs, getD_eq_getElem?_getD, getElem?_take_of_lt (by omega),
      getD_eq_getElem?_getD]
  have hvalue : value b.digits = value (b.digits.take (m + 1)) + BASE ^ (m + 1) * b.val.getD (m + 1) 0 := by
    rw [← htop, ← value_take_succ, take_of_length_le (by rw [hb.length, habs])]
  have hlow := value_take_lt hb.isDigits (m + 1)
  have hlt := hb.isDigits.getD_lt (m + 1)
  have hlrg := hb.bounds.2 (by omega)
  rw [habs] at hlrg
  rw [htop] at hlt
  generalize b.val.getD (m + 1) 0 = t at *
  have ht : 0 < t := by
    by_contra ht
    rw [Nat.eq_zero_of_not_pos ht, mul_zero, add_zero] at hvalue
    exact absurd (hvalue.trans_lt hlow) (not_lt.2 hlrg)
  have hd0 : 0 < d := by
    rw [hd]
    exact Nat.div_pos hlt (succ_pos t)
  have hd' : d < BASE := by
    rw [hd]
    exact Nat.div_lt_self (by decide) (by omega)
  have hfits : value b.digits * d < BASE ^ (m + 2) := by
    calc value b.digits * d < BASE ^ (m + 1) * (t + 1) * d :=
          Nat.mul_lt_mul_of_pos_right (by rw [hvalue, mul_succ]; omega) hd0
      _ = BASE ^ (m + 1) * (d * (t + 1)) := by ring
      _ ≤ BASE ^ (m + 1) * BASE := Nat.mul_le_mul_left _ (by rw [hd]; exact div_mul_le_self _ _)
  obtain ⟨hpro, hdig, hleng⟩ := mult_digit before (hb.positive (by omega)) (by omega) hd'
  rw [habs] at hleng
  generalize (mult before b ⟨1, [d]⟩).val = v at *
  have htake : value v = value (v.take (m + 2)) + BASE ^ (m + 2) * v.getD (m + 2) 0 := by
    rw [← value_take_succ, take_of_length_le hleng.le]
  have hzero : v.getD (m + 2) 0 = 0 := by
    by_contra hne
    have := Nat.le_mul_of_pos_right (BASE ^ (m + 2)) (Nat.pos_of_ne_zero hne)
    omega
  rw [hzero, mul_zero, add_zero, hpro] at htake
  refine ⟨hd0, hd', hdig, by omega, htake.symm, ?_⟩
  by_contra hne
  have hvlow := value_take_lt hdig (m + 1)
  have hvtake := value_take_succ v (m + 1)
  rw [Nat.eq_zero_of_not_pos hne, mul_zero, add_zero, ← htake] at hvtake
  have hle := Nat.le_mul_of_pos_right (value b.digits) hd0
  exact absurd (hle.trans_lt (hvtake.trans_lt hvlow)) (not_lt.2 hlrg)

/-- The leading digits of what is divided are less than the divisor. -/
theorem scaled_leading_lt (ha : Positive a) (hb : Canonical b) (hlen : b.len = (m + 2 : ℕ))
    (hleng : a.len.natAbs = k + (m + 2)) (hd0 : 0 < d) (hu : value u = value a.digits * d)
    (hule : u.length = a.len.natAbs + 1) :
    value ((u.drop (k + 1)).take (m + 2)) < value b.digits * d := by
  have hspl : value u = value (u.take (k + 1)) + BASE ^ (k + 1) * value (u.drop (k + 1)) :=
    ofDigits_take_drop BASE u (by omega)
  have hbla := hb.bounds.2 (by omega)
  rw [hlen, Int.natAbs_natCast] at hbla
  rw [take_of_length_le (by rw [length_drop]; omega)]
  refine Nat.lt_of_mul_lt_mul_left (a := BASE ^ (k + 1)) ?_
  calc BASE ^ (k + 1) * value (u.drop (k + 1)) ≤ value a.digits * d := by
        rw [← hu, hspl]
        exact Nat.le_add_left _ _
    _ < BASE ^ a.len.natAbs * d := by
      rw [← ha.length]
      exact Nat.mul_lt_mul_of_pos_right ha.isDigits.lt hd0
    _ = BASE ^ (k + 1) * (BASE ^ (m + 2 - 1) * d) := by
      rw [hleng, ← mul_assoc, ← pow_add]
      congr 2
      omega
    _ ≤ BASE ^ (k + 1) * (value b.digits * d) :=
      Nat.mul_le_mul_left _ (Nat.mul_le_mul_right _ hbla)

/-- Division by a number of several digits. -/
theorem isQuotient_of_longer (ha : Canonical a) (hb : Canonical b)
    (hlen : b.len = (m + 2 : ℕ)) (h : b.len ≤ a.len)
    (hd : d = 0o100000 / (b.val.getD (m + 1) 0 + 1))
    (hr : divLoop (mult before b ⟨1, [d]⟩).val (m + 2) (a.len.natAbs - (m + 2) + 1)
      (mult before a ⟨1, [d]⟩).val = r) (hk : k = a.len.natAbs - (m + 2)) :
    IsQuotient a b (⟨(if r.1.getD k 0 = 0 then k else k + 1 : ℕ), r.1⟩,
      (sDiv (mcan ⟨(m + 2 : ℕ), r.2⟩) d).1) := by
  obtain ⟨hd0, hd', hvdi, hvle, hvva, htop⟩ := scaled_divisor before hb hlen hd
  obtain ⟨huva, hudi, hule⟩ := mult_digit before (ha.positive (by omega)) (by omega) hd'
  generalize (mult before b ⟨1, [d]⟩).val = v at *
  generalize (mult before a ⟨1, [d]⟩).val = u at *
  have hbpos := hb.value_pos (by omega)
  rw [← hk] at hr
  have hleng : a.len.natAbs = k + (m + 2) := by omega
  have hlt : value ((u.drop (k + 1)).take (m + 2)) < value (v.take (m + 2)) := by
    rw [hvva]
    exact scaled_leading_lt (ha.positive (by omega)) hb hlen hleng hd0 huva hule
  obtain ⟨hvalue, hleft, hqdi, hrdi, hqle, hrle⟩ :=
    divLoop_spec hvdi hvle htop hudi (by omega) hlt hr
  rw [take_of_length_le (i := k + 1 + (m + 2)) (l := u) (by omega), huva, hvva] at hvalue
  rw [hvva] at hleft
  have hbd : 0 < value b.digits * d := Nat.mul_pos hbpos hd0
  have hquo : value r.1 = value a.digits / value b.digits := by
    rw [← Nat.mul_div_mul_right _ _ hd0, ← hvalue, mul_comm, mul_add_div hbd,
      div_eq_of_lt hleft, add_zero]
  have hrs : value (r.2.take (m + 2)) = value a.digits % value b.digits * d := by
    rw [← mul_mod_mul_right, ← hvalue, mul_comm, mul_add_mod, mod_eq_of_lt hleft]
  obtain ⟨hqca, hqva⟩ := canonical_top hqdi hqle fun hk0 => by
    have hala := ha.bounds.2 (by omega)
    have hbsm := hb.bounds.1
    rw [hlen, Int.natAbs_natCast] at hbsm
    rw [hquo, Nat.le_div_iff_mul_le hbpos]
    calc BASE ^ (k - 1) * value b.digits ≤ BASE ^ (k - 1) * BASE ^ (m + 2) :=
          Nat.mul_le_mul_left _ hbsm.le
      _ = BASE ^ (a.len.natAbs - 1) := by
        rw [← pow_add]
        congr 1
        omega
      _ ≤ value a.digits := hala
  have hn : m + 2 ≤ r.2.length := by omega
  obtain ⟨hwca, hwva⟩ := mcan_spec hn
    fun x hx => hrdi x (mem_of_mem_take hx)
  obtain ⟨hrca, hrva, -⟩ := sDiv_spec hd0 hd' hwca
  refine ⟨⟨hqca, Int.natCast_nonneg _, hqva.trans hquo⟩, hrca, ?_, ?_⟩
  · exact Int.natCast_nonneg _
  · rw [hrva, hwva, hrs, Nat.mul_div_cancel _ hd0]

/-- Division of positive numbers. -/
theorem mDiv_spec (ha : Canonical a) (hb : Canonical b) (ha0 : 0 ≤ a.len)
    (hb0 : 0 < b.len) : IsQuotient a b (mDiv before a b) := by
  rw [mDiv]
  split_ifs with hone hsho
  · exact isQuotient_of_digit ha hb hone
  · exact isQuotient_of_shorter ha hb ha0 hsho
  · obtain ⟨m, hm⟩ : ∃ m : ℕ, b.len = (m + 2 : ℕ) := ⟨b.len.toNat - 2, by omega⟩
    have hspec := isQuotient_of_longer before ha hb hm (not_lt.1 hsho) rfl rfl rfl
    have hn : b.len.natAbs = m + 2 := by omega
    rw [hn]
    exact hspec

/-! ### Any signs -/

theorem Canonical.toInt_nonpos (h : Canonical a) : a.toInt ≤ 0 ↔ a.len ≤ 0 := by
  rw [← not_lt, ← Int.sign_eq_one_iff_pos, h.sign_toInt, Int.sign_eq_one_iff_pos, not_lt]

theorem Canonical.toInt_eq (h : Canonical a) :
    a.toInt = if a.len < 0 then -(value a.digits : ℤ) else value a.digits := by
  split_ifs with hneg
  · rw [Mint.toInt, Int.sign_eq_neg_one_of_neg hneg, neg_one_mul]
  · exact (h.positive (not_lt.1 hneg)).toInt

/-- Quotients are right, but if the divisor is negative then the remainder, if there is one, has the
    wrong sign. -/
theorem mdiv_spec (ha : Canonical a) (hb : Canonical b) (hb0 : b.len ≠ 0) {r : Mint × Mint}
    (hr : mdiv before a b = r) :
    Canonical r.1 ∧ Canonical r.2 ∧ |r.2.toInt| < |b.toInt| ∧
      (a.toInt = r.1.toInt * b.toInt + r.2.toInt ↔ 0 < b.toInt ∨ b.toInt ∣ a.toInt) := by
  obtain ⟨hx, hxlen, hxdi⟩ := abs_spec ha
  obtain ⟨hy, hylen, hydi⟩ := abs_spec hb
  rw [mdiv] at hr
  generalize (if a.len < 0 then a.neg else a) = x at *
  generalize (if b.len < 0 then b.neg else b) = y at *
  have hquo := mDiv_spec before hx hy (by omega) (by omega)
  rw [IsQuotient, hxdi, hydi] at hquo
  generalize mDiv before x y = s at *
  obtain ⟨⟨hq, hq0, hqva⟩, hr', hr0, hrva⟩ := hquo
  have hqint := (hq.positive hq0).toInt
  have hrint := (hr'.positive hr0).toInt
  rw [hqva] at hqint
  rw [hrva] at hrint
  have hpos := hb.value_pos hb0
  rw [ha.toInt_eq, hb.toInt_eq]
  have hdiv : (value b.digits : ℤ) * (value a.digits / value b.digits : ℕ) +
      (value a.digits % value b.digits : ℕ) = value a.digits := by
    exact_mod_cast div_add_mod (value a.digits) (value b.digits)
  have hlt := mod_lt (value a.digits) hpos
  have hdvd : value b.digits ∣ value a.digits ↔ value a.digits % value b.digits = 0 :=
    dvd_iff_mod_eq_zero
  generalize value a.digits / value b.digits = q at *
  generalize value a.digits % value b.digits = rest at *
  generalize value a.digits = A at *
  generalize value b.digits = B at *
  have hdvd' : (B : ℤ) ∣ A ↔ rest = 0 := Int.natCast_dvd_natCast.trans hdvd
  have hBpos : (0 : ℤ) < B := by exact_mod_cast hpos
  have habs : |s.2.toInt| < |(B : ℤ)| := by
    rw [hrint, abs_cast, abs_cast]
    exact_mod_cast hlt
  subst hr
  rcases lt_or_ge a.len 0 with hneg | hneg <;> rcases lt_or_ge b.len 0 with hneg' | hneg'
  · rw [if_neg (by simp [hneg, hneg']), if_pos hneg, if_pos hneg', abs_neg]
    refine ⟨hq, hr', habs, ?_⟩
    rw [neg_dvd, dvd_neg, hdvd', or_iff_right (by omega), hqint, hrint]
    constructor
    · intro h
      have : (rest : ℤ) = 0 := by linarith only [h, hdiv]
      exact_mod_cast this
    · rintro rfl
      rw [cast_zero] at hdiv ⊢
      linarith only [hdiv]
  · rw [if_pos (by simp [hneg, hneg']), if_pos hneg, if_neg (not_lt.2 hneg')]
    refine ⟨hq.neg, hr'.neg, by rwa [toInt_neg, abs_neg], iff_of_true ?_ (.inl hBpos)⟩
    rw [toInt_neg, toInt_neg, hqint, hrint]
    linarith only [hdiv]
  · rw [if_pos (by simp [hneg, hneg']), if_neg (not_lt.2 hneg), if_pos hneg', abs_neg]
    refine ⟨hq.neg, hr'.neg, by rwa [toInt_neg, abs_neg], ?_⟩
    rw [neg_dvd, hdvd', or_iff_right (by omega), toInt_neg, toInt_neg, hqint, hrint]
    constructor
    · intro h
      have : (rest : ℤ) = 0 := by linarith only [h, hdiv]
      exact_mod_cast this
    · rintro rfl
      rw [cast_zero] at hdiv ⊢
      linarith only [hdiv]
  · rw [if_neg (by simp [not_lt.2 hneg, not_lt.2 hneg']), if_neg (not_lt.2 hneg),
      if_neg (not_lt.2 hneg')]
    refine ⟨hq, hr', habs, iff_of_true ?_ (.inl hBpos)⟩
    rw [hqint, hrint]
    linarith only [hdiv]

/-! ### All operations -/

inductive Op where
  | madd | msub | mult | mcmp | mdiv

/-- What each operation should compute. -/
def Correct (before : ℕ) (a b : Mint) : Op → Prop
  | .madd => Canonical (madd a b) ∧ (madd a b).toInt = a.toInt + b.toInt
  | .msub => Canonical (msub a b) ∧ (msub a b).toInt = a.toInt - b.toInt
  | .mult => Canonical (mult before a b) ∧ (mult before a b).toInt = a.toInt * b.toInt
  | .mcmp => (mcmp a b).sign = (a.toInt - b.toInt).sign
  | .mdiv =>
    b.toInt ≠ 0 → Canonical (mdiv before a b).1 ∧ Canonical (mdiv before a b).2 ∧
      a.toInt = (mdiv before a b).1.toInt * b.toInt + (mdiv before a b).2.toInt ∧
      |(mdiv before a b).2.toInt| < |b.toInt|

/-- When it does: but for the difference of two negative numbers, or of a negative number and zero,
    that are not the same, which `mcmp` uses if they are of one length; for a product with zero; and
    for a remainder of a division by a negative number. -/
def Computes (before : ℕ) (a b : Mint) : Op → Prop
  | .madd => True
  | .msub => a.toInt < 0 → b.toInt ≤ 0 → a.toInt = b.toInt
  | .mult =>
    a.toInt ≠ 0 ∧ b.toInt ≠ 0 ∨ a.len.natAbs + b.len.natAbs = 1 ∨
      a.toInt = 0 ∧ b.toInt = 0 ∧ before ≠ 0
  | .mcmp => a.toInt < 0 → a.len = b.len → a.toInt = b.toInt
  | .mdiv => b.toInt < 0 → b.toInt ∣ a.toInt

/-- Exactly when an operation of numbers of less than `2 ^ 15` digits is right. -/
theorem correct_iff (a b : Mint) (ha : Canonical a) (hb : Canonical b)
    (ha' : a.len.natAbs < 2 ^ 15) (hb' : b.len.natAbs < 2 ^ 15) (op : Op) :
    Correct before a b op ↔ Computes before a b op := by
  cases op with
  | madd => exact iff_of_true (madd_spec ha hb) trivial
  | msub =>
    obtain ⟨hcan, hvalue⟩ := msub_spec ha hb
    rw [Correct, Computes, and_iff_right hcan, hvalue, ha.toInt_neg_iff, hb.toInt_nonpos]
    split_ifs with hsgn
    · constructor
      · intro h _ _
        linarith only [h]
      · intro h
        rw [h hsgn.1 hsgn.2]
    · exact iff_of_true rfl fun hneg hneg' => absurd ⟨hneg, hneg'⟩ hsgn
  | mult =>
    rw [Correct, Computes, mult_spec before ha hb (by omega) (by omega), MultRight]
    simp only [ne_eq, ha.toInt_eq_zero, hb.toInt_eq_zero]
  | mcmp =>
    rw [Correct, Computes, sign_mcmp ha hb, ha.toInt_neg_iff]
    split_ifs with hsgn
    · rw [← neg_sub a.toInt b.toInt, Int.sign_neg]
      constructor
      · intro h _ _
        have hzero := Int.sign_eq_zero_iff_zero.1 (by omega : (a.toInt - b.toInt).sign = 0)
        exact sub_eq_zero.1 hzero
      · intro h
        rw [h hsgn.2 hsgn.1, sub_self]
        rfl
    · exact iff_of_true rfl fun hneg hlen => absurd ⟨hlen, hneg⟩ hsgn
  | mdiv =>
    rw [Correct, Computes]
    rcases eq_or_ne b.len 0 with hzero | hb0
    · have hzero := hb.toInt_eq_zero.2 hzero
      exact iff_of_true (fun hne => absurd hzero hne) fun hneg => absurd hzero hneg.ne
    · obtain ⟨hq, hr, hlt, hiff⟩ := mdiv_spec before ha hb hb0 rfl
      have hne : b.toInt ≠ 0 := fun h => hb0 (hb.toInt_eq_zero.1 h)
      constructor
      · intro h hneg
        exact (hiff.1 (h hne).2.2.1).resolve_left hneg.not_gt
      · intro h _
        refine ⟨hq, hr, hiff.2 ?_, hlt⟩
        exact (lt_or_gt_of_ne hne).symm.imp_right h

/-- A number of a single digit. -/
theorem canonical_digit {len : ℤ} (hlen : len.natAbs = 1) (hd : d < BASE) (hd0 : d ≠ 0) :
    Canonical ⟨len, [d]⟩ := by
  have hdig : Mint.digits ⟨len, [d]⟩ = [d] := by rw [Mint.digits, hlen, take_succ_cons, take_nil]
  refine ⟨?_, ?_, ?_⟩
  · rw [hdig, hlen, length_singleton]
  · rw [hdig]
    exact forall_mem_singleton.2 hd
  · rw [hdig]
    exact fun h => hd0 (Option.some.inj h)

theorem correct_iff_minusFive :
    Correct 0 ⟨-1, [5]⟩ ⟨1, [3]⟩ .mdiv ↔ Computes 0 ⟨-1, [5]⟩ ⟨1, [3]⟩ .mdiv :=
  correct_iff 0 _ _ (canonical_digit rfl (by decide) (by decide))
    (canonical_digit rfl (by decide) (by decide)) (by decide) (by decide) .mdiv

/-- The difference of -5 and -3 is 2. -/
theorem incorrect_minusFive_minusThree :
    ¬ ∀ (before : ℕ) (a b : Mint), Canonical a → Canonical b → a.len.natAbs < 2 ^ 15 →
      b.len.natAbs < 2 ^ 15 → ∀ op, Correct before a b op := fun h =>
  absurd (h 0 ⟨-1, [5]⟩ ⟨-1, [3]⟩ (canonical_digit rfl (by decide) (by decide))
    (canonical_digit rfl (by decide) (by decide)) (by decide) (by decide) .msub).2 (by decide)

end Uwisc.Mp
