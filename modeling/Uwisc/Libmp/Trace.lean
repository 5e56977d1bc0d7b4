import Uwisc.Libmp.Quotients

/-!
# What long division computes on the way

Every number that `m_trq` and `m_dsb` compute is one a `long` holds, the digit that is tried is the
digit of the quotient or one more, and one divisor added back is enough. The digits that are looked
at are digits of the product that `mult` made, which has one more than the number that is divided
(`mDiv_exact`).
-/

namespace Uwisc.Mp

open Lib List Nat

variable {a b : Mint} {as bs : List ℕ}

/-- A `long` holds the number. -/
def InLong (x : ℤ) : Prop := -2 ^ 31 ≤ x ∧ x < 2 ^ 31

/-- The numbers that the loop of `m_trq` computes with the digit `d`. -/
def trqValues (v1 v2 u1 u2 u3 d : ℕ) : List ℤ :=
  let x1 : ℤ := u1 * 0o100000 + u2 - v1 * d
  [u1 * 0o100000, u1 * 0o100000 + u2, v1 * d, x1, x1 * 0o100000, x1 * 0o100000 + u3, v2 * d,
    x1 * 0o100000 + u3 - v2 * d]

/-- The loop of `m_trq` from the digit `d` down computes nothing that a `long` does not hold. -/
def TrqFits (v1 v2 u1 u2 u3 : ℕ) : ℕ → Prop
  | 0 => ∀ x ∈ trqValues v1 v2 u1 u2 u3 0, InLong x
  | d + 1 =>
    (∀ x ∈ trqValues v1 v2 u1 u2 u3 (d + 1), InLong x) ∧
      (trqRest v1 v2 u1 u2 u3 (d + 1) < 0 → TrqFits v1 v2 u1 u2 u3 d)

/-- The numbers that the first loop of `m_dsb` computes. -/
def dsbValues (q : ℕ) (borrow : ℤ) : List ℕ → List ℕ → List ℤ
  | a :: as, b :: bs =>
    let x : ℤ := borrow - a * q + b
    [(a * q : ℤ), borrow - a * q, x, x / 0o100000] ++ dsbValues q (x / 0o100000) as bs
  | _, _ => []

/-- The numbers that the second loop of `m_dsb` computes. -/
def addBackValues (borrow : ℕ) : List ℕ → List ℕ → List ℤ
  | a :: as, b :: bs =>
    let u : ℤ := a + b + borrow
    [(a + b : ℤ), u] ++ addBackValues (if carryBit u then 1 else 0) as bs
  | _, _ => []

def mDsbValues (q : ℕ) (a b : List ℕ) : List ℤ :=
  let r := dsbLoop q 0 a b
  let x := r.2 + b.getD a.length 0
  dsbValues q 0 a b ++ [x, x / 0o100000] ++ if x / 0o100000 = 0 then [] else addBackValues 0 a r.1

/-- The digit that is tried at the digit `j` of the quotient. -/
def tried (v : List ℕ) (n j : ℕ) (u : List ℕ) : ℕ :=
  mTrq (v.getD (n - 1) 0) (v.getD (n - 2) 0) (u.getD (j + n) 0) (u.getD (j + n - 1) 0)
    (u.getD (j + n - 2) 0)

/-- The digits that the digit `j` of the quotient depends on. -/
def window (n j : ℕ) (u : List ℕ) : List ℕ := (u.drop j).take (n + 1)

/-- What is left after the digit `j` of the quotient. -/
def stepped (v : List ℕ) (n j : ℕ) (u : List ℕ) : List ℕ × Bool :=
  mDsb (tried v n j u) (v.take n) (window n j u)

/-- The step of the loop of `m_div` at the digit `j` of the quotient. -/
structure Step (v : List ℕ) (n j : ℕ) (u : List ℕ) : Prop where
  /-- The digits that are looked at are there. -/
  reads : 2 ≤ n ∧ n ≤ v.length ∧ j + n < u.length
  trqFits : InLong (u.getD (j + n) 0 * 0o100000 + u.getD (j + n - 1) 0) ∧
    TrqFits (v.getD (n - 1) 0) (v.getD (n - 2) 0) (u.getD (j + n) 0) (u.getD (j + n - 1) 0)
      (u.getD (j + n - 2) 0)
      (if u.getD (j + n) 0 = v.getD (n - 1) 0 then 0o77777
        else (u.getD (j + n) 0 * 0o100000 + u.getD (j + n - 1) 0) / v.getD (n - 1) 0)
  dsbFits : ∀ x ∈ mDsbValues (tried v n j u) (v.take n) (window n j u), InLong x
  /-- The digit is right or one too much. -/
  tried : tried v n j u = value (window n j u) / value (v.take n) ∨
    tried v n j u = value (window n j u) / value (v.take n) + 1
  /-- The divisor is added back exactly if the digit was one too much. -/
  addBack : (stepped v n j u).2 = true ↔
    Mp.tried v n j u = value (window n j u) / value (v.take n) + 1
  /-- The remainder is left then. -/
  left : value ((stepped v n j u).1.take n) = value (window n j u) % value (v.take n)

/-- The steps of the loop of `m_div`, from the digit `j` of the quotient down. -/
def Steps (v : List ℕ) (n : ℕ) : ℕ → List ℕ → Prop
  | 0, _ => True
  | j + 1, u => Step v n j u ∧ Steps v n j (u.take j ++ (stepped v n j u).1 ++ u.drop (j + n + 1))

/-! ### The digit that is tried -/

variable {v1 v2 u1 u2 u3 : ℕ}

variable {d q m j : ℕ} {v u : List ℕ}

theorem trqValues_fit (hd : d < BASE) (hv1 : v1 < BASE) (hv2 : v2 < BASE) (hu1 : u1 < BASE)
    (hu2 : u2 < BASE) (hu3 : u3 < BASE) (h : v1 * d ≤ u1 * BASE + u2)
    (h' : u1 * BASE + u2 < v1 * d + 2 * BASE - 1) : ∀ x ∈ trqValues v1 v2 u1 u2 u3 d, InLong x := by
  have hbase : BASE = 32768 := rfl
  have hone : v1 * d ≤ 32767 * 32767 := Nat.mul_le_mul (by omega) (by omega)
  have htwo : v2 * d ≤ 32767 * 32767 := Nat.mul_le_mul (by omega) (by omega)
  have hv1d : (v1 : ℤ) * d = (v1 * d : ℕ) := (cast_mul ..).symm
  have hv2d : (v2 : ℤ) * d = (v2 * d : ℕ) := (cast_mul ..).symm
  simp only [trqValues, forall_mem_cons, not_mem_nil, false_imp_iff, implies_true, and_true,
    InLong, hv1d, hv2d]
  generalize v1 * d = x at *
  generalize v2 * d = y at *
  rw [hbase] at h h' hu1 hu2 hu3
  refine ⟨?_, ?_, ?_, ?_, ?_, ?_, ?_, ?_⟩ <;> constructor <;> omega

theorem trqFits_of (hd : d < BASE) (hv1 : v1 < BASE) (hv2 : v2 < BASE) (hu1 : u1 < BASE)
    (hu2 : u2 < BASE) (hu3 : u3 < BASE) (h : v1 * d ≤ u1 * BASE + u2)
    (h' : u1 * BASE + u2 < v1 * d + 2 * BASE - 1) : TrqFits v1 v2 u1 u2 u3 d := by
  induction d with
  | zero => exact trqValues_fit hd hv1 hv2 hu1 hu2 hu3 h h'
  | succ d ih =>
    refine ⟨trqValues_fit hd hv1 hv2 hu1 hu2 hu3 h h', fun hneg => ?_⟩
    obtain ⟨hnx, hnx', -⟩ := trqRest_pred hd hv1 hv2 hu3 h h' hneg
    exact ih (lt_of_succ_lt hd) hnx hnx'

/-! ### Multiply and subtract -/

theorem dsbValues_fit (hq : q < BASE) {borrow : ℤ} (hbor : -BASE < borrow)
    (hbor' : borrow ≤ 0) (ha : IsDigits as) (hb : IsDigits bs) :
    (∀ x ∈ dsbValues q borrow as bs, InLong x) ∧
      -BASE < (dsbLoop q borrow as bs).2 ∧ (dsbLoop q borrow as bs).2 ≤ 0 := by
  induction as generalizing borrow bs with
  | nil => exact ⟨by simp [dsbValues], hbor, hbor'⟩
  | cons a as ih =>
    obtain - | ⟨b, bs⟩ := bs
    · exact ⟨by simp [dsbValues], hbor, hbor'⟩
    obtain ⟨ha1, ha⟩ := forall_mem_cons.1 ha
    obtain ⟨hb1, hb⟩ := forall_mem_cons.1 hb
    have hbase : BASE = 32768 := rfl
    have hprod : a * q ≤ 32767 * 32767 :=
      Nat.mul_le_mul (le_of_lt_succ ha1) (le_of_lt_succ hq)
    have haq : (a : ℤ) * q = (a * q : ℕ) := (cast_mul ..).symm
    rw [hbase] at ha1 hb1 hbor ih
    simp only [dsbValues, dsbLoop, hbase, haq]
    generalize a * q = y at *
    obtain ⟨hval, hlow, hhigh⟩ := @ih bs ((borrow - y + b) / 0o100000) (by omega) (by omega) ha hb
    refine ⟨?_, hlow, hhigh⟩
    simp only [cons_append, nil_append, forall_mem_cons, InLong]
    refine ⟨?_, ?_, ?_, ?_, hval⟩ <;> constructor <;> omega

theorem addBackValues_fit {carry : ℕ} (hcry : carry ≤ 1) (ha : IsDigits as) (hb : IsDigits bs) :
    ∀ x ∈ addBackValues carry as bs, InLong x := by
  induction as generalizing carry bs with
  | nil => simp [addBackValues]
  | cons a as ih =>
    obtain - | ⟨b, bs⟩ := bs
    · simp [addBackValues]
    obtain ⟨ha1, ha⟩ := forall_mem_cons.1 ha
    obtain ⟨hb1, hb⟩ := forall_mem_cons.1 hb
    have hbase : BASE = 32768 := rfl
    rw [hbase] at ha1 hb1
    simp only [addBackValues, cons_append, nil_append, forall_mem_cons, InLong]
    refine ⟨?_, ?_, ih (by split_ifs <;> omega) ha hb⟩ <;> constructor <;> omega

theorem mDsbValues_fit (hq : q < BASE) (ha : IsDigits as) (hb : IsDigits bs)
    (h : as.length ≤ bs.length) : ∀ x ∈ mDsbValues q as bs, InLong x := by
  obtain ⟨hval, hlow, hhigh⟩ := dsbValues_fit hq (by decide : -(BASE : ℤ) < 0) le_rfl ha hb
  obtain ⟨-, -, hdig, -⟩ := dsbLoop_spec hq (by decide : -(BASE : ℤ) < 0) le_rfl ha hb h
  have hbase : BASE = 32768 := rfl
  have hlast := hb.getD_lt as.length
  rw [hbase] at hlow hlast
  rw [mDsbValues]
  simp only [forall_mem_append, forall_mem_cons, InLong]
  refine ⟨⟨hval, ⟨by omega, by omega⟩, ⟨by omega, by omega⟩, by simp⟩, ?_⟩
  split_ifs
  · simp
  · exact addBackValues_fit (Nat.zero_le 1) ha hdig

/-! ### All steps -/

theorem step_of (hv : IsDigits v) (hvle : m + 2 ≤ v.length)
    (htop : 0 < v.getD (m + 1) 0) (hu : IsDigits u)
    (hule : j + 1 + (m + 2) ≤ u.length)
    (hlt : value ((u.drop (j + 1)).take (m + 2)) < value (v.take (m + 2))) :
    Step v (m + 2) j u := by
  obtain ⟨⟨hq, hle, hone⟩, hback, hrs, -, -⟩ :=
    digit_step hv hvle htop hu hule hlt rfl rfl rfl rfl
  have hwle : ((u.drop j).take (m + 2 + 1)).length = m + 2 + 1 := window_length (by omega)
  have hlead := leading_le hv (w := (u.drop j).take (m + 2 + 1)) (m := m)
    (by rw [take_of_length_le (i := m + 3) hwle.le]; exact window_lt hu (by omega) hlt)
  rw [window_getD (by omega) (by omega)] at hlead
  obtain ⟨hd, hst, hst', -⟩ :=
    trq_start (hv.getD_lt (m + 1)) (hu.getD_lt (j + (m + 1))) htop hlead rfl
  have hbase : BASE = 32768 := rfl
  have hu1 := hu.getD_lt (j + (m + 2))
  have hu2 := hu.getD_lt (j + (m + 1))
  have hprev : j + (m + 2) - 1 = j + (m + 1) := rfl
  refine ⟨⟨by omega, hvle, by omega⟩, ⟨?_, ?_⟩, ?_, ?_, hback, hrs⟩
  · rw [hbase] at hu1 hu2
    rw [hprev]
    exact ⟨by omega, by omega⟩
  · exact trqFits_of hd (hv.getD_lt (m + 1)) (hv.getD_lt m) hu1 hu2 (hu.getD_lt (j + m)) hst hst'
  · refine mDsbValues_fit hq (fun d hd => hv d (mem_of_mem_take hd))
      (window_isDigits hu j (m + 2 + 1)) ?_
    rw [window, hwle, length_take_of_le hvle]
    omega
  · exact (le_add_one_iff.1 hone).imp_left fun h => h.antisymm hle

/-- Every step is like this, where the leading digits are less than the divisor. -/
theorem steps_of (hv : IsDigits v) (hvle : m + 2 ≤ v.length)
    (htop : 0 < v.getD (m + 1) 0) (hu : IsDigits u)
    (hule : j + (m + 2) ≤ u.length)
    (hlt : value ((u.drop j).take (m + 2)) < value (v.take (m + 2))) : Steps v (m + 2) j u := by
  induction j generalizing u with
  | zero => trivial
  | succ j ih =>
    obtain ⟨-, -, hrs, hdig, hlen⟩ :=
      digit_step hv hvle htop hu hule hlt rfl rfl rfl rfl
    obtain ⟨hu'length, -, hu'drop⟩ := replace_window hule hlen
    refine ⟨step_of hv hvle htop hu hule hlt, ih ?_ ?_ ?_⟩
    · exact IsDigits.append (IsDigits.append (fun d hd => hu d (mem_of_mem_take hd)) hdig)
        fun d hd => hu d (mem_of_mem_drop hd)
    · exact (by omega : j + (m + 2) ≤ u.length).trans hu'length.ge
    · refine (congrArg value hu'drop).trans_lt ?_
      rw [hrs]
      exact mod_lt _ (zero_lt_of_lt hlt)

/-- Long division is exact. If it takes more than a division by a digit, then every step of its loop
    is as it should be, on the product of the number that is divided, which has a digit more. -/
theorem mDiv_exact (before : ℕ) (a b : Mint) (ha : Canonical a) (hb : Canonical b) (ha0 : 0 ≤ a.len)
    (hb0 : 0 < b.len) :
    let r := mDiv before a b
    let d := 0o100000 / (b.val.getD (b.len.natAbs - 1) 0 + 1)
    let u := mult before a ⟨1, [d]⟩
    let v := mult before b ⟨1, [d]⟩
    (Canonical r.1 ∧ Canonical r.2 ∧ a.toInt = r.1.toInt * b.toInt + r.2.toInt ∧ 0 ≤ r.2.toInt ∧
      r.2.toInt < b.toInt) ∧
      (2 ≤ b.len → b.len ≤ a.len → u.val.length = a.len.natAbs + 1 ∧
        Steps v.val b.len.natAbs (a.len.natAbs - b.len.natAbs + 1) u.val) := by
  intro r d u v
  constructor
  · obtain ⟨⟨hq, hq0, hqva⟩, hr, hr0, hrva⟩ := mDiv_spec before ha hb ha0 hb0
    refine ⟨hq, hr, ?_⟩
    rw [(hq.positive hq0).toInt, (hr.positive hr0).toInt, (ha.positive ha0).toInt,
      (hb.positive hb0.le).toInt, hqva, hrva]
    refine ⟨?_, Int.natCast_nonneg _, by exact_mod_cast mod_lt _ (hb.value_pos hb0.ne')⟩
    exact_mod_cast (div_add_mod' _ _).symm
  · intro htwo hle
    obtain ⟨m, hm⟩ : ∃ m : ℕ, b.len = (m + 2 : ℕ) := ⟨b.len.toNat - 2, by omega⟩
    have hn : b.len.natAbs = m + 2 := by omega
    obtain ⟨hd0, hd, hvdi, hvle, hvva, htop⟩ :=
      scaled_divisor before hb hm (d := d) (by rw [← Nat.add_sub_cancel (m + 1) 1, ← hn])
    obtain ⟨huva, hudi, hule⟩ := mult_digit before (ha.positive ha0) (by omega) hd
    refine ⟨hule, ?_⟩
    rw [hn]
    refine steps_of hvdi hvle htop hudi ?_ ?_
    · rw [hule]
      omega
    · rw [hvva]
      exact scaled_leading_lt (ha.positive ha0) hb hm (by omega) hd0 huva hule

theorem mDiv_exact_small :
    Steps (mult 0 ⟨2, [3, 1]⟩ ⟨1, [0o40000]⟩).val 2 2 (mult 0 ⟨3, [5, 0, 1]⟩ ⟨1, [0o40000]⟩).val :=
  ((mDiv_exact 0 ⟨3, [5, 0, 1]⟩ ⟨2, [3, 1]⟩ ⟨rfl, by unfold IsDigits; decide, by decide⟩
    ⟨rfl, by unfold IsDigits; decide, by decide⟩ (by decide) (by decide)).2 (by decide) (by decide)).2

end Uwisc.Mp
