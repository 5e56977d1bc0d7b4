import Uwisc.Libmp.Quotients

/-!
# Natural numbers

`Is a n`: the number `a` is `n`, with no leading zero. What each operation does to such numbers, and
how long they are.
-/

namespace Uwisc.Mp

open Lib

variable {a b : Mint} {n m : ℕ}

/-- A number that is natural, in canonical form. -/
structure Is (a : Mint) (n : ℕ) : Prop where
  canonical : Canonical a
  nonneg : 0 ≤ a.len
  value : value a.digits = n

/-- `move`. -/
def move (a : Mint) : Mint := ⟨a.len, a.digits⟩

theorem digits_move (a : Mint) : (move a).digits = a.digits := by
  rw [move, Mint.digits, Mint.digits, List.take_take, Nat.min_self]

theorem Canonical.move (h : Canonical a) : Canonical (move a) := by
  refine ⟨?_, ?_, ?_⟩ <;> rw [digits_move]
  · exact h.length
  · exact h.isDigits
  · exact h.top

theorem Canonical.is_of_toInt (h : Canonical a) (ha : a.toInt = n) : Is a n := by
  have hlen : 0 ≤ a.len := h.toInt_nonneg.1 (by omega)
  refine ⟨h, hlen, ?_⟩
  rw [(h.positive hlen).toInt] at ha
  exact_mod_cast ha

theorem Canonical.is (h : Canonical a) (hlen : 0 ≤ a.len) : Is a (Mp.value a.digits) := ⟨h, hlen, rfl⟩

theorem is_zero_of_len (h : a.len = 0) : Is a 0 := by
  have hdig : a.digits = [] := by rw [Mint.digits, h, Int.natAbs_zero, List.take_zero]
  refine ⟨⟨?_, ?_, ?_⟩, h.ge, ?_⟩ <;> rw [hdig]
  · rw [h]
    rfl
  · exact List.forall_mem_nil _
  · decide
  · rfl

theorem is_digit {d : ℕ} (hd : d < BASE) (hd0 : 0 < d) : Is ⟨1, [d]⟩ d :=
  ⟨canonical_digit rfl hd hd0.ne', zero_le_one, rfl⟩

namespace Is

section

variable (h : Is a n)

include h

theorem toInt : a.toInt = n := by rw [(h.canonical.positive h.nonneg).toInt, h.value]

theorem len_eq_zero : a.len = 0 ↔ n = 0 := by
  rw [← h.canonical.toInt_eq_zero, h.toInt, Nat.cast_eq_zero]

theorem len_pos : 0 < a.len ↔ 0 < n := by
  have := h.len_eq_zero
  have := h.nonneg
  omega

/-- A number is less than a power of the base if it has no more digits. -/
theorem len_le_iff {k : ℕ} : a.len ≤ k ↔ n < BASE ^ k := by
  obtain ⟨hlt, hle⟩ := h.canonical.bounds
  rw [h.value] at hlt hle
  have hnon := h.nonneg
  constructor
  · intro hk
    exact hlt.trans_le (Nat.pow_le_pow_right (by decide) (by omega))
  · intro hn
    by_contra hk
    have hlrg := Nat.pow_le_pow_right (by decide : 0 < BASE) (by omega : k ≤ a.len.natAbs - 1)
    exact absurd (hn.trans_le hlrg) (not_lt.2 (hle (by omega)))

theorem move : Is (move a) n :=
  ⟨h.canonical.move, h.nonneg, by rw [digits_move, h.value]⟩

theorem madd (h' : Is b m) : Is (madd a b) (n + m) := by
  obtain ⟨hcan, hsum⟩ := madd_spec h.canonical h'.canonical
  refine hcan.is_of_toInt ?_
  rw [hsum, h.toInt, h'.toInt, Nat.cast_add]

theorem msub (h' : Is b m) (hle : m ≤ n) : Is (msub a b) (n - m) := by
  obtain ⟨hcan, hdiff⟩ := msub_spec h.canonical h'.canonical
  rw [if_neg fun hneg => hneg.1.not_ge h.nonneg] at hdiff
  refine hcan.is_of_toInt ?_
  rw [hdiff, h.toInt, h'.toInt, Nat.cast_sub hle]

theorem sDiv {d : ℕ} (hd : 0 < d) (hd' : d < BASE) :
    Is (sDiv a d).1 (n / d) ∧ (sDiv a d).2 = n % d := by
  obtain ⟨hcan, hquo, hrs⟩ := sDiv_spec hd hd' h.canonical
  rw [h.value] at hquo hrs
  exact ⟨⟨hcan, Int.natCast_nonneg _, hquo⟩, hrs⟩

theorem mdiv (h' : Is b m) (hm : 0 < m) (before : ℕ) :
    Is (mdiv before a b).1 (n / m) ∧ Is (mdiv before a b).2 (n % m) := by
  have hquo := mDiv_spec before h.canonical h'.canonical h.nonneg (h'.len_pos.2 hm)
  have ha0 := h.nonneg.not_gt
  have hb0 := h'.nonneg.not_gt
  rw [Mp.mdiv, if_neg ha0, if_neg hb0, if_neg (by simp [ha0, hb0])]
  obtain ⟨⟨hq, hq0, hqva⟩, hr, hr0, hrva⟩ := hquo
  rw [h.value, h'.value] at hqva hrva
  exact ⟨⟨hq, hq0, hqva⟩, hr, hr0, hrva⟩

/-- A product with a factor that is short, and not zero. -/
theorem mult_short (h' : Is b m) (hn : 0 < n) (hm : 0 < m)
    (hsht : a.len < 3 * 2 ^ 15 ∨ b.len < 3 * 2 ^ 15) (before : ℕ) : Is (mult before a b) (n * m) := by
  have ha0 := h.nonneg.not_gt
  have hb0 := h'.nonneg.not_gt
  have hpos := h.len_pos.2 hn
  have hpos' := h'.len_pos.2 hm
  have hz : Is (if a.len < b.len then mMult before b a else mMult before a b) (n * m) := by
    split_ifs with hlt
    · obtain ⟨hcan, hlen, hval⟩ :=
        mMult_spec before h'.canonical h.canonical hpos hlt.le (by omega)
      rw [h.value, h'.value, mul_comm] at hval
      exact ⟨hcan, hlen.le, hval⟩
    · obtain ⟨hcan, hlen, hval⟩ :=
        mMult_spec before h.canonical h'.canonical hpos' (not_lt.1 hlt) (by omega)
      rw [h.value, h'.value] at hval
      exact ⟨hcan, hlen.le, hval⟩
  have hne : (if a.len < b.len then mMult before b a else mMult before a b).len ≠ 0 := by
    rw [Ne, hz.len_eq_zero]
    exact (Nat.mul_pos hn hm).ne'
  rw [mult]
  simp only [ne_eq, ha0, hb0, not_true_eq_false, if_false, hne]
  exact hz

/-- A digit, which may be zero, is added to a number that is not zero. -/
theorem madd_digit {d : ℕ} (hd : d < BASE) (hpos : 0 < n ∨ 0 < d) :
    Is (Mp.madd a ⟨1, [d]⟩) (n + d) := by
  rcases Nat.eq_zero_or_pos d with rfl | hd0
  · have hn := h.len_pos.2 (hpos.resolve_right (lt_irrefl 0))
    have hone : Positive ⟨1, [0]⟩ := ⟨zero_le_one, rfl, List.forall_mem_singleton.2 (by decide)⟩
    have hle : (Mint.mk 1 [0]).len ≤ a.len := hn
    obtain ⟨hsum, hval, hcan, -⟩ := mAdd_spec (h.canonical.positive h.nonneg) hone hle
    have hadd : Mp.madd a ⟨1, [0]⟩ = mAdd a ⟨1, [0]⟩ := by
      rw [Mp.madd, if_pos h.nonneg, if_pos (by decide : (1 : ℤ) ≥ 0), maddPos, if_pos hle]
    rw [hadd]
    refine ⟨hcan h.canonical, hsum.nonneg, ?_⟩
    rw [hval, h.value]
    rfl
  · exact h.madd (is_digit hd hd0)

end

/-- A product of zero and a digit. -/
theorem mult_zero_digit (h : Is a 0) (h' : Is b m) (hb : b.len = 1) (before : ℕ) :
    Is (mult before a b) 0 := by
  have ha := h.len_eq_zero.2 rfl
  have hrgt : MultRight before a b := .inr (.inl (by omega))
  obtain ⟨hcan, hpro⟩ := (mult_spec before h.canonical h'.canonical
    (by rw [ha]; decide) (by rw [hb]; decide)).2 hrgt
  refine hcan.is_of_toInt ?_
  rw [hpro, h.toInt, Nat.cast_zero, zero_mul]

end Is

end Uwisc.Mp
