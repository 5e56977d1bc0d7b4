import Mathlib.Tactic.NormNum
import Mathlib.Tactic.Ring

/-!
# Fixed-width signed arithmetic

The value a signed machine word of `w` bits holds after a computation whose
exact result is `x`: the representative of `x` modulo `2 ^ w` in
`[-2 ^ (w - 1), 2 ^ (w - 1))`. As long as the exact result is in that range,
nothing is lost (`wrap_of_mem`).
-/

namespace Uwisc.Lib

open BitVec

/-- The value of a signed word of `w` bits whose exact value would be `x`. -/
def wrap (w : ℕ) (x : ℤ) : ℤ := x.bmod (2 ^ w)

/-- The values a signed word of `w` bits holds. -/
def InRange (w : ℕ) (x : ℤ) : Prop := -(2 ^ w : ℤ) ≤ 2 * x ∧ 2 * x < 2 ^ w

instance (w : ℕ) (x : ℤ) : Decidable (InRange w x) :=
  inferInstanceAs (Decidable (_ ∧ _))

variable {x p q : ℤ}

theorem wrap_of_mem {w : ℕ} (h : InRange w x) : wrap w x = x := by
  obtain ⟨hl, hu⟩ := h
  apply Int.bmod_eq_of_le_mul_two <;> push_cast <;> omega

theorem wrap_inRange (w : ℕ) (x : ℤ) : InRange w (wrap w x) := by
  have hpos : 0 < 2 ^ w := Nat.two_pow_pos w
  have hl := Int.le_bmod (x := x) hpos
  have hu := Int.bmod_lt (x := x) hpos
  constructor <;> simp only [wrap] <;> push_cast at hl hu ⊢ <;> omega

/-- Wrapping changes a value by a multiple of `2 ^ w`. -/
theorem wrap_emod (w : ℕ) (x : ℤ) : wrap w x % 2 ^ w = x % 2 ^ w := by
  have := Int.bmod_emod (x := x) (m := 2 ^ w)
  push_cast at this
  exact this

/-- A whole turn more wraps to the same value. -/
theorem wrap_add_circle (w : ℕ) (x : ℤ) : wrap w (x + 2 ^ w) = wrap w x := by
  have h := Int.add_bmod_right x (2 ^ w)
  push_cast at h
  exact h

/-- A value computed from a wrapped one is wrapped as if it had not been. -/
theorem wrap_wrap_sub (w : ℕ) (x y : ℤ) : wrap w (wrap w x - y) = wrap w (x - y) :=
  Int.bmod_sub_bmod

theorem inRange_short : InRange 16 x ↔ -32768 ≤ x ∧ x ≤ 32767 := by
  simp only [InRange]; omega

theorem inRange_int : InRange 32 x ↔ -2147483648 ≤ x ∧ x ≤ 2147483647 := by
  simp only [InRange]; omega

/-- A signed word of 32 bits holds a value in its range. -/
theorem wrap_int (hl : -2147483648 ≤ x) (hu : x ≤ 2147483647) : wrap 32 x = x :=
  wrap_of_mem (inRange_int.2 ⟨hl, hu⟩)

/-- A signed word of 16 bits holds a value in its range. -/
theorem wrap_short (hl : -32768 ≤ x) (hu : x ≤ 32767) : wrap 16 x = x :=
  wrap_of_mem (inRange_short.2 ⟨hl, hu⟩)

/-!
### Circular numbers

Numbers of `w` bits that wrap around, such as sequence numbers, are compared by
the sign of their difference. A number is at a distance `p` from a base
(`place`); the comparison of two such numbers is that of their distances as long
as these differ by less than half of the circle (`place_sub_toInt`).
-/

variable {w : ℕ}

/-- The number at the distance `p` after `b`. -/
def place (b : BitVec w) (p : ℤ) : BitVec w := b + BitVec.ofInt w p

@[simp] theorem place_zero (b : BitVec w) : place b 0 = b := by
  simp [place]

theorem place_place (b : BitVec w) (p q : ℤ) : place (place b p) q = place b (p + q) := by
  rw [place, place, place, ofInt_add, BitVec.add_assoc]

theorem place_add_ofNat (b : BitVec w) (p : ℤ) (n : ℕ) :
    place b p + BitVec.ofNat w n = place b (p + n) := by
  simp only [place, ofInt_add, ofInt_natCast, BitVec.add_assoc]

theorem place_sub (b : BitVec w) (p q : ℤ) : place b p - place b q = BitVec.ofInt w (p - q) := by
  have h : p = q + (p - q) := by omega
  rw [place, place]
  conv_lhs => rw [h, ofInt_add]
  rw [← BitVec.add_assoc, BitVec.add_comm, BitVec.add_sub_cancel]

theorem ofInt_toInt_eq (p : ℤ) : (BitVec.ofInt w p).toInt = wrap w p := by
  rw [toInt_ofInt, wrap]

/-- The signed difference of two places is that of their distances, wrapped. -/
theorem place_sub_toInt (b : BitVec w) (p q : ℤ) :
    (place b p - place b q).toInt = wrap w (p - q) := by
  rw [place_sub, ofInt_toInt_eq]

/-- The signed difference of two places less than half a circle apart. -/
theorem place_sub_toInt_of_mem (b : BitVec w) (h : InRange w (p - q)) :
    (place b p - place b q).toInt = p - q := by
  rw [place_sub_toInt, wrap_of_mem h]

/-- Two places less than half a circle apart are the same number only at the same distance. -/
theorem place_inj (b : BitVec w) (h : InRange w (p - q)) :
    place b p = place b q ↔ p = q := by
  refine ⟨fun he => ?_, fun he => he ▸ rfl⟩
  have := place_sub_toInt_of_mem b h
  rw [he, BitVec.sub_self, toInt_zero] at this
  omega

/-- Every number is at some distance after `b`. -/
theorem exists_place_eq (b c : BitVec w) : place b (c - b).toInt = c := by
  rw [place, ofInt_toInt, BitVec.add_comm, BitVec.sub_add_cancel]

end Uwisc.Lib
