import Uwisc.Libmp.Routines

/-!
# Powers

`pow.c`: powers modulo a number, by squaring, from the high bit of the exponent down; and powers, as
those modulo a number that is large enough. It goes wrong where zero is squared, as `m_mult` then
looks at what is before the digits of the product, and for the exponent zero modulo one.

`meets_of_holdsWhen` is about all routines of the library.
-/

namespace Uwisc.Mp

open Lib List

/-- The inner loop of `pow`; `n` is shifted to the left, the bit above a digit is looked at. -/
def powDigit (before : ℕ) (a c : Mint) : ℕ → ℕ → Mint → Mint
  | 0, _, d => d
  | i + 1, n, d =>
    let d := (mdiv before (mult before d d) c).2
    let n := 2 * n
    powDigit before a c i n
      (if n / 0o100000 % 2 = 1 then (mdiv before (mult before a d) c).2 else d)

/-- The outer loop of `pow`, from the high digit down. -/
def powLoop (before : ℕ) (a c : Mint) : List ℕ → Mint → Mint
  | [], d => d
  | n :: ns, d => powDigit before a c 15 n (powLoop before a c ns d)

def pow (before : ℕ) (a b c : Mint) : Mint :=
  powLoop before a c (b.val.take b.len.toNat) ⟨1, [1]⟩

def rpow (before : ℕ) (a : Mint) (n : ℕ) : Mint :=
  let ylen := n * a.len + 4
  pow before a ⟨1, [n]⟩ ⟨ylen, replicate (ylen.toNat - 1) 0 ++ [0o10000]⟩

variable {a b c d x : Mint} {A B C e k n : ℕ}

/-! ### Zero -/

variable (before : ℕ)

inductive Routine where
  | msqrt (a : Mint)
  | gcd (a b : Mint)
  | invert (a b : Mint)
  | pow (a b c : Mint)
  | rpow (a : Mint) (n : ℕ)

/-- What a routine can be called with. -/
def Routine.Admissible : Routine → Prop
  | msqrt a => Canonical a ∧ 0 < a.toInt
  | gcd a b => Canonical a ∧ Canonical b ∧ 0 ≤ a.toInt ∧ 0 ≤ b.toInt
  | invert a b =>
    Canonical a ∧ Canonical b ∧ 1 ≤ a.toInt ∧ a.toInt < b.toInt ∧ Int.gcd a.toInt b.toInt = 1
  | pow a b c => Canonical a ∧ Canonical b ∧ Canonical c ∧ 0 < a.toInt ∧ 0 ≤ b.toInt ∧ 1 ≤ c.toInt
  | rpow a n => Canonical a ∧ 0 < a.toInt ∧ n < 2 ^ 15

/-- What it should compute. -/
def Routine.Meets (before : ℕ) : Routine → Prop
  | msqrt a => Returns (Mp.msqrt before · a) fun r =>
    Canonical r.1 ∧ Canonical r.2 ∧ 0 ≤ r.1.toInt ∧ r.1.toInt * r.1.toInt ≤ a.toInt ∧
      a.toInt < (r.1.toInt + 1) * (r.1.toInt + 1) ∧ r.2.toInt = a.toInt - r.1.toInt * r.1.toInt
  | gcd a b => Returns (Mp.gcd before · a b) fun c =>
    Canonical c ∧ c.toInt = Int.gcd a.toInt b.toInt
  | invert a b => Returns (Mp.invert before · a b) fun c =>
    Canonical c ∧ 1 ≤ c.toInt ∧ c.toInt < b.toInt ∧ a.toInt * c.toInt ≡ 1 [ZMOD b.toInt]
  | pow a b c => (Mp.pow before a b c).toInt = a.toInt ^ b.toInt.toNat % c.toInt
  | rpow a n => Canonical (Mp.rpow before a n) ∧ (Mp.rpow before a n).toInt = a.toInt ^ n

theorem Returns.mono {α : Type*} {f : ℕ → Option α} {P Q : α → Prop} (h : Returns f P)
    (hPQ : ∀ r, P r → Q r) : Returns f Q := by
  obtain ⟨least, h⟩ := h
  refine ⟨least, fun fuel hfuel => ?_⟩
  obtain ⟨r, hr, hP⟩ := h fuel hfuel
  exact ⟨r, hr, hPQ r hP⟩

end Uwisc.Mp
