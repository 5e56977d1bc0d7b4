import Mathlib.Algebra.Order.Ring.Int
import Uwisc.Lib.Feistel

/-!
# Encryption

The Data Encryption Standard as it is in `libc/gen/crypt.c`. An array of characters that are `0` or
`1` is a vector of `Bool`. Tables count from one, except for the selection functions. `L[0..64)` is
`L` and the `R` that follows it.
-/

namespace Uwisc.Libc.Crypt

open Lib

/-- An array of bits. -/
abbrev Bits (n : ℕ) := Vector Bool n

/-- The `i`-th bit, from one. -/
def nth {n : ℕ} (x : Bits n) (i : ℕ) : Bool := if h : i - 1 < n then x[i - 1] else false

/-! ### Tables -/

/-- Initial permutation. -/
def IP : List ℕ := [
  58,50,42,34,26,18,10, 2,
  60,52,44,36,28,20,12, 4,
  62,54,46,38,30,22,14, 6,
  64,56,48,40,32,24,16, 8,
  57,49,41,33,25,17, 9, 1,
  59,51,43,35,27,19,11, 3,
  61,53,45,37,29,21,13, 5,
  63,55,47,39,31,23,15, 7]

/-- Final permutation. -/
def FP : List ℕ := [
  40, 8,48,16,56,24,64,32,
  39, 7,47,15,55,23,63,31,
  38, 6,46,14,54,22,62,30,
  37, 5,45,13,53,21,61,29,
  36, 4,44,12,52,20,60,28,
  35, 3,43,11,51,19,59,27,
  34, 2,42,10,50,18,58,26,
  33, 1,41, 9,49,17,57,25]

def PC1_C : List ℕ := [
  57,49,41,33,25,17, 9, 1,58,50,42,34,26,18,
  10, 2,59,51,43,35,27,
  19,11, 3,60,52,44,36]

def PC1_D : List ℕ := [
  63,55,47,39,31,23,15, 7,62,54,46,38,30,22,
  14, 6,61,53,45,37,29,
  21,13, 5,28,20,12, 4]

/-- Shifts of the key schedule. -/
def shifts : List ℕ := [1,1,2,2,2,2,2,2,1,2,2,2,2,2,2,1]

def PC2_C : List ℕ := [
  14,17,11,24, 1, 5, 3,28,15, 6,21,10,
  23,19,12, 4,26, 8,
  16, 7,27,20,13, 2]

def PC2_D : List ℕ := [
  41,52,31,37,47,55,
  30,40,51,45,33,48,
  44,49,39,56,34,53,
  46,42,50,36,29,32]

/-- The bit-selection table that `E` is set to. -/
def e : List ℕ := [
  32, 1, 2, 3, 4, 5, 4, 5, 6, 7, 8, 9, 8, 9,10,11,12,13,
  12,13,14,15,16,17,
  16,17,18,19,20,21,
  20,21,22,23,24,25,
  24,25,26,27,28,29,
  28,29,30,31,32, 1]

/-- The selection functions. -/
def S : List (List ℕ) := [
  [14, 4,13, 1, 2,15,11, 8, 3,10, 6,12, 5, 9, 0, 7, 0,15, 7, 4,14, 2,13, 1,10, 6,12,11, 9, 5, 3, 8,
    4, 1,14, 8,13, 6, 2,11,15,12, 9, 7, 3,10, 5, 0,
   15,12, 8, 2, 4, 9, 1, 7, 5,11, 3,14,10, 0, 6,13],
  [15, 1, 8,14, 6,11, 3, 4, 9, 7, 2,13,12, 0, 5,10, 3,13, 4, 7,15, 2, 8,14,12, 0, 1,10, 6, 9,11, 5,
    0,14, 7,11,10, 4,13, 1, 5, 8,12, 6, 9, 3, 2,15,
   13, 8,10, 1, 3,15, 4, 2,11, 6, 7,12, 0, 5,14, 9],
  [10, 0, 9,14, 6, 3,15, 5, 1,13,12, 7,11, 4, 2, 8, 13, 7, 0, 9, 3, 4, 6,10, 2, 8, 5,14,12,11,15, 1,
   13, 6, 4, 9, 8,15, 3, 0,11, 1, 2,12, 5,10,14, 7, 1,10,13, 0, 6, 9, 8, 7, 4,15,14, 3,11, 5, 2,12],
  [ 7,13,14, 3, 0, 6, 9,10, 1, 2, 8, 5,11,12, 4,15, 13, 8,11, 5, 6,15, 0, 3, 4, 7, 2,12, 1,10,14, 9,
   10, 6, 9, 0,12,11, 7,13,15, 1, 3,14, 5, 2, 8, 4, 3,15, 0, 6,10, 1,13, 8, 9, 4, 5,11,12, 7, 2,14],
  [ 2,12, 4, 1, 7,10,11, 6, 8, 5, 3,15,13, 0,14, 9, 14,11, 2,12, 4, 7,13, 1, 5, 0,15,10, 3, 9, 8, 6,
    4, 2, 1,11,10,13, 7, 8,15, 9,12, 5, 6, 3, 0,14,
   11, 8,12, 7, 1,14, 2,13, 6,15, 0, 9,10, 4, 5, 3],
  [12, 1,10,15, 9, 2, 6, 8, 0,13, 3, 4,14, 7, 5,11, 10,15, 4, 2, 7,12, 9, 5, 6, 1,13,14, 0,11, 3, 8,
    9,14,15, 5, 2, 8,12, 3, 7, 0, 4,10, 1,13,11, 6,
    4, 3, 2,12, 9, 5,15,10,11,14, 1, 7, 6, 0, 8,13],
  [ 4,11, 2,14,15, 0, 8,13, 3,12, 9, 7, 5,10, 6, 1, 13, 0,11, 7, 4, 9, 1,10,14, 3, 5,12, 2,15, 8, 6,
    1, 4,11,13,12, 3, 7,14,10,15, 6, 8, 0, 5, 9, 2,
    6,11,13, 8, 1, 4,10, 7, 9, 5, 0,15,14, 2, 3,12],
  [13, 2, 8, 4, 6,15,11, 1,10, 9, 3,14, 5, 0,12, 7, 1,15,13, 8,10, 3, 7, 4,12, 5, 6,11, 0,14, 9, 2,
    7,11, 4, 1, 9,12,14, 2, 0, 6,10,13,15, 3, 5, 8,
    2, 1,14, 7, 4,10, 8,13,15,12, 9, 0, 3, 5, 6,11]]

def P : List ℕ := [
  16, 7,20,21,
  29,12,28,17, 1,15,23,26, 5,18,31,10, 2, 8,24,14,
  32,27, 3, 9,
  19,13,30, 6,
  22,11, 4,25]

/-! ### The key schedule -/

/-- What is kept from one call to the next: `C`, `D`, `KS` and `E`. `L`, `R`, `f` and `preS` are
    set before they are used. -/
structure Des where
  C : Bits 28
  D : Bits 28
  KS : Vector (Bits 48) 16
  E : Vector ℕ 48

/-- Rotates `C` or `D`. -/
def rotate (d : Bits 28) : Bits 28 := .ofFn fun j => if h : j.val < 28 - 1 then d[j.val + 1] else d[0]

/-- `C` or `D` after the rotations for the key `i`. -/
def rotated (c : Bits 28) (i : ℕ) : Bits 28 := rotate^[(shifts.take (i + 1)).sum] c

def setkey (key : Bits 64) : Des :=
  let C : Bits 28 := .ofFn fun i => nth key (PC1_C.getD i 0)
  let D : Bits 28 := .ofFn fun i => nth key (PC1_D.getD i 0)
  { C := rotated C 15
    D := rotated D 15
    KS := .ofFn fun i =>
      let C := rotated C i
      let D := rotated D i
      .ofFn fun j => if j.val < 24 then nth C (PC2_C.getD j 0) else nth D (PC2_D.getD (j - 24) 0 - 28)
    E := .ofFn fun i => e.getD i 0 }

/-! ### Encryption of a block -/

/-- A bit as a number. -/
def bit (b : Bool) : ℕ := if b then 1 else 0

/-- The selection function `j` of what was combined. -/
def select (preS : Bits 48) (j : ℕ) : ℕ :=
  let t := 6 * j
  (S.getD j []).getD (bit (nth preS (t + 1)) * 2 ^ 5 + bit (nth preS (t + 2)) * 2 ^ 3 +
    bit (nth preS (t + 3)) * 2 ^ 2 + bit (nth preS (t + 4)) * 2 + bit (nth preS (t + 5)) +
    bit (nth preS (t + 6)) * 2 ^ 4) 0

/-- `f(R, K)`. -/
def f (E : Vector ℕ 48) (K : Bits 48) (R : Bits 32) : Bits 32 :=
  let preS : Bits 48 := .ofFn fun j => xor (nth R E[j]) K[j]
  let f : Bits 32 := .ofFn fun t => (select preS (t / 4)).testBit (3 - t % 4)
  .ofFn fun j => nth f (P.getD j 0)

/-- The halves `L` and `R` of an array of 64. -/
def halves (x : Bits 64) : Bits 32 × Bits 32 := (.ofFn fun j => x[j.val], .ofFn fun j => x[j.val + 32])

/-- `L` and `R` as one array. -/
def joined (x : Bits 32 × Bits 32) : Bits 64 :=
  .ofFn fun j => if h : j.val < 32 then x.1[j.val] else x.2[j.val - 32]

/-- The numbers of the keys, in the order in which they are used. -/
def direction (edflag : Bool) : List (Fin 16) :=
  (List.finRange 16).map fun ii : Fin 16 => if edflag then ⟨15 - ii.val, by omega⟩ else ii

/-- Encrypts a block, or decrypts it if `edflag` is set. -/
def encrypt (s : Des) (block : Bits 64) (edflag : Bool) : Bits 64 :=
  let L : Bits 64 := .ofFn fun j => nth block (IP.getD j 0)
  let LR := feistel (.zipWith xor) (fun i : Fin 16 => f s.E s.KS[i]) (direction edflag) (halves L)
  let L := joined LR.swap
  .ofFn fun j => nth L (FP.getD j 0)

/-! ### Passwords -/

/-- The bits of a password as a key. -/
def pwbits (pw : List UInt8) : Bits 64 := .ofFn fun i =>
  if i.val % 8 < 7 then (pw.getD (i / 8) 0).toNat.testBit (6 - i % 8) else false

/-- The number that a character of the salt stands for. -/
def saltnum (c : UInt8) : ℤ :=
  let c : ℤ := c.toInt8.toInt
  let c := if (90 : ℤ) < c then c - 6 else c
  let c := if (57 : ℤ) < c then c - 7 else c
  c - 46

/-- Exchanges the entries of `E` that the character `i` of the salt says. -/
def saltE (E : Vector ℕ 48) (i : Fin 2) (c : UInt8) : Vector ℕ 48 := .ofFn fun k =>
  if h : 6 * i.val ≤ k.val ∧ k.val < 6 * i.val + 6 then
    if (saltnum c >>> (k.val - 6 * i.val)) % 2 = 1 then E[k.val + 24] else E[k]
  else if h : 6 * i.val + 24 ≤ k.val ∧ k.val < 6 * i.val + 24 + 6 then
    if (saltnum c >>> (k.val - 6 * i.val - 24)) % 2 = 1 then E[k.val - 24] else E[k]
  else E[k]

/-- A character of the result, of six bits of the block and of the two zeros that follow it. -/
def itoa (block : Bits 64) (i : ℕ) : ℕ :=
  let c := (List.range 6).foldl (fun c j => 2 * c + bit (nth block (6 * i + j + 1))) 0
  let c := c + 46
  let c := if 57 < c then c + 7 else c
  if 90 < c then c + 6 else c

/-- `crypt`: what it leaves, and `iobuf`. -/
def crypt (pw : List UInt8) (c0 c1 : UInt8) : Des × List UInt8 :=
  let s := setkey (pwbits pw)
  let s := { s with E := saltE (saltE s.E 0 c0) 1 c1 }
  let block := (fun block => encrypt s block false)^[25] (.replicate 64 false)
  (s, c0 :: (if c1 = 0 then c0 else c1) :: (List.range 11).map fun i => UInt8.ofNat (itoa block i))

/-!
### Decryption

Decryption is encryption with the keys in reverse order: the final permutation is the inverse of the
initial one, and the rounds undo themselves (`encrypt_inverse`).
-/

/-- The bits that a table selects. -/
def permute (t : List ℕ) (x : Bits 64) : Bits 64 := .ofFn fun j => nth x (t.getD j 0)

theorem nth_succ {n : ℕ} (x : Bits n) {i : ℕ} (hi : i < n) : nth x (i + 1) = x[i] := by
  simp only [nth, Nat.add_sub_cancel, hi, dif_pos]

/-- One table after another that it inverts. -/
theorem permute_permute {t t' : List ℕ} (h : ∀ j : Fin 64, t'.getD j 0 - 1 < 64 ∧ t.getD (t'.getD j 0 - 1) 0 = j + 1)
    (x : Bits 64) : permute t' (permute t x) = x := by
  ext j hj
  obtain ⟨hlt, hinv⟩ := h ⟨j, hj⟩
  dsimp only at hlt hinv
  rw [permute, Vector.getElem_ofFn, nth, dif_pos hlt]
  simp only [permute, Vector.getElem_ofFn]
  rw [hinv, nth_succ x hj]

theorem permute_FP_IP (x : Bits 64) : permute FP (permute IP x) = x := permute_permute (by decide) x

theorem permute_IP_FP (x : Bits 64) : permute IP (permute FP x) = x := permute_permute (by decide) x

theorem halves_joined (x : Bits 32 × Bits 32) : halves (joined x) = x := by
  refine Prod.ext ?_ ?_
  · ext j hj
    simp only [halves, joined, Vector.getElem_ofFn, hj, dif_pos]
  · ext j hj
    have hge : ¬j + 32 < 32 := by omega
    simp only [halves, joined, Vector.getElem_ofFn, hge, dif_neg, not_false_eq_true, Nat.add_sub_cancel]

theorem joined_halves (x : Bits 64) : joined (halves x) = x := by
  ext j hj
  simp only [joined, halves, Vector.getElem_ofFn]
  split_ifs with h
  · rfl
  · simp only [Nat.sub_add_cancel (Nat.not_lt.1 h)]

theorem zipWith_xor_xor {n : ℕ} (a b : Bits n) : Vector.zipWith xor (Vector.zipWith xor a b) b = a := by
  ext j hj
  simp only [Vector.getElem_zipWith, Bool.xor_assoc, Bool.xor_self, Bool.xor_false]

theorem direction_not (edflag : Bool) : direction (!edflag) = (direction edflag).reverse := by
  cases edflag
  · decide
  · decide

/-- What is encrypted with the keys in one order is restored with the keys in the other one. -/
theorem encrypt_not (s : Des) (block : Bits 64) (edflag : Bool) :
    encrypt s (encrypt s block edflag) (!edflag) = block := by
  set F : Fin 16 → Bits 32 → Bits 32 := fun i => f s.E s.KS[i] with hF
  have henc (x : Bits 64) (b : Bool) : encrypt s x b =
      permute FP (joined (feistel (.zipWith xor) F (direction b) (halves (permute IP x))).swap) := rfl
  rw [henc, henc, permute_IP_FP, halves_joined, direction_not, feistel_reverse zipWith_xor_xor,
    Prod.swap_swap, joined_halves, permute_FP_IP]

/-- Encryption and decryption undo each other, with any key and any salt. -/
theorem encrypt_inverse (key : Bits 64) (pw : List UInt8) (c0 c1 : UInt8) (block : Bits 64) :
    let s := { setkey key with E := (crypt pw c0 c1).1.E }
    encrypt s (encrypt s block false) true = block ∧ encrypt s (encrypt s block true) false = block :=
  ⟨encrypt_not _ block false, encrypt_not _ block true⟩

end Uwisc.Libc.Crypt
