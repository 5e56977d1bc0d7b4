import Mathlib.Data.Nat.Digits.Defs

/-!
# Multiple precision integers

The arithmetic of `usr.lib/libmp`: `madd.c`, `mult.c`, `mdiv.c`, and what they use of `mout.c` and
`util.c`. A number is a length with its sign and digits of 15 bits, the low one foremost. What is
freed is left out, and a result is a new number.

The recursive calls of `madd` and `msub` are those with both numbers made positive.
-/

namespace Uwisc.Mp

/-- A digit is less than this. -/
def BASE : ℕ := 0o100000

/-- A number (`struct mint`); the memory for its digits may be longer than its length. -/
structure Mint where
  len : ℤ
  val : List ℕ
  deriving DecidableEq

/-- The digits that are in use. -/
def Mint.digits (a : Mint) : List ℕ := a.val.take a.len.natAbs

/-- Whether the bit above a digit is set (`x & 0100000`). -/
def carryBit (x : ℤ) : Bool := x / 0o100000 % 2 = 1

/-- The bits of a digit (`x & 077777`). -/
def digitOf (x : ℤ) : ℕ := (x % 0o100000).toNat

/-- What a `long` holds. -/
def long (x : ℤ) : ℤ := x.bmod (2 ^ 32)

/-! ### Sums and differences -/

/-- The loops of `m_add`; the digits of `b` end first. -/
def addLoop (carry : ℕ) : List ℕ → List ℕ → List ℕ × ℕ
  | [], _ => ([], carry)
  | a :: as, b :: bs =>
    let x : ℤ := carry + a + b
    let r := addLoop (if carryBit x then 1 else 0) as bs
    (digitOf x :: r.1, r.2)
  | a :: as, [] =>
    let x : ℤ := carry + a
    let r := addLoop (if carryBit x then carry else 0) as []
    (digitOf x :: r.1, r.2)

def mAdd (a b : Mint) : Mint :=
  let r := addLoop 0 a.digits b.digits
  if r.2 = 1 then ⟨a.len + 1, r.1 ++ [1]⟩ else ⟨a.len, r.1⟩

/-- `madd` of positive numbers. -/
def maddPos (x y : Mint) : Mint := if x.len ≥ y.len then mAdd x y else mAdd y x

/-- The loops of `m_sub`; the digits of `b` end first. -/
def subLoop (borrow : ℤ) : List ℕ → List ℕ → List ℕ × ℤ
  | [], _ => ([], borrow)
  | a :: as, b :: bs =>
    let x : ℤ := borrow + a - b
    let r := subLoop (if carryBit x then -1 else 0) as bs
    (digitOf x :: r.1, r.2)
  | a :: as, [] =>
    let x : ℤ := borrow + a
    let r := subLoop (if carryBit x then borrow else 0) as []
    (digitOf x :: r.1, r.2)

/-- How many digits there are up to the last one that is not zero, of the first `n`. -/
def topDigit (val : List ℕ) : ℕ → ℕ
  | 0 => 0
  | n + 1 => if val.getD n 0 > 0 then n + 1 else topDigit val n

def mSub (a b : Mint) : Mint :=
  let r := subLoop 0 a.digits b.digits
  -- with a borrow left, the digits are those of the negative difference
  let c : Mint :=
    if r.2 < 0 then maddPos ⟨a.len, r.1.map fun d => d ^^^ 0o77777⟩ ⟨1, [1]⟩ else ⟨0, r.1⟩
  let n := topDigit c.val a.len.natAbs
  if n = 0 then ⟨c.len, []⟩ else ⟨if r.2 = 0 then n else -n, c.val⟩

/-- `msub` of positive numbers. -/
def msubPos (x y : Mint) : Mint :=
  if x.len ≥ y.len then mSub x y
  else
    let z := mSub y x
    ⟨-z.len, z.val⟩

/-- The number with its sign changed. -/
def Mint.neg (a : Mint) : Mint := ⟨-a.len, a.val⟩

def madd (a b : Mint) : Mint :=
  if a.len ≥ 0 then
    if b.len ≥ 0 then maddPos a b
    else msubPos a b.neg
  else if b.len ≤ 0 then (maddPos a.neg b.neg).neg
  else msubPos b a.neg

def msub (a b : Mint) : Mint :=
  if a.len ≥ 0 then
    if b.len ≥ 0 then msubPos a b
    else maddPos a b.neg
  else if b.len ≤ 0 then (msubPos b.neg a.neg).neg
  else (maddPos a.neg b).neg

def mcmp (a b : Mint) : ℤ := if a.len ≠ b.len then a.len - b.len else (msub a b).len

/-! ### Products -/

/-- Adds to a sum whose high bit is kept clear, and counts in `carry` how often it was set. -/
def tradd (carry : ℕ) (sum : BitVec 32) (x : ℕ) : ℕ × BitVec 32 :=
  let sum := sum + BitVec.ofNat 32 x
  if sum.msb then (carry + 1, sum &&& 0x7fffffff) else (carry, sum)

/-- The products `a->val[j] * b->val[i - j]` for `j` from `lo` up to `hi`, added to the sum. -/
def column (a b : List ℕ) (i lo hi : ℕ) (sum : BitVec 32) : ℕ × BitVec 32 :=
  (List.range' lo (hi - lo)).foldl
    (fun s j => tradd s.1 s.2 (a.getD j 0 * b.getD (i - j) 0)) (0, sum)

/-- The columns `(i, lo, hi)`, one after the other. -/
def multLoop (a b : List ℕ) (sum : BitVec 32) : List (ℕ × ℕ × ℕ) → List ℕ
  | [] => []
  | (i, lo, hi) :: cols =>
    let s := column a b i lo hi sum
    -- `carry` comes into the high half
    let next := BitVec.ofNat 16 s.1 ++ ((s.2.sshiftRight 15).extractLsb' 0 16)
    s.2.toNat % BASE :: multLoop a b next cols

/-- The three loops of `m_mult`, for numbers of `la` and `lb` digits. -/
def columns (la lb : ℕ) : List (ℕ × ℕ × ℕ) :=
  (List.range lb).map (fun i => (i, 0, i + 1)) ++
    ((List.range' lb (la - lb)).map (fun i => (i, i + 1 - lb, i + 1)) ++
      (List.range' la lb).map (fun i => (i, i + 1 - lb, la)))

/-- `before` is what is in memory before the digits of the product. -/
def mMult (before : ℕ) (a b : Mint) : Mint :=
  let val := multLoop a.digits b.digits 0 (columns a.len.natAbs b.len.natAbs)
  let n := a.len.natAbs + b.len.natAbs
  let last := if n = 0 then before else val.getD (n - 1) 0
  ⟨if last ≠ 0 then n else n - 1, val⟩

def mult (before : ℕ) (a b : Mint) : Mint :=
  let x := if a.len < 0 then a.neg else a
  let y := if b.len < 0 then b.neg else b
  let z := if x.len < y.len then mMult before y x else mMult before x y
  let len := if (a.len < 0) ≠ (b.len < 0) then -z.len else z.len
  ⟨len, if len = 0 then [] else z.val⟩

/-! ### Quotients -/

/-- The loop of `s_div`, from the high digit down. -/
def sDivLoop (n : ℕ) : List ℕ → List ℕ × ℕ
  | [] => ([], 0)
  | d :: ds =>
    let r := sDivLoop n ds
    let x := r.2 * 0o100000 + d
    (x / n :: r.1, x % n)

/-- `s_div` of a positive number by a digit. -/
def sDiv (a : Mint) (n : ℕ) : Mint × ℕ :=
  let r := sDivLoop n a.digits
  let qlen := a.len.natAbs
  let qlen := if qlen ≠ 0 ∧ r.1.getD (qlen - 1) 0 = 0 then qlen - 1 else qlen
  (⟨qlen, r.1⟩, r.2)

/-- Subtracts `q` times `a` from `b`. -/
def dsbLoop (q : ℕ) (borrow : ℤ) : List ℕ → List ℕ → List ℕ × ℤ
  | a :: as, b :: bs =>
    let x : ℤ := borrow - a * q + b
    let r := dsbLoop q (x / 0o100000) as bs
    (digitOf x :: r.1, r.2)
  | _, _ => ([], borrow)

/-- Adds `a` to `b` again. -/
def addBack (borrow : ℕ) : List ℕ → List ℕ → List ℕ
  | a :: as, b :: bs =>
    let u : ℤ := a + b + borrow
    digitOf u :: addBack (if carryBit u then 1 else 0) as bs
  | _, _ => []

/-- `b` has a digit more than `a`; returns whether `q` was too much. -/
def mDsb (q : ℕ) (a b : List ℕ) : List ℕ × Bool :=
  let r := dsbLoop q 0 a b
  let x := r.2 + b.getD a.length 0
  if x / 0o100000 = 0 then (r.1 ++ [digitOf x], false)
  else (addBack 0 a r.1 ++ [digitOf x], true)

/-- What is left of `u1`, `u2`, `u3` after `d` times `v1`, `v2`. -/
def trqRest (v1 v2 u1 u2 u3 d : ℕ) : ℤ :=
  let x1 := long (u1 * 0o100000 + u2 - v1 * d)
  long (x1 * 0o100000 + u3 - v2 * d)

/-- The loop of `m_trq`; nothing is negative once `d` is zero. -/
def trqLoop (v1 v2 u1 u2 u3 : ℕ) : ℕ → ℕ
  | 0 => 0
  | d + 1 => if trqRest v1 v2 u1 u2 u3 (d + 1) < 0 then trqLoop v1 v2 u1 u2 u3 d else d + 1

def mTrq (v1 v2 u1 u2 u3 : ℕ) : ℕ :=
  trqLoop v1 v2 u1 u2 u3 (if u1 = v1 then 0o77777 else (u1 * 0o100000 + u2) / v1)

/-- The loop of `m_div`, from digit `j` of the quotient down; `v` has `n` digits. -/
def divLoop (v : List ℕ) (n : ℕ) : ℕ → List ℕ → List ℕ × List ℕ
  | 0, u => ([], u)
  | j + 1, u =>
    let qq := mTrq (v.getD (n - 1) 0) (v.getD (n - 2) 0) (u.getD (j + n) 0) (u.getD (j + n - 1) 0)
      (u.getD (j + n - 2) 0)
    let r := mDsb qq (v.take n) ((u.drop j).take (n + 1))
    let rest := divLoop v n j (u.take j ++ r.1 ++ u.drop (j + n + 1))
    (rest.1 ++ [if r.2 then qq - 1 else qq], rest.2)

/-- Without leading zeros. -/
def mcan (a : Mint) : Mint :=
  let j := topDigit a.val a.len.natAbs
  if j = 0 then ⟨0, []⟩ else if a.len > 0 then ⟨j, a.val⟩ else ⟨-j, a.val⟩

/-- `m_div` of positive numbers, `b` not zero. -/
def mDiv (before : ℕ) (a b : Mint) : Mint × Mint :=
  if b.len = 1 then
    let r := sDiv a (b.val.getD 0 0)
    (r.1, if r.2 = 0 then ⟨0, []⟩ else ⟨1, [r.2]⟩)
  else if a.len < b.len then (⟨0, []⟩, ⟨a.len, a.digits⟩)
  else
    let n := b.len.natAbs
    let d := 0o100000 / (b.val.getD (n - 1) 0 + 1)
    let u := mult before a ⟨1, [d]⟩
    let v := mult before b ⟨1, [d]⟩
    let r := divLoop v.val n (a.len.natAbs - n + 1) u.val
    let w := sDiv (mcan ⟨n, r.2⟩) d
    let qlen := a.len.natAbs - n + 1
    let qlen := if r.1.getD (qlen - 1) 0 = 0 then qlen - 1 else qlen
    (⟨qlen, r.1⟩, w.1)

/-- The quotient and the remainder. -/
def mdiv (before : ℕ) (a b : Mint) : Mint × Mint :=
  let x := if a.len < 0 then a.neg else a
  let y := if b.len < 0 then b.neg else b
  let r := mDiv before x y
  if (a.len < 0) ≠ (b.len < 0) then (r.1.neg, r.2.neg) else r

end Uwisc.Mp
