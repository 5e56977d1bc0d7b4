import Mathlib.Algebra.Order.Ring.Int
import Uwisc.Lib.Shell

/-!
# `diff`

How `diffreg.c` compares two files without `-b`, `-w` and `-i`: from the hashes of the lines (`prepare`) to
the changes (`output`). Arrays are functions of the index, as far as the source has them. `member` and
`class`, which the source lays over the lines, have storage of their own: an entry there covers a line that
has been read. Numbers are those of the source but for the sum of a hash, which wraps around at 32 bits.
-/

namespace Uwisc.Diff

open Function Lib

/-- A file, or what is left of it to be read. -/
abbrev Bytes := List UInt8

/-- `'\n'`. -/
def newline : UInt8 := 10

/-! ### `prepare` -/

/-- A `long`. -/
def long (x : ℤ) : ℤ := x.bmod (2 ^ 32)

/-- A `short`. -/
def short (x : ℤ) : ℤ := x.bmod (2 ^ 16)

def HALFLONG : ℕ := 16

def low (x : ℤ) : ℤ := x % 2 ^ HALFLONG

def high (x : ℤ) : ℤ := x / 2 ^ HALFLONG

/-- What `readhash` makes of the sum over the characters of a line. -/
def fold (sum : ℤ) : ℤ :=
  let sum := low sum + high sum
  short (low sum) + short (high sum)

/-- The loop of `readhash`, which ends at the end of the line, or with 0 at that of the file. -/
def readhashLoop : ℤ → ℕ → Bytes → ℤ × Bytes
  | _, _, [] => (0, [])
  | sum, shift, t :: f =>
    if t = newline then (fold sum, f)
    else
      let shift := shift % HALFLONG
      readhashLoop (long (sum + t.toNat * 2 ^ shift)) (shift + 7) f

/-- The hash of the next line. -/
def readhash (f : Bytes) : ℤ × Bytes := readhashLoop 1 0 f

structure Line where
  serial : ℕ
  value : ℤ

/-- The loop of `prepare`: lines are read until there is one with the hash 0. -/
def prepareLoop : ℕ → Bytes → ℕ → (ℕ → Line) → ℕ × (ℕ → Line)
  | 0, _, j, p => (j, p)
  | fuel + 1, f, j, p =>
    let h := readhash f
    if h.1 = 0 then (j, p) else prepareLoop fuel h.2 (j + 1) (update p (j + 1) ⟨0, h.1⟩)

/-- `len` and `file` of a file. -/
def prepare (f : Bytes) : ℕ × (ℕ → Line) := prepareLoop (f.length + 1) f 0 fun _ => ⟨0, 0⟩

/-! ### `prune` -/

variable (file0 file1 : ℕ → Line) (len0 len1 : ℕ)

/-- The loop that counts the lines of the common prefix. -/
def prefLoop : ℕ → ℕ → ℕ
  | 0, pref => pref
  | fuel + 1, pref =>
    if pref < len0 ∧ pref < len1 ∧ (file0 (pref + 1)).value = (file1 (pref + 1)).value then
      prefLoop fuel (pref + 1)
    else pref

/-- The loop that counts the lines of the common suffix. -/
def suffLoop (pref : ℕ) : ℕ → ℕ → ℕ
  | 0, suff => suff
  | fuel + 1, suff =>
    if suff < len0 - pref ∧ suff < len1 - pref ∧
        (file0 (len0 - suff)).value = (file1 (len1 - suff)).value then
      suffLoop pref fuel (suff + 1)
    else suff

def pref : ℕ := prefLoop file0 file1 len0 len1 len0 0

def suff : ℕ := suffLoop file0 file1 len0 len1 (pref file0 file1 len0 len1) len0 0

/-- The lines of a file from `pref` on, with their serial numbers. -/
def sfile (file : ℕ → Line) (pref slen : ℕ) : ℕ → Line := fun i =>
  if i ≤ slen then ⟨i, (file (pref + i)).value⟩ else file (pref + i)

/-! ### `sort`, `equiv`, `unsort` -/

/-- Two lines are to stay in this order. -/
def inOrder (ai aim : Line) : Bool :=
  decide (ai.value < aim.value ∨ aim.value = ai.value ∧ ai.serial < aim.serial)

/-- `sort`, which is Shellsort. -/
def sort (a : ℕ → Line) (n : ℕ) : ℕ → Line := shellSort inOrder n a

/-- A line with another value. -/
def setValue (a : ℕ → Line) (i : ℕ) (value : ℤ) : ℕ → Line := update a i ⟨(a i).serial, value⟩

/-- The first loops of `equiv`: the value of a line is replaced by the first of its class, or 0. -/
def equivLoop (n : ℕ) (b : ℕ → Line) (m : ℕ) : ℕ → ℕ → ℕ → (ℕ → Line) → ℕ → Line
  | 0, _, _, a => a
  | fuel + 1, i, j, a =>
    if i ≤ n then
      if j ≤ m then
        if (a i).value < (b j).value then equivLoop n b m fuel (i + 1) j (setValue a i 0)
        else if (a i).value = (b j).value then equivLoop n b m fuel (i + 1) j (setValue a i j)
        else equivLoop n b m fuel i (j + 1) a
      else equivLoop n b m fuel (i + 1) j (setValue a i 0)
    else a

/-- The inner loop that concatenates the classes: the members after the first. -/
def sameClass (b : ℕ → Line) : ℕ → ℕ → (ℕ → ℤ) → ℕ × (ℕ → ℤ)
  | 0, j, c => (j, c)
  | fuel + 1, j, c =>
    if (b (j + 1)).value = (b j).value then
      sameClass b fuel (j + 1) (update c (j + 1) (b (j + 1)).serial)
    else (j, c)

/-- The loop that concatenates the classes, the first members with a negative sign. -/
def memberLoop (b : ℕ → Line) (m : ℕ) : ℕ → ℕ → (ℕ → ℤ) → ℕ → ℤ
  | 0, _, c => c
  | fuel + 1, j, c =>
    if j + 1 ≤ m then
      let p := sameClass b m (j + 1) (update c (j + 1) (-(b (j + 1)).serial))
      memberLoop b m fuel p.1 p.2
    else update c (j + 1) (-1)

/-- `equiv`: the values of the first file, and `member`. -/
def equiv (a : ℕ → Line) (n : ℕ) (b : ℕ → Line) (m : ℕ) : (ℕ → Line) × (ℕ → ℤ) :=
  (equivLoop n b m (n + m) 1 1 a, memberLoop (setValue b (m + 1) 0) m (m + 1) 0 fun _ => 0)

/-- `unsort`: the values in the order of the file. -/
def unsort (f : ℕ → Line) (l : ℕ) : ℕ → ℤ :=
  (List.range' 1 l).foldl (fun a i => update a (f i).serial (f i).value) fun _ => 0

/-! ### `stone` -/

structure Cand where
  x : ℕ
  y : ℤ
  pred : ℕ

/-- The candidates, those in `klist`, and the length of the longest sequence. -/
structure Stone where
  clist : List Cand
  c : ℕ → ℕ
  k : ℕ

namespace Stone

def cand (s : Stone) (p : ℕ) : Cand := s.clist.getD p ⟨0, 0, 0⟩

/-- `newcand`, for the place `l` of `klist`. -/
def newcand (s : Stone) (l x : ℕ) (y : ℤ) (pred : ℕ) : Stone :=
  { s with clist := s.clist ++ [⟨x, y, pred⟩], c := update s.c l s.clist.length }

/-- The loop of `search`. -/
def searchLoop (s : Stone) (y : ℤ) : ℕ → ℕ → ℕ → ℕ
  | 0, i, _ => i + 1
  | fuel + 1, i, j =>
    let l := (i + j) / 2
    if l ≤ i then l + 1
    else
      let t := (s.cand (s.c l)).y
      if y < t then searchLoop s y fuel i l
      else if t < y then searchLoop s y fuel l j
      else l

/-- The first `k`-candidate that is not below `y`. -/
def search (s : Stone) (y : ℤ) : ℕ :=
  if (s.cand (s.c s.k)).y < y then s.k + 1 else searchLoop s y (s.k + 1) 0 (s.k + 1)

/-- The loop over the members of a class, from `j` on. -/
def classLoop (b : ℕ → ℤ) (i : ℕ) : ℕ → Stone → ℕ → ℤ → ℕ → ℕ → Stone
  | 0, s, _, _, _, _ => s
  | fuel + 1, s, j, y, oldc, oldl =>
    -- the condition at the end of the loop
    let next (s : Stone) (oldc oldl : ℕ) : Stone :=
      if 0 < b (j + 1) then classLoop b i fuel s (j + 1) (b (j + 1)) oldc oldl else s
    if y ≤ (s.cand oldc).y then next s oldc oldl
    else
      let l := s.search y
      let oldc := if l ≠ oldl + 1 then s.c (l - 1) else oldc
      if l ≤ s.k then
        if (s.cand (s.c l)).y ≤ y then next s oldc oldl
        else next (s.newcand l i y oldc) (s.c l) l
      else { s.newcand l i y oldc with k := s.k + 1 }

/-- A line of the first file. -/
def line (a b : ℕ → ℤ) (m : ℕ) (s : Stone) (i : ℕ) : Stone :=
  if a i = 0 then s else s.classLoop b i (m + 1) (a i).toNat (-b (a i).toNat) (s.c 0) 0

end Stone

/-- `stone`. -/
def stone (a : ℕ → ℤ) (n : ℕ) (b : ℕ → ℤ) (m : ℕ) : Stone :=
  (List.range' 1 n).foldl (Stone.line a b m) ⟨[⟨0, 0, 0⟩], fun _ => 0, 0⟩

/-! ### `unravel` -/

/-- The loop along the chain of candidates. -/
def unravelLoop (s : Stone) (pref : ℕ) : ℕ → ℕ → (ℕ → ℕ) → ℕ → ℕ
  | 0, _, J => J
  | fuel + 1, p, J =>
    let q := s.cand p
    if q.y ≠ 0 then unravelLoop s pref fuel q.pred (update J (q.x + pref) (q.y.toNat + pref))
    else J

/-- `unravel`: the match vector. -/
def unravel (s : Stone) (pref suff : ℕ) : ℕ → ℕ :=
  unravelLoop s pref s.clist.length (s.c s.k) fun i =>
    if i ≤ pref then i else if len0 - suff < i ∧ i ≤ len0 then i + len1 - len0 else 0

/-- The match vector of two files that were prepared. -/
def matchVector : ℕ → ℕ :=
  let pref := pref file0 file1 len0 len1
  let suff := suff file0 file1 len0 len1
  let slen0 := len0 - pref - suff
  let slen1 := len1 - pref - suff
  let p := equiv (sort (sfile file0 pref slen0) slen0) slen0 (sort (sfile file1 pref slen1) slen1) slen1
  unravel len0 len1 (stone (unsort p.1 slen0) slen0 p.2 slen1) pref suff

/-! ### `check` -/

/-- `skipline`. -/
def skipline : Bytes → ℕ × Bytes
  | [] => (1, [])
  | c :: f => if c = newline then (1, f) else ((skipline f).1 + 1, (skipline f).2)

/-- Two lines are compared, and the rest of them is skipped when they differ: whether they are the same,
    and what is read of them. At the end of both files the source would go on for ever. -/
def compare : Bytes → Bytes → Bool × (ℕ × Bytes) × (ℕ × Bytes)
  | [], [] => (true, (1, []), (1, []))
  | [], d :: g => (false, (2, []), if d = newline then (1, g) else ((skipline g).1 + 1, (skipline g).2))
  | c :: f, [] => (false, if c = newline then (1, f) else ((skipline f).1 + 1, (skipline f).2), (2, []))
  | c :: f, d :: g =>
    if c = d then
      if c = newline then (true, (1, f), (1, g))
      else
        let p := compare f g
        (p.1, (p.2.1.1 + 1, p.2.1.2), (p.2.2.1 + 1, p.2.2.2))
    else
      (false, if c = newline then (1, f) else ((skipline f).1 + 1, (skipline f).2),
        if d = newline then (1, g) else ((skipline g).1 + 1, (skipline g).2))

/-- What `check` works with: the rest of the files, the match vector, and the indexes as far as they are
    known, of which the last are `ctold` and `ctnew`. -/
structure Check where
  input₀ : Bytes
  input₁ : Bytes
  J : ℕ → ℕ
  j : ℕ
  ctold : ℕ
  ctnew : ℕ
  ixold : List ℕ
  ixnew : List ℕ

namespace Check

/-- A line of the second file is skipped. -/
def skipNew (s : Check) : Check :=
  let p := skipline s.input₁
  { s with
    input₁ := p.2
    j := s.j + 1
    ctnew := s.ctnew + p.1
    ixnew := s.ixnew ++ [s.ctnew + p.1] }

/-- Lines of the second file are skipped up to the line `last`. -/
def skipTo (last : ℕ) : ℕ → Check → Check
  | 0, s => s
  | fuel + 1, s => if s.j < last then skipTo last fuel s.skipNew else s

/-- A line of the first file. -/
def line (s : Check) (i : ℕ) : Check :=
  if s.J i = 0 then
    let p := skipline s.input₀
    { s with input₀ := p.2, ctold := s.ctold + p.1, ixold := s.ixold ++ [s.ctold + p.1] }
  else
    let s := skipTo (s.J i) (s.J i) s
    let p := compare s.input₀ s.input₁
    { input₀ := p.2.1.2
      input₁ := p.2.2.2
      J := if p.1 then s.J else update s.J i 0
      j := s.j + 1
      ctold := s.ctold + p.2.1.1
      ctnew := s.ctnew + p.2.2.1
      ixold := s.ixold ++ [s.ctold + p.2.1.1]
      ixnew := s.ixnew ++ [s.ctnew + p.2.2.1] }

end Check

/-- `check`. -/
def check (f0 f1 : Bytes) (J : ℕ → ℕ) : Check :=
  Check.skipTo (len1 + 1) (len1 + 1) ((List.range' 1 len0).foldl Check.line ⟨f0, f1, J, 1, 0, 0, [0], [0]⟩)

/-! ### `output` -/

/-- A call of `change`. -/
structure Change where
  a : ℕ
  b : ℕ
  c : ℕ
  d : ℕ
  deriving DecidableEq

/-- `while(i0<=m&&J[i0]==J[i0-1]+1) i0++;`. -/
def skipMatched (J : ℕ → ℕ) (m : ℕ) : ℕ → ℕ → ℕ
  | 0, i₀ => i₀
  | fuel + 1, i₀ => if i₀ ≤ m ∧ J i₀ = J (i₀ - 1) + 1 then skipMatched J m fuel (i₀ + 1) else i₀

/-- `while(i1<m&&J[i1+1]==0) i1++;`. -/
def skipZeros (J : ℕ → ℕ) (m : ℕ) : ℕ → ℕ → ℕ
  | 0, i₁ => i₁
  | fuel + 1, i₁ => if i₁ < m ∧ J (i₁ + 1) = 0 then skipZeros J m fuel (i₁ + 1) else i₁

/-- The loop of `output` that goes up. -/
def outputUp (m : ℕ) : ℕ → ℕ → (ℕ → ℕ) → List Change
  | 0, _, _ => []
  | fuel + 1, i₀, J =>
    if i₀ ≤ m then
      let i₀ := skipMatched J m (m + 1) i₀
      let j0 := J (i₀ - 1) + 1
      let i₁ := skipZeros J m m (i₀ - 1)
      let j1 := J (i₁ + 1) - 1
      ⟨i₀, i₁, j0, j1⟩ :: outputUp m fuel (i₁ + 1) (update J i₁ j1)
    else []

/-- `while(i0>=1&&J[i0]==J[i0+1]-1&&J[i0]!=0) i0--;`. -/
def skipMatchedDown (J : ℕ → ℕ) : ℕ → ℕ
  | 0 => 0
  | i₀ + 1 => if J (i₀ + 1) = J (i₀ + 2) - 1 ∧ J (i₀ + 1) ≠ 0 then skipMatchedDown J i₀ else i₀ + 1

/-- `while(i1>1&&J[i1-1]==0) i1--;`. -/
def skipZerosDown (J : ℕ → ℕ) : ℕ → ℕ
  | 0 => 0
  | i₁ + 1 => if 0 < i₁ ∧ J i₁ = 0 then skipZerosDown J i₁ else i₁ + 1

/-- The loop of `output` that goes down, for `-e`. -/
def outputDown : ℕ → ℕ → (ℕ → ℕ) → List Change
  | 0, _, _ => []
  | fuel + 1, i₀, J =>
    if 1 ≤ i₀ then
      let i₀ := skipMatchedDown J i₀
      let j0 := J (i₀ + 1) - 1
      let i₁ := skipZerosDown J (i₀ + 1)
      let j1 := J (i₁ - 1) + 1
      ⟨i₁, i₀, j1, j0⟩ :: outputDown fuel (i₁ - 1) (update J i₁ j1)
    else []

/-- `output`: the calls of `change`. -/
def output (edit : Bool) (J : ℕ → ℕ) : List Change :=
  let J := update (update J 0 0) (len0 + 1) (len1 + 1)
  (if edit then outputDown (len0 + 1) len0 J else outputUp len0 (len0 + 1) 1 J) ++
    if len0 = 0 then [⟨1, 0, 1, len1⟩] else []

/-! ### `diffreg` -/

/-- The size of a buffer. -/
def BUFSIZ : ℕ := 1024

/-- The size of a `struct exec`, the header of a binary file. -/
def sizeofExec : ℕ := 32

/-- `asciifile`: the file starts neither with a header that is good for `N_BADMAG` nor with characters that
    are not ASCII. -/
def asciifile (N_BADMAG : Bytes → Bool) (f : Bytes) : Bool :=
  let buf := f.take BUFSIZ
  if sizeofExec ≤ buf.length ∧ N_BADMAG buf = false then false else buf.all fun c => c &&& 0x80 == 0

/-- What is left in the variables of the program. -/
structure Result where
  J : ℕ → ℕ
  ixold : List ℕ
  ixnew : List ℕ
  changes : List Change

/-- What `diffreg` does with files that differ and are not binary. -/
def notsame (edit : Bool) (f0 f1 : Bytes) : Result :=
  let p0 := prepare f0
  let p1 := prepare f1
  let s := check p0.1 p1.1 f0 f1 (matchVector p0.2 p1.2 p0.1 p1.1)
  ⟨s.J, s.ixold, s.ixnew, output p0.1 p1.1 edit s.J⟩

/-- `diffreg`, as far as it gets to `output`. -/
def diffreg (N_BADMAG : Bytes → Bool) (edit : Bool) (f0 f1 : Bytes) : Option Result :=
  if f0 = f1 then none
  else if asciifile N_BADMAG f0 && asciifile N_BADMAG f1 then some (notsame edit f0 f1)
  else none

end Uwisc.Diff
