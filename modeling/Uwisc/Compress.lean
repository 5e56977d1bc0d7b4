import Uwisc.Lib.Probe

/-!
# Compression

The hash table of `ucb/compress/compress.c`, for codes of at most `BITS` bits, as many as there is
memory for. A file is its bytes. What is written to the output is left out but for its length, which
`cl_block` looks at, and so is what is printed. A `long` has no limits here.

`compress` gives the indexes of `htab` and `codetab` that are read or written, in their order.
-/

namespace Uwisc.Compress

open Function Lib

/-- The number of bits per code at the start. -/
def INIT_BITS : ℕ := 9

/-- The ratio check interval. -/
def CHECK_GAP : ℕ := 10000

/-- The first free entry. -/
def FIRST : ℕ := 257

/-- The size of the tables. -/
def HSIZE (BITS : ℕ) : ℕ :=
  if BITS = 16 then 69001 else if BITS = 15 then 35023 else if BITS = 14 then 18013
  else if BITS = 13 then 9001 else 5003

/-- The table size for a file of this size; for the standard input, there is none. -/
def hsizeFor (BITS : ℕ) : Option ℕ → ℕ
  | none => HSIZE BITS
  | some fsize =>
    if fsize < 2 ^ 12 then min 5003 (HSIZE BITS)
    else if fsize < 2 ^ 13 then min 9001 (HSIZE BITS)
    else if fsize < 2 ^ 14 then min 18013 (HSIZE BITS)
    else if fsize < 2 ^ 15 then min 35023 (HSIZE BITS)
    else if fsize < 47000 then min 50021 (HSIZE BITS)
    else HSIZE BITS

/-- How often `fcode` is doubled until it is as large as two bytes. -/
def doublings : ℕ → ℕ → ℕ
  | 0, _ => 0
  | n + 1, fcode => if fcode < 65536 then doublings n (fcode * 2) + 1 else 0

/-- The hash code range bound. -/
def hshift (hsize : ℕ) : ℕ := 8 - doublings 16 hsize

/-- What `main` has set. -/
structure Params where
  maxbits : ℕ
  hsize : ℕ
  block_compress : Bool

def Params.maxmaxcode (p : Params) : ℕ := 2 ^ p.maxbits

def Params.first (p : Params) : ℕ := if p.block_compress then FIRST else 256

/-! ### The output -/

/-- What `output` counts. -/
structure Out where
  offset : ℕ
  n_bits : ℕ
  maxcode : ℕ
  bytes_out : ℕ
  clear_flg : Bool

/-- The bits of a code are put into the buffer, which is written when it is full. -/
def Out.put (o : Out) : Out :=
  if o.offset + o.n_bits = o.n_bits * 8 then
    { o with offset := 0, bytes_out := o.bytes_out + o.n_bits }
  else { o with offset := o.offset + o.n_bits }

/-- `output` of a code. -/
def Out.output (p : Params) (o : Out) (free_ent : ℕ) : Out :=
  let o := o.put
  if o.maxcode < free_ent ∨ o.clear_flg then
    let bytes_out := if o.offset > 0 then o.bytes_out + o.n_bits else o.bytes_out
    if o.clear_flg then ⟨0, INIT_BITS, 2 ^ INIT_BITS - 1, bytes_out, false⟩
    else ⟨0, o.n_bits + 1, if o.n_bits + 1 = p.maxbits then p.maxmaxcode else 2 ^ (o.n_bits + 1) - 1,
      bytes_out, o.clear_flg⟩
  else o

/-! ### The table -/

/-- The loops of `cl_hash`, sixteen stores at a time and then one: the indexes that are stored to,
    below `p`, where `i` is what is left. -/
def clHashLoop : ℕ → ℤ → List ℤ
  | n + 16, p => ((List.range' 1 16).reverse.map fun k : ℕ => p - k) ++ clHashLoop n (p - 16)
  | n, p => (List.range' 1 n).map fun k : ℕ => p - k

/-- `cl_hash`. -/
def clHash (hsize : ℕ) : List ℤ := clHashLoop hsize hsize

/-- `-1` is stored at these indexes. -/
def clear (htab : ℤ → ℤ) (is : List ℤ) : ℤ → ℤ := fun i => if i ∈ is then -1 else htab i

/-- The probe loop. -/
def probe (htab : ℤ → ℤ) (hsize disp fcode : ℤ) : ℕ → ℤ → Option (List ℤ × ℤ)
  | 0, _ => none
  | fuel + 1, i =>
    let i := back hsize disp i
    if htab i = fcode then some ([i], i)
    else if htab i > 0 then (probe htab hsize disp fcode fuel i).map fun r => (i :: r.1, r.2)
    else some ([i], i)

/-- The secondary hash. -/
def disp (hsize i : ℤ) : ℤ := if i = 0 then 1 else hsize - i

/-- Where `fcode` is, or where it is to be stored. -/
def lookup (fuel : ℕ) (htab : ℤ → ℤ) (hsize fcode i : ℤ) : Option (List ℤ × ℤ) :=
  if htab i = fcode then some ([i], i)
  else if htab i < 0 then some ([i], i)
  else (probe htab hsize (disp hsize i) fcode fuel i).map fun r => (i :: r.1, r.2)

/-- The globals and registers of `compress`. -/
structure State where
  htab : ℤ → ℤ
  codetab : ℤ → ℕ
  ent : ℕ
  free_ent : ℕ
  in_count : ℕ
  checkpoint : ℕ
  ratio : ℕ
  out : Out

/-- The pair of a prefix code and a character. -/
def Params.fcode (p : Params) (c ent : ℕ) : ℤ := (c <<< p.maxbits + ent : ℕ)

/-- The primary hash. -/
def Params.hash (p : Params) (c ent : ℕ) : ℕ := c <<< hshift p.hsize ^^^ ent

/-- The compression ratio, with eight fractional bits. -/
def State.rat (s : State) : ℕ :=
  if s.in_count > 0x007fffff then
    if s.out.bytes_out / 2 ^ 8 = 0 then 0x7fffffff else s.in_count / (s.out.bytes_out / 2 ^ 8)
  else s.in_count * 2 ^ 8 / s.out.bytes_out

/-- `cl_block`; with the indexes that it stores to. -/
def State.clBlock (p : Params) (s : State) : State × List ℤ :=
  let checkpoint := s.in_count + CHECK_GAP
  if s.rat > s.ratio then ({ s with checkpoint := checkpoint, ratio := s.rat }, [])
  else
    ({ s with
      checkpoint := checkpoint, ratio := 0, htab := clear s.htab (clHash p.hsize),
      free_ent := FIRST, out := Out.output p { s.out with clear_flg := true } FIRST },
      clHash p.hsize)

/-- From `nomatch` on, where `i` is the slot for the pair; with the indexes of `cl_block`. -/
def State.noMatch (p : Params) (s : State) (c : ℕ) (fcode i : ℤ) : State × List ℤ :=
  let s := { s with out := s.out.output p s.free_ent, ent := c }
  if s.free_ent < p.maxmaxcode then
    ({ s with
      codetab := update s.codetab i s.free_ent, free_ent := s.free_ent + 1,
      htab := update s.htab i fcode }, [])
  else if s.in_count ≥ s.checkpoint ∧ p.block_compress then s.clBlock p
  else (s, [])

/-- What is done for a character, with the indexes. -/
def State.step (p : Params) (fuel : ℕ) (s : State) (c : ℕ) : Option (State × List ℤ) :=
  let s := { s with in_count := s.in_count + 1 }
  let fcode := p.fcode c s.ent
  (lookup fuel s.htab p.hsize fcode (p.hash c s.ent)).map fun r =>
    if s.htab r.2 = fcode then ({ s with ent := s.codetab r.2 }, r.1)
    else ((s.noMatch p c fcode r.2).1, r.1 ++ (s.noMatch p c fcode r.2).2)

/-- All characters of the file after the first. -/
def State.run (p : Params) (fuel : ℕ) : State → List UInt8 → Option (State × List ℤ)
  | s, [] => some (s, [])
  | s, c :: cs =>
    (s.step p fuel c.toNat).bind fun r => (run p fuel r.1 cs).map fun r' => (r'.1, r.2 ++ r'.2)

/-- What is in memory before. -/
structure Mem where
  htab : ℤ → ℤ
  codetab : ℤ → ℕ

/-- Before the second character. -/
def start (p : Params) (mem : Mem) (c : ℕ) : State where
  htab := clear mem.htab (clHash p.hsize)
  codetab := mem.codetab
  ent := c
  free_ent := p.first
  in_count := 1
  checkpoint := CHECK_GAP
  ratio := 0
  out := ⟨0, INIT_BITS, 2 ^ INIT_BITS - 1, 3, false⟩

/-- The indexes; of an empty file no character is looked up. -/
def compress (p : Params) (fuel : ℕ) (mem : Mem) : List UInt8 → Option (List ℤ)
  | [] => some (clHash p.hsize)
  | c :: cs => ((start p mem c.toNat).run p fuel cs).map fun r => clHash p.hsize ++ r.2

end Uwisc.Compress
