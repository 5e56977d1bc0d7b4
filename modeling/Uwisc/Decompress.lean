import Uwisc.Compress

/-!
# Decompression

`decompress` of `ucb/compress/compress.c`, for what comes after the header. For every code it is
given the codes of the chain, the entry that is made and what is pushed on `de_stack`, which is put
out in the reverse order. The loops over the first 256 entries are left out of this.
-/

namespace Uwisc.Decompress

open Function Compress

/-- The table clear output code. -/
def CLEAR : ℕ := 256

/-- The largest code of this many bits. -/
def MAXCODE (n_bits : ℕ) : ℕ := 2 ^ n_bits - 1

/-- The mask of the low bits of a byte. -/
def rmask (bits : ℕ) : ℕ := [0x00, 0x01, 0x03, 0x07, 0x0f, 0x1f, 0x3f, 0x7f, 0xff].getD bits 0

/-! ### Codes -/

/-- What `getcode` keeps, and the globals for it. -/
structure Reader where
  n_bits : ℕ
  maxcode : ℕ
  clear_flg : Bool
  offset : ℕ
  size : ℤ
  buf : ℕ → UInt8
  stdin : List UInt8

/-- The bits at the offset. -/
def extract (buf : ℕ → UInt8) (r_off n_bits : ℕ) : ℕ :=
  let bp := r_off / 8
  let r_off := r_off % 8
  let code := (buf bp).toNat >>> r_off
  let bits := n_bits - (8 - r_off)
  if bits ≥ 8 then
    code ||| (buf (bp + 1)).toNat <<< (8 - r_off) |||
      ((buf (bp + 2)).toNat &&& rmask (bits - 8)) <<< (16 - r_off)
  else code ||| ((buf (bp + 1)).toNat &&& rmask bits) <<< (8 - r_off)

/-- If the next entry is too big for the code size, it gets larger. -/
def Reader.widen (p : Params) (r : Reader) (free_ent : ℕ) : Reader :=
  if free_ent > r.maxcode then
    { r with
      n_bits := r.n_bits + 1,
      maxcode := if r.n_bits + 1 = p.maxbits then p.maxmaxcode else MAXCODE (r.n_bits + 1) }
  else r

/-- The least code size, if the table was cleared. -/
def Reader.reset (r : Reader) : Reader :=
  if r.clear_flg then
    { r with n_bits := INIT_BITS, maxcode := MAXCODE INIT_BITS, clear_flg := false }
  else r

/-- The next code of the buffer. -/
def Reader.take (r : Reader) : Reader × Option ℕ :=
  ({ r with offset := r.offset + r.n_bits }, some (extract r.buf r.offset r.n_bits))

/-- A new buffer full, and its first code. There may be less than a code in it. -/
def Reader.refill (r : Reader) : Reader × Option ℕ :=
  let read := r.stdin.take r.n_bits
  let r :=
    { r with
      size := read.length, buf := fun i => read.getD i (r.buf i), stdin := r.stdin.drop r.n_bits }
  if r.size ≤ 0 then (r, none)
  else Reader.take { r with offset := 0, size := read.length * 8 - (r.n_bits - 1) }

/-- `getcode`; there is no code at the end of the file. -/
def Reader.getcode (p : Params) (r : Reader) (free_ent : ℕ) : Reader × Option ℕ :=
  if r.clear_flg ∨ r.size ≤ r.offset ∨ free_ent > r.maxcode then (r.widen p free_ent).reset.refill
  else r.take

/-! ### The tables -/

/-- What is in memory. -/
structure Mem where
  prefixof : ℕ → ℕ
  suffixof : ℕ → UInt8
  buf : ℕ → UInt8

/-- The globals and registers of `decompress`. -/
structure State where
  reader : Reader
  prefixof : ℕ → ℕ
  suffixof : ℕ → UInt8
  free_ent : ℕ
  finchar : ℕ
  oldcode : ℕ

def State.getcode (p : Params) (s : State) : State × Option ℕ :=
  ({ s with reader := (s.reader.getcode p s.free_ent).1 }, (s.reader.getcode p s.free_ent).2)

/-- What is done for `CLEAR`. -/
def State.clear (s : State) : State :=
  { s with
    prefixof := fun i => if i < 256 then 0 else s.prefixof i, free_ent := FIRST - 1,
    reader := { s.reader with clear_flg := true } }

/-- The code to expand, which may be the one after `CLEAR`. -/
def State.next (p : Params) (s : State) : State × Option ℕ :=
  if (s.getcode p).2 = some CLEAR ∧ p.block_compress then (s.getcode p).1.clear.getcode p
  else s.getcode p

/-- The codes of which the output characters are generated, in reverse order. -/
def chain (prefixof : ℕ → ℕ) : ℕ → ℕ → Option (List ℕ)
  | 0, _ => none
  | fuel + 1, code =>
    if code ≥ 256 then (chain prefixof fuel (prefixof code)).map (code :: ·) else some [code]

/-- What happened for a code. -/
structure Round where
  chain : List ℕ
  entry : Option ℕ
  pushed : List UInt8

/-- Special case for KwKwK string. -/
def State.isKwKwK (s : State) (code : ℕ) : Bool := code ≥ s.free_ent

/-- Generate the new entry. -/
def State.enter (p : Params) (s : State) : State :=
  if s.free_ent < p.maxmaxcode then
    { s with
      prefixof := update s.prefixof s.free_ent (s.oldcode % 2 ^ 16),
      suffixof := update s.suffixof s.free_ent (.ofNat s.finchar), free_ent := s.free_ent + 1 }
  else s

/-- What is done with the codes of a chain. -/
def State.expand (p : Params) (s : State) (code : ℕ) (codes : List ℕ) : State × Round :=
  let pushed := (if s.isKwKwK code then [.ofNat s.finchar] else []) ++ codes.map s.suffixof
  let s := { s with finchar := (s.suffixof (codes.getLastD 0)).toNat }
  ({ s.enter p with oldcode := code },
    ⟨codes, if s.free_ent < p.maxmaxcode then some s.free_ent else none, pushed⟩)

/-- What is done for a code. -/
def State.round (p : Params) (fuel : ℕ) (s : State) (code : ℕ) : Option (State × Round) :=
  (chain s.prefixof fuel (if s.isKwKwK code then s.oldcode else code)).map (s.expand p code)

/-- The rest of the file. -/
def State.run (p : Params) : ℕ → State → Option (State × List Round)
  | 0, _ => none
  | fuel + 1, s =>
    match s.next p with
    | (s, none) => some (s, [])
    | (s, some code) =>
      (s.round p fuel code).bind fun r => (run p fuel r.1).map fun r' => (r'.1, r.2 :: r'.2)

/-- Before the first code. Nothing is left in the buffer, of a file before. -/
def start (p : Params) (mem : Mem) (stdin : List UInt8) : State where
  reader := ⟨INIT_BITS, MAXCODE INIT_BITS, false, 0, 0, mem.buf, stdin⟩
  prefixof i := if i < 256 then 0 else mem.prefixof i
  suffixof i := if i < 256 then .ofNat i else mem.suffixof i
  free_ent := p.first
  finchar := 0
  oldcode := 0

/-- After the first code. -/
def State.first (s : State) (code : ℕ) : State := { s with finchar := code, oldcode := code }

/-- `decompress`. -/
def decompress (p : Params) (fuel : ℕ) (mem : Mem) (stdin : List UInt8) :
    Option (State × List Round) :=
  match (start p mem stdin).getcode p with
  | (s, none) => some (s, [])
  | (s, some code) => (s.first code).run p fuel

end Uwisc.Decompress
