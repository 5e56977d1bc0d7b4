import Uwisc.Lib.Bytes
import Uwisc.Lib.Wrap

/-!
# Character lists

The clists of `sys/sys/tty_subr.c`: `getc`, `q_to_b`, `ndflush`, `putc`, `b_to_q`, `nextc`,
`unputc` and `catq`, and `cinit` of `sys/sys/init_main.c`. Characters are in cblocks of `64` bytes, at addresses that are multiples of that; the
first four bytes of one are the pointer to the next (`c_next`), and the others are the
characters (`c_info`). An address is that of a character or of a cblock, and `0` is null.

A loop is given how often it may go round; it has no result if that is not enough.
-/

namespace Uwisc.Tty

open Function Lib

/-- A character list (`struct clist`). -/
structure Clist where
  c_cc : ℤ
  c_cf : ℕ
  c_cl : ℕ

/-- The cblocks: what is in them, and the list of those that are free. -/
structure Cblocks where
  c_next : ℕ → ℕ
  c_info : Mem
  cfreelist : ℕ
  cfreecount : ℤ

/-- The cblock an address is in (`& ~CROUND`). -/
def cblock (a : ℕ) : ℕ := a - a % 64

/-- The first character of a cblock (`->c_info`). -/
def info (bp : ℕ) : ℕ := bp + 4

/-- Puts a cblock on the free list. -/
def Cblocks.release (c : Cblocks) (bp : ℕ) : Cblocks :=
  { c with
    c_next := update c.c_next bp c.cfreelist
    cfreelist := bp
    cfreecount := c.cfreecount + 60 }

/-- The cblocks there are (`cinit`): those from the first boundary in `cfree` on. -/
def cblocks (cfree nclist : ℕ) : List ℕ :=
  (List.range (nclist - 1)).map fun i => (cfree + 63) / 64 * 64 + 64 * i

/-- Puts every cblock on the free list. -/
def cinit (cfree nclist : ℕ) (c : Cblocks) : Cblocks :=
  (cblocks cfree nclist).foldl Cblocks.release c

/-- Takes the first cblock off the free list. -/
def Cblocks.acquire (c : Cblocks) : Cblocks :=
  { c with
    c_next := update c.c_next c.cfreelist 0
    cfreelist := c.c_next c.cfreelist
    cfreecount := c.cfreecount - 60 }

/-- The cblock after a full one is the first of the free list. -/
def Cblocks.link (c : Cblocks) (bp : ℕ) : Cblocks :=
  { c with c_next := update c.c_next bp c.cfreelist }

def getc (c : Cblocks) (p : Clist) : ℤ × Cblocks × Clist :=
  if p.c_cc ≤ 0 then (-1, c, ⟨0, 0, 0⟩)
  else
    let ch : ℤ := (c.c_info p.c_cf).toNat
    let c_cf := p.c_cf + 1
    let c_cc := p.c_cc - 1
    if c_cc ≤ 0 then (ch, c.release (cblock (c_cf - 1)), ⟨c_cc, 0, 0⟩)
    else if c_cf % 64 = 0 then (ch, c.release (c_cf - 64), ⟨c_cc, info (c.c_next (c_cf - 64)), p.c_cl⟩)
    else (ch, c, ⟨c_cc, c_cf, p.c_cl⟩)

/-- The loop of `q_to_b`, with the characters it copies. -/
def qToBLoop : ℕ → Cblocks → Clist → ℕ → Option (List UInt8 × Cblocks × Clist)
  | fuel, c, q, cc =>
    if cc = 0 then some ([], c, q)
    else match fuel with
      | 0 => none
      | fuel + 1 =>
        let nc := min (min (64 - q.c_cf % 64) cc) q.c_cc.toNat
        let cp := bytes c.c_info q.c_cf nc
        let c_cf := q.c_cf + nc
        let c_cc := q.c_cc - nc
        if c_cc ≤ 0 then some (cp, c.release (cblock (c_cf - 1)), ⟨c_cc, 0, 0⟩)
        else
          let r :=
            if c_cf % 64 = 0 then
              let bp := c_cf - 64
              qToBLoop fuel (c.release bp) ⟨c_cc, info (c.c_next bp), q.c_cl⟩ (cc - nc)
            else qToBLoop fuel c ⟨c_cc, c_cf, q.c_cl⟩ (cc - nc)
          r.map fun (acp, r) => (cp ++ acp, r)

/-- Copies up to `cc` characters from a clist. -/
def qToB (c : Cblocks) (q : Clist) (cc : ℤ) : Option (List UInt8 × Cblocks × Clist) :=
  if cc ≤ 0 then some ([], c, q)
  else if q.c_cc ≤ 0 then some ([], c, ⟨0, 0, 0⟩)
  else qToBLoop cc.toNat c q cc.toNat

/-- The loop of `ndflush`. -/
def ndflushLoop : ℕ → Cblocks → Clist → ℤ → Option (Cblocks × Clist)
  | fuel, c, q, cc =>
    if cc ≤ 0 ∨ q.c_cc = 0 then some (c, q)
    else match fuel with
      | 0 => none
      | fuel + 1 =>
        let bp := cblock q.c_cf
        let fin := if bp = cblock (q.c_cl - 1) then q.c_cl else bp + 64
        let rem : ℤ := fin - q.c_cf
        if rem ≤ cc then
          ndflushLoop fuel (c.release bp) ⟨q.c_cc - rem, info (c.c_next bp), q.c_cl⟩ (cc - rem)
        else
          let q := { q with c_cc := q.c_cc - cc, c_cf := q.c_cf + cc.toNat }
          some (if q.c_cc ≤ 0 then c.release bp else c, q)

/-- Flushes `cc` characters. -/
def ndflush (c : Cblocks) (q : Clist) (cc : ℤ) : Option (Cblocks × Clist) :=
  if q.c_cc ≤ 0 then some (c, q)
  else (ndflushLoop cc.toNat c q cc).map fun r =>
    if r.2.c_cc ≤ 0 then (r.1, ⟨0, 0, 0⟩) else r

/-- A character as it is stored. -/
def charOf (ch : ℤ) : UInt8 := UInt8.ofNat (ch % 256).toNat

/-- Appends a character. -/
def putc (ch : ℤ) (c : Cblocks) (p : Clist) : ℤ × Cblocks × Clist :=
  let put (c : Cblocks) (p : Clist) (cp : ℕ) : ℤ × Cblocks × Clist :=
    (0, { c with c_info := store c.c_info cp [charOf ch] },
      { p with c_cc := p.c_cc + 1, c_cl := cp + 1 })
  if p.c_cl = 0 ∨ p.c_cc < 0 then
    if c.cfreelist = 0 then (-1, c, p)
    else put c.acquire { p with c_cf := info c.cfreelist } (info c.cfreelist)
  else if p.c_cl % 64 = 0 then
    let c := c.link (p.c_cl - 64)
    if c.cfreelist = 0 then (-1, c, p) else put c.acquire p (info c.cfreelist)
  else put c p p.c_cl

/-- The loop of `b_to_q`: the characters that are left, and where the last one went. -/
def bToQLoop : ℕ → Cblocks → ℕ → List UInt8 → Option (List UInt8 × Cblocks × ℕ)
  | fuel, c, cq, cp =>
    if cp = [] then some ([], c, cq)
    else match fuel with
      | 0 => none
      | fuel + 1 =>
        let copy (c : Cblocks) (cq : ℕ) : Option (List UInt8 × Cblocks × ℕ) :=
          let nc := min cp.length (64 - cq % 64)
          bToQLoop fuel { c with c_info := store c.c_info cq (cp.take nc) } (cq + nc) (cp.drop nc)
        if cq % 64 = 0 then
          let c := c.link (cq - 64)
          if c.cfreelist = 0 then some (cp, c, cq) else copy c.acquire (info c.cfreelist)
        else copy c cq

/-- Appends characters, and returns how many are left. -/
def bToQ (cp : List UInt8) (c : Cblocks) (q : Clist) : Option (ℤ × Cblocks × Clist) :=
  let loop (c : Cblocks) (q : Clist) (cq : ℕ) : Option (ℤ × Cblocks × Clist) :=
    (bToQLoop cp.length c cq cp).map fun (left, c, cq) =>
      (left.length, c, { q with c_cc := q.c_cc + (cp.length - left.length), c_cl := cq })
  if cp = [] then some (0, c, q)
  else if q.c_cl = 0 ∨ q.c_cc < 0 then
    if c.cfreelist = 0 then some (cp.length, c, q)
    else loop c.acquire { q with c_cf := info c.cfreelist } (info c.cfreelist)
  else loop c q q.c_cl

/-- The address of the character after the one at `cp`, or null. -/
def nextc (c : Cblocks) (p : Clist) (cp : ℕ) : ℕ :=
  if p.c_cc ≠ 0 ∧ cp + 1 ≠ p.c_cl then
    if (cp + 1) % 64 = 0 then info (c.c_next (cp + 1 - 64)) else cp + 1
  else 0

/-- The loop of `unputc`: the cblock before another one. -/
def cblockBefore (c : Cblocks) (c_cl : ℕ) : ℕ → ℕ → Option ℕ
  | fuel, bp =>
    if c.c_next bp = c_cl then some bp
    else match fuel with
      | 0 => none
      | fuel + 1 => cblockBefore c c_cl fuel (c.c_next bp)

/-- Removes the last character and returns it; a `char` is signed. -/
def unputc (c : Cblocks) (p : Clist) : Option (ℤ × Cblocks × Clist) :=
  if p.c_cc ≤ 0 then some (-1, c, p)
  else
    let c_cl := p.c_cl - 1
    let ch := wrap 8 (c.c_info c_cl).toNat
    let c_cc := p.c_cc - 1
    if c_cc ≤ 0 then some (ch, c.release (cblock c_cl), ⟨c_cc, 0, 0⟩)
    else if c_cl % 64 = 4 then
      let c_cl := cblock c_cl
      (cblockBefore c c_cl c_cc.toNat (cblock p.c_cf)).map fun obp =>
        let c := c.release (c.c_next obp)
        (ch, { c with c_next := update c.c_next obp 0 }, ⟨c_cc, p.c_cf, obp + 64⟩)
    else some (ch, c, ⟨c_cc, p.c_cf, c_cl⟩)

/-- The loop of `catq`, on clists by their number. -/
def catqLoop (fromQ toQ : ℕ) : ℕ → Cblocks → (ℕ → Clist) → Option (Cblocks × (ℕ → Clist))
  | fuel, c, q =>
    if (q fromQ).c_cc ≤ 0 then some (c, q)
    else match fuel with
      | 0 => none
      | fuel + 1 => do
        let (bbuf, c, p) ← qToB c (q fromQ) 240
        let q := update q fromQ p
        let (_, c, p) ← bToQ bbuf c (q toQ)
        catqLoop fromQ toQ fuel c (update q toQ p)

/-- Puts the characters of a clist on the end of another, in at most `fuel` rounds. -/
def catq (fromQ toQ fuel : ℕ) (c : Cblocks) (q : ℕ → Clist) : Option (Cblocks × (ℕ → Clist)) :=
  if (q toQ).c_cc = 0 then
    some (c, update (update q toQ (q fromQ)) fromQ ⟨0, 0, 0⟩)
  else catqLoop fromQ toQ fuel c q

end Uwisc.Tty
