import Mathlib.Algebra.Order.Ring.Int
import Mathlib.Data.List.FinRange

/-!
# The buffer cache

The buffers of `sys/sys/vfs_bio.c`, with their free lists and hash chains, the functions that do not
sleep, and the pages that `allocbuf` of `sys/vax/ufs_machdep.c` moves between buffers. A panic is
left out, and so is what `VN_RELE` does when it releases a vnode.

Buffers go by their number in `buf`, and vnodes by their address. A block is of `DEV_BSIZE` bytes.
-/

namespace Uwisc.Bio

open Function

def DEV_BSIZE : ℕ := 512

def CLBYTES : ℕ := 1024

def BUFHSZ : ℕ := 512

/-- Blocks are hashed in ranges of this many. -/
def RND : ℕ := 16

/-- The free lists. -/
inductive Bq
  | locked | lru | age | empty
  deriving DecidableEq

/-- A hash chain, of `bufhash` or of the head of a free list. -/
inductive Chain
  | bufhash (i : ℕ)
  | bfreelist (q : Bq)
  deriving DecidableEq

/-- A buffer (`struct buf`), its flags among the fields. -/
structure Buf where
  read : Bool
  done : Bool
  error : Bool
  busy : Bool
  wanted : Bool
  age : Bool
  async : Bool
  delwri : Bool
  cache : Bool
  inval : Bool
  locked : Bool
  nocache : Bool
  b_bcount : ℕ
  b_bufsize : ℕ
  b_blkno : ℤ
  b_vp : Option ℕ
  /-- What is in its memory. -/
  b_addr : ℕ → UInt8
  /-- The driver has it. -/
  active : Bool

/-- What a process sleeps on. -/
inductive Wchan (n : ℕ)
  | buf (bp : Fin n)
  | bfreelist
  deriving DecidableEq

/-- The cache with `n` buffers, what processes sleep on, and what is on disk. -/
structure Kernel (n : ℕ) where
  buf : Fin n → Buf
  bfreelist : Bq → List (Fin n)
  chain : Chain → List (Fin n)
  /-- `B_WANTED` of `bfreelist[0]`. -/
  wanted : Bool
  wchan : ℕ → Option (Wchan n)
  disk : ℕ → ℤ → UInt8

variable {n : ℕ}

namespace Kernel

def modify (k : Kernel n) (bp : Fin n) (f : Buf → Buf) : Kernel n :=
  { k with buf := update k.buf bp (f (k.buf bp)) }

/-- All processes that sleep on `chan` wake up. -/
def wakeup (k : Kernel n) (chan : Wchan n) : Kernel n :=
  { k with wchan := fun p => if k.wchan p = some chan then none else k.wchan p }

def sleep (k : Kernel n) (p : ℕ) (chan : Wchan n) : Kernel n :=
  { k with wchan := update k.wchan p (some chan) }

/-! ### Lists -/

def bremfree (k : Kernel n) (bp : Fin n) : Kernel n :=
  { k with bfreelist := fun q => (k.bfreelist q).erase bp }

def binsheadfree (k : Kernel n) (bp : Fin n) (q : Bq) : Kernel n :=
  { k with bfreelist := update k.bfreelist q (bp :: k.bfreelist q) }

def binstailfree (k : Kernel n) (bp : Fin n) (q : Bq) : Kernel n :=
  { k with bfreelist := update k.bfreelist q (k.bfreelist q ++ [bp]) }

def bremhash (k : Kernel n) (bp : Fin n) : Kernel n :=
  { k with chain := fun dp => (k.chain dp).erase bp }

def binshash (k : Kernel n) (bp : Fin n) (dp : Chain) : Kernel n :=
  { k with chain := update k.chain dp (bp :: k.chain dp) }

def notavail (k : Kernel n) (bp : Fin n) : Kernel n :=
  (k.bremfree bp).modify bp fun b => { b with busy := true }

/-! ### Vnodes -/

def brelvp (k : Kernel n) (bp : Fin n) : Kernel n := k.modify bp fun b => { b with b_vp := none }

def bsetvp (k : Kernel n) (bp : Fin n) (vp : ℕ) : Kernel n :=
  k.modify bp fun b => { b with b_vp := some vp }

end Kernel

/-- `BUFHASH`. -/
def BUFHASH (vp : ℕ) (blkno : ℤ) : Chain := .bufhash ((vp + blkno.tdiv RND) % BUFHSZ).toNat

def btodb (size : ℕ) : ℕ := size / DEV_BSIZE

namespace Kernel

/-- The buffer has valid data of the block. -/
def Is (k : Kernel n) (bp : Fin n) (vp : ℕ) (blkno : ℤ) : Prop :=
  (k.buf bp).b_blkno = blkno ∧ (k.buf bp).b_vp = some vp ∧ (k.buf bp).inval = false

instance (k : Kernel n) (bp : Fin n) (vp : ℕ) (blkno : ℤ) : Decidable (k.Is bp vp blkno) :=
  inferInstanceAs (Decidable (_ ∧ _))

/-- The buffer of the block, if there is one on its hash chain. -/
def find (k : Kernel n) (vp : ℕ) (blkno : ℤ) : Option (Fin n) :=
  (k.chain (BUFHASH vp blkno)).find? fun bp => k.Is bp vp blkno

def incore (k : Kernel n) (vp : ℕ) (blkno : ℤ) : Bool := (k.find vp blkno).isSome

/-- The buffer overlaps the blocks from `start` to `last`. -/
def Overlaps (k : Kernel n) (ep : Fin n) (vp : Option ℕ) (start last : ℤ) : Prop :=
  (k.buf ep).b_vp = vp ∧ (k.buf ep).inval = false ∧ (k.buf ep).b_bcount ≠ 0 ∧
    (k.buf ep).b_blkno ≤ last ∧ start < (k.buf ep).b_blkno + btodb (k.buf ep).b_bcount

instance (k : Kernel n) (ep : Fin n) (vp : Option ℕ) (start last : ℤ) :
    Decidable (k.Overlaps ep vp start last) := inferInstanceAs (Decidable (_ ∧ _))

/-! ### Releasing and writing -/

/-- The end of `brelse`: onto a free list. -/
def stick (k : Kernel n) (bp : Fin n) : Kernel n :=
  let b := k.buf bp
  let k :=
    if b.b_bufsize = 0 then k.binsheadfree bp .empty
    else if b.error ∨ b.inval then k.binsheadfree bp .age
    else if b.locked then k.binstailfree bp .locked
    else if b.age then k.binstailfree bp .age
    else k.binstailfree bp .lru
  k.modify bp fun b =>
    { b with wanted := false, busy := false, async := false, age := false, nocache := false }

def brelse (k : Kernel n) (bp : Fin n) : Kernel n :=
  let k := if (k.buf bp).wanted then k.wakeup (.buf bp) else k
  let k := if k.wanted then { k with wanted := false }.wakeup .bfreelist else k
  let k := k.modify bp fun b => { b with inval := b.inval || b.nocache }
  let k :=
    if (k.buf bp).error then
      if (k.buf bp).locked then k.modify bp fun b => { b with error := false }
      else k.brelvp bp
    else k
  k.stick bp

/-- `VOP_STRATEGY`: the driver gets it. -/
def strategy (k : Kernel n) (bp : Fin n) : Kernel n := k.modify bp fun b => { b with active := true }

/-- `bwrite`, without the wait for a write that is not asynchronous. -/
def bwrite (k : Kernel n) (bp : Fin n) : Kernel n :=
  let flag := k.buf bp
  let k := k.modify bp fun b =>
    { b with read := false, done := false, error := false, delwri := false }
  let k := k.strategy bp
  if flag.async ∧ flag.delwri then k.modify bp fun b => { b with age := true } else k

def bawrite (k : Kernel n) (bp : Fin n) : Kernel n :=
  (k.modify bp fun b => { b with async := true }).bwrite bp

def bdwrite (k : Kernel n) (bp : Fin n) : Kernel n :=
  (k.modify bp fun b => { b with delwri := true, done := true }).brelse bp

/-- The loop of `bflush`, for the buffers of the free lists that it looks at. -/
def bflushLoop (k : Kernel n) (vp : Option ℕ) : List (Fin n) → Kernel n
  | [] => k
  | bp :: bps =>
    if (k.buf bp).delwri ∧ (vp = (k.buf bp).b_vp ∨ vp = none) then
      ((k.notavail bp).bawrite bp).bflushLoop vp bps
    else k.bflushLoop vp bps

def bflush (k : Kernel n) (vp : Option ℕ) : Kernel n :=
  k.bflushLoop vp (k.bfreelist .locked ++ k.bfreelist .lru ++ k.bfreelist .age)

/-- A read, as `bread` and `breada` start it. -/
def startRead (k : Kernel n) (bp : Fin n) (async : Bool) : Kernel n :=
  (k.modify bp fun b => { b with read := true, async := b.async || async }).strategy bp

def biodone (k : Kernel n) (bp : Fin n) : Kernel n :=
  let k := k.modify bp fun b => { b with done := true }
  if (k.buf bp).async then k.brelse bp
  else (k.modify bp fun b => { b with wanted := false }).wakeup (.buf bp)

/-- The memory of a buffer and its blocks on disk, after the transfer. -/
def transfer (k : Kernel n) (bp : Fin n) : Kernel n :=
  let b := k.buf bp
  match b.b_vp with
  | none => k
  | some vp =>
    let start := b.b_blkno * DEV_BSIZE
    if b.read then
      k.modify bp fun b =>
        { b with b_addr := fun i => if i < b.b_bcount then k.disk vp (start + i) else b.b_addr i }
    else
      { k with
        disk := update k.disk vp fun a =>
          if start ≤ a ∧ a < start + b.b_bcount then b.b_addr (a - start).toNat else k.disk vp a }

/-- The driver is done with a buffer. -/
def iodone (k : Kernel n) (bp : Fin n) (error : Bool) : Kernel n :=
  let k := if error then k.modify bp fun b => { b with error := true } else k.transfer bp
  (k.modify bp fun b => { b with active := false }).biodone bp

/-! ### New buffers -/

/-- The loop of `getnewbuf`, for the buffers of the free lists that it takes from. -/
def getnewbufLoop (k : Kernel n) : List (Fin n) → Option (Fin n) × Kernel n
  | [] => (none, { k with wanted := true })
  | bp :: bps =>
    let k := k.notavail bp
    if (k.buf bp).delwri then getnewbufLoop (k.bawrite bp) bps
    else
      (some bp, (k.brelvp bp).modify bp fun b =>
        { b with
          read := false, done := false, error := false, busy := true, wanted := false, age := false
          async := false, delwri := false, cache := false, inval := false, locked := false
          nocache := false })

/-- A buffer that is available, or none: then the process sleeps. -/
def getnewbuf (k : Kernel n) : Option (Fin n) × Kernel n :=
  k.getnewbufLoop (k.bfreelist .age ++ k.bfreelist .lru)

def bfree (k : Kernel n) (bp : Fin n) : Kernel n := k.modify bp fun b => { b with b_bcount := 0 }

/-- What `getblk` does with a new buffer. -/
def assign (k : Kernel n) (bp : Fin n) (vp : ℕ) (blkno : ℤ) : Kernel n :=
  ((((k.bfree bp).bremhash bp).binshash bp (BUFHASH vp blkno)).bsetvp bp vp).modify bp fun b =>
    { b with b_blkno := blkno }

/-- What `geteblk` does with a new buffer. -/
def assignEmpty (k : Kernel n) (bp : Fin n) : Kernel n :=
  let k := k.modify bp fun b => { b with inval := true }
  ((((k.bfree bp).bremhash bp).binshash bp (.bfreelist .age)).brelvp bp)

/-! ### Pages -/

/-- Moves the memory from `i` on, `size` bytes of it, to another buffer. -/
def pagemove (k : Kernel n) (src : Fin n) (i : ℕ) (dst : Fin n) (j size : ℕ) : Kernel n :=
  k.modify dst fun b =>
    { b with
      b_addr := fun a => if j ≤ a ∧ a < j + size then (k.buf src).b_addr (a - j + i) else b.b_addr a }

/-- What `allocbuf` does to make a buffer smaller. -/
def shrink (k : Kernel n) (tp : Fin n) (sizealloc : ℕ) : Kernel n :=
  match k.bfreelist .empty with
  | [] => k
  | ep :: _ =>
    let excess := (k.buf tp).b_bufsize - sizealloc
    let k := (k.notavail ep).pagemove tp sizealloc ep 0 excess
    let k := k.modify ep fun b => { b with b_bufsize := excess, inval := true, b_bcount := 0 }
    (k.modify tp fun b => { b with b_bufsize := sizealloc }).brelse ep

/-- What `allocbuf` does with a new buffer to make another one larger. -/
def grow (k : Kernel n) (tp bp : Fin n) (sizealloc : ℕ) : Kernel n :=
  let size := (k.buf tp).b_bufsize
  let bufsize := (k.buf bp).b_bufsize
  let take := min (sizealloc - size) bufsize
  let k := k.pagemove bp (bufsize - take) tp size take
  let k := k.modify tp fun b => { b with b_bufsize := size + take }
  let k := k.modify bp fun b =>
    { b with b_bufsize := bufsize - take, b_bcount := min b.b_bcount (bufsize - take) }
  let k :=
    if bufsize - take = 0 then
      ((k.bremhash bp).binshash bp (.bfreelist .empty)).modify bp fun b => { b with inval := true }
    else k
  k.brelse bp

/-! ### The start -/

/-- Memory that is zero. -/
def zero : Kernel n where
  buf _ := ⟨false, false, false, false, false, false, false, false, false, false, false, false,
    0, 0, 0, none, fun _ => 0, false⟩
  bfreelist _ := []
  chain _ := []
  wanted := false
  wchan _ := none
  disk _ _ := 0

/-- What `binit` does with each buffer. -/
def binitLoop (bufpages : ℕ) (k : Kernel n) (i : Fin n) : Kernel n :=
  let bufsize :=
    if (i : ℕ) < bufpages % n then (bufpages / n + 1) * CLBYTES else bufpages / n * CLBYTES
  let k := k.modify i fun b => { b with b_bcount := 0, b_bufsize := bufsize }
  ((k.binshash i (.bfreelist .age)).modify i fun b => { b with busy := true, inval := true }).brelse i

def binit (n bufpages : ℕ) : Kernel n := (List.finRange n).foldl (binitLoop bufpages) zero

end Kernel

end Uwisc.Bio
