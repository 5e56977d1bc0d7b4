import Uwisc.Lib.Bytes

/-!
# The storage allocator

`malloc`, `free` and `realloc` of `lib/libc/gen/malloc.c`, and the `sbrk` that they get memory from,
which may fail at any time. Numbers are those that an unsigned word of 32 bits holds, and `NULL` is 0.
-/

namespace Uwisc.Malloc

open Function Lib

/-- What `getpagesize` returns. -/
def getpagesize : ℕ := 1024

/-- The size of `union overhead`. -/
def OVERHEAD : ℕ := 4

def MAGIC : UInt8 := 0xef

def NBUCKETS : ℕ := 30

/-- The numbers of an unsigned word. -/
def WORD : ℕ := 2 ^ 32

/-- The process: the variables of the allocator, its memory and break. -/
structure State where
  nextf : ℕ → ℕ
  pagesz : ℕ
  pagebucket : ℕ
  mem : Mem
  curbrk : ℕ
  /-- Which of the calls of `sbrk` to come succeed. -/
  granted : ℕ → Bool

namespace State

/-- `sbrk`: there is no memory for a process from `2 ^ 31` on. -/
def sbrk (s : State) (incr : ℕ) : Option ℕ × State :=
  let brk := (s.curbrk + incr) % WORD
  let granted := fun i => s.granted (i + 1)
  if s.granted 0 ∧ brk ≤ 2 ^ 31 then (some s.curbrk, { s with curbrk := brk, granted := granted })
  else (none, { s with granted := granted })

/-! ### Buckets -/

/-- The loop of `malloc` that computes `pagebucket`. -/
def pageLoop (pagesz : ℕ) : ℕ → ℕ → ℕ → ℕ
  | 0, _, bucket => bucket
  | fuel + 1, amt, bucket =>
    if pagesz > amt then pageLoop pagesz fuel (amt * 2) (bucket + 1) else bucket

/-- Aligns the break, so that the bytes of the first block begin on a page: false if that fails. -/
def align (s : State) : Bool × State :=
  let r := s.sbrk 0
  let op := r.1.getD (WORD - 1)
  -- unsigned, so that the test for a negative number that follows is never true
  let n := (s.pagesz + WORD - OVERHEAD - op % s.pagesz) % WORD
  if n = 0 then (true, r.2) else ((r.2.sbrk n).1.isSome, (r.2.sbrk n).2)

/-- What `malloc` does when it is called for the first time: false if it returns then. -/
def setup (s : State) : Bool × State :=
  let r := { s with pagesz := getpagesize }.align
  if r.1 then (true, { r.2 with pagebucket := pageLoop getpagesize 32 8 0 }) else (false, r.2)

/-- The loop of `malloc` that finds the bucket: `amt` is zero after it has been doubled often
    enough. -/
def bucketLoop (nbytes n : ℕ) : ℕ → ℕ → ℕ → Option ℕ
  | 0, _, _ => none
  | fuel + 1, amt, bucket =>
    if nbytes > (amt + n) % WORD then
      let amt := amt * 2 % WORD
      if amt = 0 then none else bucketLoop nbytes n fuel amt (bucket + 1)
    else some bucket

/-- The bucket for a request, if there is one. -/
def bucketOf (s : State) (nbytes : ℕ) : Option ℕ :=
  let n := s.pagesz - OVERHEAD
  if nbytes ≤ n then bucketLoop nbytes (WORD - OVERHEAD) 32 8 0
  else bucketLoop nbytes n 32 s.pagesz s.pagebucket

/-! ### Blocks -/

/-- The loop of `morecore`: each block is followed by the next one, as many times. -/
def carve (sz : ℕ) : ℕ → Mem → ℕ → Mem
  | 0, m, _ => m
  | nblks + 1, m, op => carve sz nblks (storeNum 4 m op (op + sz)) (op + sz)

def morecore (s : State) (bucket : ℕ) : State :=
  let sz := 2 ^ (bucket + 3) % WORD
  if sz = 0 ∨ 2 ^ 31 ≤ sz then s
  else
    let amt := if sz < s.pagesz then s.pagesz else sz + s.pagesz
    let nblks := if sz < s.pagesz then amt / sz else 1
    match s.sbrk amt with
    | (none, s) => s
    | (some op, s) =>
      { s with nextf := update s.nextf bucket op, mem := carve sz (nblks - 1) s.mem op }

/-- The end of `malloc`: the first block of the bucket is taken off its list. -/
def take (s : State) (bucket : ℕ) : State :=
  let op := s.nextf bucket
  { s with
    nextf := update s.nextf bucket (load 4 s.mem op)
    mem := update (update s.mem op MAGIC) (op + 1) (UInt8.ofNat bucket) }

/-- `malloc`, after the first time. -/
def allocate (s : State) (nbytes : ℕ) : ℕ × State :=
  match s.bucketOf nbytes with
  | none => (0, s)
  | some bucket =>
    let s := if s.nextf bucket = 0 then s.morecore bucket else s
    if s.nextf bucket = 0 then (0, s) else (s.nextf bucket + OVERHEAD, s.take bucket)

def malloc (s : State) (nbytes : ℕ) : ℕ × State :=
  let r := if s.pagesz = 0 then s.setup else (true, s)
  if r.1 then r.2.allocate nbytes else (0, r.2)

def free (s : State) (cp : ℕ) : State :=
  if cp = 0 then s
  else
    let op := cp - OVERHEAD
    if s.mem op ≠ MAGIC then s
    else
      let size := (s.mem (op + 1)).toNat
      { s with
        mem := storeNum 4 s.mem op (s.nextf size), nextf := update s.nextf size op }

/-- The inner loop of `findbucket`. -/
def onList (s : State) (freep : ℕ) : ℕ → ℕ → Bool
  | 0, _ => false
  | srchlen + 1, p => p != 0 && (p == freep || s.onList freep srchlen (load 4 s.mem p))

def findbucket (s : State) (freep srchlen : ℕ) : Option ℕ :=
  (List.range NBUCKETS).find? fun i => s.onList freep srchlen (s.nextf i)

/-- The bytes of a block of `1 << i`, as `realloc` computes them. -/
def usable (s : State) (i : ℕ) : ℕ :=
  let onb := 2 ^ (i % WORD) % WORD
  if onb < s.pagesz then (onb + WORD - OVERHEAD) % WORD else (onb + (s.pagesz - OVERHEAD)) % WORD

/-- `realloc` returns the block that it is given. -/
def Fits (s : State) (cp nbytes : ℕ) : Prop :=
  let op := cp - OVERHEAD
  let i := (s.mem (op + 1)).toNat
  s.mem op = MAGIC ∧ nbytes ≤ s.usable (i + 3) ∧ (if i = 0 then 0 else s.usable (i + 2)) < nbytes

instance (s : State) (cp nbytes : ℕ) : Decidable (s.Fits cp nbytes) :=
  inferInstanceAs (Decidable (_ ∧ _))

/-- `realloc`. The index that `findbucket` returns is kept in an unsigned word, so that the test
    if there is none is never true. -/
def realloc (s : State) (cp nbytes : ℕ) : ℕ × State :=
  if cp = 0 then s.malloc nbytes
  else
    let op := cp - OVERHEAD
    let i :=
      if s.mem op = MAGIC then (s.mem (op + 1)).toNat else (s.findbucket op 1).getD (WORD - 1)
    let onb := s.usable (i + 3)
    if s.Fits cp nbytes then (cp, s)
    else
      let s := if s.mem op = MAGIC then s.free cp else s
      let r := s.malloc nbytes
      if r.1 = 0 ∨ cp = r.1 then r
      else (r.1, { r.2 with mem := bcopy r.2.mem cp r.1 (if nbytes < onb then nbytes else onb) })

end State

end Uwisc.Malloc
