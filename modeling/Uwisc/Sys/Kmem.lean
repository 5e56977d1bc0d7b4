import Mathlib.Algebra.Order.Ring.Int
import Mathlib.Order.CompletePartialOrder
import Uwisc.Lib.Cartesian

/-!
# The kernel memory allocator

`kmem_alloc` and `kmem_free` of `sys/sys/heap_kmem.c`. The free blocks are the nodes
of a Cartesian tree, by their addresses and sizes; the headers the nodes are in, which
have pages of their own, are not modelled, and no block was freed at interrupt
level, so that `check_need_to_free` finds nothing to do.

An address or a size is the number an unsigned word of 32 bits holds.
-/

namespace Uwisc.Kmem

open Lib

/-- The tree of the free blocks (`struct freehdr`). -/
abbrev Freehdr := Cartesian ℕ

/-- The ways a call ends in `panic`. -/
inductive Panic
  | rmalloc
  | nilPointer
  | illegalPointer
  | overlap
  | alreadyFree
  deriving DecidableEq, Repr

def NBPG : ℕ := 512
def CLBYTES : ℕ := 1024
def USRPTSIZE : ℕ := 4096
def SMALLEST_BLK : ℕ := 1

/-- `ALIGN`. -/
def align : ℕ := 4

/-- `ALIGNMORE`. -/
def alignmore (addr : ℕ) : ℕ := align - addr % align

/-- `mweight`: the size, but the part of a block that starts on an odd boundary before
    the next word does not count. -/
def mweight : Freehdr → ℕ
  | .nil => 0
  | .node _ block size _ =>
    if block % align ≠ 0 ∧ size > alignmore block then size - alignmore block else size

/-- The search of `kmem_free` for the insertion point of a block, coalescing adjacent free
    blocks along the way: the tree without them, and the block with them. -/
def coalesce (ptr nbytes : ℕ) : Freehdr → Except Panic (Freehdr × ℕ × ℕ)
  | .nil => .ok (.nil, ptr, nbytes)
  | .node left block size right =>
    if ptr < block then
      if ptr + nbytes = block then coalesce ptr (nbytes + size) (left.merge right)
      else if ptr + nbytes > block then .error .overlap
      else (coalesce ptr nbytes left).map fun r => (.node r.1 block size right, r.2)
    else if ptr > block then
      if block + size = ptr then coalesce block (nbytes + size) (left.merge right)
      else if block + size > ptr then .error .alreadyFree
      else (coalesce ptr nbytes right).map fun r => (.node left block size r.1, r.2)
    else .error .alreadyFree
termination_by t => t.count
decreasing_by
  all_goals simp only [Cartesian.count, Cartesian.count_merge]; omega

/-- `kmem_free`: returns a block to the free space tree. -/
def kmemFree (usrpt ptr nbytes : ℕ) (root : Freehdr) : Except Panic Freehdr :=
  if nbytes = 0 then .ok root
  else if ptr < usrpt ∨ ptr > usrpt + USRPTSIZE * NBPG then .error .illegalPointer
  else do
    let (t, ptr, nbytes) ← coalesce ptr nbytes root
    .ok (t.insert ptr nbytes)

/-- The size of the pages `morecore` asks `getpages` for: `nbytes` rounded up. -/
def morecoreSize (nbytes : ℕ) : ℕ := (nbytes + (CLBYTES - 1)) % 2 ^ 32 / CLBYTES * CLBYTES

/-- `morecore`, if `getpages` gets the pages at `p`: adds a block of at least `nbytes` to
    the free space tree. With no pages to get, `rmalloc` panics. -/
def morecore (usrpt nbytes p : ℕ) (root : Freehdr) : Except Panic Freehdr :=
  if morecoreSize nbytes = 0 then .error .rmalloc
  else kmemFree usrpt p (morecoreSize nbytes) root

/-- Ensures that at least one block is big enough to satisfy the request. -/
def ensure (usrpt nbytes p : ℕ) (root : Freehdr) : Except Panic Freehdr :=
  if mweight root < nbytes then morecore usrpt nbytes p root else .ok root

/-- What is taken of a node: the tree in its place, the block, and its tail, to be freed. -/
structure Split where
  tree : Freehdr
  retblock : ℕ
  tail : ℕ × ℕ := (0, 0)
  deriving DecidableEq, Repr

/-- Allocates storage from the node selected. -/
def takeNode (nbytes : ℕ) (left : Freehdr) (block size : ℕ) (right : Freehdr) : Split :=
  -- the difference is unsigned: a node too small is split, not deleted
  if size = nbytes then ⟨left.merge right, block, (0, 0)⟩
  else if block % align ≠ 0 ∧ size > alignmore block then
    let nbytes := nbytes + alignmore block
    ⟨.demote block (alignmore block) left right, block + alignmore block,
      if size > nbytes then (block + nbytes, size - nbytes) else (0, 0)⟩
  else ⟨.demote (block + nbytes) (size - nbytes) left right, block, (0, 0)⟩

/-- Searches down through the tree until a suitable block is found, at each decision
    point selecting the better fitting node, and takes from it. -/
def descend (nbytes : ℕ) : Freehdr → Option Split
  | .nil => none
  | .node left block size right =>
    let toLeft := (descend nbytes left).map fun r => { r with tree := .node r.tree block size right }
    let toRight := (descend nbytes right).map fun r => { r with tree := .node left block size r.tree }
    if nbytes ≤ mweight left ∨ nbytes ≤ mweight right then
      if mweight left ≤ mweight right then
        if nbytes ≤ mweight left then toLeft else toRight
      else if nbytes ≤ mweight right then toRight
      else toLeft
    else some (takeNode nbytes left block size right)

/-- `kmem_alloc`, if `getpages` gets the pages at `p` when it is called: the tree left and
    the block, `0` if there is none. -/
def kmemAlloc (usrpt nbytes p : ℕ) (root : Freehdr) : Except Panic (Freehdr × ℕ) :=
  if nbytes < SMALLEST_BLK then .ok (root, 0)
  else do
    let root ← ensure usrpt nbytes p root
    match descend nbytes root with
    | none => .error .nilPointer
    | some r =>
      let root ← kmemFree usrpt r.tail.1 r.tail.2 r.tree
      .ok (root, r.retblock)

end Uwisc.Kmem
