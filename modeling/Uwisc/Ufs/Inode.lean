import Uwisc.Lib.Levels
import Uwisc.Ufs.Fs

/-!
# Inodes

The blocks that an inode names, and `itrunc`, which releases those beyond a length (`ufs_inode.c`). The
addresses in an inode and in its indirect blocks make up trees: an address that is not 0 is what it
leads to, an indirect block with its address `ι`, or a data block. What a data block is (`β`) is left
open; `cut b size` is what remains of one when the fragments from `size` on are released.
-/

namespace Uwisc.Ufs

open Function Lib

/-- The direct addresses of an inode. -/
def NDADDR : ℕ := 12

/-- The indirect addresses: `SINGLE`, `DOUBLE` and `TRIPLE` are the levels 0, 1 and 2. -/
def NIADDR : ℕ := 3

def DEV_BSIZE : ℕ := 512

/-- `btodb`. -/
def btodb (bytes : ℕ) : ℕ := bytes / DEV_BSIZE

structure Inode (ι β : Type) where
  i_size : ℕ
  i_db : ℕ → Option β
  i_ib : (level : ℕ) → Option (Tree ι β (level + 1))

variable (fs : Fs)

/-- `NINDIR`: the addresses in an indirect block. -/
def nindir : ℕ := fs.fs_bsize / 4

/-- `lblkno`. -/
def lblkno (loc : ℕ) : ℕ := loc / fs.fs_bsize

/-- `blkoff`. -/
def blkoff (loc : ℕ) : ℕ := loc % fs.fs_bsize

/-- `fragroundup`. -/
def fragroundup (size : ℕ) : ℕ := (size + fs.fs_fsize - 1) / fs.fs_fsize * fs.fs_fsize

/-- `blksize`: the size of a block of a file of `i_size` bytes. -/
def blksize (i_size lbn : ℕ) : ℕ :=
  if NDADDR ≤ lbn ∨ (lbn + 1) * fs.fs_bsize ≤ i_size then fs.fs_bsize
  else fragroundup fs (blkoff fs i_size)

variable {ι β : Type}

/-! ### `bmap` -/

/-- The loop of `bmap` over the levels of indirection: the level of a block, and its number in the tree. -/
def levelOf : (j level sh bn : ℕ) → Option (ℕ × ℕ)
  | 0, _, _, _ => none
  | j + 1, level, sh, bn =>
    let sh := sh * nindir fs
    if bn < sh then some (level, bn) else levelOf j (level + 1) sh (bn - sh)

/-- `bmap` when it reads: the block of a logical block number, if there is one. -/
def Inode.bmapRead (ip : Inode ι β) (bn : ℕ) : Option β :=
  if bn < NDADDR then ip.i_db bn
  else (levelOf fs NIADDR 0 1 (bn - NDADDR)).bind fun p =>
    Tree.lookup (nindir fs) (p.1 + 1) (ip.i_ib p.1) p.2

/-! ### Blocks released -/

/-- What was freed: blocks with their sizes, and the fragments of a block from a size on; and
    `blocksreleased`. -/
structure Released (ι β : Type) where
  blocks : List ((ι ⊕ β) × ℕ)
  frags : List (β × ℕ × ℕ)
  blocksreleased : ℕ

namespace Released

def empty : Released ι β := ⟨[], [], 0⟩

/-- A block is freed. -/
def free (r : Released ι β) (x : ι ⊕ β) (size : ℕ) : Released ι β :=
  { r with blocks := r.blocks ++ [(x, size)], blocksreleased := r.blocksreleased + btodb size }

/-- The fragments of a block from `newspace` on are freed. -/
def freeFrags (r : Released ι β) (b : β) (newspace oldspace : ℕ) : Released ι β :=
  { r with frags := r.frags ++ [(b, newspace, oldspace - newspace)]
           blocksreleased := r.blocksreleased + btodb (oldspace - newspace) }

def append (r r' : Released ι β) : Released ι β :=
  ⟨r.blocks ++ r'.blocks, r.frags ++ r'.frags, r.blocksreleased + r'.blocksreleased⟩

end Released

/-! ### `indirtrunc` -/

/-- The index in an indirect block of the last block to be kept. -/
def lastIndex (level : ℕ) (lastbn : ℤ) : ℤ :=
  if 0 < lastbn then lastbn / (nindir fs ^ level : ℕ) else lastbn

/-- The entries of an indirect block from the last down to the one after `last`. -/
def entriesAbove (last : ℤ) : List ℕ := (List.range (nindir fs)).reverse.filter fun i => last < i

/-- An indirect block without the entries after `last`. -/
def keepEntries {level : ℕ} (t : Tree ι β (level + 1)) (last : ℤ) : Tree ι β (level + 1) :=
  (t.1, fun i => if (i : ℤ) ≤ last then t.2 i else none)

/-- The loop of `indirtrunc` that frees the blocks after `last`, and what `sub` releases below them. -/
def freeEntries {level : ℕ} (t : Tree ι β (level + 1)) (last : ℤ)
    (sub : Tree ι β level → Released ι β) : Released ι β :=
  (entriesAbove fs last).foldl (fun r i =>
    match t.2 i with
    | none => r
    | some s => (r.append (sub s)).free (Tree.name level s) fs.fs_bsize) .empty

/-- Releases the blocks of an indirect block up to (but not including) `lastbn`: what remains of it, and
    what was released. -/
def indirtrunc : (level : ℕ) → Tree ι β (level + 1) → ℤ → Tree ι β (level + 1) × Released ι β
  | 0, t, lastbn =>
    let last := lastIndex fs 0 lastbn
    (keepEntries t last, freeEntries fs t last fun _ => .empty)
  | level + 1, t, lastbn =>
    let last := lastIndex fs (level + 1) lastbn
    let r := freeEntries fs t last fun s => (indirtrunc level s (-1)).2
    let kept := keepEntries t last
    -- the last entry may be kept in part
    if 0 ≤ lastbn then
      match if last < nindir fs then t.2 last.toNat else none with
      | none => (kept, r)
      | some s =>
        let p := indirtrunc level s (lastbn % (nindir fs ^ (level + 1) : ℕ))
        ((kept.1, update kept.2 last.toNat (some p.1)), r.append p.2)
    else (kept, r)

/-! ### `itrunc` -/

namespace Inode

inductive Panic
  | itrunc1
  | itrunc2
  | newspace
  deriving DecidableEq

/-- `lastiblock`: the last block of an indirect tree that is kept. -/
def lastiblock (lastblock : ℤ) : ℕ → ℤ
  | 0 => lastblock - NDADDR
  | 1 => lastblock - NDADDR - nindir fs
  | _ => lastblock - NDADDR - nindir fs - nindir fs * nindir fs

/-- It is normalized to `-1`. -/
def normalized (lastblock : ℤ) (level : ℕ) : ℤ :=
  if lastiblock fs lastblock level < 0 then -1 else lastiblock fs lastblock level

/-- The two copies of the inode that `itrunc` works with, the inode `*oip` and the old one `tip`, and
    what was released. -/
structure Copies (ι β : Type) where
  oip : Inode ι β
  ip : Inode ι β
  r : Released ι β

/-- The loop over the indirect blocks: whether some of the level are kept, so that it goes to `done`. -/
def truncLevels (lastblock : ℤ) : ℕ → Copies ι β → Bool × Copies ι β
  | 0, c => (false, c)
  | level + 1, c =>
    let last := normalized fs lastblock level
    let c :=
      match c.ip.i_ib level with
      | none => c
      | some t =>
        let p := indirtrunc fs level t last
        let r := c.r.append p.2
        if last < 0 then
          { c with ip := { c.ip with i_ib := update c.ip.i_ib level none }
                   r := r.free (.inl t.1) fs.fs_bsize }
        else
          { c with oip := { c.oip with i_ib := update c.oip.i_ib level (some p.1) }, r := r }
    if 0 ≤ last then (true, c) else truncLevels lastblock level c

/-- The loop over the direct blocks. -/
def truncDirect (lastblock : ℤ) (c : Copies ι β) : Copies ι β :=
  ((List.range NDADDR).reverse.filter fun i : ℕ => lastblock < i).foldl (fun c i =>
    match c.ip.i_db i with
    | none => c
    | some b =>
      { c with ip := { c.ip with i_db := update c.ip.i_db i none }
               r := c.r.free (.inr b) (blksize fs c.ip.i_size i) }) c

/-- The change in size of the last direct block. -/
def truncLast (cut : β → ℕ → β) (lastblock length : ℕ) (c : Copies ι β) :
    Except Panic (Copies ι β) :=
  match c.ip.i_db lastblock with
  | none => .ok c
  | some b =>
    let oldspace := blksize fs c.ip.i_size lastblock
    let newspace := blksize fs length lastblock
    if newspace = 0 then .error .newspace
    else if newspace < oldspace then
      let b' := some (cut b newspace)
      .ok ⟨{ c.oip with i_db := update c.oip.i_db lastblock b' },
        { c.ip with i_db := update c.ip.i_db lastblock b' }, c.r.freeFrags b newspace oldspace⟩
    else .ok c

/-- The inode as it is written before any block is freed. -/
def shorten (ip : Inode ι β) (lastblock : ℤ) (length : ℕ) : Inode ι β where
  i_size := length
  i_db i := if i < NDADDR ∧ lastblock < i then none else ip.i_db i
  i_ib level := if lastiblock fs lastblock level < 0 then none else ip.i_ib level

/-- The addresses of two inodes are compared. -/
def paranoia [DecidableEq ι] [DecidableEq β] (c : Copies ι β) : Except Panic (Inode ι β × Released ι β) :=
  if ∃ level < NIADDR, (c.ip.i_ib level).map Prod.fst ≠ (c.oip.i_ib level).map Prod.fst then
    .error .itrunc1
  else if ∃ i < NDADDR, c.ip.i_db i ≠ c.oip.i_db i then .error .itrunc2
  else .ok (c.oip, c.r)

/-- Truncates the inode to at most `length` size: what it becomes, and what was released. -/
def itrunc [DecidableEq ι] [DecidableEq β] (cut : β → ℕ → β) (oip : Inode ι β) (length : ℕ) :
    Except Panic (Inode ι β × Released ι β) :=
  if oip.i_size ≤ length then .ok (oip, .empty)
  else
    let lastblock : ℤ := lblkno fs (length + fs.fs_bsize - 1) - 1
    match truncLevels fs lastblock NIADDR ⟨shorten fs oip lastblock length, oip, .empty⟩ with
    | (true, c) => paranoia c
    | (false, c) =>
      let c := truncDirect fs lastblock c
      if lastblock < 0 then paranoia c
      else do
        let c ← truncLast fs cut lastblock.toNat length c
        paranoia c

end Inode

end Uwisc.Ufs
