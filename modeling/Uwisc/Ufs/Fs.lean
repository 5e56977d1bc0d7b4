import Mathlib.Data.Int.Notation
import Mathlib.Data.Nat.Notation
import Mathlib.Logic.Function.Basic

/-!
# The file system

The data of the file system of `sys/ufs` that its allocation of blocks and
fragments works on (`fs.h`): the super block, the cylinder groups with their maps of free
fragments, and the summaries of the free space kept of them; and the operations on
maps (`param.h`, `ufs_subr.c`) with the tables of the patterns in them
(`ufs_tables.c`).

The macros that divide by shifts and masks are the divisions their comments say
they calculate. The counts are integers, the numbers of blocks naturals.
-/

namespace Uwisc.Ufs

open Function

def NBBY : ℕ := 8
def NRPOS : ℕ := 8

/-- `MAXBPC`, `SBSIZE - sizeof (struct fs)`. -/
def MAXBPC : ℕ := 8192 - 1380

def CG_MAGIC : ℕ := 0x090255

/-- `howmany`. -/
def howmany (x y : ℕ) : ℕ := (x + (y - 1)) / y

/-- What the super block says of the layout, which does not change (`struct fs`). A block has
    1, 2, 4 or 8 fragments, and a group consists of blocks. -/
structure Fs where
  fs_size : ℕ
  fs_ncg : ℕ
  fs_bsize : ℕ
  fs_fsize : ℕ
  fs_frag : ℕ
  fs_nspf : ℕ
  fs_nsect : ℕ
  fs_spc : ℕ
  fs_fpg : ℕ
  fs_cpc : ℕ
  fs_postbl : ℕ → ℕ → ℤ
  fs_rotbl : ℕ → ℕ
  frag_mem : fs_frag ∈ [1, 2, 4, 8]
  fsize_pos : 0 < fs_fsize
  bsize_eq : fs_bsize = fs_frag * fs_fsize
  fpg_pos : 0 < fs_fpg
  frag_dvd : fs_frag ∣ fs_fpg
  size_le : fs_size ≤ fs_ncg * fs_fpg

theorem eight_frags : 8 ∈ [1, 2, 4, 8] := by decide

theorem kilo_pos : 0 < 1024 := by decide

theorem eight_kilo : 8192 = 8 * 1024 := rfl

/-! ### Macros -/

variable (fs : Fs)

/-- `dtog`: the cylinder group of a file system block. -/
def dtog (d : ℕ) : ℕ := d / fs.fs_fpg

/-- `dtogd`: its number in the group. -/
def dtogd (d : ℕ) : ℕ := d % fs.fs_fpg

/-- `fragoff`. -/
def fragoff (loc : ℕ) : ℕ := loc % fs.fs_fsize

/-- `numfrags`. -/
def numfrags (loc : ℕ) : ℕ := loc / fs.fs_fsize

/-- `fragstoblks`. -/
def fragstoblks (frags : ℕ) : ℕ := frags / fs.fs_frag

/-- `blkstofrags`. -/
def blkstofrags (blks : ℕ) : ℕ := blks * fs.fs_frag

/-- `fragnum`. -/
def fragnum (fsb : ℕ) : ℕ := fsb % fs.fs_frag

/-- `blknum`. -/
def blknum (fsb : ℕ) : ℕ := fsb / fs.fs_frag * fs.fs_frag

/-- `NSPB`. -/
def nspb : ℕ := fs.fs_nspf * fs.fs_frag

/-- `cbtocylno`: the cylinder of a block of the group. -/
def cbtocylno (bno : ℕ) : ℕ := bno * fs.fs_nspf / fs.fs_spc

/-- `cbtorpos`: its rotational position. -/
def cbtorpos (bno : ℕ) : ℕ := bno * fs.fs_nspf % fs.fs_nsect * NRPOS / fs.fs_nsect

/-! ### Maps of free fragments -/

/-- A map of free fragments (`u_char cg_free[]`). -/
abbrev FreeMap := ℕ → BitVec 8

/-- `setbit`. -/
def setbit (a : FreeMap) (i : ℕ) : FreeMap :=
  update a (i / NBBY) (a (i / NBBY) ||| 1#8 <<< (i % NBBY))

/-- `clrbit`. -/
def clrbit (a : FreeMap) (i : ℕ) : FreeMap :=
  update a (i / NBBY) (a (i / NBBY) &&& ~~~(1#8 <<< (i % NBBY)))

/-- `isset`. -/
def isset (a : FreeMap) (i : ℕ) : Bool := a (i / NBBY) &&& 1#8 <<< (i % NBBY) ≠ 0

/-- `isclr`. -/
def isclr (a : FreeMap) (i : ℕ) : Bool := a (i / NBBY) &&& 1#8 <<< (i % NBBY) = 0

/-- `blkmap`: the bits of a block. -/
def blkmap (map : FreeMap) (loc : ℕ) : ℕ :=
  (map (loc / NBBY) >>> (loc % NBBY) &&& 0xff#8 >>> (NBBY - fs.fs_frag)).toNat

/-- Checks if a block is available. -/
def isblock (cp : FreeMap) (h : ℕ) : Bool :=
  match fs.fs_frag with
  | 8 => cp h = 0xff
  | 4 =>
    let mask := 0x0f#8 <<< ((h % 2) * 4)
    cp (h / 2) &&& mask = mask
  | 2 =>
    let mask := 0x03#8 <<< ((h % 4) * 2)
    cp (h / 4) &&& mask = mask
  | 1 =>
    let mask := 0x01#8 <<< (h % 8)
    cp (h / 8) &&& mask = mask
  | _ => false

/-- Takes a block out of the map. -/
def clrblock (cp : FreeMap) (h : ℕ) : FreeMap :=
  match fs.fs_frag with
  | 8 => update cp h 0
  | 4 => update cp (h / 2) (cp (h / 2) &&& ~~~(0x0f#8 <<< ((h % 2) * 4)))
  | 2 => update cp (h / 4) (cp (h / 4) &&& ~~~(0x03#8 <<< ((h % 4) * 2)))
  | 1 => update cp (h / 8) (cp (h / 8) &&& ~~~(0x01#8 <<< (h % 8)))
  | _ => cp

/-- Puts a block into the map. -/
def setblock (cp : FreeMap) (h : ℕ) : FreeMap :=
  match fs.fs_frag with
  | 8 => update cp h 0xff
  | 4 => update cp (h / 2) (cp (h / 2) ||| 0x0f#8 <<< ((h % 2) * 4))
  | 2 => update cp (h / 4) (cp (h / 4) ||| 0x03#8 <<< ((h % 4) * 2))
  | 1 => update cp (h / 8) (cp (h / 8) ||| 0x01#8 <<< (h % 8))
  | _ => cp

/-! ### Tables -/

/-- Bit patterns for identifying fragments in the block map, used as
    `(map & around) == inside`. -/
def around : List ℕ := [0x3, 0x7, 0xf, 0x1f, 0x3f, 0x7f, 0xff, 0x1ff, 0x3ff]

def inside : List ℕ := [0x0, 0x2, 0x6, 0xe, 0x1e, 0x3e, 0x7e, 0xfe, 0x1fe]

/-- Which sizes of fragments there are in a byte of the map, with 1, 2 or 4 fragments
    in a block. -/
def fragtbl124 : List ℕ := [
  0x00, 0x16, 0x16, 0x2a, 0x16, 0x16, 0x26, 0x4e,
  0x16, 0x16, 0x16, 0x3e, 0x2a, 0x3e, 0x4e, 0x8a,
  0x16, 0x16, 0x16, 0x3e, 0x16, 0x16, 0x36, 0x5e,
  0x16, 0x16, 0x16, 0x3e, 0x3e, 0x3e, 0x5e, 0x9e,
  0x16, 0x16, 0x16, 0x3e, 0x16, 0x16, 0x36, 0x5e,
  0x16, 0x16, 0x16, 0x3e, 0x3e, 0x3e, 0x5e, 0x9e,
  0x2a, 0x3e, 0x3e, 0x2a, 0x3e, 0x3e, 0x2e, 0x6e,
  0x3e, 0x3e, 0x3e, 0x3e, 0x2a, 0x3e, 0x6e, 0xaa,
  0x16, 0x16, 0x16, 0x3e, 0x16, 0x16, 0x36, 0x5e,
  0x16, 0x16, 0x16, 0x3e, 0x3e, 0x3e, 0x5e, 0x9e,
  0x16, 0x16, 0x16, 0x3e, 0x16, 0x16, 0x36, 0x5e,
  0x16, 0x16, 0x16, 0x3e, 0x3e, 0x3e, 0x5e, 0x9e,
  0x26, 0x36, 0x36, 0x2e, 0x36, 0x36, 0x26, 0x6e,
  0x36, 0x36, 0x36, 0x3e, 0x2e, 0x3e, 0x6e, 0xae,
  0x4e, 0x5e, 0x5e, 0x6e, 0x5e, 0x5e, 0x6e, 0x4e,
  0x5e, 0x5e, 0x5e, 0x7e, 0x6e, 0x7e, 0x4e, 0xce,
  0x16, 0x16, 0x16, 0x3e, 0x16, 0x16, 0x36, 0x5e,
  0x16, 0x16, 0x16, 0x3e, 0x3e, 0x3e, 0x5e, 0x9e,
  0x16, 0x16, 0x16, 0x3e, 0x16, 0x16, 0x36, 0x5e,
  0x16, 0x16, 0x16, 0x3e, 0x3e, 0x3e, 0x5e, 0x9e,
  0x16, 0x16, 0x16, 0x3e, 0x16, 0x16, 0x36, 0x5e,
  0x16, 0x16, 0x16, 0x3e, 0x3e, 0x3e, 0x5e, 0x9e,
  0x3e, 0x3e, 0x3e, 0x3e, 0x3e, 0x3e, 0x3e, 0x7e,
  0x3e, 0x3e, 0x3e, 0x3e, 0x3e, 0x3e, 0x7e, 0xbe,
  0x2a, 0x3e, 0x3e, 0x2a, 0x3e, 0x3e, 0x2e, 0x6e,
  0x3e, 0x3e, 0x3e, 0x3e, 0x2a, 0x3e, 0x6e, 0xaa,
  0x3e, 0x3e, 0x3e, 0x3e, 0x3e, 0x3e, 0x3e, 0x7e,
  0x3e, 0x3e, 0x3e, 0x3e, 0x3e, 0x3e, 0x7e, 0xbe,
  0x4e, 0x5e, 0x5e, 0x6e, 0x5e, 0x5e, 0x6e, 0x4e,
  0x5e, 0x5e, 0x5e, 0x7e, 0x6e, 0x7e, 0x4e, 0xce,
  0x8a, 0x9e, 0x9e, 0xaa, 0x9e, 0x9e, 0xae, 0xce,
  0x9e, 0x9e, 0x9e, 0xbe, 0xaa, 0xbe, 0xce, 0x8a]

/-- The same with 8 fragments in a block. -/
def fragtbl8 : List ℕ := [
  0x00, 0x01, 0x01, 0x02, 0x01, 0x01, 0x02, 0x04,
  0x01, 0x01, 0x01, 0x03, 0x02, 0x03, 0x04, 0x08,
  0x01, 0x01, 0x01, 0x03, 0x01, 0x01, 0x03, 0x05,
  0x02, 0x03, 0x03, 0x02, 0x04, 0x05, 0x08, 0x10,
  0x01, 0x01, 0x01, 0x03, 0x01, 0x01, 0x03, 0x05,
  0x01, 0x01, 0x01, 0x03, 0x03, 0x03, 0x05, 0x09,
  0x02, 0x03, 0x03, 0x02, 0x03, 0x03, 0x02, 0x06,
  0x04, 0x05, 0x05, 0x06, 0x08, 0x09, 0x10, 0x20,
  0x01, 0x01, 0x01, 0x03, 0x01, 0x01, 0x03, 0x05,
  0x01, 0x01, 0x01, 0x03, 0x03, 0x03, 0x05, 0x09,
  0x01, 0x01, 0x01, 0x03, 0x01, 0x01, 0x03, 0x05,
  0x03, 0x03, 0x03, 0x03, 0x05, 0x05, 0x09, 0x11,
  0x02, 0x03, 0x03, 0x02, 0x03, 0x03, 0x02, 0x06,
  0x03, 0x03, 0x03, 0x03, 0x02, 0x03, 0x06, 0x0a,
  0x04, 0x05, 0x05, 0x06, 0x05, 0x05, 0x06, 0x04,
  0x08, 0x09, 0x09, 0x0a, 0x10, 0x11, 0x20, 0x40,
  0x01, 0x01, 0x01, 0x03, 0x01, 0x01, 0x03, 0x05,
  0x01, 0x01, 0x01, 0x03, 0x03, 0x03, 0x05, 0x09,
  0x01, 0x01, 0x01, 0x03, 0x01, 0x01, 0x03, 0x05,
  0x03, 0x03, 0x03, 0x03, 0x05, 0x05, 0x09, 0x11,
  0x01, 0x01, 0x01, 0x03, 0x01, 0x01, 0x03, 0x05,
  0x01, 0x01, 0x01, 0x03, 0x03, 0x03, 0x05, 0x09,
  0x03, 0x03, 0x03, 0x03, 0x03, 0x03, 0x03, 0x07,
  0x05, 0x05, 0x05, 0x07, 0x09, 0x09, 0x11, 0x21,
  0x02, 0x03, 0x03, 0x02, 0x03, 0x03, 0x02, 0x06,
  0x03, 0x03, 0x03, 0x03, 0x02, 0x03, 0x06, 0x0a,
  0x03, 0x03, 0x03, 0x03, 0x03, 0x03, 0x03, 0x07,
  0x02, 0x03, 0x03, 0x02, 0x06, 0x07, 0x0a, 0x12,
  0x04, 0x05, 0x05, 0x06, 0x05, 0x05, 0x06, 0x04,
  0x05, 0x05, 0x05, 0x07, 0x06, 0x07, 0x04, 0x0c,
  0x08, 0x09, 0x09, 0x0a, 0x09, 0x09, 0x0a, 0x0c,
  0x10, 0x11, 0x11, 0x12, 0x20, 0x21, 0x40, 0x80]

/-- The actual table, by the number of fragments in a block. -/
def fragtbl : ℕ → List ℕ
  | 1 | 2 | 4 => fragtbl124
  | 8 => fragtbl8
  | _ => []

/-! ### Cylinder groups -/

/-- The counts of free blocks and fragments (`struct csum`). -/
structure Csum where
  cs_nbfree : ℤ
  cs_nffree : ℤ
  deriving DecidableEq, Repr

/-- A cylinder group (`struct cg`): its summary; the positions of the last block and fragment
    used; the free fragments by size, and the free blocks by cylinder and rotational
    position; and the map. -/
structure Cg where
  cg_cgx : ℕ
  cg_cs : Csum
  cg_rotor : ℕ
  cg_frotor : ℕ
  cg_frsum : ℕ → ℤ
  cg_btot : ℕ → ℤ
  cg_b : ℕ → ℕ → ℤ
  cg_magic : ℕ
  cg_free : FreeMap

/-- The groups as they are on the disk, and the summaries in the super block: the
    total, and a copy of the one of each group. -/
structure State where
  fs_cstotal : Csum
  fs_cs : ℕ → Csum
  cgs : ℕ → Cg

end Uwisc.Ufs
