import Uwisc.Lib.Bytes

/-!
# Dumping files

`etc/dump/dumptraverse.c` and `etc/dump/dumptape.c`: a file goes to a tape of records of
`TP_BSIZE` bytes. A header says which of the next records of the file are on the tape and which
are in holes; those that are on the tape follow it.

The disk is a byte memory. Records are gathered in a buffer of `ntrec` ones that is then given to
a process that reads the blocks and writes them; the tape is the list of the records that have
gone to the buffer. It has room for all of them.

* `blksout`: dumps the blocks of an array of pointers;
* `dmpindir`: those that an indirect block leads to;
* `dump`: those of an inode.
-/

namespace Uwisc.Dump

open Lib

def TP_BSIZE : ℕ := 1024
def TP_NINDIR : ℕ := 512
def DEV_BSIZE : ℕ := 512

def TS_TAPE : ℕ := 1
def TS_INODE : ℕ := 2
def TS_BITS : ℕ := 3
def TS_ADDR : ℕ := 4
def TS_END : ℕ := 5
def TS_CLRI : ℕ := 6
def NFS_MAGIC : ℕ := 60012
def CHECKSUM : ℕ := 84446

def NDADDR : ℕ := 12
def NIADDR : ℕ := 3

def howmany (x y : ℕ) : ℕ := (x + (y - 1)) / y

/-- The sizes of a file system. -/
structure Fs where
  fs_bsize : ℕ
  fs_frag : ℕ
  bsize : fs_bsize = 4096 ∨ fs_bsize = 8192
  frag : fs_frag = 1 ∨ fs_frag = 2 ∨ fs_frag = 4 ∨ fs_frag = 8

namespace Fs

variable (fs : Fs)

def fs_fsize : ℕ := fs.fs_bsize / fs.fs_frag

def NINDIR : ℕ := fs.fs_bsize / 4

/-- `b << fs_fsbtodb`. -/
def fsbtodb (b : ℕ) : ℕ := b * (fs.fs_fsize / DEV_BSIZE)

/-- The records of a block (`tbperdb`). -/
def tbperdb : ℕ := fs.fs_bsize / TP_BSIZE

end Fs

/-! ### Inodes -/

/-- The bytes of an inode (`struct dinode`). -/
abbrev Dinode := Mem

namespace Dinode

variable (ip : Dinode)

def di_mode : ℕ := load 2 ip 0
def di_size : ℕ := load 4 ip 8
def di_db (i : ℕ) : ℕ := load 4 ip (40 + 4 * i)
def di_ib (i : ℕ) : ℕ := load 4 ip (88 + 4 * i)

end Dinode

def IFMT : ℕ := 0o170000
def IFDIR : ℕ := 0o040000
def IFREG : ℕ := 0o100000
def IFLNK : ℕ := 0o120000

/-! ### Records -/

/-- The bytes of a record. -/
abbrev Record := List UInt8

/-- A header, but for its magic number and its checksum. -/
structure Spcl where
  c_type : ℕ
  c_date : ℕ
  c_ddate : ℕ
  c_volume : ℕ
  c_tapea : ℕ
  c_inumber : ℕ
  c_dinode : Dinode
  c_count : ℕ
  c_addr : Mem

/-- The bytes of a header (`union u_spcl`). -/
def spclBytes (s : Spcl) (c_checksum : ℕ) : Record :=
  encode 4 s.c_type ++ (encode 4 s.c_date ++ (encode 4 s.c_ddate ++ (encode 4 s.c_volume ++
    (encode 4 s.c_tapea ++ (encode 4 s.c_inumber ++ (encode 4 NFS_MAGIC ++ (encode 4 c_checksum ++
      (bytes s.c_dinode 0 128 ++ (encode 4 s.c_count ++ (bytes s.c_addr 0 TP_NINDIR ++
        List.replicate 348 0))))))))))

/-- The integers of some bytes. -/
def words : List UInt8 → List ℕ
  | a :: b :: c :: d :: l => decode [a, b, c, d] :: words l
  | _ => []

/-- The sum of the integers of a record. -/
def sum (r : Record) : ℕ := (words r).sum % 2 ^ 32

/-- A header with its checksum. -/
def sealed (s : Spcl) : Record := spclBytes s ((CHECKSUM + (2 ^ 32 - sum (spclBytes s 0))) % 2 ^ 32)

/-! ### The tape -/

/-- What is going to the tape. -/
structure Out where
  spcl : Spcl
  /-- The count of the records in the buffer. -/
  trecno : ℕ
  tape : List Record

variable (fs : Fs) (ntrec ino : ℕ) (disk : Mem)

/-- `if (trecno >= ntrec) flusht()`. -/
def flusht (o : Out) : Out := if ntrec ≤ o.trecno then { o with trecno := 0 } else o

/-- Some records go to the buffer. -/
def Out.put (o : Out) (rs : List Record) : Out :=
  { o with
    tape := o.tape ++ rs
    trecno := o.trecno + rs.length
    spcl := { o.spcl with c_tapea := o.spcl.c_tapea + rs.length } }

def taprec (o : Out) (dp : Record) : Out := flusht ntrec (o.put [dp])

def spclrec (o : Out) : Out :=
  let s := { o.spcl with c_inumber := ino }
  taprec ntrec { o with spcl := s } (sealed s)

/-- What a process reads for the buffer: `n` records from the sector `dblk` on. -/
def bread (dblk n : ℕ) : List Record :=
  (List.range n).map fun k => bytes disk (dblk * DEV_BSIZE + k * TP_BSIZE) TP_BSIZE

/-- The loop of `dmpblk`. -/
def dmpdb (o : Out) (dblkno tpblks : ℕ) : Out :=
  let avail := min tpblks (ntrec - o.trecno)
  if 0 < avail then
    dmpdb (flusht ntrec (o.put (bread disk dblkno avail))) (dblkno + avail * (TP_BSIZE / DEV_BSIZE)) (tpblks - avail)
  else o
termination_by tpblks

def dmpblk (o : Out) (blkno size : ℕ) : Out := dmpdb ntrec disk o (fs.fsbtodb blkno) (size / TP_BSIZE)

/-! ### Files -/

/-- The block of the record `j`, up to the record `count`. -/
def dmpAt (blkp : ℕ → ℕ) (o : Out) (j count : ℕ) : Out :=
  if blkp (j / fs.tbperdb) ≠ 0 then
    if j + fs.tbperdb ≤ count then dmpblk fs ntrec disk o (blkp (j / fs.tbperdb)) fs.fs_bsize
    else dmpblk fs ntrec disk o (blkp (j / fs.tbperdb)) ((count - j) * TP_BSIZE)
  else o

/-- The second loop of `blksout`, over the blocks from the record `j` on. -/
def dmpblks (blkp : ℕ → ℕ) (o : Out) (j count : ℕ) : Out :=
  if j < count ∧ 0 < fs.tbperdb then dmpblks blkp (dmpAt fs ntrec disk blkp o j count) (j + fs.tbperdb) count else o
termination_by count - j

/-- Says which of the records from `i` on are in holes (the first loop of `blksout`). -/
def markHoles (blkp : ℕ → ℕ) (o : Out) (i count : ℕ) : Out :=
  { o with spcl := { o.spcl with
      c_addr := fun k =>
        if k < count - i then (if blkp ((i + k) / fs.tbperdb) ≠ 0 then 1 else 0) else o.spcl.c_addr k
      c_count := count - i } }

/-- The body of the loop of `blksout`: a header for the records from `i` up to `count`, and the records. -/
def segout (blkp : ℕ → ℕ) (o : Out) (i count : ℕ) : Out :=
  let o := spclrec ntrec ino (markHoles fs blkp o i count)
  let o := dmpblks fs ntrec disk blkp o i count
  { o with spcl := { o.spcl with c_type := TS_ADDR } }

/-- Where the records of a header end. -/
def countFrom (blks i : ℕ) : ℕ := if blks < i + TP_NINDIR then blks else i + TP_NINDIR

/-- The loop of `blksout`, from the record `i` on. -/
def blksoutFrom (blkp : ℕ → ℕ) (blks : ℕ) (o : Out) (i : ℕ) : Out :=
  if i < blks then blksoutFrom blkp blks (segout fs ntrec ino disk blkp o i (countFrom blks i)) (i + TP_NINDIR) else o
termination_by blks - i
decreasing_by simp only [TP_NINDIR]; omega

def blksout (blkp : ℕ → ℕ) (frags : ℕ) (o : Out) : Out :=
  blksoutFrom fs ntrec ino disk blkp (howmany (frags * fs.fs_fsize) TP_BSIZE) o 0

/-- A loop that ends when nothing is left of the size. -/
def untilDone (f : ℕ → Out × ℤ → Out × ℤ) : List ℕ → Out × ℤ → Out × ℤ
  | [], st => st
  | i :: l, st => if (f i st).2 ≤ 0 then f i st else untilDone f l (f i st)

/-- The pointers of an indirect block; there is none for a hole. -/
def idblk (blk i : ℕ) : ℕ := if blk ≠ 0 then load 4 disk (fs.fsbtodb blk * DEV_BSIZE + 4 * i) else 0

def dmpindir (blk : ℕ) : ℕ → Out × ℤ → Out × ℤ
  | 0, (o, size) =>
    let cnt :=
      if size < fs.NINDIR * fs.fs_bsize then howmany size.toNat fs.fs_fsize else fs.NINDIR * fs.fs_frag
    (blksout fs ntrec ino disk (idblk fs disk blk) cnt o, size - fs.NINDIR * fs.fs_bsize)
  | lvl + 1, st => untilDone (fun i => dmpindir (idblk fs disk blk i) lvl) (List.range fs.NINDIR) st

/-- `dump`, of an inode that is in use and not empty. -/
def dumpBlocks (ip : Dinode) (o : Out) : Out :=
  let i := if NDADDR * fs.fs_bsize < ip.di_size then NDADDR * fs.fs_frag else howmany ip.di_size fs.fs_fsize
  let o := blksout fs ntrec ino disk ip.di_db i o
  let size : ℤ := ip.di_size - NDADDR * fs.fs_bsize
  if size ≤ 0 then o
  else (untilDone (fun i => dmpindir fs ntrec ino disk (ip.di_ib i) i) (List.range NIADDR) (o, size)).1

def dump (ip : Dinode) (o : Out) : Out :=
  let o := { o with spcl := { o.spcl with c_dinode := ip, c_type := TS_INODE, c_count := 0 } }
  let i := ip.di_mode &&& IFMT
  if i = 0 then o
  else if (i ≠ IFDIR ∧ i ≠ IFREG ∧ i ≠ IFLNK) ∨ ip.di_size = 0 then spclrec ntrec ino o
  else dumpBlocks fs ntrec ino disk ip o

end Uwisc.Dump
