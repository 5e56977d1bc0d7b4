import Uwisc.Lib.Bytes
import Uwisc.Ufs.Inode

/-!
# Regular files

How a regular file is read, written and truncated (`rwip` of `ufs_vnodeops.c`, `bmap` of `ufs_bmap.c`,
`realloccg` of `ufs_alloc.c`, with `itrunc`). The data blocks of the inode are given by their contents,
whose length is that of the fragments allocated.

* `File.rwipWrite`, `File.rwipRead`: the loops of `rwip`, a piece of a block at a time;
* `File.exec`: the calls. What the source does to blocks that are not the file's is an error here, as its
  panics are.
-/

namespace Uwisc.Ufs

open Lib

abbrev Data := List UInt8

/-- A regular file. -/
abbrev File := Inode Unit Data

namespace File

inductive Panic
  /-- `realloccg: bad size`. -/
  | size
  /-- `realloccg: bad bprev`. -/
  | bprev
  /-- Fragments were used that are not those of the block. -/
  | beyond
  | itrunc (p : Inode.Panic)

variable (fs : Fs)

/-- `bread`, of a block of the file. -/
def bread (b : Data) (size : ℕ) : Except Panic Data :=
  if size ≤ b.length then .ok (b.take size) else .error .beyond

/-- `getblk`: the buffer has what was in it before. -/
def getblk (b : Data) (size : ℕ) (stale : Mem) : Except Panic Data :=
  if size ≤ b.length then .ok (bytes stale 0 size) else .error .beyond

/-- What `alloc` and `geteblk` give, after `clrbuf`. -/
def zeros (size : ℕ) : Data := List.replicate size 0

/-- `realloccg`: the block in a larger piece, where it is or somewhere else. -/
def realloccg (bprev : Option Data) (osize nsize : ℕ) : Except Panic Data :=
  if fs.fs_bsize < osize ∨ fragoff fs osize ≠ 0 ∨ fs.fs_bsize < nsize ∨ fragoff fs nsize ≠ 0 then
    .error .size
  else
    match bprev with
    | none => .error .bprev
    | some b => do
      let b ← bread b osize
      .ok (b ++ zeros (nsize - osize))

/-- Changes the data of a block, by way of new indirect blocks where there are none. -/
def setBlock (f : Option Data → Data) (ip : File) (bn : ℕ) : File :=
  if bn < NDADDR then { ip with i_db := Function.update ip.i_db bn (some (f (ip.i_db bn))) }
  else
    match levelOf fs NIADDR 0 1 (bn - NDADDR) with
    | none => ip
    | some (level, i) =>
      { ip with
        i_ib := Function.update ip.i_ib level
          (some (Tree.modify (nindir fs) () f (level + 1) (ip.i_ib level) i)) }

/-- The fragment at the end of the file is extended to be a full block, if the next write will extend the
    file into a new block. -/
def extendLast (ip : File) (bn : ℕ) : Except Panic File :=
  let lbn := lblkno fs ip.i_size
  let osize := blksize fs ip.i_size lbn
  if lbn < NDADDR ∧ lbn < bn ∧ osize < fs.fs_bsize ∧ 0 < osize then do
    let b ← realloccg fs (ip.i_db lbn) osize fs.fs_bsize
    .ok { ip with i_size := (lbn + 1) * fs.fs_bsize, i_db := Function.update ip.i_db lbn (some b) }
  else .ok ip

/-- `bmap` when it writes: whether there is such a block, and the file with the block. -/
def bmapWrite (ip : File) (bn size : ℕ) : Except Panic (Bool × File) := do
  let ip ← extendLast fs ip bn
  if bn < NDADDR then
    match ip.i_db bn with
    | some b =>
      let osize := fragroundup fs (blkoff fs ip.i_size)
      let nsize := fragroundup fs size
      if ip.i_size < (bn + 1) * fs.fs_bsize ∧ osize < nsize then do
        let b ← realloccg fs (some b) osize nsize
        .ok (true, setBlock fs (fun _ => b) ip bn)
      else .ok (true, ip)
    | none =>
      let nsize := if ip.i_size < (bn + 1) * fs.fs_bsize then fragroundup fs size else fs.fs_bsize
      .ok (true, setBlock fs (fun _ => zeros nsize) ip bn)
  else
    match levelOf fs NIADDR 0 1 (bn - NDADDR) with
    | none => .ok (false, ip)
    | some _ => .ok (true, setBlock fs (fun b => b.getD (zeros fs.fs_bsize)) ip bn)

/-- A piece that is written: how much is taken from the user, who has `copied` bytes of it. It is nothing
    after an error of `bmap`. `stale` is what the buffers have that are not read before. -/
def writePiece (stale : ℕ → Mem) (ip : File) (offset : ℕ) (piece : Data) (copied : ℕ) :
    Except Panic (ℕ × File) := do
  let lbn := lblkno fs offset
  let on := blkoff fs offset
  let (ok, ip) ← bmapWrite fs ip lbn (on + piece.length)
  if ok then
    -- the size is set before anything is copied
    let ip := { ip with i_size := max ip.i_size (offset + piece.length) }
    let size := blksize fs ip.i_size lbn
    let b := (ip.bmapRead fs lbn).getD []
    let buf ← if piece.length = fs.fs_bsize then getblk b size (stale lbn) else bread b size
    let n := min piece.length size
    let buf := bytes (store (fun i => buf.getD i 0) on (piece.take (min n copied))) 0 size
    .ok (n, setBlock fs (fun _ => buf ++ b.drop size) ip lbn)
  else .ok (0, ip)

/-- The loop of `rwip` for `UIO_WRITE`, which goes on to a next piece at most as often as there are
    bytes. -/
def rwipWrite (stale : ℕ → Mem) : ℕ → File → ℕ → Data → ℕ → Except Panic File
  | 0, ip, _, _, _ => .ok ip
  | fuel + 1, ip, offset, data, copied => do
    let piece := data.take (fs.fs_bsize - blkoff fs offset)
    let (n, ip) ← writePiece fs stale ip offset piece copied
    if n ≠ 0 ∧ n ≤ copied ∧ n < data.length then
      rwipWrite stale fuel ip (offset + n) (data.drop n) (copied - n)
    else .ok ip

/-- The loop of `rwip` for `UIO_READ`. -/
def rwipRead (ip : File) : ℕ → ℕ → ℕ → Except Panic Data
  | 0, _, _ => .ok []
  | fuel + 1, offset, resid =>
    if ip.i_size ≤ offset then .ok []
    else do
      let lbn := lblkno fs offset
      let on := blkoff fs offset
      let n := min (min (fs.fs_bsize - on) resid) (ip.i_size - offset)
      let size := blksize fs ip.i_size lbn
      let buf ← (ip.bmapRead fs lbn).elim (.ok (zeros size)) fun b => bread b size
      let n := min n size
      let out := (buf.drop on).take n
      if n ≠ 0 ∧ n < resid then do
        let rest ← rwipRead ip fuel (offset + n) (resid - n)
        .ok (out ++ rest)
      else .ok out

/-- The calls. A write has the number of bytes that can be copied, what buffers have in them, and the
    limit of the size of files. -/
inductive Op
  | write (offset : ℤ) (data : Data) (copied : ℕ) (stale : ℕ → Mem) (limit : ℕ)
  | read (offset : ℤ) (resid : ℕ)
  | trunc (length : ℕ)

/-- `rwip` does what it is called for: the offsets are numbers of 32 bits, there is something to do, and
    the limit is kept. -/
def Op.accepted : Op → Prop
  | write offset data _ _ limit =>
    0 ≤ offset ∧ offset + data.length < 2 ^ 31 ∧ 0 < data.length ∧ offset + data.length ≤ limit
  | read offset resid => 0 ≤ offset ∧ offset + resid < 2 ^ 31 ∧ 0 < resid
  | trunc _ => True

instance (op : Op) : Decidable op.accepted := by
  cases op with
  | write offset data copied stale limit =>
    exact inferInstanceAs (Decidable (0 ≤ offset ∧ offset + data.length < 2 ^ 31 ∧ 0 < data.length ∧
      offset + data.length ≤ limit))
  | read offset resid =>
    exact inferInstanceAs (Decidable (0 ≤ offset ∧ offset + resid < 2 ^ 31 ∧ 0 < resid))
  | trunc length => exact inferInstanceAs (Decidable True)

/-- A call: the file, and what was read. -/
def exec (ip : File) (op : Op) : Except Panic (File × Data) :=
  if op.accepted then
    match op with
    | .write offset data copied stale _ => do
      let ip ← rwipWrite fs stale data.length ip offset.toNat data copied
      .ok (ip, [])
    | .read offset resid => do
      let out ← rwipRead fs ip resid offset.toNat resid
      .ok (ip, out)
    | .trunc length =>
      match ip.itrunc fs (fun b size => b.take size) length with
      | .error p => .error (.itrunc p)
      | .ok p => .ok (p.1, [])
  else .ok (ip, [])

end File

end Uwisc.Ufs
