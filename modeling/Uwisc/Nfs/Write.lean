import Uwisc.Lib.Bytes

/-!
# Writing files over the network

One process that opens a file of a server, writes and reads it, and closes it: `nfs_open`,
`nfs_close`, `rwvp`, `nfs_getattr`, `nfs_fsync`, `nfs_strategy`, `do_bio`, `nfswrite` and `nfsread`
of `sys/nfs/nfs_vnodeops.c`, over the buffer cache of `sys/sys/vfs_bio.c`. A call is cut where the
process can sleep: at every block of a transfer, at every block that is flushed, and at every call
to the server that writes.

A buffer is found by the number of its block: no two buffers are of one block. Buffers that are not
busy may be written or reused at any time, blocks may be read ahead at any time, and the daemons
work on the buffers that are queued in any order. The server has the file, and tells its size; a
call that reads a block gets all there is of it.

What the process has put at every offset, and what the server has acknowledged there, is recorded.
-/

namespace Uwisc.Nfs.Write

open Lib Function

def DEV_BSIZE : ℕ := 512

def CLBYTES : ℕ := 1024

def MAXBSIZE : ℕ := 8192

/-- What a mount is made with: the block size of the server, and the size of its transfers. -/
structure Mount where
  va_blocksize : ℤ
  mi_stsize : ℕ

variable (m : Mount)

/-- The block size, as `nfs_mount` sets it. -/
def Mount.mi_bsize : ℕ := (min (max m.va_blocksize CLBYTES) MAXBSIZE).toNat

/-- The size of the buffers, as `rwvp` rounds it. -/
def Mount.size : ℕ := m.mi_bsize / DEV_BSIZE * DEV_BSIZE

/-- `nfs_bmap`. -/
def Mount.nfsBmap (bn : ℕ) : ℕ := bn * m.mi_bsize / DEV_BSIZE

/-- Where in the file the buffer of a block is read and written. -/
def Mount.offset (bn : ℕ) : ℕ := m.nfsBmap bn * DEV_BSIZE

/-! ### The state -/

/-- What a buffer waits for. -/
inductive Io
  /-- Nothing: it is on a free list. -/
  | clean
  /-- It is on a free list, and is to be written. -/
  | delwri
  /-- It is busy, and `do_bio` has not begun to write it. -/
  | queued
  /-- It is busy, and so many bytes of those that count have been written. -/
  | sending (done count : ℕ)
  deriving DecidableEq

/-- A buffer of the file. -/
structure Buf where
  b_addr : Mem
  io : Io

/-- Where `nfs_fsync` returns to. -/
inductive Cont
  /-- `nfs_getattr`, called by `nfs_open`. -/
  | opening
  /-- `nfs_getattr`, called by `rwvp` to read so many bytes. -/
  | reading (uio_offset uio_resid : ℕ)
  | closing
  deriving DecidableEq

/-- Where the process is. -/
inductive Proc
  | notOpen
  /-- The file is open, and no call is under way. -/
  | idle
  | writing (uio_offset : ℕ) (data : List UInt8)
  | reading (uio_offset uio_resid : ℕ)
  /-- The block is to be read. -/
  | fetching (uio_offset uio_resid : ℕ)
  /-- In the loop of `nfs_fsync`, at a block. -/
  | fsync (bn : ℕ) (k : Cont)
  /-- In `nfs_getattr`, after the blocks are flushed. -/
  | getattr (k : Cont)
  /-- `nfs_close` has returned. -/
  | closed (error : ℕ)
  deriving DecidableEq

/-- The file of the server, the rnode and the buffers of the client, and the process. -/
structure State where
  file : Mem
  eof : ℕ
  r_size : ℕ
  /-- `na_size` of `r_nfsattr`. -/
  na_size : ℕ
  r_error : ℕ
  /-- `RDIRTY`. -/
  rdirty : Bool
  buf : ℕ → Option Buf
  proc : Proc
  /-- The bytes that were copied from the process for an offset, the last one first. -/
  put : ℕ → List UInt8
  /-- The byte the server has last acknowledged for an offset. -/
  acked : ℕ → Option UInt8
  /-- A write has returned an error. -/
  failed : Bool
  /-- A byte that the process had not put there was sent in place of another one of the file. -/
  foreign : Bool

/-! ### The server -/

/-- `RFS_WRITE`. -/
def State.rfsWrite (s : State) (off : ℕ) (l : List UInt8) : State :=
  { s with
    file := store s.file off l
    eof := if l = [] then s.eof else max s.eof (off + l.length) }

/-- Some byte is not what the process has put there, nor what the file has there. -/
def State.isForeign (s : State) (off : ℕ) (l : List UInt8) : Bool :=
  (List.range l.length).any fun k =>
    off + k < s.eof ∧ l.getD k 0 ∉ s.put (off + k) ∧ l.getD k 0 ≠ s.file (off + k)

/-- Bytes are sent. -/
def State.send (s : State) (off : ℕ) (l : List UInt8) : State :=
  { s with foreign := s.foreign || s.isForeign off l }

/-- Bytes are acknowledged. -/
def State.ack (s : State) (off : ℕ) (l : List UInt8) : State :=
  { s with acked := fun o => if off ≤ o ∧ o < off + l.length then some (l.getD (o - off) 0) else s.acked o }

/-! ### The buffers -/

def State.setBuf (s : State) (bn : ℕ) (x : Option Buf) : State := { s with buf := update s.buf bn x }

/-- `nfs_strategy`, to write: the buffer, or none if it is released for an error. -/
def nfsStrategy (r_error : ℕ) (b_addr : Mem) : Option Buf :=
  if r_error ≠ 0 then none else some ⟨b_addr, .queued⟩

/-- What `bflush` makes of a buffer. -/
def bflushBuf (r_error : ℕ) : Option Buf → Option Buf
  | some ⟨b_addr, .delwri⟩ => nfsStrategy r_error b_addr
  | x => x

/-- What `binvalfree` makes of a buffer. -/
def binvalfreeBuf (r_error : ℕ) : Option Buf → Option Buf
  | some ⟨_, .clean⟩ => none
  | x => bflushBuf r_error x

def State.bflush (s : State) : State := { s with buf := fun bn => bflushBuf s.r_error (s.buf bn) }

def State.binvalfree (s : State) : State := { s with buf := fun bn => binvalfreeBuf s.r_error (s.buf bn) }

def State.binval (s : State) : State := { s with buf := fun _ => none }

/-- `nfs_attrcache`, called with `SFLUSH`, if the file has changed or not since its attributes were cached. -/
def State.nfsAttrcache (s : State) (changed : Bool) : State :=
  { (if changed then s.binvalfree else s) with na_size := s.eof }

/-- `do_bio` of `sys/nfs`, to read: `nfsread`, and zeroes where the file has ended. -/
def State.readBio (s : State) (bn : ℕ) (changed : Bool) : State :=
  let t := s.nfsAttrcache changed
  { t with r_size := max t.r_size t.na_size }.setBuf bn
    (some ⟨fun k => if m.offset bn + k < s.eof then s.file (m.offset bn + k) else 0, .clean⟩)

/-- The bytes of a buffer that `do_bio` writes; the difference is unsigned. -/
def State.bioCount (s : State) (bn : ℕ) : ℕ :=
  if m.offset bn ≤ s.r_size then min m.size (s.r_size - m.offset bn) else m.size

/-- What the server replies to a call that writes. -/
inductive Reply
  | ok
  /-- An error, or none at all; the bytes may be stored or not. -/
  | error (stored : Bool)
  deriving DecidableEq

/-- One call of the loop of `nfswrite`, and the end of `do_bio` after the last one: a buffer that could
    not be written is released with `B_ERROR`, so that it loses its vnode. -/
def State.nfswrite (s : State) (bn : ℕ) (b_addr : Mem) (done count : ℕ) (reply : Reply) : State :=
  let tsize := min m.mi_stsize (count - done)
  let off := m.offset bn + done
  let l := bytes b_addr done tsize
  match reply with
  | .ok =>
    let t := ((s.send off l).rfsWrite off l).ack off l
    if done + tsize = count then { t with na_size := t.eof }.setBuf bn (some ⟨b_addr, .clean⟩)
    else t.setBuf bn (some ⟨b_addr, .sending (done + tsize) count⟩)
  | .error stored => (if stored then (s.send off l).rfsWrite off l else s.send off l).setBuf bn none

/-! ### Flushing -/

/-- What follows `nfs_fsync`. -/
def State.fsynced (s : State) : Cont → State
  | .opening => { s with proc := .getattr .opening }
  | .reading off resid => { s with proc := .getattr (.reading off resid) }
  | .closing => { (if s.r_error ≠ 0 then s.binval else s) with proc := .closed s.r_error }

/-- `nfs_fsync`, up to its loop. -/
def State.nfsFsync (s : State) (k : Cont) : State :=
  if s.rdirty then { { s with rdirty := false }.bflush with proc := .fsync 0 k } else s.fsynced k

/-- The loop of `nfs_fsync`. `blkflush` waits for a buffer that is busy, and looks again after it has
    written one. -/
def State.blkflush (s : State) (bn : ℕ) (k : Cont) : Option State :=
  if s.r_size ≤ bn * m.mi_bsize then some (s.fsynced k)
  else
    match s.buf bn with
    | some ⟨b_addr, .delwri⟩ => some (s.setBuf bn (nfsStrategy s.r_error b_addr))
    | none | some ⟨_, .clean⟩ => some { s with proc := .fsync (bn + 1) k }
    | _ => none

/-- How `nfs_getattr` gets the attributes. -/
inductive Attr
  | cached
  | server (changed : Bool)
  | failed
  deriving DecidableEq

/-- `nfs_getattr`, after the blocks are flushed. -/
def State.nfsGetattr (s : State) : Attr → State
  | .cached => { s with r_size := max s.r_size s.na_size }
  | .server changed => { s with r_size := max s.r_size s.eof }.nfsAttrcache changed
  | .failed => s

/-- What follows `nfs_getattr`; its error is looked at by `nfs_open` alone. -/
def State.got (s : State) (a : Attr) : Cont → State
  | .opening => { s with proc := if a = .failed then .notOpen else .idle }
  | .reading off resid => { s with proc := .fetching off resid }
  | .closing => s

/-! ### `rwvp` -/

/-- The call is refused: an offset is negative, or not an `int`. -/
def isInval (uio_offset : ℤ) (uio_resid : ℕ) : Prop := uio_offset < 0 ∨ 2 ^ 31 ≤ uio_offset + uio_resid

instance (uio_offset : ℤ) (uio_resid : ℕ) : Decidable (isInval uio_offset uio_resid) :=
  inferInstanceAs (Decidable (_ ∨ _))

/-- A call that writes. -/
def State.rwvpWrite (s : State) (uio_offset : ℤ) (data : List UInt8) (rlim_cur : ℕ) : State :=
  if data.length = 0 then s
  else if isInval uio_offset data.length then { s with failed := true }
  else if rlim_cur < uio_offset + data.length then { s with failed := true }
  else { s with proc := .writing uio_offset.toNat data }

/-- A call that reads. -/
def State.rwvpRead (s : State) (uio_offset : ℤ) (uio_resid : ℕ) : State :=
  if uio_resid = 0 ∨ isInval uio_offset uio_resid then s
  else { s with proc := .reading uio_offset.toNat uio_resid }

/-- How `uiomove` ends: after a fault, so many bytes have been copied, and so many of them counted. -/
inductive Uiomove
  | all
  | fault (copied counted : ℕ)
  deriving DecidableEq

/-- The bytes copied, of `n`. -/
def Uiomove.copied (n : ℕ) : Uiomove → ℕ
  | .all => n
  | .fault copied _ => min n copied

/-- The bytes counted, of `n`. -/
def Uiomove.counted (n : ℕ) : Uiomove → ℕ
  | .all => n
  | .fault copied counted => min (min n copied) counted

/-- The bytes that are written to the block of an offset. -/
def Mount.chunk (uio_offset uio_resid : ℕ) : ℕ := min (m.size - uio_offset % m.size) uio_resid

/-- The end of the loop of `rwvp`, which writes `data` to a buffer with the memory `b_addr`. -/
def State.uiomove (s : State) (off : ℕ) (data : List UInt8) (b_addr : Mem) (u : Uiomove) : State :=
  let bn := off / m.size
  let pos := off % m.size
  let n := m.chunk off data.length
  let l := data.take (u.copied n)
  let b_addr := store b_addr pos l
  { s with
    put := fun o => if off ≤ o ∧ o < off + l.length then l.getD (o - off) 0 :: s.put o else s.put o
    r_size := max s.r_size (off + u.counted n)
    rdirty := true
    proc := if u ≠ Uiomove.all ∨ data.length = n then .idle else .writing (off + n) (data.drop n)
    failed := s.failed || decide (u ≠ Uiomove.all) }.setBuf bn
      (if n + pos = m.size then nfsStrategy s.r_error b_addr else some ⟨b_addr, .delwri⟩)

/-- The loop of `rwvp`, to write. A buffer that is to be overwritten is not read, and has `junk` in it
    at first; where one has to be read, `bread` says whether the file has changed, or is none for an
    error. -/
def State.writeBlock (s : State) (off : ℕ) (data : List UInt8) (junk : Mem) (bread : Option Bool)
    (u : Uiomove) : Option State :=
  match s.buf (off / m.size) with
  | some ⟨_, .queued⟩ | some ⟨_, .sending _ _⟩ => none
  | some ⟨b_addr, _⟩ => some (s.uiomove m off data b_addr u)
  | none =>
    if m.chunk off data.length = m.size then some (s.uiomove m off data junk u)
    else
      match bread with
      | none => some { s with failed := true, proc := .idle }
      | some changed =>
        let t := s.readBio m (off / m.size) changed
        (t.buf (off / m.size)).map fun b => t.uiomove m off data b.b_addr u

/-- The loop of `rwvp`, to read, up to the block. -/
def State.incore (s : State) (off resid : ℕ) : State :=
  if (s.buf (off / m.size)).isSome then s.nfsFsync (.reading off resid)
  else { s with proc := .fetching off resid }

/-- The end of the loop of `rwvp`, which reads from a buffer. -/
def State.readOut (s : State) (off resid : ℕ) (fault : Bool) : State :=
  let n := m.chunk off resid
  let k := min n (s.r_size - off)
  { s with proc := if fault ∨ k < n ∨ k = resid then .idle else .reading (off + k) (resid - k) }

/-- The loop of `rwvp`, to read. -/
def State.readBlock (s : State) (off resid : ℕ) (bread : Option Bool) (fault : Bool) : Option State :=
  match s.buf (off / m.size), bread with
  | some ⟨_, .queued⟩, _ | some ⟨_, .sending _ _⟩, _ => none
  | some _, _ => some (s.readOut m off resid fault)
  | none, none => some { s with proc := .idle }
  | none, some changed => some ((s.readBio m (off / m.size) changed).readOut m off resid fault)

end Uwisc.Nfs.Write
