import Uwisc.Ufs.Dir.Run

/-!
# Reading directories over the network

`nfs_readdir` of `sys/nfs/nfs_vnodeops.c`, `rfs_readdir` of `sys/nfs/nfs_server.c`, the encoder
and the decoder between them (`xdr_putrddirres`, `xdr_getrddirres` of `sys/nfs/nfs_xdr.c`), and
`ufs_readdir` of `sys/ufs/ufs_vnodeops.c`.

The server has the directory and lets the client read it; the arguments arrive as they were
sent. A reply is the list of its bytes: it is shorter than what the transport takes
(`UDPMSGSIZE`), since `mi_tsize` is at most `NFS_MAXDATA`. Memory that was allocated holds what
it held before. `none` is a call that fails or does not return.
-/

namespace Uwisc.Nfs

open Lib Option Ufs.Dir

def NFS_MAXNAMLEN : ℕ := 255
def NFS_OK : ℕ := 0

/-! ### Numbers and bytes in a reply -/

def putlong (l : ℕ) : List UInt8 := (encode 4 l).reverse

def getlong (xdrs : List UInt8) : Option (ℕ × List UInt8) :=
  if 4 ≤ xdrs.length then some (decode (xdrs.take 4).reverse, xdrs.drop 4) else none

/-- The bytes that fill a unit up (`rndup` in `xdr_opaque`). -/
def rndup (cnt : ℕ) : ℕ := if cnt % 4 = 0 then 0 else 4 - cnt % 4

/-- `xdr_bytes`, encoding. -/
def putbytes (sp : List UInt8) (maxsize : ℕ) : Option (List UInt8) :=
  if maxsize < sp.length then none
  else some (putlong sp.length ++ (sp ++ List.replicate (rndup sp.length) 0))

/-! ### The server -/

/-- `rwip`: what there is of the bytes asked for, and how many there are not. -/
def rwip (ip : Inode) (buf : Mem) (uio_offset uio_resid iov_len : ℕ) : Mem × ℕ :=
  let n := min iov_len (ip.i_size - uio_offset)
  (store buf 0 (bytes ip.data uio_offset n), uio_resid - n)

/-- The buffer, and `uio_resid`; none if that is an error. -/
def ufs_readdir (ip : Inode) (buf : Mem) (uio_offset iov_len : ℕ) : Option (Mem × ℕ) :=
  if iov_len < DIRBLKSIZ ∨ uio_offset % DIRBLKSIZ ≠ 0 then none
  else
    let count := iov_len / DIRBLKSIZ * DIRBLKSIZ
    some (rwip ip buf uio_offset (iov_len - (iov_len - count)) count)

/-- What the server replies (`struct nfsrddirres`). The entries are at `rd_entries` in the buffer.
    The sizes are unsigned, but what is below `0` is taken for that by the encoder. -/
structure Rddirres where
  rd_bufsize : ℤ
  rd_offset : ℕ
  rd_size : ℤ
  rd_eof : Bool
  rd_entries : ℕ
  buf : Mem

/-- The loop of `rfs_readdir`: skips entries up to a valid one that ends after `rda_offset`. -/
def skipEntries (buf : Mem) (rd_size rda_offset skipped offset : ℕ) : Option (ℕ × ℕ) :=
  if skipped < rd_size ∧ (offset + d_reclen buf skipped ≤ rda_offset ∨ d_ino buf skipped = 0) then
    -- an entry without a length is skipped for ever
    if d_reclen buf skipped = 0 then none
    else
      skipEntries buf rd_size rda_offset (skipped + d_reclen buf skipped)
        (offset + d_reclen buf skipped)
  else some (skipped, offset)
termination_by rd_size - skipped

/-- `rfs_readdir` from `nxtblk` on, with the buffer it allocates. -/
def nxtblk (ip : Inode) (buf : Mem) (rda_offset rda_count : ℕ) : Option Rddirres :=
  let bufsize := max DIRBLKSIZ rda_count
  let offset := rda_offset / DIRBLKSIZ * DIRBLKSIZ
  match ufs_readdir ip buf offset bufsize with
  | none => none
  | some (buf, uio_resid) =>
    let rd_size := bufsize - uio_resid
    (skipEntries buf rd_size rda_offset 0 offset).map fun (skipped, offset) =>
      { rd_bufsize := bufsize - skipped
        rd_offset := offset
        rd_size := rd_size - skipped
        rd_eof := uio_resid ≠ 0
        rd_entries := skipped
        buf }

/-- A whole block was skipped, and there are more. -/
def Rddirres.again (rd : Rddirres) : Prop := rd.rd_entries ≠ 0 ∧ rd.rd_size = 0 ∧ rd.rd_eof = false

instance (rd : Rddirres) : Decidable rd.again := inferInstanceAs (Decidable (_ ∧ _))

theorem skipEntries_offset {buf : Mem} {rd_size rda_offset skipped offset skipped' offset' : ℕ}
    (h : skipEntries buf rd_size rda_offset skipped offset = some (skipped', offset')) :
    offset' + skipped = offset + skipped' := by
  induction skipped, offset using skipEntries.induct buf rd_size rda_offset with
  | case1 skipped offset hskip hzero =>
    rw [skipEntries, if_pos hskip, if_pos hzero] at h
    exact absurd h (by simp)
  | case2 skipped offset hskip hzero ih =>
    rw [skipEntries, if_pos hskip, if_neg hzero] at h
    have := ih h
    omega
  | case3 skipped offset hskip =>
    rw [skipEntries, if_neg hskip] at h
    cases h
    rfl

/-- The next block is one of the directory. -/
theorem nxtblk_again {ip : Inode} {buf : Mem} {rda_offset rda_count : ℕ} {rd : Rddirres}
    (h : nxtblk ip buf rda_offset rda_count = some rd) (hagn : rd.again) :
    rda_offset / DIRBLKSIZ * DIRBLKSIZ + DIRBLKSIZ ≤ rd.rd_offset ∧
      rda_offset / DIRBLKSIZ * DIRBLKSIZ + DIRBLKSIZ ≤ ip.i_size := by
  obtain ⟨-, hsize, heof⟩ := hagn
  have hbuf : DIRBLKSIZ ≤ max DIRBLKSIZ rda_count := le_max_left _ _
  have hcnt : DIRBLKSIZ ≤ max DIRBLKSIZ rda_count / DIRBLKSIZ * DIRBLKSIZ := by
    rw [DIRBLKSIZ] at *
    omega
  have hle : max DIRBLKSIZ rda_count / DIRBLKSIZ * DIRBLKSIZ ≤ max DIRBLKSIZ rda_count :=
    Nat.div_mul_le_self _ _
  rw [nxtblk, ufs_readdir, if_neg (by
    rw [Nat.mul_mod_left]
    exact not_or.2 ⟨hbuf.not_gt, not_not.2 rfl⟩)] at h
  obtain ⟨⟨skipped, offset⟩, hskip, rfl⟩ := map_eq_some_iff.1 h
  have hoff := skipEntries_offset hskip
  simp only [decide_eq_false_iff_not, not_not] at hsize heof
  have hzero : DIRBLKSIZ = 512 := rfl
  simp only at *
  omega

/-- The reply to a request, with the buffers that are allocated for the blocks. -/
def rfs_readdir (ip : Inode) (kmem : ℕ → Mem) (rda_offset rda_count : ℕ) : Option Rddirres :=
  match _h : nxtblk ip (kmem rda_offset) rda_offset rda_count with
  | none => none
  | some rd => if _ha : rd.again then rfs_readdir ip kmem rd.rd_offset rda_count else some rd
termination_by ip.i_size - rda_offset / DIRBLKSIZ * DIRBLKSIZ
decreasing_by
  have := nxtblk_again _h _ha
  rw [DIRBLKSIZ] at *
  omega

/-- The loop of `xdr_putrddirres`: the bytes of the entries from `dp` on, and if it broke off;
    `pos` is where the stream is. -/
def putEntries (buf : Mem) (rd_bufsize : ℤ) (dp : ℕ) (size : ℤ) (offset pos : ℕ) :
    Option (List UInt8 × Bool) :=
  if 0 < size then
    if d_reclen buf dp = 0 ∨ d_reclen buf dp < 9 + d_namlen buf dp then none
    else
      let next := putEntries buf rd_bufsize (dp + d_reclen buf dp) (size - d_reclen buf dp)
        (offset + d_reclen buf dp)
      if d_ino buf dp = 0 then next pos
      else
        match putbytes (d_name buf dp (d_namlen buf dp)) NFS_MAXNAMLEN with
        | none => none
        | some name =>
          let entry := putlong 1 ++ (putlong (d_ino buf dp) ++ (name ++
            putlong (offset + d_reclen buf dp)))
          if rd_bufsize ≤ (pos + entry.length : ℕ) then some (entry, true)
          else (next (pos + entry.length)).map fun r => (entry ++ r.1, r.2)
  else some ([], false)
termination_by size.toNat

/-- The encoder. -/
def xdr_putrddirres (rd : Rddirres) : Option (List UInt8) :=
  (putEntries rd.buf rd.rd_bufsize rd.rd_entries rd.rd_size rd.rd_offset 0).map fun r =>
    putlong NFS_OK ++ (r.1 ++ (putlong 0 ++ putlong (if rd.rd_eof ∧ ¬r.2 then 1 else 0)))

/-! ### The client -/

/-- `reclen` of the client. -/
def reclen (namlen : ℕ) : ℕ := (namlen + 1 + 4 + 2 * 2 + 4) / 4 * 4

/-- The memory at `rd_entries`, and where it was stored to: from which byte on, and how many. -/
structure Buffer where
  mem : Mem
  stored : List (ℕ × ℕ)

def Buffer.put (b : Buffer) (a : ℕ) (l : List UInt8) : Buffer :=
  ⟨store b.mem a l, (a, l.length) :: b.stored⟩

/-- `xdr_opaque`, decoding: what there is of the bytes is stored in any case. -/
def getopaque (b : Buffer) (cp cnt : ℕ) (xdrs : List UInt8) : Buffer × Option (List UInt8) :=
  (b.put cp (xdrs.take cnt),
    if cnt + rndup cnt ≤ xdrs.length then some (xdrs.drop (cnt + rndup cnt)) else none)

/-- An entry that was decoded, and the rest of the reply. -/
structure Got where
  d_reclen : ℕ
  offset : ℕ
  xdrs : List UInt8

/-- One entry in the loop of `xdr_getrddirres`. -/
def getEntry (b : Buffer) (dp : ℕ) (size : ℤ) (xdrs : List UInt8) : Buffer × Option Got :=
  match getlong xdrs with
  | none => (b, none)
  | some (d_fileno, xdrs) =>
    let b := b.put dp (encode 4 d_fileno)
    match getlong xdrs with
    | none => (b, none)
    | some (l, xdrs) =>
      let b := b.put (dp + 6) (encode 2 l)
      let namlen := l % 2 ^ 16
      if size < reclen namlen then (b, none)
      else
        match getopaque b (dp + 8) namlen xdrs with
        | (b, none) => (b, none)
        | (b, some xdrs) =>
          match getlong xdrs with
          | none => (b, none)
          | some (offset, xdrs) =>
            ((b.put (dp + 4) (encode 2 (reclen namlen))).put (dp + 8 + namlen) [0],
              some ⟨reclen namlen % 2 ^ 16, offset, xdrs⟩)

/-- The result of a call (`struct nfsrddirres`). -/
structure Reply where
  rd_status : ℕ
  rd_size : ℕ
  rd_offset : ℕ
  rd_eof : Bool
  deriving DecidableEq

theorem getlong_length {xdrs xdrs' : List UInt8} {l : ℕ} (h : getlong xdrs = some (l, xdrs')) :
    xdrs = xdrs.take 4 ++ xdrs' ∧ xdrs.length = 4 + xdrs'.length := by
  rw [getlong] at h
  split_ifs at h with hlen
  cases h
  exact ⟨(List.take_append_drop 4 xdrs).symm, by rw [List.length_drop]; omega⟩

theorem getEntry_length {b b' : Buffer} {dp : ℕ} {size : ℤ} {xdrs : List UInt8} {g : Got}
    (h : getEntry b dp size xdrs = (b', some g)) : g.xdrs.length < xdrs.length := by
  rw [getEntry] at h
  rcases h1 : getlong xdrs with - | ⟨d_fileno, xdrs1⟩
  · simp [h1] at h
  rcases h2 : getlong xdrs1 with - | ⟨l, xdrs2⟩
  · simp [h1, h2] at h
  have hlen1 := (getlong_length h1).2
  have hlen2 := (getlong_length h2).2
  simp only [h1, h2, getopaque] at h
  split_ifs at h with hsize hname
  · simp at h
  · rcases h3 : getlong (xdrs2.drop (l % 2 ^ 16 + rndup (l % 2 ^ 16))) with - | ⟨offset, xdrs3⟩
    · simp only [h3, Prod.mk.injEq, reduceCtorEq, and_false] at h
    · have hlen3 := (getlong_length h3).2
      simp only [h3, Prod.mk.injEq, some.injEq] at h
      obtain ⟨-, rfl⟩ := h
      rw [List.length_drop] at hlen3
      simp only
      omega
  · simp at h

/-- The loop of `xdr_getrddirres`. -/
def getEntries (b : Buffer) (dp : ℕ) (size : ℤ) (offset : ℕ) (xdrs : List UInt8) :
    Buffer × Option Reply :=
  match _hv : getlong xdrs with
  | none => (b, none)
  | some (valid, xdrs') =>
    if valid = 0 then
      match getlong xdrs' with
      | none => (b, none)
      | some (rd_eof, _) => (b, some ⟨NFS_OK, dp, offset, rd_eof ≠ 0⟩)
    else
      match _h : getEntry b dp size xdrs' with
      | (b, none) => (b, none)
      | (b, some g) =>
        if size - g.d_reclen ≤ 0 then (b, none)
        else getEntries b (dp + g.d_reclen) (size - g.d_reclen) g.offset g.xdrs
termination_by xdrs.length
decreasing_by
  have := getEntry_length _h
  have := (getlong_length _hv).2
  omega

/-- The decoder, for a buffer of `rd_size` bytes. -/
def xdr_getrddirres (mem : Mem) (rd_size : ℕ) (xdrs : List UInt8) : Buffer × Option Reply :=
  match getlong xdrs with
  | none => (⟨mem, []⟩, none)
  | some (rd_status, xdrs) =>
    if rd_status ≠ NFS_OK then (⟨mem, []⟩, some ⟨rd_status, rd_size, 0, false⟩)
    else getEntries ⟨mem, []⟩ 0 rd_size (2 ^ 32 - 1) xdrs

/-- A call of `nfs_readdir`: the size of the buffer it is for, and the memory that the server and
    the client allocate. -/
structure Call where
  iov_len : ℕ
  kmem : ℕ → Mem
  rd_entries : Mem

/-- A directory on the client (`r_flags` and `r_size` of its `struct rnode`), where the calls have
    come to, what they returned, and if the last one returned nothing. -/
structure State where
  reof : Bool
  r_size : ℕ
  uio_offset : ℕ
  got : List (Name × ℕ)
  ended : Bool

/-- What a buffer holds that was returned. -/
def returned (mem : Mem) (rd_size : ℕ) : List (Name × ℕ) :=
  (recordsFrom mem rd_size 0).filterMap (entry mem)

/-- What the client does with a result. -/
def uiomove (s : State) (mem : Mem) (rd : Reply) : State :=
  let uio_offset := if rd.rd_size ≠ 0 then rd.rd_offset else s.uio_offset
  { reof := s.reof || rd.rd_eof
    r_size := if rd.rd_eof then uio_offset else s.r_size
    uio_offset
    got := s.got ++ returned mem rd.rd_size
    ended := rd.rd_size = 0 }

def nfs_readdir (ip : Inode) (mi_tsize : ℕ) (s : State) (call : Call) : Option State :=
  if s.reof ∧ s.r_size = s.uio_offset then some { s with ended := true }
  else
    let count := min call.iov_len mi_tsize
    match (rfs_readdir ip call.kmem s.uio_offset count).bind xdr_putrddirres with
    | none => none
    | some reply =>
      match xdr_getrddirres call.rd_entries count reply with
      | (_, none) => none
      | (b, some rd) => if rd.rd_status ≠ NFS_OK then none else some (uiomove s b.mem rd)

/-- Calls one after the other, until one returns nothing. -/
def readdirs (ip : Inode) (mi_tsize : ℕ) : State → List Call → Option State
  | s, [] => some s
  | s, call :: calls =>
    if s.ended then some s
    else (nfs_readdir ip mi_tsize s call).bind fun s => readdirs ip mi_tsize s calls

end Uwisc.Nfs
