import Uwisc.Lib.Wrap
import Uwisc.Ufs.Inode.Contents

/-!
# Reads of the server

`rfs_read` of `sys/nfs/nfs_server.c`, with `ufs_bread` and `rwip` of `sys/ufs/ufs_vnodeops.c`, for a
regular file. A read within a block is served from the buffer of the block, another one by `VOP_RDWR`
with a copy. The disk has no errors.

The comparison that decides between the two is of a sum that may wrap around. When the bytes are
right, and the same either way, is `rfsRead_exact_iff`.
-/

namespace Uwisc.Nfs.Read

open Lib List Ufs Ufs.File

/-- A status other than `NFS_OK`: that of a call which is refused, and `EINVAL`. -/
inductive Errno
  | refused (rr_status : ℕ)
  | einval
  deriving DecidableEq

/-- A read. `refused` is the status of one with a handle that is stale or a file that may not be read. -/
structure Nfsreadargs where
  ra_offset : BitVec 32
  ra_count : BitVec 32
  refused : Option ℕ

/-- The data are what there is from `rr_data` on, of the buffer or of what was allocated. -/
structure Nfsrdresult where
  rr_count : ℕ
  rr_data : Data
  deriving DecidableEq

/-- What comes of a read. -/
inductive Outcome
  | ok (rr : Nfsrdresult)
  | error (e : Errno)
  | panic
  deriving DecidableEq

/-- The server: the file system, and how much `kmem_alloc` has. -/
structure Server where
  fs : Fs
  heap : ℕ
  bsize_le : fs.fs_bsize ≤ heap
  heap_lt : heap < 2 ^ 31

/-- A regular file, whose blocks are as its size has it. -/
structure Regular (fs : Fs) where
  ip : File
  shape : Shape fs ip
  size_lt : ip.i_size < 2 ^ 31

variable (s : Server) (ip : File) (ra : Nfsreadargs)

/-- `ufs_bread`. -/
def ufsBread (fs : Fs) (lbn : ℕ) : Except File.Panic Data :=
  let size := blksize fs ip.i_size lbn
  (ip.bmapRead fs lbn).elim (.ok (zeros size)) fun b => bread b size

/-- The way with `VOP_BREAD`. -/
def viaBread : Outcome :=
  if ip.i_size ≤ ra.ra_offset.toNat then .ok ⟨0, []⟩
  else
    match ufsBread ip s.fs (lblkno s.fs ra.ra_offset.toNat) with
    | .error _ => .panic
    | .ok bp => .ok {
        rr_count := min (ip.i_size - ra.ra_offset.toNat) ra.ra_count.toNat
        rr_data := bp.drop (blkoff s.fs ra.ra_offset.toNat) }

/-- The way with `VOP_RDWR`. What was allocated and not used is freed. -/
def viaRdwr : Outcome :=
  if s.heap < ra.ra_count.toNat then .panic
  else if ra.ra_count = 0 then .ok ⟨0, []⟩
  else if wrap 32 ra.ra_offset.toNat < 0 ∨ wrap 32 (wrap 32 ra.ra_offset.toNat + ra.ra_count.toNat) < 0 then
    .error .einval
  else
    match rwipRead s.fs ip ra.ra_count.toNat ra.ra_offset.toNat ra.ra_count.toNat with
    | .error _ => .panic
    | .ok out => .ok ⟨out.length, out⟩

/-- `offset + ra_count <= fsbsize`, with numbers of 32 bits. -/
def InBlock : Prop := (BitVec.ofNat 32 (blkoff s.fs ra.ra_offset.toNat) + ra.ra_count).toNat ≤ s.fs.fs_bsize

instance : Decidable (InBlock s ra) := inferInstanceAs (Decidable (_ ≤ _))

def rfsRead : Outcome :=
  match ra.refused with
  | some rr_status => .error (.refused rr_status)
  | none => if InBlock s ra then viaBread s ip ra else viaRdwr s ip ra

/-! ### What should hold -/

/-- How many bytes are to be read. -/
def due : ℕ := min (ra.ra_offset.toNat + ra.ra_count.toNat) ip.i_size - ra.ra_offset.toNat

/-- What the client gets. -/
def Outcome.sent : Outcome → Outcome
  | .ok rr => .ok ⟨rr.rr_count, rr.rr_data.take rr.rr_count⟩
  | o => o

/-- The bytes asked for are there, and a read that either way could serve is the same both ways. -/
structure Exact : Prop where
  bytes : ∀ rr, rfsRead s ip ra = .ok rr → rr.rr_count = due ip ra ∧ rr.rr_count ≤ rr.rr_data.length ∧
    rr.rr_data.take rr.rr_count = Lib.bytes (raw s.fs ip) ra.ra_offset.toNat (due ip ra)
  same : ra.refused = none → InBlock s ra → (viaBread s ip ra).sent = (viaRdwr s ip ra).sent

/-- The sum does not wrap around, and the end of a read within a block is a signed number. -/
def Fits : Prop :=
  blkoff s.fs ra.ra_offset.toNat + ra.ra_count.toNat < 2 ^ 32 ∧
  (blkoff s.fs ra.ra_offset.toNat + ra.ra_count.toNat ≤ s.fs.fs_bsize → ra.ra_count ≠ 0 →
    ra.ra_offset.toNat + ra.ra_count.toNat < 2 ^ 31)

variable {s ip ra}

theorem blkoff_lt (s : Server) (x : ℕ) : blkoff s.fs x < s.fs.fs_bsize := Nat.mod_lt _ (bsize_pos s.fs)

theorem toNat_sum (s : Server) (ra : Nfsreadargs) :
    (BitVec.ofNat 32 (blkoff s.fs ra.ra_offset.toNat) + ra.ra_count).toNat =
      (blkoff s.fs ra.ra_offset.toNat + ra.ra_count.toNat) % 2 ^ 32 := by
  rw [BitVec.toNat_add, BitVec.toNat_ofNat, Nat.mod_add_mod]

theorem inBlock_iff (h : blkoff s.fs ra.ra_offset.toNat + ra.ra_count.toNat < 2 ^ 32) :
    InBlock s ra ↔ blkoff s.fs ra.ra_offset.toNat + ra.ra_count.toNat ≤ s.fs.fs_bsize := by
  rw [InBlock, toNat_sum, Nat.mod_eq_of_lt h]

/-- If the sum wraps around, it is small. -/
theorem inBlock_of_wrap (h : 2 ^ 32 ≤ blkoff s.fs ra.ra_offset.toNat + ra.ra_count.toNat) : InBlock s ra := by
  have hoff := blkoff_lt s ra.ra_offset.toNat
  have hcnt := ra.ra_count.isLt
  rw [InBlock, toNat_sum]
  omega

/-- With a buffer there is always a reply. -/
theorem viaBread_ok (h : Shape s.fs ip) : ∃ rr, viaBread s ip ra = .ok rr ∧
    (blkoff s.fs ra.ra_offset.toNat + ra.ra_count.toNat ≤ s.fs.fs_bsize →
      rr.rr_count = due ip ra ∧ rr.rr_count ≤ rr.rr_data.length ∧
      rr.rr_data.take rr.rr_count = Lib.bytes (raw s.fs ip) ra.ra_offset.toNat (due ip ra)) := by
  rw [viaBread]
  by_cases hend : ip.i_size ≤ ra.ra_offset.toNat
  · have hdue : due ip ra = 0 := by
      rw [due]
      omega
    rw [if_pos hend, hdue]
    exact ⟨_, rfl, fun _ => ⟨rfl, le_rfl, rfl⟩⟩
  · obtain ⟨buf, hbuf, hlen, hslice⟩ := h.buffer ra.ra_offset.toNat
    rw [if_neg hend, ufsBread, hbuf]
    refine ⟨_, rfl, fun hfit => ?_⟩
    have hdue : min (ip.i_size - ra.ra_offset.toNat) ra.ra_count.toNat = due ip ra := by
      rw [due]
      omega
    have hroom : blkoff s.fs ra.ra_offset.toNat + due ip ra ≤
        blksize s.fs ip.i_size (lblkno s.fs ra.ra_offset.toNat) := by
      have hplc := lblkno_add_blkoff s.fs ra.ra_offset.toNat
      have hle := le_blksize (show lblkno s.fs ra.ra_offset.toNat * s.fs.fs_bsize ≤ ip.i_size by omega)
      rw [add_mul, one_mul] at hle
      rw [← hdue]
      omega
    dsimp only
    rw [hdue, hslice hroom, length_drop, hlen]
    exact ⟨rfl, by omega, rfl⟩

/-- With a copy, what is read is right. -/
theorem viaRdwr_eq (h : Shape s.fs ip) : viaRdwr s ip ra = if s.heap < ra.ra_count.toNat then .panic
    else if ra.ra_count ≠ 0 ∧ 2 ^ 31 ≤ ra.ra_offset.toNat + ra.ra_count.toNat then .error .einval
    else .ok ⟨due ip ra, Lib.bytes (raw s.fs ip) ra.ra_offset.toNat (due ip ra)⟩ := by
  have hoffs := ra.ra_offset.isLt
  have hheap := s.heap_lt
  rw [viaRdwr]
  by_cases hpnc : s.heap < ra.ra_count.toNat
  · rw [if_pos hpnc, if_pos hpnc]
  · rw [if_neg hpnc, if_neg hpnc]
    by_cases hzero : ra.ra_count = 0
    · have hdue : due ip ra = 0 := by
        rw [due, hzero]
        exact Nat.sub_eq_zero_of_le (Nat.min_le_left _ _)
      rw [if_pos hzero, if_neg (fun h => h.1 hzero), hdue]
      rfl
    · have hpos : 0 < ra.ra_count.toNat := Nat.pos_of_ne_zero fun h => hzero (BitVec.eq_of_toNat_eq h)
      have hsign : (wrap 32 ra.ra_offset.toNat < 0 ∨ wrap 32 (wrap 32 ra.ra_offset.toNat + ra.ra_count.toNat) < 0) ↔
          ra.ra_count ≠ 0 ∧ 2 ^ 31 ≤ ra.ra_offset.toNat + ra.ra_count.toNat := by
        rw [and_iff_right hzero]
        simp only [wrap, Int.bmod_def]
        push_cast
        omega
      rw [if_neg hzero, if_congr hsign rfl rfl]
      refine if_congr Iff.rfl rfl ?_
      have hdue : min ra.ra_count.toNat (ip.i_size - ra.ra_offset.toNat) = due ip ra := by
        rw [due]
        omega
      rw [rwipRead_spec h ra.ra_count.toNat le_rfl, hdue]
      dsimp only
      rw [length_bytes]

/-- A read is exact if and only if it is refused, or it `Fits`. -/
theorem rfsRead_exact_iff (s : Server) (f : Regular s.fs) (ra : Nfsreadargs) :
    Exact s f.ip ra ↔ ra.refused.isSome ∨ Fits s ra := by
  obtain ⟨rr, hbread, hrgt⟩ := @viaBread_ok s f.ip ra f.shape
  have hrdwr := @viaRdwr_eq s f.ip ra f.shape
  have hoff := blkoff_lt s ra.ra_offset.toNat
  have hbsz := s.bsize_le
  have hheap := s.heap_lt
  cases href : ra.refused with
  | some e =>
    have hrun : rfsRead s f.ip ra = .error (.refused e) := by rw [rfsRead, href]
    refine iff_of_true ⟨fun rr hrr => ?_, fun hnone => ?_⟩ (.inl rfl)
    · rw [hrun] at hrr
      cases hrr
    · rw [href] at hnone
      cases hnone
  | none =>
    rw [Option.isSome_none, Bool.false_eq_true, false_or]
    have hrun : rfsRead s f.ip ra = if InBlock s ra then viaBread s f.ip ra else viaRdwr s f.ip ra := by
      rw [rfsRead, href]
    constructor
    · intro h
      have hsame := h.same href
      rw [hbread, hrdwr] at hsame
      have hnow : blkoff s.fs ra.ra_offset.toNat + ra.ra_count.toNat < 2 ^ 32 := by
        by_contra hwrap
        have hsame := hsame (inBlock_of_wrap (Nat.not_lt.1 hwrap))
        rw [if_pos (by omega)] at hsame
        cases hsame
      refine ⟨hnow, fun hle hne => ?_⟩
      have hsame := hsame ((inBlock_iff hnow).2 hle)
      rw [if_neg (by omega)] at hsame
      by_contra hend
      rw [if_pos ⟨hne, Nat.not_lt.1 hend⟩] at hsame
      cases hsame
    · rintro ⟨hnow, hend⟩
      by_cases hin : InBlock s ra
      · have hle := (inBlock_iff hnow).1 hin
        obtain ⟨hcnt, hlen, hdata⟩ := hrgt hle
        refine ⟨fun rr' hrr' => ?_, fun _ _ => ?_⟩
        · rw [hrun, if_pos hin, hbread] at hrr'
          cases hrr'
          exact ⟨hcnt, hlen, hdata⟩
        · rw [hbread, hrdwr, if_neg (by omega), if_neg (fun h => (hend hle h.1).not_ge h.2)]
          simp only [Outcome.sent]
          rw [hdata, hcnt, take_of_length_le (length_bytes _ _ _).le]
      · refine ⟨fun rr' hrr' => ?_, fun _ h => absurd h hin⟩
        rw [hrun, if_neg hin, hrdwr] at hrr'
        split_ifs at hrr'
        cases hrr'
        dsimp only
        rw [length_bytes]
        exact ⟨rfl, le_rfl, take_of_length_le (length_bytes _ _ _).le⟩

/-- A file of two blocks that are not there. -/
def twoHoles : Regular Inode.smallBlocks where
  ip := ⟨8192, fun _ => none, fun _ => none⟩
  shape bn b hb := by
    rw [bmapRead_holes] at hb
    cases hb
  size_lt := by decide

def smallServer : Server where
  fs := Inode.smallBlocks
  heap := 8192
  bsize_le := by decide
  heap_lt := by decide

/-- From the second byte on, the 8191 bytes that there are in the file are sent of a buffer with 4096. -/
theorem rfsRead_beyond : ¬Exact smallServer twoHoles.ip ⟨1, 0xffffffff, none⟩ := by
  intro h
  have hin : InBlock smallServer ⟨1, 0xffffffff, none⟩ := by decide
  have hrun : rfsRead smallServer twoHoles.ip ⟨1, 0xffffffff, none⟩ = .ok ⟨8191, (zeros 4096).drop 1⟩ := by
    rw [rfsRead, if_pos hin]
    rfl
  have hlen := (h.bytes _ hrun).2.1
  rw [length_drop, zeros, length_replicate] at hlen
  exact absurd hlen (by decide)

end Uwisc.Nfs.Read
