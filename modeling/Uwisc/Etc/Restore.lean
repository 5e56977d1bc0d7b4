import Uwisc.Etc.Dump

/-!
# Extracting files

`getfile` of `etc/restore/tape.c`, and how it reads headers, from a tape that `dump` has written
(`cvtflag` is not set). A record is read as a header whatever it is; `none` is a panic, or the end
of the tape.

What a file is made of is a list of pieces: bytes for the first function (`f1`) and lengths for
the second one (`f2`). Only the part of the buffer that records were read to is looked at.
-/

namespace Uwisc.Dump

open Lib

/-- The integer at a place in a record. -/
def long (r : Record) (k : ℕ) : ℕ := decode ((r.drop k).take 4)

/-- What is looked at of the header that was read last (`spcl`). -/
structure Header where
  c_type : ℕ
  c_magic : ℕ
  di_size : ℕ
  /-- `c_addr[0..c_count)`. -/
  c_addr : List UInt8
  deriving DecidableEq

/-- The bytes of a record as a header. -/
def asHeader (r : Record) : Header where
  c_type := long r 0
  c_magic := long r 24
  di_size := long r 40
  c_addr := (r.drop 164).take (long r 160)

/-- How a header was read. -/
inductive Read
  | FAIL (h : Header)
  | GOOD (h : Header)
  | panic
  deriving DecidableEq

/-- The record is a header. -/
def isGood (r : Record) : Bool := long r 24 = NFS_MAGIC ∧ sum r = CHECKSUM

/-- `gethead`, of the record that is read. -/
def gethead (r : Record) : Read :=
  let h := asHeader r
  if !isGood r then .FAIL h
  else if h.c_type = TS_CLRI ∨ h.c_type = TS_BITS then
    .GOOD { h with di_size := h.c_addr.length * TP_BSIZE, c_addr := h.c_addr.map (· + 1) }
  else if h.c_type = TS_TAPE ∨ h.c_type = TS_END ∨ h.c_type = TS_INODE ∨ h.c_type = TS_ADDR then .GOOD h
  else .panic

/-- The types of headers that `findinode` looks for. -/
def Header.found (h : Header) : Bool :=
  h.c_type = TS_INODE ∨ h.c_type = TS_END ∨ h.c_type = TS_CLRI ∨ h.c_type = TS_BITS

/-- The loops of `findinode`: reads headers up to one of those it looks for. -/
def skipTo : List Record → Option (Header × List Record)
  | [] => none
  | r :: tape =>
    match gethead r with
    | .panic => none
    | .FAIL _ => skipTo tape
    | .GOOD h => if h.found then some (h, tape) else skipTo tape

def findinode (h : Header) (tape : List Record) : Option (Header × List Record) :=
  if h.c_magic = NFS_MAGIC ∧ h.found then some (h, tape) else skipTo tape

/-- A piece of a file. -/
inductive Piece
  | f1 (buf : List UInt8)
  | f2 (size : ℕ)
  deriving DecidableEq

/-- The bytes of a piece. -/
def Piece.bytes : Piece → List UInt8
  | .f1 buf => buf
  | .f2 size => List.replicate size 0

/-- The local variables of `getfile`, and the pieces so far. -/
structure Get where
  buf : List Record
  size : ℤ
  out : List Piece

/-- `(*f1)(buf, n)`. -/
def Get.flush (g : Get) (n : ℤ) : Get := { g with buf := [], out := g.out ++ [.f1 (g.buf.flatten.take n.toNat)] }

/-- `size -= TP_BSIZE`. -/
def Get.count (g : Get) : Get := { g with size := g.size - TP_BSIZE }

/-- A record that was read. -/
def Get.data (fssize : ℕ) (g : Get) (r : Record) : Get :=
  let g := { g with buf := g.buf ++ [r] }
  (if g.buf.length = fssize / TP_BSIZE then
    g.flush (if TP_BSIZE < g.size then fssize else (g.buf.length - 1) * TP_BSIZE + g.size)
  else g).count

/-- A record in a hole. -/
def Get.hole (g : Get) : Get :=
  let g :=
    if g.buf ≠ [] then
      g.flush (if TP_BSIZE < g.size then g.buf.length * TP_BSIZE else (g.buf.length - 1) * TP_BSIZE + g.size)
    else g
  Get.count { g with out := g.out ++ [.f2 (if TP_BSIZE < g.size then TP_BSIZE else g.size.toNat)] }

/-- The loop of `getfile` over the records of a header. -/
def getblks (fssize : ℕ) : List UInt8 → List Record → Get → Option (Get × List Record)
  | [], tape, g => some (g, tape)
  | a :: addr, tape, g =>
    if a ≠ 0 then
      match tape with
      | [] => none
      | r :: tape =>
        let g := g.data fssize r
        if g.size ≤ 0 then some (g, tape) else getblks fssize addr tape g
    else
      let g := g.hole
      if g.size ≤ 0 then some (g, tape) else getblks fssize addr tape g

theorem getblks_length {fssize : ℕ} {addr : List UInt8} {tape tape' : List Record} {g g' : Get}
    (h : getblks fssize addr tape g = some (g', tape')) : tape'.length ≤ tape.length := by
  induction addr generalizing tape g with
  | nil =>
    cases h
    exact le_rfl
  | cons a addr ih =>
    simp only [getblks] at h
    split_ifs at h
    · cases tape with
      | nil => cases h
      | cons r tape =>
        simp only at h
        split_ifs at h
        · cases h
          exact Nat.le_succ _
        · exact (ih h).trans (Nat.le_succ _)
    · cases h
      exact le_rfl
    · exact ih h

/-- The end of `getfile`, after a record was read as the header `spcl`: the pieces, the header that is
    found next, and the tape after it. -/
def endfile (g : Get) (spcl : Header) (tape : List Record) : Option (List Piece × Header × List Record) :=
  let g := if g.buf ≠ [] then g.flush (g.buf.length * TP_BSIZE + g.size) else g
  (findinode spcl tape).map fun (spcl, tape) => (g.out, spcl, tape)

/-- `getfile` from the label `loop` on. -/
def getloop (fssize : ℕ) (spcl : Header) (tape : List Record) (g : Get) : Option (List Piece × Header × List Record) :=
  match _h : getblks fssize spcl.c_addr tape g with
  | none => none
  | some (_, []) => none
  | some (g, r :: tape') =>
    match gethead r with
    | .panic => none
    | .FAIL spcl => endfile g spcl tape'
    | .GOOD spcl => if 0 < g.size ∧ spcl.c_type = TS_ADDR then getloop fssize spcl tape' g else endfile g spcl tape'
termination_by tape.length
decreasing_by
  have hle := getblks_length _h
  rw [List.length_cons] at hle
  omega

/-- `getfile`, after the header of a file. -/
def getfile (fssize : ℕ) (spcl : Header) (tape : List Record) : Option (List Piece × Header × List Record) :=
  if spcl.c_type = TS_END ∨ spcl.c_magic ≠ NFS_MAGIC then none else getloop fssize spcl tape ⟨[], spcl.di_size, []⟩

end Uwisc.Dump
