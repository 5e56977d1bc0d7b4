import Mathlib.Data.List.Basic
import Mathlib.Algebra.Order.Ring.Int

/-!
# IP: headers and chains of buffers

The data of the IP of `sys/netinet`: the header of a packet (`ip.h`), in host
order and without its options, and the chains of `mbuf`s packets are in
(`mbuf.h`), as far as IP moves and cuts their bytes.

The lengths, which are `short`, are the integers they hold; the field of the
fragment offset, whose upper bits are flags, is a word of 16 bits.
-/

namespace Uwisc.Ip

open BitVec List

/-- `IP_DF`. -/
def ipDf : BitVec 16 := 0x4000

/-- `IP_MF`. -/
def ipMf : BitVec 16 := 0x2000

/-- `sizeof (struct ip)`. -/
def sizeofIp : ℕ := 20

/-- The header of a packet (`struct ip`). -/
structure IpHdr where
  ip_v : ℕ := 4
  ip_hl : ℕ := 5
  ip_tos : BitVec 8 := 0
  ip_len : ℤ
  ip_id : BitVec 16 := 0
  ip_off : BitVec 16 := 0
  ip_ttl : BitVec 8 := 0
  ip_p : BitVec 8 := 0
  ip_sum : BitVec 16 := 0
  ip_src : BitVec 32 := 0
  ip_dst : BitVec 32 := 0
  deriving DecidableEq, Repr

/-! ### Chains of buffers -/

/-- A buffer: the `m_len` bytes of data at `m_off`, and the bytes it holds before
    these, which moving `m_off` back makes data again. -/
structure Mbuf where
  before : List UInt8 := []
  data : List UInt8
  deriving DecidableEq, Repr

/-- The bytes a chain of buffers holds. -/
def contents (c : List Mbuf) : List UInt8 := c.flatMap Mbuf.data

/-- Removes `len` bytes from the start of a chain (`m_adj`, for `len >= 0`). A buffer
    that is emptied keeps its `m_off`. -/
def mAdj : ℕ → List Mbuf → List Mbuf
  | _, [] => []
  | len, m :: c =>
    if len = 0 then m :: c
    else if m.data.length ≤ len then { m with data := [] } :: mAdj (len - m.data.length) c
    else { before := m.before ++ m.data.take len, data := m.data.drop len } :: c

/-- Leaves the first `count` bytes of a chain, and no data in the buffers after these. -/
def truncate : ℕ → List Mbuf → List Mbuf
  | _, [] => []
  | count, m :: c =>
    if count ≤ m.data.length then
      { m with data := m.data.take count } :: c.map fun m => { m with data := [] }
    else m :: truncate (count - m.data.length) c

/-- Removes `len` bytes from the end of a chain that has as many (`m_adj`, for `len < 0`). -/
def mAdjTail (len : ℕ) (c : List Mbuf) : List Mbuf :=
  match c.getLast? with
  | none => []
  | some m =>
    -- the adjustment only affects the last buffer
    if len ≤ m.data.length then
      c.dropLast ++ [{ m with data := m.data.take (m.data.length - len) }]
    else truncate ((contents c).length - len) c

/-- `m->m_off += n; m->m_len -= n` on the first buffer. -/
def hide (n : ℕ) : List Mbuf → List Mbuf
  | [] => []
  | m :: c => { before := m.before ++ m.data.take n, data := m.data.drop n } :: c

/-- `m->m_len += n; m->m_off -= n` on the first buffer. -/
def unhide (n : ℕ) : List Mbuf → List Mbuf
  | [] => []
  | m :: c =>
    let k := m.before.length - n
    { before := m.before.take k, data := m.before.drop k ++ m.data } :: c

@[simp] theorem contents_nil : contents [] = [] := rfl

@[simp] theorem contents_cons (m : Mbuf) (c : List Mbuf) :
    contents (m :: c) = m.data ++ contents c := by
  simp [contents]

@[simp] theorem contents_append (c d : List Mbuf) : contents (c ++ d) = contents c ++ contents d := by
  simp [contents]

theorem contents_mAdj (n : ℕ) (c : List Mbuf) : contents (mAdj n c) = (contents c).drop n := by
  induction c generalizing n with
  | nil => simp [mAdj]
  | cons m c ih =>
    rw [mAdj]
    split_ifs with h0 h1
    · simp [h0]
    · rw [contents_cons, contents_cons, ih, drop_append, drop_eq_nil_of_le h1]
    · rw [contents_cons, contents_cons, drop_append_of_le_length (not_le.1 h1).le]

theorem contents_truncate (n : ℕ) (c : List Mbuf) :
    contents (truncate n c) = (contents c).take n := by
  induction c generalizing n with
  | nil => simp [truncate]
  | cons m c ih =>
    rw [truncate, contents_cons, take_append]
    split_ifs with h
    · have hrs : contents (c.map fun m => { m with data := [] }) = [] := by
        simp [contents, flatMap_map]
      rw [contents_cons, hrs, Nat.sub_eq_zero_of_le h, take_zero]
    · rw [contents_cons, ih, take_of_length_le (not_le.1 h).le]

theorem contents_mAdjTail (n : ℕ) (c : List Mbuf) :
    contents (mAdjTail n c) = (contents c).take ((contents c).length - n) := by
  rw [mAdjTail]
  split
  case h_1 hlast =>
    rw [List.getLast?_eq_none_iff.1 hlast, contents_nil, take_nil]
  case h_2 m hlast =>
    split_ifs with h
    · obtain ⟨d, rfl⟩ := List.getLast?_eq_some_iff.1 hlast
      have hlen : (contents (d ++ [m])).length - n = (contents d).length + (m.data.length - n) := by
        simp only [contents_append, contents_cons, contents_nil, length_append, append_nil]
        omega
      rw [hlen, dropLast_concat, contents_append, contents_append, contents_cons, contents_cons,
        contents_nil, append_nil, append_nil, take_length_add_append]
    · rw [contents_truncate]

theorem contents_unhide {n : ℕ} {m : Mbuf} (h : n ≤ m.before.length) (c : List Mbuf) :
    ∃ hdr, hdr.length = n ∧ contents (unhide n (m :: c)) = hdr ++ contents (m :: c) := by
  refine ⟨m.before.drop (m.before.length - n), ?_, ?_⟩
  · rw [length_drop]
    omega
  · simp [unhide]

/-! ### The field of the fragment offset -/

/-- The offset of a fragment, in units of eight bytes. -/
def offset (ip_off : BitVec 16) : ℕ := (ip_off &&& 0x1fff).toNat

theorem offset_eq (x : BitVec 16) : offset x = x.toNat % 8192 := by
  rw [offset, toNat_and]
  exact Nat.and_two_pow_sub_one_eq_mod x.toNat 13

theorem ipMf_getLsbD : ∀ i < 16, ipMf.getLsbD i = decide (i = 13) := by decide

theorem and_ipMf_eq_zero (x : BitVec 16) : x &&& ipMf = 0 ↔ x.toNat / 8192 % 2 = 0 := by
  have hbit : x &&& ipMf = 0 ↔ x.getLsbD 13 = false := by
    refine ⟨fun h => ?_, fun h => eq_of_getLsbD_eq fun i hi => ?_⟩
    · have h13 := congrArg (getLsbD · 13) h
      simp only [getLsbD_and, ipMf_getLsbD 13 (by decide)] at h13
      simpa using h13
    · rw [getLsbD_and, ipMf_getLsbD i hi]
      by_cases h13 : i = 13
      · rw [h13, h]
        rfl
      · simp [h13]
  rw [hbit, ← testBit_toNat, Nat.testBit_eq_decide_div_mod_eq, decide_eq_false_iff_not]
  omega

@[simp] theorem or_ipMf_and_ipMf (x : BitVec 16) : (x ||| ipMf) &&& ipMf = ipMf := by
  refine eq_of_getLsbD_eq fun i hi => ?_
  rw [getLsbD_and, getLsbD_or]
  cases x.getLsbD i <;> simp

theorem and_not_ipMf_and_ipMf (x : BitVec 16) : x &&& ~~~ipMf &&& ipMf = 0 := by
  rw [BitVec.and_assoc, show ~~~ipMf &&& ipMf = (0 : BitVec 16) by decide]
  exact and_zero

@[simp] theorem offset_or_ipMf (x : BitVec 16) : offset (x ||| ipMf) = offset x := by
  rw [offset, and_or_distrib_right, show ipMf &&& 0x1fff = 0#16 by decide, or_zero, offset]

@[simp] theorem offset_and_not_ipMf (x : BitVec 16) : offset (x &&& ~~~ipMf) = offset x := by
  rw [offset, BitVec.and_assoc, show ~~~ipMf &&& 0x1fff = (0x1fff : BitVec 16) by decide, offset]

end Uwisc.Ip
