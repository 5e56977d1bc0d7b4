import Mathlib.Data.List.Perm.Subperm
import Uwisc.Lib.Bytes
import Uwisc.Lib.Wrap

/-!
# Mbufs

The buffers of `sys/h/mbuf.h` and the chains that they make, and of `sys/sys/uipc_mbuf.c` the routines that trim
chains and copy data to, from and between them. A chain is the list of its buffers.

The data of a buffer is a part of an area: the `MLEN` bytes of the buffer itself (`Mbuf.Own`), or memory that is
elsewhere, a page cluster or a block of someone else. What is read of an area is memory of bytes, by the places in
it; `m_off` is the place of the data, relative to the buffer, in 32 bits without a sign.
-/

namespace Uwisc.Mbufs

open Lib List

def MSIZE : ℕ := 128

def MMINOFF : ℕ := 12

/-- `MSIZE-MTAIL`. -/
def MMAXOFF : ℕ := 124

/-- `MSIZE-MMINOFF-MTAIL`. -/
def MLEN : ℕ := 112

def CLBYTES : ℕ := 1024

/-- The buffers of `mbutl`: `NMBCLUSTERS*CLBYTES/sizeof (struct mbuf)`. -/
def nmbutl : ℕ := 256 * CLBYTES / MSIZE

def M_COPYALL : ℤ := 1000000000

def MPULL_EXTRA : ℤ := 32

/-- `struct mbuf`. -/
structure Mbuf where
  /-- It is `mbutl[index]`. -/
  index : ℕ
  /-- Where its area is, relative to the buffer. -/
  base : ℕ
  size : ℕ
  area : Mem
  /-- Where the data begins in the area. -/
  pos : ℕ
  m_len : ℤ
  m_type : ℕ
  m_cltype : ℕ

namespace Mbuf

variable (m : Mbuf)

def m_off : ℕ := (m.base + m.pos) % 2 ^ 32

/-- The area is that of the buffer itself. -/
def Own : Prop := m.base = MMINOFF ∧ m.size = MLEN

instance : Decidable m.Own := inferInstanceAs (Decidable (_ ∧ _))

/-- The data, from `k` bytes after `mtod` on. -/
def dataFrom (k n : ℕ) : List UInt8 := bytes m.area (m.pos + k) n

/-- The `m_len` bytes of data. -/
def data : List UInt8 := m.dataFrom 0 m.m_len.toNat

/-- `mtod(m, caddr_t)`, for the address of `mbutl`. -/
def mtod (mbutl : ℕ) : ℕ := (mbutl + MSIZE * m.index + m.m_off) % 2 ^ 32

/-- The lengths and places that buffers have. -/
structure Wf : Prop where
  index_lt : m.index < nmbutl
  len_nonneg : 0 ≤ m.m_len
  len_short : m.m_len ≤ 32767
  fits : m.pos + m.m_len.toNat ≤ m.size
  /-- Areas are pages, or blocks whose length was put into `m_len`. -/
  size_short : m.size ≤ 32767
  /-- `M_HASCL` tells areas apart. -/
  off_ge : ¬m.Own → MSIZE ≤ m.m_off
  cltype : ¬m.Own → m.m_cltype = 1 ∨ m.m_cltype = 2

end Mbuf

/-- What `MGET` makes of a free buffer; its `m_len` is for the caller to set. -/
def mget (index : ℕ) (area : Mem) (m_type : ℕ) (m_len : ℤ) : Mbuf :=
  { index, base := MMINOFF, size := MLEN, area, pos := 0, m_len, m_type, m_cltype := 0 }

/-- The bytes a chain holds. -/
def contents (c : List Mbuf) : List UInt8 := c.flatMap Mbuf.data

/-- A chain of different buffers. -/
structure Chain (c : List Mbuf) : Prop where
  wf : ∀ m ∈ c, m.Wf
  nodup : (c.map Mbuf.index).Nodup

/-! ### Trimming -/

/-- The loop of `m_adj` for `len >= 0`. -/
def trim : ℤ → List Mbuf → List Mbuf
  | _, [] => []
  | len, m :: c =>
    if 0 < len then
      if m.m_len ≤ len then { m with m_len := 0 } :: trim (len - m.m_len) c
      else { m with m_len := wrap 16 (m.m_len - len), pos := m.pos + len.toNat } :: c
    else m :: c

/-- The rescan of `m_adj`: the buffer with the last data is cut to what is left of `count`, and no data is in those
    after it. -/
def cut : ℤ → List Mbuf → List Mbuf
  | _, [] => []
  | count, m :: c =>
    if count ≤ m.m_len then { m with m_len := wrap 16 count } :: c.map fun m => { m with m_len := 0 }
    else m :: cut (count - m.m_len) c

/-- What the scan of `m_adj` counts. -/
def scan : List Mbuf → ℤ
  | [] => 0
  | m :: c => m.m_len + scan c

/-- `m_adj`. -/
def mAdj (c : List Mbuf) (len : ℤ) : List Mbuf :=
  match c.getLast? with
  | none => c
  | some m =>
    if 0 ≤ len then trim len c
    else
      let len := wrap 32 (-len)
      if len ≤ m.m_len then c.dropLast ++ [{ m with m_len := wrap 16 (m.m_len - len) }]
      else cut (wrap 32 (scan c - len)) c

/-! ### Copying out -/

/-- The loop of `m_cpytoc` that skips `off` bytes. -/
def skip : ℤ → List Mbuf → ℤ × List Mbuf
  | off, [] => (off, [])
  | off, m :: c => if off ≠ 0 ∧ m.m_len ≤ off then skip (off - m.m_len) c else (off, m :: c)

/-- The loop of `m_cpytoc` that copies the buffers after the first one: the bytes stored, and `len`. -/
def copyRest : ℤ → List Mbuf → List UInt8 × ℤ
  | len, [] => ([], len)
  | len, m :: c =>
    if len = 0 then ([], 0)
    else
      let r := copyRest (len - m.m_len) c
      (m.data ++ r.1, r.2)

/-- `m_cpytoc`: the bytes that it stores from `cp` on, and what it returns; `none` is its panic. -/
def mCpytoc (c : List Mbuf) (off len : ℤ) : Option (List UInt8 × ℤ) :=
  if c = [] ∨ off < 0 ∨ len < 0 then none
  else
    match skip off c with
    | (_, []) => some ([], len)
    | (off, m :: c) =>
      let ml := min len (m.m_len - off)
      let r := copyRest (len - ml) c
      some (m.dataFrom off.toNat ml.toNat ++ r.1, r.2)

/-- What `m_movtoc` asks of a buffer before it exchanges a page. The answer of `m->m_clswp`, which is false where there is
    none, is `swp`. -/
def Exchanged (swp : Mbuf → ℕ → ℕ → Bool) (mbutl : ℕ) (m : Mbuf) (dst : ℕ) (i : ℤ) : Prop :=
  (CLBYTES : ℤ) ≤ i ∧ m.m_cltype = 2 ∧ m.mtod mbutl % CLBYTES = 0 ∧ dst % CLBYTES = 0 ∧
    swp m (m.mtod mbutl) dst = true

instance (swp : Mbuf → ℕ → ℕ → Bool) (mbutl : ℕ) (m : Mbuf) (dst : ℕ) (i : ℤ) :
    Decidable (Exchanged swp mbutl m dst i) := inferInstanceAs (Decidable (_ ∧ _))

/-- `m_movtoc`: the bytes that come to be from `dst` on, and what it returns. The chain is freed. -/
def mMovtoc (swp : Mbuf → ℕ → ℕ → Bool) (mbutl : ℕ) : List Mbuf → ℕ → ℤ → List UInt8 × ℤ
  | [], _, count => ([], count)
  | m :: c, dst, count =>
    let i := min m.m_len count
    -- the page goes by the exchange, and only what is left is taken off `count`
    let page := if Exchanged swp mbutl m dst i then CLBYTES else 0
    let rest := i - page
    let r := mMovtoc swp mbutl c (dst + page + rest.toNat) (if 0 < rest then count - rest else count)
    (m.dataFrom 0 page ++ m.dataFrom page rest.toNat ++ r.1, r.2)

/-! ### Buffers and their data -/

namespace Mbuf

variable {m : Mbuf} {k n : ℕ}

@[simp] theorem length_dataFrom (m : Mbuf) (k n : ℕ) : (m.dataFrom k n).length = n := length_bytes ..

@[simp] theorem length_data (m : Mbuf) : m.data.length = m.m_len.toNat := length_bytes ..

theorem take_data (m : Mbuf) (h : k ≤ m.m_len.toNat) : m.data.take k = m.dataFrom 0 k := by
  rw [data, dataFrom, take_bytes, Nat.min_eq_left h, dataFrom]

theorem drop_data (m : Mbuf) (k : ℕ) : m.data.drop k = m.dataFrom k (m.m_len.toNat - k) := by
  rw [data, dataFrom, drop_bytes, dataFrom, add_zero]

end Mbuf

@[simp] theorem contents_nil : contents [] = [] := rfl

@[simp] theorem contents_cons (m : Mbuf) (c : List Mbuf) : contents (m :: c) = m.data ++ contents c := flatMap_cons

@[simp] theorem contents_append (c d : List Mbuf) : contents (c ++ d) = contents c ++ contents d := flatMap_append

variable {m : Mbuf} {c : List Mbuf}

theorem wf_mget {index m_type : ℕ} {m_len : ℤ} (area : Mem) (hidx : index < nmbutl) (hnon : 0 ≤ m_len)
    (hle : m_len ≤ MLEN) : (mget index area m_type m_len).Wf where
  index_lt := hidx
  len_nonneg := hnon
  len_short := by
    rw [MLEN] at hle
    exact hle.trans (by decide)
  fits := by
    change 0 + m_len.toNat ≤ MLEN
    omega
  size_short := by
    change MLEN ≤ 32767
    decide
  off_ge h := absurd ⟨rfl, rfl⟩ h
  cltype h := absurd ⟨rfl, rfl⟩ h

theorem Chain.length_le (h : Chain c) : c.length ≤ nmbutl := by
  have hsub : c.map Mbuf.index ⊆ range nmbutl := by
    intro i hi
    obtain ⟨m, hm, rfl⟩ := mem_map.1 hi
    exact mem_range.2 (h.wf m hm).index_lt
  have hle := (subperm_of_subset h.nodup hsub).length_le
  rwa [length_map, length_range] at hle

theorem scan_eq (h : ∀ m ∈ c, 0 ≤ m.m_len) : scan c = (contents c).length := by
  induction c with
  | nil => rfl
  | cons m c ih =>
    obtain ⟨hm, hc⟩ := forall_mem_cons.1 h
    rw [scan, ih hc, contents_cons, length_append, Mbuf.length_data]
    omega

theorem length_contents_le (h : ∀ m ∈ c, m.m_len ≤ 32767) : (contents c).length ≤ 32767 * c.length := by
  induction c with
  | nil => simp
  | cons m c ih =>
    obtain ⟨hm, hc⟩ := forall_mem_cons.1 h
    have hle := ih hc
    rw [contents_cons, length_append, Mbuf.length_data, length_cons]
    omega

/-- The bytes of a chain are few enough for an `int`. -/
theorem Chain.length_contents_lt (h : Chain c) : (contents c).length < 2 ^ 27 := by
  have hle := length_contents_le fun m hm => (h.wf m hm).len_short
  have hlen := h.length_le
  rw [nmbutl, CLBYTES, MSIZE] at hlen
  omega

/-- Buffers of two bytes and of one. -/
def threeBytes : List Mbuf := [mget 0 (fun _ => 0) 1 2, mget 1 (fun _ => 0) 1 1]

theorem chain_threeBytes : Chain threeBytes := by
  refine ⟨?_, by decide⟩
  rw [threeBytes, forall_mem_cons, forall_mem_singleton]
  exact ⟨wf_mget _ (by decide) (by decide) (by decide), wf_mget _ (by decide) (by decide) (by decide)⟩

end Uwisc.Mbufs
