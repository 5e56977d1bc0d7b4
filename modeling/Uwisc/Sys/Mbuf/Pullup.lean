import Mathlib.Tactic.Linarith
import Uwisc.Sys.Mbuf

/-!
# Moving data between buffers

`m_copy`, `m_cat` and `m_pullup`: they copy data to the end of what a buffer has in its area (`Mbuf.append`), take buffers
from the list `mfree` and give them back to it. A store past the end of an area is not followed further
(`Outcome.stuck`), nor is a panic.

Copies and concatenations hold what they are to (`mCopy_spec`, `mCat_spec`). `m_pullup` does, but for a first buffer that
lies a little above its cluster: `m_off + len` is then past `2 ^ 32`, passes for small, and the data is put together in
the cluster (`moves_iff`).
-/

namespace Uwisc.Mbufs

open Lib List Option

/-- Puts bytes behind the data of a buffer. -/
def Mbuf.append (m : Mbuf) (l : List UInt8) : Option Mbuf :=
  if m.pos + m.m_len.toNat + l.length ≤ m.size then
    some { m with area := store m.area (m.pos + m.m_len.toNat) l, m_len := wrap 16 (m.m_len + l.length) }
  else none

/-- What becomes of a call: the chain that it returns, which is empty for `NULL`, and the free buffers. -/
inductive Outcome
  | stuck
  | ret (c : List Mbuf) (mfree : List ℕ)

/-- The chain has one more buffer before it. -/
def Outcome.cons (m : Mbuf) : Outcome → Outcome
  | stuck => stuck
  | ret c mfree => ret (m :: c) mfree

/-- `m_freem`. -/
def freem (c : List Mbuf) (mfree : List ℕ) : List ℕ := (c.map Mbuf.index).reverse ++ mfree

/-- What buffers hold that are not in use, and where `kmem_alloc` finds a block for one of them. -/
structure Env where
  dat : ℕ → Mem
  kmem : ℕ → ℕ

variable (e : Env)

/-! ### `m_copy` -/

/-- `mcldup(m, n, off)` and `n->m_off += off`, for the buffer `i` and `n->m_len`; other clusters panic. -/
def mcldup (m : Mbuf) (i : ℕ) (off m_len : ℤ) : Option Mbuf :=
  if m.m_cltype = 1 then
    -- the same page, as it lies from there
    some { m with index := i, base := (m.base + MSIZE * m.index + (2 ^ 32 - MSIZE * i % 2 ^ 32)) % 2 ^ 32,
                  pos := m.pos + off.toNat, m_len }
  else if m.m_cltype = 2 then
    some { index := i, base := e.kmem i, size := m_len.toNat,
           area := store (fun _ => 0) 0 (m.dataFrom off.toNat m_len.toNat), pos := 0, m_len,
           m_type := m.m_type, m_cltype := 2 }
  else none

/-- The copy of a buffer of the chain. -/
def copyOne (m : Mbuf) (i : ℕ) (off m_len : ℤ) : Option Mbuf :=
  if MMAXOFF < m.m_off ∧ (MLEN : ℤ) < m_len then mcldup e m i off m_len
  else (mget i (e.dat i) m.m_type 0).append (m.dataFrom off.toNat m_len.toNat)

/-- The second loop of `m_copy`. The buffers of `top` are freed again if there are not enough. -/
def copyLoop : List Mbuf → ℤ → ℤ → List ℕ → List Mbuf → Outcome
  | [], _, len, mfree, top =>
    if len ≤ 0 then .ret top mfree
    else if len ≠ M_COPYALL then .stuck
    else .ret top mfree
  | m :: c, off, len, mfree, top =>
    if len ≤ 0 then .ret top mfree
    else
      match mfree with
      | [] => .ret [] (freem top [])
      | i :: mfree =>
        match copyOne e m i off (min len (m.m_len - off)) with
        | none => .stuck
        | some n => copyLoop c 0 (if len ≠ M_COPYALL then len - n.m_len else len) mfree (top ++ [n])

/-- The first loop of `m_copy`. -/
def skipTo : ℤ → List Mbuf → Option (ℤ × List Mbuf)
  | off, [] => if 0 < off then none else some (off, [])
  | off, m :: c => if 0 < off then if off < m.m_len then some (off, m :: c) else skipTo (off - m.m_len) c
                   else some (off, m :: c)

def mCopy (c : List Mbuf) (off len : ℤ) (mfree : List ℕ) : Outcome :=
  if len = 0 then .ret [] mfree
  else if off < 0 ∨ len < 0 then .stuck
  else
    match skipTo off c with
    | none => .stuck
    | some (off, c) => copyLoop e c off len mfree []

/-! ### `m_cat` -/

/-- From the last buffer of the first chain on. -/
def catLoop (m : Mbuf) : List Mbuf → List ℕ → Outcome
  | [], mfree => .ret [m] mfree
  | n :: c, mfree =>
    if MMAXOFF ≤ m.m_off ∨ (MMAXOFF : ℤ) < (m.m_off + m.m_len + n.m_len) % 2 ^ 32 then .ret (m :: n :: c) mfree
    else
      match m.append n.data with
      | none => .stuck
      | some m => catLoop m c (n.index :: mfree)

/-- `m_cat`, of the chain `m :: c` and of `n`. -/
def mCat (m : Mbuf) : List Mbuf → List Mbuf → List ℕ → Outcome
  | [], n, mfree => catLoop m n mfree
  | m' :: c, n, mfree => (mCat m' c n mfree).cons m

/-! ### `m_pullup` -/

/-- The buffer with the data pulled up, how many bytes it is short of, the rest of the chain, and the free buffers. -/
structure Pull where
  m : Mbuf
  len : ℤ
  n : List Mbuf
  mfree : List ℕ

/-- A pass: the bytes of the first buffer go behind the data, and the buffer is freed if none is left. -/
def Pull.pass (p : Pull) (m' n : Mbuf) (c : List Mbuf) (count : ℤ) : Pull :=
  if n.m_len - count ≠ 0 then
    ⟨m', p.len - count, { n with m_len := n.m_len - count, pos := n.pos + count.toNat } :: c, p.mfree⟩
  else ⟨m', p.len - count, c, n.index :: p.mfree⟩

/-- The loop of `m_pullup`, if it takes `fuel` passes at most. -/
def pullLoop (space : ℤ) : ℕ → Pull → Option Pull
  | 0, _ => none
  | fuel + 1, p =>
    match p.n with
    | [] => some p
    | n :: c =>
      let count := min (min (space - p.m.m_len) (p.len + MPULL_EXTRA)) n.m_len
      -- a count below zero is a large one for `bcopy`
      if count < 0 then none
      else
        match p.m.append (n.dataFrom 0 count.toNat) with
        | none => none
        | some m =>
          let p := p.pass m n c count
          if 0 < p.len ∧ p.n ≠ [] then pullLoop space fuel p else some p

/-- What is done after the loop. -/
def pulled : Option Pull → Outcome
  | none => .stuck
  | some p => if 0 < p.len then .ret [] (freem p.n (p.m.index :: p.mfree)) else .ret (p.m :: p.n) p.mfree

/-- `m_pullup`, of the chain `n :: c`. -/
def mPullup (fuel : ℕ) (n : Mbuf) (c : List Mbuf) (len : ℤ) (mfree : List ℕ) : Outcome :=
  if (n.m_off + len) % 2 ^ 32 ≤ (MMAXOFF : ℤ) ∧ c ≠ [] then
    pulled (pullLoop (wrap 32 (MMAXOFF - n.m_off)) fuel ⟨n, len - n.m_len, c, mfree⟩)
  else if (MLEN : ℤ) < len then .ret [] (freem (n :: c) mfree)
  else
    match mfree with
    | [] => .ret [] (freem (n :: c) [])
    | i :: mfree =>
      let m := mget i (e.dat i) n.m_type 0
      pulled (pullLoop (wrap 32 (MMAXOFF - m.m_off)) fuel ⟨m, len, n :: c, mfree⟩)

/-! ### Bytes put behind the data -/

variable {e} {m m' n : Mbuf} {c d top : List Mbuf} {l : List UInt8} {off len k space : ℤ} {i fuel : ℕ} {mfree : List ℕ}

/-- What `append` leaves. -/
structure Appended (m : Mbuf) (l : List UInt8) (m' : Mbuf) : Prop where
  index : m'.index = m.index
  base : m'.base = m.base
  size : m'.size = m.size
  pos : m'.pos = m.pos
  cltype : m'.m_cltype = m.m_cltype
  m_len : m'.m_len = m.m_len + l.length
  data : m'.data = m.data ++ l
  fits : m'.pos + m'.m_len.toNat ≤ m'.size

theorem append_spec (h : m.append l = some m') (hlen : 0 ≤ m.m_len) (hsize : m.size ≤ 32767) : Appended m l m' := by
  rw [Mbuf.append] at h
  split_ifs at h with hfits
  cases h
  have hwrap : wrap 16 (m.m_len + l.length) = m.m_len + l.length := wrap_short (by omega) (by omega)
  have hnat : (m.m_len + l.length).toNat = m.m_len.toNat + l.length := by omega
  refine ⟨rfl, rfl, rfl, rfl, rfl, hwrap, ?_, ?_⟩
  · have hbef := (sameOn_store (.inl le_rfl) : SameOn m.area (store m.area (m.pos + m.m_len.toNat) l) m.pos _)
    simp only [Mbuf.data, Mbuf.dataFrom, hwrap, hnat, add_zero]
    rw [bytes_add, bytes_store, hbef.bytes_eq le_rfl le_rfl]
  · dsimp only
    rw [hwrap]
    omega

theorem append_returns (h : m.pos + m.m_len.toNat + l.length ≤ m.size) : ∃ m', m.append l = some m' :=
  ⟨_, if_pos h⟩

theorem Mbuf.Wf.off_lt (h : m.Wf) : m.Own ↔ m.m_off ≤ MMAXOFF := by
  have hfits := h.fits
  constructor
  · rintro ⟨hbase, hsize⟩
    rw [Mbuf.m_off, hbase, MMINOFF, MMAXOFF]
    rw [hsize, MLEN] at hfits
    omega
  · intro hoff
    by_contra hown
    have hge := h.off_ge hown
    rw [MSIZE] at hge
    rw [MMAXOFF] at hoff
    omega

theorem Appended.wf (h : Appended m l m') (hm : m.Wf) : m'.Wf where
  index_lt := h.index ▸ hm.index_lt
  len_nonneg := by
    have := hm.len_nonneg
    rw [h.m_len]
    omega
  len_short := by
    have := h.fits
    have := hm.size_short
    rw [h.size] at *
    omega
  fits := h.fits
  size_short := h.size ▸ hm.size_short
  off_ge hown := by
    rw [Mbuf.Own, h.base, h.size] at hown
    rw [Mbuf.m_off, h.base, h.pos]
    exact hm.off_ge hown
  cltype hown := by
    rw [Mbuf.Own, h.base, h.size] at hown
    rw [h.cltype]
    exact hm.cltype hown

/-! ### Copies -/

theorem copyOne_spec (hm : m.Wf) (hoff : 0 ≤ off) (hk : 0 ≤ k) (hle : off + k ≤ m.m_len) :
    ∃ n, copyOne e m i off k = some n ∧ n.data = (m.data.drop off.toNat).take k.toNat ∧ n.m_len = k ∧ n.index = i := by
  have hdata : (m.data.drop off.toNat).take k.toNat = m.dataFrom off.toNat k.toNat := by
    rw [m.drop_data, Mbuf.dataFrom, Mbuf.dataFrom, take_bytes, Nat.min_eq_left (by omega)]
  rw [hdata, copyOne]
  split_ifs with hclu
  · have hown : ¬m.Own := fun hown => absurd (hm.off_lt.1 hown) (not_le.2 hclu.1)
    rw [mcldup]
    rcases hm.cltype hown with hone | htwo
    · rw [if_pos hone]
      refine ⟨_, rfl, ?_, rfl, rfl⟩
      rfl
    · rw [if_neg (by omega), if_pos htwo]
      refine ⟨_, rfl, ?_, rfl, rfl⟩
      have hstore := bytes_store (fun _ => 0) 0 (m.dataFrom off.toNat k.toNat)
      rw [Mbuf.length_dataFrom] at hstore
      exact hstore
  · have hsml : k ≤ MLEN := by
      by_contra hlrg
      have hown : m.Own := hm.off_lt.2 (not_lt.1 fun hlt => hclu ⟨hlt, not_le.1 hlrg⟩)
      have hfits := hm.fits
      rw [hown.2] at hfits
      omega
    obtain ⟨n, hn⟩ := append_returns (m := mget i (e.dat i) m.m_type 0) (l := m.dataFrom off.toNat k.toNat) (by
      rw [Mbuf.length_dataFrom]
      change 0 + 0 + k.toNat ≤ MLEN
      omega)
    have happ := append_spec hn le_rfl (show MLEN ≤ 32767 by decide)
    refine ⟨n, hn, ?_, ?_, happ.index⟩
    · rw [happ.data]
      rfl
    · rw [happ.m_len, Mbuf.length_dataFrom]
      change 0 + (k.toNat : ℤ) = k
      omega

theorem skipTo_spec (h : ∀ m ∈ c, m.Wf) (hoff : 0 ≤ off) (hle : off ≤ (contents c).length) :
    ∃ k d, skipTo off c = some (k, d) ∧ 0 ≤ k ∧ k ≤ off ∧ (contents c).drop off.toNat = (contents d).drop k.toNat ∧
      (contents c).length = off - k + (contents d).length ∧ (∀ m ∈ d, m.Wf) ∧ d.length ≤ c.length ∧
      (k = 0 ∨ ∃ m d', d = m :: d' ∧ k < m.m_len) := by
  induction c generalizing off with
  | nil =>
    have hzero : off = 0 := by
      rw [contents_nil, length_nil] at hle
      omega
    subst hzero
    exact ⟨0, [], rfl, le_rfl, le_rfl, rfl, rfl, h, le_rfl, .inl rfl⟩
  | cons m c ih =>
    obtain ⟨hm, hc⟩ := forall_mem_cons.1 h
    have hnon := hm.len_nonneg
    have hleng : ((contents (m :: c)).length : ℤ) = m.m_len + (contents c).length := by
      rw [contents_cons, length_append, Mbuf.length_data]
      omega
    rw [skipTo]
    split_ifs with hpos hlt
    · exact ⟨off, m :: c, rfl, hoff, le_rfl, rfl, by omega, h, le_rfl, .inr ⟨m, c, rfl, hlt⟩⟩
    · have hoff' : 0 ≤ off - m.m_len := by omega
      obtain ⟨k, d, hskip, hk, hkle, hdrop, hleng', hd, hle', hstop⟩ := ih hc hoff' (by omega)
      refine ⟨k, d, hskip, hk, by omega, ?_, by omega, hd, hle'.trans (Nat.le_succ _), hstop⟩
      have hall : m.data.length ≤ off.toNat := by
        rw [Mbuf.length_data]
        omega
      have hsub : off.toNat - m.data.length = (off - m.m_len).toNat := by
        rw [Mbuf.length_data]
        omega
      rw [contents_cons, drop_append, drop_eq_nil_of_le hall, hsub, nil_append, hdrop]
    · have hzero : off = 0 := by omega
      subst hzero
      exact ⟨0, m :: c, rfl, le_rfl, le_rfl, rfl, by omega, h, le_rfl, .inl rfl⟩

/-- What a call that takes free buffers for a copy leaves: the bytes, or nothing if there were too few, and no buffer is
    lost. -/
def Copied (l : List UInt8) (enough : Prop) (mfree : List ℕ) (r : Outcome) : Prop :=
  ∃ d mfree', r = .ret d mfree' ∧ d.map Mbuf.index ++ mfree' ~ mfree ∧ (contents d = l ∨ d = [] ∧ ¬enough)

theorem perm_freem (c : List Mbuf) (mfree : List ℕ) : freem c mfree ~ c.map Mbuf.index ++ mfree :=
  (reverse_perm _).append_right _

theorem copyLoop_spec (h : ∀ m ∈ c, m.Wf) (hoff : 0 ≤ off) (hstop : off = 0 ∨ ∃ m d, c = m :: d ∧ off < m.m_len)
    (hlen : 0 ≤ len) (hall : (contents c).length ≤ M_COPYALL)
    (hle : len = M_COPYALL ∨ off + len ≤ (contents c).length) :
    Copied (contents top ++ ((contents c).drop off.toNat).take len.toNat) (c.length ≤ mfree.length)
      (top.map Mbuf.index ++ mfree) (copyLoop e c off len mfree top) := by
  induction c generalizing off len mfree top with
  | nil =>
    have hzero : off = 0 := hstop.resolve_right (by simp)
    rw [copyLoop, contents_nil, drop_nil, take_nil, append_nil]
    split_ifs with hdone hcop
    · exact ⟨top, mfree, rfl, .refl _, .inl rfl⟩
    · rw [contents_nil, length_nil] at hle
      exact absurd hle (by push_cast; omega)
    · exact ⟨top, mfree, rfl, .refl _, .inl rfl⟩
  | cons m c ih =>
    obtain ⟨hm, hc⟩ := forall_mem_cons.1 h
    have hnon := hm.len_nonneg
    have hleng : ((contents (m :: c)).length : ℤ) = m.m_len + (contents c).length := by
      rw [contents_cons, length_append, Mbuf.length_data]
      omega
    have hoffle : off ≤ m.m_len := by
      rcases hstop with rfl | ⟨m', d, hcons, hlt⟩
      · exact hnon
      · obtain ⟨rfl, -⟩ := cons_eq_cons.1 hcons
        exact hlt.le
    have hdone (hdone : len ≤ 0) : Copied (contents top ++ ((contents (m :: c)).drop off.toNat).take len.toNat)
        ((m :: c).length ≤ mfree.length) (top.map Mbuf.index ++ mfree) (.ret top mfree) := by
      have hzero : len.toNat = 0 := by omega
      rw [hzero, take_zero, append_nil]
      exact ⟨top, mfree, rfl, .refl _, .inl rfl⟩
    cases mfree with
    | nil =>
      rw [copyLoop]
      split_ifs with hle
      · exact hdone hle
      · exact ⟨[], _, rfl, perm_freem top [], .inr ⟨rfl, by simp⟩⟩
    | cons i mfree =>
      rw [copyLoop]
      by_cases hpos : len ≤ 0
      · rw [if_pos hpos]
        exact hdone hpos
      · rw [if_neg hpos]
        have hmin : 0 ≤ min len (m.m_len - off) := le_min (not_le.1 hpos).le (sub_nonneg.2 hoffle)
        obtain ⟨n, hn, hdata, hnlen, hidx⟩ := copyOne_spec (e := e) (i := i) hm hoff hmin (by omega)
        rw [hn]
        dsimp only
        rw [hnlen]
        have hlen' : 0 ≤ if len ≠ M_COPYALL then len - min len (m.m_len - off) else len := by
          split_ifs <;> omega
        have hle' : (if len ≠ M_COPYALL then len - min len (m.m_len - off) else len) = M_COPYALL ∨
            0 + (if len ≠ M_COPYALL then len - min len (m.m_len - off) else len) ≤ (contents c).length := by
          split_ifs with hcop
          · refine .inr ?_
            have hle := hle.resolve_left hcop
            omega
          · exact .inl (not_not.1 hcop)
        have hrs : Copied _ _ _ (copyLoop e c 0 _ mfree (top ++ [n])) := ih hc le_rfl (.inl rfl) hlen' (by omega) hle'
        obtain ⟨d, mfree', hloop, hperm, hcon⟩ := hrs
        refine ⟨d, mfree', hloop, ?_, ?_⟩
        · rw [map_append, append_assoc] at hperm
          rw [← hidx]
          exact hperm
        · refine hcon.imp (fun hcon => ?_) (And.imp_right fun hfew => by simpa using hfew)
          rw [hcon, contents_append, contents_cons, contents_nil, append_nil, append_assoc, hdata, Int.toNat_zero,
            drop_zero]
          congr 1
          -- what the buffer has from `off` on, and then the rest of the chain
          have hdrop : (contents (m :: c)).drop off.toNat = m.data.drop off.toNat ++ contents c := by
            rw [contents_cons, drop_append_of_le_length (by rw [Mbuf.length_data]; omega)]
          have hrs : (m.data.drop off.toNat).length = (m.m_len - off).toNat := by
            rw [length_drop, Mbuf.length_data]
            omega
          have hmin' : (min len (m.m_len - off)).toNat = min len.toNat (m.data.drop off.toNat).length := by
            rw [hrs]
            omega
          rw [hdrop, take_append, hmin', ← take_eq_take_min]
          congr 1
          split_ifs with hcop
          · have hleft : (len - min len (m.m_len - off)).toNat = len.toNat - (m.m_len - off).toNat := by omega
            rw [hrs, hleft]
          · rw [not_not] at hcop
            rw [take_of_length_le (by omega), take_of_length_le (by omega)]

/-- `m_copy`, where it does not panic. -/
theorem mCopy_spec (h : Chain c) (hoff : 0 ≤ off) (hlen : 0 ≤ len) (mfree : List ℕ)
    (hle : off + len ≤ (contents c).length ∨ len = M_COPYALL ∧ off ≤ (contents c).length) :
    Copied (((contents c).drop off.toNat).take len.toNat) (c.length ≤ mfree.length) mfree (mCopy e c off len mfree) := by
  have hbnd := h.length_contents_lt
  rw [mCopy]
  split_ifs with hzero hneg
  · rw [hzero, Int.toNat_zero, take_zero]
    exact ⟨[], mfree, rfl, .refl _, .inl rfl⟩
  · omega
  · obtain ⟨k, d, hskip, hk, hkle, hdrop, hleng, hd, hle', hstop⟩ := skipTo_spec h.wf hoff (by omega)
    have hall : (contents d).length ≤ M_COPYALL := by
      rw [M_COPYALL]
      omega
    have hleft : len = M_COPYALL ∨ k + len ≤ (contents d).length :=
      hle.elim (fun hle => .inr (by linarith)) fun hle => .inl hle.1
    have hloop : Copied _ _ _ (copyLoop e d k len mfree []) := copyLoop_spec hd hk hstop hlen hall hleft
    obtain ⟨t, mfree', hret, hperm, hcon⟩ := hloop
    rw [hskip]
    refine ⟨t, mfree', hret, hperm, ?_⟩
    rw [hdrop]
    exact hcon.imp_right (And.imp_right fun hfew hmany => hfew (hle'.trans hmany))

/-! ### Concatenation -/

theorem catLoop_spec (hm : m.Wf) (hc : ∀ n ∈ c, n.Wf) (mfree : List ℕ) :
    ∃ d mfree', catLoop m c mfree = .ret d mfree' ∧ contents d = m.data ++ contents c ∧
      d.map Mbuf.index ++ mfree' ~ m.index :: c.map Mbuf.index ++ mfree := by
  induction c generalizing m mfree with
  | nil => exact ⟨[m], mfree, rfl, rfl, .refl _⟩
  | cons n c ih =>
    obtain ⟨hn, hc⟩ := forall_mem_cons.1 hc
    rw [catLoop]
    split_ifs with hjoin
    · exact ⟨m :: n :: c, mfree, rfl, rfl, .refl _⟩
    · obtain ⟨hoff, hroom⟩ := not_or.1 hjoin
      have hown : m.Own := hm.off_lt.2 (not_le.1 hoff).le
      have hnon := hm.len_nonneg
      have hnon' := hn.len_nonneg
      have hsht := hm.len_short
      have hsht' := hn.len_short
      have hfits := hm.fits
      have hplc : m.m_off = MMINOFF + m.pos := by
        rw [Mbuf.m_off, hown.1]
        rw [hown.2, MLEN] at hfits
        rw [MMINOFF]
        omega
      obtain ⟨m', hm'⟩ := append_returns (m := m) (l := n.data) (by
        rw [hown.2, MLEN, Mbuf.length_data]
        rw [hplc, MMINOFF, MMAXOFF] at hroom
        rw [hown.2, MLEN] at hfits
        omega)
      have happ := append_spec hm' hnon hm.size_short
      obtain ⟨d, mfree', hret, hdata, hperm⟩ := ih (happ.wf hm) hc (n.index :: mfree)
      rw [hm']
      refine ⟨d, mfree', hret, ?_, ?_⟩
      · rw [hdata, happ.data, contents_cons, append_assoc]
      · rw [happ.index] at hperm
        refine hperm.trans ?_
        simp [perm_middle]

theorem mCat_spec (hc : ∀ n ∈ m :: c, n.Wf) (hd : ∀ n ∈ d, n.Wf) (mfree : List ℕ) :
    ∃ d' mfree', mCat m c d mfree = .ret d' mfree' ∧ contents d' = contents (m :: c) ++ contents d ∧
      d'.map Mbuf.index ++ mfree' ~ (m :: c).map Mbuf.index ++ d.map Mbuf.index ++ mfree := by
  induction c generalizing m with
  | nil =>
    obtain ⟨d', mfree', hret, hdata, hperm⟩ := catLoop_spec (hc m mem_cons_self) hd mfree
    exact ⟨d', mfree', hret, by rw [hdata, contents_cons, contents_nil, append_nil], hperm⟩
  | cons n c ih =>
    obtain ⟨d', mfree', hret, hdata, hperm⟩ := ih (forall_mem_cons.1 hc).2
    refine ⟨m :: d', mfree', by rw [mCat, hret, Outcome.cons], ?_, ?_⟩
    · rw [contents_cons, hdata, contents_cons m, append_assoc]
    · exact hperm.cons m.index

/-! ### Pulling up -/

/-- What some passes of the loop leave. -/
structure Pulls (space : ℤ) (p r : Pull) : Prop where
  base : r.m.base = p.m.base
  size : r.m.size = p.m.size
  index : r.m.index = p.m.index
  pos : r.m.pos = p.m.pos
  data : r.m.data ++ contents r.n = p.m.data ++ contents p.n
  nonneg : 0 ≤ r.m.m_len
  fits : r.m.pos + r.m.m_len.toNat ≤ r.m.size
  len : r.m.m_len + r.len = p.m.m_len + p.len
  le : p.n ≠ [] → r.m.m_len ≤ space
  stops : r.len ≤ 0 ∨ r.n = []
  perm : r.n.map Mbuf.index ++ r.mfree ~ p.n.map Mbuf.index ++ p.mfree

variable {p r : Pull} {count : ℤ}

theorem contents_pass (hcnt : 0 ≤ count) (hle : count ≤ n.m_len) :
    n.dataFrom 0 count.toNat ++ contents (p.pass m' n c count).n = contents (n :: c) := by
  have htake := n.take_data (k := count.toNat) (by omega)
  rw [Pull.pass, contents_cons, ← htake]
  split_ifs with hleft
  · have hrs : Mbuf.data { n with m_len := n.m_len - count, pos := n.pos + count.toNat } = n.data.drop count.toNat := by
      have hnat : n.m_len.toNat - count.toNat = (n.m_len - count).toNat := by omega
      rw [n.drop_data, hnat]
      rfl
    rw [contents_cons, hrs, ← append_assoc, take_append_drop]
  · rw [take_of_length_le]
    rw [Mbuf.length_data]
    omega

theorem perm_pass : (p.pass m' n c count).n.map Mbuf.index ++ (p.pass m' n c count).mfree ~
    (n :: c).map Mbuf.index ++ p.mfree := by
  rw [Pull.pass]
  split_ifs
  · exact .refl _
  · exact perm_middle

/-- The loop as passes. -/
theorem pullLoop_cons (hn : p.n = n :: c) (count : ℤ)
    (hcnt : count = min (min (space - p.m.m_len) (p.len + MPULL_EXTRA)) n.m_len) :
    pullLoop space (fuel + 1) p = if count < 0 then none
      else (p.m.append (n.dataFrom 0 count.toNat)).bind fun m' =>
        if 0 < (p.pass m' n c count).len ∧ (p.pass m' n c count).n ≠ [] then
          pullLoop space fuel (p.pass m' n c count)
        else some (p.pass m' n c count) := by
  rw [pullLoop, hn, hcnt]
  dsimp only
  by_cases hneg : min (min (space - p.m.m_len) (p.len + MPULL_EXTRA)) n.m_len < 0
  · rw [if_pos hneg, if_pos hneg]
  · rw [if_neg hneg, if_neg hneg]
    cases p.m.append (n.dataFrom 0 (min (min (space - p.m.m_len) (p.len + MPULL_EXTRA)) n.m_len).toNat) with
    | none => rfl
    | some m' => rfl

theorem pass_len : (p.pass m' n c count).len = p.len - count := by
  rw [Pull.pass]
  split_ifs <;> rfl

theorem pass_m : (p.pass m' n c count).m = m' := by
  rw [Pull.pass]
  split_ifs <;> rfl

theorem pass_nonneg (hc : ∀ n ∈ c, 0 ≤ n.m_len) (hle : count ≤ n.m_len) :
    ∀ k ∈ (p.pass m' n c count).n, 0 ≤ k.m_len := by
  rw [Pull.pass]
  split_ifs
  · exact forall_mem_cons.2 ⟨sub_nonneg.2 hle, hc⟩
  · exact hc

/-- Whatever the loop gives, bytes and buffers are kept. -/
theorem pullLoop_spec (h : pullLoop space fuel p = some r) (hm : 0 ≤ p.m.m_len)
    (hfits : p.m.pos + p.m.m_len.toNat ≤ p.m.size) (hsize : p.m.size ≤ 32767) (hn : ∀ n ∈ p.n, 0 ≤ n.m_len) :
    Pulls space p r := by
  induction fuel generalizing p with
  | zero => cases h
  | succ fuel ih =>
    cases hcons : p.n with
    | nil =>
      rw [pullLoop, hcons] at h
      cases h
      exact ⟨rfl, rfl, rfl, rfl, rfl, hm, hfits, rfl, fun hne => absurd hcons hne, .inr hcons, .refl _⟩
    | cons n c =>
      rw [hcons] at hn
      obtain ⟨hnn, hnc⟩ := forall_mem_cons.1 hn
      rw [pullLoop_cons hcons _ rfl] at h
      generalize hcnt : min (min (space - p.m.m_len) (p.len + MPULL_EXTRA)) n.m_len = count at h
      have hle : count ≤ n.m_len := hcnt ▸ min_le_right _ _
      have hspc : count ≤ space - p.m.m_len := hcnt ▸ (min_le_left _ _).trans (min_le_left _ _)
      split_ifs at h with hneg
      obtain ⟨m', hm', h⟩ := bind_eq_some_iff.1 h
      have happ := append_spec hm' hm hsize
      have hlen : m'.m_len = p.m.m_len + count := by
        rw [happ.m_len, Mbuf.length_dataFrom]
        omega
      have hdata : m'.data ++ contents (p.pass m' n c count).n = p.m.data ++ contents p.n := by
        rw [happ.data, append_assoc, contents_pass (not_lt.1 hneg) hle, hcons]
      have hperm : (p.pass m' n c count).n.map Mbuf.index ++ (p.pass m' n c count).mfree ~
          p.n.map Mbuf.index ++ p.mfree := by
        rw [hcons]
        exact perm_pass
      split_ifs at h with hagn
      · have hpulls := ih h (by rw [pass_m]; omega) (by rw [pass_m]; exact happ.fits)
          (by rw [pass_m, happ.size]; exact hsize) (pass_nonneg hnc hle)
        have hdata' := hpulls.data
        have hlen' := hpulls.len
        rw [pass_m] at hdata'
        rw [pass_m, pass_len, hlen] at hlen'
        exact {
          base := by rw [hpulls.base, pass_m, happ.base]
          size := by rw [hpulls.size, pass_m, happ.size]
          index := by rw [hpulls.index, pass_m, happ.index]
          pos := by rw [hpulls.pos, pass_m, happ.pos]
          data := hdata'.trans hdata
          nonneg := hpulls.nonneg
          fits := hpulls.fits
          len := by omega
          le := fun _ => hpulls.le hagn.2
          stops := hpulls.stops
          perm := hpulls.perm.trans hperm }
      · cases h
        rw [not_and_or, not_not, not_lt] at hagn
        exact {
          base := by rw [pass_m, happ.base]
          size := by rw [pass_m, happ.size]
          index := by rw [pass_m, happ.index]
          pos := by rw [pass_m, happ.pos]
          fits := by rw [pass_m]; exact happ.fits
          data := by rw [pass_m]; exact hdata
          nonneg := by rw [pass_m]; omega
          len := by rw [pass_m, pass_len]; omega
          le := fun _ => by rw [pass_m]; omega
          stops := hagn
          perm := hperm }

/-- The loop comes to an end where there is room for what it copies. -/
theorem pullLoop_returns (space : ℤ) (hm : 0 ≤ p.m.m_len) (hlen : 0 < p.len) (hspc : p.m.m_len + p.len ≤ space)
    (hroom : p.m.pos + min space (p.m.m_len + (contents p.n).length) ≤ p.m.size) (hsize : p.m.size ≤ 32767)
    (hn : ∀ n ∈ p.n, 0 ≤ n.m_len) (hfuel : p.n.length ≤ fuel) (hne : p.n ≠ []) :
    ∃ r, pullLoop space fuel p = some r := by
  induction fuel generalizing p with
  | zero => exact absurd (length_eq_zero_iff.1 (Nat.le_zero.1 hfuel)) hne
  | succ fuel ih =>
    obtain ⟨n, c, hcons⟩ := exists_cons_of_ne_nil hne
    rw [hcons] at hn hfuel hroom
    obtain ⟨hnn, hnc⟩ := forall_mem_cons.1 hn
    rw [contents_cons, length_append, Mbuf.length_data] at hroom
    rw [pullLoop_cons hcons _ rfl]
    generalize hcnt : min (min (space - p.m.m_len) (p.len + MPULL_EXTRA)) n.m_len = count
    rw [MPULL_EXTRA] at hcnt
    rw [if_neg (by omega)]
    obtain ⟨m', hm'⟩ := append_returns (m := p.m) (l := n.dataFrom 0 count.toNat) (by
      rw [Mbuf.length_dataFrom]
      omega)
    have happ := append_spec hm' hm hsize
    have hlen' : m'.m_len = p.m.m_len + count := by
      rw [happ.m_len, Mbuf.length_dataFrom]
      omega
    rw [hm', bind_some]
    split_ifs with hagn
    · have hemp : ¬n.m_len - count ≠ 0 := by
        have hpos := hagn.1
        rw [pass_len] at hpos
        omega
      have hpass : p.pass m' n c count = ⟨m', p.len - count, c, n.index :: p.mfree⟩ := if_neg hemp
      rw [hpass] at hagn ⊢
      have hpos : 0 < p.len - count := hagn.1
      refine ih ?_ hpos ?_ ?_ ?_ hnc (Nat.le_of_succ_le_succ hfuel) hagn.2
      · change 0 ≤ m'.m_len
        omega
      · change m'.m_len + (p.len - count) ≤ space
        omega
      · change (m'.pos : ℤ) + min space (m'.m_len + (contents c).length) ≤ m'.size
        rw [happ.pos, happ.size]
        omega
      · change m'.size ≤ 32767
        rw [happ.size]
        exact hsize
    · exact ⟨_, rfl⟩

/-- What `m_pullup` is to do with the chain `n :: c`: the first `len` bytes are together in a buffer of their own, or there
    is a reason why they are not, and all buffers are free. No buffer is lost. -/
def Pulled (n : Mbuf) (c : List Mbuf) (len : ℤ) (mfree : List ℕ) (r : Outcome) : Prop :=
  ∃ d mfree', r = .ret d mfree' ∧ d.map Mbuf.index ++ mfree' ~ (n :: c).map Mbuf.index ++ mfree ∧
    ((∃ m t, d = m :: t ∧ contents d = contents (n :: c) ∧ m.Own ∧ len ≤ m.m_len ∧ m.pos + m.m_len.toNat ≤ m.size) ∨
      d = [] ∧ ((contents (n :: c)).length < len ∨ MLEN < len ∨ mfree = []))

/-- The first buffer has its data in a cluster, so little below the buffer itself that `m_off + len` goes through
    `2 ^ 32`, and there is another buffer. -/
def Wraps (n : Mbuf) (c : List Mbuf) (len : ℤ) : Prop :=
  ¬n.Own ∧ (n.m_off + len) % 2 ^ 32 ≤ MMAXOFF ∧ c ≠ []

/-- How such a chain goes wrong: the bytes are there, and are put together in the cluster; or they are not, and what there
    is goes past the end of it, or past what `space` holds. -/
def Spills (n : Mbuf) (c : List Mbuf) (len : ℤ) : Prop :=
  len ≤ (contents (n :: c)).length ∨ n.size < n.pos + (contents (n :: c)).length ∨
    2 ^ 31 ≤ (2 ^ 32 + MMAXOFF - n.m_off : ℤ)

theorem Pulls.length (h : Pulls space p r) : r.m.m_len + (contents r.n).length = (p.m.data ++ contents p.n).length := by
  have hdata := congrArg List.length h.data
  have hnon := h.nonneg
  rw [length_append, Mbuf.length_data] at hdata
  omega

theorem Pulls.pulled (h : Pulls space p r) (hown : p.m.Own) (hlen : p.m.m_len + p.len = len)
    (hdata : p.m.data ++ contents p.n = contents (n :: c))
    (hperm : p.m.index :: p.n.map Mbuf.index ++ p.mfree ~ (n :: c).map Mbuf.index ++ mfree) :
    Pulled n c len mfree (pulled (some r)) := by
  have hlen' := h.len
  have hleng := h.length
  have hperm' : r.m.index :: r.n.map Mbuf.index ++ r.mfree ~ (n :: c).map Mbuf.index ++ mfree := by
    rw [h.index]
    exact (h.perm.cons p.m.index).trans hperm
  rw [Mbufs.pulled]
  split_ifs with hsht
  · have hnil := h.stops.resolve_left (not_le.2 hsht)
    refine ⟨[], _, rfl, ?_, .inr ⟨rfl, .inl ?_⟩⟩
    · rw [hnil] at hperm' ⊢
      exact hperm'
    · rw [hdata, hnil, contents_nil, length_nil] at hleng
      omega
  · refine ⟨r.m :: r.n, r.mfree, rfl, hperm', .inl ⟨r.m, r.n, rfl, ?_, ?_, by omega, h.fits⟩⟩
    · rw [contents_cons, h.data, hdata]
    · rw [Mbuf.Own, h.base, h.size]
      exact hown

/-- A fresh buffer has the room. -/
theorem pullUp_fresh (hn : ∀ m ∈ n :: c, 0 ≤ m.m_len) (hpos : 0 < len) (hle : len ≤ MLEN)
    (hfuel : (n :: c).length ≤ fuel) (area : Mem) (i : ℕ) :
    Pulled n c len (i :: mfree) (pulled (pullLoop (wrap 32 (MMAXOFF - (mget i area n.m_type 0).m_off)) fuel
      ⟨mget i area n.m_type 0, len, n :: c, mfree⟩)) := by
  have hspc : wrap 32 (MMAXOFF - (mget i area n.m_type 0).m_off) = MLEN := rfl
  rw [hspc]
  obtain ⟨r, hr⟩ := pullLoop_returns (p := ⟨mget i area n.m_type 0, len, n :: c, mfree⟩) MLEN le_rfl hpos
    ((zero_add len).trans_le hle) (by change ((0 : ℕ) : ℤ) + min (MLEN : ℤ) _ ≤ MLEN; omega)
    (by change MLEN ≤ 32767; decide) hn hfuel (by simp)
  rw [hr]
  refine (pullLoop_spec hr le_rfl (Nat.zero_le _) (by change MLEN ≤ 32767; decide) hn).pulled ⟨rfl, rfl⟩ (zero_add len)
    rfl ?_
  exact perm_middle.symm

theorem mPullup_iff (h : Chain (n :: c)) (hlen : n.m_len < len) (hint : len < 2 ^ 31) (hfuel : (n :: c).length ≤ fuel)
    (mfree : List ℕ) : Pulled n c len mfree (mPullup e fuel n c len mfree) ↔ ¬(Wraps n c len ∧ Spills n c len) := by
  have hn := h.wf n mem_cons_self
  have hnon := fun m hm => (h.wf m hm).len_nonneg
  have hnon' := hn.len_nonneg
  have hnonn : ∀ m ∈ c, 0 ≤ m.m_len := fun m hm => hnon m (mem_cons_of_mem n hm)
  have hoff : n.m_off < 2 ^ 32 := Nat.mod_lt _ (by decide)
  have hfits := hn.fits
  have hleng : (n.data ++ contents c).length = (contents (n :: c)).length := by rw [contents_cons]
  have hfuelc : c.length ≤ fuel := (Nat.le_succ _).trans hfuel
  unfold mPullup
  split_ifs with hfst hlrg
  · obtain ⟨hsum, hne⟩ := hfst
    by_cases hown : n.Own
    · have hnot : ¬(Wraps n c len ∧ Spills n c len) := fun hbad => hbad.1.1 hown
      refine iff_of_true ?_ hnot
      have hle := hn.off_lt.1 hown
      have hspc : wrap 32 (MMAXOFF - n.m_off) = MMAXOFF - n.m_off := wrap_int (by omega) (by rw [MMAXOFF]; omega)
      have hplc : n.m_off = MMINOFF + n.pos := by
        rw [Mbuf.m_off, hown.1]
        rw [hown.2, MLEN] at hfits
        rw [MMINOFF]
        omega
      rw [MMAXOFF] at *
      rw [MMINOFF] at hplc
      obtain ⟨r, hr⟩ := pullLoop_returns (p := ⟨n, len - n.m_len, c, mfree⟩) ((124 : ℕ) - n.m_off) hnon'
        (sub_pos.2 hlen) (by dsimp only; omega) (by dsimp only; rw [hown.2, MLEN]; omega) hn.size_short hnonn hfuelc hne
      rw [hspc, hr]
      exact (pullLoop_spec hr hnon' hfits hn.size_short hnonn).pulled hown (by dsimp only; omega) rfl (.refl _)
    · have hwraps : Wraps n c len := ⟨hown, hsum, hne⟩
      have hge := hn.off_ge hown
      rw [MSIZE] at hge
      rw [and_iff_right hwraps]
      constructor
      · rintro ⟨d, mfree', hret, -, hpul⟩ hspi
        cases hr : pullLoop (wrap 32 (MMAXOFF - n.m_off)) fuel ⟨n, len - n.m_len, c, mfree⟩ with
        | none =>
          rw [hr] at hret
          cases hret
        | some r =>
          have hpulls := pullLoop_spec hr hnon' hfits hn.size_short hnonn
          have hnonnegr := hpulls.nonneg
          have hlenr := hpulls.len
          have hlengthr := hpulls.length
          rw [hr, Mbufs.pulled] at hret
          split_ifs at hret with hsht
          · -- all the data went into the cluster, and was too little
            have hnil := hpulls.stops.resolve_left (not_le.2 hsht)
            have hspc := hpulls.le hne
            have hfitsr := hpulls.fits
            rw [hpulls.pos, hpulls.size] at hfitsr
            dsimp only at *
            rw [hnil, contents_nil, length_nil, hleng] at hlengthr
            have hwra := inRange_int.1 (wrap_inRange 32 (MMAXOFF - n.m_off))
            have hmod := wrap_emod 32 (MMAXOFF - n.m_off)
            rw [MMAXOFF] at *
            rcases hspi with hle | hlt | hspi
            · omega
            · omega
            · rw [MMAXOFF] at hspi
              omega
          · -- the first buffer still has its data in the cluster
            obtain ⟨rfl, -⟩ := Outcome.ret.inj hret
            rcases hpul with ⟨m, t, hmt, -, hownm, -⟩ | ⟨hnil, -⟩
            · obtain ⟨rfl, -⟩ := cons_eq_cons.1 hmt
              rw [Mbuf.Own, hpulls.base, hpulls.size] at hownm
              exact hown hownm
            · cases hnil
      · intro hfine
        obtain ⟨hlt, hroom, hspc⟩ : (contents (n :: c)).length < len ∧ n.pos + (contents (n :: c)).length ≤ n.size ∧
            (2 ^ 32 + MMAXOFF - n.m_off : ℤ) < 2 ^ 31 := by
          simp only [Spills, not_or, not_le, not_lt] at hfine
          exact hfine
        have hwrap : wrap 32 (MMAXOFF - n.m_off) = MMAXOFF - n.m_off + 2 ^ 32 := by
          rw [← wrap_add_circle]
          exact wrap_int (by omega) (by omega)
        have hlengthn : ((contents (n :: c)).length : ℤ) = n.m_len + (contents c).length := by
          rw [← hleng, length_append, Mbuf.length_data]
          omega
        rw [MMAXOFF] at *
        obtain ⟨r, hr⟩ := pullLoop_returns (p := ⟨n, len - n.m_len, c, mfree⟩) ((124 : ℕ) - n.m_off + 2 ^ 32) hnon'
          (sub_pos.2 hlen) (by dsimp only; omega) (by dsimp only; omega) hn.size_short hnonn hfuelc hne
        have hpulls := pullLoop_spec hr hnon' hfits hn.size_short hnonn
        have hlenr := hpulls.len
        have hlengthr := hpulls.length
        have hperm := (hpulls.perm.cons r.m.index)
        dsimp only at hlenr hlengthr hperm
        rw [hleng] at hlengthr
        have hsht : 0 < r.len := by omega
        have hnil := hpulls.stops.resolve_left (not_le.2 hsht)
        rw [hwrap, hr, Mbufs.pulled, if_pos hsht]
        refine ⟨[], _, rfl, ?_, .inr ⟨rfl, .inl hlt⟩⟩
        rw [hnil, hpulls.index] at hperm
        rw [hnil, hpulls.index]
        exact hperm
  · refine iff_of_true ⟨[], _, rfl, perm_freem _ _, .inr ⟨rfl, .inr (.inl hlrg)⟩⟩ fun hbad => hfst hbad.1.2
  · have hnot : ¬(Wraps n c len ∧ Spills n c len) := fun hbad => hfst hbad.1.2
    refine iff_of_true ?_ hnot
    cases mfree with
    | nil => exact ⟨[], _, rfl, perm_freem _ _, .inr ⟨rfl, .inr (.inr rfl)⟩⟩
    | cons i mfree => exact pullUp_fresh hnon (by omega) (not_lt.1 hlrg) hfuel (e.dat i) i

/-- `m_pullup` keeps the bytes and the buffers of every chain but those that wrap and spill; `m_copy` and `m_cat` keep them
    of all. -/
theorem moves_iff (e : Env) (h : Chain (n :: c)) (hlen : n.m_len < len) (hint : len < 2 ^ 31)
    (hfuel : (n :: c).length ≤ fuel) (mfree : List ℕ) :
    (Pulled n c len mfree (mPullup e fuel n c len mfree) ↔ ¬(Wraps n c len ∧ Spills n c len)) ∧
      (∀ off k : ℤ, 0 ≤ off → 0 ≤ k →
        off + k ≤ (contents (n :: c)).length ∨ k = M_COPYALL ∧ off ≤ (contents (n :: c)).length →
        Copied (((contents (n :: c)).drop off.toNat).take k.toNat) ((n :: c).length ≤ mfree.length) mfree
          (mCopy e (n :: c) off k mfree)) ∧
      ∀ d, (∀ m ∈ d, m.Wf) → ∃ d' mfree', mCat n c d mfree = .ret d' mfree' ∧
        contents d' = contents (n :: c) ++ contents d ∧
        d'.map Mbuf.index ++ mfree' ~ (n :: c).map Mbuf.index ++ d.map Mbuf.index ++ mfree :=
  ⟨mPullup_iff h hlen hint hfuel mfree, fun _ _ hoff hk hle => mCopy_spec h hoff hk mfree hle,
    fun _ hd => mCat_spec h.wf hd mfree⟩

/-- Nothing in the free buffers. -/
def Env.zero : Env := ⟨fun _ _ => 0, fun _ => 0⟩

theorem moves_iff_three :
    Pulled (mget 0 (fun _ => 0) 1 2) [mget 1 (fun _ => 0) 1 1] 3 []
      (mPullup .zero 2 (mget 0 (fun _ => 0) 1 2) [mget 1 (fun _ => 0) 1 1] 3 []) :=
  (moves_iff .zero chain_threeBytes (by decide) (by decide) le_rfl []).1.2 fun hbad => hbad.1.1 ⟨rfl, rfl⟩

/-- Twenty bytes at the end of the page below the buffer. -/
def below : Mbuf :=
  { index := 8, base := 2 ^ 32 - 1024, size := 1024, area := fun _ => 0, pos := 964, m_len := 20, m_type := 1, m_cltype := 1 }

theorem below_wf : below.Wf where
  index_lt := by decide
  len_nonneg := by decide
  len_short := by decide
  fits := by decide
  size_short := by decide
  off_ge _ := by decide
  cltype _ := .inl rfl

/-- Forty more bytes are put behind them in the page. -/
theorem mPullup_cluster : Chain [below, mget 0 (fun _ => 0) 1 40] ∧
    ¬Pulled below [mget 0 (fun _ => 0) 1 40] 60 [] (mPullup .zero 2 below [mget 0 (fun _ => 0) 1 40] 60 []) := by
  have hchn : Chain [below, mget 0 (fun _ => 0) 1 40] := by
    refine ⟨?_, by decide⟩
    rw [forall_mem_cons, forall_mem_singleton]
    exact ⟨below_wf, wf_mget _ (by decide) (by decide) (by decide)⟩
  refine ⟨hchn, fun hpul => ?_⟩
  refine (mPullup_iff hchn (by decide) (by decide) le_rfl []).1 hpul ⟨⟨by decide, by decide, by simp⟩, .inl ?_⟩
  decide

end Uwisc.Mbufs
