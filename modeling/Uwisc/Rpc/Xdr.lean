import Uwisc.Lib.Bytes
import Uwisc.Lib.Wrap

/-!
# Decoding from memory and from mbufs

The streams of `sys/rpc/xdr_mem.c` and `sys/rpc/xdr_mbuf.c`, as far as they decode: `getlong` and
`getbytes` of each, and runs of requests. `x_handy` is an `int`, and what it is decremented by
may take it around.

A pointer is the memory from it on. Behind the `m_len` bytes of an mbuf, or behind a buffer,
there is other memory.
-/

namespace Uwisc.Xdr

open Lib

/-- A pointer, `n` bytes on. -/
def advance (p : Mem) (n : ℕ) : Mem := fun i => p (n + i)

/-- The number at a pointer, which has its first byte foremost. -/
def ntohl (p : Mem) : ℕ := decode (bytes p 0 4).reverse

/-- A request to a stream. -/
inductive Request
  | getlong
  | getbytes (len : ℕ)

/-- What a request returns. -/
inductive Value
  | long (l : ℕ)
  | bytes (addr : List UInt8)
  deriving DecidableEq

/-- The results of requests one after the other; `none` is a failure. -/
def run {σ : Type} (step : σ → Request → Option Value × σ) : σ → List Request → List (Option Value)
  | _, [] => []
  | s, r :: rs => (step s r).1 :: run step (step s r).2 rs

/-! ### Memory -/

/-- A stream on a buffer: where it is, and how many bytes are left. -/
structure XdrMem where
  x_private : Mem
  x_handy : ℤ

def xdrmemCreate (addr : Mem) (size : ℕ) : XdrMem := ⟨addr, wrap 32 size⟩

def xdrmemGetlong (xdrs : XdrMem) : Option Value × XdrMem :=
  let x_handy := wrap 32 (xdrs.x_handy - 4)
  if x_handy < 0 then (none, { xdrs with x_handy })
  else (some (.long (ntohl xdrs.x_private)), ⟨advance xdrs.x_private 4, x_handy⟩)

def xdrmemGetbytes (xdrs : XdrMem) (len : ℕ) : Option Value × XdrMem :=
  let x_handy := wrap 32 (xdrs.x_handy - len)
  if x_handy < 0 then (none, { xdrs with x_handy })
  else (some (.bytes (bytes xdrs.x_private 0 len)), ⟨advance xdrs.x_private len, x_handy⟩)

def xdrmem (xdrs : XdrMem) : Request → Option Value × XdrMem
  | .getlong => xdrmemGetlong xdrs
  | .getbytes len => xdrmemGetbytes xdrs len

/-! ### Mbufs -/

/-- An mbuf: how many bytes it has, and the memory from the first of them on. -/
structure Mbuf where
  m_len : ℕ
  mtod : Mem

/-- A stream on a chain: the mbufs from the one at `x_base` on (none, if that is null), where it is
    and how many bytes are left there. -/
structure XdrMbuf where
  x_base : List Mbuf
  x_private : Mem
  x_handy : ℤ

/-- The stream at the start of a chain. -/
def xdrmbufInit (m : Mbuf) (m_next : List Mbuf) : XdrMbuf := ⟨m :: m_next, m.mtod, m.m_len⟩

def xdrmbufGetlong (xdrs : XdrMbuf) : Option Value × XdrMbuf :=
  let x_handy := wrap 32 (xdrs.x_handy - 4)
  if x_handy < 0 then
    match xdrs.x_base.tail with
    | [] => (none, ⟨[], xdrs.x_private, x_handy⟩)
    | m :: m_next =>
      -- however many bytes the mbuf has
      (some (.long (ntohl m.mtod)), ⟨m :: m_next, advance m.mtod 4, wrap 32 (m.m_len - 4)⟩)
  else
    (some (.long (ntohl xdrs.x_private)), ⟨xdrs.x_base, advance xdrs.x_private 4, x_handy⟩)

/-- The loop of `xdrmbufGetbytes`. -/
def getbytesLoop (x_private : Mem) (x_handy : ℤ) (len : ℕ) :
    List Mbuf → Option (List UInt8) × XdrMbuf
  | [] =>
    if wrap 32 (x_handy - len) < 0 then (none, ⟨[], x_private, x_handy⟩)
    else (some (bytes x_private 0 len), ⟨[], advance x_private len, wrap 32 (x_handy - len)⟩)
  | b :: m_next =>
    if wrap 32 (x_handy - len) < 0 then
      let copied := x_handy.toNat
      match m_next.head? with
      | none => (none, ⟨[], x_private, x_handy⟩)
      | some m =>
        let r := getbytesLoop m.mtod m.m_len (len - copied) m_next
        (r.1.map (bytes x_private 0 copied ++ ·), r.2)
    else (some (bytes x_private 0 len),
      ⟨b :: m_next, advance x_private len, wrap 32 (x_handy - len)⟩)

def xdrmbufGetbytes (xdrs : XdrMbuf) (len : ℕ) : Option Value × XdrMbuf :=
  let r := getbytesLoop xdrs.x_private xdrs.x_handy len xdrs.x_base
  (r.1.map .bytes, r.2)

def xdrmbuf (xdrs : XdrMbuf) : Request → Option Value × XdrMbuf
  | .getlong => xdrmbufGetlong xdrs
  | .getbytes len => xdrmbufGetbytes xdrs len

/-- The bytes of a chain one after the other, and the memory behind. -/
def contents (behind : Mem) : List Mbuf → Mem
  | [], i => behind i
  | m :: m_next, i => if i < m.m_len then m.mtod i else contents behind m_next (i - m.m_len)

/-!
### How a buffer is split into mbufs

The stream on a chain of mbufs returns what the stream on a buffer with the same bytes does, and
that whatever the bytes are and whatever is behind them in memory, if and only if the requests
meet a condition on the lengths of the mbufs (`xdrmbuf_agrees`).

The condition (`Whole`) is that a number does not cross mbufs: `getlong` goes to the next mbuf
if fewer than four bytes are left, and takes the number from there. And what `getbytes` leaves
behind when there is too little is not asked for again (`Exhausted`), as the stream on a buffer
does not return anything any more.
-/

open List Nat

/-- The bytes a request is for. -/
def Request.size : Request → ℕ
  | getlong => 4
  | getbytes len => len

/-- Where a request takes the stream on a chain. -/
inductive After
  /-- On, to where `r` bytes are left and mbufs of the lengths `rest` come then. -/
  | goes (r : ℕ) (rest : List ℕ)
  /-- To the end, with `h` bytes too few. -/
  | ends (h : ℤ)
  /-- Into the next mbuf, with a number that is not whole there. -/
  | crosses

/-- Goes `len` bytes on, from where `r` bytes are left. -/
def seek (r len : ℕ) : List ℕ → After
  | [] => if len ≤ r then .goes (r - len) [] else .ends r
  | m :: rest => if len ≤ r then .goes (r - len) (m :: rest) else seek m (len - r) rest

/-- Where a request goes from where `r` bytes are left. -/
def after (r : ℕ) (rest : List ℕ) : Request → After
  | .getlong =>
    if 4 ≤ r then .goes (r - 4) rest
    else match rest with
      | [] => .ends (r - 4)
      | m :: rest => if r = 0 ∧ 4 ≤ m then .goes (m - 4) rest else .crosses
  | .getbytes len => seek r len rest

/-- No request succeeds with the `h` bytes that are left in the last mbuf after one that failed.
    A number makes them fewer than none. -/
def Exhausted (h : ℤ) : List Request → Prop
  | [] => True
  | .getlong :: _ => h < 4
  | .getbytes len :: rs => h < len ∧ Exhausted h rs

/-- Every number is whole in an mbuf, the one it is in or the next one if there is nothing left,
    and nothing is asked for again. -/
def Whole : ℕ → List ℕ → List Request → Prop
  | _, _, [] => True
  | r, rest, a :: rs =>
    match after r rest a with
    | .goes r rest => Whole r rest rs
    | .ends h => Exhausted h rs
    | .crosses => False

/-! ### Pointers -/

variable {p q behind : Mem} {r n len : ℕ} {m b : Mbuf} {chain : List Mbuf} {rest : List ℕ}
  {rs : List Request}

theorem advance_advance (p : Mem) (n k : ℕ) : advance (advance p n) k = advance p (n + k) := by
  funext i
  rw [advance, advance, advance, add_assoc]

theorem bytes_add (p : Mem) (n k : ℕ) : bytes p 0 (n + k) = bytes p 0 n ++ bytes (advance p n) 0 k := by
  simp only [bytes, range_add, map_append, map_map]
  congr 1
  refine map_congr_left fun i _ => ?_
  simp [advance]

theorem bytes_congr (h : ∀ i < n, p i = q i) : bytes p 0 n = bytes q 0 n := by
  refine map_congr_left fun i hi => ?_
  rw [zero_add]
  exact h i (mem_range.1 hi)

theorem contents_apply (h : n < m.m_len) : contents behind (m :: chain) n = m.mtod n := by
  rw [contents, if_pos h]

/-- What comes after the bytes of an mbuf. -/
theorem contents_apply_add (behind : Mem) (m : Mbuf) (chain : List Mbuf) (n : ℕ) :
    contents behind (m :: chain) (m.m_len + n) = contents behind chain n := by
  rw [contents, if_neg (by omega), Nat.add_sub_cancel_left]

theorem bytes_contents (h : n ≤ r) : bytes (contents behind (⟨r, p⟩ :: chain)) 0 n = bytes p 0 n :=
  bytes_congr fun _ hi => contents_apply (hi.trans_le h)

theorem ntohl_contents (h : 4 ≤ r) : ntohl (contents behind (⟨r, p⟩ :: chain)) = ntohl p := by
  rw [ntohl, bytes_contents h, ntohl]

theorem advance_contents (h : n ≤ r) :
    advance (contents behind (⟨r, p⟩ :: chain)) n =
      contents behind (⟨r - n, advance p n⟩ :: chain) := by
  funext i
  rw [advance, contents, contents]
  by_cases hi : n + i < r
  · rw [if_pos hi, if_pos (by dsimp only; omega)]
    rfl
  · rw [if_neg hi, if_neg (by dsimp only; omega)]
    congr 1
    dsimp only
    omega

theorem advance_contents_len (behind p : Mem) (r : ℕ) (chain : List Mbuf) :
    advance (contents behind (⟨r, p⟩ :: chain)) r = contents behind chain := by
  funext i
  exact contents_apply_add behind ⟨r, p⟩ chain i

/-! ### Requests -/

/-- What a request returns if it succeeds. -/
def Request.read : Request → Mem → Value
  | getlong, p => .long (ntohl p)
  | getbytes len, p => .bytes (bytes p 0 len)

variable {h : ℤ} {a : Request}

theorem xdrmem_some (hle : a.size ≤ h) (hlt : h < 2147483648) :
    xdrmem ⟨p, h⟩ a = (some (a.read p), ⟨advance p a.size, h - a.size⟩) := by
  cases a with
  | getlong =>
    have hle : 4 ≤ h := hle
    simp [xdrmem, xdrmemGetlong, wrap_int (x := h - 4) (by omega) (by omega), hle, Request.read,
      Request.size]
  | getbytes len =>
    have hle : len ≤ h := hle
    simp [xdrmem, xdrmemGetbytes, wrap_int (x := h - len) (by omega) (by omega), hle,
      Request.read, Request.size]

theorem xdrmem_none (hlt : h < a.size) (hle : -2147483648 ≤ h - a.size) :
    xdrmem ⟨p, h⟩ a = (none, ⟨p, h - a.size⟩) := by
  cases a with
  | getlong =>
    have hlt : h < 4 := hlt
    have hle : -2147483648 ≤ h - 4 := hle
    simp [xdrmem, xdrmemGetlong, wrap_int (x := h - 4) (by omega) (by omega), hlt, Request.size]
  | getbytes len =>
    have hlt : h < len := hlt
    have hle : -2147483648 ≤ h - len := hle
    simp [xdrmem, xdrmemGetbytes, wrap_int (x := h - len) (by omega) (by omega), hlt, Request.size]

/-- On a buffer, no request succeeds after one that failed. -/
theorem run_xdrmem_failed (hh : h < 0) (hs : -2147483648 ≤ h - (rs.map Request.size).sum) :
    run xdrmem ⟨p, h⟩ rs = rs.map fun _ => none := by
  induction rs generalizing h with
  | nil => rfl
  | cons a rs ih =>
    rw [map_cons, sum_cons] at hs
    rw [run, xdrmem_none (by omega) (by omega), ih (by omega) (by omega), map_cons]

/-- With nothing left, none does on a chain. -/
theorem run_xdrmbuf_failed (hh : h < 0) (hs : -2147483648 ≤ h - (rs.map Request.size).sum) :
    run xdrmbuf ⟨[], p, h⟩ rs = rs.map fun _ => none := by
  induction rs generalizing h with
  | nil => rfl
  | cons a rs ih =>
    rw [map_cons, sum_cons] at hs
    cases a with
    | getlong =>
      rw [Request.size] at hs
      have hwrap : wrap 32 (h - 4) = h - 4 := wrap_int (by omega) (by omega)
      have hstep : xdrmbuf ⟨[], p, h⟩ .getlong = (none, ⟨[], p, h - 4⟩) := by
        simp [xdrmbuf, xdrmbufGetlong, hwrap, show h < 4 by omega]
      rw [run, hstep, ih (by omega) (by omega), map_cons]
    | getbytes len =>
      rw [Request.size] at hs
      have hwrap : wrap 32 (h - len) = h - len := wrap_int (by omega) (by omega)
      have hstep : xdrmbuf ⟨[], p, h⟩ (.getbytes len) = (none, ⟨[], p, h⟩) := by
        simp [xdrmbuf, xdrmbufGetbytes, getbytesLoop, hwrap, show h < len by omega]
      rw [run, hstep, ih (by omega) (by omega), map_cons]

/-- What was left by a request that failed is not returned, or it is. -/
theorem run_xdrmbuf_exhausted (hh : h < 2147483648)
    (hs : -2147483648 ≤ h - (rs.map Request.size).sum) :
    run xdrmbuf ⟨[], p, h⟩ rs = (rs.map fun _ => none) ↔ Exhausted h rs := by
  induction rs with
  | nil => simp [run, Exhausted]
  | cons a rs ih =>
    rw [map_cons, sum_cons] at hs
    cases a with
    | getlong =>
      rw [Request.size] at hs
      have hwrap : wrap 32 (h - 4) = h - 4 := wrap_int (by omega) (by omega)
      rw [Exhausted, run, map_cons]
      by_cases hlt : h < 4
      · have hstep : xdrmbuf ⟨[], p, h⟩ .getlong = (none, ⟨[], p, h - 4⟩) := by
          simp [xdrmbuf, xdrmbufGetlong, hwrap, hlt]
        rw [hstep, run_xdrmbuf_failed (by omega) (by omega)]
        simp [hlt]
      · simp [xdrmbuf, xdrmbufGetlong, hwrap, hlt]
    | getbytes len =>
      rw [Request.size] at hs
      have hwrap : wrap 32 (h - len) = h - len := wrap_int (by omega) (by omega)
      rw [Exhausted, run, map_cons]
      by_cases hlt : h < len
      · have hstep : xdrmbuf ⟨[], p, h⟩ (.getbytes len) = (none, ⟨[], p, h⟩) := by
          simp [xdrmbuf, xdrmbufGetbytes, getbytesLoop, hwrap, hlt]
        rw [hstep, ← ih (by omega)]
        simp [hlt]
      · simp [xdrmbuf, xdrmbufGetbytes, getbytesLoop, hwrap, hlt]

/-- Where `r` bytes are left in an mbuf with the chain `chain` behind it, a request leads to
    `o`. -/
def Leads (behind p : Mem) (r : ℕ) (b : Mbuf) (chain : List Mbuf) (a : Request) : After → Prop
  | .goes r' rest => r' + rest.sum + a.size = r + (chain.map Mbuf.m_len).sum ∧
    ∃ b' m chain' n, m :: chain' <:+ ⟨r, p⟩ :: chain ∧ chain'.map Mbuf.m_len = rest ∧
      advance (contents behind (⟨r, p⟩ :: chain)) a.size =
        contents behind (⟨r', advance m.mtod n⟩ :: chain') ∧
      xdrmbuf ⟨b :: chain, p, r⟩ a = (some (a.read (contents behind (⟨r, p⟩ :: chain))),
        ⟨b' :: chain', advance m.mtod n, r'⟩)
  | .ends h => r + (chain.map Mbuf.m_len).sum < a.size ∧ h < 2147483648 ∧ -a.size ≤ h ∧
    ∃ p', xdrmbuf ⟨b :: chain, p, r⟩ a = (none, ⟨[], p', h⟩)
  | .crosses => a = .getlong ∧ r < 4 ∧ ∃ m chain', chain = m :: chain' ∧ ¬(r = 0 ∧ 4 ≤ m.m_len) ∧
    (xdrmbuf ⟨b :: chain, p, r⟩ a).1 = some (.long (ntohl m.mtod))

/-- `getbytes` of bytes that are all in the mbuf. -/
theorem getbytes_leads_here (behind : Mem) (hlen : len ≤ 2147483648)
    (hr : r + (chain.map Mbuf.m_len).sum < 2147483648) (hle : len ≤ r) :
    Leads behind p r b chain (.getbytes len) (.goes (r - len) (chain.map Mbuf.m_len)) := by
  have hwrap : wrap 32 (r - len : ℤ) = r - len := wrap_int (by omega) (by omega)
  have hloop : getbytesLoop p r len (b :: chain) =
      (some (bytes p 0 len), ⟨b :: chain, advance p len, (r - len : ℕ)⟩) := by
    rw [getbytesLoop, hwrap, if_neg (by omega), cast_sub hle]
  refine ⟨by simp only [Request.size]; omega, b, ⟨r, p⟩, chain, len, suffix_rfl, rfl,
    advance_contents hle, ?_⟩
  simp [xdrmbuf, xdrmbufGetbytes, hloop, Request.read, bytes_contents hle]

theorem getbytes_leads (behind : Mem) (hlen : len ≤ 2147483648)
    (hr : r + (chain.map Mbuf.m_len).sum < 2147483648) :
    Leads behind p r b chain (.getbytes len) (seek r len (chain.map Mbuf.m_len)) := by
  have hwrap : wrap 32 (r - len : ℤ) = r - len := wrap_int (by omega) (by omega)
  induction chain generalizing p r len b with
  | nil =>
    rw [map_nil, seek]
    split_ifs with hle
    · exact getbytes_leads_here behind hlen hr hle
    · simp only [map_nil, sum_nil, add_zero] at hr
      refine ⟨by simp [Request.size]; omega, by omega, by omega, p, ?_⟩
      rw [xdrmbuf, xdrmbufGetbytes, getbytesLoop, hwrap, if_pos (by omega)]
      rfl
  | cons m chain ih =>
    rw [map_cons, seek]
    split_ifs with hle
    · exact getbytes_leads_here behind hlen hr hle
    · -- what is not here comes from the next mbuf
      rw [map_cons, sum_cons] at hr
      have hih : Leads behind m.mtod m.m_len m chain (.getbytes (len - r : ℕ))
          (seek m.m_len (len - r) (chain.map Mbuf.m_len)) :=
        ih (by omega) (by omega) (wrap_int (by omega) (by omega))
      have hloop : xdrmbuf ⟨b :: m :: chain, p, r⟩ (.getbytes len) =
          ((getbytesLoop m.mtod m.m_len (len - r) (m :: chain)).1.map
              fun addr => .bytes (bytes p 0 r ++ addr),
            (getbytesLoop m.mtod m.m_len (len - r) (m :: chain)).2) := by
        rw [xdrmbuf, xdrmbufGetbytes, getbytesLoop, hwrap, if_pos (by omega)]
        simp [Function.comp_def]
      generalize seek m.m_len (len - r) (chain.map Mbuf.m_len) = o at hih ⊢
      cases o with
      | goes r' rest =>
        obtain ⟨hsum, b', m', chain', n, hsuf, hrs, hadv, hstep⟩ := hih
        have hbyt := bytes_add (contents behind (⟨r, p⟩ :: m :: chain)) r (len - r)
        rw [bytes_contents le_rfl, advance_contents_len, Nat.add_sub_cancel' (by omega)] at hbyt
        refine ⟨?_, b', m', chain', n, hsuf.trans (suffix_cons _ _), hrs, ?_, ?_⟩
        · simp only [Request.size, map_cons, sum_cons] at hsum ⊢
          omega
        · rw [← hadv, Request.size, Request.size, ← advance_contents_len behind p r (m :: chain),
            advance_advance]
          congr 1
          omega
        · rw [hloop, Request.read, hbyt]
          simp only [xdrmbuf, xdrmbufGetbytes, Request.read, Prod.mk.injEq, Option.map_eq_some_iff,
            Value.bytes.injEq, exists_eq_right] at hstep
          simp [hstep]
      | ends h =>
        obtain ⟨hlt, hh, hle', p', hstep⟩ := hih
        refine ⟨?_, hh, ?_, p', ?_⟩
        · simp only [Request.size, map_cons, sum_cons] at hlt ⊢
          omega
        · simp only [Request.size] at hle' ⊢
          omega
        · rw [hloop]
          simp only [xdrmbuf, xdrmbufGetbytes, Prod.mk.injEq, Option.map_eq_none_iff] at hstep
          simp [hstep]
      | crosses =>
        exact absurd hih.1 (by simp)

theorem getlong_leads (behind : Mem) (hr : r + (chain.map Mbuf.m_len).sum < 2147483648) :
    Leads behind p r b chain .getlong (after r (chain.map Mbuf.m_len) .getlong) := by
  unfold after
  split_ifs with hle
  · have hwrap : wrap 32 (r - 4 : ℤ) = (r - 4 : ℕ) := by
      rw [wrap_int (by omega) (by omega)]
      omega
    refine ⟨by simp only [Request.size]; omega, b, ⟨r, p⟩, chain, 4, suffix_rfl, rfl,
      advance_contents hle, ?_⟩
    rw [Request.read, ntohl_contents hle]
    simp only [xdrmbuf, xdrmbufGetlong, hwrap]
    rw [if_neg (by omega)]
  · have hwrap : wrap 32 (r - 4 : ℤ) = r - 4 := wrap_int (by omega) (by omega)
    cases chain with
    | nil =>
      refine ⟨by simp [Request.size]; omega, by omega, by simp [Request.size], p, ?_⟩
      simp only [xdrmbuf, xdrmbufGetlong, hwrap]
      rw [if_pos (by omega)]
      rfl
    | cons m chain =>
      rw [map_cons, sum_cons] at hr
      have hstep : xdrmbuf ⟨b :: m :: chain, p, r⟩ .getlong =
          (some (.long (ntohl m.mtod)), ⟨m :: chain, advance m.mtod 4, m.m_len - 4⟩) := by
        have hwrap' : wrap 32 (m.m_len - 4 : ℤ) = m.m_len - 4 := wrap_int (by omega) (by omega)
        simp only [xdrmbuf, xdrmbufGetlong, hwrap, tail_cons, hwrap']
        rw [if_pos (by omega)]
      simp only [map_cons]
      split_ifs with hm
      · obtain ⟨rfl, hm⟩ := hm
        have hcon : contents behind (⟨0, p⟩ :: m :: chain) = contents behind (m :: chain) := by
          funext i
          simpa using contents_apply_add behind ⟨0, p⟩ (m :: chain) i
        refine ⟨by simp only [Request.size, map_cons, sum_cons]; omega, m, m, chain, 4,
          suffix_cons _ _, rfl, ?_, ?_⟩
        · rw [hcon]
          exact advance_contents hm
        · rw [hcon, hstep, Request.read, ntohl_contents hm, cast_sub hm]
          rfl
      · exact ⟨rfl, by omega, m, chain, rfl, hm, by rw [hstep]⟩

/-- A request leads where its length says. -/
theorem step_leads (behind : Mem) (ha : a.size ≤ 2147483648)
    (hr : r + (chain.map Mbuf.m_len).sum < 2147483648) :
    Leads behind p r b chain a (after r (chain.map Mbuf.m_len) a) := by
  cases a with
  | getlong => exact getlong_leads behind hr
  | getbytes len => exact getbytes_leads behind ha hr

/-! ### Runs -/

/-- Where every number is whole, a chain is read as the buffer is. -/
theorem run_of_whole (h : Whole r (chain.map Mbuf.m_len) rs)
    (hr : r + (chain.map Mbuf.m_len).sum < 2147483648)
    (hs : (rs.map Request.size).sum ≤ 2147483648) :
    run xdrmbuf ⟨b :: chain, p, r⟩ rs =
      run xdrmem ⟨contents behind (⟨r, p⟩ :: chain), (r + (chain.map Mbuf.m_len).sum : ℕ)⟩ rs := by
  induction rs generalizing r chain p b with
  | nil => rfl
  | cons a rs ih =>
    rw [map_cons, sum_cons] at hs
    have hlead := step_leads (p := p) (b := b) behind (show a.size ≤ 2147483648 by omega) hr
    rw [Whole] at h
    generalize after r (chain.map Mbuf.m_len) a = o at h hlead
    cases o with
    | goes r' rest =>
      obtain ⟨hsum, b', m, chain', n, -, rfl, hadv, hstep⟩ := hlead
      rw [run, run, hstep, xdrmem_some (by omega) (by omega), hadv, ih h (by omega) (by omega)]
      congr 3
      omega
    | ends h' =>
      obtain ⟨hlt, hh, hle, p', hstep⟩ := hlead
      rw [run, run, hstep, xdrmem_none (by omega) (by omega),
        (run_xdrmbuf_exhausted hh (by omega)).2 h, run_xdrmem_failed (by omega) (by omega)]
    | crosses => exact h.elim

/-- Memory of the same bytes. -/
def filled (c : UInt8) : Mem := fun _ => c

/-- Mbufs of ones with these numbers of bytes, except that one which has `k` behind it is of
    zeros. -/
def marked (k : Option ℕ) : List ℕ → List Mbuf
  | [] => []
  | r :: rest => ⟨r, filled (if k = some rest.length then 0 else 1)⟩ :: marked k rest

variable {k : Option ℕ}

theorem map_marked (k : Option ℕ) (rest : List ℕ) : (marked k rest).map Mbuf.m_len = rest := by
  induction rest with
  | nil => rfl
  | cons r rest ih => rw [marked, map_cons, ih]

theorem length_marked (k : Option ℕ) (rest : List ℕ) : (marked k rest).length = rest.length := by
  rw [← length_map, map_marked]

/-- An mbuf before the one of zeros, and what is behind it. -/
theorem suffix_marked (h : m :: chain <:+ marked k rest) (hk : ∀ j ∈ k, j < chain.length) :
    chain = marked k (chain.map Mbuf.m_len) ∧ m.mtod = filled 1 ∧ chain.length < rest.length := by
  induction rest with
  | nil => simp [marked] at h
  | cons r rest ih =>
    rw [marked, suffix_cons_iff] at h
    rcases h with h | h
    · obtain ⟨rfl, rfl⟩ := cons_eq_cons.1 h
      rw [length_marked] at hk ⊢
      have hne : k ≠ some rest.length := fun heq => (hk _ heq).ne rfl
      rw [map_marked, if_neg hne]
      exact ⟨rfl, rfl, lt_succ_self _⟩
    · obtain ⟨hchn, hm, hlt⟩ := ih h
      exact ⟨hchn, hm, hlt.trans (lt_succ_self _)⟩

/-- Where all mbufs are of ones, so are the bytes. -/
theorem contents_marked (hk : ∀ j ∈ k, rest.length ≤ j) (hn : n < rest.sum) :
    contents behind (marked k rest) n = 1 := by
  induction rest generalizing n with
  | nil => simp at hn
  | cons r rest ih =>
    rw [sum_cons] at hn
    have hne : k ≠ some rest.length := fun h => by
      have := hk _ h
      rw [length_cons] at this
      omega
    rw [marked, contents, if_neg hne]
    dsimp only
    split_ifs with hlt
    · rfl
    · exact ih (fun j hj => (le_succ _).trans (hk j hj)) (by omega)

theorem ntohl_ne_zero (hn : n < 4) (hp : p n = 1) : ntohl p ≠ 0 := by
  have hcas : n = 0 ∨ n = 1 ∨ n = 2 ∨ n = 3 := by omega
  rcases hcas with rfl | rfl | rfl | rfl <;>
    simp [ntohl, bytes, range_succ, decode, hp]

theorem ntohl_filled_zero : ntohl (filled 0) = 0 := by decide

/-- A number that goes into an mbuf of zeros, with ones before and after it. -/
theorem ntohl_across {k : ℕ} (hr : r < 4) (hcross : ¬(r = 0 ∧ 4 ≤ n)) (hk : rest.length ≤ k)
    (hle : 4 ≤ r + (n + rest.sum)) :
    ntohl (contents behind (⟨r, filled 1⟩ :: ⟨n, filled 0⟩ :: marked (some k) rest)) ≠ 0 := by
  by_cases hzero : r = 0
  · -- the bytes after those of the mbuf
    subst hzero
    have hn : n < 4 := by omega
    refine ntohl_ne_zero hn ?_
    have h1 := contents_apply_add behind ⟨0, filled 1⟩ (⟨n, filled 0⟩ :: marked (some k) rest) n
    have h2 := contents_apply_add behind ⟨n, filled 0⟩ (marked (some k) rest) 0
    rw [zero_add] at h1
    rw [h1]
    refine h2.trans (contents_marked (fun j hj => ?_) (by omega))
    cases hj
    exact hk
  · exact ntohl_ne_zero (show 0 < 4 by omega) (contents_apply (Nat.pos_of_ne_zero hzero))

/-- Where a number crosses mbufs, there are bytes for which the chain is read otherwise. -/
theorem exists_run_ne (h : ¬Whole r rest rs) (hr : r + rest.sum < 2147483648)
    (hs : (rs.map Request.size).sum ≤ 2147483648) :
    ∃ k : Option ℕ, (∀ j ∈ k, j < rest.length) ∧ ∀ b behind,
      run xdrmbuf ⟨b :: marked k rest, filled 1, r⟩ rs ≠
        run xdrmem ⟨contents behind (⟨r, filled 1⟩ :: marked k rest), (r + rest.sum : ℕ)⟩ rs := by
  induction rs generalizing r rest with
  | nil => exact absurd trivial h
  | cons a rs ih =>
    rw [map_cons, sum_cons] at hs
    have hlead : ∀ k b behind, Leads behind (filled 1) r b (marked k rest) a (after r rest a) := by
      intro k b behind
      have hlead : Leads behind (filled 1) r b (marked k rest) a
          (after r ((marked k rest).map Mbuf.m_len) a) :=
        step_leads behind (by omega) (by rwa [map_marked])
      rwa [map_marked] at hlead
    rw [Whole] at h
    generalize after r rest a = o at h hlead
    cases o with
    | goes r' rest' =>
      have hsum := (hlead none ⟨0, filled 0⟩ (filled 0)).1
      rw [map_marked] at hsum
      obtain ⟨k, hk, hne⟩ := ih h (by omega) (by omega)
      have hstep : ∀ b behind, ∃ b' v, rest'.length ≤ rest.length ∧
          xdrmbuf ⟨b :: marked k rest, filled 1, r⟩ a =
            (some v, ⟨b' :: marked k rest', filled 1, r'⟩) ∧
          advance (contents behind (⟨r, filled 1⟩ :: marked k rest)) a.size =
            contents behind (⟨r', filled 1⟩ :: marked k rest') := by
        intro b behind
        obtain ⟨-, b', m, chain, n, hsuf, rfl, hadv, hstep⟩ := hlead k b behind
        rw [length_map] at hk ⊢
        rw [suffix_cons_iff] at hsuf
        rcases hsuf with heq | hsuf
        · obtain ⟨rfl, rfl⟩ := cons_eq_cons.1 heq
          rw [map_marked]
          exact ⟨b', _, (length_marked k rest).le, hstep, hadv⟩
        · obtain ⟨hchn, hm, hlt⟩ := suffix_marked hsuf hk
          rw [hm] at hadv hstep
          rw [← hchn]
          exact ⟨b', _, hlt.le, hstep, hadv⟩
      obtain ⟨-, -, hlen, -⟩ := hstep ⟨0, filled 0⟩ (filled 0)
      refine ⟨k, fun j hj => (hk j hj).trans_le hlen, fun b behind heq => ?_⟩
      obtain ⟨b', v, -, hstep, hadv⟩ := hstep b behind
      refine hne b' behind ?_
      have hleft : ((r + rest.sum : ℕ) : ℤ) - a.size = (r' + rest'.sum : ℕ) := by omega
      rw [run, run, hstep, xdrmem_some (by omega) (by omega), hadv, hleft] at heq
      exact (cons_eq_cons.1 heq).2
    | ends h' =>
      -- what is left comes again on the chain only
      refine ⟨none, nofun, fun b behind heq => h ?_⟩
      obtain ⟨hlt, hh, hle, p', hstep⟩ := hlead none b behind
      rw [map_marked] at hlt
      rw [run, run, hstep, xdrmem_none (by omega) (by omega),
        run_xdrmem_failed (by omega) (by omega)] at heq
      exact (run_xdrmbuf_exhausted hh (by omega)).1 (cons_eq_cons.1 heq).2
    | crosses =>
      obtain ⟨rfl, hlt, m, chain, heq, -⟩ := hlead none ⟨0, filled 0⟩ (filled 0)
      cases rest with
      | nil => cases heq
      | cons n rest =>
        refine ⟨some rest.length, fun j hj => ?_, fun b behind heq => ?_⟩
        · cases hj
          exact lt_succ_self _
        · obtain ⟨-, -, m, chain, hm, hcross, hstep⟩ := hlead (some rest.length) b behind
          rw [marked, if_pos rfl] at hm
          obtain ⟨rfl, rfl⟩ := cons_eq_cons.1 hm
          rw [run, run] at heq
          have heq := (cons_eq_cons.1 heq).1
          rw [hstep, ntohl_filled_zero] at heq
          rw [sum_cons] at hr heq
          by_cases hle : 4 ≤ r + (n + rest.sum)
          · rw [xdrmem_some (by simp only [Request.size]; omega) (by omega), Request.read, marked,
              if_pos rfl] at heq
            have hzero := Value.long.inj (Option.some_inj.1 heq)
            exact ntohl_across hlt hcross le_rfl hle hzero.symm
          · rw [xdrmem_none (by simp only [Request.size]; omega)
              (by simp only [Request.size]; omega)] at heq
            cases heq

/-- A chain is read as a buffer of the same bytes, whatever they are, if and only if every number is
    whole and nothing is asked for again after it was refused. -/
theorem xdrmbuf_agrees (hr : r + rest.sum < 2147483648)
    (hs : (rs.map Request.size).sum ≤ 2147483648) :
    (∀ m chain behind, m.m_len = r → chain.map Mbuf.m_len = rest →
      run xdrmbuf (xdrmbufInit m chain) rs =
        run xdrmem (xdrmemCreate (contents behind (m :: chain)) (r + rest.sum)) rs) ↔
    Whole r rest rs := by
  have hcre : ∀ p, xdrmemCreate p (r + rest.sum) = ⟨p, (r + rest.sum : ℕ)⟩ := fun p => by
    rw [xdrmemCreate, wrap_int (by omega) (by omega)]
  simp only [hcre]
  constructor
  · intro h
    by_contra hw
    obtain ⟨k, -, hne⟩ := exists_run_ne hw hr hs
    exact hne _ (filled 0) (h ⟨r, filled 1⟩ (marked k rest) (filled 0) rfl (map_marked k rest))
  · rintro hw m chain behind rfl rfl
    exact run_of_whole hw hr hs

/-- A number in the first mbuf, and one and a byte in the next one. -/
theorem xdrmbuf_agrees_two : (∀ m chain behind, m.m_len = 4 → chain.map Mbuf.m_len = [5] →
      run xdrmbuf (xdrmbufInit m chain) [.getlong, .getlong, .getbytes 1] =
        run xdrmem (xdrmemCreate (contents behind (m :: chain)) (4 + [5].sum))
          [.getlong, .getlong, .getbytes 1]) ↔
    Whole 4 [5] [.getlong, .getlong, .getbytes 1] :=
  xdrmbuf_agrees (by decide) (by decide)

/-- A number of which each of two mbufs has two bytes. -/
theorem getlong_crosses :
    ¬∀ m chain behind rs, run xdrmbuf (xdrmbufInit m chain) rs =
      run xdrmem (xdrmemCreate (contents behind (m :: chain))
        (m.m_len + (chain.map Mbuf.m_len).sum)) rs := by
  intro h
  have := h ⟨2, filled 1⟩ [⟨2, filled 2⟩] (filled 0) [.getlong]
  exact absurd this (by decide)

end Uwisc.Xdr
