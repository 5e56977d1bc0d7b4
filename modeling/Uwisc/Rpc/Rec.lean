import Uwisc.Rpc.Prot

/-!
# Records of a stream

The record-marking streams of `sys/rpc/xdr_rec.c`, of a user process. A record is written as
fragments, each with a header that has its length and whether it is the last of the record; the
header is filled in when the fragment is complete, and the buffer may be sent at any time.

The out-going and the in-coming bits of `RECSTREAM` are kept apart. `writeit` is the transport's
answer to a write, which depends on what was written before; a read gets some of what comes, at
least a byte, and `piece n` is how much the read number `n` gets if it may.
-/

namespace Uwisc.Rpc

open Lib List Option

/-- The start of the user stack, with no memory above it that could be allocated. -/
def USRSTACK : ℕ := 0x80000000 - 10 * 512

/-- What `mem_alloc` gives. -/
structure Alloc (size : ℕ) where
  base : ℕ
  le_usrstack : base + size ≤ USRSTACK

/-- The last fragment of a record. -/
def LAST_FRAG : BitVec 32 := 1 <<< 31

/-- Down to the next size that is good (the loop of `fix_buf_size`). -/
def fixDown : ℕ → ℕ
  | 0 => 0
  | s + 1 => if (s + 1) % 4 = 2 then s + 1 else fixDown s

def fixBufSize (s : ℕ) : ℕ := if s < 100 then 3998 else fixDown s

theorem le_fixDown {s : ℕ} (h : 98 ≤ s) : 98 ≤ fixDown s := by
  induction s with
  | zero => omega
  | succ s ih =>
    rw [fixDown]
    split_ifs with hs
    · exact h
    · exact ih (by omega)

/-- A buffer is not too small. -/
theorem le_fixBufSize (s : ℕ) : 98 ≤ fixBufSize s := by
  rw [fixBufSize]
  split_ifs with hs
  · omega
  · exact le_fixDown (by omega)

/-! ### Out-going bits -/

structure OutStrm where
  mem : Mem
  out_base : ℕ
  out_finger : ℕ
  out_boundry : ℕ
  frag_header : ℕ
  frag_sent : Bool
  /-- What was written to the transport. -/
  written : List UInt8
  room : out_base + 98 ≤ out_boundry
  le_usrstack : out_boundry ≤ USRSTACK
  base_le : out_base ≤ frag_header
  header_le : frag_header + 4 ≤ out_finger
  finger_le : out_finger ≤ out_boundry

/-- The out-going bits of `xdrrec_create`. -/
def xdrrecCreateOut (sendsize : ℕ) (buf : Alloc (fixBufSize sendsize)) : OutStrm where
  mem _ := 0
  out_base := buf.base
  out_finger := buf.base + 4
  out_boundry := buf.base + fixBufSize sendsize
  frag_header := buf.base
  frag_sent := false
  written := []
  room := Nat.add_le_add_left (le_fixBufSize sendsize) _
  le_usrstack := buf.le_usrstack
  base_le := le_rfl
  header_le := le_rfl
  finger_le := Nat.add_le_add_left ((by decide : 4 ≤ 98).trans (le_fixBufSize sendsize)) _

/-- The header of a fragment up to the finger. -/
def OutStrm.header (rstrm : OutStrm) (eormask : BitVec 32) : List UInt8 :=
  htonl (.ofNat 32 (rstrm.out_finger - rstrm.frag_header - 4) ||| eormask)

/-- Some bytes, put at the finger. -/
def OutStrm.put (rstrm : OutStrm) (l : List UInt8)
    (h : rstrm.out_finger + l.length ≤ rstrm.out_boundry) : OutStrm :=
  { rstrm with
    mem := store rstrm.mem rstrm.out_finger l
    out_finger := rstrm.out_finger + l.length
    header_le := rstrm.header_le.trans (Nat.le_add_right _ _)
    finger_le := h }

/-- The buffer, sent. -/
def OutStrm.flushed (rstrm : OutStrm) (eor : Bool) : OutStrm :=
  let mem := store rstrm.mem rstrm.frag_header (rstrm.header (if eor then LAST_FRAG else 0))
  { rstrm with
    mem
    written := rstrm.written ++ bytes mem rstrm.out_base (rstrm.out_finger - rstrm.out_base)
    frag_header := rstrm.out_base
    out_finger := rstrm.out_base + 4
    base_le := le_rfl
    header_le := le_rfl
    finger_le := (Nat.add_le_add_left (by decide) _).trans rstrm.room }

section Out

variable (writeit : List UInt8 → List UInt8 → Bool)

def flushOut (rstrm : OutStrm) (eor : Bool) : Option OutStrm :=
  let mem := store rstrm.mem rstrm.frag_header (rstrm.header (if eor then LAST_FRAG else 0))
  if writeit rstrm.written (bytes mem rstrm.out_base (rstrm.out_finger - rstrm.out_base)) then
    some (rstrm.flushed eor)
  else none

variable {writeit} in
theorem flushOut_some {rstrm rstrm' : OutStrm} {eor : Bool}
    (h : flushOut writeit rstrm eor = some rstrm') : rstrm' = rstrm.flushed eor := by
  rw [flushOut] at h
  split_ifs at h <;> exact (some.inj h).symm

def xdrrecPutlong (rstrm : OutStrm) (l : BitVec 32) : Option OutStrm :=
  if h : rstrm.out_finger + (htonl l).length ≤ rstrm.out_boundry then some (rstrm.put (htonl l) h)
  else
    match hflush : flushOut writeit { rstrm with frag_sent := true } false with
    | none => none
    | some rstrm' => some (rstrm'.put (htonl l) (by
        rw [flushOut_some hflush]
        have := rstrm.room
        simp only [OutStrm.flushed, htonl, length_reverse, length_encode]
        omega))

def xdrrecPutbytes (rstrm : OutStrm) (addr : List UInt8) : Option OutStrm :=
  if addr = [] then some rstrm
  else
    let current := min addr.length (rstrm.out_boundry - rstrm.out_finger)
    let rstrm' := rstrm.put (addr.take current) (by
      have := rstrm.finger_le
      simp only [length_take]
      omega)
    if rstrm'.out_finger = rstrm'.out_boundry then
      match hflush : flushOut writeit { rstrm' with frag_sent := true } false with
      | none => none
      | some rstrm'' => xdrrecPutbytes rstrm'' (addr.drop current)
    else xdrrecPutbytes rstrm' (addr.drop current)
termination_by 2 * addr.length + (1 - (rstrm.out_boundry - rstrm.out_finger))
decreasing_by
  · have := rstrm.room
    have := rstrm.finger_le
    have := length_pos_iff.2 ‹addr ≠ []›
    rw [flushOut_some hflush]
    simp only [OutStrm.flushed, OutStrm.put, rstrm', current, length_drop]
    omega
  · have := rstrm.finger_le
    have := length_pos_iff.2 ‹addr ≠ []›
    have hne : rstrm'.out_finger ≠ rstrm'.out_boundry := ‹_›
    simp only [OutStrm.put, rstrm', current, length_take, length_drop] at hne ⊢
    omega

def xdrrecEndofrecord (rstrm : OutStrm) (sendnow : Bool) : Option OutStrm :=
  if h : sendnow = true ∨ rstrm.frag_sent = true ∨ rstrm.out_finger + 4 ≥ rstrm.out_boundry then
    flushOut writeit { rstrm with frag_sent := false } true
  else
    some { rstrm with
      mem := store rstrm.mem rstrm.frag_header (rstrm.header LAST_FRAG)
      frag_header := rstrm.out_finger
      out_finger := rstrm.out_finger + 4
      base_le := rstrm.base_le.trans ((Nat.le_add_right _ 4).trans rstrm.header_le)
      header_le := le_rfl
      finger_le := by omega }

/-- Something to be written to a record. -/
inductive Put
  | putlong (l : BitVec 32)
  | putbytes (addr : List UInt8)

/-- Writes to a record. -/
def Put.run (rstrm : OutStrm) : Put → Option OutStrm
  | .putlong l => xdrrecPutlong writeit rstrm l
  | .putbytes addr => xdrrecPutbytes writeit rstrm addr

/-- Writes a record, and closes it. -/
def putRecord (rstrm : OutStrm) (rec : List Put × Bool) : Option OutStrm :=
  (rec.1.foldlM (Put.run writeit) rstrm).bind fun rstrm => xdrrecEndofrecord writeit rstrm rec.2

end Out

/-! ### In-coming bits -/

structure InStrm where
  mem : Mem
  in_size : ℕ
  in_base : ℕ
  in_finger : ℕ
  in_boundry : ℕ
  fbtbc : ℕ
  last_frag : Bool
  /-- What comes from the transport. -/
  coming : List UInt8
  /-- How often it was read. -/
  reads : ℕ
  two_le : 2 ≤ in_size

/-- The in-coming bits of `xdrrec_create`. -/
def xdrrecCreateIn (recvsize : ℕ) (buf : Alloc (fixBufSize recvsize)) (coming : List UInt8) :
    InStrm where
  mem _ := 0
  in_size := fixBufSize recvsize
  in_base := buf.base
  in_finger := buf.base + fixBufSize recvsize
  in_boundry := buf.base + fixBufSize recvsize
  fbtbc := 0
  last_frag := true
  coming := coming
  reads := 0
  two_le := (by decide : 2 ≤ 98).trans (le_fixBufSize recvsize)

section In

variable (piece : ℕ → ℕ)

/-- How many bytes a read of `len` gets. -/
def InStrm.readit (rstrm : InStrm) (len : ℕ) : ℕ :=
  min (max 1 (piece rstrm.reads)) (min len rstrm.coming.length)

def fillInputBuf (rstrm : InStrm) : Option InStrm :=
  -- odd bytes of the stream stay odd bytes of the memory
  let odd := rstrm.in_boundry % 2
  let n := rstrm.readit piece (rstrm.in_size - odd)
  if rstrm.coming = [] then none
  else
    some { rstrm with
      mem := store rstrm.mem (rstrm.in_base + odd) (rstrm.coming.take n)
      in_finger := rstrm.in_base + odd
      in_boundry := rstrm.in_base + odd + n
      coming := rstrm.coming.drop n
      reads := rstrm.reads + 1 }

/-- What is in the buffer, and what is to come. -/
def InStrm.ahead (rstrm : InStrm) : List UInt8 :=
  bytes rstrm.mem rstrm.in_finger (rstrm.in_boundry - rstrm.in_finger) ++ rstrm.coming

theorem one_le_readit (rstrm : InStrm) (h : rstrm.coming ≠ []) :
    1 ≤ rstrm.readit piece (rstrm.in_size - rstrm.in_boundry % 2) := by
  have := rstrm.two_le
  have := length_pos_iff.2 h
  rw [InStrm.readit]
  omega

variable {piece} in
theorem fillInputBuf_some {rstrm rstrm' : InStrm} (h : fillInputBuf piece rstrm = some rstrm') :
    rstrm'.in_finger < rstrm'.in_boundry ∧ rstrm'.ahead = rstrm.coming ∧
      rstrm'.fbtbc = rstrm.fbtbc ∧ rstrm'.last_frag = rstrm.last_frag := by
  rw [fillInputBuf] at h
  split_ifs at h with hcom
  have hone := one_le_readit piece rstrm hcom
  cases h
  refine ⟨by dsimp only; omega, ?_, rfl, rfl⟩
  have hleng : (rstrm.coming.take (rstrm.readit piece (rstrm.in_size - rstrm.in_boundry % 2))).length =
      rstrm.readit piece (rstrm.in_size - rstrm.in_boundry % 2) := by
    rw [length_take, InStrm.readit]
    omega
  have hbyt := bytes_store rstrm.mem (rstrm.in_base + rstrm.in_boundry % 2)
    (rstrm.coming.take (rstrm.readit piece (rstrm.in_size - rstrm.in_boundry % 2)))
  rw [hleng] at hbyt
  simp only [InStrm.ahead, Nat.add_sub_cancel_left, hbyt, take_append_drop]

/-- Some bytes of the buffer are done with. -/
def InStrm.advance (rstrm : InStrm) (current : ℕ) : InStrm :=
  { rstrm with in_finger := rstrm.in_finger + current }

def getInputBytes (rstrm : InStrm) (len : ℕ) : Option (List UInt8) × InStrm :=
  if len = 0 then (some [], rstrm)
  else if rstrm.in_boundry - rstrm.in_finger = 0 then
    match _ : fillInputBuf piece rstrm with
    | none => (none, rstrm)
    | some rstrm' => getInputBytes rstrm' len
  else
    let current := min len (rstrm.in_boundry - rstrm.in_finger)
    let r := getInputBytes (rstrm.advance current) (len - current)
    (r.1.map fun addr => bytes rstrm.mem rstrm.in_finger current ++ addr, r.2)
termination_by 2 * len + (1 - (rstrm.in_boundry - rstrm.in_finger))
decreasing_by
  · have := (fillInputBuf_some ‹_›).1
    omega
  · simp only [InStrm.advance]
    omega

def skipInputBytes (rstrm : InStrm) (cnt : ℕ) : Bool × InStrm :=
  if cnt = 0 then (true, rstrm)
  else if rstrm.in_boundry - rstrm.in_finger = 0 then
    match _ : fillInputBuf piece rstrm with
    | none => (false, rstrm)
    | some rstrm' => skipInputBytes rstrm' cnt
  else
    let current := min cnt (rstrm.in_boundry - rstrm.in_finger)
    skipInputBytes (rstrm.advance current) (cnt - current)
termination_by 2 * cnt + (1 - (rstrm.in_boundry - rstrm.in_finger))
decreasing_by
  · have := (fillInputBuf_some ‹_›).1
    omega
  · simp only [InStrm.advance]
    omega

section

variable {piece} {rstrm rstrm' : InStrm} {len : ℕ}

theorem getInputBytes_zero (rstrm : InStrm) : getInputBytes piece rstrm 0 = (some [], rstrm) := by
  rw [getInputBytes, if_pos rfl]

theorem getInputBytes_of_none (hlen : len ≠ 0) (hemp : rstrm.in_boundry - rstrm.in_finger = 0)
    (hfill : fillInputBuf piece rstrm = none) : getInputBytes piece rstrm len = (none, rstrm) := by
  rw [getInputBytes, if_neg hlen, if_pos hemp]
  split <;> simp_all

theorem getInputBytes_of_some (hlen : len ≠ 0) (hemp : rstrm.in_boundry - rstrm.in_finger = 0)
    (hfill : fillInputBuf piece rstrm = some rstrm') :
    getInputBytes piece rstrm len = getInputBytes piece rstrm' len := by
  rw [getInputBytes, if_neg hlen, if_pos hemp]
  split <;> simp_all

theorem getInputBytes_of_pos (hlen : len ≠ 0) (hpos : rstrm.in_boundry - rstrm.in_finger ≠ 0) :
    getInputBytes piece rstrm len = let current := min len (rstrm.in_boundry - rstrm.in_finger)
      let r := getInputBytes piece (rstrm.advance current) (len - current)
      (r.1.map fun addr => bytes rstrm.mem rstrm.in_finger current ++ addr, r.2) := by
  rw [getInputBytes, if_neg hlen, if_neg hpos]

/-- Bytes are skipped as they are got. -/
theorem skipInputBytes_eq (rstrm : InStrm) (cnt : ℕ) : skipInputBytes piece rstrm cnt =
    ((getInputBytes piece rstrm cnt).1.isSome, (getInputBytes piece rstrm cnt).2) := by
  induction rstrm, cnt using skipInputBytes.induct piece with
  | case1 rstrm =>
    rw [getInputBytes_zero, skipInputBytes, if_pos rfl]
    rfl
  | case2 rstrm cnt hcnt hemp hfill =>
    rw [getInputBytes_of_none hcnt hemp hfill, skipInputBytes, if_neg hcnt, if_pos hemp]
    split <;> simp_all
  | case3 rstrm cnt hcnt hemp rstrm' hfill ih =>
    rw [getInputBytes_of_some hcnt hemp hfill, skipInputBytes, if_neg hcnt, if_pos hemp]
    split <;> simp_all
  | case4 rstrm cnt hcnt hpos current ih =>
    rw [getInputBytes_of_pos hcnt hpos, skipInputBytes, if_neg hcnt, if_neg hpos, ih]
    simp only [isSome_map]
    rfl

theorem ahead_advance (rstrm : InStrm) {current : ℕ}
    (h : current ≤ rstrm.in_boundry - rstrm.in_finger) :
    rstrm.ahead = bytes rstrm.mem rstrm.in_finger current ++ (rstrm.advance current).ahead := by
  have hspl : rstrm.in_boundry - rstrm.in_finger =
      current + (rstrm.in_boundry - (rstrm.in_finger + current)) := by omega
  rw [InStrm.ahead, hspl, bytes_add, append_assoc, InStrm.ahead]
  rfl

variable (piece) in
/-- Bytes are got if there are as many ahead. -/
theorem getInputBytes_spec (rstrm : InStrm) (len : ℕ) :
    if len ≤ rstrm.ahead.length then
      ∃ rstrm', getInputBytes piece rstrm len = (some (rstrm.ahead.take len), rstrm') ∧
        rstrm'.ahead = rstrm.ahead.drop len ∧ rstrm'.fbtbc = rstrm.fbtbc ∧
          rstrm'.last_frag = rstrm.last_frag
    else (getInputBytes piece rstrm len).1 = none := by
  induction rstrm, len using getInputBytes.induct piece with
  | case1 rstrm =>
    rw [if_pos (Nat.zero_le _), getInputBytes_zero]
    exact ⟨rstrm, rfl, rfl, rfl, rfl⟩
  | case2 rstrm len hlen hemp hfill =>
    have hcom : rstrm.coming = [] := by
      rw [fillInputBuf] at hfill
      split_ifs at hfill with hcom
      exact hcom
    have hahead : rstrm.ahead.length = 0 := by
      rw [InStrm.ahead, length_append, length_bytes, hemp, hcom, length_nil]
    rw [if_neg (by omega), getInputBytes_of_none hlen hemp hfill]
  | case3 rstrm len hlen hemp rstrm' hfill ih =>
    obtain ⟨_, hahead, hfbtbc, hlast⟩ := fillInputBuf_some hfill
    have hsame : rstrm.ahead = rstrm.coming := by
      rw [InStrm.ahead, hemp]
      rfl
    rw [getInputBytes_of_some hlen hemp hfill, hsame, ← hahead, ← hfbtbc, ← hlast]
    exact ih
  | case4 rstrm len hlen hpos current ih =>
    have hahead : rstrm.ahead =
        bytes rstrm.mem rstrm.in_finger current ++ (rstrm.advance current).ahead :=
      ahead_advance rstrm (min_le_right len _)
    have hcur : current ≤ len := min_le_left _ _
    have hleng := congrArg length hahead
    rw [length_append, length_bytes] at hleng
    rw [getInputBytes_of_pos hlen hpos]
    split_ifs at ih ⊢ with h h' h'
    · obtain ⟨rstrm', hget, hrs, hfie⟩ := ih
      have hle : (bytes rstrm.mem rstrm.in_finger current).length ≤ len := by
        rw [length_bytes]
        omega
      refine ⟨rstrm', ?_, ?_, hfie⟩
      · rw [hahead, take_append, take_of_length_le hle, length_bytes]
        simp only [hget, map_some, current]
      · rw [hrs, hahead, drop_append, drop_eq_nil_of_le hle, length_bytes]
        rfl
    · omega
    · omega
    · simp only [ih, map_none, current]

theorem getInputBytes_some {addr : List UInt8}
    (h : getInputBytes piece rstrm len = (some addr, rstrm')) :
    len ≤ rstrm.ahead.length ∧ addr = rstrm.ahead.take len ∧ rstrm'.ahead = rstrm.ahead.drop len ∧
      rstrm'.fbtbc = rstrm.fbtbc ∧ rstrm'.last_frag = rstrm.last_frag := by
  have hspec := getInputBytes_spec piece rstrm len
  split_ifs at hspec with hle
  · obtain ⟨rstrm1, hget, hfie⟩ := hspec
    rw [hget] at h
    obtain ⟨haddr, rfl⟩ := Prod.mk.inj h
    exact ⟨hle, (some.inj haddr).symm, hfie⟩
  · rw [h] at hspec
    cases hspec

theorem skipInputBytes_true {cnt : ℕ} (h : skipInputBytes piece rstrm cnt = (true, rstrm')) :
    cnt ≤ rstrm.ahead.length ∧ rstrm'.ahead = rstrm.ahead.drop cnt ∧
      rstrm'.fbtbc = rstrm.fbtbc ∧ rstrm'.last_frag = rstrm.last_frag := by
  rw [skipInputBytes_eq] at h
  rcases hget : getInputBytes piece rstrm cnt with ⟨_ | addr, r⟩
  · rw [hget] at h
    cases h
  · rw [hget] at h
    cases h
    obtain ⟨hle, -, hfie⟩ := getInputBytes_some hget
    exact ⟨hle, hfie⟩

end

/-- The next four bytes of the input stream are treated as a header. -/
def setInputFragment (rstrm : InStrm) : Bool × InStrm :=
  match getInputBytes piece rstrm 4 with
  | (none, rstrm) => (false, rstrm)
  | (some l, rstrm) =>
    let header : BitVec 32 := .ofNat 32 (decode l.reverse)
    (true, { rstrm with
      last_frag := header &&& LAST_FRAG ≠ 0
      fbtbc := (header &&& ~~~LAST_FRAG).toNat })

variable {piece} in
theorem setInputFragment_some {rstrm rstrm' : InStrm}
    (h : setInputFragment piece rstrm = (true, rstrm')) :
    4 ≤ rstrm.ahead.length ∧ rstrm'.ahead = rstrm.ahead.drop 4 := by
  rw [setInputFragment] at h
  rcases hget : getInputBytes piece rstrm 4 with ⟨_ | l, r⟩
  · rw [hget] at h
    cases h
  · rw [hget] at h
    cases h
    obtain ⟨hle, -, hahead, _⟩ := getInputBytes_some hget
    exact ⟨hle, hahead⟩

def xdrrecGetbytes (rstrm : InStrm) (len : ℕ) : Option (List UInt8) × InStrm :=
  if len = 0 then (some [], rstrm)
  else if rstrm.fbtbc = 0 then
    if rstrm.last_frag then (none, rstrm)
    else
      match _ : setInputFragment piece rstrm with
      | (false, rstrm') => (none, rstrm')
      | (true, rstrm') => xdrrecGetbytes rstrm' len
  else
    let current := min len rstrm.fbtbc
    match _ : getInputBytes piece rstrm current with
    | (none, rstrm') => (none, rstrm')
    | (some addr, rstrm') =>
      let r := xdrrecGetbytes { rstrm' with fbtbc := rstrm'.fbtbc - current } (len - current)
      (r.1.map fun l => addr ++ l, r.2)
termination_by rstrm.ahead.length + len
decreasing_by
  · obtain ⟨hle, hahead⟩ := setInputFragment_some ‹_›
    rw [hahead, length_drop]
    omega
  · obtain ⟨_, _, hahead, _⟩ := getInputBytes_some ‹_›
    simp only [InStrm.ahead] at hahead ⊢
    rw [hahead, length_drop]
    omega

def xdrrecGetlong (rstrm : InStrm) : Option (BitVec 32) × InStrm :=
  if 4 ≤ rstrm.fbtbc ∧ 4 ≤ rstrm.in_boundry - rstrm.in_finger then
    (some (ntohl rstrm.mem rstrm.in_finger),
      { rstrm with fbtbc := rstrm.fbtbc - 4, in_finger := rstrm.in_finger + 4 })
  else
    let r := xdrrecGetbytes piece rstrm 4
    (r.1.map fun mylong => .ofNat 32 (decode mylong.reverse), r.2)

def xdrrecSkiprecord (rstrm : InStrm) : Bool × InStrm :=
  if rstrm.fbtbc > 0 ∨ rstrm.last_frag = false then
    match _ : skipInputBytes piece rstrm rstrm.fbtbc with
    | (false, rstrm') => (false, rstrm')
    | (true, rstrm') =>
      if rstrm'.last_frag = true then xdrrecSkiprecord { rstrm' with fbtbc := 0 }
      else
        match _ : setInputFragment piece { rstrm' with fbtbc := 0 } with
        | (false, rstrm'') => (false, rstrm'')
        | (true, rstrm'') => xdrrecSkiprecord rstrm''
  else (true, { rstrm with last_frag := false })
termination_by rstrm.ahead.length
decreasing_by
  · obtain ⟨hle, hahead, -, hlast⟩ := skipInputBytes_true ‹_›
    have hpos : 0 < rstrm.fbtbc := by
      rcases ‹_ ∨ _› with hpos | hfalse
      · exact hpos
      · simp_all
    simp only [InStrm.ahead] at hle hahead ⊢
    rw [hahead, length_drop]
    omega
  · obtain ⟨hle, hahead⟩ := setInputFragment_some ‹_›
    obtain ⟨_, hskip, -⟩ := skipInputBytes_true ‹_›
    simp only [InStrm.ahead] at hle hahead hskip ⊢
    rw [hahead, length_drop, hskip, length_drop]
    rw [hskip, length_drop] at hle
    omega

end In

end Uwisc.Rpc
