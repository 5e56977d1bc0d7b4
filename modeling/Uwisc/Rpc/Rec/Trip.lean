import Mathlib.Data.Nat.Bitwise
import Uwisc.Lib.Framing
import Uwisc.Rpc.Rec

/-!
# Records are read as they were written

* `Written`: what was sent and what is in the buffer are the fragments of the records that are
  closed, and of the one that is not; every write keeps it, whether it sends the buffer or not;
* `Ahead`: what is in the buffer and what is to come are the rest of a record, and the fragments of
  those that come next; every read keeps it, whatever pieces the transport gives.

So what is read is what was written, record for record (`records_round_trip`).
-/

namespace Uwisc.Rpc

open BitVec Lib List Nat Option

/-- The header of a fragment. -/
def fragHeader (eor : Bool) (len : ℕ) : List UInt8 :=
  htonl (.ofNat 32 len ||| if eor then LAST_FRAG else 0)

/-- A fragment is shorter than this. -/
def FRAG_BOUND : ℕ := 2 ^ 31

theorem length_fragHeader (eor : Bool) (len : ℕ) : (fragHeader eor len).length = 4 := by
  rw [fragHeader, htonl, length_reverse, length_encode]

theorem toNat_header (eor : Bool) {len : ℕ} (h : len < FRAG_BOUND) :
    (BitVec.ofNat 32 len ||| if eor then LAST_FRAG else 0).toNat =
      len ||| if eor then 2 ^ 31 else 0 := by
  rw [FRAG_BOUND] at h
  have hlen : (BitVec.ofNat 32 len).toNat = len := mod_eq_of_lt (by omega)
  rw [toNat_or, hlen]
  cases eor <;> rfl

/-- A header is read back. -/
theorem fragHeader_spec (eor : Bool) {len : ℕ} (h : len < FRAG_BOUND) :
    let header := BitVec.ofNat 32 (decode (fragHeader eor len).reverse)
    decide (header &&& LAST_FRAG ≠ 0) = eor ∧ (header &&& ~~~LAST_FRAG).toNat = len := by
  have hbnd : len < 2 ^ 31 := h
  have hhea : BitVec.ofNat 32 (decode (fragHeader eor len).reverse) =
      BitVec.ofNat 32 len ||| if eor then LAST_FRAG else 0 := by
    rw [fragHeader, htonl, reverse_reverse, decode_encode (isLt _), ofNat_toNat, setWidth_eq]
  have hlast : LAST_FRAG.toNat = 2 ^ 31 := by decide
  have hrs : (~~~LAST_FRAG).toNat = 2 ^ 31 - 1 := by decide
  have hbit : len.testBit 31 = false := testBit_lt_two_pow hbnd
  dsimp only
  rw [hhea]
  constructor
  · have hmask : ((BitVec.ofNat 32 len ||| if eor then LAST_FRAG else 0) &&& LAST_FRAG).toNat =
        if eor then 2 ^ 31 else 0 := by
      rw [toNat_and, hlast, toNat_header eor h, and_two_pow, testBit_or, hbit]
      cases eor <;> decide
    have hiff : ((BitVec.ofNat 32 len ||| if eor then LAST_FRAG else 0) &&& LAST_FRAG ≠ 0) ↔
        eor = true := by
      rw [ne_eq, ← toNat_inj, hmask]
      cases eor <;> decide
    cases eor with
    | false => exact decide_eq_false fun h => absurd (hiff.1 h) (by decide)
    | true => exact decide_eq_true (hiff.2 rfl)
  · rw [toNat_and, hrs, toNat_header eor h, and_two_pow_sub_one_eq_mod,
      or_mod_two_pow, mod_eq_of_lt hbnd]
    cases eor
    · exact Nat.or_zero len
    · exact Nat.or_zero len

/-! ### Writing -/

/-- What is in the buffer and complete. -/
def OutStrm.unsent (rstrm : OutStrm) : List UInt8 :=
  bytes rstrm.mem rstrm.out_base (rstrm.frag_header - rstrm.out_base)

/-- What is in the fragment so far. -/
def OutStrm.fragment (rstrm : OutStrm) : List UInt8 :=
  bytes rstrm.mem (rstrm.frag_header + 4) (rstrm.out_finger - rstrm.frag_header - 4)

/-- The records `rs` are closed, and `cur` is in the one that is not. -/
def Written (rstrm : OutStrm) (rs : List (List UInt8)) (cur : List UInt8) : Prop :=
  ∃ w w' p, Records fragHeader FRAG_BOUND w rs ∧ Unfinished fragHeader FRAG_BOUND w' p ∧
    rstrm.written ++ rstrm.unsent = w ++ w' ∧ cur = p ++ rstrm.fragment

/-- The records `rs` are closed, and nothing is written after them. -/
def Closed (rstrm : OutStrm) (rs : List (List UInt8)) : Prop :=
  Records fragHeader FRAG_BOUND (rstrm.written ++ rstrm.unsent) rs ∧ rstrm.fragment = []

variable {rstrm rstrm' : OutStrm} {rs : List (List UInt8)} {cur : List UInt8}

theorem length_fragment_lt (rstrm : OutStrm) : rstrm.fragment.length < FRAG_BOUND := by
  have := rstrm.finger_le
  have := rstrm.le_usrstack
  rw [OutStrm.fragment, length_bytes, FRAG_BOUND]
  rw [USRSTACK] at this
  omega

theorem Closed.written (h : Closed rstrm rs) : Written rstrm rs [] :=
  ⟨_, [], [], h.1, .nil, (append_nil _).symm, h.2.symm⟩

theorem closed_create (sendsize : ℕ) (buf : Alloc (fixBufSize sendsize)) :
    Closed (xdrrecCreateOut sendsize buf) [] := by
  have hwire : (xdrrecCreateOut sendsize buf).written ++ (xdrrecCreateOut sendsize buf).unsent =
      [] := by
    simp [xdrrecCreateOut, OutStrm.unsent, bytes]
  refine ⟨hwire ▸ .nil, ?_⟩
  simp [xdrrecCreateOut, OutStrm.fragment, bytes]

theorem Written.put (h : Written rstrm rs cur) (l : List UInt8)
    (hl : rstrm.out_finger + l.length ≤ rstrm.out_boundry) :
    Written (rstrm.put l hl) rs (cur ++ l) := by
  obtain ⟨w, w', p, hreco, hopen, hwire, rfl⟩ := h
  have hbase := rstrm.base_le
  have hhea := rstrm.header_le
  have hsame : SameOn rstrm.mem (rstrm.put l hl).mem rstrm.out_base rstrm.out_finger :=
    sameOn_store (.inl le_rfl)
  refine ⟨w, w', p, hreco, hopen, ?_, ?_⟩
  · have huns : (rstrm.put l hl).unsent = rstrm.unsent := by
      rw [OutStrm.unsent, OutStrm.unsent]
      simp only [OutStrm.put] at hsame ⊢
      exact hsame.bytes_eq le_rfl (by omega)
    rw [huns, ← hwire]
    rfl
  · have hnew : (rstrm.put l hl).fragment = rstrm.fragment ++ l := by
      have hleng : rstrm.out_finger + l.length - rstrm.frag_header - 4 =
          rstrm.out_finger - rstrm.frag_header - 4 + l.length := by omega
      have hend : rstrm.frag_header + 4 + (rstrm.out_finger - rstrm.frag_header - 4) =
          rstrm.out_finger := by omega
      rw [OutStrm.fragment, OutStrm.fragment]
      simp only [OutStrm.put]
      rw [hleng, bytes_add, hend, bytes_store]
      exact congrArg (· ++ l) (hsame.bytes_eq (by omega) (by omega))
    rw [hnew, List.append_assoc]

/-- What is sent: what was complete, and the fragment with its header. -/
theorem bytes_flushed (rstrm : OutStrm) (eor : Bool) :
    bytes (store rstrm.mem rstrm.frag_header (fragHeader eor rstrm.fragment.length)) rstrm.out_base
        (rstrm.out_finger - rstrm.out_base) =
      rstrm.unsent ++ (fragHeader eor rstrm.fragment.length ++ rstrm.fragment) := by
  have hbase := rstrm.base_le
  have hhea := rstrm.header_le
  have hleng := length_fragHeader eor rstrm.fragment.length
  have hspl : rstrm.out_finger - rstrm.out_base = rstrm.frag_header - rstrm.out_base +
      (4 + (rstrm.out_finger - rstrm.frag_header - 4)) := by omega
  have hmid : rstrm.out_base + (rstrm.frag_header - rstrm.out_base) = rstrm.frag_header := by omega
  have hbyt := bytes_store rstrm.mem rstrm.frag_header (fragHeader eor rstrm.fragment.length)
  have hbef : SameOn rstrm.mem
      (store rstrm.mem rstrm.frag_header (fragHeader eor rstrm.fragment.length))
      rstrm.out_base rstrm.frag_header := sameOn_store (.inl le_rfl)
  have haft : SameOn rstrm.mem
      (store rstrm.mem rstrm.frag_header (fragHeader eor rstrm.fragment.length))
      (rstrm.frag_header + 4) rstrm.out_finger := sameOn_store (.inr (by rw [hleng]))
  rw [hleng] at hbyt
  rw [hspl, bytes_add, hmid, bytes_add, hbyt, hbef.bytes_eq le_rfl (by omega),
    haft.bytes_eq le_rfl (by omega)]
  rfl

theorem header_eq (rstrm : OutStrm) (eor : Bool) :
    rstrm.header (if eor then LAST_FRAG else 0) = fragHeader eor rstrm.fragment.length := by
  rw [OutStrm.header, fragHeader, OutStrm.fragment, length_bytes]

theorem written_flushed (rstrm : OutStrm) (eor : Bool) : (rstrm.flushed eor).written =
    rstrm.written ++ (rstrm.unsent ++ (fragHeader eor rstrm.fragment.length ++ rstrm.fragment)) := by
  rw [OutStrm.flushed]
  dsimp only
  rw [header_eq, bytes_flushed]

theorem unsent_flushed (rstrm : OutStrm) (eor : Bool) : (rstrm.flushed eor).unsent = [] := by
  simp [OutStrm.unsent, OutStrm.flushed, bytes]

theorem fragment_flushed (rstrm : OutStrm) (eor : Bool) : (rstrm.flushed eor).fragment = [] := by
  simp [OutStrm.fragment, OutStrm.flushed, bytes]

/-- The buffer is sent in the middle of a record. -/
theorem Written.flushed (h : Written rstrm rs cur) : Written (rstrm.flushed false) rs cur := by
  obtain ⟨w, w', p, hreco, hopen, hwire, rfl⟩ := h
  refine ⟨w, _, _, hreco, hopen.snoc (length_fragment_lt rstrm), ?_, ?_⟩
  · rw [written_flushed, unsent_flushed, append_nil, ← List.append_assoc, hwire, List.append_assoc]
  · rw [fragment_flushed, append_nil]

/-- The buffer is sent at the end of a record. -/
theorem Written.flushed_eor (h : Written rstrm rs cur) :
    Closed (rstrm.flushed true) (rs ++ [cur]) := by
  obtain ⟨w, w', p, hreco, hopen, hwire, rfl⟩ := h
  refine ⟨?_, fragment_flushed _ _⟩
  rw [written_flushed, unsent_flushed, append_nil, ← List.append_assoc, hwire, List.append_assoc]
  exact hreco.snoc (hopen.close (length_fragment_lt rstrm))

section Write

variable {writeit : List UInt8 → List UInt8 → Bool} (hwrite : ∀ sent out, writeit sent out = true)
include hwrite

theorem flushOut_eq (rstrm : OutStrm) (eor : Bool) :
    flushOut writeit rstrm eor = some (rstrm.flushed eor) := by
  rw [flushOut]
  exact if_pos (hwrite _ _)

theorem xdrrecPutlong_spec (h : Written rstrm rs cur) (l : BitVec 32) :
    ∃ rstrm', xdrrecPutlong writeit rstrm l = some rstrm' ∧ Written rstrm' rs (cur ++ htonl l) := by
  rw [xdrrecPutlong]
  split_ifs with hroom
  · exact ⟨_, rfl, h.put _ hroom⟩
  · have hsent : Written { rstrm with frag_sent := true } rs cur := h
    split
    · rename_i hnone
      rw [flushOut_eq hwrite] at hnone
      cases hnone
    · rename_i rstrm' hsome
      refine ⟨_, rfl, Written.put ?_ _ _⟩
      rw [flushOut_some hsome]
      exact hsent.flushed

theorem xdrrecPutbytes_spec (h : Written rstrm rs cur) (addr : List UInt8) :
    ∃ rstrm', xdrrecPutbytes writeit rstrm addr = some rstrm' ∧ Written rstrm' rs (cur ++ addr) := by
  induction rstrm, addr using xdrrecPutbytes.induct writeit generalizing cur with
  | case1 rstrm =>
    rw [xdrrecPutbytes, if_pos rfl, append_nil]
    exact ⟨rstrm, rfl, h⟩
  | case2 rstrm addr haddr current rstrm' hfull =>
    rename_i hnone
    rw [flushOut_eq hwrite] at hnone
    cases hnone
  | case3 rstrm addr haddr current rstrm' hfull rstrm'' hsome =>
    rename_i ih
    have hput : Written rstrm' rs (cur ++ addr.take current) := h.put _ _
    have hsent : Written rstrm'' rs (cur ++ addr.take current) := by
      rw [flushOut_some hsome]
      exact hput.flushed
    obtain ⟨out, hrun, hout⟩ := ih hsent
    rw [List.append_assoc, take_append_drop] at hout
    refine ⟨out, ?_, hout⟩
    rw [xdrrecPutbytes, if_neg haddr]
    dsimp only
    rw [if_pos hfull]
    split
    · rename_i hnone
      cases hsome.symm.trans hnone
    · rename_i hsome'
      rwa [some.inj (hsome'.symm.trans hsome)]
  | case4 rstrm addr haddr current rstrm' hroom =>
    rename_i ih
    obtain ⟨out, hrun, hout⟩ := ih (h.put (addr.take current) _)
    rw [List.append_assoc, take_append_drop] at hout
    refine ⟨out, ?_, hout⟩
    rw [xdrrecPutbytes, if_neg haddr]
    exact (if_neg hroom).trans hrun

/-- A record is closed. -/
theorem xdrrecEndofrecord_spec (h : Written rstrm rs cur) (sendnow : Bool) :
    ∃ rstrm', xdrrecEndofrecord writeit rstrm sendnow = some rstrm' ∧
      Closed rstrm' (rs ++ [cur]) ∧ (sendnow = true → rstrm'.unsent = []) := by
  rw [xdrrecEndofrecord]
  split_ifs with hnow
  · have hsent : Written { rstrm with frag_sent := false } rs cur := h
    exact ⟨_, flushOut_eq hwrite _ _, hsent.flushed_eor, fun _ => unsent_flushed _ _⟩
  · obtain ⟨w, w', p, hreco, hopen, hwire, rfl⟩ := h
    have huns := bytes_flushed rstrm true
    rw [← header_eq] at huns
    refine ⟨_, rfl, ⟨?_, ?_⟩, fun hsen => absurd (.inl hsen) hnow⟩
    · have hall := hreco.snoc (hopen.close (length_fragment_lt rstrm))
      rw [← List.append_assoc, ← hwire, List.append_assoc, ← header_eq, ← huns] at hall
      exact hall
    · simp [OutStrm.fragment, bytes]

/-- The bytes that are written. -/
def Put.data : Put → List UInt8
  | .putlong l => htonl l
  | .putbytes addr => addr

theorem Put.run_spec (h : Written rstrm rs cur) (p : Put) :
    ∃ rstrm', p.run writeit rstrm = some rstrm' ∧ Written rstrm' rs (cur ++ p.data) := by
  cases p with
  | putlong l => exact xdrrecPutlong_spec hwrite h l
  | putbytes addr => exact xdrrecPutbytes_spec hwrite h addr

theorem puts_spec (h : Written rstrm rs cur) (ps : List Put) :
    ∃ rstrm', ps.foldlM (Put.run writeit) rstrm = some rstrm' ∧
      Written rstrm' rs (cur ++ ps.flatMap Put.data) := by
  induction ps generalizing rstrm cur with
  | nil => exact ⟨rstrm, rfl, by rwa [flatMap_nil, append_nil]⟩
  | cons p ps ih =>
    obtain ⟨rstrm1, hp, hone⟩ := Put.run_spec hwrite h p
    obtain ⟨rstrm2, hps, hall⟩ := ih hone
    refine ⟨rstrm2, ?_, ?_⟩
    · rw [foldlM_cons, hp]
      exact hps
    · rwa [flatMap_cons, ← List.append_assoc]

/-- The data of a record. -/
def recordData (rec : List Put × Bool) : List UInt8 := rec.1.flatMap Put.data

/-- Records are written one after the other, and what is closed with `sendnow` is sent. -/
theorem putRecords_spec (h : Closed rstrm rs) (recs : List (List Put × Bool)) :
    ∃ rstrm', recs.foldlM (putRecord writeit) rstrm = some rstrm' ∧
      Closed rstrm' (rs ++ recs.map recordData) ∧
        (∀ rec ∈ recs.getLast?, rec.2 = true → rstrm'.unsent = []) := by
  induction recs generalizing rstrm rs with
  | nil => exact ⟨rstrm, rfl, by rwa [map_nil, append_nil], fun _ h => nomatch h⟩
  | cons rec recs ih =>
    obtain ⟨rstrm1, hputs, hcur⟩ := puts_spec hwrite h.written rec.1
    rw [nil_append] at hcur
    obtain ⟨rstrm2, hend, hclo, hsent⟩ := xdrrecEndofrecord_spec hwrite hcur rec.2
    obtain ⟨rstrm3, hrs, hall, hlast⟩ := ih hclo
    refine ⟨rstrm3, ?_, ?_, ?_⟩
    · have hput : putRecord writeit rstrm rec = some rstrm2 := by
        rw [putRecord, hputs]
        exact hend
      rw [foldlM_cons, hput]
      exact hrs
    · rwa [List.append_assoc] at hall
    · cases recs with
      | nil =>
        intro rec' hrec hnow
        cases hrs
        cases hrec
        exact hsent hnow
      | cons rec' recs => exact hlast

end Write

/-! ### Reading -/

/-- `cur` is left of a record, and `next` comes after it. -/
def Ahead (rstrm : InStrm) (cur : List UInt8) (next : List (List UInt8)) : Prop :=
  ∃ w, Records fragHeader FRAG_BOUND w next ∧
    (rstrm.last_frag = true ∧ cur.length = rstrm.fbtbc ∧ rstrm.ahead = cur ++ w ∨
      rstrm.last_frag = false ∧ ∃ p w' q, p.length = rstrm.fbtbc ∧
        Fragments fragHeader FRAG_BOUND w' q ∧ cur = p ++ q ∧ rstrm.ahead = p ++ (w' ++ w))

section Read

variable {piece : ℕ → ℕ} {r r' : InStrm} {next : List (List UInt8)} {q : List UInt8} {n : ℕ}

theorem ahead_create (recvsize : ℕ) (buf : Alloc (fixBufSize recvsize)) {w : List UInt8}
    (h : Records fragHeader FRAG_BOUND w next) : Ahead (xdrrecCreateIn recvsize buf w) [] next := by
  refine ⟨w, h, .inl ⟨rfl, rfl, ?_⟩⟩
  simp [xdrrecCreateIn, InStrm.ahead, bytes]

/-- The bytes of a fragment are those ahead. -/
theorem Ahead.take (h : Ahead r cur next) (hn : n ≤ r.fbtbc) :
    n ≤ cur.length ∧ n ≤ r.ahead.length ∧ r.ahead.take n = cur.take n := by
  obtain ⟨w, -, ⟨-, hleng, hw⟩ | ⟨-, p, w', q, hleng, -, rfl, hw⟩⟩ := h
  · have hle : n ≤ cur.length := by rwa [hleng]
    refine ⟨hle, ?_, ?_⟩
    · rw [hw, length_append]
      omega
    · rw [hw, take_append_of_le_length hle]
  · have hle : n ≤ p.length := by rwa [hleng]
    refine ⟨?_, ?_, ?_⟩
    · rw [length_append]
      omega
    · rw [hw, length_append]
      omega
    · rw [hw, take_append_of_le_length hle, take_append_of_le_length hle]

/-- Bytes of a fragment are read. -/
theorem Ahead.drop (h : Ahead r cur next) (hn : n ≤ r.fbtbc) (hahead : r'.ahead = r.ahead.drop n)
    (hfbtbc : r'.fbtbc = r.fbtbc - n) (hlast : r'.last_frag = r.last_frag) :
    Ahead r' (cur.drop n) next := by
  obtain ⟨w, hreco, ⟨hlast', hleng, hw⟩ | ⟨hlast', p, w', q, hleng, hq, rfl, hw⟩⟩ := h
  · have hle : n ≤ cur.length := by rwa [hleng]
    refine ⟨w, hreco, .inl ⟨hlast.trans hlast', ?_, ?_⟩⟩
    · rw [length_drop, hleng, hfbtbc]
    · rw [hahead, hw, drop_append_of_le_length hle]
  · have hle : n ≤ p.length := by rwa [hleng]
    refine ⟨w, hreco, .inr ⟨hlast.trans hlast', p.drop n, w', q, ?_, hq, ?_, ?_⟩⟩
    · rw [length_drop, hleng, hfbtbc]
    · rw [drop_append_of_le_length hle]
    · rw [hahead, hw, drop_append_of_le_length hle]

variable (piece) in
/-- A header is read. -/
theorem setInputFragment_spec {eor : Bool} {rest : List UInt8} (hn : n < FRAG_BOUND)
    (h : r.ahead = fragHeader eor n ++ rest) :
    ∃ r', setInputFragment piece r = (true, r') ∧ r'.last_frag = eor ∧ r'.fbtbc = n ∧
      r'.ahead = rest := by
  have hleng := length_fragHeader eor n
  have hspec := getInputBytes_spec piece r 4
  rw [if_pos (by rw [h, length_append, hleng]; omega)] at hspec
  obtain ⟨r', hget, hrs, -⟩ := hspec
  rw [h, take_left' hleng] at hget
  rw [h, drop_left' hleng] at hrs
  obtain ⟨hlast, hfbtbc⟩ := fragHeader_spec eor hn
  have hset : setInputFragment piece r = (true, { r' with
      last_frag := BitVec.ofNat 32 (decode (fragHeader eor n).reverse) &&& LAST_FRAG ≠ 0
      fbtbc := (BitVec.ofNat 32 (decode (fragHeader eor n).reverse) &&& ~~~LAST_FRAG).toNat }) := by
    rw [setInputFragment, hget]
  exact ⟨_, hset, hlast, hfbtbc, hrs⟩

variable (piece) in
/-- The next fragment of a record. -/
theorem Ahead.fragment (h : Ahead r cur next) (hlast : r.last_frag = false) (hzero : r.fbtbc = 0) :
    ∃ r', setInputFragment piece r = (true, r') ∧ Ahead r' cur next := by
  obtain ⟨w, hreco, ⟨hlast', -⟩ | ⟨-, p, w', q, hleng, hq, rfl, hw⟩⟩ := h
  · rw [hlast] at hlast'
    cases hlast'
  · obtain rfl := eq_nil_of_length_eq_zero (hleng.trans hzero)
    cases hq with
    | last q hbnd =>
      rw [nil_append, List.append_assoc] at hw
      obtain ⟨r', hset, hlast, hfbtbc, hrs⟩ := setInputFragment_spec piece hbnd hw
      exact ⟨r', hset, w, hreco, .inl ⟨hlast, hfbtbc.symm, hrs⟩⟩
    | more p hbnd hq =>
      rw [nil_append, List.append_assoc, List.append_assoc] at hw
      obtain ⟨r', hset, hlast, hfbtbc, hrs⟩ := setInputFragment_spec piece hbnd hw
      exact ⟨r', hset, w, hreco, .inr ⟨hlast, p, _, _, hfbtbc.symm, hq, rfl, hrs⟩⟩

/-- The end of a record. -/
theorem Ahead.eq_nil (h : Ahead r cur next) (hlast : r.last_frag = true) (hzero : r.fbtbc = 0) :
    cur = [] := by
  obtain ⟨w, -, ⟨-, hleng, -⟩ | ⟨hlast', -⟩⟩ := h
  · exact eq_nil_of_length_eq_zero (hleng.trans hzero)
  · rw [hlast] at hlast'
    cases hlast'

/-- From the end of a record to the next. -/
theorem Ahead.nextRecord (h : Ahead r cur (q :: next)) (hlast : r.last_frag = true)
    (hzero : r.fbtbc = 0) : Ahead { r with last_frag := false } q next := by
  have hnil := h.eq_nil hlast hzero
  obtain ⟨w, hreco, ⟨-, -, hw⟩ | ⟨hlast', -⟩⟩ := h
  · cases hreco with
    | cons hq hrs =>
      rw [hnil] at hw
      exact ⟨_, hrs, .inr ⟨rfl, [], _, q, hzero.symm, hq, rfl, hw⟩⟩
  · rw [hlast] at hlast'
    cases hlast'

variable (piece) in
/-- Bytes of a fragment are got from the buffer. -/
theorem Ahead.get (h : Ahead r cur next) (hn : n ≤ r.fbtbc) :
    ∃ r', getInputBytes piece r n = (some (cur.take n), r') ∧ n ≤ cur.length ∧
      Ahead { r' with fbtbc := r'.fbtbc - n } (cur.drop n) next ∧ r'.fbtbc = r.fbtbc ∧
        r'.last_frag = r.last_frag := by
  have hspec := getInputBytes_spec piece r n
  obtain ⟨hcur, hle, htake⟩ := h.take hn
  rw [if_pos hle] at hspec
  obtain ⟨r', hget, hahead, hfbtbc, hlast⟩ := hspec
  rw [htake] at hget
  refine ⟨r', hget, hcur, h.drop hn hahead ?_ hlast, hfbtbc, hlast⟩
  dsimp only
  rw [hfbtbc]

variable (piece) in
/-- Bytes are read if there are as many left of the record. -/
theorem xdrrecGetbytes_spec (h : Ahead r cur next) (n : ℕ) :
    ∃ r', xdrrecGetbytes piece r n = (if n ≤ cur.length then some (cur.take n) else none, r') ∧
      Ahead r' (cur.drop n) next := by
  induction r, n using xdrrecGetbytes.induct piece generalizing cur with
  | case1 r =>
    rw [xdrrecGetbytes, if_pos rfl, if_pos (Nat.zero_le _)]
    exact ⟨r, rfl, h⟩
  | case2 r n hn hzero hlast =>
    obtain rfl := h.eq_nil hlast hzero
    rw [xdrrecGetbytes, if_neg hn, if_pos hzero, if_pos hlast, if_neg (by simpa using hn), drop_nil]
    exact ⟨r, rfl, h⟩
  | case3 r n hn hzero hlast r' =>
    rename_i hset
    obtain ⟨r1, hset1, -⟩ := Ahead.fragment piece h (by simpa using hlast) hzero
    rw [hset1] at hset
    cases hset
  | case4 r n hn hzero hlast r' =>
    rename_i hset ih
    obtain ⟨r1, hset1, hnx⟩ := Ahead.fragment piece h (by simpa using hlast) hzero
    obtain ⟨-, rfl⟩ := Prod.mk.inj (hset1.symm.trans hset)
    obtain ⟨r2, hget, hrs⟩ := ih hnx
    refine ⟨r2, ?_, hrs⟩
    rw [← hget, xdrrecGetbytes, if_neg hn, if_pos hzero, if_neg hlast]
    split
    · simp_all
    · simp_all
  | case5 r n hn hpos current r' =>
    rename_i hnone
    obtain ⟨r1, hget, -⟩ := Ahead.get piece h (min_le_right n r.fbtbc)
    rw [hnone] at hget
    cases hget
  | case6 r n hn hpos current addr r' =>
    rename_i hsome ih
    obtain ⟨r1, hget, hle, hrs, -⟩ := Ahead.get piece h (min_le_right n r.fbtbc)
    obtain ⟨haddr, rfl⟩ := Prod.mk.inj (hsome.symm.trans hget)
    obtain ⟨r2, hmore, hlast⟩ := ih hrs
    rw [drop_drop] at hlast
    have hn' : current + (n - current) = n := Nat.add_sub_cancel' (min_le_left _ _)
    rw [hn'] at hlast
    refine ⟨r2, ?_, hlast⟩
    rw [xdrrecGetbytes, if_neg hn, if_neg hpos]
    dsimp only
    split
    · rename_i hnone
      cases hnone.symm.trans hsome
    · rename_i hsome'
      obtain ⟨haddr', rfl⟩ := Prod.mk.inj (hsome'.symm.trans hsome)
      cases haddr'
      cases haddr
      have htake : cur.take n = cur.take current ++ (cur.drop current).take (n - current) := by
        rw [← take_add, hn']
      refine (congrArg (fun r : Option (List UInt8) × InStrm =>
        (r.1.map fun l => cur.take current ++ l, r.2)) hmore).trans ?_
      have hleng : (cur.drop current).length = cur.length - current := length_drop
      by_cases hn'' : n ≤ cur.length
      · rw [if_pos hn'', if_pos (by rw [hleng]; omega), htake]
        rfl
      · rw [if_neg hn'', if_neg (by rw [hleng]; omega)]
        rfl

variable (piece) in
/-- A number is read as its bytes are. -/
theorem xdrrecGetlong_spec (h : Ahead r cur next) :
    ∃ r', xdrrecGetlong piece r = (if 4 ≤ cur.length then
        some (.ofNat 32 (decode (cur.take 4).reverse)) else none, r') ∧
      Ahead r' (cur.drop 4) next := by
  rw [xdrrecGetlong]
  split_ifs with hfast hle hle
  · obtain ⟨-, -, htake⟩ := h.take hfast.1
    have hahead := ahead_advance r hfast.2
    have hleng : (bytes r.mem r.in_finger 4).length = 4 := length_bytes _ _ _
    have hdrop : InStrm.ahead { r with fbtbc := r.fbtbc - 4, in_finger := r.in_finger + 4 } =
        r.ahead.drop 4 := by
      rw [hahead, drop_left' hleng]
      rfl
    rw [hahead, take_left' hleng] at htake
    refine ⟨_, ?_, h.drop hfast.1 hdrop rfl rfl⟩
    rw [ntohl, htake]
  · exact absurd (h.take hfast.1).1 hle
  · obtain ⟨r', hget, hrs⟩ := xdrrecGetbytes_spec piece h 4
    rw [hget, if_pos hle]
    exact ⟨r', rfl, hrs⟩
  · obtain ⟨r', hget, hrs⟩ := xdrrecGetbytes_spec piece h 4
    rw [hget, if_neg hle]
    exact ⟨r', rfl, hrs⟩

variable (piece) in
/-- What is left of a fragment is skipped. -/
theorem Ahead.skip (h : Ahead r cur next) :
    ∃ r', skipInputBytes piece r r.fbtbc = (true, r') ∧
      Ahead { r' with fbtbc := 0 } (cur.drop r.fbtbc) next ∧ r'.last_frag = r.last_frag := by
  obtain ⟨r', hget, -, hrs, hfbtbc, hlast⟩ := Ahead.get piece h le_rfl
  refine ⟨r', ?_, ?_, hlast⟩
  · rw [skipInputBytes_eq, hget]
    rfl
  · rwa [hfbtbc, Nat.sub_self] at hrs

variable (piece) in
/-- What is left of a record is skipped. -/
theorem xdrrecSkiprecord_spec (h : Ahead r cur (q :: next)) :
    ∃ r', xdrrecSkiprecord piece r = (true, r') ∧ Ahead r' q next := by
  induction r using xdrrecSkiprecord.induct piece generalizing cur with
  | case1 r hmore r' =>
    rename_i hskip
    obtain ⟨r1, hskip1, -⟩ := Ahead.skip piece h
    rw [hskip1] at hskip
    cases hskip
  | case2 r hmore r' =>
    rename_i hskip hlast ih
    obtain ⟨r1, hskip1, hrs, -⟩ := Ahead.skip piece h
    obtain ⟨-, rfl⟩ := Prod.mk.inj (hskip1.symm.trans hskip)
    obtain ⟨r2, hrun, hq⟩ := ih hrs
    refine ⟨r2, ?_, hq⟩
    rw [← hrun, xdrrecSkiprecord, if_pos hmore]
    split <;> simp_all
  | case3 r hmore r' =>
    rename_i hskip hlast r1 hset
    obtain ⟨r2, hskip2, hrs, -⟩ := Ahead.skip piece h
    obtain ⟨-, rfl⟩ := Prod.mk.inj (hskip2.symm.trans hskip)
    obtain ⟨r3, hset3, -⟩ := Ahead.fragment piece hrs (by simpa using hlast) rfl
    rw [hset3] at hset
    cases hset
  | case4 r hmore r' =>
    rename_i hskip hlast r1 hset ih
    obtain ⟨r2, hskip2, hrs, -⟩ := Ahead.skip piece h
    obtain ⟨-, rfl⟩ := Prod.mk.inj (hskip2.symm.trans hskip)
    obtain ⟨r3, hset3, hnx⟩ := Ahead.fragment piece hrs (by simpa using hlast) rfl
    obtain ⟨-, rfl⟩ := Prod.mk.inj (hset3.symm.trans hset)
    obtain ⟨r4, hrun, hq⟩ := ih hnx
    refine ⟨r4, ?_, hq⟩
    rw [← hrun, xdrrecSkiprecord, if_pos hmore]
    split
    · simp_all
    · split
      · simp_all
      · split <;> simp_all
  | case5 r hdone =>
    rw [xdrrecSkiprecord, if_neg hdone]
    exact ⟨_, rfl, h.nextRecord (by simpa using fun h => hdone (.inr h)) (by omega)⟩

end Read

/-! ### Round trips -/

/-- Something to be read. -/
inductive Get
  | skiprecord
  | getlong
  | getbytes (len : ℕ)
  deriving DecidableEq

/-- Reads, and returns the bytes that are read unless it fails. -/
def Get.run (piece : ℕ → ℕ) (r : InStrm) : Get → Option (List UInt8) × InStrm
  | .skiprecord => ((if (xdrrecSkiprecord piece r).1 then some [] else none),
      (xdrrecSkiprecord piece r).2)
  | .getlong => ((xdrrecGetlong piece r).1.map htonl, (xdrrecGetlong piece r).2)
  | .getbytes len => xdrrecGetbytes piece r len

/-- What is read, one after the other. -/
def readGets (piece : ℕ → ℕ) (r : InStrm) : List Get → List (Option (List UInt8))
  | [] => []
  | g :: gs => (g.run piece r).1 :: readGets piece (g.run piece r).2 gs

/-- Some bytes of a record, if there are as many left of it. -/
def takeBytes (cur : List UInt8) (n : ℕ) : Option (List UInt8) :=
  if n ≤ cur.length then some (cur.take n) else none

/-- What there is to be read, if `cur` is left of a record and `next` comes after it. -/
def readRecords : List UInt8 → List (List UInt8) → List Get → List (Option (List UInt8))
  | _, _, [] => []
  | _, [], .skiprecord :: gs => none :: readRecords [] [] gs
  | _, q :: next, .skiprecord :: gs => some [] :: readRecords q next gs
  | cur, next, .getlong :: gs => takeBytes cur 4 :: readRecords (cur.drop 4) next gs
  | cur, next, .getbytes n :: gs => takeBytes cur n :: readRecords (cur.drop n) next gs

theorem htonl_ofNat {l : List UInt8} (h : l.length = 4) :
    htonl (.ofNat 32 (decode l.reverse)) = l := by
  have hlt := decode_lt l.reverse
  rw [length_reverse, h] at hlt
  have hlt : decode l.reverse < 2 ^ 32 := hlt
  have henc := encode_decode l.reverse
  rw [length_reverse, h] at henc
  rw [htonl, toNat_ofNat, mod_eq_of_lt hlt, henc, reverse_reverse]

/-- What is read is what there is, as long as there is a record to skip to. -/
theorem readGets_eq (piece : ℕ → ℕ) {r : InStrm} {cur : List UInt8} {next : List (List UInt8)}
    (h : Ahead r cur next) {gs : List Get} (hgs : gs.count .skiprecord ≤ next.length) :
    readGets piece r gs = readRecords cur next gs := by
  induction gs generalizing r cur next with
  | nil => cases next <;> rfl
  | cons g gs ih =>
    rw [readGets]
    cases g with
    | skiprecord =>
      rw [count_cons_self] at hgs
      cases next with
      | nil => exact absurd hgs (by simp)
      | cons q next =>
        obtain ⟨r', hskip, hrs⟩ := xdrrecSkiprecord_spec piece h
        rw [readRecords, Get.run, hskip, ih hrs (by simpa using hgs)]
        rfl
    | getlong =>
      rw [count_cons_of_ne (by decide)] at hgs
      obtain ⟨r', hget, hrs⟩ := xdrrecGetlong_spec piece h
      rw [readRecords, Get.run, hget, ih hrs hgs, takeBytes]
      split_ifs with hle
      · rw [map_some, htonl_ofNat (length_take_of_le hle)]
      · rfl
    | getbytes n =>
      rw [count_cons_of_ne (by simp)] at hgs
      obtain ⟨r', hget, hrs⟩ := xdrrecGetbytes_spec piece h n
      rw [readRecords, Get.run, hget, ih hrs hgs, takeBytes]

/-- Records that are written are read back as they were, each up to where it was closed, whatever
    sizes the buffers have and whatever pieces the transport gives. -/
theorem records_round_trip {writeit : List UInt8 → List UInt8 → Bool}
    (hwrite : ∀ sent out, writeit sent out = true) (piece : ℕ → ℕ) {sendsize recvsize : ℕ}
    (obuf : Alloc (fixBufSize sendsize)) (ibuf : Alloc (fixBufSize recvsize))
    (recs : List (List Put × Bool)) (gets : List Get)
    (hgets : gets.count .skiprecord ≤ recs.length) :
    ∃ rstrm, recs.foldlM (putRecord writeit) (xdrrecCreateOut sendsize obuf) = some rstrm ∧
      (∀ rec ∈ recs.getLast?, rec.2 = true → rstrm.unsent = []) ∧
        readGets piece (xdrrecCreateIn recvsize ibuf (rstrm.written ++ rstrm.unsent)) gets =
          readRecords [] (recs.map recordData) gets := by
  obtain ⟨rstrm, hrun, hclo, hsent⟩ := putRecords_spec hwrite (closed_create sendsize obuf) recs
  refine ⟨rstrm, hrun, hsent, readGets_eq piece (ahead_create recvsize ibuf hclo.1) ?_⟩
  rwa [nil_append, length_map]

def userBuf : Alloc (fixBufSize 0) := ⟨4096, by decide⟩

/-- A byte at a time, the record ends after seven of them. -/
theorem records_round_trip_sevenBytes :
    ∃ rstrm, [([Put.putlong 7, .putbytes [1, 2, 3]], true)].foldlM
        (putRecord fun _ _ => true) (xdrrecCreateOut 0 userBuf) = some rstrm ∧
      (∀ rec ∈ [([Put.putlong 7, .putbytes [1, 2, 3]], true)].getLast?,
        rec.2 = true → rstrm.unsent = []) ∧
        readGets (fun _ => 1) (xdrrecCreateIn 0 userBuf (rstrm.written ++ rstrm.unsent))
            [.skiprecord, .getlong, .getbytes 3, .getbytes 1] =
          [some [], some [0, 0, 0, 7], some [1, 2, 3], none] :=
  records_round_trip (fun _ _ => rfl) (fun _ => 1) userBuf userBuf
    [([.putlong 7, .putbytes [1, 2, 3]], true)] [.skiprecord, .getlong, .getbytes 3, .getbytes 1]
    (by decide)

end Uwisc.Rpc
