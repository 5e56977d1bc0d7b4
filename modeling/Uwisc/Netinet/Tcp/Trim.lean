import Mathlib.Tactic.Linarith
import Uwisc.Netinet.Ip
import Uwisc.Netinet.Tcp.Var

/-!
# Trimming a segment to the receive window

What `tcp_input` of `sys/netinet/tcp_input.c` does with a segment, in a state other than `LISTEN` or
`SYN_SENT`, before it looks at it: data (and SYN) before `rcv_nxt` and data (and PUSH and FIN) after the
window are dropped, or all of the segment is (`none`: the `goto dropafterack`).

The comparisons are of differences as an `int`, which those of a segment that ends half the sequence space
or more after the window are not.

* `trimLeading_spec`, `trimTrailing_spec`: what is left after each of the two cuts;
* `trim_spec`: what is left is in the window and was in the segment;
* `trim_far`: a segment that ends too far after the window is left as it is.
-/

namespace Uwisc.Tcp

open Ip Lib List

/-- A segment as it is handled: what may change of its header, `tiflags`, and the chain of its data. -/
structure Incoming where
  ti_seq : Seq
  ti_len : ℤ
  ti_urp : ℤ := 0
  tiflags : Flags := {}
  m : List Mbuf
  deriving DecidableEq

/-- `tiflags &= ~(TH_PUSH|TH_FIN)`. -/
def Flags.clearPushFin (f : Flags) : Flags := { f with push := false, fin := false }

/-- If window is closed can only take segments at window edge. -/
def trimClosed (tp : Tcpcb) (p : Incoming) : Option Incoming :=
  if tp.rcv_nxt ≠ p.ti_seq then none
  else if 0 < p.ti_len then
    some { p with m := mAdj p.ti_len.toNat p.m, ti_len := 0, tiflags := p.tiflags.clearPushFin }
  else some p

/-- SYN is dropped, and the urgent pointer adjusted. -/
def Incoming.dropSyn (p : Incoming) : Incoming :=
  { p with
    tiflags := { p.tiflags with syn := false, urg := p.tiflags.urg && decide (1 < p.ti_urp) }
    ti_seq := p.ti_seq + 1
    ti_urp := if 1 < p.ti_urp then p.ti_urp - 1 else p.ti_urp }

/-- Leading data is dropped, and all of the segment if nothing is left. -/
def Incoming.dropLeading (p : Incoming) (todrop : ℤ) : Option Incoming :=
  if p.ti_len < todrop ∨ todrop = p.ti_len ∧ p.tiflags.fin = false then none
  else some {
    m := mAdj todrop.toNat p.m
    ti_seq := p.ti_seq + BitVec.ofInt 32 todrop
    ti_len := p.ti_len - todrop
    ti_urp := if todrop < p.ti_urp then p.ti_urp - todrop else 0
    tiflags := { p.tiflags with urg := p.tiflags.urg && decide (todrop < p.ti_urp) } }

/-- If segment begins before `rcv_nxt`, drop leading data (and SYN). -/
def trimLeading (tp : Tcpcb) (p : Incoming) : Option Incoming :=
  let todrop := seqDiff tp.rcv_nxt p.ti_seq
  if 0 < todrop then
    if p.tiflags.syn then p.dropSyn.dropLeading (todrop - 1) else p.dropLeading todrop
  else some p

/-- If segment ends after window, drop trailing data (and PUSH and FIN). -/
def trimTrailing (tp : Tcpcb) (p : Incoming) : Option Incoming :=
  let todrop := seqDiff (p.ti_seq + BitVec.ofInt 32 p.ti_len) (tp.rcv_nxt + BitVec.ofInt 32 tp.rcv_wnd)
  if 0 < todrop then
    if p.ti_len ≤ todrop then none
    else some { p with
      m := mAdjTail todrop.toNat p.m
      ti_len := p.ti_len - todrop
      tiflags := p.tiflags.clearPushFin }
  else some p

/-- The block of `tcp_input`; `none` is its `goto dropafterack`. -/
def trim (tp : Tcpcb) (p : Incoming) : Option Incoming :=
  if tp.rcv_wnd = 0 then trimClosed tp p else (trimLeading tp p).bind (trimTrailing tp)

/-! ### The numbers of a segment -/

/-- The data of a segment. -/
abbrev Incoming.data (p : Incoming) : List UInt8 := contents p.m

/-- The number of the first byte of data, after that of SYN. -/
def Incoming.first (p : Incoming) : Seq := p.ti_seq + BitVec.ofNat 32 p.tiflags.syn.toNat

/-- The number of FIN. -/
def Incoming.last (p : Incoming) : Seq := p.first + BitVec.ofNat 32 p.data.length

/-- The segment has the byte `b` with the number `q`. -/
def Incoming.Has (p : Incoming) (q : Seq) (b : UInt8) : Prop :=
  ∃ i, p.data[i]? = some b ∧ q = p.first + BitVec.ofNat 32 i

/-- The numbers that a segment occupies. -/
inductive Incoming.Occupies (p : Incoming) : Seq → Prop
  | syn : p.tiflags.syn → Occupies p p.ti_seq
  | data {q : Seq} {b : UInt8} : p.Has q b → Occupies p q
  | fin : p.tiflags.fin → Occupies p p.last

/-- A segment as it arrives: `ti_len` is a `short`, and the number of bytes of data. -/
structure Incoming.Arrived (p : Incoming) : Prop where
  len : p.ti_len = p.data.length
  short : p.data.length < 2 ^ 15

/-- The segment begins before `rcv_nxt`, or ends less than half the sequence space after the window. -/
def Incoming.Near (tp : Tcpcb) (p : Incoming) : Prop :=
  0 < seqDiff tp.rcv_nxt p.ti_seq ∨ (p.ti_seq - tp.rcv_nxt).toNat + p.ti_len < 2 ^ 31 + tp.rcv_wnd

/-- What is left of the segment `p`. -/
structure Trimmed (tp : Tcpcb) (p p' : Incoming) : Prop where
  /-- It is in the window, up to the number after it; FIN may be one further if SYN is left too. -/
  window : ∀ q, p'.Occupies q →
    ((q - tp.rcv_nxt).toNat : ℤ) ≤ tp.rcv_wnd + if p'.tiflags.syn ∧ p'.tiflags.fin then 1 else 0
  len : p'.ti_len = p'.data.length
  /-- The data is what the segment had at these numbers. -/
  data : ∃ k, p'.first = p.first + BitVec.ofNat 32 k ∧ p'.data <+: p.data.drop k
  /-- FIN is left if the byte before it is, or if that has been received. -/
  fin : p'.tiflags.fin → p.tiflags.fin ∧ p'.last = p.last ∧
    (p.last = tp.rcv_nxt ∨ ∀ b, p.Has (p.last - 1) b → p'.Has (p.last - 1) b)

variable {tp : Tcpcb} {p p' : Incoming}

/-! ### Numbers after `rcv_nxt` -/

theorem place_sub_toNat (b : Seq) {u : ℕ} (h : u < 2 ^ 32) : (place b u - b).toNat = u := by
  rw [place, BitVec.ofInt_natCast, BitVec.add_comm, BitVec.add_sub_cancel, BitVec.toNat_ofNat, Nat.mod_eq_of_lt h]

theorem place_toNat (b q : Seq) : place b ((q - b).toNat : ℤ) = q := by
  rw [place, BitVec.ofInt_natCast, BitVec.ofNat_toNat, BitVec.setWidth_eq, BitVec.add_comm, BitVec.sub_add_cancel]

/-- A number is not before another one if it is at most half the sequence space after it. -/
theorem seqDiff_place_nonpos {b : Seq} {u : ℕ} (h : u < 2 ^ 32) : seqDiff b (place b u) ≤ 0 ↔ u ≤ 2 ^ 31 := by
  have hdiff : seqDiff b (place b u) = wrap 32 (-(u : ℤ)) := by
    have hsub := place_sub_toInt b 0 u
    rwa [place_zero, zero_sub] at hsub
  rw [hdiff]
  rcases lt_or_ge (2 ^ 31) u with hu | hu
  · rw [← wrap_add_circle, wrap_of_mem (inRange_int.2 (by omega))]
    omega
  · rw [wrap_of_mem (inRange_int.2 (by omega))]
    omega

/-- How far the end of a segment is after the window, as the source computes it. -/
theorem seqDiff_window (b : Seq) (u len wnd : ℤ) :
    seqDiff (place b u + BitVec.ofInt 32 len) (b + BitVec.ofInt 32 wnd) = wrap 32 (u + len - wnd) := by
  rw [seqDiff, show place b u + BitVec.ofInt 32 len = place b (u + len) from place_place b u len]
  exact place_sub_toInt b (u + len) wnd

/-- The number of the last byte is the one before that of FIN. -/
theorem Incoming.has_last_iff (h : p.data.length < 2 ^ 31) {b : UInt8} :
    p.Has (p.last - 1) b ↔ p.data.getLast? = some b := by
  have hlast (hpos : 0 < p.data.length) :
      p.last - 1 = p.first + BitVec.ofNat 32 (p.data.length - 1) := by
    have hsucc : BitVec.ofNat 32 p.data.length = BitVec.ofNat 32 (p.data.length - 1) + 1 := by
      rw [← Nat.sub_add_cancel hpos, BitVec.ofNat_add]
      rfl
    rw [Incoming.last, hsucc, ← BitVec.add_assoc, BitVec.add_sub_cancel]
  rw [getLast?_eq_getElem?]
  constructor
  · rintro ⟨i, hi, hq⟩
    have hlt := (List.getElem?_eq_some_iff.1 hi).1
    rw [hlast (by omega)] at hq
    have hinj := (place_inj (w := 32) p.first (p := (p.data.length - 1 : ℕ)) (q := i) (inRange_int.2 (by omega))).1
      (by rwa [place, place, BitVec.ofInt_natCast, BitVec.ofInt_natCast])
    rwa [Nat.cast_inj.1 hinj]
  · intro hb
    exact ⟨_, hb, hlast (Nat.zero_lt_of_lt (List.getElem?_eq_some_iff.1 hb).1 |>.trans_le (by omega))⟩

/-! ### The two cuts -/

theorem Incoming.dropLeading_spec {todrop : ℕ} (hlen : p.ti_len = p.data.length)
    (ht : p.dropLeading todrop = some p') : todrop ≤ p.data.length ∧ p'.data = p.data.drop todrop ∧
      p'.ti_seq = place p.ti_seq todrop ∧ p'.ti_len = p'.data.length ∧
      p'.tiflags.fin = p.tiflags.fin ∧ p'.tiflags.syn = p.tiflags.syn := by
  rw [dropLeading] at ht
  split at ht
  case isTrue => exact nomatch ht
  case isFalse h =>
    have hle : todrop ≤ p.data.length := by omega
    have hdata : p'.data = p.data.drop todrop := by
      cases ht
      exact contents_mAdj ..
    refine ⟨hle, hdata, ?_, ?_, ?_, ?_⟩
    · cases ht
      rfl
    · rw [hdata, length_drop, Nat.cast_sub hle]
      cases ht
      exact congrArg (· - (todrop : ℤ)) hlen
    · cases ht
      rfl
    · cases ht
      rfl

/-- A segment that begins before `rcv_nxt` is cut there, one that does not is left. -/
theorem trimLeading_spec (hlen : p.ti_len = p.data.length) (ht : trimLeading tp p = some p') :
    p'.ti_len = p'.data.length ∧ p'.tiflags.fin = p.tiflags.fin ∧ ∃ k ≤ p.data.length,
      p'.data = p.data.drop k ∧ p'.first = p.first + BitVec.ofNat 32 k ∧
      (p' = p ∧ k = 0 ∧ seqDiff tp.rcv_nxt p.ti_seq ≤ 0 ∨ p'.ti_seq = tp.rcv_nxt ∧ p'.tiflags.syn = false) := by
  rw [trimLeading] at ht
  split at ht
  case isFalse h =>
    cases ht
    exact ⟨hlen, rfl, 0, Nat.zero_le _, rfl, (BitVec.add_zero _).symm, .inl ⟨rfl, rfl, not_lt.1 h⟩⟩
  case isTrue h =>
    have hnxt : place p.ti_seq (seqDiff tp.rcv_nxt p.ti_seq) = tp.rcv_nxt := exists_place_eq ..
    obtain ⟨n, hn⟩ := Int.eq_ofNat_of_zero_le (a := seqDiff tp.rcv_nxt p.ti_seq - 1) (by omega)
    split at ht
    case isTrue hsyn =>
      -- SYN is the first number that is dropped
      rw [hn] at ht
      obtain ⟨hle, hdata, hseq, hlen', hfin, hsyn'⟩ := Incoming.dropLeading_spec (p := p.dropSyn) hlen ht
      have hcut : p'.ti_seq = p.ti_seq + 1 + BitVec.ofNat 32 n := hseq
      refine ⟨hlen', hfin, n, hle, hdata, ?_, .inr ⟨?_, hsyn'⟩⟩
      · rw [Incoming.first, Incoming.first, hcut, hsyn', hsyn]
        exact BitVec.add_zero _
      · rw [← hnxt, show seqDiff tp.rcv_nxt p.ti_seq = 1 + (n : ℤ) by omega, ← place_place]
        exact hseq
    case isFalse hsyn =>
      have hn' : seqDiff tp.rcv_nxt p.ti_seq = ((n + 1 : ℕ) : ℤ) := by
        push_cast
        omega
      rw [hn'] at ht hnxt
      obtain ⟨hle, hdata, hseq, hlen', hfin, hsyn'⟩ := Incoming.dropLeading_spec hlen ht
      have hsyn := Bool.not_eq_true _ |>.mp hsyn
      refine ⟨hlen', hfin, n + 1, hle, hdata, ?_, .inr ⟨hseq.trans hnxt, hsyn'.trans hsyn⟩⟩
      rw [Incoming.first, Incoming.first, hsyn', hsyn, hseq]
      simp only [Bool.toNat_false, BitVec.add_zero, place, BitVec.ofInt_natCast]

/-- A segment that begins `u` after `rcv_nxt` and ends after the window is cut there. -/
theorem trimTrailing_spec {u : ℕ} (hlen : p.ti_len = p.data.length) (hseq : p.ti_seq = place tp.rcv_nxt u)
    (hwnd : tp.rcv_wnd < 2 ^ 31) (hnear : u + p.ti_len < 2 ^ 31 + tp.rcv_wnd) (ht : trimTrailing tp p = some p') :
    p'.ti_seq = p.ti_seq ∧ p'.tiflags.syn = p.tiflags.syn ∧ p'.ti_len = p'.data.length ∧ p'.data <+: p.data ∧
      u + p'.data.length ≤ tp.rcv_wnd ∧ (p'.tiflags.fin → p.tiflags.fin ∧ p'.data = p.data) := by
  have htod : seqDiff (p.ti_seq + BitVec.ofInt 32 p.ti_len) (tp.rcv_nxt + BitVec.ofInt 32 tp.rcv_wnd) =
      u + p.ti_len - tp.rcv_wnd := by
    rw [hseq, seqDiff_window, wrap_of_mem (inRange_int.2 (by omega))]
  rw [trimTrailing, htod] at ht
  split at ht
  case isFalse h =>
    cases ht
    exact ⟨rfl, rfl, hlen, prefix_rfl, by omega, fun hfin => ⟨hfin, rfl⟩⟩
  case isTrue h =>
    split at ht
    case isTrue => exact nomatch ht
    case isFalse hleft =>
      -- what is left ends where the window does
      have hdata : p'.data = p.data.take (p.data.length - (u + p.ti_len - tp.rcv_wnd).toNat) := by
        cases ht
        exact contents_mAdjTail ..
      have hlen' : (p'.data.length : ℤ) = tp.rcv_wnd - u := by
        rw [hdata, length_take]
        omega
      refine ⟨?_, ?_, ?_, ?_, ?_, ?_⟩
      · cases ht
        rfl
      · cases ht
        rfl
      · rw [hlen']
        cases ht
        change p.ti_len - (u + p.ti_len - tp.rcv_wnd) = tp.rcv_wnd - u
        ring
      · rw [hdata]
        exact take_prefix ..
      · omega
      · cases ht
        exact nofun

/-! ### What is left -/

/-- A segment that lost its first `k` bytes and some of its last ones, and that begins `u` after `rcv_nxt`. -/
theorem trimmed_of {k u : ℕ} (hsht : p.data.length < 2 ^ 15) (hwnd : tp.rcv_wnd < 2 ^ 16)
    (hk : k ≤ p.data.length) (hfst : p'.first = p.first + BitVec.ofNat 32 k) (hdata : p'.data <+: p.data.drop k)
    (hlen : p'.ti_len = p'.data.length) (hseq : p'.ti_seq = place tp.rcv_nxt u)
    (hu : u + p'.data.length ≤ tp.rcv_wnd)
    (hfin : p'.tiflags.fin → p.tiflags.fin ∧ p'.data = p.data.drop k) (hcut : k = 0 ∨ p'.first = tp.rcv_nxt) :
    Trimmed tp p p' := by
  have hs : p'.tiflags.syn.toNat ≤ 1 := Bool.toNat_le _
  have hnum (i : ℕ) (hi : i ≤ p'.data.length) :
      (p'.first + BitVec.ofNat 32 i - tp.rcv_nxt).toNat = u + p'.tiflags.syn.toNat + i := by
    rw [Incoming.first, hseq, place_add_ofNat, place_add_ofNat, ← Nat.cast_add, ← Nat.cast_add]
    exact place_sub_toNat _ (by omega)
  refine ⟨fun q hq => ?_, hlen, ⟨k, hfst, hdata⟩, fun hf => ?_⟩
  · cases hq with
    | syn =>
      rw [hseq, place_sub_toNat _ (by omega)]
      split <;> omega
    | data hb =>
      obtain ⟨i, hi, rfl⟩ := hb
      have hlt := (List.getElem?_eq_some_iff.1 hi).1
      rw [hnum i hlt.le]
      split <;> omega
    | fin hf =>
      rw [Incoming.last, hnum _ le_rfl]
      cases hsyn : p'.tiflags.syn with
      | true =>
        rw [if_pos ⟨rfl, hf⟩, Bool.toNat_true]
        omega
      | false =>
        rw [if_neg (by simp), Bool.toNat_false]
        omega
  · obtain ⟨hpf, hall⟩ := hfin hf
    have hlast : p'.last = p.last := by
      rw [Incoming.last, Incoming.last, hfst, hall, length_drop, BitVec.add_assoc, ← BitVec.ofNat_add,
        Nat.add_sub_cancel' hk]
    refine ⟨hpf, hlast, ?_⟩
    rcases hcut with rfl | hnxt
    · refine .inr fun b hb => ?_
      rw [← hlast, Incoming.has_last_iff (by rw [hall]; exact hsht.trans (by decide)), hall]
      exact (Incoming.has_last_iff (hsht.trans (by decide))).1 hb
    · rcases hk.lt_or_eq with hlt | heq
      · refine .inr fun b hb => ?_
        have hlen' := hdata.length_le
        rw [length_drop] at hlen'
        rw [← hlast, Incoming.has_last_iff (by omega), hall, getLast?_drop, if_neg (not_le.2 hlt)]
        exact (Incoming.has_last_iff (hsht.trans (by decide))).1 hb
      · -- all bytes are before rcv_nxt, so that FIN has this number
        refine .inl ?_
        rw [Incoming.last, ← heq, ← hfst, hnxt]

/-- What `tcp_input` leaves of a segment is in the window, and is what the segment had there; FIN is left only if
    the byte before it is or has been received. -/
theorem trim_spec (h : p.Arrived) (hwnd : 0 ≤ tp.rcv_wnd ∧ tp.rcv_wnd < 2 ^ 16) (hnear : p.Near tp)
    (ht : trim tp p = some p') : Trimmed tp p p' := by
  have hsht := h.short
  have hlen := h.len
  rw [trim] at ht
  split at ht
  case isTrue hclo =>
    rw [trimClosed] at ht
    split at ht
    case isTrue => exact nomatch ht
    case isFalse hnxt =>
      have hseq : p.ti_seq = place tp.rcv_nxt (0 : ℕ) := by
        rw [Nat.cast_zero, place_zero]
        exact (not_not.1 hnxt).symm
      split at ht
      case isTrue =>
        cases ht
        have hnil : contents (mAdj p.ti_len.toNat p.m) = [] := by
          rw [contents_mAdj, hlen, Int.toNat_natCast]
          exact drop_length ..
        refine trimmed_of (k := 0) (u := 0) hsht hwnd.2 (Nat.zero_le _) (BitVec.add_zero _).symm ?_ ?_ hseq ?_
          nofun (.inl rfl)
        · change contents (mAdj p.ti_len.toNat p.m) <+: p.data
          rw [hnil]
          exact nil_prefix
        · exact (congrArg (fun l : List UInt8 => (l.length : ℤ)) hnil).symm
        · change ((0 : ℕ) : ℤ) + (contents (mAdj p.ti_len.toNat p.m)).length ≤ tp.rcv_wnd
          rw [hnil]
          exact hwnd.1
      case isFalse hno =>
        cases ht
        exact trimmed_of (k := 0) (u := 0) hsht hwnd.2 (Nat.zero_le _) (BitVec.add_zero _).symm
          prefix_rfl hlen hseq (by omega) (fun hf => ⟨hf, rfl⟩) (.inl rfl)
  case isFalse hopen =>
    obtain ⟨p1, hlead, htrail⟩ := Option.bind_eq_some_iff.1 ht
    obtain ⟨hlen1, hfin1, k, hk, hdata1, hfir1, hwhich⟩ := trimLeading_spec hlen hlead
    have hlt : (p1.ti_seq - tp.rcv_nxt).toNat < 2 ^ 32 := BitVec.isLt _
    have hnear1 : (p1.ti_seq - tp.rcv_nxt).toNat + p1.ti_len < 2 ^ 31 + tp.rcv_wnd := by
      rcases hwhich with ⟨rfl, -, hle⟩ | ⟨hnxt, -⟩
      · exact hnear.resolve_left (not_lt.2 hle)
      · have hlen' : p1.data.length ≤ p.data.length := by
          rw [hdata1, length_drop]
          omega
        rw [hnxt, BitVec.sub_self]
        simp only [BitVec.toNat_zero]
        omega
    obtain ⟨hseq', hsyn', hlen', hdata', hu, hfin'⟩ := trimTrailing_spec hlen1 (place_toNat ..).symm
      (by omega) hnear1 htrail
    have hfst' : p'.first = p1.first := by rw [Incoming.first, Incoming.first, hseq', hsyn']
    refine trimmed_of hsht hwnd.2 hk (hfst'.trans hfir1) (hdata1 ▸ hdata') hlen'
      (hseq'.trans (place_toNat ..).symm) hu (fun hf => ?_) ?_
    · obtain ⟨hf, hall⟩ := hfin' hf
      exact ⟨hfin1 ▸ hf, hall.trans hdata1⟩
    · rcases hwhich with ⟨-, rfl, -⟩ | ⟨hnxt, hsyn⟩
      · exact .inl rfl
      · refine .inr ?_
        rw [hfst', Incoming.first, hnxt, hsyn]
        exact BitVec.add_zero _

/-- A segment cut at both ends of the window. -/
theorem trim_spec_both : Trimmed { rcv_nxt := 5, rcv_wnd := 4 }
    { ti_seq := 3, ti_len := 8, tiflags := { fin := true }, m := [⟨[], [3, 4, 5]⟩, ⟨[], [6, 7, 8, 9, 10]⟩] }
    { ti_seq := 5, ti_len := 4, m := [⟨[3, 4], [5]⟩, ⟨[], [6, 7, 8]⟩] } :=
  trim_spec ⟨rfl, by decide⟩ (by decide) (.inl (by decide)) (by decide)

/-- One byte that was received, sent again with FIN: the byte is dropped, and FIN is left. -/
theorem trim_fin_again : ∃ tp : Tcpcb, ∃ p p' : Incoming, p.Arrived ∧ trim tp p = some p' ∧ p'.tiflags.fin ∧
    ∃ b, p.Has (p.last - 1) b ∧ ¬ p'.Has (p.last - 1) b := by
  refine ⟨{ rcv_nxt := 1, rcv_wnd := 10 }, { ti_seq := 0, ti_len := 1, tiflags := { fin := true }, m := [⟨[], [7]⟩] },
    { ti_seq := 1, ti_len := 0, tiflags := { fin := true }, m := [⟨[], []⟩] }, ⟨rfl, by decide⟩, by decide, rfl,
    7, ⟨0, rfl, rfl⟩, ?_⟩
  rintro ⟨i, hi, -⟩
  exact nomatch hi

/-- A segment that ends too far after the window is taken for one that ends before it. -/
theorem trim_far (h : p.Arrived) (hwnd : 0 < tp.rcv_wnd ∧ tp.rcv_wnd < 2 ^ 16) (hfar : ¬ p.Near tp) :
    trim tp p = some p := by
  obtain ⟨hlead, hfar⟩ := not_or.1 hfar
  have hlen := h.len
  have hsht := h.short
  have hu : (p.ti_seq - tp.rcv_nxt).toNat ≤ 2 ^ 31 := by
    have hle := not_lt.1 hlead
    rw [← place_toNat tp.rcv_nxt p.ti_seq] at hle
    exact (seqDiff_place_nonpos (BitVec.isLt _)).1 hle
  have htod : seqDiff (p.ti_seq + BitVec.ofInt 32 p.ti_len) (tp.rcv_nxt + BitVec.ofInt 32 tp.rcv_wnd) < 0 := by
    rw [← place_toNat tp.rcv_nxt p.ti_seq, seqDiff_window, ← sub_add_cancel (_ - tp.rcv_wnd) (2 ^ 32), wrap_add_circle,
      wrap_of_mem (inRange_int.2 (by omega))]
    omega
  rw [trim, if_neg hwnd.1.ne', trimLeading, if_neg hlead, Option.bind_some, trimTrailing, if_neg htod.not_gt]

end Uwisc.Tcp
