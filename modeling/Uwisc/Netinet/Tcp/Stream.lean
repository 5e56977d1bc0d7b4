import Mathlib.Tactic.Linarith
import Uwisc.Lib.Reassembly
import Uwisc.Lib.System
import Uwisc.Netinet.Tcp.Reass

/-!
# TCP reassembly delivers the stream of the peer

Runs of `tcp_reass` on an established connection whose receive side is open. The
peer sends the stream `S`, whose first byte has the number after `irs`. Segments
arrive in any order, with any duplication and overlap, as long as each holds the
bytes of `S` at its sequence numbers, starts at or after `rcv_nxt` and ends less
than half the sequence space after it (`Fits`).

Within such a window a sequence number stands for one position in the stream, so
that the queue is the image of a queue of pieces of the stream (`toSeg`), and
`tcp_reass` on it that of putting a piece in its place and delivering
(`enqueue_toSeg`, `present_toSeg`). What the pieces keep, the segments keep.

* `reass_stream`: after any run, what was appended to the buffer of the user is
  the stream up to `rcv_nxt`, and the queue is sorted, disjoint and starts after it.
-/

namespace Uwisc.Tcp

open Lib List Option

/-! ### Segments as pieces of the stream -/

/-- The segment of a piece of the stream whose first byte has the number `base`. The
    tag of the piece is the rest of the segment. -/
def toSeg (base : Seq) (p : Piece UInt8 Segment) : Segment :=
  { p.tag with ti_seq := place base p.pos, ti_len := p.data.length, data := p.data }

variable {base : Seq} {n : ℕ}

@[simp] theorem toSeg_seq (p : Piece UInt8 Segment) : (toSeg base p).ti_seq = place base p.pos := rfl

@[simp] theorem toSeg_len (p : Piece UInt8 Segment) : (toSeg base p).ti_len = p.data.length := rfl

@[simp] theorem toSeg_data (p : Piece UInt8 Segment) : (toSeg base p).data = p.data := rfl

/-- The piece is in the window of half the sequence space from the position `n` on. -/
def Within (n : ℕ) (p : Piece UInt8 Segment) : Prop := n ≤ p.pos ∧ p.fin < n + 2 ^ 31

theorem Within.cut {p : Piece UInt8 Segment} (h : Within n p) (i : ℕ)
    (hi : i < p.data.length) : Within n (p.cut i) := by
  refine ⟨?_, ?_⟩
  · rw [Piece.cut_pos]
    exact h.1.trans (Nat.le_add_right _ _)
  · rw [Piece.cut_fin p hi.le]
    exact h.2

/-- Positions in a window of half the sequence space differ as their numbers do. -/
theorem seqDiff_place {a b : ℕ} (ha : n ≤ a ∧ a < n + 2 ^ 31) (hb : n ≤ b ∧ b < n + 2 ^ 31) :
    seqDiff (place base a) (place base b) = (a : ℤ) - b := by
  refine place_sub_toInt_of_mem base (inRange_int.2 ?_)
  omega

variable {x p : Piece UInt8 Segment} {q : List (Piece UInt8 Segment)}

theorem Within.pos_mem (h : Within n p) : n ≤ p.pos ∧ p.pos < n + 2 ^ 31 :=
  ⟨h.1, (Nat.le_add_right _ _).trans_lt h.2⟩

theorem Within.fin_mem (h : Within n p) : n ≤ p.fin ∧ p.fin < n + 2 ^ 31 :=
  ⟨h.1.trans (Nat.le_add_right _ _), h.2⟩

theorem seqGt_toSeg (hx : Within n x) (hp : Within n p) :
    seqGt (toSeg base p).ti_seq (toSeg base x).ti_seq ↔ x.pos < p.pos := by
  rw [seqGt, toSeg_seq, toSeg_seq, seqDiff_place hp.pos_mem hx.pos_mem]
  omega

/-- The number of bytes `x` provides of a segment `p` after it. -/
theorem overlap_toSeg (hx : Within n x) (hp : Within n p) :
    seqDiff ((toSeg base x).ti_seq + BitVec.ofNat 32 (toSeg base x).ti_len) (toSeg base p).ti_seq =
      (x.fin : ℤ) - p.pos := by
  rw [toSeg_seq, toSeg_len, place_add_ofNat, ← Nat.cast_add]
  exact seqDiff_place hx.fin_mem hp.pos_mem

theorem trimFront_toSeg (p : Piece UInt8 Segment) {a b : ℕ} (h : b ≤ a) :
    (toSeg base p).trimFront ((a : ℤ) - b) = toSeg base (p.cut (a - b)) := by
  have hi : ((a : ℤ) - b).toNat = a - b := by omega
  have hseq : place base p.pos + BitVec.ofInt 32 ((a : ℤ) - b) = place base ↑(p.pos + (a - b)) := by
    rw [Nat.cast_add, Nat.cast_sub h, ← place_place]
    rfl
  simp only [Segment.trimFront, toSeg, hi, hseq, Piece.cut, length_drop]

theorem trimSucc_toSeg (hx : Within n x) (hq : ∀ p ∈ q, Within n p) :
    trimSucc (toSeg base x) (q.map (toSeg base)) = (Piece.trim x q).map (toSeg base) := by
  induction q with
  | nil => rfl
  | cons p q ih =>
    obtain ⟨hp, hq⟩ := forall_mem_cons.1 hq
    have hlen : p.fin = p.pos + p.data.length := rfl
    rw [map_cons, trimSucc, overlap_toSeg hx hp, Piece.trim, toSeg_len]
    by_cases h1 : x.fin ≤ p.pos
    · rw [if_pos (by omega), if_pos h1, map_cons]
    · rw [if_neg (by omega), if_neg h1]
      by_cases h2 : x.fin < p.fin
      · rw [if_pos (by omega), if_pos h2, map_cons, trimFront_toSeg p (by omega)]
      · rw [if_neg (by omega), if_neg h2, ih hq]

/-- The place of a segment in the queue is that of its piece. -/
theorem place_toSeg (hx : Within n x) (hq : ∀ p ∈ q, Within n p) :
    (q.map (toSeg base)).takeWhile (fun p => ¬seqGt p.ti_seq (toSeg base x).ti_seq) =
        (q.takeWhile fun p => p.pos ≤ x.pos).map (toSeg base) ∧
      (q.map (toSeg base)).dropWhile (fun p => ¬seqGt p.ti_seq (toSeg base x).ti_seq) =
        (q.dropWhile fun p => p.pos ≤ x.pos).map (toSeg base) := by
  induction q with
  | nil => exact ⟨rfl, rfl⟩
  | cons p q ih =>
    obtain ⟨hp, hq⟩ := forall_mem_cons.1 hq
    have hgt := @seqGt_toSeg base n x p hx hp
    rw [map_cons]
    by_cases h : p.pos ≤ x.pos
    · have hnot : ¬seqGt (toSeg base p).ti_seq (toSeg base x).ti_seq := mt hgt.1 (not_lt.2 h)
      rw [takeWhile_cons_of_pos (by simpa using hnot), takeWhile_cons_of_pos (by simpa),
        dropWhile_cons_of_pos (by simpa using hnot), dropWhile_cons_of_pos (by simpa),
        map_cons, (ih hq).1, (ih hq).2]
      exact ⟨rfl, rfl⟩
    · have hgt := hgt.2 (not_le.1 h)
      rw [takeWhile_cons_of_neg (by simpa using hgt), takeWhile_cons_of_neg (by simpa using h),
        dropWhile_cons_of_neg (by simpa using hgt), dropWhile_cons_of_neg (by simpa using h)]
      exact ⟨rfl, rfl⟩

/-! ### The steps of `tcp_reass` -/

/-- The queue after `x` arrived, or the one before if `x` was dropped, is that of the pieces. -/
theorem enqueue_toSeg (hx : Within n x) (hq : ∀ p ∈ q, Within n p) :
    (enqueue (toSeg base x) (q.map (toSeg base))).getD (q.map (toSeg base)) =
      (Piece.insert x q).map (toSeg base) := by
  obtain ⟨htake, hdrop⟩ := @place_toSeg base n x q hx hq
  have hpre : ∀ p ∈ q.takeWhile fun p => p.pos ≤ x.pos, p ∈ q := fun p hp =>
    (takeWhile_sublist _).subset hp
  have hsuf : ∀ p ∈ q.dropWhile fun p => p.pos ≤ x.pos, Within n p := fun p hp =>
    hq p ((dropWhile_sublist _).subset hp)
  rw [enqueue, htake, hdrop, getLast?_map, Piece.insert]
  cases hlast : (q.takeWhile fun p => p.pos ≤ x.pos).getLast? with
  | none =>
    simp only [map_none, getD_some, trimSucc_toSeg hx hsuf, map_cons]
  | some p =>
    have hp := hpre p (mem_of_getLast? hlast)
    simp only [map_some]
    rw [overlap_toSeg (hq p hp) hx, toSeg_len]
    have hlen : x.fin = x.pos + x.data.length := rfl
    by_cases h1 : p.fin ≤ x.pos
    · rw [if_neg (by omega), if_pos h1]
      simp only [getD_some, trimSucc_toSeg hx hsuf, map_append, map_cons]
    · rw [if_pos (by omega), if_neg h1]
      by_cases h2 : x.fin ≤ p.fin
      · rw [if_pos (by omega), if_pos h2, getD_none]
      · have hcut : Within n (x.cut (p.fin - x.pos)) := hx.cut _ (by omega)
        rw [if_neg (by omega), if_neg h2, getD_some, trimFront_toSeg x (by omega),
          trimSucc_toSeg hcut hsuf, Piece.trim_congr (Piece.cut_fin x (by omega)), map_append, map_cons]

theorem presentLoop_toSeg {so : Socket} {m : ℕ} {flags : Bool} (hrcv : so.cantrcvmore = false)
    (hm : n ≤ m ∧ m < n + 2 ^ 31) (hq : ∀ p ∈ q, Within n p) :
    let r := presentLoop so (place base m) flags (q.map (toSeg base))
    let d := Piece.deliver m q
    r.1 = { so with so_rcv := so.so_rcv ++ d.2.1.flatMap Piece.data } ∧
      r.2.1 = place base d.1 ∧ r.2.2.2 = d.2.2.map (toSeg base) := by
  induction q generalizing so m flags with
  | nil => simp [presentLoop, Piece.deliver]
  | cons p q ih =>
    obtain ⟨hp, hq⟩ := forall_mem_cons.1 hq
    have heq : (toSeg base p).ti_seq = place base m ↔ p.pos = m := by
      have hpos := hp.pos_mem
      rw [toSeg_seq, place_inj base (inRange_int.2 (by omega)), Nat.cast_inj]
    rw [map_cons, presentLoop, Piece.deliver]
    by_cases h : p.pos = m
    · obtain rfl := h.symm
      rw [if_pos (heq.2 rfl), if_pos rfl, if_neg (by simp [hrcv]), toSeg_len, place_add_ofNat,
        ← Nat.cast_add]
      have h := @ih { so with so_rcv := so.so_rcv ++ p.data } _
        (toSeg base p).ti_flags.fin hrcv hp.fin_mem hq
      simp only [List.append_assoc, ← flatMap_cons] at h
      exact h
    · rw [if_neg (mt heq.1 h), if_neg h]
      simp

/-- Once established, what `present` gives the user is what the pieces deliver. -/
theorem present_toSeg {tp : Tcpcb} {so : Socket} (hstt : TcpState.established.num ≤ tp.t_state.num)
    (hrcv : so.cantrcvmore = false) (hseg : tp.seg = q.map (toSeg base))
    (hnxt : tp.rcv_nxt = place base n) (hq : ∀ p ∈ q, Within n p) :
    let r := present tp so
    let d := Piece.deliver n q
    r.1 = { tp with rcv_nxt := place base d.1, seg := d.2.2.map (toSeg base) } ∧
      r.2.1 = { so with so_rcv := so.so_rcv ++ d.2.1.flatMap Piece.data } := by
  have hhave : tp.t_state.haveRcvdSyn := le_trans (by decide) hstt
  have hsyn : tp.t_state ≠ .synReceived := fun h => absurd hstt (by rw [h]; decide)
  obtain ⟨h1, h2, h3⟩ := @presentLoop_toSeg base n q so n false hrcv
    ⟨le_rfl, Nat.lt_add_of_pos_right (by decide)⟩ hq
  have htp : { tp with rcv_nxt := place base n, seg := q.map (toSeg base) } = tp := by
    rw [← hnxt, ← hseg]
  rw [present, if_neg (not_not.2 hhave)]
  cases q with
  | nil =>
    have hnil : tp.seg = [] := hseg
    rw [hnil]
    simp only [Piece.deliver, htp, flatMap_nil, append_nil, and_self]
  | cons p q =>
    have hpos := (forall_mem_cons.1 hq).1.pos_mem
    have heq : (toSeg base p).ti_seq = tp.rcv_nxt ↔ p.pos = n := by
      rw [hnxt, toSeg_seq, place_inj base (inRange_int.2 (by omega)), Nat.cast_inj]
    simp only [hseg, map_cons]
    by_cases h : p.pos = n
    · rw [if_neg (not_not.2 (heq.2 h)), if_neg fun h' => hsyn h'.1]
      rw [map_cons] at h1 h2 h3
      simp only [hnxt, h1, h2, h3, and_self]
    · rw [if_pos (mt heq.1 h), Piece.deliver, if_neg h]
      simp only [htp, flatMap_nil, append_nil, and_self]

/-! ### Runs -/

/-- A connection, with the positions in the stream of the peer that arrived. -/
structure StreamState where
  tp : Tcpcb
  so : Socket
  arrived : Set ℕ

/-- The number of bytes appended to the buffer of the user, which held `buf` at first. -/
def StreamState.received (buf : List UInt8) (s : StreamState) : ℕ :=
  s.so.so_rcv.length - buf.length

/-- The position in the stream of a segment that arrives. -/
def StreamState.position (buf : List UInt8) (s : StreamState) (ti : Segment) : ℕ :=
  s.received buf + (ti.ti_seq - s.tp.rcv_nxt).toNat

/-- The segment starts at or after `rcv_nxt`, ends less than half the sequence space
    after it, and holds the bytes of `S` at its sequence numbers. -/
structure Fits (S : ℕ → UInt8) (buf : List UInt8) (s : StreamState) (ti : Segment) : Prop where
  len : ti.ti_len = ti.data.length
  window : (ti.ti_seq - s.tp.rcv_nxt).toNat + ti.ti_len < 2 ^ 31
  agrees : ti.data = (range' (s.position buf ti) ti.ti_len).map S

/-- The positions a call of `tcp_reass` brings. -/
def StreamState.brought (buf : List UInt8) (s : StreamState) : Option Segment → Set ℕ
  | none => ∅
  | some ti => Set.Ico (s.position buf ti) (s.position buf ti + ti.ti_len)

/-- The state after a call of `tcp_reass`. -/
def StreamState.reass (buf : List UInt8) (s : StreamState) (call : Option Segment) : StreamState :=
  let r := tcpReass s.tp s.so call
  ⟨r.1, r.2.1, s.arrived ∪ s.brought buf call⟩

/-- The calls of `tcp_reass` on the connection of `tp0`, with segments of the stream `S`. -/
def stream (S : ℕ → UInt8) (tp0 : Tcpcb) (so0 : Socket) :
    System StreamState (Option Segment) where
  init := {⟨tp0, so0, ∅⟩}
  step s call s' := (∀ ti ∈ call, Fits S so0.so_rcv s ti) ∧ s' = s.reass so0.so_rcv call

/-- A connection that is established, with an empty queue and an open receive side. -/
structure ReadyToReceive (tp : Tcpcb) (so : Socket) : Prop where
  established : TcpState.established.num ≤ tp.t_state.num
  queue : tp.seg = []
  first : tp.rcv_nxt = tp.irs + 1
  open_ : so.cantrcvmore = false

/-- The first `n` bytes of the stream were delivered, and the pieces `q` wait. -/
structure Holds (S : ℕ → UInt8) (tp0 : Tcpcb) (so0 : Socket) (s : StreamState) (n : ℕ)
    (q : List (Piece UInt8 Segment)) : Prop where
  tp : s.tp = { tp0 with rcv_nxt := place (tp0.irs + 1) n, seg := q.map (toSeg (tp0.irs + 1)) }
  so : s.so = { so0 with so_rcv := so0.so_rcv ++ (range n).map S }
  arrived : s.arrived = Set.Iio n ∪ cover Piece.span q
  sorted : Piece.Sorted q
  after : ∀ p ∈ q, n < p.pos
  within : ∀ p ∈ q, Within n p
  agrees : ∀ p ∈ q, p.Agrees S

variable {S : ℕ → UInt8} {tp0 : Tcpcb} {so0 : Socket} {s s' : StreamState}

theorem Holds.received (h : Holds S tp0 so0 s n q) : s.received so0.so_rcv = n := by
  simp [StreamState.received, h.so]

/-- A segment that fits is the image of a piece of the stream. -/
theorem Holds.piece (h : Holds S tp0 so0 s n q) {ti : Segment} (hti : Fits S so0.so_rcv s ti) :
    ∃ x : Piece UInt8 Segment, toSeg (tp0.irs + 1) x = ti ∧ Within n x ∧ x.Agrees S ∧
      s.brought so0.so_rcv (some ti) = x.span := by
  have hnxt : s.tp.rcv_nxt = place (tp0.irs + 1) n := by rw [h.tp]
  refine ⟨⟨s.position so0.so_rcv ti, ti.data, ti⟩, ?_, ⟨?_, ?_⟩, ?_, ?_⟩
  · have hpos : place (tp0.irs + 1) (s.position so0.so_rcv ti : ℕ) = ti.ti_seq := by
      rw [StreamState.position, h.received, Nat.cast_add, ← place_place, ← hnxt, place,
        BitVec.ofInt_natCast, BitVec.ofNat_toNat, BitVec.setWidth_eq, BitVec.add_comm,
        BitVec.sub_add_cancel]
    simp only [toSeg, hpos, ← hti.len]
  · simp only [StreamState.position, h.received]
    omega
  · have := hti.window
    have := hti.len
    simp only [Piece.fin, StreamState.position, h.received]
    omega
  · have := hti.agrees
    rwa [hti.len] at this
  · simp only [StreamState.brought, hti.len]
    rfl

/-- Delivering from a queue of pieces of the stream. -/
theorem Holds.present (h : Holds S tp0 so0 s n q) (h0 : ReadyToReceive tp0 so0)
    {r : List (Piece UInt8 Segment)} (flag : Bool) (hsor : Piece.Sorted r)
    (hwit : ∀ p ∈ r, Within n p) (hagr : ∀ p ∈ r, p.Agrees S)
    (hp : present { s.tp with seg := r.map (toSeg (tp0.irs + 1)) } s.so = (s'.tp, s'.so, flag))
    (harr : s'.arrived = Set.Iio n ∪ cover Piece.span r) :
    ∃ m q', Holds S tp0 so0 s' m q' := by
  obtain ⟨htp, hso⟩ := @present_toSeg (tp0.irs + 1) n r
    { s.tp with seg := r.map (toSeg (tp0.irs + 1)) } s.so (by rw [h.tp]; exact h0.established)
    (by rw [h.so]; exact h0.open_) rfl (by rw [h.tp]) hwit
  have hpos : ∀ p ∈ r, n ≤ p.pos := fun p hp => (hwit p hp).1
  obtain ⟨hle, hr, hrs⟩ := Piece.deliver_spec n hsor hpos
  have hdata := Piece.deliver_data n hsor hpos hagr
  have hcov := Piece.deliver_covers n hsor hpos
  rw [hp] at htp hso
  have hsub : ∀ p ∈ (Piece.deliver n r).2.2, p ∈ r := fun p hp => by
    rw [hr]
    exact mem_append_right _ hp
  refine ⟨_, _, ?_, ?_, ?_, ?_, hrs, fun p hp => ?_, fun p hp => hagr p (hsub p hp)⟩
  · have htp' : s'.tp = _ := htp
    rw [htp', h.tp]
  · have hrng : range n ++ range' n ((Piece.deliver n r).1 - n) = range (Piece.deliver n r).1 := by
      have h := range'_append_1 (s := 0) (m := n) (n := (Piece.deliver n r).1 - n)
      rw [zero_add, Nat.add_sub_cancel' hle] at h
      rw [range_eq_range', range_eq_range', h]
    have hso' : s'.so = _ := hso
    rw [hso', h.so, hdata]
    simp only [List.append_assoc, ← map_append, hrng]
  · have hunion : Set.Iio n ∪ Set.Ico n (Piece.deliver n r).1 = Set.Iio (Piece.deliver n r).1 :=
      Set.Iio_union_Ico_eq_Iio hle
    rw [harr, ← hunion, ← hcov, Set.union_assoc, ← cover_append, ← hr]
  · exact (pairwise_append.1 (hr ▸ hsor)).2.1
  · have := hwit p (hsub p hp)
    exact ⟨(hrs p hp).le, this.2.trans_le (by omega)⟩

/-- A call of `tcp_reass` keeps what the connection holds. -/
theorem Holds.step (h : Holds S tp0 so0 s n q) (h0 : ReadyToReceive tp0 so0)
    {call : Option Segment} (hs : (stream S tp0 so0).step s call s') :
    ∃ m q', Holds S tp0 so0 s' m q' := by
  obtain ⟨hfits, hs'⟩ := hs
  have htp : s'.tp = (tcpReass s.tp s.so call).1 := by rw [hs']; rfl
  have hso : s'.so = (tcpReass s.tp s.so call).2.1 := by rw [hs']; rfl
  have harr : s'.arrived = s.arrived ∪ s.brought so0.so_rcv call := by rw [hs']; rfl
  have hseg : s.tp.seg = q.map (toSeg (tp0.irs + 1)) := by rw [h.tp]
  cases call with
  | none =>
    refine h.present h0 (tcpReass s.tp s.so none).2.2 h.sorted h.within h.agrees ?_ ?_
    · rw [htp, hso, ← hseg]
      rfl
    · rw [harr, h.arrived]
      exact Set.union_empty _
  | some ti =>
    obtain ⟨x, rfl, hx, hxS, hspan⟩ := h.piece (hfits ti rfl)
    have henq := @enqueue_toSeg (tp0.irs + 1) _ _ _ hx h.within
    have hsor := Piece.insert_sorted x h.sorted
    have hwit := Piece.insert_forall (fun _ i hp hi => hp.cut i hi) h.sorted hx h.within
    have hagr := Piece.insert_forall (fun _ i hp _ => hp.cut i) h.sorted hxS h.agrees
    rw [← hseg] at henq
    rw [hspan, h.arrived, Set.union_assoc, ← Piece.insert_covers x h.sorted] at harr
    simp only [tcpReass] at htp hso
    cases he : enqueue (toSeg (tp0.irs + 1) x) s.tp.seg with
    | none =>
      rw [he] at henq htp hso
      have hmap : q.map (toSeg (tp0.irs + 1)) = (Piece.insert x q).map (toSeg (tp0.irs + 1)) := by
        rw [← hseg]
        exact henq
      refine ⟨n, Piece.insert x q, ?_, hso.trans h.so, harr, hsor, fun p hp => ?_, hwit, hagr⟩
      · rw [htp, h.tp, hmap]
      · -- the queue is as before, so that `p` is at the place of a piece that waited
        obtain ⟨p', hp', he⟩ := List.mem_map.1 (hmap ▸ List.mem_map_of_mem hp)
        have hpos := (hwit p hp).pos_mem
        have hpos' := (h.within p' hp').pos_mem
        have heq := (place_inj (tp0.irs + 1) (inRange_int.2 (by omega))).1
          (congrArg Segment.ti_seq he)
        have := h.after p' hp'
        omega
    | some seg =>
      rw [he] at henq htp hso
      refine h.present h0 (Tcp.present { s.tp with seg := seg } s.so).2.2 hsor hwit
        hagr ?_ harr
      rw [htp, hso, ← henq]
      rfl

/-- What `tcp_reass` did to the connection of `tp0` after `n` bytes were delivered. -/
structure Delivered (S : ℕ → UInt8) (tp0 : Tcpcb) (so0 : Socket) (s : StreamState) (n : ℕ) :
    Prop where
  /-- What was appended is the stream up to `rcv_nxt`. -/
  stream : s.so = { so0 with so_rcv := so0.so_rcv ++ (range n).map S }
  next : s.tp.rcv_nxt = tp0.irs + 1 + BitVec.ofNat 32 n
  /-- The queue is sorted and disjoint, and starts after `rcv_nxt`. -/
  sorted : s.tp.seg.Pairwise fun a b =>
    seqLeq a.ti_seq b.ti_seq ∧ seqLeq (a.ti_seq + BitVec.ofNat 32 a.ti_len) b.ti_seq
  after : ∀ q ∈ s.tp.seg, seqGt q.ti_seq s.tp.rcv_nxt
  /-- No position that arrived is lost, and what waits holds the bytes of the stream. -/
  kept : ∀ u ∈ s.arrived, n ≤ u → ∃ q ∈ s.tp.seg, ∃ i < q.data.length,
    q.ti_seq + BitVec.ofNat 32 i = tp0.irs + 1 + BitVec.ofNat 32 u ∧ q.data[i]? = some (S u)
  missing : n ∉ s.arrived

theorem Holds.delivered (h : Holds S tp0 so0 s n q) : Delivered S tp0 so0 s n := by
  have hplc : ∀ k : ℕ, place (tp0.irs + 1) k = tp0.irs + 1 + BitVec.ofNat 32 k := fun k => by
    rw [place, BitVec.ofInt_natCast]
  have hn : n ≤ n ∧ n < n + 2 ^ 31 := ⟨le_rfl, by omega⟩
  have hnxt : s.tp.rcv_nxt = place (tp0.irs + 1) n := by rw [h.tp]
  have hseg : s.tp.seg = q.map (toSeg (tp0.irs + 1)) := by rw [h.tp]
  refine ⟨h.so, ?_, ?_, ?_, ?_, ?_⟩
  · rw [hnxt, hplc]
  · rw [hseg, pairwise_map]
    refine h.sorted.imp_of_mem fun {a b} ha hb hab => ⟨?_, ?_⟩
    · rw [seqLeq, toSeg_seq, toSeg_seq, seqDiff_place (h.within a ha).pos_mem (h.within b hb).pos_mem]
      simp only [Piece.fin] at hab
      omega
    · rw [seqLeq, overlap_toSeg (h.within a ha) (h.within b hb)]
      omega
  · rw [hseg]
    refine List.forall_mem_map.2 fun p hp => ?_
    rw [seqGt, toSeg_seq, hnxt, seqDiff_place (h.within p hp).pos_mem hn]
    have := h.after p hp
    omega
  · intro u hu hle
    rw [h.arrived] at hu
    rcases hu with hu | hu
    · exact absurd hu (not_lt.2 hle)
    · obtain ⟨p, hp, hup⟩ := mem_cover.1 hu
      simp only [Piece.span, Set.mem_Ico, Piece.fin] at hup
      refine ⟨_, hseg ▸ List.mem_map_of_mem hp, u - p.pos, by simp only [toSeg_data]; omega, ?_, ?_⟩
      · rw [toSeg_seq, place_add_ofNat, ← hplc, Nat.cast_sub hup.1, add_sub_cancel]
      · have hS := h.agrees p hp
        rw [toSeg_data, hS]
        simp only [getElem?_map, map_eq_some_iff]
        refine ⟨u, ?_, rfl⟩
        rw [getElem?_range' (by omega)]
        congr 1
        omega
  · rw [h.arrived]
    rintro (hn | hn)
    · exact lt_irrefl n hn
    · obtain ⟨p, hp, hnp⟩ := mem_cover.1 hn
      exact absurd hnp.1 (not_le.2 (h.after p hp))

/-- After any calls of `tcp_reass` with segments of the stream `S`, in any order, the
    user has the stream up to `rcv_nxt`, and the rest of what arrived waits, sorted and
    disjoint, after it. -/
theorem reass_stream (h0 : ReadyToReceive tp0 so0) (hs : (stream S tp0 so0).Reachable s) :
    ∃ n, Delivered S tp0 so0 s n := by
  have hinv : ∃ n q, Holds S tp0 so0 s n q := by
    refine hs.invariant (I := fun s => ∃ n q, Holds S tp0 so0 s n q) (fun s hs => ⟨0, [], ?_⟩)
      fun s call s' ⟨n, q, h⟩ hs => h.step h0 hs
    obtain rfl := Set.mem_singleton_iff.1 hs
    refine ⟨?_, ?_, ?_, List.Pairwise.nil, by simp, by simp, by simp⟩
    · rw [Nat.cast_zero, place_zero, ← h0.first, map_nil, ← h0.queue]
    · simp
    · simp
  obtain ⟨n, q, h⟩ := hinv
  exact ⟨n, h.delivered⟩

/-- A connection whose peer started three numbers before they wrap around. -/
def nearWrap : Tcpcb := { t_state := .established, irs := 4294967292, rcv_nxt := 4294967293 }

/-- Two segments across the wrap, in the wrong order and overlapping. -/
theorem reass_stream_nearWrap :
    ∃ n, Delivered UInt8.ofNat nearWrap {}
      (((⟨nearWrap, {}, ∅⟩ : StreamState).reass []
        (some { ti_seq := 4294967295, ti_len := 3, data := [2, 3, 4] })).reass []
        (some { ti_seq := 4294967293, ti_len := 3, data := [0, 1, 2] })) n := by
  refine reass_stream (S := UInt8.ofNat)
    (⟨by decide, rfl, by decide, rfl⟩ : ReadyToReceive nearWrap {}) (.step (.step (.init rfl) ⟨?_, rfl⟩) ⟨?_, rfl⟩)
  · rintro _ ⟨⟩
    exact ⟨rfl, by decide, by decide⟩
  · rintro _ ⟨⟩
    exact ⟨rfl, by decide, by decide⟩

end Uwisc.Tcp
