import Mathlib.Tactic.Linarith
import Uwisc.Lib.Reassembly
import Uwisc.Lib.System
import Uwisc.Lib.Wrap
import Uwisc.Netinet.Ip

/-!
# IP input: reassembly of fragments

What `ipintr` does to a packet that is for us, and `ip_reass`, of
`sys/netinet/ip_input.c`. A reassembly queue holds the list of its fragments, in
order; the source and destination address of a fragment on a queue are in the
header of the queue only, where the links overlay them.
-/

namespace Uwisc.Ip

open Lib

/-- The header of a fragment and the chain it is in (`struct ipasfrag`). The offset is
    in bytes. -/
structure Ipasfrag where
  ip_v : ℕ := 4
  ip_hl : ℕ := 5
  ipf_mff : Bool
  ip_len : ℤ
  ip_id : BitVec 16 := 0
  ip_off : ℤ
  ip_ttl : BitVec 8 := 0
  ip_p : BitVec 8 := 0
  ip_sum : BitVec 16 := 0
  m : List Mbuf
  deriving DecidableEq, Repr

/-- A reassembly queue (`struct ipq`). -/
structure Ipq where
  ipq_ttl : ℕ
  ipq_p : BitVec 8
  ipq_id : BitVec 16
  frags : List Ipasfrag
  ipq_src : BitVec 32
  ipq_dst : BitVec 32
  deriving DecidableEq, Repr

/-- A datagram given to a protocol: its header, where `ip_len` is the length of the
    data and `ip_tos` the flag of the fragment, and the chain it is in. -/
structure Datagram where
  ip : Ipasfrag
  ip_src : BitVec 32
  ip_dst : BitVec 32
  deriving DecidableEq, Repr

/-- `IPFRAGTTL`. -/
def ipFragTtl : ℕ := 15

/-- What `ipintr` makes of a packet for us before its reassembly: `ip_len` no longer
    has the header, `ip_mff` is set if more fragments are expected, and the offset
    is converted to bytes. -/
def asFrag (ip : IpHdr) (m : List Mbuf) : Ipasfrag where
  ip_v := ip.ip_v
  ip_hl := ip.ip_hl
  ipf_mff := ip.ip_off &&& ipMf ≠ 0
  ip_len := wrap 16 (ip.ip_len - ip.ip_hl * 4)
  ip_id := ip.ip_id
  ip_off := (ip.ip_off <<< 3).toInt
  ip_ttl := ip.ip_ttl
  ip_p := ip.ip_p
  ip_sum := ip.ip_sum
  m := m

/-- The fragment without its header: presence of header sizes in mbufs would confuse
    the code of `ip_reass`. -/
def Ipasfrag.hideHeader (ip : Ipasfrag) : Ipasfrag := { ip with m := hide (ip.ip_hl * 4) ip.m }

/-- The fragment without its first `i` bytes. -/
def Ipasfrag.trimFront (q : Ipasfrag) (i : ℤ) : Ipasfrag :=
  { q with ip_off := wrap 16 (q.ip_off + i), ip_len := wrap 16 (q.ip_len - i),
           m := mAdj i.toNat q.m }

/-- While we overlap succeeding segments trim them or, if they are completely
    covered, dequeue them. -/
def trimSucc (ip : Ipasfrag) : List Ipasfrag → List Ipasfrag
  | [] => []
  | q :: rest =>
    if ip.ip_off + ip.ip_len > q.ip_off then
      let i := ip.ip_off + ip.ip_len - q.ip_off
      if i < q.ip_len then q.trimFront i :: rest else trimSucc ip rest
    else q :: rest

/-- Sticks the fragment in its place, or drops it (`none`) if the preceding one
    provides all of its data. -/
def enqueue (ip : Ipasfrag) (frags : List Ipasfrag) : Option (List Ipasfrag) :=
  let pre := frags.takeWhile fun q => ¬q.ip_off > ip.ip_off
  let suf := frags.dropWhile fun q => ¬q.ip_off > ip.ip_off
  match pre.getLast? with
  | none => some (ip :: trimSucc ip suf)
  | some q =>
    let i := q.ip_off + q.ip_len - ip.ip_off
    if 0 < i then
      if ip.ip_len ≤ i then none
      else some (pre ++ ip.trimFront i :: trimSucc (ip.trimFront i) suf)
    else some (pre ++ ip :: trimSucc ip suf)

/-- The check for complete reassembly: the end of the fragments if each starts where
    the ones before it end. -/
def complete (next : ℤ) : List Ipasfrag → Option ℤ
  | [] => some next
  | q :: rest => if q.ip_off ≠ next then none else complete (next + q.ip_len) rest

/-- Concatenates the fragments of the queue, and creates the header of the datagram, of
    `next` bytes, by modifying that of the first one, `ip`. -/
def joined (fp : Ipq) (ip : Ipasfrag) (next : ℤ) : Datagram where
  ip := { ip with ip_len := wrap 16 next
                  m := unhide (ip.ip_hl * 4) (fp.frags.flatMap Ipasfrag.m) }
  ip_src := fp.ipq_src
  ip_dst := fp.ipq_dst

/-- Checks for complete reassembly, and joins the fragments. The queue is left if
    anything is missing. -/
def assemble (fp : Ipq) : Option Ipq × Option Datagram :=
  match complete 0 fp.frags, fp.frags.getLast?, fp.frags with
  | some next, some last, ip :: _ =>
    if last.ipf_mff then (some fp, none) else (none, some (joined fp ip next))
  | _, _, _ => (some fp, none)

/-- Takes an incoming fragment, and tries to reassemble its datagram: the queue left
    and the datagram. The queue is `fp` or, if there is none, a new one, which
    takes a buffer (`mget`). -/
def ipReass (mget : Bool) (ip : Ipasfrag) (src dst : BitVec 32) (fp : Option Ipq) :
    Option Ipq × Option Datagram :=
  let ip := ip.hideHeader
  match fp with
  | none =>
    if mget then
      assemble { ipq_ttl := ipFragTtl, ipq_p := ip.ip_p, ipq_id := ip.ip_id, frags := [ip]
                 ipq_src := src, ipq_dst := dst }
    else (none, none)
  | some fp =>
    match enqueue ip fp.frags with
    | none => (some fp, none)
    | some frags => assemble { fp with frags := frags }

/-!
### IP reassembly is exact

The fragments of a datagram with the payload `P` arrive at `ip_reass` in any
order, with any duplication and overlap. As long as the offsets and lengths in
`P` fit a `short`, a queue is a queue of pieces of `P` (`piece`), and what
`ip_reass` does to it is what putting a piece in its place does.

* `reass_exact`: in any state a run reaches, the datagram comes back at the
  fragment that makes what arrived cover `P`, and then with exactly `P`;
* `reass_long`: a payload of 40000 bytes comes back with a negative length.
-/

open List Option

/-! ### Fragments as pieces of the payload -/

/-- The piece of the payload a fragment on a queue holds. -/
def piece (q : Ipasfrag) : Piece UInt8 Bool := ⟨q.ip_off.toNat, contents q.m, q.ipf_mff⟩

/-- The bytes of the payload `P`, by their positions. -/
def byteAt (P : List UInt8) (k : ℕ) : UInt8 := P.getD k 0

theorem map_byteAt (P : List UInt8) {a n : ℕ} (h : a + n ≤ P.length) :
    (range' a n).map (byteAt P) = (P.drop a).take n := by
  refine ext_getElem ?_ fun i h1 h2 => ?_
  · simp
    omega
  · simp only [length_map, length_range'] at h1
    simp [byteAt, getD_eq_getElem?_getD, show a + i < P.length by omega]

/-- A fragment on the queue of a datagram with the payload `P`: it holds the bytes of
    `P` at its offset, it expects more fragments unless it ends with `P`, and if it is
    the first one its header is before its data. -/
structure Good (P : List UInt8) (q : Ipasfrag) : Prop where
  nonneg : 0 ≤ q.ip_off
  len : q.ip_len = (contents q.m).length
  within : (piece q).fin ≤ P.length
  mff : q.ipf_mff = true ↔ (piece q).fin ≠ P.length
  agrees : (piece q).Agrees (byteAt P)
  header : q.ip_off = 0 → ∃ m c, q.m = m :: c ∧ q.ip_hl * 4 ≤ m.before.length

variable {P : List UInt8} {ip q : Ipasfrag} {l : List Ipasfrag}

theorem Good.fin_eq (h : Good P q) : ((piece q).fin : ℤ) = q.ip_off + q.ip_len := by
  have := h.nonneg
  simp only [Piece.fin, piece, h.len]
  omega

theorem Good.pos_eq (h : Good P q) : ((piece q).pos : ℤ) = q.ip_off := Int.toNat_of_nonneg h.nonneg

/-- Trimming a fragment cuts its piece. -/
theorem Good.trimFront (h : Good P q) (hP : P.length ≤ 32767) {i : ℕ} (hi : i < (piece q).data.length) :
    piece (q.trimFront i) = (piece q).cut i ∧ (0 < i → Good P (q.trimFront i)) := by
  have hlen : q.ip_len = ((piece q).data.length : ℤ) := h.len
  have hfin : (piece q).fin = (piece q).pos + (piece q).data.length := rfl
  have hpos := h.pos_eq
  have hwit := h.within
  have hnon := h.nonneg
  have hoff : wrap 16 (q.ip_off + i) = q.ip_off + i := wrap_short (by omega) (by omega)
  have hl : wrap 16 (q.ip_len - i) = q.ip_len - i := wrap_short (by omega) (by omega)
  have hpiece : piece (q.trimFront i) = (piece q).cut i := by
    simp only [piece, Ipasfrag.trimFront, Piece.cut, hoff, contents_mAdj, Int.toNat_natCast]
    congr 1
    omega
  refine ⟨hpiece, fun hi0 => ⟨?_, ?_, ?_, ?_, ?_, fun h0 => ?_⟩⟩
  · simp only [Ipasfrag.trimFront, hoff]
    omega
  · have : i < (contents q.m).length := hi
    simp only [Ipasfrag.trimFront, hl, contents_mAdj, Int.toNat_natCast, length_drop]
    rw [h.len]
    omega
  · rw [hpiece, Piece.cut_fin _ hi.le]
    exact h.within
  · rw [hpiece, Piece.cut_fin _ hi.le]
    exact h.mff
  · rw [hpiece]
    exact h.agrees.cut i
  · simp only [Ipasfrag.trimFront, hoff] at h0
    omega

/-! ### The steps of `ip_reass` -/

theorem trimSucc_piece (hP : P.length ≤ 32767) (hip : Good P ip) (hl : ∀ q ∈ l, Good P q) :
    (trimSucc ip l).map piece = Piece.trim (piece ip) (l.map piece) ∧
      ∀ q ∈ trimSucc ip l, Good P q := by
  induction l with
  | nil => exact ⟨rfl, by simp [trimSucc]⟩
  | cons q l ih =>
    obtain ⟨hq, hl⟩ := forall_mem_cons.1 hl
    have hfin := hip.fin_eq
    have hqfin := hq.fin_eq
    have hqpos := hq.pos_eq
    have hqlen : (piece q).fin = (piece q).pos + (piece q).data.length := rfl
    rw [trimSucc, map_cons, Piece.trim]
    by_cases h1 : (piece ip).fin ≤ (piece q).pos
    · rw [if_neg (by omega), if_pos h1, map_cons]
      exact ⟨rfl, forall_mem_cons.2 ⟨hq, hl⟩⟩
    · rw [if_pos (by omega), if_neg h1]
      by_cases h2 : (piece ip).fin < (piece q).fin
      · have hi : ip.ip_off + ip.ip_len - q.ip_off = (((piece ip).fin - (piece q).pos : ℕ) : ℤ) := by
          omega
        obtain ⟨hcut, hgood⟩ := hq.trimFront hP (i := (piece ip).fin - (piece q).pos) (by omega)
        simp only [hi]
        rw [if_pos (by omega), if_pos h2, map_cons, hcut]
        exact ⟨rfl, forall_mem_cons.2 ⟨hgood (by omega), hl⟩⟩
      · simp only
        rw [if_neg (by omega), if_neg h2]
        exact ih hl

/-- The place of a fragment in the queue is that of its piece. -/
theorem place_piece (hip : Good P ip) (hl : ∀ q ∈ l, Good P q) :
    (l.takeWhile fun q => ¬q.ip_off > ip.ip_off).map piece =
        (l.map piece).takeWhile (fun p => p.pos ≤ (piece ip).pos) ∧
      (l.dropWhile fun q => ¬q.ip_off > ip.ip_off).map piece =
        (l.map piece).dropWhile fun p => p.pos ≤ (piece ip).pos := by
  induction l with
  | nil => exact ⟨rfl, rfl⟩
  | cons q l ih =>
    obtain ⟨hq, hl⟩ := forall_mem_cons.1 hl
    have hpos := hip.pos_eq
    have hqpos := hq.pos_eq
    rw [map_cons]
    by_cases h : (piece q).pos ≤ (piece ip).pos
    · have hnot : ¬q.ip_off > ip.ip_off := by omega
      rw [takeWhile_cons_of_pos (by simpa using hnot), takeWhile_cons_of_pos (by simpa),
        dropWhile_cons_of_pos (by simpa using hnot), dropWhile_cons_of_pos (by simpa),
        map_cons, (ih hl).1, (ih hl).2]
      exact ⟨rfl, rfl⟩
    · have hgt : q.ip_off > ip.ip_off := by omega
      rw [takeWhile_cons_of_neg (by simpa using hgt), takeWhile_cons_of_neg (by simpa using h),
        dropWhile_cons_of_neg (by simpa using hgt), dropWhile_cons_of_neg (by simpa using h)]
      exact ⟨rfl, rfl⟩

/-- The queue after a fragment arrived, or the one before if it was dropped, is that of
    the pieces. -/
theorem enqueue_piece (hP : P.length ≤ 32767) (hip : Good P ip) (hl : ∀ q ∈ l, Good P q) :
    ((enqueue ip l).getD l).map piece = Piece.insert (piece ip) (l.map piece) ∧
      ∀ q ∈ (enqueue ip l).getD l, Good P q := by
  obtain ⟨htake, hdrop⟩ := place_piece hip hl
  have hpre : ∀ q ∈ l.takeWhile fun q => ¬q.ip_off > ip.ip_off, Good P q := fun q hq =>
    hl q ((takeWhile_sublist _).subset hq)
  have hsuf : ∀ q ∈ l.dropWhile fun q => ¬q.ip_off > ip.ip_off, Good P q := fun q hq =>
    hl q ((dropWhile_sublist _).subset hq)
  obtain ⟨htrim, hgood⟩ := trimSucc_piece hP hip hsuf
  rw [enqueue, Piece.insert, ← htake, ← hdrop, getLast?_map]
  cases hlast : (l.takeWhile fun q => ¬q.ip_off > ip.ip_off).getLast? with
  | none =>
    simp only [map_none, getD_some, map_cons, htrim, true_and]
    exact forall_mem_cons.2 ⟨hip, hgood⟩
  | some q =>
    have hq := hpre q (mem_of_getLast? hlast)
    have hfin := hip.fin_eq
    have hpos := hip.pos_eq
    have hqfin := hq.fin_eq
    have hlen : (piece ip).fin = (piece ip).pos + (piece ip).data.length := rfl
    simp only [map_some]
    by_cases h1 : (piece q).fin ≤ (piece ip).pos
    · rw [if_neg (by omega), if_pos h1, getD_some, map_append, map_cons, htrim]
      exact ⟨rfl, forall_mem_append.2 ⟨hpre, forall_mem_cons.2 ⟨hip, hgood⟩⟩⟩
    · rw [if_pos (by omega), if_neg h1]
      by_cases h2 : (piece ip).fin ≤ (piece q).fin
      · rw [if_pos (by omega), if_pos h2, getD_none]
        exact ⟨rfl, hl⟩
      · have hi : q.ip_off + q.ip_len - ip.ip_off = (((piece q).fin - (piece ip).pos : ℕ) : ℤ) := by
          omega
        obtain ⟨hcut, hipcut⟩ := hip.trimFront hP (i := (piece q).fin - (piece ip).pos) (by omega)
        have hipcut := hipcut (by omega)
        obtain ⟨htrim', hgood'⟩ := trimSucc_piece hP hipcut hsuf
        rw [if_neg (by omega), if_neg h2, getD_some, map_append, map_cons, hi,
          htrim', hcut, Piece.trim_congr (Piece.cut_fin _ (by omega))]
        exact ⟨rfl, forall_mem_append.2 ⟨hpre, forall_mem_cons.2 ⟨hipcut, hgood'⟩⟩⟩

theorem enqueue_ne_nil {frags : List Ipasfrag} (h : enqueue ip l = some frags) : frags ≠ [] := by
  rw [enqueue] at h
  split at h
  · cases h
    simp
  · dsimp only at h
    split_ifs at h
    all_goals
      cases h
      simp

/-- The check for complete reassembly is whether all the pieces can be delivered. -/
theorem complete_piece (hl : ∀ q ∈ l, Good P q) (n : ℕ) :
    complete n l = if (Piece.deliver n (l.map piece)).2.2 = [] then
      some ((Piece.deliver n (l.map piece)).1 : ℤ) else none := by
  induction l generalizing n with
  | nil => rfl
  | cons q l ih =>
    obtain ⟨hq, hl⟩ := forall_mem_cons.1 hl
    have hpos := hq.pos_eq
    rw [complete, map_cons, Piece.deliver]
    by_cases h : (piece q).pos = n
    · have hfin : (n : ℤ) + q.ip_len = ((piece q).fin : ℤ) := by
        rw [hq.fin_eq, ← hpos, h]
      rw [if_neg (by omega), if_pos h, hfin, ih hl]
    · rw [if_pos (by omega), if_neg h]
      simp

/-- The datagram `d` holds exactly the payload `P`, after its header. -/
def Datagram.HoldsExactly (d : Datagram) (P : List UInt8) : Prop :=
  d.ip.ip_len = P.length ∧ ∃ hdr, hdr.length = d.ip.ip_hl * 4 ∧ contents d.ip.m = hdr ++ P

theorem contents_flatMap (l : List Ipasfrag) :
    contents (l.flatMap Ipasfrag.m) = (l.map piece).flatMap Piece.data := by
  induction l with
  | nil => rfl
  | cons q l ih => simp [flatMap_cons, ih, piece]

theorem joined_hl (fp : Ipq) (ip : Ipasfrag) (next : ℤ) : (joined fp ip next).ip.ip_hl = ip.ip_hl :=
  rfl

theorem joined_chain (fp : Ipq) (ip : Ipasfrag) (next : ℤ) :
    (joined fp ip next).ip.m = unhide (ip.ip_hl * 4) (fp.frags.flatMap Ipasfrag.m) := rfl

theorem joined_len (fp : Ipq) (ip : Ipasfrag) (next : ℤ) :
    (joined fp ip next).ip.ip_len = wrap 16 next := rfl

theorem assemble_eq {fp : Ipq} {next : ℤ} {last ip : Ipasfrag} {rest : List Ipasfrag}
    (hnx : complete 0 fp.frags = some next) (hlast : fp.frags.getLast? = some last)
    (hfrg : fp.frags = ip :: rest) :
    assemble fp = if last.ipf_mff = true then (some fp, none)
      else (none, some (joined fp ip next)) := by
  obtain ⟨ttl, p, id, frags, src, dst⟩ := fp
  obtain rfl : frags = ip :: rest := hfrg
  simp only [assemble, hnx, hlast]

/-- A queue is assembled exactly if it covers the payload. -/
theorem assemble_spec (hP : P.length ≤ 32767) {fp : Ipq} (hne : fp.frags ≠ [])
    (hsor : Piece.Sorted (fp.frags.map piece)) (hl : ∀ q ∈ fp.frags, Good P q) :
    (Set.Iio P.length ⊆ cover Piece.span (fp.frags.map piece) →
      ∃ d, assemble fp = (none, some d) ∧ d.HoldsExactly P) ∧
    (¬Set.Iio P.length ⊆ cover Piece.span (fp.frags.map piece) → assemble fp = (some fp, none)) := by
  obtain ⟨ip, rest, hfrg⟩ := exists_cons_of_ne_nil hne
  obtain ⟨last, hlast⟩ : ∃ last, fp.frags.getLast? = some last :=
    ⟨_, getLast?_eq_some_getLast hne⟩
  have hlast' : (fp.frags.map piece).getLast? = some (piece last) := by
    rw [getLast?_map, hlast, map_some]
  have hwit : ∀ p ∈ fp.frags.map piece, p.fin ≤ P.length :=
    List.forall_mem_map.2 fun q hq => (hl q hq).within
  have hnon : ∀ p ∈ fp.frags.map piece, 0 ≤ p.pos := fun p _ => p.pos.zero_le
  have hgood := hl last (mem_of_getLast? hlast)
  have hcom := complete_piece hl 0
  have hall := Piece.deliver_all_iff hsor hnon hwit hlast'
  rw [show Set.Ico 0 P.length = Set.Iio P.length from Set.Ico_bot] at hall
  rw [← hall]
  refine ⟨fun ⟨hnil, hfin⟩ => ?_, fun hnot => ?_⟩
  · have hmff : ¬last.ipf_mff = true := fun h => hgood.mff.1 h hfin
    have hrch : (Piece.deliver 0 (fp.frags.map piece)).1 = P.length :=
      (Piece.deliver_fin 0 hnil hlast').trans hfin
    have hdata := Piece.deliver_data (S := byteAt P) 0 hsor hnon
      (List.forall_mem_map.2 fun q hq => (hl q hq).agrees)
    have hspl := (Piece.deliver_spec 0 hsor hnon).2.1
    rw [hnil, append_nil] at hspl
    rw [← hspl, hrch, ← contents_flatMap, map_byteAt P (by omega)] at hdata
    have hip := hl ip (by rw [hfrg]; exact mem_cons_self)
    have hfst : ip.ip_off = 0 := by
      have hpos := hip.pos_eq
      rw [hfrg, map_cons, Piece.deliver] at hnil
      split_ifs at hnil with h
      omega
    obtain ⟨m, c, hm, hhl⟩ := hip.header hfst
    rw [if_pos hnil, hrch] at hcom
    rw [assemble_eq hcom hlast hfrg, if_neg hmff]
    refine ⟨_, rfl, by rw [joined_len, wrap_short (by omega) (by omega)], ?_⟩
    obtain ⟨hdr, hlen, hcont⟩ := contents_unhide hhl (c ++ rest.flatMap Ipasfrag.m)
    have hchn : fp.frags.flatMap Ipasfrag.m = m :: (c ++ rest.flatMap Ipasfrag.m) := by
      rw [hfrg, flatMap_cons, hm, cons_append]
    refine ⟨hdr, by rw [joined_hl, hlen], ?_⟩
    rw [joined_chain, hchn, hcont, ← hchn, hdata]
    simp
  · by_cases hnil : (Piece.deliver 0 (fp.frags.map piece)).2.2 = []
    · have hmff : last.ipf_mff = true := hgood.mff.2 fun hfin => hnot ⟨hnil, hfin⟩
      rw [if_pos hnil] at hcom
      rw [assemble_eq hcom hlast hfrg, if_pos hmff]
    · rw [if_neg hnil] at hcom
      rw [assemble, show complete 0 fp.frags = none from hcom]

/-! ### Runs -/

/-- The offset of a fragment in the payload of its datagram. -/
def fragOff (ip : IpHdr) : ℕ := offset ip.ip_off * 8

/-- The length of the data of a fragment that arrives. -/
def fragLen (ip : IpHdr) (m : List Mbuf) : ℕ := (contents m).length - ip.ip_hl * 4

/-- The positions of the payload a fragment holds. -/
def fragSpan (f : IpHdr × List Mbuf) : Set ℕ :=
  Set.Ico (fragOff f.1) (fragOff f.1 + fragLen f.1 f.2)

/-- A fragment of a datagram with the payload `P`, as it arrives: its header is in the
    first buffer, and the flag for more fragments is clear exactly if it ends with `P`. -/
structure FragmentOf (P : List UInt8) (f : IpHdr × List Mbuf) : Prop where
  header : ∃ m c, f.2 = m :: c ∧ f.1.ip_hl * 4 ≤ m.data.length
  len : f.1.ip_len = wrap 16 (contents f.2).length
  fits : fragOff f.1 + fragLen f.1 f.2 ≤ P.length
  data : (contents f.2).drop (f.1.ip_hl * 4) = (P.drop (fragOff f.1)).take (fragLen f.1 f.2)
  last : f.1.ip_off &&& ipMf ≠ 0 ↔ fragOff f.1 + fragLen f.1 f.2 ≠ P.length

theorem shiftLeft_toInt {x : BitVec 16} (h : offset x * 8 ≤ 32767) :
    (x <<< 3).toInt = ((offset x * 8 : ℕ) : ℤ) := by
  have hshift : (x <<< 3).toNat = x.toNat * 8 % 65536 := by
    rw [BitVec.toNat_shiftLeft, Nat.shiftLeft_eq]
  rw [offset_eq] at h ⊢
  rw [BitVec.toInt_eq_toNat_of_lt, hshift] <;> omega

/-- What is queued of a fragment is good. -/
theorem FragmentOf.good (hP : P.length ≤ 32767) {f : IpHdr × List Mbuf} (hf : FragmentOf P f) :
    Good P (asFrag f.1 f.2).hideHeader ∧ (piece (asFrag f.1 f.2).hideHeader).span = fragSpan f := by
  obtain ⟨m, c, hm, hhl⟩ := hf.header
  have hchn : (asFrag f.1 f.2).hideHeader.m = hide (f.1.ip_hl * 4) f.2 := rfl
  have hcont : contents (hide (f.1.ip_hl * 4) f.2) = (contents f.2).drop (f.1.ip_hl * 4) := by
    rw [hm, hide, contents_cons, contents_cons, drop_append_of_le_length hhl]
  have hlen : (contents (hide (f.1.ip_hl * 4) f.2)).length = fragLen f.1 f.2 := by
    rw [hcont, length_drop, fragLen]
  have hle : f.1.ip_hl * 4 ≤ (contents f.2).length := by
    rw [hm, contents_cons, length_append]
    omega
  have hfits := hf.fits
  have hoff : (asFrag f.1 f.2).hideHeader.ip_off = (fragOff f.1 : ℤ) := by
    simp only [Ipasfrag.hideHeader, asFrag]
    exact shiftLeft_toInt (by simp only [fragOff] at hfits; omega)
  have hiplen : (asFrag f.1 f.2).hideHeader.ip_len = (fragLen f.1 f.2 : ℤ) := by
    simp only [Ipasfrag.hideHeader, asFrag, hf.len]
    rw [wrap_wrap_sub, wrap_short] <;> simp only [fragLen] at hfits ⊢ <;> omega
  have hpos : (piece (asFrag f.1 f.2).hideHeader).pos = fragOff f.1 := by
    rw [piece, hoff, Int.toNat_natCast]
  have hfin : (piece (asFrag f.1 f.2).hideHeader).fin = fragOff f.1 + fragLen f.1 f.2 := by
    rw [Piece.fin, hpos, piece, hchn, hlen]
  refine ⟨⟨?_, ?_, ?_, ?_, ?_, fun _ => ?_⟩, ?_⟩
  · rw [hoff]
    omega
  · rw [hiplen, hchn, hlen]
  · rwa [hfin]
  · rw [hfin, ← hf.last]
    simp [Ipasfrag.hideHeader, asFrag]
  · rw [Piece.Agrees, hpos, piece, hchn, hlen, map_byteAt P hfits, hcont, hf.data]
  · have hbef : f.1.ip_hl * 4 ≤ (m.before ++ m.data.take (f.1.ip_hl * 4)).length := by
      rw [length_append, length_take]
      omega
    refine ⟨{ before := m.before ++ m.data.take (f.1.ip_hl * 4)
              data := m.data.drop (f.1.ip_hl * 4) }, c, ?_, hbef⟩
    rw [hchn, hm, hide]
  · rw [Piece.span, hfin, hpos, fragSpan]

/-- The queue of a datagram, and the fragments that arrived since it was empty. -/
structure QueueState where
  fp : Option Ipq
  seen : List (IpHdr × List Mbuf)

/-- What `ip_reass` does with the fragment `f`, from the queue `fp`. -/
def reass (mget : Bool) (f : IpHdr × List Mbuf) (fp : Option Ipq) : Option Ipq × Option Datagram :=
  ipReass mget (asFrag f.1 f.2) f.1.ip_src f.1.ip_dst fp

/-- The state after the fragment `f` arrived. -/
def QueueState.deliver (s : QueueState) (mget : Bool) (f : IpHdr × List Mbuf) : QueueState :=
  let r := reass mget f s.fp
  ⟨r.1, if r.1.isNone then [] else s.seen ++ [f]⟩

/-- The arrivals of fragments of a datagram with the payload `P`. -/
def reassembly (P : List UInt8) : System QueueState (Bool × IpHdr × List Mbuf) where
  init := {⟨none, []⟩}
  step s a s' := FragmentOf P a.2 ∧ s' = s.deliver a.1 a.2

/-- What comes back when the fragments `seen` have arrived is right: a datagram exactly
    if they cover `P` and the last one is among them, and then `P`. -/
structure Exact (P : List UInt8) (seen : List (IpHdr × List Mbuf)) (r : Option Datagram) : Prop where
  returned : r.isSome ↔ Set.Iio P.length ⊆ cover fragSpan seen ∧ ∃ f ∈ seen, f.1.ip_off &&& ipMf = 0
  data : ∀ d ∈ r, d.HoldsExactly P

/-- A queue holds what arrived, and something is missing. -/
structure Waiting (P : List UInt8) (seen : List (IpHdr × List Mbuf)) (fp : Ipq) : Prop where
  nonempty : fp.frags ≠ []
  sorted : Piece.Sorted (fp.frags.map piece)
  good : ∀ q ∈ fp.frags, Good P q
  covers : cover Piece.span (fp.frags.map piece) = cover fragSpan seen
  missing : ¬Set.Iio P.length ⊆ cover fragSpan seen

/-- Nothing has arrived, or it waits in the queue. -/
def Inv (P : List UInt8) (s : QueueState) : Prop :=
  (∀ f ∈ s.seen, FragmentOf P f) ∧ match s.fp with
    | none => s.seen = []
    | some fp => Waiting P s.seen fp

/-- Fragments that cover the payload have the last one among them. -/
theorem exists_last {seen : List (IpHdr × List Mbuf)} (hne : seen ≠ [])
    (hseen : ∀ f ∈ seen, FragmentOf P f) (hcov : Set.Iio P.length ⊆ cover fragSpan seen) :
    ∃ f ∈ seen, f.1.ip_off &&& ipMf = 0 := by
  suffices h : ∃ f ∈ seen, P.length ≤ fragOff f.1 + fragLen f.1 f.2 by
    obtain ⟨f, hf, hle⟩ := h
    have hfrag := hseen f hf
    exact ⟨f, hf, not_not.1 fun hmf => hfrag.last.1 hmf (le_antisymm hfrag.fits hle)⟩
  rcases Nat.eq_zero_or_pos P.length with h0 | hpos
  · obtain ⟨f, rest, hcons⟩ := exists_cons_of_ne_nil hne
    exact ⟨f, hcons ▸ mem_cons_self, by omega⟩
  · obtain ⟨f, hf, hmem⟩ := hcov (Set.mem_Iio.2 (by omega : P.length - 1 < P.length))
    have hlt := hmem.2
    exact ⟨f, hf, by omega⟩

variable {seen : List (IpHdr × List Mbuf)} {f : IpHdr × List Mbuf}

/-- A queue with all that arrived is left, or its datagram comes back. -/
theorem assemble_exact (fp : Ipq) (hP : P.length ≤ 32767) (hne : seen ≠ [])
    (hseen : ∀ f ∈ seen, FragmentOf P f) (hfrg : fp.frags ≠ [])
    (hsor : Piece.Sorted (fp.frags.map piece)) (hgood : ∀ q ∈ fp.frags, Good P q)
    (hcove : cover Piece.span (fp.frags.map piece) = cover fragSpan seen) :
    Exact P seen (assemble fp).2 ∧
      ((assemble fp).1 = none ∨ (assemble fp).1 = some fp ∧ Waiting P seen fp) := by
  obtain ⟨hall, hnot⟩ := assemble_spec hP hfrg hsor hgood
  rw [hcove] at hall hnot
  by_cases hcov : Set.Iio P.length ⊆ cover fragSpan seen
  · obtain ⟨d, hd, hP⟩ := hall hcov
    rw [hd]
    refine ⟨⟨⟨fun _ => ⟨hcov, exists_last hne hseen hcov⟩, fun _ => rfl⟩, ?_⟩, .inl rfl⟩
    rintro _ ⟨⟩
    exact hP
  · rw [hnot hcov]
    exact ⟨⟨⟨nofun, fun h => absurd h.1 hcov⟩, nofun⟩, .inr ⟨rfl, hfrg, hsor, hgood, hcove, hcov⟩⟩

/-- The invariant after a fragment arrived: no queue is left, or one with all that arrived. -/
theorem inv_deliver {s : QueueState} {mget : Bool} (hseen : ∀ g ∈ s.seen ++ [f], FragmentOf P g)
    (h : (reass mget f s.fp).1 = none ∨
      ∃ fp, (reass mget f s.fp).1 = some fp ∧ Waiting P (s.seen ++ [f]) fp) :
    Inv P (s.deliver mget f) := by
  rcases h with h | ⟨fp, h, hw⟩
  · simp [Inv, QueueState.deliver, h]
  · simpa [Inv, QueueState.deliver, h] using ⟨by simpa using hseen, hw⟩

/-- A fragment that arrives keeps the invariant, and what comes back is right. -/
theorem Inv.deliver (hP : P.length ≤ 32767) {s : QueueState} (hs : Inv P s) (hf : FragmentOf P f) :
    Exact P (s.seen ++ [f]) (reass true f s.fp).2 ∧ ∀ mget, Inv P (s.deliver mget f) := by
  obtain ⟨hseen, hfp⟩ := hs
  have hseen' : ∀ g ∈ s.seen ++ [f], FragmentOf P g :=
    forall_mem_append.2 ⟨hseen, by simpa using hf⟩
  obtain ⟨hgood, hspan⟩ := hf.good hP
  have hne : s.seen ++ [f] ≠ [] := by simp
  cases hq : s.fp with
  | none =>
    rw [hq] at hfp
    have hnil : s.seen = [] := hfp
    obtain ⟨hext, hleft⟩ := assemble_exact
      { ipq_ttl := ipFragTtl, ipq_p := f.1.ip_p, ipq_id := f.1.ip_id
        frags := [(asFrag f.1 f.2).hideHeader], ipq_src := f.1.ip_src, ipq_dst := f.1.ip_dst }
      hP hne hseen' (by simp) (by simp [Piece.Sorted]) (by simpa using hgood) (by simp [hspan, hnil])
    refine ⟨hext, fun mget => inv_deliver hseen' ?_⟩
    cases mget with
    | false => exact .inl (by simp [reass, ipReass, hq])
    | true =>
      rw [hq]
      exact hleft.imp_right fun h => ⟨_, h⟩
  | some fp =>
    rw [hq] at hfp
    have hw : Waiting P s.seen fp := hfp
    obtain ⟨hmap, hgood'⟩ := enqueue_piece hP hgood hw.good
    have hcove : cover Piece.span (((enqueue (asFrag f.1 f.2).hideHeader fp.frags).getD
        fp.frags).map piece) = cover fragSpan (s.seen ++ [f]) := by
      rw [hmap, Piece.insert_covers _ hw.sorted, hw.covers, hspan, cover_append, cover_cons,
        cover_nil, Set.union_empty]
    have hsor := hmap ▸ Piece.insert_sorted (piece (asFrag f.1 f.2).hideHeader) hw.sorted
    cases he : enqueue (asFrag f.1 f.2).hideHeader fp.frags with
    | none =>
      rw [he] at hcove
      have hcov : cover fragSpan (s.seen ++ [f]) = cover fragSpan s.seen :=
        hcove.symm.trans hw.covers
      have hreass : ∀ mget, reass mget f (some fp) = (some fp, none) := fun mget => by
        rw [reass, ipReass]
        simp only [he]
      refine ⟨?_, fun mget => inv_deliver hseen' (.inr ⟨fp, ?_, ?_⟩)⟩
      · rw [hreass]
        exact ⟨⟨nofun, fun h => absurd (hcov ▸ h.1) hw.missing⟩, nofun⟩
      · rw [hq, hreass]
      · exact ⟨hw.nonempty, hw.sorted, hw.good, hw.covers.trans hcov.symm, hcov ▸ hw.missing⟩
    | some frags =>
      rw [he] at hcove hsor hgood'
      have hfrg : frags ≠ [] := enqueue_ne_nil he
      obtain ⟨hext, hleft⟩ := assemble_exact { fp with frags := frags } hP hne hseen'
        hfrg hsor hgood' hcove
      have hreass : ∀ mget, reass mget f (some fp) = assemble { fp with frags := frags } :=
        fun mget => by
          rw [reass, ipReass]
          simp only [he]
      refine ⟨by rwa [hreass], fun mget => inv_deliver hseen' ?_⟩
      rw [hq, hreass]
      exact hleft.imp_right fun h => ⟨_, h⟩

/-- In any state a run reaches, a fragment that arrives makes the datagram come back
    exactly if what arrived then covers its payload, and with exactly the payload. -/
theorem reass_exact (hP : P.length ≤ 32767) {s : QueueState} (hs : (reassembly P).Reachable s)
    (hf : FragmentOf P f) : Exact P (s.seen ++ [f]) (reass true f s.fp).2 := by
  have hinv : Inv P s := by
    refine hs.invariant (fun s hs => ?_) fun s a s' h hs => ?_
    · obtain rfl := Set.mem_singleton_iff.1 hs
      exact ⟨by simp, rfl⟩
    · obtain ⟨hfrag, rfl⟩ := hs
      exact (h.deliver hP hfrag).2 a.1
  exact (hinv.deliver hP hf).1

/-- The bytes `data` at the offset `8 * off`, after a header without options. -/
def fragment (off : BitVec 16) (mf : Bool) (data : List UInt8) : IpHdr × List Mbuf :=
  ({ ip_len := 20 + data.length, ip_off := if mf then off ||| ipMf else off },
    [{ data := replicate 20 0 ++ data }])

/-- A payload of twelve bytes, whose second fragment arrives first. -/
theorem reass_exact_twelve :
    Exact [1, 2, 3, 4, 5, 6, 7, 8, 9, 10, 11, 12]
      [fragment 1 false [9, 10, 11, 12], fragment 0 true [1, 2, 3, 4, 5, 6, 7, 8]]
      (reass true (fragment 0 true [1, 2, 3, 4, 5, 6, 7, 8])
        (reass true (fragment 1 false [9, 10, 11, 12]) none).1).2 :=
  reass_exact (s := QueueState.deliver ⟨none, []⟩ true (fragment 1 false [9, 10, 11, 12])) (by decide)
    (.step (a := (true, fragment 1 false [9, 10, 11, 12])) (.init rfl)
      ⟨⟨⟨_, _, rfl, by decide⟩, by decide, by decide, by decide, by decide⟩, rfl⟩)
    ⟨⟨_, _, rfl, by decide⟩, by decide, by decide, by decide, by decide⟩

theorem enqueue_next {a b : Ipasfrag} (hlen : 0 ≤ a.ip_len) (h : b.ip_off = a.ip_off + a.ip_len) :
    enqueue b [a] = some [a, b] := by
  have hle : ¬a.ip_off > b.ip_off := by omega
  rw [enqueue, takeWhile_cons_of_pos (by simpa using hle),
    dropWhile_cons_of_pos (by simpa using hle)]
  simp [h, trimSucc]

/-- Two fragments that arrive in order come back with the sum of their lengths, as a `short`. -/
theorem reass_two {g : IpHdr × List Mbuf} (hoff : (asFrag f.1 f.2).ip_off = 0)
    (hmff : (asFrag f.1 f.2).ipf_mff = true) (hlen : 0 ≤ (asFrag f.1 f.2).ip_len)
    (hnx : (asFrag g.1 g.2).ip_off = (asFrag f.1 f.2).ip_len)
    (hlast : (asFrag g.1 g.2).ipf_mff = false) :
    (reass true g (reass true f none).1).2.map (fun r => r.ip.ip_len) =
      some (wrap 16 ((asFrag f.1 f.2).ip_len + (asFrag g.1 g.2).ip_len)) := by
  have henq : enqueue (asFrag g.1 g.2).hideHeader [(asFrag f.1 f.2).hideHeader] =
      some [(asFrag f.1 f.2).hideHeader, (asFrag g.1 g.2).hideHeader] :=
    enqueue_next hlen (by simp only [Ipasfrag.hideHeader, hnx, hoff, zero_add])
  have hfst : (reass true f none).1 = some
      { ipq_ttl := ipFragTtl, ipq_p := f.1.ip_p, ipq_id := f.1.ip_id
        frags := [(asFrag f.1 f.2).hideHeader], ipq_src := f.1.ip_src, ipq_dst := f.1.ip_dst } := by
    have hcom : complete 0 [(asFrag f.1 f.2).hideHeader] = some (0 + (asFrag f.1 f.2).ip_len) :=
      if_neg (not_not.2 hoff)
    rw [reass, ipReass, if_pos rfl, assemble_eq hcom (show _ = some (asFrag f.1 f.2).hideHeader from rfl) rfl,
      Ipasfrag.hideHeader, if_pos hmff]
    rfl
  rw [hfst, reass, ipReass]
  simp only [henq]
  simp [assemble, complete, joined, Ipasfrag.hideHeader, hoff, hnx, hlast]

/-- The lengths are `short`: a payload of 40000 bytes does not come back as it is. -/
theorem reass_long : ¬∀ P : List UInt8, P.length + 20 ≤ 65535 → ∀ s, (reassembly P).Reachable s →
    ∀ f, FragmentOf P f → Exact P (s.seen ++ [f]) (reass true f s.fp).2 := by
  intro h
  -- the header of a half at the offset `8 * off`
  have hhalf : ∀ off, (off = ipMf ∨ off = 2500) → FragmentOf (replicate 40000 0)
      ({ ip_len := 20020, ip_off := off }, [⟨[], replicate 20020 0⟩]) := by
    rintro off (rfl | rfl)
    all_goals
      refine ⟨⟨_, _, rfl, ?_⟩, ?_, ?_, ?_, ?_⟩ <;>
        simp [-reduceReplicate, fragLen, fragOff, offset, ipMf, wrap_short]
  have hext := h (replicate 40000 0) (by rw [length_replicate]; decide) _
    (.step (a := (true, _)) (.init rfl) ⟨hhalf ipMf (.inl rfl), rfl⟩) _ (hhalf 2500 (.inr rfl))
  obtain ⟨d, hd, hneg⟩ := map_eq_some_iff.1 <| reass_two
    (f := ({ ip_len := 20020, ip_off := ipMf }, [⟨[], replicate 20020 0⟩]))
    (g := ({ ip_len := 20020, ip_off := 2500 }, [⟨[], replicate 20020 0⟩]))
    (by simp only [asFrag]; decide) (by simp only [asFrag]; decide) (by simp only [asFrag]; decide)
    (by simp only [asFrag]; decide) (by simp only [asFrag]; decide)
  have hlen := (hext.data d hd).1
  rw [length_replicate, hneg] at hlen
  simp only [asFrag] at hlen
  exact absurd hlen (by decide)

end Uwisc.Ip
