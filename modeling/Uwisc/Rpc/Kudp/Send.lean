import Mathlib.Algebra.Order.BigOperators.Group.List
import Uwisc.Net.Route.Run
import Uwisc.Netinet.Ip.Exact
import Uwisc.Rpc.Kudp

/-!
# What the fast send path sends

When nothing fails, the packets that `ku_fastsend` gives to the interface are a datagram that was cut
in order (`Cut`, `kuFastsend_cut`), and the sum of a header is right unless folding it leaves a carry
(`inCksum_setSum`).

The reference to the route is never given back: no call that sends anything leaves the routing table
as it was (`kuFastsend_never`). A return of `-2` leaves the chain cut when the buffer for the header of
the second packet is not got (`chain_lost`).
-/

namespace Uwisc.Kudp

open Ip (IpHdr Mbuf Ipq Datagram contents ipMf sizeofIp)
open Lib List
open Net (Trap)

/-! ### Sums -/

/-- Carries do not change what a sum is modulo `65535`. -/
theorem foldl_addCarry {ws : List ℕ} (hws : ∀ w ∈ ws, w < 65536) {n : ℕ} (hn : n < 65536) :
    ws.foldl addCarry n < 65536 ∧ ws.foldl addCarry n % 65535 = (n + ws.sum) % 65535 ∧
      (ws.foldl addCarry n = 0 ↔ n + ws.sum = 0) := by
  induction ws generalizing n with
  | nil => exact ⟨hn, rfl, Iff.rfl⟩
  | cons w ws ih =>
    have hw := hws w mem_cons_self
    have hadd : addCarry n w < 65536 ∧ addCarry n w % 65535 = (n + w) % 65535 ∧ (addCarry n w = 0 ↔ n + w = 0) := by
      rw [addCarry]
      split_ifs <;> omega
    obtain ⟨hlt, hmod, hzero⟩ := ih (fun w' h => hws w' (mem_cons_of_mem w h)) hadd.1
    rw [foldl_cons, sum_cons]
    omega

theorem inCksum_eq_zero_iff {ws : List ℕ} (hws : ∀ w ∈ ws, w < 65536) :
    inCksum ws = 0 ↔ ws.sum % 65535 = 0 ∧ ws.sum ≠ 0 := by
  obtain ⟨hlt, hmod, hzero⟩ := foldl_addCarry hws (Nat.zero_lt_succ 65535)
  rw [zero_add] at hmod hzero
  rw [inCksum]
  omega

theorem htons_lt (n : ℕ) : htons n < 65536 := by
  rw [htons]
  omega

/-- A header with the version and the length of those of the packets of `ku_fastsend`. -/
theorem ips_lt {ip : IpHdr} (hhl : ip.ip_hl = 5) (hv : ip.ip_v = 4) : ∀ w ∈ ips ip, w < 65536 := by
  have htos := ip.ip_tos.isLt
  have hid := ip.ip_id.isLt
  have httl := ip.ip_ttl.isLt
  have hp := ip.ip_p.isLt
  have hsum := ip.ip_sum.isLt
  have hsrc := ip.ip_src.isLt
  have hdst := ip.ip_dst.isLt
  have hlen := htons_lt ip.ip_len.toNat
  have hoff := htons_lt ip.ip_off.toNat
  simp only [ips, forall_mem_cons, not_mem_nil, false_imp_iff, implies_true, and_true, hhl, hv]
  omega

theorem hdrSum_setSum (ip : IpHdr) : hdrSum (setSum ip) = hdrSum ip := rfl

theorem sum_ips (ip : IpHdr) : (ips ip).sum = hdrSum ip + ip.ip_sum.toNat := by
  simp only [hdrSum, ips, eraseIdx, sum_cons, sum_nil]
  omega

/-- The sum of a header is right unless there is a carry when its two halves are added. -/
theorem inCksum_setSum {ip : IpHdr} (hhl : ip.ip_hl = 5) (hv : ip.ip_v = 4) :
    inCksum (ips (setSum ip)) = 0 ↔ hdrSum ip % 65536 + hdrSum ip / 65536 < 65536 := by
  have hsum : (setSum ip).ip_sum.toNat = 65535 - (hdrSum ip + hdrSum ip / 65536) % 65536 := by
    rw [setSum, BitVec.toNat_not, BitVec.toNat_ofNat]
  have hle : (ips ip).sum ≤ 10 * 65535 :=
    sum_le_card_nsmul (ips ip) 65535 fun w hw => Nat.le_of_lt_succ (ips_lt hhl hv w hw)
  rw [sum_ips] at hle
  have hlt : ∀ w ∈ ips (setSum ip), w < 65536 := ips_lt hhl hv
  rw [inCksum_eq_zero_iff hlt, sum_ips, hdrSum_setSum, hsum]
  -- The two halves of the sum are `h` and `l`.
  obtain ⟨h, l, hl, hh, hS⟩ : ∃ h l, l < 65536 ∧ h ≤ 10 ∧ hdrSum ip = 65536 * h + l :=
    ⟨hdrSum ip / 65536, hdrSum ip % 65536, by omega, by omega, (Nat.div_add_mod _ _).symm⟩
  have hdiv : (65536 * h + l) / 65536 = h := by omega
  have hmod : (65536 * h + l) % 65536 = l := by omega
  rw [hS, hdiv, hmod]
  by_cases hcry : l + h < 65536
  · have hfold : (65536 * h + l + h) % 65536 = l + h := by omega
    rw [hfold]
    omega
  · have hfold : (65536 * h + l + h) % 65536 = l + h - 65536 := by omega
    rw [hfold]
    omega

theorem inCksum_setSum_twenty : inCksum (ips (setSum { ip_len := 20 })) = 0 :=
  (inCksum_setSum rfl rfl).2 (by decide)

/-! ### Packets -/

/-- The packet has the bytes `data` of the datagram, from `pos` on. -/
structure Has (ip : IpHdr) (pos : ℕ) (flags : BitVec 16) (data : List UInt8) (p : IpHdr × List Mbuf) : Prop where
  ip : p.1 = setSum { ip with
    ip_off := BitVec.ofNat 16 (pos / 8) ||| flags, ip_len := ((sizeofIp + data.length) % 65536 : ℕ) }
  contents : contents p.2 = wordBytes (ips p.1) ++ data

/-- The packets are the bytes from `pos` on of a datagram, `maxlen` of them in all but the last one. -/
inductive Cut (ip : IpHdr) (maxlen : ℕ) : ℕ → List UInt8 → List (IpHdr × List Mbuf) → Prop
  | last {pos : ℕ} {data : List UInt8} {p : IpHdr × List Mbuf} : Has ip pos 0 data p → data.length ≤ maxlen →
      Cut ip maxlen pos data [p]
  | more {pos : ℕ} {data rest : List UInt8} {p : IpHdr × List Mbuf} {sent : List (IpHdr × List Mbuf)} :
      Has ip pos ipMf data p → data.length = maxlen → Cut ip maxlen (pos + maxlen) rest sent →
      Cut ip maxlen pos (data ++ rest) (p :: sent)

theorem packet_has (ip : IpHdr) (pre : List UInt8) (fragoff : ℕ) (flags : BitVec 16) (body : List (List UInt8)) :
    Has ip fragoff flags (pre ++ body.flatten) (packet ip pre fragoff flags body) := by
  refine ⟨?_, ?_⟩
  · rw [packet, length_append, add_assoc]
  · have hbody : contents (body.map fun b => { data := b }) = body.flatten := by
      rw [contents, flatMap_map, flatMap_id']
    rw [packet, Ip.contents_cons, append_assoc, hbody]

theorem grab_le {maxlen n : ℕ} (hn : n ≤ maxlen) (am : List (List UInt8)) :
    n + (grab maxlen n am).1.flatten.length ≤ maxlen := by
  induction am generalizing n with
  | nil => simpa [grab] using hn
  | cons b am ih =>
    rw [grab]
    split_ifs with h
    · have hle := ih (add_comm b.length n ▸ h)
      rw [flatten_cons, length_append]
      omega
    · simpa using hn

/-- What is put into a packet and what is left is what there was, and the packet is full. -/
theorem squeeze_advance {maxlen n : ℕ} (hn : n ≤ maxlen) {am rest : List (List UInt8)} {b : List UInt8}
    (h : (grab maxlen n am).2 = b :: rest) :
    let fit := (grab maxlen n am).1
    let curlen := n + fit.flatten.length
    (fit ++ squeeze maxlen curlen b).flatten ++ (advance maxlen curlen b :: rest).flatten = am.flatten ∧
      n + (fit ++ squeeze maxlen curlen b).flatten.length = maxlen := by
  intro fit curlen
  have happ := congrArg flatten (grab_append maxlen n am)
  have hfull : maxlen < b.length + curlen := grab_full h
  have hle : curlen ≤ maxlen := grab_le hn am
  rw [h, flatten_append, flatten_cons] at happ
  rw [← happ, squeeze, advance]
  split_ifs with hcur
  · refine ⟨by simp [fit], ?_⟩
    rw [append_nil]
    exact hcur
  · refine ⟨?_, ?_⟩
    · rw [flatten_append, flatten_singleton, flatten_cons, append_assoc, ← append_assoc (b.take _),
        take_append_drop]
    rw [flatten_append, length_append, flatten_singleton, length_take]
    omega

/-- When nothing fails, the packets are what there is to send. -/
theorem fragments_cut {c : Call} {maxlen : ℕ} (hmax : 8 ≤ maxlen) (ip : IpHdr) (hmget : ∀ k, c.mget k = true)
    (hout : ∀ n, c.ifOutput n = false) (k n : ℕ) {pre : List UInt8} (hpre : pre.length ≤ maxlen) (fragoff : ℕ)
    (am : List (List UInt8)) : (fragments c hmax ip k n pre fragoff am).code = 0 ∧
      Cut ip maxlen fragoff (pre ++ am.flatten) (fragments c hmax ip k n pre fragoff am).sent := by
  induction hsize : pre.length + am.flatten.length using Nat.strong_induction_on generalizing k n pre fragoff am with
  | _ size ih =>
    rw [fragments]
    split
    · next hnil =>
      have happ := congrArg flatten (grab_append maxlen pre.length am)
      rw [hnil, append_nil] at happ
      have hle := grab_le hpre am
      have hp := packet_has ip pre fragoff 0 (grab maxlen pre.length am).1
      rw [happ] at hp hle
      exact ⟨by rw [hout]; rfl, .last hp (by rwa [length_append])⟩
    · next b rest hcons =>
      obtain ⟨hdata, hlen⟩ := squeeze_advance hpre hcons
      -- The next packets have no UDP header.
      set left := advance maxlen (pre.length + (grab maxlen pre.length am).1.flatten.length) b :: rest
      have hless : ([] : List UInt8).length + left.flatten.length < size :=
        hsize ▸ (zero_add _).trans_lt (left_lt hmax hcons)
      have hnil : ([] : List UInt8).length ≤ maxlen := Nat.zero_le maxlen
      obtain ⟨hcode, hcut⟩ := ih _ hless _ (n + 1) hnil (fragoff + maxlen) left rfl
      simp only [hmget, hout, Bool.not_true, Bool.false_eq_true, and_false, if_false]
      refine ⟨hcode, ?_⟩
      have hp := packet_has ip pre fragoff ipMf ((grab maxlen pre.length am).1 ++
        squeeze maxlen (pre.length + (grab maxlen pre.length am).1.flatten.length) b)
      rw [← hdata, ← append_assoc]
      exact .more hp (by rw [length_append, hlen]) hcut

theorem length_udphdr (uh_sport uh_dport : BitVec 16) (datalen : ℕ) :
    (udphdr uh_sport uh_dport datalen).length = sizeofUdphdr := rfl

/-! ### Calls -/

/-- The packet fits the interface, and its header says what it is and has the right sum. -/
structure Right (mtu : ℕ) (p : IpHdr × List Mbuf) : Prop where
  fits : (contents p.2).length ≤ mtu
  ip_len : p.1.ip_len = (contents p.2).length
  cksum : inCksum (ips p.1) = 0

/-- `ip_reass` of a packet that arrives, and the datagrams it has given. -/
def deliver (s : Option Ipq × List Datagram) (p : IpHdr × List Mbuf) : Option Ipq × List Datagram :=
  let r := Ip.reass true ({ p.1 with ip_len := wrap 16 p.1.ip_len }, p.2) s.1
  (r.1, s.2 ++ r.2.toList)

/-- In any order, the packets give the datagram `P` and nothing else. -/
def Reassembles (P : List UInt8) (sent : List (IpHdr × List Mbuf)) : Prop :=
  ∀ l : List (IpHdr × List Mbuf), l.Perm sent →
    ∃ d : Datagram, l.foldl deliver (none, []) = (none, [d]) ∧ d.HoldsExactly P

/-- The call with other answers of the code it calls. -/
def Call.answer (c : Call) (mget ifOutput : ℕ → Bool) : Call := { c with mget := mget, ifOutput := ifOutput }

/-- When nothing fails, what is sent through the interface is one datagram of UDP, and the entries of the routing
    table are as they were; a return of `-2` leaves the chain as it was, and nothing was sent. -/
structure SendsSame (c : Call) (ifp : ℕ) (am : List (List UInt8)) : Prop where
  sends : ∃ core s, kuFastsend (c.answer (fun _ => true) fun _ => false) am = .ok (core, s) ∧ s.code = 0 ∧
    (∀ p ∈ s.sent, Right (c.if_mtu ifp) p) ∧
    Reassembles (udphdr c.inp_lport (sinPort c.addr) am.flatten.length ++ am.flatten) s.sent ∧
    core.entry = c.core.entry
  intact : ∀ mget ifOutput core s, kuFastsend (c.answer mget ifOutput) am = .ok (core, s) → s.code = -2 →
    s.sent = [] ∧ s.am.flatten = am.flatten

/-- The routing table has an entry for the destination, which `rtalloc` finds and takes a reference to. -/
structure Routed (c : Call) (i : ℕ) (rt : Net.Rtentry) : Prop where
  lookup : Net.lookup c.m c.core (roDst c.addr) = .ok (some i)
  entry : c.core.entry i = some rt

variable {c : Call} {i : ℕ} {rt : Net.Rtentry}

theorem Routed.rtalloc (h : Routed c i rt) : Net.rtalloc c.m c.core ⟨.null, roDst c.addr⟩ =
    .ok (c.core.set i { rt with rt_refcnt := wrap 16 (rt.rt_refcnt + 1) }, ⟨.entry i, roDst c.addr⟩) := by
  have haf : ¬Net.AF_MAX ≤ (roDst c.addr).sa_family := (by decide : ¬Net.AF_MAX ≤ Net.AF_INET)
  have hget : c.core.get i = .ok rt := Net.get_eq_ok.2 h.entry
  simp [Net.rtalloc, Net.holdsUp, h.lookup, Net.hold, hget, haf, bind, Except.bind]

/-- With a route, the headers and the chain are sent, and the reference that was taken is kept. -/
theorem Routed.kuFastsend (h : Routed c i rt) (hmget : c.mget 0 = true) (am : List (List UInt8)) :
    kuFastsend c am = .ok (c.core.set i { rt with rt_refcnt := wrap 16 (rt.rt_refcnt + 1) },
      fragments c (le_maxlen c rt.rt_ifp) (hdr c rt.rt_ifp) 1 0 (udphdr c.inp_lport (sinPort c.addr) am.flatten.length)
        0 am) := by
  have hget : (c.core.set i { rt with rt_refcnt := wrap 16 (rt.rt_refcnt + 1) }).get i =
      .ok { rt with rt_refcnt := wrap 16 (rt.rt_refcnt + 1) } := Net.get_eq_ok.2 (Function.update_self ..)
  simp [Kudp.kuFastsend, h.rtalloc, hget, hmget, bind, Except.bind]

/-- A count with one more is another one. -/
theorem wrap_succ_ne (n : ℤ) : wrap 16 (n + 1) ≠ n := fun h => by
  have hmod := wrap_emod 16 (n + 1)
  rw [h] at hmod
  omega

/-- When nothing fails, the packets are the datagram, cut in order, and the reference is kept. -/
theorem kuFastsend_cut (h : Routed c i rt) (hmget : ∀ k, c.mget k = true) (hout : ∀ n, c.ifOutput n = false)
    (am : List (List UInt8)) : ∃ core s, kuFastsend c am = .ok (core, s) ∧ s.code = 0 ∧
      Cut (hdr c rt.rt_ifp) (maxlen c rt.rt_ifp) 0 (udphdr c.inp_lport (sinPort c.addr) am.flatten.length ++ am.flatten)
        s.sent ∧
      core.entry ≠ c.core.entry := by
  have hpre : (udphdr c.inp_lport (sinPort c.addr) am.flatten.length).length ≤ maxlen c rt.rt_ifp :=
    (length_udphdr ..).trans_le (le_maxlen c rt.rt_ifp)
  obtain ⟨hcode, hcut⟩ := fragments_cut (le_maxlen c rt.rt_ifp) (hdr c rt.rt_ifp) hmget hout 1 0 hpre 0 am
  refine ⟨_, _, h.kuFastsend (hmget 0) am, hcode, hcut, fun hent => ?_⟩
  have hi := (Function.update_self i _ c.core.entry).symm.trans ((congrFun hent i).trans h.entry)
  exact wrap_succ_ne _ (congrArg Net.Rtentry.rt_refcnt (Option.some_inj.1 hi))

/-- If the buffer for the header of the second packet is not got, `-2` is returned for a chain that has lost its
    end. -/
theorem chain_lost (h : Routed c i rt) (hmget : c.mget 0 = true) {am rest : List (List UInt8)} {b : List UInt8}
    (hrs : (grab (maxlen c rt.rt_ifp) sizeofUdphdr am).2 = b :: rest)
    (hfit : (grab (maxlen c rt.rt_ifp) sizeofUdphdr am).1 ≠ [])
    (hpart : sizeofUdphdr + (grab (maxlen c rt.rt_ifp) sizeofUdphdr am).1.flatten.length ≠ maxlen c rt.rt_ifp)
    (hone : c.mget 1 = true) (htwo : c.mget 2 = false) :
    ∃ core s, kuFastsend c am = .ok (core, s) ∧ s.code = -2 ∧ s.am.flatten ≠ am.flatten := by
  have hlen := length_udphdr c.inp_lport (sinPort c.addr) am.flatten.length
  have hmax : sizeofUdphdr ≤ maxlen c rt.rt_ifp := le_maxlen c rt.rt_ifp
  obtain ⟨hdata, -⟩ := squeeze_advance hmax hrs
  have hfull := grab_full hrs
  have hle := grab_le hmax am
  refine ⟨_, _, h.kuFastsend hmget am, ?_⟩
  rw [fragments]
  split
  · next hnil =>
    rw [hlen, hrs] at hnil
    cases hnil
  · next b' rest' hcons =>
    rw [hlen, hrs] at hcons
    cases hcons
    simp only [hlen, hpart, hone, htwo, hfit, ne_eq, not_false_eq_true, Bool.not_true, Bool.not_false, and_false,
      Bool.false_eq_true, if_true, if_false, lt_irrefl, true_and]
    intro hsame
    -- What comes after the buffer that was cut is missing.
    have hleft := congrArg length (hdata.trans hsame.symm)
    rw [length_append, flatten_cons, length_append, advance, if_neg hpart, length_drop] at hleft
    omega

/-- No call that is given a route sends the same. -/
theorem kuFastsend_never (h : Routed c i rt) (am : List (List UInt8)) : ¬SendsSame c rt.rt_ifp am := by
  intro hsame
  obtain ⟨core, s, hsends, -, -, -, hent⟩ := hsame.sends
  have hans : Routed (c.answer (fun _ => true) fun _ => false) i rt := ⟨h.lookup, h.entry⟩
  obtain ⟨core', s', hcut, -, -, hne⟩ := kuFastsend_cut hans (fun _ => rfl) (fun _ => rfl) am
  obtain ⟨rfl, -⟩ := Prod.mk.inj (Except.ok.inj (hsends.symm.trans hcut))
  exact hne hent

/-! ### A machine with one interface -/

/-- A call with a route through an interface for packets of 1500 bytes. -/
def oneRoute : Call where
  m := Net.oneIf
  core := Net.added.core
  if_mtu := fun _ => 1500
  mtu := fun _ => by decide
  ip_id := 1
  addr := Net.inet 192 5 0 1
  ip_src := 0
  inp_lport := 0x0108
  mget := fun _ => true
  ifOutput := fun _ => false

def route₀ : Net.Rtentry :=
  ⟨0xc0050001, Net.inet 192 5 0 1, Net.inet 10 0 0 2, { up := true, gateway := true, host := true }, 0, 0⟩

theorem roDst_inet : roDst (Net.inet 192 5 0 1) = Net.inet 192 5 0 1 := by
  have hdata : ∀ k, (roDst (Net.inet 192 5 0 1)).sa_data k = (Net.inet 192 5 0 1).sa_data k := by decide
  exact congrArg (Net.Sockaddr.mk Net.AF_INET) (funext hdata)

theorem routed_one : Routed oneRoute 0 route₀ where
  lookup := (congrArg (Net.lookup Net.oneIf Net.added.core) roDst_inet).trans rfl
  entry := rfl

theorem kuFastsend_never_two : ¬SendsSame oneRoute 0 [replicate 1000 7, replicate 1000 8] :=
  kuFastsend_never routed_one _

/-- One byte is sent, and the entry has a reference that nothing holds. -/
theorem reference_kept : ¬SendsSame oneRoute 0 [[7]] := by
  intro hsame
  obtain ⟨core, s, hsends, -, -, -, hent⟩ := hsame.sends
  obtain ⟨core', s', hcut, -, -, hne⟩ := kuFastsend_cut routed_one (fun _ => rfl) (fun _ => rfl) [[7]]
  obtain ⟨rfl, -⟩ := Prod.mk.inj (Except.ok.inj (hsends.symm.trans hcut))
  exact hne hent

end Uwisc.Kudp
