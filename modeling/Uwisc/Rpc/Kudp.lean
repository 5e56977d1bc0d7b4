import Uwisc.Net.Route
import Uwisc.Netinet.Ip

/-!
# The fast send path

`ku_fastsend` of `sys/rpc/kudp_fastsend.c`: puts headers of UDP and of IP before a chain of
buffers, and cuts it into packets for the interface of the route that is found for it.

What is cut is the chain itself: a buffer that is in two packets is in the first of them through a
new buffer that points into it. The headers are as they are in memory, with the lower byte of a
`u_short` first. `in_cksum` of `sys/vax/in_cksum.c` is the sum it computes, word by word.
-/

namespace Uwisc.Kudp

open List

open Ip (IpHdr Mbuf ipMf sizeofIp)
open Net (Sockaddr Trap)

/-! ### Headers -/

/-- `htons`. -/
def htons (n : ℕ) : ℕ := n % 256 * 256 + n / 256 % 256

/-- A header as an array of `u_short` (`ips`). -/
def ips (ip : IpHdr) : List ℕ :=
  [ip.ip_hl + ip.ip_v * 16 + ip.ip_tos.toNat * 256, htons ip.ip_len.toNat, ip.ip_id.toNat, htons ip.ip_off.toNat,
    ip.ip_ttl.toNat + ip.ip_p.toNat * 256, ip.ip_sum.toNat, ip.ip_src.toNat % 65536, ip.ip_src.toNat / 65536,
    ip.ip_dst.toNat % 65536, ip.ip_dst.toNat / 65536]

/-- The bytes of an array of `u_short`. -/
def wordBytes (ws : List ℕ) : List UInt8 := ws.flatMap fun w => [UInt8.ofNat w, UInt8.ofNat (w / 256)]

/-- Adds with the carry out of 16 bits carried around. -/
def addCarry (a b : ℕ) : ℕ := if a + b < 65536 then a + b else a + b - 65535

/-- `in_cksum`, of an array of `u_short`. -/
def inCksum (ws : List ℕ) : ℕ := 65535 - ws.foldl addCarry 0

/-- The `sum` of a header, of all its words but `ip_sum`. -/
def hdrSum (ip : IpHdr) : ℕ := ((ips ip).eraseIdx 5).sum

/-- `ip->ip_sum = ~(sum + (sum >> 16))`. -/
def setSum (ip : IpHdr) : IpHdr :=
  { ip with ip_sum := ~~~BitVec.ofNat 16 (hdrSum ip + hdrSum ip / 65536) }

def sizeofUdphdr : ℕ := 8

/-- The UDP header for `datalen` bytes. -/
def udphdr (uh_sport uh_dport : BitVec 16) (datalen : ℕ) : List UInt8 :=
  wordBytes [uh_sport.toNat, uh_dport.toNat, htons (sizeofUdphdr + datalen), 0]

/-- The `sin_addr` of an address, and its `sin_port`. -/
def sinAddr (sin : Sockaddr) : BitVec 32 := Net.big [sin.sa_data 5, sin.sa_data 4, sin.sa_data 3, sin.sa_data 2]

def sinPort (sin : Sockaddr) : BitVec 16 := (Net.big [sin.sa_data 1, sin.sa_data 0]).setWidth 16

/-- `ro->ro_dst`: the internet address of the destination, and zeros. -/
def roDst (addr : Sockaddr) : Sockaddr := ⟨Net.AF_INET, fun k => if 2 ≤ k ∧ k ≤ 5 then addr.sa_data k else 0⟩

/-! ### Calls -/

/-- The arguments of a call, what it reads, and what the code it calls answers. -/
structure Call where
  m : Net.Machine
  core : Net.Core
  if_mtu : ℕ → ℕ
  /-- An interface has room for eight bytes of data in each packet. -/
  mtu : ∀ ifp, sizeofIp + 8 ≤ if_mtu ifp
  ip_id : BitVec 16
  /-- The destination (`to`). -/
  addr : Sockaddr
  /-- What is in the buffer of a header that gets no source, for an interface without an address. -/
  ip_src : BitVec 32
  /-- The port of the socket, which `in_pcbbind` gave it if it had none. -/
  inp_lport : BitVec 16
  /-- Whether `MGET` gets its `k`-th buffer. -/
  mget : ℕ → Bool
  /-- Whether the `n`-th call of `if_output` fails. -/
  ifOutput : ℕ → Bool

/-- What was sent: its return code, the packets given to `if_output`, and what a return of `-2` leaves of the
    chain, for its caller. -/
structure Sends where
  code : ℤ
  sent : List (IpHdr × List Mbuf)
  am : List (List UInt8)

/-- The buffers that are put into a packet of `curlen` bytes whole, and those that are left. -/
def grab (maxlen : ℕ) : ℕ → List (List UInt8) → List (List UInt8) × List (List UInt8)
  | _, [] => ([], [])
  | curlen, b :: am =>
    if b.length + curlen ≤ maxlen then
      let r := grab maxlen (curlen + b.length) am
      (b :: r.1, r.2)
    else ([], b :: am)

/-- The buffer that points to the bytes of the next one that are put into a packet, if it is not full. -/
def squeeze (maxlen curlen : ℕ) (b : List UInt8) : List (List UInt8) :=
  if curlen = maxlen then [] else [b.take (maxlen - curlen)]

/-- What is left of the next buffer. -/
def advance (maxlen curlen : ℕ) (b : List UInt8) : List UInt8 := if curlen = maxlen then b else b.drop (maxlen - curlen)

/-- A packet: the buffer with its headers, and some of the chain. -/
def packet (ip : IpHdr) (pre : List UInt8) (fragoff : ℕ) (flags : BitVec 16) (body : List (List UInt8)) :
    IpHdr × List Mbuf :=
  let ip := setSum { ip with
    ip_off := BitVec.ofNat 16 (fragoff / 8) ||| flags
    ip_len := ((sizeofIp + pre.length + body.flatten.length) % 65536 : ℕ) }
  (ip, { data := wordBytes (ips ip) ++ pre } :: body.map fun b => { data := b })

theorem grab_append (maxlen curlen : ℕ) (am : List (List UInt8)) :
    (grab maxlen curlen am).1 ++ (grab maxlen curlen am).2 = am := by
  induction am generalizing curlen with
  | nil => rfl
  | cons b am ih =>
    rw [grab]
    split_ifs with h
    · exact congrArg (b :: ·) (ih _)
    · rfl

/-- The first of the buffers that are left does not fit. -/
theorem grab_full {maxlen curlen : ℕ} {am rest : List (List UInt8)} {b : List UInt8}
    (h : (grab maxlen curlen am).2 = b :: rest) :
    maxlen < b.length + (curlen + (grab maxlen curlen am).1.flatten.length) := by
  induction am generalizing curlen with
  | nil => cases h
  | cons b' am ih =>
    rw [grab] at h ⊢
    split_ifs at h ⊢ with hle
    · have hmore := ih h
      rw [flatten_cons, length_append]
      omega
    · cases h
      rw [flatten_nil, length_nil, add_zero]
      exact not_le.1 hle

/-- Less is left after a packet. -/
theorem left_lt {maxlen : ℕ} (hmax : 8 ≤ maxlen) {n : ℕ} {am rest : List (List UInt8)} {b : List UInt8}
    (h : (grab maxlen n am).2 = b :: rest) :
    (advance maxlen (n + (grab maxlen n am).1.flatten.length) b :: rest).flatten.length < n + am.flatten.length := by
  have happ := congrArg (fun l => l.flatten.length) (grab_append maxlen n am)
  have hfull := grab_full h
  simp only [h, flatten_append, length_append, flatten_cons] at happ
  rw [flatten_cons, length_append, advance]
  split_ifs with hcur
  · omega
  · rw [length_drop]
    omega

/-- The loop of `ku_fastsend`: `pre` is what is before the data in the packet, `k` and `n` count the calls of
    `MGET` and of `if_output`. -/
def fragments (c : Call) {maxlen : ℕ} (hmax : 8 ≤ maxlen) (ip : IpHdr) (k n : ℕ) (pre : List UInt8) (fragoff : ℕ)
    (am : List (List UInt8)) : Sends :=
  let fit := (grab maxlen pre.length am).1
  let curlen := pre.length + fit.flatten.length
  match _h : (grab maxlen pre.length am).2 with
  | [] => ⟨if c.ifOutput n then -1 else 0, [packet ip pre fragoff 0 fit], []⟩
  | b :: rest =>
    -- Once a packet was sent, what is left is freed when a buffer is not got.
    if curlen ≠ maxlen ∧ !c.mget k then if 0 < n then ⟨-1, [], []⟩ else ⟨-2, [], am⟩
    else
      let k' := if curlen = maxlen then k else k + 1
      let part := squeeze maxlen curlen b
      let left := advance maxlen curlen b :: rest
      if !c.mget k' then if 0 < n then ⟨-1, [], []⟩ else ⟨-2, [], if fit = [] then left else fit ++ part⟩
      else
        let p := packet ip pre fragoff ipMf (fit ++ part)
        if c.ifOutput n then ⟨-1, [p], []⟩
        else
          let s := fragments c hmax ip (k' + 1) (n + 1) [] (fragoff + maxlen) left
          { s with sent := p :: s.sent }
termination_by pre.length + am.flatten.length
decreasing_by exact (zero_add _).trans_lt (left_lt hmax _h)

/-- The header that all packets of a call have. -/
def hdr (c : Call) (ifp : ℕ) : IpHdr where
  ip_v := 4
  ip_hl := sizeofIp / 4
  ip_len := 0
  ip_id := c.ip_id
  ip_ttl := 255
  ip_p := 17
  ip_src := ((c.m.in_ifaddr.find? (·.ia_ifp = ifp)).map fun ia => sinAddr ia.ia_ifa.ifa_addr).getD c.ip_src
  ip_dst := sinAddr c.addr

/-- `(ifp->if_mtu - sizeof (struct ip)) & ~7`. -/
def maxlen (c : Call) (ifp : ℕ) : ℕ := (c.if_mtu ifp - sizeofIp) / 8 * 8

theorem le_maxlen (c : Call) (ifp : ℕ) : 8 ≤ maxlen c ifp := by
  have hmtu := c.mtu ifp
  simp only [maxlen, sizeofIp] at hmtu ⊢
  omega

/-- Sends the chain `am`; the routing table afterwards, and what was sent. -/
def kuFastsend (c : Call) (am : List (List UInt8)) : Except Trap (Net.Core × Sends) := do
  let (core, ro) ← Net.rtalloc c.m c.core ⟨.null, roDst c.addr⟩
  match ro.ro_rt with
  | .entry i =>
    let rt ← core.get i
    if !c.mget 0 then .ok (core, ⟨-2, [], am⟩)
    else
      let pre := udphdr c.inp_lport (sinPort c.addr) am.flatten.length
      .ok (core, fragments c (le_maxlen c rt.rt_ifp) (hdr c rt.rt_ifp) 1 0 pre 0 am)
  | _ => .ok (core, ⟨-2, [], am⟩)

end Uwisc.Kudp
