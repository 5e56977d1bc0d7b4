import Uwisc.Lib.Wrap
import Uwisc.Netinet.Ip

/-!
# IP output: options and fragmentation

`ip_output`, `ip_insertoptions` and `ip_optcopy` of `sys/netinet/ip_output.c`. The
route, the allocator of buffers and the output routine of the interface are the
answers they give (`Call`); what is sent is the list of the packets given to the
interface.
-/

namespace Uwisc.Ip

open Lib

/-- A packet: its header, the options after it in the header buffer, and the payload. -/
structure Packet where
  ip : IpHdr
  opts : List UInt8 := []
  data : List UInt8
  deriving DecidableEq, Repr

/-- A packet given to an interface. Its `ip_len` is the `u_short` on the wire; its
    checksum was taken over the first `cksum` bytes. -/
structure Sent extends Packet where
  cksum : ℕ
  deriving DecidableEq, Repr

/-- The errors of `ip_output`, and those of an output routine. -/
inductive Errno
  | ENETUNREACH
  | EADDRNOTAVAIL
  | EACCES
  | EMSGSIZE
  | ENOBUFS
  | output (e : ℤ)
  deriving DecidableEq, Repr

/-- The interface a packet goes to (`struct ifnet`), and its address. -/
structure Ifnet where
  if_mtu : ℤ
  broadcast : Bool := true
  addr : Option (BitVec 32) := none
  deriving DecidableEq, Repr

/-- The options of a socket (`struct ipoption`). -/
structure IpOption where
  ipopt_dst : BitVec 32 := 0
  ipopt_list : List UInt8
  deriving DecidableEq, Repr

/-- A call of `ip_output`: its arguments, and what the code it calls answers. -/
structure Call where
  opt : Option IpOption := none
  forwarding : Bool := false
  allowBroadcast : Bool := false
  /-- `ip_id`, of the next packet. -/
  ip_id : BitVec 16 := 0
  /-- The options fit before the header of the packet, or else a buffer is got. -/
  room : Bool := true
  mgetOpt : Bool := true
  route : Except Errno Ifnet
  /-- Whether the destination on the link is a broadcast address. -/
  inBroadcast : Bool := false
  /-- What `m_get`, `m_copy` and `if_output` answer for the `k`-th fragment. -/
  mget : ℕ → Bool := fun _ => true
  mcopy : ℕ → Bool := fun _ => true
  ifOutput : ℕ → Option Errno := fun _ => none
  /-- The byte after the options in the header buffer. -/
  beyond : UInt8 := 0

/-- What `ip_output` returns, and the packets it gave to the interface. -/
structure Output where
  error : Option Errno
  sent : List Sent
  deriving DecidableEq, Repr

/-! ### Options -/

/-- Inserts IP options into a preformed packet; the header length. -/
def ipInsertoptions (c : Call) (m : Packet) (opt : IpOption) : Packet × ℕ :=
  let optlen := opt.ipopt_list.length
  let m := if opt.ipopt_dst ≠ 0 then { m with ip.ip_dst := opt.ipopt_dst } else m
  if ¬c.room ∧ ¬c.mgetOpt then (m, sizeofIp)
  else
    ({ m with ip.ip_len := wrap 16 (m.ip.ip_len + optlen), opts := opt.ipopt_list ++ m.opts },
      sizeofIp + optlen)

/-- The length of the first of the options `cp`: `IPOPT_NOP` is one byte, the others have
    their length after their number, in the byte `beyond` if that is not an option. -/
def optLen (beyond : UInt8) : List UInt8 → ℕ
  | [] => 0
  | opt :: rest => min (if opt = 1 then 1 else (rest.head?.getD beyond).toNat) (rest.length + 1)

/-- The loop of `ip_optcopy` over the options `cp`, or `none` if it never ends, at an
    option of length `0`. -/
def optcopyLoop (beyond : UInt8) (all : Bool) : List UInt8 → Option (List UInt8)
  | [] => some []
  | opt :: rest =>
    -- IPOPT_EOL
    if opt = 0 then some []
    else
      let optlen := optLen beyond (opt :: rest)
      if _h : optlen = 0 then none
      else (optcopyLoop beyond all ((opt :: rest).drop optlen)).map fun r =>
        if all ∨ opt &&& 0x80 ≠ 0 then (opt :: rest).take optlen ++ r else r
termination_by cp => cp.length
decreasing_by
  rw [List.length_drop, List.length_cons]
  omega

/-- Copies options; if `off` is `0` all options are copied, otherwise selectively. -/
def ipOptcopy (beyond : UInt8) (opts : List UInt8) (off : ℕ) : Option (List UInt8) :=
  (optcopyLoop beyond (off = 0) opts).map fun r => r ++ List.replicate ((4 - r.length % 4) % 4) 0

/-! ### Output -/

/-- Fills in the IP header; the packet and its header length. -/
def fillHeader (c : Call) (m : Packet) : Packet × ℕ :=
  let r := match c.opt with
    | none => (m, sizeofIp)
    | some opt => ipInsertoptions c m opt
  if c.forwarding then (r.1, r.1.ip.ip_hl * 4)
  else
    ({ r.1 with ip.ip_v := 4, ip.ip_off := r.1.ip.ip_off &&& ipDf, ip.ip_id := c.ip_id,
                ip.ip_hl := r.2 / 4 }, r.2)

/-- The `(u_short)` of a length. -/
def uShort (x : ℤ) : ℤ := x % 65536

/-- The length of the fragment at `off` of `total` bytes, before its header is added to it:
    `mhip->ip_len`. -/
def mhipLen (total : ℤ) (len off : ℕ) : ℤ :=
  if off + len ≥ total then wrap 16 (total - off) else wrap 16 len

/-- The offset of the fragment at `off` of `total` bytes, and its flags: `mhip->ip_off`. -/
def mhipOff (ip_off : BitVec 16) (total : ℤ) (len off : ℕ) : BitVec 16 :=
  let mhoff := BitVec.ofNat 16 (off / 8) + (ip_off &&& ~~~ipMf)
  let mhoff := if ip_off &&& ipMf ≠ 0 then mhoff ||| ipMf else mhoff
  if off + len ≥ total then mhoff else mhoff ||| ipMf

/-- The fragment of the packet `m` at `off`, for fragments of `len` bytes each; `none` if
    copying its options never ends. -/
def fragmentAt (c : Call) (m : Packet) (hlen len off : ℕ) : Option Sent :=
  let total := m.ip.ip_len - hlen
  let opts := if sizeofIp < hlen then ipOptcopy c.beyond m.opts off else some []
  opts.map fun opts =>
    { ip := { m.ip with ip_off := mhipOff m.ip.ip_off total len off
                        ip_len := uShort (wrap 16 (mhipLen total len off + sizeofIp)) }
      opts := opts
      -- only the fixed part of the header was discarded from the packet
      data := ((m.opts ++ m.data).drop off).take (mhipLen total len off).toNat
      cksum := hlen }

/-- Loop through length of segment, make a copy of each part and output: from the
    `k`-th fragment on, at `off`. -/
def fragLoop (c : Call) (m : Packet) (hlen : ℕ) {len : ℕ} (hlen8 : 8 ≤ len) (k off : ℕ) :
    Option Output :=
  if _h : (off : ℤ) < m.ip.ip_len - hlen then
    if ¬c.mget k then some ⟨some .ENOBUFS, []⟩
    else
      (fragmentAt c m hlen len off).bind fun mh =>
        if ¬c.mcopy k then some ⟨some .ENOBUFS, []⟩
        else
          match c.ifOutput k with
          | some e => some ⟨some e, [mh]⟩
          | none => (fragLoop c m hlen hlen8 (k + 1) (off + len)).map fun r =>
              { r with sent := mh :: r.sent }
  else some ⟨none, []⟩
termination_by (m.ip.ip_len - hlen - off).toNat

/-- Sends a packet directly if it is small enough for the interface, else in fragments
    if possible. -/
def ipSend (c : Call) (ifp : Ifnet) (m : Packet) (hlen : ℕ) : Option Output :=
  if m.ip.ip_len ≤ ifp.if_mtu then
    some ⟨c.ifOutput 0, [{ m with ip.ip_len := uShort m.ip.ip_len, cksum := hlen }]⟩
  else if m.ip.ip_off &&& ipDf ≠ 0 then some ⟨some .EMSGSIZE, []⟩
  else
    let len := (ifp.if_mtu - hlen) / 8 * 8
    if h : len < 8 then some ⟨some .EMSGSIZE, []⟩
    else @fragLoop c m hlen len.toNat (by omega) 0 0

/-- If source address not specified yet, use address of outgoing interface. -/
def fillSource (ifp : Ifnet) (m : Packet) : Packet :=
  if m.ip.ip_src = 0 then { m with ip.ip_src := ifp.addr.getD 0 } else m

/-- Broadcasts the interface or the user may not send, or that need fragments. -/
def refused (c : Call) (ifp : Ifnet) (m : Packet) : Option Errno :=
  if c.inBroadcast then
    if ¬ifp.broadcast then some .EADDRNOTAVAIL
    else if ¬c.allowBroadcast then some .EACCES
    else if m.ip.ip_len > ifp.if_mtu then some .EMSGSIZE
    else none
  else none

/-- `ip_output` of the packet `m`, or `none` if it never returns. -/
def ipOutput (c : Call) (m : Packet) : Option Output :=
  let r := fillHeader c m
  match c.route with
  | .error e => some ⟨some e, []⟩
  | .ok ifp =>
    let m := fillSource ifp r.1
    match refused c ifp m with
    | some e => some ⟨some e, []⟩
    | none => ipSend c ifp m r.2

end Uwisc.Ip
