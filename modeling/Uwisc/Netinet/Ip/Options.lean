import Mathlib.Algebra.Order.Ring.Int

/-!
# IP: option processing

`ip_dooptions` and `save_rte` of `sys/netinet/ip_input.c`. Offsets are from the start of the header; memory
goes on where the header ends, and every access is recorded, with what it is made for (`Access`). The
interfaces and routes of the host are parameters (`Host`).

* `ipDooptions`: the loop, with what was done for each option (`Visit`);
* `Visit.Inside`: all bytes that were read or written are in the option, and data is stored in its data area;
* `Visit.Advanced`: the pointer was advanced by what was recorded.
-/

namespace Uwisc.Ip.Options

def IPOPT_EOL : UInt8 := 0
def IPOPT_NOP : UInt8 := 1
def IPOPT_RR : UInt8 := 7
def IPOPT_TS : UInt8 := 68
def IPOPT_LSRR : UInt8 := 131
def IPOPT_SSRR : UInt8 := 137

def IPOPT_OLEN : ℕ := 1
def IPOPT_OFFSET : ℕ := 2
def IPOPT_MINOFF : ℕ := 4

def IPOPT_TS_TSONLY : ℕ := 0
def IPOPT_TS_TSANDADDR : ℕ := 1
def IPOPT_TS_PRESPEC : ℕ := 2

def ICMP_UNREACH : ℕ := 3
def ICMP_UNREACH_SRCFAIL : ℕ := 5
def ICMP_PARAMPROB : ℕ := 12

/-- The offset of `ip_src`, and that of `ip_dst`. -/
def IP_SRC : ℕ := 12
def IP_DST : ℕ := 16

/-- `sizeof (ip_srcrt)`, with a route of `MAX_IPOPTLEN` addresses. -/
def sizeofSrcrt : ℕ := 164

/-- Four bytes, as they are in memory: a `struct in_addr`, or an `n_time`. -/
structure Word where
  b₀ : UInt8
  b₁ : UInt8
  b₂ : UInt8
  b₃ : UInt8
  deriving DecidableEq

/-- Memory. -/
abbrev Mem := ℕ → UInt8

def Mem.word (mem : Mem) (a : ℕ) : Word := ⟨mem a, mem (a + 1), mem (a + 2), mem (a + 3)⟩

def Mem.put (mem : Mem) (a : ℕ) (w : Word) : Mem := fun u =>
  if u = a then w.b₀ else if u = a + 1 then w.b₁ else if u = a + 2 then w.b₂ else if u = a + 3 then w.b₃ else mem u

/-- What is asked of the interfaces and routes: whether an address is ours (`ifa_ifwithaddr`) or on a net of ours
    (`in_iaonnetof`), the address of the interface on the way to another (`ip_rtaddr`), the first interface
    address there is (`in_ifaddr`), and the time at which the option at an offset is handled (`iptime`). -/
structure Host where
  ifwithaddr : Word → Bool
  iaonnetof : Word → Bool
  rtaddr : Word → Option Word
  ifaddr : Option Word
  iptime : ℕ → Word

/-- An access: `n` bytes at an offset are read, or data is written there; a pointer or an overflow count is
    updated; an address of the header is read or written; `n` bytes of `ip_srcrt` are written. -/
inductive Access
  | read (a n : ℕ)
  | write (a n : ℕ)
  | pointer (a : ℕ)
  | overflow (a : ℕ)
  | header (a n : ℕ)
  | save (off n : ℕ)
  deriving DecidableEq

/-- What is said to the sender in an ICMP message. -/
structure Bad where
  type : ℕ
  code : ℕ
  deriving DecidableEq

/-- The memory of the packet, `ip_srcrt` and `ip_nhops`, and the accesses, the last one first. -/
structure State where
  mem : Mem
  srcrt : Mem
  nhops : ℕ
  log : List Access

/-- A step in the handling of an option, that may go to `bad`. -/
def M (α : Type) := State → Except Bad α × State

instance : Monad M where
  pure x := fun s => (.ok x, s)
  bind x f := fun s => match x s with
    | (.ok a, s) => f a s
    | (.error e, s) => (.error e, s)

def bad {α : Type} (type code : ℕ) : M α := fun s => (.error ⟨type, code⟩, s)

/-- A byte is read. -/
def rd (a : ℕ) : M UInt8 := fun s => (.ok (s.mem a), { s with log := .read a 1 :: s.log })

/-- An address is read. -/
def rdWord (a : ℕ) : M Word := fun s => (.ok (s.mem.word a), { s with log := .read a 4 :: s.log })

/-- An address or a time is stored. -/
def wrWord (a : ℕ) (w : Word) : M Unit := fun s =>
  (.ok (), { s with mem := s.mem.put a w, log := .write a 4 :: s.log })

/-- `cp[IPOPT_OFFSET] += n`. -/
def advance (a : ℕ) (n : UInt8) : M Unit := fun s =>
  (.ok (), { s with mem := Function.update s.mem a (s.mem a + n), log := .pointer a :: s.log })

/-- `++ipt->ipt_oflw`, of the upper bits of the byte. -/
def bumpOverflow (a : ℕ) : M ℕ := fun s =>
  let oflw := ((s.mem a).toNat / 16 + 1) % 16
  (.ok oflw, { s with
    mem := Function.update s.mem a (UInt8.ofNat (oflw * 16 + (s.mem a).toNat % 16))
    log := .overflow a :: s.log })

/-- An address of the header is read. -/
def rdHeader (a : ℕ) : M Word := fun s => (.ok (s.mem.word a), { s with log := .header a 4 :: s.log })

/-- `ip->ip_dst = w`. -/
def wrHeader (a : ℕ) (w : Word) : M Unit := fun s =>
  (.ok (), { s with mem := s.mem.put a w, log := .header a 4 :: s.log })

/-- `bcopy (option, ip_srcrt.srcopt, olen)`. -/
def saveOption (option olen : ℕ) : M Unit := fun s =>
  (.ok (), { s with
    srcrt := fun u => if 1 ≤ u ∧ u < 1 + olen then s.mem (option + (u - 1)) else s.srcrt u
    log := .save 1 olen :: .read option olen :: s.log })

/-- `ip_nhops = n; ip_srcrt.route[ip_nhops++] = dst`. -/
def saveHop (n : ℕ) (dst : Word) : M Unit := fun s =>
  (.ok (), { s with srcrt := s.srcrt.put (4 + 4 * n) dst, nhops := n + 1, log := .save (4 + 4 * n) 4 :: s.log })

/-- `save_rte`: a source route is saved for use in replies. The lengths are `unsigned`. -/
def saveRte (option : ℕ) : M Unit := do
  let dst ← rdHeader IP_SRC
  let olen ← rd (option + IPOPT_OLEN)
  if sizeofSrcrt - 1 < olen.toNat then pure ()
  else do
    saveOption option olen.toNat
    saveHop ((BitVec.ofNat 32 olen.toNat - 2 - 1).toNat / 4) dst

/-- `off > optlen - sizeof (struct in_addr)`, which is `unsigned`. -/
def noSpace (off optlen : ℕ) : Bool := decide ((BitVec.ofNat 32 optlen - 4).toNat < off)

/-- The address at `cp + off` is replaced with that of the outgoing interface `ia`. -/
def record (cp off : ℕ) (ia : Word) : M Unit := do
  wrWord (cp + off) ia
  advance (cp + IPOPT_OFFSET) 4

/-- `case IPOPT_LSRR`, and `IPOPT_SSRR` if `strict`. -/
def sourceRoute (h : Host) (strict : Bool) (cp optlen : ℕ) : M Unit := do
  let ptr ← rd (cp + IPOPT_OFFSET)
  if ptr.toNat < IPOPT_MINOFF then bad ICMP_PARAMPROB (cp + IPOPT_OFFSET)
  else do
    let dst ← rdHeader IP_DST
    if h.ifwithaddr dst = false then
      if strict then bad ICMP_UNREACH ICMP_UNREACH_SRCFAIL else pure ()
    else
      let off := ptr.toNat - 1
      if noSpace off optlen then saveRte cp
      else do
        let addr ← rdWord (cp + off)
        if strict ∧ h.iaonnetof addr = false then bad ICMP_UNREACH ICMP_UNREACH_SRCFAIL
        else match h.rtaddr addr with
          | none => bad ICMP_UNREACH ICMP_UNREACH_SRCFAIL
          | some ia => do
            wrHeader IP_DST addr
            record cp off ia

/-- `case IPOPT_RR`. -/
def recordRoute (h : Host) (cp optlen : ℕ) : M Unit := do
  let ptr ← rd (cp + IPOPT_OFFSET)
  if ptr.toNat < IPOPT_MINOFF then bad ICMP_PARAMPROB (cp + IPOPT_OFFSET)
  else
    let off := ptr.toNat - 1
    if noSpace off optlen then pure ()
    else do
      let addr ← rdWord (cp + off)
      match h.rtaddr addr with
      | none => bad ICMP_UNREACH ICMP_UNREACH_SRCFAIL
      | some ia => record cp off ia

/-- The time is stored at `sin`. -/
def stamp (h : Host) (cp sin : ℕ) : M Unit := do
  wrWord sin (h.iptime cp)
  advance (cp + IPOPT_OFFSET) 4

/-- `case IPOPT_TS`; `ipt_flg` is in the lower bits of its byte. -/
def timestamp (h : Host) (cp : ℕ) : M Unit := do
  let len ← rd (cp + IPOPT_OLEN)
  if len.toNat < 5 then bad ICMP_PARAMPROB cp
  else do
    let ptr ← rd (cp + IPOPT_OFFSET)
    if len.toNat - 4 < ptr.toNat then do
      let oflw ← bumpOverflow (cp + 3)
      if oflw = 0 then bad ICMP_PARAMPROB cp else pure ()
    else do
      let sin := cp + ptr.toNat - 1
      let flg ← rd (cp + 3)
      if flg.toNat % 16 = IPOPT_TS_TSONLY then stamp h cp sin
      else if flg.toNat % 16 = IPOPT_TS_TSANDADDR then
        if len.toNat < ptr.toNat + 8 then bad ICMP_PARAMPROB cp
        else match h.ifaddr with
          | none => bad ICMP_PARAMPROB cp
          | some ia => do
            wrWord sin ia
            stamp h cp (sin + 4)
      else if flg.toNat % 16 = IPOPT_TS_PRESPEC then do
        let addr ← rdWord sin
        if h.ifwithaddr addr = false then pure ()
        else if len.toNat < ptr.toNat + 8 then bad ICMP_PARAMPROB cp
        else do
          advance (cp + IPOPT_OFFSET) 4
          stamp h cp sin
      else bad ICMP_PARAMPROB cp

/-- The `switch` of `ip_dooptions`. -/
def option (h : Host) (opt : UInt8) (cp optlen : ℕ) : M Unit :=
  if opt = IPOPT_LSRR ∨ opt = IPOPT_SSRR then sourceRoute h (opt = IPOPT_SSRR) cp optlen
  else if opt = IPOPT_RR then recordRoute h cp optlen
  else if opt = IPOPT_TS then timestamp h cp
  else pure ()

/-- A pass of the loop of `ip_dooptions`: the length of the option, or `none` at the end of the options. -/
def pass (h : Host) (cp cnt : ℕ) : M (Option { optlen : ℕ // 0 < optlen }) := do
  let opt ← rd cp
  if opt = IPOPT_EOL then pure none
  else if opt = IPOPT_NOP then pure (some ⟨1, Nat.one_pos⟩)
  else do
    let optlen ← rd (cp + IPOPT_OLEN)
    if hlen : optlen.toNat = 0 ∨ cnt < optlen.toNat then bad ICMP_PARAMPROB (cp + IPOPT_OLEN)
    else do
      option h opt cp optlen.toNat
      pure (some ⟨optlen.toNat, Nat.pos_of_ne_zero fun h0 => hlen (.inl h0)⟩)

/-- What was done for the option at `cp`, where `cnt` bytes of the header were left: the memory before, and the
    state after, with the accesses. -/
structure Visit where
  cp : ℕ
  cnt : ℕ
  before : Mem
  after : State

/-- The loop of `ip_dooptions`. -/
def loop (h : Host) (cp cnt : ℕ) (s : State) : List Visit × Except Bad Unit × State :=
  if 0 < cnt then
    match pass h cp cnt { s with log := [] } with
    | (.error e, s') => ([⟨cp, cnt, s.mem, s'⟩], .error e, s')
    | (.ok none, s') => ([⟨cp, cnt, s.mem, s'⟩], .ok (), s')
    | (.ok (some optlen), s') =>
      let r := loop h (cp + optlen) (cnt - optlen) s'
      (⟨cp, cnt, s.mem, s'⟩ :: r.1, r.2)
  else ([], .ok (), s)
termination_by cnt
decreasing_by
  have := optlen.2
  omega

/-- `ip_dooptions` on a header of `ip_hl` words; an error is its return of 1. -/
def ipDooptions (h : Host) (ip_hl : ℕ) (mem : Mem) : List Visit × Except Bad Unit × State :=
  loop h 20 (4 * ip_hl - 20) ⟨mem, fun _ => 0, 0, []⟩

/-! ### What is right -/

/-- The length of an option; one that says no length takes all that is left of the header. -/
def extent (mem : Mem) (cp cnt : ℕ) : ℕ :=
  if mem cp = IPOPT_EOL ∨ mem cp = IPOPT_NOP then 1
  else if (mem (cp + 1)).toNat = 0 ∨ cnt < (mem (cp + 1)).toNat then cnt
  else (mem (cp + 1)).toNat

/-- Where the data area begins: after the pointer, and in a timestamp after the flags. -/
def dataArea (mem : Mem) (cp : ℕ) : ℕ := if mem cp = IPOPT_TS then 4 else 3

/-- An access is in the option of length `len`, and data is written in its data area. The addresses of the header
    are those of the fixed header. -/
def Access.Inside (cp len area : ℕ) : Access → Prop
  | read a n => cp ≤ a ∧ a + n ≤ cp + len
  | write a n => cp + area ≤ a ∧ a + n ≤ cp + len
  | pointer a => a = cp + 2 ∧ 3 ≤ len
  | overflow a => a = cp + 3 ∧ 4 ≤ len
  | header a n => a + n ≤ 20
  | save off n => off + n ≤ sizeofSrcrt

/-- The accesses for an option are in it. -/
def Visit.Inside (v : Visit) : Prop :=
  ∀ x ∈ v.after.log, x.Inside v.cp (extent v.before v.cp v.cnt) (dataArea v.before v.cp)

/-- The number of bytes of data that an access stores. -/
def Access.stored : Access → ℕ
  | write _ n => n
  | _ => 0

/-- An option with a pointer. -/
def HasPointer (opt : UInt8) : Prop := opt = IPOPT_RR ∨ opt = IPOPT_LSRR ∨ opt = IPOPT_SSRR ∨ opt = IPOPT_TS

/-- The pointer is advanced by the number of bytes that were recorded. -/
def Visit.Advanced (v : Visit) : Prop := HasPointer (v.before v.cp) →
  (v.after.mem (v.cp + 2)).toNat = (v.before (v.cp + 2)).toNat + (v.after.log.map Access.stored).sum

/-- All that is claimed of a call: the accesses are in the options, and if it returns 0 the pointers are advanced
    by what was recorded. -/
structure Sound (r : List Visit × Except Bad Unit × State) : Prop where
  inside : ∀ v ∈ r.1, v.Inside
  advanced : r.2.1 = .ok () → ∀ v ∈ r.1, v.Advanced

end Uwisc.Ip.Options
