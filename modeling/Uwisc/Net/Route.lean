import Mathlib.Data.Fintype.Pi
import Uwisc.Lib.Wrap

/-!
# The routing table

The routing table of `sys/net/route.c`, with the address families of `net/af.c`,
`netinet/in.c` and `netns/ns.c` and the interfaces of `net/if.c`. An entry is in
an `mbuf`; here it is known by its number, the count of the entries made before
it, so an entry that is freed is never confused with a later one. The chains of
the two hash tables are lists of such numbers.

An access to an entry that has been freed, and the call of a function pointer
that is null, are traps, as is a panic. The counts of packets and the
statistics (`rt_use`, `rtstat`) are left out.

* `rtalloc`: finds an entry for the destination of a holder, which then points
  at it, whatever it pointed at before;
* `rtfree`: gives back a reference;
* `rtrequest`: adds an entry or deletes one;
* `rtredirect`: makes a destination go through another gateway;
* `inLosing`: forgets the entry of a holder, and deletes it if it was made by a
  redirect.
-/

namespace Uwisc.Net

open Function Lib

/-! ### Addresses -/

/-- `struct sockaddr`. -/
structure Sockaddr where
  sa_family : ℕ
  sa_data : Fin 14 → UInt8
  deriving DecidableEq

/-- `sa_data` has bytes, which numerals name. -/
instance neZero_sa_data : NeZero 14 := ⟨by decide⟩

def AF_INET : ℕ := 2
def AF_IMPLINK : ℕ := 3
def AF_NS : ℕ := 6
def AF_MAX : ℕ := 18

/-- `wildcard`. -/
def wildcard : Sockaddr := ⟨0, fun _ => 0⟩

/-- The number whose bytes are `bs`, the highest one first. -/
def big (bs : List UInt8) : BitVec 32 := bs.foldl (fun n b => n <<< 8 ||| b.toBitVec.setWidth 32) 0

/-- `ntohl(sin->sin_addr.s_addr)`. -/
def sinAddr (sin : Sockaddr) : BitVec 32 := big [sin.sa_data 2, sin.sa_data 3, sin.sa_data 4, sin.sa_data 5]

/-- What hash functions give for an address (`struct afhash`). -/
structure Afhash where
  afh_hosthash : BitVec 32
  afh_nethash : BitVec 32
  deriving DecidableEq

/-- The functions of an address family (`struct afswitch`): a null pointer is `none`. -/
structure Afswitch where
  af_hash : Option (Sockaddr → Afhash)
  af_netmatch : Option (Sockaddr → Sockaddr → Bool)

/-! ### Interfaces -/

/-- An address of an interface (`struct ifaddr`). -/
structure Ifaddr where
  ifa_addr : Sockaddr
  /-- `ifa_broadaddr` and `ifa_dstaddr`. -/
  ifa_ifu : Sockaddr

/-- An interface (`struct ifnet`), with the flags that calls cannot change. -/
structure Ifnet where
  /-- `IFF_BROADCAST`. -/
  broadcast : Bool
  /-- `IFF_LOOPBACK`. -/
  loopback : Bool
  /-- `IFF_POINTOPOINT`. -/
  pointopoint : Bool
  if_addrlist : List Ifaddr

/-- An internet address (`struct in_ifaddr`) of the interface `ia_ifp`. -/
structure InIfaddr where
  ia_ifa : Ifaddr
  ia_ifp : ℕ
  ia_net : BitVec 32
  ia_subnet : BitVec 32
  ia_subnetmask : BitVec 32

/-- The options the kernel was made with, and its interfaces. An internet address of an
    interface is one of the list `in_ifaddr`. -/
structure Machine where
  INET : Bool
  NS : Bool
  GATEWAY : Bool
  ifnet : List Ifnet
  in_ifaddr : List InIfaddr
  inet : ∀ ifp ∈ ifnet, ∀ ifa ∈ ifp.if_addrlist, ifa.ifa_addr.sa_family = AF_INET →
    ∃ ia ∈ in_ifaddr, ia.ia_ifa = ifa

/-! ### Address families -/

def IN_CLASSA (i : BitVec 32) : Prop := i &&& 0x80000000 = 0
def IN_CLASSB (i : BitVec 32) : Prop := i &&& 0xc0000000 = 0x80000000

instance (i : BitVec 32) : Decidable (IN_CLASSA i) := inferInstanceAs (Decidable (_ = _))
instance (i : BitVec 32) : Decidable (IN_CLASSB i) := inferInstanceAs (Decidable (_ = _))

/-- The network number of an internet address, or that of its subnet. -/
def inNetof (m : Machine) (i : BitVec 32) : BitVec 32 :=
  let net :=
    if IN_CLASSA i then i &&& 0xff000000
    else if IN_CLASSB i then i &&& 0xffff0000
    else i &&& 0xffffff00
  match m.in_ifaddr.find? fun ia => ia.ia_net = net with
  | some ia => i &&& ia.ia_subnetmask
  | none => net

/-- `while ((n & 0xff) == 0) n >>= 8`, for a number of four bytes that is not `0`. -/
def shiftDown (n : BitVec 32) : ℕ → BitVec 32
  | 0 => n
  | k + 1 => if n &&& 0xff = 0 then shiftDown (n >>> 8) k else n

def inetHash (m : Machine) (sin : Sockaddr) : Afhash where
  afh_nethash :=
    let n := inNetof m (sinAddr sin)
    if n = 0 then n else shiftDown n 3
  afh_hosthash := sinAddr sin

def inetNetmatch (m : Machine) (sin1 sin2 : Sockaddr) : Bool :=
  inNetof m (sinAddr sin1) = inNetof m (sinAddr sin2)

/-- The short at the bytes `i` and `i + 1` of an address. -/
def short (s : Sockaddr) (i : Fin 14) : BitVec 32 := big [s.sa_data (i + 1), s.sa_data i]

def nsHash (sns : Sockaddr) : Afhash where
  afh_nethash := big [sns.sa_data 3, sns.sa_data 2, sns.sa_data 1, sns.sa_data 0]
  afh_hosthash := ((short sns 4 <<< 8) + short sns 6) <<< 8 + short sns 8

def nsNetmatch (sns1 sns2 : Sockaddr) : Bool :=
  short sns1 0 = short sns2 0 ∧ short sns1 2 = short sns2 2

def nullHash (_ : Sockaddr) : Afhash := ⟨0, 0⟩

def nullNetmatch (_ _ : Sockaddr) : Bool := false

/-- The table `afswitch` after `null_init`. Its initialiser stops short of the last
    family, and `null_init` sets only the first of the two functions, twice. -/
def afswitch (m : Machine) (af : ℕ) : Afswitch :=
  let AFNULL : Afswitch := ⟨some nullHash, some nullNetmatch⟩
  if af = AF_INET ∨ af = AF_IMPLINK then
    if m.INET then ⟨some (inetHash m), some (inetNetmatch m)⟩ else AFNULL
  else if af = AF_NS then if m.NS then ⟨some nsHash, some nsNetmatch⟩ else AFNULL
  else if af < 17 then AFNULL
  else ⟨some nullHash, none⟩

/-! ### The state -/

/-- Why a call does not return. -/
inductive Trap
  | panic (message : String)
  /-- A function pointer is null. -/
  | null
  /-- An entry has been freed. -/
  | stale
  deriving DecidableEq, Repr

/-- The flags of an entry. -/
structure Flags where
  /-- `RTF_UP`. -/
  up : Bool := false
  /-- `RTF_GATEWAY`. -/
  gateway : Bool := false
  /-- `RTF_HOST`. -/
  host : Bool := false
  /-- `RTF_DYNAMIC`. -/
  dynamic : Bool := false
  deriving DecidableEq, Repr

/-- An entry (`struct rtentry`). -/
structure Rtentry where
  rt_hash : BitVec 32
  rt_dst : Sockaddr
  rt_gateway : Sockaddr
  rt_flags : Flags
  /-- A `short`. -/
  rt_refcnt : ℤ
  /-- The position of the interface in `ifnet`; it is never null. -/
  rt_ifp : ℕ
  deriving DecidableEq

/-- What the pointer of a holder is. -/
inductive Ref
  | null
  /-- `&nowildcard`, which is no entry of the table. -/
  | nowildcard
  | entry (i : ℕ)
  deriving DecidableEq, Repr

/-- A holder (`struct route`). -/
structure Route where
  ro_rt : Ref
  ro_dst : Sockaddr
  deriving DecidableEq

/-- The routing table. -/
structure Core where
  /-- The entries not freed. -/
  entry : ℕ → Option Rtentry
  /-- The count of the entries made. -/
  next : ℕ
  /-- The chains of `rthost` (`true`) and `rtnet` (`false`). -/
  table : Bool → ℕ → List ℕ
  rttrash : ℤ
  /-- The entries freed. -/
  freed : List ℕ
  /-- The flags `IFF_UP` of the interfaces. -/
  ifup : ℕ → Bool

/-- The entry at a pointer. -/
def Core.get (c : Core) (i : ℕ) : Except Trap Rtentry :=
  match c.entry i with
  | some rt => .ok rt
  | none => .error .stale

def Core.set (c : Core) (i : ℕ) (rt : Rtentry) : Core :=
  { c with entry := update c.entry i (some rt) }

/-- `m_free` of an entry. -/
def mFree (c : Core) (i : ℕ) : Except Trap Core := do
  let _ ← c.get i
  .ok { c with entry := update c.entry i none, freed := i :: c.freed }

def RTHASHSIZ (m : Machine) : ℕ := if m.GATEWAY then 64 else 8

def RTHASHMOD (m : Machine) (h : BitVec 32) : ℕ := (h &&& BitVec.ofNat 32 (RTHASHSIZ m - 1)).toNat

/-- Calls a function through its pointer. -/
def call {α : Type} : Option α → Except Trap α
  | some f => .ok f
  | none => .error .null

/-- Goes through a chain for the first entry with the hash that passes the test. -/
def scan (c : Core) (hash : BitVec 32) (test : Rtentry → Except Trap Bool) : List ℕ → Except Trap (Option ℕ)
  | [] => .ok none
  | i :: rest => do
    let rt ← c.get i
    if rt.rt_hash ≠ hash then scan c hash test rest
    else if ← test rt then .ok (some i)
    else scan c hash test rest

/-! ### Interfaces of addresses -/

/-- The first address of the interfaces that the test accepts, with its interface. -/
def findIfa (test : Ifnet → Ifaddr → Bool) : List Ifnet → ℕ → Option (ℕ × Ifaddr)
  | [], _ => none
  | ifp :: rest, n =>
    match ifp.if_addrlist.find? (test ifp) with
    | some ifa => some (n, ifa)
    | none => findIfa test rest (n + 1)

def ifaIfwithaddr (m : Machine) (addr : Sockaddr) : Option (ℕ × Ifaddr) :=
  findIfa (fun ifp ifa => ifa.ifa_addr.sa_family = addr.sa_family ∧
    (ifa.ifa_addr.sa_data = addr.sa_data ∨ ifp.broadcast ∧ ifa.ifa_ifu.sa_data = addr.sa_data)) m.ifnet 0

def ifaIfwithdstaddr (m : Machine) (addr : Sockaddr) : Option (ℕ × Ifaddr) :=
  findIfa (fun ifp ifa => ifp.pointopoint ∧ ifa.ifa_addr.sa_family = addr.sa_family ∧
    ifa.ifa_ifu.sa_data = addr.sa_data) m.ifnet 0

/-- The first interface of the list with an address the test accepts. -/
def firstIf (test : Ifaddr → Except Trap Bool) : List Ifnet → ℕ → Except Trap (Option ℕ)
  | [], _ => .ok none
  | ifp :: rest, n => do
    if ← ifp.if_addrlist.anyM test then .ok (some n) else firstIf test rest (n + 1)

def ifaIfwithnet (m : Machine) (addr : Sockaddr) : Except Trap (Option ℕ) :=
  if AF_MAX ≤ addr.sa_family then .ok none
  else firstIf (fun ifa => if ifa.ifa_addr.sa_family ≠ addr.sa_family then .ok false
    else do .ok ((← call (afswitch m addr.sa_family).af_netmatch) ifa.ifa_addr addr)) m.ifnet 0

/-! ### Finding an entry -/

/-- The entry is up, and so is its interface. -/
def usable (c : Core) (rt : Rtentry) : Bool := rt.rt_flags.up && c.ifup rt.rt_ifp

/-- One pass of `rtalloc` over a chain of `rtnet`. -/
def netPass (m : Machine) (c : Core) (af : ℕ) (hash : BitVec 32) (dst : Sockaddr) :
    Except Trap (Option ℕ) :=
  scan c hash (fun rt => if !usable c rt then .ok false
    else if rt.rt_dst.sa_family ≠ af then .ok false
    else do .ok ((← call (afswitch m af).af_netmatch) rt.rt_dst dst))
    (c.table false (RTHASHMOD m hash))

/-- The search of `rtalloc`: a host entry, an entry for the network, or an entry for
    the wildcard of the family. -/
def lookup (m : Machine) (c : Core) (dst : Sockaddr) : Except Trap (Option ℕ) := do
  let af := dst.sa_family
  let h := (← call (afswitch m af).af_hash) dst
  match ← scan c h.afh_hosthash (fun rt => .ok (usable c rt && rt.rt_dst = dst))
      (c.table true (RTHASHMOD m h.afh_hosthash)) with
  | some i => .ok (some i)
  | none =>
    match ← netPass m c af h.afh_nethash dst with
    | some i => .ok (some i)
    | none => netPass m c af 0 wildcard

/-- `ro->ro_rt && ro->ro_rt->rt_ifp && (ro->ro_rt->rt_flags & RTF_UP)`. -/
def holdsUp (c : Core) (ref : Ref) : Except Trap Bool :=
  match ref with
  | .entry i => do .ok (← c.get i).rt_flags.up
  | _ => .ok false

/-- Takes a reference. -/
def hold (c : Core) (i : ℕ) : Except Trap Core := do
  let rt ← c.get i
  .ok (c.set i { rt with rt_refcnt := wrap 16 (rt.rt_refcnt + 1) })

def rtalloc (m : Machine) (c : Core) (ro : Route) : Except Trap (Core × Route) := do
  let ro := if ro.ro_rt = .nowildcard then { ro with ro_rt := .null } else ro
  if ← holdsUp c ro.ro_rt then .ok (c, ro)
  else if AF_MAX ≤ ro.ro_dst.sa_family then .ok (c, ro)
  else
    match ← lookup m c ro.ro_dst with
    | some i => do .ok (← hold c i, { ro with ro_rt := .entry i })
    | none => .ok (c, ro)

/-- Gives back a reference to the entry `i`. -/
def rtfree (c : Core) (i : ℕ) : Except Trap Core := do
  let rt ← c.get i
  let rt := { rt with rt_refcnt := wrap 16 (rt.rt_refcnt - 1) }
  if rt.rt_refcnt = 0 ∧ !rt.rt_flags.up then mFree { c.set i rt with rttrash := c.rttrash - 1 } i
  else .ok (c.set i rt)

/-- The macro `RTFREE`. -/
def RTFREE (c : Core) (i : ℕ) : Except Trap Core := do
  let rt ← c.get i
  if rt.rt_refcnt = 1 then rtfree c i
  else .ok (c.set i { rt with rt_refcnt := wrap 16 (rt.rt_refcnt - 1) })

/-! ### Changing the table -/

/-- The error of a request. -/
inductive Errno
  | EAFNOSUPPORT | ESRCH | EEXIST | ENETUNREACH | ENOBUFS
  deriving DecidableEq, Repr

/-- `SIOCADDRT`, which finds an `mbuf` or does not, and `SIOCDELRT`. -/
inductive Req
  | SIOCADDRT (mbuf : Bool)
  | SIOCDELRT
  deriving DecidableEq, Repr

/-- The part of a `struct rtentry` that a request reads. -/
structure Entry where
  rt_dst : Sockaddr
  rt_gateway : Sockaddr
  rt_flags : Flags
  deriving DecidableEq

/-- The hash of a destination in its table. -/
def Afhash.of (h : Afhash) (host : Bool) : BitVec 32 := if host then h.afh_hosthash else h.afh_nethash

/-- The entry is the one to delete, or is in the way of the new one. -/
def matching (m : Machine) (entry : Entry) (rt : Rtentry) : Except Trap Bool :=
  if entry.rt_flags.host then .ok (rt.rt_dst = entry.rt_dst ∧ rt.rt_gateway = entry.rt_gateway)
  else if rt.rt_dst.sa_family ≠ entry.rt_dst.sa_family then .ok false
  else do
    let matched := (← call (afswitch m entry.rt_dst.sa_family).af_netmatch) rt.rt_dst entry.rt_dst
    .ok (matched && rt.rt_gateway = entry.rt_gateway)

/-- The search of `rtrequest`. -/
def present (m : Machine) (c : Core) (entry : Entry) (hash : BitVec 32) : Except Trap (Option ℕ) :=
  scan c hash (matching m entry) (c.table entry.rt_flags.host (RTHASHMOD m hash))

/-- The interface of a new entry. -/
def interface (m : Machine) (entry : Entry) : Except Trap (Option ℕ) :=
  let ifa :=
    if !entry.rt_flags.gateway then
      (if entry.rt_flags.host then ifaIfwithdstaddr m entry.rt_dst else none).or
        (ifaIfwithaddr m entry.rt_gateway)
    else ifaIfwithdstaddr m entry.rt_gateway
  match ifa with
  | some (ifp, _) => .ok (some ifp)
  | none => ifaIfwithnet m entry.rt_gateway

/-- Replaces a chain. -/
def Core.setChain (c : Core) (host : Bool) (b : ℕ) (l : List ℕ) : Core :=
  { c with table := update c.table host (update (c.table host) b l) }

/-- Takes the entry `i` out of its chain; it is freed, or is trash until it is. -/
def delete (c : Core) (host : Bool) (b i : ℕ) : Except Trap Core := do
  let rt ← c.get i
  let c := c.setChain host b ((c.table host b).erase i)
  if 0 < rt.rt_refcnt then
    .ok { c.set i { rt with rt_flags := { rt.rt_flags with up := false } } with rttrash := c.rttrash + 1 }
  else mFree c i

/-- Puts a new entry in front of its chain. -/
def insert (m : Machine) (c : Core) (entry : Entry) (hash : BitVec 32) (ifp : ℕ) : Core :=
  let b := RTHASHMOD m hash
  let c := c.setChain entry.rt_flags.host b (c.next :: c.table entry.rt_flags.host b)
  { c.set c.next {
      rt_hash := hash, rt_dst := entry.rt_dst, rt_gateway := entry.rt_gateway
      rt_flags := { entry.rt_flags with up := true }
      rt_refcnt := 0, rt_ifp := ifp } with next := c.next + 1 }

/-- Carries out a request to change the table; what it returns is `none` for `0`. -/
def rtrequest (m : Machine) (c : Core) (req : Req) (entry : Entry) : Except Trap (Core × Option Errno) :=
  if AF_MAX ≤ entry.rt_dst.sa_family then .ok (c, some .EAFNOSUPPORT)
  else do
    let hash := ((← call (afswitch m entry.rt_dst.sa_family).af_hash) entry.rt_dst).of entry.rt_flags.host
    match req, ← present m c entry hash with
    | .SIOCDELRT, none => .ok (c, some .ESRCH)
    | .SIOCDELRT, some i => do .ok (← delete c entry.rt_flags.host (RTHASHMOD m hash) i, none)
    | .SIOCADDRT _, some _ => .ok (c, some .EEXIST)
    | .SIOCADDRT mbuf, none =>
      match ← interface m entry with
      | none => .ok (c, some .ENETUNREACH)
      | some ifp => if mbuf then .ok (insert m c entry hash ifp, none) else .ok (c, some .ENOBUFS)

def rtinit (m : Machine) (c : Core) (dst gateway : Sockaddr) (req : Req) (flags : Flags) :
    Except Trap Core := do
  .ok (← rtrequest m c req ⟨dst, gateway, flags⟩).1

/-! ### Redirects -/

/-- The redirect is not for `rt` if it is old or wrong, or to ourselves. -/
def badredirect (m : Machine) (rt : Option Rtentry) (gateway src : Sockaddr) : Bool :=
  rt.any (fun rt => src ≠ rt.rt_gateway) || (ifaIfwithaddr m gateway).isSome

/-- The entry is one for the wildcard. -/
def isWildcard (m : Machine) (dst : Sockaddr) (rt : Rtentry) : Except Trap Bool := do
  .ok ((← call (afswitch m dst.sa_family).af_netmatch) wildcard rt.rt_dst)

/-- What a redirect makes of an entry through a gateway: a route to the host beside it,
    or the new gateway in its place. -/
def smash (m : Machine) (c : Core) (dst gateway : Sockaddr) (flags : Flags) (mbuf : Bool) (i : ℕ) :
    Except Trap Core := do
  let rt ← c.get i
  if !rt.rt_flags.gateway then .ok c
  else if !rt.rt_flags.host && flags.host then
    rtinit m c dst gateway (.SIOCADDRT mbuf) { flags with dynamic := true }
  else .ok (c.set i { rt with rt_gateway := gateway })

/-- `rtredirect` when there is an entry `i` to change. -/
def redirectEntry (m : Machine) (c : Core) (dst gateway : Sockaddr) (flags : Flags) (mbuf : Bool) (i : ℕ) :
    Except Trap Core := do
  rtfree (← smash m c dst gateway flags mbuf i) i

/-- `rtredirect` when there is none. -/
def redirectNew (m : Machine) (c : Core) (dst gateway : Sockaddr) (flags : Flags) (mbuf : Bool) :
    Except Trap Core :=
  rtinit m c dst gateway (.SIOCADDRT mbuf) { host := flags.host, gateway := true, dynamic := true }

/-- `rtredirect` when `rtalloc` has found the entry `i`. -/
def redirectFound (m : Machine) (c : Core) (dst gateway src : Sockaddr) (flags : Flags) (mbuf : Bool) (i : ℕ) :
    Except Trap Core := do
  let rt ← c.get i
  if badredirect m (some rt) gateway src then rtfree c i
  else if ← isWildcard m dst rt then redirectNew m (← rtfree c i) dst gateway flags mbuf
  else redirectEntry m c dst gateway flags mbuf i

def rtredirect (m : Machine) (c : Core) (dst gateway src : Sockaddr) (flags : Flags) (mbuf : Bool) :
    Except Trap Core := do
  if (← ifaIfwithnet m gateway).isNone then .ok c
  else
    let (c, ro) ← rtalloc m c ⟨.null, dst⟩
    match ro.ro_rt with
    | .entry i => redirectFound m c dst gateway src flags mbuf i
    | _ => if badredirect m none gateway src then .ok c else redirectNew m c dst gateway flags mbuf

/-- Deletes an entry that was made by a redirect. -/
def deleteDynamic (m : Machine) (c : Core) (i : ℕ) : Except Trap Core := do
  let rt ← c.get i
  if rt.rt_flags.dynamic then do
    .ok (← rtrequest m c .SIOCDELRT ⟨rt.rt_dst, rt.rt_gateway, rt.rt_flags⟩).1
  else .ok c

/-- Forgets the route of a control block the higher level complains about. -/
def inLosing (m : Machine) (c : Core) (ro : Route) : Except Trap (Core × Route) :=
  match ro.ro_rt with
  | .entry i => do .ok (← rtfree (← deleteDynamic m c i) i, { ro with ro_rt := .null })
  | _ => .ok (c, { ro with ro_rt := .null })

end Uwisc.Net
