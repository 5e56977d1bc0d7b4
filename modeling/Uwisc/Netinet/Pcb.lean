import Uwisc.Lib.Best
import Uwisc.Net.Route

/-!
# Internet protocol control blocks

The control blocks of `sys/netinet/in_pcb.c`, in one list (`head`), and how they
get their addresses. Addresses and ports are the numbers they are in host order;
a `sockaddr_in` is a `Sockaddr`. Interfaces and the routing table are those of
`Uwisc.Net`. A socket is here what a call looks at of it.

* `inPcballoc`, `inPcbdetach`: a block enters the list and leaves it;
* `inPcbbind`: gives it a local address and port, one that was asked for or the
  next free one;
* `inPcbsetaddr`: gives it a foreign address and port, and a local address if it
  has none;
* `inPcblookup`: the block that matches addresses and ports best.
-/

namespace Uwisc.Pcb

open Lib Net Function

def IPPORT_RESERVED : BitVec 16 := 1024
def IPPORT_USERRESERVED : BitVec 16 := 5000

/-- What of a socket matters to its control block. -/
structure Socket where
  /-- `SO_REUSEADDR`. -/
  reuseaddr : Bool
  /-- `SO_ACCEPTCONN`. -/
  acceptconn : Bool
  /-- `SO_DONTROUTE`. -/
  dontroute : Bool
  /-- `PR_CONNREQUIRED`, of its protocol. -/
  connrequired : Bool
  /-- `SS_NOFDREF`. -/
  nofdref : Bool
  deriving DecidableEq, Repr

/-- A control block (`struct inpcb`). -/
structure Inpcb where
  inp_faddr : BitVec 32
  inp_fport : BitVec 16
  inp_laddr : BitVec 32
  inp_lport : BitVec 16
  inp_route : Route
  deriving DecidableEq

/-- A block after `m_getclr`. -/
def Inpcb.clear : Inpcb := ⟨0, 0, 0, 0, ⟨.null, wildcard⟩⟩

/-- The control blocks of a protocol, and what they are used with. -/
structure State where
  machine : Machine
  core : Core
  /-- `head->inp_lport`. -/
  port : BitVec 16
  /-- The blocks of the list, in its order. -/
  list : List ℕ
  inp : ℕ → Inpcb
  /-- The count of the blocks made. -/
  next : ℕ

/-- Why a call does not return: a trap, or a loop that never ends. -/
inductive Trap
  | net (trap : Net.Trap)
  | forever
  deriving DecidableEq, Repr

/-- The error of a call. -/
inductive Errno
  | ENOBUFS | EADDRNOTAVAIL | EINVAL | EACCES | EADDRINUSE | EAFNOSUPPORT
  deriving DecidableEq, Repr

/-- An `mbuf` with a name. -/
structure Nam where
  m_len : ℕ
  sin : Sockaddr

/-- `sizeof (struct sockaddr_in)`. -/
def sizeofSin : ℕ := 16

/-- `sin_port`. -/
def sinPort (sin : Sockaddr) : BitVec 16 := (big [sin.sa_data 0, sin.sa_data 1]).setWidth 16

/-- `sin->sin_port = 0`. -/
def noPort (sin : Sockaddr) : Sockaddr := { sin with sa_data := update (update sin.sa_data 0 0) 1 0 }

/-- `sin->sin_addr = from->sin_addr`. -/
def copyAddr (sin orig : Sockaddr) : Sockaddr :=
  { sin with sa_data := fun i => if 2 ≤ i ∧ i < 6 then orig.sa_data i else sin.sa_data i }

def State.set (s : State) (i : ℕ) (inp : Inpcb) : State := { s with inp := update s.inp i inp }

/-! ### Lookup -/

/-- The wildcards that a block needs for a local address; `none` if it does not match. -/
def localWild (laddr : BitVec 32) (inp : Inpcb) : Option ℕ :=
  if inp.inp_laddr ≠ 0 then
    if laddr = 0 then some 1 else if inp.inp_laddr ≠ laddr then none else some 0
  else if laddr ≠ 0 then some 1 else some 0

/-- The wildcards that a block needs for a foreign address and port. -/
def foreignWild (faddr : BitVec 32) (fport : BitVec 16) (inp : Inpcb) : Option ℕ :=
  if inp.inp_faddr ≠ 0 then
    if faddr = 0 then some 1
    else if inp.inp_faddr ≠ faddr ∨ inp.inp_fport ≠ fport then none else some 0
  else if faddr ≠ 0 then some 1 else some 0

/-- How many wildcards a block needs for addresses and ports. -/
def wildcards (faddr : BitVec 32) (fport : BitVec 16) (laddr : BitVec 32) (lport : BitVec 16) (inp : Inpcb) :
    Option ℕ :=
  if inp.inp_lport ≠ lport then none
  else
    match localWild laddr inp, foreignWild faddr fport inp with
    | some l, some f => some (l + f)
    | _, _ => none

/-- The score of a block in the search: without `INPLOOKUP_WILDCARD`, one with wildcards
    is passed over. -/
def score (wild : Bool) (faddr : BitVec 32) (fport : BitVec 16) (laddr : BitVec 32) (lport : BitVec 16)
    (inp : Inpcb) : Option ℕ :=
  (wildcards faddr fport laddr lport inp).filter fun w => w = 0 || wild

def inPcblookup (s : State) (faddr : BitVec 32) (fport : BitVec 16) (laddr : BitVec 32) (lport : BitVec 16)
    (wild : Bool) : Option ℕ :=
  pick (fun i => score wild faddr fport laddr lport (s.inp i)) none 3 s.list

/-! ### Blocks -/

def inPcballoc (s : State) (mbuf : Bool) : State × Option Errno :=
  if mbuf then
    ({ s with list := s.next :: s.list, inp := update s.inp s.next .clear, next := s.next + 1 }, none)
  else (s, some .ENOBUFS)

/-- Traps of the routing calls. -/
def net {α : Type} (x : Except Net.Trap α) : Except Trap α := x.mapError .net

/-- The entry of a route, if it has one. -/
def entryOf : Ref → Option ℕ
  | .entry i => some i
  | _ => none

/-- `if (inp->inp_route.ro_rt) rtfree(inp->inp_route.ro_rt)`. -/
def freeRoute (c : Core) (ref : Ref) : Except Trap Core :=
  match entryOf ref with
  | some i => net (rtfree c i)
  | none => .ok c

def inPcbdetach (s : State) (i : ℕ) : Except Trap State := do
  let core ← freeRoute s.core (s.inp i).inp_route.ro_rt
  .ok { s with core := core, list := s.list.erase i }

def inPcbdisconnect (s : State) (so : Socket) (i : ℕ) : Except Trap State :=
  let s := s.set i { s.inp i with inp_faddr := 0, inp_fport := 0 }
  if so.nofdref then inPcbdetach s i else .ok s

/-! ### Local addresses -/

/-- The next port to try. -/
def nextPort (port : BitVec 16) : BitVec 16 :=
  if port < IPPORT_RESERVED ∨ IPPORT_USERRESERVED < port + 1 then IPPORT_RESERVED else port + 1

/-- The number of ports there are to try. -/
def tries : ℕ := 3977

/-- The loop for a free port, from `head->inp_lport` on; `none` when `n` ports are all in use. -/
def freePort (s : State) (laddr : BitVec 32) : ℕ → BitVec 16 → Option (BitVec 16)
  | 0, _ => none
  | n + 1, port =>
    let port := nextPort port
    if (inPcblookup s 0 0 laddr port false).isSome then freePort s laddr n port else some port

/-- `in_pcbbind` from the label `noname` on. -/
def noname (s : State) (i : ℕ) (lport : BitVec 16) : Except Trap (State × Option Errno) :=
  if lport = 0 then
    match freePort s (s.inp i).inp_laddr tries s.port with
    | some port => .ok ({ s with port := port }.set i { s.inp i with inp_lport := port }, none)
    | none => .error .forever
  else .ok (s.set i { s.inp i with inp_lport := lport }, none)

/-- `in_pcbbind` for the socket `so` and the user `uid`. -/
def inPcbbind (s : State) (so : Socket) (uid : ℕ) (i : ℕ) (nam : Option Nam) : Except Trap (State × Option Errno) :=
  let inp := s.inp i
  if s.machine.in_ifaddr.isEmpty then .ok (s, some .EADDRNOTAVAIL)
  else if inp.inp_lport ≠ 0 ∨ inp.inp_laddr ≠ 0 then .ok (s, some .EINVAL)
  else
    match nam with
    | none => noname s i 0
    | some nam =>
      if nam.m_len ≠ sizeofSin then .ok (s, some .EINVAL)
      else if sinAddr nam.sin ≠ 0 ∧ (ifaIfwithaddr s.machine (noPort nam.sin)).isNone then
        .ok (s, some .EADDRNOTAVAIL)
      else
        let lport := sinPort nam.sin
        let wild := !so.reuseaddr && (!so.connrequired || !so.acceptconn)
        if lport ≠ 0 ∧ lport < IPPORT_RESERVED ∧ uid ≠ 0 then .ok (s, some .EACCES)
        else if lport ≠ 0 ∧ (inPcblookup s 0 0 (sinAddr nam.sin) lport wild).isSome then
          .ok (s, some .EADDRINUSE)
        else noname (s.set i { inp with inp_laddr := sinAddr nam.sin }) i lport

/-! ### Foreign addresses -/

/-- The destination that an address stands for: `INADDR_ANY` for ourselves, and
    `INADDR_BROADCAST` for the broadcast address of the primary interface. -/
def destination (m : Machine) (sin : Sockaddr) : Sockaddr :=
  match m.in_ifaddr with
  | [] => sin
  | ia :: _ =>
    if sinAddr sin = 0 then copyAddr sin ia.ia_ifa.ifa_addr
    else if sinAddr sin = 0xffffffff ∧ (m.ifnet[ia.ia_ifp]?).any (·.broadcast) then
      copyAddr sin ia.ia_ifa.ifa_ifu
    else sin

/-- `ro->ro_rt`, if its interface is known. -/
def routeIf (c : Core) (ref : Ref) : Except Trap (Option ℕ) :=
  match entryOf ref with
  | some i => do .ok (some (← net (c.get i)).rt_ifp)
  | none => .ok none

/-- Frees a route to another destination. -/
def dropOther (c : Core) (ro : Route) (sin : Sockaddr) : Except Trap (Core × Route) :=
  match entryOf ro.ro_rt with
  | some i =>
    if sinAddr ro.ro_dst ≠ sinAddr sin then do .ok (← net (RTFREE c i), { ro with ro_rt := .null }) else .ok (c, ro)
  | none => .ok (c, ro)

/-- A route to the destination, if there is one. -/
def acquire (m : Machine) (c : Core) (so : Socket) (ro : Route) (sin : Sockaddr) : Except Trap (Core × Route) := do
  let (c, ro) ← dropOther c ro sin
  if !so.dontroute ∧ (← routeIf c ro.ro_rt).isNone then
    net (rtalloc m c { ro with ro_dst := copyAddr { ro.ro_dst with sa_family := AF_INET } sin })
  else .ok (c, ro)

/-- The address of the interface of the route, unless this is the loopback. -/
def routed (m : Machine) (c : Core) (ref : Ref) : Except Trap (Option InIfaddr) := do
  match ← routeIf c ref with
  | some ifp => .ok (if (m.ifnet[ifp]?).any (·.loopback) then none else m.in_ifaddr.find? (·.ia_ifp = ifp))
  | none => .ok none

/-- The address to send from: that of the interface of the route, one at the other end of which is the
    destination, one on its network, or the primary one. -/
def sourceAddr (m : Machine) (c : Core) (ref : Ref) (sin : Sockaddr) : Except Trap (Option Sockaddr) := do
  match ← routed m c ref with
  | some ia => .ok (some ia.ia_ifa.ifa_addr)
  | none =>
    match ifaIfwithdstaddr m sin with
    | some (_, ifa) => .ok (some ifa.ifa_addr)
    | none =>
      match m.in_ifaddr.find? (·.ia_subnet = inNetof m (sinAddr sin)) with
      | some ia => .ok (some ia.ia_ifa.ifa_addr)
      | none => .ok (m.in_ifaddr.head?.map (·.ia_ifa.ifa_addr))

/-- Chooses a port for a block that is to get a local address and has no port. -/
def ensurePort (s : State) (so : Socket) (uid : ℕ) (i : ℕ) : Except Trap State :=
  if (s.inp i).inp_laddr = 0 ∧ (s.inp i).inp_lport = 0 then do .ok (← inPcbbind s so uid i none).1 else .ok s

/-- The end of `in_pcbsetaddr`: the block gets its addresses, and a port, if no other one has them. -/
def connectFrom (s : State) (so : Socket) (uid : ℕ) (i : ℕ) (sin : Sockaddr) (laddr : BitVec 32) :
    Except Trap (State × Option Errno) :=
  if (inPcblookup s (sinAddr sin) (sinPort sin) laddr (s.inp i).inp_lport false).isSome then
    .ok (s, some .EADDRINUSE)
  else do
    let s ← ensurePort s so uid i
    .ok (s.set i { s.inp i with
      inp_laddr := laddr, inp_faddr := sinAddr sin, inp_fport := sinPort sin }, none)

def inPcbsetaddr (s : State) (so : Socket) (uid : ℕ) (i : ℕ) (sin : Sockaddr) :
    Except Trap (State × Option Errno) :=
  if sin.sa_family ≠ AF_INET then .ok (s, some .EAFNOSUPPORT)
  else if sinPort sin = 0 then .ok (s, some .EADDRNOTAVAIL)
  else
    let sin := destination s.machine sin
    if (s.inp i).inp_laddr = 0 then do
      let (core, ro) ← acquire s.machine s.core so (s.inp i).inp_route sin
      let s := { s with core := core }.set i { s.inp i with inp_route := ro }
      match ← sourceAddr s.machine core ro.ro_rt sin with
      | none => .ok (s, some .EADDRNOTAVAIL)
      | some ifaddr => connectFrom s so uid i sin (sinAddr ifaddr)
    else connectFrom s so uid i sin (s.inp i).inp_laddr

def inPcbconnect (s : State) (so : Socket) (uid : ℕ) (i : ℕ) (nam : Nam) : Except Trap (State × Option Errno) :=
  if nam.m_len ≠ sizeofSin then .ok (s, some .EINVAL) else inPcbsetaddr s so uid i nam.sin

end Uwisc.Pcb
