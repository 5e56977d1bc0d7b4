import Uwisc.Lib.Bytes

/-!
# Messages of remote procedure calls

`xdr_callmsg` and `xdr_replymsg` of `sys/rpc/rpc_prot.c`, with the routines of `sys/rpc/xdr.c`
they call, on a stream over memory (`sys/rpc/xdr_mem.c`). Each has two ways to go: through a
buffer that `XDR_INLINE` gets from the stream, or through the routines for the parts of a
message.

Whether `XDR_INLINE` may succeed is up to the stream; it is asked several times, and `ok n` is
the answer to the question number `n`. The operation (`x_op`) is in the name of a definition.
What the members of a union hold is kept apart, and bytes that are counted are a list.
-/

namespace Uwisc.Rpc

open Lib

def MAX_AUTH_BYTES : ℕ := 400
def RPC_MSG_VERSION : BitVec 32 := 2
def CALL : BitVec 32 := 0
def REPLY : BitVec 32 := 1
def MSG_ACCEPTED : BitVec 32 := 0
def MSG_DENIED : BitVec 32 := 1
def SUCCESS : BitVec 32 := 0
def PROG_MISMATCH : BitVec 32 := 2
def RPC_MISMATCH : BitVec 32 := 0
def AUTH_ERROR : BitVec 32 := 1

/-- A stream on memory: where it is, and how many bytes are left. -/
structure Xdr where
  mem : Mem
  x_private : ℕ
  x_handy : ℤ

/-- A routine that reads or writes a stream; `none` is `FALSE`. -/
structure Codec (α : Type) where
  run : Xdr → Option α × Xdr

variable {α β : Type}

def Codec.pure (a : α) : Codec α where
  run xdrs := (some a, xdrs)

def Codec.bind (p : Codec α) (f : α → Codec β) : Codec β where
  run xdrs :=
    match p.run xdrs with
    | (some a, xdrs) => (f a).run xdrs
    | (none, xdrs) => (none, xdrs)

instance : Monad Codec where
  pure := Codec.pure
  bind := Codec.bind

/-- Goes on if the condition holds. -/
def check (c : Prop) [Decidable c] : Codec Unit where
  run xdrs := (if c then some () else none, xdrs)

/-- A number is stored with its first byte foremost. -/
def htonl (v : BitVec 32) : List UInt8 := (encode 4 v.toNat).reverse

/-- The number at an address. -/
def ntohl (m : Mem) (a : ℕ) : BitVec 32 := .ofNat 32 (decode (bytes m a 4).reverse)

/-- The bytes that fill a unit up after `cnt` others (`rndup` in `xdr_opaque`). -/
def rndup (cnt : ℕ) : ℕ := if cnt % 4 = 0 then 0 else 4 - cnt % 4

def RNDUP (x : ℕ) : ℕ := (x + 3) / 4 * 4

/-! ### Streams -/

/-- The stream, `len` bytes on. -/
def Xdr.skip (xdrs : Xdr) (len : ℕ) : Xdr :=
  { xdrs with x_private := xdrs.x_private + len, x_handy := xdrs.x_handy - len }

/-- The stream when there are not as many bytes. -/
def Xdr.short (xdrs : Xdr) (len : ℕ) : Xdr := { xdrs with x_handy := xdrs.x_handy - len }

def getlong : Codec (BitVec 32) where
  run xdrs :=
    if xdrs.x_handy - 4 < 0 then (none, xdrs.short 4)
    else (some (ntohl xdrs.mem xdrs.x_private), xdrs.skip 4)

def getbytes (len : ℕ) : Codec (List UInt8) where
  run xdrs :=
    if xdrs.x_handy - len < 0 then (none, xdrs.short len)
    else (some (bytes xdrs.mem xdrs.x_private len), xdrs.skip len)

def putbytes (addr : List UInt8) : Codec Unit where
  run xdrs :=
    if xdrs.x_handy - addr.length < 0 then (none, xdrs.short addr.length)
    else (some (), { xdrs with mem := store xdrs.mem xdrs.x_private addr }.skip addr.length)

def putlong (l : BitVec 32) : Codec Unit := putbytes (htonl l)

/-- A buffer of `len` bytes in the stream (`XDR_INLINE`), or none. -/
def inline (ok : Bool) (len : ℕ) : Codec (Option ℕ) where
  run xdrs :=
    if ok ∧ (len : ℤ) ≤ xdrs.x_handy then (some (some xdrs.x_private), xdrs.skip len)
    else (some none, xdrs)

/-- The number at `buf` (`IXDR_GET_LONG`). -/
def ixdrGet (buf : ℕ) : Codec (BitVec 32) where
  run xdrs := (some (ntohl xdrs.mem buf), xdrs)

/-- Copies bytes to `buf` (`bcopy`). -/
def bcopyTo (buf : ℕ) (l : List UInt8) : Codec Unit where
  run xdrs := (some (), { xdrs with mem := store xdrs.mem buf l })

/-- Copies bytes from `buf` (`bcopy`). -/
def bcopyFrom (buf len : ℕ) : Codec (List UInt8) where
  run xdrs := (some (bytes xdrs.mem buf len), xdrs)

/-- Stores a number at `buf` (`IXDR_PUT_LONG`), and goes on to the next. -/
def ixdrPut (buf : ℕ) (v : BitVec 32) : Codec ℕ := do
  bcopyTo buf (htonl v)
  return buf + 4

/-! ### Messages -/

structure OpaqueAuth where
  oa_flavor : BitVec 32
  oa_base : List UInt8
  deriving DecidableEq

/-- The length of the bytes (`oa_length`). -/
def OpaqueAuth.oa_length (oa : OpaqueAuth) : ℕ := oa.oa_base.length

/-- An accepted reply; `ρ` are the results. -/
structure AcceptedReply (ρ : Type) where
  ar_verf : OpaqueAuth
  ar_stat : BitVec 32
  ar_vers_low : BitVec 32
  ar_vers_high : BitVec 32
  ar_results : ρ

structure RejectedReply where
  rj_stat : BitVec 32
  rj_vers_low : BitVec 32
  rj_vers_high : BitVec 32
  rj_why : BitVec 32

structure CallBody where
  cb_rpcvers : BitVec 32
  cb_prog : BitVec 32
  cb_vers : BitVec 32
  cb_proc : BitVec 32
  cb_cred : OpaqueAuth
  cb_verf : OpaqueAuth

/-- A message; which parts of it mean anything depends on `rm_direction` and `rp_stat`. -/
structure RpcMsg (ρ : Type) where
  rm_xid : BitVec 32
  rm_direction : BitVec 32
  rm_call : CallBody
  rp_stat : BitVec 32
  rp_acpt : AcceptedReply ρ
  rp_rjct : RejectedReply

variable {ρ : Type}

/-! ### Encoding -/

namespace Encode

def xdrULong (l : BitVec 32) : Codec Unit := putlong l

def xdrEnum (e : BitVec 32) : Codec Unit := putlong e

def xdrUInt (u : BitVec 32) : Codec Unit := putlong u

def xdrOpaque (cp : List UInt8) : Codec Unit :=
  if cp.length = 0 then return ()
  else do
    putbytes cp
    if rndup cp.length = 0 then return () else putbytes (List.replicate (rndup cp.length) 0)

def xdrBytes (cp : List UInt8) (maxsize : ℕ) : Codec Unit := do
  xdrUInt (.ofNat 32 cp.length)
  check (cp.length ≤ maxsize)
  xdrOpaque cp

def xdrOpaqueAuth (ap : OpaqueAuth) : Codec Unit := do
  xdrEnum ap.oa_flavor
  xdrBytes ap.oa_base MAX_AUTH_BYTES

/-- What comes after `ar_stat`; `proc` is the routine for the results. -/
def arResults (proc : ρ → Codec ρ) (ar : AcceptedReply ρ) : Codec Unit :=
  if ar.ar_stat = SUCCESS then do
    let _ ← proc ar.ar_results
    return ()
  else if ar.ar_stat = PROG_MISMATCH then do
    xdrULong ar.ar_vers_low
    xdrULong ar.ar_vers_high
  else return ()

def xdrAcceptedReply (proc : ρ → Codec ρ) (ar : AcceptedReply ρ) : Codec Unit := do
  xdrOpaqueAuth ar.ar_verf
  xdrEnum ar.ar_stat
  arResults proc ar

def xdrRejectedReply (rr : RejectedReply) : Codec Unit := do
  xdrEnum rr.rj_stat
  if rr.rj_stat = RPC_MISMATCH then do
    xdrULong rr.rj_vers_low
    xdrULong rr.rj_vers_high
  else if rr.rj_stat = AUTH_ERROR then xdrEnum rr.rj_why
  else check False

/-- The part of `xdr_replymsg` without a buffer. -/
def replymsgGeneric (proc : ρ → Codec ρ) (rmsg : RpcMsg ρ) : Codec Unit := do
  xdrULong rmsg.rm_xid
  xdrEnum rmsg.rm_direction
  check (rmsg.rm_direction = REPLY)
  xdrEnum rmsg.rp_stat
  if rmsg.rp_stat = MSG_ACCEPTED then xdrAcceptedReply proc rmsg.rp_acpt
  else if rmsg.rp_stat = MSG_DENIED then xdrRejectedReply rmsg.rp_rjct
  else check False

/-- Copies the bytes of a credential or verifier to `buf`, if there are any, and goes on to the
    next unit. -/
def putBase (buf : ℕ) (oa : OpaqueAuth) : Codec ℕ :=
  if oa.oa_length ≠ 0 then do
    bcopyTo buf oa.oa_base
    return buf + RNDUP oa.oa_length
  else return buf

/-- The part of `xdr_replymsg` with a buffer. -/
def replymsgInline (proc : ρ → Codec ρ) (rmsg : RpcMsg ρ) (buf : ℕ) : Codec Unit := do
  let buf ← ixdrPut buf rmsg.rm_xid
  let buf ← ixdrPut buf rmsg.rm_direction
  let buf ← ixdrPut buf rmsg.rp_stat
  let ar := rmsg.rp_acpt
  let oa := ar.ar_verf
  let buf ← ixdrPut buf oa.oa_flavor
  let buf ← ixdrPut buf (.ofNat 32 oa.oa_length)
  let buf ← putBase buf oa
  let _ ← ixdrPut buf ar.ar_stat
  arResults proc ar

def xdrReplymsg (ok : ℕ → Bool) (proc : ρ → Codec ρ) (rmsg : RpcMsg ρ) : Codec Unit :=
  if rmsg.rp_stat = MSG_ACCEPTED ∧ rmsg.rm_direction = REPLY then do
    match ← inline (ok 0) (6 * 4 + rmsg.rp_acpt.ar_verf.oa_length) with
    | some buf => replymsgInline proc rmsg buf
    | none => replymsgGeneric proc rmsg
  else replymsgGeneric proc rmsg

/-- The part of `xdr_callmsg` without a buffer. -/
def callmsgGeneric (cmsg : RpcMsg ρ) : Codec Unit := do
  xdrULong cmsg.rm_xid
  xdrEnum cmsg.rm_direction
  check (cmsg.rm_direction = CALL)
  xdrULong cmsg.rm_call.cb_rpcvers
  check (cmsg.rm_call.cb_rpcvers = RPC_MSG_VERSION)
  xdrULong cmsg.rm_call.cb_prog
  xdrULong cmsg.rm_call.cb_vers
  xdrULong cmsg.rm_call.cb_proc
  xdrOpaqueAuth cmsg.rm_call.cb_cred
  xdrOpaqueAuth cmsg.rm_call.cb_verf

/-- The part of `xdr_callmsg` with a buffer. -/
def callmsgInline (cmsg : RpcMsg ρ) (buf : ℕ) : Codec Unit := do
  let buf ← ixdrPut buf cmsg.rm_xid
  let buf ← ixdrPut buf cmsg.rm_direction
  check (cmsg.rm_direction = CALL)
  let buf ← ixdrPut buf cmsg.rm_call.cb_rpcvers
  check (cmsg.rm_call.cb_rpcvers = RPC_MSG_VERSION)
  let buf ← ixdrPut buf cmsg.rm_call.cb_prog
  let buf ← ixdrPut buf cmsg.rm_call.cb_vers
  let buf ← ixdrPut buf cmsg.rm_call.cb_proc
  let oa := cmsg.rm_call.cb_cred
  let buf ← ixdrPut buf oa.oa_flavor
  let buf ← ixdrPut buf (.ofNat 32 oa.oa_length)
  let buf ← putBase buf oa
  let oa := cmsg.rm_call.cb_verf
  let buf ← ixdrPut buf oa.oa_flavor
  let buf ← ixdrPut buf (.ofNat 32 oa.oa_length)
  let _ ← putBase buf oa
  return ()

def xdrCallmsg (ok : ℕ → Bool) (cmsg : RpcMsg ρ) : Codec Unit := do
  check (cmsg.rm_call.cb_cred.oa_length ≤ MAX_AUTH_BYTES)
  check (cmsg.rm_call.cb_verf.oa_length ≤ MAX_AUTH_BYTES)
  match ← inline (ok 0) (8 * 4 + RNDUP cmsg.rm_call.cb_cred.oa_length + 2 * 4 +
      RNDUP cmsg.rm_call.cb_verf.oa_length) with
  | some buf => callmsgInline cmsg buf
  | none => callmsgGeneric cmsg

end Encode

/-! ### Decoding -/

namespace Decode

def xdrULong : Codec (BitVec 32) := getlong

def xdrEnum : Codec (BitVec 32) := getlong

def xdrUInt : Codec (BitVec 32) := getlong

def xdrOpaque (cnt : ℕ) : Codec (List UInt8) :=
  if cnt = 0 then return []
  else do
    let cp ← getbytes cnt
    if rndup cnt = 0 then return cp
    else do
      let _ ← getbytes (rndup cnt)
      return cp

def xdrBytes (maxsize : ℕ) : Codec (List UInt8) := do
  let size ← xdrUInt
  check (size.toNat ≤ maxsize)
  xdrOpaque size.toNat

def xdrOpaqueAuth : Codec OpaqueAuth := do
  let oa_flavor ← xdrEnum
  let oa_base ← xdrBytes MAX_AUTH_BYTES
  return { oa_flavor, oa_base }

/-- What comes after `ar_stat`. -/
def arResults (proc : ρ → Codec ρ) (ar : AcceptedReply ρ) : Codec (AcceptedReply ρ) :=
  if ar.ar_stat = SUCCESS then do
    let ar_results ← proc ar.ar_results
    return { ar with ar_results }
  else if ar.ar_stat = PROG_MISMATCH then do
    let ar_vers_low ← xdrULong
    let ar_vers_high ← xdrULong
    return { ar with ar_vers_low, ar_vers_high }
  else return ar

def xdrAcceptedReply (proc : ρ → Codec ρ) (ar : AcceptedReply ρ) : Codec (AcceptedReply ρ) := do
  let ar_verf ← xdrOpaqueAuth
  let ar_stat ← xdrEnum
  arResults proc { ar with ar_verf, ar_stat }

def xdrRejectedReply (rr : RejectedReply) : Codec RejectedReply := do
  let rj_stat ← xdrEnum
  if rj_stat = RPC_MISMATCH then do
    let rj_vers_low ← xdrULong
    let rj_vers_high ← xdrULong
    return { rr with rj_stat, rj_vers_low, rj_vers_high }
  else if rj_stat = AUTH_ERROR then do
    let rj_why ← xdrEnum
    return { rr with rj_stat, rj_why }
  else do
    check False
    return rr

/-- The part of `xdr_replymsg` without a buffer. -/
def replymsgGeneric (proc : ρ → Codec ρ) (rmsg : RpcMsg ρ) : Codec (RpcMsg ρ) := do
  let rm_xid ← xdrULong
  let rm_direction ← xdrEnum
  check (rm_direction = REPLY)
  let rp_stat ← xdrEnum
  if rp_stat = MSG_ACCEPTED then do
    let rp_acpt ← xdrAcceptedReply proc rmsg.rp_acpt
    return { rmsg with rm_xid, rm_direction, rp_stat, rp_acpt }
  else do
    check (rp_stat = MSG_DENIED)
    let rp_rjct ← xdrRejectedReply rmsg.rp_rjct
    return { rmsg with rm_xid, rm_direction, rp_stat, rp_rjct }

/-- The flavor of a verifier and the length of its bytes, from a buffer if there is one. -/
def authHeader (ok : Bool) : Codec (BitVec 32 × BitVec 32) := do
  match ← inline ok (2 * 4) with
  | some buf => do
    let oa_flavor ← ixdrGet buf
    let oa_length ← ixdrGet (buf + 4)
    return (oa_flavor, oa_length)
  | none => do
    let oa_flavor ← xdrEnum
    let oa_length ← xdrUInt
    return (oa_flavor, oa_length)

/-- The bytes of a credential or verifier, from a buffer if there is one. -/
def authBytes (ok : Bool) (oa_length : ℕ) : Codec (List UInt8) :=
  if oa_length ≠ 0 then do
    check (oa_length ≤ MAX_AUTH_BYTES)
    match ← inline ok (RNDUP oa_length) with
    | none => xdrOpaque oa_length
    | some buf => bcopyFrom buf oa_length
  else return []

/-- Reads `ar_stat`, and keeps the old one if there is none to be read. -/
def xdrEnumOr (old : BitVec 32) : Codec (BitVec 32) where
  run xdrs :=
    let r := xdrEnum.run xdrs
    (some (r.1.getD old), r.2)

/-- The part of `xdr_replymsg` with a buffer. -/
def replymsgInline (ok : ℕ → Bool) (proc : ρ → Codec ρ) (rmsg : RpcMsg ρ) (buf : ℕ) :
    Codec (RpcMsg ρ) := do
  let rm_xid ← ixdrGet buf
  let rm_direction ← ixdrGet (buf + 4)
  check (rm_direction = REPLY)
  let rp_stat ← ixdrGet (buf + 8)
  if rp_stat ≠ MSG_ACCEPTED then do
    check (rp_stat = MSG_DENIED)
    let rp_rjct ← xdrRejectedReply rmsg.rp_rjct
    return { rmsg with rm_xid, rm_direction, rp_stat, rp_rjct }
  else do
    let (oa_flavor, oa_length) ← authHeader (ok 1)
    let oa_base ← authBytes (ok 2) oa_length.toNat
    let ar_stat ← xdrEnumOr rmsg.rp_acpt.ar_stat
    let rp_acpt ← arResults proc { rmsg.rp_acpt with ar_verf := { oa_flavor, oa_base }, ar_stat }
    return { rmsg with rm_xid, rm_direction, rp_stat, rp_acpt }

def xdrReplymsg (ok : ℕ → Bool) (proc : ρ → Codec ρ) (rmsg : RpcMsg ρ) : Codec (RpcMsg ρ) := do
  match ← inline (ok 0) (3 * 4) with
  | some buf => replymsgInline ok proc rmsg buf
  | none => replymsgGeneric proc rmsg

/-- The part of `xdr_callmsg` without a buffer. -/
def callmsgGeneric (cmsg : RpcMsg ρ) : Codec (RpcMsg ρ) := do
  let rm_xid ← xdrULong
  let rm_direction ← xdrEnum
  check (rm_direction = CALL)
  let cb_rpcvers ← xdrULong
  check (cb_rpcvers = RPC_MSG_VERSION)
  let cb_prog ← xdrULong
  let cb_vers ← xdrULong
  let cb_proc ← xdrULong
  let cb_cred ← xdrOpaqueAuth
  let cb_verf ← xdrOpaqueAuth
  return { cmsg with
    rm_xid, rm_direction
    rm_call := { cb_rpcvers, cb_prog, cb_vers, cb_proc, cb_cred, cb_verf } }

/-- The part of `xdr_callmsg` with a buffer. -/
def callmsgInline (ok : ℕ → Bool) (cmsg : RpcMsg ρ) (buf : ℕ) : Codec (RpcMsg ρ) := do
  let rm_xid ← ixdrGet buf
  let rm_direction ← ixdrGet (buf + 4)
  check (rm_direction = CALL)
  let cb_rpcvers ← ixdrGet (buf + 8)
  check (cb_rpcvers = RPC_MSG_VERSION)
  let cb_prog ← ixdrGet (buf + 12)
  let cb_vers ← ixdrGet (buf + 16)
  let cb_proc ← ixdrGet (buf + 20)
  let cred_flavor ← ixdrGet (buf + 24)
  let cred_length ← ixdrGet (buf + 28)
  let cred_base ← authBytes (ok 1) cred_length.toNat
  let (verf_flavor, verf_length) ← authHeader (ok 2)
  let verf_base ← authBytes (ok 3) verf_length.toNat
  return { cmsg with
    rm_xid, rm_direction
    rm_call := {
      cb_rpcvers, cb_prog, cb_vers, cb_proc
      cb_cred := ⟨cred_flavor, cred_base⟩
      cb_verf := ⟨verf_flavor, verf_base⟩ } }

def xdrCallmsg (ok : ℕ → Bool) (cmsg : RpcMsg ρ) : Codec (RpcMsg ρ) := do
  match ← inline (ok 0) (8 * 4) with
  | some buf => callmsgInline ok cmsg buf
  | none => callmsgGeneric cmsg

end Decode

end Uwisc.Rpc
