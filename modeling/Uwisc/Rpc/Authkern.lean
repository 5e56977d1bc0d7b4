import Uwisc.Rpc.Svcauth

/-!
# The credential of a client

`authkern_marshal` of `sys/rpc/auth_kern.c`, and `xdr_authkern` of `sys/rpc/authunix_prot.c`. The
credential is written in a buffer, if there is one, or else by the routines for its parts to
memory and from there to the stream.

The groups are counted from the end each time (`scan`), but up to the last one that is not zero in
one case, and up to the last one that is zero in the other: these are never the same
(`gidlen_ne_len`), and neither is what is written (`authkernMarshal_differs`).
-/

namespace Uwisc.Rpc

open Lib

def NGROUPS : ℕ := 16

/-- What is read of the user structure, the time and the name of the host, which is a string. -/
structure Client where
  u_uid : BitVec 16
  u_gid : BitVec 16
  u_groups : Vector (BitVec 16) NGROUPS
  tv_sec : BitVec 32
  hostname : List UInt8
  nonul : 0 ∉ hostname
  hostnamelen_le : hostname.length ≤ MAX_MACHINE_NAME

open List

namespace Client

variable (c : Client)

/-- The first of the groups. -/
def groups (n : ℕ) : List (BitVec 16) := c.u_groups.toList.take n

/-- How many of the `n` first groups are left when those at the end are passed over, up to one that
    ends it. -/
def scan (stop : BitVec 16 → Bool) : ℕ → ℕ
  | 0 => 0
  | n + 1 => if stop (c.u_groups.toList.getD n 0) then n + 1 else scan stop n

/-- The groups that are counted by `authkern_marshal`. -/
def gidlen : ℕ := c.scan (· ≠ 0) NGRPS

/-- Those that are counted by `xdr_authkern`. -/
def len : ℕ := c.scan (· = 0) NGRPS

def credsize : ℕ := 4 + 4 + RNDUP c.hostname.length + 4 + 4 + 4 + c.gidlen * 4

end Client

namespace Encode

def xdrUShort (us : BitVec 16) : Codec Unit := putlong (us.setWidth 32)

def xdrString (s : List UInt8) (maxsize : ℕ) : Codec Unit := xdrBytes s maxsize

/-- The elements of an array. -/
def xdrElements : List (BitVec 16) → Codec Unit
  | [] => return ()
  | x :: xs => do
    xdrUShort x
    xdrElements xs

def xdrArray (target : List (BitVec 16)) (maxsize : ℕ) : Codec Unit := do
  xdrUInt (.ofNat 32 target.length)
  check (target.length ≤ maxsize)
  xdrElements target

def xdrAuthkern (c : Client) : Codec Unit := do
  xdrULong c.tv_sec
  xdrString c.hostname MAX_MACHINE_NAME
  xdrUShort c.u_uid
  xdrUShort c.u_gid
  xdrArray (c.groups c.len) NGRPS

/-- Stores the groups at `buf`, and goes on after them. -/
def putGids (buf : ℕ) : List (BitVec 16) → Codec ℕ
  | [] => return buf
  | g :: gs => do
    let buf ← ixdrPut buf (g.setWidth 32)
    putGids buf gs

/-- The part of `authkern_marshal` with a buffer. -/
def authkernInline (c : Client) (ptr : ℕ) : Codec Unit := do
  let ptr ← ixdrPut ptr AUTH_UNIX
  let ptr ← ixdrPut ptr (.ofNat 32 c.credsize)
  let ptr ← ixdrPut ptr c.tv_sec
  let ptr ← ixdrPut ptr (.ofNat 32 c.hostname.length)
  bcopyTo ptr c.hostname
  let ptr := ptr + RNDUP c.hostname.length
  let ptr ← ixdrPut ptr (c.u_uid.setWidth 32)
  let ptr ← ixdrPut ptr (c.u_gid.setWidth 32)
  let ptr ← ixdrPut ptr (.ofNat 32 c.gidlen)
  let ptr ← putGids ptr (c.groups c.gidlen)
  let ptr ← ixdrPut ptr AUTH_NULL
  let _ ← ixdrPut ptr 0
  return ()

/-- The part without; `sercred` is the memory that is allocated. -/
def authkernGeneric (c : Client) (sercred : Mem) : Codec Unit :=
  let xdrm := (xdrAuthkern c).run ⟨sercred, 0, MAX_AUTH_BYTES⟩
  if xdrm.1.isSome then do
    xdrOpaqueAuth ⟨AUTH_UNIX, bytes xdrm.2.mem 0 xdrm.2.x_private⟩
    xdrOpaqueAuth ⟨AUTH_NULL, []⟩
  else check False

def authkernMarshal (c : Client) (ok : Bool) (sercred : Mem) : Codec Unit := do
  match ← inline ok (4 + 4 + c.credsize + 4 + 4) with
  | some ptr => authkernInline c ptr
  | none => authkernGeneric c sercred

/-- What is returned, and the bytes put on the stream. -/
def sent (c : Client) (ok : Bool) (sercred : Mem) (xdrs : Xdr) : Bool × List UInt8 :=
  let r := (authkernMarshal c ok sercred).run xdrs
  (r.1.isSome, bytes r.2.mem xdrs.x_private (r.2.x_private - xdrs.x_private))

end Encode

/-! ### Counting the groups -/

namespace Client

variable (c : Client) {stop : BitVec 16 → Bool}

theorem scan_le (stop : BitVec 16 → Bool) (n : ℕ) : c.scan stop n ≤ n := by
  induction n with
  | zero => exact le_rfl
  | succ n ih =>
    rw [scan]
    split_ifs
    · exact le_rfl
    · exact Nat.le_succ_of_le ih

/-- The last group ends either the one count or the other. -/
theorem gidlen_ne_len : c.gidlen ≠ c.len := by
  have hle := c.scan_le (· ≠ 0) 7
  have hle' := c.scan_le (· = 0) 7
  have hgid : c.gidlen = if (c.u_groups.toList.getD 7 0 ≠ 0 : Bool) then 8 else c.scan (· ≠ 0) 7 := rfl
  have hlen : c.len = if (c.u_groups.toList.getD 7 0 = 0 : Bool) then 8 else c.scan (· = 0) 7 := rfl
  rw [hgid, hlen]
  by_cases hlast : c.u_groups.toList.getD 7 0 = 0
  · rw [if_neg (by simpa only [decide_eq_true_eq, not_not] using hlast), if_pos (decide_eq_true hlast)]
    exact (Nat.lt_succ_of_le hle).ne
  · rw [if_pos (decide_eq_true hlast), if_neg (by simpa only [decide_eq_true_eq] using hlast)]
    exact (Nat.lt_succ_of_le hle').ne'

theorem gidlen_le : c.gidlen ≤ NGRPS := c.scan_le _ _

theorem len_le : c.len ≤ NGRPS := c.scan_le _ _

theorem length_groups {n : ℕ} (hn : n ≤ NGRPS) : (c.groups n).length = n := by
  rw [groups, length_take, Vector.length_toList]
  exact Nat.min_eq_left (hn.trans (by decide))

end Client

/-! ### What is written -/

namespace Encode

variable {c : Client}

/-- The bytes of some groups. -/
def gidData (gids : List (BitVec 16)) : List UInt8 := gids.flatMap fun g => htonl (g.setWidth 32)

theorem length_gidData (gids : List (BitVec 16)) : (gidData gids).length = 4 * gids.length := by
  induction gids with
  | nil => rfl
  | cons g gids ih =>
    rw [gidData, flatMap_cons, ← gidData, length_append, length_htonl, ih, length_cons, Nat.mul_succ,
      add_comm]

theorem puts_xdrElements (gids : List (BitVec 16)) : Puts (xdrElements gids) (gidData gids) := by
  induction gids with
  | nil => exact puts_nil
  | cons g gids ih => exact (puts_putbytes _).bind ih

/-- The body that `xdr_authkern` writes. -/
def authkernData (c : Client) : List UInt8 :=
  htonl c.tv_sec ++ ((htonl (.ofNat 32 c.hostname.length) ++
    (c.hostname ++ replicate (rndup c.hostname.length) 0)) ++
      (htonl (c.u_uid.setWidth 32) ++ (htonl (c.u_gid.setWidth 32) ++
        (htonl (.ofNat 32 (c.groups c.len).length) ++ gidData (c.groups c.len)))))

variable (c : Client)

theorem puts_xdrAuthkern : Puts (xdrAuthkern c) (authkernData c) := by
  have hlen : (c.groups c.len).length ≤ NGRPS := by
    rw [c.length_groups c.len_le]
    exact c.len_le
  have hname : Puts (xdrString c.hostname MAX_MACHINE_NAME) (htonl (.ofNat 32 c.hostname.length) ++
      (c.hostname ++ replicate (rndup c.hostname.length) 0)) :=
    (puts_putbytes _).bind (Puts.check c.hostnamelen_le (puts_xdrOpaque _))
  exact (puts_putbytes _).bind (hname.bind ((puts_putbytes _).bind ((puts_putbytes _).bind
    ((puts_putbytes _).bind (Puts.check hlen (puts_xdrElements _))))))

theorem length_authkernData :
    (authkernData c).length = 20 + RNDUP c.hostname.length + 4 * c.len := by
  rw [RNDUP_eq]
  simp only [authkernData, length_append, length_htonl, length_replicate, length_gidData,
    c.length_groups c.len_le]
  omega

/-- A routine that succeeds and leaves the stream where it is. -/
def Stays {α : Type} (p : Codec α) : Prop := ∀ s, ∃ a s', p.run s = (some a, s') ∧ s'.x_private = s.x_private

theorem Stays.bind {α β : Type} {p : Codec α} {f : α → Codec β} (hp : Stays p) (hf : ∀ a, Stays (f a)) :
    Stays (p >>= f) := by
  intro s
  obtain ⟨a, s', hrun, hs'⟩ := hp s
  obtain ⟨b, s'', hrun', hs''⟩ := hf a s'
  exact ⟨b, s'', (bind_of_some hrun).trans hrun', hs''.trans hs'⟩

theorem stays_pure {α : Type} (a : α) : Stays (pure a : Codec α) := fun s => ⟨a, s, rfl, rfl⟩

theorem stays_bcopyTo (buf : ℕ) (l : List UInt8) : Stays (bcopyTo buf l) := fun _ => ⟨(), _, rfl, rfl⟩

theorem stays_ixdrPut (buf : ℕ) (v : BitVec 32) : Stays (ixdrPut buf v) :=
  (stays_bcopyTo _ _).bind fun _ => stays_pure _

theorem stays_putGids (buf : ℕ) (gids : List (BitVec 16)) : Stays (putGids buf gids) := by
  induction gids generalizing buf with
  | nil => exact stays_pure buf
  | cons g gids ih => exact (stays_ixdrPut _ _).bind fun buf => ih buf

theorem stays_authkernInline (ptr : ℕ) : Stays (authkernInline c ptr) :=
  (stays_ixdrPut _ _).bind fun _ => (stays_ixdrPut _ _).bind fun _ => (stays_ixdrPut _ _).bind fun _ =>
    (stays_ixdrPut _ _).bind fun _ => (stays_bcopyTo _ _).bind fun _ => (stays_ixdrPut _ _).bind fun _ =>
      (stays_ixdrPut _ _).bind fun _ => (stays_ixdrPut _ _).bind fun _ => (stays_putGids _ _).bind fun _ =>
        (stays_ixdrPut _ _).bind fun _ => (stays_ixdrPut _ _).bind fun _ => stays_pure _

/-- With a buffer, the groups are those up to the last one that is not zero. -/
theorem length_sent_true (sercred : Mem) {xdrs : Xdr} (hroom : (MAX_AUTH_BYTES : ℤ) ≤ xdrs.x_handy) :
    (sent c true sercred xdrs).2.length = 36 + RNDUP c.hostname.length + 4 * c.gidlen := by
  have hgid := c.gidlen_le
  have hname := c.hostnamelen_le
  have hrnd := RNDUP_eq c.hostname.length
  have hlt := rndup_lt c.hostname.length
  simp only [NGRPS, MAX_MACHINE_NAME, MAX_AUTH_BYTES] at *
  have hsize : 4 + 4 + c.credsize + 4 + 4 = 36 + RNDUP c.hostname.length + 4 * c.gidlen := by
    rw [Client.credsize]
    omega
  obtain ⟨_, s', hrun, hs'⟩ := stays_authkernInline c xdrs.x_private (xdrs.skip (4 + 4 + c.credsize + 4 + 4))
  have hle : ((4 + 4 + c.credsize + 4 + 4 : ℕ) : ℤ) ≤ xdrs.x_handy := by
    rw [hsize]
    omega
  rw [sent, authkernMarshal, bind_of_some (inline_of_le hle)]
  dsimp only
  rw [hrun]
  dsimp only
  rw [length_bytes, hs']
  simp only [Xdr.skip]
  omega

theorem length_authkernData_le : (authkernData c).length ≤ MAX_AUTH_BYTES - 16 := by
  have hlen := c.len_le
  have hname := c.hostnamelen_le
  have hrnd := RNDUP_eq c.hostname.length
  have hlt := rndup_lt c.hostname.length
  rw [length_authkernData]
  simp only [NGRPS, MAX_MACHINE_NAME, MAX_AUTH_BYTES] at *
  omega

/-- The credential and an empty verifier. -/
theorem puts_authkernGeneric (sercred : Mem) : Puts (authkernGeneric c sercred)
    (authData ⟨AUTH_UNIX, authkernData c⟩ [] ++ authData ⟨AUTH_NULL, []⟩ []) := by
  have hle := length_authkernData_le c
  simp only [MAX_AUTH_BYTES] at hle
  have hxdrm : (xdrAuthkern c).run ⟨sercred, 0, MAX_AUTH_BYTES⟩ =
      (some (), put ⟨sercred, 0, MAX_AUTH_BYTES⟩ (authkernData c)) := by
    refine puts_xdrAuthkern c _ ?_
    simp only [MAX_AUTH_BYTES]
    omega
  have hbyt : bytes (put ⟨sercred, 0, MAX_AUTH_BYTES⟩ (authkernData c)).mem 0
      (put ⟨sercred, 0, MAX_AUTH_BYTES⟩ (authkernData c)).x_private = authkernData c := by
    simp only [put, Xdr.skip, zero_add, bytes_store]
  have hgen : authkernGeneric c sercred =
      (xdrOpaqueAuth ⟨AUTH_UNIX, authkernData c⟩ >>= fun _ => xdrOpaqueAuth ⟨AUTH_NULL, []⟩) := by
    rw [authkernGeneric, hxdrm]
    dsimp only
    rw [hbyt]
    rfl
  have hfill : rndup (authkernData c).length = 0 := by
    rw [rndup_eq_zero, length_authkernData]
    simp only [RNDUP]
    omega
  have hcred := puts_xdrOpaqueAuth ⟨AUTH_UNIX, authkernData c⟩ (by
    simp only [OpaqueAuth.oa_length, MAX_AUTH_BYTES]
    omega)
  simp only [OpaqueAuth.oa_length, hfill, replicate_zero] at hcred
  rw [hgen]
  exact hcred.bind (puts_xdrOpaqueAuth ⟨AUTH_NULL, []⟩ (Nat.zero_le _))

/-- Without one, they are those up to the last one that is zero. -/
theorem length_sent_false (sercred : Mem) {xdrs : Xdr} (hroom : (MAX_AUTH_BYTES : ℤ) ≤ xdrs.x_handy) :
    (sent c false sercred xdrs).2.length = 36 + RNDUP c.hostname.length + 4 * c.len := by
  have hle := length_authkernData_le c
  have hleng : (authData ⟨AUTH_UNIX, authkernData c⟩ [] ++ authData ⟨AUTH_NULL, []⟩ []).length =
      16 + (authkernData c).length := by
    simp only [authData, length_append, length_htonl, length_nil]
    omega
  have hputs := puts_authkernGeneric c sercred xdrs (by
    rw [hleng]
    simp only [MAX_AUTH_BYTES] at *
    omega)
  rw [sent, authkernMarshal, bind_of_some (inline_false _ _)]
  dsimp only
  rw [hputs, length_bytes]
  simp only [put, Xdr.skip, Nat.add_sub_cancel_left]
  rw [hleng, length_authkernData]
  omega

/-- What is put on the stream is never the same. -/
theorem authkernMarshal_differs (sercred : Mem) (xdrs : Xdr)
    (hroom : (MAX_AUTH_BYTES : ℤ) ≤ xdrs.x_handy) : sent c true sercred xdrs ≠ sent c false sercred xdrs := by
  intro h
  have hleng : (sent c true sercred xdrs).2.length = (sent c false sercred xdrs).2.length := by rw [h]
  rw [length_sent_true c sercred hroom, length_sent_false c sercred hroom] at hleng
  exact c.gidlen_ne_len (by omega)

/-- A user with the group 100 on the host `u`. -/
def oneGroup : Client where
  u_uid := 7
  u_gid := 100
  u_groups := .ofFn fun i => if i.val = 0 then 100 else 65535
  tv_sec := 0
  hostname := [117]
  nonul := fun h => absurd (List.mem_singleton.1 h) (by decide)
  hostnamelen_le := by decide

theorem authkernMarshal_differs_oneGroup : (MAX_AUTH_BYTES : ℤ) ≤ 1000 ∧
      sent oneGroup true (fun _ => 0) ⟨fun _ => 0, 0, 1000⟩ ≠ sent oneGroup false (fun _ => 0) ⟨fun _ => 0, 0, 1000⟩ :=
  ⟨by decide, authkernMarshal_differs oneGroup (fun _ => 0) ⟨fun _ => 0, 0, 1000⟩ (by decide)⟩

/-- No group is sent without a buffer, and eight with one. -/
theorem authkernMarshal_loses_groups : ¬∀ (c : Client) (sercred : Mem) (xdrs : Xdr),
    (MAX_AUTH_BYTES : ℤ) ≤ xdrs.x_handy → sent c true sercred xdrs = sent c false sercred xdrs := by
  intro h
  have hsent := h oneGroup (fun _ => 0) ⟨fun _ => 0, 0, 1000⟩ (by decide)
  have hroom : (MAX_AUTH_BYTES : ℤ) ≤ (⟨fun _ => 0, 0, 1000⟩ : Xdr).x_handy := by decide
  have htrue := length_sent_true oneGroup (fun _ => 0) hroom
  have hfls := length_sent_false oneGroup (fun _ => 0) hroom
  rw [hsent, hfls] at htrue
  exact oneGroup.gidlen_ne_len (by omega)

end Encode

end Uwisc.Rpc
