import Uwisc.Rpc.Prot.Agree

/-!
# Authentication of calls

`_authenticate` of `sys/rpc/svc_auth.c` and `_svcauth_unix` of `sys/rpc/svc_auth_unix.c`, with
`xdr_authunix_parms`. The body of a credential has either a buffer (`XDR_INLINE`), where
everything is read at once and its length is looked at last, or it is decoded by the routines for
its parts.

Whatever is outside of the table, of the body or of the area is not read or stored, but ends the
call. The two ways should be alike and stay inside; when they do is `authenticate_sound_iff`.
-/

namespace Uwisc.Rpc

open BitVec Except Lib List

def AUTH_NULL : BitVec 32 := 0
def AUTH_UNIX : BitVec 32 := 1
def AUTH_SHORT : BitVec 32 := 2
def AUTH_MAX : ℤ := 2
def MAX_MACHINE_NAME : ℕ := 255
def NGRPS : ℕ := 8

inductive AuthStat
  | ok
  | badcred
  | rejectedcred
  deriving DecidableEq

/-- What an access is outside of. -/
inductive Outside
  | table
  | body
  | area
  deriving DecidableEq

/-- The parameters; `aup_machname` ends at its first NUL. -/
structure AuthunixParms where
  aup_time : BitVec 32
  aup_machname : List UInt8
  aup_uid : BitVec 16
  aup_gid : BitVec 16
  aup_len : BitVec 32
  aup_gids : List (BitVec 16)
  deriving DecidableEq

/-! ### Decoding by parts -/

namespace Decode

def xdrUShort : Codec (BitVec 16) := do
  let l ← getlong
  return l.setWidth 16

/-- A string that there is room for already, up to its NUL. -/
def xdrString (maxsize : ℕ) : Codec (List UInt8) := do
  let s ← xdrBytes maxsize
  return s.takeWhile (· ≠ 0)

/-- The elements of an array. -/
def xdrElements (elproc : Codec (BitVec 16)) : ℕ → Codec (List (BitVec 16))
  | 0 => return []
  | c + 1 => do
    let x ← elproc
    let xs ← xdrElements elproc c
    return x :: xs

def xdrArray (maxsize : ℕ) (elproc : Codec (BitVec 16)) : Codec (BitVec 32 × List (BitVec 16)) := do
  let c ← xdrUInt
  check (c.toNat ≤ maxsize)
  let target ← xdrElements elproc c.toNat
  return (c, target)

def xdrAuthunixParms : Codec AuthunixParms := do
  let aup_time ← xdrULong
  let aup_machname ← xdrString MAX_MACHINE_NAME
  let aup_uid ← xdrUShort
  let aup_gid ← xdrUShort
  let (aup_len, aup_gids) ← xdrArray NGRPS xdrUShort
  return { aup_time, aup_machname, aup_uid, aup_gid, aup_len, aup_gids }

end Decode

/-! ### Decoding in a buffer -/

/-- The stream on the body of a credential (`xdrmem_create`). -/
def stream (body : List UInt8) : Xdr := ⟨fun i => body.getD i 0, 0, body.length⟩

/-- The number at an offset of the body. -/
def word (body : List UInt8) (i : ℕ) : BitVec 32 := ntohl (stream body).mem i

def getLong (body : List UInt8) (i : ℕ) : Except Outside (BitVec 32) :=
  if i + 4 ≤ body.length then .ok (word body i) else .error .body

/-- The bytes that `bcopy` copies: the machine's instruction counts with 16 bits. -/
def getName (body : List UInt8) (i : ℕ) (len : BitVec 32) : Except Outside (List UInt8) :=
  let len := len.toNat % 65536
  if i + len ≤ body.length then .ok (bytes (stream body).mem i len) else .error .body

def getGids (body : List UInt8) (i : ℕ) : ℕ → Except Outside (List (BitVec 16))
  | 0 => .ok []
  | n + 1 => do
    let g ← getLong body i
    let gs ← getGids body (i + 4) n
    return g.setWidth 16 :: gs

/-- The bytes of the area from `area_machname` on: 255, one that is left over, and those of
    `area_gids`. -/
def AREA : ℕ := MAX_MACHINE_NAME + 1 + 2 * NGRPS

/-- Where `area_gids` is. -/
def AREA_GIDS : ℕ := MAX_MACHINE_NAME + 1

/-- Stores bytes in the area. A name of a length below zero does not come to this. -/
def setArea (area : Mem) (i : ℕ) (l : List UInt8) : Except Outside Mem :=
  if i + l.length ≤ AREA then .ok (store area i l) else .error .area

/-- The part of `_svcauth_unix` with a buffer; `none` if it is `AUTH_BADCRED`. -/
def svcauthInline (area : Mem) (body : List UInt8) : Except Outside (Option AuthunixParms) := do
  let aup_time ← getLong body 0
  let str_len ← getLong body 4
  let name ← getName body 8 str_len
  let area ← setArea area 0 name
  let area ← setArea area str_len.toNat [0]
  let str_len := RNDUP str_len.toNat
  let aup_uid ← getLong body (8 + str_len)
  let aup_gid ← getLong body (12 + str_len)
  let gid_len ← getLong body (16 + str_len)
  if (NGRPS : ℤ) < gid_len.toInt then return none
  else do
    let aup_gids ← getGids body (20 + str_len) gid_len.toInt.toNat
    let area ← setArea area AREA_GIDS (aup_gids.flatMap fun g => encode 2 g.toNat)
    -- the comparison is of unsigned numbers
    if body.length < ((5 + gid_len) * 4 + .ofNat 32 str_len).toNat then return none
    else return some {
      aup_time, aup_gids
      aup_machname := (bytes area 0 AREA).takeWhile (· ≠ 0)
      aup_uid := aup_uid.setWidth 16
      aup_gid := aup_gid.setWidth 16
      aup_len := gid_len }

/-- What is returned, and what is left in the area. -/
def verdict : Option AuthunixParms → AuthStat × Option AuthunixParms
  | none => (.badcred, none)
  | some aup => (.ok, some aup)

/-- `_svcauth_unix`. What it frees when the credential is bad is not modelled. -/
def svcauthUnix (ok : Bool) (area : Mem) (body : List UInt8) :
    Except Outside (AuthStat × Option AuthunixParms) :=
  match (inline ok body.length).run (stream body) with
  | (some (some _), _) => verdict <$> svcauthInline area body
  | (_, xdrs) => .ok (verdict (Decode.xdrAuthunixParms.run xdrs).1)

def svcauthNull (_ : Bool) (_ : Mem) (_ : List UInt8) : Except Outside (AuthStat × Option AuthunixParms) :=
  .ok (.ok, none)

def svcauthShort (_ : Bool) (_ : Mem) (_ : List UInt8) : Except Outside (AuthStat × Option AuthunixParms) :=
  .ok (.rejectedcred, none)

/-- The authenticators, by flavor. -/
def svcauthsw : List (Bool → Mem → List UInt8 → Except Outside (AuthStat × Option AuthunixParms)) :=
  [svcauthNull, svcauthUnix, svcauthShort]

/-- `_authenticate`; the flavor is a signed number. -/
def authenticate (ok : Bool) (area : Mem) (cred : OpaqueAuth) :
    Except Outside (AuthStat × Option AuthunixParms) :=
  if cred.oa_flavor.toInt ≤ AUTH_MAX then
    if cred.oa_flavor.toInt < 0 then .error .table
    else
      match svcauthsw[cred.oa_flavor.toInt.toNat]? with
      | some authenticator => authenticator ok area cred.oa_base
      | none => .error .table
  else .ok (.rejectedcred, none)

/-! ### What should hold -/

/-- Everything is inside, and the two ways are alike, whatever the area holds. -/
structure Sound (cred : OpaqueAuth) : Prop where
  inside : ∀ ok area, ∃ r, authenticate ok area cred = .ok r
  len_le : ∀ ok area aup, authenticate ok area cred = .ok (.ok, some aup) → aup.aup_len.toNat ≤ NGRPS
  same : ∀ area area', authenticate true area cred = authenticate false area' cred

/-- The length of the name, as it says. -/
def nameLen (body : List UInt8) : ℕ := (word body 4).toNat

/-- The number of groups, as it says. -/
def gidLen (body : List UInt8) : BitVec 32 := word body (16 + RNDUP (nameLen body))

/-- The name is in the area with its NUL, and what comes before the groups is in the body. A number of groups
    that is too large is seen as such; one below zero must be refused for the length of the body, and the groups
    of another one must be in the body, and the name of the permitted length. -/
def Fits (body : List UInt8) : Prop :=
  nameLen body < AREA ∧ 20 + RNDUP (nameLen body) ≤ body.length ∧
  (0 ≤ (gidLen body).toInt → (gidLen body).toInt ≤ NGRPS →
    nameLen body ≤ MAX_MACHINE_NAME ∧ 20 + RNDUP (nameLen body) + 4 * (gidLen body).toNat ≤ body.length) ∧
  ((gidLen body).toInt < 0 → body.length < ((5 + gidLen body) * 4 + .ofNat 32 (RNDUP (nameLen body))).toNat)

instance (body : List UInt8) : Decidable (Fits body) :=
  inferInstanceAs (Decidable (_ ∧ _ ∧ (_ → _ → _) ∧ (_ → _)))

/-! ### With a buffer -/

section Inline

variable {area : Mem} {body : List UInt8} {i n : ℕ}

variable {α β : Type} {g : BitVec 32}

theorem ok_bind (a : α) (f : α → Except Outside β) : (ok a >>= f) = f a := rfl

theorem getLong_of_le (h : i + 4 ≤ body.length) : getLong body i = .ok (word body i) := if_pos h

/-- The groups at an offset. -/
def gidsAt (body : List UInt8) (i : ℕ) : ℕ → List (BitVec 16)
  | 0 => []
  | n + 1 => (word body i).setWidth 16 :: gidsAt body (i + 4) n

theorem length_gidsAt (i n : ℕ) : (gidsAt body i n).length = n := by
  induction n generalizing i with
  | zero => rfl
  | succ n ih => exact congrArg (· + 1) (ih (i + 4))

theorem getGids_of_le (h : i + 4 * n ≤ body.length) : getGids body i n = .ok (gidsAt body i n) := by
  induction n generalizing i with
  | zero => rfl
  | succ n ih =>
    rw [getGids, getLong_of_le (by omega), ok_bind, ih (by omega)]
    rfl

theorem getGids_of_lt (hi : i ≤ body.length) (h : body.length < i + 4 * n) : getGids body i n = .error .body := by
  induction n generalizing i with
  | zero => omega
  | succ n ih =>
    rw [getGids]
    by_cases hle : i + 4 ≤ body.length
    · rw [getLong_of_le hle, ok_bind, ih (by omega) (by omega)]
      rfl
    · rw [getLong, if_neg hle]
      rfl

/-- The area with the name in it. -/
def named (area : Mem) (body : List UInt8) : Mem :=
  store (store area 0 (bytes (stream body).mem 8 (nameLen body))) (nameLen body) [0]

theorem svcauthInline_eq (hname : nameLen body < AREA) (hlen : 20 + RNDUP (nameLen body) ≤ body.length) :
    svcauthInline area body = if (NGRPS : ℤ) < (gidLen body).toInt then .ok none
      else do
        let aup_gids ← getGids body (20 + RNDUP (nameLen body)) (gidLen body).toInt.toNat
        let area ← setArea (named area body) AREA_GIDS (aup_gids.flatMap fun g => encode 2 g.toNat)
        if body.length < ((5 + gidLen body) * 4 + .ofNat 32 (RNDUP (nameLen body))).toNat then return none
        else return some {
          aup_time := word body 0
          aup_machname := (bytes area 0 AREA).takeWhile (· ≠ 0)
          aup_uid := (word body (8 + RNDUP (nameLen body))).setWidth 16
          aup_gid := (word body (12 + RNDUP (nameLen body))).setWidth 16
          aup_len := gidLen body
          aup_gids } := by
  have hrnd := RNDUP_eq (nameLen body)
  have hmod : (word body 4).toNat % 65536 = nameLen body :=
    Nat.mod_eq_of_lt (lt_trans hname (by decide))
  have hget : getName body 8 (word body 4) = .ok (bytes (stream body).mem 8 (nameLen body)) := by
    rw [getName, hmod]
    exact if_pos (by omega)
  have hset : setArea area 0 (bytes (stream body).mem 8 (nameLen body)) =
      .ok (store area 0 (bytes (stream body).mem 8 (nameLen body))) := by
    refine if_pos ?_
    rw [length_bytes]
    omega
  have hnul : setArea (store area 0 (bytes (stream body).mem 8 (nameLen body))) (nameLen body) [0] =
      .ok (named area body) := if_pos hname
  rw [svcauthInline, getLong_of_le (by omega), ok_bind, getLong_of_le (by omega), ok_bind, hget, ok_bind, hset,
    ok_bind]
  rw [show (word body 4).toNat = nameLen body from rfl, hnul, ok_bind]
  dsimp only
  rw [getLong_of_le (by omega), ok_bind, getLong_of_le (by omega), ok_bind, getLong_of_le (by omega), ok_bind]
  rfl

theorem of_bind_ok {x : Except Outside α} {f : α → Except Outside β} {b : β} (h : (x >>= f) = .ok b) :
    ∃ a, x = .ok a ∧ f a = .ok b := by
  cases x with
  | error e => cases h
  | ok a => exact ⟨a, rfl, h⟩

theorem of_getLong {w : BitVec 32} (h : getLong body i = .ok w) : i + 4 ≤ body.length ∧ w = word body i := by
  rw [getLong] at h
  split_ifs at h with hle
  exact ⟨hle, (ok.inj h).symm⟩

theorem of_setArea {area' : Mem} {l : List UInt8} (h : setArea area i l = .ok area') : i + l.length ≤ AREA := by
  rw [setArea] at h
  split_ifs at h with hle
  exact hle

/-- The name and what is before the groups must be inside. -/
theorem of_svcauthInline {r : Option AuthunixParms} (h : svcauthInline area body = .ok r) :
    nameLen body < AREA ∧ 20 + RNDUP (nameLen body) ≤ body.length := by
  obtain ⟨_, -, h⟩ := of_bind_ok h
  obtain ⟨_, hlen, h⟩ := of_bind_ok h
  obtain ⟨-, rfl⟩ := of_getLong hlen
  obtain ⟨_, -, h⟩ := of_bind_ok h
  obtain ⟨_, -, h⟩ := of_bind_ok h
  obtain ⟨_, hnul, h⟩ := of_bind_ok h
  obtain ⟨_, -, h⟩ := of_bind_ok h
  obtain ⟨_, -, h⟩ := of_bind_ok h
  obtain ⟨_, hgid, -⟩ := of_bind_ok h
  have hlast := (of_getLong hgid).1
  rw [show RNDUP (word body 4).toNat = RNDUP (nameLen body) from rfl] at hlast
  exact ⟨of_setArea hnul, by omega⟩

theorem length_encodeGids (gids : List (BitVec 16)) :
    (gids.flatMap fun g => encode 2 g.toNat).length = 2 * gids.length := by
  induction gids with
  | nil => rfl
  | cons g gids ih =>
    rw [flatMap_cons, length_append, ih, length_encode, length_cons]
    omega

theorem takeWhile_nul (l r : List UInt8) : (l ++ 0 :: r).takeWhile (· ≠ 0) = l.takeWhile (· ≠ 0) := by
  induction l with
  | nil => rfl
  | cons c l ih =>
    rw [List.cons_append, takeWhile_cons, takeWhile_cons, ih]

/-- A name of a permitted length is found again in the area, whatever groups are stored there after it. -/
theorem machname_named (hname : nameLen body ≤ MAX_MACHINE_NAME) (gids : List UInt8) :
    (bytes (store (named area body) AREA_GIDS gids) 0 AREA).takeWhile (· ≠ 0) =
      (bytes (stream body).mem 8 (nameLen body)).takeWhile (· ≠ 0) := by
  generalize hl : bytes (stream body).mem 8 (nameLen body) = l
  have hleng : l.length = nameLen body := by rw [← hl, length_bytes]
  have hnamed : named area body = store area 0 (l ++ [0]) := by
    rw [named, hl, ← store_append, zero_add, hleng]
  have hsame : SameOn (named area body) (store (named area body) AREA_GIDS gids) 0 (nameLen body + 1) :=
    sameOn_store (.inl (Nat.succ_le_succ hname))
  have hfst : bytes (store (named area body) AREA_GIDS gids) 0 (nameLen body + 1) = l ++ [0] := by
    have hbyt := bytes_store area 0 (l ++ [0])
    rw [length_append, hleng] at hbyt
    rw [hsame.bytes_eq le_rfl (Nat.le_of_eq (zero_add _)), hnamed]
    exact hbyt
  have hsum : AREA = nameLen body + 1 + (AREA - (nameLen body + 1)) := by
    simp only [AREA, MAX_MACHINE_NAME] at *
    omega
  rw [hsum, bytes_add, hfst, List.append_assoc]
  exact takeWhile_nul _ _

/-- What the parts of the body are with a permitted length of the name. -/
def parms (body : List UInt8) : AuthunixParms where
  aup_time := word body 0
  aup_machname := (bytes (stream body).mem 8 (nameLen body)).takeWhile (· ≠ 0)
  aup_uid := (word body (8 + RNDUP (nameLen body))).setWidth 16
  aup_gid := (word body (12 + RNDUP (nameLen body))).setWidth 16
  aup_len := gidLen body
  aup_gids := gidsAt body (20 + RNDUP (nameLen body)) (gidLen body).toNat

theorem toInt_of_nonneg (h : 0 ≤ g.toInt) : g.toInt = g.toNat := by
  rw [toInt_eq_toNat_cond] at *
  split_ifs at * <;> omega

/-- The length of a body with a few groups. -/
theorem length_toNat {n : ℕ} (hg : g.toNat ≤ NGRPS) (hn : n < 1024) :
    ((5 + g) * 4 + BitVec.ofNat 32 n).toNat = 20 + n + 4 * g.toNat := by
  simp only [NGRPS] at hg
  have h5 : (5 : BitVec 32).toNat = 5 := rfl
  have h4 : (4 : BitVec 32).toNat = 4 := rfl
  rw [toNat_add, toNat_mul, toNat_add, toNat_ofNat, h5, h4]
  omega

/-- The groups that are in the body are accepted. -/
theorem svcauthInline_accepts (hname : nameLen body < AREA) (hnon : 0 ≤ (gidLen body).toInt)
    (hle : (gidLen body).toInt ≤ NGRPS)
    (hlen : 20 + RNDUP (nameLen body) + 4 * (gidLen body).toNat ≤ body.length) :
    ∃ aup, svcauthInline area body = .ok (some aup) ∧ (nameLen body ≤ MAX_MACHINE_NAME → aup = parms body) := by
  have hgid := toInt_of_nonneg hnon
  have hrnd := RNDUP_eq (nameLen body)
  have hlt := rndup_lt (nameLen body)
  have hset : setArea (named area body) AREA_GIDS
      ((gidsAt body (20 + RNDUP (nameLen body)) (gidLen body).toNat).flatMap fun g => encode 2 g.toNat) =
      .ok (store (named area body) AREA_GIDS
        ((gidsAt body (20 + RNDUP (nameLen body)) (gidLen body).toNat).flatMap fun g => encode 2 g.toNat)) := by
    refine if_pos ?_
    rw [length_encodeGids, length_gidsAt]
    simp only [AREA, AREA_GIDS, NGRPS] at *
    omega
  have hleng := @length_toNat (gidLen body) (RNDUP (nameLen body)) (by omega)
    (by simp only [AREA, MAX_MACHINE_NAME, NGRPS] at hname; omega)
  rw [svcauthInline_eq hname (by omega), if_neg (by omega), show (gidLen body).toInt.toNat = (gidLen body).toNat by omega,
    getGids_of_le hlen, ok_bind, hset, ok_bind, hleng, if_neg (by omega)]
  refine ⟨_, rfl, fun hmax => ?_⟩
  rw [parms, machname_named hmax]

/-- Groups that are not in the body are read nevertheless. -/
theorem svcauthInline_past (hname : nameLen body < AREA) (hlen : 20 + RNDUP (nameLen body) ≤ body.length)
    (hnon : 0 ≤ (gidLen body).toInt) (hle : (gidLen body).toInt ≤ NGRPS)
    (hlt : body.length < 20 + RNDUP (nameLen body) + 4 * (gidLen body).toNat) :
    svcauthInline area body = .error .body := by
  have hgid := toInt_of_nonneg hnon
  rw [svcauthInline_eq hname hlen, if_neg (by omega), show (gidLen body).toInt.toNat = (gidLen body).toNat by omega,
    getGids_of_lt hlen hlt]
  rfl

/-- No groups are read if their number is below zero. -/
theorem svcauthInline_neg (hname : nameLen body < AREA) (hlen : 20 + RNDUP (nameLen body) ≤ body.length)
    (hneg : (gidLen body).toInt < 0) : ∃ aup : AuthunixParms, aup.aup_len = gidLen body ∧
    svcauthInline area body =
      if body.length < ((5 + gidLen body) * 4 + .ofNat 32 (RNDUP (nameLen body))).toNat then .ok none
      else .ok (some aup) := by
  rw [svcauthInline_eq hname hlen, if_neg (by simp only [NGRPS]; omega),
    show (gidLen body).toInt.toNat = 0 by omega, getGids, ok_bind]
  refine ⟨_, ?_, rfl⟩
  rfl

end Inline

/-! ### Without a buffer -/

namespace Decode

variable {body : List UInt8} {n : ℕ}

/-- A part is read where it is in the body. -/
theorem getlong_stream (h : n + 4 ≤ body.length) :
    getlong.run ((stream body).skip n) = (some (word body n), (stream body).skip (n + 4)) := by
  rw [getlong_skip]
  · rw [show (stream body).x_private = 0 from rfl, zero_add]
    rfl
  · change (n : ℤ) + 4 ≤ (body.length : ℤ)
    omega

theorem xdrUShort_stream (h : n + 4 ≤ body.length) :
    xdrUShort.run ((stream body).skip n) =
      (some ((word body n).setWidth 16), (stream body).skip (n + 4)) := by
  rw [xdrUShort, bind_of_some (getlong_stream h)]
  rfl

theorem xdrElements_stream {c : ℕ} (h : n + 4 * c ≤ body.length) :
    (xdrElements xdrUShort c).run ((stream body).skip n) =
      (some (gidsAt body n c), (stream body).skip (n + 4 * c)) := by
  induction c generalizing n with
  | zero => rfl
  | succ c ih =>
    rw [xdrElements, bind_of_some (xdrUShort_stream (by omega)), bind_of_some (ih (by omega))]
    rw [run_pure, Nat.mul_succ, add_assoc n, add_comm 4]
    rfl

theorem xdrElements_short {c : ℕ} (hn : n ≤ body.length) (h : body.length < n + 4 * c) :
    ((xdrElements xdrUShort c).run ((stream body).skip n)).1 = none := by
  induction c generalizing n with
  | zero => omega
  | succ c ih =>
    rw [xdrElements]
    by_cases hle : n + 4 ≤ body.length
    · rw [bind_of_some (xdrUShort_stream hle)]
      have hrs := ih hle (by omega)
      cases hrun : (xdrElements xdrUShort c).run ((stream body).skip (n + 4)) with
      | mk r s =>
        rw [hrun] at hrs
        obtain rfl : r = none := hrs
        rw [bind_of_none hrun]
    · have hsht : getlong.run ((stream body).skip n) = (none, ((stream body).skip n).short 4) := by
        refine if_pos ?_
        change (body.length : ℤ) - n - 4 < 0
        omega
      have hnone : xdrUShort.run ((stream body).skip n) = (none, ((stream body).skip n).short 4) :=
        bind_of_none hsht
      rw [bind_of_none hnone]

/-- A name that is too long is refused. -/
theorem xdrAuthunixParms_long (hlen : 8 ≤ body.length) (hname : MAX_MACHINE_NAME < nameLen body) :
    (xdrAuthunixParms.run (stream body)).1 = none := by
  have htime : xdrULong.run (stream body) = (some (word body 0), (stream body).skip 4) :=
    @getlong_stream body 0 (by omega)
  have hsize : xdrUInt.run ((stream body).skip 4) = (some (word body 4), (stream body).skip 8) :=
    getlong_stream hlen
  have hstr : (xdrString MAX_MACHINE_NAME).run ((stream body).skip 4) = (none, (stream body).skip 8) := by
    refine bind_of_none ?_
    rw [xdrBytes, bind_of_some hsize, ← nameLen, bind_of_none (check_of_not (Nat.not_le.2 hname) _)]
  rw [xdrAuthunixParms, bind_of_some htime, bind_of_none hstr]

/-- The other bodies that are long enough up to the groups. -/
theorem xdrAuthunixParms_eq (hname : nameLen body ≤ MAX_MACHINE_NAME)
    (hlen : 20 + RNDUP (nameLen body) ≤ body.length) :
    (xdrAuthunixParms.run (stream body)).1 =
      if (gidLen body).toNat ≤ NGRPS ∧ 20 + RNDUP (nameLen body) + 4 * (gidLen body).toNat ≤ body.length then
        some (parms body)
      else none := by
  have htime : xdrULong.run (stream body) = (some (word body 0), (stream body).skip 4) :=
    @getlong_stream body 0 (by omega)
  have hsize : xdrUInt.run ((stream body).skip 4) = (some (word body 4), (stream body).skip 8) :=
    getlong_stream (by omega)
  have hopa : (xdrOpaque (nameLen body)).run ((stream body).skip 8) =
      (some (bytes (stream body).mem 8 (nameLen body)), (stream body).skip (8 + RNDUP (nameLen body))) := by
    rw [xdrOpaque_of_le, skip_skip]
    · rfl
    · change (RNDUP (nameLen body) : ℤ) ≤ (body.length : ℤ) - (8 : ℕ)
      omega
  have hstr : (xdrString MAX_MACHINE_NAME).run ((stream body).skip 4) =
      (some ((bytes (stream body).mem 8 (nameLen body)).takeWhile (· ≠ 0)),
        (stream body).skip (8 + RNDUP (nameLen body))) := by
    refine bind_of_some ?_
    rw [xdrBytes, bind_of_some hsize, ← nameLen, bind_of_some (check_of hname _)]
    exact hopa
  have huid : xdrUShort.run ((stream body).skip (8 + RNDUP (nameLen body))) =
      (some ((word body (8 + RNDUP (nameLen body))).setWidth 16), (stream body).skip (12 + RNDUP (nameLen body))) := by
    rw [xdrUShort_stream (by omega), show 8 + RNDUP (nameLen body) + 4 = 12 + RNDUP (nameLen body) by omega]
  have hgid : xdrUShort.run ((stream body).skip (12 + RNDUP (nameLen body))) =
      (some ((word body (12 + RNDUP (nameLen body))).setWidth 16), (stream body).skip (16 + RNDUP (nameLen body))) := by
    rw [xdrUShort_stream (by omega), show 12 + RNDUP (nameLen body) + 4 = 16 + RNDUP (nameLen body) by omega]
  have hcnt : xdrUInt.run ((stream body).skip (16 + RNDUP (nameLen body))) =
      (some (gidLen body), (stream body).skip (20 + RNDUP (nameLen body))) := by
    have hget := @getlong_stream body (16 + RNDUP (nameLen body)) (by omega)
    rw [show 16 + RNDUP (nameLen body) + 4 = 20 + RNDUP (nameLen body) by omega] at hget
    exact hget
  rw [xdrAuthunixParms, bind_of_some htime, bind_of_some hstr, bind_of_some huid, bind_of_some hgid]
  by_cases hfew : (gidLen body).toNat ≤ NGRPS
  · by_cases hin : 20 + RNDUP (nameLen body) + 4 * (gidLen body).toNat ≤ body.length
    · have harray : (xdrArray NGRPS xdrUShort).run ((stream body).skip (16 + RNDUP (nameLen body))) =
          (some (gidLen body, gidsAt body (20 + RNDUP (nameLen body)) (gidLen body).toNat),
            (stream body).skip (20 + RNDUP (nameLen body) + 4 * (gidLen body).toNat)) := by
        rw [xdrArray, bind_of_some hcnt, bind_of_some (check_of hfew _), bind_of_some (xdrElements_stream hin)]
        rfl
      rw [bind_of_some harray, if_pos ⟨hfew, hin⟩]
      rfl
    · rw [if_neg (fun h => hin h.2)]
      have hsht := xdrElements_short hlen (Nat.not_le.1 hin)
      cases hrun : (xdrElements xdrUShort (gidLen body).toNat).run ((stream body).skip (20 + RNDUP (nameLen body))) with
      | mk r s =>
        rw [hrun] at hsht
        obtain rfl : r = none := hsht
        have harray : (xdrArray NGRPS xdrUShort).run ((stream body).skip (16 + RNDUP (nameLen body))) = (none, s) := by
          rw [xdrArray, bind_of_some hcnt, bind_of_some (check_of hfew _), bind_of_none hrun]
        rw [bind_of_none harray]
  · rw [if_neg (fun h => hfew h.1)]
    have harray : (xdrArray NGRPS xdrUShort).run ((stream body).skip (16 + RNDUP (nameLen body))) =
        (none, (stream body).skip (20 + RNDUP (nameLen body))) := by
      rw [xdrArray, bind_of_some hcnt, bind_of_none (check_of_not hfew _)]
    rw [bind_of_none harray]

end Decode

/-! ### When it is sound -/

variable {body : List UInt8}

theorem svcauthUnix_true (area : Mem) (body : List UInt8) :
    svcauthUnix true area body = verdict <$> svcauthInline area body := by
  rw [svcauthUnix, inline_of_le (show (body.length : ℤ) ≤ (stream body).x_handy from le_rfl)]

theorem svcauthUnix_false (area : Mem) (body : List UInt8) :
    svcauthUnix false area body = .ok (verdict (Decode.xdrAuthunixParms.run (stream body)).1) := by
  rw [svcauthUnix, inline_false]

/-- The flavor of `_svcauth_unix`. -/
theorem authenticate_unix (ok : Bool) (area : Mem) (body : List UInt8) :
    authenticate ok area ⟨AUTH_UNIX, body⟩ = svcauthUnix ok area body := rfl

/-- A large number, or one below zero, is more than the groups that there may be. -/
theorem not_few {g : BitVec 32} (h : (NGRPS : ℤ) < g.toInt ∨ g.toInt < 0) : ¬g.toNat ≤ NGRPS := by
  rw [toInt_eq_toNat_cond] at h
  simp only [NGRPS] at *
  split_ifs at h <;> omega

/-- A body that does not fit is not handled soundly. -/
theorem Sound.fits (h : Sound ⟨AUTH_UNIX, body⟩) : Fits body := by
  let area : Mem := fun _ => 0
  have hsame := h.same area area
  obtain ⟨r, hr⟩ := h.inside true area
  rw [authenticate_unix, svcauthUnix_true] at hr
  rw [authenticate_unix, authenticate_unix, svcauthUnix_true, svcauthUnix_false] at hsame
  cases hinl : svcauthInline area body with
  | error e =>
    rw [hinl] at hr
    cases hr
  | ok r' =>
    obtain ⟨hname, hlen⟩ := of_svcauthInline hinl
    refine ⟨hname, hlen, fun hnon hle => ?_, fun hneg => ?_⟩
    · have hin : 20 + RNDUP (nameLen body) + 4 * (gidLen body).toNat ≤ body.length := by
        by_contra hlt
        rw [svcauthInline_past hname hlen hnon hle (Nat.not_le.1 hlt)] at hinl
        cases hinl
      refine ⟨?_, hin⟩
      by_contra hlong
      obtain ⟨aup, haup, -⟩ := @svcauthInline_accepts area body hname hnon hle hin
      rw [haup, Decode.xdrAuthunixParms_long (by omega) (Nat.not_le.1 hlong)] at hsame
      cases hsame
    · obtain ⟨aup, haup, heq⟩ := @svcauthInline_neg area body hname hlen hneg
      by_contra hge
      rw [if_neg hge] at heq
      have hfew := h.len_le true area aup (by rw [authenticate_unix, svcauthUnix_true, heq]; rfl)
      rw [haup] at hfew
      exact not_few (.inr hneg) hfew

/-- A body that fits is decoded alike. -/
theorem Fits.alike (h : Fits body) : ∃ r, (∀ area, svcauthInline area body = .ok r) ∧
    (Decode.xdrAuthunixParms.run (stream body)).1 = r ∧ ∀ aup, r = some aup → aup.aup_len.toNat ≤ NGRPS := by
  obtain ⟨hname, hlen, hgro, hneg⟩ := h
  by_cases hgid : (NGRPS : ℤ) < (gidLen body).toInt ∨ (gidLen body).toInt < 0
  · refine ⟨none, fun area => ?_, ?_, fun _ haup => absurd haup.symm (Option.some_ne_none _)⟩
    · rcases hgid with hgid | hgid
      · rw [svcauthInline_eq hname hlen, if_pos hgid]
      · obtain ⟨aup, -, heq⟩ := @svcauthInline_neg area body hname hlen hgid
        rw [heq, if_pos (hneg hgid)]
    · by_cases hmax : nameLen body ≤ MAX_MACHINE_NAME
      · rw [Decode.xdrAuthunixParms_eq hmax hlen, if_neg (fun hfew => not_few hgid hfew.1)]
      · exact Decode.xdrAuthunixParms_long (by omega) (Nat.not_le.1 hmax)
  · obtain ⟨hle, hnon⟩ := not_or.1 hgid
    obtain ⟨hmax, hin⟩ := hgro (Int.not_lt.1 hnon) (Int.not_lt.1 hle)
    have hnat := toInt_of_nonneg (Int.not_lt.1 hnon)
    have hfew : (gidLen body).toNat ≤ NGRPS := by omega
    refine ⟨some (parms body), fun area => ?_, ?_, fun aup haup => ?_⟩
    · obtain ⟨aup, haup, hparms⟩ :=
        @svcauthInline_accepts area body hname (Int.not_lt.1 hnon) (Int.not_lt.1 hle) hin
      rw [haup, hparms hmax]
    · rw [Decode.xdrAuthunixParms_eq hmax hlen, if_pos ⟨hfew, hin⟩]
    · cases haup
      exact hfew

theorem Fits.sound (h : Fits body) : Sound ⟨AUTH_UNIX, body⟩ := by
  obtain ⟨r, hinl, hparts, hlen⟩ := h.alike
  have hrun (ok : Bool) (area : Mem) : authenticate ok area ⟨AUTH_UNIX, body⟩ = .ok (verdict r) := by
    cases ok with
    | false => rw [authenticate_unix, svcauthUnix_false, hparts]
    | true =>
      rw [authenticate_unix, svcauthUnix_true, hinl]
      rfl
  refine ⟨fun ok area => ⟨_, hrun ok area⟩, fun ok area aup haup => ?_, fun area area' => ?_⟩
  · rw [hrun] at haup
    cases r with
    | none => cases Except.ok.inj haup
    | some aup' =>
      obtain rfl : aup' = aup := Option.some_inj.1 (congrArg Prod.snd (Except.ok.inj haup))
      exact hlen _ rfl
  · rw [hrun, hrun]

end Uwisc.Rpc
