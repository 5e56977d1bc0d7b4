import Uwisc.Rpc.Prot

/-!
# The two ways of a message

Whether `XDR_INLINE` succeeds or not, a message should be encoded to the same bytes, and the
same inputs should be decoded to the same message.

* `Puts`: what a routine writes, if there is room for it; the routines for the parts of a message
  write them one after the other, and a buffer is written the same way but for the bytes that
  fill a unit up, which stay as they were (`callmsgInline_eq`);
* `authHeader_eq`, `authBytes_eq`: the parts of a message are decoded alike either way.

`xdr_callmsg` decodes alike. It encodes alike if the bytes that fill a unit up are zero already.
`xdr_replymsg` encodes alike only if there are none such, since the buffer is too short then;
and if the input ends before `ar_stat`, the old one is taken for it (`codecs_agree`).
-/

namespace Uwisc.Rpc

open Lib List Option

variable {α β ρ : Type} {p : Codec α} {f : α → Codec β} {s s' : Xdr} {a : α} {n k : ℕ}

/-! ### Routines -/

@[ext] theorem Codec.ext {p q : Codec α} (h : ∀ s, p.run s = q.run s) : p = q := by
  cases p
  cases q
  exact congrArg Codec.mk (funext h)

theorem run_bind (p : Codec α) (f : α → Codec β) (s : Xdr) : (p >>= f).run s = match p.run s with
    | (some a, s') => (f a).run s'
    | (none, s') => (none, s') := rfl

theorem run_check (c : Prop) [Decidable c] (s : Xdr) :
    (check c).run s = (if c then some () else none, s) := rfl

theorem run_getlong (s : Xdr) : getlong.run s = if s.x_handy - 4 < 0 then (none, s.short 4)
    else (some (ntohl s.mem s.x_private), s.skip 4) := rfl

theorem run_getbytes (len : ℕ) (s : Xdr) : (getbytes len).run s =
    if s.x_handy - len < 0 then (none, s.short len)
    else (some (bytes s.mem s.x_private len), s.skip len) := rfl

theorem run_putbytes (addr : List UInt8) (s : Xdr) : (putbytes addr).run s =
    if s.x_handy - addr.length < 0 then (none, s.short addr.length)
    else (some (), { s with mem := store s.mem s.x_private addr }.skip addr.length) := rfl

theorem run_inline (ok : Bool) (len : ℕ) (s : Xdr) : (inline ok len).run s =
    if ok ∧ (len : ℤ) ≤ s.x_handy then (some (some s.x_private), s.skip len)
    else (some none, s) := rfl

theorem bind_of_some (h : p.run s = (some a, s')) : (p >>= f).run s = (f a).run s' := by
  rw [run_bind, h]

theorem bind_of_none (h : p.run s = (none, s')) : (p >>= f).run s = (none, s') := by
  rw [run_bind, h]

theorem bind_congr {q : Codec α} (h : p.run s = q.run s) : (p >>= f).run s = (q >>= f).run s := by
  rw [run_bind, run_bind, h]

theorem run_pure (a : α) (s : Xdr) : (pure a : Codec α).run s = (some a, s) := rfl

theorem check_of {c : Prop} [Decidable c] (h : c) (s : Xdr) : (check c).run s = (some (), s) := by
  rw [run_check, if_pos h]

theorem check_of_not {c : Prop} [Decidable c] (h : ¬c) (s : Xdr) : (check c).run s = (none, s) := by
  rw [run_check, if_neg h]

theorem inline_of_le (h : (n : ℤ) ≤ s.x_handy) :
    (inline true n).run s = (some (some s.x_private), s.skip n) := by
  rw [run_inline, if_pos ⟨rfl, h⟩]

theorem inline_false (n : ℕ) (s : Xdr) : (inline false n).run s = (some none, s) := by
  rw [run_inline, if_neg (by simp)]

theorem inline_of_lt (ok : Bool) (h : s.x_handy < n) : (inline ok n).run s = (some none, s) := by
  rw [run_inline, if_neg (by omega)]

/-- With a buffer if there is one, or else without. -/
theorem run_inline_bind {f : ℕ → Codec α} {q : Codec α} (ok : Bool) (n : ℕ) (s : Xdr) : (do
      match ← inline ok n with
      | some buf => f buf
      | none => q : Codec α).run s =
      if ok = true ∧ (n : ℤ) ≤ s.x_handy then (f s.x_private).run (s.skip n) else q.run s := by
  rw [run_bind, run_inline]
  split_ifs <;> rfl

/-- Whether the first answer matters. -/
theorem agree_iff {γ δ : Type} {F : γ → δ} {x y : γ} {c : Prop} [Decidable c] (hc : c) :
    (∀ ok ok' : ℕ → Bool, F (if ok 0 = true ∧ c then x else y) =
      F (if ok' 0 = true ∧ c then x else y)) ↔ F x = F y := by
  constructor
  · intro h
    have hboth := h (fun _ => true) (fun _ => false)
    rwa [if_pos ⟨rfl, hc⟩, if_neg (by simp)] at hboth
  · intro h ok ok'
    split_ifs <;> simp only [h]

theorem skip_skip (s : Xdr) (n k : ℕ) : (s.skip n).skip k = s.skip (n + k) := by
  simp only [Xdr.skip, add_assoc]
  congr 1
  omega

/-- A number is read, `n` bytes on. -/
theorem getlong_skip (h : (n : ℤ) + 4 ≤ s.x_handy) :
    getlong.run (s.skip n) = (some (ntohl s.mem (s.x_private + n)), s.skip (n + 4)) := by
  have hhandy : ¬(s.skip n).x_handy - 4 < 0 := by
    simp only [Xdr.skip]
    omega
  rw [run_getlong, if_neg hhandy, skip_skip]
  rfl

theorem getlong_of_le (h : 4 ≤ s.x_handy) :
    getlong.run s = (some (ntohl s.mem s.x_private), s.skip 4) := by
  rw [run_getlong, if_neg (by omega)]

theorem rndup_lt (n : ℕ) : rndup n < 4 := by
  rw [rndup]
  split_ifs <;> omega

theorem RNDUP_eq (n : ℕ) : RNDUP n = n + rndup n := by
  rw [RNDUP, rndup]
  split_ifs <;> omega

theorem rndup_eq_zero : rndup n = 0 ↔ n % 4 = 0 := by
  rw [rndup]
  split_ifs <;> omega

/-! ### Decoding -/

namespace Decode

/-- A number is decoded as it is in the buffer. -/
theorem authHeader_eq (ok : Bool) : authHeader ok = authHeader false := by
  ext1 s
  rw [authHeader, authHeader]
  cases ok with
  | false => rfl
  | true =>
    by_cases h : ((2 * 4 : ℕ) : ℤ) ≤ s.x_handy
    · have hfla : xdrEnum.run s = (some (ntohl s.mem s.x_private), s.skip 4) :=
        getlong_of_le (by omega)
      have hlen : xdrUInt.run (s.skip 4) = (some (ntohl s.mem (s.x_private + 4)), s.skip 8) :=
        getlong_skip (by omega)
      rw [bind_of_some (inline_of_le h), bind_of_some (inline_false _ _)]
      dsimp only
      rw [bind_of_some hfla, bind_of_some hlen]
      rfl
    · exact bind_congr ((inline_of_lt _ (Int.not_le.1 h)).trans (inline_false _ _).symm)

theorem xdrOpaque_of_le (h : (RNDUP n : ℤ) ≤ s.x_handy) :
    (xdrOpaque n).run s = (some (bytes s.mem s.x_private n), s.skip (RNDUP n)) := by
  rw [RNDUP_eq] at h ⊢
  have hbyt : (getbytes n).run s = (some (bytes s.mem s.x_private n), s.skip n) := by
    rw [run_getbytes, if_neg (by omega)]
  rw [xdrOpaque]
  by_cases hn : n = 0
  · subst hn
    rw [if_pos rfl, run_pure]
    simp [rndup, Xdr.skip, bytes]
  · rw [if_neg hn, bind_of_some hbyt]
    by_cases hpad : rndup n = 0
    · rw [if_pos hpad, hpad, add_zero, run_pure]
    · have hhandy : ¬(s.skip n).x_handy - (rndup n : ℕ) < 0 := by
        simp only [Xdr.skip]
        omega
      have hcrud : (getbytes (rndup n)).run (s.skip n) =
          (some (bytes (s.skip n).mem (s.skip n).x_private (rndup n)), (s.skip n).skip (rndup n)) := by
        rw [run_getbytes, if_neg hhandy]
      rw [if_neg hpad, bind_of_some hcrud, skip_skip, run_pure]

theorem xdrOpaque_of_lt (h : s.x_handy < RNDUP n) (hpos : 0 ≤ s.x_handy) :
    ((xdrOpaque n).run s).1 = none := by
  rw [RNDUP_eq] at h
  have hn : n ≠ 0 := by
    rintro rfl
    simp [rndup] at h
    omega
  rw [xdrOpaque, if_neg hn]
  by_cases hbyt : s.x_handy - n < 0
  · have hrun : (getbytes n).run s = (none, s.short n) := by rw [run_getbytes, if_pos hbyt]
    rw [bind_of_none hrun]
  · have hpad : rndup n ≠ 0 := by
      intro hpad
      rw [hpad] at h
      omega
    have hcrud : (s.skip n).x_handy - (rndup n : ℕ) < 0 := by
      simp only [Xdr.skip]
      omega
    have hrun : (getbytes (rndup n)).run (s.skip n) = (none, (s.skip n).short (rndup n)) := by
      rw [run_getbytes, if_pos hcrud]
    rw [bind_of_some (by rw [run_getbytes, if_neg hbyt]), if_neg hpad, bind_of_none hrun]

/-- Bytes are decoded as they are in the buffer. -/
theorem authBytes_eq (ok : Bool) (n : ℕ) :
    authBytes ok n = (do
      check (n ≤ MAX_AUTH_BYTES)
      xdrOpaque n) := by
  ext1 s
  rw [authBytes]
  by_cases hn : n = 0
  · subst hn
    rw [if_neg (by simp), bind_of_some (check_of (Nat.zero_le _) s)]
    rfl
  · rw [if_pos hn]
    by_cases hmax : n ≤ MAX_AUTH_BYTES
    · rw [bind_of_some (check_of hmax s), bind_of_some (check_of hmax s)]
      cases ok with
      | false => rw [bind_of_some (inline_false _ _)]
      | true =>
        by_cases h : (RNDUP n : ℤ) ≤ s.x_handy
        · rw [bind_of_some (inline_of_le h), xdrOpaque_of_le h]
          rfl
        · rw [bind_of_some (inline_of_lt _ (Int.not_le.1 h))]
    · rw [bind_of_none (check_of_not hmax s), bind_of_none (check_of_not hmax s)]

/-- A credential or verifier is decoded as it is in the buffer. -/
theorem xdrOpaqueAuth_eq (ok ok' : Bool) :
    xdrOpaqueAuth = (do
      let (oa_flavor, oa_length) ← authHeader ok
      let oa_base ← authBytes ok' oa_length.toNat
      return { oa_flavor, oa_base }) := by
  ext1 s
  rw [xdrOpaqueAuth, authHeader_eq, authHeader]
  simp only [authBytes_eq, xdrBytes, run_bind, inline_false]
  rcases xdrEnum.run s with ⟨_ | oa_flavor, s1⟩
  · rfl
  · dsimp only
    rcases xdrUInt.run s1 with ⟨_ | oa_length, s2⟩
    · rfl
    · rfl

/-- How a credential or verifier is read that is accepted. -/
theorem xdrOpaqueAuth_some (ok ok' : Bool) {ap : OpaqueAuth}
    (h : xdrOpaqueAuth.run s = (some ap, s')) :
    ∃ oa_length t, (authHeader ok).run s = (some (ap.oa_flavor, oa_length), t) ∧
      (authBytes ok' oa_length.toNat).run t = (some ap.oa_base, s') := by
  rw [xdrOpaqueAuth_eq ok ok', run_bind] at h
  rcases hhea : (authHeader ok).run s with ⟨_ | ⟨oa_flavor, oa_length⟩, t⟩
  · rw [hhea] at h
    cases h
  · rw [hhea] at h
    dsimp only at h
    rw [run_bind] at h
    rcases hbyt : (authBytes ok' oa_length.toNat).run t with ⟨_ | oa_base, t'⟩
    · rw [hbyt] at h
      cases h
    · rw [hbyt] at h
      obtain ⟨hap, rfl⟩ := Prod.mk.inj h
      cases hap
      exact ⟨oa_length, t, rfl, hbyt⟩

/-- How a credential or verifier is read that is not. -/
theorem xdrOpaqueAuth_none (ok ok' : Bool) (h : (xdrOpaqueAuth.run s).1 = none) :
    ((authHeader ok).run s).1 = none ∨
      ∃ oa_flavor oa_length t, (authHeader ok).run s = (some (oa_flavor, oa_length), t) ∧
        ((authBytes ok' oa_length.toNat).run t).1 = none := by
  rw [xdrOpaqueAuth_eq ok ok', run_bind] at h
  rcases hhea : (authHeader ok).run s with ⟨_ | ⟨oa_flavor, oa_length⟩, t⟩
  · exact .inl rfl
  · rw [hhea] at h
    dsimp only at h
    rw [run_bind] at h
    refine .inr ⟨oa_flavor, oa_length, t, rfl, ?_⟩
    rcases hbyt : (authBytes ok' oa_length.toNat).run t with ⟨_ | oa_base, t'⟩
    · rfl
    · rw [hbyt] at h
      cases h

end Decode

/-- What is decoded, if it is accepted, and how far the stream is then. -/
def accepted (r : Option α × Xdr) : Option (α × ℕ) := r.1.map fun a => (a, r.2.x_private)

namespace Decode

/-- A call is decoded as it is in the buffer. -/
theorem accepted_callmsgInline (ok : ℕ → Bool) (cmsg : RpcMsg ρ) (h : 32 ≤ s.x_handy) :
    accepted ((callmsgInline ok cmsg s.x_private).run (s.skip 32)) =
      accepted ((callmsgGeneric cmsg).run s) := by
  have hget : ∀ n, (ixdrGet n).run (s.skip 32) = (some (ntohl s.mem n), s.skip 32) := fun n => rfl
  have hlong : ∀ n : ℕ, n ≤ 28 →
      getlong.run (s.skip n) = (some (ntohl s.mem (s.x_private + n)), s.skip (n + 4)) := fun n hn =>
    getlong_skip (by omega)
  have hfst := getlong_of_le (s := s) (by omega)
  rw [callmsgInline, callmsgGeneric]
  simp only [run_bind, xdrULong, xdrEnum, hget, hfst, hlong 4 (by omega), run_check]
  by_cases hdir : ntohl s.mem (s.x_private + 4) = CALL
  · simp only [if_pos hdir, hlong 8 (by omega), hget]
    by_cases hvers : ntohl s.mem (s.x_private + 8) = RPC_MSG_VERSION
    · simp only [if_pos hvers, hlong 12 (by omega), hlong 16 (by omega), hlong 20 (by omega)]
      have hcred : xdrOpaqueAuth.run (s.skip 24) =
          (authBytes (ok 1) (ntohl s.mem (s.x_private + 28)).toNat >>= fun oa_base =>
            pure { oa_flavor := ntohl s.mem (s.x_private + 24), oa_base }).run (s.skip 32) := by
        rw [xdrOpaqueAuth]
        simp only [authBytes_eq, xdrBytes, run_bind, xdrEnum, xdrUInt, hlong 24 (by omega),
          hlong 28 (by omega)]
      simp only [hget, hcred, run_bind]
      rcases (authBytes (ok 1) (ntohl s.mem (s.x_private + 28)).toNat).run (s.skip 32) with
        ⟨_ | cred_base, s1⟩
      · rfl
      · simp only [run_pure, xdrOpaqueAuth_eq (ok 2) (ok 3), run_bind]
        rcases (authHeader (ok 2)).run s1 with ⟨_ | ⟨verf_flavor, verf_length⟩, s2⟩
        · rfl
        · dsimp only
          rcases (authBytes (ok 3) verf_length.toNat).run s2 with ⟨_ | verf_base, s3⟩
          · rfl
          · rfl
    · simp only [if_neg hvers]
      rfl
  · simp only [if_neg hdir]
    rfl

/-- A call is decoded the same way whatever `XDR_INLINE` returns. -/
theorem accepted_xdrCallmsg (ok : ℕ → Bool) (cmsg : RpcMsg ρ) (s : Xdr) :
    accepted ((xdrCallmsg ok cmsg).run s) = accepted ((callmsgGeneric cmsg).run s) := by
  rw [xdrCallmsg]
  cases hok : ok 0 with
  | false => rw [bind_of_some (inline_false _ _)]
  | true =>
    by_cases h : ((8 * 4 : ℕ) : ℤ) ≤ s.x_handy
    · rw [bind_of_some (inline_of_le h)]
      exact accepted_callmsgInline ok cmsg h
    · rw [bind_of_some (inline_of_lt _ (Int.not_le.1 h))]

/-- The length of the verifier of a reply, in the stream. -/
def verfLength (s : Xdr) : ℕ := (ntohl s.mem (s.x_private + 16)).toNat

/-- The verifier of a reply is read if it is all there, and no longer than it may be. -/
theorem verf_run (s : Xdr) (h : 12 ≤ s.x_handy) :
    if verfLength s ≤ MAX_AUTH_BYTES ∧ (20 + RNDUP (verfLength s) : ℤ) ≤ s.x_handy then
      ∃ verf, xdrOpaqueAuth.run (s.skip 12) = (some verf, s.skip (20 + RNDUP (verfLength s)))
    else (xdrOpaqueAuth.run (s.skip 12)).1 = none := by
  have hsht : ∀ {t : Xdr}, t.x_handy - 4 < 0 → getlong.run t = (none, t.short 4) := fun ht => by
    rw [run_getlong, if_pos ht]
  rw [xdrOpaqueAuth]
  simp only [xdrBytes, run_bind, xdrEnum, xdrUInt]
  by_cases hfla : (16 : ℤ) ≤ s.x_handy
  · rw [getlong_skip (by omega)]
    dsimp only
    by_cases hlen : (20 : ℤ) ≤ s.x_handy
    · rw [getlong_skip (by omega)]
      simp only [run_check]
      rw [show ntohl s.mem (s.x_private + (12 + 4)) = ntohl s.mem (s.x_private + 16) from rfl]
      by_cases hmax : (ntohl s.mem (s.x_private + 16)).toNat ≤ MAX_AUTH_BYTES
      · rw [if_pos hmax]
        dsimp only
        by_cases hall : (20 + RNDUP (verfLength s) : ℤ) ≤ s.x_handy
        · have hopa := xdrOpaque_of_le (s := s.skip 20) (n := verfLength s)
            (by simp only [Xdr.skip]; omega)
          rw [skip_skip] at hopa
          rw [if_pos ⟨hmax, hall⟩]
          refine ⟨⟨ntohl s.mem (s.x_private + 12), bytes s.mem (s.x_private + 20) (verfLength s)⟩, ?_⟩
          rw [verfLength] at hopa ⊢
          rw [show 12 + 4 + 4 = 20 from rfl, hopa]
          rfl
        · have hopa := xdrOpaque_of_lt (s := s.skip 20) (n := verfLength s)
            (by simp only [Xdr.skip]; omega) (by simp only [Xdr.skip]; omega)
          rw [if_neg fun h => hall h.2]
          rw [verfLength] at hopa
          rw [show 12 + 4 + 4 = 20 from rfl]
          generalize (xdrOpaque (ntohl s.mem (s.x_private + 16)).toNat).run (s.skip 20) = r at hopa ⊢
          obtain ⟨r, t⟩ := r
          obtain rfl : r = none := hopa
          rfl
      · rw [if_neg hmax, if_neg fun h => hmax h.1]
    · rw [hsht (by simp only [Xdr.skip]; omega), if_neg (by omega)]
  · rw [hsht (by simp only [Xdr.skip]; omega), if_neg (by omega)]

/-- The stream begins with an accepted reply, and ends before `ar_stat`. -/
def CutAtStat (s : Xdr) : Prop :=
  ntohl s.mem (s.x_private + 4) = REPLY ∧ ntohl s.mem (s.x_private + 8) = MSG_ACCEPTED ∧
    verfLength s ≤ MAX_AUTH_BYTES ∧ (20 + RNDUP (verfLength s) : ℤ) ≤ s.x_handy ∧
    s.x_handy < 24 + RNDUP (verfLength s)

/-- The status that was in the message before is one of success, and the routine for the results
    accepts what is left of the stream, or one that nothing comes after. -/
def StaleAccepted (proc : ρ → Codec ρ) (ar : AcceptedReply ρ) (s : Xdr) : Prop :=
  ar.ar_stat = SUCCESS ∧
      ((proc ar.ar_results).run ((s.skip (20 + RNDUP (verfLength s))).short 4)).1.isSome ∨
    ar.ar_stat ≠ SUCCESS ∧ ar.ar_stat ≠ PROG_MISMATCH

/-- A reply is decoded as it is in the buffer, unless the stream ends before `ar_stat`; then it is
    accepted if the old status is. -/
theorem accepted_replymsgInline (ok : ℕ → Bool) (proc : ρ → Codec ρ) (rmsg : RpcMsg ρ)
    (h : 12 ≤ s.x_handy) :
    (¬CutAtStat s → accepted ((replymsgInline ok proc rmsg s.x_private).run (s.skip 12)) =
      accepted ((replymsgGeneric proc rmsg).run s)) ∧
    (CutAtStat s → accepted ((replymsgGeneric proc rmsg).run s) = none ∧
      ((accepted ((replymsgInline ok proc rmsg s.x_private).run (s.skip 12))).isSome ↔
        StaleAccepted proc rmsg.rp_acpt s)) := by
  have hget : ∀ n, (ixdrGet n).run (s.skip 12) = (some (ntohl s.mem n), s.skip 12) := fun n => rfl
  have hlong : ∀ n : ℕ, n ≤ 8 →
      getlong.run (s.skip n) = (some (ntohl s.mem (s.x_private + n)), s.skip (n + 4)) := fun n hn =>
    getlong_skip (by omega)
  have hfst := getlong_of_le (s := s) (by omega)
  rw [replymsgInline, replymsgGeneric]
  simp only [run_bind, xdrULong, xdrEnum, hget, hfst, hlong 4 (by omega), run_check]
  by_cases hdir : ntohl s.mem (s.x_private + 4) = REPLY
  · simp only [if_pos hdir, hlong 8 (by omega), hget]
    by_cases hstat : ntohl s.mem (s.x_private + 8) = MSG_ACCEPTED
    · rw [if_neg (not_not.2 hstat), if_pos hstat]
      have hverf := verf_run s h
      simp only [xdrAcceptedReply, run_bind]
      split_ifs at hverf with hlen
      · obtain ⟨verf, hrun⟩ := hverf
        obtain ⟨oa_length, t, hhea, hbyt⟩ := xdrOpaqueAuth_some (ok 1) (ok 2) hrun
        simp only [hrun, hhea, hbyt, xdrEnumOr, xdrEnum]
        by_cases hcut : s.x_handy < 24 + RNDUP (verfLength s)
        · have hsht : getlong.run (s.skip (20 + RNDUP (verfLength s))) =
              (none, (s.skip (20 + RNDUP (verfLength s))).short 4) := by
            rw [run_getlong, if_pos (by simp only [Xdr.skip]; omega)]
          have hagn : getlong.run ((s.skip (20 + RNDUP (verfLength s))).short 4) =
              (none, ((s.skip (20 + RNDUP (verfLength s))).short 4).short 4) := by
            rw [run_getlong, if_pos (by simp only [Xdr.skip, Xdr.short]; omega)]
          have hyes : CutAtStat s := ⟨hdir, hstat, hlen.1, hlen.2, hcut⟩
          refine ⟨fun h => absurd hyes h, fun _ => ⟨by rw [hsht]; rfl, ?_⟩⟩
          rw [hsht, StaleAccepted]
          dsimp only [getD_none]
          rw [arResults]
          dsimp only
          by_cases hsuc : rmsg.rp_acpt.ar_stat = SUCCESS
          · simp only [hsuc, if_true, run_bind]
            rcases (proc rmsg.rp_acpt.ar_results).run ((s.skip (20 + RNDUP (verfLength s))).short 4)
              with ⟨_ | r, t⟩
            · simp [accepted]
            · simp [accepted, run_pure]
          · rw [if_neg hsuc]
            by_cases hmis : rmsg.rp_acpt.ar_stat = PROG_MISMATCH
            · simp [hmis, run_bind, xdrULong, hagn, accepted, SUCCESS, PROG_MISMATCH]
            · simp [hsuc, hmis, accepted, run_pure]
        · have hnot : ¬CutAtStat s := fun h => hcut h.2.2.2.2
          refine ⟨fun _ => ?_, fun h => absurd h hnot⟩
          rw [getlong_skip (by push_cast; omega)]
          rfl
      · have hcut : ¬CutAtStat s := fun hcut => hlen ⟨hcut.2.2.1, hcut.2.2.2.1⟩
        refine ⟨fun _ => ?_, fun h => absurd h hcut⟩
        rcases hgen : xdrOpaqueAuth.run (s.skip 12) with ⟨_ | verf, t⟩
        · rw [hgen] at hverf
          have hnone : (xdrOpaqueAuth.run (s.skip 12)).1 = none := by rw [hgen]
          rcases xdrOpaqueAuth_none (ok 1) (ok 2) hnone with
            hhea | ⟨oa_flavor, oa_length, t', hhea, hbyt⟩
          · generalize (authHeader (ok 1)).run (s.skip 12) = r at hhea ⊢
            obtain ⟨r, t'⟩ := r
            obtain rfl : r = none := hhea
            rfl
          · rw [hhea]
            dsimp only
            generalize (authBytes (ok 2) oa_length.toNat).run t' = r at hbyt ⊢
            obtain ⟨r, t'⟩ := r
            obtain rfl : r = none := hbyt
            rfl
        · rw [hgen] at hverf
          cases hverf
    · have hcut : ¬CutAtStat s := fun hcut => hstat hcut.2.1
      refine ⟨fun _ => ?_, fun h => absurd h hcut⟩
      rw [if_pos hstat, if_neg hstat]
  · have hcut : ¬CutAtStat s := fun hcut => hdir hcut.1
    refine ⟨fun _ => ?_, fun h => absurd h hcut⟩
    simp only [if_neg hdir]
    rfl

/-- A reply is decoded the same way whatever `XDR_INLINE` returns, unless the stream ends before
    `ar_stat` and the old status is accepted. -/
theorem accepted_xdrReplymsg_iff (proc : ρ → Codec ρ) (rmsg : RpcMsg ρ) (s : Xdr) :
    (∀ ok ok', accepted ((xdrReplymsg ok proc rmsg).run s) =
      accepted ((xdrReplymsg ok' proc rmsg).run s)) ↔
        ¬(CutAtStat s ∧ StaleAccepted proc rmsg.rp_acpt s) := by
  have hgen : ∀ ok : ℕ → Bool, ok 0 = false ∨ s.x_handy < 12 →
      (xdrReplymsg ok proc rmsg).run s = (replymsgGeneric proc rmsg).run s := by
    intro ok h
    rw [xdrReplymsg]
    rcases h with hok | hlt
    · rw [hok, bind_of_some (inline_false _ _)]
    · rw [bind_of_some (inline_of_lt _ (by omega))]
  have hinl : ∀ ok : ℕ → Bool, ok 0 = true → 12 ≤ s.x_handy →
      (xdrReplymsg ok proc rmsg).run s = (replymsgInline ok proc rmsg s.x_private).run (s.skip 12) := by
    intro ok hok hle
    rw [xdrReplymsg, hok, bind_of_some (inline_of_le (by omega))]
  constructor
  · rintro h ⟨hcut, hstale⟩
    have hle : 12 ≤ s.x_handy := by
      have := hcut.2.2.2.1
      omega
    obtain ⟨hnone, hiff⟩ := (accepted_replymsgInline (fun _ => true) proc rmsg hle).2 hcut
    have hsome := hiff.2 hstale
    rw [← hinl _ rfl hle, h (fun _ => true) (fun _ => false), hgen _ (.inl rfl), hnone] at hsome
    cases hsome
  · intro h
    have hall : ∀ ok, accepted ((xdrReplymsg ok proc rmsg).run s) =
        accepted ((replymsgGeneric proc rmsg).run s) := by
      intro ok
      by_cases hin : ok 0 = true ∧ 12 ≤ s.x_handy
      · rw [hinl ok hin.1 hin.2]
        obtain ⟨hwhl, hcut⟩ := accepted_replymsgInline ok proc rmsg hin.2
        by_cases hc : CutAtStat s
        · obtain ⟨hnone, hiff⟩ := hcut hc
          rw [hnone]
          exact not_isSome_iff_eq_none.1 fun hsome => h ⟨hc, hiff.1 hsome⟩
        · exact hwhl hc
      · rw [hgen ok]
        rcases not_and_or.1 hin with hok | hlt
        · exact .inl (by simpa using hok)
        · exact .inr (by omega)
    intro ok ok'
    rw [hall, hall]

end Decode

/-! ### Encoding -/

namespace Encode

/-- The stream after some bytes are written. -/
def put (s : Xdr) (l : List UInt8) : Xdr :=
  { s with mem := store s.mem s.x_private l }.skip l.length

/-- A routine writes some bytes, if there is room for them. -/
def Puts (p : Codec Unit) (l : List UInt8) : Prop :=
  ∀ s : Xdr, (l.length : ℤ) ≤ s.x_handy → p.run s = (some (), put s l)

variable (s : Xdr)

theorem put_put (l l' : List UInt8) : put (put s l) l' = put s (l ++ l') := by
  simp only [put, Xdr.skip, store_append, length_append, add_assoc]
  congr 1
  push_cast
  omega

theorem Puts.bind {p q : Codec Unit} {l l' : List UInt8} (hp : Puts p l) (hq : Puts q l') :
    Puts (p >>= fun _ => q) (l ++ l') := by
  intro s hs
  rw [length_append] at hs
  rw [bind_of_some (hp s (by omega)), hq _ (by simp only [put, Xdr.skip]; omega), put_put]

theorem Puts.check {c : Prop} [Decidable c] {q : Codec Unit} {l : List UInt8} (hc : c)
    (hq : Puts q l) : Puts (check c >>= fun _ => q) l := by
  intro s hs
  rw [bind_of_some (check_of hc s), hq s hs]

theorem puts_putbytes (l : List UInt8) : Puts (putbytes l) l := by
  intro s hs
  rw [run_putbytes, if_neg (by omega)]
  rfl

/-- What a routine returns, what it wrote, and how far the stream is then. -/
def encoded (s : Xdr) (r : Option Unit × Xdr) : Bool × List UInt8 × ℕ :=
  (r.1.isSome, bytes r.2.mem s.x_private (r.2.x_private - s.x_private), r.2.x_private)

theorem encoded_put (l : List UInt8) :
    encoded s (some (), put s l) = (true, l, s.x_private + l.length) := by
  simp only [encoded, put, Xdr.skip, Nat.add_sub_cancel_left, bytes_store, isSome_some]

theorem length_htonl (v : BitVec 32) : (htonl v).length = 4 := by
  rw [htonl, length_reverse, length_encode]

theorem puts_nil : Puts (pure ()) [] := by
  intro s _
  rw [run_pure, put]
  simp [Xdr.skip, store_nil]

theorem puts_xdrOpaque (l : List UInt8) :
    Puts (xdrOpaque l) (l ++ replicate (rndup l.length) 0) := by
  rw [xdrOpaque]
  split_ifs with hl hpad
  · obtain rfl := eq_nil_of_length_eq_zero hl
    exact puts_nil
  · rw [hpad]
    exact (puts_putbytes l).bind puts_nil
  · exact (puts_putbytes l).bind (puts_putbytes _)

/-- The bytes of a credential or verifier in a message; `pad` fills the last unit up. -/
def authData (ap : OpaqueAuth) (pad : List UInt8) : List UInt8 :=
  htonl ap.oa_flavor ++ (htonl (.ofNat 32 ap.oa_length) ++ (ap.oa_base ++ pad))

theorem puts_xdrOpaqueAuth (ap : OpaqueAuth) (h : ap.oa_length ≤ MAX_AUTH_BYTES) :
    Puts (xdrOpaqueAuth ap) (authData ap (replicate (rndup ap.oa_length) 0)) :=
  (puts_putbytes _).bind ((puts_putbytes _).bind (Puts.check h (puts_xdrOpaque _)))

/-! #### Calls -/

/-- A call in a message. -/
def callData (cmsg : RpcMsg ρ) (pad pad' : List UInt8) : List UInt8 :=
  htonl cmsg.rm_xid ++ (htonl cmsg.rm_direction ++ (htonl cmsg.rm_call.cb_rpcvers ++
    (htonl cmsg.rm_call.cb_prog ++ (htonl cmsg.rm_call.cb_vers ++ (htonl cmsg.rm_call.cb_proc ++
      (authData cmsg.rm_call.cb_cred pad ++ authData cmsg.rm_call.cb_verf pad'))))))

theorem puts_callmsgGeneric (cmsg : RpcMsg ρ) (hdir : cmsg.rm_direction = CALL)
    (hvers : cmsg.rm_call.cb_rpcvers = RPC_MSG_VERSION)
    (hcred : cmsg.rm_call.cb_cred.oa_length ≤ MAX_AUTH_BYTES)
    (hverf : cmsg.rm_call.cb_verf.oa_length ≤ MAX_AUTH_BYTES) :
    Puts (callmsgGeneric cmsg) (callData cmsg
      (replicate (rndup cmsg.rm_call.cb_cred.oa_length) 0)
      (replicate (rndup cmsg.rm_call.cb_verf.oa_length) 0)) :=
  (puts_putbytes _).bind ((puts_putbytes _).bind (Puts.check hdir
    ((puts_putbytes _).bind (Puts.check hvers ((puts_putbytes _).bind ((puts_putbytes _).bind
      ((puts_putbytes _).bind ((puts_xdrOpaqueAuth _ hcred).bind (puts_xdrOpaqueAuth _ hverf)))))))))

/-- The stream after a buffer of `n` bytes is taken and its first bytes are filled. -/
def filled (s : Xdr) (n : ℕ) (l : List UInt8) : Xdr :=
  { s.skip n with mem := store s.mem s.x_private l }

/-- The bytes of the memory that fill `cnt` others up to a unit, `n` bytes on. -/
def gap (s : Xdr) (n cnt : ℕ) : List UInt8 := bytes s.mem (s.x_private + n) (rndup cnt)

theorem filled_nil (n : ℕ) : filled s n [] = s.skip n := by
  rw [filled, store_nil]
  rfl

theorem ixdrPut_filled (n : ℕ) (l : List UInt8) (v : BitVec 32) :
    (ixdrPut (s.x_private + l.length) v).run (filled s n l) =
      (some (s.x_private + (l ++ htonl v).length), filled s n (l ++ htonl v)) := by
  have hrun : (bcopyTo (s.x_private + l.length) (htonl v)).run (filled s n l) =
      (some (), filled s n (l ++ htonl v)) := by
    simp only [bcopyTo, filled, store_append]
  rw [ixdrPut, bind_of_some hrun, run_pure, length_append, length_htonl, add_assoc]

/-- The bytes of a credential or verifier are put into the buffer; what fills them up stays as it
    was. -/
theorem putBase_filled (n : ℕ) (l : List UInt8) (oa : OpaqueAuth) :
    (putBase (s.x_private + l.length) oa).run (filled s n l) =
      (some (s.x_private + (l ++ (oa.oa_base ++ gap s (l.length + oa.oa_length) oa.oa_length)).length),
        filled s n (l ++ (oa.oa_base ++ gap s (l.length + oa.oa_length) oa.oa_length))) := by
  have hlen : (oa.oa_base ++ gap s (l.length + oa.oa_length) oa.oa_length).length =
      RNDUP oa.oa_length := by
    rw [length_append, gap, length_bytes, RNDUP_eq, OpaqueAuth.oa_length]
  rw [putBase]
  by_cases hbase : oa.oa_length = 0
  · have hnil := eq_nil_of_length_eq_zero (hlen.trans (by rw [hbase]; rfl))
    rw [if_neg (not_not.2 hbase), hnil, append_nil, run_pure]
  · have hsame : store s.mem s.x_private (l ++ oa.oa_base) = store s.mem s.x_private
        (l ++ (oa.oa_base ++ gap s (l.length + oa.oa_length) oa.oa_length)) := by
      have hgap := store_gap s.mem s.x_private (rndup oa.oa_length) (l ++ oa.oa_base)
      rwa [append_assoc, length_append] at hgap
    have hrun : (bcopyTo (s.x_private + l.length) oa.oa_base).run (filled s n l) = (some (),
        filled s n (l ++ (oa.oa_base ++ gap s (l.length + oa.oa_length) oa.oa_length))) := by
      simp only [bcopyTo, filled, store_append, hsame]
    rw [if_pos hbase, bind_of_some hrun, run_pure, length_append, hlen, add_assoc]

/-- How long the buffer for a call is. -/
def callLength (cmsg : RpcMsg ρ) : ℕ :=
  8 * 4 + RNDUP cmsg.rm_call.cb_cred.oa_length + 2 * 4 + RNDUP cmsg.rm_call.cb_verf.oa_length

/-- A call in a buffer, where the bytes that fill a unit up stay as they were. -/
def callBuffer (s : Xdr) (cmsg : RpcMsg ρ) : List UInt8 :=
  callData cmsg (gap s (32 + cmsg.rm_call.cb_cred.oa_length) cmsg.rm_call.cb_cred.oa_length)
    (gap s (40 + RNDUP cmsg.rm_call.cb_cred.oa_length + cmsg.rm_call.cb_verf.oa_length)
      cmsg.rm_call.cb_verf.oa_length)

theorem callmsgInline_eq (cmsg : RpcMsg ρ) (hdir : cmsg.rm_direction = CALL)
    (hvers : cmsg.rm_call.cb_rpcvers = RPC_MSG_VERSION) (n : ℕ) :
    (callmsgInline cmsg s.x_private).run (s.skip n) = (some (), filled s n (callBuffer s cmsg)) := by
  have hgap : ∀ n cnt, (gap s n cnt).length = rndup cnt := fun n cnt => length_bytes _ _ _
  have hfst : (ixdrPut s.x_private cmsg.rm_xid).run (filled s n []) =
      (some (s.x_private + (htonl cmsg.rm_xid).length), filled s n (htonl cmsg.rm_xid)) :=
    ixdrPut_filled s n [] _
  rw [← filled_nil, callmsgInline]
  rw [bind_of_some hfst, bind_of_some (ixdrPut_filled s n _ _),
    bind_of_some (check_of hdir _), bind_of_some (ixdrPut_filled s n _ _),
    bind_of_some (check_of hvers _), bind_of_some (ixdrPut_filled s n _ _),
    bind_of_some (ixdrPut_filled s n _ _), bind_of_some (ixdrPut_filled s n _ _)]
  dsimp only
  rw [bind_of_some (ixdrPut_filled s n _ _), bind_of_some (ixdrPut_filled s n _ _),
    bind_of_some (putBase_filled s n _ _), bind_of_some (ixdrPut_filled s n _ _),
    bind_of_some (ixdrPut_filled s n _ _), bind_of_some (putBase_filled s n _ _), run_pure]
  simp only [length_append, length_htonl, hgap, callBuffer, callData, authData, append_assoc,
    RNDUP_eq, OpaqueAuth.oa_length]
  have hoff : ∀ c k : ℕ, 4 + (4 + (4 + (4 + (4 + (4 + (4 + (4 + (c + (k + (4 + 4)))))))))) =
      40 + (c + k) := fun c k => by omega
  rw [hoff]

theorem filled_length (l : List UInt8) : filled s l.length l = put s l := rfl

theorem length_callData (cmsg : RpcMsg ρ) (pad pad' : List UInt8)
    (hpad : pad.length = rndup cmsg.rm_call.cb_cred.oa_length)
    (hpad' : pad'.length = rndup cmsg.rm_call.cb_verf.oa_length) :
    (callData cmsg pad pad').length = callLength cmsg := by
  simp only [callData, authData, length_append, length_htonl, hpad, hpad', callLength, RNDUP_eq,
    OpaqueAuth.oa_length]
  omega

theorem callData_inj {cmsg : RpcMsg ρ} {pad1 pad1' pad2 pad2' : List UInt8}
    (hlen : pad1.length = pad2.length) :
    callData cmsg pad1 pad1' = callData cmsg pad2 pad2' ↔ pad1 = pad2 ∧ pad1' = pad2' := by
  refine ⟨fun h => ?_, fun ⟨h, h'⟩ => by rw [h, h']⟩
  simp only [callData, authData, append_assoc, append_cancel_left_eq] at h
  obtain ⟨hcred, hverf⟩ := append_inj h hlen
  simp only [append_cancel_left_eq] at hverf
  exact ⟨hcred, hverf⟩

/-- The bytes that fill `cnt` others up to a unit, `n` bytes on, are zero. -/
def Clear (s : Xdr) (n cnt : ℕ) : Prop := gap s n cnt = replicate (rndup cnt) 0

/-- A call of another version is not written, and how much of it there is depends on the way. -/
theorem xdrCallmsg_of_ne (cmsg : RpcMsg ρ) (hdir : cmsg.rm_direction = CALL)
    (hvers : cmsg.rm_call.cb_rpcvers ≠ RPC_MSG_VERSION) (h : 12 ≤ s.x_handy) (n : ℕ) :
    ((callmsgInline cmsg s.x_private).run (s.skip n)).2.x_private = s.x_private + n ∧
      ((callmsgGeneric cmsg).run s).2.x_private = s.x_private + 12 := by
  have hfst : (ixdrPut s.x_private cmsg.rm_xid).run (filled s n []) =
      (some (s.x_private + (htonl cmsg.rm_xid).length), filled s n (htonl cmsg.rm_xid)) :=
    ixdrPut_filled s n [] _
  constructor
  · rw [← filled_nil, callmsgInline, bind_of_some hfst, bind_of_some (ixdrPut_filled s n _ _),
      bind_of_some (check_of hdir _), bind_of_some (ixdrPut_filled s n _ _),
      bind_of_none (check_of_not hvers _)]
    rfl
  · have hput : ∀ (t : Xdr) (v : BitVec 32), 4 ≤ t.x_handy →
        (putlong v).run t = (some (), put t (htonl v)) := fun t v ht =>
      puts_putbytes _ t (by rw [length_htonl]; omega)
    rw [callmsgGeneric, xdrULong, xdrEnum, bind_of_some (hput _ _ (by omega)),
      bind_of_some (hput _ _ (by simp only [put, Xdr.skip, length_htonl]; omega)),
      bind_of_some (check_of hdir _), xdrULong,
      bind_of_some (hput _ _ (by simp only [put, Xdr.skip, length_htonl]; omega)),
      bind_of_none (check_of_not hvers _)]
    simp only [put, Xdr.skip, length_htonl]

/-- A call is encoded the same way whatever `XDR_INLINE` returns, if there is no room for a buffer,
    or what fills the credential and the verifier up is zero already. -/
theorem encoded_xdrCallmsg_iff (cmsg : RpcMsg ρ) (hdir : cmsg.rm_direction = CALL)
    (hcred : cmsg.rm_call.cb_cred.oa_length ≤ MAX_AUTH_BYTES)
    (hverf : cmsg.rm_call.cb_verf.oa_length ≤ MAX_AUTH_BYTES) :
    (∀ ok ok', encoded s ((xdrCallmsg ok cmsg).run s) = encoded s ((xdrCallmsg ok' cmsg).run s)) ↔
      s.x_handy < callLength cmsg ∨ cmsg.rm_call.cb_rpcvers = RPC_MSG_VERSION ∧
        Clear s (32 + cmsg.rm_call.cb_cred.oa_length) cmsg.rm_call.cb_cred.oa_length ∧
        Clear s (40 + RNDUP cmsg.rm_call.cb_cred.oa_length + cmsg.rm_call.cb_verf.oa_length)
          cmsg.rm_call.cb_verf.oa_length := by
  have hrun : ∀ ok, (xdrCallmsg ok cmsg).run s =
      if ok 0 = true ∧ (callLength cmsg : ℤ) ≤ s.x_handy then
        (callmsgInline cmsg s.x_private).run (s.skip (callLength cmsg))
      else (callmsgGeneric cmsg).run s := by
    intro ok
    rw [xdrCallmsg, bind_of_some (check_of hcred s), bind_of_some (check_of hverf s)]
    exact run_inline_bind (ok 0) (callLength cmsg) s
  simp only [hrun]
  by_cases hroom : s.x_handy < callLength cmsg
  · refine ⟨fun _ => .inl hroom, fun _ ok ok' => ?_⟩
    rw [if_neg (by omega), if_neg (by omega)]
  · have hlen : 40 ≤ callLength cmsg := by
      rw [callLength]
      omega
    rw [or_iff_right hroom, agree_iff (Int.not_lt.1 hroom)]
    by_cases hvers : cmsg.rm_call.cb_rpcvers = RPC_MSG_VERSION
    · have hgen := puts_callmsgGeneric cmsg hdir hvers hcred hverf
      have hbuf : (callBuffer s cmsg).length = callLength cmsg :=
        length_callData _ _ _ (length_bytes _ _ _) (length_bytes _ _ _)
      have hdata := length_callData cmsg (replicate (rndup cmsg.rm_call.cb_cred.oa_length) 0)
        (replicate (rndup cmsg.rm_call.cb_verf.oa_length) 0) (length_replicate)
        (length_replicate)
      rw [callmsgInline_eq s cmsg hdir hvers, hgen s (by rw [hdata]; omega), ← hbuf,
        filled_length, encoded_put, encoded_put, hbuf, hdata]
      simp only [Prod.mk.injEq, true_and, and_true, hvers]
      exact callData_inj (by rw [gap, length_bytes, length_replicate])
    · refine ⟨fun h => ?_, fun h => absurd h.1 hvers⟩
      obtain ⟨hinl, hgen⟩ := xdrCallmsg_of_ne s cmsg hdir hvers (by omega)
        (callLength cmsg)
      have hposi := congrArg (fun r => r.2.2) h
      simp only [encoded, hinl, hgen] at hposi
      omega

/-! #### Replies -/

/-- An accepted reply in a message, up to `ar_stat`. -/
def replyData (rmsg : RpcMsg ρ) (pad : List UInt8) : List UInt8 :=
  htonl rmsg.rm_xid ++ (htonl rmsg.rm_direction ++ (htonl rmsg.rp_stat ++
    authData rmsg.rp_acpt.ar_verf pad))

theorem length_replyData (rmsg : RpcMsg ρ) (pad : List UInt8)
    (hpad : pad.length = rndup rmsg.rp_acpt.ar_verf.oa_length) :
    (replyData rmsg pad).length = 20 + RNDUP rmsg.rp_acpt.ar_verf.oa_length := by
  simp only [replyData, authData, length_append, length_htonl, hpad, RNDUP_eq, OpaqueAuth.oa_length]
  omega

theorem replymsgInline_eq (proc : ρ → Codec ρ) (rmsg : RpcMsg ρ) (n : ℕ) :
    (replymsgInline proc rmsg s.x_private).run (s.skip n) =
      (arResults proc rmsg.rp_acpt).run (filled s n (replyData rmsg
        (gap s (20 + rmsg.rp_acpt.ar_verf.oa_length) rmsg.rp_acpt.ar_verf.oa_length) ++
          htonl rmsg.rp_acpt.ar_stat)) := by
  have hfst : (ixdrPut s.x_private rmsg.rm_xid).run (filled s n []) =
      (some (s.x_private + (htonl rmsg.rm_xid).length), filled s n (htonl rmsg.rm_xid)) :=
    ixdrPut_filled s n [] _
  rw [← filled_nil, replymsgInline, bind_of_some hfst, bind_of_some (ixdrPut_filled s n _ _),
    bind_of_some (ixdrPut_filled s n _ _)]
  dsimp only
  rw [bind_of_some (ixdrPut_filled s n _ _), bind_of_some (ixdrPut_filled s n _ _),
    bind_of_some (putBase_filled s n _ _), bind_of_some (ixdrPut_filled s n _ _)]
  simp only [length_append, length_htonl, replyData, authData, append_assoc]

theorem replymsgGeneric_eq (proc : ρ → Codec ρ) (rmsg : RpcMsg ρ)
    (hdir : rmsg.rm_direction = REPLY) (hstat : rmsg.rp_stat = MSG_ACCEPTED)
    (hverf : rmsg.rp_acpt.ar_verf.oa_length ≤ MAX_AUTH_BYTES)
    (h : 20 + RNDUP rmsg.rp_acpt.ar_verf.oa_length ≤ s.x_handy) :
    (replymsgGeneric proc rmsg).run s =
      (xdrEnum rmsg.rp_acpt.ar_stat >>= fun _ => arResults proc rmsg.rp_acpt).run
        (put s (replyData rmsg (replicate (rndup rmsg.rp_acpt.ar_verf.oa_length) 0))) := by
  have hput : ∀ (t : Xdr) (v : BitVec 32), 4 ≤ t.x_handy →
      (putlong v).run t = (some (), put t (htonl v)) := fun t v ht =>
    puts_putbytes _ t (by rw [length_htonl]; omega)
  have hauth := puts_xdrOpaqueAuth _ hverf
  have hlen : (authData rmsg.rp_acpt.ar_verf
      (replicate (rndup rmsg.rp_acpt.ar_verf.oa_length) 0)).length =
        8 + RNDUP rmsg.rp_acpt.ar_verf.oa_length := by
    simp only [authData, length_append, length_htonl, length_replicate, RNDUP_eq,
      OpaqueAuth.oa_length]
    omega
  rw [replymsgGeneric, xdrULong, xdrEnum, bind_of_some (hput _ _ (by omega)),
    bind_of_some (hput _ _ (by simp only [put, Xdr.skip, length_htonl]; omega)),
    bind_of_some (check_of hdir _), xdrEnum,
    bind_of_some (hput _ _ (by simp only [put, Xdr.skip, length_htonl]; omega)), if_pos hstat,
    xdrAcceptedReply, bind_of_some (hauth _ (by
      rw [hlen]
      simp only [put, Xdr.skip, length_htonl]
      omega))]
  simp only [put_put, replyData, append_assoc]

/-- A routine moves the stream by whole units. -/
def Units (p : Codec α) : Prop := ∀ s, (p.run s).2.x_private % 4 = s.x_private % 4

theorem Units.bind (hp : Units p) (hf : ∀ a, Units (f a)) : Units (p >>= f) := by
  intro s
  have hfst := hp s
  rw [run_bind]
  generalize p.run s = r at hfst ⊢
  rcases r with ⟨_ | a, t⟩
  · exact hfst
  · exact (hf a t).trans hfst

theorem units_pure (a : α) : Units (pure a) := fun _ => rfl

theorem units_putlong (v : BitVec 32) : Units (putlong v) := by
  intro s
  rw [putlong, run_putbytes]
  split_ifs
  · rfl
  · simp only [Xdr.skip, length_htonl]
    omega

theorem units_arResults (ar : AcceptedReply ρ) : Units (arResults pure ar) := by
  rw [arResults]
  split_ifs
  · exact (units_pure _).bind fun _ => units_pure _
  · exact (units_putlong _).bind fun _ => units_putlong _
  · exact units_pure _

/-- A reply is encoded the same way whatever `XDR_INLINE` returns and the results are, if there is
    no room for a buffer, or nothing fills the verifier up. -/
theorem encoded_xdrReplymsg_iff (rmsg : RpcMsg ρ) (hdir : rmsg.rm_direction = REPLY)
    (hstat : rmsg.rp_stat = MSG_ACCEPTED)
    (hverf : rmsg.rp_acpt.ar_verf.oa_length ≤ MAX_AUTH_BYTES) :
    (∀ (proc : ρ → Codec ρ) (ok ok' : ℕ → Bool),
      encoded s ((xdrReplymsg ok proc rmsg).run s) = encoded s ((xdrReplymsg ok' proc rmsg).run s)) ↔
        s.x_handy < 24 + rmsg.rp_acpt.ar_verf.oa_length ∨
          rmsg.rp_acpt.ar_verf.oa_length % 4 = 0 := by
  have hrun : ∀ (proc : ρ → Codec ρ) (ok : ℕ → Bool), (xdrReplymsg ok proc rmsg).run s =
      if ok 0 = true ∧ ((6 * 4 + rmsg.rp_acpt.ar_verf.oa_length : ℕ) : ℤ) ≤ s.x_handy then
        (replymsgInline proc rmsg s.x_private).run (s.skip (6 * 4 + rmsg.rp_acpt.ar_verf.oa_length))
      else (replymsgGeneric proc rmsg).run s := by
    intro proc ok
    rw [xdrReplymsg, if_pos ⟨hstat, hdir⟩]
    exact run_inline_bind (ok 0) _ s
  simp only [hrun]
  by_cases hroom : s.x_handy < 24 + rmsg.rp_acpt.ar_verf.oa_length
  · refine ⟨fun _ => .inl hroom, fun _ proc ok ok' => ?_⟩
    rw [if_neg (by omega), if_neg (by omega)]
  · have hle : ((6 * 4 + rmsg.rp_acpt.ar_verf.oa_length : ℕ) : ℤ) ≤ s.x_handy := by
      push_cast
      omega
    have hpad := rndup_lt rmsg.rp_acpt.ar_verf.oa_length
    have hrnd := RNDUP_eq rmsg.rp_acpt.ar_verf.oa_length
    rw [or_iff_right hroom, ← rndup_eq_zero]
    have hgen := fun proc => replymsgGeneric_eq s proc rmsg hdir hstat hverf (by omega)
    have hdata := length_replyData rmsg
      (replicate (rndup rmsg.rp_acpt.ar_verf.oa_length) 0) length_replicate
    constructor
    · intro h
      have hboth := (agree_iff hle).1 (h pure)
      rw [hgen, replymsgInline_eq] at hboth
      have hposi := congrArg (fun r => r.2.2 % 4) hboth
      have hstat := (units_putlong rmsg.rp_acpt.ar_stat).bind fun _ => units_arResults rmsg.rp_acpt
      simp only [encoded, units_arResults rmsg.rp_acpt _] at hposi
      rw [xdrEnum, hstat] at hposi
      simp only [filled, put, Xdr.skip, hdata] at hposi
      have hunits : RNDUP rmsg.rp_acpt.ar_verf.oa_length % 4 = 0 := Nat.mul_mod_left _ _
      rw [rndup_eq_zero]
      omega
    · intro h proc
      rw [agree_iff hle, hgen, replymsgInline_eq]
      have hgap : gap s (20 + rmsg.rp_acpt.ar_verf.oa_length) rmsg.rp_acpt.ar_verf.oa_length =
          replicate (rndup rmsg.rp_acpt.ar_verf.oa_length) 0 := by
        rw [gap, h]
        rfl
      have hlen : 6 * 4 + rmsg.rp_acpt.ar_verf.oa_length = (replyData rmsg
          (replicate (rndup rmsg.rp_acpt.ar_verf.oa_length) 0) ++
            htonl rmsg.rp_acpt.ar_stat).length := by
        rw [length_append, hdata, length_htonl]
        omega
      have hput : (xdrEnum rmsg.rp_acpt.ar_stat).run (put s (replyData rmsg
          (replicate (rndup rmsg.rp_acpt.ar_verf.oa_length) 0))) = (some (), put (put s
            (replyData rmsg (replicate (rndup rmsg.rp_acpt.ar_verf.oa_length) 0)))
              (htonl rmsg.rp_acpt.ar_stat)) :=
        puts_putbytes _ _ (by
          simp only [put, Xdr.skip, hdata, length_htonl]
          omega)
      rw [bind_of_some hput, put_put, hgap, hlen, filled_length]

end Encode

/-! ### Both ways -/

/-- A message to be encoded or decoded. -/
inductive Message (ρ : Type)
  | encodeCall (cmsg : RpcMsg ρ)
  | encodeReply (rmsg : RpcMsg ρ)
  | decodeCall (cmsg : RpcMsg ρ)
  | decodeReply (proc : ρ → Codec ρ) (rmsg : RpcMsg ρ)

/-- What is encoded is a call or an accepted reply, and what is in it is no longer than it may
    be. -/
def Message.WellFormed : Message ρ → Prop
  | .encodeCall cmsg => cmsg.rm_direction = CALL ∧ cmsg.rm_call.cb_cred.oa_length ≤ MAX_AUTH_BYTES ∧
        cmsg.rm_call.cb_verf.oa_length ≤ MAX_AUTH_BYTES
  | .encodeReply rmsg => rmsg.rm_direction = REPLY ∧ rmsg.rp_stat = MSG_ACCEPTED ∧
      rmsg.rp_acpt.ar_verf.oa_length ≤ MAX_AUTH_BYTES
  | .decodeCall _ => True
  | .decodeReply _ _ => True

/-- The same comes of it on a stream whatever `XDR_INLINE` returns. -/
def Message.Agrees (s : Xdr) : Message ρ → Prop
  | .encodeCall cmsg => ∀ ok ok', Encode.encoded s ((Encode.xdrCallmsg ok cmsg).run s) =
      Encode.encoded s ((Encode.xdrCallmsg ok' cmsg).run s)
  | .encodeReply rmsg => ∀ (proc : ρ → Codec ρ) (ok ok' : ℕ → Bool),
      Encode.encoded s ((Encode.xdrReplymsg ok proc rmsg).run s) =
        Encode.encoded s ((Encode.xdrReplymsg ok' proc rmsg).run s)
  | .decodeCall cmsg => ∀ ok ok', accepted ((Decode.xdrCallmsg ok cmsg).run s) =
      accepted ((Decode.xdrCallmsg ok' cmsg).run s)
  | .decodeReply proc rmsg => ∀ ok ok', accepted ((Decode.xdrReplymsg ok proc rmsg).run s) =
      accepted ((Decode.xdrReplymsg ok' proc rmsg).run s)

/-- There is no room for the buffer, or nothing in the message tells it from what is put into the
    stream; and what is decoded does not end before `ar_stat` with an old one that is accepted. -/
def Message.Alike (s : Xdr) : Message ρ → Prop
  | .encodeCall cmsg => s.x_handy < Encode.callLength cmsg ∨
      cmsg.rm_call.cb_rpcvers = RPC_MSG_VERSION ∧
        Encode.Clear s (32 + cmsg.rm_call.cb_cred.oa_length) cmsg.rm_call.cb_cred.oa_length ∧
        Encode.Clear s (40 + RNDUP cmsg.rm_call.cb_cred.oa_length + cmsg.rm_call.cb_verf.oa_length)
          cmsg.rm_call.cb_verf.oa_length
  | .encodeReply rmsg => s.x_handy < 24 + rmsg.rp_acpt.ar_verf.oa_length ∨
      rmsg.rp_acpt.ar_verf.oa_length % 4 = 0
  | .decodeCall _ => True
  | .decodeReply proc rmsg => ¬(Decode.CutAtStat s ∧ Decode.StaleAccepted proc rmsg.rp_acpt s)

/-- The two ways of a message agree exactly in these cases. -/
theorem codecs_agree (s : Xdr) (msg : Message ρ) (h : msg.WellFormed) :
    msg.Agrees s ↔ msg.Alike s := by
  cases msg with
  | encodeCall cmsg => exact Encode.encoded_xdrCallmsg_iff s cmsg h.1 h.2.1 h.2.2
  | encodeReply rmsg => exact Encode.encoded_xdrReplymsg_iff s rmsg h.1 h.2.1 h.2.2
  | decodeCall cmsg =>
    refine iff_of_true (fun ok ok' => ?_) trivial
    rw [Decode.accepted_xdrCallmsg, Decode.accepted_xdrCallmsg]
  | decodeReply proc rmsg => exact Decode.accepted_xdrReplymsg_iff proc rmsg s

/-- A reply with a verifier of so many bytes. -/
def replyOf (oa_base : List UInt8) : RpcMsg Unit where
  rm_xid := 1
  rm_direction := REPLY
  rm_call :=
    { cb_rpcvers := 0, cb_prog := 0, cb_vers := 0, cb_proc := 0
      cb_cred := ⟨0, []⟩, cb_verf := ⟨0, []⟩ }
  rp_stat := MSG_ACCEPTED
  rp_acpt :=
    { ar_verf := ⟨0, oa_base⟩, ar_stat := SUCCESS, ar_vers_low := 0, ar_vers_high := 0
      ar_results := () }
  rp_rjct := { rj_stat := 0, rj_vers_low := 0, rj_vers_high := 0, rj_why := 0 }

theorem codecs_agree_fourBytes :
    (Message.encodeReply (replyOf [1, 2, 3, 4])).Agrees ⟨fun _ => 0, 0, 100⟩ :=
  (codecs_agree _ (.encodeReply (replyOf [1, 2, 3, 4])) ⟨rfl, rfl, by decide⟩).2 (.inr rfl)

/-- The buffer for a verifier of one byte ends before `ar_stat` does. -/
theorem codecs_disagree : ¬∀ (s : Xdr) (msg : Message Unit), msg.WellFormed → msg.Agrees s := by
  intro h
  have hall := h ⟨fun _ => 0, 0, 100⟩ (.encodeReply (replyOf [1])) ⟨rfl, rfl, by decide⟩ pure
    (fun _ => true) (fun _ => false)
  have hposi := congrArg (fun r => r.2.2) hall
  revert hposi
  decide

end Uwisc.Rpc
