import Uwisc.Netinet.Ip.Options.Exact
import Uwisc.Netinet.Ip.Pcbopts

/-!
# IP: replies to packets with source routes

`ip_srcroute` of `sys/netinet/ip_input.c`, which makes options of the source route that `save_rte` has left in
`ip_srcrt`, for `ip_insertoptions` to put them into a reply. What becomes of the reply is up to `ip_dooptions`, of
the host that it is sent to, and of the ones that this sends it on to (`Travels`).

* `Completes`: the option of a visit is a source route at its end;
* `loop_saves`: after `ip_dooptions`, `ip_srcrt` holds the last of these;
* `Travels`: a packet goes from one destination to the next.
-/

namespace Uwisc.Ip.Options

open Lib

/-- The bytes of an address. -/
def Word.toList (w : Word) : List UInt8 := [w.b₀, w.b₁, w.b₂, w.b₃]

/-- An address, as a number. -/
def Word.toBitVec (w : Word) : BitVec 32 := BitVec.ofNat 32 (decode w.toList)

/-- `MT_SOOPTS`. -/
def MT_SOOPTS : ℕ := 10

/-- `while (p >= ip_srcrt.route) *q++ = *p--`, from the `n`-th address of the route on. -/
def reversed (srcrt : Mem) : ℕ → List UInt8
  | 0 => []
  | n + 1 => (srcrt.word (4 + 4 * n)).toList ++ reversed srcrt n

/-- What `ip_srcroute` puts into the buffer: the first hop, then a `nop`, the fields of the option and the route. -/
def returnRoute (s : State) : List UInt8 :=
  (s.srcrt.word (4 + 4 * (s.nhops - 1))).toList ++
    ([IPOPT_NOP, s.srcrt 1, s.srcrt 2, s.srcrt 3] ++ reversed s.srcrt (s.nhops - 1))

/-- `ip_srcroute`, with the buffer that it gets. -/
def ipSrcroute (index : ℕ) (area : Mem) (s : State) : Option Mbufs.Mbuf :=
  if s.nhops = 0 then none
  else some (Mbufs.mget index (store area 0 (returnRoute s)) MT_SOOPTS (s.nhops * 4 + (IPOPT_OFFSET + 1) + 1))

/-! ### What is right -/

/-- The option of a visit. -/
def Visit.opt (v : Visit) : Opt := ⟨v.before.word IP_DST, v.cp, v.cnt⟩

/-- The option is a source route that has brought the packet to its last destination, which is here. -/
def Completes (h : Host) (v : Visit) : Prop := v.opt.SourceRoute v.before ∧ ¬v.opt.BadLength v.before ∧
  IPOPT_MINOFF ≤ v.opt.ptr v.before ∧ h.ifwithaddr v.opt.dst = true ∧
  noSpace (v.opt.ptr v.before - 1) (v.opt.len v.before) = true

/-- The hops recorded in a source route, the first one first. -/
def Visit.recorded (v : Visit) : List Word :=
  (List.range ((v.opt.len v.before - 3) / 4)).map fun i => v.before.word (v.cp + 3 + 4 * i)

/-- A packet is accepted by `ip_dooptions`, with the source route of `v`, the last one of those that are complete. -/
structure Accepted (h : Host) (ip_hl : ℕ) (mem : Mem) (v : Visit) : Prop where
  ok : (ipDooptions h ip_hl mem).2.1 = .ok ()
  complete : Completes h v
  last : ∃ l l', (ipDooptions h ip_hl mem).1 = l ++ v :: l' ∧ ∀ u ∈ l', ¬Completes h u

/-- Hosts that have the address they are asked for by. -/
structure Net where
  host : Word → Host
  ours : ∀ d, (host d).ifwithaddr d = true

/-- A packet travels from one destination to the next: the host there does not send it on if it is for itself after
    `ip_dooptions`, and it sends it on if it is not. -/
inductive Travels (net : Net) (ip_hl : ℕ) : Mem → List Word → Prop
  | arrives {mem s v} : ipDooptions (net.host (mem.word IP_DST)) ip_hl mem = (v, .ok (), s) →
      (net.host (mem.word IP_DST)).ifwithaddr (s.mem.word IP_DST) = true → Travels net ip_hl mem [mem.word IP_DST]
  | forwarded {mem s v l} : ipDooptions (net.host (mem.word IP_DST)) ip_hl mem = (v, .ok (), s) →
      (net.host (mem.word IP_DST)).ifwithaddr (s.mem.word IP_DST) = false → Travels net ip_hl s.mem l →
      Travels net ip_hl mem (mem.word IP_DST :: l)

/-- The memory of a packet: its destination, and its options. -/
structure Holds (mem : Mem) (p : Packet) : Prop where
  dst : (mem.word IP_DST).toBitVec = p.ip.ip_dst
  opts : bytes mem 20 p.opts.length = p.opts

variable {h : Host} {mem : Mem} {s : State} {v : Visit} {cp cnt : ℕ} {α β : Type}

/-! ### What is saved -/

/-- Nothing is saved. -/
def Unsaved (x : M α) : Prop := ∀ s, (x s).2.srcrt = s.srcrt ∧ (x s).2.nhops = s.nhops

theorem Unsaved.bind {x : M α} {f : α → M β} (hx : Unsaved x) (hf : ∀ a, Unsaved (f a)) : Unsaved (x >>= f) := by
  intro s
  obtain ⟨hsrcrt, hnhops⟩ := hx s
  rw [bind_apply]
  rcases hxs : x s with ⟨r, s'⟩
  rw [hxs] at hsrcrt hnhops
  cases r with
  | error e => exact ⟨hsrcrt, hnhops⟩
  | ok a => exact ⟨(hf a s').1.trans hsrcrt, (hf a s').2.trans hnhops⟩

theorem unsaved_pure (x : α) : Unsaved (pure x : M α) := fun _ => ⟨rfl, rfl⟩
theorem unsaved_bad (type code : ℕ) : Unsaved (bad type code : M α) := fun _ => ⟨rfl, rfl⟩
theorem unsaved_rd (a : ℕ) : Unsaved (rd a) := fun _ => ⟨rfl, rfl⟩
theorem unsaved_rdWord (a : ℕ) : Unsaved (rdWord a) := fun _ => ⟨rfl, rfl⟩
theorem unsaved_wrWord (a : ℕ) (w : Word) : Unsaved (wrWord a w) := fun _ => ⟨rfl, rfl⟩
theorem unsaved_advance (a : ℕ) (n : UInt8) : Unsaved (advance a n) := fun _ => ⟨rfl, rfl⟩
theorem unsaved_bumpOverflow (a : ℕ) : Unsaved (bumpOverflow a) := fun _ => ⟨rfl, rfl⟩

theorem unsaved_record (cp off : ℕ) (ia : Word) : Unsaved (record cp off ia) :=
  (unsaved_wrWord _ _).bind fun _ => unsaved_advance _ _

theorem unsaved_stamp (h : Host) (cp sin : ℕ) : Unsaved (stamp h cp sin) :=
  (unsaved_wrWord _ _).bind fun _ => unsaved_advance _ _

theorem unsaved_recordRoute (h : Host) (cp optlen : ℕ) : Unsaved (recordRoute h cp optlen) := by
  refine (unsaved_rd _).bind fun ptr => ?_
  split
  · exact unsaved_bad _ _
  · dsimp only
    split
    · exact unsaved_pure _
    · refine (unsaved_rdWord _).bind fun addr => ?_
      split
      · exact unsaved_bad _ _
      · exact unsaved_record _ _ _

theorem unsaved_timestamp (h : Host) (cp : ℕ) : Unsaved (timestamp h cp) := by
  refine (unsaved_rd _).bind fun len => ?_
  split
  · exact unsaved_bad _ _
  refine (unsaved_rd _).bind fun ptr => ?_
  split
  · refine (unsaved_bumpOverflow _).bind fun oflw => ?_
    split
    · exact unsaved_bad _ _
    · exact unsaved_pure _
  · refine (unsaved_rd _).bind fun flg => ?_
    split
    · exact unsaved_stamp _ _ _
    split
    · split
      · exact unsaved_bad _ _
      split
      · exact unsaved_bad _ _
      · exact (unsaved_wrWord _ _).bind fun _ => unsaved_stamp _ _ _
    split
    · refine (unsaved_rdWord _).bind fun addr => ?_
      split
      · exact unsaved_pure _
      split
      · exact unsaved_bad _ _
      · exact (unsaved_advance _ _).bind fun _ => unsaved_stamp _ _ _
    · exact unsaved_bad _ _

theorem word_eq {mem' : Mem} {a b : ℕ} (h : ∀ j < 4, mem' (a + j) = mem (b + j)) : mem'.word a = mem.word b := by
  rw [Mem.word, Mem.word, h 1 (by omega), h 2 (by omega), h 3 (by omega), ← add_zero a, ← add_zero b,
    h 0 (by omega)]

/-- What `save_rte` leaves of the source route of a visit. -/
structure Saves (v : Visit) (s : State) : Prop where
  len : v.opt.len v.before ≤ 40
  nhops : s.nhops = (v.opt.len v.before - 3) / 4 + 1
  fields : ∀ i < 3, s.srcrt (1 + i) = v.before (v.cp + i)
  hops : ∀ i < (v.opt.len v.before - 3) / 4, s.srcrt.word (4 + 4 * i) = v.before.word (v.cp + 3 + 4 * i)
  last : s.srcrt.word (4 + 4 * ((v.opt.len v.before - 3) / 4)) = v.before.word IP_SRC

theorem saveRte_saves (hmem : s.mem = v.before) (hlen : 4 ≤ v.opt.len v.before ∧ v.opt.len v.before ≤ 40) :
    (saveRte v.cp s).1 = .ok () ∧ (saveRte v.cp s).2.mem = s.mem ∧ Saves v (saveRte v.cp s).2 := by
  set len := v.opt.len v.before with hl
  have hrd : (v.before (v.cp + IPOPT_OLEN)).toNat = len := rfl
  have hhops : (BitVec.ofNat 32 len - 2 - 1).toNat / 4 = (len - 3) / 4 := by
    rw [BitVec.toNat_sub, BitVec.toNat_sub, BitVec.toNat_ofNat, show (2 : BitVec 32).toNat = 2 from rfl,
      show (1 : BitVec 32).toNat = 1 from rfl]
    omega
  have hsize : ¬sizeofSrcrt - 1 < len := by
    rw [sizeofSrcrt]
    omega
  rw [saveRte]
  simp only [bind_apply, rd, rdHeader, hmem, hrd, ite_run, if_neg hsize, saveOption, saveHop, hhops]
  refine ⟨trivial, trivial, hlen.2, rfl, fun i hi => ?_, fun i hi => ?_, Mem.word_put ..⟩
  · dsimp only
    rw [Mem.put_of_lt _ (by omega), if_pos ⟨by omega, by omega⟩, Nat.add_sub_cancel_left]
  · refine word_eq fun j hj => ?_
    dsimp only
    rw [Mem.put_of_lt _ (by omega), if_pos ⟨by omega, by omega⟩]
    congr 1
    omega

theorem sourceRoute_saved (hmem : s.mem = v.before) (hcnt : v.cnt ≤ 40) (hrt : v.opt.SourceRoute v.before)
    (hlen : ¬v.opt.BadLength v.before) (strict : Bool) :
    let r := sourceRoute h strict v.cp (v.opt.len v.before) s
    (Completes h v → r.1 = .ok () ∧ r.2.mem = v.before ∧ Saves v r.2) ∧
      (¬Completes h v → r.2.srcrt = s.srcrt ∧ r.2.nhops = s.nhops) := by
  have hptr : (v.before (v.cp + IPOPT_OFFSET)).toNat = v.opt.ptr v.before := rfl
  have hdst : v.before.word IP_DST = v.opt.dst := rfl
  obtain ⟨h0, hle⟩ := not_or.1 hlen
  have hlt : v.opt.len v.before ≤ v.cnt := not_lt.1 hle
  rw [sourceRoute]
  simp only [bind_apply, rd, rdHeader, hmem, ite_run, bad, pure_apply, hptr, hdst]
  by_cases hmin : v.opt.ptr v.before < IPOPT_MINOFF
  · simp only [if_pos hmin]
    exact ⟨fun hc => absurd hmin (not_lt.2 hc.2.2.1), fun _ => ⟨trivial, trivial⟩⟩
  simp only [if_neg hmin]
  by_cases hours : h.ifwithaddr v.opt.dst = false
  · simp only [if_pos hours]
    refine ⟨fun hc => absurd (hours.symm.trans hc.2.2.2.1) Bool.false_ne_true, fun _ => ?_⟩
    split <;> exact ⟨rfl, rfl⟩
  simp only [if_neg hours]
  by_cases hspc : noSpace (v.opt.ptr v.before - 1) (v.opt.len v.before) = true
  · simp only [if_pos hspc]
    have hptr_lt := ptr_lt v.before v.opt
    have hfour := ((noSpace_iff (by omega) (by omega)).1 hspc).1
    let s' : State := ⟨v.before, s.srcrt, s.nhops, .header IP_DST 4 :: .read (v.cp + IPOPT_OFFSET) 1 :: s.log⟩
    have hsaved := saveRte_saves (s := s') (v := v) rfl ⟨hfour, by omega⟩
    refine ⟨fun _ => hsaved, fun hc => absurd ⟨hrt, hlen, not_lt.1 hmin, ?_, hspc⟩ hc⟩
    exact Bool.not_eq_false _ |>.mp hours
  · simp only [if_neg hspc]
    refine ⟨fun hc => absurd hc.2.2.2.2 hspc, fun _ => ?_⟩
    simp only [rdWord]
    split
    · exact ⟨rfl, rfl⟩
    · cases h.rtaddr (v.before.word (v.cp + (v.opt.ptr v.before - 1))) with
      | none => exact ⟨rfl, rfl⟩
      | some ia => exact ⟨rfl, rfl⟩

theorem option_saved (hmem : s.mem = v.before) (hcnt : v.cnt ≤ 40) (hlen : ¬v.opt.BadLength v.before) :
    let r := option h (v.before v.cp) v.cp (v.opt.len v.before) s
    (Completes h v → r.1 = .ok () ∧ r.2.mem = v.before ∧ Saves v r.2) ∧
      (¬Completes h v → r.2.srcrt = s.srcrt ∧ r.2.nhops = s.nhops) := by
  rw [option]
  by_cases hrt : v.before v.cp = IPOPT_LSRR ∨ v.before v.cp = IPOPT_SSRR
  · rw [if_pos hrt]
    exact sourceRoute_saved hmem hcnt hrt hlen _
  · rw [if_neg hrt]
    refine ⟨fun hc => absurd hc.1 hrt, fun _ => ?_⟩
    split
    · exact unsaved_recordRoute h _ _ s
    · split
      · exact unsaved_timestamp h _ s
      · exact ⟨rfl, rfl⟩

/-- What a pass of the loop does for an option that has a length. -/
theorem pass_saved {o : Opt} (hs : Ready s.mem o s.mem) (hsin : ¬o.Single s.mem) (hlen : ¬o.BadLength s.mem) :
    ∃ (res : Except Bad Unit) (s' : State), pass h o.cp o.cnt { s with log := [] } =
        (res.map fun _ => some ⟨o.len s.mem, Nat.pos_of_ne_zero fun h0 => hlen (.inl h0)⟩, s') ∧
      (Completes h (visit h o s) → res = .ok () ∧ s'.mem = s.mem ∧ Saves (visit h o s) s') ∧
      (¬Completes h (visit h o s) → s'.srcrt = s.srcrt ∧ s'.nhops = s.nhops) := by
  have hopt : (visit h o s).opt = o := by rw [Visit.opt, visit, hs.dst]
  rcases hrun : option h (o.kind s.mem) o.cp (o.len s.mem) { s with log := fetched o } with ⟨res, s'⟩
  have hsaved := option_saved (h := h) (s := { s with log := fetched o }) (v := visit h o s) rfl hs.cnt
    (by rw [hopt]; exact hlen)
  have hrun' : option h ((visit h o s).before (visit h o s).cp) (visit h o s).cp
      ((visit h o s).opt.len (visit h o s).before) { s with log := fetched o } = (res, s') := by
    rw [hopt]
    exact hrun
  rw [hrun'] at hsaved
  exact ⟨res, s', pass_option hs hsin hlen hrun, hsaved⟩

/-- A source route is an option with a length. -/
theorem Completes.not_single {o : Opt} (hdst : s.mem.word IP_DST = o.dst) (hc : Completes h (visit h o s)) :
    ¬o.Single s.mem ∧ ¬o.BadLength s.mem := by
  have hopt : (visit h o s).opt = o := by rw [Visit.opt, visit, hdst]
  have hrt : o.SourceRoute s.mem := hopt ▸ hc.1
  refine ⟨fun h1 => ?_, hopt ▸ hc.2.1⟩
  rcases hrt with hk | hk <;> rcases h1 with h1 | h1 <;> exact absurd (hk.symm.trans h1) (by decide)

/-- What is saved by a pass of the loop. -/
theorem visit_saved {o : Opt} (hs : Ready s.mem o s.mem) :
    (Completes h (visit h o s) → Saves (visit h o s) (visit h o s).after) ∧
      (¬Completes h (visit h o s) → (visit h o s).after.srcrt = s.srcrt ∧ (visit h o s).after.nhops = s.nhops) := by
  by_cases hsin : o.Single s.mem
  · refine ⟨fun hc => absurd hsin (hc.not_single hs.dst).1, fun _ => ?_⟩
    rw [visit, pass_single hs hsin]
    exact ⟨rfl, rfl⟩
  by_cases hlen : o.BadLength s.mem
  · refine ⟨fun hc => absurd hlen (hc.not_single hs.dst).2, fun _ => ?_⟩
    rw [visit, pass_badLength hs hsin hlen]
    exact ⟨rfl, rfl⟩
  obtain ⟨res, s', hpass, hc, hno⟩ := pass_saved (h := h) hs hsin hlen
  have haft : (visit h o s).after = s' := by rw [visit, hpass]
  rw [haft]
  exact ⟨fun h => (hc h).2.2, hno⟩

/-- A pass that completes a source route changes no byte of the packet. -/
theorem pass_completes {o : Opt} (hs : Ready s.mem o s.mem) (hc : Completes h (visit h o s)) :
    (visit h o s).after.mem = s.mem ∧
      ∃ n, n.1 = o.len s.mem ∧ (pass h o.cp o.cnt { s with log := [] }).1 = .ok (some n) := by
  obtain ⟨hsin, hlen⟩ := hc.not_single hs.dst
  obtain ⟨res, s', hpass, hcom, -⟩ := pass_saved (h := h) hs hsin hlen
  obtain ⟨rfl, hmem, -⟩ := hcom hc
  rw [visit, hpass]
  exact ⟨hmem, _, rfl, rfl⟩

/-- The last source route that is complete is saved, and nothing if there is none. -/
def LastSaved (h : Host) (s : State) (r : List Visit × Except Bad Unit × State) : Prop :=
  ((∀ u ∈ r.1, ¬Completes h u) → r.2.2.srcrt = s.srcrt ∧ r.2.2.nhops = s.nhops) ∧
    ∀ v l l', r.1 = l ++ v :: l' → Completes h v → (∀ u ∈ l', ¬Completes h u) → Saves v r.2.2

theorem LastSaved.nil (h : Host) (s : State) (e : Except Bad Unit) : LastSaved h s ([], e, s) :=
  ⟨fun _ => ⟨rfl, rfl⟩, fun _ _ _ hl => absurd hl (by simp)⟩

theorem Saves.congr {s' : State} (hv : Saves v s) (hsrcrt : s'.srcrt = s.srcrt) (hnhops : s'.nhops = s.nhops) :
    Saves v s' := by
  obtain ⟨mem, srcrt, nhops, log⟩ := s'
  obtain rfl : srcrt = s.srcrt := hsrcrt
  obtain rfl : nhops = s.nhops := hnhops
  exact ⟨hv.len, hv.nhops, hv.fields, hv.hops, hv.last⟩

theorem LastSaved.cons {r : List Visit × Except Bad Unit × State} (hv : (Completes h v → Saves v v.after) ∧
    (¬Completes h v → v.after.srcrt = s.srcrt ∧ v.after.nhops = s.nhops)) (hr : LastSaved h v.after r) :
    LastSaved h s (v :: r.1, r.2) := by
  refine ⟨fun hno => ?_, fun u l l' hl hu hno => ?_⟩
  · obtain ⟨hnov, hno⟩ := List.forall_mem_cons.1 hno
    obtain ⟨hsrcrt, hnhops⟩ := hr.1 hno
    exact ⟨hsrcrt.trans (hv.2 hnov).1, hnhops.trans (hv.2 hnov).2⟩
  · cases l with
    | nil =>
      cases hl
      obtain ⟨hsrcrt, hnhops⟩ := hr.1 hno
      exact (hv.1 hu).congr hsrcrt hnhops
    | cons w l => exact hr.2 u l l' (List.cons.inj hl).2 hu hno

theorem loop_saves (hcp : 20 ≤ cp) (hcnt : cnt ≤ 40) : LastSaved h s (loop h cp cnt s) := by
  induction hn : cnt using Nat.strong_induction_on generalizing cp cnt s with
  | _ n ih =>
    subst hn
    rcases Nat.eq_zero_or_pos cnt with hzero | hpos
    · rw [loop, if_neg (by omega)]
      exact LastSaved.nil h s (.ok ())
    let o : Opt := ⟨s.mem.word IP_DST, cp, cnt⟩
    have hv := visit_saved (h := h) (⟨hcp, hcnt, fun _ _ => rfl, rfl⟩ : Ready s.mem o s.mem)
    have hpos' : 0 < o.cnt := hpos
    rcases hres : (pass h o.cp o.cnt { s with log := [] }).1 with e | n
    · have hloop : loop h cp cnt s = _ := loop_of_error hpos' hres
      rw [hloop]
      exact LastSaved.cons hv (LastSaved.nil h _ (.error e))
    · cases n with
      | none =>
        have hloop : loop h cp cnt s = _ := loop_of_none hpos' hres
        rw [hloop]
        exact LastSaved.cons hv (LastSaved.nil h _ (.ok ()))
      | some n =>
        have hn := n.2
        have hloop : loop h cp cnt s = _ := loop_of_some hpos' hres
        rw [hloop]
        exact LastSaved.cons hv (ih (cnt - n) (by omega) (Nat.le_add_right_of_le hcp) (by omega) rfl)

/-- What `ip_srcroute` makes its options of, after a packet with a source route. -/
theorem Accepted.saves {ip_hl : ℕ} (ha : Accepted h ip_hl mem v) (hhl : ip_hl < 16) :
    Saves v (ipDooptions h ip_hl mem).2.2 := by
  obtain ⟨l, l', hl, hno⟩ := ha.last
  exact (loop_saves le_rfl (by omega)).2 v l l' hl ha.complete hno

end Uwisc.Ip.Options
