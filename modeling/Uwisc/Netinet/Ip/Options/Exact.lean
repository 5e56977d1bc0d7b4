import Uwisc.Netinet.Ip.Options.Cases

/-!
# When option processing stays inside the options

An option that fits is handled inside (`pass_spec`) and nothing else is changed, so that those after it are as
they arrived; one that does not is handled outside. So a call is as it should be exactly if all options that
are met fit, and one is refused or no timestamp is recorded with an address (`ipDooptions_sound_iff`).
-/

namespace Uwisc.Ip.Options

open List

variable {h : Host} {mem : Mem} {o : Opt} {s : State}

/-! ### A pass of the loop -/

theorem Handled.congr {fits fits' : Prop} {r : Except Bad Unit × State} (hf : fits ↔ fits')
    (hh : Handled h mem o fits r) : Handled h mem o fits' r := by
  rwa [propext hf] at hh

/-- What an option must be in the `switch`. -/
def BodyFits (h : Host) (mem : Mem) (o : Opt) : Prop :=
  (o.Route mem → o.RouteFits h mem) ∧ (o.kind mem = IPOPT_TS → o.TimeFits h mem)

theorem option_handled (hs : AtHand mem o s) (hlog : s.log = fetched o) :
    Handled h mem o (BodyFits h mem o) (option h (o.kind mem) o.cp (o.len mem) s) := by
  rw [option]
  split_ifs with hsou hrr hts
  · have hrt : o.Route mem := .inl hsou
    exact (sourceRoute_handled hs hlog hsou).congr
      ⟨fun hf => ⟨fun _ => hf, fun hts => absurd hts (not_timestamp hrt)⟩, fun hf => hf.1 hrt⟩
  · have hrt : o.Route mem := .inr hrr
    exact (recordRoute_handled hs hlog hrr).congr
      ⟨fun hf => ⟨fun _ => hf, fun hts => absurd hts (not_timestamp hrt)⟩, fun hf => hf.1 hrt⟩
  · exact (timestamp_handled hs hlog hts).congr
      ⟨fun hf => ⟨fun hrt => absurd hts (not_timestamp hrt), fun _ => hf⟩, fun hf => hf.2 hts⟩
  · have hrt : ¬o.Route mem := fun hrt => hrt.elim hsou hrr
    refine handled_of_same hs rfl ?_ (by rw [pure_apply, hlog]; rfl) (fun _ => iff_of_true rfl fun hr => ?_)
      (fun _ _ hn => hsou hn.1) (fun _ _ hm => hts hm.2.1)
    · rw [pure_apply, hlog, hs.fetched_inside]
      exact ⟨fun h2 => ⟨h2, fun hn => absurd hn hrt, fun hn => absurd hn hts⟩, fun hf => hf.1⟩
    · rcases hr.2 with hn | hn | hn
      · exact hs.len hn
      · exact hrt hn.1
      · exact hts hn.1

/-- The options are at hand: what is from `cp` on is as it arrived. -/
structure Ready (mem : Mem) (o : Opt) (m : Mem) : Prop where
  cp : 20 ≤ o.cp
  cnt : o.cnt ≤ 40
  same : ∀ a, o.cp ≤ a → m a = mem a
  dst : m.word IP_DST = o.dst

theorem Ready.atHand (hs : Ready mem o s.mem) (hsin : ¬o.Single mem) (hlen : ¬o.BadLength mem) (l : List Access) :
    AtHand mem o { s with log := l } := ⟨hs.cp, hs.cnt, hsin, hlen, hs.same, hs.dst⟩

/-- What the loop makes of an option. -/
def visit (h : Host) (o : Opt) (s : State) : Visit :=
  ⟨o.cp, o.cnt, s.mem, (pass h o.cp o.cnt { s with log := [] }).2⟩

theorem pass_single (hs : Ready mem o s.mem) (hsin : o.Single mem) :
    pass h o.cp o.cnt { s with log := [] } =
      (.ok (if o.kind mem = IPOPT_EOL then none else some ⟨1, Nat.one_pos⟩), { s with log := [.read o.cp 1] }) := by
  have hkind : s.mem o.cp = o.kind mem := hs.same _ le_rfl
  rw [pass]
  simp only [bind_apply, rd, ite_run, hkind, pure_apply]
  split_ifs with heol hnop
  · rfl
  · rfl
  all_goals exact absurd hsin (not_or.2 ⟨heol, hnop⟩)

theorem pass_badLength (hs : Ready mem o s.mem) (hsin : ¬o.Single mem) (hlen : o.BadLength mem) :
    pass h o.cp o.cnt { s with log := [] } =
      (.error ⟨ICMP_PARAMPROB, o.cp + IPOPT_OLEN⟩, { s with log := fetched o }) := by
  have hkind : s.mem o.cp = o.kind mem := hs.same _ le_rfl
  have hl : (s.mem (o.cp + IPOPT_OLEN)).toNat = o.len mem := congrArg UInt8.toNat (hs.same _ (by omega))
  obtain ⟨heol, hnop⟩ := not_or.1 hsin
  have hlen' : (s.mem (o.cp + IPOPT_OLEN)).toNat = 0 ∨ o.cnt < (s.mem (o.cp + IPOPT_OLEN)).toNat := by
    rw [hl]
    exact hlen
  rw [pass]
  simp only [bind_apply, rd, ite_run, hkind, if_neg heol, if_neg hnop, dif_pos hlen']
  rfl

theorem pass_option (hs : Ready mem o s.mem) (hsin : ¬o.Single mem) (hlen : ¬o.BadLength mem)
    {res : Except Bad Unit} {s' : State}
    (hopt : option h (o.kind mem) o.cp (o.len mem) { s with log := fetched o } = (res, s')) :
    pass h o.cp o.cnt { s with log := [] } =
      (res.map fun _ => some ⟨o.len mem, Nat.pos_of_ne_zero fun h0 => hlen (.inl h0)⟩, s') := by
  have hkind : s.mem o.cp = o.kind mem := hs.same _ le_rfl
  have hl : (s.mem (o.cp + IPOPT_OLEN)).toNat = o.len mem := congrArg UInt8.toNat (hs.same _ (by omega))
  obtain ⟨heol, hnop⟩ := not_or.1 hsin
  have hgo : ¬(o.len mem = 0 ∨ o.cnt < o.len mem) := hlen
  have hopt : option h (o.kind mem) o.cp (o.len mem)
      ⟨s.mem, s.srcrt, s.nhops, [.read (o.cp + IPOPT_OLEN) 1, .read o.cp 1]⟩ = (res, s') := hopt
  rw [pass]
  simp only [bind_apply, rd, ite_run, hkind, if_neg heol, if_neg hnop, hl]
  rw [dif_neg hgo, bind_apply, hopt]
  cases res <;> rfl

/-- What a pass does for an option that fits, which is as it arrived. -/
structure Passed (h : Host) (mem : Mem) (o : Opt) (s : State) : Prop where
  stop : o.kind mem = IPOPT_EOL → (pass h o.cp o.cnt { s with log := [] }).1 = .ok none
  refused : o.Refused h mem → ∃ e, (pass h o.cp o.cnt { s with log := [] }).1 = .error e
  go : ¬(o.kind mem = IPOPT_EOL ∨ o.Refused h mem) →
    ∃ n, n.1 = o.optlen mem ∧ (pass h o.cp o.cnt { s with log := [] }).1 = .ok (some n) ∧
      Ready mem (o.next h mem) (visit h o s).after.mem
  advanced : ¬o.Refused h mem → ((visit h o s).Advanced ↔ ¬o.Miscounts h mem)

theorem visit_extent (hs : Ready mem o s.mem) : extent s.mem o.cp o.cnt =
    if o.Single mem then 1 else if o.BadLength mem then o.cnt else o.len mem := by
  rw [extent, hs.same _ le_rfl, hs.same (o.cp + 1) (by omega)]
  rfl

theorem visit_dataArea (hs : Ready mem o s.mem) : dataArea s.mem o.cp = dataArea mem o.cp := by
  rw [dataArea, dataArea, hs.same _ le_rfl]

theorem single_no_pointer (hsin : o.Single mem) : ¬HasPointer (o.kind mem) := by
  rw [HasPointer]
  rcases hsin with hk | hk <;> rw [hk] <;> decide

theorem optlen_eq (hsin : ¬o.Single mem) : o.optlen mem = o.len mem := if_neg fun hnop => hsin (.inr hnop)

/-- Nothing is after an option of one byte but what was. -/
theorem Ready.next_single (hs : Ready mem o s.mem) (hnop : o.kind mem = IPOPT_NOP) :
    Ready mem (o.next h mem) s.mem := by
  have hsou : ¬o.SourceRoute mem := by
    rintro (hl | hl) <;> exact absurd (hnop.symm.trans hl) (by decide)
  refine ⟨hs.cp.trans (Nat.le_add_right ..), (Nat.sub_le ..).trans hs.cnt, fun a ha => hs.same a ?_, ?_⟩
  · exact (Nat.le_add_right ..).trans ha
  · exact hs.dst.trans (if_neg fun hn => hsou hn.1).symm

theorem passed_single (hs : Ready mem o s.mem) (hsin : o.Single mem) : Passed h mem o s := by
  have hpass := pass_single (h := h) hs hsin
  refine ⟨fun heol => ?_, fun hr => absurd hsin hr.1, fun hgo => ?_, fun _ => ?_⟩
  · rw [hpass, if_pos heol]
  · have heol := (not_or.1 hgo).1
    have hnop := hsin.resolve_left heol
    refine ⟨⟨1, Nat.one_pos⟩, (if_pos hnop).symm, by rw [hpass, if_neg heol], ?_⟩
    rw [visit, hpass]
    exact hs.next_single hnop
  · refine iff_of_true (fun hp => ?_) fun hm => ?_
    · have hk : s.mem o.cp = o.kind mem := hs.same _ le_rfl
      have hp : HasPointer (s.mem o.cp) := hp
      exact absurd (hk ▸ hp) (single_no_pointer hsin)
    · exact absurd (.inr (.inr (.inr hm.2.1))) (single_no_pointer hsin)

theorem passed_option (hs : Ready mem o s.mem) (hsin : ¬o.Single mem) (hlen : ¬o.BadLength mem)
    (hfits : BodyFits h mem o) : Passed h mem o s := by
  have hh := option_handled (h := h) (hs.atHand hsin hlen (fetched o)) rfl
  rcases hopt : option h (o.kind mem) o.cp (o.len mem) { s with log := fetched o } with ⟨res, s'⟩
  rw [hopt] at hh
  have hpass := pass_option hs hsin hlen hopt
  refine ⟨fun heol => absurd (.inl heol) hsin, fun hr => ?_, fun hgo => ?_, fun hgo => ?_⟩
  · cases res with
    | ok => exact absurd hr ((hh.refused hfits).1 rfl)
    | error e => exact ⟨e, by rw [hpass]; rfl⟩
  · have hok : res = .ok () := (hh.refused hfits).2 (not_or.1 hgo).2
    refine ⟨⟨o.len mem, Nat.pos_of_ne_zero fun h0 => hlen (.inl h0)⟩, (optlen_eq hsin).symm, ?_, ?_⟩
    · rw [hpass, hok]
      rfl
    · rw [visit, hpass]
      refine ⟨hs.cp.trans (Nat.le_add_right ..), (Nat.sub_le ..).trans hs.cnt, fun a ha => ?_, hh.dst hfits hok⟩
      have ha : o.cp + o.optlen mem ≤ a := ha
      rw [optlen_eq hsin] at ha
      exact hh.same hfits a ha
  · have hok : res = .ok () := (hh.refused hfits).2 hgo
    have hk : s.mem o.cp = o.kind mem := hs.same _ le_rfl
    have hptr : (s.mem (o.cp + 2)).toNat = o.ptr mem := congrArg UInt8.toNat (hs.same _ (by omega))
    rw [Visit.Advanced, visit, hpass]
    simp only [hk, hptr]
    constructor
    · exact fun hadv hm => (hh.advanced hfits hok (.inr (.inr (.inr hm.2.1)))).1 (hadv (.inr (.inr (.inr hm.2.1)))) hm
    · exact fun hm hp => (hh.advanced hfits hok hp).2 hm

/-- An option is handled inside if and only if it fits, and then those after it are as they arrived. -/
theorem pass_spec (hs : Ready mem o s.mem) (hcnt : 0 < o.cnt) :
    ((visit h o s).Inside ↔ o.Fits h mem) ∧ (o.Fits h mem → Passed h mem o s) := by
  by_cases hsin : o.Single mem
  · refine ⟨iff_of_true ?_ (.inl hsin), fun _ => passed_single hs hsin⟩
    rw [Visit.Inside, visit, pass_single hs hsin]
    simp only [visit_extent hs, if_pos hsin, forall_mem_singleton, Access.Inside]
    omega
  by_cases hlen : o.BadLength mem
  · have hr : o.Refused h mem := ⟨hsin, .inl hlen⟩
    have hpass := pass_badLength (h := h) hs hsin hlen
    refine ⟨?_, fun _ => ⟨fun heol => absurd (.inl heol) hsin, fun _ => ⟨_, by rw [hpass]⟩,
      fun hgo => absurd (.inr hr) hgo, fun hgo => absurd hr hgo⟩⟩
    rw [Visit.Inside, visit, hpass]
    simp only [visit_extent hs, if_neg hsin, if_pos hlen, fetched, forall_mem_cons, Access.Inside]
    constructor
    · rintro ⟨hone, -⟩
      exact .inr (.inl ⟨hlen, by omega⟩)
    · rintro (hn | ⟨-, htwo⟩ | ⟨hn, -⟩)
      · exact absurd hn hsin
      · exact ⟨by omega, by omega, forall_mem_nil _⟩
      · exact absurd hlen hn
  have hh := option_handled (h := h) (hs.atHand hsin hlen (fetched o)) rfl
  have hfits : o.Fits h mem ↔ 2 ≤ o.len mem ∧ BodyFits h mem o := by
    constructor
    · rintro (hn | ⟨hn, -⟩ | ⟨-, hf⟩)
      · exact absurd hn hsin
      · exact absurd hn hlen
      · exact hf
    · exact fun hf => .inr (.inr ⟨hlen, hf⟩)
  refine ⟨?_, fun hf => passed_option hs hsin hlen (hfits.1 hf).2⟩
  rcases hopt : option h (o.kind mem) o.cp (o.len mem) { s with log := fetched o } with ⟨res, s'⟩
  rw [hopt] at hh
  rw [hfits, ← hh.inside, Visit.Inside, visit, pass_option hs hsin hlen hopt]
  simp only [visit_extent hs, if_neg hsin, if_neg hlen, visit_dataArea hs]

/-! ### Runs -/

theorem met_of_pos (h : Host) (mem : Mem) (hcnt : 0 < o.cnt) : met h mem o =
    o :: if o.kind mem = IPOPT_EOL ∨ o.Refused h mem then [] else met h mem (o.next h mem) := by
  rw [met, dif_pos hcnt]
  split_ifs <;> rfl

theorem loop_of_error (hcnt : 0 < o.cnt) {e : Bad} (he : (pass h o.cp o.cnt { s with log := [] }).1 = .error e) :
    loop h o.cp o.cnt s = ([visit h o s], .error e, (visit h o s).after) := by
  rw [loop, if_pos hcnt, visit]
  rcases hp : pass h o.cp o.cnt { s with log := [] } with ⟨res, s'⟩
  rw [hp] at he
  obtain rfl : res = .error e := he
  rfl

theorem loop_of_none (hcnt : 0 < o.cnt) (hn : (pass h o.cp o.cnt { s with log := [] }).1 = .ok none) :
    loop h o.cp o.cnt s = ([visit h o s], .ok (), (visit h o s).after) := by
  rw [loop, if_pos hcnt, visit]
  rcases hp : pass h o.cp o.cnt { s with log := [] } with ⟨res, s'⟩
  rw [hp] at hn
  obtain rfl : res = .ok none := hn
  rfl

theorem loop_of_some (hcnt : 0 < o.cnt) {n : { n : ℕ // 0 < n }}
    (hn : (pass h o.cp o.cnt { s with log := [] }).1 = .ok (some n)) :
    loop h o.cp o.cnt s = (visit h o s :: (loop h (o.cp + n) (o.cnt - n) (visit h o s).after).1,
      (loop h (o.cp + n) (o.cnt - n) (visit h o s).after).2) := by
  rw [loop, if_pos hcnt, visit]
  rcases hp : pass h o.cp o.cnt { s with log := [] } with ⟨res, s'⟩
  rw [hp] at hn
  obtain rfl : res = .ok (some n) := hn
  rfl

/-- The first option is handled, whatever comes of it. -/
theorem visit_mem_loop (hcnt : 0 < o.cnt) : visit h o s ∈ (loop h o.cp o.cnt s).1 := by
  rcases hres : (pass h o.cp o.cnt { s with log := [] }).1 with e | n
  · rw [loop_of_error hcnt hres]
    exact mem_cons_self
  · cases n with
    | none =>
      rw [loop_of_none hcnt hres]
      exact mem_cons_self
    | some n =>
      rw [loop_of_some hcnt hres]
      exact mem_cons_self

/-- What the loop makes of the options that are met. -/
structure Run (h : Host) (mem : Mem) (o : Opt) (r : List Visit × Except Bad Unit × State) : Prop where
  inside : (∀ v ∈ r.1, v.Inside) ↔ ∀ p ∈ met h mem o, p.Fits h mem
  ok : (∀ p ∈ met h mem o, p.Fits h mem) → (r.2.1 = .ok () ↔ ∀ p ∈ met h mem o, ¬p.Refused h mem)
  advanced : (∀ p ∈ met h mem o, p.Fits h mem) → (∀ p ∈ met h mem o, ¬p.Refused h mem) →
    ((∀ v ∈ r.1, v.Advanced) ↔ ∀ p ∈ met h mem o, ¬p.Miscounts h mem)

theorem loop_run {n : ℕ} (hn : o.cnt = n) (hs : Ready mem o s.mem) : Run h mem o (loop h o.cp o.cnt s) := by
  induction n using Nat.strong_induction_on generalizing o s with
  | _ n ih =>
    rcases Nat.eq_zero_or_pos o.cnt with hzero | hcnt
    · have hmet : met h mem o = [] := by
        rw [met, dif_neg (by omega)]
      rw [loop, if_neg (by omega)]
      exact ⟨by rw [hmet]; simp, fun _ => by rw [hmet]; simp, fun _ _ => by rw [hmet]; simp⟩
    obtain ⟨hin, hpas⟩ := pass_spec (h := h) hs hcnt
    have hmet := met_of_pos h mem hcnt
    by_cases hfits : o.Fits h mem
    · have hp := hpas hfits
      by_cases hr : o.Refused h mem
      · obtain ⟨e, he⟩ := hp.refused hr
        rw [if_pos (.inr hr)] at hmet
        rw [loop_of_error hcnt he]
        refine ⟨?_, fun _ => ?_, fun _ hno => absurd hr (hno o (hmet ▸ mem_cons_self))⟩
        · rw [hmet, forall_mem_singleton, forall_mem_singleton, hin]
        · rw [hmet, forall_mem_singleton]
          exact iff_of_false (error_ne_ok _) (not_not.2 hr)
      by_cases heol : o.kind mem = IPOPT_EOL
      · rw [if_pos (.inl heol)] at hmet
        rw [loop_of_none hcnt (hp.stop heol)]
        refine ⟨?_, fun _ => ?_, fun _ _ => ?_⟩
        · rw [hmet, forall_mem_singleton, forall_mem_singleton, hin]
        · rw [hmet, forall_mem_singleton]
          exact iff_of_true rfl hr
        · rw [hmet, forall_mem_singleton, forall_mem_singleton, hp.advanced hr]
      have hgo := not_or.2 ⟨heol, hr⟩
      obtain ⟨m, hm, hsome, hrdy⟩ := hp.go hgo
      have hlt : (o.next h mem).cnt < n := by
        have := Opt.optlen_pos hgo
        simp only [Opt.next]
        omega
      have hrs := ih _ hlt rfl hrdy
      have hnx : loop h (o.next h mem).cp (o.next h mem).cnt (visit h o s).after =
          loop h (o.cp + m) (o.cnt - m) (visit h o s).after := by
        rw [hm]
        rfl
      rw [if_neg hgo] at hmet
      rw [loop_of_some hcnt hsome, ← hnx]
      refine ⟨?_, fun hall => ?_, fun hall hno => ?_⟩
      · rw [hmet, forall_mem_cons, forall_mem_cons, hin, hrs.inside]
      · rw [hmet, forall_mem_cons] at hall ⊢
        rw [hrs.ok hall.2]
        exact (and_iff_right hr).symm
      · rw [hmet, forall_mem_cons] at hall hno ⊢
        rw [forall_mem_cons, hp.advanced hr, hrs.advanced hall.2 hno.2]
    · -- the option is met, and it is handled outside
      have hmem : o ∈ met h mem o := by
        rw [hmet]
        exact mem_cons_self
      have hnot : ¬∀ p ∈ met h mem o, p.Fits h mem := fun hall => hfits (hall o hmem)
      exact ⟨iff_of_false (fun hall => hfits (hin.1 (hall _ (visit_mem_loop hcnt)))) hnot,
        fun hall => absurd hall hnot, fun hall => absurd hall hnot⟩

/-- A call is as it should be if and only if the options that are met are good ones. -/
theorem loop_sound_iff (hs : Ready mem o s.mem) : Sound (loop h o.cp o.cnt s) ↔ Good h mem o := by
  have hrun := loop_run (h := h) rfl hs
  constructor
  · intro hsnd
    have hall := hrun.inside.1 hsnd.inside
    refine ⟨hall, or_iff_not_imp_left.2 fun hno => ?_⟩
    have hno : ∀ p ∈ met h mem o, ¬p.Refused h mem := fun p hp hr => hno ⟨p, hp, hr⟩
    exact (hrun.advanced hall hno).1 (hsnd.advanced ((hrun.ok hall).2 hno))
  · rintro ⟨hall, hadv⟩
    refine ⟨hrun.inside.2 hall, fun hok => ?_⟩
    have hno := (hrun.ok hall).1 hok
    refine (hrun.advanced hall hno).2 (hadv.resolve_left ?_)
    rintro ⟨p, hp, hr⟩
    exact hno p hp hr

/-- For every header, all accesses are in the options, and if the call returns 0 the pointers are advanced by what
    was recorded, if and only if the options that are met fit, and one is refused or none of them records a time
    with an address. -/
theorem ipDooptions_sound_iff {ip_hl : ℕ} (hhl : 5 ≤ ip_hl ∧ ip_hl ≤ 15) :
    Sound (ipDooptions h ip_hl mem) ↔ Good h mem ⟨mem.word IP_DST, 20, 4 * ip_hl - 20⟩ :=
  loop_sound_iff (s := ⟨mem, fun _ => 0, 0, []⟩) (o := ⟨mem.word IP_DST, 20, 4 * ip_hl - 20⟩)
    ⟨le_rfl, by change 4 * ip_hl - 20 ≤ 40; omega, fun _ _ => rfl, rfl⟩

/-- A host with one interface, by which all routes go, and a packet that is for none of its addresses. -/
def oneInterface : Host where
  ifwithaddr _ := false
  iaonnetof _ := false
  rtaddr _ := some ⟨10, 0, 0, 1⟩
  ifaddr := some ⟨10, 0, 0, 1⟩
  iptime _ := ⟨0, 0, 0, 0⟩

/-- A header with the given options. -/
def withOptions (l : List UInt8) : Mem := fun a => if a < 20 then 0 else l.getD (a - 20) 0

/-- A route of one address, of which none is recorded yet. -/
theorem ipDooptions_recordRoute : Sound (ipDooptions oneInterface 7 (withOptions [7, 7, 4, 0, 0, 0, 0, 0])) ↔
    Good oneInterface (withOptions [7, 7, 4, 0, 0, 0, 0, 0])
      ⟨(withOptions [7, 7, 4, 0, 0, 0, 0, 0]).word IP_DST, 20, 4 * 7 - 20⟩ :=
  ipDooptions_sound_iff ⟨by decide, by decide⟩

/-- A route of three bytes, with no room for an address: four bytes after it are replaced, and the header has one. -/
theorem ipDooptions_short : ¬Sound (ipDooptions oneInterface 6 (withOptions [7, 3, 4, 0])) := by
  intro hsnd
  have hvisit := hsnd.inside _ (visit_mem_loop (o := ⟨⟨0, 0, 0, 0⟩, 20, 4⟩) (by decide))
  have hwrite : Access.write 23 4 ∈ (visit oneInterface ⟨⟨0, 0, 0, 0⟩, 20, 4⟩
      ⟨withOptions [7, 3, 4, 0], fun _ => 0, 0, []⟩).after.log := by decide
  have hin := (hvisit _ hwrite).2
  exact absurd hin (by decide)

end Uwisc.Ip.Options
