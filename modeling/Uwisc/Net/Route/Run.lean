import Mathlib.Algebra.BigOperators.Ring.Finset
import Mathlib.Data.Fin.VecNotation
import Uwisc.Lib.Holders
import Uwisc.Lib.System
import Uwisc.Net.Route.Spec

/-!
# Runs of the routing calls

A routing table, any holders of its entries (`State`), and any sequence of calls
on them, with interfaces going up and down in between.

The books are right (`Sound`) in every state of a run whose calls meet a
condition (`route_sound`). It leaves out what breaks them:

* `rtalloc` for a holder whose entry went down gives it another one, and the
  reference to the first is never given back (`route_leaked`);
* a redirect changes the gateway of an entry without looking for another one
  that then has the same key (`gateway_smashed`);
* for a family without networks, no entry is ever found to be in the way of an
  equal one (`unspec_twice`);
* a count is a `short`.
-/

namespace Uwisc.Net

open Finset Function Lib Option

variable {H : Type} [DecidableEq H] {m : Machine}

/-- A routing table and its holders. -/
structure State (H : Type) where
  core : Core
  route : H → Route

omit [DecidableEq H] in
/-- The holders that point at the entry `i`. -/
def State.holders (s : State H) (i : ℕ) : Set H := Lib.holders (Route.ro_rt ∘ s.route) (.entry i)

/-- A call, or what goes on between calls. -/
inductive Call (H : Type)
  /-- An interface goes up or down. -/
  | ifup (ifp : ℕ) (up : Bool)
  /-- A holder that points at nothing gets a destination, with or without `&nowildcard`. -/
  | fill (h : H) (dst : Sockaddr) (nowild : Bool)
  | rtalloc (h : H)
  /-- `rtfree` of the entry of a holder, which is then cleared. -/
  | rtfree (h : H)
  | rtredirect (dst gateway src : Sockaddr) (flags : Flags) (mbuf : Bool)
  | rtrequest (req : Req) (entry : Entry)
  | inLosing (h : H)

/-- Sets a holder. -/
def State.put (s : State H) (h : H) (r : Core × Route) : State H := ⟨r.1, update s.route h r.2⟩

/-- Executes a call. -/
def exec (m : Machine) (s : State H) : Call H → Except Trap (State H)
  | .ifup ifp up => .ok { s with core := { s.core with ifup := update s.core.ifup ifp up } }
  | .fill h dst nowild =>
    .ok (if (s.route h).ro_rt = .null then s.put h (s.core, ⟨if nowild then .nowildcard else .null, dst⟩) else s)
  | .rtalloc h => do .ok (s.put h (← rtalloc m s.core (s.route h)))
  | .rtfree h =>
    match (s.route h).ro_rt with
    | .null => .error (.panic "rtfree")
    | .nowildcard => .ok (s.put h (s.core, { s.route h with ro_rt := .null }))
    | .entry i => do .ok (s.put h (← rtfree s.core i, { s.route h with ro_rt := .null }))
  | .rtredirect dst gateway src flags mbuf => do
    .ok { s with core := ← rtredirect m s.core dst gateway src flags mbuf }
  | .rtrequest req entry => do .ok { s with core := (← rtrequest m s.core req entry).1 }
  | .inLosing h => do .ok (s.put h (← inLosing m s.core (s.route h)))

/-- An empty table. -/
def Core.empty (ifup : ℕ → Bool) : Core where
  entry _ := none
  next := 0
  table _ _ := []
  rttrash := 0
  freed := []
  ifup := ifup

/-- The runs from an empty table without holders. -/
def system (m : Machine) : System (State H) (Call H) :=
  .ofExec {s | (∃ ifup, s.core = .empty ifup) ∧ ∀ h, (s.route h).ro_rt = .null} fun s a => (exec m s a).toOption

/-- The call does not break the books. -/
def CallOk (m : Machine) (s : State H) : Call H → Prop
  | .rtalloc h => RtallocOk m s.core (s.route h)
  | .rtredirect dst gateway src flags _ => RedirectOk m s.core dst gateway src flags
  | .rtrequest (.SIOCADDRT _) entry => entry.rt_dst.sa_family < AF_MAX → RequestOk m s.core entry
  | _ => True

/-- The entry `i` is in the table. -/
def Core.InTable (c : Core) (i : ℕ) : Prop := ∃ host b, i ∈ c.table host b

omit [DecidableEq H] in
/-- The books are right. -/
structure Sound (s : State H) : Prop where
  refcnt : ∀ i rt, s.core.entry i = some rt →
    (s.holders i).Finite ∧ rt.rt_refcnt = (s.holders i).ncard ∧ 0 ≤ rt.rt_refcnt
  held : ∀ h i, (s.route h).ro_rt = .entry i → s.core.entry i ≠ none
  once : s.core.freed.Nodup
  freed : ∀ i, i ∈ s.core.freed ↔ i < s.core.next ∧ ¬s.core.InTable i ∧ s.holders i = ∅
  rttrash : s.core.rttrash = {i | i < s.core.next ∧ ¬s.core.InTable i ∧ i ∉ s.core.freed}.ncard
  distinct : ∀ i j rt rt', s.core.InTable i → s.core.InTable j → s.core.entry i = some rt →
    s.core.entry j = some rt' → SameKey rt rt' → i = j

/-- The table is good for the numbers of its holders. -/
structure Inv (m : Machine) (s : State H) : Prop where
  finite : ∀ i, (s.holders i).Finite
  good : Good m s.core fun i => (s.holders i).ncard

/-! ### The books -/

variable {i : ℕ} {c : Core} {ro : Route} {refs : ℕ → ℕ}

theorem At.inTable_iff (h : At m c refs i) :
    c.InTable i ↔ ∃ rt, c.entry i = some rt ∧ rt.rt_flags.up = true := by
  constructor
  · rintro ⟨host, b, hin⟩
    obtain ⟨rt, hrt, hup, -⟩ := (h.chain host b).1 hin
    exact ⟨rt, hrt, hup⟩
  · rintro ⟨rt, hrt, hup⟩
    exact ⟨_, _, (h.chain _ _).2 ⟨rt, hrt, hup, rfl, rfl⟩⟩

theorem isTrash_iff :
    c.isTrash i = true ↔ ∃ rt, c.entry i = some rt ∧ rt.rt_flags.up = false := by
  rw [Core.isTrash]
  cases c.entry i <;> simp

omit [DecidableEq H] in
theorem Inv.sound {s : State H} (hs : Inv m s) : Sound s where
  refcnt i rt hrt := by
    have hcnt := (hs.good.at_ i).refcnt rt hrt
    exact ⟨hs.finite i, hcnt, hcnt ▸ Int.natCast_nonneg _⟩
  held h i hi := (hs.good.at_ i).held ((Set.ncard_pos (hs.finite i)).2 ⟨h, hi⟩)
  once := hs.good.once
  freed i := by
    have hat := hs.good.at_ i
    rw [hat.freed]
    refine and_congr_right fun hlt => ⟨fun hnone => ⟨fun hin => ?_, ?_⟩, fun ⟨hout, hemp⟩ => ?_⟩
    · obtain ⟨rt, hrt, -⟩ := hat.inTable_iff.1 hin
      exact some_ne_none rt (hrt.symm.trans hnone)
    · by_contra hne
      exact hat.held ((Set.ncard_pos (hs.finite i)).2 (Set.nonempty_iff_ne_empty.2 hne)) hnone
    · by_contra hne
      obtain ⟨rt, hrt⟩ := ne_none_iff_exists'.1 hne
      have hdown : rt.rt_flags.up = false := by
        by_contra hup
        exact hout (hat.inTable_iff.2 ⟨rt, hrt, Bool.eq_true_of_not_eq_false hup⟩)
      have hpos := hat.down rt hrt hdown
      rw [hemp, Set.ncard_empty] at hpos
      exact lt_irrefl _ hpos
  rttrash := by
    have htrash : {i | i < s.core.next ∧ ¬s.core.InTable i ∧ i ∉ s.core.freed} =
        ((range s.core.next).filter fun i => s.core.isTrash i = true : Finset ℕ) := by
      ext i
      have hat := hs.good.at_ i
      rw [coe_filter, Set.mem_ofPred_eq, Set.mem_ofPred_eq, mem_range, hat.inTable_iff, hat.freed,
        isTrash_iff]
      refine and_congr_right fun hlt => ⟨fun ⟨hout, hmade⟩ => ?_, fun ⟨rt, hrt, hdown⟩ => ⟨?_, ?_⟩⟩
      · obtain ⟨rt, hrt⟩ := ne_none_iff_exists'.1 fun hnone => hmade ⟨hlt, hnone⟩
        exact ⟨rt, hrt, Bool.eq_false_of_not_eq_true fun hup => hout ⟨rt, hrt, hup⟩⟩
      · rintro ⟨e, he, hup⟩
        obtain rfl := some_inj.1 (hrt.symm.trans he)
        exact absurd (hup.symm.trans hdown) (by simp)
      · exact fun h => some_ne_none rt (hrt.symm.trans h.2)
    rw [htrash, Set.ncard_coe_finset, hs.good.rttrash, Core.trash, sum_boole]
  distinct i j rt rt' hi hj hrt hrt' hsame := by
    obtain ⟨e, he, hup⟩ := (hs.good.at_ i).inTable_iff.1 hi
    obtain ⟨e', he', hup'⟩ := (hs.good.at_ j).inTable_iff.1 hj
    obtain rfl := some_inj.1 (hrt.symm.trans he)
    obtain rfl := some_inj.1 (hrt'.symm.trans he')
    exact hs.good.distinct i j rt rt' hrt hrt' hup hup' hsame

/-! ### The steps -/

/-- A holder that changes its pointer, in a table that is good for the new numbers. -/
theorem Inv.put {s : State H} (hs : Inv m s) {k : H} {r : Core × Route} (hgood : Good m r.1 refs)
    (hrefs : ∀ i, refs i = (s.holders i).ncard - (if (s.route k).ro_rt = .entry i then 1 else 0) +
      if r.2.ro_rt = .entry i then 1 else 0) : Inv m (s.put k r) := by
  have heq : ∀ i, (s.put k r).holders i =
      Lib.holders (update (Route.ro_rt ∘ s.route) k r.2.ro_rt) (.entry i) := fun i => by
    rw [State.holders, State.put, comp_update]
  refine ⟨fun i => ?_, ?_⟩
  · rw [heq]
    exact finite_holders_update (hs.finite i) k _
  · obtain rfl : refs = fun i => ((s.put k r).holders i).ncard := funext fun i => by
      rw [heq, ncard_holders_update (hs.finite i), hrefs]
      rfl
    exact hgood

/-- A holder whose pointer is to the same entry, or to none, as before. -/
theorem Inv.same {s : State H} (hs : Inv m s) {k : H}
    (hro : ∀ i, ro.ro_rt = .entry i ↔ (s.route k).ro_rt = .entry i) : Inv m (s.put k (s.core, ro)) := by
  refine hs.put hs.good fun i => ?_
  simp only [hro i]
  split_ifs with hi
  · exact (Nat.sub_add_cancel ((Set.ncard_pos (hs.finite i)).2 ⟨k, hi⟩)).symm
  · rfl

/-- A holder that points at `i` no more. -/
theorem Inv.dropped {s : State H} (hs : Inv m s) {k : H}
    (hi : (s.route k).ro_rt = .entry i) (hro : ro.ro_rt = .null)
    (hgood : Good m c (update (fun i => (s.holders i).ncard) i ((s.holders i).ncard - 1))) :
    Inv m (s.put k (c, ro)) := by
  refine hs.put hgood fun j => ?_
  rw [hro, hi, update_apply]
  by_cases hj : j = i
  · simp [hj]
  · simp [hj, Ne.symm hj]

omit [DecidableEq H] in
theorem plain_eq_entry {r : Ref} : r.plain = .entry i ↔ r = .entry i := by
  cases r <;> simp [Ref.plain]

/-- A call that meets the condition touches no freed entry and keeps the books. -/
theorem Inv.step {s : State H} {a : Call H} (hs : Inv m s) (hok : CallOk m s a) : Safe (Inv m) (exec m s a) := by
  have hheld : ∀ k i, (s.route k).ro_rt = .entry i → 0 < (s.holders i).ncard := fun k i hi =>
    (Set.ncard_pos (hs.finite i)).2 ⟨k, hi⟩
  cases a with
  | ifup ifp up =>
    refine ⟨hs.finite, fun i => ?_, hs.good.nodup, hs.good.once, hs.good.rttrash, hs.good.distinct⟩
    have hat := hs.good.at_ i
    exact ⟨hat.refcnt, hat.fits, hat.held, hat.hash, hat.chain, hat.down, hat.made, hat.freed⟩
  | fill k dst nowild =>
    rw [exec]
    by_cases hnull : (s.route k).ro_rt = .null
    · rw [if_pos hnull]
      refine hs.same fun i => ?_
      rw [hnull]
      cases nowild <;> simp
    · rw [if_neg hnull]
      exact hs
  | rtalloc k =>
    refine (hs.good.rtalloc (hheld k) hok).bind fun r hr => ?_
    obtain ⟨c, ro⟩ := r
    rcases hr with hr | ⟨hnot, j, hro, hgood⟩
    · cases hr
      exact hs.same fun i => plain_eq_entry
    · refine hs.put hgood fun i => ?_
      rw [update_apply, if_neg (hnot i), hro]
      by_cases hi : i = j
      · simp [hi]
      · simp [hi, Ne.symm hi]
  | rtfree k =>
    rw [exec]
    cases hro : (s.route k).ro_rt with
    | null => exact (by simp : Trap.panic "rtfree" ≠ .stale)
    | nowildcard => exact hs.same fun i => by simp [hro]
    | entry i =>
      obtain ⟨c, hc, hgood⟩ := hs.good.rtfree (hheld k i hro)
      dsimp only
      rw [hc]
      exact hs.dropped hro rfl hgood
  | rtredirect dst gateway src flags mbuf =>
    exact (hs.good.rtredirect hok).bind fun c hc => ⟨hs.finite, hc⟩
  | rtrequest req entry =>
    refine (hs.good.rtrequest fun haf => ?_).bind fun r hr => ⟨hs.finite, hr⟩
    cases req with
    | SIOCADDRT mbuf => exact .inl (hok haf)
    | SIOCDELRT => exact .inr rfl
  | inLosing k =>
    refine (hs.good.inLosing (hheld k)).bind fun r hr => ?_
    obtain ⟨c, ro⟩ := r
    obtain ⟨rfl, ⟨hnot, rfl⟩ | ⟨i, hi, hgood⟩⟩ := hr
    · exact hs.same fun i => by simp [hnot i]
    · exact hs.dropped hi rfl hgood

theorem good_empty (m : Machine) (ifup : ℕ → Bool) : Good m (.empty ifup) fun _ => 0 where
  at_ i := by constructor <;> simp [Core.empty]
  nodup _ _ := List.nodup_nil
  once := List.nodup_nil
  rttrash := rfl
  distinct i j rt rt' h := by simp [Core.empty] at h

omit [DecidableEq H] in
theorem inv_init {s : State H} {ifup : ℕ → Bool} (hcore : s.core = .empty ifup)
    (hnull : ∀ k, (s.route k).ro_rt = .null) : Inv m s := by
  have hemp : ∀ i, s.holders i = ∅ := fun i => Set.eq_empty_of_forall_notMem fun k hk => by
    simp [State.holders, Lib.holders, hnull] at hk
  refine ⟨fun i => by simp [hemp], ?_⟩
  simp only [hemp, Set.ncard_empty, hcore]
  exact good_empty m ifup

/-- In every run whose calls meet the condition, the books are right, and no call that
    meets it touches a freed entry. -/
theorem route_sound {s : State H} (hs : ((system m).restrict (CallOk m)).Reachable s) :
    Sound s ∧ ∀ a, CallOk m s a → exec m s a ≠ .error .stale := by
  have hinv : Inv m s := by
    refine hs.invariant (fun s hs => ?_) fun s a s' hs h => ?_
    · obtain ⟨⟨ifup, hcore⟩, hnull⟩ := hs
      exact inv_init hcore hnull
    · have hexec : (exec m s a).toOption = some s' := h.2
      cases hr : exec m s a with
      | error e => simp [hr, Except.toOption] at hexec
      | ok t =>
        obtain rfl : t = s' := by simpa [hr, Except.toOption] using hexec
        exact (hs.step h.1).result hr
  exact ⟨hinv.sound, fun a hok hstale => (hinv.step hok).error hstale rfl⟩

/-! ### One interface and one holder -/

/-- The internet address of the bytes `a`, `b`, `c` and `d`. -/
def inet (a b c d : UInt8) : Sockaddr := ⟨AF_INET, ![0, 0, a, b, c, d, 0, 0, 0, 0, 0, 0, 0, 0]⟩

/-- A machine with one interface, with the address 10.0.0.1. -/
def oneIf : Machine where
  INET := true
  NS := false
  GATEWAY := false
  ifnet := [⟨false, false, false, [⟨inet 10 0 0 1, inet 10 0 0 1⟩]⟩]
  in_ifaddr := [⟨⟨inet 10 0 0 1, inet 10 0 0 1⟩, 0, 0x0a000000, 0x0a000000, 0xff000000⟩]
  inet := by simp

/-- An empty table and one holder, for 192.5.0.1. -/
def oneHolder : State Unit := ⟨.empty fun _ => true, fun _ => ⟨.null, inet 192 5 0 1⟩⟩

/-- A request for a route to 192.5.0.1 through the host `d` of the network of the interface. -/
def hostVia (d : UInt8) : Entry := ⟨inet 192 5 0 1, inet 10 0 0 d, { gateway := true, host := true }⟩

/-- The table with the entry that was asked for. -/
def added : State Unit :=
  { oneHolder with core := insert oneIf oneHolder.core (hostVia 2) 0xc0050001 0 }

/-- The books after a route was added, and a search for it. -/
theorem route_sound_added : Sound added ∧ exec oneIf added (.rtalloc ()) ≠ .error .stale := by
  have hexec : (exec oneIf oneHolder (.rtrequest (.SIOCADDRT true) (hostVia 2))).toOption = some added := rfl
  have h := route_sound (m := oneIf)
    (.step (a := .rtrequest (.SIOCADDRT true) (hostVia 2)) (.init ⟨⟨_, rfl⟩, fun _ => rfl⟩) ⟨fun _ => .inl rfl, hexec⟩)
  refine ⟨h.1, h.2 (.rtalloc ()) (.inr (.inr fun j hj => ⟨fun _ => by simp [added, oneHolder], fun rt hrt => ?_⟩))⟩
  obtain rfl : j = 0 := by
    have hzero : lookup oneIf added.core (added.route ()).ro_dst = .ok (some 0) := rfl
    exact some_inj.1 (Except.ok.inj (hj.symm.trans hzero))
  have hcnt : (added.core.entry 0).map Rtentry.rt_refcnt = some 0 := rfl
  rw [hrt] at hcnt
  rw [some_inj.1 hcnt]
  decide

/-- If calls lead to a state that a test accepts, and no sound state passes it, then
    the books are not always right. -/
theorem not_sound_of_run (as : List (Call Unit)) (test : State Unit → Bool)
    (hrun : (as.foldlM (fun s a => (exec oneIf s a).toOption) oneHolder).any test = true)
    (htest : ∀ s, Sound s → test s = false) :
    ¬∀ s : State Unit, (system oneIf).Reachable s → Sound s := by
  intro h
  obtain ⟨s, hs, hpass⟩ := (any_eq_true _ _).1 hrun
  have hinit : (system oneIf).Reachable oneHolder := .init ⟨⟨_, rfl⟩, fun _ => rfl⟩
  have hrch := System.Reachable.foldlM hinit hs
  exact Bool.noConfusion (hpass.symm.trans (htest s (h s hrch)))

/-- The route of the holder goes down and comes back as another entry: the first one
    has lost its holder, but not its reference. -/
theorem route_leaked : ¬∀ s : State Unit, (system oneIf).Reachable s → Sound s := by
  refine not_sound_of_run [.rtrequest (.SIOCADDRT true) (hostVia 2), .rtalloc (), .rtrequest .SIOCDELRT (hostVia 2),
    .rtrequest (.SIOCADDRT true) (hostVia 2), .rtalloc ()]
    (fun s => (s.core.entry 0).any fun rt => rt.rt_refcnt = 1 ∧ (s.route ()).ro_rt ≠ .entry 0) (by decide +kernel)
    fun s hs => ?_
  rw [any_eq_false]
  intro rt hrt
  have hcnt := (hs.refcnt 0 rt hrt).2.1
  refine decide_eq_false fun ⟨hone, hroute⟩ => ?_
  have hemp : s.holders 0 = ∅ := Set.eq_empty_of_forall_notMem fun _ hk => hroute hk
  rw [hemp, Set.ncard_empty, hone] at hcnt
  exact absurd hcnt (by decide)

/-- The first two entries are in the same chain, with the same key. -/
def twice (host : Bool) (b : ℕ) (s : State Unit) : Bool :=
  (s.core.entry 0).any fun rt => (s.core.entry 1).any fun rt' =>
    (0 ∈ s.core.table host b ∧ 1 ∈ s.core.table host b) ∧
      rt.rt_flags.host = rt'.rt_flags.host ∧ rt.rt_dst = rt'.rt_dst ∧ rt.rt_gateway = rt'.rt_gateway

theorem Sound.not_twice {s : State Unit} (hs : Sound s) (host : Bool) (b : ℕ) : twice host b s = false := by
  rw [Bool.eq_false_iff]
  intro h
  simp only [twice, any_eq_true, decide_eq_true_eq] at h
  obtain ⟨rt, hrt, rt', hrt', ⟨h0, h1⟩, hsame⟩ := h
  exact absurd (hs.distinct 0 1 rt rt' ⟨_, _, h0⟩ ⟨_, _, h1⟩ hrt hrt' hsame) (by decide)

/-- Two routes to a host, and a redirect from the gateway of one to that of the other. -/
theorem gateway_smashed : ¬∀ s : State Unit, (system oneIf).Reachable s → Sound s :=
  not_sound_of_run [.rtrequest (.SIOCADDRT true) (hostVia 2), .rtrequest (.SIOCADDRT true) (hostVia 3),
    .rtredirect (inet 192 5 0 1) (inet 10 0 0 2) (inet 10 0 0 3) { host := true } true]
    (twice true 1) (by decide +kernel) fun _ hs => hs.not_twice true 1

/-- The same route twice, to an address without a family. -/
theorem unspec_twice : ¬∀ s : State Unit, (system oneIf).Reachable s → Sound s :=
  not_sound_of_run [.rtrequest (.SIOCADDRT true) ⟨wildcard, inet 10 0 0 2, { gateway := true }⟩,
    .rtrequest (.SIOCADDRT true) ⟨wildcard, inet 10 0 0 2, { gateway := true }⟩]
    (twice false 0) (by decide +kernel) fun _ hs => hs.not_twice false 0

end Uwisc.Net
