import Uwisc.Lib.System
import Uwisc.Sys.Dnlc

/-!
# Runs of the name cache

What has been entered and dropped is kept in a log beside the cache. In every run in which no entry
that has a credential is taken for another name, and no empty name is entered, the lists and the
holds are right, and a lookup returns what the log says (`dnlc_consistent`).

An entry that is taken keeps its hold on the credential it had. So after 33 names under one
credential there are 33 holds on it, for 32 entries (`dnlc_leaks`).
-/

namespace Uwisc.Dnlc

open Function Lib List Option

/-- A call. A name comes with the character before it in memory. -/
inductive Call
  | enter (before : UInt8) (dp : ℕ) (name : List UInt8) (vp cred : ℕ)
  | lookup (before : UInt8) (dp : ℕ) (name : List UInt8) (cred : ℕ)
  | remove (before : UInt8) (dp : ℕ) (name : List UInt8)
  | purge

def exec (s : Cache) : Call → Option Cache
  | .enter before dp name vp cred => dnlcEnter s before dp name vp cred
  | .lookup before dp name cred => some (dnlcLookup s before dp name cred).2
  | .remove before dp name => dnlcRemove s before dp name
  | .purge => dnlcPurge s

/-- What happens to names. -/
inductive Event
  | entered (k : Key) (vp : ℕ)
  | evicted (k : Key)
  | removed (dp : ℕ) (name : List UInt8)
  | purged

/-- The name is not there any more. -/
def Event.Drops : Event → Key → Prop
  | entered _ _, _ => False
  | evicted k', k => k' = k
  | removed dp name, k => k.dp = dp ∧ k.name = name
  | purged, _ => True

instance : ∀ (e : Event) (k : Key), Decidable (e.Drops k)
  | .entered _ _, _ => inferInstanceAs (Decidable False)
  | .evicted _, _ => inferInstanceAs (Decidable (_ = _))
  | .removed _ _, _ => inferInstanceAs (Decidable (_ ∧ _))
  | .purged, _ => inferInstanceAs (Decidable True)

/-- The vnode the name was entered with and has been since. The last event is the first one of the log. -/
def cached : List Event → Key → Option ℕ
  | [], _ => none
  | .entered k' vp :: log, k => if k' = k then some vp else cached log k
  | e :: log, k => if e.Drops k then none else cached log k

/-- The name was entered with the vnode, and was not removed, purged or evicted since. -/
def Entered (log : List Event) (k : Key) (vp : ℕ) : Prop :=
  ∃ newer older, log = newer ++ .entered k vp :: older ∧ ∀ e ∈ newer, ¬e.Drops k

/-- What a call makes happen. A long name is not entered, nor one that is there. -/
def events (s : Cache) (log : List Event) : Call → List Event
  | .enter _ dp name vp cred =>
    let lru := s.ncache (s.lru.next ncLru)
    if name.length ≤ NC_NAMLEN ∧ cred ≠ ANYCRED ∧ cached log ⟨dp, name, cred⟩ = none then
      .entered ⟨dp, name, cred⟩ vp :: if lru.dp ≠ 0 then [.evicted lru.key] else []
    else []
  | .lookup .. => []
  | .remove _ dp name => [.removed dp name]
  | .purge => [.purged]

/-- The cache with its log. -/
def system : System (Cache × List Event) Call :=
  .ofExec {(dnlcInit, [])} fun s a => (exec s.1 a).map fun s' => (s', events s.1 s.2 a ++ s.2)

/-- A name that is entered is not empty, and the entry it takes has no credential. -/
def Proper (s : Cache × List Event) : Call → Prop
  | .enter before dp name _ cred =>
    name ≠ [] ∧ (name.length ≤ NC_NAMLEN → dnlcSearch s.1 dp name (NC_HASH before name dp) cred = none →
      (s.1.ncache (s.1.lru.next ncLru)).cred = NOCRED)
  | _ => True

/-- The lists, the holds and the names are right. -/
structure Consistent (s : Cache) (log : List Event) : Prop where
  lru : s.lru.HasRing ncLru {i | i < NC_SIZE}
  hash : ∀ b < NC_HASH_SIZE, s.hash.HasRing (ncHash b)
    {i | s.Used i ∧ ∀ before, NC_HASH before (s.ncache i).name (s.ncache i).dp = b}
  v_hold : ∀ x ≠ 0, s.v_hold x = refs (fun i => (s.ncache i).dp) x + refs (fun i => (s.ncache i).vp) x
  cr_hold : ∀ c ≠ 0, s.cr_hold c = refs (fun i => (s.ncache i).cred) c
  lookup : ∀ before dp name cred vp, cred ≠ ANYCRED → vp ≠ 0 →
    ((dnlcLookup s before dp name cred).1 = vp ↔ Entered log ⟨dp, name, cred⟩ vp)
  remove : ∀ before dp name, (dnlcRemove s before dp name).isSome
  purge : (dnlcPurge s).isSome

/-! ### The log -/

variable {s s' : Cache} {log : List Event} {k k' : Key} {vp : ℕ} {e : Event} {a : Call}

theorem cached_entered : cached (.entered k' vp :: log) k = if k' = k then some vp else cached log k := rfl

theorem cached_cons (he : ∀ k vp, e ≠ .entered k vp) :
    cached (e :: log) k = if e.Drops k then none else cached log k := by
  cases e with
  | entered k' vp => exact absurd rfl (he k' vp)
  | evicted k' => rfl
  | removed dp name => rfl
  | purged => rfl

/-- A name is only entered if it is not there. -/
def Fresh : List Event → Prop
  | [] => True
  | .entered k _ :: log => cached log k = none ∧ Fresh log
  | _ :: log => Fresh log

theorem Fresh.tail (h : Fresh (e :: log)) : Fresh log := by
  cases e with
  | entered k vp => exact h.2
  | evicted k => exact h
  | removed dp name => exact h
  | purged => exact h

theorem entered_of_cached (h : cached log k = some vp) : Entered log k vp := by
  induction log with
  | nil => simp [cached] at h
  | cons e log ih =>
    by_cases hkey : ∃ vp', e = .entered k vp'
    · obtain ⟨vp', rfl⟩ := hkey
      rw [cached_entered, if_pos rfl] at h
      cases h
      exact ⟨[], log, rfl, by simp⟩
    · have hstep : ¬e.Drops k ∧ cached log k = some vp := by
        cases e with
        | entered k' vp' =>
          have hne : k' ≠ k := fun heq => hkey ⟨vp', by rw [heq]⟩
          rw [cached_entered, if_neg hne] at h
          exact ⟨id, h⟩
        | evicted k' =>
          rw [cached_cons (by simp)] at h
          split_ifs at h with hdrop
          exact ⟨hdrop, h⟩
        | removed dp name =>
          rw [cached_cons (by simp)] at h
          split_ifs at h with hdrop
          exact ⟨hdrop, h⟩
        | purged => simp [cached, Event.Drops] at h
      obtain ⟨newer, older, rfl, hkept⟩ := ih hstep.2
      exact ⟨e :: newer, older, rfl, forall_mem_cons.2 ⟨hstep.1, hkept⟩⟩

theorem Fresh.cached_of_entered (hf : Fresh log) (h : Entered log k vp) : cached log k = some vp := by
  obtain ⟨newer, older, rfl, hkept⟩ := h
  induction newer with
  | nil => rw [nil_append, cached_entered, if_pos rfl]
  | cons e newer ih =>
    obtain ⟨hdrop, hkept⟩ := forall_mem_cons.1 hkept
    have hrs := ih hkept hf.tail
    rw [cons_append] at hf ⊢
    by_cases hent : ∃ k' vp', e = .entered k' vp'
    · obtain ⟨k', vp', rfl⟩ := hent
      have hne : k' ≠ k := by
        rintro rfl
        exact absurd (hrs.symm.trans hf.1) (by simp)
      rw [cached_entered, if_neg hne, hrs]
    · rw [cached_cons fun k' vp' heq => hent ⟨k', vp', heq⟩, if_neg hdrop, hrs]

/-! ### Steps -/

/-- The log says what is in the cache. -/
structure Logged (s : Cache) (log : List Event) : Prop where
  fresh : Fresh log
  cached : ∀ k vp, cached log k = some vp ↔ ∃ i, s.Used i ∧ (s.ncache i).key = k ∧ (s.ncache i).vp = vp

theorem Logged.cached_eq_none (hl : Logged s log) :
    Dnlc.cached log k = none ↔ ∀ i, s.Used i → (s.ncache i).key ≠ k := by
  constructor
  · intro h i hi hkey
    have hsome := (hl.cached k _).2 ⟨i, hi, hkey, rfl⟩
    exact absurd (h.symm.trans hsome) (by simp)
  · intro h
    cases hc : Dnlc.cached log k with
    | none => rfl
    | some vp =>
      obtain ⟨i, hi, hkey, -⟩ := (hl.cached k vp).1 hc
      exact absurd hkey (h i hi)

/-- What drops entries drops their names. -/
theorem Logged.dropped {P : Ncache → Prop} (hl : Logged s log) (hd : Dropped P s s')
    (he : ∀ k vp, e ≠ .entered k vp) (hP : ∀ x : Ncache, P x ↔ e.Drops x.key) : Logged s' (e :: log) where
  fresh := by
    cases e with
    | entered k vp => exact absurd rfl (he k vp)
    | evicted k => exact hl.fresh
    | removed dp name => exact hl.fresh
    | purged => exact hl.fresh
  cached k vp := by
    rw [cached_cons he]
    split_ifs with hdrop
    · refine ⟨fun h => absurd h (by simp), ?_⟩
      rintro ⟨i, hi, rfl, -⟩
      have hi' := (hd.used i).1 hi
      rw [hd.same i hi] at hdrop
      exact absurd ((hP _).2 hdrop) hi'.2
    · rw [hl.cached]
      constructor
      · rintro ⟨i, hi, rfl, hvp⟩
        have hi' := (hd.used i).2 ⟨hi, fun h => hdrop ((hP _).1 h)⟩
        exact ⟨i, hi', by rw [hd.same i hi'], by rw [hd.same i hi', hvp]⟩
      · rintro ⟨i, hi, hkey, hvp⟩
        rw [hd.same i hi] at hkey hvp
        exact ⟨i, ((hd.used i).1 hi).1, hkey, hvp⟩

/-- The name of the entry that is taken goes, if it had one. -/
theorem Logged.evicted (hl : Logged s log) (hs : Inv s) {i : ℕ} (hi : i < NC_SIZE) :
    Fresh ((if (s.ncache i).dp ≠ 0 then [.evicted (s.ncache i).key] else []) ++ log) ∧
      ∀ k vp, Dnlc.cached ((if (s.ncache i).dp ≠ 0 then [.evicted (s.ncache i).key] else []) ++ log) k = some vp ↔
        ∃ j, j ≠ i ∧ s.Used j ∧ (s.ncache j).key = k ∧ (s.ncache j).vp = vp := by
  by_cases hdp : (s.ncache i).dp = 0
  · rw [if_neg (not_not.2 hdp)]
    refine ⟨hl.fresh, fun k vp => (hl.cached k vp).trans (exists_congr fun j => ?_)⟩
    refine ⟨fun h => ⟨?_, h⟩, And.right⟩
    rintro rfl
    exact h.1.2 hdp
  · rw [if_pos hdp]
    refine ⟨hl.fresh, fun k vp => ?_⟩
    rw [singleton_append, cached_cons (by simp)]
    split_ifs with hdrop
    · obtain rfl : (s.ncache i).key = k := hdrop
      refine ⟨fun h => absurd h (by simp), ?_⟩
      rintro ⟨j, hne, hj, hkey, -⟩
      exact absurd (hs.distinct j i hj ⟨hi, hdp⟩ hkey) hne
    · rw [hl.cached]
      refine exists_congr fun j => ⟨fun h => ⟨?_, h⟩, And.right⟩
      rintro rfl
      exact hdrop h.2.1

theorem Logged.take (hl : Logged s log) (hs : Inv s) {i b dp cred : ℕ} {name : List UInt8} (hi : i < NC_SIZE)
    (hdp : dp ≠ 0) (hfrs : ∀ j, s.Used j → (s.ncache j).key ≠ ⟨dp, name, cred⟩) :
    Logged (take s i b dp name vp cred) (.entered ⟨dp, name, cred⟩ vp ::
      (if (s.ncache i).dp ≠ 0 then [.evicted (s.ncache i).key] else []) ++ log) := by
  obtain ⟨hf, hcac⟩ := hl.evicted hs hi
  refine ⟨⟨?_, hf⟩, fun k vp' => ?_⟩
  · refine eq_none_iff_forall_not_mem.2 fun vp' h => ?_
    obtain ⟨j, -, hj, hkey, -⟩ := (hcac _ _).1 h
    exact hfrs j hj hkey
  · rw [cons_append, cached_entered]
    by_cases hkey : ⟨dp, name, cred⟩ = k
    · subst hkey
      rw [if_pos rfl]
      constructor
      · rintro ⟨⟩
        refine ⟨i, (take_used hi hdp).2 (.inl rfl), ?_⟩
        rw [take_ncache_self]
        exact ⟨rfl, rfl⟩
      · rintro ⟨j, hj, hkey, hvp⟩
        obtain rfl | ⟨hne, hj⟩ := (take_used hi hdp).1 hj
        · rw [take_ncache_self] at hvp
          exact congrArg some hvp
        · rw [take_ncache hne] at hkey
          exact absurd hkey (hfrs j hj)
    · rw [if_neg hkey, hcac]
      constructor
      · rintro ⟨j, hne, hj, hkey', hvp⟩
        refine ⟨j, (take_used hi hdp).2 (.inr ⟨hne, hj⟩), ?_⟩
        rw [take_ncache hne]
        exact ⟨hkey', hvp⟩
      · rintro ⟨j, hj, hkey', hvp⟩
        obtain rfl | ⟨hne, hj⟩ := (take_used hi hdp).1 hj
        · rw [take_ncache_self] at hkey'
          exact absurd hkey' hkey
        · rw [take_ncache hne] at hkey' hvp
          exact ⟨j, hne, hj, hkey', hvp⟩

theorem Inv.remove_all (hs : Inv s) (before : UInt8) (dp : ℕ) (name : List UInt8) :
    ∃ s', dnlcRemove s before dp name = some s' ∧ Dropped (fun e => e.dp = dp ∧ e.name = name) s s' := by
  rw [dnlcRemove]
  split_ifs with hlen
  · refine ⟨s, rfl, Dropped.refl hs ?_⟩
    rintro i hi ⟨-, rfl⟩
    exact absurd (hs.name i hi).2 (not_le.2 hlen)
  · exact hs.remove (NC_SIZE + 1) (by omega)

/-- What a proper call keeps. -/
theorem step_inv (hs : Inv s) (hl : Logged s log) (hok : Proper (s, log) a) (h : exec s a = some s') :
    Inv s' ∧ Logged s' (events s log a ++ log) := by
  cases a with
  | enter before dp name vp cred =>
    have hkey : dnlcSearch s dp name (NC_HASH before name dp) cred = none →
        ∀ j, s.Used j → (s.ncache j).key ≠ ⟨dp, name, cred⟩ := fun hnone j hj hkey => by
      obtain ⟨hdp, hname, hcr⟩ := Key.mk.inj hkey
      exact hs.search_eq_none hnone hj (hit_iff.2 ⟨hdp, hname, .inr hcr⟩)
    rw [events]
    obtain ⟨rfl, hnot⟩ | ⟨hlen, hnone, hdp, hvp, hcred, rfl⟩ := hs.enter_cases h
    · have hno : ¬(name.length ≤ NC_NAMLEN ∧ cred ≠ ANYCRED ∧ Dnlc.cached log ⟨dp, name, cred⟩ = none) := by
        rintro ⟨hlen, hcred, hc⟩
        obtain hlt | ⟨i, hi⟩ := hnot
        · exact absurd hlen (not_le.2 hlt)
        · obtain ⟨hu, -, hhit⟩ := hs.search_eq_some (NC_HASH_lt ..) hi
          obtain ⟨hdp, hname, hcr⟩ := hit_iff.1 hhit
          refine hl.cached_eq_none.1 hc i hu ?_
          rw [Ncache.key, hdp, hname, hcr.resolve_left hcred]
      rw [if_neg hno]
      exact ⟨hs, hl⟩
    · have hc := hl.cached_eq_none.2 (hkey hnone)
      rw [if_pos ⟨hlen, hcred, hc⟩]
      exact ⟨hs.take hs.lru_next hdp hvp hok.1 hlen (hok.2 hlen hnone) (hkey hnone),
        hl.take hs hs.lru_next hdp (hkey hnone)⟩
  | lookup before dp name cred =>
    cases h
    refine ⟨hs.lookup before dp name cred, hl.fresh, fun k vp => ?_⟩
    simp only [Cache.Used, lookup_ncache]
    exact hl.cached k vp
  | remove before dp name =>
    obtain ⟨t, ht, hdrop⟩ := hs.remove_all before dp name
    obtain rfl := some.inj (ht.symm.trans h)
    exact ⟨hdrop.inv, hl.dropped hdrop (by simp) fun x => Iff.rfl⟩
  | purge =>
    obtain ⟨t, ht, hdrop⟩ := hs.purge (NC_SIZE + 1) (by omega)
    obtain rfl := some.inj (ht.symm.trans h)
    exact ⟨hdrop.inv, hl.dropped hdrop (by simp) fun x => Iff.rfl⟩

theorem consistent (hs : Inv s) (hl : Logged s log) : Consistent s log where
  lru := hs.lru
  hash b hb := by
    have hset : {i | s.Used i ∧ ∀ before, NC_HASH before (s.ncache i).name (s.ncache i).dp = b} =
        chains s (ncHash b) := by
      ext i
      refine and_congr_right fun hi => ⟨fun h => congrArg ncHash (h 0), fun h before => ?_⟩
      rw [NC_HASH_eq (hs.name i hi).1]
      exact Nat.add_left_cancel h
    rw [hset]
    exact hs.hash.ring _ (ncHash_mem s hb)
  v_hold := hs.v_hold
  cr_hold := hs.cr_hold
  lookup before dp name cred vp hcred hvp := by
    rw [hs.lookup_fst before dp name hvp hcred, ← hl.cached]
    exact ⟨entered_of_cached, hl.fresh.cached_of_entered⟩
  remove before dp name := by
    obtain ⟨t, ht, -⟩ := hs.remove_all before dp name
    rw [ht]
    rfl
  purge := by
    obtain ⟨t, ht, -⟩ := hs.purge (NC_SIZE + 1) (by omega)
    rw [dnlcPurge, ht]
    rfl

/-- In every run whose calls are proper, the lists, the holds and the names are right. -/
theorem dnlc_consistent {s : Cache × List Event} (h : (system.restrict Proper).Reachable s) :
    Consistent s.1 s.2 := by
  have hinv : Inv s.1 ∧ Logged s.1 s.2 := by
    refine System.Reachable.invariant (I := fun s => Inv s.1 ∧ Logged s.1 s.2)
      (fun s hs => ?_) (fun s a s' hs hstep => ?_) h
    · obtain rfl : s = (dnlcInit, []) := hs
      refine ⟨inv_init, trivial, fun k vp => ⟨fun h => absurd h (by simp [cached]), ?_⟩⟩
      rintro ⟨i, hi, -⟩
      exact absurd hi (init_used i)
    · obtain ⟨hok, hexec⟩ := hstep
      obtain ⟨t, ht, rfl⟩ := map_eq_some_iff.1 hexec
      exact step_inv hs.1 hs.2 hok ht
  exact consistent hinv.1 hinv.2

/-- The cache after the name `a` of the directory 1 was entered for the vnode 2. -/
theorem dnlc_consistent_one : ∃ s log, exec dnlcInit (.enter 0 1 [97] 2 NOCRED) = some s ∧ Consistent s log := by
  have hsome : (exec dnlcInit (.enter 0 1 [97] 2 NOCRED)).isSome = true := by decide +kernel
  obtain ⟨s, hs⟩ := isSome_iff_exists.1 hsome
  refine ⟨s, _, hs, dnlc_consistent (s := (s, events dnlcInit [] (.enter 0 1 [97] 2 NOCRED) ++ []))
    (.step (a := .enter 0 1 [97] 2 NOCRED) (.init rfl) ⟨⟨by decide, fun _ _ => rfl⟩, ?_⟩)⟩
  change (exec dnlcInit _).map _ = _
  rw [hs]
  rfl

/-! ### A credential that is never released -/

/-- The `k`th of some names. -/
def nth (k : ℕ) : List UInt8 := [UInt8.ofNat (k + 1)]

theorem nth_ne {j k : ℕ} (hjk : j < k) (hk : k < 33) : nth j ≠ nth k := by
  intro h
  have hval := congrArg UInt8.toNat (cons.inj h).1
  rw [UInt8.toNat_ofNat', UInt8.toNat_ofNat'] at hval
  omega

/-- A name that no entry has is entered under the credential 7, which nothing is released for. -/
theorem enter_nth (before : UInt8) {k : ℕ} (hdoing : s.doingcache = true)
    (hlru : s.lru.HasRing ncLru {i | i < NC_SIZE}) (hfrs : ∀ i, (s.ncache i).name ≠ nth k) :
    ∃ i b, dnlcEnter s before 1 (nth k) 2 7 = some (take s i b 1 (nth k) 2 7) := by
  have hnone : dnlcSearch s 1 (nth k) (NC_HASH before (nth k) 1) 7 = none := by
    cases h : dnlcSearch s 1 (nth k) (NC_HASH before (nth k) 1) 7 with
    | none => rfl
    | some i => exact absurd (hit_iff.1 (search_hit h)).2.1 (hfrs i)
  have hne : s.lru.next ncLru ≠ ncLru := fun heq => ncLru_notMem (heq ▸ lru_next_lt hlru)
  refine ⟨s.lru.next ncLru, NC_HASH before (nth k) 1, ?_⟩
  rw [dnlcEnter, hdoing]
  dsimp only
  rw [if_neg (by decide), if_neg (by simp [nth, NC_NAMLEN]), hnone, if_neg (by decide), if_neg hne,
    if_neg (by decide)]

/-- If the books are always right, names can be entered one after the other, and each of them
    takes a hold. -/
theorem holds_grow (hall : ∀ s, system.Reachable s → Consistent s.1 s.2) :
    ∀ k : ℕ, k ≤ 33 → ∃ s log, system.Reachable (s, log) ∧ s.doingcache = true ∧ s.cr_hold 7 = k ∧
      ∀ i, (s.ncache i).name = [] ∨ ∃ j < k, (s.ncache i).name = nth j := by
  intro k
  induction k with
  | zero => exact fun _ => ⟨dnlcInit, [], .init rfl, rfl, rfl, fun _ => .inl rfl⟩
  | succ k ih =>
    intro hk
    obtain ⟨s, log, hrch, hdoing, hhold, hnames⟩ := ih (by omega)
    have hfrs : ∀ i, (s.ncache i).name ≠ nth k := by
      intro i heq
      obtain hnil | ⟨j, hj, hname⟩ := hnames i
      · exact absurd (hnil.symm.trans heq) (by simp [nth])
      · exact nth_ne hj (by omega) (hname.symm.trans heq)
    obtain ⟨i, b, henter⟩ := enter_nth 0 hdoing (hall _ hrch).lru hfrs
    refine ⟨take s i b 1 (nth k) 2 7, events s log (.enter 0 1 (nth k) 2 7) ++ log,
      hrch.step (a := .enter 0 1 (nth k) 2 7) ?_, hdoing, ?_, fun j => ?_⟩
    · change (exec s _).map _ = _
      rw [exec, henter]
      rfl
    · change hold s.cr_hold 7 7 = _
      rw [hold_apply, hhold, if_pos rfl]
      push_cast
      rfl
    · by_cases hj : j = i
      · subst hj
        rw [take_ncache_self]
        exact .inr ⟨k, Nat.lt_succ_self k, rfl⟩
      · rw [take_ncache hj]
        obtain hnil | ⟨m, hm, hname⟩ := hnames j
        · exact .inl hnil
        · exact .inr ⟨m, Nat.lt_succ_of_lt hm, hname⟩

/-- With 33 names under one credential, there are more holds on it than entries. -/
theorem dnlc_leaks : ¬∀ s, system.Reachable s → Consistent s.1 s.2 := by
  intro hall
  obtain ⟨s, log, hrch, -, hhold, -⟩ := holds_grow hall 33 le_rfl
  have hcr := (hall _ hrch).cr_hold 7 (by decide)
  have hle := refs_le (fun i => (s.ncache i).cred) 7
  dsimp only at hcr
  rw [hhold] at hcr
  rw [NC_SIZE] at hle
  omega

end Uwisc.Dnlc
