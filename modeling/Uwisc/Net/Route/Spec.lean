import Mathlib.Algebra.BigOperators.Group.Finset.Basic
import Uwisc.Lib.Outcome
import Uwisc.Net.Route

/-!
# What each routing call does to the table

A table is *good* for the numbers `refs` of references to each entry if its
counts are these, its chains hold the entries that are up, and those that are
down are all referenced, counted as trash, and freed once they are not
(`Good`). What the calls do is stated by how `refs` changes, whoever holds the
references.

* `Good.change`: the goodness of a table in which one entry changed;
* `Good.set`, `Good.delete`, `Good.rtfree`, `Good.insert`: the changes the calls are made of;
* `Good.rtalloc`, `Good.rtrequest`, `Good.rtredirect`, `Good.inLosing`: what each call keeps.
-/

namespace Uwisc.Net

open Except Finset Function Lib Option

variable {m : Machine} {c c' : Core} {refs refs' : ℕ → ℕ} {i : ℕ} {rt rt' : Rtentry}

/-- The hash of a destination in the table of its kind. -/
def hashOf (m : Machine) (dst : Sockaddr) (host : Bool) : BitVec 32 :=
  match (afswitch m dst.sa_family).af_hash with
  | some f => (f dst).of host
  | none => 0

/-- The entry is neither in the table nor freed. -/
def Core.isTrash (c : Core) (i : ℕ) : Bool := (c.entry i).any fun rt => !rt.rt_flags.up

/-- The number of entries out of the table but not freed. -/
def Core.trash (c : Core) : ℤ := ∑ i ∈ Finset.range c.next, if c.isTrash i then 1 else 0

/-- Two entries are for the same destination through the same gateway. -/
def SameKey (rt rt' : Rtentry) : Prop :=
  rt.rt_flags.host = rt'.rt_flags.host ∧ rt.rt_dst = rt'.rt_dst ∧ rt.rt_gateway = rt'.rt_gateway

/-- The entry is in the chain `b` of its table. -/
def InChain (m : Machine) (rt : Rtentry) (host : Bool) (b : ℕ) : Prop :=
  rt.rt_flags.up = true ∧ rt.rt_flags.host = host ∧ RTHASHMOD m rt.rt_hash = b

/-- The entry `i` is right, if there are `refs i` references to it. -/
structure At (m : Machine) (c : Core) (refs : ℕ → ℕ) (i : ℕ) : Prop where
  refcnt : ∀ rt, c.entry i = some rt → rt.rt_refcnt = refs i
  fits : refs i ≤ 32767
  held : 0 < refs i → c.entry i ≠ none
  hash : ∀ rt, c.entry i = some rt → rt.rt_hash = hashOf m rt.rt_dst rt.rt_flags.host
  chain : ∀ host b, i ∈ c.table host b ↔ ∃ rt, c.entry i = some rt ∧ InChain m rt host b
  down : ∀ rt, c.entry i = some rt → rt.rt_flags.up = false → 0 < refs i
  made : c.entry i ≠ none → i < c.next
  freed : i ∈ c.freed ↔ i < c.next ∧ c.entry i = none

/-- The table is right, if there are `refs i` references to each entry `i`. -/
structure Good (m : Machine) (c : Core) (refs : ℕ → ℕ) : Prop where
  at_ : ∀ i, At m c refs i
  nodup : ∀ host b, (c.table host b).Nodup
  once : c.freed.Nodup
  rttrash : c.rttrash = c.trash
  distinct : ∀ i j rt rt', c.entry i = some rt → c.entry j = some rt' → rt.rt_flags.up = true →
    rt'.rt_flags.up = true → SameKey rt rt' → i = j

/-! ### Changing one entry -/

theorem get_eq_ok : c.get i = .ok rt ↔ c.entry i = some rt := by
  rw [Core.get]
  cases c.entry i <;> simp

/-- Only the entry `i` differs. -/
structure Others (i : ℕ) (c c' : Core) : Prop where
  entry : ∀ j, j ≠ i → c'.entry j = c.entry j
  chain : ∀ j, j ≠ i → ∀ host b, j ∈ c'.table host b ↔ j ∈ c.table host b
  freed : ∀ j, j ≠ i → (j ∈ c'.freed ↔ j ∈ c.freed)
  next : ∀ j, j ≠ i → (j < c'.next ↔ j < c.next)

variable {dst gateway src : Sockaddr} {c1 c2 c3 : Core} {host mbuf : Bool} {j b : ℕ} {ro : Route}
  {req : Req} {entry : Entry} {flags : Flags}

theorem isTrash_congr (h : c'.entry j = c.entry j) : c'.isTrash j = c.isTrash j := by
  rw [Core.isTrash, h, Core.isTrash]

theorem At.congr (h : At m c refs i) (hij : i ≠ j) (ho : Others j c c') (hrefs : refs' i = refs i) :
    At m c' refs' i where
  refcnt rt hrt := by rw [hrefs, h.refcnt rt (ho.entry i hij ▸ hrt)]
  fits := hrefs ▸ h.fits
  held hpos := ho.entry i hij ▸ h.held (hrefs ▸ hpos)
  hash rt hrt := h.hash rt (ho.entry i hij ▸ hrt)
  chain host b := by rw [ho.chain i hij, h.chain, ho.entry i hij]
  down rt hrt hup := hrefs ▸ h.down rt (ho.entry i hij ▸ hrt) hup
  made he := (ho.next i hij).2 (h.made (ho.entry i hij ▸ he))
  freed := by rw [ho.freed i hij, h.freed, ho.next i hij, ho.entry i hij]

/-- The trash after a change of the entry `i`. -/
theorem trash_change (ho : Others i c c') (hnx : c'.next = c.next) (hi : i < c.next) :
    c'.trash = c.trash + (if c'.isTrash i then 1 else 0) - if c.isTrash i then 1 else 0 := by
  have hmem := Finset.mem_range.2 hi
  have hrs : ∑ j ∈ (Finset.range c.next).erase i, (if c'.isTrash j then (1 : ℤ) else 0) =
      ∑ j ∈ (Finset.range c.next).erase i, if c.isTrash j then 1 else 0 :=
    sum_congr rfl fun j hj => by rw [isTrash_congr (ho.entry j (ne_of_mem_erase hj))]
  rw [Core.trash, hnx, Core.trash, ← add_sum_erase _ _ hmem,
    ← add_sum_erase (Finset.range c.next) _ hmem, hrs]
  ring

/-- A table in which only the entry `i` changed is good if that entry is right and no
    other one has its key. -/
theorem Good.change (hc : Good m c refs) (ho : Others i c c') (hrefs : ∀ j, j ≠ i → refs' j = refs j)
    (hat : At m c' refs' i) (hnd : ∀ host b, (c'.table host b).Nodup) (honce : c'.freed.Nodup)
    (htrash : c'.rttrash = c'.trash)
    (hkey : ∀ rt', c'.entry i = some rt' → rt'.rt_flags.up = true → ∀ j rt, j ≠ i →
      c.entry j = some rt → rt.rt_flags.up = true → ¬SameKey rt' rt) : Good m c' refs' where
  at_ j := by
    by_cases hj : j = i
    · exact hj ▸ hat
    · exact (hc.at_ j).congr hj ho (hrefs j hj)
  nodup := hnd
  once := honce
  rttrash := htrash
  distinct j1 j2 e1 e2 h1 h2 hup1 hup2 hsame := by
    by_cases hj1 : j1 = i <;> by_cases hj2 : j2 = i
    · rw [hj1, hj2]
    · exact absurd hsame (hkey e1 (hj1 ▸ h1) hup1 j2 e2 hj2 (ho.entry j2 hj2 ▸ h2) hup2)
    · exact absurd ⟨hsame.1.symm, hsame.2.1.symm, hsame.2.2.symm⟩
        (hkey e2 (hj2 ▸ h2) hup2 j1 e1 hj1 (ho.entry j1 hj1 ▸ h1) hup1)
    · exact hc.distinct j1 j2 e1 e2 (ho.entry j1 hj1 ▸ h1) (ho.entry j2 hj2 ▸ h2) hup1 hup2 hsame

theorem others_set (i : ℕ) (rt : Rtentry) (c : Core) (trash : ℤ) :
    Others i c { c.set i rt with rttrash := trash } where
  entry _ hj := update_of_ne hj _ _
  chain _ _ _ _ := Iff.rfl
  freed _ _ := Iff.rfl
  next _ _ := Iff.rfl

/-- Changing an entry other than its destination and its flags. -/
theorem Good.set (hc : Good m c refs) (hi : c.entry i = some rt) (hhash : rt'.rt_hash = rt.rt_hash)
    (hdst : rt'.rt_dst = rt.rt_dst) (hflg : rt'.rt_flags = rt.rt_flags) (hcnt : rt'.rt_refcnt = refs' i)
    (hrefs : ∀ j, j ≠ i → refs' j = refs j) (hfits : refs' i ≤ 32767)
    (hdown : rt.rt_flags.up = false → 0 < refs' i)
    (hkey : rt.rt_flags.up = true → ∀ j rt1, j ≠ i → c.entry j = some rt1 → rt1.rt_flags.up = true →
      ¬SameKey rt' rt1) : Good m (c.set i rt') refs' := by
  have hself : (c.set i rt').entry i = some rt' := update_self i _ _
  have hsame : ∀ e, (c.set i rt').entry i = some e → e = rt' := fun e he =>
    (some_inj.1 (hself.symm.trans he)).symm
  have hat := hc.at_ i
  have hmade : i < c.next := hat.made (by simp [hi])
  refine hc.change (others_set i rt' c c.rttrash) hrefs ⟨?_, hfits, ?_, ?_, ?_, ?_, fun _ => hmade, ?_⟩ hc.nodup hc.once ?_
    fun e he hup => hsame e he ▸ hkey (hflg ▸ hsame e he ▸ hup)
  · exact fun e he => hsame e he ▸ hcnt
  · exact fun _ => by simp [hself]
  · intro e he
    rw [hsame e he, hhash, hdst, hflg]
    exact hat.hash rt hi
  · intro host b
    refine (hat.chain host b).trans ?_
    rw [hself, hi]
    simp only [some.injEq, exists_eq_left', InChain, hflg, hhash]
  · exact fun e he hup => hdown (hflg ▸ hsame e he ▸ hup)
  · refine hat.freed.trans ?_
    rw [hself, hi]
    exact ⟨fun h => absurd h.2 (some_ne_none _), fun h => absurd h.2 (some_ne_none _)⟩
  · have : (c.set i rt').isTrash i = c.isTrash i := by
      rw [Core.isTrash, hself, Core.isTrash, hi, any_some, any_some, hflg]
    have htrash : (c.set i rt').trash =
        c.trash + (if (c.set i rt').isTrash i then 1 else 0) - if c.isTrash i then 1 else 0 :=
      trash_change (others_set i rt' c c.rttrash) rfl hmade
    rw [htrash, this, add_sub_cancel_right]
    exact hc.rttrash

/-- Freeing an entry that nothing references. -/
theorem Good.free (hc : Good m c refs) (hi : c.entry i = some rt) (ho : Others i c c')
    (hnone : c'.entry i = none) (hout : ∀ host b, i ∉ c'.table host b)
    (hnd : ∀ host b, (c'.table host b).Nodup) (hfrd : c'.freed = i :: c.freed) (hnx : c'.next = c.next)
    (htrash : c'.rttrash = c.rttrash - if c.isTrash i then 1 else 0)
    (hrefs : ∀ j, j ≠ i → refs' j = refs j) (hzero : refs' i = 0) : Good m c' refs' := by
  have hno : ∀ {e}, c'.entry i ≠ some e := fun {e} he => some_ne_none e (he.symm.trans hnone)
  have hmade : i < c.next := (hc.at_ i).made (by simp [hi])
  refine hc.change ho hrefs ⟨fun e he => absurd he hno, by omega, fun h => by omega, fun e he => absurd he hno,
    fun host b => ?_, fun e he => absurd he hno, fun h => absurd hnone h, ?_⟩ hnd ?_ ?_
    fun e he => absurd he hno
  · exact ⟨fun h => absurd h (hout host b), fun ⟨e, he, _⟩ => absurd he hno⟩
  · rw [hfrd, hnx]
    exact ⟨fun _ => ⟨hmade, hnone⟩, fun _ => List.mem_cons_self⟩
  · rw [hfrd, List.nodup_cons]
    exact ⟨fun h => some_ne_none rt (hi.symm.trans ((hc.at_ i).freed.1 h).2), hc.once⟩
  · have hcln : c'.isTrash i = false := by rw [Core.isTrash, hnone, any_none]
    rw [trash_change ho hnx hmade, hcln, htrash, hc.rttrash]
    simp

theorem mFree_eq (hi : c.entry i = some rt) :
    mFree c i = .ok { c with entry := update c.entry i none, freed := i :: c.freed } := by
  rw [mFree, get_eq_ok.2 hi]
  rfl

theorem others_free (i : ℕ) (c : Core) :
    Others i c { c with entry := update c.entry i none, freed := i :: c.freed } where
  entry _ hj := update_of_ne hj _ _
  chain _ _ _ _ := Iff.rfl
  freed _ hj := by simp [hj]
  next _ _ := Iff.rfl

theorem Others.trans (h1 : Others i c1 c2) (h2 : Others i c2 c3) : Others i c1 c3 where
  entry j hj := (h2.entry j hj).trans (h1.entry j hj)
  chain j hj host b := (h2.chain j hj host b).trans (h1.chain j hj host b)
  freed j hj := (h2.freed j hj).trans (h1.freed j hj)
  next j hj := (h2.next j hj).trans (h1.next j hj)

/-! ### References -/

/-- The computation touches no freed entry, and what it gives meets `Q`. -/
abbrev Safe {α : Type} (Q : α → Prop) (x : Except Trap α) : Prop := Ends (· ≠ .stale) Q x

theorem safe_call {α : Type} (f : Option α) : Safe (fun g => f = some g) (call f) := by
  cases f <;> simp [call]

theorem safe_get (hi : c.entry i = some rt) : Safe (· = rt) (c.get i) := by
  rw [get_eq_ok.2 hi]
  exact rfl

/-- Taking a reference. -/
theorem Good.hold (hc : Good m c refs) (hi : c.entry i ≠ none) (hfits : refs i < 32767) :
    ∃ c', hold c i = .ok c' ∧ Good m c' (update refs i (refs i + 1)) := by
  obtain ⟨rt, hrt⟩ := ne_none_iff_exists'.1 hi
  have hcnt := (hc.at_ i).refcnt rt hrt
  refine ⟨_, by rw [Net.hold, get_eq_ok.2 hrt]; rfl, ?_⟩
  refine hc.set hrt rfl rfl rfl ?_ (fun j hj => update_of_ne hj _ _) ?_ ?_ ?_
  · rw [update_self, hcnt]
    push_cast
    exact wrap_short (by omega) (by omega)
  · rw [update_self]
    omega
  · exact fun _ => by rw [update_self]; omega
  · exact fun hup j e hj he hup' hsame => hj (hc.distinct i j rt e hrt he hup hup' hsame).symm

/-- Giving back a reference frees the entry if it is trash and this was the last one. -/
theorem Good.rtfree (hc : Good m c refs) (hpos : 0 < refs i) :
    ∃ c', rtfree c i = .ok c' ∧ Good m c' (update refs i (refs i - 1)) := by
  obtain ⟨rt, hrt⟩ := ne_none_iff_exists'.1 ((hc.at_ i).held hpos)
  have hcnt := (hc.at_ i).refcnt rt hrt
  have hfits := (hc.at_ i).fits
  have hwrap : wrap 16 (rt.rt_refcnt - 1) = ((refs i - 1 : ℕ) : ℤ) := by
    rw [hcnt, Nat.cast_sub (by omega), Nat.cast_one]
    exact wrap_short (by omega) (by omega)
  rw [Net.rtfree, get_eq_ok.2 hrt]
  simp only [bind, Except.bind, hwrap]
  split_ifs with hlast
  · -- The last reference to an entry that is down.
    obtain ⟨hzero, hdown⟩ := hlast
    rw [mFree_eq (update_self i _ _)]
    have hdown : rt.rt_flags.up = false := by simpa using hdown
    have ho := others_free i { c.set i { rt with rt_refcnt := ((refs i - 1 : ℕ) : ℤ) } with rttrash := c.rttrash - 1 }
    refine ⟨_, rfl, hc.free hrt ⟨fun j hj => ?_, ho.chain, ho.freed, ho.next⟩ (update_self i _ _)
      (fun host b hin => ?_) hc.nodup rfl rfl ?_ (fun j hj => update_of_ne hj _ _) ?_⟩
    · exact (ho.entry j hj).trans (update_of_ne hj _ _)
    · obtain ⟨e, he, hup, -⟩ := ((hc.at_ i).chain host b).1 hin
      rw [some_inj.1 (hrt.symm.trans he), hup] at hdown
      exact Bool.noConfusion hdown
    · have : c.isTrash i = true := by rw [Core.isTrash, hrt, any_some, hdown, Bool.not_false]
      rw [this, if_pos rfl]
    · rw [update_self]
      omega
  · refine ⟨_, rfl, hc.set hrt rfl rfl rfl ?_ (fun j hj => update_of_ne hj _ _) ?_ ?_ ?_⟩
    · rw [update_self]
    · rw [update_self]
      omega
    · intro hdown
      rw [update_self]
      by_contra hzero
      exact hlast ⟨by omega, by simp [hdown]⟩
    · exact fun hup j e hj he hup' hsame => hj (hc.distinct i j rt e hrt he hup hup' hsame).symm

/-! ### Chains -/

theorem table_setChain (host host' : Bool) (b b' : ℕ) (l : List ℕ) :
    (c.setChain host b l).table host' b' = if host' = host ∧ b' = b then l else c.table host' b' := by
  simp only [Core.setChain]
  by_cases hh : host' = host
  · subst hh
    simp [update_apply]
  · rw [update_of_ne hh, if_neg fun h => hh h.1]

theorem mem_setChain {host' : Bool} {b' : ℕ} {l : List ℕ} :
    j ∈ (c.setChain host b l).table host' b' ↔
      if host' = host ∧ b' = b then j ∈ l else j ∈ c.table host' b' := by
  rw [table_setChain]
  split_ifs <;> rfl

theorem nodup_setChain (hc : ∀ host b, (c.table host b).Nodup) (host : Bool) (b : ℕ) {l : List ℕ} (hl : l.Nodup)
    (host' : Bool) (b' : ℕ) : ((c.setChain host b l).table host' b').Nodup := by
  rw [table_setChain]
  split_ifs
  · exact hl
  · exact hc _ _

theorem others_erase (host : Bool) (b i : ℕ) (c : Core) :
    Others i c (c.setChain host b ((c.table host b).erase i)) where
  entry _ _ := rfl
  chain j hj host' b' := by
    rw [mem_setChain]
    split_ifs with h
    · rw [h.1, h.2, List.mem_erase_of_ne hj]
    · rfl
  freed _ _ := Iff.rfl
  next _ _ := Iff.rfl

/-- Taking an entry out of its chain frees it, or makes it trash if it is referenced. -/
theorem Good.delete (hc : Good m c refs) (hin : i ∈ c.table host b) :
    ∃ c', delete c host b i = .ok c' ∧ Good m c' refs := by
  obtain ⟨rt, hrt, hup, hhost, hb⟩ := ((hc.at_ i).chain host b).1 hin
  have hcnt := (hc.at_ i).refcnt rt hrt
  have hout : ∀ host' b', i ∉ (c.setChain host b ((c.table host b).erase i)).table host' b' := by
    intro host' b'
    rw [mem_setChain]
    split_ifs with h
    · exact (hc.nodup host b).not_mem_erase
    · intro hin'
      obtain ⟨e, he, -, hhost', hb'⟩ := ((hc.at_ i).chain host' b').1 hin'
      obtain rfl := some_inj.1 (hrt.symm.trans he)
      exact h ⟨hhost'.symm.trans hhost, hb'.symm.trans hb⟩
  have hnd := nodup_setChain hc.nodup host b ((hc.nodup host b).erase i)
  have hcln : c.isTrash i = false := by rw [Core.isTrash, hrt, any_some, hup, Bool.not_true]
  rw [Net.delete, get_eq_ok.2 hrt]
  simp only [bind, Except.bind]
  split_ifs with hpos
  · -- Holders remain: only the flag is cleared.
    have hmade : i < c.next := (hc.at_ i).made (by simp [hrt])
    refine ⟨_, rfl, hc.change ((others_erase host b i c).trans (others_set i _ _ _)) (fun _ _ => rfl)
      ⟨fun e he => ?_, (hc.at_ i).fits, fun _ => ?_, fun e he => ?_, fun host' b' => ?_, fun e _ _ => ?_,
        fun _ => hmade, ?_⟩ hnd hc.once ?_ fun e he hup' => ?_⟩
    · obtain rfl := some_inj.1 ((update_self i _ _).symm.trans he)
      exact hcnt
    · exact fun h => some_ne_none _ ((update_self i _ _).symm.trans h)
    · obtain rfl := some_inj.1 ((update_self i _ _).symm.trans he)
      exact (hc.at_ i).hash rt hrt
    · refine ⟨fun h => absurd h (hout host' b'), fun ⟨e, he, hup', _⟩ => ?_⟩
      obtain rfl := some_inj.1 ((update_self i _ _).symm.trans he)
      exact absurd hup' (by simp)
    · omega
    · refine (hc.at_ i).freed.trans ⟨fun h => ?_, fun h => ?_⟩
      · exact absurd (hrt.symm.trans h.2) (some_ne_none _)
      · exact absurd ((update_self i _ _).symm.trans h.2) (some_ne_none _)
    · have hdty : ∀ c' : Core, c'.entry i = some { rt with rt_flags := { rt.rt_flags with up := false } } →
          c'.isTrash i = true := fun c' h => by rw [Core.isTrash, h, any_some, Bool.not_false]
      refine Eq.trans ?_ (trash_change ((others_erase host b i c).trans (others_set i _ _ _)) rfl hmade).symm
      rw [hcln, hdty _ (update_self i _ _), ← hc.rttrash]
      simp [Core.setChain]
    · obtain rfl := some_inj.1 ((update_self i _ _).symm.trans he)
      exact absurd hup' (by simp)
  · rw [mFree_eq (c := c.setChain host b ((c.table host b).erase i)) hrt]
    refine ⟨_, rfl, hc.free hrt ((others_erase host b i c).trans (others_free i _)) (update_self i _ _) hout hnd
      rfl rfl ?_ (fun _ _ => rfl) (by omega)⟩
    rw [hcln]
    simp [Core.setChain]

/-- A new entry, whose key no other one has. -/
theorem Good.insert (hc : Good m c refs) {hash : BitVec 32} (ifp : ℕ)
    (hhash : hash = hashOf m entry.rt_dst entry.rt_flags.host)
    (hkey : ∀ j rt, c.entry j = some rt → rt.rt_flags.up = true → ¬(rt.rt_flags.host = entry.rt_flags.host ∧
      rt.rt_dst = entry.rt_dst ∧ rt.rt_gateway = entry.rt_gateway)) :
    Good m (insert m c entry hash ifp) refs := by
  have hnew : c.entry c.next = none := of_not_not (mt (hc.at_ c.next).made (lt_irrefl _))
  have hzero : refs c.next = 0 := by
    by_contra hne
    exact (hc.at_ c.next).held (by omega) hnew
  have hnotin : ∀ host b, c.next ∉ c.table host b := by
    intro host b hin
    obtain ⟨e, he, -⟩ := ((hc.at_ c.next).chain host b).1 hin
    exact some_ne_none e (he.symm.trans hnew)
  have hself : (Net.insert m c entry hash ifp).entry c.next = some
      { rt_hash := hash, rt_dst := entry.rt_dst, rt_gateway := entry.rt_gateway
        rt_flags := { entry.rt_flags with up := true }, rt_refcnt := 0, rt_ifp := ifp } := update_self _ _ _
  have ho : Others c.next c (Net.insert m c entry hash ifp) := by
    refine ⟨fun j hj => update_of_ne hj _ _, fun j hj host b => ?_, fun _ _ => Iff.rfl, fun j hj => ?_⟩
    · refine mem_setChain.trans ?_
      split_ifs with h
      · rw [h.1, h.2, List.mem_cons, or_iff_right hj]
      · rfl
    · exact Nat.lt_succ_iff_lt_or_eq.trans (or_iff_left hj)
  refine hc.change ho (fun _ _ => rfl) ⟨fun e he => ?_, (hc.at_ _).fits, fun h => by omega, fun e he => ?_,
    fun host b => ?_, fun e he hdown => ?_, fun _ => Nat.lt_succ_self _, ?_⟩ (nodup_setChain hc.nodup _ _
      (List.nodup_cons.2 ⟨hnotin _ _, hc.nodup _ _⟩)) hc.once ?_ fun e he _ j rt _ hj hup hsame => ?_
  · obtain rfl := some_inj.1 (hself.symm.trans he)
    rw [hzero, Nat.cast_zero]
  · obtain rfl := some_inj.1 (hself.symm.trans he)
    exact hhash
  · refine mem_setChain.trans ?_
    rw [hself]
    simp only [some.injEq, exists_eq_left', InChain, true_and]
    split_ifs with h
    · exact ⟨fun _ => ⟨h.1.symm, h.2.symm⟩, fun _ => List.mem_cons_self⟩
    · exact ⟨fun hin => absurd hin (hnotin _ _), fun h' => absurd ⟨h'.1.symm, h'.2.symm⟩ h⟩
  · obtain rfl := some_inj.1 (hself.symm.trans he)
    exact absurd hdown (by simp)
  · refine ⟨fun h => absurd ((hc.at_ c.next).freed.1 h).1 (lt_irrefl _), fun h => ?_⟩
    exact absurd (hself.symm.trans h.2) (some_ne_none _)
  · have hcln : (Net.insert m c entry hash ifp).isTrash c.next = false := by
      rw [Core.isTrash, hself, any_some, Bool.not_true]
    have hrs : ∑ j ∈ Finset.range c.next, (if (Net.insert m c entry hash ifp).isTrash j then (1 : ℤ) else 0) =
        c.trash := sum_congr rfl fun j hj => by
      rw [isTrash_congr (ho.entry j (Finset.mem_range.1 hj).ne)]
    rw [Core.trash, show (Net.insert m c entry hash ifp).next = c.next + 1 from rfl, Finset.sum_range_succ, hcln,
      hrs, if_neg Bool.false_ne_true, add_zero]
    exact hc.rttrash
  · obtain rfl := some_inj.1 (hself.symm.trans he)
    exact hkey j rt hj hup ⟨hsame.1.symm, hsame.2.1.symm, hsame.2.2.symm⟩

/-! ### Searches -/

/-- What a search of the chain `l` ends with. -/
def Found (c : Core) (hash : BitVec 32) (test : Rtentry → Except Trap Bool) (l : List ℕ) : Option ℕ → Prop
  | some i => i ∈ l ∧ ∃ rt, c.entry i = some rt ∧ test rt = .ok true
  | none => ∀ i rt, i ∈ l → c.entry i = some rt → rt.rt_hash = hash → test rt = .ok false

variable {hash : BitVec 32} {test : Rtentry → Except Trap Bool} {l : List ℕ}

theorem safe_scan (hl : ∀ i, i ∈ l → c.entry i ≠ none) (htest : ∀ rt, Safe (fun _ => True) (test rt)) :
    Safe (Found c hash test l) (scan c hash test l) := by
  induction l with
  | nil => exact fun i rt hi => absurd hi List.not_mem_nil
  | cons i l ih =>
    obtain ⟨rt, hrt⟩ := ne_none_iff_exists'.1 (hl i List.mem_cons_self)
    -- What is found in the rest is found in the chain, if `i` does not pass.
    have hrs : (rt.rt_hash = hash → test rt = .ok false) →
        Safe (Found c hash test (i :: l)) (scan c hash test l) := by
      refine fun hfail => (ih fun j hj => hl j (List.mem_cons_of_mem i hj)).mono fun r hr => ?_
      cases r with
      | some j => exact hr.imp_left (List.mem_cons_of_mem i)
      | none =>
        intro j rt' hj hrt' hhash
        rcases List.mem_cons.1 hj with rfl | hj
        · obtain rfl := some_inj.1 (hrt.symm.trans hrt')
          exact hfail hhash
        · exact hr j rt' hj hrt' hhash
    refine (safe_get hrt).bind fun _ hget => ?_
    subst hget
    refine .ite (fun hne => hrs fun heq => absurd heq hne) fun _ => (htest _).and_eq.bind fun b hb => ?_
    cases b with
    | true => exact ⟨List.mem_cons_self, _, hrt, hb.2⟩
    | false => exact hrs fun _ => hb.2

theorem Good.chain_ne_none (hc : Good m c refs) (h : i ∈ c.table host b) :
    c.entry i ≠ none := by
  obtain ⟨rt, hrt, -⟩ := ((hc.at_ i).chain host b).1 h
  simp [hrt]

/-- The entry found, if any, is up. -/
def Usable (c : Core) (r : Option ℕ) : Prop := ∀ i, r = some i → ∃ rt, c.entry i = some rt ∧ rt.rt_flags.up = true

theorem Found.usable {r : Option ℕ} (h : Found c hash test l r)
    (htest : ∀ rt, test rt = .ok true → usable c rt = true) : Usable c r := by
  rintro i rfl
  obtain ⟨-, rt, hrt, hok⟩ := h
  exact ⟨rt, hrt, (Bool.and_eq_true _ _ ▸ htest rt hok).1⟩

theorem Good.safe_netPass (hc : Good m c refs) (af : ℕ) (hash : BitVec 32) (dst : Sockaddr) :
    Safe (Usable c) (netPass m c af hash dst) := by
  refine (safe_scan (fun i hi => hc.chain_ne_none hi) fun rt => ?_).mono fun r hr => hr.usable fun rt hrt => ?_
  · exact .ite (fun _ => trivial) fun _ => .ite (fun _ => trivial) fun _ => (safe_call _).bind fun _ _ => trivial
  · by_contra hno
    rw [Bool.not_eq_true] at hno
    simp [hno] at hrt

theorem Good.safe_lookup (hc : Good m c refs) (dst : Sockaddr) : Safe (Usable c) (lookup m c dst) := by
  refine (safe_call _).bind fun f _ => (safe_scan (fun i hi => hc.chain_ne_none hi) fun rt =>
    ends_ok.2 trivial).bind fun r hr => ?_
  cases r with
  | some i => exact hr.usable fun rt hrt => (Bool.and_eq_true _ _ ▸ ok.inj hrt).1
  | none =>
    refine (hc.safe_netPass _ _ _).bind fun r hr => ?_
    cases r with
    | some i => exact hr
    | none => exact hc.safe_netPass _ _ _

/-! ### `rtalloc` -/

/-- `rtalloc` does not take a holder away from an entry, and the entry it finds has a
    reference left to count. -/
def RtallocOk (m : Machine) (c : Core) (ro : Route) : Prop :=
  holdsUp c ro.ro_rt = .ok true ∨ AF_MAX ≤ ro.ro_dst.sa_family ∨ ∀ j, lookup m c ro.ro_dst = .ok (some j) →
    (∀ i, ro.ro_rt ≠ .entry i) ∧ ∀ rt, c.entry j = some rt → rt.rt_refcnt < 32767

/-- What `rtalloc` makes of the pointer of a holder when it finds nothing. -/
def Ref.plain : Ref → Ref
  | .nowildcard => .null
  | r => r

/-- What `rtalloc` did: nothing, or it found the entry `j`. -/
inductive Allocated (m : Machine) (c : Core) (ro : Route) : Core × Route → Prop
  | none (h : holdsUp c ro.ro_rt = .ok true ∨ AF_MAX ≤ ro.ro_dst.sa_family ∨ lookup m c ro.ro_dst = .ok none) :
    Allocated m c ro (c, { ro with ro_rt := ro.ro_rt.plain })
  | found {j : ℕ} {rt : Rtentry} {c' : Core} (hup : holdsUp c ro.ro_rt = .ok false)
      (haf : ro.ro_dst.sa_family < AF_MAX) (hj : lookup m c ro.ro_dst = .ok (some j)) (hrt : c.entry j = some rt)
      (hhold : hold c j = .ok c') : Allocated m c ro (c', { ro with ro_rt := .entry j })

theorem Good.safe_rtalloc (hc : Good m c refs) (hheld : ∀ i, ro.ro_rt = .entry i → 0 < refs i) :
    Safe (Allocated m c ro) (rtalloc m c ro) := by
  obtain ⟨ref, dst⟩ := ro
  have hpln : (if ref = .nowildcard then (⟨.null, dst⟩ : Route) else ⟨ref, dst⟩) = ⟨ref.plain, dst⟩ := by
    cases ref <;> rfl
  have hup : Safe (fun b => holdsUp c ref = .ok b) (holdsUp c ref.plain) := by
    cases ref with
    | null => exact rfl
    | nowildcard => exact rfl
    | entry i =>
      obtain ⟨rt, hrt⟩ := ne_none_iff_exists'.1 ((hc.at_ i).held (hheld i rfl))
      simp only [Ref.plain, holdsUp, get_eq_ok.2 hrt]
      exact rfl
  rw [Net.rtalloc, hpln]
  refine hup.bind fun b hb => ?_
  cases b with
  | true => exact .none (.inl hb)
  | false =>
    refine .ite (fun h => Bool.noConfusion h) fun _ => .ite (fun haf => .none (.inr (.inl haf))) fun haf => ?_
    refine (hc.safe_lookup dst).and_eq.bind fun r hr => ?_
    cases r with
    | none => exact .none (.inr (.inr hr.2))
    | some j =>
      obtain ⟨rt, hrt, -⟩ := hr.1 j rfl
      have hhold : Safe (fun c' => Net.hold c j = .ok c') (Net.hold c j) := by
        rw [Net.hold, get_eq_ok.2 hrt]
        exact rfl
      exact hhold.bind fun c' hc' => .found hb (not_le.1 haf) hr.2 hrt hc'

/-- A holder keeps what it has, or gets an entry if it had none. -/
theorem Good.rtalloc (hc : Good m c refs) (hheld : ∀ i, ro.ro_rt = .entry i → 0 < refs i)
    (hok : RtallocOk m c ro) :
    Safe (fun r => r = (c, { ro with ro_rt := ro.ro_rt.plain }) ∨
      (∀ i, ro.ro_rt ≠ .entry i) ∧ ∃ j, r.2 = { ro with ro_rt := .entry j } ∧
        Good m r.1 (update refs j (refs j + 1))) (rtalloc m c ro) := by
  refine (hc.safe_rtalloc hheld).mono fun r hr => ?_
  cases hr with
  | none => exact .inl rfl
  | @found j rt c' hup haf hj hrt hhold =>
    obtain ⟨hnot, hlt⟩ := (hok.resolve_left (by simp [hup])).resolve_left haf.not_ge j hj
    have hcnt := (hc.at_ j).refcnt rt hrt
    have hlt := hlt rt hrt
    obtain ⟨c1, hc1, hgood⟩ := hc.hold (i := j) (by simp [hrt]) (by omega)
    obtain rfl := ok.inj (hhold.symm.trans hc1)
    exact .inr ⟨hnot, j, rfl, hgood⟩

/-! ### `rtrequest` -/

/-- The destination of a request for a network matches itself, unless the family has
    no networks; then no entry in the table is in the way. -/
def RequestOk (m : Machine) (c : Core) (entry : Entry) : Prop :=
  entry.rt_flags.host = true ∨
    (∀ f, (afswitch m entry.rt_dst.sa_family).af_netmatch = some f → f entry.rt_dst entry.rt_dst = true) ∨
    ∀ j rt, c.entry j = some rt → rt.rt_flags.up = true → ¬(rt.rt_flags.host = entry.rt_flags.host ∧
      rt.rt_dst = entry.rt_dst ∧ rt.rt_gateway = entry.rt_gateway)

theorem safe_matching (m : Machine) (entry : Entry) (rt : Rtentry) : Safe (fun _ => True) (matching m entry rt) :=
  .ite (fun _ => trivial) fun _ => .ite (fun _ => trivial) fun _ => (safe_call _).bind fun _ _ => trivial

/-- The search finds an entry of the chain, or no entry has the key. -/
theorem Good.safe_present (hc : Good m c refs) (entry : Entry) :
    Safe (fun r => (∀ i, r = some i → i ∈ c.table entry.rt_flags.host
          (RTHASHMOD m (hashOf m entry.rt_dst entry.rt_flags.host))) ∧
        (r = none → RequestOk m c entry → ∀ j rt, c.entry j = some rt → rt.rt_flags.up = true →
          ¬(rt.rt_flags.host = entry.rt_flags.host ∧ rt.rt_dst = entry.rt_dst ∧ rt.rt_gateway = entry.rt_gateway)))
      (present m c entry (hashOf m entry.rt_dst entry.rt_flags.host)) := by
  refine (safe_scan (fun i hi => hc.chain_ne_none hi) (safe_matching m entry)).mono fun r hr => ⟨?_, ?_⟩
  · rintro i rfl
    exact hr.1
  · rintro rfl hok j rt hj hup ⟨hhost, hdst, hgw⟩
    have hhash : rt.rt_hash = hashOf m entry.rt_dst entry.rt_flags.host := by
      rw [(hc.at_ j).hash rt hj, hdst, hhost]
    have hin := ((hc.at_ j).chain _ _).2 ⟨rt, hj, hup, hhost, congrArg (RTHASHMOD m) hhash⟩
    have htest := hr j rt hin hj hhash
    rw [matching] at htest
    rcases hok with hok | hok | hok
    · rw [if_pos hok] at htest
      simp [hdst, hgw] at htest
    · split_ifs at htest with hh hfam
      · simp [hdst, hgw] at htest
      · exact hfam (congrArg Sockaddr.sa_family hdst)
      · obtain ⟨f, hf, htest⟩ := bind_eq_ok.1 htest
        simp [hdst, hgw, hok f ((safe_call _).result hf)] at htest
    · exact hok j rt hj hup ⟨hhost, hdst, hgw⟩

theorem safe_firstIf {test : Ifaddr → Except Trap Bool} (htest : ∀ ifa, Safe (fun _ => True) (test ifa))
    (l : List Ifnet) (n : ℕ) : Safe (fun _ => True) (firstIf test l n) := by
  have hany : ∀ as : List Ifaddr, Safe (fun _ => True) (as.anyM test) := by
    intro as
    induction as with
    | nil => exact trivial
    | cons ifa as ih =>
      refine (htest ifa).bind fun b _ => ?_
      cases b
      · exact ih
      · exact trivial
  induction l generalizing n with
  | nil => exact trivial
  | cons ifp l ih => exact (hany _).bind fun b _ => .ite (fun _ => trivial) fun _ => ih (n + 1)

theorem safe_ifaIfwithnet (m : Machine) (addr : Sockaddr) : Safe (fun _ => True) (ifaIfwithnet m addr) := by
  refine .ite (fun _ => trivial) fun _ => safe_firstIf (fun ifa => ?_) _ _
  exact .ite (fun _ => trivial) fun _ => (safe_call _).bind fun _ _ => trivial

theorem safe_interface (m : Machine) (entry : Entry) : Safe (fun _ => True) (interface m entry) := by
  rw [interface]
  split
  · exact trivial
  · exact safe_ifaIfwithnet m _

/-- A request changes no number of references. -/
theorem Good.rtrequest (hc : Good m c refs)
    (hok : entry.rt_dst.sa_family < AF_MAX → RequestOk m c entry ∨ req = .SIOCDELRT) :
    Safe (fun r => Good m r.1 refs) (rtrequest m c req entry) := by
  refine .ite (fun _ => hc) fun haf => (safe_call _).bind fun f hf => ?_
  have hhash : (f entry.rt_dst).of entry.rt_flags.host = hashOf m entry.rt_dst entry.rt_flags.host := by
    rw [hashOf, hf]
  dsimp only
  rw [hhash]
  refine (hc.safe_present entry).bind fun r hr => ?_
  cases req with
  | SIOCDELRT =>
    cases r with
    | none => exact hc
    | some i =>
      obtain ⟨c1, hc1, hgood⟩ := hc.delete (hr.1 i rfl)
      dsimp only
      rw [hc1]
      exact hgood
  | SIOCADDRT mbuf =>
    cases r with
    | some i => exact hc
    | none =>
      have hok := (hok (not_le.1 haf)).resolve_right (by simp)
      refine (safe_interface m entry).bind fun ifp _ => ?_
      cases ifp with
      | none => exact hc
      | some ifp => exact .ite (fun _ => hc.insert ifp rfl (hr.2 rfl hok)) fun _ => hc

theorem Good.rtinit (hc : Good m c refs)
    (hok : dst.sa_family < AF_MAX → RequestOk m c ⟨dst, gateway, flags⟩) :
    Safe (fun c' => Good m c' refs) (rtinit m c dst gateway req flags) := by
  have hreq : Safe (fun r => Good m r.1 refs) (Net.rtrequest m c req ⟨dst, gateway, flags⟩) :=
    hc.rtrequest fun haf => .inl (hok haf)
  exact hreq.bind fun _ hr => hr

/-! ### Redirects -/

/-- The keys of the table of `c'` are among those of `c`. -/
def Keys (c c' : Core) : Prop := ∀ j rt', c'.entry j = some rt' → rt'.rt_flags.up = true →
  ∃ rt, c.entry j = some rt ∧ rt.rt_flags = rt'.rt_flags ∧ SameKey rt rt'

theorem keys_set (hi : c.entry i = some rt) (hflg : rt'.rt_flags = rt.rt_flags) (hkey : SameKey rt rt') :
    Keys c (c.set i rt') := by
  intro j e he hup
  by_cases hj : j = i
  · subst hj
    obtain rfl := some_inj.1 ((update_self j _ _).symm.trans he)
    exact ⟨rt, hi, hflg.symm, hkey⟩
  · exact ⟨e, (update_of_ne hj _ _).symm.trans he, rfl, rfl, rfl, rfl⟩

theorem keys_rtfree (h : rtfree c i = .ok c') : Keys c c' := by
  obtain ⟨rt, hrt, h⟩ := bind_eq_ok.1 h
  have hset : Keys c (c.set i { rt with rt_refcnt := wrap 16 (rt.rt_refcnt - 1) }) :=
    keys_set (get_eq_ok.1 hrt) rfl ⟨rfl, rfl, rfl⟩
  dsimp only at h
  split_ifs at h
  · rw [mFree_eq (update_self i _ _)] at h
    cases h
    intro j e he hup
    by_cases hj : j = i
    · subst hj
      exact absurd ((update_self j _ _).symm.trans he) (by simp)
    · exact hset j e ((update_of_ne hj _ _).symm.trans he) hup
  · cases h
    exact hset

theorem Keys.trans (h1 : Keys c1 c2) (h2 : Keys c2 c3) : Keys c1 c3 := by
  intro j e he hup
  obtain ⟨e2, he2, hfla2, hhost2, hdst2, hgw2⟩ := h2 j e he hup
  obtain ⟨e1, he1, hfla1, hhost1, hdst1, hgw1⟩ := h1 j e2 he2 (hfla2 ▸ hup)
  exact ⟨e1, he1, hfla1.trans hfla2, hhost1.trans hhost2, hdst1.trans hdst2, hgw1.trans hgw2⟩

theorem RequestOk.keys (hok : RequestOk m c entry) (hkeys : Keys c c') : RequestOk m c' entry := by
  refine hok.imp_right (Or.imp_right fun hok j e he hup => ?_)
  rintro ⟨hhost, hdst, hgw⟩
  obtain ⟨e', he', hflg, hhost', hdst', hgw'⟩ := hkeys j e he hup
  exact hok j e' he' (hflg ▸ hup) ⟨hhost'.trans hhost, hdst'.trans hdst, hgw'.trans hgw⟩

/-- The gateway of the entry `i` may become `gateway`: no other entry has the key it
    then gets. -/
def SmashOk (c : Core) (i : ℕ) (rt : Rtentry) (gateway : Sockaddr) : Prop :=
  ∀ j rt', j ≠ i → c.entry j = some rt' → rt'.rt_flags.up = true →
    ¬SameKey { rt with rt_gateway := gateway } rt'

/-- A redirect that is accepted for the entry `i`. -/
def RedirectEntryOk (m : Machine) (c : Core) (dst gateway : Sockaddr) (flags : Flags) (i : ℕ) (rt : Rtentry) :
    Prop :=
  if isWildcard m dst rt = .ok true then
    RequestOk m c ⟨dst, gateway, { host := flags.host, gateway := true, dynamic := true }⟩
  else rt.rt_flags.gateway = true → (rt.rt_flags.host = true ∨ flags.host = false) → SmashOk c i rt gateway

/-- A redirect that is accepted does not give two entries the same key, and the entry
    it finds has a reference left to count. -/
def RedirectOk (m : Machine) (c : Core) (dst gateway src : Sockaddr) (flags : Flags) : Prop :=
  (∃ ifp, ifaIfwithnet m gateway = .ok (some ifp)) → dst.sa_family < AF_MAX →
    match lookup m c dst with
    | .ok (some i) => ∀ rt, c.entry i = some rt → rt.rt_refcnt < 32767 ∧
        (badredirect m (some rt) gateway src = false → RedirectEntryOk m c dst gateway flags i rt)
    | .ok none => badredirect m none gateway src = false →
        RequestOk m c ⟨dst, gateway, { host := flags.host, gateway := true, dynamic := true }⟩
    | .error _ => True

theorem safe_isWildcard (m : Machine) (dst : Sockaddr) (rt : Rtentry) :
    Safe (fun b => isWildcard m dst rt = .ok b) (isWildcard m dst rt) := by
  refine (Ends.and_eq (Q := fun _ => True) ?_).mono fun _ h => h.2
  exact (safe_call _).bind fun _ _ => trivial

theorem isWildcard_congr (h : rt'.rt_dst = rt.rt_dst) : isWildcard m dst rt' = isWildcard m dst rt := by
  rw [isWildcard, h, isWildcard]

theorem badredirect_congr (h : rt'.rt_gateway = rt.rt_gateway) :
    badredirect m (some rt') gateway src = badredirect m (some rt) gateway src := by
  rw [badredirect, any_some, h, badredirect, any_some]

theorem Good.smash (hc : Good m c refs) (hrt : c.entry i = some rt)
    (hok : rt.rt_flags.gateway = true → (rt.rt_flags.host = true ∨ flags.host = false) → SmashOk c i rt gateway) :
    Safe (fun c' => Good m c' refs) (smash m c dst gateway flags mbuf i) := by
  refine (safe_get hrt).bind fun _ hget => ?_
  rw [hget]
  refine .ite (fun _ => hc) fun hgw => .ite (fun hhost => ?_) fun hhost => ?_
  · -- A route to the host beside the route to its network.
    rw [Bool.and_eq_true] at hhost
    refine hc.rtinit fun _ => .inl ?_
    exact hhost.2
  · have hat := hc.at_ i
    have hkind : rt.rt_flags.host = true ∨ flags.host = false := by
      rw [Bool.and_eq_true, not_and_or, Bool.not_eq_true', Bool.not_eq_false] at hhost
      exact hhost.imp_right Bool.eq_false_of_not_eq_true
    have hsmash := hok (by simpa using hgw) hkind
    have hset : Good m (c.set i { rt with rt_gateway := gateway }) refs :=
      hc.set hrt rfl rfl rfl (hat.refcnt rt hrt) (fun _ _ => rfl) hat.fits (hat.down rt hrt) fun _ => hsmash
    exact hset

/-- A redirect that found the entry `i` gives back the reference it took. -/
theorem Good.redirectFound (hc : Good m c refs)
    (hrt : c.entry i = some rt) (hfits : rt.rt_refcnt < 32767)
    (hok : badredirect m (some rt) gateway src = false → RedirectEntryOk m c dst gateway flags i rt)
    (hhold : Net.hold c i = .ok c') :
    Safe (fun c' => Good m c' refs) (redirectFound m c' dst gateway src flags mbuf i) := by
  have hcnt := (hc.at_ i).refcnt rt hrt
  obtain ⟨c1, hc1, hgood⟩ := hc.hold (i := i) (by simp [hrt]) (by omega)
  obtain rfl := ok.inj (hhold.symm.trans hc1)
  -- The entry is the one that was found, with one reference more.
  have hset : c' = c.set i { rt with rt_refcnt := wrap 16 (rt.rt_refcnt + 1) } := by
    rw [Net.hold, get_eq_ok.2 hrt] at hhold
    exact (ok.inj hhold).symm
  have hback : update (update refs i (refs i + 1)) i (update refs i (refs i + 1) i - 1) = refs := by
    rw [update_idem, update_self, Nat.add_sub_cancel, update_eq_self]
  have hpos : 0 < update refs i (refs i + 1) i := by
    rw [update_self]
    omega
  have hrtf : ∀ {c1}, Good m c1 (update refs i (refs i + 1)) →
      Safe (fun c' => Good m c' refs ∧ Keys c1 c') (Net.rtfree c1 i) := fun hgood => by
    obtain ⟨c2, hc2, hgood2⟩ := hgood.rtfree hpos
    rw [hback] at hgood2
    rw [hc2]
    exact ⟨hgood2, keys_rtfree hc2⟩
  have hself : c'.entry i = some { rt with rt_refcnt := wrap 16 (rt.rt_refcnt + 1) } := by
    rw [hset]
    exact update_self i _ _
  refine (safe_get hself).bind fun rt1 hrt1 => ?_
  obtain ⟨hdst, hgw, hflg⟩ : rt1.rt_dst = rt.rt_dst ∧ rt1.rt_gateway = rt.rt_gateway ∧
      rt1.rt_flags = rt.rt_flags := by
    rw [hrt1]
    exact ⟨rfl, rfl, rfl⟩
  rw [badredirect_congr hgw, isWildcard_congr hdst]
  refine .ite (fun _ => (hrtf hgood).mono fun _ h => h.1) fun hbad => ?_
  have hok := hok (by simpa using hbad)
  refine (safe_isWildcard m dst rt).bind fun w hw => ?_
  rw [RedirectEntryOk, hw] at hok
  cases w with
  | true =>
    rw [if_pos rfl] at hok
    have hkeys : Keys c c' := hset ▸ keys_set hrt rfl ⟨rfl, rfl, rfl⟩
    exact (hrtf hgood).bind fun c2 hc2 => hc2.1.rtinit fun _ => hok.keys (hkeys.trans hc2.2)
  | false =>
    rw [if_neg (by simp)] at hok
    have hsmash : Safe _ (Net.smash m _ dst gateway flags mbuf _) := hgood.smash (hrt1 ▸ hself)
      fun hgat hkind j rt' hj he hup hkey => by
        rw [hset] at he
        rw [hflg] at hgat hkind
        refine hok hgat hkind j rt' hj ((update_of_ne hj _ _).symm.trans he) hup ?_
        rwa [SameKey, hdst, hflg] at hkey
    exact hsmash.bind fun c2 hc2 => (hrtf hc2).mono fun _ h => h.1

/-- A redirect gives back the reference it takes. -/
theorem Good.rtredirect (hc : Good m c refs) (hok : RedirectOk m c dst gateway src flags) :
    Safe (fun c' => Good m c' refs) (rtredirect m c dst gateway src flags mbuf) := by
  refine (safe_ifaIfwithnet m gateway).and_eq.bind fun ifp hifp => ?_
  cases ifp with
  | none => exact hc
  | some ifp =>
  have hok := hok ⟨ifp, hifp.2⟩
  have halc : Safe (Allocated m c ⟨.null, dst⟩) (Net.rtalloc m c ⟨.null, dst⟩) := hc.safe_rtalloc (by simp)
  refine halc.bind fun r hr => ?_
  cases hr with
  | none hnone =>
    refine .ite (fun _ => hc) fun hbad => hc.rtinit fun haf => ?_
    have hok := hok haf
    rw [(hnone.resolve_left (by simp [holdsUp])).resolve_left haf.not_ge] at hok
    exact hok (by simpa using hbad)
  | found _ haf hj hrt hhold =>
    have hok := hok haf
    rw [hj] at hok
    obtain ⟨hfits, hok⟩ := hok _ hrt
    exact hc.redirectFound hrt hfits hok hhold

/-! ### `in_losing` -/

theorem Good.deleteDynamic (hc : Good m c refs) (hi : c.entry i ≠ none) :
    Safe (fun c' => Good m c' refs) (deleteDynamic m c i) := by
  obtain ⟨rt, hrt⟩ := ne_none_iff_exists'.1 hi
  exact (safe_get hrt).bind fun _ _ => .ite (fun _ => (hc.rtrequest fun _ => .inr rfl).bind fun _ hr => hr) fun _ => hc

/-- The holder loses its reference, if it has one. -/
theorem Good.inLosing (hc : Good m c refs) (hheld : ∀ i, ro.ro_rt = .entry i → 0 < refs i) :
    Safe (fun r => r.2 = { ro with ro_rt := .null } ∧ ((∀ i, ro.ro_rt ≠ .entry i) ∧ r.1 = c ∨
      ∃ i, ro.ro_rt = .entry i ∧ Good m r.1 (update refs i (refs i - 1)))) (inLosing m c ro) := by
  obtain ⟨ref, dst⟩ := ro
  cases ref with
  | null => exact ⟨rfl, .inl ⟨by simp, rfl⟩⟩
  | nowildcard => exact ⟨rfl, .inl ⟨by simp, rfl⟩⟩
  | entry i =>
    have hpos := hheld i rfl
    refine (hc.deleteDynamic ((hc.at_ i).held hpos)).bind fun c1 hc1 => ?_
    obtain ⟨c2, hc2, hgood⟩ := hc1.rtfree hpos
    rw [hc2]
    exact ⟨rfl, .inr ⟨i, rfl, hgood⟩⟩

end Uwisc.Net
