import Mathlib.Tactic.Ring
import Uwisc.Lib.Buckets
import Uwisc.Lib.Holders

/-!
# The directory name cache

The cache of `sys/sys/vfs_dnlc.c`. An entry is an index of `ncache`, and the heads of the hash
chains and of the LRU list are indexes behind them. A vnode or a credential is a number, `0` if it
is none. Of the reference counts there is what the cache has added (`v_hold`, `cr_hold`), and the
statistics are left out.

* `dnlcEnter`: takes the entry that has not been used for longest, if the name is not there;
* `dnlcLookup`: finds a name, and moves its entry to the end of the LRU list and forward in its chain;
* `dnlcRemove`, `dnlcPurge`: drop the entries of a name, or all.

A hold on what is no vnode or no credential, a panic, and a loop that does not end are `none`.
-/

namespace Uwisc.Dnlc

open Lib Function

def NC_SIZE : ℕ := 32
def NC_HASH_SIZE : ℕ := 8
def NC_NAMLEN : ℕ := 15
def NOCRED : ℕ := 0
def ANYCRED : ℕ := 2 ^ 32 - 1

/-- `&nc_hash[hash]`. -/
def ncHash (hash : ℕ) : ℕ := NC_SIZE + hash

/-- `&nc_lru`. -/
def ncLru : ℕ := NC_SIZE + NC_HASH_SIZE

/-- `NC_HASH`. The last character of an empty name is the one `before` it in memory. -/
def NC_HASH (before : UInt8) (name : List UInt8) (vp : ℕ) : ℕ :=
  ((name.headD 0).toNat + (name.getLastD before).toNat + name.length + vp) % NC_HASH_SIZE

/-- An entry, with the characters of its name. -/
structure Ncache where
  vp : ℕ
  dp : ℕ
  name : List UInt8
  cred : ℕ

structure Cache where
  doingcache : Bool
  ncache : ℕ → Ncache
  hash : Links
  lru : Links
  v_hold : ℕ → ℤ
  cr_hold : ℕ → ℤ

/-- `VN_HOLD` and `crhold`. -/
def hold (count : ℕ → ℤ) (p : ℕ) : ℕ → ℤ := update count p (count p + 1)

/-- `VN_RELE` and `crfree`. -/
def rele (count : ℕ → ℤ) (p : ℕ) : ℕ → ℤ := update count p (count p - 1)

def dnlcInit : Cache where
  doingcache := true
  ncache _ := ⟨0, 0, [], NOCRED⟩
  lru := (List.range NC_SIZE).foldl (fun q i => q.insque i ncLru) (Links.null ⟨fun _ => 0, fun _ => 0⟩ ncLru)
  hash := (List.range NC_HASH_SIZE).foldl (fun q i => q.null (ncHash i))
    ((List.range NC_SIZE).foldl Links.null ⟨fun _ => 0, fun _ => 0⟩)
  v_hold _ := 0
  cr_hold _ := 0

/-- The test in the loop of `dnlcSearch`. -/
def hit (dp : ℕ) (name : List UInt8) (cred : ℕ) (e : Ncache) : Bool :=
  e.dp = dp ∧ e.name = name ∧ (cred = ANYCRED ∨ e.cred = cred)

def dnlcSearch (s : Cache) (dp : ℕ) (name : List UInt8) (hash cred : ℕ) : Option ℕ :=
  (seek s.hash.next (ncHash hash) (fun ncp => hit dp name cred (s.ncache ncp)) (NC_SIZE + 1) none
    (s.hash.next (ncHash hash))).map Prod.snd

/-- What `dnlcEnter` does with the entry it takes. -/
def take (s : Cache) (ncp hash dp : ℕ) (name : List UInt8) (vp cred : ℕ) : Cache :=
  let old := s.ncache ncp
  let lru := s.lru.remque ncp
  let v_hold := if old.dp ≠ 0 then rele s.v_hold old.dp else s.v_hold
  let v_hold := if old.vp ≠ 0 then rele v_hold old.vp else v_hold
  { s with
    v_hold := hold (hold v_hold dp) vp
    -- the credential of the old name is not released
    ncache := update s.ncache ncp ⟨vp, dp, name, cred⟩
    cr_hold := if cred ≠ 0 then hold s.cr_hold cred else s.cr_hold
    lru := lru.insque ncp (lru.prev ncLru)
    hash := (s.hash.remque ncp).insque ncp (ncHash hash) }

def dnlcEnter (s : Cache) (before : UInt8) (dp : ℕ) (name : List UInt8) (vp cred : ℕ) : Option Cache :=
  if !s.doingcache then some s
  else if name.length > NC_NAMLEN then some s
  else
    let hash := NC_HASH before name dp
    if (dnlcSearch s dp name hash cred).isSome then some s
    else
      let ncp := s.lru.next ncLru
      if ncp = ncLru then some s
      else if dp = 0 ∨ vp = 0 ∨ cred = ANYCRED then none
      else some (take s ncp hash dp name vp cred)

/-- The vnode, or `0`. -/
def dnlcLookup (s : Cache) (before : UInt8) (dp : ℕ) (name : List UInt8) (cred : ℕ) : ℕ × Cache :=
  if !s.doingcache then (0, s)
  else if name.length > NC_NAMLEN then (0, s)
  else
    let hash := NC_HASH before name dp
    match dnlcSearch s dp name hash cred with
    | none => (0, s)
    | some ncp =>
      let lru := s.lru.remque ncp
      let prev := s.hash.prev (s.hash.prev ncp)
      ((s.ncache ncp).vp, { s with
        lru := lru.insque ncp (lru.prev ncLru)
        hash := if s.hash.prev ncp ≠ ncHash hash then (s.hash.remque ncp).insque ncp prev else s.hash })

def dnlcRm (s : Cache) (ncp : ℕ) : Cache :=
  let e := s.ncache ncp
  { s with
    lru := (s.lru.remque ncp).insque ncp ncLru
    hash := (s.hash.remque ncp).null ncp
    v_hold := rele (rele s.v_hold e.dp) e.vp
    cr_hold := if e.cred ≠ NOCRED then rele s.cr_hold e.cred else s.cr_hold
    ncache := update s.ncache ncp { e with dp := 0, vp := 0, cred := NOCRED } }

/-- The loop of `dnlcRemove`. -/
def removeLoop (dp : ℕ) (name : List UInt8) (hash : ℕ) : ℕ → Cache → Option Cache
  | 0, _ => none
  | fuel + 1, s =>
    match dnlcSearch s dp name hash ANYCRED with
    | none => some s
    | some ncp => removeLoop dp name hash fuel (dnlcRm s ncp)

def dnlcRemove (s : Cache) (before : UInt8) (dp : ℕ) (name : List UInt8) : Option Cache :=
  if name.length > NC_NAMLEN then some s
  else removeLoop dp name (NC_HASH before name dp) (NC_SIZE + 1) s

/-- `dnlcPurge` from `start` on: the first entry of the first chain that has any goes. -/
def purgeLoop : ℕ → Cache → Option Cache
  | 0, _ => none
  | fuel + 1, s =>
    match (List.range NC_HASH_SIZE).find? fun i => s.hash.next (ncHash i) ≠ ncHash i with
    | none => some s
    | some i =>
      let ncp := s.hash.next (ncHash i)
      if (s.ncache ncp).dp = 0 ∨ (s.ncache ncp).vp = 0 then none
      else purgeLoop fuel (dnlcRm s ncp)

def dnlcPurge (s : Cache) : Option Cache := purgeLoop (NC_SIZE + 1) s

/-!
### What the routines of the name cache keep

The invariant `Inv`: the LRU list has every entry, each hash chain has the entries in use whose
names have that hash, and the holds are those of the entries.

* `Inv.search_eq_some`, `Inv.search_eq_none`: a search finds the entry of a name, if there is one;
* `Inv.rm`, `Inv.remove`, `Inv.purge`: entries are dropped;
* `Inv.take`: an entry gets a name, and gives up the one it had;
* `Inv.touch`: an entry that is found moves in both lists.
-/

open List Option

/-- What a name is found by. -/
structure Key where
  dp : ℕ
  name : List UInt8
  cred : ℕ
  deriving DecidableEq

def Ncache.key (e : Ncache) : Key := ⟨e.dp, e.name, e.cred⟩

def entries : Set ℕ := {i | i < NC_SIZE}

/-- The entry is in use. -/
def Cache.Used (s : Cache) (i : ℕ) : Prop := i < NC_SIZE ∧ (s.ncache i).dp ≠ 0

/-- The head of the chain that an entry in use is on. -/
def Ncache.chain (e : Ncache) : ℕ := ncHash (NC_HASH 0 e.name e.dp)

/-- The entries on the chain of `h`. -/
def chains (s : Cache) (h : ℕ) : Set ℕ := {i | s.Used i ∧ (s.ncache i).chain = h}

/-- The heads of the chains, and the entries that are on none. -/
def heads (s : Cache) : Set ℕ :=
  {h | (∃ b < NC_HASH_SIZE, h = ncHash b) ∨ h < NC_SIZE ∧ (s.ncache h).dp = 0}

/-- How many entries have `x`. -/
def refs (f : ℕ → ℕ) (x : ℕ) : ℕ := ((range NC_SIZE).map f).count x

structure Inv (s : Cache) : Prop where
  doingcache : s.doingcache = true
  lru : s.lru.HasRing ncLru entries
  hash : Buckets s.hash (heads s) (chains s)
  name : ∀ i, s.Used i → (s.ncache i).name ≠ [] ∧ (s.ncache i).name.length ≤ NC_NAMLEN
  vp : ∀ i, s.Used i → (s.ncache i).vp ≠ 0
  unused : ∀ i < NC_SIZE, (s.ncache i).dp = 0 → (s.ncache i).vp = 0 ∧ (s.ncache i).cred = NOCRED
  distinct : ∀ i j, s.Used i → s.Used j → (s.ncache i).key = (s.ncache j).key → i = j
  v_hold : ∀ x ≠ 0, s.v_hold x = refs (fun i => (s.ncache i).dp) x + refs (fun i => (s.ncache i).vp) x
  cr_hold : ∀ c ≠ 0, s.cr_hold c = refs (fun i => (s.ncache i).cred) c

/-! ### Holds -/

theorem hold_apply (count : ℕ → ℤ) (p x : ℕ) : hold count p x = count x + if p = x then 1 else 0 := by
  by_cases h : p = x
  · subst h
    rw [hold, update_self, if_pos rfl]
  · rw [hold, update_of_ne (Ne.symm h), if_neg h, add_zero]

theorem rele_apply (count : ℕ → ℤ) (p x : ℕ) : rele count p x = count x - if p = x then 1 else 0 := by
  by_cases h : p = x
  · subst h
    rw [rele, update_self, if_pos rfl]
  · rw [rele, update_of_ne (Ne.symm h), if_neg h, sub_zero]

theorem refs_le (f : ℕ → ℕ) (x : ℕ) : refs f x ≤ NC_SIZE := by
  have h := count_le_length (a := x) (l := (range NC_SIZE).map f)
  rwa [length_map, length_range] at h

/-- One of the entries has something else. -/
theorem refs_update (f : ℕ → ℕ) {i : ℕ} (hi : i < NC_SIZE) (y x : ℕ) :
    (refs (update f i y) x : ℤ) = refs f x - (if f i = x then 1 else 0) + if y = x then 1 else 0 := by
  have hperm := flatMap_range_perm (fun j => [f j]) (fun j => [update f i y j]) hi fun j hj => by
    rw [update_of_ne hj]
  have hcnt := hperm.count_eq x
  simp only [← map_eq_flatMap, count_append, update_self, count_singleton, beq_iff_eq] at hcnt
  simp only [refs]
  split_ifs at hcnt ⊢ <;> omega

theorem refs_ncache (s : Cache) (π : Ncache → ℕ) {i : ℕ} (hi : i < NC_SIZE) (e : Ncache) (x : ℕ) :
    (refs (fun j => π (update s.ncache i e j)) x : ℤ) =
      refs (fun j => π (s.ncache j)) x - (if π (s.ncache i) = x then 1 else 0) +
        if π e = x then 1 else 0 := by
  rw [← refs_update (fun j => π (s.ncache j)) hi]
  congr 2
  exact comp_update π s.ncache i e

/-! ### Names -/

variable {s s' : Cache} {dp vp cred i j b h x : ℕ} {name : List UInt8} {before : UInt8} {e : Ncache}

theorem NC_HASH_lt (before : UInt8) (name : List UInt8) (vp : ℕ) : NC_HASH before name vp < NC_HASH_SIZE :=
  Nat.mod_lt _ (by decide)

/-- The hash of a name that is not empty is that of its characters. -/
theorem NC_HASH_eq (hname : name ≠ []) (before : UInt8) (vp : ℕ) : NC_HASH before name vp = NC_HASH 0 name vp := by
  cases name with
  | nil => exact absurd rfl hname
  | cons c l => rw [NC_HASH, NC_HASH, getLastD_cons, getLastD_cons]

theorem hit_iff : hit dp name cred e = true ↔ e.dp = dp ∧ e.name = name ∧ (cred = ANYCRED ∨ e.cred = cred) := by
  rw [hit, decide_eq_true_iff]

theorem ncHash_mem (s : Cache) (hb : b < NC_HASH_SIZE) : ncHash b ∈ heads s := .inl ⟨b, hb, rfl⟩

theorem Ncache.chain_mem (e : Ncache) (s : Cache) : e.chain ∈ heads s := ncHash_mem s (NC_HASH_lt ..)

theorem ncHash_notMem (b : ℕ) : ¬ncHash b < NC_SIZE := not_lt.2 (Nat.le_add_right ..)

theorem search_hit (h : dnlcSearch s dp name b cred = some i) : hit dp name cred (s.ncache i) := by
  obtain ⟨r, hr, rfl⟩ := map_eq_some_iff.1 h
  exact seek_hit hr

/-- A search of a chain. -/
theorem Inv.search (hs : Inv s) (dp : ℕ) (name : List UInt8) (cred : ℕ) (hb : b < NC_HASH_SIZE) :
    match dnlcSearch s dp name b cred with
    | some i => i ∈ chains s (ncHash b) ∧ hit dp name cred (s.ncache i)
    | none => ∀ i ∈ chains s (ncHash b), ¬hit dp name cred (s.ncache i) := by
  obtain ⟨l, hl, hmem⟩ := hs.hash.ring _ (ncHash_mem s hb)
  have hpath := (path_cons.1 hl.next_path).2
  rw [dnlcSearch]
  cases hr : seek s.hash.next (ncHash b) (fun ncp => hit dp name cred (s.ncache ncp)) (NC_SIZE + 1) none
    (s.hash.next (ncHash b)) with
  | some r =>
    obtain ⟨hhit, u, v, hl', -⟩ := hpath.seek_eq_some hl.head_notMem hr
    refine ⟨(hmem r.2).1 ?_, hhit⟩
    rw [hl']
    simp
  | none =>
    have hsub : l ⊆ range NC_SIZE := fun i hi => mem_range.2 ((hmem i).1 hi).1.1
    have hlen := (subperm_of_subset (nodup_cons.1 hl.nodup).2 hsub).length_le
    rw [length_range] at hlen
    have hnone := hpath.seek_eq_none hl.head_notMem (Nat.lt_succ_of_le hlen) hr
    exact fun i hi => Bool.eq_false_iff.1 (hnone i ((hmem i).2 hi))

theorem Inv.search_eq_some (hs : Inv s) (hb : b < NC_HASH_SIZE) (h : dnlcSearch s dp name b cred = some i) :
    s.Used i ∧ (s.ncache i).chain = ncHash b ∧ hit dp name cred (s.ncache i) := by
  have hsea := hs.search dp name cred hb
  rw [h] at hsea
  exact ⟨hsea.1.1, hsea.1.2, hsea.2⟩

/-- What the search for a name does not find is not there. -/
theorem Inv.search_eq_none (hs : Inv s) (h : dnlcSearch s dp name (NC_HASH before name dp) cred = none)
    (hi : s.Used i) : ¬hit dp name cred (s.ncache i) := by
  have hsea := hs.search dp name cred (NC_HASH_lt before name dp)
  rw [h] at hsea
  intro hhit
  obtain ⟨hdp, hname, -⟩ := hit_iff.1 hhit
  refine hsea i ⟨hi, ?_⟩ hhit
  rw [Ncache.chain, hdp, hname, NC_HASH_eq (hname ▸ (hs.name i hi).1) before]

/-! ### Lists -/

theorem ncLru_notMem : ¬ncLru < NC_SIZE := by decide

/-- An entry moves in the LRU list. -/
theorem Inv.move_lru (hs : Inv s) (hi : i < NC_SIZE) {p : ℕ} (hp : p ∈ insert ncLru (entries \ {i})) :
    ((s.lru.remque i).insque i p).HasRing ncLru entries := by
  have hout := hs.lru.remque (c := i) hi
  have hnot : i ∉ insert ncLru (entries \ {i}) := by
    rintro (rfl | h)
    · exact ncLru_notMem hi
    · exact h.2 rfl
  have hin := hout.insque hp hnot
  rwa [Set.insert_sdiff_singleton, Set.insert_eq_of_mem (show i ∈ entries from hi)] at hin

/-- An entry moves to the end of the LRU list. -/
theorem Inv.move_last (hs : Inv s) (hi : i < NC_SIZE) :
    ((s.lru.remque i).insque i ((s.lru.remque i).prev ncLru)).HasRing ncLru entries :=
  hs.move_lru hi ((hs.lru.remque (c := i) hi).prev_mem (.inl rfl))

theorem chains_eq_empty (s : Cache) (hi : i < NC_SIZE) : chains s i = ∅ :=
  Set.eq_empty_of_forall_notMem fun _ hj => ncHash_notMem _ (hj.2 ▸ hi)

/-- An entry is taken out of its chain, if it is on one. -/
theorem Inv.hash_out (hs : Inv s) (hi : i < NC_SIZE) :
    Buckets (s.hash.remque i) (heads s \ {i}) (fun h => chains s h \ {i}) := by
  by_cases hdp : (s.ncache i).dp = 0
  · have hring := hs.hash.ring i (.inr ⟨hi, hdp⟩)
    rw [chains_eq_empty s hi] at hring
    rw [hring.remque_self]
    exact hs.hash.mono Set.sdiff_subset fun h _ => Set.sdiff_singleton_eq_self fun hmem => hmem.1.2 hdp
  · refine (hs.hash.remque ((s.ncache i).chain_mem s) ⟨⟨hi, hdp⟩, rfl⟩).mono Set.sdiff_subset fun h _ => ?_
    by_cases hh : h = (s.ncache i).chain
    · rw [hh, update_self]
    · rw [update_of_ne hh]
      exact Set.sdiff_singleton_eq_self fun hmem => hh hmem.2.symm

theorem notMem_out (s : Cache) (i : ℕ) : ∀ h ∈ heads s \ {i}, i ∉ insert h (chains s h \ {i}) := by
  rintro h hh (heq | hi)
  · exact hh.2 heq.symm
  · exact hi.2 rfl

/-- Who is in use when an entry has changed. -/
theorem used_update (hnca : s'.ncache = update s.ncache i e) :
    s'.Used j ↔ (j = i ∧ i < NC_SIZE ∧ e.dp ≠ 0) ∨ (j ≠ i ∧ s.Used j) := by
  rw [Cache.Used, hnca]
  by_cases hj : j = i
  · subst hj
    simp
  · simp [hj, Cache.Used]

theorem mem_chains_update (hnca : s'.ncache = update s.ncache i e) :
    j ∈ chains s' h ↔ (j = i ∧ i < NC_SIZE ∧ e.dp ≠ 0 ∧ e.chain = h) ∨ j ∈ chains s h \ {i} := by
  simp only [chains, Set.mem_ofPred_eq, used_update hnca, hnca, Set.mem_sdiff, Set.mem_singleton_iff]
  by_cases hj : j = i
  · subst hj
    simp [and_assoc]
  · simp [hj]

theorem mem_heads_update (hnca : s'.ncache = update s.ncache i e) (hi : i < NC_SIZE) :
    h ∈ heads s' ↔ (h = i ∧ e.dp = 0) ∨ h ∈ heads s \ {i} := by
  simp only [heads, Set.mem_ofPred_eq, hnca, Set.mem_sdiff, Set.mem_singleton_iff]
  by_cases hh : h = i
  · subst hh
    have hnot : ¬∃ b < NC_HASH_SIZE, h = ncHash b := by
      rintro ⟨b, -, rfl⟩
      exact ncHash_notMem b hi
    simp [hnot, hi]
  · simp [hh]

/-! ### Dropping entries -/

theorem rm_used : (dnlcRm s i).Used j ↔ j ≠ i ∧ s.Used j := by
  rw [used_update (s := s) (i := i) rfl]
  simp

theorem rm_ncache (hj : j ≠ i) : (dnlcRm s i).ncache j = s.ncache j := update_of_ne hj _ _

theorem Inv.rm (hs : Inv s) (hi : s.Used i) : Inv (dnlcRm s i) where
  doingcache := hs.doingcache
  lru := hs.move_lru hi.1 (.inl rfl)
  hash := by
    refine ((hs.hash_out hi.1).null (notMem_out s i)).mono (fun h hh => ?_) fun h _ => ?_
    · exact ((mem_heads_update rfl hi.1).1 hh).imp_left And.left
    · by_cases hne : h = i
      · subst hne
        rw [update_self]
        exact chains_eq_empty _ hi.1
      · rw [update_of_ne hne]
        ext j
        rw [mem_chains_update (s := s) (i := i) rfl]
        simp
  name j hj := by
    obtain ⟨hne, hj⟩ := rm_used.1 hj
    rw [rm_ncache hne]
    exact hs.name j hj
  vp j hj := by
    obtain ⟨hne, hj⟩ := rm_used.1 hj
    rw [rm_ncache hne]
    exact hs.vp j hj
  unused j hj hdp := by
    by_cases hne : j = i
    · subst hne
      simp [dnlcRm]
    · rw [rm_ncache hne] at hdp ⊢
      exact hs.unused j hj hdp
  distinct j k hj hk hkey := by
    obtain ⟨hjne, hj⟩ := rm_used.1 hj
    obtain ⟨hkne, hk⟩ := rm_used.1 hk
    rw [rm_ncache hjne, rm_ncache hkne] at hkey
    exact hs.distinct j k hj hk hkey
  v_hold x hx := by
    have hdp := refs_ncache s Ncache.dp hi.1 { s.ncache i with dp := 0, vp := 0, cred := NOCRED } x
    have hvp := refs_ncache s Ncache.vp hi.1 { s.ncache i with dp := 0, vp := 0, cred := NOCRED } x
    rw [if_neg hx.symm] at hdp hvp
    simp only [dnlcRm]
    rw [hdp, hvp, rele_apply, rele_apply, hs.v_hold x hx]
    ring
  cr_hold c hc := by
    have hcr := refs_ncache s Ncache.cred hi.1 { s.ncache i with dp := 0, vp := 0, cred := NOCRED } c
    rw [if_neg (show ¬NOCRED = c from Ne.symm hc)] at hcr
    simp only [dnlcRm]
    rw [hcr]
    by_cases hno : (s.ncache i).cred = NOCRED
    · rw [if_neg (not_not.2 hno), hs.cr_hold c hc, hno, if_neg (show ¬NOCRED = c from Ne.symm hc)]
      ring
    · rw [if_pos hno, rele_apply, hs.cr_hold c hc]
      ring

/-- The entries in use for which `P` holds are dropped, and the others are as they were. -/
structure Dropped (P : Ncache → Prop) (s s' : Cache) : Prop where
  inv : Inv s'
  same : ∀ i, s'.Used i → s'.ncache i = s.ncache i
  used : ∀ i, s'.Used i ↔ s.Used i ∧ ¬P (s.ncache i)

theorem Dropped.refl {P : Ncache → Prop} (hs : Inv s) (hP : ∀ i, s.Used i → ¬P (s.ncache i)) : Dropped P s s where
  inv := hs
  same _ _ := rfl
  used i := ⟨fun hi => ⟨hi, hP i hi⟩, And.left⟩

theorem Dropped.of_rm {P : Ncache → Prop} (hP : P (s.ncache i)) (h : Dropped P (dnlcRm s i) s') :
    Dropped P s s' where
  inv := h.inv
  same j hj := by
    have hne := (rm_used.1 ((h.used j).1 hj).1).1
    rw [h.same j hj, rm_ncache hne]
  used j := by
    rw [h.used, rm_used]
    by_cases hne : j = i
    · subst hne
      simp [hP]
    · rw [rm_ncache hne]
      simp [hne]

/-- An entry less is in use. -/
theorem refs_rm (hi : s.Used i) :
    refs (fun j => ((dnlcRm s i).ncache j).dp) 0 = refs (fun j => (s.ncache j).dp) 0 + 1 := by
  have h := refs_ncache s Ncache.dp hi.1 { s.ncache i with dp := 0, vp := 0, cred := NOCRED } 0
  rw [if_neg hi.2, if_pos rfl, sub_zero] at h
  exact_mod_cast h

theorem Inv.remove (fuel : ℕ) : ∀ {s : Cache}, Inv s → NC_SIZE < fuel + refs (fun j => (s.ncache j).dp) 0 →
    ∃ s', removeLoop dp name (NC_HASH before name dp) fuel s = some s' ∧
      Dropped (fun e => e.dp = dp ∧ e.name = name) s s' := by
  induction fuel with
  | zero =>
    intro s hs hfuel
    have hle := refs_le (fun j => (s.ncache j).dp) 0
    omega
  | succ fuel ih =>
    intro s hs hfuel
    rw [removeLoop]
    cases h : dnlcSearch s dp name (NC_HASH before name dp) ANYCRED with
    | none =>
      refine ⟨s, rfl, Dropped.refl hs fun i hi hP => hs.search_eq_none h hi ?_⟩
      exact hit_iff.2 ⟨hP.1, hP.2, .inl rfl⟩
    | some i =>
      obtain ⟨hi, -, hhit⟩ := hs.search_eq_some (NC_HASH_lt ..) h
      obtain ⟨hdp, hname, -⟩ := hit_iff.1 hhit
      have hrefs := refs_rm hi
      obtain ⟨s', hloop, hdrop⟩ := ih (hs.rm hi) (by omega)
      exact ⟨s', hloop, hdrop.of_rm ⟨hdp, hname⟩⟩

/-- The first entry of a chain. -/
theorem Inv.next_used (hs : Inv s) (hb : b < NC_HASH_SIZE) (h : s.hash.next (ncHash b) ≠ ncHash b) :
    s.Used (s.hash.next (ncHash b)) :=
  (((hs.hash.ring _ (ncHash_mem s hb)).next_mem (.inl rfl)).resolve_left h).1

theorem Inv.chain_empty (hs : Inv s) (hb : b < NC_HASH_SIZE) (h : s.hash.next (ncHash b) = ncHash b) :
    chains s (ncHash b) = ∅ := by
  obtain ⟨l, hl, hmem⟩ := hs.hash.ring _ (ncHash_mem s hb)
  obtain rfl := hl.eq_nil_iff.2 h
  exact Set.eq_empty_of_forall_notMem fun i hi => not_mem_nil ((hmem i).2 hi)

theorem Inv.purge (fuel : ℕ) : ∀ {s : Cache}, Inv s → NC_SIZE < fuel + refs (fun j => (s.ncache j).dp) 0 →
    ∃ s', purgeLoop fuel s = some s' ∧ Dropped (fun _ => True) s s' := by
  induction fuel with
  | zero =>
    intro s hs hfuel
    have hle := refs_le (fun j => (s.ncache j).dp) 0
    omega
  | succ fuel ih =>
    intro s hs hfuel
    rw [purgeLoop]
    cases h : (range NC_HASH_SIZE).find? fun i => s.hash.next (ncHash i) ≠ ncHash i with
    | none =>
      refine ⟨s, rfl, Dropped.refl hs fun i hi _ => ?_⟩
      have hlt := NC_HASH_lt 0 (s.ncache i).name (s.ncache i).dp
      have hstop := find?_eq_none.1 h _ (mem_range.2 hlt)
      have hemp := hs.chain_empty hlt (by simpa using hstop)
      exact Set.notMem_empty i (hemp ▸ ⟨hi, rfl⟩)
    | some b =>
      have hb := mem_range.1 (mem_of_find?_eq_some h)
      have hi := hs.next_used hb (by simpa using find?_some h)
      have hrefs := refs_rm hi
      obtain ⟨s', hloop, hdrop⟩ := ih (hs.rm hi) (by omega)
      refine ⟨s', ?_, hdrop.of_rm trivial⟩
      dsimp only
      rw [if_neg (not_or.2 ⟨hi.2, hs.vp _ hi⟩)]
      exact hloop

/-! ### Names that are found -/

theorem Cache.Used.notMem_heads (hi : s.Used i) : i ∉ heads s := by
  rintro (⟨b, -, rfl⟩ | ⟨-, hdp⟩)
  · exact ncHash_notMem b hi.1
  · exact hi.2 hdp

theorem lookup_ncache (s : Cache) (before : UInt8) (dp : ℕ) (name : List UInt8) (cred : ℕ) :
    (dnlcLookup s before dp name cred).2.ncache = s.ncache := by
  rw [dnlcLookup]
  dsimp only
  split_ifs
  · rfl
  · rfl
  · cases dnlcSearch s dp name (NC_HASH before name dp) cred <;> rfl

/-- The entry goes to the end of the LRU list, and two nodes back in its chain. -/
theorem Inv.lookup (hs : Inv s) (before : UInt8) (dp : ℕ) (name : List UInt8) (cred : ℕ) :
    Inv (dnlcLookup s before dp name cred).2 := by
  have hb := NC_HASH_lt before name dp
  rw [dnlcLookup]
  dsimp only
  split_ifs with hdoing hlen
  · exact hs
  · exact hs
  cases h : dnlcSearch s dp name (NC_HASH before name dp) cred with
  | none => exact hs
  | some i =>
    obtain ⟨hi, hchn, -⟩ := hs.search_eq_some hb h
    refine ⟨hs.doingcache, hs.move_last hi.1, ?_, hs.name, hs.vp, hs.unused, hs.distinct, hs.v_hold, hs.cr_hold⟩
    have hmem : i ∈ chains s (ncHash (NC_HASH before name dp)) := ⟨hi, hchn⟩
    dsimp only
    split_ifs with hprev
    · have hhead : ncHash (NC_HASH before name dp) ∈ heads s \ {i} :=
        ⟨ncHash_mem s hb, fun heq => ncHash_notMem _ (heq ▸ hi.1)⟩
      have hback := (hs.hash.ring _ (ncHash_mem s hb)).before hmem hprev
      refine ((hs.hash_out hi.1).insque hhead hback (notMem_out s i)).mono (fun k hk => ⟨hk, ?_⟩) fun k _ => ?_
      · rintro rfl
        exact hi.notMem_heads hk
      · change chains s k = _
        by_cases hk : k = ncHash (NC_HASH before name dp)
        · subst hk
          rw [update_self, Set.insert_sdiff_singleton, Set.insert_eq_of_mem hmem]
        · rw [update_of_ne hk, Set.sdiff_singleton_eq_self fun hmem' => hk (hmem'.2.symm.trans hchn)]
    · exact hs.hash

/-- What a search that succeeds returns is the vnode of the entry of the name. -/
theorem Inv.lookup_fst (hs : Inv s) (before : UInt8) (dp : ℕ) (name : List UInt8) (hvp : vp ≠ 0)
    (hcred : cred ≠ ANYCRED) :
    (dnlcLookup s before dp name cred).1 = vp ↔
      ∃ i, s.Used i ∧ (s.ncache i).key = ⟨dp, name, cred⟩ ∧ (s.ncache i).vp = vp := by
  rw [dnlcLookup, hs.doingcache]
  dsimp only
  rw [if_neg (by decide)]
  by_cases hlen : name.length > NC_NAMLEN
  · rw [if_pos hlen]
    refine ⟨fun h => absurd h.symm hvp, ?_⟩
    rintro ⟨i, hi, hkey, -⟩
    obtain ⟨-, rfl, -⟩ := Key.mk.inj hkey
    exact absurd (hs.name i hi).2 (not_le.2 hlen)
  rw [if_neg hlen]
  cases h : dnlcSearch s dp name (NC_HASH before name dp) cred with
  | none =>
    refine ⟨fun h => absurd h.symm hvp, ?_⟩
    rintro ⟨i, hi, hkey, -⟩
    obtain ⟨hdp, hname, hcr⟩ := Key.mk.inj hkey
    exact absurd (hit_iff.2 ⟨hdp, hname, .inr hcr⟩) (hs.search_eq_none h hi)
  | some i =>
    obtain ⟨hi, -, hhit⟩ := hs.search_eq_some (NC_HASH_lt ..) h
    obtain ⟨hdp, hname, hcr⟩ := hit_iff.1 hhit
    have hkey : (s.ncache i).key = ⟨dp, name, cred⟩ := by
      rw [Ncache.key, hdp, hname, hcr.resolve_left hcred]
    refine ⟨fun h => ⟨i, hi, hkey, h⟩, ?_⟩
    rintro ⟨j, hj, hkey', hvp'⟩
    obtain rfl := hs.distinct i j hi hj (hkey.trans hkey'.symm)
    exact hvp'

/-! ### Names that are entered -/

/-- The LRU list is not empty. -/
theorem lru_next_lt (hlru : s.lru.HasRing ncLru entries) : s.lru.next ncLru < NC_SIZE := by
  refine (hlru.next_mem (.inl rfl)).resolve_left fun heq => ?_
  obtain ⟨l, hl, hmem⟩ := hlru
  have hnil := hl.eq_nil_iff.2 heq
  exact not_mem_nil (hnil ▸ (hmem 0).2 (by decide : 0 < NC_SIZE))

theorem Inv.lru_next (hs : Inv s) : s.lru.next ncLru < NC_SIZE := lru_next_lt hs.lru

theorem take_ncache (hj : j ≠ i) : (take s i b dp name vp cred).ncache j = s.ncache j := update_of_ne hj _ _

theorem take_ncache_self : (take s i b dp name vp cred).ncache i = ⟨vp, dp, name, cred⟩ := update_self ..

theorem take_used (hi : i < NC_SIZE) (hdp : dp ≠ 0) :
    (take s i b dp name vp cred).Used j ↔ j = i ∨ j ≠ i ∧ s.Used j := by
  rw [used_update (s := s) (i := i) rfl]
  simp [hi, hdp]

/-- A name that is not there is entered with an entry that has no credential. -/
theorem Inv.take (hs : Inv s) (hi : i < NC_SIZE) (hdp : dp ≠ 0) (hvp : vp ≠ 0) (hname : name ≠ [])
    (hlen : name.length ≤ NC_NAMLEN) (hcr : (s.ncache i).cred = NOCRED)
    (hfrs : ∀ j, s.Used j → (s.ncache j).key ≠ ⟨dp, name, cred⟩) :
    Inv (take s i (NC_HASH before name dp) dp name vp cred) where
  doingcache := hs.doingcache
  lru := hs.move_last hi
  hash := by
    have hhead : ncHash (NC_HASH before name dp) ∈ heads s \ {i} :=
      ⟨ncHash_mem s (NC_HASH_lt ..), fun heq => ncHash_notMem _ (heq ▸ hi)⟩
    refine ((hs.hash_out hi).insque hhead (.inl rfl) (notMem_out s i)).mono (fun k hk => ?_) fun k _ => ?_
    · exact ((mem_heads_update rfl hi).1 hk).resolve_left fun h => hdp h.2
    · have hchn : (⟨vp, dp, name, cred⟩ : Ncache).chain = ncHash (NC_HASH before name dp) := by
        rw [Ncache.chain, NC_HASH_eq hname before]
      ext j
      rw [mem_chains_update (s := s) (i := i) rfl, hchn]
      by_cases hk : k = ncHash (NC_HASH before name dp)
      · subst hk
        rw [update_self]
        simp only [hi, ne_eq, hdp, not_false_eq_true, and_true, Set.mem_insert_iff]
      · rw [update_of_ne hk]
        simp [Ne.symm hk]
  name j hj := by
    obtain rfl | ⟨hne, hj⟩ := (take_used hi hdp).1 hj
    · rw [take_ncache_self]
      exact ⟨hname, hlen⟩
    · rw [take_ncache hne]
      exact hs.name j hj
  vp j hj := by
    obtain rfl | ⟨hne, hj⟩ := (take_used hi hdp).1 hj
    · rw [take_ncache_self]
      exact hvp
    · rw [take_ncache hne]
      exact hs.vp j hj
  unused j hj hdp' := by
    by_cases hne : j = i
    · subst hne
      rw [take_ncache_self] at hdp'
      exact absurd hdp' hdp
    · rw [take_ncache hne] at hdp' ⊢
      exact hs.unused j hj hdp'
  distinct j k hj hk hkey := by
    rcases (take_used hi hdp).1 hj with hji | ⟨hji, hj⟩ <;> rcases (take_used hi hdp).1 hk with hki | ⟨hki, hk⟩
    · exact hji.trans hki.symm
    · rw [hji, take_ncache_self, take_ncache hki] at hkey
      exact absurd hkey.symm (hfrs k hk)
    · rw [hki, take_ncache_self, take_ncache hji] at hkey
      exact absurd hkey (hfrs j hj)
    · rw [take_ncache hji, take_ncache hki] at hkey
      exact hs.distinct j k hj hk hkey
  v_hold x hx := by
    have hd := refs_ncache s Ncache.dp hi ⟨vp, dp, name, cred⟩ x
    have hv := refs_ncache s Ncache.vp hi ⟨vp, dp, name, cred⟩ x
    simp only [Dnlc.take]
    rw [hd, hv, hold_apply, hold_apply]
    by_cases hused : (s.ncache i).dp = 0
    · obtain ⟨hvp0, -⟩ := hs.unused i hi hused
      rw [hused, hvp0, if_neg hx.symm, if_neg (not_not.2 rfl), if_neg (not_not.2 rfl), hs.v_hold x hx]
      ring
    · rw [if_pos hused, if_pos (hs.vp i ⟨hi, hused⟩), rele_apply, rele_apply, hs.v_hold x hx]
      ring
  cr_hold c hc := by
    have hcr' := refs_ncache s Ncache.cred hi ⟨vp, dp, name, cred⟩ c
    rw [hcr, if_neg (show ¬NOCRED = c from Ne.symm hc)] at hcr'
    simp only [Dnlc.take]
    rw [hcr']
    by_cases hno : cred = 0
    · rw [if_neg (not_not.2 hno), hs.cr_hold c hc, hno, if_neg (Ne.symm hc)]
      ring
    · rw [if_pos hno, hold_apply, hs.cr_hold c hc]
      ring

/-- What a call of `dnlcEnter` does. -/
theorem Inv.enter_cases (hs : Inv s) (h : dnlcEnter s before dp name vp cred = some s') :
    (s' = s ∧ (NC_NAMLEN < name.length ∨ ∃ i, dnlcSearch s dp name (NC_HASH before name dp) cred = some i)) ∨
      (name.length ≤ NC_NAMLEN ∧ dnlcSearch s dp name (NC_HASH before name dp) cred = none ∧
        dp ≠ 0 ∧ vp ≠ 0 ∧ cred ≠ ANYCRED ∧
        s' = Dnlc.take s (s.lru.next ncLru) (NC_HASH before name dp) dp name vp cred) := by
  have hlru : s.lru.next ncLru ≠ ncLru := fun heq => ncLru_notMem (heq ▸ hs.lru_next)
  rw [dnlcEnter, hs.doingcache] at h
  dsimp only at h
  rw [if_neg (by decide)] at h
  by_cases hlen : name.length > NC_NAMLEN
  · rw [if_pos hlen] at h
    exact .inl ⟨(some.inj h).symm, .inl hlen⟩
  rw [if_neg hlen] at h
  cases hsea : dnlcSearch s dp name (NC_HASH before name dp) cred with
  | some i =>
    rw [hsea] at h
    exact .inl ⟨(some.inj h).symm, .inr ⟨i, rfl⟩⟩
  | none =>
    rw [hsea, if_neg (by decide), if_neg hlru] at h
    split_ifs at h with hnull
    obtain ⟨hdp, hvp, hcr⟩ : dp ≠ 0 ∧ vp ≠ 0 ∧ cred ≠ ANYCRED := by simpa using hnull
    exact .inr ⟨not_lt.1 hlen, rfl, hdp, hvp, hcr, (some.inj h).symm⟩

/-! ### The start -/

theorem init_lru (n : ℕ) (hn : n ≤ NC_SIZE) : ((range n).foldl (fun q i => q.insque i ncLru)
      (Links.null ⟨fun _ => 0, fun _ => 0⟩ ncLru)).HasRing ncLru {i | i < n} := by
  induction n with
  | zero =>
    have hemp : {i | i < 0} = (∅ : Set ℕ) := Set.eq_empty_of_forall_notMem fun i => Nat.not_lt_zero i
    rw [hemp]
    exact Links.hasRing_null _ ncLru
  | succ n ih =>
    rw [range_succ, foldl_append]
    have hnot : n ∉ insert ncLru {i | i < n} := by
      rintro (rfl | h)
      · exact ncLru_notMem hn
      · exact lt_irrefl n h
    have hins : {i | i < n + 1} = insert n {i | i < n} := by
      ext i
      exact Nat.lt_succ_iff_lt_or_eq.trans or_comm
    rw [hins]
    exact (ih (Nat.le_of_succ_le hn)).insque (.inl rfl) hnot

theorem init_used (i : ℕ) : ¬dnlcInit.Used i := fun h => h.2 rfl

theorem init_hash : Buckets dnlcInit.hash (heads dnlcInit) (chains dnlcInit) := by
  have hnone : Buckets ⟨fun _ => 0, fun _ => 0⟩ ∅ fun _ => ∅ :=
    ⟨fun h hh => absurd hh (Set.notMem_empty h), Set.pairwiseDisjoint_empty⟩
  have hall := hnone.foldl_null (l := range NC_SIZE) nodup_range fun i _ => Set.notMem_empty i
  have hheads := hall.foldl_null (l := (range NC_HASH_SIZE).map ncHash)
    (nodup_range.map fun b b' h => Nat.add_left_cancel h) (by
      rintro i hi (hmem | hmem)
      · exact hmem
      · obtain ⟨b, -, rfl⟩ := List.mem_map.1 hi
        exact ncHash_notMem b (mem_range.1 hmem))
  rw [foldl_map] at hheads
  refine hheads.mono ?_ fun h _ => Set.eq_empty_of_forall_notMem fun i hi => init_used i hi.1
  rintro h (⟨b, hb, rfl⟩ | ⟨hlt, -⟩)
  · exact .inr (List.mem_map.2 ⟨b, mem_range.2 hb, rfl⟩)
  · exact .inl (.inr (mem_range.2 hlt))

theorem refs_zero (hx : x ≠ 0) : refs (fun _ => 0) x = 0 := by
  rw [refs, count_eq_zero]
  simpa using fun _ => hx

theorem inv_init : Inv dnlcInit where
  doingcache := rfl
  lru := init_lru NC_SIZE le_rfl
  hash := init_hash
  name i hi := absurd hi (init_used i)
  vp i hi := absurd hi (init_used i)
  unused _ _ _ := ⟨rfl, rfl⟩
  distinct i _ hi := absurd hi (init_used i)
  v_hold x hx := by
    simp only [dnlcInit, refs_zero hx]
    rfl
  cr_hold c hc := by
    simp only [dnlcInit, NOCRED, refs_zero hc]
    rfl

end Uwisc.Dnlc
