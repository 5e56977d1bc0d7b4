import Mathlib.Data.List.Basic
import Mathlib.Data.List.Nodup
import Uwisc.Lib.System
import Uwisc.Lib.Wrap

/-!
# The quota cache

The in-core dquots of `sys/ufs/quota.c`: their hash chains, their free list, and `getdiskquota`,
`dqrele` and `dqupdate`, each up to where it sleeps in `rdwri` and from there on.

Dquots go by their number in the table `dquot`, and mounts by their address. Of the flags only
`DQ_MOD` is here. What a dquot says about usage and limits is not looked at.
-/

namespace Uwisc.Ufs.Quota

open Lib

/-- A dquot (`struct dquot`). -/
structure Dquot where
  /-- `DQ_MOD`. -/
  mod : Bool
  dq_cnt : ℤ
  dq_uid : ℤ
  dq_mp : ℕ

/-- A mount, as far as quotas go. -/
structure Mount where
  m_qinod : Bool
  closing : Bool

/-- The dquots, the hash chains and the free list. -/
structure Cache where
  dquot : ℕ → Dquot
  dqhead : ℕ → List ℕ
  dqfreelist : List ℕ

inductive Panic
  | diskquota
  | dqrele
  | dqupdate
  deriving DecidableEq, Repr

/-- `DQHASH`. -/
def dqhash (uid : ℤ) (mp : ℕ) : ℕ := ((mp + uid) % 64).toNat

/-- Initializes the cache for a table of `ndquot` dquots. -/
def qtinit (ndquot : ℕ) : Cache where
  dquot _ := ⟨false, 0, 0, 0⟩
  dqhead _ := []
  dqfreelist := (List.range ndquot).reverse

def Cache.setDquot (c : Cache) (dqp : ℕ) (d : Dquot) : Cache :=
  { c with dquot := Function.update c.dquot dqp d }

/-- `dqremfree`. -/
def Cache.dqremfree (c : Cache) (dqp : ℕ) : Cache :=
  { c with dqfreelist := c.dqfreelist.erase dqp }

/-- `dqinstailfree`. -/
def Cache.dqinstailfree (c : Cache) (dqp : ℕ) : Cache :=
  { c with dqfreelist := c.dqfreelist ++ [dqp] }

/-- Takes a dquot off the hash chain it is on. -/
def Cache.remque (c : Cache) (dqp : ℕ) : Cache :=
  { c with dqhead := fun dhp => (c.dqhead dhp).erase dqp }

/-- Puts a dquot on a hash chain. -/
def Cache.insque (c : Cache) (dqp dhp : ℕ) : Cache :=
  { c with dqhead := Function.update c.dqhead dhp (dqp :: c.dqhead dhp) }

/-- The dquot is that of a user on a filesystem. -/
def Cache.Is (c : Cache) (dqp : ℕ) (uid : ℤ) (mp : ℕ) : Prop :=
  (c.dquot dqp).dq_uid = uid ∧ (c.dquot dqp).dq_mp = mp

instance (c : Cache) (dqp : ℕ) (uid : ℤ) (mp : ℕ) : Decidable (c.Is dqp uid mp) :=
  inferInstanceAs (Decidable (_ ∧ _))

/-- A cache hit. -/
def Cache.hit (c : Cache) (dqp : ℕ) : Cache :=
  let d := c.dquot dqp
  (if d.dq_cnt = 0 then c.dqremfree dqp else c).setDquot dqp
    { d with dq_cnt := wrap 16 (d.dq_cnt + 1) }

/-- A dquot from the free list is taken for a user on a filesystem. -/
def Cache.miss (c : Cache) (dqp : ℕ) (uid : ℤ) (mp : ℕ) : Cache :=
  ((c.dqremfree dqp).remque dqp).setDquot dqp ⟨false, 1, uid, mp⟩

/-- What `getdiskquota` returns, or that it sleeps reading a dquot. -/
inductive Got
  | null
  | dqp (dqp : ℕ)
  | reading (dqp : ℕ)

/-- Obtains the quota of a user on a filesystem, up to where it reads it off disk. -/
def getdiskquota (mounts : ℕ → Mount) (c : Cache) (uid : ℤ) (mp : ℕ) : Except Panic (Got × Cache) :=
  if (mounts mp).m_qinod = false ∨ (mounts mp).closing then .ok (.null, c)
  else match (c.dqhead (dqhash uid mp)).find? fun dqp => c.Is dqp uid mp with
    | some dqp => .ok (.dqp dqp, c.hit dqp)
    | none => match c.dqfreelist with
      | [] => .ok (.null, c)
      | dqp :: _ =>
        if (c.dquot dqp).mod then .error .diskquota
        else .ok (.reading dqp, c.miss dqp uid mp)

/-- Updates a dquot on disk, up to where it is written; says if it is. -/
def dqupdate (mounts : ℕ → Mount) (c : Cache) (dqp : ℕ) : Except Panic (Cache × Bool) :=
  let d := c.dquot dqp
  if d.mod then
    if (mounts d.dq_mp).m_qinod then .ok (c.setDquot dqp { d with mod := false }, true)
    else .error .dqupdate
  else .ok (c, false)

/-- What `dqrele` does in the end, after it slept or if it did not have to. -/
def dqreleDone (c : Cache) (dqp : ℕ) : Cache :=
  let d := c.dquot dqp
  (if d.dq_cnt = 1 then c.dqinstailfree dqp else c).setDquot dqp
    { d with dq_cnt := wrap 16 (d.dq_cnt - 1) }

/-- Releases a dquot, up to where it is written; says if it is. -/
def dqrele (mounts : ℕ → Mount) (c : Cache) (dqp : ℕ) : Except Panic (Cache × Bool) :=
  let d := c.dquot dqp
  if d.dq_cnt = 0 then .error .dqrele
  else if d.dq_cnt = 1 ∧ d.mod then dqupdate mounts c dqp
  else .ok (dqreleDone c dqp, false)

/-- What `getdiskquota` does when the quota has been read, without an error. -/
def getdiskquotaDone (c : Cache) (dqp : ℕ) : Cache :=
  c.insque dqp (dqhash (c.dquot dqp).dq_uid (c.dquot dqp).dq_mp)

/-!
### Processes using the quota cache

Processes call `getdiskquota`, `dqrele` and `dqupdate`, and modify dquots they have references to.
What others do while one of them sleeps in `rdwri` comes between the two halves of its call
(`Label.read`, `Label.written`).

In every run under the condition `Undisturbed` there is at most one dquot for a user on a
filesystem on the hash chains, the dquots on the free list are those without references, none of
them is modified, and no call panics (`quota_sound`). The condition is on what the others
may have done meanwhile:

* when a dquot has been read, there is still none for its user and filesystem on the chains;
* when a dquot has been written by its last holder, it is not modified again already.

Neither is looked at by the code: two processes reading the same quota leave two dquots for it,
and a dquot modified while it was written goes to the free list as it is (`quota_disturbed`).
-/

open Function List

/-- A process that sleeps in `rdwri`, reading a dquot or writing one to release it. -/
inductive Sleeper
  | reading (dqp : ℕ)
  | releasing (dqp : ℕ)
  deriving DecidableEq

/-- The cache, the references callers have to dquots, and the processes that sleep. -/
structure State where
  cache : Cache
  refs : ℕ → ℕ
  sleepers : List Sleeper

/-- A step of a process. -/
inductive Label
  | getdiskquota (uid : BitVec 16) (mp : ℕ)
  /-- The quota has been read. -/
  | read (dqp : ℕ) (error : Bool)
  | dqrele (dqp : ℕ)
  /-- The dquot that is released has been written. -/
  | written (dqp : ℕ)
  /-- A dquot is charged. -/
  | charge (dqp : ℕ)
  | dqupdate (dqp : ℕ)

/-- A reference is given up. -/
def State.release (mounts : ℕ → Mount) (s : State) (dqp : ℕ) : Except Panic State :=
  (dqrele mounts s.cache dqp).map fun r =>
    { s with cache := r.1, sleepers := if r.2 then .releasing dqp :: s.sleepers else s.sleepers }

/-- Executes a step, if the process is where it comes. -/
def exec (mounts : ℕ → Mount) (s : State) : Label → Option (Except Panic State)
  | .getdiskquota uid mp =>
    some <| (getdiskquota mounts s.cache uid.toInt mp).map fun r =>
      match r.1 with
      | .null => { s with cache := r.2 }
      | .dqp dqp => { s with cache := r.2, refs := update s.refs dqp (s.refs dqp + 1) }
      | .reading dqp => { s with cache := r.2, sleepers := .reading dqp :: s.sleepers }
  | .read dqp error =>
    if .reading dqp ∈ s.sleepers then
      let s := { s with sleepers := s.sleepers.erase (.reading dqp) }
      some <|
        if error then s.release mounts dqp
        else .ok { s with
          cache := getdiskquotaDone s.cache dqp
          refs := update s.refs dqp (s.refs dqp + 1) }
    else none
  | .dqrele dqp =>
    if 0 < s.refs dqp then
      some <| State.release mounts
        { s with refs := update s.refs dqp (s.refs dqp - 1) } dqp
    else none
  | .written dqp =>
    if .releasing dqp ∈ s.sleepers then
      some (.ok { s with
        cache := dqreleDone s.cache dqp
        sleepers := s.sleepers.erase (.releasing dqp) })
    else none
  | .charge dqp =>
    if 0 < s.refs dqp then
      some (.ok { s with cache := s.cache.setDquot dqp { s.cache.dquot dqp with mod := true } })
    else none
  | .dqupdate dqp => some <| (dqupdate mounts s.cache dqp).map fun r => { s with cache := r.1 }

/-- The runs with a table of `ndquot` dquots. -/
def system (mounts : ℕ → Mount) (ndquot : ℕ) : System State Label where
  init := {⟨qtinit ndquot, fun _ => 0, []⟩}
  step s a s' := exec mounts s a = some (.ok s')

/-- What others did while a process slept does not matter, and the references are not too many for
    a `short`. -/
def Undisturbed (s : State) : Label → Prop
  | .getdiskquota uid mp => ∀ dhp, ∀ dqp ∈ s.cache.dqhead dhp, s.cache.Is dqp uid.toInt mp →
    (s.cache.dquot dqp).dq_cnt < 32767
  | .read dqp false => ∀ dhp, ∀ dqp' ∈ s.cache.dqhead dhp,
    ¬s.cache.Is dqp' (s.cache.dquot dqp).dq_uid (s.cache.dquot dqp).dq_mp
  | .written dqp => ¬((s.cache.dquot dqp).dq_cnt = 1 ∧ (s.cache.dquot dqp).mod)
  | _ => True

/-- The cache is as it should be, and no step panics. -/
structure Sound (mounts : ℕ → Mount) (ndquot : ℕ) (s : State) : Prop where
  nodup : ∀ dhp, (s.cache.dqhead dhp).Nodup
  unique : ∀ dhp, ∀ dqp ∈ s.cache.dqhead dhp, ∀ dhp', ∀ dqp' ∈ s.cache.dqhead dhp',
    s.cache.Is dqp' (s.cache.dquot dqp).dq_uid (s.cache.dquot dqp).dq_mp → dhp' = dhp ∧ dqp' = dqp
  free : ∀ dqp, dqp ∈ s.cache.dqfreelist ↔ dqp < ndquot ∧ (s.cache.dquot dqp).dq_cnt = 0
  clean : ∀ dqp ∈ s.cache.dqfreelist, (s.cache.dquot dqp).mod = false
  noPanic : ∀ a p, exec mounts s a ≠ some (.error p)

/-! ### The invariant -/

variable {mounts : ℕ → Mount} {ndquot : ℕ} {s s' : State} {c : Cache} {refs : ℕ → ℕ}
  {sleepers : List Sleeper} {dqp : ℕ}

/-- The references to a dquot, those of processes that sleep among them. -/
def holders (refs : ℕ → ℕ) (sleepers : List Sleeper) (dqp : ℕ) : ℕ :=
  refs dqp + sleepers.count (.releasing dqp) + sleepers.count (.reading dqp)

/-- The hash chains. -/
structure Chains (ndquot : ℕ) (c : Cache) : Prop where
  nodup : ∀ dhp, (c.dqhead dhp).Nodup
  hash : ∀ dhp, ∀ dqp ∈ c.dqhead dhp, dhp = dqhash (c.dquot dqp).dq_uid (c.dquot dqp).dq_mp
  unique : ∀ dhp, ∀ dqp ∈ c.dqhead dhp, ∀ dqp' ∈ c.dqhead dhp,
    c.Is dqp' (c.dquot dqp).dq_uid (c.dquot dqp).dq_mp → dqp' = dqp
  table : ∀ dhp, ∀ dqp ∈ c.dqhead dhp, dqp < ndquot

/-- A dquot is in the free list if it has no holders, and then it is not modified. While it is read
    it has one holder and is on no chain. -/
structure Fine (mounts : ℕ → Mount) (ndquot : ℕ) (s : State) (dqp : ℕ) : Prop where
  free : dqp ∈ s.cache.dqfreelist ↔ dqp < ndquot ∧ (s.cache.dquot dqp).dq_cnt = 0
  clean : (s.cache.dquot dqp).dq_cnt = 0 → (s.cache.dquot dqp).mod = false
  cnt : (s.cache.dquot dqp).dq_cnt = holders s.refs s.sleepers dqp
  fits : (s.cache.dquot dqp).dq_cnt ≤ 32767
  table : (s.cache.dquot dqp).dq_cnt ≠ 0 → dqp < ndquot
  mounted : (s.cache.dquot dqp).dq_cnt ≠ 0 → (mounts (s.cache.dquot dqp).dq_mp).m_qinod
  reading : .reading dqp ∈ s.sleepers → (s.cache.dquot dqp).dq_cnt = 1 ∧
    (s.cache.dquot dqp).mod = false ∧ ∀ dhp, dqp ∉ s.cache.dqhead dhp

/-- What holds in every state. -/
structure Inv (mounts : ℕ → Mount) (ndquot : ℕ) (s : State) : Prop where
  chains : Chains ndquot s.cache
  freeNodup : s.cache.dqfreelist.Nodup
  fine : ∀ dqp, Fine mounts ndquot s dqp

variable {c' : Cache} {d : Dquot} {uid : ℤ} {mp dhp : ℕ}

@[simp] theorem setDquot_dqhead : (c.setDquot dqp d).dqhead = c.dqhead := rfl

@[simp] theorem setDquot_dqfreelist : (c.setDquot dqp d).dqfreelist = c.dqfreelist := rfl

@[simp] theorem setDquot_self : (c.setDquot dqp d).dquot dqp = d := update_self _ _ _

theorem setDquot_of_ne {x : ℕ} (h : x ≠ dqp) : (c.setDquot dqp d).dquot x = c.dquot x :=
  update_of_ne h _ _

/-- The chains are about the user and the filesystem only. -/
theorem Chains.congr (h : Chains ndquot c) (hhead : c'.dqhead = c.dqhead)
    (hd : ∀ x, (c'.dquot x).dq_uid = (c.dquot x).dq_uid ∧ (c'.dquot x).dq_mp = (c.dquot x).dq_mp) :
    Chains ndquot c' := by
  obtain ⟨hnd, hhash, huni, htable⟩ := h
  constructor
  · rwa [hhead]
  · rw [hhead]
    intro dhp x hx
    rw [(hd x).1, (hd x).2]
    exact hhash dhp x hx
  · rw [hhead]
    intro dhp x hx y hy hIs
    refine huni dhp x hx y hy ?_
    rwa [Cache.Is, (hd x).1, (hd x).2, (hd y).1, (hd y).2] at hIs
  · rwa [hhead]

theorem Chains.setDquot (h : Chains ndquot c) (huid : d.dq_uid = (c.dquot dqp).dq_uid)
    (hmp : d.dq_mp = (c.dquot dqp).dq_mp) : Chains ndquot (c.setDquot dqp d) := by
  refine h.congr rfl fun x => ?_
  by_cases hx : x = dqp
  · subst hx
    rw [setDquot_self]
    exact ⟨huid, hmp⟩
  · rw [setDquot_of_ne hx]
    exact ⟨rfl, rfl⟩

/-- A dquot that is taken off its chain may become another's. -/
theorem Chains.miss (h : Chains ndquot c) : Chains ndquot (c.miss dqp uid mp) := by
  have hmem : ∀ dhp x, x ∈ (c.miss dqp uid mp).dqhead dhp ↔ x ≠ dqp ∧ x ∈ c.dqhead dhp :=
    fun dhp x => (h.nodup dhp).mem_erase_iff
  have hd : ∀ x, x ≠ dqp → (c.miss dqp uid mp).dquot x = c.dquot x := fun x hx =>
    setDquot_of_ne hx
  constructor
  · exact fun dhp => (h.nodup dhp).erase _
  · intro dhp x hx
    rw [hd x ((hmem dhp x).1 hx).1]
    exact h.hash dhp x ((hmem dhp x).1 hx).2
  · intro dhp x hx y hy hIs
    rw [Cache.Is, hd x ((hmem dhp x).1 hx).1, hd y ((hmem dhp y).1 hy).1] at hIs
    exact h.unique dhp x ((hmem dhp x).1 hx).2 y ((hmem dhp y).1 hy).2 hIs
  · exact fun dhp x hx => h.table dhp x ((hmem dhp x).1 hx).2

/-- A dquot is put on its chain, when there is no other of its user and filesystem. -/
theorem Chains.insque (h : Chains ndquot c) (hout : ∀ dhp, dqp ∉ c.dqhead dhp) (ht : dqp < ndquot)
    (hnew : ∀ dhp, ∀ x ∈ c.dqhead dhp, ¬c.Is x (c.dquot dqp).dq_uid (c.dquot dqp).dq_mp) :
    Chains ndquot (getdiskquotaDone c dqp) := by
  have hmem : ∀ dhp x, x ∈ (getdiskquotaDone c dqp).dqhead dhp ↔
      (x = dqp ∧ dhp = dqhash (c.dquot dqp).dq_uid (c.dquot dqp).dq_mp) ∨ x ∈ c.dqhead dhp := by
    intro dhp x
    by_cases heq : dhp = dqhash (c.dquot dqp).dq_uid (c.dquot dqp).dq_mp
    · subst heq
      simp [getdiskquotaDone, Cache.insque]
    · simp [getdiskquotaDone, Cache.insque, heq]
  constructor
  · intro dhp
    by_cases heq : dhp = dqhash (c.dquot dqp).dq_uid (c.dquot dqp).dq_mp
    · subst heq
      simpa [getdiskquotaDone, Cache.insque] using ⟨hout _, h.nodup _⟩
    · simpa [getdiskquotaDone, Cache.insque, heq] using h.nodup dhp
  · intro dhp x hx
    rcases (hmem dhp x).1 hx with ⟨rfl, heq⟩ | hx
    · exact heq
    · exact h.hash dhp x hx
  · intro dhp x hx y hy hIs
    rcases (hmem dhp x).1 hx with ⟨rfl, -⟩ | hx
    · rcases (hmem dhp y).1 hy with ⟨rfl, -⟩ | hy
      · rfl
      · exact absurd hIs (hnew dhp y hy)
    · rcases (hmem dhp y).1 hy with ⟨rfl, -⟩ | hy
      · exact absurd ⟨hIs.1.symm, hIs.2.symm⟩ (hnew dhp x ‹_›)
      · exact h.unique dhp x hx y hy hIs
  · intro dhp x hx
    rcases (hmem dhp x).1 hx with ⟨rfl, -⟩ | hx
    · exact ht
    · exact h.table dhp x hx

/-! ### The steps -/

/-- A step that is about another dquot. -/
theorem Fine.congr (h : Fine mounts ndquot s dqp) (hd : s'.cache.dquot dqp = s.cache.dquot dqp)
    (hfree : dqp ∈ s'.cache.dqfreelist ↔ dqp ∈ s.cache.dqfreelist)
    (hhol : holders s'.refs s'.sleepers dqp = holders s.refs s.sleepers dqp)
    (hrea : .reading dqp ∈ s'.sleepers → .reading dqp ∈ s.sleepers)
    (hout : ∀ dhp, dqp ∈ s'.cache.dqhead dhp → dqp ∈ s.cache.dqhead dhp) :
    Fine mounts ndquot s' dqp := by
  obtain ⟨free, clean, cnt, fits, table, mounted, reading⟩ := h
  constructor
  · rw [hfree, hd, free]
  · rwa [hd]
  · rw [hd, hhol, cnt]
  · rwa [hd]
  · rwa [hd]
  · rwa [hd]
  · rw [hd]
    intro h
    obtain ⟨hcnt, hmod, hcha⟩ := reading (hrea h)
    exact ⟨hcnt, hmod, fun dhp hmem => hcha dhp (hout dhp hmem)⟩

theorem Fine.cnt_nonneg (h : Fine mounts ndquot s dqp) : 0 ≤ (s.cache.dquot dqp).dq_cnt := by
  rw [h.cnt]
  exact Int.natCast_nonneg _

/-- A dquot that is read has no other holders. -/
theorem Fine.holders_reading (h : Fine mounts ndquot s dqp) (hr : .reading dqp ∈ s.sleepers) :
    s.refs dqp = 0 ∧ s.sleepers.count (.releasing dqp) = 0 ∧
      s.sleepers.count (.reading dqp) = 1 := by
  have hcnt := h.cnt
  rw [(h.reading hr).1, holders] at hcnt
  have := count_pos_iff.2 hr
  omega

theorem holders_update_of_ne {n x : ℕ} (hx : x ≠ dqp) :
    holders (update refs dqp n) sleepers x = holders refs sleepers x := by
  rw [holders, holders, update_of_ne hx]

theorem Inv.hit (h : Inv mounts ndquot ⟨c, refs, sleepers⟩) (hmem : dqp ∈ c.dqhead dhp)
    (hfit : (c.dquot dqp).dq_cnt < 32767) (hm : (mounts (c.dquot dqp).dq_mp).m_qinod) :
    Inv mounts ndquot ⟨c.hit dqp, update refs dqp (refs dqp + 1), sleepers⟩ := by
  obtain ⟨hcha, hnd, hfine⟩ := h
  have hdqp := hfine dqp
  have hnon : 0 ≤ (c.dquot dqp).dq_cnt := hdqp.cnt_nonneg
  have hwrap : wrap 16 ((c.dquot dqp).dq_cnt + 1) = (c.dquot dqp).dq_cnt + 1 :=
    wrap_short (by omega) (by omega)
  have hd : (c.hit dqp).dquot =
      update c.dquot dqp { c.dquot dqp with dq_cnt := (c.dquot dqp).dq_cnt + 1 } := by
    rw [Cache.hit, hwrap]
    split_ifs <;> rfl
  have hhead : (c.hit dqp).dqhead = c.dqhead := by
    rw [Cache.hit]
    split_ifs <;> rfl
  have hfree : (c.hit dqp).dqfreelist.Nodup ∧
      ∀ x, x ∈ (c.hit dqp).dqfreelist ↔ x ≠ dqp ∧ x ∈ c.dqfreelist := by
    rw [Cache.hit]
    split_ifs with hzero
    · exact ⟨hnd.erase _, fun x => hnd.mem_erase_iff⟩
    · refine ⟨hnd, fun x => (and_iff_right_of_imp ?_).symm⟩
      rintro hx rfl
      exact hzero (hdqp.free.1 hx).2
  refine ⟨hcha.congr hhead fun x => ?_, hfree.1, fun x => ?_⟩
  · rw [hd]
    by_cases hx : x = dqp
    · subst hx
      simp
    · simp [hx]
  · by_cases hx : x = dqp
    · subst hx
      have hself : (c.hit x).dquot x = { c.dquot x with dq_cnt := (c.dquot x).dq_cnt + 1 } := by
        rw [hd, update_self]
      have hcnt : (c.dquot x).dq_cnt = holders refs sleepers x := hdqp.cnt
      constructor
      · dsimp only
        rw [hfree.2, hself]
        dsimp only
        constructor
        · intro h
          exact absurd rfl h.1
        · intro h
          omega
      · dsimp only
        rw [hself]
        intro h
        dsimp only at h
        omega
      · dsimp only
        rw [hself]
        dsimp only
        rw [hcnt, holders, holders, update_self]
        omega
      · dsimp only
        rw [hself]
        dsimp only
        omega
      · exact fun _ => hcha.table dhp x hmem
      · intro
        dsimp only
        rw [hself]
        exact hm
      · intro hr
        exact absurd hmem ((hdqp.reading hr).2.2 dhp)
    · refine (hfine x).congr ?_ ?_ (holders_update_of_ne hx) id fun dhp h => ?_
      · dsimp only
        rw [hd, update_of_ne hx]
      · exact (hfree.2 x).trans (and_iff_right hx)
      · dsimp only at h
        rwa [hhead] at h

theorem Inv.miss (h : Inv mounts ndquot ⟨c, refs, sleepers⟩) (hmem : dqp ∈ c.dqfreelist)
    (hm : (mounts mp).m_qinod) :
    Inv mounts ndquot ⟨c.miss dqp uid mp, refs, .reading dqp :: sleepers⟩ := by
  obtain ⟨hcha, hnd, hfine⟩ := h
  have hdqp := hfine dqp
  have htable : dqp < ndquot := (hdqp.free.1 hmem).1
  have hzero : (c.dquot dqp).dq_cnt = 0 := (hdqp.free.1 hmem).2
  have hcnt : (c.dquot dqp).dq_cnt = holders refs sleepers dqp := hdqp.cnt
  have hself : (c.miss dqp uid mp).dquot dqp = ⟨false, 1, uid, mp⟩ := update_self _ _ _
  have hfree : ∀ x, x ∈ (c.miss dqp uid mp).dqfreelist ↔ x ≠ dqp ∧ x ∈ c.dqfreelist :=
    fun x => hnd.mem_erase_iff
  have hhead : ∀ dhp x, x ∈ (c.miss dqp uid mp).dqhead dhp ↔ x ≠ dqp ∧ x ∈ c.dqhead dhp :=
    fun dhp x => (hcha.nodup dhp).mem_erase_iff
  refine ⟨hcha.miss, hnd.erase _, fun x => ?_⟩
  by_cases hx : x = dqp
  · subst hx
    constructor
    · dsimp only
      rw [hfree, hself]
      simp
    · intro
      dsimp only
      rw [hself]
    · dsimp only
      rw [hself]
      simp only [holders, count_cons_self, count_cons_of_ne, ne_eq, reduceCtorEq,
        not_false_eq_true] at hcnt ⊢
      omega
    · dsimp only
      rw [hself]
      exact (by decide : (1 : ℤ) ≤ 32767)
    · exact fun _ => htable
    · intro
      dsimp only
      rw [hself]
      exact hm
    · intro
      dsimp only
      rw [hself]
      exact ⟨rfl, rfl, fun dhp h => ((hhead dhp x).1 h).1 rfl⟩
  · have hne : Sleeper.reading dqp ≠ .reading x := fun h => hx (Sleeper.reading.inj h).symm
    refine (hfine x).congr (setDquot_of_ne hx) ((hfree x).trans (and_iff_right hx)) ?_ ?_ ?_
    · simp [holders, count_cons_of_ne hne]
    · exact fun h => (mem_cons.1 h).resolve_left hne.symm
    · exact fun dhp h => ((hhead dhp x).1 h).2

/-- A dquot that has been read is put on its chain. -/
theorem Inv.readDone (h : Inv mounts ndquot ⟨c, refs, sleepers⟩) (hr : .reading dqp ∈ sleepers)
    (hnew : ∀ dhp, ∀ x ∈ c.dqhead dhp, ¬c.Is x (c.dquot dqp).dq_uid (c.dquot dqp).dq_mp) :
    Inv mounts ndquot ⟨getdiskquotaDone c dqp, update refs dqp (refs dqp + 1),
      sleepers.erase (.reading dqp)⟩ := by
  obtain ⟨hcha, hnd, hfine⟩ := h
  have hdqp := hfine dqp
  obtain ⟨hone, hmod, hout⟩ := hdqp.reading hr
  obtain ⟨-, -, hcount⟩ := hdqp.holders_reading hr
  dsimp only at hone hmod hout hcount
  have hgone : Sleeper.reading dqp ∉ sleepers.erase (.reading dqp) := by
    rw [← count_eq_zero, count_erase_self, hcount]
  refine ⟨hcha.insque hout (hdqp.table (by dsimp only; omega)) hnew, hnd, fun x => ?_⟩
  by_cases hx : x = dqp
  · subst hx
    refine ⟨hdqp.free, hdqp.clean, ?_, hdqp.fits, hdqp.table, hdqp.mounted, fun h => absurd h hgone⟩
    have hcnt : (c.dquot x).dq_cnt = holders refs sleepers x := hdqp.cnt
    refine hcnt.trans ?_
    simp only [holders, update_self, count_erase_self, hcount,
      count_erase_of_ne (show Sleeper.releasing x ≠ .reading x from nofun)]
    omega
  · have hne : Sleeper.reading x ≠ .reading dqp := fun h => hx (Sleeper.reading.inj h)
    refine (hfine x).congr rfl Iff.rfl ?_ mem_of_mem_erase ?_
    · simp [holders, update_of_ne hx, count_erase_of_ne hne,
        count_erase_of_ne (show Sleeper.releasing x ≠ .reading dqp from nofun)]
    · intro dhp h
      by_cases heq : dhp = dqhash (c.dquot dqp).dq_uid (c.dquot dqp).dq_mp
      · subst heq
        have h : x ∈ dqp :: c.dqhead (dqhash (c.dquot dqp).dq_uid (c.dquot dqp).dq_mp) := by
          simpa [getdiskquotaDone, Cache.insque] using h
        exact (mem_cons.1 h).resolve_left hx
      · simpa [getdiskquotaDone, Cache.insque, heq] using h

/-- `DQ_MOD` is cleared, or it is set for a dquot that is in use. -/
theorem Inv.setMod (h : Inv mounts ndquot ⟨c, refs, sleepers⟩) {b : Bool}
    (hb : b → (c.dquot dqp).dq_cnt ≠ 0 ∧ .reading dqp ∉ sleepers) :
    Inv mounts ndquot ⟨c.setDquot dqp { c.dquot dqp with mod := b }, refs, sleepers⟩ := by
  obtain ⟨hcha, hnd, hfine⟩ := h
  refine ⟨hcha.setDquot rfl rfl, hnd, fun x => ?_⟩
  by_cases hx : x = dqp
  · subst hx
    obtain ⟨free, clean, cnt, fits, table, mounted, reading⟩ := hfine x
    dsimp only at *
    constructor
    · simpa using free
    · dsimp only
      rw [setDquot_self]
      exact fun h => Bool.eq_false_iff.2 fun hmod => (hb hmod).1 h
    · simpa using cnt
    · simpa using fits
    · simpa using table
    · simpa using mounted
    · intro h
      dsimp only
      rw [setDquot_self]
      exact ⟨(reading h).1, Bool.eq_false_iff.2 fun hmod => (hb hmod).2 h, (reading h).2.2⟩
  · exact (hfine x).congr (setDquot_of_ne hx) Iff.rfl rfl id fun _ => id

variable {refs' : ℕ → ℕ} {sleepers' : List Sleeper}

/-- A process that holds a dquot goes to sleep or wakes up. -/
theorem Inv.moved (h : Inv mounts ndquot ⟨c, refs, sleepers⟩)
    (hhol : ∀ x, holders refs' sleepers' x = holders refs sleepers x)
    (hrea : ∀ x, .reading x ∈ sleepers' → .reading x ∈ sleepers) :
    Inv mounts ndquot ⟨c, refs', sleepers'⟩ :=
  ⟨h.chains, h.freeNodup, fun x => (h.fine x).congr rfl Iff.rfl (hhol x) (hrea x)
    fun _ => id⟩

/-- A holder of a dquot is gone for good. -/
theorem Inv.done (h : Inv mounts ndquot ⟨c, refs, sleepers⟩)
    (hoth : ∀ x, x ≠ dqp → holders refs' sleepers' x = holders refs sleepers x)
    (hself : holders refs sleepers dqp = holders refs' sleepers' dqp + 1)
    (hrea : ∀ x, .reading x ∈ sleepers' → x ≠ dqp ∧ .reading x ∈ sleepers)
    (hmod : (c.dquot dqp).dq_cnt = 1 → (c.dquot dqp).mod = false) :
    Inv mounts ndquot ⟨dqreleDone c dqp, refs', sleepers'⟩ := by
  obtain ⟨hcha, hnd, hfine⟩ := h
  have hdqp := hfine dqp
  have hcnt : (c.dquot dqp).dq_cnt = holders refs sleepers dqp := hdqp.cnt
  have hfits : (c.dquot dqp).dq_cnt ≤ 32767 := hdqp.fits
  have hwrap : wrap 16 ((c.dquot dqp).dq_cnt - 1) = (c.dquot dqp).dq_cnt - 1 :=
    wrap_short (by omega) (by omega)
  have hd : (dqreleDone c dqp).dquot =
      update c.dquot dqp { c.dquot dqp with dq_cnt := (c.dquot dqp).dq_cnt - 1 } := by
    rw [dqreleDone, hwrap]
    dsimp only
    split_ifs <;> rfl
  have hhead : (dqreleDone c dqp).dqhead = c.dqhead := by
    rw [dqreleDone]
    split_ifs <;> rfl
  have hnotf : dqp ∉ c.dqfreelist := fun h => by
    have := (hdqp.free.1 h).2
    dsimp only at this
    omega
  have hfree : (dqreleDone c dqp).dqfreelist.Nodup ∧ ∀ x, x ∈ (dqreleDone c dqp).dqfreelist ↔
      x ∈ c.dqfreelist ∨ (x = dqp ∧ (c.dquot dqp).dq_cnt = 1) := by
    rw [dqreleDone]
    split_ifs with hone
    · refine ⟨nodup_append.2 ⟨hnd, pairwise_singleton _ _, ?_⟩, fun x => ?_⟩
      · rintro x hx y hy rfl
        rw [mem_singleton] at hy
        exact hnotf (hy ▸ hx)
      · simp [Cache.dqinstailfree, hone]
    · exact ⟨hnd, fun x => by simp [hone]⟩
  refine ⟨hcha.congr hhead fun x => ?_, hfree.1, fun x => ?_⟩
  · rw [hd]
    by_cases hx : x = dqp
    · subst hx
      simp
    · simp [hx]
  · by_cases hx : x = dqp
    · subst hx
      have hnew : (dqreleDone c x).dquot x = { c.dquot x with dq_cnt := (c.dquot x).dq_cnt - 1 } := by
        rw [hd, update_self]
      have htable : x < ndquot := hdqp.table (by dsimp only; omega)
      constructor
      · dsimp only
        rw [hfree.2, hnew]
        dsimp only
        constructor
        · rintro (h | ⟨-, h⟩)
          · exact absurd h hnotf
          · exact ⟨htable, by omega⟩
        · rintro ⟨-, h⟩
          exact .inr ⟨rfl, by omega⟩
      · dsimp only
        rw [hnew]
        intro h
        dsimp only at h
        exact hmod (by omega)
      · dsimp only
        rw [hnew]
        dsimp only
        omega
      · dsimp only
        rw [hnew]
        dsimp only
        omega
      · exact fun _ => htable
      · intro
        dsimp only
        rw [hnew]
        exact hdqp.mounted (by dsimp only; omega)
      · exact fun h => absurd rfl (hrea x h).1
    · refine (hfine x).congr ?_ ?_ (hoth x hx) (fun h => (hrea x h).2) fun dhp h => ?_
      · dsimp only
        rw [hd, update_of_ne hx]
      · exact (hfree.2 x).trans (or_iff_left fun h => hx h.1)
      · dsimp only at h
        rwa [hhead] at h

theorem getdiskquota_cases (mounts : ℕ → Mount) (c : Cache) (uid : ℤ) (mp : ℕ) :
    getdiskquota mounts c uid mp = .ok (.null, c) ∨
    ((mounts mp).m_qinod ∧ ∃ dhp, ∃ dqp ∈ c.dqhead dhp, c.Is dqp uid mp ∧
      getdiskquota mounts c uid mp = .ok (.dqp dqp, c.hit dqp)) ∨
    ((mounts mp).m_qinod ∧ ∃ dqp ∈ c.dqfreelist, getdiskquota mounts c uid mp =
      if (c.dquot dqp).mod then .error .diskquota else .ok (.reading dqp, c.miss dqp uid mp)) := by
  rw [getdiskquota]
  split_ifs with hoff
  · exact .inl rfl
  · have hon : (mounts mp).m_qinod := by
      simpa using (not_or.1 hoff).1
    cases hfind : (c.dqhead (dqhash uid mp)).find? fun dqp => c.Is dqp uid mp with
    | some dqp =>
      have hIs : c.Is dqp uid mp := by simpa using find?_some hfind
      exact .inr (.inl ⟨hon, _, dqp, mem_of_find?_eq_some hfind, hIs, rfl⟩)
    | none =>
      cases hfree : c.dqfreelist with
      | nil => exact .inl rfl
      | cons dqp rest => exact .inr (.inr ⟨hon, dqp, mem_cons_self, rfl⟩)

/-- A reference is given up: the process releases the dquot, or it sleeps to write it. -/
theorem Inv.release (h : Inv mounts ndquot ⟨c, refs, sleepers⟩) (dqp : ℕ) (refs' : ℕ → ℕ)
    (sleepers' : List Sleeper)
    (hoth : ∀ x, x ≠ dqp → holders refs' sleepers' x = holders refs sleepers x)
    (hself : holders refs sleepers dqp = holders refs' sleepers' dqp + 1)
    (hrea : ∀ x, .reading x ∈ sleepers' → x ≠ dqp ∧ .reading x ∈ sleepers) :
    ∃ s', State.release mounts ⟨c, refs', sleepers'⟩ dqp = .ok s' ∧ Inv mounts ndquot s' := by
  have hdqp := h.fine dqp
  have hcnt : (c.dquot dqp).dq_cnt = holders refs sleepers dqp := hdqp.cnt
  rw [State.release, dqrele]
  dsimp only
  rw [if_neg (by omega)]
  split_ifs with hmod
  · have hm : (mounts (c.dquot dqp).dq_mp).m_qinod := hdqp.mounted (by dsimp only; omega)
    rw [dqupdate, if_pos hmod.2, if_pos hm]
    refine ⟨_, rfl, (h.setMod (b := false) fun hb => absurd hb Bool.false_ne_true).moved (fun x => ?_) fun x hx => ?_⟩
    · -- the reference is that of a process that sleeps
      by_cases hx : x = dqp
      · subst hx
        rw [hself]
        simp [holders]
        omega
      · rw [← hoth x hx]
        have hne : Sleeper.releasing dqp ≠ .releasing x := fun h => hx (Sleeper.releasing.inj h).symm
        simp [holders, count_cons_of_ne hne]
    · rw [if_pos rfl] at hx
      exact (hrea x ((mem_cons.1 hx).resolve_left (by simp))).2
  · refine ⟨_, rfl, h.done hoth hself hrea fun hone => ?_⟩
    exact Bool.eq_false_iff.2 fun h => hmod ⟨hone, h⟩

theorem Inv.getdiskquota (h : Inv mounts ndquot s) (uid : BitVec 16) (mp : ℕ) :
    ∃ r, exec mounts s (.getdiskquota uid mp) = some (.ok r) ∧
      (Undisturbed s (.getdiskquota uid mp) → Inv mounts ndquot r) := by
  obtain ⟨c, refs, sleepers⟩ := s
  rw [exec]
  rcases getdiskquota_cases mounts c uid.toInt mp with
    hr | ⟨hm, dhp, dqp, hmem, hIs, hr⟩ | ⟨hm, dqp, hmem, hr⟩
  · exact ⟨_, by rw [hr]; rfl, fun _ => h⟩
  · refine ⟨_, by rw [hr]; rfl, fun hu => h.hit hmem (hu dhp dqp hmem hIs) ?_⟩
    rw [hIs.2]
    exact hm
  · have hcln : (c.dquot dqp).mod = false :=
      (h.fine dqp).clean ((h.fine dqp).free.1 hmem).2
    rw [hcln, if_neg Bool.false_ne_true] at hr
    exact ⟨_, by rw [hr]; rfl, fun _ => h.miss hmem hm⟩

theorem Inv.read (h : Inv mounts ndquot s) (error : Bool) (hmem : .reading dqp ∈ s.sleepers) :
    ∃ r, exec mounts s (.read dqp error) = some (.ok r) ∧
      (Undisturbed s (.read dqp error) → Inv mounts ndquot r) := by
  obtain ⟨c, refs, sleepers⟩ := s
  rw [exec, if_pos hmem]
  cases error with
  | false =>
    exact ⟨_, rfl, fun hu => h.readDone hmem hu⟩
  | true =>
    have hone := (h.fine dqp).holders_reading hmem
    dsimp only at hone hmem
    have hrel := h.release dqp refs (sleepers.erase (.reading dqp)) ?_ ?_ ?_
    · obtain ⟨s', hs', hinv⟩ := hrel
      refine ⟨s', ?_, fun _ => hinv⟩
      dsimp only
      rw [if_pos rfl, hs']
    · intro x hx
      have hne : Sleeper.reading x ≠ .reading dqp := fun h => hx (Sleeper.reading.inj h)
      simp [holders, count_erase_of_ne hne,
        count_erase_of_ne (show Sleeper.releasing x ≠ .reading dqp from nofun)]
    · simp only [holders, count_erase_self, hone,
        count_erase_of_ne (show Sleeper.releasing dqp ≠ .reading dqp from nofun)]
    · intro x hx
      refine ⟨?_, mem_of_mem_erase hx⟩
      rintro rfl
      have := count_pos_iff.2 hx
      rw [count_erase_self, hone.2.2] at this
      omega

theorem Inv.dqrele (h : Inv mounts ndquot s) (hpos : 0 < s.refs dqp) :
    ∃ r, exec mounts s (.dqrele dqp) = some (.ok r) ∧ Inv mounts ndquot r := by
  obtain ⟨c, refs, sleepers⟩ := s
  rw [exec, if_pos hpos]
  dsimp only at hpos
  have hnot : Sleeper.reading dqp ∉ sleepers := fun hr => by
    have := ((h.fine dqp).holders_reading hr).1
    dsimp only at this
    omega
  obtain ⟨s', hs', hinv⟩ := h.release dqp (update refs dqp (refs dqp - 1)) sleepers
    (fun x hx => holders_update_of_ne hx)
    (by rw [holders, holders, update_self]; omega)
    (fun x hx => ⟨fun heq => hnot (heq ▸ hx), hx⟩)
  exact ⟨s', by rw [hs'], hinv⟩

theorem Inv.written (h : Inv mounts ndquot s) (hmem : .releasing dqp ∈ s.sleepers) :
    ∃ r, exec mounts s (.written dqp) = some (.ok r) ∧
      (Undisturbed s (.written dqp) → Inv mounts ndquot r) := by
  obtain ⟨c, refs, sleepers⟩ := s
  rw [exec, if_pos hmem]
  dsimp only at hmem
  have hpos := count_pos_iff.2 hmem
  have hnot : Sleeper.reading dqp ∉ sleepers := fun hr => by
    have := ((h.fine dqp).holders_reading hr).2.1
    dsimp only at this
    omega
  refine ⟨_, rfl, fun hu => h.done (fun x hx => ?_) ?_ (fun x hx => ?_) fun hone => ?_⟩
  · have hne : Sleeper.releasing x ≠ .releasing dqp := fun h => hx (Sleeper.releasing.inj h)
    simp [holders, count_erase_of_ne hne,
      count_erase_of_ne (show Sleeper.reading x ≠ .releasing dqp from nofun)]
  · simp only [holders, count_erase_self,
      count_erase_of_ne (show Sleeper.reading dqp ≠ .releasing dqp from nofun)]
    omega
  · have hx := mem_of_mem_erase hx
    exact ⟨fun heq => hnot (heq ▸ hx), hx⟩
  · exact Bool.eq_false_iff.2 fun h => hu ⟨hone, h⟩

theorem Inv.charge (h : Inv mounts ndquot s) (hpos : 0 < s.refs dqp) :
    ∃ r, exec mounts s (.charge dqp) = some (.ok r) ∧ Inv mounts ndquot r := by
  obtain ⟨c, refs, sleepers⟩ := s
  rw [exec, if_pos hpos]
  dsimp only at hpos
  refine ⟨_, rfl, h.setMod fun _ => ⟨fun hzero => ?_, fun hr => ?_⟩⟩
  · have hcnt : (c.dquot dqp).dq_cnt = holders refs sleepers dqp := (h.fine dqp).cnt
    rw [hzero, holders] at hcnt
    omega
  · have := ((h.fine dqp).holders_reading hr).1
    dsimp only at this
    omega

theorem Inv.dqupdate (h : Inv mounts ndquot s) (dqp : ℕ) :
    ∃ r, exec mounts s (.dqupdate dqp) = some (.ok r) ∧ Inv mounts ndquot r := by
  obtain ⟨c, refs, sleepers⟩ := s
  rw [exec, Quota.dqupdate]
  dsimp only
  split_ifs with hmod hm
  · exact ⟨_, rfl, h.setMod fun hb => absurd hb Bool.false_ne_true⟩
  · -- a dquot that is modified is in use, and its filesystem has quotas
    refine absurd ((h.fine dqp).mounted fun hzero => ?_) hm
    rw [(h.fine dqp).clean hzero] at hmod
    cases hmod
  · exact ⟨_, rfl, h⟩

/-! ### Every run -/

theorem inv_qtinit (mounts : ℕ → Mount) (ndquot : ℕ) :
    Inv mounts ndquot ⟨qtinit ndquot, fun _ => 0, []⟩ := by
  refine ⟨⟨fun _ => .nil, nofun, nofun, nofun⟩, nodup_reverse.2 nodup_range, fun dqp => ?_⟩
  refine ⟨by simp [qtinit], fun _ => rfl, rfl, by simp [qtinit], fun h => absurd rfl h,
    fun h => absurd rfl h, nofun⟩

/-- Whatever a process does, it does not panic, and if it was not disturbed the invariant holds. -/
theorem Inv.exec {a : Label} {r : Except Panic State} (h : Inv mounts ndquot s)
    (hr : exec mounts s a = some r) : ∃ s', r = .ok s' ∧ (Undisturbed s a → Inv mounts ndquot s') := by
  have hsome : ∀ {s'}, Quota.exec mounts s a = some (.ok s') → r = .ok s' := fun h =>
    Option.some_inj.1 (hr.symm.trans h)
  cases a with
  | getdiskquota uid mp =>
    obtain ⟨s', hs', hinv⟩ := h.getdiskquota uid mp
    exact ⟨s', hsome hs', hinv⟩
  | read dqp error =>
    by_cases hmem : .reading dqp ∈ s.sleepers
    · obtain ⟨s', hs', hinv⟩ := h.read error hmem
      exact ⟨s', hsome hs', hinv⟩
    · rw [Quota.exec, if_neg hmem] at hr
      cases hr
  | dqrele dqp =>
    by_cases hpos : 0 < s.refs dqp
    · obtain ⟨s', hs', hinv⟩ := h.dqrele hpos
      exact ⟨s', hsome hs', fun _ => hinv⟩
    · rw [Quota.exec, if_neg hpos] at hr
      cases hr
  | written dqp =>
    by_cases hmem : .releasing dqp ∈ s.sleepers
    · obtain ⟨s', hs', hinv⟩ := h.written hmem
      exact ⟨s', hsome hs', hinv⟩
    · rw [Quota.exec, if_neg hmem] at hr
      cases hr
  | charge dqp =>
    by_cases hpos : 0 < s.refs dqp
    · obtain ⟨s', hs', hinv⟩ := h.charge hpos
      exact ⟨s', hsome hs', fun _ => hinv⟩
    · rw [Quota.exec, if_neg hpos] at hr
      cases hr
  | dqupdate dqp =>
    obtain ⟨s', hs', hinv⟩ := h.dqupdate dqp
    exact ⟨s', hsome hs', fun _ => hinv⟩

theorem Inv.sound (h : Inv mounts ndquot s) : Sound mounts ndquot s where
  nodup := h.chains.nodup
  unique := by
    intro dhp dqp hmem dhp' dqp' hmem' hIs
    have hdhp : dhp' = dhp := by
      rw [h.chains.hash dhp dqp hmem, h.chains.hash dhp' dqp' hmem', hIs.1, hIs.2]
    subst hdhp
    exact ⟨rfl, h.chains.unique dhp' dqp hmem dqp' hmem' hIs⟩
  free := fun dqp => (h.fine dqp).free
  clean := fun dqp hmem => (h.fine dqp).clean ((h.fine dqp).free.1 hmem).2
  noPanic := by
    intro a p ha
    obtain ⟨s', hs', -⟩ := h.exec ha
    cases hs'

/-- In every run in which no process that sleeps is disturbed, the cache is as it should be and
    nothing panics. -/
theorem quota_sound (hs : ((system mounts ndquot).restrict Undisturbed).Reachable s) :
    Sound mounts ndquot s := by
  refine Inv.sound (System.Reachable.invariant (S := (system mounts ndquot).restrict Undisturbed)
    ?_ ?_ hs)
  · rintro s rfl
    exact inv_qtinit mounts ndquot
  · rintro s a s' hinv ⟨hu, hstep⟩
    obtain ⟨t, ht, hinv'⟩ := hinv.exec hstep
    cases ht
    exact hinv' hu

/-- A filesystem with quotas. -/
def quotasOn : ℕ → Mount := fun _ => ⟨true, false⟩

/-- A quota is read, charged, and written when it is released. -/
theorem quota_sound_charge : ∃ s, ((system quotasOn 1).restrict Undisturbed).Reachable s ∧
    s.cache.dqfreelist = [0] ∧ s.cache.dqhead 9 = [0] ∧ Sound quotasOn 1 s := by
  have h0 : ((system quotasOn 1).restrict Undisturbed).Reachable ⟨qtinit 1, fun _ => 0, []⟩ :=
    .init rfl
  have h1 := h0.step (a := Label.getdiskquota 1 8) ⟨nofun, rfl⟩
  have h2 := h1.step (a := Label.read 0 false) ⟨nofun, rfl⟩
  have h3 := h2.step (a := Label.charge 0) ⟨trivial, rfl⟩
  have h4 := h3.step (a := Label.dqrele 0) ⟨trivial, rfl⟩
  have h5 := h4.step (a := Label.written 0) ⟨by simp [Undisturbed], rfl⟩
  exact ⟨_, h5, rfl, rfl, quota_sound h5⟩

/-- Two processes read the quota of a user, and there are two dquots for it. And a dquot that is
    charged again while it is written goes to the free list modified. -/
theorem quota_disturbed : (¬∀ s, (system quotasOn 2).Reachable s → Sound quotasOn 2 s) ∧
    ∃ s, (system quotasOn 1).Reachable s ∧ 0 ∈ s.cache.dqfreelist ∧ (s.cache.dquot 0).mod ∧
      exec quotasOn s (.getdiskquota 2 8) = some (.error .diskquota) := by
  constructor
  · intro h
    have h0 : (system quotasOn 2).Reachable ⟨qtinit 2, fun _ => 0, []⟩ := .init rfl
    have h1 := h0.step (a := Label.getdiskquota 1 8) rfl
    have h2 := h1.step (a := Label.getdiskquota 1 8) rfl
    have h3 := h2.step (a := Label.read 0 false) rfl
    have h4 := h3.step (a := Label.read 1 false) rfl
    have := (h _ h4).unique 9 0 (by decide) 9 1 (by decide) (by decide)
    exact absurd this.2 (by decide)
  · have h0 : (system quotasOn 1).Reachable ⟨qtinit 1, fun _ => 0, []⟩ := .init rfl
    have h1 := h0.step (a := Label.getdiskquota 1 8) rfl
    have h2 := h1.step (a := Label.read 0 false) rfl
    have h3 := h2.step (a := Label.charge 0) rfl
    have h4 := h3.step (a := Label.dqrele 0) rfl
    -- another process, while the dquot is written
    have h5 := h4.step (a := Label.getdiskquota 1 8) rfl
    have h6 := h5.step (a := Label.charge 0) rfl
    have h7 := h6.step (a := Label.dqrele 0) rfl
    have h8 := h7.step (a := Label.written 0) rfl
    exact ⟨_, h8, by decide, by decide, rfl⟩

end Uwisc.Ufs.Quota
