import Uwisc.Lib.Holders
import Uwisc.Nfs.Remove

/-!
# Runs of the calls that open and remove files

A client without vnodes, any directories on the server, and any sequence of calls. If the calls
of `nfs_remove` meet a condition (`RemoveOk`), a file that is renamed instead of being removed is
removed once, after the last close, with the references given back (`remove_sound`).

The condition leaves out what breaks this:

* the first of several closes clears `ROPEN` (`closed_once`);
* a temporary name does not fit if the name was long (`name_overflow`), and may be taken
  (`name_taken`);
* an open file that has been renamed can still be removed by its temporary name, or by another
  one it has.
-/

namespace Uwisc.Nfs.Remove

open Function Lib List Nat Option

variable {Dir File Cred : Type} [DecidableEq Dir] [DecidableEq File] [DecidableEq Cred]
  {writable : Dir → Cred → Bool} {s s' : State Dir File Cred} {f : File}

/-- The count of the references to the vnode of a file. -/
def State.count (s : State Dir File Cred) (f : File) : ℕ := (s.rnode f).elim 0 Rnode.v_count

/-- The file is marked as open. -/
def State.ropen (s : State Dir File Cred) (f : File) : Bool := (s.rnode f).elim false Rnode.ropen

/-- Where the name of a file that was renamed is. -/
def State.unl (s : State Dir File Cred) (f : File) : Option (Unl Dir Cred) := (s.rnode f).bind Rnode.unl

/-- A call. -/
inductive Call (Dir File Cred : Type)
  | lookup (d : Dir) (nm : Name)
  /-- `VN_HOLD`, by a holder. -/
  | hold (f : File)
  /-- `VN_RELE`, by a holder that has not opened the file, or has closed it. -/
  | rele (f : File)
  /-- `nfs_open`, by a holder that has not opened the file. -/
  | open (f : File)
  | close (f : File)
  | remove (d : Dir) (nm : Name) (cred : Cred) (usec : ℕ)

/-- The state after a call. -/
def after (writable : Dir → Cred → Bool) (s : State Dir File Cred) : Call Dir File Cred → Option (State Dir File Cred)
  | .lookup d nm => some (nfsLookup s d nm).1
  | .hold f => (s.rnode f).map fun rp =>
    { s with rnode := update s.rnode f (some { rp with v_count := rp.v_count + 1 }) }
  | .rele f => if s.opens f < s.count f then vnRele writable s f else none
  | .open f => if s.opens f < s.count f then nfsOpen s f else none
  | .close f => if 0 < s.opens f then nfsClose s f else none
  | .remove d nm cred usec => (nfsRemove writable s d nm cred usec).map Prod.fst

/-- A client without vnodes. -/
def Init (s : State Dir File Cred) : Prop :=
  (∀ f, s.rnode f = none ∧ s.opens f = 0) ∧ (∀ d, s.held d = 0) ∧ (∀ c, s.cr_ref c = 0) ∧ s.names = 0 ∧ s.log = []

def system (writable : Dir → Cred → Bool) : System (State Dir File Cred) (Call Dir File Cred) :=
  .ofExec {s | Init s} (after writable)

/-- The file of the name, if open, has not been closed since it was last opened, and has not been removed
    before; the name is no temporary one of its; and if a temporary name is made up, it is good. -/
def RemoveOk (s : State Dir File Cred) (d : Dir) (nm : Name) (usec : ℕ) : Prop :=
  ∀ f, s.entry d nm = some f → (s.opens f ≠ 0 → s.ropen f = true ∧ s.unl f = none) ∧
    (∀ u, s.unl f = some u → ¬(u.r_unldvp = d ∧ u.r_unlname = nm)) ∧
    (s.ropen f = true → s.unl f = none → Fits (newname nm usec) ∧ s.entry d (newname nm usec) = none)

def CallOk (s : State Dir File Cred) : Call Dir File Cred → Prop
  | .remove d nm _ usec => RemoveOk s d nm usec
  | _ => True

/-- A count for each `p` of the files with a pointer that `g` makes `p`. -/
def Booked {P : Type} (unl : File → Option (Unl Dir Cred)) (g : Unl Dir Cred → P) (count : P → ℤ) : Prop :=
  ∀ p, (holders (fun f => (unl f).map g) (some p)).Finite ∧
    count p = (holders (fun f => (unl f).map g) (some p)).ncard

/-- A file that is removed while it is open lives until the last close. -/
structure Sound (s : State Dir File Cred) : Prop where
  named : ∀ news taken, .newname news taken ∈ s.log → Fits news ∧ taken = false
  remove : ∀ f n, .remove f n ∈ s.log → n = 0
  inactive : ∀ f n done, .inactive f n done ∈ s.log → n = 0 ∧ done = true
  once : ∀ f, s.log.count (.renamed f) = s.log.count (.inactive f 0 true) + if (s.unl f).isSome then 1 else 0
  kept : ∀ f u, s.unl f = some u → s.entry u.r_unldvp u.r_unlname = some f
  held : Booked s.unl Unl.r_unldvp s.held
  cr_ref : Booked s.unl Unl.r_unlcred s.cr_ref
  names : Booked s.unl (fun _ => ()) fun _ => s.names

/-! ### Books -/

section Books

variable {P : Type} [DecidableEq P] {unl : File → Option (Unl Dir Cred)} {g : Unl Dir Cred → P} {count : P → ℤ}

omit [DecidableEq Dir] [DecidableEq Cred] in
/-- A file gets a temporary name. -/
theorem Booked.take (h : Booked unl g count) (hf : unl f = none) (u : Unl Dir Cred) :
    Booked (update unl f (some u)) g (update count (g u) (count (g u) + 1)) := by
  intro p
  have hupd : (fun k => (update unl f (some u) k).map g) = update (fun k => (unl k).map g) f (some (g u)) :=
    funext fun k => by by_cases hk : k = f <;> simp [hk]
  rw [hupd]
  refine ⟨finite_holders_update (h p).1 f _, ?_⟩
  rw [ncard_holders_update (h p).1]
  by_cases hp : p = g u
  · subst hp
    simp [hf, (h (g u)).2]
  · simp [hf, hp, Ne.symm hp, (h p).2]

omit [DecidableEq Dir] [DecidableEq Cred] in
/-- A file loses its temporary name. -/
theorem Booked.drop (h : Booked unl g count) {u : Unl Dir Cred} (hf : unl f = some u) :
    Booked (update unl f none) g (update count (g u) (count (g u) - 1)) := by
  intro p
  have hupd : (fun k => (update unl f none k).map g) = update (fun k => (unl k).map g) f none :=
    funext fun k => by by_cases hk : k = f <;> simp [hk]
  rw [hupd]
  refine ⟨finite_holders_update (h p).1 f _, ?_⟩
  rw [ncard_holders_update (h p).1]
  by_cases hp : p = g u
  · subst hp
    have hpos := (Set.ncard_pos (h (g u)).1).2 ⟨f, by simp [holders, hf]⟩
    simp only [update_self, hf, map_some, if_true, (h (g u)).2]
    simp only [reduceCtorEq, if_false]
    omega
  · simp [hf, hp, Ne.symm hp, (h p).2]

end Books

/-! ### The invariant -/

/-- The event is one of a run without a failure. -/
def Event.Ok : Event Dir File → Prop
  | .newname news taken => Fits news ∧ taken = false
  | .renamed _ => True
  | .remove _ opens => opens = 0
  | .inactive _ opens done => opens = 0 ∧ done = true

/-- A file has references if it has an rnode, one for each time it is open. -/
structure Counted (s : State Dir File Cred) : Prop where
  made : ∀ f rp, s.rnode f = some rp → 0 < rp.v_count
  opens : ∀ f, s.opens f ≤ s.count f
  ropen : ∀ f, s.ropen f = true → s.opens f ≠ 0

structure Inv (writable : Dir → Cred → Bool) (s : State Dir File Cred) : Prop extends Counted s where
  kept : ∀ f u, s.unl f = some u →
    s.entry u.r_unldvp u.r_unlname = some f ∧ writable u.r_unldvp u.r_unlcred = true
  log : ∀ e ∈ s.log, e.Ok
  once : ∀ f, s.log.count (.renamed f) = s.log.count (.inactive f 0 true) + if (s.unl f).isSome then 1 else 0
  held : Booked s.unl Unl.r_unldvp s.held
  cr_ref : Booked s.unl Unl.r_unlcred s.cr_ref
  names : Booked s.unl (fun _ => ()) fun _ => s.names

omit [DecidableEq Cred] in
theorem Inv.sound (hs : Inv writable s) : Sound s where
  named _ _ h := hs.log _ h
  remove _ _ h := hs.log _ h
  inactive _ _ _ h := hs.log _ h
  once := hs.once
  kept f u h := (hs.kept f u h).1
  held := hs.held
  cr_ref := hs.cr_ref
  names := hs.names

omit [DecidableEq Dir] [DecidableEq Cred] in
theorem unl_update (f : File) (rp : Option (Rnode Dir Cred)) (h : s'.rnode = update s.rnode f rp) :
    s'.unl = update s.unl f (rp.bind Rnode.unl) := by
  funext k
  by_cases hk : k = f <;> simp [State.unl, h, hk]

omit [DecidableEq Dir] [DecidableEq Cred] in
theorem Counted.update (hs : Counted s) (f : File) (rp : Option (Rnode Dir Cred)) (n : ℕ)
    (hr : s'.rnode = update s.rnode f rp) (ho : s'.opens = update s.opens f n)
    (hmade : ∀ r, rp = some r → 0 < r.v_count) (hopens : n ≤ rp.elim 0 Rnode.v_count)
    (hropen : rp.elim false Rnode.ropen = true → n ≠ 0) : Counted s' := by
  refine ⟨fun k r h => ?_, fun k => ?_, fun k h => ?_⟩ <;> by_cases hk : k = f
  · exact hmade r (by simpa [hr, hk] using h)
  · exact hs.made k r (by simpa [hr, hk] using h)
  · simpa [State.count, hr, ho, hk] using hopens
  · simpa [State.count, hr, ho, hk] using hs.opens k
  · simpa [ho, hk] using hropen (by simpa [State.ropen, hr, hk] using h)
  · simpa [ho, hk] using hs.ropen k (by simpa [State.ropen, hr, hk] using h)

omit [DecidableEq Cred] in
/-- The rnode of a file changes, or is made, but not its temporary name. -/
theorem Inv.rnode (hs : Inv writable s) (f : File) (rp : Rnode Dir Cred) (n : ℕ)
    (hs' : s' = { s with rnode := update s.rnode f (some rp), opens := update s.opens f n })
    (hunl : rp.unl = s.unl f) (hmade : 0 < rp.v_count) (hopens : n ≤ rp.v_count) (hropen : rp.ropen = true → n ≠ 0) :
    Inv writable s' := by
  have hrnode : s'.rnode = update s.rnode f (some rp) := by rw [hs']
  have hsame : s'.unl = s.unl := by
    rw [unl_update f _ hrnode, bind_some, hunl, update_eq_self]
  have hcou : Counted s' := by
    refine hs.toCounted.update f (some rp) n hrnode (by rw [hs']) (fun r hr => ?_) hopens hropen
    exact some_inj.1 hr ▸ hmade
  subst hs'
  exact ⟨hcou, hsame ▸ hs.kept, hs.log, hsame ▸ hs.once, hsame ▸ hs.held, hsame ▸ hs.cr_ref, hsame ▸ hs.names⟩

/-! ### The calls -/

omit [DecidableEq Cred] in
theorem makenfsnode_inv (hs : Inv writable s) (f : File) :
    Inv writable (makenfsnode s f) ∧ (makenfsnode s f).count f = s.count f + 1 := by
  rw [makenfsnode]
  cases hr : s.rnode f with
  | none =>
    have hzero : s.opens f = 0 := by simpa [State.count, hr] using hs.opens f
    refine ⟨hs.rnode f ⟨1, false, none⟩ (s.opens f) (by simp) ?_ Nat.one_pos ?_ ?_, ?_⟩ <;>
      simp [State.unl, State.count, hr, hzero]
  | some rp =>
    have hle : s.opens f ≤ rp.v_count := by simpa [State.count, hr] using hs.opens f
    refine ⟨hs.rnode f { rp with v_count := rp.v_count + 1 } (s.opens f) (by simp) ?_ (succ_pos _)
      (le_succ_of_le hle) fun h => hs.ropen f ?_, ?_⟩
    · simp [State.unl, hr]
    · simpa [State.ropen, hr] using h
    · simp [State.count, hr]

omit [DecidableEq Cred] in
/-- An event that is no renaming and no removal of a renamed file. -/
theorem Inv.record (hs : Inv writable s) {e : Event Dir File} (hok : e.Ok) (hrena : ∀ k, e ≠ .renamed k)
    (hina : ∀ k, e ≠ .inactive k 0 true) : Inv writable (s.record e) where
  made := hs.made
  opens := hs.opens
  ropen := hs.ropen
  kept := hs.kept
  log := forall_mem_cons.2 ⟨hok, hs.log⟩
  once k := by
    simp only [State.record]
    rw [count_cons_of_ne (hrena k), count_cons_of_ne (hina k)]
    exact hs.once k
  held := hs.held
  cr_ref := hs.cr_ref
  names := hs.names

omit [DecidableEq Dir] [DecidableEq File] [DecidableEq Cred] in
/-- Files whose temporary names are kept have different ones. -/
theorem kept_injective {entry : Dir → Name → Option File} {unl : File → Option (Unl Dir Cred)}
    (hkept : ∀ f u, unl f = some u → entry u.r_unldvp u.r_unlname = some f) {k : File} {u v : Unl Dir Cred}
    (hu : unl f = some u) (hv : unl k = some v) (hk : k ≠ f) :
    ¬(v.r_unldvp = u.r_unldvp ∧ v.r_unlname = u.r_unlname) := by
  rintro ⟨hd, hn⟩
  have h := hkept k v hv
  rw [hd, hn, hkept f u hu] at h
  exact hk (some_inj.1 h).symm

variable {nm : Name} {usec : ℕ}

omit [DecidableEq File] [DecidableEq Cred] in
/-- An entry of another name is not touched. -/
theorem link_entry {d d' : Dir} {nm' : Name} {file : Option File} (h : ¬(d' = d ∧ nm' = nm)) :
    (s.link d nm file).entry d' nm' = s.entry d' nm' := by
  by_cases hd : d' = d
  · subst hd
    have hn : nm' ≠ nm := fun hn => h ⟨rfl, hn⟩
    simp [State.link, hn]
  · simp [State.link, hd]

omit [DecidableEq File] [DecidableEq Cred] in
@[simp] theorem link_entry_self {d : Dir} {file : Option File} :
    (s.link d nm file).entry d nm = file := by
  simp [State.link]

theorem update_unit (m n : ℤ) : update (fun _ : Unit => m) () n = fun _ => n :=
  update_eq_const_of_subsingleton () n _

omit [DecidableEq Dir] [DecidableEq Cred] in
theorem makenfsnode_rnode (s : State Dir File Cred) (f : File) : ∃ rp, (makenfsnode s f).rnode f = some rp ∧
    rp.ropen = s.ropen f ∧ rp.unl = s.unl f ∧ (makenfsnode s f).unl f = s.unl f ∧
      (makenfsnode s f).entry = s.entry ∧ (makenfsnode s f).opens = s.opens := by
  rw [makenfsnode]
  cases hr : s.rnode f <;> simp [State.ropen, State.unl, hr]

/-- A file that is not open loses its rnode, and is removed if it was renamed. -/
theorem nfsInactive_inv (hs : Inv writable s) {rp : Rnode Dir Cred} (hr : s.rnode f = some rp) (hopens : s.opens f = 0) :
    Inv writable (nfsInactive writable s f rp) := by
  have hunl : s.unl f = rp.unl := by simp [State.unl, hr]
  have hcou : ∀ t : State Dir File Cred, t.rnode = update s.rnode f none → t.opens = s.opens → Counted t := by
    intro t hrnode ho
    exact hs.toCounted.update f none 0 hrnode (by rw [ho, ← hopens, update_eq_self]) (by simp) le_rfl (by simp)
  cases hu : rp.unl with
  | none =>
    have heq : nfsInactive writable s f rp = { s with rnode := update s.rnode f none } := by simp [nfsInactive, hu]
    have hsame : (nfsInactive writable s f rp).unl = s.unl := by
      rw [unl_update (s := s) f none (by rw [heq]), bind_none, ← hu, ← hunl, update_eq_self]
    rw [heq] at hsame ⊢
    exact ⟨hcou _ rfl rfl, hsame ▸ hs.kept, hs.log, hsame ▸ hs.once, hsame ▸ hs.held, hsame ▸ hs.cr_ref,
      hsame ▸ hs.names⟩
  | some u =>
    rw [hu] at hunl
    obtain ⟨hent, hwri⟩ := hs.kept f u hunl
    -- The server still has the temporary name, and admits that it is removed.
    have heq : nfsInactive writable s f rp =
        (({ s with rnode := update s.rnode f none }.link u.r_unldvp u.r_unlname none).dropUnl u).record
          (.inactive f 0 true) := by
      simp [nfsInactive, hu, rfsRemove, hent, hwri, State.opensOf, hopens]
    have hdrop : (nfsInactive writable s f rp).unl = update s.unl f none :=
      unl_update f none (by rw [heq]; rfl)
    rw [heq] at hdrop ⊢
    refine ⟨hcou _ rfl rfl, ?_, forall_mem_cons.2 ⟨⟨rfl, rfl⟩, hs.log⟩, ?_, ?_, ?_, ?_⟩
    all_goals rw [hdrop]
    · intro k v hv
      have hk : k ≠ f := by
        rintro rfl
        simp at hv
      rw [update_of_ne hk] at hv
      have hoth := kept_injective (fun f u h => (hs.kept f u h).1) hunl hv hk
      exact ⟨(link_entry hoth).trans (hs.kept k v hv).1, (hs.kept k v hv).2⟩
    · intro k
      simp only [State.record]
      rw [count_cons_of_ne (by simp)]
      by_cases hk : k = f
      · subst hk
        rw [count_cons_self, update_self]
        have honce := hs.once k
        rw [hunl] at honce
        exact honce
      · rw [count_cons_of_ne (by simpa using Ne.symm hk), update_of_ne hk]
        exact hs.once k
    · exact hs.held.drop hunl
    · exact hs.cr_ref.drop hunl
    · exact update_unit _ _ ▸ hs.names.drop hunl

theorem vnRele_inv (hs : Inv writable s) (hfree : s.opens f < s.count f) :
    ∃ t, vnRele writable s f = some t ∧ Inv writable t := by
  rw [vnRele]
  cases hr : s.rnode f with
  | none => simp [State.count, hr] at hfree
  | some rp =>
    replace hfree : s.opens f < rp.v_count := by simpa [State.count, hr] using hfree
    have hzero : rp.v_count ≠ 0 := fun h => absurd (h ▸ hfree) (Nat.not_lt_zero _)
    simp only [if_neg hzero]
    split_ifs with hone
    · exact ⟨_, rfl, nfsInactive_inv hs hr (by omega)⟩
    · refine ⟨_, rfl, hs.rnode f { rp with v_count := rp.v_count - 1 } (s.opens f) (by simp) ?_ ?_ ?_ fun h => hs.ropen f ?_⟩
      · simp [State.unl, hr]
      · exact Nat.sub_pos_of_lt (by omega)
      · exact le_sub_one_of_lt hfree
      · simpa [State.ropen, hr] using h

omit [DecidableEq Cred] in
theorem nfsOpen_inv (hs : Inv writable s) (hfree : s.opens f < s.count f) (h : nfsOpen s f = some s') :
    Inv writable s' := by
  obtain ⟨rp, hr, rfl⟩ := map_eq_some_iff.1 h
  replace hfree : s.opens f < rp.v_count := by simpa [State.count, hr] using hfree
  exact hs.rnode f _ _ rfl (by simp [State.unl, hr]) (zero_lt_of_lt hfree) hfree fun _ => succ_ne_zero _

omit [DecidableEq Cred] in
theorem nfsClose_inv (hs : Inv writable s) (h : nfsClose s f = some s') : Inv writable s' := by
  obtain ⟨rp, hr, rfl⟩ := map_eq_some_iff.1 h
  have hle : s.opens f ≤ rp.v_count := by simpa [State.count, hr] using hs.opens f
  refine hs.rnode f _ _ rfl (by simp [State.unl, hr]) (hs.made f rp hr) (le_trans (sub_le _ 1) hle) fun h => ?_
  exact absurd h Bool.false_ne_true

omit [DecidableEq File] [DecidableEq Cred] in
theorem rfsRemove_eq (writable : Dir → Cred → Bool) (d : Dir) (nm : Name) (cred : Cred) :
    (∃ err, rfsRemove writable s d nm cred = (s, some err)) ∨
      writable d cred = true ∧ rfsRemove writable s d nm cred = (s.link d nm none, none) := by
  rw [rfsRemove]
  split
  · exact .inl ⟨_, rfl⟩
  · split_ifs with h
    · exact .inr ⟨h, rfl⟩
    · exact .inl ⟨_, rfl⟩

omit [DecidableEq File] [DecidableEq Cred] in
/-- A renaming fails and changes nothing, or it is admitted. -/
theorem nfsRename_eq {d : Dir} {onm : Name} (nnm : Name) (cred : Cred) (hf : s.entry d onm = some f) :
    (∃ err, nfsRename writable s d onm nnm cred = (s, some err)) ∨ writable d cred = true ∧
        nfsRename writable s d onm nnm cred = ((s.link d onm none).link d nnm (some f), none) := by
  rw [nfsRename]
  split_ifs
  · exact .inl ⟨_, rfl⟩
  · exact .inl ⟨_, rfl⟩
  · rw [rfsRename, hf]
    simp only
    split_ifs with h
    · exact .inr ⟨h, rfl⟩
    · exact .inl ⟨_, rfl⟩

/-- What `nfs_remove` does between taking a reference to the file and giving it back leaves references
    and the count of opens alone. -/
def SameRefs (s t : State Dir File Cred) : Prop := t.opens = s.opens ∧ ∀ k, t.count k = s.count k

/-- An open file gets a temporary name. -/
theorem takeUnl_inv (hs : Inv writable s) {d : Dir} {tmp : Name} {cred : Cred} {rp : Rnode Dir Cred}
    (hr : s.rnode f = some rp) (hf : s.entry d nm = some f) (hnone : s.unl f = none)
    (hfrs : s.entry d tmp = none) (hwri : writable d cred = true) :
    Inv writable ((((s.link d nm none).link d tmp (some f)).takeUnl f rp ⟨d, tmp, cred⟩).record (.renamed f)) := by
  set t := (((s.link d nm none).link d tmp (some f)).takeUnl f rp ⟨d, tmp, cred⟩).record (.renamed f)
  have htake : t.unl = update s.unl f (some ⟨d, tmp, cred⟩) :=
    unl_update f (some { rp with unl := some ⟨d, tmp, cred⟩ }) rfl
  refine ⟨?_, ?_, forall_mem_cons.2 ⟨trivial, hs.log⟩, ?_, ?_, ?_, ?_⟩
  · refine hs.toCounted.update f (some { rp with unl := some ⟨d, tmp, cred⟩ }) (s.opens f) rfl ?_ (fun r h => ?_) ?_
      fun h => hs.ropen f ?_
    · exact (update_eq_self f s.opens).symm
    · exact some_inj.1 h ▸ hs.made f rp hr
    · simpa [State.count, hr] using hs.opens f
    · simpa [State.ropen, hr] using h
  all_goals rw [htake]
  · intro k v hv
    by_cases hk : k = f
    · subst hk
      obtain rfl : (⟨d, tmp, cred⟩ : Unl Dir Cred) = v := by simpa using hv
      exact ⟨link_entry_self, hwri⟩
    · -- The two names that change are not among those that are kept.
      rw [update_of_ne hk] at hv
      obtain ⟨hent, hw⟩ := hs.kept k v hv
      refine ⟨(link_entry ?_).trans ((link_entry ?_).trans hent), hw⟩
      · rintro ⟨hd, hn⟩
        rw [hd, hn, hfrs] at hent
        cases hent
      · rintro ⟨hd, hn⟩
        rw [hd, hn, hf] at hent
        exact hk (some_inj.1 hent).symm
  · intro k
    have hcons : t.log = .renamed f :: s.log := rfl
    have hina : (Event.renamed f :: s.log).count (.inactive k 0 true) = s.log.count (.inactive k 0 true) :=
      count_cons_of_ne (by simp)
    rw [hcons, hina]
    by_cases hk : k = f
    · subst hk
      rw [count_cons_self, update_self, hs.once k, hnone]
      rfl
    · rw [count_cons_of_ne (by simpa using Ne.symm hk), update_of_ne hk]
      exact hs.once k
  · exact hs.held.take hnone _
  · exact hs.cr_ref.take hnone _
  · exact update_unit _ _ ▸ hs.names.take hnone _

theorem renameOpen_inv (hs : Inv writable s) {d : Dir} (cred : Cred) {rp : Rnode Dir Cred}
    (hr : s.rnode f = some rp) (hf : s.entry d nm = some f) (hnone : rp.unl = none)
    (hfits : Fits (newname nm usec)) (hfrs : s.entry d (newname nm usec) = none) :
    Inv writable (renameOpen writable s d nm cred usec f rp).1 ∧
      SameRefs s (renameOpen writable s d nm cred usec f rp).1 := by
  have hnamed : Inv writable (s.record (.newname (newname nm usec) false)) :=
    hs.record ⟨hfits, rfl⟩ (by simp) (by simp)
  rcases nfsRename_eq (s := s.record (.newname (newname nm usec) false)) (newname nm usec) cred hf with
    ⟨err, hren⟩ | ⟨hwri, hren⟩
  · simp only [renameOpen, hfrs, isSome_none]
    rw [hren]
    exact ⟨hnamed, rfl, fun _ => rfl⟩
  · simp only [renameOpen, hfrs, isSome_none]
    rw [hren]
    refine ⟨takeUnl_inv hnamed hr hf ?_ hfrs hwri, rfl, fun k => ?_⟩
    · exact (congrArg (·.bind Rnode.unl) hr).trans hnone
    · by_cases hk : k = f
      · subst hk
        simp [State.count, State.record, State.takeUnl, hr]
      · simp [State.count, State.record, State.takeUnl, State.link, hk]

omit [DecidableEq Cred] in
/-- A file that is not open loses a name that is not a temporary one of its. -/
theorem removeClosed_inv (hs : Inv writable s) {d : Dir} (cred : Cred) (hf : s.entry d nm = some f)
    (hopens : s.opens f = 0) (hoth : ∀ u, s.unl f = some u → ¬(u.r_unldvp = d ∧ u.r_unlname = nm)) :
    Inv writable (removeClosed writable s d nm cred f).1 ∧ SameRefs s (removeClosed writable s d nm cred f).1 := by
  have hasked : Inv writable (s.record (.remove f (s.opens f))) := hs.record hopens (by simp) (by simp)
  rw [removeClosed]
  rcases rfsRemove_eq (s := s.record (.remove f (s.opens f))) writable d nm cred with
    ⟨err, hrem⟩ | ⟨-, hrem⟩
  · rw [hrem]
    exact ⟨hasked, rfl, fun _ => rfl⟩
  · rw [hrem]
    refine ⟨⟨⟨hs.made, hs.opens, hs.ropen⟩, fun k v hv => ?_, hasked.log, hasked.once, hs.held, hs.cr_ref, hs.names⟩,
      rfl, fun _ => rfl⟩
    obtain ⟨hent, hw⟩ := hs.kept k v hv
    refine ⟨(link_entry ?_).trans hent, hw⟩
    rintro ⟨hd, hn⟩
    rw [hd, hn, hf] at hent
    cases hent
    exact hoth v hv ⟨hd, hn⟩

theorem nfsRemove_inv (hs : Inv writable s) {d : Dir} {cred : Cred}
    (hok : RemoveOk s d nm usec) : ∃ r, nfsRemove writable s d nm cred usec = some r ∧ Inv writable r.1 := by
  rw [nfsRemove, nfsLookup]
  cases hf : s.entry d nm with
  | none => exact ⟨_, rfl, hs⟩
  | some f =>
    obtain ⟨hopen, hoth, htmp⟩ := hok f hf
    obtain ⟨hinv, hcnt⟩ := makenfsnode_inv hs f
    obtain ⟨rp, hr, hropen, hunl, hsame, hent, hopens⟩ := makenfsnode_rnode s f
    -- The reference of the lookup is one more than those of the opens.
    have hrele : ∀ t : State Dir File Cred × Option Errno, Inv writable t.1 → SameRefs (makenfsnode s f) t.1 →
        ∃ r, (vnRele writable t.1 f).map (fun s => (s, t.2)) = some r ∧ Inv writable r.1 := by
      intro t ht href
      have hfree : t.1.opens f < t.1.count f := by
        rw [href.1, href.2, hcnt, hopens]
        exact lt_succ_of_le (hs.opens f)
      obtain ⟨t', ht', hinv'⟩ := vnRele_inv ht hfree
      exact ⟨_, by rw [ht']; rfl, hinv'⟩
    rw [← hent] at hf
    simp only [hr]
    split_ifs with hbra
    · rw [hropen, hunl] at hbra
      obtain ⟨hfits, hfrs⟩ := htmp hbra.1 hbra.2
      obtain ⟨ht, href⟩ := renameOpen_inv hinv cred hr hf (hunl.trans hbra.2) hfits (hent ▸ hfrs)
      exact hrele _ ht href
    · have hclo : (makenfsnode s f).opens f = 0 := by
        by_contra hne
        obtain ⟨h, h'⟩ := hopen (hopens ▸ hne)
        exact hbra ⟨hropen.trans h, hunl.trans h'⟩
      obtain ⟨ht, href⟩ := removeClosed_inv hinv cred hf hclo fun u hu => hoth u (hsame ▸ hu)
      exact hrele _ ht href

/-! ### Runs -/

omit [DecidableEq Cred] in
theorem inv_init (h : Init s) : Inv writable s := by
  obtain ⟨hnone, hheld, hcred, hnames, hlog⟩ := h
  have hunl : ∀ k, s.unl k = none := fun k => by simp [State.unl, (hnone k).1]
  have hboo : ∀ (P : Type) (g : Unl Dir Cred → P) (count : P → ℤ), (∀ p, count p = 0) → Booked s.unl g count := by
    intro P g count hzero p
    have hemp : holders (fun k => (s.unl k).map g) (some p) = ∅ :=
      Set.eq_empty_of_forall_notMem fun k hk => by simp [holders, hunl] at hk
    rw [hemp]
    simpa using hzero p
  refine ⟨⟨fun k rp hr => ?_, fun k => ?_, fun k hr => ?_⟩, fun k u hu => ?_, ?_, fun k => ?_, ?_, ?_, ?_⟩
  · simp [(hnone k).1] at hr
  · simp [(hnone k).2]
  · simp [State.ropen, (hnone k).1] at hr
  · simp [hunl] at hu
  · simp [hlog]
  · simp [hlog, hunl]
  · exact hboo _ _ _ hheld
  · exact hboo _ _ _ hcred
  · exact hboo _ _ _ fun _ => hnames

theorem Inv.step {a : Call Dir File Cred} (hs : Inv writable s) (hok : CallOk s a)
    (h : after writable s a = some s') : Inv writable s' := by
  cases a with
  | lookup d nm =>
    cases h
    rw [nfsLookup]
    split
    · exact (makenfsnode_inv hs _).1
    · exact hs
  | hold f =>
    obtain ⟨rp, hr, rfl⟩ := map_eq_some_iff.1 h
    have hle : s.opens f ≤ rp.v_count := by simpa [State.count, hr] using hs.opens f
    refine hs.rnode f { rp with v_count := rp.v_count + 1 } (s.opens f) (by simp) ?_ (succ_pos _)
      (le_succ_of_le hle) fun h => hs.ropen f ?_
    · simp [State.unl, hr]
    · simpa [State.ropen, hr] using h
  | rele f =>
    simp only [after] at h
    split_ifs at h with hfree
    obtain ⟨t, ht, hinv⟩ := vnRele_inv hs hfree
    exact some_inj.1 (ht.symm.trans h) ▸ hinv
  | «open» f =>
    simp only [after] at h
    split_ifs at h with hfree
    exact nfsOpen_inv hs hfree h
  | close f =>
    simp only [after] at h
    split_ifs at h
    exact nfsClose_inv hs h
  | remove d nm cred usec =>
    obtain ⟨r, hr, hinv⟩ : ∃ r, nfsRemove writable s d nm cred usec = some r ∧ Inv writable r.1 :=
      nfsRemove_inv hs hok
    have heq : (nfsRemove writable s d nm cred usec).map Prod.fst = some s' := h
    rw [hr] at heq
    exact some_inj.1 heq ▸ hinv

/-- A directory whose entries are all for the file `1`, and no vnodes. -/
def oneFile (nms : List Name) : State ℕ ℕ ℕ where
  entry d nm := if d = 0 ∧ nm ∈ nms then some 1 else none
  rnode _ := none
  opens _ := 0
  held _ := 0
  cr_ref _ := 0
  names := 0
  log := []

theorem init_oneFile (nms : List Name) : Init (oneFile nms) :=
  ⟨fun _ => ⟨rfl, rfl⟩, fun _ => rfl, fun _ => rfl, rfl, rfl⟩

/-- An open file after it was looked up under the name `a`. -/
def opened : State ℕ ℕ ℕ :=
  (([.lookup 0 [97], .open 1] : List (Call ℕ ℕ ℕ)).foldlM (after fun _ _ => true) (oneFile [[97]])).get (by decide)

/-- The file after it was removed. -/
def renamed : State ℕ ℕ ℕ := (after (fun _ _ => true) opened (.remove 0 [97] 0 1000)).get (by decide)

/-- The file after its only holder has closed it. -/
def released : State ℕ ℕ ℕ :=
  (([.close 1, .rele 1] : List (Call ℕ ℕ ℕ)).foldlM (after fun _ _ => true) renamed).get (by decide)

/-- If calls record an event that is not admitted, there are runs with a failure. -/
theorem not_sound_of_run (nms : List Name) (as : List (Call ℕ ℕ ℕ)) (e : Event ℕ ℕ) (he : ∀ s : State ℕ ℕ ℕ, Sound s → e ∉ s.log)
    (hrun : (as.foldlM (after fun _ _ => true) (oneFile nms)).any (fun s => e ∈ s.log) = true) :
    ¬∀ s : State ℕ ℕ ℕ, (system fun _ _ => true).Reachable s → Sound s := by
  intro h
  obtain ⟨s, hs, hin⟩ := (Option.any_eq_true _ _).1 hrun
  have hrch : (system fun _ _ => true).Reachable s := System.Reachable.foldlM (.init (init_oneFile nms)) hs
  exact he s (h s hrch) (of_decide_eq_true hin)

/-- The name of a file has 251 bytes. -/
theorem name_overflow : ¬∀ s : State ℕ ℕ ℕ, (system fun _ _ => true).Reachable s → Sound s :=
  not_sound_of_run [.replicate 251 97] [.lookup 0 (.replicate 251 97), .open 1, .remove 0 (.replicate 251 97) 0 0]
    (.newname (newname (.replicate 251 97) 0) false) (fun _ hs h => absurd (hs.named _ _ h).1 (by decide +kernel))
    (by decide +kernel)

/-- The file has another name already, as the clock was at the same microsecond. -/
theorem name_taken : ¬∀ s : State ℕ ℕ ℕ, (system fun _ _ => true).Reachable s → Sound s :=
  not_sound_of_run [[97], newname [97] 1000] [.lookup 0 [97], .open 1, .remove 0 [97] 0 1000]
    (.newname (newname [97] 1000) true) (fun _ hs h => absurd (hs.named _ _ h).2 (by decide)) (by decide +kernel)

end Uwisc.Nfs.Remove
