import Mathlib.Data.Set.Finite.Basic

/-!
# Walks

A walk along a relation, in a finite set that it does not leave: it comes to an end from every place if there is no
cycle (`acc_of_acyclic`), and on a cycle it always goes on, along the cycle (`cycle_next`).
-/

namespace Uwisc.Lib

open Relation

variable {α : Type*} {r : α → α → Prop} {a : α} {s : Set α}

/-- Where there is no cycle, all walks end. -/
theorem acc_of_acyclic (hs : s.Finite) (hclo : ∀ a ∈ s, ∀ b, r a b → b ∈ s)
    (hacy : ∀ a ∈ s, ¬TransGen r a a) (ha : a ∈ s) : Acc (fun b a => r a b) a := by
  let before : s → s → Prop := fun y x => TransGen r x.1 y.1
  have hfin : Finite s := hs
  have htrans : IsTrans s before := ⟨fun _ _ _ hxy hyz => hyz.trans hxy⟩
  have hirr : Std.Irrefl before := ⟨fun x => hacy x.1 x.2⟩
  have hwf : WellFounded before := Finite.wellFounded_of_trans_of_irrefl before
  have hall (x : s) : Acc (fun b a => r a b) x.1 := by
    induction x using hwf.induction with
    | _ x ih => exact ⟨x.1, fun b hb => ih ⟨b, hclo x.1 x.2 b hb⟩ (.single hb)⟩
  exact hall ⟨a, ha⟩

/-- A cycle goes on with a cycle. -/
theorem cycle_next (h : TransGen r a a) : ∃ b, r a b ∧ TransGen r b b := by
  obtain ⟨b, hab, hba⟩ := TransGen.head'_iff.1 h
  exact ⟨b, hab, .tail' hba hab⟩

end Uwisc.Lib
