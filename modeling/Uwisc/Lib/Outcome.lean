import Mathlib.Tactic.SplitIfs

/-!
# Outcomes of computations that may fail

What a computation ends with: a result with the postcondition `Q`, or an error
that is admitted (`Ends`). The rule for two computations in a row (`Ends.bind`)
is that of a sequence in a logic of programs.
-/

namespace Uwisc.Lib

universe u v

variable {ε : Type u} {α β : Type v}

/-- The computation ends with a result in `Q` or with an error in `E`. -/
def Ends (E : ε → Prop) (Q : α → Prop) : Except ε α → Prop
  | .ok a => Q a
  | .error e => E e

@[simp] theorem ends_ok {E : ε → Prop} {Q : α → Prop} {a : α} : Ends E Q (.ok a) ↔ Q a := Iff.rfl

@[simp] theorem ends_error {E : ε → Prop} {Q : α → Prop} {e : ε} : Ends E Q (.error e) ↔ E e := Iff.rfl

theorem Ends.mono {E : ε → Prop} {P Q : α → Prop} {x : Except ε α} (hx : Ends E P x) (hPQ : ∀ a, P a → Q a) :
    Ends E Q x := by
  cases x with
  | ok a => exact hPQ a hx
  | error e => exact hx

/-- What a result says of itself may be used of it. -/
theorem Ends.and_eq {E : ε → Prop} {Q : α → Prop} {x : Except ε α} (hx : Ends E Q x) :
    Ends E (fun a => Q a ∧ x = .ok a) x := by
  cases x with
  | ok a => exact ⟨hx, rfl⟩
  | error e => exact hx

theorem Ends.result {E : ε → Prop} {Q : α → Prop} {x : Except ε α} (hx : Ends E Q x) {a : α} (h : x = .ok a) : Q a := by
  rw [h] at hx
  exact hx

theorem Ends.error {E : ε → Prop} {Q : α → Prop} {x : Except ε α} (hx : Ends E Q x) {e : ε} (h : x = .error e) :
    E e := by
  rw [h] at hx
  exact hx

/-- One computation after another. -/
theorem Ends.bind {E : ε → Prop} {P : α → Prop} {Q : β → Prop} {x : Except ε α}
    {f : α → Except ε β} (hx : Ends E P x) (hf : ∀ a, P a → Ends E Q (f a)) : Ends E Q (x >>= f) := by
  cases x with
  | ok a => exact hf a hx
  | error e => exact hx

theorem Ends.ite {E : ε → Prop} {Q : α → Prop} {p : Prop} [Decidable p] {x y : Except ε α} (hx : p → Ends E Q x)
    (hy : ¬p → Ends E Q y) : Ends E Q (if p then x else y) := by
  split_ifs with h
  · exact hx h
  · exact hy h

/-- A computation succeeds if its first part does and the rest does with what this gives. -/
theorem bind_eq_ok {x : Except ε α} {f : α → Except ε β} {r : β} :
    (x >>= f) = .ok r ↔ ∃ a, x = .ok a ∧ f a = .ok r := by
  cases x with
  | error e => simp [Bind.bind, Except.bind]
  | ok a => simp [Bind.bind, Except.bind]

end Uwisc.Lib
