import Mathlib.Data.List.Basic
import Mathlib.Data.Nat.Basic
import Mathlib.Order.Basic

/-!
# Chains of records

Records that follow one another: each one starts where the one before it ends. `Chain len
ok a b l` says that the records at `l`, all of which are `ok`, lead from `a` to
`b`.

* `chain_append`: a chain splits between any two of its records;
* `Chain.congr`: a chain depends on its own records only;
* `Chain.unique`: there is at most one chain from `a` to `b`.
-/

namespace Uwisc.Lib

variable {len len' : ℕ → ℕ} {ok ok' : ℕ → Prop} {a b c o : ℕ} {l l' : List ℕ}

/-- The records at `l` lead from the first number to the second. -/
inductive Chain (len : ℕ → ℕ) (ok : ℕ → Prop) : ℕ → ℕ → List ℕ → Prop
  | nil (a : ℕ) : Chain len ok a a []
  | cons {a b : ℕ} {l : List ℕ} : ok a → Chain len ok (a + len a) b l → Chain len ok a b (a :: l)

theorem chain_nil : Chain len ok a b [] ↔ a = b := ⟨fun h => by cases h; rfl, fun h => h ▸ .nil a⟩

theorem chain_cons : Chain len ok a b (o :: l) ↔ o = a ∧ ok a ∧ Chain len ok (a + len a) b l :=
  ⟨fun h => by cases h with | cons hok h => exact ⟨rfl, hok, h⟩, fun ⟨ho, hok, h⟩ => by
    subst ho
    exact .cons hok h⟩

theorem chain_append : Chain len ok a c (l ++ l') ↔ ∃ b, Chain len ok a b l ∧ Chain len ok b c l' := by
  induction l generalizing a with
  | nil => simp [chain_nil]
  | cons o l ih =>
    simp only [List.cons_append, chain_cons, ih]
    exact ⟨fun ⟨ho, hok, b, h, h'⟩ => ⟨b, ⟨ho, hok, h⟩, h'⟩, fun ⟨b, ⟨ho, hok, h⟩, h'⟩ =>
      ⟨ho, hok, b, h, h'⟩⟩

/-- A record of its own. -/
theorem Chain.single (h : ok a) : Chain len ok a (a + len a) [a] := .cons h (.nil _)

section

variable (h : Chain len ok a b l)

include h

theorem Chain.append (h' : Chain len ok b c l') : Chain len ok a c (l ++ l') :=
  chain_append.2 ⟨b, h, h'⟩

/-- What comes before a record of a chain, and after it. -/
theorem Chain.split (ho : o ∈ l) : ∃ u v, l = u ++ o :: v ∧
    Chain len ok a o u ∧ ok o ∧ Chain len ok (o + len o) b v := by
  obtain ⟨u, v, rfl⟩ := List.append_of_mem ho
  obtain ⟨x, hu, hv⟩ := chain_append.1 h
  obtain ⟨rfl, hok, hv⟩ := chain_cons.1 hv
  exact ⟨u, v, rfl, hu, hok, hv⟩

theorem Chain.le : a ≤ b := by
  induction h with
  | nil => exact le_rfl
  | cons _ _ ih => omega

theorem Chain.bounds (ho : o ∈ l) : a ≤ o ∧ o + len o ≤ b := by
  obtain ⟨u, v, -, hu, -, hv⟩ := h.split ho
  exact ⟨hu.le, hv.le⟩

theorem Chain.ok_of_mem (ho : o ∈ l) : ok o := by
  obtain ⟨-, -, -, -, hok, -⟩ := h.split ho
  exact hok

/-- A chain depends on its own records only. -/
theorem Chain.congr (hlen : ∀ o ∈ l, len' o = len o)
    (hok : ∀ o ∈ l, ok o → ok' o) : Chain len' ok' a b l := by
  induction h with
  | nil => exact .nil _
  | cons ho h ih =>
    obtain ⟨hl, hlen⟩ := List.forall_mem_cons.1 hlen
    obtain ⟨ho', hok⟩ := List.forall_mem_cons.1 hok
    exact .cons (ho' ho) (hl ▸ ih hlen hok)

end

variable (hpos : ∀ a, ok a → 0 < len a)

include hpos

/-- Records have a length. -/
theorem Chain.lt_of_mem (h : Chain len ok a b l) (ho : o ∈ l) : o < b := by
  have := h.bounds ho
  have := hpos o (h.ok_of_mem ho)
  omega

theorem Chain.unique (h : Chain len ok a b l) (h' : Chain len ok a b l') : l = l' := by
  induction h generalizing l' with
  | nil =>
    cases h' with
    | nil => rfl
    | cons hok h' =>
      have := h'.le
      have := hpos _ hok
      omega
  | cons hok h ih =>
    cases h' with
    | nil =>
      have := h.le
      have := hpos _ hok
      omega
    | cons _ h' => rw [ih h']

end Uwisc.Lib
