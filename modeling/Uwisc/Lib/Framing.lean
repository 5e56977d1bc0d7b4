import Mathlib.Data.List.Basic

/-!
# Records in fragments

A record may be cut into fragments, each after a header that has its length and whether it is the
last of the record.

* `Fragments`: a record that is complete;
* `Unfinished`: the fragments of a record before the last;
* `Records`: one record after the other.
-/

namespace Uwisc.Lib

open List

variable {α : Type*} {header : Bool → ℕ → List α} {bound : ℕ} {w w' p q : List α}
  {rs : List (List α)}

/-- A record and the fragments it is cut into, each shorter than the bound. -/
inductive Fragments (header : Bool → ℕ → List α) (bound : ℕ) : List α → List α → Prop
  | last (p : List α) : p.length < bound → Fragments header bound (header true p.length ++ p) p
  | more (p : List α) {w q : List α} : p.length < bound → Fragments header bound w q →
      Fragments header bound (header false p.length ++ p ++ w) (p ++ q)

/-- The beginning of a record and the fragments it is cut into. -/
inductive Unfinished (header : Bool → ℕ → List α) (bound : ℕ) : List α → List α → Prop
  | nil : Unfinished header bound [] []
  | more (p : List α) {w q : List α} : p.length < bound → Unfinished header bound w q →
      Unfinished header bound (header false p.length ++ p ++ w) (p ++ q)

/-- Some records, one after the other. -/
inductive Records (header : Bool → ℕ → List α) (bound : ℕ) : List α → List (List α) → Prop
  | nil : Records header bound [] []
  | cons {w w' q : List α} {rs : List (List α)} : Fragments header bound w q →
      Records header bound w' rs → Records header bound (w ++ w') (q :: rs)

/-- The last fragment. -/
theorem Unfinished.close (h : Unfinished header bound w q) (hp : p.length < bound) :
    Fragments header bound (w ++ (header true p.length ++ p)) (q ++ p) := by
  induction h with
  | nil => exact .last p hp
  | more p' hp' _ ih =>
    rw [append_assoc, append_assoc p']
    exact .more p' hp' ih

/-- Another fragment. -/
theorem Unfinished.snoc (h : Unfinished header bound w q) (hp : p.length < bound) :
    Unfinished header bound (w ++ (header false p.length ++ p)) (q ++ p) := by
  induction h with
  | nil =>
    have hmore : Unfinished header bound (header false p.length ++ p ++ []) (p ++ []) :=
      .more p hp .nil
    rwa [append_nil, append_nil] at hmore
  | more p' hp' _ ih =>
    rw [append_assoc, append_assoc p']
    exact .more p' hp' ih

/-- Another record. -/
theorem Records.snoc (h : Records header bound w rs) (hq : Fragments header bound w' q) :
    Records header bound (w ++ w') (rs ++ [q]) := by
  induction h with
  | nil =>
    have hcons := Records.cons hq .nil
    rwa [append_nil] at hcons
  | cons hfst _ ih =>
    rw [append_assoc]
    exact .cons hfst ih

end Uwisc.Lib
