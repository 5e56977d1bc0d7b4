import Mathlib.Data.List.ReduceOption
import Mathlib.Data.Set.Card

/-!
# Counting the holders of a pointer

A family `f` of pointers, one for each holder. When a holder changes its pointer,
the number of holders of its old one goes down by one, and that of its new one
up (`ncard_holders_update`).

Where a holder has a list of pointers, or a table has entries with a pointer or none, what is held is
a list, and a change of one holder or entry changes it by what that held before and holds
then (`flatMap_range_perm`, `reduceOption_set_perm`).
-/

namespace Uwisc.Lib

open Function

variable {H P : Type*} [DecidableEq H] [DecidableEq P]

omit [DecidableEq H] [DecidableEq P] in
/-- The holders whose pointer is `p`. -/
def holders (f : H → P) (p : P) : Set H := {h | f h = p}

theorem holders_update (f : H → P) (h : H) (q p : P) :
    holders (update f h q) p = if q = p then insert h (holders f p) else holders f p \ {h} := by
  ext k
  by_cases hk : k = h
  · subst hk
    split_ifs with hq <;> simp [holders, hq]
  · split_ifs <;> simp [holders, hk]

theorem finite_holders_update {f : H → P} {p : P} (hfin : (holders f p).Finite) (h : H) (q : P) :
    (holders (update f h q) p).Finite := by
  rw [holders_update]
  split_ifs
  · exact hfin.insert h
  · exact hfin.sdiff

theorem ncard_holders_update {f : H → P} {p : P} (hfin : (holders f p).Finite) (h : H) (q : P) :
    (holders (update f h q) p).ncard =
      (holders f p).ncard - (if f h = p then 1 else 0) + if q = p then 1 else 0 := by
  rw [holders_update]
  by_cases hold : f h = p
  · have hmem : h ∈ holders f p := hold
    have hpos := (Set.ncard_pos hfin).2 ⟨h, hmem⟩
    split_ifs with hq
    · rw [Set.insert_eq_of_mem hmem]
      omega
    · rw [Set.ncard_sdiff_singleton_of_mem hmem, add_zero]
  · have hmem : h ∉ holders f p := hold
    split_ifs with hq
    · rw [Set.ncard_insert_of_notMem hmem hfin, Nat.sub_zero]
    · rw [Set.sdiff_singleton_eq_self hmem]
      rfl

/-! ### Lists -/

section Lists

open List

variable {α : Type*}

theorem swap_perm (a b r : List α) : a ++ r ++ b ~ b ++ r ++ a := by
  rw [append_assoc, append_assoc]
  exact perm_append_comm.trans ((perm_append_comm.append_right a).trans (.of_eq (append_assoc ..)))

/-- One of the lists is another one. -/
theorem flatMap_range_perm (f f' : ℕ → List α) {i n : ℕ} (hi : i < n) (hne : ∀ j, j ≠ i → f' j = f j) :
    (range n).flatMap f' ++ f i ~ (range n).flatMap f ++ f' i := by
  have hspl (g : ℕ → List α) : (range n).flatMap g ~ g i ++ ((range n).erase i).flatMap g :=
    ((perm_cons_erase (mem_range.2 hi)).flatMap_right g).trans (.of_eq flatMap_cons)
  have hrs : ((range n).erase i).flatMap f' = ((range n).erase i).flatMap f := by
    refine flatMap_congr fun j hj => hne j ?_
    rintro rfl
    exact nodup_range.not_mem_erase hj
  calc (range n).flatMap f' ++ f i
    _ ~ f' i ++ ((range n).erase i).flatMap f ++ f i := by
      rw [← hrs]
      exact (hspl f').append_right _
    _ ~ f i ++ ((range n).erase i).flatMap f ++ f' i := swap_perm ..
    _ ~ (range n).flatMap f ++ f' i := (hspl f).symm.append_right _

theorem reduceOption_cons_eq (o : Option α) (l : List (Option α)) :
    (o :: l).reduceOption = o.toList ++ l.reduceOption := by
  cases o with
  | none => exact reduceOption_cons_of_none l
  | some x => exact reduceOption_cons_of_some x l

/-- One of the entries is another one. -/
theorem reduceOption_set_perm {l : List (Option α)} {i : ℕ} {o : Option α} (h : l[i]? = some o) (o' : Option α) :
    (l.set i o').reduceOption ++ o.toList ~ l.reduceOption ++ o'.toList := by
  obtain ⟨hi, rfl⟩ := List.getElem?_eq_some_iff.1 h
  have hset : (l.set i o').reduceOption ~ o'.toList ++ (l.eraseIdx i).reduceOption :=
    ((set_perm_cons_eraseIdx hi o').filterMap id).trans (.of_eq (reduceOption_cons_eq ..))
  have hget : l.reduceOption ~ l[i].toList ++ (l.eraseIdx i).reduceOption :=
    ((getElem_cons_eraseIdx_perm hi).symm.filterMap id).trans (.of_eq (reduceOption_cons_eq ..))
  calc (l.set i o').reduceOption ++ l[i].toList
    _ ~ o'.toList ++ (l.eraseIdx i).reduceOption ++ l[i].toList := hset.append_right _
    _ ~ l[i].toList ++ (l.eraseIdx i).reduceOption ++ o'.toList := swap_perm ..
    _ ~ l.reduceOption ++ o'.toList := hget.symm.append_right _

end Lists

end Uwisc.Lib
