import Mathlib.Data.List.Nodup

/-!
# Lists linked through an array

The links of a list are the entries `next` of an array: a path goes from one index to another along them
(`Path`), and a ring is a path from its head back to it with a path the other way round (`Ring`).

* `Path.unlink`, `Path.insert`: what one store makes of a path;
* `Path.seek_eq_some`, `Path.seek_eq_none`: what a search along the path finds;
* `Ring.unlink`, `Ring.pushFront`, `Ring.pushBack`: what the stores to both directions make of a ring.
-/

namespace Uwisc.Lib

open Function List

/-- What a list with no duplicates has beside one of its members. -/
theorem mem_append_iff_of_nodup {α : Type*} {u v : List α} {c d : α} (h : (u ++ c :: v).Nodup) :
    d ∈ u ++ v ↔ d ∈ u ++ c :: v ∧ d ≠ c := by
  obtain ⟨-, hrgt, hdisj⟩ := nodup_append.1 h
  rw [mem_append, mem_append, mem_cons]
  refine ⟨?_, fun ⟨hd, hne⟩ => hd.imp_right fun hd => hd.resolve_left hne⟩
  rintro (hu | hv)
  · exact ⟨Or.inl hu, hdisj d hu c mem_cons_self⟩
  · refine ⟨Or.inr (Or.inr hv), ?_⟩
    rintro rfl
    exact (nodup_cons.1 hrgt).1 hv

section Path

variable {next next' : ℕ → ℕ} {a b c p z : ℕ} {l l' u v : List ℕ}

/-- The links lead from `a` to `z` through the indexes of the list. -/
def Path (next : ℕ → ℕ) : ℕ → ℕ → List ℕ → Prop
  | a, z, [] => a = z
  | a, z, c :: l => a = c ∧ Path next (next c) z l

theorem path_cons : Path next a z (c :: l) ↔ a = c ∧ Path next (next c) z l := Iff.rfl

theorem path_append : Path next a z (l ++ l') ↔ ∃ b, Path next a b l ∧ Path next b z l' := by
  induction l generalizing a with
  | nil => exact ⟨fun h => ⟨a, rfl, h⟩, fun ⟨b, hab, h⟩ => hab ▸ h⟩
  | cons c l ih =>
    rw [cons_append, path_cons, ih]
    exact ⟨fun ⟨hac, b, h, h'⟩ => ⟨b, ⟨hac, h⟩, h'⟩, fun ⟨b, ⟨hac, h⟩, h'⟩ => ⟨hac, b, h, h'⟩⟩

theorem Path.congr (h : Path next a z l) (hnx : ∀ c ∈ l, next' c = next c) : Path next' a z l := by
  induction l generalizing a with
  | nil => exact h
  | cons c l ih =>
    refine ⟨h.1, ?_⟩
    rw [hnx c mem_cons_self]
    exact ih h.2 fun d hd => hnx d (mem_cons_of_mem _ hd)

/-- A store to an index that is not on the path leaves it as it is. -/
theorem Path.update (h : Path next a z l) (hp : p ∉ l) (x : ℕ) : Path (update next p x) a z l :=
  h.congr fun _ hc => update_of_ne (ne_of_mem_of_not_mem hc hp) _ _

/-- The path from where it leads to is the only one, if it does not come back there. -/
theorem Path.unique (h : Path next a z l) (h' : Path next a z l') (hl : z ∉ l) (hl' : z ∉ l') : l = l' := by
  induction l generalizing a l' with
  | nil =>
    cases l' with
    | nil => rfl
    | cons c l' => exact absurd (mem_cons.2 (Or.inl (h.symm.trans h'.1))) hl'
  | cons c l ih =>
    cases l' with
    | nil => exact absurd (mem_cons.2 (Or.inl (h'.symm.trans h.1))) hl
    | cons c' l' =>
      obtain ⟨rfl, h⟩ := h
      obtain ⟨rfl, h'⟩ := h'
      rw [ih h h' (fun hz => hl (mem_cons_of_mem _ hz)) fun hz => hl' (mem_cons_of_mem _ hz)]

/-- The first index of a path that is not empty. -/
theorem Path.head (h : Path next a z (c :: l)) : a = c := h.1

/-- What follows an index of the path. -/
theorem Path.next_eq (h : Path next a z (u ++ p :: c :: v)) : next p = c := by
  obtain ⟨b, -, h⟩ := path_append.1 h
  exact h.2.1

/-- What follows the last index of the path. -/
theorem Path.next_last (h : Path next a z (u ++ [p])) : next p = z := by
  obtain ⟨b, -, h⟩ := path_append.1 h
  exact h.2

/-- The index after `p` is taken out. -/
theorem Path.unlink (h : Path next a z (u ++ p :: c :: v)) (hu : p ∉ u) (hv : p ∉ v) :
    Path (Function.update next p (next c)) a z (u ++ p :: v) := by
  obtain ⟨b, hab, hb, -, h⟩ := path_append.1 h
  refine path_append.2 ⟨b, hab.update hu _, hb, ?_⟩
  rw [update_self]
  exact h.update hv _

/-- An index is put in after `p`. -/
theorem Path.insert (h : Path next a z (u ++ p :: v)) (hu : p ∉ u) (hv : p ∉ v) (hcp : c ≠ p) (hcu : c ∉ u)
    (hcv : c ∉ v) : Path (Function.update (Function.update next c (next p)) p c) a z (u ++ p :: c :: v) := by
  obtain ⟨b, hab, hb, h⟩ := path_append.1 h
  refine path_append.2 ⟨b, (hab.update hcu _).update hu _, hb, ?_⟩
  rw [update_self]
  refine ⟨rfl, ?_⟩
  rw [update_of_ne hcp, update_self]
  exact (h.update hcv _).update hv _

/-- The search of a path for the first index for which `hit` holds, with the one before it. It takes as many
    steps at most as there is `fuel`. -/
def seek (next : ℕ → ℕ) (stop : ℕ) (hit : ℕ → Bool) : ℕ → Option ℕ → ℕ → Option (Option ℕ × ℕ)
  | 0, _, _ => none
  | fuel + 1, before, c =>
    if c = stop then none else if hit c then some (before, c) else seek next stop hit fuel (some c) (next c)

variable {fuel : ℕ} {before : Option ℕ} {r : Option ℕ × ℕ} {hit : ℕ → Bool}

/-- What is found is hit. -/
theorem seek_hit (h : seek next z hit fuel before a = some r) : hit r.2 = true := by
  induction fuel generalizing a before with
  | zero => cases h
  | succ fuel ih =>
    rw [seek] at h
    split_ifs at h with hstop hhit
    · cases h
      exact hhit
    · exact ih h

/-- What is found is on the path, and nothing before it is hit. -/
theorem Path.seek_eq_some
    (h : Path next a z l) (hz : z ∉ l) (hr : seek next z hit fuel before a = some r) :
    hit r.2 = true ∧ ∃ u v, l = u ++ r.2 :: v ∧ r.1 = u.getLast?.or before := by
  induction fuel generalizing a before l with
  | zero => cases hr
  | succ fuel ih =>
    rw [seek] at hr
    split_ifs at hr with hstop hhit
    · cases hr
      cases l with
      | nil => exact absurd h hstop
      | cons c l => exact ⟨hhit, [], l, by rw [h.1]; rfl, rfl⟩
    · cases l with
      | nil => exact absurd h hstop
      | cons c l =>
        obtain ⟨rfl, h⟩ := h
        obtain ⟨hhit', u, v, rfl, hbef⟩ := ih h (fun hmem => hz (mem_cons_of_mem _ hmem)) hr
        refine ⟨hhit', a :: u, v, rfl, ?_⟩
        rw [hbef, getLast?_cons]
        cases u.getLast? <;> rfl

/-- What is not found is not there. -/
theorem Path.seek_eq_none (h : Path next a z l) (hz : z ∉ l)
    (hfuel : l.length < fuel) (hr : seek next z hit fuel before a = none) : ∀ c ∈ l, hit c = false := by
  induction fuel generalizing a before l with
  | zero => exact absurd hfuel (Nat.not_lt_zero _)
  | succ fuel ih =>
    cases l with
    | nil => exact fun c hc => absurd hc not_mem_nil
    | cons c l =>
      obtain ⟨rfl, h⟩ := h
      obtain ⟨hne, hz⟩ := not_or.1 (mt mem_cons.2 hz)
      rw [seek, if_neg (Ne.symm hne)] at hr
      split_ifs at hr with hhit
      intro d hd
      rcases mem_cons.1 hd with rfl | hd
      · exact Bool.eq_false_iff.2 hhit
      · exact ih h hz (Nat.lt_of_succ_lt_succ hfuel) hr d hd

end Path

section Ring

variable {next prev : ℕ → ℕ} {head c : ℕ} {l u v : List ℕ}

/-- The links lead from the head through the list and back, in both directions. -/
structure Ring (next prev : ℕ → ℕ) (head : ℕ) (l : List ℕ) : Prop where
  nodup : (head :: l).Nodup
  next_path : Path next head head (head :: l)
  prev_path : Path prev head head (head :: l.reverse)

theorem mem_cons_reverse : c ∈ head :: l.reverse ↔ c ∈ head :: l := by
  rw [mem_cons, mem_cons, mem_reverse]

namespace Ring

theorem reverse (h : Ring next prev head l) : Ring prev next head l.reverse where
  nodup := nodup_cons.2 ⟨fun hmem => (nodup_cons.1 h.nodup).1 (mem_reverse.1 hmem),
    nodup_reverse.2 (nodup_cons.1 h.nodup).2⟩
  next_path := h.prev_path
  prev_path := by
    rw [reverse_reverse]
    exact h.next_path

theorem head_notMem (h : Ring next prev head l) : head ∉ l := (nodup_cons.1 h.nodup).1

theorem next_head (h : Ring next prev head (c :: l)) : next head = c := h.next_path.2.1

theorem prev_first (h : Ring next prev head (c :: l)) : prev c = head := by
  have hpath := h.prev_path
  rw [reverse_cons, ← cons_append] at hpath
  exact hpath.next_last

/-- The ring is empty if and only if the head leads to itself. -/
theorem eq_nil_iff (h : Ring next prev head l) : l = [] ↔ next head = head := by
  refine ⟨fun hl => ?_, fun heq => ?_⟩
  · subst hl
    exact h.next_path.2
  · cases l with
    | nil => rfl
    | cons c l => exact absurd (mem_cons.2 (Or.inl (heq.symm.trans h.next_head))) h.head_notMem

/-- In one direction: what comes before the index leads to what comes after it. -/
theorem unlink_path (h : Ring next prev head (u ++ c :: v)) :
    Path (update next (prev c) (next c)) head head (head :: (u ++ v)) := by
  have hnd := h.nodup
  have hnx := h.next_path
  have hprev := h.prev_path
  rw [reverse_append, reverse_cons, append_assoc, singleton_append, ← cons_append] at hprev
  rcases u.eq_nil_or_concat with rfl | ⟨w, p, rfl⟩
  · have hp : prev c = head := hprev.next_last
    rw [hp]
    have hv : head ∉ v := fun hmem => h.head_notMem (mem_cons_of_mem _ hmem)
    exact Path.unlink (u := []) hnx not_mem_nil hv
  · rw [concat_eq_append] at *
    rw [reverse_append, reverse_singleton, singleton_append] at hprev
    have hp : prev c = p := hprev.next_eq
    rw [append_assoc, singleton_append, ← cons_append] at hnx hnd ⊢
    rw [hp]
    obtain ⟨-, hrgt, hdisj⟩ := nodup_append.1 hnd
    refine hnx.unlink (fun hmem => hdisj _ hmem _ mem_cons_self rfl) fun hmem => ?_
    exact (nodup_cons.1 hrgt).1 (mem_cons_of_mem _ hmem)

theorem unlink (h : Ring next prev head (u ++ c :: v)) :
    Ring (update next (prev c) (next c)) (update prev (next c) (prev c)) head (u ++ v) where
  nodup := h.nodup.sublist (List.Sublist.cons_cons _ (List.Sublist.append_left (sublist_cons_self c v) u))
  next_path := h.unlink_path
  prev_path := by
    have hrev := h.reverse
    rw [reverse_append, reverse_cons, append_assoc, singleton_append] at hrev
    rw [reverse_append]
    exact hrev.unlink_path

/-- An index is put in after the head. -/
theorem pushFront (h : Ring next prev head l) (hc : c ∉ head :: l) :
    Ring (update (update next c (next head)) head c)
      (update (update prev (next head) c) c head) head (c :: l) := by
  obtain ⟨hne, hcl⟩ := not_or.1 (mt mem_cons.2 hc)
  have hc' := mt mem_cons_reverse.1 hc
  refine ⟨?_, ?_, ?_⟩
  · exact nodup_cons.2 ⟨fun hmem => (mem_cons.1 hmem).elim (Ne.symm hne) h.head_notMem,
      nodup_cons.2 ⟨hcl, (nodup_cons.1 h.nodup).2⟩⟩
  · exact Path.insert (u := []) h.next_path not_mem_nil h.head_notMem hne not_mem_nil hcl
  · -- the other way round, the index is put in after the last one
    obtain ⟨w, hw⟩ : ∃ w, head :: l.reverse = w ++ [next head] := by
      cases l with
      | nil => exact ⟨[], by rw [h.eq_nil_iff.1 rfl]; rfl⟩
      | cons q l =>
        refine ⟨head :: l.reverse, ?_⟩
        rw [h.next_head, reverse_cons]
        rfl
    have hpath := h.prev_path
    have hnd := h.reverse.nodup
    rw [hw] at hpath hnd hc'
    obtain ⟨hcw, hcn⟩ := not_or.1 (mt mem_append.2 hc')
    have hcn : c ≠ next head := fun heq => hcn (mem_singleton.2 heq)
    have hlast : next head ∉ w := fun hmem =>
      (nodup_append.1 hnd).2.2 _ hmem _ (mem_singleton.2 rfl) rfl
    have hins := hpath.insert hlast not_mem_nil hcn hcw not_mem_nil
    rw [hpath.next_last, update_comm hcn] at hins
    rw [reverse_cons, ← cons_append, hw, append_assoc]
    exact hins

/-- An index is put in before the head. -/
theorem pushBack (h : Ring next prev head l) (hc : c ∉ head :: l) :
    Ring (update (update next (prev head) c) c head)
      (update (update prev c (prev head)) head c) head (l ++ [c]) := by
  have hrev := (h.reverse.pushFront (mt mem_cons_reverse.1 hc)).reverse
  rwa [reverse_cons, reverse_reverse] at hrev

end Ring

end Ring

end Uwisc.Lib
