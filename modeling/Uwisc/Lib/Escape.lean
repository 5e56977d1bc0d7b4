import Mathlib.Data.List.DropRight

/-!
# Texts with separators and escapes

A text is divided into pieces by a separator. A character after an escape character stands for
itself, be it a separator or an escape.

* `pieces`: the pieces of a text, unescaped;
* `labels`: the pieces, but for empty ones at the end;
* `glue`: pieces with separators between them, `glue_pieces_cons` for reading a text;
* `labels_written`: what is written with its separators escaped is read back, if there is no escape
  character in it.
-/

namespace Uwisc.Lib

open List

variable {α : Type*}

/-- Puts a character at the front of the first piece. -/
def push (c : α) : List (List α) → List (List α)
  | [] => [[c]]
  | l :: ls => (c :: l) :: ls

/-- The pieces with separators between them. -/
def glue (sep : α) : List (List α) → List α
  | [] => []
  | [l] => l
  | l :: l' :: ls => l ++ sep :: glue sep (l' :: ls)

/-- The pieces without the empty ones at the end. -/
def trim (ls : List (List α)) : List (List α) := ls.rdropWhile isEmpty

variable [DecidableEq α] (sep esc : α)

/-- The pieces of a text. -/
def pieces : List α → List (List α)
  | [] => [[]]
  | c :: t =>
    if c = sep then [] :: pieces t
    else if c = esc then
      match t with
      | [] => [[]]
      | c :: t => push c (pieces t)
    else push c (pieces t)

/-- The labels of a name. -/
def labels (t : List α) : List (List α) := trim (pieces sep esc t)

/-- The text does not end in an escape character that escapes nothing. -/
inductive Complete : List α → Prop
  | nil : Complete []
  | escaped {c : α} {t : List α} : Complete t → Complete (esc :: c :: t)
  | plain {c : α} {t : List α} : c ≠ esc → Complete t → Complete (c :: t)

/-- A text with its separators escaped. -/
def escape : List α → List α
  | [] => []
  | c :: t => if c = sep then esc :: c :: escape t else c :: escape t

/-- Writes a label after what is written already. -/
def writeLabel (out l : List α) : List α :=
  (if out = [] then out else out ++ [sep]) ++ escape sep esc l

/-- Writes labels. -/
def written (out : List α) : List (List α) → List α
  | [] => out
  | l :: ls => written (writeLabel sep esc out l) ls

section Trim

omit [DecidableEq α]

variable {l : List α} {ls : List (List α)} {c : α}

@[simp] theorem push_ne_nil : push c ls ≠ [] := by cases ls <;> exact cons_ne_nil _ _

@[simp] theorem trim_nil : trim ([] : List (List α)) = [] := rdropWhile_nil _

theorem trim_snoc_nil : trim (ls ++ [[]]) = trim ls := rdropWhile_concat_pos _ _ _ rfl

@[simp] theorem trim_singleton_nil : trim [([] : List α)] = [] := by
  rw [trim, rdropWhile_singleton, if_pos isEmpty_nil]

theorem trim_cons (hl : l ≠ []) : trim (l :: ls) = l :: trim ls := by
  have hemp : ¬l.isEmpty = true := by rwa [List.isEmpty_iff]
  induction ls using reverseRecOn with
  | nil => rw [trim_nil, trim, rdropWhile_singleton, if_neg hemp]
  | append_singleton ls l' ih =>
    rw [trim, ← cons_append]
    by_cases hl' : l' = []
    · subst hl'
      rw [trim_snoc_nil, ← ih, trim, rdropWhile_concat_pos _ _ _ rfl]
    · have hemp' : ¬l'.isEmpty = true := by rwa [List.isEmpty_iff]
      rw [rdropWhile_concat_neg _ _ _ hemp', trim, rdropWhile_concat_neg _ _ _ hemp', cons_append]

theorem mem_of_mem_trim (h : l ∈ trim ls) : l ∈ ls := ( rdropWhile_prefix _ _).subset h

theorem trim_eq_self (h : [] ∉ ls) : trim ls = ls := by
  induction ls with
  | nil => exact trim_nil
  | cons l ls ih =>
    rw [mem_cons, not_or] at h
    rw [trim_cons (Ne.symm h.1), ih h.2]

theorem push_append (hls : ls ≠ []) {ls' : List (List α)} : push c (ls ++ ls') = push c ls ++ ls' := by
  obtain ⟨l, ls, rfl⟩ := exists_cons_of_ne_nil hls
  rfl

theorem glue_cons (hls : ls ≠ []) : glue c (l :: ls) = l ++ c :: glue c ls := by
  obtain ⟨l', ls, rfl⟩ := exists_cons_of_ne_nil hls
  rfl

theorem glue_push {sep : α} (hls : ls ≠ []) : glue sep (push c ls) = c :: glue sep ls := by
  obtain ⟨l, ls, rfl⟩ := exists_cons_of_ne_nil hls
  cases ls with
  | nil => rfl
  | cons l' ls => rfl

end Trim

variable {sep esc} {c : α} {l out t x y : List α} {ls : List (List α)}

@[simp] theorem pieces_ne_nil : pieces sep esc t ≠ [] := by
  rw [pieces.eq_def]
  split
  · exact cons_ne_nil _ _
  · split_ifs
    · exact cons_ne_nil _ _
    · split
      · exact cons_ne_nil _ _
      · exact push_ne_nil
    · exact push_ne_nil

theorem mem_of_mem_pieces {d : α} (hl : l ∈ pieces sep esc t) (hd : d ∈ l) : d ∈ t := by
  have hpush : ∀ {c : α} {t : List α} {ls : List (List α)}, (∀ l ∈ ls, ∀ d ∈ l, d ∈ t) →
      ∀ l ∈ push c ls, ∀ d ∈ l, d ∈ c :: t := by
    intro c t ls hls l hl d hd
    cases ls with
    | nil =>
      rw [mem_singleton.1 hl, mem_singleton] at hd
      exact hd ▸ mem_cons_self
    | cons l' ls =>
      rcases mem_cons.1 hl with rfl | hl
      · rcases mem_cons.1 hd with rfl | hd
        · exact mem_cons_self
        · exact mem_cons_of_mem _ (hls l' mem_cons_self d hd)
      · exact mem_cons_of_mem _ (hls l (mem_cons_of_mem _ hl) d hd)
  fun_induction pieces sep esc t generalizing l d with
  | case1 => rwa [mem_singleton.1 hl] at hd
  | case2 t ih =>
    rcases mem_cons.1 hl with rfl | hl
    · exact absurd hd not_mem_nil
    · exact mem_cons_of_mem _ (ih hl hd)
  | case3 =>
    rw [mem_singleton.1 hl] at hd
    exact absurd hd not_mem_nil
  | case4 hne c t ih => exact mem_cons_of_mem _ (hpush (fun _ h _ h' => ih h h') l hl d hd)
  | case5 c t hsep hesc ih => exact hpush (fun _ h _ h' => ih h h') l hl d hd

theorem pieces_sep : pieces sep esc (sep :: t) = [] :: pieces sep esc t := by
  rw [pieces.eq_def]
  exact if_pos rfl

theorem pieces_esc (hne : esc ≠ sep) :
    pieces sep esc (esc :: c :: t) = push c (pieces sep esc t) := by
  rw [pieces.eq_def]
  dsimp only
  rw [if_neg hne, if_pos rfl]

theorem pieces_other (hsep : c ≠ sep) (hesc : c ≠ esc) :
    pieces sep esc (c :: t) = push c (pieces sep esc t) := by
  rw [pieces.eq_def]
  dsimp only
  rw [if_neg hsep, if_neg hesc]

@[simp] theorem pieces_nil : pieces sep esc [] = [[]] := rfl

theorem glue_pieces_esc (hne : esc ≠ sep) :
    glue sep (pieces sep esc (esc :: c :: t)) = c :: glue sep (pieces sep esc t) := by
  rw [pieces_esc hne, glue_push pieces_ne_nil]

theorem glue_pieces_cons (hesc : c ≠ esc) :
    glue sep (pieces sep esc (c :: t)) = c :: glue sep (pieces sep esc t) := by
  by_cases hsep : c = sep
  · rw [hsep, pieces_sep, glue_cons pieces_ne_nil, nil_append]
  · rw [pieces_other hsep hesc, glue_push pieces_ne_nil]

/-- A separator after a complete text is not escaped. -/
theorem pieces_append_sep (hne : esc ≠ sep) (hx : Complete esc x) :
    pieces sep esc (x ++ sep :: t) = pieces sep esc x ++ pieces sep esc t := by
  induction hx with
  | nil => exact pieces_sep
  | escaped _ ih =>
    rw [cons_append, cons_append, pieces_esc hne, pieces_esc hne, ih, push_append pieces_ne_nil]
  | @plain c _ hc _ ih =>
    rw [cons_append]
    by_cases hsep : c = sep
    · rw [hsep, pieces_sep, pieces_sep, ih, cons_append]
    · rw [pieces_other hsep hc, pieces_other hsep hc, ih, push_append pieces_ne_nil]

theorem complete_escape (hl : esc ∉ l) : Complete esc (escape sep esc l) := by
  induction l with
  | nil => exact .nil
  | cons c l ih =>
    rw [mem_cons, not_or] at hl
    rw [escape]
    split_ifs with hc
    · exact .escaped (ih hl.2)
    · exact .plain (Ne.symm hl.1) (ih hl.2)

/-- A label that was escaped is one piece. -/
theorem pieces_escape (hne : esc ≠ sep) (hl : esc ∉ l) : pieces sep esc (escape sep esc l) = [l] := by
  induction l with
  | nil => rfl
  | cons c l ih =>
    rw [mem_cons, not_or] at hl
    rw [escape]
    split_ifs with hc
    · rw [pieces_esc hne, ih hl.2, push]
    · rw [pieces_other hc (Ne.symm hl.1), ih hl.2, push]

theorem escape_ne_nil (hl : l ≠ []) : escape sep esc l ≠ [] := by
  obtain ⟨c, l, rfl⟩ := exists_cons_of_ne_nil hl
  rw [escape]
  split_ifs <;> exact cons_ne_nil _ _

theorem length_le_escape : l.length ≤ (escape sep esc l).length := by
  induction l with
  | nil => exact le_rfl
  | cons c l ih =>
    rw [escape]
    split_ifs
    · exact Nat.le_succ_of_le (Nat.succ_le_succ ih)
    · exact Nat.succ_le_succ ih

theorem written_of_ne (hout : out ≠ []) : written sep esc out ls =
    out ++ ls.flatMap fun l => sep :: escape sep esc l := by
  induction ls generalizing out with
  | nil => rw [written, flatMap_nil, append_nil]
  | cons l ls ih =>
    rw [written, writeLabel, if_neg hout, ih (by simp [hout]), flatMap_cons]
    simp only [append_assoc, singleton_append]

theorem length_le_written : out.length ≤ (written sep esc out ls).length := by
  induction ls generalizing out with
  | nil => exact le_rfl
  | cons l ls ih =>
    refine le_trans ?_ ih
    rw [writeLabel, length_append]
    split_ifs with hout
    · rw [hout]
      exact Nat.zero_le _
    · rw [length_append]
      omega

/-- Labels that were written with their separators escaped. -/
theorem pieces_written (hne : esc ≠ sep) (hl : esc ∉ l) (hls : ∀ l ∈ ls, esc ∉ l) :
    pieces sep esc (escape sep esc l ++ ls.flatMap fun l => sep :: escape sep esc l) = l :: ls := by
  induction ls generalizing l with
  | nil => rw [flatMap_nil, append_nil, pieces_escape hne hl]
  | cons l' ls ih =>
    rw [forall_mem_cons] at hls
    rw [flatMap_cons, cons_append, pieces_append_sep hne (complete_escape hl),
      pieces_escape hne hl, ih hls.1 hls.2, singleton_append]

/-- What was written is read back. -/
theorem labels_written (hne : esc ≠ sep) (hls : ∀ l ∈ ls, l ≠ [] ∧ esc ∉ l) :
    labels sep esc (written sep esc [] ls) = ls := by
  have hemp : [] ∉ ls := fun h => (hls [] h).1 rfl
  cases ls with
  | nil => exact trim_singleton_nil
  | cons l ls =>
    rw [forall_mem_cons] at hls
    rw [labels, written, writeLabel, if_pos rfl, nil_append,
      written_of_ne (escape_ne_nil hls.1.1), pieces_written hne hls.1.2 fun l' hl' => (hls.2 l' hl').2,
      trim_eq_self hemp]

end Uwisc.Lib
