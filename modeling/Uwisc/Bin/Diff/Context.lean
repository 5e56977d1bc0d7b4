import Mathlib.Data.List.Chain
import Mathlib.Data.List.Infix
import Mathlib.Tactic.Linarith
import Uwisc.Bin.Diff
import Uwisc.Bin.Diff.Output
import Uwisc.Lib.Wrap

/-!
# Context diffs

What `change` and `dump_context_vec` of `diffreg.c` do for `-c`: the changes are kept until there is
one that is not near, or until there is no room, and then they are printed with the lines around
them. The lines of the headers come before those of each file (`Hunk`).
-/

namespace Uwisc.Diff

open Lib

/-- How many changes there is room for. -/
def MAX_CONTEXT : ℕ := 128

/-- `fetch`: lines `a` to `b`, each after `s`. -/
def fetch (a b : ℤ) (s : String) : List (ℤ × String) :=
  (List.range (b + 1 - a).toNat).map fun i : ℕ => (a + i, s)

/-- What kind of a change it is. -/
def Change.ch (x : Change) : Char :=
  if x.a ≤ x.b ∧ x.c ≤ x.d then 'c' else if x.a ≤ x.b then 'd' else 'a'

/-- The lines of one of the files in `dump_context_vec`, from `low` to `up`. Those of a change are
    `lo` to `hi`, and there are none if it is a `skip`. -/
def printFile (skip : Char) (mark : String) (lo hi : Change → ℕ) (up : ℤ) :
    ℤ → List Change → List (ℤ × String)
  -- `low` is the line after the last change here
  | low, [] => fetch low up "  "
  | low, cvp :: l =>
    (if cvp.ch = skip then fetch low (hi cvp) "  "
      else fetch low (lo cvp - 1) "  " ++
        fetch (lo cvp) (hi cvp) (if cvp.ch = 'c' then "! " else mark)) ++
      printFile skip mark lo hi up (hi cvp + 1) l

/-- What is printed for some changes: the range of lines of each file, and the lines. -/
structure Hunk where
  lowa : ℤ
  upb : ℤ
  old : List (ℤ × String)
  lowc : ℤ
  upd : ℤ
  new : List (ℤ × String)

/-- What `dump_context_vec` prints. -/
def Hunk.of (context : ℤ) (len0 len1 : ℕ) (first : Change) (l : List Change) : Hunk :=
  let last := (first :: l).getLast (List.cons_ne_nil first l)
  let lowa := max 1 (wrap 32 (first.a - context))
  let upb := min (len0 : ℤ) (wrap 32 (last.b + context))
  let lowc := max 1 (wrap 32 (first.c - context))
  let upd := min (len1 : ℤ) (wrap 32 (last.d + context))
  { lowa, upb, lowc, upd
    old := if ∃ cvp ∈ first :: l, cvp.a ≤ cvp.b then
      printFile 'a' "- " Change.a Change.b upb lowa (first :: l) else []
    new := if ∃ cvp ∈ first :: l, cvp.c ≤ cvp.d then
      printFile 'd' "+ " Change.c Change.d upd lowc (first :: l) else [] }

/-- The changes from `context_vec_start` to `context_vec_ptr`, and what has been printed. -/
structure Context where
  vec : List Change
  hunks : List Hunk

/-- `dump_context_vec`. -/
def Context.dump (context : ℤ) (len0 len1 : ℕ) (s : Context) : Context :=
  match s.vec with
  | [] => s
  | first :: l => ⟨[], s.hunks ++ [.of context len0 len1 first l]⟩

/-- A change is more than `context` lines from the one before, in both files. -/
def Change.far (context : ℤ) (ptr x : Change) : Prop :=
  wrap 32 (ptr.b + wrap 32 (2 * context)) < x.a ∧ wrap 32 (ptr.d + wrap 32 (2 * context)) < x.c

instance (context : ℤ) (ptr x : Change) : Decidable (ptr.far context x) :=
  inferInstanceAs (Decidable (_ ∧ _))

/-- `change`, for a context diff. -/
def Context.change (context : ℤ) (len0 len1 : ℕ) (s : Context) (x : Change) : Context :=
  if x.b < x.a ∧ x.d < x.c then s
  else
    -- `context_vec_ptr` is at the last change, or before the first slot
    let s :=
      if MAX_CONTEXT ≤ (s.vec.length : ℤ) - 1 ∨ ∃ ptr ∈ s.vec.getLast?, ptr.far context x then
        s.dump context len0 len1
      else s
    { s with vec := s.vec ++ [x] }

/-- What the calls of `change` leave. -/
def Context.changes (context : ℤ) (len0 len1 : ℕ) (changes : List Change) : Context :=
  changes.foldl (Context.change context len0 len1) ⟨[], []⟩

/-- The hunks of a context diff. -/
def contextDiff (context : ℤ) (len0 len1 : ℕ) (changes : List Change) : List Hunk :=
  ((Context.changes context len0 len1 changes).dump context len0 len1).hunks

/-!
### Hunks

The test for room in `change` lets in one change more than there is room for. Where no more than
`MAX_CONTEXT` changes follow each other nearly (`Short`), the hunks of a context diff are exact, and
else they are not (`contextDiff_exact_iff`). The calls of `output` are those it is about
(`output_ascending`).
-/

open List

/-! ### The claims -/

/-- Numbers of lines. -/
def lines (a b : ℤ) : List ℤ := (range (b + 1 - a).toNat).map fun i : ℕ => a + i

/-- What comes before a line: a mark if one of the changes is about it, else blanks. -/
def Marked (mark : String) (lo hi : Change → ℕ) (changes : List Change) (n : ℤ) (s : String) : Prop :=
  (∃ x ∈ changes, (lo x : ℤ) ≤ n ∧ n ≤ hi x ∧ s = if x.ch = 'c' then "! " else mark) ∨
    (∀ x ∈ changes, ¬((lo x : ℤ) ≤ n ∧ n ≤ hi x)) ∧ s = "  "

/-- The lines of one file in a hunk: all of a range in order, marked where they are changed, or none
    if the hunk changes none of them. -/
def Printed (mark : String) (lo hi : Change → ℕ) (changes group : List Change) (low up : ℤ)
    (out : List (ℤ × String)) : Prop :=
  if ∃ x ∈ group, lo x ≤ hi x then
    out.map Prod.fst = lines low up ∧ ∀ z ∈ out, Marked mark lo hi changes z.1 z.2
  else out = []

/-- The hunk of some changes. -/
structure Hunk.Exact (changes group : List Change) (h : Hunk) : Prop where
  old : Printed "- " Change.a Change.b changes group h.lowa h.upb h.old
  new : Printed "+ " Change.c Change.d changes group h.lowc h.upd h.new
  covers : ∀ x ∈ group, h.lowa ≤ x.a ∧ x.b ≤ h.upb ∧ h.lowc ≤ x.c ∧ x.d ≤ h.upd

/-- A change of some lines. -/
def Change.Real (x : Change) : Bool := x.a ≤ x.b || x.c ≤ x.d

/-- There is room for the changes at any time, each of them is in one hunk, the hunks are exact, and
    they do not overlap. -/
structure Exact (context : ℤ) (len0 len1 : ℕ) (changes : List Change) : Prop where
  slots : ∀ l, l <+: changes → (Context.changes context len0 len1 l).vec.length ≤ MAX_CONTEXT
  hunks : ∃ groups : List (List Change), groups.flatten = changes.filter Change.Real ∧
    List.Forall₂ (Hunk.Exact (changes.filter Change.Real)) groups (contextDiff context len0 len1 changes)
  apart : (contextDiff context len0 len1 changes).IsChain fun h h' => h.upb < h'.lowa ∧ h.upd < h'.lowc

/-- The contexts of two changes meet. -/
def Near (context : ℤ) (x y : Change) : Prop := y.a ≤ x.b + 2 * context

/-- There are no more changes than there is room for, each near to the one before. -/
def Short (context : ℤ) (changes : List Change) : Prop :=
  ∀ l, l <:+: changes.filter Change.Real → l.IsChain (Near context) → l.length ≤ MAX_CONTEXT

/-- The calls of `change` for what is after line `p` of the first file and line `q` of the second: as many
    lines are left unchanged in both files before each of them. -/
inductive Ascending (len0 len1 : ℕ) : ℕ → ℕ → List Change → Prop
  | nil {p q : ℕ} : Ascending len0 len1 p q []
  | cons {p q n b d : ℕ} {l : List Change} : p + n ≤ b → b ≤ len0 → q + n ≤ d → d ≤ len1 →
      Ascending len0 len1 b d l → Ascending len0 len1 p q (⟨p + n + 1, b, q + n + 1, d⟩ :: l)

/-! ### Lines -/

theorem map_fst_fetch (a b : ℤ) (s : String) : (fetch a b s).map Prod.fst = lines a b := by
  rw [fetch, lines, map_map]
  rfl

theorem mem_fetch {a b : ℤ} {s : String} {z : ℤ × String} :
    z ∈ fetch a b s ↔ a ≤ z.1 ∧ z.1 ≤ b ∧ z.2 = s := by
  obtain ⟨n, s'⟩ := z
  simp only [fetch, mem_map, mem_range, Prod.mk.injEq]
  constructor
  · rintro ⟨i, hi, rfl, rfl⟩
    exact ⟨by omega, by omega, rfl⟩
  · rintro ⟨hl, hu, rfl⟩
    exact ⟨(n - a).toNat, by omega, by omega, rfl⟩

theorem lines_append {a b c : ℤ} (hab : a ≤ b + 1) (hbc : b ≤ c) :
    lines a b ++ lines (b + 1) c = lines a c := by
  obtain ⟨m, hm⟩ := Int.eq_ofNat_of_zero_le (sub_nonneg.2 hab)
  obtain ⟨n, hn⟩ := Int.eq_ofNat_of_zero_le (sub_nonneg.2 hbc)
  have h1 : (b + 1 - a).toNat = m := by omega
  have h2 : (c + 1 - (b + 1)).toNat = n := by omega
  have h3 : (c + 1 - a).toNat = m + n := by omega
  rw [lines, lines, lines, h1, h2, h3, range_add, map_append, map_map]
  congr 1
  refine map_congr_left fun i _ => ?_
  simp only [Function.comp_apply]
  push_cast
  omega

section File

variable {skip : Char} {mark : String} {lo hi : Change → ℕ} {up : ℤ}

/-- Changes whose lines follow each other in a file. -/
structure InOrder (lo hi : Change → ℕ) (changes : List Change) : Prop where
  le : ∀ x ∈ changes, lo x ≤ hi x + 1
  lt : changes.Pairwise fun x y => hi x < lo y

/-- What is printed of a file for some of its changes. -/
theorem printFile_spec {u g v : List Change} {low : ℤ} (h : InOrder lo hi (u ++ g ++ v))
    (hskip : ∀ x ∈ g, x.ch = skip ↔ hi x < lo x) (hu : ∀ x ∈ u, (hi x : ℤ) < low)
    (hlow : ∀ x ∈ g, low ≤ lo x) (hup : ∀ x ∈ g, (hi x : ℤ) ≤ up) (hle : low ≤ up + 1)
    (hv : ∀ x ∈ v, up < lo x) :
    (printFile skip mark lo hi up low g).map Prod.fst = lines low up ∧
      ∀ z ∈ printFile skip mark lo hi up low g, Marked mark lo hi (u ++ g ++ v) z.1 z.2 := by
  induction g generalizing u low with
  | nil =>
    refine ⟨map_fst_fetch .., fun z hz => .inr ⟨fun x hx => ?_, (mem_fetch.1 hz).2.2⟩⟩
    obtain ⟨hl, hu', -⟩ := mem_fetch.1 hz
    rw [append_nil] at hx
    rcases mem_append.1 hx with hx | hx
    · have := hu x hx
      omega
    · have := hv x hx
      omega
  | cons x g ih =>
    obtain ⟨hx, hg⟩ := forall_mem_cons.1 hskip
    obtain ⟨hlowx, -⟩ := forall_mem_cons.1 hlow
    obtain ⟨hupx, hupg⟩ := forall_mem_cons.1 hup
    have hspl : u ++ x :: g ++ v = (u ++ [x]) ++ g ++ v := by simp
    have hxle : lo x ≤ hi x + 1 := h.le x (by simp)
    have hpair := h.lt
    rw [append_assoc] at hpair
    obtain ⟨-, hxgv, hugv⟩ := pairwise_append.1 hpair
    have haft := (pairwise_cons.1 hxgv).1
    have hbef : ∀ y ∈ u ++ [x], (hi y : ℤ) < hi x + 1 := by
      intro y hy
      rcases mem_append.1 hy with hy | hy
      · have := hu y hy
        omega
      · rw [mem_singleton.1 hy]
        omega
    have hfrom : ∀ y ∈ g, (hi x : ℤ) + 1 ≤ lo y := by
      intro y hy
      have := haft y (mem_append_left v hy)
      omega
    rw [hspl] at h ⊢
    obtain ⟨hlines, hmarks⟩ := ih h hg hbef hfrom hupg (by omega)
    have hcon : ∀ n : ℤ, low ≤ n → n < lo x → n ≤ hi x →
        ∀ y ∈ u ++ [x] ++ g ++ v, ¬((lo y : ℤ) ≤ n ∧ n ≤ hi y) := by
      intro n hlown hlox hhix y hy
      rw [← hspl, append_assoc] at hy
      rcases mem_append.1 hy with hy | hy
      · have := hu y hy
        omega
      · rcases mem_cons.1 hy with rfl | hy
        · omega
        · have := haft y hy
          omega
    rw [printFile, map_append, hlines]
    by_cases hch : x.ch = skip
    · have hlt := hx.1 hch
      rw [if_pos hch, map_fst_fetch, lines_append (by omega) hupx]
      refine ⟨rfl, fun z hz => ?_⟩
      rcases mem_append.1 hz with hz | hz
      · obtain ⟨hl, hu', hs⟩ := mem_fetch.1 hz
        exact .inr ⟨hcon z.1 hl (by omega) hu', hs⟩
      · exact hmarks z hz
    · have hlo : lo x ≤ hi x := not_lt.1 fun hlt => hch (hx.2 hlt)
      have hlox : (lo x : ℤ) - 1 + 1 = lo x := by omega
      have hall := lines_append (a := low) (b := lo x - 1) (c := hi x) (by omega) (by omega)
      rw [hlox] at hall
      rw [if_neg hch, map_append, map_fst_fetch, map_fst_fetch, hall, lines_append (by omega) hupx]
      refine ⟨rfl, fun z hz => ?_⟩
      rcases mem_append.1 hz with hz | hz
      · rcases mem_append.1 hz with hz | hz
        · obtain ⟨hl, hu', hs⟩ := mem_fetch.1 hz
          exact .inr ⟨hcon z.1 hl (by omega) (by omega), hs⟩
        · obtain ⟨hl, hu', hs⟩ := mem_fetch.1 hz
          exact .inl ⟨x, by simp, hl, hu', hs⟩
      · exact hmarks z hz

end File

/-! ### The calls of `change` -/

section Calls

variable {len0 len1 p q : ℕ} {context : ℤ} {cs u vec l : List Change} {x y : Change} {s : Context}

theorem Ascending.bounds (h : Ascending len0 len1 p q cs) :
    ∀ x ∈ cs, p < x.a ∧ x.a ≤ x.b + 1 ∧ x.b ≤ len0 ∧ q < x.c ∧ x.c ≤ x.d + 1 ∧ x.d ≤ len1 := by
  induction h with
  | nil => exact fun x hx => absurd hx not_mem_nil
  | cons hb hb' hd hd' _ ih =>
    refine forall_mem_cons.2 ⟨by dsimp only; omega, fun x hx => ?_⟩
    have := ih x hx
    omega

/-- One change is after another in both files, with as many lines between them. -/
structure Change.Before (x y : Change) : Prop where
  old : x.b < y.a
  new : x.d < y.c

theorem Ascending.pairwise (h : Ascending len0 len1 p q cs) : cs.Pairwise Change.Before := by
  induction h with
  | nil => exact .nil
  | cons hb hb' hd hd' h ih =>
    refine pairwise_cons.2 ⟨fun x hx => ?_, ih⟩
    have := h.bounds x hx
    exact ⟨this.1, this.2.2.2.1⟩

/-- Lines that are left unchanged count as if they were before those that come next. -/
theorem Ascending.back {n p' q' : ℕ} (h : Ascending len0 len1 p' q' cs) (hp : p' = p + n)
    (hq : q' = q + n) : Ascending len0 len1 p q cs := by
  subst hp hq
  cases h with
  | nil => exact .nil
  | @cons _ _ m b d l hb hb' hd hd' h =>
    rw [add_assoc p n m, add_assoc q n m] at *
    exact .cons hb hb' hd hd' h

/-- Calls that are about no lines do not count. -/
theorem Ascending.real (h : Ascending len0 len1 p q cs) :
    Ascending len0 len1 p q (cs.filter Change.Real) := by
  induction h with
  | nil => exact .nil
  | @cons p q n b d l hb hb' hd hd' _ ih =>
    rw [filter_cons]
    split_ifs with hreal
    · exact .cons hb hb' hd hd' ih
    · have hnot : ¬(p + n + 1 ≤ b ∨ q + n + 1 ≤ d) := by
        simpa [Change.Real] using hreal
      exact ih.back (n := n) (by omega) (by omega)

/-- As many lines are between two changes in both files. -/
theorem Ascending.even (h : Ascending len0 len1 p q cs) :
    cs.IsChain fun x y => (y.a : ℤ) - x.b = y.c - x.d := by
  induction h with
  | nil => exact .nil
  | cons _ _ _ _ h ih =>
    cases h with
    | nil => exact .singleton _
    | cons =>
      refine isChain_cons_cons.2 ⟨?_, ih⟩
      push_cast
      omega

/-! ### Groups -/

/-- Where no sum overflows, a change is far from one before if their contexts do not meet. -/
theorem far_iff (h0 : 0 ≤ context) (hx : x.b ≤ len0 ∧ x.d ≤ len1)
    (hfits : 2 * context + max len0 len1 < 2147483647) (heven : (y.a : ℤ) - x.b = y.c - x.d) :
    x.far context y ↔ ¬Near context x y := by
  have hcon : wrap 32 (2 * context) = 2 * context := wrap_int (by omega) (by omega)
  have hb : wrap 32 (x.b + 2 * context) = x.b + 2 * context := wrap_int (by omega) (by omega)
  have hd : wrap 32 (x.d + 2 * context) = x.d + 2 * context := wrap_int (by omega) (by omega)
  rw [Change.far, Near, hcon, hb, hd]
  omega

theorem Ascending.inOrder (h : Ascending len0 len1 p q cs) :
    InOrder Change.a Change.b cs ∧ InOrder Change.c Change.d cs :=
  ⟨⟨fun x hx => (h.bounds x hx).2.1, h.pairwise.imp fun h => h.old⟩,
    ⟨fun x hx => (h.bounds x hx).2.2.2.2.1, h.pairwise.imp fun h => h.new⟩⟩

variable {hunks hs : List Hunk} {last first : Change} {groups : List (List Change)}
  {g : List Change}

/-- No change ends after the last one. -/
theorem Ascending.le_last (h : Ascending len0 len1 p q (u ++ l))
    (hlast : u.getLast? = some last) : ∀ x ∈ u, x.b ≤ last.b ∧ x.d ≤ last.d := by
  obtain ⟨u', rfl⟩ := getLast?_eq_some_iff.1 hlast
  intro x hx
  rcases mem_append.1 hx with hx' | hx'
  · have hbef := (pairwise_append.1 (pairwise_append.1 h.pairwise).1).2.2 x hx' last
      (mem_singleton_self last)
    have := h.bounds last (by simp)
    exact ⟨by have := hbef.old; omega, by have := hbef.new; omega⟩
  · rw [mem_singleton.1 hx']
    exact ⟨le_rfl, le_rfl⟩

/-- No change begins before the first one. -/
theorem Ascending.first_le (h : Ascending len0 len1 p q (u ++ x :: l)) :
    ∀ y ∈ x :: l, x.a ≤ y.a ∧ x.c ≤ y.c := by
  intro y hy
  rcases mem_cons.1 hy with rfl | hy
  · exact ⟨le_rfl, le_rfl⟩
  · have hbef := (pairwise_cons.1 (pairwise_append.1 h.pairwise).2.1).1 y hy
    have := h.bounds x (by simp)
    exact ⟨by have := hbef.old; omega, by have := hbef.new; omega⟩

/-- The range of a hunk, where no sum overflows. -/
theorem hunk_range (h : Ascending len0 len1 p q cs)
    (hmem : ∀ x ∈ first :: g, x ∈ cs) (h0 : 0 ≤ context)
    (hfits : 2 * context + max len0 len1 < 2147483647)
    (hlast : (first :: g).getLast (cons_ne_nil first g) = last) :
    (Hunk.of context len0 len1 first g).lowa = max 1 ((first.a : ℤ) - context) ∧
      (Hunk.of context len0 len1 first g).upb = min (len0 : ℤ) (last.b + context) ∧
      (Hunk.of context len0 len1 first g).lowc = max 1 ((first.c : ℤ) - context) ∧
      (Hunk.of context len0 len1 first g).upd = min (len1 : ℤ) (last.d + context) := by
  have hfst := h.bounds first (hmem first mem_cons_self)
  have hend := h.bounds last (hmem last (hlast ▸ getLast_mem (cons_ne_nil first g)))
  have hlowa : wrap 32 (first.a - context) = first.a - context := wrap_int (by omega) (by omega)
  have hupb : wrap 32 (last.b + context) = last.b + context := wrap_int (by omega) (by omega)
  have hlowc : wrap 32 (first.c - context) = first.c - context := wrap_int (by omega) (by omega)
  have hupd : wrap 32 (last.d + context) = last.d + context := wrap_int (by omega) (by omega)
  simp only [Hunk.of, hlast, hlowa, hupb, hlowc, hupd, and_self]

/-- What the hunk of a group prints. -/
theorem hunk_exact {v : List Change}
    (h : Ascending len0 len1 p q (u ++ (first :: g) ++ v)) (hreal : ∀ x ∈ first :: g, x.Real)
    (h0 : 0 ≤ context) (hfits : 2 * context + max len0 len1 < 2147483647)
    (hu : ∀ x ∈ u, (x.b : ℤ) + 2 * context < first.a ∧ (x.d : ℤ) + 2 * context < first.c)
    (hv : ∀ y ∈ v, ∀ last ∈ (first :: g).getLast?,
      (last.b : ℤ) + 2 * context < y.a ∧ (last.d : ℤ) + 2 * context < y.c) :
    (Hunk.of context len0 len1 first g).Exact (u ++ (first :: g) ++ v) (first :: g) := by
  obtain ⟨hold, hnew⟩ := h.inOrder
  have hmem : ∀ x ∈ first :: g, x ∈ u ++ (first :: g) ++ v := fun x hx =>
    mem_append_left _ (mem_append_right _ hx)
  have hbou := fun x hx => h.bounds x (hmem x hx)
  have hlast := getLast?_eq_getLast_of_ne_nil (cons_ne_nil first g)
  generalize hg : (first :: g).getLast (cons_ne_nil first g) = last at hlast
  have hv := fun y hy => hv y hy last hlast
  have hfst := hbou first mem_cons_self
  have hend := hbou last (mem_of_getLast? hlast)
  have hkind : ∀ x ∈ first :: g, (x.ch = 'a' ↔ x.b < x.a) ∧ (x.ch = 'd' ↔ x.d < x.c) := by
    intro x hx
    have hx := hreal x hx
    simp only [Change.Real, Bool.or_eq_true, decide_eq_true_eq] at hx
    rw [Change.ch]
    split_ifs <;> simp <;> omega
  have hrng : ∀ x ∈ first :: g, first.a ≤ x.a ∧ x.b ≤ last.b ∧ first.c ≤ x.c ∧ x.d ≤ last.d := by
    intro x hx
    have hlast' : (u ++ first :: g).getLast? = some last := by
      rw [getLast?_append_of_ne_nil _ (cons_ne_nil first g), hlast]
    have hle := h.le_last hlast' x (mem_append_right u hx)
    rw [append_assoc] at h
    have hle' := h.first_le x (mem_append_left v hx)
    exact ⟨hle'.1, hle.1, hle'.2, hle.2⟩
  have hself := hrng first mem_cons_self
  obtain ⟨hlowa, hupb, hlowc, hupd⟩ := hunk_range h hmem h0 hfits hg
  generalize hh : Hunk.of context len0 len1 first g = hunk at hlowa hupb hlowc hupd
  have hold' : hunk.old = if ∃ cvp ∈ first :: g, cvp.a ≤ cvp.b then
      printFile 'a' "- " Change.a Change.b hunk.upb hunk.lowa (first :: g) else [] := by
    rw [← hh]
    rfl
  have hnew' : hunk.new = if ∃ cvp ∈ first :: g, cvp.c ≤ cvp.d then
      printFile 'd' "+ " Change.c Change.d hunk.upd hunk.lowc (first :: g) else [] := by
    rw [← hh]
    rfl
  refine ⟨?_, ?_, ?_⟩
  · rw [Printed, hold']
    split_ifs with hany
    · refine printFile_spec hold (fun x hx => (hkind x hx).1) (fun x hx => ?_) (fun x hx => ?_)
        (fun x hx => ?_) ?_ fun x hx => ?_
      · have := hu x hx
        omega
      · have := hrng x hx
        have := hbou x hx
        omega
      · have := hrng x hx
        have := hbou x hx
        omega
      · omega
      · have := hv x hx
        omega
    · rfl
  · rw [Printed, hnew']
    split_ifs with hany
    · refine printFile_spec hnew (fun x hx => (hkind x hx).2) (fun x hx => ?_) (fun x hx => ?_)
        (fun x hx => ?_) ?_ fun x hx => ?_
      · have := hu x hx
        omega
      · have := hrng x hx
        have := hbou x hx
        omega
      · have := hrng x hx
        have := hbou x hx
        omega
      · omega
      · have := hv x hx
        omega
    · rfl
  · intro x hx
    have := hrng x hx
    have := hbou x hx
    omega

/-! ### Every call -/

theorem change_of_not_real (h : ¬x.Real) : s.change context len0 len1 x = s := by
  have hnot : x.b < x.a ∧ x.d < x.c := by
    simpa [Change.Real] using h
  rw [Context.change, if_pos hnot]

/-- A change is kept with those that it is near to. -/
theorem change_near (hreal : x.Real) (hvec : s.vec.length ≤ MAX_CONTEXT)
    (hnear : ∀ ptr ∈ s.vec.getLast?, ¬ptr.far context x) :
    s.change context len0 len1 x = ⟨s.vec ++ [x], s.hunks⟩ := by
  have hsome : ¬(x.b < x.a ∧ x.d < x.c) := by
    simp only [Change.Real, Bool.or_eq_true, decide_eq_true_eq] at hreal
    omega
  have hkeep : ¬((MAX_CONTEXT : ℤ) ≤ (s.vec.length : ℤ) - 1 ∨ ∃ ptr ∈ s.vec.getLast?, ptr.far context x) := by
    rintro (hfull | ⟨ptr, hptr, hfar⟩)
    · omega
    · exact hnear ptr hptr hfar
  rw [Context.change, if_neg hsome]
  simp only [if_neg hkeep]

/-- The changes before one that is far are printed. -/
theorem change_far (hreal : x.Real)
    (hlast : (first :: g).getLast? = some last) (hfar : last.far context x) :
    Context.change context len0 len1 ⟨first :: g, hunks⟩ x =
      ⟨[x], hunks ++ [.of context len0 len1 first g]⟩ := by
  have hsome : ¬(x.b < x.a ∧ x.d < x.c) := by
    simp only [Change.Real, Bool.or_eq_true, decide_eq_true_eq] at hreal
    omega
  have hdump : (MAX_CONTEXT : ℤ) ≤ ((first :: g).length : ℤ) - 1 ∨
      ∃ ptr ∈ (first :: g).getLast?, ptr.far context x := .inr ⟨last, hlast, hfar⟩
  rw [Context.change, if_neg hsome]
  dsimp only
  rw [if_pos hdump]
  rfl

/-- The calls that are about some lines do what all of them do. -/
theorem foldl_real (s : Context) (l : List Change) :
    l.foldl (Context.change context len0 len1) s =
      (l.filter Change.Real).foldl (Context.change context len0 len1) s := by
  rw [foldl_filter]
  congr 1
  funext s x
  split_ifs with hreal
  · rfl
  · exact change_of_not_real hreal

/-- Two hunks do not overlap. -/
abbrev Apart (h h' : Hunk) : Prop := h.upb < h'.lowa ∧ h.upd < h'.lowc

/-- What is done from some changes on that are kept. -/
structure Rest (context : ℤ) (len0 len1 : ℕ) (u : List Change) (first : Change) (g : List Change)
    (hunks : List Hunk) (l : List Change) (groups : List (List Change)) (hs : List Hunk) : Prop where
  printed : ((l.foldl (Context.change context len0 len1) ⟨first :: g, hunks⟩).dump context len0 len1).hunks =
    hunks ++ hs
  flatten : groups.flatten = first :: g ++ l
  exact : List.Forall₂ (Hunk.Exact (u ++ first :: g ++ l)) groups hs
  apart : hs.IsChain Apart
  head : ∀ h ∈ hs.head?, h.lowa = max 1 ((first.a : ℤ) - context) ∧
    h.lowc = max 1 ((first.c : ℤ) - context)
  slots : ∀ l', l' <+: l →
    (l'.foldl (Context.change context len0 len1) ⟨first :: g, hunks⟩).vec.length ≤ MAX_CONTEXT

/-- The next change is kept too. -/
theorem Rest.near (h : Rest context len0 len1 u first (g ++ [y]) hunks l groups hs)
    (hroom : (first :: g).length ≤ MAX_CONTEXT)
    (hkeep : Context.change context len0 len1 ⟨first :: g, hunks⟩ y = ⟨first :: (g ++ [y]), hunks⟩) :
    Rest context len0 len1 u first g hunks (y :: l) groups hs := by
  have hassoc : u ++ first :: (g ++ [y]) ++ l = u ++ first :: g ++ y :: l := by simp
  refine ⟨?_, ?_, hassoc ▸ h.exact, h.apart, h.head, fun l' hl' => ?_⟩
  · rw [foldl_cons, hkeep]
    exact h.printed
  · rw [h.flatten]
    simp
  · rcases prefix_cons_iff.1 hl' with rfl | ⟨l'', rfl, hl''⟩
    · exact hroom
    · rw [foldl_cons, hkeep]
      exact h.slots l'' hl''

/-- The changes that are kept are printed before the next one. -/
theorem Rest.far
    {hunk : Hunk} (h : Rest context len0 len1 (u ++ first :: g) y [] (hunks ++ [hunk]) l groups hs)
    (hroom : (first :: g).length ≤ MAX_CONTEXT)
    (hflush : Context.change context len0 len1 ⟨first :: g, hunks⟩ y = ⟨[y], hunks ++ [hunk]⟩)
    (hext : hunk.Exact (u ++ first :: g ++ y :: l) (first :: g))
    (hlow : hunk.lowa = max 1 ((first.a : ℤ) - context) ∧ hunk.lowc = max 1 ((first.c : ℤ) - context))
    (hup : hunk.upb < (y.a : ℤ) - context ∧ hunk.upd < (y.c : ℤ) - context) :
    Rest context len0 len1 u first g hunks (y :: l) ((first :: g) :: groups) (hunk :: hs) := by
  have hassoc : u ++ first :: g ++ [y] ++ l = u ++ first :: g ++ y :: l := by simp
  refine ⟨?_, ?_, .cons hext (hassoc ▸ h.exact), ?_, ?_, fun l' hl' => ?_⟩
  · rw [foldl_cons, hflush, h.printed, append_assoc, singleton_append]
  · rw [flatten_cons, h.flatten]
    simp
  · refine isChain_cons.2 ⟨fun h' hh' => ?_, h.apart⟩
    have hhead := h.head h' hh'
    rw [Apart]
    omega
  · rintro h' ⟨⟩
    exact hlow
  · rcases prefix_cons_iff.1 hl' with rfl | ⟨l'', rfl, hl''⟩
    · exact hroom
    · rw [foldl_cons, hflush]
      exact h.slots l'' hl''

theorem changes_rest (hunks : List Hunk)
    (h : Ascending len0 len1 p q (u ++ first :: g ++ l)) (hreal : ∀ x ∈ first :: g ++ l, x.Real)
    (h0 : 0 ≤ context) (hfits : 2 * context + max len0 len1 < 2147483647)
    (hsht : ∀ l', l' <:+: first :: g ++ l → l'.IsChain (Near context) → l'.length ≤ MAX_CONTEXT)
    (hnear : (first :: g).IsChain (Near context))
    (hu : ∀ x ∈ u, (x.b : ℤ) + 2 * context < first.a ∧ (x.d : ℤ) + 2 * context < first.c) :
    ∃ groups hs, Rest context len0 len1 u first g hunks l groups hs := by
  induction l generalizing u first g hunks with
  | nil =>
    have hroom := hsht _ (infix_append [] (first :: g) []) hnear
    have hmem : ∀ x ∈ first :: g, x ∈ u ++ first :: g ++ [] := fun x hx =>
      mem_append_left _ (mem_append_right _ hx)
    have hrng := hunk_range h hmem h0 hfits rfl
    refine ⟨[first :: g], [.of context len0 len1 first g], rfl, by simp, ?_, .singleton _, ?_, ?_⟩
    · refine .cons (hunk_exact h (fun x hx => hreal x (mem_append_left _ hx)) h0 hfits hu ?_) .nil
      exact fun y hy => absurd hy not_mem_nil
    · rintro h' ⟨⟩
      exact ⟨hrng.1, hrng.2.2.1⟩
    · intro l' hl'
      obtain rfl := prefix_nil.1 hl'
      exact hroom
  | cons y l ih =>
    have hroom := hsht _ (infix_append [] (first :: g) (y :: l)) hnear
    have hrealy : y.Real := hreal y (by simp)
    have hmem : ∀ x ∈ first :: g, x ∈ u ++ first :: g ++ y :: l := fun x hx =>
      mem_append_left _ (mem_append_right _ hx)
    generalize hg : (first :: g).getLast (cons_ne_nil first g) = last
    have hlast : (first :: g).getLast? = some last := by
      rw [getLast?_eq_getLast_of_ne_nil (cons_ne_nil first g), hg]
    have hbnd := h.bounds last (hmem last (mem_of_getLast? hlast))
    have hpair := (pairwise_append.1 h.pairwise)
    have heven : (y.a : ℤ) - last.b = y.c - last.d := by
      have heven := h.even
      rw [append_assoc] at heven
      exact (isChain_append.1 (isChain_append.1 heven).2.1).2.2 last hlast y rfl
    have hfar := far_iff h0 ⟨hbnd.2.2.1, hbnd.2.2.2.2.2⟩ hfits heven
    by_cases hnear' : Near context last y
    · have hassoc : u ++ first :: (g ++ [y]) ++ l = u ++ first :: g ++ y :: l := by simp
      have hassoc' : first :: (g ++ [y]) ++ l = first :: g ++ y :: l := by simp
      have hchn : (first :: (g ++ [y])).IsChain (Near context) := by
        rw [← cons_append]
        refine isChain_append.2 ⟨hnear, .singleton y, fun x hx z hz => ?_⟩
        obtain rfl := Option.some_inj.1 (hlast.symm.trans hx)
        cases hz
        exact hnear'
      have hkeep : Context.change context len0 len1 ⟨first :: g, hunks⟩ y = ⟨first :: (g ++ [y]), hunks⟩ :=
        change_near hrealy hroom fun ptr hptr hptr' => by
          obtain rfl := Option.some_inj.1 (hlast.symm.trans hptr)
          exact hfar.1 hptr' hnear'
      obtain ⟨groups, hs, hrs⟩ := ih hunks (hassoc ▸ h) (hassoc' ▸ hreal) (hassoc' ▸ hsht) hchn hu
      exact ⟨groups, hs, hrs.near hroom hkeep⟩
    · have hassoc : u ++ first :: g ++ [y] ++ l = u ++ first :: g ++ y :: l := by simp
      have hgap : (last.b : ℤ) + 2 * context < y.a ∧ (last.d : ℤ) + 2 * context < y.c := by
        rw [Near] at hnear'
        omega
      have hlast' : (u ++ first :: g).getLast? = some last := by
        rw [getLast?_append_of_ne_nil _ (cons_ne_nil first g), hlast]
      have hlower := h.le_last hlast'
      have hupper := h.first_le
      have hext := hunk_exact h (fun x hx => hreal x (mem_append_left _ hx)) h0 hfits hu
        fun z hz ptr hptr => by
          obtain rfl := Option.some_inj.1 (hlast.symm.trans hptr)
          have := hupper z hz
          omega
      have hrng := hunk_range h hmem h0 hfits hg
      have hreal' : ∀ x ∈ y :: [] ++ l, x.Real := fun x hx =>
        hreal x (mem_append_right (first :: g) hx)
      have hsht' : ∀ l', l' <:+: y :: [] ++ l → l'.IsChain (Near context) → l'.length ≤ MAX_CONTEXT :=
        fun l' hl' => hsht l' (hl'.trans (suffix_append (first :: g) (y :: l)).isInfix)
      have hu' : ∀ x ∈ u ++ first :: g, (x.b : ℤ) + 2 * context < y.a ∧ (x.d : ℤ) + 2 * context < y.c := by
        intro x hx
        have := hlower x hx
        omega
      obtain ⟨groups, hs, hrs⟩ := ih (hunks ++ [.of context len0 len1 first g]) (hassoc ▸ h) hreal'
        hsht' (.singleton y) hu'
      refine ⟨_, _, hrs.far hroom (change_far hrealy hlast (hfar.2 hnear')) hext
        ⟨hrng.1, hrng.2.2.1⟩ ?_⟩
      omega

/-! ### The condition -/

/-- Where there is always room, a row of changes near to each other is kept. -/
theorem length_le_of_near {l : List Change}
    (h0 : 0 ≤ context) (hfits : 2 * context + max len0 len1 < 2147483647)
    (hl : ∀ x ∈ first :: l, x.Real ∧ x.b ≤ len0 ∧ x.d ≤ len1)
    (heven : (first :: l).IsChain fun x y => (y.a : ℤ) - x.b = y.c - x.d)
    (hnear : (first :: l).IsChain (Near context)) (hlast : s.vec.getLast? = some first)
    (hroom : ∀ l', l' <+: l → (l'.foldl (Context.change context len0 len1) s).vec.length ≤ MAX_CONTEXT) :
    (l.foldl (Context.change context len0 len1) s).vec.length = s.vec.length + l.length := by
  induction l generalizing first s with
  | nil => rfl
  | cons y l ih =>
    obtain ⟨hfst, hl⟩ := forall_mem_cons.1 hl
    obtain ⟨heven1, heven⟩ := isChain_cons_cons.1 heven
    obtain ⟨hnear1, hnear⟩ := isChain_cons_cons.1 hnear
    have hkeep : s.change context len0 len1 y = ⟨s.vec ++ [y], s.hunks⟩ := by
      refine change_near (hl y mem_cons_self).1 (hroom [] ( nil_prefix)) fun ptr hptr hfar => ?_
      obtain rfl := Option.some_inj.1 (hlast.symm.trans hptr)
      exact (far_iff h0 hfst.2 hfits heven1).1 hfar hnear1
    have hih := ih (s := ⟨s.vec ++ [y], s.hunks⟩) hl heven hnear getLast?_concat fun l' hl' => by
      have := hroom (y :: l') (cons_prefix_cons.2 ⟨rfl, hl'⟩)
      rwa [foldl_cons, hkeep] at this
    rw [foldl_cons, hkeep, hih, length_append, length_cons, length_cons, length_nil]
    omega

/-- The last change of those that were kept. -/
theorem getLast?_change (hreal : x.Real) : (s.change context len0 len1 x).vec.getLast? = some x := by
  have hsome : ¬(x.b < x.a ∧ x.d < x.c) := by
    simp only [Change.Real, Bool.or_eq_true, decide_eq_true_eq] at hreal
    omega
  rw [Context.change, if_neg hsome]
  exact getLast?_concat

theorem short_of_room (h0 : 0 ≤ context) (hfits : 2 * context + max len0 len1 < 2147483647)
    (h : Ascending len0 len1 p q cs)
    (hroom : ∀ l, l <+: cs → (Context.changes context len0 len1 l).vec.length ≤ MAX_CONTEXT) :
    Short context cs := by
  intro l hl hnear
  obtain ⟨u, v, huv⟩ := hl
  cases l with
  | nil => exact Nat.zero_le _
  | cons x l =>
    have hreal := h.real
    rw [← huv] at hreal
    have hmem : ∀ y ∈ x :: l, y ∈ cs.filter Change.Real := fun y hy => by
      rw [← huv]
      exact mem_append_left _ (mem_append_right _ hy)
    have hroom' : ∀ l', l' <+: u ++ x :: l →
        (l'.foldl (Context.change context len0 len1) ⟨[], []⟩).vec.length ≤ MAX_CONTEXT := by
      intro l' hl'
      have hpre : l' <+: cs.filter Change.Real := huv ▸ hl'.trans (prefix_append _ v)
      obtain ⟨l'', hl'', rfl⟩ := prefix_filter_iff.1 hpre
      rw [← foldl_real]
      exact hroom l'' hl''
    have hlast : ((u ++ [x]).foldl (Context.change context len0 len1) ⟨[], []⟩).vec.getLast? = some x := by
      rw [foldl_append]
      exact getLast?_change (mem_filter.1 (hmem x mem_cons_self)).2
    have hlines : ∀ y ∈ x :: l, y.Real ∧ y.b ≤ len0 ∧ y.d ≤ len1 := fun y hy => by
      have := hreal.bounds y (huv ▸ hmem y hy)
      exact ⟨(mem_filter.1 (hmem y hy)).2, this.2.2.1, this.2.2.2.2.2⟩
    have heven := hreal.even
    rw [append_assoc] at heven
    have hroom'' : ∀ l', l' <+: l → (l'.foldl (Context.change context len0 len1)
        ((u ++ [x]).foldl (Context.change context len0 len1) ⟨[], []⟩)).vec.length ≤ MAX_CONTEXT := by
      intro l' hl'
      rw [← foldl_append, append_assoc]
      exact hroom' _ (prefix_append_right_inj u |>.2 (cons_prefix_cons.2 ⟨rfl, hl'⟩))
    have hlen := length_le_of_near h0 hfits hlines
      (isChain_append.1 (isChain_append.1 heven).2.1).1 hnear hlast hroom''
    have hpos := length_pos_of_mem (mem_of_getLast? hlast)
    have hle := hroom'' l (prefix_refl l)
    rw [hlen] at hle
    rw [length_cons]
    omega

/-- Where no sum overflows, a context diff is exact if and only if no more changes than there is room for
    are each near to the one before. -/
theorem contextDiff_exact_iff (h0 : 0 ≤ context) (hfits : 2 * context + max len0 len1 < 2147483647)
    (h : Ascending len0 len1 0 0 cs) : Exact context len0 len1 cs ↔ Short context cs := by
  refine ⟨fun hext => short_of_room h0 hfits h hext.slots, fun hsht => ?_⟩
  have hreal := h.real
  have hslot : ∀ l, l <+: cs → ∃ l', l' <+: cs.filter Change.Real ∧
      Context.changes context len0 len1 l = l'.foldl (Context.change context len0 len1) ⟨[], []⟩ :=
    fun l hl => ⟨l.filter Change.Real, hl.filter _, foldl_real ⟨[], []⟩ l⟩
  have hdiff : contextDiff context len0 len1 cs = (((cs.filter Change.Real).foldl
      (Context.change context len0 len1) ⟨[], []⟩).dump context len0 len1).hunks := by
    rw [contextDiff, Context.changes, foldl_real]
  have hall : ∀ x ∈ cs.filter Change.Real, x.Real := fun x hx => (mem_filter.1 hx).2
  rw [Short] at hsht
  generalize hcs : cs.filter Change.Real = rs at hreal hslot hdiff hall hsht
  cases rs with
  | nil =>
    have hnil : contextDiff context len0 len1 cs = [] := hdiff
    refine ⟨fun l hl => ?_, ⟨[], hcs.symm, ?_⟩, ?_⟩
    · obtain ⟨l', hl', heq⟩ := hslot l hl
      rw [heq, prefix_nil.1 hl']
      exact Nat.zero_le _
    · rw [hnil]
      exact .nil
    · rw [hnil]
      exact .nil
  | cons first l =>
    have hkeep : Context.change context len0 len1 ⟨[], []⟩ first = ⟨[first], []⟩ :=
      change_near (hall first mem_cons_self) (Nat.zero_le _) fun ptr hptr => by cases hptr
    obtain ⟨groups, hs, hrs⟩ := changes_rest (u := []) (g := []) [] hreal hall h0 hfits hsht
      (.singleton first) fun x hx => absurd hx not_mem_nil
    have hhunks : contextDiff context len0 len1 cs = hs := by
      rw [hdiff, foldl_cons, hkeep]
      exact hrs.printed
    refine ⟨fun l' hl' => ?_, ⟨groups, hrs.flatten.trans hcs.symm, ?_⟩, ?_⟩
    · obtain ⟨l'', hl'', heq⟩ := hslot l' hl'
      rw [heq]
      rcases prefix_cons_iff.1 hl'' with rfl | ⟨l1, rfl, hl1⟩
      · exact Nat.zero_le _
      · rw [foldl_cons, hkeep]
        exact hrs.slots l1 hl1
    · rw [hhunks, hcs]
      exact hrs.exact
    · rw [hhunks]
      exact hrs.apart

end Calls

/-! ### The calls of `output` -/

section Output

variable {α : Type*} {old new : List α} {J : ℕ → ℕ} {p : ℕ}

theorem outputUp_ascending (fuel : ℕ) (h : Ahead old new J p) (hfuel : old.length ≤ p + fuel)
    (hfuel' : old.length = p + fuel → p < old.length → J (p + 1) = J p + 1) :
    Ascending old.length new.length p (J p) (outputUp old.length fuel (p + 1) J) := by
  induction fuel generalizing p J with
  | zero => exact .nil
  | succ fuel ih =>
    by_cases hp : p + 1 ≤ old.length
    · obtain ⟨n, i1, J', hout, hge, hi1, hmch, hle, hbnd, hahead, -, hpro, hnx⟩ :=
        outputUp_succ fuel h hp hfuel fun hlast => hfuel' hlast hp
      have hJ : ∀ k, k ≤ n → J (p + k) = J p + k := by
        intro k hk
        induction k with
        | zero => rfl
        | succ k ihk =>
          rw [hmch (p + (k + 1)) (by omega) (by omega), ← add_assoc, Nat.add_sub_cancel,
            ihk (Nat.le_of_succ_le hk), add_assoc]
      rw [hout, hJ n le_rfl] at *
      exact .cons hge hi1 hle hbnd (ih hahead hpro fun _ _ => hnx)
    · rw [outputUp, if_neg hp]
      exact .nil

/-- The calls that `output` makes, when it goes up. -/
theorem output_ascending (h : Matched old new J) :
    Ascending old.length new.length 0 0 (output old.length new.length false J) := by
  rcases Nat.eq_zero_or_pos old.length with hzero | hpos
  · obtain rfl := eq_nil_of_length_eq_zero hzero
    exact .cons (p := 0) (q := 0) (n := 0) le_rfl le_rfl (Nat.zero_le _) le_rfl .nil
  · have hout : output old.length new.length false J =
        outputUp old.length (old.length + 1) 1 (sentinels J old.length new.length) := by
      rw [output, if_neg hpos.ne', append_nil]
      rfl
    have hup := outputUp_ascending (old.length + 1) h.ahead (by omega) fun heq => absurd heq (by omega)
    rw [sentinels_zero] at hup
    rw [hout]
    exact hup

theorem output_ascending_two : Ascending 2 3 0 0 (output 2 3 false fun i => if i = 2 then 3 else 0) :=
  have h : Matched [1, 2] [3, 4, 2] fun i => if i = 2 then 3 else 0 :=
    ⟨⟨fun i _ _ => by split_ifs <;> decide, fun i i' _ hlt hle h h' => by simp at h h'; omega⟩, fun i _ _ h => by
      obtain rfl : i = 2 := by simpa using h
      rfl⟩
  output_ascending h

end Output

/-! ### A row of changes -/

/-- A change of every second line from line `p + 2` on. -/
def rows : ℕ → ℕ → List Change
  | 0, _ => []
  | n + 1, p => ⟨p + 2, p + 2, p + 2, p + 2⟩ :: rows n (p + 2)

theorem rows_ascending {len : ℕ} (n p : ℕ) (h : p + 2 * n ≤ len) : Ascending len len p p (rows n p) := by
  induction n generalizing p with
  | zero => exact .nil
  | succ n ih =>
    exact .cons (n := 1) (Nat.le_succ (p + 1)) (by omega) (Nat.le_succ (p + 1)) (by omega)
      (ih (p + 2) (by omega))

theorem rows_near (n p : ℕ) : (rows n p).IsChain (Near 3) := by
  induction n generalizing p with
  | zero => exact .nil
  | succ n ih =>
    cases n with
    | zero => exact .singleton _
    | succ n =>
      refine isChain_cons_cons.2 ⟨?_, ih (p + 2)⟩
      rw [Near]
      push_cast
      omega

theorem rows_length (n p : ℕ) : (rows n p).length = n := by
  induction n generalizing p with
  | zero => rfl
  | succ n ih => rw [rows, length_cons, ih]

theorem rows_real (n p : ℕ) : (rows n p).filter Change.Real = rows n p := by
  induction n generalizing p with
  | zero => rfl
  | succ n ih =>
    rw [rows, filter_cons_of_pos (by simp [Change.Real]), ih]

/-- A context diff of a hundred changes is exact. -/
theorem contextDiff_exact_iff_hundred : Exact 3 300 300 (rows 100 0) :=
  (contextDiff_exact_iff (by decide) (by decide) (rows_ascending 100 0 (by decide))).2 fun l hl _ => by
    have := hl.length_le
    rw [rows_real, rows_length] at this
    exact this.trans (by decide)

/-- One of 129 changes is not. -/
theorem contextDiff_full : ¬∀ (context : ℤ) (len0 len1 : ℕ) (changes : List Change), 0 ≤ context →
    Ascending len0 len1 0 0 changes → Exact context len0 len1 changes := by
  intro h
  have hasc := @rows_ascending 300 129 0 (by decide)
  have hsht := short_of_room (by decide) (by decide) hasc (h 3 300 300 (rows 129 0) (by decide) hasc).slots
  have := hsht (rows 129 0) (by rw [rows_real]) (rows_near 129 0)
  rw [rows_length] at this
  exact absurd this (by decide)

end Uwisc.Diff
