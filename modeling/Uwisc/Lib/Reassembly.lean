import Mathlib.Data.List.Basic
import Mathlib.Order.Interval.Set.LinearOrder
import Uwisc.Lib.Cover

/-!
# Reassembly of a stream from overlapping pieces

A piece of a stream holds the bytes from a position on. A queue keeps the pieces
that have arrived, sorted and disjoint; a piece that arrives is put in its place
(`insert`): the piece before it cuts off what it already holds, and the pieces
after it are cut, or dropped, where the new one holds their bytes. From the
start of the queue, the pieces that follow each other can be delivered
(`deliver`).

* `insert_sorted`, `insert_covers`: the queue stays sorted and disjoint, and
  holds what it held and what arrived;
* `insert_forall`: a property that cutting a piece keeps is kept;
* `deliver_spec`, `deliver_data`: what is delivered is the stream up to the first missing byte;
* `deliver_all_iff`: everything can be delivered exactly if no byte is missing.
-/

namespace Uwisc.Lib

open List

/-- A piece of a stream: the data from the position `pos` on, and a tag. -/
structure Piece (α τ : Type*) where
  pos : ℕ
  data : List α
  tag : τ

namespace Piece

variable {α τ : Type*}

/-- The position after the piece. -/
def fin (p : Piece α τ) : ℕ := p.pos + p.data.length

/-- The positions the piece holds. -/
def span (p : Piece α τ) : Set ℕ := Set.Ico p.pos p.fin

/-- The piece without its first `i` data. -/
def cut (p : Piece α τ) (i : ℕ) : Piece α τ := { p with pos := p.pos + i, data := p.data.drop i }

@[simp] theorem cut_pos (p : Piece α τ) (i : ℕ) : (p.cut i).pos = p.pos + i := rfl

@[simp] theorem cut_tag (p : Piece α τ) (i : ℕ) : (p.cut i).tag = p.tag := rfl

theorem cut_fin (p : Piece α τ) {i : ℕ} (h : i ≤ p.data.length) : (p.cut i).fin = p.fin := by
  simp only [fin, cut, length_drop]
  omega

/-- The piece holds the data of the stream `S`. -/
def Agrees (S : ℕ → α) (p : Piece α τ) : Prop :=
  p.data = (range' p.pos p.data.length).map S

theorem Agrees.cut {S : ℕ → α} {p : Piece α τ} (h : p.Agrees S) (i : ℕ) : (p.cut i).Agrees S := by
  have hdrop : p.data.drop i = ((range' p.pos p.data.length).map S).drop i := congrArg _ h
  rw [← map_drop, drop_range', Nat.mul_one] at hdrop
  simpa [Agrees, Piece.cut] using hdrop

/-- Sorted and disjoint. -/
def Sorted (q : List (Piece α τ)) : Prop := q.Pairwise fun a b => a.fin ≤ b.pos

/-- Cuts or drops the pieces of a queue that overlap the piece `x` before them. -/
def trim (x : Piece α τ) : List (Piece α τ) → List (Piece α τ)
  | [] => []
  | p :: q =>
    if x.fin ≤ p.pos then p :: q
    else if x.fin < p.fin then p.cut (x.fin - p.pos) :: q
    else trim x q

/-- Puts the piece `x` in its place in the queue. -/
def insert (x : Piece α τ) (q : List (Piece α τ)) : List (Piece α τ) :=
  let pre := q.takeWhile fun p => p.pos ≤ x.pos
  let suf := q.dropWhile fun p => p.pos ≤ x.pos
  match pre.getLast? with
  | none => x :: trim x suf
  | some p =>
    if p.fin ≤ x.pos then pre ++ x :: trim x suf
    else if x.fin ≤ p.fin then q
    else pre ++ x.cut (p.fin - x.pos) :: trim x suf

/-- Delivers the pieces from the position `n` on that follow each other: the
    position reached, what is delivered, and the rest of the queue. -/
def deliver (n : ℕ) : List (Piece α τ) → ℕ × List (Piece α τ) × List (Piece α τ)
  | [] => (n, [], [])
  | p :: q =>
    if p.pos = n then
      let r := deliver p.fin q
      (r.1, p :: r.2.1, r.2.2)
    else (n, [], p :: q)

/-! ### Trimming -/

variable {x p : Piece α τ} {q : List (Piece α τ)}

/-- Trimming depends only on where the piece ends. -/
theorem trim_congr {y : Piece α τ} (h : x.fin = y.fin) : trim x = trim y := by
  funext q
  induction q with
  | nil => rfl
  | cons p q ih => simp only [trim, h, ih]

theorem fin_le_of_sorted (h : Sorted (p :: q)) : ∀ b ∈ q, p.fin ≤ b.pos :=
  (pairwise_cons.1 h).1

/-- What trimming leaves starts after `x` ends. -/
theorem le_pos_of_mem_trim (hq : Sorted q) : ∀ b ∈ trim x q, x.fin ≤ b.pos := by
  induction q with
  | nil => simp [trim]
  | cons p q ih =>
    have hp := fin_le_of_sorted hq
    rw [trim]
    split_ifs with h1 h2
    · refine forall_mem_cons.2 ⟨h1, fun b hb => ?_⟩
      have := hp b hb
      simp only [fin] at this h1 ⊢
      omega
    · refine forall_mem_cons.2 ⟨?_, fun b hb => h2.le.trans (hp b hb)⟩
      rw [cut_pos]
      omega
    · exact ih (pairwise_cons.1 hq).2

theorem trim_sorted (hq : Sorted q) : Sorted (trim x q) := by
  induction q with
  | nil => exact hq
  | cons p q ih =>
    have hp := fin_le_of_sorted hq
    have hq' : Sorted q := (pairwise_cons.1 hq).2
    rw [trim]
    split_ifs with h1 h2
    · exact hq
    · refine pairwise_cons.2 ⟨fun b hb => ?_, hq'⟩
      rw [cut_fin _ (by simp only [fin] at *; omega)]
      exact hp b hb
    · exact ih hq'

/-- What trimming drops, `x` holds. -/
theorem trim_covers (hpos : ∀ b ∈ q, x.pos ≤ b.pos) :
    x.span ∪ cover span (trim x q) = x.span ∪ cover span q := by
  induction q with
  | nil => simp [trim]
  | cons p q ih =>
    have hp := hpos p mem_cons_self
    have ih := ih fun b hb => hpos b (mem_cons_of_mem _ hb)
    rw [trim]
    split_ifs with h1 h2
    · rfl
    · have hcut : (p.cut (x.fin - p.pos)).fin = p.fin := cut_fin _ (by simp only [fin] at *; omega)
      ext u
      simp only [cover_cons, span, Set.mem_union, Set.mem_Ico, cut_pos, hcut]
      grind
    · rw [ih]
      ext u
      simp only [cover_cons, span, Set.mem_union, Set.mem_Ico]
      grind

/-- A property that cutting keeps is kept by trimming. -/
theorem trim_forall {R : Piece α τ → Prop} (hcut : ∀ p i, R p → i < p.data.length → R (p.cut i))
    (hq : ∀ b ∈ q, R b) : ∀ b ∈ trim x q, R b := by
  induction q with
  | nil => simp [trim]
  | cons p q ih =>
    obtain ⟨hp, hq⟩ := forall_mem_cons.1 hq
    rw [trim]
    split_ifs with h1 h2
    · exact forall_mem_cons.2 ⟨hp, hq⟩
    · exact forall_mem_cons.2 ⟨hcut p _ hp (by simp only [fin] at *; omega), hq⟩
    · exact ih hq

/-! ### Insertion -/

/-- The place of a piece in a queue: the pieces at or before its position, and
    those after it. -/
theorem exists_place (x : Piece α τ) (hq : Sorted q) :
    ∃ pre suf, q = pre ++ suf ∧ (q.takeWhile fun p => p.pos ≤ x.pos) = pre ∧
      (q.dropWhile fun p => p.pos ≤ x.pos) = suf ∧ (∀ p ∈ pre, p.pos ≤ x.pos) ∧
      ∀ p ∈ suf, x.pos < p.pos := by
  induction q with
  | nil => exact ⟨[], [], rfl, rfl, rfl, by simp, by simp⟩
  | cons p q ih =>
    by_cases hp : p.pos ≤ x.pos
    · obtain ⟨pre, suf, hps, htake, hdrop, hpre, hsuf⟩ := ih (pairwise_cons.1 hq).2
      refine ⟨p :: pre, suf, by rw [hps, cons_append], ?_, ?_, forall_mem_cons.2 ⟨hp, hpre⟩, hsuf⟩
      · rw [takeWhile_cons_of_pos (by simpa using hp), htake]
      · rw [dropWhile_cons_of_pos (by simpa using hp), hdrop]
    · refine ⟨[], p :: q, rfl, ?_, ?_, by simp, ?_⟩
      · rw [takeWhile_cons_of_neg (by simpa using hp)]
      · rw [dropWhile_cons_of_neg (by simpa using hp)]
      · refine forall_mem_cons.2 ⟨not_le.1 hp, fun b hb => ?_⟩
        have := fin_le_of_sorted hq b hb
        simp only [fin] at this
        omega

/-- The three ways a piece goes into a queue. -/
theorem insert_cases (x : Piece α τ) (hq : Sorted q) :
    ∃ pre suf, q = pre ++ suf ∧ (∀ p ∈ pre, p.pos ≤ x.pos) ∧ (∀ p ∈ suf, x.pos < p.pos) ∧
      ((∀ p ∈ pre, p.fin ≤ x.pos) ∧ insert x q = pre ++ x :: trim x suf ∨
        ∃ p ∈ pre, x.pos < p.fin ∧ (∀ b ∈ pre, b.fin ≤ p.fin) ∧ (x.fin ≤ p.fin ∧ insert x q = q ∨
            p.fin < x.fin ∧ insert x q = pre ++ x.cut (p.fin - x.pos) :: trim x suf)) := by
  obtain ⟨pre, suf, hps, htake, hdrop, hpre, hsuf⟩ := exists_place x hq
  refine ⟨pre, suf, hps, hpre, hsuf, ?_⟩
  have hs := hps ▸ hq
  rw [insert, htake, hdrop]
  rcases eq_nil_or_concat pre with rfl | ⟨l, p, hl⟩
  · exact .inl ⟨by simp, rfl⟩
  · rw [concat_eq_append] at hl
    subst hl
    have hmax : ∀ b ∈ l ++ [p], b.fin ≤ p.fin := by
      intro b hb
      rcases mem_append.1 hb with hb | hb
      · have := (pairwise_append.1 (pairwise_append.1 hs).1).2.2 b hb p (by simp)
        simp only [fin] at this ⊢
        omega
      · rw [mem_singleton.1 hb]
    simp only [getLast?_append, getLast?_singleton, Option.some_or]
    by_cases h1 : p.fin ≤ x.pos
    · exact .inl ⟨fun b hb => (hmax b hb).trans h1, if_pos h1⟩
    · refine .inr ⟨p, by simp, not_le.1 h1, hmax, ?_⟩
      rw [if_neg h1]
      by_cases h2 : x.fin ≤ p.fin
      · exact .inl ⟨h2, if_pos h2⟩
      · exact .inr ⟨not_le.1 h2, if_neg h2⟩

/-- A queue with a piece in its place is sorted and disjoint. -/
theorem sorted_place {pre suf : List (Piece α τ)} (hs : Sorted (pre ++ suf))
    (hpre : ∀ p ∈ pre, p.fin ≤ x.pos) : Sorted (pre ++ x :: trim x suf) := by
  obtain ⟨h1, h2, -⟩ := pairwise_append.1 hs
  have hle := le_pos_of_mem_trim (x := x) h2
  refine pairwise_append.2 ⟨h1, pairwise_cons.2 ⟨hle, trim_sorted h2⟩, fun a ha => ?_⟩
  refine forall_mem_cons.2 ⟨hpre a ha, fun b hb => ?_⟩
  have := hpre a ha
  have := hle b hb
  simp only [fin] at *
  omega

theorem insert_sorted (x : Piece α τ) (hq : Sorted q) : Sorted (insert x q) := by
  obtain ⟨pre, suf, rfl, -, hsuf, ⟨hpre, h⟩ | ⟨p, -, hlt, hmax, ⟨-, h⟩ | ⟨hx, h⟩⟩⟩ := insert_cases x hq
  · exact h ▸ sorted_place hq hpre
  · rwa [h]
  · rw [h]
    have hfin : (x.cut (p.fin - x.pos)).fin = x.fin := cut_fin _ (by simp only [fin] at *; omega)
    rw [← trim_congr hfin]
    refine sorted_place hq fun b hb => ?_
    rw [cut_pos]
    have := hmax b hb
    omega

/-- The queue holds what it held, and what arrived. -/
theorem insert_covers (x : Piece α τ) (hq : Sorted q) :
    cover span (insert x q) = cover span q ∪ x.span := by
  obtain ⟨pre, suf, rfl, hpos, hsuf, ⟨hpre, h⟩ | ⟨p, hp, hlt, -, ⟨hx, h⟩ | ⟨hx, h⟩⟩⟩ :=
    insert_cases x hq
  · have htrim := trim_covers (x := x) fun b hb => (hsuf b hb).le
    rw [h, cover_append, cover_cons, htrim, cover_append]
    ext u
    simp only [Set.mem_union]
    tauto
  · rw [h, eq_comm, Set.union_eq_left]
    refine Set.Subset.trans (fun u hu => ?_) (subset_cover (f := span) (mem_append_left _ hp))
    have := hpos p hp
    simp only [span, Set.mem_Ico] at hu ⊢
    omega
  · have htrim := trim_covers (x := x) fun b hb => (hsuf b hb).le
    have hfin : (x.cut (p.fin - x.pos)).fin = x.fin := cut_fin _ (by simp only [fin] at *; omega)
    have hppos := hpos p hp
    rw [h, cover_append, cover_cons, cover_append]
    ext u
    have hu := Set.ext_iff.1 htrim u
    have hpu : u ∈ p.span → u ∈ cover span pre := fun h => subset_cover (f := span) hp h
    simp only [span, Set.mem_union, Set.mem_Ico, cut_pos, hfin] at hu hpu ⊢
    grind

/-- A property that cutting keeps is kept by insertion. -/
theorem insert_forall {R : Piece α τ → Prop} (hcut : ∀ p i, R p → i < p.data.length → R (p.cut i))
    (hsor : Sorted q) (hx : R x) (hq : ∀ b ∈ q, R b) : ∀ b ∈ insert x q, R b := by
  obtain ⟨pre, suf, rfl, -, -, ⟨-, h⟩ | ⟨p, -, hlt, -, ⟨-, h⟩ | ⟨hx', h⟩⟩⟩ := insert_cases x hsor
  all_goals
    rw [h]
    obtain ⟨hpre, hsuf⟩ := forall_mem_append.1 hq
  · exact forall_mem_append.2 ⟨hpre, forall_mem_cons.2 ⟨hx, trim_forall hcut hsuf⟩⟩
  · exact hq
  · refine forall_mem_append.2 ⟨hpre, forall_mem_cons.2 ⟨?_, trim_forall hcut hsuf⟩⟩
    exact hcut x _ hx (by simp only [fin] at *; omega)

/-! ### Delivery -/

/-- Delivering splits the queue; the rest of it starts after the position reached. -/
theorem deliver_spec (n : ℕ) (hq : Sorted q) (hn : ∀ p ∈ q, n ≤ p.pos) :
    let r := deliver n q
    n ≤ r.1 ∧ q = r.2.1 ++ r.2.2 ∧ ∀ p ∈ r.2.2, r.1 < p.pos := by
  induction q generalizing n with
  | nil => simp [deliver]
  | cons p q ih =>
    have hp := fin_le_of_sorted hq
    rw [deliver]
    split_ifs with h
    · subst h
      obtain ⟨hle, hqr, hrs⟩ := ih p.fin (pairwise_cons.1 hq).2 hp
      exact ⟨(Nat.le_add_right _ _ : p.pos ≤ p.fin).trans hle, by simpa using hqr, hrs⟩
    · refine ⟨le_rfl, rfl, forall_mem_cons.2 ⟨?_, fun b hb => ?_⟩⟩
      · have := hn p mem_cons_self
        omega
      · have := hn p mem_cons_self
        have := hp b hb
        simp only [fin] at this
        omega

/-- What is delivered from the position `n` is the stream up to the position reached. -/
theorem deliver_data {S : ℕ → α} (n : ℕ) (hq : Sorted q) (hn : ∀ p ∈ q, n ≤ p.pos)
    (hS : ∀ p ∈ q, p.Agrees S) :
    (deliver n q).2.1.flatMap data = (range' n ((deliver n q).1 - n)).map S := by
  induction q generalizing n with
  | nil => simp [deliver]
  | cons p q ih =>
    obtain ⟨hSp, hS⟩ := forall_mem_cons.1 hS
    have hp := fin_le_of_sorted hq
    have hq' : Sorted q := (pairwise_cons.1 hq).2
    rw [deliver]
    split_ifs with h
    · subst h
      have hle := (deliver_spec p.fin hq' hp).1
      have hlen : (deliver p.fin q).1 - p.pos = p.data.length + ((deliver p.fin q).1 - p.fin) := by
        simp only [fin] at *
        omega
      simp only [flatMap_cons]
      rw [ih p.fin hq' hp hS, hSp, ← map_append, hlen, ← range'_append_1]
      rfl
    · simp

/-- The pieces delivered hold the positions passed. -/
theorem deliver_covers (n : ℕ) (hq : Sorted q) (hn : ∀ p ∈ q, n ≤ p.pos) :
    cover span (deliver n q).2.1 = Set.Ico n (deliver n q).1 := by
  induction q generalizing n with
  | nil => simp [deliver]
  | cons p q ih =>
    have hp := fin_le_of_sorted hq
    have hq' : Sorted q := (pairwise_cons.1 hq).2
    rw [deliver]
    split_ifs with h
    · subst h
      have hle := (deliver_spec p.fin hq' hp).1
      rw [cover_cons, ih _ hq' hp, span]
      exact Set.Ico_union_Ico_eq_Ico (Nat.le_add_right _ _) hle
    · simp

/-- If the whole queue is delivered, the position reached is the end of its last piece. -/
theorem deliver_fin (n : ℕ) (hall : (deliver n q).2.2 = []) {last : Piece α τ}
    (hlast : q.getLast? = some last) : (deliver n q).1 = last.fin := by
  induction q generalizing n with
  | nil => simp at hlast
  | cons p q ih =>
    rw [deliver] at hall ⊢
    split_ifs at hall ⊢ with h
    cases q with
    | nil =>
      obtain rfl : p = last := by simpa using hlast
      rfl
    | cons b q => exact ih p.fin hall (by simpa using hlast)

/-- A queue of pieces up to the position `m` is delivered up to it exactly if no
    position is missing. -/
theorem deliver_all_iff {n m : ℕ} (hq : Sorted q) (hn : ∀ p ∈ q, n ≤ p.pos)
    (hm : ∀ p ∈ q, p.fin ≤ m) {last : Piece α τ} (hlast : q.getLast? = some last) :
    (deliver n q).2.2 = [] ∧ last.fin = m ↔ Set.Ico n m ⊆ cover span q := by
  obtain ⟨hle, hspl, hrs⟩ := deliver_spec n hq hn
  have hcov : cover span q = Set.Ico n (deliver n q).1 ∪ cover span (deliver n q).2.2 := by
    rw [← deliver_covers n hq hn, ← cover_append, ← hspl]
  rw [hcov]
  refine ⟨fun ⟨hall, hfin⟩ => ?_, fun hsub => ?_⟩
  · rw [hall, deliver_fin n hall hlast, hfin]
    exact Set.subset_union_left
  · -- the position reached is missing, and so it is at `m`
    have hrch : m ≤ (deliver n q).1 := by
      by_contra hlt
      rcases hsub ⟨hle, not_le.1 hlt⟩ with hmem | ⟨p, hp, hmem⟩
      · exact lt_irrefl _ hmem.2
      · exact absurd hmem.1 (not_le.2 (hrs p hp))
    have hall : (deliver n q).2.2 = [] := by
      refine eq_nil_iff_forall_not_mem.2 fun p hp => ?_
      have hfin := hm p (hspl ▸ mem_append_right _ hp)
      have hpos := hrs p hp
      have hpf : p.pos ≤ p.fin := Nat.le_add_right _ _
      omega
    refine ⟨hall, le_antisymm (hm last (mem_of_getLast? hlast)) ?_⟩
    rw [← deliver_fin n hall hlast]
    exact hrch

end Piece

end Uwisc.Lib
