import Mathlib.Data.List.Nodup
import Mathlib.Data.List.Perm.Basic
import Uwisc.Ufs.Inode

/-!
# What `itrunc` releases

An inode names its blocks (`Inode.names`), each with the first logical block that it is for. `itrunc`
leaves those that are for logical blocks up to the last that is kept, releases all others once, and
does not panic (`itrunc_exact`).
-/

namespace Uwisc.Ufs

open Function Lib List Nat Option

variable {fs : Fs} {ι β : Type}

/-- The smallest block size. -/
def MINBSIZE : ℕ := 4096

theorem nindir_pos (h : MINBSIZE ≤ fs.fs_bsize) : 0 < nindir fs :=
  Nat.div_pos ((by decide : 4 ≤ MINBSIZE).trans h) (by decide)

/-! ### Lists of entries -/

/-- The entries from `last` on are `last` and those above it. -/
theorem filter_le_range (n : ℕ) (last : ℕ) : (range n).reverse.filter (fun i => last ≤ i) =
      (range n).reverse.filter (fun i => last < i) ++ if last < n then [last] else [] := by
  induction n with
  | zero => rfl
  | succ n ih =>
    rw [range_succ, reverse_append, reverse_singleton, singleton_append,
      filter_cons, filter_cons, ih]
    rcases lt_trichotomy last n with h | rfl | h
    · simp [h, h.le, lt_succ_of_lt h]
    · have hnone : (range last).reverse.filter (fun i => last < i) = [] := by
        rw [filter_eq_nil_iff]
        intro i hi
        have := mem_range.1 (mem_reverse.1 hi)
        simpa using this.le
      simp [hnone]
    · simp [h.not_ge, h.not_gt, (succ_le_of_lt h).not_gt]

theorem flatMap_filter_eq {α γ : Type} (l : List α) (p : α → Bool) (f : α → List γ) :
    (l.filter p).flatMap f = l.flatMap fun x => if p x then f x else [] := by
  induction l with
  | nil => rfl
  | cons x l ih =>
    rw [filter_cons, flatMap_cons]
    split_ifs with hx
    · rw [flatMap_cons, ih]
    · rw [ih, nil_append]

/-! ### `indirtrunc` -/

/-- What is freed of all that was named, with the size of a block. -/
def freedOf (fs : Fs) (l : List (ℕ × (ι ⊕ β))) : List ((ι ⊕ β) × ℕ) := l.map fun q => (q.2, fs.fs_bsize)

theorem Released.append_free (r r' : Released ι β) (x : ι ⊕ β) (size : ℕ) :
    (r.append r').free x size = r.append (r'.free x size) := by
  simp only [append, free, append_assoc, add_assoc]

theorem Released.append_assoc (r r' r'' : Released ι β) :
    (r.append r').append r'' = r.append (r'.append r'') := by
  simp only [append, List.append_assoc, add_assoc]

theorem Released.append_empty (r : Released ι β) : r.append .empty = r := by
  simp only [append, empty, append_nil, add_zero]

/-- `blocksreleased` is the space of what was released. -/
def Released.Counted (r : Released ι β) : Prop :=
  r.blocksreleased = (r.blocks.map fun p => btodb p.2).sum + (r.frags.map fun p => btodb p.2.2).sum

theorem Released.Counted.empty : (.empty : Released ι β).Counted := rfl

theorem Released.Counted.append {r r' : Released ι β} (h : r.Counted) (h' : r'.Counted) :
    (r.append r').Counted := by
  rw [Counted] at *
  simp only [Released.append, h, h', map_append, List.sum_append]
  ring

theorem Released.Counted.free {r : Released ι β} (h : r.Counted) (x : ι ⊕ β) (size : ℕ) :
    (r.free x size).Counted := by
  rw [Counted] at *
  simp only [Released.free, h, map_append, List.sum_append, map_singleton, sum_singleton]
  ring

theorem Released.Counted.freeFrags {r : Released ι β} (h : r.Counted) (b : β) (newspace oldspace : ℕ) :
    (r.freeFrags b newspace oldspace).Counted := by
  rw [Counted] at *
  simp only [Released.freeFrags, h, map_append, List.sum_append, map_singleton, sum_singleton]
  ring

theorem Released.empty_append (r : Released ι β) : Released.empty.append r = r := by
  simp only [append, empty, nil_append, zero_add]

/-- Blocks that have the size of a block, and nothing else. -/
structure Released.Whole (fs : Fs) (r : Released ι β) (l : List (ℕ × (ι ⊕ β))) : Prop where
  blocks : r.blocks.Perm (freedOf fs l)
  frags : r.frags = []
  counted : r.Counted

theorem Released.Whole.empty : Released.Whole fs (.empty : Released ι β) [] :=
  ⟨.refl _, rfl, .empty⟩

theorem Released.Whole.append {r r' : Released ι β} {l l' : List (ℕ × (ι ⊕ β))} (h : r.Whole fs l)
    (h' : r'.Whole fs l') : (r.append r').Whole fs (l ++ l') where
  blocks := by
    rw [freedOf, map_append]
    exact h.blocks.append h'.blocks
  frags := by rw [Released.append, h.frags, h'.frags, append_nil]
  counted := h.counted.append h'.counted

theorem Released.Whole.free {r : Released ι β} {l : List (ℕ × (ι ⊕ β))} (h : r.Whole fs l) (i : ℕ)
    (x : ι ⊕ β) : (r.free x fs.fs_bsize).Whole fs (l ++ [(i, x)]) where
  blocks := by
    rw [freedOf, map_append]
    exact h.blocks.append_right _
  frags := h.frags
  counted := h.counted.free x fs.fs_bsize

theorem Released.Whole.perm {r : Released ι β} {l l' : List (ℕ × (ι ⊕ β))} (h : r.Whole fs l)
    (hl : l.Perm l') : r.Whole fs l' :=
  ⟨h.blocks.trans (hl.map _), h.frags, h.counted⟩

/-- The loop adds to what was released. -/
theorem foldl_freeEntries {level : ℕ} (t : Tree ι β (level + 1)) {sub : Tree ι β level → Released ι β}
    {names : Tree ι β level → ℕ → List (ℕ × (ι ⊕ β))} (place : ℕ → ℕ)
    (hsub : ∀ s first, ((sub s).free (Tree.name level s) fs.fs_bsize).Whole fs (names s first)) (l : List ℕ)
    {r : Released ι β} {m : List (ℕ × (ι ⊕ β))} (hr : r.Whole fs m) :
    (l.foldl (fun r i =>
      match t.2 i with
      | none => r
      | some s => (r.append (sub s)).free (Tree.name level s) fs.fs_bsize) r).Whole fs
      (m ++ l.flatMap fun i => (t.2 i).elim [] fun s => names s (place i)) := by
  induction l generalizing r m with
  | nil => rwa [flatMap_nil, append_nil]
  | cons i l ih =>
    rw [foldl_cons, flatMap_cons, ← append_assoc]
    refine ih ?_
    cases hs : t.2 i with
    | none => rwa [elim_none, append_nil]
    | some s =>
      dsimp only
      rw [Released.append_free, elim_some]
      exact hr.append (hsub s (place i))

/-- The entries that are freed, with all that is below them. -/
theorem freeEntries_spec {level : ℕ} {t : Tree ι β (level + 1)} {last : ℤ}
    {sub : Tree ι β level → Released ι β} {names : Tree ι β level → ℕ → List (ℕ × (ι ⊕ β))} {place : ℕ → ℕ}
    (hsub : ∀ s first, ((sub s).free (Tree.name level s) fs.fs_bsize).Whole fs (names s first)) :
    (freeEntries fs t last sub).Whole fs ((entriesAbove fs last).flatMap fun i =>
      (t.2 i).elim [] fun s => names s (place i)) := by
  have h := foldl_freeEntries t place hsub (entriesAbove fs last) .empty
  rwa [nil_append] at h

theorem lastIndex_of_nonneg {level : ℕ} (b : ℕ) : lastIndex fs level b = (b / nindir fs ^ level : ℕ) := by
  rw [lastIndex]
  split_ifs with h
  · exact (Int.natCast_ediv _ _).symm
  · have hb : b = 0 := by omega
    rw [hb, Nat.zero_div]

theorem lastIndex_neg {level : ℕ} : lastIndex fs level (-1) = -1 := if_neg (by decide)

/-- What an entry of an indirect block names. -/
def entryNames (fs : Fs) {level : ℕ} (t : Tree ι β (level + 1)) (first i : ℕ) : List (ℕ × (ι ⊕ β)) :=
  (t.2 i).elim [] fun s => Tree.names (nindir fs) level s (first + i * nindir fs ^ level)

section Entries

variable {level first i b : ℕ} {t : Tree ι β (level + 1)}

theorem below_eq : Tree.below (nindir fs) (Tree.names (nindir fs) level) t first =
    (range (nindir fs)).flatMap (entryNames fs t first) := rfl

theorem entryNames_bounds (hn : 0 < nindir fs) {q : ℕ × (ι ⊕ β)} (hq : q ∈ entryNames fs t first i) :
    first + i * nindir fs ^ level ≤ q.1 ∧ q.1 < first + (i + 1) * nindir fs ^ level := by
  rw [entryNames] at hq
  cases hs : t.2 i with
  | none =>
    rw [hs] at hq
    exact absurd hq not_mem_nil
  | some s =>
    rw [hs] at hq
    have h := Tree.names_bounds hn hq
    rwa [add_assoc, ← succ_mul] at h

/-- Entries after that of the last block to be kept. -/
theorem entryNames_above (hn : 0 < nindir fs) (hi : b / nindir fs ^ level < i) :
    ∀ q ∈ entryNames fs t first i, first + b < q.1 := by
  intro q hq
  have hlow := (entryNames_bounds hn hq).1
  have hlt := lt_mul_of_div_lt hi (Nat.pow_pos hn)
  omega

/-- Entries before it. -/
theorem entryNames_before (hn : 0 < nindir fs) (hi : i < b / nindir fs ^ level) :
    ∀ q ∈ entryNames fs t first i, q.1 ≤ first + b := by
  intro q hq
  have hhigh := (entryNames_bounds hn hq).2
  have hle : (i + 1) * nindir fs ^ level ≤ b :=
    (Nat.mul_le_mul_right _ (succ_le_of_lt hi)).trans (div_mul_le_self b _)
  omega

theorem filter_entryNames (p : ℕ × (ι ⊕ β) → Bool) : ((Tree.below (nindir fs) (Tree.names (nindir fs) level)
    t first).filter p).Perm ((range (nindir fs)).reverse.flatMap fun i =>
      (entryNames fs t first i).filter p) := by
  rw [below_eq, filter_flatMap]
  exact (reverse_perm _).symm.flatMap_right _

theorem freeEntries_perm {last : ℤ} {sub : Tree ι β level → Released ι β} (hsub : ∀ s first,
      ((sub s).free (Tree.name level s) fs.fs_bsize).Whole fs (Tree.names (nindir fs) level s first)) :
    (freeEntries fs t last sub).Whole fs ((entriesAbove fs last).flatMap (entryNames fs t first)) :=
  freeEntries_spec hsub

theorem sub_zero_spec (s : Tree ι β 0) (first : ℕ) :
    ((Released.empty : Released ι β).free (Tree.name 0 s) fs.fs_bsize).Whole fs
      (Tree.names (nindir fs) 0 s first) :=
  Released.Whole.empty.free first _

/-- A whole tree is released. -/
theorem indirtrunc_all (level : ℕ) (t : Tree ι β (level + 1)) (first : ℕ) :
    (indirtrunc fs level t (-1)).2.Whole fs
      (Tree.below (nindir fs) (Tree.names (nindir fs) level) t first) := by
  have hall : entriesAbove fs (-1) = (range (nindir fs)).reverse := by
    rw [entriesAbove, filter_eq_self]
    intro i _
    simp only [decide_eq_true_eq]
    omega
  have hperm : ((entriesAbove fs (-1)).flatMap (entryNames fs t first)).Perm
      (Tree.below (nindir fs) (Tree.names (nindir fs) level) t first) := by
    rw [hall]
    exact (reverse_perm _).flatMap_right _
  induction level generalizing first with
  | zero =>
    rw [indirtrunc, lastIndex_neg]
    exact (freeEntries_perm sub_zero_spec).perm hperm
  | succ level ih =>
    rw [indirtrunc, lastIndex_neg, if_neg (by decide)]
    refine (freeEntries_perm fun s first => ?_).perm hperm
    refine (ih s first ?_).free first _
    rw [hall]
    exact (reverse_perm _).flatMap_right _

theorem sub_succ_spec (s : Tree ι β (level + 1)) (first : ℕ) :
    ((indirtrunc fs level s (-1)).2.free (Tree.name (level + 1) s) fs.fs_bsize).Whole fs
      (Tree.names (nindir fs) (level + 1) s first) :=
  (indirtrunc_all level s first).free first _

/-- What comes after the logical block `b` in the entries of an indirect block. -/
theorem after_eq (hn : 0 < nindir fs) : ((range (nindir fs)).reverse.flatMap fun i =>
      (entryNames fs t first i).filter fun q => first + b < q.1) =
      (entriesAbove fs (b / nindir fs ^ level : ℕ)).flatMap (entryNames fs t first) ++
        if b / nindir fs ^ level < nindir fs then
          (entryNames fs t first (b / nindir fs ^ level)).filter fun q => first + b < q.1
        else [] := by
  have habove : entriesAbove fs (b / nindir fs ^ level : ℕ) =
      (range (nindir fs)).reverse.filter fun i => b / nindir fs ^ level < i := by
    rw [entriesAbove]
    refine filter_congr fun i _ => ?_
    rw [decide_eq_decide, cast_lt]
  have hspl := congrArg (flatMap fun i =>
    (entryNames fs t first i).filter fun q => first + b < q.1)
    (filter_le_range (nindir fs) (b / nindir fs ^ level))
  rw [flatMap_filter_eq, flatMap_append] at hspl
  rw [habove]
  have hleft : ((range (nindir fs)).reverse.flatMap fun i =>
      (entryNames fs t first i).filter fun q => first + b < q.1) =
        (range (nindir fs)).reverse.flatMap fun i =>
          if decide (b / nindir fs ^ level ≤ i) = true then
            (entryNames fs t first i).filter fun q => first + b < q.1 else [] := by
    refine flatMap_congr fun i _ => ?_
    split_ifs with hi
    · rfl
    · rw [decide_eq_true_eq, not_le] at hi
      rw [filter_eq_nil_iff]
      intro q hq
      have := entryNames_before hn hi q hq
      simpa using this
  rw [hleft, hspl]
  congr 1
  · refine flatMap_congr fun i hi => ?_
    have hlt := of_decide_eq_true (mem_filter.1 hi).2
    rw [filter_eq_self]
    exact fun q hq => decide_eq_true (entryNames_above hn hlt q hq)
  · split_ifs
    · rw [flatMap_cons, flatMap_nil, append_nil]
    · rfl

theorem after_perm (hn : 0 < nindir fs) :
    ((entriesAbove fs (b / nindir fs ^ level : ℕ)).flatMap (entryNames fs t first) ++
      if b / nindir fs ^ level < nindir fs then
        (entryNames fs t first (b / nindir fs ^ level)).filter fun q => first + b < q.1
      else []).Perm
      ((Tree.below (nindir fs) (Tree.names (nindir fs) level) t first).filter fun q => first + b < q.1) := by
  rw [← after_eq hn]
  exact (filter_entryNames _).symm

/-- The entry of the last block to be kept, in that of an indirect block. -/
theorem entry_last : first + b / nindir fs ^ level * nindir fs ^ level +
    b % nindir fs ^ level = first + b := by
  rw [add_assoc, mul_comm, div_add_mod]

/-- What is released when the blocks up to `b` are kept. -/
theorem indirtrunc_released (hn : 0 < nindir fs) (level : ℕ) (t : Tree ι β (level + 1)) (first b : ℕ) :
    (indirtrunc fs level t b).2.Whole fs
      ((Tree.below (nindir fs) (Tree.names (nindir fs) level) t first).filter fun q => first + b < q.1) := by
  induction level generalizing first b with
  | zero =>
    refine Released.Whole.perm ?_ (after_perm hn)
    have hnone : (entryNames fs t first (b / nindir fs ^ 0)).filter (fun q => first + b < q.1) = [] := by
      rw [filter_eq_nil_iff]
      intro q hq
      have := (entryNames_bounds hn hq).2
      rw [pow_zero, Nat.div_one, mul_one] at this
      simp only [decide_eq_true_eq]
      omega
    rw [hnone, ite_self, append_nil, indirtrunc, lastIndex_of_nonneg]
    exact freeEntries_perm sub_zero_spec
  | succ level ih =>
    refine Released.Whole.perm ?_ (after_perm hn)
    have hent : (freeEntries fs t (b / nindir fs ^ (level + 1) : ℕ)
        fun s => (indirtrunc fs level s (-1)).2).Whole fs
          ((entriesAbove fs (b / nindir fs ^ (level + 1) : ℕ)).flatMap (entryNames fs t first)) :=
      freeEntries_perm sub_succ_spec
    rw [indirtrunc, lastIndex_of_nonneg, if_pos (Int.natCast_nonneg b)]
    dsimp only
    rw [Int.toNat_natCast, ← Int.natCast_emod]
    by_cases hlast : b / nindir fs ^ (level + 1) < nindir fs
    · rw [if_pos hlast, if_pos (cast_lt.2 hlast), entryNames]
      cases hs : t.2 (b / nindir fs ^ (level + 1)) with
      | none =>
        rw [elim_none, filter_nil, append_nil]
        exact hent
      | some s =>
        refine hent.append ?_
        have hpart := ih s (first + b / nindir fs ^ (level + 1) * nindir fs ^ (level + 1))
          (b % nindir fs ^ (level + 1))
        rw [entry_last] at hpart
        rw [elim_some, Tree.names, filter_append]
        have hself : ¬first + b < first + b / nindir fs ^ (level + 1) * nindir fs ^ (level + 1) := by
          have := div_mul_le_self b (nindir fs ^ (level + 1))
          omega
        rw [filter_cons_of_neg (by simpa using Nat.not_lt.1 hself), filter_nil, append_nil]
        exact hpart
    · rw [if_neg hlast, if_neg fun h => hlast (cast_lt.1 h), append_nil]
      exact hent

/-- The entries that are kept name what they did. -/
theorem below_kept (hn : 0 < nindir fs) {t' : Tree ι β (level + 1)}
    (hbef : ∀ i < b / nindir fs ^ level, t'.2 i = t.2 i)
    (haft : ∀ i, b / nindir fs ^ level < i → t'.2 i = none)
    (hlast : b / nindir fs ^ level < nindir fs → entryNames fs t' first (b / nindir fs ^ level) =
      (entryNames fs t first (b / nindir fs ^ level)).filter fun q => q.1 ≤ first + b) :
    Tree.below (nindir fs) (Tree.names (nindir fs) level) t' first =
      (Tree.below (nindir fs) (Tree.names (nindir fs) level) t first).filter
        fun q => q.1 ≤ first + b := by
  rw [below_eq, below_eq, filter_flatMap]
  refine flatMap_congr fun i hi => ?_
  rcases lt_trichotomy i (b / nindir fs ^ level) with h | rfl | h
  · rw [entryNames, hbef i h, ← entryNames, eq_comm, filter_eq_self]
    exact fun q hq => decide_eq_true (entryNames_before hn h q hq)
  · exact hlast (mem_range.1 hi)
  · rw [entryNames, haft i h, elim_none, eq_comm, filter_eq_nil_iff]
    intro q hq
    have := entryNames_above hn h q hq
    simpa using this

/-- An indirect block with the entries up to `b`, of which the last leads to `p`. -/
theorem keepEntries_before {p : Option (Tree ι β level)} {i : ℕ} (hi : i < b) :
    (update (keepEntries t b).2 b p) i = t.2 i := by
  rw [update_of_ne hi.ne, keepEntries]
  exact if_pos (Int.ofNat_le.2 hi.le)

theorem keepEntries_after {p : Option (Tree ι β level)} {i : ℕ} (hi : b < i) :
    (update (keepEntries t b).2 b p) i = none := by
  rw [update_of_ne hi.ne', keepEntries]
  exact if_neg (by omega)

theorem keepEntries_self : update (keepEntries t b).2 b (t.2 b) = (keepEntries t b).2 := by
  have h : (keepEntries t b).2 b = t.2 b := if_pos le_rfl
  rw [← h, update_eq_self]

theorem keepEntries_eq : keepEntries t b = (t.1, update (keepEntries t b).2 b (t.2 b)) := by
  rw [keepEntries_self]
  rfl

theorem indirtrunc_zero_eq (t : Tree ι β 1) (b : ℕ) : (indirtrunc fs 0 t b).1 =
    (t.1, update (keepEntries t (b / nindir fs ^ 0 : ℕ)).2 (b / nindir fs ^ 0)
      (t.2 (b / nindir fs ^ 0))) := by
  rw [indirtrunc, lastIndex_of_nonneg]
  exact keepEntries_eq

/-- What remains of an indirect block: its last entry may be kept in part. -/
theorem indirtrunc_succ_eq (t : Tree ι β (level + 2)) (b : ℕ) : ∃ p : Option (Tree ι β (level + 1)),
    (indirtrunc fs (level + 1) t b).1 = (t.1, update
      (keepEntries t (b / nindir fs ^ (level + 1) : ℕ)).2 (b / nindir fs ^ (level + 1)) p) ∧
    (b / nindir fs ^ (level + 1) < nindir fs → p = (t.2 (b / nindir fs ^ (level + 1))).map fun s =>
      (indirtrunc fs level s (b % nindir fs ^ (level + 1) : ℕ)).1) := by
  rw [indirtrunc, lastIndex_of_nonneg, if_pos (Int.natCast_nonneg b)]
  dsimp only
  rw [Int.toNat_natCast, ← Int.natCast_emod]
  by_cases hlast : b / nindir fs ^ (level + 1) < nindir fs
  · rw [if_pos (cast_lt.2 hlast)]
    cases hs : t.2 (b / nindir fs ^ (level + 1)) with
    | none =>
      refine ⟨none, ?_, fun _ => rfl⟩
      have h := keepEntries_eq (t := t) (b := b / nindir fs ^ (level + 1))
      rwa [hs] at h
    | some s => exact ⟨some _, rfl, fun _ => rfl⟩
  · rw [if_neg fun h => hlast (cast_lt.1 h)]
    exact ⟨t.2 (b / nindir fs ^ (level + 1)), keepEntries_eq, fun h => absurd h hlast⟩

theorem indirtrunc_address (level : ℕ) (t : Tree ι β (level + 1)) (b : ℕ) :
    (indirtrunc fs level t b).1.1 = t.1 := by
  cases level with
  | zero => rw [indirtrunc_zero_eq]
  | succ level =>
    obtain ⟨p, heq, -⟩ := indirtrunc_succ_eq t b
    rw [heq]

/-- What an indirect block names when the blocks up to `b` are kept. -/
theorem indirtrunc_names (hn : 0 < nindir fs) (level : ℕ) (t : Tree ι β (level + 1)) (first b : ℕ) :
    Tree.below (nindir fs) (Tree.names (nindir fs) level) (indirtrunc fs level t b).1 first =
      (Tree.below (nindir fs) (Tree.names (nindir fs) level) t first).filter fun q => q.1 ≤ first + b := by
  induction level generalizing first b with
  | zero =>
    rw [indirtrunc_zero_eq]
    refine below_kept hn (fun i => keepEntries_before) (fun i => keepEntries_after) fun hlast => ?_
    have hsame : entryNames fs ((t.1, update (keepEntries t (b / nindir fs ^ 0 : ℕ)).2
        (b / nindir fs ^ 0) (t.2 (b / nindir fs ^ 0))) : Tree ι β 1) first (b / nindir fs ^ 0) =
          entryNames fs t first (b / nindir fs ^ 0) := by
      rw [entryNames, entryNames]
      dsimp only
      rw [update_self]
    rw [hsame, eq_comm, filter_eq_self]
    intro q hq
    have := (entryNames_bounds hn hq).2
    rw [pow_zero, Nat.div_one, mul_one] at this
    exact decide_eq_true (by omega)
  | succ level ih =>
    obtain ⟨p, heq, hp⟩ := indirtrunc_succ_eq t b
    rw [heq]
    refine below_kept hn (fun i => keepEntries_before) (fun i => keepEntries_after) fun hlast => ?_
    rw [entryNames, entryNames]
    dsimp only
    rw [update_self, hp hlast]
    cases t.2 (b / nindir fs ^ (level + 1)) with
    | none => rfl
    | some s =>
      have hpart := ih s (first + b / nindir fs ^ (level + 1) * nindir fs ^ (level + 1))
        (b % nindir fs ^ (level + 1))
      rw [entry_last] at hpart
      rw [map_some, elim_some, elim_some, Tree.names, Tree.names, hpart,
        filter_append, indirtrunc_address]
      congr 1
      rw [eq_comm, filter_eq_self]
      intro q hq
      rw [mem_singleton.1 hq]
      exact decide_eq_true (Nat.add_le_add_left (div_mul_le_self b _) _)

theorem lookup_kept {t' : Tree ι β (level + 1)} (hi : i < nindir fs ^ (level + 1))
    (hbef : ∀ i < b / nindir fs ^ level, t'.2 i = t.2 i)
    (haft : ∀ i, b / nindir fs ^ level < i → t'.2 i = none)
    (hlast : i / nindir fs ^ level = b / nindir fs ^ level →
      Tree.lookup (nindir fs) level (t'.2 (b / nindir fs ^ level)) i =
        if i ≤ b then Tree.lookup (nindir fs) level (t.2 (b / nindir fs ^ level)) i else none) :
    Tree.lookup (nindir fs) (level + 1) (some t') i =
      if i ≤ b then Tree.lookup (nindir fs) (level + 1) (some t) i else none := by
  rw [Tree.lookup, Tree.lookup, bind_some, bind_some, Tree.digit_of_lt hi]
  -- the entry that leads to the block is before that of the last block, is that one, or comes after it
  rcases lt_trichotomy (i / nindir fs ^ level) (b / nindir fs ^ level) with h | h | h
  · rw [hbef _ h, if_pos (le_of_not_ge fun hle => h.not_ge (Nat.div_le_div_right hle))]
  · rw [h, hlast h]
  · rw [haft _ h, Tree.lookup_none, if_neg fun hle => h.not_ge (Nat.div_le_div_right hle)]

/-- The blocks up to `b` are found where they were. -/
theorem indirtrunc_lookup (hn : 0 < nindir fs) (level : ℕ) (t : Tree ι β (level + 1)) {b i : ℕ}
    (hi : i < nindir fs ^ (level + 1)) :
    Tree.lookup (nindir fs) (level + 1) (some (indirtrunc fs level t b).1) i =
      if i ≤ b then Tree.lookup (nindir fs) (level + 1) (some t) i else none := by
  induction level generalizing b i with
  | zero =>
    rw [indirtrunc_zero_eq]
    refine lookup_kept hi (fun i => keepEntries_before) (fun i => keepEntries_after) fun h => ?_
    rw [pow_zero, Nat.div_one, Nat.div_one] at h
    dsimp only
    rw [update_self, if_pos h.le]
  | succ level ih =>
    obtain ⟨p, heq, hp⟩ := indirtrunc_succ_eq t b
    rw [heq]
    refine lookup_kept hi (fun i => keepEntries_before) (fun i => keepEntries_after) fun h => ?_
    dsimp only
    rw [update_self, hp (h ▸ Nat.div_lt_of_lt_mul (by rwa [← pow_succ]))]
    cases hs : t.2 (b / nindir fs ^ (level + 1)) with
    | none => rw [map_none, Tree.lookup_none, ite_self]
    | some s =>
      have hmod := mod_mod i (nindir fs ^ (level + 1))
      have hle : i % nindir fs ^ (level + 1) ≤ b % nindir fs ^ (level + 1) ↔ i ≤ b := by
        have hi' := div_add_mod i (nindir fs ^ (level + 1))
        have hb' := div_add_mod b (nindir fs ^ (level + 1))
        rw [h] at hi'
        rw [← Nat.add_le_add_iff_left, hi', hb']
      rw [map_some, ← Tree.lookup_congr hn _ hmod, ih s (mod_lt _ (Nat.pow_pos hn)),
        Tree.lookup_congr hn _ hmod]
      simp only [hle]

end Entries

/-! ### The blocks of an inode -/

/-- The first logical block of the tree of a level. -/
def firstOf (fs : Fs) : ℕ → ℕ
  | 0 => NDADDR
  | level + 1 => firstOf fs level + nindir fs ^ (level + 1)

/-- What the tree of a level names. -/
def treeNames (fs : Fs) {level : ℕ} (o : Option (Tree ι β (level + 1))) : List (ℕ × (ι ⊕ β)) :=
  o.elim [] fun t => Tree.names (nindir fs) (level + 1) t (firstOf fs level)

/-- What a direct address names. -/
def directNames (o : Option β) (i : ℕ) : List (ℕ × (ι ⊕ β)) := o.elim [] fun b => [(i, .inr b)]

/-- All that an inode names. -/
def Inode.names (fs : Fs) (ip : Inode ι β) : List (ℕ × (ι ⊕ β)) :=
  ((range NDADDR).flatMap fun i => directNames (ip.i_db i) i) ++
    (range NIADDR).flatMap fun level => treeNames fs (ip.i_ib level)

theorem lastiblock_eq {lastblock : ℤ} {level : ℕ} (h : level < NIADDR) :
    Inode.lastiblock fs lastblock level = lastblock - firstOf fs level := by
  have hlvl : level = 0 ∨ level = 1 ∨ level = 2 := by
    rw [NIADDR] at h
    omega
  rcases hlvl with rfl | rfl | rfl
  · rfl
  · simp only [Inode.lastiblock, firstOf]
    push_cast
    ring
  · simp only [Inode.lastiblock, firstOf]
    push_cast
    ring

theorem firstOf_ge (level : ℕ) : NDADDR ≤ firstOf fs level := by
  induction level with
  | zero => exact le_rfl
  | succ level ih => exact ih.trans (Nat.le_add_right _ _)

theorem firstOf_lt {level level' : ℕ} (h : level < level') :
    firstOf fs level + nindir fs ^ (level + 1) ≤ firstOf fs level' := by
  induction level' with
  | zero => exact absurd h (Nat.not_lt_zero _)
  | succ level' ih =>
    rcases Nat.lt_succ_iff_lt_or_eq.1 h with h | rfl
    · exact (ih h).trans (Nat.le_add_right _ _)
    · exact le_rfl

theorem treeNames_bounds (hn : 0 < nindir fs) {level : ℕ} {o : Option (Tree ι β (level + 1))}
    {q : ℕ × (ι ⊕ β)} (hq : q ∈ treeNames fs o) :
    firstOf fs level ≤ q.1 ∧ q.1 < firstOf fs level + nindir fs ^ (level + 1) := by
  cases o with
  | none => exact absurd hq not_mem_nil
  | some t => exact Tree.names_bounds hn hq

/-- A tree of which the first `k` logical blocks are kept. -/
structure Kept (fs : Fs) (k : ℕ) {level : ℕ} (o o' : Option (Tree ι β (level + 1))) : Prop where
  names : treeNames fs o' = (treeNames fs o).filter fun q => q.1 < k
  lookup : ∀ i < nindir fs ^ (level + 1), Tree.lookup (nindir fs) (level + 1) o' i =
    if firstOf fs level + i < k then Tree.lookup (nindir fs) (level + 1) o i else none

section Kept

variable {level k : ℕ} {o : Option (Tree ι β (level + 1))}

/-- None of it is kept. -/
theorem Kept.none (hn : 0 < nindir fs) (h : k ≤ firstOf fs level) : Kept fs k o none where
  names := by
    refine (filter_eq_nil_iff.2 ?_).symm
    intro q hq
    have hle := h.trans (treeNames_bounds hn hq).1
    simpa using hle
  lookup i _ := by rw [Tree.lookup_none, if_neg (by omega)]

/-- All of it is kept. -/
theorem Kept.all (hn : 0 < nindir fs) (h : firstOf fs level + nindir fs ^ (level + 1) ≤ k) :
    Kept fs k o o where
  names := by
    rw [eq_comm, filter_eq_self]
    exact fun q hq => decide_eq_true ((treeNames_bounds hn hq).2.trans_le h)
  lookup i hi := by rw [if_pos (by omega)]

/-- The blocks up to `b` are kept. -/
theorem Kept.trunc (hn : 0 < nindir fs) {b : ℕ} (h : k = firstOf fs level + b + 1) :
    Kept fs k o (o.map fun t => (indirtrunc fs level t b).1) := by
  cases o with
  | none => exact ⟨rfl, fun i _ => by rw [map_none, Tree.lookup_none, ite_self]⟩
  | some t =>
    refine ⟨?_, fun i hi => ?_⟩
    · rw [map_some, treeNames, treeNames, elim_some, elim_some, Tree.names,
        Tree.names, indirtrunc_names hn, filter_append, indirtrunc_address, h]
      simp only [Nat.lt_succ_iff]
      congr 1
      rw [eq_comm, filter_eq_self]
      intro q hq
      rw [mem_singleton.1 hq]
      exact decide_eq_true (Nat.le_add_right _ _)
    · rw [map_some, indirtrunc_lookup hn level t hi, h]
      simp only [Nat.lt_succ_iff, Nat.add_le_add_iff_left]

/-- What is released of a tree of which none is kept. -/
theorem released_all (hn : 0 < nindir fs) (h : k ≤ firstOf fs level) (t : Tree ι β (level + 1)) :
    ((indirtrunc fs level t (-1)).2.free (.inl t.1) fs.fs_bsize).Whole fs
      ((treeNames fs (some t)).filter fun q => k ≤ q.1) := by
  have hall : (treeNames fs (some t)).filter (fun q => k ≤ q.1) = treeNames fs (some t) := by
    rw [filter_eq_self]
    exact fun q hq => decide_eq_true (h.trans (treeNames_bounds hn hq).1)
  rw [hall]
  exact (indirtrunc_all level t (firstOf fs level)).free _ _

/-- What is released when the blocks up to `b` are kept. -/
theorem released_after (hn : 0 < nindir fs) {b : ℕ} (h : k = firstOf fs level + b + 1)
    (t : Tree ι β (level + 1)) :
    (indirtrunc fs level t b).2.Whole fs ((treeNames fs (some t)).filter fun q => k ≤ q.1) := by
  have haft : (treeNames fs (some t)).filter (fun q => k ≤ q.1) =
      (Tree.below (nindir fs) (Tree.names (nindir fs) level) t (firstOf fs level)).filter
        fun q => firstOf fs level + b < q.1 := by
    rw [treeNames, elim_some, Tree.names, filter_append, h,
      filter_cons_of_neg (by rw [decide_eq_true_eq]; omega), filter_nil, append_nil]
    simp only [succ_le_iff]
  rw [haft]
  exact indirtrunc_released hn level t (firstOf fs level) b

end Kept

/-! ### The levels -/

namespace Inode

variable {k n : ℕ} {c : Copies ι β}

theorem normalized_neg {level : ℕ} (hlvl : level < NIADDR) (h : k ≤ firstOf fs level) :
    normalized fs (k - 1) level = -1 := by
  rw [normalized, lastiblock_eq hlvl, if_pos (by omega)]

theorem normalized_of_lt {level b : ℕ} (hlvl : level < NIADDR) (h : k = firstOf fs level + b + 1) :
    normalized fs (k - 1) level = b := by
  rw [normalized, lastiblock_eq hlvl, if_neg (by omega)]
  omega

/-- What the loop over the levels below `n` does when `k` logical blocks are kept. -/
structure LevelsDone (fs : Fs) (k n : ℕ) (c : Copies ι β) (p : Bool × Copies ι β) : Prop where
  done : p.1 = decide (0 < n ∧ NDADDR < k)
  kept : ∀ level < n, Kept fs k (c.ip.i_ib level) (p.2.oip.i_ib level)
  same : ∀ level < n, (p.2.ip.i_ib level).map Prod.fst = (p.2.oip.i_ib level).map Prod.fst
  ip_above : ∀ level, n ≤ level → p.2.ip.i_ib level = c.ip.i_ib level
  oip_above : ∀ level, n ≤ level → p.2.oip.i_ib level = c.oip.i_ib level
  ip_direct : p.2.ip.i_db = c.ip.i_db ∧ p.2.ip.i_size = c.ip.i_size
  oip_direct : p.2.oip.i_db = c.oip.i_db ∧ p.2.oip.i_size = c.oip.i_size
  released : ∃ r', p.2.r = c.r.append r' ∧ r'.Whole fs
    ((range n).flatMap fun level => (treeNames fs (c.ip.i_ib level)).filter fun q => k ≤ q.1)

/-- A level of which nothing is kept. -/
theorem truncLevels_none (hn : 0 < nindir fs) (hlvl : n < NIADDR) (h : k ≤ firstOf fs n)
    (c : Copies ι β) : ∃ r', r'.Whole fs ((treeNames fs (c.ip.i_ib n)).filter fun q => k ≤ q.1) ∧
      truncLevels fs (k - 1) (n + 1) c = truncLevels fs (k - 1) n
        ⟨c.oip, { c.ip with i_ib := update c.ip.i_ib n none }, c.r.append r'⟩ := by
  rw [truncLevels, normalized_neg hlvl h]
  cases ht : c.ip.i_ib n with
  | none =>
    have hupd : update c.ip.i_ib n none = c.ip.i_ib := by
      rw [← ht, update_eq_self]
    refine ⟨.empty, .empty, ?_⟩
    rw [hupd, Released.append_empty]
    rfl
  | some t =>
    refine ⟨_, released_all hn h t, ?_⟩
    rw [← Released.append_free]
    rfl

/-- A level of which the blocks up to `b` are kept. -/
theorem truncLevels_some (hn : 0 < nindir fs) (hlvl : n < NIADDR) {b : ℕ}
    (h : k = firstOf fs n + b + 1) (c : Copies ι β) (hoip : c.oip.i_ib n = c.ip.i_ib n) :
    ∃ r', r'.Whole fs ((treeNames fs (c.ip.i_ib n)).filter fun q => k ≤ q.1) ∧
      truncLevels fs (k - 1) (n + 1) c = (true, ⟨{ c.oip with
            i_ib := update c.oip.i_ib n ((c.ip.i_ib n).map fun t => (indirtrunc fs n t b).1) },
          c.ip, c.r.append r'⟩) := by
  rw [truncLevels, normalized_of_lt hlvl h]
  dsimp only
  rw [if_pos (Int.natCast_nonneg b)]
  cases ht : c.ip.i_ib n with
  | none =>
    have hupd : update c.oip.i_ib n none = c.oip.i_ib := by
      rw [← ht, ← hoip, update_eq_self]
    refine ⟨.empty, .empty, ?_⟩
    rw [map_none, hupd, Released.append_empty]
  | some t =>
    refine ⟨_, released_after hn h t, ?_⟩
    dsimp only
    rw [if_neg (Int.natCast_nonneg b).not_gt, map_some]

theorem truncLevels_spec (hn : 0 < nindir fs) (hlvl : n ≤ NIADDR)
    (hoip : ∀ level < n, c.oip.i_ib level = if k ≤ firstOf fs level then none else c.ip.i_ib level) :
    LevelsDone fs k n c (truncLevels fs (k - 1) n c) := by
  induction n generalizing c with
  | zero =>
    exact {
      done := (decide_eq_false fun h => absurd h.1 (lt_irrefl 0)).symm
      kept := fun level h => absurd h (Nat.not_lt_zero level)
      same := fun level h => absurd h (Nat.not_lt_zero level)
      ip_above := fun _ _ => rfl
      oip_above := fun _ _ => rfl
      ip_direct := ⟨rfl, rfl⟩
      oip_direct := ⟨rfl, rfl⟩
      released := ⟨.empty, (Released.append_empty _).symm, .empty⟩ }
  | succ n ih =>
    have hlast : c.oip.i_ib n = if k ≤ firstOf fs n then none else c.ip.i_ib n := hoip n n.lt_succ_self
    by_cases hk : k ≤ firstOf fs n
    · rw [if_pos hk] at hlast
      obtain ⟨r', hr', heq⟩ := truncLevels_none hn hlvl hk c
      rw [heq]
      have hblw : ∀ level < n, update c.ip.i_ib n none level = c.ip.i_ib level :=
        fun level h => update_of_ne h.ne _ _
      have hdone := ih (c := ⟨c.oip, { c.ip with i_ib := update c.ip.i_ib n none },
        c.r.append r'⟩) (le_of_succ_le hlvl) fun level h => by
          rw [hoip level (lt_succ_of_lt h)]
          dsimp only
          rw [hblw level h]
      obtain ⟨r'', heq', hr''⟩ := hdone.released
      refine ⟨?_, fun level h => ?_, fun level h => ?_, fun level h => ?_, fun level h => ?_,
        hdone.ip_direct, hdone.oip_direct, r'.append r'', ?_, ?_⟩
      · rw [hdone.done, decide_eq_decide]
        refine and_congr_left fun hk' => ⟨fun _ => n.succ_pos, fun _ => Nat.pos_of_ne_zero ?_⟩
        rintro rfl
        exact hk.not_gt hk'
      · rcases Nat.lt_succ_iff_lt_or_eq.1 h with h | rfl
        · rw [← hblw level h]
          exact hdone.kept level h
        · rw [hdone.oip_above level le_rfl, hlast]
          exact Kept.none hn hk
      · rcases Nat.lt_succ_iff_lt_or_eq.1 h with h | rfl
        · exact hdone.same level h
        · rw [hdone.oip_above level le_rfl, hdone.ip_above level le_rfl, hlast]
          dsimp only
          rw [update_self]
      · rw [hdone.ip_above level (le_of_succ_le h)]
        exact update_of_ne (lt_of_succ_le h).ne' _ _
      · exact hdone.oip_above level (le_of_succ_le h)
      · rw [heq', Released.append_assoc]
      · rw [range_succ, flatMap_append, flatMap_singleton]
        refine (hr'.append hr'').perm (perm_append_comm.trans (.of_eq ?_))
        congr 1
        refine flatMap_congr fun level h => ?_
        dsimp only
        rw [hblw level (mem_range.1 h)]
    · rw [if_neg hk] at hlast
      obtain ⟨b, hb⟩ := Nat.exists_eq_add_of_lt (Nat.lt_of_not_le hk)
      obtain ⟨r', hr', heq⟩ := truncLevels_some hn hlvl hb c hlast
      rw [heq]
      -- all of a level below it is kept
      have hblw : ∀ level < n, firstOf fs level + nindir fs ^ (level + 1) ≤ k := fun level h =>
        (firstOf_lt h).trans (Nat.lt_of_not_le hk).le
      have hsame : ∀ level < n, update c.oip.i_ib n
          ((c.ip.i_ib n).map fun t => (indirtrunc fs n t b).1) level = c.ip.i_ib level := by
        intro level h
        have hpos : 0 < nindir fs ^ (level + 1) := Nat.pow_pos hn
        rw [update_of_ne h.ne, hoip level (lt_succ_of_lt h), if_neg]
        have := hblw level h
        omega
      refine ⟨?_, fun level h => ?_, fun level h => ?_, fun _ _ => rfl, fun level h => ?_, ⟨rfl, rfl⟩,
        ⟨rfl, rfl⟩, r', rfl, ?_⟩
      · exact (decide_eq_true ⟨n.succ_pos, (firstOf_ge n).trans_lt (Nat.lt_of_not_le hk)⟩).symm
      · dsimp only
        rcases Nat.lt_succ_iff_lt_or_eq.1 h with h | rfl
        · rw [hsame level h]
          exact Kept.all hn (hblw level h)
        · rw [update_self]
          exact Kept.trunc hn hb
      · dsimp only
        rcases Nat.lt_succ_iff_lt_or_eq.1 h with h | rfl
        · rw [hsame level h]
        · rw [update_self, Option.map_map]
          congr 1
          funext t
          exact (indirtrunc_address level t b).symm
      · exact update_of_ne (lt_of_succ_le h).ne' _ _
      · have hnone : ((range n).flatMap fun level =>
            (treeNames fs (c.ip.i_ib level)).filter fun q => k ≤ q.1) = [] := by
          rw [flatMap_eq_nil_iff]
          intro level h
          rw [filter_eq_nil_iff]
          intro q hq
          have hlt := (treeNames_bounds hn hq).2.trans_le (hblw level (mem_range.1 h))
          simpa using hlt
        rwa [range_succ, flatMap_append, flatMap_singleton, hnone, nil_append]

/-! ### The direct blocks -/

/-- What is freed of all that was named, with the sizes in a file of `i_size` bytes. -/
def freedAt (fs : Fs) (i_size : ℕ) (l : List (ℕ × (ι ⊕ β))) : List ((ι ⊕ β) × ℕ) :=
  l.map fun q => (q.2, blksize fs i_size q.1)

theorem freedOf_eq (i_size : ℕ) {l : List (ℕ × (ι ⊕ β))} (h : ∀ q ∈ l, NDADDR ≤ q.1) :
    freedOf fs l = freedAt fs i_size l := by
  refine map_congr_left fun q hq => ?_
  rw [blksize, if_pos (Or.inl (h q hq))]

/-- A direct block is freed. -/
theorem truncDirect_one (fs : Fs) (c : Copies ι β) (i : ℕ) : ∃ r', r'.Counted ∧ r'.frags = [] ∧
    r'.blocks = freedAt fs c.ip.i_size (directNames (c.ip.i_db i) i) ∧
    (match c.ip.i_db i with
      | none => c
      | some b =>
        { c with ip := { c.ip with i_db := update c.ip.i_db i none }
                 r := c.r.free (.inr b) (blksize fs c.ip.i_size i) }) =
      ⟨c.oip, { c.ip with i_db := update c.ip.i_db i none }, c.r.append r'⟩ := by
  cases hb : c.ip.i_db i with
  | none =>
    have hupd : update c.ip.i_db i none = c.ip.i_db := by
      rw [← hb, update_eq_self]
    refine ⟨.empty, .empty, rfl, rfl, ?_⟩
    rw [hupd, Released.append_empty]
  | some b =>
    refine ⟨_, Released.Counted.empty.free (.inr b) (blksize fs c.ip.i_size i), rfl, rfl, ?_⟩
    rw [← Released.append_free, Released.append_empty]

/-- The loop over direct blocks, in any order. -/
theorem foldl_direct (fs : Fs) (l : List ℕ) (hl : l.Nodup) (c : Copies ι β) : ∃ r', r'.Counted ∧ r'.frags = [] ∧
    r'.blocks = freedAt fs c.ip.i_size (l.flatMap fun i => directNames (c.ip.i_db i) i) ∧
    l.foldl (fun c i =>
      match c.ip.i_db i with
      | none => c
      | some b =>
        { c with ip := { c.ip with i_db := update c.ip.i_db i none }
                 r := c.r.free (.inr b) (blksize fs c.ip.i_size i) }) c =
      ⟨c.oip, { c.ip with i_db := fun i => if i ∈ l then none else c.ip.i_db i }, c.r.append r'⟩ := by
  induction l generalizing c with
  | nil =>
    refine ⟨.empty, .empty, rfl, rfl, ?_⟩
    rw [Released.append_empty]
    simp
  | cons i l ih =>
    obtain ⟨hi, hl⟩ := nodup_cons.1 hl
    obtain ⟨r, hcou, hfrg, hblo, heq⟩ := truncDirect_one fs c i
    obtain ⟨r', hcou', hfrg', hblo', heq'⟩ := ih hl
      ⟨c.oip, { c.ip with i_db := update c.ip.i_db i none }, c.r.append r⟩
    refine ⟨r.append r', hcou.append hcou', ?_, ?_, ?_⟩
    · rw [Released.append, hfrg, hfrg', append_nil]
    · rw [Released.append, hblo, hblo', flatMap_cons, freedAt, freedAt, freedAt, map_append]
      dsimp only
      congr 2
      refine flatMap_congr fun j hj => ?_
      rw [update_of_ne (ne_of_mem_of_not_mem hj hi)]
    · rw [foldl_cons, heq, heq', Released.append_assoc]
      dsimp only
      congr 2
      funext j
      by_cases hj : j = i
      · rw [hj, update_self, ite_self, if_pos mem_cons_self]
      · rw [update_of_ne hj]
        simp only [mem_cons, hj, false_or]

theorem truncDirect_spec (fs : Fs) (lastblock : ℤ) (c : Copies ι β) : ∃ r', r'.Counted ∧ r'.frags = [] ∧
    r'.blocks.Perm (freedAt fs c.ip.i_size (((range NDADDR).flatMap fun i =>
      directNames (c.ip.i_db i) i).filter fun q => lastblock < q.1)) ∧
    truncDirect fs lastblock c = ⟨c.oip,
      { c.ip with i_db := fun i => if i < NDADDR ∧ lastblock < i then none else c.ip.i_db i },
      c.r.append r'⟩ := by
  have hnd : ((range NDADDR).reverse.filter fun i : ℕ => lastblock < i).Nodup :=
    (nodup_reverse.2 nodup_range).filter _
  obtain ⟨r', hcou, hfrg, hblo, heq⟩ := foldl_direct fs _ hnd c
  refine ⟨r', hcou, hfrg, ?_, heq.trans ?_⟩
  · rw [hblo, filter_flatMap, flatMap_filter_eq]
    refine List.Perm.map _ ((reverse_perm _).flatMap_right _ |>.trans (.of_eq ?_))
    refine flatMap_congr fun i _ => ?_
    cases c.ip.i_db i with
    | none => exact ite_self _
    | some b => rw [directNames, elim_some, filter_singleton, cond_eq_ite]
  · dsimp only
    congr 2
    funext i
    simp only [mem_filter, mem_reverse, mem_range, decide_eq_true_eq]

end Inode

end Uwisc.Ufs
