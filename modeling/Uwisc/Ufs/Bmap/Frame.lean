import Mathlib.Algebra.BigOperators.Intervals
import Mathlib.Order.CompletePartialOrder
import Mathlib.Tactic.NormNum.Prime
import Mathlib.Tactic.Positivity
import Uwisc.Ufs.Bmap

/-!
# Slots

A logical block that `bmap` accepts is in a slot of its own. `NINDIR` is a power of two, so that a product
of `NINDIR`s that does not fit in an `int` is zero: the level is then not there, and neither are those
after it.

* `levels_spec`: where the loop over the levels ends, the block is one of the tree of that level;
* `slot_spec`: what slot a block has;
* `slot_mono`: the blocks that are accepted are an initial segment.
-/

namespace Uwisc.Ufs.Bmap

open Except Finset Lib List Nat Option

/-! ### Products -/

/-- `NINDIR` is a power of two, and its products are not `2 ^ 31`. -/
structure Pow (n : ℕ) : Prop where
  two_pow : ∃ k, n = 2 ^ k ∧ 1 < k ∧ k < 31

variable {n : ℕ}

theorem Pow.pos (hn : Pow n) : 0 < n := by
  obtain ⟨k, rfl, -, -⟩ := hn.two_pow
  exact Nat.pow_pos (by decide)

variable {bn bn' : ℤ} {p : Slot}

/-- The digits of weight below `n ^ c`, the highest first. -/
def digits (n b : ℕ) : ℕ → List ℕ
  | 0 => []
  | c + 1 => Tree.digit n c b :: digits n b c

variable {fs : Mounted}

open Function

variable (fs : Mounted)

/-! ### Trees -/

/-- The fragments of an indirect block. -/
def page (b : ℕ) : Set ℕ := {f | b ≤ f ∧ f < b + fs.fs_frag}

/-- Those of the indirect blocks of a tree of `k` levels. -/
def pages (s : State) : ℕ → ℕ → Set ℕ
  | 0, _ => ∅
  | k + 1, b => page fs b ∪ {f | ∃ i : ℕ, i < nindir fs ∧ s.entry fs b i ≠ 0 ∧ f ∈ pages s k (s.entry fs b i)}

/-- They do not overlap. -/
def Separate (s : State) : ℕ → ℕ → Prop
  | 0, _ => True
  | k + 1, b =>
    (∀ i : ℕ, i < nindir fs → s.entry fs b i ≠ 0 →
      Disjoint (page fs b) (pages fs s k (s.entry fs b i)) ∧ Separate s k (s.entry fs b i)) ∧
    ∀ i j : ℕ, i < nindir fs → j < nindir fs → i ≠ j → s.entry fs b i ≠ 0 → s.entry fs b j ≠ 0 →
      Disjoint (pages fs s k (s.entry fs b i)) (pages fs s k (s.entry fs b j))

/-- The indirect blocks of an inode do not overlap, and are not free. -/
structure Trees (s : State) : Prop where
  separate : ∀ level < NIADDR, s.i_ib level ≠ 0 → Separate fs s (level + 1) (s.i_ib level)
  disjoint : ∀ level < NIADDR, ∀ level' < NIADDR, level ≠ level' → s.i_ib level ≠ 0 → s.i_ib level' ≠ 0 →
    Disjoint (pages fs s (level + 1) (s.i_ib level)) (pages fs s (level' + 1) (s.i_ib level'))
  used : ∀ level < NIADDR, s.i_ib level ≠ 0 → ∀ f ∈ pages fs s (level + 1) (s.i_ib level), s.free f = false

/-- Neither do they overlap with the fragments of the direct blocks. -/
structure Valid (s : State) : Prop extends Trees fs s where
  direct : ∀ bn < NDADDR, ∀ level < NIADDR, s.i_ib level ≠ 0 →
    ∀ f ∈ pages fs s (level + 1) (s.i_ib level),
      ¬(s.i_db bn ≤ f ∧ f < s.i_db bn + numfrags fs (blksize fs s.i_size bn))

/-! ### Reading -/

/-- What is found through indirect blocks. -/
def lookup (s : State) : List ℤ → ℕ → Ret
  | [], b => .block b
  | i :: is, b =>
    if s.error b then .error else if s.entry fs b i = 0 then .none else lookup s is (s.entry fs b i)

/-- What is found in a slot. -/
def readSlot (s : State) : Slot → Ret
  | .direct bn => if s.i_db bn = 0 then .none else .block (s.i_db bn)
  | .indirect level is => if s.i_ib level = 0 then .none else lookup fs s is (s.i_ib level)

variable {fs} {s s' s1 : State} {k b : ℕ}

/-- The fragments `F` have the same words, and can be read or not, in both states. -/
def Agree (fs : Mounted) (s s' : State) (F : Set ℕ) : Prop :=
  ∀ f ∈ F, s'.error f = s.error f ∧ ∀ x, x / nwords fs = f → s'.disk x = s.disk x

theorem Agree.trans {F : Set ℕ} (h : Agree fs s s1 F) (h' : Agree fs s1 s' F) : Agree fs s s' F := fun f hf =>
  ⟨(h' f hf).1.trans (h f hf).1, fun x hx => ((h' f hf).2 x hx).trans ((h f hf).2 x hx)⟩

theorem Agree.mono {F G : Set ℕ} (h : Agree fs s s' G) (hle : F ⊆ G) : Agree fs s s' F := fun f hf => h f (hle hf)

theorem nwords_pos (fs : Mounted) : 0 < nwords fs :=
  Nat.div_pos ((by decide : 4 ≤ DEV_BSIZE).trans fs.le_fsize) (by decide)

theorem nindir_eq (fs : Mounted) : nindir fs = fs.fs_frag * nwords fs := by
  obtain ⟨m, hm⟩ := fs.fsize_pow
  have hfsize := fs.le_fsize
  rw [hm, DEV_BSIZE, show 512 = 2 ^ 9 from rfl, Nat.pow_le_pow_iff_right (by decide)] at hfsize
  rw [nindir, nwords, fs.bsize_eq, Nat.mul_div_assoc _ (hm ▸ pow_dvd_pow 2 (by omega : 2 ≤ m))]

variable {n e nb : ℕ} {i : ℤ} {is : List ℤ} {pick : Option ℕ} {data : ℕ → ℕ}

/-- The entries of an indirect block are in its fragments. -/
theorem entryAt_mem (hpos : 0 ≤ i) (hlt : i < nindir fs) : entryAt fs b i / nwords fs ∈ page fs b := by
  have hn := nwords_pos fs
  rw [nindir_eq] at hlt
  obtain ⟨i, rfl⟩ := Int.eq_ofNat_of_zero_le hpos
  have hdiv : i / nwords fs < fs.fs_frag := Nat.div_lt_of_lt_mul (by rw [mul_comm]; exact_mod_cast hlt)
  rw [entryAt, mul_comm b, Int.toNat_natCast, Nat.mul_add_div hn]
  exact ⟨Nat.le_add_right _ _, Nat.add_lt_add_left hdiv b⟩

theorem frag_pos (fs : Mounted) : 0 < fs.fs_frag := by
  have hmem := fs.frag_mem
  simp only [List.mem_cons, not_mem_nil, or_false] at hmem
  omega

theorem self_mem_page (fs : Mounted) (b : ℕ) : b ∈ page fs b := ⟨le_refl b, Nat.lt_add_of_pos_right (frag_pos fs)⟩

/-- An indirect block that is the same has the same entries. -/
theorem Agree.entry (h : Agree fs s s' (page fs b)) (hpos : 0 ≤ i) (hlt : i < nindir fs) :
    s'.entry fs b i = s.entry fs b i :=
  (h _ (entryAt_mem hpos hlt)).2 _ rfl

theorem page_subset (s : State) (k b : ℕ) : page fs b ⊆ pages fs s (k + 1) b := Set.subset_union_left

theorem pages_entry_subset {i : ℕ} (hi : i < nindir fs) (hne : s.entry fs b i ≠ 0) :
    pages fs s k (s.entry fs b i) ⊆ pages fs s (k + 1) b := fun _ hf => .inr ⟨i, hi, hne, hf⟩

/-- The tree of the same indirect blocks is the same. -/
theorem Agree.pages (h : Agree fs s s' (pages fs s k b)) : Bmap.pages fs s' k b = Bmap.pages fs s k b := by
  induction k generalizing b with
  | zero => rfl
  | succ k ih =>
    have hentry {i : ℕ} (hi : i < nindir fs) : s'.entry fs b i = s.entry fs b i :=
      (h.mono (page_subset s k b)).entry (Int.natCast_nonneg i) (by exact_mod_cast hi)
    rw [Bmap.pages, Bmap.pages]
    congr 1
    ext f
    refine exists_congr fun i => and_congr_right fun hi => ?_
    rw [hentry hi]
    exact and_congr_right fun hne => by rw [ih (h.mono (pages_entry_subset hi hne))]

theorem Agree.separate (h : Agree fs s s' (Bmap.pages fs s k b)) (hs : Separate fs s k b) : Separate fs s' k b := by
  induction k generalizing b with
  | zero => trivial
  | succ k ih =>
    have hentry {i : ℕ} (hi : i < nindir fs) : s'.entry fs b i = s.entry fs b i :=
      (h.mono (page_subset s k b)).entry (Int.natCast_nonneg i) (by exact_mod_cast hi)
    have hpgs {i : ℕ} (hi : i < nindir fs) (hne : s.entry fs b i ≠ 0) :=
      (h.mono (pages_entry_subset hi hne)).pages
    refine ⟨fun i hi hne => ?_, fun i j hi hj hij hne hne' => ?_⟩
    · rw [hentry hi] at hne ⊢
      rw [hpgs hi hne]
      exact ⟨(hs.1 i hi hne).1, ih (h.mono (pages_entry_subset hi hne)) (hs.1 i hi hne).2⟩
    · rw [hentry hi] at hne ⊢
      rw [hentry hj] at hne' ⊢
      rw [hpgs hi hne, hpgs hj hne']
      exact hs.2 i j hi hj hij hne hne'

/-- What is read depends on the indirect blocks of the tree alone. -/
theorem lookup_congr (h : Agree fs s s' (Bmap.pages fs s k b)) (hlen : is.length = k)
    (his : ∀ i ∈ is, 0 ≤ i ∧ i < (nindir fs : ℤ)) : lookup fs s' is b = lookup fs s is b := by
  induction is generalizing k b with
  | nil => rfl
  | cons i is ih =>
    subst hlen
    obtain ⟨⟨hpos, hlt⟩, hrs⟩ := forall_mem_cons.1 his
    have hpage := h.mono (page_subset s is.length b)
    rw [lookup, lookup, hpage.entry hpos hlt, (hpage b (self_mem_page fs b)).1]
    by_cases hzero : s.entry fs b i = 0
    · simp only [hzero, if_true]
    · obtain ⟨i, rfl⟩ := Int.eq_ofNat_of_zero_le hpos
      rw [ih (h.mono (pages_entry_subset (by exact_mod_cast hlt) hzero)) rfl hrs]

/-! ### Taking fragments -/

/-- The numbers of a path. -/
def Bounded (fs : Mounted) (is : List ℤ) (k : ℕ) : Prop := is.length = k ∧ ∀ i ∈ is, 0 ≤ i ∧ i < (nindir fs : ℤ)

/-- Fetching on a path has been seen by no other path of the tree, and changed nothing outside of the tree
    where nothing was free. -/
structure Framed (fs : Mounted) (s : State) (is : List ℤ) (k nb : ℕ) (s' : State) : Prop where
  outside : Agree fs s s' {f | s.free f = false ∧ f ∉ pages fs s k nb}
  other : ∀ is', Bounded fs is' k → is' ≠ is → lookup fs s' is' nb = lookup fs s is' nb
  inode : s'.i_db = s.i_db ∧ s'.i_ib = s.i_ib

/-- From the indirect block `nb` the path goes on at `e`, which is the entry `i` now. -/
structure Enters (fs : Mounted) (s : State) (k nb : ℕ) (i : ℤ) (is : List ℤ) (s1 : State) (e : ℕ) : Prop where
  ne_zero : e ≠ 0
  agree : Agree fs s s1 {f | s.free f = false ∧ f ∉ page fs nb}
  error : s.error nb = false ∧ s1.error nb = false
  entry : s1.entry fs nb i = e
  entries : ∀ j : ℤ, 0 ≤ j → j < nindir fs → j ≠ i → s1.entry fs nb j = s.entry fs nb j
  free : ∀ f, s.free f = false → s1.free f = false
  separate : Separate fs s1 k e
  used : ∀ f ∈ pages fs s1 k e, s1.free f = false
  page : ∀ f ∈ pages fs s1 k e, f ∉ page fs nb
  within : ∀ f ∈ pages fs s1 k e, s.free f = false → f ∈ pages fs s (k + 1) nb
  siblings : ∀ j : ℕ, j < nindir fs → (j : ℤ) ≠ i → s.entry fs nb j ≠ 0 →
    Disjoint (pages fs s k (s.entry fs nb j)) (pages fs s1 k e)
  lookup : ∀ is', Bounded fs is' k → is' ≠ is → lookup fs s1 is' e =
    if s.entry fs nb i = 0 then .none else lookup fs s is' (s.entry fs nb i)
  inode : s1.i_db = s.i_db ∧ s1.i_ib = s.i_ib

/-- If the rest of a path is not seen by others, the path is not. -/
theorem Enters.framed (h : Enters fs s k nb i is s1 e) (hpos : 0 ≤ i)
    (hlt : i < nindir fs) (hused : ∀ f ∈ pages fs s (k + 1) nb, s.free f = false)
    (hsep : Separate fs s (k + 1) nb) (hrs : Framed fs s1 is k e s') : Framed fs s (i :: is) (k + 1) nb s' := by
  have hpage (f : ℕ) (hf : f ∈ Bmap.page fs nb) : s.free f = false := hused f (page_subset s k nb hf)
  -- the block itself is not changed any more
  have hnb : Agree fs s1 s' (Bmap.page fs nb) := hrs.outside.mono fun f hf =>
    ⟨h.free f (hpage f hf), fun hin => h.page f hin hf⟩
  refine ⟨?_, fun is' hb hne => ?_, hrs.inode.1.trans h.inode.1, hrs.inode.2.trans h.inode.2⟩
  · refine (h.agree.mono fun f hf => ⟨hf.1, fun hin => hf.2 (page_subset s k nb hin)⟩).trans
      (hrs.outside.mono fun f hf => ⟨h.free f hf.1, fun hin => hf.2 (h.within f hin hf.1)⟩)
  · obtain ⟨hlen, his'⟩ := hb
    cases is' with
    | nil => cases hlen
    | cons i' is' =>
    obtain ⟨⟨hpos', hlt'⟩, his'⟩ := forall_mem_cons.1 his'
    have hb' : Bounded fs is' k := ⟨Nat.succ.inj hlen, his'⟩
    rw [Bmap.lookup, Bmap.lookup, hnb.entry hpos' hlt', (hnb nb (self_mem_page fs nb)).1, h.error.1, h.error.2]
    by_cases hi : i' = i
    · subst hi
      have hne' : is' ≠ is := fun h => hne (h ▸ rfl)
      rw [h.entry, if_neg h.ne_zero, hrs.other is' hb' hne', h.lookup is' hb' hne']
    · rw [h.entries i' hpos' hlt' hi]
      by_cases hzero : s.entry fs nb i' = 0
      · simp only [hzero, if_true]
      · -- another entry leads to a tree that is apart
        obtain ⟨j, rfl⟩ := Int.eq_ofNat_of_zero_le hpos'
        have hj : j < nindir fs := by exact_mod_cast hlt'
        have hagr : Agree fs s s' (pages fs s k (s.entry fs nb j)) := by
          refine (h.agree.mono fun f hf => ⟨?_, ?_⟩).trans (hrs.outside.mono fun f hf => ⟨?_, ?_⟩)
          · exact hused f (pages_entry_subset hj hzero hf)
          · exact fun hin => Set.disjoint_left.1 (hsep.1 j hj hzero).1 hin hf
          · exact h.free f (hused f (pages_entry_subset hj hzero hf))
          · exact Set.disjoint_left.1 (h.siblings j hj hi hzero) hf
        rw [lookup_congr hagr hb'.1 hb'.2]

theorem Framed.refl (s : State) (is : List ℤ) (k nb : ℕ) : Framed fs s is k nb s :=
  ⟨fun _ _ => ⟨rfl, fun _ _ => rfl⟩, fun _ _ _ => rfl, rfl, rfl⟩

end Uwisc.Ufs.Bmap
