import Uwisc.Ufs.Bmap.Frame
import Uwisc.Ufs.Inode.Exact

/-!
# The blocks of an inode

`ckinode` and `iblock` of `etc/fsck/inode.c`, for a function that is applied to addresses (`ADDR`):
it is presented the addresses of an inode and of its indirect blocks, one after the other. In the
first pass (`pass1check`) the addresses of an indirect block that are beyond the end of the file are
removed as well, if that is wanted.

`visits` says what has been presented, with the slot it is the address of. In `iblock`, sizes that
do not fit in an `int` and addresses in front of the indirect block are outcomes of their own; a
product of `NINDIR`s that does not fit would be zero, and is divided by. In `ckinode`, the machine
goes on with what fits.
-/

namespace Uwisc.Fsck.Inode

open Ufs Bmap

def STOP : ℕ := 1
def SKIP : ℕ := 2
def KEEPON : ℕ := 4

/-- What goes wrong. -/
inductive Fault
  | overflow
  | outside
  deriving DecidableEq

/-- What is presented: the slot, the address in it, and how many fragments it is the address of. -/
structure Visit where
  slot : Slot
  id_blkno : ℕ
  id_numfrags : ℕ
  deriving DecidableEq

/-- A check of an inode: what is done with an address, and whether it is that of the first pass. -/
structure Check (σ : Type) where
  id_func : σ → ℕ → ℕ → ℕ × σ
  pass1check : Bool
  /-- What is answered to `PARTIALLY TRUNCATED INODE`. -/
  dofix : Bool
  outrange : ℕ → ℕ → Bool

/-- The disk with the inode, the state of the check, and what has been presented. -/
structure Walk (σ : Type) where
  s : Bmap.State
  user : σ
  visits : List Visit

variable {σ : Type} (fs : Mounted) (c : Check σ)

/-- Applies the function to an address. -/
def present (p : Slot) (blkno numfrags : ℕ) (w : Walk σ) : ℕ × Walk σ :=
  ((c.id_func w.user blkno numfrags).1,
    { w with user := (c.id_func w.user blkno numfrags).2, visits := w.visits ++ [⟨p, blkno, numfrags⟩] })

/-- A size that fits. -/
def fits (x : ℤ) : Except Fault ℤ := if -2 ^ 31 ≤ x ∧ x < 2 ^ 31 then .ok x else .error .overflow

/-- The bytes that an address of an indirect block leads to. -/
def sizepb : ℕ → Except Fault ℤ
  | 0 => .ok fs.fs_bsize
  | i + 1 => do
    let x ← sizepb i
    fits (x * nindir fs)

/-- Removes the addresses of an indirect block from `nif` on. -/
def truncate (nb nif : ℕ) (s : Bmap.State) : Bmap.State :=
  (List.range' nif (nindir fs - nif)).foldl
    (fun s (k : ℕ) => if s.entry fs nb k = 0 then s else s.setEntry fs nb k 0) s

/-- The fix of the first pass. -/
def fixPartial (nb : ℕ) (nif : ℤ) (w : Walk σ) : Except Fault (Walk σ) :=
  if c.pass1check ∧ nif < nindir fs then
    if nif < 0 then .error .outside
    else if c.dofix then .ok { w with s := truncate fs nb nif.toNat w.s }
    else .ok w
  else .ok w

/-- The loop over the addresses `ib` that are not zero. -/
def each (ib : ℕ → ℕ) (body : ℕ → ℕ → Walk σ → Except Fault (ℕ × Walk σ)) : List ℕ → Walk σ → Except Fault (ℕ × Walk σ)
  | [], w => .ok (KEEPON, w)
  | k :: l, w =>
    if ib k = 0 then each ib body l w
    else do
      let (n, w) ← body k (ib k) w
      if n &&& STOP ≠ 0 then .ok (n, w) else each ib body l w

/-- `iblock`, but for what is done with the addresses: `body` is given what one leads to (`sizepb`). -/
def enter (ilevel : ℕ) (p : Slot) (nb : ℕ) (isize : ℤ) (body : ℤ → ℕ → ℕ → Walk σ → Except Fault (ℕ × Walk σ))
    (w : Walk σ) : Except Fault (ℕ × Walk σ) := do
  let (n, w) := present c p nb fs.fs_frag w
  if n &&& KEEPON = 0 then .ok (n, w)
  else if c.outrange nb fs.fs_frag ∨ w.s.error nb then .ok (SKIP, w)
  else do
    let sizepb ← sizepb fs ilevel
    let nif := min (isize.tdiv sizepb + 1) (nindir fs)
    let w ← fixPartial fs c nb nif w
    each (fun k => w.s.entry fs nb k) (body sizepb) (List.range nif.toNat) w

open List

variable {σ : Type} {fs : Mounted} {c : Check σ} {s s' s1 : Bmap.State} {w w' : Walk σ}
  {j nb n k : ℕ} {is : List ℤ} {isize : ℤ}

/-! ### The disk -/

/-- Nothing has changed but some words of the disk. -/
structure Kept (s s' : Bmap.State) (X : Set ℕ) : Prop where
  i_size : s'.i_size = s.i_size
  i_db : s'.i_db = s.i_db
  i_ib : s'.i_ib = s.i_ib
  error : s'.error = s.error
  disk : ∀ x, x ∉ X → s'.disk x = s.disk x

theorem Kept.refl (s : Bmap.State) (X : Set ℕ) : Kept s s X := ⟨rfl, rfl, rfl, rfl, fun _ _ => rfl⟩

variable {i i' lvl : ℕ} {size x : ℤ} {X Y : Set ℕ} {ib ib' : ℕ → ℕ} {l : List ℕ} {p : Slot}

theorem Kept.trans (h : Kept s s1 X) (h' : Kept s1 s' Y) : Kept s s' (X ∪ Y) :=
  ⟨h'.i_size.trans h.i_size, h'.i_db.trans h.i_db, h'.i_ib.trans h.i_ib, h'.error.trans h.error, fun x hx =>
    (h'.disk x fun hy => hx (.inr hy)).trans (h.disk x fun hy => hx (.inl hy))⟩

theorem Kept.mono (h : Kept s s' X) (hXY : X ⊆ Y) : Kept s s' Y :=
  ⟨h.i_size, h.i_db, h.i_ib, h.error, fun x hx => h.disk x fun hy => hx (hXY hy)⟩

theorem Kept.entry (h : Kept s s' X) {i : ℤ} (hi : entryAt fs nb i ∉ X) :
    s'.entry fs nb i = s.entry fs nb i := h.disk _ hi

/-- The addresses of an indirect block from `n` on. -/
def zone (fs : Mounted) (nb n : ℕ) : Set ℕ := {x | ∃ k : ℕ, n ≤ k ∧ k < nindir fs ∧ x = entryAt fs nb k}

theorem truncate_kept (fs : Mounted) (nb n : ℕ) (s : Bmap.State) : Kept s (truncate fs nb n s) (zone fs nb n) := by
  rw [truncate]
  have hall : ∀ k ∈ range' n (nindir fs - n), n ≤ k ∧ k < nindir fs := fun k hk => by
    have := mem_range'_1.1 hk
    omega
  generalize range' n (nindir fs - n) = l at hall
  induction l generalizing s with
  | nil => exact .refl s _
  | cons k l ih =>
    obtain ⟨⟨hle, hlt⟩, hall⟩ := forall_mem_cons.1 hall
    rw [foldl_cons]
    split_ifs
    · exact ih s hall
    · have hset : Kept s (s.setEntry fs nb k 0) (zone fs nb n) :=
        ⟨rfl, rfl, rfl, rfl, fun x hx => Function.update_of_ne (fun h => hx ⟨k, hle, hlt, h⟩) _ _⟩
      exact (hset.trans (ih _ hall)).mono (Set.union_subset subset_rfl subset_rfl)

/-! ### Indirect blocks -/

/-- How many addresses of an indirect block are gone through, of those that lead to `size` bytes each. -/
def nif (fs : Mounted) (size isize : ℤ) : ℕ := (min (isize.tdiv size + 1) (nindir fs)).toNat

/-- The check always goes on. -/
structure Keeps (c : Check σ) : Prop where
  keepon : ∀ u b n, (c.id_func u b n).1 = KEEPON
  inrange : ∀ b n, c.outrange b n = false

/-- The fix leaves alone what comes before `n`. -/
theorem fixPartial_spec (fs : Mounted) (nb : ℕ) (h : ¬(c.pass1check = true ∧ isize < 0)) (w : Walk σ) :
    ∃ s', fixPartial fs c nb isize w = .ok { w with s := s' } ∧ Kept w.s s' (zone fs nb isize.toNat) := by
  rw [fixPartial]
  split_ifs with hfix hneg hdo
  · exact absurd ⟨hfix.1, hneg⟩ h
  · exact ⟨_, rfl, truncate_kept fs nb _ w.s⟩
  · exact ⟨w.s, rfl, .refl _ _⟩
  · exact ⟨w.s, rfl, .refl _ _⟩

/-- What is in front of the loop over the addresses. -/
theorem enter_eq (hc : Keeps c) {f : ℤ → ℕ → ℕ → Walk σ → Except Fault (ℕ × Walk σ)}
    (hsize : sizepb fs lvl = .ok size) (herr : w.s.error nb = false)
    (h : ¬(c.pass1check = true ∧ isize.tdiv size + 1 < 0)) :
    ∃ s' u, Kept w.s s' (zone fs nb (nif fs size isize)) ∧ enter fs c lvl p nb isize f w =
      each (fun k => s'.entry fs nb k) (f size) (range (nif fs size isize))
        ⟨s', u, w.visits ++ [⟨p, nb, fs.fs_frag⟩]⟩ := by
  have hret : (present c p nb fs.fs_frag w).1 = KEEPON := hc.keepon _ _ _
  have hs : (present c p nb fs.fs_frag w).2.s = w.s := rfl
  have hnif : ¬(c.pass1check = true ∧ min (isize.tdiv size + 1) (nindir fs : ℤ) < 0) := fun ⟨hpass, hneg⟩ =>
    h ⟨hpass, by omega⟩
  obtain ⟨s', hfix, hkept⟩ := fixPartial_spec fs nb hnif (present c p nb fs.fs_frag w).2
  refine ⟨s', (c.id_func w.user nb fs.fs_frag).2, hkept, ?_⟩
  rw [enter]
  simp only [hret, hs, hc.inrange, herr, hsize, hfix, bind, Except.bind]
  rw [if_neg (by decide), if_neg (by decide)]
  rfl

/-- The blocks of addresses in an indirect block, and it, do not overlap. -/
structure Tree2 (fs : Mounted) (s : Bmap.State) (nb : ℕ) : Prop where
  own : ∀ k : ℕ, k < nindir fs → s.entry fs nb k ≠ 0 → ∀ i i' : ℕ, i < nindir fs → i' < nindir fs →
    entryAt fs nb i ≠ entryAt fs (s.entry fs nb k) i'
  each : ∀ k k' : ℕ, k < nindir fs → k' < nindir fs → k ≠ k' → s.entry fs nb k ≠ 0 → s.entry fs nb k' ≠ 0 →
    ∀ i i' : ℕ, i < nindir fs → i' < nindir fs →
      entryAt fs (s.entry fs nb k) i ≠ entryAt fs (s.entry fs nb k') i'

/-- No two indirect blocks of an inode overlap. -/
structure Apart (fs : Mounted) (s : Bmap.State) : Prop where
  separate : ∀ level < NIADDR, s.i_ib level ≠ 0 → Separate fs s (level + 1) (s.i_ib level)
  disjoint : ∀ level < NIADDR, ∀ level' < NIADDR, level ≠ level' → s.i_ib level ≠ 0 → s.i_ib level' ≠ 0 →
    Disjoint (pages fs s (level + 1) (s.i_ib level)) (pages fs s (level' + 1) (s.i_ib level'))

theorem ne_of_disjoint {F F' : Set ℕ} {b b' : ℕ} (h : Disjoint F F') (hb : page fs b ⊆ F) (hb' : page fs b' ⊆ F')
    (hi : i < nindir fs) (hi' : i' < nindir fs) : entryAt fs b i ≠ entryAt fs b' i' := fun heq => by
  have hmem := hb (entryAt_mem (Int.natCast_nonneg i) (by exact_mod_cast hi))
  have hmem' := hb' (entryAt_mem (Int.natCast_nonneg i') (by exact_mod_cast hi'))
  rw [← heq] at hmem'
  exact Set.disjoint_left.1 h hmem hmem'

/-- The single indirect block has nothing in common with the double one, and those that it leads to. -/
theorem Apart.ne (h : Apart fs s) (hne : s.i_ib 0 ≠ 0) (hne' : s.i_ib 1 ≠ 0) (hi : i < nindir fs)
    (hi' : i' < nindir fs) : entryAt fs (s.i_ib 0) i ≠ entryAt fs (s.i_ib 1) i' ∧
      ∀ k : ℕ, k < nindir fs → s.entry fs (s.i_ib 1) k ≠ 0 →
        entryAt fs (s.i_ib 0) i ≠ entryAt fs (s.entry fs (s.i_ib 1) k) i' := by
  have hdisj := h.disjoint 0 (by decide) 1 (by decide) (by decide) hne hne'
  exact ⟨ne_of_disjoint hdisj (page_subset s 0 _) (page_subset s 1 _) hi hi', fun k hk hk' =>
    ne_of_disjoint hdisj (page_subset s 0 _) ((page_subset s 0 _).trans (pages_entry_subset hk hk')) hi hi'⟩

/-- The bytes behind the direct blocks. -/
def rest (fs : Mounted) (s : Bmap.State) : ℤ := s.i_size - fs.fs_bsize * NDADDR

/-- The double indirect block and those it leads to have in them what they had. -/
structure Same2 (fs : Mounted) (s s' : Bmap.State) : Prop where
  own : ∀ k : ℕ, k < nindir fs → s'.entry fs (s.i_ib 1) k = s.entry fs (s.i_ib 1) k
  each : ∀ k : ℕ, k < nindir fs → s.entry fs (s.i_ib 1) k ≠ 0 → ∀ i : ℕ, i < nindir fs →
    s'.entry fs (s.entry fs (s.i_ib 1) k) i = s.entry fs (s.entry fs (s.i_ib 1) k) i

theorem Tree2.congr (h : Tree2 fs s (s.i_ib 1)) (hsame : Same2 fs s s') : Tree2 fs s' (s.i_ib 1) := by
  refine ⟨fun k hk hne => ?_, fun k k' hk hk' hkk hne hne' => ?_⟩
  · rw [hsame.own k hk] at hne ⊢
    exact h.own k hk hne
  · rw [hsame.own k hk] at hne ⊢
    rw [hsame.own k' hk'] at hne' ⊢
    exact h.each k k' hk hk' hkk hne hne'

end Uwisc.Fsck.Inode
