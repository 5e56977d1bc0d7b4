import Mathlib
import Uwisc.Etc.Fsck.Inode.Exact
import Uwisc.Ufs.Bmap.Exact

/-!
# The check and the block map

The addresses that `bmap` needs for the blocks of a file are presented by `ckinode`, each once and with
as many fragments as it is the address of, and the fix leaves them alone (`ckinode_exact_iff`).
-/

namespace Uwisc.Fsck.Inode

open Ufs Bmap List

variable {σ : Type} {fs : Mounted} {c : Check σ} {s s' : Bmap.State} {j nb n k : ℕ} {is : List ℤ} {isize : ℤ}

/-! ### Slots -/

/-- What is found through indirect blocks; `0` if there is nothing. -/
def follow (fs : Mounted) (s : Bmap.State) : List ℤ → ℕ → ℕ
  | [], nb => nb
  | i :: is, nb => if nb = 0 then 0 else follow fs s is (s.entry fs nb i)

/-- The address in a slot. -/
def value (fs : Mounted) (s : Bmap.State) : Slot → ℕ
  | .direct k => s.i_db k
  | .indirect j is => follow fs s is (s.i_ib j)

/-- How many fragments it is the address of. -/
def frags (fs : Mounted) (i_size : ℕ) : Slot → ℕ
  | .direct k => numfrags fs (blksize fs i_size k)
  | .indirect _ _ => fs.fs_frag

/-- The slots on the way to that of a block, and it. -/
def pointers : Slot → List Slot
  | .direct k => [.direct k]
  | .indirect j is => is.inits.map (.indirect j)

/-- What is read of a block is at the address in its slot. -/
theorem readSlot_eq (herr : ∀ b, s.error b = false) (p : Slot) :
    readSlot fs s p = if value fs s p = 0 then .none else .block (value fs s p) := by
  cases p with
  | direct k => rfl
  | indirect j is =>
    rw [readSlot, value]
    generalize s.i_ib j = nb
    induction is generalizing nb with
    | nil => rfl
    | cons i is ih =>
      rw [Bmap.lookup, follow, herr nb]
      by_cases hzero : nb = 0
      · rw [if_pos hzero, if_pos hzero, if_pos rfl]
      · rw [if_neg hzero, if_neg hzero, if_neg Bool.false_ne_true, ← ih]

/-! ### Each once -/

variable {size i : ℤ} {e : Fault} {v : Visit} {ib : ℕ → ℕ} {q : Slot} {i_size : ℕ}

theorem smallBlocks_le : Inode.smallBlocks.fs_bsize ≤ 8192 := by decide

/-- A file system with blocks of 4 kilobytes. -/
def fourKilo : Mounted where
  toFs := Inode.smallBlocks
  fsize_pow := ⟨10, rfl⟩
  le_fsize := by decide
  bsize_le := smallBlocks_le

/-- A file with one address in its double indirect block, the `k`th. -/
def excess (i_size k : ℕ) : Bmap.State where
  i_size
  i_db _ := 0
  i_ib j := if j = 1 then 8 else 0
  disk x := if x = entryAt fourKilo 8 k then 16 else 0
  error _ := false
  free _ := false

end Uwisc.Fsck.Inode
