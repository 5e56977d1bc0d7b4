import Uwisc.Ufs.Inode

/-!
# Block maps

`bmap` of `sys/ufs/ufs_bmap.c`: the physical block of a logical block of a file, where the addresses are
numbers and the indirect blocks are on the disk. `int`s and `daddr_t`s have 32 bits, so that the product
of `NINDIR`s for the triple level may overflow.

The words of the disk are addresses; what a data block has is moved and cleared with it. Which fragments
`alloc` and `realloccg` choose is an argument, as long as they are free; that they are not is the same as
`NULL`. Writes do not fail, and what has been written can be read.
-/

namespace Uwisc.Ufs.Bmap

open Function

/-- A file system that `mkfs` has made, and `mountfs` accepts. -/
structure Mounted extends Fs where
  fsize_pow : ∃ k, fs_fsize = 2 ^ k
  le_fsize : DEV_BSIZE ≤ fs_fsize
  /-- `MAXBSIZE`. -/
  bsize_le : fs_bsize ≤ 8192

instance : Coe Mounted Fs := ⟨Mounted.toFs⟩

/-- An inode, and of the disk the words, the blocks that cannot be read and the fragments that are free. -/
structure State where
  i_size : ℕ
  i_db : ℕ → ℕ
  i_ib : ℕ → ℕ
  disk : ℕ → ℕ
  error : ℕ → Bool
  free : ℕ → Bool

inductive Panic
  /-- `realloccg: bad bprev`. -/
  | badBprev
  /-- `free: freeing free frag`. -/
  | freeingFreeFrag
  | zeroDivide

/-- `B_READ`, or `B_WRITE` with `size`. -/
inductive Rw
  | read
  | write (size : ℕ)

/-- `0` with `EFBIG`, `0` for a block that cannot be read, `-1`, or the address of the block. -/
inductive Ret
  | efbig
  | error
  | none
  | block (nb : ℕ)
  deriving DecidableEq

/-- What a call returns, and the block to be read ahead. -/
structure Result where
  ret : Ret
  rablock : ℕ
  rasize : ℕ

/-! ### Slots -/

/-- An `int`. -/
def long (x : ℤ) : ℤ := x.bmod (2 ^ 32)

/-- How a logical block is resolved: by a direct address, or by indices in the tree of an indirect one. -/
inductive Slot
  | direct (i : ℕ)
  | indirect (level : ℕ) (indices : List ℤ)
  deriving DecidableEq

/-- The loop that determines how many levels of indirection there are. -/
def levels (n : ℤ) : ℕ → ℤ → ℤ → Option (ℕ × ℤ × ℤ)
  | 0, _, _ => none
  | j + 1, sh, bn =>
    let sh := long (sh * n)
    if bn < sh then some (j + 1, sh, bn) else levels n j sh (long (bn - sh))

/-- The indices in the indirect blocks. -/
def indices (n bn : ℤ) : ℕ → ℤ → Except Panic (List ℤ)
  | 0, _ => .ok []
  | c + 1, sh =>
    let sh := sh.tdiv n
    if sh = 0 then .error .zeroDivide
    else do
      let is ← indices n bn c sh
      .ok ((bn.tdiv sh).tmod n :: is)

variable (fs : Mounted)

/-- The slot of a logical block that is not negative; there is none after `EFBIG`. -/
def slot (bn : ℤ) : Except Panic (Option Slot) :=
  if bn < NDADDR then .ok (some (.direct bn.toNat))
  else
    match levels (nindir fs) NIADDR 1 (long (bn - NDADDR)) with
    | none => .ok none
    | some (j, sh, bn) => do
      let is ← indices (nindir fs) bn (NIADDR + 1 - j) sh
      .ok (some (.indirect (NIADDR - j) is))

/-! ### Fragments -/

/-- The words of a fragment. -/
def nwords : ℕ := fs.fs_fsize / 4

/-- The address of an entry of an indirect block. -/
def entryAt (nb : ℕ) (i : ℤ) : ℕ := nb * nwords fs + i.toNat

/-- `bap[i]`. -/
def State.entry (s : State) (nb : ℕ) (i : ℤ) : ℕ := s.disk (entryAt fs nb i)

def State.setEntry (s : State) (nb : ℕ) (i : ℤ) (e : ℕ) : State :=
  { s with disk := update s.disk (entryAt fs nb i) e }

/-- The fragments from `b` on. -/
def State.allFree (s : State) (b n : ℕ) : Bool := (List.range n).all fun i => s.free (b + i)

/-- Fragments are taken, with the words `data` in them; they can be read. -/
def State.take (s : State) (b n : ℕ) (data : ℕ → ℕ) : State :=
  { s with
    disk := fun x => if b ≤ x / nwords fs ∧ x / nwords fs < b + n then data x else s.disk x
    error := fun f => if b ≤ f ∧ f < b + n then false else s.error f
    free := fun f => if b ≤ f ∧ f < b + n then false else s.free f }

/-- `alloc`, and `clrbuf`. -/
def alloc (s : State) (pick : Option ℕ) (size : ℕ) : Option (State × ℕ) :=
  match pick with
  | none => none
  | some b =>
    let n := numfrags fs size
    if b ≠ 0 ∧ s.allFree b n then some (s.take fs b n fun _ => 0, b) else none

/-- `realloccg`: the fragment is extended, or moved. -/
def realloccg (s : State) (pick : Option ℕ) (bprev osize nsize : ℕ) : Except Panic (Option (State × ℕ)) :=
  let o := numfrags fs osize
  let n := numfrags fs nsize
  if bprev = 0 then .error .badBprev
  else
    match pick with
    | none => .ok none
    | some b =>
      if b = bprev then
        if s.allFree (bprev + o) (n - o) then .ok (some (s.take fs (bprev + o) (n - o) fun _ => 0, bprev))
        else .ok none
      else if b ≠ 0 ∧ s.allFree b n then
        .ok (some (s.take fs b n fun x =>
          if x / nwords fs < b + o then s.disk (bprev * nwords fs + (x - b * nwords fs)) else 0, b))
      else .ok none

/-- `free`. -/
def release (s : State) (b size : ℕ) : Except Panic State :=
  let n := numfrags fs size
  if (List.range n).any fun i => s.free (b + i) then .error .freeingFreeFrag
  else .ok { s with free := fun f => if b ≤ f ∧ f < b + n then true else s.free f }

/-- A fragment of the inode is reallocated, and the old one is released if it was moved; `none` if there is
    no space. -/
def reallocate (s : State) (pick : Option ℕ) (bn osize nsize : ℕ) : Except Panic (Option (State × ℕ)) := do
  let ob := s.i_db bn
  match ← realloccg fs s pick ob osize nsize with
  | none => .ok none
  | some (s, nb) =>
    let s := { s with i_db := update s.i_db bn nb }
    if nb = ob then .ok (some (s, nb))
    else do
      let s ← release fs s ob osize
      .ok (some (s, nb))

/-! ### `bmap` -/

/-- The last fragment of a file is extended by a write that is to extend the file into a new block. -/
def extendLast (s : State) (pick : Option ℕ) (bn : ℤ) : Except Panic (Option State) :=
  let lbn := lblkno fs s.i_size
  let osize := blksize fs s.i_size lbn
  if lbn < NDADDR ∧ lbn < bn ∧ osize < fs.fs_bsize ∧ 0 < osize then do
    match ← reallocate fs s pick lbn osize fs.fs_bsize with
    | none => .ok none
    | some (s, _) => .ok (some { s with i_size := (lbn + 1) * fs.fs_bsize })
  else .ok (some s)

/-- A direct block. -/
def direct (s : State) (bn : ℕ) (rw : Rw) (pick : Option ℕ) : Except Panic (State × Ret) :=
  let nb := s.i_db bn
  match rw with
  | .read => .ok (s, if nb = 0 then .none else .block nb)
  | .write size =>
    if nb = 0 then
      let nsize := if s.i_size < (bn + 1) * fs.fs_bsize then fragroundup fs size else fs.fs_bsize
      match alloc fs s pick nsize with
      | none => .ok (s, .none)
      | some (s, nb) => .ok ({ s with i_db := update s.i_db bn nb }, .block nb)
    else if s.i_size < (bn + 1) * fs.fs_bsize then
      let osize := fragroundup fs (blkoff fs s.i_size)
      let nsize := fragroundup fs size
      if nsize ≤ osize then .ok (s, .block nb)
      else do
        match ← reallocate fs s pick bn osize nsize with
        | none => .ok (s, .none)
        | some (s, nb) => .ok (s, .block nb)
    else .ok (s, .block nb)

/-- Fetches through the indirect blocks; `ra` is the entry after the last one. -/
def fetch (rw : Rw) : List ℤ → (ℕ → Option ℕ) → State → ℕ → Option ℕ → State × Ret × Option ℕ
  | [], _, s, nb, ra => (s, .block nb, ra)
  | i :: is, pick, s, nb, _ =>
    let ra (s : State) := if i < nindir fs - 1 then some (s.entry fs nb (i + 1)) else none
    if s.error nb then (s, .error, none)
    else if s.entry fs nb i = 0 then
      match rw with
      | .read => (s, .none, none)
      | .write _ =>
        match alloc fs s (pick 0) fs.fs_bsize with
        | none => (s, .none, none)
        | some (s, e) =>
          let s := s.setEntry fs nb i e
          fetch rw is (fun k => pick (k + 1)) s e (ra s)
    else fetch rw is (fun k => pick (k + 1)) s (s.entry fs nb i) (ra s)

/-- An indirect address, of a block that is added if there is none. -/
def indirect (s : State) (level : ℕ) (is : List ℤ) (rw : Rw) (pick : ℕ → Option ℕ) : State × Ret × Option ℕ :=
  let nb := s.i_ib level
  if nb = 0 then
    match rw with
    | .read => (s, .none, none)
    | .write _ =>
      match alloc fs s (pick 0) fs.fs_bsize with
      | none => (s, .none, none)
      | some (s, nb) =>
        fetch fs rw is (fun k => pick (k + 1)) { s with i_ib := update s.i_ib level nb } nb none
  else fetch fs rw is (fun k => pick (k + 1)) s nb none

end Uwisc.Ufs.Bmap
