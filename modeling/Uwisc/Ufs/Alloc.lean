import Mathlib.Data.List.Range
import Uwisc.Ufs.Fs

/-!
# Allocating and freeing blocks and fragments

`alloccg`, `fragextend` and `free` of `sys/ufs/ufs_alloc.c`, with what they call
there, and `fragacct` of `ufs_subr.c`.

A call returns the number of a file system block, `0` for `NULL`, or ends in a `panic`.
Whether `bread` gets the block of the cylinder group is an argument; the
time stamps and the flag that the super block is modified are not kept.
-/

namespace Uwisc.Ufs

open Function List

/-- The ways a call ends in `panic`. -/
inductive Panic
  | mapCorrupted
  | blockNotInMap
  | cylGroupsCorrupted
  | cantFindBlk
  | badSize
  | freeingFreeBlock
  | freeingFreeFrag
  deriving DecidableEq, Repr

/-! ### Counting -/

/-- Changes the cylinder group. -/
def State.modify (s : State) (cg : ℕ) (f : Cg → Cg) : State :=
  { s with cgs := update s.cgs cg (f (s.cgs cg)) }

/-- `cg_cs.cs_nbfree += d`. -/
def Cg.addNbfree (cgp : Cg) (d : ℤ) : Cg :=
  { cgp with cg_cs := { cgp.cg_cs with cs_nbfree := cgp.cg_cs.cs_nbfree + d } }

/-- `cg_cs.cs_nffree += d`. -/
def Cg.addNffree (cgp : Cg) (d : ℤ) : Cg :=
  { cgp with cg_cs := { cgp.cg_cs with cs_nffree := cgp.cg_cs.cs_nffree + d } }

/-- Adds to the free blocks of a group, to their total and to the copy of the count for `cgx`. -/
def State.addNbfree (s : State) (cg cgx : ℕ) (d : ℤ) : State where
  cgs := update s.cgs cg ((s.cgs cg).addNbfree d)
  fs_cstotal := { s.fs_cstotal with cs_nbfree := s.fs_cstotal.cs_nbfree + d }
  fs_cs := update s.fs_cs cgx
    { s.fs_cs cgx with cs_nbfree := (s.fs_cs cgx).cs_nbfree + d }

/-- Adds to the free fragments of a group, to their total and to the copy of the count. -/
def State.addNffree (s : State) (cg : ℕ) (d : ℤ) : State where
  cgs := update s.cgs cg ((s.cgs cg).addNffree d)
  fs_cstotal := { s.fs_cstotal with cs_nffree := s.fs_cstotal.cs_nffree + d }
  fs_cs := update s.fs_cs cg
    { s.fs_cs cg with cs_nffree := (s.fs_cs cg).cs_nffree + d }

variable (fs : Fs)

/-- `cg_b[cbtocylno (bno)][cbtorpos (bno)] += d; cg_btot[cbtocylno (bno)] += d`. -/
def Cg.addBlk (cgp : Cg) (bno : ℕ) (d : ℤ) : Cg :=
  let i := cbtocylno fs bno
  let rpos := cbtorpos fs bno
  { cgp with
    cg_b := update cgp.cg_b i (update (cgp.cg_b i) rpos (cgp.cg_b i rpos + d))
    cg_btot := update cgp.cg_btot i (cgp.cg_btot i + d) }

/-- The fragments of `siz` in the pattern of a block of `frag`, found from `pos` on; `n` is
    at least the number of positions left. -/
def countFrags (frag fragmap siz : ℕ) : ℕ → ℕ → ℕ → ℕ → ℕ
  | 0, _, _, _ => 0
  | n + 1, pos, field, subfield =>
    if frag < pos then 0
    else if fragmap &&& field = subfield then
      countFrags frag fragmap siz n (pos + siz + 1) (field <<< siz <<< 1) (subfield <<< siz <<< 1) + 1
    else countFrags frag fragmap siz n (pos + 1) (field <<< 1) (subfield <<< 1)

/-- Updates the frsum fields to reflect addition or deletion of some frags. -/
def fragacct (fragmap : ℕ) (fraglist : ℕ → ℤ) (cnt : ℤ) : ℕ → ℤ :=
  let inblk := (fragtbl fs.fs_frag).getD fragmap 0 <<< 1
  let fragmap := fragmap <<< 1
  (range' 1 (fs.fs_frag - 1)).foldl (fun fraglist siz =>
    if inblk &&& 1 <<< (siz + fs.fs_frag % NBBY) = 0 then fraglist
    else update fraglist siz (fraglist siz + cnt *
      countFrags fs.fs_frag fragmap siz fs.fs_frag siz (around.getD siz 0) (inside.getD siz 0))) fraglist

/-! ### Searching the map -/

/-- `scanc`: what is left of `size` bytes from the first one whose entry in the table has a
    bit of the mask. -/
def scanc (cp : FreeMap) (table : List ℕ) (mask : ℕ) : ℕ → ℕ → ℕ
  | 0, _ => 0
  | size + 1, start =>
    if table.getD (cp start).toNat 0 &&& mask = 0 then scanc cp table mask size (start + 1)
    else size + 1

/-- Sifts through the bits of a byte to find the selected frag. -/
def siftBits (map : FreeMap) (allocsiz bno : ℕ) : Option ℕ :=
  (range (NBBY / fs.fs_frag)).findSome? fun j =>
    let bno := bno + j * fs.fs_frag
    let blk := blkmap fs map bno <<< 1
    ((range (fs.fs_frag - allocsiz + 1)).find? fun pos =>
      blk &&& around.getD allocsiz 0 <<< pos = inside.getD allocsiz 0 <<< pos).map (bno + ·)

/-- Finds a block of the specified size in the specified cylinder group. -/
def mapsearch (cgp : Cg) (bpref allocsiz : ℕ) : Except Panic (Cg × ℕ) :=
  let start := (if bpref ≠ 0 then dtogd fs bpref else cgp.cg_frotor) / NBBY
  let len := howmany fs.fs_fpg NBBY - start
  let scan := scanc cgp.cg_free (fragtbl fs.fs_frag) (1 <<< (allocsiz - 1 + fs.fs_frag % NBBY))
  let loc := scan len start
  let found (bno : ℕ) : Except Panic (Cg × ℕ) :=
    match siftBits fs cgp.cg_free allocsiz bno with
    | some bno' => .ok ({ cgp with cg_frotor := bno }, bno')
    | none => .error .blockNotInMap
  if loc ≠ 0 then found ((start + len - loc) * NBBY)
  else
    let len := start + 1
    let loc := scan len 0
    if loc = 0 then .error .mapCorrupted else found ((len - loc) * NBBY)

/-! ### Allocating -/

/-- Takes the next available block of the group. -/
def norot (cgp : Cg) (bpref : ℕ) : Except Panic (Cg × ℕ) := do
  let (cgp, bno) ← mapsearch fs cgp bpref fs.fs_frag
  .ok ({ cgp with cg_rotor := bno }, bno)

/-- The rotational position to take a block at: the first one from `pos` on, proceeding
    around, where one is available. -/
def rotpos (cylbp : ℕ → ℤ) (pos : ℕ) : ℕ :=
  match (range' pos (NRPOS - pos)).find? fun i => 0 < cylbp i with
  | some i => i
  | none => ((range pos).find? fun i => 0 < cylbp i).getD pos

/-- Finds the actual block at a rotational position. -/
def rotblk (map : FreeMap) (bno i : ℕ) : Option ℕ :=
  if isblock fs map (bno + i) then some (blkstofrags fs (bno + i))
  else
    let delta := fs.fs_rotbl i
    if delta = 0 ∨ MAXBPC < i + delta then none else rotblk map bno (i + delta)
termination_by MAXBPC - i

/-- The block to allocate: the requested one, one that is rotationally optimal in the same
    cylinder, or the next available one. -/
def choose (cgp : Cg) (bpref : ℕ) : Except Panic (Cg × ℕ) :=
  if bpref = 0 then norot fs cgp cgp.cg_rotor
  else
    let bpref := dtogd fs (blknum fs bpref)
    if isblock fs cgp.cg_free (fragstoblks fs bpref) then .ok (cgp, bpref)
    else
      let cylno := cbtocylno fs bpref
      if cgp.cg_btot cylno = 0 then norot fs cgp bpref
      else if fs.fs_cpc = 0 then norot fs cgp (howmany (fs.fs_spc * cylno) fs.fs_nspf)
      else
        let cylbp := cgp.cg_b cylno
        let i := rotpos cylbp (cbtorpos fs bpref)
        if 0 < cylbp i then
          let pos := cylno % fs.fs_cpc
          let bno := (cylno - pos) * fs.fs_spc / nspb fs
          if fs.fs_postbl pos i = -1 then .error .cylGroupsCorrupted
          else
            match rotblk fs cgp.cg_free bno (fs.fs_postbl pos i).toNat with
            | some bno => .ok (cgp, bno)
            | none => .error .cantFindBlk
        else norot fs cgp bpref

/-- Allocates a block in a cylinder group. -/
def alloccgblk (s : State) (cg bpref : ℕ) : Except Panic (State × ℕ) := do
  let (cgp, bno) ← choose fs (s.cgs cg) bpref
  let cgp := { cgp with cg_free := clrblock fs cgp.cg_free (fragstoblks fs bno) }
  let s := (s.modify cg fun _ => cgp).addNbfree cg cgp.cg_cgx (-1)
  .ok (s.modify cg fun cgp => cgp.addBlk fs bno (-1), cgp.cg_cgx * fs.fs_fpg + bno)

/-- Adds `d` to the number of free fragments of a size. -/
def Cg.addFrsum (cgp : Cg) (siz : ℕ) (d : ℤ) : Cg :=
  { cgp with cg_frsum := update cgp.cg_frsum siz (cgp.cg_frsum siz + d) }

/-- Sets the bits of `n` fragments. -/
def Cg.setFrags (cgp : Cg) (bno n : ℕ) : Cg :=
  { cgp with cg_free := (range' bno n).foldl setbit cgp.cg_free }

/-- Clears the bits of `n` fragments. -/
def Cg.clrFrags (cgp : Cg) (bno n : ℕ) : Cg :=
  { cgp with cg_free := (range' bno n).foldl clrbit cgp.cg_free }

/-- Determines whether a block can be allocated, of a whole block or of fragments, and
    allocates it. -/
def alloccg (s : State) (error : Bool) (cg bpref size : ℕ) : Except Panic (State × ℕ) :=
  let cgp := s.cgs cg
  if (s.fs_cs cg).cs_nbfree = 0 ∧ size = fs.fs_bsize then .ok (s, 0)
  else if error ∨ cgp.cg_magic ≠ CG_MAGIC ∨ cgp.cg_cs.cs_nbfree = 0 ∧ size = fs.fs_bsize then
    .ok (s, 0)
  else if size = fs.fs_bsize then alloccgblk fs s cg bpref
  else
    let frags := numfrags fs size
    -- the smallest fragment there is that is large enough
    match (range' frags (fs.fs_frag - frags)).find? fun siz => cgp.cg_frsum siz ≠ 0 with
    | none =>
      if cgp.cg_cs.cs_nbfree = 0 then .ok (s, 0)
      else do
        let (s, bno) ← alloccgblk fs s cg bpref
        let bpref := dtogd fs bno
        let i := fs.fs_frag - frags
        let s := (s.modify cg fun cgp => cgp.setFrags (bpref + frags) i).addNffree cg i
        .ok (s.modify cg fun cgp => cgp.addFrsum i 1, bno)
    | some allocsiz => do
      let (cgp, bno) ← mapsearch fs cgp bpref allocsiz
      let s := (s.modify cg fun _ => cgp.clrFrags bno frags).addNffree cg (-frags)
      let s := s.modify cg fun cgp =>
        let cgp := cgp.addFrsum allocsiz (-1)
        if frags ≠ allocsiz then cgp.addFrsum (allocsiz - frags) 1 else cgp
      .ok (s, cg * fs.fs_fpg + bno)

/-- Determines whether a fragment can be extended, and extends it. -/
def fragextend (s : State) (error : Bool) (cg bprev osize nsize : ℕ) : State × ℕ :=
  let cgp := s.cgs cg
  let ofrags := numfrags fs osize
  let frags := numfrags fs nsize
  let bbase := fragnum fs bprev
  if (s.fs_cs cg).cs_nffree < numfrags fs (nsize - osize) then (s, 0)
  -- cannot extend across a block boundary
  else if bbase > fragnum fs (bprev + frags - 1) then (s, 0)
  else if error ∨ cgp.cg_magic ≠ CG_MAGIC then (s, 0)
  else
    let bno := dtogd fs bprev
    if (range' ofrags (frags - ofrags)).any fun i => isclr cgp.cg_free (bno + i) then (s, 0)
    else
      let i := ((range' frags (fs.fs_frag - bbase - frags)).find? fun i =>
        isclr cgp.cg_free (bno + i)).getD (max frags (fs.fs_frag - bbase))
      let s := s.modify cg fun cgp =>
        let cgp := cgp.addFrsum (i - ofrags) (-1)
        if i ≠ frags then cgp.addFrsum (i - frags) 1 else cgp
      let s := (range' ofrags (frags - ofrags)).foldl (fun s i =>
        (s.modify cg fun cgp => { cgp with cg_free := clrbit cgp.cg_free (bno + i) }).addNffree cg (-1)) s
      (s, bprev)

/-! ### Freeing -/

/-- Sets the bits of fragments that are all to be clear. -/
def freeFrags (map : FreeMap) (bno : ℕ) : ℕ → Except Panic FreeMap
  | 0 => .ok map
  | n + 1 =>
    if isset map bno then .error .freeingFreeFrag
    else freeFrags (setbit map bno) (bno + 1) n

/-- Accounts for a complete block that is free. -/
def State.addBlk (s : State) (cg bno : ℕ) : State :=
  (s.addNbfree cg cg 1).modify cg fun cgp => cgp.addBlk fs bno 1

/-- Frees a block or fragment. -/
def free (s : State) (error : Bool) (bno size : ℕ) : Except Panic State :=
  if fs.fs_bsize < size ∨ fragoff fs size ≠ 0 then .error .badSize
  else
    let cg := dtog fs bno
    let cgp := s.cgs cg
    -- badblock
    if fs.fs_size ≤ bno then .ok s
    else if error ∨ cgp.cg_magic ≠ CG_MAGIC then .ok s
    else
      let bno := dtogd fs bno
      if size = fs.fs_bsize then
        if isblock fs cgp.cg_free (fragstoblks fs bno) then .error .freeingFreeBlock
        else
          let s := s.modify cg fun cgp =>
            { cgp with cg_free := setblock fs cgp.cg_free (fragstoblks fs bno) }
          .ok (s.addBlk fs cg bno)
      else do
        let bbase := bno - fragnum fs bno
        -- decrement the counts associated with the old frags
        let frsum := fragacct fs (blkmap fs cgp.cg_free bbase) cgp.cg_frsum (-1)
        let frags := numfrags fs size
        let map ← freeFrags cgp.cg_free bno frags
        -- add back in counts associated with the new frags
        let frsum := fragacct fs (blkmap fs map bbase) frsum 1
        let s := (s.modify cg fun cgp => { cgp with cg_free := map, cg_frsum := frsum }).addNffree cg frags
        -- if a complete block has been reassembled, account for it
        if isblock fs map (fragstoblks fs bbase) then
          .ok ((s.addNffree cg (-fs.fs_frag)).addBlk fs cg bbase)
        else .ok s

end Uwisc.Ufs
