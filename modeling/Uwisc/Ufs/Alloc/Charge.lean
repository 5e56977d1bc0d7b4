import Uwisc.Ufs.Quota.Check
import Uwisc.Ufs.Summary

/-!
# Charging for a block, and taking it

`alloc`, `realloccg` and `hashalloc` of `sys/ufs/ufs_alloc.c`. A call charges the user first (`chkdq`),
then takes the space in one of the groups, and `realloccg` then reads the old fragment. Whether
the blocks of the groups and the old fragment can be read are arguments.

If a call returns `NULL`, its charge and the space are not given back. So there is no trace of it
exactly if it fails before the user is charged, or there was nothing to charge and no space
(`null_iff`).
-/

namespace Uwisc.Ufs.Charge

open Lib Chkdq

def DEV_BSIZE : ℕ := 512

def MAXBSIZE : ℕ := 8192

/-- The super block, with what `alloc` looks at besides the layout; `mountfs` checks the size of a block. -/
structure Super extends Fs where
  fs_ipg : ℕ
  fs_dsize : ℤ
  fs_minfree : ℤ
  bsize_le : fs_bsize ≤ MAXBSIZE

instance : Coe Super Fs := ⟨Super.toFs⟩

/-- The user, the inode, the mount and the clock, as a call finds them; `junk` is what is in
    `ncurblocks` before it is set. -/
structure Env where
  u_uid : ℤ
  u_ruid : ℤ
  i_uid : ℤ
  i_number : ℕ
  tv_sec : BitVec 32
  m_btimelimit : BitVec 32
  junk : BitVec 32

/-- The file system, the dquot of the inode if it has one, and the count of its blocks. -/
structure Kernel where
  s : State
  i_dquot : Option Dquot
  i_blocks : ℤ

/-- A buffer for the block, or `NULL` with `u_error`. -/
inductive Errno
  | ENOSPC | EDQUOT
  /-- What a read has failed with. -/
  | io
  deriving DecidableEq

abbrev Ret := Except Errno ℕ

inductive Panic
  /-- In a group. -/
  | group (p : Ufs.Panic)
  /-- `alloc: bad size`, `realloccg: bad size`. -/
  | badSize
  /-- `realloccg: bad bprev`. -/
  | badBprev

variable (fs : Super)

/-- `itog`: the cylinder group of an inode. -/
def itog (ino : ℕ) : ℕ := ino / fs.fs_ipg

def btodb (bytes : ℕ) : ℕ := bytes / DEV_BSIZE

/-- The number of free fragments, without those that are reserved. -/
def freespace (s : State) : ℤ :=
  s.fs_cstotal.cs_nbfree * fs.fs_frag + s.fs_cstotal.cs_nffree - (fs.fs_dsize * fs.fs_minfree).tdiv 100

/-- `chkdq`, called with blocks for the inode. -/
def Env.call (e : Env) (blocks : ℕ) : Chkdq.Call where
  change := BitVec.ofNat 32 blocks
  force := false
  u_uid := e.u_uid
  u_ruid := e.u_ruid
  i_uid := e.i_uid
  tv_sec := e.tv_sec
  m_btimelimit := e.m_btimelimit

def Kernel.charge (k : Kernel) (e : Env) (blocks : ℕ) : Kernel × Bool :=
  match k.i_dquot with
  | none => (k, false)
  | some d =>
    let r := chkdq e.junk (e.call blocks) d
    ({ k with i_dquot := some r.dquot }, r.error)

/-! ### Groups -/

/-- The groups of the quadratic rehash, from the step `i` on; there are no more steps than groups. -/
def rehash (ncg : ℕ) : ℕ → ℕ → ℕ → List ℕ
  | 0, _, _ => []
  | n + 1, i, cg =>
    if i < ncg then
      let cg := if ncg ≤ cg + i then cg + i - ncg else cg + i
      cg :: rehash ncg n (i * 2) cg
    else []

/-- The groups that are searched after the first one. -/
def others (ncg icg : ℕ) : List ℕ :=
  rehash ncg ncg 1 icg ++ (List.range (ncg - 2)).map fun i => ((icg + 2) % ncg + i) % ncg

/-- Tries `alloccg` in one group after the other; `error n` says if the block of the group cannot be
    read, at the try number `n`. -/
def tryGroups (s : State) (error : ℕ → Bool) (size : ℕ) : List (ℕ × ℕ) → ℕ → Except Panic (State × ℕ)
  | [], _ => .ok (s, 0)
  | (cg, pref) :: cgs, n =>
    match alloccg fs s (error n) cg pref size with
    | .error p => .error (.group p)
    | .ok (s, result) => if result ≠ 0 then .ok (s, result) else tryGroups s error size cgs (n + 1)

/-- `hashalloc`, of blocks. -/
def hashalloc (s : State) (error : ℕ → Bool) (cg pref size : ℕ) : Except Panic (State × ℕ) :=
  tryGroups fs s error size ((cg, pref) :: (others fs.fs_ncg cg).map fun cg => (cg, 0)) 0

/-! ### Calls -/

/-- `alloc`. -/
def alloc (k : Kernel) (e : Env) (error : ℕ → Bool) (bpref size : ℕ) : Except Panic (Kernel × Ret) :=
  if fs.fs_bsize < size ∨ fragoff fs size ≠ 0 then .error .badSize
  else if size = fs.fs_bsize ∧ k.s.fs_cstotal.cs_nbfree = 0 then .ok (k, .error .ENOSPC)
  else if e.u_uid ≠ 0 ∧ freespace fs k.s ≤ 0 then .ok (k, .error .ENOSPC)
  else
    let (k, u_error) := k.charge e (btodb size)
    if u_error then .ok (k, .error .EDQUOT)
    else
      let bpref := if fs.fs_size ≤ bpref then 0 else bpref
      let cg := if bpref = 0 then itog fs e.i_number else dtog fs bpref
      match hashalloc fs k.s error cg bpref size with
      | .error p => .error p
      | .ok (s, bno) =>
        let k := { k with s := s }
        if bno = 0 then .ok (k, .error .ENOSPC)
        else .ok ({ k with i_blocks := k.i_blocks + btodb size }, .ok bno)

/-- The end of `realloccg`, where there is space: the old fragment is read. -/
def Kernel.moved (k : Kernel) (readError : Bool) (blocks bno : ℕ) : Kernel × Ret :=
  if readError then (k, .error .io) else ({ k with i_blocks := k.i_blocks + blocks }, .ok bno)

/-- `realloccg`; `extError` says if `fragextend` cannot read the group. -/
def realloccg (k : Kernel) (e : Env) (extError : Bool) (error : ℕ → Bool) (readError : Bool)
    (bprev bpref osize nsize : ℕ) : Except Panic (Kernel × Ret) :=
  if fs.fs_bsize < osize ∨ fragoff fs osize ≠ 0 ∨ fs.fs_bsize < nsize ∨ fragoff fs nsize ≠ 0 then
    .error .badSize
  else if e.u_uid ≠ 0 ∧ freespace fs k.s ≤ 0 then .ok (k, .error .ENOSPC)
  else if bprev = 0 then .error .badBprev
  else
    let (k, u_error) := k.charge e (btodb (nsize - osize))
    if u_error then .ok (k, .error .EDQUOT)
    else
      let cg := dtog fs bprev
      match fragextend fs k.s extError cg bprev osize nsize with
      | (s, bno) =>
        let k := { k with s := s }
        if bno ≠ 0 then .ok (k.moved readError (btodb (nsize - osize)) bno)
        else
          let bpref := if fs.fs_size ≤ bpref then 0 else bpref
          match hashalloc fs k.s error cg bpref nsize with
          | .error p => .error p
          | .ok (s, bno) =>
            let k := { k with s := s }
            if bno = 0 then .ok (k, .error .ENOSPC) else .ok (k.moved readError (btodb (nsize - osize)) bno)

/-! ### What is there of a call -/

/-- A call. -/
inductive Request
  | alloc (error : ℕ → Bool) (bpref size : ℕ)
  | realloccg (extError : Bool) (error : ℕ → Bool) (readError : Bool) (bprev bpref osize nsize : ℕ)

def exec (k : Kernel) (e : Env) : Request → Except Panic (Kernel × Ret)
  | .alloc error bpref size => Charge.alloc fs k e error bpref size
  | .realloccg extError error readError bprev bpref osize nsize =>
    Charge.realloccg fs k e extError error readError bprev bpref osize nsize

/-- The free maps and the summaries are the same. -/
structure SameSpace (s s' : State) : Prop where
  total : s'.fs_cstotal = s.fs_cstotal
  copy : s'.fs_cs = s.fs_cs
  cs : ∀ cg, (s'.cgs cg).cg_cs = (s.cgs cg).cg_cs
  frsum : ∀ cg, (s'.cgs cg).cg_frsum = (s.cgs cg).cg_frsum
  btot : ∀ cg, (s'.cgs cg).cg_btot = (s.cgs cg).cg_btot
  b : ∀ cg, (s'.cgs cg).cg_b = (s.cgs cg).cg_b
  free : ∀ cg, (s'.cgs cg).cg_free = (s.cgs cg).cg_free

/-- The usage of the user, the blocks of the inode and the space are the same. -/
structure NoTrace (k k' : Kernel) : Prop where
  usage : k'.i_dquot.map Dquot.dq_curblocks = k.i_dquot.map Dquot.dq_curblocks
  blocks : k'.i_blocks = k.i_blocks
  space : SameSpace k.s k'.s

/-- The summaries are consistent, and the first fragment, that of the boot block, is not free. -/
structure Valid (s : State) : Prop extends Consistent fs s where
  boot : bit (s.cgs 0).cg_free 0 = false

/-- The inode is one of the file system; sizes are positive, and grow. -/
def Proper (e : Env) : Request → Prop
  | .alloc _ _ size => itog fs e.i_number < fs.fs_ncg ∧ 0 < size
  | .realloccg _ _ _ bprev _ osize nsize => bprev < fs.fs_size ∧ osize < nsize

/-- A group that can be read has space for a size. -/
def Available (s : State) (error : Bool) (cg size : ℕ) : Prop :=
  error = false ∧ (s.cgs cg).cg_magic = CG_MAGIC ∧
    if size = fs.fs_bsize then (s.fs_cs cg).cs_nbfree ≠ 0 ∧ (s.cgs cg).cg_cs.cs_nbfree ≠ 0
    else (s.cgs cg).cg_cs.cs_nbfree ≠ 0 ∨
      ∃ siz, numfrags fs size ≤ siz ∧ siz < fs.fs_frag ∧ (s.cgs cg).cg_frsum siz ≠ 0

/-- One of the groups that are searched from a group on has. -/
def AnyAvailable (s : State) (error : ℕ → Bool) (icg size : ℕ) : Prop :=
  ∃ n cg, (icg :: others fs.fs_ncg icg)[n]? = some cg ∧ Available fs s (error n) cg size

/-- A fragment can be extended where it is. -/
def Extendable (s : State) (error : Bool) (bprev osize nsize : ℕ) : Prop :=
  let cg := dtog fs bprev
  let frags := numfrags fs nsize
  (numfrags fs (nsize - osize) : ℤ) ≤ (s.fs_cs cg).cs_nffree ∧
    fragnum fs bprev ≤ fragnum fs (bprev + frags - 1) ∧ error = false ∧ (s.cgs cg).cg_magic = CG_MAGIC ∧
    ∀ i, numfrags fs osize ≤ i → i < frags → bit (s.cgs cg).cg_free (dtogd fs bprev + i) = true

/-- The user is charged with blocks so that the usage changes: an ordinary one with any, and the
    super-user if the usage is not what is in `ncurblocks`. -/
def Charged (k : Kernel) (e : Env) (blocks : ℕ) : Prop :=
  ∃ d, k.i_dquot = some d ∧ blocks ≠ 0 ∧ (e.u_uid = 0 → e.junk ≠ d.dq_curblocks)

/-- The user is refused for a limit. -/
def Denied (k : Kernel) (e : Env) (blocks : ℕ) : Prop :=
  ∃ d, k.i_dquot = some d ∧ blocks ≠ 0 ∧ e.u_uid ≠ 0 ∧ Refused (e.call blocks) d

/-- The file system is full for the user, up to what is reserved. -/
def Reserved (s : State) (e : Env) : Prop := e.u_uid ≠ 0 ∧ freespace fs s ≤ 0

/-- The call fails before the user is charged; or it succeeds; or there is nothing to charge, and no
    space. -/
def Spared (k : Kernel) (e : Env) : Request → Prop
  | .alloc error bpref size =>
    let icg := if fs.fs_size ≤ bpref ∨ bpref = 0 then itog fs e.i_number else dtog fs bpref
    size = fs.fs_bsize ∧ k.s.fs_cstotal.cs_nbfree = 0 ∨ Reserved fs k.s e ∨ Denied k e (btodb size) ∨
      AnyAvailable fs k.s error icg size ∨ ¬Charged k e (btodb size)
  | .realloccg extError error readError bprev _ osize nsize =>
    let space := Extendable fs k.s extError bprev osize nsize ∨
      AnyAvailable fs k.s error (dtog fs bprev) nsize
    Reserved fs k.s e ∨ Denied k e (btodb (nsize - osize)) ∨ readError = false ∧ space ∨
      ¬space ∧ ¬Charged k e (btodb (nsize - osize))

end Uwisc.Ufs.Charge
