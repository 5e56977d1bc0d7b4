import Mathlib.Algebra.Order.Ring.Int

/-!
# Charging the blocks of a user

`chkdq` of `sys/ufs/quota_ufs.c`, on the usage and the limits of a user that a dquot has
(`struct dqblk`), where the counts and the times are unsigned longs, and a change is a long. What it
prints is the list of its messages.

`ncurblocks` is set for ordinary users alone, and stored for the super-user too: what is in it then
is an argument, `junk`. A ledger of the calls is exact if and only if no call charges the super-user,
and none goes beyond what the counts can hold (`exactRun_iff`).
-/

namespace Uwisc.Ufs.Chkdq

open BitVec

/-- A dquot: the flags `DQ_MOD` and `DQ_BLKS`, and of its `struct dqblk` what is about blocks. -/
structure Dquot where
  mod : Bool
  blks : Bool
  dq_bhardlimit : BitVec 32
  dq_bsoftlimit : BitVec 32
  dq_curblocks : BitVec 32
  dq_btimelimit : BitVec 32
  deriving DecidableEq

/-- A call, with what it looks at of the user, the inode, the mount and the clock. -/
structure Call where
  change : BitVec 32
  force : Bool
  u_uid : ℤ
  u_ruid : ℤ
  i_uid : ℤ
  tv_sec : BitVec 32
  m_btimelimit : BitVec 32
  deriving DecidableEq

/-- What is printed on the terminal of the user. -/
inductive Message
  /-- `DISK LIMIT REACHED (%s) - WRITE FAILED`. -/
  | limitReached
  /-- `WARNING: disk quota (%s) exceeded`. -/
  | exceeded
  /-- `OVER DISK QUOTA: (%s) NO MORE DISK SPACE`. -/
  | overQuota
  deriving DecidableEq

/-- What a call leaves, and whether it returns `EDQUOT`. -/
structure Result where
  dquot : Dquot
  error : Bool
  messages : List Message
  deriving DecidableEq

/-- The usage would reach the hard limit. -/
def overHard (c : Call) (d : Dquot) (ncurblocks : BitVec 32) : Prop :=
  d.dq_bhardlimit ≤ ncurblocks ∧ d.dq_bhardlimit ≠ 0 ∧ c.force = false

/-- It would reach the soft limit. -/
def overSoft (d : Dquot) (ncurblocks : BitVec 32) : Prop := d.dq_bsoftlimit ≤ ncurblocks ∧ d.dq_bsoftlimit ≠ 0

/-- The user was below the soft limit, or has no time limit yet. -/
def first (d : Dquot) : Prop := d.dq_curblocks < d.dq_bsoftlimit ∨ d.dq_btimelimit = 0

/-- The time has run out. -/
def late (c : Call) (d : Dquot) : Prop := d.dq_btimelimit < c.tv_sec ∧ c.force = false

instance (c : Call) (d : Dquot) (n : BitVec 32) : Decidable (overHard c d n) := inferInstanceAs (Decidable (_ ∧ _))
instance (d : Dquot) (n : BitVec 32) : Decidable (overSoft d n) := inferInstanceAs (Decidable (_ ∧ _))
instance (d : Dquot) : Decidable (first d) := inferInstanceAs (Decidable (_ ∨ _))
instance (c : Call) (d : Dquot) : Decidable (late c d) := inferInstanceAs (Decidable (_ ∧ _))

/-- The user is warned once, on a terminal of his own. -/
def Result.refuse (r : Result) (c : Call) (msg : Message) : Result :=
  if r.dquot.blks = false ∧ c.i_uid = c.u_ruid then
    ⟨{ r.dquot with blks := true }, true, r.messages ++ [msg]⟩
  else { r with error := true }

/-- The check of the hard limit. -/
def checkHard (c : Call) (ncurblocks : BitVec 32) (r : Result) : Result :=
  if overHard c r.dquot ncurblocks then r.refuse c .limitReached else r

/-- The check of the soft limit. -/
def checkSoft (c : Call) (ncurblocks : BitVec 32) (r : Result) : Result :=
  if overSoft r.dquot ncurblocks then
    if first r.dquot then
      { r with
        dquot := { r.dquot with dq_btimelimit := c.tv_sec + c.m_btimelimit }
        messages := if c.i_uid = c.u_ruid then r.messages ++ [.exceeded] else r.messages }
    else if late c r.dquot then r.refuse c .overQuota
    else r
  else r

/-- `out`: the usage is stored if there is no error. -/
def out (ncurblocks : BitVec 32) (r : Result) : Result :=
  if r.error = false then { r with dquot := { r.dquot with dq_curblocks := ncurblocks } } else r

/-- Fewer blocks are used. -/
def release (c : Call) (d : Dquot) : Result :=
  ⟨{ d with
    dq_curblocks := if 0 ≤ (d.dq_curblocks + c.change).toInt then d.dq_curblocks + c.change else 0
    blks := false }, false, []⟩

/-- `chkdq`, of an inode that has a dquot. -/
def chkdq (junk : BitVec 32) (c : Call) (d : Dquot) : Result :=
  if c.change = 0 then ⟨d, false, []⟩
  else
    let d := { d with mod := true }
    if c.change.toInt < 0 then release c d
    else if c.u_uid = 0 then out junk ⟨d, false, []⟩
    else
      let ncurblocks := d.dq_curblocks + c.change
      out ncurblocks (checkSoft c ncurblocks (checkHard c ncurblocks ⟨d, false, []⟩))

/-! ### The ledger -/

/-- The usage is that before with the change, or the same if there is an error; it does not reach the
    hard limit of an ordinary user without `force`. -/
structure Exact (c : Call) (d : Dquot) (r : Result) : Prop where
  charged : r.error = false → 0 < c.change.toInt →
    (r.dquot.dq_curblocks.toNat : ℤ) = d.dq_curblocks.toNat + c.change.toInt
  released : c.change.toInt < 0 →
    (r.dquot.dq_curblocks.toNat : ℤ) = max 0 (d.dq_curblocks.toNat + c.change.toInt)
  kept : r.error = true → r.dquot.dq_curblocks = d.dq_curblocks
  limit : c.u_uid ≠ 0 → c.force = false → d.dq_bhardlimit ≠ 0 → d.dq_curblocks < d.dq_bhardlimit →
    r.dquot.dq_curblocks < d.dq_bhardlimit

/-- The limits are exceeded. -/
def Refused (c : Call) (d : Dquot) : Prop :=
  let ncurblocks := d.dq_curblocks + c.change
  overHard c d ncurblocks ∨ overSoft d ncurblocks ∧ ¬first d ∧ late c d

instance (c : Call) (d : Dquot) : Decidable (Refused c d) := inferInstanceAs (Decidable (_ ∨ _))

/-- No change goes beyond what the counts can hold, and it is not the super-user who is charged. -/
structure Fits (c : Call) (d : Dquot) : Prop where
  released : c.change.toInt < 0 → (d.dq_curblocks.toNat : ℤ) + c.change.toInt < 2 ^ 31
  charged : 0 < c.change.toInt →
    c.u_uid ≠ 0 ∧ ((d.dq_curblocks.toNat : ℤ) + c.change.toInt < 2 ^ 32 ∨ Refused c d)

/-- Every call of a sequence is exact, whatever is in `ncurblocks` when it is not set. -/
def ExactRun : Dquot → List Call → Prop
  | _, [] => True
  | d, c :: cs => ∀ junk, Exact c d (chkdq junk c d) ∧ ExactRun (chkdq junk c d).dquot cs

def FitsRun : Dquot → List Call → Prop
  | _, [] => True
  | d, c :: cs => Fits c d ∧ ∀ junk, FitsRun (chkdq junk c d).dquot cs

variable {junk : BitVec 32} {c : Call} {d : Dquot}

/-- Refusing changes a flag alone. -/
theorem refuse_eq (r : Result) (c : Call) (msg : Message) :
    ∃ blks messages, r.refuse c msg = ⟨{ r.dquot with blks := blks }, true, messages⟩ := by
  rw [Result.refuse]
  split
  · exact ⟨true, _, rfl⟩
  · exact ⟨r.dquot.blks, _, rfl⟩

theorem checkHard_eq (c : Call) (d : Dquot) (ncurblocks : BitVec 32) :
    ∃ blks messages, checkHard c ncurblocks ⟨d, false, []⟩ =
      ⟨{ d with blks := blks }, decide (overHard c d ncurblocks), messages⟩ := by
  rw [checkHard]
  split_ifs with h
  · obtain ⟨blks, messages, heq⟩ := refuse_eq ⟨d, false, []⟩ c .limitReached
    exact ⟨blks, messages, by simp [heq, h]⟩
  · exact ⟨d.blks, [], by simp [h]⟩

/-- The checks change neither the usage nor the hard limit, and there is an error if a limit is exceeded. -/
theorem check_spec (c : Call) (d : Dquot) (ncurblocks : BitVec 32) :
    ∃ blks btimelimit messages, checkSoft c ncurblocks (checkHard c ncurblocks ⟨d, false, []⟩) =
      ⟨{ d with blks := blks, dq_btimelimit := btimelimit },
        decide (overHard c d ncurblocks ∨ overSoft d ncurblocks ∧ ¬first d ∧ late c d), messages⟩ := by
  obtain ⟨blks, messages, heq⟩ := checkHard_eq c d ncurblocks
  have hsoft : overSoft { d with blks := blks } ncurblocks ↔ overSoft d ncurblocks := Iff.rfl
  have hfst : first { d with blks := blks } ↔ first d := Iff.rfl
  have hlate : late c { d with blks := blks } ↔ late c d := Iff.rfl
  rw [heq, checkSoft]
  simp only [hsoft, hfst, hlate]
  by_cases h1 : overSoft d ncurblocks
  · by_cases h2 : first d
    · exact ⟨blks, c.tv_sec + c.m_btimelimit, if c.i_uid = c.u_ruid then messages ++ [.exceeded] else messages,
        by simp [h1, h2]⟩
    · by_cases h3 : late c d
      · obtain ⟨blks', messages', heq'⟩ :=
          refuse_eq ⟨{ d with blks := blks }, decide (overHard c d ncurblocks), messages⟩ c .overQuota
        exact ⟨blks', d.dq_btimelimit, messages', by simp [heq', h1, h2, h3]⟩
      · exact ⟨blks, d.dq_btimelimit, messages, by simp [h1, h2, h3]⟩
  · exact ⟨blks, d.dq_btimelimit, messages, by simp [h1]⟩

/-- What a call by an ordinary user does who is charged. -/
theorem chkdq_charge (junk : BitVec 32) (d : Dquot) (hpos : 0 < c.change.toInt) (huid : c.u_uid ≠ 0) :
    (chkdq junk c d).error = decide (Refused c d) ∧
      (chkdq junk c d).dquot.dq_curblocks = if Refused c d then d.dq_curblocks else d.dq_curblocks + c.change := by
  have hne : c.change ≠ 0 := by
    rintro h
    simp [h] at hpos
  obtain ⟨blks, btimelimit, messages, heq⟩ := check_spec c { d with mod := true } (d.dq_curblocks + c.change)
  have href : (overHard c { d with mod := true } (d.dq_curblocks + c.change) ∨
      overSoft { d with mod := true } (d.dq_curblocks + c.change) ∧ ¬first { d with mod := true } ∧
        late c { d with mod := true }) ↔ Refused c d := Iff.rfl
  rw [chkdq, if_neg hne, if_neg (Int.not_lt.2 (le_of_lt hpos)), if_neg huid]
  simp only [heq, href, out]
  by_cases h : Refused c d <;> simp [h]

/-- The sum of the usage and the change, as a number. -/
theorem toNat_add_change (d : Dquot) (change : BitVec 32) : ((d.dq_curblocks + change).toNat : ℤ) =
    (d.dq_curblocks.toNat + change.toInt) % 2 ^ 32 := by
  rw [toNat_add, toInt_eq_toNat_cond]
  split <;> omega

theorem chkdq_release (junk : BitVec 32) (d : Dquot) (hneg : c.change.toInt < 0) :
    (chkdq junk c d).error = false ∧ (chkdq junk c d).dquot.dq_curblocks =
      if 0 ≤ (d.dq_curblocks + c.change).toInt then d.dq_curblocks + c.change else 0 := by
  have hne : c.change ≠ 0 := by
    rintro h
    simp [h] at hneg
  rw [chkdq, if_neg hne, if_pos hneg]
  exact ⟨rfl, rfl⟩

/-- The super-user is charged with what is in `ncurblocks`. -/
theorem chkdq_root (junk : BitVec 32) (d : Dquot) (hpos : 0 < c.change.toInt) (huid : c.u_uid = 0) :
    (chkdq junk c d).error = false ∧ (chkdq junk c d).dquot.dq_curblocks = junk := by
  have hne : c.change ≠ 0 := by
    rintro h
    simp [h] at hpos
  rw [chkdq, if_neg hne, if_neg (Int.not_lt.2 (le_of_lt hpos)), if_pos huid]
  exact ⟨rfl, rfl⟩

theorem exact_zero (h : c.change = 0) : Exact c d (chkdq junk c d) := by
  rw [chkdq, if_pos h]
  refine ⟨fun _ hpos => ?_, fun hneg => ?_, fun _ => rfl, fun _ _ _ hlt => hlt⟩
  · simp [h] at hpos
  · simp [h] at hneg

theorem toInt_nonneg_iff (n : BitVec 32) : 0 ≤ n.toInt ↔ n.toNat < 2 ^ 31 := by
  rw [toInt_eq_toNat_cond]
  split <;> omega

/-- Fewer blocks are used, exactly if the sum is an `int`. -/
theorem exact_release (hneg : c.change.toInt < 0) :
    Exact c d (chkdq junk c d) ↔ (d.dq_curblocks.toNat : ℤ) + c.change.toInt < 2 ^ 31 := by
  obtain ⟨herr, hcur⟩ := chkdq_release junk d hneg
  have hsum := toNat_add_change d c.change
  have hlow : -2 ^ 31 ≤ c.change.toInt := le_toInt c.change
  have hlt := d.dq_curblocks.isLt
  simp only [toInt_nonneg_iff] at hcur
  constructor
  · intro h
    by_contra hle
    -- the sum is negative as an int, and the usage set to zero
    have hrel := h.released hneg
    rw [hcur, if_neg (by omega)] at hrel
    simp at hrel
    omega
  · intro hle
    have hnat : ((chkdq junk c d).dquot.dq_curblocks.toNat : ℤ) = max 0 (d.dq_curblocks.toNat + c.change.toInt) := by
      rw [hcur]
      split_ifs with h
      · omega
      · have hzero : (0 : BitVec 32).toNat = 0 := rfl
        omega
    refine ⟨fun _ hpos => ?_, fun _ => hnat, fun h => ?_, fun _ _ _ hblw => ?_⟩
    · omega
    · rw [herr] at h
      cases h
    · rw [lt_def] at hblw ⊢
      omega

/-- An ordinary user is charged, exactly if the sum is a count or the change is refused. -/
theorem exact_charge (hpos : 0 < c.change.toInt) (huid : c.u_uid ≠ 0) : Exact c d (chkdq junk c d) ↔
    (d.dq_curblocks.toNat : ℤ) + c.change.toInt < 2 ^ 32 ∨ Refused c d := by
  obtain ⟨herr, hcur⟩ := chkdq_charge junk d hpos huid
  have hsum := toNat_add_change d c.change
  have hhigh : c.change.toInt < 2 ^ 31 := toInt_lt
  by_cases href : Refused c d
  · rw [if_pos href] at hcur
    rw [decide_eq_true href] at herr
    refine iff_of_true ⟨fun h => ?_, fun hneg => ?_, fun _ => hcur, fun _ _ _ hblw => hcur ▸ hblw⟩ (.inr href)
    · rw [herr] at h
      cases h
    · omega
  · rw [if_neg href] at hcur
    rw [decide_eq_false href] at herr
    constructor
    · intro h
      have hcha := h.charged herr hpos
      rw [hcur, hsum] at hcha
      have hlt := (d.dq_curblocks + c.change).isLt
      omega
    · intro h
      have hfits := h.resolve_right href
      refine ⟨fun _ _ => ?_, fun hneg => ?_, fun h => ?_, fun _ hforce hlimit hblw => ?_⟩
      · rw [hcur, hsum]
        omega
      · omega
      · rw [herr] at h
        cases h
      · -- a sum that reaches the hard limit is refused
        rw [hcur]
        exact BitVec.not_le.1 fun hle => href (.inl ⟨hle, hlimit, hforce⟩)

/-- No charge of the super-user is exact for all values of `ncurblocks`. -/
theorem exact_root (hpos : 0 < c.change.toInt) (huid : c.u_uid = 0) :
    ¬∀ junk, Exact c d (chkdq junk c d) := by
  intro h
  obtain ⟨herr, hcur⟩ := chkdq_root d.dq_curblocks d hpos huid
  have hcha := (h d.dq_curblocks).charged herr hpos
  rw [hcur] at hcha
  omega

theorem exact_iff : (∀ junk, Exact c d (chkdq junk c d)) ↔ Fits c d := by
  rcases Int.lt_trichotomy c.change.toInt 0 with hneg | hzero | hpos
  · simp only [exact_release hneg, forall_const]
    exact ⟨fun h => ⟨fun _ => h, fun hpos => absurd hpos (Int.not_lt.2 (le_of_lt hneg))⟩, fun h => h.released hneg⟩
  · have hchan : c.change = 0 := eq_of_toInt_eq (by simpa using hzero)
    refine iff_of_true (fun junk => exact_zero hchan) ⟨fun hneg => ?_, fun hpos => ?_⟩
    · omega
    · omega
  · by_cases huid : c.u_uid = 0
    · exact iff_of_false (exact_root hpos huid) fun h => (h.charged hpos).1 huid
    · simp only [exact_charge hpos huid, forall_const]
      refine ⟨fun h => ⟨fun hneg => ?_, fun _ => ⟨huid, h⟩⟩, fun h => (h.charged hpos).2⟩
      omega

/-- A ledger of calls is exact if and only if no call charges the super-user, or goes beyond what the
    counts can hold. -/
theorem exactRun_iff (d : Dquot) (cs : List Call) : ExactRun d cs ↔ FitsRun d cs := by
  induction cs generalizing d with
  | nil => exact Iff.rfl
  | cons c cs ih =>
    simp only [ExactRun, FitsRun, ← exact_iff, ih]
    exact forall_and

/-- The super-user writes a block to a file of a user who has five. -/
theorem root_charged : ¬∀ d cs, ExactRun d cs := by
  intro h
  have hrun := h ⟨false, false, 10, 0, 5, 0⟩ [⟨1, false, 0, 0, 7, 0, 0⟩] 0
  have hcha := hrun.1.charged (by decide) (by decide)
  revert hcha
  decide

end Uwisc.Ufs.Chkdq
