import Mathlib
import Uwisc.Etc.Dump.Spec
import Uwisc.Lib.Pruning
import Uwisc.Ufs.Dir.Spec

/-!
# Choosing the inodes to dump

`pass`, `mark`, `add`, `indir` and `dsrch` of `etc/dump/dumptraverse.c`. The first pass marks the
inodes that have changed, and all directories; more passes follow that add the directories in which
something is that will be dumped.

The disk does not change. The blocks of directories can be read (`bread`); what they are read to
holds something else behind what is read. The inodes are those that `getino` finds. The estimate of
the size of the tape is left out.
-/

namespace Uwisc.Dump

open Lib Ufs.Dir

def NBBY : ℕ := 8

/-! ### Maps -/

/-- `MBIT`. -/
def MBIT (i : ℕ) : UInt8 := UInt8.ofNat (2 ^ ((i - 1) % NBBY))

def BIS (i : ℕ) (w : Mem) : Mem := Function.update w ((i - 1) / NBBY) (w ((i - 1) / NBBY) ||| MBIT i)
def BIC (i : ℕ) (w : Mem) : Mem := Function.update w ((i - 1) / NBBY) (w ((i - 1) / NBBY) &&& ~~~MBIT i)
def BIT (i : ℕ) (w : Mem) : Prop := w ((i - 1) / NBBY) &&& MBIT i ≠ 0

instance (i : ℕ) (w : Mem) : Decidable (BIT i w) := inferInstanceAs (Decidable (_ ≠ _))

/-- What is known of the inodes. -/
structure Maps where
  clrmap : Mem
  dirmap : Mem
  nodmap : Mem
  anydskipped : Bool
  nadded : ℕ

/-- Nothing is known (`calloc`). -/
def Maps.clear : Maps := ⟨0, 0, 0, false, 0⟩

/-- A file system, and the date of the dump before. -/
structure Setup where
  fs : Fs
  fs_ipg : ℕ
  fs_ncg : ℕ
  disk : Mem
  getino : ℕ → Dinode
  c_ddate : ℤ
  /-- What `dblk` holds first. -/
  stack : Mem

/-- The number of the last inode. -/
def Setup.maxino (e : Setup) : ℕ := e.fs_ipg * e.fs_ncg - 1

/-- The bits of the next byte, every eight inodes: `map` is the map gone through, if any, of which `cursor`
    bytes have been read. -/
def nextBits (map : Option (Maps → Mem)) (s : Maps) (ino cursor : ℕ) (bits : ℤ) : ℤ × ℕ :=
  if ino % NBBY = 0 then
    match map with
    | none => (-1, cursor)
    | some map => ((map s cursor).toInt8.toInt, cursor + 1)
  else (bits, cursor)

/-- The loop of `pass`. -/
def passFrom (fn : ℕ → Maps → Maps) (map : Option (Maps → Mem)) (maxino ino cursor : ℕ) (bits : ℤ) (s : Maps) : Maps :=
  if ino < maxino then
    let next := nextBits map s ino cursor bits
    passFrom fn map maxino (ino + 1) next.2 (next.1 / 2) (if next.1 % 2 = 1 then fn (ino + 1) s else s)
  else s
termination_by maxino - ino

def pass (e : Setup) (fn : ℕ → Maps → Maps) (map : Option (Maps → Mem)) (s : Maps) : Maps :=
  passFrom fn map e.maxino 0 0 0 s

/-! ### Inodes that have changed -/

/-- A number of 32 bits with its sign. -/
def signed (n : ℕ) : ℤ := (n : ℤ).bmod (2 ^ 32)

def Dinode.di_mtime (ip : Dinode) : ℤ := signed (load 4 ip 24)
def Dinode.di_ctime (ip : Dinode) : ℤ := signed (load 4 ip 32)

def mark (e : Setup) (ino : ℕ) (s : Maps) : Maps :=
  let ip := e.getino ino
  let f := ip.di_mode &&& IFMT
  if f = 0 then s
  else
    let s := { s with clrmap := BIS ino s.clrmap }
    let s := if f = IFDIR then { s with dirmap := BIS ino s.dirmap } else s
    if (e.c_ddate ≤ ip.di_mtime ∨ e.c_ddate ≤ ip.di_ctime) ∧ ¬BIT ino s.nodmap then
      { s with nodmap := BIS ino s.nodmap }
    else if f = IFDIR then { s with anydskipped := true }
    else s

/-! ### Directories -/

/-- What has been found in a directory. -/
structure Search where
  nsubdir : ℕ
  dadded : Bool

/-- `.` and `..`. -/
def Dotted (dblk : Mem) (loc : ℕ) : Prop :=
  dblk (loc + 8) = 0x2e ∧ (dblk (loc + 9) = 0 ∨ dblk (loc + 9) = 0x2e ∧ dblk (loc + 10) = 0)

instance (dblk : Mem) (loc : ℕ) : Decidable (Dotted dblk loc) := inferInstanceAs (Decidable (_ ∧ _))

/-- The loop of `dsrch`. -/
def dsrchFrom (s : Maps) (dblk : Mem) (filesize loc : ℕ) (r : Search) : Search :=
  if loc < filesize ∧ 0 < d_reclen dblk loc then
    let next := loc + d_reclen dblk loc
    if d_ino dblk loc = 0 then dsrchFrom s dblk filesize next r
    else if Dotted dblk loc then dsrchFrom s dblk filesize next r
    else if BIT (d_ino dblk loc) s.nodmap then { r with dadded := true }
    else if BIT (d_ino dblk loc) s.dirmap then dsrchFrom s dblk filesize next { r with nsubdir := r.nsubdir + 1 }
    else dsrchFrom s dblk filesize next r
  else r
termination_by filesize - loc

variable (e : Setup)

/-- What is read of a block to `dblk`. -/
def Setup.dblk (d filesize : ℕ) : Mem := fun i =>
  if i < filesize then e.disk (e.fs.fsbtodb d * DEV_BSIZE + i) else e.stack i

def dsrch (s : Maps) (d : ℕ) (size filesize : ℤ) (r : Search) : Search :=
  if r.dadded then r
  else
    let filesize := if size < filesize then size else filesize
    dsrchFrom s (e.dblk d filesize.toNat) filesize.toNat 0 r

/-- `*filesize -= sblock->fs_bsize`. -/
def Setup.less (filesize : ℤ) : ℤ := (filesize - e.fs.fs_bsize).bmod (2 ^ 32)

def indir (s : Maps) : (n d : ℕ) → Search × ℤ → Search × ℤ
  | 0, d, st =>
    (List.range e.fs.NINDIR).foldl (fun st i =>
      let d := idblk e.fs e.disk d i
      (if d ≠ 0 then dsrch e s d e.fs.fs_bsize st.2 st.1 else st.1, e.less st.2)) st
  | n + 1, d, st =>
    (List.range e.fs.NINDIR).foldl (fun st i =>
      let d := idblk e.fs e.disk d i
      if d ≠ 0 then indir s n d st else st) st

/-- `dblksize`. -/
def Setup.dblksize (ip : Dinode) (lbn : ℕ) : ℤ :=
  if NDADDR ≤ lbn ∨ (lbn + 1) * e.fs.fs_bsize ≤ ip.di_size then e.fs.fs_bsize
  else roundup (ip.di_size % e.fs.fs_bsize) e.fs.fs_fsize

/-- Goes through a directory. -/
def search (s : Maps) (ip : Dinode) : Search :=
  let st := (List.range NDADDR).foldl (fun st i =>
    (if ip.di_db i ≠ 0 then dsrch e s (ip.di_db i) (e.dblksize ip i) st.2 st.1 else st.1, e.less st.2))
    (⟨0, false⟩, signed ip.di_size)
  ((List.range NIADDR).foldl (fun st i => if ip.di_ib i ≠ 0 then indir e s i (ip.di_ib i) st else st) st).1

def add (ino : ℕ) (s : Maps) : Maps :=
  if BIT ino s.nodmap then s
  else
    let r := search e s (e.getino ino)
    let s := if r.dadded then
        { s with nadded := s.nadded + 1, nodmap := if BIT ino s.nodmap then s.nodmap else BIS ino s.nodmap } else s
    if r.nsubdir = 0 ∧ ¬BIT ino s.nodmap then { s with dirmap := BIC ino s.dirmap } else s

/-! ### The passes -/

def passI : Maps := pass e (mark e) none .clear

/-- The loop of the other passes, at most so many times. -/
def passII : ℕ → Maps → Option Maps
  | 0, _ => none
  | k + 1, s =>
    let s := pass e (add e) (some Maps.dirmap) { s with nadded := 0 }
    if s.nadded = 0 then some s else passII k s

/-!
### The directories that are dumped

An inode that is to be dumped is found by way of the directories it is in; so these are dumped as
well.

* `pass_eq`: a pass goes through the inodes whose bits are in its map when it comes to them;
* `search_eq`: a search looks at all entries of a directory, by way of its indirect blocks, too;
* `choice_add`: `add` chooses a directory, or leaves it out for good, as it is to be;
* `passI_dirmap`: what the first pass leaves in the map of directories.
-/

open List

/-! ### Bits -/

section Bits

variable {i j : ℕ} {w : Mem}

theorem toBitVec_MBIT (i : ℕ) : (MBIT i).toBitVec = BitVec.twoPow 8 ((i - 1) % NBBY) := by
  refine BitVec.eq_of_toNat_eq ?_
  rw [MBIT, UInt8.toBitVec_ofNat', BitVec.toNat_ofNat, BitVec.toNat_twoPow]

theorem BIT_iff : BIT i w ↔ (w ((i - 1) / NBBY)).toBitVec.getLsbD ((i - 1) % NBBY) = true := by
  rw [BIT, ne_eq, ← UInt8.toBitVec_inj, UInt8.toBitVec_and, toBitVec_MBIT, BitVec.and_twoPow]
  have hlt : (i - 1) % NBBY < 8 := Nat.mod_lt _ (by decide)
  cases (w ((i - 1) / NBBY)).toBitVec.getLsbD ((i - 1) % NBBY) with
  | false => simp
  | true =>
    simp only [if_true, iff_true]
    intro h
    have hbit := congrArg (BitVec.getLsbD · ((i - 1) % NBBY)) h
    simp [hlt] at hbit

theorem BIT_BIS (hi : 0 < i) (hj : 0 < j) : BIT i (BIS j w) ↔ i = j ∨ BIT i w := by
  rw [BIT_iff, BIT_iff, BIS, Function.update_apply]
  split_ifs with h
  · rw [UInt8.toBitVec_or, BitVec.getLsbD_or, toBitVec_MBIT, BitVec.getLsbD_twoPow, Bool.or_eq_true, ← h, or_comm]
    have hlt : (j - 1) % NBBY < 8 := Nat.mod_lt _ (by decide)
    simp only [hlt, decide_true, Bool.true_and, decide_eq_true_eq]
    rw [NBBY] at *
    exact or_congr_left (by omega)
  · have hne : i ≠ j := fun heq => h (by rw [heq])
    simp [hne]

theorem BIT_BIC (hi : 0 < i) (hj : 0 < j) : BIT i (BIC j w) ↔ i ≠ j ∧ BIT i w := by
  rw [BIT_iff, BIT_iff, BIC, Function.update_apply]
  split_ifs with h
  · have hlt : (i - 1) % NBBY < 8 := Nat.mod_lt _ (by decide)
    have hlt' : (j - 1) % NBBY < 8 := Nat.mod_lt _ (by decide)
    rw [UInt8.toBitVec_and, BitVec.getLsbD_and, UInt8.toBitVec_not, BitVec.getLsbD_not, toBitVec_MBIT,
      BitVec.getLsbD_twoPow, Bool.and_eq_true, ← h, and_comm]
    simp only [hlt, hlt', decide_true, Bool.true_and, Bool.not_eq_true', decide_eq_false_iff_not]
    rw [NBBY] at *
    exact and_congr_left fun _ => by omega
  · have hne : i ≠ j := fun heq => h (by rw [heq])
    simp [hne]

theorem not_BIT_zero (i : ℕ) : ¬BIT i 0 := by
  rw [BIT_iff]
  simp

end Bits

/-! ### Passes -/

/-- The bits of a byte that is read as a signed number. -/
theorem bit_toInt (b : UInt8) {k : ℕ} (hk : k < 8) : b.toInt8.toInt / 2 ^ k % 2 = 1 ↔ b.toBitVec.getLsbD k = true := by
  have hb : b.toBitVec.toNat < 256 := b.toBitVec.isLt
  have hint : b.toInt8.toInt = if 2 * b.toBitVec.toNat < 256 then (b.toBitVec.toNat : ℤ) else b.toBitVec.toNat - 256 := by
    have h := BitVec.toInt_eq_toNat_cond b.toBitVec
    exact h
  rw [BitVec.getLsbD, Nat.testBit_eq_decide_div_mod_eq, decide_eq_true_eq, hint]
  interval_cases k <;> split_ifs <;> omega

/-- The map has the bit, if there is a map. -/
def Wanted (map : Option (Maps → Mem)) (i : ℕ) (s : Maps) : Prop := ∀ m, map = some m → BIT i (m s)

open Classical in
/-- What a pass does with an inode. -/
noncomputable def passAt (fn : ℕ → Maps → Maps) (map : Option (Maps → Mem)) (s : Maps) (i : ℕ) : Maps :=
  if Wanted map i s then fn i s else s

/-- A step does not change what other inodes have in the map. -/
def Own (fn : ℕ → Maps → Maps) (map : Option (Maps → Mem)) : Prop :=
  ∀ i j s, 0 < i → 0 < j → i ≠ j → (Wanted map i (fn j s) ↔ Wanted map i s)

/-- The bits are those of the rest of the byte. -/
def Rest (map : Option (Maps → Mem)) (s : Maps) (ino cursor : ℕ) (bits : ℤ) : Prop :=
  (map = none ∨ cursor = (ino + 7) / 8) ∧ ∀ k, 0 < ino % 8 → ino % 8 + k < 8 → (bits / 2 ^ k % 2 = 1 ↔ Wanted map (ino + 1 + k) s)

variable {fn : ℕ → Maps → Maps} {map : Option (Maps → Mem)} {ino cursor i : ℕ} {bits : ℤ} {s : Maps}

theorem pow_div_two (bits : ℤ) (k : ℕ) : bits / 2 / 2 ^ k = bits / 2 ^ (k + 1) := by
  rw [Int.ediv_ediv_of_nonneg (by decide), pow_succ, mul_comm]

/-- What is read at the start of a byte. -/
theorem bits_start (hmod : ino % 8 = 0) {M : Maps → Mem} {k : ℕ} (hk : k < 8) :
    (M s (ino / 8)).toInt8.toInt / 2 ^ k % 2 = 1 ↔ BIT (ino + 1 + k) (M s) := by
  have hbyte : (ino + 1 + k - 1) / NBBY = ino / 8 := by
    rw [NBBY]
    omega
  have hbit : (ino + 1 + k - 1) % NBBY = k := by
    rw [NBBY]
    omega
  rw [bit_toInt _ hk, BIT_iff, hbyte, hbit]

/-- The bits of an inode and of the rest of its byte, when they are looked at. -/
theorem nextBits_spec (h : Rest map s ino cursor bits) :
    (map = none ∨ (nextBits map s ino cursor bits).2 = (ino + 8) / 8) ∧ ∀ k, ino % 8 + k < 8 →
      ((nextBits map s ino cursor bits).1 / 2 ^ k % 2 = 1 ↔ Wanted map (ino + 1 + k) s) := by
  obtain ⟨hcur, hbits⟩ := h
  rw [nextBits.eq_def, NBBY]
  by_cases hmod : ino % 8 = 0
  · rw [if_pos hmod]
    cases map with
    | none =>
      refine ⟨.inl rfl, fun k hk => iff_of_true ?_ fun m hm => absurd hm (Option.some_ne_none m).symm⟩
      have hlt : k < 8 := by omega
      interval_cases k <;> rfl
    | some M =>
      obtain hcur : cursor = (ino + 7) / 8 := hcur.resolve_left (Option.some_ne_none M)
      obtain rfl : cursor = ino / 8 := by omega
      refine ⟨.inr (by simp only; omega), fun k hk => (bits_start hmod (by omega)).trans ⟨fun h m hm => ?_, fun h => h M rfl⟩⟩
      cases hm
      exact h
  · rw [if_neg hmod]
    exact ⟨hcur.imp_right (by omega), fun k hk => hbits k (by omega) hk⟩

/-- A pass goes through all inodes whose bits are in the map when it comes to them. -/
theorem passFrom_eq (hown : Own fn map) {maxino : ℕ} (h : Rest map s ino cursor bits) :
    passFrom fn map maxino ino cursor bits s = (range' (ino + 1) (maxino - ino)).foldl (passAt fn map) s := by
  induction hn : maxino - ino generalizing ino cursor bits s with
  | zero =>
    rw [passFrom, if_neg (by omega)]
    rfl
  | succ n ih =>
    obtain ⟨hcur, hbits⟩ := nextBits_spec h
    have hfst : (if (nextBits map s ino cursor bits).1 % 2 = 1 then fn (ino + 1) s else s) = passAt fn map s (ino + 1) := by
      rw [passAt]
      have h0 := hbits 0 (Nat.mod_lt _ (by decide))
      rw [pow_zero, Int.ediv_one] at h0
      by_cases hwant : Wanted map (ino + 1) s
      · rw [if_pos hwant, if_pos (h0.2 hwant)]
      · rw [if_neg hwant, if_neg fun hbit => hwant (h0.1 hbit)]
    rw [passFrom, if_pos (by omega), range'_succ, foldl_cons, ← hfst]
    dsimp only
    rw [hfst]
    refine ih ⟨hcur, fun k hpos hk => ?_⟩ (by omega)
    rw [pow_div_two, hbits (k + 1) (by omega), show ino + 1 + (k + 1) = ino + 1 + 1 + k by omega, passAt]
    split_ifs
    · exact (hown _ _ s (by omega) (by omega) (by omega)).symm
    · exact Iff.rfl

theorem pass_eq {e : Setup} (hown : Own fn map) : pass e fn map s = (range' 1 e.maxino).foldl (passAt fn map) s :=
  passFrom_eq hown ⟨.inr rfl, fun _ h => absurd h (lt_irrefl 0)⟩

/-! ### Directories -/

/-- The bytes of a file; the blocks it does not have are zero. -/
def Setup.contents (e : Setup) (ip : Dinode) : Mem := fun o =>
  let d := blockOf e.fs e.disk ip (o / e.fs.fs_bsize)
  if d ≠ 0 then e.disk (e.fs.fsbtodb d * DEV_BSIZE + o % e.fs.fs_bsize) else 0

/-- A directory as the kernel sees it. -/
def Setup.directory (e : Setup) (ip : Dinode) : Ufs.Dir.Inode := ⟨e.contents ip, ip.di_size, 0⟩

/-- Indirect blocks that begin beyond the end of a file are not there; `b` is the first block that one
    leads to. -/
def Ends (fs : Fs) (disk : Mem) (size : ℕ) : (lvl d b : ℕ) → Prop
  | 0, d, b => d ≠ 0 → b * fs.fs_bsize < size
  | lvl + 1, d, b => ∀ i < fs.NINDIR, Ends fs disk size lvl (idblk fs disk d i) (b + i * fs.NINDIR ^ (lvl + 1))

def dot : Name := [0x2e]
def dotdot : Name := [0x2e, 0x2e]

/-- A directory that is as it should be. -/
structure DirOk (e : Setup) (ip : Dinode) : Prop where
  size : ip.di_size < 2 ^ 31
  chunks : ip.di_size % DIRBLKSIZ = 0
  records : WellFormed (e.directory ip)
  names : ∀ o ∈ Ufs.Dir.records (e.directory ip), d_ino (e.contents ip) o ≠ 0 →
    0 ∉ d_name (e.contents ip) o (d_namlen (e.contents ip) o) ∧ e.contents ip (o + 8 + d_namlen (e.contents ip) o) = 0
  numbers : ∀ x ∈ Ufs.Dir.entries (e.directory ip), x.2 ≤ e.maxino
  ends : ∀ j < NIADDR, Ends e.fs e.disk ip.di_size j (ip.di_ib j) (firstBlock e.fs j)

/-- What an entry is to a search. -/
def look (s : Maps) (r : Search) (x : Name × ℕ) : Search :=
  if r.dadded then r
  else if x.1 = dot ∨ x.1 = dotdot then r
  else if BIT x.2 s.nodmap then { r with dadded := true }
  else if BIT x.2 s.dirmap then { r with nsubdir := r.nsubdir + 1 }
  else r

theorem look_dadded {r : Search} (hr : r.dadded = true) (l : List (Name × ℕ)) : l.foldl (look s) r = r := by
  induction l with
  | nil => rfl
  | cons x l ih => rw [foldl_cons, look, if_pos hr, ih]

section Block

variable {m dblk : Mem} {x filesize loc o a b c : ℕ} {l : List ℕ} {r : Search}

theorem load_shift (h : ∀ i < filesize, dblk i = m (x + i)) {n : ℕ} (hn : loc + n ≤ filesize) :
    load n dblk loc = load n m (x + loc) := by
  rw [load, load, bytes, bytes]
  congr 1
  refine map_congr_left fun i hi => ?_
  have := mem_range.1 hi
  rw [h _ (by omega), add_assoc]

/-- The comparison of a name, byte by byte. -/
theorem dotted_iff (hname : 0 ∉ d_name m o (d_namlen m o)) (hend : m (o + 8 + d_namlen m o) = 0) :
    Dotted m o ↔ d_name m o (d_namlen m o) = dot ∨ d_name m o (d_namlen m o) = dotdot := by
  have hbyte : ∀ i < d_namlen m o, m (o + 8 + i) ≠ 0 := fun i hi h =>
    hname (h ▸ List.mem_map.2 ⟨i, mem_range.2 hi, rfl⟩)
  rw [Dotted, d_name, dot, dotdot]
  generalize d_namlen m o = n at *
  rcases n with _ | _ | _ | n
  · rw [add_zero] at hend
    simp [hend, bytes]
  · rw [bytes_succ]
    simp [hend, bytes]
  · have h1 : m (o + 9) ≠ 0 := hbyte 1 (by decide)
    rw [bytes_succ, bytes_succ]
    simp [hend, h1, bytes]
  · have h1 : m (o + 9) ≠ 0 := hbyte 1 (by omega)
    have h2 : m (o + 10) ≠ 0 := hbyte 2 (by omega)
    rw [bytes_succ, bytes_succ, bytes_succ]
    simp [h1, h2]

/-- A block is searched entry by entry. -/
theorem dsrchFrom_eq (h : Tiles m (x + loc) (x + filesize) l) (hblk : ∀ i < filesize, dblk i = m (x + i))
    (hnames : ∀ o ∈ l, d_ino m o ≠ 0 → 0 ∉ d_name m o (d_namlen m o) ∧ m (o + 8 + d_namlen m o) = 0)
    (hr : r.dadded = false) :
    dsrchFrom s dblk filesize loc r = (l.filterMap (Ufs.Dir.entry m)).foldl (look s) r := by
  generalize ha : x + loc = a at h
  generalize hb : x + filesize = b at h
  induction h generalizing loc r with
  | nil =>
    rw [dsrchFrom, if_neg (by omega)]
    rfl
  | @cons a b l hok hrs ih =>
    subst ha hb
    obtain ⟨hname, hnames⟩ := forall_mem_cons.1 hnames
    have hle := hrs.le
    have hsize := hok.size
    have hpos := hok.pos
    have hdirsiz := ldirsiz_ge (d_namlen m (x + loc))
    rw [DIRSIZ] at hsize
    have hino : d_ino dblk loc = d_ino m (x + loc) := load_shift hblk (by omega)
    have hrec : d_reclen dblk loc = d_reclen m (x + loc) := @load_shift m dblk x filesize (loc + 4) hblk 2 (by omega)
    have hdott : Dotted dblk loc ↔ Dotted m (x + loc) := by
      rw [Dotted, Dotted, hblk _ (by omega), hblk _ (by omega), hblk _ (by omega)]
      simp only [add_assoc]
    have hnx {r : Search} (hr : r.dadded = false) := @ih (loc + d_reclen dblk loc) r hnames hr (by omega) rfl
    rw [dsrchFrom, if_pos ⟨by omega, hrec ▸ hpos⟩, hino]
    simp only [hdott]
    by_cases hzero : d_ino m (x + loc) = 0
    · have hent : Ufs.Dir.entry m (x + loc) = none := by rw [Ufs.Dir.entry, if_pos hzero]
      rw [if_pos hzero, filterMap_cons, hent, hnx hr]
    have hent : Ufs.Dir.entry m (x + loc) =
        some (d_name m (x + loc) (d_namlen m (x + loc)), d_ino m (x + loc)) := by
      rw [Ufs.Dir.entry, if_neg hzero]
    obtain ⟨hcln, hend⟩ := hname hzero
    rw [if_neg hzero, filterMap_cons, hent]
    simp only [foldl_cons, look, hr, Bool.false_eq_true, if_false, ← dotted_iff hcln hend]
    split_ifs
    · exact hnx hr
    · exact (look_dadded rfl _).symm
    · exact hnx rfl
    · exact hnx hr

/-- Chains of records do not cross the start of a chunk. -/
theorem tiles_split (h : Tiles m a b l) (hac : a ≤ c) (hcb : c ≤ b) (hc : c % DIRBLKSIZ = 0) :
    ∃ u v, l = u ++ v ∧ Tiles m a c u ∧ Tiles m c b v := by
  induction h with
  | nil a =>
    obtain rfl : a = c := by omega
    exact ⟨[], [], rfl, .nil _, .nil _⟩
  | @cons a b l hok hrs ih =>
    rcases Nat.eq_or_lt_of_le hac with rfl | hlt
    · exact ⟨[], _, rfl, .nil _, .cons hok hrs⟩
    · have hchk := hok.chunk
      rw [DIRBLKSIZ] at hc hchk
      obtain ⟨u, v, rfl, hu, hv⟩ := ih (by omega) hcb
      exact ⟨a :: u, v, rfl, .cons hok hu, hv⟩

theorem recordsFrom_append (hu : Tiles m a c l) {v : List ℕ} (hv : Tiles m c b v) :
    recordsFrom m b a = recordsFrom m c a ++ recordsFrom m b c := by
  rw [recordsFrom_eq hu, recordsFrom_eq hv, recordsFrom_eq (Chain.append hu hv)]

end Block

section Directory

variable {e : Setup} {ip : Dinode} {r : Search} {st : Search × ℤ} {n k b d : ℕ}

/-- The entries in the first blocks of a directory. -/
def seen (e : Setup) (ip : Dinode) (n : ℕ) : List (Name × ℕ) :=
  (recordsFrom (e.contents ip) (min (n * e.fs.fs_bsize) ip.di_size) 0).filterMap (Ufs.Dir.entry (e.contents ip))

theorem bsize_mod (fs : Fs) (n : ℕ) : n * fs.fs_bsize % DIRBLKSIZ = 0 := by
  rw [DIRBLKSIZ]
  rcases fs.bsize with h | h <;> rw [h] <;> omega

theorem DirOk.dirsize (h : DirOk e ip) : (e.directory ip).dirsize = ip.di_size := by
  have := h.chunks
  rw [DIRBLKSIZ] at this
  rw [Inode.dirsize, Setup.directory, roundup, DIRBLKSIZ]
  dsimp only
  omega

theorem DirOk.tiles (h : DirOk e ip) : Tiles (e.contents ip) 0 ip.di_size (Ufs.Dir.records (e.directory ip)) := by
  have hwf := h.records
  rw [WellFormed, h.dirsize] at hwf
  exact hwf

theorem seen_end (h : DirOk e ip) (hn : ip.di_size ≤ n * e.fs.fs_bsize) : seen e ip n = Ufs.Dir.entries (e.directory ip) := by
  rw [seen, min_eq_right hn, Ufs.Dir.entries, Ufs.Dir.records, h.dirsize]
  rfl

theorem seen_zero : seen e ip 0 = [] := by
  rw [seen, zero_mul, Nat.zero_min, recordsFrom_eq (.nil 0)]
  rfl

/-- The records of a block that is not beyond the end. -/
theorem DirOk.block (h : DirOk e ip) (hn : n * e.fs.fs_bsize < ip.di_size) :
    ∃ l, Tiles (e.contents ip) (n * e.fs.fs_bsize) (min ((n + 1) * e.fs.fs_bsize) ip.di_size) l ∧
      seen e ip (n + 1) = seen e ip n ++ l.filterMap (Ufs.Dir.entry (e.contents ip)) ∧
      ∀ o ∈ l, o ∈ Ufs.Dir.records (e.directory ip) := by
  obtain ⟨u, v, huv, hu, hv⟩ := tiles_split h.tiles (Nat.zero_le _) hn.le (bsize_mod _ n)
  have hmod : min ((n + 1) * e.fs.fs_bsize) ip.di_size % DIRBLKSIZ = 0 := by
    rcases min_choice ((n + 1) * e.fs.fs_bsize) ip.di_size with heq | heq <;> rw [heq]
    exacts [bsize_mod _ _, h.chunks]
  have hle : n * e.fs.fs_bsize ≤ min ((n + 1) * e.fs.fs_bsize) ip.di_size :=
    le_min (Nat.mul_le_mul_right _ (Nat.le_succ _)) hn.le
  obtain ⟨l, w, rfl, hl, hw⟩ := tiles_split hv hle (min_le_right _ _) hmod
  refine ⟨l, hl, ?_, fun o ho => by rw [huv]; simp [ho]⟩
  rw [seen, seen, recordsFrom_append hu hl, filterMap_append, min_eq_left hn.le, recordsFrom_eq hl]

/-- A block that is not beyond the end is there. -/
theorem DirOk.blockOf_ne_zero (h : DirOk e ip) (hn : n * e.fs.fs_bsize < ip.di_size) : blockOf e.fs e.disk ip n ≠ 0 := by
  intro hzero
  obtain ⟨l, hl, -⟩ := h.block hn
  have hpos : 0 < e.fs.fs_bsize := by rcases e.fs.bsize with h | h <;> omega
  have hlt : n * e.fs.fs_bsize < min ((n + 1) * e.fs.fs_bsize) ip.di_size :=
    lt_min (Nat.mul_lt_mul_of_pos_right (Nat.lt_succ_self _) hpos) hn
  generalize ha : n * e.fs.fs_bsize = a at hl hlt
  generalize min ((n + 1) * e.fs.fs_bsize) ip.di_size = b at hl hlt
  subst ha
  cases hl with
  | nil => exact absurd hlt (lt_irrefl _)
  | cons hok _ =>
    -- the first record of a hole has no length
    have hz : ∀ i < e.fs.fs_bsize, e.contents ip (n * e.fs.fs_bsize + i) = 0 := fun i hi => by
      rw [Setup.contents, add_comm, Nat.add_mul_div_right _ _ hpos, Nat.div_eq_of_lt hi, zero_add, hzero]
      rfl
    have hfour : 8 ≤ e.fs.fs_bsize := by rcases e.fs.bsize with h | h <;> omega
    have hlen : d_reclen (e.contents ip) (n * e.fs.fs_bsize) = 0 := by
      rw [d_reclen, load, bytes_succ, bytes_succ, add_assoc, hz 4 (by omega), hz (4 + 1) (by omega)]
      rfl
    exact hok.pos.ne' hlen

/-- The first blocks have been searched, and `filesize` is what is left behind them. -/
structure Exact (e : Setup) (ip : Dinode) (s : Maps) (n : ℕ) (st : Search × ℤ) : Prop where
  search : st.1 = (seen e ip n).foldl (look s) ⟨0, false⟩
  left : st.2 = (ip.di_size : ℤ) - n * e.fs.fs_bsize

/-- The same when some blocks beyond the end have not been counted. -/
structure At (e : Setup) (ip : Dinode) (s : Maps) (n : ℕ) (st : Search × ℤ) : Prop where
  search : st.1 = (seen e ip n).foldl (look s) ⟨0, false⟩
  left : st.2.toNat = ip.di_size - n * e.fs.fs_bsize
  low : -2 ^ 24 ≤ st.2

theorem less_eq {f : ℤ} (hlow : -2 ^ 24 - 2 ^ 24 ≤ f) (hhigh : f < 2 ^ 31) : e.less f = f - e.fs.fs_bsize := by
  rw [Setup.less]
  exact Int.bmod_eq_of_le (by rcases e.fs.bsize with h | h <;> rw [h] <;> omega) (by omega)

/-- A block that is there is searched. -/
theorem dsrch_block (h : DirOk e ip) (hn : n * e.fs.fs_bsize < ip.di_size) {size filesize : ℤ}
    (hsize : (if size < filesize then size else filesize) =
      min (e.fs.fs_bsize : ℤ) (ip.di_size - n * e.fs.fs_bsize)) :
    dsrch e s (blockOf e.fs e.disk ip n) size filesize ((seen e ip n).foldl (look s) r) =
      (seen e ip (n + 1)).foldl (look s) r := by
  obtain ⟨l, hl, hseen, hmem⟩ := h.block hn
  have hpos : 0 < e.fs.fs_bsize := by rcases e.fs.bsize with h | h <;> omega
  rw [hseen, foldl_append]
  generalize (seen e ip n).foldl (look s) r = r
  rw [dsrch]
  by_cases hr : r.dadded = true
  · rw [if_pos hr, look_dadded hr]
  rw [if_neg hr, hsize]
  have hcnt : (min (e.fs.fs_bsize : ℤ) (ip.di_size - n * e.fs.fs_bsize)).toNat =
      min ((n + 1) * e.fs.fs_bsize) ip.di_size - n * e.fs.fs_bsize := by
    rw [add_mul, one_mul]
    omega
  dsimp only
  rw [hcnt]
  have hle : n * e.fs.fs_bsize ≤ min ((n + 1) * e.fs.fs_bsize) ip.di_size :=
    le_min (Nat.mul_le_mul_right _ (Nat.le_succ _)) hn.le
  refine dsrchFrom_eq (x := n * e.fs.fs_bsize) (by rwa [add_zero, Nat.add_sub_cancel' hle]) (fun i hi => ?_)
    (fun o ho => h.names o (hmem o ho)) (Bool.eq_false_of_not_eq_true hr)
  have hlt : i < e.fs.fs_bsize := by
    rw [add_mul, one_mul] at hi
    omega
  rw [Setup.dblk, if_pos hi, Setup.contents, add_comm (n * _), Nat.add_mul_div_right _ _ hpos, Nat.div_eq_of_lt hlt,
    zero_add, Nat.add_mul_mod_self_right, Nat.mod_eq_of_lt hlt]
  exact (if_pos (h.blockOf_ne_zero hn)).symm

/-- Nothing is read beyond the end. -/
theorem dsrch_beyond {size filesize : ℤ} (hfil : filesize ≤ 0) : dsrch e s d size filesize r = r := by
  rw [dsrch]
  split_ifs
  · rfl
  all_goals
    dsimp only
    rw [Int.toNat_of_nonpos (by omega), dsrchFrom, if_neg (by omega)]

/-- A pointer of a directory, or of an indirect block. -/
theorem Exact.slot (h : DirOk e ip) (hst : Exact e ip s n st) (hlow : -2 ^ 24 ≤ st.2) {z : ℤ}
    (hsize : n * e.fs.fs_bsize < ip.di_size → (if z < st.2 then z else st.2) = min (e.fs.fs_bsize : ℤ) st.2) :
    Exact e ip s (n + 1) (if blockOf e.fs e.disk ip n ≠ 0 then dsrch e s (blockOf e.fs e.disk ip n) z st.2 st.1
      else st.1, e.less st.2) := by
  have hleft := hst.left
  have hbnd := h.size
  refine ⟨?_, ?_⟩
  · rcases lt_or_ge (n * e.fs.fs_bsize) ip.di_size with hn | hn
    · dsimp only
      rw [if_pos (h.blockOf_ne_zero hn), hst.search]
      exact dsrch_block h hn (by rw [hsize hn, hleft])
    · have hnil : seen e ip (n + 1) = seen e ip n := by
        rw [seen_end h hn, seen_end h (hn.trans (Nat.mul_le_mul_right _ (Nat.le_succ _)))]
      rw [hnil, ← hst.search]
      dsimp only
      split_ifs
      · exact dsrch_beyond (by rw [hleft]; omega)
      · rfl
  · have hprod : (0 : ℤ) ≤ n * e.fs.fs_bsize := mul_nonneg (Int.natCast_nonneg _) (Int.natCast_nonneg _)
    rw [less_eq (by omega) (by rw [hleft]; omega), hleft, Nat.cast_add, Nat.cast_one, add_mul, one_mul]
    omega

theorem ptrs_zero (fs : Fs) (disk : Mem) (lvl k : ℕ) : ptrs fs disk lvl 0 k = 0 := by
  induction lvl generalizing k with
  | zero => rfl
  | succ lvl ih => exact ih _

theorem seen_beyond (h : DirOk e ip) (hn : ip.di_size ≤ n * e.fs.fs_bsize) (hnk : n ≤ k) : seen e ip k = seen e ip n := by
  rw [seen_end h hn, seen_end h (hn.trans (Nat.mul_le_mul_right _ hnk))]

theorem Exact.at (hst : Exact e ip s n st) (hlow : -2 ^ 24 ≤ st.2) : At e ip s n st :=
  ⟨hst.search, by rw [hst.left]; omega, hlow⟩

/-- Blocks beyond the end may be left out. -/
theorem At.skip (h : DirOk e ip) (hst : At e ip s n st) (hn : ip.di_size ≤ n * e.fs.fs_bsize) (hnk : n ≤ k) :
    At e ip s k st := by
  refine ⟨by rw [seen_beyond h hn hnk, hst.search], ?_, hst.low⟩
  have := Nat.mul_le_mul_right e.fs.fs_bsize hnk
  rw [hst.left]
  omega

theorem At.exact (hst : At e ip s n st) (hn : n * e.fs.fs_bsize < ip.di_size) : Exact e ip s n st := by
  refine ⟨hst.search, ?_⟩
  have := hst.left
  rw [← Nat.cast_mul]
  omega

/-- Slots one after the other. -/
theorem Exact.slots (h : DirOk e ip) {z : ℕ → ℤ} {p : ℕ → ℕ} (hst : Exact e ip s b st) (hpos : 0 ≤ st.2) (M : ℕ)
    (hM : M * e.fs.fs_bsize ≤ 2 ^ 24) (hptr : ∀ k < M, p k = blockOf e.fs e.disk ip (b + k))
    (hsize : ∀ k < M, ∀ f : ℤ, (b + k) * e.fs.fs_bsize < ip.di_size → f = (ip.di_size : ℤ) - (b + k : ℕ) * e.fs.fs_bsize →
      (if z k < f then z k else f) = min (e.fs.fs_bsize : ℤ) f) :
    At e ip s (b + M) ((range M).foldl (fun st i =>
      (if p i ≠ 0 then dsrch e s (p i) (z i) st.2 st.1 else st.1, e.less st.2)) st) := by
  have hlow : ∀ k ≤ M, ∀ st', Exact e ip s (b + k) st' → -2 ^ 24 ≤ st'.2 := fun k hk st' hst' => by
    have hleft := hst.left
    have hmul := Nat.mul_le_mul_right e.fs.fs_bsize hk
    rw [hst'.left, Nat.cast_add, add_mul, ← Nat.cast_mul, ← Nat.cast_mul]
    rw [← Nat.cast_mul] at hleft
    omega
  have hloop : ∀ k ≤ M, Exact e ip s (b + k) ((range k).foldl (fun st i =>
      (if p i ≠ 0 then dsrch e s (p i) (z i) st.2 st.1 else st.1, e.less st.2)) st) := by
    intro k hk
    induction k with
    | zero => exact hst
    | succ k ih =>
      have hk' := ih (Nat.le_of_succ_le hk)
      rw [range_succ, foldl_append]
      have hstep := hk'.slot h (hlow k (Nat.le_of_succ_le hk) _ hk') (z := z k) fun hn => hsize k hk _ hn hk'.left
      rw [← hptr k hk] at hstep
      exact hstep
  exact (hloop M le_rfl).at (hlow M le_rfl _ (hloop M le_rfl))

/-- The blocks that an indirect block leads to. -/
theorem indir_at (h : DirOk e ip) (lvl : ℕ) (hd : d ≠ 0) (hends : Ends e.fs e.disk ip.di_size lvl d b)
    (hptr : ∀ k < e.fs.NINDIR ^ (lvl + 1), ptrs e.fs e.disk lvl d k = blockOf e.fs e.disk ip (b + k))
    (hst : At e ip s b st) : At e ip s (b + e.fs.NINDIR ^ (lvl + 1)) (indir e s lvl d st) := by
  induction lvl generalizing d b st with
  | zero =>
    have hn := hends hd
    rw [zero_add, Nat.pow_one] at hptr ⊢
    have hst' := hst.exact hn
    refine hst'.slots h (z := fun _ => e.fs.fs_bsize) ?_ _ ?_ hptr fun k _ f _ _ => ?_
    · rw [hst'.left, ← Nat.cast_mul]
      omega
    · rcases e.fs.bsize with hb | hb <;> rw [Fs.NINDIR, hb] <;> omega
    · rw [min_def]
      split_ifs <;> omega
  | succ lvl ih =>
    set M := e.fs.NINDIR ^ (lvl + 1) with hMdef
    have hM : 0 < M := Nat.pow_pos e.fs.NINDIR_pos
    have hloop : ∀ i ≤ e.fs.NINDIR, At e ip s (b + i * M) ((range i).foldl (fun st i =>
        let d := idblk e.fs e.disk d i
        if d ≠ 0 then indir e s lvl d st else st) st) := by
      intro i hi
      induction i with
      | zero =>
        rw [zero_mul, add_zero]
        exact hst
      | succ i ihi =>
        have hi' := ihi (Nat.le_of_succ_le hi)
        have hchild : ∀ k < M, ptrs e.fs e.disk lvl (idblk e.fs e.disk d i) k = blockOf e.fs e.disk ip (b + i * M + k) := by
          intro k hk
          have hlt : i * M + k < e.fs.NINDIR ^ (lvl + 1 + 1) := by
            have hmul := Nat.mul_le_mul_right M hi
            rw [pow_succ, ← hMdef, mul_comm M]
            rw [Nat.succ_mul] at hmul
            omega
          have hall := hptr _ hlt
          rw [ptrs, ← hMdef, add_comm (i * M), Nat.add_mul_div_right _ _ hM, Nat.div_eq_of_lt hk, zero_add,
            Nat.add_mul_mod_self_right, Nat.mod_eq_of_lt hk] at hall
          rw [hall, add_assoc, add_comm k]
        rw [range_succ, foldl_append, foldl_cons, foldl_nil, Nat.succ_mul, ← add_assoc]
        dsimp only
        split_ifs with hd'
        · exact ih hd' (hends i hi) hchild hi'
        · -- there are no blocks here, so that this is beyond the end
          refine hi'.skip h (Nat.le_of_not_lt fun hn => h.blockOf_ne_zero hn ?_) (Nat.le_add_right _ _)
          have hfst := hchild 0 hM
          rw [add_zero] at hfst
          rw [← hfst, not_not.1 hd', ptrs_zero]
    rw [pow_succ, ← hMdef, mul_comm]
    exact hloop _ le_rfl

theorem le_roundup {x y : ℕ} (hy : 0 < y) : x ≤ roundup x y := by
  have hdiv := Nat.div_add_mod (x + (y - 1)) y
  have hlt := Nat.mod_lt (x + (y - 1)) hy
  rw [roundup, mul_comm]
  omega

/-- As much is read of a direct block as it has. -/
theorem dblksize_min (hn : n * e.fs.fs_bsize < ip.di_size) {f : ℤ} (hf : f = (ip.di_size : ℤ) - n * e.fs.fs_bsize) :
    (if e.dblksize ip n < f then e.dblksize ip n else f) = min (e.fs.fs_bsize : ℤ) f := by
  rw [← Nat.cast_mul] at hf
  by_cases hwhl : NDADDR ≤ n ∨ (n + 1) * e.fs.fs_bsize ≤ ip.di_size
  · rw [Setup.dblksize, if_pos hwhl, min_def]
    split_ifs <;> omega
  · -- the last block, of which there is less than a block
    obtain ⟨-, hlast⟩ := not_or.1 hwhl
    rw [add_mul, one_mul] at hlast
    have hmod : ip.di_size % e.fs.fs_bsize = ip.di_size - n * e.fs.fs_bsize := by
      obtain ⟨x, hx⟩ := Nat.exists_eq_add_of_le hn.le
      rw [hx, mul_comm n, Nat.mul_add_mod, Nat.add_sub_cancel_left]
      exact Nat.mod_eq_of_lt (by omega)
    have hle := le_roundup (x := ip.di_size % e.fs.fs_bsize) e.fs.fsize_pos
    rw [Setup.dblksize, if_neg hwhl, if_neg (by omega), min_eq_right (by omega)]

theorem signed_eq (h : n < 2 ^ 31) : signed n = n := Int.bmod_eq_of_le (by omega) (by omega)

/-- All entries of a directory are seen. -/
theorem search_eq (h : DirOk e ip) :
    search e s ip = (Ufs.Dir.entries (e.directory ip)).foldl (look s) ⟨0, false⟩ := by
  have hsize := h.size
  have hb : e.fs.fs_bsize = 4096 ∨ e.fs.fs_bsize = 8192 := e.fs.bsize
  have hstart : Exact e ip s 0 (⟨0, false⟩, signed ip.di_size) := by
    refine ⟨by rw [seen_zero]; rfl, ?_⟩
    rw [signed_eq hsize, Nat.cast_zero, zero_mul, Int.sub_zero]
  have hpos : 0 ≤ ((⟨0, false⟩, signed ip.di_size) : Search × ℤ).2 := by
    rw [signed_eq hsize]
    exact Int.natCast_nonneg _
  have hM : NDADDR * e.fs.fs_bsize ≤ 2 ^ 24 := by
    rw [NDADDR]
    omega
  have hdire := hstart.slots h (p := ip.di_db) (z := e.dblksize ip) hpos NDADDR hM
    (fun k hk => by rw [zero_add, blockOf, if_pos hk]) fun k _ f hn hf => by
      rw [zero_add] at hn hf
      exact dblksize_min hn hf
  rw [zero_add] at hdire
  -- the blocks that the indirect blocks lead to
  have hind : ∀ j ≤ NIADDR, ∀ st, At e ip s NDADDR st → At e ip s (firstBlock e.fs j) ((range j).foldl
      (fun st i => if ip.di_ib i ≠ 0 then indir e s i (ip.di_ib i) st else st) st) := by
    intro j hj st hst
    induction j with
    | zero => exact hst
    | succ j ih =>
      have hj' := ih (Nat.le_of_succ_le hj)
      rw [range_succ, foldl_append, foldl_cons, foldl_nil, firstBlock]
      have hptr : ∀ k < e.fs.NINDIR ^ (j + 1), ptrs e.fs e.disk j (ip.di_ib j) k =
          blockOf e.fs e.disk ip (firstBlock e.fs j + k) := fun k hk =>
        blockOf_indirect ip (by rw [NIADDR] at hj; omega) hk
      split_ifs with hd
      · exact indir_at h j hd (h.ends j hj) hptr hj'
      · refine hj'.skip h (Nat.le_of_not_lt fun hn => h.blockOf_ne_zero hn ?_) (Nat.le_add_right _ _)
        have hfst := hptr 0 (Nat.pow_pos e.fs.NINDIR_pos)
        rw [add_zero] at hfst
        rw [← hfst, not_not.1 hd, ptrs_zero]
  have hend := hind NIADDR le_rfl _ hdire
  rw [search, hend.search, seen_end (n := firstBlock e.fs NIADDR) h (hsize.le.trans (le_firstBlock e.fs))]

end Directory

/-! ### What is dumped -/

/-- A directory. -/
def Setup.IsDir (e : Setup) (i : ℕ) : Prop := 0 < i ∧ i ≤ e.maxino ∧ (e.getino i).di_mode &&& IFMT = IFDIR

/-- The inode is in the directory, under a name that is not `.` or `..`. -/
def Setup.Holds (e : Setup) (i j : ℕ) : Prop :=
  e.IsDir i ∧ ∃ x ∈ Ufs.Dir.entries (e.directory (e.getino i)), x.1 ≠ dot ∧ x.1 ≠ dotdot ∧ x.2 = j

/-- An inode that has changed since the dump before. -/
def Setup.Changed (e : Setup) (i : ℕ) : Prop :=
  (e.getino i).di_mode &&& IFMT ≠ 0 ∧ (e.c_ddate ≤ (e.getino i).di_mtime ∨ e.c_ddate ≤ (e.getino i).di_ctime)

section Add

variable {e : Setup} {i j : ℕ} {r : Search} {l : List (Name × ℕ)}

/-- An entry that a search looks at. -/
def Seen (l : List (Name × ℕ)) (j : ℕ) : Prop := ∃ x ∈ l, x.1 ≠ dot ∧ x.1 ≠ dotdot ∧ x.2 = j

theorem seen_cons {x : Name × ℕ} : Seen (x :: l) j ↔ (x.1 ≠ dot ∧ x.1 ≠ dotdot ∧ x.2 = j) ∨ Seen l j :=
  exists_mem_cons_iff _ _ _

/-- What a search finds: whether an inode is to be dumped, and otherwise whether there is a directory. -/
theorem foldl_look (hr : r.dadded = false) :
    ((l.foldl (look s) r).dadded = true ↔ ∃ j, Seen l j ∧ BIT j s.nodmap) ∧
      ((l.foldl (look s) r).dadded = false →
        ((l.foldl (look s) r).nsubdir = 0 ↔ r.nsubdir = 0 ∧ ¬∃ j, Seen l j ∧ BIT j s.dirmap)) := by
  induction l generalizing r with
  | nil => simp [Seen, hr]
  | cons x l ih =>
    rw [foldl_cons, look, if_neg (by simp [hr])]
    by_cases hdot : x.1 = dot ∨ x.1 = dotdot
    · have hskip : ∀ j, Seen (x :: l) j ↔ Seen l j := fun j => by
        rw [seen_cons]
        refine or_iff_right fun h => ?_
        exact hdot.elim h.1 h.2.1
      simp only [if_pos hdot, hskip]
      exact ih hr
    obtain ⟨hdot, hdotd⟩ := not_or.1 hdot
    have hself : Seen (x :: l) x.2 := seen_cons.2 (.inl ⟨hdot, hdotd, rfl⟩)
    rw [if_neg (by simp [hdot, hdotd])]
    by_cases hnod : BIT x.2 s.nodmap
    · rw [if_pos hnod, look_dadded rfl]
      exact ⟨iff_of_true rfl ⟨x.2, hself, hnod⟩, fun h => Bool.noConfusion h⟩
    rw [if_neg hnod]
    have hnone : (∃ j, Seen (x :: l) j ∧ BIT j s.nodmap) ↔ ∃ j, Seen l j ∧ BIT j s.nodmap := by
      refine exists_congr fun j => ⟨fun ⟨h, hj⟩ => ⟨?_, hj⟩, fun ⟨h, hj⟩ => ⟨seen_cons.2 (.inr h), hj⟩⟩
      exact (seen_cons.1 h).resolve_left fun h => hnod (h.2.2 ▸ hj)
    rw [hnone]
    by_cases hdir : BIT x.2 s.dirmap
    · rw [if_pos hdir]
      obtain ⟨hdad, hnsu⟩ := @ih { r with nsubdir := r.nsubdir + 1 } hr
      refine ⟨hdad, fun h => iff_of_false (fun hzero => ?_) fun h => h.2 ⟨x.2, hself, hdir⟩⟩
      exact Nat.succ_ne_zero _ ((hnsu h).1 hzero).1
    · rw [if_neg hdir]
      obtain ⟨hdad, hnsu⟩ := ih hr
      refine ⟨hdad, fun h => (hnsu h).trans (and_congr_right fun _ => not_congr ?_)⟩
      refine exists_congr fun j => ⟨fun ⟨h, hj⟩ => ⟨seen_cons.2 (.inr h), hj⟩, fun ⟨h, hj⟩ => ⟨?_, hj⟩⟩
      exact (seen_cons.1 h).resolve_left fun h => hdir (h.2.2 ▸ hj)

/-- The inodes there are that are in a map. -/
def members (e : Setup) (w : Mem) : Set ℕ := {i | 0 < i ∧ i ≤ e.maxino ∧ BIT i w}

/-- The inodes that are dumped and the directories that may be. -/
def choice (e : Setup) (s : Maps) : Choice := ⟨members e s.nodmap, members e s.dirmap, s.nadded⟩

/-- What is in which directory. -/
def graph (e : Setup) : Digraph := ⟨e.Holds, range' 1 e.maxino⟩

theorem members_BIS {w : Mem} (hi : 0 < i) (hle : i ≤ e.maxino) : members e (BIS i w) = insert i (members e w) := by
  ext j
  rw [Set.mem_insert_iff]
  constructor
  · rintro ⟨hj, hjle, hbit⟩
    exact ((BIT_BIS hj hi).1 hbit).imp_right fun h => ⟨hj, hjle, h⟩
  · rintro (rfl | ⟨hj, hjle, hbit⟩)
    · exact ⟨hi, hle, (BIT_BIS hi hi).2 (.inl rfl)⟩
    · exact ⟨hj, hjle, (BIT_BIS hj hi).2 (.inr hbit)⟩

theorem members_BIC {w : Mem} (hi : 0 < i) : members e (BIC i w) = members e w \ {i} := by
  ext j
  constructor
  · rintro ⟨hj, hjle, hbit⟩
    obtain ⟨hne, hbit⟩ := (BIT_BIC hj hi).1 hbit
    exact ⟨⟨hj, hjle, hbit⟩, hne⟩
  · rintro ⟨⟨hj, hjle, hbit⟩, hne⟩
    exact ⟨hj, hjle, (BIT_BIC hj hi).2 ⟨hne, hbit⟩⟩

/-- The entries of a directory are of inodes there are. -/
theorem holds_iff (hdir : e.IsDir i) : e.Holds i j ↔ Seen (Ufs.Dir.entries (e.directory (e.getino i))) j :=
  and_iff_right hdir

theorem seen_range (h : DirOk e (e.getino i)) (hj : Seen (Ufs.Dir.entries (e.directory (e.getino i))) j) :
    0 < j ∧ j ≤ e.maxino := by
  obtain ⟨x, hx, -, -, rfl⟩ := hj
  refine ⟨?_, h.numbers x hx⟩
  obtain ⟨o, -, ho⟩ := mem_filterMap.1 hx
  rw [Ufs.Dir.entry] at ho
  split_ifs at ho with hzero
  rw [← Option.some.inj ho]
  exact Nat.pos_of_ne_zero hzero

/-- Only directories are in the map. -/
def DirsOnly (e : Setup) (s : Maps) : Prop := members e s.dirmap ⊆ {i | e.IsDir i}

theorem add_found (hi : 0 < i) (hnod : ¬BIT i s.nodmap) (hr : (search e s (e.getino i)).dadded = true) :
    add e i s = { s with nadded := s.nadded + 1, nodmap := BIS i s.nodmap } := by
  have hbis : BIT i (BIS i s.nodmap) := (BIT_BIS hi hi).2 (.inl rfl)
  simp only [add, hnod, hr, hbis, if_true, if_false, not_true_eq_false, and_false]

theorem add_nothing (hnod : ¬BIT i s.nodmap) (hr : (search e s (e.getino i)).dadded = false) :
    add e i s = if (search e s (e.getino i)).nsubdir = 0 then { s with dirmap := BIC i s.dirmap } else s := by
  simp only [add, hnod, hr, Bool.false_eq_true, if_false, not_false_eq_true, and_true]

/-- `add` does what is to be done with a candidate. -/
theorem choice_add (hok : ∀ i, e.IsDir i → DirOk e (e.getino i)) (hdirs : DirsOnly e s) (hi : 0 < i) (hle : i ≤ e.maxino) :
    choice e (passAt (add e) (some Maps.dirmap) s i) = (graph e).visit (choice e s) i := by
  have hwant : Wanted (some Maps.dirmap) i s ↔ i ∈ (choice e s).cand :=
    ⟨fun h => ⟨hi, hle, h _ rfl⟩, fun h m hm => Option.some.inj hm ▸ h.2.2⟩
  have hcho : BIT i s.nodmap ↔ i ∈ (choice e s).chosen := ⟨fun h => ⟨hi, hle, h⟩, fun h => h.2.2⟩
  rw [passAt, Digraph.visit]
  by_cases hcand : i ∈ (choice e s).cand
  swap
  · rw [if_neg (hwant.not.2 hcand), if_neg fun h => hcand h.1]
  rw [if_pos (hwant.2 hcand)]
  by_cases hnod : BIT i s.nodmap
  · rw [if_neg fun h => h.2 (hcho.1 hnod), add, if_pos hnod]
  rw [if_pos ⟨hcand, hcho.not.1 hnod⟩]
  have hdir : e.IsDir i := hdirs hcand
  obtain ⟨hdad, hnsu⟩ := foldl_look (s := s) (r := ⟨0, false⟩) (l := Ufs.Dir.entries (e.directory (e.getino i))) rfl
  rw [← search_eq (hok i hdir)] at hdad hnsu
  have hedge (w : Mem) : (∃ j, Seen (Ufs.Dir.entries (e.directory (e.getino i))) j ∧ BIT j w) ↔
      ∃ j ∈ members e w, (graph e).edge i j := by
    refine exists_congr fun j => ⟨fun h => ?_, fun h => ⟨(holds_iff hdir).1 h.2, h.1.2.2⟩⟩
    obtain ⟨hpos, hjle⟩ := seen_range (hok i hdir) h.1
    exact ⟨⟨hpos, hjle, h.2⟩, (holds_iff hdir).2 h.1⟩
  rw [hedge] at hdad hnsu
  change _ ↔ ∃ j ∈ (choice e s).chosen, (graph e).edge i j at hdad
  cases hr : (search e s (e.getino i)).dadded with
  | true =>
    rw [add_found hi hnod hr, if_pos (hdad.1 hr)]
    exact Choice.ext (members_BIS hi hle) rfl rfl
  | false =>
    have hzero : _ ↔ _ ∧ ¬∃ j ∈ (choice e s).cand, (graph e).edge i j := hnsu hr
    rw [add_nothing hnod hr, if_neg (hdad.not.1 (by rw [hr]; exact Bool.false_ne_true))]
    by_cases hsub : (search e s (e.getino i)).nsubdir = 0
    · rw [if_pos hsub, if_neg (hzero.1 hsub).2]
      exact Choice.ext rfl (members_BIC hi) rfl
    · rw [if_neg hsub, if_pos (not_not.1 fun h => hsub (hzero.2 ⟨rfl, h⟩))]

theorem own_add : Own (add e) (some Maps.dirmap) := by
  intro i j s hi hj hne
  have hbit : BIT i (add e j s).dirmap ↔ BIT i s.dirmap := by
    rw [add]
    by_cases hnod : BIT j s.nodmap
    · rw [if_pos hnod]
    rw [if_neg hnod]
    dsimp only
    split_ifs <;> first | exact Iff.rfl | exact (BIT_BIC hi hj).trans (and_iff_right hne)
  exact ⟨fun h m hm => Option.some.inj hm ▸ hbit.1 (h _ rfl), fun h m hm => Option.some.inj hm ▸ hbit.2 (h _ rfl)⟩

theorem visit_cand (m : Choice) (i : ℕ) : ((graph e).visit m i).cand ⊆ m.cand := by
  rw [Digraph.visit]
  split_ifs
  exacts [subset_rfl, subset_rfl, Set.sdiff_subset, subset_rfl]

/-- A pass over some of the inodes. -/
theorem choice_foldl (hok : ∀ i, e.IsDir i → DirOk e (e.getino i)) (hdirs : DirsOnly e s) (l : List ℕ)
    (hl : ∀ i ∈ l, 0 < i ∧ i ≤ e.maxino) :
    choice e (l.foldl (passAt (add e) (some Maps.dirmap)) s) = l.foldl (graph e).visit (choice e s) ∧
      DirsOnly e (l.foldl (passAt (add e) (some Maps.dirmap)) s) := by
  induction l generalizing s with
  | nil => exact ⟨rfl, hdirs⟩
  | cons i l ih =>
    obtain ⟨⟨hi, hle⟩, hl⟩ := forall_mem_cons.1 hl
    have hstep := choice_add hok hdirs hi hle
    rw [foldl_cons, foldl_cons, ← hstep]
    refine ih (Set.Subset.trans ?_ hdirs) hl
    have hcand := visit_cand (e := e) (choice e s) i
    rw [← hstep] at hcand
    exact hcand

theorem choice_pass (hok : ∀ i, e.IsDir i → DirOk e (e.getino i)) (hdirs : DirsOnly e s) :
    choice e (pass e (add e) (some Maps.dirmap) { s with nadded := 0 }) = (graph e).pass (choice e s) ∧
      DirsOnly e (pass e (add e) (some Maps.dirmap) { s with nadded := 0 }) := by
  rw [pass_eq own_add, Digraph.pass]
  refine choice_foldl (s := { s with nadded := 0 }) hok hdirs _ fun i hi => ?_
  have := mem_range'_1.1 hi
  omega

/-- The passes are those of the graph. -/
theorem passII_choice (hok : ∀ i, e.IsDir i → DirOk e (e.getino i)) (hdirs : DirsOnly e s) (k : ℕ) :
    (passII e k s).map (choice e) = (graph e).passes k (choice e s) := by
  induction k generalizing s with
  | zero => rfl
  | succ k ih =>
    obtain ⟨hpass, hdirs⟩ := choice_pass hok hdirs
    have hcnt : ∀ s, (choice e s).count = s.nadded := fun _ => rfl
    rw [passII, Digraph.passes, ← hpass, hcnt]
    by_cases hzero : (pass e (add e) (some Maps.dirmap) { s with nadded := 0 }).nadded = 0
    · rw [if_pos hzero, if_pos hzero]
      rfl
    · rw [if_neg hzero, if_neg hzero]
      exact ih hdirs

theorem passII_succ {k : ℕ} {s' : Maps} (h : passII e k s = some s') : passII e (k + 1) s = some s' := by
  induction k generalizing s with
  | zero => exact absurd h (Option.some_ne_none s').symm
  | succ k ih =>
    rw [passII] at h ⊢
    split_ifs at h ⊢ with hzero
    · exact h
    · exact ih h

/-- What the first pass has put in a map, if a step puts nothing in it but its inode. -/
theorem foldl_mark {M : Maps → Mem} {Q : ℕ → Prop} {f : Maps → ℕ → Maps} {l : List ℕ} (hl : ∀ j ∈ l, 0 < j)
    (hf : ∀ s j, 0 < j → (BIT i (M (f s j)) ↔ BIT i (M s) ∨ i = j ∧ Q j)) :
    BIT i (M (l.foldl f s)) ↔ BIT i (M s) ∨ i ∈ l ∧ Q i := by
  induction l generalizing s with
  | nil => simp
  | cons j l ih =>
    obtain ⟨hj, hl⟩ := forall_mem_cons.1 hl
    rw [foldl_cons, ih hl, hf s j hj, mem_cons, or_and_right, or_assoc]
    refine or_congr_right (or_congr_left (and_congr_right fun h => ?_))
    rw [h]

theorem mark_dirmap (hi : 0 < i) (s : Maps) (j : ℕ) (hj : 0 < j) :
    BIT i (mark e j s).dirmap ↔ BIT i s.dirmap ∨ i = j ∧ (e.getino j).di_mode &&& IFMT = IFDIR := by
  have hz : ¬IFDIR = 0 := by decide
  have hbis : BIT i (BIS j s.dirmap) ↔ BIT i s.dirmap ∨ i = j := (BIT_BIS hi hj).trans or_comm
  by_cases hdir : (e.getino j).di_mode &&& IFMT = IFDIR
  · simp only [mark, hdir, hz, if_false, if_true, and_true]
    split_ifs <;> exact hbis
  · simp only [mark, hdir, if_false, and_false, or_false]
    split_ifs <;> exact Iff.rfl

theorem passI_eq : passI e = (range' 1 e.maxino).foldl (fun s i => mark e i s) .clear := by
  rw [passI, pass_eq fun i j s _ _ _ => iff_of_true (fun m hm => absurd hm (Option.some_ne_none m).symm)
    fun m hm => absurd hm (Option.some_ne_none m).symm]
  congr 1
  funext s i
  exact if_pos fun m hm => absurd hm (Option.some_ne_none m).symm

theorem mem_nodes : i ∈ range' 1 e.maxino ↔ 0 < i ∧ i ≤ e.maxino := by
  rw [mem_range'_1]
  omega

/-- All directories may be dumped after the first pass. -/
theorem passI_dirmap (hi : 0 < i) : BIT i (passI e).dirmap ↔ e.IsDir i := by
  rw [passI_eq, foldl_mark (fun j hj => (mem_nodes.1 hj).1) (mark_dirmap hi),
    or_iff_right (show ¬BIT i Maps.clear.dirmap from not_BIT_zero i), mem_nodes, Setup.IsDir, and_assoc]

theorem holds_range (hok : ∀ i, e.IsDir i → DirOk e (e.getino i)) (h : e.Holds i j) : 0 < j ∧ j ≤ e.maxino :=
  seen_range (hok i h.1) h.2

end Add

/-- The passes come to an end. What is dumped then are the inodes that were to be dumped after the first pass,
    and the directories from which one of them can be reached. -/
theorem passII_needed (e : Setup) (hok : ∀ i, e.IsDir i → DirOk e (e.getino i)) :
    ∃ s, (∀ k, e.maxino < k → passII e k (passI e) = some s) ∧
      (∀ i j, Relation.TransGen e.Holds i j → BIT j s.nodmap → BIT i s.nodmap) ∧
      ∀ i, 0 < i → i ≤ e.maxino → (BIT i (passI e).nodmap → BIT i s.nodmap) ∧ (BIT i s.nodmap →
        BIT i (passI e).nodmap ∨ e.IsDir i ∧ ∃ j, BIT j (passI e).nodmap ∧ Relation.TransGen e.Holds i j) := by
  have hdirs : DirsOnly e (passI e) := fun i hi => (passI_dirmap hi.1).1 hi.2.2
  have hcand : members e (passI e).dirmap = {i | e.IsDir i} :=
    Set.Subset.antisymm hdirs fun i hi => ⟨hi.1, hi.2.1, (passI_dirmap hi.1).2 hi⟩
  have hnodes : members e (passI e).dirmap ⊆ {i | i ∈ (graph e).nodes} := fun i hi => mem_nodes.2 ⟨hi.1, hi.2.1⟩
  obtain ⟨m, hm, hcho⟩ := Digraph.passes_start (S := members e (passI e).nodmap) hnodes (k := e.maxino + 1)
    (by rw [graph, length_range']; exact Nat.lt_succ_self _) (passI e).nadded
  have hmap := passII_choice hok hdirs (e.maxino + 1)
  rw [choice, hm, Option.map_eq_some_iff] at hmap
  obtain ⟨s, hs, rfl⟩ := hmap
  have hfuel : ∀ n, passII e (e.maxino + 1 + n) (passI e) = some s := fun n => by
    induction n with
    | zero => exact hs
    | succ n ih => exact passII_succ ih
  refine ⟨s, fun k hk => ?_, fun i j hpath hj => ?_, fun i hi hle => ⟨fun h => (hcho.start ⟨hi, hle, h⟩).2.2, fun h => ?_⟩⟩
  · obtain ⟨n, rfl⟩ := Nat.exists_eq_add_of_le hk
    exact hfuel n
  · obtain ⟨hjpos, hjle⟩ : 0 < j ∧ j ≤ e.maxino := by
      cases hpath with
      | single h => exact holds_range hok h
      | tail _ h => exact holds_range hok h
    refine (hcho.of_path (fun h => ?_) hpath ⟨hjpos, hjle, hj⟩).2.2
    rw [hcand]
    exact h.1
  · rcases hcho.sound ⟨hi, hle, h⟩ with hstart | ⟨hdir, j, hj, hpath⟩
    · exact .inl hstart.2.2
    · rw [hcand] at hdir
      exact .inr ⟨hdir, j, hj.2.2, hpath⟩

theorem four_kilo : 4096 = 4096 ∨ 4096 = 8192 := .inl rfl

theorem one_frag : 1 = 1 ∨ 1 = 2 ∨ 1 = 4 ∨ 1 = 8 := .inl rfl

/-- The second of two inodes is a directory of one entry, the name of the first. Only the first has changed. -/
def oneName : Setup where
  fs := ⟨4096, 1, four_kilo, one_frag⟩
  fs_ipg := 3
  fs_ncg := 1
  disk i := if i = 4096 ∨ i = 4102 then 1 else if i = 4101 then 2 else if i = 4104 then 97 else 0
  getino n i :=
    if n = 1 then if i = 1 then 0x80 else if i = 24 then 7 else 0
    else if i = 1 then 0x40 else if i = 9 then 2 else if i = 40 then 1 else 0
  c_ddate := 7
  stack := 0

theorem ends_zero {fs : Fs} {disk : Mem} {size : ℕ} (lvl b : ℕ) : Ends fs disk size lvl 0 b := by
  induction lvl generalizing b with
  | zero => exact fun h => absurd rfl h
  | succ lvl ih => exact fun i _ => ih _

theorem passII_needed_small : ∃ s, passII oneName 3 (passI oneName) = some s ∧ BIT 2 s.nodmap := by
  have hwf : WellFormed (oneName.directory (oneName.getino 2)) ∧ Ufs.Dir.records (oneName.directory (oneName.getino 2)) = [0] :=
    wellFormed_of_tiles (.cons ⟨by decide, by decide, by decide⟩ (.nil _))
  have hent : Ufs.Dir.entries (oneName.directory (oneName.getino 2)) = [([97], 1)] := by
    rw [Ufs.Dir.entries, hwf.2]
    decide
  have hok (i : ℕ) (hi : oneName.IsDir i) : DirOk oneName (oneName.getino i) := by
    obtain ⟨hpos, hle, hdir⟩ := hi
    have hle' : i ≤ 2 := hle
    interval_cases i
    · exact absurd hdir (by decide)
    · refine ⟨by decide, by decide, hwf.1, ?_, ?_, fun j hj => ?_⟩
      · rw [hwf.2]
        decide
      · rw [hent]
        decide
      · have hj' : j < 3 := hj
        interval_cases j <;> exact ends_zero _ _
  obtain ⟨s, hs, hup, hall⟩ := passII_needed oneName hok
  have hholds : oneName.Holds 2 1 := ⟨⟨by decide, by decide, by decide⟩, ([97], 1), by rw [hent]; decide, by decide, by decide, rfl⟩
  refine ⟨s, hs 3 (by decide), hup 2 1 (.single hholds) ((hall 1 (by decide) (by decide)).1 ?_)⟩
  rw [passI_eq]
  decide

end Uwisc.Dump
