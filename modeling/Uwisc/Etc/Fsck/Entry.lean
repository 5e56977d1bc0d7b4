import Uwisc.Etc.Fsck
import Uwisc.Ufs.Dir.Spec

/-!
# One entry

What `pass2check` makes of an entry, in terms of what is read of entries (`Direct`): the first one
(`pass2check_first`) and those after it (`pass2check_later`).
-/

namespace Uwisc.Fsck

open Lib List Ufs.Dir

/-- What is read of an entry (`DIRECT`). -/
@[ext] structure Direct where
  d_ino : ℕ
  d_reclen : ℕ
  d_namlen : ℕ
  d_name : Name
  deriving DecidableEq

def direct (m : Mem) (o : ℕ) : Direct where
  d_ino := d_ino m o
  d_reclen := d_reclen m o
  d_namlen := d_namlen m o
  d_name := d_name m o (d_namlen m o)

/-- An entry that is made. -/
def made (ino : ℕ) (name : Name) (reclen : ℕ) : Direct := ⟨ino, reclen, name.length, name⟩

/-- Free, or `.`, or `..`. -/
def Direct.Special (x : Direct) : Prop := x.d_ino = 0 ∨ x.d_name = dot ∨ x.d_name = dotdot

/-- What is asked of an entry before it is looked at. -/
structure Valid (m : Mem) (o : ℕ) : Prop where
  size : DIRSIZ m o ≤ d_reclen m o
  short : d_namlen m o ≤ MAXNAMLEN
  name : d_ino m o ≠ 0 → (0 : UInt8) ∉ (direct m o).d_name ∧ m (o + 8 + d_namlen m o) = 0

/-- The directory or its parent: a directory that was found already. -/
structure Found (e : Setup) (t : Tables) (ino : ℕ) : Prop where
  pos : 0 < ino
  le : ino ≤ e.imax
  lt : ino < 2 ^ 32
  found : t.statemap ino = .DFOUND

/-- Directories stay found. -/
def Keeps (e : Setup) : Prop :=
  ∀ t ino t', e.descend t ino = some t' → ∀ i, t.statemap i = .DFOUND → t'.statemap i = .DFOUND

variable {e : Setup} {d : Inodesc} {p q : Pass2} {m m' : Mem} {o n ino reclen : ℕ} {name : Name}

/-! ### Bytes of entries -/

theorem ldirsiz_dot : LDIRSIZ dot.length = 12 := by decide

theorem ldirsiz_dotdot : LDIRSIZ dotdot.length = 12 := by decide

theorem length_d_name (m : Mem) (o : ℕ) : (direct m o).d_name.length = d_namlen m o := length_bytes _ _ _

/-- Names are compared as they should. -/
theorem Valid.strcmp_iff (hv : Valid m o) (hino : d_ino m o ≠ 0) (s : Name) (hs : (0 : UInt8) ∉ s) :
    strcmp m o s ↔ (direct m o).d_name = s := by
  obtain ⟨hcln, hend⟩ := hv.name hino
  have hlen := length_d_name m o
  have hbyte {n i : ℕ} (hi : i < n) : m (o + 8 + i) ∈ bytes m (o + 8) n :=
    mem_map.2 ⟨i, mem_range.2 hi, rfl⟩
  constructor
  · intro hcmp
    rw [strcmp, bytes_add] at hcmp
    obtain ⟨hname, hnull⟩ := append_inj hcmp (length_bytes _ _ _)
    have hnull : m (o + 8 + s.length) = 0 := by simpa [bytes] using hnull
    -- one of them would have a null byte if they were not as long
    rcases lt_trichotomy (d_namlen m o) s.length with hlt | heq | hgt
    · exact absurd (hname ▸ hend ▸ hbyte hlt) hs
    · rwa [← heq] at hname
    · have hmem : m (o + 8 + s.length) ∈ (direct m o).d_name := hbyte hgt
      exact absurd (hnull ▸ hmem) hcln
  · rintro rfl
    rw [strcmp, hlen, bytes_add]
    simp [bytes, hend, direct, d_name]

/-- What is read of an entry is in its own bytes. -/
theorem direct_congr (h : SameOn m m' o (o + DIRSIZ m o)) : direct m' o = direct m o := by
  have hsize := ldirsiz_ge (d_namlen m o)
  rw [DIRSIZ] at h
  have hino : d_ino m' o = d_ino m o := h.load_eq le_rfl (by omega)
  have hrec : d_reclen m' o = d_reclen m o := h.load_eq (by omega) (by omega)
  have hnam : d_namlen m' o = d_namlen m o := h.load_eq (by omega) (by omega)
  have hname : d_name m' o (d_namlen m o) = d_name m o (d_namlen m o) := h.bytes_eq (by omega) (by omega)
  rw [direct, direct, hino, hrec, hnam, hname]

theorem direct_setIno (hino : ino < 2 ^ 32) (m : Mem) (o : ℕ) :
    direct (setIno m o ino) o = { direct m o with d_ino := ino } := by
  have h : d_ino (setIno m o ino) o = ino := load_storeNum (by simpa using hino)
  have hsame (b : ℕ) : SameOn m (setIno m o ino) (o + 4) b := sameOn_storeNum (.inr le_rfl)
  have hrec : d_reclen (setIno m o ino) o = d_reclen m o := (hsame (o + 6)).load_eq le_rfl le_rfl
  have hnam : d_namlen (setIno m o ino) o = d_namlen m o := (hsame (o + 8)).load_eq (by omega) le_rfl
  have hname (k : ℕ) : d_name (setIno m o ino) o k = d_name m o k :=
    (hsame (o + 8 + k)).bytes_eq (by omega) le_rfl
  rw [direct, h, hrec, hnam, hname]
  rfl

theorem direct_setReclen (hn : n < 2 ^ 16) (m : Mem) (o : ℕ) :
    direct (setReclen m o n) o = { direct m o with d_reclen := n } := by
  have h : d_reclen (setReclen m o n) o = n := load_storeNum (by simpa using hn)
  have hbef : SameOn m (setReclen m o n) o (o + 4) := sameOn_storeNum (.inl le_rfl)
  have hsame (b : ℕ) : SameOn m (setReclen m o n) (o + 6) b := sameOn_storeNum (.inr le_rfl)
  have hino : d_ino (setReclen m o n) o = d_ino m o := hbef.load_eq le_rfl le_rfl
  have hnam : d_namlen (setReclen m o n) o = d_namlen m o := (hsame (o + 8)).load_eq le_rfl le_rfl
  have hname (k : ℕ) : d_name (setReclen m o n) o k = d_name m o k :=
    (hsame (o + 8 + k)).bytes_eq (by omega) le_rfl
  rw [direct, h, hino, hnam, hname]
  rfl

/-- The bytes of `proto` that are copied. -/
theorem direct_proto (e : Setup) (hino : ino < 2 ^ 32) (hrec : reclen < 2 ^ 16)
    (hname : name.length < 2 ^ 16) : direct (proto e ino name reclen) 0 = made ino name reclen := by
  set a := setIno e.stack 0 ino with ha
  set b := setNamlen a 0 name.length with hb
  set c := setReclen b 0 reclen with hc
  have hstore : proto e ino name reclen = store c 8 (name ++ [0]) := rfl
  have hsame : SameOn c (store c 8 (name ++ [0])) 0 8 := sameOn_store (.inl le_rfl)
  have h1 : d_ino (store c 8 (name ++ [0])) 0 = ino := by
    have hab : SameOn a b 0 4 := sameOn_storeNum (.inl (by omega))
    have hbc : SameOn b c 0 4 := sameOn_storeNum (.inl (by omega))
    calc d_ino (store c 8 (name ++ [0])) 0 = d_ino c 0 := hsame.load_eq le_rfl (by omega)
      _ = d_ino b 0 := hbc.load_eq le_rfl le_rfl
      _ = d_ino a 0 := hab.load_eq le_rfl le_rfl
      _ = ino := load_storeNum (by simpa using hino)
  have h2 : d_reclen (store c 8 (name ++ [0])) 0 = reclen := by
    calc d_reclen (store c 8 (name ++ [0])) 0 = d_reclen c 0 := hsame.load_eq (by omega) (by omega)
      _ = reclen := load_storeNum (by simpa using hrec)
  have h3 : d_namlen (store c 8 (name ++ [0])) 0 = name.length := by
    have hbc : SameOn b c 6 8 := sameOn_storeNum (.inr le_rfl)
    calc d_namlen (store c 8 (name ++ [0])) 0 = d_namlen c 0 := hsame.load_eq (by omega) (by omega)
      _ = d_namlen b 0 := hbc.load_eq le_rfl le_rfl
      _ = name.length := load_storeNum (by simpa using hname)
  have h4 : d_name (store c 8 (name ++ [0])) 0 name.length = name := bytes_store_append c 8 name [0]
  rw [hstore, direct, h1, h2, h3, h4]
  rfl

/-- The entry that is copied. -/
theorem direct_copyProto (e : Setup) (hino : ino < 2 ^ 32) (hrec : reclen < 2 ^ 16) (hname : name.length ≤ 4)
    (m : Mem) (o : ℕ) : direct (copyProto m o (proto e ino name reclen) 12) o = made ino name reclen := by
  have hproto := @direct_proto ino reclen name e hino hrec (by omega)
  have hbyt (i k : ℕ) (hik : i + k ≤ 12) :
      bytes (copyProto m o (proto e ino name reclen) 12) (o + i) k = bytes (proto e ino name reclen) i k := by
    refine map_congr_left fun j hj => ?_
    have := mem_range.1 hj
    rw [copyProto, store, length_bytes, if_pos (by omega)]
    have hj : o + i + j - o = i + j := by omega
    simp [bytes, hj, show i + j < 12 by omega]
  have h1 : d_ino (copyProto m o (proto e ino name reclen) 12) o = ino := by
    have hfirst := hbyt 0 4 (by omega)
    rw [add_zero] at hfirst
    rw [d_ino, load, hfirst]
    exact congrArg Direct.d_ino hproto
  have h2 : d_reclen (copyProto m o (proto e ino name reclen) 12) o = reclen := by
    rw [d_reclen, load, hbyt 4 2 (by omega)]
    exact congrArg Direct.d_reclen hproto
  have h3 : d_namlen (copyProto m o (proto e ino name reclen) 12) o = name.length := by
    rw [d_namlen, load, hbyt 6 2 (by omega)]
    exact congrArg Direct.d_namlen hproto
  have h4 : d_name (copyProto m o (proto e ino name reclen) 12) o name.length = name := by
    rw [d_name, hbyt 8 _ (by omega)]
    have hn : d_namlen (proto e ino name reclen) 0 = name.length := congrArg Direct.d_namlen hproto
    have h : d_name (proto e ino name reclen) 0 (d_namlen (proto e ino name reclen) 0) = name :=
      congrArg Direct.d_name hproto
    rwa [hn] at h
  rw [direct, h1, h2, h3, h4]
  rfl

variable {l l' : List Report} {x y : Direct} {a b : ℕ} {r : Pass2}

theorem sameOn_copyProto {x : Mem} (h : b ≤ o ∨ o + n ≤ a) : SameOn m (copyProto m o x n) a b :=
  sameOn_store (by rwa [length_bytes])

/-- An entry all of it zero is free. -/
theorem blank_spec (hn : 12 ≤ n) (hlt : n < 2 ^ 16) (m : Mem) (o : ℕ) :
    d_ino (blank m o n) o = 0 ∧ d_reclen (blank m o n) o = n := by
  refine ⟨?_, load_storeNum (by simpa using hlt)⟩
  have hsame : SameOn (store m o (replicate n 0)) (blank m o n) o (o + 4) := sameOn_storeNum (.inl le_rfl)
  have hbyt : bytes (store m o (replicate n 0)) o 4 = replicate 4 0 := by
    have h := bytes_store_append m o (replicate 4 0) (replicate (n - 4) 0)
    rwa [replicate_append_replicate, Nat.add_sub_cancel' (by omega), length_replicate] at h
  rw [d_ino, hsame.load_eq le_rfl le_rfl, load, hbyt]
  rfl

theorem sameOn_blank (hn : 6 ≤ n) (h : b ≤ o ∨ o + n ≤ a) : SameOn m (blank m o n) a b :=
  (sameOn_store (by simpa using h)).trans (sameOn_storeNum (by omega))

/-! ### The parts of `pass2check` -/

/-- If nothing was altered, the copy is as it was. -/
def Tracked (p q : Pass2) : Prop := q.altered = false → p.altered = false ∧ q.dbuf = p.dbuf

theorem Tracked.refl (p : Pass2) : Tracked p p := fun h => ⟨h, rfl⟩

theorem Tracked.trans (h : Tracked p q) (h' : Tracked q r) : Tracked p r := fun hr =>
  ⟨(h (h' hr).1).1, (h' hr).2.trans (h (h' hr).1).2⟩

theorem tracked_alter (p q : Pass2) (m : Mem) : Tracked p (q.alter m) := fun h => Bool.noConfusion h

/-- More is reported, none of it that an entry cannot be fixed. -/
def Adds (p q : Pass2) : Prop := ∃ l, q.reports = p.reports ++ l ∧ ∀ s name, .pfatal s name ∉ l

theorem Adds.refl (p : Pass2) : Adds p p := ⟨[], by simp, by simp⟩

theorem Adds.trans (h : Adds p q) (h' : Adds q r) : Adds p r := by
  obtain ⟨l, hl, hno⟩ := h
  obtain ⟨l', hl', hno'⟩ := h'
  refine ⟨l ++ l', by rw [hl', hl, append_assoc], fun s name hmem => ?_⟩
  rcases mem_append.1 hmem with hmem | hmem
  · exact hno s name hmem
  · exact hno' s name hmem

/-- It was reported that an entry cannot be fixed. -/
def CannotFix (l : List Report) : Prop := ∃ s name, .pfatal s name ∈ l

/-- What the rest of `pass2check` does with an entry in the copy. -/
structure Leaves (e : Setup) (p q : Pass2) : Prop where
  dbuf : q.dbuf = p.dbuf ∨ q.dbuf = setIno p.dbuf p.dirp 0
  tracked : Tracked p q
  adds : Adds p q
  found : ∀ ino, Found e p.tables ino → Found e q.tables ino

theorem found_link {t : Tables} (i : ℕ) (h : Found e t ino) : Found e (t.link i) ino :=
  ⟨h.pos, h.le, h.lt, h.found⟩

theorem leaves_remove (hr : Adds p q) (hd : q.dbuf = p.dbuf) (hp : q.dirp = p.dirp)
    (ht : q.tables = p.tables) : Leaves e p q.remove ∧ .removed (d_ino p.dbuf p.dirp) ∈ q.remove.reports := by
  have hrep : q.remove.reports = q.reports ++ [.removed (d_ino p.dbuf p.dirp)] := by
    rw [← hd, ← hp]
    rfl
  refine ⟨⟨.inr ?_, tracked_alter _ _ _, ?_, fun ino h => ?_⟩, by rw [hrep]; simp⟩
  · rw [← hd, ← hp]
    rfl
  · exact hr.trans ⟨_, hrep, by simp⟩
  · change Found e q.tables ino
    rwa [ht]

theorem adds_report {r : Report} (hr : ∀ s name, r ≠ .pfatal s name) : Adds p (p.report r) :=
  ⟨[r], rfl, fun s name h => hr s name (mem_singleton.1 h).symm⟩

/-- An entry is removed for its inode, or stays. -/
theorem checkState_spec (hkps : Keeps e) (h : checkState e p = .ok q) : Leaves e p q ∧
    q.id_entryno = p.id_entryno ∧ (q.dbuf = p.dbuf ∨ .removed (d_ino p.dbuf p.dirp) ∈ q.reports) := by
  have hstay (t : Tables) (ht : ∀ i, p.tables.statemap i = .DFOUND → t.statemap i = .DFOUND) (i : ℕ) :
      Leaves e p { p with tables := t.link i } :=
    ⟨.inl rfl, fun h => ⟨h, rfl⟩, ⟨[], by simp, by simp⟩, fun ino h =>
      found_link i ⟨h.pos, h.le, h.lt, ht ino h.found⟩⟩
  have hremo {r : Report} (hr : ∀ s name, r ≠ .pfatal s name) :=
    @leaves_remove e p (p.report r) (adds_report hr) rfl rfl rfl
  rw [checkState] at h
  dsimp only at h
  by_cases himax : e.imax < d_ino p.dbuf p.dirp
  · rw [if_pos himax] at h
    cases h
    have := @hremo (.direrr (d_ino p.dbuf p.dirp) "I OUT OF RANGE") (by simp)
    exact ⟨this.1, rfl, .inr this.2⟩
  rw [if_neg himax] at h
  split at h
  · cases h
    have := @hremo (.direrr (d_ino p.dbuf p.dirp) "UNALLOCATED") (by simp)
    exact ⟨this.1, rfl, .inr this.2⟩
  · cases h
    have := @hremo (.direrr (d_ino p.dbuf p.dirp) "DUP/BAD") (by simp)
    exact ⟨this.1, rfl, .inr this.2⟩
  · cases h
    have := @hremo (.direrr (d_ino p.dbuf p.dirp) "DUP/BAD") (by simp)
    exact ⟨this.1, rfl, .inr this.2⟩
  · split_ifs at h
    · cases h
      have := @hremo (.pwarn "IS AN EXTRANEOUS HARD LINK TO DIRECTORY") (by simp)
      exact ⟨this.1, rfl, .inr this.2⟩
    · cases h
      exact ⟨hstay p.tables (fun _ h => h) _, rfl, .inl rfl⟩
  · cases h
    exact ⟨hstay p.tables (fun _ h => h) _, rfl, .inl rfl⟩
  · split at h
    · cases h
    rename_i t hdesc
    have ht := hkps _ _ _ hdesc
    split at h
    · cases h
      exact ⟨hstay t ht _, rfl, .inl rfl⟩
    · cases h
      obtain ⟨hl, hmem⟩ := @leaves_remove e p p (Adds.refl p) rfl rfl rfl
      exact ⟨⟨hl.dbuf, hl.tracked, hl.adds, fun ino h => ⟨h.pos, h.le, h.lt, ht ino h.found⟩⟩, rfl, .inr hmem⟩
    · cases h

/-- A directory that was found stays as one of the first two entries. -/
theorem checkState_found (hf : Found e p.tables (d_ino p.dbuf p.dirp)) (hno : p.id_entryno ≤ 2)
    (h : checkState e p = .ok q) : q.dbuf = p.dbuf := by
  rw [checkState] at h
  dsimp only at h
  rw [if_neg (Nat.not_lt.2 hf.le), hf.found] at h
  dsimp only at h
  rw [if_neg (by omega)] at h
  cases h
  rfl

/-- An entry that is removed is a further `.` or `..`, or is removed for its inode. -/
theorem checkEntry_spec (hkps : Keeps e) (h : checkEntry e d p = .ok q) : Leaves e p q ∧
    (q.dbuf = p.dbuf ∨ .removed (d_ino p.dbuf p.dirp) ∈ q.reports ∨
      d_namlen p.dbuf p.dirp ≤ 2 ∧ p.dbuf (p.dirp + 8) = 0x2e ∧ 2 ≤ p.id_entryno ∧
        (d_namlen p.dbuf p.dirp = 1 ∨ p.dbuf (p.dirp + 9) = 0x2e)) ∧
    (2 ≤ p.id_entryno → 2 ≤ q.id_entryno) ∧
    (d_ino p.dbuf p.dirp ≠ 0 → p.id_entryno < 2 → q.id_entryno = p.id_entryno + 1) := by
  have hextra (s : String) : Leaves e p
      ((p.report (.direrr d.id_number s)).alter (setIno p.dbuf p.dirp 0)) :=
    ⟨.inr rfl, tracked_alter _ _ _, ⟨[.direrr d.id_number s], rfl, by simp⟩, fun _ h => h⟩
  rw [checkEntry] at h
  split_ifs at h with hzero hdot hdotdot hroom
  · cases h
    exact ⟨⟨.inl rfl, .refl p, .refl p, fun _ h => h⟩, .inl rfl, id, fun h => absurd hzero h⟩
  · cases h
    exact ⟨hextra _, .inr (.inr ⟨hdot.1, hdot.2.1, hdot.2.2.1, .inl hdot.2.2.2⟩), id, fun _ hlt =>
      absurd hdot.2.2.1 (by omega)⟩
  · cases h
    exact ⟨hextra _, .inr (.inr ⟨hdotdot.1, hdotdot.2.1, hdotdot.2.2.1, .inr hdotdot.2.2.2⟩), id,
      fun _ hlt => absurd hdotdot.2.2.1 (by omega)⟩
  · obtain ⟨hl, hno, hrem⟩ := checkState_spec hkps h
    refine ⟨⟨hl.dbuf, hl.tracked, hl.adds, hl.found⟩, hrem.imp_right .inl, fun hge => ?_, fun _ _ => hno⟩
    rw [hno]
    exact Nat.le_succ_of_le hge

/-- A directory that was found stays as one of the first two entries. -/
theorem checkEntry_found (hf : Found e p.tables (d_ino p.dbuf p.dirp)) (hno : p.id_entryno < 2)
    (h : checkEntry e d p = .ok q) : q.dbuf = p.dbuf := by
  rw [checkEntry] at h
  rw [if_neg hf.pos.ne', if_neg (by omega), if_neg (by omega)] at h
  split_ifs at h
  exact checkState_found (p := { p with id_entryno := p.id_entryno + 1 }) hf (Nat.succ_le_of_lt hno) h

theorem d_reclen_lt (m : Mem) (o : ℕ) : d_reclen m o < 2 ^ 16 := by
  have h := decode_lt (bytes m (o + 4) 2)
  rwa [length_bytes] at h

/-- An entry of a name is what is made of it, up to its inode. -/
theorem direct_named (hname : (direct m o).d_name = name) :
    { direct m o with d_ino := ino } = made ino name (d_reclen m o) := by
  have hlen := length_d_name m o
  rw [hname] at hlen
  ext1
  · rfl
  · rfl
  · exact hlen.symm
  · exact hname

/-- The entry that is to be `..` is, or cannot be fixed. -/
theorem checkSecond_spec (hpar : d.id_parent < 2 ^ 32) (hsize : 12 ≤ d_reclen p.dbuf p.dirp)
    (hname : d_ino p.dbuf p.dirp ≠ 0 → ∀ s : Name, (0 : UInt8) ∉ s →
      (strcmp p.dbuf p.dirp s ↔ (direct p.dbuf p.dirp).d_name = s))
    (hq : checkSecond e d p = q) : q.dirp = p.dirp ∧ q.id_entryno = p.id_entryno ∧ q.tables = p.tables ∧
      Tracked p q ∧ (∀ b, SameOn p.dbuf q.dbuf (p.dirp + 12) b) ∧ SameOn p.dbuf q.dbuf 0 p.dirp ∧
      p.reports <+: q.reports ∧
      (direct q.dbuf p.dirp = made d.id_parent dotdot (d_reclen p.dbuf p.dirp) ∧
          (direct p.dbuf p.dirp).Special ∧ Adds p q ∨
        q.dbuf = p.dbuf ∧ ¬(direct p.dbuf p.dirp).Special ∧ CannotFix q.reports) := by
  have hdot : (0 : UInt8) ∉ dot := by decide
  have hdotdot : (0 : UInt8) ∉ dotdot := by decide
  rw [checkSecond] at hq
  dsimp only at hq
  split_ifs at hq with h1 h2 h3 h4
  · have hn := (hname h1.1 dotdot hdotdot).1 h1.2
    subst hq
    refine ⟨rfl, rfl, rfl, tracked_alter _ _ _, fun b => sameOn_storeNum (.inr (by omega)),
      sameOn_storeNum (.inl le_rfl), prefix_append _ _, .inl ⟨?_, .inr (.inr hn), ⟨_, rfl, by simp⟩⟩⟩
    exact (direct_setIno hpar _ _).trans (direct_named hn)
  · have hn := (hname h1.1 dotdot hdotdot).1 h1.2
    rw [Classical.not_not] at h2
    subst hq
    refine ⟨rfl, rfl, rfl, .refl p, fun b => .refl _ _ _, .refl _ _ _, prefix_rfl,
      .inl ⟨?_, .inr (.inr hn), .refl p⟩⟩
    rw [← direct_named hn, ← h2]
    rfl
  · subst hq
    refine ⟨rfl, rfl, rfl, fun h => ⟨h, rfl⟩, fun b => .refl _ _ _, .refl _ _ _, ?_, .inr ⟨rfl, ?_, ?_⟩⟩
    · exact (prefix_append _ _).trans (prefix_append _ _)
    · rintro (h | h | h)
      · exact h3.1 h
      · exact h3.2 ((hname h3.1 dot hdot).2 h)
      · exact h1 ⟨h3.1, (hname h3.1 dotdot hdotdot).2 h⟩
    · exact ⟨_, _, mem_append_right _ (mem_singleton_self _)⟩
  · exact absurd h4 (Nat.not_lt.2 hsize)
  · subst hq
    refine ⟨rfl, rfl, rfl, tracked_alter _ _ _, fun b => sameOn_copyProto (.inr le_rfl),
      sameOn_copyProto (.inl le_rfl), prefix_append _ _, .inl ⟨?_, ?_, ⟨_, rfl, by simp⟩⟩⟩
    · exact direct_copyProto e hpar (d_reclen_lt _ _) (by decide) _ _
    · by_cases hz : d_ino p.dbuf p.dirp = 0
      · exact .inl hz
      · refine .inr (.inl ((hname hz dot hdot).1 ?_))
        by_contra hne
        exact h3 ⟨hz, hne⟩

/-- The first entry, once `.` was looked for: it is `.`, or cannot be fixed, or there is an entry
    after it. -/
theorem checkDot_spec (hnum : d.id_number < 2 ^ 32) (hno : p.id_entryno = 0) (hdirp : p.dirp = 0)
    (hv : Valid p.dbuf 0) (hq : checkDot e d p = q) :
    (∀ ino, Found e p.tables ino → Found e q.tables ino) ∧ Tracked p q ∧ p.reports <+: q.reports ∧
    (q.dirp = 0 ∧ q.id_entryno = 0 ∧ (∀ b, SameOn p.dbuf q.dbuf 12 b) ∧
        direct q.dbuf 0 = made d.id_number dot (d_reclen p.dbuf 0) ∧ (direct p.dbuf 0).Special ∧
        (d_ino p.dbuf 0 ≠ 0 ∧ (direct p.dbuf 0).d_name = dot ∨
          (d_ino p.dbuf 0 = 0 ∨ (direct p.dbuf 0).d_name = dotdot) ∧ d_reclen p.dbuf 0 < 24) ∨
      q.dirp = 0 ∧ q.id_entryno = 0 ∧ q.dbuf = p.dbuf ∧ ¬(direct p.dbuf 0).Special ∧ CannotFix q.reports ∨
      q.dirp = 12 ∧ q.id_entryno = 1 ∧ 24 ≤ d_reclen p.dbuf 0 ∧
        (d_ino p.dbuf 0 = 0 ∨ (direct p.dbuf 0).d_name = dotdot) ∧
        direct q.dbuf 0 = made d.id_number dot 12 ∧ d_ino q.dbuf 12 = 0 ∧
        d_reclen q.dbuf 12 = d_reclen p.dbuf 0 - 12) := by
  have hdot : (0 : UInt8) ∉ dot := by decide
  have hdotdot : (0 : UInt8) ∉ dotdot := by decide
  have hname := hv.strcmp_iff
  rw [checkDot] at hq
  dsimp only at hq
  rw [if_neg (not_not.2 hno), hdirp] at hq
  have hspl (h1 : ¬(d_ino p.dbuf 0 ≠ 0 ∧ strcmp p.dbuf 0 dot))
      (h3 : ¬(d_ino p.dbuf 0 ≠ 0 ∧ ¬strcmp p.dbuf 0 dotdot)) :
      d_ino p.dbuf 0 = 0 ∨ (direct p.dbuf 0).d_name = dotdot := by
    by_cases hz : d_ino p.dbuf 0 = 0
    · exact .inl hz
    · refine .inr ((hname hz dotdot hdotdot).1 ?_)
      by_contra hne
      exact h3 ⟨hz, hne⟩
  split_ifs at hq with h1 h2 h3 h4 h5
  · have hn := (hname h1.1 dot hdot).1 h1.2
    subst hq
    refine ⟨fun _ h => h, tracked_alter _ _ _, prefix_append _ _, .inl ⟨hdirp, hno, fun b =>
      sameOn_storeNum (.inr (by omega)), ?_, .inr (.inl hn), .inl ⟨h1.1, hn⟩⟩⟩
    exact (direct_setIno hnum _ _).trans (direct_named hn)
  · have hn := (hname h1.1 dot hdot).1 h1.2
    rw [Classical.not_not] at h2
    subst hq
    refine ⟨fun _ h => h, .refl p, prefix_rfl, .inl ⟨hdirp, hno, fun b => .refl _ _ _, ?_,
      .inr (.inl hn), .inl ⟨h1.1, hn⟩⟩⟩
    rw [← direct_named hn, ← h2]
    rfl
  · subst hq
    refine ⟨fun _ h => h, fun h => ⟨h, rfl⟩, (prefix_append _ _).trans (prefix_append _ _),
      .inr (.inl ⟨hdirp, hno, rfl, ?_, ?_⟩)⟩
    · rintro (h | h | h)
      · exact h3.1 h
      · exact h1 ⟨h3.1, (hname h3.1 dot hdot).2 h⟩
      · exact h3.2 ((hname h3.1 dotdot hdotdot).2 h)
    · exact ⟨_, _, mem_append_right _ (mem_singleton_self _)⟩
  · have hsize := hv.size
    have hge := (ldirsiz_ge (d_namlen p.dbuf 0)).2.1
    exact absurd h4 (Nat.not_lt.2 (hge.trans hsize))
  · have hs := hspl h1 h3
    subst hq
    refine ⟨fun _ h => h, tracked_alter _ _ _, prefix_append _ _, .inl ⟨hdirp, hno, fun b =>
      sameOn_copyProto (.inr le_rfl), ?_, ?_, .inr ⟨hs, h5⟩⟩⟩
    · exact direct_copyProto e hnum (d_reclen_lt _ _) (by decide) _ _
    · exact hs.imp_right .inr
  · have hs := hspl h1 h3
    have hge : 24 ≤ d_reclen p.dbuf 0 := Nat.not_lt.1 h5
    have hlt := d_reclen_lt p.dbuf 0
    have hbln := @blank_spec (d_reclen p.dbuf 0 - 12) (by omega) (by omega)
      (copyProto p.dbuf 0 (proto e d.id_number dot 12) 12) 12
    subst hq
    refine ⟨fun _ h => found_link _ h, fun h => Bool.noConfusion h, prefix_append _ _,
      .inr (.inr ⟨rfl, congrArg (· + 1) hno, hge, hs, ?_, hbln.1, hbln.2⟩)⟩
    have hcopy := direct_copyProto e hnum (by decide : 12 < 2 ^ 16) (by decide : dot.length ≤ 4) p.dbuf 0
    refine (direct_congr ?_).trans hcopy
    have hlen : DIRSIZ (copyProto p.dbuf 0 (proto e d.id_number dot 12) 12) 0 = 12 := by
      rw [DIRSIZ, show d_namlen _ 0 = 1 from congrArg Direct.d_namlen hcopy]
      rfl
    rw [hlen]
    exact sameOn_blank (by omega) (.inl le_rfl)

/-! ### The whole of it -/

/-- What an entry was is kept: if not free, `.` or `..`, it is of the same name and inode, or was
    removed for its inode. -/
structure Kept (x y : Direct) (l : List Report) : Prop where
  special : x.Special → y.Special
  other : ¬x.Special → y.d_name = x.d_name ∧ (y.d_ino = x.d_ino ∨ y.d_ino = 0 ∧ .removed x.d_ino ∈ l)

/-- The entry is as it was, up to what it names, in its place. -/
structure After (x y : Direct) (l : List Report) : Prop extends Kept x y l where
  reclen : y.d_reclen = x.d_reclen
  size : LDIRSIZ y.d_namlen ≤ y.d_reclen

theorem Kept.mono (h : Kept x y l) (hl : l <+: l') : Kept x y l' :=
  ⟨h.special, fun hx => ⟨(h.other hx).1, (h.other hx).2.imp_right fun h => ⟨h.1, hl.subset h.2⟩⟩⟩

theorem After.mono (h : After x y l) (hl : l <+: l') : After x y l' :=
  ⟨h.toKept.mono hl, h.reclen, h.size⟩

theorem after_refl (h : DIRSIZ m o ≤ d_reclen m o) : After (direct m o) (direct m o) l :=
  ⟨⟨id, fun _ => ⟨rfl, .inl rfl⟩⟩, rfl, h⟩

theorem CannotFix.mono (h : CannotFix l) (hl : l <+: l') : CannotFix l' := by
  obtain ⟨s, name, hmem⟩ := h
  exact ⟨s, name, hl.subset hmem⟩

theorem Adds.le (h : Adds p q) : p.reports <+: q.reports := by
  obtain ⟨l, hl, -⟩ := h
  exact ⟨l, hl.symm⟩

/-- An entry that is removed. -/
theorem after_removed (h : DIRSIZ m o ≤ d_reclen m o)
    (hrem : (direct m o).Special ∨ .removed (d_ino m o) ∈ l) : After (direct m o) (direct (setIno m o 0) o) l := by
  rw [direct_setIno (by decide)]
  exact ⟨⟨fun _ => .inl rfl, fun hx => ⟨rfl, .inr ⟨rfl, hrem.resolve_left hx⟩⟩⟩, rfl, h⟩

/-- The name of a further `.` or `..`. -/
theorem extra_special (hv : Valid m 0) (hino : d_ino m 0 ≠ 0) (hlen : d_namlen m 0 ≤ 2) (hfirst : m 8 = 0x2e)
    (h : d_namlen m 0 = 1 ∨ m 9 = 0x2e) : (direct m 0).Special := by
  have hname : (direct m 0).d_name = bytes m 8 (d_namlen m 0) := rfl
  have hcas : d_namlen m 0 = 0 ∨ d_namlen m 0 = 1 ∨ d_namlen m 0 = 2 := by omega
  rcases hcas with h0 | h1 | h2
  · -- a name of no bytes is not one of `.`
    have hnull := (hv.name hino).2
    rw [h0, hfirst] at hnull
    exact absurd hnull (by decide)
  · refine .inr (.inl ?_)
    rw [hname, h1]
    simp [bytes, hfirst, dot]
  · have h9 : m 9 = 0x2e := h.resolve_left (by omega)
    refine .inr (.inr ?_)
    rw [hname, h2]
    simp [bytes, range_succ, hfirst, h9, dotdot]

/-- An entry after the first one is kept in its place, and the second one is `..` or cannot be
    fixed. -/
theorem pass2check_later (hkps : Keeps e) (hpar : Found e p.tables d.id_parent) (hno : 1 ≤ p.id_entryno)
    (hdirp : p.dirp = 0) (hv : Valid p.dbuf 0) (h : pass2check e d p = .ok q) :
    Tracked p q ∧ p.reports <+: q.reports ∧ (∀ ino, Found e p.tables ino → Found e q.tables ino) ∧
      2 ≤ q.id_entryno ∧ After (direct p.dbuf 0) (direct q.dbuf 0) q.reports ∧
      (p.id_entryno = 1 → CannotFix q.reports ∨
        direct q.dbuf 0 = made d.id_parent dotdot (d_reclen p.dbuf 0)) := by
  have hfirst : checkDot e d p = p := by rw [checkDot]; exact if_pos (by omega)
  have hge := (ldirsiz_ge (d_namlen p.dbuf 0)).2.1
  have hsize := hv.size
  rw [pass2check, hfirst] at h
  by_cases hone : p.id_entryno = 1
  · have hsec : checkDotDot e d p = checkSecond e d p := by
      rw [checkDotDot, if_neg (by omega), if_neg (by omega)]
    rw [hsec] at h
    generalize hr : checkSecond e d p = r at h
    obtain ⟨hd, hn, ht, htr, -, -, hpre, hres⟩ := checkSecond_spec hpar.lt
      (by rw [hdirp]; exact hge.trans hsize) (by rw [hdirp]; exact hv.strcmp_iff) hr
    rw [hdirp] at hd hres
    obtain ⟨hl, hrem, -, hlive⟩ := checkEntry_spec hkps h
    rw [hd] at hrem hlive
    have hfnd (ino : ℕ) (hf : Found e p.tables ino) : Found e q.tables ino := hl.found ino (ht ▸ hf)
    refine ⟨htr.trans hl.tracked, hpre.trans hl.adds.le, hfnd, ?_⟩
    rcases hres with ⟨hmade, hspecial, -⟩ | ⟨hsame, hspecial, hcan⟩
    · have hino : d_ino r.dbuf 0 = d.id_parent := congrArg Direct.d_ino hmade
      have hq : q.dbuf = r.dbuf := by
        refine checkEntry_found ?_ (by omega) h
        rw [hd, hino, ht]
        exact hpar
      have hq' : direct q.dbuf 0 = made d.id_parent dotdot (d_reclen p.dbuf 0) := by rw [hq, hmade]
      refine ⟨?_, ?_, fun _ => .inr hq'⟩
      · have := hlive (by rw [hino]; exact hpar.pos.ne') (by omega)
        omega
      · rw [hq, hmade]
        exact ⟨⟨fun _ => .inr (.inr rfl), fun hx => absurd hspecial hx⟩, rfl, ldirsiz_dotdot.trans_le (hge.trans hsize)⟩
    · have hino : d_ino r.dbuf 0 ≠ 0 := fun hz => hspecial (.inl (hsame ▸ hz))
      refine ⟨?_, ?_, fun _ => .inl (hcan.mono hl.adds.le)⟩
      · have := hlive hino (by omega)
        omega
      · rw [hsame] at hrem
        rcases hrem with hq | hrem | hextra
        · rw [hq]
          exact after_refl hsize
        · rcases hl.dbuf with hq | hq
          · rw [hq, hsame]
            exact after_refl hsize
          · rw [hq, hsame, hd]
            exact after_removed hsize (.inr hrem)
        · exact absurd hextra.2.2.1 (by omega)
  · have hsec : checkDotDot e d p = p := by
      rw [checkDotDot]
      exact if_pos (by omega)
    rw [hsec] at h
    obtain ⟨hl, hrem, hgrow, -⟩ := checkEntry_spec hkps h
    rw [hdirp] at hrem
    refine ⟨hl.tracked, hl.adds.le, hl.found, hgrow (by omega), ?_, fun h => absurd h hone⟩
    rcases hrem with hq | hrem
    · rw [hq]
      exact after_refl hsize
    rcases hl.dbuf with hq | hq
    · rw [hq]
      exact after_refl hsize
    · rw [hq, hdirp]
      rcases hrem with hrem | hextra
      · exact after_removed hsize (.inr hrem)
      · refine after_removed hsize (.inl ?_)
        by_cases hz : d_ino p.dbuf 0 = 0
        · exact .inl hz
        · exact extra_special hv hz hextra.1 hextra.2.1 hextra.2.2.2

/-- The first entry is in use and not `..`, and there is room for `..` after what it holds: the
    space for it is not measured. -/
def Carved (m : Mem) : Prop :=
  d_ino m 0 ≠ 0 ∧ (direct m 0).d_name ≠ dotdot ∧ DIRSIZ m 0 + 12 ≤ d_reclen m 0

instance (m : Mem) : Decidable (Carved m) := inferInstanceAs (Decidable (_ ∧ _))

/-- What becomes of the first entry of a directory. -/
inductive First (d : Inodesc) (m m' : Mem) (entryno : ℕ) (l : List Report) : Prop
  /-- It stays one entry. -/
  | single (hfit : ¬Carved m) (hlt : d_reclen m 0 < DIRBLKSIZ) (hno : entryno = 1)
      (hafter : After (direct m 0) (direct m' 0) l)
      (hdot : CannotFix l ∨ direct m' 0 = made d.id_number dot (d_reclen m 0))
  /-- It becomes `.` and `..`. -/
  | double (hfit : ¬Carved m) (hlt : 24 ≤ d_reclen m 0) (hno : entryno = 2) (hspecial : (direct m 0).Special)
      (hdot : direct m' 0 = made d.id_number dot 12)
      (hdotdot : direct m' 12 = made d.id_parent dotdot (d_reclen m 0 - 12))
  /-- An entry is made after it, as long as it is. -/
  | carved (hcarved : Carved m) (hno : entryno = 2)
      (hfirst : CannotFix l ∧ direct m' 0 = { direct m 0 with d_reclen := DIRSIZ m 0 } ∨
        (direct m 0).Special ∧ direct m' 0 = made d.id_number dot (DIRSIZ m 0))
      (hdotdot : direct m' (DIRSIZ m 0) = made d.id_parent dotdot (DIRSIZ m 0))
      (hrest : SameOn m m' (2 * DIRSIZ m 0) (d_reclen m 0))

theorem ldirsiz_le {k : ℕ} (h : k ≤ MAXNAMLEN) : LDIRSIZ k ≤ 264 := by
  rw [MAXNAMLEN] at h
  rw [LDIRSIZ]
  omega

theorem dirsiz_eq (h : direct m o = x) : DIRSIZ m o = LDIRSIZ x.d_namlen := by
  rw [← h]
  rfl

/-- The entry that is made after the first one is the parent's, and stays so. -/
theorem carve_spec (hkps : Keeps e) (hpar : Found e p.tables d.id_parent) (hno : p.id_entryno = 0)
    (hdirp : p.dirp = 0) (hsht : DIRSIZ p.dbuf 0 ≤ 264)
    (h : checkEntry e d (checkSecond e d (carve p)) = .ok q) :
    Tracked p q ∧ p.reports <+: q.reports ∧ (∀ ino, Found e p.tables ino → Found e q.tables ino) ∧
      q.id_entryno = 2 ∧ direct q.dbuf 0 = { direct p.dbuf 0 with d_reclen := DIRSIZ p.dbuf 0 } ∧
      direct q.dbuf (DIRSIZ p.dbuf 0) = made d.id_parent dotdot (DIRSIZ p.dbuf 0) ∧
      ∀ b, SameOn p.dbuf q.dbuf (2 * DIRSIZ p.dbuf 0) b := by
  have hge : 12 ≤ DIRSIZ p.dbuf 0 := (ldirsiz_ge _).2.1
  generalize hn : DIRSIZ p.dbuf 0 = n at *
  have hdbuf : (carve p).dbuf = blank (setReclen p.dbuf 0 n) n n := by
    rw [← hn]
    simp only [carve, hdirp, zero_add]
  have hat : (carve p).dirp = n := by
    rw [← hn]
    simp only [carve, hdirp, zero_add]
  have hone : (carve p).id_entryno = 1 := congrArg (· + 1) hno
  obtain ⟨hz, hr⟩ := @blank_spec n hge (by omega) (setReclen p.dbuf 0 n) n
  rw [← hdbuf] at hz hr
  generalize hs : checkSecond e d (carve p) = s at h
  obtain ⟨hd, hsno, ht, htr, hsame, hbef, hpre, hres⟩ := checkSecond_spec hpar.lt
    (by rw [hat, hr]; exact hge) (by rw [hat]; exact fun h => absurd hz h) hs
  rw [hat] at hd hsame hbef hres
  have hmade : direct s.dbuf n = made d.id_parent dotdot n ∧ s.altered = true := by
    rcases hres with ⟨hmade, -, -⟩ | ⟨-, hspecial, -⟩
    · refine ⟨by rw [hmade, hr], ?_⟩
      by_contra halt
      -- the copy would be as it was carved, with no inode
      have hsdbuf := (htr (by simpa using halt)).2
      have hino : d_ino s.dbuf n = d.id_parent := congrArg Direct.d_ino hmade
      rw [hsdbuf, hz] at hino
      exact hpar.pos.ne hino
    · exact absurd (.inl hz) hspecial
  obtain ⟨hmade, halt⟩ := hmade
  have hfnd (ino : ℕ) (hf : Found e p.tables ino) : Found e s.tables ino := ht ▸ found_link _ hf
  have hino : d_ino s.dbuf n = d.id_parent := congrArg Direct.d_ino hmade
  have hq : q.dbuf = s.dbuf := by
    refine checkEntry_found ?_ (by omega) h
    rw [hd, hino]
    exact hfnd _ hpar
  obtain ⟨hl, -, -, hlive⟩ := checkEntry_spec hkps h
  have hqno := hlive (by rw [hd, hino]; exact hpar.pos.ne') (by omega)
  refine ⟨fun hqa => ?_, hpre.trans hl.adds.le, fun ino hf => hl.found ino (hfnd ino hf), by omega, ?_,
    by rw [hq, hmade], fun b => ?_⟩
  · rw [(hl.tracked hqa).1] at halt
    exact Bool.noConfusion halt
  · -- the bytes of the first entry end where the other one is made
    have hset := direct_setReclen (n := n) (by omega) p.dbuf 0
    have hsize : DIRSIZ (setReclen p.dbuf 0 n) 0 = n := by
      rw [← hn]
      exact dirsiz_eq hset
    rw [hq, ← hset]
    have hbln : SameOn (setReclen p.dbuf 0 n) (carve p).dbuf 0 n := by
      rw [hdbuf]
      exact sameOn_blank (by omega) (.inl le_rfl)
    exact direct_congr (by rw [hsize, zero_add]; exact hbln.trans hbef)
  · have hset : SameOn p.dbuf (setReclen p.dbuf 0 n) (2 * n) b := sameOn_storeNum (.inr (by omega))
    have hbln : SameOn (setReclen p.dbuf 0 n) (carve p).dbuf (2 * n) b := by
      rw [hdbuf]
      exact sameOn_blank (by omega) (.inr (by omega))
    rw [hq]
    exact (hset.trans hbln).trans ((hsame b).mono (by omega) le_rfl)

/-- The first entry of a directory. -/
theorem pass2check_first (hkps : Keeps e) (hnum : Found e p.tables d.id_number)
    (hpar : Found e p.tables d.id_parent) (hno : p.id_entryno = 0) (hdirp : p.dirp = 0) (hv : Valid p.dbuf 0)
    (h : pass2check e d p = .ok q) :
    Tracked p q ∧ p.reports <+: q.reports ∧ (∀ ino, Found e p.tables ino → Found e q.tables ino) ∧
      First d p.dbuf q.dbuf q.id_entryno q.reports := by
  have hge : 12 ≤ DIRSIZ p.dbuf 0 := (ldirsiz_ge _).2.1
  have hsht : DIRSIZ p.dbuf 0 ≤ 264 := ldirsiz_le hv.short
  have hsize := hv.size
  rw [pass2check] at h
  generalize hr : checkDot e d p = r at h
  obtain ⟨hfnd, htr, hpre, hres⟩ := checkDot_spec hnum.lt hno hdirp hv hr
  rcases hres with ⟨hrd, hrno, hsame, hdot, hspecial, hcase⟩ | ⟨hrd, hrno, hsame, hspecial, hcan⟩ |
    ⟨hrd, hrno, h24, hspecial, hdot, hz, hrec⟩
  · -- it is `.` now
    have hrsize : DIRSIZ r.dbuf 0 = 12 := (dirsiz_eq hdot).trans ldirsiz_dot
    have hrlen : d_reclen r.dbuf 0 = d_reclen p.dbuf 0 := congrArg Direct.d_reclen hdot
    have hrino : d_ino r.dbuf 0 = d.id_number := congrArg Direct.d_ino hdot
    rw [checkDotDot, if_neg (by omega), if_pos hrno, hrd, hrlen, hrsize, ldirsiz_dotdot] at h
    split_ifs at h with hsml
    · have hq : q.dbuf = r.dbuf := by
        refine checkEntry_found ?_ (by omega) h
        rw [hrd, hrino]
        exact hfnd _ hnum
      obtain ⟨hl, -, -, hlive⟩ := checkEntry_spec hkps h
      have hqno := hlive (by rw [hrd, hrino]; exact hnum.pos.ne') (by omega)
      refine ⟨htr.trans hl.tracked, hpre.trans hl.adds.le, fun ino hf => hl.found ino (hfnd ino hf),
        .single ?_ (by rw [DIRBLKSIZ]; omega) (by omega) ?_ (.inr (by rw [hq, hdot]))⟩
      · rintro ⟨-, -, hle⟩
        omega
      · rw [hq, hdot]
        exact ⟨⟨fun _ => .inr (.inl rfl), fun hx => absurd hspecial hx⟩, rfl, ldirsiz_dot.trans_le (hge.trans hsize)⟩
    · obtain ⟨hz, hname⟩ := hcase.resolve_right fun hc => hsml hc.2
      have hpsize : DIRSIZ p.dbuf 0 = 12 := by
        have hlen := length_d_name p.dbuf 0
        rw [hname] at hlen
        rw [DIRSIZ, ← hlen]
        rfl
      obtain ⟨htr', hpre', hfnd', hqno, hfirst, hsec, hrest⟩ := carve_spec hkps (hfnd _ hpar) hrno hrd
        (by rw [hrsize]; decide) h
      rw [hrsize] at hfirst hsec hrest
      refine ⟨htr.trans htr', hpre.trans hpre', fun ino hf => hfnd' ino (hfnd ino hf),
        .carved ⟨hz, ?_, ?_⟩ hqno (.inr ⟨hspecial, ?_⟩) ?_ ?_⟩
      · rw [hname]
        decide
      · omega
      · rw [hfirst, hdot, hpsize]
        rfl
      · rw [hpsize, hsec]
      · rw [hpsize]
        exact ((hsame _).mono (by omega) le_rfl).trans (hrest _)
  · -- it is not one that may be made `.`
    have hrino : d_ino r.dbuf 0 ≠ 0 := fun hz => hspecial (.inl (hsame ▸ hz))
    rw [checkDotDot, if_neg (by omega), if_pos hrno, hrd, hsame, ldirsiz_dotdot] at h
    split_ifs at h with hsml
    · obtain ⟨hl, hrem, -, hlive⟩ := checkEntry_spec hkps h
      rw [hrd] at hrem hlive
      have hqno := hlive hrino (by omega)
      refine ⟨htr.trans hl.tracked, hpre.trans hl.adds.le, fun ino hf => hl.found ino (hfnd ino hf),
        .single ?_ (by rw [DIRBLKSIZ]; omega) (by omega) ?_ (.inl (hcan.mono hl.adds.le))⟩
      · rintro ⟨-, -, hle⟩
        omega
      · rw [hsame] at hrem
        rcases hrem with hq | hrem | hextra
        · rw [hq]
          exact after_refl hsize
        · rcases hl.dbuf with hq | hq
          · rw [hq, hsame]
            exact after_refl hsize
          · rw [hq, hsame, hrd]
            exact after_removed hsize (.inr hrem)
        · exact absurd hextra.2.2.1 (by omega)
    · obtain ⟨htr', hpre', hfnd', hqno, hfirst, hsec, hrest⟩ := carve_spec hkps (hfnd _ hpar) hrno hrd
        (by rw [hsame]; exact hsht) h
      rw [hsame] at hfirst hsec hrest
      refine ⟨htr.trans htr', hpre.trans hpre', fun ino hf => hfnd' ino (hfnd ino hf),
        .carved ⟨hsame ▸ hrino, fun hname => hspecial (.inr (.inr hname)), Nat.not_lt.1 hsml⟩ hqno
          (.inl ⟨hcan.mono hpre', hfirst⟩) hsec (hrest _)⟩
  · -- `.` was put in it, and what is left is free
    rw [checkDotDot, if_neg (by omega), if_neg (by omega)] at h
    generalize hs : checkSecond e d r = s at h
    obtain ⟨hd, hsno, ht, htr', -, hbef, hpre', hres⟩ := checkSecond_spec (hfnd _ hpar).lt
      (by rw [hrd, hrec]; omega) (by rw [hrd]; exact fun h => absurd hz h) hs
    rw [hrd] at hd hbef hres
    have hmade : direct s.dbuf 12 = made d.id_parent dotdot (d_reclen p.dbuf 0 - 12) := by
      rcases hres with ⟨hmade, -, -⟩ | ⟨-, hnot, -⟩
      · rw [hmade, hrec]
      · exact absurd (.inl hz) hnot
    have hino : d_ino s.dbuf 12 = d.id_parent := congrArg Direct.d_ino hmade
    have hq : q.dbuf = s.dbuf := by
      refine checkEntry_found ?_ (by omega) h
      rw [hd, hino, ht]
      exact hfnd _ hpar
    obtain ⟨hl, -, -, hlive⟩ := checkEntry_spec hkps h
    have hqno := hlive (by rw [hd, hino]; exact hpar.pos.ne') (by omega)
    refine ⟨(htr.trans htr').trans hl.tracked, (hpre.trans hpre').trans hl.adds.le, fun ino hf =>
      hl.found ino (ht ▸ hfnd ino hf), .double ?_ h24 (by omega) (hspecial.imp_right .inr) ?_ (by rw [hq, hmade])⟩
    · rintro ⟨hlive, hne, -⟩
      exact hspecial.elim hlive hne
    · rw [hq, ← hdot]
      have hrsize : DIRSIZ r.dbuf 0 = 12 := (dirsiz_eq hdot).trans ldirsiz_dot
      exact direct_congr (by rw [hrsize]; exact hbef)

end Uwisc.Fsck
