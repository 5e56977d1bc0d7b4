import Uwisc.Lib.Chain
import Uwisc.Ufs.Dir

/-!
# What directories hold

A directory is well formed if its records follow one another from its start to its end,
none of them crossing the end of a chunk (`WellFormed`). It holds the names of the
records that are in use, with their inode numbers (`entries`).

* `search_spec`: a search finds the first record of a name in the records it passes;
* `dirlook_spec`: a lookup finds what the directory holds, from any record it starts at.
-/

namespace Uwisc.Ufs.Dir

open Lib List

/-- A record that fits in its chunk, and its entry in it. -/
structure RecOk (m : Mem) (o : ℕ) : Prop where
  mod : d_reclen m o % 4 = 0
  size : DIRSIZ m o ≤ d_reclen m o
  chunk : o % DIRBLKSIZ + d_reclen m o ≤ DIRBLKSIZ

/-- The records at `l` lead from `a` to `b`. -/
abbrev Tiles (m : Mem) : ℕ → ℕ → List ℕ → Prop := Chain (d_reclen m) (RecOk m)

/-- What a record holds, if it is in use. -/
def entry (m : Mem) (o : ℕ) : Option (Name × ℕ) :=
  if d_ino m o = 0 then none else some (d_name m o (d_namlen m o), d_ino m o)

/-- The records from `a` up to `b`. -/
def recordsFrom (m : Mem) (b a : ℕ) : List ℕ :=
  if _h : a < b ∧ 0 < d_reclen m a then a :: recordsFrom m b (a + d_reclen m a) else []
termination_by b - a

/-- The end of the last chunk. -/
def Inode.dirsize (dp : Inode) : ℕ := roundup dp.i_size DIRBLKSIZ

/-- The records of a directory. -/
def records (dp : Inode) : List ℕ := recordsFrom dp.data dp.dirsize 0

/-- The names it holds, with their inode numbers. -/
def entries (dp : Inode) : List (Name × ℕ) := (records dp).filterMap (entry dp.data)

/-- The records follow one another up to the end of the directory. -/
def WellFormed (dp : Inode) : Prop := Tiles dp.data 0 dp.dirsize (records dp)

variable {m m' : Mem} {a b o e n : ℕ} {l : List ℕ} {namep : Name} {dp : Inode}

/-! ### Records -/

theorem ldirsiz_ge (len : ℕ) : len + 9 ≤ LDIRSIZ len ∧ 12 ≤ LDIRSIZ len ∧ LDIRSIZ len % 4 = 0 := by
  rw [LDIRSIZ]
  omega

theorem RecOk.pos (h : RecOk m o) : 0 < d_reclen m o := by
  have := h.size
  have := (ldirsiz_ge (d_namlen m o)).2.1
  rw [DIRSIZ] at *
  omega

theorem RecOk.dirmangled (h : RecOk m o) : dirmangled m o = 0 := by
  have hmod := h.mod
  have hsize := h.size
  have hchk := h.chunk
  have hpos := h.pos
  rw [DIRBLKSIZ] at hchk
  rw [Dir.dirmangled, if_neg]
  rintro (h | h | h | h | ⟨h, -⟩)
  · exact h hmod
  · exact hpos.ne' h
  · rw [DIRBLKSIZ] at h
    omega
  · exact hsize.not_gt h
  · exact absurd h (by decide)

theorem recordsFrom_eq (h : Tiles m a b l) : recordsFrom m b a = l := by
  induction h with
  | nil a => rw [recordsFrom, dif_neg (by omega)]
  | @cons a b l hok h ih =>
    have := h.le
    have := hok.pos
    rw [recordsFrom, dif_pos (by omega), ih]

theorem wellFormed_of_tiles (h : Tiles dp.data 0 dp.dirsize l) : WellFormed dp ∧ records dp = l := by
  have hrec : records dp = l := recordsFrom_eq h
  exact ⟨by rw [WellFormed, hrec]; exact h, hrec⟩

theorem dirsize_mod (dp : Inode) : dp.dirsize % DIRBLKSIZ = 0 := Nat.mul_mod_left _ _

@[simp] theorem imark_data (dp : Inode) : (imark dp).data = dp.data := rfl

/-- What is read of a record is in the first bytes of it. -/
theorem recOk_congr (h : SameOn m m' o (o + 8)) : RecOk m' o ↔ RecOk m o := by
  have hrecl : d_reclen m' o = d_reclen m o := h.load_eq (by omega) (by omega)
  have hnam : d_namlen m' o = d_namlen m o := h.load_eq (by omega) (by omega)
  have hdir : DIRSIZ m' o = DIRSIZ m o := by rw [DIRSIZ, DIRSIZ, hnam]
  exact ⟨fun h => ⟨hrecl ▸ h.mod, hrecl ▸ hdir ▸ h.size, hrecl ▸ h.chunk⟩, fun h =>
    ⟨hrecl ▸ h.mod, hrecl ▸ hdir ▸ h.size, hrecl ▸ h.chunk⟩⟩

theorem d_reclen_congr (h : SameOn m m' o (o + 8)) : d_reclen m' o = d_reclen m o :=
  h.load_eq (by omega) (by omega)

/-- What a record holds is in the bytes of its entry. -/
theorem entry_congr (hino : SameOn m m' o (o + 4)) (hname : SameOn m m' (o + 6) (o + DIRSIZ m o)) :
    entry m' o = entry m o := by
  have hsize := ldirsiz_ge (d_namlen m o)
  rw [DIRSIZ] at hname
  have h1 : d_ino m' o = d_ino m o := hino.load_eq le_rfl le_rfl
  have h2 : d_namlen m' o = d_namlen m o := hname.load_eq le_rfl (by omega)
  have h3 : d_name m' o (d_namlen m o) = d_name m o (d_namlen m o) := hname.bytes_eq (by omega) (by omega)
  rw [entry, entry, h1, h2, h3]

/-- A chain of records is in its own bytes. -/
theorem Tiles.congr (h : Tiles m a b l) (hs : SameOn m m' a b) :
    Tiles m' a b l ∧ l.filterMap (entry m') = l.filterMap (entry m) := by
  have hrec : ∀ o ∈ l, SameOn m m' o (o + DIRSIZ m o) := fun o ho => by
    have hbou := h.bounds ho
    have hsize := (h.ok_of_mem ho).size
    exact hs.mono hbou.1 (by omega)
  have hge : ∀ o, 12 ≤ DIRSIZ m o := fun o => (ldirsiz_ge (d_namlen m o)).2.1
  refine ⟨Chain.congr h (fun o ho => ?_) (fun o ho hok => ?_), filterMap_congr fun o ho => ?_⟩
  · exact d_reclen_congr ((hrec o ho).mono le_rfl (by have := hge o; omega))
  · exact (recOk_congr ((hrec o ho).mono le_rfl (by have := hge o; omega))).2 hok
  · exact entry_congr ((hrec o ho).mono le_rfl (by have := hge o; omega))
      ((hrec o ho).mono (by omega) le_rfl)

theorem isMatch_iff : isMatch m o namep ↔ entry m o = some (namep, d_ino m o) := by
  rw [isMatch, entry]
  split_ifs with h
  · simp [h]
  · simp only [ne_eq, h, not_false_eq_true, true_and, Option.some.injEq, Prod.mk.injEq, and_true]
    constructor
    · rintro ⟨hlen, hname⟩
      rw [hlen, hname]
    · intro hname
      have hlen : d_namlen m o = namep.length := by
        rw [← hname, d_name, length_bytes]
      exact ⟨hlen, hlen ▸ hname⟩

/-! ### Looking up -/

/-- A search passes the records up to its end. -/
theorem search_spec (h : Tiles m a b l) (he : e ≤ b) (hl : ∀ o ∈ l, o < e) :
    search m namep e a = l.find? fun o => isMatch m o namep := by
  induction h with
  | nil a => rw [search, if_neg (by omega), find?_nil]
  | @cons a b l hok h ih =>
    obtain ⟨ha, hl⟩ := forall_mem_cons.1 hl
    rw [search, if_pos ha, if_neg (by simp [hok.dirmangled]), find?_cons]
    by_cases hm : isMatch m a namep
    · rw [if_pos hm, decide_eq_true hm]
    · rw [if_neg hm, decide_eq_false hm, ih he hl]

/-- The number found is that of the name, or there is none. -/
def LooksUp (dp : Inode) (namep : Name) : Option ℕ → Prop
  | some ino => (namep, ino) ∈ entries dp
  | none => ∀ ino, (namep, ino) ∉ entries dp

theorem mem_entries_of_match (ho : o ∈ records dp) (h : isMatch dp.data o namep) :
    (namep, d_ino dp.data o) ∈ entries dp :=
  mem_filterMap.2 ⟨o, ho, isMatch_iff.1 h⟩

/-- A record of a name that the directory holds. -/
theorem exists_match_of_mem {ino : ℕ} (h : (namep, ino) ∈ entries dp) :
    ∃ o ∈ records dp, isMatch dp.data o namep ∧ d_ino dp.data o = ino := by
  obtain ⟨o, ho, hent⟩ := mem_filterMap.1 h
  have hino : d_ino dp.data o = ino := by
    rw [entry] at hent
    split_ifs at hent
    exact (Prod.mk.inj (Option.some.inj hent)).2
  exact ⟨o, ho, isMatch_iff.2 (hino ▸ hent), hino⟩

/-- The first record of a name in some order of them. -/
theorem looksUp_find (h : ∀ o, o ∈ l ↔ o ∈ records dp) :
    LooksUp dp namep ((l.find? fun o => isMatch dp.data o namep).map (d_ino dp.data)) := by
  cases hfind : l.find? fun o => isMatch dp.data o namep with
  | none =>
    intro ino hmem
    obtain ⟨o, ho, hmch, -⟩ := exists_match_of_mem hmem
    have := find?_eq_none.1 hfind o ((h o).2 ho)
    simp [hmch] at this
  | some o =>
    exact mem_entries_of_match ((h o).1 (mem_of_find?_eq_some hfind))
      (by simpa using find?_some hfind)

/-- Where a lookup may start. -/
def DiroffOk (dp : Inode) : Prop := dp.i_diroff = 0 ∨ dp.i_diroff ∈ records dp

/-- The passes find the first record of a name in some order. -/
theorem dirpasses_spec (hwf : WellFormed dp) (hoff : DiroffOk dp) (namep : Name) :
    ∃ l : List ℕ, (∀ o, o ∈ l ↔ o ∈ records dp) ∧
      dirpasses dp namep = l.find? fun o => isMatch dp.data o namep := by
  have hlt : ∀ o ∈ records dp, o < dp.dirsize := fun o ho => hwf.lt_of_mem (fun _ h => h.pos) ho
  by_cases hzero : dp.i_diroff = 0
  · refine ⟨records dp, fun _ => Iff.rfl, ?_⟩
    rw [dirpasses, if_pos hzero]
    exact search_spec hwf le_rfl hlt
  -- the records from the one found last on, then those before it
  obtain ⟨u, v, hrec, hu, hok, hv⟩ := Chain.split hwf (hoff.resolve_left hzero)
  have hfst : search dp.data namep dp.dirsize dp.i_diroff =
      (dp.i_diroff :: v).find? fun o => isMatch dp.data o namep :=
    search_spec (.cons hok hv) le_rfl fun o ho => hlt o (by rw [hrec]; simp [mem_cons.1 ho])
  have hsec : search dp.data namep dp.i_diroff 0 = u.find? fun o => isMatch dp.data o namep :=
    search_spec hu le_rfl fun o ho => hu.lt_of_mem (fun _ h => h.pos) ho
  refine ⟨dp.i_diroff :: v ++ u, fun o => ?_, ?_⟩
  · rw [hrec]
    simp only [cons_append, mem_cons, mem_append]
    grind
  · rw [dirpasses, if_neg hzero, find?_append, ← hfst, ← hsec]
    change (match search dp.data namep dp.dirsize dp.i_diroff with
      | some offset => some offset
      | none => search dp.data namep dp.i_diroff 0) = _
    cases search dp.data namep dp.dirsize dp.i_diroff <;> rfl

/-- A lookup finds what the directory holds, and only changes where the next one starts. -/
theorem dirlook_spec (hwf : WellFormed dp) (hoff : DiroffOk dp) (namep : Name) :
    (∃ diroff, (dirlook dp namep).1 = { dp with i_diroff := diroff }) ∧
      DiroffOk (dirlook dp namep).1 ∧ LooksUp dp namep (dirlook dp namep).2 := by
  obtain ⟨diroff, hcheck, hoff'⟩ : ∃ diroff, checkDiroff dp = { dp with i_diroff := diroff } ∧
      DiroffOk { dp with i_diroff := diroff } := by
    rw [checkDiroff]
    split_ifs with h
    · exact ⟨0, rfl, .inl rfl⟩
    · exact ⟨_, rfl, hoff⟩
  obtain ⟨l, hl, hpas⟩ := @dirpasses_spec { dp with i_diroff := diroff } hwf hoff' namep
  have hlooks : LooksUp dp namep _ := looksUp_find hl
  simp only [dirlook, hcheck]
  rw [hpas]
  cases hfind : l.find? fun o => isMatch dp.data o namep with
  | none =>
    rw [hfind] at hlooks
    exact ⟨⟨_, rfl⟩, hoff', hlooks⟩
  | some o =>
    rw [hfind] at hlooks
    exact ⟨⟨_, rfl⟩, .inr ((hl o).1 (mem_of_find?_eq_some hfind)), hlooks⟩

end Uwisc.Ufs.Dir
