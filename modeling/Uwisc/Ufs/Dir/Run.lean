import Uwisc.Lib.System
import Uwisc.Ufs.Dir.Enter

/-!
# Directories in a run

A directory that is well formed stays so, whatever names are entered, removed and looked
up.

* `direnter_spec`, `dirremove_spec`: a call that succeeds enters or removes exactly one pair,
  and one that fails none;
* `dir_sound`: so it is in every run, and every lookup finds what the directory holds.
-/

namespace Uwisc.Ufs.Dir

open Lib List

variable {m m' : Mem} {a c o : ℕ} {u v r r' : List ℕ} {namep : Name} {dp dp' : Inode} {slot : Slot}
  {ino : ℕ}

/-! ### Chunks -/

/-- The records of a chain start anew at each chunk. -/
theorem Tiles.split_at {b : ℕ} {l : List ℕ} (h : Tiles m a b l) (hmod : c % DIRBLKSIZ = 0) (hlo : a ≤ c)
    (hhi : c ≤ b) : ∃ u v, l = u ++ v ∧ Tiles m a c u ∧ Tiles m c b v := by
  induction h with
  | nil a =>
    obtain rfl := hlo.antisymm hhi
    exact ⟨[], [], rfl, .nil _, .nil _⟩
  | @cons a b l hok h ih =>
    rcases hlo.eq_or_lt with rfl | hlt
    · exact ⟨[], a :: l, rfl, .nil _, .cons hok h⟩
    · have hchk := hok.chunk
      have hnx : a + d_reclen m a ≤ c := by
        rw [DIRBLKSIZ] at *
        omega
      obtain ⟨u, v, rfl, hu, hv⟩ := ih hnx hhi
      exact ⟨a :: u, v, rfl, .cons hok hu, hv⟩

/-! ### What a call does -/

/-- The directory holds one more pair. -/
def Added (dp dp' : Inode) (pair : Name × ℕ) : Prop :=
  ∃ u v, entries dp = u ++ v ∧ entries dp' = u ++ pair :: v

/-- A pair of the name became one with the number. -/
def Replaced (dp dp' : Inode) (namep : Name) (ino : ℕ) : Prop :=
  ∃ u v old, entries dp = u ++ (namep, old) :: v ∧ entries dp' = u ++ (namep, ino) :: v

/-- Only where the next lookup starts changed. -/
def Kept (dp dp' : Inode) : Prop := (∃ diroff, dp' = { dp with i_diroff := diroff }) ∧ DiroffOk dp'

theorem Kept.refl (h : DiroffOk dp) : Kept dp dp := ⟨⟨dp.i_diroff, rfl⟩, h⟩

/-- What holds between calls. -/
structure Inv (dp : Inode) : Prop where
  wellFormed : WellFormed dp
  diroff : DiroffOk dp

theorem Kept.inv (h : Kept dp dp') (hwf : WellFormed dp) : Inv dp' ∧ entries dp' = entries dp := by
  obtain ⟨⟨diroff, rfl⟩, hoff⟩ := h
  exact ⟨⟨hwf, hoff⟩, rfl⟩

/-- Records take the place of others. -/
theorem replace_records (dp' : Inode) (hrec : records dp = u ++ r ++ v)
    (hu : Tiles dp.data 0 a u) (hv : Tiles dp.data c dp.dirsize v) (hr : Tiles dp'.data a c r')
    (hsize : dp'.dirsize = dp.dirsize) (hbef : SameOn dp.data dp'.data 0 a)
    (haft : SameOn dp.data dp'.data c dp.dirsize) : WellFormed dp' ∧
      entries dp = u.filterMap (entry dp.data) ++ r.filterMap (entry dp.data) ++
        v.filterMap (entry dp.data) ∧
      entries dp' = u.filterMap (entry dp.data) ++ r'.filterMap (entry dp'.data) ++
        v.filterMap (entry dp.data) := by
  obtain ⟨hu', heu⟩ := hu.congr hbef
  obtain ⟨hv', hev⟩ := hv.congr haft
  have htil : Tiles dp'.data 0 dp'.dirsize (u ++ r' ++ v) := by
    rw [hsize]
    exact (hu'.append hr).append hv'
  obtain ⟨hwf', hrec'⟩ := wellFormed_of_tiles htil
  refine ⟨hwf', by rw [entries, hrec, filterMap_append, filterMap_append], ?_⟩
  rw [entries, hrec', filterMap_append, filterMap_append, heu, hev]

/-- Another inode number in a record. -/
theorem WellFormed.setIno (hwf : WellFormed dp) (hrec : records dp = u ++ o :: v) (hino : ino < 2 ^ 32) :
    WellFormed (imark { dp with data := setIno dp.data o ino }) ∧
      entries dp = u.filterMap (entry dp.data) ++ (entry dp.data o).toList ++
        v.filterMap (entry dp.data) ∧
      entries (imark { dp with data := setIno dp.data o ino }) = u.filterMap (entry dp.data) ++
        (if ino = 0 then [] else [(d_name dp.data o (d_namlen dp.data o), ino)]) ++
        v.filterMap (entry dp.data) := by
  obtain ⟨b, hu, hv⟩ := chain_append.1 (hrec ▸ hwf : Tiles dp.data 0 dp.dirsize (u ++ o :: v))
  obtain ⟨rfl, hok, hv⟩ := chain_cons.1 hv
  have hge := (ldirsiz_ge (d_namlen dp.data o)).1
  have hsize := hok.size
  have hout : ∀ {a b}, b ≤ o ∨ o + 4 ≤ a → SameOn dp.data (Dir.setIno dp.data o ino) a b := sameOn_storeNum
  have hrecl : d_reclen (Dir.setIno dp.data o ino) o = d_reclen dp.data o :=
    (hout (.inr le_rfl)).load_eq (b := o + 6) le_rfl le_rfl
  have hnam : d_namlen (Dir.setIno dp.data o ino) o = d_namlen dp.data o :=
    (hout (.inr le_rfl)).load_eq (b := o + 8) (by omega) le_rfl
  have hname : d_name (Dir.setIno dp.data o ino) o (d_namlen dp.data o) =
      d_name dp.data o (d_namlen dp.data o) := (hout (.inr le_rfl)).bytes_eq (by omega) le_rfl
  have hdino : d_ino (Dir.setIno dp.data o ino) o = ino := load_storeNum hino
  have hok' : RecOk (Dir.setIno dp.data o ino) o :=
    ⟨hrecl ▸ hok.mod, by rw [hrecl, DIRSIZ, hnam]; exact hok.size, hrecl ▸ hok.chunk⟩
  have htil : Tiles (Dir.setIno dp.data o ino) o (o + d_reclen dp.data o) [o] :=
    hrecl ▸ Chain.single hok'
  have hone : [o].filterMap (entry dp.data) = (entry dp.data o).toList := by
    rw [filterMap_cons, filterMap_nil]
    cases entry dp.data o <;> rfl
  have hone' : [o].filterMap (entry (Dir.setIno dp.data o ino)) =
      if ino = 0 then [] else [(d_name dp.data o (d_namlen dp.data o), ino)] := by
    rw [filterMap_cons, filterMap_nil, entry, hdino, hnam, hname]
    split_ifs <;> rfl
  rw [← hone, ← hone']
  exact replace_records (imark { dp with data := Dir.setIno dp.data o ino })
    (by rw [hrec, List.append_assoc, singleton_append]) hu hv htil rfl (hout (.inl le_rfl))
    (hout (.inr (by rw [DIRSIZ] at hsize; omega)))

/-- What the check leaves: where the name is, or, if it looked for one, a slot. -/
theorem dircheckforname_spec (slot : Slot) (hwf : WellFormed dp) (namep : Name)
    (hslot : slot = { status := .NONE } ∨ slot.status = .FOUND) :
    (∃ u o v, records dp = u ++ o :: v ∧ isMatch dp.data o namep ∧
      dircheckforname dp namep slot = ({ dp with i_diroff := o },
        { status := .EXIST, offset := some o, size := o - u.getLastD 0 })) ∨
    (∀ o ∈ records dp, ¬isMatch dp.data o namep) ∧ ∃ slot', dircheckforname dp namep slot = (dp, slot') ∧
      slot'.status ≠ .EXIST ∧ (slot = { status := .NONE } →
        SlotOk dp.data (LDIRSIZ namep.length) dp.dirsize (records dp) slot' ∨
        slot' = { status := .NONE, offset := some dp.dirsize, size := LDIRSIZ namep.length }) := by
  have hsta : slot.status ≠ .EXIST := by rcases hslot with rfl | h <;> simp [*]
  have hpos := (ldirsiz_ge namep.length).2.1
  have hdir : roundup dp.i_size DIRBLKSIZ = dp.dirsize := rfl
  rcases checkloop_exist hwf hsta namep (LDIRSIZ namep.length) 0 0 with
    ⟨u, o, v, hrec, hm, hres⟩ | ⟨hno, hres⟩
  · refine .inl ⟨u, o, v, hrec, hm, ?_⟩
    simp only [dircheckforname, hdir, hres, if_true, Option.getD_some]
  · refine .inr ⟨hno, _, ?_, hres, fun h => ?_⟩
    · simp only [dircheckforname, hdir, hres, if_false]
    · subst h
      exact checkloop_slot (l := []) (by omega) hwf (.nil 0) hno
        (.inr ⟨rfl, by omega, .inl ⟨rfl, rfl⟩⟩) 0

/-- Nothing is found of a name where no record is one of it. -/
theorem not_mem_of_not_match (hno : ∀ o ∈ records dp, ¬isMatch dp.data o namep) (ino : ℕ) :
    (namep, ino) ∉ entries dp := fun h => by
  obtain ⟨o, ho, hm, -⟩ := exists_match_of_mem h
  exact hno o ho hm

theorem Added.of_fill {dp1 : Inode} {needed p : ℕ} (h : Prepared dp dp1 needed p u v)
    (hnee : LDIRSIZ namep.length = needed) (hlen : namep.length ≤ MAXNAMLEN) (hpos : 0 < ino)
    (hino : ino < 2 ^ 32) : let dp' := imark { dp1 with
        data := Dir.setIno (strncpy (setNamlen dp1.data p namep.length) (p + 8) namep
          ((namep.length + 4) / 4 * 4)) p ino }
      Inv dp' ∧ Added dp dp' (namep, ino) := by
  obtain ⟨hwf, hadd⟩ := h.fill hnee hlen hpos hino
  exact ⟨⟨hwf, .inl rfl⟩, hadd⟩

/-- An entry is added, unless there is no space for a new chunk. -/
theorem diraddentry_spec (hwf : WellFormed dp) (hlen : namep.length ≤ MAXNAMLEN) (hpos : 0 < ino)
    (hino : ino < 2 ^ 32) (space : Bool)
    (hslot : SlotOk dp.data (LDIRSIZ namep.length) dp.dirsize (records dp) slot ∨
      slot = { status := .NONE, offset := some dp.dirsize, size := LDIRSIZ namep.length }) :
    diraddentry dp space none namep ino slot = (dp, .error .ENOSPC) ∨
    ∃ dp', diraddentry dp space none namep ino slot = (dp', .ok ()) ∧ Inv dp' ∧ Added dp dp' (namep, ino) := by
  have hge := ldirsiz_ge namep.length
  rcases hslot with hslot | rfl
  · obtain ⟨dp1, p, u, v, heq, hprep⟩ := dirprepareentry_slot hge.2.1 space hslot
    rw [diraddentry, heq]
    exact .inr ⟨_, rfl, Added.of_fill hprep rfl hlen hpos hino⟩
  · have hmax : LDIRSIZ namep.length ≤ DIRBLKSIZ := by
      rw [LDIRSIZ, DIRBLKSIZ, MAXNAMLEN] at *
      omega
    obtain ⟨herr, dp1, heq, hprep⟩ := dirprepareentry_new hwf (by omega) hmax
    rw [diraddentry]
    cases space with
    | false => exact .inl (by rw [herr])
    | true =>
      rw [heq]
      exact .inr ⟨_, rfl, Added.of_fill hprep rfl hlen hpos hino⟩

/-- A call that succeeds enters the pair, or, if it renames, gives the name its number; one
    that fails changes nothing. -/
theorem direnter_spec (h : Inv dp) (hlen : namep.length ≤ MAXNAMLEN) (hpos : 0 < ino) (hino : ino < 2 ^ 32)
    (op : de_op) (refused : Option Errno) (space : Bool) :
    (∃ dp' e, direnter dp namep op refused none space ino = (dp', .error e) ∧ Kept dp dp') ∨
    ∃ dp', direnter dp namep op refused none space ino = (dp', .ok ()) ∧ Inv dp' ∧
      ((∀ old, (namep, old) ∉ entries dp) ∧ Added dp dp' (namep, ino) ∨
        op = .DE_RENAME ∧ Replaced dp dp' namep ino) := by
  have hkept : Kept dp dp := .refl h.diroff
  unfold direnter
  by_cases hdot : namep = [0x2e] ∨ namep = [0x2e, 0x2e]
  · rw [if_pos hdot]
    obtain ⟨hsame, hoff, -⟩ := dirlook_spec h.wellFormed h.diroff namep
    left
    cases op with
    | DE_RENAME => exact ⟨_, _, rfl, hkept⟩
    | DE_LINK => exact ⟨_, _, rfl, hkept⟩
    | DE_CREATE =>
      rcases hlook : dirlook dp namep with ⟨dp', _ | i⟩
      · rw [hlook] at hsame hoff
        exact ⟨_, _, rfl, hsame, hoff⟩
      · rw [hlook] at hsame hoff
        exact ⟨_, _, rfl, hsame, hoff⟩
  rw [if_neg hdot]
  by_cases hbad : dirbadname namep 0 = true
  · rw [if_pos hbad]
    exact .inl ⟨_, _, rfl, hkept⟩
  rw [if_neg hbad]
  rcases dircheckforname_spec _ h.wellFormed namep (.inl rfl) with
    ⟨u, o, v, hrec, hm, heq⟩ | ⟨hno, slot', heq, hsta, hslot⟩
  · simp only [heq, if_true]
    have hkept' : Kept dp { dp with i_diroff := o } := ⟨⟨o, rfl⟩, .inr (by
      change o ∈ records dp
      rw [hrec]
      simp)⟩
    cases op with
    | DE_CREATE => exact .inl ⟨_, _, rfl, hkept'⟩
    | DE_LINK => exact .inl ⟨_, _, rfl, hkept'⟩
    | DE_RENAME =>
      cases refused with
      | some e => exact .inl ⟨_, _, rfl, hkept'⟩
      | none =>
        obtain ⟨hwf, hent, hent'⟩ := h.wellFormed.setIno hrec hino
        have hentry := isMatch_iff.1 hm
        have hname : d_name dp.data o (d_namlen dp.data o) = namep := by
          rw [hm.2.1]
          exact hm.2.2
        refine .inr ⟨imark { dp with data := Dir.setIno dp.data o ino }, rfl, ⟨hwf, .inl rfl⟩, .inr ⟨rfl,
          u.filterMap (entry dp.data), v.filterMap (entry dp.data), d_ino dp.data o, ?_, ?_⟩⟩
        · rw [hent, hentry]
          simp
        · rw [hent', if_neg (by omega), hname]
          simp
  · simp only [heq, hsta, if_false]
    cases refused with
    | some e => exact .inl ⟨_, _, rfl, hkept⟩
    | none =>
      rcases diraddentry_spec h.wellFormed hlen hpos hino space (hslot rfl) with herr | ⟨dp', hok, hinv, hadd⟩
      · simp only [herr]
        exact .inl ⟨_, _, rfl, hkept⟩
      · simp only [hok]
        exact .inr ⟨_, rfl, hinv, .inl ⟨not_mem_of_not_match hno, hadd⟩⟩

/-- The first record of a chunk is given up. -/
theorem remove_first (h : Inv dp) (hrec : records dp = u ++ o :: v) (hm : isMatch dp.data o namep) :
    let dp' := imark { dp with data := Dir.setIno dp.data o 0 }
    Inv dp' ∧ Added dp' dp (namep, d_ino dp.data o) := by
  obtain ⟨hwf, hent, hent'⟩ := h.wellFormed.setIno hrec (by decide : 0 < 2 ^ 32)
  refine ⟨⟨hwf, .inl rfl⟩, u.filterMap (entry dp.data), v.filterMap (entry dp.data), ?_, ?_⟩
  · rw [hent', if_pos rfl]
    simp
  · rw [hent, isMatch_iff.1 hm]
    simp

/-- A record is joined with the one before it. -/
theorem remove_join {p : ℕ} (h : Inv dp) (hrec : records dp = u ++ p :: o :: v) (hm : isMatch dp.data o namep)
    (hfst : o % DIRBLKSIZ ≠ 0) :
    let dp' := imark { dp with data := setReclen dp.data p (d_reclen dp.data p + d_reclen dp.data o) }
    Inv dp' ∧ Added dp' dp (namep, d_ino dp.data o) := by
  intro dp'
  obtain ⟨b, hu, hv⟩ := chain_append.1 (hrec ▸ h.wellFormed : Tiles dp.data 0 dp.dirsize (u ++ p :: o :: v))
  obtain ⟨rfl, hokp, hv⟩ := chain_cons.1 hv
  obtain ⟨rfl, hok, hv⟩ := chain_cons.1 hv
  have hsizep := hokp.size
  have hmodp := hokp.mod
  have hchu := hokp.chunk
  have hmod := hok.mod
  have hchk := hok.chunk
  have hge := (ldirsiz_ge (d_namlen dp.data p)).2.1
  rw [DIRSIZ] at hsizep
  obtain ⟨hrecp, hrecl⟩ : RecOk dp'.data p ∧ d_reclen dp'.data p = _ :=
    recOk_setReclen (by omega) (by rw [DIRSIZ]; omega) (by rw [DIRBLKSIZ] at *; omega)
  have htil : Tiles dp'.data p (p + d_reclen dp.data p + d_reclen dp.data (p + d_reclen dp.data p)) [p] := by
    rw [add_assoc, ← hrecl]
    exact .single hrecp
  obtain ⟨hwf, hent, hent'⟩ := replace_records dp' (r := [p, p + d_reclen dp.data p])
    (by rw [hrec]; simp) hu hv htil rfl (sameOn_setReclen (.inl (by omega)))
    (sameOn_setReclen (.inr (by omega)))
  have hone : [p].filterMap (entry dp'.data) = (entry dp.data p).toList := by
    rw [filterMap_cons, filterMap_nil, show entry dp'.data p = entry dp.data p from entry_setReclen _ _ _]
    cases entry dp.data p <;> rfl
  have htwo : [p, p + d_reclen dp.data p].filterMap (entry dp.data) =
      (entry dp.data p).toList ++ [(namep, d_ino dp.data (p + d_reclen dp.data p))] := by
    rw [filterMap_cons, filterMap_cons, isMatch_iff.1 hm]
    cases entry dp.data p <;> rfl
  rw [hone] at hent'
  rw [htwo] at hent
  refine ⟨⟨hwf, .inl rfl⟩, u.filterMap (entry dp.data) ++ (entry dp.data p).toList,
    v.filterMap (entry dp.data), hent', ?_⟩
  rw [hent]
  simp

/-- A call that succeeds removes one pair of the name; one that fails changes nothing. -/
theorem dirremove_spec (h : Inv dp) (namep : Name) (refused : Option Errno) :
    (∃ dp' e, dirremove dp namep refused = (dp', .error e) ∧ Kept dp dp') ∨
    ∃ dp' ino, dirremove dp namep refused = (dp', .ok ()) ∧ Inv dp' ∧ Added dp' dp (namep, ino) := by
  have hkept : Kept dp dp := .refl h.diroff
  unfold dirremove
  split_ifs with h1 h2
  · exact .inl ⟨_, _, rfl, hkept⟩
  · exact .inl ⟨_, _, rfl, hkept⟩
  rcases dircheckforname_spec { status := .FOUND } h.wellFormed namep (.inr rfl) with
    ⟨u, o, v, hrec, hm, heq⟩ | ⟨-, slot', heq, hsta, -⟩
  · simp only [heq, ne_eq, not_true, if_false, Option.getD_some]
    cases refused with
    | some e => exact .inl ⟨_, _, rfl, ⟨o, rfl⟩, .inr (by
        change o ∈ records dp
        rw [hrec]
        simp)⟩
    | none =>
      by_cases hfst : o % DIRBLKSIZ = 0
      · simp only [hfst, if_true]
        exact .inr ⟨_, _, rfl, remove_first h hrec hm⟩
      · simp only [hfst, if_false]
        -- the record is not the first, so one comes before it
        obtain ⟨b, hu, hv⟩ := chain_append.1 (hrec ▸ h.wellFormed : Tiles dp.data 0 dp.dirsize (u ++ o :: v))
        obtain ⟨rfl, -, -⟩ := chain_cons.1 hv
        rcases eq_nil_or_concat u with rfl | ⟨u, p, rfl⟩
        · exact absurd (by rw [← chain_nil.1 hu]; rfl) hfst
        rw [concat_eq_append] at hrec hu ⊢
        obtain ⟨b, -, hp⟩ := chain_append.1 hu
        obtain ⟨rfl, -, hp⟩ := chain_cons.1 hp
        have hpep : o - (o - p) = p := by
          have := chain_nil.1 hp
          omega
        have hrec' : records dp = u ++ p :: o :: v := by
          rw [hrec]
          simp
        rw [getLastD_concat, hpep]
        exact .inr ⟨_, _, rfl, remove_join h hrec' hm hfst⟩
  · simp only [heq, hsta, ne_eq, not_false_eq_true, if_true]
    exact .inl ⟨_, _, rfl, hkept⟩

/-! ### Runs -/

/-- A call on a directory. -/
inductive Call
  | enter (namep : Name) (op : de_op) (refused bad : Option Errno) (space : Bool) (ino : ℕ)
  | remove (namep : Name) (refused : Option Errno)
  | look (namep : Name)

/-- The directory after a call. -/
def Call.exec (dp : Inode) : Call → Inode
  | enter namep op refused bad space ino => (direnter dp namep op refused bad space ino).1
  | remove namep refused => (dirremove dp namep refused).1
  | look namep => (dirlook dp namep).1

/-- Names are not too long, inode numbers are numbers of inodes, and nothing is refused once
    the entry is prepared. -/
def Allowed : Call → Prop
  | .enter namep _ _ bad _ ino => namep.length ≤ MAXNAMLEN ∧ bad = none ∧ 0 < ino ∧ ino < 2 ^ 32
  | .remove _ _ => True
  | .look _ => True

/-- A call does what it is for: it enters or removes one pair and no other, nothing if it
    fails, and a lookup finds what the directory holds. -/
def Sound (dp : Inode) : Call → Prop
  | .enter namep op refused bad space ino =>
    match direnter dp namep op refused bad space ino with
    | (dp', .ok ()) => (∀ old, (namep, old) ∉ entries dp) ∧ Added dp dp' (namep, ino) ∨
        op = .DE_RENAME ∧ Replaced dp dp' namep ino
    | (dp', .error _) => entries dp' = entries dp
  | .remove namep refused =>
    match dirremove dp namep refused with
    | (dp', .ok ()) => ∃ ino, Added dp' dp (namep, ino)
    | (dp', .error _) => entries dp' = entries dp
  | .look namep => entries (dirlook dp namep).1 = entries dp ∧ LooksUp dp namep (dirlook dp namep).2

/-- A directory in use, from when its inode was read. -/
def system : System Inode Call where
  init := { dp | WellFormed dp ∧ dp.i_diroff = 0 }
  step dp c dp' := Allowed c ∧ dp' = c.exec dp

/-- What one call preserves. -/
theorem Inv.exec {c : Call} (h : Inv dp) (hc : Allowed c) : Inv (c.exec dp) ∧ Sound dp c := by
  cases c with
  | enter namep op refused bad space ino =>
    obtain ⟨hlen, rfl, hpos, hino⟩ := hc
    simp only [Call.exec, Sound]
    rcases direnter_spec h hlen hpos hino op refused space with ⟨dp', e, heq, hkept⟩ | ⟨dp', heq, hinv, hadd⟩
    · rw [heq]
      exact hkept.inv h.wellFormed
    · rw [heq]
      exact ⟨hinv, hadd⟩
  | remove namep refused =>
    simp only [Call.exec, Sound]
    rcases dirremove_spec h namep refused with ⟨dp', e, heq, hkept⟩ | ⟨dp', ino, heq, hinv, hadd⟩
    · rw [heq]
      exact hkept.inv h.wellFormed
    · rw [heq]
      exact ⟨hinv, ino, hadd⟩
  | look namep =>
    obtain ⟨hsame, hoff, hlooks⟩ := dirlook_spec h.wellFormed h.diroff namep
    obtain ⟨hinv, hent⟩ := Kept.inv ⟨hsame, hoff⟩ h.wellFormed
    exact ⟨hinv, hent, hlooks⟩

/-- In every run each chunk is tiled by records, and every call does what it is for. -/
theorem dir_sound (hs : system.Reachable dp) : WellFormed dp ∧ ∀ c, Allowed c → Sound dp c := by
  have hinv : Inv dp := hs.invariant (fun _ h => ⟨h.1, .inl h.2⟩) fun _ _ _ hi h => h.2 ▸ (hi.exec h.1).1
  exact ⟨hinv.wellFormed, fun _ hc => (hinv.exec hc).2⟩

/-- Entering a name of one byte in an empty directory. -/
theorem dir_sound_enter :
    WellFormed (Call.exec ⟨fun _ => 0, 0, 0⟩ (.enter [0x61] .DE_CREATE none none true 7)) ∧
      Sound (Call.exec ⟨fun _ => 0, 0, 0⟩ (.enter [0x61] .DE_CREATE none none true 7)) (.look [0x61]) := by
  have hemp : WellFormed ⟨fun _ => 0, 0, 0⟩ := (wellFormed_of_tiles (.nil 0)).1
  have h := dir_sound (.step (a := .enter [0x61] .DE_CREATE none none true 7) (.init ⟨hemp, rfl⟩)
    ⟨⟨by decide, rfl, by decide, by decide⟩, rfl⟩)
  exact ⟨h.1, h.2 _ trivial⟩

end Uwisc.Ufs.Dir
