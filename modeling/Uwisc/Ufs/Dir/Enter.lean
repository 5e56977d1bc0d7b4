import Uwisc.Ufs.Dir.Spec

/-!
# Entering a name

An entry goes where `dircheckforname` found space. To make room there
`dirprepareentry` copies the entries of the slot together, which leaves what is free in one
piece at its end.

* `checkloop_exist`, `checkloop_slot`: what the check finds, a record of the name or space;
* `compact_spec`: copying entries together keeps them, and gathers what is free;
* `diraddentry_spec`: the directory holds one more pair, and is well formed.
-/

namespace Uwisc.Ufs.Dir

open Lib List Option

variable {m m' : Mem} {a b o p q d e n : ℕ} {l u v : List ℕ} {namep : Name} {dp dp' : Inode} {slot : Slot}

/-! ### The check -/

/-- One turn of the loop, at a record. -/
theorem checkloop_record (hlt : o < b) (hok : RecOk m o) (namep : Name) (needed last : ℕ) (slot : Slot)
    (free : ℕ) : ∃ slot' free', ((slot.status = .NONE ∧ o % DIRBLKSIZ = 0 ∧
        slot' = { slot with offset := none } ∧ free' = 0) ∨
      (¬(slot.status = .NONE ∧ o % DIRBLKSIZ = 0) ∧ slot' = slot ∧ free' = free)) ∧
      checkloop m namep needed b o last slot free =
        if isMatch m o namep then { status := .EXIST, offset := some o, size := o - last }
        else checkloop m namep needed b (o + d_reclen m o) o (findSlot m needed o slot' free').1
          (findSlot m needed o slot' free').2 := by
  rw [checkloop, if_pos hlt]
  by_cases h : slot.status = .NONE ∧ o % DIRBLKSIZ = 0
  · refine ⟨{ slot with offset := none }, 0, .inl ⟨h.1, h.2, rfl, rfl⟩, ?_⟩
    simp only [h, and_self, if_true, hok.dirmangled, ne_eq, not_true, if_false]
  · refine ⟨slot, free, .inr ⟨h, rfl, rfl⟩, ?_⟩
    simp only [h, if_false, hok.dirmangled, ne_eq, not_true]

theorem findSlot_status (m : Mem) (needed o : ℕ) (free : ℕ) (h : slot.status ≠ .EXIST) :
    (findSlot m needed o slot free).1.status ≠ .EXIST := by
  rw [findSlot]
  dsimp only
  split_ifs <;> simp_all

/-- The check finds the first record of a name. -/
theorem checkloop_exist (h : Tiles m a b l) (hsta : slot.status ≠ .EXIST) (namep : Name)
    (needed last free : ℕ) :
    (∃ u o v, l = u ++ o :: v ∧ isMatch m o namep ∧ checkloop m namep needed b a last slot free =
      { status := .EXIST, offset := some o, size := o - u.getLastD last }) ∨
    (∀ o ∈ l, ¬isMatch m o namep) ∧ (checkloop m namep needed b a last slot free).status ≠ .EXIST := by
  induction h generalizing slot last free with
  | nil a =>
    rw [checkloop, if_neg (lt_irrefl _)]
    refine .inr ⟨by simp, ?_⟩
    split_ifs <;> exact hsta
  | @cons a b l hok h ih =>
    have hlt : a < b := by have := h.le; have := hok.pos; omega
    obtain ⟨slot', free', hslot', heq⟩ := checkloop_record hlt hok namep needed last slot free
    have hsta' : slot'.status ≠ .EXIST := by
      rcases hslot' with ⟨-, -, rfl, -⟩ | ⟨-, rfl, -⟩ <;> exact hsta
    rw [heq]
    by_cases hm : isMatch m a namep
    · rw [if_pos hm]
      exact .inl ⟨[], a, l, rfl, hm, rfl⟩
    · rw [if_neg hm]
      rcases ih (findSlot_status m needed a free' hsta') a (findSlot m needed a slot' free').2 with
        ⟨u, o, v, rfl, hmo, hres⟩ | ⟨hno, hres⟩
      · refine .inl ⟨a :: u, o, v, rfl, hmo, ?_⟩
        rw [hres, getLastD_cons]
      · exact .inr ⟨forall_mem_cons.2 ⟨hm, hno⟩, hres⟩

/-- What is free in a record. -/
def freeOf (m : Mem) (o : ℕ) : ℕ := d_reclen m o - if d_ino m o ≠ 0 then DIRSIZ m o else 0

/-- What is free in some records. -/
def freeSpace (m : Mem) (l : List ℕ) : ℕ := (l.map (freeOf m)).sum

/-- Within the records at `l`, which lead up to `b`, those of `size` bytes from `o` on are of
    one chunk and have space. -/
def HasSlot (m : Mem) (needed b : ℕ) (l : List ℕ) (o size : ℕ) : Prop :=
  ∃ u r v, l = u ++ r ++ v ∧ Tiles m 0 o u ∧ Tiles m o (o + size) r ∧ Tiles m (o + size) b v ∧
    r ≠ [] ∧ needed ≤ freeSpace m r ∧ o % DIRBLKSIZ + size ≤ DIRBLKSIZ

/-- A slot of which the status is `FOUND` or `COMPACT` has space. -/
def SlotOk (m : Mem) (needed b : ℕ) (l : List ℕ) (slot : Slot) : Prop :=
  (slot.status = .FOUND ∨ slot.status = .COMPACT) ∧
    ∃ o, slot.offset = some o ∧ HasSlot m needed b l o slot.size

/-- What the check knows once it passed the records at `l`: a slot, or how much is free in the
    last of them, from the offset of the slot on. -/
def Scanned (m : Mem) (needed b : ℕ) (l : List ℕ) (slot : Slot) (free : ℕ) : Prop :=
  SlotOk m needed b l slot ∨ slot.status = .NONE ∧ free < needed ∧
    (slot.offset = none ∧ free = 0 ∨ ∃ start u r, slot.offset = some start ∧ l = u ++ r ∧
      Tiles m 0 start u ∧ Tiles m start b r ∧ r ≠ [] ∧ freeSpace m r = free ∧
      start % DIRBLKSIZ + (b - start) ≤ DIRBLKSIZ)

theorem freeSpace_append (m : Mem) (u v : List ℕ) : freeSpace m (u ++ v) = freeSpace m u + freeSpace m v := by
  simp [freeSpace]

theorem freeSpace_single (m : Mem) (o : ℕ) : freeSpace m [o] = freeOf m o := by simp [freeSpace]

variable {needed size : ℕ}

theorem SlotOk.snoc (h : SlotOk m needed o l slot) (hok : RecOk m o) :
    SlotOk m needed (o + d_reclen m o) (l ++ [o]) slot := by
  obtain ⟨hsta, s, hs, u, r, v, rfl, hu, hr, hv, hslot⟩ := h
  exact ⟨hsta, s, hs, u, r, v ++ [o], by simp, hu, hr, hv.append (.single hok), hslot⟩

/-- A record that has space of its own. -/
theorem slotOk_record (hl : Tiles m 0 o l) (hok : RecOk m o) (hfree : needed ≤ freeOf m o) :
    SlotOk m needed (o + d_reclen m o) (l ++ [o])
      { status := .FOUND, offset := some o, size := d_reclen m o } :=
  ⟨.inl rfl, o, rfl, l, [o], [], by simp, hl, .single hok, .nil _, by simp,
    by rwa [freeSpace_single], hok.chunk⟩

/-- The records that the space is gathered from, and the next one, are of one chunk. -/
theorem Scanned.gathered {free : ℕ} (hl : Tiles m 0 o l) (hok : RecOk m o)
    (h : slot.offset = none ∧ free = 0 ∨ ∃ start u r, slot.offset = some start ∧ l = u ++ r ∧
      Tiles m 0 start u ∧ Tiles m start o r ∧ r ≠ [] ∧ freeSpace m r = free ∧
      start % DIRBLKSIZ + (o - start) ≤ DIRBLKSIZ) (hfrs : o % DIRBLKSIZ = 0 → slot.offset = none) :
    ∃ u r, l = u ++ r ∧ Tiles m 0 (slot.offset.getD o) u ∧ Tiles m (slot.offset.getD o) o r ∧
      freeSpace m r = free ∧
      slot.offset.getD o % DIRBLKSIZ + (o + d_reclen m o - slot.offset.getD o) ≤ DIRBLKSIZ := by
  have hchk := hok.chunk
  rcases h with ⟨hnone, rfl⟩ | ⟨start, u, r, hsome, rfl, hu, hr, hne, hfree, hspan⟩
  · rw [hnone]
    exact ⟨l, [], by simp, hl, .nil _, rfl, by rw [getD_none]; omega⟩
  · have hmod : o % DIRBLKSIZ ≠ 0 := fun h => by simp [hfrs h] at hsome
    have := hr.le
    rw [hsome]
    refine ⟨u, r, rfl, hu, hr, hfree, ?_⟩
    rw [getD_some]
    rw [DIRBLKSIZ] at *
    omega

/-- Passing a record. -/
theorem findSlot_scanned {free : ℕ} (hl : Tiles m 0 o l) (hok : RecOk m o)
    (h : Scanned m needed o l slot free)
    (hfrs : slot.status = .NONE → o % DIRBLKSIZ = 0 → slot.offset = none) :
    Scanned m needed (o + d_reclen m o) (l ++ [o]) (findSlot m needed o slot free).1
      (findSlot m needed o slot free).2 := by
  have hsize : (d_reclen m o - if d_ino m o ≠ 0 then DIRSIZ m o else 0) = freeOf m o := rfl
  rw [findSlot, hsize]
  rcases h with h | ⟨hsta, hfree, hgat⟩
  · have hnone : slot.status ≠ .NONE := by rcases h.1 with h | h <;> simp [h]
    simp only [hnone, if_false]
    split_ifs with h1 h2 h3
    · exact .inl (h.snoc hok)
    · exact .inl (h.snoc hok)
    · exact .inl (slotOk_record hl hok h3)
    · exact .inl (h.snoc hok)
  obtain ⟨u, r, rfl, hu, hr, rfl, hspan⟩ := Scanned.gathered hl hok hgat (hfrs hsta)
  have hr' : Tiles m (slot.offset.getD o) (o + d_reclen m o) (r ++ [o]) := hr.append (.single hok)
  have hsum : freeSpace m (r ++ [o]) = freeSpace m r + freeOf m o := by
    rw [freeSpace_append, freeSpace_single]
  have hle := hr'.le
  simp only [hsta, reduceCtorEq, if_false, if_true]
  split_ifs with h1 h2 h3
  · -- nothing is free here
    refine .inr ⟨hsta, hfree, ?_⟩
    rcases hgat with ⟨hnone, h⟩ | ⟨start, -, -, hsome, -⟩
    · exact .inl ⟨hnone, h⟩
    · rw [hsome, getD_some] at hu hr' hspan
      exact .inr ⟨start, u, r ++ [o], hsome, by simp, hu, hr', by simp, by omega, hspan⟩
  · exact .inl (slotOk_record hl hok h2)
  · refine .inl ⟨.inr rfl, _, rfl, u, r ++ [o], [], by simp, hu, ?_, ?_, by simp, by omega, hspan⟩
    · rwa [Nat.add_sub_cancel' hle]
    · rw [Nat.add_sub_cancel' hle]
      exact .nil _
  · exact .inr ⟨rfl, by omega, .inr ⟨_, u, r ++ [o], rfl, by simp, hu, hr', by simp, hsum, hspan⟩⟩

/-- What the check found where the name is not: space, or the end of the directory. -/
theorem checkloop_slot {free : ℕ} (hnee : 0 < needed) (h : Tiles m a b v) (hl : Tiles m 0 a l)
    (hno : ∀ o ∈ v, ¬isMatch m o namep) (hscan : Scanned m needed a l slot free) (last : ℕ) :
    SlotOk m needed b (l ++ v) (checkloop m namep needed b a last slot free) ∨
      checkloop m namep needed b a last slot free =
        { status := .NONE, offset := some b, size := needed } := by
  induction h generalizing l slot last free with
  | nil a =>
    rw [checkloop, if_neg (lt_irrefl _), append_nil]
    rcases hscan with h | ⟨hsta, -⟩
    · have hnone : slot.status ≠ .NONE := by rcases h.1 with h | h <;> simp [h]
      rw [if_neg hnone]
      exact .inl h
    · rw [if_pos hsta, hsta]
      exact .inr rfl
  | @cons a b v hok h ih =>
    have hlt : a < b := by have := h.le; have := hok.pos; omega
    obtain ⟨hm, hno⟩ := forall_mem_cons.1 hno
    obtain ⟨slot', free', hslot', heq⟩ := checkloop_record hlt hok namep needed last slot free
    rw [heq, if_neg hm, append_cons]
    refine ih (hl.append (.single hok)) hno ?_ a
    rcases hslot' with ⟨hsta, -, rfl, rfl⟩ | ⟨hnot, rfl, rfl⟩
    · exact findSlot_scanned hl hok (.inr ⟨hsta, hnee, .inl ⟨rfl, rfl⟩⟩) fun _ _ => rfl
    · exact findSlot_scanned hl hok hscan fun h1 h2 => absurd ⟨h1, h2⟩ hnot

/-! ### Making room -/

/-- The records at `l` lead from `d` to `p`, and those at `r` from `q` to `e`; what is between
    them is free. They hold `held`, and `space` bytes are free in all; the memory was `m0`,
    and differs from it between `d` and `e` only. -/
structure Gap (m0 : Mem) (d e : ℕ) (held : List (Name × ℕ)) (space : ℕ) (m : Mem) (l r : List ℕ) (p q : ℕ) :
    Prop where
  front : Tiles m d p l
  rest : Tiles m q e r
  le : p ≤ q
  mod : (q - p) % 4 = 0
  holds : l.filterMap (entry m) ++ r.filterMap (entry m) = held
  room : q - p + freeSpace m r = space
  before : SameOn m0 m 0 d
  after : ∀ b, SameOn m0 m e b

/-- The same while the entry at `p` keeps some of what follows it. -/
structure Packed (m0 : Mem) (d e : ℕ) (held : List (Name × ℕ)) (space : ℕ) (m : Mem) (l r : List ℕ)
    (p q dsize free : ℕ) : Prop where
  front : Tiles m d p l
  rest : Tiles m q e r
  dirsiz : DIRSIZ m p = dsize
  end_eq : p + dsize + free = q
  mod : free % 4 = 0
  holds : l.filterMap (entry m) ++ (entry m p).toList ++ r.filterMap (entry m) = held
  room : free + (if d_ino m p = 0 then dsize else 0) + freeSpace m r = space
  before : SameOn m0 m 0 d
  after : ∀ b, SameOn m0 m e b

theorem freeSpace_congr (h : Tiles m a b l) (hs : SameOn m m' a b) : freeSpace m' l = freeSpace m l := by
  refine congrArg sum (map_congr_left fun o ho => ?_)
  have hbou := h.bounds ho
  have hsize := (h.ok_of_mem ho).size
  have := (ldirsiz_ge (d_namlen m o)).2.1
  have hrec : SameOn m m' o (o + 8) := hs.mono hbou.1 (by rw [DIRSIZ] at hsize; omega)
  have hino : d_ino m' o = d_ino m o := hrec.load_eq le_rfl (by omega)
  have hnam : d_namlen m' o = d_namlen m o := hrec.load_eq (by omega) le_rfl
  rw [freeOf, freeOf, d_reclen_congr hrec, DIRSIZ, DIRSIZ, hino, hnam]

/-- Setting the length of a record. -/
theorem d_reclen_setReclen (hn : n < 65536) : d_reclen (setReclen m o n) o = n := load_storeNum hn

theorem sameOn_setReclen (h : b ≤ o + 4 ∨ o + 6 ≤ a) : SameOn m (setReclen m o n) a b := sameOn_storeNum h

theorem dirsiz_congr (h : SameOn m m' (o + 6) (o + 8)) : DIRSIZ m' o = DIRSIZ m o :=
  congrArg LDIRSIZ (h.load_eq le_rfl le_rfl)

theorem entry_setReclen (m : Mem) (o n : ℕ) : entry (setReclen m o n) o = entry m o :=
  entry_congr (sameOn_setReclen (.inl le_rfl)) (sameOn_setReclen (.inr le_rfl))

/-- A record takes what follows it. -/
theorem recOk_setReclen (hmod : n % 4 = 0) (hsize : DIRSIZ m o ≤ n) (hchk : o % DIRBLKSIZ + n ≤ DIRBLKSIZ) :
    RecOk (setReclen m o n) o ∧ d_reclen (setReclen m o n) o = n := by
  have hrecl : d_reclen (setReclen m o n) o = n := d_reclen_setReclen (by rw [DIRBLKSIZ] at hchk; omega)
  refine ⟨⟨by rwa [hrecl], ?_, by rwa [hrecl]⟩, hrecl⟩
  rwa [hrecl, dirsiz_congr (sameOn_setReclen (.inr le_rfl))]

variable {m0 : Mem} {held : List (Name × ℕ)} {space dsize free : ℕ} {r : List ℕ}

/-- Trims the entry, or gives up what is not one. -/
theorem Packed.trim (h : Packed m0 d e held space m l r p q dsize free)
    (hchk : d % DIRBLKSIZ + (e - d) ≤ DIRBLKSIZ) :
    if d_ino m p ≠ 0 then Gap m0 d e held space (setReclen m p dsize) (l ++ [p]) r (p + dsize) q ∧
      q - (p + dsize) = free
    else Gap m0 d e held space m l r p q ∧ q - p = free + dsize := by
  have hend := h.end_eq
  have hdp := h.front.le
  have hqe := h.rest.le
  have hge := ldirsiz_ge (d_namlen m p)
  have hdsize : DIRSIZ m p = LDIRSIZ (d_namlen m p) := rfl
  rw [← hdsize, h.dirsiz] at hge
  have hmod := h.mod
  split_ifs with hino
  · have hfrt : SameOn m (setReclen m p dsize) d p := sameOn_setReclen (.inl (by omega))
    have hrs : SameOn m (setReclen m p dsize) q e := sameOn_setReclen (.inr (by omega))
    have hrec : RecOk (setReclen m p dsize) p ∧ d_reclen (setReclen m p dsize) p = dsize :=
      recOk_setReclen hge.2.2 h.dirsiz.le (by rw [DIRBLKSIZ] at *; omega)
    obtain ⟨hl, hel⟩ := h.front.congr hfrt
    obtain ⟨hr, her⟩ := h.rest.congr hrs
    refine ⟨⟨hl.append ?_, hr, by omega, by omega, ?_, ?_, ?_, ?_⟩, by omega⟩
    · have hone : Tiles (setReclen m p dsize) p _ [p] := .single hrec.1
      rwa [hrec.2] at hone
    · rw [filterMap_append, hel, her, ← h.holds]
      congr 2
      rw [filterMap_cons, filterMap_nil, entry_setReclen]
      cases entry m p <;> rfl
    · rw [freeSpace_congr h.rest hrs, ← h.room, if_neg hino]
      omega
    · exact h.before.trans (sameOn_setReclen (.inl (by omega)))
    · exact fun b => (h.after b).trans (sameOn_setReclen (.inr (by omega)))
  · rw [not_not] at hino
    refine ⟨⟨h.front, h.rest, by omega, by omega, ?_, ?_, h.before, h.after⟩, by omega⟩
    · rw [← h.holds, entry, if_pos hino, toList_none, append_nil]
    · rw [← h.room, if_pos hino]
      omega

/-- Copies an entry down into the free space. -/
theorem Gap.copy (h : Gap m0 d e held space m l (q :: r) p q) :
    Packed m0 d e held space (bcopy m q p (DIRSIZ m q)) l r p (q + d_reclen m q) (DIRSIZ m q)
      (q - p + (d_reclen m q - DIRSIZ m q)) := by
  obtain ⟨-, hok, hr⟩ := chain_cons.1 h.rest
  have hsize := hok.size
  have hmod := hok.mod
  have hgap := h.mod
  have hle := h.le
  have hdp := h.front.le
  have hqe := hr.le
  have hge := ldirsiz_ge (d_namlen m q)
  have hdsize : DIRSIZ m q = LDIRSIZ (d_namlen m q) := rfl
  rw [← hdsize] at hge
  have hfrt : SameOn m (bcopy m q p (DIRSIZ m q)) d p := sameOn_bcopy (.inl le_rfl)
  have hrs : SameOn m (bcopy m q p (DIRSIZ m q)) (q + d_reclen m q) e := sameOn_bcopy (.inr (by omega))
  obtain ⟨hl, hel⟩ := h.front.congr hfrt
  obtain ⟨hr', her⟩ := Tiles.congr hr hrs
  have hino : d_ino (bcopy m q p (DIRSIZ m q)) p = d_ino m q := load_bcopy (i := 0) (by omega)
  have hnam : d_namlen (bcopy m q p (DIRSIZ m q)) p = d_namlen m q := load_bcopy (by omega)
  have hent : entry (bcopy m q p (DIRSIZ m q)) p = entry m q := by
    rw [entry, entry, hino, hnam]
    congr 3
    exact bytes_bcopy (by omega)
  refine ⟨hl, hr', by rw [DIRSIZ, hnam, DIRSIZ], by omega, by omega, ?_, ?_, ?_, ?_⟩
  · rw [hel, her, hent, ← h.holds, filterMap_cons, append_assoc]
    cases entry m q <;> rfl
  · rw [hino, freeSpace_congr hr hrs, ← h.room]
    simp only [freeSpace, map_cons, sum_cons, freeOf]
    split_ifs <;> omega
  · exact h.before.trans (sameOn_bcopy (.inl hdp))
  · exact fun b => (h.after b).trans (sameOn_bcopy (.inr (by omega)))

/-- Copying entries together keeps them, and gathers what is free. -/
theorem compact_spec {buf loc : ℕ} (h : Packed m0 d e held space m l r p (buf + loc) dsize free)
    (hchk : d % DIRBLKSIZ + (e - d) ≤ DIRBLKSIZ) (he : e = buf + size) :
    ∃ m' l' p' dsize' free', compact m buf size loc p dsize free = (m', p', dsize', free') ∧
      Packed m0 d e held space m' l' [] p' e dsize' free' := by
  induction r generalizing m l p loc dsize free with
  | nil =>
    have hend := chain_nil.1 h.rest
    rw [compact, if_neg (by omega)]
    exact ⟨_, _, _, _, _, rfl, by rwa [hend] at h⟩
  | cons q r ih =>
    obtain ⟨rfl, -, -⟩ := chain_cons.1 h.rest
    have htrim := h.trim hchk
    rw [compact, if_pos (by have := h.rest.bounds mem_cons_self; have := (h.rest.ok_of_mem mem_cons_self).pos; omega)]
    by_cases hino : d_ino m p ≠ 0
    · rw [if_pos hino] at htrim
      obtain ⟨hgap, hfree⟩ := htrim
      have hcopy := hgap.copy
      rw [hfree, add_assoc] at hcopy
      obtain ⟨-, hok, -⟩ := chain_cons.1 hgap.rest
      simp only [hino, not_false_eq_true, if_true, hok.pos, ne_eq]
      exact ih hcopy
    · rw [if_neg hino] at htrim
      obtain ⟨hgap, hfree⟩ := htrim
      have hcopy := hgap.copy
      rw [hfree, add_assoc buf] at hcopy
      obtain ⟨-, hok, -⟩ := chain_cons.1 hgap.rest
      simp only [hino, if_false, if_true, hok.pos]
      exact ih hcopy

/-- An entry of at least `needed` bytes was prepared at `p`, between the records at `u` and `v`. -/
structure Prepared (dp dp' : Inode) (needed p : ℕ) (u v : List ℕ) : Prop where
  front : Tiles dp'.data 0 p u
  rest : Tiles dp'.data (p + d_reclen dp'.data p) dp'.dirsize v
  mod : d_reclen dp'.data p % 4 = 0
  size : needed ≤ d_reclen dp'.data p
  chunk : p % DIRBLKSIZ + d_reclen dp'.data p ≤ DIRBLKSIZ
  holds : u.filterMap (entry dp'.data) ++ v.filterMap (entry dp'.data) = entries dp

/-- The first entry of a slot. -/
theorem Packed.start (h : Tiles m d (d + size) (d :: r)) :
    Packed m d (d + size) ((d :: r).filterMap (entry m)) (freeSpace m (d :: r)) m [] r d
      (d + d_reclen m d) (DIRSIZ m d) (d_reclen m d - DIRSIZ m d) := by
  obtain ⟨-, hok, hr⟩ := chain_cons.1 h
  have hsize := hok.size
  have hmod := hok.mod
  have hge := (ldirsiz_ge (d_namlen m d)).2.2
  have hdsize : DIRSIZ m d = LDIRSIZ (d_namlen m d) := rfl
  refine ⟨.nil _, hr, rfl, by omega, by omega, ?_, ?_, .refl _ _ _, fun _ => .refl _ _ _⟩
  · rw [filterMap_cons]
    cases entry m d <;> rfl
  · simp only [freeSpace, map_cons, sum_cons, freeOf]
    split_ifs <;> omega

/-- All that is free becomes one piece at the end. -/
theorem Packed.finish (h : Packed m0 d e held space m l [] p e dsize free)
    (hchk : d % DIRBLKSIZ + (e - d) ≤ DIRBLKSIZ) : ∃ m' l' p', Gap m0 d e held space m' l' [] p' e ∧
      (if d_ino m p = 0 then (setReclen m p (free + dsize), p)
        else (setReclen (setReclen m p dsize) (p + dsize) free, p + dsize)) =
      (setReclen m' p' (e - p'), p') := by
  have htrim := h.trim hchk
  by_cases hino : d_ino m p = 0
  · rw [if_neg (not_not.2 hino)] at htrim
    rw [if_pos hino]
    exact ⟨m, l, p, htrim.1, by rw [htrim.2]⟩
  · rw [if_pos hino] at htrim
    rw [if_neg hino]
    exact ⟨_, _, _, htrim.1, by rw [htrim.2]⟩

/-- The piece that is free becomes the length of the new entry. -/
theorem Gap.prepared (hl : records dp = u ++ r ++ v) (hu : Tiles dp.data 0 d u)
    (hv : Tiles dp.data (d + size) dp.dirsize v)
    (h : Gap dp.data d (d + size) (r.filterMap (entry dp.data)) space m l [] p (d + size))
    (hnee : needed ≤ space) (hpos : 12 ≤ needed) (hchk : d % DIRBLKSIZ + size ≤ DIRBLKSIZ)
    (hdata : dp'.data = setReclen m p (d + size - p)) (hdir : dp'.dirsize = dp.dirsize) :
    Prepared dp dp' needed p (u ++ l) v := by
  have hroom := h.room
  have hdp := h.front.le
  have hle := h.le
  rw [freeSpace, map_nil, sum_nil] at hroom
  have hrecl : d_reclen (setReclen m p (d + size - p)) p = d + size - p :=
    d_reclen_setReclen (by rw [DIRBLKSIZ] at hchk; omega)
  have hbef : ∀ {a b}, b ≤ p → SameOn m (setReclen m p (d + size - p)) a b := fun hb =>
    sameOn_setReclen (.inl (by omega))
  have haft : ∀ {b}, SameOn m (setReclen m p (d + size - p)) (d + size) b :=
    sameOn_setReclen (.inr (by omega))
  obtain ⟨hu', heu⟩ := hu.congr (h.before.trans (hbef hdp))
  obtain ⟨hl', hel⟩ := h.front.congr (hbef le_rfl)
  obtain ⟨hv', hev⟩ := hv.congr ((h.after _).trans haft)
  refine ⟨?_, ?_, ?_, ?_, ?_, ?_⟩ <;> rw [hdata]
  · exact hu'.append hl'
  · rw [hrecl, Nat.add_sub_cancel' hle, hdir]
    exact hv'
  · rw [hrecl]
    exact h.mod
  · omega
  · rw [hrecl, DIRBLKSIZ] at *
    omega
  · have hholds := h.holds
    rw [filterMap_nil, append_nil] at hholds
    rw [filterMap_append, heu, hel, hev, hholds, entries, hl, filterMap_append, filterMap_append]

/-- Writing within the directory does not change its size. -/
theorem adjustSize_dirsize (h : n ≤ dp.dirsize) (data : Mem) :
    Inode.dirsize { adjustSize dp n with data := data } = dp.dirsize := by
  rw [adjustSize]
  split_ifs with hlt
  · simp only [Inode.dirsize, imark, roundup, DIRBLKSIZ] at *
    omega
  · rfl

theorem dirprepareentry_slot (hpos : 12 ≤ needed) (space : Bool)
    (hslot : SlotOk dp.data needed dp.dirsize (records dp) slot) :
    ∃ dp' p u v, dirprepareentry dp space slot = .ok (dp', p) ∧ Prepared dp dp' needed p u v := by
  obtain ⟨hsta, d, hd, u, r, v, hl, hu, hr, hv, hne, hnee, hchk⟩ := hslot
  obtain ⟨q, r, rfl⟩ := exists_cons_of_ne_nil hne
  obtain ⟨rfl, -, -⟩ := chain_cons.1 hr
  have hspan : q % DIRBLKSIZ + (q + slot.size - q) ≤ DIRBLKSIZ := by omega
  obtain ⟨m, l, p, dsize, free, hcom, hpac⟩ := compact_spec (Packed.start hr) hspan rfl
  obtain ⟨m', l', p', hgap, hdata⟩ := hpac.finish hspan
  refine ⟨{ adjustSize dp (q + slot.size) with data := setReclen m' p' (q + slot.size - p') }, p', u ++ l', v,
    ?_, hgap.prepared hl hu hv hnee hpos hchk rfl (adjustSize_dirsize hv.le _)⟩
  have hpre : dirprepareentry dp space slot = .ok ({ adjustSize dp (q + slot.size) with
        data := (if d_ino m p = 0 then (setReclen m p (free + dsize), p)
          else (setReclen (setReclen m p dsize) (p + dsize) free, p + dsize)).1 },
        (if d_ino m p = 0 then (setReclen m p (free + dsize), p)
        else (setReclen (setReclen m p dsize) (p + dsize) free, p + dsize)).2) := by
    rcases hsta with hsta | hsta <;>
      (simp only [dirprepareentry, hsta, hd, getD_some, hcom]
       split_ifs <;> rfl)
  rw [hpre, hdata]

/-- A new chunk has one entry. -/
theorem dirprepareentry_new (hwf : WellFormed dp) (hpos : 0 < needed) (hmax : needed ≤ DIRBLKSIZ) :
    dirprepareentry dp false { status := .NONE, offset := some dp.dirsize, size := needed } =
      .error .ENOSPC ∧
    ∃ dp', dirprepareentry dp true { status := .NONE, offset := some dp.dirsize, size := needed } =
      .ok (dp', dp.dirsize) ∧ Prepared dp dp' needed dp.dirsize (records dp) [] := by
  have hmod := dirsize_mod dp
  refine ⟨by simp [dirprepareentry, hmod], ?_⟩
  let data := setReclen (store dp.data dp.dirsize (replicate DIRBLKSIZ 0)) dp.dirsize DIRBLKSIZ
  have hrecl : d_reclen data dp.dirsize = DIRBLKSIZ := d_reclen_setReclen (by decide)
  have hsame : SameOn dp.data data 0 dp.dirsize :=
    (sameOn_store (.inl le_rfl)).trans (sameOn_setReclen (.inl (by omega)))
  obtain ⟨hu, heu⟩ := Tiles.congr hwf hsame
  refine ⟨{ adjustSize dp (dp.dirsize + needed) with data := data }, ?_, hu, ?_, ?_, ?_, ?_, ?_⟩
  · simp [dirprepareentry, hmod, data]
  · dsimp only
    have hdir : Inode.dirsize { adjustSize dp (dp.dirsize + needed) with data := data } =
        dp.dirsize + DIRBLKSIZ := by
      have hlt : dp.i_size < dp.dirsize + needed := by
        simp only [Inode.dirsize, roundup, DIRBLKSIZ]
        omega
      rw [adjustSize, if_pos hlt]
      simp only [Inode.dirsize, imark, roundup, DIRBLKSIZ] at *
      omega
    rw [hrecl, hdir]
    exact .nil _
  · rw [hrecl]
    decide
  · rwa [hrecl]
  · rw [hrecl, hmod]
    decide
  · rw [filterMap_nil, append_nil, heu, entries]

/-- The entry is filled in. -/
theorem Prepared.fill {ino : ℕ} (h : Prepared dp dp' needed p u v) (hnee : LDIRSIZ namep.length = needed)
    (hlen : namep.length ≤ MAXNAMLEN) (hino : 0 < ino) (hino' : ino < 2 ^ 32) :
    let data := setIno (strncpy (setNamlen dp'.data p namep.length) (p + 8) namep
      ((namep.length + 4) / 4 * 4)) p ino
    WellFormed (imark { dp' with data }) ∧ ∃ u v, entries dp = u ++ v ∧
      entries (imark { dp' with data }) = u ++ (namep, ino) :: v := by
  intro data
  have hsize := h.size
  have hrs := h.rest.le
  rw [← hnee, LDIRSIZ] at hsize
  have hpad : (namep ++ replicate ((namep.length + 4) / 4 * 4 - namep.length) 0).length =
      (namep.length + 4) / 4 * 4 := by
    rw [length_append, length_replicate]
    omega
  -- the three writes are within the entry, and apart from each other
  have hout : ∀ {a b}, b ≤ p ∨ p + d_reclen dp'.data p ≤ a → SameOn dp'.data data a b := fun hab =>
    (sameOn_storeNum (by omega)).trans
      ((sameOn_store (by rw [hpad]; omega)).trans (sameOn_storeNum (by omega)))
  have hrecl : d_reclen data p = d_reclen dp'.data p := by
    have h1 : SameOn dp'.data (setNamlen dp'.data p namep.length) (p + 4) (p + 6) := sameOn_storeNum (.inl le_rfl)
    have h2 : SameOn (setNamlen dp'.data p namep.length) (strncpy (setNamlen dp'.data p namep.length) (p + 8)
        namep ((namep.length + 4) / 4 * 4)) (p + 4) (p + 6) := sameOn_store (.inl (by omega))
    exact ((h1.trans h2).trans (sameOn_storeNum (.inr le_rfl))).load_eq le_rfl le_rfl
  have hnam : d_namlen data p = namep.length := by
    have h2 : SameOn (setNamlen dp'.data p namep.length) data (p + 6) (p + 8) :=
      (sameOn_store (.inl (by omega))).trans (sameOn_storeNum (.inr (by omega)))
    rw [d_namlen, h2.load_eq le_rfl le_rfl]
    exact load_storeNum (by rw [MAXNAMLEN] at hlen; omega)
  have hname : d_name data p namep.length = namep := by
    have h3 : SameOn (strncpy (setNamlen dp'.data p namep.length) (p + 8) namep ((namep.length + 4) / 4 * 4))
        data (p + 8) (p + 8 + namep.length) := sameOn_storeNum (.inr (by omega))
    rw [d_name, h3.bytes_eq le_rfl le_rfl]
    exact bytes_store_append _ _ _ _
  have hdino : d_ino data p = ino := load_storeNum hino'
  obtain ⟨hu, heu⟩ := h.front.congr (hout (.inl le_rfl))
  obtain ⟨hv, hev⟩ := h.rest.congr (hout (.inr le_rfl))
  have hrec : RecOk data p := by
    refine ⟨by rw [hrecl]; exact h.mod, ?_, by rw [hrecl]; exact h.chunk⟩
    rw [hrecl, DIRSIZ, hnam, hnee]
    exact h.size
  have hent : entry data p = some (namep, ino) := by
    rw [entry, hdino, if_neg (by omega), hnam, hname]
  have htil : Tiles data 0 dp'.dirsize (u ++ p :: v) := hu.append (.cons hrec (by rwa [hrecl]))
  obtain ⟨hwf, hreco⟩ : WellFormed (imark { dp' with data }) ∧
      records (imark { dp' with data }) = u ++ p :: v := wellFormed_of_tiles htil
  refine ⟨hwf, u.filterMap (entry data), v.filterMap (entry data), by rw [heu, hev, h.holds], ?_⟩
  rw [entries, hreco, imark_data, filterMap_append, filterMap_cons, hent]

end Uwisc.Ufs.Dir
