import Uwisc.Etc.Fsck.Entry

/-!
# The first chunk of a directory

What `dirscan` leaves of the first chunk of a directory of which the entries are valid.

* `scanEntries_fuel`: there is an end to it;
* `scanEntries_later`: every entry after the first one is kept in its place;
* `dirscan_exact_iff`: the chunk is well formed unless an entry is carved that does not fit.
-/

namespace Uwisc.Fsck

open Lib List Ufs.Dir

variable {e : Setup} {d : Inodesc} {p q : Pass2} {s s' r : Scan} {m m' b : Mem} {o a n f dp : ℕ} {l : List ℕ}

/-! ### Copies -/

/-- The bytes of one memory from `o` on are those of another one. -/
def Window (m : Mem) (o : ℕ) (b : Mem) (n : ℕ) : Prop := ∀ i < n, b i = m (o + i)

variable {k c loc filesize size ino reclen : ℕ} {name : Name} {rep : List Report}

theorem Window.bytes_eq (h : Window m o b n) (hk : a + k ≤ n) : bytes b a k = bytes m (o + a) k :=
  map_congr_left fun i hi => by
    have := mem_range.1 hi
    rw [h _ (by omega), add_assoc]

theorem Window.direct_eq (h : Window m o b n) (hsize : a + DIRSIZ m (o + a) ≤ n ∨ a + DIRSIZ b a ≤ n) :
    direct b a = direct m (o + a) := by
  have hge (k : ℕ) := ldirsiz_ge k
  have h8 : a + 8 ≤ n := by
    rcases hsize with h | h
    · have := hge (d_namlen m (o + a))
      rw [DIRSIZ] at h
      omega
    · have := hge (d_namlen b a)
      rw [DIRSIZ] at h
      omega
  have hino : d_ino b a = d_ino m (o + a) := by
    rw [d_ino, load, h.bytes_eq (by omega)]
    rfl
  have hrecl : d_reclen b a = d_reclen m (o + a) := by
    rw [d_reclen, load, h.bytes_eq (by omega)]
    rfl
  have hnam : d_namlen b a = d_namlen m (o + a) := by
    rw [d_namlen, load, h.bytes_eq (by omega)]
    rfl
  have hname : d_name b a (d_namlen m (o + a)) = d_name m (o + a) (d_namlen m (o + a)) := by
    have hlen := hge (d_namlen m (o + a))
    rw [DIRSIZ, DIRSIZ, hnam, or_self] at hsize
    exact h.bytes_eq (by omega)
  rw [direct, direct, hino, hrecl, hnam, hname]

/-- The entry is copied. -/
theorem window_entry (s : Scan) (dp : ℕ) : Window s.dirblk dp (s.entry dp).dbuf (d_reclen s.dirblk dp) := by
  intro i hi
  change store s.dbuf 0 (bytes s.dirblk dp (d_reclen s.dirblk dp)) i = s.dirblk (dp + i)
  rw [store, length_bytes, if_pos (by omega)]
  simp [bytes, hi]

/-- It is copied back under its length. -/
theorem window_copyBack (h : Tracked (s.entry dp) p) :
    Window (s.copyBack dp p).dirblk dp p.dbuf (d_reclen s.dirblk dp) := by
  intro i hi
  cases halt : p.altered with
  | false =>
    have hblk : (s.copyBack dp p).dirblk = s.dirblk := by rw [Scan.copyBack, halt]; rfl
    rw [hblk, (h halt).2]
    exact window_entry s dp i hi
  | true =>
    have hblk : (s.copyBack dp p).dirblk = store s.dirblk dp (bytes p.dbuf 0 (d_reclen s.dirblk dp)) := by
      rw [Scan.copyBack, halt]
      rfl
    rw [hblk, store, length_bytes, if_pos (by omega)]
    simp [bytes, hi]

theorem sameOn_copyBack (p : Pass2) (h : c ≤ dp ∨ dp + d_reclen s.dirblk dp ≤ a) :
    SameOn s.dirblk (s.copyBack dp p).dirblk a c := by
  change SameOn s.dirblk (if p.altered then _ else _) a c
  split_ifs
  · exact sameOn_store (by rwa [length_bytes])
  · exact .refl _ _ _

theorem valid_window {m' : Mem} (hv : Valid m o) (h : Window m o m' (d_reclen m o)) : Valid m' 0 := by
  have hsize := hv.size
  have hdir : direct m' 0 = direct m o := h.direct_eq (.inl (by rwa [add_zero, zero_add]))
  have hdirs : DIRSIZ m' 0 = DIRSIZ m o := dirsiz_eq hdir
  have hino : d_ino m' 0 = d_ino m o := congrArg Direct.d_ino hdir
  have hrecl : d_reclen m' 0 = d_reclen m o := congrArg Direct.d_reclen hdir
  have hnam : d_namlen m' 0 = d_namlen m o := congrArg Direct.d_namlen hdir
  refine ⟨by rw [hdirs, hrecl]; exact hsize, hnam ▸ hv.short, fun hne => ?_⟩
  obtain ⟨hcln, hend⟩ := hv.name (hino ▸ hne)
  have hge := ldirsiz_ge (d_namlen m o)
  rw [DIRSIZ] at hsize
  refine ⟨hdir ▸ hcln, ?_⟩
  rw [hnam, h _ (by omega), ← hend, zero_add, add_assoc]

/-! ### Valid entries -/

/-- A valid entry. -/
theorem dircheck_spec (h : dircheck e m loc filesize = true) :
    Valid m loc ∧ RecOk m loc := by
  have hmod : loc % DIRBLKSIZ < DIRBLKSIZ := Nat.mod_lt _ (by decide)
  rw [dircheck] at h
  obtain ⟨-, -, hspc, hfour, hsize, -, hsht, hname⟩ := of_decide_eq_true h
  refine ⟨⟨hsize, hsht, fun hino => ?_⟩, hfour, hsize, by omega⟩
  obtain ⟨hall, hend⟩ := hname.resolve_left hino
  refine ⟨fun hmem => ?_, hend⟩
  have := all_eq_true.1 hall 0 hmem
  simp at this

/-- Whether an entry is valid depends on its own bytes. -/
theorem dircheck_congr (h : dircheck e m loc filesize = true)
    (hsame : SameOn m m' loc (loc + d_reclen m loc)) : dircheck e m' loc filesize = true := by
  have hsize := (dircheck_spec h).1.size
  have hge := ldirsiz_ge (d_namlen m loc)
  have hdir : direct m' loc = direct m loc := direct_congr (hsame.mono le_rfl (by omega))
  have hino : d_ino m' loc = d_ino m loc := congrArg Direct.d_ino hdir
  have hrecl : d_reclen m' loc = d_reclen m loc := congrArg Direct.d_reclen hdir
  have hnam : d_namlen m' loc = d_namlen m loc := congrArg Direct.d_namlen hdir
  have hname : d_name m' loc (d_namlen m' loc) = d_name m loc (d_namlen m loc) := congrArg Direct.d_name hdir
  have hend : m' (loc + 8 + d_namlen m loc) = m (loc + 8 + d_namlen m loc) := by
    rw [DIRSIZ] at hsize
    exact hsame _ (by omega) (by omega)
  rw [dircheck] at h ⊢
  rw [dirsiz_eq hdir, hino, hrecl, hname, hnam, hend]
  exact h

/-! ### The end -/

/-- More is reported. -/
theorem reports_pass2check (h : pass2check e d p = .ok q) (hkps : Keeps e) : p.reports <+: q.reports := by
  have hdot (p : Pass2) : p.reports <+: (checkDot e d p).reports := by
    rw [checkDot]
    dsimp only
    split_ifs
    · exact prefix_rfl
    · exact prefix_append _ _
    · exact prefix_rfl
    · exact (prefix_append _ _).trans (prefix_append _ _)
    · exact (prefix_append _ _).trans (prefix_append _ _)
    · exact prefix_append _ _
    · exact prefix_append _ _
  have hsec (p : Pass2) : p.reports <+: (checkSecond e d p).reports := by
    rw [checkSecond]
    dsimp only
    split_ifs
    · exact prefix_append _ _
    · exact prefix_rfl
    · exact (prefix_append _ _).trans (prefix_append _ _)
    · exact (prefix_append _ _).trans (prefix_append _ _)
    · exact prefix_append _ _
  have hdotd (p : Pass2) : p.reports <+: (checkDotDot e d p).reports := by
    rw [checkDotDot]
    split_ifs
    · exact prefix_rfl
    · exact prefix_rfl
    · exact hsec (carve p)
    · exact hsec p
  exact ((hdot p).trans (hdotd _)).trans (checkEntry_spec hkps h).1.adds.le

/-- The entry at hand, if there is one, was found to be valid. -/
def Ready (e : Setup) (d : Inodesc) (s : Scan) : Prop :=
  s.id_loc % DIRBLKSIZ = 0 ∨ s.id_filesize = 0 ∨ d.blksiz ≤ s.id_loc ∨
    dircheck e s.dirblk s.id_loc s.id_filesize = true

/-- What is before the entry at hand is as it was. -/
theorem readdir_frame (h : fsck_readdir e d s = some (dp, s')) : dp = s.id_loc ∧ s.id_loc < d.blksiz ∧
    SameOn s.dirblk s'.dirblk 0 s.id_loc ∧ s.reports <+: s'.reports ∧ s.id_loc ≤ s'.id_loc := by
  rw [fsck_readdir] at h
  dsimp only at h
  split_ifs at h with h1 h2 h3
  · cases h
    refine ⟨rfl, h1.2.2.1, ?_, prefix_append _ _, Nat.le_add_right _ _⟩
    refine (((sameOn_storeNum (.inl (by omega))).trans (sameOn_storeNum (.inl le_rfl))).trans
      (sameOn_storeNum (.inl (by omega)))).trans (sameOn_store (.inl (by omega)))
  · cases h
    exact ⟨rfl, by omega, sameOn_storeNum (.inl (by omega)), prefix_append _ _, by dsimp only; omega⟩
  · cases h
    exact ⟨rfl, by omega, .refl _ _ _, prefix_rfl, Nat.le_add_right _ _⟩

/-- The entry at hand is of at least one byte, and the next one was found to be valid. -/
theorem readdir_ready (hs : Ready e d s) (h : fsck_readdir e d s = some (dp, s')) :
    s.id_loc < s'.id_loc ∧ dp + d_reclen s'.dirblk dp ≤ s'.id_loc ∧ Ready e d s' := by
  have hblk : (0 : ℕ) < DIRBLKSIZ := by decide
  rw [fsck_readdir] at h
  dsimp only at h
  by_cases h1 : s.id_loc % DIRBLKSIZ = 0 ∧ 0 < s.id_filesize ∧ s.id_loc < d.blksiz ∧
      dircheck e s.dirblk s.id_loc s.id_filesize = false
  · rw [if_pos h1] at h
    cases h
    refine ⟨by dsimp only; omega, ?_, .inl ?_⟩
    · have hset := direct_setReclen (n := DIRBLKSIZ) (by decide) s.dirblk s.id_loc
      have hlen : d_reclen (store (setNamlen (setIno (setReclen s.dirblk s.id_loc DIRBLKSIZ) s.id_loc 0)
          s.id_loc 0) (s.id_loc + 8) [0]) s.id_loc = DIRBLKSIZ := by
        have h1 : SameOn (setReclen s.dirblk s.id_loc DIRBLKSIZ)
            (setIno (setReclen s.dirblk s.id_loc DIRBLKSIZ) s.id_loc 0) (s.id_loc + 4) (s.id_loc + 6) :=
          sameOn_storeNum (.inr le_rfl)
        have h2 := (h1.trans (sameOn_storeNum (n := 2) (c := s.id_loc + 6) (v := 0) (.inl le_rfl))).trans
          (sameOn_store (c := s.id_loc + 8) (l := [0]) (.inl (by omega)))
        exact (h2.load_eq le_rfl le_rfl).trans (congrArg Direct.d_reclen hset)
      exact (Nat.add_le_add_left hlen.le _)
    · dsimp only
      rw [Nat.add_mod_right]
      exact h1.1
  rw [if_neg h1] at h
  by_cases h2 : s.id_filesize = 0 ∨ d.blksiz ≤ s.id_loc
  · rw [if_pos h2] at h
    cases h
  rw [if_neg h2] at h
  -- so the entry is valid
  have hcheck : dircheck e s.dirblk s.id_loc s.id_filesize = true := by
    rcases hs with hs | hs | hs | hs
    · by_contra hne
      exact h1 ⟨hs, by omega, by omega, by simpa using hne⟩
    · exact absurd (.inl hs) h2
    · exact absurd (.inr hs) h2
    · exact hs
  have hok := (dircheck_spec hcheck).2
  have hpos := hok.pos
  have hchk := hok.chunk
  rw [DIRBLKSIZ] at *
  split_ifs at h with h3
  · cases h
    have hset := direct_setReclen (n := d_reclen s.dirblk s.id_loc +
      (512 - (s.id_loc + d_reclen s.dirblk s.id_loc) % 512)) (by omega) s.dirblk s.id_loc
    have hlen := congrArg Direct.d_reclen hset
    refine ⟨by dsimp only; omega, ?_, .inl (by rw [DIRBLKSIZ]; dsimp only; omega)⟩
    refine (Nat.add_le_add_left hlen.le _).trans (by dsimp only; omega)
  · cases h
    refine ⟨by dsimp only; omega, le_rfl, ?_⟩
    rw [Ready, DIRBLKSIZ]
    dsimp only
    by_cases hmod : (s.id_loc + d_reclen s.dirblk s.id_loc) % 512 = 0
    · exact .inl hmod
    · by_cases hend : d.blksiz ≤ s.id_loc + d_reclen s.dirblk s.id_loc
      · exact .inr (.inr (.inl hend))
      · by_cases hsize : s.id_filesize - d_reclen s.dirblk s.id_loc = 0
        · exact .inr (.inl hsize)
        · refine .inr (.inr (.inr ?_))
          by_contra hne
          exact h3 ⟨hmod, by omega, by omega, by simpa using hne⟩

theorem checkState_fuel : checkState e p ≠ .error .fuel := by
  rw [checkState]
  dsimp only
  split
  · exact fun h => by cases h
  split
  · exact fun h => by cases h
  · exact fun h => by cases h
  · exact fun h => by cases h
  · split
    · exact fun h => by cases h
    · exact fun h => by cases h
  · exact fun h => by cases h
  · split
    · exact fun h => by cases h
    split
    · exact fun h => by cases h
    · exact fun h => by cases h
    · exact fun h => by cases h

theorem checkEntry_fuel : checkEntry e d p ≠ .error .fuel := by
  rw [checkEntry]
  split_ifs
  · exact fun h => by cases h
  · exact fun h => by cases h
  · exact fun h => by cases h
  · exact fun h => by cases h
  · exact checkState_fuel

/-- There is an end to it: less and less of the block is left. -/
theorem scanEntries_fuel (hs : Ready e d s) (hpos : 0 < f) (hf : d.blksiz < s.id_loc + f) :
    scanEntries e d f s ≠ .error .fuel := by
  induction f generalizing s with
  | zero => exact absurd hpos (lt_irrefl 0)
  | succ f ih =>
    rw [scanEntries]
    split
    · exact fun h => by cases h
    rename_i dp s' hread
    obtain ⟨hdp, hlt, -, -, -⟩ := readdir_frame hread
    obtain ⟨hnx, hend, hrdy⟩ := readdir_ready hs hread
    split
    · rename_i x hx
      rintro ⟨rfl⟩
      exact checkEntry_fuel hx
    · rename_i p hp
      refine ih ?_ (by omega) (show d.blksiz < s'.id_loc + f by omega)
      have hsame (c : ℕ) : SameOn s'.dirblk (s'.copyBack dp p).dirblk s'.id_loc c := sameOn_copyBack p (.inr hend)
      rcases hrdy with h | h | h | h
      · exact .inl h
      · exact .inr (.inl h)
      · exact .inr (.inr (.inl h))
      · exact .inr (.inr (.inr (dircheck_congr h (hsame _))))

/-- What is before the entry at hand stays as it was. -/
theorem scanEntries_frame (hkps : Keeps e) (h : scanEntries e d f s = .ok r) :
    SameOn s.dirblk r.dirblk 0 s.id_loc ∧ s.reports <+: r.reports := by
  induction f generalizing s with
  | zero => cases h
  | succ f ih =>
    rw [scanEntries] at h
    split at h
    · cases h
      exact ⟨.refl _ _ _, prefix_rfl⟩
    rename_i dp s' hread
    obtain ⟨rfl, -, hsame, hpre, hle⟩ := readdir_frame hread
    split at h
    · cases h
    rename_i p hp
    obtain ⟨hsame', hpre'⟩ := ih h
    have hback : SameOn s'.dirblk (s'.copyBack s.id_loc p).dirblk 0 s.id_loc := sameOn_copyBack p (.inl le_rfl)
    have hrs : SameOn (s'.copyBack s.id_loc p).dirblk r.dirblk 0 s.id_loc := hsame'.mono le_rfl hle
    exact ⟨(hsame.trans hback).trans hrs, (hpre.trans (reports_pass2check hp hkps)).trans hpre'⟩

/-! ### The entries of a chunk -/

/-- Valid entries from `a` up to the end of the chunk, `size` bytes of the directory being left at
    its start. -/
abbrev ValidFrom (e : Setup) (m : Mem) (size : ℕ) : ℕ → List ℕ → Prop := fun a =>
  Chain (d_reclen m) (fun o => dircheck e m o (size - o) = true) a DIRBLKSIZ

theorem ValidFrom.congr (h : ValidFrom e m size a l) (hs : SameOn m m' a DIRBLKSIZ) :
    ValidFrom e m' size a l := by
  have hrec : ∀ o ∈ l, SameOn m m' o (o + d_reclen m o) := fun o ho =>
    hs.mono (h.bounds ho).1 (h.bounds ho).2
  refine Chain.congr h (fun o ho => ?_) fun o ho hok => dircheck_congr hok (hrec o ho)
  have hok := (dircheck_spec (h.ok_of_mem ho)).2
  have hge := (ldirsiz_ge (d_namlen m o)).2.1
  have hsize := hok.size
  rw [DIRSIZ] at hsize
  exact (hrec o ho).load_eq (by omega) (by omega)

/-- The next one of some valid entries. -/
theorem readdir_valid (h : ValidFrom e s.dirblk size s.id_loc (o :: l)) (hblk : DIRBLKSIZ ≤ d.blksiz)
    (hsize : DIRBLKSIZ ≤ size) (hleft : s.id_filesize = size - s.id_loc) :
    o = s.id_loc ∧ fsck_readdir e d s = some (o, { s with
      id_loc := o + d_reclen s.dirblk o
      id_filesize := size - (o + d_reclen s.dirblk o) }) := by
  obtain ⟨rfl, hok, hrs⟩ := chain_cons.1 h
  have hpos := (dircheck_spec hok).2.pos
  have hle := hrs.le
  have hnx : ¬((s.id_loc + d_reclen s.dirblk s.id_loc) % DIRBLKSIZ ≠ 0 ∧
      s.id_loc + d_reclen s.dirblk s.id_loc < d.blksiz ∧
      0 < s.id_filesize - d_reclen s.dirblk s.id_loc ∧
      dircheck e s.dirblk (s.id_loc + d_reclen s.dirblk s.id_loc)
        (s.id_filesize - d_reclen s.dirblk s.id_loc) = false) := by
    rintro ⟨hmod, -, -, hfls⟩
    cases l with
    | nil =>
      rw [chain_nil] at hrs
      rw [hrs, DIRBLKSIZ] at hmod
      exact hmod rfl
    | cons x l =>
      obtain ⟨rfl, hx, -⟩ := chain_cons.1 hrs
      rw [hleft, Nat.sub_sub, hx] at hfls
      exact Bool.noConfusion hfls
  refine ⟨rfl, ?_⟩
  rw [fsck_readdir]
  dsimp only
  rw [if_neg (by rw [hleft, hok]; exact fun h => Bool.noConfusion h.2.2.2), if_neg (by omega), if_neg hnx, hleft,
    Nat.sub_sub]

/-- An entry that is copied back. -/
theorem direct_copyBack {x : Direct} {reports : List Report} (h : Tracked (s.entry dp) p)
    (haft : After (direct s.dirblk dp) x reports) (hx : direct p.dbuf 0 = x) :
    direct (s.copyBack dp p).dirblk dp = x := by
  have hsize : DIRSIZ p.dbuf 0 ≤ d_reclen s.dirblk dp := by
    rw [dirsiz_eq hx]
    exact haft.size.trans haft.reclen.le
  have hwin := (window_copyBack h).direct_eq (a := 0) (.inr (by rwa [zero_add]))
  exact hwin.symm.trans hx

/-- The entries after the first one stay in their places, and the second one is `..` or cannot be
    fixed. -/
theorem scanEntries_later (hkps : Keeps e) (h : ValidFrom e m size o l)
    (hblk : DIRBLKSIZ ≤ d.blksiz) (hsize : DIRBLKSIZ ≤ size) (hloc : s.id_loc = o)
    (hleft : s.id_filesize = size - o) (hsame : SameOn m s.dirblk o DIRBLKSIZ) (hno : 1 ≤ s.id_entryno)
    (hpar : Found e s.tables d.id_parent) (hrun : scanEntries e d f s = .ok r) :
    SameOn s.dirblk r.dirblk 0 o ∧ s.reports <+: r.reports ∧
      (∀ x ∈ l, After (direct m x) (direct r.dirblk x) r.reports) ∧
      (s.id_entryno = 1 → ∀ x ∈ l.head?, CannotFix r.reports ∨
        direct r.dirblk x = made d.id_parent dotdot (d_reclen m x)) := by
  induction l generalizing o s f with
  | nil =>
    obtain ⟨hfrm, hpre⟩ := scanEntries_frame hkps hrun
    exact ⟨hloc ▸ hfrm, hpre, fun x hx => by simp at hx, fun _ x hx => by simp at hx⟩
  | cons x l ih =>
    obtain ⟨rfl, hok, hrs⟩ := chain_cons.1 h
    have hrng := hrs.le
    obtain ⟨hx, hread⟩ := readdir_valid (d := d) (by rw [hloc]; exact h.congr hsame) hblk hsize
      (by rw [hloc]; exact hleft)
    cases f with
    | zero => cases hrun
    | succ f =>
      rw [scanEntries, hread] at hrun
      dsimp only at hrun
      have hdsize := (dircheck_spec hok).1.size
      have hdir : direct s.dirblk x = direct m x := direct_congr (hsame.mono le_rfl (by omega))
      have hrecl : d_reclen s.dirblk x = d_reclen m x := congrArg Direct.d_reclen hdir
      rw [hrecl] at hrun
      set t : Scan := { s with id_loc := x + d_reclen m x, id_filesize := size - (x + d_reclen m x) } with ht
      have hent : t.entry x = s.entry x := rfl
      rw [hent] at hrun
      split at hrun
      · cases hrun
      rename_i q hq
      have hvalid : Valid s.dirblk x := (dircheck_spec (dircheck_congr hok (hsame.mono le_rfl hrng))).1
      obtain ⟨htr, hpre, hfnd, hqno, haft, hsec⟩ := pass2check_later hkps hpar hno rfl
        (valid_window hvalid (window_entry s x)) hq
      have hwin := (window_entry s x).direct_eq (a := 0) (.inl (by rw [zero_add]; exact hvalid.size))
      rw [add_zero] at hwin
      rw [hwin] at haft
      have hblkx : direct (t.copyBack x q).dirblk x = direct q.dbuf 0 := direct_copyBack (s := t) htr haft rfl
      have hback : SameOn s.dirblk (t.copyBack x q).dirblk (x + d_reclen m x) DIRBLKSIZ :=
        sameOn_copyBack (s := t) q (.inr (Nat.add_le_add_left hrecl.le _))
      obtain ⟨hfrm, hpre', hall, -⟩ := ih (s := t.copyBack x q) hrs rfl rfl
        ((hsame.mono (Nat.le_add_right _ _) le_rfl).trans hback) (by exact (by omega : 1 ≤ q.id_entryno))
        (hfnd _ hpar) hrun
      have hfinal : direct r.dirblk x = direct q.dbuf 0 := by
        rw [← hblkx]
        refine direct_congr (hfrm.mono (Nat.zero_le _) ?_)
        rw [dirsiz_eq hblkx]
        refine Nat.add_le_add_left (haft.size.trans ?_) _
        rw [haft.reclen, hdir]
        rfl
      have hbef : SameOn s.dirblk (t.copyBack x q).dirblk 0 x := sameOn_copyBack (s := t) q (.inl le_rfl)
      refine ⟨hbef.trans (hfrm.mono le_rfl (Nat.le_add_right _ _)), hpre.trans hpre', ?_, fun hone y hy => ?_⟩
      · refine forall_mem_cons.2 ⟨?_, hall⟩
        rw [hfinal, ← hdir]
        exact haft.mono hpre'
      · obtain rfl : x = y := by simpa using hy
        rcases hsec hone with hcan | hmade
        · exact .inl (hcan.mono hpre')
        · refine .inr (hfinal.trans (hmade.trans ?_))
          rw [show d_reclen (s.entry x).dbuf 0 = d_reclen s.dirblk x from congrArg Direct.d_reclen hwin, hrecl]

/-! ### The first chunk -/

/-- The entries of the first chunk. -/
def chunk (m : Mem) : List ℕ := recordsFrom m DIRBLKSIZ 0

/-- A directory that is scanned from its start, the entries of its first chunk being valid. -/
structure FirstChunk (e : Setup) (d : Inodesc) (s : Scan) : Prop where
  entryno : s.id_entryno = 0
  reports : s.reports = []
  filesize : 0 < s.id_filesize
  blksiz : DIRBLKSIZ ≤ d.blksiz
  valid : ValidFrom e s.dirblk (roundup s.id_filesize DIRBLKSIZ) 0 (chunk s.dirblk)
  number : Found e s.tables d.id_number
  parent : Found e s.tables d.id_parent
  keeps : Keeps e

/-- The chunk is well formed: its entries follow one another to its end, with those that were
    there, and the first two in use are `.` and `..` if none could not be fixed. -/
structure Repaired (d : Inodesc) (m m' : Mem) (l : List Report) : Prop where
  tiled : Tiles m' 0 DIRBLKSIZ (chunk m')
  kept : ∀ o ∈ chunk m, o ∈ chunk m' ∧ Kept (direct m o) (direct m' o) l
  dots : ¬CannotFix l → ∃ rest, (chunk m').filterMap (Ufs.Dir.entry m') =
    (dot, d.id_number) :: (dotdot, d.id_parent) :: rest

/-- No entry is carved, or what comes after it, as long as the first one, happens to be made of
    entries, or nothing does. -/
def Fits (m : Mem) : Prop :=
  Carved m → Tiles m (2 * DIRSIZ m 0) (d_reclen m 0) (recordsFrom m (d_reclen m 0) (2 * DIRSIZ m 0))

theorem chunk_eq (h : Tiles m 0 DIRBLKSIZ l) : chunk m = l := recordsFrom_eq h

theorem entry_made (hino : 0 < ino) (h : direct m o = made ino name reclen) :
    Ufs.Dir.entry m o = some (name, ino) := by
  have h1 : d_ino m o = ino := congrArg Direct.d_ino h
  have h2 : d_name m o (d_namlen m o) = name := congrArg Direct.d_name h
  rw [Ufs.Dir.entry, h1, if_neg hino.ne', h2]

/-- Entries that stayed in their places. -/
theorem tiles_after (h : ValidFrom e m size a l)
    (haft : ∀ x ∈ l, After (direct m x) (direct m' x) rep) : Tiles m' a DIRBLKSIZ l := by
  refine Chain.congr h (fun x hx => (haft x hx).reclen) fun x hx hok => ?_
  have hok := (dircheck_spec hok).2
  have hrecl : d_reclen m' x = d_reclen m x := (haft x hx).reclen
  exact ⟨by rw [hrecl]; exact hok.mod, (haft x hx).size, by rw [hrecl]; exact hok.chunk⟩

theorem recOk_made (h : direct m o = made ino name reclen)
    (hmod : reclen % 4 = 0) (hsize : LDIRSIZ name.length ≤ reclen)
    (hchk : o % DIRBLKSIZ + reclen ≤ DIRBLKSIZ) : RecOk m o := by
  have h1 : d_reclen m o = reclen := congrArg Direct.d_reclen h
  exact ⟨by rw [h1]; exact hmod, by rw [dirsiz_eq h, h1]; exact hsize, by rw [h1]; exact hchk⟩

/-- The entries from one place on up to another one that is one of them, or the end. -/
theorem Tiles.upto (h : Tiles m a DIRBLKSIZ l) (hc : c = DIRBLKSIZ ∨ c ∈ l) : ∃ u, Tiles m a c u := by
  rcases hc with rfl | hc
  · exact ⟨l, h⟩
  · obtain ⟨u, v, -, hu, -, -⟩ := Chain.split h hc
    exact ⟨u, hu⟩

theorem Tiles.first (h : Tiles m a c l) (hlt : a < c) :
    ∃ l', l = a :: l' ∧ Tiles m (a + d_reclen m a) c l' := by
  cases l with
  | nil => exact absurd (chain_nil.1 h) hlt.ne
  | cons x l =>
    obtain ⟨rfl, -, h⟩ := chain_cons.1 h
    exact ⟨l, rfl, h⟩

theorem chunk_cons (h : ValidFrom e m size 0 (chunk m)) : ∃ l, chunk m = 0 :: l ∧
    dircheck e m 0 size = true ∧ ValidFrom e m size (d_reclen m 0) l := by
  cases hl : chunk m with
  | nil =>
    rw [hl, ValidFrom, chain_nil] at h
    exact absurd h (by decide)
  | cons x l =>
    rw [hl] at h
    obtain ⟨rfl, hok, hrs⟩ := chain_cons.1 h
    rw [zero_add] at hrs
    exact ⟨l, rfl, hok, hrs⟩

theorem SameOn.symm (h : SameOn m m' a c) : SameOn m' m a c := fun i hi hi' => (h i hi hi').symm

/-- What becomes of the first entry is in its own bytes. -/
theorem First.congr {b' : Mem} (h : First d b b' k rep)
    (hsize : DIRSIZ b 0 ≤ d_reclen b 0) (hb : SameOn b m 0 (d_reclen b 0)) (hb' : SameOn b' m' 0 (d_reclen b 0)) :
    First d m m' k rep := by
  have hdir : direct m 0 = direct b 0 := direct_congr (hb.mono le_rfl (by omega))
  have hino : d_ino m 0 = d_ino b 0 := congrArg Direct.d_ino hdir
  have hrecl : d_reclen m 0 = d_reclen b 0 := congrArg Direct.d_reclen hdir
  have hdirs : DIRSIZ m 0 = DIRSIZ b 0 := dirsiz_eq hdir
  have hcarv : Carved m ↔ Carved b := by rw [Carved, Carved, hdir, hino, hrecl, hdirs]
  have hent {x : ℕ} (hx : x + DIRSIZ b' x ≤ d_reclen b 0) : direct m' x = direct b' x :=
    direct_congr (hb'.mono (Nat.zero_le _) hx)
  have hdots := ldirsiz_dotdot
  cases h with
  | single hfit hlt hno haft hdot =>
    have h0 : direct m' 0 = direct b' 0 := hent (by
      rw [zero_add]
      exact haft.size.trans haft.reclen.le)
    refine .single (fun h => hfit (hcarv.1 h)) (hrecl ▸ hlt) hno ?_ ?_
    · rw [hdir, h0]
      exact haft
    · rw [hrecl, h0]
      exact hdot
  | double hfit hlt hno hspe hdot hdotd =>
    have h1 : DIRSIZ b' 0 = 12 := (dirsiz_eq hdot).trans ldirsiz_dot
    have h2 : DIRSIZ b' 12 = 12 := (dirsiz_eq hdotd).trans ldirsiz_dotdot
    refine .double (fun h => hfit (hcarv.1 h)) (hrecl ▸ hlt) hno (hdir ▸ hspe) ?_ ?_
    · rw [hent (by omega), hdot]
    · rw [hent (by omega), hdotd, hrecl]
  | carved hcar hno hfst hdotd hrs =>
    have hfit := hcar.2.2
    have h1 : DIRSIZ b' 0 ≤ DIRSIZ b 0 := by
      rcases hfst with ⟨-, h⟩ | ⟨-, h⟩
      · exact (dirsiz_eq h).le
      · rw [dirsiz_eq h]
        exact ldirsiz_dot.trans_le (ldirsiz_ge _).2.1
    have h2 : DIRSIZ b' (DIRSIZ b 0) = 12 := (dirsiz_eq hdotd).trans ldirsiz_dotdot
    refine .carved (hcarv.2 hcar) hno ?_ ?_ ?_
    · rw [hent (by omega), hdir, hdirs]
      exact hfst
    · rw [hdirs, hent (by omega), hdotd]
    · rw [hdirs, hrecl]
      exact (SameOn.symm (hb.mono (Nat.zero_le _) le_rfl)).trans (hrs.trans (hb'.mono (Nat.zero_le _) le_rfl))

/-- The pieces of the first entry, and the entries after it. -/
theorem repaired_of {u : List ℕ} (htil : Tiles m' 0 DIRBLKSIZ (u ++ l)) (hu : 0 ∈ u)
    (hchk : chunk m = 0 :: l) (hfst : Kept (direct m 0) (direct m' 0) rep)
    (haft : ∀ x ∈ l, After (direct m x) (direct m' x) rep)
    (hdots : ¬CannotFix rep → ∃ rest, (u ++ l).filterMap (Ufs.Dir.entry m') =
      (dot, d.id_number) :: (dotdot, d.id_parent) :: rest) : Repaired d m m' rep := by
  have hchk' := chunk_eq htil
  refine ⟨by rw [hchk']; exact htil, ?_, by rw [hchk']; exact hdots⟩
  rw [hchk, hchk']
  exact forall_mem_cons.2 ⟨⟨mem_append_left _ hu, hfst⟩, fun x hx =>
    ⟨mem_append_right _ hx, (haft x hx).toKept⟩⟩

/-- What is left of the chunk, once the first entry was seen to and those after it stayed in their
    places. -/
theorem repaired_iff {entryno : ℕ} {rep' : List Report} (hnum : 0 < d.id_number)
    (hpar : 0 < d.id_parent) (hok : dircheck e m 0 size = true) (hchk : chunk m = 0 :: l)
    (hrs : ValidFrom e m size (d_reclen m 0) l) (hfst : First d m m' entryno rep) (hrep : rep <+: rep')
    (haft : ∀ x ∈ l, After (direct m x) (direct m' x) rep')
    (hsec : entryno = 1 → ∀ x ∈ l.head?, CannotFix rep' ∨
      direct m' x = made d.id_parent dotdot (d_reclen m x)) :
    Repaired d m m' rep' ↔ Fits m := by
  obtain ⟨hvalid, hrok⟩ := dircheck_spec hok
  have hmod := hrok.mod
  have hend := hrs.le
  have htil := tiles_after hrs haft
  have hdots := ldirsiz_dot
  have hdotdots := ldirsiz_dotdot
  have hmod0 {c : ℕ} (hc : c < DIRBLKSIZ) : c % DIRBLKSIZ = c := Nat.mod_eq_of_lt hc
  have hzero : 0 % DIRBLKSIZ = 0 := rfl
  cases hfst with
  | single hfit hlt hno hfst hdot =>
    refine iff_of_true ?_ fun h => absurd h hfit
    have hrecl : d_reclen m' 0 = d_reclen m 0 := hfst.reclen
    have hok' : RecOk m' 0 := ⟨by rw [hrecl]; exact hmod, hfst.size, by rw [hrecl]; exact hrok.chunk⟩
    have htile : Tiles m' 0 DIRBLKSIZ ([0] ++ l) := .cons hok' (by rw [hrecl, zero_add]; exact htil)
    refine repaired_of htile (mem_singleton_self 0) hchk (hfst.toKept.mono hrep) haft fun hcan => ?_
    have hfst' := entry_made hnum (hdot.resolve_left fun h => hcan (h.mono hrep))
    -- there is a second entry, as the first one does not reach the end
    cases l with
    | nil =>
      rw [ValidFrom, chain_nil] at hrs
      omega
    | cons x l =>
      have hsec' := entry_made hpar ((hsec hno x rfl).resolve_left hcan)
      exact ⟨l.filterMap (Ufs.Dir.entry m'), by simp [hfst', hsec']⟩
  | double hfit hge hno hspe hdot hdotd =>
    refine iff_of_true ?_ fun h => absurd h hfit
    have h1 : d_reclen m' 0 = 12 := congrArg Direct.d_reclen hdot
    have h2 : d_reclen m' 12 = d_reclen m 0 - 12 := congrArg Direct.d_reclen hdotd
    have hok1 : RecOk m' 0 := recOk_made hdot rfl hdots.le (by decide)
    have hok2 : RecOk m' 12 := recOk_made hdotd (by omega) (by omega) (by rw [hmod0 (by decide)]; omega)
    have htile : Tiles m' 0 DIRBLKSIZ ([0, 12] ++ l) := by
      refine .cons hok1 ?_
      rw [h1]
      refine .cons hok2 ?_
      rw [h2, show 0 + 12 + (d_reclen m 0 - 12) = d_reclen m 0 by omega]
      exact htil
    refine repaired_of htile (by simp) hchk ⟨fun _ => .inr (.inl ?_), fun h => absurd hspe h⟩ haft fun _ => ?_
    · rw [hdot]
      rfl
    · exact ⟨l.filterMap (Ufs.Dir.entry m'), by simp [entry_made hnum hdot, entry_made hpar hdotd]⟩
  | carved hcar hno hfst hdotd hsame =>
    have hge : 12 ≤ DIRSIZ m 0 := (ldirsiz_ge _).2.1
    have hfour : DIRSIZ m 0 % 4 = 0 := (ldirsiz_ge _).2.2
    have hfit := hcar.2.2
    have h1 : d_reclen m' 0 = DIRSIZ m 0 := by
      rcases hfst with ⟨-, h⟩ | ⟨-, h⟩
      · exact congrArg Direct.d_reclen h
      · exact congrArg Direct.d_reclen h
    have hsize : DIRSIZ m' 0 ≤ DIRSIZ m 0 := by
      rcases hfst with ⟨-, h⟩ | ⟨-, h⟩
      · exact (dirsiz_eq h).le
      · exact ((dirsiz_eq h).trans hdots).trans_le hge
    have h2 : d_reclen m' (DIRSIZ m 0) = DIRSIZ m 0 := congrArg Direct.d_reclen hdotd
    rw [Fits, imp_iff_right hcar]
    constructor
    · intro h
      -- the entries that follow the two that are made lead to where the first one ended
      have hlead : ∃ u, Tiles m' (2 * DIRSIZ m 0) (d_reclen m 0) u := by
        have htile := h.tiled
        have hmem : d_reclen m 0 = DIRBLKSIZ ∨ d_reclen m 0 ∈ chunk m' := by
          cases l with
          | nil => exact .inl (chain_nil.1 hrs)
          | cons x l =>
            obtain ⟨rfl, -, -⟩ := chain_cons.1 hrs
            exact .inr (h.kept _ (by rw [hchk]; simp)).1
        obtain ⟨c, hc, htile⟩ := Tiles.first htile (by decide)
        rw [h1, zero_add] at htile
        obtain ⟨c', hc', htile⟩ := Tiles.first htile (by omega)
        rw [h2, ← two_mul] at htile
        refine Tiles.upto htile (hmem.imp_right fun hmem => ?_)
        rw [hc, hc'] at hmem
        rcases mem_cons.1 hmem with h | hmem
        · omega
        rcases mem_cons.1 hmem with h | hmem
        · omega
        · exact hmem
      obtain ⟨u, hu⟩ := hlead
      have hm := (Tiles.congr hu (SameOn.symm hsame)).1
      rw [recordsFrom_eq hm]
      exact hm
    · intro h
      have hle := h.le
      have hu := (Tiles.congr h hsame).1
      have hok1 : RecOk m' 0 := ⟨by rw [h1]; exact hfour, by rw [h1]; exact hsize, by rw [h1, hzero]; omega⟩
      have hok2 : RecOk m' (DIRSIZ m 0) :=
        recOk_made hdotd hfour (by omega) (by rw [hmod0 (by omega)]; omega)
      have htile : Tiles m' 0 DIRBLKSIZ ((0 :: DIRSIZ m 0 :: recordsFrom m (d_reclen m 0) (2 * DIRSIZ m 0)) ++ l) := by
        refine .cons hok1 ?_
        rw [h1, zero_add]
        refine .cons hok2 ?_
        rw [h2, ← two_mul]
        exact hu.append htil
      refine repaired_of htile (by simp) hchk ?_ haft fun hcan => ?_
      · rcases hfst with ⟨-, hx⟩ | ⟨hspe, hx⟩
        · rw [hx]
          exact ⟨id, fun _ => ⟨rfl, .inl rfl⟩⟩
        · rw [hx]
          exact ⟨fun _ => .inr (.inl rfl), fun h => absurd hspe h⟩
      · rcases hfst with ⟨h, -⟩ | ⟨-, hx⟩
        · exact absurd (h.mono hrep) hcan
        · exact ⟨_, by simp [entry_made hnum hx, entry_made hpar hdotd]; rfl⟩

/-- What `dirscan` leaves of the first chunk, if it returns. -/
theorem dirscan_spec (h : FirstChunk e d s) (hrun : dirscan e d s = .ok r) :
    Repaired d s.dirblk r.dirblk r.reports ↔ Fits s.dirblk := by
  obtain ⟨l, hchk, hok, hrs⟩ := chunk_cons h.valid
  set size := roundup s.id_filesize DIRBLKSIZ with hsize
  have hge : DIRBLKSIZ ≤ size := by
    have := h.filesize
    rw [hsize, roundup, DIRBLKSIZ]
    omega
  set t : Scan := { s with id_loc := 0, id_filesize := size } with ht
  have hscan : dirscan e d s = scanEntries e d (d.blksiz + 1) t := by
    rw [dirscan, if_pos h.entryno]
  rw [hscan] at hrun
  have hval0 : ValidFrom e t.dirblk size t.id_loc (0 :: l) := hchk ▸ h.valid
  obtain ⟨-, hread⟩ := readdir_valid (d := d) hval0 h.blksiz hge rfl
  rw [scanEntries, hread] at hrun
  dsimp only at hrun
  rw [zero_add] at hrun
  set t' : Scan := { t with id_loc := d_reclen t.dirblk 0, id_filesize := size - d_reclen t.dirblk 0 } with ht'
  split at hrun
  · cases hrun
  rename_i q hq
  have hvalid := (dircheck_spec hok).1
  have hwin := window_entry t' 0
  obtain ⟨htr, hpre, hfnd, hfst⟩ := pass2check_first h.keeps h.number h.parent h.entryno rfl
    (valid_window hvalid hwin) hq
  have hno : 1 ≤ q.id_entryno := by
    cases hfst with
    | single _ _ hno _ _ => exact hno.ge
    | double _ _ hno _ _ _ => omega
    | carved _ hno _ _ _ => omega
  have hback : SameOn s.dirblk (t'.copyBack 0 q).dirblk (d_reclen s.dirblk 0) DIRBLKSIZ :=
    sameOn_copyBack (s := t') q (.inr (zero_add _).le)
  obtain ⟨hfrm, hpre', hall, hsec⟩ := scanEntries_later (s := t'.copyBack 0 q) h.keeps hrs h.blksiz hge rfl
    rfl hback hno (hfnd _ h.parent) hrun
  -- what is copied, and what is copied back, are the bytes of the first entry
  have hdir : direct (t'.entry 0).dbuf 0 = direct s.dirblk 0 :=
    hwin.direct_eq (a := 0) (.inl (by rw [zero_add]; exact hvalid.size))
  have hrecl : d_reclen (t'.entry 0).dbuf 0 = d_reclen s.dirblk 0 := congrArg Direct.d_reclen hdir
  have hfst' : First d s.dirblk r.dirblk q.id_entryno q.reports := by
    refine hfst.congr (by rw [dirsiz_eq hdir, hrecl]; exact hvalid.size) ?_ ?_
    · intro i _ hi
      rw [hwin i (hrecl ▸ hi), zero_add]
    · intro i _ hi
      rw [hfrm i (Nat.zero_le i) (hrecl ▸ hi), window_copyBack htr i (hrecl ▸ hi), zero_add]
  exact repaired_iff h.number.pos h.parent.pos hok hchk hrs hfst' hpre' hall hsec

/-- There is an end to `dirscan`. -/
theorem dirscan_fuel : dirscan e d s ≠ .error .fuel :=
  scanEntries_fuel (.inl rfl) (Nat.succ_pos _) (by dsimp only; omega)

/-- `fsck` leaves the first chunk of a directory well formed just if no entry is carved after the
    first one that does not fit. -/
theorem dirscan_exact_iff (h : FirstChunk e d s) : dirscan e d s = .error .errexit ∨
    ∃ r, dirscan e d s = .ok r ∧ (Repaired d s.dirblk r.dirblk r.reports ↔ Fits s.dirblk) := by
  cases hrun : dirscan e d s with
  | error x =>
    cases x with
    | errexit => exact .inl rfl
    | fuel => exact absurd hrun dirscan_fuel
  | ok r => exact .inr ⟨r, rfl, dirscan_spec h hrun⟩

/-! A directory of which the only entry is `.`, as when `..` was removed. -/

def lostSetup : Setup where
  imax := 64
  room := 64
  descend := fun t _ => some t
  stack := fun _ => 0

def lostDir : Inodesc := ⟨3, 2, DIRBLKSIZ⟩

def lostScan : Scan where
  dirblk := store (fun _ => 0) 0 [3, 0, 0, 0, 0, 2, 1, 0, 0x2e]
  dbuf := fun _ => 0
  id_loc := 0
  id_filesize := DIRBLKSIZ
  id_entryno := 0
  tables := ⟨fun _ => .DFOUND, fun _ => 2⟩
  reports := []

theorem lostScan_tiles : ValidFrom lostSetup lostScan.dirblk DIRBLKSIZ 0 [0] := by
  refine .cons (by decide) ?_
  have hend : 0 + d_reclen lostScan.dirblk 0 = DIRBLKSIZ := by decide
  rw [hend]
  exact .nil _

theorem lostScan_chunk : chunk lostScan.dirblk = [0] :=
  chunk_eq (Chain.congr lostScan_tiles (fun _ _ => rfl) fun _ _ hok => (dircheck_spec hok).2)

theorem lostScan_first : FirstChunk lostSetup lostDir lostScan where
  entryno := rfl
  reports := rfl
  filesize := by decide
  blksiz := le_rfl
  valid := by
    rw [lostScan_chunk]
    exact lostScan_tiles
  number := ⟨by decide, by decide, by decide, rfl⟩
  parent := ⟨by decide, by decide, by decide, rfl⟩
  keeps := fun t ino t' h i hi => by
    cases h
    exact hi

theorem dirscan_lost_iff : dirscan lostSetup lostDir lostScan = .error .errexit ∨
    ∃ r, dirscan lostSetup lostDir lostScan = .ok r ∧
      (Repaired lostDir lostScan.dirblk r.dirblk r.reports ↔ Fits lostScan.dirblk) :=
  dirscan_exact_iff lostScan_first

/-- The entry that is made is of 12 bytes, of the 500 there are. -/
theorem dirscan_lost : FirstChunk lostSetup lostDir lostScan ∧ ∃ r, dirscan lostSetup lostDir lostScan = .ok r ∧
    ¬Repaired lostDir lostScan.dirblk r.dirblk r.reports := by
  have hret : (dirscan lostSetup lostDir lostScan).toBool = true := by decide +kernel
  have hcarv : Carved lostScan.dirblk := by decide
  have hsize : DIRSIZ lostScan.dirblk 0 = 12 ∧ d_reclen lostScan.dirblk 0 = 512 := by decide
  have hnone : d_reclen lostScan.dirblk 24 = 0 := by decide
  refine ⟨lostScan_first, ?_⟩
  cases hrun : dirscan lostSetup lostDir lostScan with
  | error x =>
    rw [hrun] at hret
    exact absurd hret Bool.false_ne_true
  | ok r =>
    refine ⟨r, rfl, fun h => ?_⟩
    have htil := (dirscan_spec lostScan_first hrun).1 h hcarv
    rw [hsize.1, hsize.2] at htil
    obtain ⟨l, hl, -⟩ := Tiles.first htil (by decide)
    have hpos := (htil.ok_of_mem (o := 24) (by rw [hl]; simp)).pos
    omega

end Uwisc.Fsck
