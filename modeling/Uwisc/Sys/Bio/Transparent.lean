import Uwisc.Sys.Bio.Steps

/-!
# The buffer cache is transparent

In every run of one process, without errors, in which no dirty buffer is made larger, `bread` returns
what was last written (`cache_transparent`). If one is, what was written to it is lost
(`cache_opaque`).
-/

namespace Uwisc.Bio

open Function Lib List

variable {n : ℕ}

/-- A state with what was last written, and what `bread` has been asked for. -/
structure Traced (n : ℕ) where
  state : State n
  cur : ℕ → ℤ → UInt8
  request : Request

namespace Traced

/-- What was last written, after the step. -/
def curAfter (t : Traced n) : Label n → ℕ → ℤ → UInt8
  | .call _ (.bwrite bp) => write t.cur (t.state.kernel.buf bp)
  | .call _ (.bawrite bp) => write t.cur (t.state.kernel.buf bp)
  | .call _ (.bdwrite bp) => write t.cur (t.state.kernel.buf bp)
  | _ => t.cur

/-- What `bread` has been asked for, after the step. -/
def requestAfter (t : Traced n) : Label n → Request
  | .call _ (.bread vp blkno size) => some (vp, State.blkOf blkno, size)
  | .call _ _ => none
  | _ => t.request

end Traced

/-- The process has not changed the buffer, or it is not valid. -/
def Unchanged (cur : ℕ → ℤ → UInt8) (b : Buf) : Prop :=
  ∀ vp, Of b vp → b.done → ∀ a, Covers b a → byte b a = cur vp a

/-- There is one process, and no error. Blocks are within one range, and the process writes the
    buffers that it has changed. -/
def Usage (t : Traced n) : Label n → Prop
  | .call p (.bread _ blkno size) => p = 0 ∧ InRange (State.blkOf blkno) size
  | .call p (.getblk _ blkno size) => p = 0 ∧ InRange (State.blkOf blkno) size
  | .call p (.brealloc bp size) =>
      p = 0 ∧ InRange (t.state.kernel.buf bp).b_blkno size ∧ Unchanged t.cur (t.state.kernel.buf bp)
  | .call p (.brelse bp) => p = 0 ∧ Unchanged t.cur (t.state.kernel.buf bp)
  | .call _ (.breada _ _ _ _ _) => False
  | .call _ (.geteblk _) => False
  | .call p _ => p = 0
  | .resume p => p = 0
  | .iodone _ error => error = false
  | _ => True

/-- No dirty buffer is made larger. -/
def Dispatched (t : Traced n) : Label n → Prop
  | .call _ (.brealloc bp size) => ¬Grows (t.state.kernel.buf bp) size
  | .resume p =>
    match t.state.control p with
    | .getblk _ vp blkno size =>
      ∀ bp, t.state.kernel.find vp (State.blkOf blkno) = some bp →
        (t.state.kernel.buf bp).busy = false → ¬Grows (t.state.kernel.buf bp) size
    | _ => True
  | _ => True

/-- The runs of one process, from any contents of the disks. -/
def traced (n bufpages : ℕ) : System (Traced n) (Label n) where
  init := {t | ∃ disk, t = ⟨⟨{ Kernel.binit n bufpages with disk := disk }, fun _ => .user,
    fun _ => [], none⟩, disk, none⟩}
  step t a t' := Usage t a ∧ ∃ s, exec t.state a = some s ∧ t' = ⟨s, t.curAfter a, t.requestAfter a⟩

variable {s : State n} {k k' : Kernel n} {cur : ℕ → ℤ → UInt8} {b bp x : Fin n} {size : ℕ}
  {request : Request}

/-! ### The steps -/

theorem Good.resume (h : Good s cur request)
    (hgrw : Dispatched ⟨s, cur, request⟩ (.resume 0)) : Good (s.resume 0) cur request := by
  obtain ⟨hsnd, hrdy⟩ := h
  rw [State.resume]
  dsimp only [Dispatched] at hgrw
  cases hcon : s.control 0 with
  | user => exact ⟨hsnd, hrdy⟩
  | getblk c vp blkno size =>
    rw [hcon] at hsnd hrdy hgrw
    have hbufs : c.bufs = [] := hrdy.1.bufs
    rw [Control.waits, hbufs] at hsnd
    have hidem : State.blkOf (State.blkOf blkno) = State.blkOf blkno := by
      simp only [State.blkOf]
      split_ifs <;> omega
    exact .getblk hsnd ⟨hidem, hrdy.2, hrdy.1⟩ hgrw
  | getnewbuf c vp blkno size =>
    rw [hcon] at hsnd hrdy
    have hbufs : c.bufs = [] := hrdy.1.2.2.bufs
    rw [Control.waits, hbufs] at hsnd
    exact .newblk hsnd.getnewbuf hrdy.1 fun x hx =>
      hrdy.2 x ((Keeps.getnewbuf _).is x vp blkno hx)
  | geteblk size =>
    rw [hcon] at hrdy
    exact hrdy.elim
  | brealloc c bp size =>
    rw [hcon] at hsnd hrdy
    have hbufs := hrdy.1.wants.bufs
    rw [Control.waits, hbufs] at hsnd
    obtain ⟨vp, hof⟩ := hrdy.1.resizable.of
    dsimp only
    rw [hof.1]
    exact .overlapLoop hsnd hrdy.1 hrdy.2 (hsnd.overlapped hof hrdy.1.resizable.range)
  | allocbuf c bp size =>
    rw [hcon] at hsnd hrdy
    have hbufs := hrdy.1.wants.bufs
    rw [Control.waits, hbufs] at hsnd
    exact .allocbuf hsnd hrdy.1 hrdy.2
  | bread bp =>
    rw [hcon] at hsnd hrdy
    dsimp only
    split_ifs with hdone
    · obtain ⟨vp, hof, hreq⟩ := hrdy
      have hawa := Sound.awaited hsnd hdone
      refine .hold hawa ⟨vp, hof⟩ fun v blk sz hsome => ⟨bp, s.held 0, rfl, ?_⟩
      cases hreq.symm.trans hsome
      exact ⟨hof, rfl, rfl, hsnd.coherent.good bp vp hof (.inl hdone)
        (hawa.not_loose mem_cons_self)⟩
    · exact .sleep (c := .bread bp) hsnd hrdy
  | bwrite bp w =>
    rw [hcon] at hsnd hrdy
    dsimp only
    split_ifs with hdone
    · exact .written hsnd hrdy hdone
    · refine .sleep (c := .bwrite bp w) hsnd ?_
      cases w <;> exact hrdy
  | blkflush vp blkno size =>
    rw [hcon] at hsnd hrdy
    exact .blkflushLoop hsnd hrdy

theorem Good.iodone (h : Good s cur request) (hb : (s.kernel.buf b).active) :
    Good { s with kernel := s.kernel.iodone b false } cur request := by
  obtain ⟨hsnd, hrdy⟩ := h
  refine ⟨hsnd.iodone hb, ?_⟩
  -- the driver has none of the buffers that the process has
  have hsame : ∀ x ∈ (s.control 0).quiet ++ s.held 0,
      (s.kernel.iodone b false).buf x = s.kernel.buf x := by
    intro x hx
    have hne : x ≠ b := by
      rintro rfl
      exact absurd ((hsnd.own.inactive hx).symm.trans hb) Bool.false_ne_true
    rw [Kernel.iodone_buf, update_of_ne hne]
  have hrec : Recedes s.kernel (s.kernel.iodone b false) := .iodone hsnd
  change (s.control 0).Ready (s.kernel.iodone b false) cur request (s.held 0)
  cases hcon : s.control 0 with
  | user =>
    rw [hcon] at hrdy hsame
    intro vp blkno size hreq
    obtain ⟨bp, bps, hheld, hret⟩ := hrdy vp blkno size hreq
    refine ⟨bp, bps, hheld, ?_⟩
    rwa [hsame bp (by rw [hheld]; exact mem_cons_self)]
  | getblk c vp blkno size =>
    rw [hcon] at hrdy
    exact hrdy
  | getnewbuf c vp blkno size =>
    rw [hcon] at hrdy
    exact ⟨hrdy.1, fun x hx => hrdy.2 x ((Keeps.iodone _ b false).is x vp blkno hx)⟩
  | geteblk size =>
    rw [hcon] at hrdy
    exact hrdy
  | brealloc c bp size =>
    rw [hcon] at hrdy hsame
    rw [Control.Ready, hsame bp mem_cons_self]
    exact hrdy
  | allocbuf c bp size =>
    rw [hcon] at hrdy hsame
    have hbp := hsame bp mem_cons_self
    rw [Control.Ready, hbp]
    refine ⟨hrdy.1, fun hgt => (hrdy.2 hgt).recedes hrec ?_ ?_⟩
    all_goals rw [hbp]
    exact fun _ => id
  | bread bp =>
    rw [hcon] at hrdy
    obtain ⟨vp, hof, hreq⟩ := hrdy
    obtain ⟨hdone, -⟩ := doneBuf_done (transferred s.kernel.disk (s.kernel.buf b))
      (hsnd.coherent.plain b)
    by_cases hbp : bp = b
    · subst hbp
      rw [Control.Ready, Kernel.iodone_buf, update_self, hdone.blkno, hdone.bcount]
      exact ⟨vp, hdone.of.2 hof, hreq⟩
    · rw [Control.Ready, Kernel.iodone_buf, update_of_ne hbp]
      exact ⟨vp, hof, hreq⟩
  | bwrite bp w =>
    rw [hcon] at hrdy hsame
    cases w with
    | overlap c tp size =>
      rw [Control.Ready, Writer.Ready, hsame tp mem_cons_self]
      exact hrdy
    | bwrite => exact hrdy
    | brealloc c size => exact hrdy
    | blkflush vp blkno size => exact hrdy
  | blkflush vp blkno size =>
    rw [hcon] at hrdy
    exact hrdy

/-! ### Calls -/

theorem Good.own_drop (h : Good s cur request) (huser : s.control 0 = .user) (hbp : bp ∈ s.held 0) :
    Own s.kernel (s.drop 0 bp).quiet (s.drop 0 bp).waits 0 (bp :: (s.drop 0 bp).held 0) [] := by
  have htok : Tokens s.kernel s.quiet s.waits := by
    have hown := h.sound.own
    change Own s.kernel s.quiet s.waits 0 (s.quiet 0) (s.waits 0) at hown
    rwa [Own, update_eq_self, update_eq_self] at hown
  exact Inv.own_drop ⟨htok, h.sound.unique⟩ huser hbp

theorem State.held_drop (s : State n) (bp : Fin n) : (s.drop 0 bp).held 0 = (s.held 0).erase bp :=
  update_self 0 _ s.held

theorem mem_drop (hx : x ∈ (s.drop 0 bp).held 0) : x ∈ s.held 0 := by
  rw [State.held_drop] at hx
  exact mem_of_mem_erase hx

theorem mem_drop_of_ne (hx : x ∈ s.held 0) (hne : x ≠ bp) : x ∈ (s.drop 0 bp).held 0 := by
  rw [State.held_drop]
  exact (mem_erase_of_ne hne).2 hx

theorem Good.held_drop (h : Good s cur request) (huser : s.control 0 = .user) (hbp : bp ∈ s.held 0)
    {f : Buf} (hbuf : k'.buf = update s.kernel.buf bp f) :
    ∀ x ∈ (s.drop 0 bp).held 0, ∃ vp, Of (k'.buf x) vp := by
  intro x hx
  have hne : x ≠ bp := by
    rintro rfl
    exact (nodup_cons.1 (h.own_drop huser hbp).nodup).1 (mem_append_left _ hx)
  rw [hbuf, update_of_ne hne]
  exact h.sound.held x (mem_drop hx)

/-- The process gives up a buffer that it has not changed. -/
theorem Good.drop (h : Good s cur request) (huser : s.control 0 = .user) (hbp : bp ∈ s.held 0)
    (hsame : Unchanged cur (s.kernel.buf bp)) : View (s.drop 0 bp) cur s.kernel [bp] [] := by
  have hown := h.own_drop huser hbp
  refine ⟨hown, h.sound.unique, ?_, ?_⟩
  · have hloose : Coherent s.kernel cur (bp :: (s.drop 0 bp).held 0) := by
      refine h.sound.coherent.loosen fun x hx => ?_
      by_cases hne : x = bp
      · exact mem_cons.2 (.inl hne)
      · exact mem_cons_of_mem _ (mem_drop_of_ne hx hne)
    refine hloose.tighten fun vp hof hdone => hsame vp hof (hdone.resolve_right fun hw => ?_)
    exact absurd ((hown.inactive mem_cons_self).symm.trans hw.1) Bool.false_ne_true
  · exact h.held_drop huser hbp (update_eq_self bp _).symm

/-- The process gives up a buffer that it writes. -/
theorem Good.write (h : Good s cur request) (huser : s.control 0 = .user) (hbp : bp ∈ s.held 0)
    {f : Buf} {V : List (Fin n)} (hown : Own k' (s.drop 0 bp).quiet (s.drop 0 bp).waits 0
      ((s.drop 0 bp).held 0) V) (huni : Unique k')
    (hbuf : k'.buf = update s.kernel.buf bp f) (hemp : Emptied s.kernel k' bp)
    (hdisk : k'.disk = s.kernel.disk) (hsty : Stays (s.kernel.buf bp) f)
    (hsize : f.b_bufsize = (s.kernel.buf bp).b_bufsize) (hdty : Dirty f)
    (hdel : f.delwri → f.done = true) (hact : f.active → f.delwri = false) :
    View (s.drop 0 bp) (write cur (s.kernel.buf bp)) k' [] V := by
  obtain ⟨vp, hof⟩ := h.sound.held bp hbp
  refine ⟨hown, huni, ?_, h.held_drop huser hbp hbuf⟩
  exact h.sound.coherent.write hof hbuf (hemp.empties h.sound.coherent.toShape hsize) hdisk hsty
    hdty hdel hact fun x hx hne => mem_drop_of_ne hx hne

theorem Good.returns (h : View s cur k [] []) : Good (s.goto 0 k .user) cur none := by
  refine .goto (c := .user) h fun v blk sz hsome => ?_
  cases hsome

theorem Good.call {op : Op n} {s' : State n} (h : Good s cur request) (huser : s.control 0 = .user)
    (husg : Usage ⟨s, cur, request⟩ (.call 0 op))
    (hgrw : Dispatched ⟨s, cur, request⟩ (.call 0 op)) (hcall : s.call 0 op = some s') :
    Good s' (Traced.curAfter ⟨s, cur, request⟩ (.call 0 op))
      (Traced.requestAfter ⟨s, cur, request⟩ (.call 0 op)) := by
  have hsnd : View s cur s.kernel [] [] := by
    have hsnd := h.sound
    rwa [huser] at hsnd
  cases op with
  | bread vp blkno size =>
    rw [State.call] at hcall
    split_ifs at hcall
    cases hcall
    exact .goto (c := .getblk .bread vp blkno size) hsnd ⟨rfl, husg.2⟩
  | breada vp blkno size rablkno rabsize => exact husg.elim
  | getblk vp blkno size =>
    cases hcall
    exact .goto (c := .getblk .getblk vp blkno size) hsnd ⟨rfl, husg.2⟩
  | geteblk size => exact husg.elim
  | brealloc bp size =>
    rw [State.call] at hcall
    split_ifs at hcall with hbp
    cases hcall
    exact .brealloc (h.drop huser hbp husg.2.2) rfl trivial (hsnd.held bp hbp) husg.2.1 hgrw
  | bwrite bp =>
    rw [State.call] at hcall
    split_ifs at hcall with hbp
    cases hcall
    have hown := h.own_drop huser hbp
    have hpln := hsnd.coherent.plain bp
    refine .goto (c := .bwrite bp .bwrite) (h.write huser hbp hown.bwrite
      (hsnd.unique.keeps (.bwrite _ bp)) (f := Kernel.writtenBuf (s.kernel.buf bp)) ?_ ?_ ?_ ?_ rfl
      (.inr ⟨rfl, rfl⟩) (fun hd => Bool.noConfusion hd) fun _ => rfl) rfl
    all_goals try rw [Kernel.bwrite_eq]
    · rfl
    · exact .of_sub fun _ => id
    · rfl
    · exact ⟨hpln.1.symm, rfl, rfl, rfl, rfl, rfl, le_rfl, fun _ _ => rfl⟩
  | bawrite bp =>
    rw [State.call] at hcall
    split_ifs at hcall with hbp
    cases hcall
    have hown := h.own_drop huser hbp
    have hpln := hsnd.coherent.plain bp
    refine .returns (h.write huser hbp hown.bawrite (hsnd.unique.keeps (.bawrite _ bp))
      (f := Kernel.writtenBuf { s.kernel.buf bp with async := true }) ?_ ?_ ?_ ?_ rfl
      (.inr ⟨rfl, rfl⟩) (fun hd => Bool.noConfusion hd) fun _ => rfl)
    all_goals try rw [Kernel.bawrite_eq]
    · rfl
    · exact .of_sub fun _ => id
    · rfl
    · exact ⟨hpln.1.symm, rfl, rfl, rfl, rfl, rfl, le_rfl, fun _ _ => rfl⟩
  | bdwrite bp =>
    rw [State.call] at hcall
    split_ifs at hcall with hbp
    cases hcall
    have hown := h.own_drop huser hbp
    obtain ⟨herr, hnoc⟩ := hsnd.coherent.plain bp
    have hina := hown.inactive mem_cons_self
    refine .returns (h.write huser hbp hown.bdwrite
      ((hsnd.unique.keeps (.flags _ bp _ rfl rfl rfl)).keeps (.brelse _ bp))
      (f := Kernel.releasedBuf { s.kernel.buf bp with delwri := true, done := true })
      ?_ ?_ ?_ ?_ rfl (.inl rfl) (fun _ => rfl)
      fun ha => absurd (hina.symm.trans ha) Bool.false_ne_true)
    · rw [Kernel.bdwrite, Kernel.brelse_buf, Kernel.modify_self]
      simp only [Kernel.modify, update_idem]
    · intro x hx
      have hemp := Kernel.brelse_empty _ bp x hx
      rwa [Kernel.modify_self] at hemp
    · rw [Kernel.bdwrite, Kernel.brelse_disk, Kernel.modify_disk]
    · refine ⟨?_, ?_, ?_, ?_, rfl, rfl, le_rfl, fun _ _ => rfl⟩
      all_goals simp [Kernel.releasedBuf, herr, hnoc]
  | brelse bp =>
    rw [State.call] at hcall
    split_ifs at hcall with hbp
    cases hcall
    exact .returns (Sound.brelse (h.drop huser hbp husg.2))
  | blkflush vp blkno size =>
    cases hcall
    exact .goto (c := .blkflush vp blkno size) hsnd rfl
  | bflush vp =>
    cases hcall
    exact .returns (Sound.bflush hsnd vp)
  | store bp addr =>
    rw [State.call] at hcall
    split_ifs at hcall with hbp
    cases hcall
    refine .returns ⟨hsnd.own.modify bp _ rfl rfl rfl rfl,
      hsnd.unique.keeps (.flags _ bp _ rfl rfl rfl), hsnd.coherent.store hbp addr, fun x hx => ?_⟩
    obtain ⟨vp, hvp⟩ := hsnd.held x hx
    refine ⟨vp, ?_⟩
    by_cases hne : x = bp
    · subst hne
      rw [Kernel.modify_self]
      exact hvp
    · rwa [Kernel.modify_of_ne _ _ _ hne]

theorem Good.exec {a : Label n} {s' : State n} (h : Good s cur request)
    (husg : Usage ⟨s, cur, request⟩ a) (hgrw : Dispatched ⟨s, cur, request⟩ a)
    (hexec : exec s a = some s') :
    Good s' (Traced.curAfter ⟨s, cur, request⟩ a) (Traced.requestAfter ⟨s, cur, request⟩ a) := by
  cases a with
  | switch p =>
    rw [Bio.exec] at hexec
    split_ifs at hexec
    cases hexec
    exact ⟨h.sound, h.ready⟩
  | leave p =>
    rw [Bio.exec] at hexec
    split at hexec
    · split_ifs at hexec
      cases hexec
      exact ⟨h.sound, h.ready⟩
    · cases hexec
  | call p op =>
    have hp : p = 0 := by
      cases op with
      | bread => exact husg.1
      | breada => exact husg.elim
      | getblk => exact husg.1
      | geteblk => exact husg.elim
      | brealloc => exact husg.1
      | bwrite => exact husg
      | bawrite => exact husg
      | bdwrite => exact husg
      | brelse => exact husg.1
      | blkflush => exact husg
      | bflush => exact husg
      | store => exact husg
    subst hp
    rw [Bio.exec] at hexec
    split at hexec
    · next huser =>
      split_ifs at hexec
      exact h.call huser husg hgrw hexec
    · cases hexec
  | resume p =>
    obtain rfl : p = 0 := husg
    rw [Bio.exec] at hexec
    split at hexec
    · cases hexec
    · split_ifs at hexec
      cases hexec
      exact h.resume hgrw
  | iodone bp error =>
    obtain rfl : error = false := husg
    rw [Bio.exec] at hexec
    split_ifs at hexec with hact
    cases hexec
    exact h.iodone hact

/-! ### The start -/

/-- A buffer that has nothing. -/
structure Blank (b : Buf) : Prop where
  error : b.error = false
  nocache : b.nocache = false
  delwri : b.delwri = false
  vp : b.b_vp = none
  bcount : b.b_bcount = 0

theorem blank_foldl (bufpages : ℕ) {l : List (Fin n)} (hl : l.Nodup) (hbln : ∀ x, Blank (k.buf x))
    (hemp : ∀ x ∈ k.bfreelist .empty, (k.buf x).b_bufsize = 0 ∧ x ∉ l) :
    (∀ x, Blank ((l.foldl (Kernel.binitLoop bufpages) k).buf x)) ∧
      ∀ x ∈ (l.foldl (Kernel.binitLoop bufpages) k).bfreelist .empty,
        ((l.foldl (Kernel.binitLoop bufpages) k).buf x).b_bufsize = 0 := by
  induction l generalizing k with
  | nil => exact ⟨hbln, fun x hx => (hemp x hx).1⟩
  | cons i l ih =>
    obtain ⟨hnot, hnd⟩ := nodup_cons.1 hl
    obtain ⟨bufsize, hloop⟩ : ∃ bufsize, k.binitLoop bufpages i =
        (((k.modify i fun b => { b with b_bcount := 0, b_bufsize := bufsize }).binshash i
          (.bfreelist .age)).modify i fun b => { b with busy := true, inval := true }).brelse i :=
      ⟨_, rfl⟩
    have hbuf : (k.binitLoop bufpages i).buf = update k.buf i (Kernel.releasedBuf
        { k.buf i with b_bcount := 0, b_bufsize := bufsize, busy := true, inval := true }) := by
      rw [hloop, Kernel.brelse_buf]
      simp only [Kernel.modify, Kernel.binshash, update_idem, update_self]
    rw [foldl_cons]
    refine ih hnd (fun x => ?_) fun x hx => ?_
    · rw [hbuf]
      by_cases hx : x = i
      · subst hx
        obtain ⟨herr, hnoc, hdel, hvp, hbco⟩ := hbln x
        rw [update_self]
        constructor <;> simp [Kernel.releasedBuf, herr, hdel, hvp]
      · rw [update_of_ne hx]
        exact hbln x
    · rw [hloop] at hx
      rw [hbuf]
      rcases Kernel.brelse_empty _ i x hx with hx | ⟨rfl, hsize⟩
      · obtain ⟨hsize, hnot⟩ := hemp x hx
        obtain ⟨hne, hnot⟩ := not_or.1 (mem_cons.not.1 hnot)
        rw [update_of_ne hne]
        exact ⟨hsize, hnot⟩
      · refine ⟨?_, hnot⟩
        rw [Kernel.modify_self] at hsize
        rw [update_self]
        rw [Kernel.binshash_buf, Kernel.modify_self] at hsize
        exact hsize

theorem good_binit (n bufpages : ℕ) (disk : ℕ → ℤ → UInt8) :
    Good (⟨{ Kernel.binit n bufpages with disk := disk }, fun _ => .user, fun _ => [], none⟩ : State n)
      disk none := by
  have hinv := inv_binit n bufpages
  obtain ⟨hidle, -⟩ := binit_spec n bufpages
  obtain ⟨hbln, hemp⟩ := blank_foldl (k := Kernel.zero) bufpages (nodup_finRange n)
    (fun x => ⟨rfl, rfl, rfl, rfl, rfl⟩) nofun
  change ∀ x, Blank ((Kernel.binit n bufpages).buf x) at hbln
  have hof : ∀ x vp, ¬Of ((Kernel.binit n bufpages).buf x) vp := by
    rintro x vp ⟨hvp, -⟩
    cases (hbln x).vp.symm.trans hvp
  refine ⟨⟨?_, hinv.unique.keeps (.of_same rfl rfl), ?_, nofun⟩, nofun⟩
  · exact (hinv.tokens.own 0).congr fun x => .of_eq rfl rfl
  · refine ⟨⟨fun x => ⟨(hbln x).error, (hbln x).nocache⟩, fun x => ?_, hemp,
      fun x vp h => absurd h (hof x vp), fun x y vp a h => absurd h (hof x vp)⟩, fun x hd => ?_,
      fun x ha => ?_, fun x vp h => absurd h (hof x vp), fun _ _ _ => rfl⟩
    · change ((Kernel.binit n bufpages).buf x).b_bcount ≤ _
      rw [(hbln x).bcount]
      exact Nat.zero_le _
    · exact absurd ((hbln x).delwri.symm.trans hd) Bool.false_ne_true
    · exact absurd ((hidle x).active.symm.trans ha) Bool.false_ne_true

/-! ### All runs -/

/-- The cache is transparent. -/
structure Transparent (t : Traced n) : Prop where
  /-- What `bread` has returned is what was last written. -/
  bread : ∀ vp blkno size, t.state.control 0 = .user → t.request = some (vp, blkno, size) →
    ∃ bp bps, t.state.held 0 = bp :: bps ∧ Returned (t.state.kernel.buf bp) t.cur vp blkno size
  /-- A buffer with a delayed write is valid. -/
  done : ∀ b, (t.state.kernel.buf b).delwri → (t.state.kernel.buf b).done
  /-- What was last written is on disk, or still in a buffer that is to be written, or is. -/
  dirty : ∀ vp a, t.state.kernel.disk vp a = t.cur vp a ∨
    ∃ b, Of (t.state.kernel.buf b) vp ∧ Covers (t.state.kernel.buf b) a ∧
      Dirty (t.state.kernel.buf b) ∧
      (b ∉ t.state.held 0 → byte (t.state.kernel.buf b) a = t.cur vp a)

theorem Good.transparent {t : Traced n} (h : Good t.state t.cur t.request) : Transparent t := by
  obtain ⟨hsnd, hrdy⟩ := h
  refine ⟨fun vp blkno size huser hreq => ?_, fun b hd => (hsnd.coherent.delwri b hd).1,
    fun vp a => ?_⟩
  · rw [huser] at hrdy
    exact hrdy vp blkno size hreq
  · by_cases hdty : ∃ b, Of (t.state.kernel.buf b) vp ∧ Covers (t.state.kernel.buf b) a ∧
        Dirty (t.state.kernel.buf b)
    · obtain ⟨b, hof, hcov, hd⟩ := hdty
      refine .inr ⟨b, hof, hcov, hd, fun hnot => ?_⟩
      have hvalid : (t.state.kernel.buf b).done ∨ Written (t.state.kernel.buf b) :=
        hd.imp (fun hd => (hsnd.coherent.delwri b hd).1) id
      exact hsnd.coherent.good b vp hof hvalid hnot a hcov
    · refine .inl (hsnd.coherent.disk vp a fun b hof hcov hd => ?_)
      exact hdty ⟨b, hof, hcov, hd⟩

/-- In every run in which no dirty buffer is made larger, the cache is transparent. -/
theorem cache_transparent {bufpages : ℕ} {t : Traced n}
    (ht : ((traced n bufpages).restrict Dispatched).Reachable t) : Transparent t := by
  have hgood : Good t.state t.cur t.request := by
    refine System.Reachable.invariant (S := (traced n bufpages).restrict Dispatched)
      (I := fun t => Good t.state t.cur t.request) ?_ ?_ ht
    · rintro t ⟨disk, rfl⟩
      exact good_binit n bufpages disk
    · rintro t a t' hgood ⟨hgrw, husg, s, hexec, rfl⟩
      exact hgood.exec husg hgrw hexec
  exact hgood.transparent

theorem inRange_zero {size : ℕ} (hali : size % DEV_BSIZE = 0) (hwit : btodb size ≤ RND) :
    InRange (State.blkOf 0) size :=
  ⟨le_rfl, hali, by simpa [State.blkOf] using hwit⟩

/-- A block is written, and read again with a smaller size: the delayed write comes first. -/
theorem cache_transparent_smaller : ∃ t, ((traced 1 1).restrict Dispatched).Reachable t ∧
    t.request = some (8, 0, 512) ∧ t.state.held 0 = [0] ∧ (t.state.kernel.buf 0).b_addr 3 = 7 ∧
      Transparent t := by
  have h0 : ((traced 1 1).restrict Dispatched).Reachable _ := .init ⟨fun _ _ => 0, rfl⟩
  have h1 := h0.step (a := Label.switch 0) ⟨trivial, trivial, _, rfl, rfl⟩
  have h2 := h1.step (a := Label.call 0 (.getblk 8 0 1024))
    ⟨trivial, ⟨rfl, inRange_zero rfl (by decide)⟩, _, rfl, rfl⟩
  have h3 := h2.step (a := Label.resume 0) ⟨nofun, rfl, _, rfl, rfl⟩
  have h4 := h3.step (a := Label.resume 0) ⟨trivial, rfl, _, rfl, rfl⟩
  have h5 := h4.step (a := Label.resume 0) ⟨trivial, rfl, _, rfl, rfl⟩
  have h6 := h5.step (a := Label.call 0 (.store 0 fun _ => 7)) ⟨trivial, rfl, _, rfl, rfl⟩
  have h7 := h6.step (a := Label.call 0 (.bdwrite 0)) ⟨trivial, rfl, _, rfl, rfl⟩
  have h8 := h7.step (a := Label.call 0 (.bread 8 0 512))
    ⟨trivial, ⟨rfl, inRange_zero rfl (by decide)⟩, _, rfl, rfl⟩
  have h9 := h8.step (a := Label.resume 0)
    ⟨Fin.forall_fin_one.2 fun _ _ hgrw => absurd hgrw.2 (by decide), rfl, _, rfl, rfl⟩
  have h10 := h9.step (a := Label.resume 0) ⟨trivial, rfl, _, rfl, rfl⟩
  have h11 := h10.step (a := Label.iodone 0 false) ⟨trivial, rfl, _, rfl, rfl⟩
  have h12 := h11.step (a := Label.switch 0) ⟨trivial, trivial, _, rfl, rfl⟩
  have h13 := h12.step (a := Label.resume 0) ⟨trivial, rfl, _, rfl, rfl⟩
  have h14 := h13.step (a := Label.resume 0)
    ⟨Fin.forall_fin_one.2 fun _ _ hgrw => absurd hgrw.2 (by decide), rfl, _, rfl, rfl⟩
  have h15 := h14.step (a := Label.resume 0) ⟨trivial, rfl, _, rfl, rfl⟩
  exact ⟨_, h15, by decide, by decide, by decide, cache_transparent h15⟩

/-- A block is written, and read again with a larger size: the buffer is read from disk, over the data
    that has not been written yet. -/
theorem cache_opaque : ¬∀ t, (traced 1 1).Reachable t → Transparent t := by
  intro h
  have h0 : (traced 1 1).Reachable _ := .init ⟨fun _ _ => 0, rfl⟩
  have h1 := h0.step (a := Label.switch 0) ⟨trivial, _, rfl, rfl⟩
  have h2 := h1.step (a := Label.call 0 (.getblk 8 0 512))
    ⟨⟨rfl, inRange_zero rfl (by decide)⟩, _, rfl, rfl⟩
  have h3 := h2.step (a := Label.resume 0) ⟨rfl, _, rfl, rfl⟩
  have h4 := h3.step (a := Label.resume 0) ⟨rfl, _, rfl, rfl⟩
  have h5 := h4.step (a := Label.resume 0) ⟨rfl, _, rfl, rfl⟩
  have h6 := h5.step (a := Label.call 0 (.store 0 fun _ => 7)) ⟨rfl, _, rfl, rfl⟩
  have h7 := h6.step (a := Label.call 0 (.bdwrite 0)) ⟨rfl, _, rfl, rfl⟩
  have h8 := h7.step (a := Label.call 0 (.bread 8 0 1024))
    ⟨⟨rfl, inRange_zero rfl (by decide)⟩, _, rfl, rfl⟩
  have h9 := h8.step (a := Label.resume 0) ⟨rfl, _, rfl, rfl⟩
  have h10 := h9.step (a := Label.resume 0) ⟨rfl, _, rfl, rfl⟩
  have h11 := h10.step (a := Label.resume 0) ⟨rfl, _, rfl, rfl⟩
  have h12 := h11.step (a := Label.resume 0) ⟨rfl, _, rfl, rfl⟩
  have h13 := h12.step (a := Label.iodone 0 false) ⟨rfl, _, rfl, rfl⟩
  have h14 := h13.step (a := Label.switch 0) ⟨trivial, _, rfl, rfl⟩
  have h15 := h14.step (a := Label.resume 0) ⟨rfl, _, rfl, rfl⟩
  obtain ⟨bp, bps, -, hret⟩ := (h _ h15).bread 8 0 1024 rfl rfl
  obtain rfl : bp = 0 := Subsingleton.elim bp 0
  exact absurd (hret.byte 3 ⟨by decide, by decide⟩) (by decide)

end Uwisc.Bio
