import Uwisc.Sys.Bio.Data

/-!
# What the functions of the buffer cache do to the data

For the one process that there is. It may have changed the buffers that it has from earlier calls
(`loose`), and those of the call that it is in, `Q` and `V`, it has not (`Sound`).

* `Sound.notavail`, `Sound.brelse`: a buffer is taken, and released;
* `Sound.bwrite`, `Sound.bawrite`: a delayed write is started;
* `Sound.getnewbuf`, `Sound.assign`, `Sound.resize`, `Sound.shrink`, `Sound.grow`: a buffer is of
  another block, or of another size;
* `Sound.iodone`: the driver is done.
-/

namespace Uwisc.Bio

open Function List

variable {n : ℕ} {k k' : Kernel n} {cur : ℕ → ℤ → UInt8} {quiet waits : ℕ → List (Fin n)}
  {loose Q V : List (Fin n)} {b bp tp x : Fin n} {f : Buf}

/-! ### The empty buffers -/

/-- The buffers of the list `.empty`, but for `b`, were on it. -/
def Emptied (k k' : Kernel n) (b : Fin n) : Prop :=
  ∀ x ∈ k'.bfreelist .empty, x ∈ k.bfreelist .empty ∨ x = b ∧ (k.buf b).b_bufsize = 0

theorem Emptied.of_sub (hsub : ∀ x ∈ k'.bfreelist .empty, x ∈ k.bfreelist .empty) : Emptied k k' b :=
  fun x hx => .inl (hsub x hx)

/-- The buffer keeps its memory. -/
theorem Emptied.empties (h : Emptied k k' b) (hshp : Shape k)
    (hsize : f.b_bufsize = (k.buf b).b_bufsize) : Empties k k' b f := by
  intro x hx
  by_cases hxb : x = b
  · subst hxb
    refine .inr ⟨rfl, ?_⟩
    rw [hsize]
    rcases h x hx with hmem | ⟨-, hzero⟩
    · exact hshp.empty x hmem
    · exact hzero
  · refine .inl ⟨hxb, ?_⟩
    rcases h x hx with hmem | ⟨heq, -⟩
    · exact hmem
    · exact absurd heq hxb

theorem Kernel.notavail_empty (k : Kernel n) (b : Fin n) : Emptied k (k.notavail b) b :=
  .of_sub fun _ hx => mem_of_mem_erase hx

theorem Kernel.stick_empty (k : Kernel n) (b : Fin n) : Emptied k (k.stick b) b := by
  intro x hx
  rw [Kernel.stick] at hx
  split_ifs at hx with hsize
  · rcases mem_cons.1 hx with rfl | hx
    · exact .inr ⟨rfl, hsize⟩
    · exact .inl hx
  all_goals exact .inl hx

theorem Kernel.brelse_empty (k : Kernel n) (b : Fin n) : Emptied k (k.brelse b) b := by
  intro x hx
  rw [Kernel.brelse_eq] at hx
  have hstick := Kernel.stick_empty _ b x hx
  rwa [Kernel.modify_bfreelist, Kernel.unwanted_bfreelist, Kernel.modify_self,
    Kernel.unwanted_buf] at hstick

/-! ### Coherence -/

/-- The flags that say if the buffer is valid, or dirty, stay too. -/
theorem Coherent.flags (h : Coherent k cur loose) (hbuf : k'.buf = update k.buf b f)
    (hempty : Emptied k k' b) (hdisk : k'.disk = k.disk) (hsty : Stays (k.buf b) f)
    (hsize : f.b_bufsize = (k.buf b).b_bufsize) (hdone : f.done = (k.buf b).done)
    (hdel : f.delwri = (k.buf b).delwri) (hact : f.active = (k.buf b).active)
    (hread : f.read = (k.buf b).read) : Coherent k' cur loose := by
  have hdty : Dirty f ↔ Dirty (k.buf b) := by rw [Dirty, Dirty, Written, Written, hdel, hact, hread]
  refine h.keep hbuf (hempty.empties h.toShape hsize) hdisk hsty hdty.2 ?_ ?_ ?_
  · rw [Written, Written, hdone, hact, hread]
    exact id
  · rw [hdel, hdone]
    exact fun hd => ⟨hd, (h.delwri b hd).1⟩
  · rw [hact, hdel, hsty.bcount]
    intro ha
    obtain ⟨hcln, hof⟩ := h.active b ha
    refine ⟨hcln, fun hne => ?_⟩
    obtain ⟨vp, hvp⟩ := hof hne
    exact ⟨vp, hsty.of.2 hvp⟩

/-- The data is coherent, and the buffers that are held are of blocks. The process has the buffers
    `Q`, and waits for `V`. -/
structure Sound (quiet waits : ℕ → List (Fin n)) (loose : List (Fin n)) (cur : ℕ → ℤ → UInt8)
    (k : Kernel n) (Q V : List (Fin n)) : Prop where
  own : Own k quiet waits 0 (Q ++ loose) V
  unique : Unique k
  coherent : Coherent k cur loose
  held : ∀ b ∈ loose, ∃ vp, Of (k.buf b) vp

section

variable (h : Sound quiet waits loose cur k Q V)

include h

theorem Sound.not_loose (hb : b ∈ Q ++ V) : b ∉ loose := by
  have hnd := h.own.nodup
  intro hmem
  rw [append_assoc, nodup_append] at hnd
  rcases mem_append.1 hb with hb | hb
  · exact hnd.2.2 b hb b (mem_append_left _ hmem) rfl
  · exact (nodup_append.1 hnd.2.1).2.2 b hmem b hb rfl

theorem Sound.not_loose_of_free (hb : (k.buf b).busy = false) : b ∉ loose := fun hmem =>
  (h.own.out_of_free hb).2 (mem_append_left _ (mem_append_right _ hmem))

/-- A buffer that is not held changes. -/
theorem Sound.held_of (hb : b ∉ loose)
    (hbuf : k'.buf = update k.buf b f) : ∀ x ∈ loose, ∃ vp, Of (k'.buf x) vp := by
  intro x hx
  have hne : x ≠ b := fun heq => hb (heq ▸ hx)
  rw [hbuf, update_of_ne hne]
  exact h.held x hx

theorem Sound.inactive (hb : b ∈ Q) :
    (k.buf b).active = false := h.own.inactive (mem_append_left _ hb)

theorem Sound.notavail (hb : (k.buf b).busy = false) :
    Sound quiet waits loose cur (k.notavail b) (b :: Q) V := by
  refine ⟨h.own.notavail hb, h.unique.keeps (.notavail k b), ?_,
    h.held_of (h.not_loose_of_free hb) (k.notavail_buf b)⟩
  refine h.coherent.flags (k.notavail_buf b) (k.notavail_empty b) rfl ?_ rfl rfl rfl rfl rfl
  exact ⟨rfl, rfl, rfl, rfl, rfl, rfl, le_rfl, fun _ _ => rfl⟩

end

theorem Sound.brelse (h : Sound quiet waits loose cur k (b :: Q) V) :
    Sound quiet waits loose cur (k.brelse b) Q V := by
  have hnot := h.not_loose mem_cons_self
  refine ⟨h.own.brelse, h.unique.keeps (.brelse k b), ?_, h.held_of hnot (k.brelse_buf b)⟩
  obtain ⟨herr, hnoc⟩ := h.coherent.plain b
  refine h.coherent.flags (k.brelse_buf b) (k.brelse_empty b) (k.brelse_disk b) ?_ rfl rfl rfl rfl rfl
  refine ⟨?_, ?_, ?_, ?_, rfl, rfl, le_rfl, fun _ _ => rfl⟩
  all_goals simp [Kernel.releasedBuf, herr, hnoc]

/-- A flag of a buffer is set that does not matter. -/
theorem Sound.modify (h : Sound quiet waits loose cur k Q V) (b : Fin n) (f : Buf → Buf)
    (hown : Own (k.modify b f) quiet waits 0 (Q ++ loose) V) (hsty : Stays (k.buf b) (f (k.buf b)))
    (hsize : (f (k.buf b)).b_bufsize = (k.buf b).b_bufsize)
    (hdone : (f (k.buf b)).done = (k.buf b).done)
    (hdel : (f (k.buf b)).delwri = (k.buf b).delwri)
    (hact : (f (k.buf b)).active = (k.buf b).active)
    (hread : (f (k.buf b)).read = (k.buf b).read) :
    Sound quiet waits loose cur (k.modify b f) Q V := by
  refine ⟨hown, h.unique.keeps (.flags k b f hsty.inval hsty.vp hsty.blkno),
    h.coherent.flags rfl (.of_sub fun _ => id) rfl hsty hsize hdone hdel hact hread, ?_⟩
  intro x hx
  obtain ⟨vp, hvp⟩ := h.held x hx
  exact ⟨vp, ((hsty.alike rfl).of x vp).2 hvp⟩

theorem Sound.want (h : Sound quiet waits loose cur k Q V) (b : Fin n) :
    Sound quiet waits loose cur (k.modify b fun b => { b with wanted := true }) Q V :=
  h.modify b _ (h.own.modify b _ rfl rfl rfl rfl)
    ⟨rfl, rfl, rfl, rfl, rfl, rfl, le_rfl, fun _ _ => rfl⟩ rfl rfl rfl rfl rfl

theorem Sound.cache (h : Sound quiet waits loose cur k Q V) (b : Fin n) :
    Sound quiet waits loose cur (k.modify b fun b => { b with cache := true }) Q V :=
  h.modify b _ (h.own.modify b _ rfl rfl rfl rfl)
    ⟨rfl, rfl, rfl, rfl, rfl, rfl, le_rfl, fun _ _ => rfl⟩ rfl rfl rfl rfl rfl

/-- Lists of processes change. -/
theorem Sound.congr (h : Sound quiet waits loose cur k Q V) (hbuf : k'.buf = k.buf)
    (hchn : k'.chain = k.chain) (hdisk : k'.disk = k.disk) (hfree : k'.bfreelist = k.bfreelist) :
    Sound quiet waits loose cur k' Q V := by
  refine ⟨h.own.congr fun x => .of_eq (by rw [hbuf]) ?_, h.unique.keeps (.of_same hbuf hchn),
    h.coherent.congr hbuf hdisk (by rw [hfree]; exact fun _ => id), by rw [hbuf]; exact h.held⟩
  rw [Kernel.frees, Kernel.frees, hfree]

/-! ### Transfers -/

/-- A delayed write is started: what the buffer has is still what was last written. -/
theorem Coherent.bwrite (h : Coherent k cur loose) (hbuf : k'.buf = update k.buf b f)
    (hempty : k'.bfreelist = k.bfreelist) (hdisk : k'.disk = k.disk) (hb : (k.buf b).delwri)
    (hsty : Stays (k.buf b) f) (hsize : f.b_bufsize = (k.buf b).b_bufsize)
    (hwri : Written f) (hdel : f.delwri = false) : Coherent k' cur loose := by
  obtain ⟨hdone, hof⟩ := h.delwri b hb
  have hemp : Emptied k k' b := .of_sub (by rw [hempty]; exact fun _ => id)
  refine h.keep hbuf (hemp.empties h.toShape hsize) hdisk hsty (fun _ => .inr hwri)
    (fun _ => .inl hdone) (fun hd => absurd (hdel.symm.trans hd) Bool.false_ne_true)
    fun _ => ⟨hdel, fun hne => ?_⟩
  obtain ⟨vp, hvp⟩ := hof (hsty.bcount ▸ hne)
  exact ⟨vp, hsty.of.2 hvp⟩

theorem Sound.bwrite (h : Sound quiet waits loose cur k (b :: Q) V) (hb : (k.buf b).delwri) :
    Sound quiet waits loose cur (k.bwrite b) Q (b :: V) := by
  have hnot := h.not_loose mem_cons_self
  have hpln := h.coherent.plain b
  refine ⟨h.own.bwrite, h.unique.keeps (.bwrite k b), ?_, ?_⟩
  all_goals rw [k.bwrite_eq]
  · refine h.coherent.bwrite rfl rfl rfl hb ?_ rfl ⟨rfl, rfl⟩ rfl
    exact ⟨hpln.1.symm, rfl, rfl, rfl, rfl, rfl, le_rfl, fun _ _ => rfl⟩
  · exact h.held_of hnot rfl

theorem Sound.bawrite (h : Sound quiet waits loose cur k (b :: Q) V) (hb : (k.buf b).delwri) :
    Sound quiet waits loose cur (k.bawrite b) Q V := by
  have hnot := h.not_loose mem_cons_self
  have hpln := h.coherent.plain b
  refine ⟨h.own.bawrite, h.unique.keeps (.bawrite k b), ?_, ?_⟩
  all_goals rw [k.bawrite_eq]
  · refine h.coherent.bwrite rfl rfl rfl hb ?_ rfl ⟨rfl, rfl⟩ rfl
    exact ⟨hpln.1.symm, rfl, rfl, rfl, rfl, rfl, le_rfl, fun _ _ => rfl⟩
  · exact h.held_of hnot rfl

/-- A buffer that is not valid, and that the driver does not have, is not dirty. -/
theorem Coherent.clean (h : Coherent k cur loose) (hdone : (k.buf b).done = false)
    (hact : (k.buf b).active = false) : ¬Dirty (k.buf b) := by
  rintro (hd | hw)
  · exact absurd (hdone.symm.trans (h.delwri b hd).1) Bool.false_ne_true
  · exact absurd (hact.symm.trans hw.1) Bool.false_ne_true

/-- A read is started. -/
theorem Sound.startRead {vp : ℕ} (h : Sound quiet waits loose cur k (b :: Q) V)
    (hdone : (k.buf b).done = false) (hof : Of (k.buf b) vp) :
    Sound quiet waits loose cur (k.startRead b false) Q (b :: V) := by
  have hcln := h.coherent.clean hdone (h.inactive mem_cons_self)
  have hdel : (k.buf b).delwri = false := Bool.eq_false_of_not_eq_true fun hd => hcln (.inl hd)
  refine ⟨?_, h.unique.keeps (.startRead k b false), ?_, ?_⟩
  all_goals rw [k.startRead_eq]
  · exact h.own.start rfl (Bool.or_false _) rfl hdone
  · have hempty : Emptied k k b := .of_sub fun _ => id
    refine h.coherent.keep rfl (hempty.empties h.coherent.toShape rfl) rfl
      ⟨rfl, rfl, rfl, rfl, rfl, rfl, le_rfl, fun _ _ => rfl⟩ (fun hd => absurd hd hcln) ?_ ?_ ?_
    · rintro (hd | ⟨-, hr⟩)
      · exact .inl hd
      · exact absurd hr (Ne.symm Bool.false_ne_true)
    · exact fun hd => absurd (hdel.symm.trans hd) Bool.false_ne_true
    · exact fun _ => ⟨hdel, fun _ => ⟨vp, hof⟩⟩
  · exact h.held_of (h.not_loose mem_cons_self) rfl

/-- A buffer that is not dirty is valid no longer. -/
theorem Sound.undone (h : Sound quiet waits loose cur k Q V) (hb : b ∈ Q)
    (hdel : (k.buf b).delwri = false) :
    Sound quiet waits loose cur (k.modify b fun b => { b with done := false }) Q V := by
  have hina := h.inactive hb
  refine ⟨h.own.setDone (mem_append_left _ hb) false, h.unique.keeps (.flags k b _ rfl rfl rfl), ?_,
    h.held_of (h.not_loose (mem_append_left _ hb)) rfl⟩
  have hempty : Emptied k k b := .of_sub fun _ => id
  refine h.coherent.keep rfl (hempty.empties h.coherent.toShape rfl) rfl
    ⟨rfl, rfl, rfl, rfl, rfl, rfl, le_rfl, fun _ _ => rfl⟩ id ?_ ?_ ?_
  · rintro (hd | hw)
    · exact Bool.noConfusion hd
    · exact .inr hw
  · exact fun hd => absurd (hdel.symm.trans hd) Bool.false_ne_true
  · exact fun ha => absurd (hina.symm.trans ha) Bool.false_ne_true

/-! ### New buffers -/

/-- A buffer as `getnewbuf` returns it. -/
structure New (b : Buf) : Prop where
  vp : b.b_vp = none
  inval : b.inval = false
  delwri : b.delwri = false
  done : b.done = false

/-- No buffer is one of more bytes. -/
def Recedes (k k' : Kernel n) : Prop :=
  ∀ x vp, Of (k'.buf x) vp → Of (k.buf x) vp ∧ ∀ a, Covers (k'.buf x) a → Covers (k.buf x) a

theorem Recedes.trans {k'' : Kernel n} (h : Recedes k k') (h' : Recedes k' k'') : Recedes k k'' := by
  intro x vp hof
  obtain ⟨hof', hcov'⟩ := h' x vp hof
  obtain ⟨hof, hcov⟩ := h x vp hof'
  exact ⟨hof, fun a ha => hcov a (hcov' a ha)⟩

/-- One buffer is no longer of its block, or stays what it is. -/
theorem Recedes.of_update (hbuf : k'.buf = update k.buf b f)
    (hf : ∀ vp, Of f vp → Of (k.buf b) vp ∧ f.b_blkno = (k.buf b).b_blkno ∧
      f.b_bcount ≤ (k.buf b).b_bcount) : Recedes k k' := by
  intro x vp
  by_cases hx : x = b
  · subst hx
    rw [hbuf, update_self]
    intro hof
    obtain ⟨hof, hbno, hbco⟩ := hf vp hof
    refine ⟨hof, fun a ha => ?_⟩
    rw [Covers, hbno] at ha
    exact ⟨ha.1, by omega⟩
  · rw [hbuf, update_of_ne hx]
    exact fun hof => ⟨hof, fun _ => id⟩

/-- What `getnewbuf` makes of a buffer. -/
def newBuf (b : Buf) : Buf :=
  { b with
    b_vp := none, read := false, done := false, error := false, busy := true, wanted := false
    age := false, async := false, delwri := false, cache := false, inval := false, locked := false
    nocache := false }

theorem newBuf_not_of {b : Buf} (vp : ℕ) : ¬Of (newBuf b) vp := by
  rintro ⟨hvp, -⟩
  cases hvp

theorem Kernel.getnewbufLoop_cons (k : Kernel n) (b : Fin n) (l : List (Fin n)) :
    k.getnewbufLoop (b :: l) = if (k.buf b).delwri then ((k.notavail b).bawrite b).getnewbufLoop l
      else (some b, (k.notavail b).modify b newBuf) := by
  rw [Kernel.getnewbufLoop, Kernel.brelvp, Kernel.modify_modify, Kernel.notavail_buf, update_self]
  rfl

theorem Kernel.bawrite_notavail_buf (k : Kernel n) (b : Fin n) :
    ((k.notavail b).bawrite b).buf = update k.buf b
      (Kernel.writtenBuf { k.buf b with busy := true, async := true }) := by
  rw [Kernel.bawrite_eq]
  simp [Kernel.modify]

theorem Kernel.newBuf_notavail_buf (k : Kernel n) (b : Fin n) :
    ((k.notavail b).modify b newBuf).buf = update k.buf b (newBuf (k.buf b)) := by
  simp [Kernel.modify, newBuf]

theorem Recedes.bawrite_notavail (k : Kernel n) (b : Fin n) : Recedes k ((k.notavail b).bawrite b) :=
  .of_update (k.bawrite_notavail_buf b) fun _ hof => ⟨hof, rfl, le_rfl⟩

theorem Recedes.getnewbufLoop (k : Kernel n) (l : List (Fin n)) : Recedes k (k.getnewbufLoop l).2 := by
  induction l generalizing k with
  | nil => exact fun _ _ hof => ⟨hof, fun _ => id⟩
  | cons b l ih =>
    rw [Kernel.getnewbufLoop_cons]
    split_ifs
    · exact (Recedes.bawrite_notavail k b).trans (ih _)
    · exact .of_update (k.newBuf_notavail_buf b) fun vp hof => absurd hof (newBuf_not_of vp)

/-- The loop of `getnewbuf` does not change the other buffers. -/
theorem Kernel.getnewbufLoop_of_not_mem {l : List (Fin n)} (k : Kernel n) (hx : x ∉ l) :
    (k.getnewbufLoop l).2.buf x = k.buf x := by
  induction l generalizing k with
  | nil => rfl
  | cons b l ih =>
    obtain ⟨hne, hx⟩ := not_or.1 (mem_cons.not.1 hx)
    rw [Kernel.getnewbufLoop_cons]
    split_ifs
    · rw [ih _ hx, Kernel.bawrite_notavail_buf, update_of_ne hne]
    · rw [Kernel.newBuf_notavail_buf, update_of_ne hne]

/-- What a function leaves that takes a new buffer, if there is one. -/
def Sound.Taken (quiet waits : ℕ → List (Fin n)) (loose : List (Fin n)) (cur : ℕ → ℤ → UInt8)
    (Q V : List (Fin n)) (r : Option (Fin n) × Kernel n) : Prop :=
  match r.1 with
  | none => Sound quiet waits loose cur r.2 Q V
  | some b => Sound quiet waits loose cur r.2 (b :: Q) V ∧ New (r.2.buf b)

theorem Sound.getnewbufLoop {l : List (Fin n)} (h : Sound quiet waits loose cur k Q V)
    (hl : ∀ x ∈ l, (k.buf x).busy = false) (hnd : l.Nodup) :
    Sound.Taken quiet waits loose cur Q V (k.getnewbufLoop l) := by
  induction l generalizing k with
  | nil => exact h.congr rfl rfl rfl rfl
  | cons b l ih =>
    have hown := h.own.getnewbufLoop hl hnd
    have hkps := Keeps.getnewbufLoop k (b :: l)
    obtain ⟨hb, hl⟩ := forall_mem_cons.1 hl
    obtain ⟨hnot, hnd⟩ := nodup_cons.1 hnd
    have htkn := h.notavail hb
    rw [Kernel.getnewbufLoop_cons] at hown hkps ⊢
    split_ifs at hown hkps ⊢ with hdel
    · refine ih (htkn.bawrite (by simpa using hdel)) (fun x hx => ?_) hnd
      have hne : x ≠ b := fun heq => hnot (heq ▸ hx)
      rw [Kernel.bawrite_notavail_buf, update_of_ne hne]
      exact hl x hx
    · have hnew : New (newBuf (k.buf b)) := ⟨rfl, rfl, rfl, rfl⟩
      have hof : ∀ vp, ¬Of (newBuf (k.buf b)) vp := newBuf_not_of
      have hina : (k.buf b).active = false := by
        simpa using htkn.inactive mem_cons_self
      have hcln : ¬Dirty (k.buf b) := by
        rintro (hd | hw)
        · exact hdel hd
        · exact absurd (hina.symm.trans hw.1) Bool.false_ne_true
      have hempty : Emptied k ((k.notavail b).modify b newBuf) b :=
        .of_sub fun _ hx => mem_of_mem_erase hx
      refine ⟨⟨hown, h.unique.keeps hkps, ?_, ?_⟩, ?_⟩
      · refine h.coherent.replace (k.newBuf_notavail_buf b)
          (hempty.empties h.coherent.toShape rfl) (fun _ _ => .inl rfl) (fun hd => absurd hd hcln)
          ⟨rfl, rfl⟩ (h.coherent.fits b) ?_ (fun hd => Bool.noConfusion hd) ?_
          (fun vp h => absurd h (hof vp)) (fun vp h => absurd h (hof vp))
          fun vp h => absurd h (hof vp)
        · rintro (hd | hw)
          · exact Bool.noConfusion hd
          · exact absurd (hina.symm.trans hw.1) Bool.false_ne_true
        · exact fun ha => absurd (hina.symm.trans ha) Bool.false_ne_true
      · exact h.held_of (h.not_loose_of_free hb) (k.newBuf_notavail_buf b)
      · rw [Kernel.modify_self, Kernel.notavail_buf, update_self]
        exact ⟨rfl, rfl, rfl, rfl⟩

theorem Sound.getnewbuf (h : Sound quiet waits loose cur k Q V) :
    Sound.Taken quiet waits loose cur Q V k.getnewbuf := by
  refine h.getnewbufLoop (fun x hx => ?_) ?_
  · rcases mem_append.1 hx with hx | hx <;> exact h.own.busy_of_mem hx
  · refine nodup_iff_count_le_one.2 fun x => ?_
    have hle := h.own.count_le x
    rw [Kernel.frees] at hle
    rw [count_append]
    omega

theorem Sound.bflushLoop {vp : Option ℕ} {l : List (Fin n)} (h : Sound quiet waits loose cur k Q V)
    (hl : ∀ x ∈ l, (k.buf x).busy = false) (hnd : l.Nodup) :
    Sound quiet waits loose cur (k.bflushLoop vp l) Q V := by
  induction l generalizing k with
  | nil => exact h
  | cons b l ih =>
    obtain ⟨hb, hl⟩ := forall_mem_cons.1 hl
    obtain ⟨hnot, hnd⟩ := nodup_cons.1 hnd
    rw [Kernel.bflushLoop]
    split_ifs with hdel
    · refine ih ((h.notavail hb).bawrite (by simpa using hdel.1)) (fun x hx => ?_) hnd
      have hne : x ≠ b := fun heq => hnot (heq ▸ hx)
      rw [Kernel.bawrite_notavail_buf, update_of_ne hne]
      exact hl x hx
    · exact ih h hl hnd

theorem Sound.bflush (h : Sound quiet waits loose cur k Q V) (vp : Option ℕ) :
    Sound quiet waits loose cur (k.bflush vp) Q V := by
  refine h.bflushLoop (fun x hx => ?_) ?_
  · rw [mem_append, mem_append] at hx
    rcases hx with (hx | hx) | hx <;> exact h.own.busy_of_mem hx
  · refine nodup_iff_count_le_one.2 fun x => ?_
    have hle := h.own.count_le x
    rw [Kernel.frees] at hle
    rw [count_append, count_append]
    omega

theorem Sound.getnewbuf_buf (h : Sound quiet waits loose cur k Q V) (hx : (k.buf x).busy) :
    k.getnewbuf.2.buf x = k.buf x := by
  refine k.getnewbufLoop_of_not_mem fun hmem => ?_
  have hfree : (k.buf x).busy = false := by
    rcases mem_append.1 hmem with hmem | hmem <;> exact h.own.busy_of_mem hmem
  exact absurd (hfree.symm.trans hx) Bool.false_ne_true

/-- A new buffer becomes one of a block, of no bytes yet. -/
theorem Sound.assign {vp size : ℕ} {blkno : ℤ} (h : Sound quiet waits loose cur k (b :: Q) V)
    (hnew : New (k.buf b)) (hrng : InRange blkno size) (hnone : ∀ x ≠ b, ¬k.Is x vp blkno) :
    Sound quiet waits loose cur (k.assign b vp blkno) (b :: Q) V := by
  have hina := h.inactive mem_cons_self
  have hbuf := k.assign_buf b vp blkno
  have hempty : Emptied k (k.assign b vp blkno) b := .of_sub fun _ => id
  refine ⟨h.own.update hbuf (fun _ => rfl) rfl rfl rfl rfl, h.unique.assign hnone, ?_,
    h.held_of (h.not_loose mem_cons_self) hbuf⟩
  have hcov : ∀ f : Buf, f.b_bcount = 0 → ∀ a, ¬Covers f a := by
    rintro f hf a ⟨hlow, hhigh⟩
    rw [hf] at hhigh
    omega
  refine h.coherent.replace hbuf (hempty.empties h.coherent.toShape rfl) (fun _ _ => .inl rfl)
    (fun hd => absurd hd (h.coherent.clean hnew.done hina)) (h.coherent.plain b)
    (Nat.zero_le _) (fun _ => rfl) (fun hd => absurd (hnew.delwri.symm.trans hd) Bool.false_ne_true)
    (fun ha => absurd (hina.symm.trans ha) Bool.false_ne_true) (fun _ _ => ?_)
    (fun _ _ _ _ _ a ha => absurd ha (hcov _ rfl a)) fun _ _ _ _ a ha => absurd ha (hcov _ rfl a)
  have hmod : blkno % RND < RND := Int.emod_lt_of_pos _ (by decide)
  exact ⟨hrng.nonneg, rfl, by simpa [btodb] using hmod.le⟩

end Uwisc.Bio
