import Uwisc.Sys.Bio.Ops

/-!
# Buffers of other sizes

* `Sound.invalid`: a buffer that is in the way is dropped;
* `Sound.resize`, `Sound.shrink`, `Sound.grow`: the ends of `allocbuf`, and its loop. The buffer may
  have other bytes then if it is not valid (`Resizable`), and no other buffer has them (`Clear`);
* `Sound.iodone`: the driver is done with a transfer.
-/

namespace Uwisc.Bio

open Function List

variable {n : ℕ} {k k' : Kernel n} {cur : ℕ → ℤ → UInt8} {quiet waits : ℕ → List (Fin n)}
  {loose Q V : List (Fin n)} {b bp tp ep x : Fin n} {f : Buf} {size : ℕ}

/-- A buffer that is not dirty is of no block any more. -/
theorem Sound.invalid (h : Sound quiet waits loose cur k (b :: Q) V)
    (hdel : (k.buf b).delwri = false) :
    Sound quiet waits loose cur (k.modify b fun b => { b with inval := true }) (b :: Q) V := by
  have hina := h.inactive mem_cons_self
  have hcln : ∀ f : Buf, f.delwri = (k.buf b).delwri → f.active = (k.buf b).active → ¬Dirty f := by
    rintro f hd ha (h | h)
    · exact absurd ((hd.trans hdel).symm.trans h) Bool.false_ne_true
    · exact absurd ((ha.trans hina).symm.trans h.1) Bool.false_ne_true
  have hof : ∀ vp, ¬Of { k.buf b with inval := true } vp := by
    rintro vp ⟨-, hinv⟩
    exact Bool.noConfusion hinv
  have hemp : Emptied k (k.modify b fun b => { b with inval := true }) b := .of_sub fun _ => id
  refine ⟨h.own.modify b _ rfl rfl rfl rfl, h.unique.keeps (.modify k b _ (.inl rfl)), ?_,
    h.held_of (h.not_loose mem_cons_self) rfl⟩
  exact h.coherent.replace rfl (hemp.empties h.coherent.toShape rfl) (fun _ _ => .inl rfl)
    (fun hd => absurd hd (hcln _ rfl rfl)) (h.coherent.plain b) (h.coherent.fits b)
    (fun hd => absurd hd (hcln _ rfl rfl)) (fun hd => absurd (hdel.symm.trans hd) Bool.false_ne_true)
    (fun ha => absurd (hina.symm.trans ha) Bool.false_ne_true) (fun vp h => absurd h (hof vp))
    (fun vp h => absurd h (hof vp)) fun vp h => absurd h (hof vp)

/-! ### Resizing -/

/-- The buffer may be made one of `size` bytes. -/
structure Resizable (b : Buf) (size : ℕ) : Prop where
  of : ∃ vp, Of b vp
  range : InRange b.b_blkno size
  delwri : b.delwri = false
  done : b.b_bcount < size → b.done = false

/-- No other buffer has the bytes that the buffer would have. -/
def Clear (k : Kernel n) (tp : Fin n) (size : ℕ) : Prop :=
  ∀ vp, Of (k.buf tp) vp → ∀ x ≠ tp, Of (k.buf x) vp → ∀ a,
    Covers { k.buf tp with b_bcount := size } a → ¬Covers (k.buf x) a

theorem Clear.recedes (h : Clear k tp size) (hr : Recedes k k')
    (hof : ∀ vp, Of (k'.buf tp) vp → Of (k.buf tp) vp)
    (hbno : (k'.buf tp).b_blkno = (k.buf tp).b_blkno) : Clear k' tp size := by
  intro vp hvp x hx hofx a ha hxa
  obtain ⟨hofx, hcov⟩ := hr x vp hofx
  refine h vp (hof vp hvp) x hx hofx a ?_ (hcov a hxa)
  rwa [Covers, hbno] at ha

/-- What makes a buffer of `b` that has `size` bytes. -/
structure Resized (b f : Buf) (size : ℕ) : Prop where
  error : f.error = b.error
  nocache : f.nocache = b.nocache
  vp : f.b_vp = b.b_vp
  inval : f.inval = b.inval
  blkno : f.b_blkno = b.b_blkno
  bcount : f.b_bcount = size
  bufsize : size ≤ f.b_bufsize
  addr : f.b_addr = b.b_addr
  done : f.done = b.done
  delwri : f.delwri = b.delwri
  active : f.active = b.active

theorem Coherent.resize (h : Coherent k cur loose) (hbuf : k'.buf = update k.buf tp f)
    (hfree : k'.bfreelist = k.bfreelist) (hdisk : k'.disk = k.disk)
    (hnot : tp ∉ k.bfreelist .empty) (hrdy : Resizable (k.buf tp) size)
    (hclr : (k.buf tp).b_bcount < size → Clear k tp size) (hf : Resized (k.buf tp) f size)
    (hina : (k.buf tp).active = false) : Coherent k' cur loose := by
  have hcln : ∀ f : Buf, f.delwri = (k.buf tp).delwri → f.active = (k.buf tp).active → ¬Dirty f := by
    rintro f hd ha (h | h)
    · exact absurd ((hd.trans hrdy.delwri).symm.trans h) Bool.false_ne_true
    · exact absurd ((ha.trans hina).symm.trans h.1) Bool.false_ne_true
  have hof : ∀ vp, Of f vp → Of (k.buf tp) vp := fun vp hof => by
    rwa [Of, ← hf.vp, ← hf.inval]
  have hcov : ∀ a, Covers f a → Covers { k.buf tp with b_bcount := size } a := fun a ha => by
    rwa [Covers, hf.blkno, hf.bcount] at ha
  -- a buffer that is smaller has the bytes that it had
  have hsub : ¬(k.buf tp).b_bcount < size → ∀ a, Covers f a → Covers (k.buf tp) a := by
    intro hle a ha
    rw [Covers, hf.blkno, hf.bcount] at ha
    exact ⟨ha.1, by omega⟩
  refine h.replace hbuf (fun x hx => ?_) (fun _ _ => by rw [hdisk]; exact .inl rfl)
    (fun hd => absurd hd (hcln _ rfl rfl)) ?_ ?_ (fun hd => absurd hd (hcln _ hf.delwri hf.active))
    (fun hd => absurd (hrdy.delwri.symm.trans (hf.delwri ▸ hd)) Bool.false_ne_true)
    (fun ha => absurd (hina.symm.trans (hf.active ▸ ha)) Bool.false_ne_true) ?_ ?_ ?_
  · rw [hfree] at hx
    exact .inl ⟨fun heq => hnot (heq ▸ hx), hx⟩
  · rw [hf.error, hf.nocache]
    exact h.plain tp
  · rw [hf.bcount]
    exact hf.bufsize
  · rw [hf.blkno, hf.bcount]
    exact fun _ _ => hrdy.range
  · intro vp hfof y hy hofy a ha hya
    by_cases hlt : (k.buf tp).b_bcount < size
    · exact hclr hlt vp (hof vp hfof) y hy hofy a (hcov a ha) hya
    · exact hy (h.apart tp y vp a (hof vp hfof) hofy (hsub hlt a ha) hya)
  · intro vp hfof hdone hnot a ha
    rw [hf.done] at hdone
    have hlt : ¬(k.buf tp).b_bcount < size := fun hlt =>
      absurd ((hrdy.done hlt).symm.trans hdone) Bool.false_ne_true
    rw [byte, hf.addr, hf.blkno]
    exact h.good tp vp (hof vp hfof) (.inl hdone) hnot a (hsub hlt a ha)

theorem Sound.resize (h : Sound quiet waits loose cur k (tp :: Q) V)
    (hrdy : Resizable (k.buf tp) size) (hclr : (k.buf tp).b_bcount < size → Clear k tp size)
    (hsize : size ≤ (k.buf tp).b_bufsize) :
    Sound quiet waits loose cur (k.modify tp fun b => { b with b_bcount := size }) (tp :: Q) V := by
  have hmem : tp ∈ tp :: Q := mem_cons_self
  have hbusy := (h.own.owned (mem_append_left V (mem_append_left loose hmem))).1
  refine ⟨h.own.modify tp _ rfl rfl rfl rfl, h.unique.keeps (.flags k tp _ rfl rfl rfl), ?_,
    h.held_of (h.not_loose mem_cons_self) rfl⟩
  refine h.coherent.resize rfl rfl rfl (fun hmem => ?_) hrdy hclr
    ⟨rfl, rfl, rfl, rfl, rfl, rfl, hsize, rfl, rfl, rfl, rfl⟩ (h.inactive hmem)
  exact absurd ((h.own.busy_of_mem hmem).symm.trans hbusy) Bool.false_ne_true

/-- An empty buffer, when it gets the pages of another one. -/
def gotBuf (b : Buf) (addr : ℕ → UInt8) (excess : ℕ) : Buf :=
  Kernel.releasedBuf
    { b with busy := true, b_addr := addr, b_bufsize := excess, inval := true, b_bcount := 0 }

/-- Memory to which `size` bytes of other memory have been moved. -/
def moved (src : ℕ → UInt8) (i : ℕ) (dst : ℕ → UInt8) (j size : ℕ) : ℕ → UInt8 := fun a =>
  if j ≤ a ∧ a < j + size then src (a - j + i) else dst a

theorem Kernel.pagemove_eq {src dst : Fin n} {i j : ℕ} : k.pagemove src i dst j size =
    k.modify dst fun b => { b with b_addr := moved (k.buf src).b_addr i b.b_addr j size } := rfl

theorem Kernel.shrink_buf (k : Kernel n) (size sizealloc : ℕ) {eps : List (Fin n)}
    (hemp : k.bfreelist .empty = ep :: eps) (hne : ep ≠ tp) :
    ((k.shrink tp sizealloc).modify tp fun b => { b with b_bcount := size }).buf =
      update (k.modify tp fun b => { b with b_bcount := size, b_bufsize := sizealloc }).buf
        ep (gotBuf (k.buf ep)
          (moved (k.buf tp).b_addr sizealloc (k.buf ep).b_addr 0 ((k.buf tp).b_bufsize - sizealloc))
          ((k.buf tp).b_bufsize - sizealloc)) := by
  rw [Kernel.shrink, hemp]
  funext x
  by_cases hx : x = tp
  · subst hx
    rw [Kernel.modify_self, Kernel.brelse_buf, update_of_ne (Ne.symm hne),
      update_of_ne (Ne.symm hne)]
    simp [Kernel.pagemove, Kernel.modify, Ne.symm hne]
  · rw [Kernel.modify_of_ne _ _ _ hx, Kernel.brelse_buf]
    by_cases hxe : x = ep
    · subst hxe
      rw [update_self, update_self]
      simp [Kernel.pagemove_eq, Kernel.modify, hne, Ne.symm hne, gotBuf]
    · simp [Kernel.pagemove, Kernel.modify, hx, hxe]

/-- The buffer itself only has less memory. -/
theorem Kernel.shrink_self (k : Kernel n) (sizealloc : ℕ) (hnot : tp ∉ k.bfreelist .empty) :
    ∃ bufsize, (k.shrink tp sizealloc).buf tp = { k.buf tp with b_bufsize := bufsize } := by
  rw [Kernel.shrink]
  split
  · exact ⟨_, rfl⟩
  · next ep eps heq =>
    have hne : tp ≠ ep := by
      rintro rfl
      rw [heq] at hnot
      exact hnot mem_cons_self
    refine ⟨sizealloc, ?_⟩
    rw [Kernel.brelse_buf, update_of_ne hne]
    simp [Kernel.pagemove_eq, Kernel.modify, hne]

variable {sizealloc vp : ℕ} {a : ℤ}

/-- `allocbuf` makes a buffer smaller. -/
theorem Sound.shrink (h : Sound quiet waits loose cur k (tp :: Q) V)
    (hrdy : Resizable (k.buf tp) size) (hclr : (k.buf tp).b_bcount < size → Clear k tp size)
    (hsize : size ≤ sizealloc) (hle : sizealloc ≤ (k.buf tp).b_bufsize) :
    Sound quiet waits loose cur
      ((k.shrink tp sizealloc).modify tp fun b => { b with b_bcount := size }) (tp :: Q) V := by
  have hmem : tp ∈ tp :: Q := mem_cons_self
  have hbusy := (h.own.owned (mem_append_left V (mem_append_left loose hmem))).1
  have hown := (h.own.shrink tp sizealloc).modify tp (fun b => { b with b_bcount := size }) rfl rfl rfl rfl
  have hkps := (Keeps.shrink k tp sizealloc).trans
    (.flags _ tp (fun b => { b with b_bcount := size }) rfl rfl rfl)
  have hnot : tp ∉ k.bfreelist .empty := fun hmem =>
    absurd ((h.own.busy_of_mem hmem).symm.trans hbusy) Bool.false_ne_true
  have hloose := h.not_loose (b := tp) mem_cons_self
  cases heq : k.bfreelist .empty with
  | nil =>
    have hshr : k.shrink tp sizealloc = k := by rw [Kernel.shrink, heq]
    rw [hshr]
    exact h.resize hrdy hclr (hsize.trans hle)
  | cons ep eps =>
    have hmemep : ep ∈ k.bfreelist .empty := by
      rw [heq]
      exact mem_cons_self
    have hne : ep ≠ tp := fun heq => hnot (heq ▸ hmemep)
    have hfree := h.own.busy_of_mem hmemep
    have htkn := h.notavail hfree
    have hina : (k.buf ep).active = false := by simpa using htkn.inactive mem_cons_self
    have hbuf := k.shrink_buf size sizealloc heq hne
    -- the buffer first, and then the one that gets its pages
    have hmid : Coherent (k.modify tp fun b => { b with b_bcount := size, b_bufsize := sizealloc })
        cur loose :=
      h.coherent.resize rfl rfl rfl hnot hrdy hclr
        ⟨rfl, rfl, rfl, rfl, rfl, rfl, hsize, rfl, rfl, rfl, rfl⟩ (h.inactive hmem)
    have hep : (k.modify tp fun b => { b with b_bcount := size, b_bufsize := sizealloc }).buf ep =
        k.buf ep := k.modify_of_ne _ _ hne
    have hzero : (k.buf ep).b_bcount = 0 := by
      have hfits := h.coherent.fits ep
      rw [h.coherent.empty ep hmemep] at hfits
      exact Nat.le_zero.1 hfits
    have hof : ∀ addr excess vp, ¬Of (gotBuf (k.buf ep) addr excess) vp := by
      rintro addr excess vp ⟨-, hinv⟩
      simp [gotBuf, Kernel.releasedBuf] at hinv
    obtain ⟨herr, hnoc⟩ := h.coherent.plain ep
    refine ⟨hown, h.unique.keeps hkps, ?_, fun x hx => ?_⟩
    · refine hmid.replace hbuf ?_ ?_ ?_ ?_ (Nat.zero_le _) (fun _ => rfl) ?_ ?_
        (fun vp h => absurd h (hof _ _ vp)) (fun vp h => absurd h (hof _ _ vp))
        fun vp h => absurd h (hof _ _ vp)
      · intro x hx
        rw [Kernel.modify_bfreelist, Kernel.shrink, heq] at hx
        rcases Kernel.brelse_empty _ ep x hx with hx | ⟨rfl, hsize⟩
        · refine .inl ⟨fun heq => ?_, mem_of_mem_erase hx⟩
          subst heq
          have hbusy := (htkn.own.owned (mem_append_left V mem_cons_self)).1
          exact absurd ((htkn.own.busy_of_mem hx).symm.trans hbusy) Bool.false_ne_true
        · refine .inr ⟨rfl, ?_⟩
          rw [Kernel.modify_of_ne _ _ _ hne, Kernel.modify_self] at hsize
          exact hsize
      · intro vp a
        refine .inl ?_
        rw [Kernel.modify_disk, Kernel.shrink, heq]
        exact congrFun (congrFun (Kernel.brelse_disk _ ep) vp) a
      · rintro - vp - a ⟨hlow, hhigh⟩
        rw [hep, hzero] at hhigh
        rw [hep] at hlow
        omega
      · simp [gotBuf, Kernel.releasedBuf, herr]
      · exact fun hd => (h.coherent.delwri ep hd).1
      · exact fun ha => absurd (hina.symm.trans ha) Bool.false_ne_true
    · obtain ⟨vp, hvp⟩ := h.held x hx
      refine ⟨vp, ?_⟩
      rw [hbuf, update_of_ne, Kernel.modify_of_ne]
      · exact hvp
      · exact fun heq => hloose (heq ▸ hx)
      · exact fun heq => h.not_loose_of_free hfree (heq ▸ hx)

/-! ### More memory -/

/-- A buffer after it got more memory. -/
def grownBuf (b : Buf) (src : ℕ → UInt8) (i take : ℕ) : Buf :=
  { b with
    b_addr := moved src i b.b_addr b.b_bufsize take, b_bufsize := b.b_bufsize + take }

/-- A new buffer after `rest` of its memory is left. -/
def gaveBuf (b : Buf) (rest : ℕ) : Buf :=
  Kernel.releasedBuf
    { b with
      b_bufsize := rest, b_bcount := min b.b_bcount rest, inval := decide (rest = 0) || b.inval }

theorem grownBuf_stays (b : Buf) (src : ℕ → UInt8) (i take : ℕ) (hfits : b.b_bcount ≤ b.b_bufsize) :
    Stays b (grownBuf b src i take) := by
  refine ⟨rfl, rfl, rfl, rfl, rfl, rfl, Nat.le_add_right _ _, fun a ha => ?_⟩
  exact if_neg fun h => by omega

/-- What `grow` takes from the new buffer, and what it leaves. -/
theorem Kernel.grow_buf (k : Kernel n) (sizealloc : ℕ) (hne : b ≠ tp) : ∃ take rest,
    take + rest = (k.buf b).b_bufsize ∧ (k.grow tp b sizealloc).buf =
      update (k.modify tp fun x => grownBuf x (k.buf b).b_addr rest take).buf b
        (gaveBuf (k.buf b) rest) := by
  refine ⟨min (sizealloc - (k.buf tp).b_bufsize) (k.buf b).b_bufsize, (k.buf b).b_bufsize -
    min (sizealloc - (k.buf tp).b_bufsize) (k.buf b).b_bufsize, by omega, ?_⟩
  rw [Kernel.grow]
  generalize min (sizealloc - (k.buf tp).b_bufsize) (k.buf b).b_bufsize = take
  generalize (k.buf b).b_bufsize - take = rest
  rw [Kernel.brelse_buf]
  funext x
  by_cases hx : x = b
  · subst hx
    rw [update_self, update_self, gaveBuf]
    split_ifs with hrs
    · simp [Kernel.pagemove_eq, Kernel.modify, hne, hrs, bremhash]
    · simp [Kernel.pagemove_eq, Kernel.modify, hne, hrs]
  · rw [update_of_ne hx, update_of_ne hx]
    by_cases hxt : x = tp
    · subst hxt
      split_ifs
      · simp [Kernel.pagemove_eq, Kernel.modify, hx, grownBuf, bremhash]
      · simp [Kernel.pagemove_eq, Kernel.modify, hx, grownBuf]
    · split_ifs
      · simp [Kernel.pagemove_eq, Kernel.modify, hx, hxt, bremhash]
      · simp [Kernel.pagemove_eq, Kernel.modify, hx, hxt]

theorem Kernel.grow_empty (hne : b ≠ tp) :
    ∀ x ∈ (k.grow tp b sizealloc).bfreelist .empty, x ∈ k.bfreelist .empty ∨
      x = b ∧ ((k.grow tp b sizealloc).buf b).b_bufsize = 0 := by
  intro x hx
  rw [Kernel.grow] at hx ⊢
  rcases Kernel.brelse_empty _ b x hx with hx | ⟨rfl, hsize⟩
  · refine .inl ?_
    split_ifs at hx
    · exact hx
    · exact hx
  · refine .inr ⟨rfl, ?_⟩
    rw [Kernel.brelse_buf, update_self]
    exact hsize

/-- `allocbuf` makes a buffer larger, with memory of a new one. -/
theorem Sound.grow (h : Sound quiet waits loose cur k (b :: tp :: Q) V)
    (hnew : New (k.buf b)) :
    Sound quiet waits loose cur (k.grow tp b sizealloc) (tp :: Q) V := by
  have hne : b ≠ tp := fun heq =>
    (nodup_cons.1 h.own.nodup).1 (heq ▸ mem_cons_self)
  have hina := h.inactive mem_cons_self
  have hnotb := h.not_loose (b := b) mem_cons_self
  have hnott := h.not_loose (b := tp) (mem_cons_of_mem _ mem_cons_self)
  have hnotis : ∀ vp blkno, ¬k.Is b vp blkno := by
    rintro vp blkno ⟨-, hvp, -⟩
    cases hnew.vp.symm.trans hvp
  obtain ⟨take, rest, hsum, hbuf⟩ := k.grow_buf sizealloc hne
  have hsty := grownBuf_stays (k.buf tp) (k.buf b).b_addr rest take (h.coherent.fits tp)
  have hmid : Coherent (k.modify tp fun x => grownBuf x (k.buf b).b_addr rest take) cur loose := by
    refine h.coherent.keep (f := grownBuf (k.buf tp) (k.buf b).b_addr rest take) rfl
      (fun x hx => ?_) rfl hsty id id (fun hd => ⟨hd, (h.coherent.delwri tp hd).1⟩)
      fun ha => ?_
    · refine .inl ⟨fun heq => ?_, hx⟩
      subst heq
      have hbusy := (h.own.owned (mem_append_left V (mem_cons_of_mem _ mem_cons_self))).1
      exact absurd ((h.own.busy_of_mem hx).symm.trans hbusy) Bool.false_ne_true
    · exact h.coherent.active tp ha
  have hb : (k.modify tp fun x => grownBuf x (k.buf b).b_addr rest take).buf b = k.buf b :=
    k.modify_of_ne _ _ hne
  have hcln := h.coherent.clean hnew.done hina
  have hnot : ¬Dirty (gaveBuf (k.buf b) rest) := by
    rintro (hd | hw)
    · exact absurd (hnew.delwri.symm.trans hd) Bool.false_ne_true
    · exact absurd (hina.symm.trans hw.1) Bool.false_ne_true
  have hof : ∀ vp, ¬Of (gaveBuf (k.buf b) rest) vp := by
    rintro vp ⟨hvp, -⟩
    rw [gaveBuf, Kernel.releasedBuf] at hvp
    dsimp only at hvp
    rw [hnew.vp, ite_self] at hvp
    cases hvp
  obtain ⟨herr, hnoc⟩ := h.coherent.plain b
  refine ⟨h.own.grow tp sizealloc, h.unique.keeps (.grow k tp b sizealloc hnotis), ?_, fun x hx => ?_⟩
  · refine hmid.replace hbuf (fun x hx => ?_) (fun vp a => .inl ?_) (fun hd => ?_) ?_ (min_le_right _ _)
      (fun hd => absurd hd hnot) (fun hd => absurd (.inl hd) hnot)
      (fun ha => absurd (hina.symm.trans ha) Bool.false_ne_true) (fun vp h => absurd h (hof vp))
      (fun vp h => absurd h (hof vp)) fun vp h => absurd h (hof vp)
    · by_cases hxb : x = b
      · subst hxb
        refine .inr ⟨rfl, ?_⟩
        rcases k.grow_empty hne x hx with hmem | ⟨-, hsize⟩
        · have hbusy := (h.own.owned (mem_append_left V mem_cons_self)).1
          exact absurd ((h.own.busy_of_mem hmem).symm.trans hbusy) Bool.false_ne_true
        · rwa [hbuf, update_self] at hsize
      · exact .inl ⟨hxb, (k.grow_empty hne x hx).resolve_right fun h => hxb h.1⟩
    · rw [Kernel.grow]
      refine congrFun (congrFun ((Kernel.brelse_disk _ b).trans ?_) vp) a
      split_ifs <;> rfl
    · rw [hb] at hd
      exact absurd hd hcln
    · simp [gaveBuf, Kernel.releasedBuf, herr]
  · obtain ⟨vp, hvp⟩ := h.held x hx
    refine ⟨vp, ?_⟩
    rw [hbuf, update_of_ne, Kernel.modify_of_ne]
    · exact hvp
    · exact fun heq => hnott (heq ▸ hx)
    · exact fun heq => hnotb (heq ▸ hx)

theorem Recedes.grow (hne : b ≠ tp) (hnew : New (k.buf b)) :
    Recedes k (k.grow tp b sizealloc) := by
  obtain ⟨take, rest, -, hbuf⟩ := k.grow_buf sizealloc hne
  have hmid : Recedes k (k.modify tp fun x => grownBuf x (k.buf b).b_addr rest take) :=
    .of_update rfl fun _ hof => ⟨hof, rfl, le_rfl⟩
  refine hmid.trans (.of_update hbuf ?_)
  rintro vp ⟨hvp, -⟩
  rw [gaveBuf, Kernel.releasedBuf] at hvp
  dsimp only at hvp
  rw [hnew.vp, ite_self] at hvp
  cases hvp

/-! ### The driver -/

/-- The memory of a buffer after a transfer. -/
def transferred (disk : ℕ → ℤ → UInt8) (b : Buf) : ℕ → UInt8 :=
  match b.b_vp with
  | none => b.b_addr
  | some vp =>
    if b.read then fun i =>
      if i < b.b_bcount then disk vp (b.b_blkno * DEV_BSIZE + i) else b.b_addr i
    else b.b_addr

/-- A buffer when the driver is done. -/
def doneBuf (b : Buf) (addr : ℕ → UInt8) : Buf :=
  if b.async then Kernel.releasedBuf { b with b_addr := addr, active := false, done := true }
  else { b with b_addr := addr, active := false, done := true, wanted := false }

theorem Kernel.transfer_buf (k : Kernel n) (b : Fin n) : (k.transfer b).buf =
    update k.buf b { k.buf b with b_addr := transferred k.disk (k.buf b) } := by
  have hsame : transferred k.disk (k.buf b) = (k.buf b).b_addr →
      k.buf = update k.buf b { k.buf b with b_addr := transferred k.disk (k.buf b) } := by
    intro haddr
    rw [haddr]
    exact (update_eq_self b k.buf).symm
  rw [Kernel.transfer]
  dsimp only
  split
  · next hvp => exact hsame (by rw [transferred, hvp])
  · next vp hvp =>
    split_ifs with hread
    · have haddr : transferred k.disk (k.buf b) = fun i =>
          if i < (k.buf b).b_bcount then k.disk vp ((k.buf b).b_blkno * DEV_BSIZE + i)
          else (k.buf b).b_addr i := by
        rw [transferred, hvp]
        exact if_pos hread
      rw [haddr]
      rfl
    · refine hsame ?_
      rw [transferred, hvp]
      exact if_neg hread

theorem Kernel.transfer_disk (k : Kernel n) (b : Fin n) :
    (k.transfer b).disk = if (k.buf b).read then k.disk else write k.disk (k.buf b) := by
  rw [Kernel.transfer]
  dsimp only
  split
  · next hvp =>
    rw [write, hvp, ite_self]
  · next vp hvp =>
    split_ifs with hread
    · rfl
    · rw [write, hvp]
      rfl

theorem Kernel.biodone_buf (k : Kernel n) (b : Fin n) (f : Buf → Buf) :
    ((k.modify b f).biodone b).buf = update k.buf b (
      if (f (k.buf b)).async then Kernel.releasedBuf { f (k.buf b) with done := true }
      else { f (k.buf b) with done := true, wanted := false }) := by
  rw [Kernel.biodone, Kernel.modify_modify, Kernel.modify_self, comp_apply]
  split_ifs with hasy
  · rw [Kernel.brelse_buf, Kernel.modify_self]
    simp only [Kernel.modify, update_idem, comp_apply]
  · rw [Kernel.modify_modify]
    rfl

theorem Kernel.biodone_disk (k : Kernel n) (b : Fin n) : (k.biodone b).disk = k.disk := by
  rw [Kernel.biodone]
  split_ifs
  · exact Kernel.brelse_disk _ b
  · rfl

theorem Kernel.biodone_empty (k : Kernel n) (b : Fin n) : Emptied k (k.biodone b) b := by
  rw [Kernel.biodone]
  split_ifs
  · intro x hx
    have hemp := Kernel.brelse_empty _ b x hx
    rwa [Kernel.modify_self] at hemp
  · exact .of_sub fun _ => id

theorem Kernel.iodone_buf (k : Kernel n) (b : Fin n) : (k.iodone b false).buf =
    update k.buf b (doneBuf (k.buf b) (transferred k.disk (k.buf b))) := by
  rw [Kernel.iodone, if_neg Bool.false_ne_true, Kernel.biodone_buf, Kernel.transfer_buf,
    update_self, update_idem, doneBuf]

theorem Kernel.iodone_disk (k : Kernel n) (b : Fin n) : (k.iodone b false).disk =
    if (k.buf b).read then k.disk else write k.disk (k.buf b) := by
  rw [Kernel.iodone, if_neg Bool.false_ne_true, Kernel.biodone_disk, Kernel.modify_disk,
    Kernel.transfer_disk]

theorem Kernel.iodone_empty (k : Kernel n) (b : Fin n) : Emptied k (k.iodone b false) b := by
  have hfree : (k.transfer b).bfreelist = k.bfreelist := by
    rw [Kernel.transfer]
    dsimp only
    split
    · rfl
    · split_ifs <;> rfl
  rw [Kernel.iodone, if_neg Bool.false_ne_true]
  intro x hx
  have hemp := Kernel.biodone_empty _ b x hx
  rw [Kernel.modify_bfreelist, hfree, Kernel.modify_self, Kernel.transfer_buf, update_self] at hemp
  exact hemp

/-- What a buffer is of does not change when the driver is done, and it is valid then. -/
structure Done (b f : Buf) : Prop where
  plain : f.error = false ∧ f.nocache = false
  vp : f.b_vp = b.b_vp
  inval : f.inval = b.inval
  blkno : f.b_blkno = b.b_blkno
  bcount : f.b_bcount = b.b_bcount
  bufsize : f.b_bufsize = b.b_bufsize
  delwri : f.delwri = b.delwri
  active : f.active = false

theorem doneBuf_done {b : Buf} (addr : ℕ → UInt8) (hpln : b.error = false ∧ b.nocache = false) :
    Done b (doneBuf b addr) ∧ (doneBuf b addr).b_addr = addr := by
  obtain ⟨herr, hnoc⟩ := hpln
  rw [doneBuf]
  split_ifs
  · refine ⟨⟨?_, ?_, ?_, rfl, rfl, rfl, rfl, rfl⟩, rfl⟩
    all_goals simp [Kernel.releasedBuf, herr, hnoc]
  · exact ⟨⟨⟨herr, hnoc⟩, rfl, rfl, rfl, rfl, rfl, rfl, rfl⟩, rfl⟩

theorem Done.of {b f : Buf} (h : Done b f) : Of f vp ↔ Of b vp := by
  rw [Of, Of, h.vp, h.inval]

theorem Done.covers {b f : Buf} (h : Done b f) : Covers f a ↔ Covers b a := by
  rw [Covers, Covers, h.blkno, h.bcount]

/-- A transfer: what the buffer has, and what the disk has, is what was last written. -/
theorem Coherent.transfer (h : Coherent k cur loose) (hb : (k.buf b).active) (hnot : b ∉ loose)
    (hof : Of (k.buf b) vp) (ha : Covers (k.buf b) a) :
    transferred k.disk (k.buf b) (a - (k.buf b).b_blkno * DEV_BSIZE).toNat = cur vp a ∧
      (k.iodone b false).disk vp a = cur vp a := by
  obtain ⟨hlow, hhigh⟩ := ha
  rw [Kernel.iodone_disk, transferred, hof.1]
  by_cases hread : (k.buf b).read
  · -- the disk has it, since no other buffer does
    have hdisk : k.disk vp a = cur vp a := by
      refine h.disk vp a fun x hofx hax hdty => ?_
      obtain rfl := h.apart b x vp a hof hofx ⟨hlow, hhigh⟩ hax
      rcases hdty with hd | hw
      · exact absurd ((h.active x hb).1.symm.trans hd) Bool.false_ne_true
      · exact absurd (hw.2.symm.trans hread) Bool.false_ne_true
    have hlt : (a - (k.buf b).b_blkno * DEV_BSIZE).toNat < (k.buf b).b_bcount := by omega
    have haddr : (k.buf b).b_blkno * DEV_BSIZE + ((a - (k.buf b).b_blkno * DEV_BSIZE).toNat : ℤ) = a := by
      omega
    simp only [hread, if_true, hlt, haddr]
    exact ⟨hdisk, hdisk⟩
  · have hgood := h.good b vp hof (.inr ⟨hb, Bool.eq_false_of_not_eq_true hread⟩) hnot a ⟨hlow, hhigh⟩
    simp only [if_neg hread]
    exact ⟨hgood, (write_of_covers hof.1 ⟨hlow, hhigh⟩).trans hgood⟩

theorem Sound.iodone (h : Sound quiet waits loose cur k Q V) (hb : (k.buf b).active) :
    Sound quiet waits loose cur (k.iodone b false) Q V := by
  have hnot : b ∉ loose := fun hmem =>
    absurd ((h.own.inactive (mem_append_right _ hmem)).symm.trans hb) Bool.false_ne_true
  have hbuf := k.iodone_buf b
  obtain ⟨hdone, haddr⟩ := doneBuf_done (transferred k.disk (k.buf b)) (h.coherent.plain b)
  obtain ⟨hdel, hof⟩ := h.coherent.active b hb
  have htra : ∀ vp a, Of (k.buf b) vp → Covers (k.buf b) a → _ := fun _ _ =>
    h.coherent.transfer hb hnot
  have hcln : ¬Dirty (doneBuf (k.buf b) (transferred k.disk (k.buf b))) := by
    rintro (hd | hw)
    · exact absurd ((hdone.delwri.trans hdel).symm.trans hd) Bool.false_ne_true
    · exact absurd (hdone.active.symm.trans hw.1) Bool.false_ne_true
  refine ⟨Tokens.iodone h.own hb false, h.unique.keeps (.iodone k b false), ?_, h.held_of hnot hbuf⟩
  refine h.coherent.replace hbuf ((k.iodone_empty b).empties h.coherent.toShape hdone.bufsize) ?_
    (fun _ vp hof a ha => (htra vp a hof ha).2) hdone.plain ?_ (fun hd => absurd hd hcln)
    (fun hd => absurd (.inl hd) hcln)
    (fun ha => absurd (hdone.active.symm.trans ha) Bool.false_ne_true) ?_ ?_ ?_
  · intro vp a
    by_cases hcov : (k.buf b).b_vp = some vp ∧ Covers (k.buf b) a
    · obtain ⟨hvp, ha⟩ := hcov
      have hne : (k.buf b).b_bcount ≠ 0 := fun hzero => by
        obtain ⟨hlow, hhigh⟩ := ha
        rw [hzero] at hhigh
        omega
      obtain ⟨v, hv⟩ := hof hne
      obtain rfl : v = vp := Option.some.inj (hv.1.symm.trans hvp)
      exact .inr (htra v a hv ha).2
    · refine .inl ?_
      rw [Kernel.iodone_disk]
      split_ifs
      · rfl
      · exact write_of_not hcov
  · rw [hdone.bcount, hdone.bufsize]
    exact h.coherent.fits b
  · intro vp hofb
    rw [hdone.blkno, hdone.bcount]
    exact h.coherent.range b vp (hdone.of.1 hofb)
  · intro vp hofb x hx hofx a ha hax
    exact hx (h.coherent.apart b x vp a (hdone.of.1 hofb) hofx (hdone.covers.1 ha) hax)
  · intro vp hofb _ _ a ha
    rw [byte, haddr, hdone.blkno]
    exact (htra vp a (hdone.of.1 hofb) (hdone.covers.1 ha)).1

theorem Recedes.iodone (h : Sound quiet waits loose cur k Q V) : Recedes k (k.iodone b false) := by
  obtain ⟨hdone, -⟩ := doneBuf_done (transferred k.disk (k.buf b)) (h.coherent.plain b)
  exact .of_update (k.iodone_buf b) fun vp hof => ⟨hdone.of.1 hof, hdone.blkno, hdone.bcount.le⟩

end Uwisc.Bio
