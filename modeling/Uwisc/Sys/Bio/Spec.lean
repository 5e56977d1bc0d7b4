import Uwisc.Sys.Bio.Proc

/-!
# What the functions of the buffer cache do

* `frees`: on how many free lists a buffer is;
* `brelse_buf`, `frees_brelse`: what a release does to the buffer;
* `bwrite_eq`, `startRead_eq`: what the driver gets.
-/

namespace Uwisc.Bio

open Function List

namespace Kernel

variable {n : ℕ} (k : Kernel n) (bp x : Fin n) (q : Bq) (f : Buf → Buf)

/-- On how many free lists the buffer is. -/
def frees (k : Kernel n) (bp : Fin n) : ℕ :=
  (k.bfreelist .locked).count bp + (k.bfreelist .lru).count bp + (k.bfreelist .age).count bp +
    (k.bfreelist .empty).count bp

@[simp] theorem modify_self : (k.modify bp f).buf bp = f (k.buf bp) := update_self _ _ _

theorem modify_of_ne {x : Fin n} (h : x ≠ bp) : (k.modify bp f).buf x = k.buf x :=
  update_of_ne h _ _

@[simp] theorem modify_bfreelist : (k.modify bp f).bfreelist = k.bfreelist := rfl

@[simp] theorem modify_chain : (k.modify bp f).chain = k.chain := rfl

@[simp] theorem modify_disk : (k.modify bp f).disk = k.disk := rfl

@[simp] theorem frees_modify : (k.modify bp f).frees x = k.frees x := rfl

@[simp] theorem sleep_buf (p : ℕ) (chan : Wchan n) : (k.sleep p chan).buf = k.buf := rfl

@[simp] theorem binshash_buf (dp : Chain) : (k.binshash bp dp).buf = k.buf := rfl

/-- Two changes of one buffer are one. -/
theorem modify_modify (g : Buf → Buf) : (k.modify bp f).modify bp g = k.modify bp (g ∘ f) := by
  simp only [modify, update_self, update_idem, comp_apply]

theorem frees_bremfree_self (h : k.frees bp = 1) : (k.bremfree bp).frees bp = 0 := by
  simp only [frees] at h
  simp only [frees, bremfree, count_erase_self]
  omega

theorem frees_bremfree_of_ne {x : Fin n} (h : x ≠ bp) : (k.bremfree bp).frees x = k.frees x := by
  simp only [frees, bremfree, count_erase_of_ne h]

theorem frees_binsheadfree :
    (k.binsheadfree bp q).frees x = k.frees x + if bp = x then 1 else 0 := by
  cases q <;> simp [frees, binsheadfree, count_cons] <;> omega

theorem frees_binstailfree :
    (k.binstailfree bp q).frees x = k.frees x + if bp = x then 1 else 0 := by
  cases q <;> simp [frees, binstailfree, count_append, count_cons] <;> omega

theorem frees_stick : (k.stick bp).frees x = k.frees x + if bp = x then 1 else 0 := by
  simp only [stick, frees_modify, apply_ite fun k : Kernel n => k.frees x, frees_binsheadfree,
    frees_binstailfree, ite_self]

/-- What a release changes but for the lists. -/
theorem stick_buf : (k.stick bp).buf = update k.buf bp { k.buf bp with
    wanted := false, busy := false, async := false, age := false, nocache := false } := by
  rw [stick]
  split_ifs <;> rfl

@[simp] theorem stick_chain : (k.stick bp).chain = k.chain := by
  rw [stick]
  split_ifs <;> rfl

@[simp] theorem stick_disk : (k.stick bp).disk = k.disk := by
  rw [stick]
  split_ifs <;> rfl

/-- `brelse` up to where it sticks the buffer on a free list. -/
def unwanted (k : Kernel n) (bp : Fin n) : Kernel n :=
  let k := if (k.buf bp).wanted then k.wakeup (.buf bp) else k
  if k.wanted then { k with wanted := false }.wakeup .bfreelist else k

@[simp] theorem unwanted_buf : (k.unwanted bp).buf = k.buf := by
  rw [unwanted]
  split_ifs <;> rfl

@[simp] theorem unwanted_bfreelist : (k.unwanted bp).bfreelist = k.bfreelist := by
  rw [unwanted]
  split_ifs <;> rfl

@[simp] theorem unwanted_chain : (k.unwanted bp).chain = k.chain := by
  rw [unwanted]
  split_ifs <;> rfl

@[simp] theorem unwanted_disk : (k.unwanted bp).disk = k.disk := by
  rw [unwanted]
  split_ifs <;> rfl

/-- A buffer after its release. -/
def releasedBuf (b : Buf) : Buf :=
  { b with
    inval := b.inval || b.nocache
    error := b.error && !b.locked
    b_vp := if b.error && !b.locked then none else b.b_vp
    wanted := false, busy := false, async := false, age := false, nocache := false }

theorem brelse_eq : k.brelse bp = ((k.unwanted bp).modify bp fun b =>
    { b with
      inval := b.inval || b.nocache
      error := b.error && !b.locked
      b_vp := if b.error && !b.locked then none else b.b_vp }).stick bp := by
  change stick (
    let k := (k.unwanted bp).modify bp fun b => { b with inval := b.inval || b.nocache }
    if (k.buf bp).error then
      if (k.buf bp).locked then k.modify bp fun b => { b with error := false } else k.brelvp bp
    else k) bp = _
  generalize k.unwanted bp = k
  dsimp only
  rw [modify_self]
  congr 1
  cases herr : (k.buf bp).error <;> cases hloc : (k.buf bp).locked <;>
    simp [modify, brelvp, herr, hloc]

theorem brelse_buf : (k.brelse bp).buf = update k.buf bp (releasedBuf (k.buf bp)) := by
  rw [brelse_eq, stick_buf, modify_self, unwanted_buf]
  simp only [modify, unwanted_buf, update_idem]
  rfl

@[simp] theorem brelse_chain : (k.brelse bp).chain = k.chain := by
  rw [brelse_eq, stick_chain, modify_chain, unwanted_chain]

@[simp] theorem brelse_disk : (k.brelse bp).disk = k.disk := by
  rw [brelse_eq, stick_disk, modify_disk, unwanted_disk]

theorem frees_brelse : (k.brelse bp).frees x = k.frees x + if bp = x then 1 else 0 := by
  rw [brelse_eq, frees_stick, frees_modify, frees, unwanted_bfreelist]
  rfl

/-! ### The other functions -/

@[simp] theorem notavail_buf :
    (k.notavail bp).buf = update k.buf bp { k.buf bp with busy := true } := rfl

theorem frees_notavail_self (h : k.frees bp = 1) : (k.notavail bp).frees bp = 0 :=
  frees_bremfree_self k bp h

theorem frees_notavail_of_ne {x : Fin n} (h : x ≠ bp) : (k.notavail bp).frees x = k.frees x :=
  frees_bremfree_of_ne k bp h

/-- A buffer that is written. -/
def writtenBuf (b : Buf) : Buf :=
  { b with
    read := false, done := false, error := false, delwri := false, active := true
    age := (b.async && b.delwri) || b.age }

theorem bwrite_eq : k.bwrite bp = k.modify bp writtenBuf := by
  rw [bwrite, strategy]
  cases hasy : (k.buf bp).async <;> cases hdel : (k.buf bp).delwri <;>
    simp [modify, writtenBuf, hasy, hdel]

theorem bawrite_eq : k.bawrite bp = k.modify bp fun b => writtenBuf { b with async := true } := by
  rw [bawrite, bwrite_eq, modify_modify]
  rfl

theorem startRead_eq (async : Bool) : k.startRead bp async = k.modify bp fun b =>
    { b with read := true, async := b.async || async, active := true } := by
  rw [startRead, strategy, modify_modify]
  rfl

theorem assign_buf (vp : ℕ) (blkno : ℤ) : (k.assign bp vp blkno).buf =
    update k.buf bp { k.buf bp with b_bcount := 0, b_vp := some vp, b_blkno := blkno } := by
  simp [assign, bfree, bsetvp, bremhash, binshash, modify]

theorem assignEmpty_buf : (k.assignEmpty bp).buf =
    update k.buf bp { k.buf bp with inval := true, b_bcount := 0, b_vp := none } := by
  simp [assignEmpty, bfree, brelvp, bremhash, binshash, modify]

end Kernel

/-!
### One buffer for a block

Only `assign` makes a buffer one of another block: the other functions may at most take a buffer from
its block (`Keeps`). So there is one buffer for a block, if there was none when `assign` made it one
(`Unique.assign`).
-/

variable {n : ℕ} {k k' k'' : Kernel n} {b x : Fin n} {vp : ℕ} {blkno : ℤ}

/-- A buffer of a block is on its hash chain, and is the only one. -/
structure Unique (k : Kernel n) : Prop where
  hashed : ∀ b vp blkno, k.Is b vp blkno → b ∈ k.chain (BUFHASH vp blkno)
  unique : ∀ b x vp blkno, k.Is b vp blkno → k.Is x vp blkno → x = b

/-- No buffer becomes one of another block. -/
structure Keeps (k k' : Kernel n) : Prop where
  is : ∀ b vp blkno, k'.Is b vp blkno → k.Is b vp blkno
  chain : ∀ b vp blkno, k'.Is b vp blkno → ∀ dp, b ∈ k.chain dp → b ∈ k'.chain dp

theorem Keeps.refl (k : Kernel n) : Keeps k k := ⟨fun _ _ _ h => h, fun _ _ _ _ _ h => h⟩

theorem Keeps.trans (h : Keeps k k') (h' : Keeps k' k'') : Keeps k k'' :=
  ⟨fun b vp blkno hb => h.is b vp blkno (h'.is b vp blkno hb), fun b vp blkno hb dp hmem =>
    h'.chain b vp blkno hb dp (h.chain b vp blkno (h'.is b vp blkno hb) dp hmem)⟩

theorem Unique.keeps (h : Unique k) (hk : Keeps k k') : Unique k' where
  hashed b vp blkno hb := hk.chain b vp blkno hb _ (h.hashed b vp blkno (hk.is b vp blkno hb))
  unique b x vp blkno hb hx := h.unique b x vp blkno (hk.is b vp blkno hb) (hk.is x vp blkno hx)

theorem Keeps.of_same (hbuf : k'.buf = k.buf) (hchn : k'.chain = k.chain) : Keeps k k' := by
  refine ⟨fun b vp blkno h => ?_, fun b vp blkno _ dp hmem => by rwa [hchn]⟩
  rwa [Kernel.Is, hbuf] at h

/-- The fields that say of which block a buffer is do not change, or it is no longer of any. -/
def KeepsBuf (b b' : Buf) : Prop :=
  b'.inval = true ∨ b'.b_vp = none ∨ b'.inval = b.inval ∧ b'.b_vp = b.b_vp ∧ b'.b_blkno = b.b_blkno

/-- A change of one buffer. -/
theorem Keeps.of_update {f : Buf} (hbuf : k'.buf = update k.buf b f)
    (hchn : k'.chain = k.chain) (hf : KeepsBuf (k.buf b) f) : Keeps k k' := by
  have his : ∀ x vp blkno, k'.Is x vp blkno → k.Is x vp blkno := by
    rintro x vp blkno ⟨hblk, hvp, hinv⟩
    by_cases hx : x = b
    · subst hx
      rw [hbuf, update_self] at hblk hvp hinv
      rcases hf with hf | hf | ⟨hfin, hfvp, hfblk⟩
      · exact absurd (hinv.symm.trans hf) Bool.false_ne_true
      · rw [hf] at hvp
        cases hvp
      · exact ⟨hfblk ▸ hblk, hfvp ▸ hvp, hfin ▸ hinv⟩
    · rw [hbuf, update_of_ne hx] at hblk hvp hinv
      exact ⟨hblk, hvp, hinv⟩
  refine ⟨his, fun x vp blkno _ dp hmem => ?_⟩
  rwa [hchn]

theorem Keeps.modify (k : Kernel n) (b : Fin n) (f : Buf → Buf) (hf : KeepsBuf (k.buf b) (f (k.buf b))) :
    Keeps k (k.modify b f) := .of_update rfl rfl hf

/-- A change of the fields that do not matter. -/
theorem Keeps.flags (k : Kernel n) (b : Fin n) (f : Buf → Buf) (hinv : (f (k.buf b)).inval = (k.buf b).inval)
    (hvp : (f (k.buf b)).b_vp = (k.buf b).b_vp) (hblk : (f (k.buf b)).b_blkno = (k.buf b).b_blkno) :
    Keeps k (k.modify b f) := .modify k b f (.inr (.inr ⟨hinv, hvp, hblk⟩))

theorem Keeps.notavail (k : Kernel n) (b : Fin n) : Keeps k (k.notavail b) :=
  .of_update (k.notavail_buf b) rfl (.inr (.inr ⟨rfl, rfl, rfl⟩))

theorem Keeps.brelse (k : Kernel n) (b : Fin n) : Keeps k (k.brelse b) := by
  refine .of_update (k.brelse_buf b) (k.brelse_chain b) ?_
  rw [KeepsBuf, Kernel.releasedBuf]
  cases (k.buf b).nocache <;> cases (k.buf b).error <;> cases (k.buf b).locked <;> simp

theorem Keeps.bwrite (k : Kernel n) (b : Fin n) : Keeps k (k.bwrite b) := by
  rw [k.bwrite_eq]
  exact .flags k b _ rfl rfl rfl

theorem Keeps.bawrite (k : Kernel n) (b : Fin n) : Keeps k (k.bawrite b) := by
  rw [k.bawrite_eq]
  exact .flags k b _ rfl rfl rfl

theorem Keeps.startRead (k : Kernel n) (b : Fin n) (async : Bool) : Keeps k (k.startRead b async) := by
  rw [k.startRead_eq]
  exact .flags k b _ rfl rfl rfl

theorem Keeps.getnewbufLoop (k : Kernel n) (l : List (Fin n)) : Keeps k (k.getnewbufLoop l).2 := by
  induction l generalizing k with
  | nil => exact .of_same rfl rfl
  | cons b l ih =>
    rw [Kernel.getnewbufLoop]
    split_ifs
    · exact ((Keeps.notavail k b).trans (.bawrite _ b)).trans (ih _)
    · rw [Kernel.brelvp, Kernel.modify_modify]
      exact (Keeps.notavail k b).trans (.modify _ b _ (.inr (.inl rfl)))

theorem Keeps.bflushLoop (k : Kernel n) (v : Option ℕ) (l : List (Fin n)) :
    Keeps k (k.bflushLoop v l) := by
  induction l generalizing k with
  | nil => exact .refl k
  | cons b l ih =>
    rw [Kernel.bflushLoop]
    split_ifs
    · exact ((Keeps.notavail k b).trans (.bawrite _ b)).trans (ih _)
    · exact ih k

/-- A buffer of no block is put on another hash chain. -/
theorem Keeps.rehash (k : Kernel n) (b : Fin n) (dp : Chain) (h : ∀ vp blkno, ¬k.Is b vp blkno) :
    Keeps k ((k.bremhash b).binshash b dp) := by
  refine ⟨fun x vp blkno hx => hx, fun x vp blkno hx dp' hmem => ?_⟩
  have hne : x ≠ b := fun heq => h vp blkno (heq ▸ hx)
  have herase : x ∈ (k.chain dp').erase b := (mem_erase_of_ne hne).2 hmem
  change x ∈ update (k.bremhash b).chain dp _ dp'
  by_cases hdp : dp' = dp
  · subst hdp
    rw [update_self]
    exact mem_cons_of_mem _ herase
  · rwa [update_of_ne hdp]

theorem Keeps.assignEmpty (k : Kernel n) (b : Fin n) : Keeps k (k.assignEmpty b) := by
  rw [Kernel.assignEmpty, Kernel.bfree, Kernel.brelvp]
  refine Keeps.trans (Keeps.trans (Keeps.trans (Keeps.modify k b _ (.inl rfl)) (.flags _ b _ rfl rfl rfl))
    (.rehash _ b _ ?_)) (.modify _ b _ (.inr (.inl rfl)))
  rintro vp blkno ⟨-, -, hinv⟩
  rw [Kernel.modify_modify, Kernel.modify_self] at hinv
  exact Bool.noConfusion hinv

theorem Keeps.shrink (k : Kernel n) (tp : Fin n) (sizealloc : ℕ) : Keeps k (k.shrink tp sizealloc) := by
  rw [Kernel.shrink]
  split
  · exact .refl k
  · next ep _ _ =>
    exact (((((Keeps.notavail k ep).trans (.flags _ ep _ rfl rfl rfl)).trans
      (.modify _ ep _ (.inl rfl))).trans (.flags _ tp _ rfl rfl rfl))).trans (.brelse _ ep)

theorem Keeps.grow (k : Kernel n) (tp b : Fin n) (sizealloc : ℕ)
    (hb : ∀ vp blkno, ¬k.Is b vp blkno) : Keeps k (k.grow tp b sizealloc) := by
  have hmvd : ∀ i j size take, Keeps k (((k.pagemove b i tp j take).modify tp fun b =>
      { b with b_bufsize := size }).modify b fun b =>
        { b with b_bufsize := i, b_bcount := min b.b_bcount i }) := fun i j size take =>
    ((Keeps.flags k tp _ rfl rfl rfl).trans (.flags _ tp _ rfl rfl rfl)).trans
      (.flags _ b _ rfl rfl rfl)
  rw [Kernel.grow]
  refine Keeps.trans ?_ (.brelse _ b)
  split_ifs
  · refine ((hmvd _ _ _ _).trans (.rehash _ b _ fun vp blkno h => ?_)).trans (.modify _ b _ (.inl rfl))
    exact hb vp blkno ((hmvd _ _ _ _).is b vp blkno h)
  · exact hmvd _ _ _ _

theorem Keeps.biodone (k : Kernel n) (b : Fin n) : Keeps k (k.biodone b) := by
  rw [Kernel.biodone]
  split_ifs
  · exact (Keeps.flags k b _ rfl rfl rfl).trans (.brelse _ b)
  · rw [Kernel.modify_modify]
    exact (Keeps.flags k b _ rfl rfl rfl).trans (.of_same rfl rfl)

theorem Keeps.transfer (k : Kernel n) (b : Fin n) : Keeps k (k.transfer b) := by
  rw [Kernel.transfer]
  split
  · exact .refl k
  · split_ifs
    · exact .flags k b _ rfl rfl rfl
    · exact .of_same rfl rfl

theorem Keeps.iodone (k : Kernel n) (b : Fin n) (error : Bool) : Keeps k (k.iodone b error) := by
  have hact : ∀ k : Kernel n, Keeps k (k.modify b fun b => { b with active := false }) :=
    fun k => .flags k b _ rfl rfl rfl
  rw [Kernel.iodone]
  split_ifs
  · exact ((Keeps.flags k b _ rfl rfl rfl).trans (hact _)).trans (.biodone _ b)
  · exact ((Keeps.transfer k b).trans (hact _)).trans (.biodone _ b)

/-- What `getnewbuf` returns is of no block. -/
theorem getnewbufLoop_not_is {l : List (Fin n)} (h : (k.getnewbufLoop l).1 = some b) :
    ∀ vp blkno, ¬(k.getnewbufLoop l).2.Is b vp blkno := by
  induction l generalizing k with
  | nil => cases h
  | cons x l ih =>
    rw [Kernel.getnewbufLoop] at h ⊢
    split_ifs at h ⊢
    · exact ih h
    · obtain rfl : x = b := Option.some.inj h
      rintro vp blkno ⟨-, hvp, -⟩
      rw [Kernel.brelvp, Kernel.modify_modify, Kernel.modify_self] at hvp
      cases hvp

/-- A new buffer becomes one of a block that there was none of. -/
theorem Unique.assign (h : Unique k) (hnone : ∀ x ≠ b, ¬k.Is x vp blkno) :
    Unique (k.assign b vp blkno) := by
  have hbuf := k.assign_buf b vp blkno
  have hself : ∀ v blk, (k.assign b vp blkno).Is b v blk → v = vp ∧ blk = blkno := by
    rintro v blk ⟨hblk, hvp, -⟩
    rw [hbuf, update_self] at hblk hvp
    exact ⟨(Option.some.inj hvp).symm, hblk.symm⟩
  have hoth : ∀ x ≠ b, ∀ v blk, (k.assign b vp blkno).Is x v blk → k.Is x v blk := by
    rintro x hx v blk ⟨hblk, hvp, hinv⟩
    rw [hbuf, update_of_ne hx] at hblk hvp hinv
    exact ⟨hblk, hvp, hinv⟩
  constructor
  · intro x v blk hx
    change x ∈ update (k.bremhash b).chain (BUFHASH vp blkno) _ (BUFHASH v blk)
    by_cases hxb : x = b
    · subst hxb
      obtain ⟨rfl, rfl⟩ := hself v blk hx
      rw [update_self]
      exact mem_cons_self
    · have hmem : x ∈ (k.chain (BUFHASH v blk)).erase b :=
        (mem_erase_of_ne hxb).2 (h.hashed x v blk (hoth x hxb v blk hx))
      by_cases hdp : BUFHASH v blk = BUFHASH vp blkno
      · rw [hdp] at hmem ⊢
        rw [update_self]
        exact mem_cons_of_mem _ hmem
      · rwa [update_of_ne hdp]
  · intro x y v blk hx hy
    by_cases hxb : x = b
    · subst hxb
      obtain ⟨rfl, rfl⟩ := hself v blk hx
      by_contra hne
      exact hnone y hne (hoth y hne v blk hy)
    · by_cases hyb : y = b
      · subst hyb
        obtain ⟨rfl, rfl⟩ := hself v blk hy
        exact absurd (hoth x hxb v blk hx) (hnone x hxb)
      · exact h.unique x y v blk (hoth x hxb v blk hx) (hoth y hyb v blk hy)

/-- If the search does not find a buffer of a block, there is none. -/
theorem Unique.not_is (h : Unique k) (hfind : k.find vp blkno = none) : ¬k.Is x vp blkno := by
  intro hx
  have hnot := find?_eq_none.1 hfind x (h.hashed x vp blkno hx)
  exact hnot (decide_eq_true hx)

end Uwisc.Bio
