import Uwisc.Sys.Bio.Pages
import Uwisc.Sys.Bio.Run

/-!
# One process that uses the buffer cache

What holds of the buffer of a call, at each of the places where the process may be
(`Control.Ready`), with what was last written and what `bread` has been asked for. A dirty buffer is
not made larger (`Grows`).
-/

namespace Uwisc.Bio

open Function List

variable {n : ℕ} {s : State n} {k k' : Kernel n} {cur : ℕ → ℤ → UInt8} {b bp tp x : Fin n} {size : ℕ}

/-- What `bread` has been asked for: vnode, block and size. -/
abbrev Request := Option (ℕ × ℤ × ℕ)

variable {request : Request}

/-- The buffer is dirty, and `brealloc` would make it larger. -/
def Grows (b : Buf) (size : ℕ) : Prop := b.delwri = true ∧ b.b_bcount < size

/-- The caller of `getblk` has been asked for the block. -/
def Cont.Answers (request : Request) (vp : ℕ) (blkno : ℤ) (size : ℕ) : Cont n → Prop
  | .getblk => request = none
  | .bread => request = some (vp, blkno, size)
  | _ => False

/-- The caller of `brealloc` has been asked for a buffer of `size` bytes. -/
def Caller.Wants (request : Request) (size : ℕ) : Caller n → Prop
  | .hit c vp blkno => State.blkOf blkno = blkno ∧ InRange blkno size ∧ c.Answers request vp blkno size
  | .miss c vp blkno => State.blkOf blkno = blkno ∧ InRange blkno size ∧ c.Answers request vp blkno size
  | .geteblk => False
  | .brealloc => request = none

/-- The buffer is one of the block that `getblk` has been asked for. -/
def Caller.For (b : Buf) : Caller n → Prop
  | .hit _ vp blkno => Of b vp ∧ b.b_blkno = blkno
  | .miss _ vp blkno => Of b vp ∧ b.b_blkno = blkno
  | _ => True

/-- `brealloc` may make the buffer one of `size` bytes. -/
structure Caller.Prepared (request : Request) (c : Caller n) (b : Buf) (size : ℕ) : Prop where
  wants : c.Wants request size
  for_block : c.For b
  resizable : Resizable b size

def Writer.Ready (k : Kernel n) (request : Request) : Writer n → Prop
  | .bwrite => request = none
  | .brealloc c size => c.Wants request size
  | .overlap c bp size => c.Prepared request (k.buf bp) size ∧ (k.buf bp).done = false
  | .blkflush _ _ _ => request = none

/-- A buffer as `bread` returns it. -/
structure Returned (b : Buf) (cur : ℕ → ℤ → UInt8) (vp : ℕ) (blkno : ℤ) (size : ℕ) : Prop where
  of : Of b vp
  blkno : b.b_blkno = blkno
  bcount : b.b_bcount = size
  byte : ∀ a, Covers b a → byte b a = cur vp a

/-- What holds where the process is. -/
def Control.Ready (k : Kernel n) (cur : ℕ → ℤ → UInt8) (request : Request) (held : List (Fin n)) :
    Control n → Prop
  | .user => ∀ vp blkno size, request = some (vp, blkno, size) →
      ∃ bp bps, held = bp :: bps ∧ Returned (k.buf bp) cur vp blkno size
  | .getblk c vp blkno size =>
      c.Answers request vp (State.blkOf blkno) size ∧ InRange (State.blkOf blkno) size
  | .getnewbuf c vp blkno size =>
      (Caller.miss c vp blkno).Wants request size ∧ ∀ x, ¬k.Is x vp blkno
  | .geteblk _ => False
  | .brealloc c bp size => c.Prepared request (k.buf bp) size ∧ (k.buf bp).done = false
  | .allocbuf c bp size =>
      c.Prepared request (k.buf bp) size ∧ ((k.buf bp).b_bcount < size → Clear k bp size)
  | .bread bp => ∃ vp, Of (k.buf bp) vp ∧ request = some (vp, (k.buf bp).b_blkno, (k.buf bp).b_bcount)
  | .bwrite _ w => w.Ready k request
  | .blkflush _ _ _ => request = none

/-- What holds of the one process in every state. -/
structure Good (s : State n) (cur : ℕ → ℤ → UInt8) (request : Request) : Prop where
  sound : Sound s.quiet s.waits (s.held 0) cur s.kernel (s.control 0).quiet (s.control 0).waits
  ready : (s.control 0).Ready s.kernel cur request (s.held 0)

/-- The data as the process `0` of the state has it. -/
def View (s : State n) (cur : ℕ → ℤ → UInt8) (k : Kernel n) (Q V : List (Fin n)) : Prop :=
  Sound s.quiet s.waits (s.held 0) cur k Q V

theorem Good.goto {c : Control n} (h : View s cur k c.quiet c.waits)
    (hrdy : c.Ready k cur request (s.held 0)) : Good (s.goto 0 k c) cur request := by
  have hcon : (s.goto 0 k c).control 0 = c := by simp [State.goto]
  refine ⟨⟨?_, h.unique, h.coherent, h.held⟩, ?_⟩
  · rw [hcon, State.quiet_goto, State.waits_goto, Own, update_idem, update_idem]
    exact h.own
  · rw [hcon]
    exact hrdy

theorem Good.sleep {c : Control n} {chan : Wchan n} (h : View s cur k c.quiet c.waits)
    (hrdy : c.Ready (k.sleep 0 chan) cur request (s.held 0)) :
    Good (s.sleep 0 k chan c) cur request := by
  have hsleep : View s cur (k.sleep 0 chan) c.quiet c.waits := Sound.congr h rfl rfl rfl rfl
  obtain ⟨hsnd, hrdy⟩ := Good.goto hsleep hrdy
  exact ⟨hsnd, hrdy⟩

theorem Good.hold (h : View s cur k [bp] []) (hof : ∃ vp, Of (k.buf bp) vp)
    (hrdy : Control.user.Ready k cur request (bp :: s.held 0)) :
    Good (s.hold 0 k bp) cur request := by
  have hcon : (s.hold 0 k bp).control 0 = .user := update_self 0 _ s.control
  have hheld : (s.hold 0 k bp).held 0 = bp :: s.held 0 :=
    update_self 0 _ s.held
  refine ⟨⟨?_, h.unique, ?_, ?_⟩, ?_⟩
  · rw [hcon, hheld, State.quiet_hold, State.waits_hold, Own, update_idem, update_idem]
    exact h.own
  · rw [hheld]
    exact h.coherent.loosen fun x hx => mem_cons_of_mem _ hx
  · rw [hheld]
    exact forall_mem_cons.2 ⟨hof, h.held⟩
  · rw [hcon, hheld]
    exact hrdy

/-! ### `getblk` returns -/

variable {blkno a : ℤ} {vp : ℕ}

theorem Cont.Answers.bufs {c : Cont n} (h : c.Answers request vp blkno size) :
    c.bufs = [] := by
  cases c with
  | getblk => rfl
  | bread => rfl
  | breada => exact h.elim
  | ahead => exact h.elim

theorem Caller.Wants.bufs {c : Caller n} (h : c.Wants request size) : c.bufs = [] := by
  cases c with
  | hit c vp blkno => exact h.2.2.bufs
  | miss c vp blkno => exact h.2.2.bufs
  | geteblk => rfl
  | brealloc => rfl

theorem Good.ret {c : Cont n} (h : View s cur k [bp] [])
    (hc : c.Answers request vp blkno size) (hof : Of (k.buf bp) vp) (hbno : (k.buf bp).b_blkno = blkno)
    (hbco : (k.buf bp).b_bcount = size) : Good (s.ret 0 k bp c) cur request := by
  cases c with
  | getblk =>
    refine .hold h ⟨vp, hof⟩ fun v blk sz hsome => ?_
    cases hc.symm.trans hsome
  | bread =>
    rw [State.ret]
    split_ifs with hdone
    · refine .hold h ⟨vp, hof⟩ fun v blk sz hsome => ⟨bp, s.held 0, rfl, ?_⟩
      cases hc.symm.trans hsome
      have hnot : bp ∉ s.held 0 := Sound.not_loose h mem_cons_self
      exact ⟨hof, hbno, hbco, h.coherent.good bp vp hof (.inl hdone) hnot⟩
    · refine .goto (Sound.startRead h (Bool.eq_false_of_not_eq_true hdone) hof) ⟨vp, ?_⟩
      rw [Kernel.startRead_eq, Kernel.modify_self]
      refine ⟨hof, ?_⟩
      rw [hbno, hbco]
      exact hc
  | breada => exact hc.elim
  | ahead => exact hc.elim

/-! ### `brealloc` -/

theorem Good.realloced {c : Caller n} (h : View s cur k [bp] []) (hwnt : c.Wants request size)
    (hfor : c.For (k.buf bp)) (hof : ∃ vp, Of (k.buf bp) vp) (hbco : (k.buf bp).b_bcount = size) :
    Good (s.realloced 0 k bp c) cur request := by
  cases c with
  | hit c vp blkno =>
    have hself := k.modify_self bp fun b => { b with cache := true }
    obtain ⟨hofb, hbno⟩ := hfor
    refine .ret (Sound.cache h bp) hwnt.2.2 ?_ ?_ ?_
    all_goals rw [hself]
    · exact hofb
    · exact hbno
    · exact hbco
  | miss c vp blkno => exact .ret h hwnt.2.2 hfor.1 hfor.2 hbco
  | geteblk => exact hwnt.elim
  | brealloc =>
    refine .hold h hof fun v blk sz hsome => ?_
    cases hwnt.symm.trans hsome

theorem Good.released {c : Caller n} (h : View s cur k [] []) (hwnt : c.Wants request size) :
    Good (s.released 0 k size c) cur request := by
  have hbufs := hwnt.bufs
  have hagn : ∀ (c : Cont n) (vp : ℕ) (blkno : ℤ), (Caller.miss c vp blkno).Wants request size →
      Good (s.goto 0 k (.getblk c vp blkno size)) cur request := by
    rintro c vp blkno ⟨hblk, hrng, hc⟩
    refine .goto (c := .getblk c vp blkno size) ?_ ?_
    · rw [Control.waits, hc.bufs]
      exact h
    · rw [Control.Ready, hblk]
      exact ⟨hc, hrng⟩
  cases c with
  | hit c vp blkno => exact hagn c vp blkno hwnt
  | miss c vp blkno => exact hagn c vp blkno hwnt
  | geteblk => exact hwnt.elim
  | brealloc =>
    refine .goto h fun v blk sz hsome => ?_
    cases hwnt.symm.trans hsome

theorem Good.brealloc {c : Caller n} (h : View s cur k [bp] []) (hwnt : c.Wants request size)
    (hfor : c.For (k.buf bp)) (hof : ∃ vp, Of (k.buf bp) vp)
    (hrng : InRange (k.buf bp).b_blkno size) (hgrw : ¬Grows (k.buf bp) size) :
    Good (s.brealloc 0 k c bp size) cur request := by
  have hbufs := hwnt.bufs
  rw [State.brealloc]
  split_ifs with heq hlt hdel hvp
  · exact .realloced h hwnt hfor hof heq.symm
  · refine .goto (c := .bwrite bp (.brealloc c size)) ?_ hwnt
    rw [Control.waits, Writer.bufs, hbufs]
    exact Sound.bwrite h hdel
  · refine .goto (c := .allocbuf c bp size) ?_ ⟨⟨hwnt, hfor, hof, hrng, ?_, ?_⟩, ?_⟩
    · rw [Control.waits, hbufs]
      exact h
    · exact Bool.eq_false_of_not_eq_true hdel
    · exact fun hgt => absurd hgt hlt.not_gt
    · exact fun hgt => absurd hgt hlt.not_gt
  · obtain ⟨vp, hofb⟩ := hof
    cases hvp.symm.trans hofb.1
  · have hgt : (k.buf bp).b_bcount < size := by omega
    have hcln : (k.buf bp).delwri = false :=
      Bool.eq_false_of_not_eq_true fun hd => hgrw ⟨hd, hgt⟩
    refine .goto (c := .brealloc c bp size) ?_ ?_
    · rw [Control.waits, hbufs]
      exact Sound.undone h mem_cons_self hcln
    · rw [Control.Ready, Kernel.modify_self]
      exact ⟨⟨hwnt, by cases c <;> exact hfor, hof, hrng, hcln, fun _ => rfl⟩, rfl⟩

/-!
### From one place to the next

Each of the functions leads the process from what holds at one place to what holds at the next
(`Good`). The loop of `brealloc` goes on until no other buffer has the bytes that its buffer is to
have (`Overlapped`).
-/

/-! ### Overlapping buffers -/

/-- Blocks of ranges with a common byte are on one hash chain. -/
theorem InRange.hash {blkno' : ℤ} {size' : ℕ} (h : InRange blkno size)
    (h' : InRange blkno' size') (ha : blkno * DEV_BSIZE ≤ a ∧ a < blkno * DEV_BSIZE + size)
    (ha' : blkno' * DEV_BSIZE ≤ a ∧ a < blkno' * DEV_BSIZE + size') :
    BUFHASH vp blkno = BUFHASH vp blkno' := by
  obtain ⟨hnon, hali, hwit⟩ := h
  obtain ⟨hnon', hali', hwit'⟩ := h'
  have hdiv : blkno.tdiv RND = blkno'.tdiv RND := by
    rw [Int.tdiv_eq_ediv_of_nonneg hnon, Int.tdiv_eq_ediv_of_nonneg hnon']
    simp only [btodb, RND, DEV_BSIZE] at *
    omega
  rw [BUFHASH, BUFHASH, hdiv]

theorem overlaps_of_covers {start : ℤ} (hof : Of (k.buf x) vp) (hrng : InRange start size)
    (ha : start * DEV_BSIZE ≤ a ∧ a < start * DEV_BSIZE + size) (hx : Covers (k.buf x) a)
    (hxra : InRange (k.buf x).b_blkno (k.buf x).b_bcount) :
    k.Overlaps x (some vp) start (start + btodb size - 1) := by
  obtain ⟨hlow, hhigh⟩ := hx
  obtain ⟨-, hali, -⟩ := hrng
  obtain ⟨-, hali', -⟩ := hxra
  refine ⟨hof.1, hof.2, ?_, ?_, ?_⟩
  all_goals simp only [btodb, DEV_BSIZE] at *
  · omega
  · omega
  · omega

/-! ### The loop of `brealloc` -/

/-- The buffers that overlap the buffer, once it has `size` bytes, are among those of the list. -/
def Overlapped (k : Kernel n) (bp : Fin n) (size : ℕ) (l : List (Fin n)) : Prop :=
  ∀ vp, Of (k.buf bp) vp → ∀ x ≠ bp, Of (k.buf x) vp → ∀ a,
    Covers { k.buf bp with b_bcount := size } a → Covers (k.buf x) a → x ∈ l

/-- They all are on the hash chain of the buffer. -/
theorem Sound.overlapped {quiet waits : ℕ → List (Fin n)} {loose Q V : List (Fin n)}
    (h : Sound quiet waits loose cur k Q V) (hof : Of (k.buf bp) vp)
    (hrng : InRange (k.buf bp).b_blkno size) :
    Overlapped k bp size (k.chain (BUFHASH vp (k.buf bp).b_blkno)) := by
  intro v hv x _ hofx a ha hxa
  obtain rfl : v = vp := Option.some.inj (hv.1.symm.trans hof.1)
  rw [hrng.hash (h.coherent.range x v hofx) ha hxa]
  exact h.unique.hashed x v _ ⟨rfl, hofx.1, hofx.2⟩

theorem Overlapped.clear (h : Overlapped k bp size []) : Clear k bp size :=
  fun vp hof x hx hofx a ha hxa => absurd (h vp hof x hx hofx a ha hxa) not_mem_nil

/-- A buffer that does not overlap is skipped. -/
theorem Overlapped.skip {ep : Fin n} {l : List (Fin n)} (h : Overlapped k bp size (ep :: l))
    (hskip : ∀ vp, Of (k.buf bp) vp → ep ≠ bp → Of (k.buf ep) vp → ∀ a,
      Covers { k.buf bp with b_bcount := size } a → ¬Covers (k.buf ep) a) :
    Overlapped k bp size l := by
  intro vp hof x hx hofx a ha hxa
  rcases mem_cons.1 (h vp hof x hx hofx a ha hxa) with rfl | hmem
  · exact absurd hxa (hskip vp hof hx hofx a ha)
  · exact hmem

theorem Overlapped.recedes {l : List (Fin n)} (h : Overlapped k bp size l) (hr : Recedes k k')
    (hbp : k'.buf bp = k.buf bp) : Overlapped k' bp size l := by
  intro vp hof x hx hofx a ha hxa
  rw [hbp] at hof ha
  obtain ⟨hofx, hcov⟩ := hr x vp hofx
  exact h vp hof x hx hofx a ha (hcov a hxa)

/-- A buffer after `brealloc` dropped it. -/
theorem Kernel.invalid_buf (k : Kernel n) (ep : Fin n) :
    (((k.notavail ep).modify ep fun b => { b with inval := true }).brelse ep).buf = update k.buf ep
        (Kernel.releasedBuf { k.buf ep with busy := true, inval := true }) := by
  rw [Kernel.brelse_buf]
  simp [Kernel.modify]

theorem Good.overlapLoop {c : Caller n} {l : List (Fin n)} (h : View s cur k [bp] [])
    (hprep : c.Prepared request (k.buf bp) size) (hdone : (k.buf bp).done = false)
    (hl : Overlapped k bp size l) : Good (s.overlapLoop 0 c bp size l k) cur request := by
  have hbufs := hprep.wants.bufs
  induction l generalizing k with
  | nil =>
    refine .goto (c := .allocbuf c bp size) ?_ ⟨hprep, fun _ => hl.clear⟩
    rw [Control.waits, hbufs]
    exact h
  | cons ep l ih =>
    rw [State.overlapLoop]
    split_ifs with hover hbusy
    · refine ih h hprep hdone (hl.skip fun vp hof hne hofx a ha hxa => ?_)
      refine (hover.resolve_left hne) ?_
      rw [hof.1]
      exact overlaps_of_covers hofx hprep.resizable.range ha hxa (h.coherent.range ep vp hofx)
    · have hne : bp ≠ ep := fun heq => hover (.inl heq.symm)
      refine .sleep (c := .brealloc c bp size) ?_ ?_
      · rw [Control.waits, hbufs]
        exact Sound.want h ep
      · have hbp : ((k.modify ep fun b => { b with wanted := true }).sleep 0 (.buf ep)).buf bp =
            k.buf bp := by rw [Kernel.sleep_buf, Kernel.modify_of_ne _ _ _ hne]
        rw [Control.Ready, hbp]
        exact ⟨hprep, hdone⟩
    have hne : bp ≠ ep := fun heq => hover (.inl heq.symm)
    have htkn := Sound.notavail h (Bool.eq_false_of_not_eq_true hbusy)
    have hbp : (k.notavail ep).buf bp = k.buf bp := by
      rw [Kernel.notavail_buf, update_of_ne hne]
    dsimp only
    split_ifs with hdel
    · refine .goto (c := .bwrite ep (.overlap c bp size)) ?_ ?_
      · rw [Control.waits, Writer.bufs, hbufs]
        exact htkn.bwrite hdel
      · rw [Control.Ready, Writer.Ready, Kernel.bwrite_eq, Kernel.modify_of_ne _ _ _ hne, hbp]
        exact ⟨hprep, hdone⟩
    · have hinv := htkn.invalid (Bool.eq_false_of_not_eq_true hdel)
      have hbuf := k.invalid_buf ep
      have hbp' : (((k.notavail ep).modify ep fun b => { b with inval := true }).brelse ep).buf bp =
          k.buf bp := by rw [hbuf, update_of_ne hne]
      refine ih hinv.brelse (by rwa [hbp']) (by rwa [hbp']) ?_
      have hdro : ∀ vp, ¬Of (Kernel.releasedBuf { k.buf ep with busy := true, inval := true }) vp := by
        rintro vp ⟨-, hinval⟩
        simp [Kernel.releasedBuf] at hinval
      refine (hl.recedes (.of_update hbuf fun vp hof => absurd hof (hdro vp)) hbp').skip ?_
      intro vp _ _ hof
      rw [hbuf, update_self] at hof
      exact absurd hof (hdro vp)

/-! ### `allocbuf` -/

theorem Good.allocbuf {c : Caller n} (h : View s cur k [bp] [])
    (hprep : c.Prepared request (k.buf bp) size)
    (hclr : (k.buf bp).b_bcount < size → Clear k bp size) :
    Good (s.allocbuf 0 k c bp size) cur request := by
  obtain ⟨hwnt, hfor, hres⟩ := hprep
  have hbufs := hwnt.bufs
  have hmem : bp ∈ [bp] ++ s.held 0 := mem_cons_self
  have hbusy := (h.own.owned (mem_append_left [] hmem)).1
  have hsize : size ≤ (size + (CLBYTES - 1)) / CLBYTES * CLBYTES := by
    rw [CLBYTES]
    omega
  rw [State.allocbuf]
  dsimp only
  generalize (size + (CLBYTES - 1)) / CLBYTES * CLBYTES = sizealloc at hsize
  split_ifs with heq hlt
  · refine .realloced (Sound.resize h hres hclr (heq ▸ hsize)) hwnt ?_ ?_ ?_
    all_goals rw [Kernel.modify_self]
    · cases c <;> exact hfor
    · exact hres.of
  · have hnot : bp ∉ k.bfreelist .empty := fun hmem =>
      absurd ((h.own.busy_of_mem hmem).symm.trans hbusy) Bool.false_ne_true
    obtain ⟨bufsize, hself⟩ := k.shrink_self sizealloc hnot
    refine .realloced (Sound.shrink h hres hclr hsize hlt.le) hwnt ?_ ?_ ?_
    all_goals rw [Kernel.modify_self, hself]
    · cases c <;> exact hfor
    · exact hres.of
  · have htkn := Sound.getnewbuf h
    have hrec := Recedes.getnewbufLoop k (k.bfreelist .age ++ k.bfreelist .lru)
    have hbp := Sound.getnewbuf_buf h hbusy
    change Recedes k k.getnewbuf.2 at hrec
    split
    · next k' heq =>
      rw [heq] at htkn hrec hbp
      refine .sleep (c := .allocbuf c bp size) ?_ ?_
      · rw [Control.waits, hbufs]
        exact htkn
      · rw [Control.Ready, Kernel.sleep_buf, hbp]
        refine ⟨⟨hwnt, hfor, hres⟩, fun hgt => (hclr hgt).recedes hrec ?_ ?_⟩
        all_goals rw [Kernel.sleep_buf, hbp]
        exact fun _ => id
    · next b k' heq =>
      rw [heq] at htkn hrec hbp
      obtain ⟨htkn, hnew⟩ := htkn
      have hne : b ≠ bp := fun heq =>
        (nodup_cons.1 htkn.own.nodup).1 (heq ▸ mem_cons_self)
      obtain ⟨take, rest, -, hbuf⟩ := k'.grow_buf sizealloc hne
      have hself : (k'.grow bp b sizealloc).buf bp =
          grownBuf (k.buf bp) (k'.buf b).b_addr rest take := by
        rw [hbuf, update_of_ne (Ne.symm hne), Kernel.modify_self, hbp]
      refine .goto (c := .allocbuf c bp size) ?_ ?_
      · rw [Control.waits, hbufs]
        exact htkn.grow hnew
      · rw [Control.Ready, hself]
        refine ⟨⟨hwnt, by cases c <;> exact hfor, ?_⟩, fun hgt => ?_⟩
        · exact ⟨hres.of, hres.range, hres.delwri, hres.done⟩
        · refine (hclr hgt).recedes (hrec.trans (.grow hne hnew)) ?_ ?_
          all_goals rw [hself]
          · exact fun _ => id
          · rfl

/-! ### `getblk` -/

theorem Good.newblk {c : Cont n} {r : Option (Fin n) × Kernel n}
    (h : Sound.Taken s.quiet s.waits (s.held 0) cur [] [] r)
    (hwnt : (Caller.miss c vp blkno).Wants request size) (hnone : ∀ x, ¬r.2.Is x vp blkno) :
    Good (s.newblk 0 c vp blkno size r) cur request := by
  have hbufs : c.bufs = [] := hwnt.2.2.bufs
  obtain ⟨o, k⟩ := r
  cases o with
  | none =>
    refine .sleep (c := .getnewbuf c vp blkno size) ?_ ⟨hwnt, hnone⟩
    rw [Control.waits, hbufs]
    exact h
  | some bp =>
    obtain ⟨hsnd, hnew⟩ := h
    have hbuf : (k.assign bp vp blkno).buf bp =
        { k.buf bp with b_bcount := 0, b_vp := some vp, b_blkno := blkno } := by
      rw [Kernel.assign_buf, update_self]
    have hass := hsnd.assign hnew hwnt.2.1 fun x _ => hnone x
    refine .brealloc hass hwnt ?_ ?_ ?_ ?_
    all_goals rw [hbuf]
    · exact ⟨⟨rfl, hnew.inval⟩, rfl⟩
    · exact ⟨vp, rfl, hnew.inval⟩
    · exact hwnt.2.1
    · exact fun hgrw => absurd (hnew.delwri.symm.trans hgrw.1) Bool.false_ne_true

theorem Good.getblk {c : Cont n} (h : View s cur s.kernel [] [])
    (hwnt : (Caller.miss c vp blkno).Wants request size)
    (hgrw : ∀ bp, s.kernel.find vp blkno = some bp → (s.kernel.buf bp).busy = false →
      ¬Grows (s.kernel.buf bp) size) : Good (s.getblk 0 c vp blkno size) cur request := by
  have hbufs : c.bufs = [] := hwnt.2.2.bufs
  rw [State.getblk]
  split
  · next bp hfind =>
    split_ifs with hbusy
    · refine .sleep (c := .getblk c vp blkno size) ?_ ?_
      · rw [Control.waits, hbufs]
        exact Sound.want h bp
      · rw [Control.Ready, hwnt.1]
        exact ⟨hwnt.2.2, hwnt.2.1⟩
    · have hfree := Bool.eq_false_of_not_eq_true hbusy
      obtain ⟨hbno, hvp, hinval⟩ : s.kernel.Is bp vp blkno := by simpa using find?_some hfind
      have hbuf : (s.kernel.notavail bp).buf bp = { s.kernel.buf bp with busy := true } := by
        rw [Kernel.notavail_buf, update_self]
      refine .brealloc (Sound.notavail h hfree) hwnt ?_ ?_ ?_ ?_
      all_goals rw [hbuf]
      · exact ⟨⟨hvp, hinval⟩, hbno⟩
      · exact ⟨vp, hvp, hinval⟩
      · rw [hbno]
        exact hwnt.2.1
      · exact hgrw bp hfind hfree
  · next hfind =>
    refine .newblk (Sound.getnewbuf h) hwnt fun x hx => ?_
    exact h.unique.not_is hfind ((Keeps.getnewbuf _).is x vp blkno hx)

/-! ### The other steps -/

theorem Good.blkflushLoop {l : List (Fin n)} (h : View s cur k [] [])
    (hreq : request = none) : Good (s.blkflushLoop 0 vp blkno size k l) cur request := by
  induction l with
  | nil =>
    refine .goto (c := .user) h fun v blk sz hsome => ?_
    cases hreq.symm.trans hsome
  | cons ep l ih =>
    rw [State.blkflushLoop]
    split_ifs with hover hbusy hdel
    · exact .sleep (c := .blkflush vp blkno size) (Sound.want h ep) hreq
    · have htkn := Sound.notavail h (Bool.eq_false_of_not_eq_true hbusy)
      refine .goto (c := .bwrite ep (.blkflush vp blkno size)) (htkn.bwrite ?_) hreq
      rw [Kernel.notavail_buf, update_self]
      exact hdel
    · exact ih
    · exact ih

/-- The process has waited for a buffer. -/
theorem Sound.awaited {quiet waits : ℕ → List (Fin n)} {loose Q V : List (Fin n)}
    (h : Sound quiet waits loose cur k Q (b :: V)) (hdone : (k.buf b).done) :
    Sound quiet waits loose cur k (b :: Q) V :=
  ⟨h.own.awaited hdone, h.unique, h.coherent, h.held⟩

theorem Good.written {w : Writer n} (h : View s cur s.kernel (Control.bwrite bp w).quiet (bp :: w.bufs))
    (hrdy : w.Ready s.kernel request) (hdone : (s.kernel.buf bp).done) :
    Good (s.written 0 bp w) cur request := by
  have hbre := (Sound.awaited h hdone).brelse
  cases w with
  | bwrite =>
    refine .goto (c := .user) hbre fun v blk sz hsome => ?_
    cases hrdy.symm.trans hsome
  | brealloc c size =>
    have hbufs := Caller.Wants.bufs hrdy
    rw [Writer.bufs, hbufs] at hbre
    exact .released hbre hrdy
  | overlap c tp size =>
    have hbufs := hrdy.1.wants.bufs
    rw [Writer.bufs, hbufs] at hbre
    have hne : tp ≠ bp := by
      have hnd := h.own.nodup
      rintro rfl
      exact (nodup_append.1 hnd).2.2 tp mem_cons_self tp mem_cons_self rfl
    refine .goto (c := .brealloc c tp size) ?_ ?_
    · rw [Control.waits, hbufs]
      exact hbre
    · rw [Control.Ready, Kernel.brelse_buf, update_of_ne hne]
      exact hrdy
  | blkflush vp blkno size => exact .goto (c := .blkflush vp blkno size) hbre hrdy

end Uwisc.Bio
