import Uwisc.Sys.Bio.Own
import Uwisc.Sys.Bio.Spec

/-!
# Runs of the buffer cache

In every run under the condition `Fresh` there is one buffer for a block at most, the free lists are
those of the buffers that are not busy, and no buffer is held by two processes
(`cache_safe`). The condition is that, when `getblk` gets a new buffer after it slept for one, there is
still none of the block: `getblk` does not look again (`cache_unsafe`).
-/

namespace Uwisc.Bio

open Function Lib List

variable {n : ℕ}

/-! ### What a process holds -/

/-- The buffers that a caller of `getblk` waits for. -/
def Cont.bufs : Cont n → List (Fin n)
  | .ahead (some bp) _ _ _ => [bp]
  | _ => []

def Caller.bufs : Caller n → List (Fin n)
  | .hit c _ _ => c.bufs
  | .miss c _ _ => c.bufs
  | _ => []

def Writer.bufs : Writer n → List (Fin n)
  | .brealloc c _ => c.bufs
  | .overlap c _ _ => c.bufs
  | _ => []

/-- The buffers that a process has from a call, and that the driver does not have. -/
def Control.quiet : Control n → List (Fin n)
  | .brealloc _ bp _ => [bp]
  | .allocbuf _ bp _ => [bp]
  | .bwrite _ (.overlap _ bp _) => [bp]
  | _ => []

/-- The buffers that a process waits for. -/
def Control.waits : Control n → List (Fin n)
  | .getblk c _ _ _ => c.bufs
  | .getnewbuf c _ _ _ => c.bufs
  | .brealloc c _ _ => c.bufs
  | .allocbuf c _ _ => c.bufs
  | .bread bp => [bp]
  | .bwrite bp w => bp :: w.bufs
  | _ => []

namespace State

def quiet (s : State n) (p : ℕ) : List (Fin n) := (s.control p).quiet ++ s.held p

def waits (s : State n) (p : ℕ) : List (Fin n) := (s.control p).waits

/-- All buffers that a process holds. -/
def holds (s : State n) (p : ℕ) : List (Fin n) := s.quiet p ++ s.waits p

end State

/-- What holds in every state. -/
structure Inv (s : State n) : Prop where
  tokens : Tokens s.kernel s.quiet s.waits
  unique : Unique s.kernel

variable {s : State n} {k : Kernel n} {p : ℕ} {b bp : Fin n} {size : ℕ}

theorem State.quiet_goto {c : Control n} :
    (s.goto p k c).quiet = update s.quiet p (c.quiet ++ s.held p) := by
  funext q
  by_cases hq : q = p
  · subst hq
    simp [State.quiet, State.goto]
  · simp [State.quiet, State.goto, hq]

theorem State.waits_goto {c : Control n} : (s.goto p k c).waits = update s.waits p c.waits := by
  funext q
  by_cases hq : q = p
  · subst hq
    simp [State.waits, State.goto]
  · simp [State.waits, State.goto, hq]

theorem State.quiet_hold : (s.hold p k bp).quiet = update s.quiet p (bp :: s.held p) := by
  funext q
  by_cases hq : q = p
  · subst hq
    simp [State.quiet, State.goto, State.hold, Control.quiet]
  · simp [State.quiet, State.goto, State.hold, hq]

theorem State.waits_hold : (s.hold p k bp).waits = update s.waits p [] := by
  funext q
  by_cases hq : q = p
  · subst hq
    simp [State.waits, State.goto, State.hold, Control.waits]
  · simp [State.waits, State.goto, State.hold, hq]

theorem Inv.goto {c : Control n} (h : Own k s.quiet s.waits p (c.quiet ++ s.held p) c.waits)
    (hu : Unique k) : Inv (s.goto p k c) := by
  refine ⟨?_, hu⟩
  rw [State.quiet_goto, State.waits_goto]
  exact h

theorem Inv.sleep {c : Control n} {chan : Wchan n}
    (h : Own k s.quiet s.waits p (c.quiet ++ s.held p) c.waits) (hu : Unique k) :
    Inv (s.sleep p k chan c) := by
  have hsleep : Own (k.sleep p chan) s.quiet s.waits p (c.quiet ++ s.held p) c.waits :=
    h.congr fun x => .of_eq rfl rfl
  obtain ⟨htok, huni⟩ := Inv.goto hsleep (hu.keeps (.of_same rfl rfl))
  exact ⟨htok, huni⟩

theorem Inv.hold (h : Own k s.quiet s.waits p (bp :: s.held p) []) (hu : Unique k) :
    Inv (s.hold p k bp) := by
  refine ⟨?_, hu⟩
  rw [State.quiet_hold, State.waits_hold]
  exact h

/-! ### `breada` -/

variable {blkno : ℤ} {vp : ℕ}

theorem Inv.breadaEnd {size : ℕ} {o : Option (Fin n)}
    (h : Own k s.quiet s.waits p (s.held p) o.toList) (hu : Unique k) :
    Inv (s.breadaEnd p k o vp blkno size) := by
  cases o with
  | none => exact .goto h hu
  | some bp => exact .goto h hu

theorem Inv.breadaAhead {size rabsize : ℕ} {rablkno : ℤ} {o : Option (Fin n)}
    (h : Own k s.quiet s.waits p (s.held p) o.toList) (hu : Unique k) :
    Inv (s.breadaAhead p k o vp blkno size rablkno rabsize) := by
  rw [State.breadaAhead]
  split_ifs
  · cases o with
    | none => exact .goto h hu
    | some bp => exact .goto h hu
  · exact .breadaEnd h hu

/-- A read is started unless the buffer is valid. -/
theorem Own.startRead {quiet waits : ℕ → List (Fin n)} {Q V : List (Fin n)}
    (h : Own k quiet waits p (b :: Q) V) (hdone : (k.buf b).done = false) :
    Own (k.startRead b false) quiet waits p Q (b :: V) := by
  rw [k.startRead_eq]
  exact h.start rfl (Bool.or_false _) rfl hdone

theorem Own.startAhead {quiet waits : ℕ → List (Fin n)} {Q V : List (Fin n)}
    (h : Own k quiet waits p (b :: Q) V) (hdone : (k.buf b).done = false) :
    Own (k.startRead b true) quiet waits p Q V := by
  rw [k.startRead_eq]
  exact h.startAsync rfl rfl hdone

theorem Inv.ret {c : Cont n} (h : Own k s.quiet s.waits p (bp :: s.held p) c.bufs) (hu : Unique k) :
    Inv (s.ret p k bp c) := by
  cases c with
  | getblk => exact .hold h hu
  | bread =>
    rw [State.ret]
    split_ifs with hdone
    · exact .hold h hu
    · exact .goto (h.startRead (Bool.eq_false_of_not_eq_true hdone)) (hu.keeps (.startRead k bp false))
  | breada vp blkno size rablkno rabsize =>
    rw [State.ret]
    split_ifs with hdone
    · exact .breadaAhead h.wait hu
    · exact .breadaAhead (h.startRead (Bool.eq_false_of_not_eq_true hdone))
        (hu.keeps (.startRead k bp false))
  | ahead o vp blkno size =>
    have hbufs : (Cont.ahead o vp blkno size).bufs = o.toList := by cases o <;> rfl
    rw [hbufs] at h
    rw [State.ret]
    split_ifs with hdone
    · exact .breadaEnd h.brelse (hu.keeps (.brelse k bp))
    · exact .breadaEnd (h.startAhead (Bool.eq_false_of_not_eq_true hdone))
        (hu.keeps (.startRead k bp true))

/-! ### `brealloc` -/

theorem Inv.realloced {c : Caller n} (h : Own k s.quiet s.waits p (bp :: s.held p) c.bufs)
    (hu : Unique k) : Inv (s.realloced p k bp c) := by
  cases c with
  | hit c vp blkno =>
    exact .ret (h.modify bp _ rfl rfl rfl rfl) (hu.keeps (.flags k bp _ rfl rfl rfl))
  | miss c vp blkno => exact .ret h hu
  | geteblk => exact .hold h hu
  | brealloc => exact .hold h hu

theorem Inv.released {c : Caller n} (h : Own k s.quiet s.waits p (s.held p) c.bufs) (hu : Unique k) :
    Inv (s.released p k size c) := by
  cases c with
  | hit c vp blkno => exact .goto h hu
  | miss c vp blkno => exact .goto h hu
  | geteblk => exact .goto h hu
  | brealloc => exact .goto h hu

theorem Inv.brealloc {c : Caller n} (h : Own k s.quiet s.waits p (bp :: s.held p) c.bufs)
    (hu : Unique k) : Inv (s.brealloc p k c bp size) := by
  rw [State.brealloc]
  split_ifs
  · exact .realloced h hu
  · exact .goto h.bwrite (hu.keeps (.bwrite k bp))
  · exact .goto h hu
  · exact .goto (h.setDone mem_cons_self false) (hu.keeps (.flags k bp _ rfl rfl rfl))
  · exact .goto (h.setDone mem_cons_self false) (hu.keeps (.flags k bp _ rfl rfl rfl))

/-- Someone wants a buffer. -/
theorem Own.want {quiet waits : ℕ → List (Fin n)} {Q V : List (Fin n)} (h : Own k quiet waits p Q V)
    (b : Fin n) : Own (k.modify b fun b => { b with wanted := true }) quiet waits p Q V :=
  h.modify b _ rfl rfl rfl rfl

theorem Unique.want (hu : Unique k) (b : Fin n) :
    Unique (k.modify b fun b => { b with wanted := true }) :=
  hu.keeps (.flags k b _ rfl rfl rfl)

theorem Inv.overlapLoop {c : Caller n} {l : List (Fin n)}
    (h : Own k s.quiet s.waits p (bp :: s.held p) c.bufs) (hu : Unique k) :
    Inv (s.overlapLoop p c bp size l k) := by
  induction l generalizing k with
  | nil => exact .goto h hu
  | cons ep l ih =>
    rw [State.overlapLoop]
    split_ifs with hover hbusy
    · exact ih h hu
    · exact .sleep (h.want ep) (hu.want ep)
    have htkn := h.notavail (Bool.eq_false_of_not_eq_true hbusy)
    dsimp only
    split_ifs
    · exact .goto htkn.bwrite ((hu.keeps (.notavail k ep)).keeps (.bwrite _ ep))
    · refine ih (Own.brelse (htkn.modify ep _ rfl rfl rfl rfl)) ?_
      exact ((hu.keeps (.notavail k ep)).keeps (.modify _ ep _ (.inl rfl))).keeps (.brelse _ ep)

theorem Inv.blkflushLoop {l : List (Fin n)}
    (h : Own k s.quiet s.waits p (s.held p) []) (hu : Unique k) :
    Inv (s.blkflushLoop p vp blkno size k l) := by
  induction l with
  | nil => exact .goto h hu
  | cons ep l ih =>
    rw [State.blkflushLoop]
    split_ifs with hover hbusy hdel
    · exact .sleep (h.want ep) (hu.want ep)
    · have htkn := h.notavail (Bool.eq_false_of_not_eq_true hbusy)
      exact .goto htkn.bwrite ((hu.keeps (.notavail k ep)).keeps (.bwrite _ ep))
    · exact ih
    · exact ih

theorem Inv.allocbuf {c : Caller n} (h : Own k s.quiet s.waits p (bp :: s.held p) c.bufs)
    (hu : Unique k) : Inv (s.allocbuf p k c bp size) := by
  rw [State.allocbuf]
  split_ifs
  · exact .realloced (h.modify bp _ rfl rfl rfl rfl) (hu.keeps (.flags k bp _ rfl rfl rfl))
  · exact .realloced ((h.shrink bp _).modify bp _ rfl rfl rfl rfl)
      ((hu.keeps (.shrink k bp _)).keeps (.flags _ bp _ rfl rfl rfl))
  · have htkn := h.getnewbuf
    have hkps := Keeps.getnewbufLoop k (k.bfreelist .age ++ k.bfreelist .lru)
    have hnot := fun b h => getnewbufLoop_not_is (k := k) (b := b)
      (l := k.bfreelist .age ++ k.bfreelist .lru) h
    change Keeps k k.getnewbuf.2 at hkps
    split
    · next k' heq =>
      rw [heq] at htkn hkps
      exact .sleep htkn (hu.keeps hkps)
    · next b k' heq =>
      have hnot := hnot b (congrArg Prod.fst heq)
      change ∀ vp blkno, ¬k.getnewbuf.2.Is b vp blkno at hnot
      rw [heq] at htkn hkps hnot
      exact .goto (Own.grow htkn bp _) ((hu.keeps hkps).keeps (.grow _ bp b _ hnot))

/-! ### `getblk` -/

/-- A new buffer becomes one of the block, if there is no other. -/
theorem Inv.newblk {c : Cont n} {r : Option (Fin n) × Kernel n}
    (h : Own.Taken s.quiet s.waits p (s.held p) c.bufs r) (hu : Unique r.2)
    (hnone : ∀ bp, r.1 = some bp → ∀ x ≠ bp, ¬r.2.Is x vp blkno) :
    Inv (s.newblk p c vp blkno size r) := by
  obtain ⟨o, k⟩ := r
  cases o with
  | none => exact .sleep h hu
  | some bp =>
    have hass : Own (k.assign bp vp blkno) s.quiet s.waits p (bp :: s.held p) c.bufs :=
      Own.update h (k.assign_buf bp vp blkno) (fun _ => rfl) rfl rfl rfl rfl
    exact .brealloc hass (hu.assign (hnone bp rfl))

theorem Keeps.getnewbuf (k : Kernel n) : Keeps k k.getnewbuf.2 :=
  .getnewbufLoop k (k.bfreelist .age ++ k.bfreelist .lru)

theorem Inv.getblk {c : Cont n}
    (h : Own s.kernel s.quiet s.waits p (s.held p) c.bufs) (hu : Unique s.kernel) :
    Inv (s.getblk p c vp blkno size) := by
  rw [State.getblk]
  split
  · next bp _ =>
    split_ifs with hbusy
    · exact .sleep (h.want bp) (hu.want bp)
    · exact .brealloc (h.notavail (Bool.eq_false_of_not_eq_true hbusy))
        (hu.keeps (.notavail _ bp))
  · next hfind =>
    -- the search finds none, and `getnewbuf` makes none
    refine .newblk h.getnewbuf (hu.keeps (.getnewbuf _)) fun bp _ x _ hx => ?_
    exact hu.not_is hfind ((Keeps.getnewbuf _).is x vp blkno hx)

theorem Inv.geteblk (h : Own s.kernel s.quiet s.waits p (s.held p) []) (hu : Unique s.kernel) :
    Inv (s.geteblk p size) := by
  have htkn := h.getnewbuf
  have hkps := Keeps.getnewbuf s.kernel
  rw [State.geteblk]
  split
  · next k heq =>
    rw [heq] at htkn hkps
    exact .sleep htkn (hu.keeps hkps)
  · next bp k heq =>
    rw [heq] at htkn hkps
    have hass : Own (k.assignEmpty bp) s.quiet s.waits p (bp :: s.held p) [] :=
      Own.update htkn (k.assignEmpty_buf bp) (fun _ => rfl) rfl rfl rfl rfl
    exact .brealloc hass ((hu.keeps hkps).keeps (.assignEmpty k bp))

/-! ### The steps -/

theorem Inv.written {w : Writer n}
    (h : Own s.kernel s.quiet s.waits p ((Control.bwrite bp w).quiet ++ s.held p) (bp :: w.bufs))
    (hu : Unique s.kernel) (hdone : (s.kernel.buf bp).done) : Inv (s.written p bp w) := by
  have hbre := (h.awaited hdone).brelse
  have hu := hu.keeps (.brelse _ bp)
  cases w with
  | bwrite => exact .goto hbre hu
  | brealloc c size => exact .released hbre hu
  | overlap c bp size => exact .goto hbre hu
  | blkflush vp blkno size => exact .goto hbre hu

/-- When `getblk` gets a buffer after it slept, no other one is of the block. -/
def Fresh (s : State n) : Label n → Prop
  | .resume p =>
    match s.control p with
    | .getnewbuf _ vp blkno _ =>
      ∀ bp, s.kernel.getnewbuf.1 = some bp → ∀ x ≠ bp, ¬s.kernel.Is x vp blkno
    | _ => True
  | _ => True

theorem Inv.resume (h : Inv s) (hfrs : Fresh s (.resume p)) : Inv (s.resume p) := by
  obtain ⟨htok, hu⟩ := h
  have hown := htok.own p
  rw [Fresh] at hfrs
  rw [State.resume]
  rw [State.quiet, State.waits] at hown
  cases hcon : s.control p with
  | user => exact ⟨htok, hu⟩
  | getblk c vp blkno size =>
    rw [hcon] at hown
    exact .getblk hown hu
  | getnewbuf c vp blkno size =>
    rw [hcon] at hown hfrs
    refine .newblk (Own.getnewbuf hown) (hu.keeps (.getnewbuf _)) fun bp hbp x hx his => ?_
    exact hfrs bp hbp x hx ((Keeps.getnewbuf _).is x vp blkno his)
  | geteblk size =>
    rw [hcon] at hown
    exact .geteblk hown hu
  | brealloc c bp size =>
    rw [hcon] at hown
    dsimp only
    split
    · exact .goto hown hu
    · exact .overlapLoop hown hu
  | allocbuf c bp size =>
    rw [hcon] at hown
    exact .allocbuf hown hu
  | bread bp =>
    rw [hcon] at hown
    dsimp only
    split_ifs with hdone
    · exact .hold (Own.awaited hown hdone) hu
    · exact .sleep hown hu
  | bwrite bp w =>
    rw [hcon] at hown
    dsimp only
    split_ifs with hdone
    · exact .written hown hu hdone
    · exact .sleep hown hu
  | blkflush vp blkno size =>
    rw [hcon] at hown
    exact .blkflushLoop hown hu

theorem State.quiet_drop (s : State n) (p : ℕ) (bp : Fin n) (Q : List (Fin n)) :
    update (s.drop p bp).quiet p Q = update s.quiet p Q := by
  funext q
  by_cases hq : q = p
  · subst hq
    simp
  · simp [State.quiet, State.drop, hq]

/-- The process no longer holds a buffer that it is about to give up. -/
theorem Inv.own_drop (h : Inv s) (huser : s.control p = .user) (hbp : bp ∈ s.held p) :
    Own s.kernel (s.drop p bp).quiet (s.drop p bp).waits p (bp :: (s.drop p bp).held p) [] := by
  have hown := h.tokens.own p
  rw [State.quiet, State.waits, huser] at hown
  have hheld : (s.drop p bp).held p = (s.held p).erase bp := update_self _ _ _
  rw [Own, State.quiet_drop, hheld]
  exact hown.perm (perm_cons_erase hbp) (.refl _)

theorem Inv.call {op : Op n} {s' : State n} (h : Inv s) (huser : s.control p = .user)
    (hcall : s.call p op = some s') : Inv s' := by
  have hown := h.tokens.own p
  rw [State.quiet, State.waits, huser] at hown
  have hu := h.unique
  cases op with
  | bread vp blkno size =>
    rw [State.call] at hcall
    split_ifs at hcall
    cases hcall
    exact .goto hown hu
  | breada vp blkno size rablkno rabsize =>
    cases hcall
    split_ifs
    · exact .breadaAhead hown hu
    · exact .goto hown hu
  | getblk vp blkno size =>
    cases hcall
    exact .goto hown hu
  | geteblk size =>
    cases hcall
    exact .goto hown hu
  | brealloc bp size =>
    rw [State.call] at hcall
    split_ifs at hcall with hbp
    cases hcall
    exact .brealloc (h.own_drop huser hbp) hu
  | bwrite bp =>
    rw [State.call] at hcall
    split_ifs at hcall with hbp
    cases hcall
    exact .goto (h.own_drop huser hbp).bwrite (hu.keeps (.bwrite _ bp))
  | bawrite bp =>
    rw [State.call] at hcall
    split_ifs at hcall with hbp
    cases hcall
    exact .goto (h.own_drop huser hbp).bawrite (hu.keeps (.bawrite _ bp))
  | bdwrite bp =>
    rw [State.call] at hcall
    split_ifs at hcall with hbp
    cases hcall
    exact .goto (h.own_drop huser hbp).bdwrite
      ((hu.keeps (.flags _ bp _ rfl rfl rfl)).keeps (.brelse _ bp))
  | brelse bp =>
    rw [State.call] at hcall
    split_ifs at hcall with hbp
    cases hcall
    exact .goto (h.own_drop huser hbp).brelse (hu.keeps (.brelse _ bp))
  | blkflush vp blkno size =>
    cases hcall
    exact .goto hown hu
  | bflush vp =>
    cases hcall
    exact .goto (Own.bflush hown vp) (hu.keeps (.bflushLoop _ vp _))
  | store bp addr =>
    rw [State.call] at hcall
    split_ifs at hcall
    cases hcall
    exact .goto (Own.modify hown bp _ rfl rfl rfl rfl) (hu.keeps (.flags _ bp _ rfl rfl rfl))

theorem Inv.exec {a : Label n} {s' : State n} (h : Inv s) (hfrs : Fresh s a)
    (hexec : exec s a = some s') : Inv s' := by
  cases a with
  | switch p =>
    rw [Bio.exec] at hexec
    split_ifs at hexec
    cases hexec
    exact ⟨h.tokens, h.unique⟩
  | leave p =>
    rw [Bio.exec] at hexec
    split at hexec
    · split_ifs at hexec
      cases hexec
      exact ⟨h.tokens, h.unique⟩
    · cases hexec
  | call p op =>
    rw [Bio.exec] at hexec
    split at hexec
    · next huser =>
      split_ifs at hexec
      exact h.call huser hexec
    · cases hexec
  | resume p =>
    rw [Bio.exec] at hexec
    split at hexec
    · cases hexec
    · split_ifs at hexec
      cases hexec
      exact h.resume hfrs
  | iodone bp error =>
    rw [Bio.exec] at hexec
    split_ifs at hexec with hact
    cases hexec
    exact ⟨h.tokens.iodone hact error, h.unique.keeps (.iodone _ bp error)⟩

/-! ### The start -/

/-- A buffer that nothing has been done with. -/
structure Idle (b : Buf) : Prop where
  busy : b.busy = false
  active : b.active = false
  async : b.async = false
  b_vp : b.b_vp = none

theorem idle_foldl {f : Kernel n → Fin n → Kernel n} (l : List (Fin n)) {k : Kernel n}
    (hidle : ∀ x, Idle (k.buf x))
    (hf : ∀ k i, (∀ x, Idle (k.buf x)) → (∀ x, Idle ((f k i).buf x)) ∧
      ∀ x, (f k i).frees x = k.frees x + if i = x then 1 else 0) :
    (∀ x, Idle ((l.foldl f k).buf x)) ∧ ∀ x, (l.foldl f k).frees x = k.frees x + l.count x := by
  induction l generalizing k with
  | nil => exact ⟨hidle, fun x => rfl⟩
  | cons i l ih =>
    obtain ⟨hidle', hfrees'⟩ := hf k i hidle
    obtain ⟨hidle, hfrees⟩ := ih hidle'
    refine ⟨hidle, fun x => ?_⟩
    rw [foldl_cons, hfrees, hfrees', count_cons]
    simp only [beq_iff_eq]
    omega

theorem idle_binitLoop (bufpages : ℕ) (i : Fin n) (hidle : ∀ x, Idle (k.buf x)) :
    (∀ x, Idle ((k.binitLoop bufpages i).buf x)) ∧
      ∀ x, (k.binitLoop bufpages i).frees x = k.frees x + if i = x then 1 else 0 := by
  rw [Kernel.binitLoop]
  constructor
  · intro x
    rw [Kernel.brelse_buf]
    by_cases hx : x = i
    · subst hx
      obtain ⟨hbusy, hact, hasy, hvp⟩ := hidle x
      rw [update_self, Kernel.modify_self]
      constructor <;> simp [Kernel.releasedBuf, hact, hvp]
    · rw [update_of_ne hx, Kernel.modify_of_ne _ _ _ hx]
      rw [Kernel.binshash_buf, Kernel.modify_of_ne _ _ _ hx]
      exact hidle x
  · intro x
    rw [Kernel.frees_brelse]
    rfl

/-- All buffers are on a free list at the start, and of no block. -/
theorem binit_spec (n bufpages : ℕ) : (∀ x, Idle ((Kernel.binit n bufpages).buf x)) ∧
    ∀ x, (Kernel.binit n bufpages).frees x = 1 := by
  have hzero : ∀ x, Idle ((Kernel.zero : Kernel n).buf x) := fun _ => ⟨rfl, rfl, rfl, rfl⟩
  obtain ⟨hidle, hfrees⟩ :=
    idle_foldl (finRange n) hzero fun k i hidle => idle_binitLoop bufpages i hidle
  refine ⟨hidle, fun x => ?_⟩
  rw [Kernel.binit, hfrees, count_eq_one_of_mem (nodup_finRange n) (mem_finRange x)]
  rfl

theorem inv_binit (n bufpages : ℕ) :
    Inv (⟨.binit n bufpages, fun _ => .user, fun _ => [], none⟩ : State n) := by
  obtain ⟨hidle, hfrees⟩ := binit_spec n bufpages
  refine ⟨⟨fun b => ?_, fun b hb => ?_, fun b hb => ?_, fun _ => .nil, nofun, nofun, nofun⟩, ?_, ?_⟩
  · rw [hfrees, (hidle b).busy]
    rfl
  · exact absurd ((hidle b).active.symm.trans hb) Bool.false_ne_true
  · exact absurd ((hidle b).async.symm.trans hb) Bool.false_ne_true
  · rintro b vp blkno ⟨-, hvp, -⟩
    rw [(hidle b).b_vp] at hvp
    cases hvp
  · rintro b x vp blkno ⟨-, hvp, -⟩
    rw [(hidle b).b_vp] at hvp
    cases hvp

/-! ### All runs -/

/-- The law of the cache. -/
structure Safe (s : State n) : Prop where
  /-- A block has one buffer at most. -/
  unique : ∀ b x vp blkno, s.kernel.Is b vp blkno → s.kernel.Is x vp blkno → x = b
  /-- A buffer is on one free list, and once, if and only if it is not busy. -/
  free : ∀ b, s.kernel.frees b = if (s.kernel.buf b).busy then 0 else 1
  /-- No buffer is held twice. -/
  held : ∀ p q b, b ∈ s.holds p → b ∈ s.holds q → p = q

/-- In every run in which no block gets a buffer while `getblk` sleeps for a new one for it, the law
    of the cache holds. -/
theorem cache_safe {bufpages : ℕ} (hs : ((system n bufpages).restrict Fresh).Reachable s) :
    Safe s := by
  have hinv : Inv s := by
    refine System.Reachable.invariant (S := (system n bufpages).restrict Fresh) ?_ ?_ hs
    · rintro s rfl
      exact inv_binit n bufpages
    · rintro s a s' hinv ⟨hfrs, hstep⟩
      exact hinv.exec hfrs hstep
  exact ⟨hinv.unique.unique, hinv.tokens.free, hinv.tokens.alone⟩

/-- A process waits for a buffer, and gets it. -/
theorem cache_safe_waiting : ∃ s, ((system 1 1).restrict Fresh).Reachable s ∧
    s.kernel.Is 0 8 5 ∧ s.held 1 = [0] ∧ Safe s := by
  have h0 : ((system 1 1).restrict Fresh).Reachable _ := .init rfl
  have h1 := h0.step (a := Label.switch 0) ⟨trivial, rfl⟩
  have h2 := h1.step (a := Label.call 0 (.geteblk 1024)) ⟨trivial, rfl⟩
  have h3 := h2.step (a := Label.resume 0) ⟨trivial, rfl⟩
  have h4 := h3.step (a := Label.resume 0) ⟨trivial, rfl⟩
  have h5 := h4.step (a := Label.leave 0) ⟨trivial, rfl⟩
  have h6 := h5.step (a := Label.switch 1) ⟨trivial, rfl⟩
  have h7 := h6.step (a := Label.call 1 (.getblk 8 5 1024)) ⟨trivial, rfl⟩
  have h8 := h7.step (a := Label.resume 1) ⟨trivial, rfl⟩
  have h9 := h8.step (a := Label.switch 0) ⟨trivial, rfl⟩
  have h10 := h9.step (a := Label.call 0 (.brelse 0)) ⟨trivial, rfl⟩
  have h11 := h10.step (a := Label.leave 0) ⟨trivial, rfl⟩
  have h12 := h11.step (a := Label.switch 1) ⟨trivial, rfl⟩
  have h13 := h12.step (a := Label.resume 1)
    ⟨fun bp _ x hx => absurd (Subsingleton.elim x bp) hx, rfl⟩
  have h14 := h13.step (a := Label.resume 1) ⟨trivial, rfl⟩
  have h15 := h14.step (a := Label.resume 1) ⟨trivial, rfl⟩
  exact ⟨_, h15, by decide, by decide, cache_safe h15⟩

theorem reachable_foldlM {bufpages : ℕ} (l : List (Label n)) (hs : (system n bufpages).Reachable s)
    {s' : State n} (hl : l.foldlM exec s = some s') : (system n bufpages).Reachable s' := by
  induction l generalizing s with
  | nil =>
    cases hl
    exact hs
  | cons a l ih =>
    rw [foldlM_cons] at hl
    cases hstep : exec s a with
    | none =>
      rw [hstep] at hl
      cases hl
    | some t =>
      rw [hstep] at hl
      exact ih (hs.step hstep) hl

/-- Two processes wait for a buffer, for the same block: each gets one. -/
theorem cache_unsafe : ¬∀ s, (system 2 2).Reachable s → Safe s := by
  intro h
  have hrun : ∃ s : State 2,
      [.switch 0, .call 0 (.geteblk 1024), .resume 0, .resume 0, .call 0 (.geteblk 1024), .resume 0,
        .resume 0, .leave 0, .switch 1, .call 1 (.getblk 8 5 1024), .resume 1, .switch 2,
        .call 2 (.getblk 8 5 1024), .resume 2, .switch 0, .call 0 (.brelse 0), .call 0 (.brelse 1),
        .leave 0, .switch 1, .resume 1, .resume 1, .resume 1, .leave 1, .switch 2,
        Label.resume 2].foldlM exec ⟨.binit 2 2, fun _ => .user, fun _ => [], none⟩ = some s ∧
        s.kernel.Is 0 8 5 ∧ s.kernel.Is 1 8 5 := ⟨_, rfl, by decide, by decide⟩
  obtain ⟨s, hl, h0, h1⟩ := hrun
  have hsafe := h s (reachable_foldlM _ (.init rfl) hl)
  exact absurd (hsafe.unique 0 1 8 5 h0 h1) (by decide)

end Uwisc.Bio
