import Uwisc.Lib.Blocks
import Uwisc.Sys.Tty

/-!
# Clists as queues

What each routine does to one clist: the cblocks `B` it has, the free list `F`, and the
characters `l` in it (`Rep`). Of all the cblocks, a routine touches those of the free list and of
its clist only, and leaves them there (`Changes`).

* `Rep.release_all`, `Rep.release_head`, `Rep.advance`: characters are taken off the front;
* `Rep.ready`, `Rep.ready_next`, `Rep.ready_first`: where the next characters go.
-/

namespace Uwisc.Tty

open Function Lib Lib.Blocks List Option

/-- The cblocks from `a` on, up to the null pointer. -/
def FreeChain (c_next : ℕ → ℕ) : ℕ → List ℕ → Prop
  | a, [] => a = 0
  | a, f :: F => a = f ∧ FreeChain c_next (c_next f) F

/-- A clist has the characters `l` in the cblocks `B`. -/
def Queue (c : Cblocks) (q : Clist) (B : List ℕ) (l : List UInt8) : Prop :=
  B = [] ∧ l = [] ∧ q = ⟨0, 0, 0⟩ ∨
    Chars 64 4 c.c_next c.c_info q.c_cl q.c_cf B l ∧ q.c_cc = l.length

/-- The free list has the cblocks `F`, and a clist the cblocks `B` with the characters `l`. -/
structure Rep (c : Cblocks) (q : Clist) (F B : List ℕ) (l : List UInt8) : Prop where
  nodup : (F ++ B).Nodup
  aligned : ∀ b ∈ F ++ B, b % 64 = 0 ∧ 0 < b
  free : FreeChain c.c_next c.cfreelist F
  count : c.cfreecount = 60 * F.length
  queue : Queue c q B l

/-- The cblocks that were in `F` or `B` are in `F'` or `B'`, and the others are as before. -/
structure Changes (c c' : Cblocks) (F B F' B' : List ℕ) : Prop where
  perm : (F' ++ B').Perm (F ++ B)
  frame : ∀ b, b % 64 = 0 → b ∉ F ++ B → SameBlock 64 c.c_next c'.c_next c.c_info c'.c_info b

variable {c c' c'' : Cblocks} {q q' : Clist} {F F' F'' B B' B'' : List ℕ} {l bs : List UInt8}
  {a b n cf cq : ℕ}

theorem Changes.refl (c : Cblocks) (F B : List ℕ) : Changes c c F B F B :=
  ⟨.refl _, fun _ _ _ => ⟨rfl, .refl _ _ _⟩⟩

theorem Changes.trans (h : Changes c c' F B F' B') (h' : Changes c' c'' F' B' F'' B'') :
    Changes c c'' F B F'' B'' := by
  refine ⟨h'.perm.trans h.perm, fun b hb hmem => ?_⟩
  obtain ⟨hnx, hinfo⟩ := h.frame b hb hmem
  obtain ⟨hnx', hinfo'⟩ := h'.frame b hb fun h' => hmem (h.perm.subset h')
  exact ⟨hnx'.trans hnx, hinfo.trans hinfo'⟩

/-! ### The free list -/

theorem FreeChain.congr {c_next c_next' : ℕ → ℕ} (h : FreeChain c_next a F)
    (heq : ∀ f ∈ F, c_next' f = c_next f) : FreeChain c_next' a F := by
  induction F generalizing a with
  | nil => exact h
  | cons f F ih =>
    obtain ⟨hf, hF⟩ := forall_mem_cons.1 heq
    refine ⟨h.1, ?_⟩
    rw [hf]
    exact ih h.2 hF

theorem sameBlock_release (hb : b ≠ a) :
    SameBlock 64 c.c_next (c.release a).c_next c.c_info (c.release a).c_info b :=
  ⟨update_of_ne hb _ _, .refl _ _ _⟩

theorem sameBlock_acquire (hb : b ≠ c.cfreelist) :
    SameBlock 64 c.c_next c.acquire.c_next c.c_info c.acquire.c_info b :=
  ⟨update_of_ne hb _ _, .refl _ _ _⟩

theorem FreeChain.release (h : FreeChain c.c_next c.cfreelist F) (hb : b ∉ F) :
    FreeChain (c.release b).c_next (c.release b).cfreelist (b :: F) := by
  refine ⟨rfl, ?_⟩
  have hnx : (c.release b).c_next b = c.cfreelist := update_self _ _ _
  rw [hnx]
  refine h.congr fun f hf => update_of_ne ?_ _ _
  rintro rfl
  exact hb hf

/-- The first cblock of the free list is taken off. -/
theorem FreeChain.acquire (h : FreeChain c.c_next c.cfreelist (b :: F)) (hb : b ∉ F) :
    c.cfreelist = b ∧ FreeChain c.acquire.c_next c.acquire.cfreelist F := by
  obtain ⟨heq, hF⟩ := h
  refine ⟨heq, ?_⟩
  rw [← heq] at hF
  refine hF.congr fun f hf => update_of_ne ?_ _ _
  rintro rfl
  exact hb (heq ▸ hf)

/-! ### Taking characters off the front -/

theorem cblock_eq (hb : b % 64 = 0) (hle : b ≤ a) (hlt : a < b + 64) : cblock a = b := by
  rw [cblock]
  omega

/-- What is at the front of a clist. -/
theorem Rep.front (h : Rep c q F B l) (hl : l ≠ []) :
    ∃ b B', B = b :: B' ∧ b % 64 = 0 ∧ 0 < b ∧ b + 4 ≤ q.c_cf ∧ q.c_cf < b + 64 ∧
      q.c_cc = l.length ∧ Chars 64 4 c.c_next c.c_info q.c_cl q.c_cf (b :: B') l := by
  rcases h.queue with ⟨-, rfl, -⟩ | ⟨hc, hcc⟩
  · exact absurd rfl hl
  · obtain ⟨b, B', rfl, hcf, hlt⟩ := hc.head
    obtain ⟨hb, hpos⟩ := h.aligned b (mem_append_right _ mem_cons_self)
    exact ⟨b, B', rfl, hb, hpos, hcf, hlt, hcc, hc⟩

theorem Rep.nil_iff (h : Rep c q F B l) : l = [] ↔ q.c_cc = 0 := by
  rcases h.queue with ⟨-, rfl, rfl⟩ | ⟨hc, hcc⟩
  · simp
  · have := length_pos_of_ne_nil hc.ne_nil
    constructor
    · rintro rfl
      rw [hcc]
      rfl
    · intro h
      omega

/-- A cblock of the clist goes to the free list. -/
theorem Rep.release (h : Rep c q F (b :: B) l) (hq : Queue (c.release b) q' B bs) :
    Rep (c.release b) q' (b :: F) B bs ∧ Changes c (c.release b) F (b :: B) (b :: F) B := by
  obtain ⟨hnd, hali, hfree, hcnt, -⟩ := h
  have hperm : (b :: F ++ B).Perm (F ++ b :: B) := perm_middle.symm
  have hb : b ∉ F := fun hmem => by
    exact (nodup_append.1 hnd).2.2 b hmem b mem_cons_self rfl
  refine ⟨⟨hperm.nodup_iff.2 hnd, fun x hx => hali x (hperm.subset hx), hfree.release hb, ?_,
    hq⟩, hperm, fun x _ hx => sameBlock_release ?_⟩
  · simp only [Cblocks.release, hcnt, length_cons]
    omega
  · rintro rfl
    exact hx (mem_append_right _ mem_cons_self)

/-- The characters of a clist that has one cblock are all taken. -/
theorem Rep.release_all (h : Rep c q F [b] l) :
    Rep (c.release b) ⟨0, 0, 0⟩ (b :: F) [] [] ∧ Changes c (c.release b) F [b] (b :: F) [] :=
  h.release (.inl ⟨rfl, rfl, rfl⟩)

/-- The characters of the first cblock are taken. -/
theorem Rep.release_head (h : Rep c q F (b :: B) l) (hn : n < l.length)
    (hc : Chars 64 4 c.c_next c.c_info q.c_cl q.c_cf (b :: B) l) (hfit : q.c_cf + n = b + 64) :
    Rep (c.release b) ⟨l.length - n, info (c.c_next b), q.c_cl⟩ (b :: F) B (l.drop n) ∧
      Changes c (c.release b) F (b :: B) (b :: F) B := by
  obtain ⟨b', B', rfl, hnx, htail⟩ := hc.drop_block hn hfit
  refine h.release (.inr ⟨?_, ?_⟩)
  · rw [hnx]
    refine htail.congr fun x hx => sameBlock_release ?_
    rintro rfl
    exact (nodup_cons.1 (nodup_append.1 h.nodup).2.1).1 hx
  · rw [length_drop]
    dsimp only
    omega

/-- Characters are taken, and there are others in the cblock. -/
theorem Rep.advance (h : Rep c q F (b :: B) l) (hn : n < l.length)
    (hc : Chars 64 4 c.c_next c.c_info q.c_cl q.c_cf (b :: B) l) (hfit : q.c_cf + n < b + 64) :
    Rep c ⟨l.length - n, q.c_cf + n, q.c_cl⟩ F (b :: B) (l.drop n) := by
  obtain ⟨hnd, hali, hfree, hcnt, -⟩ := h
  refine ⟨hnd, hali, hfree, hcnt, .inr ⟨hc.drop_within hn hfit, ?_⟩⟩
  rw [length_drop]
  dsimp only
  omega

/-- A clist that is empty has no cblocks. -/
theorem Rep.eq_nil (h : Rep c q F B []) : B = [] ∧ q = ⟨0, 0, 0⟩ := by
  rcases h.queue with ⟨hB, -, hq⟩ | ⟨hc, -⟩
  · exact ⟨hB, hq⟩
  · exact absurd rfl hc.ne_nil

theorem getc_nil (h : Rep c q F B []) : getc c q = (-1, c, q) := by
  rw [h.eq_nil.2]
  rfl

variable {fuel f rm : ℕ} {F1 B1 : List ℕ} {c1 : Cblocks} {ch : UInt8} {cp : List UInt8}

theorem getc_spec (h : Rep c q F B (ch :: l)) :
    ∃ c' q' F' B', getc c q = ((ch.toNat : ℤ), c', q') ∧ Rep c' q' F' B' l ∧
      Changes c c' F B F' B' := by
  obtain ⟨b, B', rfl, hb, hpos, hcf, hlt, hcc, hc⟩ := h.front (cons_ne_nil _ _)
  rw [length_cons] at hcc
  have hch : c.c_info q.c_cf = ch := by
    have htake := hc.take (n := 1) (by simp) (by omega)
    simpa [bytes, eq_comm] using htake
  have hcc' : q.c_cc - 1 = l.length := by omega
  rw [getc, if_neg (by omega)]
  simp only [hcc', hch, Nat.add_sub_cancel]
  cases l with
  | nil =>
    obtain ⟨rfl, -⟩ := hc.single (by simp; omega)
    rw [if_pos (by simp), cblock_eq hb (by omega) hlt]
    exact ⟨_, _, _, _, rfl, h.release_all⟩
  | cons ch' l =>
    rw [if_neg (by simp)]
    split_ifs with hfull
    · have hblk : q.c_cf + 1 - 64 = b := by omega
      rw [hblk]
      have := h.release_head (n := 1) (by simp) hc (by omega)
      exact ⟨_, _, _, _, rfl, by simpa using this⟩
    · have := h.advance (n := 1) (by simp) hc (by omega)
      exact ⟨_, _, _, _, rfl, by simpa using this, .refl _ _ _⟩

/-- The loop of `q_to_b` takes the first characters. If there are others then, it has released
    cblocks for all but the last few of those it took. -/
theorem qToBLoop_spec {cc : ℕ} (h : Rep c q F B l) (hl : l ≠ []) (hfuel : cc ≤ fuel) :
    ∃ c' q' F' B', qToBLoop fuel c q cc = some (l.take cc, c', q') ∧
      Rep c' q' F' B' (l.drop cc) ∧ Changes c c' F B F' B' ∧
      (B' = [] ∨ cc < 60 * (F'.length + 1 - F.length) ∧ F.length ≤ F'.length) := by
  induction fuel generalizing c q F B l cc with
  | zero =>
    obtain rfl : cc = 0 := by omega
    exact ⟨c, q, F, B, by rw [qToBLoop, if_pos rfl, take_zero], h, .refl _ _ _, .inr (by omega)⟩
  | succ fuel ih =>
    rw [qToBLoop]
    by_cases hzero : cc = 0
    · subst hzero
      exact ⟨c, q, F, B, by rw [if_pos rfl, take_zero], h, .refl _ _ _, .inr (by omega)⟩
    · rw [if_neg hzero]
      obtain ⟨b, B', rfl, hb, hpos, hcf, hlt, hcc, hc⟩ := h.front hl
      have hlen := length_pos_of_ne_nil hl
      simp only [hcc, Int.toNat_natCast]
      generalize hn : min (min (64 - q.c_cf % 64) cc) l.length = n
      have htake := hc.take (n := n) (by omega) (by omega)
      rw [← htake]
      by_cases hall : n = l.length
      · obtain ⟨rfl, -⟩ := hc.single (by omega)
        have hle : l.length ≤ cc := by omega
        rw [if_pos (by omega), cblock_eq hb (by omega) (by omega), hall, take_of_length_le le_rfl,
          take_of_length_le hle, drop_of_length_le hle, sub_self]
        exact ⟨_, _, _, _, rfl, h.release_all.1, h.release_all.2, .inl rfl⟩
      · rw [if_neg (by omega)]
        have hdrop : l.drop n ≠ [] := fun heq => by
          have := congrArg length heq
          rw [length_drop, length_nil] at this
          omega
        have happ : ∀ k, l.take n ++ (l.drop n).take k = l.take (n + k) := fun k =>
          take_add.symm
        have hrs : cc - n ≤ fuel := by omega
        by_cases hfull : (q.c_cf + n) % 64 = 0
        · have hblk : q.c_cf + n - 64 = b := by omega
          obtain ⟨hrep, hch⟩ := h.release_head (n := n) (by omega) hc (by omega)
          obtain ⟨c', q', F', B'', heq, hrep', hch', hF⟩ := ih hrep hdrop hrs
          rw [if_pos hfull, hblk, heq]
          refine ⟨c', q', F', B'', ?_, ?_, hch.trans hch', hF.imp_right fun hF => ?_⟩
          · simp only [map_some]
            rw [happ, Nat.add_sub_cancel' (by omega)]
          · rwa [drop_drop, Nat.add_sub_cancel' (by omega)] at hrep'
          · rw [length_cons] at hF
            omega
        · have hrep := h.advance (n := n) (by omega) hc (by omega)
          obtain ⟨c', q', F', B'', heq, hrep', hch', hF⟩ := ih hrep hdrop hrs
          rw [if_neg hfull, heq]
          refine ⟨c', q', F', B'', ?_, ?_, hch', ?_⟩
          · simp only [map_some]
            rw [happ, Nat.add_sub_cancel' (by omega)]
          · rwa [drop_drop, Nat.add_sub_cancel' (by omega)] at hrep'
          · -- fewer than a cblock holds
            rcases hF with hF | ⟨-, hF⟩
            · exact .inl hF
            · exact .inr ⟨by omega, hF⟩

theorem qToB_spec (h : Rep c q F B l) (cc : ℤ) :
    ∃ c' q' F' B', qToB c q cc = some (l.take cc.toNat, c', q') ∧
      Rep c' q' F' B' (l.drop cc.toNat) ∧ Changes c c' F B F' B' ∧
      (B' = [] ∨ cc.toNat < 60 * (F'.length + 1 - F.length)) := by
  rw [qToB]
  by_cases hcc : cc ≤ 0
  · rw [if_pos hcc, Int.toNat_of_nonpos hcc, take_zero]
    exact ⟨c, q, F, B, rfl, h, .refl _ _ _, .inr (by omega)⟩
  · rw [if_neg hcc]
    by_cases hl : l = []
    · have hzero := h.nil_iff.1 hl
      rw [if_pos (by omega)]
      subst hl
      rcases h.queue with ⟨rfl, -, rfl⟩ | ⟨hc, -⟩
      · exact ⟨c, _, F, [], by rw [take_nil], by rwa [drop_nil], .refl _ _ _, .inl rfl⟩
      · exact absurd rfl hc.ne_nil
    · have hlen := length_pos_of_ne_nil hl
      obtain ⟨-, -, -, -, -, -, -, hq, -⟩ := h.front hl
      rw [if_neg (by omega)]
      obtain ⟨c', q', F', B', heq, hrep, hch, hF⟩ := qToBLoop_spec h hl (le_refl cc.toNat)
      exact ⟨c', q', F', B', heq, hrep, hch, hF.imp_right And.left⟩

/-- The loop of `ndflush` takes the first characters; the pointers are stale if it takes all. -/
theorem ndflushLoop_spec {cc : ℤ} (h : Rep c q F B l) (hl : l ≠ [])
    (hfuel : cc.toNat ≤ fuel) :
    ∃ c' q' F' B', ndflushLoop fuel c q cc = some (c', q') ∧ q'.c_cc = (l.drop cc.toNat).length ∧
      Rep c' (if q'.c_cc ≤ 0 then ⟨0, 0, 0⟩ else q') F' B' (l.drop cc.toNat) ∧
      Changes c c' F B F' B' := by
  have hlen := length_pos_of_ne_nil hl
  induction fuel generalizing c q F B l cc with
  | zero =>
    obtain ⟨-, -, -, -, -, -, -, hcc, -⟩ := h.front hl
    have hzero : cc.toNat = 0 := by omega
    refine ⟨c, q, F, B, ?_, ?_, ?_, .refl _ _ _⟩
    · rw [ndflushLoop, if_pos (.inl (by omega))]
    · rw [hzero, drop_zero, hcc]
    · rwa [hzero, drop_zero, if_neg (by omega)]
  | succ fuel ih =>
    obtain ⟨b, B', rfl, hb, hpos, hcf, hlt, hcc, hc⟩ := h.front hl
    rw [ndflushLoop]
    by_cases hzero : cc ≤ 0
    · refine ⟨c, q, F, _, ?_, ?_, ?_, .refl _ _ _⟩
      · rw [if_pos (.inl hzero)]
      · rw [Int.toNat_of_nonpos hzero, drop_zero, hcc]
      · rwa [Int.toNat_of_nonpos hzero, drop_zero, if_neg (by omega)]
    · rw [if_neg (by omega)]
      dsimp only
      have hblk : cblock q.c_cf = b := cblock_eq hb (by omega) hlt
      rw [hblk, hcc]
      by_cases hB : B' = []
      · -- this cblock is the last one
        subst hB
        obtain ⟨-, hlt', hcl, hnx, rfl⟩ := hc
        rw [length_bytes] at hcc hlen ⊢
        rw [cblock_eq hb (by omega) (by omega), if_pos rfl]
        by_cases hall : (q.c_cl : ℤ) - q.c_cf ≤ cc
        · have hdrop : (bytes c.c_info q.c_cf (q.c_cl - q.c_cf)).drop cc.toNat = [] :=
            drop_of_length_le (by rw [length_bytes]; omega)
          have hstop : ∀ p cc, p.c_cc = 0 →
              ndflushLoop fuel (c.release b) p cc = some (c.release b, p) := fun p cc hp => by
            unfold ndflushLoop
            rw [if_pos (.inr hp)]
          obtain ⟨hrep, hch⟩ := h.release_all
          rw [if_pos hall, hdrop, hstop _ _ (by dsimp only; omega)]
          refine ⟨_, _, _, _, rfl, ?_, ?_, hch⟩
          · dsimp only
            rw [length_nil]
            omega
          · rw [if_pos (by dsimp only; omega)]
            exact hrep
        · have hrep := h.advance (n := cc.toNat) (by rw [length_bytes]; omega)
            ⟨hcf, hlt', hcl, hnx, rfl⟩ (by omega)
          rw [length_bytes] at hrep
          rw [if_neg hall, if_neg (by omega)]
          refine ⟨_, _, _, _, rfl, ?_, ?_, .refl _ _ _⟩
          · dsimp only
            rw [length_drop, length_bytes]
            omega
          · have hcc' : ((q.c_cl - q.c_cf : ℕ) : ℤ) - cc = (q.c_cl - q.c_cf : ℕ) - (cc.toNat : ℤ) := by
              omega
            rw [if_neg (by dsimp only; omega), hcc']
            exact hrep
      · obtain ⟨z, hz, hzl, hzr⟩ := hc.end_mem
        have hzmem : z ∈ B' := by
          cases B' with
          | nil => exact absurd rfl hB
          | cons y B' =>
            rw [getLast?_cons_cons] at hz
            exact mem_of_getLast? hz
        have hne : b ≠ z := fun heq =>
          (nodup_cons.1 (nodup_append.1 h.nodup).2.1).1 (heq ▸ hzmem)
        have hzmod := (h.aligned z (mem_append_right _ (mem_cons_of_mem _ hzmem))).1
        have hmore : b + 64 - q.c_cf < l.length := by
          by_contra hle
          exact hB (hc.single (by omega)).1
        rw [cblock_eq hzmod (by omega) (by omega), if_neg hne]
        by_cases hall : ((b + 64 : ℕ) : ℤ) - q.c_cf ≤ cc
        · obtain ⟨hrep, hch⟩ := h.release_head (n := b + 64 - q.c_cf) hmore hc (by omega)
          have hdrop : l.drop (b + 64 - q.c_cf) ≠ [] := fun heq => by
            have := congrArg length heq
            rw [length_drop, length_nil] at this
            omega
          have hrs : (cc - (((b + 64 : ℕ) : ℤ) - q.c_cf)).toNat ≤ fuel := by omega
          obtain ⟨c', q', F', B'', heq, hcc', hrep', hch'⟩ := ih hrep hdrop hrs
            (length_pos_of_ne_nil hdrop)
          rw [drop_drop] at hcc' hrep'
          have hsum : b + 64 - q.c_cf + (cc - (((b + 64 : ℕ) : ℤ) - q.c_cf)).toNat = cc.toNat := by
            omega
          rw [hsum] at hcc' hrep'
          have hleft : (l.length : ℤ) - (((b + 64 : ℕ) : ℤ) - q.c_cf) =
              l.length - (b + 64 - q.c_cf : ℕ) := by
            omega
          rw [if_pos hall, hleft]
          exact ⟨c', q', F', B'', heq, hcc', hrep', hch.trans hch'⟩
        · have hrep := h.advance (n := cc.toNat) (by omega) hc (by omega)
          rw [if_neg hall, if_neg (by omega)]
          refine ⟨_, _, _, _, rfl, ?_, ?_, .refl _ _ _⟩
          · dsimp only
            rw [length_drop]
            omega
          · have hcc' : (l.length : ℤ) - cc = l.length - (cc.toNat : ℤ) := by omega
            rw [if_neg (by dsimp only; omega), hcc']
            exact hrep

theorem ndflush_spec (h : Rep c q F B l) (cc : ℤ) :
    ∃ c' q' F' B', ndflush c q cc = some (c', q') ∧ Rep c' q' F' B' (l.drop cc.toNat) ∧
      Changes c c' F B F' B' := by
  rw [ndflush]
  by_cases hl : l = []
  · have hzero := h.nil_iff.1 hl
    subst hl
    rw [if_pos (by omega), drop_nil]
    exact ⟨c, q, F, B, rfl, h, .refl _ _ _⟩
  · have hlen := length_pos_of_ne_nil hl
    obtain ⟨-, -, -, -, -, -, -, hq, -⟩ := h.front hl
    obtain ⟨c', q', F', B', heq, -, hrep, hch⟩ := ndflushLoop_spec h hl (le_refl cc.toNat)
    rw [if_neg (by omega), heq, map_some]
    dsimp only
    split_ifs at hrep ⊢
    · exact ⟨_, _, _, _, rfl, hrep, hch⟩
    · exact ⟨_, _, _, _, rfl, hrep, hch⟩

/-! ### Putting characters on the end -/

/-- Characters put at `cq` go on the end of `l`, with the clist beginning at `cf`. -/
def Ready (c : Cblocks) (cf cq : ℕ) (F B : List ℕ) (l : List UInt8) : Prop :=
  cq % 64 ≠ 0 ∧ ∀ bs, bs ≠ [] → cq % 64 + bs.length ≤ 64 →
    Rep { c with c_info := store c.c_info cq bs } ⟨l.length + bs.length, cf, cq + bs.length⟩ F B
      (l ++ bs) ∧
    Changes c { c with c_info := store c.c_info cq bs } F B F B

theorem Changes.store {B0 : List ℕ} (hfit : b ≤ a) (hlt : a + bs.length ≤ b + 64) (hb : b % 64 = 0) :
    Changes c { c with c_info := store c.c_info a bs } F (B0 ++ [b]) F (B0 ++ [b]) := by
  refine ⟨.refl _, fun x hx hmem => ⟨rfl, sameOn_store ?_⟩⟩
  have hne : x ≠ b := by
    rintro rfl
    exact hmem (mem_append_right _ (mem_append_right _ mem_cons_self))
  omega

/-- There is room in the last cblock. -/
theorem Rep.ready (h : Rep c q F B l) (hl : l ≠ []) (hcl : q.c_cl % 64 ≠ 0) :
    Ready c q.c_cf q.c_cl F B l := by
  obtain ⟨hnd, hali, hfree, hcnt, hq⟩ := h
  rcases hq with ⟨-, rfl, -⟩ | ⟨hc, hcc⟩
  · exact absurd rfl hl
  · obtain ⟨B0, b, lo, -, rfl, -, -, ⟨hlo, hlt, hle, -⟩, -⟩ := hc.last
    have hb := (hali b (by simp)).1
    refine ⟨hcl, fun bs hbs hfit => ⟨⟨hnd, hali, hfree, hcnt, .inr ⟨?_, ?_⟩⟩,
      .store (by omega) (by omega) hb⟩⟩
    · refine hc.append (by omega) (fun x hx => ⟨rfl, sameOn_store ?_⟩)
        (sameOn_store (.inl le_rfl)) (bytes_store _ _ _)
      have hx' := (hali x (by simp [hx])).1
      have hne : x ≠ b := by
        rintro rfl
        exact (nodup_append.1 (nodup_append.1 hnd).2.1).2.2 x hx x (by simp) rfl
      omega
    · rw [length_append]
      rfl

/-- There is no room, and a cblock of the free list comes next. -/
theorem Rep.ready_next (h : Rep c q (f :: F) B l) (hl : l ≠ []) (hcl : q.c_cl % 64 = 0) :
    c.cfreelist = f ∧ 0 < q.c_cl ∧
    Ready (c.link (q.c_cl - 64)).acquire q.c_cf (info f) F (B ++ [f]) l ∧
      Changes c (c.link (q.c_cl - 64)).acquire (f :: F) B F (B ++ [f]) := by
  obtain ⟨hnd, hali, hfree, hcnt, hq⟩ := h
  rcases hq with ⟨-, rfl, -⟩ | ⟨hc, hcc⟩
  · exact absurd rfl hl
  · obtain ⟨B0, b, lo, -, rfl, -, -, ⟨hlo, hlt, hle, -⟩, -⟩ := hc.last
    have hb := (hali b (by simp)).1
    have hf := (hali f (by simp)).1
    have hfull : q.c_cl = b + 64 := by omega
    have hperm : (F ++ (B0 ++ [b] ++ [f])).Perm (f :: F ++ (B0 ++ [b])) := by
      rw [← append_assoc]
      exact (perm_append_singleton f (F ++ (B0 ++ [b]))).trans (.refl _)
    obtain ⟨hfst, hfree⟩ := hfree
    -- all of the cblocks are different
    have hnd' := hperm.nodup_iff.2 hnd
    have hfF : f ∉ F := (nodup_cons.1 (nodup_append.1 hnd).1).1
    have hbF : ∀ x ∈ F, x ≠ b := fun x hx =>
      (nodup_append.1 hnd).2.2 x (mem_cons_of_mem _ hx) b (by simp)
    have hfB : ∀ x ∈ B0 ++ [b], f ≠ x := (nodup_append.1 hnd).2.2 f mem_cons_self
    have hbB : ∀ x ∈ B0, x ≠ b := fun x hx =>
      (nodup_append.1 (nodup_append.1 hnd).2.1).2.2 x hx b (by simp)
    have hfb : f ≠ b := hfB b (by simp)
    have hlink : q.c_cl - 64 = b := by omega
    have hnx : (c.link b).acquire.c_next = update (update c.c_next b f) f 0 := by
      simp [Cblocks.link, Cblocks.acquire, hfst]
    have hoth : ∀ x, x ≠ b → x ≠ f → (c.link b).acquire.c_next x = c.c_next x := by
      intro x hxb hxf
      rw [hnx, update_of_ne hxf, update_of_ne hxb]
    have hlist : (c.link b).acquire.cfreelist = c.c_next f := by
      simp [Cblocks.link, Cblocks.acquire, hfst, update_of_ne hfb]
    rw [hlink]
    refine ⟨hfst, by omega, ⟨by rw [info]; omega, fun bs hbs hfit =>
      ⟨⟨hnd', fun x hx => hali x (hperm.subset hx), ?_, ?_, .inr ⟨?_, ?_⟩⟩, ?_⟩⟩, hperm,
      fun x hx hmem => ?_⟩
    · dsimp only
      rw [hlist]
      exact hfree.congr fun x hx => hoth x (hbF x hx) fun heq => hfF (heq ▸ hx)
    · simp only [Cblocks.acquire, Cblocks.link, hcnt, length_cons]
      omega
    · rw [info] at hfit ⊢
      rw [hfull] at hc
      refine hc.extend hbs (by omega) (fun x hx => ⟨?_, sameOn_store ?_⟩) (sameOn_store ?_) ?_ ?_
        (bytes_store _ _ _)
      · exact hoth x (hbB x hx) (hfB x (mem_append_left _ hx)).symm
      · have := (hali x (by simp [hx])).1
        have := hfB x (mem_append_left _ hx)
        omega
      · omega
      · dsimp only
        rw [hnx, update_of_ne hfb.symm, update_self]
      · dsimp only
        rw [hnx, update_self]
    · rw [length_append]
      rfl
    · rw [info] at hfit ⊢
      exact .store (b := f) (by omega) (by omega) hf
    · have hxf : x ≠ f := by
        rintro rfl
        exact hmem (by simp)
      have hxb : x ≠ b := by
        rintro rfl
        exact hmem (by simp)
      exact ⟨hoth x hxb hxf, .refl _ _ _⟩

/-- The clist is empty, and gets a cblock of the free list. -/
theorem Rep.ready_first (h : Rep c q (f :: F) [] []) :
    c.cfreelist = f ∧ Ready c.acquire (info f) (info f) F [f] [] ∧
      Changes c c.acquire (f :: F) [] F [f] := by
  obtain ⟨hnd, hali, hfree, hcnt, -⟩ := h
  have hf := (hali f (by simp)).1
  have hfF : f ∉ F := (nodup_cons.1 (nodup_append.1 hnd).1).1
  have hperm : (F ++ [f]).Perm (f :: F ++ []) := by
    rw [append_nil]
    exact perm_append_singleton f F
  obtain ⟨hfst, hfree⟩ := hfree.acquire hfF
  refine ⟨hfst, ⟨by rw [info]; omega, fun bs hbs hfit =>
    ⟨⟨hperm.nodup_iff.2 hnd, fun x hx => hali x (hperm.subset hx), hfree, ?_,
      .inr ⟨?_, ?_⟩⟩, ?_⟩⟩, hperm, fun x hx hmem => sameBlock_acquire ?_⟩
  · simp only [Cblocks.acquire, hcnt, length_cons]
    omega
  · have hpos := length_pos_of_ne_nil hbs
    rw [info] at hfit ⊢
    refine ⟨le_rfl, by dsimp only; omega, by dsimp only; omega, ?_, ?_⟩
    · dsimp only
      rw [Cblocks.acquire, hfst]
      exact update_self _ _ _
    · dsimp only
      rw [Nat.add_sub_cancel_left, bytes_store, nil_append]
  · rw [nil_append, length_nil]
    dsimp only
    omega
  · rw [info] at hfit ⊢
    rw [← nil_append [f]]
    exact .store (by omega) (by omega) hf
  · rintro rfl
    exact hmem (by simp [hfst])

/-- How many characters still fit: in the free cblocks, and in the last cblock of the clist. -/
def room (F : List ℕ) (c_cl : ℕ) : ℕ :=
  60 * F.length + if c_cl % 64 = 0 then 0 else 64 - c_cl % 64

theorem room_of_full (h : cq % 64 = 0) : room F cq = 60 * F.length := by
  rw [room, if_pos h, add_zero]

theorem room_of_part (h : cq % 64 ≠ 0) : room F cq = 60 * F.length + (64 - cq % 64) := by
  rw [room, if_neg h]

theorem Rep.cfreelist_eq_zero (h : Rep c q F B l) : c.cfreelist = 0 ↔ F = [] := by
  cases F with
  | nil => exact ⟨fun _ => rfl, fun _ => h.free⟩
  | cons f F =>
    have hf := (h.aligned f (by simp)).2
    have heq : c.cfreelist = f := h.free.1
    constructor
    · intro hzero
      omega
    · intro hF
      cases hF

/-- The clist is as it was, but for a null pointer that is stored again. -/
theorem Rep.link (h : Rep c q [] B l) (hl : l ≠ []) (hcl : q.c_cl % 64 = 0) :
    c.link (q.c_cl - 64) = c := by
  rcases h.queue with ⟨-, rfl, -⟩ | ⟨hc, -⟩
  · exact absurd rfl hl
  · obtain ⟨B0, b, lo, -, rfl, -, -, ⟨hlo, hlt, hle, hnx, -⟩, -⟩ := hc.last
    have hb := (h.aligned b (by simp)).1
    have hlink : q.c_cl - 64 = b := by omega
    have hzero : c.cfreelist = 0 := h.free
    have hupd : update c.c_next b c.cfreelist = c.c_next := by
      have := update_eq_self b c.c_next
      rw [hzero]
      rwa [hnx] at this
    rw [hlink, Cblocks.link, hupd]

/-- The pointer to the end is null for an empty clist only. -/
theorem Rep.c_cl_eq_zero (h : Rep c q F B l) : (q.c_cl = 0 ∨ q.c_cc < 0) ↔ l = [] := by
  rcases h.queue with ⟨-, rfl, rfl⟩ | ⟨hc, hcc⟩
  · simp
  · obtain ⟨B0, b, lo, -, rfl, -, -, ⟨hlo, hlt, -⟩, -⟩ := hc.last
    have := length_pos_of_ne_nil hc.ne_nil
    constructor
    · intro h
      omega
    · rintro rfl
      exact absurd rfl hc.ne_nil

theorem putc_spec (h : Rep c q F B l) (ch : ℤ) : (room F q.c_cl = 0 ∧ putc ch c q = (-1, c, q)) ∨
    room F q.c_cl ≠ 0 ∧ ∃ c' q' F' B', putc ch c q = (0, c', q') ∧ Rep c' q' F' B' (l ++ [charOf ch]) ∧
      Changes c c' F B F' B' := by
  rw [putc]
  have hput : ∀ {c1 : Cblocks} (q1 : Clist) {cq : ℕ} {F1 B1 : List ℕ},
      Ready c1 q1.c_cf cq F1 B1 l → q1.c_cc = l.length → Changes c c1 F B F1 B1 →
      ∃ c' q' F' B', ((0 : ℤ), ({ c1 with c_info := store c1.c_info cq [charOf ch] } : Cblocks),
          ({ q1 with c_cc := q1.c_cc + 1, c_cl := cq + 1 } : Clist)) = (0, c', q') ∧
        Rep c' q' F' B' (l ++ [charOf ch]) ∧ Changes c c' F B F' B' := by
    intro c1 q1 cq F1 B1 hrdy hcc hch
    obtain ⟨hrep, hch'⟩ := hrdy.2 [charOf ch] (by simp) (by simp; omega)
    refine ⟨_, _, _, _, rfl, ?_, hch.trans hch'⟩
    rw [hcc]
    exact hrep
  by_cases hl : l = []
  · subst hl
    have hzero := h.nil_iff.1 rfl
    rw [if_pos (h.c_cl_eq_zero.2 rfl)]
    have hB : B = [] := by
      rcases h.queue with ⟨hB, -⟩ | ⟨hc, -⟩
      · exact hB
      · exact absurd rfl hc.ne_nil
    subst hB
    cases F with
    | nil =>
      rw [if_pos (h.cfreelist_eq_zero.2 rfl)]
      refine .inl ⟨?_, rfl⟩
      rcases h.queue with ⟨-, -, rfl⟩ | ⟨hc, -⟩
      · rfl
      · exact absurd rfl hc.ne_nil
    | cons f F =>
      obtain ⟨hfst, hrdy, hch⟩ := h.ready_first
      rw [if_neg fun hnull => cons_ne_nil _ _ (h.cfreelist_eq_zero.1 hnull), hfst]
      refine .inr ⟨?_, hput { q with c_cf := info f } hrdy hzero hch⟩
      rw [room, length_cons]
      omega
  · obtain ⟨-, -, -, -, -, -, -, hcc, -⟩ := h.front hl
    rw [if_neg fun hnull => hl (h.c_cl_eq_zero.1 hnull)]
    by_cases hcl : q.c_cl % 64 = 0
    · rw [if_pos hcl]
      cases F with
      | nil =>
        have hnull := h.cfreelist_eq_zero.2 rfl
        dsimp only
        rw [h.link hl hcl, if_pos hnull]
        exact .inl ⟨room_of_full hcl, rfl⟩
      | cons f F =>
        obtain ⟨hfst, -, hrdy, hch⟩ := h.ready_next hl hcl
        have hlink : (c.link (q.c_cl - 64)).cfreelist = f := hfst
        have hne : (c.link (q.c_cl - 64)).cfreelist ≠ 0 := fun hnull =>
          cons_ne_nil _ _ (h.cfreelist_eq_zero.1 hnull)
        dsimp only
        rw [if_neg hne, hlink]
        refine .inr ⟨?_, hput q hrdy hcc hch⟩
        rw [room, length_cons]
        omega
    · rw [if_neg hcl]
      refine .inr ⟨?_, hput q (h.ready hl hcl) hcc (.refl _ _ _)⟩
      rw [room_of_part hcl]
      omega

/-- What the loop of `b_to_q` returns, when it has put the characters `cp` on the end of `l`, and
    `rm` fit: some are left if there is no room for them. -/
def Put (c : Cblocks) (cf : ℕ) (F B : List ℕ) (l cp : List UInt8) (rm : ℕ)
    (r : Option (List UInt8 × Cblocks × ℕ)) : Prop :=
  ∃ k c' cq' F' B', r = some (cp.drop k, c', cq') ∧ k ≤ cp.length ∧
    Rep c' ⟨(l ++ cp.take k).length, cf, cq'⟩ F' B' (l ++ cp.take k) ∧ Changes c c' F B F' B' ∧
    room F' cq' + k = rm ∧ (k < cp.length → room F' cq' = 0)

/-- A round of the loop, and then the others. -/
theorem Ready.copy (h : Ready c1 cf cq F1 B1 l) (hcp : cp ≠ []) (hch : Changes c c1 F B F1 B1)
    (hrm : rm = 60 * F1.length + (64 - cq % 64))
    (hrs : ∀ {c' cq' l' cp'}, l' ≠ [] → Rep c' ⟨l'.length, cf, cq'⟩ F1 B1 l' →
      cp'.length ≤ fuel → Put c' cf F1 B1 l' cp' (room F1 cq') (bToQLoop fuel c' cq' cp'))
    (hfuel : cp.length ≤ fuel + 1) :
    Put c cf F B l cp rm (bToQLoop fuel
      { c1 with c_info := store c1.c_info cq (cp.take (min cp.length (64 - cq % 64))) }
      (cq + min cp.length (64 - cq % 64)) (cp.drop (min cp.length (64 - cq % 64)))) := by
  have hlen := length_pos_of_ne_nil hcp
  have hmod := h.1
  generalize hn : min cp.length (64 - cq % 64) = n
  have htake : (cp.take n).length = n := by
    rw [length_take]
    omega
  have hne : cp.take n ≠ [] := ne_nil_of_length_pos (by omega)
  obtain ⟨hrep, hch'⟩ := h.2 (cp.take n) hne (by omega)
  rw [htake] at hrep
  have hleng : (l.length : ℤ) + n = (l ++ cp.take n).length := by
    rw [length_append, htake]
    omega
  rw [hleng] at hrep
  have hdrop : (cp.drop n).length ≤ fuel := by
    rw [length_drop]
    omega
  obtain ⟨k, c', cq', F', B', heq, hk, hrep', hch'', hroom, hleft⟩ :=
    hrs (append_ne_nil_of_right_ne_nil _ hne) hrep hdrop
  rw [length_drop] at hk hleft
  have happ : l ++ cp.take n ++ (cp.drop n).take k = l ++ cp.take (n + k) := by
    rw [append_assoc, ← take_add]
  rw [happ] at hrep'
  refine ⟨n + k, c', cq', F', B', ?_, by omega, hrep', (hch.trans hch').trans hch'', ?_,
    fun hlt => hleft (by omega)⟩
  · rw [heq, drop_drop]
  · conv_rhs at hroom => rw [room]
    split_ifs at hroom <;> omega

theorem Rep.put_nil (h : Rep c ⟨l.length, cf, cq⟩ F B l) :
    Put c cf F B l [] (room F cq) (some ([], c, cq)) :=
  ⟨0, c, cq, F, B, rfl, le_rfl, by simpa using h, .refl _ _ _, rfl, fun h => absurd h (by simp)⟩

theorem bToQLoop_spec (hl : l ≠ [])
    (h : Rep c ⟨l.length, cf, cq⟩ F B l) (hfuel : cp.length ≤ fuel) :
    Put c cf F B l cp (room F cq) (bToQLoop fuel c cq cp) := by
  induction fuel generalizing c cq F B l cp with
  | zero =>
    have hcp : cp = [] := eq_nil_of_length_eq_zero (by omega)
    subst hcp
    rw [bToQLoop, if_pos rfl]
    exact h.put_nil
  | succ fuel ih =>
    have hrs : ∀ {F1 B1 : List ℕ} {c' cq' l' cp'}, l' ≠ [] → Rep c' ⟨l'.length, cf, cq'⟩ F1 B1 l' →
        cp'.length ≤ fuel → Put c' cf F1 B1 l' cp' (room F1 cq') (bToQLoop fuel c' cq' cp') :=
      fun hl' h' hfuel' => ih hl' h' hfuel'
    rw [bToQLoop]
    by_cases hcp : cp = []
    · subst hcp
      rw [if_pos rfl]
      exact h.put_nil
    · rw [if_neg hcp]
      dsimp only
      by_cases hcl : cq % 64 = 0
      · rw [if_pos hcl]
        cases F with
        | nil =>
          have hnull := h.cfreelist_eq_zero.2 rfl
          have hlink := h.link hl hcl
          dsimp only at hlink
          rw [hlink, if_pos hnull]
          exact ⟨0, c, cq, [], B, rfl, Nat.zero_le _, by simpa using h, .refl _ _ _, rfl,
            fun _ => room_of_full hcl⟩
        | cons f F =>
          obtain ⟨hfst, -, hrdy, hch⟩ := h.ready_next hl hcl
          have hlink : (c.link (cq - 64)).cfreelist = f := hfst
          have hne : (c.link (cq - 64)).cfreelist ≠ 0 := fun hnull =>
            cons_ne_nil _ _ (h.cfreelist_eq_zero.1 hnull)
          rw [if_neg hne, hlink]
          have hf := (h.aligned f (by simp)).1
          refine hrdy.copy hcp hch ?_ hrs hfuel
          rw [room_of_full hcl, info, length_cons]
          omega
      · rw [if_neg hcl]
        refine (h.ready hl hcl).copy hcp (.refl _ _ _) ?_ hrs hfuel
        exact room_of_part hcl

/-- What `b_to_q` answers after its loop. -/
theorem Put.answered (q1 : Clist)
    {r : Option (List UInt8 × Cblocks × ℕ)} (h : Put c1 q1.c_cf F1 B1 l cp rm r) (hcc : q1.c_cc = l.length)
    (hch : Changes c c1 F B F1 B1) :
    ∃ k c' q' F' B', (r.map fun (left, c, cq) => ((left.length : ℤ), c,
        ({ q1 with c_cc := q1.c_cc + (cp.length - left.length), c_cl := cq } : Clist))) =
          some (((cp.length - k : ℕ) : ℤ), c', q') ∧
      Rep c' q' F' B' (l ++ cp.take k) ∧ Changes c c' F B F' B' ∧ k = min cp.length rm := by
  obtain ⟨k, c', cq', F', B', rfl, hk, hrep, hch', hroom, hfull⟩ := h
  refine ⟨k, c', _, F', B', ?_, hrep, hch.trans hch', by omega⟩
  rw [map_some, hcc]
  dsimp only
  rw [length_drop, length_append, length_take, min_eq_left hk, Nat.cast_add,
    Nat.cast_sub hk, sub_sub_cancel]

/-- `b_to_q` puts the characters that fit on the end. -/
theorem bToQ_spec (h : Rep c q F B l) (cp : List UInt8) :
    ∃ k c' q' F' B', bToQ cp c q = some (((cp.length - k : ℕ) : ℤ), c', q') ∧
      Rep c' q' F' B' (l ++ cp.take k) ∧ Changes c c' F B F' B' ∧
      k = min cp.length (room F q.c_cl) := by
  rw [bToQ]
  by_cases hcp : cp = []
  · subst hcp
    rw [if_pos rfl]
    exact ⟨0, c, q, F, B, rfl, by simpa using h, .refl _ _ _, by simp⟩
  · rw [if_neg hcp]
    dsimp only
    by_cases hl : l = []
    · subst hl
      have hzero := h.nil_iff.1 rfl
      obtain ⟨rfl, hq⟩ := h.eq_nil
      have hcl : q.c_cl = 0 := by rw [hq]
      rw [if_pos (h.c_cl_eq_zero.2 rfl)]
      cases F with
      | nil =>
        rw [if_pos (h.cfreelist_eq_zero.2 rfl)]
        exact ⟨0, c, q, [], [], rfl, by simpa using h, .refl _ _ _, by simp [room, hcl]⟩
      | cons f F =>
        obtain ⟨hfst, hrdy, hch⟩ := h.ready_first
        have hf := (h.aligned f (by simp)).1
        rw [if_neg fun hnull => cons_ne_nil _ _ (h.cfreelist_eq_zero.1 hnull), hfst]
        have hmod : info f % 64 ≠ 0 := hrdy.1
        have hput : ∀ fuel, cp.length = fuel + 1 → Put c.acquire (info f) F [f] [] cp
            (room (f :: F) 0) (bToQLoop (fuel + 1) c.acquire (info f) cp) := fun fuel hfuel => by
          rw [bToQLoop, if_neg hcp]
          dsimp only
          rw [if_neg hmod]
          refine hrdy.copy hcp (.refl _ _ _) ?_
            (fun hl' h' hfuel' => bToQLoop_spec hl' h' hfuel') (by omega)
          rw [room_of_full rfl, info, length_cons]
          omega
        have hlen := length_pos_of_ne_nil hcp
        rw [hcl]
        refine Put.answered { q with c_cf := info f } ?_ hzero hch
        rw [show cp.length = cp.length - 1 + 1 by omega]
        exact hput _ (by omega)
    · obtain ⟨-, -, -, -, -, -, -, hcc, -⟩ := h.front hl
      rw [if_neg fun hnull => hl (h.c_cl_eq_zero.1 hnull)]
      refine Put.answered q (bToQLoop_spec hl ?_ le_rfl) hcc (.refl _ _ _)
      rw [← hcc]
      exact h

/-! ### Taking the last character off -/

/-- The cblock before the last one is found. -/
theorem cblockBefore_spec {cl x : ℕ} {info : Mem}
    (hc : Chars 64 4 c.c_next info cl cf (x :: B ++ [b]) l) (hb : b ∉ x :: B)
    (hfuel : B.length ≤ fuel) :
    ∃ B0 b0, x :: B = B0 ++ [b0] ∧ cblockBefore c b fuel x = some b0 := by
  induction B generalizing x cf l fuel with
  | nil =>
    obtain ⟨-, -, hnx, -⟩ := hc
    refine ⟨[], x, rfl, ?_⟩
    unfold cblockBefore
    rw [if_pos hnx]
  | cons y B ih =>
    obtain ⟨-, -, hnx, l', -, hl'⟩ := hc
    obtain ⟨-, hmem⟩ := ne_and_not_mem_of_not_mem_cons hb
    have hne : c.c_next x ≠ b := by
      rintro rfl
      exact hmem (hnx ▸ mem_cons_self)
    cases fuel with
    | zero => simp at hfuel
    | succ fuel =>
      obtain ⟨B0, b0, hB0, heq⟩ := ih hl' hmem (Nat.le_of_succ_le_succ hfuel)
      refine ⟨x :: B0, b0, by rw [hB0]; rfl, ?_⟩
      unfold cblockBefore
      rw [if_neg hne, hnx]
      exact heq

/-- The last character is taken, and there are others in its cblock. -/
theorem Rep.retreat (h : Rep c q F B (l ++ [ch])) (hl : l ≠ [])
    (hcl : (q.c_cl - 1) % 64 ≠ 4) :
    c.c_info (q.c_cl - 1) = ch ∧ Rep c ⟨l.length, q.c_cf, q.c_cl - 1⟩ F B l := by
  obtain ⟨hnd, hali, hfree, hcnt, hq⟩ := h
  rcases hq with ⟨-, hnil, -⟩ | ⟨hc, -⟩
  · exact absurd hnil (by simp)
  obtain ⟨B0, b, lo, l0, rfl, heq, hlo', ⟨hlo, hlt, hle, hnx, -⟩, hall⟩ := hc.last
  have hb := (hali b (by simp)).1
  -- the last character of the cblock is that of the list
  have hspl : bytes c.c_info lo (q.c_cl - lo) =
      bytes c.c_info lo (q.c_cl - 1 - lo) ++ [c.c_info (q.c_cl - 1)] := by
    rw [show q.c_cl - lo = q.c_cl - 1 - lo + 1 by omega, bytes_add]
    simp [bytes, show lo + (q.c_cl - 1 - lo) = q.c_cl - 1 by omega]
  rw [hspl, ← append_assoc] at heq
  obtain ⟨hl0, hch⟩ := append_inj' heq rfl
  have hlt' : lo < q.c_cl - 1 := by
    by_contra hge
    rcases hlo' with ⟨-, -, rfl⟩ | ⟨-, rfl⟩
    · rw [show q.c_cl - 1 - lo = 0 by omega] at hl0
      exact hl hl0
    · omega
  refine ⟨(cons_eq_cons.1 hch).1.symm, hnd, hali, hfree, hcnt, .inr ⟨?_, rfl⟩⟩
  rw [hl0]
  exact hall _ _ (q.c_cl - 1) [] _ (fun _ _ => ⟨rfl, .refl _ _ _⟩) ⟨hlo, hlt', by omega, hnx, rfl⟩

/-- The last character is taken, and was the only one in its cblock. -/
theorem Rep.chop (h : Rep c q F B (l ++ [ch])) (hl : l ≠ [])
    (hcl : (q.c_cl - 1) % 64 = 4) (hfuel : l.length ≤ fuel) :
    c.c_info (q.c_cl - 1) = ch ∧ ∃ obp, cblockBefore c (cblock (q.c_cl - 1)) fuel (cblock q.c_cf) =
      some obp ∧ ∃ F' B', Rep { c.release (c.c_next obp) with
          c_next := update (c.release (c.c_next obp)).c_next obp 0 }
        ⟨l.length, q.c_cf, obp + 64⟩ F' B' l ∧
      Changes c { c.release (c.c_next obp) with
          c_next := update (c.release (c.c_next obp)).c_next obp 0 } F B F' B' := by
  obtain ⟨hnd, hali, hfree, hcnt, hq⟩ := h
  rcases hq with ⟨-, hnil, -⟩ | ⟨hc, -⟩
  · exact absurd hnil (by simp)
  obtain ⟨B1, b, lo, l0, rfl, heq, hlo', ⟨hlo, hlt, hle, -, -⟩, -⟩ := hc.last
  have hb := (hali b (by simp)).1
  have hlast : q.c_cl = b + 5 := by omega
  have hcbl : cblock (q.c_cl - 1) = b := by
    rw [cblock]
    omega
  have hB1 : B1 ≠ [] := by
    rintro rfl
    obtain ⟨-, rfl, rfl⟩ := hlo'.resolve_right (fun h => h.1 rfl)
    have := congrArg length heq
    simp at this
    have := length_pos_of_ne_nil hl
    omega
  obtain ⟨x, B2, rfl⟩ := exists_cons_of_ne_nil hB1
  obtain ⟨B0, b0, hB, hnx, hchop⟩ := hc.chop hB1
  have hx := (hali x (by simp)).1
  obtain ⟨x', B', hcons, hcf, hcf'⟩ := hc.head
  obtain rfl : x = x' := (cons_eq_cons.1 hcons).1
  have hlen := hc.length_le
  simp only [length_append, length_cons, length_nil] at hlen
  -- the cblock before it
  have hbB : b ∉ x :: B2 := fun hmem =>
    (nodup_append.1 (nodup_append.1 hnd).2.1).2.2 b hmem b (by simp) rfl
  have hbnd : B2.length ≤ fuel := by omega
  obtain ⟨C0, c0, hC, hbef⟩ := cblockBefore_spec hc hbB hbnd
  rw [hB] at hC
  obtain ⟨-, hlast'⟩ := append_inj' hC rfl
  obtain rfl : b0 = c0 := (cons_eq_cons.1 hlast').1
  have hmem0 : b0 ∈ x :: B2 := hB ▸ by simp
  have hne : b0 ≠ b := fun heq => hbB (heq ▸ hmem0)
  have hF : ∀ y ∈ F, y ≠ b ∧ y ≠ b0 := fun y hy =>
    ⟨(nodup_append.1 hnd).2.2 y hy b (by simp),
      (nodup_append.1 hnd).2.2 y hy b0 (mem_append_left _ hmem0)⟩
  have hB0 : ∀ y ∈ B0, y ≠ b ∧ y ≠ b0 := fun y hy => by
    have hy' : y ∈ x :: B2 := hB ▸ mem_append_left _ hy
    refine ⟨fun heq => hbB (heq ▸ hy'), ?_⟩
    have hnd' := (nodup_append.1 (nodup_append.1 hnd).2.1).1
    rw [hB] at hnd'
    exact (nodup_append.1 hnd').2.2 y hy b0 (by simp)
  have hperm : (b :: F ++ (x :: B2)).Perm (F ++ (x :: B2 ++ [b])) := by
    rw [← append_assoc]
    exact (perm_append_singleton b (F ++ (x :: B2))).symm
  rw [hcbl, cblock_eq hx (by omega) hcf']
  refine ⟨?_, b0, hbef, ?_⟩
  · rw [hlast, show b + 5 - lo = b + 4 - lo + 1 by omega, bytes_add, ← append_assoc] at heq
    have hch := (append_inj' heq rfl).2
    rw [hlast]
    simpa [bytes, show lo + (b + 4 - lo) = b + 4 by omega, eq_comm] using hch
  · rw [hnx]
    have hoth : ∀ y, y ≠ b → y ≠ b0 →
        update (c.release b).c_next b0 0 y = c.c_next y := fun y hyb hyb0 => by
      rw [update_of_ne hyb0]
      exact update_of_ne hyb _ _
    refine ⟨b :: F, x :: B2, ⟨hperm.nodup_iff.2 hnd, fun y hy => hali y (hperm.subset hy),
      ⟨rfl, ?_⟩, ?_, .inr ⟨?_, rfl⟩⟩, hperm, fun y _ hy => ⟨hoth y ?_ ?_, .refl _ _ _⟩⟩
    · have hfst : update (c.release b).c_next b0 0 b = c.cfreelist := by
        rw [update_of_ne hne.symm]
        exact update_self _ _ _
      dsimp only
      rw [hfst]
      exact hfree.congr fun y hy => hoth y (hF y hy).1 (hF y hy).2
    · simp only [Cblocks.release, hcnt, length_cons]
      omega
    · obtain ⟨l1, hl1, hchars⟩ := hchop (update (c.release b).c_next b0 0) c.c_info
        (fun y hy => ⟨hoth y (hB0 y hy).1 (hB0 y hy).2, .refl _ _ _⟩)
        (update_self _ _ _) (.refl _ _ _)
      have heql : l = l1 := by
        rw [hlast, show b + 5 - (b + 4) = 1 by omega] at hl1
        exact (append_inj' hl1 (by simp)).1
      rw [heql]
      exact hchars
    · rintro rfl
      exact hy (by simp)
    · rintro rfl
      exact hy (mem_append_right _ (mem_append_left _ hmem0))

theorem unputc_nil (h : Rep c q F B []) : unputc c q = some (-1, c, q) := by
  rw [unputc, if_pos (h.nil_iff.1 rfl).le]

theorem unputc_spec (h : Rep c q F B (l ++ [ch])) :
    ∃ c' q' F' B', unputc c q = some (wrap 8 ch.toNat, c', q') ∧ Rep c' q' F' B' l ∧
      Changes c c' F B F' B' := by
  obtain ⟨b, B', rfl, hb, hpos, hcf, hlt, hcc, hc⟩ := h.front (by simp)
  rw [length_append, length_singleton] at hcc
  have hcc' : q.c_cc - 1 = l.length := by omega
  rw [unputc, if_neg (by omega)]
  dsimp only
  rw [hcc']
  by_cases hl : l = []
  · subst hl
    obtain ⟨rfl, hcl⟩ := hc.single (by simp; omega)
    have hch := hc.take (n := 1) (by simp) (by omega)
    have hcl' : q.c_cl - 1 = q.c_cf := by simp at hcl; omega
    have hch' : c.c_info q.c_cf = ch := by simpa [bytes, eq_comm] using hch
    rw [if_pos (by simp), hcl', cblock_eq hb (by omega) hlt, hch']
    exact ⟨_, _, _, _, rfl, h.release_all⟩
  · have hlen := length_pos_of_ne_nil hl
    rw [if_neg (by omega)]
    by_cases hcl : (q.c_cl - 1) % 64 = 4
    · obtain ⟨hch, obp, heq, F', B'', hrep, hcha⟩ := h.chop hl hcl le_rfl
      rw [if_pos hcl, Int.toNat_natCast, heq, hch]
      exact ⟨_, _, _, _, rfl, hrep, hcha⟩
    · obtain ⟨hch, hrep⟩ := h.retreat hl hcl
      rw [if_neg hcl, hch]
      exact ⟨_, _, _, _, rfl, hrep, .refl _ _ _⟩

end Uwisc.Tty
