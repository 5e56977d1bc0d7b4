import Mathlib.Tactic.IntervalCases
import Uwisc.Lib.System
import Uwisc.Libc.Malloc.Spec

/-!
# Runs of the storage allocator

In every run under the condition `Ready`, the memory is divided into blocks, and a live block has the
bytes that were asked for (`malloc_safe`). The condition is about the first call, which sets the page
size before it aligns the break: if that fails, a larger request gets a block of eight bytes
(`malloc_short`), and if the break is too close to the end of its page, it is lowered.
-/

namespace Uwisc.Malloc

open Function Lib List Nat

/-- The process, its live blocks with what was asked for, and the break at its start. -/
structure Heap where
  state : State
  live : List (ℕ × ℕ)
  start : ℕ

/-- What the process does: `cp` is a live block, or `NULL`. -/
inductive Op
  | malloc (nbytes : UInt32)
  | free (cp : ℕ)
  | realloc (cp : ℕ) (nbytes : UInt32)
  /-- A byte of a live block is written. -/
  | store (cp i : ℕ) (v : UInt8)

namespace Heap

/-- A block is returned, unless it is `NULL`. -/
def give (h : Heap) (live : List (ℕ × ℕ)) (nbytes : ℕ) (r : ℕ × State) : Heap :=
  { h with state := r.2, live := if r.1 = 0 then live else (r.1, nbytes) :: live }

/-- Executes an operation, if its argument is as it has to be. -/
def exec (h : Heap) : Op → Option Heap
  | .malloc nbytes => some (h.give h.live nbytes.toNat (h.state.malloc nbytes.toNat))
  | .free cp =>
    if cp = 0 ∨ cp ∈ h.live.map Prod.fst then
      some { h with state := h.state.free cp, live := without h.live cp }
    else none
  | .realloc cp nbytes =>
    if cp = 0 ∨ cp ∈ h.live.map Prod.fst then
      some (h.give (without h.live cp) nbytes.toNat (h.state.realloc cp nbytes.toNat))
    else none
  | .store cp i v =>
    if ∃ b ∈ h.live, b.1 = cp ∧ i < b.2 then
      some { h with state := { h.state with mem := update h.state.mem (cp + i) v } }
    else none

end Heap

/-- All runs, from any break and contents of the memory below it. -/
def heaps : System Heap Op := .ofExec
  {h | ∃ mem curbrk granted, curbrk ≤ 2 ^ 31 ∧ (∀ x, curbrk ≤ x → mem x = 0) ∧
    h = ⟨⟨fun _ => 0, 0, 0, mem, curbrk, granted⟩, [], curbrk⟩} Heap.exec

/-! ### The first call -/

/-- The first call of `malloc` lowers the break. -/
def Lowers (s : State) : Prop :=
  s.granted 1 = true ∧ (s.granted 0 = false ∨ getpagesize - OVERHEAD < s.curbrk % getpagesize)

/-- `malloc` may be called: the first call does not lower the break, and if it could not align it,
    there are only requests for less than a page. -/
def Ready (s : State) (nbytes : ℕ) : Prop :=
  (s.pagesz = 0 → ¬Lowers s) ∧ (s.pagesz ≠ 0 → s.pagebucket = 0 → nbytes ≤ getpagesize - OVERHEAD)

/-- What holds in every state. -/
structure Inv (s : State) (start : ℕ) (cls : ℕ → Option ℕ) (fl : ℕ → List ℕ)
    (live : List (ℕ × ℕ)) : Prop extends Divided s start cls fl live where
  above : start ≤ s.curbrk
  sizes : (s.pagesz = 0 ∧ s.pagebucket = 0 ∧ ∀ a, cls a = none) ∨
    s.pagesz = getpagesize ∧ (s.pagebucket = 0 ∨ s.pagebucket = 7)

variable {s : State} {start a b i n nbytes bucket : ℕ} {cls : ℕ → Option ℕ} {fl : ℕ → List ℕ}
  {live : List (ℕ × ℕ)}

variable {incr cp : ℕ} {r : ℕ × State}

theorem sbrk_none (h : s.granted 0 = false) :
    s.sbrk incr = (none, { s with granted := fun i => s.granted (i + 1) }) := by
  rw [State.sbrk, if_neg]
  rintro ⟨hgra, -⟩
  exact absurd (h.symm.trans hgra) Bool.false_ne_true

/-- More memory, or none. -/
theorem sbrk_cases (hincr : s.curbrk + incr < WORD) :
    s.sbrk incr = (none, { s with granted := fun i => s.granted (i + 1) }) ∨
      s.curbrk + incr ≤ 2 ^ 31 ∧ s.sbrk incr = (some s.curbrk,
          { s with curbrk := s.curbrk + incr, granted := fun i => s.granted (i + 1) }) := by
  rw [State.sbrk, mod_eq_of_lt hincr]
  split_ifs with hgra
  · exact .inr ⟨hgra.2, rfl⟩
  · exact .inl rfl

/-- The break is not lowered. -/
theorem align_spec (hpag : s.pagesz = getpagesize) (hbrk : s.curbrk ≤ 2 ^ 31)
    (hlow : ¬Lowers s) : ∃ curbrk granted, s.curbrk ≤ curbrk ∧ curbrk ≤ 2 ^ 31 ∧
      s.align.2 = { s with curbrk := curbrk, granted := granted } := by
  rw [State.align]
  have hmod : s.curbrk % getpagesize < getpagesize := mod_lt _ (by decide)
  cases hfst : s.granted 0 with
  | false =>
    have hsec : s.granted 1 = false :=
      Bool.eq_false_of_not_eq_true fun h => hlow ⟨h, .inl hfst⟩
    rw [sbrk_none hfst]
    have hn : (s.pagesz + WORD - OVERHEAD - (none : Option ℕ).getD (WORD - 1) % s.pagesz) %
        WORD ≠ 0 := by
      rw [hpag]
      decide
    dsimp only
    rw [if_neg hn, sbrk_none hsec]
    exact ⟨_, _, le_rfl, hbrk, rfl⟩
  | true =>
    have hzero : s.sbrk 0 = (some s.curbrk, { s with granted := fun i => s.granted (i + 1) }) := by
      rw [State.sbrk, add_zero, mod_eq_of_lt (by rw [WORD]; omega), if_pos ⟨hfst, hbrk⟩]
    rw [hzero]
    dsimp only [Option.getD_some]
    split_ifs with hn
    · exact ⟨_, _, le_rfl, hbrk, rfl⟩
    · cases hsec : s.granted 1 with
      | false =>
        rw [sbrk_none (s := { s with granted := fun i => s.granted (i + 1) }) hsec]
        exact ⟨_, _, le_rfl, hbrk, rfl⟩
      | true =>
        have hroom : ¬getpagesize - OVERHEAD < s.curbrk % getpagesize := fun h =>
          hlow ⟨hsec, .inr h⟩
        -- the rest of the page, but for the header
        have hrs : (s.pagesz + WORD - OVERHEAD - s.curbrk % s.pagesz) % WORD =
            getpagesize - OVERHEAD - s.curbrk % getpagesize := by
          rw [hpag]
          simp only [getpagesize, OVERHEAD, WORD] at *
          omega
        rw [hrs]
        have hincr : s.curbrk + (getpagesize - OVERHEAD - s.curbrk % getpagesize) < WORD := by
          simp only [getpagesize, OVERHEAD, WORD] at *
          omega
        rcases sbrk_cases (s := { s with granted := fun i => s.granted (i + 1) }) hincr with
          hnone | ⟨hle, hsome⟩
        · rw [hnone]
          exact ⟨_, _, le_rfl, hbrk, rfl⟩
        · rw [hsome]
          exact ⟨_, _, Nat.le_add_right _ _, hle, rfl⟩

/-- The first call. -/
theorem Inv.setup (h : Inv s start cls fl live) (hpag : s.pagesz = 0) (hlow : ¬Lowers s) :
    Inv s.setup.2 start cls fl live ∧ s.setup.2.mem = s.mem ∧ s.setup.2.pagesz = getpagesize ∧
      (s.setup.1 = true → s.setup.2.pagebucket = 7) := by
  have hpage : State.pageLoop getpagesize 32 8 0 = 7 := by decide
  have hbuc : s.pagebucket = 0 := by
    rcases h.sizes with ⟨-, hbuc, -⟩ | ⟨hpage, -⟩
    · exact hbuc
    · exact absurd (hpag.symm.trans hpage) (by decide)
  obtain ⟨curbrk, granted, hle, hbrk, halign⟩ :=
    align_spec (s := { s with pagesz := getpagesize }) rfl h.brk hlow
  rw [State.setup]
  dsimp only
  rw [halign]
  split_ifs
  · exact ⟨⟨h.toDivided.congr rfl rfl hle hbrk, h.above.trans hle, .inr ⟨rfl, .inr hpage⟩⟩, rfl, rfl,
      fun _ => hpage⟩
  · exact ⟨⟨h.toDivided.congr rfl rfl hle hbrk, h.above.trans hle, .inr ⟨rfl, .inl hbuc⟩⟩, rfl, rfl,
      nofun⟩

/-! ### Buckets -/

/-- The class that the loop finds has enough bytes. -/
theorem bucketLoop_spec {fuel : ℕ} (hb : b ≤ 28)
    (h : State.bucketLoop nbytes n fuel (2 ^ (b + 3)) b = some bucket) :
    b ≤ bucket ∧ bucket ≤ 28 ∧ nbytes ≤ (2 ^ (bucket + 3) + n) % WORD := by
  induction fuel generalizing b with
  | zero => cases h
  | succ fuel ih =>
    rw [State.bucketLoop] at h
    dsimp only at h
    split_ifs at h with hgt hzero
    · have hdou : 2 ^ (b + 3) * 2 % WORD = 2 ^ (b + 1 + 3) := by
        have hpow : 2 ^ (b + 3) * 2 = 2 ^ (b + 1 + 3) := by ring
        rw [hpow] at hzero ⊢
        have hne : b ≠ 28 := by
          rintro rfl
          exact hzero rfl
        refine mod_eq_of_lt ?_
        rw [WORD]
        exact Nat.pow_lt_pow_right (by decide) (by omega)
      rw [hdou] at h
      have hne : b ≠ 28 := by
        rintro rfl
        exact hzero rfl
      obtain ⟨hle, hbuc, hn⟩ := ih (by omega) h
      exact ⟨by omega, hbuc, hn⟩
    · cases h
      exact ⟨le_rfl, hb, not_lt.1 hgt⟩

theorem bucketOf_spec (hpag : s.pagesz = getpagesize)
    (hpagebucket : s.pagebucket = 7 ∨ nbytes ≤ getpagesize - OVERHEAD)
    (h : s.bucketOf nbytes = some bucket) : bucket ≤ 28 ∧ nbytes ≤ capacity bucket := by
  rw [State.bucketOf, hpag] at h
  have hpow : ∀ c ≤ 28, 2 ^ (c + 3) ≤ 2 ^ 31 := fun c hc => Nat.pow_le_pow_right (by decide) (by omega)
  split_ifs at h with hsml
  · obtain ⟨-, hbuc, hn⟩ := bucketLoop_spec (b := 0) (by decide) h
    refine ⟨hbuc, ?_⟩
    have h8 : 2 ^ 3 ≤ 2 ^ (bucket + 3) := Nat.pow_le_pow_right (by decide) (by omega)
    have hmod : (2 ^ (bucket + 3) + (WORD - OVERHEAD)) % WORD = 2 ^ (bucket + 3) - OVERHEAD := by
      have := hpow bucket hbuc
      simp only [WORD, OVERHEAD] at *
      omega
    rw [hmod] at hn
    rw [capacity, extent]
    split_ifs <;> omega
  · rw [hpagebucket.resolve_right hsml] at h
    obtain ⟨hle, hbuc, hn⟩ := bucketLoop_spec (b := 7) (by decide) h
    refine ⟨hbuc, ?_⟩
    have h1024 : 2 ^ 10 ≤ 2 ^ (bucket + 3) := Nat.pow_le_pow_right (by decide) (by omega)
    have hmod : (2 ^ (bucket + 3) + (getpagesize - OVERHEAD)) % WORD =
        2 ^ (bucket + 3) + (getpagesize - OVERHEAD) := by
      have := hpow bucket hbuc
      refine mod_eq_of_lt ?_
      simp only [WORD, OVERHEAD, getpagesize] at *
      omega
    rw [hmod] at hn
    rw [capacity, extent, if_neg (by rw [getpagesize]; omega)]
    simp only [OVERHEAD, getpagesize] at *
    omega

/-! ### More blocks -/

/-- What a function leaves of the blocks that there were. -/
def Extends (s s' : State) (cls cls' : ℕ → Option ℕ) : Prop :=
  ∀ a i, cls a = some i → cls' a = some i ∧ SameOn s.mem s'.mem (a + OVERHEAD) (a + extent i)

theorem Extends.refl (s : State) (cls : ℕ → Option ℕ) : Extends s s cls cls :=
  fun _ _ h => ⟨h, .refl _ _ _⟩

theorem Extends.trans {s' s'' : State} {cls' cls'' : ℕ → Option ℕ} (h : Extends s s' cls cls')
    (h' : Extends s' s'' cls' cls'') : Extends s s'' cls cls'' := by
  intro a i ha
  obtain ⟨ha', hsame⟩ := h a i ha
  obtain ⟨ha'', hsame'⟩ := h' a i ha'
  exact ⟨ha'', hsame.trans hsame'⟩

/-- How many blocks of a class there are in what `morecore` gets. -/
theorem morecore_size (hbuc : bucket ≤ 27) : ∃ k,
    (if 2 ^ (bucket + 3) < getpagesize then getpagesize else 2 ^ (bucket + 3) + getpagesize) =
      k * 2 ^ (bucket + 3) + extent bucket ∧
    (if 2 ^ (bucket + 3) < getpagesize then
      (if 2 ^ (bucket + 3) < getpagesize then getpagesize else 2 ^ (bucket + 3) + getpagesize) /
        2 ^ (bucket + 3) else 1) - 1 = k ∧ (extent bucket = 2 ^ (bucket + 3) ∨ k = 0) := by
  by_cases hsml : bucket < 7
  · refine ⟨getpagesize / 2 ^ (bucket + 3) - 1, ?_⟩
    interval_cases bucket <;> exact ⟨rfl, rfl, .inl rfl⟩
  · have hge : ¬2 ^ (bucket + 3) < getpagesize := by
      have h1024 : 2 ^ 10 ≤ 2 ^ (bucket + 3) := Nat.pow_le_pow_right (by decide) (by omega)
      rw [getpagesize]
      omega
    refine ⟨0, ?_, ?_, .inr rfl⟩
    · rw [if_neg hge, extent, if_neg hge, zero_mul, zero_add]
    · rw [if_neg hge]

theorem Inv.morecore (h : Inv s start cls fl live) (hpag : s.pagesz = getpagesize)
    (hnull : s.nextf bucket = 0) (hbuc : bucket ≤ 28) : ∃ cls' fl',
    Inv (s.morecore bucket) start cls' fl' live ∧ Extends s (s.morecore bucket) cls cls' := by
  have hsizes : s.pagesz = getpagesize ∧ (s.pagebucket = 0 ∨ s.pagebucket = 7) := by
    refine h.sizes.resolve_left ?_
    rintro ⟨hzero, -⟩
    exact absurd (hzero.symm.trans hpag) (by decide)
  rw [State.morecore]
  dsimp only
  by_cases hbig : 2 ^ (bucket + 3) % WORD = 0 ∨ 2 ^ 31 ≤ 2 ^ (bucket + 3) % WORD
  · rw [if_pos hbig]
    exact ⟨cls, fl, h, .refl s cls⟩
  rw [if_neg hbig]
  have hle : bucket ≤ 27 := by
    by_contra hgt
    obtain rfl : bucket = 28 := by omega
    exact hbig (.inr (by decide))
  have hpow : 2 ^ (bucket + 3) ≤ 2 ^ 30 := Nat.pow_le_pow_right (by decide) (by omega)
  have hsz : 2 ^ 3 ≤ 2 ^ (bucket + 3) := Nat.pow_le_pow_right (by decide) (by omega)
  have hmod : 2 ^ (bucket + 3) % WORD = 2 ^ (bucket + 3) := by
    refine mod_eq_of_lt ?_
    rw [WORD]
    omega
  have hsz' : 4 ≤ 2 ^ (bucket + 3) := by omega
  obtain ⟨k, hamt, hk, hone⟩ := morecore_size hle
  rw [hmod, hpag, hk, hamt]
  have hincr : s.curbrk + (k * 2 ^ (bucket + 3) + extent bucket) < WORD := by
    have := h.brk
    rw [← hamt, WORD]
    split_ifs
    · rw [getpagesize]
      omega
    · rw [getpagesize]
      omega
  rcases sbrk_cases hincr with hnone | ⟨hbrk, hsome⟩
  · rw [hnone]
    refine ⟨cls, fl, ⟨h.toDivided.congr rfl rfl le_rfl h.brk, h.above, h.sizes⟩, .refl s cls⟩
  · rw [hsome]
    dsimp only
    obtain ⟨-, hblw, habove⟩ :=
      carve_spec hsz' k h.zero (by rw [WORD] at hincr; omega)
    have hsame : ∀ a i, cls a = some i → SameOn s.mem
        (State.carve (2 ^ (bucket + 3)) k s.mem s.curbrk) (a + OVERHEAD) (a + extent i) := by
      intro a i ha x _ hx
      have hins := h.inside a i ha
      exact hblw x (by omega)
    by_cases hop : s.curbrk = 0
    · -- there are no blocks yet, and a block at zero is none
      have hnone : ∀ a i, cls a ≠ some i := by
        intro a i ha
        have hins := h.inside a i ha
        have := le_extent i
        omega
      refine ⟨cls, fl, ⟨⟨hbrk, fun x hx => habove x ?_, fun a i ha => absurd ha (hnone a i), h.pos,
        h.apart, fun i => ?_, h.free, h.nodup, fun b hb => ?_, h.distinct⟩,
        h.above.trans (Nat.le_add_right _ _), .inr hsizes⟩, fun a i ha => absurd ha (hnone a i)⟩
      · dsimp only at hx
        omega
      · have hnil : fl i = [] :=
          eq_nil_iff_forall_not_mem.2 fun a ha => hnone a i (h.free i a ha).1
        have hlin := h.linked i
        rw [hnil] at hlin ⊢
        dsimp only
        rwa [hop, ← hnull, update_eq_self]
      · obtain ⟨a, i, -, ha, -⟩ := h.used b hb
        exact absurd ha (hnone a i)
    · have hcarve := h.toDivided.carve h.above hop hnull (by omega) (by omega) hone hbrk
      refine ⟨_, _, ⟨hcarve.congr rfl rfl le_rfl hbrk, h.above.trans (Nat.le_add_right _ _),
        .inr hsizes⟩, fun a i ha => ⟨?_, hsame a i ha⟩⟩
      rw [carved, if_neg, ha]
      intro hmem
      obtain ⟨j, -, rfl⟩ := mem_blocks.1 hmem
      have hins := h.inside _ i ha
      have := le_extent i
      omega

/-! ### `malloc` -/

/-- A function returns a block of `nbytes`, or none. -/
def Given (s : State) (start : ℕ) (cls : ℕ → Option ℕ) (live : List (ℕ × ℕ)) (nbytes : ℕ)
    (r : ℕ × State) : Prop :=
  ∃ cls' fl', Inv r.2 start cls' fl' (if r.1 = 0 then live else (r.1, nbytes) :: live) ∧
    Extends s r.2 cls cls'

theorem Given.trans {s' : State} {cls' : ℕ → Option ℕ} (h : Extends s s' cls cls')
    (h' : Given s' start cls' live nbytes r) : Given s start cls live nbytes r := by
  obtain ⟨cls'', fl'', hinv, hext⟩ := h'
  exact ⟨cls'', fl'', hinv, h.trans hext⟩

theorem Inv.take (h : Inv s start cls fl live) (hne : s.nextf bucket ≠ 0)
    (hn : nbytes ≤ capacity bucket) :
    Given s start cls live nbytes (s.nextf bucket + OVERHEAD, s.take bucket) := by
  obtain ⟨l, htake⟩ := h.toDivided.take hne hn
  obtain ⟨l', hl', -⟩ := h.nextf_mem hne
  have hcls := (h.free bucket (s.nextf bucket) (by rw [hl']; exact mem_cons_self)).1
  refine ⟨cls, update fl bucket l, ?_, fun a i ha => ⟨ha, fun x hx hx' => ?_⟩⟩
  · dsimp only
    rw [if_neg (add_overhead_ne _)]
    exact ⟨htake, h.above, h.sizes⟩
  · rw [State.take]
    dsimp only
    rw [OVERHEAD] at hx
    have hne : x ≠ s.nextf bucket ∧ x ≠ s.nextf bucket + 1 := by
      by_cases heq : a = s.nextf bucket
      · omega
      · have hap := h.apart a _ i bucket ha hcls heq
        have := le_extent bucket
        omega
    rw [update_of_ne hne.2, update_of_ne hne.1]

theorem Inv.allocate (h : Inv s start cls fl live) (hpag : s.pagesz = getpagesize)
    (hpagebucket : s.pagebucket = 7 ∨ nbytes ≤ getpagesize - OVERHEAD) :
    Given s start cls live nbytes (s.allocate nbytes) := by
  rw [State.allocate]
  split
  · exact ⟨cls, fl, h, .refl s cls⟩
  · next bucket hbuc =>
    obtain ⟨hle, hn⟩ := bucketOf_spec hpag hpagebucket hbuc
    dsimp only
    obtain ⟨cls', fl', hinv, hext⟩ : ∃ cls' fl',
        Inv (if s.nextf bucket = 0 then s.morecore bucket else s) start cls' fl' live ∧
          Extends s (if s.nextf bucket = 0 then s.morecore bucket else s) cls cls' := by
      split_ifs with hnull
      · exact h.morecore hpag hnull hle
      · exact ⟨cls, fl, h, .refl s cls⟩
    generalize (if s.nextf bucket = 0 then s.morecore bucket else s) = s' at hinv hext
    split_ifs with hnull
    · exact ⟨cls', fl', hinv, hext⟩
    · exact .trans hext (hinv.take hnull hn)

theorem Inv.malloc (h : Inv s start cls fl live) (hrdy : Ready s nbytes) :
    Given s start cls live nbytes (s.malloc nbytes) := by
  rw [State.malloc]
  by_cases hpag : s.pagesz = 0
  · obtain ⟨hinv, hmem, hpage, hpagebucket⟩ := h.setup hpag (hrdy.1 hpag)
    have hext : Extends s s.setup.2 cls cls := fun a i ha => ⟨ha, by rw [hmem]; exact .refl _ _ _⟩
    simp only [if_pos hpag]
    split_ifs with hdone
    · exact .trans hext (hinv.allocate hpage (.inl (hpagebucket hdone)))
    · exact ⟨cls, fl, hinv, hext⟩
  · simp only [if_neg hpag, if_true]
    obtain ⟨hpage, hpagebucket⟩ := h.sizes.resolve_left fun hzero => hpag hzero.1
    exact h.allocate hpage (hpagebucket.symm.imp id fun hzero => hrdy.2 hpag hzero)

/-! ### `free` and `realloc` -/

theorem Inv.freed (h : Inv s start cls fl live) (hlive : (a + OVERHEAD, nbytes) ∈ live) :
    ∃ i fl', cls a = some i ∧ nbytes ≤ capacity i ∧
      Inv (s.free (a + OVERHEAD)) start cls fl' (without live (a + OVERHEAD)) ∧
      Extends s (s.free (a + OVERHEAD)) cls cls ∧
      ∀ n, Ready s n → Ready (s.free (a + OVERHEAD)) n := by
  obtain ⟨i, hcls, hn, heq⟩ := h.free_eq hlive
  rw [heq]
  refine ⟨i, _, hcls, hn, ⟨h.release hlive hcls, h.above, h.sizes⟩, fun b j hb => ⟨hb, ?_⟩, fun _ => id⟩
  refine sameOn_storeNum ?_
  rw [OVERHEAD]
  by_cases hba : b = a
  · omega
  · have hap := h.apart b a j i hb hcls hba
    have := le_extent i
    omega

/-- What `realloc` says of the size of a block is its capacity. -/
theorem usable_eq (hpag : s.pagesz = getpagesize) (hi : i ≤ 28) : s.usable (i + 3) = capacity i := by
  have hpow : 2 ^ (i + 3) ≤ 2 ^ 31 := Nat.pow_le_pow_right (by decide) (by omega)
  have h8 : 2 ^ 3 ≤ 2 ^ (i + 3) := Nat.pow_le_pow_right (by decide) (by omega)
  have hmod : (i + 3) % WORD = i + 3 := mod_eq_of_lt (by rw [WORD]; omega)
  have hmod' : 2 ^ (i + 3) % WORD = 2 ^ (i + 3) := mod_eq_of_lt (by rw [WORD]; omega)
  rw [State.usable, hmod, hmod', hpag, capacity, extent]
  split_ifs with hsml
  · simp only [WORD, OVERHEAD]
    omega
  · simp only [WORD, OVERHEAD, getpagesize]
    omega

/-- The bytes that were asked for before, and still are, are those of the old block. -/
def Kept (s : State) (cp old nbytes : ℕ) (r : ℕ × State) : Prop :=
  r.1 ≠ 0 → ∀ j < min old nbytes, r.2.mem (r.1 + j) = s.mem (cp + j)

/-- A block is copied to a live one. -/
theorem Inv.bcopy (h : Inv s start cls fl live) (hlive : (a + OVERHEAD, nbytes) ∈ live)
    (hn : n ≤ nbytes) :
    Inv { s with mem := bcopy s.mem cp (a + OVERHEAD) n } start cls fl live := by
  obtain ⟨i, hcls, hcap, -⟩ := h.of_live hlive
  have hexte := capacity_add i
  have hins := h.inside a i hcls
  have hsame : ∀ x y, y ≤ a + OVERHEAD ∨ a + extent i ≤ x →
      SameOn s.mem (Lib.bcopy s.mem cp (a + OVERHEAD) n) x y := fun x y h => sameOn_bcopy (by omega)
  refine ⟨h.toDivided.write (fun x hx => ?_) fun b j hb => hsame b (b + 4) ?_, h.above, h.sizes⟩
  · exact (hsame x (x + 1) (.inr (by omega)) x le_rfl (by omega)).trans (h.zero x hx)
  · by_cases hba : b = a
    · exact .inl (by rw [hba, OVERHEAD])
    · have hap := h.apart b a j i hb hcls hba
      have := le_extent j
      omega

/-- The end of `realloc`: what was in the old block is copied to the new one. -/
def copied (cp len : ℕ) (r : ℕ × State) : ℕ × State :=
  if r.1 = 0 ∨ cp = r.1 then r else (r.1, { r.2 with mem := bcopy r.2.mem cp r.1 len })

theorem realloc_eq (hmag : s.mem a = MAGIC) (hidx : (s.mem (a + 1)).toNat = i) :
    s.realloc (a + OVERHEAD) nbytes = if s.Fits (a + OVERHEAD) nbytes then (a + OVERHEAD, s)
      else copied (a + OVERHEAD)
        (if nbytes < s.usable (i + 3) then nbytes else s.usable (i + 3))
        ((s.free (a + OVERHEAD)).malloc nbytes) := by
  rw [State.realloc, if_neg (add_overhead_ne a), Nat.add_sub_cancel]
  simp only [hmag, if_true, hidx]
  rfl

/-- The block that `realloc` is given, and returns. -/
theorem Inv.fits (h : Inv s start cls fl live) (hlive : (a + OVERHEAD, n) ∈ live)
    (hfits : s.Fits (a + OVERHEAD) nbytes) (hcls : cls a = some i)
    (husa : s.usable (i + 3) = capacity i) (hidx : (s.mem (a + 1)).toNat = i) :
    Inv s start cls fl ((a + OVERHEAD, nbytes) :: without live (a + OVERHEAD)) := by
  rw [State.Fits, Nat.add_sub_cancel, hidx, husa] at hfits
  exact ⟨h.toDivided.resize hlive hcls hfits.2.1, h.above, h.sizes⟩

/-- The block that `realloc` returns has the bytes of the one that it was given. -/
theorem Inv.copied {len : ℕ}
    (h : Inv r.2 start cls fl (if r.1 = 0 then live else (r.1, nbytes) :: live))
    (hlen : len ≤ nbytes) (hn : min n nbytes ≤ len)
    (hold : ∀ j < n, r.2.mem (cp + j) = s.mem (cp + j)) :
    Inv (copied cp len r).2 start cls fl
        (if (copied cp len r).1 = 0 then live else ((copied cp len r).1, nbytes) :: live) ∧
      Kept s cp n nbytes (Malloc.copied cp len r) := by
  rw [Malloc.copied]
  by_cases hdone : r.1 = 0 ∨ cp = r.1
  · rw [if_pos hdone]
    refine ⟨h, fun hne j hj => ?_⟩
    rw [← hdone.resolve_left hne]
    exact hold j (lt_of_lt_of_le hj (min_le_left _ _))
  · rw [if_neg hdone]
    obtain ⟨hne, -⟩ := not_or.1 hdone
    rw [if_neg hne] at h ⊢
    refine ⟨?_, fun _ j hj => ?_⟩
    · obtain ⟨b, -, hb, -⟩ := h.used _ mem_cons_self
      dsimp only at hb ⊢
      rw [hb] at h ⊢
      exact h.bcopy mem_cons_self hlen
    · dsimp only
      rw [bcopy_apply (lt_of_lt_of_le hj hn)]
      exact hold j (lt_of_lt_of_le hj (min_le_left _ _))

theorem Inv.realloc (h : Inv s start cls fl live) (hlive : (a + OVERHEAD, n) ∈ live)
    (hrdy : s.Fits (a + OVERHEAD) nbytes ∨ Ready s nbytes) :
    (∃ cls' fl', Inv (s.realloc (a + OVERHEAD) nbytes).2 start cls' fl'
      (if (s.realloc (a + OVERHEAD) nbytes).1 = 0 then without live (a + OVERHEAD)
        else ((s.realloc (a + OVERHEAD) nbytes).1, nbytes) :: without live (a + OVERHEAD))) ∧
      Kept s (a + OVERHEAD) n nbytes (s.realloc (a + OVERHEAD) nbytes) := by
  obtain ⟨i, hcls, hn, hmag, hidx⟩ := h.of_live hlive
  have hpag : s.pagesz = getpagesize := by
    rcases h.sizes with ⟨-, -, hnone⟩ | ⟨hpag, -⟩
    · exact absurd (hcls.symm.trans (hnone a)) nofun
    · exact hpag
  have husa : s.usable (i + 3) = capacity i :=
    usable_eq hpag (le_of_lt_succ (h.inside a i hcls).2.2)
  rw [realloc_eq hmag hidx, husa]
  by_cases hfits : s.Fits (a + OVERHEAD) nbytes
  · rw [if_pos hfits]
    refine ⟨⟨cls, fl, ?_⟩, fun _ _ _ => rfl⟩
    dsimp only
    rw [if_neg (add_overhead_ne a)]
    exact h.fits hlive hfits hcls husa hidx
  · rw [if_neg hfits]
    obtain ⟨j, fl', hj, -, hfrd, hext, hrdy'⟩ := h.freed hlive
    obtain rfl : i = j := Option.some.inj (hcls.symm.trans hj)
    obtain ⟨cls', fl'', hinv, hext'⟩ := hfrd.malloc (hrdy' _ (hrdy.resolve_left hfits))
    have hlen : (if nbytes < capacity i then nbytes else capacity i) ≤ nbytes ∧
        min n nbytes ≤ (if nbytes < capacity i then nbytes else capacity i) := by
      split_ifs <;> omega
    obtain ⟨hinv, hkept⟩ := hinv.copied hlen.1 hlen.2 (s := s) fun j hj => by
      have hexte := capacity_add i
      exact ((hext.trans hext') a i hcls).2 _ (Nat.le_add_right _ _) (by omega)
    exact ⟨⟨cls', fl'', hinv⟩, hkept⟩

/-! ### All runs -/

/-- `malloc` may be called by the operation. -/
def ReadyFor (h : Heap) : Op → Prop
  | .malloc nbytes => Ready h.state nbytes.toNat
  | .realloc cp nbytes =>
    (cp ≠ 0 ∧ h.state.Fits cp nbytes.toNat) ∨ Ready h.state nbytes.toNat
  | _ => True

/-- The law of the allocator. -/
structure Safe (h : Heap) : Prop where
  /-- The memory is divided into blocks. -/
  divided : ∃ cls fl, Divided h.state h.start cls fl h.live
  /-- What `realloc` keeps. -/
  kept : ∀ cp old nbytes, (cp, old) ∈ h.live → ReadyFor h (.realloc cp nbytes) →
    Kept h.state cp old nbytes.toNat (h.state.realloc cp nbytes.toNat)

theorem Divided.without_zero (h : Divided s start cls fl live) : without live 0 = live := by
  refine filter_eq_self.2 fun b hb => decide_eq_true ?_
  obtain ⟨a, -, ha, -⟩ := h.used b hb
  rw [ha]
  exact add_overhead_ne a

/-- A live block, by its address. -/
theorem Divided.exists_live (h : Divided s start cls fl live)
    (hcp : cp ∈ live.map Prod.fst) : ∃ a n, cp = a + OVERHEAD ∧ (a + OVERHEAD, n) ∈ live := by
  obtain ⟨⟨c, n⟩, hb, rfl⟩ := mem_map.1 hcp
  obtain ⟨a, -, ha, -⟩ := h.used _ hb
  dsimp only at ha ⊢
  exact ⟨a, n, ha, ha ▸ hb⟩

/-- The process writes to a live block. -/
theorem Inv.store (h : Inv s start cls fl live) (hlive : (cp, n) ∈ live) (hi : i < n)
    (v : UInt8) :
    Inv { s with mem := update s.mem (cp + i) v } start cls fl live := by
  obtain ⟨a, rfl⟩ : ∃ a, cp = a + OVERHEAD := by
    obtain ⟨a, -, ha, -⟩ := h.used _ hlive
    exact ⟨a, ha⟩
  obtain ⟨j, hcls, hn, -⟩ := h.of_live hlive
  have hexte := capacity_add j
  have hins := h.inside a j hcls
  refine ⟨h.toDivided.write (fun x hx => ?_) fun b l hb x hx hx' => ?_, h.above, h.sizes⟩
  · rw [update_of_ne (by omega)]
    exact h.zero x hx
  · rw [update_of_ne]
    by_cases hba : b = a
    · rw [OVERHEAD]
      omega
    · have hap := h.apart b a l j hb hcls hba
      have := le_extent l
      omega

theorem Inv.exec {h h' : Heap} {op : Op} (hinv : Inv h.state h.start cls fl h.live)
    (hrdy : ReadyFor h op) (hexec : h.exec op = some h') :
    ∃ cls fl, Inv h'.state h'.start cls fl h'.live := by
  cases op with
  | malloc nbytes =>
    cases hexec
    obtain ⟨cls', fl', hinv', -⟩ := hinv.malloc hrdy
    exact ⟨cls', fl', hinv'⟩
  | free cp =>
    rw [Heap.exec] at hexec
    split_ifs at hexec with hcp
    cases hexec
    rcases hcp with rfl | hcp
    · refine ⟨cls, fl, ?_⟩
      rw [State.free, if_pos rfl, hinv.without_zero]
      exact hinv
    · obtain ⟨a, n, rfl, hlive⟩ := hinv.exists_live hcp
      obtain ⟨i, fl', -, -, hfrd, -⟩ := hinv.freed hlive
      exact ⟨cls, fl', hfrd⟩
  | realloc cp nbytes =>
    rw [Heap.exec] at hexec
    split_ifs at hexec with hcp
    cases hexec
    rcases hcp with rfl | hcp
    · have hrdy : Ready h.state nbytes.toNat := hrdy.resolve_left fun hcp => hcp.1 rfl
      obtain ⟨cls', fl', hinv', -⟩ := hinv.malloc hrdy
      refine ⟨cls', fl', ?_⟩
      rw [Heap.give, hinv.without_zero, State.realloc, if_pos rfl]
      exact hinv'
    · obtain ⟨a, n, rfl, hlive⟩ := hinv.exists_live hcp
      obtain ⟨hinv', -⟩ := hinv.realloc hlive (hrdy.imp And.right id)
      exact hinv'
  | store cp i v =>
    rw [Heap.exec] at hexec
    split_ifs at hexec with hlive
    cases hexec
    obtain ⟨⟨c, n⟩, hlive, rfl, hi⟩ := hlive
    exact ⟨cls, fl, hinv.store hlive hi v⟩

/-- In every run in which the first call does not lower the break, and in which no larger request comes
    after it failed, the allocator is safe. -/
theorem malloc_safe {h : Heap} (hh : (heaps.restrict ReadyFor).Reachable h) : Safe h := by
  have hinv : ∃ cls fl, Inv h.state h.start cls fl h.live := by
    refine System.Reachable.invariant (S := heaps.restrict ReadyFor)
      (I := fun h => ∃ cls fl, Inv h.state h.start cls fl h.live) ?_ ?_ hh
    · rintro h ⟨mem, curbrk, granted, hbrk, hzero, rfl⟩
      refine ⟨fun _ => none, fun _ => [], ⟨⟨hbrk, hzero, nofun, nofun, nofun, fun _ => rfl, nofun,
        fun _ => .nil, nofun, .nil⟩, le_rfl, .inl ⟨rfl, rfl, fun _ => rfl⟩⟩⟩
    · rintro h op h' ⟨cls, fl, hinv⟩ ⟨hrdy, hexec⟩
      exact hinv.exec hrdy hexec
  obtain ⟨cls, fl, hinv⟩ := hinv
  refine ⟨⟨cls, fl, hinv.toDivided⟩, fun cp old nbytes hlive hrdy => ?_⟩
  obtain ⟨a, n, rfl, -⟩ := hinv.exists_live (mem_map.2 ⟨_, hlive, rfl⟩)
  exact (hinv.realloc hlive (hrdy.imp And.right id)).2

/-- A block is given, and another one for more than a page; then the first one grows. -/
theorem malloc_safe_grown : ∃ h, (heaps.restrict ReadyFor).Reachable h ∧
    h.live = [(6144, 300), (4096, 2000)] ∧ Safe h := by
  have h0 : (heaps.restrict ReadyFor).Reachable _ :=
    .init ⟨fun _ => 0, 2048, fun _ => true, by decide, fun _ _ => rfl, rfl⟩
  have h1 := h0.step (a := Op.malloc 100) ⟨⟨fun _ h => absurd h.2 (by decide), fun h => absurd rfl h⟩, rfl⟩
  have h2 := h1.step (a := Op.malloc 2000) ⟨⟨nofun, fun _ h => absurd h (by decide)⟩, rfl⟩
  have h3 := h2.step (a := Op.realloc 3072 300) ⟨.inr ⟨nofun, fun _ h => absurd h (by decide)⟩, rfl⟩
  exact ⟨_, h3, by decide, malloc_safe h3⟩

/-- The break cannot be aligned, and the first call fails. The next one is for more than a page: it gets
    a block of eight bytes, in memory of a page. -/
theorem malloc_short : ¬∀ h, heaps.Reachable h → Safe h := by
  intro hsafe
  have h0 : heaps.Reachable _ :=
    .init ⟨fun _ => 0, 2048, fun i => i ≠ 1, by decide, fun _ _ => rfl, rfl⟩
  have h1 := h0.step (a := Op.malloc 100) rfl
  have h2 := h1.step (a := Op.malloc 2000) rfl
  obtain ⟨cls, fl, hdiv⟩ := (hsafe _ h2).divided
  obtain ⟨a, i, ha, hcls, hn, -⟩ := hdiv.used (2052, 2000) (by decide)
  obtain ⟨-, hend, -⟩ := hdiv.inside a i hcls
  have hbrk : a + extent i ≤ 3072 := hend
  have hexte := capacity_add i
  simp only [OVERHEAD] at *
  omega

end Uwisc.Malloc
