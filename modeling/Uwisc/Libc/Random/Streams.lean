import Uwisc.Libc.Random

/-!
# Streams

Every array has a stream: the generator that it was last started with, and how many of its numbers
were given (`Stream`). Calls on some arrays leave the streams of the others as they are
(`Streams.exec`). In every run in which `setstate` to the current array finds it saved as it is
(`Undisturbed`), the package gives the numbers of the streams, and its pointers stay in the current
state (`streams_independent`).
-/

namespace Uwisc.Random

open Function Option

variable {ι : Type*}

/-- Arrays of longs that do not overlap, by their addresses and numbers of bytes. -/
structure Arrays (ι : Type*) where
  base : ι → ℤ
  bytes : ι → ℤ
  disjoint : ∀ i j, i ≠ j → base i + bytes i / 4 ≤ base j ∨ base j + bytes j / 4 ≤ base i
  randtbl : ι
  bytes_randtbl : bytes randtbl = breaks 3

/-- The calls of the package. -/
inductive Op (ι : Type*)
  | initstate (seed : UInt32) (i : ι) (n : ℤ)
  | setstate (i : ι)
  | srandom (seed : UInt32)
  | random

/-- What a call does, with the number that it gives. -/
def Arrays.exec (A : Arrays ι) (g : Globals) : Op ι → List Int32 × Globals
  | .initstate seed i n => ([], (g.initstate seed (A.base i) n).2)
  | .setstate i => ([], (g.setstate (A.base i)).2)
  | .srandom seed => ([], g.srandom seed)
  | .random => ([g.random.1], g.random.2)

/-- The numbers of a run, and what it leaves. -/
def run {σ : Type*} (exec : σ → Op ι → List Int32 × σ) : σ → List (Op ι) → List Int32 × σ
  | s, [] => ([], s)
  | s, op :: ops => ((exec s op).1 ++ (run exec (exec s op).2 ops).1, (run exec (exec s op).2 ops).2)

/-- Before every call of a run, this holds of it. -/
def Along {σ : Type*} (exec : σ → Op ι → List Int32 × σ) (P : σ → Op ι → Prop) : σ → List (Op ι) → Prop
  | _, [] => True
  | s, op :: ops => P s op ∧ Along exec P (exec s op).2 ops

/-! ### The streams -/

/-- The last start of a generator, and how many numbers were given since. -/
structure Stream where
  type : Fin MAX_TYPES
  seed : UInt32
  given : ℕ

/-- The generator, after the numbers that were given. -/
def Stream.generator (t : Stream) : Gen := (fun g => g.next.2)^[t.given] (Gen.start t.type t.seed)

/-- What every array has, and which is current. -/
structure Streams (ι : Type*) where
  current : ι
  stream : ι → Option Stream

/-- What a call does for the streams. -/
def Streams.exec [DecidableEq ι] (s : Streams ι) : Op ι → List Int32 × Streams ι
  | .initstate seed i n =>
    ([], if n < breaks TYPE_0 then s else ⟨i, update s.stream i (some ⟨typeFor n, seed, 0⟩)⟩)
  | .setstate i => ([], { s with current := i })
  | .srandom seed =>
    ([], { s with
      stream := update s.stream s.current <|
        (s.stream s.current).map fun t => { t with seed := seed, given := 0 } })
  | .random =>
    (((s.stream s.current).map fun t => t.generator.next.1).toList, { s with
      stream := update s.stream s.current <|
        (s.stream s.current).map fun t => { t with given := t.given + 1 } })

/-- `randtbl` is current, as if from `initstate(1, randtbl, 128)`. -/
def Arrays.start [DecidableEq ι] (A : Arrays ι) : Streams ι :=
  ⟨A.randtbl, update (fun _ => none) A.randtbl (some ⟨TYPE_3, 1, 0⟩)⟩

/-- The calls that are promised: the state information is there, and was set up. -/
def Arrays.Admissible (A : Arrays ι) (s : Streams ι) : Op ι → Prop
  | .initstate _ i n => n ≤ A.bytes i
  | .setstate i => (s.stream i).isSome
  | .srandom _ => True
  | .random => True

/-- The current array, if it is set again, has been saved as it is. -/
def Arrays.Undisturbed (A : Arrays ι) (g : Globals) : Op ι → Prop
  | .setstate i => A.base i = g.state - 1 → g.mem (A.base i) = g.save.mem (A.base i)
  | _ => True

/-- The pointers are in the state, and as far apart as they should be. There are none in the
    trivial type. -/
structure Pointers (g : Globals) : Prop where
  fptr : g.rand_type ≠ 0 → g.state ≤ g.fptr ∧ g.fptr < g.end_ptr
  rptr : g.rand_type ≠ 0 → g.state ≤ g.rptr ∧ g.rptr < g.end_ptr
  apart : g.rand_type ≠ 0 → g.fptr = g.rptr + g.rand_sep ∨ g.fptr + g.rand_deg = g.rptr + g.rand_sep

/-! ### Saving -/

section Saving

variable {g : Globals} {a : ℤ} {gen : Gen} {type : Fin MAX_TYPES}

/-- What is stored in front of the state. -/
def word (rear : ℕ) (type : Fin MAX_TYPES) : Int32 := .ofInt (MAX_TYPES * rear + type)

theorem cast_max_types : ((MAX_TYPES : ℕ) : ℤ) = 5 := rfl

theorem size_le (type : Fin MAX_TYPES) : size type ≤ 63 := by
  revert type
  decide

theorem word_toInt {rear : ℕ} (h : rear < size type) :
    (word rear type).toInt = MAX_TYPES * rear + type := by
  have hsize := size_le type
  have htype : (type : ℕ) < 5 := type.isLt
  rw [word, cast_max_types]
  exact Int32.toInt_ofInt_of_le (by omega) (by omega)

/-- `save` stores the position of the rear pointer. -/
theorem Current.save (h : Current g a gen) :
    Current g.save a gen ∧ g.save.mem a = word gen.rear gen.type ∧ ∀ y ≠ a, g.save.mem y = g.mem y := by
  obtain ⟨mem, fptr, rptr, state, rand_type, rand_deg, rand_sep, end_ptr⟩ := g
  obtain ⟨⟨rfl, rfl, rfl, rfl, rfl⟩, hwds, hrptr, hfptr⟩ := h
  dsimp only at hwds hrptr hfptr
  refine ⟨⟨⟨rfl, rfl, rfl, rfl, rfl⟩, fun k hk => ?_, hrptr, hfptr⟩, ?_, fun y hy => ?_⟩
  · exact (update_of_ne (by dsimp only; omega) ..).trans (hwds k hk)
  · rw [Globals.save]
    dsimp only
    rw [add_sub_cancel_right, update_self]
    split_ifs with hzero
    · have hrear := gen.rear_lt
      rw [hzero] at hrear ⊢
      rw [Nat.lt_one_iff.1 hrear]
      rfl
    · rw [hrptr hzero, add_sub_cancel_left, word]
  · exact update_of_ne (by dsimp only; omega) ..

/-- The pointers are those of the generator. -/
theorem point_current (hstt : g.state = a + 1) (htype : g.rand_type = gen.type)
    (hdeg : g.rand_deg = degrees gen.type) (hsep : g.rand_sep = seps gen.type)
    (hwds : Words g.mem (a + 1) gen.words) :
    Current { g.point gen.rear with
      end_ptr := (g.point gen.rear).state + (g.point gen.rear).rand_deg } a gen ∧
      (g.point gen.rear).mem = g.mem := by
  obtain ⟨mem, fptr, rptr, state, rand_type, rand_deg, rand_sep, end_ptr⟩ := g
  dsimp only at hstt htype hdeg hsep hwds
  subst hstt htype hdeg hsep
  by_cases hzero : gen.type ≠ 0
  · obtain ⟨hsize, -, -⟩ := size_of_ne_zero gen.type hzero
    rw [Globals.point, if_pos hzero]
    refine ⟨⟨⟨rfl, rfl, rfl, rfl, rfl⟩, hwds, fun _ => rfl, fun _ => ?_⟩, rfl⟩
    dsimp only
    rw [Gen.front, hsize, Int.tmod_eq_emod_of_nonneg (by omega)]
    push_cast
    rfl
  · rw [Globals.point, if_neg hzero]
    exact ⟨⟨⟨rfl, rfl, rfl, rfl, rfl⟩, hwds, fun h => absurd h hzero, fun h => absurd h hzero⟩, rfl⟩

/-- `setstate` goes on with what was saved. -/
theorem setstate_current (hword : g.mem a = word gen.rear gen.type)
    (hwds : Words g.save.mem (a + 1) gen.words) :
    Current (g.setstate a).2 a gen ∧ (g.setstate a).2.mem = g.save.mem := by
  have htype : (gen.type : ℕ) < 5 := gen.type.isLt
  have hint := hword ▸ word_toInt gen.rear_lt
  rw [cast_max_types] at hint
  have htmod : (g.mem a).toInt.tmod MAX_TYPES = gen.type := by
    rw [hint, cast_max_types, Int.tmod_eq_emod_of_nonneg (by omega)]
    omega
  have htdiv : (g.mem a).toInt.tdiv MAX_TYPES = gen.rear := by
    rw [hint, cast_max_types, Int.tdiv_eq_ediv_of_nonneg (by omega)]
    omega
  have hsome : typeOf gen.type = some gen.type := by
    rw [typeOf, dif_pos ⟨by omega, by omega⟩]
    rfl
  rw [Globals.setstate, htmod, htdiv, hsome, elim_some]
  have hpoint := point_current (g := { g.save.setType gen.type with state := a + 1 }) rfl rfl rfl rfl
    hwds
  exact hpoint

/-- `initstate` starts the generator, and saves it. -/
theorem initstate_current {n : ℤ} (hn : breaks 0 ≤ n) (g : Globals) (seed : UInt32) (a : ℤ) :
    Current (g.initstate seed a n).2 a (Gen.start (typeFor n) seed) ∧
      (∃ r < size (typeFor n), (g.initstate seed a n).2.mem a = word r (typeFor n)) ∧
      Frame g.save.mem (g.initstate seed a n).2.mem a (a + 1 + size (typeFor n)) := by
  have hset : IsSet { g.save.setType (typeFor n) with
      state := a + 1, end_ptr := a + 1 + degrees (typeFor n) } a (typeFor n) :=
    ⟨rfl, rfl, rfl, rfl, rfl⟩
  obtain ⟨hcurr, hfrm⟩ := hset.srandom seed
  obtain ⟨hsave, hword, hoth⟩ := hcurr.save
  rw [Globals.initstate, if_neg hn.not_gt]
  have hrear := (Gen.start (typeFor n) seed).rear_lt
  rw [Gen.start_type] at hrear hword
  exact ⟨hsave, ⟨_, hrear, hword⟩, fun y hy => (hoth y (by omega)).trans (hfrm y (by omega))⟩

theorem Stream.generator_type (t : Stream) : t.generator.type = t.type := by
  rw [generator, Gen.iterate_type, Gen.start_type]

theorem Stream.generator_zero (type : Fin MAX_TYPES) (seed : UInt32) :
    Stream.generator ⟨type, seed, 0⟩ = Gen.start type seed := rfl

theorem Stream.generator_succ (t : Stream) :
    Stream.generator { t with given := t.given + 1 } = t.generator.next.2 :=
  iterate_succ_apply' ..

theorem size_breaks : ∀ type, 4 * (1 + (size type : ℤ)) ≤ breaks type := by
  decide

theorem breaks_typeFor {n : ℤ} (hn : breaks 0 ≤ n) : breaks (typeFor n) ≤ n := by
  rw [typeFor]
  split_ifs with h1 h2 h3 h4
  · exact hn
  · exact not_lt.1 h1
  · exact not_lt.1 h2
  · exact not_lt.1 h3
  · exact not_lt.1 h4

end Saving

/-! ### The invariant -/

variable {A : Arrays ι} {s : Streams ι} {g : Globals} {mem mem' : ℤ → Int32}

/-- An array that is not current has what its stream goes on with. -/
structure Stored (mem : ℤ → Int32) (a : ℤ) (gen : Gen) : Prop where
  word : mem a = word gen.rear gen.type
  words : Words mem (a + 1) gen.words

/-- The streams are those of the arrays. -/
structure Inv (A : Arrays ι) (s : Streams ι) (g : Globals) : Prop where
  fits : ∀ i t, s.stream i = some t → breaks t.type ≤ A.bytes i
  current : ∃ t, s.stream s.current = some t ∧ Current g (A.base s.current) t.generator ∧
    ∃ r < size t.type, g.mem (A.base s.current) = word r t.type
  others : ∀ i ≠ s.current, ∀ t, s.stream i = some t → Stored g.mem (A.base i) t.generator

/-- The arrays do not overlap. -/
theorem Inv.apart {i j : ι} {t : Stream} (h : Inv A s g) (hi : s.stream i = some t) (hne : i ≠ j)
    (type : Fin MAX_TYPES) (hj : breaks type ≤ A.bytes j) :
    A.base i + 1 + size t.type ≤ A.base j ∨ A.base j + 1 + size type ≤ A.base i := by
  have hsize := size_breaks t.type
  have hsize' := size_breaks type
  have hfits := h.fits i t hi
  obtain hlow | hhigh := A.disjoint i j hne
  · exact .inl (by omega)
  · exact .inr (by omega)

theorem Stored.frame {a lo hi : ℤ} {gen : Gen} (h : Stored mem a gen) (hfrm : Frame mem mem' lo hi)
    (hap : a + 1 + size gen.type ≤ lo ∨ hi ≤ a) : Stored mem' a gen where
  word := (hfrm a (by omega)).trans h.word
  words k hk := by
    have hlen := gen.length_words
    exact (hfrm _ (by omega)).trans (h.words k hk)

/-- The current array is saved, so that all of them are. -/
theorem Inv.saved (h : Inv A s g) {i : ι} {t : Stream} (hi : s.stream i = some t) :
    Stored g.save.mem (A.base i) t.generator := by
  obtain ⟨t', ht', hcurr, -⟩ := h.current
  obtain ⟨hsave, hword, hoth⟩ := hcurr.save
  by_cases hcur : i = s.current
  · subst hcur
    obtain rfl : t' = t := some.inj (ht'.symm.trans hi)
    exact ⟨hword, hsave.words⟩
  · have hap := h.apart hi hcur t'.type (h.fits _ _ ht')
    rw [← t.generator_type] at hap
    exact (h.others i hcur t hi).frame (fun y hy => hoth y (by omega) :
      Frame g.mem g.save.mem (A.base s.current) (A.base s.current + 1)) (by omega)

theorem Inv.save (h : Inv A s g) : Inv A s g.save := by
  obtain ⟨t, ht, hcurr, -⟩ := h.current
  obtain ⟨hsave, hword, -⟩ := hcurr.save
  have hrear := t.generator.rear_lt
  rw [t.generator_type] at hrear hword
  exact ⟨h.fits, ⟨t, ht, hsave, _, hrear, hword⟩, fun i _ t hi => h.saved hi⟩

/-- In the invariant, the pointers are where they should be. -/
theorem Inv.pointers (h : Inv A s g) : Pointers g := by
  obtain ⟨t, -, ⟨⟨hstt, htype, hdeg, hsep, hend⟩, -, hrptr, hfptr⟩, -⟩ := h.current
  have hrear := t.generator.rear_lt
  have hfrt := t.generator.front_lt
  have hpair : ∀ hzero : t.generator.type ≠ 0,
      g.fptr = g.rptr + g.rand_sep ∨ g.fptr + g.rand_deg = g.rptr + g.rand_sep := fun hzero => by
    obtain ⟨hsize, -, hlt⟩ := size_of_ne_zero _ hzero
    have hmod := mod_eq_ite (n := t.generator.rear + seps t.generator.type)
      (d := size t.generator.type) (by omega)
    rw [← Gen.front] at hmod
    rw [hrptr hzero, hfptr hzero, hsep, hdeg, hmod]
    split_ifs <;> omega
  refine ⟨fun hzero => ?_, fun hzero => ?_, fun hzero => hpair (htype ▸ hzero)⟩
  · rw [htype] at hzero
    rw [hfptr hzero, hstt, hend]
    have hsize := (size_of_ne_zero _ hzero).1
    omega
  · rw [htype] at hzero
    rw [hrptr hzero, hstt, hend]
    have hsize := (size_of_ne_zero _ hzero).1
    omega

variable [DecidableEq ι]

/-- A stream is started in an array. -/
theorem Inv.initstate (h : Inv A s g) (seed : UInt32) (i : ι) {n : ℤ} (hn : breaks 0 ≤ n)
    (hbyt : n ≤ A.bytes i) :
    Inv A ⟨i, update s.stream i (some ⟨typeFor n, seed, 0⟩)⟩ (g.initstate seed (A.base i) n).2 := by
  obtain ⟨hcurr, hword, hfrm⟩ := initstate_current hn g seed (A.base i)
  have hbre := (breaks_typeFor hn).trans hbyt
  refine ⟨fun j t hj => ?_, ⟨_, update_self .., hcurr, hword⟩, fun j hne t hj => ?_⟩
  · dsimp only at hj
    rcases eq_or_ne j i with rfl | hne
    · rw [update_self] at hj
      cases hj
      exact hbre
    · rw [update_of_ne hne] at hj
      exact h.fits j t hj
  · dsimp only at hj hne
    rw [update_of_ne hne] at hj
    have hap := h.apart hj hne (typeFor n) hbre
    rw [← t.generator_type] at hap
    exact (h.saved hj).frame hfrm hap

/-- The stream of an array goes on. -/
theorem Inv.setstate (h : Inv A s g) {i : ι} (hi : (s.stream i).isSome)
    (hund : A.Undisturbed g (.setstate i)) :
    Inv A { s with current := i } (g.setstate (A.base i)).2 := by
  obtain ⟨t, ht⟩ := isSome_iff_exists.1 hi
  have hsaved := h.saved ht
  have hword : g.mem (A.base i) = word t.generator.rear t.generator.type := by
    by_cases hcur : i = s.current
    · obtain ⟨t', -, hcurr, -⟩ := h.current
      have hstt := hcurr.state
      exact (hund (by rw [hcur]; omega)).trans hsaved.word
    · exact (h.others i hcur t ht).word
  obtain ⟨hcurr, hmem⟩ := setstate_current hword hsaved.words
  have hrear := t.generator.rear_lt
  refine ⟨h.fits, ⟨t, ht, hcurr, t.generator.rear, ?_, ?_⟩, fun j _ t hj => ?_⟩
  · rwa [t.generator_type] at hrear
  · rw [hmem, hsaved.word, t.generator_type]
  · rw [hmem]
    exact h.saved hj

/-- The current array gets another generator of its type, and nothing else is changed. -/
theorem Inv.update_current (h : Inv A s g) {t : Stream} (t' : Stream)
    (ht : s.stream s.current = some t) (htype : t'.type = t.type) {g' : Globals} (hcurr : Current g' (A.base s.current) t'.generator)
    (hfrm : Frame g.mem g'.mem (A.base s.current + 1) (A.base s.current + 1 + size t.type)) :
    Inv A { s with stream := update s.stream s.current (some t') } g' := by
  obtain ⟨t'', ht'', -, r, hr, hword⟩ := h.current
  obtain rfl : t'' = t := some.inj (ht''.symm.trans ht)
  refine ⟨fun j u hj => ?_, ⟨t', update_self .., hcurr, r, ?_, ?_⟩, fun j hne u hj => ?_⟩
  · dsimp only at hj
    rcases eq_or_ne j s.current with rfl | hne
    · rw [update_self] at hj
      cases hj
      rw [htype]
      exact h.fits _ _ ht
    · rw [update_of_ne hne] at hj
      exact h.fits j u hj
  · rwa [htype]
  · exact (hfrm (A.base s.current) (by omega)).trans (by rw [hword, htype])
  · dsimp only at hj hne
    rw [update_of_ne hne] at hj
    have hap := h.apart hj hne t''.type (h.fits _ _ ht)
    rw [← u.generator_type] at hap
    exact (h.others j hne u hj).frame hfrm (by omega)

/-- A call gives what the streams give. -/
theorem Inv.exec (h : Inv A s g) {op : Op ι} (hadm : A.Admissible s op) (hund : A.Undisturbed g op) :
    (A.exec g op).1 = (s.exec op).1 ∧ Inv A (s.exec op).2 (A.exec g op).2 := by
  obtain ⟨t, ht, hcurr, -⟩ := h.current
  cases op with
  | initstate seed i n =>
    refine ⟨rfl, ?_⟩
    rw [Arrays.exec, Streams.exec]
    by_cases hn : n < breaks 0
    · rw [if_pos hn, Globals.initstate, if_pos hn]
      exact h.save
    · rw [if_neg hn]
      exact h.initstate seed i (not_lt.1 hn) hadm
  | setstate i => exact ⟨rfl, h.setstate hadm hund⟩
  | srandom seed =>
    refine ⟨rfl, ?_⟩
    obtain ⟨hnew, hfrm⟩ := hcurr.toIsSet.srandom seed
    rw [t.generator_type] at hnew hfrm
    rw [Arrays.exec, Streams.exec, ht, map_some]
    exact h.update_current { t with seed := seed, given := 0 } ht rfl hnew hfrm
  | random =>
    obtain ⟨hnum, hnx, hfrm⟩ := hcurr.random
    rw [t.generator_type] at hfrm
    rw [Arrays.exec, Streams.exec, ht, map_some, map_some, hnum]
    refine ⟨rfl, h.update_current { t with given := t.given + 1 } ht rfl ?_ hfrm⟩
    rw [Stream.generator_succ]
    exact hnx

/-- A run gives what the streams give. -/
theorem Inv.run {ops : List (Op ι)} (h : Inv A s g) (hadm : Along Streams.exec A.Admissible s ops)
    (hund : Along A.exec A.Undisturbed g ops) :
    (run A.exec g ops).1 = (run Streams.exec s ops).1 ∧
      Inv A (run Streams.exec s ops).2 (run A.exec g ops).2 := by
  induction ops generalizing s g with
  | nil => exact ⟨rfl, h⟩
  | cons op ops ih =>
    obtain ⟨hout, hinv⟩ := h.exec hadm.1 hund.1
    obtain ⟨hout', hinv'⟩ := ih hinv hadm.2 hund.2
    exact ⟨congrArg₂ _ hout hout', hinv'⟩

/-- The table of the source is the one of seed 1. -/
theorem start_default : (Gen.start 3 1).words = randtbl.tail ∧ (Gen.start 3 1).rear = 0 := by
  decide +kernel

theorem start_current (mem : ℤ → Int32) (addr : ℤ) :
    Current (Globals.start mem addr) addr (Gen.start 3 1) := by
  obtain ⟨hwds, hrear⟩ := start_default
  refine ⟨?_, fun k hk => ?_, fun _ => ?_, fun _ => ?_⟩
  · rw [Gen.start_type]
    refine ⟨rfl, rfl, rfl, rfl, ?_⟩
    rw [Globals.start]
    dsimp only
    omega
  · rw [Gen.length_words, Gen.start_type] at hk
    have hk' : k < 31 := hk
    rw [hwds, Globals.start]
    dsimp only
    rw [if_pos (by omega), show (addr + 1 + k - addr).toNat = k + 1 by omega]
    rfl
  · rw [hrear, Nat.cast_zero, add_zero, Globals.start]
  · have hfrt : (Gen.start 3 1).front = 3 := by
      rw [Gen.front, hrear, Gen.start_type]
      rfl
    rw [hfrt, Globals.start]
    dsimp only [seps]
    omega

/-- At the start, `randtbl` has the stream of seed 1. -/
theorem start_inv (A : Arrays ι) (mem : ℤ → Int32) :
    Inv A A.start (Globals.start mem (A.base A.randtbl)) := by
  have hcurr : A.start.stream A.randtbl = some ⟨3, 1, 0⟩ := by
    rw [Arrays.start]
    dsimp only
    rw [update_self]
  have hoth : ∀ i ≠ A.randtbl, A.start.stream i = none := fun i hne => by
    rw [Arrays.start]
    dsimp only
    rw [update_of_ne hne]
  refine ⟨fun i t hi => ?_, ⟨_, hcurr, ?_, 0, size_pos _, ?_⟩, fun i hne t hi => ?_⟩
  · rcases eq_or_ne i A.randtbl with rfl | hne
    · rw [← some.inj (hcurr.symm.trans hi)]
      exact A.bytes_randtbl.ge
    · exact absurd ((hoth i hne).symm.trans hi).symm (some_ne_none t)
  · rw [Stream.generator_zero]
    exact start_current mem _
  · rw [Arrays.start, Globals.start]
    dsimp only
    rw [if_pos (by omega), sub_self]
    rfl
  · exact absurd ((hoth i hne).symm.trans hi).symm (some_ne_none t)

/-- In a run in which `setstate` to the current array finds it saved as it is, every number is the
    next one of the stream of the current array, and the pointers stay in its state. -/
theorem streams_independent (A : Arrays ι) (mem : ℤ → Int32) (ops : List (Op ι))
    (hadm : Along Streams.exec A.Admissible A.start ops)
    (hund : Along A.exec A.Undisturbed (Globals.start mem (A.base A.randtbl)) ops) :
    (run A.exec (Globals.start mem (A.base A.randtbl)) ops).1 = (run Streams.exec A.start ops).1 ∧
      Pointers (run A.exec (Globals.start mem (A.base A.randtbl)) ops).2 := by
  obtain ⟨hout, hinv⟩ := (start_inv A mem).run hadm hund
  exact ⟨hout, hinv.pointers⟩

/-- `randtbl`, and an array of two longs. -/
def pair : Arrays Bool where
  base i := if i then 100 else 0
  bytes i := if i then 8 else 128
  disjoint i j hne := by
    revert i j
    decide
  randtbl := false
  bytes_randtbl := rfl

theorem streams_independent_pair :
    let ops := [.random, .initstate 7 true 8, .random, .setstate false, .random]
    (run pair.exec (Globals.start (fun _ => 0) 0) ops).1 = (run Streams.exec pair.start ops).1 ∧
      Pointers (run pair.exec (Globals.start (fun _ => 0) 0) ops).2 :=
  streams_independent pair (fun _ => 0) _
    ⟨trivial, by change (8 : ℤ) ≤ 8; exact le_rfl, trivial, by rfl, trivial, trivial⟩
    ⟨trivial, trivial, trivial, fun h => absurd h (by decide), trivial, trivial⟩

/-- `randtbl` alone. -/
def single : Arrays Unit where
  base _ := 0
  bytes _ := 128
  disjoint _ _ hne := absurd rfl hne
  randtbl := ()
  bytes_randtbl := rfl

/-- After a number was given, `setstate` to the current array goes back to the rear pointer that was
    saved before. -/
theorem setstate_disturbs : ¬∀ (mem : ℤ → Int32) (ops : List (Op Unit)),
    Along Streams.exec single.Admissible single.start ops →
    (run single.exec (Globals.start mem 0) ops).1 = (run Streams.exec single.start ops).1 := by
  intro h
  have hset := h (fun _ => 0) [.random, .setstate (), .random] ⟨trivial, by rfl, trivial, trivial⟩
  have hpln := h (fun _ => 0) [.random, .random] ⟨trivial, trivial, trivial⟩
  have hsame : (run Streams.exec single.start [.random, .setstate (), .random]).1 =
      (run Streams.exec single.start [.random, .random]).1 := rfl
  have hne : (run single.exec (Globals.start (fun _ => 0) 0) [.random, .setstate (), .random]).1 ≠
      (run single.exec (Globals.start (fun _ => 0) 0) [.random, .random]).1 := by
    decide +kernel
  exact hne (hset.trans (hsame.trans hpln.symm))

end Uwisc.Random
