import Mathlib.Algebra.Order.Ring.Int
import Mathlib.Data.List.GetD
import Mathlib.Data.List.Iterate

/-!
# Random numbers

`random`, `srandom`, `initstate` and `setstate` of `lib/libc/gen/random.c`. The memory is one of
longs, of 32 bits, and a pointer is an address in it. What is printed is left out.
-/

namespace Uwisc.Random

open Function

/-- The number of types. -/
abbrev MAX_TYPES : ℕ := 5

abbrev TYPE_0 : Fin MAX_TYPES := 0

abbrev TYPE_3 : Fin MAX_TYPES := 3

/-- The degrees of the polynomials. -/
def degrees : Fin MAX_TYPES → ℕ
  | 0 => 0
  | 1 => 7
  | 2 => 15
  | 3 => 31
  | 4 => 63

/-- The separations of their two lower order coefficients. -/
def seps : Fin MAX_TYPES → ℕ
  | 0 => 0
  | 1 => 3
  | 2 => 1
  | 3 => 3
  | 4 => 1

/-- How many bytes a type has to have. -/
def breaks : Fin MAX_TYPES → ℤ
  | 0 => 8
  | 1 => 32
  | 2 => 64
  | 3 => 128
  | 4 => 256

/-- The linear congruential bit. -/
def lcg (x : Int32) : Int32 := 1103515245 * x + 12345

/-- The memory, and the variables of the package. -/
structure Globals where
  mem : ℤ → Int32
  fptr : ℤ
  rptr : ℤ
  state : ℤ
  rand_type : Fin MAX_TYPES
  rand_deg : ℕ
  rand_sep : ℕ
  end_ptr : ℤ

/-- `random`. -/
def Globals.random (g : Globals) : Int32 × Globals :=
  if g.rand_type = 0 then
    let i := lcg (g.mem g.state) &&& 0x7fffffff
    (i, { g with mem := update g.mem g.state i })
  else
    let sum := g.mem g.fptr + g.mem g.rptr
    let g := { g with mem := update g.mem g.fptr sum }
    (sum >>> 1 &&& 0x7fffffff,
      if g.fptr + 1 ≥ g.end_ptr then { g with fptr := g.state, rptr := g.rptr + 1 }
      else { g with
        fptr := g.fptr + 1, rptr := if g.rptr + 1 ≥ g.end_ptr then g.state else g.rptr + 1 })

/-- The loop of `srandom`, from `i` on. -/
def seeded (state : ℤ) : ℕ → ℤ → (ℤ → Int32) → ℤ → Int32
  | 0, _, mem => mem
  | n + 1, i, mem => seeded state n (i + 1) (update mem (state + i) (lcg (mem (state + i - 1))))

/-- `srandom`. -/
def Globals.srandom (g : Globals) (x : UInt32) : Globals :=
  let g := { g with mem := update g.mem g.state x.toInt32 }
  if g.rand_type = 0 then g
  else
    (fun g => g.random.2)^[10 * g.rand_deg]
      { g with
        mem := seeded g.state (g.rand_deg - 1) 1 g.mem, fptr := g.state + g.rand_sep,
        rptr := g.state }

/-- The type, multiplexed with the rear pointer, is stored in front of the state. -/
def Globals.save (g : Globals) : Globals :=
  { g with
    mem := update g.mem (g.state - 1) <|
      if g.rand_type = 0 then .ofNat g.rand_type
      else .ofInt (MAX_TYPES * (g.rptr - g.state) + g.rand_type) }

/-- The best type for this many bytes. -/
def typeFor (n : ℤ) : Fin MAX_TYPES :=
  if n < breaks 1 then 0 else if n < breaks 2 then 1 else if n < breaks 3 then 2
  else if n < breaks 4 then 3 else 4

/-- The variables for a type. -/
def Globals.setType (g : Globals) (type : Fin MAX_TYPES) : Globals :=
  { g with rand_type := type, rand_deg := degrees type, rand_sep := seps type }

/-- `initstate`; it does nothing else than to save the state if there are less than eight bytes, and
    then nothing is returned. -/
def Globals.initstate (g : Globals) (seed : UInt32) (arg_state n : ℤ) : Option ℤ × Globals :=
  let ostate := g.state - 1
  let g := g.save
  if n < breaks 0 then (none, g)
  else
    let g := g.setType (typeFor n)
    let g := { g with state := arg_state + 1, end_ptr := arg_state + 1 + g.rand_deg }
    (some ostate, (g.srandom seed).save)

/-- The type in a word, unless it has been munged. -/
def typeOf (type : ℤ) : Option (Fin MAX_TYPES) :=
  if h : 0 ≤ type ∧ type < MAX_TYPES then some ⟨type.toNat, by omega⟩ else none

/-- The pointers into a state. -/
def Globals.point (g : Globals) (rear : ℤ) : Globals :=
  if g.rand_type ≠ 0 then
    { g with
      rptr := g.state + rear, fptr := g.state + (rear + g.rand_sep).tmod g.rand_deg }
  else g

/-- `setstate`. -/
def Globals.setstate (g : Globals) (arg_state : ℤ) : ℤ × Globals :=
  let type := (g.mem arg_state).toInt.tmod MAX_TYPES
  let rear := (g.mem arg_state).toInt.tdiv MAX_TYPES
  let ostate := g.state - 1
  let g := g.save
  let g := (typeOf type).elim g g.setType
  let g := { g with state := arg_state + 1 }
  let g := g.point rear
  (ostate, { g with end_ptr := g.state + g.rand_deg })

/-- The state information to start with. -/
def randtbl : List Int32 := [3, 0x9a319039, 0x32d9c024, 0x9b663182, 0x5da1f342,
  0xde3b81e0, 0xdf0a6fb5, 0xf103bc02, 0x48f340fb,
  0x7449e56b, 0xbeb1dbb0, 0xab5c5918, 0x946554fd,
  0x8c2e680f, 0xeb3d799f, 0xb11ee0b7, 0x2d436b86,
  0xda672e2a, 0x1588ca88, 0xe369735d, 0x904f35f7,
  0xd7158fd6, 0x6fa6f051, 0x616e6b96, 0xac94efdc,
  0x36413f93, 0xc622c298, 0xf5a42ab8, 0x8a88d77b,
  0xf5ad9d0e, 0x8999220b, 0x27fb47b9]

/-- A program starts with `randtbl`, at this address, and any other memory. -/
def Globals.start (mem : ℤ → Int32) (addr : ℤ) : Globals where
  mem x := if addr ≤ x ∧ x < addr + 32 then randtbl.getD (x - addr).toNat 0 else mem x
  fptr := addr + seps 3 + 1
  rptr := addr + 1
  state := addr + 1
  rand_type := 3
  rand_deg := degrees 3
  rand_sep := seps 3
  end_ptr := addr + degrees 3 + 1

/-!
### Generators

A generator has its words and the position of its rear pointer, and nothing else (`Gen`). Where the
variables of the package are those of a generator (`Current`), `random` gives its next number
(`Current.random`), and `srandom` starts the generator of the seed (`Current.srandom`).
-/

open List Nat

/-- How many words a generator has. -/
def size (type : Fin MAX_TYPES) : ℕ := max 1 (degrees type)

theorem size_pos (type : Fin MAX_TYPES) : 0 < size type := Nat.le_max_left 1 _

/-- A generator, with the position of its rear pointer. -/
structure Gen where
  type : Fin MAX_TYPES
  words : List Int32
  rear : ℕ
  length_words : words.length = size type
  rear_lt : rear < size type

namespace Gen

/-- The position of the front pointer. -/
def front (g : Gen) : ℕ := (g.rear + seps g.type) % size g.type

/-- The next number, and the generator after it. -/
def next (g : Gen) : Int32 × Gen :=
  if g.type = TYPE_0 then
    let i := lcg (g.words.getD 0 0) &&& 0x7fffffff
    (i, { g with words := g.words.set 0 i, length_words := by rw [length_set, g.length_words] })
  else
    let sum := g.words.getD g.front 0 + g.words.getD g.rear 0
    (sum >>> 1 &&& 0x7fffffff, { g with
        words := g.words.set g.front sum, rear := (g.rear + 1) % size g.type,
        length_words := by rw [length_set, g.length_words],
        rear_lt := mod_lt _ (size_pos _) })

@[simp] theorem next_type (g : Gen) : g.next.2.type = g.type := by
  rw [next]
  split_ifs <;> rfl

/-- The words that a seed gives. -/
def seed (type : Fin MAX_TYPES) (x : UInt32) : Gen where
  type := type
  words := List.iterate lcg x.toInt32 (size type)
  rear := 0
  length_words := length_iterate ..
  rear_lt := size_pos type

/-- The generator of a seed. The initial dependencies are got rid of. -/
def start (type : Fin MAX_TYPES) (x : UInt32) : Gen :=
  (fun g => g.next.2)^[10 * degrees type] (seed type x)

@[simp] theorem iterate_type (g : Gen) (n : ℕ) : ((fun g => g.next.2)^[n] g).type = g.type := by
  induction n with
  | zero => rfl
  | succ n ih => rw [iterate_succ_apply', next_type, ih]

@[simp] theorem start_type (type : Fin MAX_TYPES) (x : UInt32) : (start type x).type = type :=
  iterate_type ..

end Gen

/-! ### Words in memory -/

variable {mem mem' : ℤ → Int32} {a x : ℤ} {words : List Int32} {g : Globals} {gen : Gen}
  {type : Fin MAX_TYPES}

/-- The words are in memory from the address on. -/
def Words (mem : ℤ → Int32) (a : ℤ) (words : List Int32) : Prop :=
  ∀ k < words.length, mem (a + k) = words.getD k 0

theorem Words.set {k : ℕ} (h : Words mem a words) (v : Int32) (hk : k < words.length) :
    Words (update mem (a + k) v) a (words.set k v) := by
  intro j hj
  rw [length_set] at hj
  rcases eq_or_ne j k with rfl | hne
  · rw [update_self, getD_eq_getElem _ _ (by rwa [length_set]), getElem_set_self]
  · rw [update_of_ne (by omega), h j hj, getD_eq_getElem (words.set k v) 0 (by rwa [length_set]),
      getElem_set_ne hne.symm, getD_eq_getElem _ _ hj]

/-- What is not within these bounds has not been changed. -/
def Frame (mem mem' : ℤ → Int32) (lo hi : ℤ) : Prop := ∀ x, x < lo ∨ hi ≤ x → mem' x = mem x

theorem Frame.update {lo hi : ℤ} (h : Frame mem mem' lo hi) (v : Int32) (hx : lo ≤ x ∧ x < hi) :
    Frame mem (update mem' x v) lo hi := fun y hy => by
  rw [update_of_ne (by omega), h y hy]

theorem Frame.refl (mem : ℤ → Int32) (lo hi : ℤ) : Frame mem mem lo hi := fun _ _ => rfl

theorem Frame.trans {mem'' : ℤ → Int32} {lo hi : ℤ} (h : Frame mem mem' lo hi)
    (h' : Frame mem' mem'' lo hi) : Frame mem mem'' lo hi := fun x hx => (h' x hx).trans (h x hx)

/-! ### The current generator -/

/-- The variables are set for a type, and a state at an address. -/
structure IsSet (g : Globals) (a : ℤ) (type : Fin MAX_TYPES) : Prop where
  state : g.state = a + 1
  rand_type : g.rand_type = type
  rand_deg : g.rand_deg = degrees type
  rand_sep : g.rand_sep = seps type
  end_ptr : g.end_ptr = a + 1 + degrees type

/-- The variables are those of a generator, the words of which are behind the word at the
    address. -/
structure Current (g : Globals) (a : ℤ) (gen : Gen) : Prop extends IsSet g a gen.type where
  words : Words g.mem (a + 1) gen.words
  rptr : gen.type ≠ 0 → g.rptr = a + 1 + gen.rear
  fptr : gen.type ≠ 0 → g.fptr = a + 1 + gen.front

theorem size_of_ne_zero : ∀ type, type ≠ 0 → size type = degrees type ∧ 0 < seps type ∧
    seps type < degrees type := by
  decide

theorem Gen.front_lt (gen : Gen) : gen.front < size gen.type :=
  mod_lt _ (gen.rear_lt.trans_le' (Nat.zero_le _))

theorem mod_eq_ite {n d : ℕ} (h : n < 2 * d) : n % d = if n < d then n else n - d := by
  split_ifs with hlt
  · exact mod_eq_of_lt hlt
  · rw [mod_eq_sub_mod (not_lt.1 hlt)]
    exact mod_eq_of_lt (by omega)

/-- The front and the rear pointer do not wrap on the same call. -/
theorem wrap_pointers {r s d : ℕ} (hr : r < d) (hs : 0 < s) (hs' : s < d) :
    ((r + s) % d + 1 ≥ d → (r + 1 + s) % d = 0 ∧ (r + 1) % d = r + 1) ∧
    ((r + s) % d + 1 < d → (r + 1 + s) % d = (r + s) % d + 1 ∧
      (r + 1) % d = if r + 1 ≥ d then 0 else r + 1) := by
  rw [mod_eq_ite (by omega : r + s < 2 * d), mod_eq_ite (by omega : r + 1 + s < 2 * d),
    mod_eq_ite (by omega : r + 1 < 2 * d)]
  split_ifs <;> omega

/-- `random` gives the next number. -/
theorem Current.random (h : Current g a gen) :
    g.random.1 = gen.next.1 ∧ Current g.random.2 a gen.next.2 ∧
      Frame g.mem g.random.2.mem (a + 1) (a + 1 + size gen.type) := by
  obtain ⟨mem, fptr, rptr, state, rand_type, rand_deg, rand_sep, end_ptr⟩ := g
  obtain ⟨⟨rfl, rfl, rfl, rfl, rfl⟩, hwds, hrptr, hfptr⟩ := h
  dsimp only at hwds hrptr hfptr
  have hlen := gen.length_words
  have hrear := gen.rear_lt
  have hfrt := gen.front_lt
  by_cases hzero : gen.type = 0
  · have hfst := hwds 0 (by omega)
    rw [cast_zero, add_zero] at hfst
    have hset := hwds.set (lcg (gen.words.getD 0 0) &&& 0x7fffffff) (k := 0) (by omega)
    rw [cast_zero, add_zero] at hset
    rw [Globals.random, Gen.next, if_pos hzero, if_pos hzero]
    dsimp only
    rw [hfst]
    exact ⟨rfl, ⟨⟨rfl, rfl, rfl, rfl, rfl⟩, hset, hrptr, hfptr⟩,
      Frame.update (.refl mem _ _) _ (by omega)⟩
  · obtain ⟨hsize, hsep, hsep'⟩ := size_of_ne_zero gen.type hzero
    have hfrt' : gen.front = (gen.rear + seps gen.type) % degrees gen.type := by
      rw [Gen.front, hsize]
    rw [hsize] at hrear hfrt hlen
    obtain rfl := hrptr hzero
    obtain rfl := hfptr hzero
    have hset := hwds.set (gen.words.getD gen.front 0 + gen.words.getD gen.rear 0)
      (k := gen.front) (by omega)
    obtain ⟨hwrap, hnow⟩ := wrap_pointers hrear hsep hsep'
    rw [Globals.random, Gen.next, if_neg hzero, if_neg hzero]
    dsimp only
    rw [hwds _ (by omega), hwds _ (by omega)]
    have hfrm := Frame.update (.refl mem (a + 1) (a + 1 + size gen.type))
      (gen.words.getD gen.front 0 + gen.words.getD gen.rear 0)
      (by omega : a + 1 ≤ a + 1 + gen.front ∧ a + 1 + gen.front < a + 1 + size gen.type)
    refine ⟨rfl, ?_, ?_⟩
    · by_cases hlast : gen.front + 1 ≥ degrees gen.type
      · obtain ⟨hzero', hrear'⟩ := hwrap (hfrt' ▸ hlast)
        rw [if_pos (by omega)]
        refine ⟨⟨rfl, rfl, rfl, rfl, rfl⟩, hset, fun _ => ?_, fun _ => ?_⟩
        · dsimp only
          rw [hsize, hrear']
          omega
        · change a + 1 = a + 1 + (((gen.rear + 1) % size gen.type + seps gen.type) % size gen.type : ℕ)
          rw [hsize, mod_add_mod, hzero']
          omega
      · obtain ⟨hsucc, hrear'⟩ := hnow (hfrt' ▸ not_le.1 hlast)
        rw [if_neg (by omega)]
        refine ⟨⟨rfl, rfl, rfl, rfl, rfl⟩, hset, fun _ => ?_, fun _ => ?_⟩
        · dsimp only
          rw [hsize, hrear']
          split_ifs <;> omega
        · change a + 1 + gen.front + 1 =
            a + 1 + (((gen.rear + 1) % size gen.type + seps gen.type) % size gen.type : ℕ)
          rw [hsize, mod_add_mod, hsucc, ← hfrt']
          omega
    · split_ifs <;> exact hfrm

/-! ### Seeds -/

theorem seeded_frame (state : ℤ) (n : ℕ) (i : ℤ) (mem : ℤ → Int32) :
    Frame mem (seeded state n i mem) (state + i) (state + i + n) := by
  induction n generalizing i mem with
  | zero => exact .refl _ _ _
  | succ n ih =>
    intro x hx
    rw [seeded, ih _ _ x (by omega), update_of_ne (by omega)]

/-- The loop of `srandom` goes on with the numbers of the linear congruential generator. -/
theorem seeded_apply {n k : ℕ} (state i : ℤ) (mem : ℤ → Int32) (hk : k ≤ n) :
    seeded state n i mem (state + i - 1 + k) = lcg^[k] (mem (state + i - 1)) := by
  induction n generalizing i mem k with
  | zero =>
    obtain rfl := Nat.le_zero.1 hk
    rw [cast_zero, add_zero, seeded, iterate_zero, id]
  | succ n ih =>
    obtain - | k := k
    · rw [cast_zero, add_zero, iterate_zero, id]
      exact seeded_frame state (n + 1) i mem _ (.inl (by omega))
    · have hnx := ih (i + 1) (update mem (state + i) (lcg (mem (state + i - 1))))
        (le_of_succ_le_succ hk)
      rw [show state + (i + 1) - 1 = state + i by omega, update_self, ← iterate_succ_apply] at hnx
      rw [seeded, ← hnx]
      congr 1
      omega

theorem Current.iterate (h : Current g a gen) (n : ℕ) :
    Current ((fun g => g.random.2)^[n] g) a ((fun g => g.next.2)^[n] gen) ∧
      Frame g.mem ((fun g => g.random.2)^[n] g).mem (a + 1) (a + 1 + size gen.type) := by
  induction n generalizing g gen with
  | zero => exact ⟨h, .refl _ _ _⟩
  | succ n ih =>
    obtain ⟨-, hcur, hfrm⟩ := h.random
    obtain ⟨hcur', hfrm'⟩ := ih hcur
    rw [Gen.next_type] at hfrm'
    exact ⟨hcur', hfrm.trans hfrm'⟩

/-- The words that `srandom` stores are those of the seed. -/
theorem seeded_words (a : ℤ) (mem : ℤ → Int32) (x : UInt32) (type : Fin MAX_TYPES) :
    Words (seeded a (size type - 1) 1 (update mem a x.toInt32)) a (Gen.seed type x).words ∧
      Frame mem (seeded a (size type - 1) 1 (update mem a x.toInt32)) a (a + size type) := by
  have hpos := size_pos type
  constructor
  · intro k hk
    rw [Gen.length_words] at hk
    have hk' : k < size type := hk
    have hword := seeded_apply a 1 (update mem a x.toInt32) (le_sub_one_of_lt hk')
    rw [add_sub_cancel_right, update_self] at hword
    rw [hword, Gen.seed, getD_eq_getElem _ _ (by rwa [length_iterate]), getElem_iterate]
  · intro y hy
    rw [seeded_frame a _ 1 _ y (by omega), update_of_ne (by omega)]

/-- `srandom` starts the generator of the seed. -/
theorem IsSet.srandom (h : IsSet g a type) (x : UInt32) :
    Current (g.srandom x) a (Gen.start type x) ∧
      Frame g.mem (g.srandom x).mem (a + 1) (a + 1 + size type) := by
  obtain ⟨mem, fptr, rptr, state, rand_type, rand_deg, rand_sep, end_ptr⟩ := g
  obtain ⟨hstt, htype, hdeg, hsep, hend⟩ := h
  dsimp only at hstt htype hdeg hsep hend
  subst hstt htype hdeg hsep hend
  obtain ⟨hwds, hfrm⟩ := seeded_words (a + 1) mem x rand_type
  rw [Globals.srandom]
  by_cases hzero : rand_type = 0
  · subst hzero
    exact ⟨⟨⟨rfl, rfl, rfl, rfl, rfl⟩, hwds, absurd rfl, absurd rfl⟩, hfrm⟩
  · obtain ⟨hsize, hpos, hlt⟩ := size_of_ne_zero rand_type hzero
    rw [if_neg hzero]
    rw [hsize] at hwds hfrm
    have hseed : Current
        { mem := seeded (a + 1) (degrees rand_type - 1) 1 (update mem (a + 1) x.toInt32),
          fptr := a + 1 + seps rand_type, rptr := a + 1, state := a + 1, rand_type := rand_type,
          rand_deg := degrees rand_type, rand_sep := seps rand_type,
          end_ptr := a + 1 + degrees rand_type } a (Gen.seed rand_type x) :=
      ⟨⟨rfl, rfl, rfl, rfl, rfl⟩, hwds, fun _ => (add_zero _).symm, fun _ => by
        change a + 1 + seps rand_type = a + 1 + ((0 + seps rand_type) % size rand_type : ℕ)
        rw [hsize, zero_add, mod_eq_of_lt hlt]⟩
    obtain ⟨hcur, hfrm'⟩ := hseed.iterate (10 * degrees rand_type)
    have hsize' : size (Gen.seed rand_type x).type = degrees rand_type := hsize
    rw [hsize'] at hfrm'
    rw [hsize]
    exact ⟨hcur, hfrm.trans hfrm'⟩

end Uwisc.Random
