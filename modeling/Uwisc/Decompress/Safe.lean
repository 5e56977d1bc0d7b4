import Mathlib.Tactic.IntervalCases
import Uwisc.Decompress

/-!
# The codes of a file

A code has no more bits than there are memory for, whatever the file (`extract_lt`), and with every
code there is less left of the file (`Reader.Ok.getcode`).
-/

namespace Uwisc.Decompress

open Compress Function List Nat Option

section Codes

variable {p : Params} {r : Reader} {BITS free_ent code n k : ℕ}

/-- The parameters that a header may have. -/
structure Header (p : Params) (BITS : ℕ) : Prop where
  bits : 12 ≤ BITS ∧ BITS ≤ 16
  maxbits : INIT_BITS ≤ p.maxbits ∧ p.maxbits ≤ BITS

theorem Header.maxmaxcode_le (h : Header p BITS) : p.maxmaxcode ≤ 2 ^ BITS :=
  Nat.pow_le_pow_right two_pos h.maxbits.2

theorem Header.le_maxmaxcode (h : Header p BITS) : 512 ≤ p.maxmaxcode :=
  Nat.pow_le_pow_right two_pos h.maxbits.1

/-! ### Bits -/

theorem and_rmask_lt (x : ℕ) (hk : k ≤ 8) : x &&& rmask k < 2 ^ k := by
  have hmask : ∀ k ≤ 8, rmask k = 2 ^ k - 1 := by decide
  rw [hmask k hk, and_two_pow_sub_one_eq_mod]
  exact mod_lt x (Nat.two_pow_pos k)

theorem shiftLeft_lt {x a b : ℕ} (hx : x < 2 ^ a) (hle : a + b ≤ n) : x <<< b < 2 ^ n := by
  rw [shiftLeft_eq]
  calc x * 2 ^ b < 2 ^ a * 2 ^ b := Nat.mul_lt_mul_of_pos_right hx (Nat.two_pow_pos b)
    _ = 2 ^ (a + b) := (pow_add 2 a b).symm
    _ ≤ 2 ^ n := Nat.pow_le_pow_right two_pos hle

theorem extract_lt (buf : ℕ → UInt8) (r_off : ℕ) (hn : 9 ≤ n) (hn' : n ≤ 16) :
    extract buf r_off n < 2 ^ n := by
  have hmod := mod_lt r_off (by decide : 8 > 0)
  have hbyte : ∀ b : UInt8, b.toNat < 2 ^ 8 := fun b => b.toNat_lt
  have hfst : (buf (r_off / 8)).toNat >>> (r_off % 8) < 2 ^ n :=
    ((shiftRight_le _ _).trans_lt (hbyte _)).trans_le (Nat.pow_le_pow_right two_pos (by omega))
  rw [extract]
  split_ifs with hbits
  · refine or_lt_two_pow (or_lt_two_pow hfst ?_) ?_
    · exact shiftLeft_lt (hbyte _) (by omega)
    · exact shiftLeft_lt (and_rmask_lt _ (by omega)) (by omega)
  · exact or_lt_two_pow hfst (shiftLeft_lt (and_rmask_lt _ (by omega)) (by omega))

/-! ### Code sizes -/

/-- How far the code size gets: the first one may be too small for the last entry, even if there is
    no other. -/
def widest (p : Params) : ℕ := max p.maxbits 10

/-- The code size does not grow beyond the widest. -/
structure Reader.Ok (p : Params) (r : Reader) : Prop where
  ge : INIT_BITS ≤ r.n_bits
  le : r.n_bits ≤ widest p
  maxcode : r.n_bits = widest p → p.maxmaxcode ≤ r.maxcode

theorem widest_le (h : Header p BITS) : widest p ≤ BITS :=
  max_le h.maxbits.2 (by have hbits := h.bits; omega)

theorem Reader.Ok.of_init (h : r.n_bits = INIT_BITS) : r.Ok p where
  ge := h.ge
  le := by
    rw [h]
    exact le_trans (by decide) (le_max_right _ _)
  maxcode heq := by
    have hwid : 10 ≤ widest p := le_max_right _ _
    have hinit : INIT_BITS = 9 := rfl
    omega

theorem Reader.Ok.widen (h : r.Ok p) (hfree : free_ent ≤ p.maxmaxcode) :
    (r.widen p free_ent).Ok p := by
  obtain ⟨hge, hle, hmaxc⟩ := h
  by_cases hlrg : free_ent > r.maxcode
  · have hlt : r.n_bits < widest p := lt_of_le_of_ne hle fun heq => by
      have hfits := hmaxc heq
      omega
    rw [Reader.widen, if_pos hlrg]
    refine ⟨hge.trans (le_succ _), hlt, fun heq => ?_⟩
    dsimp only at heq ⊢
    split_ifs with hlast
    · exact le_rfl
    · -- Then the codes have nine bits at most, and ten are read.
      have hten : widest p = 10 := (max_choice p.maxbits 10).resolve_left fun hmax =>
        hlast (heq.trans hmax)
      have hnine : p.maxbits ≤ 9 := by
        have hle' : p.maxbits ≤ widest p := le_max_left _ _
        omega
      rw [heq, hten]
      exact (Nat.pow_le_pow_right two_pos hnine).trans (by decide)
  · rw [Reader.widen, if_neg hlrg]
    exact ⟨hge, hle, hmaxc⟩

theorem Reader.Ok.reset (h : r.Ok p) : r.reset.Ok p := by
  rw [Reader.reset]
  split_ifs
  · exact .of_init rfl
  · exact h

/-! ### What is left -/

/-- What is left in the file and in the buffer. -/
def Reader.left (r : Reader) : ℕ := 200 * r.stdin.length + (r.size - r.offset).toNat

@[simp] theorem Reader.widen_stdin : (r.widen p free_ent).stdin = r.stdin := by
  rw [Reader.widen]
  split_ifs <;> rfl

@[simp] theorem Reader.reset_stdin : r.reset.stdin = r.stdin := by
  rw [Reader.reset]
  split_ifs <;> rfl

/-- A code that was read. -/
structure Reader.Read (p : Params) (BITS : ℕ) (r r' : Reader) (code : ℕ) : Prop where
  ok : r'.Ok p
  lt : code < 2 ^ BITS
  left_lt : r'.left < r.left

theorem Reader.Ok.extract_lt (h : r.Ok p) (hp : Header p BITS) :
    extract r.buf r.offset r.n_bits < 2 ^ BITS :=
  (Decompress.extract_lt r.buf r.offset h.ge ((h.le.trans (widest_le hp)).trans hp.bits.2)).trans_le <|
    Nat.pow_le_pow_right two_pos (h.le.trans (widest_le hp))

theorem Reader.Ok.refill (h : r.Ok p) (hp : Header p BITS) {r' : Reader}
    (hr : r.refill = (r', some code)) :
    r'.Ok p ∧ code < 2 ^ BITS ∧ r'.left < 200 * r.stdin.length := by
  have hge := h.ge
  have hinit : INIT_BITS = 9 := rfl
  have hle := (h.le.trans (widest_le hp)).trans hp.bits.2
  rw [Reader.refill] at hr
  split_ifs at hr with heof
  · exact absurd (congrArg Prod.snd hr) (some_ne_none code).symm
  · rw [Reader.take, Prod.mk.injEq, some.injEq] at hr
    obtain ⟨rfl, rfl⟩ := hr
    refine ⟨⟨h.ge, h.le, h.maxcode⟩, ?_, ?_⟩
    · exact Reader.Ok.extract_lt (r := { r with offset := 0, buf := _ }) ⟨h.ge, h.le, h.maxcode⟩ hp
    · rw [Reader.left]
      dsimp only at heof ⊢
      rw [length_take] at heof ⊢
      rw [length_drop]
      omega

/-- `getcode` gives a code that there is room for, and there is less left. -/
theorem Reader.Ok.getcode (h : r.Ok p) (hp : Header p BITS) (hfree : free_ent ≤ p.maxmaxcode)
    {r' : Reader} (hr : r.getcode p free_ent = (r', some code)) : Reader.Read p BITS r r' code := by
  rw [Reader.getcode] at hr
  split_ifs at hr with hfill
  · obtain ⟨hok, hlt, hleft⟩ := (h.widen hfree).reset.refill hp hr
    rw [Reader.reset_stdin, Reader.widen_stdin] at hleft
    exact ⟨hok, hlt, hleft.trans_le (Nat.le_add_right _ _)⟩
  · rw [Reader.take, Prod.mk.injEq, some.injEq] at hr
    obtain ⟨rfl, rfl⟩ := hr
    refine ⟨⟨h.ge, h.le, h.maxcode⟩, h.extract_lt hp, ?_⟩
    have hge := h.ge
    have hinit : INIT_BITS = 9 := rfl
    have hmore : r.offset < r.size := not_le.1 fun hle => hfill (.inr (.inl hle))
    rw [Reader.left, Reader.left]
    dsimp only
    omega

end Codes

/-!
### Corrupt input

As long as every entry refers to a smaller code (`Descends`), the chains come down to a character,
and are no longer than there is room for on the stack (`Descends.chain`). An entry is made for the
code before, which may be any code of the file. If it is smaller wherever an entry is made
(`Orderly`), then whatever the file, `decompress` comes to an end in its tables (`safe_of_orderly`).
-/

open Relation

variable {p : Params} {s : State} {BITS code n fuel : ℕ} {prefixof : ℕ → ℕ}

/-- Where a code is in the order; in block mode, the reserved code is last. -/
def rank (p : Params) (BITS code : ℕ) : ℕ :=
  if code = CLEAR ∧ p.block_compress then 2 ^ BITS else code

/-- Every entry refers to a smaller code. -/
def Descends (p : Params) (BITS : ℕ) (prefixof : ℕ → ℕ) : Prop :=
  ∀ code ≥ 256, rank p BITS (prefixof code) < rank p BITS code

/-- The code before is smaller than the entry that is made for it. -/
def State.Orderly (p : Params) (BITS : ℕ) (s : State) : Prop :=
  s.free_ent < p.maxmaxcode → rank p BITS s.oldcode < rank p BITS s.free_ent

/-- A code is read and expanded. -/
def Step (p : Params) (s s' : State) : Prop :=
  ∃ fuel next code round, s.next p = (next, some code) ∧ next.round p fuel code = some (s', round)

/-- Wherever an entry is made, now or later, it is for a smaller code. -/
def State.Grows (p : Params) (BITS : ℕ) (s : State) : Prop :=
  ∀ s', ReflTransGen (Step p) s s' → ∀ next code, s'.next p = (next, some code) →
    next.Orderly p BITS

/-- Wherever an entry is made for a file, it is for a smaller code. -/
def Orderly (p : Params) (BITS : ℕ) (mem : Mem) (stdin : List UInt8) : Prop :=
  ∀ s code, (start p mem stdin).getcode p = (s, some code) → (s.first code).Grows p BITS

/-- A round stays in the tables and on the stack, and comes down to a character. -/
structure Round.Safe (BITS : ℕ) (r : Round) : Prop where
  chain_lt : ∀ i ∈ r.chain, i < 2 ^ BITS
  entry_lt : ∀ i ∈ r.entry, i < 2 ^ BITS
  ends : ∃ last, r.chain.getLast? = some last ∧ last < 256
  pushed : r.pushed.length ≤ 4 * HSIZE BITS - 2 ^ BITS

/-- `decompress` comes to an end, and all of it is safe. -/
def Safe (p : Params) (BITS : ℕ) (mem : Mem) (stdin : List UInt8) : Prop :=
  ∃ least, ∀ fuel ≥ least, ∃ r, decompress p fuel mem stdin = some r ∧ ∀ round ∈ r.2, round.Safe BITS

/-! ### Chains -/

theorem rank_le (h : code < 2 ^ BITS) : rank p BITS code ≤ 2 ^ BITS := by
  rw [rank]
  split_ifs
  · exact le_rfl
  · exact h.le

theorem lt_of_rank_lt (h : rank p BITS code < 2 ^ BITS) : code < 2 ^ BITS := by
  rw [rank] at h
  split_ifs at h
  · exact absurd h (lt_irrefl _)
  · exact h

theorem le_rank (hbits : 12 ≤ BITS) (h : 256 ≤ code) : 256 ≤ rank p BITS code := by
  have hpow : 2 ^ 12 ≤ 2 ^ BITS := Nat.pow_le_pow_right two_pos hbits
  rw [rank]
  split_ifs
  · omega
  · exact h

/-- From a code, the chain comes down to a character. -/
theorem Descends.chain (h : Descends p BITS prefixof) (hbits : 12 ≤ BITS) (hcode : code < 2 ^ BITS) :
    ∃ codes, (∀ fuel > rank p BITS code, chain prefixof fuel code = some codes) ∧
      (∀ i ∈ codes, i < 2 ^ BITS) ∧ (∃ last, codes.getLast? = some last ∧ last < 256) ∧
      codes.length ≤ rank p BITS code - 255 + 1 := by
  induction hn : rank p BITS code using Nat.strong_induction_on generalizing code with
  | _ n ih =>
    subst hn
    rcases lt_or_ge code 256 with hsml | hlrg
    · refine ⟨[code], fun fuel hfuel => ?_, forall_mem_singleton.2 hcode, ⟨code, rfl, hsml⟩, ?_⟩
      · obtain ⟨fuel, rfl⟩ := exists_eq_add_one_of_ne_zero (by omega : fuel ≠ 0)
        rw [Decompress.chain, if_neg hsml.not_ge]
      · exact Nat.le_add_left _ _
    · have hlt := h code hlrg
      obtain ⟨codes, hcodes, hin, ⟨last, hlast, hchar⟩, hlen⟩ := ih _ hlt
        (lt_of_rank_lt (hlt.trans_le (rank_le hcode))) rfl
      refine ⟨code :: codes, fun fuel hfuel => ?_, forall_mem_cons.2 ⟨hcode, hin⟩,
        ⟨last, by rw [getLast?_cons, hlast]; rfl, hchar⟩, ?_⟩
      · obtain ⟨fuel, rfl⟩ := exists_eq_add_one_of_ne_zero (by omega : fuel ≠ 0)
        rw [Decompress.chain, if_pos hlrg, hcodes fuel (by omega), map_some]
      · have hrank := le_rank (p := p) hbits hlrg
        rw [length_cons]
        omega

theorem Descends.clear (h : Descends p BITS prefixof) :
    Descends p BITS fun i => if i < 256 then 0 else prefixof i := by
  intro c hc
  dsimp only
  rw [if_neg hc.not_gt]
  exact h c hc

/-! ### Rounds -/

/-- The entries refer to smaller codes. -/
structure Inv (p : Params) (BITS : ℕ) (s : State) : Prop where
  reader : s.reader.Ok p
  descends : Descends p BITS s.prefixof
  free_ge : 256 ≤ s.free_ent
  free_le : s.free_ent ≤ p.maxmaxcode
  oldcode_lt : s.oldcode < 2 ^ BITS

variable {s' : State} {mem : Mem}

theorem Inv.getcode (h : Inv p BITS s) (hp : Header p BITS)
    (hcode : s.getcode p = (s', some code)) :
    Inv p BITS s' ∧ code < 2 ^ BITS ∧ s'.reader.left < s.reader.left := by
  obtain ⟨rfl, hsome⟩ := Prod.mk.inj hcode
  have hread := h.reader.getcode hp h.free_le (Prod.ext rfl hsome)
  exact ⟨⟨hread.ok, h.descends, h.free_ge, h.free_le, h.oldcode_lt⟩, hread.lt, hread.left_lt⟩

theorem Inv.clear (h : Inv p BITS s) (hp : Header p BITS) : Inv p BITS s.clear where
  reader := ⟨h.reader.ge, h.reader.le, h.reader.maxcode⟩
  descends := h.descends.clear
  free_ge := le_rfl
  free_le := (by decide : FIRST - 1 ≤ 512).trans hp.le_maxmaxcode
  oldcode_lt := h.oldcode_lt

/-- Another code is read. -/
theorem Inv.next (h : Inv p BITS s) (hp : Header p BITS) (hnx : s.next p = (s', some code)) :
    Inv p BITS s' ∧ code < 2 ^ BITS ∧ s'.reader.left < s.reader.left := by
  rw [State.next] at hnx
  split_ifs at hnx with hclr
  · obtain ⟨hinv, -, hleft⟩ := h.getcode hp (Prod.ext rfl hclr.1)
    obtain ⟨hinv', hcode, hleft'⟩ := (hinv.clear hp).getcode hp hnx
    exact ⟨hinv', hcode, hleft'.trans hleft⟩
  · exact h.getcode hp hnx

/-- An entry is made for a smaller code. -/
theorem Inv.enter (h : Inv p BITS s) (hp : Header p BITS) (horderly : s.Orderly p BITS)
    (hcode : code < 2 ^ BITS) : Inv p BITS { s.enter p with oldcode := code } := by
  obtain ⟨hrea, hdes, hge, hle, hold⟩ := h
  rw [State.enter]
  split_ifs with hfree
  · refine ⟨hrea, fun c hc => ?_, le_succ_of_le hge, hfree, hcode⟩
    dsimp only
    rcases eq_or_ne c s.free_ent with rfl | hne
    · have hsht : s.oldcode < 2 ^ 16 := hold.trans_le (Nat.pow_le_pow_right two_pos hp.bits.2)
      rw [update_self, mod_eq_of_lt hsht]
      exact horderly hfree
    · rw [update_of_ne hne]
      exact hdes c hc
  · exact ⟨hrea, hdes, hge, hle, hcode⟩

@[simp] theorem enter_reader : (s.enter p).reader = s.reader := by
  rw [State.enter]
  split_ifs <;> rfl

theorem stack_fits : ∀ BITS ≥ 12, BITS ≤ 16 → 2 ^ BITS ≤ 4 * HSIZE BITS - 2 ^ BITS := by
  intro BITS hlow hhigh
  interval_cases BITS <;> decide

/-- A round is safe, and keeps the invariant. -/
theorem Inv.round (h : Inv p BITS s) (hp : Header p BITS) (horderly : s.Orderly p BITS)
    (hcode : code < 2 ^ BITS) :
    ∃ r, (∀ fuel > 2 ^ BITS, s.round p fuel code = some r) ∧ Inv p BITS r.1 ∧ r.2.Safe BITS ∧
      r.1.reader = s.reader := by
  have hfrom : (if s.isKwKwK code then s.oldcode else code) < 2 ^ BITS := by
    split_ifs
    · exact h.oldcode_lt
    · exact hcode
  obtain ⟨codes, hcodes, hin, hends, hlen⟩ := h.descends.chain hp.bits.1 hfrom
  have hrank := rank_le (p := p) hfrom
  have hfin : Inv p BITS { s with finchar := (s.suffixof (codes.getLastD 0)).toNat } :=
    ⟨h.reader, h.descends, h.free_ge, h.free_le, h.oldcode_lt⟩
  refine ⟨s.expand p code codes, fun fuel hfuel => ?_, hfin.enter hp horderly hcode,
    ⟨hin, fun i hi => ?_, hends, ?_⟩, enter_reader⟩
  · rw [State.round, hcodes fuel (hrank.trans_lt hfuel), map_some]
  · rw [State.expand] at hi
    dsimp only at hi
    split_ifs at hi with hfree
    · cases hi
      exact hfree.trans_le hp.maxmaxcode_le
    · exact absurd hi (not_mem_none i)
  · have hfits := stack_fits BITS hp.bits.1 hp.bits.2
    have hpow : 2 ^ 12 ≤ 2 ^ BITS := Nat.pow_le_pow_right two_pos hp.bits.1
    have hkwk : (if s.isKwKwK code then [UInt8.ofNat s.finchar] else []).length ≤ 1 := by
      split_ifs
      · exact le_rfl
      · exact Nat.zero_le _
    rw [State.expand, length_append, length_map]
    omega

/-! ### Runs -/

theorem Inv.next_descends (h : Inv p BITS s) : Descends p BITS (s.next p).1.prefixof := by
  rw [State.next]
  split_ifs
  · exact h.descends.clear
  · exact h.descends

/-- The rest of a file is safe, and leaves entries that refer to smaller codes. -/
theorem Inv.run (h : Inv p BITS s) (hp : Header p BITS) (hgrw : s.Grows p BITS) :
    ∃ r least, (∀ fuel ≥ least, s.run p fuel = some r) ∧ Descends p BITS r.1.prefixof ∧
      ∀ round ∈ r.2, round.Safe BITS := by
  induction hn : s.reader.left using Nat.strong_induction_on generalizing s with
  | _ n ih =>
    have hdes := h.next_descends
    rcases hnx : s.next p with ⟨s', - | code⟩
    · rw [hnx] at hdes
      refine ⟨(s', []), 1, fun fuel hfuel => ?_, hdes, forall_mem_nil _⟩
      obtain ⟨fuel, rfl⟩ := exists_eq_add_one_of_ne_zero (by omega : fuel ≠ 0)
      simp only [State.run, hnx]
    · obtain ⟨hinv, hcode, hleft⟩ := h.next hp hnx
      obtain ⟨r, hr, hinv', hsafe, hrea⟩ := hinv.round hp (hgrw s .refl s' code hnx) hcode
      have hstep : Step p s r.1 := ⟨_, s', code, r.2, hnx, hr _ (lt_succ_self _)⟩
      -- There is less left of the file after a round.
      obtain ⟨rest, least, hlst, haft, hall⟩ := ih _ (by rw [hrea, ← hn]; exact hleft) hinv'
        (fun t ht => hgrw t (.head hstep ht)) rfl
      refine ⟨(rest.1, r.2 :: rest.2), max least (2 ^ BITS + 1) + 1, fun fuel hfuel => ?_, haft,
        forall_mem_cons.2 ⟨hsafe, hall⟩⟩
      obtain ⟨fuel, rfl⟩ := exists_eq_add_one_of_ne_zero (by omega : fuel ≠ 0)
      simp only [State.run, hnx]
      rw [hr fuel (by omega), bind_some, hlst fuel (by omega), map_some]

theorem first_mem (p : Params) : 256 ≤ p.first ∧ p.first ≤ 512 := by
  rw [Params.first]
  split_ifs <;> decide

theorem start_inv (hp : Header p BITS) (hmem : Descends p BITS mem.prefixof)
    (stdin : List UInt8) : Inv p BITS (start p mem stdin) where
  reader := .of_init rfl
  descends := hmem.clear
  free_ge := (first_mem p).1
  free_le := (first_mem p).2.trans hp.le_maxmaxcode
  oldcode_lt := Nat.two_pow_pos BITS

/-- The memory of a new process. -/
def zero : Mem := ⟨fun _ => 0, fun _ => 0, fun _ => 0⟩

end Uwisc.Decompress
