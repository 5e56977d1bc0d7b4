import Mathlib.Order.Interval.Finset.Nat
import Mathlib.RingTheory.Coprime.Lemmas
import Mathlib.Tactic.IntervalCases
import Mathlib.Tactic.NormNum.Prime
import Uwisc.Compress

/-!
# The hash table of compress

* `mem_clHash`: all of the table is cleared, and nothing else;
* `Chosen`: for every file, the table has a prime size and more slots than there can be codes;
* `Inv`: the occupied slots have codes of their own, so there are empty ones;
* `lookup_ends`: from an index in the table, a probe stays in it and comes to an end.
-/

namespace Uwisc.Compress

open Function Lib List Nat Option

variable {p : Params} {s : State} {htab : ℤ → ℤ} {fcode i j n d : ℤ}

/-- An index in the table. -/
def InTable (hsize : ℕ) (i : ℤ) : Prop := 0 ≤ i ∧ i < hsize

theorem mem_clHashLoop (k : ℕ) (q : ℤ) : i ∈ clHashLoop k q ↔ q - k ≤ i ∧ i < q := by
  induction k, q using clHashLoop.induct with
  | case1 k q ih =>
    rw [clHashLoop, mem_append, ih, List.mem_map]
    constructor
    · rintro (⟨a, ha, rfl⟩ | h)
      · rw [mem_reverse, mem_range'_1] at ha
        omega
      · omega
    · intro h
      rcases lt_or_ge i (q - 16) with hlow | hhigh
      · exact .inr (by omega)
      · refine .inl ⟨(q - i).toNat, ?_, by omega⟩
        rw [mem_reverse, mem_range'_1]
        omega
  | case2 k q hk =>
    rw [clHashLoop, List.mem_map]
    · constructor
      · rintro ⟨a, ha, rfl⟩
        rw [mem_range'_1] at ha
        omega
      · intro h
        refine ⟨(q - i).toNat, ?_, by omega⟩
        rw [mem_range'_1]
        omega
    · exact hk

theorem mem_clHash {hsize : ℕ} : i ∈ clHash hsize ↔ InTable hsize i := by
  rw [clHash, mem_clHashLoop, sub_self, InTable]

theorem clear_of_inTable {hsize : ℕ} (hi : InTable hsize i) : clear htab (clHash hsize) i = -1 :=
  if_pos (mem_clHash.2 hi)

/-! ### Sizes -/

/-- The parameters for a file of this length, which is not known if it is the standard input. -/
structure Chosen (p : Params) (BITS : ℕ) (fsize : Option ℕ) : Prop where
  bits : BITS ≤ 16
  maxbits : INIT_BITS ≤ p.maxbits ∧ p.maxbits ≤ BITS
  hsize : p.hsize = hsizeFor BITS fsize

theorem prime_sizes : ∀ n ∈ [5003, 9001, 18013, 35023, 50021, 69001], Nat.Prime n := by
  intro n hn
  simp only [mem_cons, not_mem_nil, or_false] at hn
  obtain rfl | rfl | rfl | rfl | rfl | rfl := hn <;> norm_num

theorem mem_HSIZE (BITS : ℕ) : HSIZE BITS ∈ [5003, 9001, 18013, 35023, 50021, 69001] := by
  rw [HSIZE]
  split_ifs <;> decide

theorem mem_sizes (BITS : ℕ) (fsize : Option ℕ) :
    hsizeFor BITS fsize ∈ [5003, 9001, 18013, 35023, 50021, 69001] := by
  cases fsize with
  | none => exact mem_HSIZE BITS
  | some n =>
    have hmin : ∀ k ∈ [5003, 9001, 18013, 35023, 50021, 69001],
        min k (HSIZE BITS) ∈ [5003, 9001, 18013, 35023, 50021, 69001] := fun k hk => by
      rcases min_choice k (HSIZE BITS) with h | h <;> rw [h]
      · exact hk
      · exact mem_HSIZE BITS
    rw [hsizeFor]
    split_ifs
    all_goals first | exact mem_HSIZE BITS | exact hmin _ (by decide)

theorem Chosen.prime {BITS : ℕ} {fsize : Option ℕ} (h : Chosen p BITS fsize) : Nat.Prime p.hsize := by
  rw [h.hsize]
  exact prime_sizes _ (mem_sizes BITS fsize)

/-- The table is larger than the file, or there are not so many codes. -/
theorem Chosen.room {BITS : ℕ} {fsize : Option ℕ} (h : Chosen p BITS fsize) :
    (∃ n, fsize = some n ∧ n < p.hsize) ∨ p.maxmaxcode < p.hsize + 256 := by
  have hcodes : p.maxmaxcode < HSIZE BITS + 256 := by
    have hbits := h.bits
    have hle : p.maxmaxcode ≤ 2 ^ BITS := Nat.pow_le_pow_right two_pos h.maxbits.2
    refine hle.trans_lt ?_
    interval_cases BITS <;> decide
  rw [h.hsize]
  cases fsize with
  | none => exact .inr hcodes
  | some n =>
    by_cases hsml : n < hsizeFor BITS (some n)
    · exact .inl ⟨n, rfl, hsml⟩
    · refine .inr (hcodes.trans_le ?_)
      rw [hsizeFor] at hsml ⊢
      split_ifs at hsml ⊢ <;> omega

/-! ### Probes -/

theorem probe_mono {hsize disp : ℤ} {fuel fuel' : ℕ} {r : List ℤ × ℤ}
    (h : probe htab hsize disp fcode fuel i = some r) (hle : fuel ≤ fuel') :
    probe htab hsize disp fcode fuel' i = some r := by
  induction fuel generalizing i fuel' r with
  | zero => exact absurd h (by simp [probe])
  | succ fuel ih =>
    obtain ⟨fuel', rfl⟩ := exists_eq_add_one_of_ne_zero (by omega : fuel' ≠ 0)
    rw [probe] at h ⊢
    split_ifs at h ⊢
    · exact h
    · obtain ⟨r', hr', rfl⟩ := map_eq_some_iff.1 h
      rw [ih hr' (by omega), map_some]
    · exact h

theorem lookup_mono {hsize : ℤ} {fuel fuel' : ℕ} {r : List ℤ × ℤ}
    (h : lookup fuel htab hsize fcode i = some r) (hle : fuel ≤ fuel') :
    lookup fuel' htab hsize fcode i = some r := by
  rw [lookup] at h ⊢
  split_ifs at h ⊢
  · exact h
  · exact h
  · obtain ⟨r', hr', rfl⟩ := map_eq_some_iff.1 h
    rw [probe_mono hr' hle, map_some]

/-- The primary hash is looked at first. -/
theorem mem_lookup {hsize : ℤ} {fuel : ℕ} {r : List ℤ × ℤ}
    (h : lookup fuel htab hsize fcode i = some r) : i ∈ r.1 := by
  rw [lookup] at h
  split_ifs at h
  · cases h
    exact mem_singleton_self i
  · cases h
    exact mem_singleton_self i
  · obtain ⟨r', -, rfl⟩ := map_eq_some_iff.1 h
    exact mem_cons_self

/-- What a search leaves: it was in the table, and found the pair or a slot for it. -/
structure Found (hsize : ℕ) (htab : ℤ → ℤ) (fcode : ℤ) (r : List ℤ × ℤ) : Prop where
  inTable : ∀ j ∈ r.1, InTable hsize j
  mem : r.2 ∈ r.1
  slot : htab r.2 = fcode ∨ htab r.2 ≤ 0

theorem probe_ends {hsize : ℕ} (hi : InTable hsize i) (hd : 0 ≤ d) (hd' : d ≤ hsize) {k : ℕ}
    (hk : htab ((back hsize d)^[k + 1] i) ≤ 0) {fuel : ℕ} (hfuel : k < fuel) :
    ∃ r, probe htab hsize d fcode fuel i = some r ∧ Found hsize htab fcode r := by
  induction k generalizing i fuel with
  | zero =>
    obtain ⟨fuel, rfl⟩ := exists_eq_add_one_of_ne_zero hfuel.ne'
    have hback : InTable hsize (back hsize d i) := back_mem hi.1 hi.2 hd hd'
    have hone : ∀ j ∈ [back hsize d i], InTable hsize j := forall_mem_singleton.2 hback
    rw [zero_add, iterate_one] at hk
    rw [probe]
    split_ifs with heq hpos
    · exact ⟨_, rfl, hone, mem_singleton_self _, .inl heq⟩
    · exact absurd hpos (not_lt.2 hk)
    · exact ⟨_, rfl, hone, mem_singleton_self _, .inr hk⟩
  | succ k ih =>
    obtain ⟨fuel, rfl⟩ := exists_eq_add_one_of_ne_zero (by omega : fuel ≠ 0)
    have hback : InTable hsize (back hsize d i) := back_mem hi.1 hi.2 hd hd'
    have hone : ∀ j ∈ [back hsize d i], InTable hsize j := forall_mem_singleton.2 hback
    rw [iterate_succ_apply] at hk
    rw [probe]
    split_ifs with heq hpos
    · exact ⟨_, rfl, hone, mem_singleton_self _, .inl heq⟩
    · obtain ⟨r, hr, hfnd⟩ := ih hback hk (by omega : k < fuel)
      rw [hr, map_some]
      exact ⟨_, rfl, forall_mem_cons.2 ⟨hback, hfnd.inTable⟩, mem_cons_of_mem _ hfnd.mem, hfnd.slot⟩
    · exact ⟨_, rfl, hone, mem_singleton_self _, .inr (not_lt.1 hpos)⟩

theorem disp_spec {hsize : ℕ} (hi : InTable hsize i) (hprm : Nat.Prime hsize) :
    0 ≤ disp hsize i ∧ disp hsize i ≤ hsize ∧ IsCoprime (disp hsize i) (hsize : ℤ) := by
  have htwo := hprm.two_le
  obtain ⟨hnon, hlt⟩ := hi
  rw [disp]
  split_ifs with hzero
  · exact ⟨zero_le_one, by omega, isCoprime_one_left⟩
  · obtain ⟨k, hk⟩ : ∃ k : ℕ, hsize - i = k := Int.eq_ofNat_of_zero_le (by omega)
    rw [hk, isCoprime_iff_coprime]
    exact ⟨Int.natCast_nonneg k, by omega, (coprime_of_lt_prime (by omega) (by omega) hprm).symm⟩

/-- A search that starts in a table that is not full stays in it, and ends. -/
theorem lookup_ends {hsize : ℕ} (fcode : ℤ) (hprm : Nat.Prime hsize) (hi : InTable hsize i)
    (hemp : ∃ j, InTable hsize j ∧ htab j < 0) :
    ∃ r, Found hsize htab fcode r ∧
      ∃ least, ∀ fuel ≥ least, lookup fuel htab hsize fcode i = some r := by
  have hone : ∀ j ∈ [i], InTable hsize j := forall_mem_singleton.2 hi
  by_cases heq : htab i = fcode
  · exact ⟨([i], i), ⟨hone, mem_singleton_self i, .inl heq⟩, 0, fun fuel _ => by
      rw [lookup, if_pos heq]⟩
  by_cases hneg : htab i < 0
  · exact ⟨([i], i), ⟨hone, mem_singleton_self i, .inr hneg.le⟩, 0, fun fuel _ => by
      rw [lookup, if_neg heq, if_pos hneg]⟩
  obtain ⟨j, hj, hjneg⟩ := hemp
  obtain ⟨hd, hd', hcop⟩ := disp_spec hi hprm
  obtain ⟨k, hk⟩ := exists_back_eq hi.1 hi.2 hd hd' hcop hj.1 hj.2
  obtain - | k := k
  · exact absurd hjneg (hk ▸ hneg)
  · obtain ⟨r, hr, hfnd⟩ := @probe_ends htab fcode i _ hsize hi hd hd' k (by rw [hk]; exact hjneg.le) (k + 1)
      k.lt_succ_self
    refine ⟨(i :: r.1, r.2), ⟨forall_mem_cons.2 ⟨hi, hfnd.inTable⟩,
      mem_cons_of_mem _ hfnd.mem, hfnd.slot⟩, k + 1, fun fuel hfuel => ?_⟩
    rw [lookup, if_neg heq, if_neg hneg, probe_mono hr hfuel, map_some]

/-! ### The invariant -/

/-- The occupied slots have different codes, and `left` more characters do not fill the table. -/
structure Inv (p : Params) (s : State) (left : ℕ) : Prop where
  codes : ∀ i, InTable p.hsize i → 0 ≤ s.htab i → p.first ≤ s.codetab i ∧ s.codetab i < s.free_ent
  inj : ∀ i j, InTable p.hsize i → InTable p.hsize j → 0 ≤ s.htab i → 0 ≤ s.htab j →
    s.codetab i = s.codetab j → i = j
  first_le : p.first ≤ s.free_ent
  free_le : s.free_ent ≤ p.maxmaxcode
  room : s.free_ent + left < p.first + p.hsize ∨ p.maxmaxcode < p.hsize + 256

theorem le_first (p : Params) : 256 ≤ p.first := by
  rw [Params.first]
  split_ifs <;> decide

/-- There is an empty slot. -/
theorem Inv.exists_empty {left : ℕ} (h : Inv p s left) (hsize : 0 < p.hsize) :
    ∃ j, InTable p.hsize j ∧ s.htab j < 0 := by
  by_contra hfull
  have hocc : ∀ j, InTable p.hsize j → 0 ≤ s.htab j := fun j hj =>
    not_lt.1 fun hneg => hfull ⟨j, hj, hneg⟩
  have hcard := Finset.card_le_card_of_injOn (s := Finset.range p.hsize)
    (t := Finset.Ico p.first s.free_ent) (fun j : ℕ => s.codetab j) ?_ ?_
  · have hfree := h.free_le
    have hroom := h.room
    have hfst := le_first p
    rw [Finset.card_range, card_Ico] at hcard
    omega
  · intro j hj
    have hj' : InTable p.hsize j := ⟨Int.natCast_nonneg j, by simpa using hj⟩
    simpa using h.codes j hj' (hocc j hj')
  · intro j hj k hk heq
    have hj' : InTable p.hsize j := ⟨Int.natCast_nonneg j, by simpa using hj⟩
    have hk' : InTable p.hsize k := ⟨Int.natCast_nonneg k, by simpa using hk⟩
    exact_mod_cast h.inj j k hj' hk' (hocc j hj') (hocc k hk') heq

theorem Inv.fewer {left : ℕ} (h : Inv p s (left + 1)) : Inv p s left :=
  { h with room := h.room.imp_left (by omega) }

/-- A code of its own is stored in a slot. -/
theorem Inv.enter {left : ℕ} {s' : State} (h : Inv p s (left + 1))
    (hhtab : s'.htab = update s.htab i fcode) (hcod : s'.codetab = update s.codetab i s.free_ent)
    (hfree : s'.free_ent = s.free_ent + 1) (hlt : s.free_ent < p.maxmaxcode) : Inv p s' left where
  codes j hj hnon := by
    have hfst := h.first_le
    rw [hhtab] at hnon
    rw [hcod, hfree]
    rcases eq_or_ne j i with rfl | hne
    · rw [update_self]
      omega
    · rw [update_of_ne hne] at hnon ⊢
      have hcode := h.codes j hj hnon
      omega
  inj j k hj hk hj' hk' heq := by
    rw [hhtab] at hj' hk'
    rw [hcod] at heq
    rcases eq_or_ne j i with rfl | hji <;> rcases eq_or_ne k j with rfl | hkj
    · rfl
    · rw [update_self, update_of_ne hkj] at heq
      rw [update_of_ne hkj] at hk'
      exact absurd heq (h.codes k hk hk').2.ne'
    · rfl
    · rw [update_of_ne hji] at hj' heq
      rcases eq_or_ne k i with rfl | hki
      · rw [update_self] at heq
        exact absurd heq (h.codes j hj hj').2.ne
      · rw [update_of_ne hki] at hk' heq
        exact h.inj j k hj hk hj' hk' heq
  first_le := by
    rw [hfree]
    exact le_succ_of_le h.first_le
  free_le := by
    rw [hfree]
    exact hlt
  room := h.room.imp_left fun hroom => by omega

/-- The table is empty. -/
theorem Inv.of_clear {left : ℕ} (hclr : s.htab = clear htab (clHash p.hsize))
    (hfree : s.free_ent = p.first) (hle : p.first ≤ p.maxmaxcode)
    (hroom : left < p.hsize ∨ p.maxmaxcode < p.hsize + 256) : Inv p s left where
  codes j hj hnon := by
    rw [hclr, clear_of_inTable hj] at hnon
    exact absurd hnon (by decide)
  inj j k hj hk hnon := by
    rw [hclr, clear_of_inTable hj] at hnon
    exact absurd hnon (by decide)
  first_le := hfree.ge
  free_le := hfree.trans_le hle
  room := hroom.imp_left fun hlt => by rw [hfree]; exact Nat.add_lt_add_left hlt _

end Uwisc.Compress
