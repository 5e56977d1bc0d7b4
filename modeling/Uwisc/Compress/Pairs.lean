import Uwisc.Compress.Table

/-!
# The steps of compress

A character whose primary hash is in the table keeps the invariant, and its search ends
(`Inv.of_step`, `Inv.step_ends`). The indexes of a file are in the table if and only if its primary
hashes are (`Inv.run_inside_iff`). A table of full size is never left (`fits_of_HSIZE`).
-/

namespace Uwisc.Compress

open Function Lib List Option

variable {p : Params} {s : State} {fcode i : ℤ} {c fuel fuel' left : ℕ} {cs : List UInt8}

/-- Whether the primary hash is in the table, for all characters that come. -/
def State.Fits (p : Params) : State → List UInt8 → Prop
  | _, [] => True
  | s, c :: cs =>
    p.hash c.toNat s.ent < p.hsize ∧ ∀ fuel r, s.step p fuel c.toNat = some r → Fits p r.1 cs

/-- Whether the primary hash is in the table all along a file. -/
def Fits (p : Params) (mem : Mem) : List UInt8 → Prop
  | [] => True
  | c :: cs => (start p mem c.toNat).Fits p cs

/-! ### One character -/

/-- `cl_block` leaves the table as it is, or clears it. -/
theorem clBlock_cases (p : Params) (s : State) :
    ((s.clBlock p).1.htab = s.htab ∧ (s.clBlock p).1.codetab = s.codetab ∧
      (s.clBlock p).1.free_ent = s.free_ent ∧ (s.clBlock p).2 = []) ∨
    ((s.clBlock p).1.htab = clear s.htab (clHash p.hsize) ∧ (s.clBlock p).1.free_ent = FIRST ∧
      (s.clBlock p).2 = clHash p.hsize) := by
  rw [State.clBlock]
  split_ifs
  · exact .inl ⟨rfl, rfl, rfl, rfl⟩
  · exact .inr ⟨rfl, rfl, rfl⟩

theorem first_le_maxmaxcode (hbits : INIT_BITS ≤ p.maxbits) : p.first ≤ p.maxmaxcode := by
  have hpow : 2 ^ INIT_BITS ≤ p.maxmaxcode := Nat.pow_le_pow_right two_pos hbits
  refine le_trans ?_ hpow
  rw [Params.first]
  split_ifs <;> decide

/-- The invariant reads the table and how many codes there are. -/
theorem Inv.congr {s' : State} (h : Inv p s left) (hhtab : s'.htab = s.htab)
    (hcod : s'.codetab = s.codetab) (hfree : s'.free_ent = s.free_ent) : Inv p s' left := by
  obtain ⟨hcodes, hinj, hfst, hle, hroom⟩ := h
  constructor
  · rwa [hhtab, hcod, hfree]
  · rwa [hhtab, hcod]
  · rwa [hfree]
  · rwa [hfree]
  · rwa [hfree]

theorem Inv.clBlock (h : Inv p s left) (hbits : INIT_BITS ≤ p.maxbits) (hblk : p.block_compress) :
    Inv p (s.clBlock p).1 left ∧ ∀ j ∈ (s.clBlock p).2, InTable p.hsize j := by
  obtain ⟨hhtab, hcod, hfree, his⟩ | ⟨hhtab, hfree, his⟩ := clBlock_cases p s
  · exact ⟨h.congr hhtab hcod hfree, by rw [his]; exact forall_mem_nil _⟩
  · have hfst : p.first = FIRST := if_pos hblk
    have hle := h.first_le
    exact ⟨.of_clear hhtab (hfree.trans hfst.symm) (first_le_maxmaxcode hbits)
      (h.room.imp_left fun hroom => by omega), by rw [his]; exact fun j => mem_clHash.1⟩

/-- Nothing that comes after `nomatch` fills the table. -/
theorem Inv.noMatch (h : Inv p s (left + 1)) (c : ℕ) (fcode i : ℤ) (hbits : INIT_BITS ≤ p.maxbits) :
    Inv p (s.noMatch p c fcode i).1 left ∧ ∀ j ∈ (s.noMatch p c fcode i).2, InTable p.hsize j := by
  have hout : Inv p { s with out := s.out.output p s.free_ent, ent := c } left :=
    h.fewer.congr rfl rfl rfl
  rw [State.noMatch]
  split_ifs with hlt hblk
  · exact ⟨h.enter rfl rfl rfl hlt, forall_mem_nil _⟩
  · exact hout.clBlock hbits hblk.2
  · exact ⟨hout, forall_mem_nil _⟩

variable {fsize : Option ℕ} {r : State × List ℤ} {BITS : ℕ}

theorem step_mono (h : s.step p fuel c = some r) (hle : fuel ≤ fuel') :
    s.step p fuel' c = some r := by
  rw [State.step, map_eq_some_iff] at h ⊢
  obtain ⟨found, hfnd, heq⟩ := h
  exact ⟨found, lookup_mono hfnd hle, heq⟩

/-- The primary hash is one of the indexes. -/
theorem mem_step (h : s.step p fuel c = some r) : (p.hash c s.ent : ℤ) ∈ r.2 := by
  rw [State.step, map_eq_some_iff] at h
  obtain ⟨found, hfnd, heq⟩ := h
  have hmem := mem_lookup hfnd
  split_ifs at heq
  · rw [← heq]
    exact hmem
  · rw [← heq]
    exact mem_append_left _ hmem

/-- From a hash in the table, the search for a character ends. -/
theorem Inv.step_ends (h : Inv p s left) (hprm : Nat.Prime p.hsize)
    (hhash : p.hash c s.ent < p.hsize) : ∃ r least, ∀ fuel ≥ least, s.step p fuel c = some r := by
  have hin : InTable p.hsize (p.hash c s.ent) := ⟨Int.natCast_nonneg _, Int.ofNat_lt.2 hhash⟩
  obtain ⟨found, -, least, hlst⟩ := lookup_ends (p.fcode c s.ent) hprm hin
    (h.exists_empty hprm.pos)
  obtain ⟨r, hr⟩ : ∃ r, s.step p least c = some r := by
    rw [State.step, hlst least le_rfl, map_some]
    exact ⟨_, rfl⟩
  exact ⟨r, least, fun fuel hfuel => step_mono hr hfuel⟩

/-- It has stayed in the table. -/
theorem Inv.found (h : Inv p s left) (hprm : Nat.Prime p.hsize) (hhash : p.hash c s.ent < p.hsize)
    {found : List ℤ × ℤ}
    (hloo : lookup fuel s.htab p.hsize (p.fcode c s.ent) (p.hash c s.ent) = some found) :
    Found p.hsize s.htab (p.fcode c s.ent) found := by
  have hin : InTable p.hsize (p.hash c s.ent) := ⟨Int.natCast_nonneg _, Int.ofNat_lt.2 hhash⟩
  obtain ⟨found', hfnd, least, hlst⟩ := lookup_ends (p.fcode c s.ent) hprm hin
    (h.exists_empty hprm.pos)
  -- What is found does not depend on the fuel.
  obtain rfl : found' = found := some.inj <|
    (hlst _ (le_max_right fuel least)).symm.trans (lookup_mono hloo (le_max_left fuel least))
  exact hfnd

/-- A character whose hash is in the table keeps the invariant. -/
theorem Inv.of_step (h : Inv p s (left + 1)) (hprm : Nat.Prime p.hsize)
    (hbits : INIT_BITS ≤ p.maxbits) (hhash : p.hash c s.ent < p.hsize)
    (hr : s.step p fuel c = some r) : Inv p r.1 left ∧ ∀ i ∈ r.2, InTable p.hsize i := by
  obtain ⟨found, hloo, rfl⟩ := map_eq_some_iff.1 hr
  have hfnd := h.found hprm hhash hloo
  have hcnt : Inv p { s with in_count := s.in_count + 1 } (left + 1) := h.congr rfl rfl rfl
  split_ifs
  · exact ⟨hcnt.fewer.congr rfl rfl rfl, hfnd.inTable⟩
  · obtain ⟨hinv, hclr⟩ := hcnt.noMatch c (p.fcode c s.ent) found.2 hbits
    exact ⟨hinv, forall_mem_append.2 ⟨hfnd.inTable, hclr⟩⟩

/-! ### The whole file -/

/-- The rest of a file stays in the table if and only if the hashes do. -/
theorem Inv.run_inside_iff (h : Inv p s cs.length) (hprm : Nat.Prime p.hsize)
    (hbits : INIT_BITS ≤ p.maxbits) :
    (∃ least, ∀ fuel ≥ least, ∃ r, s.run p fuel cs = some r ∧ ∀ i ∈ r.2, InTable p.hsize i) ↔
      s.Fits p cs := by
  induction cs generalizing s with
  | nil => exact ⟨fun _ => trivial, fun _ => ⟨0, fun fuel _ => ⟨_, rfl, forall_mem_nil _⟩⟩⟩
  | cons c cs ih =>
    constructor
    · rintro ⟨least, hlst⟩
      have hhash : p.hash c.toNat s.ent < p.hsize := by
        obtain ⟨r, hr, hin⟩ := hlst least le_rfl
        obtain ⟨first, hfst, hrs⟩ := bind_eq_some_iff.1 hr
        obtain ⟨rest, -, rfl⟩ := map_eq_some_iff.1 hrs
        exact Int.ofNat_lt.1 (hin _ (mem_append_left _ (mem_step hfst))).2
      refine ⟨hhash, fun fuel first hfst => ?_⟩
      obtain ⟨hinv, -⟩ := h.of_step hprm hbits hhash hfst
      refine (ih hinv).1 ⟨max least fuel, fun fuel' hfuel' => ?_⟩
      obtain ⟨r, hr, hin⟩ := hlst fuel' (le_of_max_le_left hfuel')
      rw [State.run, step_mono hfst (le_of_max_le_right hfuel'), bind_some] at hr
      obtain ⟨rest, hrs, rfl⟩ := map_eq_some_iff.1 hr
      exact ⟨rest, hrs, fun i hi => hin i (mem_append_right _ hi)⟩
    · rintro ⟨hhash, hfits⟩
      obtain ⟨first, least, hlst⟩ := h.step_ends hprm hhash
      obtain ⟨hinv, hin⟩ := h.of_step hprm hbits hhash (hlst least le_rfl)
      obtain ⟨least', hlst'⟩ := (ih hinv).2 (hfits least first (hlst least le_rfl))
      refine ⟨max least least', fun fuel hfuel => ?_⟩
      obtain ⟨rest, hrs, hin'⟩ := hlst' fuel (le_of_max_le_right hfuel)
      refine ⟨(rest.1, first.2 ++ rest.2), ?_, forall_mem_append.2 ⟨hin, hin'⟩⟩
      rw [State.run, hlst fuel (le_of_max_le_left hfuel), bind_some, hrs, map_some]

/-- The table is empty, and large enough. -/
theorem Chosen.start (h : Chosen p BITS fsize) (mem : Mem) {c : UInt8}
    (hsize : ∀ n, fsize = some n → n = (c :: cs).length) : Inv p (start p mem c.toNat) cs.length := by
  refine .of_clear rfl rfl (first_le_maxmaxcode h.maxbits.1) (h.room.imp_left ?_)
  rintro ⟨n, hn, hlt⟩
  rw [hsize n hn, length_cons] at hlt
  omega

/-! ### Tables of full size -/

theorem pow_hshift_le : ∀ n ∈ [5003, 9001, 18013, 35023, 50021, 69001], 2 ^ (8 + hshift n) ≤ n := by
  decide

/-- Where the table has room for all hashes, codes below `maxmaxcode` are hashed into it. -/
theorem Chosen.hash_lt {ent : ℕ} (h : Chosen p BITS fsize)
    (hle : p.maxbits ≤ 8 + hshift p.hsize) (hc : c < 256) (hent : ent < p.maxmaxcode) :
    p.hash c ent < p.hsize := by
  have hsizes := pow_hshift_le p.hsize (by rw [h.hsize]; exact mem_sizes BITS fsize)
  refine lt_of_lt_of_le (Nat.xor_lt_two_pow ?_ ?_) hsizes
  · rw [Nat.shiftLeft_eq, pow_add]
    exact Nat.mul_lt_mul_of_pos_right hc (by positivity)
  · exact hent.trans_le (Nat.pow_le_pow_right two_pos hle)

theorem noMatch_ent : (s.noMatch p c fcode i).1.ent = c := by
  rw [State.noMatch, State.clBlock]
  split_ifs <;> rfl

/-- The prefix is a character or one of the codes. -/
theorem Inv.ent_lt (h : Inv p s left) (hprm : Nat.Prime p.hsize)
    (hhash : p.hash c s.ent < p.hsize) (hc : c < 256)
    (hr : s.step p fuel c = some r) : r.1.ent < p.maxmaxcode := by
  obtain ⟨found, hloo, rfl⟩ := map_eq_some_iff.1 hr
  have hfnd := h.found hprm hhash hloo
  have hfree := h.free_le
  have hfst := h.first_le
  have hchars := le_first p
  split_ifs with heq
  · have hcode := h.codes _ (hfnd.inTable _ hfnd.mem) (heq ▸ Int.natCast_nonneg _)
    exact hcode.2.trans_le hfree
  · rw [noMatch_ent]
    omega

theorem Inv.fits (h : Inv p s cs.length) (hprm : Nat.Prime p.hsize) (hbits : INIT_BITS ≤ p.maxbits)
    (hhash : ∀ c < 256, ∀ ent < p.maxmaxcode, p.hash c ent < p.hsize)
    (hent : s.ent < p.maxmaxcode) : s.Fits p cs := by
  induction cs generalizing s with
  | nil => trivial
  | cons c cs ih =>
    have hc := hhash c.toNat c.toNat_lt s.ent hent
    refine ⟨hc, fun fuel r hr => ?_⟩
    exact ih (h.of_step hprm hbits hc hr).1 (h.ent_lt hprm hc c.toNat_lt hr)

/-- The size of the tables is enough for all codes that there are memory for. -/
theorem le_hshift_HSIZE : ∀ BITS ≤ 16, BITS ≤ 8 + hshift (HSIZE BITS) := by
  decide

/-- A table of full size is never left. -/
theorem fits_of_HSIZE (h : Chosen p BITS fsize)
    (hfull : p.hsize = HSIZE BITS) (mem : Mem) (file : List UInt8)
    (hsize : ∀ n, fsize = some n → n = file.length) : Fits p mem file := by
  cases file with
  | nil => trivial
  | cons c cs =>
    have hle : p.maxbits ≤ 8 + hshift p.hsize := by
      rw [hfull]
      exact h.maxbits.2.trans (le_hshift_HSIZE BITS h.bits)
    have hfst := first_le_maxmaxcode h.maxbits.1
    have hchars := le_first p
    have hc : c.toNat < p.maxmaxcode := by
      have hlt := c.toNat_lt
      omega
    exact (h.start mem hsize).fits h.prime h.maxbits.1 (fun c hc ent hent => h.hash_lt hle hc hent) hc

/-!
### Pairs that are new

While no pair of a prefix and a character comes twice, every character enters a pair, and the table
has all the pairs that came before (`After`). A pair is found in the slot where it was stored
(`lookup_update`).
-/

variable {p : Params} {s : State} {htab : ℤ → ℤ} {fcode i d hsize : ℤ} {fuel k left : ℕ}
  {f : ℕ → UInt8}

theorem probe_update {found : List ℤ × ℤ} (h : probe htab hsize d fcode fuel i = some found)
    (hemp : htab found.2 < 0) :
    probe (update htab found.2 fcode) hsize d fcode fuel i = some found := by
  induction fuel generalizing i found with
  | zero => exact absurd h (by simp [probe])
  | succ fuel ih =>
    rw [probe] at h ⊢
    split_ifs at h with heq hpos
    · cases h
      rw [if_pos (update_self ..)]
    · obtain ⟨rest, hrs, rfl⟩ := map_eq_some_iff.1 h
      have hne : back hsize d i ≠ rest.2 := fun hsame => (hsame ▸ hpos).not_gt hemp
      rw [update_of_ne hne, if_neg heq, if_pos hpos, ih hrs hemp, map_some]
    · cases h
      rw [if_pos (update_self ..)]

/-- A pair that was stored is found by the same search. -/
theorem lookup_update {found : List ℤ × ℤ} (h : lookup fuel htab hsize fcode i = some found)
    (hemp : htab found.2 < 0) : lookup fuel (update htab found.2 fcode) hsize fcode i = some found := by
  rw [lookup] at h ⊢
  split_ifs at h with heq hneg
  · cases h
    rw [if_pos (update_self ..)]
  · cases h
    rw [if_pos (update_self ..)]
  · obtain ⟨rest, hrs, rfl⟩ := map_eq_some_iff.1 h
    have hne : i ≠ rest.2 := fun hsame => hneg (hsame ▸ hemp)
    rw [update_of_ne hne, if_neg heq, if_neg hneg, probe_update hrs hemp, map_some]

/-- The pair of the characters `k` and `k + 1`. -/
def pair (p : Params) (f : ℕ → UInt8) (k : ℕ) : ℤ := p.fcode (f (k + 1)).toNat (f k).toNat

/-- What there is after the character `k`, if all pairs were new. -/
structure After (p : Params) (f : ℕ → UInt8) (k left : ℕ) (s : State) : Prop where
  inv : Inv p s left
  ent : s.ent = (f k).toNat
  free_ent : s.free_ent = p.first + k
  slots : ∀ i, InTable p.hsize i → s.htab i < 0 ∨ ∃ m < k, s.htab i = pair p f m

theorem After.start {mem : Mem} (h : Inv p (start p mem (f 0).toNat) left) :
    After p f 0 left (start p mem (f 0).toNat) where
  inv := h
  ent := rfl
  free_ent := rfl
  slots i hi := .inl ((clear_of_inTable hi).trans_lt (by decide))

/-- The pair is stored with a new code, where it will be found. -/
structure Stored (p : Params) (fcode : ℤ) (hash code : ℕ) (s : State) (i : ℤ) : Prop where
  codetab : s.codetab i = code
  htab : s.htab i = fcode
  lookup : ∃ fuel is, lookup fuel s.htab p.hsize fcode hash = some (is, i)

/-- A pair that is new is stored. -/
theorem After.step (h : After p f k (left + 1) s) (hprm : Nat.Prime p.hsize)
    (hbits : INIT_BITS ≤ p.maxbits) (hhash : p.hash (f (k + 1)).toNat s.ent < p.hsize)
    (hlt : p.first + k < p.maxmaxcode) (hnew : ∀ m < k, pair p f m ≠ pair p f k)
    (hpos : ∀ m < k, 0 < pair p f m) {r : State × List ℤ}
    (hr : s.step p fuel (f (k + 1)).toNat = some r) :
    After p f (k + 1) left r.1 ∧
      ∃ i, Stored p (pair p f k) (p.hash (f (k + 1)).toNat (f k).toNat) (p.first + k) r.1 i := by
  have hinv := (h.inv.of_step hprm hbits hhash hr).1
  obtain ⟨found, hloo, rfl⟩ := map_eq_some_iff.1 hr
  have hfnd := h.inv.found hprm hhash hloo
  rw [h.ent] at hloo hfnd
  -- The slot has none of the pairs before, so it is empty.
  have hemp : s.htab found.2 < 0 := by
    obtain hneg | ⟨m, hm, heq⟩ := h.slots _ (hfnd.inTable _ hfnd.mem)
    · exact hneg
    · obtain hsame | hle := hfnd.slot
      · exact absurd (heq.symm.trans hsame) (hnew m hm)
      · exact absurd (hpos m hm) (by rw [← heq]; exact hle.not_gt)
  have hne : ¬s.htab found.2 = p.fcode (f (k + 1)).toNat s.ent := fun heq =>
    (heq ▸ hemp).not_ge (Int.natCast_nonneg _)
  have hfree : s.free_ent < p.maxmaxcode := h.free_ent ▸ hlt
  rw [if_neg hne] at hinv ⊢
  rw [State.noMatch, if_pos hfree] at hinv ⊢
  refine ⟨⟨hinv, rfl, ?_, fun j hj => ?_⟩, found.2, ?_, ?_, fuel, found.1, ?_⟩
  · exact (congrArg (· + 1) h.free_ent).trans (add_assoc ..)
  · rcases eq_or_ne j found.2 with rfl | hoth
    · refine .inr ⟨k, k.lt_succ_self, ?_⟩
      dsimp only
      rw [update_self, h.ent, pair]
    · dsimp only
      rw [update_of_ne hoth]
      obtain hneg | ⟨m, hm, heq⟩ := h.slots j hj
      · exact .inl hneg
      · exact .inr ⟨m, hm.trans k.lt_succ_self, heq⟩
  · exact (update_self ..).trans h.free_ent
  · exact (update_self ..).trans (by rw [h.ent, pair])
  · rw [h.ent]
    exact lookup_update hloo hemp

/-- All characters up to `k + n` enter a pair. -/
theorem After.run {n : ℕ} {cs : List UInt8} (h : After p f k (n + left) s)
    (hprm : Nat.Prime p.hsize) (hbits : INIT_BITS ≤ p.maxbits)
    (hlt : p.first + k + n ≤ p.maxmaxcode)
    (hnew : ∀ m' < k + n, ∀ m < m', pair p f m ≠ pair p f m') (hpos : ∀ m < k + n, 0 < pair p f m)
    (hfits : s.Fits p ((range' (k + 1) n).map f ++ cs)) :
    ∃ s', After p f (k + n) left s' ∧ s'.Fits p cs := by
  induction n generalizing k s with
  | zero => exact ⟨s, by rwa [zero_add] at h, hfits⟩
  | succ n ih =>
    rw [range'_succ, map_cons, cons_append] at hfits
    obtain ⟨hhash, hrs⟩ := hfits
    rw [add_right_comm] at h
    obtain ⟨r, fuel, hr⟩ := h.inv.step_ends hprm hhash
    obtain ⟨haft, -⟩ := h.step hprm hbits hhash (by omega) (hnew k (by omega))
      (fun m hm => hpos m (by omega)) (hr fuel le_rfl)
    obtain ⟨s', hs', hfits'⟩ := ih haft (by omega) (fun m' hm' => hnew m' (by omega))
      (fun m hm => hpos m (by omega)) (hrs fuel r (hr fuel le_rfl))
    exact ⟨s', by rwa [add_right_comm k 1 n] at hs', hfits'⟩

/-- A pair that was stored is matched when it comes again. -/
theorem Stored.step {c code : ℕ} (h : Stored p (p.fcode c s.ent) (p.hash c s.ent) code s i) :
    ∃ fuel r, s.step p fuel c = some r ∧ r.1.ent = code := by
  obtain ⟨hcod, hhtab, fuel, is, hloo⟩ := h
  refine ⟨fuel, ({ s with in_count := s.in_count + 1, ent := s.codetab i }, is), ?_, hcod⟩
  rw [State.step, hloo, map_some, if_pos hhtab]

/-!
### The indexes of compress

The exclusive-or of the primary hash may be beyond a table that is smaller than the codes get. Where
it never is (`Fits`), all indexes are in the table and every search ends, for every file
(`compress_inside_iff`).
-/

variable {cs : List UInt8}

/-- All indexes are in the table, and there is an end. -/
def Inside (p : Params) (mem : Mem) (file : List UInt8) : Prop :=
  ∃ least, ∀ fuel ≥ least, ∃ is, compress p fuel mem file = some is ∧ ∀ i ∈ is, InTable p.hsize i

/-- The core of `compress_inside_iff`. -/
theorem inside_cons_iff {BITS : ℕ} {fsize : Option ℕ} (h : Chosen p BITS fsize) (mem : Mem) {c : UInt8}
    (hsize : ∀ n, fsize = some n → n = (c :: cs).length) :
    Inside p mem (c :: cs) ↔ (start p mem c.toNat).Fits p cs := by
  rw [← (h.start mem hsize).run_inside_iff h.prime h.maxbits.1]
  constructor
  · rintro ⟨least, hlst⟩
    refine ⟨least, fun fuel hfuel => ?_⟩
    obtain ⟨is, his, hin⟩ := hlst fuel hfuel
    obtain ⟨r, hr, rfl⟩ := map_eq_some_iff.1 his
    exact ⟨r, hr, fun i hi => hin i (mem_append_right _ hi)⟩
  · rintro ⟨least, hlst⟩
    refine ⟨least, fun fuel hfuel => ?_⟩
    obtain ⟨r, hr, hin⟩ := hlst fuel hfuel
    refine ⟨clHash p.hsize ++ r.2, ?_, forall_mem_append.2 ⟨fun i => mem_clHash.1, hin⟩⟩
    rw [compress, hr, map_some]

/-- Of every file, all indexes are in the table and every search ends if and only if the primary
    hash is in the table all along. -/
theorem compress_inside_iff {BITS : ℕ} {fsize : Option ℕ} (h : Chosen p BITS fsize) (mem : Mem)
    (file : List UInt8) (hsize : ∀ n, fsize = some n → n = file.length) :
    Inside p mem file ↔ Fits p mem file := by
  cases file with
  | nil => exact ⟨fun _ => trivial, fun _ => ⟨0, fun fuel _ => ⟨_, rfl, fun i => mem_clHash.1⟩⟩⟩
  | cons c cs => exact inside_cons_iff h mem hsize

theorem compress_inside_iff_stdin : Inside ⟨16, 69001, true⟩ ⟨fun _ => 0, fun _ => 0⟩ [72, 105, 10] :=
  have h : Chosen ⟨16, 69001, true⟩ 16 none := ⟨le_rfl, by decide, rfl⟩
  have hsize : ∀ n, (none : Option ℕ) = some n → n = [(72 : UInt8), 105, 10].length := by simp
  (compress_inside_iff h _ _ hsize).2 (fits_of_HSIZE h rfl _ _ hsize)

/-! ### Code 4096 -/

/-- Characters that come in new pairs, up to two that are the same. -/
def char (k : ℕ) : ℕ :=
  let j := min k 3839
  if j % 2 = 0 then j / 128 + 1 else 64 + j / 2 % 64

theorem char_pos_and_lt (k : ℕ) : 0 < char k ∧ char k < 256 := by
  rw [char]
  split_ifs <;> omega

theorem char_toNat (k : ℕ) : (UInt8.ofNat (char k)).toNat = char k := by
  rw [UInt8.toNat_ofNat']
  exact Nat.mod_eq_of_lt (char_pos_and_lt k).2

theorem char_pair_ne {k m : ℕ} (hlt : m < k) (hk : k ≤ 3839) :
    char m ≠ char k ∨ char (m + 1) ≠ char (k + 1) := by
  simp only [char]
  split_ifs <;> omega

/-- The parameters for a file of less than `1 << 12` bytes. -/
def small : Params := ⟨16, 5003, true⟩

theorem pair_ne {k m : ℕ} (hlt : m < k) (hk : k ≤ 3839) :
    pair small (fun j => .ofNat (char j)) m ≠ pair small (fun j => .ofNat (char j)) k := by
  rw [pair, pair, Params.fcode, Params.fcode, char_toNat, char_toNat, char_toNat, char_toNat,
    Nat.shiftLeft_eq, Nat.shiftLeft_eq, Ne, Nat.cast_inj]
  have hne := char_pair_ne hlt hk
  have hm := char_pos_and_lt m
  have hk := char_pos_and_lt k
  dsimp only [small]
  omega

theorem pair_pos (k : ℕ) : 0 < pair small (fun j => .ofNat (char j)) k := by
  rw [pair, Params.fcode, char_toNat, char_toNat, Nat.cast_pos]
  exact Nat.add_pos_right _ (char_pos_and_lt k).1

/-- In a file of 3843 characters, the last is hashed with the code 4096. -/
theorem not_inside_of_every_file : ¬∀ (p : Params) (BITS : ℕ) (fsize : Option ℕ) (mem : Mem)
    (file : List UInt8), Chosen p BITS fsize → (∀ n, fsize = some n → n = file.length) →
      Inside p mem file := by
  intro h
  let f : ℕ → UInt8 := fun k => .ofNat (char k)
  have hcho : Chosen small 16 (some 3843) := ⟨le_rfl, by decide, by decide⟩
  have hsize : ∀ n, some 3843 = some n →
      n = (f 0 :: ((range' (0 + 1) 3839).map f ++ [127, 127, 255])).length := fun n hn => by
    rw [length_cons, length_append, length_map, length_range', ← some.inj hn]
    rfl
  have hfits := (inside_cons_iff hcho ⟨fun _ => 0, fun _ => 0⟩ hsize).1 (h _ _ _ _ _ hcho hsize)
  have hst : After small f 0 (3839 + 3) (start small ⟨fun _ => 0, fun _ => 0⟩ (f 0).toNat) :=
    .start (by simpa using hcho.start ⟨fun _ => 0, fun _ => 0⟩ hsize)
  obtain ⟨s, haft, hhash, hrs⟩ := hst.run hcho.prime hcho.maxbits.1 (by decide)
    (fun k hk m hm => pair_ne hm (by omega)) (fun m _ => pair_pos m) hfits
  -- The pair of 127 and 127 gets the code 4096, and is matched at once.
  obtain ⟨r, fuel, hr⟩ := haft.inv.step_ends hcho.prime hhash
  obtain ⟨haft', i, hsto⟩ := haft.step hcho.prime hcho.maxbits.1 hhash (by decide)
    (fun m hm => pair_ne hm (by omega)) (fun m _ => pair_pos m) (hr fuel le_rfl)
  obtain ⟨-, hrs'⟩ := hrs fuel r (hr fuel le_rfl)
  obtain ⟨fuel', r', hr', hent⟩ := Stored.step (c := 127) (by rw [haft'.ent]; exact hsto)
  obtain ⟨hlast, -⟩ := hrs' fuel' r' hr'
  rw [hent] at hlast
  exact absurd hlast (by decide)

end Uwisc.Compress
