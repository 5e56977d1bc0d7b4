import Mathlib.Data.List.GetD
import Uwisc.Bin.Diff

/-!
# The match vector

Whatever the hashes are, the match vector increases where it is not 0 (`matchVector_spec`).

* `equiv_members`: `member` has the serial numbers of each class in ascending order;
* `Chains`: the candidates of `stone` are chained to ones that are smaller in both files, and those in
  `klist` increase;
* `Increasing`: what the match vector is from `unravel` on.
-/

namespace Uwisc.Diff

open Function Lib List Nat

/-! ### Classes -/

/-- Lines are in the order of their values, and of their serial numbers where these are equal. -/
def Le (x y : Line) : Prop := x.value < y.value ∨ y.value = x.value ∧ x.serial ≤ y.serial

theorem Le.trans {x y z : Line} (h : Le x y) (h' : Le y z) : Le x z := by
  rw [Le] at *
  omega

/-- The lines from 1 to `m`, sorted. -/
structure Sorted (b : ℕ → Line) (m : ℕ) : Prop where
  serial : ∀ i, 0 < i → i ≤ m → 0 < (b i).serial ∧ (b i).serial ≤ m
  lt : ∀ i, 0 < i → i < m → (b (i + 1)).value = (b i).value → (b i).serial < (b (i + 1)).serial
  value : ∀ i, 0 < i → i ≤ m → (b i).value ≠ 0

theorem sort_sorted {file : ℕ → Line} {pref slen : ℕ}
    (hval : ∀ i, pref < i → i ≤ pref + slen → (file i).value ≠ 0) :
    Sorted (sort (sfile file pref slen) slen) slen := by
  obtain ⟨σ, hσ, heq⟩ := @shellSort_perm _ inOrder slen (sfile file pref slen)
  have hin : ∀ i, 0 < i → i ≤ slen → 0 < σ i ∧ σ i ≤ slen := by
    intro i hi hi'
    by_contra hout
    have hfix : σ (σ i) = σ i := hσ (σ i) (by omega)
    have := σ.injective hfix
    omega
  have hline : ∀ i, 0 < i → i ≤ slen →
      sort (sfile file pref slen) slen i = ⟨σ i, (file (pref + σ i)).value⟩ := by
    intro i hi hi'
    rw [sort, heq, comp_apply, sfile, if_pos (hin i hi hi').2]
  have hsor : SortedTo Le slen (sort (sfile file pref slen) slen) := by
    refine @shellSort_sorted _ inOrder slen Le (fun _ _ _ => Le.trans) (fun x y h => ?_) (fun x y h => ?_) _
    · have := of_decide_eq_true h
      rw [Le]
      omega
    · have := of_decide_eq_false h
      rw [Le]
      omega
  refine ⟨fun i hi hi' => ?_, fun i hi hi' hval => ?_, fun i hi hi' => ?_⟩
  · rw [hline i hi hi']
    exact hin i hi hi'
  · have hle := hsor i (i + 1) hi i.lt_succ_self hi'
    have hne : (sort (sfile file pref slen) slen i).serial ≠
        (sort (sfile file pref slen) slen (i + 1)).serial := by
      rw [hline i hi hi'.le, hline (i + 1) i.succ_pos hi']
      exact fun h => absurd (σ.injective h) (Nat.ne_of_lt i.lt_succ_self)
    rw [Le] at hle
    omega
  · rw [hline i hi hi']
    have := hin i hi hi'
    exact hval _ (by omega) (by omega)

/-- The serial numbers of the classes one after the other, the first of each with a negative sign. -/
structure Members (c : ℕ → ℤ) (m : ℕ) : Prop where
  bound : ∀ j, 0 < j → j ≤ m → (c j).natAbs ≤ m ∧ c j ≠ 0
  lt : ∀ j, 0 < j → j < m → 0 < c (j + 1) → (c j).natAbs < (c (j + 1)).natAbs
  last : c (m + 1) ≤ 0

section Members

variable {b : ℕ → Line} {m : ℕ}

/-- The members up to `j`. -/
def Upto (b : ℕ → Line) (c : ℕ → ℤ) (j : ℕ) : Prop :=
  ∀ i, 0 < i → i ≤ j → c i = -(b i).serial ∨ c i = (b i).serial ∧ 1 < i ∧ (b i).value = (b (i - 1)).value

variable {j n : ℕ} {c : ℕ → ℤ} {x : ℤ} {a : ℕ → Line}

theorem Upto.next (h : Upto b c j)
    (hx : x = -(b (j + 1)).serial ∨ x = (b (j + 1)).serial ∧ 1 < j + 1 ∧ (b (j + 1)).value = (b j).value) :
    Upto b (update c (j + 1) x) (j + 1) := by
  intro i hi hij
  rcases hij.lt_or_eq with hlt | rfl
  · rw [update_of_ne hlt.ne]
    exact h i hi (Nat.lt_succ_iff.1 hlt)
  · rwa [update_self]

theorem sameClass_spec (hend : (b (m + 1)).value ≠ (b m).value) (fuel : ℕ) (hj : 0 < j)
    (hjm : j ≤ m) (h : Upto b c j) :
    j ≤ (sameClass b fuel j c).1 ∧ (sameClass b fuel j c).1 ≤ m ∧
      Upto b (sameClass b fuel j c).2 (sameClass b fuel j c).1 := by
  induction fuel generalizing j c with
  | zero => exact ⟨le_rfl, hjm, h⟩
  | succ fuel ih =>
    rw [sameClass]
    split_ifs with hsame
    · have hlt : j < m := lt_of_le_of_ne hjm fun heq => hend (heq ▸ hsame)
      obtain ⟨hle, hle', hupto⟩ := ih j.succ_pos hlt
        (h.next (Or.inr ⟨rfl, succ_lt_succ hj, hsame⟩))
      exact ⟨(le_succ j).trans hle, hle', hupto⟩
    · exact ⟨le_rfl, hjm, h⟩

theorem memberLoop_spec (hend : 0 < m → (b (m + 1)).value ≠ (b m).value) (fuel : ℕ)
    (hjm : j ≤ m) (hfuel : m < j + fuel) (h : Upto b c j) :
    Upto b (memberLoop b m fuel j c) m ∧ memberLoop b m fuel j c (m + 1) = -1 := by
  induction fuel generalizing j c with
  | zero => omega
  | succ fuel ih =>
    rw [memberLoop]
    split_ifs with hlt
    · obtain ⟨hle, hle', hupto⟩ := sameClass_spec (hend (by omega)) m (add_one_pos j) hlt (h.next (Or.inl rfl))
      exact ih hle' (by omega) hupto
    · obtain rfl : j = m := by omega
      refine ⟨fun i hi hij => ?_, update_self _ _ _⟩
      rw [update_of_ne (by omega)]
      exact h i hi hij

theorem equiv_members (a : ℕ → Line) (n : ℕ) (h : Sorted b m) : Members (equiv a n b m).2 m := by
  have hne : ∀ i, i ≤ m → setValue b (m + 1) 0 i = b i := fun i hi => update_of_ne (by omega) _ _
  have hend : 0 < m → (setValue b (m + 1) 0 (m + 1)).value ≠ (setValue b (m + 1) 0 m).value := by
    intro hm
    rw [hne m le_rfl, setValue, update_self]
    exact (h.value m hm le_rfl).symm
  have hst : Upto (setValue b (m + 1) 0) (fun _ => 0) 0 := fun i hi hi' => absurd hi hi'.not_gt
  obtain ⟨hupto, hlast⟩ := memberLoop_spec hend (m + 1) m.zero_le (by omega) hst
  have hser : ∀ i, 0 < i → i ≤ m → (equiv a n b m).2 i = -(b i).serial ∨
      (equiv a n b m).2 i = (b i).serial ∧ 1 < i ∧ (b i).value = (b (i - 1)).value := by
    intro i hi him
    have := hupto i hi him
    rwa [hne i him, hne (i - 1) ((sub_le i 1).trans him)] at this
  refine ⟨fun j hj hjm => ?_, fun j hj hjm hpos => ?_, ?_⟩
  · have := h.serial j hj hjm
    have := hser j hj hjm
    omega
  · have hb := h.serial (j + 1) j.succ_pos hjm
    have hnx := hser (j + 1) j.succ_pos hjm
    have hthis := hser j hj hjm.le
    rw [Nat.add_sub_cancel] at hnx
    have hlt := h.lt j hj hjm
    omega
  · exact hlast.le.trans (by decide)

/-- A class is none or one of those there are. -/
def InClass (m : ℕ) (x : ℤ) : Prop := 0 ≤ x ∧ x ≤ m

theorem setValue_class {i : ℕ} (h : ∀ k, 0 < k → k < i → k ≤ n → InClass m (a k).value)
    (hx : InClass m x) :
    ∀ k, 0 < k → k < i + 1 → k ≤ n → InClass m (setValue a i x k).value := by
  intro k hk hki hkn
  rw [setValue]
  rcases (Nat.lt_succ_iff.1 hki).lt_or_eq with hlt | rfl
  · rw [update_of_ne hlt.ne]
    exact h k hk hlt hkn
  · rwa [update_self]

theorem equivLoop_spec (fuel : ℕ) {i : ℕ} (hj : j ≤ m + 1)
    (hfuel : n + 1 + m < i + j + fuel) (h : ∀ k, 0 < k → k < i → k ≤ n → InClass m (a k).value) :
    ∀ k, 0 < k → k ≤ n → InClass m (equivLoop n b m fuel i j a k).value := by
  have hzero : InClass m 0 := ⟨le_rfl, Int.natCast_nonneg m⟩
  induction fuel generalizing i j a with
  | zero => exact fun k hk hkn => h k hk (by omega) hkn
  | succ fuel ih =>
    rw [equivLoop]
    split_ifs with hi hjm hlt heq
    · exact ih hj (by omega) (setValue_class h hzero)
    · exact ih hj (by omega) (setValue_class h ⟨Int.natCast_nonneg j, Int.ofNat_le.2 hjm⟩)
    · exact ih (succ_le_succ hjm) (by omega) h
    · exact ih hj (by omega) (setValue_class h hzero)
    · exact fun k hk hkn => h k hk (by omega) hkn

theorem unsort_spec {f : ℕ → Line} {l : ℕ} (h : ∀ k, 0 < k → k ≤ l → InClass m (f k).value) (i : ℕ) :
    InClass m (unsort f l i) := by
  have hfold : ∀ (ks : List ℕ) (a : ℕ → ℤ), (∀ k ∈ ks, InClass m (f k).value) → (∀ i, InClass m (a i)) →
      ∀ i, InClass m (ks.foldl (fun a i => update a (f i).serial (f i).value) a i) := by
    intro ks
    induction ks with
    | nil => exact fun a _ ha => ha
    | cons k ks ih =>
      intro a hks ha
      rw [foldl_cons]
      refine ih _ (fun k hk => hks k (mem_cons_of_mem _ hk)) fun i => ?_
      by_cases hi : i = (f k).serial
      · rw [hi, update_self]
        exact hks k mem_cons_self
      · rw [update_of_ne hi]
        exact ha i
  refine hfold _ _ (fun k hk => ?_) (fun _ => ⟨le_rfl, Int.natCast_nonneg m⟩) i
  have := mem_range'_1.1 hk
  exact h k (by omega) (by omega)

end Members

/-! ### `stone` -/

/-- Candidates are chained to earlier ones that are smaller in both files. The lines of the first file
    go up to `i`, those of the second to `m`. -/
structure Chained (l : List Cand) (i m : ℕ) : Prop where
  head : l.getD 0 ⟨0, 0, 0⟩ = ⟨0, 0, 0⟩
  pos : l ≠ []
  chain : ∀ p, 0 < p → p < l.length → 0 < (l.getD p ⟨0, 0, 0⟩).y ∧ (l.getD p ⟨0, 0, 0⟩).y ≤ m ∧
    (l.getD p ⟨0, 0, 0⟩).x ≤ i ∧ (l.getD p ⟨0, 0, 0⟩).pred < p ∧
    (l.getD (l.getD p ⟨0, 0, 0⟩).pred ⟨0, 0, 0⟩).x < (l.getD p ⟨0, 0, 0⟩).x ∧
    (l.getD (l.getD p ⟨0, 0, 0⟩).pred ⟨0, 0, 0⟩).y < (l.getD p ⟨0, 0, 0⟩).y

namespace Stone

/-- The candidates in `klist` increase. -/
structure Ok (s : Stone) (i m : ℕ) : Prop where
  chained : Chained s.clist i m
  zero : s.c 0 = 0
  lt : ∀ l, l ≤ s.k → s.c l < s.clist.length
  mono : ∀ l l', l < l' → l' ≤ s.k → (s.cand (s.c l)).y < (s.cand (s.c l')).y

variable {s : Stone} {b : ℕ → ℤ} {i m : ℕ}

variable {p l : ℕ} {y : ℤ}

theorem cand_newcand (s : Stone) (l x : ℕ) (y : ℤ) (pred : ℕ) (hp : p < s.clist.length) :
    (s.newcand l x y pred).cand p = s.cand p := by
  rw [cand, cand, newcand, getD_append _ _ _ _ hp]

theorem cand_newcand_self (s : Stone) (l x : ℕ) (y : ℤ) (pred : ℕ) :
    (s.newcand l x y pred).cand s.clist.length = ⟨x, y, pred⟩ := by
  rw [cand, newcand, getD_append_right _ _ _ _ le_rfl, Nat.sub_self]
  rfl

theorem Ok.nonneg (h : s.Ok i m) (hp : p < s.clist.length) : 0 ≤ (s.cand p).y := by
  rcases Nat.eq_zero_or_pos p with rfl | hpos
  · rw [cand, h.chained.head]
  · exact (h.chained.chain p hpos hp).1.le

theorem Ok.le (h : s.Ok i m) (hp : p < s.clist.length) : (s.cand p).x ≤ i ∧ (s.cand p).y ≤ m := by
  rcases Nat.eq_zero_or_pos p with rfl | hpos
  · rw [cand, h.chained.head]
    exact ⟨i.zero_le, Int.natCast_nonneg m⟩
  · have := h.chained.chain p hpos hp
    exact ⟨this.2.2.1, this.2.1⟩

theorem Ok.mono_line (h : s.Ok i m) {i' : ℕ} (hi : i ≤ i') : s.Ok i' m where
  chained :=
    { head := h.chained.head
      pos := h.chained.pos
      chain := fun p hp hlt => by
        have := h.chained.chain p hp hlt
        omega }
  zero := h.zero
  lt := h.lt
  mono := h.mono

/-- A candidate is added, after one that is smaller in both files. -/
theorem Ok.newcand (h : s.Ok i m) {pred : ℕ} (hl : 0 < l) (hlk : l ≤ s.k + 1)
    (hpred : pred < s.clist.length) (hx : (s.cand pred).x < i) (hy : (s.cand pred).y < y) (hym : y ≤ m)
    (hbef : (s.cand (s.c (l - 1))).y < y) (hat : l ≤ s.k → y ≤ (s.cand (s.c l)).y) :
    ({ s.newcand l i y pred with k := max s.k l } : Stone).Ok i m := by
  have hlen : (s.newcand l i y pred).clist.length = s.clist.length + 1 := length_append
  have hc : ∀ l', l' ≠ l → (s.newcand l i y pred).c l' = s.c l' := fun l' hl' => update_of_ne hl' _ _
  have hcl : (s.newcand l i y pred).c l = s.clist.length := update_self _ _ _
  have hold : ∀ l', l' ≠ l → l' ≤ max s.k l → (s.newcand l i y pred).cand ((s.newcand l i y pred).c l') =
      s.cand (s.c l') := by
    intro l' hne hle
    rw [hc l' hne]
    exact cand_newcand s l i y pred (h.lt l' (by omega))
  have hnew : (s.newcand l i y pred).cand ((s.newcand l i y pred).c l) = ⟨i, y, pred⟩ := by
    rw [hcl, cand_newcand_self]
  refine ⟨⟨?_, ?_, fun p hp hlt => ?_⟩, ?_, fun l' hl' => ?_, fun l1 l2 hlt hle => ?_⟩
  · exact (cand_newcand s l i y pred (length_pos_iff.2 h.chained.pos)).trans h.chained.head
  · exact append_ne_nil_of_right_ne_nil _ (cons_ne_nil _ _)
  · rw [hlen] at hlt
    rcases (Nat.lt_succ_iff.1 hlt).lt_or_eq with hp' | rfl
    · have hq := h.chained.chain p hp hp'
      have hthis : (s.newcand l i y pred).cand p = s.cand p := cand_newcand s l i y pred hp'
      have hprev : (s.newcand l i y pred).cand (s.cand p).pred = s.cand (s.cand p).pred :=
        cand_newcand s l i y pred (hq.2.2.2.1.trans hp')
      rw [cand, cand] at hthis
      rw [cand, cand] at hprev
      simp only [hthis, hprev]
      exact hq
    · have hprev : (s.newcand l i y pred).cand pred = s.cand pred := cand_newcand s l i y pred hpred
      have hself := cand_newcand_self s l i y pred
      rw [cand] at hself hprev
      simp only [hself, hprev]
      exact ⟨(h.nonneg hpred).trans_lt hy, hym, le_rfl, hpred, hx, hy⟩
  · exact (hc 0 hl.ne).trans h.zero
  · rw [hlen]
    by_cases hne : l' = l
    · rw [hne, hcl]
      exact lt_succ_self _
    · rw [hc l' hne]
      have hlk' : l' ≤ s.k := by
        have : l' ≤ max s.k l := hl'
        omega
      exact (h.lt l' hlk').trans (lt_succ_self _)
  · have hmax : l2 ≤ max s.k l := hle
    change ((s.newcand l i y pred).cand ((s.newcand l i y pred).c l1)).y <
      ((s.newcand l i y pred).cand ((s.newcand l i y pred).c l2)).y
    rcases eq_or_ne l1 l with rfl | hne1
    · rw [hnew, hold l2 hlt.ne' hmax]
      exact (hat (by omega)).trans_lt (h.mono l1 l2 hlt (by omega))
    · rw [hold l1 hne1 (hlt.le.trans hmax)]
      rcases eq_or_ne l2 l with rfl | hne2
      · rw [hnew]
        rcases (le_sub_one_of_lt hlt).lt_or_eq with hlt' | heq
        · exact (h.mono l1 (l2 - 1) hlt' (by omega)).trans hbef
        · rwa [heq]
      · rw [hold l2 hne2 hmax]
        exact h.mono l1 l2 hlt (by omega)

theorem Ok.mono_le (h : s.Ok i m) {l' : ℕ} (hl : l ≤ l') (hk : l' ≤ s.k) :
    (s.cand (s.c l)).y ≤ (s.cand (s.c l')).y := by
  rcases hl.lt_or_eq with hlt | rfl
  · exact (h.mono l l' hlt hk).le
  · exact le_rfl

/-- The place of `klist` that `y` is for. -/
structure Place (s : Stone) (y : ℤ) (l : ℕ) : Prop where
  pos : 0 < l
  le : l ≤ s.k + 1
  before : (s.cand (s.c (l - 1))).y < y
  at_ : l ≤ s.k → y ≤ (s.cand (s.c l)).y

theorem searchLoop_spec (h : s.Ok i m) (fuel : ℕ) {i0 j0 : ℕ} (hlt : i0 < j0) (hfuel : j0 ≤ i0 + fuel)
    (hj : j0 ≤ s.k + 1) (hbef : (s.cand (s.c i0)).y < y) (hat : j0 ≤ s.k → y ≤ (s.cand (s.c j0)).y) :
    s.Place y (s.searchLoop y fuel i0 j0) := by
  induction fuel generalizing i0 j0 with
  | zero => omega
  | succ fuel ih =>
    rw [searchLoop]
    simp only
    split_ifs with hmid hlow hhigh
    · -- there is nothing between the two
      obtain rfl : j0 = i0 + 1 := by omega
      have hmid : (i0 + (i0 + 1)) / 2 = i0 := by omega
      rw [hmid]
      exact ⟨i0.succ_pos, hj, hbef, hat⟩
    · exact ih (by omega) (by omega) (by omega) hbef fun _ => hlow.le
    · exact ih (by omega) (by omega) hj hhigh hat
    · have heq : (s.cand (s.c ((i0 + j0) / 2))).y = y := le_antisymm (not_lt.1 hlow) (not_lt.1 hhigh)
      refine ⟨by omega, by omega, ?_, fun _ => heq.ge⟩
      exact (h.mono _ _ (by omega) (by omega)).trans_eq heq

theorem search_spec (h : s.Ok i m) (hy : 0 < y) : s.Place y (s.search y) := by
  rw [search]
  split_ifs with hlast
  · exact ⟨succ_pos _, le_rfl, hlast, fun hk => absurd hk (Nat.lt_irrefl _)⟩
  · have hzero : (s.cand (s.c 0)).y < y := by
      rwa [h.zero, cand, h.chained.head]
    exact searchLoop_spec h _ (succ_pos _) (by omega) le_rfl hzero fun hk => absurd hk (Nat.lt_irrefl _)

/-- What holds in the loop over the members of a class: the candidates before `base` are of earlier lines,
    as are those in `klist` after `oldl` and the one that was at `oldl`, and the one at `oldl` is still
    below `y`. -/
structure Class (s : Stone) (b : ℕ → ℤ) (i m base j : ℕ) (y : ℤ) (oldc oldl : ℕ) : Prop where
  ok : s.Ok i m
  earlier : base ≤ s.clist.length ∧ ∀ p, p < base → (s.cand p).x < i
  oldc_lt : oldc < base
  member : 0 < j ∧ j ≤ m ∧ y.natAbs = (b j).natAbs
  oldl_le : oldl ≤ s.k ∧ (s.cand (s.c oldl)).y ≤ (b j).natAbs
  below : 0 < y → (s.cand (s.c oldl)).y < y
  after : ∀ l, oldl < l → l ≤ s.k → s.c l < base

theorem classLoop_spec (hb : Members b m) {base : ℕ} (fuel : ℕ) {j : ℕ} {oldc oldl : ℕ}
    (h : s.Class b i m base j y oldc oldl) : (s.classLoop b i fuel j y oldc oldl).Ok i m := by
  induction fuel generalizing s j y oldc oldl with
  | zero => exact h.ok
  | succ fuel ih =>
    have hnx : ∀ {s' : Stone} {oldc' oldl' : ℕ}, s'.Ok i m →
        (base ≤ s'.clist.length ∧ ∀ p, p < base → (s'.cand p).x < i) → oldc' < base → oldl' ≤ s'.k →
        (s'.cand (s'.c oldl')).y ≤ (b j).natAbs → (∀ l, oldl' < l → l ≤ s'.k → s'.c l < base) →
        (if 0 < b (j + 1) then s'.classLoop b i fuel (j + 1) (b (j + 1)) oldc' oldl' else s').Ok i m := by
      intro s' oldc' oldl' hok hold holdc holdl hle haft
      split_ifs with hpos
      · have hjm : j < m := lt_of_le_of_ne h.member.2.1 fun heq => (heq ▸ hpos).not_ge hb.last
        have hlt := hb.lt j h.member.1 hjm hpos
        exact ih ⟨hok, hold, holdc, ⟨j.succ_pos, hjm, rfl⟩, ⟨holdl, by omega⟩, fun _ => by omega, haft⟩
      · exact hok
    rw [classLoop]
    dsimp only
    by_cases hy : y ≤ (s.cand oldc).y
    · rw [if_pos hy]
      exact hnx h.ok h.earlier h.oldc_lt h.oldl_le.1 h.oldl_le.2 h.after
    rw [if_neg hy]
    have hoc := h.oldc_lt.trans_le h.earlier.1
    have hypos : 0 < y := (h.ok.nonneg hoc).trans_lt (not_le.1 hy)
    have habs : y = (b j).natAbs := by
      have := h.member.2.2
      omega
    have hym : y ≤ m := by
      have := (hb.bound j h.member.1 h.member.2.1).1
      omega
    have hplc := search_spec h.ok hypos
    generalize s.search y = l at hplc ⊢
    have hlt : oldl < l := by
      by_contra hle
      have hle' := h.ok.mono_le (not_lt.1 hle) h.oldl_le.1
      have hat := hplc.at_ ((not_lt.1 hle).trans h.oldl_le.1)
      exact absurd (hat.trans hle') (h.below hypos).not_ge
    obtain ⟨oldc', holdc', hpred, hblw⟩ : ∃ oldc', (if l ≠ oldl + 1 then s.c (l - 1) else oldc) = oldc' ∧
        oldc' < base ∧ (s.cand oldc').y < y := by
      refine ⟨_, rfl, ?_⟩
      split_ifs with hskip
      · exact ⟨h.after _ (by omega) (by have := hplc.le; omega), hplc.before⟩
      · exact ⟨h.oldc_lt, not_le.1 hy⟩
    rw [holdc']
    have hok := h.ok.newcand hplc.pos hplc.le (hpred.trans_le h.earlier.1) (h.earlier.2 _ hpred) hblw hym
      hplc.before hplc.at_
    by_cases hk : l ≤ s.k
    · rw [if_pos hk]
      by_cases hthere : (s.cand (s.c l)).y ≤ y
      · rw [if_pos hthere]
        exact hnx h.ok h.earlier hpred h.oldl_le.1 h.oldl_le.2 h.after
      · rw [if_neg hthere]
        rw [max_eq_left hk] at hok
        refine hnx hok ⟨?_, fun p hp => ?_⟩ (h.after l hlt hk) hk ?_ fun l' hl' hk' => ?_
        · exact h.earlier.1.trans (le_of_lt (by rw [newcand, length_append]; exact lt_succ_self _))
        · rw [cand_newcand s l i y oldc' (hp.trans_le h.earlier.1)]
          exact h.earlier.2 p hp
        · have hcl : (s.newcand l i y oldc').c l = s.clist.length := update_self _ _ _
          rw [hcl, cand_newcand_self]
          exact habs.le
        · have hcl : (s.newcand l i y oldc').c l' = s.c l' := update_of_ne hl'.ne' _ _
          rw [hcl]
          exact h.after l' (hlt.trans hl') hk'
    · rw [if_neg hk]
      obtain rfl : l = s.k + 1 := by
        have := hplc.le
        omega
      rw [max_eq_right (le_succ s.k)] at hok
      exact hok

theorem line_spec {a : ℕ → ℤ} (hb : Members b m) (ha : ∀ i, InClass m (a i)) (hi : s.Ok i m) :
    (Stone.line a b m s (i + 1)).Ok (i + 1) m := by
  have hok := hi.mono_line (le_succ i)
  rw [line]
  split_ifs with hzero
  · exact hok
  obtain ⟨hle, hle'⟩ := ha (i + 1)
  have hx : ∀ p, p < s.clist.length → (s.cand p).x < i + 1 := by
    intro p hp
    rcases p.eq_zero_or_pos with rfl | hpos
    · rw [cand, hi.chained.head]
      exact i.succ_pos
    · exact Nat.lt_succ_iff.2 (hi.chained.chain p hpos hp).2.2.1
  have hy : (s.cand (s.c 0)).y = 0 := by
    rw [hi.zero, cand, hi.chained.head]
  refine classLoop_spec hb (m + 1) ⟨hok, ⟨le_rfl, hx⟩, hi.lt 0 s.k.zero_le, ?_, ?_, fun hpos => ?_, ?_⟩
  · exact ⟨by omega, by omega, Int.natAbs_neg _⟩
  · exact ⟨s.k.zero_le, hy.le.trans (Int.natCast_nonneg _)⟩
  · rwa [hy]
  · exact fun l _ hl => hi.lt l hl

end Stone

theorem stone_spec {a b : ℕ → ℤ} {m : ℕ} (hb : Members b m) (ha : ∀ i, InClass m (a i)) (n : ℕ) :
    (stone a n b m).Ok n m := by
  induction n with
  | zero =>
    refine ⟨⟨rfl, cons_ne_nil _ _, fun p hp hlt => ?_⟩, rfl, fun _ _ => Nat.one_pos, fun l l' hlt hle => ?_⟩
    · exact absurd (lt_one_iff.1 hlt) hp.ne'
    · exact absurd hlt (le_zero.1 hle ▸ l.not_lt_zero)
  | succ n ih =>
    rw [stone, range'_1_concat, foldl_append, add_comm 1 n]
    exact Stone.line_spec hb ha ih

/-! ### The match vector -/

/-- The lines that are matched are in the same order in both files. -/
structure Increasing (J : ℕ → ℕ) (len0 len1 : ℕ) : Prop where
  le : ∀ i, 0 < i → i ≤ len0 → J i ≤ len1
  lt : ∀ i i', 0 < i → i < i' → i' ≤ len0 → J i ≠ 0 → J i' ≠ 0 → J i < J i'

/-- The match vector before the candidate with the places `x` and `y` is entered. -/
structure Before (J : ℕ → ℕ) (len0 len1 pref x y : ℕ) : Prop where
  increasing : Increasing J len0 len1
  low : ∀ i, i ≤ pref → J i = i
  zero : ∀ i, pref < i → i ≤ pref + x → J i = 0
  high : ∀ i, pref + x < i → i ≤ len0 → J i ≠ 0 → pref + y < J i

theorem Before.enter {J : ℕ → ℕ} {len0 len1 pref x y x' y' : ℕ} (h : Before J len0 len1 pref x y)
    (hy : pref + y ≤ len1) (hx' : x' < x) (hy' : y' < y) :
    Before (update J (x + pref) (y + pref)) len0 len1 pref x' y' := by
  have hne : ∀ i, i ≠ x + pref → update J (x + pref) (y + pref) i = J i :=
    fun i hi => update_of_ne hi _ _
  have hself : update J (x + pref) (y + pref) (x + pref) = y + pref := update_self _ _ _
  have hlow : ∀ i, i < x + pref → J i ≤ pref := by
    intro i hi
    by_cases hpref : i ≤ pref
    · exact (h.low i hpref).trans_le hpref
    · rw [h.zero i (not_le.1 hpref) (by omega)]
      exact pref.zero_le
  refine ⟨⟨fun i hi hle => ?_, fun i i' hi hlt hle hJ hJ' => ?_⟩, fun i hi => ?_, fun i hi hle => ?_,
    fun i hi hle hJ => ?_⟩
  · by_cases heq : i = x + pref
    · rw [heq, hself]
      omega
    · rw [hne i heq]
      exact h.increasing.le i hi hle
  · by_cases heq : i = x + pref
    · rw [heq, hself]
      rw [hne i' (by omega)] at hJ' ⊢
      have := h.high i' (by omega) hle hJ'
      omega
    · rw [hne i heq] at hJ ⊢
      by_cases heq' : i' = x + pref
      · rw [heq', hself]
        have := hlow i (by omega)
        omega
      · rw [hne i' heq'] at hJ' ⊢
        exact h.increasing.lt i i' hi hlt hle hJ hJ'
  · rw [hne i (by omega)]
    exact h.low i hi
  · rw [hne i (by omega)]
    exact h.zero i hi (by omega)
  · by_cases heq : i = x + pref
    · rw [heq, hself]
      omega
    · rw [hne i heq] at hJ ⊢
      by_cases hlt : i < x + pref
      · exact absurd (h.zero i (by omega) (by omega)) hJ
      · have := h.high i (by omega) hle hJ
        omega

theorem unravelLoop_spec {s : Stone} {slen0 slen1 len0 len1 pref : ℕ} (h : Chained s.clist slen0 slen1)
    (h1 : pref + slen1 ≤ len1) (fuel : ℕ) {p : ℕ} {J : ℕ → ℕ}
    (hp : p < s.clist.length) (hJ : Before J len0 len1 pref (s.cand p).x (s.cand p).y.toNat) :
    Increasing (unravelLoop s pref fuel p J) len0 len1 := by
  induction fuel generalizing p J with
  | zero => exact hJ.increasing
  | succ fuel ih =>
    rw [unravelLoop]
    split_ifs with hy
    · rcases p.eq_zero_or_pos with rfl | hpos
      · rw [Stone.cand, h.head] at hy
        exact absurd rfl hy
      obtain ⟨hypos, hym, hxi, hpred, hx, hylt⟩ := h.chain p hpos hp
      rw [← Stone.cand] at hypos hym hxi hpred hx hylt
      rw [← Stone.cand] at hx hylt
      exact ih (hpred.trans hp) (hJ.enter (by omega) hx (by omega))
    · exact hJ.increasing

section Prune

variable {file0 file1 : ℕ → Line} {len0 len1 : ℕ}

theorem prefLoop_le (fuel : ℕ) {p : ℕ} (h0 : p ≤ len0) (h1 : p ≤ len1) :
    prefLoop file0 file1 len0 len1 fuel p ≤ len0 ∧ prefLoop file0 file1 len0 len1 fuel p ≤ len1 := by
  induction fuel generalizing p with
  | zero => exact ⟨h0, h1⟩
  | succ fuel ih =>
    rw [prefLoop]
    split_ifs with h
    · exact ih h.1 h.2.1
    · exact ⟨h0, h1⟩

theorem suffLoop_le {p : ℕ} (fuel : ℕ) {q : ℕ} (h0 : q ≤ len0 - p) (h1 : q ≤ len1 - p) :
    suffLoop file0 file1 len0 len1 p fuel q ≤ len0 - p ∧
      suffLoop file0 file1 len0 len1 p fuel q ≤ len1 - p := by
  induction fuel generalizing q with
  | zero => exact ⟨h0, h1⟩
  | succ fuel ih =>
    rw [suffLoop]
    split_ifs with h
    · exact ih h.1 h.2.1
    · exact ⟨h0, h1⟩

theorem matchVector_spec (hval : ∀ i, 0 < i → i ≤ len1 → (file1 i).value ≠ 0) :
    Increasing (matchVector file0 file1 len0 len1) len0 len1 := by
  have hpref := @prefLoop_le file0 file1 len0 len1 len0 0 len0.zero_le len1.zero_le
  have hsuff := @suffLoop_le file0 file1 len0 len1 (pref file0 file1 len0 len1) len0 0 (Nat.zero_le _)
    (Nat.zero_le _)
  rw [← pref] at hpref
  rw [← suff] at hsuff
  rw [matchVector]
  generalize pref file0 file1 len0 len1 = p at hpref hsuff ⊢
  generalize suff file0 file1 len0 len1 = q at hsuff ⊢
  have hsor : Sorted (sort (sfile file1 p (len1 - p - q)) (len1 - p - q)) (len1 - p - q) :=
    sort_sorted fun i hi hle => hval i (by omega) (by omega)
  generalize sort (sfile file1 p (len1 - p - q)) (len1 - p - q) = b at hsor ⊢
  generalize sort (sfile file0 p (len0 - p - q)) (len0 - p - q) = a
  have hmem := equiv_members a (len0 - p - q) hsor
  have hclass : ∀ i, InClass (len1 - p - q) (unsort (equiv a (len0 - p - q) b (len1 - p - q)).1
      (len0 - p - q) i) := by
    refine unsort_spec (equivLoop_spec _ (by omega) ?_ fun k hk hk' => ?_)
    · omega
    · exact absurd hk hk'.not_ge
  have hok := stone_spec hmem hclass (len0 - p - q)
  generalize stone _ _ _ _ = s at hok ⊢
  have hlast := hok.lt s.k le_rfl
  obtain ⟨hx, hy⟩ := hok.le hlast
  refine @unravelLoop_spec s _ _ len0 len1 p hok.chained (by omega) _ _ _ hlast
    ⟨⟨fun i hi hle => ?_, ?_⟩, ?_, ?_, ?_⟩
  · split_ifs <;> omega
  · intro i i' hi hlt hle
    split_ifs <;> omega
  · exact fun i hi => if_pos hi
  · intro i hi hle
    rw [if_neg (by omega), if_neg (by omega)]
  · intro i hi hle
    split_ifs <;> omega

end Prune

end Uwisc.Diff
