import Mathlib.Data.List.TakeDrop
import Uwisc.Bin.Diff.Match

/-!
# Changes

What `output` makes of a match vector that increases and only matches lines that are the same: changes that
turn the first file into the second when they are made from the end of the file to its beginning, so that
the numbers of the lines they are about are still those of the first file.

* `outputUp_spec`: from line `i0` on, the changes make up for the rest of the second file;
* `outputDown_spec`: up to line `i0`, they make up for what comes before;
* `output_edits`: both together.
-/

namespace Uwisc.Diff

open Function List Nat

variable {α : Type*}

/-- Lines `a` to `b` of the first file are replaced by lines `c` to `d` of the second. -/
def Change.apply (new : List α) (buf : List α) (ch : Change) : List α :=
  buf.take (ch.a - 1) ++ (new.drop (ch.c - 1)).take (ch.d + 1 - ch.c) ++ buf.drop ch.b

/-- The lines of a change are there, or there are none between two that are. -/
structure Change.Ok (ch : Change) (len0 len1 : ℕ) : Prop where
  old : 0 < ch.a ∧ ch.a ≤ ch.b + 1 ∧ ch.b ≤ len0
  new : 0 < ch.c ∧ ch.c ≤ ch.d + 1 ∧ ch.d ≤ len1

/-- The match vector increases, and the lines it matches are the same. -/
structure Matched (old new : List α) (J : ℕ → ℕ) : Prop where
  increasing : Increasing J old.length new.length
  same : ∀ i, 0 < i → i ≤ old.length → J i ≠ 0 → old[i - 1]? = new[J i - 1]?

/-- Changes that go from the end of the first file to its beginning, and turn it into the second. -/
structure Edits (old new : List α) (changes : List Change) : Prop where
  ok : ∀ ch ∈ changes, ch.Ok old.length new.length
  before : changes.Pairwise fun ch ch' => ch'.b < ch.a
  apply : changes.foldl (Change.apply new) old = new

section Lines

variable {old new : List α}

/-- The first file up to line `p`, and the second from the line after `q` on. -/
def joined (old new : List α) (p q : ℕ) : List α := old.take p ++ new.drop q

/-- A matched line may come from either file. -/
theorem joined_succ {p q : ℕ} (hp : p < old.length) (hsame : old[p]? = new[q]?) :
    joined old new (p + 1) (q + 1) = joined old new p q := by
  have hq : q < new.length := by
    by_contra hq
    rw [getElem?_eq_getElem hp, getElem?_eq_none (not_lt.1 hq)] at hsame
    exact Option.some_ne_none _ hsame
  rw [getElem?_eq_getElem hp, getElem?_eq_getElem hq, Option.some_inj] at hsame
  rw [joined, joined, drop_eq_getElem_cons hq, take_add_one, getElem?_eq_getElem hp, hsame,
    Option.toList_some, append_assoc, singleton_append]

/-- A change replaces what it is about. -/
theorem apply_joined {a b c d : ℕ} (ha : a ≤ b) (hb : b ≤ old.length) (hc : c ≤ d) :
    Change.apply new (joined old new b d) ⟨a + 1, b, c + 1, d⟩ = joined old new a c := by
  have hlen : (old.take b).length = b := length_take_of_le hb
  rw [Change.apply, joined, joined]
  dsimp only
  rw [Nat.add_sub_cancel, Nat.add_sub_cancel, Nat.add_sub_add_right, take_append_of_le_length
    (hlen.symm ▸ ha), drop_append_of_le_length hlen.ge, take_take, min_eq_left ha]
  have hdrop : drop b (take b old) = [] := drop_eq_nil_of_le hlen.le
  rw [hdrop, nil_append, append_assoc]
  congr 1
  have hspl := take_append_drop (d - c) (new.drop c)
  rwa [drop_drop, Nat.add_sub_cancel' hc] at hspl

end Lines

/-! ### Up -/

section Up

variable {J : ℕ → ℕ} {m : ℕ}

theorem skipMatched_spec (fuel : ℕ) {i : ℕ} (hi : i ≤ m + 1) (hfuel : m < i + fuel) :
    i ≤ skipMatched J m fuel i ∧ skipMatched J m fuel i ≤ m + 1 ∧
      (∀ k, i ≤ k → k < skipMatched J m fuel i → J k = J (k - 1) + 1) ∧
      (skipMatched J m fuel i ≤ m → J (skipMatched J m fuel i) ≠ J (skipMatched J m fuel i - 1) + 1) := by
  induction fuel generalizing i with
  | zero => exact ⟨le_rfl, hi, fun k hk hlt => absurd hk hlt.not_ge, fun hle => absurd hle hfuel.not_ge⟩
  | succ fuel ih =>
    rw [skipMatched]
    split_ifs with h
    · obtain ⟨hle, hle', hmch, hend⟩ := ih (succ_le_succ h.1) (by omega)
      refine ⟨(le_succ i).trans hle, hle', fun k hk hlt => ?_, hend⟩
      rcases hk.eq_or_lt with rfl | hik
      · exact h.2
      · exact hmch k hik hlt
    · exact ⟨le_rfl, hi, fun k hk hlt => absurd hk hlt.not_ge, fun hle heq => h ⟨hle, heq⟩⟩

theorem skipZeros_spec (fuel : ℕ) {i : ℕ} (hi : i ≤ m) (hfuel : m ≤ i + fuel) :
    i ≤ skipZeros J m fuel i ∧ skipZeros J m fuel i ≤ m ∧
      (∀ k, i < k → k ≤ skipZeros J m fuel i → J k = 0) ∧
      (skipZeros J m fuel i < m → J (skipZeros J m fuel i + 1) ≠ 0) := by
  induction fuel generalizing i with
  | zero => exact ⟨le_rfl, hi, fun k hk hle => absurd hk hle.not_gt, fun hlt => absurd hfuel hlt.not_ge⟩
  | succ fuel ih =>
    rw [skipZeros]
    split_ifs with h
    · obtain ⟨hle, hle', hzero, hend⟩ := ih h.1 (by omega)
      refine ⟨(le_succ i).trans hle, hle', fun k hk hlt => ?_, hend⟩
      rcases (succ_le_of_lt hk).eq_or_lt with rfl | hik
      · exact h.2
      · exact hzero k hik hlt
    · exact ⟨le_rfl, hi, fun k hk hle => absurd hk hle.not_gt, fun hlt hzero => h ⟨hlt, hzero⟩⟩

/-- The match vector is right after line `p`, where `J p` is the number of the lines of the second file that
    are made up for. -/
structure Ahead (old new : List α) (J : ℕ → ℕ) (p : ℕ) : Prop where
  le : p ≤ old.length
  last : J (old.length + 1) = new.length + 1
  lt : ∀ i i', p ≤ i → i < i' → i' ≤ old.length + 1 → (i = p ∨ J i ≠ 0) → J i' ≠ 0 → J i < J i'
  same : ∀ i, p < i → i ≤ old.length → J i ≠ 0 → old[i - 1]? = new[J i - 1]?

variable {old new : List α}

/-- Lines that are matched one after the other need no change. -/
theorem Ahead.joined_matched (h : Ahead old new J m) {n : ℕ} (hn : m + n ≤ old.length)
    (hmch : ∀ k, m < k → k ≤ m + n → J k = J (k - 1) + 1) :
    joined old new (m + n) (J (m + n)) = joined old new m (J m) := by
  induction n with
  | zero => rfl
  | succ n ih =>
    have hnx : J (m + n + 1) = J (m + n) + 1 := hmch (m + n + 1) (by omega) le_rfl
    have hsame := h.same (m + n + 1) (by omega) hn (hnx ▸ succ_ne_zero _)
    rw [hnx, Nat.add_sub_cancel, Nat.add_sub_cancel] at hsame
    rw [← ih (le_of_succ_le hn) fun k hk hle => hmch k hk (le_succ_of_le hle)]
    rw [← add_assoc, hnx]
    exact joined_succ hn hsame

theorem Ahead.next (h : Ahead old new J m) {i : ℕ} (hmi : m ≤ i) (hi : i ≤ old.length) (hJ : J (i + 1) ≠ 0) :
    Ahead old new (update J i (J (i + 1) - 1)) i := by
  have hne : ∀ k, i < k → update J i (J (i + 1) - 1) k = J k := fun k hk =>
    update_of_ne hk.ne' _ _
  refine ⟨hi, ?_, fun k k' hk hlt hle hor hJ' => ?_, fun k hk hle hJk => ?_⟩
  · rw [hne _ (lt_succ_of_le hi)]
    exact h.last
  · rw [hne k' (hk.trans_lt hlt)] at hJ' ⊢
    rcases hk.eq_or_lt with rfl | hik
    · rw [update_self]
      rcases (succ_le_of_lt hlt).eq_or_lt with rfl | hlt'
      · exact sub_lt (Nat.pos_of_ne_zero hJ) Nat.one_pos
      · exact (sub_le _ 1).trans_lt (h.lt (i + 1) k' (hmi.trans (le_succ i)) hlt' hle (Or.inr hJ) hJ')
    · rw [hne k hik] at hor ⊢
      exact h.lt k k' (hmi.trans hk) hlt hle (Or.inr (hor.resolve_left hik.ne')) hJ'
  · rw [hne k hk] at hJk ⊢
    exact h.same k (hmi.trans_lt hk) hle hJk

/-- The changes for what follows line `p`. -/
structure Upward (old new : List α) (p q : ℕ) (changes : List Change) : Prop where
  ok : ∀ ch ∈ changes, ch.Ok old.length new.length ∧ p < ch.a
  before : changes.Pairwise fun ch ch' => ch.b < ch'.a
  apply : changes.foldr (fun ch buf => ch.apply new buf) old = joined old new p q

theorem upward_nil {p q : ℕ} (hp : p = old.length) (hq : q = new.length) : Upward old new p q [] := by
  refine ⟨fun ch hch => absurd hch not_mem_nil, List.Pairwise.nil, ?_⟩
  rw [hp, hq, joined, take_length, drop_length, append_nil]
  rfl

/-- A round of the loop: after `n` lines that are matched, a change up to line `i1`, and the entry of that
    line is the number of the lines that are made up for. -/
theorem outputUp_succ (fuel : ℕ) {p : ℕ} (h : Ahead old new J p) (hp : p + 1 ≤ old.length)
    (hfuel : old.length ≤ p + (fuel + 1)) (hfuel' : old.length = p + (fuel + 1) → J (p + 1) = J p + 1) :
    ∃ n i1 J', outputUp old.length (fuel + 1) (p + 1) J =
        ⟨p + n + 1, i1, J (p + n) + 1, J' i1⟩ :: outputUp old.length fuel (i1 + 1) J' ∧
      p + n ≤ i1 ∧ i1 ≤ old.length ∧ (∀ k, p < k → k ≤ p + n → J k = J (k - 1) + 1) ∧
      J (p + n) ≤ J' i1 ∧ J' i1 ≤ new.length ∧ Ahead old new J' i1 ∧
      (i1 = old.length → J' i1 = new.length) ∧ old.length ≤ i1 + fuel ∧ J' (i1 + 1) = J' i1 + 1 := by
  have hmat := @skipMatched_spec J old.length (old.length + 1) (p + 1) (le_succ_of_le hp) (by omega)
  have hzeros := @skipZeros_spec J old.length old.length
    (skipMatched J old.length (old.length + 1) (p + 1) - 1) (by omega) (by omega)
  rw [outputUp, if_pos hp]
  dsimp only
  generalize skipMatched J old.length (old.length + 1) (p + 1) = i0 at hmat hzeros ⊢
  obtain ⟨hle, hle', hmch, hstop⟩ := hmat
  obtain ⟨n, rfl⟩ : ∃ n, i0 = p + n + 1 := ⟨i0 - (p + 1), by omega⟩
  rw [Nat.add_sub_cancel] at hstop hzeros ⊢
  generalize skipZeros J old.length old.length (p + n) = i1 at hzeros ⊢
  obtain ⟨hge, hi1, hzero, hmore⟩ := hzeros
  have hnx : J (i1 + 1) ≠ 0 := by
    rcases hi1.lt_or_eq with hlt | rfl
    · exact hmore hlt
    · rw [h.last]
      exact succ_ne_zero _
  have hlt : J (p + n) < J (i1 + 1) := by
    refine h.lt _ _ (Nat.le_add_right p n) (lt_succ_of_le hge) (succ_le_succ hi1) ?_ hnx
    rcases n.eq_zero_or_pos with rfl | hn
    · exact Or.inl rfl
    · rw [hmch (p + n) (by omega) (lt_succ_self _)]
      exact Or.inr (succ_ne_zero _)
  have hbnd : J (i1 + 1) ≤ new.length + 1 := by
    rcases hi1.lt_or_eq with hlt' | rfl
    · rw [← h.last]
      exact (h.lt _ _ (by omega) (by omega) le_rfl (Or.inr hnx) (h.last ▸ succ_ne_zero _)).le
    · exact h.last.le
  have hself : update J i1 (J (i1 + 1) - 1) i1 = J (i1 + 1) - 1 := update_self _ _ _
  have hoth : update J i1 (J (i1 + 1) - 1) (i1 + 1) = J (i1 + 1) :=
    update_of_ne (Nat.succ_ne_self i1) _ _
  refine ⟨n, i1, update J i1 (J (i1 + 1) - 1), ?_, hge, hi1,
    fun k hk hle => hmch k hk (lt_succ_of_le hle), ?_, ?_,
    h.next ((Nat.le_add_right p n).trans hge) hi1 hnx, ?_, ?_, ?_⟩
  · rw [hself]
  · rw [hself]
    exact le_sub_one_of_lt hlt
  · rw [hself]
    exact Nat.sub_le_iff_le_add.2 hbnd
  · rintro rfl
    rw [hself, h.last, Nat.add_sub_cancel]
  · by_cases hlast : old.length = p + (fuel + 1)
    · -- the next line is matched, so there is one at least
      have hn : n ≠ 0 := by
        rintro rfl
        exact hstop hp (hfuel' hlast)
      omega
    · omega
  · rw [hself, hoth, Nat.sub_add_cancel (Nat.pos_of_ne_zero hnx)]

theorem outputUp_spec (fuel : ℕ) {p : ℕ} (h : Ahead old new J p) (hend : p = old.length → J p = new.length)
    (hfuel : old.length ≤ p + fuel) (hfuel' : old.length = p + fuel → p < old.length → J (p + 1) = J p + 1) :
    Upward old new p (J p) (outputUp old.length fuel (p + 1) J) := by
  induction fuel generalizing p J with
  | zero => exact upward_nil (le_antisymm h.le hfuel) (hend (le_antisymm h.le hfuel))
  | succ fuel ih =>
    by_cases hp : p + 1 ≤ old.length
    · obtain ⟨n, i1, J', hout, hge, hi1, hmch, hle, hbnd, hahead, hend', hpro, hnx⟩ :=
        outputUp_succ fuel h hp hfuel fun hlast => hfuel' hlast hp
      have hjoin : joined old new (p + n) (J (p + n)) = joined old new p (J p) :=
        h.joined_matched (hge.trans hi1) hmch
      have hrs := ih hahead hend' hpro fun _ _ => hnx
      rw [hout]
      refine ⟨fun ch hch => ?_, ?_, ?_⟩
      · rcases mem_cons.1 hch with rfl | hmem
        · exact ⟨⟨⟨succ_pos _, succ_le_succ hge, hi1⟩, ⟨succ_pos _, succ_le_succ hle, hbnd⟩⟩,
            lt_succ_of_le (Nat.le_add_right p n)⟩
        · obtain ⟨hok, hlt'⟩ := hrs.ok ch hmem
          exact ⟨hok, by omega⟩
      · exact pairwise_cons.2 ⟨fun ch hch => (hrs.ok ch hch).2, hrs.before⟩
      · rw [foldr_cons, hrs.apply, ← hjoin]
        exact apply_joined hge hi1 hle
    · have heq : p = old.length := le_antisymm h.le (le_of_lt_succ (not_le.1 hp))
      rw [outputUp, if_neg hp]
      exact upward_nil heq (hend heq)

end Up

/-! ### Down -/

section Down

variable {J : ℕ → ℕ}

theorem skipMatchedDown_spec (i : ℕ) :
    skipMatchedDown J i ≤ i ∧
      (∀ k, skipMatchedDown J i < k → k ≤ i → J k = J (k + 1) - 1 ∧ J k ≠ 0) ∧
      (0 < skipMatchedDown J i →
        ¬(J (skipMatchedDown J i) = J (skipMatchedDown J i + 1) - 1 ∧ J (skipMatchedDown J i) ≠ 0)) := by
  induction i with
  | zero => exact ⟨le_rfl, fun k hk hle => absurd hk hle.not_gt, fun h => absurd h (lt_irrefl _)⟩
  | succ i ih =>
    rw [skipMatchedDown]
    split_ifs with h
    · obtain ⟨hle, hmch, hstop⟩ := ih
      refine ⟨le_succ_of_le hle, fun k hk hki => ?_, hstop⟩
      rcases hki.eq_or_lt with rfl | hlt
      · exact h
      · exact hmch k hk (le_of_lt_succ hlt)
    · exact ⟨le_rfl, fun k hk hle => absurd hk hle.not_gt, fun _ => h⟩

theorem skipZerosDown_spec {i : ℕ} (hi : 0 < i) :
    0 < skipZerosDown J i ∧ skipZerosDown J i ≤ i ∧ (1 < skipZerosDown J i → J (skipZerosDown J i - 1) ≠ 0) := by
  induction i with
  | zero => exact absurd hi (lt_irrefl 0)
  | succ i ih =>
    rw [skipZerosDown]
    split_ifs with h
    · obtain ⟨hpos, hle, hmore⟩ := ih h.1
      exact ⟨hpos, le_succ_of_le hle, hmore⟩
    · exact ⟨succ_pos i, le_rfl, fun hlt hzero => h ⟨lt_of_succ_lt_succ hlt, hzero⟩⟩

/-- The match vector is right up to line `p`, and the lines of the second file from `J (p + 1)` on are made
    up for. -/
structure Behind (old new : List α) (J : ℕ → ℕ) (p : ℕ) : Prop where
  le : p ≤ old.length
  first : J 0 = 0
  last : J (p + 1) ≤ new.length + 1
  lt : ∀ i i', i < i' → i' ≤ p + 1 → (i' = p + 1 ∨ J i' ≠ 0) → J i < J i'
  same : ∀ i, 0 < i → i ≤ p → J i ≠ 0 → old[i - 1]? = new[J i - 1]?

variable {old new : List α} {p : ℕ}

/-- Lines that are matched one after the other need no change. -/
theorem Behind.joined_matched (h : Behind old new J p) {i n : ℕ} (hn : i + n ≤ p)
    (hmch : ∀ k, i < k → k ≤ i + n → J k = J (k + 1) - 1 ∧ J k ≠ 0) :
    joined old new (i + n) (J (i + n + 1) - 1) = joined old new i (J (i + 1) - 1) := by
  induction n with
  | zero => rfl
  | succ n ih =>
    obtain ⟨hnx, hne⟩ := hmch (i + n + 1) (by omega) le_rfl
    have hsame := h.same (i + n + 1) (succ_pos _) hn hne
    rw [Nat.add_sub_cancel] at hsame
    rw [← ih (le_of_succ_le hn) fun k hk hle => hmch k hk (le_succ_of_le hle)]
    obtain ⟨c, hc⟩ := exists_eq_succ_of_ne_zero hne
    rw [hc, succ_sub_one] at hsame
    rw [← add_assoc, ← hnx, hc]
    exact joined_succ (hn.trans h.le) hsame

theorem Behind.next (h : Behind old new J p) {i : ℕ} (hi : i ≤ p) (hJ : 0 < i → J i ≠ 0) :
    Behind old new (update J (i + 1) (J i + 1)) i := by
  have hne : ∀ k, k ≤ i → update J (i + 1) (J i + 1) k = J k := fun k hk =>
    update_of_ne (lt_succ_of_le hk).ne _ _
  have hle : ∀ k, k ≤ i → J k ≤ J i := by
    intro k hk
    rcases hk.lt_or_eq with hlt | rfl
    · exact (h.lt k i hlt (le_succ_of_le hi) (Or.inr (hJ (zero_lt_of_lt hlt)))).le
    · exact le_rfl
  refine ⟨hi.trans h.le, ?_, ?_, fun k k' hlt hle' hor => ?_, fun k hk hki hJk => ?_⟩
  · rw [hne 0 i.zero_le]
    exact h.first
  · rw [update_self]
    have := h.lt i (p + 1) (lt_succ_of_le hi) le_rfl (Or.inl rfl)
    have := h.last
    omega
  · rw [hne k (le_of_lt_succ (hlt.trans_le hle'))]
    rcases hle'.lt_or_eq with hlt' | rfl
    · rw [hne k' (le_of_lt_succ hlt')] at hor ⊢
      exact h.lt k k' hlt (hle'.trans (succ_le_succ hi)) (Or.inr (hor.resolve_left hlt'.ne))
    · rw [update_self]
      exact lt_succ_of_le (hle k (le_of_lt_succ hlt))
  · rw [hne k hki] at hJk ⊢
    exact h.same k hk (hki.trans hi) hJk

/-- The changes for what comes before line `p`. -/
structure Downward (old new : List α) (p q : ℕ) (changes : List Change) : Prop where
  ok : ∀ ch ∈ changes, ch.Ok old.length new.length ∧ ch.b ≤ p
  before : changes.Pairwise fun ch ch' => ch'.b < ch.a
  apply : changes.foldl (Change.apply new) (joined old new p (q - 1)) = new

theorem downward_nil {q : ℕ} (hp : p = 0) (hq : q = 1) : Downward old new p q [] := by
  refine ⟨fun ch hch => absurd hch not_mem_nil, List.Pairwise.nil, ?_⟩
  rw [hp, hq]
  rfl

theorem outputDown_spec (fuel : ℕ) (h : Behind old new J p) (hend : p = 0 → J (p + 1) = 1) (hfuel : p ≤ fuel)
    (hfuel' : p = fuel → 0 < p → J p = J (p + 1) - 1 ∧ J p ≠ 0) :
    Downward old new p (J (p + 1)) (outputDown fuel p J) := by
  induction fuel generalizing p J with
  | zero => exact downward_nil (le_zero.1 hfuel) (hend (le_zero.1 hfuel))
  | succ fuel ih =>
    rw [outputDown]
    split_ifs with hp
    · obtain ⟨hle, hmch, hstop⟩ := @skipMatchedDown_spec J p
      generalize skipMatchedDown J p = i0 at hle hmch hstop ⊢
      dsimp only
      obtain ⟨hpos, hle', hmore⟩ := @skipZerosDown_spec J (i0 + 1) (succ_pos i0)
      generalize skipZerosDown J (i0 + 1) = i1 at hpos hle' hmore ⊢
      obtain ⟨i1, rfl⟩ := exists_eq_succ_of_ne_zero hpos.ne'
      rw [succ_eq_add_one, Nat.add_sub_cancel] at *
      have hi1 : i1 ≤ i0 := le_of_succ_le_succ hle'
      have hJ : 0 < i1 → J i1 ≠ 0 := fun hlt => hmore (succ_lt_succ hlt)
      have hor : i0 + 1 = p + 1 ∨ J (i0 + 1) ≠ 0 := by
        rcases hle.eq_or_lt with rfl | hlt
        · exact Or.inl rfl
        · exact Or.inr (hmch (i0 + 1) (lt_succ_self _) hlt).2
      have hlt : J i1 < J (i0 + 1) := h.lt _ _ (lt_succ_of_le hi1) (succ_le_succ hle) hor
      have hbnd : J (i0 + 1) ≤ new.length + 1 := by
        rcases hle.eq_or_lt with rfl | hlt'
        · exact h.last
        · exact (h.lt _ _ (succ_lt_succ hlt') le_rfl (Or.inl rfl)).le.trans h.last
      have hjoin : joined old new p (J (p + 1) - 1) = joined old new i0 (J (i0 + 1) - 1) := by
        obtain ⟨n, rfl⟩ := Nat.exists_eq_add_of_le hle
        exact h.joined_matched le_rfl hmch
      have hself : update J (i1 + 1) (J i1 + 1) (i1 + 1) = J i1 + 1 := update_self _ _ _
      have hoth : update J (i1 + 1) (J i1 + 1) i1 = J i1 :=
        update_of_ne (Nat.succ_ne_self i1).symm _ _
      have hpro : i1 ≤ fuel := by
        by_cases hlast : p = fuel + 1
        · -- the line before is matched, so there is one at least
          have hne : i0 ≠ p := by
            rintro rfl
            exact hstop hp (hfuel' hlast hp)
          omega
        · omega
      have hrs := ih (h.next (hi1.trans hle) hJ) (fun heq => by rw [hself, heq, h.first]) hpro
        fun _ hpos' => by
          rw [hself, hoth]
          exact ⟨rfl, hJ hpos'⟩
      rw [hself] at hrs
      refine ⟨fun ch hch => ?_, ?_, ?_⟩
      · rcases mem_cons.1 hch with rfl | hmem
        · exact ⟨⟨⟨succ_pos _, hle', hle.trans h.le⟩, ⟨succ_pos _,
            succ_le_succ (le_sub_one_of_lt hlt), Nat.sub_le_iff_le_add.2 hbnd⟩⟩, hle⟩
        · obtain ⟨hok, hb⟩ := hrs.ok ch hmem
          exact ⟨hok, hb.trans (hi1.trans hle)⟩
      · exact pairwise_cons.2 ⟨fun ch hch => lt_succ_of_le (hrs.ok ch hch).2, hrs.before⟩
      · rw [foldl_cons, hjoin, apply_joined hi1 (hle.trans h.le) (le_sub_one_of_lt hlt)]
        exact hrs.apply
    · have heq : p = 0 := Nat.eq_zero_of_not_pos hp
      exact downward_nil heq (hend heq)

end Down

/-! ### Both -/

variable {old new : List α} {J : ℕ → ℕ}

/-- The match vector with an entry before and one after it. -/
def sentinels (J : ℕ → ℕ) (m n : ℕ) : ℕ → ℕ := update (update J 0 0) (m + 1) (n + 1)

theorem sentinels_zero (m n : ℕ) : sentinels J m n 0 = 0 := by
  rw [sentinels, update_of_ne (succ_ne_zero m).symm, update_self]

theorem sentinels_last (m n : ℕ) : sentinels J m n (m + 1) = n + 1 := update_self _ _ _

theorem sentinels_mid {i m : ℕ} (hi : 0 < i) (him : i ≤ m) (n : ℕ) : sentinels J m n i = J i := by
  rw [sentinels, update_of_ne (lt_succ_of_le him).ne, update_of_ne hi.ne']

/-- With these entries too, the match vector increases where it is not 0. -/
theorem Matched.sentinels_lt (h : Matched old new J) {i i' : ℕ} (hlt : i < i') (hi' : i' ≤ old.length + 1)
    (hJ' : sentinels J old.length new.length i' ≠ 0) :
    sentinels J old.length new.length i < sentinels J old.length new.length i' := by
  by_cases hJ : sentinels J old.length new.length i = 0
  · rw [hJ]
    exact Nat.pos_of_ne_zero hJ'
  have hi : 0 < i := by
    refine Nat.pos_of_ne_zero ?_
    rintro rfl
    exact hJ (sentinels_zero _ _)
  have hile : i ≤ old.length := le_of_lt_succ (hlt.trans_le hi')
  rw [sentinels_mid hi hile] at hJ ⊢
  rcases hi'.lt_or_eq with hlt' | rfl
  · rw [sentinels_mid (hi.trans hlt) (le_of_lt_succ hlt')] at hJ' ⊢
    exact h.increasing.lt i i' hi hlt (le_of_lt_succ hlt') hJ hJ'
  · rw [sentinels_last]
    exact lt_succ_of_le (h.increasing.le i hi hile)

theorem Matched.sentinels_same (h : Matched old new J) {i : ℕ} (hi : 0 < i) (hi' : i ≤ old.length)
    (hJ : sentinels J old.length new.length i ≠ 0) :
    old[i - 1]? = new[sentinels J old.length new.length i - 1]? := by
  rw [sentinels_mid hi hi'] at hJ ⊢
  exact h.same i hi hi' hJ

theorem Matched.ahead (h : Matched old new J) : Ahead old new (sentinels J old.length new.length) 0 where
  le := Nat.zero_le _
  last := sentinels_last _ _
  lt := fun _ _ _ hlt hle _ hJ => h.sentinels_lt hlt hle hJ
  same := fun _ hi hle hJ => h.sentinels_same hi hle hJ

theorem Matched.behind (h : Matched old new J) :
    Behind old new (sentinels J old.length new.length) old.length where
  le := le_rfl
  first := sentinels_zero _ _
  last := (sentinels_last _ _).le
  lt := by
    intro i i' hlt hle hor
    refine h.sentinels_lt hlt hle ?_
    rcases hor with rfl | hJ
    · rw [sentinels_last]
      exact succ_ne_zero _
    · exact hJ
  same := fun _ hi hle hJ => h.sentinels_same hi hle hJ

/-- When the first file is empty, there is one change. -/
theorem edits_nil (new : List α) : Edits [] new [⟨1, 0, 1, new.length⟩] where
  ok := by
    intro ch hch
    obtain rfl := mem_singleton.1 hch
    exact ⟨⟨Nat.one_pos, le_rfl, le_rfl⟩, ⟨Nat.one_pos, Nat.le_add_left _ _, le_rfl⟩⟩
  before := pairwise_singleton _ _
  apply := by
    rw [foldl_cons, foldl_nil, Change.apply]
    dsimp only
    rw [Nat.sub_self, drop_zero, Nat.add_sub_cancel, take_length, take_zero, drop_zero,
      append_nil, nil_append]

/-- Whichever way `output` goes, its changes turn the first file into the second. -/
theorem output_edits (h : Matched old new J) (edit : Bool) :
    Edits old new (if edit then output old.length new.length edit J
      else (output old.length new.length edit J).reverse) := by
  rcases Nat.eq_zero_or_pos old.length with hzero | hpos
  · obtain rfl := eq_nil_of_length_eq_zero hzero
    cases edit <;> exact edits_nil new
  · have hout : output old.length new.length edit J =
        if edit then outputDown (old.length + 1) old.length (sentinels J old.length new.length)
        else outputUp old.length (old.length + 1) 1 (sentinels J old.length new.length) := by
      rw [output, if_neg hpos.ne', append_nil]
      rfl
    rw [hout]
    cases edit
    · obtain ⟨hok, hbef, happly⟩ := outputUp_spec (old.length + 1) h.ahead (fun heq => absurd heq hpos.ne)
        (by omega) fun heq => absurd heq (by omega)
      rw [sentinels_zero] at happly
      refine ⟨fun ch hch => (hok ch (mem_reverse.1 hch)).1, pairwise_reverse.2 hbef, ?_⟩
      exact foldl_reverse.trans happly
    · obtain ⟨hok, hbef, happly⟩ := outputDown_spec (old.length + 1) h.behind (fun heq => absurd heq hpos.ne')
        (le_succ _) fun heq => absurd heq (Nat.succ_ne_self _).symm
      rw [sentinels_last, Nat.add_sub_cancel, joined, take_length, drop_length, append_nil] at happly
      exact ⟨fun ch hch => (hok ch hch).1, hbef, happly⟩

end Uwisc.Diff
