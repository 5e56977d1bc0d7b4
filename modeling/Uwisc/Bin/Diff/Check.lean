import Mathlib.Data.List.TakeWhile
import Mathlib.Tactic.NormNum
import Mathlib.Tactic.Ring
import Uwisc.Bin.Diff.Output

/-!
# Lines

Files whose lines all end in a newline: what `prepare` and `check` make of them.

* `prepare_length`: `prepare` reads up to the first line with the hash 0;
* `check_spec`: if it has read all of both files, the indexes are the offsets of their lines, and what is
  left of the match vector only matches lines that are the same.
-/

namespace Uwisc.Diff

open Function List

/-- The file with these lines. -/
def text (ls : List Bytes) : Bytes := ls.flatMap (· ++ [newline])

/-- The byte offsets of the lines, and the length of the file. -/
def offsets (ls : List Bytes) : List ℕ := (range (ls.length + 1)).map fun i => (text (ls.take i)).length

/-- No line goes on after a newline. -/
def Clean (ls : List Bytes) : Prop := ∀ l ∈ ls, newline ∉ l

instance (ls : List Bytes) : Decidable (Clean ls) := inferInstanceAs (Decidable (∀ l ∈ ls, newline ∉ l))

/-- The hash of a line. -/
def hash (l : Bytes) : ℤ := (readhash (l ++ [newline])).1

theorem text_cons (l : Bytes) (ls : List Bytes) : text (l :: ls) = l ++ newline :: text ls := by
  rw [text, flatMap_cons, append_assoc, singleton_append]
  rfl

theorem text_append (ls ls' : List Bytes) : text (ls ++ ls') = text ls ++ text ls' := flatMap_append

theorem length_le_text (ls : List Bytes) : ls.length ≤ (text ls).length := by
  induction ls with
  | nil => exact le_rfl
  | cons l ls ih =>
    rw [text_cons, length_append, length_cons, length_cons]
    omega

theorem offsets_take {ls : List Bytes} {i : ℕ} (hi : i ≤ ls.length) :
    offsets (ls.take i) = (range (i + 1)).map fun k => (text (ls.take k)).length := by
  rw [offsets, length_take_of_le hi]
  refine map_congr_left fun k hk => ?_
  rw [take_take, min_eq_left (Nat.le_of_lt_succ (mem_range.1 hk))]

/-! ### `prepare` -/

variable {l : Bytes} {shift : ℕ}

theorem readhashLoop_line (hl : newline ∉ l) (sum : ℤ) (shift : ℕ) (f : Bytes) :
    readhashLoop sum shift (l ++ newline :: f) = ((readhashLoop sum shift (l ++ [newline])).1, f) := by
  induction l generalizing sum shift with
  | nil => rw [nil_append, nil_append, readhashLoop, readhashLoop, if_pos rfl, if_pos rfl]
  | cons t l ih =>
    obtain ⟨ht, hl⟩ := not_or.1 (mt mem_cons.2 hl)
    rw [cons_append, cons_append, readhashLoop, readhashLoop, if_neg (Ne.symm ht),
      if_neg (Ne.symm ht)]
    exact ih hl _ _

theorem readhash_line (hl : newline ∉ l) (f : Bytes) :
    readhash (l ++ newline :: f) = (hash l, f) := readhashLoop_line hl 1 0 f

theorem prepareLoop_length {ls : List Bytes} (hls : Clean ls) (fuel j : ℕ) (p : ℕ → Line)
    (hfuel : ls.length < fuel) :
    (prepareLoop fuel (text ls) j p).1 = j + (ls.takeWhile fun l => hash l ≠ 0).length := by
  induction ls generalizing fuel j p with
  | nil =>
    obtain ⟨fuel, rfl⟩ := Nat.exists_eq_succ_of_ne_zero hfuel.ne'
    rfl
  | cons l ls ih =>
    obtain ⟨fuel, rfl⟩ := Nat.exists_eq_succ_of_ne_zero (Nat.ne_zero_of_lt hfuel)
    rw [prepareLoop, text_cons, readhash_line (hls l mem_cons_self)]
    dsimp only
    split_ifs with hzero
    · rw [takeWhile_cons_of_neg (by simpa using hzero)]
      rfl
    · rw [ih (fun l hl => hls l (mem_cons_of_mem _ hl)) fuel _ _ (Nat.lt_of_succ_lt_succ hfuel),
        takeWhile_cons_of_pos (by simpa using hzero), length_cons]
      omega

theorem prepare_length {ls : List Bytes} (hls : Clean ls) :
    (prepare (text ls)).1 = (ls.takeWhile fun l => hash l ≠ 0).length := by
  rw [prepare, prepareLoop_length hls _ _ _ (Nat.lt_succ_of_le (length_le_text ls)), zero_add]

theorem prepare_length_eq {ls : List Bytes} (hls : Clean ls) :
    (prepare (text ls)).1 = ls.length ↔ ∀ l ∈ ls, hash l ≠ 0 := by
  rw [prepare_length hls]
  constructor
  · intro hlen
    have heq := ( takeWhile_prefix fun l => decide (hash l ≠ 0)).eq_of_length hlen
    exact fun l hl => of_decide_eq_true (takeWhile_eq_self_iff.1 heq l hl)
  · intro hne
    rw [takeWhile_eq_self_iff.2 fun l hl => decide_eq_true (hne l hl)]

theorem prepareLoop_value (fuel : ℕ) {f : Bytes} {j : ℕ} {p : ℕ → Line}
    (hp : ∀ i, 0 < i → i ≤ j → (p i).value ≠ 0) :
    ∀ i, 0 < i → i ≤ (prepareLoop fuel f j p).1 → ((prepareLoop fuel f j p).2 i).value ≠ 0 := by
  induction fuel generalizing f j p with
  | zero => exact hp
  | succ fuel ih =>
    rw [prepareLoop]
    split_ifs with hzero
    · exact hp
    · refine ih fun i hi hij => ?_
      rcases hij.lt_or_eq with hlt | rfl
      · rw [update_of_ne hlt.ne]
        exact hp i hi (Nat.le_of_lt_succ hlt)
      · rwa [update_self]

/-- No line that is read has the hash 0. -/
theorem prepare_value (f : Bytes) (i : ℕ) (hi : 0 < i) (hle : i ≤ (prepare f).1) :
    ((prepare f).2 i).value ≠ 0 :=
  prepareLoop_value _ (fun _ hi hle => absurd hi hle.not_gt) i hi hle

/-! ### `check` -/

/-- How far `check` is after line `i` of the first file, whatever it reads. -/
structure Counted (len0 len1 i : ℕ) (s : Check) : Prop where
  ixold : s.ixold.length = i + 1
  ixnew : s.ixnew.length = s.j
  increasing : Increasing s.J len0 len1
  pos : 0 < s.j
  top : s.j ≤ len1 + 1
  le : ∀ k, i < k → k ≤ len0 → s.J k ≠ 0 → s.j ≤ s.J k

section Counted

variable {len0 len1 i : ℕ} {s : Check}

theorem Increasing.zero {J : ℕ → ℕ} (h : Increasing J len0 len1) (i : ℕ) :
    Increasing (update J i 0) len0 len1 := by
  refine ⟨fun k hk hle => ?_, fun k k' hk hlt hle hJ hJ' => ?_⟩
  · by_cases heq : k = i
    · rw [heq, update_self]
      exact len1.zero_le
    · rw [update_of_ne heq]
      exact h.le k hk hle
  · have hne : ∀ {k}, update J i 0 k ≠ 0 → update J i 0 k = J k := by
      intro k hJ
      refine update_of_ne ?_ _ _
      rintro rfl
      exact hJ (update_self _ _ _)
    have heq := hne hJ
    have heq' := hne hJ'
    rw [heq] at hJ ⊢
    rw [heq'] at hJ' ⊢
    exact h.lt k k' hk hlt hle hJ hJ'

theorem skipTo_counted {last : ℕ} (fuel : ℕ) (hle : s.j ≤ last) (hfuel : last ≤ s.j + fuel)
    (h : s.ixnew.length = s.j) :
    (Check.skipTo last fuel s).j = last ∧ (Check.skipTo last fuel s).ixnew.length = last ∧
      (Check.skipTo last fuel s).J = s.J ∧ (Check.skipTo last fuel s).ixold = s.ixold := by
  induction fuel generalizing s with
  | zero =>
    have heq : s.j = last := le_antisymm hle hfuel
    exact ⟨heq, h.trans heq, rfl, rfl⟩
  | succ fuel ih =>
    rw [Check.skipTo]
    split_ifs with hlt
    · refine @ih s.skipNew hlt (by change last ≤ s.j + 1 + fuel; omega) ?_
      change (s.ixnew ++ [_]).length = s.j + 1
      rw [length_append, h]
      rfl
    · have heq : s.j = last := le_antisymm hle (not_lt.1 hlt)
      exact ⟨heq, h.trans heq, rfl, rfl⟩

theorem Counted.line (h : Counted len0 len1 i s) (hi : i < len0) :
    Counted len0 len1 (i + 1) (s.line (i + 1)) := by
  rw [Check.line]
  split_ifs with hzero
  · refine ⟨?_, h.ixnew, h.increasing, h.pos, h.top, fun k hk => h.le k (Nat.lt_of_succ_lt hk)⟩
    rw [length_append, h.ixold]
    rfl
  · have hle := h.le (i + 1) (Nat.lt_succ_self i) hi hzero
    obtain ⟨hj, hixnew, hJ, hixold⟩ := skipTo_counted (s.J (i + 1)) hle (Nat.le_add_left _ _) h.ixnew
    generalize Check.skipTo (s.J (i + 1)) (s.J (i + 1)) s = s' at hj hixnew hJ hixold ⊢
    have hlater : ∀ k, i + 1 < k → k ≤ len0 → s.J k ≠ 0 → s.J (i + 1) < s.J k := fun k hk hkle hne =>
      h.increasing.lt (i + 1) k (Nat.succ_pos i) hk hkle hzero hne
    refine ⟨?_, ?_, ?_, Nat.succ_pos _, ?_, fun k hk hkle hne => ?_⟩
    · dsimp only
      rw [length_append, hixold, h.ixold]
      rfl
    · dsimp only
      rw [length_append, hixnew, hj]
      rfl
    · dsimp only
      rw [hJ]
      split_ifs
      · exact h.increasing
      · exact h.increasing.zero _
    · dsimp only
      rw [hj]
      exact Nat.succ_le_succ (h.increasing.le (i + 1) (Nat.succ_pos i) hi)
    · have hsame : (if (compare s'.input₀ s'.input₁).1 = true then s'.J
          else update s'.J (i + 1) 0) k = s.J k := by
        rw [hJ]
        split_ifs
        · rfl
        · exact update_of_ne hk.ne' _ _
      dsimp only at hne ⊢
      rw [hsame] at hne ⊢
      rw [hj]
      exact hlater k hk hkle hne

theorem check_counted {f0 f1 : Bytes} {J : ℕ → ℕ} (hJ : Increasing J len0 len1) (hi : i ≤ len0) :
    Counted len0 len1 i ((range' 1 i).foldl Check.line ⟨f0, f1, J, 1, 0, 0, [0], [0]⟩) := by
  induction i with
  | zero =>
    exact ⟨rfl, rfl, hJ, Nat.one_pos, Nat.le_add_left _ _, fun k _ _ hne => Nat.pos_of_ne_zero hne⟩
  | succ i ih =>
    rw [range'_1_concat, foldl_append, add_comm 1 i]
    exact (ih (Nat.le_of_succ_le hi)).line hi

/-- The indexes are as long as the lines that were read, and the match vector still increases. -/
theorem check_length {J : ℕ → ℕ} (hJ : Increasing J len0 len1) (f0 f1 : Bytes) :
    (check len0 len1 f0 f1 J).ixold.length = len0 + 1 ∧ (check len0 len1 f0 f1 J).ixnew.length = len1 + 1 ∧
      Increasing (check len0 len1 f0 f1 J).J len0 len1 := by
  obtain ⟨hixold, hixnew, hinc, -, htop, -⟩ := @check_counted len0 len1 len0 f0 f1 J hJ le_rfl
  obtain ⟨-, hixnew', hJ', hixold'⟩ := skipTo_counted (len1 + 1) htop (Nat.le_add_left _ _) hixnew
  rw [check]
  exact ⟨hixold' ▸ hixold, hixnew', hJ' ▸ hinc⟩

end Counted

/-! ### Lines -/

theorem skipline_line (hl : newline ∉ l) (f : Bytes) :
    skipline (l ++ newline :: f) = (l.length + 1, f) := by
  induction l with
  | nil => rw [nil_append, skipline, if_pos rfl]; rfl
  | cons c l ih =>
    obtain ⟨hc, hl⟩ := not_or.1 (mt mem_cons.2 hl)
    rw [cons_append, skipline, if_neg (Ne.symm hc), ih hl]
    rfl

theorem compare_line {l' : Bytes} (hl : newline ∉ l) (hl' : newline ∉ l') (f f' : Bytes) :
    compare (l ++ newline :: f) (l' ++ newline :: f') =
      (decide (l = l'), (l.length + 1, f), (l'.length + 1, f')) := by
  induction l generalizing l' with
  | nil =>
    cases l' with
    | nil => rw [nil_append, nil_append, compare, if_pos rfl, if_pos rfl]; rfl
    | cons c' l' =>
      obtain ⟨hc', hl'⟩ := not_or.1 (mt mem_cons.2 hl')
      rw [nil_append, cons_append, compare, if_neg hc', if_pos rfl, if_neg (Ne.symm hc'),
        skipline_line hl']
      rfl
  | cons c l ih =>
    obtain ⟨hc, hl⟩ := not_or.1 (mt mem_cons.2 hl)
    cases l' with
    | nil =>
      rw [nil_append, cons_append, compare, if_neg (Ne.symm hc), if_neg (Ne.symm hc), if_pos rfl,
        skipline_line hl]
      rfl
    | cons c' l' =>
      obtain ⟨hc', hl'⟩ := not_or.1 (mt mem_cons.2 hl')
      rw [cons_append, cons_append, compare]
      by_cases heq : c = c'
      · rw [if_pos heq, if_neg (Ne.symm hc), ih hl hl', heq]
        simp
      · rw [if_neg heq, if_neg (Ne.symm hc), if_neg (Ne.symm hc'), skipline_line hl, skipline_line hl']
        simp [heq]

/-- What is left of a file, how much has been read of it, and the offsets, after `i` of its lines. -/
structure ReadTo (ls : List Bytes) (i : ℕ) (input : Bytes) (ct : ℕ) (ix : List ℕ) : Prop where
  le : i ≤ ls.length
  input_eq : input = text (ls.drop i)
  ct_eq : ct = (text (ls.take i)).length
  ix_eq : ix = offsets (ls.take i)

namespace ReadTo

variable {ls : List Bytes} {i : ℕ} {input : Bytes} {ct : ℕ} {ix : List ℕ}

theorem zero (ls : List Bytes) : ReadTo ls 0 (text ls) 0 [0] := ⟨Nat.zero_le _, rfl, rfl, rfl⟩

theorem line (h : ReadTo ls i input ct ix) (hi : i < ls.length) :
    input = ls[i] ++ newline :: text (ls.drop (i + 1)) := by
  rw [h.input_eq, drop_eq_getElem_cons hi, text_cons]

theorem next (h : ReadTo ls i input ct ix) (hi : i < ls.length) :
    ReadTo ls (i + 1) (text (ls.drop (i + 1))) (ct + (ls[i].length + 1))
      (ix ++ [ct + (ls[i].length + 1)]) := by
  have hct : ct + (ls[i].length + 1) = (text (ls.take (i + 1))).length := by
    rw [← take_concat_get' ls i hi, text_append, length_append, text_cons, length_append, h.ct_eq]
    rfl
  refine ⟨hi, rfl, hct, ?_⟩
  rw [offsets_take hi, range_succ, map_append, ← offsets_take h.le, ← h.ix_eq, hct]
  rfl

/-- A line is skipped. -/
theorem skip (h : ReadTo ls i input ct ix) (hls : Clean ls) (hi : i < ls.length) :
    ReadTo ls (i + 1) (skipline input).2 (ct + (skipline input).1) (ix ++ [ct + (skipline input).1]) := by
  rw [h.line hi, skipline_line (hls _ (getElem_mem hi))]
  exact h.next hi

theorem ix_all (h : ReadTo ls ls.length input ct ix) : ix = offsets ls := by
  rw [h.ix_eq, take_length]

end ReadTo

section Check

variable {old new : List Bytes} {J : ℕ → ℕ} {s : Check} {i : ℕ}

theorem skipTo_spec (hnew : Clean new) {last : ℕ} (hlast : last ≤ new.length + 1) (fuel : ℕ) (hpos : 0 < s.j)
    (hle : s.j ≤ last) (hfuel : last ≤ s.j + fuel)
    (h : ReadTo new (s.j - 1) s.input₁ s.ctnew s.ixnew) :
    ∃ input₁ ctnew ixnew, ReadTo new (last - 1) input₁ ctnew ixnew ∧ Check.skipTo last fuel s =
        { s with input₁ := input₁, j := last, ctnew := ctnew, ixnew := ixnew } := by
  induction fuel generalizing s with
  | zero =>
    obtain rfl : s.j = last := le_antisymm hle hfuel
    exact ⟨_, _, _, h, rfl⟩
  | succ fuel ih =>
    rw [Check.skipTo]
    split_ifs with hlt
    · have hskip := h.skip hnew (by omega)
      rw [Nat.sub_add_cancel hpos] at hskip
      obtain ⟨input₁, ctnew, ixnew, hread, heq⟩ := @ih s.skipNew (Nat.succ_pos _) hlt
        (by change last ≤ s.j + 1 + fuel; omega) hskip
      exact ⟨input₁, ctnew, ixnew, hread, heq⟩
    · obtain rfl : s.j = last := le_antisymm hle (not_lt.1 hlt)
      exact ⟨_, _, _, h, rfl⟩

/-- What `check` has found out after line `i` of the first file. -/
structure Checked (old new : List Bytes) (J : ℕ → ℕ) (i : ℕ) (s : Check) : Prop where
  readOld : ReadTo old i s.input₀ s.ctold s.ixold
  readNew : ReadTo new (s.j - 1) s.input₁ s.ctnew s.ixnew
  todo : ∀ k, i < k → s.J k = J k
  done : ∀ k, 0 < k → k ≤ i → s.J k = 0 ∨ s.J k = J k ∧ old[k - 1]? = new[J k - 1]?

theorem Checked.line (h : Checked old new J i s) (hcou : Counted old.length new.length i s)
    (hold : Clean old) (hnew : Clean new) (hi : i < old.length) :
    Checked old new J (i + 1) (s.line (i + 1)) := by
  have hthis := h.todo (i + 1) (Nat.lt_succ_self i)
  rw [Check.line]
  split_ifs with hzero
  · refine ⟨h.readOld.skip hold hi, h.readNew, fun k hk => h.todo k (Nat.lt_of_succ_lt hk), fun k hk hle => ?_⟩
    rcases hle.eq_or_lt with rfl | hlt
    · exact Or.inl hzero
    · exact h.done k hk (Nat.le_of_lt_succ hlt)
  · have hJle := hcou.increasing.le (i + 1) (Nat.succ_pos i) hi
    have hle := hcou.le _ (Nat.lt_succ_self i) hi hzero
    rw [hthis] at hzero hJle hle ⊢
    obtain ⟨input₁, ctnew, ixnew, hread, heq⟩ := skipTo_spec hnew (Nat.le_succ_of_le hJle) (J (i + 1))
      hcou.pos hle (Nat.le_add_left _ _) h.readNew
    have hlt : J (i + 1) - 1 < new.length := by omega
    have hcom := compare_line (hold _ (getElem_mem hi)) (hnew _ (getElem_mem hlt))
      (text (old.drop (i + 1))) (text (new.drop (J (i + 1) - 1 + 1)))
    rw [← h.readOld.line hi, ← hread.line hlt] at hcom
    dsimp only
    rw [heq]
    dsimp only
    rw [hcom]
    have hread' := hread.next hlt
    rw [Nat.sub_add_cancel (Nat.pos_of_ne_zero hzero)] at hread' ⊢
    refine ⟨h.readOld.next hi, hread', fun k hk => ?_, fun k hk hle => ?_⟩
    · rw [← h.todo k (Nat.lt_of_succ_lt hk)]
      dsimp only
      split_ifs
      · rfl
      · exact update_of_ne hk.ne' _ _
    · dsimp only
      rcases hle.eq_or_lt with rfl | hlt'
      · split_ifs with hsame
        · refine Or.inr ⟨hthis, ?_⟩
          rw [Nat.add_sub_cancel, getElem?_eq_getElem hi, getElem?_eq_getElem hlt,
            of_decide_eq_true hsame]
        · exact Or.inl (update_self _ _ _)
      · have hdone := h.done k hk (Nat.le_of_lt_succ hlt')
        split_ifs
        · exact hdone
        · rwa [update_of_ne hlt'.ne]

theorem check_checked (hold : Clean old) (hnew : Clean new) (hJ : Increasing J old.length new.length)
    (hi : i ≤ old.length) :
    Checked old new J i
      ((range' 1 i).foldl Check.line ⟨text old, text new, J, 1, 0, 0, [0], [0]⟩) := by
  induction i with
  | zero =>
    exact ⟨ReadTo.zero old, ReadTo.zero new, fun _ _ => rfl, fun k hk hle => absurd hk hle.not_gt⟩
  | succ i ih =>
    rw [range'_1_concat, foldl_append, add_comm 1 i]
    exact (ih (Nat.le_of_succ_le hi)).line (check_counted hJ (Nat.le_of_succ_le hi)) hold hnew hi

/-- What `check` leaves, when all lines were read. -/
structure IsChecked (old new : List Bytes) (J : ℕ → ℕ) (s : Check) : Prop where
  ixold : s.ixold = offsets old
  ixnew : s.ixnew = offsets new
  matched : ∀ k, 0 < k → k ≤ old.length → s.J k = 0 ∨ s.J k = J k ∧ old[k - 1]? = new[J k - 1]?

theorem check_spec (hold : Clean old) (hnew : Clean new) (hJ : Increasing J old.length new.length) :
    IsChecked old new J (check old.length new.length (text old) (text new) J) := by
  have hche := check_checked hold hnew hJ le_rfl
  have hcou := @check_counted old.length new.length old.length (text old) (text new) J hJ le_rfl
  rw [check]
  obtain ⟨input₁, ctnew, ixnew, hread, heq⟩ := skipTo_spec hnew le_rfl (new.length + 1) hcou.pos
    hcou.top (Nat.le_add_left _ _) hche.readNew
  rw [heq]
  exact ⟨hche.readOld.ix_all, hread.ix_all, hche.done⟩

end Check

/-!
### When `diff` is right

The hash 0 stands for the end of the file, but a line may have it too: `prepare` then leaves out that line
and all that follow it. This is all that goes wrong (`diffreg_exact`); where hashes of lines that differ are
equal, `check` takes the match back.

The sum of `readhash` is at least 1 until it overflows, so such a line is long: `hash_replicate`.
-/

/-- What `diff` should find out about two files. -/
structure Right (edit : Bool) (old new : List Bytes) (r : Result) : Prop where
  edits : Edits old new (if edit then r.changes else r.changes.reverse)
  matched : Matched old new r.J
  ixold : r.ixold = offsets old
  ixnew : r.ixnew = offsets new

section Right

variable {edit : Bool} {old new : List Bytes}

theorem offsets_length (ls : List Bytes) : (offsets ls).length = ls.length + 1 := by
  rw [offsets, length_map, length_range]

/-- Whatever was read of the files, the match vector increases. -/
theorem matchVector_increasing (f0 f1 : Bytes) :
    Increasing (matchVector (prepare f0).2 (prepare f1).2 (prepare f0).1 (prepare f1).1) (prepare f0).1
      (prepare f1).1 :=
  matchVector_spec (prepare_value f1)

theorem notsame_right (hold : Clean old) (hnew : Clean new) (h0 : ∀ l ∈ old, hash l ≠ 0)
    (h1 : ∀ l ∈ new, hash l ≠ 0) : Right edit old new (notsame edit (text old) (text new)) := by
  have hinc := matchVector_increasing (text old) (text new)
  rw [notsame]
  generalize matchVector _ _ _ _ = J at hinc ⊢
  rw [(prepare_length_eq hold).2 h0, (prepare_length_eq hnew).2 h1] at hinc ⊢
  obtain ⟨hixold, hixnew, hmat⟩ := check_spec hold hnew hinc
  have hmch : Matched old new (check old.length new.length (text old) (text new) J).J := by
    refine ⟨(check_length hinc _ _).2.2, fun i hi hle hne => ?_⟩
    obtain ⟨heq, hsame⟩ := (hmat i hi hle).resolve_left hne
    rwa [heq]
  exact ⟨output_edits hmch edit, hmch, hixold, hixnew⟩

/-- The indexes tell how many lines were read. -/
theorem Right.hash_ne_zero (hold : Clean old) (hnew : Clean new)
    (h : Right edit old new (notsame edit (text old) (text new))) :
    (∀ l ∈ old, hash l ≠ 0) ∧ ∀ l ∈ new, hash l ≠ 0 := by
  obtain ⟨hixold, hixnew, -⟩ := check_length (matchVector_increasing (text old) (text new)) (text old) (text new)
  have h0 := congrArg length h.ixold
  have h1 := congrArg length h.ixnew
  rw [offsets_length] at h0 h1
  rw [notsame] at h0 h1
  dsimp only at h0 h1
  exact ⟨(prepare_length_eq hold).1 (Nat.succ.inj (hixold.symm.trans h0)),
    (prepare_length_eq hnew).1 (Nat.succ.inj (hixnew.symm.trans h1))⟩

end Right

/-- `diff` is right about two files that differ if and only if no line of either has the hash 0. -/
theorem diffreg_exact (N_BADMAG : Bytes → Bool) (edit : Bool) {old new : List Bytes} (hold : Clean old)
    (hnew : Clean new) {r : Result} (h : diffreg N_BADMAG edit (text old) (text new) = some r) :
    Right edit old new r ↔ (∀ l ∈ old, hash l ≠ 0) ∧ ∀ l ∈ new, hash l ≠ 0 := by
  rw [diffreg] at h
  split_ifs at h
  cases h
  exact ⟨Right.hash_ne_zero hold hnew, fun ⟨h0, h1⟩ => notsame_right hold hnew h0 h1⟩

/-- `N_BADMAG`, with the magic numbers of `exec.h`. -/
def badMagic (buf : Bytes) : Bool :=
  let a_magic := (buf.take 4).foldr (fun c n => c.toNat + 256 * n) 0
  !([0o407, 0o410, 0o413].contains a_magic)

/-- Two files of two lines, of which the first is the same. -/
theorem diffreg_exact_two : Right true [[97], [98]] [[97], [99]]
    (notsame true (text [[97], [98]]) (text [[97], [99]])) := by
  have hold : Clean [[97], [98]] := by decide
  have hnew : Clean [[97], [99]] := by decide
  have hdif : diffreg badMagic true (text [[97], [98]]) (text [[97], [99]]) =
      some (notsame true (text [[97], [98]]) (text [[97], [99]])) := by
    rw [diffreg, if_neg (by decide), if_pos (by decide)]
  exact (diffreg_exact badMagic true hold hnew hdif).2 (by decide)

/-! ### A line with the hash 0 -/

/-- What the characters of a line add to the sum of `readhash`. -/
def total : ℕ → Bytes → ℤ
  | _, [] => 0
  | shift, t :: l => t.toNat * 2 ^ (shift % HALFLONG) + total (shift % HALFLONG + 7) l

theorem readhashLoop_total (hl : newline ∉ l) (sum : ℤ) (shift : ℕ) (f : Bytes) :
    readhashLoop (long sum) shift (l ++ newline :: f) = (fold (long (sum + total shift l)), f) := by
  induction l generalizing sum shift with
  | nil => rw [nil_append, readhashLoop, if_pos rfl, total, add_zero]
  | cons t l ih =>
    obtain ⟨ht, hl⟩ := not_or.1 (mt mem_cons.2 hl)
    rw [cons_append, readhashLoop, if_neg (Ne.symm ht)]
    dsimp only
    have hlong : long (long sum + t.toNat * 2 ^ (shift % HALFLONG)) =
        long (sum + t.toNat * 2 ^ (shift % HALFLONG)) := Int.bmod_add_bmod
    rw [hlong, ih hl, total, add_assoc]

/-- After sixteen characters, one has been shifted by each number of places. -/
theorem total_sixteen (hshift : shift % HALFLONG = 0) (l : Bytes) :
    total shift (replicate 16 122 ++ l) = 122 * 65535 + total 16 l := by
  have hshift' : shift % 16 = 0 := hshift
  simp only [replicate, cons_append, nil_append, total, HALFLONG, hshift', Nat.reduceAdd,
    Nat.reduceMod]
  have htoNat : (UInt8.toNat 122 : ℤ) = 122 := rfl
  rw [htoNat]
  ring

theorem total_replicate (n : ℕ) (hshift : shift % HALFLONG = 0) :
    total shift (replicate (16 * n) 122) = n * (122 * 65535) := by
  induction n generalizing shift with
  | zero => rw [Nat.cast_zero, zero_mul]; rfl
  | succ n ih =>
    rw [Nat.mul_succ, add_comm, ← replicate_append_replicate, total_sixteen hshift, ih rfl]
    push_cast
    ring

theorem newline_notMem_replicate (n : ℕ) : newline ∉ replicate n 122 := fun h =>
  absurd (eq_of_mem_replicate h) (by decide)

theorem hash_replicate : hash (replicate (16 * 269) 122) = 0 := by
  have hsum := readhashLoop_total (newline_notMem_replicate (16 * 269)) 1 0 []
  rw [total_replicate 269 rfl] at hsum
  rw [hash, readhash]
  refine (congrArg Prod.fst hsum).trans ?_
  -- the sum is a multiple of 65535 below 0, whose halves add up to 0
  decide +kernel

/-- A line of 4304 times the character `z` is taken for the end of the file, so that `diff` finds a line to be
    added where it is one to be replaced. -/
theorem line_lost : ∃ r, diffreg badMagic false (text [replicate (16 * 269) 122]) (text [[97]]) = some r ∧
    r.changes = [⟨1, 0, 1, 1⟩] ∧ ¬ Right false [replicate (16 * 269) 122] [[97]] r := by
  have hold : Clean [replicate (16 * 269) 122] := by
    intro l hl
    rw [mem_singleton.1 hl]
    exact newline_notMem_replicate _
  have hlen : (prepare (text [replicate (16 * 269) 122])).1 = 0 := by
    rw [prepare_length hold, takeWhile_cons_of_neg]
    · rfl
    · rw [hash_replicate]
      decide
  have hascii : (asciifile badMagic (text [replicate (16 * 269) 122]) &&
      asciifile badMagic (text [[97]])) = true := by decide +kernel
  have hne : text [replicate (16 * 269) 122] ≠ text [[97]] := by decide +kernel
  refine ⟨notsame false (text [replicate (16 * 269) 122]) (text [[97]]), ?_, ?_, fun h => ?_⟩
  · rw [diffreg, if_neg hne, if_pos hascii]
  · rw [notsame]
    dsimp only
    rw [hlen]
    rfl
  · obtain ⟨h0, -⟩ := h.hash_ne_zero hold (by decide)
    exact h0 _ mem_cons_self hash_replicate

end Uwisc.Diff
