import Mathlib.Algebra.Order.Ring.Int
import Mathlib.Data.List.Basic

/-!
# File names that match

`gmatch` of `bin/sh/expand.c`. A name and a pattern are the characters before the NUL; what is read
beyond it is no result (`none`). A character of a pattern is quoted if its high bit is set.

What a pattern means is `Matches`: `*` stands for any string, `?` for any character, `[...]` for a
character of the class, with a pair separated by `-` for a range, and any other character, or a quoted
one, for itself. The search comes to the right answer unless it comes to one of a few things that it
does not handle (`Defect`).
-/

namespace Uwisc.Sh

open List Nat

def STRIP : UInt8 := 0o177
def MINUS : UInt8 := 45
def LBRACKET : UInt8 := 91
def RBRACKET : UInt8 := 93
def QUERY : UInt8 := 63
def STAR : UInt8 := 42

/-- A character of a pattern without the quote. -/
def strip (c : UInt8) : ℕ := (c &&& STRIP).toNat

/-- A character of a name (`scc`), which is 0 at the end. -/
def code : List UInt8 → ℕ
  | [] => 0
  | b :: _ => if strip b = 0 then 0o200 else strip b

/-! ### `gmatch` -/

/-- The loop over a class: it returns 0 (`some none`), or goes on with the rest of the pattern, or has read
    beyond the end. -/
def classLoop (scc : ℕ) : List UInt8 → ℕ → Bool → Option (Option (List UInt8))
  | [], _, _ => some none
  | c :: p, lc, ok =>
    if c = RBRACKET then if ok then some (some p) else some none
    else if c = MINUS then
      if lc ≤ scc then
        match p with
        | [] => none
        | d :: p => classLoop scc p lc (ok || decide ((scc : ℤ) ≤ d.toInt8.toInt))
      else classLoop scc p lc ok
    else classLoop scc p (strip c) (ok || decide (scc = strip c))

/-- The loop of `*` over what is left of the name. -/
def tries (f : List UInt8 → Option Bool) : List UInt8 → Option Bool
  | [] => some false
  | b :: s =>
    match f (b :: s) with
    | none => none
    | some true => some true
    | some false => tries f s

/-- `gmatch`, with calls as deep as the pattern is long. -/
def gmatch : ℕ → List UInt8 → List UInt8 → Option Bool
  | 0, _, _ => none
  | _ + 1, s, [] => some (code s = 0)
  | fuel + 1, s, c :: p =>
    if c = LBRACKET then
      match classLoop (code s) p 0o77777 false with
      | none => none
      | some none => some false
      | some (some p) =>
        match s with
        | [] => none
        | _ :: s => gmatch fuel s p
    else if c = STAR then if p = [] then some true else tries (fun s => gmatch fuel s p) s
    else if c ≠ QUERY ∧ strip c ≠ code s then some false
    else
      match s with
      | [] => some false
      | _ :: s => gmatch fuel s p

/-! ### What patterns mean -/

/-- What stands in a class: a character, or a range from one to another. -/
inductive Item
  | single (c : UInt8)
  | range (c d : UInt8)
  deriving DecidableEq

/-- The item stands for the character. -/
def Item.Covers (n : ℕ) : Item → Prop
  | single c => strip c = n
  | range c d => strip c ≤ n ∧ n ≤ strip d

instance (n : ℕ) (i : Item) : Decidable (i.Covers n) := by
  cases i with
  | single c => exact inferInstanceAs (Decidable (strip c = n))
  | range c d => exact inferInstanceAs (Decidable (strip c ≤ n ∧ n ≤ strip d))

/-- The items of a class, and the pattern after it if it is terminated. -/
def members : List UInt8 → List Item × Option (List UInt8)
  | [] => ([], none)
  | c :: p =>
    if c = RBRACKET then ([], some p)
    else
      match p with
      | d :: e :: q =>
        if d = MINUS ∧ e ≠ RBRACKET then (.range c e :: (members q).1, (members q).2)
        else (.single c :: (members (d :: e :: q)).1, (members (d :: e :: q)).2)
      | p => (.single c :: (members p).1, (members p).2)

/-- The class stands for the character. -/
def Covered (items : List Item) (n : ℕ) : Prop := ∃ i ∈ items, i.Covers n

instance (items : List Item) (n : ℕ) : Decidable (Covered items n) := decidableBEx _ items

/-- The characters that do not stand for themselves. -/
def Special (c : UInt8) : Prop := c = LBRACKET ∨ c = QUERY ∨ c = STAR

/-- The whole name is what the pattern stands for. -/
inductive Matches : List UInt8 → List UInt8 → Prop
  | nil : Matches [] []
  | any {b : UInt8} {s p : List UInt8} : Matches s p → Matches (b :: s) (QUERY :: p)
  | star {s p : List UInt8} (u : List UInt8) : Matches s p → Matches (u ++ s) (STAR :: p)
  | char {b c : UInt8} {s p : List UInt8} : ¬Special c → strip c = b.toNat → Matches s p → Matches (b :: s) (c :: p)
  | cls {b : UInt8} {s p q : List UInt8} : (members p).2 = some q → Covered (members p).1 b.toNat →
      Matches s q → Matches (b :: s) (LBRACKET :: p)

/-! ### What the search comes to -/

/-- From a name and a pattern to what is left of them, as the pattern means. `*` is tried with what is left of
    the name until it matches. -/
inductive Step : List UInt8 × List UInt8 → List UInt8 × List UInt8 → Prop
  | any {b : UInt8} {s p : List UInt8} : Step (b :: s, QUERY :: p) (s, p)
  | star {b : UInt8} {s p : List UInt8} (u : List UInt8) :
      p ≠ [] → (∀ v w, u = v ++ w → w ≠ [] → ¬Matches (w ++ b :: s) p) → Step (u ++ b :: s, STAR :: p) (b :: s, p)
  | char {b c : UInt8} {s p : List UInt8} : ¬Special c → strip c = b.toNat → Step (b :: s, c :: p) (s, p)
  | cls {b : UInt8} {s p q : List UInt8} : (members p).2 = some q → Covered (members p).1 b.toNat →
      Step (b :: s, LBRACKET :: p) (s, q)

/-- An item that is handled as it should be: a `-` is between two characters, the second of which is not
    quoted if it matters, and the range does not go down to the character. -/
def Item.Plain (scc : ℕ) : Item → Prop
  | single c => c ≠ MINUS
  | range c d => c ≠ MINUS ∧ (128 ≤ d.toNat → ¬(strip c < scc ∧ scc ≤ strip d)) ∧
      (strip d < strip c → scc ≠ strip c ∧ (d ≠ MINUS → scc ≠ strip d))

/-- What is not handled: two stars at the end when nothing is left of the name; a class with an item that is not
    `Plain`; and characters that are taken for others, without their high bits or for the end of the name. -/
inductive Defect : List UInt8 × List UInt8 → Prop
  | stars {p : List UInt8} : p ≠ [] → (∀ c ∈ p, c = STAR) → Defect ([], STAR :: p)
  | plain {s p : List UInt8} {i : Item} : i ∈ (members p).1 → ¬i.Plain (code s) → Defect (s, LBRACKET :: p)
  | ended {p q : List UInt8} : (members p).2 = some q → Covered (members p).1 0 → Defect ([], LBRACKET :: p)
  | high {b : UInt8} {s p q : List UInt8} : (members p).2 = some q → Covered (members p).1 (code (b :: s)) →
      ¬Covered (members p).1 b.toNat → Defect (b :: s, LBRACKET :: p)
  | char {b c : UInt8} {s p : List UInt8} : ¬Special c → strip c = code (b :: s) → strip c ≠ b.toNat →
      Defect (b :: s, c :: p)

/-! ### Classes -/

section Class

variable {scc lc : ℕ} {ok : Bool} {c d : UInt8} {p q : List UInt8} {items : List Item} {i : Item}

theorem classLoop_char (hc : c ≠ RBRACKET) (hminus : c ≠ MINUS) :
    classLoop scc (c :: p) lc ok = classLoop scc p (strip c) (ok || decide (scc = strip c)) := by
  rw [classLoop.eq_def]
  dsimp only
  rw [if_neg hc, if_neg hminus]

theorem classLoop_skip (h : scc < lc) : classLoop scc (MINUS :: p) lc ok = classLoop scc p lc ok := by
  rw [classLoop.eq_def]
  dsimp only
  rw [if_neg (by decide), if_pos rfl, if_neg (Nat.not_le.2 h)]

theorem classLoop_range (h : lc ≤ scc) : classLoop scc (MINUS :: d :: p) lc ok =
    classLoop scc p lc (ok || decide ((scc : ℤ) ≤ d.toInt8.toInt)) := by
  rw [classLoop.eq_def]
  dsimp only
  rw [if_neg (by decide), if_pos rfl, if_pos h]

theorem covered_cons : Covered (i :: items) scc ↔ i.Covers scc ∨ Covered items scc := exists_mem_cons_iff _ _ _

theorem strip_of_lt (h : c.toNat < 128) : strip c = c.toNat := by
  rw [strip, UInt8.toNat_and]
  exact and_two_pow_sub_one_of_lt_two_pow (show c.toNat < 2 ^ 7 from h)

theorem toInt8_toInt (c : UInt8) : c.toInt8.toInt = if c.toNat < 128 then (c.toNat : ℤ) else c.toNat - 256 := by
  have hbits : c.toInt8.toInt = c.toBitVec.toInt := rfl
  rw [hbits, BitVec.toInt_eq_toNat_cond]
  change (if 2 * c.toNat < 2 ^ 8 then (c.toNat : ℤ) else c.toNat - (2 ^ 8 : ℕ)) = _
  split_ifs <;> omega

/-- A character that is not quoted is compared as it is, and a quoted one is a negative number. -/
theorem toInt8_of_lt (h : c.toNat < 128) : c.toInt8.toInt = c.toNat := by
  rw [toInt8_toInt, if_pos h]

theorem toInt8_of_ge (h : 128 ≤ c.toNat) : c.toInt8.toInt < 0 := by
  have hlt := c.toNat_lt
  rw [toInt8_toInt, if_neg (Nat.not_lt.2 h)]
  omega

/-- What the loop makes of a range, whose first character was compared before. -/
theorem range_ok (h : (Item.range c d).Plain scc) (hle : strip c ≤ scc) :
    scc = strip c ∨ (scc : ℤ) ≤ d.toInt8.toInt ↔ (Item.range c d).Covers scc := by
  obtain ⟨-, hquo, hdown⟩ := h
  rw [Item.Covers]
  by_cases hd : d.toNat < 128
  · rw [toInt8_of_lt hd, strip_of_lt hd] at *
    omega
  · have hneg := toInt8_of_ge (Nat.not_lt.1 hd)
    have hquo := hquo (Nat.not_lt.1 hd)
    omega

/-- The statement of `classLoop_eq`. -/
def Reads (scc : ℕ) (p : List UInt8) : Prop := ∀ lc ok, (∀ i ∈ (members p).1, i.Plain scc) →
  classLoop scc p lc ok = some (if ok = true ∨ Covered (members p).1 scc then (members p).2 else none)

theorem Reads.single (h : Reads scc p) (hc : c ≠ RBRACKET)
    (hmemb : members (c :: p) = (.single c :: (members p).1, (members p).2)) : Reads scc (c :: p) := by
  intro lc ok hpln
  rw [hmemb] at hpln ⊢
  obtain ⟨hminus, hpln⟩ := forall_mem_cons.1 hpln
  rw [classLoop_char hc hminus, h _ _ hpln]
  refine congrArg some (if_congr ?_ rfl rfl)
  rw [Bool.or_eq_true, decide_eq_true_eq, or_assoc, covered_cons, Item.Covers, @eq_comm _ scc]

theorem Reads.range (h : Reads scc q) (hc : c ≠ RBRACKET) (hd : d ≠ RBRACKET)
    (hmemb : members (c :: MINUS :: d :: q) = (.range c d :: (members q).1, (members q).2)) :
    Reads scc (c :: MINUS :: d :: q) := by
  intro lc ok hpln
  rw [hmemb] at hpln ⊢
  obtain ⟨hitem, hrs⟩ := forall_mem_cons.1 hpln
  have hdown := hitem.2.2
  rw [classLoop_char hc hitem.1]
  by_cases hle : strip c ≤ scc
  · rw [classLoop_range hle, h _ _ hrs]
    refine congrArg some (if_congr ?_ rfl rfl)
    rw [Bool.or_eq_true, Bool.or_eq_true, decide_eq_true_eq, decide_eq_true_eq, covered_cons, ← range_ok hitem hle]
    simp only [or_assoc]
  · have hlt : scc < strip c := Nat.not_le.1 hle
    have hne : scc ≠ strip c := hlt.ne
    rw [classLoop_skip hlt]
    by_cases hminus : d = MINUS
    · subst hminus
      rw [classLoop_skip hlt, h _ _ hrs]
      refine congrArg some (if_congr ?_ rfl rfl)
      rw [Bool.or_eq_true, decide_eq_true_eq, covered_cons, Item.Covers]
      simp only [hne, hle, false_and, false_or, or_false]
    · have hend : scc ≠ strip d := by
        rintro rfl
        exact (hdown hlt).2 hminus rfl
      rw [classLoop_char hd hminus, h _ _ hrs]
      refine congrArg some (if_congr ?_ rfl rfl)
      rw [Bool.or_eq_true, Bool.or_eq_true, decide_eq_true_eq, decide_eq_true_eq, covered_cons, Item.Covers]
      simp only [hne, hle, hend, false_and, false_or, or_false]

/-- The loop goes on after a class of plain items that stands for the character. -/
theorem classLoop_eq (scc : ℕ) (p : List UInt8) : Reads scc p := by
  induction p using members.induct with
  | case1 =>
    intro lc ok _
    rw [classLoop, members, ite_self]
  | case2 p =>
    intro lc ok _
    have hmemb : members (RBRACKET :: p) = ([], some p) := by
      rw [members.eq_def]
      exact if_pos rfl
    have hnone : ¬Covered [] scc := fun ⟨_, hi, _⟩ => not_mem_nil hi
    rw [classLoop.eq_def, hmemb]
    dsimp only
    rw [if_pos rfl]
    cases ok with
    | false => rw [if_neg Bool.false_ne_true, if_neg (not_or.2 ⟨Bool.false_ne_true, hnone⟩)]
    | true => rw [if_pos rfl, if_pos (.inl rfl)]
  | case3 c hc d e q h ih =>
    obtain ⟨rfl, he⟩ := h
    refine ih.range hc he ?_
    rw [members.eq_def]
    dsimp only
    rw [if_neg hc, if_pos ⟨rfl, he⟩]
  | case4 c hc d e q h ih =>
    refine ih.single hc ?_
    rw [members.eq_def]
    dsimp only
    rw [if_neg hc, if_neg h]
  | case5 c hc p h ih =>
    refine ih.single hc ?_
    rcases p with _ | ⟨d, _ | ⟨e, q⟩⟩
    · rw [members.eq_def]
      dsimp only
      rw [if_neg hc]
    · rw [members.eq_def]
      dsimp only
      rw [if_neg hc]
    · exact (h d e q rfl).elim

/-- What is left after a class is shorter. -/
theorem length_members (h : (members p).2 = some q) : q.length < p.length := by
  induction p using members.induct with
  | case1 => cases h
  | case2 p =>
    rw [members.eq_def] at h
    obtain rfl : p = q := Option.some_inj.1 h
    exact lt_succ_self _
  | case3 c hc d e p hd ih =>
    rw [members.eq_def] at h
    dsimp only at h
    rw [if_neg hc, if_pos hd] at h
    simp only [length_cons]
    have := ih h
    omega
  | case4 c hc d e p hd ih =>
    rw [members.eq_def] at h
    dsimp only at h
    rw [if_neg hc, if_neg hd] at h
    exact lt_succ_of_lt (ih h)
  | case5 c hc p hp ih =>
    rcases p with _ | ⟨d, _ | ⟨e, p⟩⟩
    · rw [members.eq_def] at h
      dsimp only at h
      rw [if_neg hc] at h
      cases h
    · rw [members.eq_def] at h
      dsimp only at h
      rw [if_neg hc] at h
      exact lt_succ_of_lt (ih h)
    · exact (hp d e p rfl).elim

end Class

/-! ### The search -/

section Search

variable {s p q : List UInt8} {b c : UInt8}

theorem strip_le (c : UInt8) : strip c ≤ 127 := by
  rw [strip, UInt8.toNat_and]
  exact and_le_right

theorem code_ne_zero : code (b :: s) ≠ 0 := by
  rw [code]
  split_ifs with h
  · decide
  · exact h

/-- A character that something of a pattern stands for is compared as it is. -/
theorem code_of_lt (hb : b ≠ 0) (h : b.toNat < 128) : code (b :: s) = b.toNat := by
  have hne : b.toNat ≠ 0 := fun h => hb (UInt8.toNat_inj.1 h)
  rw [code, strip_of_lt h, if_neg hne]

theorem Covered.lt {items : List Item} {n : ℕ} (h : Covered items n) : n < 128 := by
  obtain ⟨i, -, hi⟩ := h
  cases i with
  | single c =>
    have hle := strip_le c
    rw [Item.Covers] at hi
    omega
  | range c d =>
    have hle := strip_le d
    rw [Item.Covers] at hi
    omega

/-- Only stars stand for nothing. -/
theorem Matches.stars (h : Matches [] p) : ∀ c ∈ p, c = STAR := by
  generalize hs : ([] : List UInt8) = s at h
  induction h with
  | nil => exact fun _ hc => absurd hc not_mem_nil
  | any => cases hs
  | star u _ ih =>
    exact forall_mem_cons.2 ⟨rfl, ih (append_eq_nil_iff.1 hs.symm).2.symm⟩
  | char => cases hs
  | cls => cases hs

/-- They stand for everything. -/
theorem matches_stars (hp : p ≠ []) (h : ∀ c ∈ p, c = STAR) (s : List UInt8) : Matches s p := by
  induction p generalizing s with
  | nil => exact absurd rfl hp
  | cons c p ih =>
    obtain ⟨rfl, hrs⟩ := forall_mem_cons.1 h
    rcases eq_or_ne p [] with rfl | hne
    · have hall := Matches.star s .nil
      rwa [append_nil] at hall
    · exact Matches.star [] (ih hne hrs s)

/-- The answer is right. -/
def Right (r : Option Bool) (s p : List UInt8) : Prop := ∃ a, r = some a ∧ (a = true ↔ Matches s p)

variable {r : Option Bool} {fuel : ℕ}

theorem Right.of_true (hr : r = some true) (h : Matches s p) : Right r s p :=
  ⟨true, hr, iff_of_true rfl h⟩

theorem Right.of_false (hr : r = some false) (h : ¬Matches s p) : Right r s p :=
  ⟨false, hr, iff_of_false Bool.false_ne_true h⟩

/-- The loop of `*`, if each of its calls is right: `u` is what was passed over, and did not match. -/
theorem tries_right {f : List UInt8 → Option Bool} (u : List UInt8)
    (hu : ∀ v w, u = v ++ w → w ≠ [] → ¬Matches (w ++ s) p)
    (hf : ∀ v t, s = v ++ t → t ≠ [] → (∀ v' w, u ++ v = v' ++ w → w ≠ [] → ¬Matches (w ++ t) p) → Right (f t) t p) :
    ∃ a, tries f s = some a ∧ (a = true ↔ ∃ v t, s = v ++ t ∧ t ≠ [] ∧ Matches t p) := by
  induction s generalizing u with
  | nil =>
    refine ⟨false, rfl, iff_of_false Bool.false_ne_true ?_⟩
    rintro ⟨v, t, hs, ht, -⟩
    exact ht (append_eq_nil_iff.1 hs.symm).2
  | cons b s ih =>
    obtain ⟨a, ha, hmch⟩ := hf [] (b :: s) rfl (cons_ne_nil _ _) (by rwa [append_nil])
    rw [tries, ha]
    cases a with
    | true => exact ⟨true, rfl, iff_of_true rfl ⟨[], b :: s, rfl, cons_ne_nil _ _, hmch.1 rfl⟩⟩
    | false =>
      have hno : ¬Matches (b :: s) p := fun h => Bool.false_ne_true (hmch.2 h)
      have hu' : ∀ v w, u ++ [b] = v ++ w → w ≠ [] → ¬Matches (w ++ s) p := by
        intro v w hvw hw
        rcases w.eq_nil_or_concat with rfl | ⟨w', b', rfl⟩
        · exact absurd rfl hw
        · rw [concat_eq_append] at hvw ⊢
          rw [← append_assoc] at hvw
          obtain ⟨huw, hb⟩ := append_inj' hvw rfl
          obtain rfl : b = b' := (cons.inj hb).1
          rw [append_assoc, singleton_append]
          rcases eq_or_ne w' [] with rfl | hw'
          · exact hno
          · exact hu v w' huw hw'
      have hf' : ∀ v t, s = v ++ t → t ≠ [] →
          (∀ v' w, u ++ [b] ++ v = v' ++ w → w ≠ [] → ¬Matches (w ++ t) p) → Right (f t) t p := by
        intro v t hs ht hbef
        refine hf (b :: v) t (by rw [hs, cons_append]) ht fun v' w hvw hw => hbef v' w ?_ hw
        rw [append_assoc]
        exact hvw
      obtain ⟨a, ha, hrs⟩ := ih (u ++ [b]) hu' hf'
      refine ⟨a, ha, hrs.trans ⟨?_, ?_⟩⟩
      · rintro ⟨v, t, rfl, ht, hmch⟩
        exact ⟨b :: v, t, rfl, ht, hmch⟩
      · rintro ⟨v, t, hs, ht, hmch⟩
        cases v with
        | nil =>
          obtain rfl : b :: s = t := hs
          exact absurd hmch hno
        | cons b' v => exact ⟨v, t, (cons.inj hs).2, ht, hmch⟩

/-- The search does not come to anything that it does not handle. -/
def Avoids (s p : List UInt8) : Prop := ∀ t q, Relation.ReflTransGen Step (s, p) (t, q) → ¬Defect (t, q)

theorem Avoids.step {t : List UInt8} (h : Avoids s p) (hstep : Step (s, p) (t, q)) : Avoids t q :=
  fun t' q' hrch => h t' q' (.head hstep hrch)

theorem Avoids.not_defect (h : Avoids s p) : ¬Defect (s, p) := h s p .refl

theorem notMem_append_left {u : List UInt8} (h : 0 ∉ u ++ s) : 0 ∉ s := fun hmem => h (mem_append_right u hmem)

/-- What is asked for of the calls that are made. -/
def Calls (fuel : ℕ) : Prop := ∀ s p : List UInt8, 0 ∉ s → p.length < fuel → Avoids s p → Right (gmatch fuel s p) s p

/-- What is left of the pattern must match what is left of the name. -/
theorem Matches.cons_inv (h : Matches s (c :: p)) :
    (c = QUERY ∧ ∃ b t, s = b :: t ∧ Matches t p) ∨ (c = STAR ∧ ∃ u t, s = u ++ t ∧ Matches t p) ∨
    (¬Special c ∧ ∃ b t, s = b :: t ∧ strip c = b.toNat ∧ Matches t p) ∨
    (c = LBRACKET ∧ ∃ b t q, s = b :: t ∧ (members p).2 = some q ∧ Covered (members p).1 b.toNat ∧ Matches t q) := by
  generalize hq : c :: p = q at h
  cases h with
  | nil => cases hq
  | any h =>
    cases hq
    exact .inl ⟨rfl, _, _, rfl, h⟩
  | star u h =>
    cases hq
    exact .inr (.inl ⟨rfl, u, _, rfl, h⟩)
  | char hc heq h =>
    cases hq
    exact .inr (.inr (.inl ⟨hc, _, _, rfl, heq, h⟩))
  | cls hend hcov h =>
    cases hq
    exact .inr (.inr (.inr ⟨rfl, _, _, _, rfl, hend, hcov, h⟩))

theorem not_matches_nil : ¬Matches (b :: s) [] := by
  intro h
  generalize ht : b :: s = t at h
  generalize hp : ([] : List UInt8) = p at h
  cases h with
  | nil => cases ht
  | any => cases hp
  | star => cases hp
  | char => cases hp
  | cls => cases hp

theorem Matches.class_inv (h : Matches s (LBRACKET :: p)) : ∃ b t q, s = b :: t ∧ (members p).2 = some q ∧
    Covered (members p).1 b.toNat ∧ Matches t q := by
  rcases h.cons_inv with ⟨hc, -⟩ | ⟨hc, -⟩ | ⟨hc, -⟩ | ⟨-, h⟩
  · exact absurd hc (by decide)
  · exact absurd hc (by decide)
  · exact absurd (.inl rfl) hc
  · exact h

theorem Matches.star_inv (h : Matches s (STAR :: p)) : ∃ u t, s = u ++ t ∧ Matches t p := by
  rcases h.cons_inv with ⟨hc, -⟩ | ⟨-, h⟩ | ⟨hc, -⟩ | ⟨hc, -⟩
  · exact absurd hc (by decide)
  · exact h
  · exact absurd (.inr (.inr rfl)) hc
  · exact absurd hc (by decide)

/-- A character that matches is the first one of the name, as it is compared. -/
theorem Matches.char_inv (hs : 0 ∉ s) (hclass : c ≠ LBRACKET) (hstar : c ≠ STAR) (h : Matches s (c :: p)) :
    ∃ b t, s = b :: t ∧ Matches t p ∧ (c ≠ QUERY → strip c = code s) := by
  rcases h.cons_inv with ⟨hc, b, t, rfl, hrs⟩ | ⟨hc, -⟩ | ⟨-, b, t, rfl, heq, hrs⟩ | ⟨hc, -⟩
  · exact ⟨b, t, rfl, hrs, fun hne => absurd hc hne⟩
  · exact absurd hc hstar
  · have hb : b ≠ 0 := fun hb => hs (hb ▸ mem_cons_self)
    have hle := strip_le c
    exact ⟨b, t, rfl, hrs, fun _ => heq.trans (code_of_lt hb (by omega)).symm⟩
  · exact absurd hc hclass

theorem gmatch_class (ih : Calls fuel) (hs : 0 ∉ s) (hfuel : p.length < fuel)
    (h : Avoids s (LBRACKET :: p)) : Right (gmatch (fuel + 1) s (LBRACKET :: p)) s (LBRACKET :: p) := by
  have hpln : ∀ i ∈ (members p).1, i.Plain (code s) := fun i hi =>
    by_contra fun hnot => h.not_defect (.plain hi hnot)
  have hloop := classLoop_eq (code s) p 0o77777 false hpln
  rw [gmatch.eq_def]
  dsimp only
  rw [if_pos rfl, hloop]
  by_cases hcov : Covered (members p).1 (code s)
  · rw [if_pos (.inr hcov)]
    cases hend : (members p).2 with
    | none =>
      refine .of_false rfl fun hm => ?_
      obtain ⟨b, t, q, -, hq, -⟩ := hm.class_inv
      rw [hend] at hq
      cases hq
    | some q =>
      cases s with
      | nil => exact absurd (.ended hend hcov) h.not_defect
      | cons b s =>
        have hb : Covered (members p).1 b.toNat := by_contra fun hnot => h.not_defect (.high hend hcov hnot)
        obtain ⟨a, ha, hmch⟩ := ih s q (fun h0 => hs (mem_cons_of_mem b h0))
          ((length_members hend).trans hfuel) (h.step (.cls hend hb))
        refine ⟨a, ha, hmch.trans ⟨.cls hend hb, fun hm => ?_⟩⟩
        obtain ⟨b', t, q', heq, hq', -, hm⟩ := hm.class_inv
        cases heq
        rw [hend] at hq'
        cases hq'
        exact hm
  · rw [if_neg (not_or.2 ⟨Bool.false_ne_true, hcov⟩)]
    refine .of_false rfl fun hm => ?_
    obtain ⟨b, t, q, rfl, -, hb, -⟩ := hm.class_inv
    have hb0 : b ≠ 0 := fun hb => hs (hb ▸ mem_cons_self)
    rw [code_of_lt hb0 hb.lt] at hcov
    exact hcov hb

theorem gmatch_star (ih : Calls fuel) (hs : 0 ∉ s) (hfuel : p.length < fuel)
    (h : Avoids s (STAR :: p)) : Right (gmatch (fuel + 1) s (STAR :: p)) s (STAR :: p) := by
  rw [gmatch.eq_def]
  dsimp only
  rw [if_neg (by decide), if_pos rfl]
  by_cases hp : p = []
  · subst hp
    have hall := Matches.star s .nil
    rw [append_nil] at hall
    exact .of_true (if_pos rfl) hall
  · rw [if_neg hp]
    obtain ⟨a, ha, hmch⟩ := @tries_right s p (fun s => gmatch fuel s p) [] (fun v w hvw hw => by
      exact absurd (append_eq_nil_iff.1 hvw.symm).2 hw) (fun v t hst ht hbef => by
        subst hst
        cases t with
        | nil => exact absurd rfl ht
        | cons b t => exact ih (b :: t) p (notMem_append_left hs) hfuel (h.step (.star v hp hbef)))
    refine ⟨a, ha, hmch.trans ⟨?_, fun hm => ?_⟩⟩
    · rintro ⟨v, t, rfl, -, hm⟩
      exact .star v hm
    · obtain ⟨u, t, rfl, hrs⟩ := hm.star_inv
      cases t with
      | cons b t => exact ⟨u, b :: t, rfl, cons_ne_nil b t, hrs⟩
      | nil =>
        -- only stars are left: they match all of the name, if there is anything left of it
        rw [append_nil] at *
        cases u with
        | nil => exact absurd (.stars hp hrs.stars) h.not_defect
        | cons b u => exact ⟨[], b :: u, rfl, cons_ne_nil b u, matches_stars hp hrs.stars _⟩

theorem gmatch_char (ih : Calls fuel) (hs : 0 ∉ s) (hfuel : p.length < fuel) (hclass : c ≠ LBRACKET)
    (hstar : c ≠ STAR) (h : Avoids s (c :: p)) : Right (gmatch (fuel + 1) s (c :: p)) s (c :: p) := by
  rw [gmatch.eq_def]
  dsimp only
  rw [if_neg hclass, if_neg hstar]
  by_cases hne : c ≠ QUERY ∧ strip c ≠ code s
  · rw [if_pos hne]
    refine .of_false rfl fun hm => ?_
    obtain ⟨b, t, -, -, heq⟩ := hm.char_inv hs hclass hstar
    exact hne.2 (heq hne.1)
  · rw [if_neg hne]
    cases s with
    | nil =>
      refine .of_false rfl fun hm => ?_
      obtain ⟨b, t, heq, -⟩ := hm.char_inv hs hclass hstar
      cases heq
    | cons b s =>
      obtain ⟨hstep, hback⟩ : Step (b :: s, c :: p) (s, p) ∧ (Matches s p → Matches (b :: s) (c :: p)) := by
        by_cases hquery : c = QUERY
        · subst hquery
          exact ⟨.any, .any⟩
        · have hspe : ¬Special c := fun hc => hc.elim hclass fun hc => hc.elim hquery hstar
          have hcode : strip c = code (b :: s) := not_not.1 fun hcode => hne ⟨hquery, hcode⟩
          have hb : strip c = b.toNat := not_not.1 fun hb => h.not_defect (.char hspe hcode hb)
          exact ⟨.char hspe hb, .char hspe hb⟩
      obtain ⟨a, ha, hmch⟩ := ih s p (fun h0 => hs (mem_cons_of_mem b h0)) hfuel (h.step hstep)
      refine ⟨a, ha, hmch.trans ⟨hback, fun hm => ?_⟩⟩
      obtain ⟨b', t, heq, hrs, -⟩ := hm.char_inv hs hclass hstar
      cases heq
      exact hrs

theorem gmatch_calls (fuel : ℕ) : Calls fuel := by
  induction fuel with
  | zero => exact fun s p _ hfuel => absurd hfuel (Nat.not_lt_zero _)
  | succ fuel ih =>
    intro s p hs hfuel h
    cases p with
    | nil =>
      cases s with
      | nil => exact .of_true rfl .nil
      | cons b s => exact .of_false (congrArg some (decide_eq_false code_ne_zero)) not_matches_nil
    | cons c p =>
      rw [length_cons, succ_lt_succ_iff] at hfuel
      by_cases hclass : c = LBRACKET
      · subst hclass
        exact gmatch_class ih hs hfuel h
      · by_cases hstar : c = STAR
        · subst hstar
          exact gmatch_star ih hs hfuel h
        · exact gmatch_char ih hs hfuel hclass hstar h

end Search

/-! ### When it is right -/

section Exact

variable {s p q : List UInt8} {scc lc : ℕ} {ok : Bool}

/-- What is left after the loop is shorter, whatever the class is. -/
theorem length_classLoop (h : classLoop scc p lc ok = some (some q)) : q.length < p.length := by
  fun_induction classLoop scc p lc ok with
  | case1 => cases h
  | case2 =>
    cases h
    exact lt_succ_self _
  | case3 => cases h
  | case4 => cases h
  | case5 _ _ _ _ _ _ ih =>
    simp only [length_cons]
    have := ih h
    omega
  | case6 _ _ _ _ _ ih => exact lt_succ_of_lt (ih h)
  | case7 _ _ _ _ _ _ ih => exact lt_succ_of_lt (ih h)

theorem tries_congr {f g : List UInt8 → Option Bool} (h : ∀ s, f s = g s) (s : List UInt8) : tries f s = tries g s :=
  congrArg (tries · s) (funext h)

/-- The calls are never deeper than the pattern is long: that there is no result is always that something
    beyond an end is read. -/
theorem gmatch_fuel {fuel fuel' : ℕ} (hfuel : p.length < fuel) (hfuel' : p.length < fuel') :
    gmatch fuel s p = gmatch fuel' s p := by
  induction fuel generalizing fuel' s p with
  | zero => exact absurd hfuel (Nat.not_lt_zero _)
  | succ fuel ih =>
    cases fuel' with
    | zero => exact absurd hfuel' (Nat.not_lt_zero _)
    | succ fuel' =>
      cases p with
      | nil => rfl
      | cons c p =>
        rw [length_cons, succ_lt_succ_iff] at hfuel hfuel'
        have hp (s : List UInt8) : gmatch fuel s p = gmatch fuel' s p := ih hfuel hfuel'
        rw [gmatch.eq_def, gmatch.eq_def]
        dsimp only
        rw [tries_congr hp]
        refine if_congr Iff.rfl ?_ (if_congr Iff.rfl rfl (if_congr Iff.rfl rfl ?_))
        · cases hloop : classLoop (code s) p 0o77777 false with
          | none => rfl
          | some r =>
            cases r with
            | none => rfl
            | some q =>
              have hq := length_classLoop hloop
              cases s with
              | nil => rfl
              | cons b s => exact ih (hq.trans hfuel) (hq.trans hfuel')
        · cases s with
          | nil => rfl
          | cons b s => exact hp s

/-- A name matches if and only if `gmatch` says so, and nothing beyond the ends is read, if the search does not
    come to anything that it does not handle. -/
theorem gmatch_exact (s p : List UInt8) (hs : 0 ∉ s) (h : Avoids s p) :
    ∃ a, gmatch (p.length + 1) s p = some a ∧ (a = true ↔ Matches s p) :=
  gmatch_calls (p.length + 1) s p hs (lt_succ_self _) h

theorem avoids_of (hdef : ¬Defect (s, p)) (hstep : ∀ t q, Step (s, p) (t, q) → Avoids t q) : Avoids s p := by
  intro t q hrch
  rcases hrch.cases_head with heq | ⟨⟨t', q'⟩, hfst, hrs⟩
  · cases heq
    exact hdef
  · exact hstep t' q' hfst t q hrs

theorem not_defect_star {b : UInt8} : ¬Defect (b :: s, STAR :: p) := by
  intro h
  generalize hx : (b :: s, STAR :: p) = x at h
  cases h with
  | stars => cases (Prod.mk.inj hx).1
  | plain => exact absurd (cons.inj (Prod.mk.inj hx).2).1 (by decide)
  | ended => cases (Prod.mk.inj hx).1
  | high => exact absurd (cons.inj (Prod.mk.inj hx).2).1 (by decide)
  | char hc => exact hc (.inr (.inr (cons.inj (Prod.mk.inj hx).2).1.symm))

theorem not_defect_char {b c : UInt8} (hc : ¬Special c) (hb : strip c = b.toNat) : ¬Defect (b :: s, c :: p) := by
  intro h
  generalize hx : (b :: s, c :: p) = x at h
  cases h with
  | stars => cases (Prod.mk.inj hx).1
  | plain => exact hc (.inl (cons.inj (Prod.mk.inj hx).2).1)
  | ended => cases (Prod.mk.inj hx).1
  | high => exact hc (.inl (cons.inj (Prod.mk.inj hx).2).1)
  | char _ _ hne =>
    cases hx
    exact hne hb

theorem Step.char_inv {b c : UInt8} {t : List UInt8} (hc : ¬Special c) (h : Step (b :: s, c :: p) (t, q)) :
    t = s ∧ q = p := by
  generalize hx : (b :: s, c :: p) = x at h
  cases h with
  | any => exact absurd (.inr (.inl (cons.inj (Prod.mk.inj hx).2).1)) hc
  | star => exact absurd (.inr (.inr (cons.inj (Prod.mk.inj hx).2).1)) hc
  | char =>
    cases hx
    exact ⟨rfl, rfl⟩
  | cls => exact absurd (.inl (cons.inj (Prod.mk.inj hx).2).1) hc

theorem not_step_star {x : List UInt8 × List UInt8} : ¬Step (s, [STAR]) x := by
  intro h
  generalize hx : (s, [STAR]) = y at h
  cases h with
  | any => exact absurd (cons.inj (Prod.mk.inj hx).2).1 (by decide)
  | star u hp => exact hp (cons.inj (Prod.mk.inj hx).2).2.symm
  | char hc => exact hc (.inr (.inr (cons.inj (Prod.mk.inj hx).2).1.symm))
  | cls => exact absurd (cons.inj (Prod.mk.inj hx).2).1 (by decide)

theorem not_special_a : ¬Special 97 := by
  rw [Special]
  decide

/-- The name `ab` and the pattern `a*`. -/
theorem gmatch_exact_star : ∃ a, gmatch 3 [97, 98] [97, 42] = some a ∧ (a = true ↔ Matches [97, 98] [97, 42]) := by
  refine gmatch_exact [97, 98] [97, 42] (by decide) (avoids_of (not_defect_char not_special_a (by decide)) ?_)
  intro t q h
  obtain ⟨rfl, rfl⟩ := h.char_inv not_special_a
  exact avoids_of not_defect_star fun _ _ h => absurd h not_step_star

/-- Two stars at the end stand for nothing as well, but do not match it. -/
theorem gmatch_two_stars : ¬∀ s p : List UInt8, 0 ∉ s →
    ∃ a, gmatch (p.length + 1) s p = some a ∧ (a = true ↔ Matches s p) := by
  intro h
  obtain ⟨a, ha, hmch⟩ := h [97] [97, 42, 42] (by decide)
  have hfls : gmatch 4 [97] [97, 42, 42] = some false := by decide
  obtain rfl : a = false := Option.some_inj.1 (ha.symm.trans hfls)
  exact Bool.false_ne_true (hmch.2 (.char not_special_a (by decide) (.star [] (.star [] .nil))))

end Exact

end Uwisc.Sh
