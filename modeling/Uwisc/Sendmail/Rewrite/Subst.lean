import Uwisc.Sendmail.Rewrite.Match

/-!
# One rule

A rule does what it should: it fails where its left-hand side does not match, binds its metasymbols
to the leftmost match, and substitutes these for the replacements (`Exact`). But neither the number
of metasymbols nor the lowest number of a replacement is checked, and `mlist` has nine elements,
from `$1` to `$9` (`rewriteRule_exact_iff`).
-/

namespace Uwisc.Sendmail

open Lib List Option

variable {env : Env} {lhs rhs pvp npvp v : List Token} {mlist : List Match} {rp : Token}

/-- A replacement stands for a binding. -/
def Bound (mlist : List Match) (rp : Token) : Prop :=
  rp.headD 0 = MATCHREPL → 0 ≤ index rp ∧ index rp < mlist.length

/-- What is substituted for a token of the right-hand side. -/
def piece (env : Env) (pvp : List Token) (mlist : List Match) (rp : Token) : List Token :=
  if rp.headD 0 = MATCHREPL then (mlist[(index rp).toNat]?).elim [] (Match.tokens pvp)
  else if rp.headD 0 = MACVALUE then (env.macvalue (rp.getD 1 0)).toList
  else [rp]

/-- The right-hand side with every replacement replaced by its binding. -/
def expand (env : Env) (pvp : List Token) (mlist : List Match) (rhs : List Token) : List Token :=
  rhs.flatMap (piece env pvp mlist)

/-- The room that is asked for before a token is substituted. -/
def need (env : Env) (pvp : List Token) (mlist : List Match) (rp : Token) : ℕ :=
  if rp.headD 0 = MATCHREPL then (piece env pvp mlist rp).length else 1

/-- There is room in `npvp` for every token in its turn. -/
def Room (env : Env) (pvp : List Token) (mlist : List Match) (rhs : List Token) : Prop :=
  ∀ before rp after, rhs = before ++ rp :: after →
    (expand env pvp mlist before).length + need env pvp mlist rp ≤ MAXATOM

/-- All is well up to a replacement with a number below 1. -/
def Below (env : Env) (pvp : List Token) (mlist : List Match) (rhs : List Token) : Prop :=
  ∃ before rp after, rhs = before ++ rp :: after ∧ rp.headD 0 = MATCHREPL ∧ index rp < 0 ∧
    (∀ rp ∈ before, Bound mlist rp) ∧ Room env pvp mlist before

/-- The result of a substitution is the expansion, where there is one and it has room. -/
structure Substituted (env : Env) (pvp : List Token) (mlist : List Match) (rhs : List Token)
    (result : Except Failure (List Token)) : Prop where
  ok_iff : ∀ v, result = .ok v ↔
    v = expand env pvp mlist rhs ∧ (∀ rp ∈ rhs, Bound mlist rp) ∧ Room env pvp mlist rhs
  le : ∀ v, result = .ok v → v.length ≤ MAXATOM
  inside : result ≠ .error .beforeMlist

/-- The rule does what it should with the vector. -/
structure Exact (env : Env) (lhs rhs pvp : List Token) : Prop where
  inside : ∀ s, (matching env lhs pvp).Reachable s → s.mlist.length ≤ MAXMATCH
  fails : (∀ e, ¬Splits (pattern env lhs) pvp e) → ∃ fuel, rewriteRule env lhs rhs pvp fuel = some (.next, none)
  succeeds : (∃ e, Splits (pattern env lhs) pvp e) → ∃ e, Leftmost (pattern env lhs) pvp e ∧
    ∃ fuel result, matchLoop env lhs pvp fuel .start = some (some (bindings lhs e lhs.length)) ∧
      (∀ m ∈ bindings lhs e lhs.length, 0 ≤ m.first ∧ m.first ≤ m.last + 1 ∧ m.last < pvp.length) ∧
      rewriteRule env lhs rhs pvp fuel = some ((select rhs).1, some result) ∧
      Substituted env pvp (bindings lhs e lhs.length) (select rhs).2 result

/-! ### Substituting -/

theorem copy_eq_ok (h : npvp.length ≤ MAXATOM) (ts : List Token) :
    copy npvp ts = .ok v ↔ npvp.length + ts.length ≤ MAXATOM ∧ v = npvp ++ ts := by
  induction ts generalizing npvp with
  | nil => simp [copy, h, eq_comm]
  | cons t ts ih =>
    rw [copy, length_cons]
    split_ifs with hfull
    · exact iff_of_false (by simp) fun hroom => by omega
    · rw [ih (by rw [length_append, length_singleton]; omega), length_append,
        length_singleton, add_assoc, add_comm 1, append_assoc, singleton_append]

theorem copy_ne (ts : List Token) : copy npvp ts ≠ .error .beforeMlist := by
  induction ts generalizing npvp with
  | nil => simp [copy]
  | cons t ts ih =>
    rw [copy]
    split_ifs
    · simp
    · exact ih

theorem substituteOne_eq_ok (h : npvp.length ≤ MAXATOM) :
    substituteOne env pvp mlist npvp rp = .ok v ↔
      Bound mlist rp ∧ npvp.length + need env pvp mlist rp ≤ MAXATOM ∧ v = npvp ++ piece env pvp mlist rp := by
  by_cases hrepl : rp.headD 0 = MATCHREPL
  · simp only [substituteOne, need, piece, if_pos hrepl]
    split_ifs with hneg
    · exact iff_of_false (by simp) fun hok => absurd (hok.1 hrepl).1 (not_le_of_gt hneg)
    · cases hm : mlist[(index rp).toNat]? with
      | none =>
        have hout := List.getElem?_eq_none_iff.1 hm
        refine iff_of_false (by simp) fun hok => ?_
        have := (hok.1 hrepl).2
        omega
      | some m =>
        have hin := (List.getElem?_eq_some_iff.1 hm).1
        have hbnd : Bound mlist rp := fun _ => ⟨by omega, by omega⟩
        simp only [copy_eq_ok h, hbnd, elim_some, true_and]
  · have hbnd : Bound mlist rp := fun h => absurd h hrepl
    simp only [substituteOne, need, piece, if_neg hrepl, hbnd, true_and]
    by_cases hfull : MAXATOM ≤ npvp.length
    · rw [if_pos hfull]
      exact iff_of_false (by simp) fun hok => by omega
    · rw [if_neg hfull]
      have hroom : npvp.length + 1 ≤ MAXATOM := by omega
      simp only [hroom, true_and]
      split_ifs with hmac
      · cases env.macvalue (rp.getD 1 0) <;> simp [eq_comm]
      · simp [eq_comm]

theorem substituteOne_eq_error :
    substituteOne env pvp mlist npvp rp = .error .beforeMlist ↔ rp.headD 0 = MATCHREPL ∧ index rp < 0 := by
  by_cases hrepl : rp.headD 0 = MATCHREPL
  · rw [substituteOne, if_pos hrepl, and_iff_right hrepl]
    split_ifs with hneg
    · exact iff_of_true rfl hneg
    · refine iff_of_false ?_ hneg
      cases mlist[(index rp).toNat]? with
      | none => simp
      | some m => exact copy_ne _
  · rw [substituteOne, if_neg hrepl]
    refine iff_of_false ?_ fun h => hrepl h.1
    split_ifs
    · simp
    · cases env.macvalue (rp.getD 1 0) <;> simp
    · simp

@[simp] theorem expand_concat : expand env pvp mlist (rhs ++ [rp]) =
    expand env pvp mlist rhs ++ piece env pvp mlist rp := by
  rw [expand, flatMap_append, flatMap_singleton]
  rfl

theorem piece_length_le : (piece env pvp mlist rp).length ≤ need env pvp mlist rp := by
  rw [piece, need, piece]
  split_ifs
  · exact le_rfl
  · cases env.macvalue (rp.getD 1 0) <;> simp
  · exact le_rfl

theorem room_concat : Room env pvp mlist (rhs ++ [rp]) ↔ Room env pvp mlist rhs ∧
    (expand env pvp mlist rhs).length + need env pvp mlist rp ≤ MAXATOM := by
  constructor
  · refine fun h => ⟨fun before rp' after heq => ?_, h rhs rp [] rfl⟩
    exact h before rp' (after ++ [rp]) (by rw [heq]; simp)
  · rintro ⟨h, hlast⟩ before rp' after heq
    rcases eq_nil_or_concat after with rfl | ⟨after, last, rfl⟩
    · obtain ⟨rfl, hrp⟩ := append_inj' heq rfl
      obtain rfl := singleton_inj.1 hrp
      exact hlast
    · rw [concat_eq_append, ← cons_append, ← append_assoc] at heq
      exact h before rp' after (append_inj' heq rfl).1

theorem Room.le (h : Room env pvp mlist rhs) : (expand env pvp mlist rhs).length ≤ MAXATOM := by
  rcases eq_nil_or_concat rhs with rfl | ⟨before, rp, rfl⟩
  · exact Nat.zero_le _
  · rw [concat_eq_append] at h ⊢
    rw [expand_concat, length_append]
    exact (Nat.add_le_add_left piece_length_le _).trans (room_concat.1 h).2

theorem substitute_concat : substitute env pvp mlist (rhs ++ [rp]) =
    (substitute env pvp mlist rhs).bind fun npvp => substituteOne env pvp mlist npvp rp := by
  rw [substitute, foldlM_append]
  congr 1
  funext npvp
  exact bind_pure _

theorem substitute_eq_ok : substitute env pvp mlist rhs = .ok v ↔
    v = expand env pvp mlist rhs ∧ (∀ rp ∈ rhs, Bound mlist rp) ∧ Room env pvp mlist rhs := by
  induction rhs using reverseRecOn generalizing v with
  | nil =>
    have hroom : Room env pvp mlist [] := fun before rp after heq => absurd heq (by simp)
    simp [substitute, expand, hroom, pure, Except.pure, eq_comm]
  | append_singleton rhs rp ih =>
    rw [substitute_concat, room_concat, expand_concat]
    cases hsub : substitute env pvp mlist rhs with
    | error f =>
      refine iff_of_false (by simp [Except.bind]) fun h => ?_
      have := ih.2 ⟨rfl, fun rp hrp => h.2.1 rp (mem_append_left _ hrp), h.2.2.1⟩
      rw [hsub] at this
      contradiction
    | ok npvp =>
      obtain ⟨rfl, hbnd, hroom⟩ := ih.1 hsub
      rw [Except.bind, substituteOne_eq_ok hroom.le, forall_mem_append, forall_mem_singleton]
      tauto

theorem substitute_eq_error : substitute env pvp mlist rhs = .error .beforeMlist ↔ Below env pvp mlist rhs := by
  induction rhs using reverseRecOn with
  | nil => simp [substitute, Below, pure, Except.pure]
  | append_singleton rhs rp ih =>
    rw [substitute_concat]
    -- A failure of the elements before is one of the whole.
    have hbef : Below env pvp mlist rhs → Below env pvp mlist (rhs ++ [rp]) := by
      rintro ⟨before, rp', after, rfl, hrp'⟩
      exact ⟨before, rp', after ++ [rp], by simp, hrp'⟩
    have hlast : Below env pvp mlist (rhs ++ [rp]) → Below env pvp mlist rhs ∨
        rp.headD 0 = MATCHREPL ∧ index rp < 0 ∧ (∀ rp ∈ rhs, Bound mlist rp) ∧ Room env pvp mlist rhs := by
      rintro ⟨before, rp', after, heq, hrp'⟩
      rcases eq_nil_or_concat after with rfl | ⟨after, last, rfl⟩
      · obtain ⟨rfl, hrp⟩ := append_inj' heq rfl
        obtain rfl := singleton_inj.1 hrp
        exact .inr hrp'
      · rw [concat_eq_append, ← cons_append, ← append_assoc] at heq
        exact .inl ⟨before, rp', after, (append_inj' heq rfl).1, hrp'⟩
    cases hsub : substitute env pvp mlist rhs with
    | error f =>
      rw [Except.bind, ← hsub, ih]
      refine ⟨hbef, fun h => (hlast h).elim id fun h => ?_⟩
      have := substitute_eq_ok.2 ⟨rfl, h.2.2⟩
      rw [hsub] at this
      contradiction
    | ok npvp =>
      obtain ⟨_, hbnd, hroom⟩ := substitute_eq_ok.1 hsub
      have hno : ¬Below env pvp mlist rhs := fun h => by
        rw [hsub] at ih
        exact absurd (ih.2 h) (by simp)
      rw [Except.bind, substituteOne_eq_error]
      exact ⟨fun h => ⟨rhs, rp, [], rfl, h.1, h.2, hbnd, hroom⟩,
        fun h => (hlast h).elim (absurd · hno) fun h => ⟨h.1, h.2.1⟩⟩

theorem substituted_iff : Substituted env pvp mlist rhs (substitute env pvp mlist rhs) ↔
    ¬Below env pvp mlist rhs := by
  refine ⟨fun h hblw => h.inside (substitute_eq_error.2 hblw), fun h => ⟨fun v => substitute_eq_ok, ?_, ?_⟩⟩
  · intro v hv
    obtain ⟨rfl, _, hroom⟩ := substitute_eq_ok.1 hv
    exact hroom.le
  · exact fun herr => h (substitute_eq_error.1 herr)

/-! ### The rule -/

theorem bindings_bounds {e : ℕ → ℕ} (h : Cuts (pattern env lhs) pvp lhs.length e) :
    ∀ m ∈ bindings lhs e lhs.length, 0 ≤ m.first ∧ m.first ≤ m.last + 1 ∧ m.last < pvp.length := by
  intro m hm
  obtain ⟨j, hj, rfl⟩ := List.mem_map.1 hm
  have hj : j < lhs.length := mem_range.1 (mem_filter.1 hj).1
  have htks := h.takes j hj _ (pattern_getElem (getElem?_eq_getElem hj))
  have hle := htks.le
  exact ⟨Int.natCast_nonneg _, by simpa using hle.1, by simp only; omega⟩

theorem bindings_unique {e e' : ℕ → ℕ} (h : Leftmost (pattern env lhs) pvp e)
    (h' : Leftmost (pattern env lhs) pvp e') : bindings lhs e lhs.length = bindings lhs e' lhs.length :=
  bindings_congr fun _ hj => h.unique h' (pattern_length.symm ▸ hj)

/-- A rule does what it should with a vector if and only if `mlist` has room for the metasymbols
    wherever the left-hand side matches a beginning of the vector, and no `$0` is substituted. -/
theorem rewriteRule_exact_iff : Exact env lhs rhs pvp ↔
    Fits env lhs pvp ∧ ∀ e, Leftmost (pattern env lhs) pvp e →
      ¬Below env pvp (bindings lhs e lhs.length) (select rhs).2 := by
  have hrule {fuel mlist} (h : matchLoop env lhs pvp fuel .start = some mlist) :
      rewriteRule env lhs rhs pvp fuel = some (mlist.elim (.next, none) fun mlist =>
        ((select rhs).1, some (substitute env pvp mlist (select rhs).2))) := by
    rw [rewriteRule, h, map_some]
    cases mlist <;> rfl
  constructor
  · refine fun h => ⟨inside_iff.1 h.inside, fun e he => ?_⟩
    obtain ⟨e', he', fuel, result, hloop, _, hres, hsub⟩ := h.succeeds ⟨e, he.1⟩
    rw [hrule hloop] at hres
    obtain rfl : substitute env pvp (bindings lhs e' lhs.length) (select rhs).2 = result := by
      simpa using hres
    rw [bindings_unique he he']
    exact substituted_iff.1 hsub
  · rintro ⟨hfits, hblw⟩
    have hst : Way env lhs pvp (Splits (pattern env lhs) pvp) 0 fun _ => 0 := .start
    obtain ⟨fuel, hloop⟩ := matchLoop_ends hst
    rw [← start_of] at hloop
    refine ⟨inside_iff.2 hfits, fun hnone => ?_, fun hsome => ?_⟩
    · rcases hloop with ⟨hloop, _⟩ | ⟨e, he, _⟩
      · exact ⟨fuel, hrule hloop⟩
      · exact absurd he.1 (hnone e)
    · rcases hloop with ⟨_, hnone⟩ | ⟨e, he, hloop⟩
      · obtain ⟨e, he⟩ := hsome
        exact absurd he (hnone e)
      · exact ⟨e, he, fuel, _, hloop, bindings_bounds (cuts_of_splits he.1), hrule hloop, substituted_iff.2 (hblw e he)⟩

/-- `$-.$-.$-.$-.$-.$-.$-.$-.$-.$-`, with a metasymbol more than `mlist` has room for. -/
def tenOnes : List Token := (replicate 9 [[MATCHONE], [0x2e]]).flatten ++ [[MATCHONE]]

/-- `a.a.a.a.a.a.a.a.a.a` -/
def tenLabels : List Token := (replicate 9 [[0x61], [0x2e]]).flatten ++ [[0x61]]

/-- A rule with ten metasymbols writes after the end of `mlist`. -/
theorem rewriteRule_overflow : ¬Exact ⟨fun _ => none, fun _ => none⟩ tenOnes [] tenLabels := by
  intro h
  refine inside_iff.1 h.inside 19 (by decide) (by decide) id ⟨rfl, fun j hj p hp => ?_⟩
  have hall : ∀ j < 19, Env.admits ⟨fun _ => none, fun _ => none⟩ (tenLabels.getD j []) (pat (tenOnes.getD j [])) ∧
      (pat (tenOnes.getD j [])).least = 1 := by decide
  have hlhs : tenOnes[j]? = some (tenOnes.getD j []) := by
    rw [getD_eq_getElem?_getD, getElem?_eq_getElem hj, getD_some]
  have hpvp : tenLabels[j]? = some (tenLabels.getD j []) := by
    rw [getD_eq_getElem?_getD, getElem?_eq_getElem hj, getD_some]
  obtain rfl := some_inj.1 ((pattern_getElem hlhs).symm.trans hp)
  have htks := takes_of_admits hpvp (hall j hj).1
  rwa [(hall j hj).2] at htks

end Uwisc.Sendmail
