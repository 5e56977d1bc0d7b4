import Mathlib.Data.Prod.Lex
import Uwisc.Sendmail.Rewrite

/-!
# The matching loop

The pointers of the loop are those of a way of matching the elements before `rvp` (`Scan.of`) in
which each of them ends as early as in any match of the whole (`Way`). A round matches one more
element, or makes the last wildcard longer (`round_spec`); so the loop ends, and with the leftmost
match if there is one (`matchLoop_spec`). It runs out of `mlist` if and only if a beginning of the
left-hand side with too many metasymbols matches a beginning of the vector (`inside_iff`).
-/

namespace Uwisc.Sendmail

open Function Lib List Option

variable {env : Env} {lhs pvp : List Token} {e : ℕ → ℕ} {s : Scan} {T : (ℕ → ℕ) → Prop} {i k : ℕ}
  {p : Pat} {rp : Token}

def Pat.wild : Pat → Bool
  | zany | any => true
  | _ => false

/-- The number of tokens that are taken at least. -/
def Pat.least : Pat → ℕ
  | zany => 0
  | _ => 1

/-- What an element of a left-hand side takes. -/
def item (env : Env) (p : Pat) : Wild Token :=
  if p.wild then .wild p.least else .single fun ap => env.admits ap p

def pattern (env : Env) (lhs : List Token) : List (Wild Token) := lhs.map fun rp => item env (pat rp)

/-- Whether the element `j` is a metasymbol. -/
def bindsAt (lhs : List Token) (j : ℕ) : Bool := ((lhs[j]?).map pat).any Pat.binds

/-- The bindings of the metasymbols among the first `i` elements, in pattern order. -/
def bindings (lhs : List Token) (e : ℕ → ℕ) (i : ℕ) : List Match :=
  ((range i).filter (bindsAt lhs)).map fun j => ⟨e j, e (j + 1) - 1⟩

/-- The pointers where the first `i` elements are matched as in `e`. -/
def Scan.of (lhs : List Token) (e : ℕ → ℕ) (i : ℕ) : Scan := ⟨e i, i, bindings lhs e i⟩

/-- The number of wildcards from `i` on. -/
def wilds (lhs : List Token) (i : ℕ) : ℕ := (lhs.drop i).countP fun rp => (pat rp).wild

/-- What every round decreases: the wildcards not reached yet, the tokens the last wildcard can
    still be extended by, the elements not reached yet. -/
def rank (lhs pvp : List Token) (s : Scan) : ℕ ×ₗ ℕ ×ₗ ℕ :=
  toLex (wilds lhs s.rvp, toLex ((pvp.length + s.rvp - s.avp).toNat, lhs.length - s.rvp))

/-- The first `i` elements match as in `e`, each ending no later than in any way in `T`. -/
structure Way (env : Env) (lhs pvp : List Token) (T : (ℕ → ℕ) → Prop) (i : ℕ) (e : ℕ → ℕ) : Prop where
  le : i ≤ lhs.length
  cuts : Cuts (pattern env lhs) pvp i e
  ahead : Ahead T i e

@[simp] theorem pattern_length : (pattern env lhs).length = lhs.length := length_map _

theorem pattern_getElem (h : lhs[i]? = some rp) : (pattern env lhs)[i]? = some (item env (pat rp)) := by
  rw [pattern, getElem?_map, h, map_some]

theorem item_wild (hp : p.wild = true) : item env p = .wild p.least := if_pos hp

theorem item_single (hp : p.wild = false) : item env p = .single fun ap => env.admits ap p :=
  if_neg (ne_true_of_eq_false hp)

theorem Pat.binds_of_wild (hp : p.wild = true) : p.binds = true := by
  cases p <;> first | rfl | contradiction

theorem Env.admits_of_wild (hp : p.wild = true) {ap : Token} : env.admits ap p = true := by
  cases p <;> first | rfl | contradiction

theorem takes_least {a b : ℕ} (h : (item env p).Takes pvp a b) : a + p.least ≤ b := by
  cases hp : p.wild with
  | true =>
    rw [item_wild hp] at h
    exact h.1
  | false =>
    rw [item_single hp] at h
    rw [h.1]
    cases p <;> first | exact le_rfl | contradiction

theorem bindings_succ (h : lhs[i]? = some rp) :
    bindings lhs e (i + 1) =
      if (pat rp).binds then bindings lhs e i ++ [⟨e i, e (i + 1) - 1⟩] else bindings lhs e i := by
  have hbinds : bindsAt lhs i = (pat rp).binds := by rw [bindsAt, h, map_some, any_some]
  rw [bindings, range_succ, filter_append, map_append, filter_singleton, hbinds]
  cases (pat rp).binds with
  | true => rfl
  | false => exact append_nil _

theorem bindings_congr {e' : ℕ → ℕ} (he : ∀ j ≤ i, e' j = e j) : bindings lhs e' i = bindings lhs e i := by
  refine map_congr_left fun j hj => ?_
  have hj : j < i := mem_range.1 (mem_filter.1 hj).1
  rw [he j hj.le, he (j + 1) hj]

theorem bindings_update (b : ℕ) : bindings lhs (update e (i + 1) b) i = bindings lhs e i :=
  bindings_congr fun _ hj => update_of_ne (Nat.ne_of_lt (Nat.lt_succ_of_le hj)) _ _

theorem wilds_succ (h : lhs[i]? = some rp) :
    wilds lhs i = wilds lhs (i + 1) + if (pat rp).wild then 1 else 0 := by
  obtain ⟨hi, rfl⟩ := List.getElem?_eq_some_iff.1 h
  rw [wilds, drop_eq_getElem_cons hi, countP_cons]
  rfl

theorem deref_natCast (n : ℕ) : deref pvp n = pvp[n]? := by
  rw [deref, if_neg (Int.not_lt.2 (Int.natCast_nonneg n)), Int.toNat_natCast]

/-! ### One round -/

theorem backup_wild (h : lhs[i]? = some rp) (hp : (pat rp).wild = true) (avp : ℤ) (mlist : List Match)
    (m : Match) : backup lhs (i + 1) avp (mlist ++ [m]) =
      some ⟨m.last + 1 + 1, i + 1, mlist ++ [⟨m.first, m.last + 1⟩]⟩ := by
  rw [backup, h, map_some, getLast?_concat, dropLast_concat]
  cases hpat : pat rp <;> first | rfl | (rw [hpat] at hp; contradiction)

theorem backup_single (h : lhs[i]? = some rp) (hp : (pat rp).wild = false) (avp : ℤ) (mlist : List Match) :
    backup lhs (i + 1) avp mlist =
      backup lhs i (avp - 1) (if (pat rp).binds then mlist.dropLast else mlist) := by
  rw [backup, h, map_some]
  cases hpat : pat rp <;> first | rfl | (rw [hpat] at hp; contradiction)

/-- One more element is matched. -/
theorem accept_of (h : lhs[i]? = some rp) : (Scan.of lhs e i).accept (pat rp) =
    Scan.of lhs (update e (i + 1) (e i + (pat rp).least)) (i + 1) := by
  have hself : update e (i + 1) (e i + (pat rp).least) i = e i := update_of_ne (Nat.ne_of_lt i.lt_succ_self) _ _
  rw [Scan.of, Scan.of, bindings_succ h, bindings_update, hself, update_self]
  cases pat rp <;> simp [Scan.accept, Pat.binds, Pat.least]

/-- Backing up makes the last wildcard longer; where there is none, nothing matches. -/
theorem backup_spec (hT : ∀ e', T e' → Cuts (pattern env lhs) pvp k e') (hik : i ≤ k)
    (h : Way env lhs pvp T i e) (hstuck : Stuck T i e) (hlt : e i < pvp.length) :
    (∃ e' i', backup lhs i (e i) (bindings lhs e i) = some (Scan.of lhs e' i') ∧ i' ≤ i ∧
      Way env lhs pvp T i' e' ∧ wilds lhs i' = wilds lhs i ∧ e' i' + i = e i + 1 + i') ∨
    backup lhs i (e i) (bindings lhs e i) = none ∧ ∀ e', ¬T e' := by
  induction i with
  | zero => exact .inr ⟨rfl, hstuck.empty h.cuts.zero hT⟩
  | succ i ih =>
    obtain ⟨rp, hrp⟩ : ∃ rp, lhs[i]? = some rp := ⟨_, getElem?_eq_getElem h.le⟩
    have hitem : (pattern env lhs)[i]? = some (item env (pat rp)) := pattern_getElem hrp
    cases hp : (pat rp).wild with
    | true =>
      -- The wildcard takes one more token, the one after those it had.
      rw [item_wild hp] at hitem
      have hself : update e (i + 1) (e (i + 1) + 1) i = e i := update_of_ne (Nat.ne_of_lt i.lt_succ_self) _ _
      refine .inl ⟨update e (i + 1) (e (i + 1) + 1), i + 1, ?_, le_rfl,
        ⟨h.le, h.cuts.extend hitem hlt, h.ahead.extend hstuck⟩, rfl, by rw [update_self]⟩
      rw [bindings_succ hrp, if_pos (Pat.binds_of_wild hp), backup_wild hrp hp, Scan.of, bindings_succ hrp,
        if_pos (Pat.binds_of_wild hp), bindings_update, hself, update_self]
      simp
    | false =>
      rw [item_single hp] at hitem
      have hnx : e (i + 1) = e i + 1 := (h.cuts.takes i i.lt_succ_self _ hitem).1
      have hback : backup lhs (i + 1) (e (i + 1)) (bindings lhs e (i + 1)) =
          backup lhs i (e i) (bindings lhs e i) := by
        rw [backup_single hrp hp, bindings_succ hrp, hnx]
        cases (pat rp).binds <;> simp
      have hwilds : wilds lhs i = wilds lhs (i + 1) := by rw [wilds_succ hrp, hp]; rfl
      have hway : Way env lhs pvp T i e :=
        ⟨Nat.le_of_succ_le h.le, h.cuts.mono i.le_succ, fun e' he' j hj => h.ahead e' he' j (hj.trans i.le_succ)⟩
      rw [hback]
      rcases ih (Nat.le_of_succ_le hik) hway (hstuck.pred h.cuts hT hik hitem) (by omega) with
        ⟨e', i', heq, hle, hway', hw, hdist⟩ | hnone
      · exact .inl ⟨e', i', heq, hle.trans i.le_succ, hway', hw.trans hwilds, by omega⟩
      · exact .inr hnone

theorem rank_of : rank lhs pvp (Scan.of lhs e i) =
    toLex (wilds lhs i, toLex (((pvp.length : ℤ) + i - e i).toNat, lhs.length - i)) := rfl

theorem rank_accept (h : lhs[i]? = some rp) (b : ℕ) (hb : b = e i + (pat rp).least) :
    rank lhs pvp (Scan.of lhs (update e (i + 1) b) (i + 1)) < rank lhs pvp (Scan.of lhs e i) := by
  have hi : i < lhs.length := (List.getElem?_eq_some_iff.1 h).1
  rw [rank_of, rank_of, update_self, wilds_succ h, Prod.Lex.toLex_lt_toLex, Prod.Lex.toLex_lt_toLex]
  cases hp : (pat rp).wild with
  | true => exact .inl (Nat.lt_succ_self _)
  | false =>
    have hlst : (pat rp).least = 1 := by cases hpat : pat rp <;> first | rfl | (rw [hpat] at hp; contradiction)
    refine .inr ⟨rfl, .inr ⟨?_, ?_⟩⟩
    · show Int.toNat _ = Int.toNat _
      omega
    · show _ - _ < _ - _
      omega

theorem rank_extend {e' : ℕ → ℕ} {i' : ℕ} (hw : wilds lhs i' = wilds lhs i) (hdist : e' i' + i = e i + 1 + i')
    (hlt : e i < pvp.length) :
    rank lhs pvp (Scan.of lhs e' i') < rank lhs pvp (Scan.of lhs e i) := by
  rw [rank_of, rank_of, hw, Prod.Lex.toLex_lt_toLex, Prod.Lex.toLex_lt_toLex]
  refine .inr ⟨rfl, .inl ?_⟩
  show Int.toNat _ < Int.toNat _
  omega

/-- The round is followed by another one, in a state of lower rank. -/
def Goes (env : Env) (lhs pvp : List Token) (T : (ℕ → ℕ) → Prop) (i : ℕ) (e : ℕ → ℕ) : Prop :=
  ∃ e' i', round env lhs pvp (.of lhs e i) = .next (.of lhs e' i') ∧ i' ≤ i + 1 ∧
    Way env lhs pvp T i' e' ∧ rank lhs pvp (.of lhs e' i') < rank lhs pvp (.of lhs e i)

theorem Goes.of_accept (hT : ∀ e', T e' → Cuts (pattern env lhs) pvp k e') (hik : i < k)
    (h : Way env lhs pvp T i e) (hrp : lhs[i]? = some rp)
    (htks : (item env (pat rp)).Takes pvp (e i) (e i + (pat rp).least))
    (hrnd : round env lhs pvp (.of lhs e i) = .next ((Scan.of lhs e i).accept (pat rp))) :
    Goes env lhs pvp T i e := by
  have hlt : i < lhs.length := (List.getElem?_eq_some_iff.1 hrp).1
  exact ⟨_, i + 1, hrnd.trans (congrArg Round.next (accept_of hrp)), le_rfl,
    ⟨hlt, h.cuts.succ (pattern_getElem hrp) htks,
      h.ahead.succ hT hik (pattern_getElem hrp) fun _ _ => takes_least⟩, rank_accept hrp _ rfl⟩

/-- Where the loop backs up, it ends if nothing matches. -/
theorem Goes.of_backup (hT : ∀ e', T e' → Cuts (pattern env lhs) pvp k e') (hik : i ≤ k)
    (h : Way env lhs pvp T i e) (hstuck : Stuck T i e) (hlt : e i < pvp.length)
    (hrnd : round env lhs pvp (.of lhs e i) = .ofBackup (backup lhs i (e i) (bindings lhs e i))) :
    Goes env lhs pvp T i e ∨ round env lhs pvp (.of lhs e i) = .done none ∧ ∀ e', ¬T e' := by
  rcases backup_spec hT hik h hstuck hlt with ⟨e', i', heq, hle', hway, hw, hdist⟩ | ⟨heq, hnone⟩
  · exact .inl ⟨e', i', by rw [hrnd, heq]; rfl, hle'.trans i.le_succ, hway, rank_extend hw hdist hlt⟩
  · exact .inr ⟨by rw [hrnd, heq]; rfl, hnone⟩

theorem round_of : round env lhs pvp (.of lhs e i) = match pvp[e i]?, lhs[i]? with
    | none, none => .done (some (bindings lhs e i))
    | some _, none => .ofBackup (backup lhs i (e i) (bindings lhs e i))
    | none, some rp => if pat rp = .zany then .next ((Scan.of lhs e i).accept .zany) else .done none
    | some ap, some rp =>
      if env.admits ap (pat rp) then .next ((Scan.of lhs e i).accept (pat rp))
      else .ofBackup (backup lhs i (e i) (bindings lhs e i)) := by
  rw [← deref_natCast]
  rfl

/-- Where a token is taken, the element takes it. -/
theorem takes_of_admits {ap : Token} (hap : pvp[i]? = some ap) (h : env.admits ap p = true) :
    (item env p).Takes pvp i (i + p.least) := by
  have hlt : i < pvp.length := (List.getElem?_eq_some_iff.1 hap).1
  cases p with
  | zany => exact ⟨le_rfl, hlt.le⟩
  | any => exact ⟨le_rfl, hlt⟩
  | one => exact ⟨rfl, ap, hap, h⟩
  | cls => exact ⟨rfl, ap, hap, h⟩
  | ncls => exact ⟨rfl, ap, hap, h⟩
  | macvalue => exact ⟨rfl, ap, hap, h⟩
  | word => exact ⟨rfl, ap, hap, h⟩

/-- A round leads to a state of lower rank, or ends the loop as it should. -/
theorem round_spec (hT : ∀ e', T e' → Cuts (pattern env lhs) pvp k e') (hk : k ≤ lhs.length)
    (h : Way env lhs pvp T i e)
    (hi : i < k ∨ i = lhs.length ∧ i = k ∧ ∀ e', T e' → e' i = pvp.length) :
    Goes env lhs pvp T i e ∨
    (round env lhs pvp (.of lhs e i) = .done none ∧ ∀ e', ¬T e') ∨
    round env lhs pvp (.of lhs e i) = .done (some (bindings lhs e i)) ∧ i = lhs.length ∧
      e i = pvp.length := by
  have hik : i ≤ k := hi.elim le_of_lt fun hi => hi.2.1.le
  have hle : e i ≤ pvp.length := h.cuts.le_length (by rw [pattern_length]; exact h.le)
  cases hrp : lhs[i]? with
  | none =>
    have hlen : lhs.length ≤ i := List.getElem?_eq_none_iff.1 hrp
    have hend := hi.resolve_left (Nat.not_lt.2 (hk.trans hlen))
    cases hap : pvp[e i]? with
    | none =>
      -- Both at their end: a match.
      exact .inr (.inr ⟨by rw [round_of, hap, hrp], hend.1, hle.antisymm (List.getElem?_eq_none_iff.1 hap)⟩)
    | some ap =>
      -- End of pattern before end of address.
      have hlt : e i < pvp.length := (List.getElem?_eq_some_iff.1 hap).1
      have hstuck : Stuck T i e := fun e' he' heq => hlt.ne (heq.trans (hend.2.2 e' he'))
      exact (Goes.of_backup hT hik h hstuck hlt (by rw [round_of, hap, hrp])).imp_right .inl
  | some rp =>
    have hlt : i < lhs.length := (List.getElem?_eq_some_iff.1 hrp).1
    have hik : i < k := hi.resolve_right fun hi => hlt.ne hi.1
    have hitem : (pattern env lhs)[i]? = some (item env (pat rp)) := pattern_getElem hrp
    cases hap : pvp[e i]? with
    | none =>
      have hend : pvp.length ≤ e i := List.getElem?_eq_none_iff.1 hap
      by_cases hz : pat rp = .zany
      · refine .inl (.of_accept hT hik h hrp ?_ ?_)
        · rw [hz]
          exact ⟨le_rfl, hle⟩
        · rw [round_of, hap, hrp, hz]
          exact if_pos hz
      · -- End of input: what is left takes at least one token more.
        refine .inr (.inl ⟨by rw [round_of, hap, hrp]; exact if_neg hz, fun e' he' => ?_⟩)
        have htks := (hT e' he').takes i hik _ hitem
        have hlst : (pat rp).least = 1 := by cases hpat : pat rp <;> first | rfl | contradiction
        have := takes_least htks
        have := htks.le.2
        have := h.ahead e' he' i le_rfl
        omega
    | some ap =>
      cases hadm : env.admits ap (pat rp) with
      | true =>
        refine .inl (.of_accept hT hik h hrp (takes_of_admits hap hadm) ?_)
        rw [round_of, hap, hrp]
        exact if_pos hadm
      | false =>
        have hrnd : round env lhs pvp (.of lhs e i) = .ofBackup (backup lhs i (e i) (bindings lhs e i)) := by
          rw [round_of, hap, hrp]
          exact if_neg (ne_true_of_eq_false hadm)
        have hp : (pat rp).wild = false := Bool.eq_false_iff.2 fun hp =>
          Bool.false_ne_true (hadm.symm.trans (Env.admits_of_wild hp))
        rw [item_single hp] at hitem
        have hstuck : Stuck T i e := .of_not_admits hT hik hitem fun x hx => by
          rw [some_inj.1 (hx.symm.trans hap), hadm]
          exact Bool.false_ne_true
        exact (Goes.of_backup hT hik.le h hstuck (List.getElem?_eq_some_iff.1 hap).1 hrnd).imp_right .inl

/-! ### The whole loop -/

/-- The number of metasymbols among the first `i` elements. -/
def metasymbols (lhs : List Token) (i : ℕ) : ℕ := (range i).countP (bindsAt lhs)

@[simp] theorem bindings_length : (bindings lhs e i).length = metasymbols lhs i := by
  rw [bindings, length_map, metasymbols, countP_eq_length_filter]

theorem start_of : Scan.start = .of lhs (fun _ => 0) 0 := rfl

theorem Way.start : Way env lhs pvp T 0 fun _ => 0 :=
  ⟨Nat.zero_le _, ⟨rfl, fun _ hj => absurd hj (Nat.not_lt_zero _)⟩, fun _ _ _ _ => Nat.zero_le _⟩

theorem cuts_of_splits (h : Splits (pattern env lhs) pvp e) : Cuts (pattern env lhs) pvp lhs.length e :=
  pattern_length ▸ h.1

/-- The loop ends with the leftmost match, if there is one. -/
theorem matchLoop_ends (h : Way env lhs pvp (Splits (pattern env lhs) pvp) i e) :
    ∃ fuel, (matchLoop env lhs pvp fuel (.of lhs e i) = some none ∧ ∀ e', ¬Splits (pattern env lhs) pvp e') ∨
      ∃ e', Leftmost (pattern env lhs) pvp e' ∧
        matchLoop env lhs pvp fuel (.of lhs e i) = some (some (bindings lhs e' lhs.length)) := by
  induction hr : rank lhs pvp (.of lhs e i) using WellFoundedLT.induction generalizing e i with
  | ind r ih =>
    have hi : i < lhs.length ∨ i = lhs.length ∧ i = lhs.length ∧
        ∀ e', Splits (pattern env lhs) pvp e' → e' i = pvp.length := by
      rcases h.le.lt_or_eq with hi | rfl
      · exact .inl hi
      · exact .inr ⟨rfl, rfl, fun e' he' => pattern_length ▸ he'.2⟩
    rcases round_spec (fun _ => cuts_of_splits) le_rfl h hi with
      ⟨e', i', hrnd, _, hway, hrank⟩ | ⟨hrnd, hnone⟩ | ⟨hrnd, rfl, hend⟩
    · obtain ⟨fuel, hloop⟩ := ih _ (hr ▸ hrank) hway rfl
      refine ⟨fuel + 1, ?_⟩
      rw [matchLoop, hrnd]
      exact hloop
    · refine ⟨1, .inl ⟨?_, hnone⟩⟩
      rw [matchLoop, hrnd]
    · have hspl : Splits (pattern env lhs) pvp e := by
        rw [Splits, pattern_length]
        exact ⟨h.cuts, hend⟩
      refine ⟨1, .inr ⟨e, Ahead.leftmost ?_ hspl, ?_⟩⟩
      · rw [pattern_length]
        exact h.ahead
      · rw [matchLoop, hrnd]

/-- If some way of matching the first `k` elements is left, the loop comes to match them. -/
theorem reaches_of_cuts (hk : k ≤ lhs.length) {e0 : ℕ → ℕ} (h0 : Cuts (pattern env lhs) pvp k e0)
    (h : Way env lhs pvp (Cuts (pattern env lhs) pvp k) i e) (hik : i ≤ k)
    (hrch : (matching env lhs pvp).Reachable (.of lhs e i)) :
    ∃ e', (matching env lhs pvp).Reachable (.of lhs e' k) := by
  induction hr : rank lhs pvp (.of lhs e i) using WellFoundedLT.induction generalizing e i with
  | ind r ih =>
    rcases hik.lt_or_eq with hik | rfl
    · rcases round_spec (fun _ => id) hk h (.inl hik) with
        ⟨e', i', hrnd, hle, hway, hrank⟩ | ⟨_, hnone⟩ | ⟨_, hend, _⟩
      · exact ih _ (hr ▸ hrank) hway (hle.trans hik) (hrch.step (a := ()) hrnd) rfl
      · exact absurd h0 (hnone e0)
      · exact absurd (hik.trans_le hk) (hend ▸ lt_irrefl _)
    · exact ⟨e, hrch⟩

/-- Every state of the loop is that of a way of matching. -/
theorem reachable_of (h : (matching env lhs pvp).Reachable s) :
    ∃ e i, s = .of lhs e i ∧ i ≤ lhs.length ∧ Cuts (pattern env lhs) pvp i e := by
  have hT : ∀ e', False → Cuts (pattern env lhs) pvp lhs.length e' := fun _ => False.elim
  have hway : ∃ e i, s = .of lhs e i ∧ Way env lhs pvp (fun _ => False) i e := by
    refine System.Reachable.invariant (I := fun s => ∃ e i, s = .of lhs e i ∧ Way env lhs pvp (fun _ => False) i e)
      ?_ ?_ h
    · rintro _ rfl
      exact ⟨_, 0, start_of, .start⟩
    · rintro s a s' ⟨e, i, rfl, hway⟩ hstep
      have hi : i < lhs.length ∨ i = lhs.length ∧ i = lhs.length ∧ ∀ e' : ℕ → ℕ, False → e' i = pvp.length :=
        hway.le.lt_or_eq.imp_right fun hi => ⟨hi, hi, fun _ => False.elim⟩
      rcases round_spec hT le_rfl hway hi with ⟨e', i', hrnd, _, hway', _⟩ | ⟨hrnd, _⟩ | ⟨hrnd, _⟩
      · exact ⟨e', i', Round.next.inj (hstep.symm.trans hrnd), hway'⟩
      · exact absurd (hstep.symm.trans hrnd) Round.noConfusion
      · exact absurd (hstep.symm.trans hrnd) Round.noConfusion
  obtain ⟨e, i, rfl, hway⟩ := hway
  exact ⟨e, i, rfl, hway.le, hway.cuts⟩

/-- No beginning of the left-hand side with more metasymbols than `mlist` has room for matches a
    beginning of the vector. -/
def Fits (env : Env) (lhs pvp : List Token) : Prop :=
  ∀ k ≤ lhs.length, MAXMATCH < metasymbols lhs k → ∀ e, ¬Cuts (pattern env lhs) pvp k e

theorem inside_iff :
    (∀ s, (matching env lhs pvp).Reachable s → s.mlist.length ≤ MAXMATCH) ↔ Fits env lhs pvp := by
  constructor
  · intro hins k hk hmany e he
    obtain ⟨e', hrch⟩ := reaches_of_cuts hk he .start (Nat.zero_le k) (.init rfl)
    have := hins _ hrch
    rw [Scan.of, bindings_length] at this
    exact Nat.not_lt.2 this hmany
  · intro hfits s hs
    obtain ⟨e, i, rfl, hi, he⟩ := reachable_of hs
    rw [Scan.of, bindings_length]
    exact Nat.not_lt.1 fun hmany => hfits i hi hmany e he

end Uwisc.Sendmail
