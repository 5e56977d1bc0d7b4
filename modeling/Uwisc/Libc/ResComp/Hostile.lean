import Uwisc.Lib.Walk
import Uwisc.Libc.ResComp.Spec

/-!
# Names in hostile messages

What `dn_expand` reads and writes (`traceLoop`, which returns what `expandLoop` does: `traceLoop_result`), for
messages that may hold anything. A walk goes from label to label and along pointers (`Move`); it is harmless
(`Harmless`) if it comes to no cycle of pointers, to no label or pointer whose first byte is the last of the message,
and not to the root where there is no room for a NUL.

* `traceLoop_move`, `traceLoop_stop`: a step of the loop goes on where the walk does, or ends the call.
-/

namespace Uwisc.ResComp

open Lib List Relation

/-! ### What is read and written -/

/-- The loop of `expandLabel`, with the addresses that are read: whether it goes on, and with what. -/
def traceLabel (msg : Mem) (eomorig length : ℕ) : ℕ → ℕ → List UInt8 → List ℕ × Bool × ℕ × List UInt8
  | 0, cp, dn => ([], true, cp, dn)
  | n + 1, cp, dn =>
    let c := msg cp
    if c = DOT ∧ NoRoom length (dn.length + n + 1) then ([cp], false, cp + 1, dn)
    else
      let dn := dn ++ if c = DOT then [BACKSLASH, c] else [c]
      if eomorig ≤ cp + 1 then ([cp], false, cp + 1, dn)
      else
        let r := traceLabel msg eomorig length n (cp + 1) dn
        (cp :: r.1, r.2)

/-- What a call does: the addresses in the message that it reads, the number of bytes that it writes to the buffer,
    from the first one on, and what it returns. -/
structure Call where
  reads : List ℕ
  written : ℕ
  result : Option (Option ℕ)

/-- A call that has read some addresses before. -/
def Call.after (l : List ℕ) (c : Call) : Call := { c with reads := l ++ c.reads }

/-- The loop of `expandLoop`. -/
def traceLoop (msg : Mem) (eomorig comp_dn length : ℕ) : ℕ → ℕ → List UInt8 → Option ℕ → Call
  | 0, _, dn, _ => ⟨[], dn.length, none⟩
  | fuel + 1, cp, dn, len =>
    let n := msg cp
    if n = 0 then ⟨[cp], dn.length + 1, some (some (len.getD (cp + 1 - comp_dn)))⟩
    else if n &&& INDIR_MASK = 0 then
      if dn ≠ [] ∧ NoRoom length dn.length then ⟨[cp], dn.length, some none⟩
      else
        let dn := if dn = [] then dn else dn ++ [DOT]
        if NoRoom length (dn.length + n.toNat) then ⟨[cp], dn.length, some none⟩
        else
          let r := traceLabel msg eomorig length n.toNat (cp + 1) dn
          if r.2.1 then (traceLoop msg eomorig comp_dn length fuel r.2.2.1 r.2.2.2 len).after (cp :: r.1)
          else ⟨cp :: r.1, r.2.2.2.length, some none⟩
    else if n &&& INDIR_MASK = INDIR_MASK then
      let cp' := indirect msg n (cp + 1)
      let len := some (len.getD (cp + 2 - comp_dn))
      if eomorig ≤ cp' then ⟨[cp, cp + 1], dn.length, some none⟩
      else (traceLoop msg eomorig comp_dn length fuel cp' dn len).after [cp, cp + 1]
    else ⟨[cp], dn.length, some none⟩

/-- A call of `dn_expand`; the `length` is an `int`, and a buffer of less than no bytes has none. -/
def expandCall (msg : Mem) (eomorig comp_dn : ℕ) (length : ℤ) (fuel : ℕ) : Call :=
  traceLoop msg eomorig comp_dn length.toNat fuel comp_dn [] none

/-! ### What is right -/

/-- The name at `p` occupies `k` bytes there: its labels, and the root or a pointer. -/
inductive Occupies (msg : Mem) : ℕ → ℕ → Prop
  | root {p} : msg p = 0 → Occupies msg p 1
  | pointer {p} : msg p &&& INDIR_MASK = INDIR_MASK → Occupies msg p 2
  | label {p k} : msg p ≠ 0 → msg p &&& INDIR_MASK = 0 → Occupies msg (p + 1 + (msg p).toNat) k →
      Occupies msg p (1 + (msg p).toNat + k)

/-- A call returns, reads no byte outside the message, writes no more bytes than there are in the buffer, and returns
    the number of bytes of the name. -/
structure Safe (msg : Mem) (eomorig comp_dn : ℕ) (length : ℤ) : Prop where
  returns : ∃ fuel, (expandCall msg eomorig comp_dn length fuel).result ≠ none
  reads : ∀ fuel, ∀ a ∈ (expandCall msg eomorig comp_dn length fuel).reads, a < eomorig
  writes : ∀ fuel, (expandCall msg eomorig comp_dn length fuel).written ≤ length.toNat
  size : ∀ fuel k, (expandCall msg eomorig comp_dn length fuel).result = some (some k) → Occupies msg comp_dn k

/-- Where a label is put behind `d` bytes: after a separator, if there is something. -/
def labelStart (d : ℕ) : ℕ := if d = 0 then 0 else d + 1

/-- The label at `p`. -/
def labelAt (msg : Mem) (p : ℕ) : List UInt8 := bytes msg (p + 1) (msg p).toNat

/-- There is a pointer from `p` to `q`. -/
def Hop (msg : Mem) (eomorig p q : ℕ) : Prop :=
  msg p &&& INDIR_MASK = INDIR_MASK ∧ indirect msg (msg p) (p + 1) = q ∧ q < eomorig

/-- From a place in the message and a number of expanded bytes to the next: over a label that is in the message and
    fits the buffer with its escapes, or along a pointer. -/
inductive Move (msg : Mem) (eomorig length : ℕ) : ℕ × ℕ → ℕ × ℕ → Prop
  | label {p d} : msg p ≠ 0 → msg p &&& INDIR_MASK = 0 → p + 1 + (msg p).toNat < eomorig →
      labelStart d + (msg p).toNat + max 1 ((labelAt msg p).count DOT) < length →
      Move msg eomorig length (p, d)
        (p + 1 + (msg p).toNat, labelStart d + (msg p).toNat + (labelAt msg p).count DOT)
  | pointer {p q d} : Hop msg eomorig p q → Move msg eomorig length (p, d) (q, d)

/-- The last byte of the message is the first of a pointer, or that of a label which is not too long for the buffer. -/
def Overruns (msg : Mem) (eomorig length p d : ℕ) : Prop := p + 1 = eomorig ∧ (msg p &&& INDIR_MASK = INDIR_MASK ∨
  msg p ≠ 0 ∧ msg p &&& INDIR_MASK = 0 ∧ labelStart d + (msg p).toNat + 1 < length)

/-- The walk from `comp_dn` comes to no cycle of pointers, does not overrun the message, and has room for a NUL. -/
structure Harmless (msg : Mem) (eomorig comp_dn length : ℕ) : Prop where
  acyclic : ∀ p d, ReflTransGen (Move msg eomorig length) (comp_dn, 0) (p, d) → ¬TransGen (Hop msg eomorig) p p
  inside : ∀ p d, ReflTransGen (Move msg eomorig length) (comp_dn, 0) (p, d) → ¬Overruns msg eomorig length p d
  room : ∀ p d, ReflTransGen (Move msg eomorig length) (comp_dn, 0) (p, d) → msg p = 0 → length ≠ 0

variable {msg : Mem} {eomorig comp_dn length n cp p d : ℕ} {dn : List UInt8} {len : Option ℕ}

/-! ### The same results -/

theorem traceLabel_result (msg : Mem) (eomorig length n cp : ℕ) (dn : List UInt8) :
    expandLabel msg eomorig length n cp dn = if (traceLabel msg eomorig length n cp dn).2.1 then
      some (traceLabel msg eomorig length n cp dn).2.2 else none := by
  induction n generalizing cp dn with
  | zero => rfl
  | succ n ih =>
    rw [expandLabel, traceLabel]
    simp only [ih]
    split_ifs
    all_goals first | rfl | contradiction

/-- The traced call returns what the call does. -/
theorem traceLoop_result (msg : Mem) (eomorig comp_dn length fuel cp : ℕ) (dn : List UInt8) (len : Option ℕ) :
    (traceLoop msg eomorig comp_dn length fuel cp dn len).result =
      (expandLoop msg eomorig comp_dn length fuel cp dn len).map (Option.map Prod.fst) := by
  induction fuel generalizing cp dn len with
  | zero => rfl
  | succ fuel ih =>
    rw [expandLoop, traceLoop]
    simp only [traceLabel_result]
    split_ifs <;> first | rfl | exact ih _ _ _

/-! ### A label -/

/-- What is put to the buffer for a character. -/
theorem length_escaped (dn : List UInt8) (c : UInt8) :
    (dn ++ if c = DOT then [BACKSLASH, c] else [c]).length = dn.length + 1 + if c = DOT then 1 else 0 := by
  split_ifs <;> simp

/-- The number of characters that are escaped in a label, of the first one and the others. -/
theorem count_bytes (msg : Mem) (cp n : ℕ) : (bytes msg cp (n + 1)).count DOT =
    (bytes msg (cp + 1) n).count DOT + if msg cp = DOT then 1 else 0 := by
  rw [bytes_succ, count_cons]
  simp

/-- A label is copied if it ends in the message, and there is room for its escapes. -/
theorem traceLabel_ok (hroom : dn.length + n < length) (hcp : cp < eomorig ∨ 0 < n) :
    (traceLabel msg eomorig length n cp dn).2.1 = true ↔
      cp + n < eomorig ∧ ((bytes msg cp n).count DOT = 0 ∨ dn.length + n + (bytes msg cp n).count DOT < length) := by
  induction n generalizing cp dn with
  | zero =>
    have hlt : cp < eomorig := hcp.resolve_right (lt_irrefl 0)
    simp [traceLabel, bytes, hlt]
  | succ n ih =>
    rw [count_bytes]
    by_cases hdot : msg cp = DOT ∧ NoRoom length (dn.length + n + 1)
    · have hnor : length ≤ dn.length + n + 1 + 1 := hdot.2
      simp only [traceLabel, if_pos hdot, if_pos hdot.1]
      refine iff_of_false Bool.false_ne_true ?_
      omega
    by_cases hend : eomorig ≤ cp + 1
    · simp only [traceLabel, if_neg hdot, if_pos hend]
      refine iff_of_false Bool.false_ne_true ?_
      omega
    have hleng := length_escaped dn (msg cp)
    simp only [traceLabel, if_neg hdot, if_neg hend]
    generalize (dn ++ if msg cp = DOT then [BACKSLASH, msg cp] else [msg cp]) = dn' at hleng ⊢
    by_cases hc : msg cp = DOT
    · have hnor : ¬length ≤ dn.length + n + 1 + 1 := fun h => hdot ⟨hc, h⟩
      rw [if_pos hc] at hleng ⊢
      rw [ih (by omega) (by omega)]
      omega
    · rw [if_neg hc] at hleng ⊢
      rw [ih (by omega) (by omega)]
      omega

theorem traceLabel_end (h : (traceLabel msg eomorig length n cp dn).2.1 = true) :
    (traceLabel msg eomorig length n cp dn).2.2.1 = cp + n ∧
      (traceLabel msg eomorig length n cp dn).2.2.2.length = dn.length + n + (bytes msg cp n).count DOT := by
  induction n generalizing cp dn with
  | zero => exact ⟨rfl, rfl⟩
  | succ n ih =>
    by_cases hdot : msg cp = DOT ∧ NoRoom length (dn.length + n + 1)
    · simp only [traceLabel, if_pos hdot, Bool.false_eq_true] at h
    by_cases hend : eomorig ≤ cp + 1
    · simp only [traceLabel, if_neg hdot, if_pos hend, Bool.false_eq_true] at h
    simp only [traceLabel, if_neg hdot, if_neg hend] at h ⊢
    obtain ⟨hcp, hdn⟩ := ih h
    rw [hcp, hdn, length_escaped, count_bytes]
    omega

/-- The characters of a label are read in the message, if the first one is. -/
theorem traceLabel_reads (hcp : cp < eomorig) : ∀ a ∈ (traceLabel msg eomorig length n cp dn).1, a < eomorig := by
  induction n generalizing cp dn with
  | zero => simp [traceLabel]
  | succ n ih =>
    by_cases hdot : msg cp = DOT ∧ NoRoom length (dn.length + n + 1)
    · simpa only [traceLabel, if_pos hdot, forall_mem_singleton] using hcp
    by_cases hend : eomorig ≤ cp + 1
    · simpa only [traceLabel, if_neg hdot, if_pos hend, forall_mem_singleton] using hcp
    simp only [traceLabel, if_neg hdot, if_neg hend]
    exact forall_mem_cons.2 ⟨hcp, ih (not_le.1 hend)⟩

/-- The first character of a label is read. -/
theorem mem_traceLabel_reads (hn : 0 < n) : cp ∈ (traceLabel msg eomorig length n cp dn).1 := by
  obtain ⟨n, rfl⟩ := Nat.exists_eq_add_one.2 hn
  rw [traceLabel]
  dsimp only
  split_ifs <;> exact mem_cons_self

/-- What is copied of a label leaves room for what is to be copied. -/
theorem traceLabel_length (hroom : dn.length + n < length) :
    (traceLabel msg eomorig length n cp dn).2.2.2.length < length := by
  induction n generalizing cp dn with
  | zero => exact hroom
  | succ n ih =>
    by_cases hdot : msg cp = DOT ∧ NoRoom length (dn.length + n + 1)
    · simp only [traceLabel, if_pos hdot]
      omega
    have hleng := length_escaped dn (msg cp)
    simp only [traceLabel, if_neg hdot]
    generalize (dn ++ if msg cp = DOT then [BACKSLASH, msg cp] else [msg cp]) = dn' at hleng ⊢
    have hleft : dn'.length + n < length := by
      by_cases hc : msg cp = DOT
      · have hnor : ¬length ≤ dn.length + n + 1 + 1 := fun h => hdot ⟨hc, h⟩
        rw [if_pos hc] at hleng
        omega
      · rw [if_neg hc] at hleng
        omega
    split
    · exact lt_of_le_of_lt (Nat.le_add_right _ n) hleft
    · exact ih hleft

/-! ### A step of the loop -/

theorem toNat_pos {c : UInt8} (h : c ≠ 0) : 0 < c.toNat := Nat.pos_of_ne_zero fun h0 => h (UInt8.toNat_inj.1 h0)

/-- Where the label is put. -/
theorem length_labelStart (dn : List UInt8) : (if dn = [] then dn else dn ++ [DOT]).length = labelStart dn.length := by
  rw [labelStart]
  split_ifs with hnil hzero hzero
  · exact hzero
  · simp [hnil] at hzero
  · exact absurd (length_eq_zero_iff.1 hzero) hnil
  · simp

/-- Along a pointer, or over a label that is copied, the loop goes on. -/
theorem traceLoop_move (comp_dn : ℕ) {y : ℕ × ℕ} (hmove : Move msg eomorig length (p, dn.length) y) (hp : p < eomorig)
    (len : Option ℕ) : ∃ dn' len' l, dn'.length = y.2 ∧
      (∀ fuel, traceLoop msg eomorig comp_dn length (fuel + 1) p dn len =
        (traceLoop msg eomorig comp_dn length fuel y.1 dn' len').after l) ∧
      ((∀ a ∈ l, a < eomorig) ↔ ¬Overruns msg eomorig length p dn.length) := by
  generalize hx : (p, dn.length) = x at hmove
  cases hmove with
  | @label p' d hne hmask hend hfits =>
    cases hx
    have hst := length_labelStart dn
    have hpos : 0 < (msg p).toNat := toNat_pos hne
    have hsep : ¬(dn ≠ [] ∧ NoRoom length dn.length) := fun hn => by
      have hle : length ≤ dn.length + 1 := hn.2
      have hd : labelStart dn.length = dn.length + 1 := if_neg fun h0 => hn.1 (length_eq_zero_iff.1 h0)
      omega
    have hfits' : labelStart dn.length + (msg p).toNat + max 1 ((bytes msg (p + 1) (msg p).toNat).count DOT) < length :=
      hfits
    set dn0 := if dn = [] then dn else dn ++ [DOT] with hdn0
    have hlen : ¬NoRoom length (dn0.length + (msg p).toNat) := by
      rw [NoRoom]
      omega
    have hok : (traceLabel msg eomorig length (msg p).toNat (p + 1) dn0).2.1 = true :=
      (traceLabel_ok (by omega) (.inr hpos)).2 ⟨hend, by omega⟩
    obtain ⟨hcp, hdn⟩ := traceLabel_end hok
    set r := traceLabel msg eomorig length (msg p).toNat (p + 1) dn0 with hr
    refine ⟨r.2.2.2, len, p :: r.1, ?_, fun fuel => ?_, ?_⟩
    · rw [hdn, hst]
      rfl
    · rw [traceLoop]
      simp only [if_neg hne, if_pos hmask, if_neg hsep, ← hdn0, if_neg hlen, ← hr, if_pos hok, hcp]
    · refine iff_of_true (forall_mem_cons.2 ⟨hp, traceLabel_reads (by omega)⟩) fun hover => ?_
      have := hover.1
      omega
  | @pointer p' q d hhop =>
    cases hx
    obtain ⟨hmask, hq, hlt⟩ := hhop
    obtain ⟨hne, hne'⟩ := pointer_ne_zero hmask
    refine ⟨dn, some (len.getD (p + 2 - comp_dn)), [p, p + 1], rfl, fun fuel => ?_, ?_⟩
    · rw [traceLoop]
      simp only [if_neg hne, if_neg hne', if_pos hmask, hq, if_neg (not_le.2 hlt)]
    · simp only [forall_mem_cons, not_mem_nil, false_implies, implies_true, and_true, Overruns, hmask, true_or]
      omega

/-- What a call does that ends at `p`, with `d` bytes expanded. -/
structure Ends (msg : Mem) (eomorig comp_dn length p d : ℕ) (len : Option ℕ) (c : Call) : Prop where
  returns : c.result ≠ none
  reads : (∀ a ∈ c.reads, a < eomorig) ↔ ¬Overruns msg eomorig length p d
  written : c.written ≤ length ↔ ¬(length = 0 ∧ msg p = 0)
  size : ∀ k, c.result = some (some k) → msg p = 0 ∧ k = len.getD (p + 1 - comp_dn)

theorem Ends.error {l : List ℕ} {w : ℕ} (len : Option ℕ) (hne : msg p ≠ 0) (hw : w ≤ length)
    (hreads : (∀ a ∈ l, a < eomorig) ↔ ¬Overruns msg eomorig length p d) :
    Ends msg eomorig comp_dn length p d len ⟨l, w, some none⟩ where
  returns := by simp
  reads := hreads
  written := iff_of_true hw fun h => hne h.2
  size := by simp

theorem Ends.root (hzero : msg p = 0) (hp : p < eomorig) (hdn : dn = [] ∨ dn.length < length) (len : Option ℕ) :
    Ends msg eomorig comp_dn length p dn.length len ⟨[p], dn.length + 1, some (some (len.getD (p + 1 - comp_dn)))⟩ where
  returns := by simp
  reads := by
    refine iff_of_true (by simpa using hp) fun hover => ?_
    rcases hover.2 with hmask | ⟨hne, -⟩
    · rw [hzero] at hmask
      exact absurd hmask (by decide)
    · exact hne hzero
  written := by
    simp only [hzero, and_true]
    rcases hdn with rfl | hlt
    · rw [length_nil]
      omega
    · omega
  size k hk := by
    simp only [Option.some.injEq] at hk
    exact ⟨hzero, hk.symm⟩

/-- Else it ends. -/
theorem traceLoop_stop (comp_dn : ℕ) (hstop : ∀ y, ¬Move msg eomorig length (p, dn.length) y) (hp : p < eomorig)
    (hdn : dn = [] ∨ dn.length < length) (len : Option ℕ) :
    ∃ c, (∀ fuel, traceLoop msg eomorig comp_dn length (fuel + 1) p dn len = c) ∧
      Ends msg eomorig comp_dn length p dn.length len c := by
  have hle : dn.length ≤ length := by
    rcases hdn with rfl | hlt
    · exact Nat.zero_le _
    · exact hlt.le
  have hfst : ∀ a ∈ [p], a < eomorig := by simpa using hp
  by_cases hzero : msg p = 0
  · refine ⟨_, fun fuel => ?_, .root hzero hp hdn len⟩
    rw [traceLoop]
    simp only [if_pos hzero]
  by_cases hptr : msg p &&& INDIR_MASK = INDIR_MASK
  · have hout : eomorig ≤ indirect msg (msg p) (p + 1) := not_lt.1 fun hlt => hstop _ (.pointer ⟨hptr, rfl, hlt⟩)
    have hreads : (∀ a ∈ [p, p + 1], a < eomorig) ↔ ¬Overruns msg eomorig length p dn.length := by
      simp only [forall_mem_cons, not_mem_nil, false_implies, implies_true, and_true, Overruns, hptr, true_or]
      omega
    refine ⟨_, fun fuel => ?_, .error len hzero hle hreads⟩
    rw [traceLoop]
    simp only [if_neg hzero, if_neg (pointer_ne_zero hptr).2, if_pos hptr, if_pos hout]
  by_cases hmask : msg p &&& INDIR_MASK = 0
  · have hst := length_labelStart dn
    have hpos : 0 < (msg p).toNat := toNat_pos hzero
    by_cases hsep : dn ≠ [] ∧ NoRoom length dn.length
    · have hnor : length ≤ dn.length + 1 := hsep.2
      have hd : labelStart dn.length = dn.length + 1 := if_neg fun h0 => hsep.1 (length_eq_zero_iff.1 h0)
      have hover : ¬Overruns msg eomorig length p dn.length := fun hover =>
        hover.2.elim hptr fun h => by have := h.2.2; omega
      refine ⟨_, fun fuel => ?_, .error len hzero hle (iff_of_true hfst hover)⟩
      rw [traceLoop]
      simp only [if_neg hzero, if_pos hmask, if_pos hsep]
    have hroom : labelStart dn.length ≤ length := by
      rw [labelStart]
      split_ifs with h0
      · exact Nat.zero_le _
      · have : ¬length ≤ dn.length + 1 := fun h => hsep ⟨fun hnil => h0 (by rw [hnil]; rfl), h⟩
        omega
    set dn0 := if dn = [] then dn else dn ++ [DOT] with hdn0
    by_cases hlen : NoRoom length (dn0.length + (msg p).toNat)
    · have hnor : length ≤ dn0.length + (msg p).toNat + 1 := hlen
      have hover : ¬Overruns msg eomorig length p dn.length := fun hover =>
        hover.2.elim hptr fun h => by have := h.2.2; omega
      refine ⟨_, fun fuel => ?_, .error len hzero (hst.trans_le hroom) (iff_of_true hfst hover)⟩
      rw [traceLoop]
      simp only [if_neg hzero, if_pos hmask, if_neg hsep, ← hdn0, if_pos hlen]
    have hfits : ¬length ≤ dn0.length + (msg p).toNat + 1 := hlen
    set r := traceLabel msg eomorig length (msg p).toNat (p + 1) dn0 with hr
    have hbad : ¬r.2.1 = true := fun hok => by
      obtain ⟨hend, hesc⟩ := (traceLabel_ok (by omega) (.inr hpos)).1 hok
      refine hstop _ (.label hzero hmask hend ?_)
      rw [labelAt]
      omega
    have hreads : (∀ a ∈ p :: r.1, a < eomorig) ↔ ¬Overruns msg eomorig length p dn.length := by
      by_cases hnx : p + 1 < eomorig
      · exact iff_of_true (forall_mem_cons.2 ⟨hp, traceLabel_reads hnx⟩) fun hover => by have := hover.1; omega
      · refine iff_of_false (fun hall => ?_) (not_not.2 ⟨by omega, .inr ⟨hzero, hmask, by omega⟩⟩)
        exact hnx (hall _ (mem_cons_of_mem _ (mem_traceLabel_reads hpos)))
    have hleng : r.2.2.2.length < length := traceLabel_length (by omega)
    refine ⟨_, fun fuel => ?_, .error len hzero hleng.le hreads⟩
    rw [traceLoop]
    simp only [if_neg hzero, if_pos hmask, if_neg hsep, ← hdn0, if_neg hlen, ← hr, if_neg hbad]
  · have hover : ¬Overruns msg eomorig length p dn.length := fun hover => hover.2.elim hptr fun h => hmask h.2.1
    refine ⟨_, fun fuel => ?_, .error len hzero hle (iff_of_true hfst hover)⟩
    rw [traceLoop]
    simp only [if_neg hzero, if_neg hmask, if_neg hptr]

/-!
### Calls on hostile messages

A call of `dn_expand` is safe if and only if the walk from the name is harmless (`safe_iff`): a harmless walk has an
end, as labels take room and pointers without a cycle come to one (`returns_of_acyclic`), and what would harm happens
in a call that comes to its place (`run_of_reaches`).
-/

variable {msg : Mem} {eomorig comp_dn length p d fuel : ℕ} {dn : List UInt8} {len : Option ℕ} {x : ℕ × ℕ}

/-- The walk stays in the message, and what is expanded in the buffer. -/
theorem inside_of_reaches (hp : comp_dn < eomorig) (h : ReflTransGen (Move msg eomorig length) (comp_dn, 0) x) :
    x.1 < eomorig ∧ (x.2 = 0 ∨ x.2 < length) := by
  induction h with
  | refl => exact ⟨hp, .inl rfl⟩
  | tail _ hmove ih =>
    cases hmove with
    | label _ _ hend hfits => exact ⟨hend, .inr (by dsimp only; omega)⟩
    | pointer hhop => exact ⟨hhop.2.2, ih.2⟩

theorem nil_or_lt (h : dn.length = 0 ∨ dn.length < length) : dn = [] ∨ dn.length < length :=
  h.imp_left length_eq_zero_iff.1

/-- A call reads no byte outside the message and fills no more than the buffer, if the walk is harmless. -/
theorem Harmless.inside_run (h : Harmless msg eomorig comp_dn length) (hp : comp_dn < eomorig) (fuel : ℕ) (len : Option ℕ)
    (hrch : ReflTransGen (Move msg eomorig length) (comp_dn, 0) (p, dn.length)) :
    (∀ a ∈ (traceLoop msg eomorig comp_dn length fuel p dn len).reads, a < eomorig) ∧
      (traceLoop msg eomorig comp_dn length fuel p dn len).written ≤ length := by
  induction fuel generalizing p dn len with
  | zero =>
    refine ⟨by simp [traceLoop], ?_⟩
    have := (inside_of_reaches hp hrch).2
    change dn.length ≤ length
    omega
  | succ fuel ih =>
    obtain ⟨hlt, hdn⟩ := inside_of_reaches hp hrch
    have hover := h.inside p dn.length hrch
    by_cases hmove : ∃ y, Move msg eomorig length (p, dn.length) y
    · obtain ⟨y, hmove⟩ := hmove
      obtain ⟨dn', len', l, hdn', hrun, hreads⟩ := traceLoop_move comp_dn hmove hlt len
      have hrch' : ReflTransGen (Move msg eomorig length) (comp_dn, 0) (y.1, dn'.length) := by
        rw [hdn']
        exact hrch.tail hmove
      obtain ⟨hrs, hwrit⟩ := ih len' hrch'
      rw [hrun]
      exact ⟨forall_mem_append.2 ⟨hreads.2 hover, hrs⟩, hwrit⟩
    · obtain ⟨c, hrun, hc⟩ := traceLoop_stop comp_dn (not_exists.1 hmove) hlt (nil_or_lt hdn) len
      rw [hrun]
      exact ⟨hc.reads.2 hover, hc.written.2 fun hn => h.room p dn.length hrch hn.2 hn.1⟩

/-- A call returns, if the walk comes to no cycle of pointers. -/
theorem returns_of_acyclic (hp : comp_dn < eomorig)
    (h : ∀ p d, ReflTransGen (Move msg eomorig length) (comp_dn, 0) (p, d) → ¬TransGen (Hop msg eomorig) p p)
    (hrch : ReflTransGen (Move msg eomorig length) (comp_dn, 0) (p, d)) : ∀ dn len, dn.length = d →
      ∃ fuel, (traceLoop msg eomorig comp_dn length fuel p dn len).result ≠ none := by
  -- labels take room, and between two of them there are only so many pointers
  induction hroom : length - d using Nat.strong_induction_on generalizing p d with
  | _ room ih =>
    let s : Set ℕ := {q | q < eomorig ∧ ReflTransGen (Move msg eomorig length) (comp_dn, 0) (q, d)}
    have hs : s.Finite := (Set.finite_lt_nat eomorig).subset fun q hq => hq.1
    have hclo : ∀ q ∈ s, ∀ q', Hop msg eomorig q q' → q' ∈ s :=
      fun q hq q' hhop => ⟨hhop.2.2, hq.2.tail (.pointer hhop)⟩
    have hlt : p < eomorig := (inside_of_reaches hp hrch).1
    have hacc := acc_of_acyclic hs hclo (fun q hq => h q d hq.2) ⟨hlt, hrch⟩
    clear hlt
    revert hrch
    induction hacc with
    | intro p _ ihp =>
      rintro hrch dn len rfl
      obtain ⟨hlt, hdn⟩ := inside_of_reaches hp hrch
      by_cases hmove : ∃ y, Move msg eomorig length (p, dn.length) y
      · obtain ⟨y, hmove⟩ := hmove
        obtain ⟨dn', len', l, hdn', hrun, -⟩ := traceLoop_move comp_dn hmove hlt len
        have hrs : ∃ fuel, (traceLoop msg eomorig comp_dn length fuel y.1 dn' len').result ≠ none := by
          have hrch' := hrch.tail hmove
          generalize hx : (p, dn.length) = x at hmove
          cases hmove with
          | label hne _ _ hfits =>
            cases hx
            refine ih _ ?_ hrch' rfl dn' len' hdn'
            have : dn.length ≤ labelStart dn.length := by
              rw [labelStart]
              split_ifs <;> omega
            have hpos := toNat_pos hne
            omega
          | pointer hhop =>
            cases hx
            exact ihp _ hhop hrch' dn' len' hdn'
        obtain ⟨fuel, hfuel⟩ := hrs
        exact ⟨fuel + 1, by rw [hrun]; exact hfuel⟩
      · obtain ⟨c, hrun, hc⟩ := traceLoop_stop comp_dn (not_exists.1 hmove) hlt (nil_or_lt hdn) len
        exact ⟨1, by rw [hrun 0]; exact hc.returns⟩

/-- A walk that comes to a cycle of pointers does not return. -/
theorem traceLoop_cycle (comp_dn length : ℕ) (hcycle : TransGen (Hop msg eomorig) p p) (fuel : ℕ) (dn : List UInt8) (len : Option ℕ) :
    (traceLoop msg eomorig comp_dn length fuel p dn len).result = none := by
  induction fuel generalizing p len with
  | zero => rfl
  | succ fuel ih =>
    obtain ⟨q, ⟨hmask, hq, hlt⟩, hcycle'⟩ := cycle_next hcycle
    obtain ⟨hne, hne'⟩ := pointer_ne_zero hmask
    rw [traceLoop]
    simp only [if_neg hne, if_neg hne', if_pos hmask, hq, if_neg (not_le.2 hlt)]
    exact ih hcycle' _

/-- More labels and pointers make no difference after a call has returned. -/
theorem traceLoop_mono {r : Option ℕ} (h : (traceLoop msg eomorig comp_dn length fuel p dn len).result = some r) (k : ℕ) :
    (traceLoop msg eomorig comp_dn length (fuel + k) p dn len).result = some r := by
  induction fuel generalizing p dn len with
  | zero => simp [traceLoop] at h
  | succ fuel ih =>
    rw [add_right_comm, traceLoop]
    rw [traceLoop] at h
    dsimp only at h ⊢
    split_ifs at h ⊢
    all_goals first | exact h | exact ih h

/-- What is known of the size of the name when the loop is at `p`: it is what was left behind at the first pointer, or
    what is passed up to `p` and what the name at `p` occupies. -/
def Sized (msg : Mem) (comp_dn p : ℕ) : Option ℕ → Prop
  | none => comp_dn ≤ p ∧ ∀ j, Occupies msg p j → Occupies msg comp_dn (p - comp_dn + j)
  | some k => Occupies msg comp_dn k

theorem Sized.getD {j : ℕ} (h : Sized msg comp_dn p len) (hj : Occupies msg p j) :
    Occupies msg comp_dn (len.getD (p + j - comp_dn)) := by
  cases len with
  | none =>
    have hsub : p + j - comp_dn = p - comp_dn + j := by
      have := h.1
      omega
    rw [Option.getD_none, hsub]
    exact h.2 j hj
  | some k => exact h

theorem Sized.label (h : Sized msg comp_dn p len) (hne : msg p ≠ 0) (hmask : msg p &&& INDIR_MASK = 0) :
    Sized msg comp_dn (p + 1 + (msg p).toNat) len := by
  cases len with
  | none =>
    obtain ⟨hle, hall⟩ := h
    refine ⟨by omega, fun j hj => ?_⟩
    have hsub : p + 1 + (msg p).toNat - comp_dn + j = p - comp_dn + (1 + (msg p).toNat + j) := by omega
    rw [hsub]
    exact hall _ (.label hne hmask hj)
  | some k => exact h

/-- What is returned is the size of the name. -/
theorem traceLoop_size {k : ℕ} (h : Sized msg comp_dn p len)
    (hk : (traceLoop msg eomorig comp_dn length fuel p dn len).result = some (some k)) : Occupies msg comp_dn k := by
  induction fuel generalizing p dn len with
  | zero => simp [traceLoop] at hk
  | succ fuel ih =>
    rw [traceLoop] at hk
    dsimp only at hk
    by_cases hzero : msg p = 0
    · simp only [if_pos hzero, Option.some.injEq] at hk
      rw [← hk]
      exact h.getD (.root hzero)
    by_cases hmask : msg p &&& INDIR_MASK = 0
    · simp only [if_neg hzero, if_pos hmask] at hk
      by_cases hsep : dn ≠ [] ∧ NoRoom length dn.length
      · simp [if_pos hsep] at hk
      simp only [if_neg hsep] at hk
      set dn0 := if dn = [] then dn else dn ++ [DOT]
      by_cases hlen : NoRoom length (dn0.length + (msg p).toNat)
      · simp [if_pos hlen] at hk
      simp only [if_neg hlen] at hk
      by_cases hok : (traceLabel msg eomorig length (msg p).toNat (p + 1) dn0).2.1 = true
      · simp only [if_pos hok, (traceLabel_end hok).1] at hk
        exact ih (h.label hzero hmask) hk
      · simp [if_neg hok] at hk
    by_cases hptr : msg p &&& INDIR_MASK = INDIR_MASK
    · simp only [if_neg hzero, if_neg hmask, if_pos hptr] at hk
      by_cases hout : eomorig ≤ indirect msg (msg p) (p + 1)
      · simp [if_pos hout] at hk
      · simp only [if_neg hout] at hk
        have hsized : Sized msg comp_dn (indirect msg (msg p) (p + 1)) (some (len.getD (p + 2 - comp_dn))) :=
          h.getD (.pointer hptr)
        exact ih hsized hk
    · simp [if_neg hzero, if_neg hmask, if_neg hptr] at hk

/-- A call comes where the walk does. -/
theorem run_of_reaches (hp : comp_dn < eomorig) (h : ReflTransGen (Move msg eomorig length) (comp_dn, 0) x) :
    ∃ dn len l k, dn.length = x.2 ∧ ∀ fuel, traceLoop msg eomorig comp_dn length (fuel + k) comp_dn [] none =
      (traceLoop msg eomorig comp_dn length fuel x.1 dn len).after l := by
  induction h with
  | refl => exact ⟨[], none, [], 0, rfl, fun _ => rfl⟩
  | @tail x y hrch hmove ih =>
    obtain ⟨dn, len, l, k, hdn, hrun⟩ := ih
    have hmove' : Move msg eomorig length (x.1, dn.length) y := by rwa [hdn]
    obtain ⟨dn', len', l', hdn', hnx, -⟩ := traceLoop_move comp_dn hmove' (inside_of_reaches hp hrch).1 len
    refine ⟨dn', len', l ++ l', k + 1, hdn', fun fuel => ?_⟩
    rw [add_comm k 1, ← add_assoc, hrun, hnx]
    simp only [Call.after, append_assoc]

/-- What happens at a place that the walk comes to happens in a call. -/
theorem Safe.at_place {length : ℤ} (h : Safe msg eomorig comp_dn length) (hp : comp_dn < eomorig)
    (hrch : ReflTransGen (Move msg eomorig length.toNat) (comp_dn, 0) (p, d)) :
    ¬Overruns msg eomorig length.toNat p d ∧ ¬(length.toNat = 0 ∧ msg p = 0) := by
  obtain ⟨dn, len, l, k, rfl, hrun⟩ := run_of_reaches hp hrch
  obtain ⟨hlt, hdn⟩ := inside_of_reaches hp hrch
  have hreads := h.reads (1 + k)
  have hwri := h.writes (1 + k)
  rw [expandCall, hrun 1] at hreads hwri
  obtain ⟨-, hreads⟩ := forall_mem_append.1 hreads
  by_cases hmove : ∃ y, Move msg eomorig length.toNat (p, dn.length) y
  · obtain ⟨y, hmove⟩ := hmove
    obtain ⟨dn', len', l', -, hnx, hover⟩ := traceLoop_move comp_dn hmove hlt len
    rw [hnx 0] at hreads
    refine ⟨hover.1 (forall_mem_append.1 hreads).1, fun hroot => ?_⟩
    generalize hx : (p, dn.length) = x at hmove
    cases hmove with
    | label hne _ _ _ =>
      cases hx
      exact hne hroot.2
    | pointer hhop =>
      cases hx
      exact (pointer_ne_zero hhop.1).1 hroot.2
  · obtain ⟨c, hend, hc⟩ := traceLoop_stop comp_dn (not_exists.1 hmove) hlt (nil_or_lt hdn) len
    have hend0 : traceLoop msg eomorig comp_dn length.toNat 1 p dn len = c := hend 0
    rw [hend0] at hreads
    simp only [Call.after, hend0] at hwri
    exact ⟨hc.reads.1 hreads, hc.written.1 hwri⟩

/-- A call is safe if and only if the walk is harmless. -/
theorem safe_iff (length : ℤ) (hp : comp_dn < eomorig) :
    Safe msg eomorig comp_dn length ↔ Harmless msg eomorig comp_dn length.toNat := by
  constructor
  · intro h
    refine ⟨fun p d hrch hcycle => ?_, fun p d hrch => (h.at_place hp hrch).1,
      fun p d hrch hzero hleng => (h.at_place hp hrch).2 ⟨hleng, hzero⟩⟩
    obtain ⟨dn, len, l, k, -, hrun⟩ := run_of_reaches hp hrch
    obtain ⟨fuel, hfuel⟩ := h.returns
    obtain ⟨r, hr⟩ := Option.ne_none_iff_exists'.1 hfuel
    have hlater := traceLoop_mono hr k
    rw [hrun fuel] at hlater
    have hnever := traceLoop_cycle comp_dn length.toNat hcycle fuel dn len
    exact absurd (hnever.symm.trans hlater) (by simp)
  · intro h
    have hsized : Sized msg comp_dn comp_dn none := by
      refine ⟨le_rfl, fun j hj => ?_⟩
      rwa [Nat.sub_self, Nat.zero_add]
    exact ⟨returns_of_acyclic hp h.acyclic .refl [] none rfl, fun fuel => (h.inside_run hp fuel none .refl).1,
      fun fuel => (h.inside_run hp fuel none .refl).2, fun _ _ hk => traceLoop_size hsized hk⟩

theorem safe_iff_root : Safe (fun _ => 0) 1 0 1 ↔ Harmless (fun _ => 0) 1 0 (1 : ℤ).toNat := safe_iff 1 (by decide)

/-- A pointer whose second byte is behind the message, and one to itself. -/
theorem dnExpand_hostile : ¬Safe (fun _ => 0xc0) 1 0 256 ∧ ¬Safe (store (fun _ => 0) 0 [0xc0, 0]) 2 0 256 := by
  refine ⟨fun h => absurd (h.reads 1 1 (by decide)) (by decide), fun h => ?_⟩
  have hself : Hop (store (fun _ => 0) 0 [0xc0, 0]) 2 0 0 := ⟨by decide, by decide, by decide⟩
  obtain ⟨fuel, hfuel⟩ := h.returns
  exact hfuel (traceLoop_cycle 0 _ (.single hself) fuel [] none)

end Uwisc.ResComp
