import Uwisc.Sendmail.Prescan.Steps

/-!
# The scanner and the text

As long as the scanner does not go wrong, its variables tell where the text is, and the characters it
has stored are those that are kept (`Sync`). A step then reads one more character of the text
(`Sync.step`), and at the delimiter or the terminating null the vector is right (`Sync.ends`,
`Sync.stop`).
-/

namespace Uwisc.Sendmail

open Except Lib List

variable {ops : UInt8 → Bool} {delim b c : UInt8} {p d : ℕ} {s s' : Prescan} {t t' : Text}
  {w rest addr : List UInt8} {v : List (List Cell)} {r : Scanned} {x : Cell}

/-! ### Types of characters -/

theorem ascii_lt (b : UInt8) : ¬0x80 ≤ ascii b := by
  have hand : b.toNat &&& 127 ≤ 127 := Nat.and_le_right
  have hmask : (ascii b).toNat = b.toNat &&& 127 := UInt8.toNat_and ..
  rw [UInt8.le_iff_toNat_le, hmask]
  show ¬128 ≤ _
  omega

theorem toktype_picks (h : picks c = true) : toktype ops c = .ONE := by
  simp only [picks, decide_eq_true_eq] at h
  rw [toktype]
  rcases h with h | h | h | h <;> simp [h]

theorem toktype_space (h : isspace c = true ∨ c = 0x29) (hc : ¬0x80 ≤ c) : toktype ops c = .SPC := by
  have hpicks : ∀ a ∈ [MATCHCLASS, MATCHREPL, MATCHNCLASS, MACVALUE, 0x22],
      ¬(isspace a = true ∨ a = 0x29) := by
    intro a ha
    simp only [mem_cons, not_mem_nil, or_false] at ha
    rcases ha with rfl | rfl | rfl | rfl | rfl <;> decide
  have hne (a : UInt8) (ha : a ∈ [MATCHCLASS, MATCHREPL, MATCHNCLASS, MACVALUE, 0x22]) : c ≠ a := fun heq =>
    hpicks a ha (heq ▸ h)
  rw [toktype, if_neg (by simp [hne]), if_neg (by simp [hne]), if_neg (by simp [hne]), if_neg hc, if_pos h]

/-- The types of the other characters: atoms and operators. -/
theorem toktype_plain (h1 : picks c = false) (h2 : c ≠ 0x22) (h3 : ¬0x80 ≤ c → isspace c = false ∧ c ≠ 0x29) :
    toktype ops c = .ATM ∨ toktype ops c = .OPR := by
  simp only [picks, decide_eq_false_iff_not, not_or] at h1
  rw [toktype]
  by_cases hc : 0x80 ≤ c
  · simp [h1, h2, hc]
  · simp only [h1, h2, hc, h3 hc, or_self, if_false, Bool.false_eq_true]
    split_ifs <;> simp

variable {st ty : State} {o : Option UInt8}

theorem tab_spc (h1 : st ≠ .QST) (h2 : st ≠ .ONE) :
    (StateTab st .SPC).state = .SPC ∧ (StateTab st .SPC).M = true := by
  cases st <;> first | contradiction | exact ⟨rfl, rfl⟩

theorem tab_other (h1 : st ≠ .QST) (h2 : st ≠ .ONE) (h3 : ty ≠ .SPC) :
    (StateTab st ty).state = ty ∧ (StateTab st ty).M = false := by
  cases st <;> cases ty <;> first | contradiction | exact ⟨rfl, rfl⟩

theorem tab_B (h : (StateTab st ty).B = true) : st ≠ .QST ∧ st ≠ .ONE := by
  cases st <;> cases ty <;> simp [StateTab] at h ⊢

theorem tab_M (h : (StateTab st ty).M = true) : (StateTab st ty).state = .SPC := by
  cases st <;> cases ty <;> simp [StateTab] at h ⊢

theorem schar_eq (h : schar delim = c.toNat) : delim = c := by
  rw [schar] at h
  have := delim.toNat_lt
  split_ifs at h
  · exact UInt8.toNat_inj.1 (Int.ofNat_inj.1 h)
  · omega

theorem schar_neg_one (h : schar delim = -1) : delim = 0xff := by
  rw [schar] at h
  have hlt := delim.toNat_lt
  have hval : delim.toNat = 255 := by
    split_ifs at h
    omega
  exact UInt8.toNat_inj.1 hval

/-! ### In step with the text -/

/-- The variables of the scanner are those of the text. -/
structure Sync (delim : UInt8) (w : List UInt8) (s : Prescan) (t : Text) : Prop where
  reads : text w = some t
  bslashmode : s.bslashmode = t.esc
  cmntcnt : s.cmntcnt = t.depth
  anglecnt : s.anglecnt = t.angle
  quote : s.state = .QST ↔ t.quote = true
  one : s.state = .ONE ↔ t.one = true
  depth : 0 < t.depth → t.quote = false
  kept : s.words.flatten = t.kept
  nonzero : ∀ x ∈ t.kept, x.2 ≠ 0
  cur : t.quote = true → s.cur ≠ []
  quotes : ∀ tok ∈ s.words, ∀ x ∈ tok.head?, ∃ u, text (w.take x.1) = some u ∧ u.quote = false
  spc : delim = 0xff → t.angle = 0 → s.state ≠ .SPC

/-- A character `c` is entered as the text has it. -/
structure Typed (ops : UInt8 → Bool) (delim : UInt8) (t t' : Text) (b c : UInt8) (s : Prescan) : Prop where
  bslashmode : s.bslashmode = t'.esc
  cmntcnt : s.cmntcnt = t'.depth
  anglecnt : s.anglecnt = t'.angle
  keeps : t.keeps b = if (StateTab s.state (toktype ops c)).M then none else some c
  nonzero : (StateTab s.state (toktype ops c)).M = false → c ≠ 0
  quote : (StateTab s.state (toktype ops c)).state = .QST ↔ t'.quote = true
  one : (StateTab s.state (toktype ops c)).state = .ONE ↔ t'.one = true
  depth : 0 < t'.depth → t'.quote = false
  inside : ¬(schar delim = c.toNat ∧ s.anglecnt = 0 ∧ s.state ≠ .QST)
  goes : (StateTab s.state (toktype ops c)).M = true → ¬(delim = 0xff ∧ s.anglecnt = 0)

theorem tab_plain (h : ty = .ATM ∨ ty = .OPR) : (StateTab st ty).M = false ∧
    ((StateTab st ty).state = .QST ↔ st = .QST) ∧ (StateTab st ty).state ≠ .ONE := by
  rcases h with rfl | rfl <;> cases st <;> decide

theorem quoted_plain (b : UInt8) : toktype ops (quoted (ascii b)) = .ATM ∨ toktype ops (quoted (ascii b)) = .OPR := by
  rw [quoted]
  split_ifs with h
  · have hge : 0x80 ≤ ascii b ||| 0o200 := by
      rw [UInt8.le_iff_toNat_le, UInt8.toNat_or]
      exact Nat.right_le_or
    have hne (a : UInt8) (ha : a < 0x80) : ascii b ||| 0o200 ≠ a := fun heq => absurd (heq ▸ hge) (UInt8.not_le.2 ha)
    refine toktype_plain ?_ (hne _ (by decide)) fun hlt => absurd hge hlt
    simp [picks, hne MATCHCLASS (by decide), hne MATCHREPL (by decide), hne MATCHNCLASS (by decide),
      hne MACVALUE (by decide)]
  · rw [Classical.not_not] at h
    rw [h]
    exact toktype_plain (by decide) (by decide) fun _ => by decide

theorem quoted_ne_zero (b : UInt8) : quoted (ascii b) ≠ 0 := by
  rw [quoted]
  split_ifs with h
  · intro hzero
    have hge : 0x80 ≤ (ascii b ||| 0o200).toNat := by
      rw [UInt8.toNat_or]
      exact Nat.right_le_or
    rw [hzero] at hge
    exact absurd hge (by decide)
  · rw [Classical.not_not] at h
    rw [h]
    decide

theorem toktype_quote : toktype ops c = .QST ↔ c = 0x22 := by
  constructor
  · intro h
    rw [toktype] at h
    split_ifs at h
    assumption
  · rintro rfl
    rfl

theorem isspace_picks (h : isspace c = true) : picks c = false ∧ c ≠ 0x22 := by
  have hall : ∀ a ∈ [MATCHCLASS, MATCHREPL, MATCHNCLASS, MACVALUE, 0x22], isspace a = false := by
    intro a ha
    simp only [mem_cons, not_mem_nil, or_false] at ha
    rcases ha with rfl | rfl | rfl | rfl | rfl <;> decide
  have hne (a : UInt8) (ha : a ∈ [MATCHCLASS, MATCHREPL, MATCHNCLASS, MACVALUE, 0x22]) : c ≠ a := fun heq =>
    absurd (heq ▸ h) (by simp [hall a ha])
  simp [picks, hne]

theorem isspace_lt (hc : isspace c = true) : ¬0x80 ≤ c := by
  intro hge
  have hge : 128 ≤ c.toNat := hge
  simp only [isspace, UInt8.le_iff_toNat_le, Bool.decide_or, Bool.or_eq_true, decide_eq_true_eq] at hc
  rcases hc with hc | rfl
  · have : c.toNat ≤ 13 := hc.2
    omega
  · exact absurd hge (by decide)

/-- An atom or an operator is entered. -/
theorem Sync.plain (h : Sync delim w s t) (hstt : s'.state = s.state) (hbsl : s'.bslashmode = t'.esc)
    (hcmnt : s'.cmntcnt = t'.depth) (hang : s'.anglecnt = t'.angle) (hty : toktype ops c = .ATM ∨ toktype ops c = .OPR)
    (hkps : t.keeps b = some c) (hc : c ≠ 0) (hquo : t'.quote = t.quote) (hone : t'.one = false)
    (hdep : 0 < t'.depth → t'.quote = false)
    (hins : ¬(schar delim = c.toNat ∧ s'.anglecnt = 0 ∧ s'.state ≠ .QST)) : Typed ops delim t t' b c s' := by
  obtain ⟨hM, hQ, hO⟩ := @tab_plain s'.state _ hty
  refine ⟨hbsl, hcmnt, hang, by rw [hkps, hM]; rfl, fun _ => hc, ?_, ?_, hdep, hins, ?_⟩
  · rw [hQ, hstt, h.quote, hquo]
  · simp [hO, hone]
  · simp [hM]

/-- A character of a quoted string is entered. -/
theorem Sync.string (h : Sync delim w s t) (hesc : ¬t.esc = true) (hback : ascii b ≠ 0x5c) (hquo : t.quote = true)
    (hzero : ascii b ≠ 0) :
    Typed ops delim t { t.read b with quote := ascii b ≠ 0x22 } b (ascii b) s := by
  have hstt := h.quote.2 hquo
  have hdep : t.depth = 0 := Nat.eq_zero_of_not_pos fun hpos => by simp [h.depth hpos] at hquo
  have hone : t.one = false := Bool.eq_false_iff.2 fun hone => by
    rw [h.one.2 hone] at hstt
    contradiction
  have htab : StateTab s.state (toktype ops (ascii b)) = ⟨if ascii b = 0x22 then .OPR else .QST, false, false⟩ := by
    rw [hstt]
    by_cases hq : ascii b = 0x22
    · rw [if_pos hq, toktype_quote.2 hq]
      rfl
    · rw [if_neg hq]
      have hne : toktype ops (ascii b) ≠ .QST := fun hty => hq (toktype_quote.1 hty)
      cases hty : toktype ops (ascii b) <;> first | rfl | exact absurd hty hne
  refine ⟨h.bslashmode, h.cmntcnt, h.anglecnt, ?_, fun _ => hzero, ?_, ?_, ?_, fun hin => hin.2.2 hstt, ?_⟩
  · simp [htab, Text.keeps, hdep, hesc, hback, hquo]
  · rw [htab]
    by_cases hq : ascii b = 0x22 <;> simp [hq]
  · rw [htab]
    by_cases hq : ascii b = 0x22 <;> simp [hq, Text.read, hone]
  · exact fun hpos => absurd hpos (by simp [Text.read, hdep])
  · simp [htab]

/-- A blank ends a token, where it does not belong to a metacharacter. -/
theorem Sync.blank (h : Sync delim w s t) (hquo : t.quote = false) (hone : t.one = false) (hc : isspace c = true)
    (hin : ¬(schar delim = c.toNat ∧ s.anglecnt = 0)) (hnoc : t.angle = 0 → delim ≠ 0xff)
    (hspace : isspace (ascii b) = true) (hkps : t.keeps b = none) :
    Typed ops delim t { t.read b with quote := ascii b = 0x22, one := !t.one && picks (ascii b) } b c s := by
  have hstt : s.state ≠ .QST := fun hstt => by simp [h.quote.1 hstt] at hquo
  have hstt' : s.state ≠ .ONE := fun hstt => by simp [h.one.1 hstt] at hone
  obtain ⟨hpicks, hne⟩ := isspace_picks hspace
  have hty : toktype ops c = .SPC := toktype_space (.inl hc) (isspace_lt hc)
  obtain ⟨hspc, hM⟩ := tab_spc hstt hstt'
  refine ⟨h.bslashmode, h.cmntcnt, h.anglecnt, by rw [hty, hM, hkps]; rfl, by simp [hty, hM], ?_, ?_, ?_,
    fun hend => hin ⟨hend.1, hend.2.1⟩, ?_⟩
  · simp [hty, hspc, hne]
  · simp [hty, hspc, hpicks]
  · simp [hne]
  · exact fun _ hend => hnoc (h.anglecnt ▸ hend.2) hend.1

/-- Another character is entered. -/
theorem Sync.ordinary (h : Sync delim w s t) (hquo : t.quote = false) (hdep : t.depth = 0) (hzero : ascii b ≠ 0)
    (hpic : t.one = true → ascii b ≠ 0x22) (hspace : isspace (ascii b) = false) (hcls : ascii b ≠ 0x29)
    (hin : ¬(schar delim = (ascii b).toNat ∧ s.anglecnt = 0)) (hkps : t.keeps b = some (ascii b)) :
    Typed ops delim t { t.read b with quote := ascii b = 0x22, one := !t.one && picks (ascii b) } b (ascii b) s := by
  have hstt : s.state ≠ .QST := fun hstt => by simp [h.quote.1 hstt] at hquo
  have hdep' : ¬0 < t.depth := by simp [hdep]
  have hins : ¬(schar delim = (ascii b).toNat ∧ s.anglecnt = 0 ∧ s.state ≠ .QST) := fun hend =>
    hin ⟨hend.1, hend.2.1⟩
  by_cases hq : ascii b = 0x22
  · have hone : t.one = false := Bool.eq_false_iff.2 fun hone => hpic hone hq
    have hstt' : s.state ≠ .ONE := fun hstt => by simp [h.one.1 hstt] at hone
    have hty : toktype ops (ascii b) = .QST := toktype_quote.2 hq
    obtain ⟨htab, hM⟩ := tab_other hstt hstt' (show State.QST ≠ .SPC by decide)
    rw [← hty] at htab hM
    refine ⟨h.bslashmode, h.cmntcnt, h.anglecnt, by rw [hM, hkps]; rfl, fun _ => hzero, ?_, ?_,
      fun hpos => absurd hpos hdep', hins, by simp [hM]⟩
    · rw [htab, hty]
      simp [hq]
    · rw [htab, hty, hq]
      simp [hone]
      decide
  · have hquo' : decide (ascii b = 0x22) = t.quote := by simp [hq, hquo]
    cases hpicks : picks (ascii b) with
    | true =>
      have hty : toktype ops (ascii b) = .ONE := toktype_picks hpicks
      by_cases hone : s.state = .ONE
      · have htab : StateTab s.state (toktype ops (ascii b)) = ⟨.OPR, false, false⟩ := by rw [hone]; rfl
        refine ⟨h.bslashmode, h.cmntcnt, h.anglecnt, by rw [htab, hkps]; rfl, fun _ => hzero, ?_, ?_,
          fun hpos => absurd hpos hdep', hins, by simp [htab]⟩
        · simp [htab, hq]
        · simp [htab, h.one.1 hone]
      · have hone' : t.one = false := Bool.eq_false_iff.2 fun hone' => hone (h.one.2 hone')
        obtain ⟨htab, hM⟩ := tab_other hstt hone (show State.ONE ≠ .SPC by decide)
        rw [← hty] at htab hM
        refine ⟨h.bslashmode, h.cmntcnt, h.anglecnt, by rw [hM, hkps]; rfl, fun _ => hzero, ?_, ?_,
          fun hpos => absurd hpos hdep', hins, by simp [hM]⟩
        · rw [htab, hty]
          simp [hq]
        · rw [htab, hty]
          simp [hone']
    | false =>
      exact h.plain rfl h.bslashmode h.cmntcnt h.anglecnt (toktype_plain hpicks hq fun _ => ⟨hspace, hcls⟩) hkps
        hzero hquo' (by simp) (fun hpos => absurd hpos hdep') hins

/-- What a step does where nothing goes wrong: the character is dropped or entered. -/
theorem Sync.chew (ops : UInt8 → Bool) (h : Sync delim w s t) (hends : t.ends delim b = false)
    (hwrg : t.wrong delim b = false) (hchew : s.chew delim b = .ok (o, s')) :
    ∃ t', t.next b = some t' ∧ match o with
      | none => t.keeps b = none ∧ s'.bslashmode = t'.esc ∧ s'.cmntcnt = t'.depth ∧ s'.anglecnt = t'.angle ∧
          t'.angle = t.angle ∧ t'.quote = t.quote ∧ t'.one = t.one ∧ (0 < t'.depth → t'.quote = false)
      | some c => Typed ops delim t t' b c s' := by
  have hfull : ¬PSBUFSIZE ≤ s.q := fun hfull => by simp [Prescan.chew, hfull] at hchew
  have hbsl := h.bslashmode
  have hcmnt := h.cmntcnt
  have hang := h.anglecnt
  rw [Prescan.chew] at hchew
  simp only [if_neg hfull] at hchew
  rw [← ascii] at hchew
  by_cases hesc : t.esc = true
  · rw [if_pos (hbsl.trans hesc), ← quoted] at hchew
    cases hchew
    have hdep : t.depth = 0 := by simpa [Text.wrong, hesc] using hwrg
    refine ⟨_, if_pos hesc, h.plain rfl rfl hcmnt hang (quoted_plain b) ?_ (quoted_ne_zero b) rfl rfl h.depth ?_⟩
    · simp [Text.keeps, hdep, hesc]
    · rintro ⟨hdlm, hzero, hstt⟩
      have hquo : t.quote = false := Bool.eq_false_iff.2 fun hq => hstt (h.quote.2 hq)
      have hzero : t.angle = 0 := hang ▸ hzero
      simp [Text.ends, hdep, hquo, hzero, hesc, hdlm] at hends
  · rw [if_neg (hbsl ▸ hesc)] at hchew
    by_cases hback : ascii b = 0x5c
    · rw [if_pos hback] at hchew
      cases hchew
      refine ⟨_, (if_neg hesc).trans (if_pos hback), ?_, rfl, hcmnt, hang, rfl, rfl, rfl, h.depth⟩
      simp [Text.keeps, hesc, hback]
    · rw [if_neg hback] at hchew
      by_cases hquo : t.quote = true
      · have hstt := h.quote.2 hquo
        rw [if_pos hstt] at hchew
        cases hchew
        refine ⟨_, (if_neg hesc).trans ((if_neg hback).trans (if_pos hquo)), ?_⟩
        exact h.string hesc hback hquo (by simpa [Text.wrong, hesc, hback, hquo] using hwrg)
      rw [if_neg fun hstt => hquo (h.quote.1 hstt)] at hchew
      have hquo' : t.quote = false := Bool.eq_false_iff.2 hquo
      by_cases hopen : ascii b = 0x28
      · rw [if_pos hopen] at hchew
        cases hchew
        refine ⟨_, (if_neg hesc).trans ((if_neg hback).trans ((if_neg hquo).trans (if_pos hopen))), ?_, hbsl,
          congrArg (· + 1) hcmnt, hang, rfl, rfl, rfl, fun _ => hquo'⟩
        simp [Text.keeps, hesc, hquo, hopen]
      rw [if_neg hopen] at hchew
      by_cases hcls : ascii b = 0x29
      · rw [if_pos hcls] at hchew
        by_cases hdep : s.cmntcnt = 0
        · rw [if_pos hdep] at hchew
          contradiction
        · rw [if_neg hdep] at hchew
          cases hchew
          have hdep' : t.depth ≠ 0 := hcmnt ▸ hdep
          refine ⟨_, (if_neg hesc).trans ((if_neg hback).trans ((if_neg hquo).trans ((if_neg hopen).trans
            ((if_pos hcls).trans (if_neg hdep'))))), ?_⟩
          have hwrg' : t.one = false ∧ (t.angle = 0 → delim ≠ 0x29 ∧ delim ≠ 0xff) := by
            simpa [Text.wrong, hesc, hback, hquo, hopen, hcls, Nat.pos_of_ne_zero hdep'] using hwrg
          have hstt : s.state ≠ .QST := fun hstt => hquo (h.quote.1 hstt)
          have hone : s.state ≠ .ONE := fun hone => by simp [h.one.1 hone] at hwrg'
          have hty : toktype ops (ascii b) = .SPC := toktype_space (.inr hcls) (ascii_lt b)
          obtain ⟨hspc, hM⟩ := tab_spc hstt hone
          refine ⟨hbsl, congrArg (· - 1) hcmnt, hang, ?_, ?_, ?_, ?_, fun _ => hquo', ?_, ?_⟩
          · rw [hty, hM, if_pos rfl]
            exact if_pos (Nat.pos_of_ne_zero hdep')
          · simp [hty, hM]
          · simp [hty, hspc, Text.read, hquo']
          · simp [hty, hspc]
          · rintro ⟨hdlm, hzero, _⟩
            exact (hwrg'.2 (hang ▸ hzero)).1 ((schar_eq hdlm).trans hcls)
          · rintro _ ⟨hdlm, hzero⟩
            exact (hwrg'.2 (hang ▸ hzero)).2 hdlm
      rw [if_neg hcls] at hchew
      by_cases hdep : 0 < t.depth
      · rw [if_pos (hcmnt ▸ hdep)] at hchew
        cases hchew
        refine ⟨_, (if_neg hesc).trans ((if_neg hback).trans ((if_neg hquo).trans ((if_neg hopen).trans
          ((if_neg hcls).trans (if_pos hdep))))), ?_, hbsl, hcmnt, hang, rfl, rfl, rfl, fun _ => hquo'⟩
        simp [Text.keeps, hdep]
      rw [if_neg (hcmnt ▸ hdep)] at hchew
      have hdep' : t.depth = 0 := Nat.eq_zero_of_not_pos hdep
      by_cases hlt : ascii b = 0x3c
      · rw [if_pos hlt] at hchew
        cases hchew
        refine ⟨_, (if_neg hesc).trans ((if_neg hback).trans ((if_neg hquo).trans ((if_neg hopen).trans
          ((if_neg hcls).trans ((if_neg hdep).trans (if_pos hlt)))))), h.plain rfl hbsl hcmnt
          (congrArg (· + 1) hang) ?_ ?_ ?_ rfl rfl (fun _ => hquo') ?_⟩
        · rw [hlt]
          exact toktype_plain (by decide) (by decide) fun _ => by decide
        · simp [Text.keeps, hdep, hesc, hquo, hlt, isspace]
        · rw [hlt]
          decide
        · exact fun hend => absurd hend.2.1 (Nat.succ_ne_zero _)
      rw [if_neg hlt] at hchew
      by_cases hgt : ascii b = 0x3e
      · rw [if_pos hgt] at hchew
        by_cases hzero : s.anglecnt = 0
        · rw [if_pos hzero] at hchew
          contradiction
        · rw [if_neg hzero] at hchew
          cases hchew
          have hzero' : t.angle ≠ 0 := hang ▸ hzero
          refine ⟨_, (if_neg hesc).trans ((if_neg hback).trans ((if_neg hquo).trans ((if_neg hopen).trans
            ((if_neg hcls).trans ((if_neg hdep).trans ((if_neg hlt).trans ((if_pos hgt).trans
            (if_neg hzero')))))))), h.plain rfl hbsl hcmnt (congrArg (· - 1) hang) ?_ ?_ ?_ rfl rfl
            (fun _ => hquo') ?_⟩
          · rw [hgt]
            exact toktype_plain (by decide) (by decide) fun _ => by decide
          · simp [Text.keeps, hdep, hesc, hquo, hgt, isspace]
          · rw [hgt]
            decide
          · rintro ⟨hdlm, hone, _⟩
            rw [hgt] at hdlm
            have hone : t.angle - 1 = 0 := hang ▸ hone
            have hang' : t.angle = 1 := by omega
            simp [Text.wrong, hesc, hquo, hdep, hgt, schar_eq hdlm, hang'] at hwrg
      rw [if_neg hgt] at hchew
      refine ⟨_, (if_neg hesc).trans ((if_neg hback).trans ((if_neg hquo).trans ((if_neg hopen).trans
        ((if_neg hcls).trans ((if_neg hdep).trans ((if_neg hlt).trans (if_neg hgt))))))), ?_⟩
      have hwrg' : ascii b ≠ 0 ∧ (t.one = true → isspace (ascii b) = false ∧ ascii b ≠ 0x22) ∧
          (isspace (ascii b) = true → t.angle = 0 → delim ≠ 0xff) := by
        simpa [Text.wrong, hesc, hback, hquo, hopen, hcls, hdep', hlt, hgt, and_assoc] using hwrg
      have hends' : t.angle = 0 → schar delim ≠ (ascii b).toNat ∧ (delim = 0x20 → isspace (ascii b) = false) := by
        simpa [Text.ends, hdep', hquo', hesc, hwrg', hback, hopen, hcls, hlt, hgt] using hends
      by_cases hspace : isspace (ascii b) = true
      · have hone : t.one = false := Bool.eq_false_iff.2 fun hone => by simp [hwrg'.2.1 hone] at hspace
        have hkps : t.keeps b = none := by simp [Text.keeps, hesc, hback, hquo, hspace]
        by_cases hdlm : delim = 0x20
        · rw [if_pos ⟨hdlm, hspace⟩] at hchew
          cases hchew
          have hin : ¬(schar delim = (0x20 : UInt8).toNat ∧ s.anglecnt = 0) := fun hin => by
            simp [(hends' (hang ▸ hin.2)).2 hdlm] at hspace
          exact h.blank hquo' hone rfl hin (hwrg'.2.2 hspace) hspace hkps
        · rw [if_neg fun h => hdlm h.1] at hchew
          cases hchew
          have hin : ¬(schar delim = (ascii b).toNat ∧ s.anglecnt = 0) := fun hin =>
            (hends' (hang ▸ hin.2)).1 hin.1
          exact h.blank hquo' hone hspace hin (hwrg'.2.2 hspace) hspace hkps
      · rw [if_neg fun h => hspace h.2] at hchew
        cases hchew
        refine h.ordinary hquo' hdep' hwrg'.1 (fun hone => (hwrg'.2.1 hone).2) (by simpa using hspace) hcls
          (fun hin => (hends' (hang ▸ hin.2)).1 hin.1) ?_
        simp [Text.keeps, hdep, hesc, hback, hquo, hopen, hcls, hspace]

theorem tab_SPC (h : (StateTab st ty).state = .SPC) : (StateTab st ty).M = true := by
  cases st <;> cases ty <;> simp [StateTab] at h ⊢

section

variable (h : Sync delim w s t)

include h

theorem Sync.head_lt {tok : List Cell} (htok : tok ∈ s.words) (hx : x ∈ tok.head?) :
    x.1 < w.length := by
  refine (text_place h.reads).2 x ?_
  rw [← h.kept]
  exact mem_flatten.2 ⟨tok, htok, mem_of_mem_head? hx⟩

theorem Sync.dropped (hs : Prescan.Same s s') (hnx : t.next b = some t')
    (hkps : t.keeps b = none) (hbsl : s'.bslashmode = t'.esc) (hcmnt : s'.cmntcnt = t'.depth)
    (hang : s'.anglecnt = t'.angle) (hang' : t'.angle = t.angle) (hquo : t'.quote = t.quote)
    (hone : t'.one = t.one) (hdep : 0 < t'.depth → t'.quote = false) : Sync delim (w ++ [b]) s' t' := by
  obtain ⟨hcur, hwds⟩ := Prescan.words_of_same hs
  have hkept : t'.kept = t.kept := by
    rw [(Text.next_read hnx).2, Text.fresh, hkps]
    exact append_nil _
  refine ⟨by rw [text_concat, h.reads]; exact hnx, hbsl, hcmnt, hang, ?_, ?_, hdep, ?_, ?_, ?_, ?_, ?_⟩
  · rw [hs.state, hquo, h.quote]
  · rw [hs.state, hone, h.one]
  · rw [hwds, hkept, h.kept]
  · rw [hkept]
    exact h.nonzero
  · rw [hcur, hquo]
    exact h.cur
  · rw [hwds]
    intro tok htok x hx
    rw [text_take (h.head_lt htok hx).le]
    exact h.quotes tok htok x hx
  · rw [hs.state, hang']
    exact h.spc

theorem Sync.entered (hs : Prescan.Same s s') (hnx : t.next b = some t')
    (htyped : Typed ops delim t t' b c s') {s1 : Prescan} (he : Prescan.Entered ops delim w.length c s' s1) :
    Sync delim (w ++ [b]) s1 t' := by
  obtain ⟨hcur, hwds⟩ := Prescan.words_of_same hs
  set f := if (StateTab s'.state (toktype ops c)).M then [] else [(w.length, c)] with hf
  have hkept : t'.kept = t.kept ++ f := by
    rw [(Text.next_read hnx).2, Text.fresh, htyped.keeps, (text_place h.reads).1, hf]
    split_ifs <;> rfl
  have hfla : s1.words.flatten = t.kept ++ f := by
    rw [← h.kept, ← hwds]
    rcases he.grows with hgrw | ⟨_, hgrw⟩ <;> rw [hgrw] <;> simp [Prescan.words, hf]
  refine ⟨by rw [text_concat, h.reads]; exact hnx, he.bslashmode.trans htyped.bslashmode,
    he.cmntcnt.trans htyped.cmntcnt, he.anglecnt.trans htyped.anglecnt, he.state ▸ htyped.quote,
    he.state ▸ htyped.one, htyped.depth, hfla.trans hkept.symm, ?_, ?_, ?_, ?_⟩
  · rw [hkept]
    intro x hx
    rcases mem_append.1 hx with hx | hx
    · exact h.nonzero x hx
    · rw [hf] at hx
      split_ifs at hx with hM
      · exact absurd hx not_mem_nil
      · rw [mem_singleton.1 hx]
        exact htyped.nonzero (by simpa using hM)
  · intro hquo hnil
    have hM : (StateTab s'.state (toktype ops c)).M = false := Bool.eq_false_iff.2 fun hM => by
      have := htyped.quote.2 hquo
      rw [tab_M hM] at this
      contradiction
    rw [he.cur, hM] at hnil
    simp at hnil
  · -- A token begins with a character that is in no string.
    have hnew (hquo : t.quote = false) : ∀ x ∈ f.head?, ∃ u, text ((w ++ [b]).take x.1) = some u ∧ u.quote = false := by
      intro x hx
      rw [hf] at hx
      split_ifs at hx
      · contradiction
      · cases hx
        exact ⟨t, by rw [text_take le_rfl, take_length, h.reads], hquo⟩
    have hold : ∀ tok ∈ s.words, ∀ x ∈ tok.head?, ∃ u, text ((w ++ [b]).take x.1) = some u ∧ u.quote = false :=
      fun tok htok x hx => by
        rw [text_take (h.head_lt htok hx).le]
        exact h.quotes tok htok x hx
    have hwor1 : s1.words = s1.av ++ [s1.cur] := rfl
    rw [hwor1, he.av, he.cur, hwds, hcur, hs.av]
    intro tok htok
    rcases mem_append.1 htok with htok | htok
    · split_ifs at htok
      · exact hold tok htok
      · exact hold tok (mem_append_left _ htok)
    · obtain rfl := mem_singleton.1 htok
      by_cases hB : (StateTab s'.state (toktype ops c)).B = true
      · rw [if_pos hB, nil_append]
        exact hnew (Bool.eq_false_iff.2 fun hquo => (tab_B hB).1 (hs.state ▸ h.quote.2 hquo))
      · rw [if_neg hB]
        cases hnil : s.cur with
        | nil =>
          exact hnew (Bool.eq_false_iff.2 fun hquo => h.cur hquo hnil)
        | cons y tok =>
          intro x hx
          exact hold s.cur (mem_append_right _ (mem_singleton_self _)) x (by rw [hnil]; exact hx)
  · intro hdlm hang hstt
    exact htyped.goes (tab_SPC (he.state ▸ hstt)) ⟨hdlm, htyped.anglecnt.trans hang⟩

theorem Sync.stored : Sync delim w s.stored t := by
  refine ⟨h.reads, h.bslashmode, h.cmntcnt, h.anglecnt, h.quote, h.one, h.depth, ?_, h.nonzero, ?_, ?_, h.spc⟩
  · rw [Prescan.words_stored, h.kept]
  · rw [Prescan.cur_stored]
    exact h.cur
  · rw [Prescan.words_stored]
    exact h.quotes

/-! ### What is right -/

theorem Sync.tokenised (hv : Prescan.Final s v) (hquo : t.quote = false) (hdep : t.depth = 0)
    (hang : t.angle = 0) (haddr : addr.take w.length = w)
    (hd : addr.getD w.length 0 = 0 ∨ ascii (addr.getD w.length 0) ≠ 0 ∧
      (schar delim = (ascii (addr.getD w.length 0)).toNat ∨ delim = 0x20 ∧ isspace (ascii (addr.getD w.length 0)))) :
    Tokenised delim addr w.length v := by
  have hcstr : ∀ wd ∈ s.words, cstr wd = wd := fun wd hwd => cstr_eq_self fun x hx =>
    h.nonzero x (h.kept ▸ mem_flatten.2 ⟨wd, hwd, hx⟩)
  refine ⟨⟨t, by rw [haddr, h.reads], hquo, hdep, hang, ?_⟩, fun tok htok x hx => ?_, hd⟩
  · rw [hv.flatten, ← h.kept, flatMap, map_congr_left hcstr, map_id']
  · obtain ⟨wd, hwd, rfl⟩ := hv.mem tok htok
    rw [hcstr wd hwd] at hx
    obtain ⟨u, hu⟩ := h.quotes wd hwd x hx
    rw [← haddr, take_take, min_eq_left (h.head_lt hwd hx).le] at hu
    exact ⟨u, hu⟩

theorem Sync.stop (haddr : addr.take w.length = w) (hd : addr.getD w.length 0 = 0)
    (hr : (s.stop w.length).result = .ok v) : Tokenised delim addr (s.stop w.length).delimChar v := by
  obtain ⟨hplc, hfinal, hcmnt, hang, hstt⟩ := stop_final hr
  rw [hplc]
  exact h.tokenised hfinal (Bool.eq_false_iff.2 fun hq => hstt (h.quote.2 hq)) (h.cmntcnt ▸ hcmnt)
    (h.anglecnt ▸ hang) haddr (.inl hd)

theorem Sync.step (hb : b ≠ 0) (hends : t.ends delim b = false)
    (hwrg : t.wrong delim b = false) (hs : s.step ops delim w.length b = .inl s') :
    ∃ t', t.next b = some t' ∧ Sync delim (w ++ [b]) s' t' := by
  obtain ⟨o, s1, hchew, ho⟩ := step_inl hb hs
  have hsame := chew_ok hchew
  obtain ⟨t', hnx, hcas⟩ := h.stored.chew ops hends hwrg hchew
  cases o with
  | none =>
    obtain rfl : s' = s1 := ho
    obtain ⟨hkps, hbsl, hcmnt, hang, hang', hquo, hone, hdep⟩ := hcas
    exact ⟨t', hnx, h.stored.dropped hsame hnx hkps hbsl hcmnt hang hang' hquo hone hdep⟩
  | some c => exact ⟨t', hnx, h.stored.entered hsame hnx hcas ho⟩

/-- Where nothing goes wrong the scan does not end before the delimiter. -/
theorem Sync.goes (hb : b ≠ 0) (hends : t.ends delim b = false)
    (hwrg : t.wrong delim b = false) (hs : s.step ops delim w.length b = .inr r) : r.result ≠ .ok v := by
  intro hr
  obtain ⟨c, s1, hchew, hc, henter⟩ := step_inr hb hs hr
  obtain ⟨t', hnx, htyped⟩ := h.stored.chew ops hends hwrg hchew
  have htyped : Typed ops delim t t' b c s1 := htyped
  obtain ⟨hdone, hin | ⟨hin, hB, hstops⟩⟩ := Prescan.enter_inr hc henter hr
  · exact htyped.inside hin
  · split_ifs at hstops with hM
    · exact htyped.goes hM ⟨schar_neg_one hstops.1, hstops.2⟩
    · rcases hstops with hzero | hstops
      · exact htyped.nonzero (by simpa using hM) hzero
      · exact hin ⟨hstops.1, hstops.2, (tab_B hB).1⟩

end

theorem schar_le (delim : UInt8) : schar delim ≤ 127 := by
  rw [schar]
  have := delim.toNat_lt
  split_ifs <;> omega

/-- What `ends` says. -/
theorem Text.ends_iff : t.ends delim b = true ↔ (t.depth = 0 ∧ t.quote = false ∧ t.angle = 0) ∧
    if t.esc = true then schar delim = (quoted (ascii b)).toNat
    else ascii b ∉ [0, 0x5c, 0x28, 0x29, 0x3c, 0x3e] ∧
      (schar delim = (ascii b).toNat ∨ delim = 0x20 ∧ isspace (ascii b)) := by
  cases hesc : t.esc <;> simp [Text.ends, hesc, and_assoc]

/-- At the delimiter the scan ends. -/
theorem Sync.chew_ends (h : Sync delim w s t) (hends : t.ends delim b = true)
    (hchew : s.chew delim b = .ok (o, s')) :
    ∃ c, o = some c ∧ schar delim = c.toNat ∧ s'.anglecnt = 0 ∧ s'.state ≠ .QST := by
  have hfull : ¬PSBUFSIZE ≤ s.q := fun hfull => by simp [Prescan.chew, hfull] at hchew
  obtain ⟨⟨hdep, hquo, hang⟩, hends⟩ := Text.ends_iff.1 hends
  have hstt : s.state ≠ .QST := fun hstt => by simp [h.quote.1 hstt] at hquo
  have hzero : s.anglecnt = 0 := h.anglecnt.trans hang
  have hcmnt : s.cmntcnt = 0 := h.cmntcnt.trans hdep
  rw [Prescan.chew] at hchew
  simp only [if_neg hfull] at hchew
  rw [← ascii, h.bslashmode] at hchew
  cases hesc : t.esc with
  | true =>
    rw [if_pos hesc] at hchew hends
    cases hchew
    exact ⟨_, rfl, hends, hzero, hstt⟩
  | false =>
    rw [if_neg (by simp [hesc])] at hchew hends
    obtain ⟨hnot, hends⟩ := hends
    simp only [mem_cons, not_mem_nil, or_false, not_or] at hnot
    obtain ⟨_, hback, hopen, hcls, hlt, hgt⟩ := hnot
    rw [if_neg hback, if_neg hstt, if_neg hopen, if_neg hcls, if_neg (by omega), if_neg hlt, if_neg hgt] at hchew
    split_ifs at hchew with hspace
    · cases hchew
      exact ⟨_, rfl, by rw [hspace.1]; rfl, hzero, hstt⟩
    · cases hchew
      exact ⟨_, rfl, hends.resolve_right hspace, hzero, hstt⟩

theorem Sync.not_ends (h : Sync delim w s t) (hb : b ≠ 0) (hends : t.ends delim b = true) :
    s.step ops delim p b ≠ .inl s' := by
  intro hs
  obtain ⟨o, s1, hchew, ho⟩ := step_inl hb hs
  obtain ⟨c, rfl, hdlm⟩ := h.stored.chew_ends hends hchew
  exact Prescan.Entered.inside ho hdlm

theorem Sync.ends (h : Sync delim w s t) (hb : b ≠ 0) (haddr : addr = w ++ b :: rest) (hends : t.ends delim b = true)
    (hs : s.step ops delim w.length b = .inr r) (hr : r.result = .ok v) : Tokenised delim addr r.delimChar v := by
  obtain ⟨hplc, hfinal⟩ := step_final hb hs hr
  obtain ⟨⟨hdep, hquo, hang⟩, hends⟩ := Text.ends_iff.1 hends
  have hget : addr.getD w.length 0 = b := by rw [haddr]; simp
  rw [hplc]
  refine h.tokenised hfinal hquo hdep hang (by rw [haddr]; simp) (.inr ?_)
  rw [hget]
  split_ifs at hends with hesc
  · -- Of the characters after a backslash only `!` can be the delimiter.
    have hbang : ascii b = 0x21 := by
      by_contra hne
      rw [quoted, if_pos hne, UInt8.toNat_or] at hends
      have hge : 128 ≤ (ascii b).toNat ||| 128 := Nat.right_le_or
      have := schar_le delim
      change schar delim = (((ascii b).toNat ||| 128 : ℕ) : ℤ) at hends
      omega
    rw [hbang] at hends ⊢
    exact ⟨by decide, .inl hends⟩
  · exact ⟨fun hzero => hends.1 (by rw [hzero]; exact mem_cons_self), hends.2⟩

end Uwisc.Sendmail
