import Uwisc.Sendmail.Prescan.Sync

/-!
# What is tokenised right

Where the scanner goes wrong, the vector is spoilt (`Spoilt`): a character is in it that is not kept,
one is missing, or a quoted string is cut in two; whatever follows does not mend it
(`Spoilt.scan`). So the vectors that are right are those of the addresses that are clean up to the
delimiter (`prescan_exact_iff`).
-/

namespace Uwisc.Sendmail

open Lib List

variable {ops : UInt8 → Bool} {delim b c : UInt8} {p d : ℕ} {s s' : Prescan} {t t' : Text}
  {w rest addr : List UInt8} {v : List (List Cell)} {r : Scanned} {x : Cell}

/-! ### What is wrong -/

/-- The vector will not be right, however the scan goes on. -/
inductive Spoilt (w : List UInt8) (s : Prescan) : Prop
  | unbalanced : text w = none → Spoilt w s
  | extra {t : Text} {x : Cell} : text w = some t → x ∈ s.words.flatMap cstr → x ∉ t.kept → Spoilt w s
  | missing {t : Text} {x : Cell} : text w = some t → x ∈ t.kept → x ∉ s.words.flatten → Spoilt w s
  | null {t : Text} {x : Cell} : text w = some t → x ∈ t.kept → x.2 = 0 → Spoilt w s
  | cut {t : Text} {tok : List Cell} {x : Cell} : tok ∈ s.words → (cstr tok).head? = some x →
      text (w.take x.1) = some t → t.quote = true → Spoilt w s
  | picked {t : Text} : text w = some t → t.quote = true → s.state = .OPR → s.bslashmode = t.esc →
      s.cmntcnt = 0 → t.depth = 0 → s.cur ≠ [] → Spoilt w s

theorem Spoilt.not_tokenised (h : Spoilt w s) (hv : Prescan.Final s v) (haddr : addr.take w.length = w)
    (hpla : ∀ x ∈ s.words.flatten, x.1 < w.length) : ¬Tokenised delim addr w.length v := by
  rintro ⟨⟨t, ht, hquote, hdep, hang, hkept⟩, hquo, _⟩
  rw [haddr] at ht
  have hmem {x : Cell} : x ∈ t.kept ↔ ∃ wd ∈ s.words, x ∈ cstr wd := by
    rw [← hkept, hv.flatten, mem_flatMap]
  cases h with
  | unbalanced hnone =>
    rw [ht] at hnone
    contradiction
  | extra ht' hx hnot =>
    obtain rfl := Option.some_inj.1 (ht.symm.trans ht')
    exact hnot (hmem.2 (mem_flatMap.1 hx))
  | missing ht' hx hnot =>
    obtain rfl := Option.some_inj.1 (ht.symm.trans ht')
    obtain ⟨wd, hwd, hx⟩ := hmem.1 hx
    exact hnot (mem_flatten.2 ⟨wd, hwd, cstr_subset hx⟩)
  | null ht' hx hzero =>
    obtain rfl := Option.some_inj.1 (ht.symm.trans ht')
    obtain ⟨wd, _, hx⟩ := hmem.1 hx
    exact ne_zero_of_mem_cstr hx hzero
  | @cut u tok x htok hhead hu hopen =>
    have hx : x ∈ cstr tok := mem_of_mem_head? hhead
    have hlt : x.1 < w.length := hpla x (mem_flatten.2 ⟨tok, htok, cstr_subset hx⟩)
    obtain ⟨u', hu', hshut⟩ := hquo _ (hv.mem' tok htok (ne_nil_of_mem hx)) x hhead
    rw [← haddr, take_take, min_eq_left hlt.le, hu'] at hu
    cases hu
    simp [hshut] at hopen
  | picked ht' hopen =>
    obtain rfl := Option.some_inj.1 (ht.symm.trans ht')
    simp [hquote] at hopen

theorem places_step (hpla : ∀ x ∈ s.words.flatten, x.1 < w.length) (hb : b ≠ 0)
    (hs : s.step ops delim w.length b = .inl s') : ∀ x ∈ s'.words.flatten, x.1 < (w ++ [b]).length := by
  obtain ⟨f, hf, hgrw⟩ := step_grows hb hs
  intro x hx
  rw [length_append, length_singleton]
  rcases mem_append.1 (grows_flatten hgrw ▸ hx) with hx | hx
  · exact (hpla x hx).trans (Nat.lt_succ_self _)
  · exact (hf x hx).symm ▸ Nat.lt_succ_self _

/-- A character that begins a token in a string spoils the vector. -/
theorem Spoilt.of_entered (ht : text w = some t) (hquote : t.quote = true) {s1 : Prescan} (hstt : s1.state = .OPR)
    (hM : (StateTab s1.state (toktype ops c)).M = false) (he : Prescan.Entered ops delim w.length c s1 s') :
    Spoilt (w ++ [b]) s' := by
  have hB : (StateTab s1.state (toktype ops c)).B = true := by
    rw [hstt]
    cases toktype ops c <;> rfl
  have hc : c ≠ 0 := by simpa [hM] using he.goes hB
  have hcur : s'.cur = [(w.length, c)] := by rw [he.cur, hB, hM]; rfl
  refine .cut (t := t) (x := (w.length, c)) (mem_append_right _ (mem_singleton_self _)) ?_ ?_ hquote
  · rw [hcur]
    simp [cstr, hc]
  · rw [text_take le_rfl, take_length, ht]

theorem Spoilt.picked_step (ht : text w = some t) (hquote : t.quote = true) (hstt : s.state = .OPR)
    (hbsl : s.bslashmode = t.esc) (hcmnt : s.cmntcnt = 0) (hdep : t.depth = 0) (hcur : s.cur ≠ [])
    (hpla : ∀ x ∈ s.words.flatten, x.1 < w.length) (hb : b ≠ 0) (hs : s.step ops delim w.length b = .inl s') :
    Spoilt (w ++ [b]) s' := by
  obtain ⟨o, s1, hchew, ho⟩ := step_inl hb hs
  obtain ⟨hcur1, hwor1⟩ := words_chew hchew
  have hsta1 : s1.state = .OPR := (chew_ok hchew).state.trans hstt
  have hfull : ¬PSBUFSIZE ≤ s.stored.q := fun hfull => by simp [Prescan.chew, hfull] at hchew
  have htext : text (w ++ [b]) = t.next b := by rw [text_concat, ht]; rfl
  rw [Prescan.chew] at hchew
  simp only [if_neg hfull] at hchew
  rw [← ascii] at hchew
  have hbsl' : s.stored.bslashmode = t.esc := hbsl
  by_cases hesc : t.esc = true
  · rw [if_pos (hbsl'.trans hesc), ← quoted] at hchew
    cases hchew
    exact .of_entered ht hquote hsta1 (tab_plain (quoted_plain b)).1 ho
  rw [if_neg (hbsl' ▸ hesc)] at hchew
  by_cases hback : ascii b = 0x5c
  · rw [if_pos hback] at hchew
    cases hchew
    obtain rfl : s' = _ := ho
    exact .picked (htext.trans ((if_neg hesc).trans (if_pos hback))) hquote hstt rfl hcmnt hdep
      (hcur1 ▸ hcur)
  · -- Any other character is kept of a string; the scanner drops it, or begins a token with it.
    have hnx : text (w ++ [b]) = some { t.read b with quote := ascii b ≠ 0x22 } :=
      htext.trans ((if_neg hesc).trans ((if_neg hback).trans (if_pos hquote)))
    have hkps : (w.length, ascii b) ∈ (t.read b).kept := by
      have hkps : t.keeps b = some (ascii b) := by simp [Text.keeps, hdep, hesc, hback, hquote]
      rw [Text.read, hkps, ← (text_place ht).1]
      exact mem_append_right _ (mem_singleton_self _)
    have hmis (hfla : s'.words.flatten = s.words.flatten) : Spoilt (w ++ [b]) s' := by
      refine .missing hnx hkps fun hmem => ?_
      rw [hfla] at hmem
      exact absurd (hpla _ hmem) (lt_irrefl _)
    cases o with
    | none =>
      obtain rfl : s' = s1 := ho
      exact hmis (congrArg _ hwor1)
    | some c =>
      have ho : Prescan.Entered ops delim w.length c s1 s' := ho
      cases hM : (StateTab s1.state (toktype ops c)).M with
      | true =>
        have hgrw := grows_flatten ho.grows
        rw [hM, if_pos rfl, append_nil, hwor1] at hgrw
        exact hmis hgrw
      | false => exact .of_entered ht hquote hsta1 hM ho

/-- What is spoilt once stays so. -/
theorem Spoilt.step (h : Spoilt w s) (hpla : ∀ x ∈ s.words.flatten, x.1 < w.length) (hb : b ≠ 0)
    (hs : s.step ops delim w.length b = .inl s') : Spoilt (w ++ [b]) s' := by
  obtain ⟨f, hf, hgrw⟩ := step_grows hb hs
  cases hnx : text (w ++ [b]) with
  | none => exact .unbalanced hnx
  | some t' =>
    have hnx' := hnx
    rw [text_concat] at hnx'
    obtain ⟨t, ht, hread⟩ := Option.bind_eq_some_iff.1 hnx'
    obtain ⟨hplc, hkep⟩ := text_place ht
    have hkept := (Text.next_read hread).2
    cases h with
    | unbalanced hnone =>
      rw [ht] at hnone
      contradiction
    | @extra u x ht' hx hnot =>
      obtain rfl := Option.some_inj.1 (ht.symm.trans ht')
      obtain ⟨tok, htok, hx⟩ := mem_flatMap.1 hx
      obtain ⟨tok', htok', hx', _⟩ := mem_words_of_grows hgrw htok hx
      have hlt : x.1 < w.length := hpla x (mem_flatten.2 ⟨tok, htok, cstr_subset hx⟩)
      refine .extra hnx (mem_flatMap.2 ⟨tok', htok', hx'⟩) fun hmem => ?_
      rcases mem_append.1 (hkept ▸ hmem) with hmem | hmem
      · exact hnot hmem
      · exact absurd (Text.mem_fresh hmem) (by omega)
    | @missing u x ht' hx hnot =>
      obtain rfl := Option.some_inj.1 (ht.symm.trans ht')
      refine .missing hnx (hkept ▸ mem_append_left _ hx) fun hmem => ?_
      rcases mem_append.1 (grows_flatten hgrw ▸ hmem) with hmem | hmem
      · exact hnot hmem
      · exact absurd (hf x hmem) (hkep x hx).ne
    | @null u x ht' hx hzero =>
      obtain rfl := Option.some_inj.1 (ht.symm.trans ht')
      exact .null hnx (hkept ▸ mem_append_left _ hx) hzero
    | @cut u tok x htok hhead hu hopen =>
      have hx : x ∈ cstr tok := mem_of_mem_head? hhead
      have hlt : x.1 < w.length := hpla x (mem_flatten.2 ⟨tok, htok, cstr_subset hx⟩)
      obtain ⟨tok', htok', _, hhead'⟩ := mem_words_of_grows hgrw htok hx
      exact .cut htok' (hhead' x hhead) ((text_take hlt.le).trans hu) hopen
    | picked ht' hquote hstt hbsl hcmnt hdep hcur =>
      obtain rfl := Option.some_inj.1 (ht.symm.trans ht')
      exact Spoilt.picked_step ht hquote hstt hbsl hcmnt hdep hcur hpla hb hs

/-- The vector of a scan that is spoilt is not right. -/
theorem Spoilt.scan (h : Spoilt w s) (hpla : ∀ x ∈ s.words.flatten, x.1 < w.length) (haddr : addr = w ++ rest)
    (hr : (scan ops delim w.length rest s).result = .ok v) :
    ¬Tokenised delim addr (scan ops delim w.length rest s).delimChar v := by
  induction rest generalizing w s with
  | nil =>
    obtain ⟨hplc, hfinal, _⟩ := stop_final hr
    rw [Sendmail.scan, hplc]
    exact h.not_tokenised hfinal (by rw [haddr, append_nil, take_length]) hpla
  | cons b rest ih =>
    rw [Sendmail.scan] at hr ⊢
    by_cases hb : b = 0
    · subst hb
      have hstep : s.step ops delim w.length 0 = .inr (s.stop w.length) := if_pos rfl
      simp only [hstep] at hr ⊢
      obtain ⟨hplc, hfinal, _⟩ := stop_final hr
      rw [hplc]
      exact h.not_tokenised hfinal (by rw [haddr]; simp) hpla
    · cases hs : s.step ops delim w.length b with
      | inl s' =>
        simp only [hs] at hr ⊢
        have hlen : (w ++ [b]).length = w.length + 1 := by rw [length_append, length_singleton]
        have := ih (h.step hpla hb hs) (places_step hpla hb hs) (by rw [haddr]; simp)
        rw [hlen] at this
        exact this hr
      | inr r =>
        simp only [hs] at hr ⊢
        obtain ⟨hplc, hfinal⟩ := step_final hb hs hr
        rw [hplc]
        exact h.not_tokenised hfinal (by rw [haddr]; simp) hpla

/-! ### What goes wrong -/

theorem Text.wrong_cases (h : t.wrong delim b = true) : (t.esc = true ∧ 0 < t.depth) ∨
    (t.esc = false ∧ ascii b ≠ 0x5c ∧ t.quote = true ∧ ascii b = 0) ∨
    (t.esc = false ∧ t.quote = false ∧ ascii b = 0x29 ∧ 0 < t.depth ∧
      (t.one = true ∨ t.angle = 0 ∧ (delim = 0x29 ∨ delim = 0xff))) ∨
    (t.esc = false ∧ t.quote = false ∧ t.depth = 0 ∧ ascii b = 0x3e ∧ t.angle = 1 ∧ delim = 0x3e) ∨
    (t.esc = false ∧ t.quote = false ∧ t.depth = 0 ∧ ascii b ∉ [0x5c, 0x28, 0x29, 0x3c, 0x3e] ∧
      (ascii b = 0 ∨ t.one = true ∧ (isspace (ascii b) = true ∨ ascii b = 0x22) ∨
        isspace (ascii b) = true ∧ t.angle = 0 ∧ delim = 0xff)) := by
  rw [Text.wrong] at h
  split_ifs at h with h1 h2 h3 h4 h5 h6 h7 h8
  · exact .inl ⟨h1, by simpa using h⟩
  · exact .inr (.inl ⟨by simpa using h1, h2, h3, by simpa using h⟩)
  · refine .inr (.inr (.inl ⟨by simpa using h1, by simpa using h3, h5, ?_⟩))
    simpa [and_assoc] using h
  · refine .inr (.inr (.inr (.inl ⟨by simpa using h1, by simpa using h3, by simpa using h6, h8, ?_⟩)))
    simpa using h
  · refine .inr (.inr (.inr (.inr ⟨by simpa using h1, by simpa using h3, by simpa using h6, ?_, ?_⟩)))
    · simp [h2, h4, h5, h7, h8]
    · simpa [and_assoc, or_assoc] using h

/-- A scan that ends where the text does not, or not at the delimiter. -/
theorem Sync.fails (h : Sync delim w s t) (hb : b ≠ 0) (haddr : addr = w ++ b :: rest) (hends : t.ends delim b = false)
    (hwrg : t.wrong delim b = true) (hs : s.step ops delim w.length b = .inr r) (hr : r.result = .ok v) :
    ¬Tokenised delim addr r.delimChar v := by
  rw [(step_final hb hs hr).1]
  rintro ⟨⟨u, hu, hquote, hdep, hang, _⟩, _, hdlm⟩
  have hget : addr.getD w.length 0 = b := by rw [haddr]; simp
  have htake : addr.take w.length = w := by rw [haddr]; simp
  rw [htake, h.reads] at hu
  cases hu
  rw [hget] at hdlm
  obtain ⟨hzero, hdlm⟩ := hdlm.resolve_left hb
  rcases Text.wrong_cases hwrg with hw | hw | hw | hw | ⟨hesc, _, _, hnot, _⟩
  · omega
  · simp [hquote] at hw
  · omega
  · omega
  · have := Text.ends_iff.2 ⟨⟨hdep, hquote, hang⟩, by
      rw [if_neg (by simp [hesc])]
      exact ⟨by simpa [hzero] using hnot, hdlm⟩⟩
    simp [hends] at this

/-- A character that is not kept is entered. -/
theorem Sync.extra (h : Sync delim w s t) {s1 : Prescan} (hwds : s1.words = s.words)
    (hM : (StateTab s1.state (toktype ops c)).M = false) (hc : c ≠ 0) (hkps : t.keeps b = none)
    (he : Prescan.Entered ops delim w.length c s1 s') : Spoilt (w ++ [b]) s' := by
  have hmem : (w.length, c) ∈ s'.words.flatMap cstr := by
    have hfla : s'.words.flatten = t.kept ++ [(w.length, c)] := by
      rw [grows_flatten he.grows, hM, hwds, h.kept]
      rfl
    have hcstr : ∀ wd ∈ s'.words, cstr wd = wd := fun wd hwd => cstr_eq_self fun x hx => by
      have hx : x ∈ s'.words.flatten := mem_flatten.2 ⟨wd, hwd, hx⟩
      rw [hfla, mem_append, mem_singleton] at hx
      rcases hx with hx | rfl
      · exact h.nonzero x hx
      · exact hc
    rw [flatMap, map_congr_left hcstr, map_id', hfla]
    exact mem_append_right _ (mem_singleton_self _)
  cases hnx : text (w ++ [b]) with
  | none => exact .unbalanced hnx
  | some t' =>
    refine .extra hnx hmem fun hkept => ?_
    rw [text_concat, h.reads] at hnx
    rw [(Text.next_read hnx).2, Text.fresh, hkps] at hkept
    have := (text_place h.reads).2 _ (by simpa using hkept)
    exact lt_irrefl _ this

/-- A null is kept. -/
theorem Sync.null (h : Sync delim w s t) (hkps : t.keeps b = some 0) : Spoilt (w ++ [b]) s' := by
  cases hnx : text (w ++ [b]) with
  | none => exact .unbalanced hnx
  | some t' =>
    refine .null (x := (t.place, 0)) hnx ?_ rfl
    rw [text_concat, h.reads] at hnx
    rw [(Text.next_read hnx).2, Text.fresh, hkps]
    exact mem_append_right _ (mem_singleton_self _)

theorem Sync.spoils (h : Sync delim w s t) (hb : b ≠ 0) (hwrg : t.wrong delim b = true)
    (hs : s.step ops delim w.length b = .inl s') : Spoilt (w ++ [b]) s' := by
  obtain ⟨o, s1, hchew, ho⟩ := step_inl hb hs
  obtain ⟨hcur1, hwor1⟩ := words_chew hchew
  have hsta1 : s1.state = s.state := (chew_ok hchew).state
  have hfull : ¬PSBUFSIZE ≤ s.stored.q := fun hfull => by simp [Prescan.chew, hfull] at hchew
  have hbsl : s.stored.bslashmode = t.esc := h.bslashmode
  have hcmnt : s.stored.cmntcnt = t.depth := h.cmntcnt
  have hang : s.stored.anglecnt = t.angle := h.anglecnt
  -- Where the delimiter is 0377 and no bracket is open, a blank ends the scan.
  have hnoc {c : UInt8} (hspc : toktype ops c = .SPC) (hquote : t.quote = false) (hone : t.one = false) (hzero : s1.anglecnt = 0)
      (hang : t.angle = 0) (hdlm : delim = 0xff) : ¬Prescan.Entered ops delim w.length c s1 s' := fun he => by
    have hst : s1.state = .OPR ∨ s1.state = .ATM := by
      have h1 : s.state ≠ .QST := fun hstt => by simp [h.quote.1 hstt] at hquote
      have h2 : s.state ≠ .ONE := fun hstt => by simp [h.one.1 hstt] at hone
      have h3 := h.spc hdlm hang
      rw [hsta1]
      cases hst : s.state <;> first | exact .inl rfl | exact .inr rfl | exact absurd hst ‹_›
    have htab : StateTab s1.state (toktype ops c) = ⟨.SPC, true, true⟩ := by
      rw [hspc]
      rcases hst with hst | hst <;> rw [hst] <;> rfl
    have hgoes := he.goes (by rw [htab])
    rw [htab, if_pos rfl, hdlm, hzero] at hgoes
    simp [schar] at hgoes
  rw [Prescan.chew] at hchew
  simp only [if_neg hfull] at hchew
  rw [← ascii] at hchew
  rcases Text.wrong_cases hwrg with ⟨hesc, hdep⟩ | ⟨hesc, hback, hquote, hzero⟩ |
    ⟨hesc, hquote, hcls, hdep, hone⟩ | ⟨hesc, hquote, hdep, hgt, hone, hdlm⟩ |
    ⟨hesc, hquote, hdep, hnot, hcas⟩
  · -- A character of a comment, after a backslash.
    rw [if_pos (hbsl.trans hesc), ← quoted] at hchew
    cases hchew
    exact h.extra hwor1 (tab_plain (quoted_plain b)).1 (quoted_ne_zero b) (if_pos hdep) ho
  · have hdep : t.depth = 0 := Nat.eq_zero_of_not_pos fun hpos => by simp [h.depth hpos] at hquote
    exact h.null (by simp [Text.keeps, hdep, hesc, hquote, hzero])
  · -- The end of a comment.
    have hstt : s.stored.state ≠ .QST := fun hstt => by simp [h.quote.1 hstt] at hquote
    rw [if_neg (by simp [hbsl, hesc]), if_neg (by rw [hcls]; decide), if_neg hstt, if_neg (by rw [hcls]; decide),
      if_pos hcls, if_neg (by omega)] at hchew
    cases hchew
    have ho : Prescan.Entered ops delim w.length (ascii b) _ s' := ho
    cases hone' : t.one with
    | true =>
      have hst : s.stored.state = .ONE := h.one.2 hone'
      refine h.extra hwor1 ?_ (by rw [hcls]; decide) (if_pos hdep) ho
      rw [hst]
      rfl
    | false =>
      obtain ⟨hzero, hdlm⟩ := hone.resolve_left (by simp [hone'])
      rcases hdlm with hdlm | hdlm
      · exact absurd ⟨by rw [hdlm, hcls]; rfl, hang.trans hzero, hstt⟩ ho.inside
      · exact absurd ho (hnoc (toktype_space (.inr hcls) (ascii_lt b)) hquote hone' (hang.trans hzero) hzero hdlm)
  · -- The bracket that is the delimiter.
    have hstt : s.stored.state ≠ .QST := fun hstt => by simp [h.quote.1 hstt] at hquote
    rw [if_neg (by simp [hbsl, hesc]), if_neg (by rw [hgt]; decide), if_neg hstt, if_neg (by rw [hgt]; decide),
      if_neg (by rw [hgt]; decide), if_neg (by omega), if_neg (by rw [hgt]; decide), if_pos hgt, if_neg (by omega)] at hchew
    cases hchew
    have ho : Prescan.Entered ops delim w.length (ascii b) _ s' := ho
    exact absurd ⟨by rw [hdlm, hgt]; rfl, show s.stored.anglecnt - 1 = 0 by omega, hstt⟩ ho.inside
  · have hstt : s.stored.state ≠ .QST := fun hstt => by simp [h.quote.1 hstt] at hquote
    simp only [mem_cons, not_mem_nil, or_false, not_or] at hnot
    obtain ⟨hback, hopen, hcls, hlt, hgt⟩ := hnot
    rw [if_neg (by simp [hbsl, hesc]), if_neg hback, if_neg hstt, if_neg hopen, if_neg hcls, if_neg (by omega),
      if_neg hlt, if_neg hgt] at hchew
    have hdep' : ¬0 < t.depth := by omega
    by_cases hspace : isspace (ascii b) = true
    · have hkps : t.keeps b = none := by simp [Text.keeps, hesc, hquote, hspace]
      obtain ⟨c, hc, rfl, rfl⟩ : ∃ c, isspace c = true ∧ some c = o ∧ s.stored = s1 := by
        split_ifs at hchew with hdlm
        · cases hchew
          exact ⟨_, rfl, rfl, rfl⟩
        · cases hchew
          exact ⟨_, hspace, rfl, rfl⟩
      cases hone : t.one with
      | true =>
        have hst : s.stored.state = .ONE := h.one.2 hone
        refine h.extra hwor1 ?_ ?_ hkps ho
        · rw [hst]
          rfl
        · rintro rfl
          exact absurd hc (by decide)
      | false =>
        obtain ⟨_, hzero, hdlm⟩ : isspace (ascii b) = true ∧ t.angle = 0 ∧ delim = 0xff := by
          rcases hcas with hcas | hcas | hcas
          · rw [hcas] at hspace
            exact absurd hspace (by decide)
          · simp [hone] at hcas
          · exact hcas
        exact absurd ho (hnoc (toktype_space (.inl hc) (isspace_lt hc)) hquote hone (hang.trans hzero) hzero hdlm)
    · rw [if_neg fun hbln => hspace hbln.2] at hchew
      cases hchew
      have ho : Prescan.Entered ops delim w.length (ascii b) _ s' := ho
      rcases hcas with hzero | ⟨hone, hq⟩ | hcas
      · exact h.null (by simp [Text.keeps, hdep', hesc, hquote, hzero, isspace])
      · -- A quote that belongs to a metacharacter opens a string, of which the scanner knows nothing.
        have hq := hq.resolve_left hspace
        have hst : s.stored.state = .ONE := h.one.2 hone
        have htab : StateTab s.stored.state (toktype ops (ascii b)) = ⟨.OPR, false, false⟩ := by rw [hst]; rfl
        refine .picked (t := { t.read b with quote := ascii b = 0x22, one := !t.one && picks (ascii b) }) ?_
          (decide_eq_true hq) ?_ ?_ (ho.cmntcnt.trans (hcmnt.trans hdep)) hdep ?_
        · rw [text_concat, h.reads, Option.bind_some, Text.next, if_neg (by simp [hesc]), if_neg hback,
            if_neg (by simp [hquote]), if_neg hopen, if_neg hcls, if_neg hdep', if_neg hlt, if_neg hgt]
        · rw [ho.state, htab]
        · exact ho.bslashmode.trans hbsl
        · rw [ho.cur, htab]
          simp
      · exact absurd hcas.1 hspace

/-- As far as nothing has gone wrong, the vector is right if the rest of the address is clean. -/
theorem Sync.scan (h : Sync delim w s t) (haddr : addr = w ++ rest)
    (hr : (scan ops delim w.length rest s).result = .ok v) :
    Tokenised delim addr (scan ops delim w.length rest s).delimChar v ↔ clean delim t rest = true := by
  induction rest generalizing w s t with
  | nil =>
    refine iff_of_true (h.stop ?_ ?_ hr) rfl
    · rw [haddr, append_nil, take_length]
    · rw [haddr]
      simp
  | cons b rest ih =>
    rw [Sendmail.scan] at hr ⊢
    have hlen : (w ++ [b]).length = w.length + 1 := by rw [length_append, length_singleton]
    have hcon : addr = w ++ [b] ++ rest := by rw [haddr]; simp
    by_cases hb : b = 0
    · subst hb
      have hstep : s.step ops delim w.length 0 = .inr (s.stop w.length) := if_pos rfl
      simp only [hstep] at hr ⊢
      refine iff_of_true (h.stop ?_ ?_ hr) (by simp [clean]) <;> rw [haddr] <;> simp
    cases hends : t.ends delim b with
    | true =>
      cases hs : s.step ops delim w.length b with
      | inl s' => exact absurd hs (h.not_ends hb hends)
      | inr r =>
        simp only [hs] at hr ⊢
        exact iff_of_true (h.ends hb haddr hends hs hr) (by simp [clean, hends])
    | false =>
      cases hwrg : t.wrong delim b with
      | true =>
        refine iff_of_false ?_ (by simp [clean, hb, hends, hwrg])
        cases hs : s.step ops delim w.length b with
        | inl s' =>
          simp only [hs] at hr ⊢
          have hpla : ∀ x ∈ s.words.flatten, x.1 < w.length := h.kept ▸ (text_place h.reads).2
          have hspo := h.spoils hb hwrg hs
          rw [← hlen] at hr ⊢
          exact hspo.scan (places_step hpla hb hs) hcon hr
        | inr r =>
          simp only [hs] at hr ⊢
          exact h.fails hb haddr hends hwrg hs hr
      | false =>
        cases hs : s.step ops delim w.length b with
        | inl s' =>
          simp only [hs] at hr ⊢
          obtain ⟨t', hnx, hsync⟩ := h.step hb hends hwrg hs
          have hcln : clean delim t (b :: rest) = clean delim t' rest := by simp [clean, hb, hends, hwrg, hnx]
          rw [← hlen] at hr ⊢
          rw [hcln]
          exact ih hsync hcon hr
        | inr r =>
          simp only [hs] at hr
          exact absurd hr (h.goes hb hends hwrg hs)

theorem Sync.start : Sync delim [] .start .start := by
  refine ⟨rfl, rfl, rfl, rfl, by decide, by decide, fun _ => rfl, rfl, ?_, by simp [Text.start], ?_, fun _ _ => by decide⟩
  · exact fun x hx => absurd hx not_mem_nil
  · intro tok htok x hx
    obtain rfl := mem_singleton.1 htok
    contradiction

end Uwisc.Sendmail
