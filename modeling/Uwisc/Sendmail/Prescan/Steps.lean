import Mathlib.Data.List.TakeWhile
import Uwisc.Lib.Outcome
import Uwisc.Sendmail.Prescan

/-!
# The text of an address

An address read from left to right, without the scanner: what is in a quoted string and what in a
comment, how deep, and which characters are left (`Text`). A vector is right if its tokens are made
of these, each with the quoted strings that begin in it, and if the scan ended where it should
(`Tokenised`). The scanner does not get every address right: `clean` says which.
-/

namespace Uwisc.Sendmail

/-- The characters before `place`: whether the last one quotes the next one, whether they end in a
    quoted string, in how many comments and angle brackets, whether the last one kept is one that the
    next one belongs to, and the characters that are kept. -/
structure Text where
  place : ℕ
  esc : Bool
  quote : Bool
  depth : ℕ
  angle : ℕ
  one : Bool
  kept : List Cell

/-- The seven bits of a character. -/
def ascii (b : UInt8) : UInt8 := b &&& 0o177

/-- A character after a backslash. -/
def quoted (c : UInt8) : UInt8 := if c ≠ 0x21 then c ||| 0o200 else c

/-- The metacharacters that the next character belongs to. -/
def picks (c : UInt8) : Bool := c = MATCHCLASS ∨ c = MATCHREPL ∨ c = MATCHNCLASS ∨ c = MACVALUE

namespace Text

def start : Text := ⟨0, false, false, 0, 0, false, []⟩

/-- What is kept of the next character: nothing in comments, of backslashes and, outside of quoted
    strings, of parentheses and blanks. -/
def keeps (t : Text) (b : UInt8) : Option UInt8 :=
  if 0 < t.depth then none
  else if t.esc then some (quoted (ascii b))
  else if ascii b = 0x5c then none
  else if t.quote then some (ascii b)
  else if ascii b = 0x28 ∨ ascii b = 0x29 ∨ isspace (ascii b) then none
  else some (ascii b)

/-- One more character is read. -/
def read (t : Text) (b : UInt8) : Text :=
  { t with
    place := t.place + 1
    kept := t.kept ++ ((t.keeps b).map (t.place, ·)).toList }

/-- The text with one more character, if its parentheses and brackets still match. -/
def next (t : Text) (b : UInt8) : Option Text :=
  if t.esc then some { t.read b with esc := false, one := false }
  else if ascii b = 0x5c then some { t.read b with esc := true }
  else if t.quote then some { t.read b with quote := ascii b ≠ 0x22 }
  else if ascii b = 0x28 then some { t.read b with depth := t.depth + 1 }
  else if ascii b = 0x29 then
    if t.depth = 0 then none else some { t.read b with depth := t.depth - 1, one := false }
  else if 0 < t.depth then some (t.read b)
  else if ascii b = 0x3c then some { t.read b with angle := t.angle + 1, one := false }
  else if ascii b = 0x3e then
    if t.angle = 0 then none else some { t.read b with angle := t.angle - 1, one := false }
  else some { t.read b with quote := ascii b = 0x22, one := !t.one && picks (ascii b) }

/-- The next character is the delimiter, in no string, comment or brackets. -/
def ends (delim : UInt8) (t : Text) (b : UInt8) : Bool :=
  t.depth = 0 && !t.quote && t.angle = 0 &&
    if t.esc then schar delim = (quoted (ascii b)).toNat
    else ascii b ∉ [0, 0x5c, 0x28, 0x29, 0x3c, 0x3e] &&
      (schar delim = (ascii b).toNat || delim = 0x20 && isspace (ascii b))

/-- The scanner goes wrong at the next character:
    * it is in a comment, after a backslash;
    * it is the byte 0200, a null of seven bits;
    * it is a blank, a quote or a closing parenthesis, and belongs to a metacharacter;
    * it closes a comment or the last bracket, or is a blank, in no bracket, and the delimiter is
      that parenthesis, that bracket or the byte 0377, which is `NOCHAR`. -/
def wrong (delim : UInt8) (t : Text) (b : UInt8) : Bool :=
  if t.esc then 0 < t.depth
  else if ascii b = 0x5c then false
  else if t.quote then ascii b = 0
  else if ascii b = 0x28 then false
  else if ascii b = 0x29 then
    0 < t.depth && (t.one || t.angle = 0 && (delim = 0x29 || delim = 0xff))
  else if 0 < t.depth then false
  else if ascii b = 0x3c then false
  else if ascii b = 0x3e then t.angle = 1 && delim = 0x3e
  else ascii b = 0 || t.one && (isspace (ascii b) || ascii b = 0x22) ||
    isspace (ascii b) && t.angle = 0 && delim = 0xff

end Text

/-- The text of the characters, if its parentheses and brackets match as far as it goes. -/
def text (w : List UInt8) : Option Text := w.foldlM Text.next .start

/-- The scanner goes wrong at no character of the rest, up to the delimiter. -/
def clean (delim : UInt8) : Text → List UInt8 → Bool
  | _, [] => true
  | t, b :: rest =>
    b = 0 || t.ends delim b || !t.wrong delim b &&
      match t.next b with
      | some t => clean delim t rest
      | none => true

/-- The vector is that of the text before the delimiter, at `d`, or before the terminating null. -/
structure Tokenised (delim : UInt8) (addr : List UInt8) (d : ℕ) (v : List (List Cell)) : Prop where
  kept : ∃ t, text (addr.take d) = some t ∧ t.quote = false ∧ t.depth = 0 ∧ t.angle = 0 ∧ v.flatten = t.kept
  quotes : ∀ tok ∈ v, ∀ x ∈ tok.head?, ∃ t, text (addr.take x.1) = some t ∧ t.quote = false
  delim : addr.getD d 0 = 0 ∨ ascii (addr.getD d 0) ≠ 0 ∧
    (schar delim = (ascii (addr.getD d 0)).toNat ∨ delim = 0x20 ∧ isspace (ascii (addr.getD d 0)))

/-!
### The buffers of the scanner

A step of the scanner is put together from what its parts do (`store_eq`, `Bounded.endToken`,
`chew_same`, `enter_eq`). The room that is left where a character is stored is enough for the null
after a token, so that neither `pvpbuf` nor `av` is left (`scan_inside`).
-/

open Lib

variable {ops : UInt8 → Bool} {delim b c : UInt8} {p : ℕ} {s s' : Prescan} {t t' : Text} {w rest addr : List UInt8}
  {v : List (List Cell)} {r : Scanned}

namespace Prescan

/-- The token that is being read, with its lookahead character. -/
def cur (s : Prescan) : List Cell := s.tok ++ s.c.toList

/-- The tokens, with the one that is being read. -/
def words (s : Prescan) : List (List Cell) := s.av ++ [s.cur]

/-- The lookahead character is stored. -/
def stored (s : Prescan) : Prescan := { s with q := s.q + s.c.toList.length, tok := s.cur, c := none }

/-- The token is in `av`. -/
def ended (s : Prescan) : Prescan :=
  if s.tok = [] then s else { s with q := s.q + 1, tok := [], av := s.av ++ [s.tok] }

/-- The buffers have room for a character with the null after it, and for the end of the vector. -/
structure Bounded (s : Prescan) : Prop where
  q : s.q ≤ PSBUFSIZE - 4
  tok : s.tok ≠ [] → s.q ≤ PSBUFSIZE - 5
  av : s.av.length ≤ MAXATOM

/-- The states that differ in what `chew` counts. -/
structure Same (s s' : Prescan) : Prop where
  q : s'.q = s.q
  c : s'.c = s.c
  tok : s'.tok = s.tok
  av : s'.av = s.av
  state : s'.state = s.state

theorem Bounded.congr (h : s.Bounded) (hs : Same s s') : s'.Bounded :=
  ⟨hs.q ▸ h.q, fun htok => hs.q ▸ h.tok (hs.tok ▸ htok), hs.av ▸ h.av⟩

theorem Bounded.lt (h : s.Bounded) : s.q < PSBUFSIZE := lt_of_le_of_lt h.q (by decide)

theorem store_eq : s.store = if s.c ≠ none ∧ PSBUFSIZE - 5 ≤ s.q then .error .tooLong else .ok s.stored := by
  obtain ⟨q, c, tok, av, state, bslashmode, cmntcnt, anglecnt⟩ := s
  cases c with
  | none => simp [store, stored, cur]
  | some x =>
    simp only [store, ne_eq, reduceCtorEq, not_false_eq_true, true_and]
    split_ifs with hfull hout
    · rfl
    · have hsize : PSBUFSIZE = 356 := rfl
      omega
    · rfl

theorem Bounded.stored (h : s.Bounded) (hs : ¬(s.c ≠ none ∧ PSBUFSIZE - 5 ≤ s.q)) : s.stored.Bounded := by
  have hq := h.q
  cases hc : s.c with
  | none =>
    refine ⟨?_, fun htok => ?_, h.av⟩
    · simpa [Prescan.stored, hc] using hq
    · have htok : s.tok ≠ [] := by simpa [Prescan.stored, cur, hc] using htok
      simpa [Prescan.stored, hc] using h.tok htok
  | some x =>
    have hlt : s.q < PSBUFSIZE - 5 := Nat.lt_of_not_le fun hle => hs ⟨by simp [hc], hle⟩
    have hsto : s.stored.q = s.q + 1 := by simp [Prescan.stored, hc]
    have hsize : PSBUFSIZE = 356 := rfl
    exact ⟨by omega, fun _ => by omega, h.av⟩

theorem Bounded.endToken (h : s.Bounded) :
    s.endToken = .error .tooManyTokens ∨ s.endToken = .ok s.ended ∧ s.ended.Bounded := by
  rw [Prescan.endToken, ended]
  split_ifs with htok hout hmany
  · exact .inr ⟨rfl, h⟩
  · exact absurd hout (Nat.not_le.2 h.lt)
  · exact .inl rfl
  · refine .inr ⟨rfl, ?_, fun hnil => absurd rfl hnil, ?_⟩
    · have := h.tok htok
      show s.q + 1 ≤ PSBUFSIZE - 4
      have hsize : PSBUFSIZE = 356 := rfl
      omega
    · rw [List.length_append]
      exact Nat.lt_of_not_le hmany

theorem Bounded.finish (h : s.Bounded) : (s.finish p).result ≠ .error .outside := by
  rw [Prescan.finish]
  simp only [Nat.not_lt.2 h.av, if_false]
  split_ifs <;> simp

theorem Bounded.endScan (h : s.Bounded) : (s.endScan p).result ≠ .error .outside := by
  rw [Prescan.endScan]
  rcases h.endToken with hend | ⟨hend, h⟩
  · rw [hend]
    simp
  · rw [hend]
    exact h.finish

/-- What `chew` leaves alone. -/
theorem chew_same (hq : s.q < PSBUFSIZE) :
    Ends (· ≠ .outside) (fun x => Same s x.2) (s.chew delim b) := by
  have hsame : Same s s := ⟨rfl, rfl, rfl, rfl, rfl⟩
  rw [chew]
  simp only [Nat.not_le.2 hq, if_false]
  repeat' (refine .ite (fun _ => ?_) fun _ => ?_)
  all_goals first | exact Trouble.noConfusion | exact hsame | exact ⟨rfl, rfl, rfl, rfl, rfl⟩

/-- The new state, and the lookahead character if it is none of the metacharacters. -/
def entered (ops : UInt8 → Bool) (p : ℕ) (c : UInt8) (s : Prescan) : Prescan :=
  { s with
    state := (StateTab s.state (toktype ops c)).state
    c := if (StateTab s.state (toktype ops c)).M then none else some (p, c) }

theorem enter_eq : s.enter ops delim p c =
    if schar delim = c.toNat ∧ s.anglecnt = 0 ∧ s.state ≠ .QST then .inr (s.endScan p)
    else if (StateTab s.state (toktype ops c)).B then
      match (s.entered ops p c).endToken with
      | .error e => .inr ⟨p + 1, .error e⟩
      | .ok s => if s.goesOn delim then .inl s else .inr (s.finish p)
    else .inl (s.entered ops p c) := rfl

theorem Bounded.enter (h : s.Bounded) : (∀ s', s.enter ops delim p c = .inl s' → s'.Bounded) ∧
    ∀ r, s.enter ops delim p c = .inr r → r.result ≠ .error .outside := by
  have hent : (s.entered ops p c).Bounded := ⟨h.q, h.tok, h.av⟩
  rw [enter_eq]
  split_ifs with hend hB
  · exact ⟨by simp, fun r hr => Sum.inr.inj hr ▸ h.endScan⟩
  · rcases hent.endToken with htok | ⟨htok, hended⟩
    · rw [htok]
      exact ⟨by simp, fun r hr => by rw [← Sum.inr.inj hr]; simp⟩
    · simp only [htok]
      split_ifs
      · exact ⟨fun s' hs' => Sum.inl.inj hs' ▸ hended, by simp⟩
      · exact ⟨by simp, fun r hr => Sum.inr.inj hr ▸ hended.finish⟩
  · exact ⟨fun s' hs' => Sum.inl.inj hs' ▸ hent, by simp⟩

theorem Bounded.stop (h : s.Bounded) : (s.stop p).result ≠ .error .outside := by
  rw [Prescan.stop, store_eq]
  by_cases hfull : s.c ≠ none ∧ PSBUFSIZE - 5 ≤ s.q
  · rw [if_pos hfull]
    simp
  · rw [if_neg hfull]
    exact (h.stored hfull).endScan

theorem Bounded.step (h : s.Bounded) : (∀ s', s.step ops delim p b = .inl s' → s'.Bounded) ∧
    ∀ r, s.step ops delim p b = .inr r → r.result ≠ .error .outside := by
  rw [Prescan.step, store_eq]
  by_cases hb : b = 0
  · rw [if_pos hb]
    exact ⟨by simp, fun r hr => Sum.inr.inj hr ▸ h.stop⟩
  rw [if_neg hb]
  by_cases hfull : s.c ≠ none ∧ PSBUFSIZE - 5 ≤ s.q
  · rw [if_pos hfull]
    exact ⟨by simp, fun r hr => by rw [← Sum.inr.inj hr]; simp⟩
  · have hsto := h.stored hfull
    have hchew : Ends (· ≠ .outside) (fun x => Same s.stored x.2) (s.stored.chew delim b) := chew_same hsto.lt
    simp only [if_neg hfull]
    cases hc : s.stored.chew delim b with
    | error e =>
      refine ⟨by simp, fun r hr => ?_⟩
      rw [← Sum.inr.inj hr]
      exact fun he => hchew.error hc (Except.error.inj he)
    | ok x =>
      obtain ⟨o, s'⟩ := x
      have hsame := hchew.result hc
      cases o with
      | none => exact ⟨fun s'' hs'' => Sum.inl.inj hs'' ▸ hsto.congr hsame, by simp⟩
      | some c => exact (hsto.congr hsame).enter

end Prescan

open List Option

variable {ops : UInt8 → Bool} {delim b c : UInt8} {p d : ℕ} {s s' : Prescan} {t t' : Text}
  {w rest addr : List UInt8} {v : List (List Cell)} {r : Scanned} {x : Cell}

/-! ### The text -/

theorem text_concat : text (w ++ [b]) = (text w).bind fun t => t.next b := by
  rw [text, foldlM_append]
  exact congrArg _ (funext fun t => bind_pure _)

/-- What the next character adds to the text. -/
def Text.fresh (t : Text) (b : UInt8) : List Cell := ((t.keeps b).map (t.place, ·)).toList

theorem Text.mem_fresh (h : x ∈ t.fresh b) : x.1 = t.place := by
  obtain ⟨c, _, rfl⟩ := map_eq_some_iff.1 (mem_toList.1 h)
  rfl

theorem Text.next_read (h : t.next b = some t') : t'.place = t.place + 1 ∧ t'.kept = t.kept ++ t.fresh b := by
  rw [Text.next] at h
  split_ifs at h <;> first | contradiction | (obtain rfl := some_inj.1 h; exact ⟨rfl, rfl⟩)

theorem text_place (h : text w = some t) : t.place = w.length ∧ ∀ x ∈ t.kept, x.1 < w.length := by
  induction w using reverseRecOn generalizing t with
  | nil =>
    cases h
    exact ⟨rfl, fun x hx => absurd hx not_mem_nil⟩
  | append_singleton w b ih =>
    rw [text_concat] at h
    obtain ⟨u, hu, hnx⟩ := bind_eq_some_iff.1 h
    obtain ⟨hplc, hkept⟩ := ih hu
    obtain ⟨hplc', hkept'⟩ := Text.next_read hnx
    rw [length_append, length_singleton, ← hplc]
    refine ⟨hplc', fun x hx => ?_⟩
    rcases mem_append.1 (hkept' ▸ hx) with hx | hx
    · exact hplc.symm ▸ (hkept x hx).trans (Nat.lt_succ_self _)
    · exact (Text.mem_fresh hx).symm ▸ Nat.lt_succ_self _

/-- Earlier parts of the text are those of the text with one more character. -/
theorem text_take (h : d ≤ w.length) : text ((w ++ [b]).take d) = text (w.take d) := by
  rw [take_append_of_le_length h]

/-! ### What a step does to the tokens -/

/-- A token as a string: up to the first null in it. -/
def cstr (tok : List Cell) : List Cell := tok.takeWhile (·.2 ≠ 0)

variable {tok f : List Cell} {o : Option UInt8}

theorem cstr_eq_self (h : ∀ x ∈ tok, x.2 ≠ 0) : cstr tok = tok :=
  takeWhile_eq_self_iff.2 fun x hx => by simpa using h x hx

theorem cstr_subset : cstr tok ⊆ tok := (takeWhile_sublist _).subset

theorem mem_cstr_append (h : x ∈ cstr tok) (f : List Cell) : x ∈ cstr (tok ++ f) := by
  have hpre : cstr tok <+: cstr (tok ++ f) := by
    rw [cstr, cstr, takeWhile_append]
    split_ifs with hlen
    · exact ⟨_, congrArg (· ++ _) (( takeWhile_prefix _).eq_of_length hlen)⟩
    · exact prefix_refl _
  exact hpre.subset h

theorem head_cstr_append (h : (cstr tok).head? = some x) (f : List Cell) :
    (cstr (tok ++ f)).head? = some x := by
  cases tok with
  | nil => contradiction
  | cons y tok =>
    rw [cstr, takeWhile_cons] at h
    rw [cstr, cons_append, takeWhile_cons]
    split_ifs at h ⊢ with hy
    · exact h
    · contradiction

theorem ne_zero_of_mem_cstr (h : x ∈ cstr tok) : x.2 ≠ 0 := by
  simpa using mem_takeWhile_imp h

namespace Prescan

/-- The vector that the scan ends with is that of the tokens. -/
structure Final (s : Prescan) (v : List (List Cell)) : Prop where
  flatten : v.flatten = s.words.flatMap cstr
  mem : ∀ tok ∈ v, ∃ wd ∈ s.words, tok = cstr wd
  mem' : ∀ wd ∈ s.words, cstr wd ≠ [] → cstr wd ∈ v

/-- The characters `f` are added to the token that is being read, or begin another one. -/
def Grows (s s' : Prescan) (f : List Cell) : Prop :=
  s'.words = s.av ++ [s.cur ++ f] ∨ s.cur ≠ [] ∧ s'.words = s.words ++ [f]

@[simp] theorem cur_stored : s.stored.cur = s.cur := append_nil _

@[simp] theorem words_stored : s.stored.words = s.words := congrArg (s.av ++ [·]) cur_stored

theorem words_of_same (h : Same s s') : s'.cur = s.cur ∧ s'.words = s.words := by
  rw [words, words, cur, cur, h.av, h.tok, h.c]
  exact ⟨rfl, rfl⟩

/-- What is done with a character that is not dropped, where the scan goes on. -/
structure Entered (ops : UInt8 → Bool) (delim : UInt8) (p : ℕ) (c : UInt8) (s s' : Prescan) : Prop where
  inside : ¬(schar delim = c.toNat ∧ s.anglecnt = 0 ∧ s.state ≠ .QST)
  goes : (StateTab s.state (toktype ops c)).B →
    if (StateTab s.state (toktype ops c)).M then schar delim ≠ -1 ∨ 0 < s.anglecnt else c ≠ 0
  state : s'.state = (StateTab s.state (toktype ops c)).state
  bslashmode : s'.bslashmode = s.bslashmode
  cmntcnt : s'.cmntcnt = s.cmntcnt
  anglecnt : s'.anglecnt = s.anglecnt
  av : s'.av = if (StateTab s.state (toktype ops c)).B ∧ s.cur ≠ [] then s.words else s.av
  cur : s'.cur = (if (StateTab s.state (toktype ops c)).B then [] else s.cur) ++
    if (StateTab s.state (toktype ops c)).M then [] else [(p, c)]

theorem endToken_ok (h : s.endToken = .ok s') : s' = s.ended := by
  rw [endToken] at h
  rw [ended]
  split_ifs at h ⊢ <;> first | contradiction | exact (Except.ok.inj h).symm

/-- What is left alone at the end of a token. -/
theorem ended_same : s.ended.c = s.c ∧ s.ended.state = s.state ∧ s.ended.bslashmode = s.bslashmode ∧
    s.ended.cmntcnt = s.cmntcnt ∧ s.ended.anglecnt = s.anglecnt := by
  rw [ended]
  split_ifs <;> exact ⟨rfl, rfl, rfl, rfl, rfl⟩

theorem ended_tok : s.ended.tok = [] := by
  rw [ended]
  split_ifs with htok
  · exact htok
  · rfl

theorem ended_av : s.ended.av = if s.tok ≠ [] then s.av ++ [s.tok] else s.av := by
  rw [ended]
  split_ifs <;> first | contradiction | rfl

theorem cur_of_none (hc : s.c = none) : s.cur = s.tok := by
  rw [cur, hc]
  exact append_nil _

theorem goesOn_entered : (s.entered ops p c).ended.goesOn delim = true ↔
    if (StateTab s.state (toktype ops c)).M then schar delim ≠ -1 ∨ 0 < s.anglecnt
    else c ≠ 0 ∧ (schar delim ≠ c.toNat ∨ 0 < s.anglecnt) := by
  obtain ⟨hc, _, _, _, hang⟩ := ended_same (s := s.entered ops p c)
  rw [goesOn, hang, hc]
  cases hM : (StateTab s.state (toktype ops c)).M <;> simp [entered, hM]

theorem enter_inl (hc : s.c = none) (h : s.enter ops delim p c = .inl s') : Entered ops delim p c s s' := by
  have hcur := cur_of_none hc
  rw [enter_eq] at h
  split_ifs at h with hend hB
  · cases htok : (s.entered ops p c).endToken with
    | error e => simp [htok] at h
    | ok s1 =>
      obtain rfl := endToken_ok htok
      obtain ⟨hc', hstt, hbsl, hcmnt, hang⟩ := ended_same (s := s.entered ops p c)
      simp only [htok] at h
      split_ifs at h with hgoes
      obtain rfl := Sum.inl.inj h
      refine ⟨hend, fun _ => ?_, hstt, hbsl, hcmnt, hang, ?_, ?_⟩
      · have hgoes := goesOn_entered.1 hgoes
        split_ifs at hgoes ⊢
        · exact hgoes
        · exact hgoes.1
      · rw [ended_av, words, hcur]
        simp only [hB, true_and]
        rfl
      · rw [if_pos hB, Prescan.cur, ended_tok, hc', entered]
        split_ifs <;> rfl
  · obtain rfl := Sum.inl.inj h
    refine ⟨hend, fun h => absurd h hB, rfl, rfl, rfl, rfl, ?_, ?_⟩
    · rw [if_neg fun h => hB h.1]
      rfl
    · rw [if_neg hB, hcur, Prescan.cur, entered]
      split_ifs <;> rfl

theorem Entered.grows (h : Entered ops delim p c s s') :
    Grows s s' (if (StateTab s.state (toktype ops c)).M then [] else [(p, c)]) := by
  have hav := h.av
  have hcur := h.cur
  rw [Grows, words, hav, hcur]
  by_cases hB : (StateTab s.state (toktype ops c)).B
  · by_cases hnil : s.cur = []
    · left
      simp [hB, hnil]
    · right
      simp [hB, hnil]
  · left
    simp [hB]

theorem final_ended (hc : s.c = none) : Final s (s.ended.av.map cstr) := by
  rw [ended_av]
  have hwds : s.words = s.av ++ [s.tok] := by rw [words, cur_of_none hc]
  split_ifs with htok
  · rw [← hwds]
    refine ⟨rfl, fun tok htok => ?_, fun wd hwd _ => mem_map_of_mem hwd⟩
    obtain ⟨wd, hwd, rfl⟩ := List.mem_map.1 htok
    exact ⟨wd, hwd, rfl⟩
  · rw [Classical.not_not] at htok
    rw [htok] at hwds
    refine ⟨by rw [hwds]; simp [flatMap, cstr], fun tok htok => ?_, fun wd hwd hne => ?_⟩
    · obtain ⟨wd, hwd, rfl⟩ := List.mem_map.1 htok
      exact ⟨wd, by rw [hwds]; exact mem_append_left _ hwd, rfl⟩
    · rw [hwds, mem_append, mem_singleton] at hwd
      rcases hwd with hwd | rfl
      · exact mem_map_of_mem hwd
      · exact absurd rfl hne

/-- How the scan ends with a vector. -/
structure Done (s : Prescan) (p : ℕ) (r : Scanned) (v : List (List Cell)) : Prop where
  delimChar : r.delimChar = p
  final : Final s v
  cmntcnt : s.cmntcnt = 0
  anglecnt : s.anglecnt = 0

theorem finish_ok (h : (s.finish p).result = .ok v) :
    v = s.av.map cstr ∧ s.cmntcnt = 0 ∧ s.anglecnt = 0 ∧ s.state ≠ .QST := by
  simp only [finish] at h
  split_ifs at h with h1 h2 h3 h4 h5
  exact ⟨(Except.ok.inj h).symm, by omega, by omega, h4⟩

theorem endScan_ok (hc : s.c = none) (h : (s.endScan p).result = .ok v) :
    Done s p (s.endScan p) v ∧ s.state ≠ .QST := by
  rw [endScan] at h ⊢
  cases htok : s.endToken with
  | error e => simp [htok] at h
  | ok s1 =>
    obtain rfl := endToken_ok htok
    obtain ⟨_, hstt, _, hcmnt, hang⟩ := ended_same (s := s)
    simp only [htok] at h
    obtain ⟨rfl, h1, h2, h3⟩ := finish_ok h
    exact ⟨⟨rfl, final_ended hc, hcmnt ▸ h1, hang ▸ h2⟩, hstt ▸ h3⟩

/-- The scan ends at a character that is not dropped if it is the delimiter, or does not let it go on. -/
theorem enter_inr (hc : s.c = none) (h : s.enter ops delim p c = .inr r) (hr : r.result = .ok v) :
    Done s p r v ∧ ((schar delim = c.toNat ∧ s.anglecnt = 0 ∧ s.state ≠ .QST) ∨
      ¬(schar delim = c.toNat ∧ s.anglecnt = 0 ∧ s.state ≠ .QST) ∧
      (StateTab s.state (toktype ops c)).B ∧
      if (StateTab s.state (toktype ops c)).M then schar delim = -1 ∧ s.anglecnt = 0
      else c = 0 ∨ schar delim = c.toNat ∧ s.anglecnt = 0) := by
  rw [enter_eq] at h
  split_ifs at h with hend hB
  · obtain rfl := Sum.inr.inj h
    exact ⟨(endScan_ok hc hr).1, .inl hend⟩
  · cases htok : (s.entered ops p c).endToken with
    | error e =>
      simp only [htok] at h
      rw [← Sum.inr.inj h] at hr
      contradiction
    | ok s1 =>
      obtain rfl := endToken_ok htok
      obtain ⟨_, _, _, hcmnt, hang⟩ := ended_same (s := s.entered ops p c)
      simp only [htok] at h
      split_ifs at h with hgoes
      obtain rfl := Sum.inr.inj h
      obtain ⟨rfl, h1, h2, _⟩ := finish_ok hr
      have hav : (s.entered ops p c).ended.av = s.ended.av := by rw [ended_av, ended_av]; rfl
      refine ⟨⟨rfl, hav ▸ final_ended hc, hcmnt ▸ h1, hang ▸ h2⟩, .inr ⟨hend, hB, ?_⟩⟩
      rw [goesOn_entered] at hgoes
      split_ifs at hgoes ⊢
      · have := not_or.1 hgoes
        exact ⟨Classical.not_not.1 this.1, by omega⟩
      · by_cases hzero : c = 0
        · exact .inl hzero
        · have := not_or.1 fun hne => hgoes ⟨hzero, hne⟩
          exact .inr ⟨Classical.not_not.1 this.1, by omega⟩

end Prescan

/-! ### Steps -/

theorem chew_ok (h : s.chew delim b = .ok (o, s')) : Prescan.Same s s' := by
  have hlt : s.q < PSBUFSIZE := Nat.lt_of_not_le fun hfull => by simp [Prescan.chew, hfull] at h
  exact (Prescan.chew_same hlt).result h

theorem step_inl (hb : b ≠ 0) (h : s.step ops delim p b = .inl s') :
    ∃ o s1, s.stored.chew delim b = .ok (o, s1) ∧ match o with
      | none => s' = s1
      | some c => Prescan.Entered ops delim p c s1 s' := by
  rw [Prescan.step, if_neg hb, Prescan.store_eq] at h
  split_ifs at h with hfull
  · cases hchew : s.stored.chew delim b with
    | error e => simp [hchew] at h
    | ok x =>
      obtain ⟨o, s1⟩ := x
      simp only [hchew] at h
      refine ⟨o, s1, rfl, ?_⟩
      cases o with
      | none => exact (Sum.inl.inj h).symm
      | some c => exact Prescan.enter_inl ((chew_ok hchew).c.trans rfl) h

theorem step_inr (hb : b ≠ 0) (h : s.step ops delim p b = .inr r) (hr : r.result = .ok v) :
    ∃ c s1, s.stored.chew delim b = .ok (some c, s1) ∧ s1.c = none ∧ s1.enter ops delim p c = .inr r := by
  rw [Prescan.step, if_neg hb, Prescan.store_eq] at h
  split_ifs at h with hfull
  · rw [← Sum.inr.inj h] at hr
    contradiction
  · cases hchew : s.stored.chew delim b with
    | error e =>
      simp only [hchew] at h
      rw [← Sum.inr.inj h] at hr
      contradiction
    | ok x =>
      obtain ⟨o, s1⟩ := x
      simp only [hchew] at h
      cases o with
      | none => contradiction
      | some c => exact ⟨c, s1, rfl, (chew_ok hchew).c.trans rfl, h⟩

theorem Prescan.Final.congr (h : Prescan.Final s' v) (hwds : s'.words = s.words) : Prescan.Final s v := by
  obtain ⟨h1, h2, h3⟩ := h
  rw [hwds] at h1 h2 h3
  exact ⟨h1, h2, h3⟩

theorem words_chew (h : s.stored.chew delim b = .ok (o, s')) :
    s'.cur = s.cur ∧ s'.words = s.words := by
  obtain ⟨hcur, hwds⟩ := Prescan.words_of_same (chew_ok h)
  exact ⟨hcur.trans Prescan.cur_stored, hwds.trans Prescan.words_stored⟩

/-- A scan that ends with a vector ends where it is, with the tokens it has. -/
theorem step_final (hb : b ≠ 0) (h : s.step ops delim p b = .inr r) (hr : r.result = .ok v) :
    r.delimChar = p ∧ Prescan.Final s v := by
  obtain ⟨c, s1, hchew, hc, henter⟩ := step_inr hb h hr
  have hdone := (Prescan.enter_inr hc henter hr).1
  exact ⟨hdone.delimChar, hdone.final.congr (words_chew hchew).2⟩

theorem stop_final (h : (s.stop p).result = .ok v) :
    (s.stop p).delimChar = p ∧ Prescan.Final s v ∧ s.cmntcnt = 0 ∧ s.anglecnt = 0 ∧ s.state ≠ .QST := by
  rw [Prescan.stop, Prescan.store_eq] at h ⊢
  split_ifs at h ⊢ with hfull
  obtain ⟨hdone, hstt⟩ := Prescan.endScan_ok rfl h
  exact ⟨hdone.delimChar, hdone.final.congr Prescan.words_stored, hdone.cmntcnt, hdone.anglecnt, hstt⟩

theorem step_grows (hb : b ≠ 0) (h : s.step ops delim p b = .inl s') :
    ∃ f, (∀ x ∈ f, x.1 = p) ∧ Prescan.Grows s s' f := by
  obtain ⟨o, s1, hchew, ho⟩ := step_inl hb h
  obtain ⟨hcur, hwds⟩ := words_chew hchew
  cases o with
  | none =>
    obtain rfl : s' = s1 := ho
    refine ⟨[], fun x hx => absurd hx not_mem_nil, .inl ?_⟩
    rw [hwds, append_nil]
    rfl
  | some c =>
    have hav : s1.av = s.av := (chew_ok hchew).av
    have hgrw := Prescan.Entered.grows ho
    rw [Prescan.Grows, hcur, hwds, hav] at hgrw
    refine ⟨_, fun x hx => ?_, hgrw⟩
    split_ifs at hx
    · exact absurd hx not_mem_nil
    · rw [mem_singleton.1 hx]

theorem grows_flatten (h : Prescan.Grows s s' f) : s'.words.flatten = s.words.flatten ++ f := by
  rcases h with h | ⟨_, h⟩ <;> rw [h] <;> simp [Prescan.words]

theorem mem_words_of_grows (h : Prescan.Grows s s' f) (htok : tok ∈ s.words)
    (hx : x ∈ cstr tok) : ∃ tok' ∈ s'.words, x ∈ cstr tok' ∧ (∀ y, (cstr tok).head? = some y → (cstr tok').head? = some y) := by
  rcases h with h | ⟨_, h⟩
  · rcases mem_append.1 htok with htok | htok
    · exact ⟨tok, by rw [h]; exact mem_append_left _ htok, hx, fun _ => id⟩
    · obtain rfl := mem_singleton.1 htok
      exact ⟨s.cur ++ f, by rw [h]; simp, mem_cstr_append hx f, fun y hy => head_cstr_append hy f⟩
  · exact ⟨tok, by rw [h]; exact mem_append_left _ htok, hx, fun _ => id⟩

end Uwisc.Sendmail
