import Uwisc.Sendmail.Rewrite

/-!
# Scanning addresses

What `prescan` in `usr.lib/sendmail/src/parseaddr.c` does: it cuts an address into tokens, and
drops blanks and comments, with the state table `StateTab` and a character of lookahead.

The characters in `pvpbuf` are modelled with their places in the address, which the source does not
keep; `q` is the index of the next one. A token is what has been stored since `tok`, which is read
up to the first null in it.
-/

namespace Uwisc.Sendmail

def MAXNAME : ℕ := 256
def PSBUFSIZE : ℕ := MAXNAME + MAXATOM

/-- The states, which are also the types of characters. -/
inductive State
  | OPR
  | ATM
  | QST
  | SPC
  | ONE
  deriving DecidableEq

/-- An entry of `StateTab`: the new state, and the bits `M` and `B`. -/
structure Entry where
  state : State
  M : Bool
  B : Bool
  deriving DecidableEq

def StateTab : State → State → Entry
  | .OPR, .SPC => ⟨.SPC, true, true⟩
  | .OPR, t => ⟨t, false, true⟩
  | .ATM, .ATM => ⟨.ATM, false, false⟩
  | .ATM, .SPC => ⟨.SPC, true, true⟩
  | .ATM, t => ⟨t, false, true⟩
  | .QST, .QST => ⟨.OPR, false, false⟩
  | .QST, _ => ⟨.QST, false, false⟩
  | .SPC, .SPC => ⟨.SPC, true, false⟩
  | .SPC, t => ⟨t, false, false⟩
  | .ONE, _ => ⟨.OPR, false, false⟩

def isspace (c : UInt8) : Bool := (9 ≤ c ∧ c ≤ 13) ∨ c = 0x20
def iscntrl (c : UInt8) : Bool := c < 0x20 ∨ c = 0x7f

/-- The type of a character, `ops` being those of the macro `o` and `DELIMCHARS`. -/
def toktype (ops : UInt8 → Bool) (c : UInt8) : State :=
  if c = MATCHCLASS ∨ c = MATCHREPL ∨ c = MATCHNCLASS then .ONE
  else if c = MACVALUE then .ONE
  else if c = 0x22 then .QST
  else if 0x80 ≤ c then .ATM
  else if isspace c ∨ c = 0x29 then .SPC
  else if iscntrl c ∨ ops c then .OPR
  else .ATM

/-- A character and its place in the address. -/
abbrev Cell := ℕ × UInt8

/-- What `prescan` returns a null pointer for, the last two being: nothing to return, and a write
    outside of `pvpbuf` or `av`. -/
inductive Trouble
  | tooLong
  | unbalancedRparen
  | unbalancedRangle
  | tooManyTokens
  | unbalancedLparen
  | unbalancedLangle
  | unbalancedQuote
  | noTokens
  | outside
  deriving DecidableEq

/-- The variables of `prescan` but `p`: the lookahead `c` is absent where it is `NOCHAR`. -/
structure Prescan where
  q : ℕ
  c : Option Cell
  tok : List Cell
  av : List (List Cell)
  state : State
  bslashmode : Bool
  cmntcnt : ℕ
  anglecnt : ℕ

def Prescan.start : Prescan := ⟨0, none, [], [], .OPR, false, 0, 0⟩

/-- The place of `DelimChar`, and the vector. -/
structure Scanned where
  delimChar : ℕ
  result : Except Trouble (List (List Cell))

namespace Prescan

/-- Store away any old lookahead character. -/
def store (s : Prescan) : Except Trouble Prescan :=
  match s.c with
  | none => .ok s
  | some x =>
    if PSBUFSIZE - 5 ≤ s.q then .error .tooLong
    else if PSBUFSIZE ≤ s.q then .error .outside
    else .ok { s with q := s.q + 1, tok := s.tok ++ [x], c := none }

/-- Chew up special characters. -/
def chew (delim : UInt8) (s : Prescan) (b : UInt8) : Except Trouble (Option UInt8 × Prescan) :=
  let c := b &&& 0o177
  if PSBUFSIZE ≤ s.q then .error .outside
  else if s.bslashmode then
    .ok (some (if c ≠ 0x21 then c ||| 0o200 else c), { s with bslashmode := false })
  else if c = 0x5c then .ok (none, { s with bslashmode := true })
  else if s.state = .QST then .ok (some c, s)
  else if c = 0x28 then .ok (none, { s with cmntcnt := s.cmntcnt + 1 })
  else if c = 0x29 then
    if s.cmntcnt = 0 then .error .unbalancedRparen
    else .ok (some c, { s with cmntcnt := s.cmntcnt - 1 })
  else if 0 < s.cmntcnt then .ok (none, s)
  else if c = 0x3c then .ok (some c, { s with anglecnt := s.anglecnt + 1 })
  else if c = 0x3e then
    if s.anglecnt = 0 then .error .unbalancedRangle
    else .ok (some c, { s with anglecnt := s.anglecnt - 1 })
  else if delim = 0x20 ∧ isspace c then .ok (some 0x20, s)
  else .ok (some c, s)

/-- New token. -/
def endToken (s : Prescan) : Except Trouble Prescan :=
  if s.tok = [] then .ok s
  else if PSBUFSIZE ≤ s.q then .error .outside
  else if MAXATOM ≤ s.av.length then .error .tooManyTokens
  else .ok { s with q := s.q + 1, tok := [], av := s.av ++ [s.tok] }

/-- The end of the scan at `p`, the last token being in `av`. -/
def finish (p : ℕ) (s : Prescan) : Scanned where
  delimChar := p
  result :=
    if MAXATOM < s.av.length then .error .outside
    else if 0 < s.cmntcnt then .error .unbalancedLparen
    else if 0 < s.anglecnt then .error .unbalancedLangle
    else if s.state = .QST then .error .unbalancedQuote
    else if s.av = [] then .error .noTokens
    else .ok (s.av.map fun t => t.takeWhile (·.2 ≠ 0))

/-- The end of the last token at the character at `p`, and of the scan. -/
def endScan (p : ℕ) (s : Prescan) : Scanned :=
  match s.endToken with
  | .error e => ⟨p + 1, .error e⟩
  | .ok s => s.finish p

/-- Whether the scan goes on with the lookahead character `c`. -/
def goesOn (delim : UInt8) (s : Prescan) : Bool :=
  match s.c with
  | none => schar delim ≠ -1 ∨ 0 < s.anglecnt
  | some x => x.2 ≠ 0 ∧ (schar delim ≠ x.2.toNat ∨ 0 < s.anglecnt)

/-- What is done with a character that is not dropped. -/
def enter (ops : UInt8 → Bool) (delim : UInt8) (p : ℕ) (c : UInt8) (s : Prescan) : Prescan ⊕ Scanned :=
  if schar delim = c.toNat ∧ s.anglecnt = 0 ∧ s.state ≠ .QST then .inr (s.endScan p)
  else
    let newstate := StateTab s.state (toktype ops c)
    let s := { s with state := newstate.state, c := if newstate.M then none else some (p, c) }
    if newstate.B then
      match s.endToken with
      | .error e => .inr ⟨p + 1, .error e⟩
      | .ok s => if s.goesOn delim then .inl s else .inr (s.finish p)
    else .inl s

/-- The terminating null, at `p`. -/
def stop (p : ℕ) (s : Prescan) : Scanned :=
  match s.store with
  | .error e => ⟨p, .error e⟩
  | .ok s => s.endScan p

/-- A new input character, at `p`. -/
def step (ops : UInt8 → Bool) (delim : UInt8) (p : ℕ) (b : UInt8) (s : Prescan) : Prescan ⊕ Scanned :=
  if b = 0 then .inr (s.stop p)
  else
    match s.store with
    | .error e => .inr ⟨p, .error e⟩
    | .ok s =>
      match s.chew delim b with
      | .error e => .inr ⟨p + 1, .error e⟩
      | .ok (none, s) => .inl s
      | .ok (some c, s) => s.enter ops delim p c

end Prescan

/-- The scan of the rest of an address from `p`, after which there is a null. -/
def scan (ops : UInt8 → Bool) (delim : UInt8) : ℕ → List UInt8 → Prescan → Scanned
  | p, [], s => s.stop p
  | p, b :: rest, s =>
    match s.step ops delim p b with
    | .inl s => scan ops delim (p + 1) rest s
    | .inr r => r

end Uwisc.Sendmail
