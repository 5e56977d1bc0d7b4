import Mathlib.Data.List.Range
import Uwisc.Lib.System
import Uwisc.Lib.Wildcard

/-!
# Rewriting rules of sendmail

What `rewrite` in `usr.lib/sendmail/src/parseaddr.c` does with one rule: its left-hand side is
matched against the vector of tokens, with what the metasymbols match kept in `mlist`, and the
right-hand side is copied to `npvp` with what they matched.

Tokens are strings without the final null. A pointer into a vector is the index of what it points
to. `mlist` is what is before `mlp`, of any length: where it is longer than `MAXMATCH` the source
writes after the end of the array.
-/

namespace Uwisc.Sendmail

open Lib

abbrev Token := List UInt8

def MATCHZANY : UInt8 := 0o20
def MATCHANY : UInt8 := 0o21
def MATCHONE : UInt8 := 0o22
def MATCHCLASS : UInt8 := 0o23
def MATCHNCLASS : UInt8 := 0o24
def MATCHREPL : UInt8 := 0o25
def CANONNET : UInt8 := 0o26
def CANONHOST : UInt8 := 0o27
def CANONUSER : UInt8 := 0o30
def MACVALUE : UInt8 := 0o37

def MAXMATCH : ℕ := 9
def MAXATOM : ℕ := 100

/-- The classes of the symbol table, of every token with an entry there, and the values of the
    macros. -/
structure Env where
  s_class : Token → Option (UInt8 → Bool)
  macvalue : UInt8 → Option Token

/-- A `char`, which is signed. -/
def schar (c : UInt8) : ℤ := if c.toNat < 128 then c.toNat else c.toNat - 256

def lower (c : UInt8) : UInt8 := if 65 ≤ c ∧ c ≤ 90 then c + 32 else c

def sameword : Token → Token → Bool
  | [], [] => true
  | a :: as, b :: bs => lower a == lower b && sameword as bs
  | _, _ => false

/-- `*p`, of a vector with a null after its last token. -/
def deref (v : List Token) (p : ℤ) : Option Token :=
  if p < 0 then none else v[p.toNat]?

/-! ### Matching -/

/-- The kinds of tokens of a left-hand side, by their first character. -/
inductive Pat
  | zany
  | any
  | one
  | cls (c : UInt8)
  | ncls (c : UInt8)
  | macvalue (c : UInt8)
  | word (w : Token)
  deriving DecidableEq

def pat (rp : Token) : Pat :=
  let c := rp.headD 0
  if c = MATCHZANY then .zany
  else if c = MATCHANY then .any
  else if c = MATCHONE then .one
  else if c = MATCHCLASS then .cls (rp.getD 1 0)
  else if c = MATCHNCLASS then .ncls (rp.getD 1 0)
  else if c = MACVALUE then .macvalue (rp.getD 1 0)
  else .word rp

/-- The metasymbols, which have an entry in `mlist`. -/
def Pat.binds : Pat → Bool
  | macvalue _ | word _ => false
  | _ => true

/-- The tests on the token `ap`. -/
def Env.admits (env : Env) (ap : Token) : Pat → Bool
  | .zany | .any | .one => true
  | .cls c => (env.s_class ap).any (· c)
  | .ncls c => !(env.s_class ap).any (· c)
  | .macvalue c => (env.macvalue c).any (sameword · ap)
  | .word w => sameword w ap

structure Match where
  first : ℤ
  last : ℤ
  deriving DecidableEq

/-- The pointers of the matching loop. -/
structure Scan where
  avp : ℤ
  rvp : ℕ
  mlist : List Match
  deriving DecidableEq

/-- Successful match on this token. -/
def Scan.accept (s : Scan) : Pat → Scan
  | .zany => ⟨s.avp, s.rvp + 1, s.mlist ++ [⟨s.avp, s.avp - 1⟩]⟩
  | .any | .one | .cls _ | .ncls _ => ⟨s.avp + 1, s.rvp + 1, s.mlist ++ [⟨s.avp, s.avp⟩]⟩
  | .macvalue _ | .word _ => ⟨s.avp + 1, s.rvp + 1, s.mlist⟩

/-- Match failed: back up to the last wildcard, and extend its binding. -/
def backup (lhs : List Token) : ℕ → ℤ → List Match → Option Scan
  | 0, _, _ => none
  | rvp + 1, avp, mlist =>
    match (lhs[rvp]?).map pat with
    | some .zany | some .any => mlist.getLast?.map fun m =>
      ⟨m.last + 1 + 1, rvp + 1, mlist.dropLast ++ [⟨m.first, m.last + 1⟩]⟩
    | some .one | some (.cls _) | some (.ncls _) => backup lhs rvp (avp - 1) mlist.dropLast
    | _ => backup lhs rvp (avp - 1) mlist

/-- What a round of the loop leads to: another one, or its end with or without a match. -/
inductive Round
  | next (s : Scan)
  | done (mlist : Option (List Match))
  deriving DecidableEq

def Round.ofBackup : Option Scan → Round
  | some s => next s
  | none => done none

def round (env : Env) (lhs pvp : List Token) (s : Scan) : Round :=
  match deref pvp s.avp, lhs[s.rvp]? with
  | none, none => .done (some s.mlist)
  | some _, none => .ofBackup (backup lhs s.rvp s.avp s.mlist)
  | none, some rp => if pat rp = .zany then .next (s.accept .zany) else .done none
  | some ap, some rp =>
    if env.admits ap (pat rp) then .next (s.accept (pat rp))
    else .ofBackup (backup lhs s.rvp s.avp s.mlist)

def Scan.start : Scan := ⟨0, 0, []⟩

/-- The rounds of the loop, as many as `fuel`. -/
def matchLoop (env : Env) (lhs pvp : List Token) : ℕ → Scan → Option (Option (List Match))
  | 0, _ => none
  | fuel + 1, s =>
    match round env lhs pvp s with
    | .next s => matchLoop env lhs pvp fuel s
    | .done mlist => some mlist

/-- The states of the matching loop. -/
def matching (env : Env) (lhs pvp : List Token) : System Scan Unit where
  init := {.start}
  step s _ s' := round env lhs pvp s = .next s'

/-! ### Substituting -/

/-- What ends a substitution: the errors `replacement out of bounds` and `expansion too long`, and
    a binding before `mlist`. -/
inductive Failure
  | outOfBounds
  | tooLong
  | beforeMlist
  deriving DecidableEq

/-- The tokens of a binding. -/
def Match.tokens (pvp : List Token) (m : Match) : List Token :=
  (pvp.drop m.first.toNat).take (m.last - m.first + 1).toNat

/-- The index of the binding a replacement stands for. -/
def index (rp : Token) : ℤ := schar (rp.getD 1 0) - schar 0x31

def copy : List Token → List Token → Except Failure (List Token)
  | npvp, [] => .ok npvp
  | npvp, t :: ts => if MAXATOM ≤ npvp.length then .error .tooLong else copy (npvp ++ [t]) ts

/-- One token of the right-hand side, with `npvp` filled up to `avp`. -/
def substituteOne (env : Env) (pvp : List Token) (mlist : List Match) (npvp : List Token) (rp : Token) :
    Except Failure (List Token) :=
  if rp.headD 0 = MATCHREPL then
    if index rp < 0 then .error .beforeMlist
    else match mlist[(index rp).toNat]? with
      | none => .error .outOfBounds
      | some m => copy npvp (m.tokens pvp)
  else if MAXATOM ≤ npvp.length then .error .tooLong
  else if rp.headD 0 = MACVALUE then
    match env.macvalue (rp.getD 1 0) with
    | some v => .ok (npvp ++ [v])
    | none => .ok npvp
  else .ok (npvp ++ [rp])

def substitute (env : Env) (pvp : List Token) (mlist : List Match) (rhs : List Token) :
    Except Failure (List Token) :=
  rhs.foldlM (substituteOne env pvp mlist) []

/-- The rule that is tried after a match. -/
inductive Next
  | same
  | next
  | stop
  deriving DecidableEq

/-- What the first token of the right-hand side says of the rule to try next, and what is
    substituted. -/
def select : List Token → Next × List Token
  | [] => (.same, [])
  | rp :: rhs =>
    if rp.headD 0 = CANONUSER then (.next, rhs)
    else if rp.headD 0 = CANONHOST then (.stop, rhs)
    else if rp.headD 0 = CANONNET then (.stop, rp :: rhs)
    else (.same, rp :: rhs)

/-- One rule on the vector `pvp`: what is tried next, and the substituted vector if it matches. -/
def rewriteRule (env : Env) (lhs rhs pvp : List Token) (fuel : ℕ) :
    Option (Next × Option (Except Failure (List Token))) :=
  (matchLoop env lhs pvp fuel .start).map fun
    | none => (.next, none)
    | some mlist => ((select rhs).1, some (substitute env pvp mlist (select rhs).2))

end Uwisc.Sendmail
