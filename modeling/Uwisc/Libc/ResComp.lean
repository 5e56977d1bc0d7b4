import Mathlib.Data.UInt
import Uwisc.Lib.Bytes

/-!
# Domain names in messages

The compression of domain names (`lib/libc/net/res_comp.c`). A message is a memory whose addresses
are offsets from its beginning; the text of a name is a list of characters without its NUL, where
reading at the end of the list reads the NUL. The list `dnptrs` is what stands in it between the
beginning of the message and the NULL.

A walk through a message follows pointers, so that it may have no end: it is given the number of
labels and pointers it may pass, and is `none` while it has not returned after these.
-/

namespace Uwisc.ResComp

open Function Lib

/-- The two bits that tell a pointer from a length. -/
def INDIR_MASK : UInt8 := 0xc0

/-- The length of the longest label. -/
def MAXLABEL : ℕ := 63

/-- What labels are separated by, `'.'`. -/
def DOT : UInt8 := 0x2e

/-- What escapes a character, `'\\'`. -/
def BACKSLASH : UInt8 := 0x5c

/-- Where a pointer with the first byte `n` leads, its second byte being at `cp`. -/
def indirect (msg : Mem) (n : UInt8) (cp : ℕ) : ℕ := (n &&& 0x3f).toNat <<< 8 ||| (msg cp).toNat

/-! ### `dn_expand` -/

/-- `dn >= eom`: there is no room at `dn` for a character and the NUL. -/
def NoRoom (length dn : ℕ) : Prop := length ≤ dn + 1

instance (length dn : ℕ) : Decidable (NoRoom length dn) := inferInstanceAs (Decidable (_ ≤ _))

/-- The loop that copies a label of `n` bytes from `cp` to the expanded name. -/
def expandLabel (msg : Mem) (eomorig length : ℕ) : ℕ → ℕ → List UInt8 → Option (ℕ × List UInt8)
  | 0, cp, dn => some (cp, dn)
  | n + 1, cp, dn =>
    let c := msg cp
    if c = DOT ∧ NoRoom length (dn.length + n + 1) then none
    else if eomorig ≤ cp + 1 then none
    else expandLabel msg eomorig length n (cp + 1) (dn ++ if c = DOT then [BACKSLASH, c] else [c])

/-- The loop of `dnExpand`: `len` is the size of the compressed name, if a pointer was passed. -/
def expandLoop (msg : Mem) (eomorig comp_dn length : ℕ) :
    ℕ → ℕ → List UInt8 → Option ℕ → Option (Option (ℕ × List UInt8))
  | 0, _, _, _ => none
  | fuel + 1, cp, dn, len =>
    let n := msg cp
    if n = 0 then some (some (len.getD (cp + 1 - comp_dn), dn))
    else if n &&& INDIR_MASK = 0 then
      let dn' := if dn = [] then dn else dn ++ [DOT]
      if dn ≠ [] ∧ NoRoom length dn.length then some none
      else if NoRoom length (dn'.length + n.toNat) then some none
      else
        match expandLabel msg eomorig length n.toNat (cp + 1) dn' with
        | none => some none
        | some (cp, dn) => expandLoop msg eomorig comp_dn length fuel cp dn len
    else if n &&& INDIR_MASK = INDIR_MASK then
      let cp' := indirect msg n (cp + 1)
      if eomorig ≤ cp' then some none
      else expandLoop msg eomorig comp_dn length fuel cp' dn (some (len.getD (cp + 2 - comp_dn)))
    else some none

/-- Expands the name at `comp_dn` of a message that ends at `eomorig`, into a buffer of `length`
    bytes: the size of the compressed name and the expanded one, if there was no error. -/
def dnExpand (msg : Mem) (eomorig fuel comp_dn length : ℕ) : Option (Option (ℕ × List UInt8)) :=
  expandLoop msg eomorig comp_dn length fuel comp_dn [] none

/-! ### `dn_skip` -/

/-- The loop of `dnSkip`. -/
def skipLoop (msg : Mem) : ℕ → ℕ → Option (Option ℕ)
  | 0, _ => none
  | fuel + 1, cp =>
    let n := msg cp
    if n = 0 then some (some (cp + 1))
    else if n &&& INDIR_MASK = 0 then skipLoop msg fuel (cp + 1 + n.toNat)
    else if n &&& INDIR_MASK = INDIR_MASK then some (some (cp + 2))
    else some none

/-- The size of the compressed name at `comp_dn`. -/
def dnSkip (msg : Mem) (fuel comp_dn : ℕ) : Option (Option ℕ) :=
  (skipLoop msg fuel comp_dn).map (Option.map (· - comp_dn))

/-! ### `dn_find` -/

/-- The loop that compares a label of `n` bytes with the text: the rest of this, or `none` for
    `goto next`. -/
def findLabel (msg : Mem) : ℕ → ℕ → List UInt8 → Option (List UInt8)
  | 0, _, dn => some dn
  | n + 1, cp, dn =>
    let dn := if dn.headD 0 = BACKSLASH then dn.tail else dn
    if dn.headD 0 ≠ msg cp then none else findLabel msg n (cp + 1) dn.tail

/-- What comes of the comparison with one name. -/
inductive Found
  | found
  | next
  /-- An illegal type of label, at which the whole search ends. -/
  | illegal

/-- The loop that compares the text `dn` with the name at `cp`. -/
def findName (msg : Mem) : ℕ → ℕ → List UInt8 → Option Found
  | 0, _, _ => none
  | fuel + 1, cp, dn =>
    let n := msg cp
    if n = 0 then some (if dn = [] then .found else .next)
    else if n &&& INDIR_MASK = 0 then
      match findLabel msg n.toNat (cp + 1) dn with
      | none => some .next
      | some [] => some (if msg (cp + 1 + n.toNat) = 0 then .found else .next)
      | some (c :: dn) => if c = DOT then findName msg fuel (cp + 1 + n.toNat) dn else some .next
    else if n &&& INDIR_MASK = INDIR_MASK then findName msg fuel (indirect msg n (cp + 1)) dn
    else some .illegal

/-- Searches the names that the pointers lead to. -/
def dnFind (msg : Mem) (fuel : ℕ) (exp_dn : List UInt8) : List ℕ → Option (Option ℕ)
  | [] => some none
  | sp :: cpp =>
    match findName msg fuel sp exp_dn with
    | none => none
    | some .found => some (some sp)
    | some .next => dnFind msg fuel exp_dn cpp
    | some .illegal => some none

/-! ### `dn_comp` -/

/-- What `dn_comp` leaves, and the size it returns, if it does not return `-1`. -/
structure Comp where
  msg : Mem
  dnptrs : List ℕ
  size : Option ℕ

/-- Saves the pointer `cp`, if there is room for it before `lastdnptr`: the index of this in the array,
    of which the beginning of the message takes the first place. -/
def save (lastdnptr : Option ℕ) (dnptrs : List ℕ) (cp : ℕ) : List ℕ :=
  match lastdnptr with
  | none => dnptrs
  | some last => if dnptrs.length + 2 < last then dnptrs ++ [cp] else dnptrs

/-- The loop that copies a label to `cp`: where it ends, and the text after it, if there was room. -/
def copyLabel (eob : ℕ) : List UInt8 → Mem → ℕ → Mem × ℕ × Option (List UInt8)
  | [], msg, cp => (msg, cp, some [])
  | c :: dn, msg, cp =>
    if c = DOT then (msg, cp, some dn)
    else if c = BACKSLASH then
      match dn with
      | [] => (msg, cp, some [])
      | c :: dn =>
        if eob ≤ cp then (msg, cp, none) else copyLabel eob dn (update msg cp c) (cp + 1)
    else if eob ≤ cp then (msg, cp, none)
    else copyLabel eob dn (update msg cp c) (cp + 1)

/-- Writes the NUL byte that ends a name. -/
def endName (comp_dn eob : ℕ) (msg : Mem) (dnptrs : List ℕ) (cp : ℕ) : Comp :=
  if eob ≤ cp then ⟨msg, dnptrs, none⟩
  else ⟨update msg cp 0, dnptrs, some (cp + 1 - comp_dn)⟩

/-- Writes a pointer to `l`. -/
def endPointer (comp_dn eob : ℕ) (msg : Mem) (dnptrs : List ℕ) (cp l : ℕ) : Comp :=
  if eob ≤ cp + 1 then ⟨msg, dnptrs, none⟩
  else ⟨store msg cp [UInt8.ofNat (l >>> 8 ||| INDIR_MASK.toNat), UInt8.ofNat (l % 256)], dnptrs,
    some (cp + 2 - comp_dn)⟩

/-- The loop of `dnComp`: `lpp` are the pointers to search. -/
def compLoop (lastdnptr : Option ℕ) (comp_dn eob : ℕ) (lpp : List ℕ) :
    ℕ → Mem → List ℕ → ℕ → List UInt8 → Option Comp
  | 0, _, _, _, _ => none
  | fuel + 1, msg, dnptrs, cp, dn =>
    if dn = [] then some (endName comp_dn eob msg dnptrs cp)
    else
      match dnFind msg fuel dn lpp with
      | none => none
      | some (some l) => some (endPointer comp_dn eob msg dnptrs cp l)
      | some none =>
        let dnptrs := save lastdnptr dnptrs cp
        match copyLabel eob dn msg (cp + 1) with
        | (msg, _, none) => some ⟨msg, dnptrs, none⟩
        | (msg, cp', some dn) =>
          let l := cp' - cp - 1
          -- a trailing separator is not a label
          if l = 0 ∧ dn = [] then some (endName comp_dn eob msg dnptrs cp)
          else if l = 0 ∨ MAXLABEL < l then some ⟨msg, dnptrs, none⟩
          else compLoop lastdnptr comp_dn eob lpp fuel (update msg cp (UInt8.ofNat l)) dnptrs
            cp' dn

/-- Compresses the name `exp_dn` into the `length` bytes at `comp_dn`. The search leaves out the first
    pointer of the list. -/
def dnComp (msg : Mem) (dnptrs : List ℕ) (fuel : ℕ) (exp_dn : List UInt8) (comp_dn length : ℕ)
    (lastdnptr : Option ℕ) : Option Comp :=
  compLoop lastdnptr comp_dn (comp_dn + length) dnptrs.tail fuel msg dnptrs comp_dn exp_dn

end Uwisc.ResComp
