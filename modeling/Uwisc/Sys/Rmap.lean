import Mathlib.Data.Int.ConditionallyCompleteOrder
import Uwisc.Lib.Wrap

/-!
# Resource maps

The resource map routines of `sys/sys/subr_rmap.c`. A map is a dense array of
slots, each a segment of the free address space of a resource; the segments are
sorted by address and the first slot of size `0` delimits them. Addresses and
sizes are C `int`s: every sum and difference is the 32-bit one (`plus`, `minus`).

The array is the list of the slots before `m_limit`, and a pointer into it is a
zipper: the slots before it, the nearest first, and the slots from it on. An
access outside the array is the trap `outside`; a panic carries its text.

* `rmalloc`: first fit, respecting the interleaving of the swap map;
* `rmfree`: sorts the returned segment in, coalescing, or losing one segment
  when the map is full;
* `rmget`: takes given units out of the segment that contains them.
-/

namespace Uwisc.Rmap

open Lib

/-- A slot of the map (`struct mapent`). -/
structure Mapent where
  /-- Size of this segment of the map. -/
  m_size : ℤ
  /-- Address of the start of the segment. -/
  m_addr : ℤ
  deriving DecidableEq, Repr

/-- A resource map (`struct map` and the slots after it, up to `m_limit`). -/
structure Map where
  /-- The name of the resource, used in the overflow message. -/
  m_name : String
  slots : List Mapent
  deriving DecidableEq, Repr

/-- Why a call does not return. -/
inductive Trap
  | panic (msg : String)
  /-- A slot at or beyond `m_limit`, or before the first one, is touched. -/
  | outside
  deriving DecidableEq, Repr

/-- The message `"%s: rmap ovflo, lost [%d,%d)\n"`. -/
structure Ovflo where
  name : String
  lo : ℤ
  hi : ℤ
  deriving DecidableEq, Repr

/-- What a call leaves: the map, the value returned and the segment it reports lost. -/
structure Result where
  map : Map
  ret : ℤ := 0
  lost : Option Ovflo := none
  deriving DecidableEq, Repr

/-- The interleaving of the swap map (`nswdev`, `dmmax` and `CLSIZE`). -/
structure Swap where
  nswdev : ℤ
  dmmax : ℤ
  clsize : ℤ
  deriving DecidableEq, Repr

def plus (a b : ℤ) : ℤ := wrap 32 (a + b)
def minus (a b : ℤ) : ℤ := wrap 32 (a - b)

/-- The delimiter. -/
def delim : Mapent := ⟨0, 0⟩

/-- The address after the segment. -/
def Mapent.fin (e : Mapent) : ℤ := plus e.m_addr e.m_size

/-- Moves the slots after the first one left over it, up to the delimiter:
    `do { bp++; bp[-1] = bp[0]; } while (bp[-1].m_size)`. -/
def closeGap : List Mapent → Except Trap (List Mapent)
  | [] => .error .outside
  | [_] => .error .outside
  | _ :: b :: rest =>
    if b.m_size = 0 then .ok (b :: b :: rest) else (b :: ·) <$> closeGap (b :: rest)

/-- `while (bp->m_size) { bp++; bp[-1] = bp[0]; }`. -/
def slide : List Mapent → Except Trap (List Mapent)
  | [] => .error .outside
  | a :: rest => if a.m_size = 0 then .ok (a :: rest) else closeGap (a :: rest)

/-- The search of `rmfree`: the first slot that starts after `addr`, or the delimiter. -/
def locate (addr : ℤ) : List Mapent → List Mapent → Except Trap (List Mapent × List Mapent)
  | _, [] => .error .outside
  | pre, bp :: rest =>
    if bp.m_addr ≤ addr ∧ bp.m_size ≠ 0 then locate addr (bp :: pre) rest
    else .ok (pre, bp :: rest)

/-- The new entry of `rmfree`: from `bp` on, every slot takes what was before it,
    until the delimiter has been overwritten. -/
def insertLoop (addr size : ℤ) : List Mapent → Except Trap (List Mapent × ℕ)
  | [] => .error .outside
  | bp :: rest =>
    if bp.m_size = 0 then .ok (⟨size, addr⟩ :: rest, rest.length)
    else (fun r => (⟨size, addr⟩ :: r.1, r.2)) <$> insertLoop bp.m_addr bp.m_size rest

/-- Table too full: discards the second to last entry, moves the last one back
    and makes its slot the delimiter. -/
def discard (name : String) (slots : List Mapent) : Except Trap (List Mapent × Ovflo) :=
  match slots.reverse with
  | b :: a :: xs => .ok ((delim :: b :: xs).reverse, ⟨name, a.m_addr, a.fin⟩)
  | _ => .error .outside

/-- Makes a new entry at `bp`, and checks for map overflow. -/
def newEntry (m : Map) (size addr : ℤ) (pre suf : List Mapent) : Except Trap Result := do
  let (new, room) ← insertLoop addr size suf
  if room < 1 then
    let (slots, lost) ← discard m.m_name (pre.reverse ++ new)
    .ok { map := { m with slots := slots }, lost := some lost }
  else .ok { map := { m with slots := pre.reverse ++ new } }

/-- `rmfree` from the point where nothing abuts on the left. -/
def rmfreeRight (m : Map) (size addr : ℤ) (pre suf : List Mapent) : Except Trap Result :=
  match suf with
  | [] => .error .outside
  | bp :: rest =>
    if bp.m_addr ≤ plus addr size ∧ bp.m_size ≠ 0 then
      if bp.m_addr < plus addr size then .error (.panic "bad rmfree")
      else .ok { map := { m with slots :=
        pre.reverse ++ ⟨plus bp.m_size size, minus bp.m_addr size⟩ :: rest } }
    else newEntry m size addr pre (bp :: rest)

/-- Frees the space at `addr` of `size` units into the map. -/
def rmfree (m : Map) (size addr : ℤ) : Except Trap Result :=
  if addr ≤ 0 ∨ size ≤ 0 then .error (.panic "bad rmfree")
  else do
    match ← locate addr [] m.slots with
    | (lb :: pre, bp :: rest) =>
      if addr ≤ lb.fin then
        if addr < lb.fin then .error (.panic "bad rmfree")
        else
          let lb : Mapent := ⟨plus lb.m_size size, lb.m_addr⟩
          if bp.m_addr ≠ 0 ∧ bp.m_addr ≤ plus addr size then
            if bp.m_addr < plus addr size then .error (.panic "bad rmfree")
            else do
              let rest ← slide (bp :: rest)
              .ok { map := { m with slots :=
                pre.reverse ++ ⟨plus lb.m_size bp.m_size, lb.m_addr⟩ :: rest } }
          else .ok { map := { m with slots := pre.reverse ++ lb :: bp :: rest } }
      else rmfreeRight m size addr (lb :: pre) (bp :: rest)
    | (pre, suf) => rmfreeRight m size addr pre suf

/-- The search of `rmalloc`, and what it does with the first segment that fits. -/
def rmallocLoop (swap : Option Swap) (m : Map) (size : ℤ) :
    List Mapent → List Mapent → Except Trap Result
  | _, [] => .error .outside
  | pre, bp :: rest =>
    if bp.m_size = 0 then .ok { map := m }
    else if size ≤ bp.m_size then
      match swap with
      | some sw =>
        let first := minus sw.dmmax (bp.m_addr.tmod sw.dmmax)
        if 1 < sw.nswdev ∧ first < bp.m_size then
          if minus bp.m_size first < size then rmallocLoop swap m size (bp :: pre) rest
          else
            let addr := plus bp.m_addr first
            let left := minus (minus bp.m_size first) size
            let m : Map := { m with slots := pre.reverse ++ ⟨first, bp.m_addr⟩ :: rest }
            if left ≠ 0 then (fun r => { r with ret := addr }) <$> rmfree m left (plus addr size)
            else .ok { map := m, ret := addr }
        else do
          let r ← take pre bp rest
          if bp.m_addr.tmod sw.clsize ≠ 0 then .error (.panic "rmalloc swapmap") else .ok r
      | none => take pre bp rest
    else rmallocLoop swap m size (bp :: pre) rest
where
  /-- Allocates from the start of the segment, closing the gap if nothing is left of it. -/
  take (pre : List Mapent) (bp : Mapent) (rest : List Mapent) : Except Trap Result :=
    let bp' : Mapent := ⟨minus bp.m_size size, plus bp.m_addr size⟩
    if bp'.m_size = 0 then do
      let suf ← closeGap (bp' :: rest)
      .ok { map := { m with slots := pre.reverse ++ suf }, ret := bp.m_addr }
    else .ok { map := { m with slots := pre.reverse ++ bp' :: rest }, ret := bp.m_addr }

/-- Allocates `size` units from the map, from the swap map if `swap` is given;
    returns their base, or `0`. -/
def rmalloc (swap : Option Swap) (m : Map) (size : ℤ) : Except Trap Result :=
  if size ≤ 0 ∨ swap.any (·.dmmax < size) then .error (.panic "rmalloc")
  else rmallocLoop swap m size [] m.slots

/-- The search of `rmget`: the segment that contains `addr`, or the delimiter. -/
def contains (addr : ℤ) : List Mapent → List Mapent → Except Trap (List Mapent × List Mapent)
  | _, [] => .error .outside
  | pre, bp :: rest =>
    if bp.m_size = 0 ∨ (bp.m_addr ≤ addr ∧ addr < bp.fin) then .ok (pre, bp :: rest)
    else contains addr (bp :: pre) rest

/-- Moves the slots up to the delimiter one to the right, if the delimiter still
    has a slot after it. -/
def openGap : List Mapent → Except Trap (Option (List Mapent))
  | [] => .error .outside
  | b :: rest =>
    if b.m_size = 0 then .ok (if rest.isEmpty then none else some (b :: rest.tail))
    else (Option.map (b :: ·)) <$> openGap rest

/-- Allocates the `size` units at `addr`; returns `addr`, or `0`. -/
def rmget (swap : Option Swap) (m : Map) (size addr : ℤ) : Except Trap Result :=
  if size ≤ 0 then .error (.panic "rmget")
  else if swap.isSome then .ok { map := m }
  else do
    match ← contains addr [] m.slots with
    | (_, []) => .error .outside
    | (pre, bp :: rest) =>
      if bp.m_size = 0 then .ok { map := m }
      else if bp.fin < plus addr size then .ok { map := m }
      else if bp.m_addr = addr then
        if bp.fin = plus addr size then do
          let suf ← slide (bp :: rest)
          .ok { map := { m with slots := pre.reverse ++ suf }, ret := addr }
        else
          .ok { map := { m with slots := pre.reverse ++
            ⟨minus bp.m_size size, plus bp.m_addr size⟩ :: rest }, ret := addr }
      else if bp.fin = plus addr size then
        .ok { map := { m with slots := pre.reverse ++ ⟨minus bp.m_size size, bp.m_addr⟩ :: rest },
              ret := addr }
      else do
        match ← openGap rest with
        | none => .ok { map := m }
        | some rest =>
          .ok { map := { m with slots := pre.reverse ++ ⟨minus addr bp.m_addr, bp.m_addr⟩ ::
                  ⟨minus bp.fin (plus addr size), plus addr size⟩ :: rest },
                ret := addr }

end Uwisc.Rmap
