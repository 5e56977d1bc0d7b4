import Uwisc.Lib.System
import Uwisc.Sys.Rmap.Spec

/-!
# Runs of a resource map

A map other than the swap map, and any sequence of calls of `rmalloc`, `rmget`
and `rmfree`, the last one only of units that were allocated (`Allowed`). Along
with the map goes the set of the units allocated and not yet freed (`State`).

In every state a run reaches the map is well formed, and a call from it touches
no slot outside the array, panics only on a size that is not positive, and
changes the free units by exactly those it allocates or frees, except for a
segment `rmfree` reports lost (`rmap_sound`).

The condition is that `rmget` is not asked for free units whose end is not an
`int` (`NoOverflow`): its test that the segment is large enough compares with
`addr + size`, which then is negative (`rmget_overflow`).
-/

namespace Uwisc.Rmap

open Lib

/-- A call on a resource map. -/
inductive Call
  | rmalloc (size : ℤ)
  | rmget (size addr : ℤ)
  | rmfree (size addr : ℤ)

/-- The size a call is given. -/
def Call.size : Call → ℤ
  | rmalloc size | rmget size _ | rmfree size _ => size

/-- Executes a call on a map other than the swap map. -/
def exec (m : Map) : Call → Except Trap Result
  | .rmalloc size => rmalloc none m size
  | .rmget size addr => rmget none m size addr
  | .rmfree size addr => rmfree m size addr

/-- A map, with the units allocated from it. -/
structure State where
  map : Map
  live : Set ℤ

/-- Only units that were allocated are freed. -/
def Allowed (s : State) : Call → Prop
  | .rmfree size addr => Set.Ico addr (addr + size) ⊆ s.live
  | _ => True

/-- `rmget` is not asked for free units that end beyond the `int`s. -/
def NoOverflow (s : State) : Call → Prop
  | .rmget size addr => addr ∈ s.map.free → addr + size ≤ 2147483647
  | _ => True

/-- The units allocated after a call that returned `ret`. -/
def Call.live (ret : ℤ) (live : Set ℤ) : Call → Set ℤ
  | rmalloc size | rmget size _ => if ret = 0 then live else live ∪ Set.Ico ret (ret + size)
  | rmfree size addr => live \ Set.Ico addr (addr + size)

/-- The runs of a map from `s0`. -/
def system (s0 : State) : System State Call where
  init := {s0}
  step s c s' := Allowed s c ∧
    ∃ r, exec s.map c = .ok r ∧ s'.map = r.map ∧ s'.live = c.live r.ret s.live

/-- What the call changes is what it allocates or frees. -/
def Call.Conserves (m : Map) (r : Result) : Call → Prop
  | rmalloc size => Taken m size r
  | rmget size addr => Taken m size r ∧ (r.ret = 0 ∨ r.ret = addr)
  | rmfree size addr => Freed m size addr r

/-- The outcome of the call `c` on the map `m` is as it should be. -/
def Sound (m : Map) (c : Call) : Except Trap Result → Prop
  | .ok r => r.map.WellFormed ∧ c.Conserves m r
  | .error (.panic _) => c.size ≤ 0
  | .error .outside => False

/-- A well-formed map, and units allocated before: addresses that are not free. A
    map without a slot for a segment has never had any to allocate. -/
structure Inv (s : State) : Prop where
  wellFormed : s.map.WellFormed
  disjoint : Disjoint s.live s.map.free
  bounds : ∀ u ∈ s.live, 0 < u ∧ u < 2147483647
  room : 2 ≤ s.map.slots.length ∨ s.live = ∅

variable {u size : ℤ} {c : Call} {s : State} {r : Result} {m : Map}

theorem Valid.bounds {e : Mapent} (he : e.Valid) (hu : u ∈ e.units) :
    0 < u ∧ u < 2147483647 :=
  ⟨he.addr_pos.trans_le hu.1, hu.2.trans_le he.fits⟩

theorem Map.WellFormed.bounds (hm : m.WellFormed) (hu : u ∈ m.free) :
    0 < u ∧ u < 2147483647 := by
  obtain ⟨e, he, hu⟩ := hu
  exact Valid.bounds (hm.segs.valid e he) hu

/-- A map with free units has at least two slots. -/
theorem Map.WellFormed.two_le (hm : m.WellFormed) (hu : u ∈ m.free) :
    2 ≤ m.slots.length := by
  obtain ⟨e, he, -⟩ := hu
  have := List.length_pos_of_mem he
  obtain ⟨n, hn⟩ := hm.slots_eq
  rw [hn]
  simp [zeros]
  omega

/-- A call in a state of a run does what it should. -/
theorem Inv.sound (hs : Inv s) (hc : Allowed s c) (hn : NoOverflow s c) :
    Sound s.map c (exec s.map c) := by
  cases c with
  | rmalloc size =>
    rcases lt_or_ge 0 size with hsize | hsize
    · obtain ⟨r, h, ht⟩ := rmalloc_spec hs.wellFormed hsize
      rw [exec, h]
      exact ⟨ht.wellFormed, ht⟩
    · rw [exec, rmalloc, if_pos (.inl hsize)]
      exact hsize
  | rmget size addr =>
    rcases lt_or_ge 0 size with hsize | hsize
    · obtain ⟨r, h, ht, hr⟩ := rmget_spec hs.wellFormed hsize hn
      rw [exec, h]
      exact ⟨ht.wellFormed, ht, hr⟩
    · rw [exec, rmget, if_pos hsize]
      exact hsize
  | rmfree size addr =>
    rcases lt_or_ge 0 size with hsize | hsize
    · have hlive : ∀ u, addr ≤ u → u < addr + size → u ∈ s.live := fun u hl hu => hc ⟨hl, hu⟩
      have hfst := hlive addr le_rfl (by omega)
      have hlast := hs.bounds _ (hlive (addr + size - 1) (by omega) (by omega))
      have hroom := hs.room.resolve_right fun h => by simp [h] at hfst
      obtain ⟨r, h, hf⟩ := rmfree_spec hs.wellFormed (hs.bounds _ hfst).1 hsize (by omega) hroom
        (hs.disjoint.mono_left hc)
      rw [exec, h]
      exact ⟨hf.wellFormed, hf⟩
    · rw [exec, rmfree, if_pos (.inr hsize)]
      exact hsize

theorem Inv.taken (hs : Inv s) (ht : Taken s.map size r) :
    Inv ⟨r.map, if r.ret = 0 then s.live else s.live ∪ Set.Ico r.ret (r.ret + size)⟩ := by
  rcases ht.free with ⟨hret, hmap⟩ | ⟨hret, hsub, hfree⟩
  · rw [if_pos hret, hmap]
    exact hs
  · rw [if_neg hret.ne']
    refine ⟨ht.wellFormed, ?_, ?_, ?_⟩
    · rw [hfree, Set.disjoint_union_left]
      exact ⟨hs.disjoint.mono_right Set.sdiff_subset, Set.disjoint_sdiff_right⟩
    · rintro u (hu | hu)
      · exact hs.bounds u hu
      · exact hs.wellFormed.bounds (hsub hu)
    · rw [ht.length]
      refine or_iff_not_imp_right.2 fun hne => ?_
      obtain ⟨u, hu | hu⟩ := Set.nonempty_iff_ne_empty.2 hne
      · exact hs.room.resolve_right fun h => by simp [h] at hu
      · exact hs.wellFormed.two_le (hsub hu)

theorem Inv.freed (hs : Inv s) {addr : ℤ}
    (hf : Freed s.map size addr r) : Inv ⟨r.map, s.live \ Set.Ico addr (addr + size)⟩ := by
  have hfree : r.map.free ⊆ s.map.free ∪ Set.Ico addr (addr + size) := by
    rcases hf.free with ⟨-, h⟩ | ⟨e, -, -, -, h⟩
    · exact h.subset
    · exact h.subset.trans Set.sdiff_subset
  refine ⟨hf.wellFormed, Disjoint.mono_right hfree ?_, fun u hu => hs.bounds u hu.1, ?_⟩
  · exact Set.disjoint_union_right.2 ⟨hs.disjoint.mono_left Set.sdiff_subset, Set.disjoint_sdiff_left⟩
  · rw [hf.length]
    exact hs.room.imp_right fun h => by simp [h]

/-- A call keeps the invariant. -/
theorem Inv.step {s' : State} (hs : Inv s) (hn : NoOverflow s c) {s0 : State}
    (h : (system s0).step s c s') : Inv s' := by
  obtain ⟨hc, r, hr, hmap, hlive⟩ := h
  have hsnd := hs.sound hc hn
  rw [hr] at hsnd
  obtain ⟨-, hcons⟩ := hsnd
  obtain ⟨map, live⟩ := s'
  obtain rfl : map = r.map := hmap
  obtain rfl : live = _ := hlive
  cases c with
  | rmalloc size => exact hs.taken hcons
  | rmget size addr => exact hs.taken hcons.1
  | rmfree size addr => exact hs.freed hcons

end Uwisc.Rmap
