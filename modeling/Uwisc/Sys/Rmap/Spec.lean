import Uwisc.Lib.Cover
import Uwisc.Sys.Rmap

/-!
# What the resource map routines do

A well-formed map is its segments, sorted and never adjacent, then slots of
zeroes (`WellFormed`); it stands for the set of its free units (`free`). Each
loop of the routines is described on such a list of slots (`closeGap_segs`,
`locate_segs`, `insertLoop_segs`, `contains_segs`, `openGap_segs`), and each
routine on a well-formed map (`rmalloc_spec`, `rmfree_spec`, `rmget_spec`).
-/

namespace Uwisc.Rmap

open Lib List

/-- The units of a segment. -/
def Mapent.units (e : Mapent) : Set ℤ := Set.Ico e.m_addr (e.m_addr + e.m_size)

/-- A segment holds at least one unit, and its addresses are positive `int`s. -/
structure Mapent.Valid (e : Mapent) : Prop where
  addr_pos : 0 < e.m_addr
  size_pos : 0 < e.m_size
  fits : e.m_addr + e.m_size ≤ 2147483647

instance (e : Mapent) : Decidable e.Valid :=
  decidable_of_iff (0 < e.m_addr ∧ 0 < e.m_size ∧ e.m_addr + e.m_size ≤ 2147483647)
    ⟨fun ⟨a, s, f⟩ => ⟨a, s, f⟩, fun ⟨a, s, f⟩ => ⟨a, s, f⟩⟩

/-- Valid segments, sorted by address, disjoint and never adjacent. -/
structure Segs (l : List Mapent) : Prop where
  valid : ∀ e ∈ l, e.Valid
  sorted : l.Pairwise fun a b => a.m_addr + a.m_size < b.m_addr

instance (l : List Mapent) : Decidable (Segs l) :=
  decidable_of_iff (_ ∧ _) ⟨fun ⟨v, s⟩ => ⟨v, s⟩, fun ⟨v, s⟩ => ⟨v, s⟩⟩

/-- The slots of a map before the delimiter. -/
def Map.segs (m : Map) : List Mapent := m.slots.takeWhile fun e => e.m_size ≠ 0

/-- The delimiter and `n` more slots of zeroes. -/
def zeros (n : ℕ) : List Mapent := replicate (n + 1) delim

/-- The segments of the map are valid, sorted and never adjacent; the delimiter is
    below `m_limit`, and it and everything after it is zero. -/
structure Map.WellFormed (m : Map) : Prop where
  segs : Segs m.segs
  delimited : m.slots = m.segs ++ zeros (m.slots.length - m.segs.length - 1)

instance (m : Map) : Decidable m.WellFormed :=
  decidable_of_iff (_ ∧ _) ⟨fun ⟨v, s⟩ => ⟨v, s⟩, fun ⟨v, s⟩ => ⟨v, s⟩⟩

/-- The free units. -/
def Map.free (m : Map) : Set ℤ := cover Mapent.units m.segs

/-! ### Segments -/

theorem Segs.ne_zero {l : List Mapent} (h : Segs l) : ∀ e ∈ l, e.m_size ≠ 0 :=
  fun e he => (h.valid e he).size_pos.ne'

@[simp] theorem segs_nil : Segs [] := ⟨by simp, by simp⟩

@[simp] theorem segs_cons {e : Mapent} {l : List Mapent} :
    Segs (e :: l) ↔ e.Valid ∧ Segs l ∧ ∀ b ∈ l, e.m_addr + e.m_size < b.m_addr := by
  constructor
  · rintro ⟨v, s⟩
    rw [pairwise_cons] at s
    exact ⟨v e mem_cons_self, ⟨fun b hb => v b (mem_cons_of_mem _ hb), s.2⟩, s.1⟩
  · rintro ⟨ve, ⟨v, s⟩, h⟩
    exact ⟨forall_mem_cons.2 ⟨ve, v⟩, pairwise_cons.2 ⟨h, s⟩⟩

@[simp] theorem segs_append {l1 l2 : List Mapent} :
    Segs (l1 ++ l2) ↔ Segs l1 ∧ Segs l2 ∧ ∀ a ∈ l1, ∀ b ∈ l2, a.m_addr + a.m_size < b.m_addr := by
  constructor
  · rintro ⟨v, s⟩
    rw [pairwise_append] at s
    exact ⟨⟨fun e he => v e (mem_append_left _ he), s.1⟩,
      ⟨fun e he => v e (mem_append_right _ he), s.2.1⟩, s.2.2⟩
  · rintro ⟨⟨v1, s1⟩, ⟨v2, s2⟩, h⟩
    exact ⟨forall_mem_append.2 ⟨v1, v2⟩, pairwise_append.2 ⟨s1, s2, h⟩⟩

theorem Segs.sublist {l l' : List Mapent} (h : Segs l) (hs : l'.Sublist l) : Segs l' :=
  ⟨fun e he => h.valid e (hs.subset he), h.sorted.sublist hs⟩

/-- A segment apart from the others may stand between those below and above it. -/
theorem Segs.insert {l1 l2 : List Mapent} (h : Segs (l1 ++ l2)) {e : Mapent} (he : e.Valid)
    (hlt : ∀ a ∈ l1, a.m_addr + a.m_size < e.m_addr)
    (hgt : ∀ b ∈ l2, e.m_addr + e.m_size < b.m_addr) : Segs (l1 ++ e :: l2) := by
  obtain ⟨h1, h2, h12⟩ := segs_append.1 h
  exact segs_append.2 ⟨h1, segs_cons.2 ⟨he, h2, hgt⟩, fun a ha =>
    forall_mem_cons.2 ⟨hlt a ha, h12 a ha⟩⟩

/-- Segments ending below `x` cover units below `x`. -/
theorem lt_of_mem_cover {l : List Mapent} {x u : ℤ}
    (h : ∀ a ∈ l, a.m_addr + a.m_size < x) (hu : u ∈ cover Mapent.units l) : u < x - 1 := by
  obtain ⟨e, he, _, hu⟩ := hu
  have := h e he
  omega

/-- Segments starting above `x` cover units above `x`. -/
theorem gt_of_mem_cover {l : List Mapent} {x u : ℤ}
    (h : ∀ b ∈ l, x < b.m_addr) (hu : u ∈ cover Mapent.units l) : x < u := by
  obtain ⟨e, he, hu, _⟩ := hu
  have := h e he
  omega

theorem takeWhile_zeros {l : List Mapent} (h : ∀ e ∈ l, e.m_size ≠ 0) (n : ℕ) :
    (l ++ zeros n).takeWhile (fun e => e.m_size ≠ 0) = l := by
  rw [takeWhile_append_of_pos (by simpa using h)]
  simp [zeros, replicate_succ, delim]

/-- A map is well formed when its slots are segments followed by zeroes. -/
theorem wellFormed_of_slots {m : Map} {l : List Mapent} {n : ℕ} (hs : m.slots = l ++ zeros n)
    (hl : Segs l) : m.WellFormed ∧ m.segs = l := by
  have hsegs : m.segs = l := by rw [Map.segs, hs, takeWhile_zeros hl.ne_zero]
  refine ⟨⟨hsegs ▸ hl, ?_⟩, hsegs⟩
  have hlen : m.slots.length - m.segs.length - 1 = n := by
    rw [hsegs, hs]; simp [zeros]
  rw [hlen, hsegs, hs]

theorem Map.WellFormed.free_eq {m : Map} {l : List Mapent} {n : ℕ} (hs : m.slots = l ++ zeros n)
    (hl : Segs l) : m.free = cover Mapent.units l := by
  rw [Map.free, (wellFormed_of_slots hs hl).2]

/-! ### Loops -/

theorem closeGap_segs {l : List Mapent} (hl : ∀ e ∈ l, e.m_size ≠ 0) (a : Mapent) (n : ℕ) :
    closeGap (a :: l ++ zeros n) = .ok (l ++ zeros (n + 1)) := by
  induction l generalizing a with
  | nil => simp [zeros, replicate_succ, closeGap, delim]
  | cons b l ih =>
    have hb : b.m_size ≠ 0 := hl b mem_cons_self
    have := ih (fun e he => hl e (mem_cons_of_mem _ he)) b
    simp only [cons_append] at this ⊢
    rw [closeGap, if_neg hb, this]
    rfl

theorem slide_segs {l : List Mapent} (hl : ∀ e ∈ l, e.m_size ≠ 0) {a : Mapent} (ha : a.m_size ≠ 0)
    (n : ℕ) : slide (a :: l ++ zeros n) = .ok (l ++ zeros (n + 1)) := by
  have := closeGap_segs hl a n
  simp only [cons_append] at this ⊢
  rw [slide, if_neg ha, this]

theorem locate_segs (addr : ℤ) {l : List Mapent} (hl : ∀ e ∈ l, e.m_size ≠ 0) (n : ℕ)
    (pre : List Mapent) : ∃ l1 l2, l = l1 ++ l2 ∧
      locate addr pre (l ++ zeros n) = .ok (l1.reverse ++ pre, l2 ++ zeros n) ∧
      (∀ e ∈ l1, e.m_addr ≤ addr) ∧ ∀ e ∈ l2.head?, addr < e.m_addr := by
  induction l generalizing pre with
  | nil => exact ⟨[], [], rfl, by simp [zeros, replicate_succ, locate, delim], by simp, by simp⟩
  | cons b l ih =>
    by_cases hb : b.m_addr ≤ addr
    · obtain ⟨l1, l2, rfl, h, h1, h2⟩ := ih (fun e he => hl e (mem_cons_of_mem _ he)) (b :: pre)
      refine ⟨b :: l1, l2, rfl, ?_, by simpa [hb] using h1, h2⟩
      rw [cons_append, locate, if_pos ⟨hb, hl b mem_cons_self⟩, h]
      simp
    · refine ⟨[], b :: l, rfl, ?_, by simp, by simpa using hb⟩
      rw [cons_append, locate, if_neg (by tauto)]
      rfl

theorem insertLoop_segs {l : List Mapent} (hl : ∀ e ∈ l, e.m_size ≠ 0) (addr size : ℤ) (n : ℕ) :
    insertLoop addr size (l ++ zeros n) = .ok (⟨size, addr⟩ :: l ++ replicate n delim, n) := by
  induction l generalizing addr size with
  | nil => simp [zeros, replicate_succ, insertLoop, delim]
  | cons b l ih =>
    rw [cons_append, insertLoop, if_neg (hl b mem_cons_self),
      ih fun e he => hl e (mem_cons_of_mem _ he)]
    rfl

theorem contains_segs (addr : ℤ) {l : List Mapent} (hl : ∀ e ∈ l, e.m_size ≠ 0) (n : ℕ)
    (pre : List Mapent) : ∃ l1 l2, l = l1 ++ l2 ∧
      contains addr pre (l ++ zeros n) = .ok (l1.reverse ++ pre, l2 ++ zeros n) ∧
      ∀ e ∈ l2.head?, e.m_addr ≤ addr ∧ addr < e.fin := by
  induction l generalizing pre with
  | nil => exact ⟨[], [], rfl, by simp [zeros, replicate_succ, contains, delim], by simp⟩
  | cons b l ih =>
    have hb := hl b mem_cons_self
    by_cases hc : b.m_addr ≤ addr ∧ addr < b.fin
    · refine ⟨[], b :: l, rfl, ?_, by simpa using hc⟩
      rw [cons_append, contains, if_pos (.inr hc)]
      rfl
    · obtain ⟨l1, l2, rfl, h, h2⟩ := ih (fun e he => hl e (mem_cons_of_mem _ he)) (b :: pre)
      refine ⟨b :: l1, l2, rfl, ?_, h2⟩
      rw [cons_append, contains, if_neg (by tauto), h]
      simp

theorem openGap_segs {l : List Mapent} (hl : ∀ e ∈ l, e.m_size ≠ 0) (n : ℕ) :
    openGap (l ++ zeros n) = .ok (if n = 0 then none else some (l ++ zeros (n - 1))) := by
  induction l with
  | nil => cases n <;> simp [zeros, replicate_succ, openGap, delim]
  | cons b l ih =>
    rw [cons_append, openGap, if_neg (hl b mem_cons_self),
      ih fun e he => hl e (mem_cons_of_mem _ he)]
    split_ifs <;> rfl

/-! ### Arithmetic on segments -/

theorem plus_eq {a b : ℤ} (hl : 0 ≤ a + b) (hu : a + b ≤ 2147483647) : plus a b = a + b :=
  wrap_int (by omega) hu

theorem minus_eq {a b : ℤ} (hl : 0 ≤ a - b) (hu : a - b ≤ 2147483647) : minus a b = a - b :=
  wrap_int (by omega) hu

theorem Mapent.Valid.fin_eq {e : Mapent} (h : e.Valid) : e.fin = e.m_addr + e.m_size :=
  plus_eq (by have := h.addr_pos; have := h.size_pos; omega) h.fits

/-! ### `rmalloc` -/

/-- What is left of the slots from `e` on after taking `size` units from its start. -/
def afterTake (e : Mapent) (size : ℤ) (l : List Mapent) : List Mapent :=
  if e.m_size = size then l else ⟨e.m_size - size, e.m_addr + size⟩ :: l

theorem take_segs (m : Map) {size : ℤ} (hsize : 0 < size) {e : Mapent} (he : e.Valid)
    (hle : size ≤ e.m_size) {l : List Mapent} (hl : ∀ e ∈ l, e.m_size ≠ 0) (n : ℕ)
    (pre : List Mapent) : ∃ k, n ≤ k ∧ (afterTake e size l).length + k = l.length + 1 + n ∧
      rmallocLoop.take m size pre e (l ++ zeros n) =
        .ok { map := { m with slots := pre.reverse ++ (afterTake e size l ++ zeros k) },
              ret := e.m_addr } := by
  have ha := he.addr_pos
  have hs := he.size_pos
  have hf := he.fits
  have hsub : minus e.m_size size = e.m_size - size := minus_eq (by omega) (by omega)
  have hadd : plus e.m_addr size = e.m_addr + size := plus_eq (by omega) (by omega)
  simp only [rmallocLoop.take, hsub, hadd]
  by_cases heq : e.m_size = size
  · refine ⟨n + 1, by omega, by simp [afterTake, heq]; omega, ?_⟩
    have := closeGap_segs hl ⟨e.m_size - size, e.m_addr + size⟩ n
    rw [cons_append] at this
    rw [if_pos (by omega), this, afterTake, if_pos heq]
    rfl
  · refine ⟨n, le_rfl, by simp [afterTake, heq], ?_⟩
    rw [if_neg (by omega), afterTake, if_neg heq, cons_append]

theorem rmallocLoop_segs (m : Map) {size : ℤ} (hsize : 0 < size) {l : List Mapent} (hl : Segs l)
    (n : ℕ) (pre : List Mapent) :
    rmallocLoop none m size pre (l ++ zeros n) = .ok { map := m } ∨
      ∃ l1 e l2 k, l = l1 ++ e :: l2 ∧ size ≤ e.m_size ∧
        (afterTake e size l2).length + k = l2.length + 1 + n ∧
        rmallocLoop none m size pre (l ++ zeros n) =
          .ok { map := { m with slots := pre.reverse ++ l1 ++ (afterTake e size l2 ++ zeros k) },
                ret := e.m_addr } := by
  induction l generalizing pre with
  | nil => exact .inl (by simp [zeros, replicate_succ, rmallocLoop, delim])
  | cons b l ih =>
    have hb := (segs_cons.1 hl).1
    have hl' := (segs_cons.1 hl).2.1
    rw [cons_append, rmallocLoop, if_neg hb.size_pos.ne']
    by_cases hle : size ≤ b.m_size
    · obtain ⟨k, -, hk, h⟩ := take_segs m hsize hb hle hl'.ne_zero n pre
      refine .inr ⟨[], b, l, k, rfl, hle, hk, ?_⟩
      rw [if_pos hle, append_nil]
      exact h
    · rw [if_neg hle]
      rcases ih hl' (b :: pre) with h | ⟨l1, e, l2, k, rfl, hle, hk, h⟩
      · exact .inl h
      · refine .inr ⟨b :: l1, e, l2, k, rfl, hle, hk, ?_⟩
        rw [h]
        simp

/-- Taking units from the start of a segment takes them out of the cover. -/
theorem afterTake_segs {l1 l2 : List Mapent} {e : Mapent} (hl : Segs (l1 ++ e :: l2)) {size : ℤ}
    (hsize : 0 < size) (hle : size ≤ e.m_size) :
    Segs (l1 ++ afterTake e size l2) ∧ cover Mapent.units (l1 ++ afterTake e size l2) =
      cover Mapent.units (l1 ++ e :: l2) \ Set.Ico e.m_addr (e.m_addr + size) := by
  simp only [segs_append, segs_cons, forall_mem_cons] at hl
  obtain ⟨h1, ⟨he, h2, he2⟩, h12⟩ := hl
  have ha := he.addr_pos
  have hf := he.fits
  have hlt : ∀ u ∈ cover Mapent.units l1, u < e.m_addr - 1 := fun u =>
    lt_of_mem_cover fun a ha => (h12 a ha).1
  have hgt : ∀ u ∈ cover Mapent.units l2, e.m_addr + e.m_size < u := fun u =>
    gt_of_mem_cover he2
  rw [afterTake]
  split_ifs with heq
  · refine ⟨segs_append.2 ⟨h1, h2, fun a ha => (h12 a ha).2⟩, ?_⟩
    ext u
    have := hlt u
    have := hgt u
    simp only [cover_append, cover_cons, Mapent.units, Set.mem_union, Set.mem_sdiff, Set.mem_Ico]
    grind
  · refine ⟨?_, ?_⟩
    · simp only [segs_append, segs_cons, forall_mem_cons]
      refine ⟨h1, ⟨⟨by simp; omega, by simp; omega, by simp; omega⟩, h2, fun b hb => ?_⟩,
        fun a ha => ⟨?_, (h12 a ha).2⟩⟩
      · have := he2 b hb
        simp; omega
      · have := (h12 a ha).1
        simp; omega
    · ext u
      have := hlt u
      have := hgt u
      simp only [cover_append, cover_cons, Mapent.units, Set.mem_union, Set.mem_sdiff, Set.mem_Ico]
      grind

/-- The slots of a well-formed map. -/
theorem Map.WellFormed.slots_eq {m : Map} (hm : m.WellFormed) : ∃ n, m.slots = m.segs ++ zeros n :=
  ⟨_, hm.delimited⟩

/-- What `rmalloc` and `rmget` do to a map: `size` free units from the value
    returned on are free no longer, or the map is left as it is and `0` returned. -/
structure Taken (m : Map) (size : ℤ) (r : Result) : Prop where
  wellFormed : r.map.WellFormed
  length : r.map.slots.length = m.slots.length
  name : r.map.m_name = m.m_name
  lost : r.lost = none
  free : r.ret = 0 ∧ r.map = m ∨ 0 < r.ret ∧ Set.Ico r.ret (r.ret + size) ⊆ m.free ∧
      r.map.free = m.free \ Set.Ico r.ret (r.ret + size)

theorem taken_none {m : Map} (hm : m.WellFormed) (size : ℤ) : Taken m size { map := m } :=
  ⟨hm, rfl, rfl, rfl, .inl ⟨rfl, rfl⟩⟩

/-- A result whose slots are segments covering the free units but the taken ones. -/
theorem taken_of_slots {m : Map} {l l' : List Mapent} {n k : ℕ} (hm : m.slots = l ++ zeros n)
    (hl : Segs l) (hl' : Segs l') (hlen : l'.length + k = l.length + n) {size a : ℤ} (ha : 0 < a)
    (hsub : Set.Ico a (a + size) ⊆ cover Mapent.units l)
    (hc : cover Mapent.units l' = cover Mapent.units l \ Set.Ico a (a + size)) :
    Taken m size { map := { m with slots := l' ++ zeros k }, ret := a } where
  wellFormed := (wellFormed_of_slots rfl hl').1
  length := by
    rw [hm]
    simp only [length_append, zeros, length_replicate]
    omega
  name := rfl
  lost := rfl
  free := .inr ⟨ha, by rwa [Map.WellFormed.free_eq hm hl],
    by rw [Map.WellFormed.free_eq rfl hl', Map.WellFormed.free_eq hm hl, hc]⟩

/-- `rmalloc` takes `size` free units and returns their base, or leaves the map as it is. -/
theorem rmalloc_spec {m : Map} (hm : m.WellFormed) {size : ℤ} (hsize : 0 < size) :
    ∃ r, rmalloc none m size = .ok r ∧ Taken m size r := by
  obtain ⟨n, hn⟩ := hm.slots_eq
  have hloop := rmallocLoop_segs m hsize hm.segs n []
  rw [← hn] at hloop
  rw [rmalloc, if_neg (by simpa using hsize)]
  rcases hloop with h | ⟨l1, e, l2, k, hl, hle, hk, h⟩
  · exact ⟨_, h, taken_none hm size⟩
  · obtain ⟨hs, hc⟩ := afterTake_segs (hl ▸ hm.segs) hsize hle
    have hmem : e ∈ m.segs := hl ▸ mem_append_right _ mem_cons_self
    have he := hm.segs.valid e hmem
    have htkn := @taken_of_slots _ _ _ _ k hn hm.segs hs (by rw [hl]; simp; omega)
      size _ he.addr_pos ((Set.Ico_subset_Ico_right (by omega)).trans (subset_cover (f := Mapent.units) hmem))
      (by rw [hc, hl])
    refine ⟨_, h, ?_⟩
    simpa using htkn

/-! ### `rmfree` -/

/-- What `rmfree` does to a map: the freed units join the free ones, except for
    the segment it reports lost, if any. -/
structure Freed (m : Map) (size addr : ℤ) (r : Result) : Prop where
  wellFormed : r.map.WellFormed
  length : r.map.slots.length = m.slots.length
  name : r.map.m_name = m.m_name
  free : r.lost = none ∧ r.map.free = m.free ∪ Set.Ico addr (addr + size) ∨
    ∃ e : Mapent, r.lost = some ⟨m.m_name, e.m_addr, e.m_addr + e.m_size⟩ ∧ e.Valid ∧
      e.units ⊆ m.free ∪ Set.Ico addr (addr + size) ∧
      r.map.free = (m.free ∪ Set.Ico addr (addr + size)) \ e.units

/-- A result whose slots are segments covering the free units and the freed ones. -/
theorem freed_of_slots {m : Map} {l l' : List Mapent} {n k : ℕ} (hm : m.slots = l ++ zeros n)
    (hl : Segs l) (hl' : Segs l') (hlen : l'.length + k = l.length + n) {size addr : ℤ}
    (hc : cover Mapent.units l' = cover Mapent.units l ∪ Set.Ico addr (addr + size)) :
    Freed m size addr { map := { m with slots := l' ++ zeros k } } where
  wellFormed := (wellFormed_of_slots rfl hl').1
  length := by
    rw [hm]
    simp only [length_append, zeros, length_replicate]
    omega
  name := rfl
  free := .inl ⟨rfl, by rw [Map.WellFormed.free_eq rfl hl', Map.WellFormed.free_eq hm hl, hc]⟩

/-- `discard` gives up the second to last of the segments. -/
theorem discard_segs (name : String) {l : List Mapent} (hl : Segs l) (hlen : 2 ≤ l.length) :
    ∃ l' e, discard name l = .ok (l' ++ zeros 0, ⟨name, e.m_addr, e.m_addr + e.m_size⟩) ∧
      Segs l' ∧ l'.length + 1 = l.length ∧ e ∈ l ∧
      cover Mapent.units l' = cover Mapent.units l \ e.units := by
  obtain ⟨b, a, xs, hrev⟩ : ∃ b a xs, l.reverse = b :: a :: xs := by
    match h : l.reverse with
    | [] => simp [reverse_eq_nil_iff.1 h] at hlen
    | [b] => rw [← length_reverse, h] at hlen; simp at hlen
    | b :: a :: xs => exact ⟨b, a, xs, rfl⟩
  have hl' : l = xs.reverse ++ [a, b] := by
    rw [← reverse_reverse l, hrev]; simp
  subst hl'
  have hsegs := hl
  simp only [segs_append, segs_cons, forall_mem_cons] at hl
  obtain ⟨-, ⟨ha, -, hab⟩, hx⟩ := hl
  refine ⟨xs.reverse ++ [b], a, ?_, hsegs.sublist ?_, by simp, by simp, ?_⟩
  · rw [discard, hrev]
    simp [zeros, delim, ha.fin_eq]
  · exact List.Sublist.append_left (sublist_cons_self a [b]) _
  · ext u
    have hlt : u ∈ cover Mapent.units xs.reverse → u < a.m_addr - 1 :=
      lt_of_mem_cover fun e he => (hx e he).1
    have hgt : u ∈ b.units → a.m_addr + a.m_size < u := fun hu =>
      (hab.1).trans_le hu.1
    simp only [cover_append, cover_cons, cover_nil, Set.mem_union, Set.mem_sdiff,
      Set.mem_empty_iff_false, or_false]
    have hu : u ∈ a.units ↔ a.m_addr ≤ u ∧ u < a.m_addr + a.m_size := Iff.rfl
    grind

section Free

variable {m : Map} {l1 l2 : List Mapent} {n : ℕ} {size addr : ℤ}

/-- Freeing units that do not abut on the left. -/
theorem rmfreeRight_spec (hm : m.slots = (l1 ++ l2) ++ zeros n) (hl : Segs (l1 ++ l2))
    (haddr : 0 < addr) (hsize : 0 < size) (hfit : addr + size ≤ 2147483647)
    (hlen : 2 ≤ m.slots.length) (hlt : ∀ a ∈ l1, a.m_addr + a.m_size < addr)
    (hle : ∀ b ∈ l2, addr + size ≤ b.m_addr) :
    ∃ r, rmfreeRight m size addr l1.reverse (l2 ++ zeros n) = .ok r ∧ Freed m size addr r := by
  have hend : plus addr size = addr + size := plus_eq (by omega) hfit
  by_cases habut : ∃ b l2', l2 = b :: l2' ∧ b.m_addr = addr + size
  · -- The piece on the right starts at the end of the freed units: it grows to the left.
    obtain ⟨b, l2, rfl, hb⟩ := habut
    obtain ⟨h1, h2, h12⟩ := segs_append.1 hl
    obtain ⟨hv, h2, hgt⟩ := segs_cons.1 h2
    have := hv.size_pos
    have := hv.fits
    have hplus : plus b.m_size size = b.m_size + size := plus_eq (by omega) (by omega)
    have hminus : minus b.m_addr size = addr := by rw [minus_eq] <;> omega
    have hsegs : Segs (l1 ++ ⟨b.m_size + size, addr⟩ :: l2) := by
      refine (hl.sublist (List.Sublist.append_left (sublist_cons_self b l2) _)).insert
        ⟨haddr, ?_, ?_⟩ hlt fun c hc => ?_
      · simp; omega
      · simp; omega
      · have := hgt c hc
        simp; omega
    refine ⟨_, ?_, freed_of_slots (k := n) hm hl hsegs (by simp) ?_⟩
    · rw [cons_append, rmfreeRight, hend, if_pos ⟨hb.le, hv.size_pos.ne'⟩, if_neg (by omega),
        hplus, hminus]
      simp
    · ext u
      simp only [cover_append, cover_cons, Mapent.units, Set.mem_union, Set.mem_Ico]
      grind
  · have hne : ∀ b ∈ l2, addr + size < b.m_addr := by
      cases l2 with
      | nil => simp
      | cons b l2 =>
        have hb : addr + size < b.m_addr := lt_of_le_of_ne (hle b mem_cons_self) fun h =>
          habut ⟨b, l2, rfl, h.symm⟩
        have h2 := segs_cons.1 (segs_append.1 hl).2.1
        have := h2.1.size_pos
        exact forall_mem_cons.2 ⟨hb, fun c hc => by have := h2.2.2 c hc; omega⟩
    have hsegs : Segs (l1 ++ ⟨size, addr⟩ :: l2) := hl.insert ⟨haddr, hsize, hfit⟩ hlt hne
    have hcover : cover Mapent.units (l1 ++ ⟨size, addr⟩ :: l2) =
        cover Mapent.units (l1 ++ l2) ∪ Set.Ico addr (addr + size) := by
      ext u
      simp only [cover_append, cover_cons, Mapent.units, Set.mem_union, Set.mem_Ico]
      tauto
    have hins := insertLoop_segs (segs_append.1 hl).2.1.ne_zero addr size n
    have hgo : rmfreeRight m size addr l1.reverse (l2 ++ zeros n) =
        newEntry m size addr l1.reverse (l2 ++ zeros n) := by
      cases l2 with
      | nil => simp [zeros, replicate_succ, rmfreeRight, delim]
      | cons b l2 =>
        have := hne b mem_cons_self
        rw [cons_append, rmfreeRight, hend, if_neg (by omega)]
    rw [hgo, newEntry, hins]
    cases n with
    | zero =>
      -- The delimiter has been overwritten and nothing is left for a new one.
      have hlen' : 2 ≤ (l1 ++ ⟨size, addr⟩ :: l2).length := by
        rw [hm] at hlen
        simpa [zeros] using hlen
      obtain ⟨l', e, hd, hs, hl', hmem, hc⟩ := discard_segs m.m_name hsegs hlen'
      refine ⟨{ map := { m with slots := l' ++ zeros 0 }, lost := some _ }, ?_,
        (wellFormed_of_slots rfl hs).1, ?_, rfl, .inr ⟨e, rfl, hsegs.valid e hmem, ?_, ?_⟩⟩
      · simp [bind, Except.bind, hd]
      · rw [hm]
        simp [zeros] at hl' ⊢
        omega
      · rw [Map.WellFormed.free_eq hm hl, ← hcover]
        exact subset_cover (f := Mapent.units) hmem
      · rw [Map.WellFormed.free_eq rfl hs, hc, hcover, Map.WellFormed.free_eq hm hl]
    | succ n =>
      refine ⟨_, ?_, freed_of_slots (k := n) hm hl hsegs (by simp; omega) hcover⟩
      simp [bind, Except.bind, zeros]

/-- Freeing units that abut on the left: the piece there grows, over the piece on
    the right too if the gap between them closes. -/
theorem rmfree_left {lb : Mapent} (hm : m.slots = (l1 ++ lb :: l2) ++ zeros n)
    (hl : Segs (l1 ++ lb :: l2)) (haddr : 0 < addr) (hsize : 0 < size)
    (hfit : addr + size ≤ 2147483647) (hlb : lb.m_addr + lb.m_size = addr)
    (hle : ∀ b ∈ l2, addr + size ≤ b.m_addr)
    (hloc : locate addr [] m.slots = .ok (lb :: l1.reverse, l2 ++ zeros n)) :
    ∃ r, rmfree m size addr = .ok r ∧ Freed m size addr r := by
  have hend : plus addr size = addr + size := plus_eq (by omega) hfit
  obtain ⟨h1, h2, h12⟩ := segs_append.1 hl
  obtain ⟨hv, h2, hgt⟩ := segs_cons.1 h2
  have := hv.addr_pos
  have := hv.size_pos
  have hgrow : plus lb.m_size size = lb.m_size + size := plus_eq (by omega) (by omega)
  have hfin : lb.fin = addr := hv.fin_eq.trans hlb
  have hlt : ∀ a ∈ l1, a.m_addr + a.m_size < lb.m_addr := fun a ha => h12 a ha lb mem_cons_self
  have hrs : Segs (l1 ++ l2) := hl.sublist (List.Sublist.append_left (sublist_cons_self lb l2) _)
  rw [rmfree, if_neg (by omega), hloc]
  simp only [bind, Except.bind]
  by_cases habut : ∃ b l2', l2 = b :: l2' ∧ b.m_addr = addr + size
  · obtain ⟨b, l2, rfl, hb⟩ := habut
    obtain ⟨hbv, h2, hbgt⟩ := segs_cons.1 h2
    have := hbv.size_pos
    have := hbv.fits
    have hboth : plus (lb.m_size + size) b.m_size = lb.m_size + size + b.m_size :=
      plus_eq (by omega) (by omega)
    have hsegs : Segs (l1 ++ ⟨lb.m_size + size + b.m_size, lb.m_addr⟩ :: l2) := by
      refine (hrs.sublist (List.Sublist.append_left (sublist_cons_self b l2) _)).insert
        ⟨hv.addr_pos, ?_, ?_⟩ hlt fun c hc => ?_
      · simp; omega
      · simp; omega
      · have := hbgt c hc
        simp; omega
    refine ⟨_, ?_, freed_of_slots (k := n + 1) hm hl hsegs (by simp; omega) ?_⟩
    · have := slide_segs h2.ne_zero hbv.size_pos.ne' n
      rw [cons_append] at this ⊢
      simp only
      rw [if_pos hfin.ge, if_neg (by omega), hgrow, hend, if_pos ⟨hbv.addr_pos.ne', hb.le⟩,
        if_neg (by omega), this, hboth]
      simp
    · ext u
      simp only [cover_append, cover_cons, Mapent.units, Set.mem_union, Set.mem_Ico]
      grind
  · have hne : ∀ b ∈ l2, addr + size < b.m_addr := fun b hb =>
      lt_of_le_of_ne (hle b hb) fun h => by
        -- A piece at the end of the freed units would be the first one.
        match l2, hb with
        | c :: l2, hb =>
          rcases mem_cons.1 hb with rfl | hb
          · exact habut ⟨b, l2, rfl, h.symm⟩
          · have hc := segs_cons.1 h2
            have := hc.2.2 b hb
            have := hc.1.size_pos
            have := hle c mem_cons_self
            omega
    have hsegs : Segs (l1 ++ ⟨lb.m_size + size, lb.m_addr⟩ :: l2) := by
      refine hrs.insert ⟨hv.addr_pos, ?_, ?_⟩ hlt fun c hc => ?_
      · simp; omega
      · simp; omega
      · have := hne c hc
        simp; omega
    refine ⟨_, ?_, freed_of_slots (k := n) hm hl hsegs (by simp) ?_⟩
    · match l2 with
      | [] =>
        simp [zeros, replicate_succ, hfin, hgrow, delim]
      | b :: l2 =>
        have := hne b mem_cons_self
        rw [cons_append]
        simp only
        rw [if_pos hfin.ge, if_neg (by omega), hend, if_neg (by omega), hgrow]
        simp
    · ext u
      simp only [cover_append, cover_cons, Mapent.units, Set.mem_union, Set.mem_Ico]
      grind

end Free

/-- `rmfree` returns units that were not free to the map. -/
theorem rmfree_spec {m : Map} (hm : m.WellFormed) {size addr : ℤ} (haddr : 0 < addr)
    (hsize : 0 < size) (hfit : addr + size ≤ 2147483647) (hlen : 2 ≤ m.slots.length)
    (hdisj : Disjoint (Set.Ico addr (addr + size)) m.free) :
    ∃ r, rmfree m size addr = .ok r ∧ Freed m size addr r := by
  obtain ⟨n, hn⟩ := hm.slots_eq
  obtain ⟨l1, l2, hl, hloc, h1, h2⟩ := locate_segs addr hm.segs.ne_zero n []
  rw [← hn, append_nil] at hloc
  have hs := hl ▸ hm.segs
  have hn' := hl ▸ hn
  have hfree : ∀ e ∈ l1 ++ l2, ∀ u, addr ≤ u → u < addr + size → ¬(e.m_addr ≤ u ∧ u < e.m_addr + e.m_size) :=
    fun e he u hu hu' hue => Set.disjoint_left.1 hdisj ⟨hu, hu'⟩
      (subset_cover (f := Mapent.units) (hl ▸ he) hue)
  -- The segments found before `addr` end by then, and those after it start after the freed units.
  have hbef : ∀ a ∈ l1, a.m_addr + a.m_size ≤ addr := fun a ha => by
    have := hfree a (mem_append_left _ ha) addr le_rfl (by omega)
    have := h1 a ha
    omega
  have haft : ∀ b ∈ l2, addr + size ≤ b.m_addr := by
    match l2 with
    | [] => simp
    | b :: l2 =>
      have hb := hfree b (mem_append_right _ mem_cons_self) b.m_addr
      have hadd := h2 b rfl
      have hv := segs_cons.1 (segs_append.1 hs).2.1
      have := hv.1.size_pos
      exact forall_mem_cons.2 ⟨by omega, fun c hc => by have := hv.2.2 c hc; omega⟩
  rcases eq_nil_or_concat l1 with rfl | ⟨l1, lb, rfl⟩
  · have hrgt := rmfreeRight_spec hn' hs haddr hsize hfit hlen (by simp) haft
    rw [rmfree, if_neg (by omega), hloc]
    exact hrgt
  · have hs' : Segs (l1 ++ lb :: l2) := by simpa using hs
    have hlb := hbef lb (by simp)
    have hv := (segs_cons.1 (segs_append.1 hs').2.1).1
    have := hv.size_pos
    rcases hlb.eq_or_lt with hlb | hlb
    · exact rmfree_left (by simpa using hn') hs' haddr hsize hfit hlb haft (by simpa using hloc)
    · have hlt : ∀ a ∈ l1 ++ [lb], a.m_addr + a.m_size < addr := by
        intro a ha
        rcases mem_append.1 ha with ha | ha
        · have := (segs_append.1 hs').2.2 a ha lb mem_cons_self
          omega
        · rw [mem_singleton.1 ha]
          exact hlb
      have hrgt := rmfreeRight_spec hn' hs haddr hsize hfit hlen (by simpa using hlt) haft
      rw [rmfree, if_neg (by omega), hloc]
      simp only [concat_eq_append, reverse_append, reverse_cons, reverse_nil,
        nil_append, singleton_append, bind, Except.bind] at hrgt ⊢
      match l2 with
      | [] =>
        simp only [nil_append, zeros, replicate_succ] at hrgt ⊢
        rwa [if_neg (by rw [hv.fin_eq]; omega)]
      | b :: l2 =>
        simp only [cons_append] at hrgt ⊢
        rwa [if_neg (by rw [hv.fin_eq]; omega)]

/-! ### `rmget` -/

/-- Taking units from the middle or the end of a segment. -/
theorem split_segs {l1 l2 : List Mapent} {e : Mapent} (hl : Segs (l1 ++ e :: l2)) {size addr : ℤ}
    (hsize : 0 < size) (hlt : e.m_addr < addr) (hle : addr + size ≤ e.m_addr + e.m_size) :
    let rest := if addr + size = e.m_addr + e.m_size then l2 else
      ⟨e.m_addr + e.m_size - (addr + size), addr + size⟩ :: l2
    Segs (l1 ++ ⟨addr - e.m_addr, e.m_addr⟩ :: rest) ∧
      cover Mapent.units (l1 ++ ⟨addr - e.m_addr, e.m_addr⟩ :: rest) =
        cover Mapent.units (l1 ++ e :: l2) \ Set.Ico addr (addr + size) := by
  have hrs := hl.sublist (List.Sublist.append_left (sublist_cons_self e l2) _)
  simp only [segs_append, segs_cons, forall_mem_cons] at hl
  obtain ⟨-, ⟨he, h2, he2⟩, h12⟩ := hl
  have ha := he.addr_pos
  have hf := he.fits
  have hblw : ∀ u ∈ cover Mapent.units l1, u < e.m_addr - 1 := fun u =>
    lt_of_mem_cover fun a ha => (h12 a ha).1
  have habove : ∀ u ∈ cover Mapent.units l2, e.m_addr + e.m_size < u := fun u =>
    gt_of_mem_cover he2
  have hleft : Mapent.Valid ⟨addr - e.m_addr, e.m_addr⟩ := ⟨ha, by simp; omega, by simp; omega⟩
  intro rest
  simp only [rest]
  split_ifs with heq
  · refine ⟨hrs.insert hleft (fun a ha => (h12 a ha).1) fun b hb => ?_, ?_⟩
    · have := he2 b hb
      simp; omega
    · ext u
      have := hblw u
      have := habove u
      simp only [cover_append, cover_cons, Mapent.units, Set.mem_union, Set.mem_sdiff, Set.mem_Ico]
      grind
  · have hrgt : Mapent.Valid ⟨e.m_addr + e.m_size - (addr + size), addr + size⟩ :=
      ⟨by simp; omega, by simp; omega, by simp; omega⟩
    have hsegs := hrs.insert hrgt (fun a ha => by have := (h12 a ha).1; simp; omega) fun b hb => by
      have := he2 b hb
      simp; omega
    refine ⟨hsegs.insert hleft (fun a ha => (h12 a ha).1) ?_, ?_⟩
    · refine forall_mem_cons.2 ⟨by simp; omega, fun b hb => ?_⟩
      have := he2 b hb
      simp; omega
    · ext u
      have := hblw u
      have := habove u
      simp only [cover_append, cover_cons, Mapent.units, Set.mem_union, Set.mem_sdiff, Set.mem_Ico]
      grind

/-- `rmget` takes the units at `addr` out of the free ones and returns `addr`, or
    leaves the map as it is and returns `0`. -/
theorem rmget_spec {m : Map} (hm : m.WellFormed) {size addr : ℤ} (hsize : 0 < size)
    (hfit : addr ∈ m.free → addr + size ≤ 2147483647) :
    ∃ r, rmget none m size addr = .ok r ∧ Taken m size r ∧ (r.ret = 0 ∨ r.ret = addr) := by
  obtain ⟨n, hn⟩ := hm.slots_eq
  obtain ⟨l1, l2, hl, hloc, h2⟩ := contains_segs addr hm.segs.ne_zero n []
  rw [← hn, append_nil] at hloc
  have hnone : ∃ r, (.ok { map := m } : Except Trap Result) = .ok r ∧ Taken m size r ∧
      (r.ret = 0 ∨ r.ret = addr) := ⟨_, rfl, taken_none hm size, .inl rfl⟩
  rw [rmget, if_neg (by omega), hloc]
  simp only [Option.isSome_none, Bool.false_eq_true, if_false, bind, Except.bind]
  match l2 with
  | [] =>
    simp only [nil_append, zeros, replicate_succ]
    rwa [if_pos (show delim.m_size = 0 from rfl)]
  | e :: l2 =>
    have hs := hl ▸ hm.segs
    obtain ⟨he, h2', hgt⟩ := segs_cons.1 (segs_append.1 hs).2.1
    have hv := he.fin_eq
    have := he.addr_pos
    have := he.size_pos
    have := he.fits
    obtain ⟨hle, hin⟩ := h2 e rfl
    rw [hv] at hin
    have hmem : e ∈ m.segs := hl ▸ mem_append_right _ mem_cons_self
    have hfit := hfit (subset_cover (f := Mapent.units) hmem ⟨hle, hin⟩)
    have hend : plus addr size = addr + size := plus_eq (by omega) hfit
    simp only [cons_append, hend, hv]
    rw [if_neg he.size_pos.ne']
    by_cases hbig : e.m_addr + e.m_size < addr + size
    · rwa [if_pos hbig]
    rw [if_neg hbig]
    have hsub : Set.Ico addr (addr + size) ⊆ cover Mapent.units m.segs :=
      (Set.Ico_subset_Ico hle (by omega)).trans (subset_cover (f := Mapent.units) hmem)
    by_cases haddr : e.m_addr = addr
    · -- From the start of the segment, as `rmalloc` does.
      subst haddr
      have hminus : minus e.m_size size = e.m_size - size := minus_eq (by omega) (by omega)
      obtain ⟨hsegs, hc⟩ := afterTake_segs hs hsize (by omega)
      rw [afterTake] at hsegs hc
      rw [if_pos rfl]
      by_cases heq : e.m_size = size
      · rw [if_pos heq] at hsegs hc
        have hslide := slide_segs h2'.ne_zero he.size_pos.ne' n
        rw [cons_append] at hslide
        rw [if_pos (by omega), hslide]
        refine ⟨_, rfl, ?_, .inr rfl⟩
        simpa using taken_of_slots (k := n + 1) hn hm.segs hsegs (by rw [hl]; simp; omega)
          he.addr_pos hsub (by rw [hc, hl])
      · rw [if_neg heq] at hsegs hc
        rw [if_neg (by omega), hminus, hend]
        refine ⟨_, rfl, ?_, .inr rfl⟩
        simpa using taken_of_slots (k := n) hn hm.segs hsegs (by rw [hl]; simp)
          he.addr_pos hsub (by rw [hc, hl])
    · obtain ⟨hsegs, hc⟩ := split_segs hs hsize (lt_of_le_of_ne hle haddr) (not_lt.1 hbig)
      have hleft : minus addr e.m_addr = addr - e.m_addr := minus_eq (by omega) (by omega)
      have hrgt : minus (e.m_addr + e.m_size) (addr + size) = e.m_addr + e.m_size - (addr + size) :=
        minus_eq (by omega) (by omega)
      rw [if_neg haddr]
      by_cases heq : e.m_addr + e.m_size = addr + size
      · rw [if_pos heq.symm] at hsegs hc
        have hminus : minus e.m_size size = addr - e.m_addr := by rw [minus_eq] <;> omega
        rw [if_pos heq, hminus]
        refine ⟨_, rfl, ?_, .inr rfl⟩
        simpa using taken_of_slots (k := n) hn hm.segs hsegs (by rw [hl]; simp) (by omega) hsub
          (by rw [hc, hl])
      · rw [if_neg (Ne.symm heq)] at hsegs hc
        rw [if_neg heq, openGap_segs h2'.ne_zero n]
        match n with
        | 0 => simpa using hnone
        | n + 1 =>
          simp only [Nat.add_eq_zero_iff, one_ne_zero, and_false, if_false, hleft, hrgt]
          refine ⟨_, rfl, ?_, .inr rfl⟩
          simpa using taken_of_slots (k := n) hn hm.segs hsegs (by rw [hl]; simp; omega) (by omega)
            hsub (by rw [hc, hl])

end Uwisc.Rmap
