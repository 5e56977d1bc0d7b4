import Mathlib.Order.Interval.Set.Disjoint
import Uwisc.Lib.System
import Uwisc.Sys.Kmem

/-!
# Blocks that need to be freed

`kmem_free_intr` and `check_need_to_free` of `sys/sys/heap_kmem.c`. A block that is freed at interrupt level
is put on a list whose links are in the blocks themselves, or in a table if it is too short for a link,
until `kmem_alloc` passes it to `kmem_free`. The level at which a call is made is an argument, and the
level that it leaves is a result.

Interrupts come between the passes of `check_need_to_free`, and the rest of the kernel writes where
nothing is pending (`system`). In every run each pass frees bytes that are pending, links are read in such
alone, and when a pass finds nothing no byte is; but a call with a block off a word boundary that is long
enough for a link leaves the level at that of `splimp` (`defer_sound`).
-/

namespace Uwisc.Kmem.Defer

open Function Lib

def NEED_TO_FREE_SIZE : ℕ := 10

/-- `sizeof (struct need_to_free)`. -/
def linkSize : ℕ := 8

/-- The level of `splimp`. -/
def IPLIMP : ℕ := 0x16

/-- `struct need_to_free`. -/
structure NeedToFree where
  addr : ℕ
  nbytes : ℕ
  deriving DecidableEq

/-- What `kmem_info` has of it, and the words of memory by their addresses. -/
structure Info where
  need_to_free_list : NeedToFree
  need_to_free : ℕ → NeedToFree
  mem : ℕ → ℕ

/-- `*(struct need_to_free *) a`. -/
def load (mem : ℕ → ℕ) (a : ℕ) : NeedToFree := ⟨mem a, mem (a + 4)⟩

def store (mem : ℕ → ℕ) (a : ℕ) (ntf : NeedToFree) : ℕ → ℕ :=
  update (update mem a ntf.addr) (a + 4) ntf.nbytes

/-- The block is put in the table, if there is room. -/
def Info.putTable (k : Info) (ptr nbytes : ℕ) : Option Info :=
  ((List.range NEED_TO_FREE_SIZE).find? fun i => (k.need_to_free i).addr = 0).map fun i =>
    { k with need_to_free := update k.need_to_free i ⟨ptr, nbytes⟩ }

/-- The block is put on the list. -/
def Info.putList (k : Info) (ptr nbytes : ℕ) : Info :=
  { k with mem := store k.mem ptr k.need_to_free_list, need_to_free_list := ⟨ptr, nbytes⟩ }

theorem alignmore_bounds (ptr : ℕ) : 0 < alignmore ptr ∧ alignmore ptr ≤ 4 := by
  rw [alignmore, align]
  omega

/-- `kmem_free_intr`, from the level `ipl`: what it leaves, and the level; `none` is its panic. -/
def kmemFreeIntr (k : Info) (ipl ptr nbytes : ℕ) : Option (Info × ℕ) :=
  if linkSize ≤ nbytes then
    if ptr % align ≠ 0 then
      -- the calls are made from splimp, and there is no splx after them
      match kmemFreeIntr k IPLIMP ptr (alignmore ptr) with
      | none => none
      | some (k, ipl) => kmemFreeIntr k ipl (ptr + alignmore ptr) (nbytes - alignmore ptr)
    else some (k.putList ptr nbytes, ipl)
  else (k.putTable ptr nbytes).map fun k => (k, ipl)
termination_by nbytes
decreasing_by
  all_goals
    have := alignmore_bounds ptr
    simp only [linkSize] at *
    omega

/-- A pass of `check_need_to_free`, from `again` on: the block that is passed to `kmem_free`, the link that
    is read before, what is left, and the level. -/
structure Pass where
  freed : Option NeedToFree
  read : Option ℕ
  info : Info
  ipl : ℕ

def again (k : Info) (ipl : ℕ) : Pass :=
  let ntf := k.need_to_free_list
  if ntf.addr ≠ 0 then ⟨some ntf, some ntf.addr, { k with need_to_free_list := load k.mem ntf.addr }, ipl⟩
  else
    match (List.range NEED_TO_FREE_SIZE).find? fun i => (k.need_to_free i).addr ≠ 0 with
    | some i =>
      ⟨some (k.need_to_free i), none,
        { k with need_to_free := update k.need_to_free i { k.need_to_free i with addr := 0 } }, ipl⟩
    | none => ⟨none, none, k, ipl⟩

/-! ### Runs -/

/-- What is done: a call from an interrupt, a pass, or a word stored somewhere in memory. -/
inductive Call
  | kmemFreeIntr (ipl ptr nbytes : ℕ)
  | again (ipl : ℕ)
  | write (a v : ℕ)

/-- The allocator, and the bytes that were passed to `kmem_free_intr` and not yet to `kmem_free`. -/
structure State where
  info : Info
  pending : Set ℕ

def NeedToFree.bytes (r : NeedToFree) : Set ℕ := Set.Ico r.addr (r.addr + r.nbytes)

/-- No byte is freed twice, the table does not fill, and other words are stored where nothing is pending. -/
def Allowed (s : State) : Call → Prop
  | .kmemFreeIntr ipl ptr nbytes => 0 < ptr ∧ Disjoint (Set.Ico ptr (ptr + nbytes)) s.pending ∧
      kmemFreeIntr s.info ipl ptr nbytes ≠ none
  | .again _ => True
  | .write a _ => Disjoint (Set.Ico a (a + 4)) s.pending ∧ a % align = 0

/-- What a call does. -/
inductive Step (s : State) : Call → State → Prop
  | kmemFreeIntr {ipl ipl' ptr nbytes : ℕ} {k : Info} : kmemFreeIntr s.info ipl ptr nbytes = some (k, ipl') →
      Step s (.kmemFreeIntr ipl ptr nbytes) ⟨k, s.pending ∪ Set.Ico ptr (ptr + nbytes)⟩
  | again {ipl : ℕ} : Step s (.again ipl)
      ⟨(again s.info ipl).info, s.pending \ ((again s.info ipl).freed.elim ∅ NeedToFree.bytes)⟩
  | write {a v : ℕ} : Step s (.write a v) ⟨{ s.info with mem := update s.info.mem a v }, s.pending⟩

/-- `kmem_init` leaves the list and the table empty. -/
def system : System State Call where
  init := {s | s.info.need_to_free_list.addr = 0 ∧ (∀ i, (s.info.need_to_free i).addr = 0) ∧ s.pending = ∅}
  step s c s' := Allowed s c ∧ Step s c s'

/-- Passes that nothing comes between end. -/
inductive Drains (ipl : ℕ) : Info → Prop
  | done {k : Info} : (again k ipl).freed = none → Drains ipl k
  | pass {k : Info} : Drains ipl (again k ipl).info → Drains ipl k

/-- A call is as it should be: it restores the level, and a pass frees bytes that are pending, reads a link
    in such, and finds nothing only if none is; and passes end. -/
def Sound (s : State) : Call → Prop
  | .kmemFreeIntr ipl ptr nbytes => ∀ q, kmemFreeIntr s.info ipl ptr nbytes = some q → q.2 = ipl
  | .again ipl => (again s.info ipl).ipl = ipl ∧
      (∀ a, (again s.info ipl).read = some a → Set.Ico a (a + linkSize) ⊆ s.pending) ∧
      (∀ r, (again s.info ipl).freed = some r → r.bytes ⊆ s.pending) ∧
      ((again s.info ipl).freed = none → s.pending = ∅) ∧ Drains ipl s.info
  | .write .. => True

/-- The block is not cut at a word boundary, or the level is that of `splimp` anyway. -/
def Restores : Call → Prop
  | .kmemFreeIntr ipl ptr nbytes => ptr % align = 0 ∨ nbytes < linkSize ∨ ipl = IPLIMP
  | _ => True

/-! ### The list and the table -/

/-- The blocks of the list that begins with `ntf`. -/
def Linked (mem : ℕ → ℕ) : NeedToFree → List NeedToFree → Prop
  | ntf, [] => ntf.addr = 0
  | ntf, r :: l => ntf = r ∧ r.addr ≠ 0 ∧ r.addr % align = 0 ∧ linkSize ≤ r.nbytes ∧ Linked mem (load mem r.addr) l

/-- The blocks of the list and of the table are pending, each of them once. -/
structure Queued (k : Info) (l : List NeedToFree) (pending : Set ℕ) : Prop where
  linked : Linked k.mem k.need_to_free_list l
  apart : l.Pairwise fun a b => Disjoint a.bytes b.bytes
  table : ∀ i < NEED_TO_FREE_SIZE, ∀ j < NEED_TO_FREE_SIZE, i ≠ j → (k.need_to_free i).addr ≠ 0 →
    (k.need_to_free j).addr ≠ 0 → Disjoint (k.need_to_free i).bytes (k.need_to_free j).bytes
  cross : ∀ r ∈ l, ∀ i < NEED_TO_FREE_SIZE, (k.need_to_free i).addr ≠ 0 → Disjoint r.bytes (k.need_to_free i).bytes
  pending : ∀ u, u ∈ pending ↔ (∃ r ∈ l, u ∈ r.bytes) ∨
    ∃ i < NEED_TO_FREE_SIZE, (k.need_to_free i).addr ≠ 0 ∧ u ∈ (k.need_to_free i).bytes

variable {k k' : Info} {l : List NeedToFree} {pending : Set ℕ} {ptr nbytes ipl : ℕ}

variable {mem : ℕ → ℕ} {ntf : NeedToFree} {ipl' : ℕ}

/-- The list is the same if its links are. -/
theorem Linked.congr {mem' : ℕ → ℕ} (h : Linked mem ntf l)
    (hsame : ∀ r ∈ l, ∀ u, u % align = 0 → r.addr ≤ u → u < r.addr + linkSize → mem' u = mem u) :
    Linked mem' ntf l := by
  induction l generalizing ntf with
  | nil => exact h
  | cons r l ih =>
    obtain ⟨rfl, hne, halign, hlen, hrs⟩ := h
    obtain ⟨hr, hl⟩ := List.forall_mem_cons.1 hsame
    have hload : load mem' ntf.addr = load mem ntf.addr := by
      rw [align] at halign hr
      rw [linkSize] at hr
      rw [load, load, hr _ halign le_rfl (by omega), hr _ (by omega) (by omega) (by omega)]
    exact ⟨rfl, hne, halign, hlen, by rw [hload]; exact ih hrs hl⟩

theorem Linked.link_le (h : Linked mem ntf l) : ∀ r ∈ l, linkSize ≤ r.nbytes := by
  induction l generalizing ntf with
  | nil => exact fun r hr => absurd hr List.not_mem_nil
  | cons r l ih => exact List.forall_mem_cons.2 ⟨h.2.2.2.1, ih h.2.2.2.2⟩

/-- What is written where no byte is pending is not in a link. -/
theorem Queued.mem_congr (h : Queued k l pending)
    (hsame : ∀ u ∈ pending, u % align = 0 → mem u = k.mem u) : Queued { k with mem := mem } l pending := by
  refine { h with linked := h.linked.congr fun r hr u halign hlo hhi => hsame u ?_ halign }
  have hlen := h.linked.link_le r hr
  exact (h.pending u).2 (.inl ⟨r, hr, hlo, by omega⟩)

/-- A block that is put on the list. -/
theorem Queued.putList (h : Queued k l pending) (hpos : 0 < ptr) (halign : ptr % align = 0)
    (hlen : linkSize ≤ nbytes) (hd : Disjoint (Set.Ico ptr (ptr + nbytes)) pending) :
    Queued (k.putList ptr nbytes) (⟨ptr, nbytes⟩ :: l) (pending ∪ Set.Ico ptr (ptr + nbytes)) := by
  have hsub {u : ℕ} (hlo : ptr ≤ u) (hhi : u < ptr + linkSize) : u ∉ pending := fun hu =>
    Set.disjoint_left.1 hd ⟨hlo, by omega⟩ hu
  have hload : load (store k.mem ptr k.need_to_free_list) ptr = k.need_to_free_list := by
    rw [load, store, update_self, update_of_ne (by omega), update_self]
  have hold : Queued { k with mem := store k.mem ptr k.need_to_free_list } l pending := by
    refine h.mem_congr fun u hu _ => ?_
    rw [store, update_of_ne, update_of_ne]
    · rintro rfl
      exact hsub le_rfl (by rw [linkSize]; omega) hu
    · rintro rfl
      exact hsub (by omega) (by rw [linkSize]; omega) hu
  have hblk (r : NeedToFree) (hr : r.bytes ⊆ pending) : Disjoint (NeedToFree.bytes ⟨ptr, nbytes⟩) r.bytes :=
    hd.mono_right hr
  refine ⟨⟨rfl, hpos.ne', halign, hlen, ?_⟩, List.pairwise_cons.2 ⟨fun r hr => hblk r fun u hu => ?_, h.apart⟩,
    h.table, List.forall_mem_cons.2 ⟨fun i hi hne => hblk _ fun u hu => ?_, h.cross⟩, fun u => ?_⟩
  · rw [Info.putList, hload]
    exact hold.linked
  · exact (h.pending u).2 (.inl ⟨r, hr, hu⟩)
  · exact (h.pending u).2 (.inr ⟨i, hi, hne, hu⟩)
  · rw [Set.mem_union, h.pending u, List.exists_mem_cons_iff]
    exact or_right_comm.trans (or_congr_left or_comm)

/-- A block that is put in the table. -/
theorem Queued.putTable (h : Queued k l pending) (hpos : 0 < ptr) (hput : k.putTable ptr nbytes = some k')
    (hd : Disjoint (Set.Ico ptr (ptr + nbytes)) pending) :
    Queued k' l (pending ∪ Set.Ico ptr (ptr + nbytes)) := by
  obtain ⟨i, hfind, rfl⟩ := Option.map_eq_some_iff.1 hput
  have hi : i < NEED_TO_FREE_SIZE := List.mem_range.1 (List.mem_of_find?_eq_some hfind)
  have hfree : (k.need_to_free i).addr = 0 := by simpa using List.find?_some hfind
  have hblk (r : NeedToFree) (hr : r.bytes ⊆ pending) : Disjoint (NeedToFree.bytes ⟨ptr, nbytes⟩) r.bytes :=
    hd.mono_right hr
  have hslot (j : ℕ) (hj : j < NEED_TO_FREE_SIZE) (hne : (k.need_to_free j).addr ≠ 0) :
      (k.need_to_free j).bytes ⊆ pending := fun u hu => (h.pending u).2 (.inr ⟨j, hj, hne, hu⟩)
  -- the slot is i, which gets the block, or as it was
  have hcas (j : ℕ) : j = i ∧ update k.need_to_free i ⟨ptr, nbytes⟩ j = ⟨ptr, nbytes⟩ ∨
      j ≠ i ∧ update k.need_to_free i ⟨ptr, nbytes⟩ j = k.need_to_free j := by
    rcases eq_or_ne j i with rfl | hj
    · exact .inl ⟨rfl, update_self ..⟩
    · exact .inr ⟨hj, update_of_ne hj ..⟩
  refine ⟨h.linked, h.apart, fun a ha b hb hab hane hbne => ?_, fun r hr j hj hne => ?_, fun u => ?_⟩
  · rcases hcas a with ⟨rfl, hA⟩ | ⟨-, hA⟩ <;> rcases hcas b with ⟨rfl, hB⟩ | ⟨-, hB⟩ <;>
      simp only [hA, hB] at hane hbne ⊢
    · exact absurd rfl hab
    · exact hblk _ (hslot b hb hbne)
    · exact (hblk _ (hslot a ha hane)).symm
    · exact h.table a ha b hb hab hane hbne
  · rcases hcas j with ⟨rfl, hJ⟩ | ⟨-, hJ⟩ <;> simp only [hJ] at hne ⊢
    · exact (hblk r fun u hu => (h.pending u).2 (.inl ⟨r, hr, hu⟩)).symm
    · exact h.cross r hr j hj hne
  · have hnew : u ∈ Set.Ico ptr (ptr + nbytes) ↔ u ∈ NeedToFree.bytes ⟨ptr, nbytes⟩ := Iff.rfl
    rw [Set.mem_union, h.pending u, or_assoc, hnew]
    refine or_congr_right ⟨?_, ?_⟩
    · rintro (⟨j, hj, hne, hu⟩ | hu)
      · rcases hcas j with ⟨rfl, -⟩ | ⟨-, hJ⟩
        · exact absurd hfree hne
        · exact ⟨j, hj, by simpa only [hJ] using hne, by simpa only [hJ] using hu⟩
      · exact ⟨i, hi, by simpa only [update_self] using hpos.ne', by simpa only [update_self] using hu⟩
    · rintro ⟨j, hj, hne, hu⟩
      rcases hcas j with ⟨rfl, hJ⟩ | ⟨-, hJ⟩ <;> simp only [hJ] at hne hu
      · exact .inr hu
      · exact .inl ⟨j, hj, hne, hu⟩

/-- The first block of the list is taken away. -/
theorem Queued.tail {r : NeedToFree} (h : Queued k (r :: l) pending) :
    Queued { k with need_to_free_list := load k.mem r.addr } l (pending \ r.bytes) := by
  obtain ⟨hr, hl⟩ := List.pairwise_cons.1 h.apart
  obtain ⟨hrt, hlt⟩ := List.forall_mem_cons.1 h.cross
  refine ⟨h.linked.2.2.2.2, hl, h.table, hlt, fun u => ?_⟩
  rw [Set.mem_sdiff, h.pending u, List.exists_mem_cons_iff, or_assoc]
  constructor
  · rintro ⟨hu | hu, hnot⟩
    · exact absurd hu hnot
    · exact hu
  · refine fun hu => ⟨.inr hu, fun hmem => ?_⟩
    rcases hu with ⟨b, hb, hu⟩ | ⟨i, hi, hne, hu⟩
    · exact Set.disjoint_left.1 (hr b hb) hmem hu
    · exact Set.disjoint_left.1 (hrt i hi hne) hmem hu

/-- A slot of the table is made free. -/
theorem Queued.clear {i : ℕ} {table : ℕ → NeedToFree} (h : Queued k l pending) (hi : i < NEED_TO_FREE_SIZE)
    (hne : (k.need_to_free i).addr ≠ 0) (hfree : (table i).addr = 0)
    (hsame : ∀ j ≠ i, table j = k.need_to_free j) :
    Queued { k with need_to_free := table } l (pending \ (k.need_to_free i).bytes) := by
  have hoth {j : ℕ} (hj : (table j).addr ≠ 0) : j ≠ i := by
    rintro rfl
    exact hj hfree
  refine ⟨h.linked, h.apart, fun a ha b hb hab hane hbne => ?_, fun r hr j hj hjne => ?_, fun u => ?_⟩
  · simp only [hsame a (hoth hane), hsame b (hoth hbne)] at hane hbne ⊢
    exact h.table a ha b hb hab hane hbne
  · simp only [hsame j (hoth hjne)] at hjne ⊢
    exact h.cross r hr j hj hjne
  · rw [Set.mem_sdiff, h.pending u]
    constructor
    · rintro ⟨hu | ⟨j, hj, hjne, hu⟩, hnot⟩
      · exact .inl hu
      · have hji : j ≠ i := by
          rintro rfl
          exact hnot hu
        exact .inr ⟨j, hj, by simpa only [hsame j hji] using hjne, by simpa only [hsame j hji] using hu⟩
    · rintro (⟨r, hr, hu⟩ | ⟨j, hj, hjne, hu⟩)
      · exact ⟨.inl ⟨r, hr, hu⟩, Set.disjoint_left.1 (h.cross r hr i hi hne) hu⟩
      · have hji := hoth hjne
        simp only [hsame j hji] at hjne hu
        exact ⟨.inr ⟨j, hj, hjne, hu⟩, Set.disjoint_left.1 (h.table j hj i hi hji hjne hne) hu⟩

/-! ### Calls -/

/-- A block that is not cut is put on the list or in the table, and the level is restored. -/
theorem kmemFreeIntr_whole (h : Queued k l pending) (hpos : 0 < ptr)
    (hcut : linkSize ≤ nbytes → ptr % align = 0) (hd : Disjoint (Set.Ico ptr (ptr + nbytes)) pending)
    (hfree : kmemFreeIntr k ipl ptr nbytes = some (k', ipl')) :
    (∃ l', Queued k' l' (pending ∪ Set.Ico ptr (ptr + nbytes))) ∧ ipl' = ipl := by
  rw [kmemFreeIntr] at hfree
  split at hfree
  case isTrue hlen =>
    rw [if_neg (not_not.2 (hcut hlen))] at hfree
    cases hfree
    exact ⟨⟨_, h.putList hpos (hcut hlen) hlen hd⟩, rfl⟩
  case isFalse =>
    obtain ⟨k1, hput, heq⟩ := Option.map_eq_some_iff.1 hfree
    cases heq
    exact ⟨⟨l, h.putTable hpos hput hd⟩, rfl⟩

/-- What is handed over is pending, and the level is left at that of `splimp` if the block is cut. -/
theorem kmemFreeIntr_spec (h : Queued k l pending) (hpos : 0 < ptr)
    (hd : Disjoint (Set.Ico ptr (ptr + nbytes)) pending)
    (hfree : kmemFreeIntr k ipl ptr nbytes = some (k', ipl')) :
    (∃ l', Queued k' l' (pending ∪ Set.Ico ptr (ptr + nbytes))) ∧
      ipl' = if linkSize ≤ nbytes ∧ ptr % align ≠ 0 then IPLIMP else ipl := by
  by_cases hcut : linkSize ≤ nbytes ∧ ptr % align ≠ 0
  · rw [if_pos hcut]
    rw [kmemFreeIntr, if_pos hcut.1, if_pos hcut.2] at hfree
    obtain ⟨hmore, hmore'⟩ := alignmore_bounds ptr
    have hlen := hcut.1
    have hrs : (ptr + alignmore ptr) % align = 0 := by
      rw [alignmore, align]
      omega
    rw [linkSize] at hlen
    have hspl : Set.Ico ptr (ptr + nbytes) = Set.Ico ptr (ptr + alignmore ptr) ∪
        Set.Ico (ptr + alignmore ptr) (ptr + alignmore ptr + (nbytes - alignmore ptr)) := by
      rw [Set.Ico_union_Ico_eq_Ico (by omega) (by omega)]
      congr 1
      omega
    rw [hspl, Set.disjoint_union_left] at hd
    cases hhead : kmemFreeIntr k IPLIMP ptr (alignmore ptr) with
    | none => simp only [hhead, reduceCtorEq] at hfree
    | some q =>
      obtain ⟨k1, ipl1⟩ := q
      simp only [hhead] at hfree
      -- the bytes before the boundary are too few for a link
      have hsht (hle : linkSize ≤ alignmore ptr) : ptr % align = 0 := by
        rw [linkSize] at hle
        omega
      obtain ⟨⟨l1, h1⟩, rfl⟩ := kmemFreeIntr_whole h hpos hsht hd.1 hhead
      have hd1 := Set.disjoint_union_right.2 ⟨hd.2, (Set.Ico_disjoint_Ico_same (a := ptr)).symm⟩
      obtain ⟨⟨l2, h2⟩, rfl⟩ := kmemFreeIntr_whole h1 (by omega) (fun _ => hrs) hd1 hfree
      rw [hspl, ← Set.union_assoc]
      exact ⟨⟨l2, h2⟩, rfl⟩
  · rw [if_neg hcut]
    exact kmemFreeIntr_whole h hpos (fun hle => not_not.1 fun hne => hcut ⟨hle, hne⟩) hd hfree

theorem again_ipl : (again k ipl).ipl = ipl := by
  rw [again]
  split
  · rfl
  · split <;> rfl

/-- A pass takes away a block that is pending, with a link that is in the block, or there is none. -/
theorem again_spec (h : Queued k l pending) (ipl : ℕ) :
    (∃ r l', (again k ipl).freed = some r ∧ r.bytes ⊆ pending ∧
      (∀ a, (again k ipl).read = some a → Set.Ico a (a + linkSize) ⊆ r.bytes) ∧
      Queued (again k ipl).info l' (pending \ r.bytes)) ∨
    ((again k ipl).freed = none ∧ (again k ipl).read = none ∧ (again k ipl).info = k ∧ pending = ∅) := by
  cases l with
  | cons r l =>
    obtain ⟨heq, hne, -, hlen, -⟩ := h.linked
    have hpass : again k ipl = ⟨some r, some r.addr, { k with need_to_free_list := load k.mem r.addr }, ipl⟩ := by
      rw [again, heq]
      exact if_pos hne
    rw [hpass]
    refine .inl ⟨r, l, rfl, fun u hu => (h.pending u).2 (.inl ⟨r, List.mem_cons_self, hu⟩), ?_, h.tail⟩
    rintro _ ⟨⟩
    exact Set.Ico_subset_Ico_right (by omega)
  | nil =>
    have h0 : k.need_to_free_list.addr = 0 := h.linked
    rw [again, if_neg (not_not.2 h0)]
    cases hfind : (List.range NEED_TO_FREE_SIZE).find? fun i => (k.need_to_free i).addr ≠ 0 with
    | some i =>
      have hi : i < NEED_TO_FREE_SIZE := List.mem_range.1 (List.mem_of_find?_eq_some hfind)
      have hne : (k.need_to_free i).addr ≠ 0 := by simpa using List.find?_some hfind
      exact .inl ⟨_, [], rfl, fun u hu => (h.pending u).2 (.inr ⟨i, hi, hne, hu⟩), nofun,
        h.clear hi hne (by rw [update_self]) fun j hj => update_of_ne hj ..⟩
    | none =>
      refine .inr ⟨rfl, rfl, rfl, Set.eq_empty_of_forall_notMem fun u hu => ?_⟩
      rcases (h.pending u).1 hu with ⟨r, hr, -⟩ | ⟨i, hi, hne, -⟩
      · exact absurd hr List.not_mem_nil
      · exact absurd (decide_eq_true hne) (List.find?_eq_none.1 hfind i (List.mem_range.2 hi))

/-- The table is emptied from its first slot on. -/
theorem drains_table {n : ℕ} (hlist : k.need_to_free_list.addr = 0)
    (hfst : ∀ j < NEED_TO_FREE_SIZE - n, (k.need_to_free j).addr = 0) : Drains ipl k := by
  induction n generalizing k with
  | zero =>
    refine .done ?_
    have hfind : ((List.range NEED_TO_FREE_SIZE).find? fun i => (k.need_to_free i).addr ≠ 0) = none :=
      List.find?_eq_none.2 fun i hi => by simp [hfst i (List.mem_range.1 hi)]
    rw [again, if_neg (not_not.2 hlist), hfind]
  | succ n ih =>
    cases hfind : (List.range NEED_TO_FREE_SIZE).find? fun i => (k.need_to_free i).addr ≠ 0 with
    | none =>
      refine .done ?_
      rw [again, if_neg (not_not.2 hlist), hfind]
    | some i =>
      refine .pass ?_
      obtain ⟨hne, -, hbef⟩ := List.find?_range_eq_some.1 hfind
      rw [again, if_neg (not_not.2 hlist), hfind]
      refine ih hlist fun j hj => ?_
      -- the slots before i are free, and i is not one of those known to be so
      have hi : NEED_TO_FREE_SIZE - (n + 1) ≤ i := not_lt.1 fun hlt => by simp [hfst i hlt] at hne
      rcases lt_trichotomy j i with hlt | rfl | hgt
      · simpa [update_of_ne hlt.ne] using hbef j hlt
      · simp only [update_self]
      · omega

/-- The list is emptied first. -/
theorem Queued.drains (h : Queued k l pending) : Drains ipl k := by
  induction l generalizing k pending with
  | nil => exact drains_table (n := NEED_TO_FREE_SIZE) h.linked fun j hj => absurd hj (by simp)
  | cons r l ih =>
    obtain ⟨heq, hne, -⟩ := h.linked
    have hpass : (again k ipl).info = { k with need_to_free_list := load k.mem r.addr } := by
      rw [again, heq]
      exact congrArg Pass.info (if_pos hne)
    refine .pass ?_
    rw [hpass]
    exact ih h.tail

/-! ### Every run -/

/-- What is pending is on the list and in the table, in every state of a run. -/
theorem Reachable.queued {s : State} (hs : system.Reachable s) : ∃ l, Queued s.info l s.pending := by
  induction hs with
  | init hinit =>
    obtain ⟨hlist, htable, hpen⟩ := hinit
    refine ⟨[], hlist, .nil, fun i _ _ _ _ hne => absurd (htable i) hne,
      fun r hr => absurd hr List.not_mem_nil, fun u => ?_⟩
    rw [hpen]
    refine iff_of_false (Set.notMem_empty u) ?_
    rintro (⟨r, hr, -⟩ | ⟨i, -, hne, -⟩)
    · exact absurd hr List.not_mem_nil
    · exact hne (htable i)
  | step _ hstep ih =>
    obtain ⟨l, h⟩ := ih
    obtain ⟨hc, hstep⟩ := hstep
    cases hstep with
    | kmemFreeIntr hfree => exact (kmemFreeIntr_spec h hc.1 hc.2.1 hfree).1
    | again =>
      rename_i ipl
      rcases again_spec h ipl with ⟨r, l', hfrd, -, -, h'⟩ | ⟨hfrd, -, hinfo, -⟩
      · exact ⟨l', by rw [hfrd]; exact h'⟩
      · refine ⟨l, ?_⟩
        rw [hfrd, hinfo]
        exact (Set.sdiff_empty (s := _)).symm ▸ h
    | write =>
      refine ⟨l, h.mem_congr fun u hu halign => update_of_ne ?_ ..⟩
      rintro rfl
      exact Set.disjoint_left.1 hc.1 ⟨le_rfl, by omega⟩ hu

/-- In every run, each call is as it should be if and only if it is not given a block that is cut. -/
theorem defer_sound {s : State} {c : Call} (hs : system.Reachable s) (hc : Allowed s c) :
    Sound s c ↔ Restores c := by
  obtain ⟨l, h⟩ := Reachable.queued hs
  cases c with
  | kmemFreeIntr ipl ptr nbytes =>
    obtain ⟨hpos, hd, hroom⟩ := hc
    obtain ⟨⟨k', ipl'⟩, hfree⟩ := Option.ne_none_iff_exists'.1 hroom
    have hipl := (kmemFreeIntr_spec h hpos hd hfree).2
    rw [Sound, Restores, hfree]
    constructor
    · intro hsnd
      have heq := hsnd _ rfl
      by_contra hcut
      obtain ⟨halign, hlen, hne⟩ := not_or.1 hcut |>.imp_right not_or.1
      rw [if_pos ⟨not_lt.1 hlen, halign⟩] at hipl
      exact hne (heq.symm.trans hipl)
    · rintro hrs _ ⟨⟩
      rw [hipl]
      split
      case isTrue hcut =>
        rcases hrs with halign | hlen | himp
        · exact absurd halign hcut.2
        · exact absurd hlen (not_lt.2 hcut.1)
        · exact himp.symm
      case isFalse => rfl
  | again ipl =>
    refine iff_of_true ⟨again_ipl, ?_⟩ trivial
    rcases again_spec h ipl with ⟨r, l', hfrd, hsub, hread, -⟩ | ⟨hfrd, hread, -, hemp⟩
    · refine ⟨fun a ha => (hread a ha).trans hsub, fun r' hr' => ?_, fun hnone => ?_, h.drains⟩
      · cases hfrd.symm.trans hr'
        exact hsub
      · exact nomatch hfrd.symm.trans hnone
    · exact ⟨fun a ha => (nomatch hread.symm.trans ha), fun r hr => (nomatch hfrd.symm.trans hr), fun _ => hemp,
        h.drains⟩
  | write a v => exact iff_of_true trivial trivial

/-- `kmem_info` after `kmem_init`. -/
def kmemInit : State := ⟨⟨⟨0, 0⟩, fun _ => ⟨0, 0⟩, fun _ => 0⟩, ∅⟩

theorem kmemInit_reachable : system.Reachable kmemInit := .init ⟨rfl, fun _ => rfl, rfl⟩

/-- A block of 100 bytes on a word boundary. -/
theorem defer_sound_aligned :
    Sound kmemInit (.kmemFreeIntr 0 1024 100) ↔ Restores (.kmemFreeIntr 0 1024 100) := by
  refine defer_sound kmemInit_reachable ⟨Nat.succ_pos _, Set.disjoint_empty _, ?_⟩
  rw [kmemFreeIntr]
  simp [align, linkSize]

/-- One that begins a byte later leaves the level at that of `splimp`. -/
theorem defer_cut : system.Reachable kmemInit ∧ Allowed kmemInit (.kmemFreeIntr 0 1025 100) ∧
    ¬ Sound kmemInit (.kmemFreeIntr 0 1025 100) := by
  have hlvl : (kmemFreeIntr kmemInit.info 0 1025 100).map Prod.snd = some IPLIMP := by
    rw [kmemFreeIntr]
    simp [kmemFreeIntr, Info.putTable, kmemInit, alignmore, align, linkSize, List.range_succ, NEED_TO_FREE_SIZE]
  obtain ⟨q, hq, hipl⟩ := Option.map_eq_some_iff.1 hlvl
  refine ⟨kmemInit_reachable, ⟨Nat.succ_pos _, Set.disjoint_empty _, fun h => nomatch hq.symm.trans h⟩, fun hsnd => ?_⟩
  exact absurd ((hsnd q hq).symm.trans hipl) (by decide)

end Uwisc.Kmem.Defer
