import Mathlib.Data.List.Nodup
import Mathlib.Tactic.Ring
import Uwisc.Libc.Malloc

/-!
# How the memory is divided

The memory that `sbrk` returned is divided into blocks, each of a class; a block is on the list of its
class, or live, or neither (`Divided`). What a function does to the blocks:

* `Divided.write`: what is written into the live blocks does not matter;
* `Divided.take`, `Divided.free`: a block becomes live, and is no longer;
* `Divided.grow`, `Divided.morecore`: there is more memory, and more blocks.
-/

namespace Uwisc.Malloc

open Function Lib List

/-- The size of a block of a class, with its header. -/
def extent (i : ℕ) : ℕ := if 2 ^ (i + 3) < getpagesize then 2 ^ (i + 3) else 2 ^ (i + 3) + getpagesize

/-- The bytes of a block of a class. -/
def capacity (i : ℕ) : ℕ := extent i - OVERHEAD

/-- The memory from `start` on, up to the break, is divided into blocks: `cls` are their classes by
    address, `fl` the free ones and `live` the ones that are in use, by the address of their bytes,
    with the number of bytes asked for. -/
structure Divided (s : State) (start : ℕ) (cls : ℕ → Option ℕ) (fl : ℕ → List ℕ)
    (live : List (ℕ × ℕ)) : Prop where
  brk : s.curbrk ≤ 2 ^ 31
  zero : ∀ x, s.curbrk ≤ x → s.mem x = 0
  inside : ∀ a i, cls a = some i → start ≤ a ∧ a + extent i ≤ s.curbrk ∧ i < 29
  pos : ∀ a i, cls a = some i → a ≠ 0
  /-- No blocks overlap. -/
  apart : ∀ a b i j, cls a = some i → cls b = some j → a ≠ b → a + extent i ≤ b ∨ b + extent j ≤ a
  /-- The lists are those of the variables of the allocator. -/
  linked : ∀ i, Linked s.mem (s.nextf i) (fl i)
  /-- A block on a list is of its class, and free. -/
  free : ∀ i, ∀ a ∈ fl i, cls a = some i ∧ ∀ nbytes, (a + OVERHEAD, nbytes) ∉ live
  nodup : ∀ i, (fl i).Nodup
  /-- A live block has the bytes that were asked for, and its header says of which class it is. -/
  used : ∀ b ∈ live, ∃ a i, b.1 = a + OVERHEAD ∧ cls a = some i ∧ b.2 ≤ capacity i ∧
    s.mem a = MAGIC ∧ s.mem (a + 1) = UInt8.ofNat i
  distinct : (live.map Prod.fst).Nodup

variable {s : State} {start a b i n nbytes bucket : ℕ} {cls : ℕ → Option ℕ} {fl : ℕ → List ℕ}
  {live : List (ℕ × ℕ)} {m : Mem}

theorem le_extent (i : ℕ) : 8 ≤ extent i := by
  have hpow : 2 ^ 3 ≤ 2 ^ (i + 3) := Nat.pow_le_pow_right (by decide) (by omega)
  rw [extent]
  split_ifs <;> omega

theorem capacity_add (i : ℕ) : capacity i + OVERHEAD = extent i := by
  have := le_extent i
  rw [capacity, OVERHEAD]
  omega

theorem add_overhead_ne (a : ℕ) : a + OVERHEAD ≠ 0 := by
  rw [OVERHEAD]
  omega

section

variable (h : Divided s start cls fl live)

include h

/-- The headers of different blocks do not overlap. -/
theorem Divided.headers {j : ℕ} (ha : cls a = some i)
    (hb : cls b = some j) (hne : a ≠ b) : a + 4 ≤ b ∨ b + 4 ≤ a := by
  have hap := h.apart a b i j ha hb hne
  have hi := le_extent i
  have hj := le_extent j
  omega

/-- A live block, by its bytes. -/
theorem Divided.of_live (hlive : (a + OVERHEAD, nbytes) ∈ live) :
    ∃ i, cls a = some i ∧ nbytes ≤ capacity i ∧ s.mem a = MAGIC ∧ (s.mem (a + 1)).toNat = i := by
  obtain ⟨a', i, ha, hcls, hn, hmag, hidx⟩ := h.used _ hlive
  obtain rfl : a = a' := Nat.add_right_cancel ha
  refine ⟨i, hcls, hn, hmag, ?_⟩
  have hlt := (h.inside a i hcls).2.2
  rw [hidx, UInt8.toNat_ofNat', Nat.mod_eq_of_lt (by omega)]

/-- What is not in a header may be written. -/
theorem Divided.write (hzero : ∀ x, s.curbrk ≤ x → m x = 0)
    (hsame : ∀ a i, cls a = some i → SameOn s.mem m a (a + 4)) :
    Divided { s with mem := m } start cls fl live := by
  refine { h with zero := hzero, linked := fun i => ?_, used := fun b hb => ?_ }
  · exact (h.linked i).congr fun a ha => hsame a i (h.free i a ha).1
  · obtain ⟨a, i, ha, hcls, hn, hmag, hidx⟩ := h.used b hb
    have hsame := hsame a i hcls
    refine ⟨a, i, ha, hcls, hn, ?_, ?_⟩
    · exact (hsame a le_rfl (by omega)).trans hmag
    · exact (hsame (a + 1) (by omega) (by omega)).trans hidx

theorem Divided.nextf_mem (hi : s.nextf i ≠ 0) :
    ∃ l, fl i = s.nextf i :: l ∧ Linked s.mem (load 4 s.mem (s.nextf i)) l :=
  (h.linked i).cons hi

theorem Divided.nextf_lt (i : ℕ) : s.nextf i < 2 ^ 32 := by
  by_cases hi : s.nextf i = 0
  · omega
  · obtain ⟨l, hl, -⟩ := h.nextf_mem hi
    have hmem : s.nextf i ∈ fl i := by
      rw [hl]
      exact mem_cons_self
    have hins := h.inside _ i (h.free i _ hmem).1
    have hbrk := h.brk
    omega

/-! ### A block becomes live -/

theorem Divided.take (hne : s.nextf bucket ≠ 0)
    (hn : nbytes ≤ capacity bucket) : ∃ l, Divided (s.take bucket) start cls (update fl bucket l)
        ((s.nextf bucket + OVERHEAD, nbytes) :: live) := by
  obtain ⟨l, hl, hlin⟩ := h.nextf_mem hne
  have hmem : s.nextf bucket ∈ fl bucket := by
    rw [hl]
    exact mem_cons_self
  obtain ⟨hcls, hfree⟩ := h.free bucket _ hmem
  have hnd := h.nodup bucket
  rw [hl, nodup_cons] at hnd
  generalize hop : s.nextf bucket = op at *
  have hins := h.inside op bucket hcls
  have hext := le_extent bucket
  -- only the header of the block is written
  have hsame : ∀ a ≠ op, ∀ i, cls a = some i → SameOn s.mem (s.take bucket).mem a (a + 4) := by
    intro a hne i ha x hx hx'
    have hhea := h.headers ha hcls hne
    rw [State.take, hop]
    dsimp only
    rw [update_of_ne (by omega), update_of_ne (by omega)]
  have hlist : ∀ i a, a ∈ update fl bucket l i → a ∈ fl i ∧ a ≠ op := by
    intro i a ha
    by_cases hi : i = bucket
    · subst hi
      rw [update_self] at ha
      rw [hl]
      exact ⟨mem_cons_of_mem _ ha, fun heq => hnd.1 (heq ▸ ha)⟩
    · rw [update_of_ne hi] at ha
      refine ⟨ha, ?_⟩
      rintro rfl
      exact hi (Option.some.inj ((h.free i a ha).1.symm.trans hcls))
  refine ⟨l, ⟨h.brk, fun x hx => ?_, h.inside, h.pos, h.apart, fun i => ?_, fun i a ha => ?_, fun i => ?_,
    fun b hb => ?_, ?_⟩⟩
  · rw [State.take, hop]
    dsimp only
    change s.curbrk ≤ x at hx
    rw [update_of_ne (by omega), update_of_ne (by omega)]
    exact h.zero x hx
  · have hlinks : Linked s.mem ((s.take bucket).nextf i) (update fl bucket l i) := by
      rw [State.take, hop]
      dsimp only
      by_cases hi : i = bucket
      · subst hi
        rwa [update_self, update_self]
      · rw [update_of_ne hi, update_of_ne hi]
        exact h.linked i
    exact hlinks.congr fun a ha => hsame a (hlist i a ha).2 i (h.free i a (hlist i a ha).1).1
  · obtain ⟨hmem, hne⟩ := hlist i a ha
    obtain ⟨hclsa, hnot⟩ := h.free i a hmem
    refine ⟨hclsa, fun nb hin => ?_⟩
    rcases mem_cons.1 hin with heq | hin
    · exact hne (Nat.add_right_cancel (Prod.mk.inj heq).1)
    · exact hnot nb hin
  · by_cases hi : i = bucket
    · subst hi
      rw [update_self]
      exact hnd.2
    · rw [update_of_ne hi]
      exact h.nodup i
  · rcases mem_cons.1 hb with rfl | hlive
    · refine ⟨op, bucket, rfl, hcls, hn, ?_, ?_⟩
      · rw [State.take, hop]
        dsimp only
        rw [update_of_ne (by omega), update_self]
      · rw [State.take, hop]
        exact update_self _ _ _
    · obtain ⟨a, i, ha, hclsa, hnb, hmag, hidx⟩ := h.used b hlive
      have hne : a ≠ op := by
        rintro rfl
        refine hfree b.2 ?_
        rw [← ha]
        exact hlive
      have hsame := hsame a hne i hclsa
      refine ⟨a, i, ha, hclsa, hnb, ?_, ?_⟩
      · exact (hsame a le_rfl (by omega)).trans hmag
      · exact (hsame (a + 1) (by omega) (by omega)).trans hidx
  · rw [map_cons, nodup_cons]
    refine ⟨fun hmem => ?_, h.distinct⟩
    obtain ⟨⟨c, nb⟩, hb, rfl⟩ := mem_map.1 hmem
    exact hfree nb hb

end

/-! ### A block is no longer live -/

/-- The live blocks but for one. -/
def without (live : List (ℕ × ℕ)) (cp : ℕ) : List (ℕ × ℕ) := live.filter fun b => b.1 ≠ cp

theorem mem_without {cp : ℕ} {b : ℕ × ℕ} : b ∈ without live cp ↔ b ∈ live ∧ b.1 ≠ cp := by
  simp [without]

theorem Divided.free_eq (h : Divided s start cls fl live) (hlive : (a + OVERHEAD, nbytes) ∈ live) :
    ∃ i, cls a = some i ∧ nbytes ≤ capacity i ∧ s.free (a + OVERHEAD) =
      { s with mem := storeNum 4 s.mem a (s.nextf i), nextf := update s.nextf i a } := by
  obtain ⟨i, hcls, hn, hmag, hidx⟩ := h.of_live hlive
  refine ⟨i, hcls, hn, ?_⟩
  rw [State.free, if_neg (add_overhead_ne a), Nat.add_sub_cancel]
  simp only [hmag, ne_eq, not_true_eq_false, if_false, hidx]

theorem Divided.release (h : Divided s start cls fl live) (hlive : (a + OVERHEAD, nbytes) ∈ live)
    (hcls : cls a = some i) :
    Divided { s with mem := storeNum 4 s.mem a (s.nextf i), nextf := update s.nextf i a }
      start cls (update fl i (a :: fl i)) (without live (a + OVERHEAD)) := by
  have hins := h.inside a i hcls
  have hext := le_extent i
  have hsame : ∀ b ≠ a, ∀ j, cls b = some j →
      SameOn s.mem (storeNum 4 s.mem a (s.nextf i)) b (b + 4) := by
    intro b hne j hb
    have hhea := h.headers hb hcls hne
    exact sameOn_storeNum (by omega)
  have hnot : ∀ j, a ∉ fl j := fun j hmem => (h.free j a hmem).2 nbytes hlive
  refine ⟨h.brk, fun x hx => ?_, h.inside, h.pos, h.apart, fun j => ?_, fun j b hb => ?_, fun j => ?_,
    fun b hb => ?_, ?_⟩
  · have hsame : SameOn s.mem (storeNum 4 s.mem a (s.nextf i)) x (x + 1) := by
      change s.curbrk ≤ x at hx
      exact sameOn_storeNum (by omega)
    exact (hsame x le_rfl (by omega)).trans (h.zero x hx)
  · dsimp only
    by_cases hj : j = i
    · subst hj
      rw [update_self, update_self]
      refine (h.linked j).push (h.pos a j hcls) (h.nextf_lt j) fun b hb => ?_
      exact h.headers (h.free j b hb).1 hcls fun heq => hnot j (heq ▸ hb)
    · rw [update_of_ne hj, update_of_ne hj]
      refine (h.linked j).congr fun b hb => ?_
      exact hsame b (fun heq => hnot j (heq ▸ hb)) j (h.free j b hb).1
  · have hb : b = a ∧ j = i ∨ b ∈ fl j := by
      by_cases hj : j = i
      · subst hj
        rw [update_self] at hb
        exact (mem_cons.1 hb).imp (fun heq => ⟨heq, rfl⟩) id
      · rw [update_of_ne hj] at hb
        exact .inr hb
    rcases hb with ⟨rfl, rfl⟩ | hb
    · exact ⟨hcls, fun nb hin => (mem_without.1 hin).2 rfl⟩
    · obtain ⟨hclsb, hnot⟩ := h.free j b hb
      exact ⟨hclsb, fun nb hin => hnot nb (mem_without.1 hin).1⟩
  · by_cases hj : j = i
    · subst hj
      rw [update_self]
      exact nodup_cons.2 ⟨hnot j, h.nodup j⟩
    · rw [update_of_ne hj]
      exact h.nodup j
  · obtain ⟨hb, hne⟩ := mem_without.1 hb
    obtain ⟨c, j, hc, hclsc, hnb, hmag, hidx⟩ := h.used b hb
    have hne : c ≠ a := by
      rintro rfl
      exact hne hc
    have hsame := hsame c hne j hclsc
    refine ⟨c, j, hc, hclsc, hnb, ?_, ?_⟩
    · exact (hsame c le_rfl (by omega)).trans hmag
    · exact (hsame (c + 1) (by omega) (by omega)).trans hidx
  · exact (filter_sublist.map Prod.fst).nodup h.distinct

/-- A live block that is asked for with another size. -/
theorem Divided.resize (h : Divided s start cls fl live) (hlive : (a + OVERHEAD, nbytes) ∈ live)
    (hcls : cls a = some i) (hn : n ≤ capacity i) :
    Divided s start cls fl ((a + OVERHEAD, n) :: without live (a + OVERHEAD)) := by
  obtain ⟨j, hj, -, hmag, hidx⟩ := h.of_live hlive
  obtain rfl : i = j := Option.some.inj (hcls.symm.trans hj)
  refine { h with free := fun j b hb => ?_, used := fun b hb => ?_, distinct := ?_ }
  · obtain ⟨hclsb, hnot⟩ := h.free j b hb
    refine ⟨hclsb, fun nb hin => ?_⟩
    rcases mem_cons.1 hin with heq | hin
    · refine hnot nbytes ?_
      rw [(Prod.mk.inj heq).1]
      exact hlive
    · exact hnot nb (mem_without.1 hin).1
  · rcases mem_cons.1 hb with rfl | hb
    · refine ⟨a, i, rfl, hcls, hn, hmag, ?_⟩
      rw [← hidx, UInt8.ofNat_toNat]
    · exact h.used b (mem_without.1 hb).1
  · rw [map_cons, nodup_cons]
    refine ⟨fun hmem => ?_, (filter_sublist.map Prod.fst).nodup h.distinct⟩
    obtain ⟨b, hb, heq⟩ := mem_map.1 hmem
    exact (mem_without.1 hb).2 heq

/-! ### More memory -/

/-- The blocks that `carve` makes. -/
def blocks (sz : ℕ) : ℕ → ℕ → List ℕ
  | 0, op => [op]
  | k + 1, op => op :: blocks sz k (op + sz)

variable {sz k op : ℕ}

theorem mem_blocks {x : ℕ} : x ∈ blocks sz k op ↔ ∃ j ≤ k, x = op + j * sz := by
  induction k generalizing op with
  | zero => simp [blocks]
  | succ k ih =>
    rw [blocks, mem_cons, ih]
    constructor
    · rintro (rfl | ⟨j, hj, rfl⟩)
      · exact ⟨0, by omega, by simp⟩
      · exact ⟨j + 1, by omega, by ring⟩
    · rintro ⟨j, hj, rfl⟩
      cases j with
      | zero => exact .inl (by simp)
      | succ j => exact .inr ⟨j, by omega, by ring⟩

theorem nodup_blocks (hsz : 0 < sz) (k op : ℕ) : (blocks sz k op).Nodup := by
  induction k generalizing op with
  | zero => exact nodup_singleton op
  | succ k ih =>
    refine nodup_cons.2 ⟨fun hmem => ?_, ih _⟩
    obtain ⟨j, -, heq⟩ := mem_blocks.1 hmem
    omega

/-- The blocks are linked, the last one by the zeros that the memory has. -/
theorem carve_spec (hsz : 4 ≤ sz) (k : ℕ) {m : Mem}
    (hzero : ∀ x, op ≤ x → m x = 0) (hlt : op + k * sz < 2 ^ 32) :
    (op ≠ 0 → Linked (State.carve sz k m op) op (blocks sz k op)) ∧
      (∀ x < op, State.carve sz k m op x = m x) ∧
        ∀ x, op + k * sz ≤ x → State.carve sz k m op x = 0 := by
  induction k generalizing m op with
  | zero =>
    refine ⟨fun hop => ⟨rfl, hop, ?_⟩, fun _ _ => rfl, fun x hx => hzero x (by omega)⟩
    have hload : load 4 m op = load 4 (fun _ => 0) op :=
      SameOn.load_eq (b := op + 4) (fun x hx _ => (hzero x hx).symm ▸ rfl) le_rfl le_rfl
    exact hload.trans (by simp [load, bytes, decode])
  | succ k ih =>
    have hnx : ∀ x, op + sz ≤ x → storeNum 4 m op (op + sz) x = 0 := by
      intro x hx
      have hsame : SameOn m (storeNum 4 m op (op + sz)) (op + sz) (x + 1) := sameOn_storeNum (by omega)
      exact (hsame x hx (by omega)).trans (hzero x (by omega))
    have hmul : (k + 1) * sz = sz + k * sz := by ring
    obtain ⟨hlin, hblw, habove⟩ := ih hnx (by omega)
    rw [State.carve, blocks]
    refine ⟨fun hop => ⟨rfl, hop, ?_⟩, fun x hx => ?_, fun x hx => habove x (by omega)⟩
    · have hsame : SameOn (storeNum 4 m op (op + sz))
          (State.carve sz k (storeNum 4 m op (op + sz)) (op + sz)) op (op + 4) :=
        fun x _ hx => hblw x (by omega)
      rw [hsame.load_eq le_rfl le_rfl, load_storeNum (by omega)]
      exact hlin (by omega)
    · have hsame : SameOn m (storeNum 4 m op (op + sz)) 0 op := sameOn_storeNum (by omega)
      exact (hblw x (by omega)).trans (hsame x (Nat.zero_le _) hx)

/-- The variables that do not matter change, and there may be more memory. -/
theorem Divided.congr {s' : State} (h : Divided s start cls fl live) (hmem : s'.mem = s.mem)
    (hnextf : s'.nextf = s.nextf) (hle : s.curbrk ≤ s'.curbrk) (hbrk : s'.curbrk ≤ 2 ^ 31) :
    Divided s' start cls fl live := by
  refine ⟨hbrk, fun x hx => ?_, fun a i ha => ?_, h.pos, h.apart, fun i => ?_, h.free, h.nodup,
    fun b hb => ?_, h.distinct⟩
  · rw [hmem]
    exact h.zero x (hle.trans hx)
  · obtain ⟨hst, hend, hi⟩ := h.inside a i ha
    exact ⟨hst, hend.trans hle, hi⟩
  · rw [hmem, hnextf]
    exact h.linked i
  · rw [hmem]
    exact h.used b hb

/-- The classes, when there are new blocks. -/
def carved (cls : ℕ → Option ℕ) (l : List ℕ) (bucket : ℕ) : ℕ → Option ℕ :=
  fun a => if a ∈ l then some bucket else cls a

/-- The memory from the break on becomes blocks. -/
theorem Divided.carve (h : Divided s start cls fl live) (hst : start ≤ s.curbrk)
    (hop : s.curbrk ≠ 0) (hnull : s.nextf bucket = 0) (hbuc : bucket < 29) (hsz : 4 ≤ sz)
    (hk : extent bucket = sz ∨ k = 0) (hbrk : s.curbrk + (k * sz + extent bucket) ≤ 2 ^ 31) :
    Divided
      { s with
        nextf := update s.nextf bucket s.curbrk
        mem := State.carve sz k s.mem s.curbrk
        curbrk := s.curbrk + (k * sz + extent bucket) } start
      (carved cls (blocks sz k s.curbrk) bucket)
      (update fl bucket (blocks sz k s.curbrk)) live := by
  have hext := le_extent bucket
  obtain ⟨hlin, hblw, habove⟩ := carve_spec hsz k h.zero (by omega)
  have hlin := hlin hop
  generalize hop' : s.curbrk = op at *
  have hold : ∀ a i, cls a = some i → a ∉ blocks sz k op := by
    intro a i ha hmem
    obtain ⟨j, -, rfl⟩ := mem_blocks.1 hmem
    have hins := h.inside _ i ha
    have := le_extent i
    omega
  have hcar : ∀ a i, carved cls (blocks sz k op) bucket a = some i →
      (∃ j ≤ k, a = op + j * sz ∧ i = bucket) ∨ cls a = some i := by
    intro a i ha
    rw [carved] at ha
    split_ifs at ha with hmem
    · obtain ⟨j, hj, rfl⟩ := mem_blocks.1 hmem
      exact .inl ⟨j, hj, rfl, (Option.some.inj ha).symm⟩
    · exact .inr ha
  have hkeep : ∀ a i, cls a = some i → carved cls (blocks sz k op) bucket a = some i := by
    intro a i ha
    rw [carved, if_neg (hold a i ha), ha]
  have hfit : ∀ j ≤ k, j * sz + extent bucket ≤ k * sz + extent bucket := fun j hj =>
    Nat.add_le_add_right (Nat.mul_le_mul_right sz hj) _
  have hsame : ∀ a i, cls a = some i → SameOn s.mem (State.carve sz k s.mem op) a (a + 4) := by
    intro a i ha x _ hx
    have hins := h.inside a i ha
    have := le_extent i
    exact hblw x (by omega)
  have hnil : fl bucket = [] := by
    have hl := h.linked bucket
    rw [hnull] at hl
    exact hl.eq_nil
  refine ⟨hbrk, fun x hx => habove x (by dsimp only at hx; omega), fun a i ha => ?_, fun a i ha => ?_,
    fun a b i j ha hb hne => ?_, fun i => ?_, fun i a ha => ?_, fun i => ?_, fun b hb => ?_,
    h.distinct⟩
  · rcases hcar a i ha with ⟨j, hj, rfl, rfl⟩ | ha
    · have := hfit j hj
      refine ⟨by omega, ?_, hbuc⟩
      dsimp only
      omega
    · obtain ⟨hs, he, hi⟩ := h.inside a i ha
      refine ⟨hs, ?_, hi⟩
      dsimp only
      omega
  · rcases hcar a i ha with ⟨j, hj, rfl, rfl⟩ | ha
    · omega
    · exact h.pos a i ha
  · rcases hcar a i ha with ⟨u, hu, rfl, hi⟩ | ha' <;>
      rcases hcar b j hb with ⟨v, hv, rfl, hj⟩ | hb'
    · have hsz : extent bucket = sz := by
        refine hk.resolve_right ?_
        rintro rfl
        obtain rfl : u = 0 := by omega
        obtain rfl : v = 0 := by omega
        exact hne rfl
      rw [hi, hj, hsz]
      rcases Nat.lt_trichotomy u v with hlt | rfl | hlt
      · have := Nat.mul_le_mul_right sz (Nat.succ_le_of_lt hlt)
        rw [Nat.succ_mul] at this
        omega
      · exact absurd rfl hne
      · have := Nat.mul_le_mul_right sz (Nat.succ_le_of_lt hlt)
        rw [Nat.succ_mul] at this
        omega
    · have hins := h.inside b j hb'
      omega
    · have hins := h.inside a i ha'
      omega
    · exact h.apart a b i j ha' hb' hne
  · dsimp only
    by_cases hi : i = bucket
    · subst hi
      rwa [update_self, update_self]
    · rw [update_of_ne hi, update_of_ne hi]
      exact (h.linked i).congr fun a ha => hsame a i (h.free i a ha).1
  · by_cases hi : i = bucket
    · subst hi
      rw [update_self] at ha
      refine ⟨if_pos ha, fun nb hin => ?_⟩
      obtain ⟨a', i', heq, hcls, -⟩ := h.used _ hin
      obtain rfl : a = a' := Nat.add_right_cancel heq
      exact hold a i' hcls ha
    · rw [update_of_ne hi] at ha
      obtain ⟨hcls, hnot⟩ := h.free i a ha
      exact ⟨hkeep a i hcls, hnot⟩
  · by_cases hi : i = bucket
    · subst hi
      rw [update_self]
      exact nodup_blocks (by omega) k op
    · rw [update_of_ne hi]
      exact h.nodup i
  · obtain ⟨a, i, ha, hcls, hn, hmag, hidx⟩ := h.used b hb
    have hsame := hsame a i hcls
    refine ⟨a, i, ha, hkeep a i hcls, hn, ?_, ?_⟩
    · exact (hsame a le_rfl (by omega)).trans hmag
    · exact (hsame (a + 1) (by omega) (by omega)).trans hidx

end Uwisc.Malloc
