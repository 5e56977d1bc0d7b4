import Uwisc.Rpc.Xdr

/-!
# Counted things decoded into memory of their own

`xdr_array`, `xdr_bytes` and `xdr_string` of `sys/rpc/xdr_array.c` and `sys/rpc/xdr.c`, as they
decode into a null pointer: the count comes from the stream, the memory from `mem_alloc`. The
streams are any there are; the one of `sys/rpc/xdr_mem.c` is an instance.

What is stored is a list of bytes, each with where it goes: as far from the start of the block
that was asked for as its address says, with 32 bits. That is inside for any `xdr_bytes`, and for
`xdr_array` and `xdr_string` if and only if the size they compute does not go around
(`counted_iff`).

A stream on a buffer has as many bytes as asked for if it says so, unless the count of what is
left goes around. Requests for which it does not never get more than the buffer has
(`Straight.honest`).
-/

namespace Uwisc.Xdr

open Lib List Nat

/-- Bytes that are stored, each with where. -/
abbrev Stores := List (UInt8 × ℕ)

/-- A stream, as far as it decodes: a number, and whether there are some bytes, with what it
    stores of them one after the other. -/
structure Stream (σ : Type) where
  getlong : σ → Option ℕ × σ
  getbytes : σ → ℕ → (Bool × List UInt8) × σ
  getlong_lt : ∀ {xdrs l}, (getlong xdrs).1 = some l → l < 2 ^ 32
  getbytes_le : ∀ xdrs len, (getbytes xdrs len).1.2.length ≤ len

/-- What decoding does: whether it succeeds, what it stores from the pointer on and in `crud`, and
    where it leaves the stream. -/
structure Decoded (σ : Type) where
  stat : Bool
  stores : Stores
  crud : Stores
  xdrs : σ

/-- What decoding something counted does: the count, and the size of the block it got. -/
structure Counted (σ : Type) extends Decoded σ where
  size : Option ℕ
  block : Option ℕ

variable {σ : Type}

/-- Nothing is stored. -/
def Counted.nothing (stat : Bool) (size : Option ℕ) (xdrs : σ) : Counted σ :=
  ⟨⟨stat, [], [], xdrs⟩, size, none⟩

/-- What is stored from a pointer on, seen from the start of the block. -/
def shifted (target : ℕ) (s : Stores) : Stores := s.map fun b => (b.1, (target + b.2) % 2 ^ 32)

/-- The loop of `xdrArray`. -/
def elements (elproc : σ → ℕ → Decoded σ) (elsize : ℕ) : ℕ → ℕ → σ → Decoded σ
  | 0, _, xdrs => ⟨true, [], [], xdrs⟩
  | i + 1, target, xdrs =>
    let e := elproc xdrs target
    if e.stat then
      let r := elements elproc elsize i ((target + elsize) % 2 ^ 32) e.xdrs
      { r with stores := shifted target e.stores ++ r.stores, crud := e.crud ++ r.crud }
    else { e with stores := shifted target e.stores }

/-- `xdr_array`. Whether there is memory of a size is `mem`. -/
def xdrArray (S : Stream σ) (mem : ℕ → Bool) (xdrs : σ) (maxsize elsize : ℕ)
    (elproc : σ → ℕ → Decoded σ) : Counted σ :=
  match S.getlong xdrs with
  | (none, xdrs) => .nothing false none xdrs
  | (some c, xdrs) =>
    if c > maxsize then .nothing false (some c) xdrs
    else
      let nodesize := c * elsize % 2 ^ 32
      if c = 0 then .nothing true (some c) xdrs
      else if !mem nodesize then .nothing false (some c) xdrs
      else
        let r := elements elproc elsize c 0 xdrs
        ⟨{ r with stores := (replicate nodesize 0).zipIdx ++ r.stores }, some c, some nodesize⟩

/-- The bytes to a full unit. -/
def rndup (cnt : ℕ) : ℕ := if cnt % 4 ≠ 0 then 4 - cnt % 4 else 0

/-- `xdr_opaque`. -/
def xdrOpaque (S : Stream σ) (xdrs : σ) (cnt : ℕ) : Decoded σ :=
  if cnt = 0 then ⟨true, [], [], xdrs⟩
  else
    match S.getbytes xdrs cnt with
    | ((false, cp), xdrs) => ⟨false, cp.zipIdx, [], xdrs⟩
    | ((true, cp), xdrs) =>
      if rndup cnt = 0 then ⟨true, cp.zipIdx, [], xdrs⟩
      else
        match S.getbytes xdrs (rndup cnt) with
        | ((stat, crud), xdrs) => ⟨stat, cp.zipIdx, crud.zipIdx, xdrs⟩

/-- `xdr_bytes`. -/
def xdrBytes (S : Stream σ) (mem : ℕ → Bool) (xdrs : σ) (maxsize : ℕ) : Counted σ :=
  match S.getlong xdrs with
  | (none, xdrs) => .nothing false none xdrs
  | (some nodesize, xdrs) =>
    if nodesize > maxsize then .nothing false (some nodesize) xdrs
    else if !mem nodesize then .nothing false (some nodesize) xdrs
    else ⟨xdrOpaque S xdrs nodesize, some nodesize, some nodesize⟩

/-- `xdr_string`. -/
def xdrString (S : Stream σ) (mem : ℕ → Bool) (xdrs : σ) (maxsize : ℕ) : Counted σ :=
  match S.getlong xdrs with
  | (none, xdrs) => .nothing false none xdrs
  | (some size, xdrs) =>
    if size > maxsize then .nothing false (some size) xdrs
    else
      let nodesize := (size + 1) % 2 ^ 32
      if !mem nodesize then .nothing false (some size) xdrs
      else
        let r := xdrOpaque S xdrs size
        ⟨{ r with stores := (0, size) :: r.stores }, some size, some nodesize⟩

/-- Every byte is stored in the block, or in the four words of `crud`. -/
def Inside (r : Counted σ) : Prop :=
  (∀ b ∈ r.stores, ∃ n, r.block = some n ∧ b.2 < n) ∧ ∀ b ∈ r.crud, b.2 < 16

/-- A routine for an element stores in the bytes of the element. -/
def Within (elsize : ℕ) (elproc : σ → ℕ → Decoded σ) : Prop :=
  ∀ xdrs target, (∀ b ∈ (elproc xdrs target).stores, b.2 < elsize) ∧
    ∀ b ∈ (elproc xdrs target).crud, b.2 < 16

/-! ### Bytes and strings -/

variable {S : Stream σ} {mem : ℕ → Bool} {xdrs : σ} {maxsize elsize : ℕ}
  {elproc : σ → ℕ → Decoded σ}

theorem Counted.nothing_inside (stat : Bool) (size : Option ℕ) (xdrs : σ) :
    Inside (Counted.nothing stat size xdrs) := by
  simp [Inside, Counted.nothing]

variable {n len : ℕ} {b : UInt8 × ℕ} {rs : List Request}

theorem zipIdx_lt {cp : List UInt8} (hb : b ∈ cp.zipIdx) (hn : cp.length ≤ n) : b.2 < n := by
  have := snd_lt_of_mem_zipIdx hb
  omega

theorem rndup_lt (cnt : ℕ) : rndup cnt < 4 := by
  rw [rndup]
  split <;> omega

theorem xdrOpaque_inside (S : Stream σ) (xdrs : σ) (cnt : ℕ) :
    (∀ b ∈ (xdrOpaque S xdrs cnt).stores, b.2 < cnt) ∧
      ∀ b ∈ (xdrOpaque S xdrs cnt).crud, b.2 < 16 := by
  have hcp := S.getbytes_le xdrs cnt
  by_cases h0 : cnt = 0
  · simp [xdrOpaque, h0]
  rw [xdrOpaque, if_neg h0]
  generalize S.getbytes xdrs cnt = r at hcp
  obtain ⟨⟨stat, cp⟩, xdrs'⟩ := r
  cases stat with
  | false => exact ⟨fun b hb => zipIdx_lt hb hcp, by simp⟩
  | true =>
    dsimp only
    split_ifs with hr
    · exact ⟨fun b hb => zipIdx_lt hb hcp, by simp⟩
    · have hcrud := S.getbytes_le xdrs' (rndup cnt)
      have hlt := rndup_lt cnt
      exact ⟨fun b hb => zipIdx_lt hb hcp, fun b hb => zipIdx_lt hb (hcrud.trans (by omega))⟩

theorem xdrBytes_inside (S : Stream σ) (mem : ℕ → Bool) (xdrs : σ) (maxsize : ℕ) :
    Inside (xdrBytes S mem xdrs maxsize) := by
  rw [xdrBytes]
  split
  · exact Counted.nothing_inside ..
  · next nodesize xdrs' h =>
    split_ifs
    · exact Counted.nothing_inside ..
    · exact Counted.nothing_inside ..
    · obtain ⟨hs, hc⟩ := xdrOpaque_inside S xdrs' nodesize
      exact ⟨fun b hb => ⟨nodesize, rfl, hs b hb⟩, hc⟩

theorem xdrString_inside_iff (S : Stream σ) (xdrs : σ) (maxsize : ℕ) :
    (∀ mem, Inside (xdrString S mem xdrs maxsize)) ↔
      ∀ size, (S.getlong xdrs).1 = some size → size ≤ maxsize → size ≠ 2 ^ 32 - 1 := by
  have hlt := @S.getlong_lt xdrs
  simp only [xdrString]
  generalize S.getlong xdrs = r at hlt
  obtain ⟨_ | size, xdrs'⟩ := r
  · simp [Counted.nothing_inside]
  have hsize : size < 2 ^ 32 := hlt rfl
  obtain ⟨hs, hc⟩ := xdrOpaque_inside S xdrs' size
  constructor
  · rintro h _ ⟨⟩ hle heq
    -- the block has no bytes
    have hin := h fun _ => true
    simp only [if_neg hle.not_gt] at hin
    obtain ⟨n, hn, hlt'⟩ := hin.1 (0, size) (by simp)
    simp [heq] at hn
    omega
  · intro h mem
    dsimp only
    split_ifs with hgt
    · exact Counted.nothing_inside ..
    · exact Counted.nothing_inside ..
    · have hne : size ≠ 2 ^ 32 - 1 := h size rfl (not_lt.1 hgt)
      have hn : (size + 1) % 2 ^ 32 = size + 1 := mod_eq_of_lt (by omega)
      refine ⟨fun b hb => ⟨size + 1, congrArg some hn, ?_⟩, hc⟩
      obtain rfl | hb := mem_cons.1 hb
      · exact lt_succ_self size
      · exact (hs b hb).trans (lt_succ_self size)

/-! ### Arrays -/

theorem mem_shifted {target : ℕ} {s : Stores} :
    b ∈ shifted target s ↔ ∃ b' ∈ s, b = (b'.1, (target + b'.2) % 2 ^ 32) := by
  simp only [shifted, mem_map, eq_comm]

/-- The elements are one after the other. -/
theorem elements_lt (hw : Within elsize elproc) (i : ℕ) :
    ∀ target xdrs, target + i * elsize < 2 ^ 32 →
      (∀ b ∈ (elements elproc elsize i target xdrs).stores, b.2 < target + i * elsize) ∧
        ∀ b ∈ (elements elproc elsize i target xdrs).crud, b.2 < 16 := by
  induction i with
  | zero => simp [elements]
  | succ i ih =>
    intro target xdrs h
    obtain ⟨hs, hc⟩ := hw xdrs target
    rw [succ_mul] at h ⊢
    have here : ∀ b ∈ shifted target (elproc xdrs target).stores, b.2 < target + elsize := by
      intro b hb
      obtain ⟨b', hb', rfl⟩ := mem_shifted.1 hb
      have := hs b' hb'
      exact (mod_le ..).trans_lt (by omega)
    rw [elements]
    dsimp only
    split
    · have hmod : (target + elsize) % 2 ^ 32 = target + elsize := mod_eq_of_lt (by omega)
      obtain ⟨hs', hc'⟩ := ih (target + elsize) (elproc xdrs target).xdrs (by omega)
      rw [hmod]
      constructor
      · intro b hb
        obtain hb | hb := mem_append.1 hb
        · exact (here b hb).trans_le (by omega)
        · exact (hs' b hb).trans_le (by omega)
      · intro b hb
        obtain hb | hb := mem_append.1 hb
        · exact hc b hb
        · exact hc' b hb
    · exact ⟨fun b hb => (here b hb).trans_le (by omega), hc⟩

/-- The routine for an element that fills it, whatever there is. -/
def fill (elsize : ℕ) (xdrs : σ) (_ : ℕ) : Decoded σ :=
  ⟨true, (replicate elsize 0).zipIdx, [], xdrs⟩

theorem fill_within (elsize : ℕ) : Within elsize (fill elsize : σ → ℕ → Decoded σ) :=
  fun _ _ => ⟨fun _ hb => zipIdx_lt hb (by simp), by simp [fill]⟩

/-- All that the elements have is stored, wherever that is. -/
theorem elements_fill (elsize i : ℕ) : ∀ (target : ℕ) (xdrs : σ), ∀ o < i * elsize,
    (0, (target + o) % 2 ^ 32) ∈ (elements (fill elsize) elsize i target xdrs).stores := by
  induction i with
  | zero => simp
  | succ i ih =>
    intro target xdrs o ho
    rw [succ_mul] at ho
    simp only [elements, fill, if_true, mem_append]
    by_cases hlt : o < elsize
    · refine .inl (mem_shifted.2 ⟨(0, o), ?_, rfl⟩)
      rw [mem_zipIdx_iff_getElem?]
      simp [hlt]
    · have h := ih ((target + elsize) % 2 ^ 32) xdrs (o - elsize) (by omega)
      rw [mod_add_mod, add_assoc, Nat.add_sub_cancel' (not_lt.1 hlt)] at h
      exact .inr h

theorem xdrArray_inside_iff (S : Stream σ) (xdrs : σ) (maxsize elsize : ℕ) :
    (∀ mem elproc, Within elsize elproc → Inside (xdrArray S mem xdrs maxsize elsize elproc)) ↔
      ∀ c, (S.getlong xdrs).1 = some c → c ≤ maxsize → c * elsize < 2 ^ 32 := by
  simp only [xdrArray]
  generalize S.getlong xdrs = r
  obtain ⟨_ | c, xdrs'⟩ := r
  · simp [Counted.nothing_inside]
  constructor
  · rintro h _ ⟨⟩ hle
    by_contra hge
    have hc : c ≠ 0 := by
      rintro rfl
      simp at hge
    have hin := h (fun _ => true) (fill elsize) (fill_within elsize)
    simp only [if_neg hle.not_gt, if_neg hc] at hin
    -- the byte behind the block is one of an element
    have hlt : c * elsize % 2 ^ 32 < c * elsize :=
      (mod_lt _ (by decide)).trans_le (not_lt.1 hge)
    have hmem := elements_fill elsize c 0 xdrs' _ hlt
    obtain ⟨n, hn, hlt'⟩ := hin.1 _ (mem_append_right _ hmem)
    simp at hn hlt'
    omega
  · intro h mem elproc hw
    dsimp only
    split_ifs with hgt
    · exact Counted.nothing_inside ..
    · exact Counted.nothing_inside ..
    · exact Counted.nothing_inside ..
    · have hfits : c * elsize < 2 ^ 32 := h c rfl (not_lt.1 hgt)
      obtain ⟨hs, hc⟩ := elements_lt hw c 0 xdrs' (by omega)
      refine ⟨fun b hb => ⟨c * elsize, congrArg some (mod_eq_of_lt hfits), ?_⟩, hc⟩
      obtain hb | hb := mem_append.1 hb
      · exact zipIdx_lt hb (by simp [mod_le])
      · simpa using hs b hb

/-! ### Buffers -/

def Value.toLong : Value → Option ℕ
  | .long l => some l
  | .bytes _ => none

def Value.toBytes : Value → List UInt8
  | .long _ => []
  | .bytes addr => addr

theorem ntohl_lt (p : Mem) : ntohl p < 2 ^ 32 := by
  have h := decode_lt (bytes p 0 4).reverse
  rwa [length_reverse, length_bytes] at h

/-- The stream on a buffer. -/
def xdrmemOps : Stream XdrMem where
  getlong xdrs := ((xdrmemGetlong xdrs).1.bind Value.toLong, (xdrmemGetlong xdrs).2)
  getbytes xdrs len :=
    (((xdrmemGetbytes xdrs len).1.isSome, (xdrmemGetbytes xdrs len).1.elim [] Value.toBytes),
      (xdrmemGetbytes xdrs len).2)
  getlong_lt := by
    intro xdrs l h
    simp only [xdrmemGetlong] at h
    split_ifs at h
    · simp at h
    · cases h
      exact ntohl_lt _
  getbytes_le := by
    intro xdrs len
    simp only [xdrmemGetbytes]
    split_ifs <;> simp [Value.toBytes]

/-- The count of what is left goes around, and is not negative then. -/
def Around (xdrs : XdrMem) (len : ℕ) : Prop :=
  xdrs.x_handy + 2 ^ 31 < len ∧ (len : ℤ) ≤ xdrs.x_handy + 2 ^ 32

/-- The count does not go around at any request. -/
def Straight : XdrMem → List Request → Prop
  | _, [] => True
  | xdrs, r :: rs => ¬Around xdrs r.size ∧ Straight (xdrmem xdrs r).2 rs

/-- No request succeeds for more than is left of the buffer. -/
def Honest : XdrMem → ℤ → List Request → Prop
  | _, _, [] => True
  | xdrs, left, r :: rs =>
    ((xdrmem xdrs r).1.isSome → (r.size : ℤ) ≤ left) ∧
      Honest (xdrmem xdrs r).2 (if (xdrmem xdrs r).1.isSome then left - r.size else left) rs

theorem wrap_sub_nonneg_iff {x : ℤ} (hx : InRange 32 x) (hlen : len < 2 ^ 32) :
    0 ≤ wrap 32 (x - len) ↔ (len : ℤ) ≤ x ∨ x + 2 ^ 31 < len ∧ (len : ℤ) ≤ x + 2 ^ 32 := by
  obtain ⟨hl, hu⟩ := inRange_int.1 hx
  by_cases hlow : x + 2 ^ 32 < len
  · have h := wrap_int (x := x - len + 2 ^ 32) (by omega) (by omega)
    rw [wrap_add_circle] at h
    omega
  by_cases hmid : x + 2 ^ 31 < len
  · have h := wrap_add_circle 32 (x - len)
    rw [wrap_int (x := x - len + 2 ^ 32) (by omega) (by omega)] at h
    omega
  · rw [wrap_int (x := x - len) (by omega) (by omega)]
    omega

theorem xdrmem_isSome (xdrs : XdrMem) (r : Request) :
    (xdrmem xdrs r).1.isSome ↔ 0 ≤ wrap 32 (xdrs.x_handy - r.size) := by
  cases r with
  | getlong =>
    simp only [xdrmem, xdrmemGetlong, Request.size, cast_ofNat]
    split_ifs with h <;> simpa using h
  | getbytes len =>
    simp only [xdrmem, xdrmemGetbytes, Request.size]
    split_ifs with h <;> simpa using h

theorem xdrmem_handy (xdrs : XdrMem) (r : Request) :
    (xdrmem xdrs r).2.x_handy = wrap 32 (xdrs.x_handy - r.size) := by
  cases r with
  | getlong =>
    simp only [xdrmem, xdrmemGetlong, Request.size, cast_ofNat]
    split_ifs <;> rfl
  | getbytes len =>
    simp only [xdrmem, xdrmemGetbytes, Request.size]
    split_ifs <;> rfl

/-- As long as the count does not go around, it is at most what is left, or negative. -/
theorem Straight.honest (hrs : ∀ r ∈ rs, r.size < 2 ^ 32) :
    ∀ {xdrs : XdrMem} {left : ℤ}, InRange 32 xdrs.x_handy → 0 ≤ left → xdrs.x_handy ≤ left →
      Straight xdrs rs → Honest xdrs left rs := by
  induction rs with
  | nil => exact fun _ _ _ _ => trivial
  | cons r rs ih =>
    intro xdrs left hx h0 hle hs
    obtain ⟨hr, hs⟩ := hs
    obtain ⟨hl, hu⟩ := inRange_int.1 hx
    have hiff := wrap_sub_nonneg_iff hx (hrs r mem_cons_self)
    have hrng : InRange 32 (xdrmem xdrs r).2.x_handy := by
      rw [xdrmem_handy]
      exact wrap_inRange ..
    rw [Around] at hr
    have ih := fun left => @ih (fun r' hr' => hrs r' (mem_cons_of_mem _ hr')) _ left hrng
    simp only [Honest, xdrmem_isSome]
    by_cases hsome : 0 ≤ wrap 32 (xdrs.x_handy - r.size)
    · have hsize : (r.size : ℤ) ≤ xdrs.x_handy := (hiff.1 hsome).resolve_right hr
      have hwrap : wrap 32 (xdrs.x_handy - r.size) = xdrs.x_handy - r.size :=
        wrap_int (by omega) (by omega)
      refine ⟨fun _ => hsize.trans hle, ?_⟩
      rw [if_pos hsome]
      refine ih _ (by omega) ?_ hs
      rw [xdrmem_handy, hwrap]
      omega
    · refine ⟨fun h => absurd h hsome, ?_⟩
      rw [if_neg hsome]
      refine ih _ h0 ?_ hs
      rw [xdrmem_handy]
      omega

theorem wrap_natCast_le (hn : n < 2 ^ 32) : wrap 32 n ≤ n := by
  by_cases hlt : n < 2 ^ 31
  · rw [wrap_int (by omega) (by omega)]
  · have h := wrap_add_circle 32 ((n : ℤ) - 2 ^ 32)
    rw [sub_add_cancel, wrap_int (x := (n : ℤ) - 2 ^ 32) (by omega) (by omega)] at h
    omega

/-- A buffer of `size` bytes never has more than it has for requests that do not take the count
    around. -/
theorem Straight.created {addr : Mem} {size : ℕ} (hsize : size < 2 ^ 32)
    (hrs : ∀ r ∈ rs, r.size < 2 ^ 32) (h : Straight (xdrmemCreate addr size) rs) :
    Honest (xdrmemCreate addr size) size rs := by
  have hx : (xdrmemCreate addr size).x_handy = wrap 32 size := by simp only [xdrmemCreate]
  refine h.honest hrs ?_ (Int.natCast_nonneg _) ?_
  · rw [hx]
    exact wrap_inRange ..
  · rw [hx]
    exact wrap_natCast_le hsize

theorem xdrmemGetbytes_iff {xdrs : XdrMem} (hx : InRange 32 xdrs.x_handy) (hlen : len < 2 ^ 32) :
    ((xdrmemGetbytes xdrs len).1.isSome → (len : ℤ) ≤ xdrs.x_handy) ↔ ¬Around xdrs len := by
  have hiff := wrap_sub_nonneg_iff hx hlen
  have hsome := xdrmem_isSome xdrs (.getbytes len)
  obtain ⟨hl, hu⟩ := inRange_int.1 hx
  rw [xdrmem, Request.size] at hsome
  rw [hsome, hiff, Around]
  omega

/-! ### What is decoded -/

/-- The decoders store in the block they ask for, and `getbytes` succeeds for what is left only,
    exactly if sizes and counts do not go around: that of an array, of a string with what ends it,
    and of what is left. Bytes need no condition. -/
theorem counted_iff (S : Stream σ) (xdrs : σ) (maxsize elsize : ℕ) :
    ((∀ mem elproc, Within elsize elproc → Inside (xdrArray S mem xdrs maxsize elsize elproc)) ↔
      ∀ c, (S.getlong xdrs).1 = some c → c ≤ maxsize → c * elsize < 2 ^ 32) ∧
    (∀ mem, Inside (xdrBytes S mem xdrs maxsize)) ∧
    ((∀ mem, Inside (xdrString S mem xdrs maxsize)) ↔
      ∀ size, (S.getlong xdrs).1 = some size → size ≤ maxsize → size ≠ 2 ^ 32 - 1) ∧
    (∀ (x : XdrMem) (len : ℕ), InRange 32 x.x_handy → len < 2 ^ 32 →
      (((xdrmemGetbytes x len).1.isSome → (len : ℤ) ≤ x.x_handy) ↔ ¬Around x len)) ∧
    ∀ (addr : Mem) (size : ℕ) (rs : List Request), size < 2 ^ 32 → (∀ r ∈ rs, r.size < 2 ^ 32) →
      Straight (xdrmemCreate addr size) rs → Honest (xdrmemCreate addr size) size rs :=
  ⟨xdrArray_inside_iff .., fun mem => xdrBytes_inside S mem xdrs maxsize,
    xdrString_inside_iff .., fun _ _ => xdrmemGetbytes_iff, fun _ _ _ => Straight.created⟩

/-- A number, as `xdr_long` decodes it. -/
def xdrLong (xdrs : XdrMem) (_ : ℕ) : Decoded XdrMem :=
  match xdrmemOps.getlong xdrs with
  | (none, xdrs) => ⟨false, [], [], xdrs⟩
  | (some lp, xdrs) => ⟨true, (encode 4 lp).zipIdx, [], xdrs⟩

theorem xdrLong_within : Within 4 xdrLong := by
  intro xdrs target
  rw [xdrLong]
  obtain ⟨_ | lp, xdrs'⟩ := xdrmemOps.getlong xdrs
  · simp
  · exact ⟨fun b hb => zipIdx_lt hb (by simp), by simp⟩

/-- A count of `2 ^ 30 + 1`, and two numbers. -/
def threeWords : XdrMem := xdrmemCreate (fun i => if i = 0 then 0x40 else if i = 3 then 1 else 0) 12

/-- The numbers of an array are as many as the stream says, in a block for one. -/
theorem xdrArray_one_block :
    Within 4 xdrLong ∧
      ¬Inside (xdrArray xdrmemOps (fun _ => true) threeWords (2 ^ 32 - 1) 4 xdrLong) := by
  refine ⟨xdrLong_within, fun h => ?_⟩
  have hblk : (xdrArray xdrmemOps (fun _ => true) threeWords (2 ^ 32 - 1) 4 xdrLong).block =
      some 4 := by decide +kernel
  -- where the second number goes
  have hmem : (0, 4) ∈
      (xdrArray xdrmemOps (fun _ => true) threeWords (2 ^ 32 - 1) 4 xdrLong).stores := by
    decide +kernel
  obtain ⟨n, hn, hlt⟩ := h.1 _ hmem
  obtain rfl := Option.some.inj (hblk.symm.trans hn)
  exact absurd hlt (by decide)

end Uwisc.Xdr
