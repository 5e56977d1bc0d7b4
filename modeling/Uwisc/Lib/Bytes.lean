import Mathlib.Algebra.Order.Ring.Int
import Mathlib.Data.List.Basic

/-!
# Byte memories

A memory is read and written in pieces: the bytes from an address on (`bytes`,
`store`), and the numbers they hold in little-endian order (`load`, `storeNum`). What
was stored is read back, and what lies apart from it is read as before.
-/

namespace Uwisc.Lib

open Function List

/-- A memory of bytes. -/
abbrev Mem := ℕ → UInt8

/-- The `n` bytes from `a` on. -/
def bytes (m : Mem) (a n : ℕ) : List UInt8 := (range n).map fun i => m (a + i)

/-- Writes bytes from `a` on. -/
def store (m : Mem) (a : ℕ) (l : List UInt8) : Mem := fun i =>
  if a ≤ i ∧ i < a + l.length then l.getD (i - a) 0 else m i

/-- The number some bytes hold. -/
def decode : List UInt8 → ℕ
  | [] => 0
  | b :: l => b.toNat + 256 * decode l

/-- The `n` bytes that hold a number. -/
def encode : ℕ → ℕ → List UInt8
  | 0, _ => []
  | n + 1, v => UInt8.ofNat v :: encode n (v / 256)

/-- Reads a number of `n` bytes. -/
def load (n : ℕ) (m : Mem) (a : ℕ) : ℕ := decode (bytes m a n)

/-- Writes a number of `n` bytes. -/
def storeNum (n : ℕ) (m : Mem) (a v : ℕ) : Mem := store m a (encode n v)

/-- Copies `n` bytes that may overlap with those they are copied to. -/
def bcopy (m : Mem) (src dst n : ℕ) : Mem := store m dst (bytes m src n)

/-- The memories hold the same from `a` up to `b`. -/
def SameOn (m m' : Mem) (a b : ℕ) : Prop := ∀ i, a ≤ i → i < b → m' i = m i

section Store

variable {m m' m'' : Mem} {a b c d n v : ℕ} {l : List UInt8}

@[simp] theorem length_bytes (m : Mem) (a n : ℕ) : (bytes m a n).length = n := by simp [bytes]

theorem bytes_add (m : Mem) (a n k : ℕ) : bytes m a (n + k) = bytes m a n ++ bytes m (a + n) k := by
  simp only [bytes, range_add, map_append, map_map]
  congr 1
  refine map_congr_left fun i _ => ?_
  simp [add_assoc]

theorem bytes_succ (m : Mem) (a n : ℕ) : bytes m a (n + 1) = m a :: bytes m (a + 1) n := by
  rw [add_comm, bytes_add]
  rfl

theorem drop_bytes (m : Mem) (a n k : ℕ) : (bytes m a n).drop k = bytes m (a + k) (n - k) := by
  refine ext_getElem (by simp [bytes]) fun i hi hi' => ?_
  simp [bytes, add_assoc]

theorem take_bytes (m : Mem) (a n k : ℕ) : (bytes m a n).take k = bytes m a (min k n) := by
  rw [bytes, bytes, ← map_take, take_range]

@[simp] theorem length_encode (n v : ℕ) : (encode n v).length = n := by
  induction n generalizing v with
  | zero => rfl
  | succ n ih => rw [encode, length_cons, ih]

theorem decode_encode (h : v < 256 ^ n) : decode (encode n v) = v := by
  induction n generalizing v with
  | zero => simp at h; simp [h, encode, decode]
  | succ n ih =>
    have hdiv : v / 256 < 256 ^ n := Nat.div_lt_of_lt_mul (by rwa [pow_succ, mul_comm] at h)
    rw [encode, decode, ih hdiv, UInt8.toNat_ofNat']
    omega

theorem encode_decode (l : List UInt8) : encode l.length (decode l) = l := by
  induction l with
  | nil => rfl
  | cons b l ih =>
    have hlow : UInt8.ofNat (b.toNat + 256 * decode l) = b := by
      rw [← UInt8.toNat_inj, UInt8.toNat_ofNat']
      have := b.toNat_lt
      omega
    have hhigh : (b.toNat + 256 * decode l) / 256 = decode l := by
      have := b.toNat_lt
      omega
    rw [length_cons, encode, decode, hlow, hhigh, ih]

theorem decode_lt (l : List UInt8) : decode l < 256 ^ l.length := by
  induction l with
  | nil => decide
  | cons b l ih =>
    have := b.toNat_lt
    rw [decode, length_cons, pow_succ]
    omega

/-! ### The same bytes -/

theorem SameOn.refl (m : Mem) (a b : ℕ) : SameOn m m a b := fun _ _ _ => rfl

theorem SameOn.trans (h : SameOn m m' a b) (h' : SameOn m' m'' a b) : SameOn m m'' a b :=
  fun i hi hi' => (h' i hi hi').trans (h i hi hi')

theorem SameOn.mono (h : SameOn m m' a b) (hc : a ≤ c) (hd : d ≤ b) : SameOn m m' c d :=
  fun i hi hi' => h i (hc.trans hi) (hi'.trans_le hd)

theorem SameOn.bytes_eq (h : SameOn m m' a b) (hc : a ≤ c) (hn : c + n ≤ b) :
    bytes m' c n = bytes m c n :=
  map_congr_left fun i hi => by
    have := mem_range.1 hi
    exact h _ (by omega) (by omega)

theorem SameOn.load_eq (h : SameOn m m' a b) (hc : a ≤ c) (hn : c + n ≤ b) :
    load n m' c = load n m c := by
  rw [load, h.bytes_eq hc hn, load]

/-! ### What was stored -/

theorem sameOn_store (h : b ≤ c ∨ c + l.length ≤ a) : SameOn m (store m c l) a b := fun i hi hi' => by
  rw [store, if_neg (by omega)]

theorem bytes_store (m : Mem) (a : ℕ) (l : List UInt8) : bytes (store m a l) a l.length = l := by
  refine ext_getElem (length_bytes _ _ _) fun i hi hi' => ?_
  simp [bytes, store, hi']

theorem store_nil (m : Mem) (a : ℕ) : store m a [] = m := by
  funext i
  rw [store, if_neg (by simp only [length_nil]; omega)]

/-- Bytes stored one after the other. -/
theorem store_append (m : Mem) (a : ℕ) (l l' : List UInt8) :
    store (store m a l) (a + l.length) l' = store m a (l ++ l') := by
  funext i
  simp only [store, length_append, getD_eq_getElem?_getD]
  by_cases hl : i < a + l.length
  · rw [if_neg (by omega), getElem?_append]
    by_cases ha : a ≤ i
    · rw [if_pos ⟨ha, hl⟩, if_pos ⟨ha, by omega⟩, if_pos (by omega)]
    · rw [if_neg (by omega), if_neg (by omega)]
  · by_cases hl' : i < a + l.length + l'.length
    · rw [if_pos ⟨by omega, hl'⟩, if_pos ⟨by omega, by omega⟩,
        getElem?_append_right (by omega), Nat.sub_sub]
    · rw [if_neg (by omega), if_neg (by omega), if_neg (by omega)]

/-- Bytes stored one by one. -/
theorem store_update (m : Mem) (a : ℕ) (b : UInt8) (l : List UInt8) :
    store (update m a b) (a + 1) l = store m a (b :: l) := by
  have hfst : update m a b = store m a [b] := by
    funext i
    rw [store, length_singleton]
    by_cases hi : i = a
    · rw [hi, update_self, if_pos (by omega), Nat.sub_self]
      rfl
    · rw [update_of_ne hi, if_neg (by omega)]
  rw [hfst]
  exact store_append m a [b] l

/-- What is there already is stored. -/
theorem store_bytes (m : Mem) (a n : ℕ) : store m a (bytes m a n) = m := by
  funext i
  rw [store, length_bytes]
  split_ifs with h
  · have hi : i - a < n := by omega
    simp [bytes, hi, Nat.add_sub_cancel' h.1]
  · rfl

/-- What comes after the bytes stored is as it was. -/
theorem store_gap (m : Mem) (a k : ℕ) (l : List UInt8) :
    store m a l = store m a (l ++ bytes m (a + l.length) k) := by
  have hsame : SameOn m (store m a l) (a + l.length) (a + l.length + k) := sameOn_store (.inr le_rfl)
  rw [← store_append, ← hsame.bytes_eq le_rfl le_rfl, store_bytes]

/-- A part of what was stored. -/
theorem bytes_store_append (m : Mem) (a : ℕ) (l l' : List UInt8) :
    bytes (store m a (l ++ l')) a l.length = l := by
  refine ext_getElem (length_bytes _ _ _) fun i hi hi' => ?_
  have : i < l.length + l'.length := by omega
  simp [bytes, store, hi', this]

theorem sameOn_storeNum (h : b ≤ c ∨ c + n ≤ a) : SameOn m (storeNum n m c v) a b :=
  sameOn_store (by rwa [length_encode])

theorem load_storeNum (h : v < 256 ^ n) : load n (storeNum n m a v) a = v := by
  have hbyt := bytes_store m a (encode n v)
  rw [length_encode] at hbyt
  rw [load, storeNum, hbyt, decode_encode h]

theorem sameOn_bcopy (h : b ≤ d ∨ d + n ≤ a) : SameOn m (bcopy m c d n) a b :=
  sameOn_store (by rwa [length_bytes])

/-- A byte copied. -/
theorem bcopy_apply {i : ℕ} (hi : i < n) : bcopy m c d n (d + i) = m (c + i) := by
  rw [bcopy, store, if_pos (by rw [length_bytes]; omega), Nat.add_sub_cancel_left]
  simp [bytes, hi]

theorem bytes_bcopy {i k : ℕ} (hi : i + k ≤ n) : bytes (bcopy m c d n) (d + i) k = bytes m (c + i) k :=
  map_congr_left fun j hj => by
    have := mem_range.1 hj
    rw [add_assoc, bcopy_apply (by omega), add_assoc]

theorem load_bcopy {i k : ℕ} (hi : i + k ≤ n) : load k (bcopy m c d n) (d + i) = load k m (c + i) := by
  rw [load, bytes_bcopy hi, load]

end Store

/-!
### Linked lists in a byte memory

The nodes of a list begin with a word of four bytes that holds the address of the next node, or zero
in the last one. Only the words of the nodes matter (`Linked.congr`).
-/

variable {m m' : Mem} {h a : ℕ} {l l' : List ℕ}

/-- The list from the node `h` on, in the memory `m`. -/
def Linked (m : Mem) : ℕ → List ℕ → Prop
  | h, [] => h = 0
  | h, a :: l => h = a ∧ a ≠ 0 ∧ Linked m (load 4 m a) l

theorem Linked.congr (hl : Linked m h l) (hs : ∀ a ∈ l, SameOn m m' a (a + 4)) : Linked m' h l := by
  induction l generalizing h with
  | nil => exact hl
  | cons a l ih =>
    obtain ⟨hh, ha, hl⟩ := hl
    obtain ⟨hsa, hs⟩ := forall_mem_cons.1 hs
    refine ⟨hh, ha, ?_⟩
    rw [hsa.load_eq le_rfl le_rfl]
    exact ih hl hs

theorem Linked.eq_nil (hl : Linked m 0 l) : l = [] := by
  cases l with
  | nil => rfl
  | cons a l => exact absurd hl.1.symm hl.2.1

/-- The first node, and what follows it. -/
theorem Linked.cons (hl : Linked m h l) (hh : h ≠ 0) :
    ∃ l', l = h :: l' ∧ Linked m (load 4 m h) l' := by
  cases l with
  | nil => exact absurd hl hh
  | cons a l =>
    obtain ⟨rfl, -, hl⟩ := hl
    exact ⟨l, rfl, hl⟩

/-- A node in front, that is not one of the list. -/
theorem Linked.push (hl : Linked m h l) (ha : a ≠ 0) (hh : h < 2 ^ 32)
    (hl' : ∀ b ∈ l, b + 4 ≤ a ∨ a + 4 ≤ b) : Linked (storeNum 4 m a h) a (a :: l) := by
  refine ⟨rfl, ha, ?_⟩
  rw [load_storeNum (by omega)]
  exact hl.congr fun b hb => sameOn_storeNum (hl' b hb)

end Uwisc.Lib
