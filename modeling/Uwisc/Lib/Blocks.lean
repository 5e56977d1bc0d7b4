import Uwisc.Lib.Bytes

/-!
# Bytes in a chain of blocks

A queue of bytes in blocks of `w` bytes that are linked to one another: the first `h` bytes of a
block are its header, and the others hold bytes of the queue. The queue begins at `cf` in the
first block and ends before `cl` in the last one; in between, the blocks are full.

* `Chars.take`, `Chars.drop_within`, `Chars.drop_block`: bytes are taken off the front;
* `Chars.last`: whatever is done with the last block, the ones before it stay as they are;
* `Chars.chop`: the last block is taken off;
* `Chars.congr`: nothing depends on what is outside of the blocks.
-/

namespace Uwisc.Lib.Blocks

open List

variable {w h : ℕ} {next next' : ℕ → ℕ} {info info' : Mem} {cf cl b n : ℕ} {B : List ℕ}
  {l : List UInt8}

/-- The blocks `B` hold the bytes `l`, from `cf` on and before `cl`. -/
def Chars (w h : ℕ) (next : ℕ → ℕ) (info : Mem) (cl : ℕ) : ℕ → List ℕ → List UInt8 → Prop
  | _, [], _ => False
  | cf, [b], l => b + h ≤ cf ∧ cf < cl ∧ cl ≤ b + w ∧ next b = 0 ∧ l = bytes info cf (cl - cf)
  | cf, b :: b' :: B, l => b + h ≤ cf ∧ cf < b + w ∧ next b = b' ∧
    ∃ l', l = bytes info cf (b + w - cf) ++ l' ∧ Chars w h next info cl (b' + h) (b' :: B) l'

/-- The memory is the same in a block. -/
def SameBlock (w : ℕ) (next next' : ℕ → ℕ) (info info' : Mem) (b : ℕ) : Prop :=
  next' b = next b ∧ SameOn info info' b (b + w)

section

variable (hc : Chars w h next info cl cf B l)

include hc

theorem Chars.congr (hs : ∀ b ∈ B, SameBlock w next next' info info' b) : Chars w h next' info' cl cf B l := by
  induction B generalizing cf l with
  | nil => exact hc.elim
  | cons b B ih =>
    obtain ⟨hb, hB⟩ := forall_mem_cons.1 hs
    cases B with
    | nil =>
      obtain ⟨hcf, hlt, hcl, hnx, rfl⟩ := hc
      exact ⟨hcf, hlt, hcl, hb.1.trans hnx, (hb.2.bytes_eq (by omega) (by omega)).symm⟩
    | cons b' B =>
      obtain ⟨hcf, hlt, hnx, l', rfl, hl'⟩ := hc
      refine ⟨hcf, hlt, hb.1.trans hnx, l', ?_, ih hl' hB⟩
      rw [hb.2.bytes_eq (by omega) (by omega)]

theorem Chars.ne_nil : l ≠ [] := by
  cases B with
  | nil => exact hc.elim
  | cons b B =>
    cases B with
    | nil =>
      obtain ⟨-, hlt, -, -, rfl⟩ := hc
      intro h
      have := congrArg length h
      rw [length_bytes, length_nil] at this
      omega
    | cons b' B =>
      obtain ⟨-, hlt, -, l', rfl, -⟩ := hc
      intro h
      have := congrArg length (append_eq_nil_iff.1 h).1
      rw [length_bytes, length_nil] at this
      omega

/-- The first block. -/
theorem Chars.head :
    ∃ b B', B = b :: B' ∧ b + h ≤ cf ∧ cf < b + w := by
  cases B with
  | nil => exact hc.elim
  | cons b B =>
    refine ⟨b, B, rfl, ?_⟩
    cases B with
    | nil =>
      obtain ⟨hcf, hlt, hcl, -⟩ := hc
      exact ⟨hcf, hlt.trans_le hcl⟩
    | cons b' B => exact ⟨hc.1, hc.2.1⟩

/-- Every block has bytes. -/
theorem Chars.length_le : B.length ≤ l.length := by
  induction B generalizing cf l with
  | nil => exact hc.elim
  | cons b B ih =>
    cases B with
    | nil => exact length_pos_of_ne_nil hc.ne_nil
    | cons b' B =>
      obtain ⟨-, hlt, -, l', rfl, hl'⟩ := hc
      have := ih hl'
      rw [length_cons, length_append, length_bytes]
      omega

/-- No block has more than fit. -/
theorem Chars.le_length : l.length ≤ (w - h) * B.length := by
  induction B generalizing cf l with
  | nil => exact hc.elim
  | cons b B ih =>
    cases B with
    | nil =>
      obtain ⟨hcf, hlt, hcl, -, rfl⟩ := hc
      rw [length_bytes, length_singleton]
      omega
    | cons b' B =>
      obtain ⟨hcf, -, -, l', rfl, hl'⟩ := hc
      have := ih hl'
      rw [length_cons, length_append, length_bytes, Nat.mul_succ]
      omega

end

/-- Bytes at the front. -/
theorem Chars.take (hc : Chars w h next info cl cf (b :: B) l) (hn : n ≤ l.length)
    (hfit : cf + n ≤ b + w) : l.take n = bytes info cf n := by
  have hspl : ∀ k, n ≤ k → (bytes info cf k).take n = bytes info cf n := fun k hk => by
    rw [bytes, bytes, ← map_take, take_range, min_eq_left hk]
  cases B with
  | nil =>
    obtain ⟨-, -, -, -, rfl⟩ := hc
    rw [length_bytes] at hn
    exact hspl _ hn
  | cons b' B =>
    obtain ⟨-, -, -, l', rfl, -⟩ := hc
    rw [take_append_of_le_length (by rw [length_bytes]; omega)]
    exact hspl _ (by omega)

/-- Bytes taken off the front, within the first block. -/
theorem Chars.drop_within (hc : Chars w h next info cl cf (b :: B) l) (hn : n < l.length)
    (hfit : cf + n < b + w) : Chars w h next info cl (cf + n) (b :: B) (l.drop n) := by
  cases B with
  | nil =>
    obtain ⟨hcf, hlt, hcl, hnx, rfl⟩ := hc
    rw [length_bytes] at hn
    refine ⟨by omega, by omega, hcl, hnx, ?_⟩
    rw [drop_bytes, Nat.sub_add_eq]
  | cons b' B =>
    obtain ⟨hcf, hlt, hnx, l', rfl, hl'⟩ := hc
    refine ⟨by omega, hfit, hnx, l', ?_, hl'⟩
    rw [drop_append_of_le_length (by rw [length_bytes]; omega), drop_bytes, Nat.sub_add_eq]

/-- The bytes of the first block taken off the front, and there are others. -/
theorem Chars.drop_block (hc : Chars w h next info cl cf (b :: B) l) (hn : n < l.length)
    (hfit : cf + n = b + w) :
    ∃ b' B', B = b' :: B' ∧ next b = b' ∧ Chars w h next info cl (b' + h) B (l.drop n) := by
  cases B with
  | nil =>
    obtain ⟨-, -, hcl, -, rfl⟩ := hc
    rw [length_bytes] at hn
    omega
  | cons b' B =>
    obtain ⟨hcf, hlt, hnx, l', rfl, hl'⟩ := hc
    refine ⟨b', B, rfl, hnx, ?_⟩
    rwa [drop_append_of_le_length (by rw [length_bytes]; omega), drop_bytes,
      show b + w - cf - n = 0 by omega]

/-- All bytes are in the first block. -/
theorem Chars.single (hc : Chars w h next info cl cf (b :: B) l) (hfit : cf + l.length ≤ b + w) :
    B = [] ∧ cl = cf + l.length := by
  cases B with
  | nil =>
    obtain ⟨-, hlt, -, -, rfl⟩ := hc
    rw [length_bytes]
    exact ⟨rfl, by omega⟩
  | cons b' B =>
    obtain ⟨-, hlt, -, l', rfl, hl'⟩ := hc
    have := length_pos_of_ne_nil hl'.ne_nil
    rw [length_append, length_bytes] at hfit
    omega

/-- The queue ends in the last block. -/
theorem Chars.end_mem (hc : Chars w h next info cl cf B l) :
    ∃ b, B.getLast? = some b ∧ b + h < cl ∧ cl ≤ b + w := by
  induction B generalizing cf l with
  | nil => exact hc.elim
  | cons b B ih =>
    cases B with
    | nil =>
      obtain ⟨hcf, hlt, hcl, -, -⟩ := hc
      exact ⟨b, rfl, by omega, hcl⟩
    | cons b' B =>
      obtain ⟨-, -, -, l', -, hl'⟩ := hc
      obtain ⟨z, hz, hend⟩ := ih hl'
      exact ⟨z, by rw [getLast?_cons_cons, hz], hend⟩

/-- The last block `b` holds the bytes from `lo` on. Whatever becomes of it, the bytes before it
    stay as long as the blocks before it do. -/
theorem Chars.last (hc : Chars w h next info cl cf B l) :
    ∃ B0 b lo l0, B = B0 ++ [b] ∧ l = l0 ++ bytes info lo (cl - lo) ∧ (B0 = [] ∧ lo = cf ∧ l0 = [] ∨
        B0 ≠ [] ∧ lo = b + h) ∧
      Chars w h next info cl lo [b] (bytes info lo (cl - lo)) ∧
      ∀ next' info' cl' T l', (∀ b ∈ B0, SameBlock w next next' info info' b) →
        Chars w h next' info' cl' lo (b :: T) l' →
          Chars w h next' info' cl' cf (B0 ++ b :: T) (l0 ++ l') := by
  induction B generalizing cf l with
  | nil => exact hc.elim
  | cons b B ih =>
    cases B with
    | nil =>
      obtain ⟨hcf, hlt, hcl, hnx, rfl⟩ := hc
      exact ⟨[], b, cf, [], rfl, rfl, .inl ⟨rfl, rfl, rfl⟩, ⟨hcf, hlt, hcl, hnx, rfl⟩,
        fun _ _ _ _ _ _ h => h⟩
    | cons b' B =>
      obtain ⟨hcf, hlt, hnx, l', rfl, hl'⟩ := hc
      obtain ⟨B0, z, lo, l0, hB, rfl, hlo, hz, hall⟩ := ih hl'
      refine ⟨b :: B0, z, lo, bytes info cf (b + w - cf) ++ l0, by rw [hB]; rfl, by simp, ?_, hz, ?_⟩
      · rcases hlo with ⟨rfl, rfl, rfl⟩ | ⟨-, hlo⟩
        · obtain ⟨rfl, -⟩ := cons_eq_cons.1 hB
          exact .inr ⟨cons_ne_nil _ _, rfl⟩
        · exact .inr ⟨cons_ne_nil _ _, hlo⟩
      · intro next' info' cl' T t hs ht
        obtain ⟨hb, hB0⟩ := forall_mem_cons.1 hs
        have htail := hall next' info' cl' T t hB0 ht
        have hhead : ∃ C, B0 ++ z :: T = b' :: C := by
          cases B0 with
          | nil =>
            obtain ⟨rfl, -⟩ := cons_eq_cons.1 hB
            exact ⟨T, rfl⟩
          | cons y B0 =>
            obtain ⟨rfl, -⟩ := cons_eq_cons.1 hB
            exact ⟨B0 ++ z :: T, rfl⟩
        obtain ⟨C, hC⟩ := hhead
        rw [hC] at htail
        rw [cons_append, hC]
        refine ⟨hcf, hlt, hb.1.trans hnx, l0 ++ t, ?_, htail⟩
        rw [append_assoc, hb.2.bytes_eq (by omega) (by omega)]

/-- Bytes are put into the last block. -/
theorem Chars.append {B0 : List ℕ} {bs : List UInt8} (hc : Chars w h next info cl cf (B0 ++ [b]) l)
    (hfit : cl + bs.length ≤ b + w) (hs : ∀ x ∈ B0, SameBlock w next next info info' x)
    (hold : SameOn info info' b cl) (hnew : bytes info' cl bs.length = bs) :
    Chars w h next info' (cl + bs.length) cf (B0 ++ [b]) (l ++ bs) := by
  obtain ⟨C0, z, lo, l0, hB, rfl, -, ⟨hlo, hlt, -, hnx, -⟩, hall⟩ := hc.last
  obtain ⟨rfl, hz⟩ := append_inj' hB rfl
  obtain rfl : b = z := (cons_eq_cons.1 hz).1
  rw [append_assoc]
  refine hall next info' _ [] _ hs ⟨hlo, by omega, hfit, hnx, ?_⟩
  have hspl := bytes_add info' lo (cl - lo) bs.length
  rw [hold.bytes_eq (c := lo) (n := cl - lo) (by omega) (by omega), Nat.add_sub_cancel' hlt.le,
    hnew] at hspl
  rw [← hspl]
  congr 1
  omega

/-- The last block is full, and bytes are put into another one that comes after it. -/
theorem Chars.extend {B0 : List ℕ} {bs : List UInt8} {f : ℕ}
    (hc : Chars w h next info (b + w) cf (B0 ++ [b]) l) (hbs : bs ≠ []) (hfit : h + bs.length ≤ w)
    (hs : ∀ x ∈ B0, SameBlock w next next' info info' x) (hold : SameOn info info' b (b + w))
    (hlink : next' b = f) (hnull : next' f = 0) (hnew : bytes info' (f + h) bs.length = bs) :
    Chars w h next' info' (f + h + bs.length) cf (B0 ++ [b] ++ [f]) (l ++ bs) := by
  obtain ⟨C0, z, lo, l0, hB, rfl, -, ⟨hlo, hlt, -, -, -⟩, hall⟩ := hc.last
  obtain ⟨rfl, hz⟩ := append_inj' hB rfl
  obtain rfl : b = z := (cons_eq_cons.1 hz).1
  have hpos := length_pos_of_ne_nil hbs
  rw [append_assoc, append_assoc]
  refine hall next' info' _ [f] _ hs ⟨hlo, hlt, hlink, bs, ?_, le_rfl, by omega, by omega, hnull, ?_⟩
  · rw [hold.bytes_eq (by omega) (by omega)]
  · rw [Nat.add_sub_cancel_left, hnew]

/-- The last block is taken off. -/
theorem Chars.chop (hc : Chars w h next info cl cf (B ++ [b]) l) (hB : B ≠ []) :
    ∃ B0 b0, B = B0 ++ [b0] ∧ next b0 = b ∧
      ∀ next' info', (∀ b ∈ B0, SameBlock w next next' info info' b) →
        next' b0 = 0 → SameOn info info' b0 (b0 + w) →
          ∃ l0, l = l0 ++ bytes info (b + h) (cl - (b + h)) ∧
            Chars w h next' info' (b0 + w) cf B l0 := by
  induction B generalizing cf l with
  | nil => exact absurd rfl hB
  | cons x B ih =>
    cases B with
    | nil =>
      obtain ⟨hcf, hlt, hnx, l', rfl, -, -, -, -, rfl⟩ := hc
      refine ⟨[], x, rfl, hnx, fun next' info' _ hzero hs => ⟨_, rfl, hcf, hlt, le_rfl, hzero, ?_⟩⟩
      exact (hs.bytes_eq (by omega) (by omega)).symm
    | cons y B =>
      obtain ⟨hcf, hlt, hnx, l', rfl, hl'⟩ := hc
      obtain ⟨B0, b0, hB0, hlast, hall⟩ := ih hl' (cons_ne_nil _ _)
      refine ⟨x :: B0, b0, by rw [hB0]; rfl, hlast, fun next' info' hs hzero hinfo => ?_⟩
      obtain ⟨hx, hs⟩ := forall_mem_cons.1 hs
      obtain ⟨l0, rfl, hl0⟩ := hall next' info' hs hzero hinfo
      refine ⟨bytes info cf (x + w - cf) ++ l0, by simp, hcf, hlt, hx.1.trans hnx, l0, ?_, hl0⟩
      rw [hx.2.bytes_eq (by omega) (by omega)]

end Uwisc.Lib.Blocks
