import Mathlib.Data.List.Nodup
import Uwisc.Lib.System
import Uwisc.Sys.Tty.Queue

/-!
# Runs over character lists

Any sequence of calls of the routines for clists, over any number of clists that share the free
list `cinit` makes. A clist stands for the characters `nextc` finds in it (`State.text`), and a
call has the meaning of its name on lists of characters (`Call.meaning`).

In every state a run reaches, each cblock is on the free list or on one clist (`Inv`), and a call
has its meaning (`Meets`) exactly if it is in order (`InOrder`). There are two ways it is not:

* `unputc` returns a character as a `char`, which is signed: from 128 on it is negative, where
  `getc` returns `& 0377` (`unputc_negative`);
* `catq` of a clist to itself goes round for ever (`catq_self`).
-/

namespace Uwisc.Tty

open Function Lib Lib.Blocks List Option

/-- A call, with the clists by number. -/
inductive Call
  | getc (i : ℕ)
  | qToB (i : ℕ) (cc : ℤ)
  | ndflush (i : ℕ) (cc : ℤ)
  | putc (ch : ℤ) (i : ℕ)
  | bToQ (cp : List UInt8) (i : ℕ)
  | unputc (i : ℕ)
  | catq (fromQ toQ : ℕ)

/-- What a call returns: a number, or the characters it copies. -/
inductive Ret
  | value (v : ℤ)
  | chars (cp : List UInt8)
  | void
  deriving DecidableEq

/-- The cblocks and the clists. -/
structure State where
  cblocks : Cblocks
  clists : ℕ → Clist

/-- The state after a call that changes the clist `i` only. -/
def State.set (s : State) (i : ℕ) (c : Cblocks) (p : Clist) : State :=
  ⟨c, update s.clists i p⟩

/-- A round of `catq` takes at least a character, so it has as many rounds as there are
    (see `catq_self` for when they do not suffice). -/
def exec (s : State) : Call → Option (Ret × State)
  | .getc i =>
    let (ch, c, p) := Tty.getc s.cblocks (s.clists i)
    some (.value ch, s.set i c p)
  | .qToB i cc =>
    (Tty.qToB s.cblocks (s.clists i) cc).map fun (cp, c, p) => (.chars cp, s.set i c p)
  | .ndflush i cc =>
    (Tty.ndflush s.cblocks (s.clists i) cc).map fun (c, p) => (.void, s.set i c p)
  | .putc ch i =>
    let (r, c, p) := Tty.putc ch s.cblocks (s.clists i)
    some (.value r, s.set i c p)
  | .bToQ cp i =>
    (Tty.bToQ cp s.cblocks (s.clists i)).map fun (r, c, p) => (.value r, s.set i c p)
  | .unputc i =>
    (Tty.unputc s.cblocks (s.clists i)).map fun (ch, c, p) => (.value ch, s.set i c p)
  | .catq fromQ toQ =>
    (Tty.catq fromQ toQ (s.clists fromQ).c_cc.toNat s.cblocks s.clists).map fun (c, q) =>
      (.void, ⟨c, q⟩)

/-- The runs, from `cinit` and with empty clists. -/
def system (cfree nclist : ℕ) : System State Call where
  init := {s | ∃ c, c.cfreelist = 0 ∧ c.cfreecount = 0 ∧
    s = ⟨cinit cfree nclist c, fun _ => ⟨0, 0, 0⟩⟩}
  step s call s' := ∃ r, exec s call = some (r, s')

/-! ### What a call means -/

/-- The characters from the address `cp` on. -/
def chars (c : Cblocks) (p : Clist) : ℕ → ℕ → List UInt8
  | 0, _ => []
  | n + 1, cp => c.c_info cp :: chars c p n (nextc c p cp)

/-- The characters of a clist. -/
def State.text (s : State) (i : ℕ) : List UInt8 :=
  chars s.cblocks (s.clists i) (s.clists i).c_cc.toNat (s.clists i).c_cf

/-- How many characters still fit on a clist: what is free, and what is left of its last
    cblock. -/
def State.room (s : State) (i : ℕ) : ℕ :=
  s.cblocks.cfreecount.toNat + if (s.clists i).c_cl % 64 = 0 then 0 else 64 - (s.clists i).c_cl % 64

/-- The meaning of a call on lists of characters `T`, where `rm` fit: what it returns, and the
    lists after it. -/
def Call.meaning (rm : ℕ → ℕ) (T : ℕ → List UInt8) : Call → Ret × (ℕ → List UInt8)
  | .getc i => (.value ((T i).head?.elim (-1) fun ch => ch.toNat), update T i (T i).tail)
  | .qToB i cc => (.chars ((T i).take cc.toNat), update T i ((T i).drop cc.toNat))
  | .ndflush i cc => (.void, update T i ((T i).drop cc.toNat))
  | .putc ch i =>
    if rm i = 0 then (.value (-1), T) else (.value 0, update T i (T i ++ [charOf ch]))
  | .bToQ cp i =>
    (.value (cp.length - min cp.length (rm i) : ℕ),
      update T i (T i ++ cp.take (min cp.length (rm i))))
  | .unputc i =>
    (.value ((T i).getLast?.elim (-1) fun ch => ch.toNat), update T i (T i).dropLast)
  | .catq fromQ toQ =>
    (.void, update (update T toQ (T toQ ++ T fromQ)) fromQ [])

/-- A call returns, with what it means and the lists it means. -/
def Meets (s : State) (call : Call) : Prop :=
  ∃ r s', exec s call = some (r, s') ∧ (r, s'.text) = call.meaning s.room s.text

/-- The last character of the clist is no negative `char`; the clists are not the same. -/
def InOrder (s : State) : Call → Prop
  | .unputc i => ∀ ch ∈ (s.text i).getLast?, ch < 128
  | .catq fromQ toQ => fromQ ≠ toQ ∨ s.text fromQ = []
  | _ => True

/-! ### Every cblock on one list -/

/-- The cblocks `all` are those of the free list `F` and of the clists, and each is on one of
    them only. The clists have the characters `L`. -/
structure Inv (all : List ℕ) (s : State) (F : List ℕ) (B : ℕ → List ℕ) (L : ℕ → List UInt8) :
    Prop where
  rep : ∀ i, Rep s.cblocks (s.clists i) F (B i) (L i)
  disjoint : ∀ i j, i ≠ j → (B i).Disjoint (B j)
  cover : ∀ b, b ∈ all ↔ b ∈ F ∨ ∃ i, b ∈ B i

variable {all F F' : List ℕ} {s : State} {B : ℕ → List ℕ} {B' : List ℕ} {L : ℕ → List UInt8}
  {c' : Cblocks} {q' : Clist} {l' : List UInt8} {i : ℕ}

/-- The characters `nextc` finds are those of the list. -/
theorem chars_eq {c : Cblocks} {p : Clist} {C : List ℕ} {cf : ℕ} {l : List UInt8}
    (hc : Chars 64 4 c.c_next c.c_info p.c_cl cf C l) (hcc : p.c_cc ≠ 0)
    (hnd : C.Nodup) (hali : ∀ b ∈ C, b % 64 = 0) : chars c p l.length cf = l := by
  induction l generalizing cf C with
  | nil => rfl
  | cons ch l ih =>
    obtain ⟨b, C', rfl, hcf, hlt⟩ := hc.head
    have hb := hali b mem_cons_self
    have hch : c.c_info cf = ch := by
      simpa [bytes, eq_comm] using hc.take (n := 1) (by simp) (by omega)
    rw [length_cons, chars, hch]
    congr 1
    by_cases hl : l = []
    · rw [hl]
      rfl
    have hlen := length_pos_of_ne_nil hl
    -- the end is in another cblock, or further on in this one
    have hend : cf + 1 ≠ p.c_cl := by
      obtain ⟨z, hz, hzl, hzr⟩ := hc.end_mem
      by_cases hC : C' = []
      · subst hC
        obtain ⟨-, -, hcl, -, heq⟩ := hc
        have := congrArg length heq
        rw [length_bytes, length_cons] at this
        omega
      · have hzC : z ∈ C' := by
          obtain ⟨y, C, rfl⟩ := exists_cons_of_ne_nil hC
          rw [getLast?_cons_cons] at hz
          exact mem_of_getLast? hz
        have hzb : z ≠ b := by
          rintro rfl
          exact (nodup_cons.1 hnd).1 hzC
        have := hali z (mem_cons_of_mem _ hzC)
        omega
    rw [nextc, if_pos ⟨hcc, hend⟩]
    by_cases hfull : (cf + 1) % 64 = 0
    · obtain ⟨b', C, rfl, hnx, htail⟩ := hc.drop_block (n := 1) (by simpa using hlen) (by omega)
      rw [if_pos hfull, show cf + 1 - 64 = b by omega, hnx]
      exact ih htail (nodup_cons.1 hnd).2 fun x hx => hali x (mem_cons_of_mem _ hx)
    · rw [if_neg hfull]
      exact ih (hc.drop_within (n := 1) (by simpa using hlen) (by omega)) hnd hali

theorem Inv.text (h : Inv all s F B L) : s.text = L := by
  funext i
  have hrep := h.rep i
  rcases hrep.queue with ⟨-, hL, hq⟩ | ⟨hc, hcc⟩
  · rw [State.text, hq, hL]
    rfl
  · have hlen := length_pos_of_ne_nil hc.ne_nil
    rw [State.text, hcc, Int.toNat_natCast]
    exact chars_eq hc (by omega) (nodup_append.1 hrep.nodup).2.1 fun b hb =>
      (hrep.aligned b (mem_append_right _ hb)).1

theorem Inv.room (h : Inv all s F B L) (i : ℕ) : s.room i = Tty.room F (s.clists i).c_cl := by
  have hcnt : s.cblocks.cfreecount.toNat = 60 * F.length := by
    rw [(h.rep i).count]
    omega
  rw [State.room, Tty.room, hcnt]

/-- A call that keeps to the free list and a clist leaves the others as they are. -/
theorem Inv.set (h : Inv all s F B L) (hrep : Rep c' q' F' B' l')
    (hch : Changes s.cblocks c' F (B i) F' B') :
    Inv all (s.set i c' q') F' (update B i B') (update L i l') := by
  have hmem : ∀ b, b ∈ F' ∨ b ∈ B' ↔ b ∈ F ∨ b ∈ B i := fun b => by
    rw [← mem_append, ← mem_append]
    exact hch.perm.mem_iff
  refine ⟨fun j => ?_, fun j k hjk => ?_, fun b => ?_⟩
  · by_cases hj : j = i
    · subst hj
      simpa [State.set] using hrep
    · obtain ⟨hnd, hali, hfree, hcnt, hq⟩ := h.rep j
      have hoth : ∀ b ∈ B j, b ∉ F ++ B i := fun b hb hmem => by
        rcases mem_append.1 hmem with hF | hB
        · exact (nodup_append.1 hnd).2.2 b hF b hb rfl
        · exact h.disjoint j i hj hb hB
      have hsame : ∀ b ∈ B j, SameBlock 64 s.cblocks.c_next c'.c_next s.cblocks.c_info c'.c_info b :=
        fun b hb => hch.frame b (hali b (mem_append_right _ hb)).1 (hoth b hb)
      simp only [State.set, update_of_ne hj]
      refine ⟨nodup_append.2 ⟨(nodup_append.1 hrep.nodup).1,
        (nodup_append.1 hnd).2.1, ?_⟩, fun b hb => ?_, hrep.free, hrep.count, ?_⟩
      · rintro b hF x hB rfl
        exact hoth b hB (mem_append.2 ((hmem b).1 (.inl hF)))
      · rcases mem_append.1 hb with hF | hB
        · exact hrep.aligned b (mem_append_left _ hF)
        · exact hali b (mem_append_right _ hB)
      · exact hq.imp_right fun hq => ⟨hq.1.congr hsame, hq.2⟩
  · have hoth : ∀ j, j ≠ i → B'.Disjoint (B j) := fun j hj b hB hBj => by
      rcases (hmem b).1 (.inr hB) with hF | hBi
      · exact (nodup_append.1 (h.rep j).nodup).2.2 b hF b hBj rfl
      · exact h.disjoint i j (Ne.symm hj) hBi hBj
    by_cases hj : j = i
    · subst hj
      rw [update_self, update_of_ne (Ne.symm hjk)]
      exact hoth k (Ne.symm hjk)
    · rw [update_of_ne hj]
      by_cases hk : k = i
      · subst hk
        rw [update_self]
        exact fun b hBj hB => hoth j hj hB hBj
      · rw [update_of_ne hk]
        exact h.disjoint j k hjk
  · rw [h.cover b]
    constructor
    · rintro (hF | ⟨j, hj⟩)
      · exact ((hmem b).2 (.inl hF)).imp_right fun hB => ⟨i, by rwa [update_self]⟩
      · by_cases hji : j = i
        · subst hji
          exact ((hmem b).2 (.inr hj)).imp_right fun hB => ⟨j, by rwa [update_self]⟩
        · exact .inr ⟨j, by rwa [update_of_ne hji]⟩
    · rintro (hF | ⟨j, hj⟩)
      · exact ((hmem b).1 (.inl hF)).imp_right fun hB => ⟨i, hB⟩
      · by_cases hji : j = i
        · subst hji
          rw [update_self] at hj
          exact ((hmem b).1 (.inr hj)).imp_right fun hB => ⟨j, hB⟩
        · exact .inr ⟨j, by rwa [update_of_ne hji] at hj⟩

/-! ### Concatenation -/

variable {fromQ toQ : ℕ}

/-- The lists after a round of `catq`. -/
def catqRound (fromQ toQ : ℕ) (L : ℕ → List UInt8) : ℕ → List UInt8 :=
  let L' := update L fromQ ((L fromQ).drop 240)
  update L' toQ (L' toQ ++ (L fromQ).take 240)

/-- A round of `catq` releases enough for what it copies, so that nothing is lost. -/
theorem Inv.catqRound (h : Inv all s F B L) (fromQ toQ : ℕ) :
    ∃ c1 p1 r c2 p2 F2 B2, qToB s.cblocks (s.clists fromQ) 240 = some ((L fromQ).take 240, c1, p1) ∧
      bToQ ((L fromQ).take 240) c1 (update s.clists fromQ p1 toQ) = some (r, c2, p2) ∧
      Inv all ((s.set fromQ c1 p1).set toQ c2 p2) F2 B2 (catqRound fromQ toQ L) := by
  obtain ⟨c1, p1, F1, B1, hq, hrep1, hch1, hF1⟩ := qToB_spec (h.rep fromQ) 240
  have h1 := h.set hrep1 hch1
  obtain ⟨k, c2, p2, F2, B2, hb, hrep2, hch2, hk⟩ := bToQ_spec (h1.rep toQ) ((L fromQ).take 240)
  have hroom : ((L fromQ).take 240).length ≤ Tty.room F1 ((s.set fromQ c1 p1).clists toQ).c_cl := by
    have hle : 60 * F1.length ≤ Tty.room F1 ((s.set fromQ c1 p1).clists toQ).c_cl := Nat.le_add_right _ _
    rw [length_take]
    rcases hF1 with rfl | hF1
    · -- the clist is empty now, and all of its cblocks are free
      have hperm := hch1.perm.length_eq
      have hfits : (L fromQ).length ≤ 60 * (B fromQ).length := by
        rcases (h.rep fromQ).queue with ⟨-, hL, -⟩ | ⟨hc, -⟩
        · rw [hL]
          exact Nat.zero_le _
        · exact hc.le_length
      simp only [length_append, length_nil] at hperm
      omega
    · have : (240 : ℤ).toNat = 240 := rfl
      omega
  rw [min_eq_left hroom] at hk
  subst hk
  rw [take_length] at hrep2
  exact ⟨c1, p1, _, c2, p2, F2, _, hq, hb, h1.set hrep2 hch2⟩

/-- The loop of `catq` takes a round while the clist has characters. -/
theorem Inv.catqLoop_succ (h : Inv all s F B L) (hL : L fromQ ≠ []) (toQ : ℕ) :
    ∃ s' F' B', Inv all s' F' B' (Tty.catqRound fromQ toQ L) ∧ ∀ fuel,
      catqLoop fromQ toQ (fuel + 1) s.cblocks s.clists = catqLoop fromQ toQ fuel s'.cblocks s'.clists := by
  obtain ⟨c1, p1, r, c2, p2, F2, B2, hq, hb, hinv⟩ := h.catqRound fromQ toQ
  refine ⟨_, F2, B2, hinv, fun fuel => ?_⟩
  obtain ⟨-, -, -, -, -, -, -, hcc, -⟩ := (h.rep fromQ).front hL
  have hlen := length_pos_of_ne_nil hL
  rw [catqLoop, if_neg (by omega)]
  simp only [hq, hb, bind_eq_bind, bind_some]
  rfl

/-- `catq` of a clist with characters to itself does not return. -/
theorem catq_self (h : Inv all s F B L) (hL : L i ≠ []) (fuel : ℕ) :
    catq i i fuel s.cblocks s.clists = none := by
  obtain ⟨-, -, -, -, -, -, -, hcc, -⟩ := (h.rep i).front hL
  have hlen := length_pos_of_ne_nil hL
  rw [catq, if_neg (by omega)]
  induction fuel generalizing s F B L with
  | zero => rw [catqLoop, if_neg (by omega)]
  | succ fuel ih =>
    obtain ⟨s', F', B', hinv, hloop⟩ := h.catqLoop_succ hL i
    have hlen' : (catqRound i i L i).length = (L i).length := by
      simp [catqRound]
      omega
    have hL' : catqRound i i L i ≠ [] := ne_nil_of_length_pos (by omega)
    obtain ⟨-, -, -, -, -, -, -, hcc', -⟩ := (hinv.rep i).front hL'
    rw [hloop]
    exact ih hinv hL' hcc' (by omega)

theorem catqLoop_spec (hne : fromQ ≠ toQ) {fuel : ℕ} (h : Inv all s F B L)
    (hfuel : (L fromQ).length ≤ fuel) :
    ∃ c' q' F' B', catqLoop fromQ toQ fuel s.cblocks s.clists = some (c', q') ∧
      Inv all ⟨c', q'⟩ F' B' (update (update L toQ (L toQ ++ L fromQ)) fromQ []) := by
  induction fuel generalizing s F B L with
  | zero =>
    have hL : L fromQ = [] := eq_nil_of_length_eq_zero (by omega)
    have hcc := (h.rep fromQ).nil_iff.1 hL
    refine ⟨_, _, F, B, by rw [catqLoop, if_pos hcc.le], ?_⟩
    rw [hL, append_nil, update_eq_self, ← hL, update_eq_self]
    exact h
  | succ fuel ih =>
    by_cases hL : L fromQ = []
    · have hcc := (h.rep fromQ).nil_iff.1 hL
      refine ⟨_, _, F, B, by rw [catqLoop, if_pos hcc.le], ?_⟩
      rw [hL, append_nil, update_eq_self, ← hL, update_eq_self]
      exact h
    · obtain ⟨s', F', B', hinv, hloop⟩ := h.catqLoop_succ hL toQ
      have hfrom : catqRound fromQ toQ L fromQ = (L fromQ).drop 240 := by
        simp [catqRound, update_of_ne hne]
      have hto : catqRound fromQ toQ L toQ = L toQ ++ (L fromQ).take 240 := by
        simp [catqRound, update_of_ne hne.symm]
      have hlen := length_pos_of_ne_nil hL
      obtain ⟨c', q', F'', B'', heq, hinv'⟩ := ih hinv (by rw [hfrom, length_drop]; omega)
      refine ⟨c', q', F'', B'', (hloop fuel).trans heq, ?_⟩
      rw [hfrom, hto, append_assoc, take_append_drop] at hinv'
      have hlists : update (update (Tty.catqRound fromQ toQ L) toQ
          (L toQ ++ L fromQ)) fromQ [] = update (update L toQ (L toQ ++ L fromQ)) fromQ [] := by
        funext j
        by_cases hj : j = fromQ
        · rw [hj, update_self, update_self]
        · rw [update_of_ne hj, update_of_ne hj]
          by_cases hj' : j = toQ
          · rw [hj', update_self, update_self]
          · rw [update_of_ne hj', update_of_ne hj']
            simp [Tty.catqRound, update_of_ne hj', update_of_ne hj]
      rwa [hlists] at hinv'

theorem Inv.empty (h : Inv all s F B L) : Rep s.cblocks ⟨0, 0, 0⟩ F [] [] := by
  obtain ⟨hnd, hali, hfree, hcnt, -⟩ := h.rep 0
  refine ⟨?_, fun b hb => hali b ?_, hfree, hcnt, .inl ⟨rfl, rfl, rfl⟩⟩
  · rw [append_nil]
    exact (nodup_append.1 hnd).1
  · rw [append_nil] at hb
    exact mem_append_left _ hb

/-- A clist is copied to one that is empty, and is empty then. -/
theorem Inv.move (h : Inv all s F B L) (hL : L toQ = []) :
    Inv all ⟨s.cblocks, update (update s.clists toQ (s.clists fromQ)) fromQ ⟨0, 0, 0⟩⟩
      F (update (update B toQ (B fromQ)) fromQ [])
      (update (update L toQ (L fromQ)) fromQ []) := by
  have hB : B toQ = [] := by
    have hrep := h.rep toQ
    rw [hL] at hrep
    exact hrep.eq_nil.1
  -- the cblocks of a clist after this, by the clist that had them
  have howner : ∀ j, update (update B toQ (B fromQ)) fromQ [] j = [] ∨
      update (update B toQ (B fromQ)) fromQ [] j = B (if j = toQ then fromQ else j) := fun j => by
    by_cases hj : j = fromQ
    · exact .inl (by rw [hj, update_self])
    · rw [update_of_ne hj]
      split_ifs with hj'
      · exact .inr (by rw [hj', update_self])
      · exact .inr (update_of_ne hj' _ _)
  refine ⟨fun j => ?_, fun j k hjk => ?_, fun b => ?_⟩
  · dsimp only
    by_cases hj : j = fromQ
    · rw [hj]
      simpa only [update_self] using h.empty
    · simp only [update_of_ne hj]
      by_cases hj' : j = toQ
      · rw [hj']
        simpa only [update_self] using h.rep fromQ
      · simpa only [update_of_ne hj'] using h.rep j
  · intro b hb hb'
    by_cases hj : j = fromQ
    · rw [hj, update_self] at hb
      exact not_mem_nil hb
    by_cases hk : k = fromQ
    · rw [hk, update_self] at hb'
      exact not_mem_nil hb'
    rcases howner j with hj' | hj'
    · rw [hj'] at hb
      exact not_mem_nil hb
    rcases howner k with hk' | hk'
    · rw [hk'] at hb'
      exact not_mem_nil hb'
    rw [hj'] at hb
    rw [hk'] at hb'
    refine h.disjoint _ _ ?_ hb hb'
    split_ifs with h1 h2 h2
    · exact fun _ => hjk (h1.trans h2.symm)
    · exact fun heq => hk heq.symm
    · exact hj
    · exact hjk
  · rw [h.cover b]
    refine or_congr_right ⟨fun ⟨j, hj⟩ => ?_, fun ⟨j, hj⟩ => ?_⟩
    · have hjt : j ≠ toQ := by
        rintro rfl
        rw [hB] at hj
        exact not_mem_nil hj
      by_cases hjf : j = fromQ
      · subst hjf
        exact ⟨toQ, by rwa [update_of_ne (Ne.symm hjt), update_self]⟩
      · exact ⟨j, by rwa [update_of_ne hjf, update_of_ne hjt]⟩
    · rcases howner j with hj' | hj'
      · rw [hj'] at hj
        exact absurd hj not_mem_nil
      · exact ⟨_, hj' ▸ hj⟩

theorem catq_spec (h : Inv all s F B L) (hne : fromQ ≠ toQ ∨ L fromQ = []) :
    ∃ c' q' F' B', catq fromQ toQ (s.clists fromQ).c_cc.toNat s.cblocks s.clists = some (c', q') ∧
      Inv all ⟨c', q'⟩ F' B' (update (update L toQ (L toQ ++ L fromQ)) fromQ []) := by
  rw [catq]
  split_ifs with hcc
  · have hL := (h.rep toQ).nil_iff.2 hcc
    rw [hL, nil_append]
    exact ⟨_, _, _, _, rfl, h.move hL⟩
  · have hne' : fromQ ≠ toQ := by
      rcases hne with hne | hL
      · exact hne
      · rintro rfl
        exact hcc ((h.rep fromQ).nil_iff.1 hL)
    refine catqLoop_spec hne' h ?_
    rcases (h.rep fromQ).queue with ⟨-, hL, -⟩ | ⟨-, hcc⟩
    · rw [hL]
      exact Nat.zero_le _
    · rw [hcc, Int.toNat_natCast]

/-! ### Every call -/

/-- `cinit` puts every cblock on the free list. -/
theorem Inv.init {cfree : ℕ} (nclist : ℕ) (hpos : 0 < cfree) {c : Cblocks} (hlist : c.cfreelist = 0)
    (hcnt : c.cfreecount = 0) :
    ∃ F, Inv (cblocks cfree nclist) ⟨cinit cfree nclist c, fun _ => ⟨0, 0, 0⟩⟩ F (fun _ => [])
      fun _ => [] := by
  have hfold : ∀ {l F : List ℕ} {c : Cblocks}, (l ++ F).Nodup → (∀ b ∈ l, b % 64 = 0 ∧ 0 < b) →
      Rep c ⟨0, 0, 0⟩ F [] [] → ∃ F', (∀ b, b ∈ F' ↔ b ∈ l ∨ b ∈ F) ∧
        Rep (l.foldl Cblocks.release c) ⟨0, 0, 0⟩ F' [] [] := by
    intro l
    induction l with
    | nil => exact fun {F _} _ _ h => ⟨F, fun b => by simp, h⟩
    | cons x l ih =>
      intro F c hnd hali h
      have hperm : (l ++ x :: F).Perm (x :: l ++ F) := perm_middle
      obtain ⟨hx, hl⟩ := forall_mem_cons.1 hali
      have hxF : x ∉ F := fun hF =>
        (nodup_append.1 hnd).2.2 x mem_cons_self x hF rfl
      have hF : F.Nodup := (nodup_append.1 hnd).2.1
      have hrep : Rep (c.release x) ⟨0, 0, 0⟩ (x :: F) [] [] := by
        refine ⟨?_, fun b hb => ?_, h.free.release hxF, ?_, .inl ⟨rfl, rfl, rfl⟩⟩
        · rw [append_nil]
          exact nodup_cons.2 ⟨hxF, hF⟩
        · rw [append_nil] at hb
          rcases mem_cons.1 hb with rfl | hb
          · exact hx
          · exact h.aligned b (mem_append_left _ hb)
        · simp only [Cblocks.release, h.count, length_cons]
          omega
      obtain ⟨F', hmem, hrep'⟩ := ih (hperm.nodup_iff.2 hnd) hl hrep
      refine ⟨F', fun b => ?_, hrep'⟩
      rw [hmem b, mem_cons, mem_cons]
      tauto
  have hst : Rep c ⟨0, 0, 0⟩ [] [] [] :=
    ⟨nodup_nil, fun _ hb => absurd hb not_mem_nil, hlist, hcnt, .inl ⟨rfl, rfl, rfl⟩⟩
  have hnd : (cblocks cfree nclist ++ []).Nodup := by
    rw [append_nil]
    refine List.Nodup.map (fun i j hij => ?_) nodup_range
    omega
  have hali : ∀ b ∈ cblocks cfree nclist, b % 64 = 0 ∧ 0 < b := by
    intro b hb
    obtain ⟨i, -, rfl⟩ := List.mem_map.1 hb
    omega
  obtain ⟨F, hmem, hrep⟩ := hfold hnd hali hst
  refine ⟨F, fun _ => hrep, fun _ _ _ b hb => absurd hb not_mem_nil, fun b => ?_⟩
  rw [hmem b]
  simp

/-- A `char` is negative from 128 on. -/
theorem wrap_toNat (ch : UInt8) : wrap 8 ch.toNat = (ch.toNat : ℤ) ↔ ch < 128 := by
  have hlt := ch.toNat_lt
  have hch : ch < 128 ↔ ch.toNat < 128 := UInt8.lt_iff_toNat_lt
  rw [hch]
  constructor
  · intro heq
    have := wrap_inRange 8 ch.toNat
    rw [heq, InRange] at this
    omega
  · intro h
    exact wrap_of_mem ⟨by omega, by omega⟩

/-- What a call does: it does not return, or it returns with the lists that it means, and what
    it returns is what it means if it is in order. -/
theorem Inv.exec (h : Inv all s F B L) (call : Call) :
    exec s call = none ∧ ¬InOrder s call ∨
    ∃ r s' F' B', exec s call = some (r, s') ∧ Inv all s' F' B' (call.meaning s.room L).2 ∧
      (r = (call.meaning s.room L).1 ↔ InOrder s call) := by
  have hself : ∀ i, update L i (L i) = L := fun i => update_eq_self i L
  cases call with
  | getc i =>
    cases hL : L i with
    | nil =>
      have hrep := h.rep i
      rw [hL] at hrep
      have hset : s.set i s.cblocks (s.clists i) = s := by rw [State.set, update_eq_self]
      refine .inr ⟨.value (-1), s, F, B, ?_, ?_, iff_of_true ?_ trivial⟩
      · rw [Tty.exec, getc_nil hrep]
        dsimp only
        rw [hset]
      · rw [Call.meaning, hL, tail_nil, ← hL, hself]
        exact h
      · rw [Call.meaning, hL]
        rfl
    | cons ch l =>
      have hrep := h.rep i
      rw [hL] at hrep
      obtain ⟨c', q', F', B', heq, hrep', hch⟩ := getc_spec hrep
      refine .inr ⟨.value ch.toNat, s.set i c' q', F', update B i B', ?_, ?_,
        iff_of_true ?_ trivial⟩
      · rw [Tty.exec, heq]
      · rw [Call.meaning, hL, tail_cons]
        exact h.set hrep' hch
      · rw [Call.meaning, hL]
        rfl
  | qToB i cc =>
    obtain ⟨c', q', F', B', heq, hrep, hch, -⟩ := qToB_spec (h.rep i) cc
    refine .inr ⟨_, _, F', _, ?_, h.set hrep hch, iff_of_true rfl trivial⟩
    rw [Tty.exec, heq]
    rfl
  | ndflush i cc =>
    obtain ⟨c', q', F', B', heq, hrep, hch⟩ := ndflush_spec (h.rep i) cc
    refine .inr ⟨_, _, F', _, ?_, h.set hrep hch, iff_of_true rfl trivial⟩
    rw [Tty.exec, heq]
    rfl
  | putc ch i =>
    rw [Call.meaning, h.room i]
    rcases putc_spec (h.rep i) ch with ⟨hroom, heq⟩ | ⟨hroom, c', q', F', B', heq, hrep, hch⟩
    · have hset : s.set i s.cblocks (s.clists i) = s := by rw [State.set, update_eq_self]
      rw [if_pos hroom]
      refine .inr ⟨_, s, F, B, ?_, h, iff_of_true rfl trivial⟩
      rw [Tty.exec, heq]
      dsimp only
      rw [hset]
    · rw [if_neg hroom]
      refine .inr ⟨_, _, F', _, ?_, h.set hrep hch, iff_of_true rfl trivial⟩
      rw [Tty.exec, heq]
  | bToQ cp i =>
    obtain ⟨k, c', q', F', B', heq, hrep, hch, rfl⟩ := bToQ_spec (h.rep i) cp
    rw [Call.meaning, h.room i]
    refine .inr ⟨_, _, F', _, ?_, h.set hrep hch, iff_of_true rfl trivial⟩
    rw [Tty.exec, heq]
    rfl
  | unputc i =>
    rw [InOrder, h.text, Call.meaning]
    rcases eq_nil_or_concat (L i) with hL | ⟨l, ch, hL⟩
    · have hrep := h.rep i
      rw [hL] at hrep
      have hset : s.set i s.cblocks (s.clists i) = s := by rw [State.set, update_eq_self]
      refine .inr ⟨.value (-1), s, F, B, ?_, ?_, iff_of_true ?_ ?_⟩
      · rw [Tty.exec, unputc_nil hrep, map_some]
        dsimp only
        rw [hset]
      · rw [hL, dropLast_nil, ← hL, hself]
        exact h
      · rw [hL]
        rfl
      · intro ch hch
        rw [hL] at hch
        exact nomatch hch
    · rw [concat_eq_append] at hL
      have hrep := h.rep i
      rw [hL] at hrep
      obtain ⟨c', q', F', B', heq, hrep', hch⟩ := unputc_spec hrep
      refine .inr ⟨.value (wrap 8 ch.toNat), s.set i c' q', F', update B i B', ?_, ?_, ?_⟩
      · rw [Tty.exec, heq]
        rfl
      · rw [hL, dropLast_concat]
        exact h.set hrep' hch
      · rw [hL, getLast?_concat]
        simp only [elim_some, Ret.value.injEq, wrap_toNat, mem_def, some.injEq, forall_eq']
  | catq fromQ toQ =>
    rw [InOrder, h.text, Call.meaning]
    by_cases hne : fromQ ≠ toQ ∨ L fromQ = []
    · obtain ⟨c', q', F', B', heq, hinv⟩ := catq_spec h hne
      refine .inr ⟨_, _, F', B', ?_, hinv, iff_of_true rfl hne⟩
      rw [Tty.exec, heq]
      rfl
    · obtain ⟨heq, hL⟩ := not_or.1 hne
      obtain rfl := not_not.1 heq
      refine .inl ⟨?_, hne⟩
      rw [Tty.exec, catq_self h hL]
      rfl

theorem inv_of_reachable {cfree nclist : ℕ} (hpos : 0 < cfree)
    (hs : (system cfree nclist).Reachable s) : ∃ F B L, Inv (cblocks cfree nclist) s F B L := by
  refine System.Reachable.invariant (S := system cfree nclist)
    (I := fun s => ∃ F B L, Inv (cblocks cfree nclist) s F B L) (fun s hs => ?_)
    (fun s call s' ⟨F, B, L, h⟩ ⟨r, hr⟩ => ?_) hs
  · obtain ⟨c, hlist, hcnt, rfl⟩ := hs
    obtain ⟨F, h⟩ := Inv.init nclist hpos hlist hcnt
    exact ⟨F, _, _, h⟩
  · rcases h.exec call with ⟨hnone, -⟩ | ⟨r', s'', F', B', heq, h', -⟩
    · exact nomatch hr.symm.trans hnone
    · obtain ⟨-, rfl⟩ := Prod.mk.inj (some.inj (hr.symm.trans heq))
      exact ⟨F', B', _, h'⟩

/-- A call has its meaning exactly if it is in order. -/
theorem Inv.meets_iff (h : Inv all s F B L) (call : Call) : Meets s call ↔ InOrder s call := by
  have htext := h.text
  rcases h.exec call with ⟨hnone, hnot⟩ | ⟨r, s', F', B', heq, h', hret⟩
  · refine iff_of_false (fun ⟨r, s', hr, _⟩ => ?_) hnot
    exact nomatch hr.symm.trans hnone
  · rw [← hret]
    constructor
    · rintro ⟨r', s'', heq', hmeans⟩
      obtain ⟨rfl, rfl⟩ := Prod.mk.inj (some.inj (heq.symm.trans heq'))
      rw [htext] at hmeans
      exact congrArg Prod.fst hmeans
    · intro hr
      refine ⟨r, s', heq, ?_⟩
      rw [htext, hr, h'.text]

/-- The length of a clist is in `c_cc`. -/
theorem Inv.c_cc (h : Inv all s F B L) (i : ℕ) : (s.clists i).c_cc = (L i).length := by
  rcases (h.rep i).queue with ⟨-, hL, hq⟩ | ⟨-, hcc⟩
  · rw [hL, hq]
    rfl
  · exact hcc

/-- In every run the cblocks are on one list each, and a call has its meaning exactly if it is in
    order. -/
theorem clist_sound {cfree nclist : ℕ} (hpos : 0 < cfree) (hs : (system cfree nclist).Reachable s) :
    (∃ F B, Inv (cblocks cfree nclist) s F B s.text) ∧ (∀ i, (s.clists i).c_cc = (s.text i).length) ∧
      ∀ call, Meets s call ↔ InOrder s call := by
  obtain ⟨F, B, L, h⟩ := inv_of_reachable hpos hs
  have htext := h.text
  exact ⟨⟨F, B, htext ▸ h⟩, fun i => htext ▸ h.c_cc i, h.meets_iff⟩

/-- A character put on a clist, with one cblock. -/
def oneChar (ch : ℤ) : State :=
  let c : Cblocks := cinit 64 2 ⟨fun _ => 0, fun _ => 0, 0, 0⟩
  let r := putc ch c ⟨0, 0, 0⟩
  ⟨r.2.1, update (fun _ => ⟨0, 0, 0⟩) 0 r.2.2⟩

theorem reachable_oneChar (ch : ℤ) : (system 64 2).Reachable (oneChar ch) :=
  .step (a := .putc ch 0) (.init ⟨_, rfl, rfl, rfl⟩) ⟨_, rfl⟩

/-- A character below 128 is put on a clist, and taken off its end. -/
theorem clist_sound_oneChar : ((oneChar 65).clists 0).c_cc = ((oneChar 65).text 0).length ∧
    Meets (oneChar 65) (.unputc 0) := by
  have h := clist_sound (by decide) (reachable_oneChar 65)
  refine ⟨h.2.1 0, (h.2.2 (.unputc 0)).2 fun ch hch => ?_⟩
  have htext : (oneChar 65).text 0 = [65] := by decide
  rw [htext] at hch
  obtain rfl : 65 = ch := some.inj hch
  decide

/-- `unputc` returns the character 255 as `-1`. -/
theorem unputc_negative : ¬∀ s, (system 64 2).Reachable s → ∀ call, Meets s call := by
  intro h
  have hs := reachable_oneChar 255
  obtain ⟨F, B, L, hinv⟩ := inv_of_reachable (by decide) hs
  have hin := (hinv.meets_iff (.unputc 0)).1 (h _ hs (.unputc 0))
  have htext : (oneChar 255).text 0 = [255] := by decide
  have hlt : (255 : UInt8) < 128 := hin 255 (by rw [htext]; rfl)
  exact absurd hlt (by decide)

end Uwisc.Tty
