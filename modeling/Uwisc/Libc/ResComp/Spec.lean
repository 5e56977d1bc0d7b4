import Uwisc.Lib.Escape
import Uwisc.Libc.ResComp

/-!
# Names in a message

A name stands in a message (`Stands`) if its labels are read there, through pointers. `dn_skip` and
`dn_expand` say what stands there (`Stands.skip`, `Stands.expand`). `dn_find` takes a `'.'` in a label
for a separator, so that what it finds divides into the pieces of the text (`findName_spec`). What
`dn_comp` writes stands where it was written, if this makes no difference (`compLoop_spec`).
-/

namespace Uwisc.ResComp

open Function Lib List Nat Option

/-- The labels `L` stand at `p` of a message that ends at `e`, in `k` bytes there. -/
inductive Stands (msg : Mem) (e : ℕ) : ℕ → ℕ → List (List UInt8) → Prop
  | root {p : ℕ} : p < e → msg p = 0 → Stands msg e p 1 []
  | label {p k : ℕ} {l : List UInt8} {L : List (List UInt8)} : l ≠ [] → l.length ≤ MAXLABEL →
      msg p = UInt8.ofNat l.length → bytes msg (p + 1) l.length = l →
      Stands msg e (p + 1 + l.length) k L → Stands msg e p (1 + l.length + k) (l :: L)
  | pointer {p q k : ℕ} {L : List (List UInt8)} : p + 1 < e → msg p &&& INDIR_MASK = INDIR_MASK →
      indirect msg (msg p) (p + 1) = q → q < e → Stands msg e q k L → Stands msg e p 2 L

/-- A label has no escape character, and no NUL. -/
def Plain (l : List UInt8) : Prop := BACKSLASH ∉ l ∧ 0 ∉ l

/-- The labels `L` divide into the pieces `T` of a text, which may end in a separator. -/
inductive Divides : List (List UInt8) → List (List UInt8) → Prop
  | nil : Divides [] [[]]
  | last {T : List (List UInt8)} : T ≠ [] → Divides [glue DOT T] T
  | cons {T T' L : List (List UInt8)} : T ≠ [] → Divides L T' → Divides (glue DOT T :: L) (T ++ T')

/-- Labels that have no escape character stand at `p`. -/
def Leads (msg : Mem) (e p : ℕ) : Prop := ∃ k L, Stands msg e p k L ∧ ∀ l ∈ L, Plain l

/-- What `dn_find` takes for the rest of a text with the pieces `P` is the rest of it, and a pointer
    can lead to it. -/
def Told (P : List (List UInt8)) (p : ℕ) (L : List (List UInt8)) : Prop :=
  L ≠ [] → ∀ T, T <:+ P → Divides L T → trim T = L ∧ p < 2 ^ 14

/-- The pieces of the text of a name. -/
abbrev piecesOf (exp_dn : List UInt8) : List (List UInt8) := pieces DOT BACKSLASH exp_dn

/-- The labels of the text of a name. -/
abbrev labelsOf (exp_dn : List UInt8) : List (List UInt8) := labels DOT BACKSLASH exp_dn

variable {msg msg' : Mem} {e e' p q k n cp eob length : ℕ} {l dn : List UInt8} {L T : List (List UInt8)}

theorem backslash_ne_dot : BACKSLASH ≠ DOT := by decide

/-! ### What stands in a message -/

theorem Stands.lt (h : Stands msg e p k L) : p < e := by
  induction h with
  | root hp => exact hp
  | label _ _ _ _ _ ih => omega
  | pointer hp => omega

/-- What stands in a message still does when something is added. -/
theorem Stands.congr (h : Stands msg e p k L) (hsame : SameOn msg msg' 0 e) (he : e ≤ e') :
    Stands msg' e' p k L := by
  induction h with
  | root hp hmsg => exact .root (hp.trans_le he) ((hsame _ (Nat.zero_le _) hp).trans hmsg)
  | label hl hmax hlen hbyt h ih =>
    have hp := h.lt
    exact .label hl hmax ((hsame _ (Nat.zero_le _) (by omega)).trans hlen)
      ((hsame.bytes_eq (Nat.zero_le _) hp.le).trans hbyt) ih
  | pointer hp hmask hq hlt _ ih =>
    have hfst := hsame _ (Nat.zero_le _) (lt_of_succ_lt hp)
    have hsec := hsame _ (Nat.zero_le _) hp
    refine .pointer (hp.trans_le he) (by rwa [hfst]) ?_ (hlt.trans_le he) ih
    rw [indirect, hfst, hsec]
    exact hq

/-- The byte with the length of a label. -/
theorem ofNat_length (hn : 0 < n) (hmax : n ≤ MAXLABEL) : (UInt8.ofNat n).toNat = n ∧
    UInt8.ofNat n ≠ 0 ∧ UInt8.ofNat n &&& INDIR_MASK = 0 := by
  have h : ∀ n < 64, 0 < n → (UInt8.ofNat n).toNat = n ∧ UInt8.ofNat n ≠ 0 ∧
      UInt8.ofNat n &&& INDIR_MASK = 0 := by decide
  exact h n (lt_succ_of_le hmax) hn

/-- A byte of a pointer. -/
theorem pointer_ne_zero {n : UInt8} (h : n &&& INDIR_MASK = INDIR_MASK) :
    n ≠ 0 ∧ n &&& INDIR_MASK ≠ 0 := by
  constructor
  · rintro rfl
    exact absurd h (by decide)
  · rw [h]
    decide

theorem Stands.skip (h : Stands msg e p k L) :
    ∃ F, ∀ fuel ≥ F, skipLoop msg fuel p = some (some (p + k)) := by
  induction h with
  | root _ hmsg =>
    refine ⟨1, fun fuel hfuel => ?_⟩
    obtain ⟨fuel, rfl⟩ := Nat.exists_eq_add_of_le' hfuel
    rw [skipLoop, if_pos hmsg]
  | @label p k l L hl hmax hlen hbyt h ih =>
    obtain ⟨hn, hne, hmask⟩ := ofNat_length (length_pos_iff.2 hl) hmax
    obtain ⟨F, hF⟩ := ih
    refine ⟨F + 1, fun fuel hfuel => ?_⟩
    obtain ⟨fuel, rfl⟩ := Nat.exists_eq_add_of_le' (one_le_of_lt hfuel)
    simp only [skipLoop, hlen]
    rw [if_neg hne, if_pos hmask, hn, hF fuel (by omega)]
    simp only [add_assoc]
  | pointer _ hmask =>
    refine ⟨1, fun fuel hfuel => ?_⟩
    obtain ⟨fuel, rfl⟩ := Nat.exists_eq_add_of_le' hfuel
    obtain ⟨hne, hne'⟩ := pointer_ne_zero hmask
    rw [skipLoop, if_neg hne, if_neg hne', if_pos hmask]

theorem not_noRoom (h : n + 1 < length) : ¬NoRoom length n := Nat.not_le.2 h

/-- A label is copied with its separators escaped. -/
theorem expandLabel_spec (hbyt : bytes msg cp l.length = l) (hcp : cp + l.length < e)
    (hroom : dn.length + (escape DOT BACKSLASH l).length + 1 < length) :
    expandLabel msg e length l.length cp dn =
      some (cp + l.length, dn ++ escape DOT BACKSLASH l) := by
  induction l generalizing cp dn with
  | nil => rw [length_nil, expandLabel, escape, append_nil, add_zero]
  | cons c l ih =>
    rw [length_cons] at hcp hbyt
    rw [bytes_succ] at hbyt
    obtain ⟨hc, hrs⟩ := cons.inj hbyt
    rw [length_cons, expandLabel, hc, if_neg (Nat.not_le.2 (by omega : cp + 1 < e))]
    rw [escape] at hroom ⊢
    by_cases hdot : c = DOT
    · rw [if_pos hdot, length_cons, length_cons] at hroom
      have hlong : l.length ≤ (escape DOT BACKSLASH l).length := length_le_escape
      rw [if_neg fun h => not_noRoom (by omega) h.2, if_pos hdot, if_pos hdot, ih hrs (by omega)]
      · simp only [append_assoc, cons_append, nil_append]
        congr 2
        omega
      · rw [length_append, length_cons, length_singleton]
        omega
    · rw [if_neg hdot, length_cons] at hroom
      rw [if_neg fun h => hdot h.1, if_neg hdot, if_neg hdot, ih hrs (by omega)]
      · simp only [append_assoc, cons_append, nil_append]
        congr 2
        omega
      · rw [length_append, length_singleton]
        omega

theorem Stands.expand (h : Stands msg e p k L) : ∃ F, ∀ fuel ≥ F, ∀ length comp_dn dn len,
    (written DOT BACKSLASH dn L).length + 1 < length →
      expandLoop msg e comp_dn length fuel p dn len =
        some (some (len.getD (p + k - comp_dn), written DOT BACKSLASH dn L)) := by
  induction h with
  | root _ hmsg =>
    refine ⟨1, fun fuel hfuel length comp_dn dn len _ => ?_⟩
    obtain ⟨fuel, rfl⟩ := Nat.exists_eq_add_of_le' hfuel
    rw [expandLoop, if_pos hmsg, written]
  | @label p k l L hl hmax hlen hbyt h ih =>
    obtain ⟨hn, hne, hmask⟩ := ofNat_length (length_pos_iff.2 hl) hmax
    obtain ⟨F, hF⟩ := ih
    refine ⟨F + 1, fun fuel hfuel length comp_dn dn len hroom => ?_⟩
    obtain ⟨fuel, rfl⟩ := Nat.exists_eq_add_of_le' (one_le_of_lt hfuel)
    rw [written] at hroom ⊢
    have hwri : (if dn = [] then dn else dn ++ [DOT]).length + (escape DOT BACKSLASH l).length ≤
        (written DOT BACKSLASH (writeLabel DOT BACKSLASH dn l) L).length :=
      length_append.symm.trans_le length_le_written
    have hlong : l.length ≤ (escape DOT BACKSLASH l).length := length_le_escape
    have hdot : dn.length ≤ (if dn = [] then dn else dn ++ [DOT]).length := by
      split_ifs
      · exact le_rfl
      · rw [length_append]
        exact Nat.le_add_right _ _
    have hpos := length_pos_iff.2 hl
    have hcopy : expandLabel msg e length l.length (p + 1) (if dn = [] then dn else dn ++ [DOT]) =
        some (p + 1 + l.length, writeLabel DOT BACKSLASH dn l) :=
      expandLabel_spec hbyt h.lt (lt_of_le_of_lt (succ_le_succ hwri) hroom)
    simp only [expandLoop, hlen]
    rw [if_neg hne, if_pos hmask, hn, if_neg fun h => not_noRoom (by omega) h.2,
      if_neg (not_noRoom (by omega)), hcopy]
    dsimp only
    rw [hF fuel (by omega) length comp_dn _ len hroom]
    simp only [add_assoc]
  | @pointer p q k L _ hmask hq hlt _ ih =>
    obtain ⟨F, hF⟩ := ih
    refine ⟨F + 1, fun fuel hfuel length comp_dn dn len hroom => ?_⟩
    obtain ⟨fuel, rfl⟩ := Nat.exists_eq_add_of_le' (one_le_of_lt hfuel)
    obtain ⟨hne, hne'⟩ := pointer_ne_zero hmask
    simp only [expandLoop]
    rw [if_neg hne, if_neg hne', if_pos hmask, hq, if_neg (Nat.not_le.2 hlt),
      hF fuel (by omega) length comp_dn dn _ hroom, getD_some]

/-! ### `dn_find` -/

variable {lpp : List ℕ} {rest : List UInt8} {fuel : ℕ}

/-- The text that was read of a label, with a separator for a `'.'` of this. -/
theorem findLabel_spec (hnul : ∀ c ∈ bytes msg cp n, c ≠ 0)
    (h : findLabel msg n cp dn = some rest) :
    ∃ x, dn = x ++ rest ∧ Complete BACKSLASH x ∧ glue DOT (piecesOf x) = bytes msg cp n := by
  induction n generalizing cp dn with
  | zero => exact ⟨[], some.inj h, .nil, rfl⟩
  | succ n ih =>
    rw [bytes_succ, forall_mem_cons] at hnul
    rw [bytes_succ]
    obtain ⟨hne, hnul⟩ := hnul
    rw [findLabel] at h
    cases dn with
    | nil => exact absurd h (by simp [BACKSLASH, hne.symm])
    | cons c t =>
      by_cases hc : c = BACKSLASH
      · cases t with
        | nil => exact absurd h (by simp [hc, hne.symm])
        | cons c' t =>
          simp only [headD_cons, hc, if_true, tail_cons, ne_eq, ite_not] at h
          split_ifs at h with hc'
          obtain ⟨x, rfl, hx, hglue⟩ := ih hnul h
          refine ⟨BACKSLASH :: c' :: x, by rw [hc]; rfl, .escaped hx, ?_⟩
          rw [glue_pieces_esc backslash_ne_dot, hglue, hc']
      · simp only [headD_cons, hc, if_false, tail_cons, ne_eq, ite_not] at h
        split_ifs at h with hc'
        obtain ⟨x, rfl, hx, hglue⟩ := ih hnul h
        refine ⟨c :: x, rfl, .plain hc hx, ?_⟩
        rw [glue_pieces_cons hc, hglue, hc']

/-- What is found divides into the pieces of the text. -/
theorem findName_spec (h : Stands msg e p k L) (hL : ∀ l ∈ L, (0 : UInt8) ∉ l)
    (hfnd : findName msg fuel p dn = some .found) :
    Divides L (piecesOf dn) ∧ (L = [] → dn = []) := by
  induction h generalizing fuel dn with
  | @root p _ hmsg =>
    cases fuel with
    | zero => exact absurd hfnd (by simp [findName])
    | succ fuel =>
      rw [findName, if_pos hmsg] at hfnd
      split_ifs at hfnd with hdn
      · rw [hdn]
        exact ⟨.nil, fun _ => rfl⟩
      · simp at hfnd
  | @label p k l L hl hmax hlen hbyt h ih =>
    obtain ⟨hn, hne, hmask⟩ := ofNat_length (length_pos_iff.2 hl) hmax
    rw [forall_mem_cons] at hL
    refine ⟨?_, fun h => absurd h (cons_ne_nil _ _)⟩
    cases fuel with
    | zero => exact absurd hfnd (by simp [findName])
    | succ fuel =>
      simp only [findName, hlen] at hfnd
      rw [if_neg hne, if_pos hmask, hn] at hfnd
      split at hfnd
      · simp at hfnd
      · next hlabel =>
        obtain ⟨x, rfl, -, hglue⟩ := findLabel_spec (by
          rw [hbyt]
          exact fun c hc hzero => hL.1 (hzero ▸ hc)) hlabel
        split_ifs at hfnd with hend
        · have hroot : L = [] := by
            cases h with
            | root => rfl
            | label hl hmax hlen =>
              exact absurd (hlen.symm.trans hend) (ofNat_length (length_pos_iff.2 hl) hmax).2.1
            | pointer _ hmask => exact absurd hend (pointer_ne_zero hmask).1
          rw [hroot, append_nil, ← hbyt, ← hglue]
          exact .last pieces_ne_nil
        · simp at hfnd
      · next c rest hlabel =>
        obtain ⟨x, rfl, hx, hglue⟩ := findLabel_spec (by
          rw [hbyt]
          exact fun c hc hzero => hL.1 (hzero ▸ hc)) hlabel
        split_ifs at hfnd with hdot
        · rw [hdot, piecesOf, pieces_append_sep backslash_ne_dot hx, ← hbyt, ← hglue]
          exact .cons pieces_ne_nil (ih hL.2 hfnd).1
        · simp at hfnd
  | @pointer p q k L _ hmask hq _ _ ih =>
    obtain ⟨hne, hne'⟩ := pointer_ne_zero hmask
    cases fuel with
    | zero => exact absurd hfnd (by simp [findName])
    | succ fuel =>
      simp only [findName] at hfnd
      rw [if_neg hne, if_neg hne', if_pos hmask, hq] at hfnd
      exact ih hL hfnd

theorem dnFind_spec {l' : ℕ} (h : dnFind msg fuel dn lpp = some (some l')) :
    l' ∈ lpp ∧ findName msg fuel l' dn = some .found := by
  induction lpp with
  | nil => exact absurd h (by simp [dnFind])
  | cons sp lpp ih =>
    rw [dnFind] at h
    split at h
    · simp at h
    · next hfnd =>
      cases h
      exact ⟨mem_cons_self, hfnd⟩
    · exact (ih h).imp (mem_cons_of_mem _) id
    · simp at h

/-! ### `dn_comp` -/

/-- A label is written where it is copied to, if not all of it in the end. -/
theorem copyLabel_spec (eob : ℕ) (dn : List UInt8) (msg : Mem) (cp : ℕ) :
    ∃ l, (copyLabel eob dn msg cp).1 = store msg cp l ∧
      ∀ rest, (copyLabel eob dn msg cp).2.2 = some rest →
        (copyLabel eob dn msg cp).2.1 = cp + l.length ∧
          ∃ T, piecesOf dn = l :: T ∧ (rest = [] ∧ T = [] ∨ T = piecesOf rest) := by
  fun_induction copyLabel eob dn msg cp with
  | case1 msg cp =>
    exact ⟨[], (store_nil _ _).symm, fun rest h => ⟨rfl, [], rfl, .inl ⟨(some.inj h).symm, rfl⟩⟩⟩
  | case2 dn msg cp =>
    refine ⟨[], (store_nil _ _).symm, fun rest h => ⟨rfl, piecesOf dn, pieces_sep, .inr ?_⟩⟩
    rw [← some.inj h]
  | case3 msg cp hne =>
    exact ⟨[], (store_nil _ _).symm, fun rest h => ⟨rfl, [], rfl, .inl ⟨(some.inj h).symm, rfl⟩⟩⟩
  | case4 msg cp c dn hcp hne => exact ⟨[], (store_nil _ _).symm, fun rest h => by simp at h⟩
  | case5 msg cp c dn hcp hne ih =>
    obtain ⟨l, hmsg, hrs⟩ := ih
    refine ⟨c :: l, by rw [hmsg, store_update], fun rest h => ?_⟩
    obtain ⟨hend, T, hT, hor⟩ := hrs rest h
    refine ⟨by rw [hend, length_cons]; omega, T, ?_, hor⟩
    rw [piecesOf] at hT
    rw [piecesOf, pieces_esc backslash_ne_dot, hT, push]
  | case6 c dn msg cp hdot hback hcp => exact ⟨[], (store_nil _ _).symm, fun rest h => by simp at h⟩
  | case7 c dn msg cp hdot hback hcp ih =>
    obtain ⟨l, hmsg, hrs⟩ := ih
    refine ⟨c :: l, by rw [hmsg, store_update], fun rest h => ?_⟩
    obtain ⟨hend, T, hT, hor⟩ := hrs rest h
    refine ⟨by rw [hend, length_cons]; omega, T, ?_, hor⟩
    rw [piecesOf] at hT
    rw [piecesOf, pieces_other hdot hback, hT, push]

/-- A pointer to a place in the first `2 ^ 14` bytes. -/
theorem indirect_store (msg : Mem) (cp : ℕ) (hl : k < 2 ^ 14) : ∀ msg', msg' = store msg cp
    [UInt8.ofNat (k >>> 8 ||| INDIR_MASK.toNat), UInt8.ofNat (k % 256)] →
      msg' cp &&& INDIR_MASK = INDIR_MASK ∧ indirect msg' (msg' cp) (cp + 1) = k := by
  rintro _ rfl
  have hbyt := bytes_store msg cp
    [UInt8.ofNat (k >>> 8 ||| INDIR_MASK.toNat), UInt8.ofNat (k % 256)]
  simp only [length_cons, length_nil, bytes_succ, cons.injEq] at hbyt
  obtain ⟨hfst, hsec, -⟩ := hbyt
  have hhigh : k >>> 8 < 64 := by
    rw [shiftRight_eq_div_pow]
    omega
  have h : ∀ n < 64, UInt8.ofNat (n ||| INDIR_MASK.toNat) &&& INDIR_MASK = INDIR_MASK ∧
      (UInt8.ofNat (n ||| INDIR_MASK.toNat) &&& 0x3f).toNat = n := by decide
  rw [hfst]
  refine ⟨(h _ hhigh).1, ?_⟩
  rw [indirect, (h _ hhigh).2, hsec, UInt8.toNat_ofNat',
    mod_eq_of_lt (mod_lt _ (by decide) : k % 256 < 2 ^ 8),
    ← shiftLeft_add_eq_or_of_lt (mod_lt _ (by decide)), shiftLeft_eq,
    shiftRight_eq_div_pow]
  omega

theorem save_cases (lastdnptr : Option ℕ) (dnptrs : List ℕ) (cp : ℕ) :
    ∃ new, save lastdnptr dnptrs cp = dnptrs ++ new ∧ ∀ q ∈ new, q = cp := by
  cases lastdnptr with
  | none => exact ⟨[], (append_nil _).symm, fun q hq => absurd hq not_mem_nil⟩
  | some last =>
    rw [save]
    split_ifs
    · exact ⟨[cp], rfl, fun q hq => mem_singleton.1 hq⟩
    · exact ⟨[], (append_nil _).symm, fun q hq => absurd hq not_mem_nil⟩

/-- What `dn_comp` leaves when it writes labels at `cp` that were the text `dn`. -/
structure Wrote (msg : Mem) (dnptrs : List ℕ) (comp_dn cp : ℕ) (dn : List UInt8) (r : Comp) :
    Prop where
  same : SameOn msg r.msg 0 cp
  ptrs : ∃ new, r.dnptrs = dnptrs ++ new ∧ (∀ q ∈ new, cp ≤ q) ∧ ∀ k, r.size = some k → ∃ k', comp_dn + k = cp + k' ∧
    Stands r.msg (cp + k') cp k' (labelsOf dn) ∧
    ∀ q ∈ new, q < cp + k' ∧ Leads r.msg (cp + k') q

variable {comp_dn : ℕ} {dnptrs new : List ℕ} {r : Comp}

theorem Wrote.of_failed (hsame : SameOn msg msg' 0 cp) (hnew : ∀ q ∈ new, q = cp) :
    Wrote msg dnptrs comp_dn cp dn ⟨msg', dnptrs ++ new, none⟩ :=
  ⟨hsame, new, rfl, fun q hq => (hnew q hq).ge, fun k hk => absurd hk (by simp)⟩

theorem sameOn_update {v : UInt8} (h : e ≤ cp) : SameOn msg (update msg cp v) 0 e :=
  fun _ _ hi => update_of_ne (hi.trans_le h).ne _ _

/-- The NUL byte at the end. -/
theorem endName_spec (hdn : labelsOf dn = []) (hcp : comp_dn ≤ cp) (hsame : SameOn msg msg' 0 cp)
    (hnew : ∀ q ∈ new, q = cp) :
    Wrote msg dnptrs comp_dn cp dn (endName comp_dn eob msg' (dnptrs ++ new) cp) := by
  rw [endName]
  split_ifs
  · exact .of_failed hsame hnew
  · have hroot : Stands (update msg' cp 0) (cp + 1) cp 1 [] :=
      .root (lt_succ_self _) (update_self _ _ _)
    refine ⟨hsame.trans (sameOn_update le_rfl), new, rfl, fun q hq => (hnew q hq).ge, fun k hk => ⟨1, ?_, ?_, fun q hq => ?_⟩⟩
    · have := some.inj hk
      omega
    · rwa [hdn]
    · rw [hnew q hq]
      exact ⟨lt_succ_self _, 1, [], hroot, fun l hl => absurd hl not_mem_nil⟩

/-- A pointer to the rest of the name. -/
theorem endPointer_spec {k : ℕ} (h : Stands msg e p k (labelsOf dn)) (hcp : comp_dn ≤ cp) (he : e ≤ cp)
    (hp : p < 2 ^ 14) : Wrote msg dnptrs comp_dn cp dn (endPointer comp_dn eob msg dnptrs cp p) := by
  have hnone : ∀ q ∈ ([] : List ℕ), q = cp := fun q hq => absurd hq not_mem_nil
  rw [endPointer]
  split_ifs
  · have hfai : Wrote msg dnptrs comp_dn cp dn ⟨msg, dnptrs ++ [], none⟩ :=
      .of_failed (.refl _ _ _) hnone
    rwa [append_nil] at hfai
  · have hsame : SameOn msg (store msg cp
        [UInt8.ofNat (p >>> 8 ||| INDIR_MASK.toNat), UInt8.ofNat (p % 256)]) 0 cp :=
      sameOn_store (.inl le_rfl)
    obtain ⟨hmask, hq⟩ := indirect_store msg cp hp _ rfl
    refine ⟨hsame, [], (append_nil _).symm, fun q hq => (hnone q hq).ge, fun k' hk' => ⟨2, ?_, ?_, fun q hq => ?_⟩⟩
    · have := some.inj hk'
      omega
    · have hlt := h.lt
      exact .pointer (lt_succ_self _) hmask hq (by omega)
        (h.congr (hsame.mono le_rfl he) (by omega))
    · exact absurd hq not_mem_nil

/-- A label, and the rest of the name after it. -/
theorem Wrote.label {T : List (List UInt8)} (hdn : piecesOf dn = l :: T)
    (hrs : rest = [] ∧ T = [] ∨ T = piecesOf rest) (hl : l ≠ []) (hmax : l.length ≤ MAXLABEL)
    (hpln : ∀ l ∈ labelsOf dn, Plain l) (hnew : ∀ q ∈ new, q = cp)
    (h : Wrote (update (store msg (cp + 1) l) cp (UInt8.ofNat l.length)) (dnptrs ++ new) comp_dn
      (cp + 1 + l.length) rest r) : Wrote msg dnptrs comp_dn cp dn r := by
  have hlab : labelsOf dn = l :: labelsOf rest := by
    rw [labelsOf, labels]
    rw [piecesOf] at hdn hrs
    rw [hdn, trim_cons hl]
    rcases hrs with ⟨rfl, rfl⟩ | rfl
    · rw [labelsOf, labels, pieces_nil, trim_nil, trim_singleton_nil]
    · rfl
  obtain ⟨hsame, new', hptrs, hge, hsize⟩ := h
  have hsame' : SameOn msg (update (store msg (cp + 1) l) cp (UInt8.ofNat l.length)) 0 cp :=
    (sameOn_store (.inl (le_succ _))).trans (sameOn_update le_rfl)
  refine ⟨hsame'.trans (hsame.mono le_rfl (by omega)), new ++ new', by rw [hptrs, append_assoc],
    fun q hq => ?_, fun k hk => ?_⟩
  · rcases mem_append.1 hq with hq | hq
    · exact (hnew q hq).ge
    · exact le_trans (by omega) (hge q hq)
  obtain ⟨k', hk', hsta, hleads⟩ := hsize k hk
  have hlen : r.msg cp = UInt8.ofNat l.length :=
    (hsame cp (Nat.zero_le _) (by omega)).trans (update_self _ _ _)
  have hbyt : bytes r.msg (cp + 1) l.length = l := by
    rw [hsame.bytes_eq (Nat.zero_le _) le_rfl]
    have hout : SameOn (store msg (cp + 1) l)
        (update (store msg (cp + 1) l) cp (UInt8.ofNat l.length)) (cp + 1)
        (cp + 1 + l.length) := fun i hi _ => update_of_ne (by omega) _ _
    rw [hout.bytes_eq le_rfl le_rfl, bytes_store]
  have hall : Stands r.msg (cp + (1 + l.length + k')) cp (1 + l.length + k') (labelsOf dn) := by
    rw [hlab]
    refine .label hl hmax hlen hbyt ?_
    rwa [← add_assoc, ← add_assoc]
  refine ⟨1 + l.length + k', by omega, hall, fun q hq => ?_⟩
  rcases mem_append.1 hq with hq | hq
  · rw [hnew q hq]
    exact ⟨hall.lt, _, _, hall, hpln⟩
  · obtain ⟨hlt, hlead⟩ := hleads q hq
    rw [← add_assoc, ← add_assoc]
    exact ⟨hlt, hlead⟩

/-- What `dn_comp` writes. -/
theorem compLoop_spec {lastdnptr : Option ℕ} {P : List (List UInt8)}
    (h : compLoop lastdnptr comp_dn eob lpp fuel msg dnptrs cp dn = some r)
    (hlpp : ∀ p ∈ lpp, ∃ k L, Stands msg e p k L ∧ (∀ l ∈ L, Plain l) ∧ Told P p L)
    (hcp : comp_dn ≤ cp) (he : e ≤ cp) (hdn : dn ≠ [] → piecesOf dn <:+ P)
    (hpln : ∀ l ∈ piecesOf dn, Plain l) : Wrote msg dnptrs comp_dn cp dn r := by
  induction fuel generalizing msg dnptrs cp dn with
  | zero => exact absurd h (by simp [compLoop])
  | succ fuel ih =>
    rw [compLoop] at h
    split_ifs at h with hnil
    · rw [← some.inj h]
      have hroot : Wrote msg dnptrs comp_dn cp dn (endName comp_dn eob msg (dnptrs ++ []) cp) :=
        endName_spec (by rw [hnil]; exact trim_singleton_nil) hcp (SameOn.refl msg 0 cp)
          fun q hq => absurd hq not_mem_nil
      rwa [append_nil] at hroot
    · split at h
      · simp at h
      · next p hfind =>
        obtain ⟨hmem, hfnd⟩ := dnFind_spec hfind
        obtain ⟨k, L, hsta, hpln', htold⟩ := hlpp p hmem
        obtain ⟨hdiv, hne⟩ := findName_spec hsta (fun l hl => (hpln' l hl).2) hfnd
        obtain ⟨htrim, hp⟩ := htold (fun hL => hnil (hne hL)) _ (hdn hnil) hdiv
        rw [← some.inj h]
        rw [← htrim] at hsta
        exact endPointer_spec hsta hcp he hp
      · obtain ⟨new, hsave, hnew⟩ := save_cases lastdnptr dnptrs cp
        obtain ⟨l, hmsg, hrs⟩ := copyLabel_spec eob dn msg (cp + 1)
        have hsame : SameOn msg (store msg (cp + 1) l) 0 cp := sameOn_store (.inl (le_succ _))
        dsimp only at h
        rw [hsave] at h
        split at h
        · next heq =>
          rw [heq] at hmsg
          dsimp only at hmsg
          rw [← some.inj h, hmsg]
          exact .of_failed hsame hnew
        · next msg' cp' rest heq =>
          rw [heq] at hmsg hrs
          obtain ⟨hcp', T, hT, hor⟩ := hrs rest rfl
          dsimp only at hmsg hcp'
          subst hmsg hcp'
          rw [add_assoc, Nat.add_sub_cancel_left, Nat.add_sub_cancel_left] at h
          split_ifs at h with htrail hbad
          · rw [← some.inj h]
            refine endName_spec ?_ hcp hsame hnew
            obtain rfl := length_eq_zero_iff.1 htrail.1
            rw [piecesOf] at hT
            rw [labelsOf, labels, hT]
            rcases hor with ⟨-, rfl⟩ | rfl
            · exact trim_singleton_nil
            · rw [htrail.2]
              exact trim_snoc_nil.trans trim_singleton_nil
          · rw [← some.inj h]
            exact .of_failed hsame hnew
          · have hl : l ≠ [] := fun hl => hbad (.inl (length_eq_zero_iff.2 hl))
            have hmax : l.length ≤ MAXLABEL := Nat.le_of_not_lt fun hlt => hbad (.inr hlt)
            have hsame' := hsame.trans (sameOn_update (v := UInt8.ofNat l.length) le_rfl)
            rw [← add_assoc] at h
            refine .label hT hor hl hmax (fun l' hl' => hpln l' (mem_of_mem_trim hl')) hnew
              (ih h ?_ (by omega) (by omega) (fun hne => ?_) fun l' hl' => ?_)
            · intro p hp
              obtain ⟨k, L, hsta, hrs⟩ := hlpp p hp
              exact ⟨k, L, hsta.congr (hsame'.mono le_rfl he) le_rfl, hrs⟩
            · rw [← hor.resolve_left fun h => hne h.1]
              exact (suffix_cons l T).trans (hT ▸ hdn hnil)
            · rw [hT, forall_mem_cons] at hpln
              rcases hor with ⟨rfl, -⟩ | rfl
              · rw [mem_singleton.1 hl']
                exact ⟨not_mem_nil, not_mem_nil⟩
              · exact hpln.2 l' hl'

end Uwisc.ResComp
