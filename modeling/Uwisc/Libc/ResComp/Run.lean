import Uwisc.Lib.System
import Uwisc.Libc.ResComp.Spec

/-!
# Messages of compressed names

A message is built by calls of `dn_comp` that share the list `dnptrs`; what else is put into it comes
between them. In every run under the condition `Ready`, the names written are read back, by `dn_expand`
and in their size by `dn_skip` (`names_expand`). The condition is about an escape character in a label,
which `dn_expand` does not escape (`names_lost`), a separator that `dn_find` takes for a `'.'` in a label
(`names_confused`), pointers that have no room in 14 bits (`names_cut`), and pointers that a call has
left that failed.
-/

namespace Uwisc.ResComp

open Lib List Option

/-- A name in a message: where it is, its text, and the size `dn_comp` returned. -/
structure Name where
  comp_dn : ℕ
  exp_dn : List UInt8
  size : ℕ

/-- A message, with its end at `cp` and the names written. -/
structure Packet where
  msg : Mem
  dnptrs : List ℕ
  cp : ℕ
  names : List Name

inductive Op
  | comp (exp_dn : List UInt8) (length : ℕ) (lastdnptr : Option ℕ)
  /-- Other fields of the message. -/
  | put (l : List UInt8)

namespace Packet

/-- After a call of `dn_comp`. -/
def after (s : Packet) (exp_dn : List UInt8) (r : Comp) : Packet :=
  match r.size with
  | none => { s with msg := r.msg, dnptrs := r.dnptrs }
  | some k => ⟨r.msg, r.dnptrs, s.cp + k, ⟨s.cp, exp_dn, k⟩ :: s.names⟩

/-- The text of a name has no NUL before its end. -/
inductive Step : Packet → Op → Packet → Prop
  | comp {s : Packet} {exp_dn : List UInt8} {length fuel : ℕ} {lastdnptr : Option ℕ} {r : Comp} :
    0 ∉ exp_dn → dnComp s.msg s.dnptrs fuel exp_dn s.cp length lastdnptr = some r →
      Step s (.comp exp_dn length lastdnptr) (s.after exp_dn r)
  | put {s : Packet} {l : List UInt8} :
    Step s (.put l) { s with msg := store s.msg s.cp l, cp := s.cp + l.length }

/-- The name has been read back, given a buffer that is large enough. -/
def Expands (s : Packet) (w : Name) : Prop :=
  ∃ F out, labelsOf out = labelsOf w.exp_dn ∧ ∀ fuel ≥ F,
    dnSkip s.msg fuel w.comp_dn = some (some w.size) ∧ ∀ length ≥ out.length + 2,
        dnExpand s.msg s.cp fuel w.comp_dn length = some (some (w.size, out))

/-- The pointers lead to names that have been written, no label of a name has an escape character, and
    what `dn_find` takes for a part of it is that and can be pointed to. -/
def Ready (s : Packet) : Op → Prop
  | .put _ => ∀ p ∈ s.dnptrs, p < s.cp
  | .comp exp_dn _ _ => (∀ p ∈ s.dnptrs, p < s.cp) ∧ (∀ l ∈ piecesOf exp_dn, BACKSLASH ∉ l) ∧
    ∀ p ∈ s.dnptrs.tail, ∀ k L, Stands s.msg s.cp p k L → Told (piecesOf exp_dn) p L

/-- What holds in every state. -/
structure Inv (s : Packet) : Prop where
  ptrs : ∀ p ∈ s.dnptrs, p < s.cp → Leads s.msg s.cp p
  names : ∀ w ∈ s.names, Stands s.msg s.cp w.comp_dn w.size (labelsOf w.exp_dn) ∧
    ∀ l ∈ labelsOf w.exp_dn, Plain l

end Packet

/-- All runs, from any header and contents of the memory after it. -/
def messages : System Packet Op where
  init := {s | s.dnptrs = [] ∧ s.names = []}
  step := Packet.Step

open Packet

variable {s s' : Packet} {e p k cp : ℕ} {L : List (List UInt8)} {msg msg' : Mem} {w : Name}

theorem Leads.congr (h : Leads msg e p) (hsame : SameOn msg msg' 0 e) (he : e ≤ cp) :
    Leads msg' cp p := by
  obtain ⟨k, L, hsta, hpln⟩ := h
  exact ⟨k, L, hsta.congr hsame he, hpln⟩

theorem Stands.ne_nil (h : Stands msg e p k L) : [] ∉ L := by
  induction h with
  | root => exact not_mem_nil
  | label hl _ _ _ _ ih => exact fun hmem => (mem_cons.1 hmem).elim (fun h => hl h.symm) ih
  | pointer _ _ _ _ _ ih => exact ih

/-- What stands in a message is read as its labels with separators escaped. -/
theorem Stands.reads (h : Stands msg e p k L) : ∃ F, ∀ fuel ≥ F, dnSkip msg fuel p = some (some k) ∧
    ∀ length ≥ (written DOT BACKSLASH [] L).length + 2,
      dnExpand msg e fuel p length = some (some (k, written DOT BACKSLASH [] L)) := by
  obtain ⟨F, hF⟩ := h.skip
  obtain ⟨F', hF'⟩ := h.expand
  refine ⟨max F F', fun fuel hfuel => ⟨?_, fun length hlen => ?_⟩⟩
  · rw [dnSkip, hF fuel (le_of_max_le_left hfuel)]
    simp
  · rw [dnExpand, hF' fuel (le_of_max_le_right hfuel) length p [] none hlen]
    simp

/-- A name stands where its labels are read. -/
theorem Stands.expands (h : Stands s.msg s.cp w.comp_dn w.size (labelsOf w.exp_dn))
    (hpln : ∀ l ∈ labelsOf w.exp_dn, Plain l) : s.Expands w := by
  obtain ⟨F, hF⟩ := h.reads
  refine ⟨F, _, labels_written backslash_ne_dot fun l hl => ⟨?_, (hpln l hl).1⟩, hF⟩
  rintro rfl
  exact h.ne_nil hl

/-- No other name is read. -/
theorem Stands.not_expands (h : Stands s.msg s.cp w.comp_dn k L)
    (hne : labelsOf (written DOT BACKSLASH [] L) ≠ labelsOf w.exp_dn) : ¬s.Expands w := by
  rintro ⟨F, out, hout, hexp⟩
  obtain ⟨F', hF'⟩ := h.reads
  have hone := (hexp (max F F') (le_max_left _ _)).2
    (max (out.length + 2) ((written DOT BACKSLASH [] L).length + 2)) (le_max_left _ _)
  have htwo := (hF' (max F F') (le_max_right _ _)).2
    (max (out.length + 2) ((written DOT BACKSLASH [] L).length + 2)) (le_max_right _ _)
  rw [hone] at htwo
  cases htwo
  exact hne hout

/-! ### Steps -/

theorem Packet.Inv.put {l : List UInt8} (h : Inv s) (hrdy : s.Ready (.put l)) :
    Inv { s with msg := store s.msg s.cp l, cp := s.cp + l.length } where
  ptrs p hp _ := (h.ptrs p hp (hrdy p hp)).congr (sameOn_store (.inl le_rfl)) (Nat.le_add_right _ _)
  names w hw := ⟨(h.names w hw).1.congr (sameOn_store (.inl le_rfl)) (Nat.le_add_right _ _),
    (h.names w hw).2⟩

theorem Packet.Inv.comp {exp_dn : List UInt8} {length fuel : ℕ} {lastdnptr : Option ℕ} {r : Comp} (h : Inv s)
    (hrdy : s.Ready (.comp exp_dn length lastdnptr)) (hnul : 0 ∉ exp_dn)
    (hcomp : dnComp s.msg s.dnptrs fuel exp_dn s.cp length lastdnptr = some r) :
    Inv (s.after exp_dn r) := by
  obtain ⟨hblw, hback, htold⟩ := hrdy
  have hpln : ∀ l ∈ piecesOf exp_dn, Plain l := fun l hl =>
    ⟨hback l hl, fun hzero => hnul (mem_of_mem_pieces hl hzero)⟩
  have hlpp : ∀ p ∈ s.dnptrs.tail, ∃ k L, Stands s.msg s.cp p k L ∧ (∀ l ∈ L, Plain l) ∧
      Told (piecesOf exp_dn) p L := by
    intro p hp
    have hmem := mem_of_mem_tail hp
    obtain ⟨k, L, hsta, hpln⟩ := h.ptrs p hmem (hblw p hmem)
    exact ⟨k, L, hsta, hpln, htold p hp k L hsta⟩
  obtain ⟨hsame, new, hptrs, hge, hsize⟩ := compLoop_spec hcomp hlpp le_rfl le_rfl
    (fun _ => suffix_refl _) hpln
  rw [after]
  split
  · refine ⟨fun p hp hlt => ?_, fun w hw => ?_⟩
    · dsimp only at hp hlt ⊢
      rw [hptrs] at hp
      rcases mem_append.1 hp with hp | hp
      · exact (h.ptrs p hp hlt).congr hsame le_rfl
      · exact absurd hlt (Nat.not_lt.2 (hge p hp))
    · exact ⟨(h.names w hw).1.congr hsame le_rfl, (h.names w hw).2⟩
  · next k hk =>
    obtain ⟨k', hk', hsta, hleads⟩ := hsize k hk
    obtain rfl : k = k' := Nat.add_left_cancel hk'
    have hle : s.cp ≤ s.cp + k := Nat.le_add_right _ _
    refine ⟨fun p hp _ => ?_, forall_mem_cons.2 ⟨⟨hsta, fun l hl => ?_⟩, fun w hw => ?_⟩⟩
    · dsimp only at hp ⊢
      rw [hptrs] at hp
      rcases mem_append.1 hp with hp | hp
      · exact (h.ptrs p hp (hblw p hp)).congr hsame hle
      · exact (hleads p hp).2
    · exact hpln l (mem_of_mem_trim hl)
    · exact ⟨(h.names w hw).1.congr hsame hle, (h.names w hw).2⟩

/-- Every name that was written is read back, in every run whose steps are all `Ready`. -/
theorem names_expand (hs : (messages.restrict Ready).Reachable s) : ∀ w ∈ s.names, s.Expands w := by
  have hinv : Inv s := by
    refine hs.invariant (fun s hs => ?_) fun s a s' h hstep => ?_
    · obtain ⟨hptrs, hnames⟩ := hs
      exact ⟨by simp [hptrs], by simp [hnames]⟩
    · obtain ⟨hrdy, hstep⟩ := hstep
      cases hstep with
      | comp hnul hcomp => exact h.comp hrdy hnul hcomp
      | put => exact h.put hrdy
  exact fun w hw => (hinv.names w hw).1.expands (hinv.names w hw).2

/-- Calls of `dn_comp` with 64 bytes for each name. -/
def Packet.comps (s : Packet) (names : List (List UInt8)) : Option Packet :=
  names.foldlM (fun s exp_dn =>
    (dnComp s.msg s.dnptrs 16 exp_dn s.cp 64 (some 20)).map (s.after exp_dn)) s

/-- A message of zeros. -/
def zeros (cp : ℕ) : Packet := ⟨fun _ => 0, [], cp, []⟩

theorem reachable_comps {names : List (List UInt8)} (hs : messages.Reachable s)
    (hnul : ∀ n ∈ names, 0 ∉ n) (h : s.comps names = some s') : messages.Reachable s' := by
  induction names generalizing s with
  | nil => exact some.inj h ▸ hs
  | cons n names ih =>
    rw [forall_mem_cons] at hnul
    obtain ⟨t, ht, hrs⟩ := bind_eq_some_iff.1 h
    obtain ⟨r, hr, rfl⟩ := map_eq_some_iff.1 ht
    exact ih (hs.step (.comp hnul.1 hr)) hnul.2 hrs

/-- The name `a\.b.c` in a message. -/
theorem names_expand_dot : ∃ s, (messages.restrict Ready).Reachable s ∧
    s.names = [⟨12, [97, 92, 46, 98, 46, 99], 7⟩] ∧ ∀ w ∈ s.names, s.Expands w := by
  obtain ⟨r, hr⟩ : ∃ r, dnComp (fun _ => 0) [] 16 [97, 92, 46, 98, 46, 99] 12 64 (some 20) = some r :=
    isSome_iff_exists.1 (by decide)
  have hrdy : (zeros 12).Ready (.comp [97, 92, 46, 98, 46, 99] 64 (some 20)) :=
    ⟨fun p hp => absurd hp not_mem_nil, by decide, fun p hp => absurd hp not_mem_nil⟩
  have hs : (messages.restrict Ready).Reachable ((zeros 12).after [97, 92, 46, 98, 46, 99] r) :=
    .step (.init ⟨rfl, rfl⟩) ⟨hrdy, .comp (by decide) hr⟩
  refine ⟨_, hs, ?_, names_expand hs⟩
  cases hr
  rfl

/-- The name `a\\b` has one label, of three characters, and is read back as one of two. -/
theorem names_lost : ¬∀ s, messages.Reachable s → ∀ w ∈ s.names, s.Expands w := by
  intro h
  obtain ⟨s, hs⟩ : ∃ s, (zeros 12).comps [[97, 92, 92, 98]] = some s :=
    isSome_iff_exists.1 (by decide)
  have hrch := reachable_comps (.init ⟨rfl, rfl⟩) (by decide) hs
  cases hs
  refine absurd (h _ hrch _ mem_cons_self)
    (Stands.not_expands (k := 5) (L := [[97, 92, 98]]) ?_ (by decide))
  exact .label (k := 1) (l := [97, 92, 98]) (by decide) (by decide) (by decide) (by decide) (.root (by decide) (by decide))

/-- The name `a.b` after `a\.b` (the first name is not searched) is a pointer to this. -/
theorem names_confused : ∃ s, messages.Reachable s ∧
    ∃ w ∈ s.names, w.exp_dn = [97, 46, 98] ∧ ¬s.Expands w := by
  obtain ⟨s, hs⟩ : ∃ s, (zeros 12).comps [[120], [97, 92, 46, 98], [97, 46, 98]] = some s :=
    isSome_iff_exists.1 (by decide)
  have hrch := reachable_comps (.init ⟨rfl, rfl⟩) (by decide) hs
  cases hs
  refine ⟨_, hrch, _, mem_cons_self, rfl,
    Stands.not_expands (k := 2) (L := [[97, 46, 98]]) ?_ (by decide)⟩
  exact .pointer (by decide) (by decide) rfl (by decide)
    (.label (by decide) (by decide) (by decide) (by decide) (.root (by decide) (by decide)))

/-- The name `ab` from `2 ^ 14` on is pointed to elsewhere. -/
theorem names_cut : ∃ s, messages.Reachable s ∧
    ∃ w ∈ s.names, w.exp_dn = [97, 98] ∧ ¬s.Expands w := by
  obtain ⟨s, hs⟩ : ∃ s, (zeros 20480).comps [[120], [97, 98], [97, 98]] = some s :=
    isSome_iff_exists.1 (by decide)
  have hrch := reachable_comps (.init ⟨rfl, rfl⟩) (by decide) hs
  cases hs
  refine ⟨_, hrch, _, mem_cons_self, rfl, Stands.not_expands (k := 2) (L := []) ?_ (by decide)⟩
  exact .pointer (by decide) (by decide) rfl (by decide) (.root (by decide) (by decide))

end Uwisc.ResComp
