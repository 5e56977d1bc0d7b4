import Uwisc.Netinet.Ip.Options

/-!
# The options of a header

The options of a header, as their bytes are when it arrives: which are met before one is refused (`met`), and
which of them are within their length whatever is done for them (`Fits`).

`Handled` is what is shown of the handling of each kind of option: it stays inside if and only if the option
fits, and then nothing after the option is changed.
-/

namespace Uwisc.Ip.Options

/-- An option at `cp` with `cnt` bytes of the header left, and the destination when it is met. -/
structure Opt where
  dst : Word
  cp : ℕ
  cnt : ℕ

namespace Opt

variable (h : Host) (mem : Mem) (o : Opt)

/-- The fields of an option. -/
def kind : UInt8 := mem o.cp
def len : ℕ := (mem (o.cp + 1)).toNat
def ptr : ℕ := (mem (o.cp + 2)).toNat
def flg : ℕ := (mem (o.cp + 3)).toNat % 16
def oflw : ℕ := (mem (o.cp + 3)).toNat / 16

/-- The address at the pointer. -/
def addr : Word := mem.word (o.cp + o.ptr mem - 1)

/-- An option of one byte. -/
def Single : Prop := o.kind mem = IPOPT_EOL ∨ o.kind mem = IPOPT_NOP

/-- What is no length, or goes beyond the header. -/
def BadLength : Prop := o.len mem = 0 ∨ o.cnt < o.len mem

def SourceRoute : Prop := o.kind mem = IPOPT_LSRR ∨ o.kind mem = IPOPT_SSRR

def Route : Prop := o.SourceRoute mem ∨ o.kind mem = IPOPT_RR

/-- A route whose next address is looked at. -/
def Takes : Prop := IPOPT_MINOFF ≤ o.ptr mem ∧ (o.SourceRoute mem → h.ifwithaddr o.dst = true) ∧
  noSpace (o.ptr mem - 1) (o.len mem) = false

/-- A timestamp for which there is room, as far as the first test goes. -/
def Room : Prop := 5 ≤ o.len mem ∧ o.ptr mem ≤ o.len mem - 4

/-- A timestamp that is recorded with an address. -/
def StampsAddr : Prop := o.ptr mem + 8 ≤ o.len mem ∧ (o.flg mem = IPOPT_TS_TSANDADDR ∧ h.ifaddr ≠ none ∨
  o.flg mem = IPOPT_TS_PRESPEC ∧ h.ifwithaddr (o.addr mem) = true)

/-- A route that is refused. -/
def RouteRefused : Prop := o.ptr mem < IPOPT_MINOFF ∨ (o.kind mem = IPOPT_SSRR ∧ h.ifwithaddr o.dst = false) ∨
  o.Takes h mem ∧ (o.kind mem = IPOPT_SSRR ∧ h.iaonnetof (o.addr mem) = false ∨ h.rtaddr (o.addr mem) = none)

/-- A timestamp that is refused. -/
def TimeRefused : Prop := o.len mem < 5 ∨ (o.len mem - 4 < o.ptr mem ∧ o.oflw mem = 15) ∨
  o.ptr mem ≤ o.len mem - 4 ∧ (o.flg mem = IPOPT_TS_TSANDADDR ∧ (o.len mem < o.ptr mem + 8 ∨ h.ifaddr = none) ∨
    o.flg mem = IPOPT_TS_PRESPEC ∧ h.ifwithaddr (o.addr mem) = true ∧ o.len mem < o.ptr mem + 8 ∨ 3 ≤ o.flg mem)

/-- An option for which an error is sent. -/
def Refused : Prop := ¬o.Single mem ∧ (o.BadLength mem ∨ o.Route mem ∧ o.RouteRefused h mem ∨
  o.kind mem = IPOPT_TS ∧ o.TimeRefused h mem)

/-- A route has its pointer, and all of an address if one is looked at. -/
def RouteFits : Prop := 3 ≤ o.len mem ∧ (o.Takes h mem → 4 ≤ o.len mem)

/-- The pointer of a timestamp is not before the option, and after the flags if something is recorded. -/
def TimeFits : Prop := o.Room mem → (o.flg mem = IPOPT_TS_PRESPEC → 1 ≤ o.ptr mem) ∧
  (o.flg mem = IPOPT_TS_TSONLY ∨ o.StampsAddr h mem → 5 ≤ o.ptr mem)

/-- An option that is handled inside. -/
def Fits : Prop := o.Single mem ∨ o.BadLength mem ∧ 2 ≤ o.cnt ∨ ¬o.BadLength mem ∧ 2 ≤ o.len mem ∧
  (o.Route mem → o.RouteFits h mem) ∧ (o.kind mem = IPOPT_TS → o.TimeFits h mem)

/-- A timestamp for which the pointer is not advanced by what is recorded. -/
def Miscounts : Prop := ¬o.BadLength mem ∧ o.kind mem = IPOPT_TS ∧ o.Room mem ∧ o.StampsAddr h mem

instance : Decidable (o.Single mem) := inferInstanceAs (Decidable (_ ∨ _))
instance : Decidable (o.BadLength mem) := inferInstanceAs (Decidable (_ ∨ _))
instance : Decidable (o.SourceRoute mem) := inferInstanceAs (Decidable (_ ∨ _))
instance : Decidable (o.Route mem) := inferInstanceAs (Decidable (_ ∨ _))
instance : Decidable (o.Takes h mem) := inferInstanceAs (Decidable (_ ∧ _ ∧ _))
instance : Decidable (o.Room mem) := inferInstanceAs (Decidable (_ ∧ _))
instance : Decidable (o.StampsAddr h mem) := inferInstanceAs (Decidable (_ ∧ _))
instance : Decidable (o.RouteRefused h mem) := inferInstanceAs (Decidable (_ ∨ _ ∨ _))
instance : Decidable (o.TimeRefused h mem) := inferInstanceAs (Decidable (_ ∨ _ ∨ _))
instance : Decidable (o.Refused h mem) := inferInstanceAs (Decidable (_ ∧ _))

/-- The length by which the loop goes on. -/
def optlen : ℕ := if o.kind mem = IPOPT_NOP then 1 else o.len mem

/-- The option after this one, with the destination a source route brings up. -/
def next : Opt where
  dst := if o.SourceRoute mem ∧ o.Takes h mem then o.addr mem else o.dst
  cp := o.cp + o.optlen mem
  cnt := o.cnt - o.optlen mem

variable {h mem o}

theorem optlen_pos (hgo : ¬(o.kind mem = IPOPT_EOL ∨ o.Refused h mem)) : 0 < o.optlen mem := by
  obtain ⟨heol, href⟩ := not_or.1 hgo
  rw [optlen]
  split
  case isTrue => exact Nat.one_pos
  case isFalse hnop =>
    refine Nat.pos_of_ne_zero fun h0 => href ⟨?_, .inl (.inl h0)⟩
    exact not_or.2 ⟨heol, hnop⟩

end Opt

/-- The options that are met, up to the end or the first one that is refused. -/
def met (h : Host) (mem : Mem) (o : Opt) : List Opt :=
  if _hcnt : 0 < o.cnt then
    o :: if _hgo : o.kind mem = IPOPT_EOL ∨ o.Refused h mem then [] else met h mem (o.next h mem)
  else []
termination_by o.cnt
decreasing_by
  have := Opt.optlen_pos _hgo
  simp only [Opt.next]
  omega

/-- All options that are met fit, and one is refused or none has its pointer advanced by another number. -/
def Good (h : Host) (mem : Mem) (o : Opt) : Prop := (∀ p ∈ met h mem o, p.Fits h mem) ∧
  ((∃ p ∈ met h mem o, p.Refused h mem) ∨ ∀ p ∈ met h mem o, ¬p.Miscounts h mem)

/-! ### Memory -/

theorem Mem.put_of_lt {mem : Mem} {a u : ℕ} (w : Word) (hu : u < a) : mem.put a w u = mem u := by
  rw [Mem.put, if_neg (by omega), if_neg (by omega), if_neg (by omega), if_neg (by omega)]

theorem Mem.put_of_ge {mem : Mem} {a u : ℕ} (w : Word) (hu : a + 4 ≤ u) : mem.put a w u = mem u := by
  rw [Mem.put, if_neg (by omega), if_neg (by omega), if_neg (by omega), if_neg (by omega)]

theorem Mem.word_put (mem : Mem) (a : ℕ) (w : Word) : (mem.put a w).word a = w := by
  simp [Mem.word, Mem.put]

theorem Mem.word_congr {mem mem' : Mem} {a : ℕ} (h : ∀ u, a ≤ u → u < a + 4 → mem' u = mem u) :
    mem'.word a = mem.word a := by
  rw [Mem.word, Mem.word, h a (by omega) (by omega), h (a + 1) (by omega) (by omega), h (a + 2) (by omega) (by omega),
    h (a + 3) (by omega) (by omega)]

/-- There is no space if there is none for an address, unless the length is less than that of an address. -/
theorem noSpace_iff {off len : ℕ} (hoff : off < 256) (hlen : len < 256) :
    noSpace off len = true ↔ 4 ≤ len ∧ len - 4 < off := by
  rw [noSpace, decide_eq_true_iff, BitVec.toNat_sub, BitVec.toNat_ofNat, show (4 : BitVec 32).toNat = 4 from rfl]
  omega

/-! ### Handling an option -/

/-- The option at hand: it has a length, and what is after its start is as it arrived. -/
structure AtHand (mem : Mem) (o : Opt) (s : State) : Prop where
  cp : 20 ≤ o.cp
  cnt : o.cnt ≤ 40
  single : ¬o.Single mem
  len : ¬o.BadLength mem
  same : ∀ a, o.cp ≤ a → s.mem a = mem a
  dst : s.mem.word IP_DST = o.dst

/-- What is done for an option: it stays inside if and only if the option fits, and then nothing after it is
    changed. -/
structure Handled (h : Host) (mem : Mem) (o : Opt) (fits : Prop) (r : Except Bad Unit × State) : Prop where
  inside : (∀ x ∈ r.2.log, x.Inside o.cp (o.len mem) (dataArea mem o.cp)) ↔ 2 ≤ o.len mem ∧ fits
  refused : fits → (r.1 = .ok () ↔ ¬o.Refused h mem)
  same : fits → ∀ a, o.cp + o.len mem ≤ a → r.2.mem a = mem a
  dst : fits → r.1 = .ok () → r.2.mem.word IP_DST = (o.next h mem).dst
  advanced : fits → r.1 = .ok () → HasPointer (o.kind mem) →
    ((r.2.mem (o.cp + 2)).toNat = o.ptr mem + (r.2.log.map Access.stored).sum ↔ ¬o.Miscounts h mem)

/-- The accesses before the `switch`. -/
def fetched (o : Opt) : List Access := [.read (o.cp + 1) 1, .read o.cp 1]

variable {h : Host} {mem : Mem} {o : Opt} {s : State}

theorem AtHand.bounds (hs : AtHand mem o s) : 1 ≤ o.len mem ∧ o.len mem ≤ o.cnt := by
  obtain ⟨h0, hle⟩ := not_or.1 hs.len
  exact ⟨Nat.pos_of_ne_zero h0, not_lt.1 hle⟩

theorem AtHand.fetched_inside (hs : AtHand mem o s) {area : ℕ} :
    (∀ x ∈ fetched o, x.Inside o.cp (o.len mem) area) ↔ 2 ≤ o.len mem := by
  have hlen := hs.bounds.1
  simp only [fetched, List.forall_mem_cons, List.not_mem_nil, false_implies, implies_true, and_true, Access.Inside]
  omega

/-- An option for which nothing is stored. -/
theorem handled_of_same (hs : AtHand mem o s) {fits : Prop} {r : Except Bad Unit × State} (hmem : r.2.mem = s.mem)
    (hins : (∀ x ∈ r.2.log, x.Inside o.cp (o.len mem) (dataArea mem o.cp)) ↔ 2 ≤ o.len mem ∧ fits)
    (hsto : (r.2.log.map Access.stored).sum = 0) (hrefu : fits → (r.1 = .ok () ↔ ¬o.Refused h mem))
    (hdst : fits → r.1 = .ok () → ¬(o.SourceRoute mem ∧ o.Takes h mem))
    (hmis : fits → r.1 = .ok () → ¬o.Miscounts h mem) : Handled h mem o fits r := by
  refine ⟨hins, hrefu, fun _ a ha => ?_, fun hf hok => ?_, fun hf hok _ => ?_⟩
  · rw [hmem, hs.same a (by omega)]
  · rw [hmem, hs.dst]
    exact (if_neg (hdst hf hok)).symm
  · rw [hmem, hs.same _ (by omega), hsto]
    exact iff_of_true rfl (hmis hf hok)

/-!
### Handling each kind of option

Source routes, recorded routes and timestamps are each handled as `Handled` says: a route by whether its pointer
is large enough, the address at it is looked at, and a way to it is found; a timestamp by its length, whether
there is room for a time, and its flags.
-/

open Function List Option

variable {h : Host} {mem : Mem} {o : Opt} {s : State}

/-! ### Routes -/

theorem ptr_lt (mem : Mem) (o : Opt) : o.ptr mem < 256 := (mem (o.cp + 2)).toNat_lt

theorem dataArea_route (hroute : o.Route mem) : dataArea mem o.cp = 3 := by
  refine if_neg fun hts => ?_
  have hts : o.kind mem = IPOPT_TS := hts
  rcases hroute with (hk | hk) | hk <;> exact absurd (hts.symm.trans hk) (by decide)

/-- A route is in the option as far as it fits. -/
theorem takes_bounds (hs : AtHand mem o s) (htks : o.Takes h mem) :
    4 ≤ o.ptr mem ∧ (4 ≤ o.len mem → o.ptr mem + 3 ≤ o.len mem) := by
  have hlen := hs.bounds
  have hcnt := hs.cnt
  have hptr := ptr_lt mem o
  obtain ⟨hmin, -, hspc⟩ := htks
  have hspc := mt (noSpace_iff (by omega) (by omega)).2 (Bool.eq_false_iff.1 hspc)
  rw [IPOPT_MINOFF] at hmin
  omega

/-- The address of a route is replaced, and the pointer advanced. -/
theorem record_handled {s0 : State} (hs : AtHand mem o s0) (hroute : o.Route mem) (htks : o.Takes h mem)
    (href : ¬o.Refused h mem) (hsame : ∀ a, o.cp ≤ a → s.mem a = mem a)
    (hdst : s.mem.word IP_DST = (o.next h mem).dst) (hsto : (s.log.map Access.stored).sum = 0)
    (hins : (∀ x ∈ s.log, x.Inside o.cp (o.len mem) (dataArea mem o.cp)) → 2 ≤ o.len mem)
    (hins' : o.RouteFits h mem → ∀ x ∈ s.log, x.Inside o.cp (o.len mem) (dataArea mem o.cp)) (ia : Word) :
    Handled h mem o (o.RouteFits h mem) (record o.cp (o.ptr mem - 1) ia s) := by
  obtain ⟨hmin, hroom⟩ := takes_bounds hs htks
  have hcp := hs.cp
  have hcnt := hs.cnt
  have hlen := hs.bounds
  have hptr : (s.mem.put (o.cp + (o.ptr mem - 1)) ia) (o.cp + 2) = mem (o.cp + 2) := by
    rw [Mem.put_of_lt _ (by omega), hsame _ (by omega)]
  refine ⟨?_, fun _ => iff_of_true rfl href, fun hf a ha => ?_, fun hf _ => ?_, fun hf _ _ => ?_⟩
  · change (∀ x ∈ .pointer (o.cp + 2) :: .write (o.cp + (o.ptr mem - 1)) 4 :: s.log, Access.Inside _ _ _ x) ↔ _
    rw [forall_mem_cons, forall_mem_cons, dataArea_route hroute] at *
    constructor
    · rintro ⟨-, ⟨-, hend⟩, hlog⟩
      exact ⟨hins hlog, by omega, fun _ => by omega⟩
    · rintro ⟨-, hf⟩
      have hlen4 := hf.2 htks
      have := hroom hlen4
      exact ⟨⟨rfl, hf.1⟩, ⟨by omega, by omega⟩, hins' hf⟩
  · have := hroom (hf.2 htks)
    have hne : a ≠ o.cp + IPOPT_OFFSET := by
      rw [IPOPT_OFFSET]
      omega
    exact (update_of_ne hne ..).trans ((Mem.put_of_ge _ (by omega)).trans (hsame _ (by omega)))
  · rw [← hdst]
    refine Mem.word_congr fun u hlo hhi => ?_
    rw [IP_DST] at hlo hhi
    have hne : u ≠ o.cp + IPOPT_OFFSET := by
      rw [IPOPT_OFFSET]
      omega
    exact (update_of_ne hne ..).trans (Mem.put_of_lt _ (by omega))
  · have := hroom (hf.2 htks)
    have hnew : (update (s.mem.put (o.cp + (o.ptr mem - 1)) ia) (o.cp + 2)
        ((s.mem.put (o.cp + (o.ptr mem - 1)) ia) (o.cp + 2) + 4) (o.cp + 2)).toNat = o.ptr mem + 4 := by
      rw [update_self, hptr, UInt8.toNat_add]
      change (o.ptr mem + 4) % 256 = _
      omega
    refine iff_of_true (hnew.trans ?_) fun hm => ?_
    · change _ = o.ptr mem + (0 + (4 + (s.log.map Access.stored).sum))
      rw [hsto]
    · have hts : o.kind mem = IPOPT_TS := hm.2.1
      rcases hroute with (hk | hk) | hk <;> exact absurd (hts.symm.trans hk) (by decide)

/-! ### Running the steps -/

theorem error_ne_ok (e : Bad) : (.error e : Except Bad Unit) ≠ .ok () := by simp

variable {e : Bad} {r : Except Bad Unit × State} {α : Type} {l : List Access}
  {res : Except Bad Unit}

theorem bind_apply {β : Type} (x : M α) (f : α → M β) (s : State) : (x >>= f) s = match x s with
      | (.ok a, s) => f a s
      | (.error e, s) => (.error e, s) := rfl

theorem pure_apply (x : α) (s : State) : (pure x : M α) s = (.ok x, s) := rfl

theorem ite_run {c : Prop} [Decidable c] (x y : M α) (s : State) :
    (if c then x else y) s = if c then x s else y s := by
  split <;> rfl

/-- The pointer is read. -/
theorem pointer_inside (hs : AtHand mem o s) (area : ℕ) :
    (∀ x ∈ .read (o.cp + IPOPT_OFFSET) 1 :: fetched o, Access.Inside o.cp (o.len mem) area x) ↔ 3 ≤ o.len mem := by
  rw [forall_mem_cons, hs.fetched_inside, Access.Inside, IPOPT_OFFSET]
  omega

/-- The address at the pointer is read. -/
theorem taken_inside (hs : AtHand mem o s) (htks : o.Takes h mem) (area : ℕ) :
    (∀ x ∈ .read (o.cp + (o.ptr mem - 1)) 4 :: .read (o.cp + IPOPT_OFFSET) 1 :: fetched o,
      Access.Inside o.cp (o.len mem) area x) ↔ 2 ≤ o.len mem ∧ o.RouteFits h mem := by
  obtain ⟨hmin, hroom⟩ := takes_bounds hs htks
  rw [forall_mem_cons, pointer_inside hs area, Access.Inside, Opt.RouteFits]
  constructor
  · rintro ⟨hin, hlen⟩
    exact ⟨by omega, hlen, fun _ => by omega⟩
  · rintro ⟨-, hlen, hfour⟩
    have := hroom (hfour htks)
    omega

theorem not_timestamp (hroute : o.Route mem) : o.kind mem ≠ IPOPT_TS := fun hts => by
  rcases hroute with (hk | hk) | hk <;> exact absurd (hts.symm.trans hk) (by decide)

theorem refused_route (hs : AtHand mem o s) (hroute : o.Route mem) :
    o.Refused h mem ↔ o.RouteRefused h mem := by
  refine ⟨fun hr => ?_, fun hr => ⟨hs.single, .inr (.inl ⟨hroute, hr⟩)⟩⟩
  rcases hr.2 with hlen | hr | hts
  · exact absurd hlen hs.len
  · exact hr.2
  · exact absurd hts.1 (not_timestamp hroute)

/-- The pointer is too small. -/
theorem handled_of_minoff (hs : AtHand mem o s) (hroute : o.Route mem) (hmin : o.ptr mem < IPOPT_MINOFF)
    (hr : r.1 = .error e) (hmem : r.2.mem = s.mem)
    (hlog : r.2.log = .read (o.cp + IPOPT_OFFSET) 1 :: fetched o) : Handled h mem o (o.RouteFits h mem) r := by
  refine handled_of_same hs hmem ?_ (by rw [hlog]; rfl) (fun _ => ?_) (fun _ hok => ?_) (fun _ hok => ?_)
  · rw [hlog, pointer_inside hs _]
    exact ⟨fun h3 => ⟨by omega, h3, fun ht => absurd ht.1 (not_le.2 hmin)⟩, fun hf => hf.2.1⟩
  · rw [hr, refused_route hs hroute]
    exact iff_of_false (error_ne_ok _) (not_not.2 (.inl hmin))
  · exact absurd (hr.symm.trans hok) (error_ne_ok e)
  · exact absurd (hr.symm.trans hok) (error_ne_ok e)

/-- Nothing is looked at but the pointer. -/
theorem handled_of_not_takes (hs : AtHand mem o s) (hroute : o.Route mem) (htks : ¬o.Takes h mem)
    (hmin : ¬o.ptr mem < IPOPT_MINOFF) (hmem : r.2.mem = s.mem)
    (hr : r.1 = .ok () ↔ ¬(o.kind mem = IPOPT_SSRR ∧ h.ifwithaddr o.dst = false))
    (hsto : (r.2.log.map Access.stored).sum = 0)
    (hins : (∀ x ∈ r.2.log, x.Inside o.cp (o.len mem) (dataArea mem o.cp)) ↔ 3 ≤ o.len mem) :
    Handled h mem o (o.RouteFits h mem) r := by
  refine handled_of_same hs hmem ?_ hsto (fun _ => ?_) (fun _ _ ht => htks ht.2)
    (fun _ _ hm => not_timestamp hroute hm.2.1)
  · rw [hins]
    exact ⟨fun h3 => ⟨by omega, h3, fun ht => absurd ht htks⟩, fun hf => hf.2.1⟩
  · rw [hr, refused_route hs hroute]
    refine not_congr ⟨fun hn => .inr (.inl hn), fun hn => ?_⟩
    rcases hn with hlt | hn | hn
    · exact absurd hlt hmin
    · exact hn
    · exact absurd hn.1 htks

/-- An address is looked at, and the option is refused for it. -/
theorem handled_of_srcfail (hs : AtHand mem o s) (hroute : o.Route mem) (htks : o.Takes h mem)
    (hfail : o.kind mem = IPOPT_SSRR ∧ h.iaonnetof (o.addr mem) = false ∨ h.rtaddr (o.addr mem) = none)
    (hr : r.1 = .error e) (hmem : r.2.mem = s.mem)
    (hsto : (r.2.log.map Access.stored).sum = 0)
    (hins : (∀ x ∈ r.2.log, x.Inside o.cp (o.len mem) (dataArea mem o.cp)) ↔ 2 ≤ o.len mem ∧ o.RouteFits h mem) :
    Handled h mem o (o.RouteFits h mem) r := by
  refine handled_of_same hs hmem hins hsto (fun _ => ?_) (fun _ hok => ?_) (fun _ hok => ?_)
  · rw [hr, refused_route hs hroute]
    exact iff_of_false (error_ne_ok _) (not_not.2 (.inr (.inr ⟨htks, hfail⟩)))
  · exact absurd (hr.symm.trans hok) (error_ne_ok e)
  · exact absurd (hr.symm.trans hok) (error_ne_ok e)

theorem addr_eq (hs : AtHand mem o s) (hptr : 1 ≤ o.ptr mem) :
    s.mem.word (o.cp + (o.ptr mem - 1)) = o.addr mem := by
  rw [Opt.addr, Nat.add_sub_assoc hptr]
  exact Mem.word_congr fun u hu _ => hs.same u (by omega)

/-- An access to the header is of its addresses. -/
theorem header_inside {P : Prop} {cp len area a : ℕ} (ha : a ≤ IP_DST)
    (hl : (∀ x ∈ l, Access.Inside cp len area x) ↔ P) :
    (∀ x ∈ .header a 4 :: l, Access.Inside cp len area x) ↔ P := by
  rw [forall_mem_cons, hl]
  exact and_iff_right (show a + 4 ≤ 20 by rw [IP_DST] at ha; omega)

/-- A source route is saved, in `ip_srcrt` and out of the option. -/
theorem saveRte_run (len cp : ℕ) (hlen : 4 ≤ len ∧ len ≤ 40) (hs : (s.mem (cp + IPOPT_OLEN)).toNat = len) :
    ∃ srcrt n, n ≤ 9 ∧ saveRte cp s = (.ok (), ⟨s.mem, srcrt, n + 1, .save (4 + 4 * n) 4 :: .save 1 len ::
      .read cp len :: .read (cp + IPOPT_OLEN) 1 :: .header IP_SRC 4 :: s.log⟩) := by
  have hhops : (BitVec.ofNat 32 len - 2 - 1).toNat / 4 ≤ 9 := by
    rw [BitVec.toNat_sub, BitVec.toNat_sub, BitVec.toNat_ofNat, show (2 : BitVec 32).toNat = 2 from rfl,
      show (1 : BitVec 32).toNat = 1 from rfl]
    omega
  have hsize : ¬sizeofSrcrt - 1 < len := by
    rw [sizeofSrcrt]
    omega
  rw [saveRte]
  simp only [bind_apply, rd, rdHeader, hs, ite_run, if_neg hsize, saveOption, saveHop]
  exact ⟨_, _, hhops, rfl⟩

theorem sourceRoute_handled (hs : AtHand mem o s) (hlog : s.log = fetched o) (hk : o.SourceRoute mem) :
    Handled h mem o (o.RouteFits h mem) (sourceRoute h (o.kind mem = IPOPT_SSRR) o.cp (o.len mem) s) := by
  have hptr : (s.mem (o.cp + IPOPT_OFFSET)).toNat = o.ptr mem := congrArg UInt8.toNat (hs.same _ (by omega))
  have hroute : o.Route mem := .inl hk
  have hpoi := header_inside le_rfl (pointer_inside hs (dataArea mem o.cp))
  rw [sourceRoute]
  simp only [bind_apply, rd, rdHeader, ite_run, bad, pure_apply, hptr, hs.dst, hlog, decide_eq_true_eq]
  split_ifs with hmin hours hstr hspc
  · exact handled_of_minoff hs hroute hmin rfl rfl rfl
  · have htks : ¬o.Takes h mem := fun ht => by
      rw [ht.2.1 hk] at hours
      cases hours
    exact handled_of_not_takes hs hroute htks hmin rfl (iff_of_false (error_ne_ok _) (not_not.2 ⟨hstr, hours⟩)) rfl hpoi
  · have htks : ¬o.Takes h mem := fun ht => by
      rw [ht.2.1 hk] at hours
      cases hours
    exact handled_of_not_takes hs hroute htks hmin rfl (iff_of_true rfl fun hn => hstr hn.1) rfl hpoi
  · -- End of source route.
    have hoff := ptr_lt mem o
    have hlen := hs.bounds
    have hcnt := hs.cnt
    have hfour := ((noSpace_iff (by omega) (by omega)).1 hspc).1
    have htks : ¬o.Takes h mem := fun ht => by
      rw [ht.2.2] at hspc
      cases hspc
    obtain ⟨srcrt, n, hn, hsave⟩ := saveRte_run (o.len mem) o.cp
      (s := { s with log := .header IP_DST 4 :: .read (o.cp + IPOPT_OFFSET) 1 :: fetched o }) ⟨hfour, by omega⟩
      (congrArg UInt8.toNat (hs.same _ (by omega)))
    rw [hsave]
    refine handled_of_not_takes hs hroute htks hmin rfl (iff_of_true rfl fun hn => hours hn.2) rfl ?_
    have hsaved : n * 4 + 8 ≤ sizeofSrcrt ∧ 1 + o.len mem ≤ sizeofSrcrt := by
      rw [sizeofSrcrt]
      omega
    rw [forall_mem_cons, forall_mem_cons, forall_mem_cons, forall_mem_cons,
      header_inside (by decide) hpoi]
    simp only [Access.Inside, IPOPT_OLEN]
    omega
  · have htks : o.Takes h mem := ⟨not_lt.1 hmin, fun _ => Bool.not_eq_false _ |>.mp hours,
      Bool.not_eq_true _ |>.mp hspc⟩
    have hfour : 4 ≤ o.ptr mem := htks.1
    have haddr := addr_eq hs (by omega)
    have hloo : (∀ x ∈ .read (o.cp + (o.ptr mem - 1)) 4 :: .header IP_DST 4 ::
        .read (o.cp + IPOPT_OFFSET) 1 :: fetched o, Access.Inside o.cp (o.len mem) (dataArea mem o.cp) x) ↔
        2 ≤ o.len mem ∧ o.RouteFits h mem := by
      rw [forall_mem_cons, header_inside le_rfl Iff.rfl, ← forall_mem_cons]
      exact taken_inside hs htks _
    simp only [rdWord, haddr]
    split_ifs with hnet
    · exact handled_of_srcfail hs hroute htks (.inl hnet) rfl rfl rfl hloo
    · cases hrt : h.rtaddr (o.addr mem) with
      | none => exact handled_of_srcfail hs hroute htks (.inr hrt) rfl rfl rfl hloo
      | some ia =>
        have href : ¬o.Refused h mem := fun hr => by
          rcases (refused_route hs hroute).1 hr with hlt | hn | ⟨-, hn | hn⟩
          · exact hmin hlt
          · exact hours hn.2
          · exact hnet hn
          · exact absurd (hrt.symm.trans hn) (some_ne_none _)
        refine record_handled hs hroute htks href (fun a ha => ?_) ?_ rfl (fun hl => ?_) (fun hf => ?_) ia
        · have hcp := hs.cp
          exact (Mem.put_of_ge _ (by rw [IP_DST]; omega)).trans (hs.same a ha)
        · exact (Mem.word_put ..).trans (if_pos ⟨hk, htks⟩).symm
        · exact (hloo.1 (forall_mem_cons.1 hl).2).1
        · exact forall_mem_cons.2 ⟨(by decide : IP_DST + 4 ≤ 20), hloo.2 ⟨by have := hf.1; omega, hf⟩⟩

theorem recordRoute_handled (hs : AtHand mem o s) (hlog : s.log = fetched o) (hk : o.kind mem = IPOPT_RR) :
    Handled h mem o (o.RouteFits h mem) (recordRoute h o.cp (o.len mem) s) := by
  have hptr : (s.mem (o.cp + IPOPT_OFFSET)).toNat = o.ptr mem := congrArg UInt8.toNat (hs.same _ (by omega))
  have hroute : o.Route mem := .inr hk
  have hsou : ¬o.SourceRoute mem := by
    rintro (hl | hl) <;> exact absurd (hk.symm.trans hl) (by decide)
  have hstr : o.kind mem ≠ IPOPT_SSRR := fun hl => hsou (.inr hl)
  rw [recordRoute]
  simp only [bind_apply, rd, ite_run, bad, pure_apply, hptr, hlog]
  split_ifs with hmin hspc
  · exact handled_of_minoff hs hroute hmin rfl rfl rfl
  · have htks : ¬o.Takes h mem := fun ht => by
      rw [ht.2.2] at hspc
      cases hspc
    exact handled_of_not_takes hs hroute htks hmin rfl (iff_of_true rfl fun hn => hstr hn.1) rfl
      (pointer_inside hs _)
  · have htks : o.Takes h mem := ⟨not_lt.1 hmin, fun hn => absurd hn hsou, Bool.not_eq_true _ |>.mp hspc⟩
    have hfour : 4 ≤ o.ptr mem := htks.1
    have htkn := taken_inside hs htks (dataArea mem o.cp)
    simp only [rdWord, addr_eq hs (show 1 ≤ o.ptr mem by omega)]
    cases hrt : h.rtaddr (o.addr mem) with
    | none => exact handled_of_srcfail hs hroute htks (.inr hrt) rfl rfl rfl htkn
    | some ia =>
      have href : ¬o.Refused h mem := fun hr => by
        rcases (refused_route hs hroute).1 hr with hlt | hn | ⟨-, hn | hn⟩
        · exact hmin hlt
        · exact hstr hn.1
        · exact hstr hn.1
        · exact absurd (hrt.symm.trans hn) (some_ne_none _)
      have hnx : s.mem.word IP_DST = (o.next h mem).dst := hs.dst.trans (if_neg fun hn => hsou hn.1).symm
      exact record_handled (s := { s with
          log := .read (o.cp + (o.ptr mem - 1)) 4 :: .read (o.cp + IPOPT_OFFSET) 1 :: fetched o })
        hs hroute htks href hs.same hnx rfl (fun hl => (htkn.1 hl).1)
        (fun hf => htkn.2 ⟨by have := hf.1; omega, hf⟩) ia

/-! ### Timestamps -/

/-- An access is outside, and the option does not fit. -/
theorem handled_of_outside {fits : Prop} {x : Access} (hfits : ¬fits) (hx : x ∈ r.2.log)
    (hout : ¬x.Inside o.cp (o.len mem) (dataArea mem o.cp)) : Handled h mem o fits r :=
  ⟨iff_of_false (fun hall => hout (hall x hx)) fun hf => hfits hf.2, fun hf => absurd hf hfits,
    fun hf => absurd hf hfits, fun hf => absurd hf hfits, fun hf => absurd hf hfits⟩

theorem refused_time (hs : AtHand mem o s) (hk : o.kind mem = IPOPT_TS) :
    o.Refused h mem ↔ o.TimeRefused h mem := by
  refine ⟨fun hr => ?_, fun hr => ⟨hs.single, .inr (.inr ⟨hk, hr⟩)⟩⟩
  rcases hr.2 with hlen | hr | hts
  · exact absurd hlen hs.len
  · exact absurd hk (not_timestamp hr.1)
  · exact hts.2

theorem timestamp_next (hk : o.kind mem = IPOPT_TS) : (o.next h mem).dst = o.dst :=
  if_neg fun hn => not_timestamp (.inl hn.1) hk

/-- A timestamp that is refused or passed over. -/
theorem handled_of_passed (hs : AtHand mem o s) (hk : o.kind mem = IPOPT_TS)
    (hmem : r.2.mem = s.mem) (hsto : (r.2.log.map Access.stored).sum = 0)
    (hins : (∀ x ∈ r.2.log, x.Inside o.cp (o.len mem) (dataArea mem o.cp)) ↔ 2 ≤ o.len mem ∧ o.TimeFits h mem)
    (href : r.1 = .ok () ↔ ¬o.TimeRefused h mem) (hmis : r.1 = .ok () → ¬o.StampsAddr h mem) :
    Handled h mem o (o.TimeFits h mem) r :=
  handled_of_same hs hmem hins hsto (fun _ => by rw [href, refused_time hs hk])
    (fun _ _ hn => not_timestamp (.inl hn.1) hk) (fun _ hok hm => hmis hok hm.2.2.2)

/-- A timestamp that is recorded after the flags. -/
theorem handled_of_stamped (hs : AtHand mem o s) (hk : o.kind mem = IPOPT_TS) (hroom : o.Room mem)
    (hfive : o.TimeFits h mem ↔ 5 ≤ o.ptr mem) (hok : r.1 = .ok ())
    (hins : (∀ x ∈ r.2.log, x.Inside o.cp (o.len mem) (dataArea mem o.cp)) ↔ 5 ≤ o.ptr mem)
    (href : ¬o.TimeRefused h mem)
    (hmem : 5 ≤ o.ptr mem → ∀ a, a < o.cp + 2 ∨ o.cp + o.len mem ≤ a → r.2.mem a = s.mem a)
    (hadv : 5 ≤ o.ptr mem → ((r.2.mem (o.cp + 2)).toNat = o.ptr mem + (r.2.log.map Access.stored).sum ↔
      ¬o.StampsAddr h mem)) : Handled h mem o (o.TimeFits h mem) r := by
  refine ⟨?_, fun _ => ?_, fun hf a ha => ?_, fun hf _ => ?_, fun hf _ _ => ?_⟩
  · rw [hins, hfive]
    exact ⟨fun h5 => ⟨by have := hroom.1; omega, h5⟩, fun h5 => h5.2⟩
  · rw [hok, refused_time hs hk]
    exact iff_of_true rfl href
  · rw [hmem (hfive.1 hf) a (.inr ha), hs.same a (by omega)]
  · rw [timestamp_next hk, ← hs.dst]
    refine Mem.word_congr fun u hlo hhi => hmem (hfive.1 hf) u (.inl ?_)
    have := hs.cp
    rw [IP_DST] at hhi
    omega
  · rw [hadv (hfive.1 hf)]
    exact not_congr ⟨fun hst => ⟨hs.len, hk, hroom, hst⟩, fun hm => hm.2.2.2⟩

/-- The fields of a timestamp are read. -/
def fields (o : Opt) : List Access :=
  .read (o.cp + 3) 1 :: .read (o.cp + IPOPT_OFFSET) 1 :: .read (o.cp + IPOPT_OLEN) 1 :: fetched o

theorem fields_inside (hs : AtHand mem o s) (hlen : 5 ≤ o.len mem) (area : ℕ) :
    ∀ x ∈ fields o, Access.Inside o.cp (o.len mem) area x := by
  rw [fields, forall_mem_cons, forall_mem_cons, forall_mem_cons, hs.fetched_inside]
  simp only [Access.Inside, IPOPT_OFFSET, IPOPT_OLEN]
  omega

/-- What is stored at `sin` is in the option, and its pointer is advanced. -/
theorem stamp_mem {m : Mem} {cp sin len : ℕ} (w : Word) (hlo : cp + 4 ≤ sin) (hhi : sin + 4 ≤ cp + len) :
    (∀ a, a < cp + 2 ∨ cp + len ≤ a →
      update (m.put sin w) (cp + 2) ((m.put sin w) (cp + 2) + 4) a = m a) ∧
    update (m.put sin w) (cp + 2) ((m.put sin w) (cp + 2) + 4) (cp + 2) = m (cp + 2) + 4 := by
  refine ⟨fun a ha => ?_, ?_⟩
  · rw [update_of_ne (by omega)]
    rcases ha with ha | ha
    · exact Mem.put_of_lt _ (by omega)
    · exact Mem.put_of_ge _ (by omega)
  · rw [update_self, Mem.put_of_lt _ (by omega)]

theorem toNat_add_four {x : UInt8} (hx : x.toNat < 252) : (x + 4).toNat = x.toNat + 4 := by
  rw [UInt8.toNat_add]
  exact Nat.mod_eq_of_lt (by change x.toNat + 4 < 256; omega)

theorem ptr_toNat (hs : AtHand mem o s) : (s.mem (o.cp + 2)).toNat = o.ptr mem :=
  congrArg UInt8.toNat (hs.same _ (by omega))

theorem Opt.Room.bounds (hroom : o.Room mem) : 5 ≤ o.len mem ∧ o.ptr mem + 4 ≤ o.len mem := by
  obtain ⟨hlen, hptr⟩ := hroom
  omega

/-- `IPOPT_TS_TSONLY`. -/
theorem tsonly_handled (hs : AtHand mem o s) (hk : o.kind mem = IPOPT_TS) (hroom : o.Room mem)
    (hflg : o.flg mem = IPOPT_TS_TSONLY) : Handled h mem o (o.TimeFits h mem)
      (stamp h o.cp (o.cp + o.ptr mem - 1) { s with log := fields o }) := by
  have harea : dataArea mem o.cp = 4 := if_pos hk
  obtain ⟨hlen, hptr⟩ := hroom.bounds
  have hle := hs.bounds.2
  have hcnt := hs.cnt
  have hnot : ¬o.StampsAddr h mem := fun hst => by
    rcases hst.2 with hn | hn <;> exact absurd (hflg.symm.trans hn.1) (by decide)
  refine handled_of_stamped hs hk hroom ⟨fun hf => (hf hroom).2 (.inl hflg), fun h5 _ => ⟨fun _ => by omega, fun _ => h5⟩⟩
    rfl ?_ (fun hr => ?_) (fun h5 => (stamp_mem _ (by omega) (by omega)).1) fun h5 => ?_
  · change (∀ x ∈ .pointer (o.cp + IPOPT_OFFSET) :: .write (o.cp + o.ptr mem - 1) 4 :: fields o,
      Access.Inside o.cp (o.len mem) (dataArea mem o.cp) x) ↔ _
    rw [forall_mem_cons, forall_mem_cons, harea, and_iff_left (fields_inside hs hlen _)]
    simp only [Access.Inside, IPOPT_OFFSET, true_and]
    omega
  · rcases hr with hlt | ⟨hlt, -⟩ | ⟨-, hn | hn | hn⟩
    · omega
    · omega
    · exact absurd (hflg.symm.trans hn.1) (by decide)
    · exact absurd (hflg.symm.trans hn.1) (by decide)
    · rw [hflg] at hn
      exact absurd hn (by decide)
  · refine iff_of_true ?_ hnot
    have hnew := (stamp_mem (m := s.mem) (h.iptime o.cp) (show o.cp + 4 ≤ o.cp + o.ptr mem - 1 by omega)
      (show o.cp + o.ptr mem - 1 + 4 ≤ o.cp + o.len mem by omega)).2
    refine (congrArg UInt8.toNat hnew).trans ?_
    rw [toNat_add_four (by rw [ptr_toNat hs]; omega), ptr_toNat hs]
    rfl

/-- `IPOPT_TS_TSANDADDR`: the pointer is advanced by the time alone. -/
theorem tsandaddr_handled (hs : AtHand mem o s) (hk : o.kind mem = IPOPT_TS) (hroom : o.Room mem)
    (hflg : o.flg mem = IPOPT_TS_TSANDADDR) (hfits : o.ptr mem + 8 ≤ o.len mem) {ia : Word} (hia : h.ifaddr = some ia) :
    Handled h mem o (o.TimeFits h mem) ((do
      wrWord (o.cp + o.ptr mem - 1) ia
      stamp h o.cp (o.cp + o.ptr mem - 1 + 4) : M Unit) { s with log := fields o }) := by
  have harea : dataArea mem o.cp = 4 := if_pos hk
  have hlen := hroom.1
  have hle := hs.bounds.2
  have hcnt := hs.cnt
  have hst : o.StampsAddr h mem := ⟨hfits, .inl ⟨hflg, by rw [hia]; exact some_ne_none _⟩⟩
  refine handled_of_stamped hs hk hroom ⟨fun hf => (hf hroom).2 (.inr hst), fun h5 _ => ⟨fun _ => by omega, fun _ => h5⟩⟩
    rfl ?_ (fun hr => ?_) (fun h5 a ha => ?_) fun h5 => ?_
  · change (∀ x ∈ .pointer (o.cp + IPOPT_OFFSET) :: .write (o.cp + o.ptr mem - 1 + 4) 4 ::
      .write (o.cp + o.ptr mem - 1) 4 :: fields o, Access.Inside o.cp (o.len mem) (dataArea mem o.cp) x) ↔ _
    rw [forall_mem_cons, forall_mem_cons, forall_mem_cons, harea, and_iff_left (fields_inside hs hlen _)]
    simp only [Access.Inside, IPOPT_OFFSET, true_and]
    omega
  · rcases hr with hlt | ⟨hlt, -⟩ | ⟨-, ⟨-, hn⟩ | hn | hn⟩
    · omega
    · omega
    · rcases hn with hn | hn
      · omega
      · exact absurd (hia.symm.trans hn) (some_ne_none _)
    · exact absurd (hflg.symm.trans hn.1) (by decide)
    · rw [hflg] at hn
      exact absurd hn (by decide)
  · refine ((stamp_mem _ (by omega) (by omega)).1 a ha).trans ?_
    rcases ha with ha | ha
    · exact Mem.put_of_lt _ (by omega)
    · exact Mem.put_of_ge _ (by omega)
  · refine iff_of_false (fun heq => ?_) (not_not.2 hst)
    have hnew := (stamp_mem (m := s.mem.put (o.cp + o.ptr mem - 1) ia) (h.iptime o.cp)
      (show o.cp + 4 ≤ o.cp + o.ptr mem - 1 + 4 by omega)
      (show o.cp + o.ptr mem - 1 + 4 + 4 ≤ o.cp + o.len mem by omega)).2
    have hold : s.mem.put (o.cp + o.ptr mem - 1) ia (o.cp + 2) = s.mem (o.cp + 2) := Mem.put_of_lt _ (by omega)
    have hfour := congrArg UInt8.toNat (hnew.trans (congrArg (· + 4) hold))
    rw [toNat_add_four (by rw [ptr_toNat hs]; omega), ptr_toNat hs] at hfour
    exact absurd (hfour.symm.trans heq) (show o.ptr mem + 4 ≠ o.ptr mem + (0 + (4 + (4 + 0))) by omega)

/-- `IPOPT_TS_PRESPEC`, with an address of ours: the time is stored over the address. -/
theorem prespec_handled (hs : AtHand mem o s) (hk : o.kind mem = IPOPT_TS) (hroom : o.Room mem)
    (hflg : o.flg mem = IPOPT_TS_PRESPEC) (hfits : o.ptr mem + 8 ≤ o.len mem)
    (hours : h.ifwithaddr (o.addr mem) = true) : Handled h mem o (o.TimeFits h mem) ((do
      advance (o.cp + IPOPT_OFFSET) 4
      stamp h o.cp (o.cp + o.ptr mem - 1) : M Unit) { s with log := .read (o.cp + o.ptr mem - 1) 4 :: fields o }) := by
  have harea : dataArea mem o.cp = 4 := if_pos hk
  have hlen := hroom.1
  have hle := hs.bounds.2
  have hcnt := hs.cnt
  have hst : o.StampsAddr h mem := ⟨hfits, .inr ⟨hflg, hours⟩⟩
  refine handled_of_stamped hs hk hroom ⟨fun hf => (hf hroom).2 (.inr hst), fun h5 _ => ⟨fun _ => by omega, fun _ => h5⟩⟩
    rfl ?_ (fun hr => ?_) (fun h5 a ha => ?_) fun h5 => ?_
  · change (∀ x ∈ .pointer (o.cp + IPOPT_OFFSET) :: .write (o.cp + o.ptr mem - 1) 4 :: .pointer (o.cp + IPOPT_OFFSET) ::
      .read (o.cp + o.ptr mem - 1) 4 :: fields o, Access.Inside o.cp (o.len mem) (dataArea mem o.cp) x) ↔ _
    rw [forall_mem_cons, forall_mem_cons, forall_mem_cons, forall_mem_cons, harea,
      and_iff_left (fields_inside hs hlen _)]
    simp only [Access.Inside, IPOPT_OFFSET, true_and]
    omega
  · rcases hr with hlt | ⟨hlt, -⟩ | ⟨-, hn | ⟨-, -, hn⟩ | hn⟩
    · omega
    · omega
    · exact absurd (hflg.symm.trans hn.1) (by decide)
    · omega
    · rw [hflg] at hn
      exact absurd hn (by decide)
  · refine ((stamp_mem _ (by omega) (by omega)).1 a ha).trans (update_of_ne ?_ ..)
    rw [IPOPT_OFFSET]
    omega
  · refine iff_of_false (fun heq => ?_) (not_not.2 hst)
    have hnew := (stamp_mem (m := update s.mem (o.cp + 2) (s.mem (o.cp + 2) + 4)) (h.iptime o.cp)
      (show o.cp + 4 ≤ o.cp + o.ptr mem - 1 by omega)
      (show o.cp + o.ptr mem - 1 + 4 ≤ o.cp + o.len mem by omega)).2
    have hold : update s.mem (o.cp + 2) (s.mem (o.cp + 2) + 4) (o.cp + 2) = s.mem (o.cp + 2) + 4 :=
      update_self ..
    have height := congrArg UInt8.toNat (hnew.trans (congrArg (· + 4) hold))
    have hfour := toNat_add_four (x := s.mem (o.cp + 2)) (by rw [ptr_toNat hs]; omega)
    rw [ptr_toNat hs] at hfour
    rw [toNat_add_four (by rw [hfour]; omega), hfour] at height
    exact absurd (height.symm.trans heq) (show o.ptr mem + 4 + 4 ≠ o.ptr mem + (0 + (4 + (0 + (0 + 0)))) by omega)

/-- `IPOPT_TS_PRESPEC`: the address is read, and nothing is stored. -/
theorem prespec_passed (hs : AtHand mem o s) (hk : o.kind mem = IPOPT_TS) (hroom : o.Room mem)
    (hflg : o.flg mem = IPOPT_TS_PRESPEC) (hpos : 1 ≤ o.ptr mem) (hst : ¬o.StampsAddr h mem)
    (href : res = .ok () ↔ ¬o.TimeRefused h mem) :
    Handled h mem o (o.TimeFits h mem) (res, { s with log := .read (o.cp + o.ptr mem - 1) 4 :: fields o }) := by
  have hlen := hroom.1
  have hread : ∀ x ∈ .read (o.cp + o.ptr mem - 1) 4 :: fields o,
      Access.Inside o.cp (o.len mem) (dataArea mem o.cp) x := by
    refine forall_mem_cons.2 ⟨?_, fields_inside hs hlen _⟩
    have := hroom.bounds
    simp only [Access.Inside]
    omega
  have hfits : o.TimeFits h mem := fun _ => ⟨fun _ => hpos, fun hn => by
    rcases hn with hn | hn
    · exact absurd (hflg.symm.trans hn) (by decide)
    · exact absurd hn hst⟩
  exact handled_of_passed hs hk rfl rfl (iff_of_true hread ⟨by omega, hfits⟩) href fun _ => hst

/-- There is no room: the overflow count is updated, in the upper bits of the byte after the pointer. -/
theorem overflow_handled (hs : AtHand mem o s) (hk : o.kind mem = IPOPT_TS) (hlen : 5 ≤ o.len mem)
    (hfull : o.len mem - 4 < o.ptr mem) {v : UInt8}
    (hl : l = .overflow (o.cp + 3) :: .read (o.cp + IPOPT_OFFSET) 1 :: .read (o.cp + IPOPT_OLEN) 1 :: fetched o)
    (hres : res = .ok () ↔ o.oflw mem ≠ 15) :
    Handled h mem o (o.TimeFits h mem) (res, { s with mem := update s.mem (o.cp + 3) v, log := l }) := by
  have hroom : ¬o.Room mem := fun hr => absurd hr.2 (by omega)
  have hsame (a : ℕ) (ha : a ≠ o.cp + 3) : update s.mem (o.cp + 3) v a = s.mem a :=
    update_of_ne ha ..
  refine ⟨?_, fun _ => ?_, fun _ a ha => ?_, fun _ _ => ?_, fun _ _ _ => ?_⟩
  · refine iff_of_true ?_ ⟨by omega, fun hr => absurd hr hroom⟩
    rw [hl, forall_mem_cons, forall_mem_cons, forall_mem_cons, hs.fetched_inside]
    simp only [Access.Inside, IPOPT_OFFSET, IPOPT_OLEN, true_and]
    omega
  · rw [hres, refused_time hs hk]
    refine not_congr ⟨fun hn => .inr (.inl ⟨hfull, hn⟩), fun hr => ?_⟩
    rcases hr with hlt | hn | hn
    · omega
    · exact hn.2
    · omega
  · exact (hsame a (by omega)).trans (hs.same a (by omega))
  · rw [timestamp_next hk, ← hs.dst]
    have := hs.cp
    refine Mem.word_congr fun u hlo hhi => hsame u ?_
    rw [IP_DST] at hhi
    omega
  · refine iff_of_true ?_ fun hm => hroom hm.2.2.1
    rw [hl]
    exact (congrArg UInt8.toNat (hsame _ (by omega))).trans (ptr_toNat hs)

theorem timestamp_handled (hs : AtHand mem o s) (hlog : s.log = fetched o) (hk : o.kind mem = IPOPT_TS) :
    Handled h mem o (o.TimeFits h mem) (timestamp h o.cp s) := by
  have hlen : (s.mem (o.cp + IPOPT_OLEN)).toNat = o.len mem := congrArg UInt8.toNat (hs.same _ (by omega))
  have hflg : (s.mem (o.cp + 3)).toNat % 16 = o.flg mem := congrArg (·.toNat % 16) (hs.same _ (by omega))
  have hoflw : (s.mem (o.cp + 3)).toNat / 16 = o.oflw mem := congrArg (·.toNat / 16) (hs.same _ (by omega))
  have hptr : (s.mem (o.cp + IPOPT_OFFSET)).toNat = o.ptr mem := ptr_toNat hs
  rw [timestamp]
  simp only [bind_apply, rd, ite_run, bad, pure_apply, hptr, hlen, hflg, hlog]
  by_cases hsht : o.len mem < 5
  · rw [if_pos hsht]
    have hroom : ¬o.Room mem := fun hr => absurd hr.1 (by omega)
    refine handled_of_passed hs hk rfl rfl ?_ (iff_of_false (error_ne_ok _) (not_not.2 (.inl hsht)))
      fun hok => absurd hok (error_ne_ok _)
    rw [forall_mem_cons, hs.fetched_inside]
    simp only [Access.Inside, IPOPT_OLEN]
    exact ⟨fun hf => ⟨hf.2, fun hr => absurd hr hroom⟩, fun hf => ⟨by omega, hf.1⟩⟩
  rw [if_neg hsht]
  by_cases hfull : o.len mem - 4 < o.ptr mem
  · rw [if_pos hfull]
    simp only [bumpOverflow, hoflw]
    have hof : o.oflw mem < 16 := by
      have := (mem (o.cp + 3)).toNat_lt
      rw [Opt.oflw]
      omega
    split
    case isTrue hzero => exact overflow_handled hs hk (not_lt.1 hsht) hfull rfl (iff_of_false (error_ne_ok _) (by omega))
    case isFalse hzero => exact overflow_handled hs hk (not_lt.1 hsht) hfull rfl (iff_of_true rfl (by omega))
  rw [if_neg hfull]
  have hroom : o.Room mem := ⟨not_lt.1 hsht, not_lt.1 hfull⟩
  have hbase := fields_inside hs hroom.1 (dataArea mem o.cp)
  -- nothing is stored, and no more is read
  have hpas (hpre : o.flg mem ≠ IPOPT_TS_PRESPEC) (hts : o.flg mem ≠ IPOPT_TS_TSONLY)
      (hst : ¬o.StampsAddr h mem) (hr : o.TimeRefused h mem) (e : Bad) :
      Handled h mem o (o.TimeFits h mem) (.error e, { s with log := fields o }) := by
    refine handled_of_passed hs hk rfl rfl (iff_of_true hbase ⟨by omega, fun _ => ⟨fun hn => absurd hn hpre, ?_⟩⟩)
      (iff_of_false (error_ne_ok _) (not_not.2 hr)) fun hok => absurd hok (error_ne_ok _)
    rintro (hn | hn)
    · exact absurd hn hts
    · exact absurd hn hst
  by_cases htso : o.flg mem = IPOPT_TS_TSONLY
  · rw [if_pos htso]
    exact tsonly_handled hs hk hroom htso
  rw [if_neg htso]
  by_cases htsa : o.flg mem = IPOPT_TS_TSANDADDR
  · rw [if_pos htsa]
    have hpre : o.flg mem ≠ IPOPT_TS_PRESPEC := fun hn => absurd (htsa.symm.trans hn) (by decide)
    by_cases hno : o.len mem < o.ptr mem + 8
    · rw [if_pos hno]
      exact hpas hpre htso (fun hst => absurd hst.1 (by omega))
        (.inr (.inr ⟨not_lt.1 hfull, .inl ⟨htsa, .inl hno⟩⟩)) _
    rw [if_neg hno]
    cases hia : h.ifaddr with
    | none =>
      refine hpas hpre htso (fun hst => ?_) (.inr (.inr ⟨not_lt.1 hfull, .inl ⟨htsa, .inr hia⟩⟩)) _
      rcases hst.2 with hn | hn
      · exact hn.2 hia
      · exact hpre hn.1
    | some ia => exact tsandaddr_handled hs hk hroom htsa (not_lt.1 hno) hia
  rw [if_neg htsa]
  by_cases hpres : o.flg mem = IPOPT_TS_PRESPEC
  · rw [if_pos hpres]
    simp only [rdWord]
    by_cases hpos : 1 ≤ o.ptr mem
    · have haddr : s.mem.word (o.cp + o.ptr mem - 1) = o.addr mem := Mem.word_congr fun u hu _ => hs.same u (by omega)
      rw [haddr]
      by_cases hours : h.ifwithaddr (o.addr mem) = false
      · rw [if_pos hours]
        have hst : ¬o.StampsAddr h mem := fun hst => by
          rcases hst.2 with hn | hn
          · exact htsa hn.1
          · exact Bool.false_ne_true (hours.symm.trans hn.2)
        refine prespec_passed hs hk hroom hpres hpos hst (iff_of_true rfl fun hr => ?_)
        rcases hr with hlt | ⟨hlt, -⟩ | ⟨-, hn | ⟨-, hn, -⟩ | hn⟩
        · exact hsht hlt
        · exact hfull hlt
        · exact htsa hn.1
        · exact Bool.false_ne_true (hours.symm.trans hn)
        · rw [hpres] at hn
          exact absurd hn (by decide)
      rw [if_neg hours]
      have hours := Bool.not_eq_false _ |>.mp hours
      by_cases hno : o.len mem < o.ptr mem + 8
      · rw [if_pos hno]
        have hst : ¬o.StampsAddr h mem := fun hst => absurd hst.1 (by omega)
        exact prespec_passed hs hk hroom hpres hpos hst (iff_of_false (error_ne_ok _)
          (not_not.2 (.inr (.inr ⟨not_lt.1 hfull, .inr (.inl ⟨hpres, hours, hno⟩)⟩))))
      · rw [if_neg hno]
        exact prespec_handled hs hk hroom hpres (not_lt.1 hno) hours
    · -- the address would begin before the option
      have hnot : ¬o.TimeFits h mem := fun hf => hpos ((hf hroom).1 hpres)
      have hout : ¬Access.Inside o.cp (o.len mem) (dataArea mem o.cp) (.read (o.cp + o.ptr mem - 1) 4) := fun hin => by
        have := hs.cp
        have := hin.1
        omega
      split_ifs
      · exact handled_of_outside hnot mem_cons_self hout
      · exact handled_of_outside hnot mem_cons_self hout
      · exact handled_of_outside hnot (mem_cons_of_mem _ (mem_cons_of_mem _ (mem_cons_of_mem _
          mem_cons_self))) hout
  · rw [if_neg hpres]
    have hflg : 3 ≤ o.flg mem := by
      rw [IPOPT_TS_TSONLY] at htso
      rw [IPOPT_TS_TSANDADDR] at htsa
      rw [IPOPT_TS_PRESPEC] at hpres
      omega
    refine hpas hpres htso (fun hst => ?_) (.inr (.inr ⟨not_lt.1 hfull, .inr (.inr hflg)⟩)) _
    rcases hst.2 with hn | hn
    · exact htsa hn.1
    · exact hpres hn.1

end Uwisc.Ip.Options
