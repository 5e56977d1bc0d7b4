import Mathlib.Data.List.Perm.Basic
import Uwisc.Lib.Elevator
import Uwisc.Lib.Ring
import Uwisc.Lib.System

/-!
# Seek sort for disks

`disksort` of `sys/ufs/ufs_dsort.c`: it puts a request into the activity queue of a drive, and the driver
takes the first one off when it is done (`dp->b_actf = bp->av_forw`). Requests are buffers, by numbers of
which 0 is `NULL`.

Beside the queue, `system` keeps the requests that wait, in the order of their arrival. In every state of it
the queue is an elevator of just these requests (`disksort_elevator`).
-/

namespace Uwisc.Dsort

open Function Lib List Option

/-- The queue of a drive, and what it reads and writes of the buffers. -/
structure Queue where
  b_actf : ℕ
  b_actl : ℕ
  av_forw : ℕ → ℕ
  b_cylin : ℕ → ℤ

/-- `while (ap->av_forw) { if (stop ap) goto insert; ap = ap->av_forw; }`: where it comes to, if it takes
    `fuel` steps at most. -/
def advance (av_forw : ℕ → ℕ) (stop : ℕ → Bool) : ℕ → ℕ → Option ℕ
  | 0, _ => none
  | fuel + 1, ap =>
    if av_forw ap = 0 then some ap
    else if stop ap then some ap
    else advance av_forw stop fuel (av_forw ap)

namespace Queue

variable (q : Queue)

/-- An inversion: the next request has a lower cylinder. -/
def inverts (ap : ℕ) : Bool := q.b_cylin (q.av_forw ap) < q.b_cylin ap

/-- The next request has a larger cylinder than `bp`. -/
def precedes (bp ap : ℕ) : Bool := q.b_cylin bp < q.b_cylin (q.av_forw ap)

/-- What is done at `insert`. -/
def insert (bp ap : ℕ) : Queue :=
  { q with
    av_forw := update (update q.av_forw bp (q.av_forw ap)) ap bp
    b_actl := if ap = q.b_actl then bp else q.b_actl }

/-- `disksort`, if none of its loops takes more than `fuel` steps. -/
def disksort (fuel bp : ℕ) : Option Queue :=
  let ap := q.b_actf
  if ap = 0 then
    some { q with b_actf := bp, b_actl := bp, av_forw := update q.av_forw bp 0 }
  else if q.b_cylin bp < q.b_cylin ap then do
    -- the second list begins at an inversion; without one the search ends at once
    let ap ← advance q.av_forw q.inverts fuel ap
    let ap ← advance q.av_forw (q.precedes bp) fuel ap
    return q.insert bp ap
  else do
    let ap ← advance q.av_forw (fun ap => q.inverts ap || q.precedes bp ap) fuel ap
    return q.insert bp ap

end Queue

/-- The queue, and the requests that wait in it, in the order of their arrival. -/
structure Config where
  queue : Queue
  waiting : List ℕ

inductive Op
  /-- A request that does not wait yet is sorted in, for the cylinder given. -/
  | sort (bp : ℕ) (cylin : ℤ)
  /-- The first request is done. -/
  | remove

/-- A request for a cylinder. -/
def Queue.request (q : Queue) (bp : ℕ) (cylin : ℤ) : Queue :=
  { q with b_cylin := update q.b_cylin bp cylin }

inductive Step : Config → Op → Config → Prop
  | sort {c : Config} {q : Queue} (bp fuel : ℕ) (cylin : ℤ) : bp ≠ 0 → bp ∉ c.waiting →
      (c.queue.request bp cylin).disksort fuel bp = some q → Step c (.sort bp cylin) ⟨q, c.waiting ++ [bp]⟩
  | remove {c : Config} : c.queue.b_actf ≠ 0 →
      Step c .remove ⟨{ c.queue with b_actf := c.queue.av_forw c.queue.b_actf }, c.waiting.erase c.queue.b_actf⟩

/-- The runs from the empty queue. -/
def system : System Config Op where
  init := {c | c.queue.b_actf = 0 ∧ c.waiting = []}
  step := Step

/-! ## The search -/

variable {next : ℕ → ℕ} {stop : ℕ → Bool} {a : ℕ} {l : List ℕ}

variable {fuel : ℕ}

/-- The search passes over what does not stop it, up to the last request. -/
theorem advance_spec {ap : ℕ} (h : Path next a 0 (a :: l)) (h0 : 0 ∉ l) (hap : advance next stop fuel a = some ap) :
    ∃ u v, a :: l = u ++ ap :: v ∧ ((u ++ [ap]).IsChain fun b c => next b = c ∧ stop b = false) ∧
      (v = [] ∨ stop ap = true) := by
  induction fuel generalizing a l with
  | zero => cases hap
  | succ fuel ih =>
    rw [advance] at hap
    obtain ⟨-, hl⟩ := h
    cases l with
    | nil =>
      have hnull : next a = 0 := hl
      rw [if_pos hnull] at hap
      obtain rfl := some_inj.1 hap
      exact ⟨[], [], rfl, .singleton a, .inl rfl⟩
    | cons c l =>
      obtain ⟨hac, hl⟩ := hl
      obtain ⟨hc, h0⟩ := not_or.1 (mt mem_cons.2 h0)
      rw [if_neg (hac ▸ Ne.symm hc)] at hap
      by_cases hstop : stop a = true
      · rw [if_pos hstop] at hap
        obtain rfl := some_inj.1 hap
        exact ⟨[], c :: l, rfl, .singleton a, .inr hstop⟩
      · rw [if_neg hstop, hac] at hap
        obtain ⟨u, v, hl, hchn, hv⟩ := ih ⟨rfl, hl⟩ h0 hap
        refine ⟨a :: u, v, by rw [hl]; rfl, ?_, hv⟩
        rw [cons_append, isChain_cons]
        refine ⟨fun d hd => ⟨?_, by simpa using hstop⟩, hchn⟩
        -- what the search goes on with begins with `c`
        have hhead : (u ++ ap :: v).head? = some c := by rw [← hl]; rfl
        rw [hac, ← some_inj, ← hd, ← hhead]
        cases u <;> rfl

theorem advance_returns (stop : ℕ → Bool) (h : Path next a 0 (a :: l)) (hfuel : l.length < fuel) :
    ∃ ap, advance next stop fuel a = some ap := by
  induction l generalizing a fuel with
  | nil =>
    obtain ⟨fuel, rfl⟩ := Nat.exists_eq_succ_of_ne_zero (Nat.ne_zero_of_lt hfuel)
    exact ⟨a, if_pos h.2⟩
  | cons c l ih =>
    obtain ⟨fuel, rfl⟩ := Nat.exists_eq_succ_of_ne_zero (Nat.ne_zero_of_lt hfuel)
    obtain ⟨-, hac, hl⟩ := h
    rw [advance]
    split_ifs
    · exact ⟨a, rfl⟩
    · exact ⟨a, rfl⟩
    · rw [hac]
      exact ih ⟨rfl, hl⟩ (Nat.lt_of_succ_lt_succ hfuel)

/-! ## What the queue keeps -/

variable {q : Queue} {waiting first second u v : List ℕ} {ap bp : ℕ} {cylin : ℤ}

/-- The queue is the two lists, one after the other, of the requests that wait. -/
structure Sorted (q : Queue) (waiting first second : List ℕ) : Prop where
  path : Path q.av_forw q.b_actf 0 (first ++ second)
  elevator : Elevator q.b_cylin first second
  perm : first ++ second ~ waiting
  nodup : waiting.Nodup
  null : 0 ∉ waiting
  stable_first : Stable q.b_cylin waiting first
  stable_second : Stable q.b_cylin waiting second
  last : ∀ bp, (first ++ second).getLast? = some bp → q.b_actl = bp

theorem Sorted.request (h : Sorted q waiting first second) (hbp : bp ∉ waiting) (cylin : ℤ) :
    Sorted (q.request bp cylin) waiting first second := by
  have hcylin (a : ℕ) (ha : a ∈ first ++ second) : (q.request bp cylin).b_cylin a = q.b_cylin a :=
    update_of_ne (ne_of_mem_of_not_mem (h.perm.mem_iff.1 ha) hbp) _ _
  exact { h with
    elevator := h.elevator.congr hcylin
    stable_first := h.stable_first.congr fun a ha => hcylin a (mem_append_left _ ha)
    stable_second := h.stable_second.congr fun a ha => hcylin a (mem_append_right _ ha) }

/-- What is put in behind a request of the queue. -/
theorem insert_path (h : Path q.av_forw q.b_actf 0 (u ++ ap :: v)) (hnd : (u ++ ap :: v).Nodup)
    (hbp : bp ∉ u ++ ap :: v) : Path (q.insert bp ap).av_forw q.b_actf 0 (u ++ ap :: bp :: v) := by
  obtain ⟨-, hrgt, hdisj⟩ := nodup_append.1 hnd
  obtain ⟨hbu, hbp⟩ := not_or.1 (mt mem_append.2 hbp)
  obtain ⟨hne, hbv⟩ := not_or.1 (mt mem_cons.2 hbp)
  exact h.insert (fun hu => hdisj ap hu ap mem_cons_self rfl) (nodup_cons.1 hrgt).1 hne hbu hbv

theorem insert_last (hlast : ∀ bp, (u ++ ap :: v).getLast? = some bp → q.b_actl = bp) (hnd : (u ++ ap :: v).Nodup) :
    ∀ d, (u ++ ap :: bp :: v).getLast? = some d → (q.insert bp ap).b_actl = d := by
  intro d hd
  have hap : ap ∉ v := (nodup_cons.1 (nodup_append.1 hnd).2.1).1
  rw [Queue.insert]
  cases v with
  | nil =>
    have hactl := hlast ap (by simp)
    rw [if_pos hactl.symm]
    simpa using hd
  | cons e v =>
    have hd' : (u ++ ap :: e :: v).getLast? = some d := by simpa using hd
    have hactl := hlast d hd'
    have hmem : d ∈ e :: v := by
      rw [getLast?_append, getLast?_cons_cons, getLast?_cons_cons] at hd
      exact mem_of_getLast? (by simpa using hd)
    rwa [if_neg fun heq => hap (by rwa [heq, hactl])]

theorem Sorted.insert (h : Sorted q waiting first second) (hl : first ++ second = u ++ ap :: v) (hbp : bp ∉ waiting)
    (hne : bp ≠ 0) {first' second' : List ℕ} (hl' : first' ++ second' = u ++ ap :: bp :: v)
    (hele : Elevator q.b_cylin first' second') (hfst : Stable q.b_cylin (waiting ++ [bp]) first')
    (hsec : Stable q.b_cylin (waiting ++ [bp]) second') :
    Sorted (q.insert bp ap) (waiting ++ [bp]) first' second' := by
  have hperm := h.perm
  have hnd := hperm.nodup_iff.2 h.nodup
  have hmem := mt hperm.mem_iff.1 hbp
  rw [hl] at hperm hnd hmem
  refine ⟨?_, hele, ?_, ?_, ?_, hfst, hsec, ?_⟩
  · rw [hl']
    exact insert_path (hl ▸ h.path) hnd hmem
  · rw [hl']
    have hmid : u ++ [ap] ++ bp :: v ~ bp :: (u ++ [ap] ++ v) := perm_middle
    calc u ++ ap :: bp :: v ~ bp :: (u ++ ap :: v) := by simpa using hmid
      _ ~ bp :: waiting := hperm.cons bp
      _ ~ waiting ++ [bp] := (perm_append_singleton bp waiting).symm
  · exact nodup_append_comm.1 (nodup_cons.2 ⟨hbp, h.nodup⟩)
  · simpa using ⟨h.null, hne.symm⟩
  · rw [hl']
    exact insert_last (hl ▸ h.last) hnd

/-- The next request after one that is not the last. -/
theorem Sorted.next_eq (h : Sorted q waiting first second) {b : ℕ} (hl : first ++ second = u ++ ap :: b :: v) :
    q.av_forw ap = b := by
  have hpath := h.path
  rw [hl] at hpath
  exact hpath.next_eq

/-- Where the search of the first list stops, what follows in it is for larger cylinders. -/
theorem Sorted.insert_first (h : Sorted q waiting (a :: first) second) (hbp : bp ∉ waiting) (hne : bp ≠ 0)
    (hle : q.b_cylin a ≤ q.b_cylin bp)
    (hap : advance q.av_forw (fun ap => q.inverts ap || q.precedes bp ap) fuel a = some ap) :
    ∃ first', Sorted (q.insert bp ap) (waiting ++ [bp]) first' second := by
  have hhead : q.b_actf = a := h.path.1
  have hnull : 0 ∉ first ++ second := fun hmem => h.null (h.perm.mem_iff.1 (mem_cons_of_mem a hmem))
  obtain ⟨u, v, hl, hchn, hv⟩ := advance_spec (hhead ▸ h.path) hnull hap
  have hl' : (a :: first) ++ second = (u ++ [ap]) ++ v := by rw [cons_append, hl, append_assoc, singleton_append]
  have hasc : (u ++ [ap]).IsChain fun b c => q.b_cylin b ≤ q.b_cylin c := hchn.imp fun b c hbc => by
    obtain ⟨rfl, hstop⟩ := hbc
    simpa [Queue.inverts] using (Bool.or_eq_false_iff.1 hstop).1
  have hblw : (u ++ [ap]).IsChain fun _ c => q.b_cylin c ≤ q.b_cylin bp := hchn.imp fun b c hbc => by
    obtain ⟨rfl, hstop⟩ := hbc
    simpa [Queue.precedes] using (Bool.or_eq_false_iff.1 hstop).2
  obtain ⟨w, hfst, rfl⟩ := h.elevator.prefix_of_isChain hl' (cons_ne_nil _ _) hasc
  have hu : ∀ b ∈ u ++ [ap], q.b_cylin b ≤ q.b_cylin bp := forall_of_isChain hblw fun c hc => by
    have hhead' : (u ++ [ap] ++ w).head? = (u ++ [ap]).head? := head?_append_of_ne_nil _ (by simp)
    rw [← hfst, hc] at hhead'
    cases hhead'
    exact hle
  have hsor := h.elevator.first_le
  rw [hfst] at hsor
  obtain ⟨-, hw, hcross⟩ := pairwise_append.1 hsor
  have hlt : ∀ b ∈ w, q.b_cylin bp < q.b_cylin b := forall_lt_of_head hw fun b hb => by
    obtain ⟨w, rfl⟩ : ∃ w', w = b :: w' := ⟨w.tail, (cons_head?_tail hb).symm⟩
    have hnx : q.av_forw ap = b := h.next_eq (v := w ++ second) (by rw [hl', append_assoc]; rfl)
    have hcross := hcross ap (by simp) b mem_cons_self
    have hstop := hv.resolve_left (by simp)
    rw [Bool.or_eq_true, Queue.inverts, Queue.precedes, hnx] at hstop
    rcases hstop with hstop | hstop
    · exact absurd (of_decide_eq_true hstop) (not_lt.2 hcross)
    · exact of_decide_eq_true hstop
  refine ⟨(u ++ [ap]) ++ bp :: w, ?_⟩
  rw [hfst] at h
  refine h.insert (u := u) (v := w ++ second) (by simp) hbp hne (by simp) ?_ ?_ ?_
  · exact h.elevator.insert_first (by simp) hu hlt
  · exact h.stable_first.insert hlt
  · exact h.stable_second.append bp

/-- The search for an inversion stops at the last request of the first list. -/
theorem Sorted.first_of_inverts (h : Sorted q waiting (a :: first) second)
    (hap : advance q.av_forw q.inverts fuel a = some ap) : ∃ u, a :: first = u ++ [ap] := by
  have hhead : q.b_actf = a := h.path.1
  have hnull : 0 ∉ first ++ second := fun hmem => h.null (h.perm.mem_iff.1 (mem_cons_of_mem a hmem))
  obtain ⟨u, v, hl, hchn, hv⟩ := advance_spec (hhead ▸ h.path) hnull hap
  have hl' : (a :: first) ++ second = (u ++ [ap]) ++ v := by rw [cons_append, hl, append_assoc, singleton_append]
  have hasc : (u ++ [ap]).IsChain fun b c => q.b_cylin b ≤ q.b_cylin c := hchn.imp fun b c hbc => by
    obtain ⟨rfl, hstop⟩ := hbc
    simpa [Queue.inverts] using hstop
  obtain ⟨w, hfst, rfl⟩ := h.elevator.prefix_of_isChain hl' (cons_ne_nil _ _) hasc
  refine ⟨u, ?_⟩
  cases w with
  | nil => rw [hfst, append_nil]
  | cons b w =>
    have hnx : q.av_forw ap = b := h.next_eq (v := w ++ second) (by rw [hl', append_assoc]; rfl)
    have hsor := h.elevator.first_le
    rw [hfst] at hsor
    have hcross := (pairwise_append.1 hsor).2.2 ap (by simp) b mem_cons_self
    have hstop := hv.resolve_left (by simp)
    rw [Queue.inverts, hnx] at hstop
    exact absurd (of_decide_eq_true hstop) (not_lt.2 hcross)

/-- From the last request of the first list the search goes through the second. -/
theorem Sorted.insert_second (h : Sorted q waiting (a :: first) second) (hbp : bp ∉ waiting) (hne : bp ≠ 0)
    (hlt : q.b_cylin bp < q.b_cylin a) {ap' : ℕ} (hap : advance q.av_forw q.inverts fuel a = some ap')
    (hap' : advance q.av_forw (q.precedes bp) fuel ap' = some ap) :
    ∃ second', Sorted (q.insert bp ap) (waiting ++ [bp]) (a :: first) second' := by
  obtain ⟨u, hu⟩ := h.first_of_inverts hap
  have hpath := h.path
  rw [hu, append_assoc, singleton_append] at hpath
  obtain ⟨b, -, hb⟩ := path_append.1 hpath
  obtain rfl : b = ap' := hb.1
  have hnull : 0 ∉ second := fun hmem => h.null (h.perm.mem_iff.1 (mem_append_right _ hmem))
  obtain ⟨u', v, hl, hchn, hv⟩ := advance_spec hb hnull hap'
  -- what is passed in the second list
  obtain ⟨t, ht⟩ : ∃ t, u' ++ [ap] = b :: t := by
    cases u' with
    | nil => exact ⟨[], by rw [nil_append, (cons_eq_cons.1 hl).1]⟩
    | cons c u' => exact ⟨u' ++ [ap], by rw [(cons_eq_cons.1 hl).1]; rfl⟩
  have hl' : b :: second = b :: (t ++ v) := by rw [hl, ← cons_append, ← ht, append_assoc, singleton_append]
  obtain rfl := (cons_eq_cons.1 hl').2
  have hpas : ∀ c ∈ t, q.b_cylin c ≤ q.b_cylin bp := by
    rw [ht] at hchn
    obtain ⟨hhead, hchn⟩ := isChain_cons.1 hchn
    have hnot {c d : ℕ} (hcd : q.av_forw c = d ∧ q.precedes bp c = false) : q.b_cylin d ≤ q.b_cylin bp := by
      obtain ⟨rfl, hstop⟩ := hcd
      simpa [Queue.precedes] using hstop
    exact forall_of_isChain (hchn.imp fun _ _ => hnot) fun c hc => hnot (hhead c hc)
  have hwhl : (a :: first) ++ (t ++ v) = (u ++ u') ++ ap :: v := by rw [hu, append_assoc, append_assoc, ← hl]; rfl
  have habove : ∀ c ∈ v, q.b_cylin bp < q.b_cylin c :=
    forall_lt_of_head (pairwise_append.1 h.elevator.second_le).2.1 fun c hc => by
      obtain ⟨v, rfl⟩ : ∃ v', v = c :: v' := ⟨v.tail, (cons_head?_tail hc).symm⟩
      have hnx : q.av_forw ap = c := h.next_eq hwhl
      have hstop := hv.resolve_left (cons_ne_nil _ _)
      rw [Queue.precedes, hnx] at hstop
      exact of_decide_eq_true hstop
  refine ⟨t ++ bp :: v, h.insert hwhl hbp hne ?_ ?_ ?_ ?_⟩
  · have hmid : u' ++ [ap] ++ bp :: v = b :: t ++ bp :: v := by rw [ht]
    rw [hu, append_assoc, append_assoc, singleton_append, ← cons_append, ← hmid, append_assoc, singleton_append]
  · exact h.elevator.insert_second hlt hpas habove
  · exact h.stable_first.append bp
  · exact h.stable_second.insert habove

theorem Sorted.disksort (h : Sorted q waiting first second) (hbp : bp ∉ waiting) (hne : bp ≠ 0) {q' : Queue}
    (hq : q.disksort fuel bp = some q') : ∃ first' second', Sorted q' (waiting ++ [bp]) first' second' := by
  cases first with
  | nil =>
    have hsec : second = [] := eq_nil_iff_forall_not_mem.2 fun b hb => by
      obtain ⟨a, ha, -⟩ := h.elevator.below b hb
      cases ha
    subst hsec
    obtain rfl : waiting = [] := h.perm.nil_eq.symm
    have hemp : q.b_actf = 0 := h.path
    rw [Queue.disksort, if_pos hemp] at hq
    cases hq
    refine ⟨[bp], [], ⟨rfl, ?_⟩, ⟨pairwise_singleton _ _, .nil, by simp⟩, .refl _, nodup_singleton bp,
      by simpa using hne.symm, fun k => filter_sublist, fun k => nil_sublist _, fun d hd => ?_⟩
    · exact update_self ..
    · exact some_inj.1 hd
  | cons a first =>
    have hhead : q.b_actf = a := h.path.1
    have hnull : a ≠ 0 := by
      rintro rfl
      exact h.null (h.perm.mem_iff.1 mem_cons_self)
    rw [Queue.disksort, hhead, if_neg hnull] at hq
    split_ifs at hq with hlt
    · obtain ⟨ap', hap', hq⟩ := bind_eq_some_iff.1 hq
      obtain ⟨ap, hap, hq⟩ := bind_eq_some_iff.1 hq
      cases hq
      obtain ⟨second', h'⟩ := h.insert_second hbp hne hlt hap' hap
      exact ⟨_, _, h'⟩
    · obtain ⟨ap, hap, hq⟩ := bind_eq_some_iff.1 hq
      cases hq
      obtain ⟨first', h'⟩ := h.insert_first hbp hne (not_lt.1 hlt) hap
      exact ⟨_, _, h'⟩

/-- The sort returns: none of its loops goes round. -/
theorem Sorted.disksort_returns (h : Sorted q waiting first second) (bp : ℕ) :
    ∃ fuel q', q.disksort fuel bp = some q' := by
  refine ⟨(first ++ second).length, ?_⟩
  cases hl : first ++ second with
  | nil =>
    have hpath := h.path
    rw [hl] at hpath
    have hemp : q.b_actf = 0 := hpath
    exact ⟨_, by rw [Queue.disksort, if_pos hemp]⟩
  | cons a l =>
    have hpath := h.path
    have hmem := h.perm.mem_iff (a := a)
    rw [hl] at hpath hmem
    have hhead : q.b_actf = a := hpath.1
    have hnull : a ≠ 0 := by
      rintro rfl
      exact h.null (hmem.1 mem_cons_self)
    rw [Queue.disksort, hhead, if_neg hnull]
    have hfuel : l.length < (a :: l).length := Nat.lt_succ_self _
    split_ifs
    · obtain ⟨ap, hap⟩ := advance_returns q.inverts (hhead ▸ hpath) hfuel
      have h0 : 0 ∉ l := fun hmem' => h.null (h.perm.mem_iff.1 (hl ▸ mem_cons_of_mem a hmem'))
      obtain ⟨u, v, hl', -, -⟩ := advance_spec (hhead ▸ hpath) h0 hap
      rw [hl', hhead] at hpath
      obtain ⟨b, -, hb⟩ := path_append.1 hpath
      obtain rfl : b = ap := hb.1
      have hlen := congrArg length hl'
      rw [length_append, length_cons] at hlen
      have hfuel' : v.length < (a :: l).length := by
        rw [length_cons, hlen, length_cons]
        omega
      obtain ⟨ap', hap'⟩ := advance_returns (q.precedes bp) hb hfuel'
      exact ⟨_, by rw [hap, bind_eq_bind, bind_some, hap']; rfl⟩
    · obtain ⟨ap, hap⟩ := advance_returns (fun ap => q.inverts ap || q.precedes bp ap) (hhead ▸ hpath) hfuel
      exact ⟨_, by rw [hap]; rfl⟩

/-- The first request is taken off the queue. -/
theorem Sorted.remove (h : Sorted q waiting first second) (hactf : q.b_actf ≠ 0) :
    ∃ first' second', Sorted { q with b_actf := q.av_forw q.b_actf } (waiting.erase q.b_actf) first' second' := by
  cases first with
  | nil =>
    cases second with
    | nil => exact absurd h.path hactf
    | cons b second =>
      obtain ⟨a, ha, -⟩ := h.elevator.below b mem_cons_self
      cases ha
  | cons a first =>
    have hhead : q.b_actf = a := h.path.1
    have hpath : Path q.av_forw (q.av_forw a) 0 (first ++ second) := h.path.2
    have hnd : (a :: (first ++ second)).Nodup := h.perm.nodup_iff.2 h.nodup
    have ha := (nodup_cons.1 hnd).1
    have hperm := h.perm.erase a
    rw [cons_append, erase_cons_head] at hperm
    have hlast (bp : ℕ) (hbp : (first ++ second).getLast? = some bp) : q.b_actl = bp := by
      refine h.last bp ?_
      rw [cons_append, getLast?_cons, hbp]
      rfl
    have hnull : 0 ∉ waiting.erase a := fun h0 => h.null (mem_of_mem_erase h0)
    have hsec : Stable q.b_cylin (waiting.erase a) second :=
      h.stable_second.erase fun hmem => ha (mem_append_right _ hmem)
    rw [hhead]
    rcases h.elevator.remove with hele | ⟨rfl, hele⟩
    · have hfst := (h.stable_first.sublist (sublist_cons_self a first)).erase fun hmem => ha (mem_append_left _ hmem)
      exact ⟨first, second, hpath, hele, hperm, h.nodup.erase a, hnull, hfst, hsec, hlast⟩
    · have hnil : Stable q.b_cylin (waiting.erase a) [] := fun _ => nil_sublist _
      rw [nil_append, ← append_nil second] at hpath hperm hlast
      exact ⟨second, [], hpath, hele, hperm, h.nodup.erase a, hnull, hsec, hnil, hlast⟩

/-- In every state of a run the queue is the one that is served, and after it the one for the next way round,
    each ascending and its ties in the order of arrival, of just the requests that wait; `b_actl` is the
    last of them, and the next sort returns. -/
theorem disksort_elevator {c : Config} (h : system.Reachable c) :
    (∃ first second, Path c.queue.av_forw c.queue.b_actf 0 (first ++ second) ∧
      Elevator c.queue.b_cylin first second ∧ first ++ second ~ c.waiting ∧ c.waiting.Nodup ∧
      Stable c.queue.b_cylin c.waiting first ∧ Stable c.queue.b_cylin c.waiting second ∧
      ∀ bp, (first ++ second).getLast? = some bp → c.queue.b_actl = bp) ∧
    ∀ bp cylin, bp ≠ 0 → bp ∉ c.waiting → ∃ c', Step c (.sort bp cylin) c' := by
  have hsor : ∃ first second, Sorted c.queue c.waiting first second := by
    refine h.invariant (I := fun c => ∃ first second, Sorted c.queue c.waiting first second) ?_ ?_
    · rintro ⟨q, waiting⟩ ⟨hemp, rfl⟩
      exact ⟨[], [], hemp, ⟨.nil, .nil, by simp⟩, .refl _, nodup_nil, not_mem_nil, fun _ => .slnil,
        fun _ => .slnil, by simp⟩
    · rintro c op c' ⟨first, second, h⟩ hstep
      cases hstep with
      | sort bp fuel cylin hne hbp hq => exact (h.request hbp _).disksort hbp hne hq
      | remove hactf => exact h.remove hactf
  obtain ⟨first, second, hs⟩ := hsor
  refine ⟨⟨first, second, hs.path, hs.elevator, hs.perm, hs.nodup, hs.stable_first, hs.stable_second, hs.last⟩, ?_⟩
  intro bp cylin hne hbp
  obtain ⟨fuel, q', hq⟩ := (hs.request hbp cylin).disksort_returns bp
  exact ⟨_, .sort bp fuel cylin hne hbp hq⟩

/-- Requests for the cylinders 5, 7 and 3, the last of which waits for the next way round. -/
theorem disksort_elevator_three : ∃ c : Config, c.waiting = [1, 2, 3] ∧ c.queue.b_actl = 3 ∧
    ∃ first second, first ++ second ~ c.waiting ∧ Elevator c.queue.b_cylin first second := by
  have h0 : system.Reachable ⟨⟨0, 0, fun _ => 0, fun _ => 0⟩, []⟩ := .init ⟨rfl, rfl⟩
  have h1 := h0.step (Step.sort 1 3 5 (by decide) (by decide) rfl)
  have h2 := h1.step (Step.sort 2 3 7 (by decide) (by decide) rfl)
  have h3 := h2.step (Step.sort 3 3 3 (by decide) (by decide) rfl)
  obtain ⟨first, second, -, hele, hperm, -⟩ := (disksort_elevator h3).1
  exact ⟨_, rfl, rfl, first, second, hperm, hele⟩

end Uwisc.Dsort
