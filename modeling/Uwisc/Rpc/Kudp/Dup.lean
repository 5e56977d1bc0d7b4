import Mathlib.Algebra.Order.Ring.Int
import Mathlib.Data.List.Perm.Subperm
import Uwisc.Lib.Ring

/-!
# Duplicate requests

The cache of requests of `sys/rpc/svc_kudp.c`: `svckudp_dupsave`, `svckudp_dup` and `unhash`. An
entry is known by its address, which is not `0`; `alloc` gives the addresses of the entries that are
allocated (`kmem_alloc`, which panics if there is no memory), one after the other: none is freed. Its
links are `dr_next`, to the entry saved next, and `dr_chain`. A chain has no more entries than there
are, and so the searches of it end.
-/

namespace Uwisc.Kudp

open Function Lib Nat Option

def MAXDUPREQS : ℕ := 400
def DRHASHSZ : ℕ := 32

/-- What is looked at of a request: `REQTOXID`, `rq_prog`, `rq_vers`, `rq_proc` and `xp_raddr`. -/
structure Req where
  xid : UInt32
  prog : UInt32
  vers : UInt32
  proc : UInt32
  raddr : Vector UInt8 16
  deriving DecidableEq

open List

/-- The low bits. -/
def XIDHASH (xid : UInt32) : ℕ := xid.toNat % DRHASHSZ

/-- The cache. What an entry has of a request is in `dr_req`. -/
structure Dupreqs where
  dr_req : ℕ → Req
  dr_next : ℕ → ℕ
  dr_chain : ℕ → ℕ
  drhashtbl : ℕ → ℕ
  drmru : ℕ
  ndupreqs : ℕ
  dupreqs : ℕ
  dupchecks : ℕ

def DRHASH (s : Dupreqs) (dr : ℕ) : ℕ := XIDHASH (s.dr_req dr).xid

/-- Takes an entry out of its chain. -/
def unhash (s : Dupreqs) (dr : ℕ) : Dupreqs :=
  match seek s.dr_chain 0 (fun drt => drt = dr) (MAXDUPREQS + 1) none (s.drhashtbl (DRHASH s dr)) with
  | none => s
  | some (none, drt) => { s with drhashtbl := update s.drhashtbl (DRHASH s dr) (s.dr_chain drt) }
  | some (some drtprev, drt) => { s with dr_chain := update s.dr_chain drtprev (s.dr_chain drt) }

/-- The entry that is to be used, the one that is allocated or the oldest one. -/
def takeEntry (alloc : ℕ ↪ {a : ℕ // a ≠ 0}) (s : Dupreqs) : Dupreqs × ℕ :=
  if s.ndupreqs < MAXDUPREQS then
    let dr := (alloc s.ndupreqs).val
    ({ s with
      dr_next := if s.drmru ≠ 0 then update (update s.dr_next dr (s.dr_next s.drmru)) s.drmru dr
        else update s.dr_next dr dr
      ndupreqs := s.ndupreqs + 1 }, dr)
  else
    let dr := s.dr_next s.drmru
    (unhash s dr, dr)

/-- Puts a request in an entry, and the entry in its chain. -/
def setEntry (s : Dupreqs) (dr : ℕ) (req : Req) : Dupreqs :=
  { s with
    drmru := dr
    dr_req := update s.dr_req dr req
    dr_chain := update s.dr_chain dr (s.drhashtbl (XIDHASH req.xid))
    drhashtbl := update s.drhashtbl (XIDHASH req.xid) dr }

def svckudp_dupsave (alloc : ℕ ↪ {a : ℕ // a ≠ 0}) (s : Dupreqs) (req : Req) : Dupreqs :=
  let (s, dr) := takeEntry alloc s
  setEntry s dr req

def svckudp_dup (s : Dupreqs) (req : Req) : Dupreqs × Bool :=
  let s := { s with dupchecks := s.dupchecks + 1 }
  match seek s.dr_chain 0 (fun dr => s.dr_req dr = req) (MAXDUPREQS + 1) none (s.drhashtbl (XIDHASH req.xid)) with
  | none => (s, false)
  | some _ => ({ s with dupreqs := s.dupreqs + 1 }, true)

/-! ### What it remembers -/

/-- Each of the entries is on the chain of its `dr_xid` once, and on no other one. -/
def Chained (s : Dupreqs) (mem : ℕ → Prop) : Prop :=
  ∀ b < DRHASHSZ, ∃ l : List ℕ, Path s.dr_chain (s.drhashtbl b) 0 l ∧ l.Nodup ∧
    ∀ dr, dr ∈ l ↔ mem dr ∧ DRHASH s dr = b

/-- The entries, the oldest one first, are linked in a circle, and the last one is `drmru`. -/
structure Circle (s : Dupreqs) (l : List ℕ) : Prop where
  nodup : l.Nodup
  zero : 0 ∉ l
  count : s.ndupreqs = l.length
  le : l.length ≤ MAXDUPREQS
  ring : ∀ dr ∈ l.head?, Path s.dr_next dr dr l
  mru : s.drmru = l.getLast?.getD 0
  chained : Chained s (· ∈ l)

/-- The last requests saved that there is room for, the oldest one first. -/
def lastReqs (saved : List Req) : List Req := saved.drop (saved.length - MAXDUPREQS)

/-- The entries are as many requests as were saved, the last ones. -/
structure Remembers (alloc : ℕ ↪ {a : ℕ // a ≠ 0}) (s : Dupreqs) (l : List ℕ) (saved : List Req) : Prop
    extends Circle s l where
  reqs : l.map s.dr_req = lastReqs saved
  alloc : ∀ dr ∈ l, ∃ k < s.ndupreqs, (alloc k).val = dr

variable {alloc : ℕ ↪ {a : ℕ // a ≠ 0}} {s : Dupreqs} {l : List ℕ} {saved : List Req} {mem : ℕ → Prop} {dr : ℕ}
  {req : Req}

theorem xidhash_lt (xid : UInt32) : XIDHASH xid < DRHASHSZ := mod_lt _ (by decide)

theorem length_lastReqs (saved : List Req) : (lastReqs saved).length = min saved.length MAXDUPREQS := by
  rw [lastReqs, length_drop]
  omega

/-- One more request is saved, before there are as many as can be. -/
theorem lastReqs_snoc_of_lt (h : saved.length < MAXDUPREQS) (req : Req) :
    lastReqs (saved ++ [req]) = lastReqs saved ++ [req] := by
  rw [lastReqs, lastReqs, length_append, length_singleton, Nat.sub_eq_zero_of_le (succ_le_of_lt h),
    Nat.sub_eq_zero_of_le h.le, drop_zero, drop_zero]

/-- The oldest one is forgotten. -/
theorem lastReqs_snoc_of_le (h : MAXDUPREQS ≤ saved.length) (req : Req) :
    lastReqs (saved ++ [req]) = (lastReqs saved).tail ++ [req] := by
  have hle : saved.length + 1 - MAXDUPREQS ≤ saved.length := sub_le_of_le_add (Nat.add_le_add_left (by decide) _)
  rw [lastReqs, lastReqs, length_append, length_singleton, tail_drop,
    drop_append_of_le_length hle, Nat.sub_add_comm h]

/-! ### Chains -/

/-- A chain is no longer than the entries are many. -/
theorem length_chain_lt {c : List ℕ} (hc : c.Nodup) (hmem : ∀ dr ∈ c, dr ∈ l) (hl : l.length ≤ MAXDUPREQS) :
    c.length < MAXDUPREQS + 1 :=
  lt_succ_of_le ((hc.subperm hmem).length_le.trans hl)

theorem zero_notMem_chain {c : List ℕ} {b : ℕ} (hzero : 0 ∉ l) (hc : ∀ dr, dr ∈ c ↔ dr ∈ l ∧ DRHASH s dr = b) :
    0 ∉ c := fun h => hzero ((hc 0).1 h).1

/-- An entry that is unhashed is on no chain, and nothing but chains has changed. -/
theorem unhash_spec (h : Chained s (· ∈ l)) (hzero : 0 ∉ l) (hle : l.length ≤ MAXDUPREQS) (hdr : dr ∈ l) :
    Chained (unhash s dr) (fun d => d ∈ l ∧ d ≠ dr) ∧ ∃ tbl chain,
      unhash s dr = { s with drhashtbl := tbl, dr_chain := chain } := by
  obtain ⟨c, hpath, hnd, hmem⟩ := h _ (xidhash_lt (s.dr_req dr).xid)
  change ∀ d, d ∈ c ↔ d ∈ l ∧ DRHASH s d = DRHASH s dr at hmem
  have hc0 := zero_notMem_chain hzero hmem
  have hdrc : dr ∈ c := (hmem dr).2 ⟨hdr, rfl⟩
  rw [unhash]
  cases hseek : seek s.dr_chain 0 (fun drt => drt = dr) (MAXDUPREQS + 1) none (s.drhashtbl (DRHASH s dr)) with
  | none =>
    have hmiss := hpath.seek_eq_none hc0 (length_chain_lt hnd (fun d hd => ((hmem d).1 hd).1) hle) hseek dr hdrc
    exact absurd rfl (of_decide_eq_false hmiss)
  | some r =>
    obtain ⟨hhit, u, v, rfl, hbef⟩ := hpath.seek_eq_some hc0 hseek
    obtain ⟨before, drt⟩ := r
    obtain rfl : drt = dr := of_decide_eq_true hhit
    -- another chain is as it was, and this one is without the entry
    have hrs {b : ℕ} {c' : List ℕ} (hc' : ∀ d, d ∈ c' ↔ d ∈ l ∧ DRHASH s d = b) (hb : b ≠ DRHASH s drt) (d : ℕ) :
        d ∈ c' ↔ (d ∈ l ∧ d ≠ drt) ∧ DRHASH s d = b := by
      rw [hc' d]
      refine ⟨fun ⟨hd, hdb⟩ => ⟨⟨hd, ?_⟩, hdb⟩, fun ⟨⟨hd, _⟩, hdb⟩ => ⟨hd, hdb⟩⟩
      rintro rfl
      exact hb hdb.symm
    have hwit (d : ℕ) : d ∈ u ++ v ↔ (d ∈ l ∧ d ≠ drt) ∧ DRHASH s d = DRHASH s drt := by
      rw [mem_append_iff_of_nodup hnd, hmem d]
      exact and_right_comm
    have hnd' : (u ++ v).Nodup := hnd.sublist (List.Sublist.append_left (sublist_cons_self drt v) u)
    cases before with
    | none =>
      obtain rfl : u = [] := getLast?_eq_none_iff.1 (or_eq_none_iff.1 hbef.symm).1
      refine ⟨fun b hb => ?_, _, _, rfl⟩
      by_cases hbd : b = DRHASH s drt
      · subst hbd
        refine ⟨v, ?_, hnd', hwit⟩
        change Path s.dr_chain (update s.drhashtbl _ (s.dr_chain drt) _) 0 v
        rw [update_self]
        exact hpath.2
      · obtain ⟨c', hpath', hnd', hmem'⟩ := h b hb
        refine ⟨c', ?_, hnd', hrs hmem' hbd⟩
        change Path s.dr_chain (update s.drhashtbl _ (s.dr_chain drt) _) 0 c'
        rw [update_of_ne hbd]
        exact hpath'
    | some p =>
      rw [or_none] at hbef
      obtain ⟨u, rfl⟩ := getLast?_eq_some_iff.1 hbef.symm
      rw [append_assoc, singleton_append] at hnd hpath hmem
      obtain ⟨-, hrgt, hdisj⟩ := nodup_append.1 hnd
      have hpu : p ∉ u := fun hp => hdisj p hp p mem_cons_self rfl
      have hpv : p ∉ v := fun hp => (nodup_cons.1 hrgt).1 (mem_cons_of_mem _ hp)
      have hpb : DRHASH s p = DRHASH s drt :=
        ((hmem p).1 (mem_append_right _ mem_cons_self)).2
      refine ⟨fun b hb => ?_, _, _, rfl⟩
      by_cases hbd : b = DRHASH s drt
      · subst hbd
        refine ⟨u ++ [p] ++ v, ?_, hnd', hwit⟩
        rw [append_assoc, singleton_append]
        exact hpath.unlink hpu hpv
      · obtain ⟨c', hpath', hnd', hmem'⟩ := h b hb
        refine ⟨c', hpath'.update (fun hp => hbd ?_) _, hnd', hrs hmem' hbd⟩
        exact ((hmem' p).1 hp).2.symm.trans hpb

/-- An entry that is on no chain is put in that of its request. -/
theorem Chained.setEntry (h : Chained s mem) (hdr : ¬mem dr) :
    Chained (setEntry s dr req) (fun d => mem d ∨ d = dr) := by
  have hhash (d : ℕ) (hd : d ≠ dr) : DRHASH (Kudp.setEntry s dr req) d = DRHASH s d := by
    change XIDHASH (update s.dr_req dr req d).xid = _
    rw [update_of_ne hd]
    rfl
  have hself : DRHASH (Kudp.setEntry s dr req) dr = XIDHASH req.xid := by
    change XIDHASH (update s.dr_req dr req dr).xid = _
    rw [update_self]
  intro b hb
  obtain ⟨c, hpath, hnd, hmem⟩ := h b hb
  have hdrc : dr ∉ c := fun hc => hdr ((hmem dr).1 hc).1
  have hpath' := hpath.update hdrc (s.drhashtbl (XIDHASH req.xid))
  have hold (d : ℕ) (hd : d ≠ dr) : d ∈ c ↔ (mem d ∨ d = dr) ∧ DRHASH (Kudp.setEntry s dr req) d = b := by
    rw [hmem d, hhash d hd, or_iff_left hd]
  by_cases hbx : b = XIDHASH req.xid
  · subst hbx
    refine ⟨dr :: c, ?_, nodup_cons.2 ⟨hdrc, hnd⟩, fun d => ?_⟩
    · change Path (update s.dr_chain dr _) (update s.drhashtbl _ dr _) 0 (dr :: c)
      rw [update_self]
      refine ⟨rfl, ?_⟩
      rw [update_self]
      exact hpath'
    · by_cases hd : d = dr
      · subst hd
        exact iff_of_true mem_cons_self ⟨.inr rfl, hself⟩
      · rw [mem_cons, or_iff_right hd]
        exact hold d hd
  · refine ⟨c, ?_, hnd, fun d => ?_⟩
    · change Path (update s.dr_chain dr _) (update s.drhashtbl _ dr _) 0 c
      rw [update_of_ne hbx]
      exact hpath'
    · by_cases hd : d = dr
      · subst hd
        exact iff_of_false hdrc fun hb => hbx (hb.2.symm.trans hself)
      · exact hold d hd

theorem Chained.congr {mem' : ℕ → Prop} (h : Chained s mem) (hmem : ∀ d, mem d ↔ mem' d) : Chained s mem' := by
  intro b hb
  obtain ⟨c, hpath, hnd, hc⟩ := h b hb
  refine ⟨c, hpath, hnd, fun d => ?_⟩
  rw [hc d, hmem d]

/-! ### Calls -/

/-- A path that comes back to its first index does so to the second one. -/
theorem path_rotate {next : ℕ → ℕ} {a : ℕ} {l : List ℕ} (h : Path next a a (a :: l)) :
    Path next (next a) (next a) (l ++ [a]) := path_append.2 ⟨a, h.2, rfl, rfl⟩

/-- What holds while nothing is saved yet. -/
def init : Dupreqs where
  dr_req := fun _ => ⟨0, 0, 0, 0, .replicate 16 0⟩
  dr_next := fun _ => 0
  dr_chain := fun _ => 0
  drhashtbl := fun _ => 0
  drmru := 0
  ndupreqs := 0
  dupreqs := 0
  dupchecks := 0

theorem init_remembers : Remembers alloc init [] [] where
  nodup := nodup_nil
  zero := not_mem_nil
  count := rfl
  le := Nat.zero_le _
  ring := fun _ h => absurd h (not_mem_none _)
  mru := rfl
  chained := fun _ _ => ⟨[], rfl, nodup_nil, fun _ =>
    ⟨fun h => absurd h not_mem_nil, fun h => absurd h.1 not_mem_nil⟩⟩
  reqs := rfl
  alloc := fun _ h => absurd h not_mem_nil

/-- The entry of the request is the last one. -/
theorem getLast?_snoc (l : List ℕ) (a : ℕ) : (l ++ [a]).getLast?.getD 0 = a := by
  rw [getLast?_concat]
  rfl

theorem map_setEntry (hdr : dr ∉ l) :
    (l ++ [dr]).map (setEntry s dr req).dr_req = l.map s.dr_req ++ [req] := by
  change (l ++ [dr]).map (update s.dr_req dr req) = _
  have hold : l.map (update s.dr_req dr req) = l.map s.dr_req :=
    map_congr_left fun d hd => update_of_ne (ne_of_mem_of_not_mem hd hdr) _ _
  rw [map_append, hold, map_singleton, update_self]

theorem nodup_snoc (h : l.Nodup) (hdr : dr ∉ l) : (l ++ [dr]).Nodup :=
  nodup_append.2 ⟨h, nodup_singleton dr, fun _ hd _ hd' =>
    ne_of_mem_of_not_mem hd (mem_singleton.1 hd' ▸ hdr)⟩

section

variable (h : Remembers alloc s l saved)

include h

theorem Remembers.length_eq : l.length = min saved.length MAXDUPREQS := by
  have hlen := congrArg length h.reqs
  rwa [length_map, length_lastReqs] at hlen

/-- An entry is allocated for the request. -/
theorem Remembers.allocate (hlt : s.ndupreqs < MAXDUPREQS) (req : Req) :
    ∃ l', Remembers alloc (svckudp_dupsave alloc s req) l' (saved ++ [req]) := by
  generalize hdr : (alloc s.ndupreqs).val = dr
  have hnew : dr ∉ l := fun hmem => by
    obtain ⟨k, hk, heq⟩ := h.alloc dr hmem
    exact hk.ne (alloc.injective (Subtype.ext (heq.trans hdr.symm)))
  have hdr0 : dr ≠ 0 := hdr ▸ (alloc s.ndupreqs).property
  have hsaved : saved.length < MAXDUPREQS := by
    have hlen := h.length_eq
    have hcnt := h.count
    omega
  have htake : takeEntry alloc s = ({ s with
      dr_next := if s.drmru ≠ 0 then update (update s.dr_next dr (s.dr_next s.drmru)) s.drmru dr
        else update s.dr_next dr dr
      ndupreqs := s.ndupreqs + 1 }, dr) := by
    rw [takeEntry, if_pos hlt]
    simp only [hdr]
  rw [svckudp_dupsave, htake]
  refine ⟨l ++ [dr], ⟨nodup_snoc h.nodup hnew, ?_, ?_, ?_, ?_, (getLast?_snoc l dr).symm, ?_⟩, ?_, ?_⟩
  · exact fun h0 => (mem_append.1 h0).elim h.zero fun h0 => hdr0 (mem_singleton.1 h0).symm
  · rw [length_append, ← h.count]
    rfl
  · rw [length_append, ← h.count]
    exact hlt
  · intro o ho
    change Path (if s.drmru ≠ 0 then _ else _) o o (l ++ [dr])
    rw [h.mru]
    rcases l.eq_nil_or_concat with rfl | ⟨w, p, rfl⟩
    · obtain rfl : dr = o := some_inj.1 ho
      rw [if_neg (fun h => h rfl)]
      exact ⟨rfl, update_self ..⟩
    · rw [concat_eq_append] at *
      rw [getLast?_snoc, if_pos (ne_of_mem_of_not_mem (mem_append_right w mem_cons_self) h.zero)]
      rw [head?_append_of_ne_nil _ (append_ne_nil_of_right_ne_nil w (cons_ne_nil p []))] at ho
      have hw : p ∉ w := fun hp => (nodup_append.1 h.nodup).2.2 p hp p mem_cons_self rfl
      obtain ⟨hdw, hdp⟩ := not_or.1 (mt mem_append.2 hnew)
      rw [append_assoc]
      exact (h.ring o ho).insert hw not_mem_nil (fun heq => hdp (mem_singleton.2 heq)) hdw not_mem_nil
  · have hcha : Chained { s with
        dr_next := if s.drmru ≠ 0 then update (update s.dr_next dr (s.dr_next s.drmru)) s.drmru dr
          else update s.dr_next dr dr
        ndupreqs := s.ndupreqs + 1 } (· ∈ l) := h.chained
    exact (hcha.setEntry hnew).congr fun d => by rw [mem_append, mem_singleton]
  · rw [lastReqs_snoc_of_lt hsaved, ← h.reqs]
    exact map_setEntry hnew
  · intro d hd
    rcases mem_append.1 hd with hd | hd
    · obtain ⟨k, hk, heq⟩ := h.alloc d hd
      exact ⟨k, lt_succ_of_lt hk, heq⟩
    · exact ⟨s.ndupreqs, lt_succ_self _, hdr.trans (mem_singleton.1 hd).symm⟩

/-- The oldest entry is used again for the request. -/
theorem Remembers.recycle (hge : ¬s.ndupreqs < MAXDUPREQS) (req : Req) :
    ∃ l', Remembers alloc (svckudp_dupsave alloc s req) l' (saved ++ [req]) := by
  have hlen := h.length_eq
  have hcnt := h.count
  have hsaved : MAXDUPREQS ≤ saved.length := by omega
  have hpos : 0 < l.length := by
    rw [← hcnt]
    exact lt_of_lt_of_le (by decide) (Nat.not_lt.1 hge)
  obtain ⟨o, rest, rfl⟩ := exists_cons_of_length_pos hpos
  obtain ⟨hnew, hnd⟩ := nodup_cons.1 h.nodup
  have hring := h.ring o rfl
  -- the entry that follows the last one is the first one
  have hnx : s.dr_next s.drmru = o := by
    rw [h.mru]
    rcases rest.eq_nil_or_concat with rfl | ⟨w, p, rfl⟩
    · exact hring.2
    · rw [concat_eq_append, ← cons_append] at hring ⊢
      rw [getLast?_snoc]
      exact hring.next_last
  obtain ⟨hcha, tbl, chain, hunh⟩ := unhash_spec h.chained h.zero h.le mem_cons_self
  have htake : takeEntry alloc s = (unhash s o, o) := by
    rw [takeEntry, if_neg hge, hnx]
  rw [svckudp_dupsave, htake]
  rw [hunh] at hcha ⊢
  refine ⟨rest ++ [o], ⟨nodup_snoc hnd hnew, ?_, ?_, ?_, ?_, (getLast?_snoc rest o).symm, ?_⟩, ?_, ?_⟩
  · exact fun h0 => h.zero (perm_append_singleton o rest |>.mem_iff.1 h0)
  · rw [(perm_append_singleton o rest).length_eq]
    exact hcnt
  · rw [(perm_append_singleton o rest).length_eq]
    exact h.le
  · intro a ha
    have hrot : Path s.dr_next (s.dr_next o) (s.dr_next o) (rest ++ [o]) := path_rotate hring
    cases rest with
    | nil =>
      obtain rfl : o = a := some_inj.1 ha
      exact hring
    | cons b rest =>
      obtain rfl : b = a := some_inj.1 ha
      rw [hrot.head] at hrot
      exact hrot
  · refine (hcha.setEntry (fun ho => ho.2 rfl)).congr fun d => ?_
    rw [mem_append, mem_singleton]
    refine or_congr_left' fun hd => ?_
    rw [mem_cons, or_iff_right hd]
    exact and_iff_left hd
  · rw [lastReqs_snoc_of_le hsaved, ← h.reqs]
    exact map_setEntry hnew
  · exact fun d hd => h.alloc d (perm_append_singleton o rest |>.mem_iff.1 hd)

theorem dupsave_remembers (req : Req) :
    ∃ l', Remembers alloc (svckudp_dupsave alloc s req) l' (saved ++ [req]) := by
  by_cases hlt : s.ndupreqs < MAXDUPREQS
  · exact h.allocate hlt req
  · exact h.recycle hlt req

/-- The counters do not matter. -/
theorem Remembers.count_up (checks reqs : ℕ) :
    Remembers alloc { s with dupchecks := checks, dupreqs := reqs } l saved where
  nodup := h.nodup
  zero := h.zero
  count := h.count
  le := h.le
  ring := h.ring
  mru := h.mru
  chained := h.chained
  reqs := h.reqs
  alloc := h.alloc

/-- A request is found if and only if it is among the last ones, and nothing but counters changes. -/
theorem dup_remembers (req : Req) :
    (svckudp_dup s req).2 = decide (req ∈ lastReqs saved) ∧ Remembers alloc (svckudp_dup s req).1 l saved := by
  obtain ⟨c, hpath, hnd, hmem⟩ := h.chained _ (xidhash_lt req.xid)
  have hc0 := zero_notMem_chain h.zero hmem
  rw [svckudp_dup]
  cases hseek : seek s.dr_chain 0 (fun dr => s.dr_req dr = req) (MAXDUPREQS + 1) none
      (s.drhashtbl (XIDHASH req.xid)) with
  | none =>
    have hmiss := hpath.seek_eq_none hc0 (length_chain_lt hnd (fun d hd => ((hmem d).1 hd).1) h.le) hseek
    refine ⟨(decide_eq_false fun hreq => ?_).symm, ?_⟩
    · rw [← h.reqs] at hreq
      obtain ⟨d, hd, hdreq⟩ := List.mem_map.1 hreq
      have hdc : d ∈ c := (hmem d).2 ⟨hd, by rw [DRHASH, hdreq]⟩
      exact of_decide_eq_false (hmiss d hdc) hdreq
    · exact h.count_up (s.dupchecks + 1) s.dupreqs
  | some r =>
    obtain ⟨hhit, u, v, rfl, -⟩ := hpath.seek_eq_some hc0 hseek
    refine ⟨(decide_eq_true ?_).symm, ?_⟩
    · rw [← h.reqs]
      exact List.mem_map.2 ⟨r.2, ((hmem r.2).1 (mem_append_right u mem_cons_self)).1,
        of_decide_eq_true hhit⟩
    · exact h.count_up (s.dupchecks + 1) (s.dupreqs + 1)

end

/-! ### Runs -/

/-- A call. -/
inductive Op
  | dupsave (req : Req)
  | dup (req : Req)

/-- The calls one after the other: what they leave, and what those of `svckudp_dup` return. -/
def run (alloc : ℕ ↪ {a : ℕ // a ≠ 0}) (s : Dupreqs) : List Op → Dupreqs × List Bool
  | [] => (s, [])
  | .dupsave req :: ops => run alloc (svckudp_dupsave alloc s req) ops
  | .dup req :: ops =>
    let r := run alloc (svckudp_dup s req).1 ops
    (r.1, (svckudp_dup s req).2 :: r.2)

/-- The requests saved, and whether each request asked for is among the last ones saved before. -/
def remembered (saved : List Req) : List Op → List Req × List Bool
  | [] => (saved, [])
  | .dupsave req :: ops => remembered (saved ++ [req]) ops
  | .dup req :: ops =>
    let r := remembered saved ops
    (r.1, decide (req ∈ lastReqs saved) :: r.2)

theorem Remembers.run (h : Remembers alloc s l saved) (ops : List Op) :
    (Kudp.run alloc s ops).2 = (remembered saved ops).2 ∧
    ∃ l', Remembers alloc (Kudp.run alloc s ops).1 l' (remembered saved ops).1 := by
  induction ops generalizing s l saved with
  | nil => exact ⟨rfl, l, h⟩
  | cons op ops ih =>
    cases op with
    | dupsave req =>
      obtain ⟨l', h'⟩ := dupsave_remembers h req
      exact ih h'
    | dup req =>
      obtain ⟨hdup, h'⟩ := dup_remembers h req
      obtain ⟨hres, l', hl'⟩ := ih h'
      exact ⟨congrArg₂ cons hdup hres, l', hl'⟩

/-- In every run, `svckudp_dup` finds the last requests saved and no others. The entries are always linked in a
    circle, and each is on the chain of its `dr_xid` once. -/
theorem dup_run (alloc : ℕ ↪ {a : ℕ // a ≠ 0}) (ops : List Op) :
    (run alloc init ops).2 = (remembered [] ops).2 ∧ ∃ l, Circle (run alloc init ops).1 l ∧
      l.map (run alloc init ops).1.dr_req = lastReqs (remembered [] ops).1 := by
  obtain ⟨hres, l, h⟩ := Remembers.run (init_remembers : Remembers alloc init [] []) ops
  exact ⟨hres, l, h.toCircle, h.reqs⟩

end Uwisc.Kudp
