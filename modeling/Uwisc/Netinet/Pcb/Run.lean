import Uwisc.Lib.Outcome
import Uwisc.Net.Route.Run
import Uwisc.Netinet.Pcb

/-!
# What the control block calls do

The invariant `Inv`: no two control blocks have the same addresses and ports, and
one without a port has nothing else either. Each call keeps it, two of them under a
condition (`SetaddrOk`, `DisconnectOk`).

* `lookup_none`, `lookup_exact`: what a lookup says of the list;
* `freePort_eq_some`: the port that is chosen is the next free one;
* `inPcbbind_inv`, `inPcbsetaddr_inv`, `inPcbdisconnect_inv`: the calls keep the
  invariant.
-/

namespace Uwisc.Pcb

open Except Function Lib List Net Option

variable {s s' : State} {i j : ℕ}

/-! ### Lookup -/

variable {fport lport port p : BitVec 16} {w n uid : ℕ} {laddr faddr : BitVec 32} {wild : Bool}
  {so : Socket} {nam : Option Nam} {err : Errno} {sin : Sockaddr} {e : Option Errno} {inp : Inpcb}

theorem localWild_eq_zero :
    localWild laddr inp = some 0 ↔ inp.inp_laddr = laddr := by
  rw [localWild]
  split_ifs with h h' hne h'
  · simpa [h'] using h
  · simpa using hne
  · simpa using hne
  · simp only [some.injEq, one_ne_zero, false_iff]
    exact fun heq => h' (heq.symm.trans (not_not.1 h))
  · simp [not_not.1 h, not_not.1 h']

theorem foreignWild_eq_zero :
    foreignWild faddr fport inp = some 0 ↔ inp.inp_faddr = faddr ∧ (faddr ≠ 0 → inp.inp_fport = fport) := by
  rw [foreignWild]
  split_ifs with h h' hne h'
  · simpa [h'] using h
  · simp only [false_iff]
    exact fun heq => hne.elim (fun hf => hf heq.1) fun hf => hf (heq.2 h')
  · rw [not_or, not_not, not_not] at hne
    simp [hne]
  · simp only [some.injEq, one_ne_zero, false_iff]
    exact fun heq => h' (heq.1.symm.trans (not_not.1 h))
  · simp [not_not.1 h, not_not.1 h']

/-- A block that needs no wildcard has these addresses and ports, up to the port of no address. -/
theorem wildcards_eq_zero :
    wildcards faddr fport laddr lport inp = some 0 ↔ inp.inp_lport = lport ∧ inp.inp_laddr = laddr ∧
      inp.inp_faddr = faddr ∧ (faddr ≠ 0 → inp.inp_fport = fport) := by
  rw [wildcards]
  split_ifs with h
  · simp [h]
  · rw [← localWild_eq_zero, ← foreignWild_eq_zero]
    rcases localWild laddr inp with _ | l <;> rcases foreignWild faddr fport inp with _ | f <;>
      simp [not_not.1 h]

theorem localWild_le (h : localWild laddr inp = some w) : w ≤ 1 := by
  rw [localWild] at h
  split_ifs at h <;> simp_all <;> omega

theorem foreignWild_le (h : foreignWild faddr fport inp = some w) : w ≤ 1 := by
  rw [foreignWild] at h
  split_ifs at h <;> simp_all <;> omega

/-- There are two addresses to replace by a wildcard. -/
theorem wildcards_lt (h : wildcards faddr fport laddr lport inp = some w) : w < 3 := by
  rw [wildcards] at h
  split_ifs at h
  rcases hl : localWild laddr inp with _ | l <;> rcases hf : foreignWild faddr fport inp with _ | f <;>
    rw [hl, hf] at h
  · simp at h
  · simp at h
  · simp at h
  · cases h
    have := localWild_le hl
    have := foreignWild_le hf
    omega

/-- A lookup that finds nothing excludes the blocks that match exactly. -/
theorem lookup_none (h : inPcblookup s faddr fport laddr lport wild = none) (hj : j ∈ s.list) :
    wildcards faddr fport laddr lport (s.inp j) ≠ some 0 := by
  intro hzero
  have := pick_none h hj (w := 0) (by simp [score, hzero])
  omega

/-! ### The invariant -/

/-- Addresses and ports of a block. -/
def Inpcb.key (inp : Inpcb) : BitVec 32 × BitVec 16 × BitVec 32 × BitVec 16 :=
  (inp.inp_faddr, inp.inp_fport, inp.inp_laddr, inp.inp_lport)

/-- A block without a port has nothing, and no two others are the same. -/
structure Inv (s : State) : Prop where
  port : s.port ≤ IPPORT_USERRESERVED
  nodup : s.list.Nodup
  made : ∀ i ∈ s.list, i < s.next
  unbound : ∀ i ∈ s.list, (s.inp i).inp_lport = 0 → (s.inp i).key = (0, 0, 0, 0)
  distinct : ∀ i ∈ s.list, ∀ j ∈ s.list, (s.inp i).inp_lport ≠ 0 → (s.inp i).key = (s.inp j).key → i = j

/-- Nothing but the block `i` changes, and what it becomes no other one is. -/
theorem Inv.change (hs : Inv s) (hp : s'.port ≤ IPPORT_USERRESERVED) (hlist : s'.list = s.list) (hnx : s'.next = s.next)
    (hoth : ∀ j, j ≠ i → (s'.inp j).key = (s.inp j).key)
    (hunb : (s'.inp i).inp_lport = 0 → (s'.inp i).key = (0, 0, 0, 0))
    (hnew : (s'.inp i).inp_lport ≠ 0 → ∀ j ∈ s.list, j ≠ i → (s.inp j).key ≠ (s'.inp i).key) : Inv s' := by
  have hport : ∀ j, j ≠ i → (s'.inp j).inp_lport = (s.inp j).inp_lport := fun j hj =>
    congrArg (fun k => k.2.2.2) (hoth j hj)
  refine ⟨hp, hlist ▸ hs.nodup, hlist ▸ hnx ▸ hs.made, fun j hj hzero => ?_, fun j hj k hk hne hkey => ?_⟩
  · by_cases hji : j = i
    · exact hji ▸ hunb (hji ▸ hzero)
    · rw [hoth j hji]
      exact hs.unbound j (hlist ▸ hj) (hport j hji ▸ hzero)
  · rw [hlist] at hj hk
    by_cases hji : j = i <;> by_cases hki : k = i
    · rw [hji, hki]
    · subst hji
      exact absurd ((hoth k hki).symm.trans hkey.symm) (hnew hne k hk hki)
    · subst hki
      have hne' : (s'.inp k).inp_lport ≠ 0 := fun hzero => hne <|
        (congrArg (fun k => k.2.2.2) hkey : (s'.inp j).inp_lport = (s'.inp k).inp_lport).trans hzero
      exact absurd ((hoth j hji).symm.trans hkey) (hnew hne' j hj hji)
    · rw [hoth j hji, hoth k hki] at hkey
      exact hs.distinct j hj k hk (hport j hji ▸ hne) hkey

/-- Only addresses and ports matter. -/
theorem Inv.congr (hs : Inv s) (hp : s'.port = s.port) (hlist : s'.list = s.list) (hnx : s'.next = s.next)
    (hkey : ∀ j, (s'.inp j).key = (s.inp j).key) : Inv s' := by
  have hport : ∀ j, (s'.inp j).inp_lport = (s.inp j).inp_lport := fun j => congrArg (fun k => k.2.2.2) (hkey j)
  refine ⟨hp ▸ hs.port, hlist ▸ hs.nodup, hlist ▸ hnx ▸ hs.made, fun j hj hzero => ?_,
    fun j hj k hk hne heq => ?_⟩
  · exact (hkey j).trans (hs.unbound j (hlist ▸ hj) (hport j ▸ hzero))
  · exact hs.distinct j (hlist ▸ hj) k (hlist ▸ hk) (hport j ▸ hne) ((hkey j).symm.trans (heq.trans (hkey k)))

/-! ### Ports -/

/-- A lookup for a local address and port would find a block. -/
def Taken (s : State) (laddr : BitVec 32) (port : BitVec 16) : Prop :=
  ∃ j ∈ s.list, (s.inp j).inp_lport = port ∧ (s.inp j).inp_laddr = laddr ∧ (s.inp j).inp_faddr = 0

/-- The port `p` is the first one free, from `head->inp_lport` on. -/
def NextFree (s : State) (laddr : BitVec 32) (p : BitVec 16) : Prop :=
  ∃ k, p = nextPort^[k + 1] s.port ∧ ¬Taken s laddr p ∧ ∀ j < k, Taken s laddr (nextPort^[j + 1] s.port)

theorem score_eq_zero :
    score wild faddr fport laddr lport inp = some 0 ↔ wildcards faddr fport laddr lport inp = some 0 := by
  simp [score, filter_eq_some_iff]

theorem lookup_isSome :
    (inPcblookup s 0 0 laddr port false).isSome = true ↔ Taken s laddr port := by
  constructor
  · intro h
    obtain ⟨j, hj⟩ := isSome_iff_exists.1 h
    obtain ⟨hin, w, hw, -⟩ := pick_some hj
    -- Without wildcards, what is found needs none.
    obtain ⟨hw, rfl⟩ : wildcards 0 0 laddr port (s.inp j) = some w ∧ w = 0 := by
      simpa [score, filter_eq_some_iff] using hw
    obtain ⟨hport, hladdr, hfaddr, -⟩ := wildcards_eq_zero.1 hw
    exact ⟨j, hin, hport, hladdr, hfaddr⟩
  · rintro ⟨j, hj, hport, hladdr, hfaddr⟩
    by_contra hnone
    refine lookup_none (not_isSome_iff_eq_none.1 hnone) hj (wildcards_eq_zero.2 ⟨hport, hladdr, hfaddr, ?_⟩)
    exact fun hne => absurd rfl hne

theorem freePort_eq_some (h : freePort s laddr n port = some p) :
    ∃ k, p = nextPort^[k + 1] port ∧ ¬Taken s laddr p ∧ ∀ j < k, Taken s laddr (nextPort^[j + 1] port) := by
  induction n generalizing port with
  | zero => simp [freePort] at h
  | succ n ih =>
    rw [freePort] at h
    split_ifs at h with htkn
    · obtain ⟨k, rfl, hfree, hall⟩ := ih h
      refine ⟨k + 1, rfl, hfree, fun j hj => ?_⟩
      cases j with
      | zero => exact lookup_isSome.1 htkn
      | succ j => exact hall j (Nat.lt_of_succ_lt_succ hj)
    · cases h
      exact ⟨0, rfl, mt lookup_isSome.2 htkn, fun j hj => absurd hj (Nat.not_lt_zero j)⟩

/-- The ports to choose from. -/
theorem nextPort_bounds (h : port ≤ IPPORT_USERRESERVED) :
    IPPORT_RESERVED ≤ nextPort port ∧ nextPort port ≤ IPPORT_USERRESERVED := by
  rw [nextPort]
  split_ifs with hend
  · decide
  · obtain ⟨hlow, hhigh⟩ := not_or.1 hend
    simp only [IPPORT_RESERVED, IPPORT_USERRESERVED] at h hlow hhigh ⊢
    bv_omega

theorem nextPort_iterate (h : port ≤ IPPORT_USERRESERVED) (k : ℕ) :
    IPPORT_RESERVED ≤ nextPort^[k + 1] port ∧ nextPort^[k + 1] port ≤ IPPORT_USERRESERVED := by
  induction k with
  | zero => exact nextPort_bounds h
  | succ k ih =>
    rw [iterate_succ_apply']
    exact nextPort_bounds ih.2

/-- Which ports are free depends on addresses and ports alone. -/
theorem Taken.congr (hlist : s'.list = s.list)
    (hkey : ∀ j, (s'.inp j).key = (s.inp j).key) : Taken s' laddr port ↔ Taken s laddr port := by
  have hall : ∀ j, ((s'.inp j).inp_lport = port ∧ (s'.inp j).inp_laddr = laddr ∧ (s'.inp j).inp_faddr = 0) =
      ((s.inp j).inp_lport = port ∧ (s.inp j).inp_laddr = laddr ∧ (s.inp j).inp_faddr = 0) := fun j => by
    have h := hkey j
    simp only [Inpcb.key, Prod.mk.injEq] at h
    rw [h.1, h.2.2.1, h.2.2.2]
  simp only [Taken, hlist, hall]

theorem NextFree.congr (h : NextFree s' laddr p) (hport : s'.port = s.port)
    (hlist : s'.list = s.list) (hkey : ∀ j, (s'.inp j).key = (s.inp j).key) : NextFree s laddr p := by
  simpa only [NextFree, Taken.congr hlist hkey, hport] using h

/-! ### Local addresses -/

/-- From `noname` on, the block gets the port, or the next free one. -/
theorem noname_eq_ok (h : noname s i lport = .ok (s', e)) :
    e = none ∧ (lport = 0 ∧ (∃ p, NextFree s (s.inp i).inp_laddr p ∧
        s' = { s with port := p }.set i { s.inp i with inp_lport := p }) ∨
      lport ≠ 0 ∧ s' = s.set i { s.inp i with inp_lport := lport }) := by
  rw [noname] at h
  split_ifs at h with hzero
  · split at h
    · next p hp =>
      cases h
      exact ⟨rfl, .inl ⟨hzero, p, freePort_eq_some hp, rfl⟩⟩
    · cases h
  · cases h
    exact ⟨rfl, .inr ⟨hzero, rfl⟩⟩

/-- The port that is chosen is one of those to choose from. -/
theorem NextFree.bounds (h : NextFree s laddr p)
    (hs : s.port ≤ IPPORT_USERRESERVED) : IPPORT_RESERVED ≤ p ∧ p ≤ IPPORT_USERRESERVED := by
  obtain ⟨k, rfl, -⟩ := h
  exact nextPort_iterate hs k

theorem ne_zero_of_reserved (h : IPPORT_RESERVED ≤ p) : p ≠ 0 := by
  rintro rfl
  exact absurd h (by decide)

/-- What `in_pcbbind` does: it fails and does nothing, or a block without a port gets a local address and a
    port that no block has. -/
theorem inPcbbind_eq_ok (hs : Inv s) (h : inPcbbind s so uid i nam = .ok (s', e)) :
    (∃ err, e = some err) ∧ s' = s ∨ e = none ∧ (s.inp i).inp_lport = 0 ∧ ∃ laddr p port,
        s' = { s with port := port }.set i { s.inp i with inp_laddr := laddr, inp_lport := p } ∧
        port ≤ IPPORT_USERRESERVED ∧ p ≠ 0 ∧ ¬Taken s laddr p := by
  simp only [inPcbbind] at h
  split_ifs at h with hif hbnd
  · cases h
    exact .inl ⟨⟨_, rfl⟩, rfl⟩
  · cases h
    exact .inl ⟨⟨_, rfl⟩, rfl⟩
  · obtain ⟨hport, hladdr⟩ := not_or.1 hbnd
    rw [not_not] at hport hladdr
    cases nam with
    | none =>
      obtain ⟨rfl, ⟨-, p, hp, rfl⟩ | ⟨hne, -⟩⟩ := noname_eq_ok h
      · exact .inr ⟨rfl, hport, _, p, p, rfl, (hp.bounds hs.port).2, ne_zero_of_reserved (hp.bounds hs.port).1,
          hp.choose_spec.2.1⟩
      · exact absurd rfl hne
    | some nam =>
      simp only at h
      split_ifs at h with hlen haddr hacc huse
      all_goals first
        | (cases h
           exact .inl ⟨⟨_, rfl⟩, rfl⟩)
        | skip
      -- The block has its address already when a port is looked for, but no port.
      have htkn : ∀ p : BitVec 16, p ≠ 0 → Taken s (sinAddr nam.sin) p →
          Taken (s.set i { s.inp i with inp_laddr := sinAddr nam.sin }) (sinAddr nam.sin) p := by
        rintro p hp ⟨j, hj, hkey⟩
        have hji : j ≠ i := fun hji => hp (hkey.1.symm.trans (hji ▸ hport))
        exact ⟨j, hj, by simpa [State.set, hji] using hkey⟩
      obtain ⟨rfl, ⟨-, p, hp, rfl⟩ | ⟨hne, rfl⟩⟩ := noname_eq_ok h
      · have hp0 := ne_zero_of_reserved (hp.bounds hs.port).1
        refine .inr ⟨rfl, hport, sinAddr nam.sin, p, p, ?_, (hp.bounds hs.port).2, hp0, fun ht => ?_⟩
        · simp [State.set]
        · exact hp.choose_spec.2.1 (by simpa [State.set] using htkn p hp0 ht)
      · refine .inr ⟨rfl, hport, sinAddr nam.sin, sinPort nam.sin, s.port, ?_, hs.port, hne, ?_⟩
        · simp [State.set]
        · rintro ⟨j, hj, hlport, hladdr', hfaddr⟩
          refine lookup_none (not_isSome_iff_eq_none.1 fun hsome => huse ⟨hne, hsome⟩) hj
            (wildcards_eq_zero.2 ⟨hlport, hladdr', hfaddr, ?_⟩)
          exact fun hf => absurd rfl hf

theorem inPcbbind_inv (hs : Inv s) (hi : i ∈ s.list)
    (h : inPcbbind s so uid i nam = .ok (s', e)) : Inv s' := by
  rcases inPcbbind_eq_ok hs h with ⟨-, rfl⟩ | ⟨-, hport, laddr, p, port, rfl, hle, hp, hfree⟩
  · exact hs
  · have hkey := hs.unbound i hi hport
    simp only [Inpcb.key, Prod.mk.injEq] at hkey
    refine hs.change (i := i) hle rfl rfl (fun j hj => by simp [State.set, hj]) (fun h => ?_) fun _ j hj hji heq => hfree ?_
    · exact absurd (by simpa [State.set] using h) hp
    · simp only [State.set, update_self, Inpcb.key, Prod.mk.injEq] at heq
      exact ⟨j, hj, heq.2.2.2, heq.2.2.1, heq.1.trans hkey.1⟩

/-! ### Foreign addresses -/

theorem destination_family (m : Machine) (sin : Sockaddr) : (destination m sin).sa_family = sin.sa_family := by
  rw [destination]
  split
  · rfl
  · split_ifs <;> rfl

/-- What is found is an address of one of the interfaces. -/
theorem findIfa_mem {test : Ifnet → Ifaddr → Bool} {l : List Ifnet} {k : ℕ} {ifa : Ifaddr}
    (h : findIfa test l n = some (k, ifa)) : ∃ ifp ∈ l, ifa ∈ ifp.if_addrlist ∧ test ifp ifa = true := by
  induction l generalizing n with
  | nil => cases h
  | cons ifp l ih =>
    rw [findIfa] at h
    split at h
    · next hfind =>
      cases h
      exact ⟨ifp, mem_cons_self, mem_of_find?_eq_some hfind, find?_some hfind⟩
    · obtain ⟨ifp', hin, h⟩ := ih h
      exact ⟨ifp', mem_cons_of_mem ifp hin, h⟩

/-- With an address to send from, there is an internet address. -/
theorem sourceAddr_ifaddr {m : Machine} {c : Core} {ref : Ref} {ifaddr : Sockaddr}
    (hsin : sin.sa_family = AF_INET) (h : sourceAddr m c ref sin = .ok (some ifaddr)) : m.in_ifaddr ≠ [] := by
  rw [sourceAddr] at h
  obtain ⟨ia, hia, h⟩ := bind_eq_ok.1 h
  cases ia with
  | some ia =>
    rw [routed] at hia
    obtain ⟨ifp, -, hia⟩ := bind_eq_ok.1 hia
    cases ifp with
    | none => cases hia
    | some ifp =>
      replace hia := ok.inj hia
      split_ifs at hia
      exact ne_nil_of_mem (mem_of_find?_eq_some hia)
  | none =>
    simp only at h
    split at h
    · next k ifa hdst =>
      obtain ⟨ifp, hin, hifa, htest⟩ := findIfa_mem hdst
      simp only [Bool.decide_and, Bool.and_eq_true, decide_eq_true_eq] at htest
      obtain ⟨ia, hia, -⟩ := m.inet ifp hin ifa hifa (htest.2.1.trans hsin)
      exact ne_nil_of_mem hia
    · split at h
      · next hfind => exact ne_nil_of_mem (mem_of_find?_eq_some hfind)
      · rintro hnil
        rw [hnil] at h
        cases h

/-- A block without a port gets the next free one. -/
theorem ensurePort_eq_ok (hif : s.machine.in_ifaddr ≠ [])
    (h : ensurePort s so uid i = .ok s') :
    ¬((s.inp i).inp_laddr = 0 ∧ (s.inp i).inp_lport = 0) ∧ s' = s ∨
      (s.inp i).inp_laddr = 0 ∧ (s.inp i).inp_lport = 0 ∧ ∃ p, NextFree s 0 p ∧
        s' = { s with port := p }.set i { s.inp i with inp_lport := p } := by
  rw [ensurePort] at h
  split_ifs at h with hzero
  · obtain ⟨⟨t, e⟩, ht, h⟩ := bind_eq_ok.1 h
    cases h
    have hnone : inPcbbind s so uid i none = noname s i 0 := by
      simp [inPcbbind, hif, hzero.1, hzero.2]
    obtain ⟨-, ⟨-, p, hp, rfl⟩ | ⟨hne, -⟩⟩ := noname_eq_ok (hnone ▸ ht)
    · exact .inr ⟨hzero.1, hzero.2, p, hzero.1 ▸ hp, rfl⟩
    · exact absurd rfl hne
  · exact .inl ⟨hzero, (ok.inj h).symm⟩

/-- The block `i` is not going to be the same as another one, if it gets a foreign address, the
    local address `laddr` and, without a port, the next one free. -/
def ChosenOk (s : State) (i : ℕ) (sin : Sockaddr) (laddr : BitVec 32) : Prop :=
  inPcblookup s (sinAddr sin) (sinPort sin) laddr 0 false = none → ∀ p, NextFree s 0 p →
    ∀ j ∈ s.list, j ≠ i → (s.inp j).key ≠ (sinAddr sin, sinPort sin, laddr, p)

theorem connectFrom_error (h : connectFrom s so uid i sin laddr = .ok (s', some err)) : s' = s := by
  rw [connectFrom] at h
  split_ifs at h
  · exact (Prod.mk.inj (ok.inj h)).1.symm
  · obtain ⟨t, -, h⟩ := bind_eq_ok.1 h
    exact absurd (Prod.mk.inj (ok.inj h)).2 (some_ne_none err).symm

theorem connectFrom_inv
    (hs : Inv s) (hi : i ∈ s.list) (hif : (s.inp i).inp_laddr = 0 → s.machine.in_ifaddr ≠ [])
    (hok : (s.inp i).inp_lport = 0 → ChosenOk s i sin laddr)
    (h : connectFrom s so uid i sin laddr = .ok (s', e)) : Inv s' := by
  rw [connectFrom] at h
  split_ifs at h with hloo
  · exact (Prod.mk.inj (ok.inj h)).1 ▸ hs
  · have hnone := not_isSome_iff_eq_none.1 hloo
    obtain ⟨t, ht, h⟩ := bind_eq_ok.1 h
    cases h
    by_cases hport : (s.inp i).inp_lport = 0
    · -- The port is chosen now, after the lookup.
      have hkey := hs.unbound i hi hport
      simp only [Inpcb.key, Prod.mk.injEq] at hkey
      obtain ⟨hnot, -⟩ | ⟨-, -, p, hp, rfl⟩ := ensurePort_eq_ok (hif hkey.2.2.1) ht
      · exact absurd ⟨hkey.2.2.1, hport⟩ hnot
      have hbou := hp.bounds hs.port
      refine hs.change (i := i) hbou.2 rfl rfl (fun j hj => by simp [State.set, hj]) (fun h => ?_)
        fun _ j hj hji heq => ?_
      · exact absurd (by simpa [State.set] using h) (ne_zero_of_reserved hbou.1)
      · exact hok hport (hport ▸ hnone) p hp j hj hji (by simpa [State.set, Inpcb.key] using heq)
    · have hts : t = s := by
        rw [ensurePort, if_neg fun h => hport h.2] at ht
        exact (ok.inj ht).symm
      subst hts
      refine hs.change (i := i) hs.port rfl rfl (fun j hj => by simp [State.set, hj]) (fun h => ?_)
        fun _ j hj hji heq => ?_
      · exact absurd (by simpa [State.set] using h) hport
      · simp only [State.set, update_self, Inpcb.key, Prod.mk.injEq] at heq
        exact lookup_none hnone hj (wildcards_eq_zero.2 ⟨heq.2.2.2, heq.2.2.1, heq.1, fun _ => heq.2.1⟩)

/-- A connection of a block without a port does not make it the same as another one. -/
def SetaddrOk (s : State) (so : Socket) (i : ℕ) (sin : Sockaddr) : Prop :=
  sin.sa_family = AF_INET → sinPort sin ≠ 0 → (s.inp i).inp_lport = 0 →
    ∀ core ro ifaddr, acquire s.machine s.core so (s.inp i).inp_route (destination s.machine sin) = .ok (core, ro) →
      sourceAddr s.machine core ro.ro_rt (destination s.machine sin) = .ok (some ifaddr) →
        ChosenOk s i (destination s.machine sin) (sinAddr ifaddr)

/-- The state of `in_pcbsetaddr` with a route to the destination. -/
def State.reroute (s : State) (i : ℕ) (core : Core) (ro : Route) : State :=
  { s with core := core }.set i { s.inp i with inp_route := ro }

@[simp] theorem reroute_key (core : Core) (ro : Route) (j : ℕ) : ((s.reroute i core ro).inp j).key = (s.inp j).key := by
  by_cases hj : j = i
  · subst hj
    simp [State.reroute, State.set, Inpcb.key]
  · simp [State.reroute, State.set, hj]

theorem ChosenOk.reroute (h : ChosenOk s i sin laddr) (core : Core) (ro : Route) :
    ChosenOk (s.reroute i core ro) i sin laddr := by
  intro hnone p hp j hj hji
  rw [reroute_key]
  refine h ?_ p (hp.congr rfl rfl (reroute_key core ro)) j hj hji
  -- A lookup does not look at routes.
  rw [← hnone, inPcblookup, inPcblookup]
  congr 1
  funext k
  have hkey := reroute_key (s := s) (i := i) core ro k
  simp only [Inpcb.key, Prod.mk.injEq] at hkey
  simp only [score, wildcards, localWild, foreignWild, hkey]

/-- `in_pcbsetaddr` fails and changes no address, or is at its end, with the address to send from. -/
theorem inPcbsetaddr_eq_ok (h : inPcbsetaddr s so uid i sin = .ok (s', e)) :
    (∃ err, e = some err) ∧ (s' = s ∨ ∃ core ro, s' = s.reroute i core ro) ∨
      sin.sa_family = AF_INET ∧ sinPort sin ≠ 0 ∧ ((s.inp i).inp_laddr ≠ 0 ∧
            connectFrom s so uid i (destination s.machine sin) (s.inp i).inp_laddr = .ok (s', e) ∨
          ∃ core ro ifaddr,
            acquire s.machine s.core so (s.inp i).inp_route (destination s.machine sin) = .ok (core, ro) ∧
            sourceAddr s.machine core ro.ro_rt (destination s.machine sin) = .ok (some ifaddr) ∧
            connectFrom (s.reroute i core ro) so uid i (destination s.machine sin) (sinAddr ifaddr) = .ok (s', e)) := by
  simp only [inPcbsetaddr] at h
  split_ifs at h with hfam hport hladdr
  · cases h
    exact .inl ⟨⟨_, rfl⟩, .inl rfl⟩
  · cases h
    exact .inl ⟨⟨_, rfl⟩, .inl rfl⟩
  · obtain ⟨⟨core, ro⟩, hacq, h⟩ := bind_eq_ok.1 h
    obtain ⟨ifaddr, hsou, h⟩ := bind_eq_ok.1 h
    cases ifaddr with
    | none =>
      cases h
      exact .inl ⟨⟨_, rfl⟩, .inr ⟨core, ro, rfl⟩⟩
    | some ifaddr => exact .inr ⟨not_not.1 hfam, hport, .inr ⟨core, ro, ifaddr, hacq, hsou, h⟩⟩
  · exact .inr ⟨not_not.1 hfam, hport, .inl ⟨hladdr, h⟩⟩

theorem Inv.reroute (hs : Inv s) (core : Core) (ro : Route) : Inv (s.reroute i core ro) :=
  hs.congr rfl rfl rfl (reroute_key core ro)

theorem inPcbsetaddr_inv (hs : Inv s) (hi : i ∈ s.list)
    (hok : SetaddrOk s so i sin) (h : inPcbsetaddr s so uid i sin = .ok (s', e)) : Inv s' := by
  obtain ⟨-, rfl | ⟨core, ro, rfl⟩⟩ | ⟨hfam, hport, ⟨hladdr, h⟩ | ⟨core, ro, ifaddr, hacq, hsou, h⟩⟩ :=
    inPcbsetaddr_eq_ok h
  · exact hs
  · exact hs.reroute core ro
  · refine connectFrom_inv hs hi (fun hzero => absurd hzero hladdr) (fun hzero => absurd ?_ hladdr) h
    exact congrArg (fun k => k.2.2.1) (hs.unbound i hi hzero)
  · have hif := sourceAddr_ifaddr ((destination_family _ _).trans hfam) hsou
    refine connectFrom_inv (hs.reroute core ro) hi (fun _ => hif) (fun hzero => ?_) h
    have hzero' : (s.inp i).inp_lport = 0 := by simpa [State.reroute, State.set] using hzero
    exact (hok hfam hport hzero' core ro ifaddr hacq hsou).reroute core ro

theorem inPcbsetaddr_error (h : inPcbsetaddr s so uid i sin = .ok (s', some err)) :
    s'.list = s.list ∧ ∀ j, (s'.inp j).key = (s.inp j).key := by
  obtain ⟨-, rfl | ⟨core, ro, rfl⟩⟩ | ⟨-, -, ⟨-, h⟩ | ⟨core, ro, ifaddr, -, -, h⟩⟩ := inPcbsetaddr_eq_ok h
  · exact ⟨rfl, fun _ => rfl⟩
  · exact ⟨rfl, reroute_key core ro⟩
  · rw [connectFrom_error h]
    exact ⟨rfl, fun _ => rfl⟩
  · rw [connectFrom_error h]
    exact ⟨rfl, reroute_key core ro⟩

/-! ### Blocks that come and go -/

theorem inPcballoc_inv (hs : Inv s) (mbuf : Bool) : Inv (inPcballoc s mbuf).1 := by
  rw [inPcballoc]
  split_ifs
  · have hne : ∀ j ∈ s.list, j ≠ s.next := fun j hj => (hs.made j hj).ne
    refine ⟨hs.port, nodup_cons.2 ⟨fun hin => hne _ hin rfl, hs.nodup⟩, ?_, ?_, ?_⟩
    · exact forall_mem_cons.2 ⟨Nat.lt_succ_self _, fun j hj => Nat.lt_succ_of_lt (hs.made j hj)⟩
    · refine forall_mem_cons.2 ⟨fun _ => by simp [Inpcb.key, Inpcb.clear], fun j hj => ?_⟩
      simpa [hne j hj] using hs.unbound j hj
    · -- The new block has no port.
      have hclr : (update s.inp s.next .clear s.next).inp_lport = 0 := by simp [Inpcb.clear]
      refine forall_mem_cons.2 ⟨fun _ _ hport => absurd hclr hport, fun j hj => forall_mem_cons.2 ⟨?_, ?_⟩⟩
      · intro hport hkey
        exact absurd ((congrArg (fun k => k.2.2.2) hkey).trans hclr) hport
      · intro k hk
        simpa [hne j hj, hne k hk] using hs.distinct j hj k hk
  · exact hs

/-- The block `i` leaves the list, whatever has become of it. -/
theorem Inv.erase (hs : Inv s) (hp : s'.port = s.port) (hlist : s'.list = s.list.erase i) (hnx : s'.next = s.next)
    (hoth : ∀ j, j ≠ i → s'.inp j = s.inp j) : Inv s' := by
  have hmem : ∀ j ∈ s'.list, j ∈ s.list ∧ s'.inp j = s.inp j := fun j hj => by
    have hj' := hs.nodup.mem_erase_iff.1 (hlist ▸ hj)
    exact ⟨hj'.2, hoth j hj'.1⟩
  refine ⟨hp ▸ hs.port, hlist ▸ hs.nodup.erase i, fun j hj => hnx ▸ hs.made j (hmem j hj).1, fun j hj => ?_,
    fun j hj k hk => ?_⟩
  · rw [(hmem j hj).2]
    exact hs.unbound j (hmem j hj).1
  · rw [(hmem j hj).2, (hmem k hk).2]
    exact hs.distinct j (hmem j hj).1 k (hmem k hk).1

theorem inPcbdetach_eq_ok (h : inPcbdetach s i = .ok s') :
    ∃ core, s' = { s with core := core, list := s.list.erase i } := by
  obtain ⟨core, -, h⟩ := bind_eq_ok.1 h
  exact ⟨core, (ok.inj h).symm⟩

theorem inPcbdetach_inv (hs : Inv s) (h : inPcbdetach s i = .ok s') : Inv s' := by
  obtain ⟨core, rfl⟩ := inPcbdetach_eq_ok h
  exact hs.erase rfl rfl rfl fun _ _ => rfl

/-- The block goes away, or no other one has its local half alone. -/
def DisconnectOk (s : State) (so : Socket) (i : ℕ) : Prop :=
  so.nofdref = true ∨ (s.inp i).inp_lport = 0 ∨
    ∀ j ∈ s.list, j ≠ i → (s.inp j).key ≠ (0, 0, (s.inp i).inp_laddr, (s.inp i).inp_lport)

theorem inPcbdisconnect_inv (hs : Inv s) (hi : i ∈ s.list) (hok : DisconnectOk s so i)
    (h : inPcbdisconnect s so i = .ok s') : Inv s' := by
  have hoth : ∀ j, j ≠ i → (s.set i { s.inp i with inp_faddr := 0, inp_fport := 0 }).inp j = s.inp j :=
    fun j hj => by simp [State.set, hj]
  simp only [inPcbdisconnect] at h
  split_ifs at h with hnofd
  · obtain ⟨core, rfl⟩ := inPcbdetach_eq_ok h
    exact hs.erase rfl rfl rfl hoth
  · cases h
    refine hs.change (i := i) hs.port rfl rfl (fun j hj => by rw [hoth j hj]) (fun hzero => ?_)
      fun hne j hj hji heq => ?_
    · have hkey := hs.unbound i hi (by simpa [State.set] using hzero)
      simp only [Inpcb.key, Prod.mk.injEq] at hkey
      simp [State.set, Inpcb.key, hkey]
    · rcases hok with hfd | hzero | hok
      · exact hnofd hfd
      · exact hne (by simpa [State.set] using hzero)
      · exact hok j hj hji (by simpa [State.set, Inpcb.key] using heq)

/-!
### Runs of the control block calls

A list of control blocks and any sequence of calls on its blocks, with anything
happening to interfaces and routes in between. If the calls meet a condition, no
two blocks ever have the same addresses and ports, so that a lookup does not
depend on the order of the list; a call that fails changes nothing (`pcb_sound`).

The condition leaves out two calls:

* `in_pcbconnect` of a block without a port looks for another block with the same
  addresses before it chooses the port (`connected_twice`);
* `in_pcbdisconnect` does not look for a block that has the local half alone
  (`disconnected_twice`).
-/

variable {s s' : State} {i j : ℕ}

/-- A call, or what goes on between calls. -/
inductive Call
  /-- `in_pcballoc`, with memory for a block or not. -/
  | alloc (mbuf : Bool)
  | bind (so : Socket) (uid : ℕ) (i : ℕ) (nam : Option Nam)
  | connect (so : Socket) (uid : ℕ) (i : ℕ) (nam : Nam)
  | disconnect (so : Socket) (i : ℕ)
  | detach (i : ℕ)
  /-- Interfaces and routes change, those of the blocks too. -/
  | other (machine : Machine) (core : Core) (route : ℕ → Route)

/-- The block of a call is one of the list. -/
def Call.On (s : State) : Call → Prop
  | .bind _ _ i _ | .connect _ _ i _ | .disconnect _ i | .detach i => i ∈ s.list
  | _ => True

instance (s : State) (a : Call) : Decidable (a.On s) := by
  cases a <;> unfold Call.On <;> infer_instance

/-- Executes a call. -/
def exec (s : State) : Call → Except Trap (State × Option Errno)
  | .alloc mbuf => .ok (inPcballoc s mbuf)
  | .bind so uid i nam => inPcbbind s so uid i nam
  | .connect so uid i nam => inPcbconnect s so uid i nam
  | .disconnect so i => do .ok (← inPcbdisconnect s so i, none)
  | .detach i => do .ok (← inPcbdetach s i, none)
  | .other machine core route =>
    .ok ({ s with machine := machine, core := core, inp := fun j => { s.inp j with inp_route := route j } }, none)

/-- The state after a call that returns. -/
def after (s : State) (a : Call) : Option State :=
  if a.On s then (exec s a).toOption.map Prod.fst else none

/-- The runs from an empty list. -/
def system : System State Call := .ofExec {s | s.list = [] ∧ s.port = 0} after

/-- The call does not make a block the same as another one. -/
def CallOk (s : State) : Call → Prop
  | .connect so _ i nam => nam.m_len = sizeofSin → SetaddrOk s so i nam.sin
  | .disconnect so i => DisconnectOk s so i
  | _ => True

/-- The control blocks can be told apart. -/
structure Sound (s : State) : Prop where
  distinct : ∀ i ∈ s.list, ∀ j ∈ s.list, (s.inp i).inp_lport ≠ 0 → (s.inp i).key = (s.inp j).key → i = j
  found : ∀ faddr fport laddr lport i, inPcblookup s faddr fport laddr lport true = some i → i ∈ s.list ∧
    ∃ w, wildcards faddr fport laddr lport (s.inp i) = some w ∧
      ∀ j ∈ s.list, ∀ w', wildcards faddr fport laddr lport (s.inp j) = some w' → w ≤ w'
  missed : ∀ faddr fport laddr lport, inPcblookup s faddr fport laddr lport true = none →
    ∀ j ∈ s.list, wildcards faddr fport laddr lport (s.inp j) = none
  order : ∀ i ∈ s.list, (s.inp i).inp_laddr ≠ 0 → (s.inp i).inp_faddr ≠ 0 → ∀ l, l.Perm s.list → ∀ wild,
    inPcblookup { s with list := l } (s.inp i).inp_faddr (s.inp i).inp_fport (s.inp i).inp_laddr
      (s.inp i).inp_lport wild = some i
  error : ∀ a s' err, exec s a = .ok (s', some err) → s'.list = s.list ∧ ∀ j, (s'.inp j).key = (s.inp j).key

theorem score_true (faddr : BitVec 32) (fport : BitVec 16) (laddr : BitVec 32) (lport : BitVec 16) (inp : Inpcb) :
    score true faddr fport laddr lport inp = wildcards faddr fport laddr lport inp := by
  cases h : wildcards faddr fport laddr lport inp <;> simp [score, h]

/-- A call that fails leaves the addresses and ports alone. -/
theorem exec_error {a : Call} {err : Errno} (hs : Inv s) (h : exec s a = .ok (s', some err)) :
    s'.list = s.list ∧ ∀ j, (s'.inp j).key = (s.inp j).key := by
  cases a with
  | alloc mbuf =>
    simp only [exec, inPcballoc] at h
    split_ifs at h
    · exact absurd (Prod.mk.inj (ok.inj h)).2 (some_ne_none err).symm
    · cases h
      exact ⟨rfl, fun _ => rfl⟩
  | bind so uid i nam =>
    obtain ⟨-, rfl⟩ | ⟨hnone, -⟩ := inPcbbind_eq_ok hs h
    · exact ⟨rfl, fun _ => rfl⟩
    · exact absurd hnone (some_ne_none err)
  | connect so uid i nam =>
    simp only [exec, inPcbconnect] at h
    split_ifs at h
    · cases h
      exact ⟨rfl, fun _ => rfl⟩
    · exact inPcbsetaddr_error h
  | disconnect so i | detach i =>
    obtain ⟨t, -, h⟩ := bind_eq_ok.1 h
    exact absurd (Prod.mk.inj (ok.inj h)).2 (some_ne_none err).symm
  | other machine core route =>
    exact absurd (Prod.mk.inj (ok.inj h)).2 (some_ne_none err).symm

theorem Inv.sound (hs : Inv s) : Sound s where
  distinct := hs.distinct
  found faddr fport laddr lport i h := by
    have h := pick_some h
    simp only [score_true] at h
    exact h
  missed faddr fport laddr lport h j hj := by
    by_contra hne
    obtain ⟨w, hw⟩ := ne_none_iff_exists'.1 hne
    have hle := pick_none h hj ((score_true _ _ _ _ _).trans hw)
    exact absurd (wildcards_lt hw) hle.not_gt
  order i hi hladdr hfaddr l hl wild := by
    -- The block matches without a wildcard, and no other one does.
    refine pick_of_unique (by decide) (hl.mem_iff.2 hi) ?_ fun j hj hzero => ?_
    · exact score_eq_zero.2 (wildcards_eq_zero.2 ⟨rfl, rfl, rfl, fun _ => rfl⟩)
    · have hport : (s.inp i).inp_lport ≠ 0 := fun hport =>
        hfaddr (congrArg Prod.fst (hs.unbound i hi hport))
      obtain ⟨hlport, hladdr', hfaddr', hfport⟩ := wildcards_eq_zero.1 (score_eq_zero.1 hzero)
      refine (hs.distinct i hi j (hl.mem_iff.1 hj) hport ?_).symm
      exact Prod.ext hfaddr'.symm (Prod.ext (hfport hfaddr).symm (Prod.ext hladdr'.symm hlport.symm))
  error _ _ _ h := exec_error hs h

/-- Each call that meets the condition keeps the invariant. -/
theorem Inv.step {a : Call} {e : Option Errno} (hs : Inv s) (hon : a.On s) (hok : CallOk s a)
    (h : exec s a = .ok (s', e)) : Inv s' := by
  cases a with
  | alloc mbuf =>
    obtain rfl : (inPcballoc s mbuf).1 = s' := congrArg Prod.fst (ok.inj h)
    exact inPcballoc_inv hs mbuf
  | bind so uid i nam => exact inPcbbind_inv hs hon h
  | connect so uid i nam =>
    simp only [exec, inPcbconnect] at h
    split_ifs at h with hlen
    · cases h
      exact hs
    · exact inPcbsetaddr_inv hs hon (hok (not_not.1 hlen)) h
  | disconnect so i =>
    obtain ⟨t, ht, h⟩ := bind_eq_ok.1 h
    cases h
    exact inPcbdisconnect_inv hs hon hok ht
  | detach i =>
    obtain ⟨t, ht, h⟩ := bind_eq_ok.1 h
    cases h
    exact inPcbdetach_inv hs ht
  | other machine core route =>
    cases h
    exact hs.congr rfl rfl rfl fun _ => rfl

theorem after_eq_some {a : Call} (h : after s a = some s') : a.On s ∧ ∃ e, exec s a = .ok (s', e) := by
  rw [after] at h
  split_ifs at h with hon
  cases hr : exec s a with
  | error e => simp [hr, Except.toOption] at h
  | ok r =>
    obtain rfl : r.1 = s' := by simpa [hr, Except.toOption] using h
    exact ⟨hon, r.2, rfl⟩

theorem inv_init (hlist : s.list = []) (hport : s.port = 0) : Inv s where
  port := hport ▸ by decide
  nodup := hlist ▸ List.nodup_nil
  made i hi := absurd (hlist ▸ hi) List.not_mem_nil
  unbound i hi := absurd (hlist ▸ hi) List.not_mem_nil
  distinct i hi := absurd (hlist ▸ hi) List.not_mem_nil

/-- In every run whose calls meet the condition, the control blocks can be told apart. -/
theorem pcb_sound (hs : (system.restrict CallOk).Reachable s) : Sound s := by
  have hinv : Inv s := by
    refine hs.invariant (fun s hs => ?_) fun s a s' hs h => ?_
    · exact inv_init hs.1 hs.2
    · obtain ⟨hon, e, hexec⟩ := after_eq_some h.2
      exact hs.step hon h.1 hexec
  exact hinv.sound

/-! ### One interface -/

/-- A socket without options, of a protocol that connects. -/
def plain : Socket := ⟨false, false, false, true, false⟩

/-- An address with a port. -/
def name (a b c d : UInt8) (hi lo : UInt8) : Nam :=
  ⟨16, AF_INET, ![hi, lo, a, b, c, d, 0, 0, 0, 0, 0, 0, 0, 0]⟩

/-- A machine with one interface, no routes and no control blocks. -/
def noBlocks : State where
  machine := oneIf
  core := .empty fun _ => true
  port := 0
  list := []
  inp _ := .clear
  next := 0

/-- A block with a port. -/
def bound : State :=
  ((after noBlocks (.alloc true)).bind fun s => after s (.bind plain 1 0 (some (name 0 0 0 0 4 0)))).get
    (by decide +kernel)

/-- The block with a connection. -/
def connected : State := (after bound (.connect plain 1 0 (name 10 0 0 2 0 23))).get (by decide +kernel)

/-- A block that has its port when it is connected. -/
theorem pcb_sound_connected : Sound connected := by
  obtain ⟨s, hs, hbnd⟩ := bind_eq_some_iff.1 (some_get (x := (after noBlocks (.alloc true)).bind fun s =>
    after s (.bind plain 1 0 (some (name 0 0 0 0 4 0)))) (by decide +kernel)).symm
  have halc : (system.restrict CallOk).Reachable s :=
    .step (a := .alloc true) (.init ⟨rfl, rfl⟩) ⟨trivial, hs⟩
  have hbind : (system.restrict CallOk).Reachable bound :=
    halc.step (a := .bind plain 1 0 (some (name 0 0 0 0 4 0))) ⟨trivial, hbnd⟩
  refine pcb_sound (hbind.step (a := .connect plain 1 0 (name 10 0 0 2 0 23)) ⟨fun _ _ _ hport => ?_, ?_⟩)
  · exact absurd hport (by decide +kernel)
  · exact (some_get _).symm

/-- If calls lead to two blocks with the same addresses and ports, the blocks cannot always
    be told apart. -/
theorem not_sound_of_run (as : List Call) (hrun : (as.foldlM after noBlocks).any (fun s =>
    (0 ∈ s.list ∧ 1 ∈ s.list) ∧ (s.inp 0).inp_lport ≠ 0 ∧ (s.inp 0).key = (s.inp 1).key) = true) :
    ¬∀ s, system.Reachable s → Sound s := by
  intro h
  obtain ⟨s, hs, hsame⟩ := (any_eq_true _ _).1 hrun
  obtain ⟨⟨h0, h1⟩, hport, hkey⟩ := of_decide_eq_true hsame
  have hrch : system.Reachable s := System.Reachable.foldlM (.init ⟨rfl, rfl⟩) hs
  exact absurd ((h s hrch).distinct 0 h0 1 h1 hport hkey) (by decide)

/-- A connection from port 1024, and one to the same place from a block without a port, which
    then gets port 1024. -/
theorem connected_twice : ¬∀ s, system.Reachable s → Sound s :=
  not_sound_of_run [.alloc true, .bind plain 1 0 (some (name 0 0 0 0 4 0)), .connect plain 1 0 (name 10 0 0 2 0 23),
    .alloc true, .connect plain 1 1 (name 10 0 0 2 0 23)] (by decide +kernel)

/-- A block with the address that another one has given up for a connection, which then ends. -/
theorem disconnected_twice : ¬∀ s, system.Reachable s → Sound s :=
  not_sound_of_run [.alloc true, .bind plain 1 0 (some (name 10 0 0 1 8 0)), .connect plain 1 0 (name 10 0 0 2 0 23),
    .alloc true, .bind { plain with reuseaddr := true } 1 1 (some (name 10 0 0 1 8 0)), .disconnect plain 0]
    (by decide +kernel)

end Uwisc.Pcb
