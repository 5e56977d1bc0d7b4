import Uwisc.Netinet.Ip.Srcroute

/-!
# IP: where replies go

The reply to a packet with a source route is sent to the source of the packet, and the pointer of its option is that
of the packet, which was behind the route. So the first host that it is sent to takes the route for completed, or
refuses the option (`route_completed`), and no reply travels along the hops (`not_travels`). It does if the pointer
is at the first address of the route (`OnRoute.travels`).
-/

namespace Uwisc.Ip.Options

open Function Lib List

variable {h : Host} {mem : Mem} {s : State} {v : Visit}

/-! ### The options of the reply -/

theorem length_reversed (srcrt : Mem) (n : ℕ) : (reversed srcrt n).length = 4 * n := by
  induction n with
  | zero => rfl
  | succ n ih =>
    rw [reversed, length_append, ih]
    change 4 + 4 * n = 4 * (n + 1)
    omega

/-- What `ip_srcroute` makes is one address, and options that begin with a `nop` and the fields of the option. -/
theorem ipSrcroute_options {index : ℕ} {area : Mem} {m : Mbufs.Mbuf} (hm : ipSrcroute index area s = some m) :
    ∃ n, s.nhops = n + 1 ∧ (Pcbopts.ipOption m).ipopt_dst = (s.srcrt.word (4 + 4 * n)).toBitVec ∧
      (Pcbopts.ipOption m).ipopt_list = [IPOPT_NOP, s.srcrt 1, s.srcrt 2, s.srcrt 3] ++ reversed s.srcrt n := by
  rw [ipSrcroute] at hm
  split_ifs at hm with hzero
  cases hm
  obtain ⟨n, hn⟩ := Nat.exists_eq_add_one_of_ne_zero hzero
  have hlen : (returnRoute s).length = 4 + (4 + 4 * n) := by
    rw [returnRoute, hn, Nat.add_sub_cancel, length_append, length_append, length_reversed]
    rfl
  have hall : bytes (store area 0 (returnRoute s)) 0 (4 + (4 + 4 * n)) = returnRoute s := by
    rw [← hlen]
    exact bytes_store area 0 (returnRoute s)
  have hfst := congrArg (take 4) hall
  have hrs := congrArg (drop 4) hall
  rw [take_bytes, Nat.min_eq_left (Nat.le_add_right 4 _)] at hfst
  rw [drop_bytes, Nat.add_sub_cancel_left] at hrs
  refine ⟨n, hn, ?_, ?_⟩
  · have hword : (bytes (store area 0 (returnRoute s)) 0 4) = (s.srcrt.word (4 + 4 * n)).toList := by
      rw [hfst, returnRoute, hn, Nat.add_sub_cancel]
      rfl
    exact congrArg (fun l => BitVec.ofNat 32 (decode l)) hword
  · have hsize : ((s.nhops : ℤ) * 4 + ((IPOPT_OFFSET : ℤ) + 1) + 1).toNat - 4 = 4 + 4 * n := by
      rw [hn, IPOPT_OFFSET]
      omega
    have hlist : (returnRoute s).drop 4 = [IPOPT_NOP, s.srcrt 1, s.srcrt 2, s.srcrt 3] ++ reversed s.srcrt n := by
      rw [returnRoute, hn, Nat.add_sub_cancel]
      rfl
    rw [← hlist, ← hrs, ← hsize]
    rfl

variable {n i : ℕ} {c : Call} {route : ℕ → Word}

/-- The packet that the options are put into. -/
theorem ipInsertoptions_opts (hc : c.room = true ∨ c.mgetOpt = true) (p : Packet) (opt : IpOption) :
    (ipInsertoptions c p opt).1.opts = opt.ipopt_list ++ p.opts ∧
      (ipInsertoptions c p opt).2 = 20 + opt.ipopt_list.length := by
  have hgot : ¬(¬c.room = true ∧ ¬c.mgetOpt = true) := fun hn => hc.elim hn.1 hn.2
  rw [ipInsertoptions, if_neg hgot]
  split_ifs <;> exact ⟨rfl, rfl⟩

theorem ipInsertoptions_dst {p : Packet} {opt : IpOption} (h : opt.ipopt_dst ≠ 0) :
    (ipInsertoptions c p opt).1.ip.ip_dst = opt.ipopt_dst := by
  rw [ipInsertoptions, if_pos h]
  split_ifs <;> rfl

/-- The `nop` before a source route is passed over. -/
theorem ipDooptions_nop (hn : n ≤ 9) (hnop : mem 20 = IPOPT_NOP) : ∃ v s, s.mem = mem ∧
    ipDooptions h (6 + n) mem = (v :: (loop h 21 (3 + 4 * n) s).1, (loop h 21 (3 + 4 * n) s).2) := by
  let s0 : State := ⟨mem, fun _ => 0, 0, []⟩
  let o : Opt := ⟨mem.word IP_DST, 20, 4 * (6 + n) - 20⟩
  have hcnt : 4 * (6 + n) - 20 = 4 + 4 * n := by omega
  have hs : Ready mem o s0.mem := ⟨le_rfl, by change 4 * (6 + n) - 20 ≤ 40; omega, fun _ _ => rfl, rfl⟩
  have hgo : ¬o.kind mem = IPOPT_EOL := fun heol => absurd (hnop.symm.trans heol) (by decide)
  have hpass := pass_single (h := h) hs (.inr hnop)
  rw [if_neg hgo] at hpass
  have hloop : ipDooptions h (6 + n) mem = _ :=
    loop_of_some (o := o) (s := s0) (by change 0 < 4 * (6 + n) - 20; omega) (congrArg Prod.fst hpass)
  have hrs : 4 * (6 + n) - 20 - 1 = 3 + 4 * n := by omega
  refine ⟨visit h o s0, (visit h o s0).after, ?_, ?_⟩
  · change (pass h o.cp o.cnt { s0 with log := [] }).2.mem = mem
    rw [hpass]
  · rw [hloop, ← hrs]
    rfl

/-- An option that is all that is left of the header. -/
theorem loop_of_whole {o : Opt} (hcnt : 0 < o.cnt) {n : { n : ℕ // 0 < n }} (hn : n.1 = o.cnt)
    (hpass : (pass h o.cp o.cnt { s with log := [] }).1 = .ok (some n)) :
    loop h o.cp o.cnt s = ([visit h o s], .ok (), (visit h o s).after) := by
  have hend : ¬0 < o.cnt - n := by omega
  rw [loop_of_some hcnt hpass, loop, if_neg hend]

/-- A source route that is complete: it is refused if it is not all of the options, and else nothing changes. -/
theorem route_completed (hn : n ≤ 9) (hnop : mem 20 = IPOPT_NOP)
    (hk : mem 21 = IPOPT_LSRR ∨ mem 21 = IPOPT_SSRR) (hlen : ((mem 22).toNat - 3) / 4 = n) (hmin : 4 ≤ (mem 22).toNat) (hptr : IPOPT_MINOFF ≤ (mem 23).toNat)
    (hspc : noSpace ((mem 23).toNat - 1) (mem 22).toNat = true) (hours : h.ifwithaddr (mem.word IP_DST) = true) :
    ((ipDooptions h (6 + n) mem).2.1 = .ok () ↔ (mem 22).toNat = 3 + 4 * n) ∧
      ((ipDooptions h (6 + n) mem).2.1 = .ok () → (ipDooptions h (6 + n) mem).2.2.mem = mem) := by
  obtain ⟨v, s, rfl, hrun⟩ := ipDooptions_nop (h := h) hn hnop
  let o : Opt := ⟨s.mem.word IP_DST, 21, 3 + 4 * n⟩
  have hs : Ready s.mem o s.mem :=
    ⟨by change 20 ≤ 21; omega, by change 3 + 4 * n ≤ 40; omega, fun _ _ => rfl, rfl⟩
  have hpos : 0 < o.cnt := by change 0 < 3 + 4 * n; omega
  rw [hrun]
  by_cases hbad : 3 + 4 * n < (s.mem 22).toNat
  · have hsin : ¬o.Single s.mem := by
      change ¬(s.mem 21 = IPOPT_EOL ∨ s.mem 21 = IPOPT_NOP)
      rcases hk with hk | hk <;> rw [hk] <;> decide
    have hpass := pass_badLength (h := h) hs hsin (.inr hbad)
    have hloop : loop h 21 (3 + 4 * n) s = _ := loop_of_error hpos (congrArg Prod.fst hpass)
    rw [hloop]
    exact ⟨iff_of_false (error_ne_ok _) (by omega), fun hok => absurd hok (error_ne_ok _)⟩
  · have hwhl : (s.mem 22).toNat = 3 + 4 * n := by omega
    have hc : Completes h (visit h o s) := by
      have hopt : (visit h o s).opt = o := by rw [Visit.opt, visit, hs.dst]
      have hlen' : o.len s.mem = (s.mem 22).toNat := rfl
      have hcnt : o.cnt = 3 + 4 * n := rfl
      have hbef : (visit h o s).before = s.mem := rfl
      rw [Completes, hopt, hbef]
      refine ⟨hk, not_or.2 ⟨by omega, by omega⟩, hptr, hours, hspc⟩
    obtain ⟨hmem, m, hm, hpass⟩ := pass_completes hs hc
    have hloop : loop h 21 (3 + 4 * n) s = _ := loop_of_whole hpos (hm.trans hwhl) hpass
    rw [hloop]
    exact ⟨iff_of_true rfl hwhl, fun _ => hmem⟩

/-- No reply travels along the hops of the packet, the last one first, and on to the source of the packet. -/
theorem not_travels {ip_hl : ℕ} (hhl : ip_hl < 16) (ha : Accepted h ip_hl mem v) (net : Net) {index : ℕ} {area : Mem}
    {m : Mbufs.Mbuf} (hm : ipSrcroute index area (ipDooptions h ip_hl mem).2.2 = some m) {c : Call}
    (hc : c.room = true ∨ c.mgetOpt = true) (p : Packet) {mem' : Mem}
    (hmem' : Holds mem' (ipInsertoptions c p (Pcbopts.ipOption m)).1) :
    ¬Travels net ((ipInsertoptions c p (Pcbopts.ipOption m)).2 / 4) mem' (v.recorded.reverse ++ [mem.word IP_SRC]) := by
  have hsaves := ha.saves hhl
  set s := (ipDooptions h ip_hl mem).2.2
  obtain ⟨hrt, hbad, hptr, -, hspc⟩ := ha.complete
  obtain ⟨n, hn, -, hlist⟩ := ipSrcroute_options hm
  obtain ⟨hopts, hhlen⟩ := ipInsertoptions_opts hc p (Pcbopts.ipOption m)
  have hcount : n = (v.opt.len v.before - 3) / 4 := by
    have := hsaves.nhops
    omega
  have hlen := hsaves.len
  have hoff := ptr_lt v.before v.opt
  have hfour := ((noSpace_iff (by omega) (by omega)).1 hspc).1
  -- the fields are those of the packet, whose pointer is behind the route
  have hfie : mem' 20 = IPOPT_NOP ∧ mem' 21 = v.before v.cp ∧ mem' 22 = v.before (v.cp + 1) ∧
      mem' 23 = v.before (v.cp + 2) := by
    have hall := congrArg (take 4) hmem'.opts
    have hlong : 4 ≤ (([IPOPT_NOP, s.srcrt 1, s.srcrt 2, s.srcrt 3] ++ reversed s.srcrt n) ++ p.opts).length := by
      rw [length_append, length_append]
      exact Nat.le_add_right_of_le (Nat.le_add_right 4 _)
    rw [hopts, hlist, take_bytes, Nat.min_eq_left hlong, hsaves.fields 0 (by omega), hsaves.fields 1 (by omega),
      hsaves.fields 2 (by omega)] at hall
    have hfour : [mem' 20, mem' 21, mem' 22, mem' 23] =
        [IPOPT_NOP, v.before v.cp, v.before (v.cp + 1), v.before (v.cp + 2)] := hall
    simpa using hfour
  obtain ⟨hnop, hkind, holen, hoffs⟩ := hfie
  have hhl' : (ipInsertoptions c p (Pcbopts.ipOption m)).2 / 4 = 6 + n := by
    rw [hhlen, hlist, length_append, length_reversed]
    change (20 + (4 + 4 * n)) / 4 = 6 + n
    omega
  have hrun := route_completed (h := net.host (mem'.word IP_DST)) (n := n) (by omega) hnop (by rw [hkind]; exact hrt)
    (by rw [holen, hcount]; rfl) (by rw [holen]; exact hfour) (by rw [hoffs]; exact hptr)
    (by rw [hoffs, holen]; exact hspc) (net.ours _)
  rw [hhl']
  have hpath : (v.recorded.reverse ++ [mem.word IP_SRC]).length = n + 1 := by
    rw [length_append, length_reverse, Visit.recorded, length_map, length_range, hcount]
    rfl
  generalize v.recorded.reverse ++ [mem.word IP_SRC] = path at hpath
  intro htra
  cases htra with
  | arrives hd _ =>
    -- only a route with an address is as long as an option with four bytes or more
    have hwhl := hrun.1.1 (by rw [hd])
    have hone : n + 1 = 1 := hpath.symm
    rw [holen] at hwhl
    have : v.opt.len v.before = 3 + 4 * n := hwhl
    omega
  | forwarded hd haway _ =>
    have hsame := hrun.2 (by rw [hd])
    rw [hd] at hsame
    dsimp only at hsame
    rw [hsame, net.ours] at haway
    exact absurd haway (by decide)

/-- Hosts with one address each, that know all routes. -/
def oneAddress : Net where
  host d := ⟨fun w => decide (w = d), fun _ => true, some, some d, fun _ => d⟩
  ours _ := decide_eq_true rfl

/-- A packet from 10.0.0.1 that has come to 10.0.0.9 by 10.0.0.2. -/
def oneHop : Mem := store (fun _ => 0) IP_SRC [10, 0, 0, 1, 10, 0, 0, 9, 131, 7, 8, 10, 0, 0, 2, 0]

def oneHopVisit : Visit :=
  visit (oneAddress.host ⟨10, 0, 0, 9⟩) ⟨⟨10, 0, 0, 9⟩, 20, 8⟩ ⟨oneHop, fun _ => 0, 0, []⟩

theorem oneHop_accepted : Accepted (oneAddress.host ⟨10, 0, 0, 9⟩) 7 oneHop oneHopVisit := by
  have hfst : ipDooptions (oneAddress.host ⟨10, 0, 0, 9⟩) 7 oneHop = _ :=
    loop_of_some (o := ⟨⟨10, 0, 0, 9⟩, 20, 8⟩) (n := ⟨7, by decide⟩) (by decide) (by decide)
  have hsec : loop (oneAddress.host ⟨10, 0, 0, 9⟩) 27 1 oneHopVisit.after = _ :=
    loop_of_none (o := ⟨⟨10, 0, 0, 9⟩, 27, 1⟩) (by decide) (by decide)
  have hcom : Completes (oneAddress.host ⟨10, 0, 0, 9⟩) oneHopVisit :=
    ⟨.inl (by decide), not_or.2 ⟨by decide, by decide⟩, by decide, by decide, by decide⟩
  refine ⟨?_, hcom, [], _, congrArg Prod.fst hfst, ?_⟩
  · rw [hfst]
    exact congrArg (fun r => r.2.1) hsec
  · have hlast : (loop (oneAddress.host ⟨10, 0, 0, 9⟩) 27 1 oneHopVisit.after).1 = _ := congrArg Prod.fst hsec
    intro u hu
    have hu := mem_singleton.1 (hlast ▸ hu)
    rw [hu]
    rintro ⟨hrt, -⟩
    rcases hrt with hk | hk <;> exact absurd hk (by decide)

/-- What is saved of the packet, and the reply that is to be sent to its source. -/
def oneHopSaved : State := (ipDooptions (oneAddress.host ⟨10, 0, 0, 9⟩) 7 oneHop).2.2

def oneHopOptions : Mbufs.Mbuf := Mbufs.mget 0 (store (fun _ => 0) 0 (returnRoute oneHopSaved)) MT_SOOPTS
  (oneHopSaved.nhops * 4 + (IPOPT_OFFSET + 1) + 1)

def oneHopReply : Packet := (ipInsertoptions { route := .error .ENETUNREACH } ⟨{ ip_len := 20 }, [], []⟩
  (Pcbopts.ipOption oneHopOptions)).1

/-- The reply in memory. -/
def oneHopMem : Mem := store (fun _ => 0) IP_DST [10, 0, 0, 1, 1, 131, 7, 8, 10, 0, 0, 2]

theorem ipSrcroute_oneHop : ipSrcroute 0 (fun _ => 0) oneHopSaved = some oneHopOptions := by
  have hnhops : oneHopSaved.nhops = 2 := (oneHop_accepted.saves (by decide)).nhops
  rw [ipSrcroute, if_neg (by omega)]
  rfl

theorem holds_oneHop : Holds oneHopMem oneHopReply := by
  have hsaves := oneHop_accepted.saves (by decide)
  obtain ⟨n, hn, hdst, hlist⟩ := ipSrcroute_options ipSrcroute_oneHop
  have hnhops : oneHopSaved.nhops = 2 := hsaves.nhops
  obtain rfl : n = 1 := by omega
  have hsrc : oneHopSaved.srcrt.word (4 + 4 * 1) = ⟨10, 0, 0, 1⟩ := hsaves.last.trans (by decide)
  have hhop : oneHopSaved.srcrt.word (4 + 4 * 0) = ⟨10, 0, 0, 2⟩ := (hsaves.hops 0 (by decide)).trans (by decide)
  have h1 : oneHopSaved.srcrt 1 = 131 := (hsaves.fields 0 (by decide)).trans (by decide)
  have h2 : oneHopSaved.srcrt 2 = 7 := (hsaves.fields 1 (by decide)).trans (by decide)
  have h3 : oneHopSaved.srcrt 3 = 8 := (hsaves.fields 2 (by decide)).trans (by decide)
  rw [h1, h2, h3, reversed, reversed, hhop] at hlist
  rw [hsrc] at hdst
  have hopts : oneHopReply.opts = [1, 131, 7, 8, 10, 0, 0, 2] := by
    rw [oneHopReply, (ipInsertoptions_opts (.inl rfl) _ _).1, hlist]
    rfl
  have hip : oneHopReply.ip.ip_dst = (⟨10, 0, 0, 1⟩ : Word).toBitVec := by
    rw [oneHopReply, ipInsertoptions_dst (by rw [hdst]; decide), hdst]
  refine ⟨?_, ?_⟩
  · rw [hip]
    decide
  · rw [hopts]
    decide

theorem not_travels_oneHop : ¬Travels oneAddress ((ipInsertoptions { route := .error .ENETUNREACH }
    ⟨{ ip_len := 20 }, [], []⟩ (Pcbopts.ipOption oneHopOptions)).2 / 4) oneHopMem (oneHopVisit.recorded.reverse ++ [oneHop.word IP_SRC]) :=
  not_travels (by decide) oneHop_accepted oneAddress ipSrcroute_oneHop (.inl rfl) ⟨{ ip_len := 20 }, [], []⟩ holds_oneHop

/-- The reply goes to the source at once. -/
theorem oneHop_to_source : Accepted (oneAddress.host ⟨10, 0, 0, 9⟩) 7 oneHop oneHopVisit ∧
    oneHopVisit.recorded = [⟨10, 0, 0, 2⟩] ∧ Holds oneHopMem oneHopReply ∧
    ¬Travels oneAddress 7 oneHopMem [⟨10, 0, 0, 2⟩, ⟨10, 0, 0, 1⟩] := by
  refine ⟨oneHop_accepted, by decide, holds_oneHop, fun h => ?_⟩
  have hdst : oneHopMem.word IP_DST = ⟨10, 0, 0, 2⟩ := by
    generalize hl : [(⟨10, 0, 0, 2⟩ : Word), ⟨10, 0, 0, 1⟩] = l at h
    cases h with
    | arrives _ _ => exact (cons.inj hl).1.symm
    | forwarded _ _ _ => exact (cons.inj hl).1.symm
  exact absurd hdst (by decide)

/-! ### Replies that travel -/

/-- A source route of `n` addresses, of which `i` have been taken. -/
structure OnRoute (mem : Mem) (n i : ℕ) (route : ℕ → Word) : Prop where
  nop : mem 20 = IPOPT_NOP
  kind : mem 21 = IPOPT_LSRR ∨ mem 21 = IPOPT_SSRR
  len : (mem 22).toNat = 3 + 4 * n
  ptr : (mem 23).toNat = 4 + 4 * i
  rest : ∀ j, i ≤ j → j < n → mem.word (24 + 4 * j) = route j

/-- The next address is taken. -/
theorem sourceRoute_takes (cp len : ℕ) {off : ℕ} {addr ia : Word} (strict : Bool) (hptr : (s.mem (cp + 2)).toNat = off + 1)
    (hmin : IPOPT_MINOFF ≤ off + 1) (hours : h.ifwithaddr (s.mem.word IP_DST) = true) (hspc : noSpace off len = false)
    (haddr : s.mem.word (cp + off) = addr) (hnet : h.iaonnetof addr = true) (hrt : h.rtaddr addr = some ia) :
    (sourceRoute h strict cp len s).1 = .ok () ∧ (sourceRoute h strict cp len s).2.mem =
      let mem := (s.mem.put IP_DST addr).put (cp + off) ia
      update mem (cp + 2) (mem (cp + 2) + 4) := by
  have hoffs : (s.mem (cp + IPOPT_OFFSET)).toNat = off + 1 := hptr
  rw [sourceRoute]
  simp only [bind_apply, rd, rdHeader, rdWord, ite_run, hoffs, if_neg (not_lt.2 hmin), hours, hspc, haddr, hnet, hrt,
    Nat.add_sub_cancel, Bool.true_eq_false, and_false, if_false, Bool.false_eq_true, wrHeader, record, wrWord, advance]
  exact ⟨trivial, rfl⟩

/-- A host on the route takes the next address, and the rest of the route stays. -/
theorem OnRoute.next (hon : OnRoute mem n i route) (hn : n ≤ 9) (hi : i < n)
    (hours : h.ifwithaddr (mem.word IP_DST) = true) (hnet : h.iaonnetof (route i) = true) {ia : Word}
    (hrt : h.rtaddr (route i) = some ia) : ∃ v s, ipDooptions h (6 + n) mem = (v, .ok (), s) ∧
      s.mem.word IP_DST = route i ∧ OnRoute s.mem n (i + 1) route := by
  obtain ⟨v, s, rfl, hrun⟩ := ipDooptions_nop (h := h) hn hon.nop
  let o : Opt := ⟨s.mem.word IP_DST, 21, 3 + 4 * n⟩
  have hs : Ready s.mem o s.mem :=
    ⟨by change 20 ≤ 21; omega, by change 3 + 4 * n ≤ 40; omega, fun _ _ => rfl, rfl⟩
  have hpos : 0 < o.cnt := by change 0 < 3 + 4 * n; omega
  have hsin : ¬o.Single s.mem := by
    change ¬(s.mem 21 = IPOPT_EOL ∨ s.mem 21 = IPOPT_NOP)
    rcases hon.kind with hk | hk <;> rw [hk] <;> decide
  have hlen : o.len s.mem = 3 + 4 * n := hon.len
  have hbad : ¬o.BadLength s.mem := by
    have hcnt : o.cnt = 3 + 4 * n := rfl
    exact not_or.2 ⟨by omega, by omega⟩
  have hspc : noSpace (3 + 4 * i) (o.len s.mem) = false := by
    rw [← Bool.not_eq_true, noSpace_iff (by omega) (by omega)]
    omega
  have haddr : s.mem.word (21 + (3 + 4 * i)) = route i := by
    rw [← add_assoc]
    exact hon.rest i le_rfl hi
  have hptr : (s.mem (21 + 2)).toNat = 3 + 4 * i + 1 := by
    have hptr : (s.mem 23).toNat = 4 + 4 * i := hon.ptr
    change (s.mem 23).toNat = 3 + 4 * i + 1
    omega
  obtain ⟨hok, hmem⟩ := sourceRoute_takes (s := { s with log := fetched o }) 21 (o.len s.mem)
    (o.kind s.mem = IPOPT_SSRR) hptr (by rw [IPOPT_MINOFF]; omega) hours hspc haddr hnet hrt
  have hopti : option h (o.kind s.mem) o.cp (o.len s.mem) { s with log := fetched o } =
      sourceRoute h (o.kind s.mem = IPOPT_SSRR) 21 (o.len s.mem) { s with log := fetched o } := by
    have hkind : o.kind s.mem = IPOPT_LSRR ∨ o.kind s.mem = IPOPT_SSRR := hon.kind
    rw [option, if_pos hkind]
  rcases hres : sourceRoute h (o.kind s.mem = IPOPT_SSRR) 21 (o.len s.mem) { s with log := fetched o } with ⟨res, s'⟩
  rw [hres] at hok hmem
  obtain rfl : res = .ok () := hok
  have hpass := pass_option hs hsin hbad (hopti.trans hres)
  have hloop : loop h 21 (3 + 4 * n) s = _ := loop_of_whole hpos hlen (congrArg Prod.fst hpass)
  have haft : (visit h o s).after = s' := by rw [visit, hpass]
  rw [haft] at hloop
  rw [hrun, hloop]
  set mem' := (s.mem.put IP_DST (route i)).put (21 + (3 + 4 * i)) ia with hmem'
  have hlow (a : ℕ) (ha : 20 ≤ a) (ha' : a < 24) : mem' a = s.mem a := by
    rw [hmem', Mem.put_of_lt _ (by omega), Mem.put_of_ge _ (by rw [IP_DST]; omega)]
  have hkeep (a : ℕ) (ha : a ≠ 23) : s'.mem a = mem' a := by
    rw [show s'.mem = _ from hmem]
    exact update_of_ne ha _ _
  have h23 : s'.mem 23 = s.mem 23 + 4 := by
    rw [show s'.mem = _ from hmem]
    exact (update_self ..).trans (by rw [hlow _ (by omega) (by omega)])
  refine ⟨_, s', rfl, ?_, ?_, ?_, ?_, ?_, fun j hj hjn => ?_⟩
  · rw [Mem.word_congr fun u hlo hhi => hkeep u (by rw [IP_DST] at hhi; omega), hmem',
      Mem.word_congr fun u hlo hhi => Mem.put_of_lt ia (by rw [IP_DST] at hhi; omega), Mem.word_put]
  · rw [hkeep _ (by omega), hlow _ (by omega) (by omega), hon.nop]
  · rw [hkeep _ (by omega), hlow _ (by omega) (by omega)]
    exact hon.kind
  · rw [hkeep _ (by omega), hlow _ (by omega) (by omega), hon.len]
  · have := hon.ptr
    rw [h23, toNat_add_four (by omega)]
    omega
  · rw [← hon.rest j (by omega) hjn, Mem.word_congr fun u hlo hhi => hkeep u (by omega), hmem',
      Mem.word_congr fun u hlo hhi => Mem.put_of_ge ia (by omega),
      Mem.word_congr fun u hlo hhi => Mem.put_of_ge (route i) (by rw [IP_DST]; omega)]

end Uwisc.Ip.Options
