import Uwisc.Netinet.Ip.Options
import Uwisc.Netinet.Ip.Output
import Uwisc.Sys.Mbuf

/-!
# IP: the options of a socket

`ip_pcbopts` of `sys/netinet/ip_output.c`. The option string is the data of a buffer, which becomes the list of the
socket: the first hop is put before the options, and what was stored is recorded with its place in the area of the
buffer. Headers are built from the list by `ipInsertoptions`.

* `sourceRoutes`: where the source routes of a string are, if it is not refused;
* `asStored`: the list that a string is to become;
* `ipPcbopts_wellFormed_iff`: the strings of which what is stored is well formed.
-/

namespace Uwisc.Ip.Pcbopts

open Lib List Mbufs Option
open Options (IPOPT_EOL IPOPT_NOP IPOPT_LSRR IPOPT_SSRR IPOPT_OLEN IPOPT_OFFSET IPOPT_MINOFF)

/-- The buffer, and where bytes were stored in its area, and how many, the last ones first. -/
structure State where
  m : Mbufs.Mbuf
  stores : List (ℕ × ℕ)

namespace State

def write (s : State) (a : ℕ) (l : List UInt8) : State where
  m := { s.m with area := store s.m.area a l }
  stores := (a, l.length) :: s.stores

/-- `ovbcopy`, or `bcopy`. -/
def copy (s : State) (src dst n : ℕ) : State := s.write dst (bytes s.m.area src n)

/-- `m->m_len += n`. -/
def grow (s : State) (n : ℤ) : State := { s with m.m_len := s.m.m_len + n }

/-- `case IPOPT_LSRR`, and `IPOPT_SSRR`: the first hop is moved before the start of the options, and the rest is
    copied back; `cnt` and `optlen` are those before. -/
def route (s : State) (cp cnt optlen : ℕ) : State :=
  let s := s.grow (-4)
  let s := s.write (cp + IPOPT_OLEN) [UInt8.ofNat (optlen - 4)]
  let s := s.copy (cp + (IPOPT_OFFSET + 1)) s.m.pos 4
  s.copy (cp + (IPOPT_OFFSET + 1) + 4) (cp + (IPOPT_OFFSET + 1)) (cnt - 4 + 4)

/-- The options are moved back, and the address before them is cleared. -/
def start (m : Mbufs.Mbuf) : State :=
  let s := (State.mk m []).grow 4
  let s := s.copy m.pos (m.pos + 4) m.m_len.toNat
  s.write m.pos [0, 0, 0, 0]

end State

/-- The loop of `ip_pcbopts`, and whether it does not go to `bad`. -/
def loop (cp cnt : ℕ) (s : State) : Bool × State :=
  if 0 < cnt then
    let opt := s.m.area cp
    if opt = IPOPT_EOL then (true, s)
    else if opt = IPOPT_NOP then loop (cp + 1) (cnt - 1) s
    else
      let optlen := (s.m.area (cp + IPOPT_OLEN)).toNat
      if _h : optlen ≤ IPOPT_OLEN ∨ cnt < optlen then (false, s)
      else if opt = IPOPT_LSRR ∨ opt = IPOPT_SSRR then
        if optlen < IPOPT_MINOFF - 1 + 4 then (false, s)
        else loop (cp + (optlen - 4)) (cnt - 4 - (optlen - 4)) (s.route cp cnt optlen)
      else loop (cp + optlen) (cnt - optlen) s
  else (true, s)
termination_by cnt
decreasing_by all_goals omega

/-- What `ip_pcbopts` returns (`EINVAL`, or 0), `*pcbopt` after it, the buffers that were freed, and what was stored. -/
structure Result where
  einval : Bool
  pcbopt : Option Mbufs.Mbuf
  freed : List ℕ
  stores : List (ℕ × ℕ)

/-- `ip_pcbopts`; where it is not for a `vax`, the length has to be one of longs. `MAX_IPOPTLEN` is less than
    `MMAXOFF - MMINOFF`, so the bound is that of the buffer. -/
def ipPcbopts (vax : Bool) (pcbopt m : Option Mbufs.Mbuf) : Result :=
  let freed := (pcbopt.map Mbufs.Mbuf.index).toList
  match m with
  | none => ⟨false, none, freed, []⟩
  | some m =>
    if m.m_len = 0 then ⟨false, none, m.index :: freed, []⟩
    else if vax = false ∧ m.m_len % 4 ≠ 0 then ⟨true, none, m.index :: freed, []⟩
    else if MMAXOFF < (m.m_off + m.m_len + 4) % 2 ^ 32 then ⟨true, none, m.index :: freed, []⟩
    else
      let r := loop (m.pos + 4) m.m_len.toNat (State.start m)
      if r.1 then ⟨false, some r.2.m, freed, r.2.stores⟩ else ⟨true, none, r.2.m.index :: freed, r.2.stores⟩

/-- `mtod(opt, struct ipoption *)`. -/
def ipOption (opt : Mbufs.Mbuf) : IpOption where
  ipopt_dst := BitVec.ofNat 32 (decode (opt.dataFrom 0 4))
  ipopt_list := opt.dataFrom 4 (opt.m_len.toNat - 4)

/-! ### What is right -/

/-- Where the source routes of an option string are that is at `k`, up to the end of the options; `none` if an option
    does not fit, or a route has no hop. -/
def sourceRoutes (k : ℕ) : List UInt8 → Option (List ℕ)
  | [] => some []
  | opt :: l =>
    if opt = IPOPT_EOL then some []
    else if opt = IPOPT_NOP then sourceRoutes (k + 1) l
    else
      let optlen := (l.headD 0).toNat
      if optlen ≤ 1 ∨ l.length + 1 < optlen then none
      else if opt = IPOPT_LSRR ∨ opt = IPOPT_SSRR then
        if optlen < 7 then none else (sourceRoutes (k + optlen) (l.drop (optlen - 1))).map (k :: ·)
      else sourceRoutes (k + optlen) (l.drop (optlen - 1))
termination_by l => l.length
decreasing_by all_goals grind

/-- A string with the first hop of the source route at `k` moved to the front, which makes the route shorter. -/
def movedHop (l : List UInt8) (k : ℕ) : List UInt8 :=
  (l.drop (k + 3)).take 4 ++ (l.take (k + 1) ++ ([l.getD (k + 1) 0 - 4] ++ ((l.drop (k + 2)).take 1 ++ l.drop (k + 7))))

/-- What a string is to be stored as: with the first hop of a source route moved to the front, or no address there. -/
def asStored (l : List UInt8) : List UInt8 :=
  match (sourceRoutes 0 l).bind head? with
  | none => [0, 0, 0, 0] ++ l
  | some k => movedHop l k

/-- A header length that `ip_hl` has a value for. -/
def Representable (hlen : ℕ) : Prop := hlen ≤ 60 ∧ hlen % 4 = 0

/-- What is to hold if a string was accepted: it is stored as it should be, all stores are in the data area of the
    buffer, and headers built from what is stored have lengths that are representable. -/
structure WellFormed (m : Mbufs.Mbuf) (r : Result) : Prop where
  stored : ∀ opt, r.pcbopt = some opt → opt.data = asStored m.data
  inside : ∀ x ∈ r.stores, x.1 + x.2 ≤ MLEN
  header : ∀ opt, r.pcbopt = some opt → ∀ c p, Representable (ipInsertoptions c p (ipOption opt)).2

variable {s : State} {m : Mbufs.Mbuf} {mem : Mem} {cp cnt k : ℕ} {l : List UInt8} {ks : List ℕ}

/-! ### The string -/

/-- The options of memory, one by one. -/
theorem sourceRoutes_bytes (hcnt : 0 < cnt) : sourceRoutes k (bytes mem cp cnt) =
    if mem cp = IPOPT_EOL then some []
    else if mem cp = IPOPT_NOP then sourceRoutes (k + 1) (bytes mem (cp + 1) (cnt - 1))
    else if (mem (cp + 1)).toNat ≤ 1 ∨ cnt < (mem (cp + 1)).toNat then none
    else if mem cp = IPOPT_LSRR ∨ mem cp = IPOPT_SSRR then
      if (mem (cp + 1)).toNat < 7 then none
      else (sourceRoutes (k + (mem (cp + 1)).toNat)
        (bytes mem (cp + (mem (cp + 1)).toNat) (cnt - (mem (cp + 1)).toNat))).map (k :: ·)
    else sourceRoutes (k + (mem (cp + 1)).toNat)
      (bytes mem (cp + (mem (cp + 1)).toNat) (cnt - (mem (cp + 1)).toNat)) := by
  obtain ⟨n, rfl⟩ := Nat.exists_eq_add_one.2 hcnt
  rw [bytes_succ, sourceRoutes, length_bytes, Nat.add_sub_cancel]
  -- the length is read from behind the string, if that ends with the option
  have hlen : (((bytes mem (cp + 1) n).headD 0).toNat ≤ 1 ∨ n + 1 < ((bytes mem (cp + 1) n).headD 0).toNat) ↔
      (mem (cp + 1)).toNat ≤ 1 ∨ n + 1 < (mem (cp + 1)).toNat := by
    cases n with
    | zero => simp [bytes]; omega
    | succ n => rw [bytes_succ]; rfl
  simp only [hlen]
  by_cases hbad : (mem (cp + 1)).toNat ≤ 1 ∨ n + 1 < (mem (cp + 1)).toNat
  · simp only [if_pos hbad]
  · have hhead : (bytes mem (cp + 1) n).headD 0 = mem (cp + 1) := by
      cases n with
      | zero => omega
      | succ n => rw [bytes_succ]; rfl
    have haddr : cp + 1 + ((mem (cp + 1)).toNat - 1) = cp + (mem (cp + 1)).toNat := by omega
    have hrs : n - ((mem (cp + 1)).toNat - 1) = n + 1 - (mem (cp + 1)).toNat := by omega
    simp only [hhead, drop_bytes, haddr, hrs]

/-- Every source route is in the string, with a hop at least. -/
theorem sourceRoutes_fits (h : sourceRoutes k l = some ks) : ∀ i ∈ ks, k ≤ i ∧ i + 7 ≤ k + l.length := by
  fun_induction sourceRoutes k l generalizing ks with
  | case1 => simp_all
  | case2 => simp_all
  | case3 => grind
  | case4 => simp at h
  | case5 => simp at h
  | case6 =>
    rename_i hlen hrt hmin ih
    obtain ⟨ks, hks, rfl⟩ := map_eq_some_iff.1 h
    rw [forall_mem_cons]
    refine ⟨by grind, fun i hi => ?_⟩
    have := ih hks i hi
    rw [length_drop] at this
    grind
  | case7 =>
    rename_i hlen hrt ih
    intro i hi
    have := ih h i hi
    rw [length_drop] at this
    grind

theorem length_movedHop (h : k + 7 ≤ l.length) : (movedHop l k).length = l.length := by
  simp only [movedHop, length_append, length_take, length_drop, length_singleton]
  omega

/-! ### The moves -/

theorem route_area (hcnt : 4 ≤ cnt) (cp optlen : ℕ) : (s.route cp cnt optlen).m.area =
    bcopy (bcopy (store s.m.area (cp + 1) [UInt8.ofNat (optlen - 4)]) (cp + 3) s.m.pos 4) (cp + 7) (cp + 3) cnt := by
  have : cnt - 4 + 4 = cnt := by omega
  rw [State.route, this]
  rfl

/-- What comes behind the first hop stays the same. -/
theorem route_rest (hpos : s.m.pos + 4 ≤ cp) (hcnt : 7 ≤ cnt) (optlen : ℕ) :
    bytes (s.route cp cnt optlen).m.area (cp + 3) (cnt - 7) = bytes s.m.area (cp + 7) (cnt - 7) := by
  have hopt : SameOn s.m.area (store s.m.area (cp + 1) [UInt8.ofNat (optlen - 4)]) (cp + 7) (cp + cnt) :=
    sameOn_store (.inr (by simp only [length_singleton]; omega))
  have hhop := hopt.trans (sameOn_bcopy (c := cp + 3) (n := 4) (d := s.m.pos) (.inr (by omega)))
  rw [route_area (by omega), ← Nat.add_zero (cp + 3), bytes_bcopy (by omega)]
  exact hhop.bytes_eq (by omega) (by omega)

/-- The rest of the string is the same after the move. -/
theorem route_rest_string (hpos : s.m.pos + 4 ≤ cp) {optlen : ℕ} (hopt : 7 ≤ optlen) (hle : optlen ≤ cnt) :
    bytes (s.route cp cnt optlen).m.area (cp + (optlen - 4)) (cnt - 4 - (optlen - 4)) =
      bytes s.m.area (cp + optlen) (cnt - optlen) := by
  have hdrop := congrArg (drop (optlen - 7)) (route_rest hpos (by omega : 7 ≤ cnt) optlen)
  rw [drop_bytes, drop_bytes] at hdrop
  have h1 : cp + (optlen - 4) = cp + 3 + (optlen - 7) := by omega
  have h2 : cnt - 4 - (optlen - 4) = cnt - 7 - (optlen - 7) := by omega
  have h3 : cp + optlen = cp + 7 + (optlen - 7) := by omega
  have h4 : cnt - optlen = cnt - 7 - (optlen - 7) := by omega
  rw [h1, h2, h3, h4]
  exact hdrop

/-! ### The loop -/

/-- What the loop leaves of a string with the source routes `ks`, of which one is moved if there is only one. -/
structure Parsed (s : State) (cp cnt k : ℕ) (ks : List ℕ) (r : Bool × State) : Prop where
  returns : r.1 = true
  len : r.2.m.m_len = s.m.m_len - 4 * ks.length
  same : ks = [] → r.2 = s
  moved : ∀ i, ks = [k + i] →
    7 ≤ (s.m.area (cp + i + 1)).toNat ∧ r.2 = s.route (cp + i) (cnt - i) (s.m.area (cp + i + 1)).toNat

theorem Parsed.none (s : State) (cp cnt k : ℕ) : Parsed s cp cnt k [] (true, s) where
  returns := rfl
  len := by simp
  same _ := rfl
  moved := by simp

variable {n k' cp' cnt' : ℕ} {r : Bool × State}

/-- An option that is not a source route was passed. -/
theorem Parsed.skip (h : Parsed s (cp + n) (cnt - n) (k + n) ks r)
    (hks : ∀ i ∈ ks, k + n ≤ i) : Parsed s cp cnt k ks r where
  returns := h.returns
  len := h.len
  same := h.same
  moved i hi := by
    have hn := hks (k + i) (by simp [hi])
    obtain ⟨j, rfl⟩ := Nat.exists_eq_add_of_le (by omega : n ≤ i)
    have hj := h.moved j (by rw [hi, add_assoc])
    rwa [Nat.sub_sub, add_assoc cp n j] at hj

/-- A source route was moved. -/
theorem Parsed.cons (hlen : 7 ≤ (s.m.area (cp + 1)).toNat)
    (h : Parsed (s.route cp cnt (s.m.area (cp + 1)).toNat) cp' cnt' k' ks r) : Parsed s cp cnt k (k :: ks) r where
  returns := h.returns
  len := by
    have hrt : (s.route cp cnt (s.m.area (cp + 1)).toNat).m.m_len = s.m.m_len - 4 := rfl
    rw [h.len, hrt, length_cons]
    push_cast
    ring
  same := by simp
  moved i hi := by
    obtain ⟨hki, hks⟩ := cons.inj hi
    obtain rfl : i = 0 := by omega
    exact ⟨hlen, h.same hks⟩

/-- What comes of a string: it is refused, or its source routes are moved. -/
def Follows (s : State) (cp cnt k : ℕ) (r : Bool × State) : Option (List ℕ) → Prop
  | none => r.1 = false
  | some ks => Parsed s cp cnt k ks r

theorem Follows.skip (h : Follows s (cp + n) (cnt - n) (k + n) r (sourceRoutes (k + n) l)) :
    Follows s cp cnt k r (sourceRoutes (k + n) l) := by
  cases hks : sourceRoutes (k + n) l with
  | none => rwa [hks] at h
  | some ks =>
    rw [hks] at h
    exact Parsed.skip h fun i hi => (sourceRoutes_fits hks i hi).1

theorem Follows.cons {o : Option (List ℕ)}
    (hlen : 7 ≤ (s.m.area (cp + 1)).toNat) (h : Follows (s.route cp cnt (s.m.area (cp + 1)).toNat) cp' cnt' k' r o) :
    Follows s cp cnt k r (o.map (k :: ·)) := by
  cases o with
  | none => exact h
  | some ks => exact Parsed.cons hlen h

theorem loop_spec (hpos : s.m.pos + 4 ≤ cp) (k : ℕ) :
    Follows s cp cnt k (loop cp cnt s) (sourceRoutes k (bytes s.m.area cp cnt)) := by
  fun_induction loop cp cnt s generalizing k with
  | case1 cp cnt s hcnt opt heol =>
    rw [sourceRoutes_bytes hcnt, if_pos heol]
    exact Parsed.none s cp cnt k
  | case2 cp cnt s hcnt opt heol hnop ih =>
    rw [sourceRoutes_bytes hcnt, if_neg heol, if_pos hnop]
    exact (ih (by omega) (k + 1)).skip
  | case3 cp cnt s hcnt opt heol hnop optlen hlen =>
    have hbad : (s.m.area (cp + 1)).toNat ≤ 1 ∨ cnt < (s.m.area (cp + 1)).toNat := hlen
    rw [sourceRoutes_bytes hcnt, if_neg heol, if_neg hnop, if_pos hbad]
    rfl
  | case4 cp cnt s hcnt opt heol hnop optlen hlen hrt hmin =>
    have hfits : ¬((s.m.area (cp + 1)).toNat ≤ 1 ∨ cnt < (s.m.area (cp + 1)).toNat) := hlen
    have hsht : (s.m.area (cp + 1)).toNat < 7 := hmin
    rw [sourceRoutes_bytes hcnt, if_neg heol, if_neg hnop, if_neg hfits, if_pos hrt, if_pos hsht]
    rfl
  | case5 cp cnt s hcnt opt heol hnop optlen hlen hrt hmin ih =>
    have hfits : ¬((s.m.area (cp + 1)).toNat ≤ 1 ∨ cnt < (s.m.area (cp + 1)).toNat) := hlen
    have hlong : ¬(s.m.area (cp + 1)).toNat < 7 := hmin
    have hseven : 7 ≤ optlen := not_lt.1 hmin
    have hle : optlen ≤ cnt := not_lt.1 fun hlt => hlen (.inr hlt)
    have hrs := ih (Nat.le_add_right_of_le hpos) (k + optlen)
    rw [route_rest_string hpos hseven hle] at hrs
    rw [sourceRoutes_bytes hcnt, if_neg heol, if_neg hnop, if_neg hfits, if_pos hrt, if_neg hlong]
    exact hrs.cons hseven
  | case6 cp cnt s hcnt opt heol hnop optlen hlen hrt ih =>
    have hfits : ¬((s.m.area (cp + 1)).toNat ≤ 1 ∨ cnt < (s.m.area (cp + 1)).toNat) := hlen
    rw [sourceRoutes_bytes hcnt, if_neg heol, if_neg hnop, if_neg hfits, if_neg hrt]
    exact (ih (by omega) (k + optlen)).skip
  | case7 cp cnt s hcnt =>
    obtain rfl : cnt = 0 := by omega
    have hnil : sourceRoutes k (bytes s.m.area cp 0) = some [] := by simp [bytes, sourceRoutes]
    rw [hnil]
    exact Parsed.none s cp 0 k

/-! ### What is stored -/

theorem start_string (m : Mbufs.Mbuf) : bytes (State.start m).m.area (m.pos + 4) m.m_len.toNat = m.data := by
  have hzero : SameOn (bcopy m.area m.pos (m.pos + 4) m.m_len.toNat) (State.start m).m.area (m.pos + 4)
      (m.pos + 4 + m.m_len.toNat) := sameOn_store (.inr le_rfl)
  rw [hzero.bytes_eq le_rfl le_rfl, ← Nat.add_zero (m.pos + 4), bytes_bcopy (by omega)]
  rfl

theorem start_front (m : Mbufs.Mbuf) : bytes (State.start m).m.area m.pos 4 = [0, 0, 0, 0] :=
  bytes_store (bcopy m.area m.pos (m.pos + 4) m.m_len.toNat) m.pos [0, 0, 0, 0]

theorem ofNat_sub_four {b : UInt8} (h : 4 ≤ b.toNat) : UInt8.ofNat (b.toNat - 4) = b - 4 := by
  rw [← UInt8.toNat_inj, UInt8.toNat_ofNat', UInt8.toNat_sub_of_le _ _ h]
  have := b.toNat_lt
  show (b.toNat - 4) % 2 ^ 8 = b.toNat - 4
  omega

/-- The parts of the string that the move leaves, or puts elsewhere. -/
theorem route_parts (hpos : s.m.pos + 4 ≤ cp) (hcnt : 7 ≤ cnt) (optlen : ℕ) :
    let mem' := (s.route cp cnt optlen).m.area
    bytes mem' s.m.pos 4 = bytes s.m.area (cp + 3) 4 ∧ SameOn s.m.area mem' (s.m.pos + 4) (cp + 1) ∧
      bytes mem' (cp + 1) 1 = [UInt8.ofNat (optlen - 4)] ∧ SameOn s.m.area mem' (cp + 2) (cp + 3) := by
  have hfour : 4 ≤ cnt := by omega
  rw [route_area hfour]
  set opt := [UInt8.ofNat (optlen - 4)]
  set w1 := store s.m.area (cp + 1) opt
  set w2 := bcopy w1 (cp + 3) s.m.pos 4
  have hopt : SameOn s.m.area w1 (s.m.pos + 4) (cp + 1) := sameOn_store (.inl le_rfl)
  have hptr : SameOn s.m.area w1 (cp + 2) (cp + 7) := sameOn_store (.inr le_rfl)
  have hhop : SameOn w1 w2 (s.m.pos + 4) (cp + 3) := sameOn_bcopy (.inr le_rfl)
  have hcls : SameOn w2 (bcopy w2 (cp + 7) (cp + 3) cnt) s.m.pos (cp + 3) := sameOn_bcopy (.inl le_rfl)
  refine ⟨?_, ?_, ?_, ?_⟩
  · rw [hcls.bytes_eq le_rfl (by omega), ← add_zero s.m.pos, bytes_bcopy (by omega)]
    exact hptr.bytes_eq (by omega) (by omega)
  · exact (hopt.trans (hhop.mono le_rfl (by omega))).trans (hcls.mono (by omega) (by omega))
  · rw [hcls.bytes_eq (by omega) (by omega), hhop.bytes_eq (by omega) (by omega)]
    exact bytes_store s.m.area (cp + 1) opt
  · exact ((hptr.mono le_rfl (by omega)).trans (hhop.mono (by omega) le_rfl)).trans (hcls.mono (by omega) le_rfl)

/-- The buffer after the move, from its first byte on. -/
theorem route_data (hk : k + 7 ≤ n) (hlen : 7 ≤ (s.m.area (s.m.pos + 4 + k + 1)).toNat) :
    bytes (s.route (s.m.pos + 4 + k) (n - k) (s.m.area (s.m.pos + 4 + k + 1)).toNat).m.area s.m.pos n =
      movedHop (bytes s.m.area (s.m.pos + 4) n) k := by
  set cp := s.m.pos + 4 + k
  obtain ⟨hhop, hbef, hopt, hptr⟩ :=
    route_parts (by omega : s.m.pos + 4 ≤ cp) (by omega : 7 ≤ n - k) (s.m.area (cp + 1)).toNat
  have hrs := route_rest (by omega : s.m.pos + 4 ≤ cp) (by omega : 7 ≤ n - k) (s.m.area (cp + 1)).toNat
  rw [ofNat_sub_four (by omega)] at hopt
  set mem' := (s.route cp (n - k) (s.m.area (cp + 1)).toNat).m.area
  have hgetD : (bytes s.m.area (s.m.pos + 4) n).getD (k + 1) 0 = s.m.area (cp + 1) := by
    have : k + 1 < n := by omega
    simp [bytes, this, cp, add_assoc]
  have hspl : n = 4 + (k + 1 + (1 + (1 + (n - k - 7)))) := by omega
  calc bytes mem' s.m.pos n
      = bytes mem' s.m.pos (4 + (k + 1 + (1 + (1 + (n - k - 7))))) := by rw [← hspl]
    _ = bytes mem' s.m.pos 4 ++ (bytes mem' (s.m.pos + 4) (k + 1) ++ (bytes mem' (cp + 1) 1 ++
          (bytes mem' (cp + 2) 1 ++ bytes mem' (cp + 3) (n - k - 7)))) := by
        rw [bytes_add, bytes_add mem' (s.m.pos + 4) (k + 1), bytes_add mem' _ 1 (1 + (n - k - 7)),
          bytes_add mem' _ 1 (n - k - 7)]
        rfl
    _ = bytes s.m.area (cp + 3) 4 ++ (bytes s.m.area (s.m.pos + 4) (k + 1) ++ ([s.m.area (cp + 1) - 4] ++
          (bytes s.m.area (cp + 2) 1 ++ bytes s.m.area (cp + 7) (n - k - 7)))) := by
        rw [hhop, hbef.bytes_eq le_rfl (by omega), hopt, hptr.bytes_eq le_rfl le_rfl, hrs]
    _ = movedHop (bytes s.m.area (s.m.pos + 4) n) k := by
        rw [movedHop, drop_bytes, drop_bytes, drop_bytes, take_bytes, take_bytes, take_bytes, hgetD,
          Nat.min_eq_left (by omega), Nat.min_eq_left (by omega), Nat.min_eq_left (by omega), Nat.sub_sub]
        rfl

/-! ### Which strings are well formed -/

/-- A string is accepted, with source routes at `ks`: there is one, it is of longs where that is asked for, with an
    address it is not longer than the buffer, and its options are whole. -/
structure Accepts (vax : Bool) (m : Mbufs.Mbuf) (ks : List ℕ) : Prop where
  nonempty : m.m_len ≠ 0
  longs : vax = false → m.m_len % 4 = 0
  room : m.m_off + m.m_len + 4 ≤ MMAXOFF
  parsed : sourceRoutes 0 m.data = some ks

/-- There is one source route at most, and room for seven bytes behind a string with one; and the options, without a
    first hop, make a header that is not too long, and ends with a long. -/
structure Fits (m : Mbufs.Mbuf) (ks : List ℕ) : Prop where
  single : ks.length ≤ 1
  room : ks ≠ [] → m.m_off + m.m_len + 7 ≤ MMAXOFF
  header : 20 + (m.m_len - 4 * ks.length) ≤ 60 ∧ m.m_len % 4 = 0

/-- A string was accepted, or nothing was stored, or it was refused. -/
theorem ipPcbopts_cases (vax : Bool) (pcbopt : Option Mbufs.Mbuf) (hm : m.Wf) (hown : m.Own) :
    (∃ ks s, Accepts vax m ks ∧ Parsed (State.start m) (m.pos + 4) m.m_len.toNat 0 ks (true, s) ∧
      ipPcbopts vax pcbopt (some m) = ⟨false, some s.m, (pcbopt.map Mbufs.Mbuf.index).toList, s.stores⟩) ∨
    (∀ ks, ¬Accepts vax m ks) ∧ ((ipPcbopts vax pcbopt (some m)).einval = true ∨
      (ipPcbopts vax pcbopt (some m)).pcbopt = none ∧ (ipPcbopts vax pcbopt (some m)).stores = []) := by
  by_cases hzero : m.m_len = 0
  · have hrun : ipPcbopts vax pcbopt (some m) = ⟨false, none, m.index :: (pcbopt.map Mbufs.Mbuf.index).toList, []⟩ := by
      simp [ipPcbopts, hzero]
    rw [hrun]
    exact .inr ⟨fun ks h => h.nonempty hzero, .inr ⟨rfl, rfl⟩⟩
  by_cases hlongs : vax = false ∧ m.m_len % 4 ≠ 0
  · have hrun : ipPcbopts vax pcbopt (some m) = ⟨true, none, m.index :: (pcbopt.map Mbufs.Mbuf.index).toList, []⟩ := by
      simp [ipPcbopts, hzero, hlongs]
    rw [hrun]
    exact .inr ⟨fun ks h => hlongs.2 (h.longs hlongs.1), .inl rfl⟩
  have hsum : (m.m_off + m.m_len + 4) % 2 ^ 32 = m.m_off + m.m_len + 4 := by
    have := hm.len_nonneg
    have := hm.fits
    have hsize := hm.size_short
    have hbase := hown.1
    rw [Mbuf.m_off, hbase, MMINOFF]
    omega
  by_cases hroom : MMAXOFF < m.m_off + m.m_len + 4
  · have hrun : ipPcbopts vax pcbopt (some m) = ⟨true, none, m.index :: (pcbopt.map Mbufs.Mbuf.index).toList, []⟩ := by
      simp only [ipPcbopts, if_neg hzero, if_neg hlongs, hsum, if_pos hroom]
    rw [hrun]
    exact .inr ⟨fun ks h => not_lt.2 h.room hroom, .inl rfl⟩
  have hlong : vax = false → m.m_len % 4 = 0 := fun hvax => by_contra fun hne => hlongs ⟨hvax, hne⟩
  set r := loop (m.pos + 4) m.m_len.toNat (State.start m) with hr
  have hloop : Follows (State.start m) (m.pos + 4) m.m_len.toNat 0 r (sourceRoutes 0 m.data) := by
    rw [← start_string]
    exact loop_spec le_rfl 0
  have hrun : ipPcbopts vax pcbopt (some m) =
      if r.1 then ⟨false, some r.2.m, (pcbopt.map Mbufs.Mbuf.index).toList, r.2.stores⟩
      else ⟨true, none, r.2.m.index :: (pcbopt.map Mbufs.Mbuf.index).toList, r.2.stores⟩ := by
    simp only [ipPcbopts, if_neg hzero, if_neg hlongs, hsum, if_neg hroom, hr]
  cases hks : sourceRoutes 0 m.data with
  | none =>
    rw [hks] at hloop
    have hbad : r.1 = false := hloop
    rw [hrun, hbad]
    refine .inr ⟨fun ks h => ?_, .inl rfl⟩
    have := h.parsed
    simp [hks] at this
  | some ks =>
    rw [hks] at hloop
    have hpar : Parsed (State.start m) (m.pos + 4) m.m_len.toNat 0 ks r := hloop
    obtain ⟨ok, s⟩ := r
    obtain rfl : ok = true := hpar.returns
    rw [hrun]
    exact .inl ⟨ks, s, ⟨hzero, hlong, not_lt.1 hroom, hks⟩, hpar, rfl⟩

theorem m_off_own (hm : m.Wf) (hown : m.Own) : m.m_off = 12 + m.pos := by
  have hfits := hm.fits
  have hsize : m.size = 112 := hown.2
  rw [Mbuf.m_off, hown.1, MMINOFF]
  omega

/-- The length of a header that is built from a list, without the options or with them. -/
theorem ipInsertoptions_len (c : Call) (p : Packet) (opt : Mbufs.Mbuf) : (ipInsertoptions c p (ipOption opt)).2 =
    if ¬c.room ∧ ¬c.mgetOpt then 20 else 20 + (opt.m_len.toNat - 4) := by
  have hlen : (ipOption opt).ipopt_list.length = opt.m_len.toNat - 4 := length_bytes _ _ _
  rw [ipInsertoptions, hlen]
  split_ifs <;> rfl

theorem length_asStored (h : sourceRoutes 0 l = some ks) :
    (asStored l).length = if ks = [] then l.length + 4 else l.length := by
  cases ks with
  | nil =>
    rw [if_pos rfl, asStored, h, add_comm]
    exact length_append
  | cons k ks =>
    have hk := sourceRoutes_fits h k mem_cons_self
    rw [if_neg (cons_ne_nil k ks), asStored, h]
    exact length_movedHop (by omega)

/-- What is stored of a string that was accepted. -/
theorem Parsed.data (h : Parsed (State.start m) (m.pos + 4) m.m_len.toNat 0 ks (true, s))
    (hks : sourceRoutes 0 m.data = some ks) (hsin : ks.length ≤ 1) (hlen : 0 ≤ m.m_len) :
    s.m.data = asStored m.data := by
  rcases ks with _ | ⟨k, _ | ⟨_, _⟩⟩
  · obtain rfl : s = State.start m := h.same rfl
    have hn : (m.m_len + 4).toNat = 4 + m.m_len.toNat := by omega
    calc (State.start m).m.data
        = bytes (State.start m).m.area m.pos (m.m_len + 4).toNat := rfl
      _ = [0, 0, 0, 0] ++ m.data := by rw [hn, bytes_add, start_front, start_string]
      _ = asStored m.data := by rw [asStored, hks]; rfl
  · obtain ⟨hseven, rfl⟩ := h.moved k (by simp)
    have hfits := sourceRoutes_fits hks k (by simp)
    have hdata : m.data.length = m.m_len.toNat := length_bytes _ _ _
    have hn : (m.m_len + 4 + -4).toNat = m.m_len.toNat := by omega
    have hmvd := route_data (s := State.start m) (by omega : k + 7 ≤ m.m_len.toNat) hseven
    have hstr : bytes (State.start m).m.area ((State.start m).m.pos + 4) m.m_len.toNat = m.data := start_string m
    rw [hstr] at hmvd
    set s' := (State.start m).route (m.pos + 4 + k) (m.m_len.toNat - k) ((State.start m).m.area (m.pos + 4 + k + 1)).toNat
    calc s'.m.data
        = bytes s'.m.area m.pos (m.m_len + 4 + -4).toNat := rfl
      _ = movedHop m.data k := by rw [hn]; exact hmvd
      _ = asStored m.data := by rw [asStored, hks]; rfl
  · simp at hsin

/-- The stores that are made for a string with one source route at most. -/
theorem Parsed.inside_iff (h : Parsed (State.start m) (m.pos + 4) m.m_len.toNat 0 ks (true, s))
    (hks : sourceRoutes 0 m.data = some ks) (hsin : ks.length ≤ 1)
    (hroom : m.pos + m.m_len.toNat + 4 ≤ MLEN) :
    (∀ x ∈ s.stores, x.1 + x.2 ≤ MLEN) ↔ (ks ≠ [] → m.pos + m.m_len.toNat + 7 ≤ MLEN) := by
  have hst : (State.start m).stores = [(m.pos, 4), (m.pos + 4, m.m_len.toNat)] := by
    simp [State.start, State.write, State.copy, State.grow]
  rcases ks with _ | ⟨k, _ | ⟨_, _⟩⟩
  · obtain rfl : s = State.start m := h.same rfl
    simp [hst]
    omega
  · obtain ⟨-, rfl⟩ := h.moved k (by simp)
    have hfits := sourceRoutes_fits hks k (by simp)
    have hdata : m.data.length = m.m_len.toNat := length_bytes _ _ _
    have hrt (cp cnt optlen : ℕ) : ((State.start m).route cp cnt optlen).stores =
        [(cp + 3, cnt - 4 + 4), (m.pos, 4), (cp + 1, 1), (m.pos, 4), (m.pos + 4, m.m_len.toNat)] := by
      simp only [State.route, State.write, State.copy, State.grow, length_bytes, length_singleton, hst]
      rfl
    simp only [hrt, forall_mem_cons, not_mem_nil, false_implies, implies_true, ne_eq, reduceCtorEq,
      not_false_eq_true, forall_const, and_true]
    omega
  · simp at hsin

theorem wellFormed_iff (hm : m.Wf) (hown : m.Own) (ha : Accepts vax m ks)
    (h : Parsed (State.start m) (m.pos + 4) m.m_len.toNat 0 ks (true, s)) (freed : List ℕ) :
    WellFormed m ⟨false, some s.m, freed, s.stores⟩ ↔ Fits m ks := by
  have hlen : s.m.m_len = m.m_len + 4 - 4 * ks.length := h.len
  have hnon := hm.len_nonneg
  have hne := ha.nonempty
  have hdata : m.data.length = m.m_len.toNat := length_bytes _ _ _
  have hoff := m_off_own hm hown
  have hMLEN : MLEN = 112 := rfl
  have hMMAXOFF : MMAXOFF = 124 := rfl
  have hroom := ha.room
  have hplc : m.pos + m.m_len.toNat + 4 ≤ MLEN := by omega
  have hhop : ks.length = 0 ∨ 7 ≤ m.m_len := by
    cases ks with
    | nil => exact .inl rfl
    | cons k ks =>
      have := sourceRoutes_fits ha.parsed k mem_cons_self
      exact .inr (by omega)
  have hhea : (∀ c p, Representable (ipInsertoptions c p (ipOption s.m)).2) ↔
      20 + (s.m.m_len.toNat - 4) ≤ 60 ∧ (20 + (s.m.m_len.toNat - 4)) % 4 = 0 := by
    simp only [ipInsertoptions_len]
    constructor
    · intro h
      exact h { route := .error .ENETUNREACH } ⟨{ ip_len := 0 }, [], []⟩
    · intro h c p
      split_ifs
      · exact ⟨by norm_num, rfl⟩
      · exact h
  constructor
  · intro hwf
    have hsin : ks.length ≤ 1 := by
      -- the list is four bytes shorter than it should be for each route but the first
      have hsto := congrArg length (hwf.stored s.m rfl)
      have hs : s.m.data.length = s.m.m_len.toNat := length_bytes _ _ _
      rw [length_asStored ha.parsed, hs, hlen, hdata] at hsto
      by_contra hmany
      rw [if_neg (by rintro rfl; simp at hmany)] at hsto
      omega
    have hhl := hhea.1 fun c p => hwf.header s.m rfl c p
    refine ⟨hsin, fun hks => ?_, ?_⟩
    · have := (h.inside_iff ha.parsed hsin hplc).1 hwf.inside hks
      omega
    · omega
  · intro hfits
    have hhl := hfits.header
    refine ⟨fun opt hopt => ?_, ?_, fun opt hopt => ?_⟩
    · cases hopt
      exact h.data ha.parsed hfits.single hnon
    · refine (h.inside_iff ha.parsed hfits.single hplc).2 fun hks => ?_
      have := hfits.room hks
      omega
    · cases hopt
      exact hhea.2 (by omega)

theorem sourceRoutes_nops (k n : ℕ) : sourceRoutes k (replicate n IPOPT_NOP) = some [] := by
  induction n generalizing k with
  | zero => simp [sourceRoutes]
  | succ n ih =>
    rw [replicate_succ, sourceRoutes, if_neg (by decide), if_pos rfl]
    exact ih (k + 1)

/-- A buffer of so many `IPOPT_NOP`s. -/
def nops (n : ℕ) : Mbufs.Mbuf := mget 0 (fun _ => IPOPT_NOP) 10 n

theorem nops_wf (h : n ≤ MLEN) : (nops n).Wf := wf_mget (fun _ => IPOPT_NOP) (by decide) (by omega) (by omega)

theorem nops_data (n : ℕ) : (nops n).data = replicate n IPOPT_NOP := by
  refine eq_replicate_iff.2 ⟨length_bytes _ _ _, fun b hb => ?_⟩
  obtain ⟨i, -, rfl⟩ := List.mem_map.1 hb
  rfl

/-- What is stored is well formed just of the strings that fit, of all that are accepted. -/
theorem ipPcbopts_wellFormed_iff (vax : Bool) (pcbopt : Option Mbufs.Mbuf) (hm : m.Wf) (hown : m.Own) :
    ((ipPcbopts vax pcbopt (some m)).einval = false → WellFormed m (ipPcbopts vax pcbopt (some m))) ↔
      ∀ ks, Accepts vax m ks → Fits m ks := by
  rcases ipPcbopts_cases vax pcbopt hm hown with ⟨ks, s, ha, hs, hrun⟩ | ⟨hnot, hrun⟩
  · rw [hrun]
    constructor
    · intro h ks' ha'
      obtain rfl := some_inj.1 (ha.parsed.symm.trans ha'.parsed)
      exact (wellFormed_iff hm hown ha hs _).1 (h rfl)
    · exact fun h _ => (wellFormed_iff hm hown ha hs _).2 (h ks ha)
  · refine ⟨fun _ ks ha => absurd ha (hnot ks), fun _ hok => ?_⟩
    rcases hrun with hbad | ⟨hnone, hstor⟩
    · simp [hbad] at hok
    · refine ⟨fun opt hopt => ?_, fun x hx => ?_, fun opt hopt => ?_⟩
      · simp [hnone] at hopt
      · simp [hstor] at hx
      · simp [hnone] at hopt

theorem ipPcbopts_wellFormed_iff_four :
    ((ipPcbopts true none (some (nops 4))).einval = false → WellFormed (nops 4) (ipPcbopts true none (some (nops 4)))) ↔
      ∀ ks, Accepts true (nops 4) ks → Fits (nops 4) ks :=
  ipPcbopts_wellFormed_iff true none (nops_wf (by decide)) ⟨rfl, rfl⟩

/-- The header of 44 bytes of options is 64 bytes long. -/
theorem ipPcbopts_too_long : (nops 44).Wf ∧ (nops 44).Own ∧ ¬((ipPcbopts true none (some (nops 44))).einval = false →
    WellFormed (nops 44) (ipPcbopts true none (some (nops 44)))) := by
  have hwf : (nops 44).Wf := nops_wf (by decide)
  have hown : (nops 44).Own := ⟨rfl, rfl⟩
  have hks : sourceRoutes 0 (nops 44).data = some [] := by rw [nops_data, sourceRoutes_nops]
  have ha : Accepts true (nops 44) [] := ⟨by decide, by simp, by decide, hks⟩
  refine ⟨hwf, hown, fun h => ?_⟩
  rcases ipPcbopts_cases true none hwf hown with ⟨ks, s, ha', hs, hrun⟩ | ⟨hnot, -⟩
  · rw [hrun] at h
    have hlong := ((wellFormed_iff hwf hown ha' hs _).1 (h rfl)).header.1
    obtain rfl := some_inj.1 (ha'.parsed.symm.trans hks)
    exact absurd hlong (by decide)
  · exact hnot [] ha

end Uwisc.Ip.Pcbopts
