import Mathlib.Tactic.Linarith
import Uwisc.Netinet.Ip.Output

/-!
# When IP fragmentation is exact

The fragments `ip_output` makes of a packet are exact if each fits the MTU of the
interface, their offsets partition the payload, all but the last one expect more
fragments, and the header each describes is the one it has (`Fragments`).

That holds of a packet sent in one piece, and of the fragments of one without
options that is at most 32767 bytes long, as long as the offsets fit their field
and the interface takes the fragments (`Exactly`), and of no other packet
(`ipOutput_exact_iff`): with options only the fixed part of the header is taken
off the packet, so that the options are sent as payload, and what `ip_len` and
`ip_hl` say of the header of a fragment cannot both be so.
-/

namespace Uwisc.Ip

open BitVec Lib List Option

/-! ### Exact fragments -/

/-- The packet fits the MTU, and its header length, length and the length of its
    checksum are those of the header it has. -/
structure Sent.Agrees (mtu : ℤ) (e : Sent) : Prop where
  fits : (sizeofIp + e.opts.length + e.data.length : ℕ) ≤ mtu
  hl : e.ip.ip_hl * 4 = sizeofIp + e.opts.length
  len : e.ip.ip_len = (sizeofIp + e.opts.length + e.data.length : ℕ)
  cksum : e.cksum = sizeofIp + e.opts.length

/-- The packets sent are exactly the `data` at the position `pos` of the payload of a
    datagram; `mf` if it has more after that. -/
inductive Fragments (mtu : ℤ) (mf : Prop) : ℕ → List UInt8 → List Sent → Prop
  | last {pos : ℕ} {e : Sent} : e.Agrees mtu → offset e.ip.ip_off * 8 = pos →
      (e.ip.ip_off &&& ipMf ≠ 0 ↔ mf) → Fragments mtu mf pos e.data [e]
  | more {pos : ℕ} {e : Sent} {data : List UInt8} {sent : List Sent} : e.Agrees mtu →
      offset e.ip.ip_off * 8 = pos → e.ip.ip_off &&& ipMf ≠ 0 →
      Fragments mtu mf (pos + e.data.length) data sent →
      Fragments mtu mf pos (e.data ++ data) (e :: sent)

theorem not_fragments_nil {mtu : ℤ} {mf : Prop} {pos : ℕ} {data : List UInt8} :
    ¬Fragments mtu mf pos data [] := nofun

/-- The first of the packets is the last one, or more follow it. -/
theorem fragments_cons_iff {mtu : ℤ} {mf : Prop} {pos : ℕ} {data : List UInt8} {e : Sent}
    {sent : List Sent} : Fragments mtu mf pos data (e :: sent) ↔
      e.Agrees mtu ∧ offset e.ip.ip_off * 8 = pos ∧
        (sent = [] ∧ e.data = data ∧ (e.ip.ip_off &&& ipMf ≠ 0 ↔ mf) ∨
          e.ip.ip_off &&& ipMf ≠ 0 ∧ ∃ rest, e.data ++ rest = data ∧
            Fragments mtu mf (pos + e.data.length) rest sent) := by
  refine ⟨fun h => ?_, fun ⟨ha, hpos, h⟩ => ?_⟩
  · cases h with
    | last ha hpos hmf => exact ⟨ha, hpos, .inl ⟨rfl, rfl, hmf⟩⟩
    | more ha hpos hmf hrs => exact ⟨ha, hpos, .inr ⟨hmf, _, rfl, hrs⟩⟩
  · rcases h with ⟨rfl, rfl, hmf⟩ | ⟨hmf, rest, rfl, hrs⟩
    · exact .last ha hpos hmf
    · exact .more ha hpos hmf hrs

/-- The packets sent are exactly the packet `m`. -/
def Packet.SentExactly (m : Packet) (mtu : ℤ) (sent : List Sent) : Prop :=
  Fragments mtu (m.ip.ip_off &&& ipMf ≠ 0) (offset m.ip.ip_off * 8) m.data sent

/-- The length of the packet. -/
def Packet.length (m : Packet) : ℕ := sizeofIp + m.opts.length + m.data.length

/-- A packet whose header, of `hlen` bytes, is filled in. -/
structure Packet.Filled (m : Packet) (hlen : ℕ) : Prop where
  header : hlen = sizeofIp + m.opts.length
  hl : m.ip.ip_hl * 4 = hlen
  len : m.ip.ip_len = wrap 16 m.length
  max : m.length ≤ 65535
  noDf : m.ip.ip_off &&& ipDf = 0

/-- The size of the fragments of a packet without options. -/
def fragSize (mtu : ℤ) : ℕ := ((mtu - sizeofIp) / 8 * 8).toNat

/-- The packet is sent as it is, or it has no options, is at most 32767 bytes long, the
    offset of its last fragment fits the field, and the interface takes all
    fragments before the last. -/
def Exactly (c : Call) (mtu : ℤ) (m : Packet) : Prop :=
  (m.length : ℤ) ≤ mtu ∨ m.opts = [] ∧ m.length ≤ 32767 ∧
      offset m.ip.ip_off + (m.data.length - 1) / fragSize mtu * fragSize mtu / 8 < 8192 ∧
      ∀ k < (m.data.length - 1) / fragSize mtu, c.ifOutput k = none

/-! ### Fragments of a packet without options -/

variable {c : Call} {m : Packet} {mtu : ℤ} {len off k : ℕ}

theorem offset_add (x : BitVec 16) (n : ℕ) :
    offset (BitVec.ofNat 16 n + (x &&& ~~~ipMf)) = (offset x + n) % 8192 := by
  have hx := offset_eq (x &&& ~~~ipMf)
  rw [offset_and_not_ipMf] at hx
  rw [offset_eq, hx, toNat_add, toNat_ofNat]
  omega

/-- As long as the offset fits its field, adding to it leaves the flag clear. -/
theorem mf_add {x : BitVec 16} {n : ℕ} (h : offset x + n < 8192) :
    (BitVec.ofNat 16 n + (x &&& ~~~ipMf)) &&& ipMf = 0 := by
  have hx := offset_eq (x &&& ~~~ipMf)
  rw [offset_and_not_ipMf] at hx
  have hmf := (and_ipMf_eq_zero _).1 (and_not_ipMf_and_ipMf x)
  rw [and_ipMf_eq_zero, toNat_add, toNat_ofNat]
  omega

theorem offset_mhipOff (x : BitVec 16) (total : ℤ) (len off : ℕ) :
    offset (mhipOff x total len off) = (offset x + off / 8) % 8192 := by
  rw [mhipOff]
  split_ifs <;> simp only [offset_or_ipMf, offset_add]

theorem mf_mhipOff {x : BitVec 16} {total : ℤ} {len off : ℕ} (h : offset x + off / 8 < 8192) :
    mhipOff x total len off &&& ipMf ≠ 0 ↔ x &&& ipMf ≠ 0 ∨ off + len < total := by
  have hmf := mf_add h
  have hne : ipMf ≠ 0 := by decide
  rw [mhipOff]
  by_cases hin : x &&& ipMf ≠ 0
  · refine iff_of_true ?_ (.inl hin)
    rw [if_pos hin]
    split_ifs
    · rwa [or_ipMf_and_ipMf]
    · rwa [or_ipMf_and_ipMf]
  · rw [if_neg hin]
    split_ifs with hlast
    · exact iff_of_false (not_not.2 hmf) (by simp only [hin, false_or]; omega)
    · exact iff_of_true (by rwa [or_ipMf_and_ipMf]) (.inr (not_le.1 hlast))

theorem mhipLen_eq {data : List UInt8} (_hdata : data.length ≤ 32767) (hlen : len ≤ 32767)
    (hoff : off < data.length) :
    mhipLen data.length len off = (((data.drop off).take len).length : ℤ) := by
  rw [mhipLen, length_take, length_drop]
  split_ifs with hlast
  · rw [wrap_short (by omega) (by omega)]
    omega
  · rw [wrap_short (by omega) (by omega)]
    omega

theorem uShort_short {n : ℕ} (h : n + sizeofIp ≤ 32767) :
    uShort (wrap 16 (n + (sizeofIp : ℕ))) = ((sizeofIp + n : ℕ) : ℤ) := by
  rw [uShort, wrap_short (by omega) (by omega)]
  omega

/-- The fragment at `off` of a packet without options, of at most `len` bytes. -/
structure IsFragment (m : Packet) (len off : ℕ) (e : Sent) : Prop where
  opts : e.opts = []
  data : e.data = (m.data.drop off).take len
  ip_hl : e.ip.ip_hl = m.ip.ip_hl
  ip_len : e.ip.ip_len = (sizeofIp + e.data.length : ℕ)
  cksum : e.cksum = sizeofIp
  ip_off : offset e.ip.ip_off = (offset m.ip.ip_off + off / 8) % 8192
  mf : offset m.ip.ip_off + off / 8 < 8192 →
    (e.ip.ip_off &&& ipMf ≠ 0 ↔ m.ip.ip_off &&& ipMf ≠ 0 ∨ off + len < m.data.length)

theorem fragmentAt_spec (hopts : m.opts = []) (hm : m.Filled sizeofIp) (hmax : m.length ≤ 32767)
    (hlen : len ≤ 32767) (hoff : off < m.data.length) :
    ∃ e, fragmentAt c m sizeofIp len off = some e ∧ IsFragment m len off e := by
  have hmlen : m.length = 20 + m.data.length := by
    simp [Packet.length, hopts, sizeofIp]
  have htot : m.ip.ip_len - (sizeofIp : ℕ) = (m.data.length : ℤ) := by
    rw [hm.len, wrap_short (by omega) (by omega), hmlen, sizeofIp]
    omega
  have hdata : (m.data.drop off).take ((m.data.drop off).take len).length =
      (m.data.drop off).take len := by
    rw [length_take]
    exact take_eq_take_iff.2 (by simp)
  have hle : ((m.data.drop off).take len).length ≤ m.data.length - off := by
    rw [length_take, length_drop]
    omega
  rw [fragmentAt, if_neg (lt_irrefl _), map_some, htot,
    mhipLen_eq (by omega) hlen hoff, uShort_short (by rw [sizeofIp]; omega), hopts, nil_append, Int.toNat_natCast, hdata]
  refine ⟨_, rfl, rfl, rfl, rfl, rfl, rfl, offset_mhipOff _ _ _ _, fun hfit => ?_⟩
  rw [mf_mhipOff hfit, ← Nat.cast_add, Nat.cast_lt]

theorem IsFragment.length {e : Sent} (h : IsFragment m len off e) :
    e.data.length = min len (m.data.length - off) := by
  rw [h.data, length_take, length_drop]

/-- A fragment describes its header. -/
theorem IsFragment.agrees {e : Sent} (h : IsFragment m len off e) (hm : m.Filled sizeofIp)
    (hfits : ((sizeofIp + len : ℕ) : ℤ) ≤ mtu) : e.Agrees mtu := by
  have hlen := h.length
  refine ⟨?_, ?_, ?_, ?_⟩
  · rw [h.opts, length_nil]
    omega
  · rw [h.ip_hl, hm.hl, h.opts]
    rfl
  · rw [h.ip_len, h.opts]
    rfl
  · rw [h.cksum, h.opts]
    rfl

/-- From the fragment at `off` on, the packet is sent exactly. -/
def ExactlyFrom (c : Call) (m : Packet) (len k off : ℕ) : Prop :=
  offset m.ip.ip_off + (off + (m.data.length - 1 - off) / len * len) / 8 < 8192 ∧
    ∀ j < (m.data.length - 1 - off) / len, c.ifOutput (k + j) = none

/-- Each round of the loop sends a fragment; if it is not the last one, the condition
    passes on to the rest. -/
theorem exactlyFrom_iff (hlen : 0 < len) (hoff : off < m.data.length) :
    ExactlyFrom c m len k off ↔ offset m.ip.ip_off + off / 8 < 8192 ∧
      (off + len < m.data.length → c.ifOutput k = none ∧ ExactlyFrom c m len (k + 1) (off + len)) := by
  by_cases hlast : off + len < m.data.length
  · have hdiv : (m.data.length - 1 - off) / len = (m.data.length - 1 - (off + len)) / len + 1 := by
      rw [← Nat.add_div_right _ hlen]
      congr 1
      omega
    have hmul : off + ((m.data.length - 1 - (off + len)) / len + 1) * len =
        off + len + (m.data.length - 1 - (off + len)) / len * len := by
      rw [Nat.add_mul, Nat.one_mul]
      omega
    rw [ExactlyFrom, ExactlyFrom, hdiv, hmul]
    generalize (m.data.length - 1 - (off + len)) / len = n
    refine ⟨fun ⟨hfit, hout⟩ => ⟨by omega, fun _ => ⟨?_, hfit, fun j hj => ?_⟩⟩, fun ⟨_, h⟩ => ?_⟩
    · exact hout 0 (by omega)
    · rw [Nat.add_assoc, Nat.add_comm 1 j]
      exact hout (j + 1) (by omega)
    · obtain ⟨hk, hfit, hout⟩ := h hlast
      refine ⟨hfit, fun j hj => ?_⟩
      cases j with
      | zero => exact hk
      | succ j =>
        have := hout j (by omega)
        rwa [Nat.add_assoc, Nat.add_comm 1 j] at this
  · have hdiv : (m.data.length - 1 - off) / len = 0 := Nat.div_eq_of_lt (by omega)
    rw [ExactlyFrom, hdiv, Nat.zero_mul, Nat.add_zero]
    exact ⟨fun h => ⟨h.1, fun h => absurd h hlast⟩, fun h => ⟨h.1, nofun⟩⟩

/-- What a round of the loop sends, and what follows it. -/
theorem fragLoop_eq {hlen : ℕ} {e : Sent} (hlen8 : 8 ≤ len) (hmget : c.mget k = true)
    (hmcopy : c.mcopy k = true) (hoff : (off : ℤ) < m.ip.ip_len - hlen)
    (he : fragmentAt c m hlen len off = some e) :
    fragLoop c m hlen hlen8 k off = match c.ifOutput k with
      | some err => some ⟨some err, [e]⟩
      | none => (fragLoop c m hlen hlen8 (k + 1) (off + len)).map fun r =>
          { r with sent := e :: r.sent } := by
  cases hout : c.ifOutput k <;>
    (rw [fragLoop, dif_pos hoff, he]
     simp [hmget, hmcopy, hout])

theorem fragLoop_exact_iff (hopts : m.opts = []) (hm : m.Filled sizeofIp)
    (hmax : m.length ≤ 32767) (hmget : ∀ k, c.mget k = true) (hmcopy : ∀ k, c.mcopy k = true)
    (hlen : 8 ≤ len) (hlen8 : len % 8 = 0) (hfits : ((sizeofIp + len : ℕ) : ℤ) ≤ mtu)
    (hmtu : mtu ≤ 32767) (hoff : off < m.data.length) (hoff8 : off % 8 = 0) :
    (∃ r, fragLoop c m sizeofIp hlen k off = some r ∧
      Fragments mtu (m.ip.ip_off &&& ipMf ≠ 0) (offset m.ip.ip_off * 8 + off) (m.data.drop off)
        r.sent) ↔ ExactlyFrom c m len k off := by
  induction hn : m.data.length - off using Nat.strong_induction_on generalizing k off with
  | h n ih =>
  have hmlen : m.length = sizeofIp + m.data.length := by
    simp [Packet.length, hopts]
  have htot : m.ip.ip_len - (sizeofIp : ℕ) = (m.data.length : ℤ) := by
    rw [hm.len, wrap_short (by omega) (by omega), hmlen]
    omega
  obtain ⟨e, he, hfrag⟩ := @fragmentAt_spec c m len off hopts hm hmax (by omega) hoff
  have hlen' := hfrag.length
  have hspl : e.data ++ m.data.drop (off + len) = m.data.drop off := by
    rw [hfrag.data, ← drop_drop, take_append_drop]
  have hpos : offset e.ip.ip_off * 8 = offset m.ip.ip_off * 8 + off ↔
      offset m.ip.ip_off + off / 8 < 8192 := by
    rw [hfrag.ip_off]
    omega
  rw [exactlyFrom_iff (by omega) hoff,
    fragLoop_eq hlen (hmget k) (hmcopy k) (by rw [htot]; omega) he]
  by_cases hlast : off + len < m.data.length
  · have hne : e.data ≠ m.data.drop off := fun h => by
      have := congrArg length h
      rw [length_drop] at this
      omega
    have hih := @ih (m.data.length - (off + len)) (by omega) (off + len) (k + 1) hlast (by omega) rfl
    cases hout : c.ifOutput k with
    | some err =>
      refine iff_of_false ?_ (fun h => nomatch (h.2 hlast).1)
      rintro ⟨_, ⟨⟩, hf⟩
      rcases (fragments_cons_iff.1 hf).2.2 with ⟨-, h, -⟩ | ⟨-, _, -, h⟩
      · exact hne h
      · exact not_fragments_nil h
    | none =>
      have hposl : offset m.ip.ip_off * 8 + off + e.data.length =
          offset m.ip.ip_off * 8 + (off + len) := by
        omega
      rw [← hih]
      constructor
      · rintro ⟨r, hr, hf⟩
        obtain ⟨r', hr', rfl⟩ := map_eq_some_iff.1 hr
        obtain ⟨-, hp, ⟨-, h, -⟩ | ⟨-, rest, hrs, hf⟩⟩ := fragments_cons_iff.1 hf
        · exact absurd h hne
        · rw [← hspl] at hrs
          rw [append_cancel_left hrs, hposl] at hf
          exact ⟨hpos.1 hp, fun _ => ⟨rfl, r', hr', hf⟩⟩
      · rintro ⟨hfit, h⟩
        obtain ⟨-, r', hr', hf⟩ := h hlast
        refine ⟨_, map_eq_some_iff.2 ⟨r', hr', rfl⟩, fragments_cons_iff.2
          ⟨hfrag.agrees hm hfits, hpos.2 hfit, .inr ⟨?_, _, hspl, ?_⟩⟩⟩
        · exact (hfrag.mf hfit).2 (.inr hlast)
        · rwa [hposl]
  · -- the last round: the rest of the loop sends nothing
    have hdata : e.data = m.data.drop off := by
      rw [hfrag.data, take_of_length_le (by rw [length_drop]; omega)]
    have hsent : ∃ err, (match c.ifOutput k with
        | some err => some ⟨some err, [e]⟩
        | none => (fragLoop c m sizeofIp hlen (k + 1) (off + len)).map fun r =>
            { r with sent := e :: r.sent }) = some (⟨err, [e]⟩ : Output) := by
      cases c.ifOutput k with
      | some err => exact ⟨some err, rfl⟩
      | none =>
        refine ⟨none, ?_⟩
        rw [fragLoop, dif_neg (by rw [htot]; omega)]
        rfl
    obtain ⟨err, hsent⟩ := hsent
    rw [hsent]
    constructor
    · rintro ⟨_, ⟨⟩, hf⟩
      exact ⟨hpos.1 (fragments_cons_iff.1 hf).2.1, fun h => absurd h hlast⟩
    · rintro ⟨hfit, -⟩
      refine ⟨_, rfl, fragments_cons_iff.2 ⟨hfrag.agrees hm hfits, hpos.2 hfit, .inl ⟨rfl, hdata, ?_⟩⟩⟩
      rw [hfrag.mf hfit]
      exact ⟨fun h => h.resolve_right hlast, .inl⟩

/-! ### All packets -/

theorem Packet.Filled.total {hlen : ℕ} (hm : m.Filled hlen) (hmax : m.length ≤ 32767) :
    m.ip.ip_len - hlen = (m.data.length : ℤ) := by
  have hhea := hm.header
  rw [hm.len, wrap_short (by omega) (by omega), Packet.length]
  omega

theorem fragmentAt_fields {hlen : ℕ} {e : Sent} (he : fragmentAt c m hlen len off = some e) :
    e.ip.ip_hl = m.ip.ip_hl ∧
      e.ip.ip_len = uShort (wrap 16 (mhipLen (m.ip.ip_len - hlen) len off + (sizeofIp : ℕ))) ∧
      e.data = ((m.opts ++ m.data).drop off).take (mhipLen (m.ip.ip_len - hlen) len off).toNat := by
  obtain ⟨opts, -, rfl⟩ := map_eq_some_iff.1 he
  exact ⟨rfl, rfl, rfl⟩

/-- With options, the header of the first fragment is not the one it describes. -/
theorem not_agrees_options {hlen : ℕ} {e : Sent} (hm : m.Filled hlen) (hopts : m.opts ≠ [])
    (hmax : m.length ≤ 32767) (hlen32 : len ≤ 32767) (hdata : 0 < m.data.length)
    (he : fragmentAt c m hlen len 0 = some e) : ¬e.Agrees mtu := by
  rintro ⟨-, hhl, hiplen, -⟩
  have h20 : sizeofIp = 20 := rfl
  have hmlen : m.length = sizeofIp + m.opts.length + m.data.length := rfl
  have hhea := hm.header
  have hpos : 0 < m.opts.length := length_pos_iff.2 hopts
  have hle : ((m.data.drop 0).take len).length ≤ m.data.length := by
    rw [drop_zero, length_take]
    omega
  obtain ⟨hhl', hiplen', hdata'⟩ := fragmentAt_fields he
  rw [hm.total hmax, mhipLen_eq (by omega) hlen32 hdata] at hiplen' hdata'
  rw [uShort_short (by omega)] at hiplen'
  have hdlen := congrArg length hdata'
  rw [Int.toNat_natCast, drop_zero (l := m.opts ++ m.data), length_take_of_le] at hdlen
  · have := hm.hl
    omega
  · rw [length_append]
    omega

theorem not_fragments_options {hlen : ℕ} (hm : m.Filled hlen) (hopts : m.opts ≠ [])
    (hmax : m.length ≤ 32767) (hmget : ∀ k, c.mget k = true) (hmcopy : ∀ k, c.mcopy k = true)
    (hlen8 : 8 ≤ len) (hlen32 : len ≤ 32767) (hdata : 0 < m.data.length) {r : Output} {mf : Prop}
    {pos : ℕ} (hr : fragLoop c m hlen hlen8 0 0 = some r) :
    ¬Fragments mtu mf pos m.data r.sent := by
  cases he : fragmentAt c m hlen len 0 with
  | none =>
    rw [fragLoop, dif_pos (by rw [hm.total hmax]; omega), he] at hr
    simp [hmget] at hr
  | some e =>
    rw [fragLoop_eq hlen8 (hmget 0) (hmcopy 0) (by rw [hm.total hmax]; omega) he] at hr
    have hsent : ∃ sent, r.sent = e :: sent := by
      cases hout : c.ifOutput 0 with
      | some err =>
        rw [hout] at hr
        cases hr
        exact ⟨_, rfl⟩
      | none =>
        rw [hout] at hr
        obtain ⟨r', -, rfl⟩ := map_eq_some_iff.1 hr
        exact ⟨_, rfl⟩
    obtain ⟨sent, hsent⟩ := hsent
    rw [hsent]
    exact fun hf => not_agrees_options hm hopts hmax hlen32 hdata he (fragments_cons_iff.1 hf).1

/-- The packet is sent as it is. -/
theorem direct_exact_iff {hlen : ℕ} (hm : m.Filled hlen) :
    m.SentExactly mtu [{ m with ip.ip_len := uShort m.ip.ip_len, cksum := hlen }] ↔
      (m.length : ℤ) ≤ mtu := by
  have hmax := hm.max
  have hmlen : m.length = sizeofIp + m.opts.length + m.data.length := rfl
  have hsht : uShort m.ip.ip_len = (m.length : ℤ) := by
    have := wrap_emod 16 m.length
    rw [uShort, hm.len]
    omega
  rw [Packet.SentExactly, fragments_cons_iff]
  refine ⟨fun h => h.1.fits, fun h => ⟨⟨h, ?_, hsht, hm.header⟩, rfl, .inl ⟨rfl, rfl, Iff.rfl⟩⟩⟩
  exact hm.hl.trans hm.header

theorem ipSend_exact_iff {hlen : ℕ} {ifp : Ifnet} (hm : m.Filled hlen)
    (hmtu : ifp.if_mtu ≤ 32767) (hsize : 8 ≤ (ifp.if_mtu - hlen) / 8 * 8)
    (hmget : ∀ k, c.mget k = true) (hmcopy : ∀ k, c.mcopy k = true) :
    (∃ r, ipSend c ifp m hlen = some r ∧ m.SentExactly ifp.if_mtu r.sent) ↔
      Exactly c ifp.if_mtu m := by
  have hmax := hm.max
  have hmlen : m.length = sizeofIp + m.opts.length + m.data.length := rfl
  have hhea := hm.header
  rw [ipSend, Exactly]
  by_cases hdir : m.ip.ip_len ≤ ifp.if_mtu
  · rw [if_pos hdir]
    have hext := @direct_exact_iff m ifp.if_mtu hlen hm
    have hbig : m.length ≤ 32767 → (m.length : ℤ) ≤ ifp.if_mtu := fun h => by
      rwa [hm.len, wrap_short (by omega) (by omega)] at hdir
    rw [← hext] at hbig ⊢
    exact ⟨fun ⟨_, hr, h⟩ => .inl (by obtain rfl := some_inj.1 hr; exact h),
      fun h => ⟨_, rfl, h.elim id fun h => hbig h.2.1⟩⟩
  · have h20 : sizeofIp = 20 := rfl
    -- a packet longer than a `short` would have been sent directly
    have hsht : m.length ≤ 32767 := by
      have hrng := inRange_short.1 (wrap_inRange 16 m.length)
      have hmod := wrap_emod 16 m.length
      rw [← hm.len] at hrng hmod
      omega
    have hlong : ¬(m.length : ℤ) ≤ ifp.if_mtu := by
      rwa [hm.len, wrap_short (by omega) (by omega)] at hdir
    rw [if_neg hdir, if_neg (not_not.2 hm.noDf)]
    simp only [dif_neg (not_lt.2 hsize), hlong, false_or]
    by_cases hopts : m.opts = []
    · obtain rfl : hlen = sizeofIp := by simpa [hopts] using hhea
      have hopt : m.opts.length = 0 := by rw [hopts, length_nil]
      have hloop := @fragLoop_exact_iff c m ifp.if_mtu ((ifp.if_mtu - sizeofIp) / 8 * 8).toNat 0 0 hopts hm hsht hmget hmcopy (by omega)
        (by omega) (by omega) hmtu (by omega) rfl
      rw [add_zero, drop_zero] at hloop
      refine hloop.trans ⟨fun ⟨hfit, hout⟩ => ⟨hopts, hsht, ?_, fun k hk => ?_⟩,
        fun ⟨_, _, hfit, hout⟩ => ⟨?_, fun j hj => ?_⟩⟩
      · rwa [zero_add, Nat.sub_zero] at hfit
      · simpa using hout k hk
      · rwa [zero_add, Nat.sub_zero]
      · simpa using hout j hj
    · refine iff_of_false ?_ fun h => hopts h.1
      rintro ⟨r, hr, hf⟩
      exact not_fragments_options hm hopts hsht hmget hmcopy _ (by omega) (by omega) hr hf

/-- A packet that `ip_output` sends is sent exactly just in these cases. -/
theorem ipOutput_exact_iff {ifp : Ifnet} (hroute : c.route = .ok ifp)
    (hsend : refused c ifp (fillSource ifp (fillHeader c m).1) = none)
    (hm : (fillSource ifp (fillHeader c m).1).Filled (fillHeader c m).2)
    (hmtu : ifp.if_mtu ≤ 32767) (hsize : 8 ≤ (ifp.if_mtu - (fillHeader c m).2) / 8 * 8)
    (hmget : ∀ k, c.mget k = true) (hmcopy : ∀ k, c.mcopy k = true) :
    (∃ r, ipOutput c m = some r ∧
      (fillSource ifp (fillHeader c m).1).SentExactly ifp.if_mtu r.sent) ↔
      Exactly c ifp.if_mtu (fillSource ifp (fillHeader c m).1) := by
  have hout : ipOutput c m = ipSend c ifp (fillSource ifp (fillHeader c m).1) (fillHeader c m).2 := by
    simp only [ipOutput, hroute, hsend]
  rw [hout]
  exact ipSend_exact_iff hm hmtu hsize hmget hmcopy

/-- A packet of twenty bytes of payload after the options `opts`, of an interface that
    takes packets of `40` bytes. -/
def twenty (opts : List UInt8) : Packet :=
  { ip := { ip_hl := 5 + opts.length / 4, ip_len := 40 + opts.length, ip_src := 1 }
    opts := opts
    data := (range 20).map UInt8.ofNat }

/-- A call of `ip_output` for a packet that is forwarded to that interface. -/
def forward (mtu : ℤ) : Call := { forwarding := true, route := .ok { if_mtu := mtu } }

/-- Without options it is sent in two fragments. -/
theorem ipOutput_exact_twenty : ∃ r, ipOutput (forward 39) (twenty []) = some r ∧
    (twenty []).SentExactly 39 r.sent :=
  (@ipOutput_exact_iff (forward 39) (twenty []) { if_mtu := 39 } rfl rfl
    ⟨by decide, by decide, by decide, by decide, by decide⟩ (by decide) (by decide) (fun _ => rfl)
    fun _ => rfl).2 (.inr ⟨rfl, by decide, by decide, fun _ _ => rfl⟩)

/-- With options, of which `IPOPT_NOP` fills the header up, they are sent as payload. -/
theorem ipOutput_options : ¬∀ (c : Call) (m : Packet) (ifp : Ifnet), c.route = .ok ifp →
    refused c ifp (fillSource ifp (fillHeader c m).1) = none →
    (fillSource ifp (fillHeader c m).1).Filled (fillHeader c m).2 → ifp.if_mtu ≤ 32767 →
    8 ≤ (ifp.if_mtu - (fillHeader c m).2) / 8 * 8 → (∀ k, c.mget k = true) →
    (∀ k, c.mcopy k = true) → (∀ k, c.ifOutput k = none) →
    ∃ r, ipOutput c m = some r ∧
      (fillSource ifp (fillHeader c m).1).SentExactly ifp.if_mtu r.sent := by
  intro h
  obtain ⟨r, hr, hf⟩ := h (forward 40) (twenty [1, 1, 1, 1]) { if_mtu := 40 } rfl rfl
    ⟨by decide, by decide, by decide, by decide, by decide⟩ (by decide) (by decide) (fun _ => rfl)
    (fun _ => rfl) (fun _ => rfl)
  have hext := (@ipSend_exact_iff (forward 40) (twenty [1, 1, 1, 1]) 24
    { if_mtu := 40 } ⟨by decide, by decide, by decide, by decide, by decide⟩ (by decide)
    (by decide) (fun _ => rfl) fun _ => rfl).1 ⟨r, hr, hf⟩
  rcases hext with h | ⟨h, -⟩
  · exact absurd h (by decide)
  · exact absurd h (by decide)

end Uwisc.Ip
