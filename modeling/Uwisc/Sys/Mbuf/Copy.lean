import Uwisc.Sys.Mbuf

/-!
# Copying out of chains

`m_cpytoc` and `m_movtoc`. The first copies whole buffers after the one it begins in: it is right if it ends in
that one, at the end of a buffer or at the end of the chain (`EndsWell`). The second is right as long as no page is
exchanged (`Uncounted`), since it does not count these. `copyOut_iff` is about both.
-/

namespace Uwisc.Mbufs

open Lib List

variable {m : Mbuf} {c : List Mbuf} {off len count : ℤ}

/-- The bytes from `off` on, `len` of them at most, and how many there are not. -/
structure CopiedOut (c : List Mbuf) (off len : ℤ) (r : List UInt8 × ℤ) : Prop where
  bytes_eq : r.1 = ((contents c).drop off.toNat).take len.toNat
  rest_eq : r.2 = len - r.1.length
  rest_nonneg : 0 ≤ r.2

/-! ### `m_cpytoc` -/

theorem skip_spec (h : ∀ m ∈ c, 0 ≤ m.m_len) (hoff : 0 ≤ off) :
    ∃ u, c = u ++ (skip off c).2 ∧ off = (contents u).length + (skip off c).1 ∧ 0 ≤ (skip off c).1 ∧
      (∀ u', u' <+: u → (contents u').length = off → u' = u) ∧
      ∀ m d, (skip off c).2 = m :: d → (skip off c).1 = 0 ∨ (skip off c).1 < m.m_len := by
  induction c generalizing off with
  | nil => exact ⟨[], rfl, by simp [skip], hoff, fun u' hu' _ => prefix_nil.1 hu', by simp [skip]⟩
  | cons m c ih =>
    obtain ⟨hm, hc⟩ := forall_mem_cons.1 h
    rw [skip]
    split_ifs with hskip
    · obtain ⟨hne, hle⟩ := hskip
      have hoff' : 0 ≤ off - m.m_len := by omega
      obtain ⟨u, hu, hleng, hnon, hmin, hstop⟩ := ih hc hoff'
      refine ⟨m :: u, by rw [cons_append, ← hu], ?_, hnon, fun u' hu' hlen' => ?_, hstop⟩
      · rw [contents_cons, length_append, Mbuf.length_data]
        omega
      · cases u' with
        | nil => exact absurd hlen'.symm hne
        | cons m' u' =>
          obtain ⟨rfl, hpre⟩ := cons_prefix_cons.1 hu'
          rw [contents_cons, length_append, Mbuf.length_data] at hlen'
          rw [hmin u' hpre (by omega)]
    · refine ⟨[], rfl, by simp, hoff, fun u' hu' _ => prefix_nil.1 hu', fun m' d hd => ?_⟩
      obtain ⟨rfl, -⟩ := cons_eq_cons.1 hd
      change off = 0 ∨ off < m.m_len
      omega

/-- The copy ends where what is left comes to nothing after a buffer, or goes on to the end. -/
theorem copyRest_spec (h : ∀ m ∈ c, 0 ≤ m.m_len) (len : ℤ) :
    (∃ u v, c = u ++ v ∧ (contents u).length = len ∧ copyRest len c = (contents u, 0)) ∨
      (∀ u v, c = u ++ v → (contents u).length ≠ len) ∧
        copyRest len c = (contents c, len - (contents c).length) := by
  induction c generalizing len with
  | nil =>
    by_cases hlen : len = 0
    · exact .inl ⟨[], [], rfl, by simp [hlen], by rw [copyRest, hlen]; rfl⟩
    · refine .inr ⟨fun u v huv => ?_, by rw [copyRest]; simp⟩
      obtain ⟨rfl, -⟩ := append_eq_nil_iff.1 huv.symm
      exact Ne.symm hlen
  | cons m c ih =>
    obtain ⟨hm, hc⟩ := forall_mem_cons.1 h
    rw [copyRest]
    split_ifs with hlen
    · exact .inl ⟨[], m :: c, rfl, by simp [hlen], rfl⟩
    · have hcons (u : List Mbuf) : ((contents (m :: u)).length : ℤ) = m.m_len + (contents u).length := by
        rw [contents_cons, length_append, Mbuf.length_data]
        omega
      rcases ih hc (len - m.m_len) with ⟨u, v, rfl, hu, hcopy⟩ | ⟨hne, hcopy⟩
      · refine .inl ⟨m :: u, v, rfl, by rw [hcons]; omega, ?_⟩
        rw [hcopy, contents_cons]
      · refine .inr ⟨fun u v huv => ?_, ?_⟩
        · cases u with
          | nil => exact Ne.symm hlen
          | cons m' u =>
            obtain ⟨rfl, rfl⟩ := cons_eq_cons.1 huv
            have hne := hne u v rfl
            rw [hcons]
            omega
        · rw [hcopy, hcons, contents_cons, sub_sub]

/-- The copy ends at the end of the chain, or of a buffer, or in the buffer that it begins in: the first that does not
    end before `off`, and not at `off` either unless there is none before it. -/
def EndsWell (c : List Mbuf) (off len : ℤ) : Prop :=
  (contents c).length ≤ off + len ∨ (∃ u v, c = u ++ v ∧ (contents u).length = off + len) ∨
    ∃ u m v, c = u ++ m :: v ∧ (contents u).length ≤ off ∧ off + len ≤ (contents u).length + m.m_len ∧
      ∀ u', u' <+: u → (contents u').length = off → u' = u

/-- Where the skipped part of the chain ends. -/
theorem endsWell_of_rest {u d : List Mbuf} {k l : ℤ} (h : ∀ n ∈ u ++ m :: d, 0 ≤ n.m_len)
    (hoff : off = (contents u).length + k) (hk : 0 ≤ k) (hstop : k = 0 ∨ k < m.m_len) (hl : len = m.m_len - k + l)
    (hpos : 0 < l) (hends : EndsWell (u ++ m :: d) off len) :
    (contents d).length ≤ l ∨ ∃ w v, d = w ++ v ∧ (contents w).length = l := by
  have hm : 0 ≤ m.m_len := h m (by simp)
  have hleng (w : List Mbuf) : ((contents (u ++ m :: w)).length : ℤ) =
      (contents u).length + m.m_len + (contents w).length := by
    rw [contents_append, contents_cons, length_append, length_append, Mbuf.length_data]
    omega
  rcases hends with hle | ⟨u', v', huv, hu'⟩ | ⟨u', m', v', huv, hle, hin, hmin⟩
  · rw [hleng] at hle
    exact .inl (by omega)
  · -- the end of a buffer after the first one copied
    rcases append_eq_append_iff.1 huv with ⟨w, rfl, hw⟩ | ⟨w, rfl, hw⟩
    · cases w with
      | nil =>
        rw [append_nil] at hu'
        omega
      | cons n w =>
        obtain ⟨rfl, rfl⟩ := cons_eq_cons.1 hw
        rw [hleng] at hu'
        exact .inr ⟨w, v', rfl, by omega⟩
    · rw [contents_append, length_append] at hoff
      omega
  · rcases append_eq_append_iff.1 huv with ⟨w, rfl, hw⟩ | ⟨w, rfl, hw⟩
    · cases w with
      | nil =>
        obtain ⟨rfl, -⟩ := cons_eq_cons.1 hw
        rw [append_nil] at hin
        omega
      | cons n w =>
        -- the buffer is after the one the copy begins in, which has nothing from `off` on
        obtain ⟨rfl, rfl⟩ := cons_eq_cons.1 hw
        rw [hleng] at hle
        have heq := hmin u (prefix_append u _) (by omega)
        exact absurd (congrArg length heq) (by simp)
    · cases w with
      | nil =>
        obtain ⟨rfl, -⟩ := cons_eq_cons.1 hw
        rw [append_nil] at hoff
        omega
      | cons n w =>
        obtain ⟨rfl, rfl⟩ := cons_eq_cons.1 hw
        rw [contents_append, contents_cons, length_append, length_append, Mbuf.length_data] at hoff
        omega

theorem copyRest_zero (c : List Mbuf) : copyRest 0 c = ([], 0) := by
  cases c with
  | nil => rfl
  | cons m c => exact if_pos rfl

theorem mCpytoc_iff (h : Chain c) (hc : c ≠ []) (hoff : 0 ≤ off) (hlen : 0 ≤ len) :
    (∃ r, mCpytoc c off len = some r ∧ CopiedOut c off len r) ↔ EndsWell c off len := by
  have hnon := fun m hm => (h.wf m hm).len_nonneg
  have hpnc : ¬(c = [] ∨ off < 0 ∨ len < 0) := by simp [hc, hoff, hlen]
  obtain ⟨u, hu, hskip, hk, hmin, hstop⟩ := skip_spec hnon hoff
  rw [mCpytoc, if_neg hpnc]
  generalize skip off c = s at *
  obtain ⟨k, d⟩ := s
  dsimp only at *
  cases d with
  | nil =>
    rw [append_nil] at hu
    subst hu
    have hdrop : (contents c).length ≤ off.toNat := by omega
    refine iff_of_true ⟨_, rfl, ?_, ?_, hlen⟩ (.inl (by omega))
    · rw [drop_eq_nil_of_le hdrop, take_nil]
    · simp
  | cons m d =>
    subst hu
    have hm := h.wf m (by simp)
    have hlenm := hm.len_nonneg
    have hkm : k ≤ m.m_len := (hstop m d rfl).elim (by omega) le_of_lt
    -- the bytes from `off` on begin in `m`
    have hdrop : (contents (u ++ m :: d)).drop off.toNat = m.data.drop k.toNat ++ contents d := by
      have hoff' : off.toNat = (contents u).length + k.toNat := by omega
      have hle : k.toNat ≤ m.data.length := by
        rw [Mbuf.length_data]
        omega
      rw [contents_append, contents_cons, hoff', drop_length_add_append, drop_append_of_le_length hle]
    have hfrom (n : ℤ) (hn : n ≤ m.m_len - k) : m.dataFrom k.toNat n.toNat = (m.data.drop k.toNat).take n.toNat := by
      rw [m.drop_data, Mbuf.dataFrom, Mbuf.dataFrom, take_bytes, Nat.min_eq_left (by omega)]
    have hiff (r : List UInt8 × ℤ) : CopiedOut (u ++ m :: d) off len r ↔
        r.1 = (m.data.drop k.toNat ++ contents d).take len.toNat ∧ r.2 = len - r.1.length ∧ 0 ≤ r.2 := by
      exact ⟨fun h => ⟨hdrop ▸ h.bytes_eq, h.rest_eq, h.rest_nonneg⟩, fun h => ⟨hdrop ▸ h.1, h.2.1, h.2.2⟩⟩
    simp only [Option.some_inj, exists_eq_left', hiff]
    have hleng : (m.data.drop k.toNat).length = (m.m_len - k).toNat := by
      rw [length_drop, Mbuf.length_data]
      omega
    rcases le_or_gt len (m.m_len - k) with hle | hlt
    · rw [min_eq_left hle, sub_self, copyRest_zero, hfrom len hle, append_nil]
      refine iff_of_true ⟨?_, ?_, le_rfl⟩ (.inr (.inr ⟨u, m, d, rfl, by omega, by omega, hmin⟩))
      · rw [take_append_of_le_length (by omega)]
      · rw [length_take, hleng]
        omega
    · rw [min_eq_right hlt.le, hfrom _ le_rfl, ← hleng, take_length]
      have hrs (w : List UInt8) (hw : (w.length : ℤ) ≤ len - (m.m_len - k)) (hd : w = (contents d).take (len - (m.m_len - k)).toNat) :
          m.data.drop k.toNat ++ w = (m.data.drop k.toNat ++ contents d).take len.toNat := by
        have hsub : len.toNat - (m.data.drop k.toNat).length = (len - (m.m_len - k)).toNat := by omega
        rw [take_append, hsub, take_of_length_le (by omega), hd]
      rcases copyRest_spec (c := d) (fun n hn => hnon n (by simp [hn])) (len - (m.m_len - k)) with
        ⟨w, v, rfl, hw, hcopy⟩ | ⟨hne, hcopy⟩
      · rw [hcopy]
        refine iff_of_true ⟨?_, ?_, le_rfl⟩ (.inr (.inl ⟨u ++ m :: w, v, by simp, ?_⟩))
        · refine hrs _ hw.le ?_
          rw [← hw, Int.toNat_natCast, contents_append, take_left]
        · rw [length_append]
          dsimp only
          omega
        · rw [contents_append, contents_cons, length_append, length_append, Mbuf.length_data]
          omega
      · rw [hcopy]
        constructor
        · rintro ⟨-, -, hnon'⟩
          refine .inl ?_
          dsimp only at hnon'
          rw [contents_append, contents_cons, length_append, length_append, Mbuf.length_data]
          omega
        · intro hends
          have hle : (contents d).length ≤ len - (m.m_len - k) := by
            rcases endsWell_of_rest hnon hskip hk (hstop m d rfl) (l := len - (m.m_len - k)) (by omega) (by omega) hends with
              hle | ⟨w, v, hwv, hw⟩
            · exact hle
            · exact absurd hw (hne w v hwv)
          refine ⟨hrs _ hle ?_, ?_, sub_nonneg.2 hle⟩
          · rw [take_of_length_le (by omega)]
          · rw [length_append]
            dsimp only
            omega

/-! ### `m_movtoc` -/

variable {swp : Mbuf → ℕ → ℕ → Bool} {mbutl dst : ℕ}

/-- The first bytes, `count` of them at most, and how many there are not. -/
structure MovedOut (c : List Mbuf) (count : ℤ) (r : List UInt8 × ℤ) : Prop where
  bytes_eq : r.1 = (contents c).take count.toNat
  rest_eq : r.2 = count - r.1.length

/-- No page is exchanged, of any buffer where the bytes before it leave it. -/
def NoExchange (swp : Mbuf → ℕ → ℕ → Bool) (mbutl : ℕ) (c : List Mbuf) (dst : ℕ) (count : ℤ) : Prop :=
  ∀ u m v, c = u ++ m :: v →
    ¬Exchanged swp mbutl m (dst + (contents u).length) (min m.m_len (count - (contents u).length))

theorem noExchange_of_nonpos (hcnt : count ≤ 0) : NoExchange swp mbutl c dst count := by
  rintro u m v - ⟨hle, -⟩
  rw [CLBYTES] at hle
  omega

theorem noExchange_cons (hm : 0 ≤ m.m_len) : NoExchange swp mbutl (m :: c) dst count ↔
    ¬Exchanged swp mbutl m dst (min m.m_len count) ∧
      NoExchange swp mbutl c (dst + m.m_len.toNat) (count - m.m_len) := by
  have hcons (u : List Mbuf) : (contents (m :: u)).length = m.m_len.toNat + (contents u).length := by
    rw [contents_cons, length_append, Mbuf.length_data]
  constructor
  · intro h
    refine ⟨by simpa using h [] m c rfl, fun u n v huv => ?_⟩
    have hu := h (m :: u) n v (by rw [huv]; rfl)
    rw [hcons, ← add_assoc, Nat.cast_add, Int.toNat_of_nonneg hm, ← sub_sub] at hu
    exact hu
  · rintro ⟨hfst, h⟩ u n v huv
    cases u with
    | nil =>
      obtain ⟨rfl, -⟩ := cons_eq_cons.1 huv
      simpa using hfst
    | cons m' u =>
      obtain ⟨rfl, rfl⟩ := cons_eq_cons.1 huv
      rw [hcons, ← add_assoc, Nat.cast_add, Int.toNat_of_nonneg hm, ← sub_sub]
      exact h u n v rfl

theorem mMovtoc_nonpos (hcnt : count ≤ 0) (dst : ℕ) : mMovtoc swp mbutl c dst count = ([], count) := by
  induction c generalizing dst with
  | nil => rfl
  | cons m c ih =>
    have hnot : ¬Exchanged swp mbutl m dst (min m.m_len count) := by
      rintro ⟨hle, -⟩
      rw [CLBYTES] at hle
      omega
    have hrs : min m.m_len count - ((0 : ℕ) : ℤ) ≤ 0 := by omega
    rw [mMovtoc, if_neg hnot]
    rw [if_neg (not_lt.2 hrs), ih, Int.toNat_of_nonpos hrs]
    rfl

/-- A pass over a buffer whose page is not exchanged. -/
theorem mMovtoc_cons (hm : 0 ≤ m.m_len) (hnot : ¬Exchanged swp mbutl m dst (min m.m_len count)) (hcnt : 0 < count) :
    mMovtoc swp mbutl (m :: c) dst count = (m.dataFrom 0 (min m.m_len count).toNat ++
        (mMovtoc swp mbutl c (dst + (min m.m_len count).toNat) (count - min m.m_len count)).1,
      (mMovtoc swp mbutl c (dst + (min m.m_len count).toNat) (count - min m.m_len count)).2) := by
  have hrs : (if 0 < min m.m_len count then count - min m.m_len count else count) = count - min m.m_len count := by
    split_ifs with hpos
    · rfl
    · omega
  rw [mMovtoc, if_neg hnot]
  simp only [Nat.cast_zero, sub_zero, add_zero, hrs]
  rfl

theorem mMovtoc_of_noExchange (h : ∀ m ∈ c, 0 ≤ m.m_len) (hno : NoExchange swp mbutl c dst count) :
    MovedOut c count (mMovtoc swp mbutl c dst count) := by
  induction c generalizing dst count with
  | nil => exact ⟨by simp [mMovtoc], by simp [mMovtoc]⟩
  | cons m c ih =>
    obtain ⟨hm, hc⟩ := forall_mem_cons.1 h
    rcases le_or_gt count 0 with hcnt | hcnt
    · rw [mMovtoc_nonpos hcnt]
      exact ⟨by rw [Int.toNat_of_nonpos hcnt, take_zero], by simp⟩
    · obtain ⟨hfst, hno⟩ := (noExchange_cons hm).1 hno
      rw [mMovtoc_cons hm hfst hcnt]
      rcases le_or_gt m.m_len count with hle | hlt
      · obtain ⟨hbyt, hrs⟩ := ih hc hno
        have hdata : m.dataFrom 0 m.m_len.toNat = m.data := rfl
        have hsub : count.toNat - m.data.length = (count - m.m_len).toNat := by
          rw [Mbuf.length_data]
          omega
        have htake : m.data.take count.toNat = m.data := take_of_length_le (by
          rw [Mbuf.length_data]
          omega)
        rw [min_eq_left hle, hdata]
        refine ⟨?_, ?_⟩
        · rw [contents_cons, hbyt, take_append, hsub, htake]
        · rw [hrs, length_append, Mbuf.length_data]
          omega
      · rw [min_eq_right hlt.le, sub_self, mMovtoc_nonpos le_rfl]
        refine ⟨?_, ?_⟩
        · have hle : count.toNat ≤ m.data.length := by
            rw [Mbuf.length_data]
            omega
          rw [contents_cons, append_nil, take_append_of_le_length hle, m.take_data (by omega)]
        · rw [append_nil, Mbuf.length_dataFrom]
          omega

/-- Every page exchanged is a page that is not taken off `count`. -/
theorem mMovtoc_count (h : ∀ m ∈ c, 0 ≤ m.m_len) (dst : ℕ) (count : ℤ) :
    count ≤ (mMovtoc swp mbutl c dst count).1.length + (mMovtoc swp mbutl c dst count).2 ∧
      (¬NoExchange swp mbutl c dst count →
        count < (mMovtoc swp mbutl c dst count).1.length + (mMovtoc swp mbutl c dst count).2) := by
  induction c generalizing dst count with
  | nil =>
    refine ⟨by simp [mMovtoc], fun hno => absurd (fun u m v huv => ?_) hno⟩
    simp at huv
  | cons m c ih =>
    obtain ⟨hm, hc⟩ := forall_mem_cons.1 h
    by_cases hfst : Exchanged swp mbutl m dst (min m.m_len count)
    · have hle := hfst.1
      have hrs : min m.m_len count - (CLBYTES : ℤ) = ((min m.m_len count - CLBYTES).toNat : ℤ) := by omega
      have hlt : count < (mMovtoc swp mbutl (m :: c) dst count).1.length + (mMovtoc swp mbutl (m :: c) dst count).2 := by
        rw [mMovtoc, if_pos hfst]
        dsimp only
        have hcnt := (ih hc (dst + CLBYTES + (min m.m_len count - (CLBYTES : ℤ)).toNat)
          (if 0 < min m.m_len count - (CLBYTES : ℤ) then count - (min m.m_len count - CLBYTES) else count)).1
        rw [length_append, length_append, Mbuf.length_dataFrom, Mbuf.length_dataFrom]
        rw [CLBYTES] at *
        split_ifs at hcnt ⊢ <;> omega
      exact ⟨hlt.le, fun _ => hlt⟩
    · rcases le_or_gt count 0 with hcnt | hcnt
      · rw [mMovtoc_nonpos hcnt]
        exact ⟨by simp, fun hno => absurd (noExchange_of_nonpos hcnt) hno⟩
      · rw [mMovtoc_cons hm hfst hcnt, noExchange_cons hm]
        dsimp only
        rw [length_append, Mbuf.length_dataFrom]
        obtain ⟨hge, hgt⟩ := ih hc (dst + (min m.m_len count).toNat) (count - min m.m_len count)
        refine ⟨by omega, fun hno => ?_⟩
        have hno' : ¬NoExchange swp mbutl c (dst + m.m_len.toNat) (count - m.m_len) := fun h => hno ⟨hfst, h⟩
        rcases le_or_gt m.m_len count with hle | hlt
        · rw [min_eq_left hle] at hgt ⊢
          have hgt := hgt hno'
          omega
        · exact absurd (noExchange_of_nonpos (by omega)) hno'

theorem mMovtoc_iff (h : Chain c) :
    MovedOut c count (mMovtoc swp mbutl c dst count) ↔ NoExchange swp mbutl c dst count := by
  have hnon := fun m hm => (h.wf m hm).len_nonneg
  refine ⟨fun hmvd => ?_, mMovtoc_of_noExchange hnon⟩
  by_contra hno
  have hlt := (mMovtoc_count hnon dst count).2 hno
  have heq := hmvd.rest_eq
  omega

/-- Both copy out just the bytes that they are to and count the rest: `m_cpytoc` as long as it ends well, `m_movtoc` as
    long as it exchanges no page. -/
theorem copyOut_iff (h : Chain c) (hc : c ≠ []) (hoff : 0 ≤ off) (hlen : 0 ≤ len) :
    ((∃ r, mCpytoc c off len = some r ∧ CopiedOut c off len r) ↔ EndsWell c off len) ∧
      ∀ swp mbutl dst count, MovedOut c count (mMovtoc swp mbutl c dst count) ↔ NoExchange swp mbutl c dst count :=
  ⟨mCpytoc_iff h hc hoff hlen, fun _ _ _ _ => mMovtoc_iff h⟩

/-- Buffers of one byte and of five. -/
def sixBytes : List Mbuf := [mget 0 (fun _ => 0) 1 1, mget 1 (fun _ => 0) 1 5]

theorem chain_sixBytes : Chain sixBytes := by
  refine ⟨?_, by decide⟩
  rw [sixBytes, forall_mem_cons, forall_mem_singleton]
  exact ⟨wf_mget _ (by decide) (by decide) (by decide), wf_mget _ (by decide) (by decide) (by decide)⟩

theorem copyOut_iff_six : ∃ r, mCpytoc sixBytes 0 6 = some r ∧ CopiedOut sixBytes 0 6 r :=
  (copyOut_iff chain_sixBytes (by simp [sixBytes]) (by decide) (by decide)).1.2 (.inl (by decide))

/-- Three bytes are asked for, six are stored, and what is not transferred is said to be -3. -/
theorem mCpytoc_overruns : Chain sixBytes ∧ mCpytoc sixBytes 0 3 = some ([0, 0, 0, 0, 0, 0], -3) ∧
    ¬∃ r, mCpytoc sixBytes 0 3 = some r ∧ CopiedOut sixBytes 0 3 r := by
  have hcopy : mCpytoc sixBytes 0 3 = some ([0, 0, 0, 0, 0, 0], -3) := by decide
  refine ⟨chain_sixBytes, hcopy, ?_⟩
  rintro ⟨r, hr, hcop⟩
  obtain rfl := Option.some_inj.1 (hcopy.symm.trans hr)
  exact absurd hcop.rest_nonneg (by decide)

end Uwisc.Mbufs
