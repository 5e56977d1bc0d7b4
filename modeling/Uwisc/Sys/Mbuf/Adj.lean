import Uwisc.Sys.Mbuf

/-!
# Trimming chains

`m_adj` takes bytes off the start of a chain, or off its end (`Adjusted`). From the end it is right as long as there
are as many bytes as are to be taken off; with fewer, the count that it rescans with is below zero, and goes into
the `m_len` of the first buffer (`mAdj_iff`).
-/

namespace Uwisc.Mbufs

open Lib List

variable {m : Mbuf} {c : List Mbuf} {count len : ℤ}

/-- The bytes are those without the first `len`, or without the last `-len`, and no buffer has less than none. -/
structure Adjusted (c : List Mbuf) (len : ℤ) (c' : List Mbuf) : Prop where
  contents_eq : contents c' =
    if 0 ≤ len then (contents c).drop len.toNat else (contents c).take ((contents c).length - (-len).toNat)
  len_nonneg : ∀ m ∈ c', 0 ≤ m.m_len

/-! ### Buffers that are cut -/

/-- The buffer with the first `k` bytes of its data. -/
theorem data_setLen {k : ℤ} (h : k ≤ m.m_len) : Mbuf.data { m with m_len := k } = m.data.take k.toNat := by
  rw [m.take_data (by omega)]
  rfl

theorem data_advance {k : ℤ} (h : 0 ≤ k) :
    Mbuf.data { m with m_len := m.m_len - k, pos := m.pos + k.toNat } = m.data.drop k.toNat := by
  have hlen : m.m_len.toNat - k.toNat = (m.m_len - k).toNat := by omega
  rw [m.drop_data, hlen]
  rfl

/-- There is no data in the buffers. -/
theorem contents_clear (c : List Mbuf) : contents (c.map fun m => { m with m_len := 0 }) = [] := by
  induction c with
  | nil => rfl
  | cons m c ih => rw [map_cons, contents_cons, ih]; rfl

theorem contents_trim (h : ∀ m ∈ c, m.Wf) (hlen : 0 ≤ len) : contents (trim len c) = (contents c).drop len.toNat := by
  induction c generalizing len with
  | nil => simp [trim]
  | cons m c ih =>
    obtain ⟨hm, hc⟩ := forall_mem_cons.1 h
    have hnon := hm.len_nonneg
    have hsht := hm.len_short
    rw [trim, contents_cons]
    split_ifs with hpos hle
    · have hdrop : m.data.length ≤ len.toNat := by
        rw [Mbuf.length_data]
        omega
      have hrs : len.toNat - m.data.length = (len - m.m_len).toNat := by
        rw [Mbuf.length_data]
        omega
      rw [contents_cons, ih hc (by omega), drop_append, drop_eq_nil_of_le hdrop, hrs]
      rfl
    · have hdrop : len.toNat ≤ m.data.length := by
        rw [Mbuf.length_data]
        omega
      rw [wrap_short (by omega) (by omega), contents_cons, data_advance hlen, drop_append_of_le_length hdrop]
    · have hzero : len.toNat = 0 := by omega
      rw [hzero, drop_zero, contents_cons]

theorem trim_nonneg (h : ∀ m ∈ c, m.Wf) (hlen : 0 ≤ len) : ∀ m ∈ trim len c, 0 ≤ m.m_len := by
  induction c generalizing len with
  | nil => simp [trim]
  | cons m c ih =>
    obtain ⟨hm, hc⟩ := forall_mem_cons.1 h
    have hnon := hm.len_nonneg
    have hsht := hm.len_short
    have hrs (n : Mbuf) (hn : n ∈ c) : 0 ≤ n.m_len := (hc n hn).len_nonneg
    rw [trim]
    split_ifs with hpos hle
    · exact forall_mem_cons.2 ⟨le_rfl, ih hc (by omega)⟩
    · refine forall_mem_cons.2 ⟨?_, hrs⟩
      rw [wrap_short (by omega) (by omega)]
      exact sub_nonneg.2 (not_le.1 hle).le
    · exact forall_mem_cons.2 ⟨hnon, hrs⟩

theorem contents_cut (h : ∀ m ∈ c, m.Wf) (hcnt : 0 ≤ count) : contents (cut count c) = (contents c).take count.toNat := by
  induction c generalizing count with
  | nil => simp [cut]
  | cons m c ih =>
    obtain ⟨hm, hc⟩ := forall_mem_cons.1 h
    have hsht := hm.len_short
    have hnon := hm.len_nonneg
    rw [cut, contents_cons]
    split_ifs with hle
    · have htake : count.toNat ≤ m.data.length := by
        rw [Mbuf.length_data]
        omega
      rw [wrap_short (by omega) (by omega), contents_cons, contents_clear, append_nil, data_setLen hle,
        take_append_of_le_length htake]
    · have htake : m.data.length ≤ count.toNat := by
        rw [Mbuf.length_data]
        omega
      have hrs : count.toNat - m.data.length = (count - m.m_len).toNat := by
        rw [Mbuf.length_data]
        omega
      rw [contents_cons, ih hc (by omega), take_append, take_of_length_le htake, hrs]

theorem cut_nonneg (h : ∀ m ∈ c, m.Wf) (hcnt : 0 ≤ count) : ∀ m ∈ cut count c, 0 ≤ m.m_len := by
  induction c generalizing count with
  | nil => simp [cut]
  | cons m c ih =>
    obtain ⟨hm, hc⟩ := forall_mem_cons.1 h
    have hsht := hm.len_short
    rw [cut]
    split_ifs with hle
    · refine forall_mem_cons.2 ⟨?_, by simp⟩
      rwa [wrap_short (by omega) (by omega)]
    · exact forall_mem_cons.2 ⟨hm.len_nonneg, ih hc (by omega)⟩

/-! ### Off the end -/

/-- `m_adj` is right for it: nothing is to be taken off the end, or no more than there is; or what is missing is lost in
    the `short` that it goes into. The lowest `int` has no negative, and takes nothing off. -/
def Adjustable (c : List Mbuf) (len : ℤ) : Prop :=
  c = [] ∨ 0 ≤ len ∨ -len ≤ (contents c).length ∨ -2 ^ 31 < len ∧ 2 ^ 16 ∣ ((contents c).length + len) ∨
    len = -2 ^ 31 ∧ contents c = []

theorem wrap_short_eq_zero {x : ℤ} : wrap 16 x = 0 ↔ 2 ^ 16 ∣ x := by
  have hmod := wrap_emod 16 x
  have hrng := inRange_short.1 (wrap_inRange 16 x)
  rw [Int.dvd_iff_emod_eq_zero, ← hmod]
  omega

/-- There are fewer bytes than are to be taken off. -/
theorem cut_of_neg (hcnt : count < 0) (hm : m.Wf) :
    contents (cut count (m :: c)) = [] ∧ (∀ n ∈ cut count (m :: c), 0 ≤ n.m_len) ↔ 2 ^ 16 ∣ count := by
  rw [cut, if_pos (hcnt.le.trans hm.len_nonneg), contents_cons, contents_clear, append_nil,
    forall_mem_cons, ← wrap_short_eq_zero]
  constructor
  · rintro ⟨hnil, hnon, -⟩
    have hleng := congrArg length hnil
    rw [Mbuf.length_data, length_nil] at hleng
    exact le_antisymm (Int.toNat_eq_zero.1 hleng) hnon
  · intro hzero
    rw [hzero]
    exact ⟨rfl, le_rfl, by simp⟩

/-- The adjustment only affects the last buffer. -/
theorem contents_last {d : List Mbuf} (hm : m.Wf) {l : ℤ} (hl : 0 ≤ l) (hle : l ≤ m.m_len) :
    contents (d ++ [{ m with m_len := wrap 16 (m.m_len - l) }]) =
      (contents (d ++ [m])).take ((contents (d ++ [m])).length - l.toNat) := by
  have hnon := hm.len_nonneg
  have hsht := hm.len_short
  have hleng : (contents (d ++ [m])).length - l.toNat = (contents d).length + (m.m_len - l).toNat := by
    rw [contents_append, contents_cons, contents_nil, append_nil, length_append, Mbuf.length_data]
    omega
  rw [wrap_short (by omega) (by omega), hleng, contents_append, contents_append, contents_cons, contents_cons,
    contents_nil, append_nil, append_nil, take_length_add_append, data_setLen (by omega)]

/-- The lowest `int` takes nothing off. -/
theorem mAdj_min (hc : c ≠ []) (h : ∀ m ∈ c, m.Wf) : mAdj c (-2 ^ 31) = c := by
  obtain ⟨d, m, rfl⟩ := (eq_nil_or_concat c).resolve_left hc
  rw [concat_eq_append] at *
  have hm : m.Wf := h m (by simp)
  have hnon := hm.len_nonneg
  have hsht := hm.len_short
  have hself : wrap 32 (- -2 ^ 31) = -2 ^ 31 := rfl
  have hwrap : wrap 16 (m.m_len - -2 ^ 31) = m.m_len := by
    have hmod := wrap_emod 16 (m.m_len - -2 ^ 31)
    have hrng := inRange_short.1 (wrap_inRange 16 (m.m_len - -2 ^ 31))
    omega
  rw [mAdj, getLast?_concat]
  dsimp only
  rw [if_neg (by decide), hself, if_pos (by omega), hwrap, dropLast_concat]

/-- Off the end, by an integer that has a negative. -/
theorem mAdj_tail (hc : c ≠ []) (h : Chain c) {l : ℤ} (hpos : 0 < l) (hint : l < 2 ^ 31) :
    Adjusted c (-l) (mAdj c (-l)) ↔ l ≤ (contents c).length ∨ 2 ^ 16 ∣ ((contents c).length - l) := by
  obtain ⟨d, m, rfl⟩ := (eq_nil_or_concat c).resolve_left hc
  rw [concat_eq_append] at *
  have hm : m.Wf := h.wf m (by simp)
  have hscan := scan_eq fun m hm => (h.wf m hm).len_nonneg
  have hbnd := h.length_contents_lt
  have hwrap : wrap 32 (- -l) = l := by
    rw [neg_neg]
    exact wrap_int (by omega) (by omega)
  have hcnt : wrap 32 (scan (d ++ [m]) - l) = (contents (d ++ [m])).length - l := by
    rw [hscan]
    exact wrap_int (by omega) (by omega)
  have hiff (c' : List Mbuf) : Adjusted (d ++ [m]) (-l) c' ↔
      contents c' = (contents (d ++ [m])).take ((contents (d ++ [m])).length - l.toNat) ∧ ∀ n ∈ c', 0 ≤ n.m_len := by
    have hneg : ¬0 ≤ -l := by omega
    exact ⟨fun h => ⟨by simpa only [if_neg hneg, neg_neg] using h.contents_eq, h.len_nonneg⟩,
      fun h => ⟨by simpa only [if_neg hneg, neg_neg] using h.1, h.2⟩⟩
  rw [hiff, mAdj, getLast?_concat]
  dsimp only
  rw [if_neg (by omega), hwrap]
  split_ifs with hlast
  · have hle : l ≤ (contents (d ++ [m])).length := by
      rw [contents_append, contents_cons, length_append, length_append, Mbuf.length_data]
      omega
    rw [dropLast_concat]
    refine iff_of_true ⟨contents_last hm hpos.le hlast, fun n hn => ?_⟩ (.inl hle)
    rcases mem_append.1 hn with hn | hn
    · exact (h.wf n (mem_append_left _ hn)).len_nonneg
    · obtain rfl := mem_singleton.1 hn
      have hsht := hm.len_short
      dsimp only
      rw [wrap_short (by omega) (by omega)]
      omega
  · rw [hcnt]
    rcases le_or_gt l (contents (d ++ [m])).length with hle | hlt
    · refine iff_of_true ⟨?_, cut_nonneg h.wf (by omega)⟩ (.inl hle)
      have hnat : ((contents (d ++ [m])).length - l).toNat = (contents (d ++ [m])).length - l.toNat := by omega
      rw [contents_cut h.wf (by omega), hnat]
    · -- the first buffer gets the count, which is below zero
      obtain ⟨m', c', hm'⟩ := exists_cons_of_ne_nil hc
      have hzero : (contents (d ++ [m])).length - l.toNat = 0 := by omega
      rw [hzero, take_zero, or_iff_right (not_le.2 hlt)]
      rw [hm'] at h hlt ⊢
      exact cut_of_neg (by omega) (h.wf m' mem_cons_self)

/-- `m_adj` is drop and take, as far as what is taken off the end is there. -/
theorem mAdj_iff (h : Chain c) (hlen : InRange 32 len) : Adjusted c len (mAdj c len) ↔ Adjustable c len := by
  have hbnd := h.length_contents_lt
  rw [inRange_int] at hlen
  by_cases hc : c = []
  · subst hc
    exact iff_of_true ⟨by simp [mAdj], by simp [mAdj]⟩ (.inl rfl)
  by_cases hfrt : 0 ≤ len
  · obtain ⟨d, m, hd⟩ := (eq_nil_or_concat c).resolve_left hc
    have htrim : mAdj c len = trim len c := by
      rw [mAdj, hd, concat_eq_append, getLast?_concat]
      exact if_pos hfrt
    rw [htrim]
    refine iff_of_true ⟨?_, trim_nonneg h.wf hfrt⟩ (.inr (.inl hfrt))
    rw [if_pos hfrt, contents_trim h.wf hfrt]
  by_cases hmin : len = -2 ^ 31
  · subst hmin
    have hzero : (contents c).length - (- -2 ^ 31 : ℤ).toNat = 0 := by omega
    have hnot : ¬(- -2 ^ 31 : ℤ) ≤ (contents c).length := by omega
    rw [mAdj_min hc h.wf, Adjustable]
    constructor
    · intro hadj
      have hnil := hadj.contents_eq
      rw [if_neg hfrt, hzero, take_zero] at hnil
      exact .inr (.inr (.inr (.inr ⟨rfl, hnil⟩)))
    · intro hcond
      have hnil : contents c = [] := by
        rcases hcond with hc' | hle | hle | ⟨hlt, -⟩ | ⟨-, hnil⟩
        · exact absurd hc' hc
        · exact absurd hle hfrt
        · exact absurd hle hnot
        · exact absurd hlt (lt_irrefl _)
        · exact hnil
      refine ⟨?_, fun m hm => (h.wf m hm).len_nonneg⟩
      rw [if_neg hfrt, hnil]
      rfl
  · have htail := mAdj_tail hc h (l := -len) (by omega) (by omega)
    rw [neg_neg, sub_neg_eq_add] at htail
    rw [htail, Adjustable]
    constructor
    · rintro (hle | hdvd)
      · exact .inr (.inr (.inl hle))
      · exact .inr (.inr (.inr (.inl ⟨by omega, hdvd⟩)))
    · rintro (hc' | hle | hle | ⟨-, hdvd⟩ | ⟨heq, -⟩)
      · exact absurd hc' hc
      · exact absurd hle hfrt
      · exact .inl hle
      · exact .inr hdvd
      · exact absurd heq hmin

theorem mAdj_iff_one : Adjusted threeBytes (-1) (mAdj threeBytes (-1)) :=
  (mAdj_iff chain_threeBytes (by decide)).2 (.inr (.inr (.inl (by decide))))

/-- Five bytes off three: the first buffer is left with less than none. -/
theorem mAdj_negative : Chain threeBytes ∧ ¬Adjusted threeBytes (-5) (mAdj threeBytes (-5)) := by
  refine ⟨chain_threeBytes, fun h => ?_⟩
  have hnon := h.len_nonneg (mget 0 (fun _ => 0) 1 (-2)) (by simp [mAdj, threeBytes, mget, cut, scan, wrap])
  exact absurd hnon (by decide)

end Uwisc.Mbufs
