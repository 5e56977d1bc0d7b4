import Uwisc.Nfs.Readdir.Serve

/-!
# Reading a directory to its end

When the calls of `nfs_readdir` return each entry of a directory once.

The server counts what the entries take in the reply, and the client what they take in its
buffer, where names of some lengths take four bytes more than in the directory. And what the server
reads is rounded down to whole blocks, while it goes on to parse as many bytes as it asked for
(`CallOk` is when neither matters).

* `nfs_readdir_spec`: a call returns the next entries, or none at the end;
* `nfs_readdir_crowded`: a call fails if they do not fit;
* `readdir_exact`: what calls from the start on return, and what the decoder stores.
-/

namespace Uwisc.Nfs

open Lib List Nat Option Ufs.Dir

variable {d : Directory} {o c f k : ℕ} {e : Sent} {p : List Sent} {b : Buffer} {dp size offset : ℕ}

/-- How many bytes a reply may take that begins with the record `f`. -/
def room (o c f : ℕ) : ℕ := c - (f - start o c f)

/-- The entries there are in the block that is read for the record `f`. -/
def Directory.inBlock (d : Directory) (o c f : ℕ) : List Sent :=
  ((d.pending o).filter (· < start o c f + c / DIRBLKSIZ * DIRBLKSIZ)).map d.sent

/-- A request for `c` bytes from `o` on is for whole blocks, or the entries in the first one fill the
    reply; and what fills a reply takes less than the buffer has. -/
structure CallOk (d : Directory) (o c : ℕ) : Prop where
  whole : c % DIRBLKSIZ = 0 ∨ ∃ f ∈ (d.pending o).head?,
    f < o / DIRBLKSIZ * DIRBLKSIZ + c / DIRBLKSIZ * DIRBLKSIZ ∧ room o c f ≤ sentLen (d.inBlock o c f)
  fits : ∀ f ∈ (d.pending o).head?, ∀ p, p <+: d.inBlock o c f →
    sentLen p.dropLast < room o c f → keptLen p < c

/-! ### Filling a reply -/

theorem sentLen_cons (e : Sent) (p : List Sent) : sentLen (e :: p) = e.entry.length + sentLen p := by
  rw [sentLen, map_cons, sum_cons, sentLen]

theorem keptLen_cons (e : Sent) (p : List Sent) :
    keptLen (e :: p) = reclen e.d_name.length + keptLen p := by
  rw [keptLen, map_cons, sum_cons, keptLen]

theorem keptLen_le_of_initial {q : List Sent} (h : p <+: q) : keptLen p ≤ keptLen q := by
  obtain ⟨t, rfl⟩ := h
  rw [keptLen, keptLen, map_append, List.sum_append]
  exact Nat.le_add_right _ _

theorem fill_initial (k : ℕ) (p : List Sent) : fill k p <+: p := by
  induction p generalizing k with
  | nil => exact nil_prefix
  | cons e p ih =>
    rw [fill]
    split_ifs
    · exact cons_prefix_cons.2 ⟨rfl, nil_prefix⟩
    · exact cons_prefix_cons.2 ⟨rfl, ih _⟩

theorem fill_ne_nil (h : p ≠ []) : fill k p ≠ [] := by
  cases p with
  | nil => exact absurd rfl h
  | cons e p =>
    rw [fill]
    split_ifs <;> simp

theorem fill_eq_self (h : sentLen p < k) : fill k p = p := by
  induction p generalizing k with
  | nil => rfl
  | cons e p ih =>
    rw [sentLen_cons] at h
    rw [fill, if_neg (by omega), ih (by omega)]

theorem sentLen_dropLast_fill (h : 0 < k) : sentLen (fill k p).dropLast < k := by
  induction p generalizing k with
  | nil => exact h
  | cons e p ih =>
    rw [fill]
    split_ifs with hfull
    · exact h
    · cases hp : fill (k - e.entry.length) p with
      | nil => simpa [sentLen] using h
      | cons e' p' =>
        have := ih (show 0 < k - e.entry.length by omega)
        rw [hp] at this
        rw [dropLast_cons_of_ne_nil (by simp), sentLen_cons]
        omega

theorem getEntry_crowded (b : Buffer) (dp : ℕ) (xdrs : List UInt8) (h : e.Ok)
    (hroom : size < reclen e.d_name.length) :
    ∃ b', getEntry b dp size (putlong e.d_fileno ++ (putlong e.d_name.length ++ (e.d_name ++
      replicate (rndup e.d_name.length) 0) ++ putlong e.offset) ++ xdrs) = (b', none) := by
  have hname := h.name
  rw [NFS_MAXNAMLEN] at hname
  have hmod : e.d_name.length % 2 ^ 16 = e.d_name.length := mod_eq_of_lt (by omega)
  simp only [append_assoc, getEntry, getlong_putlong h.fileno,
    getlong_putlong (show e.d_name.length < 2 ^ 32 by omega), Int.ofNat_lt, hmod, if_pos hroom]
  exact ⟨_, rfl⟩

/-- Entries that take as much as there is are not returned. -/
theorem getEntries_crowded (h : ∀ e ∈ p, e.Ok) (hroom : size ≤ keptLen p) (hp : p ≠ [])
    (xdrs : List UInt8) :
    ∃ b', getEntries b dp size offset (p.flatMap Sent.entry ++ xdrs) = (b', none) := by
  induction p generalizing b dp size offset with
  | nil => exact absurd rfl hp
  | cons e p ih =>
    obtain ⟨hok, h⟩ := forall_mem_cons.1 h
    rw [keptLen_cons] at hroom
    have hmark : Marked (putlong 1 ++ (putlong e.d_fileno ++ (putlong e.d_name.length ++ (e.d_name ++
        replicate (rndup e.d_name.length) 0) ++ putlong e.offset) ++
          (p.flatMap Sent.entry ++ xdrs))) :=
      (marked_iff (getlong_putlong (by decide))).2.2 Nat.one_ne_zero
    rw [flatMap_cons, Sent.entry, append_assoc, append_assoc, getEntries_marked hmark,
      drop_left' (length_putlong 1)]
    rcases lt_or_ge size (reclen e.d_name.length) with hlt | hge
    · obtain ⟨b', hb'⟩ := getEntry_crowded b dp (p.flatMap Sent.entry ++ xdrs) hok hlt
      rw [hb']
      exact ⟨b', rfl⟩
    · obtain ⟨stored, hb'⟩ := getEntry_sent b dp (p.flatMap Sent.entry ++ xdrs) hok hge
      rw [hb']
      by_cases hfull : (size : ℤ) - reclen e.d_name.length ≤ 0
      · refine ⟨⟨record b.mem dp e, stored⟩, ?_⟩
        simp only [if_pos hfull]
      · have hne : p ≠ [] := by
          rintro rfl
          rw [keptLen, map_nil, sum_nil] at hroom
          omega
        obtain ⟨b', hrun⟩ := @ih ⟨record b.mem dp e, stored⟩ (dp + reclen e.d_name.length)
          (size - reclen e.d_name.length) e.offset h (by omega) hne
        rw [Int.ofNat_sub hge] at hrun
        refine ⟨b', ?_⟩
        simp only [if_neg hfull]
        exact hrun

/-! ### A call -/

variable {u v w r : List ℕ}

theorem pending_eq (h : Tiles d.ip.data o d.ip.i_size v) : d.pending o = v.filter d.inUse := by
  rw [Directory.pending, recordsFrom_eq h]

theorem records_eq (hu : Tiles d.ip.data 0 o u) (hv : Tiles d.ip.data o d.ip.i_size v) :
    records d.ip = u ++ v := by
  rw [records, d.dirsize_eq]
  exact recordsFrom_eq (hu.append hv)

variable {call : Call} {s : State} {calls : List Call} {l : List ℕ} {tsize : ℕ}

/-- The record that is sent first, the records not in use before it, and those behind it. -/
theorem pending_cons (h : Tiles d.ip.data o d.ip.i_size v) (hf : d.pending o = f :: l) :
    ∃ v1 w, v = v1 ++ f :: w ∧ Tiles d.ip.data o f v1 ∧ Tiles d.ip.data f d.ip.i_size (f :: w) ∧
      (∀ p ∈ v1, d_ino d.ip.data p = 0) ∧ d_ino d.ip.data f ≠ 0 ∧ w.filter d.inUse = l := by
  rw [pending_eq h] at hf
  obtain ⟨v1, w, rfl, hdead, huse, hl⟩ := filter_eq_cons_iff.1 hf
  obtain ⟨x, hv1, hw⟩ := chain_append.1 h
  obtain rfl := (chain_cons.1 hw).1
  refine ⟨v1, w, rfl, hv1, hw, fun p hp => ?_, by simpa [Directory.inUse] using huse, hl⟩
  simpa [Directory.inUse] using hdead p hp

/-- The entries in the block, as those of the records up to its end. -/
theorem inBlock_eq (hv : Tiles d.ip.data o f v) (hw : Tiles d.ip.data f d.ip.i_size w)
    (hdead : ∀ p ∈ v, d_ino d.ip.data p = 0) (hend : f ≤ d.blockEnd o c f)
    (hst : start o c f % DIRBLKSIZ = 0) :
    ∃ r r', w = r ++ r' ∧ Tiles d.ip.data f (d.blockEnd o c f) r ∧
      Tiles d.ip.data (d.blockEnd o c f) d.ip.i_size r' ∧
      d.inBlock o c f = (r.filter d.inUse).map d.sent := by
  have hmod : d.blockEnd o c f % DIRBLKSIZ = 0 := by
    have := d.whole
    rw [Directory.blockEnd, DIRBLKSIZ] at *
    omega
  obtain ⟨r, r', rfl, hr, hr'⟩ := hw.split_at hmod hend (min_le_right _ _)
  refine ⟨r, r', rfl, hr, hr', ?_⟩
  have hpos : ∀ a, RecOk d.ip.data a → 0 < d_reclen d.ip.data a := fun a ha => ha.pos
  have hall : (v ++ (r ++ r')).filter d.inUse = r.filter d.inUse ++ r'.filter d.inUse := by
    rw [filter_append, filter_append, filter_eq_nil_iff.2, nil_append]
    intro p hp
    simp [Directory.inUse, hdead p hp]
  have hin : (r.filter d.inUse).filter (· < start o c f + c / DIRBLKSIZ * DIRBLKSIZ) = r.filter d.inUse := by
    refine filter_eq_self.2 fun p hp => decide_eq_true ?_
    have := hr.lt_of_mem hpos (mem_of_mem_filter hp)
    rw [Directory.blockEnd] at this
    omega
  have hout : (r'.filter d.inUse).filter (· < start o c f + c / DIRBLKSIZ * DIRBLKSIZ) = [] := by
    refine filter_eq_nil_iff.2 fun p hp => ?_
    have hlt := hr'.lt_of_mem hpos (mem_of_mem_filter hp)
    have hle := (hr'.bounds (mem_of_mem_filter hp)).1
    rw [Directory.blockEnd] at hle
    simp only [decide_eq_true_eq]
    omega
  rw [Directory.inBlock, pending_eq (hv.append (hr.append hr')), hall, filter_append, hin, hout,
    append_nil]

/-- What is sent fits in the numbers of a reply. -/
theorem sent_ok {p : ℕ} (hp : p ∈ records d.ip) (huse : d_ino d.ip.data p ≠ 0) : (d.sent p).Ok := by
  have hwf := d.wf
  rw [WellFormed, d.dirsize_eq] at hwf
  have hbou := hwf.bounds hp
  have hlt := d.size_lt
  refine ⟨huse, ?_, ?_, ?_⟩
  · have := decode_lt (bytes d.ip.data p 4)
    rw [length_bytes] at this
    exact this
  · rw [Directory.sent, d_name, length_bytes]
    exact (d.names p hp huse).2
  · rw [Directory.sent]
    simp only
    omega

/-- A reply, as the encoder ends it. -/
def replyOf (p : List Sent) (rd_eof : Bool) : List UInt8 :=
  putlong NFS_OK ++ (p.flatMap Sent.entry ++ (putlong 0 ++ putlong (if rd_eof then 1 else 0)))

/-- A reply that begins with the record `f`. -/
theorem reply_first {kmem : ℕ → Mem} (hu : Tiles d.ip.data 0 o u) (hv : Tiles d.ip.data o f v)
    (hw : Tiles d.ip.data f d.ip.i_size (f :: w)) (hdead : ∀ p ∈ v, d_ino d.ip.data p = 0)
    (hf : d_ino d.ip.data f ≠ 0) (hc : DIRBLKSIZ ≤ c)
    (hwhl : c % DIRBLKSIZ = 0 ∨ f < o / DIRBLKSIZ * DIRBLKSIZ + c / DIRBLKSIZ * DIRBLKSIZ ∧
      room o c f ≤ sentLen (d.inBlock o c f)) :
    ∃ r r', f :: w = r ++ r' ∧ f < d.blockEnd o c f ∧ Tiles d.ip.data f (d.blockEnd o c f) r ∧
      Tiles d.ip.data (d.blockEnd o c f) d.ip.i_size r' ∧
      d.inBlock o c f = (r.filter d.inUse).map d.sent ∧ (∀ e ∈ d.inBlock o c f, e.Ok) ∧
      0 < room o c f ∧
      (rfs_readdir d.ip kmem o c).bind xdr_putrddirres = some (replyOf
        (fill (room o c f) (d.inBlock o c f)) (d.ip.i_size < start o c f + c / DIRBLKSIZ * DIRBLKSIZ ∧
          ¬room o c f ≤ sentLen (d.inBlock o c f))) := by
  have hbase := mul_mod_left (o / DIRBLKSIZ) DIRBLKSIZ
  have hst : start o c f % DIRBLKSIZ = 0 := by
    rcases hwhl with hwhl | ⟨hblk, -⟩
    · rw [start, add_mod, mul_mod_left, mul_mod, hwhl, mul_zero]
      rfl
    · have := div_mul_le_self c DIRBLKSIZ
      have := div_mul_le_self o DIRBLKSIZ
      have := hv.le
      rw [start, div_eq_of_lt (show f - o / DIRBLKSIZ * DIRBLKSIZ < c by omega), zero_mul, add_zero]
      exact mul_mod_left _ _
  obtain ⟨buf, hholds, hlo, hhi, hrun⟩ := @rfs_readdir_first d o c f u v w kmem hu hv hw hdead hf hc
    (hwhl.imp_right And.left)
  obtain ⟨r, r', hspl, hr, hr', hblk⟩ := inBlock_eq hv hw hdead hhi.le hst
  have hrec := records_eq (hu.append hv) hw
  have hnames : ∀ p ∈ r, d_ino d.ip.data p ≠ 0 → d_namlen d.ip.data p ≤ MAXNAMLEN := fun p hp huse =>
    (d.names p (hrec ▸ mem_append_right _ (hspl ▸ mem_append_left _ hp)) huse).2
  have hroom : 0 < room o c f := by
    have := div_mul_le_self c DIRBLKSIZ
    rw [Directory.blockEnd] at hhi
    rw [room]
    omega
  have hput : putEntries buf (room o c f : ℕ) (f - start o c f)
      (d.blockEnd o c f - f + c % DIRBLKSIZ : ℕ) f 0 = _ :=
    putEntries_records hholds hr hlo (by omega) (by omega) hnames hroom
  rw [← hblk, Nat.sub_zero] at hput
  have hoks : ∀ e ∈ d.inBlock o c f, e.Ok := fun e he => by
    obtain ⟨p, hp, rfl⟩ := List.mem_map.1 (hblk ▸ he)
    obtain ⟨hp, huse⟩ := mem_filter.1 hp
    refine sent_ok ?_ (by simpa [Directory.inUse] using huse)
    exact hrec ▸ mem_append_right _ (hspl ▸ mem_append_left _ hp)
  refine ⟨r, r', hspl, hhi, hr, hr', hblk, hoks, hroom, ?_⟩
  rw [hrun, bind_some, xdr_putrddirres]
  simp only
  rw [← room, hput]
  by_cases hfull : room o c f ≤ sentLen (d.inBlock o c f)
  · rw [if_pos hfull]
    simp [hfull, replyOf]
  · have hmod : c % DIRBLKSIZ = 0 := hwhl.resolve_right fun h => hfull h.2
    rw [if_neg hfull, hmod, add_zero, sub_self, putEntries, if_neg (by decide),
      fill_eq_self (by omega)]
    simp [hfull, replyOf]

/-- Where calls have come to: what they returned are the records before the offset. -/
structure Reached (d : Directory) (s : State) : Prop where
  reached : ∃ u v, Tiles d.ip.data 0 s.uio_offset u ∧ Tiles d.ip.data s.uio_offset d.ip.i_size v ∧
    s.got = u.filterMap (entry d.ip.data)
  eof : s.reof = true → d.pending s.r_size = []
  ended : s.ended = true → d.pending s.uio_offset = []

theorem filterMap_entry (l : List ℕ) : l.filterMap (entry d.ip.data) =
    ((l.filter d.inUse).map d.sent).map fun e => (e.d_name, e.d_fileno) := by
  induction l with
  | nil => rfl
  | cons o l ih =>
    by_cases huse : d_ino d.ip.data o = 0
    · rw [filterMap_cons, entry, if_pos huse, filter_cons_of_neg (by simp [Directory.inUse, huse])]
      exact ih
    · rw [filterMap_cons, entry, if_neg huse, filter_cons_of_pos (by simp [Directory.inUse, huse])]
      exact congrArg _ ih

/-- The records up to one in use. -/
theorem pending_split {l : ℕ} {q q' : List ℕ} (hv : Tiles d.ip.data o d.ip.i_size v)
    (hq : v.filter d.inUse = q ++ l :: q') : ∃ v1 v2, Tiles d.ip.data o (l + d_reclen d.ip.data l) v1 ∧
      Tiles d.ip.data (l + d_reclen d.ip.data l) d.ip.i_size v2 ∧ v1.filter d.inUse = q ++ [l] ∧
      v2.filter d.inUse = q' := by
  obtain ⟨v1, v2, rfl, hv1, hl⟩ := filter_eq_append_iff.1 hq
  obtain ⟨v3, v2, rfl, hdead, huse, hv2⟩ := filter_eq_cons_iff.1 hl
  obtain ⟨x, hx, hv⟩ := chain_append.1 hv
  obtain ⟨y, hy, hv⟩ := chain_append.1 hv
  obtain ⟨rfl, hok, hv⟩ := chain_cons.1 hv
  refine ⟨v1 ++ (v3 ++ [l]), v2, hx.append (hy.append (.single hok)), hv, ?_, hv2⟩
  rw [filter_append, filter_append, hv1, filter_eq_nil_iff.2 hdead, nil_append,
    filter_cons_of_pos huse, filter_nil]

/-- A reply of entries that fit returns them. -/
theorem nfs_readdir_reply {rd_eof : Bool}
    (hreof : ¬(s.reof = true ∧ s.r_size = s.uio_offset)) (hp : ∀ e ∈ p, e.Ok)
    (hreply : (rfs_readdir d.ip call.kmem s.uio_offset (min call.iov_len tsize)).bind xdr_putrddirres =
      some (replyOf p rd_eof)) (hfits : keptLen p < min call.iov_len tsize) :
    ∃ s', nfs_readdir d.ip tsize s call = some s' ∧
      s'.uio_offset = (if keptLen p ≠ 0 then lastOffset (2 ^ 32 - 1) p else s.uio_offset) ∧
      s'.reof = (s.reof || rd_eof) ∧ s'.r_size = (if rd_eof then s'.uio_offset else s.r_size) ∧
      s'.got = s.got ++ p.map (fun e => (e.d_name, e.d_fileno)) ∧ s'.ended = decide (keptLen p = 0) := by
  obtain ⟨b', hrun, -, hmap⟩ := @getEntries_sent ⟨call.rd_entries, []⟩ 0 _ (2 ^ 32 - 1) _ hp hfits rd_eof
  have hdec : xdr_getrddirres call.rd_entries (min call.iov_len tsize) (replyOf p rd_eof) =
      (b', some ⟨NFS_OK, keptLen p, lastOffset (2 ^ 32 - 1) p, rd_eof⟩) := by
    rw [xdr_getrddirres, replyOf, getlong_putlong (by decide)]
    simp only [ne_eq, not_true_eq_false, if_false]
    rw [hrun, zero_add]
  rw [zero_add] at hmap
  refine ⟨uiomove s b'.mem ⟨NFS_OK, keptLen p, lastOffset (2 ^ 32 - 1) p, rd_eof⟩, ?_, rfl, rfl, rfl, ?_, rfl⟩
  · rw [nfs_readdir, if_neg hreof]
    simp only [hreply, hdec, ne_eq, not_true_eq_false, if_false]
  · rw [← hmap]
    rfl

/-- A call at the end returns nothing. -/
theorem nfs_readdir_none (hs : Reached d s)
    (hcnt : DIRBLKSIZ ≤ min call.iov_len tsize) (hok : CallOk d s.uio_offset (min call.iov_len tsize))
    (hreof : ¬(s.reof = true ∧ s.r_size = s.uio_offset)) (hnone : d.pending s.uio_offset = []) :
    ∃ s', nfs_readdir d.ip tsize s call = some s' ∧ Reached d s' ∧ s'.ended = true := by
  obtain ⟨u, v, hu, hv, hgot⟩ := hs.reached
  have hmod : min call.iov_len tsize % DIRBLKSIZ = 0 := hok.whole.resolve_right (by simp [hnone])
  have hdead : ∀ p ∈ v, d_ino d.ip.data p = 0 := fun p hp => by
    have := filter_eq_nil_iff.1 ((pending_eq hv).symm.trans hnone) p hp
    simpa [Directory.inUse] using this
  obtain ⟨rd, hrd, hsize, heof⟩ := @rfs_readdir_none d s.uio_offset _ u v call.kmem hu hv hdead hcnt hmod
  have hreply : (rfs_readdir d.ip call.kmem s.uio_offset (min call.iov_len tsize)).bind xdr_putrddirres =
      some (replyOf [] true) := by
    rw [hrd, bind_some, xdr_putrddirres, hsize, putEntries, if_neg (by decide), heof]
    rfl
  have hpos : keptLen [] < min call.iov_len tsize := by
    rw [DIRBLKSIZ] at hcnt
    simp [keptLen]
    omega
  obtain ⟨s', hrun, hoff, hreof', hr_size, hgot', hended⟩ := nfs_readdir_reply hreof (by simp) hreply hpos
  have hsame : s'.uio_offset = s.uio_offset := hoff
  refine ⟨s', hrun, ⟨⟨u, v, hsame ▸ hu, hsame ▸ hv, ?_⟩, fun _ => ?_, fun _ => hsame ▸ hnone⟩, hended⟩
  · rw [hgot', hgot]
    simp
  · rw [hr_size, if_pos rfl, hsame, hnone]

/-- A call that does not come to the end returns the next entries. -/
theorem nfs_readdir_some {f : ℕ} (hs : Reached d s)
    (hcnt : DIRBLKSIZ ≤ min call.iov_len tsize) (hok : CallOk d s.uio_offset (min call.iov_len tsize))
    (hreof : ¬(s.reof = true ∧ s.r_size = s.uio_offset)) (hfst : d.pending s.uio_offset = f :: l) :
    ∃ s', nfs_readdir d.ip tsize s call = some s' ∧ Reached d s' ∧ s.got.length < s'.got.length := by
  obtain ⟨u, v, hu, hv, hgot⟩ := hs.reached
  obtain ⟨v1, w, rfl, hv1, hw, hdead, hf, -⟩ := pending_cons hv hfst
  obtain ⟨r, r', hspl, hlt, hr, hr', hblk, hoks, hroom, hreply⟩ := @reply_first d _ _ f u v1 w
    call.kmem hu hv1 hw hdead hf hcnt (hok.whole.imp_right fun ⟨f', hf', h⟩ => by
      obtain rfl : f = f' := by simpa [hfst] using hf'
      exact h)
  have hkept := hok.fits f (by simp [hfst]) _ (fill_initial _ _) (sentLen_dropLast_fill hroom)
  obtain ⟨t, ht⟩ := fill_initial (room s.uio_offset (min call.iov_len tsize) f)
    (d.inBlock s.uio_offset (min call.iov_len tsize) f)
  have hself := fill_eq_self (p := d.inBlock s.uio_offset (min call.iov_len tsize) f)
    (k := room s.uio_offset (min call.iov_len tsize) f)
  have hsome : d.inBlock s.uio_offset (min call.iov_len tsize) f ≠ [] := by
    rw [hblk]
    cases r with
    | nil => exact absurd (chain_nil.1 hr) hlt.ne
    | cons x r =>
      obtain rfl := (chain_cons.1 hr).1
      rw [filter_cons_of_pos (by simp [Directory.inUse, hf])]
      simp
  have hne := fill_ne_nil (k := room s.uio_offset (min call.iov_len tsize) f) hsome
  generalize fill (room s.uio_offset (min call.iov_len tsize) f)
    (d.inBlock s.uio_offset (min call.iov_len tsize) f) = p at *
  -- the records that are sent, and the last of them
  obtain ⟨q, q', hq, rfl, hq'⟩ := map_eq_append_iff.1 (hblk.symm.trans ht.symm)
  have hq0 : q ≠ [] := fun h => hne (h ▸ rfl)
  obtain ⟨q, l', rfl⟩ : ∃ q0 l', q = q0 ++ [l'] := ⟨_, _, (dropLast_append_getLast hq0).symm⟩
  have hall : (v1 ++ f :: w).filter d.inUse = q ++ l' :: (q' ++ r'.filter d.inUse) := by
    have hnone : v1.filter d.inUse = [] := filter_eq_nil_iff.2 fun p hp => by
      simp [Directory.inUse, hdead p hp]
    rw [hspl, filter_append, hnone, filter_append, hq]
    simp
  obtain ⟨v3, v2, hv3, hv2, hthis, hnx⟩ := pending_split hv hall
  have hp : ∀ e ∈ (q ++ [l']).map d.sent, e.Ok := fun e he => hoks e (ht ▸ mem_append_left _ he)
  obtain ⟨s', hrun, hoff, hreof', hr_size, hgot', hended⟩ := nfs_readdir_reply hreof hp hreply hkept
  have hpos : keptLen ((q ++ [l']).map d.sent) ≠ 0 := by
    have := (reclen_ge (d.sent l').d_name.length).2
    rw [keptLen, map_append, map_append, List.sum_append]
    simp
    omega
  have hlast : s'.uio_offset = l' + d_reclen d.ip.data l' := by
    rw [hoff, if_pos hpos, lastOffset, map_append, foldl_append]
    rfl
  refine ⟨s', hrun, ⟨⟨u ++ v3, v2, hlast ▸ hu.append hv3, hlast ▸ hv2, ?_⟩, fun h => ?_, fun h => ?_⟩, ?_⟩
  · rw [hgot', hgot, filterMap_append, filterMap_entry v3, hthis]
  · rw [hr_size]
    split_ifs with heof
    · -- the end was reached with nothing left over
      obtain ⟨hend, hroom'⟩ := of_decide_eq_true heof
      have hnil : t = [] := by
        have := congrArg length (ht.trans (hself (by omega)).symm)
        rw [length_append] at this
        exact length_eq_zero_iff.1 (by omega)
      rw [Directory.blockEnd, min_eq_right hend.le] at hr'
      have hr'nil := hr'.unique (fun a (ha : RecOk d.ip.data a) => ha.pos) (.nil _)
      rw [hlast, pending_eq hv2, hnx, map_eq_nil_iff.1 (hq'.trans hnil), hr'nil]
      rfl
    · rw [hreof', Bool.or_eq_true] at h
      exact hs.eof (h.resolve_right heof)
  · rw [hended] at h
    exact absurd (of_decide_eq_true h) hpos
  · rw [hgot', length_append, length_map, length_map, length_append]
    simp

/-- A call for entries that do not fit fails. -/
theorem nfs_readdir_crowded {f : ℕ} (hs : Reached d s)
    (hcnt : DIRBLKSIZ ≤ min call.iov_len tsize) (hmod : min call.iov_len tsize % DIRBLKSIZ = 0)
    (hreof : ¬(s.reof = true ∧ s.r_size = s.uio_offset)) (hfst : d.pending s.uio_offset = f :: l)
    (hkept : min call.iov_len tsize ≤ keptLen (fill (room s.uio_offset (min call.iov_len tsize) f)
      (d.inBlock s.uio_offset (min call.iov_len tsize) f))) :
    nfs_readdir d.ip tsize s call = none := by
  obtain ⟨u, v, hu, hv, -⟩ := hs.reached
  obtain ⟨v1, w, rfl, hv1, hw, hdead, hf, -⟩ := pending_cons hv hfst
  obtain ⟨-, -, -, -, -, -, -, hoks, -, hreply⟩ := @reply_first d _ _ f u v1 w call.kmem hu hv1 hw hdead hf
    hcnt (.inl hmod)
  have hp := fun e he => hoks e ((fill_initial (room s.uio_offset (min call.iov_len tsize) f) _).subset he)
  have hne : fill (room s.uio_offset (min call.iov_len tsize) f)
      (d.inBlock s.uio_offset (min call.iov_len tsize) f) ≠ [] := fun h => by
    rw [h, keptLen, map_nil, sum_nil] at hkept
    rw [DIRBLKSIZ] at hcnt
    omega
  obtain ⟨b', hrun⟩ := @getEntries_crowded _ ⟨call.rd_entries, []⟩ 0 _ (2 ^ 32 - 1) hp hkept hne _
  rw [nfs_readdir, if_neg hreof]
  simp only [hreply, xdr_getrddirres, replyOf]
  rw [getlong_putlong (by decide)]
  simp only [ne_eq, not_true_eq_false, if_false]
  rw [hrun]

/-! ### Runs -/

/-- A call after which nothing is returned, or that is for entries that fit. -/
def StepOk (d : Directory) (tsize : ℕ) (s : State) (call : Call) : Prop :=
  (s.reof = true ∧ s.r_size = s.uio_offset) ∨ CallOk d s.uio_offset (min call.iov_len tsize)

/-- All the calls of a run are such. -/
def RunOk (d : Directory) (tsize : ℕ) : State → List Call → Prop
  | _, [] => True
  | s, call :: calls => s.ended = true ∨
      StepOk d tsize s call ∧ ∀ s', nfs_readdir d.ip tsize s call = some s' → RunOk d tsize s' calls

theorem nfs_readdir_spec (hs : Reached d s)
    (hcnt : DIRBLKSIZ ≤ min call.iov_len tsize) (hok : StepOk d tsize s call) :
    ∃ s', nfs_readdir d.ip tsize s call = some s' ∧ Reached d s' ∧
      (s'.ended = true ∨ s.got.length < s'.got.length) := by
  by_cases hreof : s.reof = true ∧ s.r_size = s.uio_offset
  · refine ⟨{ s with ended := true }, by rw [nfs_readdir, if_pos hreof], ⟨hs.reached, hs.eof, fun _ => ?_⟩,
      .inl rfl⟩
    exact hreof.2 ▸ hs.eof hreof.1
  · have hok := hok.resolve_left hreof
    cases hpen : d.pending s.uio_offset with
    | nil =>
      obtain ⟨s', hrun, hs', hended⟩ := nfs_readdir_none hs hcnt hok hreof hpen
      exact ⟨s', hrun, hs', .inl hended⟩
    | cons f l =>
      obtain ⟨s', hrun, hs', hlt⟩ := nfs_readdir_some hs hcnt hok hreof hpen
      exact ⟨s', hrun, hs', .inr hlt⟩

theorem readdirs_ended (h : s.ended = true) :
    readdirs d.ip tsize s calls = some s := by
  cases calls with
  | nil => rfl
  | cons call calls => rw [readdirs, if_pos h]

theorem readdirs_spec (htsize : DIRBLKSIZ ≤ tsize)
    (hs : Reached d s) (hlen : ∀ call ∈ calls, DIRBLKSIZ ≤ call.iov_len) (hok : RunOk d tsize s calls) :
    ∃ s', readdirs d.ip tsize s calls = some s' ∧ Reached d s' ∧
      (s'.ended = true ∨ s.got.length + calls.length ≤ s'.got.length) := by
  induction calls generalizing s with
  | nil => exact ⟨s, rfl, hs, .inr le_rfl⟩
  | cons call calls ih =>
    obtain ⟨hcall, hlen⟩ := forall_mem_cons.1 hlen
    rw [readdirs]
    split_ifs with hended
    · exact ⟨s, rfl, hs, .inl hended⟩
    · obtain ⟨hstep, hok⟩ := hok.resolve_left hended
      obtain ⟨s1, hrun, hs1, hmore⟩ := nfs_readdir_spec hs (le_min hcall htsize) hstep
      obtain ⟨s', hrun', hs', hend⟩ := ih hs1 hlen (hok s1 hrun)
      refine ⟨s', by rw [hrun, bind_some, hrun'], hs', ?_⟩
      rcases hmore with hended | hlt
      · rw [readdirs_ended hended] at hrun'
        exact .inl (some_inj.1 hrun' ▸ hended)
      · exact hend.imp_right fun h => by rw [length_cons]; omega

/-- What a state has got is what the directory holds, up to some record. -/
theorem Reached.holds (hs : Reached d s) :
    s.got <+: entries d.ip ∧ (s.ended = true → s.got = entries d.ip) := by
  obtain ⟨u, v, hu, hv, hgot⟩ := hs.reached
  have hent : entries d.ip = s.got ++ v.filterMap (entry d.ip.data) := by
    rw [entries, records_eq hu hv, filterMap_append, hgot]
  refine ⟨⟨_, hent.symm⟩, fun h => ?_⟩
  rw [hent, filterMap_entry, ← pending_eq hv, hs.ended h]
  simp

/-- The calls that read a directory from its start, for buffers of `DIRBLKSIZ` bytes or more: if each
    of them is for whole blocks (or for entries that fill the reply before the rest is parsed) and what
    fills a reply fits in the buffer, then no call fails, they come to the end, and what they return
    is what the directory holds, in its order. The decoder stores nothing outside of the buffer, unless
    a reply has entries that fill all of it but one to seven bytes, and another one. -/
theorem readdir_exact (d : Directory) (mi_tsize : ℕ) (htsize : DIRBLKSIZ ≤ mi_tsize) (reof : Bool)
    (r_size : ℕ) (hreof : reof = true → d.pending r_size = []) (calls : List Call)
    (hlen : ∀ call ∈ calls, DIRBLKSIZ ≤ call.iov_len)
    (hok : RunOk d mi_tsize ⟨reof, r_size, 0, [], false⟩ calls) :
    (∃ s, readdirs d.ip mi_tsize ⟨reof, r_size, 0, [], false⟩ calls = some s ∧
      s.got <+: entries d.ip ∧ (s.ended = true → s.got = entries d.ip) ∧
      ((entries d.ip).length < calls.length → s.ended = true)) ∧
    ∀ mem count reply, (xdr_getrddirres mem count reply).1.Within count ↔ ¬Crowded count reply := by
  have hwf := d.wf
  rw [WellFormed, d.dirsize_eq] at hwf
  have hs : Reached d ⟨reof, r_size, 0, [], false⟩ := ⟨⟨[], _, .nil _, hwf, rfl⟩, hreof, by simp⟩
  obtain ⟨s, hrun, hs, hend⟩ := readdirs_spec htsize hs hlen hok
  obtain ⟨hini, hended⟩ := hs.holds
  refine ⟨⟨s, hrun, hini, hended, fun hlt => hend.resolve_right fun hle => ?_⟩, within_iff⟩
  have := hini.length_le
  simp only [length_nil] at hle
  omega

/-! ### A directory -/

/-- A block with `.` and `..`, and two names of `235` bytes, which fill the rest of it. -/
def twoNames : Mem := fun i =>
  if i < 24 then [2, 0, 0, 0, 12, 0, 1, 0, 46, 0, 0, 0, 2, 0, 0, 0, 12, 0, 2, 0, 46, 46, 0, 0].getD i 0
  else if i = 24 then 3
  else if i = 268 then 4
  else if (i - 24) % 244 = 4 then 244
  else if (i - 24) % 244 = 6 then 235
  else if (i - 24) % 244 < 8 ∨ 243 ≤ (i - 24) % 244 then 0
  else if i < 268 then 97
  else 98

theorem twoNames_tiles : Tiles twoNames 0 512 [0, 12, 24, 268] := by
  have hdot : RecOk twoNames 0 := ⟨by decide, by decide, by decide⟩
  have hdotd : RecOk twoNames 12 := ⟨by decide, by decide, by decide⟩
  have ha : RecOk twoNames 24 := ⟨by decide, by decide, by decide⟩
  have hb : RecOk twoNames 268 := ⟨by decide, by decide, by decide⟩
  exact .cons hdot (.cons hdotd (.cons ha (.cons hb (.nil _))))

theorem twoNames_records : WellFormed ⟨twoNames, 512, 0⟩ ∧ records ⟨twoNames, 512, 0⟩ = [0, 12, 24, 268] :=
  wellFormed_of_tiles twoNames_tiles

/-- The directory of that block. -/
def twoNamesDir : Directory where
  ip := ⟨twoNames, 512, 0⟩
  wf := twoNames_records.1
  whole := by decide
  size_lt := by decide
  names := by
    rw [twoNames_records.2]
    decide

theorem twoNamesDir_pending : twoNamesDir.pending 0 = [0, 12, 24, 268] := by
  rw [pending_eq (show Tiles twoNamesDir.ip.data 0 twoNamesDir.ip.i_size _ from twoNames_tiles)]
  decide

theorem length_sent (d : Directory) (o : ℕ) : (d.sent o).d_name.length = d_namlen d.ip.data o :=
  length_bytes _ _ _

theorem twoNames_namlen : d_namlen twoNamesDir.ip.data 0 = 1 ∧ d_namlen twoNamesDir.ip.data 12 = 2 ∧
    d_namlen twoNamesDir.ip.data 24 = 235 ∧ d_namlen twoNamesDir.ip.data 268 = 235 := by decide

/-- All of it is sent, and how many bytes it takes in the buffer of the client. -/
theorem twoNames_sent {c : ℕ} (h : 512 ≤ c) (hmod : c % 512 = 0) :
    fill (room 0 c 0) (twoNamesDir.inBlock 0 c 0) = twoNamesDir.inBlock 0 c 0 ∧
      keptLen (twoNamesDir.inBlock 0 c 0) = 520 := by
  have hst : start 0 c 0 = 0 := by simp [start]
  have hblk : twoNamesDir.inBlock 0 c 0 = [0, 12, 24, 268].map twoNamesDir.sent := by
    rw [Directory.inBlock, twoNamesDir_pending, hst, filter_eq_self.2]
    intro p hp
    have : p ≤ 268 := by revert p; decide
    rw [DIRBLKSIZ]
    exact decide_eq_true (by omega)
  obtain ⟨h1, h2, h3, h4⟩ := twoNames_namlen
  rw [hblk, room, hst]
  constructor
  · have hrndup : rndup 1 = 3 ∧ rndup 2 = 2 ∧ rndup 235 = 1 := by decide
    simp only [map_cons, map_nil, fill, length_entry, length_sent, h1, h2, h3, h4, hrndup]
    rw [if_neg (by omega), if_neg (by omega), if_neg (by omega), ite_self]
  · simp only [keptLen, map_cons, map_nil, length_sent, h1, h2, h3, h4]
    rfl

/-- The whole directory is asked for, but does not fit in the buffer as the client keeps it. -/
theorem names_crowded : ¬∀ (d : Directory) (mi_tsize : ℕ) (call : Call), DIRBLKSIZ ≤ mi_tsize →
    DIRBLKSIZ ≤ call.iov_len → nfs_readdir d.ip mi_tsize ⟨false, 0, 0, [], false⟩ call ≠ none := fun h => by
  have hs : Reached twoNamesDir ⟨false, 0, 0, [], false⟩ :=
    ⟨⟨[], _, .nil _, twoNames_tiles, rfl⟩, by simp, by simp⟩
  have hkept : 512 ≤ keptLen (fill (room 0 512 0) (twoNamesDir.inBlock 0 512 0)) := by
    rw [(twoNames_sent le_rfl rfl).1, (twoNames_sent le_rfl rfl).2]
    decide
  have hnone : nfs_readdir twoNamesDir.ip 8192 ⟨false, 0, 0, [], false⟩
      ⟨512, fun _ _ => 0, fun _ => 0⟩ = none :=
    nfs_readdir_crowded hs (show 512 ≤ 512 from le_rfl) (show 512 % 512 = 0 from rfl) (by simp)
      twoNamesDir_pending hkept
  exact h twoNamesDir 8192 ⟨512, fun _ _ => 0, fun _ => 0⟩ (by decide) (show 512 ≤ 512 from le_rfl) hnone

/-- In a buffer of two blocks there is room for all of it. -/
theorem readdir_exact_twoNames : ∃ s, readdirs twoNamesDir.ip 8192 ⟨false, 0, 0, [], false⟩
    [⟨1024, fun _ _ => 0, fun _ => 0⟩] = some s ∧ s.got <+: entries twoNamesDir.ip := by
  have hok : CallOk twoNamesDir 0 (min 1024 8192) := by
    refine ⟨.inl (by decide), fun f hf p hp _ => (keptLen_le_of_initial hp).trans_lt ?_⟩
    obtain rfl : 0 = f := by simpa [twoNamesDir_pending] using hf
    rw [(twoNames_sent (by decide) (by decide)).2]
    decide
  obtain ⟨s, hrun, hini, -⟩ := (readdir_exact twoNamesDir 8192 (by decide) false 0 (by simp)
    [⟨1024, fun _ _ => 0, fun _ => 0⟩] (by simp [DIRBLKSIZ]) (.inr ⟨.inr hok, fun _ _ => trivial⟩)).1
  exact ⟨s, hrun, hini⟩

end Uwisc.Nfs
