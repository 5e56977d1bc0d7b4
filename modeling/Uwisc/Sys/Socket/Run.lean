import Mathlib.Data.BitVec
import Uwisc.Lib.System
import Uwisc.Sys.Socket

/-!
# Runs of a socket buffer

Any sequence of calls of the routines for a socket buffer, from an empty one. Its counters are
those of the mbufs in it, modulo `2 ^ 16` (`Counted`), and every record has an mbuf.

A socket buffer stands for the bytes of each record (`Sockbuf.records`), and a call has the
meaning of its name on them (`Call.Means`). As long as the bytes and the charges fit in an
unsigned short the counters are exact, and every call returns and has its meaning
(`sockbuf_sound`); `sbflush` drops a record in each round at least.
-/

namespace Uwisc.Socket

open Lib

/-! ### Dropping bytes off records -/

section Records

variable {α : Type*} {R : List (List α)} {r x : List α} {rs : List (List α)} {n k : ℕ}

/-- Drops `n` elements off the front of some records; a record that ends there is dropped, the
    ones after it are kept. -/
def dropRecords : ℕ → List (List α) → List (List α)
  | _, [] => []
  | n, r :: rs =>
    if n < r.length then r.drop n :: rs
    else if n = r.length then rs
    else dropRecords (n - r.length) rs

theorem flatten_dropRecords (n : ℕ) (R : List (List α)) :
    (dropRecords n R).flatten = R.flatten.drop n := by
  induction R generalizing n with
  | nil => simp [dropRecords]
  | cons r rs ih =>
    rw [dropRecords, List.flatten_cons, List.drop_append]
    split_ifs with hlt heq
    · rw [List.flatten_cons, Nat.sub_eq_zero_of_le hlt.le, List.drop_zero]
    · rw [heq, List.drop_length, Nat.sub_self, List.drop_zero, List.nil_append]
    · rw [ih, List.drop_of_length_le (not_lt.1 hlt), List.nil_append]

theorem dropRecords_append : dropRecords (r.length + k) ((r ++ x) :: rs) = dropRecords k (x :: rs) := by
  rw [dropRecords, dropRecords, List.length_append, List.drop_append, Nat.add_sub_cancel_left,
    List.drop_of_length_le (Nat.le_add_right _ _), List.nil_append, Nat.add_sub_add_left]
  simp only [Nat.add_lt_add_iff_left, Nat.add_left_cancel_iff]

theorem length_dropRecords_le (n : ℕ) (R : List (List α)) : (dropRecords n R).length ≤ R.length := by
  induction R generalizing n with
  | nil => exact le_rfl
  | cons r rs ih =>
    rw [dropRecords]
    split_ifs
    · exact le_rfl
    · exact Nat.le_succ _
    · exact (ih _).trans (Nat.le_succ _)

/-- The first record is dropped. -/
theorem length_dropRecords_lt (h : r.length ≤ n) : (dropRecords n (r :: rs)).length ≤ rs.length := by
  rw [dropRecords, if_neg (not_lt.2 h)]
  split_ifs
  · exact le_rfl
  · exact length_dropRecords_le _ _

/-- A record at the front, unless it is empty. -/
def front (r : List α) (rs : List (List α)) : List (List α) := if r = [] then rs else r :: rs

theorem dropRecords_zero (r : List α) (rs : List (List α)) : dropRecords 0 (r :: rs) = front r rs := by
  rw [dropRecords, front]
  cases r with
  | nil => simp
  | cons a r => simp

end Records

/-! ### Counters and bytes -/

/-- The bytes of a chain. -/
def chainData (r : List Mbuf) : List UInt8 := r.flatMap Mbuf.data

/-- The bytes of each record. -/
def Sockbuf.records (sb : Sockbuf) : List (List UInt8) := sb.sb_mb.map chainData

/-- What the mbufs of a chain are charged. -/
def chainCharge (r : List Mbuf) : ℕ := (r.map Mbuf.charge).sum

/-- The counters are those of some mbufs. -/
structure Counted (sb : Sockbuf) (l : List Mbuf) : Prop where
  cc : sb.sb_cc = (chainLen l : BitVec 16)
  mbcnt : sb.sb_mbcnt = (chainCharge l : BitVec 16)

variable {sb sb' : Sockbuf} {l l' r ms : List Mbuf} {m n : Mbuf} {next : List (List Mbuf)} {len : ℕ}

@[simp] theorem length_data (m : Mbuf) : m.data.length = m.m_len := length_bytes _ _ _

@[simp] theorem chainLen_nil : chainLen [] = 0 := rfl
@[simp] theorem chainLen_cons (m : Mbuf) (l : List Mbuf) : chainLen (m :: l) = m.m_len + chainLen l := by
  simp [chainLen]
@[simp] theorem chainLen_append (l l' : List Mbuf) : chainLen (l ++ l') = chainLen l + chainLen l' := by
  simp [chainLen]

@[simp] theorem chainCharge_nil : chainCharge [] = 0 := rfl
@[simp] theorem chainCharge_cons (m : Mbuf) (l : List Mbuf) :
    chainCharge (m :: l) = m.charge + chainCharge l := by
  simp [chainCharge]
@[simp] theorem chainCharge_append (l l' : List Mbuf) :
    chainCharge (l ++ l') = chainCharge l + chainCharge l' := by
  simp [chainCharge]

@[simp] theorem chainData_nil : chainData [] = [] := rfl
@[simp] theorem chainData_cons (m : Mbuf) (l : List Mbuf) :
    chainData (m :: l) = m.data ++ chainData l := rfl
@[simp] theorem chainData_append (l l' : List Mbuf) :
    chainData (l ++ l') = chainData l ++ chainData l' := List.flatMap_append

@[simp] theorem length_chainData (l : List Mbuf) : (chainData l).length = chainLen l := by
  induction l with
  | nil => rfl
  | cons m l ih => simp [ih]

theorem Mbuf.charge_pos (m : Mbuf) : 0 < m.charge := lt_of_lt_of_le (by decide) (Nat.le_add_right _ _)

/-- An mbuf with a cluster is charged for both. -/
theorem Mbuf.charge_eq (m : Mbuf) : m.charge = MSIZE + if m.cluster then CLBYTES else 0 := by
  rw [charge]
  congr 1
  exact if_congr m.cluster_iff rfl rfl

theorem Mbuf.data_trim (h : len < m.m_len) : (m.trim len h).data = m.data.drop len :=
  (drop_bytes _ _ _ _).symm

theorem Mbuf.data_merge (h : Mergeable n m) : (n.merge m h).data = n.data ++ m.data := by
  have hnew := bytes_store n.dat (n.m_off + n.m_len) m.data
  have hold : SameOn n.dat (store n.dat (n.m_off + n.m_len) m.data) n.m_off (n.m_off + n.m_len) :=
    sameOn_store (.inl le_rfl)
  rw [length_data] at hnew
  rw [data, merge, bytes_add, hnew, hold.bytes_eq le_rfl le_rfl]
  rfl

theorem Mbuf.data_mget (m_type : ℕ) (bs : List UInt8) (h : bs.length ≤ MLEN) :
    (mget m_type bs h).data = bs := bytes_store _ _ _

theorem Mbuf.data_mcldup (m : Mbuf) (off : ℕ) (h : MSIZE ≤ off ∧ off + m.m_len ≤ 2 ^ 32) :
    (mcldup m off h).data = m.data := by
  have hnew := bytes_store (fun _ => 0) off m.data
  rwa [length_data] at hnew

variable {off : Option ℕ} {ret : ℤ} {fuel : ℕ}

theorem data_mCopy (h : mCopy m off = some n) : n.data = m.data := by
  cases off with
  | none => exact nomatch h
  | some off =>
    rw [mCopy] at h
    split_ifs at h
    · cases h
      exact m.data_mcldup _ _
    · cases h
      exact Mbuf.data_mget _ _ _

theorem Counted.congr (h : Counted sb l) (hcc : chainLen l' = chainLen l)
    (hmbcnt : chainCharge l' = chainCharge l) : Counted sb l' :=
  ⟨by rw [h.cc, hcc], by rw [h.mbcnt, hmbcnt]⟩

theorem Counted.sballoc (h : Counted sb l) (m : Mbuf) : Counted (sballoc sb m) (m :: l) := by
  constructor
  · rw [chainLen_cons, Nat.cast_add, add_comm, ← h.cc]
    rfl
  · rw [chainCharge_cons, Nat.cast_add, add_comm, ← h.mbcnt]
    rfl

theorem Counted.sbfree (h : Counted sb (m :: l)) : Counted (sbfree sb m) l := by
  obtain ⟨hcc, hmbcnt⟩ := h
  rw [chainLen_cons, Nat.cast_add] at hcc
  rw [chainCharge_cons, Nat.cast_add] at hmbcnt
  constructor
  · rw [Socket.sbfree, hcc]
    exact add_sub_cancel_left _ _
  · rw [Socket.sbfree, hmbcnt]
    exact add_sub_cancel_left _ _

/-! ### Putting mbufs in -/

/-- What is put in goes after the record, whether it is copied or linked. The counters are those
    of what was there and of the record. -/
theorem sbcompress_spec (h : Counted sb (l ++ r)) (ms : List Mbuf) :
    Counted (sbcompress sb ms r).1 (l ++ (sbcompress sb ms r).2) ∧
      chainData (sbcompress sb ms r).2 = chainData r ++ chainData ms ∧
      ((sbcompress sb ms r).2 = [] ↔ r = [] ∧ chainData ms = []) ∧
      (sbcompress sb ms r).1.sb_flags = sb.sb_flags := by
  induction ms generalizing sb r with
  | nil => exact ⟨h, by simp [sbcompress], by simp [sbcompress], rfl⟩
  | cons m ms ih =>
    rw [sbcompress]
    by_cases hm : m.m_len = 0
    · have hdata : m.data = [] := List.eq_nil_of_length_eq_zero (by rw [length_data, hm])
      obtain ⟨hcou, hbyt, hnil, hflg⟩ := ih h
      rw [if_pos hm, chainData_cons, hdata, List.nil_append]
      exact ⟨hcou, hbyt, hnil, hflg⟩
    · rw [if_neg hm]
      have hdata : m.data ≠ [] := fun heq => hm (by rw [← length_data, heq]; rfl)
      have hlink : Counted (sballoc sb m) (l ++ (r ++ [m])) :=
        (h.sballoc m).congr (by simp; omega) (by simp; omega)
      -- a record that has an mbuf, and then gets the others
      have hput : ∀ {sb1 : Sockbuf} {r1 : List Mbuf}, Counted sb1 (l ++ r1) → r1 ≠ [] →
          chainData r1 = chainData r ++ m.data → sb1.sb_flags = sb.sb_flags →
          Counted (sbcompress sb1 ms r1).1 (l ++ (sbcompress sb1 ms r1).2) ∧
            chainData (sbcompress sb1 ms r1).2 = chainData r ++ chainData (m :: ms) ∧
            ((sbcompress sb1 ms r1).2 = [] ↔ r = [] ∧ chainData (m :: ms) = []) ∧
            (sbcompress sb1 ms r1).1.sb_flags = sb.sb_flags := by
        intro sb1 r1 hcnt hne hbyt hflg
        obtain ⟨hcnt', hbyt', hnil', hflg'⟩ := ih hcnt
        refine ⟨hcnt', ?_, ?_, hflg'.trans hflg⟩
        · rw [hbyt', hbyt, chainData_cons, List.append_assoc]
        · rw [hnil', chainData_cons, List.append_eq_nil_iff]
          exact iff_of_false (fun h => hne h.1) fun h => hdata h.2.1
      rcases List.eq_nil_or_concat r with hr | ⟨r0, n, hr⟩
      · subst hr
        exact hput hlink (by simp) (by simp) rfl
      · rw [List.concat_eq_append] at hr
        subst hr
        rw [List.getLast?_concat, List.dropLast_concat]
        dsimp only
        by_cases hmerge : Mergeable n m
        · rw [dif_pos hmerge]
          refine hput ⟨?_, ?_⟩ (by simp) (by simp [Mbuf.data_merge]) rfl
          · have hlen : chainLen (l ++ (r0 ++ [n.merge m hmerge])) =
                chainLen (l ++ (r0 ++ [n])) + m.m_len := by
              simp [Mbuf.merge]
              omega
            rw [hlen, Nat.cast_add, ← h.cc]
          · have hcha : chainCharge (l ++ (r0 ++ [n.merge m hmerge])) =
                chainCharge (l ++ (r0 ++ [n])) := by
              simp [Mbuf.merge, Mbuf.charge]
            rw [hcha, ← h.mbcnt]
        · rw [dif_neg hmerge]
          exact hput hlink (by simp) (by simp) rfl

/-! ### Taking bytes off -/

/-- The loop of `sbdrop` drops the first bytes. -/
theorem sbdropLoop_spec (h : Counted sb (r ++ next.flatten)) (hle : len ≤ chainLen (r ++ next.flatten)) :
    ∃ sb' r' next', sbdropLoop sb r next len = .ok (sb', r', next') ∧
      Counted sb' (r' ++ next'.flatten) ∧ next' <:+ next ∧
      front (chainData r') (next'.map chainData) =
        dropRecords len (chainData r :: next.map chainData) ∧
      chainCharge (r' ++ next'.flatten) ≤ chainCharge (r ++ next.flatten) ∧
      sb'.sb_flags = sb.sb_flags := by
  induction sb, r, next, len using sbdropLoop.induct with
  | case1 sb r next =>
    refine ⟨sb, r, next, ?_, h, List.suffix_rfl, (dropRecords_zero _ _).symm, le_rfl, rfl⟩
    rw [sbdropLoop.eq_def, if_pos rfl]
  | case2 sb len hlen =>
    simp at hle
    exact absurd hle hlen
  | case3 sb len hlen m next ih =>
    obtain ⟨sb', r', next', hloop, hcnt, hsuf, hbyt, hcha, hflg⟩ := ih h hle
    refine ⟨sb', r', next', ?_, hcnt, hsuf.trans (List.suffix_cons _ _), ?_, hcha, hflg⟩
    · rw [sbdropLoop, if_neg hlen, hloop]
    · have hemp : dropRecords len ([] :: (m :: next).map chainData) =
          dropRecords len ((m :: next).map chainData) := by
        rw [dropRecords, if_neg (by simp), if_neg (by simpa using hlen)]
        rfl
      rw [hbyt, chainData_nil, hemp]
      rfl
  | case4 sb len hlen m mn next hlt =>
    refine ⟨{ sb with sb_cc := sb.sb_cc - len }, m.trim len hlt :: mn, next, ?_, ⟨?_, ?_⟩,
      List.suffix_rfl, ?_, ?_, rfl⟩
    · rw [sbdropLoop, if_neg hlen, dif_pos hlt]
    · have hsum : chainLen (m :: mn ++ next.flatten) =
          len + chainLen (m.trim len hlt :: mn ++ next.flatten) := by
        simp [Mbuf.trim]
        omega
      have hcc := h.cc
      rw [hsum, Nat.cast_add] at hcc
      rw [hcc]
      exact add_sub_cancel_left _ _
    · have hcha : (m.trim len hlt).charge = m.charge := by
        rw [Mbuf.charge_eq, Mbuf.charge_eq]
        rfl
      rw [List.cons_append, chainCharge_cons, hcha]
      exact h.mbcnt
    · have hdata : (m.trim len hlt).data ≠ [] := fun heq => by
        have := congrArg List.length heq
        rw [Mbuf.data_trim, List.length_drop, length_data, List.length_nil] at this
        omega
      rw [front, if_neg (by simp [hdata]), dropRecords, if_pos (by simp; omega), chainData_cons,
        chainData_cons, Mbuf.data_trim, List.drop_append_of_le_length (by rw [length_data]; omega)]
    · simp [Mbuf.charge_eq, Mbuf.trim]
  | case5 sb len hlen m mn next hle' ih =>
    obtain ⟨sb', r', next', hloop, hcnt, hsuf, hbyt, hcha, hflg⟩ :=
      ih h.sbfree (by simp at hle ⊢; omega)
    have hlen' : m.data.length ≤ len := by
      rw [length_data]
      omega
    refine ⟨sb', r', next', ?_, hcnt, hsuf, ?_, hcha.trans ?_, hflg⟩
    · rw [sbdropLoop, if_neg hlen, dif_neg hle', hloop]
    · rw [hbyt, ← length_data, chainData_cons, ← dropRecords_append (r := m.data),
        Nat.add_sub_cancel' hlen']
    · simp

/-- Dropping more bytes than there are is an error. -/
theorem sbdropLoop_panic (hlt : chainLen (r ++ next.flatten) < len) :
    sbdropLoop sb r next len = .error .sbdrop := by
  induction sb, r, next, len using sbdropLoop.induct with
  | case1 sb r next => exact absurd hlt (Nat.not_lt_zero _)
  | case2 sb len hlen => rw [sbdropLoop, if_neg hlen]
  | case3 sb len hlen m next ih => rw [sbdropLoop, if_neg hlen, ih hlt]
  | case4 sb len hlen m mn next hm =>
    simp at hlt
    omega
  | case5 sb len hlen m mn next hle' ih =>
    rw [sbdropLoop, if_neg hlen, dif_neg hle', ih (by simp at hlt ⊢; omega)]

theorem sbdropEmpty_spec (h : Counted sb (r ++ l)) :
    Counted (sbdropEmpty sb r).1 ((sbdropEmpty sb r).2 ++ l) ∧
      chainData (sbdropEmpty sb r).2 = chainData r ∧
      ((sbdropEmpty sb r).2 = [] ↔ chainData r = []) ∧
      chainCharge (sbdropEmpty sb r).2 ≤ chainCharge r ∧
      (sbdropEmpty sb r).1.sb_flags = sb.sb_flags := by
  induction r generalizing sb with
  | nil => exact ⟨h, rfl, ⟨fun _ => rfl, fun _ => rfl⟩, le_rfl, rfl⟩
  | cons m mn ih =>
    rw [sbdropEmpty]
    by_cases hm : m.m_len = 0
    · have hdata : m.data = [] := List.eq_nil_of_length_eq_zero (by rw [length_data, hm])
      obtain ⟨hcnt, hbyt, hnil, hcha, hflg⟩ := ih h.sbfree
      rw [if_pos hm, chainData_cons, hdata, List.nil_append, chainCharge_cons]
      exact ⟨hcnt, hbyt, hnil, hcha.trans (Nat.le_add_left _ _), hflg⟩
    · have hdata : m.data ≠ [] := fun heq => hm (by rw [← length_data, heq]; rfl)
      rw [if_neg hm]
      exact ⟨h, rfl, by simp [hdata], le_rfl, rfl⟩

/-! ### The invariant -/

/-- The counters are those of the mbufs, every record has an mbuf, and there is no lock. -/
structure Inv (sb : Sockbuf) : Prop where
  counted : Counted sb sb.sb_mb.flatten
  nonempty : [] ∉ sb.sb_mb
  unlocked : sb.sb_flags &&& 1 = 0

/-- The bytes and the charges fit in an unsigned short. -/
def Fits (sb : Sockbuf) : Prop :=
  chainLen sb.sb_mb.flatten < 65536 ∧ chainCharge sb.sb_mb.flatten < 65536

theorem Inv.cc (h : Inv sb) (hfits : Fits sb) : sb.sb_cc.toNat = chainLen sb.sb_mb.flatten := by
  have hcc := h.counted.cc
  rw [hcc]
  exact Nat.mod_eq_of_lt hfits.1

theorem Inv.mbcnt (h : Inv sb) (hfits : Fits sb) :
    sb.sb_mbcnt.toNat = chainCharge sb.sb_mb.flatten := by
  have hmbcnt := h.counted.mbcnt
  rw [hmbcnt]
  exact Nat.mod_eq_of_lt hfits.2

theorem flatten_records (sb : Sockbuf) : sb.records.flatten = chainData sb.sb_mb.flatten := by
  rw [Sockbuf.records]
  induction sb.sb_mb with
  | nil => rfl
  | cons r rs ih => rw [List.map_cons, List.flatten_cons, ih, List.flatten_cons, chainData_append]

theorem length_flatten_records (sb : Sockbuf) :
    sb.records.flatten.length = chainLen sb.sb_mb.flatten := by
  rw [flatten_records, length_chainData]

/-- `sbdrop` drops the first bytes. -/
theorem Inv.sbdrop (h : Inv sb) {len : ℤ} (hle : len.toNat ≤ chainLen sb.sb_mb.flatten) :
    ∃ sb', sbdrop sb len = .ok sb' ∧ Inv sb' ∧ sb'.records = dropRecords len.toNat sb.records ∧
      chainCharge sb'.sb_mb.flatten ≤ chainCharge sb.sb_mb.flatten := by
  have hfla : sb.sb_mb.headD [] ++ sb.sb_mb.tail.flatten = sb.sb_mb.flatten := by
    cases sb.sb_mb <;> rfl
  have hcou := h.counted
  rw [← hfla] at hcou hle
  obtain ⟨sb1, r, next, hloop, hcnt, hsuf, hbyt, hcha, hflg⟩ :=
    sbdropLoop_spec hcou hle
  obtain ⟨hcnt', hbyt', hnil, hcha', hflg'⟩ := sbdropEmpty_spec hcnt
  have hrec : dropRecords len.toNat (chainData (sb.sb_mb.headD []) :: sb.sb_mb.tail.map chainData) =
      dropRecords len.toNat sb.records := by
    rw [Sockbuf.records]
    cases hmb : sb.sb_mb with
    | nil =>
      have hzero : len.toNat = 0 := by
        rw [hmb] at hle
        exact Nat.le_zero.1 hle
      rw [hzero]
      rfl
    | cons r rs => rfl
  have hnon : [] ∉ next := fun hmem =>
    h.nonempty (List.mem_of_mem_tail (hsuf.subset hmem))
  have hloc : (sbdropEmpty sb1 r).1.sb_flags &&& 1 = 0 := by
    rw [hflg', hflg]
    exact h.unlocked
  rw [hfla] at hcha
  rw [chainCharge_append] at hcha
  rw [Socket.sbdrop, hloop]
  refine ⟨_, rfl, ?_⟩
  by_cases hr : (sbdropEmpty sb1 r).2 = []
  · have hdata := hnil.1 hr
    simp only [hr, if_true]
    refine ⟨⟨?_, hnon, hloc⟩, ?_, ?_⟩
    · rw [hr] at hcnt'
      exact ⟨hcnt'.cc, hcnt'.mbcnt⟩
    · rw [← hrec, ← hbyt, hdata]
      rfl
    · omega
  · have hdata : chainData r ≠ [] := fun heq => hr (hnil.2 heq)
    simp only [hr, if_false]
    refine ⟨⟨⟨hcnt'.cc, hcnt'.mbcnt⟩, ?_, hloc⟩, ?_, ?_⟩
    · rintro hmem
      rcases List.mem_cons.1 hmem with heq | hmem
      · exact hr heq.symm
      · exact hnon hmem
    · rw [← hrec, ← hbyt, front, if_neg hdata, Sockbuf.records, List.map_cons, hbyt']
    · rw [List.flatten_cons, chainCharge_append]
      omega

theorem sbdrop_panic {len : ℤ} (hlt : chainLen sb.sb_mb.flatten < len.toNat) :
    Socket.sbdrop sb len = .error .sbdrop := by
  have hfla : sb.sb_mb.headD [] ++ sb.sb_mb.tail.flatten = sb.sb_mb.flatten := by
    cases sb.sb_mb <;> rfl
  rw [← hfla] at hlt
  rw [Socket.sbdrop, sbdropLoop_panic hlt]
  rfl

theorem Inv.of_sbdrop (h : Inv sb) {len : ℤ} (heq : Socket.sbdrop sb len = .ok sb') : Inv sb' := by
  by_cases hle : len.toNat ≤ chainLen sb.sb_mb.flatten
  · obtain ⟨sb1, hdrop, hinv, -⟩ := h.sbdrop hle
    obtain rfl := Except.ok.inj (hdrop.symm.trans heq)
    exact hinv
  · exact nomatch (sbdrop_panic (not_le.1 hle)).symm.trans heq

theorem Inv.of_sbflushLoop (h : Inv sb) (heq : sbflushLoop fuel sb = some (.ok sb')) :
    Inv sb' := by
  induction fuel generalizing sb with
  | zero =>
    unfold sbflushLoop at heq
    split_ifs at heq
    cases heq
    exact h
  | succ fuel ih =>
    unfold sbflushLoop at heq
    split_ifs at heq
    · cases heq
      exact h
    · dsimp only at heq
      cases hdrop : Socket.sbdrop sb sb.sb_cc.toNat with
      | error e =>
        rw [hdrop] at heq
        cases heq
      | ok sb1 =>
        rw [hdrop] at heq
        exact ih (h.of_sbdrop hdrop) heq

/-- A socket buffer that is charged nothing is empty. -/
theorem Inv.empty (h : Inv sb) (hfits : Fits sb) (hzero : sb.sb_mbcnt = 0) :
    sb.sb_mb = [] ∧ sb.sb_cc = 0 := by
  have hcha := h.mbcnt hfits
  rw [hzero] at hcha
  have hmb : sb.sb_mb = [] := by
    cases hmb : sb.sb_mb with
    | nil => rfl
    | cons r rs =>
      cases r with
      | nil => exact absurd (hmb ▸ List.mem_cons_self) h.nonempty
      | cons m r =>
        have hpos := m.charge_pos
        rw [hmb] at hcha
        simp at hcha
        omega
  have hcc := h.counted.cc
  rw [hmb] at hcc
  exact ⟨hmb, hcc⟩

/-- A record is dropped in every round of `sbflush`. -/
theorem Inv.sbflushLoop (h : Inv sb) (hfits : Fits sb) (hfuel : sb.sb_mb.length ≤ fuel) :
    ∃ sb', sbflushLoop fuel sb = some (.ok sb') ∧ Inv sb' ∧ sb'.sb_mb = [] ∧ sb'.sb_cc = 0 ∧
      sb'.sb_mbcnt = 0 := by
  induction fuel generalizing sb with
  | zero =>
    have hmb : sb.sb_mb = [] := List.eq_nil_of_length_eq_zero (Nat.le_zero.1 hfuel)
    have hcc := h.counted.cc
    have hmbcnt := h.counted.mbcnt
    rw [hmb] at hcc hmbcnt
    have hzero : sb.sb_mbcnt = 0 := hmbcnt
    refine ⟨sb, ?_, h, hmb, hcc, hzero⟩
    unfold Socket.sbflushLoop
    rw [if_pos hzero]
  | succ fuel ih =>
    unfold Socket.sbflushLoop
    by_cases hzero : sb.sb_mbcnt = 0
    · obtain ⟨hmb, hcc⟩ := h.empty hfits hzero
      rw [if_pos hzero]
      exact ⟨sb, rfl, h, hmb, hcc, hzero⟩
    · have hcc := h.cc hfits
      have hall : (sb.sb_cc.toNat : ℤ).toNat ≤ chainLen sb.sb_mb.flatten := hcc.le
      obtain ⟨sb', heq, h', hrec, hcha⟩ := h.sbdrop hall
      rw [Int.toNat_natCast, hcc, ← length_flatten_records] at hrec
      have hbyt : chainLen sb'.sb_mb.flatten = 0 := by
        rw [← length_flatten_records, hrec, flatten_dropRecords, List.drop_length]
        rfl
      have hleng : sb'.sb_mb.length ≤ fuel := by
        have hle : sb'.records.length = sb'.sb_mb.length := List.length_map _
        rw [← hle, hrec]
        cases hmb : sb.sb_mb with
        | nil =>
          have hmbcnt := h.counted.mbcnt
          rw [hmb] at hmbcnt
          exact absurd hmbcnt hzero
        | cons r rs =>
          have hrs : sb.records = chainData r :: rs.map chainData := by
            rw [Sockbuf.records, hmb, List.map_cons]
          rw [hmb, List.length_cons] at hfuel
          rw [hrs]
          refine (length_dropRecords_lt ?_).trans ?_
          · rw [List.flatten_cons, List.length_append]
            exact Nat.le_add_right _ _
          · rw [List.length_map]
            omega
      rw [if_neg hzero]
      dsimp only
      rw [heq]
      exact ih h' ⟨by omega, by have := hfits.2; omega⟩ hleng

theorem Inv.sbflush (h : Inv sb) (hfits : Fits sb) (hfuel : sb.sb_mb.length ≤ fuel) :
    ∃ sb', sbflush fuel sb = some (.ok sb') ∧ Inv sb' ∧ sb'.records = [] := by
  obtain ⟨sb', heq, h', hmb, hcc, hmbcnt⟩ := h.sbflushLoop hfits hfuel
  refine ⟨sb', ?_, h', by rw [Sockbuf.records, hmb]; rfl⟩
  have hunl := h.unlocked
  rw [Socket.sbflush, if_neg (by simpa using hunl), heq]
  simp [Except.bind, hmb, hcc, hmbcnt]

theorem counted_foldl_sbfree (h : Counted sb (r ++ l)) :
    Counted (r.foldl sbfree sb) l ∧ (r.foldl sbfree sb).sb_flags = sb.sb_flags := by
  induction r generalizing sb with
  | nil => exact ⟨h, rfl⟩
  | cons m r ih => exact ih h.sbfree

theorem Inv.sbdroprecord (h : Inv sb) :
    Inv (sbdroprecord sb) ∧ (sbdroprecord sb).records = sb.records.tail := by
  rw [Socket.sbdroprecord]
  cases hmb : sb.sb_mb with
  | nil => exact ⟨h, by rw [Sockbuf.records, hmb]; rfl⟩
  | cons r rs =>
    obtain ⟨hcou, hnon, hunl⟩ := h
    rw [hmb] at hcou hnon
    obtain ⟨hcnt, hflg⟩ := counted_foldl_sbfree hcou
    exact ⟨⟨⟨hcnt.cc, hcnt.mbcnt⟩, fun hmem => hnon (List.mem_cons_of_mem _ hmem),
      (congrArg (· &&& 1) hflg).trans hunl⟩, by rw [Sockbuf.records, Sockbuf.records, hmb]; rfl⟩

theorem Inv.sbappend (h : Inv sb) (m : List Mbuf) :
    Inv (sbappend sb m) ∧ (sbappend sb m).records = if chainData m = [] then sb.records
      else sb.records.dropLast ++ [sb.records.getLast?.getD [] ++ chainData m] := by
  obtain ⟨hcou, hnon, hunl⟩ := h
  rw [Socket.sbappend]
  by_cases hm : m = []
  · rw [if_pos hm, if_pos (by rw [hm]; rfl)]
    exact ⟨⟨hcou, hnon, hunl⟩, rfl⟩
  rw [if_neg hm, Sockbuf.records, Sockbuf.records]
  rcases List.eq_nil_or_concat sb.sb_mb with hmb | ⟨rs, r, hmb⟩
  · -- the first record, if there is something to put in it
    rw [hmb] at hcou
    obtain ⟨hcnt, hbyt, hnil, hflg⟩ := sbcompress_spec (l := []) (r := []) hcou m
    rw [hmb]
    dsimp only [List.getLast?_nil, Option.getD_none, List.dropLast_nil, List.nil_append]
    rw [← hflg] at hunl
    by_cases hdata : chainData m = []
    · have hr := hnil.2 ⟨rfl, hdata⟩
      rw [hr] at hcnt
      rw [if_pos hr, if_pos hdata]
      exact ⟨⟨⟨hcnt.cc, hcnt.mbcnt⟩, List.not_mem_nil, hunl⟩, rfl⟩
    · have hr : (sbcompress sb m []).2 ≠ [] := fun heq => hdata (hnil.1 heq).2
      rw [if_neg hr, if_neg hdata]
      refine ⟨⟨⟨?_, ?_⟩, fun hmem => hr (List.mem_singleton.1 hmem).symm, hunl⟩, ?_⟩
      · simpa using hcnt.cc
      · simpa using hcnt.mbcnt
      · simpa using hbyt
  · rw [List.concat_eq_append] at hmb
    have hr : r ≠ [] := by
      rintro rfl
      exact hnon (hmb ▸ by simp)
    rw [hmb, List.flatten_append, List.flatten_singleton] at hcou
    obtain ⟨hcnt, hbyt, hnil, hflg⟩ := sbcompress_spec hcou m
    have hr' : (sbcompress sb m r).2 ≠ [] := fun heq => hr (hnil.1 heq).1
    rw [hmb, List.getLast?_concat, List.dropLast_concat]
    dsimp only [Option.getD_some]
    rw [if_neg hr']
    rw [← hflg] at hunl
    refine ⟨⟨⟨?_, ?_⟩, fun hmem => ?_, hunl⟩, ?_⟩
    · simpa using hcnt.cc
    · simpa using hcnt.mbcnt
    · rcases List.mem_append.1 hmem with hmem | hmem
      · exact hnon (hmb ▸ List.mem_append_left _ hmem)
      · exact hr' (List.mem_singleton.1 hmem).symm
    · rw [List.map_append, List.map_append, List.map_singleton, List.map_singleton, hbyt,
        List.getLast?_concat, List.dropLast_concat, Option.getD_some]
      split_ifs with hdata
      · rw [hdata, List.append_nil]
      · rfl

/-- A new record, of some mbufs that are charged and of a chain. -/
theorem Inv.put (h : Inv sb) {sb1 : Sockbuf} {r : List Mbuf}
    (hcnt : Counted sb1 (sb.sb_mb.flatten ++ r)) (hr : r ≠ []) (hmb : sb1.sb_mb = sb.sb_mb)
    (hflg : sb1.sb_flags = sb.sb_flags) (m : List Mbuf) :
    Inv { (sbcompress sb1 m r).1 with sb_mb := sb1.sb_mb ++ [(sbcompress sb1 m r).2] } ∧
      ({ (sbcompress sb1 m r).1 with
        sb_mb := sb1.sb_mb ++ [(sbcompress sb1 m r).2] } : Sockbuf).records =
          sb.records ++ [chainData r ++ chainData m] := by
  obtain ⟨hcou, hbyt, hnil, hflg'⟩ := sbcompress_spec hcnt m
  rw [hmb]
  refine ⟨⟨⟨?_, ?_⟩, fun hmem => ?_, ?_⟩, ?_⟩
  · simpa using hcou.cc
  · simpa using hcou.mbcnt
  · rcases List.mem_append.1 hmem with hmem | hmem
    · exact h.nonempty hmem
    · exact hr (hnil.1 (List.mem_singleton.1 hmem).symm).1
  · rw [hflg', hflg]
    exact h.unlocked
  · rw [Sockbuf.records, List.map_append, List.map_singleton, hbyt]
    rfl

/-! ### Every call -/

/-- A call, with what comes of asking for mbufs. -/
inductive Call
  | sbappend (m : List Mbuf)
  | sbappendrecord (m0 : List Mbuf)
  | sbappendaddr (asa : Vector UInt8 16) (m0 rights0 : List Mbuf) (get : Bool) (off : Option ℕ)
  | sbappendrights (m0 rights : List Mbuf) (off : Option ℕ)
  | sbdrop (len : ℤ)
  | sbdroprecord
  | sbflush

/-- What a call returns, if anything, and the socket buffer after it. A round of `sbflush` drops
    a record. -/
def exec (sb : Sockbuf) : Call → Option (Except Panic (ℤ × Sockbuf))
  | .sbappend m => some (.ok (0, Socket.sbappend sb m))
  | .sbappendrecord m0 => some (.ok (0, Socket.sbappendrecord sb m0))
  | .sbappendaddr asa m0 rights0 get off => some (.ok (Socket.sbappendaddr sb asa m0 rights0 get off))
  | .sbappendrights m0 rights off => some (Socket.sbappendrights sb m0 rights off)
  | .sbdrop len => some ((Socket.sbdrop sb len).map fun sb => (0, sb))
  | .sbdroprecord => some (.ok (0, Socket.sbdroprecord sb))
  | .sbflush => (Socket.sbflush sb.sb_mb.length sb).map fun r => r.map fun sb => (0, sb)

/-- The runs, from an empty socket buffer that is not locked. -/
def system : System Sockbuf Call where
  init := {sb | sb.sb_cc = 0 ∧ sb.sb_mbcnt = 0 ∧ sb.sb_mb = [] ∧ sb.sb_flags &&& 1 = 0}
  step sb c sb' := ∃ ret, exec sb c = some (.ok (ret, sb'))

/-- A call may drop what there is. `sbappendrights` is for access rights. -/
def Allowed (sb : Sockbuf) : Call → Prop
  | .sbappendrights _ rights _ => rights ≠ []
  | .sbdrop len => len ≤ sb.sb_cc.toNat
  | _ => True

/-- What a call that returns `ret` means for the bytes of the records. -/
def Call.Means (ret : ℤ) (R R' : List (List UInt8)) : Call → Prop
  | .sbappend m =>
    R' = if chainData m = [] then R else R.dropLast ++ [R.getLast?.getD [] ++ chainData m]
  | .sbappendrecord m0 => R' = if m0 = [] then R else R ++ [chainData m0]
  | .sbappendaddr asa m0 rights0 _ _ =>
    ret = 0 ∧ R' = R ∨
      ret = 1 ∧ R' = R ++ [asa.toList ++ rights0.head?.elim [] Mbuf.data ++ chainData m0]
  | .sbappendrights m0 rights _ =>
    ret = 0 ∧ R' = R ∨ ret = 1 ∧ R' = R ++ [rights.head?.elim [] Mbuf.data ++ chainData m0]
  | .sbdrop len => R' = dropRecords len.toNat R ∧ R'.flatten = R.flatten.drop len.toNat
  | .sbdroprecord => R' = R.tail
  | .sbflush => R' = []

theorem Inv.sbappendrecord (h : Inv sb) (m0 : List Mbuf) :
    Inv (sbappendrecord sb m0) ∧ (sbappendrecord sb m0).records =
      if m0 = [] then sb.records else sb.records ++ [chainData m0] := by
  cases m0 with
  | nil => exact ⟨h, rfl⟩
  | cons m0 m =>
    have hcnt : Counted (sballoc sb m0) (sb.sb_mb.flatten ++ [m0]) :=
      (h.counted.sballoc m0).congr (by simp; omega) (by simp; omega)
    obtain ⟨hinv, hrec⟩ := h.put hcnt (List.cons_ne_nil _ _) rfl rfl m
    rw [if_neg (List.cons_ne_nil _ _)]
    exact ⟨hinv, hrec.trans (by simp)⟩

theorem Inv.sbappendrights (h : Inv sb) {m0 rights : List Mbuf} :
    (rights ≠ [] → ∃ ret sb', sbappendrights sb m0 rights off = .ok (ret, sb')) ∧
      ∀ ret sb', sbappendrights sb m0 rights off = .ok (ret, sb') → Inv sb' ∧
        (Call.sbappendrights m0 rights off).Means ret sb.records sb'.records := by
  cases rights with
  | nil => exact ⟨fun h => absurd rfl h, fun _ _ h => nomatch h⟩
  | cons rights rest =>
    rw [Socket.sbappendrights]
    split_ifs with hspc
    · refine ⟨fun _ => ⟨_, _, rfl⟩, fun ret sb' heq => ?_⟩
      cases heq
      exact ⟨h, .inl ⟨rfl, rfl⟩⟩
    · cases hcopy : mCopy rights off with
      | none =>
        refine ⟨fun _ => ⟨_, _, rfl⟩, fun ret sb' heq => ?_⟩
        cases heq
        exact ⟨h, .inl ⟨rfl, rfl⟩⟩
      | some m =>
        refine ⟨fun _ => ⟨_, _, rfl⟩, fun ret sb' heq => ?_⟩
        cases heq
        have hcnt : Counted (sballoc sb m) (sb.sb_mb.flatten ++ [m]) :=
          (h.counted.sballoc m).congr (by simp; omega) (by simp; omega)
        obtain ⟨hinv, hrec⟩ := h.put hcnt (List.cons_ne_nil _ _) rfl rfl m0
        refine ⟨hinv, .inr ⟨rfl, hrec.trans ?_⟩⟩
        rw [chainData_cons, chainData_nil, List.append_nil, data_mCopy hcopy]
        rfl

theorem Inv.sbappendaddr (h : Inv sb) {asa : Vector UInt8 16} {m0 rights0 : List Mbuf} {get : Bool}
    (heq : sbappendaddr sb asa m0 rights0 get off = (ret, sb')) :
    Inv sb' ∧ (Call.sbappendaddr asa m0 rights0 get off).Means ret sb.records sb'.records := by
  have hfail : (0, sb) = (ret, sb') → Inv sb' ∧
      (Call.sbappendaddr asa m0 rights0 get off).Means ret sb.records sb'.records := fun heq => by
    cases heq
    exact ⟨h, .inl ⟨rfl, rfl⟩⟩
  have hsize : asa.toList.length ≤ MLEN := by simp [MLEN]
  have hcnt : Counted (sballoc sb (mget MT_SONAME asa.toList hsize))
      (sb.sb_mb.flatten ++ [mget MT_SONAME asa.toList hsize]) :=
    (h.counted.sballoc _).congr (by simp; omega) (by simp; omega)
  -- a record of the address only
  have halone := h.put hcnt (List.cons_ne_nil _ _) rfl rfl m0
  rw [chainData_cons, chainData_nil, List.append_nil, Mbuf.data_mget] at halone
  unfold Socket.sbappendaddr at heq
  dsimp only at heq
  split_ifs at heq with hspc hget
  · exact hfail heq
  · exact hfail heq
  · cases rights0 with
    | nil =>
      cases heq
      refine ⟨halone.1, .inr ⟨rfl, halone.2.trans ?_⟩⟩
      rw [List.head?_nil, Option.elim_none, List.append_nil]
    | cons rights rest =>
      dsimp only at heq
      split_ifs at heq with hrig
      · cases hcopy : mCopy rights off with
        | none =>
          rw [hcopy] at heq
          exact hfail heq
        | some n =>
          rw [hcopy] at heq
          cases heq
          have hcnt' : Counted (sballoc (sballoc sb n) (mget MT_SONAME asa.toList hsize))
              (sb.sb_mb.flatten ++ [mget MT_SONAME asa.toList hsize, n]) :=
            ((h.counted.sballoc n).sballoc _).congr (by simp; omega) (by simp; omega)
          obtain ⟨hinv, hrec⟩ := h.put hcnt' (List.cons_ne_nil _ _) rfl rfl m0
          refine ⟨hinv, .inr ⟨rfl, hrec.trans ?_⟩⟩
          rw [chainData_cons, chainData_cons, chainData_nil, List.append_nil, Mbuf.data_mget,
            data_mCopy hcopy]
          rfl
      · cases heq
        have hdata : rights.data = [] := by
          refine List.eq_nil_of_length_eq_zero ?_
          rw [length_data]
          exact not_not.1 hrig
        refine ⟨halone.1, .inr ⟨rfl, halone.2.trans ?_⟩⟩
        rw [List.head?_cons, Option.elim_some, hdata, List.append_nil]

/-- What a call that returns does. -/
theorem Inv.exec (h : Inv sb) {call : Call} (heq : exec sb call = some (.ok (ret, sb'))) :
    Inv sb' := by
  cases call with
  | sbappend m =>
    cases heq
    exact (h.sbappend m).1
  | sbappendrecord m0 =>
    cases heq
    exact (h.sbappendrecord m0).1
  | sbappendaddr asa m0 rights0 get off =>
    exact (h.sbappendaddr (Except.ok.inj (Option.some.inj heq))).1
  | sbappendrights m0 rights off => exact (h.sbappendrights.2 _ _ (Option.some.inj heq)).1
  | sbdrop len =>
    cases hdrop : Socket.sbdrop sb len with
    | error e =>
      rw [Socket.exec, hdrop] at heq
      cases heq
    | ok sb1 =>
      rw [Socket.exec, hdrop] at heq
      cases heq
      exact h.of_sbdrop hdrop
  | sbdroprecord =>
    cases heq
    exact h.sbdroprecord.1
  | sbflush =>
    rw [Socket.exec, Socket.sbflush, if_neg (by simpa using h.unlocked)] at heq
    rcases hloop : Socket.sbflushLoop sb.sb_mb.length sb with _ | (e | sb1)
    · rw [hloop] at heq
      cases heq
    · rw [hloop] at heq
      cases heq
    · rw [hloop] at heq
      simp only [Option.map_some, Except.bind] at heq
      split_ifs at heq
      · cases heq
      · cases heq
        exact h.of_sbflushLoop hloop

/-- In every run, as long as the bytes and the charges fit in an unsigned short, the counters are
    exact, and every call returns and means what it should. -/
theorem sockbuf_sound (hs : system.Reachable sb) (hfits : Fits sb) :
    sb.sb_cc.toNat = (sb.sb_mb.flatten.map Mbuf.m_len).sum ∧
    sb.sb_mbcnt.toNat =
      (sb.sb_mb.flatten.map fun m => MSIZE + if m.cluster then CLBYTES else 0).sum ∧
    ∀ call, Allowed sb call → ∃ ret sb', exec sb call = some (.ok (ret, sb')) ∧
      call.Means ret sb.records sb'.records := by
  have hinv : Inv sb := by
    refine hs.invariant (fun sb hs => ?_) fun _ _ _ h ⟨_, heq⟩ => h.exec heq
    obtain ⟨hcc, hmbcnt, hmb, hflg⟩ := hs
    exact ⟨⟨by rw [hcc, hmb]; rfl, by rw [hmbcnt, hmb]; rfl⟩, by rw [hmb]; exact List.not_mem_nil, hflg⟩
  have hcha : chainCharge sb.sb_mb.flatten =
      (sb.sb_mb.flatten.map fun m => MSIZE + if m.cluster then CLBYTES else 0).sum := by
    rw [chainCharge]
    exact congrArg List.sum (List.map_congr_left fun m _ => m.charge_eq)
  refine ⟨hinv.cc hfits, (hinv.mbcnt hfits).trans hcha, fun call hc => ?_⟩
  cases call with
  | sbappend m => exact ⟨_, _, rfl, (hinv.sbappend m).2⟩
  | sbappendrecord m0 => exact ⟨_, _, rfl, (hinv.sbappendrecord m0).2⟩
  | sbappendaddr asa m0 rights0 get off => exact ⟨_, _, rfl, (hinv.sbappendaddr rfl).2⟩
  | sbappendrights m0 rights off =>
    obtain ⟨ret, sb', heq⟩ := hinv.sbappendrights.1 hc
    exact ⟨ret, sb', congrArg some heq, (hinv.sbappendrights.2 _ _ heq).2⟩
  | sbdrop len =>
    have hle : len.toNat ≤ chainLen sb.sb_mb.flatten := by
      have hlen : len ≤ sb.sb_cc.toNat := hc
      have := hinv.cc hfits
      omega
    obtain ⟨sb', heq, -, hrec, -⟩ := hinv.sbdrop hle
    refine ⟨0, sb', by rw [exec, heq]; rfl, hrec, ?_⟩
    rw [hrec, flatten_dropRecords]
  | sbdroprecord => exact ⟨_, _, rfl, hinv.sbdroprecord.2⟩
  | sbflush =>
    obtain ⟨sb', heq, -, hrec⟩ := hinv.sbflush hfits le_rfl
    exact ⟨0, sb', by rw [exec, heq]; rfl, hrec⟩

/-- A record of three bytes in an empty socket buffer. -/
def threeBytes : Sockbuf :=
  sbappendrecord ⟨0, 4096, 0, 8192, [], 0⟩ [mget 1 [1, 2, 3] (by decide)]

/-- Two of three bytes are dropped. -/
theorem sockbuf_sound_threeBytes : threeBytes.sb_cc.toNat = 3 ∧ threeBytes.sb_mbcnt.toNat = 128 ∧
    ∃ ret sb', exec threeBytes (.sbdrop 2) = some (.ok (ret, sb')) ∧ sb'.records = [[3]] := by
  have hs : system.Reachable threeBytes :=
    .step (a := .sbappendrecord _) (.init ⟨rfl, rfl, rfl, rfl⟩) ⟨0, rfl⟩
  obtain ⟨hcc, hmbcnt, hcalls⟩ := sockbuf_sound hs ⟨by decide, by decide⟩
  have hle : (2 : ℤ) ≤ threeBytes.sb_cc.toNat := by decide
  obtain ⟨ret, sb', heq, hmeans, -⟩ := hcalls (.sbdrop 2) hle
  refine ⟨hcc.trans (by decide), hmbcnt.trans (by decide), ret, sb', heq, hmeans.trans ?_⟩
  decide

end Uwisc.Socket
