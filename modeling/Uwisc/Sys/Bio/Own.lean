import Uwisc.Sys.Bio.Spec

/-!
# Who holds a buffer

A buffer is on a free list, or it is the driver's that will release it, or a process holds it: one
that the driver may still have (`waits`), or does not (`quiet`). What a function does to the buffers of
the process `p` that runs is said by `Own`, with the buffers it holds before and after.
-/

namespace Uwisc.Bio

open Function List

variable {n : ℕ}

/-- Each buffer is held by one process at most, and on one free list if and only if it is not busy. -/
structure Tokens (k : Kernel n) (quiet waits : ℕ → List (Fin n)) : Prop where
  free : ∀ b, k.frees b = if (k.buf b).busy then 0 else 1
  active : ∀ b, (k.buf b).active → (k.buf b).busy ∧ (k.buf b).done = false
  async : ∀ b, (k.buf b).async → (k.buf b).active
  nodup : ∀ p, (quiet p ++ waits p).Nodup
  owned : ∀ p, ∀ b ∈ quiet p ++ waits p, (k.buf b).busy ∧ (k.buf b).async = false
  alone : ∀ p q b, b ∈ quiet p ++ waits p → b ∈ quiet q ++ waits q → p = q
  quiet : ∀ p, ∀ b ∈ quiet p, (k.buf b).active = false

/-- The process `p` holds the buffers `Q`, and waits for `V`. -/
def Own (k : Kernel n) (quiet waits : ℕ → List (Fin n)) (p : ℕ) (Q V : List (Fin n)) : Prop :=
  Tokens k (update quiet p Q) (update waits p V)

variable {k k' : Kernel n} {quiet waits : ℕ → List (Fin n)} {p : ℕ} {Q V Q' V' : List (Fin n)}
  {b x : Fin n}

/-- The flags of a buffer that say whose it is, and the free lists it is on. -/
structure Same (k k' : Kernel n) (x : Fin n) : Prop where
  busy : (k'.buf x).busy = (k.buf x).busy
  active : (k'.buf x).active = (k.buf x).active
  async : (k'.buf x).async = (k.buf x).async
  done : (k'.buf x).done = (k.buf x).done
  frees : k'.frees x = k.frees x

theorem Same.of_eq (hbuf : k'.buf x = k.buf x) (hfrees : k'.frees x = k.frees x) : Same k k' x := by
  constructor
  all_goals first | rw [hbuf] | exact hfrees

theorem Tokens.own (h : Tokens k quiet waits) (p : ℕ) : Own k quiet waits p (quiet p) (waits p) := by
  rwa [Own, update_eq_self, update_eq_self]

section

variable (h : Own k quiet waits p Q V)

include h

/-- One buffer changes hands. -/
theorem Own.change (b : Fin n)
    (hout : ∀ q ≠ p, b ∉ quiet q ++ waits q) (hsame : ∀ x ≠ b, Same k k' x)
    (hmem : ∀ x ≠ b, (x ∈ Q' ↔ x ∈ Q) ∧ (x ∈ V' ↔ x ∈ V)) (hnd : (Q' ++ V').Nodup)
    (hfree : k'.frees b = if (k'.buf b).busy then 0 else 1)
    (hact : (k'.buf b).active → (k'.buf b).busy ∧ (k'.buf b).done = false)
    (hasy : (k'.buf b).async → (k'.buf b).active)
    (howned : b ∈ Q' ++ V' → (k'.buf b).busy ∧ (k'.buf b).async = false)
    (hquiet : b ∈ Q' → (k'.buf b).active = false) : Own k' quiet waits p Q' V' := by
  obtain ⟨free, active, async, nodup, owned, alone, quieted⟩ := h
  -- what is held after the change, of the other buffers
  have hheld : ∀ q, ∀ x ≠ b, x ∈ update quiet p Q' q ++ update waits p V' q ↔
        x ∈ update quiet p Q q ++ update waits p V q := by
    intro q x hx
    by_cases hq : q = p
    · subst hq
      simp only [update_self, mem_append, (hmem x hx).1, (hmem x hx).2]
    · simp only [update_of_ne hq]
  have hself : ∀ q, b ∈ update quiet p Q' q ++ update waits p V' q → q = p ∧ b ∈ Q' ++ V' := by
    intro q hb
    by_cases hq : q = p
    · subst hq
      rw [update_self, update_self] at hb
      exact ⟨rfl, hb⟩
    · rw [update_of_ne hq, update_of_ne hq] at hb
      exact absurd hb (hout q hq)
  constructor
  · intro x
    by_cases hx : x = b
    · rw [hx, hfree]
    · rw [(hsame x hx).frees, (hsame x hx).busy, free x]
  · intro x
    by_cases hx : x = b
    · rwa [hx]
    · rw [(hsame x hx).active, (hsame x hx).busy, (hsame x hx).done]
      exact active x
  · intro x
    by_cases hx : x = b
    · rwa [hx]
    · rw [(hsame x hx).async, (hsame x hx).active]
      exact async x
  · intro q
    by_cases hq : q = p
    · subst hq
      rwa [update_self, update_self]
    · have hold := nodup q
      rw [update_of_ne hq, update_of_ne hq] at hold ⊢
      exact hold
  · intro q x hmem'
    by_cases hx : x = b
    · subst hx
      exact howned (hself q hmem').2
    · rw [(hsame x hx).busy, (hsame x hx).async]
      exact owned q x ((hheld q x hx).1 hmem')
  · intro q r x hxq hxr
    by_cases hx : x = b
    · subst hx
      exact (hself q hxq).1.trans (hself r hxr).1.symm
    · exact alone q r x ((hheld q x hx).1 hxq) ((hheld r x hx).1 hxr)
  · intro q x hxq
    by_cases hx : x = b
    · subst hx
      obtain ⟨rfl, -⟩ := hself q (mem_append_left _ hxq)
      rw [update_self] at hxq
      exact hquiet hxq
    · rw [(hsame x hx).active]
      refine quieted q x ?_
      by_cases hq : q = p
      · subst hq
        rw [update_self] at hxq ⊢
        exact (hmem x hx).1.1 hxq
      · rw [update_of_ne hq] at hxq ⊢
        exact hxq

theorem Own.nodup : (Q ++ V).Nodup := by
  have hnd := Tokens.nodup h p
  rwa [update_self, update_self] at hnd

theorem Own.owned (hb : b ∈ Q ++ V) :
    (k.buf b).busy ∧ (k.buf b).async = false := by
  refine Tokens.owned h p b ?_
  rwa [update_self, update_self]

theorem Own.inactive (hb : b ∈ Q) : (k.buf b).active = false := by
  refine Tokens.quiet h p b ?_
  rwa [update_self]

/-- What the process holds, no other one does. -/
theorem Own.out (hb : b ∈ Q ++ V) : ∀ q ≠ p, b ∉ quiet q ++ waits q := by
  intro q hq hbq
  refine hq (Tokens.alone h q p b ?_ ?_)
  · rwa [update_of_ne hq, update_of_ne hq]
  · rwa [update_self, update_self]

/-- A buffer that is not busy is held by none. -/
theorem Own.out_of_free (hb : (k.buf b).busy = false) :
    (∀ q ≠ p, b ∉ quiet q ++ waits q) ∧ b ∉ Q ++ V := by
  constructor
  · intro q hq hbq
    have howned := Tokens.owned h q b (by rwa [update_of_ne hq, update_of_ne hq])
    exact absurd (hb.symm.trans howned.1) Bool.false_ne_true
  · intro hbq
    exact absurd (hb.symm.trans (h.owned hbq).1) Bool.false_ne_true

/-- Nothing changes hands. -/
theorem Own.congr (hsame : ∀ x, Same k k' x) :
    Own k' quiet waits p Q V := by
  obtain ⟨free, active, async, nodup, owned, alone, quieted⟩ := h
  constructor
  · intro x
    rw [(hsame x).frees, (hsame x).busy, free x]
  · intro x
    rw [(hsame x).active, (hsame x).busy, (hsame x).done]
    exact active x
  · intro x
    rw [(hsame x).async, (hsame x).active]
    exact async x
  · exact nodup
  · intro q x hx
    rw [(hsame x).busy, (hsame x).async]
    exact owned q x hx
  · exact alone
  · intro q x hx
    rw [(hsame x).active]
    exact quieted q x hx

/-- The order in which the buffers are held does not matter. -/
theorem Own.perm (hQ : Q.Perm Q') (hV : V.Perm V') :
    Own k quiet waits p Q' V' := by
  obtain ⟨free, active, async, nodup, owned, alone, quieted⟩ := h
  have hmem : ∀ q x, x ∈ update quiet p Q' q ++ update waits p V' q ↔
      x ∈ update quiet p Q q ++ update waits p V q := by
    intro q x
    by_cases hq : q = p
    · subst hq
      simp only [update_self, mem_append, hQ.mem_iff, hV.mem_iff]
    · simp only [update_of_ne hq]
  refine ⟨free, active, async, fun q => ?_, fun q x hx => owned q x ((hmem q x).1 hx),
    fun q r x hxq hxr => alone q r x ((hmem q x).1 hxq) ((hmem r x).1 hxr), fun q x hx => ?_⟩
  · have hold := nodup q
    by_cases hq : q = p
    · subst hq
      rw [update_self, update_self] at hold ⊢
      exact (hQ.append hV).nodup_iff.1 hold
    · rwa [update_of_ne hq, update_of_ne hq] at hold ⊢
  · refine quieted q x ?_
    by_cases hq : q = p
    · subst hq
      rw [update_self] at hx ⊢
      exact hQ.mem_iff.2 hx
    · rwa [update_of_ne hq] at hx ⊢

end

/-! ### What happens to a buffer -/

theorem same_of_update {f : Buf} (hbuf : k'.buf = update k.buf b f)
    (hfrees : ∀ x ≠ b, k'.frees x = k.frees x) : ∀ x ≠ b, Same k k' x := by
  intro x hx
  exact .of_eq (by rw [hbuf, update_of_ne hx]) (hfrees x hx)

/-- A buffer is taken off its free list. -/
theorem Own.notavail (h : Own k quiet waits p Q V) (hb : (k.buf b).busy = false) :
    Own (k.notavail b) quiet waits p (b :: Q) V := by
  obtain ⟨hout, hnot⟩ := h.out_of_free hb
  have hfree := Tokens.free h b
  have hina : (k.buf b).active = false := by
    by_contra hact
    have := (Tokens.active h b (Bool.eq_true_of_not_eq_false hact)).1
    exact absurd (hb.symm.trans this) Bool.false_ne_true
  have hasy : (k.buf b).async = false := by
    by_contra hasy
    have := Tokens.async h b (Bool.eq_true_of_not_eq_false hasy)
    exact absurd (hina.symm.trans this) Bool.false_ne_true
  rw [hb, if_neg Bool.false_ne_true] at hfree
  have hself : (k.notavail b).buf b = { k.buf b with busy := true } := by simp
  refine h.change b hout (same_of_update (k.notavail_buf b) fun x hx => k.frees_notavail_of_ne b hx)
    (fun x hx => ⟨by simp [hx], Iff.rfl⟩) (nodup_cons.2 ⟨hnot, h.nodup⟩) ?_ ?_ ?_ ?_ ?_
  · rw [hself, k.frees_notavail_self b hfree]
    rfl
  · rw [hself]
    exact fun hact => absurd (hina.symm.trans hact) Bool.false_ne_true
  · rw [hself]
    exact fun h => absurd (hasy.symm.trans h) Bool.false_ne_true
  · rw [hself]
    exact fun _ => ⟨rfl, hasy⟩
  · rw [hself]
    exact fun _ => hina

/-- A buffer is released. -/
theorem Own.brelse (h : Own k quiet waits p (b :: Q) V) : Own (k.brelse b) quiet waits p Q V := by
  have hmem : b ∈ b :: Q ++ V := mem_cons_self
  have hfree := Tokens.free h b
  rw [(h.owned hmem).1, if_pos rfl] at hfree
  have hself : (k.brelse b).buf b = Kernel.releasedBuf (k.buf b) := by
    rw [k.brelse_buf, update_self]
  have hnd := nodup_cons.1 h.nodup
  have hina : ((k.brelse b).buf b).active = false := by
    rw [hself]
    exact h.inactive mem_cons_self
  refine h.change b (h.out hmem)
    (same_of_update (k.brelse_buf b) fun x hx => by rw [k.frees_brelse, if_neg (Ne.symm hx), add_zero])
    (fun x hx => ⟨by simp [hx], Iff.rfl⟩) hnd.2 ?_ ?_ ?_ ?_ fun _ => hina
  · rw [k.frees_brelse, hfree, hself]
    simp [Kernel.releasedBuf]
  · exact fun hact => absurd (hina.symm.trans hact) Bool.false_ne_true
  · rw [hself]
    exact fun h => absurd h Bool.false_ne_true
  · exact fun hb => absurd hb hnd.1

/-- The fields of a buffer are changed, but for those that say whose it is. -/
theorem Own.update (h : Own k quiet waits p Q V) {f : Buf} (hbuf : k'.buf = update k.buf b f)
    (hfrees : ∀ x, k'.frees x = k.frees x) (hbusy : f.busy = (k.buf b).busy)
    (hact : f.active = (k.buf b).active) (hasy : f.async = (k.buf b).async)
    (hdone : f.done = (k.buf b).done) : Own k' quiet waits p Q V := by
  refine h.congr fun x => ?_
  by_cases hx : x = b
  · subst hx
    refine ⟨?_, ?_, ?_, ?_, hfrees x⟩
    all_goals rwa [hbuf, update_self]
  · exact .of_eq (by rw [hbuf, update_of_ne hx]) (hfrees x)

theorem Own.modify (h : Own k quiet waits p Q V) (b : Fin n) (f : Buf → Buf)
    (hbusy : (f (k.buf b)).busy = (k.buf b).busy) (hact : (f (k.buf b)).active = (k.buf b).active)
    (hasy : (f (k.buf b)).async = (k.buf b).async)
    (hdone : (f (k.buf b)).done = (k.buf b).done) : Own (k.modify b f) quiet waits p Q V :=
  h.update rfl (fun _ => rfl) hbusy hact hasy hdone

/-- A buffer that is held becomes valid, or is no longer. -/
theorem Own.setDone (h : Own k quiet waits p Q V) (hb : b ∈ Q) (done : Bool) :
    Own (k.modify b fun b => { b with done := done }) quiet waits p Q V := by
  have hmem : b ∈ Q ++ V := mem_append_left _ hb
  have hina := h.inactive hb
  refine h.change b (h.out hmem) (fun x hx => .of_eq (k.modify_of_ne b _ hx) rfl)
    (fun _ _ => ⟨Iff.rfl, Iff.rfl⟩) h.nodup ?_ ?_ ?_ ?_ ?_
  all_goals rw [Kernel.modify_self]
  · exact Tokens.free h b
  · exact fun hact => absurd (hina.symm.trans hact) Bool.false_ne_true
  · exact Tokens.async h b
  · exact h.owned
  · exact fun _ => hina

/-- The driver gets a buffer, and the process waits for it. -/
theorem Own.start (h : Own k quiet waits p (b :: Q) V) {f : Buf → Buf}
    (hbusy : (f (k.buf b)).busy = (k.buf b).busy) (hasy : (f (k.buf b)).async = (k.buf b).async)
    (hact : (f (k.buf b)).active = true) (hdone : (f (k.buf b)).done = false) :
    Own (k.modify b f) quiet waits p Q (b :: V) := by
  have hmem : b ∈ b :: Q ++ V := mem_cons_self
  obtain ⟨hb, ha⟩ := h.owned hmem
  have hnd : (Q ++ b :: V).Nodup := nodup_middle.2 h.nodup
  refine h.change b (h.out hmem) (fun x hx => .of_eq (k.modify_of_ne b f hx) rfl)
    (fun x hx => ⟨by simp [hx], by simp [hx]⟩) hnd ?_ ?_ ?_ ?_ ?_
  · rw [Kernel.modify_self, hbusy]
    exact Tokens.free h b
  · rw [Kernel.modify_self, hbusy]
    exact fun _ => ⟨hb, hdone⟩
  · rw [Kernel.modify_self]
    exact fun _ => hact
  · rw [Kernel.modify_self, hbusy, hasy]
    exact fun _ => ⟨hb, ha⟩
  · exact fun hmem' => absurd hmem' fun hmem' => (nodup_cons.1 h.nodup).1 (mem_append_left _ hmem')

/-- The driver gets a buffer that it will release. -/
theorem Own.startAsync (h : Own k quiet waits p (b :: Q) V) {f : Buf → Buf}
    (hbusy : (f (k.buf b)).busy = (k.buf b).busy) (hact : (f (k.buf b)).active = true)
    (hdone : (f (k.buf b)).done = false) : Own (k.modify b f) quiet waits p Q V := by
  have hmem : b ∈ b :: Q ++ V := mem_cons_self
  have hnd := nodup_cons.1 h.nodup
  refine h.change b (h.out hmem) (fun x hx => .of_eq (k.modify_of_ne b f hx) rfl)
    (fun x hx => ⟨by simp [hx], Iff.rfl⟩) hnd.2 ?_ ?_ ?_ ?_ ?_
  · rw [Kernel.modify_self, hbusy]
    exact Tokens.free h b
  · rw [Kernel.modify_self, hbusy]
    exact fun _ => ⟨(h.owned hmem).1, hdone⟩
  · rw [Kernel.modify_self]
    exact fun _ => hact
  · exact fun hb => absurd hb hnd.1
  · exact fun hb => absurd (mem_append_left _ hb) hnd.1

/-- The process does not wait for a buffer that is done. -/
theorem Own.awaited (h : Own k quiet waits p Q (b :: V)) (hdone : (k.buf b).done) :
    Own k quiet waits p (b :: Q) V := by
  have hmem : b ∈ Q ++ b :: V := mem_append_right _ mem_cons_self
  have hina : (k.buf b).active = false := by
    by_contra hact
    have := (Tokens.active h b (Bool.eq_true_of_not_eq_false hact)).2
    exact absurd (this.symm.trans hdone) Bool.false_ne_true
  have hnd : (b :: Q ++ V).Nodup := nodup_middle.1 h.nodup
  exact h.change b (h.out hmem) (fun x _ => .of_eq rfl rfl)
    (fun x hx => ⟨by simp [hx], by simp [hx]⟩) hnd (Tokens.free h b) (Tokens.active h b)
    (Tokens.async h b) (fun _ => h.owned hmem) fun _ => hina

/-- The process waits for a buffer. -/
theorem Own.wait (h : Own k quiet waits p (b :: Q) V) : Own k quiet waits p Q (b :: V) := by
  have hmem : b ∈ b :: Q ++ V := mem_cons_self
  have hnd : (Q ++ b :: V).Nodup := nodup_middle.2 h.nodup
  exact h.change b (h.out hmem) (fun x _ => .of_eq rfl rfl)
    (fun x hx => ⟨by simp [hx], by simp [hx]⟩) hnd (Tokens.free h b) (Tokens.active h b)
    (Tokens.async h b) (fun _ => h.owned hmem) fun _ => h.inactive mem_cons_self

theorem Own.bwrite (h : Own k quiet waits p (b :: Q) V) :
    Own (k.bwrite b) quiet waits p Q (b :: V) := by
  rw [k.bwrite_eq]
  exact h.start rfl rfl rfl rfl

theorem Own.bawrite (h : Own k quiet waits p (b :: Q) V) : Own (k.bawrite b) quiet waits p Q V := by
  rw [k.bawrite_eq]
  exact h.startAsync rfl rfl rfl

theorem Own.bdwrite (h : Own k quiet waits p (b :: Q) V) : Own (k.bdwrite b) quiet waits p Q V := by
  have hdone := h.setDone mem_cons_self true
  have hdel := hdone.modify b (fun b => { b with delwri := true }) rfl rfl rfl rfl
  rw [Kernel.modify_modify] at hdel
  exact hdel.brelse

/-! ### Free lists -/

/-- A buffer on a free list is not busy. -/
theorem Own.busy_of_mem (h : Own k quiet waits p Q V) {q : Bq} (hb : b ∈ k.bfreelist q) :
    (k.buf b).busy = false := by
  have hpos := count_pos_iff.2 hb
  have hfree := Tokens.free h b
  rw [Kernel.frees] at hfree
  split_ifs at hfree with hbusy
  · cases q <;> omega
  · exact Bool.eq_false_of_not_eq_true hbusy

theorem Own.count_le (h : Own k quiet waits p Q V) (b : Fin n) : k.frees b ≤ 1 := by
  rw [Tokens.free h b]
  split_ifs <;> omega

/-- What a function that takes a buffer from a free list, if there is one, leaves to the process. -/
def Own.Taken (quiet waits : ℕ → List (Fin n)) (p : ℕ) (Q V : List (Fin n))
    (r : Option (Fin n) × Kernel n) : Prop :=
  match r.1 with
  | none => Own r.2 quiet waits p Q V
  | some b => Own r.2 quiet waits p (b :: Q) V

theorem Own.getnewbufLoop {l : List (Fin n)} (h : Own k quiet waits p Q V)
    (hl : ∀ x ∈ l, (k.buf x).busy = false) (hnd : l.Nodup) :
    Own.Taken quiet waits p Q V (k.getnewbufLoop l) := by
  induction l generalizing k with
  | nil => exact h.congr fun x => .of_eq rfl rfl
  | cons b l ih =>
    obtain ⟨hb, hl⟩ := forall_mem_cons.1 hl
    obtain ⟨hnot, hnd⟩ := nodup_cons.1 hnd
    have htkn := h.notavail hb
    rw [Kernel.getnewbufLoop]
    split_ifs with hdel
    · refine ih htkn.bawrite (fun x hx => ?_) hnd
      have hne : x ≠ b := fun heq => hnot (heq ▸ hx)
      rw [Kernel.bawrite_eq, Kernel.modify_of_ne _ _ _ hne, Kernel.notavail_buf, update_of_ne hne]
      exact hl x hx
    · have hmem : b ∈ b :: Q := mem_cons_self
      obtain ⟨hbusy, hasy⟩ := htkn.owned (mem_append_left V hmem)
      have hina := htkn.inactive hmem
      rw [Kernel.brelvp, Kernel.modify_modify]
      have hdone := htkn.setDone hmem false
      have hflg := hdone.modify b
        (fun b => { b with
          b_vp := none, read := false, done := false, error := false, busy := true, wanted := false
          age := false, async := false, delwri := false, cache := false, inval := false
          locked := false, nocache := false })
        (by rw [Kernel.modify_self]; exact hbusy.symm) (by rw [Kernel.modify_self])
        (by rw [Kernel.modify_self]; exact hasy.symm) (by rw [Kernel.modify_self])
      rw [Kernel.modify_modify] at hflg
      exact hflg

theorem Own.getnewbuf (h : Own k quiet waits p Q V) :
    Own.Taken quiet waits p Q V k.getnewbuf := by
  refine h.getnewbufLoop (fun x hx => ?_) ?_
  · rcases mem_append.1 hx with hx | hx <;> exact h.busy_of_mem hx
  · refine nodup_iff_count_le_one.2 fun x => ?_
    have hle := h.count_le x
    rw [Kernel.frees] at hle
    rw [count_append]
    omega

theorem Own.bflushLoop {vp : Option ℕ} {l : List (Fin n)} (h : Own k quiet waits p Q V)
    (hl : ∀ x ∈ l, (k.buf x).busy = false) (hnd : l.Nodup) :
    Own (k.bflushLoop vp l) quiet waits p Q V := by
  induction l generalizing k with
  | nil => exact h
  | cons b l ih =>
    obtain ⟨hb, hl⟩ := forall_mem_cons.1 hl
    obtain ⟨hnot, hnd⟩ := nodup_cons.1 hnd
    rw [Kernel.bflushLoop]
    split_ifs
    · refine ih (h.notavail hb).bawrite (fun x hx => ?_) hnd
      have hne : x ≠ b := fun heq => hnot (heq ▸ hx)
      rw [Kernel.bawrite_eq, Kernel.modify_of_ne _ _ _ hne, Kernel.notavail_buf, update_of_ne hne]
      exact hl x hx
    · exact ih h hl hnd

theorem Own.bflush (h : Own k quiet waits p Q V) (vp : Option ℕ) :
    Own (k.bflush vp) quiet waits p Q V := by
  refine h.bflushLoop (fun x hx => ?_) ?_
  · rw [mem_append, mem_append] at hx
    rcases hx with (hx | hx) | hx <;> exact h.busy_of_mem hx
  · refine nodup_iff_count_le_one.2 fun x => ?_
    have hle := h.count_le x
    rw [Kernel.frees] at hle
    rw [count_append, count_append]
    omega

/-! ### Pages -/

theorem Own.shrink (h : Own k quiet waits p Q V) (tp : Fin n) (sizealloc : ℕ) :
    Own (k.shrink tp sizealloc) quiet waits p Q V := by
  rw [Kernel.shrink]
  split
  · exact h
  · next ep _ heq =>
    have hfree : (k.buf ep).busy = false := h.busy_of_mem (q := .empty) (by rw [heq]; exact mem_cons_self)
    refine Own.brelse (Own.modify (Own.modify (Own.modify (h.notavail hfree) ep _ ?_ ?_ ?_ ?_) ep _ ?_ ?_ ?_ ?_)
      tp _ ?_ ?_ ?_ ?_)
    all_goals rfl

theorem Own.grow (h : Own k quiet waits p (b :: Q) V) (tp : Fin n) (sizealloc : ℕ) :
    Own (k.grow tp b sizealloc) quiet waits p Q V := by
  rw [Kernel.grow]
  refine Own.brelse ?_
  have hmvd : ∀ i j size take, Own (((k.pagemove b i tp j take).modify tp fun b =>
      { b with b_bufsize := size }).modify b fun b => { b with b_bufsize := i, b_bcount := min b.b_bcount i })
      quiet waits p (b :: Q) V := by
    intro i j size take
    refine Own.modify (Own.modify (Own.modify h tp _ ?_ ?_ ?_ ?_) tp _ ?_ ?_ ?_ ?_) b _ ?_ ?_ ?_ ?_
    all_goals rfl
  have hreh : ∀ k : Kernel n, Own k quiet waits p (b :: Q) V →
      Own (((k.bremhash b).binshash b (.bfreelist .empty)).modify b fun b => { b with inval := true })
        quiet waits p (b :: Q) V := by
    intro k hk
    have hsame : Own ((k.bremhash b).binshash b (.bfreelist .empty)) quiet waits p (b :: Q) V :=
      hk.congr fun x => .of_eq rfl rfl
    exact hsame.modify b _ rfl rfl rfl rfl
  split_ifs
  · exact hreh _ (hmvd _ _ _ _)
  · exact hmvd _ _ _ _

/-! ### The driver -/

/-- A buffer has one owner at most. -/
theorem Tokens.exists_owner (h : Tokens k quiet waits) (b : Fin n) :
    ∃ p, ∀ q ≠ p, b ∉ quiet q ++ waits q := by
  by_cases hb : ∃ p, b ∈ quiet p ++ waits p
  · obtain ⟨p, hp⟩ := hb
    exact ⟨p, fun q hq hbq => hq (h.alone q p b hbq hp)⟩
  · exact ⟨0, fun q _ hbq => hb ⟨q, hbq⟩⟩

/-- The driver is done with a buffer: it is released, if no process waits for it. -/
theorem Tokens.biodone (h : Tokens k quiet waits) (hb : (k.buf b).active) :
    Tokens ((k.modify b fun b => { b with active := false }).biodone b) quiet waits := by
  obtain ⟨p, hout⟩ := h.exists_owner b
  have hown := h.own p
  obtain ⟨hbusy, -⟩ := h.active b hb
  have hfree := h.free b
  rw [hbusy, if_pos rfl] at hfree
  rw [Kernel.biodone, Kernel.modify_modify, Kernel.modify_self]
  have hcha : ∀ k' : Kernel n, (∀ x ≠ b, Same k k' x) →
      (k'.frees b = if (k'.buf b).busy then 0 else 1) → (k'.buf b).active = false →
      (k'.buf b).async = false → (b ∈ quiet p ++ waits p → (k'.buf b).busy) →
      Tokens k' quiet waits := by
    intro k' hsame hfree' hact' hasy' hbusy'
    have hown' := hown.change b hout hsame (fun _ _ => ⟨Iff.rfl, Iff.rfl⟩) (h.nodup p) hfree'
      (fun h => absurd (hact'.symm.trans h) Bool.false_ne_true)
      (fun h => absurd (hasy'.symm.trans h) Bool.false_ne_true) (fun h => ⟨hbusy' h, hasy'⟩)
      (fun _ => hact')
    rwa [Own, update_eq_self, update_eq_self] at hown'
  split_ifs with hasy
  · refine hcha _ (fun x hx => ?_) ?_ ?_ ?_ fun hmem => ?_
    · refine .of_eq ?_ ?_
      · rw [Kernel.brelse_buf, update_of_ne hx, Kernel.modify_of_ne _ _ _ hx]
      · rw [Kernel.frees_brelse, if_neg (Ne.symm hx)]
        rfl
    · rw [Kernel.frees_brelse, Kernel.frees_modify, hfree, Kernel.brelse_buf, update_self]
      simp [Kernel.releasedBuf]
    · rw [Kernel.brelse_buf, update_self, Kernel.modify_self]
      rfl
    · rw [Kernel.brelse_buf, update_self]
      rfl
    · exact absurd ((h.owned p b hmem).2.symm.trans hasy) Bool.false_ne_true
  · rw [Kernel.modify_modify]
    have hself : ∀ f, (Kernel.wakeup (k.modify b f) (.buf b)).buf b = f (k.buf b) :=
      Kernel.modify_self k b
    refine hcha _ (fun x hx => .of_eq (k.modify_of_ne b _ hx) rfl) ?_ ?_ ?_ ?_
    · rw [hself]
      exact h.free b
    · rw [hself]
      rfl
    · rw [hself]
      exact Bool.eq_false_of_not_eq_true hasy
    · rw [hself]
      exact fun _ => hbusy

theorem Tokens.iodone (h : Tokens k quiet waits) (hb : (k.buf b).active) (error : Bool) :
    Tokens (k.iodone b error) quiet waits := by
  have hmvd : ∀ k' : Kernel n, (∀ x, Same k k' x) →
      Tokens ((k'.modify b fun b => { b with active := false }).biodone b) quiet waits := by
    intro k' hsame
    have hown := (h.own 0).congr hsame
    rw [Own, update_eq_self, update_eq_self] at hown
    exact hown.biodone (by rwa [(hsame b).active])
  have hmod : ∀ f : Buf → Buf, (f (k.buf b)).busy = (k.buf b).busy →
      (f (k.buf b)).active = (k.buf b).active → (f (k.buf b)).async = (k.buf b).async →
      (f (k.buf b)).done = (k.buf b).done → ∀ x, Same k (k.modify b f) x := by
    intro f hbusy hact hasy hdone x
    by_cases hx : x = b
    · subst hx
      refine ⟨?_, ?_, ?_, ?_, rfl⟩
      all_goals rwa [Kernel.modify_self]
    · exact .of_eq (k.modify_of_ne b f hx) rfl
  rw [Kernel.iodone]
  refine hmvd _ ?_
  split_ifs
  · exact hmod _ rfl rfl rfl rfl
  · rw [Kernel.transfer]
    split
    · exact fun x => .of_eq rfl rfl
    · split_ifs
      · exact hmod _ rfl rfl rfl rfl
      · exact fun x => .of_eq rfl rfl

end Uwisc.Bio
