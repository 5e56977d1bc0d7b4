import Mathlib.Algebra.BigOperators.Ring.Finset
import Uwisc.Sys.Uipc.Counts

/-!
# The calls on descriptors

Sending, receiving, closing and collecting, and what makes files and sockets. A call is `Proper` if
it does not lose rights, makes no count larger than a `short`, and does not collect garbage.

* `Inv.start`: a proper call keeps the invariant;
* `Sound`: what the counts are between calls, and what a run of `unp_gc` closes.
-/

namespace Uwisc.Uipc

open Function Lib List Nat Option

variable {s s' : State} {msgs held : List ℕ} {stack : List Frame} {fp so : ℕ}

/-- A call that does not lose rights, or make a count too large, and finds no garbage. -/
def Proper (c : Config) : Op → Prop
  | .tick => ∀ stack, c.stack = .unp_gc :: stack → NoGarbage c
  | .gc => NoGarbage c
  | .send p fds _ space => ∀ fps, fds.mapM (c.state.getf p) = some fps →
      (space = true ∨ fps = []) ∧ ∀ fp, (c.state.file fp).f_count + fps.count fp ≤ 32767
  | .recv _ so rightsp error _ => rightsp = true ∧ error = false ∨ (c.state.socket so).so_rcv.headD [] = []
  | .dup f _ => ∀ fp, c.state.u_ofile[f]? = some (some fp) → (c.state.file fp).f_count < 32767
  | _ => True

/-! ### Counts -/

variable {f p head n k : ℕ} {c c' : Config} {fps l : List ℕ} {s'' : State}
  {r : State × List Frame} {op : Op}

theorem descriptors_set {o : Option ℕ} (h : s.u_ofile[f]? = some o) (o' : Option ℕ) :
    ({ s with u_ofile := s.u_ofile.set f o' } : State).descriptors ++ o.toList ~ s.descriptors ++ o'.toList :=
  reduceOption_set_perm h o'

theorem Counts.internalized (h : Counts s msgs held) (hlt : (s.file fp).f_count < 32767)
    (hne : (s.file fp).f_count ≠ 0) : Counts (internalizeOne s fp) (fp :: msgs) held := by
  have hcnt := h.count fp
  have hmsg := h.msgcount fp
  have hwrap : wrap 16 ((s.file fp).f_count + 1) = (s.file fp).f_count + 1 := wrap_short (by omega) (by omega)
  have hwrap' : wrap 16 ((s.file fp).f_msgcount + 1) = (s.file fp).f_msgcount + 1 := wrap_short (by omega) (by omega)
  refine h.of_file fp rfl rfl (h.lt fp hne) ?_ ?_ ?_ (fun y hy => count_cons_other hy _) (fun _ _ => rfl) ?_
  · change wrap 16 ((s.file fp).f_count + 1) ≤ _
    omega
  · change wrap 16 ((s.file fp).f_msgcount + 1) = _
    rw [hwrap', count_cons_self, hmsg, cast_add, cast_one]
  · change wrap 16 ((s.file fp).f_count + 1) = _
    rw [hwrap, count_cons_self]
    omega
  · change s.unp_rights + 1 = _
    rw [h.rights, length_cons, cast_add, cast_one]

theorem Counts.externalized (h : Counts s (fp :: msgs) held) (hs : externalizeOne p s fp = some s') :
    Counts s' msgs (fp :: held) := by
  rw [externalizeOne] at hs
  split at hs
  · cases hs
  · rename_i f fs hfree
    cases hs
    exact ⟨h.discard.msgcount, h.discard.count, h.discard.rights, h.discard.le, h.discard.lt⟩

theorem Counts.dup (h : Counts s msgs held) (hlt : (s.file fp).f_count < 32767) (hne : (s.file fp).f_count ≠ 0) :
    Counts (s.setFile fp fun x => { x with f_count := wrap 16 (x.f_count + 1) }) msgs (fp :: held) := by
  have hcnt := h.count fp
  have hwrap : wrap 16 ((s.file fp).f_count + 1) = (s.file fp).f_count + 1 := wrap_short (by omega) (by omega)
  refine h.of_file fp rfl rfl (h.lt fp hne) ?_ (h.msgcount fp) ?_ (fun _ _ => rfl)
    (fun y hy => count_cons_other hy _) h.rights
  · change wrap 16 ((s.file fp).f_count + 1) ≤ _
    omega
  · change wrap 16 ((s.file fp).f_count + 1) = _
    rw [hwrap, count_cons_self]
    omega

theorem Counts.openFile (h : Counts s msgs held) (hzero : (s.file fp).f_count = 0) (hlt : fp < s.nfile) (f : ℕ)
    (data : Data) : Counts (s.openFile f fp data) msgs (fp :: held) := by
  have hcnt := h.count fp
  refine h.of_file fp rfl rfl hlt (by simp) (h.msgcount fp) ?_ (fun _ _ => rfl)
    (fun y hy => count_cons_other hy _) h.rights
  change 1 = _
  rw [count_cons_self]
  omega

/-! ### Calls -/

theorem Keeps.trans (h : Keeps s s') (h' : Keeps s' s'') : Keeps s s'' :=
  ⟨h'.nsock.trans h.nsock, fun so => (h'.nofdref so).trans (h.nofdref so), fun so => (h'.so_q so).trans (h.so_q so),
    fun fp => (h'.f_data fp).trans (h.f_data fp), fun fp hne => h'.f_count fp (h.f_count fp hne)⟩

/-- A call may leave frames that discard rights or close a file. -/
theorem Inv.call (frames : List Frame) (h : Inv ⟨s, []⟩) (hs : Keeps s s') (hgc : s'.unp_gcing = s.unp_gcing)
    (hfra : ∀ f ∈ frames, f.sweeps = false ∧ f.sockets = [] ∧ f.lasts = [])
    (hcou : Counts s' (s'.queued ++ frames.flatMap Frame.scans) (s'.descriptors ++ frames.flatMap Frame.closes)) :
    Inv ⟨s', frames⟩ := by
  have hgcing : s.unp_gcing = false := by
    rcases h.sweeping with ⟨hgcing, -⟩ | ⟨_, _, heq, -⟩
    · exact hgcing
    · cases heq
  refine ⟨hcou, ⟨fun fp so hdata => ?_, fun fp fp' so hdata hdata' => ?_, h.sockets.nodup.sublist hs.waiting,
    fun so hso => ?_, fun f hf so hso => ?_, fun fp so hmem => ?_⟩, fun f hf fp hfp => ?_,
    .inl ⟨hgc.trans hgcing, fun f hf => (hfra f hf).1⟩⟩
  · rw [hs.f_data] at hdata
    obtain ⟨hne, hlt, hor⟩ := h.sockets.files fp so hdata
    refine ⟨hs.f_count fp hne, hs.nsock ▸ hlt, .inl ?_⟩
    rw [hs.nofdref]
    exact hor.resolve_right not_mem_nil
  · rw [hs.f_data] at hdata hdata'
    exact h.sockets.inj fp fp' so hdata hdata'
  · dsimp only
    rw [hs.nsock, hs.nofdref]
    exact h.sockets.waiting so (hs.waiting.subset hso)
  · rw [(hfra f hf).2.1] at hso
    exact absurd hso not_mem_nil
  · exact absurd (hfra _ hmem).2.2 (cons_ne_nil _ _)
  · rw [(hfra f hf).2.2] at hfp
    exact absurd hfp not_mem_nil

/-- What a call to send or to receive does not change. -/
structure Same (s s' : State) : Prop where
  keeps : Keeps s s'
  queued : s'.queued = s.queued
  unp_gcing : s'.unp_gcing = s.unp_gcing

theorem Same.refl (s : State) : Same s s := ⟨.refl s, rfl, rfl⟩

theorem Same.trans (h : Same s s') (h' : Same s' s'') : Same s s'' :=
  ⟨h.keeps.trans h'.keeps, h'.queued.trans h.queued, h'.unp_gcing.trans h.unp_gcing⟩

theorem Same.internalized (hlt : (s.file fp).f_count < 32767) (hle : 0 ≤ (s.file fp).f_count) :
    Same s (internalizeOne s fp) := by
  have hwrap : wrap 16 ((s.file fp).f_count + 1) = (s.file fp).f_count + 1 := wrap_short (by omega) (by omega)
  have hkps := Keeps.setFile s fp
    (f := fun f => { f with f_count := wrap 16 (f.f_count + 1), f_msgcount := wrap 16 (f.f_msgcount + 1) }) rfl
    fun _ => by
      change wrap 16 ((s.file fp).f_count + 1) ≠ 0
      omega
  exact ⟨⟨hkps.nsock, hkps.nofdref, hkps.so_q, hkps.f_data, hkps.f_count⟩, rfl, rfl⟩

/-- Rights are made of the files. -/
theorem Counts.internalize (h : Counts s msgs held)
    (hle : ∀ fp, (s.file fp).f_count + fps.count fp ≤ 32767) (hne : ∀ fp ∈ fps, (s.file fp).f_count ≠ 0) :
    Counts (fps.foldl internalizeOne s) (fps.reverse ++ msgs) held ∧ Same s (fps.foldl internalizeOne s) ∧
      (fps.foldl internalizeOne s).u_ofile = s.u_ofile := by
  induction fps generalizing s msgs with
  | nil => exact ⟨h, .refl s, rfl⟩
  | cons fp fps ih =>
    have hfp := hle fp
    rw [count_cons_self] at hfp
    have hlt : (s.file fp).f_count < 32767 := by omega
    have hcou := h.internalized hlt (hne fp mem_cons_self)
    have hsame : Same s (internalizeOne s fp) := .internalized (by omega) (by rw [h.count]; omega)
    have hle' (y : ℕ) : ((internalizeOne s fp).file y).f_count + fps.count y ≤ 32767 := by
      have hy := hle y
      rw [h.count] at hy
      rw [hcou.count]
      rcases eq_or_ne y fp with rfl | hne
      · rw [count_cons_self] at hy ⊢
        omega
      · rw [count_cons_other hne] at hy ⊢
        omega
    obtain ⟨hcou', hsame', hofile⟩ := ih hcou hle' fun y hy =>
      hsame.keeps.f_count y (hne y (mem_cons_of_mem _ hy))
    rw [foldl_cons, reverse_cons, append_assoc]
    exact ⟨hcou', hsame.trans hsame', hofile⟩

theorem queued_append (hso : so < s.nsock) (fps : List ℕ) :
    (s.setSocket so fun x => { x with so_rcv := x.so_rcv ++ [fps] }).queued ~ s.queued ++ fps := by
  have hperm := queued_setSocket hso fun x => { x with so_rcv := x.so_rcv ++ [fps] }
  refine (perm_append_right_iff (s.socket so).so_rcv.flatten).1 (hperm.trans ?_)
  rw [flatten_concat, append_assoc]
  exact perm_append_comm.append_left _

theorem Inv.used (h : Inv c) (hmem : fp ∈ c.holders) : (c.state.file fp).f_count ≠ 0 := by
  have hpos := count_pos_iff.2 hmem
  rw [h.counts.count]
  omega

theorem mem_descriptors (h : s.getf p f = some fp) : fp ∈ s.descriptors := by
  rw [State.getf] at h
  split_ifs at h
  exact reduceOption_mem_iff.2 (mem_of_getElem? (join_eq_some_iff.1 h))

theorem exists_of_mem_mapM {α β : Type} {g : α → Option β} {l : List α} {l' : List β} (h : l.mapM g = some l') {b : β}
    (hb : b ∈ l') : ∃ a, g a = some b := by
  induction l generalizing l' with
  | nil =>
    cases h
    exact absurd hb not_mem_nil
  | cons a l ih =>
    rw [mapM_cons] at h
    obtain ⟨b', hb', h⟩ := bind_eq_some_iff.1 h
    obtain ⟨l'', hl, h⟩ := bind_eq_some_iff.1 h
    cases h
    rcases mem_cons.1 hb with rfl | hb
    · exact ⟨a, hb'⟩
    · exact ih hl hb

theorem Inv.send {so2 : ℕ} {fds : List ℕ} {space : Bool} (h : Inv ⟨s, []⟩)
    (hp : Proper ⟨s, []⟩ (.send p fds so2 space)) (hso : so2 < s.nsock) : Inv ⟨Uipc.send s p fds so2 space, []⟩ := by
  rw [Uipc.send, unp_internalize]
  cases hfds : fds.mapM (s.getf p) with
  | none => exact h
  | some fps =>
    obtain ⟨hspc, hle⟩ := hp fps hfds
    rw [map_some]
    dsimp only
    have hused : ∀ fp ∈ fps, (s.file fp).f_count ≠ 0 := fun fp hfp => by
      obtain ⟨f, hf⟩ := exists_of_mem_mapM hfds hfp
      exact h.used (mem_append_left _ (mem_descriptors hf))
    obtain ⟨hcou, hsame, hofile⟩ := h.counts.internalize hle hused
    split_ifs with hroom
    · refine h.call [] (hsame.keeps.trans (.setSocket _ so2 rfl (.refl _))) hsame.unp_gcing (by simp) ?_
      have hque := queued_append (s := fps.foldl internalizeOne s) (hsame.keeps.nsock ▸ hso) fps
      refine (hcou.setSocket so2 fun x => { x with so_rcv := x.so_rcv ++ [fps] }).perm ?_ (.of_eq ?_)
      · refine .symm ((hque.append_right _).trans ?_)
        rw [hsame.queued]
        simp only [Config.messages, flatMap_nil, append_nil]
        exact (perm_append_comm).trans ((reverse_perm fps).symm.append_right _)
      · simp [State.descriptors, Config.holders, State.setSocket, hofile]
    · obtain rfl := hspc.resolve_left hroom
      exact h

/-- A right gets a descriptor. -/
theorem Same.externalized (hs : externalizeOne p s fp = some s') :
    Same s s' ∧ s'.descriptors ~ fp :: s.descriptors := by
  rw [externalizeOne] at hs
  split at hs
  · cases hs
  · rename_i f fs hfree
    cases hs
    have hkps := Keeps.discard s fp
    refine ⟨⟨⟨hkps.nsock, hkps.nofdref, hkps.so_q, hkps.f_data, hkps.f_count⟩, rfl, rfl⟩, ?_⟩
    have hmem : f ∈ s.free p := hfree ▸ mem_cons_self
    have hset := descriptors_set (of_decide_eq_true (mem_filter.1 hmem).2) (some fp)
    rw [toList_none, append_nil, toList_some] at hset
    exact hset.trans (perm_append_singleton fp _)

/-- The rights of a record get descriptors. -/
theorem Counts.externalize (h : Counts s (fps ++ msgs) s.descriptors)
    (hs : fps.foldlM (externalizeOne p) s = some s') : Counts s' msgs s'.descriptors ∧ Same s s' := by
  induction fps generalizing s with
  | nil =>
    obtain rfl := some_inj.1 hs
    exact ⟨h, .refl s⟩
  | cons fp fps ih =>
    rw [foldlM_cons] at hs
    obtain ⟨t, ht, hs⟩ := bind_eq_some_iff.1 hs
    obtain ⟨hsame, hperm⟩ := Same.externalized ht
    obtain ⟨hcou, hsame'⟩ := ih ((Counts.externalized h ht).perm (.refl _) hperm.symm) hs
    exact ⟨hcou, hsame.trans hsame'⟩

theorem queued_next (hso : so < s.nsock) {next next' : List (List ℕ)}
    (hrcv : (s.socket so).so_rcv = fps :: next) (hnx : next'.flatten = next.flatten) :
    s.queued ~ fps ++ (s.setSocket so fun x => { x with so_rcv := next' }).queued := by
  have hperm := queued_setSocket hso fun x => { x with so_rcv := next' }
  rw [hrcv, flatten_cons, hnx, ← append_assoc] at hperm
  exact ((perm_append_right_iff _).1 hperm).symm.trans perm_append_comm

theorem Inv.recv {rightsp error rest : Bool} (h : Inv ⟨s, []⟩)
    (hp : Proper ⟨s, []⟩ (.recv p so rightsp error rest)) (hso : so < s.nsock)
    (hr : soreceive s p so rightsp error rest = some r) : Inv ⟨r.1, r.2⟩ := by
  rw [soreceive] at hr
  cases hrcv : (s.socket so).so_rcv with
  | nil =>
    rw [hrcv] at hr
    cases hr
    exact h
  | cons fps next =>
    rw [hrcv] at hr
    dsimp only at hr
    generalize hnx : (if rest then [] :: next else next) = next' at hr
    have hflat : next'.flatten = next.flatten := by
      rw [← hnx]
      split_ifs <;> rfl
    have hkps : Keeps s (s.setSocket so fun x => { x with so_rcv := next' }) := .setSocket s so rfl (.refl _)
    have hcou : Counts (s.setSocket so fun x => { x with so_rcv := next' })
        (fps ++ (s.setSocket so fun x => { x with so_rcv := next' }).queued) s.descriptors := by
      refine (h.counts.setSocket so fun x => { x with so_rcv := next' }).perm ?_ (.of_eq (append_nil _))
      exact (Perm.of_eq (append_nil _)).trans (queued_next hso hrcv hflat)
    split_ifs at hr with hrig
    · rw [unp_externalize] at hr
      split_ifs at hr with hfull
      · -- there are not enough descriptors: the rights are discarded
        cases hr
        refine h.call [.unp_scan fps] hkps rfl (by simp [Frame.sweeps, Frame.sockets, Frame.lasts]) ?_
        refine hcou.perm (perm_append_comm.trans (.of_eq ?_)) (.of_eq (append_nil _).symm)
        simp [Frame.scans]
      · obtain ⟨t, ht, rfl⟩ := map_eq_some_iff.1 hr
        obtain ⟨hcou', hsame⟩ := Counts.externalize (s := s.setSocket so fun x => { x with so_rcv := next' }) hcou ht
        refine h.call [] (hkps.trans hsame.keeps) hsame.unp_gcing (by simp) ?_
        refine hcou'.perm (.of_eq ?_) (.of_eq (append_nil _).symm)
        rw [hsame.queued, flatMap_nil, append_nil]
    · cases hr
      have hnil : fps = [] := by
        have hhead := hp.resolve_left hrig
        dsimp only at hhead
        rwa [hrcv] at hhead
      subst hnil
      exact h.call [] hkps rfl (by simp) (hcou.perm (.of_eq (append_nil _).symm) (.of_eq (append_nil _).symm))

theorem Inv.close (h : Inv ⟨s, []⟩) (hf : s.u_ofile[f]? = some (some fp)) :
    Inv ⟨{ s with u_ofile := s.u_ofile.set f none }, [.closef fp]⟩ := by
  obtain ⟨hmsg, hcnt, hrig, hle, hlt⟩ := h.counts
  refine h.call [.closef fp] ⟨rfl, fun _ => rfl, fun _ => .refl _, fun _ => rfl, fun _ => id⟩ rfl
    (by simp [Frame.sweeps, Frame.sockets, Frame.lasts]) ?_
  have hcou : Counts { s with u_ofile := s.u_ofile.set f none } (s.queued ++ []) (s.descriptors ++ []) :=
    ⟨hmsg, hcnt, hrig, hle, hlt⟩
  exact hcou.perm (.refl _) (descriptors_set hf none).symm

theorem Inv.dup {f' : ℕ} (h : Inv ⟨s, []⟩) (hp : Proper ⟨s, []⟩ (.dup f f')) (hf : s.u_ofile[f]? = some (some fp))
    (hf' : s.u_ofile[f']? = some none) :
    Inv ⟨{ s.setFile fp (fun x => { x with f_count := wrap 16 (x.f_count + 1) }) with
      u_ofile := s.u_ofile.set f' (some fp) }, []⟩ := by
  have hmem : fp ∈ s.descriptors := reduceOption_mem_iff.2 (mem_of_getElem? hf)
  have hne := h.used (mem_append_left _ hmem)
  have hlt : (s.file fp).f_count < 32767 := hp fp hf
  have hcnt : (s.file fp).f_count = _ := h.counts.count fp
  have hkps := Keeps.setFile s fp (f := fun x => { x with f_count := wrap 16 (x.f_count + 1) }) rfl fun _ => by
    change wrap 16 ((s.file fp).f_count + 1) ≠ 0
    rw [wrap_short (by omega) (by omega)]
    omega
  obtain ⟨hmsg, hcnt, hrig, hle, hlt⟩ := h.counts.dup hlt hne
  refine h.call [] ⟨hkps.nsock, hkps.nofdref, hkps.so_q, hkps.f_data, hkps.f_count⟩ rfl (by simp) ?_
  have hcou : Counts { s.setFile fp (fun x => { x with f_count := wrap 16 (x.f_count + 1) }) with
      u_ofile := s.u_ofile.set f' (some fp) } (s.queued ++ []) (fp :: (s.descriptors ++ [])) :=
    ⟨hmsg, hcnt, hrig, hle, hlt⟩
  refine hcou.perm (.refl _) ?_
  have hset := descriptors_set hf' (some fp)
  rw [toList_none, append_nil, toList_some] at hset
  rw [append_nil]
  exact (perm_append_singleton fp _).symm.trans (hset.symm.trans (.of_eq (append_nil _).symm))

/-! ### New files and sockets -/

theorem Sockets.openFile (h : Sockets s []) (hzero : (s.file fp).f_count = 0) (f : ℕ) {data : Data}
    (hdata : ∀ so, data = .socket so → so < s.nsock ∧ (s.socket so).nofdref = false ∧
      ∀ fp', (s.file fp').f_data ≠ .socket so) : Sockets (s.openFile f fp data) [] := by
  have hself : ((s.openFile f fp data).file fp) = { s.file fp with f_count := 1, f_data := data, mark := false } :=
    update_self ..
  have hoth {fp' : ℕ} (hne : fp' ≠ fp) : (s.openFile f fp data).file fp' = s.file fp' := update_of_ne hne ..
  refine ⟨fun fp' so hso => ?_, fun fp' fp'' so hso hso' => ?_, h.nodup, h.waiting, by simp, by simp⟩
  · rcases eq_or_ne fp' fp with rfl | hne
    · rw [hself] at hso ⊢
      obtain ⟨hlt, hnof, -⟩ := hdata so hso
      exact ⟨one_ne_zero, hlt, .inl hnof⟩
    · rw [hoth hne] at hso ⊢
      exact h.files fp' so hso
  · rcases eq_or_ne fp' fp with rfl | hne
    · rw [hself] at hso
      by_contra hne'
      rw [hoth (Ne.symm hne')] at hso'
      exact (hdata so hso).2.2 _ hso'
    · rw [hoth hne] at hso
      rcases eq_or_ne fp'' fp with rfl | hne'
      · rw [hself] at hso'
        exact absurd hso ((hdata so hso').2.2 _)
      · rw [hoth hne'] at hso'
        exact h.inj _ _ so hso hso'

theorem State.newSocket_self (s : State) (b : Bool) : (s.newSocket b).socket s.nsock = ⟨[], true, b, []⟩ :=
  update_self ..

theorem State.newSocket_of_lt (s : State) (b : Bool) (hso : so < s.nsock) :
    (s.newSocket b).socket so = s.socket so :=
  update_of_ne hso.ne ..

theorem flatMap_newSocket (s : State) (b : Bool) {g : Socket → List ℕ} (hg : g ⟨[], true, b, []⟩ = []) :
    ((range (s.nsock + 1)).flatMap fun so => g ((s.newSocket b).socket so)) =
      (range s.nsock).flatMap fun so => g (s.socket so) := by
  rw [range_succ, flatMap_append, flatMap_singleton, s.newSocket_self, hg, append_nil]
  refine flatMap_congr fun so hso => ?_
  rw [s.newSocket_of_lt b (mem_range.1 hso)]

theorem queued_newSocket (s : State) (b : Bool) : (s.newSocket b).queued = s.queued :=
  flatMap_newSocket s b (g := fun x => x.so_rcv.flatten) rfl

theorem waiting_newSocket (s : State) (b : Bool) : (s.newSocket b).waiting = s.waiting :=
  flatMap_newSocket s b (g := Socket.so_q) rfl

theorem Sockets.newSocket (h : Sockets s []) (b : Bool) : Sockets (s.newSocket b) [] := by
  refine ⟨fun fp so hdata => ?_, h.inj, by rw [waiting_newSocket]; exact h.nodup, fun so hso => ?_, by simp, by simp⟩
  · obtain ⟨hne, hlt, hor⟩ := h.files fp so hdata
    rw [s.newSocket_of_lt b hlt]
    exact ⟨hne, hlt.trans (lt_succ_self _), hor⟩
  · rw [waiting_newSocket] at hso
    obtain ⟨hlt, htrue⟩ := h.waiting so hso
    rw [s.newSocket_of_lt b hlt]
    exact ⟨hlt.trans (lt_succ_self _), htrue⟩

theorem waiting_setSocket (hso : so < s.nsock) (f : Socket → Socket) :
    (s.setSocket so f).waiting ++ (s.socket so).so_q ~ s.waiting ++ (f (s.socket so)).so_q := by
  have hperm := flatMap_range_perm (fun so => (s.socket so).so_q)
    (fun so' => ((s.setSocket so f).socket so').so_q) hso
    fun so' hne => by rw [s.setSocket_of_ne f hne]
  rwa [s.setSocket_self] at hperm

theorem Inv.unp_gcing (h : Inv c) (hstack : c.stack = []) : c.state.unp_gcing = false := by
  rcases h.sweeping with ⟨hgc, -⟩ | ⟨_, _, heq, -⟩
  · exact hgc
  · cases hstack.symm.trans heq

theorem Inv.falloc (h : Inv ⟨s, []⟩) (hlt : fp < s.nfile) (hzero : (s.file fp).f_count = 0)
    (hf : s.u_ofile[f]? = some none) (socket : Bool) : Inv ⟨Uipc.falloc s f fp socket, []⟩ := by
  have hgc : s.unp_gcing = false := h.unp_gcing rfl
  have hset := descriptors_set hf (some fp)
  rw [toList_none, append_nil, toList_some] at hset
  have hheld : fp :: (s.descriptors ++ []) ~ ({ s with u_ofile := s.u_ofile.set f (some fp) } : State).descriptors ++ [] := by
    rw [append_nil, append_nil]
    exact (perm_append_singleton fp _).symm.trans hset.symm
  rw [Uipc.falloc]
  split_ifs
  · have hcou : Counts (s.newSocket false) (s.queued ++ []) (s.descriptors ++ []) :=
      ⟨h.counts.msgcount, h.counts.count, h.counts.rights, h.counts.le, h.counts.lt⟩
    have hsoc : Sockets (s.newSocket false) [] := h.sockets.newSocket false
    refine ⟨?_, hsoc.openFile hzero f fun so hso => ?_, by simp, .inl ⟨hgc, by simp⟩⟩
    · refine (hcou.openFile hzero hlt f _).perm (.of_eq ?_) hheld
      exact congrArg (· ++ []) (queued_newSocket s false).symm
    · obtain rfl := Data.socket.inj hso
      refine ⟨lt_succ_self _, congrArg Socket.nofdref (s.newSocket_self false), fun fp' hdata => ?_⟩
      exact absurd (h.sockets.files fp' _ hdata).2.1 (lt_irrefl _)
  · refine ⟨(h.counts.openFile hzero hlt f _).perm (.refl _) hheld, h.sockets.openFile hzero f fun so hso => ?_, by simp,
      .inl ⟨hgc, by simp⟩⟩
    cases hso

theorem Inv.sonewconn (h : Inv ⟨s, []⟩) (hhead : head < s.nsock) : Inv ⟨Uipc.sonewconn s head, []⟩ := by
  have hcou : Counts (Uipc.sonewconn s head) (s.queued ++ []) (s.descriptors ++ []) :=
    ⟨h.counts.msgcount, h.counts.count, h.counts.rights, h.counts.le, h.counts.lt⟩
  have hsoc : Sockets (s.newSocket true) [] := h.sockets.newSocket true
  have hwai : (Uipc.sonewconn s head).waiting ~ s.nsock :: s.waiting := by
    have hperm := waiting_setSocket (s := s.newSocket true) (hhead.trans (lt_succ_self _))
      fun x => { x with so_q := s.nsock :: x.so_q }
    rw [waiting_newSocket, s.newSocket_of_lt true hhead, append_cons] at hperm
    exact ((perm_append_right_iff _).1 hperm).trans (perm_append_singleton ..)
  have hnof (so : ℕ) : ((Uipc.sonewconn s head).socket so).nofdref = ((s.newSocket true).socket so).nofdref := by
    rw [Uipc.sonewconn]
    rcases eq_or_ne so head with rfl | hne
    · rw [State.setSocket_self]
    · rw [State.setSocket_of_ne _ _ hne]
  refine ⟨hcou.perm (.of_eq (congrArg (· ++ []) ?_)) (.refl _), ⟨fun fp so hdata => ?_, h.sockets.inj, ?_, fun so hso => ?_,
    by simp, by simp⟩, by simp, .inl ⟨h.unp_gcing rfl, by simp⟩⟩
  · exact ((queued_setSocket_of_eq (f := fun x => { x with so_q := s.nsock :: x.so_q }) head rfl).trans
      (queued_newSocket s true)).symm
  · dsimp only
    rw [hnof]
    exact hsoc.files fp so hdata
  · exact hwai.nodup_iff.2 (nodup_cons.2 ⟨fun hmem => lt_irrefl _ (h.sockets.waiting _ hmem).1, h.sockets.nodup⟩)
  · dsimp only
    rw [hnof]
    rcases mem_cons.1 (hwai.subset hso) with rfl | hmem
    · exact ⟨lt_succ_self _, congrArg Socket.nofdref (s.newSocket_self true)⟩
    · exact hsoc.waiting so (by rwa [waiting_newSocket])

/-- `SS_NOFDREF` is cleared of a socket that no connection waits on. -/
theorem Sockets.refer (h : Sockets s []) (hso : so ∉ s.waiting) :
    Sockets (s.setSocket so fun x => { x with nofdref := false }) [] := by
  have hwai : (s.setSocket so fun x => { x with nofdref := false }).waiting = s.waiting := by
    refine flatMap_congr fun so' _ => ?_
    rcases eq_or_ne so' so with rfl | hne
    · rw [s.setSocket_self]
    · rw [s.setSocket_of_ne _ hne]
  refine ⟨fun fp so' hdata => ?_, h.inj, hwai ▸ h.nodup, fun so' hso' => ?_, by simp, by simp⟩
  · obtain ⟨hne, hlt, hor⟩ := h.files fp so' hdata
    refine ⟨hne, hlt, ?_⟩
    rcases eq_or_ne so' so with rfl | hne'
    · rw [s.setSocket_self]
      exact .inl rfl
    · rwa [s.setSocket_of_ne _ hne']
  · rw [hwai] at hso'
    have hne : so' ≠ so := fun heq => hso (heq ▸ hso')
    rw [s.setSocket_of_ne _ hne]
    exact h.waiting so' hso'

theorem Inv.accept (h : Inv ⟨s, []⟩) (hhead : head < s.nsock) (hlt : fp < s.nfile)
    (hzero : (s.file fp).f_count = 0) (hf : s.u_ofile[f]? = some none) (hs : accept s head f fp = some s') :
    Inv ⟨s', []⟩ := by
  rw [Uipc.accept] at hs
  cases hq : (s.socket head).so_q with
  | nil =>
    rw [hq] at hs
    cases hs
  | cons aso so_q =>
    rw [hq] at hs
    cases hs
    set s1 := s.setSocket head fun x => { x with so_q := so_q } with hs1
    have hwai : s.waiting ~ aso :: s1.waiting := by
      have hperm := waiting_setSocket hhead fun x => { x with so_q := so_q }
      rw [hq, append_cons] at hperm
      exact ((perm_append_right_iff _).1 hperm).symm.trans (perm_append_singleton ..)
    have hnd := nodup_cons.1 (hwai.nodup_iff.1 h.sockets.nodup)
    obtain ⟨haso, htrue⟩ := h.sockets.waiting aso (hwai.symm.subset mem_cons_self)
    have hkps : Keeps s s1 := .setSocket s head rfl (by rw [hq]; exact sublist_cons_self ..)
    have hsoc : Sockets s1 [] := (h.call [] hkps rfl (by simp) (by
      rw [hs1, queued_setSocket_of_eq head rfl]
      exact h.counts.setSocket head fun x => { x with so_q := so_q })).sockets
    set s2 := s1.setSocket aso fun x => { x with nofdref := false } with hs2
    have hcou : Counts s2 (s.queued ++ []) (s.descriptors ++ []) :=
      (h.counts.setSocket head fun x => { x with so_q := so_q }).setSocket aso fun x => { x with nofdref := false }
    have hset := descriptors_set hf (some fp)
    rw [toList_none, append_nil, toList_some] at hset
    refine ⟨(hcou.openFile hzero hlt f _).perm (.of_eq (congrArg (· ++ []) ?_)) ?_,
      (hsoc.refer hnd.1).openFile hzero f fun so hso => ?_, by simp, .inl ⟨h.unp_gcing rfl, by simp⟩⟩
    · exact ((queued_setSocket_of_eq (f := fun x => { x with nofdref := false }) aso rfl).trans
        (queued_setSocket_of_eq (f := fun x => { x with so_q := so_q }) head rfl)).symm
    · rw [append_nil]
      exact (perm_append_singleton fp _).symm.trans (hset.symm.trans (.of_eq (append_nil _).symm))
    · obtain rfl := Data.socket.inj hso
      refine ⟨haso, congrArg Socket.nofdref (s1.setSocket_self ..), fun fp' hdata => ?_⟩
      -- no file is of a connection that was not accepted
      have hfls := (h.sockets.files fp' aso hdata).2.2.resolve_right not_mem_nil
      exact absurd (hfls.symm.trans htrue) (by decide)

/-- A proper call keeps the invariant. -/
theorem Inv.start (h : Inv ⟨s, []⟩) (hp : Proper ⟨s, []⟩ op)
    (hr : start s op = some r) : Inv ⟨r.1, r.2⟩ := by
  cases op with
  | tick => cases hr
  | send p fds so2 space =>
    obtain ⟨hso, heq⟩ := ite_none_right_eq_some.1 hr
    cases heq
    exact h.send hp hso.1
  | recv p so rightsp error rest =>
    obtain ⟨hso, heq⟩ := ite_none_right_eq_some.1 hr
    exact h.recv hp hso heq
  | close f =>
    rw [Uipc.start] at hr
    split at hr
    · rename_i fp hf
      cases hr
      exact h.close hf
    · cases hr
  | gc =>
    obtain ⟨mark, hmark, hinv⟩ := h.unp_gc (h.unp_gcing rfl) (by simp) hp
    obtain rfl := some_inj.1 (hmark.symm.trans hr)
    exact hinv
  | dup f f' =>
    rw [Uipc.start] at hr
    split at hr
    · rename_i fp hf hf'
      cases hr
      exact h.dup hp hf hf'
    · cases hr
  | falloc f fp socket =>
    obtain ⟨⟨hlt, hzero, hf⟩, heq⟩ := ite_none_right_eq_some.1 hr
    cases heq
    exact h.falloc hlt hzero hf socket
  | connect head =>
    obtain ⟨hhead, heq⟩ := ite_none_right_eq_some.1 hr
    cases heq
    exact h.sonewconn hhead.1
  | accept head f fp =>
    obtain ⟨⟨hhead, hlt, hzero, hf⟩, heq⟩ := ite_none_right_eq_some.1 hr
    obtain ⟨s', hs', rfl⟩ := map_eq_some_iff.1 heq
    exact h.accept hhead hlt hzero hf hs'

/-! ### Runs -/

/-- Nothing is open. -/
def initial (nfile n : ℕ) : Config :=
  ⟨⟨nfile, fun _ => ⟨0, 0, .other, false⟩, 0, fun _ => ⟨[], false, true, []⟩, replicate n none, 0, false⟩, []⟩

/-- The runs of a kernel with `nfile` entries in its file table, and `n` descriptors. -/
def system (nfile n : ℕ) : System Config Op := .ofExec {initial nfile n} Config.step

/-- The file that a tick closes for good. -/
def Config.closing (c : Config) : List ℕ :=
  match c.stack with
  | .closed fp :: _ => [fp]
  | _ => []

/-- Ticks, with the files that they close. -/
inductive Ticks : Config → List ℕ → Config → Prop
  | refl (c : Config) : Ticks c [] c
  | step {c c' c'' : Config} {l : List ℕ} : c.step .tick = some c' → Ticks c' l c'' → Ticks c (c.closing ++ l) c''

/-- A tick that closes no file for good. -/
theorem Ticks.next {fr : Frame} (hr : tick s fr = some r)
    (hfr : ∀ fp, fr ≠ .closed fp) (h : Ticks ⟨r.1, r.2 ++ stack⟩ l c) : Ticks ⟨s, fr :: stack⟩ l c := by
  have hclo : (Config.mk s (fr :: stack)).closing = [] := by
    cases fr with
    | closed fp => exact absurd rfl (hfr fp)
    | _ => rfl
  have hstep : (Config.mk s (fr :: stack)).step .tick = some ⟨r.1, r.2 ++ stack⟩ := congrArg (Option.map _) hr
  have hticks := Ticks.step hstep h
  rwa [hclo, nil_append] at hticks

/-- A run of `unp_gc` comes to an end, and closes the files that could not be reached in `c`, each of
    them once. -/
def Collects (c c' : Config) (stack : List Frame) : Prop :=
  ∃ l s', Ticks c' l ⟨s', stack⟩ ∧ l.Nodup ∧ ∀ fp, fp ∈ l ↔ (c.state.file fp).f_count ≠ 0 ∧ ¬Reached c fp

/-- What the counts are between calls. -/
structure Sound (c : Config) : Prop where
  msgcount : c.stack = [] → ∀ fp, (c.state.file fp).f_msgcount = c.state.queued.count fp
  count : c.stack = [] → ∀ fp,
    (c.state.file fp).f_count = (c.state.queued.count fp + c.state.descriptors.count fp : ℕ)
  rights : c.stack = [] → c.state.unp_rights = ∑ fp ∈ Finset.range c.state.nfile, (c.state.file fp).f_msgcount

theorem inv_initial (nfile n : ℕ) : Inv (initial nfile n) := by
  have hnone : (replicate n (none : Option ℕ)).reduceOption = [] := reduceOption_replicate_none
  refine ⟨⟨fun _ => rfl, fun fp => ?_, rfl, by simp [initial], by simp [initial]⟩, ⟨?_, ?_, .nil, ?_, ?_, ?_⟩, ?_,
    .inl ⟨rfl, by simp [initial]⟩⟩
  · simp [initial, Config.messages, Config.holders, State.queued, State.descriptors, hnone]
  all_goals simp [initial, State.waiting]

theorem Inv.step_of_proper (h : Inv c) (hp : Proper c op) (hs : c.step op = some c') :
    Inv c' := by
  obtain ⟨s, stack⟩ := c
  cases stack with
  | nil =>
    cases op with
    | tick => cases hs
    | _ =>
      obtain ⟨r, hr, rfl⟩ := map_eq_some_iff.1 hs
      exact h.start hp hr
  | cons fr stack =>
    cases op with
    | tick =>
      obtain ⟨r, hr, rfl⟩ := map_eq_some_iff.1 hs
      obtain ⟨r', hr', hinv⟩ := h.tick fun hfr => hp stack (by rw [hfr])
      obtain rfl := some_inj.1 (hr'.symm.trans hr)
      exact hinv
    | _ => cases hs

theorem inv_of_proper {nfile : ℕ} (hc : ((system nfile n).restrict Proper).Reachable c) : Inv c := by
  refine hc.invariant (fun c hc => ?_) fun c op c' h hs => h.step_of_proper hs.1 hs.2
  rw [Set.mem_singleton_iff.1 hc]
  exact inv_initial nfile n

theorem Inv.sound (h : Inv c) : Sound c := by
  obtain ⟨s, stack⟩ := c
  have hmsg (hstack : stack = []) (fp : ℕ) : (s.file fp).f_msgcount = s.queued.count fp := by
    subst hstack
    simpa [Config.messages] using h.counts.msgcount fp
  refine ⟨hmsg, fun hstack fp => ?_, fun hstack => ?_⟩
  · obtain rfl := hstack
    simpa [Config.messages, Config.holders] using h.counts.count fp
  · -- every right is one of a file in the table
    have hlt : ∀ fp ∈ (s.queued : Multiset ℕ), fp ∈ Finset.range s.nfile := fun fp hfp => by
      have hpos := count_pos_iff.2 (Multiset.mem_coe.1 hfp)
      have hcnt := h.counts.count fp
      have hmes : s.queued.count fp ≤ (Config.messages ⟨s, stack⟩).count fp := by
        rw [Config.messages, count_append]
        exact Nat.le_add_right _ _
      dsimp only at hcnt
      exact Finset.mem_range.2 (h.counts.lt fp (by dsimp only; omega))
    have hlen : s.unp_rights = s.queued.length := by
      obtain rfl := hstack
      simpa [Config.messages] using h.counts.rights
    dsimp only
    calc s.unp_rights
      _ = ((s.queued : Multiset ℕ).card : ℕ) := hlen
      _ = ((∑ fp ∈ Finset.range s.nfile, (s.queued : Multiset ℕ).count fp : ℕ) : ℤ) := by
        rw [Multiset.sum_count_eq_card hlt]
      _ = ∑ fp ∈ Finset.range s.nfile, (s.file fp).f_msgcount := by
        rw [cast_sum]
        exact Finset.sum_congr rfl fun fp _ => by rw [hmsg hstack fp, Multiset.coe_count]

/-- The last loop of `unp_gc` comes to an end, and closes nothing. -/
theorem Inv.sweeps (h : Inv ⟨s, .sweep k :: stack⟩) : ∃ s', Ticks ⟨s, .sweep k :: stack⟩ [] ⟨s', stack⟩ := by
  induction hd : s.nfile - k generalizing k with
  | zero =>
    rcases h.sweep with ⟨-, hsweep, -⟩ | ⟨hlt, -⟩
    · exact ⟨_, .next (congrArg some hsweep) (by simp) (.refl _)⟩
    · omega
  | succ d ih =>
    rcases h.sweep with ⟨hle, -⟩ | ⟨-, hsweep, hinv⟩
    · omega
    · obtain ⟨s', hticks⟩ := ih hinv (by omega)
      exact ⟨s', .next (congrArg some hsweep) (by simp) hticks⟩

/-- Where there is no garbage, `unp_gc` closes nothing. -/
theorem NoGarbage.collects (h : NoGarbage c) (hticks : ∃ s', Ticks c' [] ⟨s', stack⟩) :
    Collects c c' stack := by
  obtain ⟨s', hticks⟩ := hticks
  exact ⟨[], s', hticks, nodup_nil, fun fp => iff_of_false not_mem_nil fun hfp => hfp.2 (h fp hfp.1)⟩

/-- In a run whose calls lose no rights and make no count too large, and in which `unp_gc` is not run
    while there is garbage, the counts are right, and `unp_gc` comes to an end and closes
    what could not be reached. -/
theorem unp_sound {nfile n : ℕ} {c : Config} (hc : ((system nfile n).restrict Proper).Reachable c) :
    Sound c ∧ (∀ stack, c.stack = .unp_gc :: stack → Proper c .tick → Collects c c stack) ∧
      ∀ c', c.step .gc = some c' → Proper c .gc → Collects c c' [] := by
  have h := inv_of_proper hc
  refine ⟨h.sound, fun stack hstack hp => ?_, fun c' hc' hp => ?_⟩
  · obtain ⟨s, stack'⟩ := c
    obtain rfl : stack' = .unp_gc :: stack := hstack
    have hno : NoGarbage ⟨s, .unp_gc :: stack⟩ := hp stack rfl
    obtain ⟨hgc, hall⟩ := h.not_sweeping rfl
    refine hno.collects ?_
    by_cases hrig : s.unp_rights ≠ 0
    · have hdrop : Inv ⟨s, stack⟩ := h.drop (by simp) rfl rfl rfl
      obtain ⟨mark, hmark, hinv⟩ := hdrop.unp_gc hgc hall hno.drop
      obtain ⟨s', hticks⟩ := hinv.sweeps
      have htick : tick s .unp_gc = some (s.marked mark, [.sweep 0]) := by rw [Uipc.tick, if_pos hrig, hmark]
      exact ⟨s', .next htick (by simp) hticks⟩
    · have htick : tick s .unp_gc = some (s, []) := by rw [Uipc.tick, if_neg hrig]
      exact ⟨s, .next htick (by simp) (.refl _)⟩
  · obtain ⟨s, stack⟩ := c
    cases stack with
    | nil =>
      obtain ⟨mark, hmark, hinv⟩ := h.unp_gc (h.unp_gcing rfl) (by simp) hp
      obtain ⟨r, hr, rfl⟩ := map_eq_some_iff.1 hc'
      obtain rfl := some_inj.1 (hmark.symm.trans hr)
      exact hp.collects hinv.sweeps
    | cons fr stack => cases hc'

/-- Two files with sockets, to the first of which a right to the second one is sent. -/
theorem unp_sound_oneRight : ∃ c, [.falloc 0 0 true, .falloc 1 1 true, .send 0 [1] 0 true].foldlM Config.step
    (initial 2 2) = some c ∧ c.state.queued = [1] ∧ Sound c := by
  have hope : ((system 2 2).restrict Proper).Reachable ⟨falloc (falloc (initial 2 2).state 0 0 true) 1 1 true, []⟩ :=
    (System.Reachable.init rfl).foldlM_restrict [.falloc 0 0 true, .falloc 1 1 true]
      (by simp [Proper]) rfl
  have hp : Proper ⟨falloc (falloc (initial 2 2).state 0 0 true) 1 1 true, []⟩ (.send 0 [1] 0 true) := by
    intro fps hfps
    obtain rfl : [1] = fps := some_inj.1 hfps
    refine ⟨.inl rfl, fun fp => ?_⟩
    have hcnt : [1].count fp ≤ 1 := count_le_length
    have hle : ((falloc (falloc (initial 2 2).state 0 0 true) 1 1 true).file fp).f_count ≤ 1 := by
      simp only [falloc, State.openFile, State.newSocket, initial, update_apply, if_true]
      split_ifs <;> simp
    dsimp only
    omega
  exact ⟨_, rfl, by decide, (unp_sound (hope.step ⟨hp, rfl⟩)).1⟩

/-! ### Garbage -/

/-- So many ticks. -/
def Config.ticks : ℕ → Config → Option Config
  | 0, c => some c
  | n + 1, c => (c.step .tick).bind (ticks n)

theorem Ticks.ticks (h : Ticks c l c') : ∃ n, c.ticks n = some c' := by
  induction h with
  | refl c => exact ⟨0, rfl⟩
  | step hstep _ ih =>
    obtain ⟨n, hn⟩ := ih
    refine ⟨n + 1, ?_⟩
    rw [Config.ticks, hstep, bind_some, hn]

theorem ticks_none (h : c.ticks k = none) (hle : k ≤ n) : c.ticks n = none := by
  induction k generalizing c n with
  | zero => cases h
  | succ k ih =>
    obtain ⟨n, rfl⟩ := Nat.exists_eq_add_of_le' (le_of_lt_succ (lt_succ_of_le hle) |> one_le_of_lt)
    rw [Config.ticks] at h ⊢
    cases hstep : c.step .tick with
    | none => rfl
    | some c' =>
      rw [hstep, bind_some] at h
      exact ih h (by omega)

/-- A socket is sent to itself, and its descriptor is closed; the other end of the connection is
    closed then. -/
def selfSent : List Op :=
  [.falloc 0 0 true, .falloc 1 1 true, .send 0 [0] 0 true, .close 0, .tick, .close 1, .tick, .tick]

/-- `unp_gc` closes the socket that refers to itself twice, which is a panic. -/
theorem unp_gc_panics : ¬∀ nfile n c, (system nfile n).Reachable c → Sound c ∧
    (∀ stack, c.stack = .unp_gc :: stack → Collects c c stack) ∧ ∀ c', c.step .gc = some c' → Collects c c' [] := by
  intro h
  have hstack : (selfSent.foldlM Config.step (initial 2 2)).map Config.stack = some [.unp_gc, .discard 1 1] := by
    decide +kernel
  have hnone : ((selfSent.foldlM Config.step (initial 2 2)).bind (Config.ticks 13)).isNone = true := by
    decide +kernel
  have hoth : ∀ k < 13, ((selfSent.foldlM Config.step (initial 2 2)).bind (Config.ticks k)).map Config.stack ≠
      some [.discard 1 1] := by
    decide +kernel
  obtain ⟨c, hc, hstack⟩ := map_eq_some_iff.1 hstack
  rw [hc, bind_some] at hnone
  have hrch : (system 2 2).Reachable c := (System.Reachable.init rfl).foldlM hc
  obtain ⟨l, s', hticks, -⟩ := (h 2 2 c hrch).2.1 _ hstack
  obtain ⟨k, hk⟩ := hticks.ticks
  have hlt : k < 13 := by
    by_contra hle
    cases (ticks_none (isNone_iff_eq_none.1 hnone) (not_lt.1 hle)).symm.trans hk
  have hne := hoth k hlt
  rw [hc, bind_some, hk] at hne
  exact hne rfl

end Uwisc.Uipc
