import Uwisc.Lib.Holders
import Uwisc.Sys.Uipc

/-!
# The counts of files

The rights in messages are those in the receive buffers and those that a call in progress is to
discard; what else holds a file are descriptors, and a call that closes it. `f_msgcount` and
`f_count` are the numbers of these (`Counts`), and every tick keeps the counts, as long as
`unp_gc` finds nothing to discard (`Inv.tick`).

* `Reached`: what a descriptor or a call that closes it leads to;
* `NoGarbage`: every file in use is reached;
* `Counts`, `Sockets`, `Sweeping`: the invariant `Inv`;
* `Inv.tick`: a tick keeps the invariant, and is not a panic.
-/

namespace Uwisc.Uipc

open Lib Function List

/-- The rights in the receive buffers. -/
def State.queued (s : State) : List ℕ := (range s.nsock).flatMap fun so => (s.socket so).so_rcv.flatten

/-- The files that descriptors refer to. -/
def State.descriptors (s : State) : List ℕ := s.u_ofile.reduceOption

/-- The connections that are not accepted yet. -/
def State.waiting (s : State) : List ℕ := (range s.nsock).flatMap fun so => (s.socket so).so_q

/-- The rights that are still to be discarded. -/
def Frame.scans : Frame → List ℕ
  | .unp_scan fps => fps
  | _ => []

/-- The file that is closed. -/
def Frame.closes : Frame → List ℕ
  | .closef fp | .discard fp _ | .closed fp => [fp]
  | _ => []

/-- The file whose last reference is closed. -/
def Frame.lasts : Frame → List ℕ
  | .discard fp _ | .closed fp => [fp]
  | _ => []

/-- The socket that is worked on. -/
def Frame.sockets : Frame → List ℕ
  | .abort so | .detach so | .discard _ so | .sofree so => [so]
  | _ => []

/-- A frame of the last loop of `unp_gc`. -/
def Frame.sweeps : Frame → Bool
  | .sweep _ | .sweepOne _ => true
  | _ => false

/-- The rights in messages. -/
def Config.messages (c : Config) : List ℕ := c.state.queued ++ c.stack.flatMap Frame.scans

/-- What else holds a file. -/
def Config.holders (c : Config) : List ℕ := c.state.descriptors ++ c.stack.flatMap Frame.closes

/-- What can be reached from a descriptor, or from a file that is being closed. -/
inductive Reached (c : Config) : ℕ → Prop
  | held {fp : ℕ} : fp ∈ c.holders → Reached c fp
  | right {fp fp' : ℕ} : Reached c fp → fp' ∈ c.state.rights fp → Reached c fp'

/-- Every file in use can be reached. -/
def NoGarbage (c : Config) : Prop := ∀ fp, (c.state.file fp).f_count ≠ 0 → Reached c fp

/-- The counts, of the rights `msgs` in messages and of what else holds a file. -/
structure Counts (s : State) (msgs held : List ℕ) : Prop where
  msgcount : ∀ fp, (s.file fp).f_msgcount = msgs.count fp
  count : ∀ fp, (s.file fp).f_count = (msgs.count fp + held.count fp : ℕ)
  rights : s.unp_rights = msgs.length
  le : ∀ fp, (s.file fp).f_count ≤ 32767
  lt : ∀ fp, (s.file fp).f_count ≠ 0 → fp < s.nfile

/-- A socket is of one file or of none, and a connection that is not accepted of none. -/
structure Sockets (s : State) (stack : List Frame) : Prop where
  files : ∀ fp so, (s.file fp).f_data = .socket so → (s.file fp).f_count ≠ 0 ∧ so < s.nsock ∧
    ((s.socket so).nofdref = false ∨ .closed fp ∈ stack)
  inj : ∀ fp fp' so, (s.file fp).f_data = .socket so → (s.file fp').f_data = .socket so → fp = fp'
  nodup : s.waiting.Nodup
  waiting : ∀ so ∈ s.waiting, so < s.nsock ∧ (s.socket so).nofdref = true
  frames : ∀ fr ∈ stack, ∀ so ∈ fr.sockets, so < s.nsock
  discards : ∀ fp so, .discard fp so ∈ stack → (s.file fp).f_data = .socket so

/-- In the last loop of `unp_gc` every file in use is marked. -/
def Sweeping (s : State) (stack : List Frame) : Prop :=
  (s.unp_gcing = false ∧ ∀ fr ∈ stack, fr.sweeps = false) ∨
    ∃ fp rest, stack = .sweep fp :: rest ∧ (∀ fr ∈ rest, fr.sweeps = false) ∧ s.unp_gcing = true ∧
      ∀ fp, (s.file fp).f_count ≠ 0 → (s.file fp).mark = true

structure Inv (c : Config) : Prop where
  counts : Counts c.state c.messages c.holders
  sockets : Sockets c.state c.stack
  lasts : ∀ fr ∈ c.stack, ∀ fp ∈ fr.lasts, (c.state.file fp).f_count = 1
  sweeping : Sweeping c.state c.stack

variable {s s' : State} {msgs msgs' held held' : List ℕ} {stack : List Frame} {fp so : ℕ}

/-! ### Counts -/

theorem Counts.perm (h : Counts s msgs held) (hm : msgs ~ msgs') (hh : held ~ held') : Counts s msgs' held' where
  msgcount fp := by rw [h.msgcount, hm.count_eq]
  count fp := by rw [h.count, hm.count_eq, hh.count_eq]
  rights := by rw [h.rights, hm.length_eq]
  le := h.le
  lt := h.lt

theorem Counts.setSocket (h : Counts s msgs held) (so : ℕ) (f : Socket → Socket) :
    Counts (s.setSocket so f) msgs held :=
  ⟨h.msgcount, h.count, h.rights, h.le, h.lt⟩

theorem Counts.pos (h : Counts s msgs (fp :: held)) : 0 < (s.file fp).f_count := by
  rw [h.count, count_cons_self]
  omega

/-- Where the counts of a file are what they are to be, and the others stay. -/
theorem Counts.of_file (fp : ℕ) (h : Counts s msgs held) {x : File} (hfile : s'.file = update s.file fp x)
    (hn : s'.nfile = s.nfile) (hlt : fp < s.nfile) (hle : x.f_count ≤ 32767)
    (hmsg : x.f_msgcount = msgs'.count fp) (hcnt : x.f_count = (msgs'.count fp + held'.count fp : ℕ))
    (hmsgs : ∀ y, y ≠ fp → msgs'.count y = msgs.count y) (hheld : ∀ y, y ≠ fp → held'.count y = held.count y)
    (hrig : s'.unp_rights = msgs'.length) : Counts s' msgs' held' := by
  have hoth (y : ℕ) (hy : y ≠ fp) : s'.file y = s.file y := by rw [hfile, update_of_ne hy]
  have hself : s'.file fp = x := by rw [hfile, update_self]
  refine ⟨fun y => ?_, fun y => ?_, hrig, fun y => ?_, fun y hne => ?_⟩
  all_goals rcases eq_or_ne y fp with rfl | hy
  · rwa [hself]
  · rw [hoth y hy, h.msgcount, hmsgs y hy]
  · rwa [hself]
  · rw [hoth y hy, h.count, hmsgs y hy, hheld y hy]
  · rwa [hself]
  · rw [hoth y hy]
    exact h.le y
  · rwa [hn]
  · rw [hn]
    exact h.lt y (hoth y hy ▸ hne)

theorem count_cons_other {x y : ℕ} (hne : y ≠ x) (l : List ℕ) : (x :: l).count y = l.count y :=
  count_cons_of_ne (Ne.symm hne)

/-- A right is discarded: it holds the file until that is closed. -/
theorem Counts.discard (h : Counts s (fp :: msgs) held) : Counts (unp_discard s fp) msgs (fp :: held) := by
  have hcnt := h.count fp
  have hmsg := h.msgcount fp
  have hrig := h.rights
  rw [count_cons_self] at hcnt hmsg
  rw [length_cons] at hrig
  refine h.of_file fp rfl rfl (h.lt fp (by omega)) (h.le fp) ?_ ?_ (fun y hy => (count_cons_other hy _).symm)
    (fun y hy => count_cons_other hy _) ?_
  · change (s.file fp).f_msgcount - 1 = _
    omega
  · change (s.file fp).f_count = _
    rw [count_cons_self]
    omega
  · change s.unp_rights - 1 = _
    omega

/-- A file is closed, and others still hold it. -/
theorem Counts.close (h : Counts s msgs (fp :: held)) :
    Counts (s.setFile fp fun f => { f with f_count := f.f_count - 1 }) msgs held := by
  have hcnt := h.count fp
  have hle := h.le fp
  rw [count_cons_self] at hcnt
  refine h.of_file fp rfl rfl (h.lt fp (by omega)) ?_ (h.msgcount fp) ?_ (fun _ _ => rfl)
    (fun y hy => (count_cons_other hy _).symm) h.rights
  · change (s.file fp).f_count - 1 ≤ _
    omega
  · change (s.file fp).f_count - 1 = _
    omega

/-- The last reference to a file is gone. -/
theorem Counts.closed (h : Counts s msgs (fp :: held)) (hone : (s.file fp).f_count = 1) (data : Data) :
    Counts (s.setFile fp fun f => { f with f_count := 0, f_data := data }) msgs held := by
  have hcnt := h.count fp
  rw [count_cons_self] at hcnt
  refine h.of_file fp rfl rfl (h.lt fp (by omega)) (by simp) (h.msgcount fp) ?_ (fun _ _ => rfl)
    (fun y hy => (count_cons_other hy _).symm) h.rights
  change 0 = _
  omega

/-- Nothing else holds a file that is closed for the last time. -/
theorem Counts.last (h : Counts s msgs (fp :: held)) (hone : (s.file fp).f_count = 1) : fp ∉ held ∧ fp ∉ msgs := by
  have hcnt := h.count fp
  rw [count_cons_self] at hcnt
  exact ⟨count_eq_zero.1 (by omega), count_eq_zero.1 (by omega)⟩

/-! ### Sockets -/

/-- Files keep their sockets, and no socket loses its file or gets a connection. -/
structure Keeps (s s' : State) : Prop where
  nsock : s'.nsock = s.nsock
  nofdref : ∀ so, (s'.socket so).nofdref = (s.socket so).nofdref
  so_q : ∀ so, (s'.socket so).so_q <+ (s.socket so).so_q
  f_data : ∀ fp, (s'.file fp).f_data = (s.file fp).f_data
  f_count : ∀ fp, (s.file fp).f_count ≠ 0 → (s'.file fp).f_count ≠ 0

theorem Keeps.refl (s : State) : Keeps s s := ⟨rfl, fun _ => rfl, fun _ => .refl _, fun _ => rfl, fun _ => id⟩

variable {fp' : ℕ} {c : Config} {fr : Frame} {f : Socket → Socket}

theorem Keeps.setSocket (s : State) (so : ℕ)
    (hnof : (f (s.socket so)).nofdref = (s.socket so).nofdref)
    (hq : (f (s.socket so)).so_q <+ (s.socket so).so_q) : Keeps s (s.setSocket so f) := by
  refine ⟨rfl, fun so' => ?_, fun so' => ?_, fun _ => rfl, fun _ => id⟩
  all_goals rcases eq_or_ne so' so with rfl | hne
  · rwa [s.setSocket_self]
  · rw [s.setSocket_of_ne f hne]
  · rwa [s.setSocket_self]
  · rw [s.setSocket_of_ne f hne]

theorem Keeps.setFile (s : State) (fp : ℕ) {f : File → File} (hdata : (f (s.file fp)).f_data = (s.file fp).f_data)
    (hcnt : (s.file fp).f_count ≠ 0 → (f (s.file fp)).f_count ≠ 0) : Keeps s (s.setFile fp f) := by
  refine ⟨rfl, fun _ => rfl, fun _ => .refl _, fun fp' => ?_, fun fp' h => ?_⟩
  all_goals rcases eq_or_ne fp' fp with rfl | hne
  · rwa [s.setFile_self]
  · rw [s.setFile_of_ne f hne]
  · rw [s.setFile_self]
    exact hcnt h
  · rwa [s.setFile_of_ne f hne]

theorem Keeps.discard (s : State) (fp : ℕ) : Keeps s (unp_discard s fp) :=
  have h := setFile s fp (f := fun f => { f with f_msgcount := f.f_msgcount - 1 }) rfl id
  ⟨h.nsock, h.nofdref, h.so_q, h.f_data, h.f_count⟩

theorem Keeps.waiting (h : Keeps s s') : s'.waiting <+ s.waiting := by
  rw [State.waiting, State.waiting, h.nsock]
  exact Sublist.flatMap_right _ fun so _ => h.so_q so

/-- A frame is done, and others may have to be. -/
theorem Sockets.step {frames : List Frame} (h : Sockets s (fr :: stack)) (hs : Keeps s s')
    (hfr : ∀ fp, fr ≠ .closed fp) (hfra : ∀ f ∈ frames, ∀ so ∈ f.sockets, so < s.nsock)
    (hdis : ∀ fp so, .discard fp so ∈ frames → (s.file fp).f_data = .socket so) :
    Sockets s' (frames ++ stack) := by
  refine ⟨fun fp so hdata => ?_, fun fp fp' so hdata hdata' => ?_, h.nodup.sublist hs.waiting, fun so hso => ?_,
    fun f hf so hso => ?_, fun fp so hmem => ?_⟩
  · rw [hs.f_data] at hdata
    obtain ⟨hne, hlt, hor⟩ := h.files fp so hdata
    refine ⟨hs.f_count fp hne, hs.nsock ▸ hlt, ?_⟩
    rw [hs.nofdref]
    refine hor.imp_right fun hmem => mem_append_right _ ?_
    exact (mem_cons.1 hmem).resolve_left (Ne.symm (hfr fp))
  · rw [hs.f_data] at hdata hdata'
    exact h.inj fp fp' so hdata hdata'
  · rw [hs.nsock, hs.nofdref]
    exact h.waiting so (hs.waiting.subset hso)
  · rw [hs.nsock]
    rcases mem_append.1 hf with hf | hf
    · exact hfra f hf so hso
    · exact h.frames f (mem_cons_of_mem _ hf) so hso
  · rw [hs.f_data]
    rcases mem_append.1 hmem with hmem | hmem
    · exact hdis fp so hmem
    · exact h.discards fp so (mem_cons_of_mem _ hmem)

/-- `SS_NOFDREF` is set: the file is still to be closed. -/
theorem Sockets.discard (h : Sockets s (.discard fp so :: stack)) :
    Sockets (s.setSocket so fun x => { x with nofdref := true }) (.sofree so :: .closed fp :: stack) := by
  have hdata := h.discards fp so mem_cons_self
  have hso : so < s.nsock := h.frames _ mem_cons_self so (mem_singleton_self so)
  have hwai : (s.setSocket so fun x => { x with nofdref := true }).waiting = s.waiting := by
    refine flatMap_congr fun so' _ => ?_
    rcases eq_or_ne so' so with rfl | hne
    · rw [s.setSocket_self]
    · rw [s.setSocket_of_ne _ hne]
  refine ⟨fun fp' so' hdata' => ?_, h.inj, hwai ▸ h.nodup, fun so' hso' => ?_, fun f hf so' hso' => ?_,
    fun fp' so' hmem => ?_⟩
  · obtain ⟨hne, hlt, hor⟩ := h.files fp' so' hdata'
    refine ⟨hne, hlt, ?_⟩
    rcases eq_or_ne so' so with rfl | hne'
    · obtain rfl := h.inj fp' fp so' hdata' hdata
      exact .inr (by simp)
    · rw [s.setSocket_of_ne _ hne']
      refine hor.imp_right fun hmem => ?_
      exact mem_cons_of_mem _ (mem_cons_of_mem _ ((mem_cons.1 hmem).resolve_left (by simp)))
  · rw [hwai] at hso'
    obtain ⟨hlt, htrue⟩ := h.waiting so' hso'
    refine ⟨hlt, ?_⟩
    rcases eq_or_ne so' so with rfl | hne
    · rw [s.setSocket_self]
    · rwa [s.setSocket_of_ne _ hne]
  · rcases mem_cons.1 hf with rfl | hf
    · obtain rfl := mem_singleton.1 hso'
      exact hso
    rcases mem_cons.1 hf with rfl | hf
    · exact absurd hso' not_mem_nil
    · exact h.frames f (mem_cons_of_mem _ hf) so' hso'
  · refine h.discards fp' so' (mem_cons_of_mem _ ?_)
    simpa using hmem

/-- A file is closed, of which nothing is left. -/
theorem Sockets.closed (h : Sockets s (.closed fp :: stack)) (hnot : ∀ so, .discard fp so ∉ stack) :
    Sockets (s.setFile fp fun f => { f with f_count := 0, f_data := .null }) stack := by
  have hfile (fp' so : ℕ) (hdata : ((s.setFile fp fun f => { f with f_count := 0, f_data := .null }).file fp').f_data =
      .socket so) : fp' ≠ fp ∧ (s.file fp').f_data = .socket so := by
    rcases eq_or_ne fp' fp with rfl | hne
    · rw [s.setFile_self] at hdata
      cases hdata
    · rw [s.setFile_of_ne _ hne] at hdata
      exact ⟨hne, hdata⟩
  refine ⟨fun fp' so hdata => ?_, fun fp' fp'' so hdata hdata' => ?_, h.nodup, h.waiting,
    fun f hf => h.frames f (mem_cons_of_mem _ hf), fun fp' so hmem => ?_⟩
  · obtain ⟨hne, hdata⟩ := hfile fp' so hdata
    obtain ⟨hcnt, hlt, hor⟩ := h.files fp' so hdata
    refine ⟨?_, hlt, hor.imp_right fun hmem => (mem_cons.1 hmem).resolve_left (by simpa using hne)⟩
    rwa [s.setFile_of_ne _ hne]
  · exact h.inj fp' fp'' so (hfile fp' so hdata).2 (hfile fp'' so hdata').2
  · have hne : fp' ≠ fp := fun heq => hnot so (heq ▸ hmem)
    rw [s.setFile_of_ne _ hne]
    exact h.discards fp' so (mem_cons_of_mem _ hmem)

/-! ### Ticks -/

theorem queued_setSocket (hso : so < s.nsock) (f : Socket → Socket) :
    (s.setSocket so f).queued ++ (s.socket so).so_rcv.flatten ~ s.queued ++ (f (s.socket so)).so_rcv.flatten := by
  have hperm := flatMap_range_perm (fun so => (s.socket so).so_rcv.flatten)
    (fun so' => ((s.setSocket so f).socket so').so_rcv.flatten) hso
    fun so' hne => by rw [s.setSocket_of_ne f hne]
  rwa [s.setSocket_self] at hperm

theorem queued_setSocket_of_eq (so : ℕ) (h : (f (s.socket so)).so_rcv = (s.socket so).so_rcv) :
    (s.setSocket so f).queued = s.queued := by
  refine flatMap_congr fun so' _ => ?_
  rcases eq_or_ne so' so with rfl | hne
  · rw [s.setSocket_self, h]
  · rw [s.setSocket_of_ne f hne]

theorem Inv.not_sweeping (h : Inv ⟨s, fr :: stack⟩) (hfr : fr.sweeps = false) :
    s.unp_gcing = false ∧ ∀ f ∈ stack, f.sweeps = false := by
  rcases h.sweeping with ⟨hgc, hall⟩ | ⟨fp, rest, heq, -⟩
  · exact ⟨hgc, fun f hf => hall f (mem_cons_of_mem _ hf)⟩
  · obtain rfl := (cons.inj heq).1
    cases hfr

/-- A frame is done that is none of `unp_gc`, and others may have to be. -/
theorem Inv.step (frames : List Frame) (h : Inv ⟨s, fr :: stack⟩) (hs : Keeps s s')
    (hfr : ∀ fp, fr ≠ .closed fp) (hsweep : fr.sweeps = false) (hnew : ∀ f ∈ frames, f.sweeps = false)
    (hsoc : ∀ f ∈ frames, ∀ so ∈ f.sockets, so < s.nsock)
    (hdis : ∀ fp so, .discard fp so ∈ frames → (s.file fp).f_data = .socket so)
    (hcou : Counts s' (s'.queued ++ (frames.flatMap Frame.scans ++ stack.flatMap Frame.scans))
      (s'.descriptors ++ (frames.flatMap Frame.closes ++ stack.flatMap Frame.closes)))
    (hlasts : ∀ f ∈ frames, ∀ fp ∈ f.lasts, (s'.file fp).f_count = 1)
    (hkept : ∀ fp, (s.file fp).f_count = 1 → (s'.file fp).f_count = 1) (hgc : s'.unp_gcing = s.unp_gcing) :
    Inv ⟨s', frames ++ stack⟩ := by
  obtain ⟨hnot, hall⟩ := h.not_sweeping hsweep
  refine ⟨?_, h.sockets.step hs hfr hsoc hdis, fun f hf fp hfp => ?_, .inl ⟨hgc.trans hnot, fun f hf => ?_⟩⟩
  · rwa [Config.messages, Config.holders, flatMap_append, flatMap_append]
  · rcases mem_append.1 hf with hf | hf
    · exact hlasts f hf fp hfp
    · exact hkept fp (h.lasts f (mem_cons_of_mem _ hf) fp hfp)
  · rcases mem_append.1 hf with hf | hf
    · exact hnew f hf
    · exact hall f hf

/-- The counts of what is left of the stack, and of the file of the frame. -/
theorem Inv.counts_cons (h : Inv ⟨s, fr :: stack⟩) :
    Counts s (fr.scans ++ (s.queued ++ stack.flatMap Frame.scans))
      (fr.closes ++ (s.descriptors ++ stack.flatMap Frame.closes)) := by
  refine h.counts.perm ?_ ?_
  · rw [Config.messages, flatMap_cons, ← append_assoc, ← append_assoc]
    exact perm_append_comm.append_right _
  · rw [Config.holders, flatMap_cons, ← append_assoc, ← append_assoc]
    exact perm_append_comm.append_right _

/-- A frame is done that does nothing. -/
theorem Inv.drop (h : Inv ⟨s, fr :: stack⟩) (hfr : ∀ fp, fr ≠ .closed fp) (hsweep : fr.sweeps = false)
    (hscans : fr.scans = []) (hclo : fr.closes = []) : Inv ⟨s, stack⟩ := by
  refine h.step [] (.refl s) hfr hsweep (by simp) (by simp) (by simp) ?_ (by simp) (fun _ => id) rfl
  have hcou := h.counts_cons
  rwa [hscans, hclo] at hcou

theorem Inv.closef (h : Inv ⟨s, .closef fp :: stack⟩) :
    Inv ⟨(Uipc.closef s fp).1, (Uipc.closef s fp).2 ++ stack⟩ := by
  have hcou : Counts s (s.queued ++ stack.flatMap Frame.scans)
    (fp :: (s.descriptors ++ stack.flatMap Frame.closes)) := h.counts_cons
  rw [Uipc.closef]
  split_ifs with hone
  · -- others still hold the file
    dsimp only
    refine h.step [] (.setFile s fp rfl fun _ => ?_) (by simp) rfl (by simp) (by simp) (by simp) hcou.close (by simp)
      (fun fp' h1 => ?_) rfl
    · change (s.file fp).f_count - 1 ≠ 0
      omega
    · have hne : fp' ≠ fp := by
        rintro rfl
        omega
      rwa [s.setFile_of_ne _ hne]
  · have hlast : (s.file fp).f_count = 1 := by
      have := hcou.pos
      omega
    cases hdata : (s.file fp).f_data with
    | socket so =>
      have hso := (h.sockets.files fp so hdata).2.1
      dsimp only [soclose]
      have hfra {P : Frame → Prop} (habo : ∀ x ∈ (s.socket so).so_q, P (.abort x)) (hdet : P (.detach so))
          (hdisc : P (.discard fp so)) : ∀ f ∈ (s.socket so).so_q.map .abort ++ [.detach so, .discard fp so], P f := by
        simp only [mem_append, mem_map, mem_cons, not_mem_nil, or_false]
        rintro f (⟨x, hx, rfl⟩ | rfl | rfl)
        · exact habo x hx
        · exact hdet
        · exact hdisc
      have habo {g : Frame → List ℕ} (hg : ∀ x, g (.abort x) = []) :
          ((s.socket so).so_q.map Frame.abort).flatMap g = [] := by
        refine flatMap_eq_nil_iff.2 fun f hf => ?_
        obtain ⟨x, -, rfl⟩ := mem_map.1 hf
        exact hg x
      refine h.step _ (.setSocket s so rfl (nil_sublist _)) (by simp) rfl (hfra (fun _ _ => rfl) rfl rfl)
        (hfra (fun x hx so' hso' => ?_) (fun so' hso' => ?_) (fun so' hso' => ?_)) (fun fp' so' hmem => ?_) ?_
        (hfra (fun _ _ => by simp [Frame.lasts]) (by simp [Frame.lasts])
          fun fp' hfp' => by rw [mem_singleton.1 hfp']; exact hlast) (fun _ => id) rfl
      · -- the connections that are not accepted are sockets
        rw [mem_singleton.1 hso']
        exact (h.sockets.waiting x (mem_flatMap.2 ⟨so, mem_range.2 hso, hx⟩)).1
      · rwa [mem_singleton.1 hso']
      · rwa [mem_singleton.1 hso']
      · simp at hmem
        rw [hmem.1, hmem.2, hdata]
      · rw [queued_setSocket_of_eq so rfl, flatMap_append, flatMap_append, habo fun _ => rfl, habo fun _ => rfl]
        exact (hcou.setSocket so _).perm (.refl _) perm_middle.symm
    | other | null =>
      refine h.step [.closed fp] (.refl s) (by simp) rfl (by simp [Frame.sweeps]) (by simp [Frame.sockets]) (by simp)
        (hcou.perm (.refl _) perm_middle.symm) (by simpa [Frame.lasts] using hlast) (fun _ => id) rfl

theorem Inv.discard (h : Inv ⟨s, .discard fp so :: stack⟩) : (s.socket so).nofdref = false ∧
    Inv ⟨s.setSocket so fun x => { x with nofdref := true }, .sofree so :: .closed fp :: stack⟩ := by
  have hcou : Counts s (s.queued ++ stack.flatMap Frame.scans)
    (fp :: (s.descriptors ++ stack.flatMap Frame.closes)) := h.counts_cons
  have hlast : (s.file fp).f_count = 1 := h.lasts _ mem_cons_self fp (mem_singleton_self fp)
  obtain ⟨hnot, hall⟩ := h.not_sweeping rfl
  constructor
  · -- no other call is closing the file
    refine (h.sockets.files fp so (h.sockets.discards fp so mem_cons_self)).2.2.resolve_right fun hmem => ?_
    have hclos : .closed fp ∈ stack := (mem_cons.1 hmem).resolve_left (by simp)
    exact (hcou.last hlast).1 (mem_append_right _ (mem_flatMap.2 ⟨_, hclos, mem_singleton_self fp⟩))
  · refine ⟨?_, h.sockets.discard, fun f hf fp' hfp' => ?_, .inl ⟨hnot, ?_⟩⟩
    · rw [Config.messages, Config.holders, queued_setSocket_of_eq so rfl]
      exact (hcou.setSocket so fun x => { x with nofdref := true }).perm (.refl _) perm_middle.symm
    · rcases mem_cons.1 hf with rfl | hf
      · exact absurd hfp' not_mem_nil
      rcases mem_cons.1 hf with rfl | hf
      · rw [mem_singleton.1 hfp']
        exact hlast
      · exact h.lasts f (mem_cons_of_mem _ hf) fp' hfp'
    · rw [forall_mem_cons, forall_mem_cons]
      exact ⟨rfl, rfl, hall⟩

theorem Inv.sofree (h : Inv ⟨s, .sofree so :: stack⟩) :
    Inv ⟨s.setSocket so fun x => { x with so_rcv := [] }, .unp_scan (s.socket so).so_rcv.flatten :: stack⟩ := by
  have hcou : Counts s (s.queued ++ stack.flatMap Frame.scans)
    (s.descriptors ++ stack.flatMap Frame.closes) := h.counts_cons
  have hque := queued_setSocket (h.sockets.frames _ mem_cons_self so (mem_singleton_self so))
    fun x => { x with so_rcv := [] }
  refine h.step [.unp_scan (s.socket so).so_rcv.flatten] (.setSocket s so rfl (.refl _)) (by simp) rfl
    (by simp [Frame.sweeps]) (by simp [Frame.sockets]) (by simp) ?_ (by simp [Frame.lasts]) (fun _ => id) rfl
  refine (hcou.setSocket so _).perm ?_ (.refl _)
  rw [flatMap_singleton, Frame.scans, ← append_assoc]
  refine .append_right _ (.symm ?_)
  simpa using hque

theorem Inv.closed (h : Inv ⟨s, .closed fp :: stack⟩) :
    Inv ⟨s.setFile fp fun f => { f with f_count := 0, f_data := .null }, stack⟩ := by
  have hcou : Counts s (s.queued ++ stack.flatMap Frame.scans)
    (fp :: (s.descriptors ++ stack.flatMap Frame.closes)) := h.counts_cons
  have hlast : (s.file fp).f_count = 1 := h.lasts _ mem_cons_self fp (mem_singleton_self fp)
  obtain ⟨hnot, hall⟩ := h.not_sweeping rfl
  -- no other frame has the file
  have hheld (f : Frame) (hf : f ∈ stack) : fp ∉ f.closes := fun hmem =>
    (hcou.last hlast).1 (mem_append_right _ (mem_flatMap.2 ⟨f, hf, hmem⟩))
  refine ⟨hcou.closed hlast _, h.sockets.closed fun so hmem => hheld _ hmem (mem_singleton_self fp),
    fun f hf fp' hfp' => ?_, .inl ⟨hnot, hall⟩⟩
  have hne : fp' ≠ fp := by
    rintro rfl
    refine hheld f hf ?_
    cases f with
    | discard | closed => exact hfp'
    | _ => exact absurd hfp' not_mem_nil
  dsimp only
  rw [s.setFile_of_ne _ hne]
  exact h.lasts f (mem_cons_of_mem _ hf) fp' hfp'

theorem Inv.unp_scan {fps : List ℕ} (h : Inv ⟨s, .unp_scan (fp :: fps) :: stack⟩) :
    Inv ⟨unp_discard s fp, .closef fp :: .unp_scan fps :: stack⟩ := by
  have hcou : Counts s (fp :: fps ++ (s.queued ++ stack.flatMap Frame.scans))
    (s.descriptors ++ stack.flatMap Frame.closes) := h.counts_cons
  refine h.step [.closef fp, .unp_scan fps] (.discard s fp) (by simp) rfl (by simp [Frame.sweeps])
    (by simp [Frame.sockets]) (by simp) ?_ (by simp [Frame.lasts]) (fun fp' hone => ?_) rfl
  · refine hcou.discard.perm ?_ perm_middle.symm
    have hscans : [.closef fp, .unp_scan fps].flatMap Frame.scans = fps := by simp [Frame.scans]
    rw [hscans, ← append_assoc]
    exact (Perm.of_eq (append_assoc ..).symm).trans (perm_append_comm.append_right _)
  · change ((s.setFile fp fun f => { f with f_msgcount := f.f_msgcount - 1 }).file fp').f_count = 1
    rcases eq_or_ne fp' fp with rfl | hne
    · rwa [s.setFile_self]
    · rwa [s.setFile_of_ne _ hne]

/-! ### Collecting -/

theorem mem_rights (h : fp' ∈ s.rights fp) :
    ∃ so, (s.file fp).f_data = .socket so ∧ fp' ∈ (s.socket so).so_rcv.flatten := by
  rw [State.rights] at h
  split at h
  · rename_i so hdata
    exact ⟨so, hdata, h⟩
  · exact absurd h not_mem_nil

/-- A right in a receive buffer refers to a file in use. -/
theorem Inv.rights_used (h : Inv c) (hmem : fp' ∈ c.state.rights fp) :
    fp' < c.state.nfile ∧ (c.state.file fp').f_count ≠ 0 := by
  obtain ⟨so, hdata, hmem⟩ := mem_rights hmem
  have hque : fp' ∈ c.messages :=
    mem_append_left _ (mem_flatMap.2 ⟨so, mem_range.2 (h.sockets.files fp so hdata).2.1, hmem⟩)
  have hcnt := h.counts.count fp'
  have hpos := count_pos_iff.2 hque
  have hne : (c.state.file fp').f_count ≠ 0 := by omega
  exact ⟨h.counts.lt fp' hne, hne⟩

theorem Inv.graph_closed (h : Inv c) : c.state.graph.Closed :=
  ⟨fun hmem => (h.rights_used hmem).1, fun hmem => decide_eq_true (h.rights_used hmem).2⟩

/-- `unp_gc` starts from the files that a descriptor refers to, or that are being closed. -/
theorem Inv.reach_iff (h : Inv c) : c.state.graph.Reach fp ↔ Reached c fp := by
  constructor
  · intro hrch
    induction hrch with
    | root hlt hlive hroot =>
      refine .held (count_pos_iff.1 ?_)
      have hne := of_decide_eq_true hroot
      rw [h.counts.count, h.counts.msgcount] at hne
      omega
    | step _ hj ih => exact ih.right hj
  · intro hrea
    induction hrea with
    | @held fp hmem =>
      have hpos := count_pos_iff.2 hmem
      have hcnt := h.counts.count fp
      have hmsg := h.counts.msgcount fp
      have hne : (c.state.file fp).f_count ≠ 0 := by omega
      exact .root (h.counts.lt fp hne) (decide_eq_true hne) (decide_eq_true (by omega))
    | right _ hmem ih => exact ih.step hmem

/-- Marking comes to an end, with what is reached marked. -/
theorem Inv.marks (h : Inv c) : ∃ m, c.state.graph.passes (c.state.nfile + 1) .clear = some m ∧
    ∀ fp, m.mark fp = true ↔ Reached c fp := by
  obtain ⟨m, hm, hmark⟩ := Graph.passes_clear h.graph_closed
  exact ⟨m, hm, fun fp => (hmark fp).trans h.reach_iff⟩

/-- Nothing but marks and `unp_gcing` is another. -/
theorem Inv.of_marks (h : Inv c) (mark : ℕ → Bool) (gcing : Bool) {stack : List Frame}
    (hscans : stack.flatMap Frame.scans = c.stack.flatMap Frame.scans)
    (hclo : stack.flatMap Frame.closes = c.stack.flatMap Frame.closes)
    (hfra : ∀ fr ∈ stack, fr.sweeps = true ∨ fr ∈ c.stack) (hclos : ∀ fp, .closed fp ∈ c.stack → .closed fp ∈ stack)
    (hswe : Sweeping { c.state with unp_gcing := gcing, file := fun fp => { c.state.file fp with mark := mark fp } }
      stack) :
    Inv ⟨{ c.state with unp_gcing := gcing, file := fun fp => { c.state.file fp with mark := mark fp } }, stack⟩ := by
  obtain ⟨⟨hmsg, hcnt, hrig, hle, hlt⟩, ⟨hfiles, hinj, hnd, hwai, hsoc, hdis⟩, hlasts, -⟩ := h
  refine ⟨?_, ⟨fun fp so hdata => ?_, hinj, hnd, hwai, fun fr hfr so hso => ?_, fun fp so hmem => ?_⟩,
    fun fr hfr fp hfp => ?_, hswe⟩
  · rw [Config.messages, Config.holders, hscans, hclo]
    exact ⟨hmsg, hcnt, hrig, hle, hlt⟩
  · obtain ⟨hne, hso, hor⟩ := hfiles fp so hdata
    exact ⟨hne, hso, hor.imp_right (hclos fp)⟩
  · rcases hfra fr hfr with hsweep | hmem
    · cases fr <;> first | exact absurd hso not_mem_nil | cases hsweep
    · exact hsoc fr hmem so hso
  · exact hdis fp so ((hfra _ hmem).resolve_left (by simp [Frame.sweeps]))
  · rcases hfra fr hfr with hsweep | hmem
    · cases fr <;> first | exact absurd hfp not_mem_nil | cases hsweep
    · exact hlasts fr hmem fp hfp

theorem Reached.drop (h : Reached ⟨s, .unp_gc :: stack⟩ fp) : Reached ⟨s, stack⟩ fp := by
  induction h with
  | held hmem => exact .held hmem
  | right _ hmem ih => exact ih.right hmem

theorem NoGarbage.drop (h : NoGarbage ⟨s, .unp_gc :: stack⟩) : NoGarbage ⟨s, stack⟩ := fun fp hne => (h fp hne).drop

/-- The state in which `unp_gc` begins its last loop. -/
def State.marked (s : State) (mark : ℕ → Bool) : State :=
  { s with unp_gcing := true, file := fun fp => { s.file fp with mark := mark fp } }

/-- Every file in use is marked if there is no garbage. -/
theorem Inv.unp_gc (h : Inv ⟨s, stack⟩) (hgc : s.unp_gcing = false) (hall : ∀ fr ∈ stack, fr.sweeps = false)
    (hno : NoGarbage ⟨s, stack⟩) :
    ∃ mark, Uipc.unp_gc s = some (s.marked mark, [.sweep 0]) ∧ Inv ⟨s.marked mark, .sweep 0 :: stack⟩ := by
  obtain ⟨m, hm, hmark⟩ := h.marks
  refine ⟨m.mark, ?_, h.of_marks m.mark true rfl rfl (fun fr hfr => ?_) (fun fp => mem_cons_of_mem _)
    (.inr ⟨0, stack, rfl, hall, rfl, ?_⟩)⟩
  · rw [Uipc.unp_gc, hgc, if_neg Bool.false_ne_true]
    dsimp only at hm
    rw [hm]
    rfl
  · exact (mem_cons.1 hfr).imp (fun heq => by rw [heq]; rfl) id
  · exact fun fp hne => (hmark fp).2 (hno fp hne)

/-- A round of the last loop of `unp_gc`: nothing is discarded. -/
theorem Inv.sweep (h : Inv ⟨s, .sweep fp :: stack⟩) :
    s.nfile ≤ fp ∧ Uipc.sweep s fp = ({ s with unp_gcing := false }, []) ∧ Inv ⟨{ s with unp_gcing := false }, stack⟩ ∨
      fp < s.nfile ∧ Uipc.sweep s fp = (s, [.sweep (fp + 1)]) ∧ Inv ⟨s, .sweep (fp + 1) :: stack⟩ := by
  obtain ⟨hmar, hall, hgc⟩ : (∀ fp, (s.file fp).f_count ≠ 0 → (s.file fp).mark = true) ∧
      (∀ fr ∈ stack, fr.sweeps = false) ∧ s.unp_gcing = true := by
    rcases h.sweeping with ⟨-, hall⟩ | ⟨fp', rest, heq, hall, hgc, hmar⟩
    · cases hall _ mem_cons_self
    · rw [(cons.inj heq).2]
      exact ⟨hmar, hall, hgc⟩
  rw [Uipc.sweep]
  by_cases hend : s.nfile ≤ fp
  · rw [if_pos hend]
    exact .inl ⟨hend, rfl, h.of_marks (fun fp => (s.file fp).mark) false rfl rfl
      (fun fr hfr => .inr (mem_cons_of_mem _ hfr)) (fun _ hmem => (mem_cons.1 hmem).resolve_left (by simp))
      (.inl ⟨rfl, hall⟩)⟩
  · refine .inr ⟨not_le.1 hend, ?_, ?_⟩
    · rw [if_neg hend]
      by_cases hzero : (s.file fp).f_count = 0
      · rw [if_pos hzero]
      · rw [if_neg hzero, if_neg fun hno => ?_]
        exact absurd ((hmar fp hzero).symm.trans hno.2) (by decide)
    · refine h.of_marks (fun fp => (s.file fp).mark) s.unp_gcing rfl rfl (fun fr hfr => ?_)
        (fun fp hmem => mem_cons_of_mem _ ((mem_cons.1 hmem).resolve_left (by simp)))
        (.inr ⟨fp + 1, stack, rfl, hall, hgc, hmar⟩)
      exact (mem_cons.1 hfr).imp (fun heq => by rw [heq]; rfl) (mem_cons_of_mem _)

/-- A tick keeps the invariant, and is not a panic; if it is a run of `unp_gc`, there is no garbage. -/
theorem Inv.tick (h : Inv ⟨s, fr :: stack⟩) (hno : fr = .unp_gc → NoGarbage ⟨s, fr :: stack⟩) :
    ∃ r, Uipc.tick s fr = some r ∧ Inv ⟨r.1, r.2 ++ stack⟩ := by
  cases fr with
  | closef fp => exact ⟨_, rfl, h.closef⟩
  | abort so =>
    refine ⟨_, rfl, ?_⟩
    dsimp only
    refine h.step [.sofree so] (.setSocket s so rfl (.refl _)) (by simp) rfl (by simp [Frame.sweeps]) ?_
      (by simp) ?_ (by simp [Frame.lasts]) (fun _ => id) rfl
    · simpa [Frame.sockets] using h.sockets.frames _ mem_cons_self so (mem_singleton_self so)
    · rw [queued_setSocket_of_eq so rfl]
      exact h.counts_cons.setSocket so fun x => { x with so_pcb := false }
  | detach so =>
    rw [Uipc.tick]
    split_ifs
    · refine ⟨_, rfl, ?_⟩
      dsimp only
      refine h.step [.unp_gc] (.setSocket s so rfl (.refl _)) (by simp) rfl (by simp [Frame.sweeps])
        (by simp [Frame.sockets]) (by simp) ?_ (by simp [Frame.lasts]) (fun _ => id) rfl
      rw [queued_setSocket_of_eq so rfl]
      exact h.counts_cons.setSocket so fun x => { x with so_pcb := false }
    · exact ⟨_, rfl, h.drop (by simp) rfl rfl rfl⟩
  | unp_gc =>
    obtain ⟨hgc, hall⟩ := h.not_sweeping rfl
    have hdrop : Inv ⟨s, stack⟩ := h.drop (by simp) rfl rfl rfl
    rw [Uipc.tick]
    split_ifs
    · obtain ⟨mark, hmark, hinv⟩ := hdrop.unp_gc hgc hall (hno rfl).drop
      exact ⟨_, hmark, hinv⟩
    · exact ⟨_, rfl, hdrop⟩
  | discard fp so =>
    rw [Uipc.tick, h.discard.1]
    exact ⟨_, rfl, h.discard.2⟩
  | sofree so =>
    rw [Uipc.tick]
    split_ifs
    · exact ⟨_, rfl, h.drop (by simp) rfl rfl rfl⟩
    · exact ⟨_, rfl, h.sofree⟩
  | unp_scan fps =>
    cases fps with
    | nil => exact ⟨_, rfl, h.drop (by simp) rfl rfl rfl⟩
    | cons fp fps => exact ⟨_, rfl, h.unp_scan⟩
  | closed fp => exact ⟨_, rfl, h.closed⟩
  | sweep fp =>
    rcases h.sweep with ⟨-, hsweep, hinv⟩ | ⟨-, hsweep, hinv⟩
    · exact ⟨_, congrArg some hsweep, hinv⟩
    · exact ⟨_, congrArg some hsweep, hinv⟩
  | sweepOne fp =>
    -- nothing is discarded
    rcases h.sweeping with ⟨-, hall⟩ | ⟨fp', rest, heq, -⟩
    · cases hall _ mem_cons_self
    · cases (cons.inj heq).1

end Uwisc.Uipc
