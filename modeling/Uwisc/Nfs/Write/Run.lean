import Uwisc.Lib.System
import Uwisc.Nfs.Write

/-!
# Runs of a process that writes a file

Any file of the server and any buffers that are clean, and any interleaving of the steps of the
process with those that write, reuse and read buffers. If the steps meet a condition (`StepOk`), what
was accepted by a write has been acknowledged when `nfs_close` returns 0, and no byte that the process
did not put there is sent in place of another one (`write_sound`). For a byte that the process has put
last, the invariant says where it is (`Held`): in the buffer of its block, with a mark by which
`nfs_fsync` finds it, or on the server.

The condition leaves out what breaks this:

* nothing sets `r_error` (`r_error_eq_zero`), so that the error of a call that writes is lost
  (`write_lost`);
* a buffer that is to be overwritten is not read, and is written even if the copy failed (`junk_sent`);
* the block size of the mount need not be a multiple of `DEV_BSIZE`, where the blocks of the buffers
  are not those of the file (`block_moved`).
-/

namespace Uwisc.Nfs.Write

open Function Lib List Option

/-- A step. -/
inductive Label
  | open
  | close
  | write (uio_offset : ℤ) (data : List UInt8) (rlim_cur : ℕ)
  | read (uio_offset : ℤ) (uio_resid : ℕ)
  | writeBlock (junk : Mem) (bread : Option Bool) (u : Uiomove)
  | incore
  | readBlock (bread : Option Bool) (fault : Bool)
  | blkflush
  | getattr (a : Attr)
  /-- `bflush` or `getnewbuf` write a buffer. -/
  | strategy (bn : ℕ)
  /-- `do_bio` begins. -/
  | doBio (bn : ℕ)
  | nfswrite (bn : ℕ) (reply : Reply)
  /-- `getnewbuf` takes a buffer. -/
  | reuse (bn : ℕ)
  /-- A block that `breada` has asked for is read. -/
  | ahead (bn : ℕ) (changed : Bool)

/-- The state after a step; none if it waits, or is for another state. -/
def after (m : Mount) (s : State) : Label → Option State
  | .open =>
    match s.proc with
    | .notOpen | .closed _ => some (s.nfsFsync .opening)
    | _ => none
  | .close => if s.proc = .idle then some (s.nfsFsync .closing) else none
  | .write off data rlim_cur => if s.proc = .idle then some (s.rwvpWrite off data rlim_cur) else none
  | .read off resid => if s.proc = .idle then some (s.rwvpRead off resid) else none
  | .writeBlock junk bread u =>
    match s.proc with
    | .writing off data => s.writeBlock m off data junk bread u
    | _ => none
  | .incore =>
    match s.proc with
    | .reading off resid => some (s.incore m off resid)
    | _ => none
  | .readBlock bread fault =>
    match s.proc with
    | .fetching off resid => s.readBlock m off resid bread fault
    | _ => none
  | .blkflush =>
    match s.proc with
    | .fsync bn k => s.blkflush m bn k
    | _ => none
  | .getattr a =>
    match s.proc with
    | .getattr k => some ((s.nfsGetattr a).got a k)
    | _ => none
  | .strategy bn =>
    match s.buf bn with
    | some ⟨b_addr, .delwri⟩ => some (s.setBuf bn (nfsStrategy s.r_error b_addr))
    | _ => none
  | .doBio bn =>
    match s.buf bn with
    | some ⟨b_addr, .queued⟩ => some (s.setBuf bn (some ⟨b_addr, .sending 0 (s.bioCount m bn)⟩))
    | _ => none
  | .nfswrite bn reply =>
    match s.buf bn with
    | some ⟨b_addr, .sending done count⟩ => some (s.nfswrite m bn b_addr done count reply)
    | _ => none
  | .reuse bn =>
    match s.buf bn with
    | some ⟨_, .clean⟩ => some (s.setBuf bn none)
    | _ => none
  | .ahead bn changed =>
    match s.buf bn with
    | none => some (s.readBio m bn changed)
    | some _ => none

/-- A file that is not open, with buffers that are clean. -/
structure Init (m : Mount) (s : State) : Prop where
  hole : ∀ o, s.eof ≤ o → s.file o = 0
  clean : ∀ bn x, s.buf bn = some x → x.io = .clean ∧ ∀ k < m.size, x.b_addr k = s.file (m.offset bn + k)
  proc : s.proc = .notOpen
  r_error : s.r_error = 0
  put : ∀ o, s.put o = []
  failed : s.failed = false
  foreign : s.foreign = false

def system (m : Mount) : System State Label := .ofExec {s | Init m s} (after m)

/-- No call that writes fails, and no copy to a buffer that was not read. -/
def StepOk (m : Mount) (s : State) : Label → Prop
  | .nfswrite _ reply => reply = .ok
  | .writeBlock _ _ u => u = .all ∨
    ∀ off data, s.proc = .writing off data → s.buf (off / m.size) = none → m.chunk off data.length ≠ m.size
  | _ => True

/-- No write is lost, and nothing else is written. -/
structure Sound (s : State) : Prop where
  /-- If `nfs_close` returns 0, and every write has, what was put last has been acknowledged. -/
  acked : s.proc = .closed 0 → s.failed = false → ∀ o v, (s.put o).head? = some v → s.acked o = some v
  foreign : s.foreign = false

/-! ### Where a byte is -/

section Invariant

variable {m : Mount} {s s' : State} {bn pos o : ℕ} {v : UInt8} {x : Option Buf}

/-- The byte is on the server, which has acknowledged it. -/
def Stored (s : State) (o : ℕ) (v : UInt8) : Prop := s.file o = v ∧ s.acked o = some v

/-- The block will be flushed. -/
def Marked (s : State) (bn : ℕ) : Prop := s.rdirty = true ∨ ∃ i k, s.proc = .fsync i k ∧ i ≤ bn

/-- The byte `v` of the offset `o`, which is the byte `pos` of the block `bn`, is in the buffer of the
    block, or on the server. -/
def Held (s : State) (bn pos o : ℕ) (v : UInt8) : Option Buf → Prop
  | none => Stored s o v
  | some ⟨b_addr, .clean⟩ => b_addr pos = v ∧ Stored s o v
  | some ⟨b_addr, .delwri⟩ | some ⟨b_addr, .queued⟩ => b_addr pos = v ∧ Marked s bn
  | some ⟨b_addr, .sending done count⟩ =>
    b_addr pos = v ∧ Marked s bn ∧ pos < count ∧ (pos < done → Stored s o v)

/-- A buffer has bytes that the process has put there, or those of the file. -/
def Own (s : State) (pos o : ℕ) (x : Option Buf) : Prop :=
  ∀ b, x = some b → b.b_addr pos ∈ s.put o ∨ b.b_addr pos = s.file o

/-- What has been sent of a buffer is part of what is sent, and that of the buffer. -/
def Within (m : Mount) (x : Option Buf) : Prop :=
  ∀ b_addr done count, x = some ⟨b_addr, .sending done count⟩ → done ≤ count ∧ count ≤ m.size

/-- No block becomes dirty here: the blocks are flushed, or were when the file was closed. -/
def Proc.Calm : Proc → Prop
  | .fsync _ _ | .closed _ => True
  | _ => False

structure Inv (m : Mount) (s : State) : Prop where
  r_error : s.r_error = 0
  hole : ∀ o, s.eof ≤ o → s.file o = 0
  foreign : s.foreign = false
  within : ∀ bn, Within m (s.buf bn)
  calm : s.proc.Calm → s.rdirty = false
  own : ∀ o, Own s (o % m.size) o (s.buf (o / m.size))
  held : s.failed = false → ∀ o v, (s.put o).head? = some v →
    o < s.r_size ∧ Held s (o / m.size) (o % m.size) o v (s.buf (o / m.size))

theorem Held.mono (h : Held s bn pos o v x) (hmar : Marked s bn → Marked s' bn)
    (hsto : Stored s o v → Stored s' o v) : Held s' bn pos o v x := by
  match x, h with
  | none, h => exact hsto h
  | some ⟨_, .clean⟩, ⟨hb, h⟩ => exact ⟨hb, hsto h⟩
  | some ⟨_, .delwri⟩, ⟨hb, h⟩ => exact ⟨hb, hmar h⟩
  | some ⟨_, .queued⟩, ⟨hb, h⟩ => exact ⟨hb, hmar h⟩
  | some ⟨_, .sending _ _⟩, ⟨hb, h, hcnt, hdone⟩ => exact ⟨hb, hmar h, hcnt, hsto ∘ hdone⟩

variable {r_error off resid : ℕ} {k : Cont} {u : Uiomove} {b : Buf} {bread : Option Bool}
  {b_addr : Mem} {data : List UInt8}

/-- A buffer has the byte, whatever it waits for. -/
theorem Held.addr (h : Held s bn pos o v (some b)) : b.b_addr pos = v := by
  match b, h with
  | ⟨_, .clean⟩, h => exact h.1
  | ⟨_, .delwri⟩, h => exact h.1
  | ⟨_, .queued⟩, h => exact h.1
  | ⟨_, .sending _ _⟩, h => exact h.1

/-- The byte of a block that will not be flushed is on the server. -/
theorem Held.stored (h : Held s bn pos o v x) (hmar : ¬Marked s bn) : Stored s o v := by
  match x, h with
  | none, h => exact h
  | some ⟨_, .clean⟩, h => exact h.2
  | some ⟨_, .delwri⟩, h => exact absurd h.2 hmar
  | some ⟨_, .queued⟩, h => exact absurd h.2 hmar
  | some ⟨_, .sending _ _⟩, h => exact absurd h.2.1 hmar

theorem Marked.rdirty (h : Marked s bn) (hproc : ∀ i k, s.proc ≠ .fsync i k) : s.rdirty = true := by
  rcases h with h | ⟨i, k, hik, -⟩
  · exact h
  · exact absurd hik (hproc i k)

/-! ### The blocks of the file -/

theorem Mount.size_pos (m : Mount) : 0 < m.size := by
  have hle : DEV_BSIZE ≤ m.mi_bsize := by
    simp only [Mount.mi_bsize, CLBYTES, MAXBSIZE, DEV_BSIZE]
    omega
  exact Nat.mul_pos (Nat.div_pos hle (by decide)) (by decide)

theorem Mount.size_eq (hb : DEV_BSIZE ∣ m.mi_bsize) : m.size = m.mi_bsize := Nat.div_mul_cancel hb

theorem Mount.offset_eq (hb : DEV_BSIZE ∣ m.mi_bsize) (bn : ℕ) : m.offset bn = bn * m.size := by
  rw [m.size_eq hb]
  exact Nat.div_mul_cancel (Nat.dvd_mul_left_of_dvd hb bn)

/-- The bytes of a piece of a block. -/
theorem mem_block {t : ℕ} (hle : pos + t ≤ m.size) :
    (bn * m.size + pos ≤ o ∧ o < bn * m.size + pos + t) ↔
      o / m.size = bn ∧ pos ≤ o % m.size ∧ o % m.size < pos + t := by
  have hmod := Nat.div_add_mod' o m.size
  constructor
  · rintro ⟨hlo, hhi⟩
    have hdiv : o / m.size = bn :=
      Nat.div_eq_of_lt_le (le_trans (Nat.le_add_right _ _) hlo) (by rw [Nat.succ_mul]; omega)
    rw [hdiv] at hmod
    omega
  · rintro ⟨rfl, hlo, hhi⟩
    omega

/-! ### Changes of buffers -/

theorem Own.of_same {y : Option Buf} (h : Own s pos o x)
    (hsame : ∀ b, y = some b → ∃ c, x = some c ∧ b.b_addr = c.b_addr) : Own s pos o y := by
  intro b hb
  obtain ⟨c, hc, heq⟩ := hsame b hb
  rw [heq]
  exact h c hc

theorem Inv.withBuf (h : Inv m s) (buf : ℕ → Option Buf) (hwit : ∀ bn, Within m (buf bn))
    (hown : ∀ o, Own s (o % m.size) o (buf (o / m.size)))
    (hheld : s.failed = false → ∀ o v, (s.put o).head? = some v → o < s.r_size →
      Held s (o / m.size) (o % m.size) o v (s.buf (o / m.size)) →
      Held s (o / m.size) (o % m.size) o v (buf (o / m.size))) :
    Inv m { s with buf := buf } := by
  refine ⟨h.r_error, h.hole, h.foreign, hwit, h.calm, hown, fun hf o v hv => ?_⟩
  obtain ⟨hlt, hh⟩ := h.held hf o v hv
  exact ⟨hlt, (hheld hf o v hv hlt hh).mono id id⟩

/-- The buffer of one block changes. -/
theorem Inv.setBuf (h : Inv m s) (x : Option Buf) (hwit : Within m x)
    (hown : ∀ o, o / m.size = bn → Own s (o % m.size) o x)
    (hheld : ∀ o v, o / m.size = bn → o < s.r_size → Held s bn (o % m.size) o v (s.buf bn) →
      Held s bn (o % m.size) o v x) : Inv m (s.setBuf bn x) := by
  refine h.withBuf _ (fun k => ?_) (fun o => ?_) fun _ o v _ hlt hh => ?_
  · by_cases hk : k = bn
    · subst hk
      simpa using hwit
    · simpa [hk] using h.within k
  · by_cases hk : o / m.size = bn
    · rw [hk, update_self]
      exact hown o hk
    · simpa [hk] using h.own o
  · by_cases hk : o / m.size = bn
    · rw [hk] at hh ⊢
      rw [update_self]
      exact hheld o v hk hlt hh
    · simpa [hk] using hh

/-- The buffer of one block becomes one with the same bytes, or none. -/
theorem Inv.setBuf_same (h : Inv m s) {c : Buf} (hbuf : s.buf bn = some c) (x : Option Buf)
    (hsame : ∀ b, x = some b → b.b_addr = c.b_addr) (hwit : Within m x)
    (hheld : ∀ o v, o / m.size = bn → o < s.r_size → Held s bn (o % m.size) o v (some c) →
      Held s bn (o % m.size) o v x) : Inv m (s.setBuf bn x) := by
  refine h.setBuf x hwit (fun o ho => ?_) (by rwa [hbuf])
  refine (h.own o).of_same fun b hb => ⟨c, ?_, hsame b hb⟩
  rw [ho, hbuf]

/-- `bflush` and `binvalfree` change buffers so that no byte is lost. -/
theorem Held.bflushBuf (h : Held s bn pos o v x) (hr : s.r_error = 0) :
    Held s bn pos o v (bflushBuf s.r_error x) := by
  match x, h with
  | some ⟨_, .delwri⟩, h => simpa [Write.bflushBuf, nfsStrategy, hr, Held] using h
  | none, h | some ⟨_, .clean⟩, h | some ⟨_, .queued⟩, h | some ⟨_, .sending _ _⟩, h => exact h

theorem Held.binvalfreeBuf (h : Held s bn pos o v x) (hr : s.r_error = 0) :
    Held s bn pos o v (binvalfreeBuf s.r_error x) := by
  match x, h with
  | some ⟨_, .clean⟩, h => exact h.2
  | some ⟨_, .delwri⟩, h => exact Held.bflushBuf h hr
  | none, h | some ⟨_, .queued⟩, h | some ⟨_, .sending _ _⟩, h => exact h

/-- What is left of a buffer has the same bytes, and no more of it is sent. -/
theorem binvalfreeBuf_some (h : binvalfreeBuf r_error x = some b) :
    ∃ c, x = some c ∧ b.b_addr = c.b_addr ∧ (b.io = .queued ∨ b = c) := by
  match x, h with
  | some ⟨a, .delwri⟩, h =>
    simp only [binvalfreeBuf, Write.bflushBuf, nfsStrategy] at h
    split_ifs at h
    cases h
    exact ⟨_, rfl, rfl, .inl rfl⟩
  | some ⟨a, .queued⟩, h | some ⟨a, .sending _ _⟩, h =>
    cases h
    exact ⟨_, rfl, rfl, .inr rfl⟩

theorem bflushBuf_some (h : bflushBuf r_error x = some b) :
    ∃ c, x = some c ∧ b.b_addr = c.b_addr ∧ (b.io = .queued ∨ b = c) := by
  match x, h with
  | some ⟨a, .clean⟩, h =>
    cases h
    exact ⟨_, rfl, rfl, .inr rfl⟩
  | some ⟨a, .delwri⟩, h => exact binvalfreeBuf_some h
  | some ⟨a, .queued⟩, h | some ⟨a, .sending _ _⟩, h =>
    cases h
    exact ⟨_, rfl, rfl, .inr rfl⟩

theorem Inv.bflush (h : Inv m s) : Inv m s.bflush := by
  refine h.withBuf _ (fun bn a done count hb => ?_) (fun o => (h.own o).of_same fun b hb => ?_)
    fun _ o v _ _ hh => hh.bflushBuf h.r_error
  · obtain ⟨c, hc, -, hio | rfl⟩ := bflushBuf_some hb
    · cases hio
    · exact h.within bn a done count hc
  · obtain ⟨c, hc, haddr, -⟩ := bflushBuf_some hb
    exact ⟨c, hc, haddr⟩

theorem Inv.binvalfree (h : Inv m s) : Inv m s.binvalfree := by
  refine h.withBuf _ (fun bn a done count hb => ?_) (fun o => (h.own o).of_same fun b hb => ?_)
    fun _ o v _ _ hh => hh.binvalfreeBuf h.r_error
  · obtain ⟨c, hc, -, hio | rfl⟩ := binvalfreeBuf_some hb
    · cases hio
    · exact h.within bn a done count hc
  · obtain ⟨c, hc, haddr, -⟩ := binvalfreeBuf_some hb
    exact ⟨c, hc, haddr⟩

/-! ### The rnode and the process -/

/-- The size that the client knows of grows, and other attributes change. -/
theorem Inv.grow (h : Inv m s) (n k : ℕ) : Inv m { s with r_size := max s.r_size n, na_size := k } := by
  refine ⟨h.r_error, h.hole, h.foreign, h.within, h.calm, h.own, fun hf o v hv => ?_⟩
  obtain ⟨hlt, hh⟩ := h.held hf o v hv
  exact ⟨hlt.trans_le (Nat.le_max_left _ _), hh.mono id id⟩

theorem Inv.nfsAttrcache (h : Inv m s) (changed : Bool) : Inv m (s.nfsAttrcache changed) := by
  cases changed with
  | true => simpa [State.nfsAttrcache, State.binvalfree] using h.binvalfree.grow 0 s.eof
  | false => simpa [State.nfsAttrcache] using h.grow 0 s.eof

/-- The process goes on, outside of the loop of `nfs_fsync`. -/
theorem Inv.setProc (h : Inv m s) (hproc : ∀ i k, s.proc ≠ .fsync i k) {p : Proc} (hcalm : p.Calm → s.rdirty = false) :
    Inv m { s with proc := p } := by
  refine ⟨h.r_error, h.hole, h.foreign, h.within, hcalm, h.own, fun hf o v hv => ?_⟩
  obtain ⟨hlt, hh⟩ := h.held hf o v hv
  exact ⟨hlt, hh.mono (fun hm => .inl (hm.rdirty hproc)) id⟩

theorem Inv.setFailed (h : Inv m s) : Inv m { s with failed := true } :=
  ⟨h.r_error, h.hole, h.foreign, h.within, h.calm, h.own, fun hf => nomatch hf⟩

/-- The process goes on after `nfs_fsync`, if every block of the file is flushed. -/
theorem Inv.fsynced (h : Inv m s) (k : Cont) (hcalm : s.rdirty = false)
    (hmar : ∀ o < s.r_size, ¬Marked s (o / m.size)) : Inv m (s.fsynced k) := by
  have hproc : ∀ p, Inv m { s with proc := p } := fun p => by
    refine ⟨h.r_error, h.hole, h.foreign, h.within, fun _ => hcalm, h.own, fun hf o v hv => ?_⟩
    obtain ⟨hlt, hh⟩ := h.held hf o v hv
    exact ⟨hlt, hh.mono (fun hm => absurd hm (hmar o hlt)) id⟩
  cases k with
  | opening => exact hproc _
  | reading off resid => exact hproc _
  | closing => simpa [State.fsynced, h.r_error] using hproc (.closed 0)

/-- A byte of a block before the one that is looked at will not be flushed any more. -/
theorem not_marked (hcalm : s.rdirty = false) (h : ∀ i k, s.proc = .fsync i k → bn < i) : ¬Marked s bn := by
  rintro (hm | ⟨i, k, hproc, hle⟩)
  · rw [hcalm] at hm
    cases hm
  · exact absurd hle (Nat.not_le.2 (h i k hproc))

theorem Inv.nfsFsync (h : Inv m s) (hproc : ∀ i k, s.proc ≠ .fsync i k) (k : Cont) : Inv m (s.nfsFsync k) := by
  rw [State.nfsFsync]
  split
  case isTrue =>
    -- every block is marked by the loop that begins
    have hinv : Inv m { s with rdirty := false, proc := .fsync 0 k } := by
      refine ⟨h.r_error, h.hole, h.foreign, h.within, fun _ => rfl, h.own, fun hf o v hv => ?_⟩
      obtain ⟨hlt, hh⟩ := h.held hf o v hv
      exact ⟨hlt, hh.mono (fun _ => .inr ⟨0, k, rfl, Nat.zero_le _⟩) id⟩
    exact hinv.bflush
  case isFalse hdty =>
    have hcalm : s.rdirty = false := by simpa using hdty
    exact h.fsynced k hcalm fun o _ => not_marked hcalm fun i k hik => absurd hik (hproc i k)

theorem Inv.strategy (h : Inv m s) (hbuf : s.buf bn = some ⟨b_addr, .delwri⟩) :
    Inv m (s.setBuf bn (nfsStrategy s.r_error b_addr)) := by
  have hque : nfsStrategy s.r_error b_addr = some ⟨b_addr, .queued⟩ := by simp [nfsStrategy, h.r_error]
  rw [hque]
  refine h.setBuf_same hbuf _ (fun b hb => ?_) (fun _ _ _ hb => by cases hb) fun _ _ _ _ hh => hh
  cases hb
  rfl

/-- The block is clean, and the next one is looked at. -/
theorem Inv.blkflush (hb : DEV_BSIZE ∣ m.mi_bsize) (h : Inv m s) (hproc : s.proc = .fsync bn k)
    (hs' : s.blkflush m bn k = some s') : Inv m s' := by
  have hcalm : s.rdirty = false := h.calm (by rw [hproc]; trivial)
  rw [State.blkflush] at hs'
  split_ifs at hs' with hsize
  · cases hs'
    refine h.fsynced k hcalm fun o ho => not_marked hcalm fun i k' hik => ?_
    cases hproc.symm.trans hik
    rw [← m.size_eq hb] at hsize
    exact Nat.div_lt_of_lt_mul (by rw [mul_comm]; exact ho.trans_le hsize)
  · -- nothing of the block is in a buffer alone
    have hnx (hcln : ∀ o v, o / m.size = bn → Held s bn (o % m.size) o v (s.buf bn) →
        Held { s with proc := .fsync (bn + 1) k } bn (o % m.size) o v (s.buf bn)) :
        Inv m { s with proc := .fsync (bn + 1) k } := by
      refine ⟨h.r_error, h.hole, h.foreign, h.within, fun _ => hcalm, h.own, fun hf o v hv => ?_⟩
      obtain ⟨hlt, hh⟩ := h.held hf o v hv
      refine ⟨hlt, ?_⟩
      by_cases ho : o / m.size = bn
      · rw [ho] at hh ⊢
        exact hcln o v ho hh
      · refine hh.mono (fun hm => ?_) id
        rcases hm with hm | ⟨i, k', hik, hle⟩
        · exact .inl hm
        · cases hproc.symm.trans hik
          exact .inr ⟨bn + 1, k, rfl, Nat.lt_of_le_of_ne hle (Ne.symm ho)⟩
    split at hs'
    case h_1 b_addr hbuf =>
      cases hs'
      exact h.strategy hbuf
    case h_2 hbuf =>
      cases hs'
      exact hnx fun o v _ hh => by rwa [hbuf] at hh ⊢
    case h_3 hbuf =>
      cases hs'
      exact hnx fun o v _ hh => by rwa [hbuf] at hh ⊢
    case h_4 => cases hs'

theorem Inv.nfsGetattr (h : Inv m s) (hproc : ∀ i k, s.proc ≠ .fsync i k) (a : Attr)
    (hk : s.proc = .getattr k) : Inv m ((s.nfsGetattr a).got a k) := by
  have hinv : Inv m (s.nfsGetattr a) ∧ (s.nfsGetattr a).proc = s.proc := by
    cases a with
    | cached => exact ⟨h.grow s.na_size s.na_size, rfl⟩
    | server changed => exact ⟨(h.grow s.eof s.na_size).nfsAttrcache changed, by cases changed <;> rfl⟩
    | failed => exact ⟨h, rfl⟩
  have hproc' : ∀ i k, (s.nfsGetattr a).proc ≠ .fsync i k := by rwa [hinv.2]
  cases k with
  | opening =>
    refine hinv.1.setProc hproc' fun hcalm => ?_
    split_ifs at hcalm <;> exact hcalm.elim
  | reading off resid => exact hinv.1.setProc hproc' False.elim
  | closing => exact hinv.1

/-! ### Reading and writing -/

theorem getD_bytes (f : Mem) {a n i : ℕ} (hi : i < n) : (bytes f a n).getD i 0 = f (a + i) := by
  simp [bytes, getD_eq_getElem?_getD, hi]

theorem Inv.readBio (hb : DEV_BSIZE ∣ m.mi_bsize) (h : Inv m s) (hbuf : s.buf bn = none) (changed : Bool) :
    Inv m (s.readBio m bn changed) := by
  have hbuf' : (s.nfsAttrcache changed).buf bn = none := by
    cases changed <;> simp [State.nfsAttrcache, State.binvalfree, hbuf, Write.binvalfreeBuf, Write.bflushBuf]
  have hfile : (s.nfsAttrcache changed).file = s.file := by cases changed <;> rfl
  have haddr : ∀ o, o / m.size = bn →
      (if m.offset bn + o % m.size < s.eof then s.file (m.offset bn + o % m.size) else 0) = s.file o := by
    rintro o rfl
    rw [m.offset_eq hb, Nat.div_add_mod']
    split_ifs with heof
    · rfl
    · exact (h.hole o (Nat.not_lt.1 heof)).symm
  have hgrow := (h.nfsAttrcache changed).grow (s.nfsAttrcache changed).na_size (s.nfsAttrcache changed).na_size
  refine hgrow.setBuf _ (fun _ _ _ hx => by cases hx) (fun o ho b hx => ?_) fun o v ho _ hh => ?_
  · cases hx
    refine .inr ((haddr o ho).trans ?_)
    rw [← hfile]
  · rw [hbuf'] at hh
    exact ⟨(haddr o ho).trans (hfile ▸ hh.1), hh⟩

/-- The server has acknowledged a piece of a block. -/
theorem Inv.nfswrite (hb : DEV_BSIZE ∣ m.mi_bsize) (h : Inv m s) {done count : ℕ}
    (hbuf : s.buf bn = some ⟨b_addr, .sending done count⟩) : Inv m (s.nfswrite m bn b_addr done count .ok) := by
  obtain ⟨hdone, hcnt⟩ := h.within bn b_addr done count hbuf
  set tsize := min m.mi_stsize (count - done) with htsize
  have hle : done + tsize ≤ m.size := by omega
  set l := bytes b_addr done tsize with hl
  have hlen : l.length = tsize := length_bytes _ _ _
  have hmem (o : ℕ) : (m.offset bn + done ≤ o ∧ o < m.offset bn + done + l.length) ↔
      o / m.size = bn ∧ done ≤ o % m.size ∧ o % m.size < done + tsize := by
    rw [hlen, m.offset_eq hb]
    exact mem_block hle
  have hbyte (o : ℕ) (ho : o / m.size = bn ∧ done ≤ o % m.size ∧ o % m.size < done + tsize) :
      l.getD (o - (m.offset bn + done)) 0 = b_addr (o % m.size) := by
    have hsub : o - (m.offset bn + done) = o % m.size - done := by
      have hmod := Nat.div_add_mod' o m.size
      rw [m.offset_eq hb, ← ho.1]
      omega
    rw [hsub, hl, getD_bytes _ (by omega), Nat.add_sub_cancel' ho.2.1]
  set t := ((s.send (m.offset bn + done) l).rfsWrite (m.offset bn + done) l).ack (m.offset bn + done) l with ht
  have hin (o : ℕ) (ho : o / m.size = bn ∧ done ≤ o % m.size ∧ o % m.size < done + tsize) :
      Stored t o (b_addr (o % m.size)) := by
    constructor
    · exact (if_pos ((hmem o).2 ho)).trans (hbyte o ho)
    · exact (if_pos ((hmem o).2 ho)).trans (congrArg some (hbyte o ho))
  have hout (o : ℕ) (ho : ¬(o / m.size = bn ∧ done ≤ o % m.size ∧ o % m.size < done + tsize)) :
      t.file o = s.file o ∧ t.acked o = s.acked o :=
    ⟨if_neg ((hmem o).not.2 ho), if_neg ((hmem o).not.2 ho)⟩
  have hown (o : ℕ) (ho : o / m.size = bn) : b_addr (o % m.size) ∈ s.put o ∨ b_addr (o % m.size) = s.file o :=
    h.own o ⟨b_addr, .sending done count⟩ (by rw [ho, hbuf])
  have hfor : s.isForeign (m.offset bn + done) l = false := by
    refine List.any_eq_false.2 fun k hk => ?_
    rw [mem_range, hlen] at hk
    -- the byte is one of the buffer
    have ho := (hmem (m.offset bn + done + k)).1 ⟨Nat.le_add_right _ _, by omega⟩
    have hk' := hbyte _ ho
    rw [Nat.add_sub_cancel_left] at hk'
    rw [hk']
    rcases hown _ ho.1 with hput | hfile
    · simp [hput]
    · simp [← hfile]
  -- what was stored of a byte that the buffer has is stored
  have hkeep (o : ℕ) (v : UInt8) (hst : Stored s o v)
      (haddr : o / m.size = bn → b_addr (o % m.size) = v) : Stored t o v := by
    by_cases ho : o / m.size = bn ∧ done ≤ o % m.size ∧ o % m.size < done + tsize
    · exact haddr ho.1 ▸ hin o ho
    · obtain ⟨hf, ha⟩ := hout o ho
      exact ⟨hf.trans hst.1, ha.trans hst.2⟩
  have hinv : Inv m t := by
    refine ⟨h.r_error, fun o ho => ?_, ?_, h.within, h.calm, fun o b hx => ?_, fun hf o v hv => ?_⟩
    · have heof : (if l = [] then s.eof else max s.eof (m.offset bn + done + l.length)) ≤ o := ho
      have hout' : ¬(m.offset bn + done ≤ o ∧ o < m.offset bn + done + l.length) ∧ s.eof ≤ o := by
        split_ifs at heof with hnil
        · exact ⟨by simp [hnil], heof⟩
        · exact ⟨by omega, by omega⟩
      exact (if_neg hout'.1).trans (h.hole o hout'.2)
    · exact (Bool.or_eq_false_iff.2 ⟨h.foreign, hfor⟩)
    · by_cases ho : o / m.size = bn ∧ done ≤ o % m.size ∧ o % m.size < done + tsize
      · have hx' : b = ⟨b_addr, .sending done count⟩ := by
          have hs : s.buf (o / m.size) = some b := hx
          rw [ho.1, hbuf] at hs
          exact (some_inj.1 hs).symm
        exact .inr (hx' ▸ (hin o ho).1.symm)
      · rw [(hout o ho).1]
        exact h.own o b hx
    · obtain ⟨hlt, hh⟩ := h.held hf o v hv
      refine ⟨hlt, hh.mono id fun hst => hkeep o v hst fun ho => ?_⟩
      rw [ho, hbuf] at hh
      exact hh.addr
  have hsto (o : ℕ) (v : UInt8) (ho : o / m.size = bn)
      (hh : Held t bn (o % m.size) o v (some ⟨b_addr, .sending done count⟩)) (hlt : o % m.size < done + tsize) :
      Stored t o v := by
    by_cases hpos : o % m.size < done
    · exact hh.2.2.2 hpos
    · exact hh.1 ▸ hin o ⟨ho, Nat.not_lt.1 hpos, hlt⟩
  have hbuf' : t.buf bn = some ⟨b_addr, .sending done count⟩ := hbuf
  change Inv m (if done + tsize = count then { t with na_size := t.eof }.setBuf bn (some ⟨b_addr, .clean⟩)
    else t.setBuf bn (some ⟨b_addr, .sending (done + tsize) count⟩))
  split_ifs with hend
  · have hinv' : Inv m { t with na_size := t.eof } := by simpa using hinv.grow 0 t.eof
    refine hinv'.setBuf_same hbuf' _ (fun b hx => some_inj.1 hx ▸ rfl) (fun _ _ _ hx => by cases hx)
      fun o v ho _ hh => ⟨hh.1, hsto o v ho hh ?_⟩
    exact hend ▸ hh.2.2.1
  · refine hinv.setBuf_same hbuf' _ (fun b hx => some_inj.1 hx ▸ rfl) (fun a d c hx => ?_)
      fun o v ho _ hh => ⟨hh.1, hh.2.1, hh.2.2.1, hsto o v ho hh⟩
    cases hx
    exact ⟨by omega, hcnt⟩

/-- The bytes that are copied to a block. -/
abbrev Mount.taken (m : Mount) (off : ℕ) (data : List UInt8) (u : Uiomove) : List UInt8 :=
  data.take (u.copied (m.chunk off data.length))

theorem Uiomove.copied_le (u : Uiomove) (n : ℕ) : u.copied n ≤ n := by
  cases u with
  | all => exact le_refl n
  | fault copied counted => exact Nat.min_le_left _ _

theorem Mount.length_taken (m : Mount) (off : ℕ) (data : List UInt8) (u : Uiomove) :
    (m.taken off data u).length = u.copied (m.chunk off data.length) := by
  have hle : u.copied (m.chunk off data.length) ≤ data.length :=
    (u.copied_le _).trans (Nat.min_le_right _ _)
  simpa using hle

/-- The bytes copied are of the block. -/
theorem Mount.mem_taken (m : Mount) (off : ℕ) (data : List UInt8) (u : Uiomove) (o : ℕ) :
    (off ≤ o ∧ o < off + (m.taken off data u).length) ↔ o / m.size = off / m.size ∧
      off % m.size ≤ o % m.size ∧ o % m.size < off % m.size + (m.taken off data u).length := by
  have hle : off % m.size + (m.taken off data u).length ≤ m.size := by
    have hchk : m.chunk off data.length ≤ m.size - off % m.size := Nat.min_le_left _ _
    have hcop := u.copied_le (m.chunk off data.length)
    have hlt := Nat.mod_lt off m.size_pos
    rw [m.length_taken]
    omega
  have hmem : (off / m.size * m.size + off % m.size ≤ o ∧
      o < off / m.size * m.size + off % m.size + (m.taken off data u).length) ↔ _ := mem_block hle
  rwa [Nat.div_add_mod'] at hmem

/-- The process has put bytes in a buffer. What it has not put there is what the buffer had, which is
    good. -/
theorem Inv.uiomove (h : Inv m s)
    (hown : ∀ o, o / m.size = off / m.size → ¬(off ≤ o ∧ o < off + (m.taken off data u).length) →
      b_addr (o % m.size) ∈ s.put o ∨ b_addr (o % m.size) = s.file o)
    (hheld : s.failed = false → ∀ o v, o / m.size = off / m.size →
      ¬(off ≤ o ∧ o < off + (m.taken off data u).length) →
      (s.put o).head? = some v → b_addr (o % m.size) = v) :
    Inv m (s.uiomove m off data b_addr u) := by
  set l := m.taken off data u with hl
  set x := if m.chunk off data.length + off % m.size = m.size then
    nfsStrategy s.r_error (store b_addr (off % m.size) l) else some ⟨store b_addr (off % m.size) l, .delwri⟩ with hx
  -- the buffer becomes dirty
  have hdty : ∃ io, x = some ⟨store b_addr (off % m.size) l, io⟩ ∧ (io = .delwri ∨ io = .queued) := by
    rw [hx]
    split_ifs
    · exact ⟨.queued, by simp [nfsStrategy, h.r_error], .inr rfl⟩
    · exact ⟨.delwri, rfl, .inl rfl⟩
  obtain ⟨io, hio, hwait⟩ := hdty
  have haddr (o : ℕ) (ho : o / m.size = off / m.size) : store b_addr (off % m.size) l (o % m.size) =
      if off ≤ o ∧ o < off + l.length then l.getD (o - off) 0 else b_addr (o % m.size) := by
    have hsub : o - off = o % m.size - off % m.size := by
      have hmod := Nat.div_add_mod' o m.size
      have hmod' := Nat.div_add_mod' off m.size
      rw [ho] at hmod
      omega
    rw [store, hsub]
    refine if_congr ?_ rfl rfl
    rw [m.mem_taken off data u o]
    exact (and_iff_right ho).symm
  have hout (o : ℕ) (ho : o / m.size ≠ off / m.size) : ¬(off ≤ o ∧ o < off + l.length) := fun hin =>
    ho ((m.mem_taken off data u o).1 hin).1
  set t := s.uiomove m off data b_addr u with ht
  have hput (o : ℕ) : t.put o =
      if off ≤ o ∧ o < off + l.length then l.getD (o - off) 0 :: s.put o else s.put o := rfl
  have hbuf (k : ℕ) : t.buf k = if k = off / m.size then x else s.buf k := update_apply _ _ _ _
  refine ⟨h.r_error, h.hole, h.foreign, fun k => ?_, fun hcalm => ?_, fun o b hb => ?_, fun hf o v hv => ?_⟩
  · intro a d c hsend
    rw [hbuf, hio] at hsend
    split_ifs at hsend
    · rcases hwait with rfl | rfl <;> cases hsend
    · exact h.within k a d c hsend
  · have hproc : t.proc = if u ≠ Uiomove.all ∨ data.length = m.chunk off data.length then .idle
        else .writing (off + m.chunk off data.length) (data.drop (m.chunk off data.length)) := rfl
    rw [hproc] at hcalm
    split_ifs at hcalm <;> exact hcalm.elim
  · change b.b_addr (o % m.size) ∈ t.put o ∨ b.b_addr (o % m.size) = s.file o
    rw [hbuf] at hb
    by_cases ho : o / m.size = off / m.size
    · rw [if_pos ho, hio] at hb
      cases hb
      have hb : store b_addr (off % m.size) l (o % m.size) ∈ t.put o ∨
          store b_addr (off % m.size) l (o % m.size) = s.file o := by
        rw [haddr o ho, hput]
        by_cases hin : off ≤ o ∧ o < off + l.length
        · simp [hin]
        · simpa [hin] using hown o ho hin
      exact hb
    · rw [if_neg ho] at hb
      rw [hput, if_neg (hout o ho)]
      exact h.own o b hb
  · obtain ⟨hf', hall⟩ := Bool.or_eq_false_iff.1 hf
    obtain rfl : u = .all := by simpa using hall
    have hmar : Marked t (o / m.size) := .inl rfl
    rw [hbuf]
    rw [hput] at hv
    by_cases hin : off ≤ o ∧ o < off + l.length
    · -- the byte was put there now
      have ho := ((m.mem_taken off data .all o).1 hin).1
      have hlen : l.length = m.chunk off data.length := m.length_taken off data .all
      rw [if_pos hin] at hv
      have hsize : t.r_size = max s.r_size (off + m.chunk off data.length) := rfl
      refine ⟨by omega, ?_⟩
      rw [if_pos ho, hio]
      have hv' : store b_addr (off % m.size) l (o % m.size) = v := by
        rw [haddr o ho, if_pos hin]
        exact some_inj.1 hv
      rcases hwait with rfl | rfl <;> exact ⟨hv', hmar⟩
    · rw [if_neg hin] at hv
      obtain ⟨hlt, hh⟩ := h.held hf' o v hv
      refine ⟨hlt.trans_le (Nat.le_max_left _ _), ?_⟩
      split_ifs with ho
      · have hv' : store b_addr (off % m.size) l (o % m.size) = v := by
          rw [haddr o ho, if_neg hin]
          exact hheld hf' o v ho hin hv
        rw [hio]
        rcases hwait with rfl | rfl <;> exact ⟨hv', hmar⟩
      · exact hh.mono (fun _ => hmar) id

/-- The process puts bytes in a buffer that it has found, or read. -/
theorem Inv.uiomove_buf (h : Inv m s) (hbuf : s.buf (off / m.size) = some b)
    (u : Uiomove) : Inv m (s.uiomove m off data b.b_addr u) := by
  refine h.uiomove (fun o ho _ => ?_) fun hf o v ho _ hv => ?_
  · exact h.own o b (by rw [ho, hbuf])
  · have hh := (h.held hf o v hv).2
    rw [ho, hbuf] at hh
    exact hh.addr

theorem Inv.writeBlock (hb : DEV_BSIZE ∣ m.mi_bsize) (h : Inv m s)
    {junk : Mem} (hproc : s.proc = .writing off data)
    (hok : u = .all ∨ (s.buf (off / m.size) = none → m.chunk off data.length ≠ m.size))
    (hs' : s.writeBlock m off data junk bread u = some s') : Inv m s' := by
  unfold State.writeBlock at hs'
  split at hs'
  case h_1 => cases hs'
  case h_2 => cases hs'
  case h_3 b_addr io _ _ hbuf =>
    cases hs'
    exact h.uiomove_buf hbuf u
  case h_4 hbuf =>
    split_ifs at hs' with hwhl
    · cases hs'
      obtain rfl := hok.resolve_right fun hne => hne hbuf hwhl
      -- the whole block is overwritten
      have hall : ∀ o, o / m.size = off / m.size → off ≤ o ∧ o < off + (m.taken off data .all).length := by
        intro o ho
        have hlen : (m.taken off data .all).length = m.chunk off data.length := m.length_taken off data .all
        have hpos : off % m.size = 0 := by
          have hle : m.chunk off data.length ≤ m.size - off % m.size := Nat.min_le_left _ _
          have hsize := m.size_pos
          omega
        refine (m.mem_taken off data .all o).2 ⟨ho, ?_, ?_⟩
        · rw [hpos]
          exact Nat.zero_le _
        · rw [hpos, hlen, hwhl, zero_add]
          exact Nat.mod_lt _ m.size_pos
      exact h.uiomove (fun o ho hin => absurd (hall o ho) hin) fun _ o v ho hin => absurd (hall o ho) hin
    · cases bread with
      | none =>
        cases hs'
        exact h.setFailed.setProc (by simp [hproc]) False.elim
      | some changed =>
        obtain ⟨b, hread, rfl⟩ := map_eq_some_iff.1 hs'
        exact (h.readBio hb hbuf changed).uiomove_buf hread u

theorem Inv.rwvpWrite (h : Inv m s) (hproc : s.proc = .idle) (off : ℤ) (data : List UInt8) (rlim_cur : ℕ) :
    Inv m (s.rwvpWrite off data rlim_cur) := by
  rw [State.rwvpWrite]
  split_ifs
  · exact h
  · exact h.setFailed
  · exact h.setFailed
  · exact h.setProc (by simp [hproc]) False.elim

theorem Inv.rwvpRead (h : Inv m s) (hproc : s.proc = .idle) (off : ℤ) (resid : ℕ) : Inv m (s.rwvpRead off resid) := by
  rw [State.rwvpRead]
  split_ifs
  · exact h
  · exact h.setProc (by simp [hproc]) False.elim

theorem Inv.incore (h : Inv m s) (hproc : s.proc = .reading off resid) : Inv m (s.incore m off resid) := by
  rw [State.incore]
  split
  · exact h.nfsFsync (by simp [hproc]) _
  · exact h.setProc (by simp [hproc]) False.elim

theorem Inv.readOut (h : Inv m s) (hproc : ∀ i k, s.proc ≠ .fsync i k) (off resid : ℕ) (fault : Bool) :
    Inv m (s.readOut m off resid fault) := by
  refine h.setProc hproc fun hcalm => ?_
  split_ifs at hcalm <;> exact hcalm.elim

theorem readBio_proc (m : Mount) (s : State) (bn : ℕ) (changed : Bool) : (s.readBio m bn changed).proc = s.proc := by
  cases changed <;> rfl

theorem Inv.readBlock (hb : DEV_BSIZE ∣ m.mi_bsize) (h : Inv m s) {fault : Bool}
    (hproc : s.proc = .fetching off resid) (hs' : s.readBlock m off resid bread fault = some s') : Inv m s' := by
  have hne : ∀ i k, s.proc ≠ .fsync i k := by simp [hproc]
  unfold State.readBlock at hs'
  split at hs'
  case h_1 => cases hs'
  case h_2 => cases hs'
  case h_3 =>
    cases hs'
    exact h.readOut hne off resid fault
  case h_4 =>
    cases hs'
    exact h.setProc hne False.elim
  case h_5 hbuf =>
    cases hs'
    exact (h.readBio hb hbuf _).readOut (by rwa [readBio_proc]) off resid fault

/-! ### The invariant -/

theorem inv_init (hb : DEV_BSIZE ∣ m.mi_bsize) (h : Init m s) : Inv m s := by
  refine ⟨h.r_error, h.hole, h.foreign, fun bn a done count hbuf => ?_, fun hcalm => ?_, fun o b hbuf => .inr ?_,
    fun _ o v hv => ?_⟩
  · cases (h.clean bn _ hbuf).1
  · rw [h.proc] at hcalm
    exact hcalm.elim
  · rw [(h.clean _ b hbuf).2 _ (Nat.mod_lt _ m.size_pos), m.offset_eq hb, Nat.div_add_mod']
  · simp [h.put] at hv

/-- What is sent of a buffer begins within the file. -/
theorem Inv.doBio (hb : DEV_BSIZE ∣ m.mi_bsize) (h : Inv m s) (hbuf : s.buf bn = some ⟨b_addr, .queued⟩) :
    Inv m (s.setBuf bn (some ⟨b_addr, .sending 0 (s.bioCount m bn)⟩)) := by
  refine h.setBuf_same hbuf _ (fun b hx => some_inj.1 hx ▸ rfl) (fun a d c hx => ?_) fun o v ho hlt hh => ?_
  · cases hx
    refine ⟨Nat.zero_le _, ?_⟩
    rw [State.bioCount]
    split_ifs
    · exact Nat.min_le_left _ _
    · exact le_refl _
  · refine ⟨hh.1, hh.2, ?_, fun hpos => absurd hpos (Nat.not_lt_zero _)⟩
    have hmod := Nat.div_add_mod' o m.size
    have hsize := Nat.mod_lt o m.size_pos
    rw [State.bioCount, m.offset_eq hb, ← ho]
    split_ifs <;> omega

theorem Inv.step {a : Label} (hb : DEV_BSIZE ∣ m.mi_bsize) (h : Inv m s) (hok : StepOk m s a)
    (hs' : after m s a = some s') : Inv m s' := by
  cases a with
  | «open» =>
    simp only [after] at hs'
    split at hs' <;> cases hs'
    case h_1 hproc => exact h.nfsFsync (by simp [hproc]) _
    case h_2 hproc => exact h.nfsFsync (by simp [hproc]) _
  | close =>
    simp only [after] at hs'
    split_ifs at hs' with hproc
    cases hs'
    exact h.nfsFsync (by simp [hproc]) _
  | write off data rlim_cur =>
    simp only [after] at hs'
    split_ifs at hs' with hproc
    cases hs'
    exact h.rwvpWrite hproc off data rlim_cur
  | read off resid =>
    simp only [after] at hs'
    split_ifs at hs' with hproc
    cases hs'
    exact h.rwvpRead hproc off resid
  | writeBlock junk bread u =>
    simp only [after] at hs'
    split at hs'
    case h_1 off data hproc => exact h.writeBlock hb hproc (hok.imp_right fun hread => hread off data hproc) hs'
    case h_2 => cases hs'
  | incore =>
    simp only [after] at hs'
    split at hs' <;> cases hs'
    case h_1 hproc => exact h.incore hproc
  | readBlock bread fault =>
    simp only [after] at hs'
    split at hs'
    case h_1 hproc => exact h.readBlock hb hproc hs'
    case h_2 => cases hs'
  | blkflush =>
    simp only [after] at hs'
    split at hs'
    case h_1 hproc => exact h.blkflush hb hproc hs'
    case h_2 => cases hs'
  | getattr a =>
    simp only [after] at hs'
    split at hs' <;> cases hs'
    case h_1 hproc => exact h.nfsGetattr (by simp [hproc]) a hproc
  | strategy bn =>
    simp only [after] at hs'
    split at hs' <;> cases hs'
    case h_1 hbuf => exact h.strategy hbuf
  | doBio bn =>
    simp only [after] at hs'
    split at hs' <;> cases hs'
    case h_1 hbuf => exact h.doBio hb hbuf
  | nfswrite bn reply =>
    simp only [after] at hs'
    split at hs' <;> cases hs'
    case h_1 hbuf =>
      obtain rfl : reply = .ok := hok
      exact h.nfswrite hb hbuf
  | reuse bn =>
    simp only [after] at hs'
    split at hs' <;> cases hs'
    case h_1 hbuf =>
      exact h.setBuf_same hbuf none (fun _ hx => by cases hx) (fun _ _ _ hx => by cases hx) fun _ _ _ _ hh => hh.2
  | ahead bn changed =>
    simp only [after] at hs'
    split at hs' <;> cases hs'
    case h_1 hbuf => exact h.readBio hb hbuf changed

/-- After the file was closed, every byte is on the server. -/
theorem Inv.sound (h : Inv m s) : Sound s := by
  refine ⟨fun hclo hf o v hv => ?_, h.foreign⟩
  have hcalm : s.rdirty = false := h.calm (by rw [hclo]; trivial)
  exact ((h.held hf o v hv).2.stored (not_marked hcalm (by simp [hclo]))).2

end Invariant

/-- In every run whose steps meet the condition, no write is lost if `nfs_close` returns 0, and nothing is
    written that the process did not write. -/
theorem write_sound {m : Mount} (hb : DEV_BSIZE ∣ m.mi_bsize) {s : State}
    (hs : ((system m).restrict (StepOk m)).Reachable s) : Sound s := by
  have hinv : Inv m s := by
    refine hs.invariant (fun s hs => ?_) fun s a s' hs h => ?_
    · exact inv_init hb hs
    · exact hs.step hb h.1 h.2
  exact hinv.sound

/-! ### Errors -/

section Errors

variable {m : Mount} {s s' : State}

end Errors

/-! ### Short files -/

/-- A file that is not open, with no buffers. -/
def fresh (eof : ℕ) : State where
  file o := if o < eof then 1 else 0
  eof := eof
  r_size := 0
  na_size := 0
  r_error := 0
  rdirty := false
  buf _ := none
  proc := .notOpen
  put _ := []
  acked _ := none
  failed := false
  foreign := false

theorem init_fresh (m : Mount) (eof : ℕ) : Init m (fresh eof) :=
  ⟨fun _ ho => if_neg (Nat.not_lt.2 ho), fun _ _ h => (nomatch h), rfl, rfl, fun _ => rfl, rfl, rfl⟩

/-- A byte is written to an empty file, and the file closed; the server replies to the call that writes
    the block `bn`, and so many blocks are flushed. -/
def oneByte (off : ℤ) (bn : ℕ) (reply : Reply) (blocks : ℕ) : List Label :=
  [.open, .getattr .cached, .write off [1] 10000, .writeBlock (fun _ => 0) (some false) .all, .close, .doBio bn,
    .nfswrite bn reply] ++ .replicate blocks .blkflush

/-- A file that was closed after its first byte was written. -/
def closed : State := ((oneByte 0 0 .ok 2).foldlM (after ⟨8192, 8192⟩) (fresh 0)).get (by decide +kernel)

theorem write_sound_closed : Sound closed := by
  have hinit : ((system ⟨8192, 8192⟩).restrict (StepOk ⟨8192, 8192⟩)).Reachable (fresh 0) := .init (init_fresh _ 0)
  refine write_sound (by decide) (hinit.foldlM_restrict (oneByte 0 0 .ok 2) (fun a ha t => ?_) (some_get _).symm)
  simp only [oneByte, cons_append, nil_append, replicate, mem_cons, not_mem_nil, or_false] at ha
  rcases ha with rfl | rfl | rfl | rfl | rfl | rfl | rfl | rfl | rfl <;> simp [StepOk]

/-- If steps lead to a state that is not sound, there are runs where a write is lost or something else
    written. -/
theorem not_sound_of_run (m : Mount) (eof : ℕ) (as : List Label) (bad : State → Bool)
    (hbad : ∀ s, bad s = true → ¬Sound s) (hrun : (as.foldlM (after m) (fresh eof)).any bad = true) :
    ¬∀ (m : Mount) (s : State), (system m).Reachable s → Sound s := by
  intro h
  obtain ⟨s, hs, hb⟩ := (Option.any_eq_true _ _).1 hrun
  exact hbad s hb (h m s (System.Reachable.foldlM (.init (init_fresh m eof)) hs))

/-- The file is closed without an error, and a byte that was put at an offset has not been acknowledged. -/
def isLost (off : ℕ) (s : State) : Bool := s.proc = .closed 0 ∧ s.failed = false ∧ s.put off = [1] ∧ s.acked off = none

theorem not_sound_of_isLost {off : ℕ} {s : State} (h : isLost off s = true) : ¬Sound s := by
  obtain ⟨hproc, hf, hput, hacked⟩ := of_decide_eq_true h
  intro hs
  have hack := hs.acked hproc hf off 1 (by rw [hput]; rfl)
  rw [hacked] at hack
  cases hack

/-- The call that writes fails, and the file is closed without an error. -/
theorem write_lost : ¬∀ (m : Mount) (s : State), (system m).Reachable s → Sound s :=
  not_sound_of_run ⟨8192, 8192⟩ 0 (oneByte 0 0 (.error false) 2) (isLost 0) (fun _ => not_sound_of_isLost)
    (by decide +kernel)

/-- The blocks of the server have 1500 bytes: the third one is written elsewhere. -/
theorem block_moved : ¬∀ (m : Mount) (s : State), (system m).Reachable s → Sound s :=
  not_sound_of_run ⟨1500, 8192⟩ 0 (oneByte 2048 2 .ok 3) (isLost 2048) (fun _ => not_sound_of_isLost)
    (by decide +kernel)

/-- A block of a file of ten bytes is to be overwritten, and nothing can be copied. -/
theorem junk_sent : ¬∀ (m : Mount) (s : State), (system m).Reachable s → Sound s :=
  not_sound_of_run ⟨1024, 8192⟩ 10
    [.open, .getattr (.server false), .write 0 (.replicate 1024 2) 10000,
      .writeBlock (fun _ => 7) none (.fault 0 0), .doBio 0, .nfswrite 0 .ok]
    State.foreign (fun _ h hs => Bool.false_ne_true (hs.foreign.symm.trans h)) (by decide +kernel)

end Uwisc.Nfs.Write
