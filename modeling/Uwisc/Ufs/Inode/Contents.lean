import Uwisc.Lib.System
import Uwisc.Ufs.Inode.Write

/-!
# A file is an array of bytes

What is to be in a file after writes and truncations (`Contents`), and that it is, in all runs whose calls
are `Ready` (`file_exact`). The condition is about writes: there are no bytes that were truncated away
between the end of the file and the place (`tail_shown`), the last block is not a hole that would have to
be extended (`hole_extended`), and a piece that is copied in part lies inside the file
(`fault_extends`) and, if it is a whole block, was in its buffer.
-/

namespace Uwisc.Ufs

open Except Lib List Option

/-- The bytes of a file. All from `size` on are 0. -/
structure Contents where
  size : ℕ
  byte : Mem

namespace Contents

/-- What a call is to do, and to return if it reads. -/
def exec (c : Contents) (op : File.Op) : Contents × Data :=
  if op.accepted then
    match op with
    | .write offset data copied _ _ =>
      let l := data.take copied
      (⟨if l = [] then c.size else max c.size (offset.toNat + l.length), store c.byte offset.toNat l⟩, [])
    | .read offset resid => (c, bytes c.byte offset.toNat (min resid (c.size - offset.toNat)))
    | .trunc length =>
      (if c.size ≤ length then c else ⟨length, fun x => if x < length then c.byte x else 0⟩, [])
  else (c, [])

end Contents

namespace File

variable {fs : Fs}

/-! ### Reading -/

variable {ip : File} {c : Contents} {s : Session} {op : Op}

/-- The buffer of a block has the bytes of the file. -/
theorem Shape.buffer (h : Shape fs ip) (offset : ℕ) : ∃ buf,
    (ip.bmapRead fs (lblkno fs offset)).elim (.ok (zeros (blksize fs ip.i_size (lblkno fs offset))))
      (fun b => bread b (blksize fs ip.i_size (lblkno fs offset))) = ok buf ∧
    buf.length = blksize fs ip.i_size (lblkno fs offset) ∧
    ∀ {n : ℕ}, blkoff fs offset + n ≤ blksize fs ip.i_size (lblkno fs offset) →
      (buf.drop (blkoff fs offset)).take n = bytes (raw fs ip) offset n := by
  obtain ⟨buf, hbuf, hlen, hbyte⟩ : ∃ buf, (ip.bmapRead fs (lblkno fs offset)).elim
      (.ok (zeros (blksize fs ip.i_size (lblkno fs offset))))
      (fun b => bread b (blksize fs ip.i_size (lblkno fs offset))) = ok buf ∧
      buf.length = blksize fs ip.i_size (lblkno fs offset) ∧
      ∀ i, buf.getD i 0 = byteOf (ip.bmapRead fs (lblkno fs offset)) i := by
    cases hb : ip.bmapRead fs (lblkno fs offset) with
    | none => exact ⟨_, rfl, length_replicate, byteOf_zeros _⟩
    | some b => exact ⟨b, bread_ok (h _ b hb).1, (h _ b hb).1, fun i => rfl⟩
  refine ⟨buf, hbuf, hlen, fun {n} hroom => ?_⟩
  refine ext_getElem (by simp; omega) fun i hi hi' => ?_
  rw [length_bytes] at hi'
  have hi : blkoff fs offset + i < buf.length := by omega
  have hat := hbyte (blkoff fs offset + i)
  rw [getD_eq_getElem?_getD, getElem?_eq_getElem hi, getD_some] at hat
  have hlt : blkoff fs offset + i < fs.fs_bsize := by
    rw [hlen] at hi
    exact hi.trans_le blksize_le
  have hx : lblkno fs (lblkno fs offset * fs.fs_bsize + (blkoff fs offset + i)) = lblkno fs offset ∧
      blkoff fs (lblkno fs offset * fs.fs_bsize + (blkoff fs offset + i)) = blkoff fs offset + i :=
    place_of hlt
  rw [← add_assoc, lblkno_add_blkoff] at hx
  simp only [getElem_take, getElem_drop, hat, bytes, getElem_map, getElem_range, raw]
  rw [hx.1, hx.2]

theorem rwipRead_spec (h : Shape fs ip) (fuel : ℕ) {offset resid : ℕ} (hfuel : resid ≤ fuel) :
    rwipRead fs ip fuel offset resid = .ok (bytes (raw fs ip) offset (min resid (ip.i_size - offset))) := by
  induction fuel generalizing offset resid with
  | zero =>
    rw [Nat.le_zero.1 hfuel, Nat.zero_min]
    rfl
  | succ fuel ih =>
    rw [rwipRead]
    by_cases hend : ip.i_size ≤ offset
    · rw [if_pos hend, Nat.sub_eq_zero_of_le hend, Nat.min_zero]
      rfl
    · rw [if_neg hend]
      have hplc := lblkno_add_blkoff fs offset
      have hoff : blkoff fs offset < fs.fs_bsize := Nat.mod_lt _ (bsize_pos fs)
      obtain ⟨n, hn⟩ : ∃ n, n = min (min (fs.fs_bsize - blkoff fs offset) resid) (ip.i_size - offset) :=
        ⟨_, rfl⟩
      have hroom : blkoff fs offset + n ≤ blksize fs ip.i_size (lblkno fs offset) := by
        have hst : lblkno fs offset * fs.fs_bsize ≤ ip.i_size := by omega
        have hle := le_blksize hst
        rw [add_mul, one_mul] at hle
        omega
      obtain ⟨buf, hbuf, -, hslice⟩ := h.buffer offset
      have hout := hslice hroom
      dsimp only
      rw [← hn, hbuf, min_eq_left (by omega)]
      change (if n ≠ 0 ∧ n < resid then _ else _) = _
      rw [hout]
      by_cases hmore : n ≠ 0 ∧ n < resid
      · rw [if_pos hmore, ih (by omega)]
        change ok (bytes (raw fs ip) offset n ++ _) = _
        rw [← bytes_add]
        congr 2
        omega
      · rw [if_neg hmore]
        congr 2
        omega

/-! ### Truncation -/

theorem byteOf_take (b : Data) {n i : ℕ} (h : i < n) : byteOf (some (b.take n)) i = byteOf (some b) i := by
  rw [byteOf, byteOf, getD_some, getD_some, getD_eq_getElem?_getD,
    getD_eq_getElem?_getD, getElem?_take, if_pos h]

/-- The bytes that blocks and fragments have that are kept stay, also those after the new end of the file. -/
theorem itrunc_contents (hbsize : MINBSIZE ≤ fs.fs_bsize) (h : Shape fs ip) {length : ℕ}
    (hlt : length < ip.i_size) : ∃ (ip' : File) (r : _), ip.itrunc fs (fun b size => b.take size) length = .ok (ip', r) ∧
      Shape fs ip' ∧ ip'.i_size = length ∧ ∀ x, lblkno fs x * fs.fs_bsize < length →
        blkoff fs x < blksize fs length (lblkno fs x) → raw fs ip' x = raw fs ip x := by
  obtain ⟨ip', r, heq, htrunc⟩ := Inode.itrunc_spec (nindir_pos hbsize)
    (fun (b : Data) size => b.take size) ip hlt
  refine ⟨ip', r, heq, fun bn b hb => ?_, htrunc.size, fun x hst hroom => ?_⟩
  · rw [htrunc.bmapRead] at hb
    rw [htrunc.size]
    split_ifs at hb with hst hdir
    · refine ⟨?_, hst⟩
      have hread : ip.bmapRead fs bn = ip.i_db bn := if_pos hdir
      have hmono := blksize_mono hst hlt.le
      rw [Inode.cutAt] at hb
      split_ifs at hb with hcut
      · obtain ⟨b', hb', rfl⟩ := map_eq_some_iff.1 hb
        rw [length_take, (h bn b' (hread.trans hb')).1, min_eq_left hcut.le]
      · rw [(h bn b (hread.trans hb)).1]
        exact (Nat.le_of_not_lt hcut).antisymm hmono |>.symm ▸ rfl
    · refine ⟨?_, hst⟩
      rw [(h bn b hb).1, blksize_whole (Or.inl (Nat.le_of_not_lt hdir)),
        blksize_whole (Or.inl (Nat.le_of_not_lt hdir))]
  · rw [raw, raw, htrunc.bmapRead, if_pos hst]
    split_ifs with hdir
    · have hread : ip.bmapRead fs (lblkno fs x) = ip.i_db (lblkno fs x) := if_pos hdir
      rw [hread, Inode.cutAt]
      split_ifs with hcut
      · cases ip.i_db (lblkno fs x) with
        | none => rfl
        | some b => exact byteOf_take b hroom
      · rfl
    · rfl

/-! ### Calls -/

/-- The calls that are as they should be. -/
def Ready (fs : Fs) (ip : File) : Op → Prop
  | .write offset data copied stale limit =>
    (Op.write offset data copied stale limit).accepted →
      (∀ x, ip.i_size ≤ x → x < offset.toNat → raw fs ip x = 0) ∧
      HoleOk fs ip offset.toNat (reached fs offset.toNat data.length copied) ∧
      (copied < data.length → reached fs offset.toNat data.length copied ≤ ip.i_size) ∧
      StaleOk fs stale ip offset.toNat data.length copied
  | .read _ _ => True
  | .trunc _ => True

/-- The file has the bytes. -/
structure Sim (fs : Fs) (ip : File) (c : Contents) : Prop where
  shape : Shape fs ip
  lt : ip.i_size < 2 ^ 31
  size : ip.i_size = c.size
  byte : ∀ x < c.size, raw fs ip x = c.byte x
  zero : ∀ x, c.size ≤ x → c.byte x = 0

theorem reached_le (fs : Fs) (offset len copied : ℕ) : reached fs offset len copied ≤ offset + len := by
  rw [reached]
  split_ifs
  · exact min_le_left _ _
  · exact le_rfl

theorem Sim.write (hbsize : MINBSIZE ≤ fs.fs_bsize) (h : Sim fs ip c)
    {offset : ℤ} {data : Data} {copied : ℕ} {stale : ℕ → Mem} {limit : ℕ}
    (hacc : (Op.write offset data copied stale limit).accepted)
    (hrdy : Ready fs ip (.write offset data copied stale limit)) :
    ∃ ip', ip.exec fs (.write offset data copied stale limit) = .ok (ip', []) ∧
      Sim fs ip' (c.exec (.write offset data copied stale limit)).1 ∧
      (c.exec (.write offset data copied stale limit)).2 = [] := by
  obtain ⟨htail, hhole, hfault, hstale⟩ := hrdy hacc
  have hacc' := hacc
  obtain ⟨hoffs, hmax, hpos, -⟩ := hacc'
  have hmax' : offset.toNat + data.length < 2 ^ 31 := by omega
  obtain ⟨ip', heq, hshp, hsize, hraw⟩ := rwipWrite_spec hbsize data.length h.shape h.lt hpos le_rfl
    hmax' hhole hstale
  have hrea := reached_le fs offset.toNat data.length copied
  have hlt := h.lt
  have hcsize := h.size
  have hlen : (data.take copied).length = min copied data.length := length_take
  -- the size is that of the furthest byte that was copied
  have hend : ip'.i_size = if data.take copied = [] then c.size
      else max c.size (offset.toNat + (data.take copied).length) := by
    have hnone : data.take copied = [] ↔ min copied data.length = 0 := by
      rw [← length_eq_zero_iff, hlen]
    rw [hsize]
    rcases lt_or_ge copied data.length with hcop | hcop
    · have hle := hfault hcop
      have hge : offset.toNat + copied ≤ reached fs offset.toNat data.length copied :=
        le_reached le_rfl hcop.le
      split_ifs
      · omega
      · omega
    · rw [reached, if_neg hcop.not_gt, if_neg (by rw [hnone]; omega)]
      omega
  rw [File.exec, if_pos hacc, Contents.exec, if_pos hacc]
  dsimp only
  rw [heq]
  refine ⟨ip', rfl, ⟨hshp, by omega, hend, fun x hx => ?_, fun x hx => ?_⟩, rfl⟩
  · dsimp only at hx ⊢
    rw [← hend] at hx
    rw [hraw, store, store]
    split_ifs with hin
    · rfl
    · rcases lt_or_ge x c.size with hlt | hge
      · exact h.byte x hlt
      · rw [h.zero x hge]
        refine htail x (by omega) ?_
        rw [hend] at hx
        split_ifs at hx with hnil
        · omega
        · omega
  · dsimp only at hx ⊢
    rw [← hend] at hx
    rw [store, if_neg]
    · exact h.zero x (by omega)
    · rw [hend] at hx
      rintro ⟨hge, hlt⟩
      split_ifs at hx with hnil
      · rw [hnil, length_nil] at hlt
        omega
      · omega

theorem Sim.trunc (hbsize : MINBSIZE ≤ fs.fs_bsize) (h : Sim fs ip c)
    (length : ℕ) : ∃ ip', ip.exec fs (.trunc length) = .ok (ip', []) ∧
      Sim fs ip' (c.exec (.trunc length)).1 ∧ (c.exec (.trunc length)).2 = [] := by
  have hacc : (Op.trunc length).accepted := trivial
  rw [File.exec, if_pos hacc, Contents.exec, if_pos hacc]
  dsimp only
  have hcsize := h.size
  by_cases hle : c.size ≤ length
  · rw [if_pos hle, Inode.itrunc, if_pos (hcsize.trans_le hle)]
    exact ⟨ip, rfl, h, rfl⟩
  · have hlt : length < ip.i_size := by omega
    have hmax := h.lt
    obtain ⟨ip', r, heq, hshp, hsize, hraw⟩ := itrunc_contents hbsize h.shape hlt
    rw [if_neg hle, heq]
    refine ⟨ip', rfl, ⟨hshp, by omega, hsize, fun x hx => ?_, fun x hx => if_neg hx.not_gt⟩, rfl⟩
    dsimp only at hx ⊢
    have hst := (lblkno_le fs x).trans_lt hx
    have hroom := le_blksize hst.le
    have hplc := lblkno_add_blkoff fs x
    have hend := lt_lblkno fs x
    rw [if_pos hx, hraw x hst (by omega), h.byte x (by omega)]

/-- A call does and returns what it is to. -/
theorem Sim.exec (hbsize : MINBSIZE ≤ fs.fs_bsize) (h : Sim fs ip c) (hrdy : Ready fs ip op) :
    ∃ ip' out, ip.exec fs op = .ok (ip', out) ∧ Sim fs ip' (c.exec op).1 ∧ (c.exec op).2 = out := by
  by_cases hacc : op.accepted
  · cases op with
    | write offset data copied stale limit =>
      obtain ⟨ip', heq, hsim, hout⟩ := h.write hbsize hacc hrdy
      exact ⟨ip', [], heq, hsim, hout⟩
    | read offset resid =>
      rw [File.exec, if_pos hacc, Contents.exec, if_pos hacc]
      dsimp only
      rw [rwipRead_spec h.shape resid le_rfl]
      refine ⟨ip, _, rfl, h, ?_⟩
      rw [h.size]
      refine map_congr_left fun i hi => (h.byte _ ?_).symm
      have := mem_range.1 hi
      omega
    | trunc length =>
      obtain ⟨ip', heq, hsim, hout⟩ := h.trunc hbsize length
      exact ⟨ip', [], heq, hsim, hout⟩
  · rw [File.exec.eq_def, if_neg hacc, Contents.exec.eq_def, if_neg hacc]
    exact ⟨ip, [], rfl, h, rfl⟩

/-! ### Runs -/

/-- A file, what is to be in it, and what calls returned and were to return, the last call first. -/
structure Session where
  file : Except Panic File
  contents : Contents
  got : List Data
  due : List Data

/-- A call, after which there is no other if it panics. -/
def Session.exec (fs : Fs) (s : Session) (op : Op) : Session :=
  match s.file with
  | .error _ => s
  | .ok ip =>
    match ip.exec fs op with
    | .error p => { s with file := .error p }
    | .ok (ip', out) =>
      let c := s.contents.exec op
      ⟨.ok ip', c.1, out :: s.got, c.2 :: s.due⟩

theorem Session.exec_ok {ip' : File} {out : Data} (hfile : s.file = .ok ip)
    (h : ip.exec fs op = .ok (ip', out)) : s.exec fs op =
      ⟨.ok ip', (s.contents.exec op).1, out :: s.got, (s.contents.exec op).2 :: s.due⟩ := by
  rw [Session.exec, hfile]
  dsimp only
  rw [h]

/-- A file that is new. -/
def created : Session where
  file := .ok ⟨0, fun _ => none, fun _ => none⟩
  contents := ⟨0, fun _ => 0⟩
  got := []
  due := []

/-- All sequences of calls. -/
def sessions (fs : Fs) : System Session Op := .ofExec {created} fun s op => some (s.exec fs op)

/-- The next call is as it should be. -/
def Session.Ready (fs : Fs) (s : Session) (op : Op) : Prop := ∀ ip, s.file = .ok ip → File.Ready fs ip op

/-- A file that has no blocks. -/
theorem bmapRead_holes (fs : Fs) (size bn : ℕ) :
    Inode.bmapRead fs (⟨size, fun _ => none, fun _ => none⟩ : File) bn = none := by
  rw [Inode.bmapRead]
  split_ifs
  · rfl
  · cases levelOf fs NIADDR 0 1 (bn - NDADDR) with
    | none => rfl
    | some p => exact Tree.lookup_none

theorem sim_created (fs : Fs) : Sim fs ⟨0, fun _ => none, fun _ => none⟩ ⟨0, fun _ => 0⟩ where
  shape bn b hb := by
    rw [bmapRead_holes] at hb
    cases hb
  lt := by decide
  size := rfl
  byte x hx := absurd hx (Nat.not_lt_zero x)
  zero _ _ := rfl

/-- A file has the size and the bytes that it is to have, and its calls return what they are to, in every
    run whose calls are all `Ready`. -/
theorem file_exact (hbsize : MINBSIZE ≤ fs.fs_bsize) {s : Session}
    (hs : ((sessions fs).restrict fun s op => s.Ready fs op).Reachable s) :
    ∃ ip, s.file = .ok ip ∧ ip.i_size = s.contents.size ∧ s.got = s.due := by
  have hinv : ∃ ip, s.file = .ok ip ∧ Sim fs ip s.contents ∧ s.got = s.due := by
    refine hs.invariant (I := fun s => ∃ ip, s.file = .ok ip ∧ Sim fs ip s.contents ∧ s.got = s.due)
      (fun s hs => ?_) fun s op s' h hstep => ?_
    · rw [Set.mem_singleton_iff.1 hs]
      exact ⟨_, rfl, sim_created fs, rfl⟩
    · obtain ⟨ip, hfile, hsim, hgot⟩ := h
      obtain ⟨hrdy, hexec⟩ := hstep
      obtain ⟨ip', out, heq, hsim', hout⟩ := hsim.exec hbsize (hrdy ip hfile)
      rw [← some.inj hexec, Session.exec_ok hfile heq]
      exact ⟨ip', rfl, hsim', congrArg₂ cons hout.symm hgot⟩
  obtain ⟨ip, hfile, hsim, hgot⟩ := hinv
  exact ⟨ip, hfile, hsim.size, hgot⟩

/-! ### Calls that are not as they should be -/

/-- Calls one after the other. -/
def Session.execs (fs : Fs) (s : Session) (l : List Op) : Session := l.foldl (Session.exec fs) s

theorem reachable_execs (hs : (sessions fs).Reachable s) (l : List Op) :
    (sessions fs).Reachable (s.execs fs l) := by
  induction l generalizing s with
  | nil => exact hs
  | cons op l ih => exact ih (hs.step rfl)

/-- A write that copies all, with buffers that had zeros in them. -/
def plain (offset : ℤ) (data : Data) : Op := .write offset data data.length (fun _ _ => 0) (2 ^ 31)

/-- The size of the file is that of a piece of which only a part was copied. -/
theorem fault_extends : ¬∀ (fs : Fs) (s : Session), MINBSIZE ≤ fs.fs_bsize → (sessions fs).Reachable s →
    ∃ ip, s.file = .ok ip ∧ ip.i_size = s.contents.size ∧ s.got = s.due := by
  intro h
  obtain ⟨ip, hfile, hsize, -⟩ := h Inode.smallBlocks
    (created.execs Inode.smallBlocks [.write 0 [97, 98] 1 (fun _ _ => 0) (2 ^ 31)]) (by decide)
    (reachable_execs (.init rfl) _)
  have htwo : ((created.execs Inode.smallBlocks [.write 0 [97, 98] 1 (fun _ _ => 0) (2 ^ 31)]).file.toOption.map
      Inode.i_size) = some 2 := by decide +kernel
  rw [hfile] at htwo
  have hone : (created.execs Inode.smallBlocks
      [.write 0 [97, 98] 1 (fun _ _ => 0) (2 ^ 31)]).contents.size = 1 := by decide +kernel
  rw [hone] at hsize
  exact absurd (hsize.symm.trans (some.inj htwo)) (by decide)

/-- A hole at the end of the file is to be extended. -/
theorem hole_extended : ∃ s, (sessions Inode.smallBlocks).Reachable s ∧ s.file matches .error .bprev := by
  refine ⟨created.execs Inode.smallBlocks [plain 20480 [97], .trunc 8300, plain 12288 [98]],
    reachable_execs (.init rfl) _, ?_⟩
  decide +kernel

theorem HoleOk.of_whole {offset last : ℕ} (h : blkoff fs ip.i_size = 0) :
    HoleOk fs ip offset last := fun _ hoff => absurd hoff (by rw [h]; exact lt_irrefl 0)

/-- A byte that was truncated away is there again after a write behind it. -/
theorem tail_shown : ∃ s, (sessions Inode.smallBlocks).Reachable s ∧ s.got.head? = some [98] ∧
    s.due.head? = some [0] := by
  have hbsize : MINBSIZE ≤ Inode.smallBlocks.fs_bsize := by decide
  -- two bytes, of which one is truncated away
  have hrdy : Ready Inode.smallBlocks ⟨0, fun _ => none, fun _ => none⟩
      (.write 0 [97, 98] 2 (fun _ _ => 0) (2 ^ 31)) :=
    fun _ => ⟨fun x _ hx => absurd hx (Nat.not_lt_zero x), HoleOk.of_whole rfl,
      fun h => absurd h (by decide), fun h => absurd h (by decide)⟩
  obtain ⟨ip1, hexec1, hsim1, -⟩ := (sim_created Inode.smallBlocks).write hbsize (by decide) hrdy
  have hsize1 : ip1.i_size = 2 := hsim1.size
  have hbyte1 : raw Inode.smallBlocks ip1 1 = 98 := hsim1.byte 1 (by decide)
  have hlt1 : 1 < ip1.i_size := by
    rw [hsize1]
    decide
  obtain ⟨ip2, r, htrunc, hsha2, hsize2, hraw2⟩ := itrunc_contents hbsize hsim1.shape hlt1
  have hbyte2 : raw Inode.smallBlocks ip2 1 = 98 := (hraw2 1 (by decide) (by decide)).trans hbyte1
  -- the next write leaves the rest of the fragment as it is
  have hblo2 : ip2.bmapRead Inode.smallBlocks (lblkno Inode.smallBlocks ip2.i_size) ≠ none := by
    rw [hsize2]
    intro hnone
    rw [raw, hnone] at hbyte2
    exact absurd hbyte2 (by decide)
  have hlt2 : ip2.i_size < 2 ^ 31 := by
    rw [hsize2]
    decide
  have hhole2 : HoleOk Inode.smallBlocks ip2 2 (reached Inode.smallBlocks 2 1 1) :=
    fun _ _ hnone => absurd hnone hblo2
  have hsta2 : StaleOk Inode.smallBlocks (fun _ _ => 0) ip2 2 1 1 := fun h => absurd h (by decide)
  obtain ⟨ip3, hwri3, hsha3, hsize3, hraw3⟩ := @rwipWrite_spec Inode.smallBlocks hbsize _ 1 ip2 2 1 [122]
    hsha2 hlt2 (by decide) le_rfl (by decide) hhole2 hsta2
  have hsize3' : ip3.i_size = 3 := by
    rw [hsize3, hsize2]
    decide
  have hread : rwipRead Inode.smallBlocks ip3 1 1 1 = .ok [98] := by
    rw [rwipRead_spec hsha3 1 le_rfl, hsize3']
    change ok [raw Inode.smallBlocks ip3 1] = _
    rw [hraw3, store, if_neg (by decide), hbyte2]
  have hexec2 : ip1.exec Inode.smallBlocks (.trunc 1) = .ok (ip2, []) := by
    rw [File.exec, if_pos (by decide), htrunc]
  have hexec3 : ip2.exec Inode.smallBlocks (.write 2 [122] 1 (fun _ _ => 0) (2 ^ 31)) = .ok (ip3, []) := by
    rw [File.exec, if_pos (by decide)]
    exact congrArg (fun o : Except Panic File => o.bind fun ip => .ok (ip, [])) hwri3
  have hexec4 : ip3.exec Inode.smallBlocks (.read 1 1) = .ok (ip3, [98]) := by
    rw [File.exec, if_pos (by decide)]
    exact congrArg (fun o : Except Panic Data => o.bind fun out => .ok (ip3, out)) hread
  have hinit : (sessions Inode.smallBlocks).Reachable created := .init (Set.mem_singleton created)
  have hrch := reachable_execs hinit [.write 0 [97, 98] 2 (fun _ _ => 0) (2 ^ 31), .trunc 1,
    .write 2 [122] 1 (fun _ _ => 0) (2 ^ 31), .read 1 1]
  refine ⟨_, hrch, ?_⟩
  rw [Session.execs, foldl_cons, Session.exec_ok rfl hexec1, foldl_cons,
    Session.exec_ok rfl hexec2, foldl_cons, Session.exec_ok rfl hexec3, foldl_cons,
    Session.exec_ok rfl hexec4, foldl_nil]
  exact ⟨rfl, rfl⟩

/-- Two bytes that are written and read. -/
theorem file_exact_twoBytes : ∃ s,
    ((sessions Inode.smallBlocks).restrict fun s op => s.Ready Inode.smallBlocks op).Reachable s ∧
      s.contents.size = 2 ∧ s.got = s.due := by
  have hrdy : created.Ready Inode.smallBlocks (plain 0 [97, 98]) := by
    intro ip hip
    cases hip
    exact fun _ => ⟨fun x _ hx => absurd hx (Nat.not_lt_zero x), HoleOk.of_whole rfl,
      fun h => absurd h (by decide), fun h => absurd h (by decide)⟩
  have hwri : ((sessions Inode.smallBlocks).restrict fun s op => s.Ready Inode.smallBlocks op).Reachable
      (created.exec Inode.smallBlocks (plain 0 [97, 98])) := .step (.init rfl) ⟨hrdy, rfl⟩
  have hread : ((sessions Inode.smallBlocks).restrict fun s op => s.Ready Inode.smallBlocks op).Reachable
      ((created.exec Inode.smallBlocks (plain 0 [97, 98])).exec Inode.smallBlocks (.read 0 2)) :=
    .step (a := .read 0 2) hwri ⟨fun _ _ => trivial, rfl⟩
  obtain ⟨ip, hfile, hsize, hgot⟩ := file_exact (by decide) hread
  exact ⟨_, hread, by decide +kernel, hgot⟩

end File

end Uwisc.Ufs
