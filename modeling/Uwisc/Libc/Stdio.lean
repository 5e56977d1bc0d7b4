import Uwisc.Lib.Bytes
import Uwisc.Lib.System

/-!
# Input streams

A stream of `lib/libc/stdio` that was opened for reading (`"r"`): `getc`, `_filbuf`, `ungetc`, `ftell`
and `fseek`. The pointer `_ptr` is what it is above `_base`. The kernel's part of the descriptor is its
offset, which `lseek` may set below zero; a read there is an error.
-/

namespace Uwisc.Stdio

open Lib

/-- A stream and its descriptor. -/
structure Iobuf where
  cnt : ℤ
  ptr : ℕ
  /-- The buffer, from `_base` on. -/
  buf : Mem
  /-- `_base != NULL`. -/
  base : Bool
  bufsiz : ℕ
  /-- The flags `_IONBF`, `_IOEOF` and `_IOERR`. -/
  nbf : Bool
  eof : Bool
  err : Bool
  /-- The size of the buffer that `_filbuf` allocates, if there is memory for it. -/
  blksize : Option ℕ
  /-- The offset of the descriptor. -/
  off : ℤ

/-- From where `lseek` counts. -/
inductive Sbase
  | set
  | incr
  | xtnd
  deriving DecidableEq

/-- The stream that `fopen` returns. -/
def fopen (blksize : Option ℕ) : Iobuf := ⟨0, 0, fun _ => 0, false, 0, false, false, false, blksize, 0⟩

/-- The byte of a file at an offset. -/
def byteAt (file : List UInt8) (off : ℤ) : Option UInt8 := if 0 ≤ off then file[off.toNat]? else none

namespace Iobuf

/-- `setbuffer` with a buffer of `size` bytes, or none. -/
def setbuffer (s : Iobuf) (buf : Option (Mem × ℕ)) : Iobuf :=
  match buf with
  | none => { s with base := false, nbf := true, bufsiz := 0, cnt := 0 }
  | some (buf, size) => { s with buf := buf, base := true, nbf := false, ptr := 0, bufsiz := size, cnt := 0 }

/-- The part of `_filbuf` that finds a buffer: the one byte of `_smallbuf`, or one from `malloc`. -/
def getbase (s : Iobuf) : Iobuf :=
  if s.base then s
  else if s.nbf then { s with base := true }
  else
    match s.blksize with
    | none => { s with base := true, nbf := true }
    | some size => { s with base := true, bufsiz := size }

/-- `read` of at most `n` bytes: none if the offset is no good. -/
def read (file : List UInt8) (s : Iobuf) (n : ℕ) : Option (List UInt8) :=
  if s.off < 0 then none else some ((file.drop s.off.toNat).take n)

def filbuf (file : List UInt8) (s : Iobuf) : Option UInt8 × Iobuf :=
  if s.eof then (none, s)
  else
    let s := s.getbase
    match s.read file (if s.nbf then 1 else s.bufsiz) with
    | none => (none, { s with ptr := 0, cnt := 0, err := true })
    | some [] => (none, { s with ptr := 0, cnt := 0, eof := true })
    | some (c :: l) =>
      (some c, { s with buf := store s.buf 0 (c :: l), ptr := 1, cnt := l.length,
                        off := s.off + (l.length + 1) })

def getc (file : List UInt8) (s : Iobuf) : Option UInt8 × Iobuf :=
  let s := { s with cnt := s.cnt - 1 }
  if 0 ≤ s.cnt then (some (s.buf s.ptr), { s with ptr := s.ptr + 1 }) else s.filbuf file

/-- `ungetc`: false if it returns `EOF`. -/
def ungetc (s : Iobuf) (c : UInt8) : Bool × Iobuf :=
  if s.base = false ∨ s.ptr = 0 ∧ s.cnt ≠ 0 then (false, s)
  else
    let ptr := if s.ptr = 0 then s.ptr + 1 else s.ptr
    (true, { s with cnt := s.cnt + 1, ptr := ptr - 1, buf := Function.update s.buf (ptr - 1) c })

def ftell (s : Iobuf) : ℤ × Iobuf :=
  let s := if s.cnt < 0 then { s with cnt := 0 } else s
  (s.off - s.cnt, s)

def lseek (file : List UInt8) (s : Iobuf) (offset : ℤ) : Sbase → Iobuf
  | .set => { s with off := offset }
  | .incr => { s with off := s.off + offset }
  | .xtnd => { s with off := offset + file.length }

/-- How far `fseek` is to move in the buffer. -/
def distance (s : Iobuf) (offset : ℤ) (ptrname : Sbase) : ℤ :=
  if ptrname = .set then offset + (s.cnt - s.off) else offset

/-- `fseek` only moves in the buffer. -/
def Within (s : Iobuf) (offset : ℤ) (ptrname : Sbase) : Prop :=
  0 < s.cnt ∧ s.distance offset ptrname ≤ s.cnt ∧ -(s.ptr : ℤ) ≤ s.distance offset ptrname

instance (s : Iobuf) (offset : ℤ) (ptrname : Sbase) : Decidable (s.Within offset ptrname) :=
  inferInstanceAs (Decidable (_ ∧ _))

/-- The end of `fseek`, which moves the descriptor, and reads a byte from an even offset if there is
    one to get to the odd one after it. -/
def reposition (file : List UInt8) (s : Iobuf) (offset resync : ℤ) (ptrname : Sbase) : Bool × Iobuf :=
  let s := s.lseek file (offset - resync) ptrname
  let p := s.off
  let s := { s with cnt := 0 }
  if resync ≠ 0 ∧ p ≠ -1 then
    let r := s.getc file
    (r.1.isSome, r.2)
  else (p ≠ -1, s)

/-- `fseek`: false if it returns `-1`. -/
def fseek (file : List UInt8) (s : Iobuf) (offset : ℤ) (ptrname : Sbase) : Bool × Iobuf :=
  let s := { s with eof := false }
  if ptrname ≠ .xtnd ∧ s.base ∧ !s.nbf then
    if ptrname = .set ∧ s.off = -1 then (false, s)
    else if s.Within offset ptrname then
      let p := s.distance offset ptrname
      (true, { s with ptr := (s.ptr + p).toNat, cnt := s.cnt - p })
    else
      let offset := if ptrname = .set then offset else offset - s.cnt
      s.reposition file offset (offset % 2) ptrname
  else s.reposition file offset 0 ptrname

end Iobuf

/-!
### Streams and cursors

An input stream is to be a cursor in a file, with at most one character pushed back (`Cursor`). In every
run whose calls are all `Ready`, all results are those of the cursor (`stream_exact`). The condition is
about `fseek`: it is right in the buffer if this has the bytes of the file (`fseek_pushed`, a character
pushed back stays there), and relative to the cursor if `_cnt` is not negative, as it is after the end of
the file was read twice (`fseek_spent`), and no even offset below the file is passed (`fseek_start`).
-/

open List

/-- A place in a file, and the character pushed back before it. -/
structure Cursor where
  pos : ℤ
  pushed : Option UInt8
  /-- There was a `getc`, and no `fseek` or `ungetc` after it. -/
  after : Bool

inductive Op
  | getc
  | ungetc (c : UInt8)
  | ftell
  | fseek (offset : ℤ) (ptrname : Sbase)

/-- What `getc` returns. -/
def charOf (c : Option UInt8) : ℤ := c.elim (-1) fun c => c.toNat

namespace Cursor

/-- The offset of the character that comes next. -/
def tell (t : Cursor) : ℤ := t.pos - if t.pushed.isSome then 1 else 0

/-- The place that `fseek` goes to. -/
def target (file : List UInt8) (t : Cursor) (offset : ℤ) : Sbase → ℤ
  | .set => offset
  | .incr => t.tell + offset
  | .xtnd => file.length + offset

/-- What a call is to return and to do: `ungetc` comes after a `getc`, `fseek` stays in the file. -/
def exec (file : List UInt8) (t : Cursor) : Op → Option (ℤ × Cursor)
  | .getc =>
    match t.pushed with
    | some c => some (c.toNat, ⟨t.pos, none, true⟩)
    | none =>
      let c := byteAt file t.pos
      some (charOf c, ⟨t.pos + if c.isSome then 1 else 0, none, true⟩)
  | .ungetc c => if t.after then some (c.toNat, ⟨t.pos, some c, false⟩) else none
  | .ftell => some (t.tell, t)
  | .fseek offset ptrname =>
    let pos := t.target file offset ptrname
    if 0 ≤ pos ∧ pos ≤ file.length then some (0, ⟨pos, none, false⟩) else none

end Cursor

namespace Iobuf

/-- What a call returns and does. -/
def exec (file : List UInt8) (s : Iobuf) : Op → ℤ × Iobuf
  | .getc => (charOf (s.getc file).1, (s.getc file).2)
  | .ungetc c => (if (s.ungetc c).1 then c.toNat else -1, (s.ungetc c).2)
  | .ftell => s.ftell
  | .fseek offset ptrname =>
    (if (s.fseek file offset ptrname).1 then 0 else -1, (s.fseek file offset ptrname).2)

/-- A character can be pushed back. A place that `fseek` finds in the buffer has the bytes of the file
    from there on; else, relative to the cursor, `_cnt` is what is left in the buffer, and `fseek` does
    not try to begin below the file. -/
def Ready (file : List UInt8) (s : Iobuf) : Op → Prop
  | .getc => True
  | .ungetc _ => 0 ≤ s.cnt
  | .ftell => True
  | .fseek offset ptrname =>
    if ptrname ≠ .xtnd ∧ s.base ∧ !s.nbf then
      if s.Within offset ptrname then
        ∀ i, s.distance offset ptrname ≤ i → i < s.cnt →
          byteAt file (s.off - s.cnt + i) = some (s.buf (s.ptr + i).toNat)
      else ptrname = .incr → 0 ≤ s.cnt ∧ ¬(s.off - s.cnt + offset = 0 ∧ (offset - s.cnt) % 2 = 1)
    else ptrname = .incr → s.cnt ≤ 0

end Iobuf

/-- A stream beside the cursor it is to be, with the results of all calls, and what these are to be. -/
structure Stream where
  iop : Iobuf
  cursor : Cursor
  got : List ℤ
  due : List ℤ

namespace Stream

def exec (file : List UInt8) (s : Stream) (a : Op) : Option Stream :=
  (s.cursor.exec file a).map fun r =>
    ⟨(s.iop.exec file a).2, r.2, (s.iop.exec file a).1 :: s.got, r.1 :: s.due⟩

end Stream

/-- All runs on a file: a buffer of any size is given by `setbuffer`, or allocated. -/
def streams (file : List UInt8) : System Stream Op := .ofExec
  {s | ∃ blksize buf, (∀ n, blksize = some n → 0 < n) ∧ (∀ b, buf = some b → 0 < b.2) ∧
    (s.iop = fopen blksize ∨ s.iop = (fopen blksize).setbuffer buf) ∧
    s.cursor = ⟨0, none, false⟩ ∧ s.got = [] ∧ s.due = []} (Stream.exec file)

/-! ### The stream is a cursor -/

/-- There is a buffer, or room for one. -/
def Room (s : Iobuf) : Prop :=
  s.nbf = false → if s.base then 0 < s.bufsiz else ∀ n, s.blksize = some n → 0 < n

/-- The stream `s` is where the cursor `t` is. -/
structure Sim (file : List UInt8) (s : Iobuf) (t : Cursor) : Prop where
  room : Room s
  inside : 0 ≤ s.off ∧ s.off ≤ file.length
  tell : t.tell = s.off - max s.cnt 0
  fresh : s.base = false → s.cnt = 0
  spent : s.cnt < 0 → s.eof = true
  done : s.eof = true → s.off = file.length ∧ s.base = true
  front : ∀ c, t.pushed = some c → 0 < s.cnt ∧ s.buf s.ptr = c
  next : ∀ i : ℕ, i < s.cnt → (i = 0 → t.pushed = none) →
    byteAt file (t.tell + i) = some (s.buf (s.ptr + i))
  after : t.after = true → s.base = true ∧ t.pushed = none ∧ (s.ptr = 0 → s.cnt ≤ 0)

variable {file : List UInt8} {s : Iobuf} {t : Cursor}

variable {pos offset : ℤ} {b : Bool} {s' : Iobuf} {ptrname : Sbase} {c : UInt8} {n : ℕ}

theorem tell_pushed : (Cursor.mk pos (some c) b).tell = pos - 1 := rfl

theorem tell_none : (Cursor.mk pos none b).tell = pos := Int.sub_zero pos

theorem byteAt_natCast (n : ℕ) : byteAt file n = file[n]? := if_pos (Int.natCast_nonneg n)

theorem byteAt_length : byteAt file file.length = none := by
  rw [byteAt_natCast, getElem?_eq_none le_rfl]

/-- The buffer that `_filbuf` reads into. -/
theorem getbase_spec (h : Room s) : ∃ base nbf bufsiz, s.getbase =
    { s with base := base, nbf := nbf, bufsiz := bufsiz } ∧ base = true ∧
      0 < if nbf then 1 else bufsiz := by
  rw [Iobuf.getbase]
  split_ifs with hbase hnbf
  · refine ⟨s.base, s.nbf, s.bufsiz, rfl, hbase, ?_⟩
    split_ifs with hnbf
    · exact Nat.one_pos
    · have hroom := h (Bool.eq_false_of_not_eq_true hnbf)
      rwa [if_pos hbase] at hroom
  · exact ⟨true, s.nbf, s.bufsiz, rfl, rfl, by rw [if_pos hnbf]; exact Nat.one_pos⟩
  · have hroom := h (Bool.eq_false_of_not_eq_true hnbf)
    rw [if_neg hbase] at hroom
    split
    · exact ⟨true, true, s.bufsiz, rfl, rfl, Nat.one_pos⟩
    · next size hsize =>
      exact ⟨true, s.nbf, size, rfl, rfl, by rw [if_neg hnbf]; exact hroom size hsize⟩

/-- A character of the buffer is read. -/
theorem Sim.advance (h : Sim file s t) (hcnt : 0 < s.cnt) :
    Sim file { s with cnt := s.cnt - 1, ptr := s.ptr + 1 } ⟨t.tell + 1, none, true⟩ := by
  have hbase : s.base = true := by
    by_contra hbase
    have := h.fresh (Bool.eq_false_of_not_eq_true hbase)
    omega
  have htell := h.tell
  rw [max_eq_left hcnt.le] at htell
  refine ⟨h.room, h.inside, ?_, fun hfls => ?_, fun hneg => ?_, h.done, ?_, fun i hi _ => ?_,
    fun _ => ⟨hbase, rfl, fun hptr => ?_⟩⟩
  · rw [tell_none, htell]
    dsimp only
    rw [max_eq_left (by omega)]
    omega
  · exact absurd (hbase.symm.trans hfls) (by decide)
  · dsimp only at hneg
    omega
  · rintro _ ⟨⟩
  · have hnx := h.next (i + 1) (by push_cast; dsimp only at hi; omega) fun hi => absurd hi (by omega)
    rw [tell_none]
    dsimp only at hnx ⊢
    rw [Nat.add_assoc, Nat.add_comm 1, ← hnx]
    congr 1
    push_cast
    omega
  · dsimp only at hptr
    omega

/-- A character that was pushed back is read. -/
theorem Sim.getc_pushed (h : Sim file s t) (hc : t.pushed = some c) :
    (s.getc file).1 = some c ∧ Sim file (s.getc file).2 ⟨t.pos, none, true⟩ := by
  obtain ⟨hcnt, hbuf⟩ := h.front c hc
  have hpos : t.tell + 1 = t.pos := by
    rw [Cursor.tell, hc]
    exact Int.sub_add_cancel _ _
  rw [Iobuf.getc]
  dsimp only
  rw [if_pos (by omega), ← hpos]
  exact ⟨congrArg some hbuf, h.advance hcnt⟩

/-- There is nothing left to read. -/
theorem Sim.ended (h : Sim file s t) (hoff : s.off = file.length) (hpos : t.pos = s.off)
    (hroom : Room s') (hs' : s'.off = s.off) (hcnt : s'.cnt ≤ 0) (heof : s'.eof = true)
    (hbase : s'.base = true) : Sim file s' ⟨t.pos, none, true⟩ where
  room := hroom
  inside := hs' ▸ h.inside
  tell := by rw [tell_none, hs', hpos, max_eq_right hcnt, Int.sub_zero]
  fresh hfls := absurd (hbase.symm.trans hfls) (by decide)
  spent _ := heof
  done _ := ⟨hs'.trans hoff, hbase⟩
  front := by rintro _ ⟨⟩
  next i hi _ := absurd hi (by omega)
  after _ := ⟨hbase, rfl, fun _ => hcnt⟩

/-- A buffer is read. -/
theorem Sim.filled {l : List UInt8} (hins : 0 ≤ s.off ∧ s.off ≤ file.length)
    (hread : (file.drop s.off.toNat).take n = c :: l) (hroom : Room s')
    (hbase : s'.base = true) (heof : s'.eof = false) (hbuf : ∀ i : ℕ, i < l.length →
      (c :: l)[i + 1]? = some (s'.buf (s'.ptr + i))) (hptr : s'.ptr = 1) (hcnt : s'.cnt = l.length)
    (hoff : s'.off = s.off + (l.length + 1)) : Sim file s' ⟨s.off + 1, none, true⟩ := by
  have hlen := congrArg List.length hread
  rw [length_take, length_drop, length_cons] at hlen
  refine ⟨hroom, ?_, ?_, fun hfls => ?_, fun hneg => ?_, fun htrue => ?_, ?_, fun i hi _ => ?_,
    fun _ => ⟨hbase, rfl, fun hzero => ?_⟩⟩
  · omega
  · rw [tell_none, hcnt, hoff, max_eq_left (Int.natCast_nonneg _)]
    omega
  · exact absurd (hbase.symm.trans hfls) (by decide)
  · omega
  · exact absurd (heof.symm.trans htrue) (by decide)
  · rintro _ ⟨⟩
  · have hi : i < l.length := by omega
    have hplc : s.off + 1 + i = ((s.off.toNat + (i + 1) : ℕ) : ℤ) := by omega
    rw [tell_none, hplc, byteAt_natCast, ← hbuf i hi, ← hread, getElem?_take_of_lt (by omega),
      getElem?_drop]
  · omega

/-- The byte at the cursor is read, or there is none. -/
theorem Sim.getc_none (h : Sim file s t) (hnone : t.pushed = none) :
    (s.getc file).1 = byteAt file t.pos ∧
      Sim file (s.getc file).2 ⟨t.pos + if (byteAt file t.pos).isSome then 1 else 0, none, true⟩ := by
  have htell : t.tell = t.pos := by
    rw [Cursor.tell, hnone]
    exact Int.sub_zero _
  rw [Iobuf.getc]
  dsimp only
  by_cases hcnt : 0 ≤ s.cnt - 1
  · have hbyte := h.next 0 (by push_cast; omega) fun _ => hnone
    rw [htell, Int.natCast_zero, add_zero] at hbyte
    rw [if_pos hcnt, hbyte, ← htell]
    exact ⟨rfl, h.advance (by omega)⟩
  · have hpos := h.tell
    rw [htell, max_eq_right (by omega), Int.sub_zero] at hpos
    obtain ⟨hlow, hhigh⟩ := h.inside
    rw [if_neg hcnt, Iobuf.filbuf]
    by_cases heof : s.eof = true
    · obtain ⟨hoff, hbase⟩ := h.done heof
      have hend : byteAt file t.pos = none := by rw [hpos, hoff, byteAt_length]
      rw [if_pos heof, hend]
      have hended : Sim file { s with cnt := s.cnt - 1 } ⟨t.pos, none, true⟩ :=
        h.ended hoff hpos h.room rfl (Int.not_le.1 hcnt).le heof hbase
      exact ⟨rfl, by simpa using hended⟩
    · obtain ⟨base, nbf, bufsiz, hget, hbase, hsize⟩ :=
        getbase_spec (s := { s with cnt := s.cnt - 1 }) h.room
      dsimp only at hget ⊢
      rw [if_neg heof, hget, Iobuf.read, if_neg (Int.not_lt.2 hlow)]
      have hroom : nbf = false → if base = true then 0 < bufsiz else ∀ n, s.blksize = some n → 0 < n := by
        rintro rfl
        rwa [if_pos hbase]
      dsimp only
      generalize hread : (file.drop s.off.toNat).take (if nbf then 1 else bufsiz) = l
      cases l with
      | nil =>
        have hoff : s.off = file.length := by
          rw [take_eq_nil_iff, drop_eq_nil_iff] at hread
          omega
        have hend : byteAt file t.pos = none := by rw [hpos, hoff, byteAt_length]
        rw [hend]
        refine ⟨rfl, ?_⟩
        rw [Option.isSome_none, if_neg Bool.false_ne_true, add_zero]
        exact h.ended hoff hpos hroom rfl le_rfl rfl hbase
      | cons c l =>
        have hbyte : byteAt file t.pos = some c := by
          have hfst := congrArg (·[0]?) hread
          rw [getElem?_take_of_lt hsize, getElem?_drop, add_zero] at hfst
          rw [hpos, byteAt, if_pos hlow, hfst]
          rfl
        rw [hbyte, hpos]
        refine ⟨rfl, Sim.filled h.inside hread hroom hbase (Bool.eq_false_of_not_eq_true heof)
          (fun i hi => ?_) rfl rfl rfl⟩
        dsimp only
        rw [store, if_pos ⟨Nat.zero_le _, by rw [length_cons]; omega⟩, Nat.sub_zero,
          add_comm 1, getD_eq_getElem?_getD, getElem?_cons_succ,
          getElem?_eq_getElem hi, Option.getD_some]

/-- A character is pushed back. -/
theorem Sim.ungetc (h : Sim file s t) (haft : t.after = true) (hcnt : 0 ≤ s.cnt) (c : UInt8) :
    (s.ungetc c).1 = true ∧ Sim file (s.ungetc c).2 ⟨t.pos, some c, false⟩ := by
  obtain ⟨hbase, hnone, hptr⟩ := h.after haft
  have htell := h.tell
  rw [Cursor.tell, hnone, max_eq_left hcnt] at htell
  have hok : ¬(s.base = false ∨ s.ptr = 0 ∧ s.cnt ≠ 0) := by
    rintro (hfls | ⟨hzero, hne⟩)
    · exact absurd (hbase.symm.trans hfls) (by decide)
    · exact hne (le_antisymm (hptr hzero) hcnt)
  rw [Iobuf.ungetc, if_neg hok]
  refine ⟨rfl, h.room, h.inside, ?_, fun hfls => ?_, fun hneg => ?_, h.done, ?_, fun i hi hzero => ?_, ?_⟩
  · rw [tell_pushed]
    dsimp only
    rw [max_eq_left (by omega)]
    simp at htell
    omega
  · exact absurd (hbase.symm.trans hfls) (by decide)
  · dsimp only at hneg
    omega
  · rintro _ ⟨⟩
    exact ⟨Int.lt_add_one_of_le hcnt, Function.update_self _ _ _⟩
  · have hpos : 0 < i := Nat.pos_of_ne_zero fun hi => absurd (hzero hi) (by simp)
    dsimp only at hi ⊢
    have hne : s.ptr ≠ 0 := fun hptr0 => by
      have := hptr hptr0
      omega
    have hnx := h.next (i - 1) (by omega) fun _ => hnone
    rw [tell_pushed, if_neg hne, Function.update_of_ne (by omega)]
    have hplc : s.ptr + (i - 1) = s.ptr - 1 + i := by omega
    rw [hplc, Cursor.tell, hnone] at hnx
    rw [← hnx]
    congr 1
    simp
    omega
  · rintro ⟨⟩

theorem Sim.ftell (h : Sim file s t) : s.ftell.1 = t.tell ∧ Sim file s.ftell.2 t := by
  rw [Iobuf.ftell, h.tell]
  by_cases hcnt : s.cnt < 0
  · rw [if_pos hcnt, max_eq_right hcnt.le]
    refine ⟨rfl, h.room, h.inside, ?_, fun _ => rfl, ?_, h.done, fun c hc => ?_, fun i hi => ?_, fun ht => ?_⟩
    · rw [h.tell, max_eq_right hcnt.le]
      rfl
    · exact fun hneg => absurd hneg (lt_irrefl (0 : ℤ))
    · exact absurd (h.front c hc).1 hcnt.not_gt
    · exact absurd hi (by simp)
    · exact ⟨(h.after ht).1, (h.after ht).2.1, fun _ => le_rfl⟩
  · rw [if_neg hcnt, max_eq_left (Int.not_lt.1 hcnt)]
    exact ⟨rfl, h⟩

/-- The descriptor was moved. -/
theorem Sim.moved (hroom : Room s') (hins : 0 ≤ s'.off ∧ s'.off ≤ file.length)
    (hcnt : s'.cnt = 0) (heof : s'.eof = false) : Sim file s' ⟨s'.off, none, false⟩ where
  room := hroom
  inside := hins
  tell := by rw [tell_none, hcnt, max_self, Int.sub_zero]
  fresh _ := hcnt
  spent hneg := absurd hneg (by omega)
  done htrue := absurd (heof.symm.trans htrue) (by decide)
  front := by rintro _ ⟨⟩
  next i hi _ := absurd hi (by omega)
  after := by rintro ⟨⟩

theorem Sim.forget (h : Sim file s t) (b : Bool) (hb : b = true → t.after = true) :
    Sim file s { t with after := b } :=
  ⟨h.room, h.inside, h.tell, h.fresh, h.spent, h.done, h.front, h.next, fun ht => h.after (hb ht)⟩

/-- `fseek` moves the descriptor to the place, or to the even offset before it. -/
theorem reposition_spec {resync : ℤ} (hroom : Room s)
    (heof : s.eof = false) (hres : resync = 0 ∨ resync = 1) (hlow : 0 ≤ pos - resync)
    (hhigh : pos ≤ file.length) (hpos : (s.lseek file (offset - resync) ptrname).off = pos - resync) :
    (s.reposition file offset resync ptrname).1 = true ∧
      Sim file (s.reposition file offset resync ptrname).2 ⟨pos, none, false⟩ := by
  have hlseek : s.lseek file (offset - resync) ptrname = { s with off := pos - resync } := by
    rw [← hpos]
    cases ptrname <;> rfl
  rw [Iobuf.reposition, hlseek]
  have hmvd : Sim file { s with off := pos - resync, cnt := 0 } ⟨pos - resync, none, false⟩ :=
    Sim.moved hroom ⟨hlow, by dsimp only; omega⟩ rfl heof
  dsimp only
  rcases hres with rfl | rfl
  · rw [if_neg fun h => h.1 rfl]
    rw [Int.sub_zero] at hmvd hlow ⊢
    exact ⟨decide_eq_true (by omega), hmvd⟩
  · rw [if_pos ⟨by decide, by omega⟩]
    obtain ⟨hbyte, hsim⟩ := hmvd.getc_none rfl
    have hsome : ∃ c, byteAt file (pos - 1) = some c := by
      have hlt : (pos - 1).toNat < file.length := by omega
      rw [byteAt, if_pos hlow]
      exact ⟨_, getElem?_eq_getElem hlt⟩
    obtain ⟨c, hc⟩ := hsome
    dsimp only at hbyte hsim
    rw [hc] at hbyte hsim
    rw [Option.isSome_some, if_pos rfl, Int.sub_add_cancel] at hsim
    exact ⟨by rw [hbyte]; rfl, hsim.forget false (by rintro ⟨⟩)⟩

theorem Sim.fseek (h : Sim file s t)
    (hrdy : s.Ready file (.fseek offset ptrname)) (hlow : 0 ≤ t.target file offset ptrname)
    (hhigh : t.target file offset ptrname ≤ file.length) :
    (s.fseek file offset ptrname).1 = true ∧
      Sim file (s.fseek file offset ptrname).2 ⟨t.target file offset ptrname, none, false⟩ := by
  have hins := h.inside
  have htell := h.tell
  rw [Iobuf.Ready] at hrdy
  rw [Iobuf.fseek]
  dsimp only
  by_cases hbuff : ptrname ≠ .xtnd ∧ s.base = true ∧ (!s.nbf) = true
  · rw [if_pos hbuff] at hrdy ⊢
    rw [if_neg fun hfail => by have := hfail.2; omega]
    have hsame : ∀ o p, Iobuf.Within { s with eof := false } o p ↔ s.Within o p := fun _ _ => Iff.rfl
    by_cases hwit : s.Within offset ptrname
    · rw [if_pos hwit] at hrdy
      rw [if_pos ((hsame _ _).2 hwit)]
      obtain ⟨hcnt, hle, hge⟩ := hwit
      rw [max_eq_left hcnt.le] at htell
      have htar : t.target file offset ptrname = s.off - s.cnt + s.distance offset ptrname := by
        rw [Iobuf.distance]
        cases ptrname with
        | set => rw [if_pos rfl, Cursor.target]; omega
        | incr => rw [if_neg (by decide), Cursor.target, htell]
        | xtnd => exact absurd rfl hbuff.1
      have hdis : Iobuf.distance { s with eof := false } offset ptrname =
          s.distance offset ptrname := rfl
      rw [hdis]
      dsimp only
      generalize s.distance offset ptrname = p at hrdy hle hge htar
      refine ⟨rfl, h.room, h.inside, ?_, fun hfls => ?_, fun hneg => ?_, ?_, ?_, fun i hi _ => ?_, ?_⟩
      · rw [tell_none, htar]
        dsimp only
        rw [max_eq_left (by omega)]
        omega
      · exact absurd (hbuff.2.1.symm.trans hfls) (by decide)
      · dsimp only at hneg
        omega
      · rintro ⟨⟩
      · rintro _ ⟨⟩
      · dsimp only at hi ⊢
        have hbyte := hrdy (p + i) (by omega) (by omega)
        have hplc : (s.ptr + (p + i) : ℤ).toNat = (s.ptr + p : ℤ).toNat + i := by omega
        rw [hplc] at hbyte
        rw [tell_none, htar, ← hbyte]
        congr 1
        omega
      · rintro ⟨⟩
    · rw [if_neg hwit] at hrdy
      rw [if_neg fun hw => hwit ((hsame _ _).1 hw)]
      cases ptrname with
      | set =>
        rw [if_pos rfl]
        rw [Cursor.target] at hlow hhigh ⊢
        exact reposition_spec h.room rfl (Int.emod_two_eq offset) (by omega) hhigh rfl
      | incr =>
        obtain ⟨hcnt, hst⟩ := hrdy rfl
        rw [max_eq_left hcnt] at htell
        rw [if_neg (by decide)]
        rw [Cursor.target, htell] at hlow hhigh ⊢
        have hres := Int.emod_two_eq (offset - s.cnt)
        refine reposition_spec h.room rfl hres ?_ hhigh ?_
        · rcases hres with hzero | hone
          · omega
          · have := fun hzero => hst ⟨hzero, hone⟩
            omega
        · change s.off + (offset - s.cnt - (offset - s.cnt) % 2) = _
          omega
      | xtnd => exact absurd rfl hbuff.1
  · rw [if_neg hbuff] at hrdy ⊢
    refine reposition_spec h.room rfl (.inl rfl) (by rwa [Int.sub_zero]) hhigh ?_
    rw [Int.sub_zero, Int.sub_zero]
    cases ptrname with
    | set => rfl
    | incr =>
      rw [Cursor.target, htell, max_eq_right (hrdy rfl), Int.sub_zero]
      rfl
    | xtnd => exact add_comm _ _

/-! ### Runs -/

/-- A call on the stream is the call on the cursor. -/
theorem Sim.exec {a : Op} {r : ℤ × Cursor} (h : Sim file s t) (hrdy : s.Ready file a)
    (hexec : t.exec file a = some r) : (s.exec file a).1 = r.1 ∧ Sim file (s.exec file a).2 r.2 := by
  cases a with
  | getc =>
    rw [Cursor.exec] at hexec
    split at hexec
    · next c hc =>
      obtain ⟨hbyte, hsim⟩ := h.getc_pushed hc
      rw [← Option.some.inj hexec, Iobuf.exec, hbyte]
      exact ⟨rfl, hsim⟩
    · next hnone =>
      obtain ⟨hbyte, hsim⟩ := h.getc_none hnone
      rw [← Option.some.inj hexec, Iobuf.exec, hbyte]
      exact ⟨rfl, hsim⟩
  | ungetc c =>
    rw [Cursor.exec] at hexec
    split_ifs at hexec with haft
    obtain ⟨hok, hsim⟩ := h.ungetc haft hrdy c
    rw [← Option.some.inj hexec, Iobuf.exec, hok]
    exact ⟨rfl, hsim⟩
  | ftell =>
    rw [← Option.some.inj hexec]
    exact h.ftell
  | fseek offset ptrname =>
    simp only [Cursor.exec] at hexec
    split_ifs at hexec with hplc
    obtain ⟨hok, hsim⟩ := h.fseek hrdy hplc.1 hplc.2
    rw [← Option.some.inj hexec, Iobuf.exec, hok]
    exact ⟨rfl, hsim⟩

/-- A stream is at the beginning of its file. -/
theorem sim_init {blksize : Option ℕ} {buf : Option (Mem × ℕ)} (hblk : ∀ n, blksize = some n → 0 < n)
    (hbuf : ∀ b, buf = some b → 0 < b.2) (hs : s = fopen blksize ∨ s = (fopen blksize).setbuffer buf) :
    Sim file s ⟨0, none, false⟩ := by
  have hroom : Room s ∧ s.off = 0 ∧ s.cnt = 0 ∧ s.eof = false := by
    rcases hs with rfl | rfl
    · exact ⟨fun _ => hblk, rfl, rfl, rfl⟩
    · cases buf with
      | none => exact ⟨fun hnbf => absurd hnbf (by simp [Iobuf.setbuffer]), rfl, rfl, rfl⟩
      | some b => exact ⟨fun _ => hbuf b rfl, rfl, rfl, rfl⟩
  obtain ⟨hroom, hoff, hcnt, heof⟩ := hroom
  have hmvd : Sim file s ⟨s.off, none, false⟩ :=
    Sim.moved hroom ⟨hoff.ge, by rw [hoff]; exact Int.natCast_nonneg _⟩ hcnt heof
  rwa [hoff] at hmvd

/-- All results are those of the cursor, in every run whose calls are all `Ready`. -/
theorem stream_exact {s : Stream}
    (hs : ((streams file).restrict fun s a => s.iop.Ready file a).Reachable s) : s.got = s.due := by
  have hinv : Sim file s.iop s.cursor ∧ s.got = s.due := by
    refine hs.invariant (I := fun s => Sim file s.iop s.cursor ∧ s.got = s.due) (fun s hs => ?_)
      fun s a s' h hstep => ?_
    · obtain ⟨blksize, buf, hblk, hbuf, hiop, hcur, hgot, hdue⟩ := hs
      rw [hcur]
      exact ⟨sim_init hblk hbuf hiop, hgot.trans hdue.symm⟩
    · obtain ⟨hrdy, hexec⟩ := hstep
      obtain ⟨r, hr, rfl⟩ := Option.map_eq_some_iff.1 hexec
      obtain ⟨hresu, hsim⟩ := h.1.exec hrdy hr
      exact ⟨hsim, congrArg₂ List.cons hresu h.2⟩
  exact hinv.2

/-- Calls one after the other. -/
def Stream.execs (file : List UInt8) (s : Stream) (l : List Op) : Option Stream :=
  l.foldlM (Stream.exec file) s

/-- A stream with a buffer of `n` bytes. -/
def opened (n : ℕ) : Stream := ⟨fopen (some n), ⟨0, none, false⟩, [], []⟩

theorem reachable_execs {s s' : Stream} {l : List Op} (hs : (streams file).Reachable s)
    (h : s.execs file l = some s') : (streams file).Reachable s' := by
  induction l generalizing s with
  | nil => exact Option.some.inj h ▸ hs
  | cons a l ih =>
    obtain ⟨t, ht, hrs⟩ := Option.bind_eq_some_iff.1 h
    exact ih (hs.step ht) hrs

theorem opened_init (hn : 0 < n) : opened n ∈ (streams file).init :=
  ⟨some n, none, fun _ h => Option.some.inj h ▸ hn, by rintro _ ⟨⟩, .inl rfl, rfl, rfl, rfl⟩

/-- A file of three bytes, read with a buffer of one, and then from its last byte on. -/
theorem stream_exact_threeBytes : ∃ s,
    ((streams [97, 98, 99]).restrict fun s a => s.iop.Ready [97, 98, 99] a).Reachable s ∧
      s.got.length = 3 ∧ s.got = s.due := by
  obtain ⟨s, hs⟩ : ∃ s, (opened 1).exec [97, 98, 99] .getc = some s :=
    Option.isSome_iff_exists.1 (by decide)
  obtain ⟨s', hs'⟩ : ∃ s', s.exec [97, 98, 99] (.fseek 2 .set) = some s' := by
    cases hs
    exact Option.isSome_iff_exists.1 (by decide)
  obtain ⟨t, ht⟩ : ∃ t, s'.exec [97, 98, 99] .getc = some t := by
    cases hs
    cases hs'
    exact Option.isSome_iff_exists.1 (by decide)
  have hrdy : s.iop.Ready [97, 98, 99] (.fseek 2 .set) := by
    cases hs
    rw [Iobuf.Ready, if_pos (by decide), if_neg (by decide)]
    rintro ⟨⟩
  have hinit : opened 1 ∈ (streams [97, 98, 99]).init := opened_init (by decide)
  have hrch : ((streams [97, 98, 99]).restrict fun s a => s.iop.Ready [97, 98, 99] a).Reachable t :=
    .step (a := .getc) (.step (.step (a := .getc) (.init hinit) ⟨trivial, hs⟩)
      ⟨hrdy, hs'⟩) ⟨trivial, ht⟩
  refine ⟨t, hrch, ?_, stream_exact hrch⟩
  cases hs
  cases hs'
  cases ht
  rfl

/-- After two reads at the end of the file, `fseek` goes too far from there. -/
theorem fseek_spent : ¬∀ (file : List UInt8) (s : Stream), (streams file).Reachable s → s.got = s.due := by
  intro h
  obtain ⟨s, hs⟩ : ∃ s, (opened 1024).execs [97, 98] [.getc, .getc, .getc, .getc, .fseek (-2) .incr, .getc] =
    some s := Option.isSome_iff_exists.1 (by decide)
  have heq := h _ _ (reachable_execs (.init (opened_init (by decide))) hs)
  cases hs
  exact absurd heq (by decide)

/-- A character pushed back is read after `fseek`. -/
theorem fseek_pushed : ∃ s, (streams [97, 98]).Reachable s ∧ s.got.head? = some 120 ∧
    s.due.head? = some 97 := by
  obtain ⟨s, hs⟩ : ∃ s, (opened 1024).execs [97, 98] [.getc, .ungetc 120, .fseek 0 .set, .getc] = some s :=
    Option.isSome_iff_exists.1 (by decide)
  have hrch := reachable_execs (.init (opened_init (by decide))) hs
  cases hs
  exact ⟨_, hrch, by decide, by decide⟩

/-- From the end of a file of odd length `fseek` does not go to the beginning. -/
theorem fseek_start : ∃ s, (streams [97]).Reachable s ∧ s.got.head? = some (-1) ∧
    s.due.head? = some 0 := by
  obtain ⟨s, hs⟩ : ∃ s, (opened 1024).execs [97] [.getc, .fseek (-1) .incr] = some s :=
    Option.isSome_iff_exists.1 (by decide)
  have hrch := reachable_execs (.init (opened_init (by decide))) hs
  cases hs
  exact ⟨_, hrch, by decide, by decide⟩

end Uwisc.Stdio
