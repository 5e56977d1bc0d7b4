import Uwisc.Lib.Bytes

/-!
# Directories

Looking up, entering and removing names in `sys/ufs/ufs_dir.c`. A directory is the
bytes of its blocks, with records of variable length (`fsdir.h`), and its inode.

Blocks of the directory can be read. What `dirlook` does is what it does when the name
cache has no answer. The errors of the checks of permissions, and of the inodes involved,
are arguments.
-/

namespace Uwisc.Ufs.Dir

open Lib

def DIRBLKSIZ : ℕ := 512
def MAXNAMLEN : ℕ := 255

/-- A name, without the null byte that terminates it. -/
abbrev Name := List UInt8

/-- A directory (`struct inode`): the bytes of its blocks, its size, and the offset of the entry
    found last. -/
structure Inode where
  data : Mem
  i_size : ℕ
  i_diroff : ℕ

/-- `roundup`. -/
def roundup (x y : ℕ) : ℕ := (x + (y - 1)) / y * y

/-- `LDIRSIZ`: the size of an entry with a name of `len` bytes. -/
def LDIRSIZ (len : ℕ) : ℕ := 8 + (len + 1 + 3) / 4 * 4

/-! ### Entries -/

def d_ino (m : Mem) (ep : ℕ) : ℕ := load 4 m ep
def d_reclen (m : Mem) (ep : ℕ) : ℕ := load 2 m (ep + 4)
def d_namlen (m : Mem) (ep : ℕ) : ℕ := load 2 m (ep + 6)

/-- The first `n` bytes of `d_name`. -/
def d_name (m : Mem) (ep n : ℕ) : Name := bytes m (ep + 8) n

def setIno (m : Mem) (ep v : ℕ) : Mem := storeNum 4 m ep v
def setReclen (m : Mem) (ep v : ℕ) : Mem := storeNum 2 m (ep + 4) v
def setNamlen (m : Mem) (ep v : ℕ) : Mem := storeNum 2 m (ep + 6) v

/-- `DIRSIZ`. -/
def DIRSIZ (m : Mem) (ep : ℕ) : ℕ := LDIRSIZ (d_namlen m ep)

/-- Set to check names as well. -/
def dirchk : Bool := false

/-- The name has null bytes or a high bit, or does not end in a null byte. -/
def dirbadname (sp : List UInt8) (last : UInt8) : Bool :=
  sp.any (fun c => c = 0 || c &&& 0x80 ≠ 0) || last ≠ 0

/-- How far to skip an entry that is not consistent, `0` if it is. -/
def dirmangled (m : Mem) (ep : ℕ) : ℕ :=
  let i := DIRBLKSIZ - ep % DIRBLKSIZ
  if d_reclen m ep % 4 ≠ 0 ∨ d_reclen m ep = 0 ∨ i < d_reclen m ep ∨ d_reclen m ep < DIRSIZ m ep ∨
      dirchk ∧ (MAXNAMLEN < d_namlen m ep ∨
        dirbadname (d_name m ep (d_namlen m ep)) (m (ep + 8 + d_namlen m ep))) then i
  else 0

/-- The entry is one of the name. -/
def isMatch (m : Mem) (ep : ℕ) (namep : Name) : Prop :=
  d_ino m ep ≠ 0 ∧ d_namlen m ep = namep.length ∧ d_name m ep namep.length = namep

instance (m : Mem) (ep : ℕ) (namep : Name) : Decidable (isMatch m ep namep) :=
  inferInstanceAs (Decidable (_ ∧ _))

theorem dirmangled_le (m : Mem) (ep : ℕ) : dirmangled m ep = 0 → 0 < d_reclen m ep := by
  rw [dirmangled, DIRBLKSIZ]
  intro h
  have : ep % 512 < 512 := Nat.mod_lt _ (by decide)
  split at h <;> omega

/-! ### Looking up -/

/-- `searchloop`: the offset of the first entry of a name. -/
def search (m : Mem) (namep : Name) (endsearch offset : ℕ) : Option ℕ :=
  if offset < endsearch then
    if dirmangled m offset ≠ 0 then search m namep endsearch (offset + dirmangled m offset)
    else if isMatch m offset namep then some offset
    else search m namep endsearch (offset + d_reclen m offset)
  else none
termination_by endsearch - offset
decreasing_by
  · omega
  · have := dirmangled_le m offset
    omega

/-- The passes of a search: one from the start, or two, from the entry found last on and
    up to it. -/
def dirpasses (dp : Inode) (namep : Name) : Option ℕ :=
  let endsearch := roundup dp.i_size DIRBLKSIZ
  if dp.i_diroff = 0 then search dp.data namep endsearch 0
  else
    match search dp.data namep endsearch dp.i_diroff with
    | some offset => some offset
    | none => search dp.data namep dp.i_diroff 0

/-- The offset of the entry found last, if it is within the directory. -/
def checkDiroff (dp : Inode) : Inode := if dp.i_size < dp.i_diroff then { dp with i_diroff := 0 } else dp

/-- Looks for a certain name in a directory: the inode number found. -/
def dirlook (dp : Inode) (namep : Name) : Inode × Option ℕ :=
  let dp := checkDiroff dp
  match dirpasses dp namep with
  | some offset => ({ dp with i_diroff := offset }, some (d_ino dp.data offset))
  | none => (dp, none)

/-! ### Looking for a slot -/

inductive SlotStatus
  | NONE
  | COMPACT
  | FOUND
  | EXIST
  deriving DecidableEq, Repr

/-- Where an entry is, or there is space for one (`struct slot`). The offset is none while
    there is no free space. -/
structure Slot where
  status : SlotStatus
  offset : Option ℕ := none
  size : ℕ := 0

/-- Checks if an appropriate sized slot is available at an entry, and accumulates the
    space. -/
def findSlot (m : Mem) (needed offset : ℕ) (slot : Slot) (slotfreespace : ℕ) : Slot × ℕ :=
  if slot.status = .FOUND then (slot, slotfreespace)
  else
    let size := d_reclen m offset - if d_ino m offset ≠ 0 then DIRSIZ m offset else 0
    if size = 0 then (slot, slotfreespace)
    else if needed ≤ size then
      ({ status := .FOUND, offset := some offset, size := d_reclen m offset }, slotfreespace)
    else if slot.status = .NONE then
      let slotfreespace := slotfreespace + size
      let start := slot.offset.getD offset
      let slot := { slot with offset := some start }
      if needed ≤ slotfreespace then
        ({ slot with status := .COMPACT, size := offset + d_reclen m offset - start }, slotfreespace)
      else (slot, slotfreespace)
    else (slot, slotfreespace)

/-- The loop of `dircheckforname`. -/
def checkloop (m : Mem) (namep : Name) (needed dirsize offset last_offset : ℕ) (slot : Slot)
    (slotfreespace : ℕ) : Slot :=
  if offset < dirsize then
    -- at the start of a chunk, start looking for free space again
    let (slot, slotfreespace) :=
      if slot.status = .NONE ∧ offset % DIRBLKSIZ = 0 then ({ slot with offset := none }, 0)
      else (slot, slotfreespace)
    if dirmangled m offset ≠ 0 then
      checkloop m namep needed dirsize (offset + dirmangled m offset) last_offset slot slotfreespace
    else
      let found := findSlot m needed offset slot slotfreespace
      if isMatch m offset namep then
        { status := .EXIST, offset := some offset, size := offset - last_offset }
      else
        checkloop m namep needed dirsize (offset + d_reclen m offset) offset found.1 found.2
  else if slot.status = .NONE then { slot with offset := some offset, size := needed }
  else slot
termination_by dirsize - offset
decreasing_by
  · omega
  · have := dirmangled_le m offset
    omega

/-- Checks for the existence of a slot to make a directory entry, or of the entry. -/
def dircheckforname (tdp : Inode) (namep : Name) (slot : Slot) : Inode × Slot :=
  let slot := checkloop tdp.data namep (LDIRSIZ namep.length) (roundup tdp.i_size DIRBLKSIZ) 0 0 slot 0
  if slot.status = .EXIST then ({ tdp with i_diroff := slot.offset.getD 0 }, slot) else (tdp, slot)

/-! ### Entering -/

inductive Errno
  | EPERM
  | ENOENT
  | EACCES
  | EBUSY
  | EEXIST
  | EXDEV
  | ENOTDIR
  | EINVAL
  | ENOSPC
  | ENOTEMPTY
  | invalidSlot
  deriving DecidableEq, Repr

/-- `imark` with `ICHG`: the entry found last is forgotten. -/
def imark (ip : Inode) : Inode := { ip with i_diroff := 0 }

/-- The loop of `dirprepareentry`: copies the entries of a slot together, as long as their
    lengths are not `0`. -/
def compact (m : Mem) (dirbuf size loc ep dsize slotfreespace : ℕ) : Mem × ℕ × ℕ × ℕ :=
  if loc < size then
    let nep := dirbuf + loc
    let live := d_ino m ep ≠ 0
    -- trim the existing slot, or overwrite it: nothing there
    let m := if live then setReclen m ep dsize else m
    let ep := if live then ep + dsize else ep
    let slotfreespace := if live then slotfreespace else slotfreespace + dsize
    let dsize := DIRSIZ m nep
    let reclen := d_reclen m nep
    let slotfreespace := slotfreespace + (reclen - dsize)
    if 0 < reclen then compact (bcopy m nep ep dsize) dirbuf size (loc + reclen) ep dsize slotfreespace
    else (m, ep, dsize, slotfreespace)
  else (m, ep, dsize, slotfreespace)
termination_by size - loc
decreasing_by exact Nat.sub_lt_sub_left ‹loc < size› (Nat.lt_add_of_pos_right ‹0 < reclen›)

/-- Adjusts the directory size, if needed. -/
def adjustSize (dp : Inode) (entryend : ℕ) : Inode :=
  if dp.i_size < entryend then imark { dp with i_size := entryend } else dp

/-- Prepares a directory slot to receive an entry; `space` says that a new block can be
    allocated. -/
def dirprepareentry (dp : Inode) (space : Bool) (slot : Slot) : Except Errno (Inode × ℕ) :=
  let offset := slot.offset.getD 0
  match slot.status with
  | .NONE =>
    if offset % DIRBLKSIZ ≠ 0 then .error .invalidSlot
    else if !space then .error .ENOSPC
    else
      let data := store dp.data offset (List.replicate DIRBLKSIZ 0)
      .ok ({ adjustSize dp (offset + slot.size) with data := setReclen data offset DIRBLKSIZ }, offset)
  | .EXIST => .error .invalidSlot
  | _ =>
    let dsize := DIRSIZ dp.data offset
    let reclen := d_reclen dp.data offset
    let (data, ep, dsize, slotfreespace) :=
      compact dp.data offset slot.size reclen offset dsize (reclen - dsize)
    let dp := adjustSize dp (offset + slot.size)
    if d_ino data ep = 0 then
      .ok ({ dp with data := setReclen data ep (slotfreespace + dsize) }, ep)
    else
      .ok ({ dp with data := setReclen (setReclen data ep dsize) (ep + dsize) slotfreespace }, ep + dsize)

/-- `strncpy`: the name, padded with null bytes to `n` of them. -/
def strncpy (m : Mem) (dst : ℕ) (namep : Name) (n : ℕ) : Mem :=
  store m dst (namep ++ List.replicate (n - namep.length) 0)

/-- Enters the inode number `ino` with the name in the slot found; `bad` is the error of what
    is checked of the inode then. -/
def diraddentry (tdp : Inode) (space : Bool) (bad : Option Errno) (namep : Name) (ino : ℕ) (slot : Slot) :
    Inode × Except Errno Unit :=
  match dirprepareentry tdp space slot with
  | .error e => (tdp, .error e)
  | .ok (tdp, ep) =>
    match bad with
    | some e => ({ tdp with data := setIno tdp.data ep 0 }, .error e)
    | none =>
      let data := setNamlen tdp.data ep namep.length
      let data := strncpy data (ep + 8) namep ((namep.length + 4) / 4 * 4)
      (imark { tdp with data := setIno data ep ino }, .ok ())

/-- Rewrites the inode number of the entry found; `bad` is the error of what follows. -/
def dirrename (tdp : Inode) (bad : Option Errno) (ino : ℕ) (slot : Slot) : Inode × Except Errno Unit :=
  let tdp := imark { tdp with data := setIno tdp.data (slot.offset.getD 0) ino }
  match bad with
  | some e => (tdp, .error e)
  | none => (tdp, .ok ())

inductive de_op
  | DE_CREATE
  | DE_LINK
  | DE_RENAME
  deriving DecidableEq, Repr

/-- Writes a new directory entry. The errors are those of the checks before something is
    written, and after it. -/
def direnter (tdp : Inode) (namep : Name) (op : de_op) (refused bad : Option Errno) (space : Bool)
    (ino : ℕ) : Inode × Except Errno Unit :=
  if namep = [0x2e] ∨ namep = [0x2e, 0x2e] then
    match op with
    | .DE_RENAME => (tdp, .error .ENOTEMPTY)
    | .DE_LINK => (tdp, .error .EEXIST)
    | .DE_CREATE =>
      match dirlook tdp namep with
      | (tdp, none) => (tdp, .error .ENOENT)
      | (tdp, some _) => (tdp, .error .EEXIST)
  else if dirbadname namep 0 then (tdp, .error .EPERM)
  else
    let (tdp, slot) := dircheckforname tdp namep { status := .NONE }
    if slot.status = .EXIST then
      match op, refused with
      | .DE_RENAME, some e => (tdp, .error e)
      | .DE_RENAME, none => dirrename tdp bad ino slot
      | _, _ => (tdp, .error .EEXIST)
    else
      match refused with
      | some e => (tdp, .error e)
      | none => diraddentry tdp space bad namep ino slot

/-! ### Removing -/

/-- Deletes a directory entry. -/
def dirremove (dp : Inode) (namep : Name) (refused : Option Errno) : Inode × Except Errno Unit :=
  if namep = [0x2e] then (dp, .error .EINVAL)
  else if namep = [0x2e, 0x2e] then (dp, .error .ENOTEMPTY)
  else
    let (dp, slot) := dircheckforname dp namep { status := .FOUND }
    let offset := slot.offset.getD 0
    if slot.status ≠ .EXIST then (dp, .error .ENOENT)
    else
      match refused with
      | some e => (dp, .error e)
      | none =>
        if offset % DIRBLKSIZ = 0 then (imark { dp with data := setIno dp.data offset 0 }, .ok ())
        else
          -- collapse the new free space into the previous entry
          let pep := offset - slot.size
          let reclen := d_reclen dp.data pep + d_reclen dp.data offset
          (imark { dp with data := setReclen dp.data pep reclen }, .ok ())

end Uwisc.Ufs.Dir
