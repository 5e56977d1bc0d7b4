import Uwisc.Ufs.Dir

/-!
# Checking directories

`dirscan`, `fsck_readdir` and `dircheck` of `etc/fsck/dir.c`, which go through a block of a
directory, and `pass2check` of `etc/fsck/pass2.c`, which is applied to each of its entries in a
copy (`dbuf`).

Every fix is accepted, and `preen` is not set. The block can be read and is in range. Directories
that are entered on the way (`descend`), how much room there is for names of paths, and what the
stack holds where `proto` is put are arguments.
-/

namespace Uwisc.Fsck

open Lib Ufs.Dir

/-- What is known of an inode. -/
inductive State
  | USTATE
  | FSTATE
  | DSTATE
  | DFOUND
  | DCLEAR
  | FCLEAR
  deriving DecidableEq

/-- The tables of the inodes. -/
structure Tables where
  statemap : ℕ → State
  lncntp : ℕ → ℤ

/-- What is said of a directory, and the entries removed for the inodes they name. -/
inductive Report
  | direrr (ino : ℕ) (s : String)
  | pwarn (s : String)
  | pfatal (s : String) (d_name : Name)
  | removed (ino : ℕ)
  deriving DecidableEq

structure Setup where
  imax : ℕ
  /-- From `pathp` to `endpathname`. -/
  room : ℕ
  /-- `none` if it exits. -/
  descend : Tables → ℕ → Option Tables
  /-- What `proto` holds first. -/
  stack : Mem

/-- A directory (`struct inodesc`), with the size of the block that is gone through. -/
structure Inodesc where
  id_number : ℕ
  id_parent : ℕ
  blksiz : ℕ

/-- Why no more is done. -/
inductive Exit
  | errexit
  | fuel
  deriving DecidableEq

/-- An entry is of the name, up to its first null byte. -/
def strcmp (m : Mem) (ep : ℕ) (s : Name) : Prop := bytes m (ep + 8) (s.length + 1) = s ++ [0]

instance (m : Mem) (ep : ℕ) (s : Name) : Decidable (strcmp m ep s) := inferInstanceAs (Decidable (_ = _))

def dot : Name := [0x2e]
def dotdot : Name := [0x2e, 0x2e]

/-! ### Entries -/

/-- Where `pass2check` is with an entry: its copy, where it looks at it, and whether it
    changed it (`ALTERED`). -/
structure Pass2 where
  dbuf : Mem
  dirp : ℕ
  id_entryno : ℕ
  altered : Bool
  tables : Tables
  reports : List Report

def Pass2.report (p : Pass2) (r : Report) : Pass2 := { p with reports := p.reports ++ [r] }

/-- Changes the copy. -/
def Pass2.alter (p : Pass2) (m : Mem) : Pass2 := { p with dbuf := m, altered := true }

/-- `lncntp[ino]--`. -/
def Tables.link (t : Tables) (ino : ℕ) : Tables :=
  { t with lncntp := fun i => if i = ino then t.lncntp i - 1 else t.lncntp i }

/-- `proto`. -/
def proto (e : Setup) (ino : ℕ) (name : Name) (reclen : ℕ) : Mem :=
  store (setReclen (setNamlen (setIno e.stack 0 ino) 0 name.length) 0 reclen) 8 (name ++ [0])

/-- Copies `proto` to an entry. -/
def copyProto (m : Mem) (ep : ℕ) (p : Mem) (entrysize : ℕ) : Mem := store m ep (bytes p 0 entrysize)

/-- An entry of a size, all of it zero. -/
def blank (m : Mem) (ep n : ℕ) : Mem := setReclen (store m ep (List.replicate n 0)) ep n

/-- `pass2check` up to `chk1`. -/
def checkDot (e : Setup) (d : Inodesc) (p : Pass2) : Pass2 :=
  let ino := d_ino p.dbuf p.dirp
  let reclen := d_reclen p.dbuf p.dirp
  let entrysize := LDIRSIZ dot.length
  if p.id_entryno ≠ 0 then p
  else if ino ≠ 0 ∧ strcmp p.dbuf p.dirp dot then
    if ino ≠ d.id_number then
      (p.report (.direrr d.id_number "BAD INODE NUMBER FOR '.'")).alter (setIno p.dbuf p.dirp d.id_number)
    else p
  else
    let q := p.report (.direrr d.id_number "MISSING '.'")
    if ino ≠ 0 ∧ ¬strcmp p.dbuf p.dirp dotdot then
      q.report (.pfatal "CANNOT FIX, FIRST ENTRY IN DIRECTORY CONTAINS"
        (d_name p.dbuf p.dirp (d_namlen p.dbuf p.dirp)))
    else if reclen < entrysize then q.report (.pfatal "CANNOT FIX, INSUFFICIENT SPACE TO ADD '.'" [])
    else if reclen < 2 * entrysize then
      q.alter (copyProto p.dbuf p.dirp (proto e d.id_number dot reclen) entrysize)
    else
      let n := reclen - entrysize
      let m := copyProto p.dbuf p.dirp (proto e d.id_number dot entrysize) entrysize
      { q.alter (blank m (p.dirp + entrysize) n) with
        dirp := p.dirp + entrysize
        id_entryno := p.id_entryno + 1
        tables := p.tables.link (d_ino m p.dirp) }

/-- An entry is made after the first one. `proto.d_reclen` is set to what is left of it, but that
    is set once more later. -/
def carve (p : Pass2) : Pass2 :=
  let n := DIRSIZ p.dbuf p.dirp
  let m := setReclen p.dbuf p.dirp n
  { p with
    dbuf := blank m (p.dirp + n) n
    dirp := p.dirp + n
    id_entryno := p.id_entryno + 1
    tables := p.tables.link (d_ino m p.dirp) }

/-- The entry that is to be `..`. -/
def checkSecond (e : Setup) (d : Inodesc) (p : Pass2) : Pass2 :=
  let ino := d_ino p.dbuf p.dirp
  let reclen := d_reclen p.dbuf p.dirp
  let entrysize := LDIRSIZ dotdot.length
  if ino ≠ 0 ∧ strcmp p.dbuf p.dirp dotdot then
    if ino ≠ d.id_parent then
      (p.report (.direrr d.id_number "BAD INODE NUMBER FOR '..'")).alter (setIno p.dbuf p.dirp d.id_parent)
    else p
  else
    let q := p.report (.direrr d.id_number "MISSING '..'")
    if ino ≠ 0 ∧ ¬strcmp p.dbuf p.dirp dot then
      q.report (.pfatal "CANNOT FIX, SECOND ENTRY IN DIRECTORY CONTAINS"
        (d_name p.dbuf p.dirp (d_namlen p.dbuf p.dirp)))
    else if reclen < entrysize then q.report (.pfatal "CANNOT FIX, INSUFFICIENT SPACE TO ADD '..'" [])
    else q.alter (copyProto p.dbuf p.dirp (proto e d.id_parent dotdot reclen) entrysize)

/-- `pass2check` from `chk1` up to `chk2`. -/
def checkDotDot (e : Setup) (d : Inodesc) (p : Pass2) : Pass2 :=
  if 1 < p.id_entryno then p
  else if p.id_entryno = 0 then
    if d_reclen p.dbuf p.dirp < DIRSIZ p.dbuf p.dirp + LDIRSIZ dotdot.length then p
    else checkSecond e d (carve p)
  else checkSecond e d p

/-- The entry is removed. -/
def Pass2.remove (p : Pass2) : Pass2 :=
  (p.report (.removed (d_ino p.dbuf p.dirp))).alter (setIno p.dbuf p.dirp 0)

/-- What becomes of an entry for the state of its inode. -/
def checkState (e : Setup) (p : Pass2) : Except Exit Pass2 :=
  let ino := d_ino p.dbuf p.dirp
  if e.imax < ino then .ok (p.report (.direrr ino "I OUT OF RANGE")).remove
  else
    match p.tables.statemap ino with
    | .USTATE => .ok (p.report (.direrr ino "UNALLOCATED")).remove
    | .DCLEAR | .FCLEAR => .ok (p.report (.direrr ino "DUP/BAD")).remove
    | .DFOUND =>
      if 2 < p.id_entryno then .ok (p.report (.pwarn "IS AN EXTRANEOUS HARD LINK TO DIRECTORY")).remove
      else .ok { p with tables := p.tables.link ino }
    | .FSTATE => .ok { p with tables := p.tables.link ino }
    | .DSTATE =>
      match e.descend p.tables ino with
      | none => .error .errexit
      | some t =>
        match t.statemap ino with
        | .DFOUND => .ok { p with tables := t.link ino }
        | .DCLEAR => .ok { p.remove with tables := t }
        | _ => .error .errexit

/-- `pass2check` from `chk2` on. -/
def checkEntry (e : Setup) (d : Inodesc) (p : Pass2) : Except Exit Pass2 :=
  let namlen := d_namlen p.dbuf p.dirp
  if d_ino p.dbuf p.dirp = 0 then .ok p
  else if namlen ≤ 2 ∧ p.dbuf (p.dirp + 8) = 0x2e ∧ 2 ≤ p.id_entryno ∧ namlen = 1 then
    .ok ((p.report (.direrr d.id_number "EXTRA '.' ENTRY")).alter (setIno p.dbuf p.dirp 0))
  else if namlen ≤ 2 ∧ p.dbuf (p.dirp + 8) = 0x2e ∧ 2 ≤ p.id_entryno ∧ p.dbuf (p.dirp + 9) = 0x2e then
    .ok ((p.report (.direrr d.id_number "EXTRA '..' ENTRY")).alter (setIno p.dbuf p.dirp 0))
  else if e.room ≤ 1 + namlen then .error .errexit
  else checkState e { p with id_entryno := p.id_entryno + 1 }

def pass2check (e : Setup) (d : Inodesc) (p : Pass2) : Except Exit Pass2 :=
  checkEntry e d (checkDotDot e d (checkDot e d p))

/-! ### Blocks -/

/-- Where `dirscan` is. No more is left of the directory if `id_filesize` is not positive, and
    then it is `0` here. -/
structure Scan where
  dirblk : Mem
  dbuf : Mem
  id_loc : ℕ
  id_filesize : ℕ
  id_entryno : ℕ
  tables : Tables
  reports : List Report

/-- An entry is valid. -/
def dircheck (e : Setup) (m : Mem) (loc filesize : ℕ) : Bool :=
  let size := DIRSIZ m loc
  let spaceleft := DIRBLKSIZ - loc % DIRBLKSIZ
  let namlen := d_namlen m loc
  d_ino m loc < e.imax ∧ d_reclen m loc ≠ 0 ∧ d_reclen m loc ≤ spaceleft ∧ d_reclen m loc % 4 = 0 ∧
    size ≤ d_reclen m loc ∧ size ≤ filesize ∧ namlen ≤ MAXNAMLEN ∧
    (d_ino m loc = 0 ∨ (d_name m loc namlen).all (fun c => c ≠ 0 ∧ c < 0x80) ∧ m (loc + 8 + namlen) = 0)

/-- The next entry. -/
def fsck_readdir (e : Setup) (d : Inodesc) (s : Scan) : Option (ℕ × Scan) :=
  if s.id_loc % DIRBLKSIZ = 0 ∧ 0 < s.id_filesize ∧ s.id_loc < d.blksiz ∧
      dircheck e s.dirblk s.id_loc s.id_filesize = false then
    let dp := s.id_loc
    some (dp, { s with
      dirblk := store (setNamlen (setIno (setReclen s.dirblk dp DIRBLKSIZ) dp 0) dp 0) (dp + 8) [0]
      id_loc := s.id_loc + DIRBLKSIZ
      id_filesize := s.id_filesize - DIRBLKSIZ
      reports := s.reports ++ [.direrr d.id_number "DIRECTORY CORRUPTED"] })
  else if s.id_filesize = 0 ∨ d.blksiz ≤ s.id_loc then none
  else
    let dp := s.id_loc
    let loc := s.id_loc + d_reclen s.dirblk dp
    let filesize := s.id_filesize - d_reclen s.dirblk dp
    if loc % DIRBLKSIZ ≠ 0 ∧ loc < d.blksiz ∧ 0 < filesize ∧ dircheck e s.dirblk loc filesize = false then
      let size := DIRBLKSIZ - loc % DIRBLKSIZ
      some (dp, { s with
        dirblk := setReclen s.dirblk dp (d_reclen s.dirblk dp + size)
        id_loc := loc + size
        id_filesize := filesize - size
        reports := s.reports ++ [.direrr d.id_number "DIRECTORY CORRUPTED"] })
    else some (dp, { s with id_loc := loc, id_filesize := filesize })

/-- The entry at `dp` as it is given to `pass2check`. -/
def Scan.entry (s : Scan) (dp : ℕ) : Pass2 where
  dbuf := store s.dbuf 0 (bytes s.dirblk dp (d_reclen s.dirblk dp))
  dirp := 0
  id_entryno := s.id_entryno
  altered := false
  tables := s.tables
  reports := s.reports

/-- What `pass2check` leaves, copied back if it changed the entry. -/
def Scan.copyBack (s : Scan) (dp : ℕ) (p : Pass2) : Scan :=
  { s with
    dirblk := if p.altered then store s.dirblk dp (bytes p.dbuf 0 (d_reclen s.dirblk dp)) else s.dirblk
    dbuf := p.dbuf
    id_entryno := p.id_entryno
    tables := p.tables
    reports := p.reports }

/-- The entries from one on. -/
def scanEntries (e : Setup) (d : Inodesc) : ℕ → Scan → Except Exit Scan
  | 0, _ => .error .fuel
  | fuel + 1, s =>
    match fsck_readdir e d s with
    | none => .ok s
    | some (dp, s) =>
      match pass2check e d (s.entry dp) with
      | .error x => .error x
      | .ok p => scanEntries e d fuel (s.copyBack dp p)

/-- `dirscan`: every step of it is of at least one byte. -/
def dirscan (e : Setup) (d : Inodesc) (s : Scan) : Except Exit Scan :=
  let filesize := if s.id_entryno = 0 then roundup s.id_filesize DIRBLKSIZ else s.id_filesize
  scanEntries e d (d.blksiz + 1) { s with id_loc := 0, id_filesize := filesize }

end Uwisc.Fsck
