import Uwisc.Nfs.Readdir

/-!
# Removing open files over the network

`nfs_open`, `nfs_close`, `nfs_remove` and `nfs_inactive` of `sys/nfs/nfs_vnodeops.c`, with the
rnodes and `newname` of `sys/nfs/nfs_subr.c`, on a client that is the only one. A directory of the
server maps names to files; a file can have several. The server admits a removal or a renaming if
the credentials can write to the directory, and every request is answered.

What the server is asked for, and what names are made up, is recorded (`Event`). References to
directories and credentials are counted as `nfs_remove` takes them and `nfs_inactive` gives them
back. Flushing buffers is left out: the references that buffers hold are like any others.
-/

namespace Uwisc.Nfs.Remove

open Lib Function

/-- The bytes of a name. -/
abbrev Name := List UInt8

/-! ### Temporary names -/

/-- `"0123456789ABCDEF"[id & 0x0f]`. -/
def digit (id : ℕ) : UInt8 := if id % 16 < 10 then 48 + UInt8.ofNat (id % 16) else 55 + UInt8.ofNat (id % 16)

/-- `while (id)`, for a number of at most `n` digits. -/
def digits : ℕ → ℕ → Name
  | 0, _ => []
  | n + 1, id => if id = 0 then [] else digit id :: digits n (id / 16)

/-- `".nfs"`. -/
def nfsPrefix : Name := [46, 110, 102, 115]

/-- The name made for `s` at the microsecond `id`; a long has eight digits. -/
def newname (s : Name) (id : ℕ) : Name := s ++ nfsPrefix ++ digits 8 id

/-- The name and its final zero are no longer than what is allocated. -/
def Fits (news : Name) : Prop := news.length + 1 ≤ NFS_MAXNAMLEN

instance (news : Name) : Decidable (Fits news) := inferInstanceAs (Decidable (_ ≤ _))

/-! ### The state -/

variable {Dir File Cred : Type}

/-- Where the name of an unlinked file is (`r_unldvp`, `r_unlname`, `r_unlcred`). The three are
    set together. -/
structure Unl (Dir Cred : Type) where
  r_unldvp : Dir
  r_unlname : Name
  r_unlcred : Cred
  deriving DecidableEq

/-- An rnode with its vnode. -/
structure Rnode (Dir Cred : Type) where
  v_count : ℕ
  /-- `ROPEN`. -/
  ropen : Bool
  unl : Option (Unl Dir Cred)

/-- What is recorded of a call. -/
inductive Event (Dir File : Type)
  /-- A name was made up, for a directory with an entry of the name or not. -/
  | newname (news : Name) (taken : Bool)
  /-- The file was renamed by `nfs_remove`. -/
  | renamed (file : File)
  /-- The server was asked by `nfs_remove` to remove a file that is open so many times. -/
  | remove (file : File) (opens : ℕ)
  /-- The server was asked by `nfs_inactive` for `file`, and removed it or not; the file of the
      name, if any, is open so many times. -/
  | inactive (file : File) (opens : ℕ) (done : Bool)
  deriving DecidableEq

/-- The directories of the server and the rnodes of the client. -/
structure State (Dir File Cred : Type) where
  entry : Dir → Name → Option File
  rnode : File → Option (Rnode Dir Cred)
  /-- The count of the `nfs_open` of a file without an `nfs_close`. -/
  opens : File → ℕ
  /-- The references taken to the vnode of a directory. -/
  held : Dir → ℤ
  /-- The references taken to credentials. -/
  cr_ref : Cred → ℤ
  /-- The count of the names allocated. -/
  names : ℤ
  log : List (Event Dir File)

variable [DecidableEq Dir] [DecidableEq File] [DecidableEq Cred] (writable : Dir → Cred → Bool)

/-! ### The server -/

/-- Why the server refuses a request, or it is not sent. -/
inductive Errno
  | ENOENT | EACCES | EINVAL
  /-- The arguments cannot be encoded. -/
  | rpc
  deriving DecidableEq

/-- Sets an entry of a directory, or clears it. -/
def State.link (s : State Dir File Cred) (d : Dir) (nm : Name) (file : Option File) : State Dir File Cred :=
  { s with entry := update s.entry d (update (s.entry d) nm file) }

/-- `RFS_REMOVE`. -/
def rfsRemove (s : State Dir File Cred) (d : Dir) (nm : Name) (cred : Cred) :
    State Dir File Cred × Option Errno :=
  match s.entry d nm with
  | none => (s, some .ENOENT)
  | some _ => if writable d cred then (s.link d nm none, none) else (s, some .EACCES)

/-- `RFS_RENAME`: a file that has the new name loses it. -/
def rfsRename (s : State Dir File Cred) (d : Dir) (onm nnm : Name) (cred : Cred) :
    State Dir File Cred × Option Errno :=
  match s.entry d onm with
  | none => (s, some .ENOENT)
  | some f => if writable d cred then ((s.link d onm none).link d nnm (some f), none) else (s, some .EACCES)

/-! ### The client -/

/-- `makenfsnode`: takes a reference to the vnode of a file, which is made if there is none. -/
def makenfsnode (s : State Dir File Cred) (f : File) : State Dir File Cred :=
  match s.rnode f with
  | some rp => { s with rnode := update s.rnode f (some { rp with v_count := rp.v_count + 1 }) }
  | none => { s with rnode := update s.rnode f (some ⟨1, false, none⟩) }

/-- `nfs_lookup`, of a file. -/
def nfsLookup (s : State Dir File Cred) (d : Dir) (nm : Name) : State Dir File Cred × Option File :=
  match s.entry d nm with
  | some f => (makenfsnode s f, some f)
  | none => (s, none)

/-- How often the file that has the name is open. -/
def State.opensOf (s : State Dir File Cred) (d : Dir) (nm : Name) : ℕ := (s.entry d nm).elim 0 s.opens

def State.record (s : State Dir File Cred) (e : Event Dir File) : State Dir File Cred := { s with log := e :: s.log }

/-- The references to the directory and the credentials, and the name, are given back. -/
def State.dropUnl (s : State Dir File Cred) (u : Unl Dir Cred) : State Dir File Cred :=
  { s with
    held := update s.held u.r_unldvp (s.held u.r_unldvp - 1)
    cr_ref := update s.cr_ref u.r_unlcred (s.cr_ref u.r_unlcred - 1)
    names := s.names - 1 }

/-- The rnode `rp` of a file gets a temporary name, with references to the directory and the credentials. -/
def State.takeUnl (s : State Dir File Cred) (f : File) (rp : Rnode Dir Cred) (u : Unl Dir Cred) :
    State Dir File Cred :=
  { s with
    rnode := update s.rnode f (some { rp with unl := some u })
    held := update s.held u.r_unldvp (s.held u.r_unldvp + 1)
    cr_ref := update s.cr_ref u.r_unlcred (s.cr_ref u.r_unlcred + 1)
    names := s.names + 1 }

/-- `nfs_inactive`, of the file `f` with the rnode `rp`. -/
def nfsInactive (s : State Dir File Cred) (f : File) (rp : Rnode Dir Cred) : State Dir File Cred :=
  let s := { s with rnode := update s.rnode f none }
  match rp.unl with
  | none => s
  | some u =>
    let done := s.entry u.r_unldvp u.r_unlname = some f ∧ writable u.r_unldvp u.r_unlcred
    let e := .inactive f (s.opensOf u.r_unldvp u.r_unlname) done
    ((rfsRemove writable s u.r_unldvp u.r_unlname u.r_unlcred).1.dropUnl u).record e

/-- `VN_RELE`; `none` is the panic. -/
def vnRele (s : State Dir File Cred) (f : File) : Option (State Dir File Cred) :=
  match s.rnode f with
  | none => none
  | some rp =>
    if rp.v_count = 0 then none
    else if rp.v_count = 1 then some (nfsInactive writable s f rp)
    else some { s with rnode := update s.rnode f (some { rp with v_count := rp.v_count - 1 }) }

/-- `nfs_open`; it fails only if the attributes cannot be got. -/
def nfsOpen (s : State Dir File Cred) (f : File) : Option (State Dir File Cred) :=
  (s.rnode f).map fun rp =>
    { s with rnode := update s.rnode f (some { rp with ropen := true }), opens := update s.opens f (s.opens f + 1) }

/-- `nfs_close`. -/
def nfsClose (s : State Dir File Cred) (f : File) : Option (State Dir File Cred) :=
  (s.rnode f).map fun rp =>
    { s with rnode := update s.rnode f (some { rp with ropen := false }), opens := update s.opens f (s.opens f - 1) }

/-- `.` and `..`. -/
def isDots (nm : Name) : Bool := nm = [46] ∨ nm = [46, 46]

/-- `nfs_rename`, within a directory. -/
def nfsRename (s : State Dir File Cred) (d : Dir) (onm nnm : Name) (cred : Cred) :
    State Dir File Cred × Option Errno :=
  if isDots onm ∨ isDots nnm then (s, some .EINVAL)
  else if NFS_MAXNAMLEN < onm.length ∨ NFS_MAXNAMLEN < nnm.length then (s, some .rpc)
  else rfsRename writable s d onm nnm cred

/-- The body of `nfs_remove` for an open file: it is renamed instead. -/
def renameOpen (s : State Dir File Cred) (d : Dir) (nm : Name) (cred : Cred) (usec : ℕ) (f : File)
    (rp : Rnode Dir Cred) : State Dir File Cred × Option Errno :=
  let tmpname := newname nm usec
  match nfsRename writable (s.record (.newname tmpname (s.entry d tmpname).isSome)) d nm tmpname cred with
  | (s, some error) => (s, some error)
  | (s, none) => ((s.takeUnl f rp ⟨d, tmpname, cred⟩).record (.renamed f), none)

/-- The body of `nfs_remove` for a file that is not open. -/
def removeClosed (s : State Dir File Cred) (d : Dir) (nm : Name) (cred : Cred) (f : File) :
    State Dir File Cred × Option Errno :=
  rfsRemove writable (s.record (.remove f (s.opens f))) d nm cred

/-- `nfs_remove` at the microsecond `usec`. -/
def nfsRemove (s : State Dir File Cred) (d : Dir) (nm : Name) (cred : Cred) (usec : ℕ) :
    Option (State Dir File Cred × Option Errno) :=
  match nfsLookup s d nm with
  | (s, none) => some (s, some .ENOENT)
  | (s, some f) =>
    match s.rnode f with
    | none => none
    | some rp =>
      let (s, error) :=
        if rp.ropen ∧ rp.unl = none then renameOpen writable s d nm cred usec f rp
        else removeClosed writable s d nm cred f
      (vnRele writable s f).map fun s => (s, error)

end Uwisc.Nfs.Remove
