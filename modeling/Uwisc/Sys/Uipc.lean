import Uwisc.Lib.Marking
import Uwisc.Lib.System
import Uwisc.Lib.Wrap

/-!
# Descriptors in messages

`unp_internalize`, `unp_externalize`, `unp_gc` and `unp_discard` of `sys/sys/uipc_usrreq.c`, `closef`
of `kern_descrip.c`, and what `soclose` and `sorflush` of `uipc_socket.c` do with the rights in a
receive buffer.

`closef` closes sockets, which flushes their receive buffers, which closes the files in there, and so
on, with `unp_gc` called in between. What is left to do of the calls is a stack of frames, and a
tick of the machine does one of them. Nothing sleeps in `unp_gc`.

A file is one of a socket in the unix domain, or of something else. Of a receive buffer there are the
rights of each record. Whether there is space in a receive buffer, and whether the data of a
message can be copied to its reader, is up to the operation.
-/

namespace Uwisc.Uipc

open Lib Function

def NOFILE : ℕ := 64

/-- `f_type` and `f_data`: a socket, the null pointer that `soo_close` leaves, or something else. -/
inductive Data
  | other
  | null
  | socket (so : ℕ)
  deriving DecidableEq

/-- An entry of the file table; `FMARK` is `mark`. -/
structure File where
  f_count : ℤ
  f_msgcount : ℤ
  f_data : Data
  mark : Bool

/-- A socket: the rights of each record in its receive buffer, if it has a control block, if no file
    refers to it (`SS_NOFDREF`), and the connections not accepted yet. -/
structure Socket where
  so_rcv : List (List ℕ)
  so_pcb : Bool
  nofdref : Bool
  so_q : List ℕ

/-- The kernel: the file table, the sockets, and the descriptors of the processes one after the
    other (`u_ofile`). -/
structure State where
  nfile : ℕ
  file : ℕ → File
  nsock : ℕ
  socket : ℕ → Socket
  u_ofile : List (Option ℕ)
  unp_rights : ℤ
  unp_gcing : Bool

/-- What is left to do of a call. -/
inductive Frame
  | closef (fp : ℕ)
  | abort (so : ℕ)
  | detach (so : ℕ)
  | unp_gc
  | discard (fp so : ℕ)
  | sofree (so : ℕ)
  | unp_scan (fps : List ℕ)
  | closed (fp : ℕ)
  | sweep (fp : ℕ)
  | sweepOne (fp : ℕ)
  deriving DecidableEq

def State.setFile (s : State) (fp : ℕ) (f : File → File) : State :=
  { s with file := update s.file fp (f (s.file fp)) }

def State.setSocket (s : State) (so : ℕ) (f : Socket → Socket) : State :=
  { s with socket := update s.socket so (f (s.socket so)) }

theorem State.setFile_self (s : State) (fp : ℕ) (f : File → File) : (s.setFile fp f).file fp = f (s.file fp) :=
  update_self ..

theorem State.setFile_of_ne (s : State) (f : File → File) {fp fp' : ℕ} (h : fp' ≠ fp) :
    (s.setFile fp f).file fp' = s.file fp' :=
  update_of_ne h ..

theorem State.setSocket_self (s : State) (so : ℕ) (f : Socket → Socket) :
    (s.setSocket so f).socket so = f (s.socket so) :=
  update_self ..

theorem State.setSocket_of_ne (s : State) (f : Socket → Socket) {so so' : ℕ} (h : so' ≠ so) :
    (s.setSocket so f).socket so' = s.socket so' :=
  update_of_ne h ..

/-! ### Collecting -/

/-- What a file leads to: the rights in the receive buffer, if it is of a socket. -/
def State.rights (s : State) (fp : ℕ) : List ℕ :=
  match (s.file fp).f_data with
  | .socket so => (s.socket so).so_rcv.flatten
  | _ => []

/-- The file table as `unp_gc` goes through it: `FMARK`, `FDEFER` and `unp_defer` are the marks of
    `Graph.passes`, and `unp_mark` is `Marks.touch`. It starts from what is not only referred to by
    messages. -/
def State.graph (s : State) : Graph where
  n := s.nfile
  live fp := (s.file fp).f_count ≠ 0
  root fp := (s.file fp).f_count ≠ (s.file fp).f_msgcount
  succ fp := s.rights fp

/-- `unp_gc`, up to the loop that discards what is not marked. -/
def unp_gc (s : State) : Option (State × List Frame) :=
  if s.unp_gcing then some (s, [])
  else
    (s.graph.passes (s.nfile + 1) .clear).map fun m =>
      ({ s with unp_gcing := true, file := fun fp => { s.file fp with mark := m.mark fp } }, [.sweep 0])

/-- The last loop of `unp_gc`, from `fp` on. -/
def sweep (s : State) (fp : ℕ) : State × List Frame :=
  if s.nfile ≤ fp then ({ s with unp_gcing := false }, [])
  else if (s.file fp).f_count = 0 then (s, [.sweep (fp + 1)])
  else if (s.file fp).f_count = (s.file fp).f_msgcount ∧ (s.file fp).mark = false then (s, [.sweepOne fp])
  else (s, [.sweep (fp + 1)])

/-- `while (fp->f_msgcount) unp_discard(fp)`. -/
def sweepOne (s : State) (fp : ℕ) : State × List Frame :=
  if (s.file fp).f_msgcount ≠ 0 then (s, [.unp_scan [fp], .sweepOne fp]) else (s, [.sweep (fp + 1)])

/-- `unp_discard`, up to its call of `closef`. -/
def unp_discard (s : State) (fp : ℕ) : State :=
  { s.setFile fp (fun f => { f with f_msgcount := f.f_msgcount - 1 }) with unp_rights := s.unp_rights - 1 }

/-! ### Closing -/

/-- `soclose`, for the file `fp`. -/
def soclose (s : State) (fp so : ℕ) : State × List Frame :=
  (s.setSocket so fun x => { x with so_q := [] },
    (s.socket so).so_q.map .abort ++ [.detach so, .discard fp so])

def closef (s : State) (fp : ℕ) : State × List Frame :=
  if 1 < (s.file fp).f_count then (s.setFile fp fun f => { f with f_count := f.f_count - 1 }, [])
  else
    match (s.file fp).f_data with
    | .socket so => soclose s fp so
    | _ => (s, [.closed fp])

/-- A tick of the machine; `none` is a panic, or that it does not end. -/
def tick (s : State) : Frame → Option (State × List Frame)
  | .closef fp => some (closef s fp)
  -- `soabort`, which leads to `unp_drop`
  | .abort so => some (s.setSocket so fun x => { x with so_pcb := false }, [.sofree so])
  -- `unp_detach`
  | .detach so =>
    if (s.socket so).so_pcb then some (s.setSocket so fun x => { x with so_pcb := false }, [.unp_gc])
    else some (s, [])
  | .unp_gc => if s.unp_rights ≠ 0 then unp_gc s else some (s, [])
  -- `soclose` from `discard` on
  | .discard fp so =>
    if (s.socket so).nofdref then none
    else some (s.setSocket so fun x => { x with nofdref := true }, [.sofree so, .closed fp])
  -- `sofree` and `sorflush`
  | .sofree so =>
    if (s.socket so).so_pcb ∨ (s.socket so).nofdref = false then some (s, [])
    else some (s.setSocket so fun x => { x with so_rcv := [] }, [.unp_scan (s.socket so).so_rcv.flatten])
  | .unp_scan [] => some (s, [])
  | .unp_scan (fp :: fps) => some (unp_discard s fp, [.closef fp, .unp_scan fps])
  -- the end of `soo_close` and of `closef`
  | .closed fp => some (s.setFile fp fun f => { f with f_count := 0, f_data := .null }, [])
  | .sweep fp => some (sweep s fp)
  | .sweepOne fp => some (sweepOne s fp)

/-! ### Sending and receiving -/

/-- The file a descriptor of the process `p` refers to. -/
def State.getf (s : State) (p f : ℕ) : Option ℕ :=
  if NOFILE ≤ f then none else (s.u_ofile[p * NOFILE + f]?).join

/-- The free descriptors of the process `p`. -/
def State.free (s : State) (p : ℕ) : List ℕ :=
  (List.range' (p * NOFILE) NOFILE).filter fun i => s.u_ofile[i]? = some none

/-- A file, with one more reference to it that is in a message (`unp_internalize`). -/
def internalizeOne (s : State) (fp : ℕ) : State :=
  { s.setFile fp (fun f =>
      { f with f_count := wrap 16 (f.f_count + 1), f_msgcount := wrap 16 (f.f_msgcount + 1) }) with
    unp_rights := s.unp_rights + 1 }

/-- The files for the descriptors; none if one of those is bad. -/
def unp_internalize (s : State) (p : ℕ) (fds : List ℕ) : Option (State × List ℕ) :=
  (fds.mapM (s.getf p)).map fun fps => (fps.foldl internalizeOne s, fps)

/-- A file is given the first free descriptor (`unp_externalize`); none is a panic. -/
def externalizeOne (p : ℕ) (s : State) (fp : ℕ) : Option State :=
  match s.free p with
  | [] => none
  | f :: _ =>
    some { s.setFile fp (fun x => { x with f_msgcount := x.f_msgcount - 1 }) with
      u_ofile := s.u_ofile.set f (some fp)
      unp_rights := s.unp_rights - 1 }

def unp_externalize (s : State) (p : ℕ) (fps : List ℕ) : Option (State × List Frame) :=
  if (s.free p).length < fps.length then some (s, [.unp_scan fps])
  else (fps.foldlM (externalizeOne p) s).map fun s => (s, [])

/-- `PRU_SEND`: to the socket the sender is connected to, which may have no space. -/
def send (s : State) (p : ℕ) (fds : List ℕ) (so2 : ℕ) (space : Bool) : State :=
  match unp_internalize s p fds with
  | none => s
  | some (s, fps) => if space then s.setSocket so2 fun x => { x with so_rcv := x.so_rcv ++ [fps] } else s

/-- `soreceive`: the rights of the first record, for a reader that asks for rights or not. The rest
    of the record may stay. -/
def soreceive (s : State) (p so : ℕ) (rightsp error rest : Bool) : Option (State × List Frame) :=
  match (s.socket so).so_rcv with
  | [] => some (s, [])
  | fps :: nextrecord =>
    let s := s.setSocket so fun x => { x with so_rcv := if rest then [] :: nextrecord else nextrecord }
    if rightsp ∧ error = false then unp_externalize s p fps else some (s, [])

/-! ### The machine -/

/-- What a process asks for, or a tick. -/
inductive Op
  | tick
  | send (p : ℕ) (fds : List ℕ) (so2 : ℕ) (space : Bool)
  | recv (p so : ℕ) (rightsp error rest : Bool)
  | close (f : ℕ)
  | gc
  | dup (f f' : ℕ)
  | falloc (f fp : ℕ) (socket : Bool)
  | connect (head : ℕ)
  | accept (head f fp : ℕ)

/-- The kernel, and what is left to do of the call that is being made. -/
structure Config where
  state : State
  stack : List Frame

/-- A free file, for a descriptor (`falloc`); `f_msgcount` stays as it is. -/
def State.openFile (s : State) (f fp : ℕ) (data : Data) : State :=
  { s with
    file := update s.file fp { s.file fp with f_count := 1, f_data := data, mark := false }
    u_ofile := s.u_ofile.set f (some fp) }

/-- A new socket with a control block. -/
def State.newSocket (s : State) (nofdref : Bool) : State :=
  { s with nsock := s.nsock + 1, socket := update s.socket s.nsock ⟨[], true, nofdref, []⟩ }

/-- A new file, of a new socket or of something else. -/
def falloc (s : State) (f fp : ℕ) (socket : Bool) : State :=
  if socket then (s.newSocket false).openFile f fp (.socket s.nsock) else s.openFile f fp .other

/-- `sonewconn`: a connection that is not accepted yet. -/
def sonewconn (s : State) (head : ℕ) : State :=
  (s.newSocket true).setSocket head fun x => { x with so_q := s.nsock :: x.so_q }

/-- `accept`: the connection is taken off the queue of `head`, and gets a file. -/
def accept (s : State) (head f fp : ℕ) : Option State :=
  match (s.socket head).so_q with
  | [] => none
  | aso :: so_q =>
    some (((s.setSocket head fun x => { x with so_q := so_q }).setSocket aso
      fun x => { x with nofdref := false }).openFile f fp (.socket aso))

/-- A call that a process makes. -/
def start (s : State) : Op → Option (State × List Frame)
  | .tick => none
  | .send p fds so2 space =>
    if so2 < s.nsock ∧ (s.socket so2).so_pcb then some (send s p fds so2 space, []) else none
  | .recv p so rightsp error rest => if so < s.nsock then soreceive s p so rightsp error rest else none
  | .close f =>
    match s.u_ofile[f]? with
    | some (some fp) => some ({ s with u_ofile := s.u_ofile.set f none }, [.closef fp])
    | _ => none
  | .gc => unp_gc s
  | .dup f f' =>
    match s.u_ofile[f]?, s.u_ofile[f']? with
    | some (some fp), some none =>
      some ({ s.setFile fp (fun x => { x with f_count := wrap 16 (x.f_count + 1) }) with
        u_ofile := s.u_ofile.set f' (some fp) }, [])
    | _, _ => none
  | .falloc f fp socket =>
    if fp < s.nfile ∧ (s.file fp).f_count = 0 ∧ s.u_ofile[f]? = some none then
      some (falloc s f fp socket, [])
    else none
  | .connect head =>
    if head < s.nsock ∧ (s.socket head).nofdref = false then some (sonewconn s head, []) else none
  | .accept head f fp =>
    if head < s.nsock ∧ fp < s.nfile ∧ (s.file fp).f_count = 0 ∧ s.u_ofile[f]? = some none then
      (accept s head f fp).map fun s => (s, [])
    else none

/-- A step: a process makes a call when the one before has ended. -/
def Config.step (c : Config) (op : Op) : Option Config :=
  match c.stack, op with
  | fr :: stack, .tick => (tick c.state fr).map fun r => ⟨r.1, r.2 ++ stack⟩
  | [], op => (start c.state op).map fun r => ⟨r.1, r.2⟩
  | _, _ => none

end Uwisc.Uipc
