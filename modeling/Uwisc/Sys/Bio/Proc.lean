import Uwisc.Lib.System
import Uwisc.Sys.Bio

/-!
# Processes using the buffer cache

The functions of `sys/sys/vfs_bio.c` that sleep. A process is at one of the places where it goes on
after it slept, most of them the heads of loops (`Control`), and each of its steps goes on to the
next. Only one process runs: another one does when it sleeps, or has returned. The driver may be done
with a buffer at any time.
-/

namespace Uwisc.Bio

open Function Lib

variable {n : ℕ}

/-- Where `getblk` returns to. -/
inductive Cont (n : ℕ)
  | getblk
  | bread
  /-- The first call of `breada`, where its other arguments are still needed. -/
  | breada (vp : ℕ) (blkno : ℤ) (size : ℕ) (rablkno : ℤ) (rabsize : ℕ)
  /-- The call of `breada` for the read-ahead block. -/
  | ahead (bp : Option (Fin n)) (vp : ℕ) (blkno : ℤ) (size : ℕ)

/-- Where `brealloc` returns to. -/
inductive Caller (n : ℕ)
  | hit (k : Cont n) (vp : ℕ) (blkno : ℤ)
  | miss (k : Cont n) (vp : ℕ) (blkno : ℤ)
  | geteblk
  | brealloc

/-- Where `bwrite` returns to. -/
inductive Writer (n : ℕ)
  | bwrite
  /-- `brealloc`, which returns zero then. -/
  | brealloc (c : Caller n) (size : ℕ)
  /-- The loop of `brealloc`. -/
  | overlap (c : Caller n) (bp : Fin n) (size : ℕ)
  | blkflush (vp : ℕ) (blkno : ℤ) (size : ℕ)

/-- Where a process is. -/
inductive Control (n : ℕ)
  /-- In none of the functions. -/
  | user
  | getblk (k : Cont n) (vp : ℕ) (blkno : ℤ) (size : ℕ)
  /-- In `getnewbuf`, called by `getblk`. -/
  | getnewbuf (k : Cont n) (vp : ℕ) (blkno : ℤ) (size : ℕ)
  | geteblk (size : ℕ)
  | brealloc (c : Caller n) (bp : Fin n) (size : ℕ)
  | allocbuf (c : Caller n) (bp : Fin n) (size : ℕ)
  /-- In `biowait`, called by `bread` or `breada`. -/
  | bread (bp : Fin n)
  /-- In `biowait`, called by `bwrite`. -/
  | bwrite (bp : Fin n) (w : Writer n)
  | blkflush (vp : ℕ) (blkno : ℤ) (size : ℕ)

/-- The cache, the processes with the buffers they hold, and the one that runs. -/
structure State (n : ℕ) where
  kernel : Kernel n
  control : ℕ → Control n
  held : ℕ → List (Fin n)
  running : Option ℕ

namespace State

/-- The process `p` goes on at `c`. -/
def goto (s : State n) (p : ℕ) (k : Kernel n) (c : Control n) : State n :=
  { s with kernel := k, control := update s.control p c }

/-- The process `p` sleeps, and goes on at `c` when it wakes up. -/
def sleep (s : State n) (p : ℕ) (k : Kernel n) (chan : Wchan n) (c : Control n) : State n :=
  { s.goto p (k.sleep p chan) c with running := none }

/-- The process `p` returns with a buffer. -/
def hold (s : State n) (p : ℕ) (k : Kernel n) (bp : Fin n) : State n :=
  { s.goto p k .user with held := update s.held p (bp :: s.held p) }

/-- The end of `breada`, which holds the buffer `bp` or lets `bread` get it. -/
def breadaEnd (s : State n) (p : ℕ) (k : Kernel n) (bp : Option (Fin n)) (vp : ℕ) (blkno : ℤ)
    (size : ℕ) : State n :=
  match bp with
  | none => s.goto p k (.getblk .bread vp blkno size)
  | some bp => s.goto p k (.bread bp)

/-- `breada` from where it looks for the read-ahead block. -/
def breadaAhead (s : State n) (p : ℕ) (k : Kernel n) (bp : Option (Fin n)) (vp : ℕ) (blkno : ℤ)
    (size : ℕ) (rablkno : ℤ) (rabsize : ℕ) : State n :=
  if rablkno ≠ 0 ∧ k.incore vp rablkno = false then
    s.goto p k (.getblk (.ahead bp vp blkno size) vp rablkno rabsize)
  else s.breadaEnd p k bp vp blkno size

/-- `getblk` returns the buffer `bp`. -/
def ret (s : State n) (p : ℕ) (k : Kernel n) (bp : Fin n) : Cont n → State n
  | .getblk => s.hold p k bp
  | .bread =>
    if (k.buf bp).done then s.hold p k bp else s.goto p (k.startRead bp false) (.bread bp)
  | .breada vp blkno size rablkno rabsize =>
    let k := if (k.buf bp).done then k else k.startRead bp false
    s.breadaAhead p k (some bp) vp blkno size rablkno rabsize
  | .ahead bp' vp blkno size =>
    let k := if (k.buf bp).done then k.brelse bp else k.startRead bp true
    s.breadaEnd p k bp' vp blkno size

/-- `brealloc` returns 1. -/
def realloced (s : State n) (p : ℕ) (k : Kernel n) (bp : Fin n) : Caller n → State n
  | .hit c _ _ => s.ret p (k.modify bp fun b => { b with cache := true }) bp c
  | .miss c _ _ => s.ret p k bp c
  | .geteblk => s.hold p k bp
  | .brealloc => s.hold p k bp

/-- `brealloc` returns 0: the buffer has been released. -/
def released (s : State n) (p : ℕ) (k : Kernel n) (size : ℕ) : Caller n → State n
  | .hit c vp blkno => s.goto p k (.getblk c vp blkno size)
  | .miss c vp blkno => s.goto p k (.getblk c vp blkno size)
  | .geteblk => s.goto p k (.geteblk size)
  | .brealloc => s.goto p k .user

/-- `brealloc` from its start. -/
def brealloc (s : State n) (p : ℕ) (k : Kernel n) (c : Caller n) (bp : Fin n) (size : ℕ) : State n :=
  let b := k.buf bp
  if size = b.b_bcount then s.realloced p k bp c
  else if size < b.b_bcount then
    if b.delwri then s.goto p (k.bwrite bp) (.bwrite bp (.brealloc c size))
    else s.goto p k (.allocbuf c bp size)
  else
    let k := k.modify bp fun b => { b with done := false }
    if b.b_vp = none then s.goto p k (.allocbuf c bp size)
    else s.goto p k (.brealloc c bp size)

/-- The loop of `brealloc`, for the buffers `eps` of the hash chain. -/
def overlapLoop (s : State n) (p : ℕ) (c : Caller n) (bp : Fin n) (size : ℕ) :
    List (Fin n) → Kernel n → State n
  | [], k => s.goto p k (.allocbuf c bp size)
  | ep :: eps, k =>
    let start := (k.buf bp).b_blkno
    let last := start + btodb size - 1
    if ep = bp ∨ ¬k.Overlaps ep (k.buf bp).b_vp start last then overlapLoop s p c bp size eps k
    else if (k.buf ep).busy then
      s.sleep p (k.modify ep fun b => { b with wanted := true }) (.buf ep) (.brealloc c bp size)
    else
      let k := k.notavail ep
      if (k.buf ep).delwri then s.goto p (k.bwrite ep) (.bwrite ep (.overlap c bp size))
      else overlapLoop s p c bp size eps
        ((k.modify ep fun b => { b with inval := true }).brelse ep)

/-- The loop of `blkflush`, for the buffers `eps` of the hash chain. -/
def blkflushLoop (s : State n) (p : ℕ) (vp : ℕ) (blkno : ℤ) (size : ℕ) (k : Kernel n) :
    List (Fin n) → State n
  | [] => s.goto p k .user
  | ep :: eps =>
    if ¬k.Overlaps ep (some vp) blkno (blkno + btodb size - 1) then
      blkflushLoop s p vp blkno size k eps
    else if (k.buf ep).busy then
      s.sleep p (k.modify ep fun b => { b with wanted := true }) (.buf ep) (.blkflush vp blkno size)
    else if (k.buf ep).delwri then
      s.goto p ((k.notavail ep).bwrite ep) (.bwrite ep (.blkflush vp blkno size))
    else blkflushLoop s p vp blkno size k eps

/-- `allocbuf`, where its loop comes back to the first test. -/
def allocbuf (s : State n) (p : ℕ) (k : Kernel n) (c : Caller n) (tp : Fin n) (size : ℕ) : State n :=
  let sizealloc := (size + (CLBYTES - 1)) / CLBYTES * CLBYTES
  let out (k : Kernel n) := s.realloced p (k.modify tp fun b => { b with b_bcount := size }) tp c
  if sizealloc = (k.buf tp).b_bufsize then out k
  else if sizealloc < (k.buf tp).b_bufsize then out (k.shrink tp sizealloc)
  else match k.getnewbuf with
    | (none, k) => s.sleep p k .bfreelist (.allocbuf c tp size)
    | (some bp, k) => s.goto p (k.grow tp bp sizealloc) (.allocbuf c tp size)

/-- The block that `getblk` looks for: it does not take any number. -/
def blkOf (blkno : ℤ) : ℤ := if blkno < 0 ∨ 2 ^ 23 ≤ blkno then 2 ^ 24 else blkno

/-- `getblk`, when `getnewbuf` has returned. -/
def newblk (s : State n) (p : ℕ) (c : Cont n) (vp : ℕ) (blkno : ℤ) (size : ℕ) :
    Option (Fin n) × Kernel n → State n
  | (none, k) => s.sleep p k .bfreelist (.getnewbuf c vp blkno size)
  | (some bp, k) => s.brealloc p (k.assign bp vp blkno) (.miss c vp blkno) bp size

/-- `getblk` from its search. -/
def getblk (s : State n) (p : ℕ) (c : Cont n) (vp : ℕ) (blkno : ℤ) (size : ℕ) : State n :=
  let k := s.kernel
  match k.find vp blkno with
  | some bp =>
    if (k.buf bp).busy then
      s.sleep p (k.modify bp fun b => { b with wanted := true }) (.buf bp) (.getblk c vp blkno size)
    else s.brealloc p (k.notavail bp) (.hit c vp blkno) bp size
  | none => s.newblk p c vp blkno size k.getnewbuf

def geteblk (s : State n) (p : ℕ) (size : ℕ) : State n :=
  match s.kernel.getnewbuf with
  | (none, k) => s.sleep p k .bfreelist (.geteblk size)
  | (some bp, k) => s.brealloc p (k.assignEmpty bp) .geteblk bp size

/-- `bwrite` has waited for its write. -/
def written (s : State n) (p : ℕ) (bp : Fin n) (w : Writer n) : State n :=
  let k := s.kernel.brelse bp
  match w with
  | .bwrite => s.goto p k .user
  | .brealloc c size => s.released p k size c
  | .overlap c bp size => s.goto p k (.brealloc c bp size)
  | .blkflush vp blkno size => s.goto p k (.blkflush vp blkno size)

/-- A process goes on. -/
def resume (s : State n) (p : ℕ) : State n :=
  let k := s.kernel
  match s.control p with
  | .user => s
  | .getblk c vp blkno size => s.getblk p c vp (blkOf blkno) size
  | .getnewbuf c vp blkno size => s.newblk p c vp blkno size k.getnewbuf
  | .geteblk size => s.geteblk p size
  | .brealloc c bp size =>
    match (k.buf bp).b_vp with
    | none => s.goto p k (.allocbuf c bp size)
    | some vp => s.overlapLoop p c bp size (k.chain (BUFHASH vp (k.buf bp).b_blkno)) k
  | .allocbuf c bp size => s.allocbuf p k c bp size
  | .bread bp =>
    if (k.buf bp).done then s.hold p k bp else s.sleep p k (.buf bp) (.bread bp)
  | .bwrite bp w =>
    if (k.buf bp).done then s.written p bp w else s.sleep p k (.buf bp) (.bwrite bp w)
  | .blkflush vp blkno size =>
    s.blkflushLoop p vp blkno size k (k.chain (BUFHASH vp blkno))

end State

/-- What a process may call, with the buffers that it holds. -/
inductive Op (n : ℕ)
  | bread (vp : ℕ) (blkno : ℤ) (size : ℕ)
  | breada (vp : ℕ) (blkno : ℤ) (size : ℕ) (rablkno : ℤ) (rabsize : ℕ)
  | getblk (vp : ℕ) (blkno : ℤ) (size : ℕ)
  | geteblk (size : ℕ)
  | brealloc (bp : Fin n) (size : ℕ)
  | bwrite (bp : Fin n)
  | bawrite (bp : Fin n)
  | bdwrite (bp : Fin n)
  | brelse (bp : Fin n)
  | blkflush (vp : ℕ) (blkno : ℤ) (size : ℕ)
  | bflush (vp : Option ℕ)
  /-- The memory of a buffer is written to. -/
  | store (bp : Fin n) (addr : ℕ → UInt8)

namespace State

/-- The buffer is no longer held by the process. -/
def drop (s : State n) (p : ℕ) (bp : Fin n) : State n :=
  { s with held := update s.held p ((s.held p).erase bp) }

/-- A call starts. -/
def call (s : State n) (p : ℕ) : Op n → Option (State n)
  | .bread vp blkno size =>
    if size = 0 then none else some (s.goto p s.kernel (.getblk .bread vp blkno size))
  | .breada vp blkno size rablkno rabsize =>
    some <|
      if s.kernel.incore vp blkno then
        s.breadaAhead p s.kernel none vp blkno size rablkno rabsize
      else s.goto p s.kernel (.getblk (.breada vp blkno size rablkno rabsize) vp blkno size)
  | .getblk vp blkno size => some (s.goto p s.kernel (.getblk .getblk vp blkno size))
  | .geteblk size => some (s.goto p s.kernel (.geteblk size))
  | .brealloc bp size =>
    if bp ∈ s.held p then some ((s.drop p bp).brealloc p s.kernel .brealloc bp size) else none
  | .bwrite bp =>
    if bp ∈ s.held p then some ((s.drop p bp).goto p (s.kernel.bwrite bp) (.bwrite bp .bwrite))
    else none
  | .bawrite bp =>
    if bp ∈ s.held p then some ((s.drop p bp).goto p (s.kernel.bawrite bp) .user) else none
  | .bdwrite bp =>
    if bp ∈ s.held p then some ((s.drop p bp).goto p (s.kernel.bdwrite bp) .user) else none
  | .brelse bp =>
    if bp ∈ s.held p then some ((s.drop p bp).goto p (s.kernel.brelse bp) .user) else none
  | .blkflush vp blkno size => some (s.goto p s.kernel (.blkflush vp blkno size))
  | .bflush vp => some (s.goto p (s.kernel.bflush vp) .user)
  | .store bp addr =>
    if bp ∈ s.held p then
      some (s.goto p (s.kernel.modify bp fun b => { b with b_addr := addr }) .user)
    else none

end State

/-- A step of the system. -/
inductive Label (n : ℕ)
  /-- A process that does not sleep begins to run. -/
  | switch (p : ℕ)
  /-- The process that runs and has returned does something else. -/
  | leave (p : ℕ)
  | call (p : ℕ) (op : Op n)
  | resume (p : ℕ)
  /-- The driver is done with a buffer. -/
  | iodone (bp : Fin n) (error : Bool)

/-- Executes a step, if it may come. -/
def exec (s : State n) : Label n → Option (State n)
  | .switch p =>
    if s.running = none ∧ s.kernel.wchan p = none then some { s with running := some p } else none
  | .leave p =>
    match s.control p with
    | .user => if s.running = some p then some { s with running := none } else none
    | _ => none
  | .call p op =>
    match s.control p with
    | .user => if s.running = some p then s.call p op else none
    | _ => none
  | .resume p =>
    match s.control p with
    | .user => none
    | _ => if s.running = some p then some (s.resume p) else none
  | .iodone bp error =>
    if (s.kernel.buf bp).active then some { s with kernel := s.kernel.iodone bp error } else none

/-- The runs with `n` buffers of `bufpages` pages. -/
def system (n bufpages : ℕ) : System (State n) (Label n) where
  init := {⟨.binit n bufpages, fun _ => .user, fun _ => [], none⟩}
  step s a s' := exec s a = some s'

end Uwisc.Bio
