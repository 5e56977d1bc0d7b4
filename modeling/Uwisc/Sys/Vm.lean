import Mathlib.Algebra.Order.Ring.Int
import Uwisc.Lib.Ring
import Uwisc.Lib.System

/-!
# Page frames

The core map of `vm_mem.c`: the frames that are free, in a list linked through the map, and those that hold
a block of a vnode, in chains hashed by the block. A frame may be both.

`VN_RELE` may sleep when it gives the last hold of a vnode back, and then other calls run. A routine that
calls it is cut there (`Out.rele`), and what it does afterwards is what is left of it (`Cont`).

Page tables, the trace, wakeups and the pageout daemon are left out: `memall` returns the frames it enters in
the page table, and `memfree` takes those it finds there. Numbers are those of the source within the limits
that `cmap.h` gives.
-/

namespace Uwisc.Vm

open Function Lib

/-- Pages in a cluster. -/
def CLSIZE : ℕ := 2

/-- The header of the free list. -/
def CMHEAD : ℕ := 0

@[irreducible] def CMHSIZ : ℕ := 2048

/-- The chain of a block. -/
def CMHASH (bn : ℕ) : ℕ := bn % CMHSIZ

/-- What a page belongs to. -/
inductive Kind
  | CSYS
  | CTEXT
  | CDATA
  | CSTACK
  deriving DecidableEq

/-- An entry of the core map, for vnodes `V`. -/
structure Cmap (V : Type*) where
  c_next : ℕ
  c_prev : ℕ
  c_hlink : ℕ
  c_lock : Bool
  c_want : Bool
  c_intrans : Bool
  c_free : Bool
  c_gone : Bool
  c_type : Kind
  c_blkno : ℕ
  c_vp : Option V

/-- The core map, the holds of the vnodes, and among them those that `mhash` took and that were not given
    back. -/
structure Core (V : Type*) where
  cmap : ℕ → Cmap V
  cmhash : ℕ → ℕ
  freemem : ℤ
  v_count : V → ℕ
  held : V → ℕ

/-- What does not change: the page frames there are, the end of the core map, and the file systems of the
    vnodes. -/
structure Machine (V F : Type*) where
  firstfree : ℕ
  maxfree : ℕ
  ecmx : ℕ
  v_vfsp : V → F

namespace Machine

variable {V F : Type*} (m : Machine V F)

def pgtocm (x : ℕ) : ℕ := (x - m.firstfree) / CLSIZE + 1

def cmtopg (x : ℕ) : ℕ := (x - 1) * CLSIZE + m.firstfree

end Machine

/-- What is left of a call when `VN_RELE` returns. -/
inductive Cont (V F : Type*)
  | memall (type : Kind) (clusters : ℕ) (pfs : List ℕ) (c : ℕ)
  | munhash (c : ℕ)
  | mpurge (vp : V) (j : ℕ)
  | mpurgevfs (vfsp : F) (c : ℕ)

/-- How far a call gets: it returns page frames, gives a vnode back, or panics. -/
inductive Out (V F : Type*)
  | done (pfs : List ℕ) (s : Core V)
  | rele (vp : V) (k : Cont V F) (s : Core V)
  | panic (message : String)

section Calls

variable {V F : Type*} [DecidableEq V] [DecidableEq F]

/-- An entry is changed. -/
def Core.set (s : Core V) (i : ℕ) (f : Cmap V → Cmap V) : Core V :=
  { s with cmap := update s.cmap i (f (s.cmap i)) }

variable (m : Machine V F)

/-! ### The free list -/

/-- `munlink`. -/
def munlink (c : ℕ) (s : Core V) : Core V :=
  let next := (s.cmap c).c_next
  let prev := (s.cmap c).c_prev
  let s := s.set prev fun c => { c with c_next := next }
  let s := s.set next fun c => { c with c_prev := prev }
  let s := s.set c fun c => { c with c_free := false }
  { s with freemem := s.freemem - CLSIZE }

/-- `memfree`, of the frames in which the clusters begin. -/
def memfree (detach : Bool) : List ℕ → Core V → Out V F
  | [], s => .done [] s
  | pf :: pfs, s =>
    if pf < m.firstfree ∨ m.maxfree < pf then .panic "bad mem free"
    else
      let i := m.pgtocm pf
      if (s.cmap i).c_free then .panic "dup mem free"
      else
        let s := if detach ∧ (s.cmap i).c_type ≠ .CSYS then s.set i fun c => { c with c_gone := true } else s
        let s :=
          if detach ∧ (s.cmap i).c_blkno = 0 then
            let next := (s.cmap CMHEAD).c_next
            let s := s.set next fun c => { c with c_prev := i }
            let s := s.set i fun c => { c with c_prev := CMHEAD, c_next := next }
            s.set CMHEAD fun c => { c with c_next := i }
          else
            let prev := (s.cmap CMHEAD).c_prev
            let s := s.set prev fun c => { c with c_next := i }
            let s := s.set i fun c => { c with c_next := CMHEAD, c_prev := prev }
            s.set CMHEAD fun c => { c with c_prev := i }
        let s := s.set i fun c => { c with c_free := true }
        memfree detach pfs { s with freemem := s.freemem + CLSIZE }

/-! ### The chains -/

/-- The loops along a chain: the first entry `c1` for which `hit` holds, and the entry `c2` before it. -/
def find (s : Core V) (hit : ℕ → Bool) (i : ℕ) : Option (Option ℕ × ℕ) :=
  seek (Cmap.c_hlink ∘ s.cmap) m.ecmx hit (m.ecmx + 1) none (s.cmhash i)

/-- The entry found is taken off the chain. -/
def unlink (s : Core V) (i : ℕ) : Option ℕ × ℕ → Core V
  | (none, c1) => { s with cmhash := update s.cmhash i (s.cmap c1).c_hlink }
  | (some c2, c1) => s.set c2 fun c => { c with c_hlink := (s.cmap c1).c_hlink }

/-- The entry has no block any more. -/
def clear (c1 : ℕ) (s : Core V) : Core V :=
  s.set c1 fun c => { c with c_vp := none, c_blkno := 0, c_hlink := 0 }

/-- The entry has the block `bn` of `vp`. -/
def Core.has (s : Core V) (vp : V) (bn : ℕ) (c : ℕ) : Bool :=
  (s.cmap c).c_blkno == bn && (s.cmap c).c_vp == some vp

/-- `mfind`. -/
def mfind (s : Core V) (vp : V) (bn : ℕ) : Option ℕ := (find m s (s.has vp bn) (CMHASH bn)).map Prod.snd

/-- `mhash`: the block number has 24 bits in the entry. -/
def mhash (c : ℕ) (vp : V) (bn : ℕ) (s : Core V) : Core V :=
  let i := CMHASH bn
  let s' := s.set c fun e => { e with c_hlink := s.cmhash i, c_blkno := bn % 2 ^ 24, c_vp := some vp }
  { s' with
    cmhash := update s.cmhash i c
    v_count := update s.v_count vp (s.v_count vp + 1)
    held := update s.held vp (s.held vp + 1) }

/-- `munhash`, up to `VN_RELE`. -/
def munhash (vp : V) (bn : ℕ) (s : Core V) : Out V F :=
  match find m s (s.has vp bn) (CMHASH bn) with
  | none => .panic "munhash"
  | some p =>
    let s := unlink s (CMHASH bn) p
    if (mfind m s vp bn).isSome then .panic "munhash mfind" else .rele vp (.munhash p.2) s

/-! ### `memall` -/

/-- What `memall` does with a frame in the end. -/
def frame (type : Kind) (c : ℕ) (s : Core V) : Option (Core V) :=
  let s := s.set c fun e => { e with c_free := false, c_gone := false }
  if (s.cmap c).c_intrans || (s.cmap c).c_want then none
  else some (s.set c fun e => { e with c_lock := true, c_type := type })

/-- The loop of `memall`, for the clusters that are still to be found, up to `VN_RELE`. -/
def memallLoop (type : Kind) : ℕ → List ℕ → Core V → Out V F
  | 0, pfs, s => .done pfs s
  | clusters + 1, pfs, s =>
    let c := (s.cmap CMHEAD).c_next
    let next := (s.cmap c).c_next
    let s := { s with freemem := s.freemem - CLSIZE }
    let s := s.set CMHEAD fun e => { e with c_next := next }
    let s := s.set next fun e => { e with c_prev := CMHEAD }
    if (s.cmap c).c_free = false then .panic "dup mem alloc"
    else if m.maxfree < m.cmtopg c then .panic "bad mem alloc"
    else if (s.cmap c).c_blkno ≠ 0 then
      let j := CMHASH (s.cmap c).c_blkno
      match find m s (· == c) j, (s.cmap c).c_vp with
      | none, _ => .panic "memall ecmap"
      | some _, none => .panic "segmentation fault"
      | some p, some vp =>
        let s := unlink s j p
        if (mfind m s vp (s.cmap c).c_blkno).isSome then .panic "memall mfind"
        else .rele vp (.memall type clusters pfs c) s
    else
      match frame type c s with
      | none => .panic "memall intrans|want"
      | some s => memallLoop type clusters (pfs ++ [m.cmtopg c]) s

/-- `memall`. -/
def memall (size : ℕ) (type : Kind) (s : Core V) : Out V F :=
  if size % CLSIZE ≠ 0 then .panic "memall"
  else if s.freemem < size then .done [] s
  else memallLoop m type (size / CLSIZE) [] s

/-! ### Purging -/

/-- The entry has a block of `vp`. -/
def Core.ofVnode (s : Core V) (vp : V) (c : ℕ) : Bool := (s.cmap c).c_vp == some vp

/-- The entry has a block of a vnode of `vfsp`. -/
def Core.ofVfs (s : Core V) (vfsp : F) (c : ℕ) : Bool :=
  match (s.cmap c).c_vp with
  | none => false
  | some vp => m.v_vfsp vp == vfsp

/-- The blocks of `vp` are taken off one chain, and counted. -/
def mpurgeChain (vp : V) (i : ℕ) : ℕ → ℕ → Core V → ℕ × Core V
  | 0, j, s => (j, s)
  | fuel + 1, j, s =>
    match find m s (s.ofVnode vp) i with
    | none => (j, s)
    | some p => mpurgeChain vp i fuel (j + 1) (clear p.2 (unlink s i p))

/-- `while (j--) VN_RELE(vp);`. -/
def mpurgeRele (vp : V) (j : ℕ) (s : Core V) : Out V F :=
  match j with
  | 0 => .done [] s
  | j + 1 => .rele vp (.mpurge vp j) s

/-- `mpurge`, up to `VN_RELE`. -/
def mpurge (vp : V) (s : Core V) : Out V F :=
  let p := (List.range CMHSIZ).foldl (fun p i => mpurgeChain m vp i (m.ecmx + 1) p.1 p.2) (0, s)
  mpurgeRele vp p.1 p.2

/-- `mpurgevfs`, up to `VN_RELE`. -/
def mpurgevfs (vfsp : F) (s : Core V) : Out V F :=
  match (List.range CMHSIZ).findSome? fun i => (find m s (s.ofVfs m vfsp) i).map fun p => (i, p) with
  | none => .done [] s
  | some (i, p) =>
    let s := unlink s i p
    match (s.cmap p.2).c_vp with
    | none => .panic "segmentation fault"
    | some vp => .rele vp (.mpurgevfs vfsp p.2) s

/-! ### After `VN_RELE` -/

/-- What is left of a call goes on. -/
def resume (s : Core V) : Cont V F → Out V F
  | .memall type clusters pfs c =>
    match frame type c (clear c s) with
    | none => .panic "memall intrans|want"
    | some s => memallLoop m type clusters (pfs ++ [m.cmtopg c]) s
  | .munhash c => .done [] (clear c s)
  | .mpurge vp j => mpurgeRele vp j s
  | .mpurgevfs vfsp c => mpurgevfs m vfsp (clear c s)

/-! ### Runs -/

/-- The calls under way: the one that is about to give a vnode back, and those that sleep. After a panic
    nothing happens any more. -/
structure State (V F : Type*) where
  core : Core V
  running : Option (V × Cont V F)
  asleep : List (Cont V F)
  panic : Option String

/-- What may happen: a call, `VN_RELE`, the end of a sleep, and what other code does to the holds of a vnode
    and the flags of an entry. -/
inductive Act (V F : Type*)
  | memall (size : ℕ) (type : Kind)
  | memfree (detach : Bool) (pfs : List ℕ)
  | munlink (c : ℕ)
  | mhash (c : ℕ) (vp : V) (bn : ℕ)
  | munhash (vp : V) (bn : ℕ)
  | mpurge (vp : V)
  | mpurgevfs (vfsp : F)
  | rele (sleeps : Bool)
  | wakeup (n : ℕ)
  | hold (vp : V) (v_count : ℕ)
  | flags (c : ℕ) (lock want intrans : Bool)

/-- A hold is given back. -/
def giveBack (vp : V) (n : ℕ) (s : Core V) : Core V :=
  { s with
    v_count := update s.v_count vp (s.v_count vp - n)
    held := update s.held vp (s.held vp - n) }

/-- The state when a call has got as far as it does. -/
def State.after (s : State V F) (asleep : List (Cont V F)) : Out V F → State V F
  | .done _ core => ⟨core, none, asleep, none⟩
  | .rele vp k core => ⟨core, some (vp, k), asleep, none⟩
  | .panic message => ⟨s.core, none, asleep, some message⟩

/-- A step. Callers of `munlink`, `mhash` and `munhash` look before they call: `munlink` is for a frame that is
    free, `mhash` for a block that is not there yet and an entry without one, `munhash` for one that is. Other
    code does not give back the holds of `mhash`. -/
def exec (s : State V F) (a : Act V F) : Option (State V F) :=
  if s.panic.isSome then none
  else
    match s.running, a with
    | some (vp, k), .rele sleeps =>
      if s.core.v_count vp = 0 then some { s with running := none, panic := some "vn_rele" }
      else
        let core := giveBack vp 1 s.core
        if sleeps then
          if core.v_count vp = 0 then some ⟨core, none, s.asleep ++ [k], none⟩ else none
        else some (s.after s.asleep (resume m core k))
    | some _, _ => none
    | none, .memall size type => some (s.after s.asleep (memall m size type s.core))
    | none, .memfree detach pfs => some (s.after s.asleep (memfree m detach pfs s.core))
    | none, .munlink c => if (s.core.cmap c).c_free then some { s with core := munlink c s.core } else none
    | none, .mhash c vp bn =>
      if 0 < c ∧ c < m.ecmx ∧ (s.core.cmap c).c_blkno = 0 ∧ 0 < bn ∧ bn < 2 ^ 24 ∧ mfind m s.core vp bn = none then
        some { s with core := mhash c vp bn s.core }
      else none
    | none, .munhash vp bn =>
      if (mfind m s.core vp bn).isSome then some (s.after s.asleep (munhash m vp bn s.core)) else none
    | none, .mpurge vp => some (s.after s.asleep (mpurge m vp s.core))
    | none, .mpurgevfs vfsp => some (s.after s.asleep (mpurgevfs m vfsp s.core))
    | none, .rele _ => none
    | none, .wakeup n =>
      match s.asleep[n]? with
      | none => none
      | some k => some (s.after (s.asleep.eraseIdx n) (resume m s.core k))
    | none, .hold vp v_count =>
      if s.core.held vp ≤ v_count then
        some { s with core := { s.core with v_count := update s.core.v_count vp v_count } }
      else none
    | none, .flags c lock want intrans =>
      some { s with core := s.core.set c fun e => { e with c_lock := lock, c_want := want, c_intrans := intrans } }

end Calls

/-! ### `meminit` -/

/-- A number of pages is rounded up to clusters. -/
def clrnd (i : ℕ) : ℕ := (i + (CLSIZE - 1)) / CLSIZE * CLSIZE

section Meminit

variable {V F : Type*} (first last ncmap : ℕ) (v_vfsp : V → F)

/-- The memory from page `first` to page `last`, with a core map of `ncmap` entries. -/
def machine : Machine V F where
  firstfree := clrnd first
  maxfree := clrnd (last - (CLSIZE - 1))
  ecmx := ncmap
  v_vfsp := v_vfsp

/-- The clusters that are free in the beginning. -/
def Machine.frames (m : Machine V F) : ℕ := min ((m.maxfree - m.firstfree) / CLSIZE) m.ecmx

/-- The core map that `meminit` makes of one that is all zero. -/
def meminit (m : Machine V F) (v_count : V → ℕ) : Core V where
  cmap := fun i =>
    { c_next := if i < m.frames then i + 1 else CMHEAD
      c_prev := if i = CMHEAD then m.frames else if i ≤ m.frames then i - 1 else 0
      c_hlink := 0
      c_lock := false
      c_want := false
      c_intrans := false
      c_free := decide (0 < i ∧ i ≤ m.frames)
      c_gone := decide (0 < i ∧ i ≤ m.frames)
      c_type := .CSYS
      c_blkno := 0
      c_vp := none }
  cmhash := fun _ => m.ecmx
  freemem := m.frames * CLSIZE
  v_count := v_count
  held := fun _ => 0

/-- The system, from the end of `meminit` on. -/
def system [DecidableEq V] [DecidableEq F] (m : Machine V F) : System (State V F) (Act V F) :=
  .ofExec {s | ∃ v_count, s = ⟨meminit m v_count, none, [], none⟩} (exec m)

end Meminit

end Uwisc.Vm
