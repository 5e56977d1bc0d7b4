import Uwisc.Netinet.Tcp.Var

/-!
# TCP reassembly

`tcp_reass` of `sys/netinet/tcp_input.c`. The sequencing queue is the list of
its segments, in order; `m_adj` and `sbappend` act on the bytes of a chain.
-/

namespace Uwisc.Tcp

/-- The segment without its first `i` bytes: `m_adj`, and the header adjusted. -/
def Segment.trimFront (q : Segment) (i : ℤ) : Segment :=
  { q with ti_seq := q.ti_seq + BitVec.ofInt 32 i, ti_len := q.ti_len - i.toNat,
           data := q.data.drop i.toNat }

/-- While we overlap succeeding segments trim them or, if they are completely
    covered, dequeue them. -/
def trimSucc (ti : Segment) : List Segment → List Segment
  | [] => []
  | q :: rest =>
    let i := seqDiff (ti.ti_seq + BitVec.ofNat 32 ti.ti_len) q.ti_seq
    if i ≤ 0 then q :: rest
    else if i < q.ti_len then q.trimFront i :: rest
    else trimSucc ti rest

/-- Sticks the segment in its place, or drops it (`none`) if the preceding
    segment provides all of its data. -/
def enqueue (ti : Segment) (seg : List Segment) : Option (List Segment) :=
  let pre := seg.takeWhile fun q => ¬seqGt q.ti_seq ti.ti_seq
  let suf := seg.dropWhile fun q => ¬seqGt q.ti_seq ti.ti_seq
  match pre.getLast? with
  | none => some (ti :: trimSucc ti suf)
  | some q =>
    let i := seqDiff (q.ti_seq + BitVec.ofNat 32 q.ti_len) ti.ti_seq
    if 0 < i then
      if ti.ti_len ≤ i then none
      else some (pre ++ ti.trimFront i :: trimSucc (ti.trimFront i) suf)
    else some (pre ++ ti :: trimSucc ti suf)

/-- The loop of `present`: removes segments from the queue while they start at
    `rcv_nxt`, appending their data unless the user receives no more. The flag is
    `TH_FIN` of the last one. -/
def presentLoop (so : Socket) (rcv_nxt : Seq) (flags : Bool) :
    List Segment → Socket × Seq × Bool × List Segment
  | [] => (so, rcv_nxt, flags, [])
  | ti :: rest =>
    if ti.ti_seq = rcv_nxt then
      presentLoop (if so.cantrcvmore then so else { so with so_rcv := so.so_rcv ++ ti.data })
        (rcv_nxt + BitVec.ofNat 32 ti.ti_len) ti.ti_flags.fin rest
    else (so, rcv_nxt, flags, ti :: rest)

/-- Presents data to the user, advancing `rcv_nxt` through completed sequence space. -/
def present (tp : Tcpcb) (so : Socket) : Tcpcb × Socket × Bool :=
  if ¬tp.t_state.haveRcvdSyn then (tp, so, false)
  else
    match tp.seg with
    | [] => (tp, so, false)
    | ti :: _ =>
      if ti.ti_seq ≠ tp.rcv_nxt then (tp, so, false)
      else if tp.t_state = .synReceived ∧ ti.ti_len ≠ 0 then (tp, so, false)
      else
        let r := presentLoop so tp.rcv_nxt false tp.seg
        ({ tp with rcv_nxt := r.2.1, seg := r.2.2.2 }, r.1, r.2.2.1)

/-- Inserts the segment `ti` into the sequencing queue of `tp`; with no segment,
    forces pre-`ESTABLISHED` data up to the user. Returns whether the reassembly
    now includes a FIN. -/
def tcpReass (tp : Tcpcb) (so : Socket) : Option Segment → Tcpcb × Socket × Bool
  | none => present tp so
  | some ti =>
    match enqueue ti tp.seg with
    | none => (tp, so, false)
    | some seg => present { tp with seg := seg } so

/-!
### TCP reassembly inline

The macro `TCP_REASS` of `sys/netinet/tcp_input.c`, which does the common case of `tcp_reass` inline: the
segment is the next to be received on an established connection, and the queue is empty.

The socket may be one whose user receives no more (`sorflush`), of which only `tcp_reass` takes account.

* `tcpReass_inlined`: what `tcp_reass` does in the common case;
* `reassMacro_iff`: the macro does the same if and only if the user still receives or there is no data.
-/

/-- The condition of the macro. -/
abbrev Inlined (tp : Tcpcb) (ti : Segment) : Prop :=
  ti.ti_seq = tp.rcv_nxt ∧ tp.seg = [] ∧ tp.t_state = .established

/-- The branch of the macro in that case. -/
def inlineReass (tp : Tcpcb) (so : Socket) (ti : Segment) : Tcpcb × Socket × Bool :=
  ({ tp with rcv_nxt := tp.rcv_nxt + BitVec.ofNat 32 ti.ti_len },
    { so with so_rcv := so.so_rcv ++ ti.data }, ti.ti_flags.fin)

/-- `TCP_REASS`. -/
def reassMacro (tp : Tcpcb) (so : Socket) (ti : Segment) : Tcpcb × Socket × Bool :=
  if Inlined tp ti then inlineReass tp so ti else tcpReass tp so (some ti)

/-- `sorflush`, of a socket that is shut down for receiving: nothing is left in the buffer, nor of its size. -/
def sorflush (so : Socket) : Socket := { so with cantrcvmore := true, so_rcv := [], rcv_hiwat := 0 }

/-- `rcv_nxt`, the flags, the queue and the contents of `so_rcv` are the same. -/
structure Agree (p q : Tcpcb × Socket × Bool) : Prop where
  rcv_nxt : p.1.rcv_nxt = q.1.rcv_nxt
  flags : p.2.2 = q.2.2
  seg : p.1.seg = q.1.seg
  so_rcv : p.2.1.so_rcv = q.2.1.so_rcv

variable {tp : Tcpcb} {so : Socket} {ti : Segment}

/-- The segment is linked into the queue and removed from it again. -/
theorem tcpReass_inlined (h : Inlined tp ti) :
    tcpReass tp so (some ti) = ({ tp with rcv_nxt := tp.rcv_nxt + BitVec.ofNat 32 ti.ti_len },
      if so.cantrcvmore then so else { so with so_rcv := so.so_rcv ++ ti.data }, ti.ti_flags.fin) := by
  obtain ⟨hseq, hseg, hstt⟩ := h
  -- no segment precedes this one, and none follows
  have henq : enqueue ti tp.seg = some [ti] := by
    rw [hseg]
    rfl
  have hloop : presentLoop so tp.rcv_nxt false [ti] =
      (if so.cantrcvmore then so else { so with so_rcv := so.so_rcv ++ ti.data },
        tp.rcv_nxt + BitVec.ofNat 32 ti.ti_len, ti.ti_flags.fin, []) := by
    rw [presentLoop, if_pos hseq]
    rfl
  have hhave : tp.t_state.haveRcvdSyn := by
    rw [hstt]
    decide
  have hsyn : ¬(tp.t_state = .synReceived ∧ ti.ti_len ≠ 0) := fun hs => by
    rw [hstt] at hs
    exact nomatch hs.1
  simp only [tcpReass, henq, present]
  rw [if_neg (not_not.2 hhave), if_neg (not_not.2 hseq), if_neg hsyn, hloop, hseg]

/-- The macro leaves all as `tcp_reass` does, once the data is kept. -/
theorem reassMacro_eq (hkept : Inlined tp ti → so.cantrcvmore = false ∨ ti.data = []) :
    reassMacro tp so ti = tcpReass tp so (some ti) := by
  rw [reassMacro]
  split
  case isTrue h =>
    rw [tcpReass_inlined h, inlineReass]
    rcases hkept h with hrcv | hdata
    · rw [if_neg (by rw [hrcv]; decide)]
    · rw [hdata, List.append_nil, ite_self]
  case isFalse => rfl

/-- In the common case the macro and `tcp_reass` leave the same if and only if the user may still receive or
    the segment has no data. -/
theorem reassMacro_iff (h : Inlined tp ti) : Agree (reassMacro tp so ti) (tcpReass tp so (some ti)) ↔
    so.cantrcvmore = false ∨ ti.data = [] := by
  constructor
  · intro hagr
    have hrcv := hagr.so_rcv
    rw [reassMacro, if_pos h, tcpReass_inlined h, inlineReass] at hrcv
    cases hmore : so.cantrcvmore with
    | false => exact .inl rfl
    | true =>
      -- the macro appended the data, which tcp_reass did not
      rw [hmore, if_pos rfl] at hrcv
      exact .inr (List.append_right_eq_self.1 hrcv)
  · intro hkept
    rw [reassMacro_eq fun _ => hkept]
    exact ⟨rfl, rfl, rfl, rfl⟩

/-- A connection that is established. -/
def estab : Tcpcb := { t_state := .established }

/-- The next byte. -/
def nextByte : Segment := { ti_seq := 0, ti_len := 1, data := [7] }

/-- The user receives. -/
theorem reassMacro_open : Agree (reassMacro estab {} nextByte) (tcpReass estab {} (some nextByte)) ↔
    ({} : Socket).cantrcvmore = false ∨ nextByte.data = [] :=
  reassMacro_iff ⟨rfl, rfl, rfl⟩

/-- After `shutdown (s, 0)` the byte is put in the buffer of the user all the same. -/
theorem reassMacro_shutdown : Inlined estab nextByte ∧
    ¬ Agree (reassMacro estab (sorflush {}) nextByte) (tcpReass estab (sorflush {}) (some nextByte)) :=
  ⟨⟨rfl, rfl, rfl⟩, fun h => absurd h.so_rcv (by decide)⟩

end Uwisc.Tcp
