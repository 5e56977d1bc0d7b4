import Uwisc.Lib.Wrap

/-!
# TCP: states, segments and control blocks

The data of the TCP of `sys/netinet`: sequence numbers and their comparison
(`tcp_seq.h`), the states of a connection (`tcp_fsm.h`), the timer constants
(`tcp_timer.h`), the control block (`tcp_var.h`), a segment as its handling
sees it (`tcpip.h`) and what TCP uses of a socket (`socketvar.h`).

Sequence numbers are words of 32 bits. The fields that are `short` or `u_short`
are the integers they hold. The smoothed round trip time, a `float` in the
source, is an exact rational: all that is made of it are timer values, forced
into a range.
-/

namespace Uwisc.Tcp

open Lib

/-! ### Sequence numbers -/

/-- A sequence number (`tcp_seq`). -/
abbrev Seq := BitVec 32

/-- The signed difference `(int)(a - b)`. -/
def seqDiff (a b : Seq) : ℤ := (a - b).toInt

/-- `SEQ_LT`. -/
abbrev seqLt (a b : Seq) : Prop := seqDiff a b < 0
/-- `SEQ_LEQ`. -/
abbrev seqLeq (a b : Seq) : Prop := seqDiff a b ≤ 0
/-- `SEQ_GT`. -/
abbrev seqGt (a b : Seq) : Prop := 0 < seqDiff a b
/-- `SEQ_GEQ`. -/
abbrev seqGeq (a b : Seq) : Prop := 0 ≤ seqDiff a b

/-! ### States -/

/-- The states of a connection, in the order of `tcp_fsm.h`. -/
inductive TcpState
  | closed
  | listen
  | synSent
  | synReceived
  | established
  | closeWait
  | finWait1
  | closing
  | lastAck
  | finWait2
  | timeWait
  deriving DecidableEq, Repr

/-- The number of a state (`TCPS_CLOSED` and so on). -/
def TcpState.num : TcpState → ℕ
  | closed => 0
  | listen => 1
  | synSent => 2
  | synReceived => 3
  | established => 4
  | closeWait => 5
  | finWait1 => 6
  | closing => 7
  | lastAck => 8
  | finWait2 => 9
  | timeWait => 10

/-- `TCPS_HAVERCVDSYN`. -/
abbrev TcpState.haveRcvdSyn (s : TcpState) : Prop := synReceived.num ≤ s.num

/-- `TCPS_HAVERCVDFIN`. -/
abbrev TcpState.haveRcvdFin (s : TcpState) : Prop := timeWait.num ≤ s.num

/-- The flags of a segment (`TH_FIN` and so on). -/
structure Flags where
  fin : Bool := false
  syn : Bool := false
  rst : Bool := false
  push : Bool := false
  ack : Bool := false
  urg : Bool := false
  deriving DecidableEq, Repr

/-- The flags used when sending segments, by state (`tcp_outflags`). -/
def outflags : TcpState → Flags
  | .closed => { rst := true, ack := true }
  | .listen => {}
  | .synSent => { syn := true }
  | .synReceived => { syn := true, ack := true }
  | .established | .closeWait => { ack := true }
  | .finWait1 | .closing | .lastAck => { fin := true, ack := true }
  | .finWait2 | .timeWait => { ack := true }

/-! ### Constants -/

def prSlowhz : ℤ := 2
def tcptvMsl : ℤ := 15 * prSlowhz
def tcptvSrttdflt : ℤ := 3 * prSlowhz
def tcptvKeep : ℤ := 45 * prSlowhz
def tcptvPersmin : ℤ := 5 * prSlowhz
def tcptvMaxidle : ℤ := 8 * tcptvKeep
def tcptvMin : ℤ := 1 * prSlowhz
def tcptvMax : ℤ := 30 * prSlowhz
def tcpMaxrxtshift : ℤ := 12
def tcpAlpha : ℚ := 9 / 10
def tcpBeta : ℚ := 2
def tcpMss : ℤ := 512
def sbMax : ℤ := 65535

/-- The value `TCPT_RANGESET` leaves in a timer. -/
def rangeset (value tvmin tvmax : ℤ) : ℤ :=
  let tv := wrap 16 value
  let tv := if tv < tvmin then tvmin else tv
  if tvmax < tv then tvmax else tv

/-! ### Segments, sockets and control blocks -/

/-- A segment (`struct tcpiphdr`, in host order and without options, and the data
    of the mbuf chain it is in). -/
structure Segment where
  ti_seq : Seq
  ti_ack : Seq := 0
  ti_len : ℕ
  ti_flags : Flags := {}
  ti_win : ℤ := 0
  ti_urp : ℤ := 0
  data : List UInt8
  deriving DecidableEq, Repr

/-- What TCP uses of a socket: the bytes in its buffers, their high water marks,
    and state and option bits. -/
structure Socket where
  so_snd : List UInt8 := []
  so_rcv : List UInt8 := []
  snd_hiwat : ℤ := 4096
  rcv_hiwat : ℤ := 4096
  nofdref : Bool := false
  cantsendmore : Bool := false
  cantrcvmore : Bool := false
  rcvatmark : Bool := false
  oobinline : Bool := false
  keepalive : Bool := false
  so_oobmark : ℤ := 0
  deriving DecidableEq, Repr

/-- `so_snd.sb_cc`. -/
def Socket.sndCc (so : Socket) : ℤ := so.so_snd.length

/-- `so_rcv.sb_cc`. -/
def Socket.rcvCc (so : Socket) : ℤ := so.so_rcv.length

/-- The bits of `t_flags`. -/
structure TFlags where
  acknow : Bool := false
  delack : Bool := false
  nodelay : Bool := false
  noopt : Bool := false
  sentfin : Bool := false
  deriving DecidableEq, Repr

/-- A control block (`struct tcpcb`). The timers `t_timer` are fields of their own. -/
structure Tcpcb where
  seg : List Segment := []
  t_state : TcpState := .closed
  t_rexmt : ℤ := 0
  t_persist : ℤ := 0
  t_keep : ℤ := 0
  t_2msl : ℤ := 0
  t_rxtshift : ℤ := 0
  t_maxseg : ℤ := tcpMss
  t_force : Bool := false
  t_flags : TFlags := {}
  snd_una : Seq := 0
  snd_nxt : Seq := 0
  snd_up : Seq := 0
  snd_wl1 : Seq := 0
  snd_wl2 : Seq := 0
  iss : Seq := 0
  snd_wnd : ℤ := 0
  rcv_wnd : ℤ := 0
  rcv_nxt : Seq := 0
  rcv_up : Seq := 0
  irs : Seq := 0
  rcv_adv : Seq := 0
  snd_max : Seq := 0
  snd_cwnd : ℤ := 4096
  t_idle : ℤ := 0
  t_rtt : ℤ := 0
  max_rcvd : ℤ := 0
  t_rtseq : Seq := 0
  t_srtt : ℚ := 0
  max_sndwnd : ℤ := 0
  oobHavedata : Bool := false
  oobHaddata : Bool := false
  t_iobc : UInt8 := 0
  deriving DecidableEq, Repr

/-- `tcp_rcvseqinit`. -/
def Tcpcb.rcvseqinit (tp : Tcpcb) : Tcpcb :=
  { tp with rcv_adv := tp.irs + 1, rcv_nxt := tp.irs + 1 }

/-- `tcp_sendseqinit`. -/
def Tcpcb.sendseqinit (tp : Tcpcb) : Tcpcb :=
  { tp with snd_una := tp.iss, snd_nxt := tp.iss, snd_max := tp.iss, snd_up := tp.iss }

/-- `tcp_canceltimers`. -/
def Tcpcb.canceltimers (tp : Tcpcb) : Tcpcb :=
  { tp with t_rexmt := 0, t_persist := 0, t_keep := 0, t_2msl := 0 }

end Uwisc.Tcp
