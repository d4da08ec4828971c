import Mathlib.Order.Basic
import Reading.Kern.Socket
import Reading.Lib.Serial

/-!
# The TCP control block

Sequence numbers with the comparisons of `tcp_seq.h`, the states of `tcp_fsm.h`, the control block of `tcp_var.h` and the segments that travel between two of them. Sequence numbers and window sizes are 32-bit words; `short` and `u_short` fields are integers that the functions reduce where they store them.
-/

namespace Reading.Tcp

open Reading.Kern
open Reading.Lib

abbrev TcpSeq := BitVec 32

/-- The difference of two sequence numbers as an `int`, by which they are compared. -/
def seqDiff (a b : TcpSeq) : Int := (a - b).toInt

def seqLT (a b : TcpSeq) : Prop := seqDiff a b < 0
def seqLEQ (a b : TcpSeq) : Prop := seqDiff a b ≤ 0
def seqGT (a b : TcpSeq) : Prop := seqDiff a b > 0
def seqGEQ (a b : TcpSeq) : Prop := seqDiff a b ≥ 0

instance (a b : TcpSeq) : Decidable (seqLT a b) := inferInstanceAs (Decidable (_ < _))
instance (a b : TcpSeq) : Decidable (seqLEQ a b) := inferInstanceAs (Decidable (_ ≤ _))
instance (a b : TcpSeq) : Decidable (seqGT a b) := inferInstanceAs (Decidable (_ > _))
instance (a b : TcpSeq) : Decidable (seqGEQ a b) := inferInstanceAs (Decidable (_ ≥ _))

@[simp] theorem seqDiff_self (a : TcpSeq) : seqDiff a a = 0 := by
  simp [seqDiff]

theorem not_seqLT_self (a : TcpSeq) : ¬ seqLT a a := by
  rw [seqLT, seqDiff_self]
  exact lt_irrefl _

theorem not_seqLT {a b : TcpSeq} : ¬ seqLT a b ↔ seqGEQ a b := by
  unfold seqLT seqGEQ
  omega

theorem not_seqLEQ {a b : TcpSeq} : ¬ seqLEQ a b ↔ seqGT a b := by
  unfold seqLEQ seqGT
  omega

theorem seqDiff_bmod (base : TcpSeq) (a b : Int) :
    seqDiff (base + BitVec.ofInt 32 a) (base + BitVec.ofInt 32 b) = (a - b).bmod (2 ^ 32) :=
  Serial.toInt_sub base a b

/-- Positions relative to a common base, less than `2 ^ 31` apart. -/
theorem seqDiff_at (base : TcpSeq) {a b : Int} (hlo : -2 ^ 31 ≤ a - b) (hhi : a - b < 2 ^ 31) :
    seqDiff (base + BitVec.ofInt 32 a) (base + BitVec.ofInt 32 b) = a - b :=
  Serial.toInt_sub_of_near base (by omega) (by omega)

/-- Octets of a stream that starts at a common base. -/
theorem seqDiff_ofNat (base : TcpSeq) {a b : Nat} (hab : a < b + 2 ^ 31) (hba : b ≤ a + 2 ^ 31) :
    seqDiff (base + BitVec.ofNat 32 a) (base + BitVec.ofNat 32 b) = (a : Int) - b := by
  rw [← BitVec.ofInt_natCast, ← BitVec.ofInt_natCast]
  exact seqDiff_at base (by omega) (by omega)

/-- Storing into a `short`. -/
def toShort (x : Int) : Int := x.bmod 65536

inductive TcpState where
  | closed
  | listen
  | synSent
  | synReceived
  | established
  | closeWait
  | finWait1
  | closing
  | lastAck
  | finWait2
  | timeWait
  deriving DecidableEq, Repr

namespace TcpState

/-- The numbers `tcp_fsm.h` orders the states by. -/
def code : TcpState → Nat
  | closed => 0
  | listen => 1
  | synSent => 2
  | synReceived => 3
  | established => 4
  | closeWait => 5
  | finWait1 => 6
  | closing => 7
  | lastAck => 8
  | finWait2 => 9
  | timeWait => 10

/-- `TCPS_HAVERCVDSYN`. -/
def haveRcvdSyn (s : TcpState) : Prop := s.code ≥ 3

/-- `TCPS_HAVERCVDFIN`. -/
def haveRcvdFin (s : TcpState) : Prop := s.code ≥ 10

instance (s : TcpState) : Decidable s.haveRcvdSyn := inferInstanceAs (Decidable (_ ≥ _))
instance (s : TcpState) : Decidable s.haveRcvdFin := inferInstanceAs (Decidable (_ ≥ _))

end TcpState

structure Flags where
  fin : Bool := false
  syn : Bool := false
  rst : Bool := false
  push : Bool := false
  ack : Bool := false
  urg : Bool := false
  deriving DecidableEq, Repr

/-- `tcp_outflags`. -/
def tcpOutflags : TcpState → Flags
  | .closed => { rst := true, ack := true }
  | .listen => {}
  | .synSent => { syn := true }
  | .synReceived => { syn := true, ack := true }
  | .established => { ack := true }
  | .closeWait => { ack := true }
  | .finWait1 => { fin := true, ack := true }
  | .closing => { fin := true, ack := true }
  | .lastAck => { fin := true, ack := true }
  | .finWait2 => { ack := true }
  | .timeWait => { ack := true }

/-- An option that `tcp_dooptions` knows and that has the length it asks for. -/
inductive TcpOption where
  | maxseg (mss : BitVec 16)
  | window (shift : BitVec 8)
  | timestamp (val ecr : U32)
  deriving DecidableEq, Repr

/-- A segment as `tcp_input` works on it: the fields of `struct tcpiphdr` it changes, and the data. -/
structure Seg where
  tiSeq : TcpSeq
  tiAck : TcpSeq := 0
  tiFlags : Flags := {}
  tiWin : BitVec 16 := 0
  tiUrp : Nat := 0
  tiLen : Nat := 0
  options : List TcpOption := []
  m : Mbuf := { chain := [] }
  deriving DecidableEq

/-- The sequence number after the data of a segment. -/
def Seg.after (ti : Seg) : TcpSeq := ti.tiSeq + BitVec.ofNat 32 ti.tiLen

structure Tcpcb where
  /-- The reassembly queue from `seg_next` on. -/
  segs : List Seg := []
  tState : TcpState := .closed
  tRexmt : Int := 0
  tPersist : Int := 0
  tKeep : Int := 0
  t2msl : Int := 0
  tRxtshift : Int := 0
  tRxtcur : Int := 0
  tDupacks : Int := 0
  tMaxseg : Nat := 0
  tForce : Bool := false
  tfAcknow : Bool := false
  tfDelack : Bool := false
  tfNodelay : Bool := false
  tfNoopt : Bool := false
  tfSentfin : Bool := false
  tfReqScale : Bool := false
  tfRcvdScale : Bool := false
  tfReqTstmp : Bool := false
  tfRcvdTstmp : Bool := false
  tTemplate : Bool := false
  sndUna : TcpSeq := 0
  sndNxt : TcpSeq := 0
  sndUp : TcpSeq := 0
  sndWl1 : TcpSeq := 0
  sndWl2 : TcpSeq := 0
  iss : TcpSeq := 0
  sndWnd : U32 := 0
  rcvWnd : U32 := 0
  rcvNxt : TcpSeq := 0
  rcvUp : TcpSeq := 0
  irs : TcpSeq := 0
  rcvAdv : TcpSeq := 0
  sndMax : TcpSeq := 0
  sndCwnd : U32 := 0
  sndSsthresh : U32 := 0
  tIdle : Nat := 0
  tRtt : Int := 0
  tRtseq : TcpSeq := 0
  tSrtt : Int := 0
  tRttvar : Int := 0
  tRttmin : Nat := 0
  maxSndwnd : U32 := 0
  tcpoobHavedata : Bool := false
  tcpoobHaddata : Bool := false
  tIobc : Byte := 0
  tSofterror : Int := 0
  sndScale : Nat := 0
  rcvScale : Nat := 0
  requestRScale : Nat := 0
  requestedSScale : Nat := 0
  tsRecent : U32 := 0
  tsRecentAge : U32 := 0
  lastAckSent : TcpSeq := 0
  deriving DecidableEq

/-! ### Constants -/

def tcpMaxwin : U32 := 65535
def tcpMaxWinshift : Nat := 14
def prSlowhz : Int := 2
def tcptvMsl : Int := 30 * prSlowhz
def tcptvSrttdflt : Int := 3 * prSlowhz
def tcptvPersmin : Int := 5 * prSlowhz
def tcptvPersmax : Int := 60 * prSlowhz
def tcptvKeepInit : Int := 75 * prSlowhz
def tcptvMin : Int := 1 * prSlowhz
def tcptvRexmtmax : Int := 64 * prSlowhz
def tcpKeepidle : Int := 120 * 60 * prSlowhz
def tcpKeepintvl : Int := 75 * prSlowhz
def tcpKeepcnt : Int := 8
def tcpMaxidle : Int := tcpKeepcnt * tcpKeepintvl
def tcpMaxpersistidle : Int := 120 * 60 * prSlowhz
def tcpMaxrxtshift : Int := 12
def tcprexmtthresh : Int := 3
def tcpMssdflt : Nat := 512
def tcpTotbackoff : Int := 511
def tcpPawsIdle : Int := 24 * 24 * 60 * 60 * prSlowhz

/-- `tcp_backoff[]`. -/
def tcpBackoff (shift : Int) : Int := if shift < 6 then 2 ^ shift.toNat else 64

/-- `TCPT_RANGESET`. -/
def tcptRangeset (value tvmin tvmax : Int) : Int :=
  if value < tvmin then tvmin else if value > tvmax then tvmax else value

namespace Tcpcb

/-- `TCP_REXMTVAL`. -/
def rexmtval (tp : Tcpcb) : Int := tp.tSrtt / 8 + tp.tRttvar

/-- `tcp_sendseqinit`. -/
def sendseqinit (tp : Tcpcb) : Tcpcb :=
  { tp with sndUna := tp.iss, sndNxt := tp.iss, sndMax := tp.iss, sndUp := tp.iss }

/-- `tcp_rcvseqinit`. -/
def rcvseqinit (tp : Tcpcb) : Tcpcb := { tp with rcvAdv := tp.irs + 1, rcvNxt := tp.irs + 1 }

/-- `tcp_canceltimers`. -/
def canceltimers (tp : Tcpcb) : Tcpcb := { tp with tRexmt := 0, tPersist := 0, tKeep := 0, t2msl := 0 }

/-- `tcp_quench`. -/
def quench (tp : Tcpcb) : Tcpcb := { tp with sndCwnd := BitVec.ofNat 32 tp.tMaxseg }

/-- `tcp_newtcpcb`. -/
def newtcpcb : Tcpcb :=
  { tMaxseg := tcpMssdflt, tfReqScale := true, tfReqTstmp := true
    tRttvar := toShort (tcptvSrttdflt / prSlowhz * prSlowhz * 4)
    tRttmin := tcptvMin.toNat
    tRxtcur := toShort (tcptRangeset (tcptvSrttdflt * 4 / 2) tcptvMin tcptvRexmtmax)
    sndCwnd := tcpMaxwin <<< tcpMaxWinshift
    sndSsthresh := tcpMaxwin <<< tcpMaxWinshift }

/-- The new `t_srtt` and `t_rttvar` for a measured round-trip time. -/
def smoothed (srtt rttvar rtt : Int) : Int × Int :=
  if srtt ≠ 0 then
    let delta := toShort (rtt - 1 - srtt / 8)
    let srtt := toShort (srtt + delta)
    let delta := if delta < 0 then toShort (-delta) else delta
    let delta := toShort (delta - rttvar / 4)
    let rttvar := toShort (rttvar + delta)
    (if srtt ≤ 0 then 1 else srtt, if rttvar ≤ 0 then 1 else rttvar)
  else (toShort (rtt * 8), toShort (rtt * 2))

/-- `tcp_xmit_timer`: collect a new round-trip time estimate. -/
def xmitTimer (tp : Tcpcb) (rtt : Int) : Tcpcb :=
  let new := smoothed tp.tSrtt tp.tRttvar (toShort rtt)
  { tp with
    tSrtt := new.1, tRttvar := new.2, tRtt := 0, tRxtshift := 0
    -- TCP_REXMTVAL of the new estimates
    tRxtcur := tcptRangeset (toShort (new.1 / 8 + new.2)) tp.tRttmin tcptvRexmtmax
    tSofterror := 0 }

end Tcpcb

end Reading.Tcp
