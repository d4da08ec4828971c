import Reading.Tcp.Basic

/-!
# TCP output

`tcp_output` and what it calls. A connection is a control block with its socket and the segments it has handed to IP so far; `gone` says that `tcp_close` has freed the control block, and `panicked` that the machine has stopped. What is decided outside TCP, the clock, the route, whether an mbuf can be had and what IP answers, is in an `Env`.

The loop of `tcp_output` goes round as long as a pass sets `sendalot`; `fuel` bounds the number of passes, and a state after fewer passes than the loop makes is a state in the middle of the call.
-/

namespace Reading.Tcp

open Reading.Kern

inductive Panic where
  | sbdrop
  | copyData
  | noTemplate
  | setPersist
  | pullOutOfBand
  deriving DecidableEq, Repr

structure Conn where
  tp : Tcpcb
  so : Socket
  sent : List Seg := []
  gone : Bool := false
  panicked : Option Panic := none
  deriving DecidableEq

def Conn.panic (c : Conn) (p : Panic) : Conn := { c with panicked := c.panicked <|> some p }

/-- What `tcp_mss` reads from a routing entry. -/
structure Route where
  ifMtu : Nat
  isLocal : Bool
  rmxMtu : Nat := 0
  rmxRtt : Nat := 0
  rmxRttvar : Nat := 0
  rmxLockRtt : Bool := false
  rmxSendpipe : Nat := 0
  rmxRecvpipe : Nat := 0
  rmxSsthresh : Nat := 0

/-- The answer of IP to one segment. -/
inductive IpError where
  | ok
  | enobufs
  | ehostunreach
  | other
  deriving DecidableEq

structure Env where
  /-- `tcp_now`. -/
  now : U32 := 0
  /-- `tcp_iss`, from which the next connection takes its initial sequence number. -/
  iss : TcpSeq := 0
  route : Option Route := none
  fuel : Nat := 0
  /-- No mbuf for the header or the data of a pass of `tcp_output`. -/
  noMbuf : Nat → Bool := fun _ => false
  ipOutput : Nat → IpError := fun _ => .ok
  /-- The mbuf space that `sbdrop` gives back. -/
  freed : U32 := 0

/-! ### The maximum segment size -/

/-- The segment size a route allows. -/
def routeMss (rt : Route) : U32 :=
  if rt.rmxMtu ≠ 0 then BitVec.ofNat 32 rt.rmxMtu - 40
  else
    let mss : U32 := BitVec.ofNat 32 rt.ifMtu - 40
    let mss := if mss.toInt > 2048 then mss &&& ~~~(2047 : U32) else mss
    if rt.isLocal then mss else umin mss (BitVec.ofNat 32 tcpMssdflt)

/-- `roundup`, with a division by zero left at zero. -/
def roundup (x y : U32) : U32 := (x + (y - 1)) / y * y

/-- A buffer size that is a multiple of the segment size, within `sb_max`. -/
def roundBuffer (bufsize mss : U32) : U32 :=
  let bufsize := roundup bufsize mss
  if bufsize > sbMax then sbMax else bufsize

/-- The initial round-trip estimates a route suggests, where none has been made yet. -/
def routeRtt (tp : Tcpcb) (rt : Route) : Tcpcb :=
  let suggests := tp.tSrtt = 0 ∧ rt.rmxRtt ≠ 0
  let rttmin := if suggests ∧ rt.rmxLockRtt then rt.rmxRtt / 500000 % 65536 else tp.tRttmin
  let srtt := if suggests then toShort (rt.rmxRtt / 62500) else tp.tSrtt
  let rttvar :=
    if suggests then
      if rt.rmxRttvar ≠ 0 then toShort (rt.rmxRttvar / 125000) else toShort (srtt * 4 / 8)
    else tp.tRttvar
  { tp with
    tRttmin := rttmin, tSrtt := srtt, tRttvar := rttvar
    tRxtcur := if suggests then
        tcptRangeset (toShort ((srtt / 4 + rttvar) / 2)) rttmin tcptvRexmtmax
      else tp.tRxtcur }

/-- `tcp_mss`: the segment size to use and to offer, with what it sets on the way. -/
def tcpMss (rt? : Option Route) (c : Conn) (offer : U32) : Conn × U32 :=
  match rt? with
  | none => (c, BitVec.ofNat 32 tcpMssdflt)
  | some rt =>
    let mss := routeMss rt
    let mss := if offer ≠ 0 then umin mss offer else mss
    let mss := umax mss 32
    let store := mss.toInt < c.tp.tMaxseg ∨ offer ≠ 0
    let sndsize := if rt.rmxSendpipe ≠ 0 then BitVec.ofNat 32 rt.rmxSendpipe else c.so.soSnd.sbHiwat
    let rcvsize := if rt.rmxRecvpipe ≠ 0 then BitVec.ofNat 32 rt.rmxRecvpipe else c.so.soRcv.sbHiwat
    let mss' := if store ∧ sndsize < mss then sndsize else mss
    let so := { c.so with
      soSnd := if store ∧ ¬ sndsize < mss then c.so.soSnd.sbreserve (roundBuffer sndsize mss)
        else c.so.soSnd
      soRcv := if store ∧ rcvsize > mss' then c.so.soRcv.sbreserve (roundBuffer rcvsize mss')
        else c.so.soRcv }
    let tp := { routeRtt c.tp rt with
      tMaxseg := if store then mss'.toNat % 65536 else c.tp.tMaxseg
      sndCwnd := mss'
      sndSsthresh := if rt.rmxSsthresh ≠ 0 then umax (2 * mss') (BitVec.ofNat 32 rt.rmxSsthresh)
        else c.tp.sndSsthresh }
    ({ c with tp := tp, so := so }, mss')

/-! ### Persisting -/

/-- `tcp_setpersist`. -/
def setpersist (c : Conn) : Conn :=
  let t := (c.tp.tSrtt / 4 + c.tp.tRttvar) / 2
  { c with
    panicked := if c.tp.tRexmt ≠ 0 then c.panicked <|> some .setPersist else c.panicked
    tp := { c.tp with
      tPersist := tcptRangeset (toShort (t * tcpBackoff c.tp.tRxtshift)) tcptvPersmin tcptvPersmax
      tRxtshift := if c.tp.tRxtshift < tcpMaxrxtshift then c.tp.tRxtshift + 1 else c.tp.tRxtshift } }

/-! ### One pass of `tcp_output` -/

/-- What a pass has decided before it asks whether to send. -/
structure OutPlan where
  off : Int
  flags : Flags
  len : Int
  sendalot : Bool

/-- The offset of `snd_nxt` in the send buffer. -/
def outOff (tp : Tcpcb) : Int := seqDiff tp.sndNxt tp.sndUna

/-- A forced output into a closed window. -/
def probing (tp : Tcpcb) : Prop := tp.tForce = true ∧ umin tp.sndWnd tp.sndCwnd = 0

instance (tp : Tcpcb) : Decidable (probing tp) := inferInstanceAs (Decidable (_ ∧ _))

/-- The window to send into, which a probe opens by one octet. -/
def outWin (tp : Tcpcb) : U32 := if probing tp then 1 else umin tp.sndWnd tp.sndCwnd

/-- The data the window admits beyond `snd_nxt`; negative if the window has shrunk, or a FIN is outstanding. -/
def outAvail (c : Conn) : Int :=
  (umin c.so.soSnd.sbCc (outWin c.tp) - BitVec.ofInt 32 (outOff c.tp)).toInt

/-- The window has been closed behind `snd_nxt`. -/
def shutBehind (c : Conn) : Prop := outAvail c < 0 ∧ outWin c.tp = 0

instance (c : Conn) : Decidable (shutBehind c) := inferInstanceAs (Decidable (_ ∧ _))

/-- The control block after the window has been looked at. -/
def outSettled (c : Conn) : Conn :=
  let transmit := c.tp.tForce = true ∧ umin c.tp.sndWnd c.tp.sndCwnd ≠ 0
  { c with tp := { c.tp with
    tPersist := if transmit then 0 else c.tp.tPersist
    tRxtshift := if transmit then 0 else c.tp.tRxtshift
    tRexmt := if shutBehind c then 0 else c.tp.tRexmt
    sndNxt := if shutBehind c then c.tp.sndUna else c.tp.sndNxt } }

def planLen (c : Conn) : Int := min (max (outAvail c) 0) c.tp.tMaxseg

/-- Data is left after this segment, so that a FIN has to wait. -/
def outEarly (c : Conn) : Prop :=
  seqLT ((outSettled c).tp.sndNxt + BitVec.ofInt 32 (planLen c)) (c.tp.sndUna + c.so.soSnd.sbCc) ∨
    (probing c.tp ∧ BitVec.ofInt 32 (outOff c.tp) < c.so.soSnd.sbCc)

instance (c : Conn) : Decidable (outEarly c) := inferInstanceAs (Decidable (_ ∨ _))

/-- From `again` to the computation of the length. -/
def outPlan (c : Conn) : Conn × OutPlan :=
  let flags := tcpOutflags c.tp.tState
  (outSettled c,
    { off := outOff c.tp
      flags := { flags with fin := flags.fin && !decide (outEarly c) }
      len := planLen c
      sendalot := decide (outAvail c > c.tp.tMaxseg) })

/-- The amount by which the advertised window could be moved. -/
def windowAdv (tp : Tcpcb) (win : Int) : Int :=
  (umin (BitVec.ofInt 32 win) (tcpMaxwin <<< tp.rcvScale) - (tp.rcvAdv - tp.rcvNxt)).toInt

/-- Whether a pass sends a segment. -/
def wantsSend (c : Conn) (idle : Bool) (plan : OutPlan) : Prop :=
  (plan.len ≠ 0 ∧
    (plan.len = c.tp.tMaxseg ∨
      ((idle = true ∨ c.tp.tfNodelay = true) ∧ BitVec.ofInt 32 (plan.len + plan.off) ≥ c.so.soSnd.sbCc) ∨
      c.tp.tForce = true ∨ plan.len ≥ c.tp.maxSndwnd.toNat / 2 ∨
      seqLT c.tp.sndNxt c.tp.sndMax)) ∨
  (c.so.soRcv.sbspace > 0 ∧
    (windowAdv c.tp c.so.soRcv.sbspace ≥ 2 * c.tp.tMaxseg ∨
      2 * windowAdv c.tp c.so.soRcv.sbspace ≥ c.so.soRcv.sbHiwat.toInt)) ∨
  c.tp.tfAcknow = true ∨ plan.flags.syn = true ∨ plan.flags.rst = true ∨
  seqGT c.tp.sndUp c.tp.sndUna ∨
  (plan.flags.fin = true ∧ (c.tp.tfSentfin = false ∨ c.tp.sndNxt = c.tp.sndUna))

instance (c : Conn) (idle : Bool) (plan : OutPlan) : Decidable (wantsSend c idle plan) :=
  inferInstanceAs (Decidable (_ ∨ _))

/-- The options of a segment, with the offer `tcp_mss` made for a SYN; their length is the second component. -/
def outOptions (env : Env) (tp : Tcpcb) (flags : Flags) (mss : U32) : List TcpOption × Nat :=
  let synOpts : List TcpOption × Nat :=
    if flags.syn ∧ ¬ tp.tfNoopt then
      let scale := tp.tfReqScale ∧ (¬ flags.ack ∨ tp.tfRcvdScale)
      (.maxseg (mss.truncate 16) :: (if scale then [.window (BitVec.ofNat 8 tp.requestRScale)] else []),
        if scale then 8 else 4)
    else ([], 0)
  if tp.tfReqTstmp ∧ ¬ tp.tfNoopt ∧ ¬ flags.rst ∧ ((flags.syn ∧ ¬ flags.ack) ∨ tp.tfRcvdTstmp) then
    (synOpts.1 ++ [TcpOption.timestamp env.now tp.tsRecent], synOpts.2 + 12)
  else synOpts

/-- The window a segment advertises, before it is scaled. -/
def outWindow (c : Conn) : Int :=
  let win := c.so.soRcv.sbspace
  let win := if win < (c.so.soRcv.sbHiwat.toNat / 4 : Nat) ∧ win < c.tp.tMaxseg then 0 else win
  let limit := (tcpMaxwin <<< c.tp.rcvScale).toInt
  let win := if win > limit then limit else win
  let adv := seqDiff c.tp.rcvAdv c.tp.rcvNxt
  if win < adv then adv else win

/-- The bytes `m_copydata` or `m_copy` takes from the send buffer; `none` is their panic. -/
def copyData (sb : Sockbuf) (off len : Int) : Option (List Byte) :=
  if 0 ≤ off ∧ 0 ≤ len ∧ off + len ≤ sb.sbMb.length then
    some ((sb.sbMb.drop off.toNat).take len.toNat)
  else none

/-- Advance `snd_nxt` over the sequence space of a segment. -/
def outAdvance (tp : Tcpcb) (flags : Flags) (len : Int) : Tcpcb :=
  { tp with
    sndNxt := tp.sndNxt + (if flags.syn then 1 else 0) + (if flags.fin then 1 else 0) + BitVec.ofInt 32 len
    tfSentfin := tp.tfSentfin || flags.fin }

/-- Note the greatest sequence number sent, and time the transmission if it is new and nothing is being timed. -/
def outMax (tp : Tcpcb) (startseq : TcpSeq) : Tcpcb :=
  let new := seqGT tp.sndNxt tp.sndMax
  { tp with
    sndMax := if new then tp.sndNxt else tp.sndMax
    tRtt := if new ∧ tp.tRtt = 0 then 1 else tp.tRtt
    tRtseq := if new ∧ tp.tRtt = 0 then startseq else tp.tRtseq }

/-- Set the retransmit timer if something is outstanding and it is not running. -/
def outTimer (tp : Tcpcb) : Tcpcb :=
  let start := tp.tRexmt = 0 ∧ tp.sndNxt ≠ tp.sndUna
  { tp with
    tRexmt := if start then tp.tRxtcur else tp.tRexmt
    tPersist := if start then 0 else tp.tPersist
    tRxtshift := if start ∧ tp.tPersist ≠ 0 then 0 else tp.tRxtshift }

/-- Recording what was sent; in persist state only `snd_max` moves. -/
def outRecord (tp : Tcpcb) (flags : Flags) (len : Int) : Tcpcb :=
  if tp.tForce = false ∨ tp.tPersist = 0 then
    outTimer (outMax (outAdvance tp flags len) tp.sndNxt)
  else
    { tp with
      sndMax := if seqGT (tp.sndNxt + BitVec.ofInt 32 len) tp.sndMax then
        tp.sndNxt + BitVec.ofInt 32 len else tp.sndMax }

/-- The segment a pass puts together. -/
def outSegment (c : Conn) (flags : Flags) (options : List TcpOption) (len : Int) (data : List Byte) :
    Seg :=
  let tp := c.tp
  let urgent := seqGT tp.sndUp tp.sndNxt
  { tiSeq := if len ≠ 0 ∨ flags.syn ∨ flags.fin ∨ tp.tPersist ≠ 0 then tp.sndNxt else tp.sndMax
    tiAck := tp.rcvNxt
    tiFlags := if urgent then { flags with urg := true } else flags
    tiWin := BitVec.ofInt 16 (outWindow c / 2 ^ tp.rcvScale)
    tiUrp := if urgent then (tp.sndUp - tp.sndNxt).toNat % 65536 else 0
    tiLen := len.toNat
    options := options
    m := { chain := [data] } }

/-- The segment is handed to IP, and what is remembered of it depends on the answer. -/
def outDeliver (env : Env) (pass : Nat) (c : Conn) (win : Int) (sendalot : Bool) : Conn × Bool :=
  match env.ipOutput pass with
  | .enobufs => ({ c with tp := c.tp.quench }, false)
  | .ehostunreach =>
    ({ c with tp := { c.tp with
        tSofterror := if c.tp.tState.haveRcvdSyn then 65 else c.tp.tSofterror } }, false)
  | .other => (c, false)
  | .ok =>
    ({ c with tp := { c.tp with
        rcvAdv := if win > 0 ∧ seqGT (c.tp.rcvNxt + BitVec.ofInt 32 win) c.tp.rcvAdv then
          c.tp.rcvNxt + BitVec.ofInt 32 win else c.tp.rcvAdv
        lastAckSent := c.tp.rcvNxt, tfAcknow := false, tfDelack := false } }, sendalot)

/-- A FIN that is sent again does not get a new sequence number. -/
def resendFin (tp : Tcpcb) (flags : Flags) : Tcpcb :=
  let again := flags.fin = true ∧ tp.tfSentfin = true ∧ tp.sndNxt = tp.sndMax
  { tp with sndNxt := if again then tp.sndNxt - 1 else tp.sndNxt }

/-- Without urgent data to send the urgent pointer follows the left edge of the window. -/
def pullSndUp (tp : Tcpcb) : Tcpcb :=
  { tp with sndUp := if seqGT tp.sndUp tp.sndNxt then tp.sndUp else tp.sndUna }

/-- The header is filled in around the data and the segment sent. -/
def outFill (env : Env) (pass : Nat) (c : Conn) (flags : Flags) (options : List TcpOption)
    (len : Int) (data : List Byte) (sendalot : Bool) : Conn × Bool :=
  let c := { c with tp := resendFin c.tp flags }
  outDeliver env pass
    { c with
      tp := outRecord (pullSndUp c.tp) flags len
      sent := c.sent ++ [outSegment c flags options len data] }
    (outWindow c) sendalot

/-- A SYN goes out under `iss`. -/
def startSeq (c : Conn) (flags : Flags) : Conn :=
  { c with tp := { c.tp with sndNxt := if flags.syn then c.tp.iss else c.tp.sndNxt } }

/-- The segment size to offer with a SYN. -/
def outOffer (env : Env) (c : Conn) (flags : Flags) : Conn × U32 :=
  if flags.syn ∧ ¬ c.tp.tfNoopt then tcpMss env.route c 0 else (c, 0)

/-- The data does not fit into a segment beside its options. -/
def tooLong (tp : Tcpcb) (plan : OutPlan) (optlen : Nat) : Prop :=
  plan.len > (BitVec.ofNat 32 tp.tMaxseg - BitVec.ofNat 32 optlen).toNat

instance (tp : Tcpcb) (plan : OutPlan) (optlen : Nat) : Decidable (tooLong tp plan optlen) :=
  inferInstanceAs (Decidable (_ > _))

/-- The length of the data beside the options. -/
def outLen (tp : Tcpcb) (plan : OutPlan) (optlen : Nat) : Int :=
  if tooLong tp plan optlen then (tp.tMaxseg : Int) - optlen else plan.len

def outData (sb : Sockbuf) (off len : Int) : Option (List Byte) :=
  if len = 0 then some [] else copyData sb off len

/-- PUSH goes with the end of the buffer, and FIN only if all data before it fits. -/
def outFlags (c : Conn) (plan : OutPlan) (optlen : Nat) : Flags :=
  let len := outLen c.tp plan optlen
  let all := len ≠ 0 ∧ BitVec.ofInt 32 (plan.off + len) = c.so.soSnd.sbCc
  { plan.flags with
    fin := plan.flags.fin && !decide (tooLong c.tp plan optlen)
    push := plan.flags.push || decide all }

/-- From `send` to the end of a pass; the second component says whether to go round again. -/
def outSend (env : Env) (pass : Nat) (c : Conn) (plan : OutPlan) : Conn × Bool :=
  let offer := outOffer env (startSeq c plan.flags) plan.flags
  let c := offer.1
  let options := outOptions env c.tp plan.flags offer.2
  if env.noMbuf pass then ({ c with tp := c.tp.quench }, false)
  else match outData c.so.soSnd plan.off (outLen c.tp plan options.2) with
  | none => (c.panic .copyData, false)
  | some data =>
    if ¬ c.tp.tTemplate then (c.panic .noTemplate, false)
    else
      outFill env pass c (outFlags c plan options.2) options.1 (outLen c.tp plan options.2) data
        (plan.sendalot || decide (tooLong c.tp plan options.2))

/-- One pass from `again` on. -/
def outPass (env : Env) (idle : Bool) (pass : Nat) (c : Conn) : Conn × Bool :=
  let planned := outPlan c
  let c := planned.1
  if wantsSend c idle planned.2 then outSend env pass c planned.2
  else if c.so.soSnd.sbCc ≠ 0 ∧ c.tp.tRexmt = 0 ∧ c.tp.tPersist = 0 then
    (setpersist { c with tp := { c.tp with tRxtshift := 0 } }, false)
  else (c, false)

/-- The passes of `tcp_output`, at most `fuel` of them. -/
def outPasses (env : Env) (idle : Bool) : Nat → Nat → Conn → Conn
  | 0, _, c => c
  | fuel + 1, pass, c =>
    let after := outPass env idle pass c
    if after.2 then outPasses env idle fuel (pass + 1) after.1 else after.1

def tcpOutput (env : Env) (c : Conn) : Conn :=
  let idle := decide (c.tp.sndMax = c.tp.sndUna)
  -- after a while without anything to be acknowledged, slow start
  let slow := idle = true ∧ (c.tp.tIdle : Int) ≥ c.tp.tRxtcur
  outPasses env idle env.fuel 0
    { c with tp := { c.tp with sndCwnd := if slow then BitVec.ofNat 32 c.tp.tMaxseg else c.tp.sndCwnd } }

end Reading.Tcp
