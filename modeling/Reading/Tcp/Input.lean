import Reading.Tcp.Reass

/-!
# TCP input

`tcp_input` for a connection whose control block has been found, cut at the labels and comments of the source. A stage takes the locals of `tcp_input` to new ones, or leaves for `drop`, `dropafterack` or `dropwithreset`. The header prediction comes first and either finishes the segment or leaves it to the general path.

Checksums and the packing of headers are behind us: a `Seg` has its fields in host order and its options taken apart. `tiFlags` of the segment is what arrived, while the local `tiflags` loses bits on the way.
-/

namespace Reading.Tcp

open Reading.Kern

/-! ### Closing a connection -/

/-- `tcp_close`. -/
def tcpClose (c : Conn) : Conn := { c with gone := true, so := c.so.soisdisconnected }

def etimedout : Int := 60
def econnreset : Int := 54
def econnrefused : Int := 61

/-- `tcp_drop`. -/
def tcpDrop (env : Env) (c : Conn) (errno : Int) : Conn :=
  let c := if c.tp.tState.haveRcvdSyn then
    tcpOutput env { c with tp := { c.tp with tState := .closed } } else c
  let errno := if errno = etimedout ∧ c.tp.tSofterror ≠ 0 then c.tp.tSofterror else errno
  tcpClose { c with so := { c.so with soError := errno } }

/-- `tcp_respond`: a segment without data whose numbers are given. -/
def tcpRespond (c : Conn) (ack seq : TcpSeq) (flags : Flags) : Conn :=
  let win := if c.gone then 0 else c.so.soRcv.sbspace / 2 ^ c.tp.rcvScale
  { c with sent := c.sent ++
      [{ tiSeq := seq, tiAck := ack, tiFlags := flags, tiWin := BitVec.ofInt 16 win }] }

/-! ### The locals -/

structure Ctx where
  c : Conn
  ti : Seg
  tiflags : Flags
  tiwin : U32
  /-- `ts_val` and `ts_ecr`, if a timestamp is present. -/
  ts : Option (U32 × U32) := none
  needoutput : Bool := false
  deriving DecidableEq

inductive Exit where
  | drop
  | dropafterack
  | dropwithreset
  deriving DecidableEq, Repr

abbrev Flow := Except (Exit × Ctx) Ctx

namespace Ctx

/-- Change the control block. -/
def withTp (x : Ctx) (f : Tcpcb → Tcpcb) : Ctx := { x with c := { x.c with tp := f x.c.tp } }

/-- Change the socket. -/
def withSo (x : Ctx) (f : Socket → Socket) : Ctx := { x with c := { x.c with so := f x.c.so } }

end Ctx

/-! ### Options -/

/-- One round of the loop of `tcp_dooptions`. -/
def dooption (env : Env) (x : Ctx) : TcpOption → Ctx
  | .maxseg mss =>
    if x.ti.tiFlags.syn then { x with c := (tcpMss env.route x.c (mss.zeroExtend 32)).1 } else x
  | .window shift =>
    if x.ti.tiFlags.syn then
      x.withTp fun tp => { tp with tfRcvdScale := true, requestedSScale := min shift.toNat tcpMaxWinshift }
    else x
  | .timestamp val ecr =>
    let x := { x with ts := some (val, ecr) }
    if x.ti.tiFlags.syn then
      x.withTp fun tp => { tp with tfRcvdTstmp := true, tsRecent := val, tsRecentAge := env.now }
    else x

/-- `tcp_dooptions`. -/
def dooptions (env : Env) (x : Ctx) : Ctx := x.ti.options.foldl (dooption env) x

/-! ### Header prediction -/

/-- The test for the two common cases of a unidirectional transfer. -/
def predicted (x : Ctx) : Prop :=
  x.c.tp.tState = .established ∧
  x.tiflags.ack = true ∧ x.tiflags.syn = false ∧ x.tiflags.fin = false ∧ x.tiflags.rst = false ∧
  x.tiflags.urg = false ∧
  (∀ ts ∈ x.ts, seqGEQ ts.1 x.c.tp.tsRecent) ∧
  x.ti.tiSeq = x.c.tp.rcvNxt ∧ x.tiwin ≠ 0 ∧ x.tiwin = x.c.tp.sndWnd ∧ x.c.tp.sndNxt = x.c.tp.sndMax

-- the option is looked at, not every pair of timestamps
instance (x : Ctx) : Decidable (∀ ts ∈ x.ts, seqGEQ ts.1 x.c.tp.tsRecent) :=
  Option.decidableForallMem x.ts

instance (x : Ctx) : Decidable (predicted x) := inferInstanceAs (Decidable (_ ∧ _))

/-- The timestamp is recorded if the last ACK sent falls within the segment, which counts `extra` more octets than its data. -/
def recordTimestamp (env : Env) (extra : Nat) (x : Ctx) : Ctx :=
  let covers := seqLEQ x.ti.tiSeq x.c.tp.lastAckSent ∧
    seqLT x.c.tp.lastAckSent (x.ti.after + BitVec.ofNat 32 extra)
  x.withTp fun tp =>
    { tp with
      tsRecentAge := if x.ts.isSome ∧ covers then env.now else tp.tsRecentAge
      tsRecent := if covers then (x.ts.map Prod.fst).getD tp.tsRecent else tp.tsRecent }

/-- The round-trip time an ACK measures, by its timestamp or by the segment being timed. -/
def rttSample (env : Env) (x : Ctx) : Option Int :=
  match x.ts with
  | some (_, ecr) => some (seqDiff env.now ecr + 1)
  | none => if x.c.tp.tRtt ≠ 0 ∧ seqGT x.ti.tiAck x.c.tp.tRtseq then some x.c.tp.tRtt else none

/-- The update of the smoothed round-trip time by an ACK. -/
def ackRtt (env : Env) (x : Ctx) : Ctx :=
  match rttSample env x with
  | some rtt => x.withTp fun tp => tp.xmitTimer rtt
  | none => x

/-- `sbdrop(&so->so_snd, n)`. -/
def dropSnd (env : Env) (n : Int) (c : Conn) : Conn :=
  let sb := c.so.soSnd.sbdrop n env.freed
  { c with
    so := { c.so with soSnd := sb.getD c.so.soSnd }
    panicked := if sb.isNone then c.panicked <|> some .sbdrop else c.panicked }

/-- The condition for a pure ACK of outstanding data. -/
def isPureAck (x : Ctx) : Prop :=
  x.ti.tiLen = 0 ∧ seqGT x.ti.tiAck x.c.tp.sndUna ∧ seqLEQ x.ti.tiAck x.c.tp.sndMax ∧
    x.c.tp.sndCwnd ≥ x.c.tp.sndWnd

instance (x : Ctx) : Decidable (isPureAck x) := inferInstanceAs (Decidable (_ ∧ _))

/-- The retransmit timer after an ACK that advances `snd_una` to `ack`. -/
def ackTimer (tp : Tcpcb) (ack : TcpSeq) : Int :=
  if ack = tp.sndMax then 0 else if tp.tPersist = 0 then tp.tRxtcur else tp.tRexmt

/-- The pure ACK case, up to its call of `tcp_output`. -/
def pureAck (env : Env) (x : Ctx) : Conn :=
  let x := ackRtt env x
  let c := dropSnd env (seqDiff x.ti.tiAck x.c.tp.sndUna) x.c
  { c with tp := { c.tp with sndUna := x.ti.tiAck, tRexmt := ackTimer c.tp x.ti.tiAck } }

/-- The condition for a pure, in-sequence data packet. -/
def isPureData (x : Ctx) : Prop :=
  x.ti.tiLen ≠ 0 ∧ x.ti.tiAck = x.c.tp.sndUna ∧ x.c.tp.segs = [] ∧
    (x.ti.tiLen : Int) ≤ x.c.so.soRcv.sbspace

instance (x : Ctx) : Decidable (isPureData x) := inferInstanceAs (Decidable (_ ∧ _))

/-- The pure data case. -/
def pureData (x : Ctx) : Conn :=
  { x.c with
    tp := { x.c.tp with rcvNxt := x.c.tp.rcvNxt + BitVec.ofNat 32 x.ti.tiLen, tfDelack := true }
    so := { x.c.so with soRcv := x.c.so.soRcv.sbappend x.ti.m } }

/-- Header prediction: the segment is finished, or left to the general path. -/
def predict (env : Env) (x : Ctx) : Conn ⊕ Ctx :=
  if predicted x then
    let x := recordTimestamp env 0 x
    if isPureAck x then
      let c := pureAck env x
      .inl (if c.so.soSnd.sbCc ≠ 0 then tcpOutput env c else c)
    else if isPureData x then .inl (pureData x)
    else .inr x
  else .inr x

/-! ### The general path -/

/-- The receive window: the space in the buffer, but not less than what was advertised. -/
def recvWindow (c : Conn) : U32 :=
  let win := if c.so.soRcv.sbspace < 0 then 0 else c.so.soRcv.sbspace
  umax (BitVec.ofInt 32 win) (c.tp.rcvAdv - c.tp.rcvNxt)

/-- `trimthenstep6`: the segment begins with a SYN, and its data is trimmed to the window. -/
def trimThenStep6 (x : Ctx) : Ctx :=
  let seq := x.ti.tiSeq + 1
  let wnd := x.c.tp.rcvWnd.toNat
  let ti := { x.ti with
    tiSeq := seq
    tiLen := min x.ti.tiLen wnd
    m := if x.ti.tiLen > wnd then mAdj x.ti.m ((wnd : Int) - x.ti.tiLen) else x.ti.m }
  { (x.withTp fun tp => { tp with sndWl1 := seq - 1, rcvUp := seq }) with
    ti := ti
    tiflags := { x.tiflags with fin := x.tiflags.fin && !decide (x.ti.tiLen > wnd) } }

/-- The window scaling both sides have asked for. -/
def scaleWindows (tp : Tcpcb) : Tcpcb :=
  let scale := tp.tfRcvdScale && tp.tfReqScale
  { tp with
    sndScale := if scale then tp.requestedSScale else tp.sndScale
    rcvScale := if scale then tp.requestRScale else tp.rcvScale }

/-- A SYN for a socket created for it, in state `LISTEN`. -/
def inputListen (env : Env) (x : Ctx) : Ctx :=
  let x := dooptions env x
  let x := x.withTp fun tp =>
    { (({ tp with iss := env.iss, irs := x.ti.tiSeq } : Tcpcb).sendseqinit.rcvseqinit) with
      tfAcknow := true, tState := .synReceived, tKeep := tcptvKeepInit, tTemplate := true }
  trimThenStep6 x

/-- The numbers that a SYN in state `SYN_SENT` brings. -/
def takeSyn (x : Ctx) : Ctx :=
  let x := x.withTp fun tp =>
    { tp with
      sndUna := if x.tiflags.ack then x.ti.tiAck else tp.sndUna
      sndNxt := if x.tiflags.ack ∧ seqLT tp.sndNxt x.ti.tiAck then x.ti.tiAck else tp.sndNxt }
  x.withTp fun tp =>
    { ({ tp with tRexmt := 0, irs := x.ti.tiSeq } : Tcpcb).rcvseqinit with tfAcknow := true }

/-- The SYN acknowledges ours, and the connection is open. -/
def openActive (x : Ctx) : Ctx :=
  let x := x.withSo Socket.soisconnected
  let x := x.withTp fun tp => scaleWindows { tp with tState := .established }
  let x := { x with c := (tcpReass x.c none).1 }
  x.withTp fun tp => if tp.tRtt ≠ 0 then tp.xmitTimer tp.tRtt else tp

/-- State `SYN_SENT`. -/
def inputSynSent (env : Env) (x : Ctx) : Flow :=
  if x.tiflags.ack ∧ (seqLEQ x.ti.tiAck x.c.tp.iss ∨ seqGT x.ti.tiAck x.c.tp.sndMax) then
    .error (.dropwithreset, x)
  else if x.tiflags.rst then
    if x.tiflags.ack then .error (.drop, { x with c := tcpDrop env x.c econnrefused })
    else .error (.drop, x)
  else if ¬ x.tiflags.syn then .error (.drop, x)
  else
    let x := takeSyn x
    .ok (trimThenStep6 (if x.tiflags.ack ∧ seqGT x.c.tp.sndUna x.c.tp.iss then openActive x
      else x.withTp fun tp => { tp with tState := .synReceived }))

/-- RFC 1323 PAWS. -/
def paws (env : Env) (x : Ctx) : Flow :=
  match x.ts with
  | none => .ok x
  | some (val, _) =>
    if ¬ x.tiflags.rst ∧ x.c.tp.tsRecent ≠ 0 ∧ seqLT val x.c.tp.tsRecent then
      if seqDiff env.now x.c.tp.tsRecentAge > tcpPawsIdle then
        .ok (x.withTp fun tp => { tp with tsRecent := 0 })
      else .error (.dropafterack, x)
    else .ok x

/-- A SYN that lies before the window is dropped from the segment. -/
def trimSyn (x : Ctx) : Ctx :=
  let syn := x.tiflags.syn
  { x with
    tiflags := { x.tiflags with
      syn := false, urg := x.tiflags.urg && (!syn || decide (x.ti.tiUrp > 1)) }
    ti := { x.ti with
      tiSeq := x.ti.tiSeq + if syn then 1 else 0
      tiUrp := if syn ∧ x.ti.tiUrp > 1 then x.ti.tiUrp - 1 else x.ti.tiUrp } }

theorem trimSyn_of_not_syn {x : Ctx} (hsyn : x.tiflags.syn = false) : trimSyn x = x := by
  have hflags : ({ x.tiflags with syn := false } : Flags) = x.tiflags := by rw [← hsyn]
  have hseq : x.ti.tiSeq + 0 = x.ti.tiSeq := BitVec.add_zero _
  simp only [trimSyn, hsyn, Bool.false_eq_true, false_and, if_false, Bool.not_false, Bool.true_or,
    Bool.and_true]
  rw [hflags, hseq]

/-- Drop `todrop` leading octets. -/
def trimFront (todrop : Int) (x : Ctx) : Ctx :=
  { x with
    ti := { x.ti.trimHead todrop with
      tiUrp := if (x.ti.tiUrp : Int) > todrop then x.ti.tiUrp - todrop.toNat else 0 }
    tiflags := { x.tiflags with urg := x.tiflags.urg && decide ((x.ti.tiUrp : Int) > todrop) } }

/-- If the segment begins before `rcv_nxt`, drop leading data (and SYN); if nothing is left, just ACK. -/
def trimLeft (x : Ctx) : Flow :=
  let todrop := seqDiff x.c.tp.rcvNxt x.ti.tiSeq
  if todrop > 0 then
    let syn := x.tiflags.syn
    let x := trimSyn x
    let todrop := if syn then todrop - 1 else todrop
    if todrop ≥ x.ti.tiLen then
      if x.tiflags.fin ∧ todrop = x.ti.tiLen + 1 then
        .ok (trimFront x.ti.tiLen
          { x with
            tiflags := { x.tiflags with fin := false }
            c := { x.c with tp := { x.c.tp with tfAcknow := true } } })
      else if todrop ≠ 0 ∨ ¬ x.tiflags.ack then .error (.dropafterack, x)
      else .ok (trimFront todrop (x.withTp fun tp => { tp with tfAcknow := true }))
    else .ok (trimFront todrop x)
  else .ok x

/-- New data for a connection whose user is gone. -/
def rcvAfterClose (x : Ctx) : Flow :=
  if x.c.so.ssNofdref ∧ x.c.tp.tState.code > 5 ∧ x.ti.tiLen ≠ 0 then
    .error (.dropwithreset, { x with c := tcpClose x.c })
  else .ok x

/-- Drop `todrop` trailing octets, and PUSH and FIN. -/
def trimBack (todrop : Int) (x : Ctx) : Ctx :=
  { x with
    ti := { x.ti with m := mAdj x.ti.m (-todrop), tiLen := x.ti.tiLen - todrop.toNat }
    tiflags := { x.tiflags with push := false, fin := false } }

/-- If the segment ends after the window, drop trailing data (and PUSH and FIN); if nothing is left, just ACK. A SYN for a connection in `TIME_WAIT` closes it, and the caller looks for a new one. -/
def trimRight (x : Ctx) : Flow :=
  let todrop := seqDiff x.ti.after (x.c.tp.rcvNxt + x.c.tp.rcvWnd)
  if todrop > 0 then
    if todrop ≥ x.ti.tiLen then
      if x.tiflags.syn ∧ x.c.tp.tState = .timeWait ∧ seqGT x.ti.tiSeq x.c.tp.rcvNxt then
        .error (.drop, { x with c := tcpClose x.c })
      else if x.c.tp.rcvWnd = 0 ∧ x.ti.tiSeq = x.c.tp.rcvNxt then
        .ok (trimBack todrop (x.withTp fun tp => { tp with tfAcknow := true }))
      else .error (.dropafterack, x)
    else .ok (trimBack todrop x)
  else .ok x

/-- A connection that a RST closes with an error. -/
def resetBy (c : Conn) (errno : Int) : Conn :=
  tcpClose { c with so := { c.so with soError := errno }, tp := { c.tp with tState := .closed } }

/-- The RST, SYN and ACK bits. -/
def checkBits (env : Env) (x : Ctx) : Flow :=
  if x.tiflags.rst then
    match x.c.tp.tState with
    | .synReceived =>
      .error (.drop, { x with c := resetBy x.c econnrefused })
    | .established | .finWait1 | .finWait2 | .closeWait =>
      .error (.drop, { x with c := resetBy x.c econnreset })
    | .closing | .lastAck | .timeWait => .error (.drop, { x with c := tcpClose x.c })
    | _ => .ok x
  else if x.tiflags.syn then .error (.dropwithreset, { x with c := tcpDrop env x.c econnreset })
  else if ¬ x.tiflags.ack then .error (.drop, x)
  else .ok x

/-- `SYN_RECEIVED` becomes `ESTABLISHED` if the ACK is acceptable. -/
def ackSynReceived (x : Ctx) : Flow :=
  if x.c.tp.tState = .synReceived then
    if seqGT x.c.tp.sndUna x.ti.tiAck ∨ seqGT x.ti.tiAck x.c.tp.sndMax then
      .error (.dropwithreset, x)
    else
      let x := x.withSo Socket.soisconnected
      let x := x.withTp fun tp => scaleWindows { tp with tState := .established }
      let x := { x with c := (tcpReass x.c none).1 }
      .ok (x.withTp fun tp => { tp with sndWl1 := x.ti.tiSeq - 1 })
  else .ok x

/-- Half the flight, in segments but no less than two, in octets. -/
def halfFlight (tp : Tcpcb) : U32 :=
  let win := umin tp.sndWnd tp.sndCwnd / 2 / BitVec.ofNat 32 tp.tMaxseg
  (if win < 2 then 2 else win) * BitVec.ofNat 32 tp.tMaxseg

/-- The third duplicate ACK: retransmit one segment. -/
def fastRetransmit (env : Env) (x : Ctx) : Ctx :=
  let onxt := x.c.tp.sndNxt
  let x := x.withTp fun tp =>
    { tp with
      sndSsthresh := halfFlight tp, tRexmt := 0, tRtt := 0, sndNxt := x.ti.tiAck
      sndCwnd := BitVec.ofNat 32 tp.tMaxseg }
  let x := { x with c := tcpOutput env x.c }
  x.withTp fun tp =>
    { tp with
      sndCwnd := tp.sndSsthresh + BitVec.ofNat 32 tp.tMaxseg * BitVec.ofInt 32 tp.tDupacks
      sndNxt := if seqGT onxt tp.sndNxt then onxt else tp.sndNxt }

/-- An ACK that does not advance `snd_una`. -/
def dupAck (env : Env) (x : Ctx) : Flow :=
  if x.ti.tiLen = 0 ∧ x.tiwin = x.c.tp.sndWnd then
    if x.c.tp.tRexmt = 0 ∨ x.ti.tiAck ≠ x.c.tp.sndUna then
      .ok (x.withTp fun tp => { tp with tDupacks := 0 })
    else
      let x := x.withTp fun tp => { tp with tDupacks := toShort (tp.tDupacks + 1) }
      if x.c.tp.tDupacks = tcprexmtthresh then .error (.drop, fastRetransmit env x)
      else if x.c.tp.tDupacks > tcprexmtthresh then
        let x := x.withTp fun tp => { tp with sndCwnd := tp.sndCwnd + BitVec.ofNat 32 tp.tMaxseg }
        .error (.drop, { x with c := tcpOutput env x.c })
      else .ok x
  else .ok (x.withTp fun tp => { tp with tDupacks := 0 })

/-- Open the congestion window. -/
def openCwnd (tp : Tcpcb) : Tcpcb :=
  let cw := tp.sndCwnd
  let incr := BitVec.ofNat 32 tp.tMaxseg
  let incr := if cw > tp.sndSsthresh then incr * incr / cw else incr
  { tp with sndCwnd := umin (cw + incr) (tcpMaxwin <<< tp.sndScale) }

/-- The amount that leaves the send buffer for an ACK: what it acknowledges, but no more than there is. -/
def ackedAmount (c : Conn) (ack : TcpSeq) : Int :=
  if ack - c.tp.sndUna > c.so.soSnd.sbCc then c.so.soSnd.sbCc.toInt else seqDiff ack c.tp.sndUna

/-- The acknowledged data leaves the send buffer; the second component is `ourfinisacked`. -/
def dropAcked (env : Env) (x : Ctx) : Ctx × Bool :=
  let acked := x.ti.tiAck - x.c.tp.sndUna
  let cc := x.c.so.soSnd.sbCc
  let c := dropSnd env (ackedAmount x.c x.ti.tiAck) x.c
  ({ x with c := { c with tp := { c.tp with
      sndWnd := c.tp.sndWnd - if acked > cc then cc else acked } } }, decide (acked > cc))

/-- What an ACK of our FIN does to the state. -/
def finAcked (x : Ctx) (ourfinisacked : Bool) : Flow :=
  match x.c.tp.tState with
  | .finWait1 =>
    if ourfinisacked then
      let x := if x.c.so.ssCantrcvmore then
        (x.withSo Socket.soisdisconnected).withTp fun tp => { tp with t2msl := tcpMaxidle } else x
      .ok (x.withTp fun tp => { tp with tState := .finWait2 })
    else .ok x
  | .closing =>
    if ourfinisacked then
      let x := x.withTp fun tp =>
        { ({ tp with tState := .timeWait } : Tcpcb).canceltimers with t2msl := 2 * tcptvMsl }
      .ok (x.withSo Socket.soisdisconnected)
    else .ok x
  | .lastAck =>
    if ourfinisacked then .error (.drop, { x with c := tcpClose x.c }) else .ok x
  | .timeWait => .error (.dropafterack, x.withTp fun tp => { tp with t2msl := 2 * tcptvMsl })
  | _ => .ok x

/-- The congestion window was inflated for the other side's cached packets: retract it. -/
def retractCwnd (tp : Tcpcb) : Tcpcb :=
  { tp with
    sndCwnd := if tp.tDupacks > tcprexmtthresh ∧ tp.sndCwnd > tp.sndSsthresh then tp.sndSsthresh
      else tp.sndCwnd
    tDupacks := 0 }

/-- The timers and the congestion window after an ACK of new data. -/
def ackTimers (env : Env) (x : Ctx) : Ctx :=
  let x := ackRtt env x
  { (x.withTp fun tp => openCwnd { tp with tRexmt := ackTimer tp x.ti.tiAck }) with
    needoutput := x.needoutput || decide (x.ti.tiAck = x.c.tp.sndMax) }

/-- `snd_una` moves to the acknowledged number. -/
def advanceUna (x : Ctx) : Ctx :=
  x.withTp fun tp =>
    { tp with
      sndUna := x.ti.tiAck
      sndNxt := if seqLT tp.sndNxt x.ti.tiAck then x.ti.tiAck else tp.sndNxt }

/-- An ACK that advances `snd_una`. -/
def newAck (env : Env) (x : Ctx) : Flow :=
  let x := x.withTp retractCwnd
  if seqGT x.ti.tiAck x.c.tp.sndMax then .error (.dropafterack, x)
  else
    let dropped := dropAcked env (ackTimers env x)
    finAcked (advanceUna dropped.1) dropped.2

/-- ACK processing. -/
def ackInput (env : Env) (x : Ctx) : Flow := do
  let x ← ackSynReceived x
  if x.c.tp.tState.code < 4 then .ok x
  else if seqLEQ x.ti.tiAck x.c.tp.sndUna then dupAck env x
  else newAck env x

/-- The condition for taking the window from a segment. -/
def updatesWindow (x : Ctx) : Prop :=
  x.tiflags.ack = true ∧
    (seqLT x.c.tp.sndWl1 x.ti.tiSeq ∨
      x.c.tp.sndWl1 = x.ti.tiSeq ∧
        (seqLT x.c.tp.sndWl2 x.ti.tiAck ∨
          x.c.tp.sndWl2 = x.ti.tiAck ∧ x.tiwin > x.c.tp.sndWnd))

instance (x : Ctx) : Decidable (updatesWindow x) := inferInstanceAs (Decidable (_ ∧ _))

/-- `step6`: update window information. -/
def step6 (x : Ctx) : Ctx :=
  if updatesWindow x then
    { (x.withTp fun tp =>
        { tp with
          sndWnd := x.tiwin, sndWl1 := x.ti.tiSeq, sndWl2 := x.ti.tiAck
          maxSndwnd := if x.tiwin > tp.maxSndwnd then x.tiwin else tp.maxSndwnd }) with
      needoutput := true }
  else x

/-- Remove the octet at `cnt` from a chain. -/
def pullByte : List (List Byte) → Nat → Option (Byte × List (List Byte))
  | [], _ => none
  | m :: ms, cnt =>
    match m[cnt]? with
    | some b => some (b, m.eraseIdx cnt :: ms)
    | none => (pullByte ms (cnt - m.length)).map fun (b, ms) => (b, m :: ms)

/-- `tcp_pulloutofband`. -/
def pullOutOfBand (x : Ctx) : Ctx :=
  match pullByte x.ti.m.chain (x.ti.tiUrp - 1) with
  | none => { x with c := x.c.panic .pullOutOfBand }
  | some (b, chain) =>
    { (x.withTp fun tp => { tp with tIobc := b, tcpoobHavedata := true }) with
      ti := { x.ti with m := { x.ti.m with chain := chain } } }

/-- Segments with URG. -/
def urgent (x : Ctx) : Ctx :=
  if x.tiflags.urg ∧ x.ti.tiUrp ≠ 0 ∧ ¬ x.c.tp.tState.haveRcvdFin then
    if x.ti.tiUrp + x.c.so.soRcv.sbMb.length > sbMax.toNat then
      { x with ti := { x.ti with tiUrp := 0 }, tiflags := { x.tiflags with urg := false } }
    else
      let up := x.ti.tiSeq + BitVec.ofNat 32 x.ti.tiUrp
      let x := if seqGT up x.c.tp.rcvUp then
          let mark := x.c.so.soRcv.sbCc + (up - x.c.tp.rcvNxt) - 1
          (x.withTp fun tp =>
            { tp with rcvUp := up, tcpoobHavedata := false, tcpoobHaddata := false }).withSo fun so =>
            { so with soOobmark := mark, ssRcvatmark := so.ssRcvatmark || decide (mark = 0) }
        else x
      if x.ti.tiUrp ≤ x.ti.tiLen ∧ ¬ x.c.so.soOobinline then pullOutOfBand x else x
  else if seqGT x.c.tp.rcvNxt x.c.tp.rcvUp then x.withTp fun tp => { tp with rcvUp := tp.rcvNxt }
  else x

/-- `dodata`: the segment text goes to the sequencing queue; what is left of `tiflags` is whether a FIN is now received. -/
def dodata (x : Ctx) : Ctx :=
  if (x.ti.tiLen ≠ 0 ∨ x.tiflags.fin) ∧ ¬ x.c.tp.tState.haveRcvdFin then
    let result := tcpReassMacro x.c x.ti
    { x with c := result.1, tiflags := { fin := result.2 } }
  else { x with tiflags := { x.tiflags with fin := false } }

/-- What a FIN does to the state. -/
def finState (x : Ctx) : Ctx :=
  match x.c.tp.tState with
  | .synReceived | .established => x.withTp fun tp => { tp with tState := .closeWait }
  | .finWait1 => x.withTp fun tp => { tp with tState := .closing }
  | .finWait2 =>
    (x.withTp fun tp =>
      { ({ tp with tState := .timeWait } : Tcpcb).canceltimers with
        t2msl := 2 * tcptvMsl }).withSo Socket.soisdisconnected
  | .timeWait => x.withTp fun tp => { tp with t2msl := 2 * tcptvMsl }
  | _ => x

/-- A FIN is received: the user will get no more, and it is acknowledged. -/
def finInput (x : Ctx) : Ctx :=
  if x.tiflags.fin then
    let x := if ¬ x.c.tp.tState.haveRcvdFin then
        (x.withSo Socket.socantrcvmore).withTp fun tp =>
          { tp with tfAcknow := true, rcvNxt := tp.rcvNxt + 1 }
      else x
    finState x
  else x

/-- From `step6` to the processing of FIN. -/
def step6on (x : Ctx) : Ctx := finInput (dodata (urgent (step6 x)))

/-- The checks of a segment before its ACK is looked at: PAWS, the window and the control bits. -/
def inputWindow (env : Env) (x : Ctx) : Flow := do
  let x ← paws env x
  let x ← trimLeft x
  let x ← rcvAfterClose x
  let x ← trimRight x
  let x := recordTimestamp env (if x.tiflags.syn ∨ x.tiflags.fin then 1 else 0) x
  checkBits env x

/-- The states other than `LISTEN` and `SYN_SENT`, up to `step6`. -/
def inputOther (env : Env) (x : Ctx) : Flow := do
  let x ← inputWindow env x
  ackInput env x

/-- The general path, from the computation of the receive window to the processing of FIN. -/
def general (env : Env) (x : Ctx) : Flow := do
  let x := x.withTp fun tp => { tp with rcvWnd := recvWindow x.c }
  let x ← match x.c.tp.tState with
    | .synSent => inputSynSent env x
    | .listen => .ok (inputListen env x)
    | _ => inputOther env x
  return step6on x

/-- Where a segment leaves `tcp_input`. -/
def finish (env : Env) : Flow → Conn
  | .ok x => if x.needoutput ∨ x.c.tp.tfAcknow then tcpOutput env x.c else x.c
  | .error (.drop, x) => x.c
  | .error (.dropafterack, x) =>
    if x.tiflags.rst then x.c
    else tcpOutput env { x.c with tp := { x.c.tp with tfAcknow := true } }
  | .error (.dropwithreset, x) =>
    if x.tiflags.rst then x.c
    else if x.tiflags.ack then tcpRespond x.c 0 x.ti.tiAck { rst := true }
    else
      tcpRespond x.c (x.ti.after + if x.tiflags.syn then 1 else 0) 0 { rst := true, ack := true }

/-- A segment is received: the idle time and the keep-alive timer start again, and options are taken unless the state is `LISTEN`. -/
def entry (env : Env) (c : Conn) (ti : Seg) : Ctx :=
  let tiwin : U32 := if ti.tiFlags.syn then ti.tiWin.zeroExtend 32
    else ti.tiWin.zeroExtend 32 <<< c.tp.sndScale
  let x : Ctx :=
    { c := { c with tp := { c.tp with tIdle := 0, tKeep := tcpKeepidle } }
      ti := ti, tiflags := ti.tiFlags, tiwin := tiwin }
  if c.tp.tState = .listen then x else dooptions env x

/-- What a listening socket answers itself; the connection that a SYN asks for is another one. -/
def listenInput (c : Conn) (ti : Seg) : Conn :=
  if ti.tiFlags.ack ∧ ¬ ti.tiFlags.rst then tcpRespond c 0 ti.tiAck { rst := true } else c

/-- `tcp_input` for the connection a segment belongs to. -/
def tcpInput (env : Env) (c : Conn) (ti : Seg) : Conn :=
  if c.tp.tState = .closed then c
  else if c.so.soAcceptconn then listenInput c ti
  else match predict env (entry env c ti) with
  | .inl c => c
  | .inr x => finish env (general env x)

/-! ### The locals at the beginning -/

theorem dooptions_of_not_syn (env : Env) {x : Ctx} (hsyn : x.ti.tiFlags.syn = false) :
    ∃ ts, dooptions env x = { x with ts := ts } := by
  unfold dooptions
  generalize x.ti.options = options
  induction options generalizing x with
  | nil => exact ⟨x.ts, rfl⟩
  | cons o options ih =>
    have hstep : ∃ ts, dooption env x o = { x with ts := ts } := by
      cases o with
      | maxseg mss => exact ⟨x.ts, by simp [dooption, hsyn]⟩
      | window shift => exact ⟨x.ts, by simp [dooption, hsyn]⟩
      | timestamp val ecr => exact ⟨some (val, ecr), by simp [dooption, hsyn]⟩
    obtain ⟨ts, hts⟩ := hstep
    rw [List.foldl_cons, hts]
    obtain ⟨ts', hts'⟩ := @ih { x with ts := ts } hsyn
    exact ⟨ts', hts'⟩

/-- What `entry` makes of a segment without SYN. -/
theorem entry_of_not_syn (env : Env) (c : Conn) {ti : Seg} (hsyn : ti.tiFlags.syn = false) :
    ∃ ts, entry env c ti =
      { c := { c with tp := { c.tp with tIdle := 0, tKeep := tcpKeepidle } }
        ti := ti, tiflags := ti.tiFlags, tiwin := ti.tiWin.zeroExtend 32 <<< c.tp.sndScale
        ts := ts } := by
  unfold entry
  simp only [hsyn, Bool.false_eq_true, if_false]
  split
  · exact ⟨none, rfl⟩
  · obtain ⟨ts, hts⟩ := dooptions_of_not_syn env (x :=
      { c := { c with tp := { c.tp with tIdle := 0, tKeep := tcpKeepidle } }
        ti := ti, tiflags := ti.tiFlags, tiwin := ti.tiWin.zeroExtend 32 <<< c.tp.sndScale }) hsyn
    exact ⟨ts, hts⟩

theorem entry_tiflags (env : Env) (c : Conn) (ti : Seg) :
    (entry env c ti).tiflags = ti.tiFlags := by
  have hoption : ∀ (x : Ctx) o, (dooption env x o).tiflags = x.tiflags := by
    intro x o
    cases o with
    | maxseg mss => simp only [dooption]; split <;> rfl
    | window shift => simp only [dooption]; split <;> rfl
    | timestamp val ecr => simp only [dooption]; split <;> rfl
  have hoptions : ∀ (options : List TcpOption) (x : Ctx),
      (options.foldl (dooption env) x).tiflags = x.tiflags := by
    intro options
    induction options with
    | nil => exact fun _ => rfl
    | cons o options ih => exact fun x => (ih _).trans (hoption x o)
  unfold entry
  dsimp only
  split
  · rfl
  · exact hoptions _ _

end Reading.Tcp
