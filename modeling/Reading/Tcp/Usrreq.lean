import Reading.Tcp.Timer

/-!
# User requests

`tcp_usrreq` for an attached socket, with the part of the socket layer that decides when a request reaches it.
-/

namespace Reading.Tcp

open Reading.Kern

def tcpSendspace : U32 := 1024 * 8
def tcpRecvspace : U32 := 1024 * 8
def tcpLingertime : Int := 120

/-- `tcp_attach`, with the linger time `PRU_ATTACH` sets. -/
def tcpAttach (so : Socket) : Conn where
  tp := Tcpcb.newtcpcb
  so :=
    let so := if so.soSnd.sbHiwat = 0 ∨ so.soRcv.sbHiwat = 0 then so.soreserve tcpSendspace tcpRecvspace
      else so
    { so with soLingertime := if so.soLinger ∧ so.soLingertime = 0 then tcpLingertime else so.soLingertime }

/-- The window scale to request for a receive buffer. -/
def growScale (hiwat : U32) : Nat → Nat → Nat
  | 0, scale => scale
  | fuel + 1, scale =>
    if scale < tcpMaxWinshift ∧ tcpMaxwin <<< scale < hiwat then growScale hiwat fuel (scale + 1)
    else scale

/-- The connection `tcp_input` makes for a SYN that arrives at a listening socket. -/
def listenChild (head : Socket) : Conn :=
  let c := tcpAttach head.sonewconn
  { c with tp := { c.tp with
    tState := .listen
    requestRScale := growScale c.so.soRcv.sbHiwat tcpMaxWinshift c.tp.requestRScale } }

/-- `tcp_input` for a SYN that arrives at a listening socket. -/
def spawn (env : Env) (head : Socket) (ti : Seg) : Conn :=
  finish env (general env (entry env (listenChild head) ti))

/-- `tcp_usrclosed`. -/
def tcpUsrclosed (c : Conn) : Conn :=
  match c.tp.tState with
  | .closed | .listen | .synSent => tcpClose { c with tp := { c.tp with tState := .closed } }
  | .synReceived | .established => { c with tp := { c.tp with tState := .finWait1 } }
  | .closeWait => { c with tp := { c.tp with tState := .lastAck } }
  | .finWait2 | .timeWait => { c with so := c.so.soisdisconnected }
  | _ => c

/-- What follows `tcp_usrclosed` where the control block is left. -/
def closedOutput (env : Env) (c : Conn) : Conn :=
  let c := tcpUsrclosed c
  if c.gone then c else tcpOutput env c

/-- `tcp_disconnect`. -/
def tcpDisconnect (env : Env) (c : Conn) : Conn :=
  if c.tp.tState.code < 4 then tcpClose c
  else if c.so.soLinger ∧ c.so.soLingertime = 0 then tcpDrop env c 0
  else closedOutput env { c with so := c.so.soisdisconnecting.flushRcv }

def econnaborted : Int := 53

inductive Request where
  /-- `PRU_DETACH`, after which no descriptor refers to the socket. -/
  | detach
  | listen
  /-- `PRU_CONNECT` to an address that `in_pcbconnect` takes. -/
  | connect
  | disconnect
  | accept
  | shutdown
  /-- `PRU_RCVD` after the user has taken `n` octets from the receive buffer. -/
  | rcvd (n : Nat)
  | send (m : Mbuf)
  | abort
  | rcvoob (peek : Bool)
  | sendoob (m : Mbuf)
  /-- The receive half of `shutdown`. -/
  | sorflush
  | nodelay (on : Bool)
  | maxseg (size : Nat)
  | sndbuf (cc : U32)
  | rcvbuf (cc : U32)
  | keepalive (on : Bool)
  | linger (on : Bool) (time : Int)
  | oobinline (on : Bool)

/-- `PRU_CONNECT`. -/
def connect (env : Env) (c : Conn) : Conn :=
  tcpOutput env
    { c with
      so := c.so.soisconnecting
      tp := ({ c.tp with
        tTemplate := true
        requestRScale := growScale c.so.soRcv.sbHiwat tcpMaxWinshift c.tp.requestRScale
        tState := .synSent, tKeep := tcptvKeepInit, iss := env.iss } : Tcpcb).sendseqinit }

/-- Data is appended to the send buffer. -/
def appendSnd (c : Conn) (m : Mbuf) : Conn :=
  { c with so := { c.so with soSnd := c.so.soSnd.sbappend m } }

/-- `PRU_RCVOOB`. -/
def rcvoob (c : Conn) (peek : Bool) : Conn :=
  let refused := (c.so.soOobmark = 0 ∧ ¬ c.so.ssRcvatmark) ∨ c.so.soOobinline ∨ c.tp.tcpoobHaddata ∨
    ¬ c.tp.tcpoobHavedata
  { c with tp := { c.tp with
    tcpoobHavedata := if refused ∨ peek then c.tp.tcpoobHavedata else !c.tp.tcpoobHavedata
    tcpoobHaddata := if refused ∨ peek then c.tp.tcpoobHaddata else !c.tp.tcpoobHaddata } }

/-- `PRU_SENDOOB`. -/
def sendoob (env : Env) (c : Conn) (m : Mbuf) : Conn :=
  if c.so.soSnd.sbspace < -512 then c
  else
    let c := appendSnd c m
    forcedOutput env { c with tp := { c.tp with sndUp := c.tp.sndUna + c.so.soSnd.sbCc } }

/-- `tcp_usrreq` and `tcp_ctloutput`. -/
def usrreq (env : Env) (c : Conn) : Request → Conn
  | .detach =>
    let c := if c.tp.tState.code > 1 then tcpDisconnect env c else tcpClose c
    { c with so := { c.so with ssNofdref := true } }
  | .listen =>
    { c with tp := { c.tp with tState := .listen }, so := { c.so with soAcceptconn := true } }
  | .connect => connect env c
  | .disconnect => tcpDisconnect env c
  | .accept => { c with so := { c.so with ssNofdref := false } }
  | .shutdown => closedOutput env { c with so := c.so.socantsendmore }
  | .rcvd n =>
    tcpOutput env { c with so := { c.so with
      soRcv := { c.so.soRcv with sbMb := c.so.soRcv.sbMb.drop n, sbMbcnt := c.so.soRcv.sbMbcnt - env.freed } } }
  | .send m => tcpOutput env (appendSnd c m)
  | .abort => tcpDrop env c econnaborted
  | .rcvoob peek => rcvoob c peek
  | .sendoob m => sendoob env c m
  | .sorflush => { c with so := c.so.socantrcvmore.flushRcv }
  | .nodelay on => { c with tp := { c.tp with tfNodelay := on } }
  | .maxseg size =>
    { c with tp := { c.tp with tMaxseg := if 0 < size ∧ size ≤ c.tp.tMaxseg then size else c.tp.tMaxseg } }
  | .sndbuf cc => { c with so := { c.so with soSnd := c.so.soSnd.sbreserve cc } }
  | .rcvbuf cc => { c with so := { c.so with soRcv := c.so.soRcv.sbreserve cc } }
  | .keepalive on => { c with so := { c.so with soKeepalive := on } }
  | .linger on time => { c with so := { c.so with soLinger := on, soLingertime := time } }
  | .oobinline on => { c with so := { c.so with soOobinline := on } }

end Reading.Tcp
