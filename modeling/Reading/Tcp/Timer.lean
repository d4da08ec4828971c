import Reading.Tcp.Input

/-!
# TCP timers

`tcp_timers`, and the two timeout routines as far as they concern one connection.
-/

namespace Reading.Tcp

open Reading.Kern

inductive Timer where
  | rexmt
  | persist
  | keep
  | msl2
  deriving DecidableEq, Repr

namespace Tcpcb

def timer (tp : Tcpcb) : Timer → Int
  | .rexmt => tp.tRexmt
  | .persist => tp.tPersist
  | .keep => tp.tKeep
  | .msl2 => tp.t2msl

def setTimer (tp : Tcpcb) (value : Int) : Timer → Tcpcb
  | .rexmt => { tp with tRexmt := value }
  | .persist => { tp with tPersist := value }
  | .keep => { tp with tKeep := value }
  | .msl2 => { tp with t2msl := value }

end Tcpcb

/-- The retransmission timer went off. -/
def rexmtTimeout (env : Env) (c : Conn) : Conn :=
  let shift := c.tp.tRxtshift + 1
  if shift > tcpMaxrxtshift then
    tcpDrop env { c with tp := { c.tp with tRxtshift := tcpMaxrxtshift } }
      (if c.tp.tSofterror ≠ 0 then c.tp.tSofterror else etimedout)
  else
    let rxtcur := tcptRangeset (toShort (c.tp.rexmtval * tcpBackoff shift)) c.tp.tRttmin tcptvRexmtmax
    -- backed off this far, the estimate is probably bogus
    let losing := shift > tcpMaxrxtshift / 4
    tcpOutput env { c with tp := { c.tp with
      tRxtshift := shift, tRxtcur := rxtcur, tRexmt := rxtcur
      tRttvar := if losing then toShort (c.tp.tRttvar + c.tp.tSrtt / 8) else c.tp.tRttvar
      tSrtt := if losing then 0 else c.tp.tSrtt
      sndNxt := c.tp.sndUna, tRtt := 0
      sndCwnd := BitVec.ofNat 32 c.tp.tMaxseg
      sndSsthresh := halfFlight c.tp
      tDupacks := 0 } }

/-- An output with `t_force` set. -/
def forcedOutput (env : Env) (c : Conn) : Conn :=
  let c := tcpOutput env { c with tp := { c.tp with tForce := true } }
  { c with tp := { c.tp with tForce := false } }

/-- Persistence timer into zero window. -/
def persistTimeout (env : Env) (c : Conn) : Conn :=
  if c.tp.tRxtshift = tcpMaxrxtshift ∧
      ((c.tp.tIdle : Int) ≥ tcpMaxpersistidle ∨ (c.tp.tIdle : Int) ≥ c.tp.rexmtval * tcpTotbackoff) then
    tcpDrop env c etimedout
  else forcedOutput env (setpersist c)

/-- The keep-alive timer went off; send something or drop the connection if idle for too long. -/
def keepTimeout (env : Env) (c : Conn) : Conn :=
  if c.tp.tState.code < 4 then tcpDrop env c etimedout
  else if c.so.soKeepalive ∧ c.tp.tState.code ≤ 5 then
    if (c.tp.tIdle : Int) ≥ tcpKeepidle + tcpMaxidle then tcpDrop env c etimedout
    else
      let c := tcpRespond c c.tp.rcvNxt (c.tp.sndUna - 1) { ack := true }
      { c with tp := { c.tp with tKeep := tcpKeepintvl } }
  else { c with tp := { c.tp with tKeep := tcpKeepidle } }

/-- The 2 MSL timeout in shutdown went off. -/
def msl2Timeout (c : Conn) : Conn :=
  if c.tp.tState ≠ .timeWait ∧ (c.tp.tIdle : Int) ≤ tcpMaxidle then
    { c with tp := { c.tp with t2msl := tcpKeepintvl } }
  else tcpClose c

def tcpTimers (env : Env) (c : Conn) : Timer → Conn
  | .rexmt => rexmtTimeout env c
  | .persist => persistTimeout env c
  | .keep => keepTimeout env c
  | .msl2 => msl2Timeout c

/-- Count down one timer, unless the connection is gone. -/
def countDown (env : Env) (c : Conn) (t : Timer) : Conn :=
  if c.gone ∨ c.tp.timer t = 0 then c
  else
    let c := { c with tp := c.tp.setTimer (c.tp.timer t - 1) t }
    if c.tp.timer t = 0 then tcpTimers env c t else c

/-- `tcp_slowtimo` for one connection. -/
def tcpSlowtimo (env : Env) (c : Conn) : Conn :=
  if c.tp.tState = .listen then c
  else
    let c := [.rexmt, .persist, .keep, .msl2].foldl (countDown env) c
    if c.gone then c
    else { c with tp := { c.tp with
      tIdle := c.tp.tIdle + 1, tRtt := if c.tp.tRtt ≠ 0 then toShort (c.tp.tRtt + 1) else 0 } }

/-- `tcp_fasttimo` for one connection. -/
def tcpFasttimo (env : Env) (c : Conn) : Conn :=
  if c.tp.tfDelack then
    tcpOutput env { c with tp := { c.tp with tfDelack := false, tfAcknow := true } }
  else c

end Reading.Tcp
