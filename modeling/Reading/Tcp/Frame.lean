import Reading.Tcp.Output

/-!
# What TCP output leaves alone

`tcp_output` moves `snd_nxt`, `snd_max`, the urgent pointer and the timers, and may learn new buffer limits from a route; the state, the left edge of the send window, the receive side and the contents of both buffers stay.
-/

namespace Reading.Tcp

open Reading.Kern

/-- The fields of a control block that `tcp_output` does not assign. -/
structure Tcpcb.Kept where
  tState : TcpState
  segs : List Seg
  tTemplate : Bool
  iss : TcpSeq
  irs : TcpSeq
  sndUna : TcpSeq
  rcvNxt : TcpSeq
  deriving DecidableEq

def Tcpcb.kept (tp : Tcpcb) : Tcpcb.Kept where
  tState := tp.tState
  segs := tp.segs
  tTemplate := tp.tTemplate
  iss := tp.iss
  irs := tp.irs
  sndUna := tp.sndUna
  rcvNxt := tp.rcvNxt

/-- A socket without the limits of its buffers. -/
def plain (so : Socket) : Socket :=
  { so with soSnd := { sbMb := so.soSnd.sbMb }, soRcv := { sbMb := so.soRcv.sbMb } }

def Conn.kept (c : Conn) : Tcpcb.Kept × Socket × Bool := (c.tp.kept, plain c.so, c.gone)

theorem sbreserve_sbMb (sb : Sockbuf) (cc : U32) : (sb.sbreserve cc).sbMb = sb.sbMb := by
  unfold Sockbuf.sbreserve
  split <;> rfl

theorem tcpMss_kept (rt? : Option Route) (c : Conn) (offer : U32) : (tcpMss rt? c offer).1.kept = c.kept := by
  cases rt? with
  | none => rfl
  | some rt =>
    have hbuf : ∀ (P : Prop) [Decidable P] (sb : Sockbuf) cc,
        (if P then sb.sbreserve cc else sb).sbMb = sb.sbMb := by
      intro P _ sb cc
      split
      · exact sbreserve_sbMb _ _
      · rfl
    have htp : (tcpMss (some rt) c offer).1.tp.kept = c.tp.kept := rfl
    have hso : plain (tcpMss (some rt) c offer).1.so = plain c.so := by
      simp only [tcpMss, plain, hbuf]
    rw [Conn.kept, Conn.kept, htp, hso]
    rfl

theorem outRecord_kept (tp : Tcpcb) (flags : Flags) (len : Int) :
    (outRecord tp flags len).kept = tp.kept := by
  unfold outRecord
  split <;> rfl

theorem outDeliver_kept (env : Env) (pass : Nat) (c : Conn) (win : Int) (sendalot : Bool) :
    (outDeliver env pass c win sendalot).1.kept = c.kept := by
  unfold outDeliver
  cases env.ipOutput pass <;> rfl

theorem outFill_kept (env : Env) (pass : Nat) (c : Conn) (flags : Flags) (options : List TcpOption)
    (len : Int) (data : List Byte) (sendalot : Bool) :
    (outFill env pass c flags options len data sendalot).1.kept = c.kept := by
  unfold outFill
  rw [outDeliver_kept]
  have htp := outRecord_kept (pullSndUp (resendFin c.tp flags)) flags len
  rw [Conn.kept, Conn.kept]
  exact congrArg (fun kept => (kept, plain c.so, c.gone)) htp

theorem outOffer_kept (env : Env) (c : Conn) (flags : Flags) : (outOffer env c flags).1.kept = c.kept := by
  unfold outOffer
  split
  · exact tcpMss_kept _ _ _
  · rfl

theorem outSend_kept (env : Env) (pass : Nat) (c : Conn) (plan : OutPlan) :
    (outSend env pass c plan).1.kept = c.kept := by
  have hoffer := outOffer_kept env (startSeq c plan.flags) plan.flags
  unfold outSend
  dsimp only
  split
  · exact hoffer
  · split
    · exact hoffer
    · split
      · exact hoffer
      · rw [outFill_kept]
        exact hoffer

theorem outPass_kept (env : Env) (idle : Bool) (pass : Nat) (c : Conn) :
    (outPass env idle pass c).1.kept = c.kept := by
  have hplan : (outPlan c).1.kept = c.kept := rfl
  unfold outPass
  dsimp only
  split
  · rw [outSend_kept, hplan]
  · split
    · exact hplan
    · exact hplan

theorem outPasses_kept (env : Env) (idle : Bool) (fuel pass : Nat) (c : Conn) :
    (outPasses env idle fuel pass c).kept = c.kept := by
  induction fuel generalizing pass c with
  | zero => rfl
  | succ fuel ih =>
    unfold outPasses
    dsimp only
    split
    · rw [ih, outPass_kept]
    · exact outPass_kept env idle pass c

theorem tcpOutput_kept (env : Env) (c : Conn) : (tcpOutput env c).kept = c.kept := by
  unfold tcpOutput
  rw [outPasses_kept]
  rfl

end Reading.Tcp
