import Reading.Tcp.Receive
import Reading.Tcp.Session

/-!
# Retransmit and persist

The output side of a connection is idle, persisting or retransmitting. The retransmit timer is set only where the persist timer is off or is turned off with it, and `tcp_setpersist` is called only where the retransmit timer is off, so that its panic is not reached from any state of any run.
-/

namespace Reading.Tcp

open Reading.Kern
open Reading.Lib

/-- Not both timers are running, and `tcp_setpersist` has not stopped the machine. -/
def Conn.Exclusive (c : Conn) : Prop :=
  (c.tp.tRexmt = 0 ∨ c.tp.tPersist = 0) ∧ c.panicked ≠ some .setPersist

theorem Conn.Exclusive.panic {c : Conn} (h : c.Exclusive) {p : Panic} (hp : p ≠ .setPersist) :
    (c.panic p).Exclusive := by
  refine ⟨h.1, ?_⟩
  have hnot := h.2
  change (c.panicked <|> some p) ≠ _
  cases hpanicked : c.panicked with
  | none => simpa using hp
  | some q =>
    rw [hpanicked] at hnot
    exact hnot

/-! ### Output -/

section Output

variable {c : Conn}

theorem setpersist_exclusive (h : c.Exclusive) (hrexmt : c.tp.tRexmt = 0) : (setpersist c).Exclusive := by
  refine ⟨.inl hrexmt, ?_⟩
  change (if c.tp.tRexmt ≠ 0 then _ else c.panicked) ≠ _
  rw [if_neg (not_not.mpr hrexmt)]
  exact h.2

theorem outSettled_exclusive (h : c.Exclusive) : (outSettled c).Exclusive := by
  refine ⟨?_, h.2⟩
  change (if _ then 0 else c.tp.tRexmt) = 0 ∨ (if _ then 0 else c.tp.tPersist) = 0
  rcases h.1 with hrexmt | hpersist
  · exact .inl (by rw [hrexmt, ite_self])
  · exact .inr (by rw [hpersist, ite_self])

/-- Setting the retransmit timer turns the persist timer off. -/
theorem outTimer_exclusive {tp : Tcpcb} (h : tp.tRexmt = 0 ∨ tp.tPersist = 0) :
    (outTimer tp).tRexmt = 0 ∨ (outTimer tp).tPersist = 0 := by
  by_cases hstart : tp.tRexmt = 0 ∧ tp.sndNxt ≠ tp.sndUna
  · exact .inr (if_pos hstart)
  · simp only [outTimer, if_neg hstart]
    exact h

theorem outRecord_exclusive {tp : Tcpcb} (flags : Flags) (len : Int)
    (h : tp.tRexmt = 0 ∨ tp.tPersist = 0) :
    (outRecord tp flags len).tRexmt = 0 ∨ (outRecord tp flags len).tPersist = 0 := by
  unfold outRecord
  split
  · exact outTimer_exclusive h
  · exact h

theorem tcpMss_exclusive (rt? : Option Route) (offer : U32) (h : c.Exclusive) :
    (tcpMss rt? c offer).1.Exclusive := by
  cases rt? with
  | none => exact h
  | some rt => exact h

theorem outSend_exclusive (env : Env) (pass : Nat) (plan : OutPlan) (h : c.Exclusive) :
    (outSend env pass c plan).1.Exclusive := by
  have hoffer : (outOffer env (startSeq c plan.flags) plan.flags).1.Exclusive := by
    unfold outOffer
    split
    · exact tcpMss_exclusive _ _ h
    · exact h
  unfold outSend
  dsimp only
  generalize outOffer env (startSeq c plan.flags) plan.flags = offer at hoffer
  split
  · exact hoffer
  · split
    · exact hoffer.panic (by decide)
    · split
      · exact hoffer.panic (by decide)
      · unfold outFill outDeliver
        dsimp only
        split
        all_goals exact ⟨outRecord_exclusive _ _ hoffer.1, hoffer.2⟩

theorem outPass_exclusive (env : Env) (idle : Bool) (pass : Nat) (h : c.Exclusive) :
    (outPass env idle pass c).1.Exclusive := by
  have hsettled : (outPlan c).1.Exclusive := outSettled_exclusive h
  unfold outPass
  dsimp only
  split
  · exact outSend_exclusive env pass _ hsettled
  · split
    · rename_i hidle
      apply setpersist_exclusive
      · exact hsettled
      · exact hidle.2.1
    · exact hsettled

theorem tcpOutput_exclusive (env : Env) (h : c.Exclusive) : (tcpOutput env c).Exclusive := by
  have hpasses : ∀ idle fuel pass (c : Conn), c.Exclusive → (outPasses env idle fuel pass c).Exclusive := by
    intro idle fuel
    induction fuel with
    | zero => exact fun _ _ h => h
    | succ fuel ih =>
      intro pass c h
      unfold outPasses
      dsimp only
      split
      · exact ih _ _ (outPass_exclusive env idle pass h)
      · exact outPass_exclusive env idle pass h
  exact hpasses _ _ _ _ h

theorem tcpDrop_exclusive (env : Env) (errno : Int) (h : c.Exclusive) : (tcpDrop env c errno).Exclusive := by
  unfold tcpDrop
  dsimp only
  split
  · apply tcpOutput_exclusive (c := { c with tp := { c.tp with tState := .closed } })
    exact h
  · exact h

end Output

/-! ### Input -/

section Input

variable {x : Ctx} (env : Env)

/-- A stage ends in a connection with at most one of the timers running. -/
def KeepsExclusive (flow : Flow) : Prop := (outcome flow).c.Exclusive

theorem KeepsExclusive.bind {flow : Flow} {next : Ctx → Flow} (h : KeepsExclusive flow)
    (hnext : ∀ y : Ctx, y.c.Exclusive → KeepsExclusive (next y)) : KeepsExclusive (flow >>= next) := by
  cases flow with
  | ok y => exact hnext y h
  | error e => exact h

theorem dooptions_exclusive (h : x.c.Exclusive) : (dooptions env x).c.Exclusive := by
  have hoption : ∀ (y : Ctx) o, y.c.Exclusive → (dooption env y o).c.Exclusive := by
    intro y o hy
    cases o with
    | maxseg mss =>
      simp only [dooption]
      split
      · exact tcpMss_exclusive _ _ hy
      · exact hy
    | window shift =>
      simp only [dooption]
      split <;> exact hy
    | timestamp val ecr =>
      simp only [dooption]
      split <;> exact hy
  unfold dooptions
  generalize x.ti.options = options
  induction options generalizing x with
  | nil => exact h
  | cons o options ih => exact ih (hoption x o h)

/-- The retransmit timer is set again by an ACK only if the persist timer is off. -/
theorem ackTimer_exclusive {tp : Tcpcb} (ack : TcpSeq) (h : tp.tRexmt = 0 ∨ tp.tPersist = 0) :
    ackTimer tp ack = 0 ∨ tp.tPersist = 0 := by
  unfold ackTimer
  split
  · exact .inl rfl
  · split
    · rename_i hpersist
      exact .inr hpersist
    · exact h

theorem ackRtt_exclusive (h : x.c.Exclusive) : (ackRtt env x).c.Exclusive := by
  unfold ackRtt
  cases rttSample env x with
  | some rtt => exact h
  | none => exact h

theorem dropSnd_exclusive {c : Conn} (n : Int) (h : c.Exclusive) : (dropSnd env n c).Exclusive := by
  refine ⟨h.1, ?_⟩
  have hnot := h.2
  unfold dropSnd
  dsimp only
  split
  · exact (Conn.Exclusive.panic (p := .sbdrop) h (by decide)).2
  · exact hnot

theorem pureAck_exclusive (h : x.c.Exclusive) : (pureAck env x).Exclusive := by
  have hrtt := ackRtt_exclusive env h
  have hdrop := dropSnd_exclusive env (seqDiff (ackRtt env x).ti.tiAck (ackRtt env x).c.tp.sndUna) hrtt
  exact ⟨ackTimer_exclusive _ hdrop.1, hdrop.2⟩

theorem paws_exclusive (h : x.c.Exclusive) : KeepsExclusive (paws env x) := by
  unfold paws
  split
  · exact h
  · split
    · split
      · exact h
      · exact h
    · exact h

theorem trimLeft_exclusive (h : x.c.Exclusive) : KeepsExclusive (trimLeft x) := by
  unfold trimLeft
  dsimp only
  split
  · generalize (if x.tiflags.syn = true then seqDiff x.c.tp.rcvNxt x.ti.tiSeq - 1
      else seqDiff x.c.tp.rcvNxt x.ti.tiSeq) = todrop
    split
    · split
      · exact h
      · split
        · exact h
        · exact h
    · exact h
  · exact h

theorem rcvAfterClose_exclusive (h : x.c.Exclusive) : KeepsExclusive (rcvAfterClose x) := by
  unfold rcvAfterClose
  split
  · exact h
  · exact h

theorem trimRight_exclusive (h : x.c.Exclusive) : KeepsExclusive (trimRight x) := by
  unfold trimRight
  dsimp only
  split
  · split
    · split
      · exact h
      · split
        · exact h
        · exact h
    · exact h
  · exact h

theorem checkBits_exclusive (h : x.c.Exclusive) : KeepsExclusive (checkBits env x) := by
  unfold checkBits
  split
  · split
    all_goals exact h
  · split
    · exact tcpDrop_exclusive env _ h
    · split
      · exact h
      · exact h

theorem inputWindow_exclusive (h : x.c.Exclusive) : KeepsExclusive (inputWindow env x) := by
  unfold inputWindow
  refine (paws_exclusive env h).bind fun y hy => ?_
  refine (trimLeft_exclusive hy).bind fun y hy => ?_
  refine (rcvAfterClose_exclusive hy).bind fun y hy => ?_
  refine (trimRight_exclusive hy).bind fun y hy => ?_
  exact checkBits_exclusive env hy

theorem fastRetransmit_exclusive (h : x.c.Exclusive) : (fastRetransmit env x).c.Exclusive := by
  unfold fastRetransmit
  apply tcpOutput_exclusive (c := { x.c with tp := { x.c.tp with
    sndSsthresh := halfFlight x.c.tp, tRexmt := 0, tRtt := 0, sndNxt := x.ti.tiAck
    sndCwnd := BitVec.ofNat 32 x.c.tp.tMaxseg } })
  exact ⟨.inl rfl, h.2⟩

theorem dupAck_exclusive (h : x.c.Exclusive) : KeepsExclusive (dupAck env x) := by
  unfold dupAck
  split
  · split
    · exact h
    · have hy : (x.withTp fun tp => { tp with tDupacks := toShort (tp.tDupacks + 1) }).c.Exclusive := h
      dsimp only
      generalize (x.withTp fun tp => { tp with tDupacks := toShort (tp.tDupacks + 1) }) = y at hy
      split
      · exact fastRetransmit_exclusive env hy
      · split
        · apply tcpOutput_exclusive
          exact hy
        · exact hy
  · exact h

theorem finAcked_exclusive {ourfinisacked : Bool} (h : x.c.Exclusive) :
    KeepsExclusive (finAcked x ourfinisacked) := by
  unfold finAcked
  split
  · split
    · dsimp only
      split
      · exact h
      · exact h
    · exact h
  · split
    · exact ⟨.inl rfl, h.2⟩
    · exact h
  · split
    · exact h
    · exact h
  · exact h
  · exact h

theorem newAck_exclusive (h : x.c.Exclusive) : KeepsExclusive (newAck env x) := by
  unfold newAck
  dsimp only
  split
  · exact h
  · apply finAcked_exclusive
    have htimers : (ackTimers env (x.withTp retractCwnd)).c.Exclusive := by
      have hrtt := ackRtt_exclusive env (x := x.withTp retractCwnd) h
      exact ⟨ackTimer_exclusive _ hrtt.1, hrtt.2⟩
    generalize ackTimers env (x.withTp retractCwnd) = y at htimers
    exact dropSnd_exclusive env (ackedAmount y.c y.ti.tiAck) htimers

theorem ackInput_exclusive (h : x.c.Exclusive) : KeepsExclusive (ackInput env x) := by
  have hsyn : KeepsExclusive (ackSynReceived x) := by
    unfold ackSynReceived
    split
    · split
      · exact h
      · exact h
    · exact h
  refine hsyn.bind fun y hy => ?_
  split
  · exact hy
  · split
    · exact dupAck_exclusive env hy
    · exact newAck_exclusive env hy

theorem inputSynSent_exclusive (h : x.c.Exclusive) : KeepsExclusive (inputSynSent env x) := by
  unfold inputSynSent
  split
  · exact h
  split
  · split
    · exact tcpDrop_exclusive env _ h
    · exact h
  split
  · exact h
  have htake : (takeSyn x).c.Exclusive := ⟨.inl rfl, h.2⟩
  dsimp only
  generalize takeSyn x = y at htake
  split
  · have hopen : (openActive y).c.Exclusive := by
      unfold openActive Ctx.withTp
      dsimp only
      split
      · exact htake
      · exact htake
    exact hopen
  · exact htake

theorem urgent_step6_exclusive (h : x.c.Exclusive) : (urgent (step6 x)).c.Exclusive := by
  have hstep6 : (step6 x).c.Exclusive := by
    unfold step6
    split
    · exact h
    · exact h
  have hpull : ∀ y : Ctx, y.c.Exclusive → (pullOutOfBand y).c.Exclusive := by
    intro y hy
    unfold pullOutOfBand
    split
    · exact hy.panic (by decide)
    · exact hy
  generalize step6 x = y at hstep6
  unfold urgent
  dsimp only
  split
  · split
    · exact hstep6
    · split
      · split
        · apply hpull
          exact hstep6
        · exact hstep6
      · split
        · exact hpull _ hstep6
        · exact hstep6
  · split
    · exact hstep6
    · exact hstep6

theorem dodata_exclusive (h : x.c.Exclusive) : (dodata x).c.Exclusive := by
  unfold dodata
  split
  · change (tcpReassMacro x.c x.ti).1.Exclusive
    unfold tcpReassMacro
    split
    · exact h
    · unfold tcpReass
      dsimp only
      split
      · exact h
      · exact h
  · exact h

theorem finInput_exclusive (h : x.c.Exclusive) : (finInput x).c.Exclusive := by
  have hstate : ∀ y : Ctx, y.c.Exclusive → (finState y).c.Exclusive := by
    intro y hy
    unfold finState
    split
    · exact hy
    · exact hy
    · exact hy
    · exact ⟨.inl rfl, hy.2⟩
    · exact hy
    · exact hy
  unfold finInput
  split
  · apply hstate
    split
    · exact h
    · exact h
  · exact h

theorem step6on_exclusive (h : x.c.Exclusive) : (step6on x).c.Exclusive :=
  finInput_exclusive (dodata_exclusive (urgent_step6_exclusive h))

theorem inputListen_exclusive (h : x.c.Exclusive) : (inputListen env x).c.Exclusive := by
  have hopts := dooptions_exclusive env h
  unfold inputListen trimThenStep6 Ctx.withTp Tcpcb.rcvseqinit Tcpcb.sendseqinit
  exact ⟨hopts.1, hopts.2⟩

theorem general_exclusive (h : x.c.Exclusive) : KeepsExclusive (general env x) := by
  have hw : (withWindow x).c.Exclusive := h
  have hlast : ∀ flow, KeepsExclusive flow → KeepsExclusive (flow >>= fun y => .ok (step6on y)) :=
    fun flow hflow => hflow.bind fun y hy => step6on_exclusive hy
  unfold general
  dsimp only
  split
  · exact hlast _ (inputSynSent_exclusive env hw)
  · exact step6on_exclusive (inputListen_exclusive env hw)
  · exact hlast _ ((inputWindow_exclusive env hw).bind fun y hy => ackInput_exclusive env hy)

theorem finish_exclusive {flow : Flow} (h : KeepsExclusive flow) : (finish env flow).Exclusive := by
  cases flow with
  | ok y =>
    simp only [finish]
    split
    · exact tcpOutput_exclusive env h
    · exact h
  | error e =>
    obtain ⟨exit, y⟩ := e
    cases exit with
    | drop => exact h
    | dropafterack =>
      simp only [finish]
      split
      · exact h
      · apply tcpOutput_exclusive
        exact h
    | dropwithreset =>
      simp only [finish]
      split
      · exact h
      · split
        · exact h
        · exact h

theorem entry_exclusive {c : Conn} (ti : Seg) (h : c.Exclusive) : (entry env c ti).c.Exclusive := by
  unfold entry
  dsimp only
  split
  · exact h
  · apply dooptions_exclusive
    exact h

theorem tcpInput_exclusive {c : Conn} (ti : Seg) (h : c.Exclusive) : (tcpInput env c ti).Exclusive := by
  have hentry := entry_exclusive env ti h
  unfold tcpInput
  split
  · exact h
  split
  · unfold listenInput
    split
    · exact h
    · exact h
  unfold predict
  generalize entry env c ti = x at hentry
  split
  · rename_i c' hpredict
    split at hpredict
    · have hrecord : (recordTimestamp env 0 x).c.Exclusive := hentry
      dsimp only at hpredict
      generalize recordTimestamp env 0 x = y at hpredict hrecord
      split at hpredict
      · cases hpredict
        split
        · exact tcpOutput_exclusive env (pureAck_exclusive env hrecord)
        · exact pureAck_exclusive env hrecord
      · split at hpredict
        · cases hpredict
          exact hrecord
        · cases hpredict
    · cases hpredict
  · rename_i y hpredict
    have hy : y.c.Exclusive := by
      split at hpredict
      · dsimp only at hpredict
        split at hpredict
        · cases hpredict
        · split at hpredict
          · cases hpredict
          · cases hpredict
            exact hentry
      · cases hpredict
        exact hentry
    exact finish_exclusive env (general_exclusive env hy)

end Input

/-! ### Timers and requests -/

section User

variable {c : Conn} (env : Env)

theorem rexmtTimeout_exclusive (h : c.Exclusive) (hpersist : c.tp.tPersist = 0) :
    (rexmtTimeout env c).Exclusive := by
  unfold rexmtTimeout
  dsimp only
  split
  · apply tcpDrop_exclusive
    exact h
  · apply tcpOutput_exclusive
    exact ⟨.inr hpersist, h.2⟩

theorem forcedOutput_exclusive (h : c.Exclusive) : (forcedOutput env c).Exclusive := by
  have hforced : ({ c with tp := { c.tp with tForce := true } } : Conn).Exclusive := ⟨h.1, h.2⟩
  have hsent := tcpOutput_exclusive env hforced
  unfold forcedOutput
  exact ⟨hsent.1, hsent.2⟩

theorem persistTimeout_exclusive (h : c.Exclusive) (hrexmt : c.tp.tRexmt = 0) :
    (persistTimeout env c).Exclusive := by
  unfold persistTimeout
  split
  · exact tcpDrop_exclusive env _ h
  · exact forcedOutput_exclusive env (setpersist_exclusive h hrexmt)

theorem countDown_exclusive (h : c.Exclusive) (t : Timer) : (countDown env c t).Exclusive := by
  unfold countDown
  split
  · exact h
  · rename_i hgo
    have hrun : c.tp.timer t ≠ 0 := fun hzero => hgo (.inr hzero)
    dsimp only
    cases t with
    | rexmt =>
      have hpersist : c.tp.tPersist = 0 := h.1.resolve_left hrun
      split
      · apply rexmtTimeout_exclusive
        · exact ⟨.inr hpersist, h.2⟩
        · exact hpersist
      · exact ⟨.inr hpersist, h.2⟩
    | persist =>
      have hrexmt : c.tp.tRexmt = 0 := h.1.resolve_right hrun
      split
      · apply persistTimeout_exclusive
        · exact ⟨.inl hrexmt, h.2⟩
        · exact hrexmt
      · exact ⟨.inl hrexmt, h.2⟩
    | keep =>
      split
      · change (keepTimeout env _).Exclusive
        unfold keepTimeout
        split
        · apply tcpDrop_exclusive
          exact h
        · split
          · split
            · apply tcpDrop_exclusive
              exact h
            · exact h
          · exact h
      · exact h
    | msl2 =>
      split
      · change (msl2Timeout _).Exclusive
        unfold msl2Timeout
        split
        · exact h
        · exact h
      · exact h

theorem tcpSlowtimo_exclusive (h : c.Exclusive) : (tcpSlowtimo env c).Exclusive := by
  have hfold : ∀ (timers : List Timer) (c : Conn), c.Exclusive →
      (timers.foldl (countDown env) c).Exclusive := by
    intro timers
    induction timers with
    | nil => exact fun _ h => h
    | cons t timers ih => exact fun c h => ih _ (countDown_exclusive env h t)
  unfold tcpSlowtimo
  split
  · exact h
  · have hdown := hfold [.rexmt, .persist, .keep, .msl2] c h
    dsimp only
    generalize [Timer.rexmt, .persist, .keep, .msl2].foldl (countDown env) c = c' at hdown
    split
    · exact hdown
    · exact hdown

theorem closedOutput_exclusive (h : c.Exclusive) : (closedOutput env c).Exclusive := by
  have hclosed : (tcpUsrclosed c).Exclusive := by
    unfold tcpUsrclosed
    split
    all_goals exact h
  unfold closedOutput
  dsimp only
  split
  · exact hclosed
  · exact tcpOutput_exclusive env hclosed

theorem tcpDisconnect_exclusive (h : c.Exclusive) : (tcpDisconnect env c).Exclusive := by
  unfold tcpDisconnect
  split
  · exact h
  · split
    · exact tcpDrop_exclusive env _ h
    · apply closedOutput_exclusive
      exact h

theorem usrreq_exclusive (h : c.Exclusive) (r : Request) : (usrreq env c r).Exclusive := by
  cases r with
  | detach =>
    change (if c.tp.tState.code > 1 then tcpDisconnect env c else tcpClose c).Exclusive
    split
    · exact tcpDisconnect_exclusive env h
    · exact h
  | connect =>
    apply tcpOutput_exclusive
    exact h
  | disconnect => exact tcpDisconnect_exclusive env h
  | shutdown =>
    apply closedOutput_exclusive
    exact h
  | rcvd n =>
    apply tcpOutput_exclusive
    exact h
  | send m =>
    apply tcpOutput_exclusive
    exact h
  | abort => exact tcpDrop_exclusive env _ h
  | sendoob m =>
    change (sendoob env c m).Exclusive
    unfold sendoob
    split
    · exact h
    · apply forcedOutput_exclusive
      exact h
  | listen => exact h
  | accept => exact h
  | rcvoob peek => exact h
  | sorflush => exact h
  | nodelay on => exact h
  | maxseg size => exact h
  | sndbuf cc => exact h
  | rcvbuf cc => exact h
  | keepalive on => exact h
  | linger on time => exact h
  | oobinline on => exact h

end User

/-! ### Runs -/

namespace Session

theorem step_exclusive {s : Session} (a : Action) (h : s.conn.Exclusive) : (s.step a).conn.Exclusive := by
  unfold Session.step
  split
  · exact h
  · cases a with
    | request env r => exact usrreq_exclusive env h r
    | segment env ti => exact tcpInput_exclusive env ti h
    | output env => exact tcpOutput_exclusive env h
    | slowtimo env => exact tcpSlowtimo_exclusive env h
    | fasttimo env =>
      change (tcpFasttimo env s.conn).Exclusive
      unfold tcpFasttimo
      split
      · apply tcpOutput_exclusive
        exact h
      · exact h

theorem Init.exclusive {s : Session} (h : s.Init) : s.conn.Exclusive := by
  cases h with
  | attach => exact ⟨.inl rfl, by decide⟩
  | spawn env head ti _ _ _ _ =>
    have hchild : (listenChild head).Exclusive := ⟨.inl rfl, fun h => by cases h⟩
    exact finish_exclusive env (general_exclusive env (entry_exclusive env ti hchild))

/-- In every state of every run at most one of the two timers is running, and `tcp_setpersist` has not panicked. -/
theorem rexmt_or_persist_off {s₀ : Session} (hinit : s₀.Init) (actions : List Action) :
    let s := Transition.run step s₀ actions
    (s.conn.tp.tRexmt = 0 ∨ s.conn.tp.tPersist = 0) ∧ s.conn.panicked ≠ some .setPersist := by
  have hstep : ∀ (s : Session) (a : Action), True → s.conn.Exclusive → (s.step a).conn.Exclusive :=
    fun s a _ h => step_exclusive a h
  exact Transition.run_invariant step hstep (Transition.along_true step s₀ actions) hinit.exclusive

theorem rexmt_or_persist_off_orderlyRun :
    (Transition.run step asked orderlyRun).conn.tp.tRexmt ≠ 0 ∧
      (Transition.run step asked orderlyRun).conn.tp.tPersist = 0 := by
  have hoff := (rexmt_or_persist_off asked_init orderlyRun).1
  have hrexmt : (Transition.run step asked orderlyRun).conn.tp.tRexmt ≠ 0 := by decide +kernel
  exact ⟨hrexmt, hoff.resolve_left hrexmt⟩

end Session

end Reading.Tcp
