import Reading.Lib.Transition
import Reading.Tcp.Assembly
import Reading.Tcp.Frame
import Reading.Tcp.Input

/-!
# The receive side of `tcp_input`

Segments of a stream without SYN, FIN, RST and URG arrive in any order at an established connection, overlapping, repeated and cut as they may be. Whatever the rest of the segment says, and whatever else happens to the connection in between, the octets appended to the receive buffer are those of the stream in order, and the queue holds octets of the stream that are still to come.
-/

namespace Reading.Tcp

open Reading.Kern
open Reading.Lib

theorem rcv_eq_of_kept {c c' : Conn} (h : c'.kept = c.kept) : c'.rcv = c.rcv := by
  have hstate : c'.tp.tState = c.tp.tState := congrArg (·.1.tState) h
  have hirs : c'.tp.irs = c.tp.irs := congrArg (·.1.irs) h
  have hnxt : c'.tp.rcvNxt = c.tp.rcvNxt := congrArg (·.1.rcvNxt) h
  have hsegs : c'.tp.segs = c.tp.segs := congrArg (·.1.segs) h
  have hmore : c'.so.ssCantrcvmore = c.so.ssCantrcvmore := congrArg (·.2.1.ssCantrcvmore) h
  have hdata : c'.so.soRcv.sbMb = c.so.soRcv.sbMb := congrArg (·.2.1.soRcv.sbMb) h
  rw [Conn.rcv, Conn.rcv, hstate, hirs, hnxt, hsegs, hmore, hdata]

theorem tcpOutput_rcv (env : Env) (c : Conn) : (tcpOutput env c).rcv = c.rcv :=
  rcv_eq_of_kept (tcpOutput_kept env c)

/-! ### Stages that leave the receive side alone -/

/-- A stage leaves the receive side as it is in `r`, and what it goes on with meets `P`. -/
def Keeps (r : RcvSide) (P : Ctx → Prop) : Flow → Prop
  | .ok y => y.c.rcv = r ∧ P y
  | .error (_, y) => y.c.rcv = r

theorem Keeps.bind {r : RcvSide} {P Q : Ctx → Prop} {flow : Flow} {next : Ctx → Flow}
    (h : Keeps r P flow) (hnext : ∀ y, y.c.rcv = r → P y → Keeps r Q (next y)) :
    Keeps r Q (flow >>= next) := by
  cases flow with
  | ok y => exact hnext y h.1 h.2
  | error e => exact h

/-- The locals with which a segment leaves. -/
def outcome : Flow → Ctx
  | .ok y => y
  | .error (_, y) => y

theorem Keeps.outcome {r : RcvSide} {P : Ctx → Prop} {flow : Flow} (h : Keeps r P flow) :
    (outcome flow).c.rcv = r := by
  cases flow with
  | ok y => exact h.1
  | error e => exact h

theorem finish_rcv (env : Env) (flow : Flow) : (finish env flow).rcv = (outcome flow).c.rcv := by
  cases flow with
  | ok y =>
    simp only [finish]
    split
    · exact tcpOutput_rcv env y.c
    · rfl
  | error e =>
    obtain ⟨exit, y⟩ := e
    cases exit with
    | drop => rfl
    | dropafterack =>
      simp only [finish]
      split
      · rfl
      · exact tcpOutput_rcv env _
    | dropwithreset =>
      simp only [finish]
      split
      · rfl
      · split <;> rfl

/-- What is left of a segment of the stream: no control bits but ACK and PUSH, and its octets placed at `p`. -/
structure Source.Carries (src : Source) (x : Ctx) (p : Nat) : Prop where
  syn : x.tiflags.syn = false
  fin : x.tiflags.fin = false
  rst : x.tiflags.rst = false
  urg : x.tiflags.urg = false
  finArrived : x.ti.tiFlags.fin = false
  placed : src.Placed x.ti p

section Stages

variable {src : Source} {n : Nat} {env : Env} {x : Ctx}

/-- The segment is placed at or above position `n`. -/
def Source.Pending (src : Source) (n : Nat) (x : Ctx) : Prop := ∃ p, n ≤ p ∧ src.Carries x p

theorem Source.Carries.of_eq {y : Ctx} {p : Nat} (h : src.Carries x p) (hflags : y.tiflags = x.tiflags)
    (hti : y.ti = x.ti) : src.Carries y p := by
  refine ⟨?_, ?_, ?_, ?_, ?_, ?_⟩
  · rw [hflags]; exact h.syn
  · rw [hflags]; exact h.fin
  · rw [hflags]; exact h.rst
  · rw [hflags]; exact h.urg
  · rw [hti]; exact h.finArrived
  · rw [hti]; exact h.placed

theorem Source.Pending.of_eq {y : Ctx} (h : src.Pending n x) (hflags : y.tiflags = x.tiflags)
    (hti : y.ti = x.ti) : src.Pending n y := by
  obtain ⟨p, hp, hcarries⟩ := h
  exact ⟨p, hp, hcarries.of_eq hflags hti⟩

theorem paws_keeps {p : Nat} (h : src.Carries x p) :
    Keeps x.c.rcv (fun y => ∃ p, src.Carries y p) (paws env x) := by
  unfold paws
  split
  · exact ⟨rfl, p, h⟩
  · split
    · split
      · exact ⟨rfl, p, h.of_eq rfl rfl⟩
      · exact rfl
    · exact ⟨rfl, p, h⟩

theorem trimLeft_keeps {p : Nat} (h : src.Carries x p) (hassembled : src.Assembled n x.c.rcv) :
    Keeps x.c.rcv (src.Pending n) (trimLeft x) := by
  have hnxt : x.c.tp.rcvNxt = src.seqAt n := hassembled.rcvNxt
  have hdiff : seqDiff x.c.tp.rcvNxt x.ti.tiSeq = (n : Int) - p := by
    rw [hnxt, h.placed.seq]
    apply src.seqDiff_seqAt
    · have := hassembled.upper; have := h.placed.lower; omega
    · have := h.placed.upper; have := hassembled.lower; omega
  have hsame := trimSyn_of_not_syn h.syn
  unfold trimLeft
  by_cases hbefore : seqDiff x.c.tp.rcvNxt x.ti.tiSeq > 0
  · simp only [if_pos hbefore, hsame, h.syn, h.fin, Bool.false_eq_true, false_and, if_false]
    by_cases hall : seqDiff x.c.tp.rcvNxt x.ti.tiSeq ≥ x.ti.tiLen
    · have hdrop : seqDiff x.c.tp.rcvNxt x.ti.tiSeq ≠ 0 ∨ ¬ x.tiflags.ack = true := .inl (by omega)
      rw [if_pos hall, if_pos hdrop]
      exact rfl
    · rw [if_neg hall]
      refine ⟨rfl, n, le_refl n, h.syn, h.fin, h.rst, ?_, h.finArrived, ?_⟩
      · simp [trimFront, h.urg]
      · have hp : p + (seqDiff x.c.tp.rcvNxt x.ti.tiSeq).toNat = n := by omega
        have htrim := h.placed.trimHead (i := seqDiff x.c.tp.rcvNxt x.ti.tiSeq) (by omega) (by omega)
        rw [hp] at htrim
        exact ⟨htrim.seq, htrim.bytes, htrim.lower, htrim.upper⟩
  · rw [if_neg hbefore]
    exact ⟨rfl, p, by omega, h⟩

theorem trimRight_keeps (h : src.Pending n x) (hstate : x.c.tp.tState = .established) :
    Keeps x.c.rcv (src.Pending n) (trimRight x) := by
  obtain ⟨p, hp, hcarries⟩ := h
  -- cutting any number of octets from the end leaves a segment of the stream at the same place
  have htrim : ∀ (todrop : Int) (y : Ctx), todrop > 0 → y.ti = x.ti → y.tiflags = x.tiflags →
      src.Pending n (trimBack todrop y) := by
    intro todrop y hpos hti hflags
    have hy := hcarries.of_eq hflags hti
    refine ⟨p, hp, hy.syn, rfl, hy.rst, hy.urg, hy.finArrived, hy.placed.seq, ?_, hy.placed.lower, ?_⟩
    · change (mAdj y.ti.m (-todrop)).bytes = slice src.stream p (y.ti.tiLen - todrop.toNat)
      rw [bytes_mAdj_tail _ (by omega), hy.placed.bytes, length_slice, neg_neg,
        take_slice _ _ (Nat.sub_le _ _)]
    · change p + (y.ti.tiLen - todrop.toNat) < _
      have := hy.placed.upper
      omega
  have htime : ¬ (x.tiflags.syn = true ∧ x.c.tp.tState = .timeWait ∧
      seqGT x.ti.tiSeq x.c.tp.rcvNxt) := by simp [hstate]
  unfold trimRight
  by_cases hafter : seqDiff x.ti.after (x.c.tp.rcvNxt + x.c.tp.rcvWnd) > 0
  · rw [if_pos hafter, if_neg htime]
    split
    · split
      · exact ⟨rfl, htrim _ _ hafter rfl rfl⟩
      · exact rfl
    · exact ⟨rfl, htrim _ _ hafter rfl rfl⟩
  · rw [if_neg hafter]
    exact ⟨rfl, p, hp, hcarries⟩

variable (env) in
theorem checkBits_keeps (h : src.Pending n x) : Keeps x.c.rcv (src.Pending n) (checkBits env x) := by
  obtain ⟨p, hp, hcarries⟩ := id h
  unfold checkBits
  rw [if_neg (by simp [hcarries.rst]), if_neg (by simp [hcarries.syn])]
  split
  · exact rfl
  · exact ⟨rfl, h⟩

theorem dupAck_keeps (h : src.Pending n x) : Keeps x.c.rcv (src.Pending n) (dupAck env x) := by
  unfold dupAck
  split
  · split
    · exact ⟨rfl, h.of_eq rfl rfl⟩
    · dsimp only
      split
      · exact tcpOutput_rcv env _
      · split
        · exact tcpOutput_rcv env _
        · exact ⟨rfl, h.of_eq rfl rfl⟩
  · exact ⟨rfl, h.of_eq rfl rfl⟩

theorem ackRtt_frame (env : Env) (x : Ctx) :
    (ackRtt env x).c.rcv = x.c.rcv ∧ (ackRtt env x).ti = x.ti ∧ (ackRtt env x).tiflags = x.tiflags := by
  unfold ackRtt
  split
  · exact ⟨rfl, rfl, rfl⟩
  · exact ⟨rfl, rfl, rfl⟩

theorem newAck_keeps (h : src.Pending n x) (hstate : x.c.tp.tState = .established) :
    Keeps x.c.rcv (src.Pending n) (newAck env x) := by
  obtain ⟨hrcv, hti, hflags⟩ := ackRtt_frame env (x.withTp retractCwnd)
  unfold newAck
  dsimp only
  split
  · exact rfl
  · have hstate' : (advanceUna (dropAcked env (ackTimers env (x.withTp retractCwnd))).1).c.tp.tState =
        .established := (congrArg RcvSide.tState hrcv).trans hstate
    unfold finAcked
    rw [hstate']
    exact ⟨hrcv, h.of_eq hflags hti⟩

variable (env) in
theorem ackInput_keeps (h : src.Pending n x) (hstate : x.c.tp.tState = .established) :
    Keeps x.c.rcv (src.Pending n) (ackInput env x) := by
  have hsyn : ackSynReceived x = .ok x := by simp [ackSynReceived, hstate]
  have hcode : ¬ x.c.tp.tState.code < 4 := by rw [hstate]; decide
  simp only [ackInput, hsyn, bind, Except.bind, if_neg hcode]
  split
  · exact dupAck_keeps h
  · exact newAck_keeps h hstate

theorem inputWindow_keeps {p : Nat} (h : src.Carries x p) (hassembled : src.Assembled n x.c.rcv) :
    Keeps x.c.rcv (src.Pending n) (inputWindow env x) := by
  have hstate : ∀ y : Ctx, y.c.rcv = x.c.rcv → y.c.tp.tState = .established :=
    fun y hy => (congrArg RcvSide.tState hy).trans hassembled.tState
  unfold inputWindow
  refine (paws_keeps h).bind fun y hy hcarries => ?_
  obtain ⟨q, hcarries⟩ := hcarries
  have hleft := trimLeft_keeps hcarries (hy ▸ hassembled)
  rw [hy] at hleft
  refine hleft.bind fun y hy hpending => ?_
  have hclose : Keeps x.c.rcv (src.Pending n) (rcvAfterClose y) := by
    have hopen : rcvAfterClose y = .ok y := by simp [rcvAfterClose, hstate y hy, TcpState.code]
    rw [hopen]
    exact ⟨hy, hpending⟩
  refine hclose.bind fun y hy hpending => ?_
  have hright := trimRight_keeps hpending (hstate y hy)
  rw [hy] at hright
  refine hright.bind fun y hy hpending => ?_
  have hbits := checkBits_keeps env (hpending.of_eq (y := recordTimestamp env
    (if y.tiflags.syn ∨ y.tiflags.fin then 1 else 0) y) rfl rfl)
  exact hy ▸ hbits

variable (env) in
theorem inputOther_keeps {p : Nat} (h : src.Carries x p) (hassembled : src.Assembled n x.c.rcv) :
    Keeps x.c.rcv (src.Pending n) (inputOther env x) := by
  refine (inputWindow_keeps h hassembled).bind fun y hy hpending => ?_
  have hstate : y.c.tp.tState = .established := (congrArg RcvSide.tState hy).trans hassembled.tState
  have hack := ackInput_keeps env hpending hstate
  rwa [hy] at hack

theorem urgent_step6_keeps (h : src.Pending n x) :
    (urgent (step6 x)).c.rcv = x.c.rcv ∧ src.Pending n (urgent (step6 x)) := by
  have hstep : (step6 x).c.rcv = x.c.rcv ∧ src.Pending n (step6 x) := by
    unfold step6
    split
    · exact ⟨rfl, h.of_eq rfl rfl⟩
    · exact ⟨rfl, h⟩
  obtain ⟨hrcv, hpending⟩ := hstep
  obtain ⟨p, hp, hcarries⟩ := id hpending
  unfold urgent
  rw [if_neg (by simp [hcarries.urg])]
  split
  · exact ⟨hrcv, hpending.of_eq rfl rfl⟩
  · exact ⟨hrcv, hpending⟩

/-- From `step6` on the octets that follow are taken, and the connection stays established. -/
theorem step6on_advances (h : src.Pending n x) (hassembled : src.Assembled n x.c.rcv) :
    src.Advanced n x.c.rcv (step6on x).c.rcv := by
  obtain ⟨hrcv, hpending⟩ := urgent_step6_keeps h
  unfold step6on
  generalize urgent (step6 x) = y at hrcv hpending
  obtain ⟨p, hp, hcarries⟩ := hpending
  rw [← hrcv] at hassembled ⊢
  have hrcvd : ¬ y.c.tp.tState.haveRcvdFin := by
    have hstate : y.c.tp.tState = .established := hassembled.tState
    rw [hstate]
    decide
  by_cases hempty : y.ti.tiLen = 0
  · have hskip : ¬ ((y.ti.tiLen ≠ 0 ∨ y.tiflags.fin = true) ∧ ¬ y.c.tp.tState.haveRcvdFin) := by
      simp [hempty, hcarries.fin]
    unfold finInput dodata
    simp only [if_neg hskip, Bool.false_eq_true, if_false]
    exact hassembled.advanced_of_eq rfl
  · have htake : (y.ti.tiLen ≠ 0 ∨ y.tiflags.fin = true) ∧ ¬ y.c.tp.tState.haveRcvdFin :=
      ⟨.inl hempty, hrcvd⟩
    obtain ⟨hadvanced, hfin⟩ := hassembled.tcpReassMacro hp hcarries.placed
      (Nat.pos_of_ne_zero hempty) hcarries.finArrived
    unfold finInput dodata
    simp only [if_pos htake, hfin, Bool.false_eq_true, if_false]
    exact hadvanced

theorem general_advances {p : Nat} (h : src.Carries x p) (hassembled : src.Assembled n x.c.rcv) :
    src.Advanced n x.c.rcv (finish env (general env x)).rcv := by
  have hother := inputOther_keeps env (x := x.withTp fun tp =>
    { tp with rcvWnd := recvWindow x.c }) (h.of_eq rfl rfl) hassembled
  have hstate : (x.withTp fun tp => { tp with rcvWnd := recvWindow x.c }).c.tp.tState = .established :=
    hassembled.tState
  rw [finish_rcv]
  unfold general
  dsimp only
  rw [hstate]
  dsimp only
  generalize inputOther env (x.withTp fun tp => { tp with rcvWnd := recvWindow x.c }) = flow at hother
  cases flow with
  | ok y =>
    have hadvanced := step6on_advances hother.2 (hother.1 ▸ hassembled)
    rw [hother.1] at hadvanced
    exact hadvanced
  | error e => exact hassembled.advanced_of_eq hother

theorem pureAck_rcv (env : Env) (x : Ctx) : (pureAck env x).rcv = x.c.rcv :=
  (ackRtt_frame env x).1

/-- The next segment in sequence is taken by the fast path as `TCP_REASS` would take it. -/
theorem pureData_advances {p : Nat} (h : src.Carries x p) (hassembled : src.Assembled n x.c.rcv)
    (hpred : x.c.tp.tState = .established ∧ x.ti.tiSeq = x.c.tp.rcvNxt) (hpure : isPureData x) :
    src.Advanced n x.c.rcv (pureData x).rcv := by
  obtain ⟨hstate, hseq⟩ := hpred
  have hnext : x.ti.tiSeq = x.c.tp.rcvNxt ∧ x.c.tp.segs = [] ∧ x.c.tp.tState = .established :=
    ⟨hseq, hpure.2.2.1, hstate⟩
  have hnp : n ≤ p := by
    have hnxt : x.c.tp.rcvNxt = src.seqAt n := hassembled.rcvNxt
    have hdiff : seqDiff x.ti.tiSeq x.c.tp.rcvNxt = (p : Int) - n := by
      rw [hnxt, h.placed.seq]
      apply src.seqDiff_seqAt
      · have := h.placed.upper; have := hassembled.lower; omega
      · have := h.placed.lower; have := hassembled.upper; omega
    rw [hseq, seqDiff_self] at hdiff
    omega
  have hmacro : (tcpReassMacro x.c x.ti).1.rcv = (pureData x).rcv := by
    rw [tcpReassMacro, if_pos hnext]
    rfl
  rw [← hmacro]
  exact (hassembled.tcpReassMacro hnp h.placed (Nat.pos_of_ne_zero hpure.1) h.finArrived).1

theorem predict_advances {p : Nat} (h : src.Carries x p) (hassembled : src.Assembled n x.c.rcv) :
    src.Advanced n x.c.rcv
      (match predict env x with
        | .inl c => c
        | .inr x => finish env (general env x)).rcv := by
  unfold predict
  by_cases hpred : predicted x
  · simp only [if_pos hpred]
    have hcarries : src.Carries (recordTimestamp env 0 x) p := h.of_eq rfl rfl
    have hrcv : (recordTimestamp env 0 x).c.rcv = x.c.rcv := rfl
    have hnext : (recordTimestamp env 0 x).c.tp.tState = .established ∧
        (recordTimestamp env 0 x).ti.tiSeq = (recordTimestamp env 0 x).c.tp.rcvNxt :=
      ⟨hpred.1, hpred.2.2.2.2.2.2.2.1⟩
    rw [← hrcv] at hassembled ⊢
    generalize recordTimestamp env 0 x = y at hcarries hassembled hnext
    by_cases hack : isPureAck y
    · simp only [if_pos hack]
      apply hassembled.advanced_of_eq
      split
      · rw [tcpOutput_rcv, pureAck_rcv]
      · exact pureAck_rcv env y
    · simp only [if_neg hack]
      by_cases hdata : isPureData y
      · simp only [if_pos hdata]
        exact pureData_advances hcarries hassembled hnext hdata
      · simp only [if_neg hdata]
        exact general_advances hcarries hassembled
  · simp only [if_neg hpred]
    exact general_advances h hassembled

end Stages

/-! ### Runs -/

/-- A segment of the stream as it arrives: an interval of the octets, with no control bits but ACK and PUSH. -/
def Source.IsSegment (src : Source) (ti : Seg) : Prop :=
  ti.tiFlags.syn = false ∧ ti.tiFlags.fin = false ∧ ti.tiFlags.rst = false ∧ ti.tiFlags.urg = false ∧
    ∃ p, src.Placed ti p

/-- A segment of the stream takes the octets on from where they are. -/
theorem tcpInput_advances {src : Source} {n : Nat} {c : Conn} {ti : Seg} (env : Env)
    (hti : src.IsSegment ti) (hassembled : src.Assembled n c.rcv) :
    src.Advanced n c.rcv (tcpInput env c ti).rcv := by
  obtain ⟨hsyn, hfin, hrst, hurg, p, hplaced⟩ := hti
  have hopen : ¬ c.tp.tState = .closed := by
    have hstate : c.tp.tState = .established := hassembled.tState
    rw [hstate]
    decide
  obtain ⟨ts, hentry⟩ := entry_of_not_syn env c hsyn
  unfold tcpInput
  rw [if_neg hopen, hentry]
  by_cases hlisten : c.so.soAcceptconn = true
  · rw [if_pos hlisten]
    apply hassembled.advanced_of_eq
    unfold listenInput
    split <;> rfl
  rw [if_neg hlisten]
  have hcarries : src.Carries
      { c := { c with tp := { c.tp with tIdle := 0, tKeep := tcpKeepidle } }
        ti := ti, tiflags := ti.tiFlags, tiwin := ti.tiWin.zeroExtend 32 <<< c.tp.sndScale
        ts := ts } p := ⟨hsyn, hfin, hrst, hurg, hfin, hplaced⟩
  exact predict_advances hcarries hassembled

/-- What happens to the connection: a segment arrives, or something else changes it to `c`. -/
inductive Event where
  | segment (env : Env) (ti : Seg)
  | between (c : Conn)

/-- A connection with all the octets that `tcp_input` has appended to its receive buffer. -/
structure Receiver where
  conn : Conn
  appended : List Byte

def Receiver.step (s : Receiver) : Event → Receiver
  | .segment env ti =>
    { conn := tcpInput env s.conn ti
      appended := s.appended ++
        (tcpInput env s.conn ti).so.soRcv.sbMb.drop s.conn.so.soRcv.sbMb.length }
  | .between c => { s with conn := c }

/-- Segments are those of the stream; in between the user may read and anything may happen to the send side, while the state, the queue and `rcv_nxt` stay. -/
def Source.Permits (src : Source) (s : Receiver) : Event → Prop
  | .segment _ ti => src.IsSegment ti
  | .between c => { c.rcv with data := s.conn.rcv.data } = s.conn.rcv

/-- The octets up to `rcv_nxt` have been appended, in order. -/
def Source.Received (src : Source) (s : Receiver) : Prop :=
  ∃ n, src.Assembled n s.conn.rcv ∧ s.appended = slice src.stream 0 n

theorem Source.Received.step {src : Source} {s : Receiver} {e : Event} (hpermits : src.Permits s e)
    (h : src.Received s) : src.Received (s.step e) := by
  obtain ⟨n, hassembled, happended⟩ := h
  cases e with
  | segment env ti =>
    obtain ⟨k, hassembled', hdata⟩ := tcpInput_advances env hpermits hassembled
    refine ⟨n + k, hassembled', ?_⟩
    have hnew : (tcpInput env s.conn ti).so.soRcv.sbMb.drop s.conn.so.soRcv.sbMb.length =
        slice src.stream n k := by
      have hdata' : (tcpInput env s.conn ti).so.soRcv.sbMb =
          s.conn.so.soRcv.sbMb ++ slice src.stream n k := hdata
      rw [hdata', List.drop_left]
    change s.appended ++ _ = _
    have hjoin := slice_append src.stream 0 n k
    rw [Nat.zero_add] at hjoin
    rw [hnew, happended, hjoin]
  | between c =>
    have hsame : { c.rcv with data := s.conn.rcv.data } = s.conn.rcv := hpermits
    rw [← hsame] at hassembled
    exact ⟨n, ⟨hassembled.tState, hassembled.first, hassembled.receiving, hassembled.rcvNxt,
      hassembled.lower, hassembled.upper, hassembled.queued⟩, happended⟩

/-- After every run the receive buffer has been given the octets of the stream up to `rcv_nxt` in order, and the reassembly queue holds disjoint pieces of the stream above it, in order. -/
theorem received_in_order (stream : Nat → Byte) (lo n₀ : Nat) (c₀ : Conn) (events : List Event)
    (hstate : c₀.tp.tState = .established) (hopen : c₀.so.ssCantrcvmore = false)
    (hempty : c₀.tp.segs = [])
    (hnxt : c₀.tp.rcvNxt = Source.seqAt ⟨stream, c₀.tp.irs + 1, lo⟩ n₀)
    (hlo : lo ≤ n₀) (hhi : n₀ < lo + 2 ^ 31)
    (hrun : Transition.Along Receiver.step (Source.Permits ⟨stream, c₀.tp.irs + 1, lo⟩)
      ⟨c₀, slice stream 0 n₀⟩ events) :
    let s := Transition.run Receiver.step ⟨c₀, slice stream 0 n₀⟩ events
    ∃ n, s.conn.tp.rcvNxt = Source.seqAt ⟨stream, c₀.tp.irs + 1, lo⟩ n ∧
      s.appended = slice stream 0 n ∧
      s.conn.tp.segs.Pairwise (fun a b => seqLT a.tiSeq b.tiSeq ∧ seqLEQ a.after b.tiSeq) ∧
      ∀ q ∈ s.conn.tp.segs, seqGEQ q.tiSeq s.conn.tp.rcvNxt ∧
        ∃ p, n ≤ p ∧ q.tiSeq = Source.seqAt ⟨stream, c₀.tp.irs + 1, lo⟩ p ∧
          q.m.bytes = slice stream p q.tiLen := by
  intro s
  have hinit : Source.Received ⟨stream, c₀.tp.irs + 1, lo⟩ ⟨c₀, slice stream 0 n₀⟩ := by
    refine ⟨n₀, ⟨hstate, rfl, hopen, hnxt, hlo, hhi, ?_⟩, rfl⟩
    change Source.Queued _ _ c₀.tp.segs
    rw [hempty]
    trivial
  obtain ⟨n, hassembled, happended⟩ : Source.Received _ s :=
    Transition.run_invariant Receiver.step (fun _ _ hpermits h => h.step hpermits) hrun hinit
  have hrcv : s.conn.tp.rcvNxt = _ := hassembled.rcvNxt
  refine ⟨n, hrcv, happended, hassembled.queued.pairwise, fun q hq => ?_⟩
  obtain ⟨p, hp, hplaced⟩ := hassembled.queued.mem hq
  refine ⟨?_, p, hp, hplaced.seq, hplaced.bytes⟩
  have hlower := hassembled.lower
  have hupper := hplaced.upper
  have hdiff : seqDiff q.tiSeq s.conn.tp.rcvNxt = (p : Int) - n := by
    rw [hplaced.seq, hrcv]
    exact Source.seqDiff_seqAt _ (by omega) (by omega)
  unfold seqGEQ
  omega

/-- An established connection that waits for the first octet after 500. -/
def waiting : Conn where
  tp := { tState := .established, irs := 500, rcvNxt := 501, rcvAdv := 501 + 4096, tMaxseg := 512 }
  so := { ssIsconnected := true, soRcv := { sbHiwat := 4096, sbMbmax := 8192 } }

/-- A piece of the stream `0, 1, 2, …`. -/
def piece (p len : Nat) : Seg where
  tiSeq := 501 + BitVec.ofNat 32 p
  tiLen := len
  m := { chain := [slice UInt8.ofNat p len] }
  tiFlags := { ack := true }

/-- The second piece arrives before the first, which overlaps it. -/
def swappedRun : List Event := [.segment {} (piece 2 3), .segment {} (piece 0 4)]

theorem swappedRun_permitted :
    Transition.Along Receiver.step (Source.Permits ⟨UInt8.ofNat, waiting.tp.irs + 1, 0⟩)
      ⟨waiting, slice UInt8.ofNat 0 0⟩ swappedRun := by
  have hpiece : ∀ p len, p + len < 2 ^ 31 →
      Source.IsSegment ⟨UInt8.ofNat, waiting.tp.irs + 1, 0⟩ (piece p len) := by
    intro p len hlt
    refine ⟨rfl, rfl, rfl, rfl, p, rfl, ?_, Nat.zero_le p, ?_⟩
    · simp [piece, Mbuf.bytes]
    · simpa [piece] using hlt
  exact ⟨hpiece 2 3 (by decide), hpiece 0 4 (by decide), trivial⟩

theorem received_in_order_swappedRun :
    (Transition.run Receiver.step ⟨waiting, []⟩ swappedRun).appended = [0, 1, 2, 3, 4] ∧
      ∃ n, (Transition.run Receiver.step ⟨waiting, []⟩ swappedRun).conn.tp.rcvNxt =
          Source.seqAt ⟨UInt8.ofNat, waiting.tp.irs + 1, 0⟩ n ∧
        (Transition.run Receiver.step ⟨waiting, []⟩ swappedRun).appended = slice UInt8.ofNat 0 n := by
  refine ⟨by decide +kernel, ?_⟩
  obtain ⟨n, hnxt, happended, -⟩ := received_in_order UInt8.ofNat 0 0 waiting swappedRun rfl rfl rfl rfl
    (le_refl 0) (by decide +kernel) swappedRun_permitted
  exact ⟨n, hnxt, happended⟩

end Reading.Tcp
