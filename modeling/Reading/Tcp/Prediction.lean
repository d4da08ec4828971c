import Reading.Tcp.Input

/-!
# Header prediction against the general path

The two fast paths of `tcp_input` are compared with what the general code makes of the same segment, up to the point where either calls `tcp_output`. They differ in what they leave alone: a fast path neither resets `t_dupacks`, nor moves `snd_wl1` and `snd_wl2`, nor pulls `rcv_up` along, and it drops acknowledged data without looking at how much there is. The condition under which that makes no difference is exact.
-/

namespace Reading.Tcp

open Reading.Kern

/-- What the fast path makes of a segment, up to its call of `tcp_output`; `none` where the segment goes to the general path. -/
def fastPath (env : Env) (c : Conn) (ti : Seg) : Option Conn :=
  let x := entry env c ti
  if predicted x then
    let x := recordTimestamp env 0 x
    if isPureAck x then some (pureAck env x)
    else if isPureData x then some (pureData x)
    else none
  else none

/-- The connection when a segment leaves the general path, wherever it leaves it. -/
def generalPath (env : Env) (c : Conn) (ti : Seg) : Conn :=
  match general env (entry env c ti) with
  | .ok x => x.c
  | .error (_, x) => x.c

/-- The part of a connection both paths are to leave alike. -/
structure Observed where
  sndUna : TcpSeq
  sndWnd : U32
  sndWl1 : TcpSeq
  sndWl2 : TcpSeq
  rcvNxt : TcpSeq
  rcvUp : TcpSeq
  tDupacks : Int
  tRexmt : Int
  soSnd : List Byte
  soRcv : List Byte
  deriving DecidableEq

def observed (c : Conn) : Observed where
  sndUna := c.tp.sndUna
  sndWnd := c.tp.sndWnd
  sndWl1 := c.tp.sndWl1
  sndWl2 := c.tp.sndWl2
  rcvNxt := c.tp.rcvNxt
  rcvUp := c.tp.rcvUp
  tDupacks := c.tp.tDupacks
  tRexmt := c.tp.tRexmt
  soSnd := c.so.soSnd.sbMb
  soRcv := c.so.soRcv.sbMb

/-- The segment ends within the receive window, as the trimming code compares it. -/
def endsInWindow (c : Conn) (ti : Seg) : Prop :=
  seqLEQ ti.after (c.tp.rcvNxt + recvWindow c)

/-- The state in which a fast path does what the general path would: no duplicate ACKs are counted, the urgent pointer is not behind, the advertised window is not behind `rcv_nxt`, and the fields of the last window update are already where this segment would put them. -/
def PredictionSound (c : Conn) (ti : Seg) : Prop :=
  endsInWindow c ti ∧ c.tp.tDupacks = 0 ∧ ¬ seqGT c.tp.rcvNxt c.tp.rcvUp ∧
    if ti.tiLen = 0 then
      ti.tiAck - c.tp.sndUna ≤ c.so.soSnd.sbCc ∧ c.tp.sndWl1 = ti.tiSeq ∧ c.tp.sndWl2 = ti.tiAck ∧
        c.tp.sndWnd - (ti.tiAck - c.tp.sndUna) < c.tp.sndWnd
    else
      ¬ (seqLT c.tp.sndWl1 ti.tiSeq ∨ c.tp.sndWl1 = ti.tiSeq ∧ seqLT c.tp.sndWl2 ti.tiAck)

instance (c : Conn) (ti : Seg) : Decidable (endsInWindow c ti) :=
  inferInstanceAs (Decidable (seqLEQ _ _))

instance (c : Conn) (ti : Seg) : Decidable (PredictionSound c ti) :=
  inferInstanceAs (Decidable (_ ∧ _))

/-- A segment not longer than the window ends after it only where the window is more than half the sequence space, and then it looks as if all of it did. -/
theorem seqDiff_window {nxt : TcpSeq} {wnd : U32} {len : Nat} (hlen : len < 2 ^ 15)
    (hle : len ≤ wnd.toNat) (hafter : ¬ seqLEQ (nxt + BitVec.ofNat 32 len) (nxt + wnd)) :
    seqDiff (nxt + BitVec.ofNat 32 len) (nxt + wnd) ≥ len ∧ wnd ≠ 0 := by
  have hdiff : seqDiff (nxt + BitVec.ofNat 32 len) (nxt + wnd) =
      ((len : Int) - wnd.toNat).bmod (2 ^ 32) := by
    have hbmod := seqDiff_bmod nxt len wnd.toNat
    rwa [BitVec.ofInt_natCast, BitVec.ofInt_natCast, BitVec.ofNat_toNat, BitVec.setWidth_eq] at hbmod
  have hlt := wnd.isLt
  unfold seqLEQ at hafter
  rw [hdiff, Int.bmod_def] at hafter ⊢
  have hwnd : wnd.toNat ≠ 0 := by
    intro hzero
    rw [hzero] at hafter hle
    split at hafter <;> omega
  refine ⟨by split at hafter <;> split <;> omega, ?_⟩
  intro hzero
  exact hwnd (by rw [hzero]; rfl)

/-! ### The general path on a predicted segment -/

section General

variable {env : Env} {x : Ctx}

theorem inputOther_of_predicted (hpred : predicted x) :
    inputOther env x = (do
      let x ← trimRight x
      let x := recordTimestamp env (if x.tiflags.syn ∨ x.tiflags.fin then 1 else 0) x
      let x ← checkBits env x
      ackInput env x) := by
  obtain ⟨hstate, hack, hsyn, hfin, hrst, hurg, hts, hseq, hwin, hwnd, hnxt⟩ := hpred
  have hpaws : paws env x = .ok x := by
    unfold paws
    cases hx : x.ts with
    | none => rfl
    | some ts =>
      have hlt : ¬ seqLT ts.1 x.c.tp.tsRecent := not_seqLT.mpr (hts ts (by simp [hx]))
      simp [hlt]
  have hleft : trimLeft x = .ok x := by
    unfold trimLeft
    rw [hseq]
    simp
  have hclose : rcvAfterClose x = .ok x := by
    simp [rcvAfterClose, hstate, TcpState.code]
  unfold inputOther inputWindow
  simp only [hpaws, hleft, hclose, bind, Except.bind]
  cases trimRight x <;> rfl

/-- A predicted segment that ends after the window is dropped, unless part of it is within. -/
theorem trimRight_of_after (hstate : x.c.tp.tState = .established)
    (hafter : ¬ seqLEQ x.ti.after (x.c.tp.rcvNxt + x.c.tp.rcvWnd))
    (hall : seqDiff x.ti.after (x.c.tp.rcvNxt + x.c.tp.rcvWnd) ≥ x.ti.tiLen)
    (hopen : ¬ (x.c.tp.rcvWnd = 0 ∧ x.ti.tiSeq = x.c.tp.rcvNxt)) :
    trimRight x = .error (.dropafterack, x) := by
  have hpos : seqDiff x.ti.after (x.c.tp.rcvNxt + x.c.tp.rcvWnd) > 0 := not_seqLEQ.mp hafter
  have htime : ¬ (x.tiflags.syn = true ∧ x.c.tp.tState = .timeWait ∧
      seqGT x.ti.tiSeq x.c.tp.rcvNxt) := by simp [hstate]
  unfold trimRight
  rw [if_pos hpos, if_pos hall, if_neg htime, if_neg hopen]

theorem trimRight_of_within (hwithin : seqLEQ x.ti.after (x.c.tp.rcvNxt + x.c.tp.rcvWnd)) :
    trimRight x = .ok x := by
  have hpos : ¬ seqDiff x.ti.after (x.c.tp.rcvNxt + x.c.tp.rcvWnd) > 0 := by
    unfold seqLEQ at hwithin
    omega
  unfold trimRight
  rw [if_neg hpos]

theorem finAcked_established (ourfinisacked : Bool) (hstate : x.c.tp.tState = .established) :
    finAcked x ourfinisacked = .ok x := by
  simp only [finAcked, hstate]

theorem newAck_established (hstate : x.c.tp.tState = .established)
    (hmax : ¬ seqGT x.ti.tiAck x.c.tp.sndMax) :
    ∃ y, newAck env x = .ok y ∧ y.ti = x.ti ∧ y.tiflags = x.tiflags ∧ y.tiwin = x.tiwin ∧
      y.c.tp.tState = .established ∧ y.c.tp.segs = x.c.tp.segs ∧
      observed y.c =
        { sndUna := x.ti.tiAck
          sndWnd := x.c.tp.sndWnd -
            if x.ti.tiAck - x.c.tp.sndUna > x.c.so.soSnd.sbCc then x.c.so.soSnd.sbCc
            else x.ti.tiAck - x.c.tp.sndUna
          sndWl1 := x.c.tp.sndWl1, sndWl2 := x.c.tp.sndWl2
          rcvNxt := x.c.tp.rcvNxt, rcvUp := x.c.tp.rcvUp, tDupacks := 0
          tRexmt := ackTimer (ackRtt env x).c.tp x.ti.tiAck
          soSnd := (dropSnd env (ackedAmount x.c x.ti.tiAck) x.c).so.soSnd.sbMb
          soRcv := x.c.so.soRcv.sbMb } := by
  have hsample : rttSample env (x.withTp retractCwnd) = rttSample env x := rfl
  have hmax' : ¬ seqGT (x.withTp retractCwnd).ti.tiAck (x.withTp retractCwnd).c.tp.sndMax := hmax
  refine ⟨advanceUna (dropAcked env (ackTimers env (x.withTp retractCwnd))).1, ?_⟩
  unfold newAck
  rw [if_neg hmax']
  unfold ackTimers ackRtt
  rw [hsample]
  cases rttSample env x with
  | some rtt =>
    refine ⟨finAcked_established _ hstate, ?_, ?_, ?_, hstate, ?_, ?_⟩
    · simp only [advanceUna, dropAcked, dropSnd, Ctx.withTp]
    · simp only [advanceUna, dropAcked, Ctx.withTp]
    · simp only [advanceUna, dropAcked, Ctx.withTp]
    · simp only [advanceUna, dropAcked, dropSnd, openCwnd, Tcpcb.xmitTimer, retractCwnd, Ctx.withTp]
    · simp only [advanceUna, dropAcked, dropSnd, ackedAmount, openCwnd, ackTimer, Tcpcb.xmitTimer,
        retractCwnd, Ctx.withTp, observed]
      rfl
  | none =>
    refine ⟨finAcked_established _ hstate, ?_, ?_, ?_, hstate, ?_, ?_⟩
    · simp only [advanceUna, dropAcked, dropSnd, Ctx.withTp]
    · simp only [advanceUna, dropAcked, Ctx.withTp]
    · simp only [advanceUna, dropAcked, Ctx.withTp]
    · simp only [advanceUna, dropAcked, dropSnd, openCwnd, retractCwnd, Ctx.withTp]
    · simp only [advanceUna, dropAcked, dropSnd, ackedAmount, openCwnd, ackTimer, retractCwnd,
        Ctx.withTp, observed]
      rfl

theorem inputOther_within (hpred : predicted x)
    (hwithin : seqLEQ x.ti.after (x.c.tp.rcvNxt + x.c.tp.rcvWnd)) :
    inputOther env x =
      if seqLEQ x.ti.tiAck x.c.tp.sndUna then dupAck env (recordTimestamp env 0 x)
      else newAck env (recordTimestamp env 0 x) := by
  obtain ⟨hstate, hack, hsyn, hfin, hrst, -⟩ := id hpred
  have hbits : checkBits env (recordTimestamp env 0 x) = .ok (recordTimestamp env 0 x) := by
    have hack' : (recordTimestamp env 0 x).tiflags.ack = true := hack
    have hsyn' : (recordTimestamp env 0 x).tiflags.syn = false := hsyn
    have hrst' : (recordTimestamp env 0 x).tiflags.rst = false := hrst
    simp [checkBits, hack', hsyn', hrst']
  have hsynrcvd : ackSynReceived (recordTimestamp env 0 x) = .ok (recordTimestamp env 0 x) := by
    have hstate' : (recordTimestamp env 0 x).c.tp.tState = .established := hstate
    simp [ackSynReceived, hstate']
  have hcode : ¬ (recordTimestamp env 0 x).c.tp.tState.code < 4 := by
    change ¬ x.c.tp.tState.code < 4
    rw [hstate]
    decide
  rw [inputOther_of_predicted hpred, trimRight_of_within hwithin]
  simp only [bind, Except.bind, hsyn, hfin, Bool.false_eq_true, or_self, if_false, hbits, ackInput,
    hsynrcvd, hcode]
  rfl

/-- What `step6` and the treatment of urgent data do for a segment without URG. -/
structure Updated (x y : Ctx) : Prop where
  ti : y.ti = x.ti
  tiflags : y.tiflags = x.tiflags
  segs : y.c.tp.segs = x.c.tp.segs
  tState : y.c.tp.tState = x.c.tp.tState
  observed : observed y.c =
    { observed x.c with
      sndWnd := if updatesWindow x then x.tiwin else (observed x.c).sndWnd
      sndWl1 := if updatesWindow x then x.ti.tiSeq else (observed x.c).sndWl1
      sndWl2 := if updatesWindow x then x.ti.tiAck else (observed x.c).sndWl2
      rcvUp := if seqGT (observed x.c).rcvNxt (observed x.c).rcvUp then (observed x.c).rcvNxt
        else (observed x.c).rcvUp }

theorem urgent_step6 (hurg : x.tiflags.urg = false) : Updated x (urgent (step6 x)) := by
  unfold urgent step6
  by_cases hupdates : updatesWindow x
  · by_cases hup : seqGT x.c.tp.rcvNxt x.c.tp.rcvUp
    · constructor <;> simp [hupdates, hup, hurg, Ctx.withTp, observed]
    · constructor <;> simp [hupdates, hup, hurg, Ctx.withTp, observed]
  · by_cases hup : seqGT x.c.tp.rcvNxt x.c.tp.rcvUp
    · constructor <;> simp [hupdates, hup, hurg, Ctx.withTp, observed]
    · constructor <;> simp [hupdates, hup, hurg, observed]

/-- A segment with neither data nor FIN changes nothing after the urgent data. -/
theorem finInput_dodata_of_empty (hlen : x.ti.tiLen = 0) (hfin : x.tiflags.fin = false) :
    (finInput (dodata x)).c = x.c := by
  simp [finInput, dodata, hlen, hfin]

/-- The next segment of an established connection with an empty queue is appended. -/
theorem finInput_dodata_of_next (hlen : x.ti.tiLen ≠ 0) (hfin : x.ti.tiFlags.fin = false)
    (hseq : x.ti.tiSeq = x.c.tp.rcvNxt) (hsegs : x.c.tp.segs = [])
    (hstate : x.c.tp.tState = .established) :
    (finInput (dodata x)).c = pureData x := by
  have hrcvd : (x.ti.tiLen ≠ 0 ∨ x.tiflags.fin = true) ∧ ¬ x.c.tp.tState.haveRcvdFin := by
    rw [hstate]
    exact ⟨.inl hlen, by decide⟩
  have hnext : x.ti.tiSeq = x.c.tp.rcvNxt ∧ x.c.tp.segs = [] ∧ x.c.tp.tState = .established :=
    ⟨hseq, hsegs, hstate⟩
  unfold finInput dodata
  simp only [if_pos hrcvd, tcpReassMacro, if_pos hnext, hfin, Bool.false_eq_true, if_false]
  rfl

variable (env) in
theorem inputOther_after (hpred : predicted x) (hlen : x.ti.tiLen < 2 ^ 15)
    (hle : x.ti.tiLen ≤ x.c.tp.rcvWnd.toNat)
    (hafter : ¬ seqLEQ x.ti.after (x.c.tp.rcvNxt + x.c.tp.rcvWnd)) :
    inputOther env x = .error (.dropafterack, x) := by
  have hseq : x.ti.tiSeq = x.c.tp.rcvNxt := hpred.2.2.2.2.2.2.2.1
  have hend : x.ti.after = x.c.tp.rcvNxt + BitVec.ofNat 32 x.ti.tiLen := by
    rw [Seg.after, hseq]
  obtain ⟨hall, hwnd⟩ := seqDiff_window hlen hle (hend ▸ hafter)
  have hopen : ¬ (x.c.tp.rcvWnd = 0 ∧ x.ti.tiSeq = x.c.tp.rcvNxt) := fun h => hwnd h.1
  rw [inputOther_of_predicted hpred, trimRight_of_after hpred.1 hafter (hend ▸ hall) hopen]
  rfl

/-- The context in which the general path begins. -/
def windowed (x : Ctx) : Ctx := x.withTp fun tp => { tp with rcvWnd := recvWindow x.c }

theorem general_established (hstate : x.c.tp.tState = .established) :
    general env x = (inputOther env (windowed x)).map step6on := by
  have hstate' : (windowed x).c.tp.tState = .established := hstate
  unfold general
  simp only [windowed] at hstate'
  simp only [hstate']
  rw [← windowed]
  cases inputOther env (windowed x) with
  | ok y => rfl
  | error e => rfl

/-- The window update of a segment that acknowledges `ack` with the window at `wnd`. -/
def wouldUpdate (x : Ctx) (wnd : U32) : Prop :=
  seqLT x.c.tp.sndWl1 x.ti.tiSeq ∨ x.c.tp.sndWl1 = x.ti.tiSeq ∧
    (seqLT x.c.tp.sndWl2 x.ti.tiAck ∨ x.c.tp.sndWl2 = x.ti.tiAck ∧ x.tiwin > wnd)

instance (x : Ctx) (wnd : U32) : Decidable (wouldUpdate x wnd) := inferInstanceAs (Decidable (_ ∨ _))

theorem updatesWindow_iff {y : Ctx} (hti : y.ti = x.ti) (hwin : y.tiwin = x.tiwin)
    (hack : y.tiflags.ack = true) (hwl1 : y.c.tp.sndWl1 = x.c.tp.sndWl1)
    (hwl2 : y.c.tp.sndWl2 = x.c.tp.sndWl2) :
    updatesWindow y ↔ wouldUpdate x y.c.tp.sndWnd := by
  unfold updatesWindow wouldUpdate
  rw [hti, hwin, hwl1, hwl2, hack]
  exact and_iff_right rfl

theorem ackTimer_stamped (tp : Tcpcb) (rtt : Int) (wnd age recent : U32) (ack : TcpSeq) :
    ackTimer (({ tp with rcvWnd := wnd, tsRecentAge := age, tsRecent := recent } : Tcpcb).xmitTimer rtt) ack =
      ackTimer (tp.xmitTimer rtt) ack := rfl

variable (env) in
theorem rttSample_congr {y : Ctx} (hts : y.ts = x.ts) (hti : y.ti = x.ti) (hrtt : y.c.tp.tRtt = x.c.tp.tRtt)
    (hrtseq : y.c.tp.tRtseq = x.c.tp.tRtseq) : rttSample env y = rttSample env x := by
  unfold rttSample
  rw [hts, hti, hrtt, hrtseq]

variable (env) in
theorem general_pureAck (hpred : predicted x) (hpure : isPureAck x)
    (hwithin : seqLEQ x.ti.after (x.c.tp.rcvNxt + recvWindow x.c)) {dropped wnd : U32}
    (hdropped : dropped = if x.ti.tiAck - x.c.tp.sndUna > x.c.so.soSnd.sbCc then x.c.so.soSnd.sbCc
      else x.ti.tiAck - x.c.tp.sndUna)
    (hwnd : wnd = x.c.tp.sndWnd - dropped) :
    ∃ y, general env x = .ok y ∧ observed y.c =
      { sndUna := x.ti.tiAck
        sndWnd := if wouldUpdate x wnd then x.tiwin else wnd
        sndWl1 := if wouldUpdate x wnd then x.ti.tiSeq else x.c.tp.sndWl1
        sndWl2 := if wouldUpdate x wnd then x.ti.tiAck else x.c.tp.sndWl2
        rcvNxt := x.c.tp.rcvNxt
        rcvUp := if seqGT x.c.tp.rcvNxt x.c.tp.rcvUp then x.c.tp.rcvNxt else x.c.tp.rcvUp
        tDupacks := 0
        tRexmt := ackTimer (ackRtt env x).c.tp x.ti.tiAck
        soSnd := (dropSnd env (ackedAmount x.c x.ti.tiAck) x.c).so.soSnd.sbMb
        soRcv := x.c.so.soRcv.sbMb } := by
  subst hdropped hwnd
  obtain ⟨hstate, hack, hsyn, hfin, hrst, hurg, -⟩ := id hpred
  obtain ⟨hlen, hgt, hmax, -⟩ := hpure
  have hrecorded : (recordTimestamp env 0 (windowed x)).c.tp.tState = .established := by
    simp only [recordTimestamp, windowed, Ctx.withTp]
    exact hstate
  have hsent : ¬ seqGT (recordTimestamp env 0 (windowed x)).ti.tiAck (recordTimestamp env 0 (windowed x)).c.tp.sndMax := by
    simp only [recordTimestamp, windowed, Ctx.withTp]
    exact not_lt.mpr hmax
  have hrexmt : ackTimer (ackRtt env (recordTimestamp env 0 (windowed x))).c.tp
      (recordTimestamp env 0 (windowed x)).ti.tiAck = ackTimer (ackRtt env x).c.tp x.ti.tiAck := by
    have hsample : rttSample env (recordTimestamp env 0 (windowed x)) = rttSample env x := by
      apply rttSample_congr <;> simp only [recordTimestamp, windowed, Ctx.withTp]
    unfold ackRtt
    rw [hsample]
    cases rttSample env x with
    | none =>
      simp only [recordTimestamp, windowed, Ctx.withTp]
      rfl
    | some rtt =>
      simp only [recordTimestamp, windowed, Ctx.withTp]
      exact ackTimer_stamped x.c.tp rtt _ _ _ _
  obtain ⟨y, hy, hti, hflags, hwin, hstate', hsegs, hobs⟩ := newAck_established hrecorded hsent
  have hnew : ¬ seqLEQ (windowed x).ti.tiAck (windowed x).c.tp.sndUna := not_seqLEQ.mpr hgt
  have hother : inputOther env (windowed x) = .ok y := by
    rw [inputOther_within (x := windowed x) hpred hwithin, if_neg hnew, hy]
  rw [hrexmt] at hobs
  simp only [recordTimestamp, windowed, Ctx.withTp, dropSnd, ackedAmount] at hti hflags hwin hobs
  refine ⟨step6on y, ?_, ?_⟩
  · rw [general_established hstate, hother]
    rfl
  · have hupdates : updatesWindow y ↔ wouldUpdate x y.c.tp.sndWnd :=
      updatesWindow_iff hti hwin (by rwa [hflags]) (congrArg Observed.sndWl1 hobs)
        (congrArg Observed.sndWl2 hobs)
    have hup := urgent_step6 (x := y) (by rwa [hflags])
    have hempty : (urgent (step6 y)).ti.tiLen = 0 := by rw [hup.ti, hti]; exact hlen
    have hnofin : (urgent (step6 y)).tiflags.fin = false := by rwa [hup.tiflags, hflags]
    have hwnd : y.c.tp.sndWnd = _ := congrArg Observed.sndWnd hobs
    rw [step6on, finInput_dodata_of_empty hempty hnofin, hup.observed, hobs]
    simp only [hupdates, hti, hwin, hwnd, dropSnd, ackedAmount]
    rfl

/-- The next segment of an established connection with an empty queue, from `step6` on. -/
theorem observed_step6on_next (hurg : x.tiflags.urg = false) (hlen : x.ti.tiLen ≠ 0)
    (hfin : x.ti.tiFlags.fin = false) (hseq : x.ti.tiSeq = x.c.tp.rcvNxt)
    (hsegs : x.c.tp.segs = []) (hstate : x.c.tp.tState = .established) :
    observed (step6on x).c =
      { observed x.c with
        sndWnd := if updatesWindow x then x.tiwin else (observed x.c).sndWnd
        sndWl1 := if updatesWindow x then x.ti.tiSeq else (observed x.c).sndWl1
        sndWl2 := if updatesWindow x then x.ti.tiAck else (observed x.c).sndWl2
        rcvUp := if seqGT (observed x.c).rcvNxt (observed x.c).rcvUp then (observed x.c).rcvNxt
          else (observed x.c).rcvUp
        rcvNxt := (observed x.c).rcvNxt + BitVec.ofNat 32 x.ti.tiLen
        soRcv := (observed x.c).soRcv ++ x.ti.m.bytes } := by
  have hup := urgent_step6 hurg
  have hnxt : (urgent (step6 x)).c.tp.rcvNxt = x.c.tp.rcvNxt := congrArg Observed.rcvNxt hup.observed
  have hnext : (finInput (dodata (urgent (step6 x)))).c = pureData (urgent (step6 x)) := by
    apply finInput_dodata_of_next
    · rwa [hup.ti]
    · rwa [hup.ti]
    · rwa [hup.ti, hnxt]
    · rwa [hup.segs]
    · rwa [hup.tState]
  have happended : observed (pureData (urgent (step6 x))) =
      { observed (urgent (step6 x)).c with
        rcvNxt := (observed (urgent (step6 x)).c).rcvNxt +
          BitVec.ofNat 32 (urgent (step6 x)).ti.tiLen
        soRcv := (observed (urgent (step6 x)).c).soRcv ++ (urgent (step6 x)).ti.m.bytes } := rfl
  rw [step6on, hnext, happended, hup.observed, hup.ti]

variable (env) in
/-- Data that acknowledges nothing new comes to `step6` with the duplicate ACKs forgotten. -/
theorem inputOther_pureData (hpred : predicted x) (hpure : isPureData x)
    (hwithin : seqLEQ x.ti.after (x.c.tp.rcvNxt + x.c.tp.rcvWnd)) :
    inputOther env x =
      .ok ((recordTimestamp env 0 x).withTp fun tp => { tp with tDupacks := 0 }) := by
  have hlong : ¬ ((recordTimestamp env 0 x).ti.tiLen = 0 ∧
      (recordTimestamp env 0 x).tiwin = (recordTimestamp env 0 x).c.tp.sndWnd) :=
    fun h => hpure.1 h.1
  have hold : seqLEQ x.ti.tiAck x.c.tp.sndUna := by
    rw [hpure.2.1, seqLEQ, seqDiff_self]
  rw [inputOther_within hpred hwithin, if_pos hold, dupAck, if_neg hlong]

variable (env) in
theorem general_pureData (hpred : predicted x) (hpure : isPureData x)
    (hfin : x.ti.tiFlags.fin = false)
    (hwithin : seqLEQ x.ti.after (x.c.tp.rcvNxt + recvWindow x.c)) :
    ∃ y, general env x = .ok y ∧ observed y.c =
      { observed (pureData x) with
        sndWnd := if wouldUpdate x x.c.tp.sndWnd then x.tiwin else x.c.tp.sndWnd
        sndWl1 := if wouldUpdate x x.c.tp.sndWnd then x.ti.tiSeq else x.c.tp.sndWl1
        sndWl2 := if wouldUpdate x x.c.tp.sndWnd then x.ti.tiAck else x.c.tp.sndWl2
        rcvUp := if seqGT x.c.tp.rcvNxt x.c.tp.rcvUp then x.c.tp.rcvNxt else x.c.tp.rcvUp
        tDupacks := 0 } := by
  obtain ⟨hstate, hack, -, -, -, hurg, -, hseq, -⟩ := id hpred
  obtain ⟨hlen, hsame, hsegs, hspace⟩ := id hpure
  have hother := inputOther_pureData env (x := windowed x) hpred
    ⟨hlen, hsame, hsegs, hspace⟩ hwithin
  obtain ⟨y, hy⟩ : ∃ y, y = (recordTimestamp env 0 (windowed x)).withTp fun tp =>
      { tp with tDupacks := 0 } := ⟨_, rfl⟩
  have hti : y.ti = x.ti := by simp only [hy, recordTimestamp, windowed, Ctx.withTp]
  have hwin : y.tiwin = x.tiwin := by simp only [hy, recordTimestamp, windowed, Ctx.withTp]
  have hflags : y.tiflags = x.tiflags := by simp only [hy, recordTimestamp, windowed, Ctx.withTp]
  have hobs : observed y.c = { observed x.c with tDupacks := 0 } := by
    simp only [hy, observed, recordTimestamp, windowed, Ctx.withTp]
  have hnxt : y.c.tp.rcvNxt = x.c.tp.rcvNxt := congrArg Observed.rcvNxt hobs
  have hsegs' : y.c.tp.segs = x.c.tp.segs := by
    simp only [hy, recordTimestamp, windowed, Ctx.withTp]
  have hstate' : y.c.tp.tState = x.c.tp.tState := by
    simp only [hy, recordTimestamp, windowed, Ctx.withTp]
  have hwnd : y.c.tp.sndWnd = x.c.tp.sndWnd := congrArg Observed.sndWnd hobs
  have hupdates : updatesWindow y ↔ wouldUpdate x x.c.tp.sndWnd := by
    rw [← hwnd]
    exact updatesWindow_iff hti hwin (by rwa [hflags]) (congrArg Observed.sndWl1 hobs)
      (congrArg Observed.sndWl2 hobs)
  refine ⟨step6on y, ?_, ?_⟩
  · rw [general_established hstate, hother, hy]
    rfl
  · rw [observed_step6on_next (by rwa [hflags]) (by rwa [hti]) (by rwa [hti])
      (by rwa [hti, hnxt]) (by rwa [hsegs']) (by rwa [hstate']), hobs]
    simp only [hupdates, hti, hwin]
    rfl

end General

/-! ### The two paths compared -/

section Compare

variable {env : Env} {x : Ctx}

/-- Pulling `rcv_up` along changes it unless it is not behind. -/
theorem pulled_eq_iff {nxt up : TcpSeq} : up = (if seqGT nxt up then nxt else up) ↔ ¬ seqGT nxt up := by
  refine ⟨fun heq hgt => ?_, fun hle => (if_neg hle).symm⟩
  rw [if_pos hgt] at heq
  rw [heq, seqGT, seqDiff_self] at hgt
  exact lt_irrefl _ hgt

theorem acked_of_pureAck (hpure : isPureAck x) :
    seqDiff x.ti.tiAck x.c.tp.sndUna = (x.ti.tiAck - x.c.tp.sndUna).toNat ∧
      x.ti.tiAck - x.c.tp.sndUna ≠ 0 := by
  have hgt : seqDiff x.ti.tiAck x.c.tp.sndUna > 0 := hpure.2.1
  unfold seqDiff at hgt ⊢
  have hlt := (x.ti.tiAck - x.c.tp.sndUna).isLt
  rw [BitVec.toInt_eq_toNat_cond] at hgt ⊢
  refine ⟨by split at hgt <;> omega, ?_⟩
  intro hzero
  rw [hzero] at hgt
  exact lt_irrefl _ hgt

theorem observed_pureAck :
    observed (pureAck env (recordTimestamp env 0 x)) =
      { observed x.c with
        sndUna := x.ti.tiAck
        tRexmt := ackTimer (ackRtt env x).c.tp x.ti.tiAck
        soSnd := (dropSnd env (seqDiff x.ti.tiAck x.c.tp.sndUna) x.c).so.soSnd.sbMb } := by
  have hsample : rttSample env (recordTimestamp env 0 x) = rttSample env x := rfl
  unfold pureAck ackRtt
  rw [hsample]
  cases rttSample env x <;> rfl

/-- The fast path does not panic if there is as much data as is acknowledged. -/
theorem pureAck_panicked_iff (hpure : isPureAck x) (hlive : x.c.panicked = none)
    (hcc : x.c.so.soSnd.sbMb.length < 2 ^ 32) :
    (pureAck env (recordTimestamp env 0 x)).panicked = none ↔
      x.ti.tiAck - x.c.tp.sndUna ≤ x.c.so.soSnd.sbCc := by
  have hacked := (acked_of_pureAck hpure).1
  have hdrop : (pureAck env (recordTimestamp env 0 x)).panicked =
      (dropSnd env (seqDiff x.ti.tiAck x.c.tp.sndUna) x.c).panicked := by
    have hsample : rttSample env (recordTimestamp env 0 x) = rttSample env x := rfl
    unfold pureAck ackRtt
    rw [hsample]
    cases rttSample env x <;> rfl
  have hle : x.ti.tiAck - x.c.tp.sndUna ≤ x.c.so.soSnd.sbCc ↔
      (x.ti.tiAck - x.c.tp.sndUna).toNat ≤ x.c.so.soSnd.sbMb.length := by
    rw [BitVec.le_def, Sockbuf.sbCc, BitVec.toNat_ofNat, Nat.mod_eq_of_lt hcc]
  rw [hdrop, hle, dropSnd, Sockbuf.sbdrop, hacked, hlive]
  generalize (x.ti.tiAck - x.c.tp.sndUna).toNat = acked
  by_cases hfits : acked ≤ x.c.so.soSnd.sbMb.length
  · simp [hfits]
  · simp [hfits]

theorem pureAck_agrees_iff (hpred : predicted x) (hpure : isPureAck x)
    (hfits : x.ti.tiAck - x.c.tp.sndUna ≤ x.c.so.soSnd.sbCc)
    (hwithin : seqLEQ x.ti.after (x.c.tp.rcvNxt + recvWindow x.c)) {y : Ctx}
    (hy : general env x = .ok y) :
    observed (pureAck env (recordTimestamp env 0 x)) = observed y.c ↔
      x.c.tp.tDupacks = 0 ∧ ¬ seqGT x.c.tp.rcvNxt x.c.tp.rcvUp ∧
        x.c.tp.sndWl1 = x.ti.tiSeq ∧ x.c.tp.sndWl2 = x.ti.tiAck ∧
        x.c.tp.sndWnd - (x.ti.tiAck - x.c.tp.sndUna) < x.c.tp.sndWnd := by
  have hmore : ¬ x.ti.tiAck - x.c.tp.sndUna > x.c.so.soSnd.sbCc := BitVec.not_lt.mpr hfits
  obtain ⟨y', hy', hobs⟩ := general_pureAck env hpred hpure hwithin (if_neg hmore).symm rfl
  have hamount : ackedAmount x.c x.ti.tiAck = seqDiff x.ti.tiAck x.c.tp.sndUna := if_neg hmore
  obtain rfl : y = y' := by
    rw [hy] at hy'
    exact Except.ok.inj hy'
  have hwin : x.tiwin = x.c.tp.sndWnd := hpred.2.2.2.2.2.2.2.2.2.1
  have hne := (acked_of_pureAck hpure).2
  rw [hobs, observed_pureAck, hamount, hwin]
  generalize x.ti.tiAck - x.c.tp.sndUna = acked at hne
  have hmoved : x.c.tp.sndWnd ≠ x.c.tp.sndWnd - acked := by
    intro heq
    apply hne
    bv_omega
  simp only [observed, Observed.mk.injEq, true_and, and_true, pulled_eq_iff]
  constructor
  · rintro ⟨hwnd, hwl1, hwl2, hup, hdup⟩
    have hupdate : wouldUpdate x (x.c.tp.sndWnd - acked) := by
      by_contra hnot
      rw [if_neg hnot] at hwnd
      exact hmoved hwnd
    rw [if_pos hupdate] at hwl1 hwl2
    refine ⟨hdup, hup, hwl1, hwl2, ?_⟩
    unfold wouldUpdate at hupdate
    rw [hwl1, hwl2, hwin] at hupdate
    simpa [not_seqLT_self] using hupdate
  · rintro ⟨hdup, hup, hwl1, hwl2, hlt⟩
    have hupdate : wouldUpdate x (x.c.tp.sndWnd - acked) := by
      refine .inr ⟨hwl1, .inr ⟨hwl2, ?_⟩⟩
      rwa [hwin]
    rw [if_pos hupdate, if_pos hupdate, if_pos hupdate]
    exact ⟨rfl, hwl1, hwl2, hup, hdup⟩

theorem pureData_agrees_iff (hpred : predicted x) (hpure : isPureData x)
    (hfin : x.ti.tiFlags.fin = false)
    (hwithin : seqLEQ x.ti.after (x.c.tp.rcvNxt + recvWindow x.c)) {y : Ctx}
    (hy : general env x = .ok y) :
    observed (pureData (recordTimestamp env 0 x)) = observed y.c ↔
      x.c.tp.tDupacks = 0 ∧ ¬ seqGT x.c.tp.rcvNxt x.c.tp.rcvUp ∧
        ¬ (seqLT x.c.tp.sndWl1 x.ti.tiSeq ∨
          x.c.tp.sndWl1 = x.ti.tiSeq ∧ seqLT x.c.tp.sndWl2 x.ti.tiAck) := by
  obtain ⟨y', hy', hobs⟩ := general_pureData env hpred hpure hfin hwithin
  obtain rfl : y = y' := by
    rw [hy] at hy'
    exact Except.ok.inj hy'
  have hwin : x.tiwin = x.c.tp.sndWnd := hpred.2.2.2.2.2.2.2.2.2.1
  have hfast : observed (pureData (recordTimestamp env 0 x)) = observed (pureData x) := rfl
  have hupdate : wouldUpdate x x.c.tp.sndWnd ↔ seqLT x.c.tp.sndWl1 x.ti.tiSeq ∨
      x.c.tp.sndWl1 = x.ti.tiSeq ∧ seqLT x.c.tp.sndWl2 x.ti.tiAck := by
    have hnot : ¬ x.tiwin > x.c.tp.sndWnd := by
      rw [hwin]
      exact BitVec.lt_irrefl _
    simp [wouldUpdate, hnot]
  rw [hobs, hfast, hwin, ← hupdate]
  simp only [observed, pureData, Observed.mk.injEq, true_and, and_true, ite_self, pulled_eq_iff]
  constructor
  · rintro ⟨hwl1, hwl2, hup, hdup⟩
    refine ⟨hdup, hup, fun h => ?_⟩
    rw [if_pos h] at hwl1 hwl2
    rw [hupdate, hwl1, hwl2] at h
    simp [not_seqLT_self] at h
  · rintro ⟨hdup, hup, hnot⟩
    rw [if_neg hnot, if_neg hnot]
    exact ⟨rfl, rfl, hup, hdup⟩

/-- Data that fits into the buffer is not longer than the receive window. -/
theorem le_recvWindow {c : Conn} {len : Nat} (hspace : (len : Int) ≤ c.so.soRcv.sbspace) :
    len ≤ (recvWindow c).toNat := by
  have hlt : c.so.soRcv.sbspace < 2 ^ 31 := by
    have hhi := (c.so.soRcv.sbHiwat - c.so.soRcv.sbCc).toInt_lt
    have hmin : c.so.soRcv.sbspace ≤ (c.so.soRcv.sbHiwat - c.so.soRcv.sbCc).toInt := min_le_left _ _
    omega
  have hnat : (BitVec.ofInt 32 c.so.soRcv.sbspace).toNat = c.so.soRcv.sbspace.toNat := by
    rw [BitVec.toNat_ofInt]
    omega
  have hpos : ¬ c.so.soRcv.sbspace < 0 := by omega
  simp only [recvWindow, if_neg hpos, umax]
  split <;> bv_omega

theorem generalPath_after {c : Conn} {ti : Seg} (hx : x = entry env c ti) (hpred : predicted x)
    (hlen : x.ti.tiLen < 2 ^ 15) (hle : x.ti.tiLen ≤ (recvWindow x.c).toNat)
    (hafter : ¬ seqLEQ x.ti.after (x.c.tp.rcvNxt + recvWindow x.c)) :
    observed (generalPath env c ti) = observed x.c := by
  have hother := inputOther_after env (x := windowed x) hpred hlen hle hafter
  rw [generalPath, ← hx, general_established hpred.1, hother]
  rfl

/-- There is no panic, and nothing that the two paths leave behind differs. -/
def agrees (env : Env) (c : Conn) (ti : Seg) (c' : Conn) : Prop :=
  c'.panicked = none ∧ observed c' = observed (generalPath env c ti)

theorem pureAck_sound_iff {c : Conn} {ti : Seg} (hx : x = entry env c ti) (hpred : predicted x)
    (hpure : isPureAck x) (hlive : x.c.panicked = none) (hcc : x.c.so.soSnd.sbMb.length < 2 ^ 32) :
    agrees env c ti (pureAck env (recordTimestamp env 0 x)) ↔
      seqLEQ x.ti.after (x.c.tp.rcvNxt + recvWindow x.c) ∧ x.c.tp.tDupacks = 0 ∧
        ¬ seqGT x.c.tp.rcvNxt x.c.tp.rcvUp ∧ x.ti.tiAck - x.c.tp.sndUna ≤ x.c.so.soSnd.sbCc ∧
        x.c.tp.sndWl1 = x.ti.tiSeq ∧ x.c.tp.sndWl2 = x.ti.tiAck ∧
        x.c.tp.sndWnd - (x.ti.tiAck - x.c.tp.sndUna) < x.c.tp.sndWnd := by
  by_cases hwithin : seqLEQ x.ti.after (x.c.tp.rcvNxt + recvWindow x.c)
  · obtain ⟨y, hy, -⟩ := general_pureAck env hpred hpure hwithin rfl rfl
    have hgeneral : generalPath env c ti = y.c := by rw [generalPath, ← hx, hy]
    rw [agrees, hgeneral, pureAck_panicked_iff hpure hlive hcc]
    constructor
    · rintro ⟨hfits, hobs⟩
      obtain ⟨hdup, hup, hwl1, hwl2, hwnd⟩ :=
        (pureAck_agrees_iff hpred hpure hfits hwithin hy).mp hobs
      exact ⟨hwithin, hdup, hup, hfits, hwl1, hwl2, hwnd⟩
    · rintro ⟨-, hdup, hup, hfits, hwl1, hwl2, hwnd⟩
      exact ⟨hfits, (pureAck_agrees_iff hpred hpure hfits hwithin hy).mpr
        ⟨hdup, hup, hwl1, hwl2, hwnd⟩⟩
  · -- the general path leaves `snd_una` where it is
    have hzero : x.ti.tiLen ≤ (recvWindow x.c).toNat := by rw [hpure.1]; exact Nat.zero_le _
    have hobs := generalPath_after hx hpred (by rw [hpure.1]; decide) hzero hwithin
    refine ⟨fun h => ?_, fun h => absurd h.1 hwithin⟩
    have huna : x.ti.tiAck = x.c.tp.sndUna := by
      have heq := h.2
      rw [hobs, observed_pureAck] at heq
      exact congrArg Observed.sndUna heq
    have hgt : seqDiff x.ti.tiAck x.c.tp.sndUna > 0 := hpure.2.1
    rw [huna, seqDiff_self] at hgt
    exact absurd hgt (lt_irrefl _)

theorem pureData_sound_iff {c : Conn} {ti : Seg} (hx : x = entry env c ti) (hpred : predicted x)
    (hpure : isPureData x) (hlive : x.c.panicked = none) (hlen : x.ti.tiLen < 2 ^ 15)
    (hfin : x.ti.tiFlags.fin = false) :
    agrees env c ti (pureData (recordTimestamp env 0 x)) ↔
      seqLEQ x.ti.after (x.c.tp.rcvNxt + recvWindow x.c) ∧ x.c.tp.tDupacks = 0 ∧
        ¬ seqGT x.c.tp.rcvNxt x.c.tp.rcvUp ∧
        ¬ (seqLT x.c.tp.sndWl1 x.ti.tiSeq ∨
          x.c.tp.sndWl1 = x.ti.tiSeq ∧ seqLT x.c.tp.sndWl2 x.ti.tiAck) := by
  have hlive' : (pureData (recordTimestamp env 0 x)).panicked = none := hlive
  by_cases hwithin : seqLEQ x.ti.after (x.c.tp.rcvNxt + recvWindow x.c)
  · obtain ⟨y, hy, -⟩ := general_pureData env hpred hpure hfin hwithin
    have hgeneral : generalPath env c ti = y.c := by rw [generalPath, ← hx, hy]
    rw [agrees, hgeneral, pureData_agrees_iff hpred hpure hfin hwithin hy]
    exact ⟨fun h => ⟨hwithin, h.2⟩, fun h => ⟨hlive', h.2⟩⟩
  · -- the general path leaves `rcv_nxt` where it is
    have hobs := generalPath_after hx hpred hlen (le_recvWindow hpure.2.2.2) hwithin
    refine ⟨fun h => ?_, fun h => absurd h.1 hwithin⟩
    have hnxt : x.c.tp.rcvNxt + BitVec.ofNat 32 x.ti.tiLen = x.c.tp.rcvNxt :=
      congrArg Observed.rcvNxt (h.2.trans hobs)
    have hpos := hpure.1
    have hzero : (BitVec.ofNat 32 x.ti.tiLen) = 0 := by bv_omega
    have hnat : x.ti.tiLen % 2 ^ 32 = 0 := congrArg BitVec.toNat hzero
    omega

/-- The fast path agrees with the general path exactly where `PredictionSound` holds. -/
theorem fastPath_agrees_iff {c c' : Conn} {ti : Seg} (hlive : c.panicked = none)
    (hcc : c.so.soSnd.sbMb.length < 2 ^ 32) (hlen : ti.tiLen < 2 ^ 15)
    (hfast : fastPath env c ti = some c') :
    c'.panicked = none ∧ observed c' = observed (generalPath env c ti) ↔ PredictionSound c ti := by
  obtain ⟨x, hx⟩ : ∃ x, x = entry env c ti := ⟨_, rfl⟩
  have hpred : predicted x := by
    by_contra hnot
    rw [fastPath, ← hx, if_neg hnot] at hfast
    cases hfast
  have hflags : x.tiflags = ti.tiFlags := by rw [hx, entry_tiflags]
  obtain ⟨ts, hentry⟩ := entry_of_not_syn env c (hflags ▸ hpred.2.2.1)
  rw [hx.symm] at hentry
  have hti : x.ti = ti := by rw [hentry]
  have hso : x.c.so = c.so := by rw [hentry]
  have hwindow : recvWindow x.c = recvWindow c := by rw [hentry]; rfl
  have hobs : observed x.c = observed c := by rw [hentry]; rfl
  have hdup : x.c.tp.tDupacks = c.tp.tDupacks := congrArg Observed.tDupacks hobs
  have hnxt : x.c.tp.rcvNxt = c.tp.rcvNxt := congrArg Observed.rcvNxt hobs
  have hup : x.c.tp.rcvUp = c.tp.rcvUp := congrArg Observed.rcvUp hobs
  have huna : x.c.tp.sndUna = c.tp.sndUna := congrArg Observed.sndUna hobs
  have hwl1 : x.c.tp.sndWl1 = c.tp.sndWl1 := congrArg Observed.sndWl1 hobs
  have hwl2 : x.c.tp.sndWl2 = c.tp.sndWl2 := congrArg Observed.sndWl2 hobs
  have hwnd : x.c.tp.sndWnd = c.tp.sndWnd := congrArg Observed.sndWnd hobs
  have hlive' : x.c.panicked = none := by rw [hentry]; exact hlive
  rw [fastPath, ← hx, if_pos hpred] at hfast
  change agrees env c ti c' ↔ _
  by_cases hack : isPureAck x
  · have hack' : isPureAck (recordTimestamp env 0 x) := hack
    simp only [if_pos hack', Option.some.injEq] at hfast
    have hempty : ti.tiLen = 0 := hti ▸ hack.1
    rw [← hfast, pureAck_sound_iff hx hpred hack hlive' (by rwa [hso]), PredictionSound, endsInWindow,
      if_pos hempty, hti, hso, hwindow, hdup, hnxt, hup, huna, hwl1, hwl2, hwnd]
  · have hack' : ¬ isPureAck (recordTimestamp env 0 x) := hack
    have hdata : isPureData x := by
      by_contra hnot
      have hnot' : ¬ isPureData (recordTimestamp env 0 x) := hnot
      simp only [if_neg hack', if_neg hnot', reduceCtorEq] at hfast
    have hdata' : isPureData (recordTimestamp env 0 x) := hdata
    simp only [if_neg hack', if_pos hdata', Option.some.injEq] at hfast
    have hlong : ¬ ti.tiLen = 0 := hti ▸ hdata.1
    have hfin : x.ti.tiFlags.fin = false := by
      rw [hti, ← hflags]
      exact hpred.2.2.2.1
    rw [← hfast, pureData_sound_iff hx hpred hdata hlive' (by rwa [hti]) hfin, PredictionSound,
      endsInWindow, if_neg hlong, hti, hwindow, hdup, hnxt, hup, hwl1, hwl2]

end Compare

/-- An established connection with two octets in flight, whose last window update was taken from a segment with acknowledgment `wl2`. -/
def inFlight (wl2 : TcpSeq) : Conn where
  tp :=
    { tState := .established, iss := 100, sndUna := 101, sndNxt := 103, sndMax := 103, sndUp := 101
      sndWnd := 1000, sndWl1 := 501, sndWl2 := wl2, sndCwnd := 2000, tMaxseg := 512, tTemplate := true
      irs := 500, rcvNxt := 501, rcvUp := 501, rcvAdv := 501 + 4096 }
  so :=
    { ssIsconnected := true
      soSnd := { sbMb := [7, 8], sbHiwat := 4096, sbMbcnt := 128, sbMbmax := 8192 }
      soRcv := { sbHiwat := 4096, sbMbmax := 8192 } }

/-- The ACK of both octets. -/
def ackOfBoth : Seg := { tiSeq := 501, tiAck := 103, tiFlags := { ack := true }, tiWin := 1000 }

theorem fastPath_agrees_ackOfBoth :
    ∃ c', fastPath {} (inFlight 103) ackOfBoth = some c' ∧ PredictionSound (inFlight 103) ackOfBoth ∧
      c'.panicked = none ∧ observed c' = observed (generalPath {} (inFlight 103) ackOfBoth) := by
  have hsome : (fastPath {} (inFlight 103) ackOfBoth).isSome := by decide
  have hsound : PredictionSound (inFlight 103) ackOfBoth := by decide
  refine ⟨_, (Option.some_get hsome).symm, hsound, ?_⟩
  exact (fastPath_agrees_iff rfl (by decide) (by decide) (Option.some_get hsome).symm).mpr hsound

/-- The fast path leaves `snd_wl2` behind. -/
theorem fastPath_leaves_sndWl2 :
    (fastPath {} (inFlight 101) ackOfBoth).map (fun c => (observed c).sndWl2) = some 101 ∧
      (observed (generalPath {} (inFlight 101) ackOfBoth)).sndWl2 = 103 := by
  decide

end Reading.Tcp
