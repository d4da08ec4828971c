import Reading.Tcp.Input
import Reading.Tcp.SendOutput

/-!
# TCP input and the phases of the send side

What a segment does to the send side is done by its ACK, by the three ways into `ESTABLISHED`, and by the state changes that FIN, RST and the end of a connection bring. The other stages of `tcp_input` do not touch it. A segment moves the connection from one phase to another, or leaves it in its phase with the acknowledged octets dropped; the one exception is an ACK of nothing at all that is accepted in `SYN_RECEIVED`.
-/

namespace Reading.Tcp

open Reading.Kern

/-! ### Steps that keep the buffer -/

namespace SndSide

variable {written : List Byte} {o s s' : SndSide} {ack : TcpSeq}

theorem Progress.refl (h : s.Sound written) (hunderflow : s.underflow = false) (ack : TcpSeq) :
    s.Progress written ack s :=
  ⟨h, rfl, ⟨[], by simp⟩, hunderflow, 0, rfl, fun _ _ hj => absurd hj (Nat.not_lt_zero _)⟩

theorem Progress.settle (h : o.Progress written ack s) (hsound : s'.Sound written)
    (hsent : s'.sent = s.sent) (hiss : s'.iss = s.iss) (hdata : s'.data = s.data)
    (hunderflow : s'.underflow = s.underflow) : o.Progress written ack s' := by
  refine ⟨hsound, hiss.trans h.iss, ?_, hunderflow.trans h.underflow, ?_⟩
  · rw [hsent]
    exact h.sent
  · rw [hdata]
    exact h.dropped

theorem Progress.emits (h : o.Progress written ack s) (hsound : s'.Sound written)
    (hemits : s.Emits written s') : o.Progress written ack s' := by
  obtain ⟨old, hold, holdFaithful⟩ := h.sent
  obtain ⟨new, hnew, hnewFaithful⟩ := hemits.sent
  refine ⟨hsound, hemits.iss.trans h.iss, ⟨old ++ new, ?_, ?_⟩, hemits.underflow.trans h.underflow, ?_⟩
  · rw [hnew, hold, List.append_assoc]
  · intro ti hti
    rcases List.mem_append.mp hti with hti | hti
    · exact holdFaithful ti hti
    · exact h.iss ▸ hnewFaithful ti hti
  · rw [hemits.data]
    exact h.dropped

theorem Sound.sentMore (h : s.Sound written) (new : List Seg) :
    ({ s with sent := s.sent ++ new } : SndSide).Sound written := by
  cases h with
  | gone h => exact .gone h
  | quiet h => exact .quiet ⟨h.empty, h.mute, h.notOpening, h.notEstablished, h.fin, h.listening⟩
  | opening h => exact .opening ⟨h.empty, h.mute, h.fresh, h.state, h.una, h.window, h.fin⟩
  | live d a b h =>
    refine .live d a b ⟨h.connected, h.notOpening, h.notClosing, h.fin, h.listening, h.dropped, h.data,
      h.fits, h.una, h.nxt, h.max, h.ordered, h.bound, h.finished, ?_⟩
    intro j x hj hx
    obtain ⟨ti, hti, hcovers⟩ := h.covered j x hj hx
    exact ⟨ti, List.mem_append_left _ hti, hcovers⟩
  | spent h => exact .spent ⟨h.connected, h.state, h.cantsendmore, h.empty, h.nxt, h.max⟩

/-! A change of state within a phase, or to the phase `Quiet`. -/

theorem Quiet.enter {t : TcpState} (h : s.Quiet) (hopening : t ≠ .synSent ∧ t ≠ .synReceived)
    (hestablished : t ≠ .established) (hfin : t.sendsFin → s.cantsendmore = true)
    (hlisten : t = .listen → s.acceptconn = true) : ({ s with tState := t } : SndSide).Quiet := by
  refine ⟨h.empty, h.mute, hopening, hestablished, ?_, hlisten⟩
  rintro (hstate | hsent)
  · exact hfin hstate
  · exact h.fin (.inr hsent)

theorem Opening.enter {t : TcpState} (h : s.Opening written) (hopening : t ≠ .synSent ∧ t ≠ .synReceived)
    (hestablished : t ≠ .established) (hfin : t.sendsFin → s.cantsendmore = true)
    (hlisten : t = .listen → s.acceptconn = true) : ({ s with tState := t } : SndSide).Quiet := by
  refine ⟨h.empty, h.mute, hopening, hestablished, ?_, hlisten⟩
  rintro (hstate | hsent)
  · exact hfin hstate
  · exact h.fin hsent

theorem Live.enter {t : TcpState} {d a b : Nat} (h : s.Live written d a b)
    (hopening : t ≠ .synSent ∧ t ≠ .synReceived) (hclosing : t ≠ .finWait2 ∧ t ≠ .timeWait)
    (hfin : t.sendsFin → s.cantsendmore = true) (hlisten : t = .listen → s.acceptconn = true)
    (hfinished : s.sentfin = true → t ≠ .established ∧ t ≠ .closeWait) :
    ({ s with tState := t } : SndSide).Live written d a b :=
  ⟨h.connected, hopening, hclosing, hfin, hlisten, h.dropped, h.data, h.fits, h.una, h.nxt, h.max,
    h.ordered, h.bound, fun hsent => ⟨(h.finished hsent).1, (h.finished hsent).2.1, hfinished hsent⟩,
    h.covered⟩

theorem Spent.enter {t : TcpState} (h : s.Spent) (hopening : t ≠ .synSent ∧ t ≠ .synReceived)
    (hestablished : t ≠ .established) (hlisten : t = .listen → s.acceptconn = true) :
    ({ s with tState := t } : SndSide).Quiet :=
  ⟨h.empty, .inl h.cantsendmore, hopening, hestablished, fun _ => h.cantsendmore, hlisten⟩

theorem Sound.closed (h : s.Sound written) :
    ({ s with tState := .closed } : SndSide).Sound written := by
  have hlisten : TcpState.closed = .listen → s.acceptconn = true := fun h => absurd h (by decide)
  have hfin : TcpState.closed.sendsFin → s.cantsendmore = true := fun h => absurd h (by decide)
  cases h with
  | gone h => exact .gone h
  | quiet h => exact .quiet (h.enter (by decide) (by decide) hfin hlisten)
  | opening h => exact .quiet (h.enter (by decide) (by decide) hfin hlisten)
  | live d a b h => exact .live d a b (h.enter (by decide) (by decide) hfin hlisten fun _ => by decide)
  | spent h => exact .quiet (h.enter (by decide) (by decide) hlisten)

/-- The user closes the connection: what is in the buffer is sent, then a FIN. -/
theorem Sound.finSent {t : TcpState} (h : s.Sound written) (hshut : s.cantsendmore = true)
    (ht : t = .finWait1 ∨ t = .lastAck ∨ t = .closing) : ({ s with tState := t } : SndSide).Sound written := by
  have hopening : t ≠ .synSent ∧ t ≠ .synReceived := by
    rcases ht with rfl | rfl | rfl <;> decide
  have hstates : t ≠ .established ∧ t ≠ .closeWait := by
    rcases ht with rfl | rfl | rfl <;> decide
  have hlisten : t = .listen → s.acceptconn = true := by
    rcases ht with rfl | rfl | rfl <;> exact fun h => absurd h (by decide)
  have hclosing : t ≠ .finWait2 ∧ t ≠ .timeWait := by
    rcases ht with rfl | rfl | rfl <;> decide
  cases h with
  | gone h => exact .gone h
  | quiet h => exact .quiet (h.enter hopening hstates.1 (fun _ => hshut) hlisten)
  | opening h => exact .quiet (h.enter hopening hstates.1 (fun _ => hshut) hlisten)
  | live d a b h => exact .live d a b (h.enter hopening hclosing (fun _ => hshut) hlisten fun _ => hstates)
  | spent h => exact .quiet (h.enter hopening hstates.1 hlisten)

theorem Quiet.disconnected (h : s.Quiet) :
    ({ s with connected := false, cantsendmore := true } : SndSide).Quiet :=
  ⟨h.empty, .inl rfl, h.notOpening, h.notEstablished, fun _ => rfl, h.listening⟩

theorem Quiet.ended {t : TcpState} (h : s.Quiet) (ht : t = .finWait2 ∨ t = .timeWait) :
    ({ s with tState := t } : SndSide).Quiet := by
  rcases ht with rfl | rfl
  · exact h.enter (by decide) (by decide) (fun h => absurd h (by decide)) (fun h => absurd h (by decide))
  · exact h.enter (by decide) (by decide) (fun h => absurd h (by decide)) (fun h => absurd h (by decide))

/-- A FIN arrives on a connection that the user has not closed. -/
theorem Sound.finReceived (h : s.Sound written)
    (hstate : s.tState = .synReceived ∨ s.tState = .established) :
    ({ s with tState := .closeWait } : SndSide).Sound written := by
  have hlisten : TcpState.closeWait = .listen → s.acceptconn = true := fun h => absurd h (by decide)
  have hfin : TcpState.closeWait.sendsFin → s.cantsendmore = true := fun h => absurd h (by decide)
  cases h with
  | gone h => exact .gone h
  | quiet h =>
    rcases hstate with hstate | hstate
    · exact absurd hstate h.notOpening.2
    · exact absurd hstate h.notEstablished
  | opening h => exact .quiet (h.enter (by decide) (by decide) hfin hlisten)
  | live d a b h =>
    refine .live d a b (h.enter (by decide) (by decide) hfin hlisten fun hsent => ?_)
    rcases hstate with hstate | hstate
    · exact absurd hstate h.notOpening.2
    · exact absurd hstate (h.finished hsent).2.2.1
  | spent h => exact .quiet (h.enter (by decide) (by decide) hlisten)

theorem Sound.cantsendmore (h : s.Sound written) (hgone : s.gone = false) (hstate : s.tState.sendsFin) :
    s.cantsendmore = true := by
  cases h with
  | gone h =>
    rw [hgone] at h
    cases h
  | quiet h => exact h.fin (.inl hstate)
  | opening h =>
    exfalso
    rcases h.state with hopening | hopening <;> rw [hopening] at hstate <;> revert hstate <;> decide
  | live d a b h => exact h.fin hstate
  | spent h => exact h.cantsendmore

/-- After the FIN of the user is acknowledged nothing is left to send. -/
theorem Sound.quiet_of_closed (h : s.Sound written) (hgone : s.gone = false)
    (hstate : s.tState = .finWait2 ∨ s.tState = .timeWait) : s.Quiet := by
  cases h with
  | gone h =>
    rw [hgone] at h
    cases h
  | quiet h => exact h
  | opening h =>
    exfalso
    rcases h.state with hopening | hopening <;> rw [hopening] at hstate <;> revert hstate <;> decide
  | live d a b h =>
    rcases hstate with hstate | hstate
    · exact absurd hstate h.notClosing.1
    · exact absurd hstate h.notClosing.2
  | spent h =>
    exfalso
    rw [h.state] at hstate
    revert hstate
    decide

end SndSide

section Conn

variable {written : List Byte} {o : SndSide} {ack : TcpSeq} {c : Conn}

theorem tcpOutput_progress (env : Env) (h : o.Progress written ack c.snd) (hlive : c.gone = false) :
    o.Progress written ack (tcpOutput env c).snd := by
  obtain ⟨hsound, hemits⟩ := tcpOutput_sound env h.sound hlive
  exact h.emits hsound hemits

theorem tcpRespond_progress (h : o.Progress written ack c.snd) (a q : TcpSeq) (flags : Flags) :
    o.Progress written ack (tcpRespond c a q flags).snd := by
  refine h.emits (h.sound.sentMore _) ⟨⟨_, rfl, ?_⟩, rfl, rfl, rfl, rfl, rfl, rfl⟩
  intro ti hti
  rw [List.mem_singleton.mp hti]
  exact faithful_of_empty rfl

theorem tcpClose_progress (h : o.Progress written ack c.snd) :
    o.Progress written ack (tcpClose c).snd :=
  h.settle (.gone rfl) rfl rfl rfl rfl

theorem tcpDrop_progress (env : Env) (h : o.Progress written ack c.snd) (hlive : c.gone = false)
    (errno : Int) : o.Progress written ack (tcpDrop env c errno).snd := by
  have hout : o.Progress written ack (if c.tp.tState.haveRcvdSyn then
      tcpOutput env { c with tp := { c.tp with tState := .closed } } else c).snd := by
    split
    · refine tcpOutput_progress env ?_ hlive
      exact h.settle h.sound.closed rfl rfl rfl rfl
    · exact h
  unfold tcpDrop
  generalize (if c.tp.tState.haveRcvdSyn then
      tcpOutput env { c with tp := { c.tp with tState := .closed } } else c) = c' at hout
  exact hout.settle (.gone rfl) rfl rfl rfl rfl

end Conn

/-! ### Stages before the ACK -/

/-- What a stage that begins in `o` goes on with meets `P`; where the segment leaves, there is progress. -/
def Yields (written : List Byte) (o : SndSide) (ack : TcpSeq) (P : Ctx → Prop) : Flow → Prop
  | .ok y => P y
  | .error (exit, y) => o.Progress written ack y.c.snd ∧ (exit = .dropafterack → y.c.gone = false)

/-- The send side is still `o`, and the ACK is that of the segment that arrived. -/
def Untouched (o : SndSide) (ack : TcpSeq) (x : Ctx) : Prop := x.c.snd = o ∧ x.ti.tiAck = ack

/-- The send side has come from `o`, and the connection is still there. -/
def Progressed (written : List Byte) (o : SndSide) (ack : TcpSeq) (x : Ctx) : Prop :=
  o.Progress written ack x.c.snd ∧ x.c.gone = false

section Stages

variable {written : List Byte} {o : SndSide} {ack : TcpSeq} {P Q : Ctx → Prop} {x : Ctx}

theorem Yields.bind {flow : Flow} {next : Ctx → Flow} (h : Yields written o ack P flow)
    (hnext : ∀ y, P y → Yields written o ack Q (next y)) : Yields written o ack Q (flow >>= next) := by
  cases flow with
  | ok y => exact hnext y h
  | error e => exact h

/-- A connection before a segment arrives. -/
structure Ready (written : List Byte) (o : SndSide) : Prop where
  sound : o.Sound written
  underflow : o.underflow = false
  gone : o.gone = false

theorem Ready.progressed {q : TcpSeq} (h : Ready written o) (hx : x.c.snd = o) :
    Progressed written o q x :=
  ⟨hx ▸ SndSide.Progress.refl h.sound h.underflow q, (congrArg SndSide.gone hx).trans h.gone⟩

theorem Ready.leave (h : Ready written o) (hx : x.c.snd = o) (exit : Exit) :
    Yields written o ack P (.error (exit, x)) :=
  ⟨(h.progressed hx).1, fun _ => (h.progressed (q := ack) hx).2⟩

theorem Ready.close (h : Ready written o) {c : Conn} (hc : c.snd = o) {exit : Exit}
    (hexit : exit ≠ .dropafterack) :
    Yields written o ack P (.error (exit, { x with c := tcpClose c })) := by
  refine ⟨tcpClose_progress ?_, fun h => absurd h hexit⟩
  rw [hc]
  exact .refl h.sound h.underflow ack

theorem paws_yields (env : Env) (h : Ready written o) (hx : Untouched o ack x) :
    Yields written o ack (Untouched o ack) (paws env x) := by
  unfold paws
  split
  · exact hx
  · split
    · split
      · exact hx
      · exact h.leave hx.1 _
    · exact hx

theorem trimLeft_yields (h : Ready written o) (hx : Untouched o ack x) :
    Yields written o ack (Untouched o ack) (trimLeft x) := by
  unfold trimLeft
  dsimp only
  split
  · generalize (if x.tiflags.syn = true then seqDiff x.c.tp.rcvNxt x.ti.tiSeq - 1
      else seqDiff x.c.tp.rcvNxt x.ti.tiSeq) = todrop
    split
    · split
      · exact hx
      · split
        · exact h.leave (x := trimSyn x) hx.1 _
        · exact hx
    · exact hx
  · exact hx

theorem rcvAfterClose_yields (h : Ready written o) (hx : Untouched o ack x) :
    Yields written o ack (Untouched o ack) (rcvAfterClose x) := by
  unfold rcvAfterClose
  split
  · exact h.close hx.1 (by decide)
  · exact hx

theorem trimRight_yields (h : Ready written o) (hx : Untouched o ack x) :
    Yields written o ack (Untouched o ack) (trimRight x) := by
  unfold trimRight
  dsimp only
  split
  · split
    · split
      · exact h.close hx.1 (by decide)
      · split
        · exact hx
        · exact h.leave hx.1 _
    · exact hx
  · exact hx

theorem checkBits_yields (env : Env) (h : Ready written o) (hx : Untouched o ack x) :
    Yields written o ack (Untouched o ack) (checkBits env x) := by
  obtain ⟨hprogress, hlive⟩ := h.progressed (q := ack) hx.1
  have hreset : ∀ errno, Yields written o ack (Untouched o ack)
      (.error (.drop, { x with c := resetBy x.c errno })) := fun errno =>
    ⟨hprogress.settle (.gone rfl) rfl rfl rfl rfl, fun h => absurd h (by decide)⟩
  unfold checkBits
  split
  · split
    · exact hreset _
    · exact hreset _
    · exact hreset _
    · exact hreset _
    · exact hreset _
    · exact h.close hx.1 (by decide)
    · exact h.close hx.1 (by decide)
    · exact h.close hx.1 (by decide)
    · exact hx
  · split
    · exact ⟨tcpDrop_progress env hprogress hlive _, fun h => absurd h (by decide)⟩
    · split
      · exact h.leave hx.1 _
      · exact hx

theorem inputWindow_yields (env : Env) (h : Ready written o) (hx : Untouched o ack x) :
    Yields written o ack (Untouched o ack) (inputWindow env x) := by
  unfold inputWindow
  refine (paws_yields env h hx).bind fun y hy => ?_
  refine (trimLeft_yields h hy).bind fun y hy => ?_
  refine (rcvAfterClose_yields h hy).bind fun y hy => ?_
  refine (trimRight_yields h hy).bind fun y hy => ?_
  exact checkBits_yields env h hy

/-! ### Stages after the ACK -/

theorem tcpReassMacro_snd (c : Conn) (ti : Seg) : (tcpReassMacro c ti).1.snd = c.snd := by
  unfold tcpReassMacro
  split
  · rfl
  · unfold tcpReass
    dsimp only
    split <;> rfl

theorem urgent_step6_snd (x : Ctx) : (urgent (step6 x)).c.snd = x.c.snd := by
  have hstep6 : (step6 x).c.snd = x.c.snd := by
    unfold step6
    split <;> rfl
  have hpull : ∀ y : Ctx, (pullOutOfBand y).c.snd = y.c.snd := by
    intro y
    unfold pullOutOfBand
    split
    · exact panic_snd _ (by decide)
    · rfl
  rw [← hstep6]
  generalize step6 x = y
  unfold urgent
  dsimp only
  split
  · split
    · rfl
    · split
      · split
        · exact hpull _
        · rfl
      · split
        · exact hpull _
        · rfl
  · split <;> rfl

theorem dodata_snd (x : Ctx) : (dodata x).c.snd = x.c.snd := by
  unfold dodata
  split
  · exact tcpReassMacro_snd x.c x.ti
  · rfl

theorem finState_progressed (h : Progressed written o ack x) :
    Progressed written o ack (finState x) := by
  obtain ⟨hprogress, hlive⟩ := h
  have hsound := hprogress.sound
  unfold finState
  split
  · rename_i hstate
    exact ⟨hprogress.settle (hsound.finReceived (.inl hstate)) rfl rfl rfl rfl, hlive⟩
  · rename_i hstate
    exact ⟨hprogress.settle (hsound.finReceived (.inr hstate)) rfl rfl rfl rfl, hlive⟩
  · rename_i hstate
    have hshut := hsound.cantsendmore hlive (.inl hstate)
    exact ⟨hprogress.settle (hsound.finSent hshut (.inr (.inr rfl))) rfl rfl rfl rfl, hlive⟩
  · rename_i hstate
    have hquiet := (hsound.quiet_of_closed hlive (.inl hstate)).disconnected.ended (.inr rfl)
    exact ⟨hprogress.settle (.quiet hquiet) rfl rfl rfl rfl, hlive⟩
  · exact ⟨hprogress, hlive⟩
  · exact ⟨hprogress, hlive⟩

theorem finInput_progressed (h : Progressed written o ack x) :
    Progressed written o ack (finInput x) := by
  unfold finInput
  split
  · apply finState_progressed
    split
    · exact h
    · exact h
  · exact h

theorem step6on_progressed (h : Progressed written o ack x) :
    Progressed written o ack (step6on x) := by
  apply finInput_progressed
  have hsnd : (dodata (urgent (step6 x))).c.snd = x.c.snd := (dodata_snd _).trans (urgent_step6_snd x)
  have hgone : (dodata (urgent (step6 x))).c.gone = x.c.gone := congrArg SndSide.gone hsnd
  rw [Progressed, hsnd, hgone]
  exact h

end Stages

/-! ### An ACK of new data -/

/-- What lies after `base` is a number of octets ahead of it. -/
theorem seq_ahead {base ack : TcpSeq} (hgt : seqGT ack base) :
    ack = base + BitVec.ofNat 32 (ack - base).toNat ∧ seqDiff ack base = (ack - base).toNat ∧
      0 < (ack - base).toNat ∧ (ack - base).toNat < 2 ^ 31 := by
  have hpos : (ack - base).toInt > 0 := hgt
  have hcond := BitVec.toInt_eq_toNat_cond (ack - base)
  have hlt := (ack - base).isLt
  have hsmall : 2 * (ack - base).toNat < 2 ^ 32 := by
    by_contra hbig
    rw [if_neg hbig] at hcond
    omega
  have hdiff : (ack - base).toInt = (ack - base).toNat := BitVec.toInt_eq_toNat_of_lt hsmall
  refine ⟨?_, hdiff, by omega, by omega⟩
  rw [BitVec.ofNat_toNat, BitVec.setWidth_eq, BitVec.add_comm, BitVec.sub_add_cancel]

/-- A number after `base` and not after `base + b` is one of the `b` numbers after `base`. -/
theorem seq_between {base ack : TcpSeq} {b : Nat} (hb : b < 2 ^ 31) (hgt : seqGT ack base)
    (hle : ¬ seqGT ack (base + BitVec.ofNat 32 b)) : (ack - base).toNat ≤ b := by
  obtain ⟨hack, -, -, hsmall⟩ := seq_ahead hgt
  have hdiff := seqDiff_ofNat base (a := (ack - base).toNat) (b := b) (by omega) (by omega)
  rw [← hack] at hdiff
  unfold seqGT at hle
  omega

namespace SndSide

variable {written : List Byte} {s : SndSide} {ack : TcpSeq}

/-- What an ACK of `ack` makes of the send side. -/
def acked (s : SndSide) (ack : TcpSeq) : SndSide :=
  { s with
    una := ack
    nxt := if seqLT s.nxt ack then ack else s.nxt
    data := s.data.drop (ack - s.una).toNat }

theorem Quiet.acked (h : s.Quiet) (ack : TcpSeq) : (s.acked ack).Quiet := by
  refine ⟨?_, h.mute, h.notOpening, h.notEstablished, h.fin, h.listening⟩
  change s.data.drop _ = []
  rw [h.empty, List.drop_nil]

theorem Live.acked_nxt {d a b n : Nat} (h : s.Live written d a b) (hack : ack = s.una + BitVec.ofNat 32 n)
    (hn : n ≤ b) : (s.acked ack).nxt = ack + BitVec.ofNat 32 (Max.max a n - n) := by
  have hle := h.le_length
  have hfits := h.fits
  have hordered := h.ordered
  have hsum : ack + BitVec.ofNat 32 (Max.max a n - n) = s.una + BitVec.ofNat 32 (Max.max a n) := by
    rw [hack, BitVec.add_assoc, ← BitVec.ofNat_add]
    congr 2
    omega
  have hdiff := seqDiff_ofNat s.una (a := a) (b := n) (by omega) (by omega)
  rw [← h.nxt, ← hack] at hdiff
  rw [hsum]
  by_cases hlt : seqLT s.nxt ack
  · have : (a : Int) - n < 0 := hdiff ▸ hlt
    rw [max_eq_right (by omega), ← hack]
    exact if_pos hlt
  · have : ¬ (a : Int) - n < 0 := hdiff ▸ hlt
    rw [max_eq_left (by omega), ← h.nxt]
    exact if_neg hlt

/-- An ACK that leaves the connection with data, or with its FIN. -/
theorem Live.acked_within {d a b n : Nat} (h : s.Live written d a b)
    (hack : ack = s.una + BitVec.ofNat 32 n) (hcount : (ack - s.una).toNat = n) (hn : n ≤ b)
    (hlen : n ≤ s.data.length) :
    (s.acked ack).Live written (d + n) (Max.max a n - n) (b - n) := by
  have hdata : (s.acked ack).data = s.data.drop n := by rw [← hcount]; rfl
  have hlength : (s.acked ack).data.length = s.data.length - n := by rw [hdata, List.length_drop]
  have hordered := h.ordered
  refine ⟨h.connected, h.notOpening, h.notClosing, h.fin, h.listening, ?_, ?_, ?_, ?_,
    h.acked_nxt hack hn, ?_, by omega, ?_, ?_, ?_⟩
  · have hdropped := h.dropped
    have := congrArg List.length h.data
    rw [List.length_drop] at this
    omega
  · rw [hdata, h.data, List.drop_drop]
  · have := h.fits
    omega
  · change ack = s.iss + 1 + _
    rw [hack, h.una, BitVec.add_assoc, ← BitVec.ofNat_add]
  · change s.max = ack + _
    rw [h.max, hack, BitVec.add_assoc, ← BitVec.ofNat_add]
    congr 2
    omega
  · intro hsent
    have := h.bound hsent
    omega
  · intro hsent
    obtain ⟨hb, hrest⟩ := h.finished hsent
    exact ⟨by omega, hrest⟩
  · intro j x hj hx
    rw [hdata, List.getElem?_drop] at hx
    obtain ⟨ti, hti, hcovers⟩ := h.covered (n + j) x (by omega) hx
    refine ⟨ti, hti, ?_⟩
    change ti.Covers (ack + _) x
    rwa [hack, BitVec.add_assoc, ← BitVec.ofNat_add]

/-- An ACK of the FIN, after which there is nothing to send. -/
theorem Live.acked_all {d a b n : Nat} (h : s.Live written d a b) (hcount : (ack - s.una).toNat = n)
    (hn : n ≤ b) (hlen : s.data.length < n) : (s.acked ack).Quiet := by
  have hsent : s.sentfin = true := by
    by_contra hnot
    have := h.bound (by simpa using hnot)
    omega
  obtain ⟨-, hshut, hestablished, -⟩ := h.finished hsent
  refine ⟨?_, .inl hshut, h.notOpening, hestablished, fun _ => hshut, h.listening⟩
  change s.data.drop _ = []
  rw [hcount]
  exact List.drop_eq_nil_of_le (by omega)

theorem Sound.fits (h : s.Sound written) (hgone : s.gone = false) : s.data.length < 2 ^ 31 := by
  cases h with
  | gone h =>
    rw [hgone] at h
    cases h
  | quiet h => simp [h.empty]
  | opening h => simp [h.empty]
  | live d a b h =>
    have := h.fits
    omega
  | spent h => simp [h.empty]

/-- With an empty buffer an ACK drops nothing. -/
theorem Progress.acked_empty {o : SndSide} (h : o.Progress written ack s) (hempty : s.data = [])
    (hsound : (s.acked ack).Sound written) : o.Progress written ack (s.acked ack) := by
  refine h.settle hsound rfl rfl ?_ rfl
  change s.data.drop _ = s.data
  rw [hempty, List.drop_nil]

end SndSide

/-- An ACK of new data in a state where the SYN has been acknowledged. -/
theorem Ready.acked {written : List Byte} {o : SndSide} {ack : TcpSeq} (h : Ready written o)
    (hopening : o.tState ≠ .synSent ∧ o.tState ≠ .synReceived) (hgt : seqGT ack o.una)
    (hle : ¬ seqGT ack o.max) :
    o.Progress written ack (o.acked ack) ∧
      (o.data.length < (ack - o.una).toNat → (o.acked ack).Quiet) := by
  have hrefl := SndSide.Progress.refl h.sound h.underflow ack
  cases h.sound with
  | gone hgone =>
    rw [h.gone] at hgone
    cases hgone
  | quiet hquiet =>
    exact ⟨hrefl.acked_empty hquiet.empty (.quiet (hquiet.acked ack)), fun _ => hquiet.acked ack⟩
  | opening hstate =>
    rcases hstate.state with hstate | hstate
    · exact absurd hstate hopening.1
    · exact absurd hstate hopening.2
  | spent hspent =>
    rw [hspent.max] at hle
    exact absurd hgt hle
  | live d a b hlive =>
    obtain ⟨n, hn⟩ : ∃ n, (ack - o.una).toNat = n := ⟨_, rfl⟩
    have hlength := hlive.le_length
    have hfits := hlive.fits
    have hbound : n ≤ b := hn ▸ seq_between (by omega) hgt (hlive.max ▸ hle)
    have hack : ack = o.una + BitVec.ofNat 32 n := hn ▸ (seq_ahead hgt).1
    have hdropped : ∀ j x, j < n → o.data[j]? = some x →
        seqLT (o.una + BitVec.ofNat 32 j) ack ∧ ∃ ti ∈ o.sent, ti.Covers (o.una + BitVec.ofNat 32 j) x := by
      intro j x hj hx
      refine ⟨?_, hlive.covered j x (by omega) hx⟩
      have hdiff := seqDiff_ofNat o.una (a := j) (b := n) (by omega) (by omega)
      rw [← hack] at hdiff
      unfold seqLT
      omega
    have hprogress : (o.acked ack).Sound written → o.Progress written ack (o.acked ack) := fun hsound =>
      ⟨hsound, rfl, ⟨[], (List.append_nil _).symm, by simp⟩, h.underflow, n, by rw [← hn]; rfl, hdropped⟩
    rw [hn]
    by_cases hall : o.data.length < n
    · have hquiet := hlive.acked_all hn hbound hall
      exact ⟨hprogress (.quiet hquiet), fun _ => hquiet⟩
    · exact ⟨hprogress (.live _ _ _ (hlive.acked_within hack hn hbound (by omega))),
        fun hlt => absurd hlt hall⟩

/-- The SYN is acknowledged: a socket that can send has all of its stream ahead, another has nothing to send. -/
theorem SndSide.Opening.opened {written : List Byte} {s : SndSide} (h : s.Opening written)
    {nxt una : TcpSeq} (huna : una = s.iss + 1) (hnxt : nxt = una) (hmax : s.max = una) :
    ({ s with tState := .established, connected := true, incomplete := false, una := una, nxt := nxt } :
      SndSide).Sound written := by
  cases hshut : s.cantsendmore with
  | true => exact .spent ⟨rfl, rfl, rfl, h.empty, hnxt, hmax⟩
  | false =>
    have hsent : ¬ s.sentfin = true := by
      intro hsent
      rw [h.fin hsent] at hshut
      cases hshut
    have hzero : una = una + BitVec.ofNat 32 0 := (BitVec.add_zero una).symm
    have hfin : ¬ TcpState.established.sendsFin := by decide
    have hlisten : ¬ TcpState.established = .listen := by decide
    refine .live 0 0 0 ⟨rfl, by simp, by simp, fun h => absurd h hfin, fun h => absurd h hlisten,
      Nat.zero_le _, ?_, ?_, ?_, ?_, ?_, le_refl 0, fun _ => Nat.zero_le _, fun h => absurd h hsent,
      fun j x hj => absurd hj (Nat.not_lt_zero j)⟩
    · rw [h.fresh]
      exact h.empty
    · change s.data.length + 2 < _
      rw [h.empty]
      decide
    · exact huna.trans (by simp)
    · exact hnxt.trans hzero
    · exact hmax.trans hzero

section Ack

variable {written : List Byte} {o : SndSide} {ack : TcpSeq} {x : Ctx} (env : Env)

theorem dropSnd_snd {c : Conn} {k : Int} {n : Nat} (hk : k = n) (hn : n ≤ c.snd.data.length) :
    (dropSnd env k c).snd = { c.snd with data := c.snd.data.drop n } := by
  have hlen : k ≤ (c.so.soSnd.sbMb.length : Int) := by
    rw [hk]
    exact Int.ofNat_le.mpr hn
  unfold dropSnd Sockbuf.sbdrop
  rw [if_pos hlen, hk]
  rfl

theorem ackRtt_snd (x : Ctx) : (ackRtt env x).c.snd = x.c.snd ∧ (ackRtt env x).ti = x.ti := by
  unfold ackRtt
  cases rttSample env x with
  | some rtt => exact ⟨rfl, rfl⟩
  | none => exact ⟨rfl, rfl⟩

theorem ackTimers_snd (x : Ctx) : (ackTimers env x).c.snd = x.c.snd ∧ (ackTimers env x).ti = x.ti :=
  ackRtt_snd env x

/-- What leaves the buffer is what is acknowledged, or all there is. -/
theorem dropAcked_spec (hgt : seqGT x.ti.tiAck x.c.snd.una) (hfits : x.c.snd.data.length < 2 ^ 31) :
    (dropAcked env x).1.ti = x.ti ∧
      (dropAcked env x).1.c.snd =
        { x.c.snd with data := x.c.snd.data.drop (x.ti.tiAck - x.c.snd.una).toNat } ∧
      ((dropAcked env x).2 = true ↔ x.c.snd.data.length < (x.ti.tiAck - x.c.snd.una).toNat) := by
  obtain ⟨-, hdiff, -, -⟩ := seq_ahead hgt
  have hcc := toNat_sbCc hfits
  have hmore : x.ti.tiAck - x.c.tp.sndUna > x.c.so.soSnd.sbCc ↔
      x.c.snd.data.length < (x.ti.tiAck - x.c.snd.una).toNat := by
    rw [← hcc]
    exact BitVec.lt_def
  refine ⟨rfl, ?_, ?_⟩
  · change (dropSnd env (ackedAmount x.c x.ti.tiAck) x.c).snd = _
    unfold ackedAmount
    by_cases hall : x.ti.tiAck - x.c.tp.sndUna > x.c.so.soSnd.sbCc
    · have hlt := hmore.mp hall
      have hint : x.c.so.soSnd.sbCc.toInt = x.c.snd.data.length := by
        rw [BitVec.toInt_eq_toNat_of_lt (by omega), hcc]
      rw [if_pos hall, dropSnd_snd env hint (le_refl _), List.drop_length,
        List.drop_eq_nil_of_le (le_of_lt hlt)]
    · rw [if_neg hall]
      exact dropSnd_snd env hdiff (not_lt.mp fun hlt => hall (hmore.mpr hlt))
  · rw [← hmore]
    exact decide_eq_true_iff

/-- What an ACK of our FIN does to the state, once it has left nothing to send. -/
theorem finAcked_yields {ourfinisacked : Bool} (h : Progressed written o ack x)
    (hquiet : ourfinisacked = true → x.c.snd.tState ≠ .established → x.c.snd.Quiet) :
    Yields written o ack (Progressed written o ack) (finAcked x ourfinisacked) := by
  obtain ⟨hprogress, hlive⟩ := h
  have hended : ∀ {t : TcpState}, x.c.tp.tState = t → t ≠ .established → ourfinisacked = true →
      x.c.snd.Quiet := fun hstate ht hfin => hquiet hfin fun heq => ht (hstate.symm.trans heq)
  unfold finAcked
  split
  · rename_i hstate
    split
    · rename_i hfin
      have hq := hended hstate (by decide) hfin
      dsimp only
      split
      · exact ⟨hprogress.settle (.quiet (hq.disconnected.ended (.inl rfl))) rfl rfl rfl rfl, hlive⟩
      · exact ⟨hprogress.settle (.quiet (hq.ended (.inl rfl))) rfl rfl rfl rfl, hlive⟩
    · exact ⟨hprogress, hlive⟩
  · rename_i hstate
    split
    · rename_i hfin
      have hq := (hended hstate (by decide) hfin).disconnected.ended (.inr rfl)
      exact ⟨hprogress.settle (.quiet hq) rfl rfl rfl rfl, hlive⟩
    · exact ⟨hprogress, hlive⟩
  · split
    · exact ⟨tcpClose_progress hprogress, fun h => absurd h (by decide)⟩
    · exact ⟨hprogress, hlive⟩
  · exact ⟨hprogress, fun _ => hlive⟩
  · exact ⟨hprogress, hlive⟩

theorem newAck_yields (hti : x.ti.tiAck = ack) (hgt : seqGT ack x.c.snd.una)
    (hfits : x.c.snd.data.length < 2 ^ 31) (hlive : x.c.gone = false)
    (hold : seqGT ack x.c.snd.max → o.Progress written ack x.c.snd)
    (hnew : ¬ seqGT ack x.c.snd.max → o.Progress written ack (x.c.snd.acked ack) ∧
      (x.c.snd.data.length < (ack - x.c.snd.una).toNat → x.c.snd.tState ≠ .established →
        (x.c.snd.acked ack).Quiet)) :
    Yields written o ack (Progressed written o ack) (newAck env x) := by
  unfold newAck
  dsimp only
  split
  · rename_i hmax
    exact ⟨hold (hti ▸ hmax), fun _ => hlive⟩
  · rename_i hmax
    obtain ⟨hsnd, htimers⟩ := ackTimers_snd env (x.withTp retractCwnd)
    generalize ackTimers env (x.withTp retractCwnd) = y at hsnd htimers
    have hsnd' : y.c.snd = x.c.snd := hsnd
    have hack : y.ti.tiAck = ack := (congrArg Seg.tiAck htimers).trans hti
    obtain ⟨hdropTi, hdrop, hfin⟩ := dropAcked_spec env (x := y) (by rw [hack, hsnd']; exact hgt)
      (by rw [hsnd']; exact hfits)
    rw [hack, hsnd'] at hdrop hfin
    generalize dropAcked env y = dropped at hdropTi hdrop hfin
    have hafter : (advanceUna dropped.1).c.snd = x.c.snd.acked ack := by
      have hack' : dropped.1.ti.tiAck = ack := (congrArg Seg.tiAck hdropTi).trans hack
      have hnxt : dropped.1.c.tp.sndNxt = x.c.snd.nxt := congrArg SndSide.nxt hdrop
      have hadvance : (advanceUna dropped.1).c.snd =
          { dropped.1.c.snd with
            una := dropped.1.ti.tiAck
            nxt := if seqLT dropped.1.c.tp.sndNxt dropped.1.ti.tiAck then dropped.1.ti.tiAck
              else dropped.1.c.tp.sndNxt } := rfl
      rw [hadvance, hdrop, hack', hnxt]
      rfl
    obtain ⟨hprogress, hquiet⟩ := hnew (hti ▸ hmax)
    have hstate : (advanceUna dropped.1).c.snd.tState = x.c.snd.tState := by rw [hafter]; rfl
    rw [← hafter, ← hstate] at hquiet
    rw [← hafter] at hprogress
    have hgone : (advanceUna dropped.1).c.gone = x.c.gone := congrArg SndSide.gone hafter
    exact finAcked_yields ⟨hprogress, hgone.trans hlive⟩ fun hfin' => hquiet (hfin.mp hfin')

/-! ### Duplicate ACKs -/

/-- `snd_nxt` goes back to `snd_una` for one output, and then to the greater of its old and its new place. -/
theorem SndSide.Sound.rewound (h : o.Sound written) (hgone : o.gone = false)
    (hopening : o.tState ≠ .synSent ∧ o.tState ≠ .synReceived) {c : Conn}
    (hc : c.snd = { o with nxt := o.una }) :
    c.snd.Sound written ∧
      ({ (tcpOutput env c).snd with
        nxt := if seqGT o.nxt (tcpOutput env c).snd.nxt then o.nxt else (tcpOutput env c).snd.nxt } :
          SndSide).Sound written := by
  cases h with
  | gone h =>
    rw [hgone] at h
    cases h
  | quiet h =>
    have hquiet : c.snd.Quiet := by
      rw [hc]
      exact ⟨h.empty, h.mute, h.notOpening, h.notEstablished, h.fin, h.listening⟩
    obtain ⟨hout, -⟩ : _ ∧ c.snd.Emits written _ := hquiet.output env
    exact ⟨.quiet hquiet,
      .quiet ⟨hout.empty, hout.mute, hout.notOpening, hout.notEstablished, hout.fin, hout.listening⟩⟩
  | opening h =>
    rcases h.state with hstate | hstate
    · exact absurd hstate hopening.1
    · exact absurd hstate hopening.2
  | spent h =>
    have hspent : c.snd.Spent := by
      rw [hc]
      exact ⟨h.connected, h.state, h.cantsendmore, h.empty, rfl, h.max⟩
    obtain ⟨hout, hemits⟩ : _ ∧ c.snd.Emits written _ := hspent.output env
    have huna : (tcpOutput env c).snd.una = o.una := hemits.una.trans (by rw [hc])
    refine ⟨.spent hspent, .spent ⟨hout.connected, hout.state, hout.cantsendmore, hout.empty, ?_, hout.max⟩⟩
    change (if _ then _ else _) = (tcpOutput env c).snd.una
    rw [hout.nxt, huna, h.nxt, ite_self]
  | live d a b h =>
    have hlive : c.snd.Live written d 0 b := by
      have hback := h.withNxt (Nat.zero_le b)
      rw [BitVec.add_zero] at hback
      rw [hc]
      exact hback
    obtain ⟨⟨a', b', hb, hout⟩, hemits⟩ := hlive.output env
    have huna : (tcpOutput env c).snd.una = o.una := hemits.una.trans (by rw [hc])
    have hle := hout.le_length
    have hfits := hout.fits
    have hab := h.ordered
    have hab' := hout.ordered
    refine ⟨.live _ _ _ hlive, .live d (Max.max a a') b' ?_⟩
    rw [h.nxt, hout.nxt, huna, ite_seqGT _ (by omega) (by omega), ← huna]
    exact hout.withNxt (by omega)

theorem fastRetransmit_progressed (h : Ready written o) (hx : Untouched o ack x)
    (hopening : o.tState ≠ .synSent ∧ o.tState ≠ .synReceived) (hack : ack = o.una) :
    Progressed written o ack (fastRetransmit env x) := by
  obtain ⟨hsnd, hti⟩ := hx
  obtain ⟨c, hc⟩ : ∃ c : Conn, c = { x.c with tp := { x.c.tp with
      sndSsthresh := halfFlight x.c.tp, tRexmt := 0, tRtt := 0, sndNxt := x.ti.tiAck
      sndCwnd := BitVec.ofNat 32 x.c.tp.tMaxseg } } := ⟨_, rfl⟩
  have hcsnd : c.snd = { o with nxt := o.una } := by
    have hback : c.snd = { x.c.snd with nxt := x.ti.tiAck } := by rw [hc]; rfl
    rw [hback, hsnd, hti, hack]
  have hlast : (fastRetransmit env x).c.snd = { (tcpOutput env c).snd with
      nxt := if seqGT o.nxt (tcpOutput env c).snd.nxt then o.nxt else (tcpOutput env c).snd.nxt } := by
    rw [hc, ← hsnd]
    rfl
  obtain ⟨hsound, hsound'⟩ := h.sound.rewound env h.gone hopening hcsnd
  have hstart : o.Progress written ack c.snd :=
    (SndSide.Progress.refl h.sound h.underflow ack).settle hsound (by rw [hcsnd]) (by rw [hcsnd])
      (by rw [hcsnd]) (by rw [hcsnd])
  have hgone : c.gone = false := by
    have hsame : c.snd.gone = o.gone := by rw [hcsnd]
    exact hsame.trans h.gone
  have hprogress := tcpOutput_progress env hstart hgone
  have hkept : (tcpOutput env c).snd.gone = c.gone := congrArg (·.2.2) (tcpOutput_kept env c)
  refine ⟨?_, ?_⟩
  · rw [hlast]
    exact hprogress.settle hsound' rfl rfl rfl rfl
  · have hgone' : (fastRetransmit env x).c.snd.gone = (tcpOutput env c).snd.gone := by rw [hlast]
    exact hgone'.trans (hkept.trans hgone)

theorem dupAck_yields (h : Ready written o) (hx : Untouched o ack x)
    (hopening : o.tState ≠ .synSent ∧ o.tState ≠ .synReceived) :
    Yields written o ack (Progressed written o ack) (dupAck env x) := by
  unfold dupAck
  split
  · split
    · exact h.progressed hx.1
    · rename_i hdup
      have hack : ack = o.una := by
        have hsame : x.ti.tiAck = x.c.tp.sndUna := not_not.mp fun hne => hdup (.inr hne)
        rw [← hx.2, ← hx.1]
        exact hsame
      have hy : Untouched o ack (x.withTp fun tp => { tp with tDupacks := toShort (tp.tDupacks + 1) }) := hx
      dsimp only
      generalize (x.withTp fun tp => { tp with tDupacks := toShort (tp.tDupacks + 1) }) = y at hy
      split
      · exact ⟨(fastRetransmit_progressed env h hy hopening hack).1, fun h => absurd h (by decide)⟩
      · split
        · obtain ⟨hprogress, hlive⟩ := h.progressed (q := ack) hy.1
          exact ⟨tcpOutput_progress env hprogress hlive, fun h => absurd h (by decide)⟩
        · exact h.progressed hy.1
  · exact h.progressed hx.1

/-! ### The ways into `ESTABLISHED` -/

theorem seqGT_succ (q : TcpSeq) : seqGT (q + 1) q := by
  have hdiff := seqDiff_ofNat q (a := 1) (b := 0) (by omega) (by omega)
  rw [BitVec.add_zero] at hdiff
  unfold seqGT
  exact hdiff ▸ (by decide)

theorem SndSide.Opening.reached {s : SndSide} (h : s.Opening written) (hgt : seqGT ack s.iss)
    (hle : ¬ seqGT ack s.max) :
    ack = s.iss + 1 ∧ s.max = ack ∧ (if seqLT s.nxt ack then ack else s.nxt) = ack := by
  obtain ⟨a, b, hnxt, hmax, hab, hb⟩ := h.window
  obtain ⟨hack, -, hpos, -⟩ := seq_ahead hgt
  rw [hmax] at hle
  have hn := seq_between (by omega) hgt hle
  have hone : (ack - s.iss).toNat = 1 := by omega
  have hb1 : b = 1 := by omega
  rw [hone] at hack
  refine ⟨hack, ?_, ?_⟩
  · rw [hmax, hb1, ← hack]
  · have hdiff := seqDiff_ofNat s.iss (a := a) (b := 1) (by omega) (by omega)
    rw [← hnxt, ← hack] at hdiff
    by_cases hlt : seqLT s.nxt ack
    · exact if_pos hlt
    · have ha : a = 1 := by
        unfold seqLT at hlt
        omega
      rw [if_neg hlt, hnxt, ha, ← hack]

theorem Ready.opening (h : Ready written o) (hstate : o.tState = .synSent ∨ o.tState = .synReceived) :
    o.Opening written := by
  cases h.sound with
  | gone hgone =>
    rw [h.gone] at hgone
    cases hgone
  | quiet hquiet =>
    rcases hstate with hstate | hstate
    · exact absurd hstate hquiet.notOpening.1
    · exact absurd hstate hquiet.notOpening.2
  | opening hopening => exact hopening
  | live d a b hlive =>
    rcases hstate with hstate | hstate
    · exact absurd hstate hlive.notOpening.1
    · exact absurd hstate hlive.notOpening.2
  | spent hspent =>
    rw [hspent.state] at hstate
    rcases hstate with hstate | hstate <;> cases hstate

/-- The ACK of a segment that a connection in `SYN_RECEIVED` accepts is that of its SYN. -/
def SndSide.AcksSyn (s : SndSide) (ack : TcpSeq) : Prop :=
  s.tState = .synReceived → ¬ seqGT s.una ack → ¬ seqGT ack s.max → ack = s.iss + 1

instance (s : SndSide) (ack : TcpSeq) : Decidable (s.AcksSyn ack) :=
  inferInstanceAs (Decidable (_ → _ → _ → _))

theorem ackSynReceived_snd (hstate : x.c.tp.tState = .synReceived)
    (haccept : ¬ (seqGT x.c.tp.sndUna x.ti.tiAck ∨ seqGT x.ti.tiAck x.c.tp.sndMax)) :
    ∃ y, ackSynReceived x = .ok y ∧ y.ti = x.ti ∧ y.c.snd =
      { x.c.snd with tState := .established, connected := true, incomplete := false } := by
  unfold ackSynReceived
  rw [if_pos hstate, if_neg haccept]
  exact ⟨_, rfl, rfl, rfl⟩

theorem newAck_opened {y : Ctx} (h : Ready written o) (hreceived : o.tState = .synReceived)
    (hti : y.ti.tiAck = ack)
    (hsnd : y.c.snd = { o with tState := .established, connected := true, incomplete := false })
    (hgt : seqGT ack o.una) (hle : ¬ seqGT ack o.max) :
    Yields written o ack (Progressed written o ack) (newAck env y) := by
  have hopening := h.opening (.inr hreceived)
  obtain ⟨hiss, hmax, hnxt⟩ := hopening.reached (hopening.una ▸ hgt) hle
  have hacked : y.c.snd.acked ack = { o with
      tState := .established, connected := true, incomplete := false, una := ack
      nxt := if seqLT o.nxt ack then ack else o.nxt } := by
    rw [hsnd, SndSide.acked]
    simp only [hopening.empty, List.drop_nil]
  have hprogress : o.Progress written ack (y.c.snd.acked ack) := by
    rw [hacked]
    exact (SndSide.Progress.refl h.sound h.underflow ack).settle (hopening.opened hiss hnxt hmax)
      rfl rfl rfl rfl
  have huna : y.c.snd.una = o.una := by rw [hsnd]
  have hdata : y.c.snd.data = o.data := by rw [hsnd]
  have hlive : y.c.snd.gone = o.gone := by rw [hsnd]
  have hmax' : y.c.snd.max = o.max := by rw [hsnd]
  refine newAck_yields env hti (huna ▸ hgt) (by simp [hdata, hopening.empty]) (hlive.trans h.gone) ?_ ?_
  · intro hgt'
    exact absurd (hmax' ▸ hgt') hle
  · intro _
    refine ⟨hprogress, fun _ hne => absurd ?_ hne⟩
    rw [hsnd]

theorem ackInput_yields (h : Ready written o) (hx : Untouched o ack x) (hsent : o.tState ≠ .synSent)
    (hsyn : o.AcksSyn ack) : Yields written o ack (Progressed written o ack) (ackInput env x) := by
  obtain ⟨hsnd, hti⟩ := hx
  have hstate : x.c.tp.tState = o.tState := congrArg SndSide.tState hsnd
  have huna : x.c.tp.sndUna = o.una := congrArg SndSide.una hsnd
  have hmax : x.c.tp.sndMax = o.max := congrArg SndSide.max hsnd
  unfold ackInput
  by_cases hreceived : o.tState = .synReceived
  · by_cases hreject : seqGT x.c.tp.sndUna x.ti.tiAck ∨ seqGT x.ti.tiAck x.c.tp.sndMax
    · have hleave : ackSynReceived x = .error (.dropwithreset, x) := by
        unfold ackSynReceived
        rw [if_pos (hstate.trans hreceived), if_pos hreject]
      rw [hleave]
      exact h.leave hsnd _
    · obtain ⟨y, hy, hyti, hysnd⟩ := ackSynReceived_snd (hstate.trans hreceived) hreject
      rw [hti, huna, hmax, not_or] at hreject
      rw [hsnd] at hysnd
      have hgt : seqGT ack o.una := by
        rw [hsyn hreceived hreject.1 hreject.2, (h.opening (.inr hreceived)).una]
        exact seqGT_succ o.iss
      have hyack : y.ti.tiAck = ack := (congrArg Seg.tiAck hyti).trans hti
      have hyuna : y.c.tp.sndUna = o.una := (congrArg SndSide.una hysnd :)
      have hystate : y.c.tp.tState = .established := (congrArg SndSide.tState hysnd :)
      have hcode : ¬ y.c.tp.tState.code < 4 := by
        rw [hystate]
        decide
      have hnew : ¬ seqLEQ y.ti.tiAck y.c.tp.sndUna := by
        rw [hyack, hyuna]
        exact not_seqLEQ.mpr hgt
      rw [hy]
      change Yields _ _ _ _ (if _ then _ else if _ then _ else _)
      rw [if_neg hcode, if_neg hnew]
      exact newAck_opened env h hreceived hyack hysnd hgt hreject.2
  · have hpass : ackSynReceived x = .ok x := by
      unfold ackSynReceived
      rw [if_neg fun heq => hreceived (hstate.symm.trans heq)]
    have hlive : x.c.gone = false := (congrArg SndSide.gone hsnd).trans h.gone
    rw [hpass]
    change Yields _ _ _ _ (if _ then _ else if _ then _ else _)
    split
    · exact h.progressed hsnd
    · split
      · exact dupAck_yields env h ⟨hsnd, hti⟩ ⟨hsent, hreceived⟩
      · rename_i hnew
        rw [hti, huna, not_seqLEQ] at hnew
        refine newAck_yields env hti (hsnd ▸ hnew) (hsnd ▸ h.sound.fits h.gone) hlive
          (fun _ => (h.progressed hsnd).1) fun hle => ?_
        rw [hsnd] at hle ⊢
        obtain ⟨hprogress, hquiet⟩ := h.acked ⟨hsent, hreceived⟩ hnew hle
        exact ⟨hprogress, fun hlt _ => hquiet hlt⟩

theorem takeSyn_snd (x : Ctx) : (takeSyn x).tiflags = x.tiflags ∧ (takeSyn x).c.snd =
    { x.c.snd with
      una := if x.tiflags.ack then x.ti.tiAck else x.c.snd.una
      nxt := if x.tiflags.ack ∧ seqLT x.c.snd.nxt x.ti.tiAck then x.ti.tiAck else x.c.snd.nxt } :=
  ⟨rfl, rfl⟩

theorem openActive_snd (x : Ctx) : (openActive x).c.snd =
    { x.c.snd with tState := .established, connected := true, incomplete := false } := by
  unfold openActive Ctx.withTp
  dsimp only
  split <;> rfl

theorem inputSynSent_yields (h : Ready written o) (hx : Untouched o ack x) (hstate : o.tState = .synSent) :
    Yields written o ack (Progressed written o ack) (inputSynSent env x) := by
  obtain ⟨hsnd, hti⟩ := hx
  obtain ⟨hprogress, hlive⟩ := h.progressed (q := ack) hsnd
  have hrefl := SndSide.Progress.refl h.sound h.underflow ack
  have hopening := h.opening (.inl hstate)
  have hiss : x.c.tp.iss = o.iss := congrArg SndSide.iss hsnd
  have hmax : x.c.tp.sndMax = o.max := congrArg SndSide.max hsnd
  unfold inputSynSent
  split
  · exact h.leave hsnd _
  rename_i haccept
  split
  · split
    · exact ⟨tcpDrop_progress env hprogress hlive _, fun h => absurd h (by decide)⟩
    · exact h.leave hsnd _
  split
  · exact h.leave hsnd _
  obtain ⟨hflags, htake⟩ := takeSyn_snd x
  dsimp only
  generalize takeSyn x = y at hflags htake
  rw [hsnd, hti, ← hflags] at htake
  rw [← hflags] at haccept
  cases hflag : y.tiflags.ack with
  | true =>
    simp only [hflag, true_and, not_or, hti, hiss, hmax] at haccept
    simp only [hflag, if_true, true_and] at htake
    have hgt : seqGT ack o.iss := not_seqLEQ.mp haccept.1
    obtain ⟨hack, hmax', hnxt⟩ := hopening.reached hgt haccept.2
    have hopens : seqGT y.c.tp.sndUna y.c.tp.iss := by
      have huna : y.c.tp.sndUna = ack := (congrArg SndSide.una htake :)
      have hiss' : y.c.tp.iss = o.iss := (congrArg SndSide.iss htake :)
      rw [huna, hiss']
      exact hgt
    rw [if_pos ⟨rfl, hopens⟩]
    have hopened : (trimThenStep6 (openActive y)).c.snd = { o with
        tState := .established, connected := true, incomplete := false, una := ack
        nxt := if seqLT o.nxt ack then ack else o.nxt } := by
      refine (openActive_snd y).trans ?_
      rw [htake]
    have hsound := hopening.opened hack hnxt hmax'
    refine ⟨?_, ?_⟩
    · rw [hopened]
      exact hrefl.settle hsound rfl rfl rfl rfl
    · have hgone : (trimThenStep6 (openActive y)).c.snd.gone = o.gone := by rw [hopened]
      exact hgone.trans h.gone
  | false =>
    simp only [hflag, Bool.false_eq_true, if_false, false_and] at htake
    have hsound : ({ o with tState := .synReceived } : SndSide).Sound written :=
      .opening ⟨hopening.empty, hopening.mute, hopening.fresh, .inr rfl, hopening.una, hopening.window,
        hopening.fin⟩
    have hsame : y.c.snd = o := htake
    simp only [Bool.false_eq_true, false_and, if_false]
    have hafter : (trimThenStep6 (y.withTp fun tp => { tp with tState := .synReceived })).c.snd =
        { o with tState := .synReceived } := by
      rw [← hsame]
      rfl
    refine ⟨?_, ?_⟩
    · rw [hafter]
      exact hrefl.settle hsound rfl rfl rfl rfl
    · exact (congrArg SndSide.gone hsame :).trans h.gone

end Ack

/-! ### A whole segment -/

theorem dooptions_snd (env : Env) (x : Ctx) :
    (dooptions env x).c.snd = x.c.snd ∧ (dooptions env x).ti = x.ti := by
  have hoption : ∀ (y : Ctx) o, (dooption env y o).c.snd = y.c.snd ∧ (dooption env y o).ti = y.ti := by
    intro y o
    cases o with
    | maxseg mss =>
      simp only [dooption]
      split
      · exact ⟨tcpMss_snd _ _ _, rfl⟩
      · exact ⟨rfl, rfl⟩
    | window shift =>
      simp only [dooption]
      split <;> exact ⟨rfl, rfl⟩
    | timestamp val ecr =>
      simp only [dooption]
      split <;> exact ⟨rfl, rfl⟩
  unfold dooptions
  generalize x.ti.options = options
  induction options generalizing x with
  | nil => exact ⟨rfl, rfl⟩
  | cons o options ih =>
    obtain ⟨hsnd, hti⟩ := hoption x o
    obtain ⟨hsnd', hti'⟩ := ih (dooption env x o)
    exact ⟨hsnd'.trans hsnd, hti'.trans hti⟩

theorem entry_untouched (env : Env) (c : Conn) (ti : Seg) : Untouched c.snd ti.tiAck (entry env c ti) := by
  unfold entry
  dsimp only
  split
  · exact ⟨rfl, rfl⟩
  · obtain ⟨hsnd, hti⟩ := dooptions_snd env
      { c := { c with tp := { c.tp with tIdle := 0, tKeep := tcpKeepidle } }
        ti := ti, tiflags := ti.tiFlags
        tiwin := if ti.tiFlags.syn then ti.tiWin.zeroExtend 32 else ti.tiWin.zeroExtend 32 <<< c.tp.sndScale }
    exact ⟨hsnd, congrArg Seg.tiAck hti⟩

section Segment

variable {written : List Byte} {o : SndSide} {ack : TcpSeq} {x : Ctx} (env : Env)

/-- An established connection that new data is acknowledged of has sent some. -/
theorem Ready.live (h : Ready written o) (hstate : o.tState = .established) (hgt : seqGT ack o.una)
    (hle : ¬ seqGT ack o.max) : ∃ d a b, o.Live written d a b := by
  cases h.sound with
  | gone hgone =>
    rw [h.gone] at hgone
    cases hgone
  | quiet hquiet => exact absurd hstate hquiet.notEstablished
  | opening hopening =>
    have hsame := hopening.state
    rw [hstate] at hsame
    rcases hsame with h | h <;> cases h
  | live d a b hlive => exact ⟨d, a, b, hlive⟩
  | spent hspent =>
    rw [hspent.max] at hle
    exact absurd hgt hle

/-- The pure ACK of the fast path, which drops what it acknowledges without looking at the buffer. -/
theorem pureAck_progress (h : Ready written o) (hx : Untouched o ack x)
    (hstate : o.tState = .established) (hnxt : o.nxt = o.max) (hpure : isPureAck x) :
    o.Progress written ack (pureAck env x).snd ∧ (pureAck env x).gone = false := by
  obtain ⟨hsnd, hti⟩ := hx
  obtain ⟨-, hgt, hle, -⟩ := hpure
  have huna : x.c.tp.sndUna = o.una := congrArg SndSide.una hsnd
  have hmax : x.c.tp.sndMax = o.max := congrArg SndSide.max hsnd
  rw [hti, huna] at hgt
  rw [hti, hmax] at hle
  have hle' : ¬ seqGT ack o.max := fun hgt' => (not_seqLEQ.mpr hgt') hle
  have hopening : o.tState ≠ .synSent ∧ o.tState ≠ .synReceived := by
    rw [hstate]
    decide
  obtain ⟨hprogress, hquiet⟩ := h.acked hopening hgt hle'
  have hlen : (ack - o.una).toNat ≤ o.data.length := by
    by_contra hlt
    exact (hquiet (not_le.mp hlt)).notEstablished hstate
  have hahead : ¬ seqLT o.nxt ack := by
    obtain ⟨d, a, b, hlive⟩ := h.live hstate hgt hle'
    have hlength := hlive.le_length
    have hfits := hlive.fits
    have hbound := seq_between (by omega) hgt (hlive.max ▸ hle')
    have hdiff := seqDiff_ofNat o.una (a := b) (b := (ack - o.una).toNat) (by omega) (by omega)
    rw [← hlive.max, ← (seq_ahead hgt).1, ← hnxt] at hdiff
    unfold seqLT
    omega
  obtain ⟨hrtt, hrttTi⟩ := ackRtt_snd env x
  have hyack : (ackRtt env x).ti.tiAck = ack := (congrArg Seg.tiAck hrttTi).trans hti
  have hysnd : (ackRtt env x).c.snd = o := hrtt.trans hsnd
  have hdiff : seqDiff (ackRtt env x).ti.tiAck (ackRtt env x).c.tp.sndUna = ((ack - o.una).toNat : Int) := by
    rw [hyack, show (ackRtt env x).c.tp.sndUna = o.una from congrArg SndSide.una hysnd]
    exact (seq_ahead hgt).2.1
  have hdrop := dropSnd_snd env (c := (ackRtt env x).c) hdiff (by rw [hysnd]; exact hlen)
  have hafter : (pureAck env x).snd = o.acked ack := by
    have hmoved : (pureAck env x).snd =
        { (dropSnd env (seqDiff (ackRtt env x).ti.tiAck (ackRtt env x).c.tp.sndUna) (ackRtt env x).c).snd with
          una := (ackRtt env x).ti.tiAck } := rfl
    rw [hmoved, hdrop, hysnd, hyack, SndSide.acked, if_neg hahead]
  refine ⟨?_, (congrArg SndSide.gone hafter :).trans h.gone⟩
  rw [hafter]
  exact hprogress

theorem predict_progress (h : Ready written o) (hx : Untouched o ack x) :
    (∀ c, predict env x = .inl c → o.Progress written ack c.snd) ∧
      ∀ y, predict env x = .inr y → Untouched o ack y ∧ (¬ o.tState = .established → y = x) := by
  unfold predict
  split
  · rename_i hpred
    obtain ⟨hstate, -, -, -, -, -, -, -, -, -, hnxt⟩ := hpred
    have hstate' : o.tState = .established := (congrArg SndSide.tState hx.1).symm.trans hstate
    have hnxt' : o.nxt = o.max := by
      rw [← hx.1]
      exact hnxt
    have hy : Untouched o ack (recordTimestamp env 0 x) := hx
    dsimp only
    generalize recordTimestamp env 0 x = y at hy
    split
    · rename_i hpure
      refine ⟨?_, fun _ heq => by cases heq⟩
      rintro c heq
      obtain ⟨hprogress, hlive⟩ := pureAck_progress env h hy hstate' hnxt' hpure
      cases heq
      split
      · exact tcpOutput_progress env hprogress hlive
      · exact hprogress
    · split
      · refine ⟨?_, fun _ heq => by cases heq⟩
        rintro c heq
        cases heq
        exact (h.progressed hy.1).1
      · refine ⟨fun _ heq => (by cases heq), ?_⟩
        rintro y heq
        cases heq
        exact ⟨hy, fun hne => absurd hstate' hne⟩
  · refine ⟨fun _ heq => (by cases heq), ?_⟩
    rintro y heq
    cases heq
    exact ⟨hx, fun _ => rfl⟩

theorem finish_progress {flow : Flow} (h : Yields written o ack (Progressed written o ack) flow) :
    o.Progress written ack (finish env flow).snd := by
  cases flow with
  | ok y =>
    obtain ⟨hprogress, hlive⟩ := h
    simp only [finish]
    split
    · exact tcpOutput_progress env hprogress hlive
    · exact hprogress
  | error e =>
    obtain ⟨exit, y⟩ := e
    obtain ⟨hprogress, hlive⟩ := h
    cases exit with
    | drop => exact hprogress
    | dropafterack =>
      simp only [finish]
      split
      · exact hprogress
      · exact tcpOutput_progress env hprogress (hlive rfl)
    | dropwithreset =>
      simp only [finish]
      split
      · exact hprogress
      · split
        · exact tcpRespond_progress hprogress _ _ _
        · exact tcpRespond_progress hprogress _ _ _

/-- The general path computes the receive window first. -/
def withWindow (x : Ctx) : Ctx := x.withTp fun tp => { tp with rcvWnd := recvWindow x.c }

theorem withWindow_snd (x : Ctx) : (withWindow x).c.snd = x.c.snd := by
  unfold withWindow Ctx.withTp
  rfl

/-- A segment in a state other than `LISTEN` and `SYN_SENT` comes as far as the processing of its ACK. -/
def reachesAck (c : Conn) (ti : Seg) : Bool :=
  match inputWindow env (withWindow (entry env c ti)) with
  | .ok _ => true
  | .error _ => false

theorem general_yields (h : Ready written o) (hx : Untouched o ack x) (hlisten : o.tState ≠ .listen)
    (hsyn : ∀ y, inputWindow env (withWindow x) = .ok y → o.AcksSyn ack) :
    Yields written o ack (Progressed written o ack) (general env x) := by
  have hw : Untouched o ack (withWindow x) := hx
  have hstate : (withWindow x).c.tp.tState = o.tState := congrArg SndSide.tState hw.1
  have hother : o.tState ≠ .synSent →
      Yields written o ack (Progressed written o ack) (inputOther env (withWindow x)) := by
    intro hsent
    have hwindow := inputWindow_yields env h hw
    unfold inputOther
    cases hflow : inputWindow env (withWindow x) with
    | ok y =>
      rw [hflow] at hwindow
      exact ackInput_yields env h hwindow hsent (hsyn y hflow)
    | error e =>
      rw [hflow] at hwindow
      exact hwindow
  have hlast : ∀ flow, Yields written o ack (Progressed written o ack) flow →
      Yields written o ack (Progressed written o ack) (flow >>= fun y => .ok (step6on y)) :=
    fun flow hflow => hflow.bind fun y hy => step6on_progressed hy
  unfold general
  dsimp only
  split
  · rename_i hsent
    exact hlast _ (inputSynSent_yields env h hw (hstate.symm.trans hsent))
  · rename_i hlisten'
    exact absurd (hstate.symm.trans hlisten') hlisten
  · rename_i hsent hlisten'
    exact hlast _ (hother fun hsent' => hsent (hstate.trans hsent'))

/-- A segment keeps the send side sound, as long as `SYN_RECEIVED` is left with the SYN acknowledged. -/
theorem tcpInput_progress {c : Conn} {ti : Seg} (h : Ready written c.snd)
    (hsyn : reachesAck env c ti = true → c.snd.AcksSyn ti.tiAck) :
    c.snd.Progress written ti.tiAck (tcpInput env c ti).snd := by
  have hrefl := SndSide.Progress.refl h.sound h.underflow ti.tiAck
  unfold tcpInput
  split
  · exact hrefl
  split
  · unfold listenInput
    split
    · exact tcpRespond_progress hrefl _ _ _
    · exact hrefl
  rename_i haccept
  have hlisten : c.snd.tState ≠ .listen := by
    intro hlisten
    apply haccept
    cases h.sound with
    | gone hgone =>
      rw [h.gone] at hgone
      cases hgone
    | quiet hquiet => exact hquiet.listening hlisten
    | opening hopening =>
      have hsame := hopening.state
      rw [hlisten] at hsame
      rcases hsame with h | h <;> cases h
    | live d a b hlive => exact hlive.listening hlisten
    | spent hspent =>
      rw [hspent.state] at hlisten
      cases hlisten
  have hx := entry_untouched env c ti
  obtain ⟨hdone, hgo⟩ := predict_progress env h hx
  split
  · rename_i c' hpredict
    exact hdone c' hpredict
  · rename_i y hpredict
    obtain ⟨hy, hsame⟩ := hgo y hpredict
    refine finish_progress env (general_yields env h hy hlisten fun z hz hreceived => ?_)
    have hy : y = entry env c ti := hsame (by rw [hreceived]; decide)
    refine hsyn ?_ hreceived
    rw [hy] at hz
    simp only [reachesAck, hz]

end Segment

end Reading.Tcp
