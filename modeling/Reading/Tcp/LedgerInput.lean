import Reading.Tcp.Ledger

/-!
# TCP input and the account of the send sequence space

An ACK that is accepted takes numbers off the left end of the account, and the acknowledged octets leave the buffer with them. Where a segment opens the connection, or ends its send side, the number that it acknowledges is kept as the reason: `tcp_input` infers from the number alone that the SYN or the FIN has arrived.
-/

namespace Reading.Tcp

open Reading.Kern

namespace SndSide

variable {k a b : Nat} {s s' : SndSide} {ack : TcpSeq}

/-! ### Changes of state -/

theorem Ledger.enter (h : s.Ledger k a b) {t : TcpState} (hestablished : t ≠ .established)
    (hopening : t ≠ .synSent ∧ t ≠ .synReceived)
    (hclosing : t = .finWait2 ∨ t = .timeWait → s.data = [] ∧ s.cantsendmore = true)
    (hfin : t.sendsFin → s.cantsendmore = true) (hlisten : t = .listen → s.acceptconn = true) :
    ({ s with tState := t } : SndSide).Ledger k a b := by
  refine ⟨h.started, h.fits, h.nxt, h.max, h.ordered, h.held, fun hsent => ?_, h.closed, hclosing, hfin, ?_, hlisten⟩
  · obtain ⟨hshut, hlast⟩ := h.finished hsent
    exact ⟨hshut, hlast.imp_right fun hlast => ⟨hlast.1, hestablished⟩⟩
  · rintro (hsame | hsame)
    · exact absurd hsame hopening.1
    · exact absurd hsame hopening.2

theorem Ledger.opened (h : s.Ledger k a b) (hempty : s.data = []) :
    ({ s with tState := .established, connected := true, incomplete := false } : SndSide).Ledger k a b := by
  have hfin : ¬ TcpState.established.sendsFin := by decide
  refine ⟨h.started, h.fits, h.nxt, h.max, h.ordered, h.held, fun hsent => ?_, fun _ => hempty,
    ?_, fun hstate => absurd hstate hfin, ?_, fun hstate => by cases hstate⟩
  · exact ⟨(h.finished hsent).1, .inl hempty⟩
  · rintro (hsame | hsame) <;> cases hsame
  · rintro (hsame | hsame) <;> cases hsame

theorem Ledger.disconnected (h : s.Ledger k a b) (hempty : s.data = []) :
    ({ s with connected := false, cantsendmore := true } : SndSide).Ledger k a b := by
  refine ⟨h.started, h.fits, h.nxt, h.max, h.ordered, h.held, fun _ => ⟨rfl, .inl hempty⟩, fun _ => hempty,
    fun _ => ⟨hempty, rfl⟩, fun _ => rfl, fun hstate => ?_, h.listening⟩
  obtain ⟨-, -, huna, hb⟩ := h.opening hstate
  exact ⟨hempty, .inl rfl, huna, hb⟩

theorem Ledger.sentMore (h : s.Ledger k a b) (new : List Seg) :
    ({ s with sent := s.sent ++ new } : SndSide).Ledger k a b := by
  have hsame : ({ s with sent := s.sent ++ new } : SndSide) =
      { s with
        nxt := s.una + BitVec.ofNat 32 a, max := s.una + BitVec.ofNat 32 b, sentfin := s.sentfin
        sent := s.sent ++ new } := by
    rw [← h.nxt, ← h.max]
  exact h.extend hsame h.ordered id (.inl rfl) h.finished fun hstate => (h.opening hstate).2.2.2

/-! ### An ACK of new data -/

/-- The greater of `snd_nxt` and the acknowledged number, by its distance from that number. -/
theorem Ledger.acked_nxt (h : s.Ledger k a b) {n : Nat} (hack : ack = s.una + BitVec.ofNat 32 n) (hn : n ≤ b) :
    (s.acked ack).nxt = ack + BitVec.ofNat 32 (Max.max a n - n) := by
  have hsmall := h.small
  have hordered := h.ordered
  have hsum : ack + BitVec.ofNat 32 (Max.max a n - n) = s.una + BitVec.ofNat 32 (Max.max a n) := by
    rw [hack, BitVec.add_assoc, ← BitVec.ofNat_add]
    congr 2
    omega
  have hdiff := seqDiff_ofNat s.una (a := a) (b := n) (by omega) (by omega)
  rw [← h.nxt, ← hack] at hdiff
  rw [hsum]
  by_cases hlt : seqLT s.nxt ack
  · have : (a : Int) - n < 0 := hdiff ▸ hlt
    rw [max_eq_right (by omega), ← hack]
    exact if_pos hlt
  · have : ¬ (a : Int) - n < 0 := hdiff ▸ hlt
    rw [max_eq_left (by omega), ← h.nxt]
    exact if_neg hlt

/-- Numbers that are acknowledged leave the account from the left. -/
theorem Held.drop {m n : Nat} (h : s.Held k m) (hn : 0 < n) (hcount : (ack - s.una).toNat = n) :
    (s.acked ack).Held k (m - n) := by
  left
  have hlength : (s.acked ack).data.length = s.data.length - n := by
    rw [← hcount]
    exact List.length_drop
  rw [hlength]
  rcases h with h | ⟨hm, -, -⟩ <;> omega

theorem Ledger.acked (h : s.Ledger k a b) (hopening : ¬ (s.tState = .synSent ∨ s.tState = .synReceived))
    (hgt : seqGT ack s.una) (hle : ¬ seqGT ack s.max) : ∃ a' b', (s.acked ack).Ledger k a' b' := by
  obtain ⟨n, hcount⟩ : ∃ n, (ack - s.una).toNat = n := ⟨_, rfl⟩
  obtain ⟨hack, -, hpos, -⟩ := seq_ahead hgt
  rw [hcount] at hack hpos
  have hsmall := h.small
  have hordered := h.ordered
  have hfits := h.fits
  have hn : n ≤ b := hcount ▸ seq_between (by omega) hgt (h.max ▸ hle)
  have hdata : (s.acked ack).data = s.data.drop n := by rw [← hcount]; rfl
  have hlength : (s.acked ack).data.length = s.data.length - n := by rw [hdata, List.length_drop]
  have hempty : s.data = [] → (s.acked ack).data = [] := by
    intro hempty
    rw [hdata, hempty, List.drop_nil]
  refine ⟨Max.max a n - n, b - n, h.started, by omega, h.acked_nxt hack hn, ?_, by omega, ?_, fun hsent => ?_,
    fun hnot => hempty (h.closed hnot), fun hstate => ⟨hempty (h.closing hstate).1, (h.closing hstate).2⟩, h.fin,
    fun hstate => absurd hstate hopening, h.listening⟩
  · show s.max = ack + _
    rw [h.max, hack, BitVec.add_assoc, ← BitVec.ofNat_add]
    congr 2
    omega
  · rcases h.held with hheld | ⟨hsent, hfin, m, hm, hheld⟩
    · exact .inl (hheld.drop hpos hcount)
    · by_cases hall : n = b
      · left
        left
        omega
      · refine .inr ⟨hsent, ?_, m - n, by omega, hheld.drop hpos hcount⟩
        have hsame : (s.acked ack).una + BitVec.ofNat 32 (b - n - 1) = s.una + BitVec.ofNat 32 (b - 1) := by
          show ack + _ = _
          rw [hack, BitVec.add_assoc, ← BitVec.ofNat_add]
          congr 2
          omega
        rw [hsame]
        exact hfin
  · obtain ⟨hshut, hlast⟩ := h.finished hsent
    refine ⟨hshut, ?_⟩
    rcases hlast with hnone | ⟨hlast, hstate⟩
    · exact .inl (hempty hnone)
    · by_cases hall : n ≤ s.data.length
      · exact .inr ⟨by omega, hstate⟩
      · exact .inl (List.eq_nil_of_length_eq_zero (by omega))

end SndSide

/-! ### Forcing, and the persist timer -/

/-- What output does to `t_force` and to the persist timer: where it starts the timer, that has some time to go. -/
def Tcpcb.Timed (tp tp' : Tcpcb) : Prop :=
  tp'.tForce = tp.tForce ∧ (tp'.tPersist = tp.tPersist ∨ tp'.tPersist = 0 ∨ 2 ≤ tp'.tPersist)

section Timed

variable {tp tp' tp'' : Tcpcb} {c : Conn} (env : Env)

theorem Tcpcb.Timed.refl (tp : Tcpcb) : tp.Timed tp := ⟨rfl, .inl rfl⟩

theorem Tcpcb.Timed.trans (h : tp.Timed tp') (h' : tp'.Timed tp'') : tp.Timed tp'' := by
  refine ⟨h'.1.trans h.1, ?_⟩
  rcases h'.2 with hsame | hother
  · rw [hsame]
    exact h.2
  · exact .inr hother

theorem two_le_rangeset (value : Int) : 2 ≤ tcptRangeset value tcptvPersmin tcptvPersmax := by
  have hmin : (2 : Int) ≤ tcptvPersmin := by decide
  have hmax : (2 : Int) ≤ tcptvPersmax := by decide
  unfold tcptRangeset
  split
  · exact hmin
  · split
    · exact hmax
    · omega

theorem setpersist_timed (c : Conn) : c.tp.Timed (setpersist c).tp :=
  ⟨rfl, .inr (.inr (two_le_rangeset _))⟩

theorem tcpMss_timed (rt? : Option Route) (c : Conn) (offer : U32) : c.tp.Timed (tcpMss rt? c offer).1.tp := by
  cases rt? with
  | none => exact .refl _
  | some rt => exact ⟨rfl, .inl rfl⟩

theorem outRecord_timed (tp : Tcpcb) (flags : Flags) (len : Int) : tp.Timed (outRecord tp flags len) := by
  unfold outRecord
  split
  · refine ⟨rfl, ?_⟩
    show (if _ then 0 else tp.tPersist) = tp.tPersist ∨ (if _ then 0 else tp.tPersist) = 0 ∨ _
    split
    · exact .inr (.inl rfl)
    · exact .inl rfl
  · exact ⟨rfl, .inl rfl⟩

theorem outSend_timed (pass : Nat) (c : Conn) (plan : OutPlan) : c.tp.Timed (outSend env pass c plan).1.tp := by
  have hoffer : c.tp.Timed (outOffer env (startSeq c plan.flags) plan.flags).1.tp := by
    unfold outOffer
    split
    · exact tcpMss_timed env.route (startSeq c plan.flags) 0
    · exact ⟨rfl, .inl rfl⟩
  unfold outSend
  dsimp only
  generalize outOffer env (startSeq c plan.flags) plan.flags = offer at hoffer
  split
  · exact hoffer
  · split
    · exact hoffer
    · split
      · exact hoffer
      · unfold outFill outDeliver
        dsimp only
        have hrecord : ∀ flags len, c.tp.Timed (outRecord (pullSndUp (resendFin offer.1.tp flags)) flags len) :=
          fun flags len => hoffer.trans (outRecord_timed (pullSndUp (resendFin offer.1.tp flags)) flags len)
        split
        all_goals exact hrecord _ _

theorem outPass_timed (idle : Bool) (pass : Nat) (c : Conn) : c.tp.Timed (outPass env idle pass c).1.tp := by
  have hsettled : c.tp.Timed (outPlan c).1.tp := by
    unfold outPlan outSettled
    refine ⟨rfl, ?_⟩
    dsimp only
    split
    · exact .inr (.inl rfl)
    · exact .inl rfl
  unfold outPass
  dsimp only
  split
  · exact hsettled.trans (outSend_timed env pass _ _)
  · split
    · have hreset : c.tp.Timed { (outPlan c).1.tp with tRxtshift := 0 } := ⟨hsettled.1, hsettled.2⟩
      exact hreset.trans (setpersist_timed _)
    · exact hsettled

theorem tcpOutput_timed (c : Conn) : c.tp.Timed (tcpOutput env c).tp := by
  have hpasses : ∀ idle fuel pass (c : Conn), c.tp.Timed (outPasses env idle fuel pass c).tp := by
    intro idle fuel
    induction fuel with
    | zero => exact fun _ c => .refl c.tp
    | succ fuel ih =>
      intro pass c
      unfold outPasses
      dsimp only
      split
      · exact (outPass_timed env idle pass c).trans (ih _ _)
      · exact outPass_timed env idle pass c
  exact hpasses _ _ _ _

end Timed

/-! ### Reasons for a change of state -/

/-- The states after our FIN is acknowledged. -/
def TcpState.ended (t : TcpState) : Prop := t = .finWait2 ∨ t = .timeWait

instance (t : TcpState) : Decidable t.ended := inferInstanceAs (Decidable (_ ∨ _))

/-- The ACK of a segment is one that opens a connection. -/
def SndSide.OpensBy (o : SndSide) (ti : Seg) : Prop :=
  ti.tiFlags.ack = true ∧
    (o.tState = .synSent ∧ seqGT ti.tiAck o.iss ∨
      o.tState = .synReceived ∧ ¬ seqGT o.una ti.tiAck ∧ ¬ seqGT ti.tiAck o.max)

/-- The ACK of a segment is taken for one of our FIN. -/
def SndSide.EndsBy (o : SndSide) (ti : Seg) : Prop :=
  ti.tiFlags.ack = true ∧ o.tState.sendsFin ∧ seqGT ti.tiAck o.una ∧ ¬ seqGT ti.tiAck o.max ∧
    o.data.length < (ti.tiAck - o.una).toNat

/-- Where a step that begins in `o` may have come to: the numbers are accounted for, and if it has opened the connection, ended its send side or closed it, there was a reason. -/
structure Moved (k : Nat) (o : SndSide) (opens ends closes : Prop) (c : Conn) : Prop where
  ledger : c.gone = true ∨ ∃ a b, c.snd.Ledger k a b
  calm : c.tp.tForce = false
  established : c.tp.tState = .established → o.tState = .established ∨ opens
  ended : c.tp.tState.ended → o.tState.ended ∨ ends
  gone : c.gone = true → closes

section Moved

variable {k : Nat} {o : SndSide} {opens ends closes opens' ends' closes' : Prop} {c c' : Conn} (env : Env)

theorem Moved.mono (h : Moved k o opens ends closes c) (hopens : opens → opens') (hends : ends → ends')
    (hcloses : closes → closes') : Moved k o opens' ends' closes' c :=
  ⟨h.ledger, h.calm, fun hstate => (h.established hstate).imp_right hopens,
    fun hstate => (h.ended hstate).imp_right hends, fun hgone => hcloses (h.gone hgone)⟩

theorem Moved.settle (h : Moved k o opens ends closes c) (hsnd : c'.snd = c.snd)
    (hforce : c'.tp.tForce = c.tp.tForce) : Moved k o opens ends closes c' := by
  have hstate : c'.tp.tState = c.tp.tState := congrArg SndSide.tState hsnd
  have hgone : c'.gone = c.gone := congrArg SndSide.gone hsnd
  obtain ⟨ledger, calm, established, ended, gone⟩ := h
  rw [← hstate] at established ended
  rw [← hgone] at ledger gone
  rw [← hsnd] at ledger
  exact ⟨ledger, hforce.trans calm, established, ended, gone⟩

theorem Moved.output (h : Moved k o opens ends closes c) : Moved k o opens ends closes (tcpOutput env c) := by
  have hkept := tcpOutput_kept env c
  have hstate : (tcpOutput env c).tp.tState = c.tp.tState := congrArg (·.1.tState) hkept
  have hgone : (tcpOutput env c).gone = c.gone := congrArg (·.2.2) hkept
  obtain ⟨ledger, calm, established, ended, gone⟩ := h
  rw [← hstate] at established ended
  rw [← hgone] at gone
  refine ⟨?_, (tcpOutput_timed env c).1.trans calm, established, ended, gone⟩
  rcases ledger with hended | ⟨a, b, hledger⟩
  · exact .inl (hgone.trans hended)
  · have hfresh : Fresh c := by
      intro hforcing
      rw [forcing_iff, not_or, calm] at hforcing
      exact absurd rfl hforcing.1
    obtain ⟨a', b', -, hledger'⟩ := tcpOutput_ledger env hledger hfresh
    exact .inr ⟨a', b', hledger'⟩

theorem Moved.close (h : Moved k o opens ends closes c) (hcloses : closes') :
    Moved k o opens ends closes' (tcpClose c) :=
  ⟨.inl rfl, h.calm, h.established, h.ended, fun _ => hcloses⟩

/-- A state in which nothing is sent, other than the beginning and the end of a connection. -/
theorem Moved.closed (h : Moved k o opens ends closes c) :
    Moved k o opens ends closes { c with tp := { c.tp with tState := .closed } } := by
  refine ⟨?_, h.calm, fun hstate => (by cases hstate), ?_, h.gone⟩
  · refine h.ledger.imp_right fun ⟨a, b, hledger⟩ =>
      ⟨a, b, hledger.enter (t := .closed) (by decide) (by decide) ?_ ?_ ?_⟩
    · rintro (hstate | hstate) <;> cases hstate
    · exact fun hstate => absurd hstate (by decide)
    · exact fun hstate => by cases hstate
  · rintro (hstate | hstate) <;> cases hstate

theorem Moved.drop (h : Moved k o opens ends closes c) (errno : Int) (hcloses : closes') :
    Moved k o opens ends closes' (tcpDrop env c errno) := by
  have hout : Moved k o opens ends closes (if c.tp.tState.haveRcvdSyn then
      tcpOutput env { c with tp := { c.tp with tState := .closed } } else c) := by
    split
    · exact h.closed.output env
    · exact h
  unfold tcpDrop
  generalize (if c.tp.tState.haveRcvdSyn then
      tcpOutput env { c with tp := { c.tp with tState := .closed } } else c) = c' at hout
  exact ⟨.inl rfl, hout.calm, hout.established, hout.ended, fun _ => hcloses⟩

theorem Moved.respond (h : Moved k o opens ends closes c) (a q : TcpSeq) (flags : Flags) :
    Moved k o opens ends closes (tcpRespond c a q flags) :=
  ⟨h.ledger.imp_right fun ⟨a, b, hledger⟩ => ⟨a, b, hledger.sentMore _⟩, h.calm, h.established, h.ended, h.gone⟩

end Moved

/-! ### Stages before the ACK -/

/-- The locals of `tcp_input` for the segment `ti`, with the send side as it was in `o`. -/
def Unmoved (o : SndSide) (ti : Seg) (x : Ctx) : Prop :=
  x.c.snd = o ∧ x.c.tp.tForce = false ∧ x.ti.tiAck = ti.tiAck ∧ x.tiflags.ack = ti.tiFlags.ack

/-- What a stage goes on with meets `P`; where the segment leaves, there was a reason for what has moved. -/
def Leads (k : Nat) (o : SndSide) (opens ends closes : Prop) (P : Ctx → Prop) : Flow → Prop
  | .ok y => P y
  | .error e => Moved k o opens ends closes e.2.c

/-- A connection whose numbers are accounted for, before a step. -/
structure Accounted (k : Nat) (o : SndSide) : Prop where
  ledger : ∃ a b, o.Ledger k a b
  gone : o.gone = false

section Stages

variable {k : Nat} {o : SndSide} {ti : Seg} {opens ends closes : Prop} {P Q : Ctx → Prop} {x : Ctx}

theorem Leads.bind {flow : Flow} {next : Ctx → Flow} (h : Leads k o opens ends closes P flow)
    (hnext : ∀ y, P y → Leads k o opens ends closes Q (next y)) :
    Leads k o opens ends closes Q (flow >>= next) := by
  cases flow with
  | ok y => exact hnext y h
  | error e => exact h

theorem Accounted.moved {c : Conn} (h : Accounted k o) (hc : c.snd = o) (hcalm : c.tp.tForce = false) :
    Moved k o opens ends closes c := by
  have hgone : c.gone = false := (congrArg SndSide.gone hc).trans h.gone
  have hstate : c.tp.tState = o.tState := congrArg SndSide.tState hc
  refine ⟨.inr (hc ▸ h.ledger), hcalm, fun hsame => .inl (hstate ▸ hsame), fun hsame => .inl (hstate ▸ hsame),
    fun hended => ?_⟩
  rw [hgone] at hended
  cases hended

theorem paws_leads (env : Env) (h : Accounted k o) (hx : Unmoved o ti x) :
    Leads k o opens ends closes (Unmoved o ti) (paws env x) := by
  unfold paws
  split
  · exact hx
  · split
    · split
      · exact hx
      · exact h.moved hx.1 hx.2.1
    · exact hx

theorem trimLeft_leads (h : Accounted k o) (hx : Unmoved o ti x) :
    Leads k o opens ends closes (Unmoved o ti) (trimLeft x) := by
  unfold trimLeft
  dsimp only
  split
  · generalize (if x.tiflags.syn = true then seqDiff x.c.tp.rcvNxt x.ti.tiSeq - 1
      else seqDiff x.c.tp.rcvNxt x.ti.tiSeq) = todrop
    split
    · split
      · exact hx
      · split
        · exact h.moved hx.1 hx.2.1
        · exact hx
    · exact hx
  · exact hx

theorem rcvAfterClose_leads (h : Accounted k o) (hx : Unmoved o ti x) (hcloses : closes) :
    Leads k o opens ends closes (Unmoved o ti) (rcvAfterClose x) := by
  have hmoved : Moved k o opens ends closes x.c := h.moved hx.1 hx.2.1
  unfold rcvAfterClose
  split
  · exact hmoved.close hcloses
  · exact hx

theorem trimRight_leads (h : Accounted k o) (hx : Unmoved o ti x) (hcloses : closes) :
    Leads k o opens ends closes (Unmoved o ti) (trimRight x) := by
  have hmoved : Moved k o opens ends closes x.c := h.moved hx.1 hx.2.1
  unfold trimRight
  dsimp only
  split
  · split
    · split
      · exact hmoved.close hcloses
      · split
        · exact hx
        · exact hmoved
    · exact hx
  · exact hx

/-- Past the control bits a segment has an ACK, in the states in which they are looked at. -/
theorem checkBits_leads (env : Env) (h : Accounted k o) (hx : Unmoved o ti x) (hcloses : closes)
    (hstates : o.tState ≠ .closed ∧ o.tState ≠ .listen ∧ o.tState ≠ .synSent) :
    Leads k o opens ends closes (fun y => Unmoved o ti y ∧ ti.tiFlags.ack = true) (checkBits env x) := by
  have hmoved : Moved k o opens ends closes x.c := h.moved hx.1 hx.2.1
  have hreset : ∀ errno, Moved k o opens ends closes (resetBy x.c errno) := by
    intro errno
    have hclosed := hmoved.closed
    exact ⟨.inl rfl, hclosed.calm, hclosed.established, hclosed.ended, fun _ => hcloses⟩
  have hstate : x.c.tp.tState = o.tState := congrArg SndSide.tState hx.1
  rw [← hstate] at hstates
  unfold checkBits
  split
  · cases hcase : x.c.tp.tState with
    | closed => exact absurd hcase hstates.1
    | listen => exact absurd hcase hstates.2.1
    | synSent => exact absurd hcase hstates.2.2
    | synReceived => exact hreset _
    | established => exact hreset _
    | finWait1 => exact hreset _
    | finWait2 => exact hreset _
    | closeWait => exact hreset _
    | closing => exact hmoved.close hcloses
    | lastAck => exact hmoved.close hcloses
    | timeWait => exact hmoved.close hcloses
  · split
    · exact hmoved.drop env _ hcloses
    · split
      · exact hmoved
      · rename_i hack
        have hflag : x.tiflags.ack = true := not_not.1 hack
        exact ⟨hx, hx.2.2.2 ▸ hflag⟩

theorem inputWindow_leads (env : Env) (h : Accounted k o) (hx : Unmoved o ti x) (hcloses : closes)
    (hstates : o.tState ≠ .closed ∧ o.tState ≠ .listen ∧ o.tState ≠ .synSent) :
    Leads k o opens ends closes (fun y => Unmoved o ti y ∧ ti.tiFlags.ack = true) (inputWindow env x) := by
  unfold inputWindow
  refine (paws_leads env h hx).bind fun y hy => ?_
  refine (trimLeft_leads h hy).bind fun y hy => ?_
  refine (rcvAfterClose_leads h hy hcloses).bind fun y hy => ?_
  refine (trimRight_leads h hy hcloses).bind fun y hy => ?_
  apply checkBits_leads env h _ hcloses hstates
  exact hy

end Stages

/-! ### The ACK -/

section Ack

variable {k : Nat} {o : SndSide} {ti : Seg} {opens ends closes : Prop} {c d : Conn} {x : Ctx} (env : Env)

theorem Moved.enter (h : Moved k o opens ends closes c) {t : TcpState} (hestablished : t ≠ .established)
    (hopening : t ≠ .synSent ∧ t ≠ .synReceived)
    (hclosing : ∀ {a b}, c.snd.Ledger k a b → t.ended → c.snd.data = [] ∧ c.snd.cantsendmore = true)
    (hended : t.ended → o.tState.ended ∨ ends)
    (hfin : ∀ {a b}, c.snd.Ledger k a b → t.sendsFin → c.snd.cantsendmore = true) (hlisten : t ≠ .listen)
    (hsnd : d.snd = { c.snd with tState := t }) (hforce : d.tp.tForce = c.tp.tForce) :
    Moved k o opens ends closes d := by
  have hstate : d.tp.tState = t := (congrArg SndSide.tState hsnd :)
  have hgone : d.gone = c.gone := (congrArg SndSide.gone hsnd :)
  refine ⟨?_, hforce.trans h.calm, fun hsame => absurd (hstate.symm.trans hsame) hestablished,
    fun hsame => hended (hstate ▸ hsame), fun hgone' => h.gone (hgone.symm.trans hgone')⟩
  rw [hsnd, hgone]
  refine h.ledger.imp_right fun ⟨a, b, hledger⟩ => ⟨a, b, ?_⟩
  exact hledger.enter hestablished hopening (hclosing hledger) (hfin hledger) fun hsame => absurd hsame hlisten

theorem Moved.disconnected (h : Moved k o opens ends closes c)
    (hempty : ∀ {a b}, c.snd.Ledger k a b → c.snd.data = [])
    (hsnd : d.snd = { c.snd with connected := false, cantsendmore := true })
    (hforce : d.tp.tForce = c.tp.tForce) : Moved k o opens ends closes d := by
  have hstate : d.tp.tState = c.tp.tState := (congrArg SndSide.tState hsnd :)
  have hgone : d.gone = c.gone := (congrArg SndSide.gone hsnd :)
  refine ⟨?_, hforce.trans h.calm, fun hsame => h.established (hstate ▸ hsame),
    fun hsame => h.ended (hstate ▸ hsame), fun hgone' => h.gone (hgone.symm.trans hgone')⟩
  rw [hsnd, hgone]
  exact h.ledger.imp_right fun ⟨a, b, hledger⟩ => ⟨a, b, hledger.disconnected (hempty hledger)⟩

/-- What an ACK of our FIN does to the state, once it has left nothing to send. -/
theorem finAcked_leads {ourfinisacked : Bool} (h : Moved k o opens ends closes x.c)
    (hempty : ourfinisacked = true → x.c.snd.data = [])
    (hends : ourfinisacked = true → x.c.tp.tState.sendsFin → ends) (hcloses : ends → closes) :
    Leads k o opens ends closes (fun y => Moved k o opens ends closes y.c) (finAcked x ourfinisacked) := by
  unfold finAcked
  split
  · rename_i hstate
    split
    · rename_i hfin
      have hdata := hempty hfin
      have hreason := hends hfin (.inl hstate)
      dsimp only
      split
      · have hgone := h.disconnected (d := { x.c with so := x.c.so.soisdisconnected }) (fun _ => hdata) rfl rfl
        exact hgone.enter (t := .finWait2) (by decide) (by decide) (fun _ _ => ⟨hdata, rfl⟩) (fun _ => .inr hreason)
          (fun _ hsame => absurd hsame (by decide)) (by decide) rfl rfl
      · exact h.enter (t := .finWait2) (by decide) (by decide)
          (fun hledger _ => ⟨hdata, hledger.fin (.inl hstate)⟩) (fun _ => .inr hreason)
          (fun _ hsame => absurd hsame (by decide)) (by decide) rfl rfl
    · exact h
  · rename_i hstate
    split
    · rename_i hfin
      have hdata := hempty hfin
      have hreason := hends hfin (.inr (.inl hstate))
      have hgone := h.disconnected (d := { x.c with so := x.c.so.soisdisconnected }) (fun _ => hdata) rfl rfl
      exact hgone.enter (t := .timeWait) (by decide) (by decide) (fun _ _ => ⟨hdata, rfl⟩) (fun _ => .inr hreason)
        (fun _ hsame => absurd hsame (by decide)) (by decide) rfl rfl
    · exact h
  · rename_i hstate
    split
    · rename_i hfin
      exact h.close (hcloses (hends hfin (.inr (.inr hstate))))
    · exact h
  · exact h.settle rfl rfl
  · exact h

theorem newAck_leads {s : SndSide} (h : Moved k o opens ends closes x.c) (hsnd : x.c.snd = s) (hlive : s.gone = false)
    (hack : x.ti.tiAck = ti.tiAck) (hopening : ¬ (s.tState = .synSent ∨ s.tState = .synReceived))
    (hgt : seqGT ti.tiAck s.una)
    (hends : ¬ seqGT ti.tiAck s.max → s.data.length < (ti.tiAck - s.una).toNat → s.tState.sendsFin → ends)
    (hcloses : ends → closes) :
    Leads k o opens ends closes (fun y => Moved k o opens ends closes y.c) (newAck env x) := by
  have hgone : x.c.gone = false := (congrArg SndSide.gone hsnd).trans hlive
  obtain ⟨a, b, hledger⟩ : ∃ a b, s.Ledger k a b := by
    rcases h.ledger with hnot | hledger
    · rw [hgone] at hnot
      cases hnot
    · exact hsnd ▸ hledger
  unfold newAck
  dsimp only
  split
  · exact h.settle rfl rfl
  · rename_i hmax
    have hle : ¬ seqGT ti.tiAck s.max := by
      rw [← hack, ← hsnd]
      exact hmax
    obtain ⟨hsame, htimers⟩ := ackTimers_snd env (x.withTp retractCwnd)
    have hcalm : (ackTimers env (x.withTp retractCwnd)).c.tp.tForce = false := by
      have hrtt : (ackRtt env (x.withTp retractCwnd)).c.tp.tForce = x.c.tp.tForce := by
        unfold ackRtt
        cases rttSample env (x.withTp retractCwnd) with
        | some rtt => rfl
        | none => rfl
      exact hrtt.trans h.calm
    generalize ackTimers env (x.withTp retractCwnd) = y at hsame htimers hcalm
    have hys : y.c.snd = s := hsame.trans hsnd
    have hyack : y.ti.tiAck = ti.tiAck := (congrArg Seg.tiAck htimers).trans hack
    have hfits := hledger.fits
    obtain ⟨hdropTi, hdrop, hfin⟩ := dropAcked_spec env (x := y) (by rw [hyack, hys]; exact hgt)
      (by rw [hys]; omega)
    have hcalm' : (dropAcked env y).1.c.tp.tForce = false := hcalm
    rw [hyack, hys] at hdrop hfin
    generalize dropAcked env y = dropped at hdropTi hdrop hfin hcalm'
    have hafter : (advanceUna dropped.1).c.snd = s.acked ti.tiAck := by
      have hack' : dropped.1.ti.tiAck = ti.tiAck := (congrArg Seg.tiAck hdropTi).trans hyack
      have hnxt : dropped.1.c.tp.sndNxt = s.nxt := congrArg SndSide.nxt hdrop
      have hadvance : (advanceUna dropped.1).c.snd =
          { dropped.1.c.snd with
            una := dropped.1.ti.tiAck
            nxt := if seqLT dropped.1.c.tp.sndNxt dropped.1.ti.tiAck then dropped.1.ti.tiAck
              else dropped.1.c.tp.sndNxt } := rfl
      rw [hadvance, hdrop, hack', hnxt]
      rfl
    have hstate : (advanceUna dropped.1).c.tp.tState = s.tState := (congrArg SndSide.tState hafter :)
    have hstate' : x.c.tp.tState = s.tState := congrArg SndSide.tState hsnd
    have hlive' : (advanceUna dropped.1).c.gone = false := (congrArg SndSide.gone hafter :).trans hlive
    have hmoved : Moved k o opens ends closes (advanceUna dropped.1).c := by
      refine ⟨.inr ?_, hcalm', fun hcase => h.established ?_, fun hcase => h.ended ?_, fun hnot => ?_⟩
      · rw [hafter]
        exact hledger.acked hopening hgt hle
      · rw [hstate', ← hstate]
        exact hcase
      · rw [hstate', ← hstate]
        exact hcase
      · rw [hlive'] at hnot
        cases hnot
    refine finAcked_leads hmoved (fun hyes => ?_) (fun hyes hcase => hends hle (hfin.1 hyes) (hstate ▸ hcase)) hcloses
    have hmore := hfin.1 hyes
    rw [hafter]
    exact List.drop_eq_nil_of_le (le_of_lt hmore)

/-! ### Duplicate ACKs -/

/-- `snd_nxt` goes back to `snd_una` for one output, and then to the greater of its old and its new place. -/
theorem fastRetransmit_moved (h : Moved k o opens ends closes x.c) (hlive : x.c.gone = false)
    (hack : x.ti.tiAck = x.c.tp.sndUna) : Moved k o opens ends closes (fastRetransmit env x).c := by
  obtain ⟨a, b, hledger⟩ : ∃ a b, x.c.snd.Ledger k a b := by
    rcases h.ledger with hnot | hledger
    · rw [hlive] at hnot
      cases hnot
    · exact hledger
  obtain ⟨c, hc⟩ : ∃ c : Conn, c = { x.c with tp := { x.c.tp with
      sndSsthresh := halfFlight x.c.tp, tRexmt := 0, tRtt := 0, sndNxt := x.ti.tiAck
      sndCwnd := BitVec.ofNat 32 x.c.tp.tMaxseg } } := ⟨_, rfl⟩
  have hcsnd : c.snd = { x.c.snd with nxt := x.c.snd.una + BitVec.ofNat 32 0 } := by
    rw [hc, BitVec.add_zero]
    show ({ x.c.snd with nxt := x.ti.tiAck } : SndSide) = _
    rw [hack]
    rfl
  have hback : c.snd.Ledger k 0 b := by
    rw [hcsnd]
    exact hledger.withNxt (Nat.zero_le b)
  have hcalm : c.tp.tForce = false := by
    rw [hc]
    exact h.calm
  have hfresh : Fresh c := by
    intro hforcing
    rw [forcing_iff, not_or, hcalm] at hforcing
    exact absurd rfl hforcing.1
  obtain ⟨a', b', hb, hout⟩ := tcpOutput_ledger env hback hfresh
  have hkept := tcpOutput_kept env c
  have huna : (tcpOutput env c).snd.una = x.c.snd.una := by
    have hsame : (tcpOutput env c).snd.una = c.snd.una := congrArg (·.1.sndUna) hkept
    rw [hsame, hcsnd]
  have hlast : (fastRetransmit env x).c.snd = { (tcpOutput env c).snd with
      nxt := if seqGT x.c.snd.nxt (tcpOutput env c).snd.nxt then x.c.snd.nxt else (tcpOutput env c).snd.nxt } := by
    rw [hc]
    rfl
  have hstate : (fastRetransmit env x).c.tp.tState = x.c.tp.tState := by
    have hsame : (tcpOutput env c).tp.tState = c.tp.tState := congrArg (·.1.tState) hkept
    rw [hc] at hsame
    exact hsame
  have hgone : (fastRetransmit env x).c.gone = x.c.gone := by
    have hsame : (tcpOutput env c).gone = c.gone := congrArg (·.2.2) hkept
    rw [hc] at hsame
    exact hsame
  have hforce : (fastRetransmit env x).c.tp.tForce = false := by
    have hsame := (tcpOutput_timed env c).1.trans hcalm
    rw [hc] at hsame
    exact hsame
  refine ⟨.inr ⟨Max.max a a', b', ?_⟩, hforce, fun hcase => h.established (hstate ▸ hcase),
    fun hcase => h.ended (hstate ▸ hcase), fun hcase => h.gone (hgone ▸ hcase)⟩
  have hsmall := hout.small
  have hab := hledger.ordered
  have hab' := hout.ordered
  rw [hlast, hledger.nxt, hout.nxt, huna, ite_seqGT _ (by omega) (by omega), ← huna]
  exact hout.withNxt (by omega)

theorem dupAck_leads (h : Moved k o opens ends closes x.c) (hlive : x.c.gone = false) :
    Leads k o opens ends closes (fun y => Moved k o opens ends closes y.c) (dupAck env x) := by
  unfold dupAck
  split
  · split
    · exact h.settle rfl rfl
    · rename_i hdup
      have hack : x.ti.tiAck = x.c.tp.sndUna := not_not.mp fun hne => hdup (.inr hne)
      have hy : Moved k o opens ends closes
          (x.withTp fun tp => { tp with tDupacks := toShort (tp.tDupacks + 1) }).c := h.settle rfl rfl
      dsimp only
      split
      · exact fastRetransmit_moved env hy hlive hack
      · split
        · refine Moved.output env ?_
          exact hy.settle rfl rfl
        · exact hy
  · exact h.settle rfl rfl

end Ack

/-! ### The ways into `ESTABLISHED` -/

section Opening

variable {k : Nat} {o : SndSide} {ti : Seg} {opens ends closes : Prop} {x : Ctx} (env : Env)

theorem ackInput_leads (h : Accounted k o) (hx : Unmoved o ti x) (hflag : ti.tiFlags.ack = true)
    (hsent : o.tState ≠ .synSent) :
    Leads k o (o.OpensBy ti) (o.EndsBy ti) (o.EndsBy ti)
      (fun y => Moved k o (o.OpensBy ti) (o.EndsBy ti) (o.EndsBy ti) y.c) (ackInput env x) := by
  obtain ⟨hsnd, hcalm, hti, -⟩ := hx
  have hmoved : Moved k o (o.OpensBy ti) (o.EndsBy ti) (o.EndsBy ti) x.c := h.moved hsnd hcalm
  have hstate : x.c.tp.tState = o.tState := congrArg SndSide.tState hsnd
  have huna : x.c.tp.sndUna = o.una := congrArg SndSide.una hsnd
  have hmax : x.c.tp.sndMax = o.max := congrArg SndSide.max hsnd
  unfold ackInput
  by_cases hreceived : o.tState = .synReceived
  · by_cases hreject : seqGT x.c.tp.sndUna x.ti.tiAck ∨ seqGT x.ti.tiAck x.c.tp.sndMax
    · have hleave : ackSynReceived x = .error (.dropwithreset, x) := by
        unfold ackSynReceived
        rw [if_pos (hstate.trans hreceived), if_pos hreject]
      rw [hleave]
      exact hmoved
    · obtain ⟨y, hy, hyti, hysnd⟩ := ackSynReceived_snd (hstate.trans hreceived) hreject
      have hycalm : y.c.tp.tForce = false := by
        unfold ackSynReceived at hy
        rw [if_pos (hstate.trans hreceived), if_neg hreject] at hy
        cases hy
        exact hcalm
      rw [hti, huna, hmax, not_or] at hreject
      rw [hsnd] at hysnd
      have hyack : y.ti.tiAck = ti.tiAck := (congrArg Seg.tiAck hyti).trans hti
      have hygone : y.c.gone = false := (congrArg SndSide.gone hysnd :).trans h.gone
      have hystate : y.c.tp.tState = .established := (congrArg SndSide.tState hysnd :)
      have hymoved : Moved k o (o.OpensBy ti) (o.EndsBy ti) (o.EndsBy ti) y.c := by
        refine ⟨.inr ?_, hycalm, fun _ => .inr ⟨hflag, .inr ⟨hreceived, hreject⟩⟩, fun hcase => ?_, fun hcase => ?_⟩
        · obtain ⟨a, b, hledger⟩ := h.ledger
          rw [hysnd]
          exact ⟨a, b, hledger.opened (hledger.opening (.inr hreceived)).1⟩
        · rw [hystate] at hcase
          exact absurd hcase (by decide)
        · rw [hygone] at hcase
          cases hcase
      have hcode : ¬ y.c.tp.tState.code < 4 := by
        rw [hystate]
        decide
      rw [hy]
      show Leads _ _ _ _ _ _ (if _ then _ else if _ then _ else _)
      rw [if_neg hcode]
      split
      · exact dupAck_leads env hymoved hygone
      · rename_i hnew
        have hyuna : y.c.tp.sndUna = o.una := (congrArg SndSide.una hysnd :)
        rw [hyack, hyuna, not_seqLEQ] at hnew
        refine newAck_leads env hymoved hysnd h.gone hyack (by simp) hnew (fun _ _ hcase => ?_) id
        exact absurd hcase (by decide : ¬ TcpState.established.sendsFin)
  · have hpass : ackSynReceived x = .ok x := by
      unfold ackSynReceived
      rw [if_neg fun heq => hreceived (hstate.symm.trans heq)]
    have hlive : x.c.gone = false := (congrArg SndSide.gone hsnd).trans h.gone
    rw [hpass]
    show Leads _ _ _ _ _ _ (if _ then _ else if _ then _ else _)
    split
    · exact hmoved
    · split
      · exact dupAck_leads env hmoved hlive
      · rename_i hnew
        rw [hti, huna, not_seqLEQ] at hnew
        refine newAck_leads env hmoved hsnd h.gone hti (not_or.2 ⟨hsent, hreceived⟩) hnew ?_ id
        exact fun hle hlen hfin => ⟨hflag, hfin, hnew, hle, hlen⟩

theorem SndSide.Ledger.received {a b : Nat} (h : o.Ledger k a b) (hstate : o.tState = .synSent) :
    ({ o with tState := .synReceived } : SndSide).Ledger k a b := by
  have hopening := h.opening (.inl hstate)
  refine ⟨h.started, h.fits, h.nxt, h.max, h.ordered, h.held, fun hsent => ?_, h.closed, ?_,
    fun hfin => absurd hfin (by decide : ¬ TcpState.synReceived.sendsFin), fun _ => hopening, fun hlisten => ?_⟩
  · exact ⟨(h.finished hsent).1, .inl hopening.1⟩
  · rintro (hcase | hcase) <;> cases hcase
  · cases hlisten

theorem inputSynSent_leads (h : Accounted k o) (hx : Unmoved o ti x) (hstate : o.tState = .synSent)
    (hcloses : closes) :
    Leads k o (o.OpensBy ti) ends closes (fun y => Moved k o (o.OpensBy ti) ends closes y.c) (inputSynSent env x) := by
  obtain ⟨hsnd, hcalm, hti, hflag⟩ := hx
  have hmoved : Moved k o (o.OpensBy ti) ends closes x.c := h.moved hsnd hcalm
  have hiss : x.c.tp.iss = o.iss := congrArg SndSide.iss hsnd
  have hmax : x.c.tp.sndMax = o.max := congrArg SndSide.max hsnd
  obtain ⟨a, b, hledger⟩ := h.ledger
  obtain ⟨hempty, -, huna, -⟩ := hledger.opening (.inl hstate)
  unfold inputSynSent
  split
  · exact hmoved
  rename_i haccept
  split
  · split
    · exact hmoved.drop env _ hcloses
    · exact hmoved
  split
  · exact hmoved
  obtain ⟨hflags, htake⟩ := takeSyn_snd x
  have htakeCalm : (takeSyn x).c.tp.tForce = false := hcalm
  dsimp only
  generalize takeSyn x = y at hflags htake htakeCalm
  rw [hsnd, hti, ← hflags] at htake
  rw [← hflags] at haccept hflag
  cases hyes : y.tiflags.ack with
  | true =>
    simp only [hyes, true_and, not_or, hti, hiss, hmax] at haccept
    simp only [hyes, if_true, true_and] at htake
    have hgt : seqGT ti.tiAck o.iss := not_seqLEQ.mp haccept.1
    have hopens : seqGT y.c.tp.sndUna y.c.tp.iss := by
      have huna' : y.c.tp.sndUna = ti.tiAck := (congrArg SndSide.una htake :)
      have hiss' : y.c.tp.iss = o.iss := (congrArg SndSide.iss htake :)
      rw [huna', hiss']
      exact hgt
    rw [if_pos ⟨rfl, hopens⟩]
    obtain ⟨s, hs⟩ : ∃ s : SndSide, s = { o with tState := .established, connected := true, incomplete := false } :=
      ⟨_, rfl⟩
    have hopened : (trimThenStep6 (openActive y)).c.snd = s.acked ti.tiAck := by
      refine (openActive_snd y).trans ?_
      rw [htake, hs, SndSide.acked]
      simp only [hempty, List.drop_nil]
    have hsledger : s.Ledger k a b := by
      rw [hs]
      exact hledger.opened hempty
    have hforce : (trimThenStep6 (openActive y)).c.tp.tForce = false := by
      have hsame : (openActive y).c.tp.tForce = y.c.tp.tForce := by
        unfold openActive Ctx.withTp
        dsimp only
        split <;> rfl
      exact hsame.trans htakeCalm
    have hafter : (trimThenStep6 (openActive y)).c.tp.tState = .established :=
      (congrArg SndSide.tState hopened :).trans (by rw [hs]; rfl)
    have hgone : (trimThenStep6 (openActive y)).c.gone = false :=
      (congrArg SndSide.gone hopened :).trans (by rw [hs]; exact h.gone)
    refine ⟨.inr ?_, hforce, fun _ => .inr ⟨hflag ▸ hyes, .inl ⟨hstate, hgt⟩⟩, fun hcase => ?_, fun hcase => ?_⟩
    · rw [hopened]
      apply hsledger.acked
      · rw [hs]
        simp
      · rw [hs]
        exact huna ▸ hgt
      · rw [hs]
        exact haccept.2
    · rw [hafter] at hcase
      exact absurd hcase (by decide)
    · rw [hgone] at hcase
      cases hcase
  | false =>
    simp only [hyes, Bool.false_eq_true, if_false, false_and] at htake
    have hsame : y.c.snd = o := htake
    simp only [Bool.false_eq_true, false_and, if_false]
    have hafter : (trimThenStep6 (y.withTp fun tp => { tp with tState := .synReceived })).c.snd =
        { o with tState := .synReceived } := by
      rw [← hsame]
      rfl
    refine ⟨.inr ?_, htakeCalm, fun hcase => (by cases hcase), fun hcase => ?_, fun hcase => ?_⟩
    · rw [hafter]
      exact ⟨a, b, hledger.received hstate⟩
    · rcases hcase with hcase | hcase <;> cases hcase
    · have hgone : y.c.gone = false := (congrArg SndSide.gone hsame :).trans h.gone
      have hcase' : y.c.gone = true := hcase
      rw [hgone] at hcase'
      cases hcase'

end Opening

/-! ### A whole segment -/

section Segment

variable {k : Nat} {o : SndSide} {ti : Seg} {opens ends closes : Prop} {x : Ctx} (env : Env)

theorem finState_moved (h : Moved k o opens ends closes x.c) : Moved k o opens ends closes (finState x).c := by
  have hcloseWait : ¬ TcpState.closeWait.ended ∧ ¬ TcpState.closeWait.sendsFin := by decide
  unfold finState
  split
  · exact h.enter (t := .closeWait) (by decide) (by decide) (fun _ hcase => absurd hcase hcloseWait.1)
      (fun hcase => absurd hcase hcloseWait.1) (fun _ hcase => absurd hcase hcloseWait.2) (by decide) rfl rfl
  · exact h.enter (t := .closeWait) (by decide) (by decide) (fun _ hcase => absurd hcase hcloseWait.1)
      (fun hcase => absurd hcase hcloseWait.1) (fun _ hcase => absurd hcase hcloseWait.2) (by decide) rfl rfl
  · rename_i hstate
    have hclosing : ¬ TcpState.closing.ended := by decide
    exact h.enter (t := .closing) (by decide) (by decide) (fun _ hcase => absurd hcase hclosing)
      (fun hcase => absurd hcase hclosing) (fun hledger _ => hledger.fin (.inl hstate)) (by decide) rfl rfl
  · rename_i hstate
    have hgone := h.disconnected (d := { x.c with so := x.c.so.soisdisconnected })
      (fun hledger => (hledger.closing (.inl hstate)).1) rfl rfl
    exact hgone.enter (t := .timeWait) (by decide) (by decide) (fun hledger _ => hledger.closing (.inl hstate))
      (fun _ => h.ended (.inl hstate)) (fun _ hcase => absurd hcase (by decide)) (by decide) rfl rfl
  · exact h.settle rfl rfl
  · exact h

theorem step6on_moved (h : Moved k o opens ends closes x.c) : Moved k o opens ends closes (step6on x).c := by
  have hsnd : (dodata (urgent (step6 x))).c.snd = x.c.snd := (dodata_snd _).trans (urgent_step6_snd x)
  have hforce : (dodata (urgent (step6 x))).c.tp.tForce = x.c.tp.tForce := by
    have hurgent : (urgent (step6 x)).c.tp.tForce = x.c.tp.tForce := by
      have hstep6 : (step6 x).c.tp.tForce = x.c.tp.tForce := by
        unfold step6
        split <;> rfl
      have hpull : ∀ y : Ctx, (pullOutOfBand y).c.tp.tForce = y.c.tp.tForce := by
        intro y
        unfold pullOutOfBand
        split <;> rfl
      rw [← hstep6]
      generalize step6 x = y
      unfold urgent
      dsimp only
      split
      · split
        · rfl
        · split
          · split
            · exact hpull _
            · rfl
          · split
            · exact hpull _
            · rfl
      · split <;> rfl
    rw [← hurgent]
    generalize urgent (step6 x) = y
    unfold dodata
    split
    · show (tcpReassMacro y.c y.ti).1.tp.tForce = _
      unfold tcpReassMacro
      split
      · rfl
      · unfold tcpReass
        dsimp only
        split <;> rfl
    · rfl
  have hdata := h.settle hsnd hforce
  unfold step6on
  generalize dodata (urgent (step6 x)) = y at hdata
  unfold finInput
  split
  · dsimp only
    split
    · exact finState_moved (hdata.settle rfl rfl)
    · exact finState_moved hdata
  · exact hdata

theorem finish_moved {flow : Flow} (h : Leads k o opens ends closes (fun y => Moved k o opens ends closes y.c) flow) :
    Moved k o opens ends closes (finish env flow) := by
  cases flow with
  | ok y =>
    simp only [finish]
    split
    · exact Moved.output env h
    · exact h
  | error e =>
    obtain ⟨exit, y⟩ := e
    have hy : Moved k o opens ends closes y.c := h
    cases exit with
    | drop => exact hy
    | dropafterack =>
      simp only [finish]
      split
      · exact hy
      · refine Moved.output env ?_
        exact hy.settle rfl rfl
    | dropwithreset =>
      simp only [finish]
      split
      · exact hy
      · split
        · exact hy.respond _ _ _
        · exact hy.respond _ _ _

/-- The general path: what `SYN_RECEIVED` and the states with a FIN are left by is an ACK that the segment came as far as. -/
theorem general_moved (h : Accounted k o) (hx : Unmoved o ti x)
    (hstates : o.tState ≠ .closed ∧ o.tState ≠ .listen) {reached : Prop}
    (hreached : reached ↔ ∃ y, inputWindow env (withWindow x) = .ok y) :
    Moved k o ((o.tState = .synReceived → reached) ∧ o.OpensBy ti) (reached ∧ o.EndsBy ti)
      (o.tState = .lastAck → reached → o.EndsBy ti) (finish env (general env x)) := by
  have hw : Unmoved o ti (withWindow x) := hx
  have hstate : (withWindow x).c.tp.tState = o.tState := congrArg SndSide.tState hw.1
  have hlast : ∀ {opens ends closes : Prop} {flow : Flow},
      Leads k o opens ends closes (fun y => Moved k o opens ends closes y.c) flow →
      Moved k o opens ends closes (finish env (flow >>= fun y => .ok (step6on y))) := fun hflow =>
    finish_moved env (hflow.bind fun y hy => step6on_moved hy)
  unfold general
  dsimp only
  split
  · rename_i hsent
    have hsent' : o.tState = .synSent := hstate.symm.trans hsent
    have hmoved : Moved k o (o.OpensBy ti) False True _ := hlast (inputSynSent_leads env h hw hsent' trivial)
    refine hmoved.mono (fun hopens => ⟨fun hreceived => ?_, hopens⟩) (fun hfalse => hfalse.elim)
      fun _ hlastAck => ?_
    · rw [hsent'] at hreceived
      cases hreceived
    · rw [hsent'] at hlastAck
      cases hlastAck
  · rename_i hlisten
    exact absurd (hstate.symm.trans hlisten) hstates.2
  · rename_i hsent _
    have hsent' : o.tState ≠ .synSent := fun heq => hsent (hstate.trans heq)
    have hwindow : Leads k o False False True _ _ :=
      inputWindow_leads env h hw trivial ⟨hstates.1, hstates.2, hsent'⟩
    show Moved k o _ _ _ (finish env (inputOther env (withWindow x) >>= _))
    unfold inputOther
    cases hflow : inputWindow env (withWindow x) with
    | ok y =>
      rw [hflow] at hwindow
      obtain ⟨hy, hflag⟩ := hwindow
      have hyes : reached := hreached.2 ⟨y, hflow⟩
      have hmoved := hlast (ackInput_leads env h hy hflag hsent')
      exact hmoved.mono (fun hopens => ⟨fun _ => hyes, hopens⟩) (fun hends => ⟨hyes, hends⟩) fun hends _ _ => hends
    | error e =>
      rw [hflow] at hwindow
      have hmoved : Moved k o False False True (finish env (.error e)) := finish_moved env hwindow
      refine hmoved.mono (fun hfalse => hfalse.elim) (fun hfalse => hfalse.elim) fun _ _ hyes => ?_
      obtain ⟨y, hy⟩ := hreached.1 hyes
      rw [hflow] at hy
      cases hy

/-- An established connection has sent no FIN, so that what an ACK takes from the buffer is there, or the buffer is empty. -/
theorem SndSide.Ledger.established_drop {a b n : Nat} (h : o.Ledger k a b) (hstate : o.tState = .established)
    (hn : n ≤ b) : n ≤ o.data.length ∨ o.data = [] := by
  have hheld : o.Held k b → n ≤ o.data.length ∨ o.data = [] := by
    rintro (hle | ⟨-, hempty, -⟩)
    · exact .inl (le_trans hn hle)
    · exact .inr hempty
  rcases h.held with hb | ⟨hsent, -⟩
  · exact hheld hb
  · rcases (h.finished hsent).2 with hempty | ⟨-, hnot⟩
    · exact .inr hempty
    · exact absurd hstate hnot

theorem SndSide.Ledger.withUnderflow {a b : Nat} (h : o.Ledger k a b) (u : Bool) :
    ({ o with underflow := u } : SndSide).Ledger k a b :=
  ⟨h.started, h.fits, h.nxt, h.max, h.ordered, h.held, h.finished, h.closed, h.closing, h.fin, h.opening, h.listening⟩

/-- `sbdrop` on an empty buffer leaves it empty, whether or not it panics. -/
theorem dropSnd_side {c : Conn} {n : Nat} (hn : n ≤ c.snd.data.length ∨ c.snd.data = []) :
    ∃ u, (dropSnd env (n : Int) c).snd = { c.snd with data := c.snd.data.drop n, underflow := u } := by
  by_cases hle : n ≤ c.snd.data.length
  · exact ⟨c.snd.underflow, dropSnd_snd env rfl hle⟩
  · have hempty : c.so.soSnd.sbMb = [] := hn.resolve_left hle
    refine ⟨(dropSnd env (n : Int) c).snd.underflow, ?_⟩
    have hkept : (dropSnd env (n : Int) c).so.soSnd.sbMb = c.so.soSnd.sbMb := by
      have hmore : ¬ (n : Int) ≤ c.so.soSnd.sbMb.length := fun hyes => hle (Int.ofNat_le.1 hyes)
      unfold dropSnd Sockbuf.sbdrop
      rw [if_neg hmore]
      rfl
    have hsame : (dropSnd env (n : Int) c).snd =
        { c.snd with
          data := (dropSnd env (n : Int) c).so.soSnd.sbMb
          underflow := (dropSnd env (n : Int) c).snd.underflow } := rfl
    have hdrop : c.snd.data.drop n = c.so.soSnd.sbMb := by
      show c.so.soSnd.sbMb.drop n = _
      rw [hempty, List.drop_nil]
    rw [hdrop, ← hkept]
    exact hsame

theorem pureAck_moved (h : Accounted k o) (hx : Unmoved o ti x) (hstate : o.tState = .established)
    (hnxt : o.nxt = o.max) (hpure : isPureAck x) : Moved k o opens ends closes (pureAck env x) := by
  obtain ⟨hsnd, hcalm, hti, -⟩ := hx
  obtain ⟨-, hgt, hle, -⟩ := hpure
  have huna : x.c.tp.sndUna = o.una := congrArg SndSide.una hsnd
  have hmax : x.c.tp.sndMax = o.max := congrArg SndSide.max hsnd
  rw [hti, huna] at hgt
  rw [hti, hmax] at hle
  have hle' : ¬ seqGT ti.tiAck o.max := fun hgt' => (not_seqLEQ.mpr hgt') hle
  obtain ⟨a, b, hledger⟩ := h.ledger
  have hsmall := hledger.small
  have hbound := seq_between (by omega) hgt (hledger.max ▸ hle')
  have hahead : ¬ seqLT o.nxt ti.tiAck := by
    have hdiff := seqDiff_ofNat o.una (a := b) (b := (ti.tiAck - o.una).toNat) (by omega) (by omega)
    rw [← hledger.max, ← (seq_ahead hgt).1, ← hnxt] at hdiff
    unfold seqLT
    omega
  obtain ⟨hrtt, hrttTi⟩ := ackRtt_snd env x
  have hyack : (ackRtt env x).ti.tiAck = ti.tiAck := (congrArg Seg.tiAck hrttTi).trans hti
  have hysnd : (ackRtt env x).c.snd = o := hrtt.trans hsnd
  have hdiff : seqDiff (ackRtt env x).ti.tiAck (ackRtt env x).c.tp.sndUna = ((ti.tiAck - o.una).toNat : Int) := by
    rw [hyack, show (ackRtt env x).c.tp.sndUna = o.una from congrArg SndSide.una hysnd]
    exact (seq_ahead hgt).2.1
  have hthere : (ti.tiAck - o.una).toNat ≤ (ackRtt env x).c.snd.data.length ∨ (ackRtt env x).c.snd.data = [] := by
    rw [hysnd]
    exact hledger.established_drop hstate hbound
  obtain ⟨u, hdrop⟩ := dropSnd_side env hthere
  have hafter : (pureAck env x).snd = { o.acked ti.tiAck with underflow := u } := by
    have hmoved : (pureAck env x).snd =
        { (dropSnd env (seqDiff (ackRtt env x).ti.tiAck (ackRtt env x).c.tp.sndUna) (ackRtt env x).c).snd with
          una := (ackRtt env x).ti.tiAck } := rfl
    rw [hmoved, hdiff, hdrop, hysnd, hyack, SndSide.acked, if_neg hahead]
  have hforce : (pureAck env x).tp.tForce = false := by
    have hsame : (ackRtt env x).c.tp.tForce = x.c.tp.tForce := by
      unfold ackRtt
      cases rttSample env x with
      | some rtt => rfl
      | none => rfl
    exact hsame.trans hcalm
  have hstate' : (pureAck env x).tp.tState = .established := (congrArg SndSide.tState hafter :).trans hstate
  have hgone : (pureAck env x).gone = false := (congrArg SndSide.gone hafter :).trans h.gone
  refine ⟨.inr ?_, hforce, fun _ => .inl hstate, fun hcase => ?_, fun hcase => ?_⟩
  · have hopening : ¬ (o.tState = .synSent ∨ o.tState = .synReceived) := by
      rw [hstate]
      decide
    obtain ⟨a', b', hledger'⟩ := hledger.acked hopening hgt hle'
    rw [hafter]
    exact ⟨a', b', hledger'.withUnderflow u⟩
  · rw [hstate'] at hcase
    exact absurd hcase (by decide)
  · rw [hgone] at hcase
    cases hcase

/-- What header prediction makes of a segment. -/
theorem predict_moved (h : Accounted k o) (hx : Unmoved o ti x) :
    (∀ c, predict env x = .inl c → Moved k o opens ends closes c) ∧
      ∀ y, predict env x = .inr y → Unmoved o ti y ∧ (¬ o.tState = .established → y = x) := by
  unfold predict
  split
  · rename_i hpred
    obtain ⟨hstate, -, -, -, -, -, -, -, -, -, hnxt⟩ := hpred
    have hstate' : o.tState = .established := (congrArg SndSide.tState hx.1).symm.trans hstate
    have hnxt' : o.nxt = o.max := by
      rw [← hx.1]
      exact hnxt
    have hy : Unmoved o ti (recordTimestamp env 0 x) := hx
    dsimp only
    generalize recordTimestamp env 0 x = y at hy
    split
    · rename_i hpure
      refine ⟨?_, fun _ heq => by cases heq⟩
      rintro c heq
      have hmoved : Moved k o opens ends closes (pureAck env y) := pureAck_moved env h hy hstate' hnxt' hpure
      cases heq
      split
      · exact hmoved.output env
      · exact hmoved
    · split
      · refine ⟨?_, fun _ heq => by cases heq⟩
        rintro c heq
        cases heq
        exact h.moved hy.1 hy.2.1
      · refine ⟨fun _ heq => (by cases heq), ?_⟩
        rintro y heq
        cases heq
        exact ⟨hy, fun hne => absurd hstate' hne⟩
  · refine ⟨fun _ heq => (by cases heq), ?_⟩
    rintro y heq
    cases heq
    exact ⟨hx, fun _ => rfl⟩

theorem dooptions_calm (x : Ctx) : (dooptions env x).c.tp.tForce = x.c.tp.tForce := by
  unfold dooptions
  generalize x.ti.options = options
  induction options generalizing x with
  | nil => rfl
  | cons o options ih =>
    refine (ih _).trans ?_
    cases o with
    | maxseg mss =>
      simp only [dooption]
      split
      · exact (tcpMss_timed _ _ _).1
      · rfl
    | window shift =>
      simp only [dooption]
      split <;> rfl
    | timestamp val ecr =>
      simp only [dooption]
      split <;> rfl

theorem inputListen_calm (x : Ctx) : (inputListen env x).c.tp.tForce = x.c.tp.tForce := by
  unfold inputListen trimThenStep6 Ctx.withTp Tcpcb.rcvseqinit Tcpcb.sendseqinit
  exact dooptions_calm env x

theorem withWindow_calm (x : Ctx) : (withWindow x).c.tp.tForce = x.c.tp.tForce := by
  unfold withWindow Ctx.withTp
  rfl

theorem entry_unmoved {c : Conn} (hcalm : c.tp.tForce = false) (ti : Seg) : Unmoved c.snd ti (entry env c ti) := by
  obtain ⟨hsnd, hti⟩ := entry_untouched env c ti
  refine ⟨hsnd, ?_, hti, congrArg Flags.ack (entry_tiflags env c ti)⟩
  unfold entry
  dsimp only
  split
  · exact hcalm
  · exact (dooptions_calm env _).trans hcalm

theorem tcpInput_moved {c : Conn} (h : Accounted k c.snd) (hcalm : c.tp.tForce = false) (ti : Seg) :
    Moved k c.snd ((c.snd.tState = .synReceived → reachesAck env c ti = true) ∧ c.snd.OpensBy ti)
      (reachesAck env c ti = true ∧ c.snd.EndsBy ti)
      (c.snd.tState = .lastAck → reachesAck env c ti = true → c.snd.EndsBy ti) (tcpInput env c ti) := by
  unfold tcpInput
  split
  · exact h.moved rfl hcalm
  rename_i hclosed
  split
  · unfold listenInput
    split
    · exact (h.moved rfl hcalm).respond _ _ _
    · exact h.moved rfl hcalm
  rename_i haccept
  have hlisten : c.snd.tState ≠ .listen := by
    obtain ⟨a, b, hledger⟩ := h.ledger
    exact fun hlisten => haccept (hledger.listening hlisten)
  have hx := entry_unmoved env hcalm ti
  obtain ⟨hdone, hgo⟩ := predict_moved env h hx
  split
  · rename_i c' hpredict
    exact hdone c' hpredict
  · rename_i y hpredict
    obtain ⟨hy, hsame⟩ := hgo y hpredict
    by_cases hestablished : c.snd.tState = .established
    · have hmoved := general_moved env h hy ⟨hclosed, hlisten⟩ Iff.rfl
      refine hmoved.mono ?_ ?_ ?_
      · rintro ⟨-, -, ⟨hstate, -⟩ | ⟨hstate, -⟩⟩
        · rw [hestablished] at hstate
          cases hstate
        · rw [hestablished] at hstate
          cases hstate
      · rintro ⟨-, -, hfin, -⟩
        rw [hestablished] at hfin
        exact absurd hfin (by decide)
      · intro _ hlast
        rw [hestablished] at hlast
        cases hlast
    · refine general_moved env h hy ⟨hclosed, hlisten⟩ ?_
      rw [hsame hestablished]
      unfold reachesAck
      cases inputWindow env (withWindow (entry env c ti)) with
      | ok z => simp
      | error e => simp

end Segment

end Reading.Tcp
