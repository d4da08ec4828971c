import Reading.Tcp.SendSide

/-!
# TCP output and the phases of the send side

Each pass of `tcp_output` keeps the phase of a connection, and the data it sends is that of the stream. The sequence space of a pass is computed once, for the phase that has data; in the other phases the send buffer is empty.
-/

namespace Reading.Tcp

open Reading.Kern

/-! ### The fields a pass assigns -/

theorem outRecord_normal {tp : Tcpcb} (flags : Flags) (len : Int)
    (h : tp.tForce = false ∨ tp.tPersist = 0) :
    (outRecord tp flags len).sndNxt =
        tp.sndNxt + (if flags.syn then 1 else 0) + (if flags.fin then 1 else 0) + BitVec.ofInt 32 len ∧
      (outRecord tp flags len).sndMax =
        (if seqGT (outRecord tp flags len).sndNxt tp.sndMax then (outRecord tp flags len).sndNxt
          else tp.sndMax) ∧
      (outRecord tp flags len).tfSentfin = (tp.tfSentfin || flags.fin) := by
  simp only [outRecord, if_pos h]
  exact ⟨rfl, rfl, rfl⟩

theorem outRecord_persist {tp : Tcpcb} (flags : Flags) (len : Int)
    (h : ¬ (tp.tForce = false ∨ tp.tPersist = 0)) :
    (outRecord tp flags len).sndNxt = tp.sndNxt ∧
      (outRecord tp flags len).sndMax =
        (if seqGT (tp.sndNxt + BitVec.ofInt 32 len) tp.sndMax then tp.sndNxt + BitVec.ofInt 32 len
          else tp.sndMax) ∧
      (outRecord tp flags len).tfSentfin = tp.tfSentfin := by
  unfold outRecord
  rw [if_neg h]
  exact ⟨rfl, rfl, rfl⟩

theorem outFill_snd (env : Env) (pass : Nat) (c : Conn) (flags : Flags) (options : List TcpOption)
    (len : Int) (data : List Byte) (sendalot : Bool) :
    (outFill env pass c flags options len data sendalot).1.snd =
      { c.snd with
        nxt := (outRecord (pullSndUp (resendFin c.tp flags)) flags len).sndNxt
        max := (outRecord (pullSndUp (resendFin c.tp flags)) flags len).sndMax
        sentfin := (outRecord (pullSndUp (resendFin c.tp flags)) flags len).tfSentfin
        sent := c.sent ++
          [outSegment { c with tp := resendFin c.tp flags } flags options len data] } := by
  have hkept := outRecord_kept (pullSndUp (resendFin c.tp flags)) flags len
  have hstate : (outRecord (pullSndUp (resendFin c.tp flags)) flags len).tState = c.tp.tState :=
    congrArg Tcpcb.Kept.tState hkept
  have hiss : (outRecord (pullSndUp (resendFin c.tp flags)) flags len).iss = c.tp.iss :=
    congrArg Tcpcb.Kept.iss hkept
  have huna : (outRecord (pullSndUp (resendFin c.tp flags)) flags len).sndUna = c.tp.sndUna :=
    congrArg Tcpcb.Kept.sndUna hkept
  unfold outFill outDeliver
  cases env.ipOutput pass with
  | ok => simp only [Conn.snd, hstate, hiss, huna]
  | enobufs => simp only [Conn.snd, Tcpcb.quench, hstate, hiss, huna]
  | ehostunreach => simp only [Conn.snd, hstate, hiss, huna]
  | other => simp only [Conn.snd, hstate, hiss, huna]

theorem panic_snd (c : Conn) {p : Panic} (hp : p ≠ .sbdrop) : (c.panic p).snd = c.snd := by
  have hflag : (c.panicked <|> some p) = some Panic.sbdrop ↔ c.panicked = some Panic.sbdrop := by
    cases c.panicked with
    | none => simp [hp]
    | some q => simp
  have hunderflow : (c.panic p).snd.underflow = c.snd.underflow := decide_eq_decide.mpr hflag
  rw [show (c.panic p).snd = { c.snd with underflow := (c.panic p).snd.underflow } from rfl, hunderflow]

/-! ### What a pass can do -/

/-- The length and the data of a segment: nothing, or the octets at the offset the pass has planned. -/
def Planned (plan : OutPlan) (buffer : List Byte) (len : Int) (data : List Byte) : Prop :=
  len = 0 ∧ data = [] ∨
    len ≠ 0 ∧ plan.len ≠ 0 ∧ 0 ≤ plan.off ∧ 0 ≤ len ∧ plan.off + len ≤ buffer.length ∧
      data = (buffer.drop plan.off.toNat).take len.toNat

theorem tcpMss_snd (rt? : Option Route) (c : Conn) (offer : U32) :
    (tcpMss rt? c offer).1.snd = c.snd := by
  have hkept := tcpMss_kept rt? c offer
  have hdata : (tcpMss rt? c offer).1.so.soSnd.sbMb = c.so.soSnd.sbMb := congrArg (·.2.1.soSnd.sbMb) hkept
  cases rt? with
  | none => rfl
  | some rt =>
    have hsame : (tcpMss (some rt) c offer).1.snd =
        { c.snd with data := (tcpMss (some rt) c offer).1.so.soSnd.sbMb } := rfl
    rw [hsame, hdata]
    rfl

/-- Whether an output is forced in persist state, so that `snd_nxt` does not move. -/
def Conn.forcing (c : Conn) : Bool := c.tp.tForce && decide (c.tp.tPersist ≠ 0)

theorem outOffer_forcing (env : Env) (c : Conn) (flags : Flags) :
    (outOffer env c flags).1.forcing = c.forcing := by
  unfold outOffer
  split
  · cases env.route with
    | none => rfl
    | some rt => rfl
  · rfl

theorem outFlags_fin {c : Conn} {plan : OutPlan} {optlen : Nat} (h : (outFlags c plan optlen).fin = true) :
    plan.flags.fin = true ∧ outLen c.tp plan optlen = plan.len := by
  unfold outFlags at h
  simp only [Bool.and_eq_true, Bool.not_eq_true', decide_eq_false_iff_not] at h
  exact ⟨h.1, if_neg h.2⟩

theorem planned_of_outData {tp : Tcpcb} {plan : OutPlan} {optlen : Nat} {sb : Sockbuf} {data : List Byte}
    (h : outData sb plan.off (outLen tp plan optlen) = some data) :
    Planned plan sb.sbMb (outLen tp plan optlen) data := by
  unfold outData at h
  by_cases hzero : outLen tp plan optlen = 0
  · rw [if_pos hzero] at h
    exact .inl ⟨hzero, (Option.some.inj h).symm⟩
  · rw [if_neg hzero, copyData] at h
    split at h
    · rename_i hrange
      refine .inr ⟨hzero, ?_, hrange.1, hrange.2.1, hrange.2.2, (Option.some.inj h).symm⟩
      intro hplan
      apply hzero
      have hfits : ¬ tooLong tp plan optlen := by
        unfold tooLong
        omega
      rw [outLen, if_neg hfits, hplan]
    · cases h

/-- A pass that comes to `send` either sends nothing, or hands one segment to IP. -/
theorem outSend_cases (env : Env) (pass : Nat) (c : Conn) (plan : OutPlan) :
    (outSend env pass c plan).1.snd = (startSeq c plan.flags).snd ∨
      ∃ c₂ flags options len data sendalot, c₂.snd = (startSeq c plan.flags).snd ∧
        c₂.forcing = c.forcing ∧ flags.syn = plan.flags.syn ∧ (flags.fin = true → plan.flags.fin = true ∧ len = plan.len) ∧
        Planned plan c.so.soSnd.sbMb len data ∧
        (outSend env pass c plan).1.snd = (outFill env pass c₂ flags options len data sendalot).1.snd := by
  have hoffer : (outOffer env (startSeq c plan.flags) plan.flags).1.snd = (startSeq c plan.flags).snd := by
    unfold outOffer
    split
    · exact tcpMss_snd _ _ _
    · rfl
  have hforcing := outOffer_forcing env (startSeq c plan.flags) plan.flags
  unfold outSend
  generalize outOffer env (startSeq c plan.flags) plan.flags = offer at hoffer hforcing
  obtain ⟨c₂, mss⟩ := offer
  generalize houtput : outOptions env c₂.tp plan.flags mss = options
  have hbuffer : c₂.so.soSnd.sbMb = c.so.soSnd.sbMb := congrArg SndSide.data hoffer
  dsimp only
  rw [houtput]
  split
  · exact .inl hoffer
  · split
    · rw [panic_snd _ (by decide)]
      exact .inl hoffer
    · rename_i data hdata
      split
      · rw [panic_snd _ (by decide)]
        exact .inl hoffer
      · exact .inr ⟨c₂, outFlags c₂ plan options.2, options.1, outLen c₂.tp plan options.2, data,
          plan.sendalot || decide (tooLong c₂.tp plan options.2), hoffer, hforcing, rfl, outFlags_fin,
          hbuffer ▸ planned_of_outData hdata, rfl⟩

theorem outSegment_syn (c : Conn) (flags : Flags) (options : List TcpOption) (len : Int)
    (data : List Byte) : (outSegment c flags options len data).tiFlags.syn = flags.syn := by
  unfold outSegment
  dsimp only
  split <;> rfl

theorem outSegment_bytes (c : Conn) (flags : Flags) (options : List TcpOption) (len : Int)
    (data : List Byte) : (outSegment c flags options len data).m.bytes = data := by
  simp [outSegment, Mbuf.bytes]

theorem setpersist_snd (c : Conn) : (setpersist c).snd = c.snd := by
  have hflag : (if c.tp.tRexmt ≠ 0 then c.panicked <|> some Panic.setPersist else c.panicked) =
      some Panic.sbdrop ↔ c.panicked = some Panic.sbdrop := by
    cases c.panicked <;> split <;> simp
  have hunderflow : (setpersist c).snd.underflow = c.snd.underflow := decide_eq_decide.mpr hflag
  rw [show (setpersist c).snd = { c.snd with underflow := (setpersist c).snd.underflow } from rfl,
    hunderflow]

theorem outPass_cases (env : Env) (idle : Bool) (pass : Nat) (c : Conn) :
    (outPass env idle pass c).1.snd = (outSettled c).snd ∨
      (outPass env idle pass c).1.snd = (outSend env pass (outSettled c) (outPlan c).2).1.snd := by
  unfold outPass
  dsimp only
  split
  · exact .inr rfl
  · split
    · exact .inl (setpersist_snd _)
    · exact .inl rfl

/-- Where a pass begins to send. -/
def firstSeq (c : Conn) : TcpSeq :=
  if (tcpOutflags c.tp.tState).syn then c.tp.iss else (outSettled c).tp.sndNxt

/-- A segment that a pass sends, and the control block it is sent from. -/
structure Sending (c : Conn) (c₂ : Conn) (flags : Flags) (len : Int) (data : List Byte) : Prop where
  snd : c₂.snd = { c.snd with nxt := firstSeq c }
  forcing : c₂.forcing = (outSettled c).forcing
  syn : flags.syn = (tcpOutflags c.tp.tState).syn
  fin : flags.fin = true → (tcpOutflags c.tp.tState).fin = true ∧ ¬ outEarly c ∧ len = planLen c
  planned : Planned (outPlan c).2 c.snd.data len data

/-- The send side after a segment has been sent. -/
def afterSegment (c₂ : Conn) (flags : Flags) (options : List TcpOption) (len : Int)
    (data : List Byte) : SndSide :=
  let tp := outRecord (pullSndUp (resendFin c₂.tp flags)) flags len
  { c₂.snd with
    nxt := tp.sndNxt, max := tp.sndMax, sentfin := tp.tfSentfin
    sent := c₂.sent ++ [outSegment { c₂ with tp := resendFin c₂.tp flags } flags options len data] }

theorem outPass_spec (env : Env) (idle : Bool) (pass : Nat) (c : Conn) :
    (outPass env idle pass c).1.snd = { c.snd with nxt := (outSettled c).tp.sndNxt } ∨
      (outPass env idle pass c).1.snd = { c.snd with nxt := firstSeq c } ∨
      ∃ c₂ flags options len data, Sending c c₂ flags len data ∧
        (outPass env idle pass c).1.snd = afterSegment c₂ flags options len data := by
  rcases outPass_cases env idle pass c with hsettled | hsend
  · exact .inl hsettled
  · rw [hsend]
    rcases outSend_cases env pass (outSettled c) (outPlan c).2 with hnone | hsome
    · exact .inr (.inl hnone)
    · obtain ⟨c₂, flags, options, len, data, sendalot, hsnd, hforcing, hsyn, hfin, hplanned, hfill⟩ := hsome
      refine .inr (.inr ⟨c₂, flags, options, len, data, ⟨hsnd, hforcing, hsyn, ?_, hplanned⟩, ?_⟩)
      · intro h
        obtain ⟨hplan, hlen⟩ := hfin h
        have hflags : ((tcpOutflags c.tp.tState).fin && !decide (outEarly c)) = true := hplan
        simp only [Bool.and_eq_true, Bool.not_eq_true', decide_eq_false_iff_not] at hflags
        exact ⟨hflags.1, hflags.2, hlen⟩
      · rw [hfill, outFill_snd]
        rfl

/-! ### Phases without data -/

theorem tcpOutflags_fin {t : TcpState} (h : (tcpOutflags t).fin = true) : t.sendsFin := by
  cases t <;> simp_all [tcpOutflags, TcpState.sendsFin]

theorem tcpOutflags_syn (t : TcpState) :
    (tcpOutflags t).syn = true ↔ t = .synSent ∨ t = .synReceived := by
  cases t <;> simp [tcpOutflags]

/-- What an output changes: it sends, and only the right edge of the send side moves. -/
structure SndSide.Emits (written : List Byte) (s s' : SndSide) : Prop where
  sent : ∃ new, s'.sent = s.sent ++ new ∧ ∀ ti ∈ new, ti.Faithful s.iss written
  tState : s'.tState = s.tState
  iss : s'.iss = s.iss
  una : s'.una = s.una
  data : s'.data = s.data
  gone : s'.gone = s.gone
  underflow : s'.underflow = s.underflow

theorem SndSide.Emits.refl (written : List Byte) (s : SndSide) : s.Emits written s :=
  ⟨⟨[], by simp⟩, rfl, rfl, rfl, rfl, rfl, rfl⟩

theorem SndSide.Emits.trans {written : List Byte} {s s' s'' : SndSide} (h : s.Emits written s')
    (h' : s'.Emits written s'') : s.Emits written s'' := by
  obtain ⟨new, hnew, hfaithful⟩ := h.sent
  obtain ⟨new', hnew', hfaithful'⟩ := h'.sent
  refine ⟨⟨new ++ new', ?_, ?_⟩, h'.tState.trans h.tState, h'.iss.trans h.iss, h'.una.trans h.una,
    h'.data.trans h.data, h'.gone.trans h.gone, h'.underflow.trans h.underflow⟩
  · rw [hnew', hnew, List.append_assoc]
  · intro ti hti
    rcases List.mem_append.mp hti with hti | hti
    · exact hfaithful ti hti
    · have hti' := hfaithful' ti hti
      rwa [h.iss] at hti'

theorem emits_nxt (written : List Byte) (s : SndSide) (nxt : TcpSeq) :
    s.Emits written { s with nxt := nxt } :=
  ⟨⟨[], by simp⟩, rfl, rfl, rfl, rfl, rfl, rfl⟩

section Pass

variable {c c₂ : Conn} {flags : Flags} {options : List TcpOption} {len : Int} {data : List Byte}
  {written : List Byte}

theorem Sending.emits (h : Sending c c₂ flags len data)
    (hfaithful : Seg.Faithful c.snd.iss written
      (outSegment { c₂ with tp := resendFin c₂.tp flags } flags options len data)) :
    c.snd.Emits written (afterSegment c₂ flags options len data) := by
  have hstate : c₂.snd.tState = c.snd.tState := by rw [h.snd]
  have hiss : c₂.snd.iss = c.snd.iss := by rw [h.snd]
  have huna : c₂.snd.una = c.snd.una := by rw [h.snd]
  have hdata : c₂.snd.data = c.snd.data := by rw [h.snd]
  have hgone : c₂.snd.gone = c.snd.gone := by rw [h.snd]
  have hunderflow : c₂.snd.underflow = c.snd.underflow := by rw [h.snd]
  have hsent : c₂.sent = c.sent := (congrArg SndSide.sent h.snd :)
  refine ⟨⟨[_], congrArg (· ++ _) hsent, ?_⟩, hstate, hiss, huna, hdata, hgone, hunderflow⟩
  intro ti hti
  rw [List.mem_singleton.mp hti]
  exact hfaithful

theorem Sending.empty (h : Sending c c₂ flags len data) (hempty : c.snd.data = []) :
    len = 0 ∧ data = [] := by
  rcases h.planned with hzero | ⟨hne, -, hoff, hlen, hrange, -⟩
  · exact hzero
  · rw [hempty, List.length_nil] at hrange
    omega

theorem faithful_of_empty {ti : Seg} {iss : TcpSeq} (h : ti.m.bytes = []) : ti.Faithful iss written := by
  intro k x hx
  rw [h] at hx
  cases hx

theorem outRecord_tfSentfin {tp : Tcpcb} (h : (outRecord tp flags len).tfSentfin = true) :
    tp.tfSentfin = true ∨ flags.fin = true := by
  by_cases hnormal : tp.tForce = false ∨ tp.tPersist = 0
  · rw [(outRecord_normal flags len hnormal).2.2, Bool.or_eq_true] at h
    exact h
  · rw [(outRecord_persist flags len hnormal).2.2] at h
    exact .inl h

theorem SndSide.Quiet.pass (h : c.snd.Quiet) (env : Env) (idle : Bool) (pass : Nat) :
    (outPass env idle pass c).1.snd.Quiet ∧ c.snd.Emits written (outPass env idle pass c).1.snd := by
  have hnxt : ∀ nxt, ({ c.snd with nxt := nxt } : SndSide).Quiet := fun nxt =>
    ⟨h.empty, h.mute, h.notOpening, h.notEstablished, h.fin, h.listening⟩
  rcases outPass_spec env idle pass c with heq | heq | ⟨c₂, flags, options, len, data, hsending, heq⟩
  · rw [heq]
    exact ⟨hnxt _, emits_nxt _ _ _⟩
  · rw [heq]
    exact ⟨hnxt _, emits_nxt _ _ _⟩
  · rw [heq]
    obtain ⟨-, hdata⟩ := hsending.empty h.empty
    have hsnd := hsending.snd
    have hquiet : c₂.snd.Quiet := by
      rw [hsnd]
      exact hnxt _
    refine ⟨⟨hquiet.empty, hquiet.mute, hquiet.notOpening, hquiet.notEstablished, ?_,
      hquiet.listening⟩, hsending.emits (faithful_of_empty (by rw [outSegment_bytes, hdata]))⟩
    rintro (hstate | hsent)
    · exact hquiet.fin (.inl hstate)
    · rcases outRecord_tfSentfin hsent with hold | hnew
      · exact hquiet.fin (.inr hold)
      · have hfin := tcpOutflags_fin (hsending.fin hnew).1
        have hstate : c₂.snd.tState = c.snd.tState := by rw [hsnd]
        exact hquiet.fin (.inl (hstate ▸ hfin))

/-- The greater of two sequence numbers, by their distance from a base. -/
theorem ite_seqGT (base : TcpSeq) {a b : Nat} (ha : a < 2 ^ 31) (hb : b < 2 ^ 31) :
    (if seqGT (base + BitVec.ofNat 32 a) (base + BitVec.ofNat 32 b) then base + BitVec.ofNat 32 a
      else base + BitVec.ofNat 32 b) = base + BitVec.ofNat 32 (max a b) := by
  have hdiff := seqDiff_ofNat base (a := a) (b := b) (by omega) (by omega)
  by_cases hgt : seqGT (base + BitVec.ofNat 32 a) (base + BitVec.ofNat 32 b)
  · rw [if_pos hgt, max_eq_left]
    unfold seqGT at hgt
    omega
  · rw [if_neg hgt, max_eq_right]
    unfold seqGT at hgt
    omega

theorem resendFin_of_not_fin (tp : Tcpcb) (hfin : flags.fin = false) :
    (resendFin tp flags).sndNxt = tp.sndNxt := by
  simp [resendFin, hfin]

theorem SndSide.Opening.pass (h : c.snd.Opening written) (env : Env) (idle : Bool) (pass : Nat) :
    (outPass env idle pass c).1.snd.Opening written ∧
      c.snd.Emits written (outPass env idle pass c).1.snd := by
  obtain ⟨a, b, hnxt, hmax, hab, hb⟩ := h.window
  have hsyn : (tcpOutflags c.tp.tState).syn = true := (tcpOutflags_syn _).mpr h.state
  have hfirst : firstSeq c = c.snd.iss := if_pos hsyn
  have hsame : ∀ nxt a', nxt = c.snd.iss + BitVec.ofNat 32 a' → a' ≤ b →
      ({ c.snd with nxt := nxt } : SndSide).Opening written := fun nxt a' hnxt' ha' =>
    ⟨h.empty, h.mute, h.fresh, h.state, h.una, ⟨a', b, hnxt', hmax, ha', hb⟩, h.fin⟩
  have hzero : c.snd.iss = c.snd.iss + BitVec.ofNat 32 0 := (BitVec.add_zero _).symm
  rcases outPass_spec env idle pass c with heq | heq | ⟨c₂, flags, options, len, data, hsending, heq⟩
  · rw [heq]
    refine ⟨?_, emits_nxt _ _ _⟩
    by_cases hshut : shutBehind c
    · refine hsame _ 0 ?_ (Nat.zero_le b)
      have huna : (outSettled c).tp.sndNxt = c.snd.una := if_pos hshut
      rw [huna, h.una]
      exact hzero
    · exact hsame _ a ((if_neg hshut).trans hnxt) hab
  · rw [heq]
    exact ⟨hsame _ 0 (hfirst.trans hzero) (Nat.zero_le b), emits_nxt _ _ _⟩
  · rw [heq]
    obtain ⟨hlen, hdata⟩ := hsending.empty h.empty
    have hsnd := hsending.snd
    have hopening : c₂.snd.Opening written := by
      rw [hsnd]
      exact hsame _ 0 (hfirst.trans hzero) (Nat.zero_le b)
    have hflag : flags.syn = true := hsending.syn.trans hsyn
    have hfin : flags.fin = false := by
      rcases h.state with hstate | hstate
      · have hstate' : c.tp.tState = .synSent := hstate
        by_contra hne
        have := (hsending.fin (by simpa using hne)).1
        rw [hstate'] at this
        cases this
      · have hstate' : c.tp.tState = .synReceived := hstate
        by_contra hne
        have := (hsending.fin (by simpa using hne)).1
        rw [hstate'] at this
        cases this
    have hnxt₂ : (pullSndUp (resendFin c₂.tp flags)).sndNxt = c₂.snd.iss := by
      have hstart : c₂.snd.nxt = firstSeq c := by rw [hsnd]
      have hiss : c₂.snd.iss = c.snd.iss := by rw [hsnd]
      rw [hiss, ← hfirst, ← hstart]
      exact resendFin_of_not_fin c₂.tp hfin
    have hmax₂ : c₂.snd.max = c₂.snd.iss + BitVec.ofNat 32 b := by
      rw [hsnd]
      exact hmax
    refine ⟨⟨hopening.empty, hopening.mute, hopening.fresh, hopening.state, hopening.una, ?_, ?_⟩,
      hsending.emits (faithful_of_empty (by rw [outSegment_bytes, hdata]))⟩
    · have hold : (pullSndUp (resendFin c₂.tp flags)).sndMax = c₂.snd.max := rfl
      by_cases hnormal : (pullSndUp (resendFin c₂.tp flags)).tForce = false ∨
          (pullSndUp (resendFin c₂.tp flags)).tPersist = 0
      · obtain ⟨hnxt', hmax', -⟩ := outRecord_normal flags len hnormal
        rw [hnxt₂, hflag, hfin, hlen] at hnxt'
        have hone : (outRecord (pullSndUp (resendFin c₂.tp flags)) flags len).sndNxt =
            c₂.snd.iss + BitVec.ofNat 32 1 := by
          rw [hlen, hnxt']
          simp
        rw [hone, hold, hmax₂, ite_seqGT _ (by omega) (by omega), max_eq_left hb] at hmax'
        exact ⟨1, 1, hone, hmax', le_refl 1, le_refl 1⟩
      · obtain ⟨hnxt', hmax', -⟩ := outRecord_persist flags len hnormal
        have hstay : c₂.snd.iss + BitVec.ofInt 32 len = c₂.snd.iss + BitVec.ofNat 32 0 := by
          rw [hlen]
          rfl
        rw [hnxt₂, hold, hmax₂, hstay, ite_seqGT _ (by omega) (by omega),
          max_eq_right (Nat.zero_le b)] at hmax'
        exact ⟨0, b, hnxt'.trans (hnxt₂.trans (BitVec.add_zero _).symm), hmax', Nat.zero_le b, hb⟩
    · intro hsent
      rcases outRecord_tfSentfin hsent with hold | hnew
      · exact hopening.fin hold
      · rw [hfin] at hnew
        cases hnew

theorem SndSide.Spent.pass (h : c.snd.Spent) (env : Env) (idle : Bool) (pass : Nat) :
    (outPass env idle pass c).1.snd.Spent ∧ c.snd.Emits written (outPass env idle pass c).1.snd := by
  have hstate : c.tp.tState = .established := h.state
  have hsettled : (outSettled c).tp.sndNxt = c.snd.una := by
    change (if shutBehind c then c.snd.una else c.snd.nxt) = _
    rw [h.nxt, ite_self]
  have hfirst : firstSeq c = c.snd.una := by
    rw [firstSeq, hstate]
    exact hsettled
  have hsame : ({ c.snd with nxt := c.snd.una } : SndSide).Spent :=
    ⟨h.connected, h.state, h.cantsendmore, h.empty, rfl, h.max⟩
  rcases outPass_spec env idle pass c with heq | heq | ⟨c₂, flags, options, len, data, hsending, heq⟩
  · rw [heq, hsettled]
    exact ⟨hsame, emits_nxt _ _ _⟩
  · rw [heq, hfirst]
    exact ⟨hsame, emits_nxt _ _ _⟩
  · rw [heq]
    obtain ⟨hlen, hdata⟩ := hsending.empty h.empty
    have hsnd := hsending.snd
    rw [hfirst] at hsnd
    have hspent : c₂.snd.Spent := by
      rw [hsnd]
      exact hsame
    have hsyn : flags.syn = false := by rw [hsending.syn, hstate]; rfl
    have hfin : flags.fin = false := by
      by_contra hne
      have hout := (hsending.fin (by simpa using hne)).1
      rw [hstate] at hout
      cases hout
    have hnxt₂ : (pullSndUp (resendFin c₂.tp flags)).sndNxt = c₂.snd.una :=
      (resendFin_of_not_fin c₂.tp hfin).trans hspent.nxt
    have hmax₂ : (pullSndUp (resendFin c₂.tp flags)).sndMax = c₂.snd.una := hspent.max
    have hadd : c₂.snd.una + BitVec.ofInt 32 len = c₂.snd.una := by
      rw [hlen]
      exact BitVec.add_zero _
    refine ⟨⟨hspent.connected, hspent.state, hspent.cantsendmore, hspent.empty, ?_, ?_⟩,
      hsending.emits (faithful_of_empty (by rw [outSegment_bytes, hdata]))⟩
    · by_cases hnormal : (pullSndUp (resendFin c₂.tp flags)).tForce = false ∨
          (pullSndUp (resendFin c₂.tp flags)).tPersist = 0
      · refine (outRecord_normal flags len hnormal).1.trans ?_
        rw [hnxt₂, hsyn, hfin]
        simp only [Bool.false_eq_true, if_false, add_zero]
        exact hadd
      · exact (outRecord_persist flags len hnormal).1.trans hnxt₂
    · by_cases hnormal : (pullSndUp (resendFin c₂.tp flags)).tForce = false ∨
          (pullSndUp (resendFin c₂.tp flags)).tPersist = 0
      · obtain ⟨hnxt', hmax', -⟩ := outRecord_normal flags len hnormal
        refine hmax'.trans ?_
        have hstay : (outRecord (pullSndUp (resendFin c₂.tp flags)) flags len).sndNxt = c₂.snd.una := by
          rw [hnxt', hnxt₂, hsyn, hfin]
          simp only [Bool.false_eq_true, if_false, add_zero]
          exact hadd
        rw [hstay, hmax₂, ite_self]
        rfl
      · refine (outRecord_persist flags len hnormal).2.1.trans ?_
        rw [hnxt₂, hmax₂, hadd, ite_self]
        rfl

/-! ### The phase with data -/

variable {d a b : Nat}

theorem SndSide.Live.le_length {s : SndSide} (h : s.Live written d a b) : b ≤ s.data.length + 1 := by
  cases hsent : s.sentfin with
  | false => exact Nat.le_succ_of_le (h.bound hsent)
  | true => exact le_of_eq (h.finished hsent).1

theorem toNat_sbCc (hfits : c.snd.data.length < 2 ^ 31) :
    c.so.soSnd.sbCc.toNat = c.snd.data.length := by
  have hlen : c.snd.data.length = c.so.soSnd.sbMb.length := rfl
  rw [Sockbuf.sbCc, BitVec.toNat_ofNat, Nat.mod_eq_of_lt (by omega), hlen]

/-! The first numbers of a pass, where `snd_nxt` is at most two numbers ahead of the end of the buffer. -/

section Span

variable (hnxt : c.snd.nxt = c.snd.una + BitVec.ofNat 32 a) (ha : a ≤ c.snd.data.length + 2)
  (hfits : c.snd.data.length + 2 < 2 ^ 31)

include hnxt ha hfits

theorem outOff_of_nxt : outOff c.tp = a := by
  have hnxt' : c.tp.sndNxt = c.tp.sndUna + BitVec.ofNat 32 a := hnxt
  have hdiff := seqDiff_ofNat c.tp.sndUna (a := a) (b := 0) (by omega) (by omega)
  rw [Tcp.outOff, hnxt']
  simpa using hdiff

/-- The data a window admits beyond `snd_nxt`. -/
theorem outAvail_of_nxt : outAvail c ≤ (c.snd.data.length : Int) - a := by
  have hcc := toNat_sbCc (c := c) (by omega)
  have hmin : (umin c.so.soSnd.sbCc (outWin c.tp)).toNat ≤ c.snd.data.length := by
    unfold umin
    split
    · rw [hcc]
    · rename_i hnot
      rw [← hcc]
      exact BitVec.not_lt.mp hnot
  have hdiff := seqDiff_ofNat 0#32 (a := (umin c.so.soSnd.sbCc (outWin c.tp)).toNat) (b := a)
    (by omega) (by omega)
  unfold Tcp.outAvail
  rw [outOff_of_nxt hnxt ha hfits, BitVec.ofInt_natCast]
  simp only [seqDiff, BitVec.zero_add, BitVec.ofNat_toNat, BitVec.setWidth_eq] at hdiff
  omega

theorem settled_of_nxt :
    ∃ a₁ L : Nat, a₁ ≤ a ∧ planLen c = L ∧
      (outSettled c).tp.sndNxt = c.snd.una + BitVec.ofNat 32 a₁ ∧
      (L ≠ 0 → a₁ = a ∧ a + L ≤ c.snd.data.length) ∧
      (¬ outEarly c → c.snd.data.length ≤ a₁ + L) := by
  have havail := outAvail_of_nxt hnxt ha hfits
  obtain ⟨L, hL⟩ : ∃ L : Nat, planLen c = L := ⟨(planLen c).toNat, by unfold planLen; omega⟩
  have hlong : L ≠ 0 → a + L ≤ c.snd.data.length ∧ ¬ shutBehind c := by
    intro hne
    unfold planLen at hL
    refine ⟨by omega, fun hshut => ?_⟩
    have hneg := hshut.1
    omega
  obtain ⟨a₁, ha₁, hnxt₁, hsame⟩ : ∃ a₁, a₁ ≤ a ∧
      (outSettled c).tp.sndNxt = c.snd.una + BitVec.ofNat 32 a₁ ∧ (¬ shutBehind c → a₁ = a) := by
    by_cases hshut : shutBehind c
    · exact ⟨0, Nat.zero_le a, (if_pos hshut).trans (BitVec.add_zero _).symm, fun hnot => absurd hshut hnot⟩
    · exact ⟨a, le_refl a, (if_neg hshut).trans hnxt, fun _ => rfl⟩
  refine ⟨a₁, L, ha₁, hL, hnxt₁, fun hne => ⟨hsame (hlong hne).2, (hlong hne).1⟩, fun hearly => ?_⟩
  have hend : a₁ + L ≤ c.snd.data.length + 2 := by
    by_cases hzero : L = 0
    · omega
    · have := hlong hzero
      omega
  have hcc : c.so.soSnd.sbCc = BitVec.ofNat 32 c.snd.data.length := rfl
  have hdiff := seqDiff_ofNat c.snd.una (a := a₁ + L) (b := c.snd.data.length) (by omega) (by omega)
  have hlate : ¬ seqLT ((outSettled c).tp.sndNxt + BitVec.ofInt 32 (planLen c))
      (c.tp.sndUna + c.so.soSnd.sbCc) := fun hlt => hearly (.inl hlt)
  rw [hnxt₁, hL, BitVec.ofInt_natCast, hcc, BitVec.add_assoc, ← BitVec.ofNat_add] at hlate
  unfold seqLT at hlate
  have huna : c.tp.sndUna = c.snd.una := rfl
  rw [huna] at hlate
  omega

end Span

theorem Sending.octets (h : Sending c c₂ flags len data) {a₁ L : Nat} (hoff : outOff c.tp = a)
    (hL : planLen c = L) (hlong : L ≠ 0 → a₁ = a ∧ a + L ≤ c.snd.data.length) :
    ∃ N : Nat, len = N ∧ (N ≠ 0 → a₁ + N ≤ c.snd.data.length) ∧ data = (c.snd.data.drop a₁).take N := by
  have hoff' : (outPlan c).2.off = a := hoff
  rcases h.planned with ⟨hzero, hnone⟩ | ⟨hne, hplan, -, hpos, hrange, hsome⟩
  · exact ⟨0, by simpa using hzero, fun hne => absurd rfl hne, by simpa using hnone⟩
  · have hplan' : planLen c ≠ 0 := hplan
    have hLne : L ≠ 0 := by omega
    have ha := (hlong hLne).1
    rw [hoff'] at hrange hsome
    refine ⟨len.toNat, by omega, fun _ => by omega, ?_⟩
    rw [hsome, ha, Int.toNat_natCast]

theorem SndSide.Live.withNxt {s : SndSide} (h : s.Live written d a b) {a' : Nat} (ha' : a' ≤ b) :
    ({ s with nxt := s.una + BitVec.ofNat 32 a' } : SndSide).Live written d a' b :=
  ⟨h.connected, h.notOpening, h.notClosing, h.fin, h.listening, h.dropped, h.data, h.fits, h.una, rfl,
    h.max, ha', h.bound, h.finished, h.covered⟩

/-- The octets of a segment that begins at offset `a` of the send buffer. -/
theorem getElem_segment {ti : Seg} {una : TcpSeq} {buffer : List Byte} {n : Nat} (k : Nat) (x : Byte)
    (hsyn : ti.tiFlags.syn = false) (hseq : ti.tiSeq = una + BitVec.ofNat 32 a)
    (hbytes : ti.m.bytes = (buffer.drop a).take n) :
    ti.seqOf k = una + BitVec.ofNat 32 (a + k) ∧
      (ti.m.bytes[k]? = some x ↔ k < n ∧ buffer[a + k]? = some x) := by
  constructor
  · rw [Seg.seqOf, hsyn, hseq, BitVec.ofNat_add, ← BitVec.add_assoc]
    simp
  · rw [hbytes, List.getElem?_take]
    split <;> simp_all

theorem SndSide.Live.faithful {s : SndSide} (h : s.Live written d a b) {ti : Seg} {n : Nat}
    (hsyn : ti.tiFlags.syn = false) (hseq : ti.tiSeq = s.una + BitVec.ofNat 32 a)
    (hbytes : ti.m.bytes = (s.data.drop a).take n) : ti.Faithful s.iss written := by
  intro k x hx
  obtain ⟨hseqOf, hget⟩ := getElem_segment k x hsyn hseq hbytes
  obtain ⟨-, hx⟩ := hget.mp hx
  refine ⟨d + (a + k), ?_, ?_⟩
  · rw [h.data, List.getElem?_drop] at hx
    exact hx
  · rw [hseqOf, h.una, BitVec.ofNat_add d, ← BitVec.add_assoc]

/-- Where a segment is sent from: one octet earlier if it is a FIN that is sent again. -/
theorem SndSide.Live.resendFin (h : c.snd.Live written d a b) {L : Nat}
    (hlong : L ≠ 0 → a + L ≤ c.snd.data.length)
    (hfin : flags.fin = true → c.snd.data.length ≤ a + L) :
    ∃ a₂, (resendFin c.tp flags).sndNxt = c.snd.una + BitVec.ofNat 32 a₂ ∧ a₂ ≤ a ∧
      (L ≠ 0 → a₂ = a) ∧ (flags.fin = false → a₂ = a) ∧
      (flags.fin = true → a₂ + L = c.snd.data.length) := by
  have hle := h.le_length
  have hfits := h.fits
  have hordered := h.ordered
  have hnxt : c.tp.sndNxt = c.snd.una + BitVec.ofNat 32 a := h.nxt
  by_cases hagain : flags.fin = true ∧ c.tp.tfSentfin = true ∧ c.tp.sndNxt = c.tp.sndMax
  · -- `snd_nxt` is behind the FIN that was sent before
    obtain ⟨hflag, hsent, hsame⟩ := hagain
    have hb : b = c.snd.data.length + 1 := (h.finished hsent).1
    have hab : a = b := by
      have hmax : c.tp.sndMax = c.snd.una + BitVec.ofNat 32 b := h.max
      have hdiff := seqDiff_ofNat c.snd.una (a := a) (b := b) (by omega) (by omega)
      rw [← hnxt, ← hmax, hsame, seqDiff_self] at hdiff
      omega
    have hzero : L = 0 := by
      by_contra hne
      have := hlong hne
      omega
    refine ⟨c.snd.data.length, ?_, by omega, fun hne => absurd hzero hne, ?_, fun _ => by omega⟩
    · have hone : BitVec.ofNat 32 a = BitVec.ofNat 32 c.snd.data.length + 1 := by
        rw [hab, hb, BitVec.ofNat_add]
        rfl
      have hback : (Tcp.resendFin c.tp flags).sndNxt = c.tp.sndNxt - 1 := if_pos ⟨hflag, hsent, hsame⟩
      rw [hback, hnxt, hone, ← BitVec.add_assoc, BitVec.add_sub_cancel]
    · intro hnot
      rw [hflag] at hnot
      cases hnot
  · refine ⟨a, (if_neg hagain).trans hnxt, le_refl a, fun _ => rfl, fun _ => rfl, fun hflag => ?_⟩
    have hlate := hfin hflag
    have hnotAfter : a ≤ c.snd.data.length := by
      cases hsent : c.snd.sentfin with
      | false =>
        have := h.bound hsent
        omega
      | true =>
        have hb := (h.finished hsent).1
        by_contra hgt
        have hab : a = b := by omega
        have hmax : c.tp.sndMax = c.snd.una + BitVec.ofNat 32 b := h.max
        exact hagain ⟨hflag, hsent, by rw [hnxt, hmax, hab]⟩
    by_cases hzero : L = 0
    · omega
    · have := hlong hzero
      omega

/-- The right edge moves over a segment, whose octets are then covered. -/
theorem SndSide.Live.extend {s s' : SndSide} (h : s.Live written d a b) {a₂ L a' b' : Nat} {ti : Seg}
    (ha₂ : a₂ ≤ a) (hsame : L ≠ 0 → a₂ = a)
    (hs' : s' = { s with
      nxt := s.una + BitVec.ofNat 32 a', max := s.una + BitVec.ofNat 32 b', sentfin := s'.sentfin
      sent := s.sent ++ [ti] })
    (hordered : a' ≤ b')
    (hb' : b' ≤ a₂ + L ∨ b' ≤ b ∨ b' = s.data.length + 1 ∧ a₂ + L = s.data.length)
    (hbound : s'.sentfin = false → b' ≤ s.data.length)
    (hfinished : s'.sentfin = true → b' = s.data.length + 1 ∧ s.cantsendmore = true ∧
      s.tState ≠ .established ∧ s.tState ≠ .closeWait)
    (hsyn : ti.tiFlags.syn = false) (hseq : L ≠ 0 → ti.tiSeq = s.una + BitVec.ofNat 32 a)
    (hbytes : ti.m.bytes = (s.data.drop a).take L) : s'.Live written d a' b' := by
  rw [hs']
  refine ⟨h.connected, h.notOpening, h.notClosing, h.fin, h.listening, h.dropped, h.data, h.fits, h.una,
    rfl, rfl, hordered, hbound, hfinished, ?_⟩
  intro j x hj hx
  change s.data[j]? = some x at hx
  have hjlen : j < s.data.length := (List.getElem?_eq_some_iff.mp hx).1
  by_cases hold : j < b
  · obtain ⟨ti', hti', hcovers⟩ := h.covered j x hold hx
    exact ⟨ti', List.mem_append_left _ hti', hcovers⟩
  · have hab := h.ordered
    have hnew : j < a₂ + L := by
      rcases hb' with hb' | hb' | ⟨-, hall⟩
      · omega
      · omega
      · omega
    have hne : L ≠ 0 := by omega
    have ha := hsame hne
    obtain ⟨hseqOf, hget⟩ := getElem_segment (j - a) x hsyn (hseq hne) hbytes
    have hj' : a + (j - a) = j := by omega
    rw [hj'] at hseqOf hget
    exact ⟨ti, List.mem_append_right _ (List.mem_singleton.mpr rfl), j - a, hseqOf,
      hget.mpr ⟨by omega, hx⟩⟩

theorem SndSide.Live.segment (h : c.snd.Live written d a b) {L : Nat} (hlen : len = L)
    (hlong : L ≠ 0 → a + L ≤ c.snd.data.length) (hdata : data = (c.snd.data.drop a).take L)
    (hsyn : flags.syn = false)
    (hfin : flags.fin = true → c.snd.tState.sendsFin ∧ c.snd.data.length ≤ a + L) :
    (∃ a' b', b ≤ b' ∧ (afterSegment c flags options len data).Live written d a' b') ∧
      Seg.Faithful c.snd.iss written
        (outSegment { c with tp := Tcp.resendFin c.tp flags } flags options len data) := by
  have hle := h.le_length
  have hfits := h.fits
  have hordered := h.ordered
  obtain ⟨a₂, hnxt, ha₂, hsame, hnofin, hall⟩ := h.resendFin hlong fun hflag => (hfin hflag).2
  obtain ⟨ti, hti⟩ : ∃ ti, ti =
    outSegment { c with tp := Tcp.resendFin c.tp flags } flags options len data := ⟨_, rfl⟩
  have htiSyn : ti.tiFlags.syn = false := by rw [hti, outSegment_syn, hsyn]
  have htiBytes : ti.m.bytes = (c.snd.data.drop a).take L := by rw [hti, outSegment_bytes, hdata]
  have htiSeq : L ≠ 0 → ti.tiSeq = c.snd.una + BitVec.ofNat 32 a := by
    intro hne
    have hcond : len ≠ 0 ∨ flags.syn = true ∨ flags.fin = true ∨
        (Tcp.resendFin c.tp flags).tPersist ≠ 0 := .inl (by omega)
    rw [hti]
    refine (if_pos hcond).trans ?_
    rw [hnxt, hsame hne]
  have hmax : (pullSndUp (Tcp.resendFin c.tp flags)).sndMax = c.snd.una + BitVec.ofNat 32 b := h.max
  have hadvance : ∀ n, c.snd.una + BitVec.ofNat 32 a₂ + BitVec.ofNat 32 n =
      c.snd.una + BitVec.ofNat 32 (a₂ + n) := by
    intro n
    rw [BitVec.add_assoc, ← BitVec.ofNat_add]
  have hend : a₂ + L ≤ c.snd.data.length + 1 := by
    by_cases hzero : L = 0
    · omega
    · have := hlong hzero
      omega
  have hafter : ∀ {a' b' : Nat},
      (outRecord (pullSndUp (Tcp.resendFin c.tp flags)) flags len).sndNxt =
        c.snd.una + BitVec.ofNat 32 a' →
      (outRecord (pullSndUp (Tcp.resendFin c.tp flags)) flags len).sndMax =
        c.snd.una + BitVec.ofNat 32 b' →
      afterSegment c flags options len data =
        { c.snd with
          nxt := c.snd.una + BitVec.ofNat 32 a', max := c.snd.una + BitVec.ofNat 32 b'
          sentfin := (afterSegment c flags options len data).sentfin, sent := c.snd.sent ++ [ti] } := by
    intro a' b' hnxt' hmax'
    rw [← hnxt', ← hmax', hti]
    rfl
  rw [← hti]
  refine ⟨?_, ?_⟩
  · by_cases hnormal : (pullSndUp (Tcp.resendFin c.tp flags)).tForce = false ∨
        (pullSndUp (Tcp.resendFin c.tp flags)).tPersist = 0
    · obtain ⟨hnxt', hmax', hsent'⟩ := outRecord_normal flags len hnormal
      have hstart : (pullSndUp (Tcp.resendFin c.tp flags)).sndNxt = c.snd.una + BitVec.ofNat 32 a₂ := hnxt
      cases hflag : flags.fin with
      | true =>
        have hstop := hall hflag
        have hone : (outRecord (pullSndUp (Tcp.resendFin c.tp flags)) flags len).sndNxt =
            c.snd.una + BitVec.ofNat 32 (c.snd.data.length + 1) := by
          have hsucc : c.snd.data.length + 1 = a₂ + (1 + L) := by omega
          rw [hnxt', hstart, hsyn, hflag, hlen, BitVec.ofInt_natCast, hsucc, ← hadvance,
            BitVec.ofNat_add, ← BitVec.add_assoc]
          simp
        rw [hone, hmax, ite_seqGT _ (by omega) (by omega)] at hmax'
        obtain ⟨hcant, hstates⟩ : c.snd.cantsendmore = true ∧ c.snd.tState ≠ .established ∧
            c.snd.tState ≠ .closeWait := by
          have hstate := (hfin hflag).1
          refine ⟨h.fin hstate, ?_⟩
          rcases hstate with hstate | hstate | hstate <;> rw [hstate] <;> decide
        have htop : Max.max (c.snd.data.length + 1) b = c.snd.data.length + 1 := max_eq_left hle
        rw [htop] at hmax'
        refine ⟨_, _, hle, h.extend ha₂ hsame (hafter hone hmax') (le_refl _)
          (.inr (.inr ⟨rfl, hstop⟩)) ?_ (fun _ => ⟨rfl, hcant, hstates⟩) htiSyn htiSeq htiBytes⟩
        intro hnot
        have hsent'' : (afterSegment c flags options len data).sentfin = true := by
          change (outRecord (pullSndUp (Tcp.resendFin c.tp flags)) flags len).tfSentfin = true
          rw [hsent', hflag, Bool.or_true]
        rw [hsent''] at hnot
        cases hnot
      | false =>
        have ha : a₂ = a := hnofin hflag
        have hmore : (outRecord (pullSndUp (Tcp.resendFin c.tp flags)) flags len).sndNxt =
            c.snd.una + BitVec.ofNat 32 (a₂ + L) := by
          rw [hnxt', hstart, hsyn, hflag, hlen, BitVec.ofInt_natCast, ← hadvance]
          simp
        rw [hmore, hmax, ite_seqGT _ (by omega) (by omega)] at hmax'
        have hsame' : (afterSegment c flags options len data).sentfin = c.snd.sentfin := by
          change (outRecord (pullSndUp (Tcp.resendFin c.tp flags)) flags len).tfSentfin = _
          rw [hsent', hflag, Bool.or_false]
          rfl
        refine ⟨_, _, le_max_right _ _, h.extend ha₂ hsame (hafter hmore hmax') (le_max_left _ _) ?_ ?_ ?_
          htiSyn htiSeq htiBytes⟩
        · omega
        · intro hnot
          rw [hsame'] at hnot
          have := h.bound hnot
          by_cases hzero : L = 0
          · omega
          · have := hlong hzero
            omega
        · intro hsent
          rw [hsame'] at hsent
          obtain ⟨hb, hrest⟩ := h.finished hsent
          exact ⟨by omega, hrest⟩
    · obtain ⟨hnxt', hmax', hsent'⟩ := outRecord_persist flags len hnormal
      have hstart : (pullSndUp (Tcp.resendFin c.tp flags)).sndNxt = c.snd.una + BitVec.ofNat 32 a₂ := hnxt
      rw [hstart] at hnxt'
      rw [hstart, hlen, BitVec.ofInt_natCast, hadvance, hmax, ite_seqGT _ (by omega) (by omega),
        ← hlen] at hmax'
      refine ⟨_, _, le_max_right _ _, h.extend ha₂ hsame (hafter hnxt' hmax') ?_ ?_ ?_ ?_ htiSyn htiSeq
        htiBytes⟩
      · omega
      · omega
      · intro hnot
        have hnot' : c.snd.sentfin = false := hsent'.symm.trans hnot
        have := h.bound hnot'
        by_cases hzero : L = 0
        · omega
        · have := hlong hzero
          omega
      · intro hsent
        have hsent'' : c.snd.sentfin = true := hsent'.symm.trans hsent
        obtain ⟨hb, hrest⟩ := h.finished hsent''
        exact ⟨by omega, hrest⟩
  · by_cases hzero : L = 0
    · apply faithful_of_empty
      rw [htiBytes, hzero, List.take_zero]
    · exact h.faithful htiSyn (htiSeq hzero) htiBytes

theorem SndSide.Live.pass (h : c.snd.Live written d a b) (env : Env) (idle : Bool) (pass : Nat) :
    (∃ a' b', b ≤ b' ∧ (outPass env idle pass c).1.snd.Live written d a' b') ∧
      c.snd.Emits written (outPass env idle pass c).1.snd := by
  have hordered := h.ordered
  have hle := h.le_length
  have hspan : a ≤ c.snd.data.length + 2 := by omega
  obtain ⟨a₁, L, ha₁, hL, hnxt, hlong, hlate⟩ := settled_of_nxt h.nxt hspan h.fits
  have hsyn : (tcpOutflags c.tp.tState).syn = false := by
    rw [Bool.eq_false_iff]
    intro hflag
    rcases (tcpOutflags_syn _).mp hflag with hstate | hstate
    · exact h.notOpening.1 hstate
    · exact h.notOpening.2 hstate
  have hfirst : firstSeq c = c.snd.una + BitVec.ofNat 32 a₁ := by
    rw [firstSeq, hsyn, if_neg Bool.false_ne_true, hnxt]
  have hlive : ({ c.snd with nxt := c.snd.una + BitVec.ofNat 32 a₁ } : SndSide).Live written d a₁ b :=
    h.withNxt (by omega)
  rcases outPass_spec env idle pass c with heq | heq | ⟨c₂, flags, options, len, data, hsending, heq⟩
  · rw [heq, hnxt]
    exact ⟨⟨a₁, b, le_refl b, hlive⟩, emits_nxt _ _ _⟩
  · rw [heq, hfirst]
    exact ⟨⟨a₁, b, le_refl b, hlive⟩, emits_nxt _ _ _⟩
  · rw [heq]
    have hsnd := hsending.snd
    rw [hfirst] at hsnd
    have hlive₂ : c₂.snd.Live written d a₁ b := by
      rw [hsnd]
      exact hlive
    have hdata₂ : c₂.snd.data = c.snd.data := by rw [hsnd]
    have hiss₂ : c₂.snd.iss = c.snd.iss := by rw [hsnd]
    obtain ⟨N, hN, hNlong, hNdata⟩ := hsending.octets (outOff_of_nxt h.nxt hspan h.fits) hL hlong
    have hsegment : (∃ a' b', b ≤ b' ∧ (afterSegment c₂ flags options len data).Live written d a' b') ∧
        Seg.Faithful c₂.snd.iss written
          (outSegment { c₂ with tp := Tcp.resendFin c₂.tp flags } flags options len data) := hlive₂.segment hN
      (by rwa [hdata₂]) (by rwa [hdata₂]) (hsending.syn.trans hsyn) (fun hflag => by
        obtain ⟨hout, hearly, hlen⟩ := hsending.fin hflag
        have hstate : c₂.snd.tState = c.snd.tState := by rw [hsnd]
        refine ⟨hstate ▸ tcpOutflags_fin hout, ?_⟩
        have := hlate hearly
        rw [hdata₂]
        omega)
    exact ⟨hsegment.1, hsending.emits (hiss₂ ▸ hsegment.2)⟩

end Pass

/-! ### The whole of `tcp_output` -/

theorem outPasses_invariant {P : SndSide → Prop} {written : List Byte} (env : Env) (idle : Bool)
    (hpass : ∀ (c : Conn) pass, P c.snd → P (outPass env idle pass c).1.snd ∧
      c.snd.Emits written (outPass env idle pass c).1.snd)
    (fuel pass : Nat) {c : Conn} (h : P c.snd) :
    P (outPasses env idle fuel pass c).snd ∧
      c.snd.Emits written (outPasses env idle fuel pass c).snd := by
  induction fuel generalizing pass c with
  | zero => exact ⟨h, SndSide.Emits.refl _ _⟩
  | succ fuel ih =>
    obtain ⟨hnext, hemits⟩ := hpass c pass h
    unfold outPasses
    dsimp only
    split
    · obtain ⟨hlast, hemits'⟩ := ih (pass + 1) hnext
      exact ⟨hlast, hemits.trans hemits'⟩
    · exact ⟨hnext, hemits⟩

section Output

variable {written : List Byte} {c : Conn} (env : Env)

theorem SndSide.Quiet.output (h : c.snd.Quiet) :
    (tcpOutput env c).snd.Quiet ∧ c.snd.Emits written (tcpOutput env c).snd :=
  outPasses_invariant env _ (fun _ pass h => h.pass env _ pass) _ _ h

theorem SndSide.Opening.output (h : c.snd.Opening written) :
    (tcpOutput env c).snd.Opening written ∧ c.snd.Emits written (tcpOutput env c).snd :=
  outPasses_invariant env _ (fun _ pass h => h.pass env _ pass) _ _ h

theorem SndSide.Spent.output (h : c.snd.Spent) :
    (tcpOutput env c).snd.Spent ∧ c.snd.Emits written (tcpOutput env c).snd :=
  outPasses_invariant env _ (fun _ pass h => h.pass env _ pass) _ _ h

/-- Of a connection with data only the right edge moves, and not back. -/
theorem SndSide.Live.output {d a b : Nat} (h : c.snd.Live written d a b) :
    (∃ a' b', b ≤ b' ∧ (tcpOutput env c).snd.Live written d a' b') ∧
      c.snd.Emits written (tcpOutput env c).snd := by
  refine outPasses_invariant (P := fun s => ∃ a' b', b ≤ b' ∧ s.Live written d a' b') env _ ?_ _ _
    ⟨a, b, le_refl b, h⟩
  rintro c pass ⟨a', b', hb, hlive⟩
  obtain ⟨⟨a'', b'', hb', hlive'⟩, hemits⟩ := hlive.pass env _ pass
  exact ⟨⟨a'', b'', le_trans hb hb', hlive'⟩, hemits⟩

/-- An output keeps the phase, and sends faithful segments only. -/
theorem tcpOutput_sound (h : c.snd.Sound written) (hlive : c.gone = false) :
    (tcpOutput env c).snd.Sound written ∧ c.snd.Emits written (tcpOutput env c).snd := by
  cases h with
  | gone h =>
    rw [show c.snd.gone = c.gone from rfl, hlive] at h
    cases h
  | quiet h =>
    obtain ⟨hquiet, hemits⟩ : _ ∧ c.snd.Emits written _ := h.output env
    exact ⟨.quiet hquiet, hemits⟩
  | opening h => exact ⟨.opening (h.output env).1, (h.output env).2⟩
  | live d a b h =>
    obtain ⟨⟨a', b', -, hlive'⟩, hemits⟩ := h.output env
    exact ⟨.live d a' b' hlive', hemits⟩
  | spent h =>
    obtain ⟨hspent, hemits⟩ : _ ∧ c.snd.Emits written _ := h.output env
    exact ⟨.spent hspent, hemits⟩

end Output

end Reading.Tcp
