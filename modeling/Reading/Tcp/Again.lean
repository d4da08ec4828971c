import Reading.Tcp.Session

/-!
# The passes of `tcp_output`

A pass goes back to `again` where the window admits more than a segment, or where the data do not fit into a segment beside the options. The measure is the data that the window admits beyond `snd_nxt`. It decreases as long as a segment has room for an octet beside the options: where `t_maxseg` is the length of the options, or zero, a pass sends an empty segment and goes round again with nothing changed.
-/

namespace Reading.Tcp

open Reading.Kern

/-- The timestamp option goes into every segment that is not a SYN. -/
def stamps (c : Conn) : Prop :=
  c.tp.tfReqTstmp = true ∧ c.tp.tfNoopt = false ∧ (tcpOutflags c.tp.tState).rst = false ∧ c.tp.tfRcvdTstmp = true

instance (c : Conn) : Decidable (stamps c) := inferInstanceAs (Decidable (_ ∧ _))

/-- The length of the options after the handshake. -/
def optlen (c : Conn) : Nat := if stamps c then 12 else 0

/-- There is no room for an octet in a segment. -/
def cramped (c : Conn) : Prop := c.tp.tMaxseg = 0 ∨ stamps c ∧ c.tp.tMaxseg = 12

instance (c : Conn) : Decidable (cramped c) := inferInstanceAs (Decidable (_ ∨ _))

/-- A pass comes to `send` and gets as far as the data. -/
def sends (env : Env) (idle : Bool) (n : Nat) (c : Conn) : Prop :=
  wantsSend (outSettled c) idle (outPlan c).2 ∧ env.noMbuf n = false ∧ c.tp.tTemplate = true

instance (env : Env) (idle : Bool) (n : Nat) (c : Conn) : Decidable (sends env idle n c) :=
  inferInstanceAs (Decidable (_ ∧ _))

/-- The length of the data that a pass sends. -/
def passLen (c : Conn) : Int := outLen c.tp (outPlan c).2 (optlen c)

/-- More is to be sent after this segment. -/
def more (c : Conn) : Prop := outAvail c > c.tp.tMaxseg ∨ tooLong c.tp (outPlan c).2 (optlen c)

instance (c : Conn) : Decidable (more c) := inferInstanceAs (Decidable (_ ∨ _))

variable {env : Env} {idle : Bool} {n : Nat} {c : Conn}

/-! ### The length of a segment -/

theorem optlen_le (c : Conn) : optlen c ≤ 12 := by
  unfold optlen
  split <;> omega

theorem cramped_iff : cramped c ↔ c.tp.tMaxseg = 0 ∨ c.tp.tMaxseg = optlen c := by
  unfold cramped optlen
  split <;> simp_all

theorem planLen_eq (c : Conn) : (outPlan c).2.len = min (max (outAvail c) 0) c.tp.tMaxseg := rfl

/-- Beside the options there is room up to `t_maxseg`, and if they are longer than that any data fit. -/
theorem tooLong_iff (hmaxseg : c.tp.tMaxseg < 2 ^ 16) :
    tooLong c.tp (outPlan c).2 (optlen c) ↔
      optlen c ≤ c.tp.tMaxseg ∧ (c.tp.tMaxseg : Int) - optlen c < (outPlan c).2.len := by
  have hle := optlen_le c
  have hlen := planLen_eq c
  unfold tooLong
  rw [BitVec.toNat_sub, BitVec.toNat_ofNat, BitVec.toNat_ofNat]
  omega

/-- With room for an octet a pass that goes round sends at least one, and no more than the window admits. -/
theorem passLen_bounds (hmaxseg : c.tp.tMaxseg < 2 ^ 16) (hroom : ¬ cramped c) (hmore : more c) :
    1 ≤ passLen c ∧ passLen c < outAvail c := by
  rw [cramped_iff] at hroom
  have hlen := planLen_eq c
  unfold more at hmore
  unfold passLen outLen
  by_cases htoo : tooLong c.tp (outPlan c).2 (optlen c)
  · rw [if_pos htoo]
    rw [tooLong_iff hmaxseg] at htoo
    omega
  · rw [if_neg htoo]
    have havail := hmore.resolve_right htoo
    omega

theorem passLen_cramped (hmaxseg : c.tp.tMaxseg < 2 ^ 16) (hcramped : cramped c) (havail : 0 < outAvail c) :
    passLen c = 0 ∧ more c := by
  rw [cramped_iff] at hcramped
  have hlen := planLen_eq c
  unfold more passLen outLen
  by_cases htoo : tooLong c.tp (outPlan c).2 (optlen c)
  · rw [if_pos htoo]
    refine ⟨?_, .inr htoo⟩
    rw [tooLong_iff hmaxseg] at htoo
    omega
  · rw [if_neg htoo]
    rw [tooLong_iff hmaxseg] at htoo
    omega

/-! ### What a pass does when it goes round -/

/-- What the passes of one call have in common. -/
structure Tcpcb.Lasting where
  tState : TcpState
  sndUna : TcpSeq
  sndWnd : U32
  sndCwnd : U32
  tForce : Bool
  tMaxseg : Nat
  tfReqTstmp : Bool
  tfNoopt : Bool
  tfRcvdTstmp : Bool
  tTemplate : Bool

def Tcpcb.lasting (tp : Tcpcb) : Tcpcb.Lasting where
  tState := tp.tState
  sndUna := tp.sndUna
  sndWnd := tp.sndWnd
  sndCwnd := tp.sndCwnd
  tForce := tp.tForce
  tMaxseg := tp.tMaxseg
  tfReqTstmp := tp.tfReqTstmp
  tfNoopt := tp.tfNoopt
  tfRcvdTstmp := tp.tfRcvdTstmp
  tTemplate := tp.tTemplate

def Conn.lasting (c : Conn) : Tcpcb.Lasting × Sockbuf := (c.tp.lasting, c.so.soSnd)

theorem outRecord_lasting (tp : Tcpcb) (flags : Flags) (len : Int) : (outRecord tp flags len).lasting = tp.lasting := by
  unfold outRecord
  split <;> rfl

theorem outOptions_length (hsyn : (tcpOutflags c.tp.tState).syn = false) (mss : U32) :
    (outOptions env (outSettled c).tp (outPlan c).2.flags mss).2 = optlen c := by
  have hnosyn : (outPlan c).2.flags.syn = false := hsyn
  have hrst : (outPlan c).2.flags.rst = (tcpOutflags c.tp.tState).rst := rfl
  have hiff : ((outSettled c).tp.tfReqTstmp = true ∧ ¬ (outSettled c).tp.tfNoopt = true ∧ ¬ (outPlan c).2.flags.rst = true ∧
      (((outPlan c).2.flags.syn = true ∧ ¬ (outPlan c).2.flags.ack = true) ∨ (outSettled c).tp.tfRcvdTstmp = true)) ↔
      stamps c := by
    rw [hnosyn, hrst]
    simp only [outSettled, stamps, Bool.false_eq_true, false_and, false_or, Bool.not_eq_true]
  unfold outOptions optlen
  by_cases hstamps : stamps c
  · rw [if_pos hstamps, if_pos (hiff.mpr hstamps)]
    simp [hnosyn]
  · rw [if_neg hstamps, if_neg (mt hiff.mp hstamps)]
    simp [hnosyn]

theorem startSeq_eq_self (hsyn : (tcpOutflags c.tp.tState).syn = false) :
    startSeq (outSettled c) (outPlan c).2.flags = outSettled c := by
  have hnosyn : (outPlan c).2.flags.syn = false := hsyn
  unfold startSeq
  rw [hnosyn]
  rfl

theorem outPass_eq (env : Env) (idle : Bool) (n : Nat) {c : Conn} (hsyn : (tcpOutflags c.tp.tState).syn = false) :
    ∃ options, outPass env idle n c =
      if wantsSend (outSettled c) idle (outPlan c).2 then
        if env.noMbuf n then ({ outSettled c with tp := (outSettled c).tp.quench }, false)
        else match outData c.so.soSnd (outOff c.tp) (passLen c) with
        | none => ((outSettled c).panic .copyData, false)
        | some data =>
          if ¬ c.tp.tTemplate then ((outSettled c).panic .noTemplate, false)
          else outFill env n (outSettled c) (outFlags (outSettled c) (outPlan c).2 (optlen c)) options (passLen c) data
            (decide (more c))
      else if c.so.soSnd.sbCc ≠ 0 ∧ (outSettled c).tp.tRexmt = 0 ∧ (outSettled c).tp.tPersist = 0 then
        (setpersist { outSettled c with tp := { (outSettled c).tp with tRxtshift := 0 } }, false)
      else (outSettled c, false) := by
  have hnosyn : (outPlan c).2.flags.syn = false := hsyn
  have hoffer : outOffer env (outSettled c) (outPlan c).2.flags = (outSettled c, 0) := by
    unfold outOffer
    rw [if_neg (by rw [hnosyn]; simp)]
  have hmore : ((outPlan c).2.sendalot || decide (tooLong (outSettled c).tp (outPlan c).2 (optlen c))) =
      decide (more c) :=
    (Bool.decide_or (outAvail c > c.tp.tMaxseg) (tooLong c.tp (outPlan c).2 (optlen c))).symm
  refine ⟨(outOptions env (outSettled c).tp (outPlan c).2.flags 0).1, ?_⟩
  unfold outPass
  have hsettled : (outPlan c).1 = outSettled c := rfl
  dsimp only
  rw [hsettled]
  unfold outSend
  dsimp only
  rw [startSeq_eq_self hsyn, hoffer]
  dsimp only
  rw [outOptions_length hsyn, hmore]
  rfl

theorem outFill_taken (hip : env.ipOutput n = .ok) (c : Conn) (flags : Flags) (options : List TcpOption) (len : Int)
    (data : List Byte) (sendalot : Bool) :
    let after := outFill env n c flags options len data sendalot
    after.2 = sendalot ∧ after.1.lasting = c.lasting ∧
      after.1.tp.sndNxt = (outRecord (pullSndUp (resendFin c.tp flags)) flags len).sndNxt ∧
      after.1.sent = c.sent ++ [outSegment { c with tp := resendFin c.tp flags } flags options len data] := by
  have hlasting := outRecord_lasting (pullSndUp (resendFin c.tp flags)) flags len
  unfold outFill
  dsimp only
  generalize outRecord (pullSndUp (resendFin c.tp flags)) flags len = tp at hlasting
  unfold outDeliver
  rw [hip]
  exact ⟨rfl, congrArg (·, c.so.soSnd) hlasting, rfl, rfl⟩

theorem outPass_again_iff (hip : env.ipOutput n = .ok) (hsyn : (tcpOutflags c.tp.tState).syn = false) :
    (outPass env idle n c).2 = true ↔
      sends env idle n c ∧ (∃ data, outData c.so.soSnd (outOff c.tp) (passLen c) = some data) ∧ more c := by
  obtain ⟨options, heq⟩ := outPass_eq env idle n hsyn
  rw [heq]
  unfold sends
  by_cases hwants : wantsSend (outSettled c) idle (outPlan c).2
  · rw [if_pos hwants]
    cases hmbuf : env.noMbuf n with
    | true => simp
    | false =>
      simp only [Bool.false_eq_true, if_false]
      cases hdata : outData c.so.soSnd (outOff c.tp) (passLen c) with
      | none => simp
      | some data =>
        dsimp only
        cases htemplate : c.tp.tTemplate with
        | false => simp
        | true =>
          simp only [not_true_eq_false, if_false]
          rw [(outFill_taken hip _ _ _ _ _ _).1, decide_eq_true_eq]
          simp [hwants]
  · rw [if_neg hwants]
    refine iff_of_false ?_ fun h => hwants h.1.1
    split <;> exact Bool.false_ne_true

/-- A pass that goes round has sent one segment with the octets it has planned. -/
theorem outPass_again (hip : env.ipOutput n = .ok) (hsyn : (tcpOutflags c.tp.tState).syn = false)
    (hagain : (outPass env idle n c).2 = true) :
    ∃ flags ti, (tooLong c.tp (outPlan c).2 (optlen c) → flags.fin = false) ∧ flags.syn = false ∧
      (outPass env idle n c).1.sent = c.sent ++ [ti] ∧ ti.tiLen = (passLen c).toNat ∧
      (outPass env idle n c).1.lasting = c.lasting ∧
      (outPass env idle n c).1.tp.sndNxt =
        (outRecord (pullSndUp (resendFin (outSettled c).tp flags)) flags (passLen c)).sndNxt := by
  obtain ⟨⟨hwants, hmbuf, htemplate⟩, ⟨data, hdata⟩, hmore⟩ := (outPass_again_iff hip hsyn).mp hagain
  obtain ⟨options, heq⟩ := outPass_eq env idle n hsyn
  rw [if_pos hwants, hmbuf, hdata, htemplate] at heq
  simp only [Bool.false_eq_true, if_false, not_true_eq_false] at heq
  obtain ⟨-, hlasting, hnxt, hsent⟩ := outFill_taken hip (outSettled c)
    (outFlags (outSettled c) (outPlan c).2 (optlen c)) options (passLen c) data (decide (more c))
  rw [heq]
  refine ⟨outFlags (outSettled c) (outPlan c).2 (optlen c), _, ?_, hsyn, hsent, rfl, hlasting, hnxt⟩
  intro htoo
  have hlong : tooLong (outSettled c).tp (outPlan c).2 (optlen c) := htoo
  simp [outFlags, hlong]

theorem outRecord_passes {tp : Tcpcb} {flags : Flags} (len : Int) (hsyn : flags.syn = false)
    (htransmit : tp.tForce = false ∨ tp.tPersist = 0) :
    ∃ e : Int, 0 ≤ e ∧ e ≤ 1 ∧ (flags.fin = false → e = 0) ∧
      (outRecord (pullSndUp (resendFin tp flags)) flags len).sndNxt = tp.sndNxt + BitVec.ofInt 32 (len + e) := by
  have htransmit' : (pullSndUp (resendFin tp flags)).tForce = false ∨ (pullSndUp (resendFin tp flags)).tPersist = 0 := htransmit
  unfold outRecord
  rw [if_pos htransmit']
  change ∃ e : Int, _ ∧ _ ∧ _ ∧ (resendFin tp flags).sndNxt + (if flags.syn then 1 else 0) + (if flags.fin then 1 else 0) +
    BitVec.ofInt 32 len = _
  rw [hsyn]
  unfold resendFin
  dsimp only
  cases hfin : flags.fin with
  | false =>
    refine ⟨0, le_refl 0, by decide, fun _ => rfl, ?_⟩
    simp
  | true =>
    by_cases hagain : tp.tfSentfin = true ∧ tp.sndNxt = tp.sndMax
    · refine ⟨0, le_refl 0, by decide, nofun, ?_⟩
      rw [if_pos ⟨rfl, hagain⟩]
      simp
    · refine ⟨1, by decide, le_refl 1, nofun, ?_⟩
      rw [if_neg fun h => hagain h.2, BitVec.ofInt_add]
      simp only [Bool.false_eq_true, if_false, if_true]
      rw [add_zero, BitVec.add_assoc, BitVec.add_comm 1]
      rfl

/-- What is left to send after `d` octets have been passed. -/
theorem outAvail_after {c' : Conn} {d : Int} (hlasting : c'.lasting = c.lasting)
    (hnxt : c'.tp.sndNxt = c.tp.sndNxt + BitVec.ofInt 32 d) (hpos : 0 ≤ d) (hle : d ≤ outAvail c + 1) :
    outAvail c' = outAvail c - d := by
  have hwnd : c'.tp.sndWnd = c.tp.sndWnd := congrArg (·.1.sndWnd) hlasting
  have hcwnd : c'.tp.sndCwnd = c.tp.sndCwnd := congrArg (·.1.sndCwnd) hlasting
  have hforce : c'.tp.tForce = c.tp.tForce := congrArg (·.1.tForce) hlasting
  have huna : c'.tp.sndUna = c.tp.sndUna := congrArg (·.1.sndUna) hlasting
  have hsnd : c'.so.soSnd = c.so.soSnd := congrArg (·.2) hlasting
  have hprobing : probing c'.tp ↔ probing c.tp := by
    unfold probing
    rw [hwnd, hcwnd, hforce]
  have hwin : outWin c'.tp = outWin c.tp := by
    unfold outWin
    rw [hwnd, hcwnd]
    exact if_congr hprobing rfl rfl
  have hhi : outAvail c < 2 ^ 31 := BitVec.toInt_lt
  have hlo : -2 ^ 31 ≤ outAvail c := BitVec.le_toInt _
  have hoff : ∀ tp : Tcpcb, BitVec.ofInt 32 (outOff tp) = tp.sndNxt - tp.sndUna := fun tp => BitVec.ofInt_toInt
  have hbase : umin c.so.soSnd.sbCc (outWin c.tp) - BitVec.ofInt 32 (outOff c.tp) =
      0 + BitVec.ofInt 32 (outAvail c) := by
    rw [zero_add, outAvail, BitVec.ofInt_toInt]
  have hmoved : umin c'.so.soSnd.sbCc (outWin c'.tp) - BitVec.ofInt 32 (outOff c'.tp) =
      (0 + BitVec.ofInt 32 (outAvail c)) - (0 + BitVec.ofInt 32 d) := by
    rw [← hbase, hsnd, hwin, hoff, hoff, hnxt, huna]
    ring
  rw [outAvail, hmoved]
  exact seqDiff_at 0 (by omega) (by omega)

/-- The octets of a pass have not been sent by a pass before: it sends at least one, and `snd_nxt` passes them. -/
def SendsNew (c c' : Conn) : Prop :=
  ∃ ti, c'.sent = c.sent ++ [ti] ∧ 0 < ti.tiLen ∧ ti.tiLen ≤ seqDiff c'.tp.sndNxt c.tp.sndNxt

theorem outAvail_probing (hprobing : probing c.tp) (hoff : 0 ≤ outOff c.tp) : outAvail c ≤ 1 := by
  have hlt : outOff c.tp < 2 ^ 31 := BitVec.toInt_lt
  have hone : ∃ u : Int, 0 ≤ u ∧ u ≤ 1 ∧ umin c.so.soSnd.sbCc 1 = 0 + BitVec.ofInt 32 u := by
    unfold umin
    split
    · rename_i hless
      have hzero : c.so.soSnd.sbCc = 0 := by
        apply BitVec.eq_of_toNat_eq
        have : c.so.soSnd.sbCc.toNat < 1 := hless
        change c.so.soSnd.sbCc.toNat = 0
        omega
      exact ⟨0, le_refl 0, by decide, by rw [hzero]; rfl⟩
    · exact ⟨1, by decide, le_refl 1, rfl⟩
  obtain ⟨u, hlow, hhigh, hu⟩ := hone
  have hwin : outWin c.tp = 1 := if_pos hprobing
  have hzero : BitVec.ofInt 32 (outOff c.tp) = 0 + BitVec.ofInt 32 (outOff c.tp) := (zero_add _).symm
  have havail : outAvail c = u - outOff c.tp := by
    rw [outAvail, hwin, hu, hzero]
    exact seqDiff_at 0 (by omega) (by omega)
  omega

/-- With a closed window in persist state there is no more than the octet of the probe, so that no pass goes round. -/
theorem transmitting (hmaxseg : c.tp.tMaxseg < 2 ^ 16) (hroom : ¬ cramped c) (hmore : more c) (hoff : 0 ≤ outOff c.tp) :
    (outSettled c).tp.tForce = false ∨ (outSettled c).tp.tPersist = 0 := by
  by_cases hforce : c.tp.tForce = true
  · by_cases hclosed : umin c.tp.sndWnd c.tp.sndCwnd = 0
    · have hone := outAvail_probing ⟨hforce, hclosed⟩ hoff
      have hlen := passLen_bounds hmaxseg hroom hmore
      omega
    · exact .inr (if_pos ⟨hforce, hclosed⟩)
  · exact .inl (Bool.not_eq_true _ ▸ hforce)

/-- A pass that goes round with room in a segment sends something new, and leaves less to send. -/
theorem again_sendsNew (hip : env.ipOutput n = .ok) (hsyn : (tcpOutflags c.tp.tState).syn = false)
    (hmaxseg : c.tp.tMaxseg < 2 ^ 16) (hroom : ¬ cramped c) (hagain : (outPass env idle n c).2 = true) :
    SendsNew c (outPass env idle n c).1 ∧ (outPass env idle n c).1.lasting = c.lasting ∧
      0 ≤ outAvail (outPass env idle n c).1 ∧ outAvail (outPass env idle n c).1 < outAvail c := by
  obtain ⟨-, ⟨data, hdata⟩, hmore⟩ := (outPass_again_iff hip hsyn).mp hagain
  obtain ⟨hone, hlt⟩ := passLen_bounds hmaxseg hroom hmore
  have hoff : 0 ≤ outOff c.tp := by
    unfold outData copyData at hdata
    rw [if_neg (by omega)] at hdata
    split at hdata
    · rename_i hrange
      exact hrange.1
    · cases hdata
  obtain ⟨flags, ti, -, hnosyn, hsent, hlen, hlasting, hnxt⟩ := outPass_again hip hsyn hagain
  obtain ⟨e, he, he', -, hpasses⟩ := outRecord_passes (passLen c) hnosyn (transmitting hmaxseg hroom hmore hoff)
  have hopen : ¬ shutBehind c := fun h => by
    have := h.1
    omega
  have hsettled : (outSettled c).tp.sndNxt = c.tp.sndNxt := if_neg hopen
  rw [hpasses, hsettled] at hnxt
  have hhi : outAvail c < 2 ^ 31 := BitVec.toInt_lt
  refine ⟨⟨ti, hsent, by omega, ?_⟩, hlasting, ?_⟩
  · have hzero : c.tp.sndNxt = c.tp.sndNxt + BitVec.ofInt 32 0 := by simp
    rw [hnxt]
    nth_rewrite 2 [hzero]
    rw [seqDiff_at _ (by omega) (by omega)]
    omega
  · rw [outAvail_after hlasting hnxt (by omega) (by omega)]
    omega

/-! ### The loop -/

/-- The loop comes to its pass `n` in the state `c'`. -/
inductive Reaches (env : Env) (idle : Bool) (c : Conn) : Nat → Conn → Prop
  | start : Reaches env idle c 0 c
  | again {n : Nat} {c' : Conn} (h : Reaches env idle c n c') (hagain : (outPass env idle n c').2 = true) :
      Reaches env idle c (n + 1) (outPass env idle n c').1

theorem stamps_congr {c' : Conn} (h : c'.lasting = c.lasting) : stamps c' ↔ stamps c := by
  have hstate : c'.tp.tState = c.tp.tState := congrArg (·.1.tState) h
  have hreq : c'.tp.tfReqTstmp = c.tp.tfReqTstmp := congrArg (·.1.tfReqTstmp) h
  have hnoopt : c'.tp.tfNoopt = c.tp.tfNoopt := congrArg (·.1.tfNoopt) h
  have hrcvd : c'.tp.tfRcvdTstmp = c.tp.tfRcvdTstmp := congrArg (·.1.tfRcvdTstmp) h
  unfold stamps
  rw [hstate, hreq, hnoopt, hrcvd]

theorem cramped_congr {c' : Conn} (h : c'.lasting = c.lasting) : cramped c' ↔ cramped c := by
  have hmaxseg : c'.tp.tMaxseg = c.tp.tMaxseg := congrArg (·.1.tMaxseg) h
  unfold cramped
  rw [stamps_congr h, hmaxseg]

/-- As long as there is room in a segment every pass before has left less to send. -/
theorem Reaches.bounded (hip : ∀ n, env.ipOutput n = .ok) (hsyn : (tcpOutflags c.tp.tState).syn = false)
    (hmaxseg : c.tp.tMaxseg < 2 ^ 16) (hroom : ¬ cramped c) {c' : Conn} (h : Reaches env idle c n c') :
    c'.lasting = c.lasting ∧ (n = 0 ∨ 0 ≤ outAvail c' ∧ outAvail c' + n ≤ outAvail c) := by
  induction h with
  | start => exact ⟨rfl, .inl rfl⟩
  | @again n c' h hagain ih =>
    obtain ⟨hlasting, hbound⟩ := ih
    have hstate : c'.tp.tState = c.tp.tState := congrArg (·.1.tState) hlasting
    have hsyn' : (tcpOutflags c'.tp.tState).syn = false := by rw [hstate]; exact hsyn
    have hmaxseg' : c'.tp.tMaxseg < 2 ^ 16 := by
      rw [show c'.tp.tMaxseg = c.tp.tMaxseg from congrArg (·.1.tMaxseg) hlasting]
      exact hmaxseg
    obtain ⟨-, hlasting', hnonneg, hless⟩ :=
      again_sendsNew (hip n) hsyn' hmaxseg' (mt (cramped_congr hlasting).mp hroom) hagain
    refine ⟨hlasting'.trans hlasting, .inr ⟨hnonneg, ?_⟩⟩
    rcases hbound with rfl | ⟨-, hbound⟩
    · cases h
      push_cast
      omega
    · push_cast
      omega

theorem outPass_once (hip : env.ipOutput n = .ok) (havail : outAvail c ≤ 0) : (outPass env idle n c).2 = false := by
  have hlen : (outPlan c).2.len = 0 := by
    have := planLen_eq c
    omega
  have hfits : ∀ (tp : Tcpcb) (len : Nat), ¬ tooLong tp (outPlan c).2 len := by
    intro tp len
    unfold tooLong
    omega
  have hall : (outPlan c).2.sendalot = false := by
    change decide (outAvail c > c.tp.tMaxseg) = false
    rw [decide_eq_false_iff_not]
    omega
  unfold outPass
  dsimp only
  split
  · unfold outSend
    dsimp only
    split
    · rfl
    · split
      · rfl
      · split
        · rfl
        · rw [(outFill_taken hip _ _ _ _ _ _).1, hall, decide_eq_false (hfits _ _)]
          rfl
  · split
    · rfl
    · rfl

theorem outAvail_of_empty (hempty : c.so.soSnd.sbMb = []) (hoff : 0 ≤ outOff c.tp) : outAvail c ≤ 0 := by
  have hlt : outOff c.tp < 2 ^ 31 := BitVec.toInt_lt
  have hnone : umin c.so.soSnd.sbCc (outWin c.tp) = 0 + BitVec.ofInt 32 0 := by
    have hcc : c.so.soSnd.sbCc = 0 := by
      unfold Sockbuf.sbCc
      rw [hempty]
      rfl
    unfold umin
    rw [hcc]
    split
    · rfl
    · rename_i hle
      apply BitVec.eq_of_toNat_eq
      have : ¬ 0 < (outWin c.tp).toNat := hle
      change (outWin c.tp).toNat = 0
      omega
  have hzero : BitVec.ofInt 32 (outOff c.tp) = 0 + BitVec.ofInt 32 (outOff c.tp) := (zero_add _).symm
  have havail : outAvail c = 0 - outOff c.tp := by
    rw [outAvail, hnone, hzero]
    exact seqDiff_at 0 (by omega) (by omega)
  omega

theorem Reaches.eq_start {c' : Conn} (h : Reaches env idle c n c') (honce : (outPass env idle 0 c).2 = false) :
    n = 0 ∧ c' = c := by
  induction h with
  | start => exact ⟨rfl, rfl⟩
  | again h hagain ih =>
    obtain ⟨rfl, rfl⟩ := ih
    rw [honce] at hagain
    cases hagain

theorem again_of_cramped (hip : env.ipOutput n = .ok) (hsyn : (tcpOutflags c.tp.tState).syn = false)
    (hmaxseg : c.tp.tMaxseg < 2 ^ 16) (havail : 0 < outAvail c) (hcramped : cramped c) (hsends : sends env idle n c) :
    (outPass env idle n c).2 = true ∧ ¬ SendsNew c (outPass env idle n c).1 := by
  obtain ⟨hlen, hmore⟩ := passLen_cramped hmaxseg hcramped havail
  have hdata : outData c.so.soSnd (outOff c.tp) (passLen c) = some [] := if_pos hlen
  have hagain := (outPass_again_iff hip hsyn).mpr ⟨hsends, ⟨[], hdata⟩, hmore⟩
  refine ⟨hagain, ?_⟩
  rintro ⟨ti, hsent, hpos, -⟩
  obtain ⟨-, ti', -, -, hsent', hlen', -⟩ := outPass_again hip hsyn hagain
  obtain rfl : ti = ti' := by simpa using hsent.symm.trans hsent'
  rw [hlen'] at hpos
  omega

/-- The loop ends, and every pass that goes round has sent something new, exactly if it does not come to a segment without room. -/
theorem again_terminates_iff (env : Env) (idle : Bool) (c : Conn) (hip : ∀ n, env.ipOutput n = .ok)
    (hmaxseg : c.tp.tMaxseg < 2 ^ 16)
    (hsyn : (tcpOutflags c.tp.tState).syn = true → c.so.soSnd.sbMb = [] ∧ 0 ≤ outOff c.tp) :
    ((∃ N, ∀ n c', Reaches env idle c n c' → n ≤ N) ∧
        ∀ n c', Reaches env idle c n c' → (outPass env idle n c').2 = true → SendsNew c' (outPass env idle n c').1) ↔
      ¬ (0 < outAvail c ∧ cramped c ∧ sends env idle 0 c) := by
  have hnosyn : 0 < outAvail c → (tcpOutflags c.tp.tState).syn = false := by
    intro havail
    rw [← Bool.not_eq_true]
    intro hset
    obtain ⟨hempty, hoff⟩ := hsyn hset
    have := outAvail_of_empty hempty hoff
    omega
  constructor
  · rintro ⟨-, hnew⟩ ⟨havail, hcramped, hsends⟩
    obtain ⟨hagain, hnone⟩ := again_of_cramped (hip 0) (hnosyn havail) hmaxseg havail hcramped hsends
    exact hnone (hnew 0 c .start hagain)
  · intro hnot
    by_cases hround : (outPass env idle 0 c).2 = true
    · -- the first pass goes round, so that there is room
      have havail : 0 < outAvail c := by
        by_contra hnone
        rw [outPass_once (hip 0) (by omega)] at hround
        cases hround
      have hfirst := hnosyn havail
      have hroom : ¬ cramped c := fun hcramped =>
        hnot ⟨havail, hcramped, ((outPass_again_iff (hip 0) hfirst).mp hround).1⟩
      refine ⟨⟨(outAvail c).toNat, fun n c' h => ?_⟩, fun n c' h hagain => ?_⟩
      · have hbound := (h.bounded hip hfirst hmaxseg hroom).2
        omega
      · have hlasting := (h.bounded hip hfirst hmaxseg hroom).1
        have hstate : c'.tp.tState = c.tp.tState := congrArg (·.1.tState) hlasting
        have hseg : c'.tp.tMaxseg = c.tp.tMaxseg := congrArg (·.1.tMaxseg) hlasting
        exact (again_sendsNew (hip n) (by rw [hstate]; exact hfirst) (by rw [hseg]; exact hmaxseg)
          (mt (cramped_congr hlasting).mp hroom) hagain).1
    · have honce : (outPass env idle 0 c).2 = false := by simpa using hround
      refine ⟨⟨0, fun n c' h => le_of_eq (h.eq_start honce).1⟩, fun n c' h hagain => ?_⟩
      obtain ⟨rfl, rfl⟩ := h.eq_start honce
      exact absurd hagain hround

/-- With full segments that have no room for an octet the loop never ends. -/
theorem loop_forever (hip : ∀ n, env.ipOutput n = .ok) (hmbuf : ∀ n, env.noMbuf n = false)
    (hsyn : (tcpOutflags c.tp.tState).syn = false) (htemplate : c.tp.tTemplate = true) (hstamps : stamps c)
    (hmaxseg : c.tp.tMaxseg = 12) (havail : 12 ≤ outAvail c) (n : Nat) : ∃ c', Reaches env idle c n c' := by
  suffices h : ∃ c', Reaches env idle c n c' ∧ c'.lasting = c.lasting ∧ outAvail c' = outAvail c from
    h.imp fun c' h => h.1
  induction n with
  | zero => exact ⟨c, .start, rfl, rfl⟩
  | succ n ih =>
    obtain ⟨c', hreaches, hlasting, hsame⟩ := ih
    have hstate : c'.tp.tState = c.tp.tState := congrArg (·.1.tState) hlasting
    have hseg : c'.tp.tMaxseg = 12 := (congrArg (·.1.tMaxseg) hlasting).trans hmaxseg
    have htemplate' : c'.tp.tTemplate = true := (congrArg (·.1.tTemplate) hlasting).trans htemplate
    have hsyn' : (tcpOutflags c'.tp.tState).syn = false := by rw [hstate]; exact hsyn
    have hcramped : cramped c' := .inr ⟨(stamps_congr hlasting).mpr hstamps, hseg⟩
    have hfull : (outPlan c').2.len = c'.tp.tMaxseg := by
      rw [planLen_eq, hsame, hseg]
      omega
    have hsends : sends env idle n c' := by
      refine ⟨.inl ⟨?_, .inl hfull⟩, hmbuf n, htemplate'⟩
      rw [hfull, hseg]
      decide
    obtain ⟨hagain, -⟩ := again_of_cramped (hip n) hsyn' (by rw [hseg]; decide) (by omega) hcramped hsends
    have hlen := (passLen_cramped (by rw [hseg]; decide) hcramped (by omega)).1
    have hlong : tooLong c'.tp (outPlan c').2 (optlen c') := by
      rw [tooLong_iff (by rw [hseg]; decide), hfull, hseg, optlen, if_pos ((stamps_congr hlasting).mpr hstamps)]
      decide
    obtain ⟨flags, ti, hfin, hnosyn, -, -, hlasting', hnxt⟩ := outPass_again (hip n) hsyn' hagain
    have hsettled : (outSettled c').tp.sndNxt = c'.tp.sndNxt := if_neg fun h => by
      have := h.1
      omega
    have hstays : (outPass env idle n c').1.tp.sndNxt = c'.tp.sndNxt + BitVec.ofInt 32 0 := by
      rw [hnxt, hlen, ← hsettled]
      by_cases htransmit : (outSettled c').tp.tForce = false ∨ (outSettled c').tp.tPersist = 0
      · obtain ⟨e, -, -, hnone, hpasses⟩ := outRecord_passes 0 hnosyn htransmit
        rw [hpasses, hnone (hfin hlong)]
        rfl
      · have hpersist : ¬ ((pullSndUp (resendFin (outSettled c').tp flags)).tForce = false ∨
            (pullSndUp (resendFin (outSettled c').tp flags)).tPersist = 0) := htransmit
        have hkept := (outRecord_persist flags 0 hpersist).1
        have hresend : (pullSndUp (resendFin (outSettled c').tp flags)).sndNxt = (outSettled c').tp.sndNxt :=
          if_neg fun h => by rw [hfin hlong] at h; cases h.1
        rw [hkept, hresend]
        simp
    refine ⟨_, hreaches.again hagain, hlasting'.trans hlasting, ?_⟩
    rw [outAvail_after hlasting' hstays (le_refl 0) (by omega), hsame]
    omega

/-- With as many passes as the loop makes the fuel does not matter. -/
theorem outPasses_of_bounded {N : Nat} (h : ∀ n c', Reaches env idle c n c' → n ≤ N) (more : Nat) :
    outPasses env idle (N + 1 + more) 0 c = outPasses env idle (N + 1) 0 c := by
  suffices hfrom : ∀ k n c', Reaches env idle c n c' → n + k = N →
      outPasses env idle (k + 1 + more) n c' = outPasses env idle (k + 1) n c' from hfrom N 0 c .start (Nat.zero_add N)
  intro k
  induction k with
  | zero =>
    intro n c' hreaches hn
    have hlast : ¬ (outPass env idle n c').2 = true := fun hagain => by
      have := h _ _ (hreaches.again hagain)
      omega
    rw [Nat.zero_add, Nat.add_comm 1 more, outPasses, outPasses, if_neg hlast, if_neg hlast]
  | succ k ih =>
    intro n c' hreaches hn
    rw [show k + 1 + 1 + more = (k + 1 + more) + 1 by omega, outPasses, outPasses]
    split
    · rename_i hagain
      exact ih _ _ (hreaches.again hagain) (by omega)
    · rfl

/-! ### A segment size of twelve octets -/

/-- A connection is opened with timestamps, and its user asks for segments of twelve octets. -/
def crampingRun : List Action :=
  [.request { fuel := 2, iss := 1000 } .connect,
    .segment { fuel := 2 }
      { tiSeq := 500, tiAck := 1001, tiFlags := { syn := true, ack := true }, tiWin := 1000,
        options := [.timestamp 7 0] },
    .request { fuel := 2 } (.maxseg 12)]

def crampedSession : Session := Transition.run Session.step { conn := tcpAttach {} } crampingRun

/-- The connection when `tcp_output` is called for twelve octets that the user sends. -/
def crampedConn : Conn := appendSnd crampedSession.conn { chain := [List.replicate 12 7] }

theorem again_never_ends :
    Session.Init { conn := tcpAttach {} } ∧
      Transition.Along Session.step Session.Permits { conn := tcpAttach {} } crampingRun ∧
      (∀ n, ∃ c, Reaches {} true crampedConn n c) ∧
      (outPass {} true 0 crampedConn).2 = true ∧ ¬ SendsNew crampedConn (outPass {} true 0 crampedConn).1 := by
  have hsyn : (tcpOutflags crampedConn.tp.tState).syn = false := by decide +kernel
  have hstamps : stamps crampedConn := by decide +kernel
  have hmaxseg : crampedConn.tp.tMaxseg = 12 := by decide +kernel
  have havail : outAvail crampedConn = 12 := by decide +kernel
  have hsends : sends {} true 0 crampedConn := by decide +kernel
  have hpermitted : Transition.Along Session.step Session.Permits { conn := tcpAttach {} } crampingRun := by
    refine ⟨rfl, fun h => absurd h ?_, trivial, trivial⟩
    decide +kernel
  refine ⟨.attach, hpermitted, ?_, ?_⟩
  · exact loop_forever (fun _ => rfl) (fun _ => rfl) hsyn (by decide +kernel) hstamps hmaxseg (by omega)
  · exact again_of_cramped rfl hsyn (by omega) (by omega) (.inr ⟨hstamps, hmaxseg⟩) hsends

/-- The same with segments of thirteen octets, in which one octet fits beside the timestamp. -/
def narrowConn : Conn :=
  appendSnd (Transition.run Session.step { conn := tcpAttach {} } (crampingRun.take 2 ++ [.request { fuel := 2 } (.maxseg 13)])).conn
    { chain := [List.replicate 12 7] }

/-- The twelve octets go out one by one. -/
theorem again_terminates_iff_narrowConn :
    outAvail narrowConn = 12 ∧ (outPass {} true 0 narrowConn).2 = true ∧
      (∃ N, ∀ n c, Reaches {} true narrowConn n c → n ≤ N) ∧
        ∀ n c, Reaches {} true narrowConn n c → (outPass {} true n c).2 = true → SendsNew c (outPass {} true n c).1 := by
  have hsyn : (tcpOutflags narrowConn.tp.tState).syn = false := by decide +kernel
  have hroom : ¬ cramped narrowConn := by decide +kernel
  refine ⟨by decide +kernel, by decide +kernel,
    (again_terminates_iff {} true narrowConn (fun _ => rfl) (by decide +kernel) ?_).mpr fun h => hroom h.2.1⟩
  rw [hsyn]
  exact fun h => Bool.noConfusion h

end Reading.Tcp
