import Reading.Tcp.LedgerInput
import Reading.Tcp.Persist

/-!
# The send sequence space over runs

In every run whose forced outputs are not made for a stale FIN the numbers `snd_una`, `snd_nxt` and `snd_max` are in order, and what is between them is accounted for. What opens a connection, ends its send side, or closes it in `LAST_ACK`, is then a received ACK: of the SYN, and of a number at which a FIN was sent, unless the ACK is one that `tcp_input` mistakes.

There are two mistakes. `SYN_RECEIVED` accepts an ACK of nothing. And a connection that is closed before its SYN is acknowledged is in `FIN_WAIT_1` with an empty buffer, where an ACK of the SYN counts as one of the FIN.
-/

namespace Reading.Tcp

open Reading.Kern
open Reading.Lib

/-! ### Timers -/

section Timers

variable {k : Nat} {o : SndSide} {opens ends closes : Prop} {c : Conn} (env : Env)

theorem rexmtTimeout_moved (h : Moved k o opens ends closes c) (hcloses : closes) :
    Moved k o opens ends closes (rexmtTimeout env c) := by
  unfold rexmtTimeout
  dsimp only
  split
  · have hgiven : Moved k o opens ends closes { c with tp := { c.tp with tRxtshift := tcpMaxrxtshift } } :=
      h.settle rfl rfl
    exact hgiven.drop env _ hcloses
  · refine Moved.output env ⟨?_, h.calm, h.established, h.ended, h.gone⟩
    refine h.ledger.imp_right fun ⟨a, b, hledger⟩ => ⟨0, b, ?_⟩
    have hback := hledger.withNxt (Nat.zero_le b)
    rw [BitVec.add_zero] at hback
    exact hback

/-- A forced output for a FIN that is not stale. -/
theorem forcedOutput_moved (h : Moved k o opens ends closes c) (hfresh : c.gone = false → ¬ c.snd.Stale) :
    Moved k o opens ends closes (forcedOutput env c) := by
  obtain ⟨d, hd⟩ : ∃ d : Conn, d = { c with tp := { c.tp with tForce := true } } := ⟨_, rfl⟩
  have hsnd : d.snd = c.snd := by rw [hd]; rfl
  have hout : forcedOutput env c =
      { tcpOutput env d with tp := { (tcpOutput env d).tp with tForce := false } } := by
    rw [hd]
    rfl
  have hkept := tcpOutput_kept env d
  have hstate : (tcpOutput env d).tp.tState = c.tp.tState :=
    (congrArg (·.1.tState) hkept :).trans (congrArg SndSide.tState hsnd)
  have hgone : (tcpOutput env d).gone = c.gone := (congrArg (·.2.2) hkept :).trans (congrArg SndSide.gone hsnd)
  rw [hout]
  refine ⟨?_, rfl, fun hcase => h.established (hstate ▸ hcase), fun hcase => h.ended (hstate ▸ hcase),
    fun hcase => h.gone (hgone ▸ hcase)⟩
  cases hlive : c.gone with
  | true => exact .inl (hgone.trans hlive)
  | false =>
    rcases h.ledger with hnot | ⟨a, b, hledger⟩
    · rw [hlive] at hnot
      cases hnot
    · rw [← hsnd] at hledger
      have hfresh' : Fresh d := by
        intro _
        rw [hsnd]
        exact hfresh hlive
      obtain ⟨a', b', -, hledger'⟩ := tcpOutput_ledger env hledger hfresh'
      exact .inr ⟨a', b', hledger'⟩

theorem persistTimeout_moved (h : Moved k o opens ends closes c) (hcloses : closes)
    (hfresh : c.gone = false → ¬ c.snd.Stale) : Moved k o opens ends closes (persistTimeout env c) := by
  unfold persistTimeout
  split
  · exact h.drop env _ hcloses
  · refine forcedOutput_moved env ?_ ?_
    · exact h.settle (setpersist_snd c) (setpersist_timed c).1
    · rw [setpersist_snd]
      exact hfresh

theorem keepTimeout_moved (h : Moved k o opens ends closes c) (hcloses : closes) :
    Moved k o opens ends closes (keepTimeout env c) := by
  unfold keepTimeout
  split
  · exact h.drop env _ hcloses
  · split
    · split
      · exact h.drop env _ hcloses
      · exact (h.respond _ _ _).settle rfl rfl
    · exact h.settle rfl rfl

theorem msl2Timeout_moved (h : Moved k o opens ends closes c) (hcloses : closes) :
    Moved k o opens ends closes (msl2Timeout c) := by
  unfold msl2Timeout
  split
  · exact h.settle rfl rfl
  · exact h.close hcloses

/-- One timer; the persist timer must not go off for a stale FIN. -/
theorem countDown_moved (h : Moved k o opens ends closes c) (hcloses : closes) (t : Timer)
    (hfresh : t = .persist → c.tp.tPersist = 1 → c.gone = false → ¬ c.snd.Stale) :
    Moved k o opens ends closes (countDown env c t) := by
  have hset : ∀ n, Moved k o opens ends closes { c with tp := c.tp.setTimer n t } := by
    intro n
    cases t <;> exact h.settle rfl rfl
  unfold countDown
  split
  · exact h
  · rename_i hgo
    rw [not_or] at hgo
    dsimp only
    split
    · rename_i hzero
      cases t with
      | rexmt => exact rexmtTimeout_moved env (hset _) hcloses
      | persist =>
        have hlast : c.tp.tPersist - 1 = 0 := hzero
        exact persistTimeout_moved env (hset _) hcloses (hfresh rfl (by omega))
      | keep => exact keepTimeout_moved env (hset _) hcloses
      | msl2 => exact msl2Timeout_moved (hset _) hcloses
    · exact hset _

/-- The retransmit timer comes before the persist timer: where it does something, the persist timer does not go off at once. -/
theorem countDown_rexmt_persist (h : c.Exclusive) (hlast : (countDown env c .rexmt).tp.tPersist = 1) :
    (countDown env c .rexmt).snd = c.snd ∧ c.tp.tPersist = 1 := by
  unfold countDown at hlast ⊢
  split
  · rename_i hstop
    rw [if_pos hstop] at hlast
    exact ⟨rfl, hlast⟩
  · rename_i hgo
    rw [if_neg hgo] at hlast
    have hpersist : c.tp.tPersist = 0 := h.1.resolve_left fun hzero => hgo (.inr hzero)
    exfalso
    dsimp only at hlast
    split at hlast
    · have htimed : c.tp.Timed (rexmtTimeout env { c with tp := c.tp.setTimer (c.tp.timer .rexmt - 1) .rexmt }).tp := by
        unfold rexmtTimeout
        dsimp only
        split
        · unfold tcpDrop
          dsimp only
          split
          · exact tcpOutput_timed env { c with tp := { c.tp with
              tState := .closed, tRexmt := c.tp.tRexmt - 1, tRxtshift := tcpMaxrxtshift } }
          · exact .refl c.tp
        · exact tcpOutput_timed env _
      have hlast' : (rexmtTimeout env { c with tp := c.tp.setTimer (c.tp.timer .rexmt - 1) .rexmt }).tp.tPersist = 1 :=
        hlast
      rcases htimed.2 with hsame | hzero | htwo
      · omega
      · omega
      · omega
    · have hsame : c.tp.tPersist = 1 := hlast
      omega

theorem tcpSlowtimo_moved (h : Moved k o opens ends closes c) (hcloses : closes) (hexclusive : c.Exclusive)
    (hfresh : c.tp.tPersist = 1 → ¬ c.snd.Stale) : Moved k o opens ends closes (tcpSlowtimo env c) := by
  unfold tcpSlowtimo
  split
  · exact h
  · have hrexmt : Moved k o opens ends closes (countDown env c .rexmt) :=
      countDown_moved env h hcloses .rexmt fun hcase => by cases hcase
    have hpersist : Moved k o opens ends closes (countDown env (countDown env c .rexmt) .persist) := by
      refine countDown_moved env hrexmt hcloses .persist fun _ hlast _ => ?_
      obtain ⟨hsnd, hone⟩ := countDown_rexmt_persist env hexclusive hlast
      rw [hsnd]
      exact hfresh hone
    have hkeep := countDown_moved env hpersist hcloses .keep fun hcase => by cases hcase
    have hmsl2 := countDown_moved env hkeep hcloses .msl2 fun hcase => by cases hcase
    have hdown : [Timer.rexmt, .persist, .keep, .msl2].foldl (countDown env) c =
        countDown env (countDown env (countDown env (countDown env c .rexmt) .persist) .keep) .msl2 := rfl
    dsimp only
    rw [hdown]
    split
    · exact hmsl2
    · exact hmsl2.settle rfl rfl

end Timers

/-! ### Requests -/

namespace SndSide

variable {k a b : Nat} {s : SndSide}

theorem Ledger.shut (h : s.Ledger k a b) : ({ s with cantsendmore := true } : SndSide).Ledger k a b := by
  refine ⟨h.started, h.fits, h.nxt, h.max, h.ordered, h.held, fun hsent => ⟨rfl, (h.finished hsent).2⟩, h.closed,
    fun hstate => ⟨(h.closing hstate).1, rfl⟩, fun _ => rfl, fun hstate => ?_, h.listening⟩
  obtain ⟨hempty, -, hrest⟩ := h.opening hstate
  exact ⟨hempty, .inl rfl, hrest⟩

theorem Ledger.detached (h : s.Ledger k a b) : ({ s with nofdref := true } : SndSide).Ledger k a b := by
  refine ⟨h.started, h.fits, h.nxt, h.max, h.ordered, h.held, h.finished, h.closed, h.closing, h.fin, fun hstate => ?_,
    h.listening⟩
  obtain ⟨hempty, hmute, hrest⟩ := h.opening hstate
  refine ⟨hempty, ?_, hrest⟩
  rcases hmute with hmute | hmute | hmute
  · exact .inl hmute
  · exact .inr (.inl hmute)
  · exact .inr (.inr ⟨rfl, hmute.2⟩)

theorem Ledger.accepted (h : s.Ledger k a b) (hcomplete : s.incomplete = false) :
    ({ s with nofdref := false } : SndSide).Ledger k a b := by
  refine ⟨h.started, h.fits, h.nxt, h.max, h.ordered, h.held, h.finished, h.closed, h.closing, h.fin, fun hstate => ?_,
    h.listening⟩
  obtain ⟨hempty, hmute, hrest⟩ := h.opening hstate
  refine ⟨hempty, ?_, hrest⟩
  rcases hmute with hmute | hmute | hmute
  · exact .inl hmute
  · exact .inr (.inl hmute)
  · rw [hcomplete] at hmute
    cases hmute.2

theorem Ledger.listens (h : s.Ledger k a b) :
    ({ s with tState := .listen, acceptconn := true } : SndSide).Ledger k a b := by
  refine ⟨h.started, h.fits, h.nxt, h.max, h.ordered, h.held, fun hsent => ?_, h.closed, ?_,
    fun hfin => absurd hfin (by decide : ¬ TcpState.listen.sendsFin), ?_, fun _ => rfl⟩
  · obtain ⟨hshut, hlast⟩ := h.finished hsent
    exact ⟨hshut, hlast.imp_right fun hlast => ⟨hlast.1, fun hcase => by cases hcase⟩⟩
  · rintro (hcase | hcase) <;> cases hcase
  · rintro (hcase | hcase) <;> cases hcase

theorem Ledger.append (h : s.Ledger k a b) (hopen : s.Open) {bytes : List Byte}
    (hfits : s.data.length + bytes.length + 2 < 2 ^ 31) :
    ({ s with data := s.data ++ bytes } : SndSide).Ledger k a b := by
  have hmore := hopen.more
  have hsent : ¬ s.sentfin = true := by
    intro hsent
    rw [(h.finished hsent).1] at hmore
    cases hmore
  have hlength : (s.data ++ bytes).length = s.data.length + bytes.length := List.length_append
  refine ⟨h.started, ?_, h.nxt, h.max, h.ordered, .inl ?_, fun hyes => absurd hyes hsent, fun hnot => ?_, fun hstate => ?_,
    h.fin, fun hstate => absurd (h.opening hstate).2.1 hopen.not_mute, h.listening⟩
  · show (s.data ++ bytes).length + 2 < _
    omega
  · rcases h.held_of_not_sentfin hsent with hheld | ⟨hone, hempty, hsyn⟩
    · left
      show b ≤ (s.data ++ bytes).length
      omega
    · by_cases hnone : bytes = []
      · refine .inr ⟨hone, ?_, hsyn⟩
        show s.data ++ bytes = []
        rw [hempty, hnone]
        rfl
      · have hpos := List.length_pos_iff.2 hnone
        left
        show b ≤ (s.data ++ bytes).length
        omega
  · have hnot' : s.connected = false := hnot
    rw [hopen.connected] at hnot'
    cases hnot'
  · rw [(h.closing hstate).2] at hmore
    cases hmore

theorem Ledger.connecting (h : s.Ledger k a b) (hconnected : s.connected = false) (iss : TcpSeq) :
    ({ s with
      tState := .synSent, connected := false, iss := iss, una := iss, nxt := iss, max := iss } :
        SndSide).Ledger s.sent.length 0 0 := by
  have hempty := h.closed hconnected
  refine ⟨le_refl _, h.fits, (BitVec.add_zero _).symm, (BitVec.add_zero _).symm, le_refl 0, .inl (.inl (Nat.zero_le _)),
    fun hsent => ⟨(h.finished hsent).1, .inl hempty⟩, fun _ => hempty, ?_,
    fun hfin => absurd hfin (by decide : ¬ TcpState.synSent.sendsFin),
    fun _ => ⟨hempty, .inr (.inl rfl), rfl, Nat.zero_le 1⟩, fun hcase => by cases hcase⟩
  rintro (hcase | hcase) <;> cases hcase

end SndSide

section User

variable {k : Nat} {o : SndSide} {opens ends closes : Prop} {c : Conn} (env : Env)

theorem Moved.change {d : Conn} (h : Moved k o opens ends closes c) (hstate : d.tp.tState = c.tp.tState)
    (hgone : d.gone = c.gone) (hforce : d.tp.tForce = c.tp.tForce)
    (hledger : ∀ {a b}, c.snd.Ledger k a b → d.snd.Ledger k a b) : Moved k o opens ends closes d := by
  refine ⟨?_, hforce.trans h.calm, fun hcase => h.established (hstate ▸ hcase), fun hcase => h.ended (hstate ▸ hcase),
    fun hcase => h.gone (hgone ▸ hcase)⟩
  rw [hgone]
  exact h.ledger.imp_right fun ⟨a, b, hold⟩ => ⟨a, b, hledger hold⟩

theorem closedOutput_moved (h : Moved k o opens ends closes c) (hcloses : closes)
    (hshut : c.snd.cantsendmore = true) : Moved k o opens ends closes (closedOutput env c) := by
  have hclosed : Moved k o opens ends closes (tcpUsrclosed c) := by
    have hfin1 : ¬ TcpState.finWait1.ended := by decide
    have hlast : ¬ TcpState.lastAck.ended := by decide
    unfold tcpUsrclosed
    split
    · exact h.closed.close hcloses
    · exact h.closed.close hcloses
    · exact h.closed.close hcloses
    · exact h.enter (t := .finWait1) (by decide) (by decide) (fun _ hcase => absurd hcase hfin1)
        (fun hcase => absurd hcase hfin1) (fun _ _ => hshut) (by decide) rfl rfl
    · exact h.enter (t := .finWait1) (by decide) (by decide) (fun _ hcase => absurd hcase hfin1)
        (fun hcase => absurd hcase hfin1) (fun _ _ => hshut) (by decide) rfl rfl
    · exact h.enter (t := .lastAck) (by decide) (by decide) (fun _ hcase => absurd hcase hlast)
        (fun hcase => absurd hcase hlast) (fun _ _ => hshut) (by decide) rfl rfl
    · rename_i hstate
      exact h.disconnected (fun hledger => (hledger.closing (.inl hstate)).1) rfl rfl
    · rename_i hstate
      exact h.disconnected (fun hledger => (hledger.closing (.inr hstate)).1) rfl rfl
    · exact h
  unfold closedOutput
  dsimp only
  split
  · exact hclosed
  · exact hclosed.output env

theorem tcpDisconnect_moved (h : Moved k o opens ends closes c) (hcloses : closes) :
    Moved k o opens ends closes (tcpDisconnect env c) := by
  unfold tcpDisconnect
  split
  · exact h.close hcloses
  · split
    · exact h.drop env _ hcloses
    · have hshut : Moved k o opens ends closes { c with so := c.so.soisdisconnecting.flushRcv } :=
        h.change rfl rfl rfl fun hledger => hledger.shut
      exact closedOutput_moved env hshut hcloses rfl

end User

/-! ### Runs -/

namespace Session

variable {s : Session}

/-- Requests are those the socket layer lets through, and the persist timer does not go off for a stale FIN. -/
def Fair (s : Session) : Action → Prop
  | .request _ r => s.Admits r
  | .slowtimo _ => s.conn.tp.tPersist = 1 → ¬ s.conn.snd.Stale
  | _ => True

/-- The numbers of the connection are accounted for, unless it is gone. -/
structure Booked (s : Session) : Prop where
  ledger : s.conn.gone = true ∨ ∃ a b, s.conn.snd.Ledger s.started a b
  calm : s.conn.tp.tForce = false
  exclusive : s.conn.Exclusive

/-- The reason that an action has for opening the connection. -/
def Opens (s : Session) : Action → Prop
  | .segment env ti =>
    (s.conn.snd.tState = .synReceived → reachesAck env s.conn ti = true) ∧ s.conn.snd.OpensBy ti
  | _ => False

/-- The reason that an action has for ending the send side. -/
def Ends (s : Session) : Action → Prop
  | .segment env ti => reachesAck env s.conn ti = true ∧ s.conn.snd.EndsBy ti
  | _ => False

/-- The reason that an action has for closing the connection in `LAST_ACK`. -/
def Closes (s : Session) : Action → Prop
  | .segment env ti =>
    s.conn.snd.tState = .lastAck → reachesAck env s.conn ti = true → s.conn.snd.EndsBy ti
  | _ => True

theorem Booked.accounted (h : s.Booked) (hgone : s.conn.gone = false) : Accounted s.started s.conn.snd := by
  refine ⟨?_, hgone⟩
  rcases h.ledger with hnot | hledger
  · rw [hgone] at hnot
    cases hnot
  · exact hledger

theorem connecting_moved {k : Nat} {o : SndSide} (h : Accounted k o) (hconnected : o.connected = false) {c : Conn}
    {i : TcpSeq}
    (hc : c.snd = { o with tState := .synSent, connected := false, iss := i, una := i, nxt := i, max := i })
    (hcalm : c.tp.tForce = false) : Moved o.sent.length o False False True c := by
  obtain ⟨a, b, hledger⟩ := h.ledger
  have hstate : c.tp.tState = .synSent := (congrArg SndSide.tState hc :)
  refine ⟨.inr ⟨0, 0, ?_⟩, hcalm, fun hcase => ?_, fun hcase => ?_, fun _ => trivial⟩
  · rw [hc]
    exact hledger.connecting hconnected i
  · rw [hstate] at hcase
    cases hcase
  · rw [hstate] at hcase
    exact absurd hcase (by decide)

theorem request_moved (h : s.Booked) (hgone : s.conn.gone = false) (env : Env) {r : Request} (hadmits : s.Admits r) :
    Moved (s.startedAfter r) s.conn.snd False False True (usrreq env s.conn r) := by
  have hstay : Moved s.started s.conn.snd False False True s.conn := (h.accounted hgone).moved rfl h.calm
  have hopened : ∀ {m : Mbuf}, s.conn.snd.Open → s.conn.so.soSnd.sbMb.length + m.bytes.length + 2 < 2 ^ 31 →
      Moved s.started s.conn.snd False False True (appendSnd s.conn m) := fun hopen hfits =>
    hstay.change rfl rfl rfl fun hledger => hledger.append hopen hfits
  cases r with
  | detach =>
    have hended : Moved s.started s.conn.snd False False True
        (if s.conn.tp.tState.code > 1 then tcpDisconnect env s.conn else tcpClose s.conn) := by
      split
      · exact tcpDisconnect_moved env hstay trivial
      · exact hstay.close trivial
    exact hended.change rfl rfl rfl fun hledger => hledger.detached
  | listen =>
    refine ⟨hstay.ledger.imp_right fun ⟨a, b, hledger⟩ => ⟨a, b, hledger.listens⟩, hstay.calm,
      fun hcase => (by cases hcase), ?_, fun _ => trivial⟩
    rintro (hcase | hcase) <;> cases hcase
  | connect =>
    show Moved s.conn.sent.length s.conn.snd False False True (connect env s.conn)
    unfold connect
    apply Moved.output
    apply connecting_moved (h.accounted hgone) hadmits
    · rfl
    · exact h.calm
  | disconnect => exact tcpDisconnect_moved env hstay trivial
  | accept => exact hstay.change rfl rfl rfl fun hledger => hledger.accepted hadmits
  | shutdown =>
    have hshut : Moved s.started s.conn.snd False False True { s.conn with so := s.conn.so.socantsendmore } :=
      hstay.change rfl rfl rfl fun hledger => hledger.shut
    exact closedOutput_moved env hshut trivial rfl
  | rcvd n => exact Moved.output env (hstay.settle rfl rfl)
  | send m => exact Moved.output env (hopened hadmits.1 hadmits.2)
  | abort => exact hstay.drop env _ trivial
  | rcvoob peek => exact hstay.settle rfl rfl
  | sendoob m =>
    show Moved s.started s.conn.snd False False True (sendoob env s.conn m)
    unfold sendoob
    split
    · exact hstay
    · refine forcedOutput_moved env ((hopened hadmits.1 hadmits.2).settle rfl rfl) fun _ hstale => ?_
      -- a FIN is sent only after the user has shut the stream
      obtain ⟨a, b, hledger⟩ := (h.accounted hgone).ledger
      have hshut := hledger.fin hstale.1
      rw [hadmits.1.more] at hshut
      cases hshut
  | sorflush => exact hstay.settle rfl rfl
  | nodelay on => exact hstay.settle rfl rfl
  | maxseg size => exact hstay.settle rfl rfl
  | sndbuf cc =>
    have hdata : (s.conn.so.soSnd.sbreserve cc).sbMb = s.conn.so.soSnd.sbMb := sbreserve_sbMb _ _
    have hsnd : (usrreq env s.conn (.sndbuf cc)).snd =
        { s.conn.snd with data := (s.conn.so.soSnd.sbreserve cc).sbMb } := rfl
    rw [hdata] at hsnd
    exact hstay.settle hsnd rfl
  | rcvbuf cc => exact hstay.settle rfl rfl
  | keepalive on => exact hstay.settle rfl rfl
  | linger on time => exact hstay.settle rfl rfl
  | oobinline on => exact hstay.settle rfl rfl

theorem act_moved (h : s.Booked) (hgone : s.conn.gone = false) {a : Action} (hfair : s.Fair a) :
    Moved (s.act a).started s.conn.snd (s.Opens a) (s.Ends a) (s.Closes a) (s.act a).conn := by
  have hstay : Moved s.started s.conn.snd False False True s.conn := (h.accounted hgone).moved rfl h.calm
  cases a with
  | request env r => exact request_moved h hgone env hfair
  | segment env ti => exact tcpInput_moved env (h.accounted hgone) h.calm ti
  | output env => exact hstay.output env
  | slowtimo env => exact tcpSlowtimo_moved env hstay trivial h.exclusive hfair
  | fasttimo env =>
    show Moved s.started s.conn.snd False False True (tcpFasttimo env s.conn)
    unfold tcpFasttimo
    split
    · exact Moved.output env (hstay.settle rfl rfl)
    · exact hstay

theorem Booked.step {a : Action} (hfair : s.Fair a) (h : s.Booked) : (s.step a).Booked := by
  have hexclusive := step_exclusive a h.exclusive
  unfold Session.step at hexclusive ⊢
  split
  · exact h
  · rename_i hgo
    rw [if_neg hgo] at hexclusive
    have hgone : s.conn.gone = false := by
      have hnot : ¬ s.conn.gone = true := fun hgone => hgo (.inl hgone)
      simpa using hnot
    have hmoved := act_moved h hgone hfair
    exact ⟨hmoved.ledger, hmoved.calm, hexclusive⟩

theorem spawn_moved (env : Env) (head : Socket) (ti : Seg) :
    ∃ o : SndSide, o.tState = .synReceived ∧ Moved 0 o False False True (Tcp.spawn env head ti) := by
  obtain ⟨hentry, -⟩ := entry_untouched env (listenChild head) ti
  have hwindow : (withWindow (entry env (listenChild head) ti)).c.snd = (listenChild head).snd :=
    (withWindow_snd _).trans hentry
  have hsnd := inputListen_snd env head _ hwindow
  have hcalm : (inputListen env (withWindow (entry env (listenChild head) ti))).c.tp.tForce = false := by
    have hentered := (entry_unmoved env (c := listenChild head) rfl ti).2.1
    rw [inputListen_calm, withWindow_calm]
    exact hentered
  obtain ⟨y, hy⟩ : ∃ y, y = inputListen env (withWindow (entry env (listenChild head) ti)) := ⟨_, rfl⟩
  rw [← hy] at hsnd hcalm
  have hledger : y.c.snd.Ledger 0 0 0 := by
    rw [hsnd]
    have hzero : env.iss = env.iss + BitVec.ofNat 32 0 := (BitVec.add_zero _).symm
    have hfits : ([] : List Byte).length + 2 < 2 ^ 31 := by decide
    refine ⟨Nat.zero_le _, hfits, hzero, hzero, le_refl 0, .inl (.inl (Nat.zero_le _)), fun hcase => (by cases hcase),
      fun _ => rfl, ?_, fun hcase => absurd hcase (by decide : ¬ TcpState.synReceived.sendsFin),
      fun _ => ⟨rfl, .inr (.inr ⟨rfl, rfl⟩), rfl, Nat.zero_le 1⟩, fun hcase => by cases hcase⟩
    rintro (hcase | hcase) <;> cases hcase
  have haccounted : Accounted 0 y.c.snd := ⟨⟨0, 0, hledger⟩, by rw [hsnd]⟩
  have hgeneral : general env (entry env (listenChild head) ti) = .ok (step6on y) := by
    have hstate : (entry env (listenChild head) ti).c.tp.tState = .listen :=
      (congrArg SndSide.tState hentry).trans rfl
    rw [hy]
    unfold general
    dsimp only
    split
    · rename_i hsent
      have hboth : TcpState.listen = .synSent := hstate.symm.trans hsent
      cases hboth
    · rfl
    · rename_i hlisten
      exact absurd hstate hlisten
  refine ⟨y.c.snd, by rw [hsnd], ?_⟩
  rw [Tcp.spawn, hgeneral]
  exact finish_moved env (step6on_moved (haccounted.moved rfl hcalm))

theorem Init.booked (h : s.Init) : s.Booked := by
  refine ⟨?_, ?_, h.exclusive⟩
  · cases h with
    | attach =>
      refine .inr ⟨0, 0, Nat.zero_le _, by decide, rfl, rfl, le_refl 0, .inl (.inl (Nat.zero_le _)),
        fun hcase => (by cases hcase), fun _ => rfl, ?_, fun hcase => absurd hcase (by decide), ?_,
        fun hcase => (by cases hcase)⟩
      · rintro (hcase | hcase) <;> cases hcase
      · rintro (hcase | hcase) <;> cases hcase
    | spawn env head ti _ _ _ _ =>
      obtain ⟨o, -, hmoved⟩ := spawn_moved env head ti
      exact hmoved.ledger
  · cases h with
    | attach => rfl
    | spawn env head ti _ _ _ _ =>
      obtain ⟨o, -, hmoved⟩ := spawn_moved env head ti
      exact hmoved.calm

theorem run_booked {s₀ : Session} (hinit : s₀.Init) {actions : List Action}
    (hrun : Transition.Along step Fair s₀ actions) : (Transition.run step s₀ actions).Booked :=
  Transition.run_invariant step (fun _ _ hfair h => h.step hfair) hrun hinit.booked

/-! ### The order of the numbers -/

end Session

namespace SndSide

/-- A FIN was sent, after the first `k` segments, and is not acknowledged. -/
def FinOut (k : Nat) (s : SndSide) : Prop :=
  ∃ ti ∈ s.sent.drop k, ti.tiFlags.fin = true ∧ seqGEQ (ti.seqOf ti.m.bytes.length) s.una

instance (k : Nat) (s : SndSide) : Decidable (s.FinOut k) := inferInstanceAs (Decidable (∃ _ ∈ _, _))

instance (k : Nat) (s : SndSide) : Decidable (s.SynOut k) := inferInstanceAs (Decidable (_ ∧ ∃ _ ∈ _, _))

/-- The three numbers are in order, no further apart than half the space, and what is outstanding is in the buffer, or the SYN, or the FIN. -/
structure Ordered (k : Nat) (s : SndSide) : Prop where
  una_nxt : seqLEQ s.una s.nxt
  nxt_max : seqLEQ s.nxt s.max
  exact : (s.nxt - s.una).toNat ≤ (s.max - s.una).toNat ∧ (s.max - s.una).toNat < 2 ^ 31
  outstanding : (s.max - s.una).toNat ≤
    s.data.length + (if s.SynOut k then 1 else 0) + (if s.FinOut k then 1 else 0)

variable {k a b : Nat} {s : SndSide}

theorem FinAt.out {n : Nat} (h : s.FinAt k (s.una + BitVec.ofNat 32 n)) (hn : n < 2 ^ 31) : s.FinOut k := by
  obtain ⟨ti, hti, hfin, hseq⟩ := h
  refine ⟨ti, hti, hfin, ?_⟩
  have hdiff := seqDiff_ofNat s.una (a := n) (b := 0) (by omega) (by omega)
  rw [BitVec.add_zero, ← hseq] at hdiff
  unfold seqGEQ
  omega

theorem Held.outstanding {n : Nat} (h : s.Held k n) : n ≤ s.data.length + (if s.SynOut k then 1 else 0) := by
  rcases h with h | ⟨hone, -, hsyn⟩
  · omega
  · rw [if_pos hsyn]
    omega

theorem Ledger.ordered_numbers (h : s.Ledger k a b) : s.Ordered k := by
  have hsmall := h.small
  have hordered := h.ordered
  have hnxt : (s.nxt - s.una).toNat = a := by
    rw [h.nxt, BitVec.add_comm, BitVec.add_sub_cancel, BitVec.toNat_ofNat]
    exact Nat.mod_eq_of_lt (by omega)
  have hmax : (s.max - s.una).toNat = b := by
    rw [h.max, BitVec.add_comm, BitVec.add_sub_cancel, BitVec.toNat_ofNat]
    exact Nat.mod_eq_of_lt (by omega)
  refine ⟨?_, ?_, by omega, ?_⟩
  · have hdiff := seqDiff_ofNat s.una (a := 0) (b := a) (by omega) (by omega)
    rw [BitVec.add_zero, ← h.nxt] at hdiff
    unfold seqLEQ
    omega
  · have hdiff := seqDiff_ofNat s.una (a := a) (b := b) (by omega) (by omega)
    rw [← h.nxt, ← h.max] at hdiff
    unfold seqLEQ
    omega
  · rw [hmax]
    rcases h.held with hheld | ⟨-, hfin, n, hn, hheld⟩
    · have := hheld.outstanding
      omega
    · have := hheld.outstanding
      rw [if_pos (hfin.out (by omega))]
      omega

end SndSide

namespace Session

/-- In every state of every run in which the persist timer does not go off for a stale FIN, the numbers of the send side are in order and accounted for. -/
theorem sequence_ordered {s₀ : Session} (hinit : s₀.Init) {actions : List Action}
    (hrun : Transition.Along step Fair s₀ actions) :
    let s := Transition.run step s₀ actions
    s.conn.gone = false → s.conn.snd.Ordered s.started := by
  intro s hgone
  obtain ⟨a, b, hledger⟩ := ((run_booked hinit hrun).accounted hgone).ledger
  exact hledger.ordered_numbers

/-- Requests are those the socket layer lets through. -/
def Asked (s : Session) : Action → Prop
  | .request _ r => s.Admits r
  | _ => True

instance (s : SndSide) : Decidable s.Open :=
  decidable_of_iff (s.connected = true ∧ s.cantsendmore = false ∧ s.nofdref = false)
    ⟨fun h => ⟨h.1, h.2.1, h.2.2⟩, fun h => ⟨h.connected, h.more, h.fdref⟩⟩

instance (s : Session) (r : Request) : Decidable (s.Admits r) := by
  cases r <;> unfold Admits <;> infer_instance

instance (s : Session) (a : Action) : Decidable (s.Asked a) :=
  match a with
  | .request _ r => inferInstanceAs (Decidable (s.Admits r))
  | .segment _ _ | .output _ | .slowtimo _ | .fasttimo _ => isTrue trivial

/-- The machine has no mbufs to send with. -/
def starved (iss : TcpSeq) : Env := { fuel := 2, noMbuf := fun _ => true, iss := iss }

/-- A connection whose FIN was sent and acknowledged while its persist timer was running is connected again; a SYN arrives, and the user closes before anything can be sent. The persist timer goes off in the new `FIN_WAIT_1`. -/
def staleRun : List Action :=
  [Action.request { fuel := 2, iss := 1000 } .connect,
    .segment { fuel := 2 } { tiSeq := 500, tiAck := 1001, tiFlags := { syn := true, ack := true }, tiWin := 1000 },
    .request { fuel := 2 } (.send { chain := [[7]] }),
    .segment { fuel := 2 }
      { tiSeq := 501, tiAck := 1001, tiFlags := { ack := true }, tiWin := 1000, tiLen := 1, m := { chain := [[9]] } },
    .request { fuel := 2 } .sorflush,
    .request { fuel := 2 } .shutdown,
    .segment { fuel := 2 } { tiSeq := 502, tiAck := 1001, tiFlags := { ack := true } },
    .segment { fuel := 2 } { tiSeq := 502, tiAck := 1003, tiFlags := { ack := true } },
    .request (starved 5000) .connect,
    .segment (starved 5000) { tiSeq := 900, tiFlags := { syn := true } },
    .request (starved 5000) .shutdown] ++ List.replicate 10 (.slowtimo { fuel := 2 })

theorem staleRun_disordered :
    let s₀ : Session := { conn := tcpAttach {} }
    let s := Transition.run step s₀ staleRun
    Transition.Along step Asked s₀ staleRun ∧ s.conn.gone = false ∧
      ¬ seqLEQ s.conn.tp.sndUna s.conn.tp.sndNxt := by
  decide +kernel

/-- A connection is opened, a segment is sent and acknowledged, and the user closes. -/
def closingRun : List Action :=
  [.segment { fuel := 2 } (pureAckOf 101), .request { fuel := 2 } .accept,
    .request { fuel := 2 } (.send { chain := [[1, 2, 3]] }), .request { fuel := 2 } .shutdown]

instance (s : Session) (a : Action) : Decidable (s.Fair a) :=
  match a with
  | .request _ r => inferInstanceAs (Decidable (s.Admits r))
  | .slowtimo _ => inferInstanceAs (Decidable (_ → ¬ _))
  | .segment _ _ | .output _ | .fasttimo _ => isTrue trivial

theorem sequence_ordered_closingRun :
    let s := Transition.run step asked closingRun
    (s.conn.tp.sndMax - s.conn.tp.sndUna).toNat = 4 ∧ s.conn.snd.Ordered s.started :=
  ⟨by decide +kernel, sequence_ordered asked_init (by decide +kernel) (by decide +kernel)⟩

end Session

/-! ### Opening and ending by ACKs -/

namespace SndSide

variable {k a b : Nat} {s : SndSide} {ti : Seg}

instance (k : Nat) (s : SndSide) (q : TcpSeq) : Decidable (s.FinAt k q) := inferInstanceAs (Decidable (∃ _ ∈ _, _))

/-- A segment acknowledges our SYN. -/
def SynAckedBy (s : SndSide) (ti : Seg) : Prop := ti.tiFlags.ack = true ∧ seqGT ti.tiAck s.iss

/-- A segment acknowledges a number at which our FIN was sent. -/
def FinAckedBy (k : Nat) (s : SndSide) (ti : Seg) : Prop :=
  ti.tiFlags.ack = true ∧ ∃ q, s.FinAt k q ∧ seqGT ti.tiAck q

/-- A closing connection that has nothing but its SYN acknowledged has sent a FIN under the number of the SYN. -/
def AcksFin (k : Nat) (s : SndSide) (ack : TcpSeq) : Prop :=
  s.tState.sendsFin → s.una = s.iss → s.data = [] → ack = s.iss + 1 → s.FinAt k s.iss

instance (k : Nat) (s : SndSide) (ack : TcpSeq) : Decidable (s.AcksFin k ack) :=
  inferInstanceAs (Decidable (_ → _ → _ → _ → _))

theorem OpensBy.acked (h : s.OpensBy ti) (hsyn : s.tState = .synReceived → s.AcksSyn ti.tiAck) : s.SynAckedBy ti := by
  obtain ⟨hflag, ⟨-, hgt⟩ | ⟨hstate, hlow, hhigh⟩⟩ := h
  · exact ⟨hflag, hgt⟩
  · refine ⟨hflag, ?_⟩
    rw [hsyn hstate hstate hlow hhigh]
    exact seqGT_succ s.iss

/-- More is acknowledged than the buffer holds: the FIN, or the SYN. -/
theorem EndsBy.acked (h : s.EndsBy ti) (hledger : s.Ledger k a b) (hfin : s.AcksFin k ti.tiAck) :
    s.FinAckedBy k ti := by
  obtain ⟨hflag, hstate, hgt, hle, hlen⟩ := h
  obtain ⟨n, hcount⟩ : ∃ n, (ti.tiAck - s.una).toNat = n := ⟨_, rfl⟩
  obtain ⟨hack, -, hpos, -⟩ := seq_ahead hgt
  rw [hcount] at hack hpos hlen
  have hsmall := hledger.small
  have hn : n ≤ b := hcount ▸ seq_between (by omega) hgt (hledger.max ▸ hle)
  have honlySyn : n = 1 → s.data = [] → s.SynOut k → s.FinAckedBy k ti := by
    intro hone hempty hsyn
    have hiss : ti.tiAck = s.iss + 1 := by
      rw [hack, hone, hsyn.1]
      rfl
    refine ⟨hflag, s.iss, hfin hstate hsyn.1 hempty hiss, ?_⟩
    rw [hiss]
    exact seqGT_succ s.iss
  have hlast : n = b → s.FinAt k (s.una + BitVec.ofNat 32 (b - 1)) → s.FinAckedBy k ti := by
    intro hall hat
    refine ⟨hflag, _, hat, ?_⟩
    have hdiff := seqDiff_ofNat s.una (a := n) (b := b - 1) (by omega) (by omega)
    rw [← hack] at hdiff
    unfold seqGT
    omega
  rcases hledger.held with (hheld | ⟨hone, hempty, hsyn⟩) | ⟨-, hat, m, hm, hheld | ⟨hone, hempty, hsyn⟩⟩
  · omega
  · exact honlySyn (by omega) hempty hsyn
  · exact hlast (by omega) hat
  · by_cases hall : n = b
    · exact hlast hall hat
    · exact honlySyn (by omega) hempty hsyn

end SndSide

namespace Session

variable {s : Session} {a : Action}

/-- A step opens the connection, ends its send side, or closes it in `LAST_ACK`, only for an ACK of the SYN or the FIN. -/
structure Guarded (s : Session) (a : Action) : Prop where
  established : (s.step a).conn.tp.tState = .established → s.conn.tp.tState = .established ∨
    ∃ env ti, a = .segment env ti ∧ s.conn.snd.SynAckedBy ti
  ended : (s.step a).conn.tp.tState.ended → s.conn.tp.tState.ended ∨
    ∃ env ti, a = .segment env ti ∧ s.conn.snd.FinAckedBy s.started ti
  closed : ∀ env ti, a = .segment env ti → s.conn.tp.tState = .lastAck → reachesAck env s.conn ti = true →
    s.conn.gone = false → (s.step a).conn.gone = true → s.conn.snd.FinAckedBy s.started ti

/-- The ACK of a segment is none that `tcp_input` mistakes for one of the SYN or the FIN. -/
def Heeds (s : Session) : Action → Prop
  | .segment env ti => reachesAck env s.conn ti = true →
    s.conn.snd.AcksSyn ti.tiAck ∧ s.conn.snd.AcksFin s.started ti.tiAck
  | .request env r => s.Fair (.request env r)
  | .output env => s.Fair (.output env)
  | .slowtimo env => s.Fair (.slowtimo env)
  | .fasttimo env => s.Fair (.fasttimo env)

theorem Heeds.fair (h : s.Heeds a) : s.Fair a := by
  cases a with
  | segment env ti => trivial
  | request env r => exact h
  | output env => exact h
  | slowtimo env => exact h
  | fasttimo env => exact h

theorem Booked.guarded (h : s.Booked) (hheeds : s.Heeds a) : s.Guarded a := by
  by_cases hgo : s.halted
  · have hsame : s.step a = s := if_pos hgo
    refine ⟨fun hcase => .inl (hsame ▸ hcase), fun hcase => .inl (hsame ▸ hcase), fun _ _ _ _ _ hgone hcase => ?_⟩
    rw [hsame, hgone] at hcase
    cases hcase
  · have hstep : s.step a = s.act a := if_neg hgo
    have hgone : s.conn.gone = false := by
      have hnot : ¬ s.conn.gone = true := fun hgone => hgo (.inl hgone)
      simpa using hnot
    have hmoved := act_moved h hgone hheeds.fair
    obtain ⟨n, m, hledger⟩ := (h.accounted hgone).ledger
    rw [← hstep] at hmoved
    cases a with
    | segment env ti =>
      refine ⟨fun hcase => ?_, fun hcase => ?_, fun env' ti' hsame hlast hreach _ hcase => ?_⟩
      · refine (hmoved.established hcase).imp_right fun ⟨hreach, hopens⟩ => ⟨env, ti, rfl, ?_⟩
        exact hopens.acked fun hstate => (hheeds (hreach hstate)).1
      · refine (hmoved.ended hcase).imp_right fun ⟨hreach, hends⟩ => ⟨env, ti, rfl, ?_⟩
        exact hends.acked hledger (hheeds hreach).2
      · cases hsame
        exact (hmoved.gone hcase hlast hreach).acked hledger (hheeds hreach).2
    | request env r =>
      exact ⟨fun hcase => .inl ((hmoved.established hcase).resolve_right id),
        fun hcase => .inl ((hmoved.ended hcase).resolve_right id), fun _ _ hsame => by cases hsame⟩
    | output env =>
      exact ⟨fun hcase => .inl ((hmoved.established hcase).resolve_right id),
        fun hcase => .inl ((hmoved.ended hcase).resolve_right id), fun _ _ hsame => by cases hsame⟩
    | slowtimo env =>
      exact ⟨fun hcase => .inl ((hmoved.established hcase).resolve_right id),
        fun hcase => .inl ((hmoved.ended hcase).resolve_right id), fun _ _ hsame => by cases hsame⟩
    | fasttimo env =>
      exact ⟨fun hcase => .inl ((hmoved.established hcase).resolve_right id),
        fun hcase => .inl ((hmoved.ended hcase).resolve_right id), fun _ _ hsame => by cases hsame⟩

/-- A session does not begin in one of the states that an ACK is needed for. -/
theorem Init.notOpened (h : s.Init) : s.conn.tp.tState ≠ .established ∧ ¬ s.conn.tp.tState.ended := by
  cases h with
  | attach => decide
  | spawn env head ti _ _ _ _ =>
    obtain ⟨o, hstate, hmoved⟩ := spawn_moved env head ti
    refine ⟨fun hcase => ?_, fun hcase => ?_⟩
    · have hsame := (hmoved.established hcase).resolve_right id
      rw [hstate] at hsame
      cases hsame
    · have hsame := (hmoved.ended hcase).resolve_right id
      rw [hstate] at hsame
      exact absurd hsame (by decide)

/-- In every run of steps that heed the two mistakes, what opens a connection, ends its send side or closes it in `LAST_ACK` is an ACK of its SYN or its FIN. -/
theorem opened_and_ended_by_acks {s₀ : Session} (hinit : s₀.Init) {actions : List Action}
    (hrun : Transition.Along step Heeds s₀ actions) :
    s₀.conn.tp.tState ≠ .established ∧ ¬ s₀.conn.tp.tState.ended ∧
      ∀ before a after, actions = before ++ a :: after → (Transition.run step s₀ before).Guarded a := by
  refine ⟨hinit.notOpened.1, hinit.notOpened.2, ?_⟩
  rintro before a after rfl
  obtain ⟨hbefore, ha, -⟩ := (Transition.along_append step).1 hrun
  have hbooked : (Transition.run step s₀ before).Booked :=
    Transition.run_invariant step (fun _ _ hheeds h => h.step hheeds.fair) hbefore hinit.booked
  exact hbooked.guarded ha

/-- An ACK of nothing opens a connection, and an ACK of the SYN ends one that was closed in `SYN_RECEIVED`, here while its FIN could not be sent. -/
theorem mistaken_acks :
    asked.Init ∧ ¬ asked.Guarded (.segment { fuel := 2 } (pureAckOf 100)) ∧
      asked.Asked (.request (starved 0) .shutdown) ∧
      ¬ (asked.step (.request (starved 0) .shutdown)).Guarded (.segment { fuel := 2 } (pureAckOf 101)) := by
  refine ⟨asked_init, fun hguarded => ?_, trivial, fun hguarded => ?_⟩
  · rcases hguarded.established (by decide +kernel) with hstate | ⟨env, ti, hsame, -, hgt⟩
    · exact absurd hstate (by decide +kernel)
    · cases hsame
      exact absurd hgt (by decide +kernel)
  · rcases hguarded.ended (by decide +kernel) with hstate | ⟨env, ti, hsame, -, q, ⟨seg, hseg, hfin, hseq⟩, hgt⟩
    · exact absurd hstate (by decide +kernel)
    · cases hsame
      have hevery : ∀ seg ∈ (asked.step (.request (starved 0) .shutdown)).conn.sent.drop
          (asked.step (.request (starved 0) .shutdown)).started,
          seg.tiFlags.fin = true → ¬ seqGT (pureAckOf 101).tiAck (seg.seqOf seg.m.bytes.length) := by
        decide +kernel
      rw [← hseq] at hgt
      exact hevery seg hseg hfin hgt

instance (s : Session) (a : Action) : Decidable (s.Heeds a) :=
  match a with
  | .segment _ _ => inferInstanceAs (Decidable (_ → _ ∧ _))
  | .request env r => inferInstanceAs (Decidable (s.Fair (.request env r)))
  | .output env => inferInstanceAs (Decidable (s.Fair (.output env)))
  | .slowtimo env => inferInstanceAs (Decidable (s.Fair (.slowtimo env)))
  | .fasttimo env => inferInstanceAs (Decidable (s.Fair (.fasttimo env)))

theorem opened_and_ended_by_acks_closingRun :
    let s := Transition.run step asked closingRun
    (s.step (.segment { fuel := 2 } (pureAckOf 105))).conn.tp.tState = .finWait2 ∧
      s.Guarded (.segment { fuel := 2 } (pureAckOf 105)) := by
  refine ⟨by decide +kernel, ?_⟩
  have hheeds : Transition.Along step Heeds asked (closingRun ++ [.segment { fuel := 2 } (pureAckOf 105)]) := by
    decide +kernel
  have hguarded := opened_and_ended_by_acks asked_init hheeds
  exact hguarded.2.2 closingRun _ [] rfl

end Session

end Reading.Tcp
