import Reading.Tcp.SendInput
import Reading.Tcp.Usrreq

/-!
# Timers, user requests and the phases of the send side

A timer sends again from `snd_una`, or gives the connection up. A request of the user appends to the buffer, closes, or begins a new connection; that it appends to a buffer only while the stream is open is what `sosend` checks.
-/

namespace Reading.Tcp

open Reading.Kern

variable {written : List Byte} {o s : SndSide} {ack : TcpSeq} {c : Conn} (env : Env)

/-! ### Timers -/

theorem SndSide.Sound.rexmt (h : s.Sound written) : ({ s with nxt := s.una } : SndSide).Sound written := by
  cases h with
  | gone h => exact .gone h
  | quiet h => exact .quiet ⟨h.empty, h.mute, h.notOpening, h.notEstablished, h.fin, h.listening⟩
  | opening h =>
    obtain ⟨a, b, -, hmax, -, hb⟩ := h.window
    refine .opening ⟨h.empty, h.mute, h.fresh, h.state, h.una, ⟨0, b, ?_, hmax, Nat.zero_le b, hb⟩, h.fin⟩
    exact h.una.trans (BitVec.add_zero _).symm
  | live d a b h =>
    have hback := h.withNxt (Nat.zero_le b)
    rw [BitVec.add_zero] at hback
    exact .live d 0 b hback
  | spent h => exact .spent ⟨h.connected, h.state, h.cantsendmore, h.empty, rfl, h.max⟩

theorem rexmtTimeout_progress (h : o.Progress written ack c.snd) (hlive : c.gone = false) :
    o.Progress written ack (rexmtTimeout env c).snd := by
  unfold rexmtTimeout
  dsimp only
  split
  · apply tcpDrop_progress
    · exact h
    · exact hlive
  · exact tcpOutput_progress env (h.settle h.sound.rexmt rfl rfl rfl rfl) hlive

theorem forcedOutput_progress (h : o.Progress written ack c.snd) (hlive : c.gone = false) :
    o.Progress written ack (forcedOutput env c).snd := by
  unfold forcedOutput
  exact tcpOutput_progress env (c := { c with tp := { c.tp with tForce := true } }) h hlive

theorem tcpTimers_progress (h : o.Progress written ack c.snd) (hlive : c.gone = false) (t : Timer) :
    o.Progress written ack (tcpTimers env c t).snd := by
  cases t with
  | rexmt => exact rexmtTimeout_progress env h hlive
  | persist =>
    change o.Progress written ack (persistTimeout env c).snd
    unfold persistTimeout
    split
    · exact tcpDrop_progress env h hlive _
    · refine forcedOutput_progress env ?_ hlive
      rw [setpersist_snd]
      exact h
  | keep =>
    change o.Progress written ack (keepTimeout env c).snd
    unfold keepTimeout
    split
    · exact tcpDrop_progress env h hlive _
    · split
      · split
        · exact tcpDrop_progress env h hlive _
        · exact tcpRespond_progress h _ _ _
      · exact h
  | msl2 =>
    change o.Progress written ack (msl2Timeout c).snd
    unfold msl2Timeout
    split
    · exact h
    · exact tcpClose_progress h

theorem countDown_progress (h : o.Progress written ack c.snd) (t : Timer) :
    o.Progress written ack (countDown env c t).snd := by
  have hset : ∀ n, Conn.snd { c with tp := c.tp.setTimer n t } = c.snd := by
    intro n
    cases t <;> rfl
  unfold countDown
  split
  · exact h
  · rename_i hgo
    have hlive : c.gone = false := by
      rw [not_or] at hgo
      simpa using hgo.1
    dsimp only
    split
    · apply tcpTimers_progress
      · rw [hset]
        exact h
      · exact hlive
    · rw [hset]
      exact h

theorem tcpSlowtimo_progress (h : o.Progress written ack c.snd) :
    o.Progress written ack (tcpSlowtimo env c).snd := by
  have hfold : ∀ (timers : List Timer) (c : Conn), o.Progress written ack c.snd →
      o.Progress written ack (timers.foldl (countDown env) c).snd := by
    intro timers
    induction timers with
    | nil => exact fun _ h => h
    | cons t timers ih => exact fun c h => ih _ (countDown_progress env h t)
  unfold tcpSlowtimo
  split
  · exact h
  · have hdown := hfold [.rexmt, .persist, .keep, .msl2] c h
    dsimp only
    generalize [Timer.rexmt, .persist, .keep, .msl2].foldl (countDown env) c = c' at hdown
    split
    · exact hdown
    · exact hdown

theorem tcpFasttimo_progress (h : o.Progress written ack c.snd) (hlive : c.gone = false) :
    o.Progress written ack (tcpFasttimo env c).snd := by
  unfold tcpFasttimo
  split
  · exact tcpOutput_progress env h hlive
  · exact h

/-! ### Requests that close -/

theorem SndSide.Sound.shut (h : s.Sound written) :
    ({ s with cantsendmore := true } : SndSide).Sound written := by
  cases h with
  | gone h => exact .gone h
  | quiet h => exact .quiet ⟨h.empty, .inl rfl, h.notOpening, h.notEstablished, fun _ => rfl, h.listening⟩
  | opening h => exact .opening ⟨h.empty, .inl rfl, h.fresh, h.state, h.una, h.window, fun _ => rfl⟩
  | live d a b h =>
    exact .live d a b ⟨h.connected, h.notOpening, h.notClosing, fun _ => rfl, h.listening, h.dropped,
      h.data, h.fits, h.una, h.nxt, h.max, h.ordered, h.bound,
      fun hsent => ⟨(h.finished hsent).1, rfl, (h.finished hsent).2.2⟩, h.covered⟩
  | spent h => exact .spent ⟨h.connected, h.state, rfl, h.empty, h.nxt, h.max⟩

theorem closedOutput_progress (h : o.Progress written ack c.snd) (hlive : c.gone = false)
    (hshut : c.snd.cantsendmore = true) : o.Progress written ack (closedOutput env c).snd := by
  have hclosed : o.Progress written ack (tcpUsrclosed c).snd := by
    have hsound := h.sound
    unfold tcpUsrclosed
    split
    · exact h.settle (.gone rfl) rfl rfl rfl rfl
    · exact h.settle (.gone rfl) rfl rfl rfl rfl
    · exact h.settle (.gone rfl) rfl rfl rfl rfl
    · exact h.settle (hsound.finSent hshut (.inl rfl)) rfl rfl rfl rfl
    · exact h.settle (hsound.finSent hshut (.inl rfl)) rfl rfl rfl rfl
    · exact h.settle (hsound.finSent hshut (.inr (.inl rfl))) rfl rfl rfl rfl
    · rename_i hstate
      exact h.settle (.quiet (hsound.quiet_of_closed hlive (.inl hstate)).disconnected) rfl rfl rfl rfl
    · rename_i hstate
      exact h.settle (.quiet (hsound.quiet_of_closed hlive (.inr hstate)).disconnected) rfl rfl rfl rfl
    · exact h
  unfold closedOutput
  dsimp only
  split
  · exact hclosed
  · rename_i hgone
    exact tcpOutput_progress env hclosed (by simpa using hgone)

theorem tcpDisconnect_progress (h : o.Progress written ack c.snd) (hlive : c.gone = false) :
    o.Progress written ack (tcpDisconnect env c).snd := by
  unfold tcpDisconnect
  split
  · exact tcpClose_progress h
  · split
    · exact tcpDrop_progress env h hlive _
    · exact closedOutput_progress env (h.settle h.sound.shut rfl rfl rfl rfl) hlive rfl

/-! ### The descriptor, and the roles of a socket -/

theorem SndSide.Sound.detached (h : s.Sound written) :
    ({ s with nofdref := true } : SndSide).Sound written := by
  have hmute : s.Mute → ({ s with nofdref := true } : SndSide).Mute := by
    rintro (hmute | hmute | hmute)
    · exact .inl hmute
    · exact .inr (.inl hmute)
    · exact .inr (.inr ⟨rfl, hmute.2⟩)
  cases h with
  | gone h => exact .gone h
  | quiet h => exact .quiet ⟨h.empty, hmute h.mute, h.notOpening, h.notEstablished, h.fin, h.listening⟩
  | opening h => exact .opening ⟨h.empty, hmute h.mute, h.fresh, h.state, h.una, h.window, h.fin⟩
  | live d a b h =>
    exact .live d a b ⟨h.connected, h.notOpening, h.notClosing, h.fin, h.listening, h.dropped, h.data,
      h.fits, h.una, h.nxt, h.max, h.ordered, h.bound, h.finished, h.covered⟩
  | spent h => exact .spent ⟨h.connected, h.state, h.cantsendmore, h.empty, h.nxt, h.max⟩

/-- A connection is accepted only when it has left the queue of incomplete ones. -/
theorem SndSide.Sound.accepted (h : s.Sound written) (hcomplete : s.incomplete = false) :
    ({ s with nofdref := false } : SndSide).Sound written := by
  have hmute : s.Mute → ({ s with nofdref := false } : SndSide).Mute := by
    rintro (hmute | hmute | hmute)
    · exact .inl hmute
    · exact .inr (.inl hmute)
    · rw [hcomplete] at hmute
      cases hmute.2
  cases h with
  | gone h => exact .gone h
  | quiet h => exact .quiet ⟨h.empty, hmute h.mute, h.notOpening, h.notEstablished, h.fin, h.listening⟩
  | opening h => exact .opening ⟨h.empty, hmute h.mute, h.fresh, h.state, h.una, h.window, h.fin⟩
  | live d a b h =>
    exact .live d a b ⟨h.connected, h.notOpening, h.notClosing, h.fin, h.listening, h.dropped, h.data,
      h.fits, h.una, h.nxt, h.max, h.ordered, h.bound, h.finished, h.covered⟩
  | spent h => exact .spent ⟨h.connected, h.state, h.cantsendmore, h.empty, h.nxt, h.max⟩

theorem SndSide.Sound.listening (h : s.Sound written) :
    ({ s with tState := .listen, acceptconn := true } : SndSide).Sound written := by
  have hfin : TcpState.listen.sendsFin → s.cantsendmore = true := fun h => absurd h (by decide)
  cases h with
  | gone h => exact .gone h
  | quiet h =>
    have hs : ({ s with acceptconn := true } : SndSide).Quiet :=
      ⟨h.empty, h.mute, h.notOpening, h.notEstablished, h.fin, fun _ => rfl⟩
    exact .quiet (hs.enter (by decide) (by decide) hfin fun _ => rfl)
  | opening h =>
    have hs : ({ s with acceptconn := true } : SndSide).Opening written :=
      ⟨h.empty, h.mute, h.fresh, h.state, h.una, h.window, h.fin⟩
    exact .quiet (hs.enter (by decide) (by decide) hfin fun _ => rfl)
  | live d a b h =>
    have hs : ({ s with acceptconn := true } : SndSide).Live written d a b :=
      ⟨h.connected, h.notOpening, h.notClosing, h.fin, fun _ => rfl, h.dropped, h.data, h.fits, h.una,
        h.nxt, h.max, h.ordered, h.bound, h.finished, h.covered⟩
    exact .live d a b (hs.enter (by decide) (by decide) hfin (fun _ => rfl) fun _ => by decide)
  | spent h =>
    have hs : ({ s with acceptconn := true } : SndSide).Spent :=
      ⟨h.connected, h.state, h.cantsendmore, h.empty, h.nxt, h.max⟩
    exact .quiet (hs.enter (by decide) (by decide) fun _ => rfl)

/-! ### Sending -/

/-- The user may append to the send buffer: the checks of `sosend`. -/
structure SndSide.Open (s : SndSide) : Prop where
  connected : s.connected = true
  more : s.cantsendmore = false
  fdref : s.nofdref = false

theorem SndSide.Open.not_mute (h : s.Open) : ¬ s.Mute := by
  rintro (hmute | hmute | hmute)
  · rw [h.more] at hmute
    cases hmute
  · rw [h.connected] at hmute
    cases hmute
  · rw [h.fdref] at hmute
    cases hmute.1

theorem SndSide.Sound.append (h : s.Sound written) (hgone : s.gone = false) (hopen : s.Open)
    {bytes : List Byte} (hfits : s.data.length + bytes.length + 2 < 2 ^ 31) :
    ({ s with data := s.data ++ bytes } : SndSide).Sound (written ++ bytes) := by
  cases h with
  | gone h =>
    rw [hgone] at h
    cases h
  | quiet h => exact absurd h.mute hopen.not_mute
  | opening h => exact absurd h.mute hopen.not_mute
  | spent h =>
    have hshut := h.cantsendmore
    rw [hopen.more] at hshut
    cases hshut
  | live d a b h =>
    have hsent : ¬ s.sentfin = true := by
      intro hsent
      have hshut := (h.finished hsent).2.1
      rw [hopen.more] at hshut
      cases hshut
    have hbound := h.bound (by simpa using hsent)
    have hdropped := h.dropped
    refine .live d a b ⟨h.connected, h.notOpening, h.notClosing, h.fin, h.listening, ?_, ?_, ?_, h.una,
      h.nxt, h.max, h.ordered, ?_, fun hs => absurd hs hsent, ?_⟩
    · rw [List.length_append]
      omega
    · change s.data ++ bytes = _
      rw [h.data, List.drop_append_of_le_length hdropped]
    · change (s.data ++ bytes).length + 2 < _
      rw [List.length_append]
      omega
    · intro _
      change b ≤ (s.data ++ bytes).length
      rw [List.length_append]
      omega
    · intro j x hj hx
      change (s.data ++ bytes)[j]? = some x at hx
      rw [List.getElem?_append_left (by omega)] at hx
      exact h.covered j x hj hx

theorem SndSide.Sound.connecting (h : s.Sound written) (hgone : s.gone = false)
    (hconnected : s.connected = false) (iss : TcpSeq) :
    ({ s with
      tState := .synSent, connected := false, iss := iss, una := iss, nxt := iss, max := iss } :
        SndSide).Sound [] := by
  have hnew : s.data = [] → (s.sentfin = true → s.cantsendmore = true) →
      ({ s with
        tState := .synSent, connected := false, iss := iss, una := iss, nxt := iss, max := iss } :
          SndSide).Sound [] := fun hempty hfin =>
    .opening ⟨hempty, .inr (.inl rfl), rfl, .inl rfl, rfl,
      ⟨0, 0, (BitVec.add_zero _).symm, (BitVec.add_zero _).symm, le_refl 0, Nat.zero_le 1⟩, hfin⟩
  cases h with
  | gone h =>
    rw [hgone] at h
    cases h
  | quiet h => exact hnew h.empty fun hsent => h.fin (.inr hsent)
  | opening h => exact hnew h.empty h.fin
  | live d a b h =>
    rw [h.connected] at hconnected
    cases hconnected
  | spent h =>
    rw [h.connected] at hconnected
    cases hconnected

end Reading.Tcp
