import Reading.Lib.Transition
import Reading.Tcp.SendUser

/-!
# Runs of a connection

A session is a connection with the stream its user has written. It begins with `PRU_ATTACH`, or with the SYN that arrives at a listening socket, and goes on with requests of the user, segments, calls of `tcp_output` and the two timeouts, in any order. Nothing happens any more once the control block is gone or the machine has stopped at a panic.

In `SYN_RECEIVED` the code accepts an ACK that does not acknowledge the SYN. The connection is then `ESTABLISHED` with `snd_una` at the SYN, so that the first octet of the send buffer is no longer the one `snd_una` stands for. In runs where this does not happen the send side stays sound.
-/

namespace Reading.Tcp

open Reading.Kern
open Reading.Lib

structure Session where
  conn : Conn
  /-- What the user has written since the connection was asked for. -/
  written : List Byte := []
  /-- The number of segments that were sent before. -/
  started : Nat := 0

inductive Action where
  | request (env : Env) (r : Request)
  | segment (env : Env) (ti : Seg)
  | output (env : Env)
  | slowtimo (env : Env)
  | fasttimo (env : Env)

namespace Session

/-- The stream after a request. -/
def writtenAfter (s : Session) : Request → List Byte
  | .connect => []
  | .send m => s.written ++ m.bytes
  | .sendoob m => if s.conn.so.soSnd.sbspace < -512 then s.written else s.written ++ m.bytes
  | _ => s.written

def startedAfter (s : Session) : Request → Nat
  | .connect => s.conn.sent.length
  | _ => s.started

def halted (s : Session) : Prop := s.conn.gone = true ∨ s.conn.panicked.isSome = true

instance (s : Session) : Decidable s.halted := inferInstanceAs (Decidable (_ ∨ _))

def act (s : Session) : Action → Session
  | .request env r =>
    { conn := usrreq env s.conn r, written := s.writtenAfter r, started := s.startedAfter r }
  | .segment env ti => { s with conn := tcpInput env s.conn ti }
  | .output env => { s with conn := tcpOutput env s.conn }
  | .slowtimo env => { s with conn := tcpSlowtimo env s.conn }
  | .fasttimo env => { s with conn := tcpFasttimo env s.conn }

def step (s : Session) (a : Action) : Session := if s.halted then s else s.act a

/-- A new socket, or the connection for a SYN that arrives at a listening one. -/
inductive Init : Session → Prop
  | attach : Init { conn := tcpAttach {} }
  | spawn (env : Env) (head : Socket) (ti : Seg) (hhead : head.soAcceptconn = true)
      (hsyn : ti.tiFlags.syn = true) (hack : ti.tiFlags.ack = false) (hrst : ti.tiFlags.rst = false) :
      Init { conn := Tcp.spawn env head ti }

/-- What the socket layer lets through: `sosend` appends to a buffer only while the stream is open, and far less than `2 ^ 31` octets; `soconnect` asks for a connection only where there is none; `accept` takes a connection from the queue of the complete ones. -/
def Admits (s : Session) : Request → Prop
  | .send m | .sendoob m =>
    s.conn.snd.Open ∧ s.conn.so.soSnd.sbMb.length + m.bytes.length + 2 < 2 ^ 31
  | .connect => s.conn.so.ssIsconnected = false
  | .accept => s.conn.so.soIncomplete = false
  | _ => True

/-- A segment that comes as far as the processing of its ACK in `SYN_RECEIVED`, and is accepted there, acknowledges the SYN. -/
def Permits (s : Session) : Action → Prop
  | .request _ r => s.Admits r
  | .segment env ti => reachesAck env s.conn ti = true → s.conn.snd.AcksSyn ti.tiAck
  | _ => True

/-- The send side is sound, and what was sent for the connection are octets of the stream. -/
structure Valid (s : Session) : Prop where
  sound : s.conn.snd.Sound s.written
  underflow : s.conn.snd.underflow = false
  started : s.started ≤ s.conn.sent.length
  faithful : ∀ ti ∈ s.conn.sent.drop s.started, ti.Faithful s.conn.tp.iss s.written

end Session

/-! ### What the user has written grows -/

theorem Seg.Faithful.append {iss : TcpSeq} {written : List Byte} {ti : Seg} (h : ti.Faithful iss written)
    (more : List Byte) : ti.Faithful iss (written ++ more) := by
  intro k x hx
  obtain ⟨i, hi, hseq⟩ := h k x hx
  refine ⟨i, ?_, hseq⟩
  rw [List.getElem?_append_left (List.getElem?_eq_some_iff.mp hi).1]
  exact hi

/-- Two segments that carry an octet under one number carry the same octet. -/
theorem Seg.Faithful.agree {iss : TcpSeq} {written : List Byte} {ti ti' : Seg}
    (h : ti.Faithful iss written) (h' : ti'.Faithful iss written) (hlen : written.length ≤ 2 ^ 32)
    {q : TcpSeq} {x x' : Byte} (hx : ti.Covers q x) (hx' : ti'.Covers q x') : x = x' := by
  obtain ⟨k, hk, hbyte⟩ := hx
  obtain ⟨k', hk', hbyte'⟩ := hx'
  obtain ⟨i, hi, hseq⟩ := h k x hbyte
  obtain ⟨i', hi', hseq'⟩ := h' k' x' hbyte'
  have hsame : BitVec.ofNat 32 i = BitVec.ofNat 32 i' := by
    apply (BitVec.add_right_inj (iss + 1)).mp
    rw [← hseq, ← hseq', hk, hk']
  have hlt := (List.getElem?_eq_some_iff.mp hi).1
  have hlt' := (List.getElem?_eq_some_iff.mp hi').1
  have hii' : i = i' := by
    have hnat := congrArg BitVec.toNat hsame
    rw [BitVec.toNat_ofNat, BitVec.toNat_ofNat, Nat.mod_eq_of_lt (by omega),
      Nat.mod_eq_of_lt (by omega)] at hnat
    exact hnat
  rw [← hii', hi] at hi'
  exact Option.some.inj hi'

/-! ### Sessions stay valid -/

namespace Session

variable {s : Session}

theorem Valid.progress (h : s.Valid) {c : Conn} {q : TcpSeq}
    (hprogress : s.conn.snd.Progress s.written q c.snd) : ({ s with conn := c } : Session).Valid := by
  obtain ⟨new, hnew, hfaithful⟩ := hprogress.sent
  have hsent : c.sent = s.conn.sent ++ new := hnew
  have hiss : c.tp.iss = s.conn.tp.iss := hprogress.iss
  have hstarted := h.started
  refine ⟨hprogress.sound, hprogress.underflow, ?_, ?_⟩
  · change s.started ≤ c.sent.length
    rw [hsent, List.length_append]
    omega
  · intro ti hti
    change ti ∈ c.sent.drop s.started at hti
    change ti.Faithful c.tp.iss s.written
    rw [hsent, List.drop_append_of_le_length hstarted] at hti
    rw [hiss]
    rcases List.mem_append.mp hti with hti | hti
    · exact h.faithful ti hti
    · exact hfaithful ti hti

theorem Valid.ready (h : s.Valid) (hgone : s.conn.gone = false) : Ready s.written s.conn.snd :=
  ⟨h.sound, h.underflow, hgone⟩

theorem Valid.append (h : s.Valid) (hgone : s.conn.gone = false) (hopen : s.conn.snd.Open) {m : Mbuf}
    (hfits : s.conn.so.soSnd.sbMb.length + m.bytes.length + 2 < 2 ^ 31) :
    ({ s with conn := appendSnd s.conn m, written := s.written ++ m.bytes } : Session).Valid :=
  ⟨h.sound.append hgone hopen hfits, h.underflow, h.started, fun ti hti => (h.faithful ti hti).append _⟩

theorem Valid.connecting (h : s.Valid) (hgone : s.conn.gone = false)
    (hconnected : s.conn.so.ssIsconnected = false) {c : Conn} {i : TcpSeq}
    (hc : c.snd = { s.conn.snd with
      tState := .synSent, connected := false, iss := i, una := i, nxt := i, max := i }) :
    ({ conn := c, written := [], started := s.conn.sent.length } : Session).Valid := by
  have hsent : c.sent = s.conn.sent := (congrArg SndSide.sent hc :)
  refine ⟨?_, ?_, ?_, ?_⟩
  · change c.snd.Sound []
    rw [hc]
    exact h.sound.connecting hgone hconnected i
  · change c.snd.underflow = false
    rw [hc]
    exact h.underflow
  · exact le_of_eq (congrArg List.length hsent).symm
  · intro ti hti
    change ti ∈ c.sent.drop s.conn.sent.length at hti
    rw [hsent, List.drop_length] at hti
    cases hti

theorem Valid.request (h : s.Valid) (hgone : s.conn.gone = false) (env : Env) {r : Request}
    (hadmits : s.Admits r) : (s.act (.request env r)).Valid := by
  have hrefl := SndSide.Progress.refl h.sound h.underflow 0
  cases r with
  | detach =>
    apply h.progress (q := 0)
    have hended : s.conn.snd.Progress s.written 0
        (if s.conn.tp.tState.code > 1 then tcpDisconnect env s.conn else tcpClose s.conn).snd := by
      split
      · exact tcpDisconnect_progress env hrefl hgone
      · exact tcpClose_progress hrefl
    exact hended.settle hended.sound.detached rfl rfl rfl rfl
  | listen =>
    apply h.progress (q := 0)
    exact hrefl.settle h.sound.listening rfl rfl rfl rfl
  | connect =>
    have hvalid := h.connecting hgone hadmits (i := env.iss) (c :=
      { s.conn with
        so := s.conn.so.soisconnecting
        tp := ({ s.conn.tp with
          tTemplate := true
          requestRScale := growScale s.conn.so.soRcv.sbHiwat tcpMaxWinshift s.conn.tp.requestRScale
          tState := .synSent, tKeep := tcptvKeepInit, iss := env.iss } : Tcpcb).sendseqinit }) rfl
    exact hvalid.progress (tcpOutput_progress env
      (SndSide.Progress.refl hvalid.sound hvalid.underflow 0) hgone)
  | disconnect => exact h.progress (tcpDisconnect_progress env hrefl hgone)
  | accept =>
    apply h.progress (q := 0)
    exact hrefl.settle (h.sound.accepted hadmits) rfl rfl rfl rfl
  | shutdown =>
    apply h.progress (q := 0)
    exact closedOutput_progress env (hrefl.settle h.sound.shut rfl rfl rfl rfl) hgone rfl
  | rcvd n =>
    apply h.progress (q := 0)
    apply tcpOutput_progress
    · exact hrefl
    · exact hgone
  | send m =>
    have hvalid := h.append hgone hadmits.1 hadmits.2
    exact hvalid.progress (tcpOutput_progress env
      (SndSide.Progress.refl hvalid.sound hvalid.underflow 0) hgone)
  | abort => exact h.progress (tcpDrop_progress env hrefl hgone _)
  | rcvoob peek => exact h.progress (q := 0) hrefl
  | sendoob m =>
    by_cases hspace : s.conn.so.soSnd.sbspace < -512
    · have hsame : s.act (.request env (.sendoob m)) = s := by
        simp only [act, usrreq, sendoob, writtenAfter, startedAfter, if_pos hspace]
      rw [hsame]
      exact h
    · have hvalid := h.append hgone hadmits.1 hadmits.2
      have hsends : s.act (.request env (.sendoob m)) =
          { s with
            conn := forcedOutput env { appendSnd s.conn m with
              tp := { s.conn.tp with sndUp := s.conn.tp.sndUna + (appendSnd s.conn m).so.soSnd.sbCc } }
            written := s.written ++ m.bytes } := by
        simp only [act, usrreq, sendoob, writtenAfter, startedAfter, if_neg hspace]
        rfl
      rw [hsends]
      refine hvalid.progress (q := 0) ?_
      apply forcedOutput_progress
      · exact SndSide.Progress.refl hvalid.sound hvalid.underflow 0
      · exact hgone
  | sorflush => exact h.progress (q := 0) hrefl
  | nodelay on => exact h.progress (q := 0) hrefl
  | maxseg size => exact h.progress (q := 0) hrefl
  | sndbuf cc =>
    apply h.progress (q := 0)
    have hdata : (s.conn.so.soSnd.sbreserve cc).sbMb = s.conn.so.soSnd.sbMb := sbreserve_sbMb _ _
    have hsnd : (usrreq env s.conn (.sndbuf cc)).snd =
        { s.conn.snd with data := (s.conn.so.soSnd.sbreserve cc).sbMb } := rfl
    rw [hsnd, hdata]
    exact hrefl
  | rcvbuf cc => exact h.progress (q := 0) hrefl
  | keepalive on => exact h.progress (q := 0) hrefl
  | linger on time => exact h.progress (q := 0) hrefl
  | oobinline on => exact h.progress (q := 0) hrefl

theorem Valid.step {a : Action} (hpermits : s.Permits a) (h : s.Valid) : (s.step a).Valid := by
  unfold Session.step
  split
  · exact h
  · rename_i hgo
    have hgone : s.conn.gone = false := by
      have hnot : ¬ s.conn.gone = true := fun hgone => hgo (.inl hgone)
      simpa using hnot
    have hrefl := SndSide.Progress.refl h.sound h.underflow 0
    cases a with
    | request env r => exact h.request hgone env hpermits
    | segment env ti => exact h.progress (tcpInput_progress env (h.ready hgone) hpermits)
    | output env => exact h.progress (tcpOutput_progress env hrefl hgone)
    | slowtimo env => exact h.progress (tcpSlowtimo_progress env hrefl)
    | fasttimo env => exact h.progress (tcpFasttimo_progress env hrefl hgone)

/-! ### How a session begins -/

theorem tcpAttach_snd {so : Socket} (hempty : so.soSnd.sbMb = []) :
    (tcpAttach so).snd =
      { tState := .closed, iss := 0, una := 0, nxt := 0, max := 0, sentfin := false
        connected := so.ssIsconnected, cantsendmore := so.ssCantsendmore, nofdref := so.ssNofdref
        incomplete := so.soIncomplete, acceptconn := so.soAcceptconn, data := [], sent := []
        gone := false, underflow := false } := by
  have hdata : (tcpAttach so).so.soSnd.sbMb = [] := by
    unfold tcpAttach Socket.soreserve
    dsimp only
    split
    · exact (sbreserve_sbMb _ _).trans hempty
    · exact hempty
  have hsame : (tcpAttach so).snd =
      { tState := .closed, iss := 0, una := 0, nxt := 0, max := 0, sentfin := false
        connected := (tcpAttach so).so.ssIsconnected, cantsendmore := (tcpAttach so).so.ssCantsendmore
        nofdref := (tcpAttach so).so.ssNofdref, incomplete := (tcpAttach so).so.soIncomplete
        acceptconn := (tcpAttach so).so.soAcceptconn, data := (tcpAttach so).so.soSnd.sbMb, sent := []
        gone := false, underflow := false } := rfl
  rw [hsame, hdata]
  unfold tcpAttach
  dsimp only
  split <;> rfl

theorem sonewconn_sbMb (head : Socket) : head.sonewconn.soSnd.sbMb = [] :=
  sbreserve_sbMb _ _

/-- The connection for a SYN, before it is answered. -/
theorem inputListen_snd (env : Env) (head : Socket) (x : Ctx) (hx : x.c.snd = (listenChild head).snd) :
    (inputListen env x).c.snd =
      { tState := .synReceived, iss := env.iss, una := env.iss, nxt := env.iss, max := env.iss
        sentfin := false, connected := head.sonewconn.ssIsconnected
        cantsendmore := head.sonewconn.ssCantsendmore, nofdref := true, incomplete := true
        acceptconn := false, data := [], sent := [], gone := false, underflow := false } := by
  have hchild : (listenChild head).snd = { (tcpAttach head.sonewconn).snd with tState := .listen } := rfl
  obtain ⟨hoptions, -⟩ := dooptions_snd env x
  have hlisten : (inputListen env x).c.snd =
      { (dooptions env x).c.snd with
        tState := .synReceived, iss := env.iss, una := env.iss, nxt := env.iss, max := env.iss } := by
    unfold inputListen trimThenStep6 Ctx.withTp Tcpcb.rcvseqinit Tcpcb.sendseqinit
    rfl
  rw [hlisten, hoptions, hx, hchild, tcpAttach_snd (sonewconn_sbMb head)]
  rfl

theorem spawn_valid (env : Env) (head : Socket) (ti : Seg) :
    ({ conn := Tcp.spawn env head ti } : Session).Valid := by
  obtain ⟨hentry, -⟩ := entry_untouched env (listenChild head) ti
  have hwindow : (withWindow (entry env (listenChild head) ti)).c.snd = (listenChild head).snd :=
    (withWindow_snd _).trans hentry
  have hsnd := inputListen_snd env head _ hwindow
  obtain ⟨y, hy⟩ : ∃ y, y = inputListen env (withWindow (entry env (listenChild head) ti)) := ⟨_, rfl⟩
  rw [← hy] at hsnd
  have hopening : y.c.snd.Opening [] := by
    rw [hsnd]
    exact ⟨rfl, .inr (.inr ⟨rfl, rfl⟩), rfl, .inr rfl, rfl,
      ⟨0, 0, (BitVec.add_zero _).symm, (BitVec.add_zero _).symm, le_refl 0, Nat.zero_le 1⟩,
      fun h => by cases h⟩
  have hunderflow : y.c.snd.underflow = false := by rw [hsnd]
  have hgone : y.c.snd.gone = false := by rw [hsnd]
  have hstart : ({ conn := y.c } : Session).Valid := by
    refine ⟨.opening hopening, hunderflow, Nat.zero_le _, ?_⟩
    intro seg hseg
    have hsent : y.c.sent = [] := (congrArg SndSide.sent hsnd :)
    change seg ∈ y.c.sent.drop 0 at hseg
    rw [hsent] at hseg
    cases hseg
  have hgeneral : general env (entry env (listenChild head) ti) = .ok (step6on y) := by
    have hstate : (entry env (listenChild head) ti).c.tp.tState = .listen :=
      (congrArg SndSide.tState hentry).trans rfl
    rw [hy]
    unfold general
    dsimp only
    split
    · rename_i hsent
      have hboth : TcpState.listen = .synSent := hstate.symm.trans hsent
      cases hboth
    · rfl
    · rename_i hlisten
      exact absurd hstate hlisten
  have hspawn : Tcp.spawn env head ti = finish env (.ok (step6on y)) := by
    rw [Tcp.spawn, hgeneral]
  rw [hspawn]
  refine hstart.progress (q := 0) (finish_progress env ?_)
  exact step6on_progressed ⟨SndSide.Progress.refl hstart.sound hunderflow 0, hgone⟩

theorem Init.valid (h : s.Init) : s.Valid := by
  cases h with
  | attach =>
    refine ⟨.quiet ?_, rfl, le_refl 0, fun ti hti => by cases hti⟩
    refine ⟨rfl, .inr (.inl rfl), by decide, by decide, ?_, ?_⟩
    · rintro (hfin | hsent)
      · exact absurd hfin (by decide)
      · cases hsent
    · intro hlisten
      cases hlisten
  | spawn env head ti _ _ _ _ => exact spawn_valid env head ti

theorem run_valid {s₀ : Session} (hinit : s₀.Init) {actions : List Action}
    (hrun : Transition.Along step Permits s₀ actions) : (Transition.run step s₀ actions).Valid :=
  Transition.run_invariant step (fun _ _ hpermits h => h.step hpermits) hrun hinit.valid

theorem Valid.not_panicked (h : s.Valid) : s.conn.panicked ≠ some .sbdrop :=
  of_decide_eq_false h.underflow

/-- `sbdrop` never panics, and a segment drops from the send buffer only octets that were sent before and that it acknowledges. -/
theorem sendBuffer_never_underflows {s₀ : Session} (hinit : s₀.Init) {actions : List Action}
    (hrun : Transition.Along step Permits s₀ actions) :
    let s := Transition.run step s₀ actions
    s.conn.panicked ≠ some .sbdrop ∧
      ∀ env ti, s.Permits (.segment env ti) →
        let c := (s.step (.segment env ti)).conn
        c.panicked ≠ some .sbdrop ∧
          ∃ n ≤ s.conn.so.soSnd.sbMb.length, c.so.soSnd.sbMb = s.conn.so.soSnd.sbMb.drop n ∧
            ∀ j x, j < n → s.conn.so.soSnd.sbMb[j]? = some x →
              seqLT (s.conn.tp.sndUna + BitVec.ofNat 32 j) ti.tiAck ∧
                ∃ seg ∈ s.conn.sent, seg.Covers (s.conn.tp.sndUna + BitVec.ofNat 32 j) x := by
  intro s
  have hvalid : s.Valid := run_valid hinit hrun
  refine ⟨hvalid.not_panicked, fun env ti hpermits => ⟨(hvalid.step hpermits).not_panicked, ?_⟩⟩
  unfold Session.step
  split
  · exact ⟨0, Nat.zero_le _, rfl, fun j _ hj => absurd hj (Nat.not_lt_zero j)⟩
  · rename_i hgo
    have hgone : s.conn.gone = false := by
      have hnot : ¬ s.conn.gone = true := fun hgone => hgo (.inl hgone)
      simpa using hnot
    obtain ⟨n, hdata, hdropped⟩ := (tcpInput_progress env (hvalid.ready hgone) hpermits).dropped
    refine ⟨min n s.conn.so.soSnd.sbMb.length, min_le_right _ _, ?_, ?_⟩
    · change (tcpInput env s.conn ti).so.soSnd.sbMb = _
      refine Eq.trans hdata ?_
      change s.conn.so.soSnd.sbMb.drop n = _
      rcases le_total n s.conn.so.soSnd.sbMb.length with hle | hle
      · rw [min_eq_left hle]
      · rw [min_eq_right hle, List.drop_length, List.drop_eq_nil_of_le hle]
    · intro j x hj hx
      exact hdropped j x (lt_of_lt_of_le hj (min_le_left _ _)) hx

/-- Every octet of data that was sent for the connection is the one of the stream that its sequence number stands for, so that two transmissions of one number do not differ. -/
theorem sent_faithful {s₀ : Session} (hinit : s₀.Init) {actions : List Action}
    (hrun : Transition.Along step Permits s₀ actions) :
    let s := Transition.run step s₀ actions
    (∀ seg ∈ s.conn.sent.drop s.started, seg.Faithful s.conn.tp.iss s.written) ∧
      (s.written.length ≤ 2 ^ 32 →
        ∀ seg ∈ s.conn.sent.drop s.started, ∀ seg' ∈ s.conn.sent.drop s.started, ∀ q x x',
          seg.Covers q x → seg'.Covers q x' → x = x') := by
  intro s
  have hvalid : s.Valid := run_valid hinit hrun
  refine ⟨hvalid.faithful, fun hlen seg hseg seg' hseg' q x x' hx hx' => ?_⟩
  exact (hvalid.faithful seg hseg).agree (hvalid.faithful seg' hseg') hlen hx hx'

/-! ### An ACK of nothing -/

/-- A listening socket, and the connection for a SYN with the number 500. -/
def listener : Socket where
  soAcceptconn := true
  soSnd := { sbHiwat := 8192, sbMbmax := 16384 }
  soRcv := { sbHiwat := 8192, sbMbmax := 16384 }

def asked : Session where
  conn := Tcp.spawn { iss := 100, fuel := 2 } listener
    { tiSeq := 500, tiFlags := { syn := true }, tiWin := 1000 }

def pureAckOf (ack : TcpSeq) : Seg :=
  { tiSeq := 501, tiAck := ack, tiFlags := { ack := true }, tiWin := 1000 }

theorem asked_init : asked.Init := .spawn _ _ _ rfl rfl rfl rfl

/-- The first ACK does not acknowledge the SYN and is accepted, the second acknowledges it. -/
def lateAckRun : List Action :=
  [.segment { fuel := 2 } (pureAckOf 100), .segment { fuel := 2 } (pureAckOf 101)]

theorem lateAckRun_panics : (Transition.run step asked lateAckRun).conn.panicked = some .sbdrop := by
  decide +kernel

/-- The first ACK does not acknowledge the SYN; then the user writes three octets. -/
def earlyWriteRun : List Action :=
  [.segment { fuel := 2 } (pureAckOf 100), .request { fuel := 2 } .accept,
    .request { fuel := 2 } (.nodelay true), .request { fuel := 2 } (.send { chain := [[1, 2, 3]] })]

theorem earlyWriteRun_sent :
    let s := Transition.run step asked earlyWriteRun
    (s.conn.sent.drop s.started).getLast?.map (fun seg => (seg.seqOf 0, seg.m.bytes)) =
        some (101, [2, 3]) ∧
      s.conn.tp.iss = 100 ∧ s.written = [1, 2, 3] := by
  decide +kernel

/-- The second octet is sent under the number of the first. -/
theorem earlyWriteRun_unfaithful :
    let s := Transition.run step asked earlyWriteRun
    ∃ seg ∈ s.conn.sent.drop s.started, ¬ seg.Faithful s.conn.tp.iss s.written := by
  intro s
  obtain ⟨hlast, hiss, hwritten⟩ : (s.conn.sent.drop s.started).getLast?.map
      (fun seg => (seg.seqOf 0, seg.m.bytes)) = some (101, [2, 3]) ∧
      s.conn.tp.iss = 100 ∧ s.written = [1, 2, 3] := earlyWriteRun_sent
  obtain ⟨seg, hseg, hfields⟩ := Option.map_eq_some_iff.mp hlast
  obtain ⟨hseq, hbytes⟩ := Prod.mk.inj hfields
  refine ⟨seg, List.mem_of_getLast? hseg, fun hfaithful => ?_⟩
  obtain ⟨i, hi, hnum⟩ := hfaithful 0 2 (by rw [hbytes]; rfl)
  rw [hwritten] at hi
  rw [hseq, hiss] at hnum
  have hlt : i < 3 := (List.getElem?_eq_some_iff.mp hi).1
  obtain rfl | rfl | rfl : i = 0 ∨ i = 1 ∨ i = 2 := by omega
  · cases hi
  · exact absurd hnum (by decide)
  · exact absurd hnum (by decide)

/-- The SYN is acknowledged, the user writes three octets, and they are acknowledged. -/
def orderlyRun : List Action :=
  [.segment { fuel := 2 } (pureAckOf 101), .request { fuel := 2 } .accept,
    .request { fuel := 2 } (.send { chain := [[1, 2, 3]] })]

theorem orderlyRun_permitted : Transition.Along step Permits asked orderlyRun := by
  have hcomplete : (asked.step (.segment { fuel := 2 } (pureAckOf 101))).conn.so.soIncomplete = false := by
    decide +kernel
  refine ⟨fun _ => by decide +kernel, hcomplete, ⟨⟨?_, ?_, ?_⟩, ?_⟩, trivial⟩
  · decide +kernel
  · decide +kernel
  · decide +kernel
  · decide +kernel

theorem sendBuffer_never_underflows_orderlyRun :
    let s := Transition.run step asked orderlyRun
    let c := (s.step (.segment { fuel := 2 } (pureAckOf 103))).conn
    s.conn.so.soSnd.sbMb = [1, 2, 3] ∧ c.so.soSnd.sbMb = [3] ∧ c.panicked ≠ some .sbdrop := by
  intro s c
  have hlater := (sendBuffer_never_underflows asked_init orderlyRun_permitted).2 { fuel := 2 }
    (pureAckOf 103) (fun _ => by decide +kernel)
  refine ⟨by decide +kernel, by decide +kernel, hlater.1⟩

theorem sent_faithful_orderlyRun :
    let s := Transition.run step asked orderlyRun
    (s.conn.sent.drop s.started).map (fun seg => (seg.seqOf 0, seg.m.bytes)) =
        [(101, []), (101, [1, 2, 3])] ∧
      ∀ seg ∈ s.conn.sent.drop s.started, seg.Faithful s.conn.tp.iss s.written := by
  intro s
  exact ⟨by decide +kernel, (sent_faithful asked_init orderlyRun_permitted).1⟩

end Session

end Reading.Tcp
