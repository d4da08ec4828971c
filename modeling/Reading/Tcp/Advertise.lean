import Mathlib.Tactic.Positivity
import Reading.Lib.Transition
import Reading.Tcp.Frame

/-!
# The window a connection advertises

A segment carries the window in units of `2 ^ rcv_scale`, rounded down, while `rcv_adv` remembers the edge before it was rounded. A peer sees the right edge at the rounded place. A run of a connection after the handshake consists of passes of `tcp_output` and of what comes between them: data arrives, the user reads, and the rest of the connection changes in any way that leaves `rcv_adv` and the scale alone. Positions are counted from `rcv_nxt` at the start of the run, so that they do not wrap; `rcv_nxt` is never more than `2 ^ 31` octets beyond what has been advertised.
-/

namespace Reading.Tcp

open Reading Reading.Kern

/-- What of the window there is free space for. -/
def freeWindow (c : Conn) : Int :=
  let win := c.so.soRcv.sbspace
  let win := if win < (c.so.soRcv.sbHiwat.toNat / 4 : Nat) ∧ win < c.tp.tMaxseg then 0 else win
  let limit := (tcpMaxwin <<< c.tp.rcvScale).toInt
  if win > limit then limit else win

/-- The window that is still open of what has been advertised. -/
def offered (tp : Tcpcb) : Int := seqDiff tp.rcvAdv tp.rcvNxt

theorem outWindow_eq (c : Conn) : outWindow c = max (freeWindow c) (offered c.tp) := by
  have hmax : ∀ win adv : Int, (if win < adv then adv else win) = max win adv := by
    intro win adv
    split <;> omega
  exact hmax _ _

theorem limit_eq {scale : Nat} (h : scale ≤ tcpMaxWinshift) :
    (tcpMaxwin <<< scale).toInt = 65535 * 2 ^ scale := by
  have hcases : ∀ scale ≤ tcpMaxWinshift, (tcpMaxwin <<< scale).toInt = 65535 * 2 ^ scale := by decide
  exact hcases scale h

theorem freeWindow_bounds {c : Conn} (h : c.tp.rcvScale ≤ tcpMaxWinshift) :
    0 ≤ freeWindow c ∧ freeWindow c ≤ 65535 * 2 ^ c.tp.rcvScale := by
  have hunit : (0 : Int) < 2 ^ c.tp.rcvScale := by positivity
  unfold freeWindow
  rw [limit_eq h]
  dsimp only
  generalize c.so.soRcv.sbspace = win
  split <;> split <;> omega

/-! ### One pass of `tcp_output` -/

/-- What of a control block the advertised window depends on. -/
structure Tcpcb.Window where
  rcvNxt : TcpSeq
  rcvAdv : TcpSeq
  rcvScale : Nat
  tMaxseg : Nat

def Tcpcb.window (tp : Tcpcb) : Tcpcb.Window where
  rcvNxt := tp.rcvNxt
  rcvAdv := tp.rcvAdv
  rcvScale := tp.rcvScale
  tMaxseg := tp.tMaxseg

def Conn.window (c : Conn) : Tcpcb.Window × Sockbuf := (c.tp.window, c.so.soRcv)

theorem window_congr {c c' : Conn} (h : c'.window = c.window) :
    outWindow c' = outWindow c ∧ c'.tp.rcvNxt = c.tp.rcvNxt ∧ c'.tp.rcvAdv = c.tp.rcvAdv ∧
      c'.tp.rcvScale = c.tp.rcvScale := by
  have hnxt : c'.tp.rcvNxt = c.tp.rcvNxt := congrArg (·.1.rcvNxt) h
  have hadv : c'.tp.rcvAdv = c.tp.rcvAdv := congrArg (·.1.rcvAdv) h
  have hscale : c'.tp.rcvScale = c.tp.rcvScale := congrArg (·.1.rcvScale) h
  have hmaxseg : c'.tp.tMaxseg = c.tp.tMaxseg := congrArg (·.1.tMaxseg) h
  have hrcv : c'.so.soRcv = c.so.soRcv := congrArg (·.2) h
  refine ⟨?_, hnxt, hadv, hscale⟩
  unfold outWindow
  rw [hnxt, hadv, hscale, hmaxseg, hrcv]

theorem outRecord_window (tp : Tcpcb) (flags : Flags) (len : Int) : (outRecord tp flags len).window = tp.window := by
  unfold outRecord
  split <;> rfl

/-- The edge to remember after a segment that IP has taken. -/
def advanced (c : Conn) : TcpSeq :=
  if outWindow c > 0 ∧ seqGT (c.tp.rcvNxt + BitVec.ofInt 32 (outWindow c)) c.tp.rcvAdv then
    c.tp.rcvNxt + BitVec.ofInt 32 (outWindow c)
  else c.tp.rcvAdv

/-- A segment that advertises the window of `c`. -/
structure Advertises (c : Conn) (ti : Seg) : Prop where
  ack : ti.tiAck = c.tp.rcvNxt
  win : ti.tiWin = BitVec.ofInt 16 (outWindow c / 2 ^ c.tp.rcvScale)

/-- What a pass does to the window: nothing is sent, or a segment that IP refuses, or one that it takes. -/
inductive Offering (c c' : Conn) : IpError → Prop where
  | silent (error : IpError) (hsent : c'.sent = c.sent) (hwindow : c'.window = c.window) : Offering c c' error
  | refused (error : IpError) (ti : Seg) (hsent : c'.sent = c.sent ++ [ti]) (hwindow : c'.window = c.window)
      (hrefused : error ≠ .ok) : Offering c c' error
  | taken (ti : Seg) (hsent : c'.sent = c.sent ++ [ti]) (hti : Advertises c ti)
      (hwindow : c'.window = ({ c.tp.window with rcvAdv := advanced c }, c.so.soRcv)) : Offering c c' .ok

theorem outFill_offering (env : Env) (pass : Nat) (c : Conn) (flags : Flags) (options : List TcpOption)
    (len : Int) (data : List Byte) (sendalot : Bool) :
    Offering c (outFill env pass c flags options len data sendalot).1 (env.ipOutput pass) := by
  have hrecord := outRecord_window (pullSndUp (resendFin c.tp flags)) flags len
  have hti : Advertises c (outSegment { c with tp := resendFin c.tp flags } flags options len data) := ⟨rfl, rfl⟩
  have hwin : outWindow { c with tp := resendFin c.tp flags } = outWindow c := rfl
  unfold outFill
  dsimp only
  rw [hwin]
  generalize outSegment { c with tp := resendFin c.tp flags } flags options len data = ti at hti
  generalize outRecord (pullSndUp (resendFin c.tp flags)) flags len = tp at hrecord
  unfold outDeliver
  cases hip : env.ipOutput pass with
  | enobufs => exact .refused _ ti rfl (congrArg (·, c.so.soRcv) hrecord) (by decide)
  | ehostunreach => exact .refused _ ti rfl (congrArg (·, c.so.soRcv) hrecord) (by decide)
  | other => exact .refused _ ti rfl (congrArg (·, c.so.soRcv) hrecord) (by decide)
  | ok =>
    refine .taken ti rfl hti ?_
    have hnxt : tp.rcvNxt = c.tp.rcvNxt := congrArg Tcpcb.Window.rcvNxt hrecord
    have hadv : tp.rcvAdv = c.tp.rcvAdv := congrArg Tcpcb.Window.rcvAdv hrecord
    have hscale : tp.rcvScale = c.tp.rcvScale := congrArg Tcpcb.Window.rcvScale hrecord
    have hmaxseg : tp.tMaxseg = c.tp.tMaxseg := congrArg Tcpcb.Window.tMaxseg hrecord
    simp only [Conn.window, Tcpcb.window, hnxt, hadv, hscale, hmaxseg]
    rfl

theorem Offering.of_window {c₁ c c' : Conn} {error : IpError} (hsent : c₁.sent = c.sent) (hwindow : c₁.window = c.window)
    (h : Offering c₁ c' error) : Offering c c' error := by
  obtain ⟨hwin, hnxt, hadv, hscale⟩ := window_congr hwindow
  cases h with
  | silent _ hs hw => exact .silent _ (hs.trans hsent) (hw.trans hwindow)
  | refused _ ti hs hw hrefused => exact .refused _ ti (hs.trans (congrArg (· ++ [ti]) hsent)) (hw.trans hwindow) hrefused
  | taken ti hs hti hw =>
    refine .taken ti (hs.trans (congrArg (· ++ [ti]) hsent)) ⟨hti.ack.trans hnxt, ?_⟩ ?_
    · rw [hti.win, hwin, hscale]
    · have hedge : advanced c₁ = advanced c := by rw [advanced, advanced, hwin, hnxt, hadv]
      have htp : c₁.tp.window = c.tp.window := congrArg (·.1) hwindow
      have hrcv : c₁.so.soRcv = c.so.soRcv := congrArg (·.2) hwindow
      rw [hw, hedge, htp, hrcv]

theorem outSend_offering (env : Env) (pass : Nat) {c : Conn} {plan : OutPlan} (hsyn : plan.flags.syn = false) :
    Offering c (outSend env pass c plan).1 (env.ipOutput pass) := by
  have hoffer : outOffer env (startSeq c plan.flags) plan.flags = (startSeq c plan.flags, 0) := by
    unfold outOffer
    rw [if_neg (by rw [hsyn]; simp)]
  have hsent : (startSeq c plan.flags).sent = c.sent := rfl
  have hwindow : (startSeq c plan.flags).window = c.window := rfl
  unfold outSend
  rw [hoffer]
  dsimp only
  split
  · exact .silent _ rfl rfl
  · split
    · exact .silent _ rfl rfl
    · split
      · exact .silent _ rfl rfl
      · exact (outFill_offering env pass _ _ _ _ _ _).of_window hsent hwindow

/-- A pass after the handshake. -/
theorem outPass_offering (env : Env) (idle : Bool) (pass : Nat) {c : Conn} (hsyn : (tcpOutflags c.tp.tState).syn = false) :
    Offering c (outPass env idle pass c).1 (env.ipOutput pass) := by
  have hnosyn : (outPlan c).2.flags.syn = false := hsyn
  have hsent : (outPlan c).1.sent = c.sent := rfl
  have hwindow : (outPlan c).1.window = c.window := rfl
  unfold outPass
  dsimp only
  split
  · exact (outSend_offering env pass hnosyn).of_window hsent hwindow
  · split
    · exact .silent _ rfl rfl
    · exact .silent _ hsent hwindow

/-! ### Runs -/

namespace Advertise

/-- A connection with the place `rcv_nxt` has come to, and the segments that have reached IP, each with the place it acknowledges. -/
structure State where
  conn : Conn
  pos : Int
  offers : List (Int × Seg)

/-- What happens: a pass of `tcp_output`, or something between two passes that moves `rcv_nxt` by `k`. -/
inductive Event where
  | pass (env : Env) (idle : Bool) (n : Nat)
  | between (c : Conn) (k : Nat)

def State.step (s : State) : Event → State
  | .pass env idle n =>
    let after := (outPass env idle n s.conn).1
    { conn := after
      pos := s.pos
      offers :=
        match env.ipOutput n with
        | .ok => s.offers ++ (after.sent.drop s.conn.sent.length).map (s.pos, ·)
        | _ => s.offers }
  | .between c k => { s with conn := c, pos := s.pos + k }

/-- Between two passes `rcv_nxt` moves, but never more than `2 ^ 31` beyond what has been advertised, and `rcv_adv` and the scale stay; the handshake is over. -/
def Permits (s : State) : Event → Prop
  | .pass _ _ _ => True
  | .between c k =>
    (tcpOutflags c.tp.tState).syn = false ∧
      c.tp.rcvNxt = s.conn.tp.rcvNxt + BitVec.ofNat 32 k ∧ c.tp.rcvAdv = s.conn.tp.rcvAdv ∧
      c.tp.rcvScale = s.conn.tp.rcvScale ∧ k ≤ offered s.conn.tp + 2 ^ 31

instance (s : State) : ∀ e, Decidable (Permits s e)
  | .pass _ _ _ => isTrue trivial
  | .between _ _ => inferInstanceAs (Decidable (_ ∧ _ ∧ _ ∧ _ ∧ _))

/-- The right edge a peer computes from a segment. -/
def edge (scale : Nat) (offer : Int × Seg) : Int := offer.1 + (offer.2.tiWin.toNat <<< scale : Nat)

/-- When a segment goes out, what `rcv_nxt` has moved by since the last one leaves no more over a whole number of units than was held back of the window then, or there is free space up to the edge offered then. -/
def Keeps (s : State) : Event → Prop
  | .between _ _ => True
  | .pass env idle n =>
    let scale := s.conn.tp.rcvScale
    ∀ last ∈ s.offers.getLast?, (s.step (.pass env idle n)).offers ≠ s.offers →
      (s.pos - last.1) % 2 ^ scale ≤ s.pos + offered s.conn.tp - edge scale last ∨
        edge scale last ≤ s.pos + freeWindow s.conn / 2 ^ scale * 2 ^ scale

/-- Rounding down a window reaches a place as far from `a` as a whole number of units. -/
theorem round_down_iff {unit a e w : Int} (hunit : 0 < unit) (hdvd : unit ∣ e - a) (p : Int) :
    e ≤ p + w / unit * unit ↔ (p - a) % unit ≤ p + w - e := by
  obtain ⟨m, hm⟩ := hdvd
  have hlow : 0 ≤ (p - a) % unit := Int.emod_nonneg _ (by omega)
  have hhigh : (p - a) % unit < unit := Int.emod_lt_of_pos _ hunit
  have hsplit : (p - a) % unit + unit * ((p - a) / unit) = p - a := Int.emod_add_mul_ediv _ _
  generalize (p - a) % unit = r at hlow hhigh hsplit
  generalize (p - a) / unit = q at hsplit
  have hle : (m - q) * unit ≤ w ↔ m - q ≤ w / unit := (Int.le_ediv_iff_mul_le hunit).symm
  have hexpand : (m - q) * unit = unit * m - unit * q := by ring
  constructor
  · intro h
    have hlt : (m - q) * unit < (w / unit + 1) * unit := by
      rw [hexpand, Int.add_mul, one_mul]
      omega
    have hquot : m - q ≤ w / unit := by
      have := Int.lt_of_mul_lt_mul_right hlt (by omega)
      omega
    have := hle.mpr hquot
    omega
  · intro h
    have hquot : m - q ≤ w / unit := hle.mp (by omega)
    have hmul : (m - q) * unit ≤ w / unit * unit := Int.mul_le_mul_of_nonneg_right hquot (by omega)
    omega

theorem edge_dvd (scale : Nat) (offer : Int × Seg) : (2 ^ scale : Int) ∣ edge scale offer - offer.1 := by
  refine ⟨offer.2.tiWin.toNat, ?_⟩
  rw [edge, Nat.shiftLeft_eq]
  push_cast
  ring

theorem rcvAdv_eq (tp : Tcpcb) : tp.rcvAdv = tp.rcvNxt + BitVec.ofInt 32 (offered tp) := by
  rw [offered, seqDiff, BitVec.ofInt_toInt, BitVec.add_comm, BitVec.sub_add_cancel]

/-- A connection after the handshake, with no more offered than a window can say. -/
structure Open (scale : Nat) (c : Conn) : Prop where
  syn : (tcpOutflags c.tp.tState).syn = false
  scale_eq : c.tp.rcvScale = scale
  offered_le : offered c.tp ≤ 65535 * 2 ^ scale

section Step

variable {scale : Nat} {s : State}

theorem outWindow_bounds {c : Conn} (hscale : scale ≤ tcpMaxWinshift) (h : Open scale c) :
    0 ≤ outWindow c ∧ outWindow c ≤ 65535 * 2 ^ scale := by
  obtain ⟨hfree, hlimit⟩ := freeWindow_bounds (c := c) (by rw [h.scale_eq]; exact hscale)
  rw [h.scale_eq] at hlimit
  have hoffered := h.offered_le
  rw [outWindow_eq]
  omega

/-- What a peer makes of a segment that advertises the window of `c`. -/
theorem edge_eq {c : Conn} (hscale : scale ≤ tcpMaxWinshift) (h : Open scale c) {ti : Seg} (hti : Advertises c ti) (pos : Int) :
    edge scale (pos, ti) = pos + outWindow c / 2 ^ scale * 2 ^ scale := by
  obtain ⟨hnonneg, hlimit⟩ := outWindow_bounds hscale h
  have hunit : (0 : Int) < 2 ^ scale := by positivity
  have hlow : 0 ≤ outWindow c / 2 ^ scale := Int.ediv_nonneg hnonneg (by omega)
  have hhigh : outWindow c / 2 ^ scale ≤ 65535 := by
    have := Int.ediv_le_ediv hunit hlimit
    rwa [Int.mul_ediv_cancel _ (by omega)] at this
  have hwin : ((ti.tiWin.toNat : Nat) : Int) = outWindow c / 2 ^ scale := by
    rw [hti.win, h.scale_eq, BitVec.toNat_ofInt]
    omega
  rw [edge, Nat.shiftLeft_eq, Int.natCast_mul, hwin]
  push_cast
  rfl

/-- The open window never grows beyond what a window can say. -/
theorem open_after {c c' : Conn} (hscale : scale ≤ tcpMaxWinshift) (h : Open scale c)
    (hsyn : (tcpOutflags c'.tp.tState).syn = false) {error : IpError} (hpass : Offering c c' error) : Open scale c' := by
  obtain ⟨hnonneg, hlimit⟩ := outWindow_bounds hscale h
  have hfits : (65535 : Int) * 2 ^ scale < 2 ^ 31 := by
    have hcases : ∀ scale ≤ tcpMaxWinshift, (65535 : Int) * 2 ^ scale < 2 ^ 31 := by decide
    exact hcases scale hscale
  have hsame : c'.window = c.window → Open scale c' := by
    intro hwindow
    obtain ⟨-, hnxt, hadv, hsc⟩ := window_congr hwindow
    refine ⟨hsyn, hsc.trans h.scale_eq, ?_⟩
    rw [offered, hnxt, hadv]
    exact h.offered_le
  cases hpass with
  | silent _ _ hwindow => exact hsame hwindow
  | refused _ _ _ hwindow _ => exact hsame hwindow
  | taken ti _ _ hwindow =>
    have hnxt : c'.tp.rcvNxt = c.tp.rcvNxt := congrArg (·.1.rcvNxt) hwindow
    have hadv : c'.tp.rcvAdv = advanced c := congrArg (·.1.rcvAdv) hwindow
    have hsc : c'.tp.rcvScale = c.tp.rcvScale := congrArg (·.1.rcvScale) hwindow
    refine ⟨hsyn, hsc.trans h.scale_eq, ?_⟩
    rw [offered, hnxt, hadv, advanced]
    split
    · have hzero : c.tp.rcvNxt = c.tp.rcvNxt + BitVec.ofInt 32 0 := by simp
      nth_rewrite 2 [hzero]
      rw [seqDiff_at _ (by omega) (by omega)]
      omega
    · exact h.offered_le

theorem Open.step (hscale : scale ≤ tcpMaxWinshift) (h : Open scale s.conn) {e : Event} (hpermits : Permits s e) :
    Open scale (s.step e).conn := by
  cases e with
  | pass env idle n =>
    have hstate : (outPass env idle n s.conn).1.tp.tState = s.conn.tp.tState :=
      congrArg (·.1.tState) (outPass_kept env idle n s.conn)
    exact open_after hscale h ((congrArg (fun t => (tcpOutflags t).syn) hstate).trans h.syn) (outPass_offering env idle n h.syn)
  | between c k =>
    obtain ⟨hsyn, hnxt, hadv, hsc, hk⟩ := hpermits
    refine ⟨hsyn, hsc.trans h.scale_eq, ?_⟩
    have hle := h.offered_le
    have hhi : offered s.conn.tp < 2 ^ 31 := BitVec.toInt_lt
    change offered c.tp ≤ _
    rw [offered, hnxt, hadv, rcvAdv_eq, ← BitVec.ofInt_natCast, seqDiff_at _ (by omega) (by omega)]
    omega

/-- A step either sends nothing, or a segment whose edge is the window of the connection, rounded down. -/
theorem step_offers (h : Open scale s.conn) (hscale : scale ≤ tcpMaxWinshift) (e : Event) :
    (s.step e).offers = s.offers ∨
      ∃ env idle n ti, e = .pass env idle n ∧ (s.step e).offers = s.offers ++ [(s.pos, ti)] ∧
        edge scale (s.pos, ti) = s.pos + outWindow s.conn / 2 ^ scale * 2 ^ scale := by
  cases e with
  | between c k => exact .inl rfl
  | pass env idle n =>
    have hpass := outPass_offering env idle n h.syn
    unfold State.step
    dsimp only
    generalize (outPass env idle n s.conn).1 = c' at hpass
    generalize env.ipOutput n = error at hpass
    cases hpass with
    | silent _ hsent _ =>
      left
      rw [hsent]
      cases error <;> simp
    | refused _ ti hsent _ hrefused =>
      left
      cases error with
      | ok => exact absurd rfl hrefused
      | enobufs => rfl
      | ehostunreach => rfl
      | other => rfl
    | taken ti hsent hti _ =>
      refine .inr ⟨env, idle, n, ti, rfl, ?_, edge_eq hscale h hti s.pos⟩
      rw [hsent, List.drop_left]
      rfl

/-- Exactly when the edge of a segment is not to the left of the one before it. -/
theorem keeps_iff (h : Open scale s.conn) {ti : Seg} {last : Int × Seg} {env : Env} {idle : Bool} {n : Nat}
    (hlast : s.offers.getLast? = some last) (hsent : (s.step (.pass env idle n)).offers = s.offers ++ [(s.pos, ti)])
    (hedge : edge scale (s.pos, ti) = s.pos + outWindow s.conn / 2 ^ scale * 2 ^ scale) :
    Keeps s (.pass env idle n) ↔ edge scale last ≤ edge scale (s.pos, ti) := by
  have hunit : (0 : Int) < 2 ^ scale := by positivity
  have hnew : (s.step (.pass env idle n)).offers ≠ s.offers := by
    rw [hsent]
    simp
  have hround := round_down_iff (w := offered s.conn.tp) hunit (edge_dvd scale last) s.pos
  have hmax : outWindow s.conn / 2 ^ scale * 2 ^ scale =
      max (freeWindow s.conn / 2 ^ scale * 2 ^ scale) (offered s.conn.tp / 2 ^ scale * 2 ^ scale) := by
    rw [outWindow_eq]
    rcases le_total (freeWindow s.conn) (offered s.conn.tp) with hle | hle
    · rw [max_eq_right hle, max_eq_right (Int.mul_le_mul_of_nonneg_right (Int.ediv_le_ediv hunit hle) (by omega))]
    · rw [max_eq_left hle, max_eq_left (Int.mul_le_mul_of_nonneg_right (Int.ediv_le_ediv hunit hle) (by omega))]
  have hkeeps : Keeps s (.pass env idle n) ↔
      ((s.pos - last.1) % 2 ^ scale ≤ s.pos + offered s.conn.tp - edge scale last ∨
        edge scale last ≤ s.pos + freeWindow s.conn / 2 ^ scale * 2 ^ scale) := by
    unfold Keeps
    dsimp only
    rw [hlast, h.scale_eq]
    simp [hnew]
  rw [hkeeps, ← hround, hedge, hmax]
  omega

end Step

theorem pairwise_concat_iff {l : List Int} {x : Int} :
    (l ++ [x]).Pairwise (· ≤ ·) ↔ l.Pairwise (· ≤ ·) ∧ ∀ y ∈ l.getLast?, y ≤ x := by
  rw [← List.isChain_iff_pairwise, ← List.isChain_iff_pairwise, List.isChain_append]
  simp

/-- The edges of a run do not go back exactly if every pass keeps the one before it. -/
theorem pairwise_run_iff {scale : Nat} (hscale : scale ≤ tcpMaxWinshift) {s : State} (h : Open scale s.conn)
    (hsorted : (s.offers.map (edge scale)).Pairwise (· ≤ ·)) (events : List Event)
    (hrun : Transition.Along State.step Permits s events) :
    ((Transition.run State.step s events).offers.map (edge scale)).Pairwise (· ≤ ·) ↔
      Transition.Along State.step Keeps s events := by
  induction events using List.reverseRecOn with
  | nil => exact iff_of_true hsorted trivial
  | append_singleton events e ih =>
    obtain ⟨hbefore, -⟩ := (Transition.along_append State.step).mp hrun
    have hopen : Open scale (Transition.run State.step s events).conn :=
      Transition.run_invariant State.step (fun s _ hpermits (h : Open scale s.conn) => h.step hscale hpermits) hbefore h
    have hkept := ih hbefore
    rw [Transition.run_append, Transition.along_append]
    generalize Transition.run State.step s events = s₁ at hopen hkept
    have hone : Transition.Along State.step Keeps s₁ [e] ↔ Keeps s₁ e := and_iff_left trivial
    rw [hone, ← hkept]
    change ((s₁.step e).offers.map (edge scale)).Pairwise (· ≤ ·) ↔ _
    rcases step_offers hopen hscale e with hsilent | ⟨env, idle, n, ti, rfl, hsent, hedge⟩
    · have hvacuous : Keeps s₁ e := by
        cases e with
        | between c k => trivial
        | pass env idle n => exact fun last _ hnew => absurd hsilent hnew
      rw [hsilent]
      exact (and_iff_left hvacuous).symm
    · rw [hsent, List.map_append, List.map_singleton, pairwise_concat_iff, List.getLast?_map]
      apply and_congr_right
      intro _
      cases hlast : s₁.offers.getLast? with
      | none =>
        have hvacuous : Keeps s₁ (.pass env idle n) := by
          unfold Keeps
          rw [hlast]
          exact fun last hnone => nomatch hnone
        exact iff_of_true (fun y hnone => nomatch hnone) hvacuous
      | some last =>
        rw [keeps_iff hopen hlast hsent hedge]
        simp

/-- After the handshake the right edge that a peer computes never goes back, in a run of any length, exactly if every segment of the run keeps the edge of the one before it. -/
theorem edge_kept_iff (c : Conn) (events : List Event) (hsyn : (tcpOutflags c.tp.tState).syn = false)
    (hscale : c.tp.rcvScale ≤ tcpMaxWinshift) (hoffered : offered c.tp ≤ 65535 * 2 ^ c.tp.rcvScale)
    (hrun : Transition.Along State.step Permits ⟨c, 0, []⟩ events) :
    ((Transition.run State.step ⟨c, 0, []⟩ events).offers.map (edge c.tp.rcvScale)).Pairwise (· ≤ ·) ↔
      Transition.Along State.step Keeps ⟨c, 0, []⟩ events := by
  have hopen : Open c.tp.rcvScale (State.conn ⟨c, 0, []⟩) := ⟨hsyn, rfl, hoffered⟩
  have hnil : ((State.offers ⟨c, 0, []⟩).map (edge c.tp.rcvScale)).Pairwise (· ≤ ·) := List.Pairwise.nil
  exact pairwise_run_iff hscale hopen hnil events hrun

/-- A receive buffer of 70000 octets, for which the scale is one. -/
def scaled : Conn where
  tp := { tState := .established, rcvNxt := 1000, rcvAdv := 1000, rcvScale := 1, tMaxseg := 512, tTemplate := true
          tfAcknow := true }
  so := { ssIsconnected := true, soRcv := { sbHiwat := 70000, sbMbmax := 140000 } }

/-- The same after one octet has arrived. -/
def scaledByOne : Conn where
  tp := { tState := .established, rcvNxt := 1001, rcvAdv := 71000, rcvScale := 1, tMaxseg := 512, tTemplate := true
          tfAcknow := true }
  so := { ssIsconnected := true, soRcv := { sbMb := [7], sbHiwat := 70000, sbMbcnt := 128, sbMbmax := 140000 } }

def shrinkingRun : List Event := [.pass {} true 0, .between scaledByOne 1, .pass {} true 0]

theorem edge_goes_back :
    Transition.Along State.step Permits ⟨scaled, 0, []⟩ shrinkingRun ∧
      (Transition.run State.step ⟨scaled, 0, []⟩ shrinkingRun).offers.map (edge 1) = [70000, 69999] := by
  decide +kernel

theorem edge_kept_iff_shrinkingRun : ¬ Transition.Along State.step Keeps ⟨scaled, 0, []⟩ shrinkingRun := by
  have hpermits : Transition.Along State.step Permits ⟨scaled, 0, []⟩ shrinkingRun := by decide +kernel
  have hedges : (Transition.run State.step ⟨scaled, 0, []⟩ shrinkingRun).offers.map (edge 1) = [70000, 69999] := by
    decide +kernel
  rw [← edge_kept_iff scaled shrinkingRun (by decide) (by decide) (by decide) hpermits]
  change ¬ ((Transition.run State.step ⟨scaled, 0, []⟩ shrinkingRun).offers.map (edge 1)).Pairwise (· ≤ ·)
  rw [hedges]
  decide

end Advertise

end Reading.Tcp
