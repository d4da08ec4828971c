import Mathlib.Algebra.Order.Group.Abs
import Mathlib.Algebra.Order.Group.Int
import Reading.Lib.Transition
import Reading.Tcp.Timer

/-!
# The arithmetic of the retransmit timer

The smoothed round-trip time and its variance are shorts in fixed point, `t_srtt` in eighths and `t_rttvar` in quarters. Beside `tcp_xmit_timer` and the retransmit timeout stand the same formulas on integers without bound; the two agree as long as the times measured lie between one tick and 4095. A `t_srtt` of zero says that there is no estimate: none has been made yet, or the fourth timeout in a row has cleared it.
-/

namespace Reading.Tcp

open Reading Reading.Kern

/-- What a retransmit timeout makes of the timer, before the segment is sent again. -/
def Tcpcb.backOff (tp : Tcpcb) : Tcpcb :=
  let shift := tp.tRxtshift + 1
  let rxtcur := tcptRangeset (toShort (tp.rexmtval * tcpBackoff shift)) tp.tRttmin tcptvRexmtmax
  let losing := shift > tcpMaxrxtshift / 4
  { tp with
    tRxtshift := shift, tRxtcur := rxtcur, tRexmt := rxtcur
    tRttvar := if losing then toShort (tp.tRttvar + tp.tSrtt / 8) else tp.tRttvar
    tSrtt := if losing then 0 else tp.tSrtt
    sndNxt := tp.sndUna, tRtt := 0
    sndCwnd := BitVec.ofNat 32 tp.tMaxseg
    sndSsthresh := halfFlight tp
    tDupacks := 0 }

/-- The timeout of `tcp_timers`, as long as it does not drop the connection. -/
theorem rexmtTimeout_backOff {c : Conn} (env : Env) (h : c.tp.tRxtshift < tcpMaxrxtshift) :
    rexmtTimeout env c = tcpOutput env { c with tp := c.tp.backOff } := by
  have hstay : ¬ c.tp.tRxtshift + 1 > tcpMaxrxtshift := by omega
  unfold rexmtTimeout
  dsimp only
  rw [if_neg hstay]
  rfl

namespace Backoff

/-- What happens to the timer: a round-trip time is measured, or the timer goes off. -/
inductive Act where
  | sample (rtt : Int)
  | timeout

def step (tp : Tcpcb) : Act → Tcpcb
  | .sample rtt => tp.xmitTimer rtt
  | .timeout => tp.backOff

/-- The timeout is not the one that drops the connection. -/
def Permits (tp : Tcpcb) : Act → Prop
  | .sample _ => True
  | .timeout => tp.tRxtshift < tcpMaxrxtshift

instance (tp : Tcpcb) : ∀ a, Decidable (Permits tp a)
  | .sample _ => isTrue trivial
  | .timeout => inferInstanceAs (Decidable (_ < _))

/-- A time that the formulas take without overflow. -/
def Act.Plain : Act → Prop
  | .sample rtt => 1 ≤ rtt ∧ rtt ≤ 4095
  | .timeout => True

instance : ∀ a : Act, Decidable a.Plain
  | .sample _ => inferInstanceAs (Decidable (_ ∧ _))
  | .timeout => isTrue trivial

/-! ### The formulas without overflow -/

structure Estimate where
  srtt : Int
  rttvar : Int
  shift : Int
  deriving DecidableEq

/-- The new estimate for a measured time. -/
def Estimate.update (e : Estimate) (rtt : Int) : Estimate :=
  if e.srtt ≠ 0 then
    let delta := rtt - 1 - e.srtt / 8
    let srtt := e.srtt + delta
    let rttvar := e.rttvar + (|delta| - e.rttvar / 4)
    { srtt := if srtt ≤ 0 then 1 else srtt, rttvar := if rttvar ≤ 0 then 1 else rttvar, shift := 0 }
  else { srtt := rtt * 8, rttvar := rtt * 2, shift := 0 }

/-- Past a quarter of the timeouts the estimate is cleared, and what it was goes into the variance. -/
def Estimate.backOff (e : Estimate) : Estimate :=
  if e.shift + 1 > tcpMaxrxtshift / 4 then
    { srtt := 0, rttvar := e.rttvar + e.srtt / 8, shift := e.shift + 1 }
  else { e with shift := e.shift + 1 }

def Estimate.step (e : Estimate) : Act → Estimate
  | .sample rtt => e.update rtt
  | .timeout => e.backOff

def Estimate.first : Estimate where
  srtt := 0
  rttvar := tcptvSrttdflt * 4
  shift := 0

def estimate (tp : Tcpcb) : Estimate where
  srtt := tp.tSrtt
  rttvar := tp.tRttvar
  shift := tp.tRxtshift

/-- How many timeouts there have been since a time was measured, if one was. -/
def sinceSample (acts : List Act) : Option Nat :=
  acts.foldl (fun since a => match a with | .sample _ => some 0 | .timeout => since.map (· + 1)) none

theorem toShort_of_fits {x : Int} (hlo : -2 ^ 15 ≤ x) (hhi : x < 2 ^ 15) : toShort x = x := by
  rw [toShort, Int.bmod_def]
  omega

/-! ### The bounds of an estimate -/

/-- While there is an estimate the variance is within four times the greatest time; what is cleared is added to it once. -/
structure Estimate.Sane (e : Estimate) : Prop where
  srtt_nonneg : 0 ≤ e.srtt
  srtt_lt : e.srtt < 2 ^ 15
  rttvar_pos : 0 < e.rttvar
  rttvar_lt : e.rttvar < 2 ^ 14 ∨ e.srtt = 0 ∧ e.rttvar < 2 ^ 14 + 2 ^ 12
  shift_nonneg : 0 ≤ e.shift

theorem Estimate.first_sane : Estimate.first.Sane :=
  ⟨by decide, by decide, by decide, .inl (by decide), by decide⟩

section Update

variable {e : Estimate} {rtt : Int}

theorem Estimate.Sane.update (h : e.Sane) (hlo : 1 ≤ rtt) (hhi : rtt ≤ 4095) : (e.update rtt).Sane := by
  obtain ⟨hnonneg, hlt, hpos, hvar, -⟩ := h
  unfold Estimate.update
  by_cases hzero : e.srtt = 0
  · rw [if_neg (by simpa using hzero)]
    exact ⟨by dsimp only; omega, by dsimp only; omega, by dsimp only; omega, .inl (by dsimp only; omega), le_refl 0⟩
  · rw [if_pos hzero]
    have habs : |rtt - 1 - e.srtt / 8| ≤ 4095 := abs_le.mpr ⟨by omega, by omega⟩
    have habs' : 0 ≤ |rtt - 1 - e.srtt / 8| := abs_nonneg _
    have hsrtt : ¬ e.srtt + (rtt - 1 - e.srtt / 8) ≤ 0 := by omega
    have hrttvar : ¬ e.rttvar + (|rtt - 1 - e.srtt / 8| - e.rttvar / 4) ≤ 0 := by omega
    simp only [if_neg hsrtt, if_neg hrttvar]
    exact ⟨by dsimp only; omega, by dsimp only; omega, by dsimp only; omega, .inl (by dsimp only; omega), le_refl 0⟩

theorem Estimate.Sane.update_pos (h : e.Sane) (hlo : 1 ≤ rtt) : 0 < (e.update rtt).srtt := by
  have hnonneg := h.srtt_nonneg
  unfold Estimate.update
  by_cases hzero : e.srtt = 0
  · rw [if_neg (by simpa using hzero)]
    dsimp only
    omega
  · rw [if_pos hzero]
    dsimp only
    split <;> omega

/-- Nothing overflows on the way. -/
theorem Estimate.Sane.smoothed_eq (h : e.Sane) (hlo : 1 ≤ rtt) (hhi : rtt ≤ 4095) :
    Tcpcb.smoothed e.srtt e.rttvar (toShort rtt) = ((e.update rtt).srtt, (e.update rtt).rttvar) := by
  obtain ⟨hnonneg, hlt, hpos, hvar, -⟩ := h
  rw [toShort_of_fits (x := rtt) (by omega) (by omega)]
  unfold Tcpcb.smoothed Estimate.update
  by_cases hzero : e.srtt = 0
  · have hnone : ¬ e.srtt ≠ 0 := by simpa using hzero
    rw [if_neg hnone, if_neg hnone, toShort_of_fits (x := rtt * 8) (by omega) (by omega),
      toShort_of_fits (x := rtt * 2) (by omega) (by omega)]
  · have hdelta : toShort (rtt - 1 - e.srtt / 8) = rtt - 1 - e.srtt / 8 := toShort_of_fits (by omega) (by omega)
    have habs : (if rtt - 1 - e.srtt / 8 < 0 then toShort (-(rtt - 1 - e.srtt / 8)) else rtt - 1 - e.srtt / 8) =
        |rtt - 1 - e.srtt / 8| := by
      split
      · rw [toShort_of_fits (by omega) (by omega), abs_of_neg (by assumption)]
      · rw [abs_of_nonneg (by omega)]
    have hbound : |rtt - 1 - e.srtt / 8| ≤ 4095 := abs_le.mpr ⟨by omega, by omega⟩
    have hbound' : 0 ≤ |rtt - 1 - e.srtt / 8| := abs_nonneg _
    rw [if_pos hzero, if_pos hzero]
    simp only [hdelta, habs]
    rw [toShort_of_fits (x := e.srtt + _) (by omega) (by omega),
      toShort_of_fits (x := |_| - _) (by omega) (by omega),
      toShort_of_fits (x := e.rttvar + _) (by omega) (by omega)]

theorem Estimate.Sane.backOff (h : e.Sane) : e.backOff.Sane := by
  obtain ⟨hnonneg, hlt, hpos, hvar, hshift⟩ := h
  unfold Estimate.backOff
  split
  · exact ⟨le_refl 0, by dsimp only; omega, by dsimp only; omega, .inr ⟨rfl, by dsimp only; omega⟩, by dsimp only; omega⟩
  · exact ⟨hnonneg, hlt, hpos, hvar, by dsimp only; omega⟩

end Update

/-! ### Runs -/

theorem backoff_mono {shift : Int} (hnonneg : 0 ≤ shift) :
    1 ≤ tcpBackoff shift ∧ tcpBackoff shift ≤ tcpBackoff (shift + 1) := by
  by_cases hlt : shift < 6
  · have hcases : shift = 0 ∨ shift = 1 ∨ shift = 2 ∨ shift = 3 ∨ shift = 4 ∨ shift = 5 := by omega
    rcases hcases with rfl | rfl | rfl | rfl | rfl | rfl <;> decide
  · unfold tcpBackoff
    rw [if_neg hlt, if_neg (by omega)]
    decide

theorem rangeset_bounds (value : Int) {tvmin tvmax : Int} (h : tvmin ≤ tvmax) :
    tvmin ≤ tcptRangeset value tvmin tvmax ∧ tcptRangeset value tvmin tvmax ≤ tvmax := by
  unfold tcptRangeset
  split
  · omega
  · split <;> omega

theorem rangeset_mono {a b : Int} (tvmin tvmax : Int) (hle : tvmin ≤ tvmax) (h : a ≤ b) :
    tcptRangeset a tvmin tvmax ≤ tcptRangeset b tvmin tvmax := by
  unfold tcptRangeset
  split <;> split <;> (try split) <;> (try split) <;> omega

/-- The timer is within its range. -/
structure InRange (tp : Tcpcb) : Prop where
  rttmin : tp.tRttmin = tcptvMin.toNat
  low : tp.tRttmin ≤ tp.tRxtcur
  high : tp.tRxtcur ≤ tcptvRexmtmax

variable {tp : Tcpcb}

/-- Whatever is stored before it is clamped. -/
theorem InRange.of_rangeset {tp' : Tcpcb} (h : InRange tp) {value : Int} (hmin : tp'.tRttmin = tp.tRttmin)
    (hcur : tp'.tRxtcur = tcptRangeset value tp.tRttmin tcptvRexmtmax) : InRange tp' := by
  have hle : (tp.tRttmin : Int) ≤ tcptvRexmtmax := by
    rw [h.rttmin]
    decide
  obtain ⟨hlow, hhigh⟩ := rangeset_bounds value hle
  exact ⟨hmin.trans h.rttmin, by rw [hcur, hmin]; exact hlow, by rw [hcur]; exact hhigh⟩

theorem InRange.step (h : InRange tp) (a : Act) : InRange (step tp a) := by
  cases a with
  | sample rtt => exact h.of_rangeset rfl rfl
  | timeout => exact h.of_rangeset rfl rfl

theorem inRange_newtcpcb : InRange .newtcpcb := ⟨rfl, by decide, by decide⟩

/-- What holds of the timer between two steps that do not overflow. -/
structure Timed (tp : Tcpcb) : Prop where
  sane : (estimate tp).Sane
  range : InRange tp
  backed : tp.rexmtval * tcpBackoff tp.tRxtshift < 2 ^ 15 →
    tp.tRxtcur ≤ tcptRangeset (tp.rexmtval * tcpBackoff tp.tRxtshift) tp.tRttmin tcptvRexmtmax

theorem timed_newtcpcb : Timed .newtcpcb :=
  ⟨Estimate.first_sane, inRange_newtcpcb, fun _ => by decide⟩

theorem Estimate.Sane.rexmtval_bounds (h : (estimate tp).Sane) : 0 < tp.rexmtval ∧ tp.rexmtval < 2 ^ 15 := by
  obtain ⟨hnonneg, hlt, hpos, hvar, -⟩ := h
  change 0 ≤ tp.tSrtt at hnonneg
  change tp.tSrtt < _ at hlt
  change 0 < tp.tRttvar at hpos
  change tp.tRttvar < _ ∨ tp.tSrtt = 0 ∧ tp.tRttvar < _ at hvar
  unfold Tcpcb.rexmtval
  omega

theorem Timed.min_le (h : Timed tp) : (tp.tRttmin : Int) ≤ tcptvRexmtmax := by
  rw [h.range.rttmin]
  decide

theorem estimate_sample (h : Timed tp) {rtt : Int} (hlo : 1 ≤ rtt) (hhi : rtt ≤ 4095) :
    estimate (tp.xmitTimer rtt) = (estimate tp).update rtt := by
  have hsmooth := h.sane.smoothed_eq hlo hhi
  have hshift : ((estimate tp).update rtt).shift = 0 := by
    unfold Estimate.update
    split <;> rfl
  unfold estimate Tcpcb.xmitTimer at *
  dsimp only at *
  rw [hsmooth]
  exact Estimate.mk.injEq .. ▸ ⟨rfl, rfl, hshift.symm⟩

theorem estimate_timeout (h : Timed tp) : estimate tp.backOff = (estimate tp).backOff := by
  obtain ⟨hnonneg, hlt, hpos, hvar, -⟩ := h.sane
  change 0 ≤ tp.tSrtt at hnonneg
  change tp.tSrtt < _ at hlt
  change 0 < tp.tRttvar at hpos
  change tp.tRttvar < _ ∨ tp.tSrtt = 0 ∧ tp.tRttvar < _ at hvar
  unfold estimate Tcpcb.backOff Estimate.backOff
  dsimp only
  by_cases hlosing : tp.tRxtshift + 1 > tcpMaxrxtshift / 4
  · rw [if_pos hlosing, if_pos hlosing, if_pos hlosing, toShort_of_fits (by omega) (by omega)]
  · rw [if_neg hlosing, if_neg hlosing, if_neg hlosing]

/-- What is cleared from the estimate stays in the sum. -/
theorem rexmtval_backOff (h : Timed tp) : tp.backOff.rexmtval = tp.rexmtval := by
  have hestimate := estimate_timeout h
  have hsrtt : tp.backOff.tSrtt = (estimate tp).backOff.srtt := congrArg Estimate.srtt hestimate
  have hrttvar : tp.backOff.tRttvar = (estimate tp).backOff.rttvar := congrArg Estimate.rttvar hestimate
  rw [Tcpcb.rexmtval, Tcpcb.rexmtval, hsrtt, hrttvar]
  unfold Estimate.backOff
  split
  · change 0 / 8 + (tp.tRttvar + tp.tSrtt / 8) = _
    omega
  · rfl

theorem Timed.sample (h : Timed tp) {rtt : Int} (hlo : 1 ≤ rtt) (hhi : rtt ≤ 4095) : Timed (tp.xmitTimer rtt) := by
  have hestimate := estimate_sample h hlo hhi
  have hsane : (estimate (tp.xmitTimer rtt)).Sane := by
    rw [hestimate]
    exact h.sane.update hlo hhi
  obtain ⟨hpos, hlt⟩ := hsane.rexmtval_bounds
  have hcur : (tp.xmitTimer rtt).tRxtcur =
      tcptRangeset (toShort (tp.xmitTimer rtt).rexmtval) tp.tRttmin tcptvRexmtmax := rfl
  refine ⟨hsane, h.range.step (.sample rtt), fun _ => ?_⟩
  · have hone : tcpBackoff (tp.xmitTimer rtt).tRxtshift = 1 := rfl
    rw [hcur, hone, mul_one, toShort_of_fits (by omega) hlt]
    exact le_refl _

theorem Timed.timeout (h : Timed tp) : Timed tp.backOff := by
  have hshift : 0 ≤ tp.tRxtshift := h.sane.shift_nonneg
  have hsame := rexmtval_backOff h
  have hpos := h.sane.rexmtval_bounds.1
  have hcur : tp.backOff.tRxtcur =
      tcptRangeset (toShort (tp.rexmtval * tcpBackoff (tp.tRxtshift + 1))) tp.tRttmin tcptvRexmtmax := rfl
  refine ⟨?_, h.range.step .timeout, fun hfits => ?_⟩
  · rw [estimate_timeout h]
    exact h.sane.backOff
  · have hone : 1 ≤ tcpBackoff (tp.tRxtshift + 1) := (backoff_mono (by omega)).1
    have hproduct : 0 < tp.rexmtval * tcpBackoff (tp.tRxtshift + 1) := Int.mul_pos hpos (by omega)
    rw [hsame] at hfits ⊢
    change tp.rexmtval * tcpBackoff (tp.tRxtshift + 1) < 2 ^ 15 at hfits
    rw [hcur, toShort_of_fits (by omega) hfits]
    exact le_refl _

/-- A timeout does not shorten the timer as long as the product fits into a short. -/
theorem Timed.rxtcur_le (h : Timed tp) (hfits : tp.rexmtval * tcpBackoff (tp.tRxtshift + 1) < 2 ^ 15) :
    tp.tRxtcur ≤ tp.backOff.tRxtcur := by
  have hpos := h.sane.rexmtval_bounds.1
  obtain ⟨hone, hgrows⟩ := backoff_mono h.sane.shift_nonneg
  have hle : tp.rexmtval * tcpBackoff tp.tRxtshift ≤ tp.rexmtval * tcpBackoff (tp.tRxtshift + 1) :=
    Int.mul_le_mul_of_nonneg_left hgrows (by omega)
  have hproduct : 0 < tp.rexmtval * tcpBackoff tp.tRxtshift := Int.mul_pos hpos (by change 1 ≤ tcpBackoff tp.tRxtshift at hone; omega)
  calc tp.tRxtcur
      ≤ tcptRangeset (tp.rexmtval * tcpBackoff tp.tRxtshift) tp.tRttmin tcptvRexmtmax := h.backed (by omega)
    _ ≤ tcptRangeset (tp.rexmtval * tcpBackoff (tp.tRxtshift + 1)) tp.tRttmin tcptvRexmtmax :=
      rangeset_mono _ _ h.min_le hle
    _ = tp.backOff.tRxtcur := by
      rw [← toShort_of_fits (x := tp.rexmtval * tcpBackoff (tp.tRxtshift + 1)) (by omega) hfits]
      rfl

theorem backoff_le {shift : Int} (hnonneg : 0 ≤ shift) (n : Nat) : tcpBackoff shift ≤ tcpBackoff (shift + n) := by
  induction n with
  | zero => simp
  | succ n ih =>
    have hnext : tcpBackoff (shift + n) ≤ tcpBackoff (shift + n + 1) := (backoff_mono (by omega)).2
    rw [Int.natCast_succ, ← Int.add_assoc]
    exact ih.trans hnext

/-- The state after `n` timeouts in a row. -/
def timeouts (tp : Tcpcb) (n : Nat) : Tcpcb := Transition.run step tp (List.replicate n .timeout)

theorem timeouts_succ (tp : Tcpcb) (n : Nat) : timeouts tp (n + 1) = (timeouts tp n).backOff := by
  rw [timeouts, List.replicate_succ', Transition.run_append]
  rfl

theorem Timed.timeouts (h : Timed tp) (n : Nat) :
    Timed (timeouts tp n) ∧ (timeouts tp n).rexmtval = tp.rexmtval ∧ (timeouts tp n).tRxtshift = tp.tRxtshift + n := by
  induction n with
  | zero => exact ⟨h, rfl, (Int.add_zero _).symm⟩
  | succ n ih =>
    obtain ⟨htimed, hval, hshift⟩ := ih
    rw [timeouts_succ]
    refine ⟨htimed.timeout, (rexmtval_backOff htimed).trans hval, ?_⟩
    change (Backoff.timeouts tp n).tRxtshift + 1 = _
    rw [hshift, Int.add_assoc]
    rfl

/-- In a row of timeouts the timer grows, as long as the last product fits into a short. -/
theorem Timed.timeouts_le (h : Timed tp) {n i : Nat} (hfits : tp.rexmtval * tcpBackoff (tp.tRxtshift + n) < 2 ^ 15)
    (hi : i < n) : (Backoff.timeouts tp i).tRxtcur ≤ (Backoff.timeouts tp (i + 1)).tRxtcur := by
  obtain ⟨htimed, hval, hshift⟩ := h.timeouts i
  have hnonneg : 0 ≤ tp.tRxtshift := h.sane.shift_nonneg
  have hpos := h.sane.rexmtval_bounds.1
  have hgrows : tcpBackoff (tp.tRxtshift + i + 1) ≤ tcpBackoff (tp.tRxtshift + i + 1 + (n - (i + 1) : Nat)) :=
    backoff_le (by omega) (n - (i + 1))
  have hlast : tp.tRxtshift + i + 1 + ((n - (i + 1) : Nat) : Int) = tp.tRxtshift + n := by omega
  rw [hlast] at hgrows
  rw [timeouts_succ]
  apply htimed.rxtcur_le
  rw [hval, hshift]
  exact (Int.mul_le_mul_of_nonneg_left hgrows (by omega)).trans_lt hfits

/-- The timer after a run from a new connection: the formulas give its estimate, and it has one from a measured time up to the fourth timeout after it. -/
structure Reached (acts : List Act) (tp : Tcpcb) : Prop where
  timed : Timed tp
  exact : estimate tp = Transition.run Estimate.step .first acts
  unmeasured : sinceSample acts = none → tp.tSrtt = 0
  measured : ∀ n, sinceSample acts = some n → tp.tRxtshift = n ∧ (0 < tp.tSrtt ↔ n < 4)

theorem sinceSample_append (acts : List Act) (a : Act) :
    sinceSample (acts ++ [a]) = match a with | .sample _ => some 0 | .timeout => (sinceSample acts).map (· + 1) :=
  List.foldl_append

theorem Reached.sample {acts : List Act} (h : Reached acts tp) {rtt : Int} (hlo : 1 ≤ rtt) (hhi : rtt ≤ 4095) :
    Reached (acts ++ [.sample rtt]) (tp.xmitTimer rtt) where
  timed := h.timed.sample hlo hhi
  exact := by
    rw [Transition.run_append, ← h.exact]
    exact estimate_sample h.timed hlo hhi
  unmeasured hnone := by
    rw [sinceSample_append] at hnone
    cases hnone
  measured n hsome := by
    rw [sinceSample_append] at hsome
    cases hsome
    have hpos : 0 < (estimate (tp.xmitTimer rtt)).srtt := by
      rw [estimate_sample h.timed hlo hhi]
      exact h.timed.sane.update_pos hlo
    exact ⟨rfl, iff_of_true hpos (by decide)⟩

theorem tSrtt_backOff (tp : Tcpcb) : tp.backOff.tSrtt = if tp.tRxtshift + 1 > 3 then 0 else tp.tSrtt := rfl

theorem Reached.timeout {acts : List Act} (h : Reached acts tp) : Reached (acts ++ [.timeout]) tp.backOff where
  timed := h.timed.timeout
  exact := by
    rw [Transition.run_append, ← h.exact]
    exact estimate_timeout h.timed
  unmeasured hnone := by
    rw [sinceSample_append] at hnone
    rw [tSrtt_backOff, h.unmeasured (Option.map_eq_none_iff.mp hnone), ite_self]
  measured n hsome := by
    rw [sinceSample_append] at hsome
    obtain ⟨k, hk, rfl⟩ := Option.map_eq_some_iff.mp hsome
    obtain ⟨hshift, hpos⟩ := h.measured k hk
    refine ⟨?_, ?_⟩
    · change tp.tRxtshift + 1 = _
      rw [hshift]
      rfl
    · rw [tSrtt_backOff, hshift]
      by_cases hlosing : (k : Int) + 1 > 3
      · rw [if_pos hlosing]
        exact iff_of_false (by decide) (by omega)
      · rw [if_neg hlosing]
        exact iff_of_true (hpos.mpr (by omega)) (by omega)

theorem reached_run (acts : List Act) (hplain : ∀ a ∈ acts, a.Plain) :
    Reached acts (Transition.run step .newtcpcb acts) := by
  induction acts using List.reverseRecOn with
  | nil => exact ⟨timed_newtcpcb, rfl, fun _ => rfl, fun n hsome => nomatch hsome⟩
  | append_singleton acts a ih =>
    have hbefore := ih fun b hb => hplain b (List.mem_append_left _ hb)
    have hlast := hplain a (List.mem_append_right _ (List.mem_singleton_self a))
    rw [Transition.run_append]
    cases a with
    | sample rtt => exact hbefore.sample hlast.1 hlast.2
    | timeout => exact hbefore.timeout

/-- After every step of a run the timer is within its range. While nothing overflows the estimate is that of the formulas, the variance is positive, and so is the round-trip time from a measurement up to the fourth timeout after it, before and after which it is zero; and timeouts in a row do not shorten the timer. -/
theorem timer_exact (acts : List Act) (hpermits : Transition.Along step Permits .newtcpcb acts) :
    let tp := Transition.run step .newtcpcb acts
    (tp.tRttmin ≤ tp.tRxtcur ∧ tp.tRxtcur ≤ tcptvRexmtmax) ∧
      ((∀ a ∈ acts, a.Plain) →
        estimate tp = Transition.run Estimate.step .first acts ∧
        0 < tp.tRttvar ∧ 0 ≤ tp.tSrtt ∧ (0 < tp.tSrtt ↔ ∃ n < 4, sinceSample acts = some n) ∧
        ∀ n : Nat, tp.tRxtshift + n ≤ tcpMaxrxtshift → tp.rexmtval * tcpBackoff (tp.tRxtshift + n) < 2 ^ 15 →
          ∀ i < n, (timeouts tp i).tRxtcur ≤ (timeouts tp (i + 1)).tRxtcur) := by
  intro tp
  have hrange : InRange tp :=
    Transition.run_invariant step (fun _ a _ h => h.step a) hpermits inRange_newtcpcb
  refine ⟨⟨hrange.low, hrange.high⟩, fun hplain => ?_⟩
  have h : Reached acts tp := reached_run acts hplain
  refine ⟨h.exact, h.timed.sane.rttvar_pos, h.timed.sane.srtt_nonneg, ?_,
    fun n _ hfits i hi => h.timed.timeouts_le hfits hi⟩
  constructor
  · intro hpos
    cases hsince : sinceSample acts with
    | none =>
      have hzero := h.unmeasured hsince
      omega
    | some n => exact ⟨n, (h.measured n hsince).2.mp hpos, rfl⟩
  · rintro ⟨n, hlt, hsome⟩
    exact (h.measured n hsome).2.mpr hlt

/-- A time of four ticks, and four timeouts after it. -/
def losingRun : List Act := [.sample 4, .timeout, .timeout, .timeout, .timeout]

theorem timer_exact_losingRun :
    estimate (Transition.run step .newtcpcb losingRun) = { srtt := 0, rttvar := 12, shift := 4 } := by
  rw [((timer_exact losingRun (by decide)).2 (by decide)).1]
  decide

/-- The estimate is cleared by a timeout, and has not been made before the first measurement. -/
theorem srtt_not_positive :
    Transition.Along step Permits .newtcpcb losingRun ∧ (Transition.run step .newtcpcb losingRun).tSrtt = 0 ∧
      Transition.Along step Permits .newtcpcb [.timeout] ∧ (Transition.run step .newtcpcb [.timeout]).tSrtt = 0 := by
  decide

end Backoff

end Reading.Tcp
