import Reading.Tcp.SendUser
import Reading.Tcp.Session

/-!
# The account of the send sequence space

`snd_una`, `snd_nxt` and `snd_max` as distances from `snd_una`: the `b` numbers up to `snd_max` are those of the octets in the send buffer, of a SYN that is not acknowledged, and of a FIN. Unlike the phases of the send side this holds also where a connection was established without an ACK of its SYN. The FIN is found among the segments that were sent since the connection was asked for.

`TF_SENTFIN` is not cleared when a control block is used for a new connection. `tcp_output` then takes the first FIN of the new connection for one that is sent again, and a forced output leaves `snd_nxt` one behind `snd_una`.
-/

namespace Reading.Tcp

open Reading.Kern

namespace SndSide

/-- A FIN was sent under the number `q`, after the first `k` segments. -/
def FinAt (k : Nat) (s : SndSide) (q : TcpSeq) : Prop :=
  ∃ ti ∈ s.sent.drop k, ti.tiFlags.fin = true ∧ ti.seqOf ti.m.bytes.length = q

/-- The SYN was sent, after the first `k` segments, and is not acknowledged. -/
def SynOut (k : Nat) (s : SndSide) : Prop :=
  s.una = s.iss ∧ ∃ ti ∈ s.sent.drop k, ti.tiFlags.syn = true ∧ ti.tiSeq = s.iss

/-- The buffer, or a SYN when the buffer is empty, accounts for `n` numbers from `snd_una` on. -/
def Held (k : Nat) (s : SndSide) (n : Nat) : Prop :=
  n ≤ s.data.length ∨ n = 1 ∧ s.data = [] ∧ s.SynOut k

structure Ledger (k : Nat) (s : SndSide) (a b : Nat) : Prop where
  started : k ≤ s.sent.length
  fits : s.data.length + 2 < 2 ^ 31
  nxt : s.nxt = s.una + BitVec.ofNat 32 a
  max : s.max = s.una + BitVec.ofNat 32 b
  ordered : a ≤ b
  held : s.Held k b ∨ s.sentfin = true ∧ s.FinAt k (s.una + BitVec.ofNat 32 (b - 1)) ∧ ∃ n, b = n + 1 ∧ s.Held k n
  finished : s.sentfin = true →
    s.cantsendmore = true ∧ (s.data = [] ∨ b = s.data.length + 1 ∧ s.tState ≠ .established)
  closed : s.connected = false → s.data = []
  closing : s.tState = .finWait2 ∨ s.tState = .timeWait → s.data = [] ∧ s.cantsendmore = true
  fin : s.tState.sendsFin → s.cantsendmore = true
  opening : s.tState = .synSent ∨ s.tState = .synReceived → s.data = [] ∧ s.Mute ∧ s.una = s.iss ∧ b ≤ 1
  listening : s.tState = .listen → s.acceptconn = true

/-- `TF_SENTFIN` is set, and a FIN alone is to be sent, where nothing is outstanding. -/
def Stale (s : SndSide) : Prop := s.tState.sendsFin ∧ s.sentfin = true ∧ s.max = s.una ∧ s.data = []

instance (s : SndSide) : Decidable s.Stale := inferInstanceAs (Decidable (_ ∧ _))

variable {k a b : Nat} {s s' : SndSide}

theorem Held.le {n : Nat} (h : s.Held k n) : n ≤ s.data.length + 1 := by
  rcases h with h | ⟨h, -, -⟩ <;> omega

theorem Ledger.le_length (h : s.Ledger k a b) : b ≤ s.data.length + 2 := by
  rcases h.held with hheld | ⟨-, -, n, hn, hheld⟩
  · have := hheld.le
    omega
  · have := hheld.le
    omega

/-- The distances are far from wrapping. -/
theorem Ledger.small (h : s.Ledger k a b) : b + 1 < 2 ^ 31 := by
  have hfits := h.fits
  have hheld : ∀ {n}, s.Held k n → n ≤ s.data.length ∨ n ≤ 1 := by
    rintro n (hn | ⟨rfl, -, -⟩)
    · exact .inl hn
    · exact .inr (le_refl 1)
  rcases h.held with hb | ⟨-, -, n, hn, hb⟩
  · have := hheld hb
    omega
  · by_cases hempty : s.data = []
    · have := h.le_length
      rw [hempty, List.length_nil] at this
      omega
    · rcases hb with hb | ⟨-, hnone, -⟩
      · omega
      · exact absurd hnone hempty

/-- Without `TF_SENTFIN` no FIN is accounted for. -/
theorem Ledger.held_of_not_sentfin (h : s.Ledger k a b) (hsent : ¬ s.sentfin = true) : s.Held k b := by
  rcases h.held with hheld | ⟨hyes, -⟩
  · exact hheld
  · exact absurd hyes hsent

/-- `snd_una` is a few octets from `snd_max`, so that the two agree only if nothing is outstanding. -/
theorem Ledger.distance_inj (h : s.Ledger k a b) {n : Nat} (hn : n ≤ b)
    (hsame : s.una + BitVec.ofNat 32 n = s.max) : n = b := by
  have hle := h.le_length
  have hfits := h.fits
  have hdiff := seqDiff_ofNat s.una (a := n) (b := b) (by omega) (by omega)
  rw [hsame, h.max, seqDiff_self] at hdiff
  omega

/-! ### Sending -/

theorem FinAt.append {q : TcpSeq} (h : s.FinAt k q) (hsent : ∃ new, s'.sent = s.sent ++ new)
    (hstarted : k ≤ s.sent.length) : s'.FinAt k q := by
  obtain ⟨ti, hti, hfin⟩ := h
  obtain ⟨new, hnew⟩ := hsent
  refine ⟨ti, ?_, hfin⟩
  rw [hnew, List.drop_append_of_le_length hstarted]
  exact List.mem_append_left _ hti

theorem Held.append {n : Nat} (h : s.Held k n) (hsent : ∃ new, s'.sent = s.sent ++ new)
    (hstarted : k ≤ s.sent.length) (huna : s'.una = s.una) (hiss : s'.iss = s.iss) (hdata : s'.data = s.data) :
    s'.Held k n := by
  rcases h with h | ⟨hn, hempty, hsyn, ti, hti, hflag, hseq⟩
  · exact .inl (hdata ▸ h)
  · obtain ⟨new, hnew⟩ := hsent
    refine .inr ⟨hn, hdata.trans hempty, huna.trans (hsyn.trans hiss.symm), ti, ?_, hflag, hseq.trans hiss.symm⟩
    rw [hnew, List.drop_append_of_le_length hstarted]
    exact List.mem_append_left _ hti

theorem Ledger.extend (h : s.Ledger k a b) {a' b' : Nat} {new : List Seg} {f : Bool}
    (hs' : s' = { s with
      nxt := s.una + BitVec.ofNat 32 a', max := s.una + BitVec.ofNat 32 b', sentfin := f
      sent := s.sent ++ new })
    (hordered : a' ≤ b') (hsent : s.sentfin = true → f = true)
    (hheld : b' = b ∨ s'.Held k b' ∨
      f = true ∧ s'.FinAt k (s.una + BitVec.ofNat 32 (b' - 1)) ∧ ∃ n, b' = n + 1 ∧ s'.Held k n)
    (hfinished : f = true →
      s.cantsendmore = true ∧ (s.data = [] ∨ b' = s.data.length + 1 ∧ s.tState ≠ .established))
    (hopening : s.tState = .synSent ∨ s.tState = .synReceived → b' ≤ 1) : s'.Ledger k a' b' := by
  have hnew : ∃ new, s'.sent = s.sent ++ new := ⟨new, by rw [hs']⟩
  have huna : s'.una = s.una := by rw [hs']
  have hiss : s'.iss = s.iss := by rw [hs']
  have hdata : s'.data = s.data := by rw [hs']
  have hlast : s'.Held k b' ∨
      f = true ∧ s'.FinAt k (s'.una + BitVec.ofNat 32 (b' - 1)) ∧ ∃ n, b' = n + 1 ∧ s'.Held k n := by
    rw [huna]
    rcases hheld with rfl | hheld
    · rcases h.held with hheld | ⟨hyes, hfin, n, hn, hheld⟩
      · exact .inl (hheld.append hnew h.started huna hiss hdata)
      · exact .inr ⟨hsent hyes, hfin.append hnew h.started, n, hn, hheld.append hnew h.started huna hiss hdata⟩
    · exact hheld
  obtain ⟨started, fits, -, -, -, -, -, closed, closing, fin, opening, listening⟩ := h
  rw [hs'] at hlast ⊢
  refine ⟨?_, fits, rfl, rfl, hordered, hlast, hfinished, closed, closing, fin, fun hstate => ?_, listening⟩
  · show k ≤ (s.sent ++ new).length
    rw [List.length_append]
    omega
  · obtain ⟨hempty, hmute, hsyn, -⟩ := opening hstate
    exact ⟨hempty, hmute, hsyn, hopening hstate⟩

theorem Ledger.withNxt (h : s.Ledger k a b) {a' : Nat} (ha' : a' ≤ b) :
    ({ s with nxt := s.una + BitVec.ofNat 32 a' } : SndSide).Ledger k a' b :=
  ⟨h.started, h.fits, rfl, h.max, ha', h.held, h.finished, h.closed, h.closing, h.fin, h.opening, h.listening⟩

end SndSide

section Pass

variable {c c₂ : Conn} {flags : Flags} {options : List TcpOption} {len : Int} {data : List Byte} {k a b : Nat}

theorem forcing_iff {c : Conn} : c.forcing = true ↔ ¬ (c.tp.tForce = false ∨ c.tp.tPersist = 0) := by
  unfold Conn.forcing
  cases c.tp.tForce <;> simp

theorem forced_record (flags : Flags) (len : Int) (hforcing : c.forcing = true) :
    let tp := pullSndUp (resendFin c.tp flags)
    (outRecord tp flags len).sndNxt = tp.sndNxt ∧
      (outRecord tp flags len).sndMax =
        (if seqGT (tp.sndNxt + BitVec.ofInt 32 len) tp.sndMax then tp.sndNxt + BitVec.ofInt 32 len
          else tp.sndMax) ∧
      (outRecord tp flags len).tfSentfin = tp.tfSentfin :=
  outRecord_persist flags len (forcing_iff.1 hforcing)

variable (options data) in
/-- The numbers after a segment that does not count as sent again begins at offset `a`: what `snd_nxt` and `snd_max` become. -/
theorem afterSegment_numbers {L n : Nat} (hlen : len = L) (hnxt : (resendFin c.tp flags).sndNxt = c.snd.una + BitVec.ofNat 32 n)
    (hmax : c.snd.max = c.snd.una + BitVec.ofNat 32 b) (hn : n + L + 1 < 2 ^ 31) (hb : b < 2 ^ 31)
    (hsyn : flags.syn = false) :
    let m := if c.forcing then n else n + L + (if flags.fin then 1 else 0)
    let top := Max.max (if c.forcing then n + L else m) b
    afterSegment c flags options len data =
      { c.snd with
        nxt := c.snd.una + BitVec.ofNat 32 m, max := c.snd.una + BitVec.ofNat 32 top
        sentfin := if c.forcing then c.snd.sentfin else c.snd.sentfin || flags.fin
        sent := c.snd.sent ++ [outSegment { c with tp := resendFin c.tp flags } flags options len data] } := by
  have hstart : (pullSndUp (resendFin c.tp flags)).sndNxt = c.snd.una + BitVec.ofNat 32 n := hnxt
  have hold : (pullSndUp (resendFin c.tp flags)).sndMax = c.snd.una + BitVec.ofNat 32 b := hmax
  have hadd : ∀ m, c.snd.una + BitVec.ofNat 32 n + BitVec.ofNat 32 m = c.snd.una + BitVec.ofNat 32 (n + m) := by
    intro m
    rw [BitVec.add_assoc, ← BitVec.ofNat_add]
  by_cases hforcing : c.forcing = true
  · obtain ⟨hnxt', hmax', hsent'⟩ := forced_record flags len hforcing
    rw [hstart] at hnxt'
    rw [hstart, hold, hlen, BitVec.ofInt_natCast, hadd, ite_seqGT _ (by omega) hb, ← hlen] at hmax'
    simp only [hforcing, if_true]
    unfold afterSegment
    dsimp only
    rw [hnxt', hmax', hsent']
    rfl
  · have hnormal : (pullSndUp (resendFin c.tp flags)).tForce = false ∨
        (pullSndUp (resendFin c.tp flags)).tPersist = 0 := not_not.1 fun hnot => hforcing (forcing_iff.2 hnot)
    obtain ⟨hnxt', hmax', hsent'⟩ := outRecord_normal flags len hnormal
    have hmore : (outRecord (pullSndUp (resendFin c.tp flags)) flags len).sndNxt =
        c.snd.una + BitVec.ofNat 32 (n + L + (if flags.fin then 1 else 0)) := by
      rw [hnxt', hstart, hsyn, hlen, BitVec.ofInt_natCast, Nat.add_assoc, Nat.add_comm L, ← hadd,
        BitVec.ofNat_add, ← BitVec.add_assoc]
      cases flags.fin <;> simp
    have hsmall : n + L + (if flags.fin then 1 else 0) < 2 ^ 31 := by
      split <;> omega
    rw [hmore, hold, ite_seqGT _ hsmall hb] at hmax'
    simp only [hforcing, if_false, Bool.false_eq_true]
    unfold afterSegment
    dsimp only
    rw [hmore, hmax', hsent']
    rfl

theorem outSegment_fin (c : Conn) (flags : Flags) (options : List TcpOption) (len : Int) (data : List Byte) :
    (outSegment c flags options len data).tiFlags.fin = flags.fin := by
  unfold outSegment
  dsimp only
  split <;> rfl

/-- A FIN is taken for one that is sent again. -/
def resends (c : Conn) (flags : Flags) : Prop :=
  flags.fin = true ∧ c.tp.tfSentfin = true ∧ c.tp.sndNxt = c.tp.sndMax

variable (options data) in
/-- A FIN that is sent again, and not forced, leaves the numbers as they were. -/
theorem afterSegment_resent (hlen : len = 0) (hagain : resends c flags) (hsyn : flags.syn = false)
    (hforcing : ¬ c.forcing = true) :
    afterSegment c flags options len data =
      { c.snd with
        sent := c.snd.sent ++ [outSegment { c with tp := resendFin c.tp flags } flags options len data] } := by
  have hnormal : (pullSndUp (resendFin c.tp flags)).tForce = false ∨
      (pullSndUp (resendFin c.tp flags)).tPersist = 0 := not_not.1 fun hnot => hforcing (forcing_iff.2 hnot)
  obtain ⟨hnxt', hmax', hsent'⟩ := outRecord_normal flags len hnormal
  have hstart : (pullSndUp (resendFin c.tp flags)).sndNxt = c.tp.sndNxt - 1 := if_pos hagain
  have hsame : (outRecord (pullSndUp (resendFin c.tp flags)) flags len).sndNxt = c.snd.nxt := by
    rw [hnxt', hstart, hsyn, hagain.1, hlen]
    have hback : c.tp.sndNxt - 1 + 0 + 1 + BitVec.ofInt 32 0 = c.tp.sndNxt := by simp
    exact hback
  have htop : (outRecord (pullSndUp (resendFin c.tp flags)) flags len).sndMax = c.snd.max := by
    rw [hmax', hsame]
    have heq : c.snd.nxt = c.snd.max := hagain.2.2
    rw [heq]
    exact ite_self _
  have hfin : (outRecord (pullSndUp (resendFin c.tp flags)) flags len).tfSentfin = c.snd.sentfin := by
    rw [hsent', hagain.1, Bool.or_true]
    exact hagain.2.1.symm
  unfold afterSegment
  dsimp only
  rw [hsame, htop, hfin]
  rfl

/-- The segment has `L` octets from offset `a` of the buffer on, and a FIN only if nothing is left behind them. -/
structure Plans (c : Conn) (flags : Flags) (a L : Nat) : Prop where
  octets : L ≠ 0 → a + L ≤ c.snd.data.length
  syn : flags.syn = false
  fin : flags.fin = true → c.snd.tState.sendsFin ∧ c.snd.data.length ≤ a + L
  opened : ¬ (c.snd.tState = .synSent ∨ c.snd.tState = .synReceived)

namespace SndSide.Ledger

variable {L : Nat}

theorem lt_of_plans (h : c.snd.Ledger k a b) (p : Plans c flags a L) : a + L + 1 < 2 ^ 31 := by
  have hsmall := h.small
  have hordered := h.ordered
  by_cases hzero : L = 0
  · omega
  · have hfits := h.fits
    have hoctets := p.octets hzero
    omega

/-- A FIN that is sent again has no octets in front of it, and nothing is outstanding but the FIN. -/
theorem resent_empty (h : c.snd.Ledger k a b) (p : Plans c flags a L) (hagain : resends c flags) : a = b ∧ L = 0 := by
  obtain ⟨-, hsent, hsame⟩ := hagain
  have hsame' : c.snd.nxt = c.snd.max := hsame
  have hab : a = b := h.distance_inj h.ordered (h.nxt ▸ hsame')
  refine ⟨hab, ?_⟩
  by_contra hne
  have hoctets := p.octets hne
  rcases (h.finished hsent).2 with hempty | hlast
  · rw [hempty, List.length_nil] at hoctets
    omega
  · have hend := hlast.1
    omega

/-- `snd_nxt` is behind the number at which the FIN is believed to be. -/
theorem resent (h : c.snd.Ledger k a b) (p : Plans c flags a L) (hlen : len = L) (hagain : resends c flags)
    (hfresh : c.forcing = true → ¬ c.snd.Stale) :
    ∃ a' b', b ≤ b' ∧ (afterSegment c flags options len data).Ledger k a' b' := by
  obtain ⟨hab, hzero⟩ := h.resent_empty p hagain
  have hsmall := h.small
  have hfinished := h.finished hagain.2.1
  by_cases hforcing : c.forcing = true
  · have hpos : 0 < a := by
      by_contra hnot
      have hlength := (p.fin hagain.1).2
      refine hfresh hforcing ⟨(p.fin hagain.1).1, hagain.2.1, ?_, List.eq_nil_of_length_eq_zero (by omega)⟩
      rw [h.max, ← hab, show a = 0 by omega]
      exact BitVec.add_zero _
    have hstart : (resendFin c.tp flags).sndNxt = c.snd.una + BitVec.ofNat 32 (a - 1) := by
      have hback : (resendFin c.tp flags).sndNxt = c.snd.nxt - 1 := if_pos hagain
      have hone : BitVec.ofNat 32 a = BitVec.ofNat 32 (a - 1) + 1 := by
        rw [show a = a - 1 + 1 by omega, BitVec.ofNat_add]
        rfl
      rw [hback, h.nxt, hone, ← BitVec.add_assoc, BitVec.add_sub_cancel]
    have hafter := afterSegment_numbers options data hlen hstart h.max (by omega) (by omega) p.syn
    simp only [hforcing, if_true] at hafter
    have htop : Max.max (a - 1 + L) b = b := max_eq_right (by omega)
    rw [htop] at hafter
    exact ⟨a - 1, b, le_refl b, h.extend hafter (by omega) id (.inl rfl) (fun _ => hfinished) fun hstate => absurd hstate p.opened⟩
  · have hafter := afterSegment_resent options data (show len = 0 by omega) hagain p.syn hforcing
    have hsame : afterSegment c flags options len data =
        { c.snd with
          nxt := c.snd.una + BitVec.ofNat 32 a, max := c.snd.una + BitVec.ofNat 32 b, sentfin := c.snd.sentfin
          sent := c.snd.sent ++ [outSegment { c with tp := resendFin c.tp flags } flags options len data] } := by
      rw [hafter, ← h.nxt, ← h.max]
    exact ⟨a, b, le_refl b, h.extend hsame h.ordered id (.inl rfl) (fun _ => hfinished) fun hstate => absurd hstate p.opened⟩

/-- The number behind the last octet is held, and it is the end of the buffer if there is one. -/
theorem held_end (h : c.snd.Ledger k a b) (p : Plans c flags a L) (hsent : ¬ c.snd.sentfin = true) (hlast : ¬ a + L + 1 ≤ b)
    (hreach : c.snd.data.length ≤ a + L) : c.snd.Held k (a + L) ∧ (c.snd.data = [] ∨ a + L = c.snd.data.length) := by
  have hordered := h.ordered
  have hheld := h.held_of_not_sentfin hsent
  by_cases hzero : L = 0
  · have hab : a + L = b := by omega
    rw [hab]
    refine ⟨hheld, ?_⟩
    rcases hheld with hheld | ⟨-, hempty, -⟩
    · exact .inr (by omega)
    · exact .inl hempty
  · have hoctets := p.octets hzero
    exact ⟨.inl hoctets, .inr (by omega)⟩

/-- Where a FIN was sent before, the number behind this one is not beyond `snd_max`. -/
theorem fin_le (h : c.snd.Ledger k a b) (p : Plans c flags a L) (hagain : ¬ resends c flags) (hflag : flags.fin = true)
    (hsent : c.snd.sentfin = true) : a + L + 1 ≤ b := by
  have hordered := h.ordered
  have hne : a ≠ b := by
    intro hab
    refine hagain ⟨hflag, hsent, ?_⟩
    show c.snd.nxt = c.snd.max
    rw [h.nxt, h.max, hab]
  by_cases hzero : L = 0
  · omega
  · have hoctets := p.octets hzero
    rcases (h.finished hsent).2 with hempty | hend
    · rw [hempty, List.length_nil] at hoctets
      omega
    · have hlast := hend.1
      omega

/-- The FIN takes the number after the data. -/
theorem finSent (h : c.snd.Ledger k a b) (p : Plans c flags a L) (hlen : len = L) (hdata : data.length = L)
    (hagain : ¬ resends c flags) (hforcing : c.forcing = false) (hflag : flags.fin = true) :
    ∃ a' b', b ≤ b' ∧ (afterSegment c flags options len data).Ledger k a' b' := by
  have hend := h.lt_of_plans p
  have hsmall := h.small
  obtain ⟨hstate, hreach⟩ := p.fin hflag
  have hshut := h.fin hstate
  have hstart : (resendFin c.tp flags).sndNxt = c.snd.una + BitVec.ofNat 32 a := (if_neg hagain).trans h.nxt
  have hafter := afterSegment_numbers options data hlen hstart h.max (by omega) (by omega) p.syn
  obtain ⟨ti, hti⟩ : ∃ ti, ti = outSegment { c with tp := resendFin c.tp flags } flags options len data := ⟨_, rfl⟩
  rw [← hti] at hafter
  simp only [hforcing, hflag, Bool.false_eq_true, if_false, if_true, Bool.or_true] at hafter
  by_cases hmore : a + L + 1 ≤ b
  · rw [max_eq_right hmore] at hafter
    refine ⟨_, b, le_refl b, h.extend hafter hmore (fun _ => rfl) (.inl rfl) (fun _ => ⟨hshut, ?_⟩)
      fun hstate => absurd hstate p.opened⟩
    by_cases hsent : c.snd.sentfin = true
    · exact (h.finished hsent).2
    · rcases h.held_of_not_sentfin hsent with hheld | ⟨-, hempty, -⟩
      · omega
      · exact .inl hempty
  · have hsent : ¬ c.snd.sentfin = true := fun hsent => hmore (h.fin_le p hagain hflag hsent)
    obtain ⟨hheld, hlast⟩ := h.held_end p hsent hmore hreach
    have hestablished : c.snd.tState ≠ .established := by
      intro hstate'
      rw [hstate'] at hstate
      exact absurd hstate (by decide)
    rw [max_eq_left (by omega)] at hafter
    have hnew : ∃ new, (afterSegment c flags options len data).sent = c.snd.sent ++ new := ⟨[ti], by rw [hafter]⟩
    refine ⟨_, a + L + 1, by omega, h.extend hafter (le_refl _) (fun _ => rfl) (.inr (.inr ⟨rfl, ?_, ?_⟩))
      (fun _ => ⟨hshut, hlast.imp_right fun hend => ⟨by omega, hestablished⟩⟩) fun hstate => absurd hstate p.opened⟩
    · refine ⟨ti, ?_, ?_, ?_⟩
      · rw [hafter]
        show ti ∈ (c.snd.sent ++ [ti]).drop k
        rw [List.drop_append_of_le_length h.started]
        exact List.mem_append_right _ (List.mem_singleton.2 rfl)
      · rw [hti, outSegment_fin, hflag]
      · rw [hti, Seg.seqOf, outSegment_syn, p.syn, outSegment_bytes, hdata]
        have hseq : (outSegment { c with tp := resendFin c.tp flags } flags options len data).tiSeq =
            c.snd.una + BitVec.ofNat 32 a := (if_pos (.inr (.inr (.inl hflag)))).trans hstart
        rw [hseq, Nat.add_sub_cancel, BitVec.ofNat_add a, ← BitVec.add_assoc]
        simp
    · exact ⟨a + L, rfl, hheld.append hnew h.started (by rw [hafter]) (by rw [hafter]) (by rw [hafter])⟩

/-- The number of a FIN is not counted, and `TF_SENTFIN` stays. -/
theorem uncounted (h : c.snd.Ledger k a b) (p : Plans c flags a L) (hlen : len = L) (hagain : ¬ resends c flags)
    (hcounted : ¬ (c.forcing = false ∧ flags.fin = true)) :
    ∃ a' b', b ≤ b' ∧ (afterSegment c flags options len data).Ledger k a' b' := by
  have hend := h.lt_of_plans p
  have hsmall := h.small
  have hstart : (resendFin c.tp flags).sndNxt = c.snd.una + BitVec.ofNat 32 a := (if_neg hagain).trans h.nxt
  have hafter := afterSegment_numbers options data hlen hstart h.max (by omega) (by omega) p.syn
  have hflag : ¬ c.forcing = true → flags.fin = false := by
    intro hforcing
    by_contra hflag
    exact hcounted ⟨by simpa using hforcing, by simpa using hflag⟩
  have hsent' : (if c.forcing then c.snd.sentfin else c.snd.sentfin || flags.fin) = c.snd.sentfin := by
    by_cases hforcing : c.forcing = true
    · rw [if_pos hforcing]
    · rw [if_neg hforcing, hflag hforcing, Bool.or_false]
  have hnumbers : (if c.forcing then a + L else if c.forcing then a else a + L + if flags.fin then 1 else 0) =
      a + L := by
    by_cases hforcing : c.forcing = true
    · rw [if_pos hforcing]
    · rw [if_neg hforcing, if_neg hforcing, hflag hforcing]
      rfl
  dsimp only at hafter
  rw [hsent', hnumbers] at hafter
  have hm : (if c.forcing then a else a + L + if flags.fin then 1 else 0) ≤ a + L := by
    by_cases hforcing : c.forcing = true
    · rw [if_pos hforcing]
      omega
    · rw [if_neg hforcing] at hnumbers
      exact le_of_eq hnumbers
  refine ⟨_, Max.max (a + L) b, le_max_right _ _, h.extend hafter (le_trans hm (le_max_left _ _)) id ?_
    (fun hsent => ?_) fun hstate => absurd hstate p.opened⟩
  · by_cases hmore : a + L ≤ b
    · exact .inl (max_eq_right hmore)
    · have hordered := h.ordered
      have hne : L ≠ 0 := by omega
      refine .inr (.inl (.inl ?_))
      rw [max_eq_left (by omega)]
      show a + L ≤ (afterSegment c flags options len data).data.length
      rw [hafter]
      exact p.octets hne
  · obtain ⟨hshut, hlast⟩ := h.finished hsent
    have hordered := h.ordered
    refine ⟨hshut, hlast.imp_right (And.imp_left fun hlast => ?_)⟩
    by_cases hzero : L = 0
    · omega
    · have hoctets := p.octets hzero
      omega

theorem segment (h : c.snd.Ledger k a b) (p : Plans c flags a L) (hlen : len = L) (hdata : data.length = L)
    (hfresh : c.forcing = true → ¬ c.snd.Stale) :
    ∃ a' b', b ≤ b' ∧ (afterSegment c flags options len data).Ledger k a' b' := by
  by_cases hagain : resends c flags
  · exact h.resent p hlen hagain hfresh
  · by_cases hcounted : c.forcing = false ∧ flags.fin = true
    · exact h.finSent p hlen hdata hagain hcounted.1 hcounted.2
    · exact h.uncounted p hlen hagain hcounted

end SndSide.Ledger

/-- The SYN is sent under `iss`, once more or for the first time. -/
theorem SndSide.Ledger.synSegment (h : c.snd.Ledger k 0 b) (hlen : len = 0) (hsyn : flags.syn = true)
    (hfin : flags.fin = false) (hopening : c.snd.tState = .synSent ∨ c.snd.tState = .synReceived) :
    ∃ a' b', b ≤ b' ∧ (afterSegment c flags options len data).Ledger k a' b' := by
  obtain ⟨hempty, -, huna, hb⟩ := h.opening hopening
  have hstart : (pullSndUp (resendFin c.tp flags)).sndNxt = c.snd.una + BitVec.ofNat 32 0 :=
    (resendFin_of_not_fin c.tp hfin).trans h.nxt
  have hold : (pullSndUp (resendFin c.tp flags)).sndMax = c.snd.una + BitVec.ofNat 32 b := h.max
  obtain ⟨ti, hti⟩ : ∃ ti, ti = outSegment { c with tp := resendFin c.tp flags } flags options len data := ⟨_, rfl⟩
  by_cases hforcing : c.forcing = true
  · obtain ⟨hnxt', hmax', hsent'⟩ := forced_record flags len hforcing
    have hstay : c.snd.una + BitVec.ofNat 32 0 + BitVec.ofInt 32 0 = c.snd.una + BitVec.ofNat 32 0 := by simp
    rw [hstart, hold, hlen, hstay, ite_seqGT _ (by omega) (by omega), max_eq_right (Nat.zero_le b), ← hlen] at hmax'
    have hafter : afterSegment c flags options len data =
        { c.snd with
          nxt := c.snd.una + BitVec.ofNat 32 0, max := c.snd.una + BitVec.ofNat 32 b, sentfin := c.snd.sentfin
          sent := c.snd.sent ++ [ti] } := by
      unfold afterSegment
      dsimp only
      rw [hnxt', hmax', hsent', hstart, hti]
      rfl
    exact ⟨0, b, le_refl b, h.extend hafter (Nat.zero_le b) id (.inl rfl) h.finished fun _ => hb⟩
  · have hnormal : (pullSndUp (resendFin c.tp flags)).tForce = false ∨
        (pullSndUp (resendFin c.tp flags)).tPersist = 0 := not_not.1 fun hnot => hforcing (forcing_iff.2 hnot)
    obtain ⟨hnxt', hmax', hsent'⟩ := outRecord_normal flags len hnormal
    have hone : (outRecord (pullSndUp (resendFin c.tp flags)) flags len).sndNxt =
        c.snd.una + BitVec.ofNat 32 1 := by
      rw [hnxt', hstart, hsyn, hfin, hlen]
      simp
    rw [hone, hold, ite_seqGT _ (by omega) (by omega), max_eq_left hb] at hmax'
    have hafter : afterSegment c flags options len data =
        { c.snd with
          nxt := c.snd.una + BitVec.ofNat 32 1, max := c.snd.una + BitVec.ofNat 32 1, sentfin := c.snd.sentfin
          sent := c.snd.sent ++ [ti] } := by
      unfold afterSegment
      dsimp only
      rw [hone, hmax', hsent', hfin, Bool.or_false, hti]
      rfl
    refine ⟨1, 1, hb, h.extend hafter (le_refl 1) id (.inr (.inl (.inr ⟨rfl, ?_, ?_, ti, ?_, ?_, ?_⟩)))
      (fun hsent => ⟨(h.finished hsent).1, .inl hempty⟩) fun _ => le_refl 1⟩
    · rw [hafter]
      exact hempty
    · rw [hafter]
      exact huna
    · rw [hafter]
      show ti ∈ (c.snd.sent ++ [ti]).drop k
      rw [List.drop_append_of_le_length h.started]
      exact List.mem_append_right _ (List.mem_singleton.2 rfl)
    · rw [hti, outSegment_syn, hsyn]
    · have hseq : ti.tiSeq = (resendFin c.tp flags).sndNxt := by
        rw [hti]
        exact if_pos (.inr (.inl hsyn))
      rw [hafter, hseq]
      exact hstart.trans ((BitVec.add_zero _).trans huna)

/-- An output that is forced in persist state is not one for a stale FIN. -/
def Fresh (c : Conn) : Prop := c.forcing = true → ¬ c.snd.Stale

theorem outSettled_forcing (h : (outSettled c).forcing = true) : c.forcing = true := by
  rw [forcing_iff, not_or] at h ⊢
  refine ⟨h.1, fun hzero => h.2 ?_⟩
  show (if _ then 0 else c.tp.tPersist) = 0
  rw [hzero, ite_self]

theorem SndSide.Ledger.pass (h : c.snd.Ledger k a b) (hfresh : Fresh c) (env : Env) (idle : Bool) (pass : Nat) :
    ∃ a' b', b ≤ b' ∧ (outPass env idle pass c).1.snd.Ledger k a' b' := by
  have hordered := h.ordered
  have hspan : a ≤ c.snd.data.length + 2 := le_trans hordered h.le_length
  obtain ⟨a₁, L, ha₁, hL, hnxt, hlong, hlate⟩ := settled_of_nxt h.nxt hspan h.fits
  have hback : ({ c.snd with nxt := c.snd.una + BitVec.ofNat 32 a₁ } : SndSide).Ledger k a₁ b := h.withNxt (by omega)
  by_cases hopening : c.snd.tState = .synSent ∨ c.snd.tState = .synReceived
  · have hsyn : (tcpOutflags c.tp.tState).syn = true := (tcpOutflags_syn _).2 hopening
    obtain ⟨hempty, -, huna, -⟩ := h.opening hopening
    have hfirst : firstSeq c = c.snd.una + BitVec.ofNat 32 0 :=
      (if_pos hsyn).trans (huna.symm.trans (BitVec.add_zero _).symm)
    have hzero : ({ c.snd with nxt := c.snd.una + BitVec.ofNat 32 0 } : SndSide).Ledger k 0 b :=
      h.withNxt (Nat.zero_le b)
    rcases outPass_spec env idle pass c with heq | heq | ⟨c₂, flags, options, len, data, hsending, heq⟩
    · rw [heq, hnxt]
      exact ⟨a₁, b, le_refl b, hback⟩
    · rw [heq, hfirst]
      exact ⟨0, b, le_refl b, hzero⟩
    · rw [heq]
      have hsnd := hsending.snd
      rw [hfirst] at hsnd
      have hstate : c₂.snd.tState = c.snd.tState := by rw [hsnd]
      have hfin : flags.fin = false := by
        by_contra hne
        have hout := tcpOutflags_fin (hsending.fin (by simpa using hne)).1
        have hout' : c.snd.tState.sendsFin := hout
        rcases hopening with hsame | hsame
        · rw [hsame] at hout'
          exact absurd hout' (by decide)
        · rw [hsame] at hout'
          exact absurd hout' (by decide)
      have hzero₂ : c₂.snd.Ledger k 0 b := by
        rw [hsnd]
        exact hzero
      exact hzero₂.synSegment (hsending.empty hempty).1 (hsending.syn.trans hsyn) hfin (hstate ▸ hopening)
  · have hsyn : (tcpOutflags c.tp.tState).syn = false := by
      rw [Bool.eq_false_iff]
      exact fun hflag => hopening ((tcpOutflags_syn _).1 hflag)
    have hfirst : firstSeq c = c.snd.una + BitVec.ofNat 32 a₁ := by
      rw [firstSeq, hsyn, if_neg Bool.false_ne_true, hnxt]
    rcases outPass_spec env idle pass c with heq | heq | ⟨c₂, flags, options, len, data, hsending, heq⟩
    · rw [heq, hnxt]
      exact ⟨a₁, b, le_refl b, hback⟩
    · rw [heq, hfirst]
      exact ⟨a₁, b, le_refl b, hback⟩
    · rw [heq]
      have hsnd := hsending.snd
      rw [hfirst] at hsnd
      have hstate : c₂.snd.tState = c.snd.tState := by rw [hsnd]
      have hdata₂ : c₂.snd.data = c.snd.data := by rw [hsnd]
      have hback₂ : c₂.snd.Ledger k a₁ b := by
        rw [hsnd]
        exact hback
      obtain ⟨N, hN, hNlong, hNdata⟩ := hsending.octets (outOff_of_nxt h.nxt hspan h.fits) hL hlong
      have hNlen : data.length = N := by
        rw [hNdata, List.length_take, List.length_drop]
        by_cases hzero : N = 0
        · omega
        · have := hNlong hzero
          omega
      refine hback₂.segment ⟨by rwa [hdata₂], hsending.syn.trans hsyn, fun hflag => ?_, hstate ▸ hopening⟩ hN hNlen
        (fun hforcing hstale => ?_)
      · obtain ⟨hout, hearly, hlen⟩ := hsending.fin hflag
        refine ⟨hstate ▸ tcpOutflags_fin hout, ?_⟩
        have := hlate hearly
        rw [hdata₂]
        omega
      · rw [hsending.forcing] at hforcing
        rw [hsnd] at hstale
        exact hfresh (outSettled_forcing hforcing) hstale

/-- Recording a segment does not begin to force, and does not count a FIN while it is forced. -/
theorem outRecord_forced {tp : Tcpcb} (hforce : (outRecord tp flags len).tForce = true)
    (hpersist : (outRecord tp flags len).tPersist ≠ 0) :
    tp.tForce = true ∧ tp.tPersist ≠ 0 ∧ (outRecord tp flags len).tfSentfin = tp.tfSentfin := by
  by_cases hnormal : tp.tForce = false ∨ tp.tPersist = 0
  · exfalso
    have hrecord : outRecord tp flags len = outTimer (outMax (outAdvance tp flags len) tp.sndNxt) := if_pos hnormal
    rw [hrecord] at hforce hpersist
    rcases hnormal with hnot | hzero
    · have hforce' : tp.tForce = true := hforce
      rw [hnot] at hforce'
      cases hforce'
    · apply hpersist
      show (if _ then 0 else tp.tPersist) = 0
      rw [hzero, ite_self]
  · have hrecord := outRecord_persist flags len hnormal
    rw [not_or] at hnormal
    exact ⟨by simpa using hnormal.1, hnormal.2, hrecord.2.2⟩

/-- A pass after which the loop goes round does not begin to force, and does not count a FIN while it is forced. -/
theorem outPass_forced (env : Env) (idle : Bool) (pass : Nat) (hloop : (outPass env idle pass c).2 = true)
    (hforcing : (outPass env idle pass c).1.forcing = true) :
    c.forcing = true ∧ (outPass env idle pass c).1.snd.sentfin = c.snd.sentfin := by
  have hoffer := outOffer_forcing env (startSeq (outSettled c) (outPlan c).2.flags) (outPlan c).2.flags
  have hsent : (outOffer env (startSeq (outSettled c) (outPlan c).2.flags) (outPlan c).2.flags).1.snd.sentfin =
      c.snd.sentfin := by
    unfold outOffer
    split
    · rw [tcpMss_snd]
      rfl
    · rfl
  unfold outPass at hloop hforcing ⊢
  dsimp only at hloop hforcing ⊢
  split at hloop
  · rename_i hsend
    rw [if_pos hsend] at hforcing ⊢
    have hplan : (outPlan c).1 = outSettled c := rfl
    rw [hplan] at hloop hforcing ⊢
    unfold outSend at hloop hforcing ⊢
    dsimp only at hloop hforcing ⊢
    generalize outOffer env (startSeq (outSettled c) (outPlan c).2.flags) (outPlan c).2.flags = offer
      at hoffer hsent hloop hforcing ⊢
    split at hloop
    · cases hloop
    · rename_i hmbuf
      rw [if_neg hmbuf] at hforcing ⊢
      split at hloop
      · cases hloop
      · rename_i data hdata
        simp only [hdata] at hforcing ⊢
        split at hloop
        · cases hloop
        · rename_i htemplate
          rw [if_neg htemplate] at hforcing ⊢
          unfold outFill outDeliver at hloop hforcing ⊢
          cases hip : env.ipOutput pass with
          | enobufs => simp [hip] at hloop
          | ehostunreach => simp [hip] at hloop
          | other => simp [hip] at hloop
          | ok =>
            simp only [hip] at hforcing ⊢
            rw [forcing_iff, not_or] at hforcing
            obtain ⟨hforce, hpersist⟩ := hforcing
            obtain ⟨hforce', hpersist', hsame⟩ := outRecord_forced (by simpa using hforce) hpersist
            refine ⟨outSettled_forcing ?_, hsame.trans hsent⟩
            have hstart : (outSettled c).forcing = offer.1.forcing := hoffer.symm
            rw [hstart, forcing_iff, not_or]
            have hforce'' : offer.1.tp.tForce = true := hforce'
            exact ⟨by rw [hforce'']; decide, hpersist'⟩
  · split at hloop
    · cases hloop
    · cases hloop

theorem outPass_fresh (h : c.snd.Ledger k a b) (hfresh : Fresh c) (env : Env) (idle : Bool) (pass : Nat)
    (hloop : (outPass env idle pass c).2 = true) : Fresh (outPass env idle pass c).1 := by
  intro hforcing hstale
  obtain ⟨hforced, hsent⟩ := outPass_forced env idle pass hloop hforcing
  obtain ⟨a', b', hb, h'⟩ := h.pass hfresh env idle pass
  have hkept := outPass_kept env idle pass c
  have hstate : (outPass env idle pass c).1.snd.tState = c.snd.tState := congrArg (·.1.tState) hkept
  have hdata : (outPass env idle pass c).1.snd.data = c.snd.data := congrArg (·.2.1.soSnd.sbMb) hkept
  obtain ⟨hfin, hyes, hnone, hempty⟩ := hstale
  have hzero : 0 = b' := h'.distance_inj (Nat.zero_le b') ((BitVec.add_zero _).trans hnone.symm)
  have hbzero : b = 0 := by omega
  refine hfresh hforced ⟨hstate ▸ hfin, hsent ▸ hyes, ?_, hdata ▸ hempty⟩
  rw [h.max, hbzero]
  exact BitVec.add_zero _

end Pass

/-! ### The whole of `tcp_output` -/

section Output

variable {c : Conn} {k a b : Nat} (env : Env)

theorem outPasses_ledger (idle : Bool) (fuel pass : Nat) {c : Conn} {a b : Nat} (h : c.snd.Ledger k a b)
    (hfresh : Fresh c) : ∃ a' b', b ≤ b' ∧ (outPasses env idle fuel pass c).snd.Ledger k a' b' := by
  induction fuel generalizing pass c a b with
  | zero => exact ⟨a, b, le_refl b, h⟩
  | succ fuel ih =>
    obtain ⟨a', b', hb, h'⟩ := h.pass hfresh env idle pass
    unfold outPasses
    dsimp only
    split
    · rename_i hloop
      obtain ⟨a'', b'', hb', h''⟩ := ih (pass + 1) h' (outPass_fresh h hfresh env idle pass hloop)
      exact ⟨a'', b'', le_trans hb hb', h''⟩
    · exact ⟨a', b', hb, h'⟩

theorem tcpOutput_ledger (h : c.snd.Ledger k a b) (hfresh : Fresh c) :
    ∃ a' b', b ≤ b' ∧ (tcpOutput env c).snd.Ledger k a' b' :=
  outPasses_ledger env _ _ _ (c := { c with tp := { c.tp with
    sndCwnd := if decide (c.tp.sndMax = c.tp.sndUna) = true ∧ (c.tp.tIdle : Int) ≥ c.tp.tRxtcur then
      BitVec.ofNat 32 c.tp.tMaxseg else c.tp.sndCwnd } }) h hfresh

end Output

end Reading.Tcp
