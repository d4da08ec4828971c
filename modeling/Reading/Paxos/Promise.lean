import Reading.Lib.Transition
import Reading.Paxos.Node

/-!
# What an acceptor promises

An acceptor that agrees to a proposal says that this is the greatest one it has seen for the instance, and that it will accept no smaller one from now on. Two things in `PaxosAcceptorProtocol` get in the way. `recvProposal` unpacks `highestID` as `(port, count)` and compares the counter with the port of the new proposal and the port with its counter, while `addProtocol` compares counters first. And `doTransition` accepts a proposal it has once agreed to without a look at what it has agreed to since.

The acceptor is taken alone here, with any messages in any order; what it has seen and done so far is kept beside it. `KeepsPromise` is what it owes for the next message, `PromiseHolds` the condition on its record under which it gives that.
-/

namespace Reading.Paxos

variable {V : Type}

/-- An acceptor with the messages it has processed and its events, newest first. -/
structure Career (V : Type) where
  acceptor : PaxosAcceptor V
  seen : List (Message V) := []
  log : List (Event V) := []

/-- A message that raises leaves the acceptor as it was. -/
def Career.process (c : Career V) (m : Message V) : Career V :=
  match c.acceptor.recvMessage m with
  | .ok out => { acceptor := out.node, seen := m :: c.seen, log := out.events ++ c.log }
  | .error _ => { c with seen := m :: c.seen }

def Career.start (port : Port) (leaders : List Port) : Career V := { acceptor := { port := port, leaders := leaders } }

/-- Some reply to the message is an `MSG_ACCEPTOR_AGREE`. -/
def PaxosAcceptor.Agrees (self : PaxosAcceptor V) (m : Message V) : Prop :=
  match self.recvMessage m with
  | .ok out => ∃ r ∈ out.sent, r.command = .acceptorAgree
  | .error _ => False

/-- The message makes the acceptor accept its proposal. -/
def PaxosAcceptor.TakesAccept (self : PaxosAcceptor V) (m : Message V) : Prop :=
  match self.recvMessage m with
  | .ok out => .accepted self.port m.instanceID m.proposalID m.value ∈ out.events
  | .error _ => False

/-- A greater proposal has been agreed to since this one was agreed to last. -/
def supersededIn (i : Int) (pid : ProposalID) : List (Event V) → Prop
  | [] => False
  | .agreed _ i' q :: log =>
    if i' = i ∧ q = pid then False else i' = i ∧ numberedBelow pid q ∨ supersededIn i pid log
  | _ :: log => supersededIn i pid log

/-- An `MSG_PROPOSE` is agreed to exactly when it is numbered above all that have been seen for its instance, and an `MSG_ACCEPT` is taken only if its proposal has not been superseded. -/
def KeepsPromise (c : Career V) (m : Message V) : Prop :=
  (m.command = .propose → (c.acceptor.Agrees m ↔
    ∀ s ∈ c.seen, s.command = .propose → s.instanceID = m.instanceID → numberedBelow s.proposalID m.proposalID)) ∧
    (m.command = .accept → c.acceptor.TakesAccept m → ¬ supersededIn m.instanceID m.proposalID c.log)

/-- The test of `recvProposal`. -/
def agreeTest (highestID pid : ProposalID) : Prop := highestID.2 < pid.1 ∨ highestID.2 = pid.1 ∧ highestID.1 < pid.2

instance (p q : ProposalID) : Decidable (agreeTest p q) := inferInstanceAs (Decidable (_ ∨ _))

/-- The `highestID` of an instance. -/
def PaxosAcceptor.highestAt (self : PaxosAcceptor V) (i : Int) : ProposalID := ((self.instances i).getD {}).highestID

/-- The two tests on a new proposal come out alike, and no `MSG_ACCEPT` is for a proposal the acceptor has agreed to and that is below its `highestID`. -/
def PromiseHolds (c : Career V) (m : Message V) : Prop :=
  (m.command = .propose → (agreeTest (c.acceptor.highestAt m.instanceID) m.proposalID ↔
    numberedBelow (c.acceptor.highestAt m.instanceID) m.proposalID)) ∧
    (m.command = .accept → ∀ p, c.acceptor.protocolAt m.instanceID m.proposalID = some p → p.state = .proposalAgreed →
      ¬ numberedBelow m.proposalID (c.acceptor.highestAt m.instanceID))

/-! ### The order of proposals -/

theorem numberedBelow_trans {p q r : ProposalID} (hpq : numberedBelow p q) (hqr : numberedBelow q r) : numberedBelow p r := by
  unfold numberedBelow at *
  omega

theorem not_numberedBelow_self (p : ProposalID) : ¬ numberedBelow p p := by simp [numberedBelow]

theorem not_numberedBelow {p q : ProposalID} (h : ¬ numberedBelow p q) : q = p ∨ numberedBelow q p := by
  obtain ⟨a, b⟩ := p
  obtain ⟨c, d⟩ := q
  simp only [numberedBelow, Prod.mk.injEq] at *
  omega

/-! ### One message -/

section Process

variable {c : Career V} {m : Message V}

/-- A proposal of the instance has been seen. -/
def Career.Saw (c : Career V) (i : Int) (pid : ProposalID) : Prop :=
  ∃ s ∈ c.seen, s.command = .propose ∧ s.instanceID = i ∧ s.proposalID = pid

def Career.Agreed (c : Career V) (i : Int) (pid : ProposalID) : Prop := ∃ a, .agreed a i pid ∈ c.log

theorem highestAt_update (self : PaxosAcceptor V) (i j : Int) (record : InstanceRecord PaxosAcceptorProtocol V) :
    PaxosAcceptor.highestAt { self with instances := Function.update self.instances i (some record) } j =
      if j = i then record.highestID else self.highestAt j := by
  by_cases h : j = i
  · subst h
    simp [PaxosAcceptor.highestAt]
  · simp [PaxosAcceptor.highestAt, h]

theorem acceptorProtocolAt_update (self : PaxosAcceptor V) (i j : Int) (q : ProposalID)
    (record : InstanceRecord PaxosAcceptorProtocol V) :
    PaxosAcceptor.protocolAt { self with instances := Function.update self.instances i (some record) } j q =
      if j = i then record.protocols q else self.protocolAt j q := by
  by_cases h : j = i
  · subst h
    simp [PaxosAcceptor.protocolAt]
  · simp [PaxosAcceptor.protocolAt, h]

theorem getD_protocols_eq (self : PaxosAcceptor V) (i : Int) (q : ProposalID) :
    ((self.instances i).getD {}).protocols q = self.protocolAt i q := by
  unfold PaxosAcceptor.protocolAt
  cases self.instances i <;> rfl

/-- What an `MSG_PROPOSE` does to a career. -/
structure Proposed (c : Career V) (m : Message V) (c' : Career V) : Prop where
  failed : c'.acceptor.failed = false
  seen : c'.seen = m :: c.seen
  log : c'.log = if agreeTest (c.acceptor.highestAt m.instanceID) m.proposalID then
    .agreed c.acceptor.port m.instanceID m.proposalID :: c.log else c.log
  highest : ∀ j, c'.acceptor.highestAt j =
    if j = m.instanceID ∧ numberedBelow (c.acceptor.highestAt j) m.proposalID then m.proposalID else c.acceptor.highestAt j
  agreed : ∀ j q p, c'.acceptor.protocolAt j q = some p → p.state = .proposalAgreed →
    j = m.instanceID ∧ q = m.proposalID ∧ agreeTest (c.acceptor.highestAt m.instanceID) m.proposalID ∨
      c.acceptor.protocolAt j q = some p

theorem process_propose (hfailed : c.acceptor.failed = false) (hm : m.command = .propose) :
    (c.acceptor.Agrees m ↔ agreeTest (c.acceptor.highestAt m.instanceID) m.proposalID) ∧ Proposed c m (c.process m) := by
  set record := (c.acceptor.instances m.instanceID).getD {} with hrecord
  have hrecv : c.acceptor.recvMessage m = .ok
      { node := { c.acceptor with
          instances := Function.update c.acceptor.instances m.instanceID
            (some (record.addProtocol m.proposalID (PaxosAcceptorProtocol.recvProposal {} c.acceptor record m).node)) }
        sent := (PaxosAcceptorProtocol.recvProposal {} c.acceptor record m).sent
        events := (PaxosAcceptorProtocol.recvProposal {} c.acceptor record m).events } := by
    simp [PaxosAcceptor.recvMessage, hfailed, hm, hrecord]
  have hhighest : record.highestID = c.acceptor.highestAt m.instanceID := rfl
  have hprotocols : ∀ q, record.protocols q = c.acceptor.protocolAt m.instanceID q := getD_protocols_eq c.acceptor m.instanceID
  have hstate : (PaxosAcceptorProtocol.recvProposal {} c.acceptor record m).node.state = .proposalAgreed →
      agreeTest (c.acceptor.highestAt m.instanceID) m.proposalID := by
    unfold PaxosAcceptorProtocol.recvProposal
    dsimp only
    split
    case isTrue htest => exact fun _ => htest
    case isFalse => exact fun h => nomatch h
  refine ⟨?_, ?_⟩
  · rw [PaxosAcceptor.Agrees, hrecv]
    unfold PaxosAcceptorProtocol.recvProposal
    dsimp only
    split
    case isTrue htest =>
      have htest : agreeTest (c.acceptor.highestAt m.instanceID) m.proposalID := htest
      simp [htest, Message.copyAsReply]
    case isFalse htest =>
      have htest : ¬ agreeTest (c.acceptor.highestAt m.instanceID) m.proposalID := htest
      simp [htest]
  · rw [Career.process, hrecv]
    constructor
    case failed => exact hfailed
    case seen => rfl
    case log =>
      unfold PaxosAcceptorProtocol.recvProposal
      dsimp only
      split
      case isTrue htest =>
        have htest : agreeTest (c.acceptor.highestAt m.instanceID) m.proposalID := htest
        simp [htest]
      case isFalse htest =>
        have htest : ¬ agreeTest (c.acceptor.highestAt m.instanceID) m.proposalID := htest
        simp [htest]
    case highest =>
      intro j
      dsimp only
      rw [highestAt_update]
      by_cases hj : j = m.instanceID
      · subst hj
        simp only [InstanceRecord.addProtocol, hhighest, true_and, if_true]
      · simp [hj]
    case agreed =>
      intro j q p hp hagreed
      dsimp only at hp
      rw [acceptorProtocolAt_update] at hp
      split at hp
      case isTrue hj =>
        simp only [InstanceRecord.addProtocol, Function.update_apply] at hp
        split at hp
        case isTrue hq =>
          obtain rfl := Option.some.inj hp
          exact .inl ⟨hj, hq, hstate hagreed⟩
        case isFalse =>
          rw [hprotocols, ← hj] at hp
          exact .inr hp
      case isFalse => exact .inr hp

/-- What any other message does to a career. -/
structure Accepted (c : Career V) (m : Message V) (c' : Career V) : Prop where
  failed : c'.acceptor.failed = false
  seen : c'.seen = m :: c.seen
  agreedLog : ∀ a i q, .agreed a i q ∈ c'.log ↔ .agreed a i q ∈ c.log
  superseded : ∀ i q, supersededIn i q c'.log ↔ supersededIn i q c.log
  highest : ∀ j, c'.acceptor.highestAt j = c.acceptor.highestAt j
  agreed : ∀ j q p, c'.acceptor.protocolAt j q = some p → p.state = .proposalAgreed → c.acceptor.protocolAt j q = some p

theorem process_other (hfailed : c.acceptor.failed = false) (hm : m.command ≠ .propose) :
    (c.acceptor.TakesAccept m ↔ m.command = .accept ∧
      ∃ p, c.acceptor.protocolAt m.instanceID m.proposalID = some p ∧ p.state = .proposalAgreed) ∧
    Accepted c m (c.process m) := by
  have hraise : ∀ e, c.acceptor.recvMessage m = .error e → Accepted c m (c.process m) := by
    intro e herror
    rw [Career.process, herror]
    exact ⟨hfailed, rfl, fun _ _ _ => .rfl, fun _ _ => .rfl, fun _ => rfl, fun _ _ _ hp _ => hp⟩
  rw [PaxosAcceptor.TakesAccept]
  cases hrecord : c.acceptor.instances m.instanceID with
  | none =>
    have herror : c.acceptor.recvMessage m = .error .keyError := by simp [PaxosAcceptor.recvMessage, hfailed, hm, hrecord]
    refine ⟨?_, hraise _ herror⟩
    simp [herror, PaxosAcceptor.protocolAt, hrecord]
  | some record =>
    have hprotocols : ∀ q, c.acceptor.protocolAt m.instanceID q = record.protocols q := by
      simp [PaxosAcceptor.protocolAt, hrecord]
    cases hp : record.protocols m.proposalID with
    | none =>
      have herror : c.acceptor.recvMessage m = .error .keyError := by
        simp [PaxosAcceptor.recvMessage, hfailed, hm, hrecord, InstanceRecord.getProtocol, hp, bind, Except.bind]
      refine ⟨?_, hraise _ herror⟩
      simp [herror, hprotocols, hp]
    | some p =>
      by_cases haccept : p.state = .proposalAgreed ∧ m.command = .accept
      · have hok : c.acceptor.recvMessage m = .ok
            { node := { c.acceptor with
                instances := Function.update c.acceptor.instances m.instanceID (some (PaxosAcceptor.notifyClient
                  (record.setProtocol m.proposalID { p with state := .proposalAccepted }) { p with state := .proposalAccepted } m)) }
              sent := c.acceptor.leaders.map fun l =>
                { Message.copyAsReply { command := .acceptorAccept } m with dest := l, source := c.acceptor.port }
              events := [.accepted c.acceptor.port m.instanceID m.proposalID m.value] } := by
          simp [PaxosAcceptor.recvMessage, hfailed, hrecord, InstanceRecord.getProtocol, hp, bind, Except.bind,
            PaxosAcceptorProtocol.doTransition, haccept, pure, Except.pure]
        rw [Career.process, hok]
        refine ⟨?_, hfailed, rfl, ?_, ?_, ?_, ?_⟩
        · simp [hprotocols, hp, haccept]
        · simp
        · exact fun i q => .rfl
        · intro j
          dsimp only
          rw [highestAt_update]
          split
          case isTrue hj =>
            subst hj
            simp [PaxosAcceptor.notifyClient, InstanceRecord.setProtocol, PaxosAcceptor.highestAt, hrecord]
          case isFalse => rfl
        · intro j q p' hp' hagreed
          dsimp only at hp'
          rw [acceptorProtocolAt_update] at hp'
          split at hp'
          case isTrue hj =>
            subst hj
            simp only [PaxosAcceptor.notifyClient, if_true, InstanceRecord.setProtocol, Function.update_apply] at hp'
            split at hp'
            case isTrue =>
              obtain rfl := Option.some.inj hp'
              exact nomatch hagreed
            case isFalse => rwa [hprotocols]
          case isFalse => exact hp'
      · have herror : c.acceptor.recvMessage m = .error .unexpectedState := by
          simp [PaxosAcceptor.recvMessage, hfailed, hm, hrecord, InstanceRecord.getProtocol, hp, bind, Except.bind,
            PaxosAcceptorProtocol.doTransition, haccept]
        refine ⟨?_, hraise _ herror⟩
        simp only [herror, hprotocols, hp, Option.some.injEq, exists_eq_left', false_iff, not_and]
        exact fun hcommand hstate => haccept ⟨hstate, hcommand⟩

end Process

/-! ### Every message -/

/-- `highestID` is the greatest proposal seen, and what has been agreed to is superseded exactly when it is below that. -/
structure Careful (c : Career V) : Prop where
  failed : c.acceptor.failed = false
  bound : ∀ {i q}, c.Saw i q → q = c.acceptor.highestAt i ∨ numberedBelow q (c.acceptor.highestAt i)
  seen : ∀ i, c.acceptor.highestAt i = (-1, -1) ∨ c.Saw i (c.acceptor.highestAt i)
  agreedSaw : ∀ {i q}, c.Agreed i q → c.Saw i q
  agreed : ∀ {i q p}, c.acceptor.protocolAt i q = some p → p.state = .proposalAgreed → c.Agreed i q
  superseded : ∀ {i q}, c.Agreed i q → (supersededIn i q c.log ↔ numberedBelow q (c.acceptor.highestAt i))

/-- A proposal is the port of a leader and that leader's counter. -/
def Message.Numbered (m : Message V) : Prop := m.command = .propose → 0 ≤ m.proposalID.1 ∧ 0 ≤ m.proposalID.2

instance (m : Message V) : Decidable m.Numbered := inferInstanceAs (Decidable (_ → _))

section Careful

variable {c : Career V} {m : Message V}

theorem careful_start (port : Port) (leaders : List Port) : Careful (Career.start port leaders : Career V) := by
  constructor
  case seen => exact fun i => .inl rfl
  all_goals simp [Career.start, Career.Saw, Career.Agreed, PaxosAcceptor.protocolAt]

theorem Careful.above_all_iff (h : Careful c) (hnum : 0 ≤ m.proposalID.1 ∧ 0 ≤ m.proposalID.2) :
    (∀ s ∈ c.seen, s.command = .propose → s.instanceID = m.instanceID → numberedBelow s.proposalID m.proposalID) ↔
      numberedBelow (c.acceptor.highestAt m.instanceID) m.proposalID := by
  constructor
  · intro hall
    obtain hnone | ⟨s, hs, hpropose, hi, heq⟩ := h.seen m.instanceID
    · rw [hnone, numberedBelow]
      omega
    · rw [← heq]
      exact hall s hs hpropose hi
  · intro hbelow s hs hpropose hi
    obtain heq | hlt := h.bound ⟨s, hs, hpropose, hi, rfl⟩
    · rwa [heq]
    · exact numberedBelow_trans hlt hbelow

/-- For the next message the acceptor keeps its promise exactly when the condition holds. -/
theorem Careful.keeps_iff (h : Careful c) (hnum : m.Numbered) : KeepsPromise c m ↔ PromiseHolds c m := by
  unfold KeepsPromise PromiseHolds
  apply and_congr
  · apply imp_congr_right
    intro hpropose
    rw [(process_propose h.failed hpropose).1, h.above_all_iff (hnum hpropose)]
  · apply imp_congr_right
    intro haccept
    have hother : m.command ≠ .propose := by simp [haccept]
    rw [(process_other h.failed hother).1]
    constructor
    · intro hkeep p hp hstate
      rw [← h.superseded (h.agreed hp hstate)]
      exact hkeep ⟨haccept, p, hp, hstate⟩
    · rintro hhold ⟨-, p, hp, hstate⟩
      rw [h.superseded (h.agreed hp hstate)]
      exact hhold p hp hstate

theorem Careful.process_propose (h : Careful c) (hpropose : m.command = .propose) (hhold : PromiseHolds c m) :
    Careful (c.process m) := by
  have hstep := (Paxos.process_propose h.failed hpropose).2
  have htest := hhold.1 hpropose
  have hsaw : ∀ {i q}, (c.process m).Saw i q ↔ i = m.instanceID ∧ q = m.proposalID ∨ c.Saw i q := by
    intro i q
    rw [Career.Saw, hstep.seen, List.exists_mem_cons_iff, Career.Saw]
    simp only [hpropose, true_and, eq_comm]
  have hmax : ∀ i, c.acceptor.highestAt i = (c.process m).acceptor.highestAt i ∨
      numberedBelow (c.acceptor.highestAt i) ((c.process m).acceptor.highestAt i) := by
    intro i
    rw [hstep.highest]
    split
    case isTrue hi => exact .inr hi.2
    case isFalse => exact .inl rfl
  have hold : ∀ {i q}, c.Saw i q → q = (c.process m).acceptor.highestAt i ∨ numberedBelow q ((c.process m).acceptor.highestAt i) := by
    intro i q hq
    obtain heq | hlt := hmax i
    · rw [← heq]
      exact h.bound hq
    · obtain rfl | hq := h.bound hq
      · exact .inr hlt
      · exact .inr (numberedBelow_trans hq hlt)
  by_cases hbelow : numberedBelow (c.acceptor.highestAt m.instanceID) m.proposalID
  · -- The proposal is agreed to, is the greatest from now on, and supersedes all others.
    have hlog : (c.process m).log = .agreed c.acceptor.port m.instanceID m.proposalID :: c.log := by
      rw [hstep.log, if_pos (htest.mpr hbelow)]
    have hhigh : (c.process m).acceptor.highestAt m.instanceID = m.proposalID := by
      rw [hstep.highest, if_pos ⟨rfl, hbelow⟩]
    have hagreed : ∀ {i q}, (c.process m).Agreed i q ↔ i = m.instanceID ∧ q = m.proposalID ∨ c.Agreed i q := by
      intro i q
      simp [Career.Agreed, hlog, exists_or]
    constructor
    case failed => exact hstep.failed
    case bound =>
      intro i q hq
      obtain ⟨rfl, rfl⟩ | hq := hsaw.mp hq
      · exact .inl hhigh.symm
      · exact hold hq
    case seen =>
      intro i
      rw [hsaw]
      by_cases hi : i = m.instanceID
      · subst hi
        exact .inr (.inl ⟨rfl, hhigh⟩)
      · rw [hstep.highest, if_neg fun hand => hi hand.1]
        exact (h.seen i).imp_right .inr
    case agreedSaw =>
      intro i q hq
      rw [hsaw]
      exact (hagreed.mp hq).imp_right h.agreedSaw
    case agreed =>
      intro i q p hp hstate
      rw [hagreed]
      obtain ⟨hi, hq, -⟩ | hp := hstep.agreed i q p hp hstate
      · exact .inl ⟨hi, hq⟩
      · exact .inr (h.agreed hp hstate)
    case superseded =>
      intro i q hq
      rw [hlog, supersededIn]
      by_cases hi : i = m.instanceID
      · subst hi
        by_cases heq : m.proposalID = q
        · simp [heq, hhigh, not_numberedBelow_self]
        · obtain ⟨-, rfl⟩ | hq := hagreed.mp hq
          · exact absurd rfl heq
          · have hlt : numberedBelow q m.proposalID := by
              obtain rfl | hlt := h.bound (h.agreedSaw hq)
              · exact hbelow
              · exact numberedBelow_trans hlt hbelow
            simp [heq, hhigh, hlt]
      · obtain ⟨rfl, -⟩ | hq := hagreed.mp hq
        · exact absurd rfl hi
        · have hsame : (c.process m).acceptor.highestAt i = c.acceptor.highestAt i := by
            rw [hstep.highest, if_neg fun hand => hi hand.1]
          simp [Ne.symm hi, hsame, h.superseded hq]
  · -- The proposal is rejected and nothing is superseded by it.
    have hlog : (c.process m).log = c.log := by rw [hstep.log, if_neg (mt htest.mp hbelow)]
    have hhigh : ∀ i, (c.process m).acceptor.highestAt i = c.acceptor.highestAt i := by
      intro i
      rw [hstep.highest, if_neg]
      rintro ⟨rfl, hlt⟩
      exact hbelow hlt
    have hagreed : ∀ {i q}, (c.process m).Agreed i q ↔ c.Agreed i q := by
      intro i q
      rw [Career.Agreed, hlog, Career.Agreed]
    constructor
    case failed => exact hstep.failed
    case bound =>
      intro i q hq
      obtain ⟨rfl, rfl⟩ | hq := hsaw.mp hq
      · rw [hhigh]
        exact not_numberedBelow hbelow
      · exact hold hq
    case seen =>
      intro i
      rw [hsaw, hhigh]
      exact (h.seen i).imp_right .inr
    case agreedSaw =>
      intro i q hq
      rw [hsaw]
      exact .inr (h.agreedSaw (hagreed.mp hq))
    case agreed =>
      intro i q p hp hstate
      rw [hagreed]
      obtain ⟨-, -, hagree⟩ | hp := hstep.agreed i q p hp hstate
      · exact absurd (htest.mp hagree) hbelow
      · exact h.agreed hp hstate
    case superseded =>
      intro i q hq
      rw [hlog, hhigh]
      exact h.superseded (hagreed.mp hq)

theorem Careful.process_other (h : Careful c) (hother : m.command ≠ .propose) : Careful (c.process m) := by
  have hstep := (Paxos.process_other h.failed hother).2
  have hsaw : ∀ {i q}, (c.process m).Saw i q ↔ c.Saw i q := by
    intro i q
    rw [Career.Saw, hstep.seen, List.exists_mem_cons_iff, Career.Saw]
    simp [hother]
  have hagreed : ∀ {i q}, (c.process m).Agreed i q ↔ c.Agreed i q := by
    intro i q
    simp only [Career.Agreed, hstep.agreedLog]
  constructor
  case failed => exact hstep.failed
  case bound =>
    intro i q hq
    rw [hstep.highest]
    exact h.bound (hsaw.mp hq)
  case seen =>
    intro i
    rw [hsaw, hstep.highest]
    exact h.seen i
  case agreedSaw => exact fun hq => hsaw.mpr (h.agreedSaw (hagreed.mp hq))
  case agreed => exact fun hp hstate => hagreed.mpr (h.agreed (hstep.agreed _ _ _ hp hstate) hstate)
  case superseded =>
    intro i q hq
    rw [hstep.superseded, hstep.highest]
    exact h.superseded (hagreed.mp hq)

theorem Careful.process (h : Careful c) (hhold : PromiseHolds c m) : Careful (c.process m) := by
  by_cases hpropose : m.command = .propose
  · exact h.process_propose hpropose hhold
  · exact h.process_other hpropose

theorem Careful.along_iff {messages : List (Message V)} (h : Careful c) (hnum : ∀ m ∈ messages, m.Numbered) :
    Transition.Along Career.process KeepsPromise c messages ↔ Transition.Along Career.process PromiseHolds c messages := by
  induction messages generalizing c with
  | nil => exact .rfl
  | cons m messages ih =>
    rw [List.forall_mem_cons] at hnum
    rw [Transition.Along, Transition.Along, h.keeps_iff hnum.1]
    apply and_congr_right
    intro hhold
    exact ih (h.process hhold) hnum.2

end Careful

/-- An acceptor keeps its promise throughout a sequence of messages exactly when every message of it finds the record in a state where the promise holds. -/
theorem promise_kept_iff (port : Port) (leaders : List Port) (messages : List (Message V))
    (hnum : ∀ m ∈ messages, m.Numbered) :
    Transition.Along Career.process KeepsPromise (Career.start port leaders) messages ↔
      Transition.Along Career.process PromiseHolds (Career.start port leaders) messages :=
  (careful_start port leaders).along_iff hnum

/-- A message about a proposal of the instance `0`. -/
def aboutProposal (command : Command) (pid : ProposalID) : Message Nat :=
  { command := command, proposalID := pid, instanceID := 0, value := some 7 }

/-- An acceptor that has seen the proposal `(54321, count)`. -/
def afterFirst (count : Int) : Career Nat :=
  (Career.start 64320 [54321, 54322]).process (aboutProposal .propose (54321, count))

/-- The acceptor agrees to the smaller of two proposals after the greater one, and it accepts a proposal after it has agreed to a greater one. -/
theorem promise_broken :
    ¬ Transition.Along Career.process KeepsPromise (Career.start 64320 [54321, 54322])
        [aboutProposal .propose (54321, 2), aboutProposal .propose (54322, 1)] ∧
      ¬ Transition.Along Career.process KeepsPromise (Career.start 64320 [54321, 54322])
        [aboutProposal .propose (54321, 1), aboutProposal .propose (54322, 1), aboutProposal .accept (54321, 1)] := by
  constructor
  · rintro ⟨-, ⟨hkeep, -⟩, -⟩
    have hagrees : (afterFirst 2).acceptor.Agrees (aboutProposal .propose (54322, 1)) :=
      (process_propose rfl rfl).1.mpr (by decide)
    have hbelow := (hkeep rfl).mp hagrees _ (List.mem_singleton.mpr rfl) rfl rfl
    exact absurd hbelow (by decide)
  · rintro ⟨-, -, ⟨-, hkeep⟩, -⟩
    have htakes : ((afterFirst 1).process (aboutProposal .propose (54322, 1))).acceptor.TakesAccept
        (aboutProposal .accept (54321, 1)) :=
      (process_other rfl (by decide)).1.mpr ⟨rfl, _, rfl, rfl⟩
    exact hkeep rfl htakes (.inl ⟨rfl, by decide⟩)

/-- The second of two proposals of one leader: an acceptor that has seen the first agrees to it and, asked to, accepts it. -/
theorem promise_kept_twoProposals :
    Transition.Along Career.process KeepsPromise (Career.start 64320 [54321, 54322])
      [aboutProposal .propose (54321, 1), aboutProposal .propose (54321, 2), aboutProposal .accept (54321, 2)] := by
  rw [promise_kept_iff 64320 [54321, 54322] _ (by decide)]
  exact ⟨⟨fun _ => by decide, fun h => nomatch h⟩, ⟨fun _ => by decide, fun h => nomatch h⟩,
    ⟨fun h => (nomatch h), fun _ _ _ _ => by decide⟩, trivial⟩

end Reading.Paxos
