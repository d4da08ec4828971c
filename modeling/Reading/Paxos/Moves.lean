import Mathlib.Logic.Relation
import Mathlib.Tactic.ApplyFun
import Reading.Paxos.Promise
import Reading.Paxos.System

/-!
# What a step can do

Every action of the system is a sequence of `Move`s, and a move says what it does to the parts of a node the safety argument looks at: which protocol changes and how, which value is recorded, which messages and events appear. The invariants are proved against the moves, so that no other module unfolds the methods of a node.

A move that would be wrong under one of the two defects carries the condition that it is not, but only where `Sound` holds; the results that need no such condition take `Sound` to be `False`.
-/

namespace Reading.Paxos

variable {V : Type}

/-- The messages of the protocol proper, the ones that come from a node. -/
def Message.IsProtocol (m : Message V) : Prop := m.command ≠ .extPropose ∧ m.command ≠ .heartbeat

instance (m : Message V) : Decidable m.IsProtocol := inferInstanceAs (Decidable (_ ∧ _))

/-- The leader changes in a way no invariant about proposals in progress can notice: flags, forgotten protocols, protocols it starts to listen in on. -/
structure LeaderQuiet (ld ld' : PaxosLeader V) : Prop where
  port : ld'.port = ld.port
  acceptors : ld'.acceptors = ld.acceptors
  count : ld.proposalCount ≤ ld'.proposalCount
  value : ∀ i, ld'.getInstanceValue i = ld.getInstanceValue i
  protocol : ∀ i pid p', ld'.protocolAt i pid = some p' →
    (p'.state ≠ .proposed ∧ p'.agreecount = 0 ∧ p'.acceptcount = 0) ∨
      ∃ p, ld.protocolAt i pid = some p ∧ p'.agreecount = p.agreecount ∧ p'.acceptcount = p.acceptcount ∧
        p'.highestseen = p.highestseen ∧ (p'.state = .proposed → p.state = .proposed)

/-- One protocol of the leader is replaced and nothing else about its protocols changes. -/
structure LeaderSets (ld ld' : PaxosLeader V) (i : Int) (pid : ProposalID)
    (p : PaxosLeaderProtocol V) : Prop where
  port : ld'.port = ld.port
  acceptors : ld'.acceptors = ld.acceptors
  protocol : ∀ j q, ld'.protocolAt j q = if j = i ∧ q = pid then some p else ld.protocolAt j q

/-- One protocol of the acceptor is replaced and nothing else about its protocols changes. -/
structure AcceptorSets (ac ac' : PaxosAcceptor V) (i : Int) (pid : ProposalID)
    (p : PaxosAcceptorProtocol) : Prop where
  port : ac'.port = ac.port
  leaders : ac'.leaders = ac.leaders
  protocol : ∀ j q, ac'.protocolAt j q = if j = i ∧ q = pid then some p else ac.protocolAt j q

/-- The acceptor notes a proposal as the highest of its instance if it is. -/
def AcceptorRaises (ac ac' : PaxosAcceptor V) (i : Int) (pid : ProposalID) : Prop :=
  ∀ j, ac'.highestAt j = if j = i ∧ numberedBelow (ac.highestAt j) pid then pid else ac.highestAt j

/-- The messages that open a proposal. -/
def proposals (acceptors : List Port) (l : Port) (pid : ProposalID) (i : Int) (value : Option V) :
    List (Message V) :=
  acceptors.map fun server =>
    { command := .propose, proposalID := pid, instanceID := i, value := value,
      dest := server, source := l }

/-- The messages by which a leader asks the acceptors to accept, in answer to the reply `m`. -/
def acceptRequests (acceptors : List Port) (l : Port) (m : Message V) (value : Option V) :
    List (Message V) :=
  acceptors.map fun s =>
    { command := .accept, proposalID := m.proposalID, instanceID := m.instanceID, value := value,
      dest := s, source := l }

/-- The messages by which an acceptor tells the leaders that it has accepted what `m` asked for. -/
def acceptNotices (leaders : List Port) (a : Port) (m : Message V) : List (Message V) :=
  leaders.map fun l =>
    { command := .acceptorAccept, proposalID := m.proposalID, instanceID := m.instanceID,
      value := m.value, dest := l, source := a }

inductive Move [DecidableEq V] (cfg : Config) (Sound : Prop) : World V → World V → Prop where
  | consume (w : World V) (m : Message V) : Move cfg Sound w (w.consume m)
  | inject (w : World V) (m : Message V) (hm : ¬ m.IsProtocol) :
      Move cfg Sound w { w with net := w.net ++ [m] }
  | leaderQuiet (w : World V) (l : Port) (ld : PaxosLeader V) (h : LeaderQuiet (w.leaders l) ld) :
      Move cfg Sound w (w.leaderDone l { node := ld })
  | acceptorQuiet (w : World V) (a : Port) (ac : PaxosAcceptor V)
      (hport : ac.port = (w.acceptors a).port) (hleaders : ac.leaders = (w.acceptors a).leaders)
      (hinstances : ac.instances = (w.acceptors a).instances) :
      Move cfg Sound w (w.acceptorDone a { node := ac })
  /-- A leader opens a proposal under its next number. -/
  | propose (w : World V) (l : Port) (ld : PaxosLeader V) (i : Int) (value : Option V)
      (p : PaxosLeaderProtocol V)
      (hsets : LeaderSets (w.leaders l) ld i
        ((w.leaders l).port, (w.leaders l).proposalCount + 1) p)
      (hcount : ld.proposalCount = (w.leaders l).proposalCount + 1)
      (hvalue : ∀ j, ld.getInstanceValue j = (w.leaders l).getInstanceValue j)
      (hp : p.state = .proposed ∧ p.agreecount = 0 ∧ p.acceptcount = 0)
      (hseen : p.highestseen = (0, 0)) (hleader : l ∈ cfg.leaders) :
      Move cfg Sound w (w.leaderDone l
        { node := ld
          sent := proposals (w.leaders l).acceptors (w.leaders l).port
            ((w.leaders l).port, (w.leaders l).proposalCount + 1) i value })
  /-- A leader counts a reply that does not complete a quorum. -/
  | count (w : World V) (m : Message V) (ld : PaxosLeader V) (p p' : PaxosLeaderProtocol V)
      (hnet : m ∈ w.net)
      (hp : (w.leaders m.dest).protocolAt m.instanceID m.proposalID = some p)
      (hsets : LeaderSets (w.leaders m.dest) ld m.instanceID m.proposalID p')
      (hcount : ld.proposalCount = (w.leaders m.dest).proposalCount)
      (hvalue : ∀ j, ld.getInstanceValue j = (w.leaders m.dest).getInstanceValue j)
      (hstate : p'.state = p.state)
      (hkind : m.command = .acceptorAgree ∧ p'.agreecount = p.agreecount + 1 ∧
            p'.acceptcount = p.acceptcount ∨
          m.command = .acceptorAccept ∧ p'.agreecount = p.agreecount ∧
            p'.acceptcount = p.acceptcount + 1)
      (hseen : p'.highestseen = p.highestseen) :
      Move cfg Sound w ((w.consume m).leaderDone m.dest
        { node := ld, events := [.counted (w.leaders m.dest).port m] })
  /-- A leader's quorum of agreement is complete and it asks the acceptors to accept. -/
  | choose (w : World V) (m : Message V) (ld : PaxosLeader V) (p p' : PaxosLeaderProtocol V)
      (hnet : m ∈ w.net) (hcommand : m.command = .acceptorAgree)
      (hp : (w.leaders m.dest).protocolAt m.instanceID m.proposalID = some p)
      (hstate : p.state = .proposed)
      (hquorum : (w.leaders m.dest).acceptors.length / 2 + 1 ≤ p.agreecount + 1)
      (hsets : LeaderSets (w.leaders m.dest) ld m.instanceID m.proposalID p')
      (hcount : ld.proposalCount = (w.leaders m.dest).proposalCount)
      (hvalue : ∀ j, ld.getInstanceValue j = (w.leaders m.dest).getInstanceValue j)
      (hstate' : p'.state = .agreed) (hagree : p'.agreecount = p.agreecount + 1)
      (haccept : p'.acceptcount = p.acceptcount)
      (hadopts : p.adopts m → p'.value = m.value)
      (hsound : Sound → w.ChoiceSound m) :
      Move cfg Sound w ((w.consume m).leaderDone m.dest
        { node := ld
          sent := acceptRequests (w.leaders m.dest).acceptors (w.leaders m.dest).port m p'.value
          events := [.chose m.instanceID m.proposalID p'.value,
            .counted (w.leaders m.dest).port m] })
  /-- A leader has heard a quorum accept and records the value. -/
  | record (w : World V) (m : Message V) (ld : PaxosLeader V) (p p' : PaxosLeaderProtocol V)
      (hnet : m ∈ w.net) (hcommand : m.command = .acceptorAccept)
      (hp : (w.leaders m.dest).protocolAt m.instanceID m.proposalID = some p)
      (hquorum : (w.leaders m.dest).acceptors.length / 2 + 1 ≤ p.acceptcount + 1)
      (hsets : LeaderSets (w.leaders m.dest) ld m.instanceID m.proposalID p')
      (hcount : ld.proposalCount = (w.leaders m.dest).proposalCount)
      (hvalue : ∀ j, ld.getInstanceValue j =
        if j = m.instanceID then m.value else (w.leaders m.dest).getInstanceValue j)
      (hstate' : p'.state = .accepted) (hagree : p'.agreecount = p.agreecount)
      (haccept : p'.acceptcount = p.acceptcount + 1) :
      Move cfg Sound w ((w.consume m).leaderDone m.dest
        { node := ld
          events := [.recorded (w.leaders m.dest).port m.instanceID m.proposalID m.value,
            .counted (w.leaders m.dest).port m] })
  /-- An acceptor answers a proposal with the value it has accepted. -/
  | agree (w : World V) (m reply : Message V) (ac : PaxosAcceptor V) (p : PaxosAcceptorProtocol)
      (hacceptor : m.dest ∈ cfg.acceptors) (hnet : m ∈ w.net) (hcommand : m.command = .propose)
      (hsets : AcceptorSets (w.acceptors m.dest) ac m.instanceID m.proposalID p)
      (hvalue : ∀ j, ac.valueAt j = (w.acceptors m.dest).valueAt j)
      (hstate : p.state = .proposalAgreed)
      (hreply : reply.command = .acceptorAgree ∧ reply.instanceID = m.instanceID ∧
        reply.proposalID = m.proposalID ∧ reply.source = (w.acceptors m.dest).port ∧
        reply.value = (w.acceptors m.dest).valueAt m.instanceID)
      (hsequence : reply.sequence = (w.acceptors m.dest).highestAt m.instanceID)
      (hhighest : AcceptorRaises (w.acceptors m.dest) ac m.instanceID m.proposalID) :
      Move cfg Sound w ((w.consume m).acceptorDone m.dest
        { node := ac, sent := [reply]
          events := [.agreed (w.acceptors m.dest).port m.instanceID m.proposalID] })
  | reject (w : World V) (m : Message V) (ac : PaxosAcceptor V) (p : PaxosAcceptorProtocol)
      (hacceptor : m.dest ∈ cfg.acceptors) (hnet : m ∈ w.net) (hcommand : m.command = .propose)
      (hsets : AcceptorSets (w.acceptors m.dest) ac m.instanceID m.proposalID p)
      (hvalue : ∀ j, ac.valueAt j = (w.acceptors m.dest).valueAt j)
      (hstate : p.state = .proposalRejected)
      (hhighest : AcceptorRaises (w.acceptors m.dest) ac m.instanceID m.proposalID) :
      Move cfg Sound w ((w.consume m).acceptorDone m.dest { node := ac })
  /-- An acceptor accepts a proposal it has agreed to. -/
  | accept (w : World V) (m : Message V) (ac : PaxosAcceptor V) (p p' : PaxosAcceptorProtocol)
      (hacceptor : m.dest ∈ cfg.acceptors) (hnet : m ∈ w.net) (hcommand : m.command = .accept)
      (hp : (w.acceptors m.dest).protocolAt m.instanceID m.proposalID = some p)
      (hstate : p.state = .proposalAgreed)
      (hsets : AcceptorSets (w.acceptors m.dest) ac m.instanceID m.proposalID p')
      (hvalue : ∀ j, ac.valueAt j =
        if j = m.instanceID then m.value else (w.acceptors m.dest).valueAt j)
      (hstate' : p'.state = .proposalAccepted)
      (hsound : Sound → w.AcceptSound m)
      (hhighest : ∀ j, ac.highestAt j = (w.acceptors m.dest).highestAt j) :
      Move cfg Sound w ((w.consume m).acceptorDone m.dest
        { node := ac
          sent := acceptNotices (w.acceptors m.dest).leaders (w.acceptors m.dest).port m
          events := [.accepted (w.acceptors m.dest).port m.instanceID m.proposalID m.value] })

/-- A finite sequence of moves. -/
abbrev Moves [DecidableEq V] (cfg : Config) (Sound : Prop) : World V → World V → Prop :=
  Relation.ReflTransGen (Move cfg Sound)

/-! ### The methods as moves -/

theorem leaderDone_leaderDone (w : World V) (l : Port) (out out' : Outcome (PaxosLeader V) V) :
    (w.leaderDone l out).leaderDone l out' =
      w.leaderDone l { node := out'.node, sent := out.sent ++ out'.sent,
                       events := out'.events ++ out.events } := by
  simp [World.leaderDone, List.append_assoc]

@[simp] theorem leaderDone_leaders_self (w : World V) (l : Port) (out : Outcome (PaxosLeader V) V) :
    (w.leaderDone l out).leaders l = out.node := by
  simp [World.leaderDone]

namespace PaxosLeader

theorem protocolAt_update (self : PaxosLeader V) (i j : Int) (q : ProposalID)
    (record : InstanceRecord (PaxosLeaderProtocol V) V) :
    protocolAt { self with instances := Function.update self.instances i (some record) } j q =
      if j = i then record.protocols q else self.protocolAt j q := by
  by_cases h : j = i
  · subst h
    simp [protocolAt]
  · simp [protocolAt, h]

theorem getInstanceValue_update (self : PaxosLeader V) (i j : Int)
    (record : InstanceRecord (PaxosLeaderProtocol V) V) :
    getInstanceValue { self with instances := Function.update self.instances i (some record) } j =
      if j = i then record.value else self.getInstanceValue j := by
  by_cases h : j = i
  · subst h
    simp [getInstanceValue]
  · simp [getInstanceValue, h]

theorem getD_protocols (self : PaxosLeader V) (i : Int) (q : ProposalID) :
    ((self.instances i).getD {}).protocols q = self.protocolAt i q := by
  unfold protocolAt
  cases self.instances i <;> rfl

theorem getD_value (self : PaxosLeader V) (i : Int) :
    ((self.instances i).getD {}).value = self.getInstanceValue i := by
  unfold getInstanceValue
  cases self.instances i <;> rfl

end PaxosLeader

/-- Storing a changed protocol back into the record of its instance. -/
theorem leaderSets_update (self : PaxosLeader V) (i : Int) (pid : ProposalID)
    (p : PaxosLeaderProtocol V) (record : InstanceRecord (PaxosLeaderProtocol V) V)
    (hrecord : ∀ q, record.protocols q = if q = pid then some p else self.protocolAt i q)
    (ld : PaxosLeader V) (hport : ld.port = self.port) (hacceptors : ld.acceptors = self.acceptors)
    (hinstances : ld.instances = Function.update self.instances i (some record)) :
    LeaderSets self ld i pid p where
  port := hport
  acceptors := hacceptors
  protocol j q := by
    have hat : ld.protocolAt j q = if j = i then record.protocols q else self.protocolAt j q := by
      rw [← self.protocolAt_update i j q record]
      simp only [PaxosLeader.protocolAt, hinstances]
    rw [hat]
    by_cases hj : j = i
    · subst hj
      simp [hrecord q]
    · simp [hj]

theorem garbageCollect_quiet (ld : PaxosLeader V) : LeaderQuiet ld ld.garbageCollect where
  port := rfl
  acceptors := rfl
  count := le_rfl
  value i := by
    simp only [PaxosLeader.getInstanceValue, PaxosLeader.garbageCollect]
    cases ld.instances i <;> rfl
  protocol i pid p' hp' := by
    refine Or.inr ⟨p', ?_, rfl, rfl, rfl, id⟩
    simp only [PaxosLeader.protocolAt, PaxosLeader.garbageCollect] at hp' ⊢
    cases hrecord : ld.instances i with
    | none => simp [hrecord] at hp'
    | some record =>
      simp only [hrecord, Option.map_some, Option.bind_some,
        InstanceRecord.cleanProtocols, Option.filter_eq_some_iff] at hp' ⊢
      exact hp'.1

theorem quiet_of_instances {ld ld' : PaxosLeader V} (hport : ld'.port = ld.port)
    (hacceptors : ld'.acceptors = ld.acceptors) (hcount : ld.proposalCount ≤ ld'.proposalCount)
    (hinstances : ld'.instances = ld.instances) : LeaderQuiet ld ld' where
  port := hport
  acceptors := hacceptors
  count := hcount
  value i := by simp only [PaxosLeader.getInstanceValue, hinstances]
  protocol i pid p' hp' := by
    refine Or.inr ⟨p', ?_, rfl, rfl, rfl, id⟩
    simpa only [PaxosLeader.protocolAt, hinstances] using hp'

variable [DecidableEq V] (cfg : Config) (Sound : Prop)

theorem newProposal_move (w : World V) {l : Port} (hleader : l ∈ cfg.leaders) (value : Option V) (inst : Option Int) :
    Move cfg Sound w (w.leaderDone l
      { node := ((w.leaders l).newProposal value inst).1
        sent := ((w.leaders l).newProposal value inst).2 }) := by
  set ld := w.leaders l with hld
  let i := inst.getD (ld.highestInstance + 1)
  let pid : ProposalID := (ld.port, ld.proposalCount + 1)
  let p : PaxosLeaderProtocol V :=
    { proposalID := pid, value := value, instanceID := i, state := .proposed }
  have hsent : (ld.newProposal value inst).2 = proposals ld.acceptors ld.port pid i value := by
    cases inst <;> rfl
  rw [hsent]
  refine Move.propose w l _ i value p ?_ ?_ ?_ ⟨rfl, rfl, rfl⟩ rfl hleader
  · refine leaderSets_update ld i pid p (((ld.instances i).getD {}).addProtocol pid p) ?_ _ ?_ ?_ ?_
    · intro q
      rw [InstanceRecord.addProtocol]
      simp only [Function.update_apply, PaxosLeader.getD_protocols]
    all_goals cases inst <;> rfl
  · cases inst <;> rfl
  · intro j
    have hinstances : (ld.newProposal value inst).1.instances =
        Function.update ld.instances i (some (((ld.instances i).getD {}).addProtocol pid p)) := by
      cases inst <;> rfl
    have hat := ld.getInstanceValue_update i j (((ld.instances i).getD {}).addProtocol pid p)
    simp only [PaxosLeader.getInstanceValue, hinstances] at hat ⊢
    rw [hat]
    by_cases hj : j = i
    · subst hj
      rw [if_pos rfl]
      exact ld.getD_value _
    · rw [if_neg hj]

theorem fillGaps_moves [Zero V] (w : World V) {l : Port} (hleader : l ∈ cfg.leaders) (is : List Int) :
    Moves cfg Sound w (w.leaderDone l
      { node := ((w.leaders l).fillGaps is).1, sent := ((w.leaders l).fillGaps is).2 }) := by
  induction is generalizing w with
  | nil =>
    have hsame : w.leaderDone l { node := w.leaders l } = w := by simp [World.leaderDone]
    rw [PaxosLeader.fillGaps, hsame]
  | cons i is ih =>
    by_cases hgap : (w.leaders l).getInstanceValue i = none
    · have hfirst := newProposal_move cfg Sound w hleader (some (0 : V)) (some i)
      have hrest := ih (w.leaderDone l
        { node := ((w.leaders l).newProposal (some 0) (some i)).1
          sent := ((w.leaders l).newProposal (some 0) (some i)).2 })
      rw [leaderDone_leaderDone, leaderDone_leaders_self] at hrest
      refine (Relation.ReflTransGen.single hfirst).trans ?_
      simpa [PaxosLeader.fillGaps, hgap] using hrest
    · simpa [PaxosLeader.fillGaps, hgap] using ih w

theorem recvNone_moves [Zero V] (w : World V) {l : Port} (hleader : l ∈ cfg.leaders) (elapsed : Bool) :
    Moves cfg Sound w (w.leaderDone l ((w.leaders l).recvNone elapsed)) := by
  have hsame : Moves cfg Sound w (w.leaderDone l { node := w.leaders l }) :=
    .single (.leaderQuiet w l _ (quiet_of_instances rfl rfl le_rfl rfl))
  unfold PaxosLeader.recvNone
  by_cases hstopped : (w.leaders l).stopped = true
  · rw [if_pos hstopped]
    exact hsame
  · rw [if_neg hstopped]
    by_cases hdue : (w.leaders l).isPrimary ∧ elapsed
    · rw [if_pos hdue]
      have hfill := fillGaps_moves cfg Sound w hleader
        ((List.range ((w.leaders l).highestInstance - 1).toNat).map fun k => (k : Int) + 1)
      refine hfill.tail ?_
      have hgc : Move cfg Sound _ _ := Move.leaderQuiet (w.leaderDone l
        { node := (w.leaders l).findAndFillGaps.1, sent := (w.leaders l).findAndFillGaps.2 }) l _
        (garbageCollect_quiet _)
      rw [leaderDone_leaderDone, leaderDone_leaders_self] at hgc
      simpa [PaxosLeader.findAndFillGaps] using hgc
    · rw [if_neg hdue]
      exact hsame

/-! ### Leaders receiving a message -/

section Transition

variable {self : PaxosLeader V} {i : Int} (pid : ProposalID)
  {record : InstanceRecord (PaxosLeaderProtocol V) V}

/-- The leader with `p` stored for the proposal. -/
private def stored (self : PaxosLeader V) (record : InstanceRecord (PaxosLeaderProtocol V) V) (i : Int)
    (pid : ProposalID) (p : PaxosLeaderProtocol V) : PaxosLeader V :=
  { self with instances := Function.update self.instances i (some (record.setProtocol pid p)) }

omit [DecidableEq V] in
private theorem stored_sets (hrecord : ∀ q, record.protocols q = self.protocolAt i q)
    (p : PaxosLeaderProtocol V) : LeaderSets self (stored self record i pid p) i pid p := by
  refine leaderSets_update self i pid p (record.setProtocol pid p) ?_ _ rfl rfl rfl
  intro q
  simp only [InstanceRecord.setProtocol, Function.update_apply, hrecord]

omit [DecidableEq V] in
private theorem stored_value (hvalue : record.value = self.getInstanceValue i)
    (p : PaxosLeaderProtocol V) (j : Int) :
    (stored self record i pid p).getInstanceValue j = self.getInstanceValue j := by
  rw [stored, PaxosLeader.getInstanceValue_update]
  by_cases hj : j = i
  · subst hj
    rw [if_pos rfl]
    exact hvalue
  · rw [if_neg hj]

omit [DecidableEq V] in
private theorem stored_quiet (hrecord : ∀ q, record.protocols q = self.protocolAt i q)
    (hvalue : record.value = self.getInstanceValue i) {p : PaxosLeaderProtocol V}
    (hp : self.protocolAt i pid = some p) (p' : PaxosLeaderProtocol V) (hagree : p'.agreecount = p.agreecount)
    (haccept : p'.acceptcount = p.acceptcount) (hseen : p'.highestseen = p.highestseen)
    (hstate : p'.state = .proposed → p.state = .proposed) :
    LeaderQuiet self (stored self record i pid p') where
  port := rfl
  acceptors := rfl
  count := le_rfl
  value := stored_value pid hvalue p'
  protocol j q p'' hp'' := by
    rw [(stored_sets pid hrecord p').protocol] at hp''
    by_cases hjq : j = i ∧ q = pid
    · rw [if_pos hjq] at hp''
      obtain ⟨rfl, rfl⟩ := hjq
      obtain rfl : p' = p'' := Option.some.inj hp''
      exact Or.inr ⟨p, hp, hagree, haccept, hseen, hstate⟩
    · rw [if_neg hjq] at hp''
      exact Or.inr ⟨p'', hp'', rfl, rfl, rfl, id⟩

/-- The message is consumed and the leader changes quietly. -/
private theorem consume_quiet (w : World V) (m : Message V) {ld : PaxosLeader V}
    (h : LeaderQuiet (w.leaders m.dest) ld) :
    Moves cfg Sound w ((w.consume m).leaderDone m.dest { node := ld }) :=
  Relation.ReflTransGen.head (.consume w m) (.single (.leaderQuiet (w.consume m) m.dest ld h))

/-- A rejected protocol opens a new proposal. -/
private theorem rejected_moves (w : World V) (m : Message V) (hleader : m.dest ∈ cfg.leaders) {ld : PaxosLeader V}
    (h : LeaderQuiet (w.leaders m.dest) ld) (value : Option V) :
    Moves cfg Sound w ((w.consume m).leaderDone m.dest
      { node := (ld.newProposal value none).1, sent := (ld.newProposal value none).2 }) := by
  refine (consume_quiet cfg Sound w m h).tail ?_
  have hpropose := newProposal_move cfg Sound
    ((w.consume m).leaderDone m.dest { node := ld }) hleader value none
  rw [leaderDone_leaderDone, leaderDone_leaders_self] at hpropose
  simpa using hpropose

theorem transition_moves (w : World V) (m : Message V) (hnet : m ∈ w.net) (hleader : m.dest ∈ cfg.leaders)
    (record : InstanceRecord (PaxosLeaderProtocol V) V) (p : PaxosLeaderProtocol V)
    (hrecord : ∀ q, record.protocols q = (w.leaders m.dest).protocolAt m.instanceID q)
    (hvalue : record.value = (w.leaders m.dest).getInstanceValue m.instanceID)
    (hp : (w.leaders m.dest).protocolAt m.instanceID m.proposalID = some p)
    (hsound : Sound → m.command = .acceptorAgree → p.state = .proposed →
      (w.leaders m.dest).getQuorumSize ≤ p.agreecount + 1 → w.ChoiceSound m) :
    Moves cfg Sound w ((w.consume m).leaderDone m.dest
      ((w.leaders m.dest).transition record p m)) := by
  set self := w.leaders m.dest with hself
  have hsets := fun q => stored_sets m.proposalID hrecord q
  have hkeep := fun q => stored_value m.proposalID hvalue q
  unfold PaxosLeader.transition PaxosLeaderProtocol.doTransition
  split
  next hstate hcommand =>
    dsimp only
    split
    next hquorum =>
      -- the reply completes the quorum; `notifyLeader` has nothing to do for `STATE_AGREED`
      refine .single ?_
      by_cases hadopts : p.adopts m
      · have hadopts' : PaxosLeaderProtocol.adopts { p with agreecount := p.agreecount + 1 } m :=
          hadopts
        have hmove : Move cfg Sound _ _ := Move.choose w m _ p
          { p with agreecount := p.agreecount + 1, value := m.value, highestseen := m.sequence,
                   state := .agreed } hnet hcommand hp hstate hquorum (hsets _) rfl (hkeep _) rfl rfl
          rfl (fun _ => rfl) (fun h => hsound h hcommand hstate hquorum)
        simpa [hadopts', PaxosLeader.notifyLeader, acceptRequests, Message.copyAsReply, stored]
          using hmove
      · have hadopts' : ¬ PaxosLeaderProtocol.adopts { p with agreecount := p.agreecount + 1 } m :=
          hadopts
        have hmove : Move cfg Sound _ _ := Move.choose w m _ p
          { p with agreecount := p.agreecount + 1, state := .agreed } hnet hcommand hp hstate hquorum
          (hsets _) rfl (hkeep _) rfl rfl rfl (fun h => absurd h hadopts)
          (fun h => hsound h hcommand hstate hquorum)
        simpa [hadopts', PaxosLeader.notifyLeader, acceptRequests, Message.copyAsReply, stored]
          using hmove
    next hquorum =>
      exact .single (.count w m _ p { p with agreecount := p.agreecount + 1 } hnet hp (hsets _) rfl
        (hkeep _) rfl (Or.inl ⟨hcommand, rfl, rfl⟩) rfl)
  next hstate hcommand =>
    dsimp only
    split
    next hquorum =>
      have hquiet : LeaderQuiet self
          { stored self record m.instanceID m.proposalID
              { p with rejectcount := p.rejectcount + 1, state := .rejected } with
            proposalCount := max self.proposalCount m.highestPID.2 } := by
        have h := stored_quiet m.proposalID hrecord hvalue hp
          { p with rejectcount := p.rejectcount + 1, state := .rejected } rfl rfl rfl (by simp)
        exact ⟨h.port, h.acceptors, le_max_left _ _, h.value, h.protocol⟩
      have hmoves := rejected_moves cfg Sound w m hleader hquiet m.value
      simpa [PaxosLeader.notifyLeader, stored] using hmoves
    next hquorum =>
      exact consume_quiet cfg Sound w m (stored_quiet m.proposalID hrecord hvalue hp _ rfl rfl rfl id)
  next hstate hcommand =>
    dsimp only
    split
    next hquorum =>
      refine .single ?_
      set p' : PaxosLeaderProtocol V := { p with acceptcount := p.acceptcount + 1, state := .accepted }
      have hmove : Move cfg Sound _ _ := Move.record w m
        { stored self record m.instanceID m.proposalID p' with
          instances := Function.update (stored self record m.instanceID m.proposalID p').instances
            m.instanceID (some { record.setProtocol m.proposalID p' with value := m.value })
          highestInstance := max m.instanceID self.highestInstance } p p' hnet hcommand hp hquorum
        ?_ rfl ?_ rfl rfl rfl
      · have hdone : p'.state = .accepted := rfl
        simpa [PaxosLeader.notifyLeader, stored, hdone, ← hself] using hmove
      · refine leaderSets_update self _ _ p'
          { record.setProtocol m.proposalID p' with value := m.value } ?_ _ rfl rfl ?_
        · intro q
          simp only [InstanceRecord.setProtocol, Function.update_apply, hrecord]
        · simp [stored]
      · intro j
        by_cases hj : j = m.instanceID
        · subst hj
          simp [PaxosLeader.getInstanceValue]
        · simp [PaxosLeader.getInstanceValue, stored, hj, hself]
    next hquorum =>
      exact .single (.count w m _ p { p with acceptcount := p.acceptcount + 1 } hnet hp (hsets _) rfl
        (hkeep _) rfl (Or.inr ⟨hcommand, rfl, rfl⟩) rfl)
  next hstate hcommand =>
    dsimp only
    split
    next hquorum =>
      have hmoves := consume_quiet cfg Sound w m (stored_quiet
        m.proposalID hrecord hvalue hp
        { p with unacceptcount := p.unacceptcount + 1, state := .unaccepted } rfl rfl rfl (by simp))
      simpa [PaxosLeader.notifyLeader, stored] using hmoves
    next hquorum =>
      exact consume_quiet cfg Sound w m (stored_quiet m.proposalID hrecord hvalue hp _ rfl rfl rfl id)
  next =>
    exact consume_quiet cfg Sound w m (stored_quiet m.proposalID hrecord hvalue hp _ rfl rfl rfl id)

end Transition

omit [DecidableEq V] in
/-- A leader that hears of a foreign proposal's acceptance first pretends to have it in progress. -/
private theorem listen_quiet (self : PaxosLeader V) (m : Message V) :
    LeaderQuiet self { self with
      instances := Function.update self.instances m.instanceID
        (some (((self.instances m.instanceID).getD {}).addProtocol m.proposalID
          { state := .agreed, proposalID := m.proposalID, instanceID := m.instanceID,
            value := m.value })) } where
  port := rfl
  acceptors := rfl
  count := le_rfl
  value j := by
    rw [PaxosLeader.getInstanceValue_update]
    by_cases hj : j = m.instanceID
    · subst hj
      rw [if_pos rfl]
      exact self.getD_value _
    · rw [if_neg hj]
  protocol j q p' hp' := by
    rw [PaxosLeader.protocolAt_update] at hp'
    by_cases hj : j = m.instanceID
    · subst hj
      rw [if_pos rfl, InstanceRecord.addProtocol] at hp'
      simp only [Function.update_apply, PaxosLeader.getD_protocols] at hp'
      by_cases hq : q = m.proposalID
      · subst hq
        rw [if_pos rfl] at hp'
        obtain rfl := Option.some.inj hp'
        exact Or.inl ⟨by simp, rfl, rfl⟩
      · rw [if_neg hq] at hp'
        exact Or.inr ⟨p', hp', rfl, rfl, rfl, id⟩
    · rw [if_neg hj] at hp'
      exact Or.inr ⟨p', hp', rfl, rfl, rfl, id⟩

omit [DecidableEq V] in
theorem PaxosLeader.getProtocol_eq_ok {self : PaxosLeader V} {i : Int} {pid : ProposalID}
    {record : InstanceRecord (PaxosLeaderProtocol V) V} {p : PaxosLeaderProtocol V}
    (hrecord : self.instances i = some record) (hp : record.getProtocol pid = .ok p) :
    self.protocolAt i pid = some p := by
  unfold InstanceRecord.getProtocol at hp
  split at hp
  next p' hp' =>
    obtain rfl := Except.ok.inj hp
    simp [protocolAt, hrecord, hp']
  next => cases hp

theorem toLeader_moves (w : World V) (m : Message V) (hnet : m ∈ w.net) (hleader : m.dest ∈ cfg.leaders)
    (hsound : Sound → w.Completes m → w.ChoiceSound m) : Moves cfg Sound w (w.toLeader m) := by
  set self := w.leaders m.dest with hself
  have hsame : Moves cfg Sound w ((w.consume m).leaderDone m.dest { node := self }) :=
    consume_quiet cfg Sound w m (quiet_of_instances rfl rfl le_rfl rfl)
  unfold World.toLeader
  generalize hrecv : self.recvMessage m = result
  unfold PaxosLeader.recvMessage at hrecv
  by_cases hstopped : self.stopped = true
  · rw [if_pos hstopped] at hrecv
    subst hrecv
    exact hsame
  rw [if_neg hstopped] at hrecv
  have hquietDead : Moves cfg Sound w ((w.consume m).leaderDone m.dest
      { node := { self with pumpAlive := false } }) :=
    consume_quiet cfg Sound w m (quiet_of_instances rfl rfl le_rfl rfl)
  split at hrecv
  next =>
    subst hrecv
    exact hsame
  next =>
    split at hrecv
    · subst hrecv
      exact rejected_moves cfg Sound w m hleader (quiet_of_instances rfl rfl le_rfl rfl) m.value
    · subst hrecv
      exact hsame
  next hcommand =>
    have hagree : m.command ≠ .acceptorAgree := by simp [hcommand]
    dsimp only at hrecv
    split at hrecv
    next =>
      subst hrecv
      -- first the pretended protocol is registered, then it counts the message
      have hlisten := listen_quiet self m
      refine Relation.ReflTransGen.head (.leaderQuiet w m.dest _ hlisten) ?_
      set listener : PaxosLeaderProtocol V :=
        { state := .agreed, proposalID := m.proposalID, instanceID := m.instanceID,
          value := m.value } with hlistener
      set record := (((self.instances m.instanceID).getD {}).addProtocol m.proposalID listener)
        with hrecord
      set ld : PaxosLeader V := { self with
        instances := Function.update self.instances m.instanceID (some record) } with hld
      have hat : ∀ q, record.protocols q = ld.protocolAt m.instanceID q := by
        intro q
        rw [hld, PaxosLeader.protocolAt_update, if_pos rfl]
      have hmoves := transition_moves cfg Sound
        (w.leaderDone m.dest { node := ld }) m (by simpa [World.leaderDone] using hnet) hleader
        record listener (by simpa using hat)
        (by rw [leaderDone_leaders_self, hld, PaxosLeader.getInstanceValue_update, if_pos rfl])
        (by rw [leaderDone_leaders_self, ← hat, hrecord]; simp [InstanceRecord.addProtocol])
        (fun _ h => absurd h hagree)
      rw [leaderDone_leaders_self] at hmoves
      have htransition : ld.transition record listener m = self.transition record listener m := by
        simp [PaxosLeader.transition, PaxosLeaderProtocol.doTransition, hld, hlistener, hcommand,
          PaxosLeader.getQuorumSize]
      have hworld : ((w.leaderDone m.dest { node := ld }).consume m).leaderDone m.dest
          (ld.transition record listener m) =
          (w.consume m).leaderDone m.dest (self.transition record listener m) := by
        rw [htransition]
        simp [World.leaderDone, World.consume]
      rwa [hworld] at hmoves
    next p hp =>
      subst hrecv
      refine transition_moves cfg Sound w m hnet hleader _ p (fun q => self.getD_protocols _ q) (self.getD_value _) ?_
        (fun _ h => absurd h hagree)
      rw [← hself, ← self.getD_protocols]
      exact hp
  next =>
    split at hrecv
    next hprimary =>
      split at hrecv
      next =>
        subst hrecv
        exact hquietDead
      next record hrecord =>
        cases hp : record.getProtocol m.proposalID with
        | error e =>
          rw [hp] at hrecv
          subst hrecv
          exact hquietDead
        | ok p =>
          rw [hp] at hrecv
          subst hrecv
          have hat := PaxosLeader.getProtocol_eq_ok hrecord hp
          refine transition_moves cfg Sound w m hnet hleader record p ?_ ?_ hat ?_
          · intro q
            simp [PaxosLeader.protocolAt, ← hself, hrecord]
          · simp [PaxosLeader.getInstanceValue, ← hself, hrecord]
          · intro hs hcommand hstate hquorum
            exact hsound hs ⟨by simpa using hstopped, hprimary, hcommand, p, hat, hstate, hquorum⟩
    next =>
      subst hrecv
      exact hsame

/-! ### Acceptors receiving a message -/

omit [DecidableEq V] in
private theorem acceptorSets_update (self : PaxosAcceptor V) (i : Int) (pid : ProposalID)
    (p : PaxosAcceptorProtocol) (record : InstanceRecord PaxosAcceptorProtocol V)
    (hrecord : ∀ q, record.protocols q = if q = pid then some p else self.protocolAt i q) :
    AcceptorSets self
      { self with instances := Function.update self.instances i (some record) } i pid p where
  port := rfl
  leaders := rfl
  protocol j q := by
    by_cases hj : j = i
    · subst hj
      simp [PaxosAcceptor.protocolAt, hrecord q]
    · simp [PaxosAcceptor.protocolAt, hj]

omit [DecidableEq V] in
private theorem valueAt_update (self : PaxosAcceptor V) (i j : Int)
    (record : InstanceRecord PaxosAcceptorProtocol V) :
    PaxosAcceptor.valueAt
      { self with instances := Function.update self.instances i (some record) } j =
      if j = i then record.value else self.valueAt j := by
  by_cases hj : j = i
  · subst hj
    simp [PaxosAcceptor.valueAt]
  · simp [PaxosAcceptor.valueAt, hj]

/-- The message is consumed and the acceptor changes only its flags. -/
private theorem consume_acceptorQuiet (w : World V) (m : Message V) {ac : PaxosAcceptor V}
    (hport : ac.port = (w.acceptors m.dest).port)
    (hleaders : ac.leaders = (w.acceptors m.dest).leaders)
    (hinstances : ac.instances = (w.acceptors m.dest).instances) :
    Moves cfg Sound w ((w.consume m).acceptorDone m.dest { node := ac }) :=
  Relation.ReflTransGen.head (.consume w m)
    (.single (.acceptorQuiet (w.consume m) m.dest ac hport hleaders hinstances))

theorem toAcceptor_moves (w : World V) (m : Message V) (hnet : m ∈ w.net)
    (hacceptor : m.dest ∈ cfg.acceptors) (hsound : Sound → w.Accepts m → w.AcceptSound m) :
    Moves cfg Sound w (w.toAcceptor m) := by
  set self := w.acceptors m.dest with hself
  have hdead : Moves cfg Sound w ((w.consume m).acceptorDone m.dest
      { node := { self with pumpAlive := false } }) := consume_acceptorQuiet cfg Sound w m rfl rfl rfl
  unfold World.toAcceptor
  generalize hrecv : self.recvMessage m = result
  unfold PaxosAcceptor.recvMessage at hrecv
  by_cases hfailed : self.failed = true
  · rw [if_pos hfailed] at hrecv
    subst hrecv
    exact consume_acceptorQuiet cfg Sound w m rfl rfl rfl
  rw [if_neg hfailed] at hrecv
  by_cases hcommand : m.command = .propose
  · rw [if_pos hcommand] at hrecv
    subst hrecv
    set record := (self.instances m.instanceID).getD {} with hrecord
    have hprotocols : ∀ q, record.protocols q = self.protocolAt m.instanceID q := by
      intro q
      rw [hrecord, PaxosAcceptor.protocolAt]
      cases self.instances m.instanceID <;> rfl
    have hvalue : record.value = self.valueAt m.instanceID := by
      rw [hrecord, PaxosAcceptor.valueAt]
      cases self.instances m.instanceID <;> rfl
    have hsets : ∀ p, AcceptorSets self { self with
        instances := Function.update self.instances m.instanceID
          (some (record.addProtocol m.proposalID p)) } m.instanceID m.proposalID p := by
      intro p
      refine acceptorSets_update self m.instanceID m.proposalID p _ fun q => ?_
      rw [InstanceRecord.addProtocol]
      simp only [Function.update_apply, hprotocols]
    have hkeep : ∀ p j, PaxosAcceptor.valueAt { self with
        instances := Function.update self.instances m.instanceID
          (some (record.addProtocol m.proposalID p)) } j = self.valueAt j := by
      intro p j
      rw [valueAt_update]
      by_cases hj : j = m.instanceID
      · subst hj
        rw [if_pos rfl, InstanceRecord.addProtocol, hvalue]
      · rw [if_neg hj]
    have hraises : ∀ p, AcceptorRaises self { self with
        instances := Function.update self.instances m.instanceID
          (some (record.addProtocol m.proposalID p)) } m.instanceID m.proposalID := by
      intro p j
      rw [highestAt_update]
      by_cases hj : j = m.instanceID
      · subst hj
        simp only [InstanceRecord.addProtocol, if_true, true_and]
        rfl
      · simp [hj]
    unfold PaxosAcceptorProtocol.recvProposal
    dsimp only
    split
    next =>
      exact .single (.agree w m _ _ _ hacceptor hnet hcommand (hsets _) (hkeep _) rfl
        ⟨rfl, rfl, rfl, rfl, hvalue⟩ rfl (hraises _))
    next =>
      exact .single (.reject w m _ _ hacceptor hnet hcommand (hsets _) (hkeep _) rfl (hraises _))
  rw [if_neg hcommand] at hrecv
  split at hrecv
  next =>
    subst hrecv
    exact hdead
  next record hrecord =>
    cases hget : record.getProtocol m.proposalID with
    | error e =>
      rw [hget] at hrecv
      subst hrecv
      exact hdead
    | ok p =>
      have hp : self.protocolAt m.instanceID m.proposalID = some p := by
        unfold InstanceRecord.getProtocol at hget
        split at hget
        next p' hp' =>
          obtain rfl := Except.ok.inj hget
          simp [PaxosAcceptor.protocolAt, hrecord, hp']
        next => cases hget
      rw [hget] at hrecv
      by_cases haccept : p.state = .proposalAgreed ∧ m.command = .accept
      · set p' : PaxosAcceptorProtocol := { p with state := .proposalAccepted } with hp'
        set record' := PaxosAcceptor.notifyClient (record.setProtocol m.proposalID p') p' m
          with hrecord'
        have hprotocols : ∀ q, record'.protocols q =
            if q = m.proposalID then some p' else self.protocolAt m.instanceID q := by
          intro q
          simp [hrecord', PaxosAcceptor.notifyClient, hp', InstanceRecord.setProtocol,
            Function.update_apply, PaxosAcceptor.protocolAt, hrecord]
        have hmove : Move cfg Sound _ _ := Move.accept w m _ p p' hacceptor hnet haccept.2 hp
          haccept.1 (acceptorSets_update self _ _ p' record' hprotocols)
          (by
            intro j
            rw [valueAt_update]
            simp [hrecord', PaxosAcceptor.notifyClient, hp', ← hself])
          rfl (fun hs => hsound hs ⟨by simpa using hfailed, haccept.2, p, hp, haccept.1⟩)
          (by
            intro j
            rw [highestAt_update, ← hself]
            by_cases hj : j = m.instanceID
            · subst hj
              simp [hrecord', PaxosAcceptor.notifyClient, hp', InstanceRecord.setProtocol, PaxosAcceptor.highestAt, hrecord]
            · simp [hj])
        have hdo : p.doTransition self m = .ok
            { node := p', sent := acceptNotices self.leaders self.port m
              events := [.accepted self.port m.instanceID m.proposalID m.value] } := by
          unfold PaxosAcceptorProtocol.doTransition
          rw [if_pos haccept]
          rfl
        simp only [bind, Except.bind, hdo, pure, Except.pure] at hrecv
        subst hrecv
        exact .single hmove
      · have hdo : p.doTransition self m = .error .unexpectedState := by
          unfold PaxosAcceptorProtocol.doTransition
          rw [if_neg haccept]
        simp only [bind, Except.bind, hdo] at hrecv
        subst hrecv
        exact hdead

/-! ### Every action is a sequence of moves -/

theorem step_moves [Zero V] (w : World V) (action : Action V) (hsound : Sound → SoundStep w action) :
    Moves cfg Sound w (w.step cfg action) := by
  have hquiet : ∀ l ld, ld.port = (w.leaders l).port → ld.acceptors = (w.leaders l).acceptors →
      ld.proposalCount = (w.leaders l).proposalCount → ld.instances = (w.leaders l).instances →
      Moves cfg Sound w (w.leaderDone l { node := ld }) :=
    fun l ld hport hacceptors hcount hinstances =>
      .single (.leaderQuiet w l ld (quiet_of_instances hport hacceptors hcount.ge hinstances))
  cases action with
  | deliver m =>
    unfold World.step
    dsimp only
    split
    · exact .refl
    next hnet =>
      rw [not_not] at hnet
      split
      next hleader =>
        split
        · exact toLeader_moves cfg Sound w m hnet hleader fun hs => (hsound hs).2
        · exact .refl
      next =>
        split
        next hacceptor =>
          split
          · exact toAcceptor_moves cfg Sound w m hnet hacceptor fun hs => (hsound hs).1
          · exact .refl
        next => exact .single (.consume w m)
  | lose m => exact .single (.consume w m)
  | extPropose l client value => exact .single (.inject w _ (by simp [Message.IsProtocol]))
  | heartbeat l other =>
    unfold World.step
    dsimp only
    split
    · exact .single (.inject w _ (by simp [Message.IsProtocol]))
    · exact .refl
  | timeout l elapsed =>
    unfold World.step
    dsimp only
    split
    next hdue => exact recvNone_moves cfg Sound w hdue.1 elapsed
    next => exact .refl
  | setPrimary l primary => exact hquiet l _ rfl rfl rfl rfl
  | start l => exact hquiet l _ rfl rfl rfl rfl
  | stop l => exact hquiet l _ rfl rfl rfl rfl
  | fail a => exact .single (.acceptorQuiet w a _ rfl rfl rfl)
  | recover a => exact .single (.acceptorQuiet w a _ rfl rfl rfl)

/-- What every move keeps holds after every run whose steps are sound where that is asked for. -/
theorem after_invariant [Zero V] {Inv : World V → Prop}
    (hinit : Inv (World.init cfg)) (hmove : ∀ w w', Move cfg Sound w w' → Inv w → Inv w')
    {actions : List (Action V)}
    (hrun : Transition.Along (World.step cfg) (fun w a => Sound → SoundStep w a)
      (World.init cfg) actions) : Inv (World.after cfg actions) := by
  refine Transition.run_invariant (World.step cfg) ?_ hrun hinit
  intro w action hsound hinv
  have hmoves := step_moves cfg Sound w action hsound
  generalize w.step cfg action = w' at hmoves ⊢
  induction hmoves with
  | refl => exact hinv
  | tail _ hlast ih => exact hmove _ _ hlast ih

end Reading.Paxos
