import Reading.Paxos.Delivery

/-!
# When a delivery raises

A leader looks up the protocol of every reply but an `MSG_ACCEPTOR_ACCEPT`, and `garbageCollect` deletes the accepted ones, so a reply that comes late finds none. An acceptor looks up the protocol of every message but an `MSG_PROPOSE`, and raises as well when that protocol was rejected; but a leader asks all acceptors to accept, also those that never saw the proposal or did not agree to it. The docstring of `doTransition` says that messages which are not expected are ignored.

Here the deliveries that raise are told exactly, in terms of what happened before: the protocol was collected and not heard of since, or the acceptor has not agreed to the proposal.
-/

namespace Reading.Paxos

variable {V : Type}

/-- The leader has a protocol for the proposal. -/
def PaxosLeader.Knows (self : PaxosLeader V) (i : Int) (pid : ProposalID) : Prop :=
  (self.protocolAt i pid).isSome = true

/-! ### What a leader remembers and sends -/

/-- The leader forgets no protocol; it learns of those in `heard` and of the proposals it opens under new numbers, and it sends only messages that ask the acceptors about proposals, its own if they are opened. -/
structure Grows (heard : Int → ProposalID → Prop) (ld ld' : PaxosLeader V) (sent : List (Message V)) : Prop where
  port : ld'.port = ld.port
  acceptors : ld'.acceptors = ld.acceptors
  count : ld.proposalCount ≤ ld'.proposalCount
  keeps : ∀ i pid, ld.Knows i pid → ld'.Knows i pid
  fresh : ∀ i pid, ld'.Knows i pid → ld.Knows i pid ∨ heard i pid ∨
    (pid.1 = ld.port ∧ ld.proposalCount < pid.2 ∧ pid.2 ≤ ld'.proposalCount)
  sends : ∀ m ∈ sent, m.dest ∈ ld.acceptors ∧
    (m.command = .accept ∨ m.command = .propose ∧ m.source = m.proposalID.1 ∧ m.proposalID.1 = ld.port ∧
      ld'.Knows m.instanceID m.proposalID)

section Leader

variable {heard : Int → ProposalID → Prop} {ld ld' ld'' : PaxosLeader V} {sent sent' : List (Message V)}

theorem Grows.trans (h : Grows heard ld ld' sent) (h' : Grows heard ld' ld'' sent') :
    Grows heard ld ld'' (sent ++ sent') where
  port := h'.port.trans h.port
  acceptors := h'.acceptors.trans h.acceptors
  count := h.count.trans h'.count
  keeps i pid hknows := h'.keeps i pid (h.keeps i pid hknows)
  fresh i pid hknows := by
    obtain hold | hheard | ⟨hport, hlow, hhigh⟩ := h'.fresh i pid hknows
    · obtain hold | hheard | ⟨hport, hlow, hhigh⟩ := h.fresh i pid hold
      · exact .inl hold
      · exact .inr (.inl hheard)
      · exact .inr (.inr ⟨hport, hlow, hhigh.trans h'.count⟩)
    · exact .inr (.inl hheard)
    · exact .inr (.inr ⟨hport.trans h.port, h.count.trans_lt hlow, hhigh⟩)
  sends m hm := by
    rcases List.mem_append.mp hm with hm | hm
    · obtain ⟨hdest, haccept | ⟨hpropose, hsource, hport, hknows⟩⟩ := h.sends m hm
      · exact ⟨hdest, .inl haccept⟩
      · exact ⟨hdest, .inr ⟨hpropose, hsource, hport, h'.keeps _ _ hknows⟩⟩
    · obtain ⟨hdest, haccept | ⟨hpropose, hsource, hport, hknows⟩⟩ := h'.sends m hm
      · exact ⟨h.acceptors ▸ hdest, .inl haccept⟩
      · exact ⟨h.acceptors ▸ hdest, .inr ⟨hpropose, hsource, hport.trans h.port, hknows⟩⟩

/-- Only what is not a protocol or the counter of proposals changes. -/
theorem Grows.of_instances (hport : ld'.port = ld.port) (hacceptors : ld'.acceptors = ld.acceptors)
    (hcount : ld.proposalCount ≤ ld'.proposalCount) (hknows : ∀ i pid, ld'.Knows i pid ↔ ld.Knows i pid) :
    Grows heard ld ld' [] where
  port := hport
  acceptors := hacceptors
  count := hcount
  keeps i pid := (hknows i pid).mpr
  fresh i pid h := .inl ((hknows i pid).mp h)
  sends _ hm := nomatch hm

theorem knows_update (self : PaxosLeader V) (i : Int) (record : InstanceRecord (PaxosLeaderProtocol V) V)
    (j : Int) (q : ProposalID) :
    PaxosLeader.Knows { self with instances := Function.update self.instances i (some record) } j q ↔
      if j = i then (record.protocols q).isSome = true else self.Knows j q := by
  rw [PaxosLeader.Knows, PaxosLeader.protocolAt_update]
  split <;> rfl

/-- Opening a proposal in the leader `base`, whose counter is one ahead. -/
theorem propose_grows {self base : PaxosLeader V} (hport : base.port = self.port)
    (hacceptors : base.acceptors = self.acceptors) (hcount : base.proposalCount = self.proposalCount + 1)
    (hinstances : base.instances = self.instances) (value : Option V) (i : Int) :
    Grows heard self
      { base with
        instances := Function.update base.instances i
          (some (((base.instances i).getD {}).addProtocol (base.port, base.proposalCount)
            (PaxosLeaderProtocol.propose {} base value (base.port, base.proposalCount) i).1)) }
      (PaxosLeaderProtocol.propose {} base value (base.port, base.proposalCount) i).2 := by
  have hknows : ∀ j q, base.Knows j q ↔ self.Knows j q := by
    intro j q
    rw [PaxosLeader.Knows, PaxosLeader.Knows, PaxosLeader.protocolAt, PaxosLeader.protocolAt, hinstances]
  have hnew : ∀ q protocol, ((((base.instances i).getD {}).addProtocol (base.port, base.proposalCount)
      protocol).protocols q).isSome = true ↔ q = (base.port, base.proposalCount) ∨ self.Knows i q := by
    intro q protocol
    rw [InstanceRecord.addProtocol]
    by_cases hq : q = (base.port, base.proposalCount)
    · simp [hq]
    · simp only [Function.update_of_ne hq, PaxosLeader.getD_protocols, hq, false_or]
      exact hknows i q
  refine ⟨hport, hacceptors, by simp only [hcount]; omega, fun j q hq => ?_, fun j q hq => ?_, fun m hm => ?_⟩
  · rw [knows_update]
    split
    · rename_i hj
      subst hj
      exact (hnew q _).mpr (.inr hq)
    · exact (hknows j q).mpr hq
  · rw [knows_update] at hq
    split at hq
    · rename_i hj
      subst hj
      rcases (hnew q _).mp hq with rfl | hq
      · refine .inr (.inr ⟨hport, ?_, le_rfl⟩)
        simp only [hcount]
        omega
      · exact .inl hq
    · exact .inl ((hknows j q).mp hq)
  · obtain ⟨server, hserver, rfl⟩ := List.mem_map.mp hm
    refine ⟨hacceptors ▸ hserver, .inr ⟨rfl, rfl, hport, ?_⟩⟩
    rw [knows_update, if_pos rfl]
    exact (hnew _ _).mpr (.inl rfl)

theorem newProposal_grows (self : PaxosLeader V) (value : Option V) (inst : Option Int) :
    Grows heard self (self.newProposal value inst).1 (self.newProposal value inst).2 := by
  cases inst with
  | none =>
    exact @propose_grows V heard self { self with
      highestInstance := self.highestInstance + 1
      proposalCount := self.proposalCount + 1 } rfl rfl rfl rfl value _
  | some i =>
    exact @propose_grows V heard self { self with proposalCount := self.proposalCount + 1 } rfl rfl rfl rfl value i

theorem notifyLeader_grows (self : PaxosLeader V) (protocol : PaxosLeaderProtocol V) (message : Message V) :
    Grows heard self (self.notifyLeader protocol message).node (self.notifyLeader protocol message).sent := by
  rw [PaxosLeader.notifyLeader]
  split
  · refine .of_instances rfl rfl le_rfl fun i pid => ?_
    have hupdate := knows_update { self with highestInstance := max message.instanceID self.highestInstance }
      message.instanceID { (self.instances message.instanceID).getD {} with value := message.value } i pid
    refine hupdate.trans ?_
    split
    · rename_i hi
      subst hi
      simp only [PaxosLeader.getD_protocols]
      rfl
    · rfl
  · have hcount : Grows heard self { self with proposalCount := max self.proposalCount message.highestPID.2 } [] :=
      .of_instances rfl rfl (le_max_left _ _) fun _ _ => Iff.rfl
    exact hcount.trans (newProposal_grows _ message.value none)
  · exact .of_instances rfl rfl le_rfl fun _ _ => Iff.rfl

theorem transition_grows (self : PaxosLeader V) (record : InstanceRecord (PaxosLeaderProtocol V) V)
    (protocol : PaxosLeaderProtocol V) (message : Message V)
    (hkeeps : ∀ q, self.Knows message.instanceID q → (record.protocols q).isSome = true)
    (hfresh : ∀ q, (record.protocols q).isSome = true → self.Knows message.instanceID q ∨ heard message.instanceID q)
    (hknown : (record.protocols message.proposalID).isSome = true) :
    Grows heard self (self.transition record protocol message).node (self.transition record protocol message).sent := by
  have hset : ∀ p q, ((record.setProtocol message.proposalID p).protocols q).isSome = true
      ↔ (record.protocols q).isSome = true := by
    intro p q
    rw [InstanceRecord.setProtocol]
    by_cases hq : q = message.proposalID
    · simp [hq, hknown]
    · simp [Function.update_of_ne hq]
  have hsent : ∀ m ∈ (protocol.doTransition self message).1.sent, m.dest ∈ self.acceptors ∧ m.command = .accept := by
    intro m hm
    rw [PaxosLeaderProtocol.doTransition] at hm
    split at hm
    · dsimp only at hm
      split at hm
      · obtain ⟨s, hs, rfl⟩ := List.mem_map.mp hm
        exact ⟨hs, rfl⟩
      · cases hm
    · dsimp only at hm
      split at hm <;> cases hm
    · dsimp only at hm
      split at hm <;> cases hm
    · dsimp only at hm
      split at hm <;> cases hm
    · cases hm
  have hstored : Grows heard self
      { self with
        instances := Function.update self.instances message.instanceID
          (some (record.setProtocol message.proposalID (protocol.doTransition self message).1.node)) }
      (protocol.doTransition self message).1.sent := by
    refine ⟨rfl, rfl, le_rfl, fun i q hq => ?_, fun i q hq => ?_, fun m hm => ⟨(hsent m hm).1, .inl (hsent m hm).2⟩⟩
    · rw [knows_update]
      split
      · rename_i hi
        subst hi
        exact (hset _ q).mpr (hkeeps q hq)
      · exact hq
    · rw [knows_update] at hq
      split at hq
      · rename_i hi
        subst hi
        rcases hfresh q ((hset _ q).mp hq) with hold | hheard
        · exact .inl hold
        · exact .inr (.inl hheard)
      · exact .inl hq
  rw [PaxosLeader.transition]
  split
  · exact hstored.trans (notifyLeader_grows _ _ _)
  · exact hstored

/-- The leader takes in an `MSG_ACCEPTOR_ACCEPT` for the proposal. -/
def PaxosLeader.Hears (self : PaxosLeader V) (message : Message V) (i : Int) (pid : ProposalID) : Prop :=
  self.stopped = false ∧ message.command = .acceptorAccept ∧ message.instanceID = i ∧ message.proposalID = pid

/-- The leader runs as the primary, gets a reply other than an `MSG_ACCEPTOR_ACCEPT` and has no protocol for it. -/
def PaxosLeader.Misses (self : PaxosLeader V) (message : Message V) : Prop :=
  self.stopped = false ∧ self.isPrimary = true ∧ message.IsProtocol ∧ message.command ≠ .acceptorAccept ∧
    ¬ self.Knows message.instanceID message.proposalID

theorem knows_of_record {self : PaxosLeader V} {i : Int} {record : InstanceRecord (PaxosLeaderProtocol V) V}
    (hrecord : self.instances i = some record) (q : ProposalID) :
    self.Knows i q ↔ (record.protocols q).isSome = true := by
  rw [PaxosLeader.Knows, PaxosLeader.protocolAt, hrecord, Option.bind_some]

theorem knows_getD (self : PaxosLeader V) (i : Int) (q : ProposalID) :
    (((self.instances i).getD {}).protocols q).isSome = true ↔ self.Knows i q := by
  rw [PaxosLeader.getD_protocols, PaxosLeader.Knows]

theorem listen_grows (self : PaxosLeader V) (message : Message V) (hstopped : self.stopped = false)
    (hcommand : message.command = .acceptorAccept) (protocol : PaxosLeaderProtocol V) :
    Grows (self.Hears message) self
      (self.transition (((self.instances message.instanceID).getD {}).addProtocol message.proposalID protocol)
        protocol message).node
      (self.transition (((self.instances message.instanceID).getD {}).addProtocol message.proposalID protocol)
        protocol message).sent := by
  refine transition_grows _ _ _ _ (fun q hq => ?_) (fun q hq => ?_) ?_
  · rw [InstanceRecord.addProtocol]
    by_cases hne : q = message.proposalID
    · simp [hne]
    · simpa [Function.update_of_ne hne, knows_getD] using hq
  · rw [InstanceRecord.addProtocol] at hq
    by_cases hne : q = message.proposalID
    · exact .inr ⟨hstopped, hcommand, rfl, hne.symm⟩
    · exact .inl (by simpa [Function.update_of_ne hne, knows_getD] using hq)
  · simp [InstanceRecord.addProtocol]

/-- A leader raises exactly when it misses a protocol, and otherwise only grows. -/
theorem leader_recvMessage (self : PaxosLeader V) (message : Message V) :
    (self.Misses message ∧ ∃ e, self.recvMessage message = .error e) ∨
      ¬ self.Misses message ∧ ∃ out, self.recvMessage message = .ok out ∧
        Grows (self.Hears message) self out.node out.sent := by
  have hstill : Grows (self.Hears message) self self [] := .of_instances rfl rfl le_rfl fun _ _ => Iff.rfl
  rw [PaxosLeader.recvMessage]
  cases hstopped : self.stopped with
  | true => exact .inr ⟨fun h => absurd h.1 (by simp [hstopped]), _, if_pos rfl, hstill⟩
  | false =>
    rw [if_neg (by simp)]
    have hnot (h : message.IsProtocol → message.command = .acceptorAccept) : ¬ self.Misses message :=
      fun hm => hm.2.2.2.1 (h hm.2.2.1)
    split
    next hcommand => exact .inr ⟨hnot fun h => absurd hcommand h.2, _, rfl, hstill⟩
    next hcommand =>
      refine .inr ⟨hnot fun h => absurd hcommand h.1, ?_⟩
      split
      · exact ⟨_, rfl, newProposal_grows self message.value none⟩
      · exact ⟨_, rfl, hstill⟩
    next hcommand =>
      refine .inr ⟨hnot fun _ => hcommand, ?_⟩
      dsimp only
      split
      next => exact ⟨_, rfl, listen_grows self message hstopped hcommand _⟩
      next protocol hprotocol =>
        refine ⟨_, rfl, transition_grows _ _ _ _ (fun q => (knows_getD self _ q).mpr)
          (fun q hq => .inl ((knows_getD self _ q).mp hq)) ?_⟩
        rw [hprotocol]
        rfl
    next hheartbeat hext haccept =>
      cases hprimary : self.isPrimary with
      | false => exact .inr ⟨fun h => absurd h.2.1 (by simp [hprimary]), _, rfl, hstill⟩
      | true =>
        rw [if_pos rfl]
        have hmisses (h : ¬ self.Knows message.instanceID message.proposalID) : self.Misses message :=
          ⟨hstopped, hprimary, ⟨hext, hheartbeat⟩, haccept, h⟩
        split
        next hnone =>
          refine .inl ⟨hmisses ?_, _, rfl⟩
          simp [PaxosLeader.Knows, PaxosLeader.protocolAt, hnone]
        next record hrecord =>
          rw [InstanceRecord.getProtocol]
          split
          next protocol hprotocol =>
            have hknown : (record.protocols message.proposalID).isSome = true := by rw [hprotocol]; rfl
            refine .inr ⟨fun h => h.2.2.2.2 ((knows_of_record hrecord _).mpr hknown), _, rfl, ?_⟩
            exact transition_grows _ _ _ _ (fun q => (knows_of_record hrecord q).mp)
              (fun q hq => .inl ((knows_of_record hrecord q).mpr hq)) hknown
          next hnone =>
            refine .inl ⟨hmisses ?_, _, rfl⟩
            rw [knows_of_record hrecord, hnone]
            simp

/-- Whatever a leader had before, after an `MSG_ACCEPTOR_ACCEPT` it has the protocol. -/
theorem knows_of_hears {self : PaxosLeader V} {message : Message V} {i : Int} {pid : ProposalID}
    (h : self.Hears message i pid) {out : Outcome (PaxosLeader V) V} (hout : self.recvMessage message = .ok out) :
    out.node.Knows i pid := by
  obtain ⟨hstopped, hcommand, rfl, rfl⟩ := h
  have hstored (record : InstanceRecord (PaxosLeaderProtocol V) V) (protocol : PaxosLeaderProtocol V) :
      (self.transition record protocol message).node.Knows message.instanceID message.proposalID := by
    have hself : PaxosLeader.Knows { self with
        instances := Function.update self.instances message.instanceID
          (some (record.setProtocol message.proposalID (protocol.doTransition self message).1.node)) }
        message.instanceID message.proposalID := by
      rw [knows_update, if_pos rfl, InstanceRecord.setProtocol]
      simp
    rw [PaxosLeader.transition]
    split
    · exact (@notifyLeader_grows V (fun _ _ => False) _ _ _).keeps _ _ hself
    · exact hself
  rw [PaxosLeader.recvMessage, hstopped, if_neg (by simp), hcommand] at hout
  dsimp only at hout
  split at hout
  all_goals
    cases hout
    exact hstored _ _

/-- Filling gaps opens proposals under new numbers and touches no other protocol. -/
theorem fillGaps_grows [Zero V] (self : PaxosLeader V) (is : List Int) :
    Grows heard self (self.fillGaps is).1 (self.fillGaps is).2 := by
  induction is generalizing self with
  | nil => exact .of_instances rfl rfl le_rfl fun _ _ => Iff.rfl
  | cons i is ih =>
    rw [PaxosLeader.fillGaps]
    split
    · exact (newProposal_grows self (some 0) (some i)).trans (ih _)
    · exact ih self

theorem newProposal_protocolAt (self : PaxosLeader V) (value : Option V) (i j : Int) (q : ProposalID) :
    (self.newProposal value (some i)).1.protocolAt j q = self.protocolAt j q ∨
      q = (self.port, self.proposalCount + 1) ∧
        ∃ p, (self.newProposal value (some i)).1.protocolAt j q = some p ∧ p.state = .proposed := by
  have hupdate := PaxosLeader.protocolAt_update { self with proposalCount := self.proposalCount + 1 } i j q
    (((self.instances i).getD {}).addProtocol (self.port, self.proposalCount + 1)
      (PaxosLeaderProtocol.propose {} { self with proposalCount := self.proposalCount + 1 } value
        (self.port, self.proposalCount + 1) i).1)
  change (self.newProposal value (some i)).1.protocolAt j q = _ at hupdate
  rw [hupdate]
  split
  · rename_i hj
    subst hj
    rw [InstanceRecord.addProtocol]
    by_cases hq : q = (self.port, self.proposalCount + 1)
    · refine .inr ⟨hq, ?_⟩
      simp [hq, PaxosLeaderProtocol.propose]
    · refine .inl ?_
      simp only [Function.update_of_ne hq]
      exact self.getD_protocols j q
  · exact .inl rfl

theorem fillGaps_protocolAt [Zero V] (self : PaxosLeader V) (is : List Int) (j : Int) (q : ProposalID) :
    (self.fillGaps is).1.protocolAt j q = self.protocolAt j q ∨
      (q.1 = self.port ∧ self.proposalCount < q.2) ∧
        ∃ p, (self.fillGaps is).1.protocolAt j q = some p ∧ p.state = .proposed := by
  induction is generalizing self with
  | nil => exact .inl rfl
  | cons i is ih =>
    rw [PaxosLeader.fillGaps]
    split
    · have hgrows := @newProposal_grows V (fun _ _ => False) self (some 0) (some i)
      have hcount : (self.newProposal (some 0) (some i)).1.proposalCount = self.proposalCount + 1 := rfl
      obtain heq | ⟨⟨hport, hlow⟩, hp⟩ := ih (self.newProposal (some 0) (some i)).1
      · obtain hsame | ⟨hq, p, hp⟩ := newProposal_protocolAt self (some 0) i j q
        · exact .inl (heq.trans hsame)
        · refine .inr ⟨?_, p, heq.trans hp.1, hp.2⟩
          rw [hq]
          exact ⟨rfl, by simp⟩
      · exact .inr ⟨⟨hport.trans hgrows.port, by omega⟩, hp⟩
    · exact ih self

/-- The leader runs as the primary and its last cleanup is old enough, so that a timeout collects. -/
def PaxosLeader.Collects (self : PaxosLeader V) (elapsed : Bool) : Prop :=
  self.stopped = false ∧ self.isPrimary = true ∧ elapsed = true

theorem garbageCollect_protocolAt (self : PaxosLeader V) (i : Int) (pid : ProposalID) :
    self.garbageCollect.protocolAt i pid = (self.protocolAt i pid).filter fun p => p.state ≠ .accepted := by
  simp only [PaxosLeader.protocolAt, PaxosLeader.garbageCollect]
  cases self.instances i <;> rfl

theorem recvNone_cases [Zero V] (self : PaxosLeader V) (elapsed : Bool) :
    (self.Collects elapsed ∧ self.recvNone elapsed =
      { node := self.findAndFillGaps.1.garbageCollect, sent := self.findAndFillGaps.2 }) ∨
      ¬ self.Collects elapsed ∧ self.recvNone elapsed = { node := self } := by
  rw [PaxosLeader.recvNone]
  by_cases hstopped : self.stopped = true
  · exact .inr ⟨fun h => absurd h.1 (by simp [hstopped]), if_pos hstopped⟩
  · rw [if_neg hstopped]
    by_cases hcollect : self.isPrimary ∧ elapsed
    · exact .inl ⟨⟨by simpa using hstopped, hcollect.1, hcollect.2⟩, if_pos hcollect⟩
    · exact .inr ⟨fun h => hcollect ⟨h.2.1, h.2.2⟩, if_neg hcollect⟩

theorem findAndFillGaps_protocolAt [Zero V] (self : PaxosLeader V) (i : Int) (pid : ProposalID) :
    self.findAndFillGaps.1.protocolAt i pid = self.protocolAt i pid ∨
      (pid.1 = self.port ∧ self.proposalCount < pid.2) ∧
        ∃ p, self.findAndFillGaps.1.protocolAt i pid = some p ∧ p.state = .proposed :=
  fillGaps_protocolAt self _ i pid

/-- A protocol that is collected after the gaps are filled was accepted before. -/
theorem knows_garbageCollect [Zero V] {self : PaxosLeader V} {i : Int} {pid : ProposalID}
    (h : self.findAndFillGaps.1.Knows i pid) : self.findAndFillGaps.1.garbageCollect.Knows i pid ∨
      ∃ p, self.protocolAt i pid = some p ∧ p.state = .accepted := by
  rw [PaxosLeader.Knows, garbageCollect_protocolAt]
  obtain ⟨p, hp⟩ := Option.isSome_iff_exists.mp h
  by_cases hstate : p.state = .accepted
  · refine .inr ⟨p, ?_, hstate⟩
    obtain hsame | ⟨_, p', hp', hproposed⟩ := findAndFillGaps_protocolAt self i pid
    · rw [← hsame, hp]
    · rw [hp] at hp'
      cases hp'
      rw [hstate] at hproposed
      cases hproposed
  · exact .inl (by simp [hp, hstate])

theorem knows_of_garbageCollect {self : PaxosLeader V} {i : Int} {pid : ProposalID}
    (h : self.garbageCollect.Knows i pid) : self.Knows i pid := by
  rw [PaxosLeader.Knows, garbageCollect_protocolAt] at h
  rw [PaxosLeader.Knows]
  exact Option.isSome_of_isSome_filter _ _ h

/-- An accepted protocol is collected. -/
theorem not_knows_garbageCollect [Zero V] {self : PaxosLeader V} {i : Int} {pid : ProposalID}
    {p : PaxosLeaderProtocol V} (hp : self.protocolAt i pid = some p) (hstate : p.state = .accepted)
    (hnumber : pid.1 = self.port → pid.2 ≤ self.proposalCount) :
    ¬ self.findAndFillGaps.1.garbageCollect.Knows i pid := by
  rw [PaxosLeader.Knows, garbageCollect_protocolAt]
  obtain hsame | ⟨⟨hport, hlow⟩, _⟩ := findAndFillGaps_protocolAt self i pid
  · simp [hsame, hp, hstate]
  · have := hnumber hport
    omega

end Leader

/-! ### What a step does to the protocols and the messages -/

section Step

variable [DecidableEq V] [Zero V]

/-- The action is a timeout at which the leader collects. -/
def World.CollectsAt (cfg : Config) (w : World V) (l : Port) : Action V → Prop
  | .timeout l' elapsed => l' = l ∧ l ∈ cfg.leaders ∧ (w.leaders l).pumpAlive = true ∧ (w.leaders l).Collects elapsed
  | _ => False

/-- The action delivers an `MSG_ACCEPTOR_ACCEPT` of the proposal to the leader. -/
def World.HearsAt (cfg : Config) (w : World V) (l : Port) (i : Int) (pid : ProposalID) : Action V → Prop
  | .deliver m =>
    m ∈ w.net ∧ m.dest = l ∧ l ∈ cfg.leaders ∧ (w.leaders l).pumpAlive = true ∧ (w.leaders l).Hears m i pid
  | _ => False

/-- The leader loses the protocol: it was accepted and is collected. -/
def World.Drops (cfg : Config) (w : World V) (l : Port) (i : Int) (pid : ProposalID) (action : Action V) : Prop :=
  w.CollectsAt cfg l action ∧ ∃ p, (w.leaders l).protocolAt i pid = some p ∧ p.state = .accepted

/-- A message that a step puts in flight. -/
inductive Emitted (cfg : Config) (w w' : World V) (action : Action V) (m : Message V) : Prop
  | outside (h : ¬ m.IsProtocol)
  | ask (hdest : m.dest ∈ cfg.acceptors) (h : m.command = .accept)
  | propose (hdest : m.dest ∈ cfg.acceptors) (h : m.command = .propose) (hsource : m.source = m.proposalID.1)
      (hleader : m.proposalID.1 ∈ cfg.leaders)
      (hknows : (w'.leaders m.proposalID.1).Knows m.instanceID m.proposalID ∨
        w.Drops cfg m.proposalID.1 m.instanceID m.proposalID action)
  | reply (m₀ : Message V) (hnet : m₀ ∈ w.net) (h₀ : m₀.command = .propose) (h : m.command = .acceptorAgree)
      (hdest : m.dest = m₀.source) (hinstance : m.instanceID = m₀.instanceID)
      (hproposal : m.proposalID = m₀.proposalID)
  | notice (hdest : m.dest ∈ cfg.leaders) (h : m.command = .acceptorAccept)

structure StepKnows (cfg : Config) (w : World V) (action : Action V) (w' : World V) : Prop where
  count : ∀ l, (w.leaders l).proposalCount ≤ (w'.leaders l).proposalCount
  keeps : ∀ l i pid, (w.leaders l).Knows i pid → (w'.leaders l).Knows i pid ∨ w.Drops cfg l i pid action
  fresh : ∀ l i pid, (w'.leaders l).Knows i pid → (w.leaders l).Knows i pid ∨ w.HearsAt cfg l i pid action ∨
    (pid.1 = l ∧ (w.leaders l).proposalCount < pid.2 ∧ pid.2 ≤ (w'.leaders l).proposalCount)
  hears : ∀ l i pid, w.HearsAt cfg l i pid action → (w'.leaders l).Knows i pid
  drops : ∀ l i pid, w.Drops cfg l i pid action → (pid.1 = l → pid.2 ≤ (w.leaders l).proposalCount) →
    ¬ (w'.leaders l).Knows i pid
  emits : ∀ m ∈ w'.net, m ∈ w.net ∨ Emitted cfg w w' action m

variable {cfg : Config} {w : World V}

omit [DecidableEq V] [Zero V] in
/-- A step that changes no leader's protocols or counter, and only adds messages no node has to know about. -/
theorem stepKnows_of_same {w' : World V} {action : Action V}
    (hleaders : ∀ l, (w'.leaders l).proposalCount = (w.leaders l).proposalCount ∧
      ∀ i pid, (w'.leaders l).Knows i pid ↔ (w.leaders l).Knows i pid)
    (hcollects : ∀ l, ¬ w.CollectsAt cfg l action) (hhears : ∀ l i pid, ¬ w.HearsAt cfg l i pid action)
    (hemits : ∀ m ∈ w'.net, m ∈ w.net ∨ Emitted cfg w w' action m) : StepKnows cfg w action w' where
  count l := (hleaders l).1.ge
  keeps l i pid h := .inl (((hleaders l).2 i pid).mpr h)
  fresh l i pid h := .inl (((hleaders l).2 i pid).mp h)
  hears l i pid h := absurd h (hhears l i pid)
  drops l _ _ h := absurd h.1 (hcollects l)
  emits := hemits

omit [DecidableEq V] [Zero V] in
/-- A step in which one leader grows. -/
theorem stepKnows_of_grows (hd : Delivery cfg w) {base : World V} {l : Port} {out : Outcome (PaxosLeader V) V}
    {action : Action V} (hbase : base.leaders = w.leaders) (hnet : ∀ m ∈ base.net, m ∈ w.net)
    {heard : Int → ProposalID → Prop} (hgrows : Grows heard (w.leaders l) out.node out.sent)
    (hleader : l ∈ cfg.leaders) (hcollects : ∀ l, ¬ w.CollectsAt cfg l action)
    (hheard : ∀ i pid, heard i pid → w.HearsAt cfg l i pid action)
    (hhears : ∀ l' i pid, w.HearsAt cfg l' i pid action → l' = l ∧ out.node.Knows i pid) :
    StepKnows cfg w action (base.leaderDone l out) := by
  have hself : (base.leaderDone l out).leaders l = out.node := by simp
  have hother : ∀ l', l' ≠ l → (base.leaderDone l out).leaders l' = w.leaders l' := by
    intro l' hne
    rw [leaderDone_leaders, Function.update_of_ne hne, hbase]
  have hport := (hd.leader l).1
  refine ⟨fun l' => ?_, fun l' i pid h => .inl ?_, fun l' i pid h => ?_, fun l' i pid h => ?_,
    fun l' i pid h => absurd h.1 (hcollects l'), fun m hm => ?_⟩
  · by_cases hl : l' = l
    · subst hl
      rw [hself]
      exact hgrows.count
    · rw [hother l' hl]
  · by_cases hl : l' = l
    · subst hl
      rw [hself]
      exact hgrows.keeps i pid h
    · rwa [hother l' hl]
  · by_cases hl : l' = l
    · subst hl
      rw [hself] at h ⊢
      obtain hold | hin | hnew := hgrows.fresh i pid h
      · exact .inl hold
      · exact .inr (.inl (hheard i pid hin))
      · rw [hport] at hnew
        exact .inr (.inr hnew)
    · rw [hother l' hl] at h
      exact .inl h
  · obtain ⟨rfl, hknows⟩ := hhears l' i pid h
    rwa [hself]
  · rw [leaderDone_net] at hm
    rcases List.mem_append.mp hm with hm | hm
    · exact .inl (hnet m hm)
    · obtain ⟨hdest, haccept | ⟨hpropose, hsource, hown, hknows⟩⟩ := hgrows.sends m hm
      · exact .inr (.ask ((hd.leader l).2 ▸ hdest) haccept)
      · rw [hport] at hown
        refine .inr (.propose ((hd.leader l).2 ▸ hdest) hpropose hsource (hown ▸ hleader) (.inl ?_))
        rwa [hown, hself]

omit [Zero V] in
theorem stepKnows_toLeader (hd : Delivery cfg w) {m : Message V} (hm : m ∈ w.net) (hleader : m.dest ∈ cfg.leaders)
    (halive : (w.leaders m.dest).pumpAlive = true) : StepKnows cfg w (.deliver m) (w.toLeader m) := by
  have hnet : ∀ m' ∈ (w.consume m).net, m' ∈ w.net := fun m' hm' => List.mem_of_mem_erase hm'
  rw [World.toLeader]
  obtain ⟨hmiss, e, herror⟩ | ⟨_, out, hok, hgrows⟩ := leader_recvMessage (w.leaders m.dest) m
  · rw [herror]
    have hdead : Grows (fun _ _ => False) (w.leaders m.dest) { w.leaders m.dest with pumpAlive := false } [] :=
      .of_instances rfl rfl le_rfl fun _ _ => Iff.rfl
    refine stepKnows_of_grows hd rfl hnet hdead hleader (fun _ h => h) (fun _ _ h => h.elim) fun l' i pid h => ?_
    · obtain ⟨_, rfl, _, _, hhears⟩ := h
      exact absurd hhears.2.1 hmiss.2.2.2.1
  · rw [hok]
    refine stepKnows_of_grows hd rfl hnet hgrows hleader (fun _ h => h) (fun i pid h => ?_) fun l' i pid h => ?_
    · exact ⟨hm, rfl, hleader, halive, h⟩
    · obtain ⟨_, rfl, _, _, hhears⟩ := h
      exact ⟨rfl, knows_of_hears hhears hok⟩

omit [DecidableEq V] [Zero V] in
/-- What an acceptor sends in answer to a message. -/
theorem acceptor_sends {self : PaxosAcceptor V} {m : Message V} {out : Outcome (PaxosAcceptor V) V}
    (hout : self.recvMessage m = .ok out) {m' : Message V} (hm' : m' ∈ out.sent) :
    m'.command = .acceptorAgree ∧ m.command = .propose ∧ m'.dest = m.source ∧ m'.instanceID = m.instanceID ∧
        m'.proposalID = m.proposalID ∨
      m'.command = .acceptorAccept ∧ m'.dest ∈ self.leaders := by
  rw [PaxosAcceptor.recvMessage] at hout
  split at hout
  · cases hout
    cases hm'
  · split at hout
    · rename_i hcommand
      cases hout
      simp only [PaxosAcceptorProtocol.recvProposal] at hm'
      split at hm'
      · obtain rfl := List.mem_singleton.mp hm'
        exact .inl ⟨rfl, hcommand, rfl, rfl, rfl⟩
      · cases hm'
    · split at hout
      · cases hout
      · rename_i record hrecord
        cases hget : record.getProtocol m.proposalID with
        | error e =>
          rw [hget] at hout
          cases hout
        | ok p =>
          rw [hget] at hout
          cases hdo : p.doTransition self m with
          | error e =>
            simp only [bind, Except.bind, hdo] at hout
            cases hout
          | ok out' =>
            simp only [bind, Except.bind, hdo, pure, Except.pure] at hout
            cases hout
            rw [PaxosAcceptorProtocol.doTransition] at hdo
            split at hdo
            · cases hdo
              obtain ⟨l, hl, rfl⟩ := List.mem_map.mp hm'
              exact .inr ⟨rfl, hl⟩
            · cases hdo

omit [Zero V] in
theorem stepKnows_toAcceptor (hd : Delivery cfg w) {m : Message V} (hm : m ∈ w.net) (hleader : m.dest ∉ cfg.leaders) :
    StepKnows cfg w (.deliver m) (w.toAcceptor m) := by
  have hquiet : ∀ out : Outcome (PaxosAcceptor V) V,
      (∀ m' ∈ out.sent, Emitted cfg w ((w.consume m).acceptorDone m.dest out) (.deliver m) m') →
      StepKnows cfg w (.deliver m) ((w.consume m).acceptorDone m.dest out) := by
    intro out hsent
    refine stepKnows_of_same (fun l => ⟨rfl, fun _ _ => Iff.rfl⟩) (fun _ h => h) (fun l i pid h => ?_) fun m' hm' => ?_
    · obtain ⟨_, rfl, hl, _⟩ := h
      exact hleader hl
    · rw [acceptorDone_net] at hm'
      rcases List.mem_append.mp hm' with hm' | hm'
      · exact .inl (List.mem_of_mem_erase hm')
      · exact .inr (hsent m' hm')
  rw [World.toAcceptor]
  split
  · rename_i out hout
    refine hquiet out fun m' hm' => ?_
    obtain ⟨hcommand, hpropose, hdest, hinstance, hproposal⟩ | ⟨hcommand, hdest⟩ := acceptor_sends hout hm'
    · exact .reply m hm hpropose hcommand hdest hinstance hproposal
    · exact .notice ((hd.acceptor m.dest).2 ▸ hdest) hcommand
  · exact hquiet _ fun m' hm' => nomatch hm'

omit [DecidableEq V] in
theorem stepKnows_timeout (hd : Delivery cfg w) {l : Port} (elapsed : Bool) (hleader : l ∈ cfg.leaders)
    (halive : (w.leaders l).pumpAlive = true) :
    StepKnows cfg w (.timeout l elapsed) (w.leaderDone l ((w.leaders l).recvNone elapsed)) := by
  have hnohear : ∀ l' i pid, ¬ w.HearsAt cfg l' i pid (.timeout l elapsed) := fun _ _ _ h => h
  obtain ⟨hcollect, heq⟩ | ⟨hnot, heq⟩ := recvNone_cases (w.leaders l) elapsed
  · have hself : (w.leaderDone l ((w.leaders l).recvNone elapsed)).leaders l
        = (w.leaders l).findAndFillGaps.1.garbageCollect := by simp [heq]
    have hother : ∀ l', l' ≠ l → (w.leaderDone l ((w.leaders l).recvNone elapsed)).leaders l' = w.leaders l' := by
      intro l' hne
      rw [leaderDone_leaders, Function.update_of_ne hne]
    have hgrows : Grows (fun _ _ => False) (w.leaders l) (w.leaders l).findAndFillGaps.1
        (w.leaders l).findAndFillGaps.2 := fillGaps_grows _ _
    have hat : w.CollectsAt cfg l (.timeout l elapsed) := ⟨rfl, hleader, halive, hcollect⟩
    have hkept : ∀ i pid, (w.leaders l).findAndFillGaps.1.Knows i pid →
        ((w.leaderDone l ((w.leaders l).recvNone elapsed)).leaders l).Knows i pid ∨
          w.Drops cfg l i pid (.timeout l elapsed) := by
      intro i pid h
      rw [hself]
      rcases knows_garbageCollect h with hkeep | hdrop
      · exact .inl hkeep
      · exact .inr ⟨hat, hdrop⟩
    refine ⟨fun l' => ?_, fun l' i pid h => ?_, fun l' i pid h => ?_, fun l' i pid h => absurd h (hnohear l' i pid),
      fun l' i pid h hnumber => ?_, fun m hm => ?_⟩
    · by_cases hl : l' = l
      · subst hl
        rw [hself]
        exact hgrows.count
      · rw [hother l' hl]
    · by_cases hl : l' = l
      · subst hl
        exact hkept i pid (hgrows.keeps i pid h)
      · rw [hother l' hl]
        exact .inl h
    · by_cases hl : l' = l
      · subst hl
        rw [hself] at h ⊢
        obtain hold | hfalse | hnew := hgrows.fresh i pid (knows_of_garbageCollect h)
        · exact .inl hold
        · exact hfalse.elim
        · rw [(hd.leader l').1] at hnew
          exact .inr (.inr hnew)
      · rw [hother l' hl] at h
        exact .inl h
    · obtain ⟨⟨rfl, _⟩, p, hp, hstate⟩ := h
      rw [hself]
      refine not_knows_garbageCollect hp hstate fun hport => hnumber ?_
      rw [hport, (hd.leader l).1]
    · rw [leaderDone_net, heq] at hm
      rcases List.mem_append.mp hm with hm | hm
      · exact .inl hm
      · obtain ⟨hdest, haccept | ⟨hpropose, hsource, hown, hknows⟩⟩ := hgrows.sends m hm
        · exact .inr (.ask ((hd.leader l).2 ▸ hdest) haccept)
        · rw [(hd.leader l).1] at hown
          refine .inr (.propose ((hd.leader l).2 ▸ hdest) hpropose hsource (hown ▸ hleader) ?_)
          rw [hown]
          exact hkept _ _ hknows
  · rw [heq]
    refine stepKnows_of_same (fun l' => ?_) (fun l' h => ?_) hnohear fun m hm => ?_
    · by_cases hl : l' = l
      · subst hl
        simp
      · simp [hl]
    · obtain ⟨rfl, _, _, hcollect⟩ := h
      exact hnot hcollect
    · rw [leaderDone_net] at hm
      exact .inl (by simpa using hm)

theorem stepKnows_step (hd : Delivery cfg w) (action : Action V) : StepKnows cfg w action (w.step cfg action) := by
  have hflag : ∀ (action : Action V) (l : Port) (ld : PaxosLeader V), ld.proposalCount = (w.leaders l).proposalCount →
      ld.instances = (w.leaders l).instances → (∀ l, ¬ w.CollectsAt cfg l action) →
      (∀ l i pid, ¬ w.HearsAt cfg l i pid action) → StepKnows cfg w action (w.leaderDone l { node := ld }) := by
    intro action l ld hcount hinstances hcollects hhears
    refine stepKnows_of_same (fun l' => ?_) hcollects hhears fun m hm => .inl (by simpa using hm)
    by_cases hl : l' = l
    · subst hl
      simp [hcount, PaxosLeader.Knows, PaxosLeader.protocolAt, hinstances]
    · simp [hl]
  cases action with
  | deliver m =>
    rw [World.step]
    split
    · rename_i hm
      exact stepKnows_of_same (fun l => ⟨rfl, fun _ _ => Iff.rfl⟩) (fun _ h => h) (fun l i pid h => hm h.1)
        fun m hm => .inl hm
    · rename_i hm
      rw [not_not] at hm
      split
      · rename_i hleader
        split
        · rename_i halive
          exact stepKnows_toLeader hd hm hleader halive
        · rename_i hdead
          refine stepKnows_of_same (fun l => ⟨rfl, fun _ _ => Iff.rfl⟩) (fun _ h => h) (fun l i pid h => ?_)
            fun m hm => .inl hm
          obtain ⟨_, rfl, _, halive, _⟩ := h
          exact hdead halive
      · rename_i hleader
        have hnohear : ∀ l i pid, ¬ w.HearsAt cfg l i pid (.deliver m) := by
          rintro l i pid ⟨_, rfl, hl, _⟩
          exact hleader hl
        split
        · split
          · exact stepKnows_toAcceptor hd hm hleader
          · exact stepKnows_of_same (fun l => ⟨rfl, fun _ _ => Iff.rfl⟩) (fun _ h => h) hnohear fun m hm => .inl hm
        · exact stepKnows_of_same (fun l => ⟨rfl, fun _ _ => Iff.rfl⟩) (fun _ h => h) hnohear
            fun m' hm' => .inl (List.mem_of_mem_erase hm')
  | lose m =>
    exact stepKnows_of_same (fun l => ⟨rfl, fun _ _ => Iff.rfl⟩) (fun _ h => h) (fun _ _ _ h => h)
      fun m' hm' => .inl (List.mem_of_mem_erase hm')
  | extPropose l client value =>
    refine stepKnows_of_same (fun l => ⟨rfl, fun _ _ => Iff.rfl⟩) (fun _ h => h) (fun _ _ _ h => h) fun m hm => ?_
    rcases List.mem_append.mp hm with hm | hm
    · exact .inl hm
    · obtain rfl := List.mem_singleton.mp hm
      exact .inr (.outside (by simp [Message.IsProtocol]))
  | heartbeat l other =>
    rw [World.step]
    refine stepKnows_of_same (fun l' => ?_) (fun _ h => h) (fun _ _ _ h => h) fun m hm => ?_
    · split <;> exact ⟨rfl, fun _ _ => Iff.rfl⟩
    · split at hm
      · rcases List.mem_append.mp hm with hm | hm
        · exact .inl hm
        · obtain rfl := List.mem_singleton.mp hm
          exact .inr (.outside (by simp [Message.IsProtocol]))
      · exact .inl hm
  | timeout l elapsed =>
    rw [World.step]
    split
    · rename_i h
      exact stepKnows_timeout hd elapsed h.1 h.2
    · rename_i h
      refine stepKnows_of_same (fun l => ⟨rfl, fun _ _ => Iff.rfl⟩) (fun l' hc => ?_) (fun _ _ _ h => h) fun m hm => .inl hm
      obtain ⟨rfl, hleader, halive, _⟩ := hc
      exact h ⟨hleader, halive⟩
  | setPrimary l primary => exact hflag _ l _ rfl rfl (fun _ h => h) fun _ _ _ h => h
  | start l => exact hflag _ l _ rfl rfl (fun _ h => h) fun _ _ _ h => h
  | stop l => exact hflag _ l _ rfl rfl (fun _ h => h) fun _ _ _ h => h
  | fail a =>
    exact stepKnows_of_same (fun l => ⟨rfl, fun _ _ => Iff.rfl⟩) (fun _ h => h) (fun _ _ _ h => h)
      fun m hm => .inl (by simpa [World.step, World.acceptorDone] using hm)
  | recover a =>
    exact stepKnows_of_same (fun l => ⟨rfl, fun _ _ => Iff.rfl⟩) (fun _ h => h) (fun _ _ _ h => h)
      fun m hm => .inl (by simpa [World.step, World.acceptorDone] using hm)

end Step

/-! ### Proposals a leader has forgotten -/

section Runs

variable [DecidableEq V] [Zero V]

/-- At the end of the run the leader's protocol for the proposal has been collected, and no `MSG_ACCEPTOR_ACCEPT` has brought it back. -/
inductive Forgotten (cfg : Config) (l : Port) (i : Int) (pid : ProposalID) : List (Action V) → Prop
  | collect (actions : List (Action V)) (action : Action V) (h : (World.after cfg actions).Drops cfg l i pid action) :
      Forgotten cfg l i pid (actions ++ [action])
  | wait (actions : List (Action V)) (action : Action V) (h : Forgotten cfg l i pid actions)
      (hears : ¬ (World.after cfg actions).HearsAt cfg l i pid action) : Forgotten cfg l i pid (actions ++ [action])

theorem forgotten_snoc {cfg : Config} {l : Port} {i : Int} {pid : ProposalID} {actions : List (Action V)}
    {action : Action V} (h : Forgotten cfg l i pid (actions ++ [action])) :
    (World.after cfg actions).Drops cfg l i pid action ∨
      Forgotten cfg l i pid actions ∧ ¬ (World.after cfg actions).HearsAt cfg l i pid action := by
  generalize hrun : actions ++ [action] = run at h
  cases h with
  | collect actions' action' h =>
    obtain ⟨rfl, hsame⟩ := List.append_inj' hrun rfl
    cases hsame
    exact .inl h
  | wait actions' action' h hears =>
    obtain ⟨rfl, hsame⟩ := List.append_inj' hrun rfl
    cases hsame
    exact .inr ⟨h, hears⟩

theorem not_forgotten_nil {cfg : Config} {l : Port} {i : Int} {pid : ProposalID} :
    ¬ Forgotten cfg l i pid ([] : List (Action V)) := by
  intro h
  generalize hrun : ([] : List (Action V)) = run at h
  cases h <;> simp at hrun

theorem after_snoc (cfg : Config) (actions : List (Action V)) (action : Action V) :
    World.after cfg (actions ++ [action]) = (World.after cfg actions).step cfg action := by
  rw [World.after, Transition.run_append]
  rfl

/-- Where a message of the protocol can be headed. -/
inductive Routed (cfg : Config) (m : Message V) : Prop
  | ask (hdest : m.dest ∈ cfg.acceptors) (h : m.command = .accept)
  | propose (hdest : m.dest ∈ cfg.acceptors) (h : m.command = .propose) (hsource : m.source = m.proposalID.1)
      (hleader : m.proposalID.1 ∈ cfg.leaders)
  | reply (h : m.command = .acceptorAgree) (hdest : m.dest = m.proposalID.1) (hleader : m.dest ∈ cfg.leaders)
  | notice (hdest : m.dest ∈ cfg.leaders) (h : m.command = .acceptorAccept)

/-- What the leaders remember at the end of a run. -/
structure Recalls (cfg : Config) (actions : List (Action V)) (w : World V) : Prop where
  routes : ∀ m ∈ w.net, m.IsProtocol → Routed cfg m
  number : ∀ l i pid, (w.leaders l).Knows i pid → pid.2 ≤ (w.leaders pid.1).proposalCount
  /-- The leader of a proposal that is open, or that has just been answered, has its protocol or has forgotten it. -/
  opened : ∀ m ∈ w.net, m.command = .propose ∨ m.command = .acceptorAgree →
    (w.leaders m.proposalID.1).Knows m.instanceID m.proposalID ∨
      Forgotten cfg m.proposalID.1 m.instanceID m.proposalID actions
  forgotten : ∀ l i pid, Forgotten cfg l i pid actions →
    ¬ (w.leaders l).Knows i pid ∧ pid.2 ≤ (w.leaders pid.1).proposalCount

theorem Recalls.step {cfg : Config} {actions : List (Action V)} {action : Action V} {w' : World V}
    (h : Recalls cfg actions (World.after cfg actions)) (hd : Delivery cfg (World.after cfg actions))
    (hstep : StepKnows cfg (World.after cfg actions) action w') : Recalls cfg (actions ++ [action]) w' := by
  -- a proposal that was known or forgotten stays so, whatever the step does
  have hstill : ∀ l i pid, ((World.after cfg actions).leaders l).Knows i pid ∨ Forgotten cfg l i pid actions →
      (w'.leaders l).Knows i pid ∨ Forgotten cfg l i pid (actions ++ [action]) := by
    rintro l i pid (hknows | hforgotten)
    · rcases hstep.keeps l i pid hknows with hkeep | hdrop
      · exact .inl hkeep
      · exact .inr (.collect actions action hdrop)
    · by_cases hhears : (World.after cfg actions).HearsAt cfg l i pid action
      · exact .inl (hstep.hears l i pid hhears)
      · exact .inr (.wait actions action hforgotten hhears)
  have hdropNumber : ∀ l i pid, (World.after cfg actions).Drops cfg l i pid action →
      pid.2 ≤ ((World.after cfg actions).leaders pid.1).proposalCount := by
    rintro l i pid ⟨_, p, hp, _⟩
    exact h.number l i pid (by rw [PaxosLeader.Knows, hp]; rfl)
  refine ⟨fun m hm hprotocol => ?_, fun l i pid hknows => ?_, fun m hm hcommand => ?_, fun l i pid hforgotten => ?_⟩
  · rcases hstep.emits m hm with hold | hnew
    · exact h.routes m hold hprotocol
    · cases hnew with
      | outside hnot => exact absurd hprotocol hnot
      | ask hdest hcommand => exact .ask hdest hcommand
      | propose hdest hcommand hsource hleader hknows => exact .propose hdest hcommand hsource hleader
      | reply m₀ hnet h₀ hcommand hdest hinstance hproposal =>
        have hroute := h.routes m₀ hnet (by simp [Message.IsProtocol, h₀])
        cases hroute with
        | propose hdest₀ _ hsource hleader =>
          have hto : m.dest = m.proposalID.1 := by rw [hdest, hsource, hproposal]
          refine .reply hcommand hto ?_
          rw [hto, hproposal]
          exact hleader
        | ask _ h => simp [h₀] at h
        | reply h => simp [h₀] at h
        | notice _ h => simp [h₀] at h
      | notice hdest hcommand => exact .notice hdest hcommand
  · rcases hstep.fresh l i pid hknows with hold | hheard | ⟨rfl, _, hhigh⟩
    · exact (h.number l i pid hold).trans (hstep.count pid.1)
    · -- the number of a protocol that is listened in on comes with a message that was sent
      refine le_trans ?_ (hstep.count pid.1)
      cases action with
      | deliver m =>
        obtain ⟨hnet, _, _, _, _, hcommand, _, rfl⟩ := hheard
        exact hd.sentNumber m (hd.sent_of_net hnet (by simp [Message.IsProtocol, hcommand]))
      | _ => exact absurd hheard id
    · exact hhigh
  · rcases hstep.emits m hm with hold | hnew
    · exact hstill _ _ _ (h.opened m hold hcommand)
    · cases hnew with
      | outside hnot =>
        refine absurd ?_ hnot
        rcases hcommand with hc | hc <;> simp [Message.IsProtocol, hc]
      | ask hdest hc => simp [hc] at hcommand
      | propose hdest hc hsource hleader hknows =>
        rcases hknows with hknows | hdrop
        · exact .inl hknows
        · exact .inr (.collect actions action hdrop)
      | reply m₀ hnet h₀ hc hdest hinstance hproposal =>
        rw [hinstance, hproposal]
        exact hstill _ _ _ (h.opened m₀ hnet (.inl h₀))
      | notice hdest hc => simp [hc] at hcommand
  · rcases forgotten_snoc hforgotten with hdrop | ⟨hbefore, hhears⟩
    · have hnumber := hdropNumber l i pid hdrop
      exact ⟨hstep.drops l i pid hdrop fun hl => hl ▸ hnumber, hnumber.trans (hstep.count pid.1)⟩
    · obtain ⟨hunknown, hnumber⟩ := h.forgotten l i pid hbefore
      refine ⟨fun hknows => ?_, hnumber.trans (hstep.count pid.1)⟩
      rcases hstep.fresh l i pid hknows with hold | hheard | ⟨rfl, hlow, _⟩
      · exact hunknown hold
      · exact hhears hheard
      · omega

theorem recalls_after (cfg : Config) (actions : List (Action V)) : Recalls cfg actions (World.after cfg actions) := by
  induction actions using List.reverseRecOn with
  | nil =>
    refine ⟨fun m hm => (nomatch hm), fun l i pid h => (nomatch h), fun m hm => (nomatch hm), fun l i pid h => ?_⟩
    exact absurd h not_forgotten_nil
  | append_singleton actions action ih =>
    rw [after_snoc]
    exact ih.step (delivery_after cfg actions) (stepKnows_step (delivery_after cfg actions) action)

/-! ### Proposals an acceptor has answered -/

/-- The agreements of an acceptor are those it has logged, and it is asked once to accept a proposal. -/
structure Answered (w : World V) : Prop where
  agreed : ∀ a i pid, .agreed a i pid ∈ w.log ↔ (w.acceptors a).HasAgreed i pid
  accepted : ∀ a i pid, (w.acceptors a).HasAccepted i pid → ∃ v, .accepted a i pid v ∈ w.log
  source : ∀ m ∈ w.net, m.command = .accept → m.source = m.proposalID.1
  once : ∀ a i pid, (w.acceptors a).HasAccepted i pid →
    ∀ m ∈ w.net, m.command = .accept → m.dest = a → m.instanceID = i → m.proposalID ≠ pid

omit [DecidableEq V] [Zero V] in
/-- A change that leaves the acceptors and their events alone and asks nobody to accept. -/
theorem Answered.frame {w w' : World V} (h : Answered w) (hacceptors : w'.acceptors = w.acceptors)
    (hnet : ∀ m ∈ w'.net, m.command = .accept → m ∈ w.net)
    (hagreed : ∀ a i pid, .agreed a i pid ∈ w'.log ↔ .agreed a i pid ∈ w.log)
    (hlog : ∀ e ∈ w.log, e ∈ w'.log) : Answered w' := by
  refine ⟨fun a i pid => ?_, fun a i pid haccepted => ?_, fun m hm hc => h.source m (hnet m hm hc) hc,
    fun a i pid haccepted m hm hc => ?_⟩
  · rw [hagreed, h.agreed, hacceptors]
  · rw [hacceptors] at haccepted
    obtain ⟨v, hv⟩ := h.accepted a i pid haccepted
    exact ⟨v, hlog _ hv⟩
  · rw [hacceptors] at haccepted
    exact h.once a i pid haccepted m (hnet m hm hc) hc

omit [Zero V] in
theorem not_mem_erase_of_key {cfg : Config} {w : World V} (hd : Delivery cfg w) {m m' : Message V} (hm : m ∈ w.net)
    (hm' : m' ∈ w.net.erase m) (hprotocol : m.IsProtocol) (hkey : m'.key = m.key) : False := by
  have hprotocol' : m'.IsProtocol := by
    have hcommand : m'.command = m.command := congrArg Prod.fst hkey
    rw [Message.IsProtocol, hcommand]
    exact hprotocol
  have hsame := hd.eq_of_key (hd.sent_of_net (List.mem_of_mem_erase hm') hprotocol') (hd.sent_of_net hm hprotocol) hkey
  subst hsame
  have hnodup : (inFlight w.net).Nodup := by
    obtain ⟨flight, hperm, hsub⟩ := hd.flight
    have hall := hperm.nodup_iff.mp (hsub.nodup (List.Nodup.of_map _ hd.keys))
    exact (List.nodup_append.mp hall).1
  rw [(inFlight_perm_erase hm hprotocol).nodup_iff, List.nodup_cons] at hnodup
  exact hnodup.1 (mem_inFlight.mpr ⟨hm', hprotocol⟩)

omit [DecidableEq V] [Zero V] in
theorem protocolAt_sets {w : World V} {a : Port} {ac : PaxosAcceptor V} {i : Int} {pid : ProposalID}
    {p : PaxosAcceptorProtocol} (hsets : AcceptorSets (w.acceptors a) ac i pid p) (b : Port) (j : Int) (q : ProposalID) :
    (Function.update w.acceptors a ac b).protocolAt j q =
      if b = a ∧ j = i ∧ q = pid then some p else (w.acceptors b).protocolAt j q := by
  by_cases hb : b = a
  · subst hb
    simp [hsets.protocol]
  · simp [hb]

namespace Answered

variable {cfg : Config} {w w' : World V} {m : Message V} {ac : PaxosAcceptor V} {p : PaxosAcceptorProtocol}

omit [DecidableEq V] [Zero V] in
theorem acceptorQuiet (h : Answered w) {a : Port} (hinstances : ac.instances = (w.acceptors a).instances) :
    Answered (w.acceptorDone a { node := ac }) := by
  have hat : ∀ b i pid, (Function.update w.acceptors a ac b).protocolAt i pid = (w.acceptors b).protocolAt i pid := by
    intro b i pid
    by_cases hb : b = a
    · subst hb
      simp [PaxosAcceptor.protocolAt, hinstances]
    · simp [hb]
  refine ⟨fun b i pid => ?_, fun b i pid haccepted => ?_, fun m hm => h.source m (by simpa using hm),
    fun b i pid haccepted m hm => ?_⟩
  · simp only [acceptorDone_log, List.nil_append, acceptorDone_acceptors, PaxosAcceptor.HasAgreed, hat]
    exact h.agreed b i pid
  · simp only [acceptorDone_acceptors, PaxosAcceptor.HasAccepted, hat] at haccepted
    exact h.accepted b i pid haccepted
  · simp only [acceptorDone_acceptors, PaxosAcceptor.HasAccepted, hat] at haccepted
    exact h.once b i pid haccepted m (by simpa using hm)

omit [Zero V] in
/-- The requests of a proposal go out when nobody can have accepted it yet. -/
theorem choose (h : Answered w) (hd : Delivery cfg w) {ld : PaxosLeader V} {q : PaxosLeaderProtocol V} (value : Option V)
    (hq : (w.leaders m.dest).protocolAt m.instanceID m.proposalID = some q) (hstate : q.state = .proposed) :
    Answered ((w.consume m).leaderDone m.dest
      { node := ld
        sent := acceptRequests (w.leaders m.dest).acceptors (w.leaders m.dest).port m value
        events := [.chose m.instanceID m.proposalID value, .counted (w.leaders m.dest).port m] }) := by
  obtain ⟨hown, hopen⟩ := hd.proposed m.dest m.instanceID m.proposalID q hq hstate
  have hcases : ∀ m' ∈ w.net.erase m ++ acceptRequests (w.leaders m.dest).acceptors (w.leaders m.dest).port m value,
      m' ∈ w.net ∨ m'.instanceID = m.instanceID ∧ m'.proposalID = m.proposalID ∧ m'.source = m.dest := by
    intro m' hm'
    rcases List.mem_append.mp hm' with hold | hnew
    · exact .inl (List.mem_of_mem_erase hold)
    · obtain ⟨s, _, rfl⟩ := List.mem_map.mp hnew
      exact .inr ⟨rfl, rfl, (hd.leader m.dest).1⟩
  refine ⟨fun a i pid => ?_, fun a i pid haccepted => ?_, fun m' hm' hc => ?_, fun a i pid haccepted m' hm' hc hdest hi => ?_⟩
  · simpa using h.agreed a i pid
  · obtain ⟨v, hv⟩ := h.accepted a i pid haccepted
    exact ⟨v, by simp [hv]⟩
  · rcases hcases m' hm' with hold | ⟨_, hpid, hsource⟩
    · exact h.source m' hold hc
    · rw [hsource, hpid, hown]
  · rcases hcases m' hm' with hold | ⟨hinst, hpid, _⟩
    · exact h.once a i pid haccepted m' hold hc hdest hi
    · rintro rfl
      obtain ⟨v, hv⟩ := h.accepted a i _ haccepted
      have hchose := hd.acceptedChose a i _ v hv
      rw [← hi, hinst, hpid] at hchose
      exact hopen v hchose

omit [DecidableEq V] [Zero V] in
/-- A protocol that does not accept adds nothing to what has been accepted. -/
theorem accepted_of_sets (hsets : AcceptorSets (w.acceptors m.dest) ac m.instanceID m.proposalID p)
    (hstate : p.state ≠ .proposalAccepted) (b : Port) (i : Int) (pid : ProposalID)
    (hb : (Function.update w.acceptors m.dest ac b).HasAccepted i pid) : (w.acceptors b).HasAccepted i pid := by
  obtain ⟨q, hq, hqstate⟩ := hb
  rw [protocolAt_sets hsets] at hq
  split at hq
  · obtain rfl := Option.some.inj hq
    exact absurd hqstate hstate
  · exact ⟨q, hq, hqstate⟩

omit [Zero V] in
theorem agree (h : Answered w) (hd : Delivery cfg w) {reply : Message V}
    (hsets : AcceptorSets (w.acceptors m.dest) ac m.instanceID m.proposalID p) (hstate : p.state = .proposalAgreed)
    (hreply : reply.command = .acceptorAgree) :
    Answered ((w.consume m).acceptorDone m.dest
      { node := ac, sent := [reply], events := [.agreed (w.acceptors m.dest).port m.instanceID m.proposalID] }) := by
  have hcases : ∀ m' ∈ w.net.erase m ++ [reply], m'.command = .accept → m' ∈ w.net := by
    intro m' hm' hc
    rcases List.mem_append.mp hm' with hold | hnew
    · exact List.mem_of_mem_erase hold
    · obtain rfl := List.mem_singleton.mp hnew
      rw [hreply] at hc
      cases hc
  have haccepted := accepted_of_sets hsets (by simp [hstate])
  refine ⟨fun b i pid => ?_, fun b i pid hb => ?_, fun m' hm' hc => h.source m' (hcases m' hm' hc) hc,
    fun b i pid hb m' hm' hc => h.once b i pid (haccepted b i pid hb) m' (hcases m' hm' hc) hc⟩
  · simp only [acceptorDone_log, consume_log, acceptorDone_acceptors, consume_acceptors, List.singleton_append,
      List.mem_cons, Event.agreed.injEq, (hd.acceptor m.dest).1, PaxosAcceptor.HasAgreed, protocolAt_sets hsets]
    split
    · rename_i hsame
      simp [hsame, hstate]
    · rename_i hother
      simp only [hother, false_or]
      exact h.agreed b i pid
  · obtain ⟨v, hv⟩ := h.accepted b i pid (haccepted b i pid hb)
    exact ⟨v, by simp [hv]⟩

omit [Zero V] in
theorem reject (h : Answered w) (hd : Delivery cfg w) (hnet : m ∈ w.net) (hcommand : m.command = .propose)
    (hsets : AcceptorSets (w.acceptors m.dest) ac m.instanceID m.proposalID p) (hstate : p.state = .proposalRejected) :
    Answered ((w.consume m).acceptorDone m.dest { node := ac }) := by
  have hnet' : ∀ m' ∈ w.net.erase m ++ [], m' ∈ w.net := by
    intro m' hm'
    exact List.mem_of_mem_erase (by simpa using hm')
  have haccepted := accepted_of_sets hsets (by simp [hstate])
  refine ⟨fun b i pid => ?_, fun b i pid hb => ?_, fun m' hm' hc => h.source m' (hnet' m' hm') hc,
    fun b i pid hb m' hm' => h.once b i pid (haccepted b i pid hb) m' (hnet' m' hm')⟩
  · simp only [acceptorDone_log, consume_log, acceptorDone_acceptors, consume_acceptors, List.nil_append,
      PaxosAcceptor.HasAgreed, protocolAt_sets hsets]
    rw [h.agreed]
    split
    · rename_i hsame
      obtain ⟨rfl, rfl, rfl⟩ := hsame
      simp [PaxosAcceptor.HasAgreed, hd.unknown hnet hcommand, hstate]
    · exact Iff.rfl
  · obtain ⟨v, hv⟩ := h.accepted b i pid (haccepted b i pid hb)
    exact ⟨v, hv⟩

omit [Zero V] in
theorem accept (h : Answered w) (hd : Delivery cfg w) {p' : PaxosAcceptorProtocol} (hnet : m ∈ w.net)
    (hcommand : m.command = .accept) (hp : (w.acceptors m.dest).protocolAt m.instanceID m.proposalID = some p)
    (hstate : p.state = .proposalAgreed) (hsets : AcceptorSets (w.acceptors m.dest) ac m.instanceID m.proposalID p')
    (hstate' : p'.state = .proposalAccepted) :
    Answered ((w.consume m).acceptorDone m.dest
      { node := ac
        sent := acceptNotices (w.acceptors m.dest).leaders (w.acceptors m.dest).port m
        events := [.accepted (w.acceptors m.dest).port m.instanceID m.proposalID m.value] }) := by
  have hcases : ∀ m' ∈ w.net.erase m ++ acceptNotices (w.acceptors m.dest).leaders (w.acceptors m.dest).port m,
      m'.command = .accept → m' ∈ w.net.erase m := by
    intro m' hm' hc
    rcases List.mem_append.mp hm' with hold | hnew
    · exact hold
    · obtain ⟨s, _, rfl⟩ := List.mem_map.mp hnew
      cases hc
  refine ⟨fun b i pid => ?_, fun b i pid hb => ?_,
    fun m' hm' hc => h.source m' (List.mem_of_mem_erase (hcases m' hm' hc)) hc, fun b i pid hb m' hm' hc hdest hi => ?_⟩
  · simp only [acceptorDone_log, consume_log, acceptorDone_acceptors, consume_acceptors, List.singleton_append,
      List.mem_cons, reduceCtorEq, false_or, PaxosAcceptor.HasAgreed, protocolAt_sets hsets]
    rw [h.agreed]
    split
    · rename_i hsame
      obtain ⟨rfl, rfl, rfl⟩ := hsame
      simp [PaxosAcceptor.HasAgreed, hp, hstate, hstate']
    · exact Iff.rfl
  · obtain ⟨q, hq, hqstate⟩ := hb
    rw [acceptorDone_acceptors, consume_acceptors, protocolAt_sets hsets] at hq
    split at hq
    · rename_i hsame
      obtain ⟨rfl, rfl, rfl⟩ := hsame
      exact ⟨m.value, by simp [(hd.acceptor m.dest).1]⟩
    · obtain ⟨v, hv⟩ := h.accepted b i pid ⟨q, hq, hqstate⟩
      exact ⟨v, by simp [hv]⟩
  · rintro rfl
    obtain ⟨q, hq, hqstate⟩ := hb
    have hold := hcases m' hm' hc
    rw [acceptorDone_acceptors, consume_acceptors, protocolAt_sets hsets] at hq
    split at hq
    · -- the request that has just been taken was the only one
      rename_i hsame
      obtain ⟨rfl, hinst, hpid⟩ := hsame
      have hsource' := h.source m' (List.mem_of_mem_erase hold) hc
      have hsource := h.source m hnet hcommand
      refine not_mem_erase_of_key hd hnet hold (by simp [Message.IsProtocol, hcommand]) ?_
      simp [Message.key, hc, hcommand, hdest, hi, hinst, hpid, hsource, hsource']
    · exact h.once b i _ ⟨q, hq, hqstate⟩ m' (List.mem_of_mem_erase hold) hc hdest hi rfl

omit [Zero V] in
theorem move (hmove : Move cfg False w w') (hd : Delivery cfg w) (h : Answered w) : Answered w' := by
  cases hmove with
  | consume m =>
    exact h.frame rfl (fun m' hm' _ => List.mem_of_mem_erase hm') (fun _ _ _ => Iff.rfl) fun _ he => he
  | inject m hm =>
    refine h.frame rfl (fun m' hm' hc => ?_) (fun _ _ _ => Iff.rfl) fun _ he => he
    rcases List.mem_append.mp hm' with hold | hnew
    · exact hold
    · obtain rfl := List.mem_singleton.mp hnew
      exact absurd (by simp [Message.IsProtocol, hc]) hm
  | leaderQuiet l ld _ =>
    exact h.frame rfl (fun m' hm' _ => by simpa using hm') (fun _ _ _ => by simp) fun _ he => by simpa using he
  | acceptorQuiet a ac _ _ hinstances => exact h.acceptorQuiet hinstances
  | propose l ld i value p _ _ _ _ =>
    refine h.frame rfl (fun m hm hc => ?_) (fun _ _ _ => by simp) fun _ he => by simpa using he
    rw [leaderDone_net] at hm
    rcases List.mem_append.mp hm with hold | hnew
    · exact hold
    · obtain ⟨server, _, rfl⟩ := List.mem_map.mp hnew
      cases hc
  | count m ld p p' _ _ _ _ _ _ _ =>
    refine h.frame rfl (fun m' hm' _ => ?_) (fun _ _ _ => by simp) fun _ he => by simp [he]
    exact List.mem_of_mem_erase (by simpa using hm')
  | choose m ld p p' _ _ hp hstate _ _ _ _ _ _ _ _ _ => exact h.choose hd p'.value hp hstate
  | record m ld p p' _ _ _ _ _ _ _ _ _ _ =>
    refine h.frame rfl (fun m' hm' _ => ?_) (fun _ _ _ => by simp) fun _ he => by simp [he]
    exact List.mem_of_mem_erase (by simpa using hm')
  | agree m reply ac p _ _ _ hsets _ hstate hreply => exact h.agree hd hsets hstate hreply.1
  | reject m ac p _ hnet hcommand hsets _ hstate => exact h.reject hd hnet hcommand hsets hstate
  | accept m ac p p' _ hnet hcommand hp hstate hsets _ hstate' _ =>
    exact h.accept hd hnet hcommand hp hstate hsets hstate'

end Answered

theorem answered_after (cfg : Config) (actions : List (Action V)) : Answered (World.after cfg actions) := by
  let Inv : World V → Prop := fun w => Delivery cfg w ∧ Answered w
  have hinit : Inv (World.init cfg) := by
    refine ⟨delivery_init cfg, ?_⟩
    constructor <;> simp [World.init, PaxosAcceptor.HasAgreed, PaxosAcceptor.HasAccepted, PaxosAcceptor.protocolAt]
  have hmove : ∀ w w', Move cfg False w w' → Inv w → Inv w' :=
    fun _ _ hmove h => ⟨h.1.move hmove, h.2.move hmove h.1⟩
  have hrun := Transition.along_true (World.step cfg) (World.init cfg : World V) actions
  exact (after_invariant cfg False hinit hmove (by simpa using hrun)).2

/-! ### The deliveries that raise -/

omit [Zero V] [DecidableEq V] in
/-- An acceptor takes a proposal, and an `MSG_ACCEPT` for a proposal in `STATE_PROPOSAL_AGREED`; it raises on everything else. -/
theorem acceptor_completes (self : PaxosAcceptor V) (m : Message V) :
    (∃ out, self.recvMessage m = .ok out) ↔ self.failed = true ∨ m.command = .propose ∨
      (m.command = .accept ∧ ∃ p, self.protocolAt m.instanceID m.proposalID = some p ∧ p.state = .proposalAgreed) := by
  rw [PaxosAcceptor.recvMessage]
  by_cases hfailed : self.failed = true
  · simp [hfailed]
  · rw [if_neg hfailed]
    by_cases hcommand : m.command = .propose
    · simp [hcommand]
    · rw [if_neg hcommand]
      simp only [hfailed, hcommand, false_or]
      cases hrecord : self.instances m.instanceID with
      | none => simp [PaxosAcceptor.protocolAt, hrecord]
      | some record =>
        simp only [PaxosAcceptor.protocolAt, hrecord, Option.bind_some, InstanceRecord.getProtocol]
        cases hprotocol : record.protocols m.proposalID with
        | none => simp [bind, Except.bind]
        | some p =>
          by_cases hstate : p.state = .proposalAgreed ∧ m.command = .accept
          · simp [bind, Except.bind, PaxosAcceptorProtocol.doTransition, hstate, pure, Except.pure]
          · simp only [bind, Except.bind, PaxosAcceptorProtocol.doTransition, if_neg hstate]
            refine iff_of_false (by simp) ?_
            rintro (hfalse | ⟨haccept, q, hq, hagreed⟩)
            · cases hfalse
            cases hq
            exact hstate ⟨hagreed, haccept⟩

/-- A node that gets a message in flight returns, except for a running primary that gets a reply to a proposal it has forgotten, and an acceptor in service that is asked to accept a proposal it has not agreed to. -/
theorem recvMessage_completes_iff (cfg : Config) (actions : List (Action V)) (m : Message V)
    (hm : m ∈ (World.after cfg actions).net) :
    (m.dest ∈ cfg.leaders →
      ((∃ out, ((World.after cfg actions).leaders m.dest).recvMessage m = .ok out) ↔
        ¬ (((World.after cfg actions).leaders m.dest).stopped = false ∧
          ((World.after cfg actions).leaders m.dest).isPrimary = true ∧ m.command = .acceptorAgree ∧
          Forgotten cfg m.dest m.instanceID m.proposalID actions))) ∧
      (m.dest ∈ cfg.acceptors →
        ((∃ out, ((World.after cfg actions).acceptors m.dest).recvMessage m = .ok out) ↔
          ((World.after cfg actions).acceptors m.dest).failed = true ∨ m.command = .propose ∨
            (m.command = .accept ∧ .agreed m.dest m.instanceID m.proposalID ∈ (World.after cfg actions).log))) := by
  have hrecalls := recalls_after cfg actions
  have hanswered := answered_after cfg actions
  refine ⟨fun hleader => ?_, fun hacceptor => ?_⟩
  · -- a reply that is missed is an agreement, which its leader once had a protocol for
    have hmisses : ((World.after cfg actions).leaders m.dest).Misses m ↔
        ((World.after cfg actions).leaders m.dest).stopped = false ∧
          ((World.after cfg actions).leaders m.dest).isPrimary = true ∧ m.command = .acceptorAgree ∧
          Forgotten cfg m.dest m.instanceID m.proposalID actions := by
      constructor
      · rintro ⟨hstopped, hprimary, hprotocol, hcommand, hunknown⟩
        cases hrecalls.routes m hm hprotocol with
        | ask hdest => exact absurd hdest (cfg.bound_once _ hleader)
        | propose hdest => exact absurd hdest (cfg.bound_once _ hleader)
        | notice _ hnotice => exact absurd hnotice hcommand
        | reply hagree hdest _ =>
          refine ⟨hstopped, hprimary, hagree, ?_⟩
          rw [hdest] at hunknown ⊢
          exact (hrecalls.opened m hm (.inr hagree)).resolve_left hunknown
      · rintro ⟨hstopped, hprimary, hagree, hforgotten⟩
        exact ⟨hstopped, hprimary, by simp [Message.IsProtocol, hagree], by simp [hagree],
          (hrecalls.forgotten _ _ _ hforgotten).1⟩
    rw [← hmisses]
    obtain ⟨hmiss, e, herror⟩ | ⟨hno, out, hok, _⟩ := leader_recvMessage ((World.after cfg actions).leaders m.dest) m
    · simp [herror, hmiss]
    · simp [hok, hno]
  · rw [acceptor_completes, hanswered.agreed]
    refine or_congr_right (or_congr_right (and_congr_right fun haccept => ?_))
    constructor
    · rintro ⟨p, hp, hstate⟩
      exact ⟨p, hp, .inl hstate⟩
    · rintro ⟨p, hp, hstate | hstate⟩
      · exact ⟨p, hp, hstate⟩
      · exact absurd rfl (hanswered.once m.dest _ _ ⟨p, hp, hstate⟩ m hm haccept rfl rfl)

end Runs

/-- The acceptors `2` and `3` accept the proposal, and the leader collects its protocol while the answer of `4` is on its way. -/
def lateRun : List (Action Nat) :=
  quorumRun ++ [Action.deliver (firstProposal .accept 2 1 (some 7)), .deliver (firstProposal .accept 3 1 (some 7)),
    .deliver (firstProposal .propose 4 1 (some 7)),
    .deliver (firstProposal .acceptorAccept 1 2 (some 7)), .deliver (firstProposal .acceptorAccept 1 3 (some 7)),
    .timeout 1 true]

/-- The request to accept that comes before the proposal is a message its acceptor raises on, and so is, for the leader, the reply that comes after the collection. -/
theorem late_messages_raise :
    (¬ ∀ (actions : List (Action Nat)) (m : Message Nat), m ∈ (World.after trioConfig actions).net →
      m.dest ∈ trioConfig.acceptors → ∃ out, ((World.after trioConfig actions).acceptors m.dest).recvMessage m = .ok out) ∧
    ¬ ∀ (actions : List (Action Nat)) (m : Message Nat), m ∈ (World.after trioConfig actions).net →
      m.dest ∈ trioConfig.leaders → ∃ out, ((World.after trioConfig actions).leaders m.dest).recvMessage m = .ok out := by
  constructor
  · intro h
    have hnet : firstProposal .accept 4 1 (some 7) ∈ (World.after trioConfig quorumRun).net := by decide
    obtain ⟨out, hout⟩ := h quorumRun _ hnet (by decide)
    cases hout
  · intro h
    have hnet : firstProposal .acceptorAgree 1 4 none ∈ (World.after trioConfig lateRun).net := by decide
    obtain ⟨out, hout⟩ := h lateRun _ hnet (by decide)
    cases hout

/-- In `quorumRun` the acceptor `2`, which has agreed, takes the request to accept. -/
theorem recvMessage_completes_quorumRun :
    firstProposal .accept 2 1 (some 7) ∈ (World.after trioConfig quorumRun).net ∧
      ∃ out, ((World.after trioConfig quorumRun).acceptors 2).recvMessage (firstProposal .accept 2 1 (some 7)) = .ok out :=
  ⟨by decide, ((recvMessage_completes_iff trioConfig quorumRun (firstProposal .accept 2 1 (some 7)) (by decide)).2
    (by decide)).mpr (.inr (.inr ⟨rfl, by decide⟩))⟩

end Reading.Paxos
