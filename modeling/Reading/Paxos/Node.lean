import Mathlib.Algebra.GroupWithZero.Nat
import Mathlib.Data.List.Basic
import Mathlib.Algebra.Order.Group.Int

/-!
# The nodes of the toy Paxos implementation

`PaxosLeader` and `PaxosAcceptor` of `toy_paxos.py`, with the messages they exchange and the per-instance records they keep. A method that mutates its object becomes a function from the old object to the new one, together with the messages it hands to the message pump and the events it would print. A Python exception leaves `recvMessage` as an `Except.error`, since nothing in a pump catches it.

A dictionary is a partial function. Values are arbitrary objects that may be `None`, so a message carries an `Option V`; the only constant the program proposes by itself is the `0` that fills a gap.
-/

namespace Reading.Paxos

/-- Every actor is bound to localhost and is known by its port. -/
abbrev Port := Int

/-- A proposal identifier `(port, count)`: the leader that made it and that leader's counter. -/
abbrev ProposalID := Int × Int

inductive Command where
  | acceptorAgree
  | acceptorAccept
  | acceptorReject
  | acceptorUnaccept
  | accept
  | propose
  | extPropose
  | heartbeat
  deriving DecidableEq, Repr

structure Message (V : Type) where
  command : Command
  proposalID : ProposalID := (-1, -1)
  instanceID : Int := -1
  dest : Port := 0
  source : Port := 0
  value : Option V := none
  sequence : ProposalID := (-1, -1)
  highestPID : ProposalID := (-1, -1)
  deriving DecidableEq, Repr

/-- `copyAsReply`: address `self` to the sender of `message` and copy what it is about. -/
def Message.copyAsReply {V : Type} (self message : Message V) : Message V :=
  { self with
    proposalID := message.proposalID, instanceID := message.instanceID,
    dest := message.source, source := message.dest, value := message.value }

/-- What an observer of a node learns: the lines the program prints, or has commented out, at the same places. -/
inductive Event (V : Type) where
  | agreed (acceptor : Port) (instanceID : Int) (proposalID : ProposalID)
  | accepted (acceptor : Port) (instanceID : Int) (proposalID : ProposalID) (value : Option V)
  | counted (leader : Port) (message : Message V)
  | chose (instanceID : Int) (proposalID : ProposalID) (value : Option V)
  | recorded (leader : Port) (instanceID : Int) (proposalID : ProposalID) (value : Option V)
  deriving DecidableEq, Repr

/-- The outcome of a method call: the object afterwards, the messages sent and the events. -/
structure Outcome (σ V : Type) where
  node : σ
  sent : List (Message V) := []
  events : List (Event V) := []

inductive PyError where
  | keyError
  | unexpectedState
  deriving DecidableEq, Repr

/-! ### Instance records -/

structure InstanceRecord (P V : Type) where
  protocols : ProposalID → Option P := fun _ => none
  highestID : ProposalID := (-1, -1)
  value : Option V := none

/-- The order `addProtocol` keeps `highestID` by: the counter first, the port to break a tie. -/
def numberedBelow (p q : ProposalID) : Prop := p.2 < q.2 ∨ p.2 = q.2 ∧ p.1 < q.1

instance (p q : ProposalID) : Decidable (numberedBelow p q) :=
  inferInstanceAs (Decidable (_ ∨ _))

namespace InstanceRecord

variable {P V : Type}

def addProtocol (self : InstanceRecord P V) (proposalID : ProposalID) (protocol : P) :
    InstanceRecord P V :=
  { self with
    protocols := Function.update self.protocols proposalID (some protocol)
    highestID := if numberedBelow self.highestID proposalID then proposalID else self.highestID }

/-- Storing a protocol back after one of its methods changed it; the object's place in the dictionary is unchanged. -/
def setProtocol (self : InstanceRecord P V) (proposalID : ProposalID) (protocol : P) :
    InstanceRecord P V :=
  { self with protocols := Function.update self.protocols proposalID (some protocol) }

def getProtocol (self : InstanceRecord P V) (proposalID : ProposalID) : Except PyError P :=
  match self.protocols proposalID with
  | some protocol => .ok protocol
  | none => .error .keyError

end InstanceRecord

/-! ### The leader -/

inductive LeaderState where
  | undefined
  | proposed
  | agreed
  | rejected
  | accepted
  | unaccepted
  deriving DecidableEq, Repr

structure PaxosLeaderProtocol (V : Type) where
  state : LeaderState := .undefined
  proposalID : ProposalID := (-1, -1)
  agreecount : Nat := 0
  acceptcount : Nat := 0
  rejectcount : Nat := 0
  unacceptcount : Nat := 0
  instanceID : Int := -1
  highestseen : ProposalID := (0, 0)
  value : Option V := none

structure PaxosLeader (V : Type) where
  port : Port
  acceptors : List Port
  isPrimary : Bool := false
  proposalCount : Int := 0
  instances : Int → Option (InstanceRecord (PaxosLeaderProtocol V) V) := fun _ => none
  highestInstance : Int := -1
  stopped : Bool := true
  /-- The thread of the message pump dies with the first exception. -/
  pumpAlive : Bool := true

/-- `cleanProtocols`: forget every protocol that reached `STATE_ACCEPTED`. -/
def InstanceRecord.cleanProtocols {V : Type} (self : InstanceRecord (PaxosLeaderProtocol V) V) :
    InstanceRecord (PaxosLeaderProtocol V) V :=
  { self with
    protocols := fun k => (self.protocols k).filter fun protocol => protocol.state ≠ .accepted }

namespace PaxosLeader

variable {V : Type}

def getQuorumSize (self : PaxosLeader V) : Nat := self.acceptors.length / 2 + 1

def getInstanceValue (self : PaxosLeader V) (instanceID : Int) : Option V :=
  match self.instances instanceID with
  | some record => record.value
  | none => none

/-- The protocol registered for an instance and a proposal, if there is one. -/
def protocolAt (self : PaxosLeader V) (instanceID : Int) (proposalID : ProposalID) :
    Option (PaxosLeaderProtocol V) :=
  (self.instances instanceID).bind fun record => record.protocols proposalID

end PaxosLeader

namespace PaxosLeaderProtocol

variable {V : Type}

/-- `propose`: the messages to the acceptors, and the protocol in `STATE_PROPOSED`. -/
def propose (self : PaxosLeaderProtocol V) (leader : PaxosLeader V) (value : Option V)
    (pID : ProposalID) (instanceID : Int) : PaxosLeaderProtocol V × List (Message V) :=
  ({ self with proposalID := pID, value := value, instanceID := instanceID, state := .proposed },
    leader.acceptors.map fun server =>
      { command := .propose, proposalID := pID, instanceID := instanceID, value := value,
        dest := server, source := leader.port })

/-- The test under which the reply that completes the quorum replaces the leader's own value. -/
def adopts (self : PaxosLeaderProtocol V) (message : Message V) : Prop :=
  message.value ≠ none ∧
    (message.sequence.1 > self.highestseen.1 ∨
      message.sequence.1 = self.highestseen.1 ∧ message.sequence.2 > self.highestseen.2)

instance (self : PaxosLeaderProtocol V) (message : Message V) : Decidable (self.adopts message) :=
  inferInstanceAs (Decidable (message.value ≠ none ∧ _))

/-- `doTransition` up to its call of `notifyLeader`; the last component says whether that call is made. -/
def doTransition (self : PaxosLeaderProtocol V) (leader : PaxosLeader V) (message : Message V) :
    Outcome (PaxosLeaderProtocol V) V × Bool :=
  match self.state, message.command with
  | .proposed, .acceptorAgree =>
    let self := { self with agreecount := self.agreecount + 1 }
    if self.agreecount ≥ leader.getQuorumSize then
      let self := if self.adopts message then
        { self with value := message.value, highestseen := message.sequence } else self
      let self := { self with state := .agreed }
      let msg : Message V := { Message.copyAsReply { command := .accept } message with
        value := self.value }
      ({ node := self
         sent := leader.acceptors.map fun s => { msg with dest := s, source := leader.port }
         events := [.chose message.instanceID message.proposalID self.value,
           .counted leader.port message] }, true)
    else
      ({ node := self, events := [.counted leader.port message] }, false)
  | .proposed, .acceptorReject =>
    let self := { self with rejectcount := self.rejectcount + 1 }
    if self.rejectcount ≥ leader.getQuorumSize then
      ({ node := { self with state := .rejected } }, true)
    else
      ({ node := self }, false)
  | .agreed, .acceptorAccept =>
    let self := { self with acceptcount := self.acceptcount + 1 }
    if self.acceptcount ≥ leader.getQuorumSize then
      ({ node := { self with state := .accepted }, events := [.counted leader.port message] }, true)
    else
      ({ node := self, events := [.counted leader.port message] }, false)
  | .agreed, .acceptorUnaccept =>
    let self := { self with unacceptcount := self.unacceptcount + 1 }
    if self.unacceptcount ≥ leader.getQuorumSize then
      ({ node := { self with state := .unaccepted } }, true)
    else
      ({ node := self }, false)
  | _, _ => ({ node := self }, false)

end PaxosLeaderProtocol

namespace PaxosLeader

variable {V : Type}

def newProposal (self : PaxosLeader V) (value : Option V) (inst : Option Int) :
    PaxosLeader V × List (Message V) :=
  let self := match inst with
    | none => { self with highestInstance := self.highestInstance + 1 }
    | some _ => self
  let instanceID := inst.getD self.highestInstance
  let self := { self with proposalCount := self.proposalCount + 1 }
  let id : ProposalID := (self.port, self.proposalCount)
  let record := (self.instances instanceID).getD {}
  let (protocol, sent) := PaxosLeaderProtocol.propose {} self value id instanceID
  ({ self with
     instances := Function.update self.instances instanceID (some (record.addProtocol id protocol)) },
    sent)

/-- `notifyLeader`: a protocol reports that it is done. -/
def notifyLeader (self : PaxosLeader V) (protocol : PaxosLeaderProtocol V) (message : Message V) :
    Outcome (PaxosLeader V) V :=
  match protocol.state with
  | .accepted =>
    let record := (self.instances message.instanceID).getD {}
    { node := { self with
        instances := Function.update self.instances message.instanceID
          (some { record with value := message.value })
        highestInstance := max message.instanceID self.highestInstance }
      events := [.recorded self.port message.instanceID message.proposalID message.value] }
  | .rejected =>
    let self := { self with proposalCount := max self.proposalCount message.highestPID.2 }
    let (self, sent) := self.newProposal message.value none
    { node := self, sent := sent }
  | _ => { node := self }

/-- Running a registered protocol on a message: `protocol.doTransition(message)` with the call of `notifyLeader` it may end in. -/
def transition (self : PaxosLeader V) (record : InstanceRecord (PaxosLeaderProtocol V) V)
    (protocol : PaxosLeaderProtocol V) (message : Message V) : Outcome (PaxosLeader V) V :=
  let result := protocol.doTransition self message
  let out := result.1
  let self := { self with
    instances := Function.update self.instances message.instanceID
      (some (record.setProtocol message.proposalID out.node)) }
  if result.2 then
    let out' := self.notifyLeader out.node message
    { node := out'.node, sent := out.sent ++ out'.sent, events := out'.events ++ out.events }
  else
    { node := self, sent := out.sent, events := out.events }

/-- `findAndFillGaps`: the loop over the instances `1 .. highestInstance - 1`. -/
def fillGaps [Zero V] (self : PaxosLeader V) : List Int → PaxosLeader V × List (Message V)
  | [] => (self, [])
  | i :: is =>
    if self.getInstanceValue i = none then
      let (self, sent) := self.newProposal (some 0) (some i)
      let (self, sent') := self.fillGaps is
      (self, sent ++ sent')
    else self.fillGaps is

def findAndFillGaps [Zero V] (self : PaxosLeader V) : PaxosLeader V × List (Message V) :=
  self.fillGaps ((List.range (self.highestInstance - 1).toNat).map fun k => (k : Int) + 1)

def garbageCollect (self : PaxosLeader V) : PaxosLeader V :=
  { self with instances := fun i => (self.instances i).map InstanceRecord.cleanProtocols }

/-- `recvMessage(None)`: the pump found no message; `elapsed` says whether 15 seconds have gone by. -/
def recvNone [Zero V] (self : PaxosLeader V) (elapsed : Bool) : Outcome (PaxosLeader V) V :=
  if self.stopped then { node := self }
  else if self.isPrimary ∧ elapsed then
    let (self, sent) := self.findAndFillGaps
    { node := self.garbageCollect, sent := sent }
  else { node := self }

/-- `recvMessage(message)` for an actual message. -/
def recvMessage (self : PaxosLeader V) (message : Message V) :
    Except PyError (Outcome (PaxosLeader V) V) :=
  if self.stopped then .ok { node := self }
  else match message.command with
  | .heartbeat => .ok { node := self }
  | .extPropose =>
    if self.isPrimary then
      let (self, sent) := self.newProposal message.value none
      .ok { node := self, sent := sent }
    else .ok { node := self }
  | .acceptorAccept =>
    let record := (self.instances message.instanceID).getD {}
    match record.protocols message.proposalID with
    | none =>
      let protocol : PaxosLeaderProtocol V :=
        { state := .agreed, proposalID := message.proposalID, instanceID := message.instanceID,
          value := message.value }
      .ok (self.transition (record.addProtocol message.proposalID protocol) protocol message)
    | some protocol => .ok (self.transition record protocol message)
  | _ =>
    if self.isPrimary then
      match self.instances message.instanceID with
      | none => .error .keyError
      | some record => do
        let protocol ← record.getProtocol message.proposalID
        return self.transition record protocol message
    else .ok { node := self }

end PaxosLeader

/-! ### The acceptor -/

inductive AcceptorState where
  | undefined
  | proposalReceived
  | proposalRejected
  | proposalAgreed
  | proposalAccepted
  | proposalUnaccepted
  deriving DecidableEq, Repr

structure PaxosAcceptorProtocol where
  state : AcceptorState := .undefined
  proposalID : ProposalID := (-1, -1)
  instanceID : Int := -1

structure PaxosAcceptor (V : Type) where
  port : Port
  leaders : List Port
  instances : Int → Option (InstanceRecord PaxosAcceptorProtocol V) := fun _ => none
  failed : Bool := false
  pumpAlive : Bool := true

namespace PaxosAcceptorProtocol

variable {V : Type}

/-- `recvProposal`, given the record the client keeps for the instance. -/
def recvProposal (self : PaxosAcceptorProtocol) (client : PaxosAcceptor V)
    (record : InstanceRecord PaxosAcceptorProtocol V) (message : Message V) :
    Outcome PaxosAcceptorProtocol V :=
  let self := { self with proposalID := message.proposalID, instanceID := message.instanceID }
  let port := record.highestID.1
  let count := record.highestID.2
  if count < self.proposalID.1 ∨ count = self.proposalID.1 ∧ port < self.proposalID.2 then
    let msg : Message V := { Message.copyAsReply { command := .acceptorAgree } message with
      value := record.value, sequence := (port, count) }
    { node := { self with state := .proposalAgreed }
      sent := [{ msg with source := client.port }]
      events := [.agreed client.port message.instanceID message.proposalID] }
  else
    { node := { self with state := .proposalRejected } }

/-- `doTransition` of an acceptor protocol; the notification of the client is part of the caller. -/
def doTransition (self : PaxosAcceptorProtocol) (client : PaxosAcceptor V) (message : Message V) :
    Except PyError (Outcome PaxosAcceptorProtocol V) :=
  if self.state = .proposalAgreed ∧ message.command = .accept then
    let msg : Message V := Message.copyAsReply { command := .acceptorAccept } message
    .ok { node := { self with state := .proposalAccepted }
          sent := client.leaders.map fun l => { msg with dest := l, source := client.port }
          events := [.accepted client.port message.instanceID message.proposalID message.value] }
  else .error .unexpectedState

end PaxosAcceptorProtocol

namespace PaxosAcceptor

variable {V : Type}

/-- The protocol registered for an instance and a proposal, if there is one. -/
def protocolAt (self : PaxosAcceptor V) (instanceID : Int) (proposalID : ProposalID) :
    Option PaxosAcceptorProtocol :=
  (self.instances instanceID).bind fun record => record.protocols proposalID

/-- The value the acceptor keeps for an instance. -/
def valueAt (self : PaxosAcceptor V) (instanceID : Int) : Option V :=
  (self.instances instanceID).bind InstanceRecord.value

/-- `notifyClient`: store the accepted value. -/
def notifyClient (record : InstanceRecord PaxosAcceptorProtocol V) (protocol : PaxosAcceptorProtocol)
    (message : Message V) : InstanceRecord PaxosAcceptorProtocol V :=
  if protocol.state = .proposalAccepted then { record with value := message.value } else record

def recvMessage (self : PaxosAcceptor V) (message : Message V) :
    Except PyError (Outcome (PaxosAcceptor V) V) :=
  if self.failed then .ok { node := self }
  else if message.command = .propose then
    let record := (self.instances message.instanceID).getD {}
    let out := PaxosAcceptorProtocol.recvProposal {} self record message
    .ok { node := { self with
            instances := Function.update self.instances message.instanceID
              (some (record.addProtocol message.proposalID out.node)) }
          sent := out.sent, events := out.events }
  else
    match self.instances message.instanceID with
    | none => .error .keyError
    | some record => do
      let protocol ← record.getProtocol message.proposalID
      let out ← protocol.doTransition self message
      let record := notifyClient (record.setProtocol message.proposalID out.node) out.node message
      return { node := { self with
                 instances := Function.update self.instances message.instanceID (some record) }
               sent := out.sent, events := out.events }

end PaxosAcceptor

end Reading.Paxos
