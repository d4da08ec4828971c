import Reading.Lib.Transition
import Reading.Paxos.Node

/-!
# The system of leaders and acceptors

Leaders and acceptors joined by a datagram network that may delay, reorder and lose messages but neither forges nor duplicates them: `net` is the list of messages in flight and a delivery takes one of them out. A run is a list of `Action`s, and everything that is not decided by a node, such as which message arrives next or when a heartbeat times out, is the choice of the action.

`sent` and `log` are history: every message a node has sent and every event, newest first. No node reads them.
-/

namespace Reading.Paxos

variable {V : Type}

/-- The ports in use. A port is bound by one socket, so no port occurs twice. -/
structure Config where
  leaders : List Port
  acceptors : List Port
  leaders_nodup : leaders.Nodup
  acceptors_nodup : acceptors.Nodup
  bound_once : ∀ p ∈ leaders, p ∉ acceptors

structure World (V : Type) where
  leaders : Port → PaxosLeader V
  acceptors : Port → PaxosAcceptor V
  net : List (Message V) := []
  sent : List (Message V) := []
  log : List (Event V) := []

def World.init (cfg : Config) : World V where
  leaders p := { port := p, acceptors := cfg.acceptors }
  acceptors p := { port := p, leaders := cfg.leaders }

inductive Action (V : Type) where
  /-- The network hands a message in flight to the node it is addressed to. -/
  | deliver (message : Message V)
  | lose (message : Message V)
  /-- A client sends `MSG_EXT_PROPOSE` to a leader. -/
  | extPropose (leader client : Port) (value : Option V)
  /-- A leader's heartbeat thread sends one heartbeat. -/
  | heartbeat (leader other : Port)
  /-- The pump of a leader times out; `elapsed` if the last cleanup is 15 seconds old. -/
  | timeout (leader : Port) (elapsed : Bool)
  | setPrimary (leader : Port) (primary : Bool)
  | start (leader : Port)
  | stop (leader : Port)
  | fail (acceptor : Port)
  | recover (acceptor : Port)

namespace World

/-- A leader's method has returned. -/
def leaderDone (w : World V) (l : Port) (out : Outcome (PaxosLeader V) V) : World V :=
  { w with
    leaders := Function.update w.leaders l out.node
    net := w.net ++ out.sent, sent := w.sent ++ out.sent, log := out.events ++ w.log }

/-- An acceptor's method has returned. -/
def acceptorDone (w : World V) (a : Port) (out : Outcome (PaxosAcceptor V) V) : World V :=
  { w with
    acceptors := Function.update w.acceptors a out.node
    net := w.net ++ out.sent, sent := w.sent ++ out.sent, log := out.events ++ w.log }

variable [DecidableEq V]

/-- The message leaves the network. -/
def consume (w : World V) (m : Message V) : World V := { w with net := w.net.erase m }

def toLeader (w : World V) (m : Message V) : World V :=
  match (w.leaders m.dest).recvMessage m with
  | .ok out => (w.consume m).leaderDone m.dest out
  | .error _ => (w.consume m).leaderDone m.dest
      { node := { w.leaders m.dest with pumpAlive := false } }

def toAcceptor (w : World V) (m : Message V) : World V :=
  match (w.acceptors m.dest).recvMessage m with
  | .ok out => (w.consume m).acceptorDone m.dest out
  | .error _ => (w.consume m).acceptorDone m.dest
      { node := { w.acceptors m.dest with pumpAlive := false } }

def step [Zero V] (cfg : Config) (w : World V) : Action V → World V
  | .deliver m =>
    if m ∉ w.net then w
    else if m.dest ∈ cfg.leaders then
      if (w.leaders m.dest).pumpAlive then w.toLeader m else w
    else if m.dest ∈ cfg.acceptors then
      if (w.acceptors m.dest).pumpAlive then w.toAcceptor m else w
    else w.consume m
  | .lose m => w.consume m
  | .extPropose l client value =>
    { w with net := w.net ++ [{ command := .extPropose, dest := l, source := client, value := value }] }
  | .heartbeat l other =>
    if (w.leaders l).isPrimary then
      { w with net := w.net ++ [{ command := .heartbeat, dest := other, source := l }] }
    else w
  | .timeout l elapsed =>
    if l ∈ cfg.leaders ∧ (w.leaders l).pumpAlive then
      w.leaderDone l ((w.leaders l).recvNone elapsed)
    else w
  | .setPrimary l primary => w.leaderDone l { node := { w.leaders l with isPrimary := primary } }
  | .start l => w.leaderDone l { node := { w.leaders l with stopped := false } }
  | .stop l =>
    w.leaderDone l { node := { w.leaders l with stopped := true, pumpAlive := false } }
  | .fail a => w.acceptorDone a { node := { w.acceptors a with failed := true } }
  | .recover a => w.acceptorDone a { node := { w.acceptors a with failed := false } }

/-- The system after a run. -/
def after [Zero V] (cfg : Config) (actions : List (Action V)) : World V :=
  Transition.run (World.step cfg) (World.init cfg) actions

end World

/-! ### The steps that avoid the two defects

An acceptor takes an `MSG_ACCEPT` for any proposal it once agreed to, without looking whether it has agreed to a greater one since. A leader looks at the value of the one reply that completes its quorum and at none of the earlier ones, and orders it by the greatest proposal that acceptor had seen, not by the one it had accepted. `SoundStep` says of a step, in the state before it, that neither matters. -/

/-- The acceptor has answered the proposal with `MSG_ACCEPTOR_AGREE`. -/
def PaxosAcceptor.HasAgreed (self : PaxosAcceptor V) (i : Int) (pid : ProposalID) : Prop :=
  ∃ protocol, self.protocolAt i pid = some protocol ∧
    (protocol.state = .proposalAgreed ∨ protocol.state = .proposalAccepted)

def PaxosAcceptor.HasAccepted (self : PaxosAcceptor V) (i : Int) (pid : ProposalID) : Prop :=
  ∃ protocol, self.protocolAt i pid = some protocol ∧ protocol.state = .proposalAccepted

/-- Delivering `m` makes its acceptor accept a proposal. -/
def World.Accepts (w : World V) (m : Message V) : Prop :=
  (w.acceptors m.dest).failed = false ∧ m.command = .accept ∧
    ∃ protocol, (w.acceptors m.dest).protocolAt m.instanceID m.proposalID = some protocol ∧
      protocol.state = .proposalAgreed

/-- Delivering `m` completes the quorum of replies its leader waits for. -/
def World.Completes (w : World V) (m : Message V) : Prop :=
  (w.leaders m.dest).stopped = false ∧ (w.leaders m.dest).isPrimary = true ∧
    m.command = .acceptorAgree ∧
    ∃ protocol, (w.leaders m.dest).protocolAt m.instanceID m.proposalID = some protocol ∧
      protocol.state = .proposed ∧ (w.leaders m.dest).getQuorumSize ≤ protocol.agreecount + 1

/-- The replies of one kind a leader has counted for a proposal. -/
def countedReplies (log : List (Event V)) (l : Port) (command : Command) (i : Int)
    (pid : ProposalID) : List (Message V) :=
  log.filterMap fun
    | .counted l' m =>
      if l' = l ∧ m.command = command ∧ m.instanceID = i ∧ m.proposalID = pid then some m else none
    | _ => none

/-- The proposal an acceptor accepted last for an instance. -/
def lastAccepted (a : Port) (i : Int) : List (Event V) → Option ProposalID
  | [] => none
  | .accepted a' i' pid _ :: log => if a' = a ∧ i' = i then some pid else lastAccepted a i log
  | _ :: log => lastAccepted a i log

/-- The proposal whose value an acceptor reported when it agreed to `pid`: the one it had accepted last by then. -/
def reported (a : Port) (i : Int) (pid : ProposalID) : List (Event V) → Option ProposalID
  | [] => none
  | .agreed a' i' pid' :: log =>
    if a' = a ∧ i' = i ∧ pid' = pid then lastAccepted a i log else reported a i pid log
  | _ :: log => reported a i pid log

/-- `p` is not numbered above `q`; no proposal is below every proposal. -/
def notAbove : Option ProposalID → Option ProposalID → Prop
  | none, _ => True
  | some _, none => False
  | some p, some q => numberedBelow p q ∨ p = q

/-- No greater proposal of the instance has been agreed to. -/
def World.AcceptSound (w : World V) (m : Message V) : Prop :=
  ∀ pid, numberedBelow m.proposalID pid → ¬ (w.acceptors m.dest).HasAgreed m.instanceID pid

/-- Either no counted reply comes from an acceptor that had accepted a proposal, or the completing one passes the leader's test and reports the greatest proposal that any of them does. -/
def World.ChoiceSound (w : World V) (m : Message V) : Prop :=
  let replies := m :: countedReplies w.log m.dest .acceptorAgree m.instanceID m.proposalID
  (∀ r ∈ replies, reported r.source m.instanceID m.proposalID w.log = none) ∨
    ((∀ protocol, (w.leaders m.dest).protocolAt m.instanceID m.proposalID = some protocol →
        protocol.adopts m) ∧
      ∀ r ∈ replies,
        notAbove (reported r.source m.instanceID m.proposalID w.log)
          (reported m.source m.instanceID m.proposalID w.log))

/-- Neither defect decides the outcome of the step. -/
def SoundStep (w : World V) : Action V → Prop
  | .deliver m => (w.Accepts m → w.AcceptSound m) ∧ (w.Completes m → w.ChoiceSound m)
  | _ => True

end Reading.Paxos
