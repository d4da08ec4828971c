import Reading.Lib.Quorum
import Reading.Paxos.Moves

/-!
# What a leader has heard

The bookkeeping of messages: nothing is in flight or counted that was not sent, no two messages of the protocol have the same kind, proposal, sender and addressee, and so each acceptor is counted at most once for a proposal. From there a leader that records a value has heard from a quorum of acceptors that accepted it, whether the leader drove the proposal or only listened in, and whatever protocols it has forgotten since.

None of this depends on the two defects, so the moves are taken with `Sound` arbitrary.
-/

namespace Reading.Paxos

variable {V : Type}

/-! ### The parts of a world after a move -/

section Frame

variable (w : World V) (l : Port) (a : Port) (m : Message V)
  (lout : Outcome (PaxosLeader V) V) (aout : Outcome (PaxosAcceptor V) V)

@[simp] theorem leaderDone_leaders :
    (w.leaderDone l lout).leaders = Function.update w.leaders l lout.node := rfl
@[simp] theorem leaderDone_acceptors : (w.leaderDone l lout).acceptors = w.acceptors := rfl
@[simp] theorem leaderDone_net : (w.leaderDone l lout).net = w.net ++ lout.sent := rfl
@[simp] theorem leaderDone_sent : (w.leaderDone l lout).sent = w.sent ++ lout.sent := rfl
@[simp] theorem leaderDone_log : (w.leaderDone l lout).log = lout.events ++ w.log := rfl

@[simp] theorem acceptorDone_leaders : (w.acceptorDone a aout).leaders = w.leaders := rfl
@[simp] theorem acceptorDone_acceptors :
    (w.acceptorDone a aout).acceptors = Function.update w.acceptors a aout.node := rfl
@[simp] theorem acceptorDone_net : (w.acceptorDone a aout).net = w.net ++ aout.sent := rfl
@[simp] theorem acceptorDone_sent : (w.acceptorDone a aout).sent = w.sent ++ aout.sent := rfl
@[simp] theorem acceptorDone_log : (w.acceptorDone a aout).log = aout.events ++ w.log := rfl

variable [DecidableEq V]

@[simp] theorem consume_leaders : (w.consume m).leaders = w.leaders := rfl
@[simp] theorem consume_acceptors : (w.consume m).acceptors = w.acceptors := rfl
@[simp] theorem consume_net : (w.consume m).net = w.net.erase m := rfl
@[simp] theorem consume_sent : (w.consume m).sent = w.sent := rfl
@[simp] theorem consume_log : (w.consume m).log = w.log := rfl

end Frame

/-! ### Counted messages -/

/-- What tells two messages of the protocol apart. -/
def Message.key (m : Message V) : Command × Int × ProposalID × Port × Port :=
  (m.command, m.instanceID, m.proposalID, m.source, m.dest)

/-- Every message a leader has counted. -/
def countedMessages (log : List (Event V)) : List (Message V) :=
  log.filterMap fun
    | .counted _ m => some m
    | _ => none

@[simp] theorem countedMessages_counted (l : Port) (m : Message V) (log : List (Event V)) :
    countedMessages (.counted l m :: log) = m :: countedMessages log := rfl

theorem countedReplies_counted (l l' : Port) (command : Command) (i : Int) (pid : ProposalID)
    (m : Message V) (log : List (Event V)) :
    countedReplies (.counted l' m :: log) l command i pid =
      if l' = l ∧ m.command = command ∧ m.instanceID = i ∧ m.proposalID = pid then
        m :: countedReplies log l command i pid
      else countedReplies log l command i pid := by
  by_cases h : l' = l ∧ m.command = command ∧ m.instanceID = i ∧ m.proposalID = pid
  · simp [countedReplies, h]
  · simp [countedReplies, h]

theorem countedReplies_cons {e : Event V} (he : ∀ l m, e ≠ .counted l m) (l : Port)
    (command : Command) (i : Int) (pid : ProposalID) (log : List (Event V)) :
    countedReplies (e :: log) l command i pid = countedReplies log l command i pid := by
  cases e with
  | counted l m => exact absurd rfl (he l m)
  | _ => rfl

theorem mem_countedReplies {log : List (Event V)} {l : Port} {command : Command} {i : Int}
    {pid : ProposalID} {m : Message V} :
    m ∈ countedReplies log l command i pid ↔
      .counted l m ∈ log ∧ m.command = command ∧ m.instanceID = i ∧ m.proposalID = pid := by
  induction log with
  | nil => simp [countedReplies]
  | cons e log ih =>
    cases e with
    | counted l' m' =>
      rw [countedReplies_counted]
      split
      next h =>
        obtain ⟨rfl, hrest⟩ := h
        simp only [List.mem_cons, ih, Event.counted.injEq, true_and]
        constructor
        · rintro (rfl | h)
          · exact ⟨Or.inl rfl, hrest⟩
          · exact ⟨Or.inr h.1, h.2⟩
        · rintro ⟨rfl | h, hm⟩
          · exact Or.inl rfl
          · exact Or.inr ⟨h, hm⟩
      next h =>
        simp only [ih, List.mem_cons, Event.counted.injEq]
        constructor
        · exact fun hm => ⟨Or.inr hm.1, hm.2⟩
        · rintro ⟨⟨rfl, rfl⟩ | hlog, hm⟩
          · exact absurd ⟨rfl, hm⟩ h
          · exact ⟨hlog, hm⟩
    | _ => simp [countedReplies_cons, ih]

theorem countedReplies_sublist (log : List (Event V)) (l : Port) (command : Command) (i : Int)
    (pid : ProposalID) : (countedReplies log l command i pid).Sublist (countedMessages log) := by
  induction log with
  | nil => simp [countedReplies]
  | cons e log ih =>
    cases e with
    | counted l' m =>
      rw [countedReplies_counted, countedMessages_counted]
      split
      · exact ih.cons_cons m
      · exact ih.cons m
    | _ => exact ih

/-- The messages of the protocol proper among those in flight. -/
def inFlight (net : List (Message V)) : List (Message V) := net.filter fun m => decide m.IsProtocol

theorem mem_inFlight {net : List (Message V)} {m : Message V} :
    m ∈ inFlight net ↔ m ∈ net ∧ m.IsProtocol := by
  simp [inFlight]

theorem inFlight_append_of_protocol (net : List (Message V)) {sent : List (Message V)}
    (hsent : ∀ m ∈ sent, m.IsProtocol) : inFlight (net ++ sent) = inFlight net ++ sent := by
  have hall : sent.filter (fun m => decide m.IsProtocol) = sent :=
    List.filter_eq_self.mpr fun m hm => by simpa using hsent m hm
  rw [inFlight, List.filter_append, hall, inFlight]

theorem inFlight_erase_sublist [DecidableEq V] (net : List (Message V)) (m : Message V) :
    (inFlight (net.erase m)).Sublist (inFlight net) :=
  List.erase_sublist.filter _

theorem inFlight_perm_erase [DecidableEq V] {net : List (Message V)} {m : Message V}
    (hm : m ∈ net) (hprotocol : m.IsProtocol) :
    (inFlight net).Perm (m :: inFlight (net.erase m)) := by
  have hperm := (List.perm_cons_erase hm).filter fun m => decide m.IsProtocol
  rwa [List.filter_cons_of_pos (by simpa using hprotocol)] at hperm

/-! ### The invariant -/

/-- What is known about the messages of the protocol in every state. -/
structure Delivery (cfg : Config) (w : World V) : Prop where
  leader : ∀ l, (w.leaders l).port = l ∧ (w.leaders l).acceptors = cfg.acceptors
  acceptor : ∀ a, (w.acceptors a).port = a ∧ (w.acceptors a).leaders = cfg.leaders
  /-- No two messages were sent with the same key. -/
  keys : (w.sent.map Message.key).Nodup
  /-- What is in flight or counted was sent, each message at most once. -/
  flight : (inFlight w.net ++ countedMessages w.log).Subperm w.sent
  countedBy : ∀ l m, .counted l m ∈ w.log → m.dest = l
  /-- No proposal number beyond its leader's counter is in use. -/
  sentNumber : ∀ m ∈ w.sent, m.proposalID.2 ≤ (w.leaders m.proposalID.1).proposalCount
  choseNumber : ∀ i pid v, .chose i pid v ∈ w.log → pid.2 ≤ (w.leaders pid.1).proposalCount
  protocolNumber : ∀ a i pid p, (w.acceptors a).protocolAt i pid = some p →
    pid.2 ≤ (w.leaders pid.1).proposalCount
  /-- An acceptor that knows a proposal has no further `MSG_PROPOSE` of it to come. -/
  opened : ∀ a i pid p, (w.acceptors a).protocolAt i pid = some p → ∀ m ∈ w.net,
    m.command = .propose → m.dest = a → m.instanceID = i → m.proposalID ≠ pid
  proposeSent : ∀ m ∈ w.sent, m.command = .propose → m.source = m.proposalID.1
  agreeSent : ∀ m ∈ w.sent, m.command = .acceptorAgree →
    m.source ∈ cfg.acceptors ∧ (w.acceptors m.source).HasAgreed m.instanceID m.proposalID
  acceptSent : ∀ m ∈ w.sent, m.command = .accept →
    .chose m.instanceID m.proposalID m.value ∈ w.log
  noticeSent : ∀ m ∈ w.sent, m.command = .acceptorAccept →
    m.source ∈ cfg.acceptors ∧ (w.acceptors m.source).HasAccepted m.instanceID m.proposalID ∧
      .accepted m.source m.instanceID m.proposalID m.value ∈ w.log
  /-- A proposal asks for one value only. -/
  choseOnce : ∀ i pid v v', .chose i pid v ∈ w.log → .chose i pid v' ∈ w.log → v = v'
  /-- A proposal still collecting agreement is its leader's own and has not asked for acceptance. -/
  proposed : ∀ l i pid p, (w.leaders l).protocolAt i pid = some p → p.state = .proposed →
    pid.1 = l ∧ ∀ v, .chose i pid v ∉ w.log
  acceptedChose : ∀ a i pid v, .accepted a i pid v ∈ w.log → .chose i pid v ∈ w.log
  /-- A protocol counts no more replies than its leader has counted for the proposal. -/
  counts : ∀ l i pid p, (w.leaders l).protocolAt i pid = some p →
    p.agreecount ≤ (countedReplies w.log l .acceptorAgree i pid).length ∧
      p.acceptcount ≤ (countedReplies w.log l .acceptorAccept i pid).length
  /-- A recorded value was accepted by a quorum. -/
  recorded : ∀ l i pid v, .recorded l i pid v ∈ w.log →
    ∃ Q, IsQuorum cfg.acceptors Q ∧ ∀ a ∈ Q, .accepted a i pid v ∈ w.log

theorem delivery_init (cfg : Config) : Delivery cfg (World.init cfg : World V) := by
  constructor <;> simp only [World.init, countedMessages, inFlight, PaxosAcceptor.protocolAt, PaxosLeader.protocolAt,
    Option.bind_none, List.not_mem_nil, List.map_nil, List.nodup_nil, List.filter_nil, List.filterMap_nil, List.append_nil,
    reduceCtorEq, false_implies, implies_true, and_self, List.Subperm.refl]

namespace Delivery

variable {cfg : Config} {w : World V}

theorem sent_of_net (h : Delivery cfg w) {m : Message V} (hm : m ∈ w.net)
    (hprotocol : m.IsProtocol) : m ∈ w.sent :=
  h.flight.subset (List.mem_append_left _ (mem_inFlight.mpr ⟨hm, hprotocol⟩))

theorem sent_of_reply (h : Delivery cfg w) {l : Port} {command : Command} {i : Int}
    {pid : ProposalID} {m : Message V} (hm : m ∈ countedReplies w.log l command i pid) :
    m ∈ w.sent :=
  h.flight.subset (List.mem_append_right _ ((countedReplies_sublist ..).subset hm))

theorem eq_of_key (h : Delivery cfg w) {m m' : Message V} (hm : m ∈ w.sent) (hm' : m' ∈ w.sent)
    (hkey : m.key = m'.key) : m = m' :=
  List.inj_on_of_nodup_map h.keys hm hm' hkey

/-- The replies counted for a proposal, with the one about to be counted, come from different acceptors. -/
theorem sources_nodup [DecidableEq V] (h : Delivery cfg w) {m : Message V} (hm : m ∈ w.net)
    (hprotocol : m.IsProtocol) :
    ((m :: countedReplies w.log m.dest m.command m.instanceID m.proposalID).map
      Message.source).Nodup := by
  set replies := m :: countedReplies w.log m.dest m.command m.instanceID m.proposalID with hreplies
  have hsub : replies.Subperm w.sent := by
    have hfirst : ([m] ++ countedMessages w.log).Subperm
        (inFlight w.net ++ countedMessages w.log) :=
      ((List.singleton_sublist.mpr (mem_inFlight.mpr ⟨hm, hprotocol⟩)).append_right _).subperm
    exact ((countedReplies_sublist ..).cons_cons m).subperm.trans (hfirst.trans h.flight)
  have hkeys : (replies.map Message.key).Nodup := by
    obtain ⟨l, hperm, hl⟩ := hsub
    exact (hperm.map _).nodup_iff.mp ((hl.map _).nodup h.keys)
  have hshape : ∀ r ∈ replies, r.key = (m.command, m.instanceID, m.proposalID, r.source, m.dest) := by
    intro r hr
    rcases List.mem_cons.mp hr with rfl | hr
    · rfl
    · obtain ⟨hlog, hcommand, hi, hpid⟩ := mem_countedReplies.mp hr
      simp [Message.key, hcommand, hi, hpid, h.countedBy _ _ hlog]
  have hmap : replies.map Message.key =
      (replies.map Message.source).map
        fun source => (m.command, m.instanceID, m.proposalID, source, m.dest) := by
    rw [List.map_map]
    exact List.map_congr_left fun r hr => hshape r hr
  rw [hmap] at hkeys
  exact List.Nodup.of_map _ hkeys

/-! ### Changes to one part of the world

A move changes a node, appends messages, and appends events. Each of the three keeps the invariant under a condition of its own, and the moves are put together from them. -/

/-- A leader's protocol is accounted for: an open proposal is its own and still open, and it counts no reply the leader has not counted. -/
def Accounted (w : World V) (l : Port) (i : Int) (pid : ProposalID)
    (p : PaxosLeaderProtocol V) : Prop :=
  (p.state = .proposed → pid.1 = l ∧ ∀ v, .chose i pid v ∉ w.log) ∧
    p.agreecount ≤ (countedReplies w.log l .acceptorAgree i pid).length ∧
    p.acceptcount ≤ (countedReplies w.log l .acceptorAccept i pid).length

theorem accounted (h : Delivery cfg w) {l : Port} {i : Int} {pid : ProposalID}
    {p : PaxosLeaderProtocol V} (hp : (w.leaders l).protocolAt i pid = some p) :
    Accounted w l i pid p :=
  ⟨h.proposed l i pid p hp, h.counts l i pid p hp⟩

theorem setLeader (h : Delivery cfg w) {l : Port} {ld : PaxosLeader V}
    (hport : ld.port = (w.leaders l).port) (hacceptors : ld.acceptors = (w.leaders l).acceptors)
    (hcount : (w.leaders l).proposalCount ≤ ld.proposalCount)
    (hprotocol : ∀ i pid p, ld.protocolAt i pid = some p → Accounted w l i pid p) :
    Delivery cfg { w with leaders := Function.update w.leaders l ld } := by
  have hmono : ∀ k, (w.leaders k).proposalCount ≤
      (Function.update w.leaders l ld k).proposalCount := by
    intro k
    rcases eq_or_ne k l with rfl | hk
    · simpa using hcount
    · simp [hk]
  have hall : ∀ k i pid p, (Function.update w.leaders l ld k).protocolAt i pid = some p →
      Accounted w k i pid p := by
    intro k i pid p hp
    rcases eq_or_ne k l with rfl | hk
    · exact hprotocol i pid p (by simpa using hp)
    · exact h.accounted (by simpa [hk] using hp)
  exact
    { h with
      leader := by
        intro k
        rcases eq_or_ne k l with rfl | hk
        · simpa [hport, hacceptors] using h.leader k
        · simpa [hk] using h.leader k
      sentNumber := fun m hm => (h.sentNumber m hm).trans (hmono _)
      choseNumber := fun i pid v hv => (h.choseNumber i pid v hv).trans (hmono _)
      protocolNumber := fun a i pid p hp => (h.protocolNumber a i pid p hp).trans (hmono _)
      proposed := fun k i pid p hp => (hall k i pid p hp).1
      counts := fun k i pid p hp => (hall k i pid p hp).2 }

/-- Replacing one protocol of a leader. -/
theorem setLeaderProtocol (h : Delivery cfg w) {l : Port} {ld : PaxosLeader V} {i : Int}
    {pid : ProposalID} {p : PaxosLeaderProtocol V} (hsets : LeaderSets (w.leaders l) ld i pid p)
    (hcount : (w.leaders l).proposalCount ≤ ld.proposalCount) (hp : Accounted w l i pid p) :
    Delivery cfg { w with leaders := Function.update w.leaders l ld } := by
  refine h.setLeader hsets.port hsets.acceptors hcount ?_
  intro j q p' hp'
  rw [hsets.protocol] at hp'
  by_cases hjq : j = i ∧ q = pid
  · rw [if_pos hjq] at hp'
    obtain ⟨rfl, rfl⟩ := hjq
    obtain rfl := Option.some.inj hp'
    exact hp
  · rw [if_neg hjq] at hp'
    exact h.accounted hp'

theorem setAcceptor (h : Delivery cfg w) {a : Port} {ac : PaxosAcceptor V} {i : Int}
    {pid : ProposalID} {p : PaxosAcceptorProtocol} (hsets : AcceptorSets (w.acceptors a) ac i pid p)
    (hnumber : pid.2 ≤ (w.leaders pid.1).proposalCount)
    (hopened : ∀ m ∈ w.net, m.command = .propose → m.dest = a → m.instanceID = i →
      m.proposalID ≠ pid)
    (hagreed : (w.acceptors a).HasAgreed i pid →
      p.state = .proposalAgreed ∨ p.state = .proposalAccepted)
    (haccepted : (w.acceptors a).HasAccepted i pid → p.state = .proposalAccepted) :
    Delivery cfg { w with acceptors := Function.update w.acceptors a ac } := by
  have hat : ∀ k j q p', (Function.update w.acceptors a ac k).protocolAt j q = some p' →
      (k = a ∧ j = i ∧ q = pid ∧ p' = p) ∨ (w.acceptors k).protocolAt j q = some p' := by
    intro k j q p' hp'
    rcases eq_or_ne k a with rfl | hk
    · rw [Function.update_self, hsets.protocol] at hp'
      split at hp'
      next hjq => exact Or.inl ⟨rfl, hjq.1, hjq.2, (Option.some.inj hp').symm⟩
      next => exact Or.inr hp'
    · exact Or.inr (by simpa [hk] using hp')
  have hback : ∀ k j q p', (w.acceptors k).protocolAt j q = some p' →
      (k = a ∧ j = i ∧ q = pid ∧ (Function.update w.acceptors a ac k).protocolAt j q = some p) ∨
        (Function.update w.acceptors a ac k).protocolAt j q = some p' := by
    intro k j q p' hp'
    rcases eq_or_ne k a with rfl | hk
    · rw [Function.update_self, hsets.protocol]
      by_cases hjq : j = i ∧ q = pid
      · exact Or.inl ⟨rfl, hjq.1, hjq.2, if_pos hjq⟩
      · exact Or.inr ((if_neg hjq).trans hp')
    · exact Or.inr (by simpa [hk] using hp')
  refine { h with acceptor := ?_, protocolNumber := ?_, opened := ?_, agreeSent := ?_, noticeSent := ?_ }
  · intro k
    rcases eq_or_ne k a with rfl | hk
    · simpa [hsets.port, hsets.leaders] using h.acceptor k
    · simpa [hk] using h.acceptor k
  · intro k j q p' hp'
    rcases hat k j q p' hp' with ⟨rfl, rfl, rfl, rfl⟩ | hp'
    · exact hnumber
    · exact h.protocolNumber k j q p' hp'
  · intro k j q p' hp'
    rcases hat k j q p' hp' with ⟨rfl, rfl, rfl, rfl⟩ | hp'
    · exact hopened
    · exact h.opened k j q p' hp'
  · intro m hm hcommand
    obtain ⟨hsource, p', hp', hstate⟩ := h.agreeSent m hm hcommand
    refine ⟨hsource, ?_⟩
    rcases hback _ _ _ p' hp' with ⟨rfl, rfl, rfl, hnew⟩ | hnew
    · exact ⟨p, hnew, hagreed ⟨p', hp', hstate⟩⟩
    · exact ⟨p', hnew, hstate⟩
  · intro m hm hcommand
    obtain ⟨hsource, ⟨p', hp', hstate⟩, hlog⟩ := h.noticeSent m hm hcommand
    refine ⟨hsource, ?_, hlog⟩
    rcases hback _ _ _ p' hp' with ⟨rfl, rfl, rfl, hnew⟩ | hnew
    · exact ⟨p, hnew, haccepted ⟨p', hp', hstate⟩⟩
    · exact ⟨p', hnew, hstate⟩

/-- What has to be known of a message for a node to send it. -/
structure Sendable (cfg : Config) (w : World V) (m : Message V) : Prop where
  protocol : m.IsProtocol
  fresh : ∀ m' ∈ w.sent, m'.key ≠ m.key
  number : m.proposalID.2 ≤ (w.leaders m.proposalID.1).proposalCount
  opened : m.command = .propose →
    m.source = m.proposalID.1 ∧
      (w.acceptors m.dest).protocolAt m.instanceID m.proposalID = none
  agreed : m.command = .acceptorAgree →
    m.source ∈ cfg.acceptors ∧ (w.acceptors m.source).HasAgreed m.instanceID m.proposalID
  chose : m.command = .accept → .chose m.instanceID m.proposalID m.value ∈ w.log
  accepted : m.command = .acceptorAccept →
    m.source ∈ cfg.acceptors ∧ (w.acceptors m.source).HasAccepted m.instanceID m.proposalID ∧
      .accepted m.source m.instanceID m.proposalID m.value ∈ w.log

theorem send (h : Delivery cfg w) {new : List (Message V)} (hkeys : (new.map Message.key).Nodup)
    (hnew : ∀ m ∈ new, Sendable cfg w m) :
    Delivery cfg { w with net := w.net ++ new, sent := w.sent ++ new } := by
  have hboth : ∀ {P : Message V → Prop}, (∀ m ∈ w.sent, P m) → (∀ m ∈ new, P m) →
      ∀ m ∈ w.sent ++ new, P m := by
    intro P hold hfresh m hm
    rcases List.mem_append.mp hm with hm | hm
    · exact hold m hm
    · exact hfresh m hm
  refine
    { h with
      keys := ?_, flight := ?_, opened := ?_
      sentNumber := hboth h.sentNumber fun m hm => (hnew m hm).number
      proposeSent := hboth h.proposeSent fun m hm hc => ((hnew m hm).opened hc).1
      agreeSent := hboth h.agreeSent fun m hm => (hnew m hm).agreed
      acceptSent := hboth h.acceptSent fun m hm => (hnew m hm).chose
      noticeSent := hboth h.noticeSent fun m hm => (hnew m hm).accepted }
  · rw [List.map_append, List.nodup_append]
    refine ⟨h.keys, hkeys, ?_⟩
    intro k hk k' hk'
    obtain ⟨m, hm, rfl⟩ := List.mem_map.mp hk
    obtain ⟨m', hm', rfl⟩ := List.mem_map.mp hk'
    exact (hnew m' hm').fresh m hm
  · rw [inFlight_append_of_protocol w.net fun m hm => (hnew m hm).protocol, List.append_assoc]
    have hswap : (inFlight w.net ++ (new ++ countedMessages w.log)).Perm
        ((inFlight w.net ++ countedMessages w.log) ++ new) := by
      rw [List.append_assoc]
      exact List.Perm.append_left _ List.perm_append_comm
    exact hswap.subperm.trans ((List.subperm_append_right new).mpr h.flight)
  · intro a i pid p hp m hm hcommand hdest hi hpid
    rcases List.mem_append.mp hm with hm | hm
    · exact h.opened a i pid p hp m hm hcommand hdest hi hpid
    · have hnone := ((hnew m hm).opened hcommand).2
      rw [hdest, hi, hpid, hp] at hnone
      exact Option.some_ne_none p hnone

/-- The message `m` is taken from the network and counted. -/
theorem tally [DecidableEq V] (h : Delivery cfg w) {m : Message V} (hm : m ∈ w.net)
    (hprotocol : m.IsProtocol) :
    Delivery cfg { w.consume m with log := .counted m.dest m :: w.log } := by
  have hgrow : ∀ l command i pid, (countedReplies w.log l command i pid).length ≤
      (countedReplies (.counted m.dest m :: w.log) l command i pid).length := by
    intro l command i pid
    rw [countedReplies_counted]
    split
    · exact Nat.le_succ _
    · exact le_rfl
  refine
    { h with
      flight := ?_, countedBy := ?_, choseNumber := by simpa only [World.consume, List.mem_cons, reduceCtorEq, false_or] using h.choseNumber
      opened := fun a i pid p hp m' hm' => h.opened a i pid p hp m' (List.mem_of_mem_erase hm')
      acceptSent := by simpa only [World.consume, List.mem_cons, reduceCtorEq, false_or] using h.acceptSent
      noticeSent := by simpa only [World.consume, List.mem_cons, reduceCtorEq, false_or] using h.noticeSent
      choseOnce := by simpa only [List.mem_cons, reduceCtorEq, false_or] using h.choseOnce
      proposed := by simpa only [World.consume, List.mem_cons, reduceCtorEq, false_or] using h.proposed
      acceptedChose := by simpa only [List.mem_cons, reduceCtorEq, false_or] using h.acceptedChose
      counts := fun l i pid p hp =>
        ⟨(h.counts l i pid p hp).1.trans (hgrow _ _ _ _),
          (h.counts l i pid p hp).2.trans (hgrow _ _ _ _)⟩
      recorded := by simpa only [List.mem_cons, reduceCtorEq, false_or] using h.recorded }
  · have hperm : (inFlight (w.net.erase m) ++ m :: countedMessages w.log).Perm
        (inFlight w.net ++ countedMessages w.log) :=
      List.perm_middle.trans ((inFlight_perm_erase hm hprotocol).symm.append_right _)
    exact hperm.subperm.trans h.flight
  · intro l m' hm'
    rcases List.mem_cons.mp hm' with heq | hm'
    · obtain ⟨rfl, rfl⟩ := Event.counted.inj heq
      rfl
    · exact h.countedBy l m' hm'

/-- A leader notes that it asks for the value `v`. -/
theorem noteChose (h : Delivery cfg w) {i : Int} {pid : ProposalID} {v : Option V}
    (hnumber : pid.2 ≤ (w.leaders pid.1).proposalCount) (hfresh : ∀ u, .chose i pid u ∉ w.log)
    (hproposed : ∀ l p, (w.leaders l).protocolAt i pid = some p → p.state ≠ .proposed) :
    Delivery cfg { w with log := .chose i pid v :: w.log } := by
  refine
    { h with
      flight := h.flight
      countedBy := by simpa only [List.mem_cons, reduceCtorEq, false_or] using h.countedBy
      choseNumber := ?_
      acceptSent := fun m hm hc => List.mem_cons_of_mem _ (h.acceptSent m hm hc)
      noticeSent := by simpa only [List.mem_cons, reduceCtorEq, false_or] using h.noticeSent
      choseOnce := ?_, proposed := ?_
      acceptedChose := fun a j q u hu =>
        List.mem_cons_of_mem _ (h.acceptedChose a j q u (by simpa using hu))
      counts := h.counts
      recorded := by simpa only [List.mem_cons, reduceCtorEq, false_or] using h.recorded }
  · intro j q u hu
    rcases List.mem_cons.mp hu with heq | hu
    · obtain ⟨rfl, rfl, rfl⟩ := Event.chose.inj heq
      exact hnumber
    · exact h.choseNumber j q u hu
  · intro j q u u' hu hu'
    rcases List.mem_cons.mp hu with heq | hold <;> rcases List.mem_cons.mp hu' with heq' | hold'
    · rw [(Event.chose.inj heq).2.2, (Event.chose.inj heq').2.2]
    · obtain ⟨rfl, rfl, rfl⟩ := Event.chose.inj heq
      exact absurd hold' (hfresh u')
    · obtain ⟨rfl, rfl, rfl⟩ := Event.chose.inj heq'
      exact absurd hold (hfresh u)
    · exact h.choseOnce j q u u' hold hold'
  · intro l j q p hp hstate
    obtain ⟨hl, hnone⟩ := h.proposed l j q p hp hstate
    refine ⟨hl, fun u hu => ?_⟩
    rcases List.mem_cons.mp hu with heq | hu
    · obtain ⟨rfl, rfl, rfl⟩ := Event.chose.inj heq
      exact hproposed l p hp hstate
    · exact hnone u hu

/-- A leader notes that it records a value, which a quorum has accepted. -/
theorem noteRecorded (h : Delivery cfg w) {l : Port} {i : Int} {pid : ProposalID} {v : Option V}
    (hquorum : ∃ Q, IsQuorum cfg.acceptors Q ∧ ∀ a ∈ Q, .accepted a i pid v ∈ w.log) :
    Delivery cfg { w with log := .recorded l i pid v :: w.log } := by
  refine
    { h with
      flight := h.flight
      countedBy := by simpa only [List.mem_cons, reduceCtorEq, false_or] using h.countedBy
      choseNumber := by simpa only [List.mem_cons, reduceCtorEq, false_or] using h.choseNumber
      acceptSent := by simpa only [List.mem_cons, reduceCtorEq, false_or] using h.acceptSent
      noticeSent := by simpa only [List.mem_cons, reduceCtorEq, false_or] using h.noticeSent
      choseOnce := by simpa only [List.mem_cons, reduceCtorEq, false_or] using h.choseOnce
      proposed := by simpa only [List.mem_cons, reduceCtorEq, false_or] using h.proposed
      acceptedChose := by simpa only [List.mem_cons, reduceCtorEq, false_or] using h.acceptedChose
      counts := h.counts
      recorded := ?_ }
  intro l' j q u hu
  rcases List.mem_cons.mp hu with heq | hu
  · obtain ⟨rfl, rfl, rfl, rfl⟩ := Event.recorded.inj heq
    simpa using hquorum
  · simpa using h.recorded l' j q u hu

/-- An acceptor notes that it agrees to a proposal. -/
theorem noteAgreed (h : Delivery cfg w) (a : Port) (i : Int) (pid : ProposalID) :
    Delivery cfg { w with log := .agreed a i pid :: w.log } :=
  { h with
    flight := h.flight
    countedBy := by simpa only [List.mem_cons, reduceCtorEq, false_or] using h.countedBy
    choseNumber := by simpa only [List.mem_cons, reduceCtorEq, false_or] using h.choseNumber
    acceptSent := by simpa only [List.mem_cons, reduceCtorEq, false_or] using h.acceptSent
    noticeSent := by simpa only [List.mem_cons, reduceCtorEq, false_or] using h.noticeSent
    choseOnce := by simpa only [List.mem_cons, reduceCtorEq, false_or] using h.choseOnce
    proposed := by simpa only [List.mem_cons, reduceCtorEq, false_or] using h.proposed
    acceptedChose := by simpa only [List.mem_cons, reduceCtorEq, false_or] using h.acceptedChose
    counts := h.counts
    recorded := by simpa only [List.mem_cons, reduceCtorEq, false_or] using h.recorded }

/-- An acceptor notes that it accepts a value some leader has asked for. -/
theorem noteAccepted (h : Delivery cfg w) {a : Port} {i : Int} {pid : ProposalID} {v : Option V}
    (hchose : .chose i pid v ∈ w.log) :
    Delivery cfg { w with log := .accepted a i pid v :: w.log } := by
  refine
    { h with
      flight := h.flight
      countedBy := by simpa only [List.mem_cons, reduceCtorEq, false_or] using h.countedBy
      choseNumber := by simpa only [List.mem_cons, reduceCtorEq, false_or] using h.choseNumber
      acceptSent := by simpa only [List.mem_cons, reduceCtorEq, false_or] using h.acceptSent
      noticeSent := ?_
      choseOnce := by simpa only [List.mem_cons, reduceCtorEq, false_or] using h.choseOnce
      proposed := by simpa only [List.mem_cons, reduceCtorEq, false_or] using h.proposed
      acceptedChose := ?_
      counts := h.counts
      recorded := ?_ }
  · intro m hm hcommand
    obtain ⟨hsource, haccepted, hlog⟩ := h.noticeSent m hm hcommand
    exact ⟨hsource, haccepted, List.mem_cons_of_mem _ hlog⟩
  · intro b j q u hu
    rcases List.mem_cons.mp hu with heq | hu
    · obtain ⟨rfl, rfl, rfl, rfl⟩ := Event.accepted.inj heq
      exact List.mem_cons_of_mem _ hchose
    · exact List.mem_cons_of_mem _ (h.acceptedChose b j q u hu)
  · intro l j q u hu
    obtain ⟨Q, hQ, hall⟩ := h.recorded l j q u (by simpa using hu)
    exact ⟨Q, hQ, fun b hb => List.mem_cons_of_mem _ (hall b hb)⟩

/-! ### Every move keeps the invariant -/

theorem consume [DecidableEq V] (h : Delivery cfg w) (m : Message V) :
    Delivery cfg (w.consume m) :=
  { h with
    flight := ((inFlight_erase_sublist w.net m).append_right _).subperm.trans h.flight
    opened := fun a i pid p hp m' hm' => h.opened a i pid p hp m' (List.mem_of_mem_erase hm') }

theorem inject (h : Delivery cfg w) (m : Message V) (hm : ¬ m.IsProtocol) :
    Delivery cfg { w with net := w.net ++ [m] } :=
  { h with
    flight := by
      have hnet : inFlight (w.net ++ [m]) = inFlight w.net := by simp [inFlight, hm]
      simpa only [hnet] using h.flight
    opened := by
      intro a i pid p hp m' hm' hcommand
      rcases List.mem_append.mp hm' with hm' | hm'
      · exact h.opened a i pid p hp m' hm' hcommand
      · rw [List.mem_singleton.mp hm'] at hcommand
        exact absurd ⟨by simp [hcommand], by simp [hcommand]⟩ hm }

theorem leaderQuiet (h : Delivery cfg w) {l : Port} {ld : PaxosLeader V}
    (hquiet : LeaderQuiet (w.leaders l) ld) : Delivery cfg (w.leaderDone l { node := ld }) := by
  have hset : Delivery cfg { w with leaders := Function.update w.leaders l ld } := by
    refine h.setLeader hquiet.port hquiet.acceptors hquiet.count ?_
    intro i pid p' hp'
    rcases hquiet.protocol i pid p' hp' with ⟨hne, hagree, haccept⟩ | ⟨p, hp, hagree, haccept, -, hback⟩
    · exact ⟨fun hstate => absurd hstate hne, by simp [hagree], by simp [haccept]⟩
    · obtain ⟨hproposed, hcounts⟩ := h.accounted hp
      exact ⟨fun hstate => hproposed (hback hstate), hagree ▸ hcounts.1, haccept ▸ hcounts.2⟩
  simpa [World.leaderDone] using hset

theorem acceptorQuiet (h : Delivery cfg w) {a : Port} {ac : PaxosAcceptor V}
    (hport : ac.port = (w.acceptors a).port) (hleaders : ac.leaders = (w.acceptors a).leaders)
    (hinstances : ac.instances = (w.acceptors a).instances) :
    Delivery cfg (w.acceptorDone a { node := ac }) := by
  have hprotocol : ∀ k i pid, (Function.update w.acceptors a ac k).protocolAt i pid =
      (w.acceptors k).protocolAt i pid := by
    intro k i pid
    rcases eq_or_ne k a with rfl | hk
    · simp [PaxosAcceptor.protocolAt, hinstances]
    · simp [hk]
  have hworld : w.acceptorDone a { node := ac } =
      { w with acceptors := Function.update w.acceptors a ac } := by simp [World.acceptorDone]
  rw [hworld]
  exact
    { h with
      acceptor := by
        intro k
        rcases eq_or_ne k a with rfl | hk
        · simpa [hport, hleaders] using h.acceptor k
        · simpa [hk] using h.acceptor k
      protocolNumber := fun k i pid p hp => h.protocolNumber k i pid p (by rwa [hprotocol] at hp)
      opened := fun k i pid p hp => h.opened k i pid p (by rwa [hprotocol] at hp)
      agreeSent := by simpa only [PaxosAcceptor.HasAgreed, hprotocol] using h.agreeSent
      noticeSent := by simpa only [PaxosAcceptor.HasAccepted, hprotocol] using h.noticeSent }

/-- Messages that differ in their addressee only have different keys. -/
private theorem keys_map_dest {ports : List Port} (hports : ports.Nodup) (f : Port → Message V)
    (hf : ∀ p, (f p).dest = p) : ((ports.map f).map Message.key).Nodup := by
  rw [List.map_map]
  refine hports.map fun p q hpq => ?_
  have hdest := congrArg (fun k => k.2.2.2.2) hpq
  simpa [Message.key, hf] using hdest

theorem propose (h : Delivery cfg w) {l : Port} {ld : PaxosLeader V} {i : Int} {value : Option V}
    {p : PaxosLeaderProtocol V}
    (hsets : LeaderSets (w.leaders l) ld i ((w.leaders l).port, (w.leaders l).proposalCount + 1) p)
    (hcount : ld.proposalCount = (w.leaders l).proposalCount + 1)
    (hp : p.state = .proposed ∧ p.agreecount = 0 ∧ p.acceptcount = 0) :
    Delivery cfg (w.leaderDone l
      { node := ld
        sent := proposals (w.leaders l).acceptors (w.leaders l).port
          ((w.leaders l).port, (w.leaders l).proposalCount + 1) i value }) := by
  obtain ⟨hport, hacceptors⟩ := h.leader l
  rw [hport] at hsets
  rw [hport, hacceptors]
  set pid : ProposalID := (l, (w.leaders l).proposalCount + 1) with hpid
  -- the new number is beyond everything in use
  have hfresh : ∀ q : ProposalID, q.2 ≤ (w.leaders q.1).proposalCount → q ≠ pid := by
    intro q hq hqp
    rw [hqp, hpid] at hq
    dsimp only at hq
    omega
  have hset : Delivery cfg { w with leaders := Function.update w.leaders l ld } := by
    refine h.setLeaderProtocol hsets (by omega) ⟨fun _ => ⟨rfl, ?_⟩, ?_, ?_⟩
    · exact fun v hv => hfresh _ (h.choseNumber _ _ v hv) rfl
    · simp [hp.2.1]
    · simp [hp.2.2]
  refine hset.send (keys_map_dest cfg.acceptors_nodup _ fun _ => rfl) ?_
  intro m hm
  obtain ⟨s, _, rfl⟩ := List.mem_map.mp hm
  refine ⟨by simp [Message.IsProtocol], ?_, by simp [hpid, hcount], ?_, ?_, ?_, ?_⟩
  · intro m' hm' hkey
    exact hfresh _ (h.sentNumber m' hm') (congrArg (fun k => k.2.2.1) hkey)
  · refine fun _ => ⟨rfl, Option.eq_none_iff_forall_not_mem.mpr fun p' hp' => ?_⟩
    exact hfresh pid (h.protocolNumber s i pid p' hp') rfl
  all_goals exact fun hcommand => absurd hcommand (by simp)

/-- The protocol that has counted `m`. -/
private theorem accounted_tally [DecidableEq V] (h : Delivery cfg w) {m : Message V}
    {p p' : PaxosLeaderProtocol V}
    (hp : (w.leaders m.dest).protocolAt m.instanceID m.proposalID = some p)
    (hproposed : p'.state = .proposed → p.state = .proposed)
    (hagree : p'.agreecount ≤ p.agreecount + if m.command = .acceptorAgree then 1 else 0)
    (haccept : p'.acceptcount ≤ p.acceptcount + if m.command = .acceptorAccept then 1 else 0) :
    Accounted { w.consume m with log := .counted m.dest m :: w.log }
      m.dest m.instanceID m.proposalID p' := by
  obtain ⟨hopen, hcounts⟩ := h.accounted hp
  refine ⟨?_, ?_, ?_⟩
  · intro hstate
    simpa using hopen (hproposed hstate)
  · rw [countedReplies_counted]
    by_cases hc : m.command = .acceptorAgree
    · simp only [hc, if_true] at hagree
      simp only [hc, and_self, if_true, List.length_cons]
      omega
    · simp only [hc, if_false] at hagree
      simp only [hc, false_and, and_false, if_false]
      omega
  · rw [countedReplies_counted]
    by_cases hc : m.command = .acceptorAccept
    · simp only [hc, if_true] at haccept
      simp only [hc, and_self, if_true, List.length_cons]
      omega
    · simp only [hc, if_false] at haccept
      simp only [hc, false_and, and_false, if_false]
      omega

theorem count [DecidableEq V] (h : Delivery cfg w) {m : Message V} {ld : PaxosLeader V}
    {p p' : PaxosLeaderProtocol V} (hnet : m ∈ w.net)
    (hp : (w.leaders m.dest).protocolAt m.instanceID m.proposalID = some p)
    (hsets : LeaderSets (w.leaders m.dest) ld m.instanceID m.proposalID p')
    (hcount : ld.proposalCount = (w.leaders m.dest).proposalCount) (hstate : p'.state = p.state)
    (hkind : m.command = .acceptorAgree ∧ p'.agreecount = p.agreecount + 1 ∧
          p'.acceptcount = p.acceptcount ∨
        m.command = .acceptorAccept ∧ p'.agreecount = p.agreecount ∧
          p'.acceptcount = p.acceptcount + 1) :
    Delivery cfg ((w.consume m).leaderDone m.dest
      { node := ld, events := [.counted (w.leaders m.dest).port m] }) := by
  have hprotocol : m.IsProtocol := by
    rcases hkind with hk | hk <;> simp [Message.IsProtocol, hk.1]
  have hset := (h.tally hnet hprotocol).setLeaderProtocol hsets hcount.ge
    (h.accounted_tally hp (fun hs => hstate ▸ hs)
      (by rcases hkind with hk | hk <;> simp [hk.1, hk.2.1])
      (by rcases hkind with hk | hk <;> simp [hk.1, hk.2.2]))
  simpa [World.leaderDone, (h.leader m.dest).1] using hset

theorem choose [DecidableEq V] (h : Delivery cfg w) {m : Message V} {ld : PaxosLeader V}
    {p p' : PaxosLeaderProtocol V} (hnet : m ∈ w.net) (hcommand : m.command = .acceptorAgree)
    (hp : (w.leaders m.dest).protocolAt m.instanceID m.proposalID = some p)
    (hstate : p.state = .proposed)
    (hsets : LeaderSets (w.leaders m.dest) ld m.instanceID m.proposalID p')
    (hcount : ld.proposalCount = (w.leaders m.dest).proposalCount)
    (hstate' : p'.state = .agreed) (hagree : p'.agreecount = p.agreecount + 1)
    (haccept : p'.acceptcount = p.acceptcount) :
    Delivery cfg ((w.consume m).leaderDone m.dest
      { node := ld
        sent := acceptRequests (w.leaders m.dest).acceptors (w.leaders m.dest).port m p'.value
        events := [.chose m.instanceID m.proposalID p'.value,
          .counted (w.leaders m.dest).port m] }) := by
  obtain ⟨hport, hacceptors⟩ := h.leader m.dest
  rw [hport, hacceptors]
  have hprotocol : m.IsProtocol := by simp [Message.IsProtocol, hcommand]
  obtain ⟨hown, hopen⟩ := h.proposed _ _ _ p hp hstate
  have hset := (h.tally hnet hprotocol).setLeaderProtocol hsets hcount.ge
    (h.accounted_tally hp (by simp [hstate']) (by simp [hcommand, hagree]) (by simp [haccept]))
  have hclosed : ∀ l q, (Function.update w.leaders m.dest ld l).protocolAt m.instanceID
      m.proposalID = some q → q.state ≠ .proposed := by
    intro l q hq hqstate
    obtain ⟨rfl, _⟩ := hset.proposed l _ _ q hq hqstate
    rw [hown, Function.update_self, hsets.protocol, if_pos ⟨rfl, rfl⟩] at hq
    rw [← Option.some.inj hq, hstate'] at hqstate
    exact LeaderState.noConfusion hqstate
  have hchose : Delivery cfg
      { leaders := Function.update w.leaders m.dest ld, acceptors := w.acceptors,
        net := w.net.erase m, sent := w.sent,
        log := .chose m.instanceID m.proposalID p'.value :: .counted m.dest m :: w.log } :=
    hset.noteChose (hset.sentNumber m (h.sent_of_net hnet hprotocol)) (by simpa using hopen) hclosed
  refine hchose.send (keys_map_dest cfg.acceptors_nodup _ fun _ => rfl) ?_
  intro m' hm'
  obtain ⟨s, _, rfl⟩ := List.mem_map.mp hm'
  refine ⟨by simp [Message.IsProtocol], ?_, hset.sentNumber m (h.sent_of_net hnet hprotocol), ?_, ?_,
    fun _ => List.mem_cons_self, ?_⟩
  · -- an earlier request for the proposal would mean that it had already chosen a value
    intro m'' hm'' hkey
    simp only [Message.key, Prod.mk.injEq] at hkey
    obtain ⟨hc, hi, hpid, _⟩ := hkey
    refine hopen m''.value ?_
    rw [← hi, ← hpid]
    exact h.acceptSent m'' hm'' hc
  all_goals exact fun hc => absurd hc (by simp)

/-- The senders of the replies a leader has counted, with the one about to be counted, are a quorum once there are enough of them. -/
theorem quorum_of_replies [DecidableEq V] (h : Delivery cfg w) {m : Message V} (hnet : m ∈ w.net)
    (hprotocol : m.IsProtocol)
    (hmem : ∀ r ∈ m :: countedReplies w.log m.dest m.command m.instanceID m.proposalID,
      r.source ∈ cfg.acceptors)
    (hlength : (w.leaders m.dest).acceptors.length / 2 ≤
      (countedReplies w.log m.dest m.command m.instanceID m.proposalID).length) :
    IsQuorum cfg.acceptors
      ((m :: countedReplies w.log m.dest m.command m.instanceID m.proposalID).map
        Message.source).toFinset := by
  refine isQuorum_of_keys _ Message.source (h.sources_nodup hnet hprotocol) hmem ?_
  rw [(h.leader m.dest).2] at hlength
  rw [List.length_cons]
  omega

/-- The quorum whose notices of acceptance a leader has heard when `m` arrives. -/
private theorem quorum_accepted [DecidableEq V] (h : Delivery cfg w) {m : Message V}
    {p : PaxosLeaderProtocol V} (hnet : m ∈ w.net) (hcommand : m.command = .acceptorAccept)
    (hp : (w.leaders m.dest).protocolAt m.instanceID m.proposalID = some p)
    (hquorum : (w.leaders m.dest).acceptors.length / 2 + 1 ≤ p.acceptcount + 1) :
    ∃ Q, IsQuorum cfg.acceptors Q ∧
      ∀ a ∈ Q, .accepted a m.instanceID m.proposalID m.value ∈ w.log := by
  have hprotocol : m.IsProtocol := by simp [Message.IsProtocol, hcommand]
  have hnotice : ∀ r ∈ m :: countedReplies w.log m.dest m.command m.instanceID m.proposalID,
      r.source ∈ cfg.acceptors ∧
        .accepted r.source m.instanceID m.proposalID m.value ∈ w.log := by
    intro r hr
    have hm := h.noticeSent m (h.sent_of_net hnet hprotocol) hcommand
    rcases List.mem_cons.mp hr with rfl | hr
    · exact ⟨hm.1, hm.2.2⟩
    · have hr' := mem_countedReplies.mp hr
      obtain ⟨hsource, _, hlog⟩ := h.noticeSent r (h.sent_of_reply hr) (hr'.2.1.trans hcommand)
      rw [hr'.2.2.1, hr'.2.2.2] at hlog
      have hvalue : r.value = m.value :=
        h.choseOnce _ _ _ _ (h.acceptedChose _ _ _ _ hlog) (h.acceptedChose _ _ _ _ hm.2.2)
      exact ⟨hsource, hvalue ▸ hlog⟩
  have hcounts := (h.counts _ _ _ p hp).2
  refine ⟨_, h.quorum_of_replies hnet hprotocol (fun r hr => (hnotice r hr).1) ?_, ?_⟩
  · rw [hcommand]
    omega
  · intro a ha
    obtain ⟨r, hr, rfl⟩ := List.mem_map.mp (List.mem_toFinset.mp ha)
    exact (hnotice r hr).2

theorem record [DecidableEq V] (h : Delivery cfg w) {m : Message V} {ld : PaxosLeader V}
    {p p' : PaxosLeaderProtocol V} (hnet : m ∈ w.net) (hcommand : m.command = .acceptorAccept)
    (hp : (w.leaders m.dest).protocolAt m.instanceID m.proposalID = some p)
    (hquorum : (w.leaders m.dest).acceptors.length / 2 + 1 ≤ p.acceptcount + 1)
    (hsets : LeaderSets (w.leaders m.dest) ld m.instanceID m.proposalID p')
    (hcount : ld.proposalCount = (w.leaders m.dest).proposalCount)
    (hstate' : p'.state = .accepted) (hagree : p'.agreecount = p.agreecount)
    (haccept : p'.acceptcount = p.acceptcount + 1) :
    Delivery cfg ((w.consume m).leaderDone m.dest
      { node := ld
        events := [.recorded (w.leaders m.dest).port m.instanceID m.proposalID m.value,
          .counted (w.leaders m.dest).port m] }) := by
  have hprotocol : m.IsProtocol := by simp [Message.IsProtocol, hcommand]
  have hset := (h.tally hnet hprotocol).setLeaderProtocol hsets hcount.ge
    (h.accounted_tally hp (by simp [hstate']) (by simp [hagree]) (by simp [hcommand, haccept]))
  obtain ⟨Q, hQ, hall⟩ := h.quorum_accepted hnet hcommand hp hquorum
  have hrecorded : Delivery cfg
      { leaders := Function.update w.leaders m.dest ld, acceptors := w.acceptors,
        net := w.net.erase m, sent := w.sent,
        log := .recorded m.dest m.instanceID m.proposalID m.value :: .counted m.dest m :: w.log } :=
    hset.noteRecorded ⟨Q, hQ, fun a ha => List.mem_cons_of_mem _ (hall a ha)⟩
  simpa [World.leaderDone, (h.leader m.dest).1] using hrecorded

/-- An acceptor to which an `MSG_PROPOSE` is on its way does not know the proposal yet. -/
theorem unknown (h : Delivery cfg w) {m : Message V} (hnet : m ∈ w.net)
    (hcommand : m.command = .propose) :
    (w.acceptors m.dest).protocolAt m.instanceID m.proposalID = none :=
  Option.eq_none_iff_forall_not_mem.mpr fun p hp =>
    h.opened _ _ _ p hp m hnet hcommand rfl rfl rfl

/-- After the delivery of an `MSG_PROPOSE` no other one of the proposal is on its way. -/
private theorem opened_consume [DecidableEq V] (h : Delivery cfg w) {m : Message V}
    (hnet : m ∈ w.net) (hcommand : m.command = .propose) :
    ∀ m' ∈ (w.consume m).net, m'.command = .propose → m'.dest = m.dest →
      m'.instanceID = m.instanceID → m'.proposalID ≠ m.proposalID := by
  intro m' hm' hcommand' hdest hi hpid
  have hprotocol : ∀ r : Message V, r.command = .propose → r.IsProtocol := by
    intro r hr
    simp [Message.IsProtocol, hr]
  have hsent := h.sent_of_net hnet (hprotocol m hcommand)
  have hsent' := h.sent_of_net (List.mem_of_mem_erase hm') (hprotocol m' hcommand')
  have hsource : m'.source = m.source := by
    rw [h.proposeSent m hsent hcommand, h.proposeSent m' hsent' hcommand', hpid]
  have heq : m' = m := by
    refine h.eq_of_key hsent' hsent ?_
    simp only [Message.key, hcommand, hcommand', hdest, hi, hpid, hsource]
  have hnodup : (inFlight w.net).Nodup := by
    obtain ⟨l, hperm, hl⟩ := (List.sublist_append_left _ _).subperm.trans h.flight
    exact hperm.nodup_iff.mp (hl.nodup (List.Nodup.of_map _ h.keys))
  have hnotin := (inFlight_perm_erase hnet (hprotocol m hcommand)).nodup_iff.mp hnodup
  refine (List.nodup_cons.mp hnotin).1 (mem_inFlight.mpr ⟨?_, hprotocol m hcommand⟩)
  exact heq ▸ hm'

/-- An acceptor stores its answer to an `MSG_PROPOSE`. -/
private theorem answer [DecidableEq V] (h : Delivery cfg w) {m : Message V} {ac : PaxosAcceptor V}
    {p : PaxosAcceptorProtocol} (hnet : m ∈ w.net) (hcommand : m.command = .propose)
    (hsets : AcceptorSets (w.acceptors m.dest) ac m.instanceID m.proposalID p) :
    Delivery cfg { w.consume m with acceptors := Function.update w.acceptors m.dest ac } := by
  have hprotocol : m.IsProtocol := by simp [Message.IsProtocol, hcommand]
  have hunknown := h.unknown hnet hcommand
  refine (h.consume m).setAcceptor hsets (h.sentNumber m (h.sent_of_net hnet hprotocol))
    (h.opened_consume hnet hcommand) ?_ ?_
  · rintro ⟨q, hq, _⟩
    exact absurd (hunknown.symm.trans hq) (by simp)
  · rintro ⟨q, hq, _⟩
    exact absurd (hunknown.symm.trans hq) (by simp)

theorem reject [DecidableEq V] (h : Delivery cfg w) {m : Message V} {ac : PaxosAcceptor V}
    {p : PaxosAcceptorProtocol} (hnet : m ∈ w.net) (hcommand : m.command = .propose)
    (hsets : AcceptorSets (w.acceptors m.dest) ac m.instanceID m.proposalID p) :
    Delivery cfg ((w.consume m).acceptorDone m.dest { node := ac }) := by
  simpa [World.acceptorDone] using h.answer hnet hcommand hsets

theorem agree [DecidableEq V] (h : Delivery cfg w) {m reply : Message V} {ac : PaxosAcceptor V}
    {p : PaxosAcceptorProtocol} (hacceptor : m.dest ∈ cfg.acceptors) (hnet : m ∈ w.net)
    (hcommand : m.command = .propose)
    (hsets : AcceptorSets (w.acceptors m.dest) ac m.instanceID m.proposalID p)
    (hstate : p.state = .proposalAgreed)
    (hreply : reply.command = .acceptorAgree ∧ reply.instanceID = m.instanceID ∧
      reply.proposalID = m.proposalID ∧ reply.source = (w.acceptors m.dest).port ∧
      reply.value = (w.acceptors m.dest).valueAt m.instanceID) :
    Delivery cfg ((w.consume m).acceptorDone m.dest
      { node := ac, sent := [reply]
        events := [.agreed (w.acceptors m.dest).port m.instanceID m.proposalID] }) := by
  obtain ⟨hc, hi, hpid, hsource, _⟩ := hreply
  rw [(h.acceptor m.dest).1] at hsource ⊢
  have hprotocol : m.IsProtocol := by simp [Message.IsProtocol, hcommand]
  have hanswer := (h.answer hnet hcommand hsets).noteAgreed m.dest m.instanceID m.proposalID
  refine hanswer.send (by simp) ?_
  intro r hr
  obtain rfl := List.mem_singleton.mp hr
  have hagreed : (Function.update w.acceptors m.dest ac m.dest).HasAgreed m.instanceID
      m.proposalID := by
    rw [Function.update_self]
    exact ⟨p, by simp [hsets.protocol], Or.inl hstate⟩
  refine ⟨by simp [Message.IsProtocol, hc], ?_, ?_, ?_, ?_, ?_, ?_⟩
  · -- an earlier answer would mean that the acceptor knew the proposal
    intro r' hr' hkey
    simp only [Message.key, Prod.mk.injEq] at hkey
    obtain ⟨hc', hi', hpid', hsource', _⟩ := hkey
    obtain ⟨_, q, hq, _⟩ := h.agreeSent r' hr' (hc'.trans hc)
    rw [hsource', hsource, hi', hi, hpid', hpid, h.unknown hnet hcommand] at hq
    exact absurd hq (by simp)
  · rw [hpid]
    exact h.sentNumber m (h.sent_of_net hnet hprotocol)
  · exact fun hc' => absurd (hc.symm.trans hc') (by simp)
  · rw [hsource, hi, hpid]
    exact fun _ => ⟨hacceptor, hagreed⟩
  all_goals exact fun hc' => absurd (hc.symm.trans hc') (by simp)

theorem accept [DecidableEq V] (h : Delivery cfg w) {m : Message V} {ac : PaxosAcceptor V}
    {p p' : PaxosAcceptorProtocol} (hacceptor : m.dest ∈ cfg.acceptors) (hnet : m ∈ w.net)
    (hcommand : m.command = .accept)
    (hp : (w.acceptors m.dest).protocolAt m.instanceID m.proposalID = some p)
    (hstate : p.state = .proposalAgreed)
    (hsets : AcceptorSets (w.acceptors m.dest) ac m.instanceID m.proposalID p')
    (hstate' : p'.state = .proposalAccepted) :
    Delivery cfg ((w.consume m).acceptorDone m.dest
      { node := ac
        sent := acceptNotices (w.acceptors m.dest).leaders (w.acceptors m.dest).port m
        events := [.accepted (w.acceptors m.dest).port m.instanceID m.proposalID m.value] }) := by
  obtain ⟨hport, hleaders⟩ := h.acceptor m.dest
  rw [hport, hleaders]
  have hprotocol : m.IsProtocol := by simp [Message.IsProtocol, hcommand]
  have hsent := h.sent_of_net hnet hprotocol
  have hset := (h.consume m).setAcceptor hsets (h.sentNumber m hsent)
    (fun m' hm' => h.opened _ _ _ p hp m' (List.mem_of_mem_erase hm'))
    (fun _ => Or.inr hstate') (fun _ => hstate')
  have haccepted : Delivery cfg
      { leaders := w.leaders, acceptors := Function.update w.acceptors m.dest ac,
        net := w.net.erase m, sent := w.sent,
        log := .accepted m.dest m.instanceID m.proposalID m.value :: w.log } :=
    hset.noteAccepted (h.acceptSent m hsent hcommand)
  refine haccepted.send (keys_map_dest cfg.leaders_nodup _ fun _ => rfl) ?_
  intro m' hm'
  obtain ⟨s, _, rfl⟩ := List.mem_map.mp hm'
  have hnow : (Function.update w.acceptors m.dest ac m.dest).HasAccepted m.instanceID
      m.proposalID := by
    rw [Function.update_self]
    exact ⟨p', by simp [hsets.protocol], hstate'⟩
  refine ⟨by simp [Message.IsProtocol], ?_, h.sentNumber m hsent, ?_, ?_, ?_,
    fun _ => ⟨hacceptor, hnow, List.mem_cons_self⟩⟩
  · -- an earlier notice would mean that the acceptor had accepted, and it has only agreed
    intro r hr hkey
    simp only [Message.key, Prod.mk.injEq] at hkey
    obtain ⟨hc, hi, hpid, hsource, _⟩ := hkey
    obtain ⟨_, ⟨q, hq, hqstate⟩, _⟩ := h.noticeSent r hr hc
    rw [hsource, hi, hpid, hp] at hq
    rw [← Option.some.inj hq, hstate] at hqstate
    exact AcceptorState.noConfusion hqstate
  all_goals exact fun hc => absurd hc (by simp)

theorem move [DecidableEq V] {Sound : Prop} {w w' : World V} (hmove : Move cfg Sound w w')
    (h : Delivery cfg w) : Delivery cfg w' := by
  cases hmove with
  | consume m => exact h.consume m
  | inject m hm => exact h.inject m hm
  | leaderQuiet l ld hquiet => exact h.leaderQuiet hquiet
  | acceptorQuiet a ac hport hleaders hinstances => exact h.acceptorQuiet hport hleaders hinstances
  | propose l ld i value p hsets hcount _ hp => exact h.propose hsets hcount hp
  | count m ld p p' hnet hp hsets hcount _ hstate hkind =>
    exact h.count hnet hp hsets hcount hstate hkind
  | choose m ld p p' hnet hcommand hp hstate _ hsets hcount _ hstate' hagree haccept _ _ =>
    exact h.choose hnet hcommand hp hstate hsets hcount hstate' hagree haccept
  | record m ld p p' hnet hcommand hp hquorum hsets hcount _ hstate' hagree haccept =>
    exact h.record hnet hcommand hp hquorum hsets hcount hstate' hagree haccept
  | agree m reply ac p hacceptor hnet hcommand hsets _ hstate hreply =>
    exact h.agree hacceptor hnet hcommand hsets hstate hreply
  | reject m ac p _ hnet hcommand hsets _ _ => exact h.reject hnet hcommand hsets
  | accept m ac p p' hacceptor hnet hcommand hp hstate hsets _ hstate' _ =>
    exact h.accept hacceptor hnet hcommand hp hstate hsets hstate'

end Delivery

theorem delivery_after [DecidableEq V] [Zero V] (cfg : Config) (actions : List (Action V)) :
    Delivery cfg (World.after cfg actions) := by
  refine after_invariant cfg False (delivery_init cfg) (fun _ _ hmove h => h.move hmove) ?_
  have hrun := Transition.along_true (World.step cfg) (World.init cfg : World V) actions
  simpa using hrun

/-- A leader that records a value for a proposal has heard of a quorum of acceptors that took an `MSG_ACCEPT` of that proposal with that value. -/
theorem recorded_of_quorum [DecidableEq V] [Zero V] (cfg : Config) (actions : List (Action V))
    (l : Port) (i : Int) (pid : ProposalID) (v : Option V)
    (hrecorded : .recorded l i pid v ∈ (World.after cfg actions).log) :
    ∃ Q, IsQuorum cfg.acceptors Q ∧ ∀ a ∈ Q, .accepted a i pid v ∈ (World.after cfg actions).log :=
  (delivery_after cfg actions).recorded l i pid v hrecorded

theorem trioLeaders_nodup : ([1] : List Port).Nodup := by decide

theorem trioAcceptors_nodup : ([2, 3, 4] : List Port).Nodup := by decide

/-- One leader and three acceptors. -/
def trioConfig : Config where
  leaders := [1]
  acceptors := [2, 3, 4]
  leaders_nodup := trioLeaders_nodup
  acceptors_nodup := trioAcceptors_nodup
  bound_once := by decide

/-- A message of the proposal `(1, 1)` of instance `0`, which the leader `1` opens with the value `7`. -/
def firstProposal (command : Command) (dest source : Port) (value : Option Nat) : Message Nat :=
  { command := command, proposalID := (1, 1), instanceID := 0, dest := dest, source := source, value := value }

/-- The acceptors `2` and `3` agree to the proposal and are asked to accept it, `4` has not seen it yet. -/
def quorumRun : List (Action Nat) :=
  [.start 1, .setPrimary 1 true, .extPropose 1 9 (some 7),
    .deliver { command := .extPropose, dest := 1, source := 9, value := some 7 },
    .deliver (firstProposal .propose 2 1 (some 7)), .deliver (firstProposal .propose 3 1 (some 7)),
    .deliver (firstProposal .acceptorAgree 1 2 none), .deliver (firstProposal .acceptorAgree 1 3 none)]

/-- The acceptors `2` and `3` accept the proposal and the leader hears of both, while `4` has not seen it yet. -/
def recordRun : List (Action Nat) :=
  quorumRun ++ [Action.deliver (firstProposal .accept 2 1 (some 7)), .deliver (firstProposal .accept 3 1 (some 7)),
    .deliver (firstProposal .acceptorAccept 1 2 (some 7)), .deliver (firstProposal .acceptorAccept 1 3 (some 7))]

theorem recorded_of_quorum_recordRun :
    .recorded 1 0 (1, 1) (some 7) ∈ (World.after trioConfig recordRun).log ∧
      ∃ Q, IsQuorum trioConfig.acceptors Q ∧
        ∀ a ∈ Q, .accepted a 0 (1, 1) (some 7) ∈ (World.after trioConfig recordRun).log :=
  ⟨by decide, recorded_of_quorum trioConfig recordRun 1 0 (1, 1) (some 7) (by decide)⟩

end Reading.Paxos
