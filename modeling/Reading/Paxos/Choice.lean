import Reading.Paxos.Replies

/-!
# The value a leader asks for

The replies that make up a quorum may report values that acceptors have accepted, and a leader has to go on with the one of the greatest proposal among them. `PaxosLeaderProtocol.doTransition` does look at the proposals, but at the reply that completes the quorum only: whatever the earlier replies carried is gone. So it matters which reply comes last. Here the value in the `MSG_ACCEPT`s is compared with the one the counted replies call for, and the orders of arrival in which the two are the same are found.
-/

namespace Reading.Paxos

variable {V : Type}

/-- The replies to `m`'s proposal once `m` is counted. -/
def World.repliesWith (w : World V) (m : Message V) : List (Message V) :=
  m :: countedReplies w.log m.dest .acceptorAgree m.instanceID m.proposalID

/-- The accepted proposal whose value a reply reports. -/
def World.reportedBy (w : World V) (m r : Message V) : Option ProposalID :=
  reported r.source m.instanceID m.proposalID w.log

/-- No other reply reports a greater accepted proposal. -/
def World.IsHighest (w : World V) (m r : Message V) : Prop :=
  r ∈ w.repliesWith m ∧ ∀ r' ∈ w.repliesWith m, notAbove (w.reportedBy m r') (w.reportedBy m r)

/-- The value `v` is the one the replies call for, where `own` is the value the leader has proposed. -/
def World.CalledFor (w : World V) (m : Message V) (own v : Option V) : Prop :=
  ((∀ r ∈ w.repliesWith m, r.value = none) → v = own) ∧
    ((∃ r ∈ w.repliesWith m, r.value ≠ none) → ∀ r, w.IsHighest m r → v = r.value)

/-- The reply that completes the quorum carries a value, and no earlier one reports a greater accepted proposal. -/
def World.HighestLast (w : World V) (m : Message V) : Prop := m.value ≠ none ∧ w.IsHighest m m

/-- The replies have come in an order in which the last one is enough: none of them carries a value, or the highest comes last; or it has come earlier, and its value is by chance that of the last reply or, where the last carries none, the leader's own. -/
def World.LastIsEnough (w : World V) (m : Message V) (own : Option V) : Prop :=
  (∀ r ∈ w.repliesWith m, r.value = none) ∨ w.HighestLast m ∨
    ¬ w.HighestLast m ∧ ∀ r, w.IsHighest m r → r.value = m.value.or own

/-- A socket is bound to a port from `0` on. -/
def Config.BindsPorts (cfg : Config) : Prop := ∀ l ∈ cfg.leaders, 0 ≤ l

instance (cfg : Config) : Decidable cfg.BindsPorts := inferInstanceAs (Decidable (∀ l ∈ cfg.leaders, 0 ≤ l))

/-- The reply completes its proposal's quorum, and `p` is the protocol that counts it. -/
structure PaxosLeader.CompletedBy (leader : PaxosLeader V) (m : Message V) (p : PaxosLeaderProtocol V) : Prop where
  running : leader.stopped = false
  primary : leader.isPrimary = true
  agree : m.command = .acceptorAgree
  protocol : leader.protocolAt m.instanceID m.proposalID = some p
  proposed : p.state = .proposed
  quorum : leader.getQuorumSize ≤ p.agreecount + 1

theorem PaxosLeader.CompletedBy.recvMessage {self : PaxosLeader V} {m : Message V} {p : PaxosLeaderProtocol V}
    (h : self.CompletedBy m p) : ∃ out, self.recvMessage m = .ok out ∧
      out.sent = acceptRequests self.acceptors self.port m (if p.adopts m then m.value else p.value) := by
  obtain ⟨hrunning, hprimary, hagree, hprotocol, hproposed, hquorum⟩ := h
  cases hrecord : self.instances m.instanceID with
  | none => simp [PaxosLeader.protocolAt, hrecord] at hprotocol
  | some record =>
    have hp : record.protocols m.proposalID = some p := by simpa [PaxosLeader.protocolAt, hrecord] using hprotocol
    refine ⟨self.transition record p m, ?_, ?_⟩
    · simp [PaxosLeader.recvMessage, hrunning, hprimary, hagree, hrecord, InstanceRecord.getProtocol, hp, bind, Except.bind,
        pure, Except.pure]
    · simp only [PaxosLeader.transition, PaxosLeaderProtocol.doTransition, hproposed, hagree, ge_iff_le, hquorum, if_true,
        PaxosLeader.notifyLeader, List.append_nil]
      split
      case isTrue hadopts =>
        rw [if_pos (show p.adopts m from hadopts)]
        rfl
      case isFalse hadopts =>
        rw [if_neg (show ¬ p.adopts m from hadopts)]
        rfl

/-- The test a leader puts the completing reply to asks for no more than a value. -/
theorem Numbering.adopts_iff {cfg : Config} {w : World V} (h : Numbering cfg w) (hports : cfg.BindsPorts)
    {m : Message V} (hsent : m ∈ w.sent) {p : PaxosLeaderProtocol V} (hp : (w.leaders m.dest).CompletedBy m p) :
    p.adopts m ↔ m.value ≠ none := by
  refine ⟨fun hadopts => hadopts.1, fun hvalue => ⟨hvalue, ?_⟩⟩
  obtain ⟨hleader, hcount⟩ := h.sequence m hsent hp.agree hvalue
  have hport : (0 : Int) ≤ m.sequence.1 := hports _ hleader
  rw [(h.leader m.dest).2 _ _ p hp.protocol hp.proposed]
  simp only
  omega

/-- Two highest replies report the same proposal, and a proposal has one value. -/
theorem Replies.value_eq_of_highest {cfg : Config} {w : World V} (h : Replies w) (hd : Delivery cfg w) {m r r' : Message V}
    (hreplies : ∀ r ∈ w.repliesWith m, r ∈ w.sent ∧ r.command = .acceptorAgree ∧ r.instanceID = m.instanceID ∧
      r.proposalID = m.proposalID)
    (hr : w.IsHighest m r) (hr' : w.IsHighest m r') (hvalue : r.value ≠ none) : r'.value = r.value := by
  have hof : ∀ r ∈ w.repliesWith m, ∀ M, w.reportedBy m r = some M → .chose m.instanceID M r.value ∈ w.log := by
    intro r hr M hM
    obtain ⟨hsent, hcommand, hi, hpid⟩ := hreplies r hr
    exact hi ▸ h.value r hsent hcommand M (by rw [hi, hpid]; exact hM)
  cases hM : w.reportedBy m r with
  | none =>
    obtain ⟨hsent, hcommand, hi, hpid⟩ := hreplies r hr.1
    exact absurd (h.empty r hsent hcommand (by rw [hi, hpid]; exact hM)) hvalue
  | some M =>
    have hle := hr'.2 r hr.1
    have hge := hr.2 r' hr'.1
    rw [hM] at hle hge
    cases hM' : w.reportedBy m r' with
    | none =>
      rw [hM'] at hle
      exact hle.elim
    | some M' =>
      rw [hM'] at hle hge
      have heq : M = M' := by
        simp only [notAbove, numberedBelow, Prod.ext_iff] at hle hge ⊢
        omega
      exact hd.choseOnce _ M _ _ (heq ▸ hof r' hr'.1 M' hM') (hof r hr.1 M hM)

variable [DecidableEq V] [Zero V]

/-- When a reply completes a quorum, the value in the `MSG_ACCEPT`s is the one the counted replies call for exactly when they have come in an order in which the last one is enough. -/
theorem accept_value_iff (cfg : Config) (hports : cfg.BindsPorts) (actions : List (Action V)) (m : Message V)
    (p : PaxosLeaderProtocol V) (hnet : m ∈ (World.after cfg actions).net)
    (hp : ((World.after cfg actions).leaders m.dest).CompletedBy m p) :
    ∃ out, ((World.after cfg actions).leaders m.dest).recvMessage m = .ok out ∧
      (∃ r ∈ out.sent, r.command = .accept) ∧
      ((∀ r ∈ out.sent, r.command = .accept → (World.after cfg actions).CalledFor m p.value r.value) ↔
        (World.after cfg actions).LastIsEnough m p.value) := by
  set w := World.after cfg actions with hw
  obtain ⟨hd, hreplies, hnumbering⟩ := replies_after cfg actions
  obtain ⟨out, hout, hsent⟩ := hp.recvMessage
  rw [(hd.leader m.dest).2] at hsent
  have hprotocol : m.IsProtocol := by simp [Message.IsProtocol, hp.agree]
  have hmsent : m ∈ w.sent := hd.sent_of_net hnet hprotocol
  have hsource : m.source ∈ cfg.acceptors := (hd.agreeSent m hmsent hp.agree).1
  have hcounted : ∀ r ∈ w.repliesWith m, r ∈ w.sent ∧ r.command = .acceptorAgree ∧ r.instanceID = m.instanceID ∧
      r.proposalID = m.proposalID := by
    intro r hr
    rcases List.mem_cons.mp hr with rfl | hr
    · exact ⟨hmsent, hp.agree, rfl, rfl⟩
    · obtain ⟨-, hcommand, hi, hpid⟩ := mem_countedReplies.mp hr
      exact ⟨hd.sent_of_reply hr, hcommand, hi, hpid⟩
  -- the leader asks for the value of the last reply, or for its own if there is none
  have hasked : (if p.adopts m then m.value else p.value) = m.value.or p.value := by
    rw [if_congr (hnumbering.adopts_iff hports hmsent hp) rfl rfl]
    cases m.value <;> simp
  have hvalue : (∀ r ∈ out.sent, r.command = .accept → w.CalledFor m p.value r.value) ↔
      w.CalledFor m p.value (m.value.or p.value) := by
    simp only [hsent, hasked, acceptRequests, List.forall_mem_map]
    exact ⟨fun h => h _ hsource trivial, fun h _ _ _ => h⟩
  have hsome : ∃ r ∈ out.sent, r.command = .accept := by
    rw [hsent]
    exact ⟨_, List.mem_map_of_mem hsource, rfl⟩
  refine ⟨out, hout, hsome, hvalue.trans ⟨fun h => ?_, fun h => ?_⟩⟩
  · by_cases hnone : ∀ r ∈ w.repliesWith m, r.value = none
    · exact .inl hnone
    · push Not at hnone
      by_cases hlast : w.HighestLast m
      · exact .inr (.inl hlast)
      · exact .inr (.inr ⟨hlast, fun r hr => (h.2 hnone r hr).symm⟩)
  · rcases h with hnone | hlast | ⟨-, hchance⟩
    · have hown : m.value.or p.value = p.value := by simp [hnone m List.mem_cons_self]
      refine ⟨fun _ => hown, ?_⟩
      rintro ⟨r, hr, hvalue⟩
      exact absurd (hnone r hr) hvalue
    · have hadopted : m.value.or p.value = m.value := by
        cases hm : m.value with
        | none => exact absurd hm hlast.1
        | some v => rfl
      refine ⟨fun hnone => absurd (hnone m List.mem_cons_self) hlast.1, fun _ r hr => ?_⟩
      rw [hadopted]
      exact (hreplies.value_eq_of_highest hd hcounted hlast.2 hr hlast.1).symm
    · exact ⟨fun hnone => by simp [hnone m List.mem_cons_self], fun _ r hr => (hchance r hr).symm⟩

/-- Two leaders and three acceptors. -/
def contestConfig : Config where
  leaders := [1, 5]
  acceptors := [2, 3, 4]
  leaders_nodup := by decide
  acceptors_nodup := by decide
  bound_once := by decide

/-- A message of the leader `l`'s first proposal of instance `0`. -/
def contestMessage (command : Command) (l dest source : Port) (value : Option Nat) (sequence : ProposalID) : Message Nat :=
  { command := command, proposalID := (l, 1), instanceID := 0, dest := dest, source := source, value := value, sequence := sequence }

/-- Both leaders propose, and the acceptors `2` and `3` agree to the value `7` of the leader `1`, which has counted the reply of `2`. -/
def firstQuorumRun : List (Action Nat) :=
  [.start 1, .setPrimary 1 true, .start 5, .setPrimary 5 true, .extPropose 1 8 (some 7), .extPropose 5 8 (some 9),
    .deliver { command := .extPropose, dest := 1, source := 8, value := some 7 },
    .deliver { command := .extPropose, dest := 5, source := 8, value := some 9 },
    .deliver (contestMessage .propose 1 2 1 (some 7) (-1, -1)), .deliver (contestMessage .propose 1 3 1 (some 7) (-1, -1)),
    .deliver (contestMessage .acceptorAgree 1 1 2 none (-1, -1))]

/-- The acceptor `2` accepts the `7`, and the acceptors `2` and `4` answer the leader `5`. -/
def answeredRun : List (Action Nat) :=
  firstQuorumRun ++
  [Action.deliver (contestMessage .acceptorAgree 1 1 3 none (-1, -1)), .deliver (contestMessage .accept 1 2 1 (some 7) (-1, -1)),
    .deliver (contestMessage .propose 5 2 5 (some 9) (-1, -1)), .deliver (contestMessage .propose 5 4 5 (some 9) (-1, -1))]

/-- The leader `5` counts the answer that reports the `7` last. -/
def lastRun : List (Action Nat) := answeredRun ++ [Action.deliver (contestMessage .acceptorAgree 5 5 4 none (-1, -1))]

/-- The leader `5` counts the answer that reports the `7` first. -/
def contestRun : List (Action Nat) := answeredRun ++ [Action.deliver (contestMessage .acceptorAgree 5 5 2 (some 7) (1, 1))]

/-- The protocol of a leader's first proposal after its first reply. -/
def contestProtocol (l : Port) (value : Nat) : PaxosLeaderProtocol Nat :=
  { state := .proposed, proposalID := (l, 1), agreecount := 1, instanceID := 0, value := some value }

/-- The leader `5` gives up its own `9`, as the answer that reports the accepted `7` comes last. -/
theorem accept_value_highestLast :
    ∃ out, ((World.after contestConfig lastRun).leaders 5).recvMessage
        (contestMessage .acceptorAgree 5 5 2 (some 7) (1, 1)) = .ok out ∧
      ∀ r ∈ out.sent, r.command = .accept → (World.after contestConfig lastRun).CalledFor
        (contestMessage .acceptorAgree 5 5 2 (some 7) (1, 1)) (some 9) r.value := by
  have hcompleted : ((World.after contestConfig lastRun).leaders 5).CompletedBy
      (contestMessage .acceptorAgree 5 5 2 (some 7) (1, 1)) (contestProtocol 5 9) :=
    ⟨by decide, by decide, rfl, rfl, rfl, by decide⟩
  have hreplies : (World.after contestConfig lastRun).repliesWith (contestMessage .acceptorAgree 5 5 2 (some 7) (1, 1)) =
      [contestMessage .acceptorAgree 5 5 2 (some 7) (1, 1), contestMessage .acceptorAgree 5 5 4 none (-1, -1)] := by decide
  have hlast : (World.after contestConfig lastRun).HighestLast (contestMessage .acceptorAgree 5 5 2 (some 7) (1, 1)) := by
    refine ⟨by decide, List.mem_cons_self, fun r hr => ?_⟩
    rw [hreplies] at hr
    obtain rfl | rfl := List.mem_pair.mp hr
    · exact .inr rfl
    · exact trivial
  obtain ⟨out, hout, -, hiff⟩ := accept_value_iff contestConfig (by decide) lastRun
    (contestMessage .acceptorAgree 5 5 2 (some 7) (1, 1)) (contestProtocol 5 9) (by decide) hcompleted
  exact ⟨out, hout, hiff.mpr (.inr (.inl hlast))⟩

/-- The leader `5` asks for its own `9`, although the acceptor `2` has reported the accepted `7`. -/
theorem contest_forgets :
    ¬ ∀ (m : Message Nat) (p : PaxosLeaderProtocol Nat), m ∈ (World.after contestConfig contestRun).net →
      ((World.after contestConfig contestRun).leaders m.dest).CompletedBy m p →
      ∀ out, ((World.after contestConfig contestRun).leaders m.dest).recvMessage m = .ok out →
        ∀ r ∈ out.sent, r.command = .accept → (World.after contestConfig contestRun).CalledFor m p.value r.value := by
  intro h
  have hcompleted : ((World.after contestConfig contestRun).leaders 5).CompletedBy
      (contestMessage .acceptorAgree 5 5 4 none (-1, -1)) (contestProtocol 5 9) :=
    ⟨by decide, by decide, rfl, rfl, rfl, by decide⟩
  obtain ⟨out, hout, hsent⟩ := hcompleted.recvMessage
  have hasked : contestMessage .accept 5 2 5 (some 9) (-1, -1) ∈ out.sent := by
    rw [hsent]
    decide
  have hcalled := h (contestMessage .acceptorAgree 5 5 4 none (-1, -1)) (contestProtocol 5 9) (by decide) hcompleted out hout
    (contestMessage .accept 5 2 5 (some 9) (-1, -1)) hasked rfl
  have hreported : contestMessage .acceptorAgree 5 5 2 (some 7) (1, 1) ∈
      (World.after contestConfig contestRun).repliesWith (contestMessage .acceptorAgree 5 5 4 none (-1, -1)) := by decide
  -- The other reply, of `4`, reports no accepted proposal.
  have hhighest : (World.after contestConfig contestRun).IsHighest (contestMessage .acceptorAgree 5 5 4 none (-1, -1))
      (contestMessage .acceptorAgree 5 5 2 (some 7) (1, 1)) := by
    have hreplies : (World.after contestConfig contestRun).repliesWith (contestMessage .acceptorAgree 5 5 4 none (-1, -1)) =
        [contestMessage .acceptorAgree 5 5 4 none (-1, -1), contestMessage .acceptorAgree 5 5 2 (some 7) (1, 1)] := by decide
    have hfirst : (World.after contestConfig contestRun).reportedBy (contestMessage .acceptorAgree 5 5 4 none (-1, -1))
        (contestMessage .acceptorAgree 5 5 2 (some 7) (1, 1)) = some (1, 1) := by decide
    have hlast : (World.after contestConfig contestRun).reportedBy (contestMessage .acceptorAgree 5 5 4 none (-1, -1))
        (contestMessage .acceptorAgree 5 5 4 none (-1, -1)) = none := by decide
    refine ⟨hreported, fun r' hr' => ?_⟩
    rw [hreplies] at hr'
    obtain rfl | rfl := List.mem_pair.mp hr'
    · rw [hlast]
      exact trivial
    · rw [hfirst]
      exact .inr rfl
  exact absurd (hcalled.2 ⟨_, hreported, by decide⟩ _ hhighest) (by decide)

end Reading.Paxos
