import Reading.Lib.Voting
import Reading.Paxos.Replies

/-!
# Agreement

The log of a run, read for one instance, is a `Voting`. Where every step is sound, an acceptor accepts proposals in increasing order and never one below a proposal it has agreed to, an answer to `MSG_PROPOSE` tells the greatest proposal its sender had accepted, and a leader asks for the value of the greatest one it was told of; so the voting is safe and the recorded values agree. Without that condition two leaders can record different values for one instance.
-/

namespace Reading.Paxos

variable {V : Type}

instance : Std.Trichotomous numberedBelow where
  trichotomous p q hpq hqp := by
    unfold numberedBelow at hpq hqp
    refine Prod.ext ?_ ?_ <;> omega

instance : Std.Asymm numberedBelow where
  asymm p q hpq hqp := by
    unfold numberedBelow at hpq hqp
    omega

/-- What the log says about one instance. -/
def voting (log : List (Event V)) (i : Int) : Voting Port ProposalID (Option V) where
  agreed a pid := .agreed a i pid ∈ log
  accepted a pid := ∃ v, .accepted a i pid v ∈ log
  chose pid v := .chose i pid v ∈ log

/-! ### The invariant -/

/-- What is known about the ballots of every instance as long as every step is sound. -/
structure Ballots (cfg : Config) (w : World V) : Prop where
  agreed : ∀ a i pid, (w.acceptors a).HasAgreed i pid ↔ .agreed a i pid ∈ w.log
  acceptedAgreed : ∀ a i pid v, .accepted a i pid v ∈ w.log → .agreed a i pid ∈ w.log
  /-- An acceptor accepts in increasing order. -/
  increasing : ∀ a i pid v, .accepted a i pid v ∈ w.log →
    notAbove (some pid) (lastAccepted a i w.log)
  /-- Every lower proposal the sender of an answer has accepted is at or below the reported one. -/
  covers : ∀ m ∈ w.sent, m.command = .acceptorAgree → ∀ c v, numberedBelow c m.proposalID →
    .accepted m.source m.instanceID c v ∈ w.log → notAbove (some c) (reported m.source m.instanceID m.proposalID w.log)
  backed : ∀ i pid v, .chose i pid v ∈ w.log →
    ∃ Q, IsQuorum cfg.acceptors Q ∧ ∀ a ∈ Q, .agreed a i pid ∈ w.log
  safe : ∀ i, (voting w.log i).Safe numberedBelow cfg.acceptors

theorem ballots_init (cfg : Config) : Ballots cfg (World.init cfg : World V) := by
  constructor <;> simp only [World.init, PaxosAcceptor.HasAgreed, PaxosAcceptor.protocolAt, Option.bind_none,
    Voting.Safe, voting, List.not_mem_nil, reduceCtorEq, false_implies, implies_true, false_and, exists_false]

namespace Ballots

variable {cfg : Config} {w w' : World V}

/-- A move that the acceptors' records and the ballots do not notice. -/
theorem frame (h : Ballots cfg w) (events : List (Event V))
    (hagreed : ∀ a i pid, (w'.acceptors a).HasAgreed i pid ↔ (w.acceptors a).HasAgreed i pid)
    (hsent : ∀ m ∈ w'.sent, m.command = .acceptorAgree → m ∈ w.sent)
    (hlog : w'.log = events ++ w.log) (hevents : ∀ e ∈ events, ¬ e.IsBallot) :
    Ballots cfg w' := by
  have hmem : ∀ e : Event V, e.IsBallot → (e ∈ w'.log ↔ e ∈ w.log) := by
    intro e he
    rw [hlog, List.mem_append]
    exact or_iff_right fun hin => hevents e hin he
  have hagreedLog : ∀ a i pid, .agreed a i pid ∈ w'.log ↔ .agreed a i pid ∈ w.log :=
    fun a i pid => hmem _ trivial
  have hacceptedLog : ∀ a i pid v, .accepted a i pid v ∈ w'.log ↔ .accepted a i pid v ∈ w.log :=
    fun a i pid v => hmem _ trivial
  have hchoseLog : ∀ i pid v, .chose i pid v ∈ w'.log ↔ .chose i pid v ∈ w.log :=
    fun i pid v => hmem _ trivial
  have hlast : ∀ a i, lastAccepted a i w'.log = lastAccepted a i w.log := by
    intro a i
    rw [hlog]
    refine lastAccepted_append events a i ?_ w.log
    rintro e he pid v rfl
    exact hevents _ he trivial
  have hreported : ∀ a i pid, reported a i pid w'.log = reported a i pid w.log := by
    intro a i pid
    rw [hlog]
    exact reported_append a i pid (fun he => hevents _ he trivial) w.log
  constructor
  · simpa only [hagreed, hagreedLog] using h.agreed
  · simpa only [hagreedLog, hacceptedLog] using h.acceptedAgreed
  · simpa only [hacceptedLog, hlast] using h.increasing
  · intro m hm hcommand
    simpa only [hacceptedLog, hreported] using h.covers m (hsent m hm hcommand) hcommand
  · simpa only [hagreedLog, hchoseLog] using h.backed
  · simpa only [voting, hagreedLog, hacceptedLog, hchoseLog] using h.safe

/-- An acceptor whose answer to a proposal is on record keeps that answer when its protocol of another proposal, or none, changes. -/
private theorem hasAgreed_update {a : Port} {ac : PaxosAcceptor V} {i : Int} {pid : ProposalID}
    {p : PaxosAcceptorProtocol} (hsets : AcceptorSets (w.acceptors a) ac i pid p) (b : Port)
    (j : Int) (q : ProposalID) :
    (Function.update w.acceptors a ac b).HasAgreed j q ↔
      if b = a ∧ j = i ∧ q = pid then p.state = .proposalAgreed ∨ p.state = .proposalAccepted
      else (w.acceptors b).HasAgreed j q := by
  rcases eq_or_ne b a with rfl | hb
  · by_cases hjq : j = i ∧ q = pid
    · simp [PaxosAcceptor.HasAgreed, hsets.protocol, hjq]
    · simp [PaxosAcceptor.HasAgreed, hsets.protocol, hjq]
  · simp [hb]

theorem acceptorQuiet (h : Ballots cfg w) {a : Port} {ac : PaxosAcceptor V}
    (hinstances : ac.instances = (w.acceptors a).instances) :
    Ballots cfg (w.acceptorDone a { node := ac }) := by
  refine h.frame [] ?_ ?_ rfl (by simp)
  · intro b i pid
    rcases eq_or_ne b a with rfl | hb
    · simp [PaxosAcceptor.HasAgreed, PaxosAcceptor.protocolAt, hinstances]
    · simp [hb]
  · simpa using fun m hm _ => hm

theorem reject [DecidableEq V] (h : Ballots cfg w) (hd : Delivery cfg w) {m : Message V}
    {ac : PaxosAcceptor V} {p : PaxosAcceptorProtocol} (hnet : m ∈ w.net)
    (hcommand : m.command = .propose)
    (hsets : AcceptorSets (w.acceptors m.dest) ac m.instanceID m.proposalID p)
    (hstate : p.state = .proposalRejected) :
    Ballots cfg ((w.consume m).acceptorDone m.dest { node := ac }) := by
  refine h.frame [] ?_ ?_ rfl (by simp)
  · intro b i pid
    refine (hasAgreed_update hsets b i pid).trans ?_
    split
    next hb =>
      obtain ⟨rfl, rfl, rfl⟩ := hb
      simp [PaxosAcceptor.HasAgreed, hd.unknown hnet hcommand, hstate]
    next => exact Iff.rfl
  · simpa using fun m hm _ => hm

theorem agree [DecidableEq V] (h : Ballots cfg w) (hd : Delivery cfg w) {m reply : Message V}
    {ac : PaxosAcceptor V} {p : PaxosAcceptorProtocol} (hnet : m ∈ w.net)
    (hcommand : m.command = .propose)
    (hsets : AcceptorSets (w.acceptors m.dest) ac m.instanceID m.proposalID p)
    (hstate : p.state = .proposalAgreed)
    (hreply : reply.command = .acceptorAgree ∧ reply.instanceID = m.instanceID ∧
      reply.proposalID = m.proposalID ∧ reply.source = (w.acceptors m.dest).port) :
    Ballots cfg ((w.consume m).acceptorDone m.dest
      { node := ac, sent := [reply]
        events := [.agreed (w.acceptors m.dest).port m.instanceID m.proposalID] }) := by
  rw [(hd.acceptor m.dest).1] at hreply ⊢
  obtain ⟨-, hi, hpid, hsource⟩ := hreply
  have hlast : ∀ a i, lastAccepted a i (.agreed m.dest m.instanceID m.proposalID :: w.log) =
      lastAccepted a i w.log := fun a i => lastAccepted_append [_] a i (by simp) w.log
  constructor
  · intro b i pid
    refine (hasAgreed_update hsets b i pid).trans ?_
    simp only [acceptorDone_log, consume_log, List.singleton_append, List.mem_cons,
      Event.agreed.injEq]
    split
    next hb => simp [hb, hstate]
    next hb => simp [hb, h.agreed]
  · intro a i pid v hv
    exact List.mem_cons_of_mem _ (h.acceptedAgreed a i pid v (by simpa using hv))
  · intro a i pid v hv
    refine (hlast a i).symm ▸ h.increasing a i pid v (by simpa using hv)
  · intro r hr hc c v hbelow hacc
    rcases List.mem_append.mp hr with hold | hnew
    · have hreported := reported_append _ _ _ (hd.not_agreed_of_answer hnet hcommand hold hc) w.log
      exact hreported.symm ▸ h.covers r hold hc c v hbelow (by simpa using hacc)
    · obtain rfl := List.mem_singleton.mp hnew
      have hreported : reported r.source r.instanceID r.proposalID
          (.agreed m.dest m.instanceID m.proposalID :: w.log) =
            lastAccepted m.dest m.instanceID w.log := by
        rw [hsource, hi, hpid, reported, if_pos ⟨rfl, rfl, rfl⟩]
      refine hreported.symm ▸ h.increasing m.dest m.instanceID c v ?_
      rw [hsource, hi] at hacc
      simpa using hacc
  · intro i pid v hv
    obtain ⟨Q, hQ, hall⟩ := h.backed i pid v (by simpa using hv)
    exact ⟨Q, hQ, fun a ha => List.mem_cons_of_mem _ (hall a ha)⟩
  · intro i
    have hsafe := (h.safe i).agree
      (fun a pid => .agreed a i pid ∈ .agreed m.dest m.instanceID m.proposalID :: w.log)
      (fun a pid ha => List.mem_cons_of_mem _ ha)
    simpa [voting] using hsafe

theorem accept [DecidableEq V] (h : Ballots cfg w) (hd : Delivery cfg w) {m : Message V}
    {ac : PaxosAcceptor V} {p p' : PaxosAcceptorProtocol}
    (hp : (w.acceptors m.dest).protocolAt m.instanceID m.proposalID = some p)
    (hstate : p.state = .proposalAgreed)
    (hsets : AcceptorSets (w.acceptors m.dest) ac m.instanceID m.proposalID p')
    (hstate' : p'.state = .proposalAccepted) (hsound : w.AcceptSound m) :
    Ballots cfg ((w.consume m).acceptorDone m.dest
      { node := ac
        sent := acceptNotices (w.acceptors m.dest).leaders (w.acceptors m.dest).port m
        events := [.accepted (w.acceptors m.dest).port m.instanceID m.proposalID m.value] }) := by
  rw [(hd.acceptor m.dest).1]
  have hagreed : (w.acceptors m.dest).HasAgreed m.instanceID m.proposalID := ⟨p, hp, Or.inl hstate⟩
  have hgreatest : ∀ pid, .agreed m.dest m.instanceID pid ∈ w.log →
      ¬ numberedBelow m.proposalID pid := by
    intro pid hpid hbelow
    exact hsound pid hbelow ((h.agreed _ _ _).mpr hpid)
  have hlast : ∀ a i, lastAccepted a i
      (.accepted m.dest m.instanceID m.proposalID m.value :: w.log) =
        if m.dest = a ∧ m.instanceID = i then some m.proposalID else lastAccepted a i w.log :=
    fun a i => rfl
  constructor
  · intro b i pid
    refine (hasAgreed_update hsets b i pid).trans ?_
    simp only [acceptorDone_log, consume_log, List.singleton_append, List.mem_cons, reduceCtorEq,
      false_or]
    rw [← h.agreed]
    split
    next hb =>
      obtain ⟨rfl, rfl, rfl⟩ := hb
      exact iff_of_true (Or.inr hstate') hagreed
    next => exact Iff.rfl
  · intro a i pid v hv
    refine List.mem_cons_of_mem _ ?_
    rcases List.mem_cons.mp hv with heq | hold
    · obtain ⟨rfl, rfl, rfl, rfl⟩ := Event.accepted.inj heq
      exact (h.agreed _ _ _).mp hagreed
    · exact h.acceptedAgreed a i pid v hold
  · intro a i pid v hv
    refine (hlast a i).symm ▸ ?_
    split
    next hai =>
      obtain ⟨rfl, rfl⟩ := hai
      rcases List.mem_cons.mp hv with heq | hold
      · exact Or.inr (Event.accepted.inj heq).2.2.1
      · have hnot := hgreatest pid (h.acceptedAgreed _ _ _ _ hold)
        by_cases hbelow : numberedBelow pid m.proposalID
        · exact Or.inl hbelow
        · exact Or.inr (Std.Trichotomous.trichotomous _ _ hbelow hnot)
    next hai =>
      refine h.increasing a i pid v ?_
      rcases List.mem_cons.mp hv with heq | hold
      · obtain ⟨rfl, rfl, _⟩ := Event.accepted.inj heq
        exact absurd ⟨rfl, rfl⟩ hai
      · exact hold
  · intro r hr hc c v hbelow hacc
    have hold : r ∈ w.sent := by
      rcases List.mem_append.mp hr with hold | hnew
      · exact hold
      · obtain ⟨l, _, rfl⟩ := List.mem_map.mp hnew
        exact absurd hc (by simp)
    rcases List.mem_cons.mp hacc with heq | hacc
    · -- the sender agreed to a greater proposal, so it does not accept this one
      obtain ⟨hsrc, hinst, rfl, _⟩ := Event.accepted.inj heq
      have hgreater := (hd.agreeSent r hold hc).2
      rw [hsrc, hinst] at hgreater
      exact absurd hgreater (hsound _ hbelow)
    · exact h.covers r hold hc c v hbelow hacc
  · intro i pid v hv
    obtain ⟨Q, hQ, hall⟩ := h.backed i pid v (by simpa using hv)
    exact ⟨Q, hQ, fun a ha => List.mem_cons_of_mem _ (hall a ha)⟩
  · intro i
    have hsafe := (h.safe i).accept
      (fun a pid =>
        ∃ v, .accepted a i pid v ∈ .accepted m.dest m.instanceID m.proposalID m.value :: w.log) ?_
    · simpa [voting] using hsafe
    · rintro a pid ⟨v, hv⟩
      rcases List.mem_cons.mp hv with heq | hold
      · obtain ⟨rfl, rfl, rfl, rfl⟩ := Event.accepted.inj heq
        exact Or.inr fun b hbelow hb => hgreatest b hb hbelow
      · exact Or.inl ⟨v, hold⟩

/-- A leader's answers to a sound choice: none of them reports a proposal, or the value asked for is that of the greatest proposal reported. -/
private theorem choice_report [DecidableEq V] (h : Ballots cfg w) (hr : Replies w) {m : Message V}
    {p p' : PaxosLeaderProtocol V} (hcommand : m.command = .acceptorAgree)
    (hp : (w.leaders m.dest).protocolAt m.instanceID m.proposalID = some p)
    (hadopts : p.adopts m → p'.value = m.value) (hsound : w.ChoiceSound m)
    (hreplies : ∀ r ∈ m :: countedReplies w.log m.dest m.command m.instanceID m.proposalID,
      r ∈ w.sent ∧ r.command = .acceptorAgree ∧ r.instanceID = m.instanceID ∧
        r.proposalID = m.proposalID) :
    (∀ r ∈ m :: countedReplies w.log m.dest m.command m.instanceID m.proposalID, ∀ c,
        numberedBelow c m.proposalID → ∀ v, .accepted r.source m.instanceID c v ∉ w.log) ∨
      ∃ M, .chose m.instanceID M p'.value ∈ w.log ∧
        ∀ r ∈ m :: countedReplies w.log m.dest m.command m.instanceID m.proposalID, ∀ c,
          numberedBelow c m.proposalID → ∀ v, .accepted r.source m.instanceID c v ∈ w.log →
            numberedBelow c M ∨ c = M := by
  have hcovers : ∀ r ∈ m :: countedReplies w.log m.dest m.command m.instanceID m.proposalID,
      ∀ c, numberedBelow c m.proposalID → ∀ v, .accepted r.source m.instanceID c v ∈ w.log →
        notAbove (some c) (reported r.source m.instanceID m.proposalID w.log) := by
    intro r hr c hbelow v hacc
    obtain ⟨hsent, hc, hi, hpid⟩ := hreplies r hr
    have hr' := h.covers r hsent hc c v
    rw [hi, hpid] at hr'
    exact hr' hbelow hacc
  unfold World.ChoiceSound at hsound
  rw [← hcommand] at hsound
  rcases hsound with hnone | ⟨htest, hmax⟩
  · refine Or.inl fun r hr c hbelow v hacc => ?_
    have hcovered := hcovers r hr c hbelow v hacc
    rw [hnone r hr] at hcovered
    exact hcovered
  · have hadopted := htest p hp
    have hsent := (hreplies m List.mem_cons_self).1
    cases hM : reported m.source m.instanceID m.proposalID w.log with
    | none => exact absurd (hr.empty m hsent hcommand hM) hadopted.1
    | some M =>
      refine Or.inr ⟨M, hadopts hadopted ▸ hr.value m hsent hcommand M hM, fun r hr c hbelow v hacc => ?_⟩
      have hcovered := hcovers r hr c hbelow v hacc
      have hle := hmax r hr
      rw [hM] at hle
      cases hr' : reported r.source m.instanceID m.proposalID w.log with
      | none =>
        rw [hr'] at hcovered
        exact hcovered.elim
      | some M' =>
        rw [hr'] at hcovered hle
        simp only [notAbove, numberedBelow, Prod.ext_iff] at hcovered hle ⊢
        omega

theorem choose [DecidableEq V] (h : Ballots cfg w) (hd : Delivery cfg w) (hr : Replies w) {m : Message V}
    {ld : PaxosLeader V} {p p' : PaxosLeaderProtocol V} (hnet : m ∈ w.net)
    (hcommand : m.command = .acceptorAgree)
    (hp : (w.leaders m.dest).protocolAt m.instanceID m.proposalID = some p)
    (hstate : p.state = .proposed)
    (hquorum : (w.leaders m.dest).acceptors.length / 2 + 1 ≤ p.agreecount + 1)
    (hadopts : p.adopts m → p'.value = m.value) (hsound : w.ChoiceSound m) :
    Ballots cfg ((w.consume m).leaderDone m.dest
      { node := ld
        sent := acceptRequests (w.leaders m.dest).acceptors (w.leaders m.dest).port m p'.value
        events := [.chose m.instanceID m.proposalID p'.value,
          .counted (w.leaders m.dest).port m] }) := by
  have hprotocol : m.IsProtocol := by simp [Message.IsProtocol, hcommand]
  have hreplies : ∀ r ∈ m :: countedReplies w.log m.dest m.command m.instanceID m.proposalID,
      r ∈ w.sent ∧ r.command = .acceptorAgree ∧ r.instanceID = m.instanceID ∧
        r.proposalID = m.proposalID := by
    intro r hr
    rcases List.mem_cons.mp hr with rfl | hr
    · exact ⟨hd.sent_of_net hnet hprotocol, hcommand, rfl, rfl⟩
    · obtain ⟨_, hc, hi, hpid⟩ := mem_countedReplies.mp hr
      exact ⟨hd.sent_of_reply hr, hc.trans hcommand, hi, hpid⟩
  have hagreed : ∀ r ∈ m :: countedReplies w.log m.dest m.command m.instanceID m.proposalID,
      r.source ∈ cfg.acceptors ∧ .agreed r.source m.instanceID m.proposalID ∈ w.log := by
    intro r hr
    obtain ⟨hsent, hc, hi, hpid⟩ := hreplies r hr
    obtain ⟨hsource, hhas⟩ := hd.agreeSent r hsent hc
    rw [hi, hpid, h.agreed] at hhas
    exact ⟨hsource, hhas⟩
  have hcounts := (hd.counts _ _ _ p hp).1
  have hQ := hd.quorum_of_replies hnet hprotocol (fun r hr => (hagreed r hr).1)
    (by rw [hcommand]; omega)
  set Q := ((m :: countedReplies w.log m.dest m.command m.instanceID m.proposalID).map
    Message.source).toFinset
  have hmemQ : ∀ {P : Port → Prop},
      (∀ r ∈ m :: countedReplies w.log m.dest m.command m.instanceID m.proposalID, P r.source) →
      ∀ a ∈ Q, P a := by
    intro P hP a ha
    obtain ⟨r, hr, rfl⟩ := List.mem_map.mp (List.mem_toFinset.mp ha)
    exact hP r hr
  have hagreedQ : ∀ a ∈ Q, .agreed a m.instanceID m.proposalID ∈ w.log :=
    hmemQ fun r hr => (hagreed r hr).2
  have hopen := (hd.proposed _ _ _ p hp hstate).2
  have hcounted : Ballots cfg ((w.consume m).leaderDone m.dest
      { node := ld
        sent := acceptRequests (w.leaders m.dest).acceptors (w.leaders m.dest).port m p'.value
        events := [.counted (w.leaders m.dest).port m] }) := by
    refine h.frame [.counted (w.leaders m.dest).port m] (fun _ _ _ => Iff.rfl) ?_ rfl
      (by simp [Event.IsBallot])
    intro r hr hc
    rcases List.mem_append.mp hr with hold | hnew
    · exact hold
    · obtain ⟨l, _, rfl⟩ := List.mem_map.mp hnew
      exact absurd hc (by simp)
  refine
    { hcounted with
      agreed := by simpa using hcounted.agreed
      acceptedAgreed := by simpa using hcounted.acceptedAgreed
      increasing := fun a i pid v hv => hcounted.increasing a i pid v (by simpa using hv)
      covers := fun r hr hc c v hbelow hacc => hcounted.covers r hr hc c v hbelow (by simpa using hacc)
      backed := ?_, safe := ?_ }
  · intro i pid v hv
    rcases List.mem_cons.mp hv with heq | hold
    · obtain ⟨rfl, rfl, rfl⟩ := Event.chose.inj heq
      refine ⟨Q, hQ, fun a ha => ?_⟩
      simpa using hagreedQ a ha
    · obtain ⟨R, hR, hall⟩ := hcounted.backed i pid v hold
      exact ⟨R, hR, fun a ha => List.mem_cons_of_mem _ (hall a ha)⟩
  · intro i
    rcases eq_or_ne i m.instanceID with rfl | hi
    · have hsafe := (h.safe m.instanceID).choose (fun c v v' => hd.choseOnce _ c v v')
        (fun a c hacc => hacc.imp fun v hv => hd.acceptedChose a _ c v hv) (h.backed m.instanceID)
        (b := m.proposalID) (w := p'.value) hopen hQ hagreedQ ?_
      · simpa [voting, or_comm] using hsafe
      · rcases h.choice_report hr hcommand hp hadopts hsound hreplies with hnone | ⟨M, hM, hmax⟩
        · refine Or.inl (hmemQ fun r hr c hbelow hacc => ?_)
          obtain ⟨v, hv⟩ := hacc
          exact hnone r hr c hbelow v hv
        · refine Or.inr ⟨M, hM, hmemQ fun r hr c hbelow hacc => ?_⟩
          obtain ⟨v, hv⟩ := hacc
          exact hmax r hr c hbelow v hv
    · simpa [voting, hi] using hcounted.safe i

theorem move [DecidableEq V] (hmove : Move cfg True w w') (hd : Delivery cfg w) (hr : Replies w)
    (h : Ballots cfg w) : Ballots cfg w' := by
  -- what the leaders do, short of asking for acceptance, is not seen by the ballots
  have hleader : ∀ l ld sent events, (∀ m ∈ sent, m.command ≠ .acceptorAgree) →
      (∀ e ∈ events, ¬ e.IsBallot) → ∀ w'' : World V, w''.acceptors = w.acceptors →
      w''.sent = w.sent → w''.log = w.log →
      Ballots cfg (w''.leaderDone l { node := ld, sent := sent, events := events }) := by
    intro l ld sent events hcommand hevents w'' hacceptors hsent hlog
    refine h.frame events ?_ ?_ ?_ hevents
    · simp [hacceptors]
    · intro m hm hc
      rcases List.mem_append.mp hm with hold | hnew
      · exact hsent ▸ hold
      · exact absurd hc (hcommand m hnew)
    · simp [hlog]
  cases hmove with
  | consume m => exact h.frame [] (fun _ _ _ => Iff.rfl) (fun _ hm _ => hm) rfl (by simp)
  | inject m hm => exact h.frame [] (fun _ _ _ => Iff.rfl) (fun _ hm _ => hm) rfl (by simp)
  | leaderQuiet l ld hquiet => exact hleader l ld [] [] (by simp) (by simp) w rfl rfl rfl
  | acceptorQuiet a ac _ _ hinstances => exact h.acceptorQuiet hinstances
  | propose l ld i value p _ _ _ _ =>
    refine hleader l ld _ [] ?_ (by simp) w rfl rfl rfl
    intro m hm
    obtain ⟨s, _, rfl⟩ := List.mem_map.mp hm
    simp
  | count m ld p p' _ _ _ _ _ _ _ =>
    exact hleader m.dest ld [] _ (by simp) (by simp [Event.IsBallot]) (w.consume m) rfl rfl rfl
  | choose m ld p p' hnet hcommand hp hstate hquorum _ _ _ _ _ _ hadopts hsound =>
    exact h.choose hd hr hnet hcommand hp hstate hquorum hadopts (hsound trivial)
  | record m ld p p' _ _ _ _ _ _ _ _ _ _ =>
    exact hleader m.dest ld [] _ (by simp) (by simp [Event.IsBallot]) (w.consume m) rfl rfl rfl
  | agree m reply ac p _ hnet hcommand hsets _ hstate hreply =>
    exact h.agree hd hnet hcommand hsets hstate ⟨hreply.1, hreply.2.1, hreply.2.2.1, hreply.2.2.2.1⟩
  | reject m ac p _ hnet hcommand hsets _ hstate =>
    exact h.reject hd hnet hcommand hsets hstate
  | accept m ac p p' _ _ _ hp hstate hsets _ hstate' hsound =>
    exact h.accept hd hp hstate hsets hstate' (hsound trivial)

end Ballots

variable [DecidableEq V] [Zero V]

theorem ballots_after (cfg : Config) (actions : List (Action V))
    (hrun : Transition.Along (World.step cfg) SoundStep (World.init cfg) actions) :
    Delivery cfg (World.after cfg actions) ∧ Ballots cfg (World.after cfg actions) := by
  have hmoves : ∀ w w' : World V, Move cfg True w w' → Delivery cfg w ∧ Replies w ∧ Ballots cfg w →
      Delivery cfg w' ∧ Replies w' ∧ Ballots cfg w' := by
    rintro w w' hmove ⟨hd, hr, hb⟩
    exact ⟨hd.move hmove, hr.move hmove hd, hb.move hmove hd hr⟩
  obtain ⟨hd, -, hb⟩ := after_invariant cfg True ⟨delivery_init cfg, replies_init cfg, ballots_init cfg⟩ hmoves
    (by simpa using hrun)
  exact ⟨hd, hb⟩

/-- Where every step of a run is sound, all values recorded for an instance are equal. -/
theorem recorded_agree (cfg : Config) (actions : List (Action V))
    (hrun : Transition.Along (World.step cfg) SoundStep (World.init cfg) actions)
    (i : Int) (l l' : Port) (pid pid' : ProposalID) (v v' : Option V)
    (hv : .recorded l i pid v ∈ (World.after cfg actions).log)
    (hv' : .recorded l' i pid' v' ∈ (World.after cfg actions).log) : v = v' := by
  obtain ⟨hd, hb⟩ := ballots_after cfg actions hrun
  have hquorum : ∀ {l pid v}, .recorded l i pid v ∈ (World.after cfg actions).log →
      (voting (World.after cfg actions).log i).chose pid v ∧
        ∃ Q, IsQuorum cfg.acceptors Q ∧
          ∀ a ∈ Q, (voting (World.after cfg actions).log i).accepted a pid := by
    intro l pid v hv
    obtain ⟨Q, hQ, hall⟩ := hd.recorded l i pid v hv
    have hnonempty := hQ.inter_nonempty hQ
    obtain ⟨a, ha, _⟩ := hnonempty
    exact ⟨hd.acceptedChose a i pid v (hall a ha), Q, hQ, fun a ha => ⟨v, hall a ha⟩⟩
  obtain ⟨hchose, hQ⟩ := hquorum hv
  obtain ⟨hchose', hQ'⟩ := hquorum hv'
  exact (hb.safe i).agreement (fun c u u' => hd.choseOnce i c u u') hchose hchose' hQ hQ'

/-- Two leaders and one acceptor. -/
def duelConfig : Config where
  leaders := [1, 2]
  acceptors := [3]
  leaders_nodup := by decide
  acceptors_nodup := by decide
  bound_once := by decide

/-- The leader `1` drives a value through instance `0` and the leader `2` listens. -/
def listenRun : List (Action Nat) :=
  [.start 1, .setPrimary 1 true, .start 2, .extPropose 1 9 (some 10),
    .deliver { command := .extPropose, dest := 1, source := 9, value := some 10 },
    .deliver { command := .propose, proposalID := (1, 1), instanceID := 0, dest := 3, source := 1,
               value := some 10 },
    .deliver { command := .acceptorAgree, proposalID := (1, 1), instanceID := 0, dest := 1,
               source := 3 },
    .deliver { command := .accept, proposalID := (1, 1), instanceID := 0, dest := 3, source := 1,
               value := some 10 },
    .deliver { command := .acceptorAccept, proposalID := (1, 1), instanceID := 0, dest := 1,
               source := 3, value := some 10 },
    .deliver { command := .acceptorAccept, proposalID := (1, 1), instanceID := 0, dest := 2,
               source := 3, value := some 10 }]

omit [DecidableEq V] [Zero V] in
private theorem soundStep_of_command {w : World V} {m : Message V} (haccept : m.command ≠ .accept)
    (hagree : m.command ≠ .acceptorAgree) : SoundStep w (.deliver m) :=
  ⟨fun h => absurd h.2.1 haccept, fun h => absurd h.2.2.1 hagree⟩

private theorem listenRun_sound :
    Transition.Along (World.step duelConfig) SoundStep (World.init duelConfig) listenRun := by
  refine ⟨trivial, trivial, trivial, trivial, soundStep_of_command (by decide) (by decide),
    soundStep_of_command (by decide) (by decide), ?_, ?_,
    soundStep_of_command (by decide) (by decide), soundStep_of_command (by decide) (by decide),
    trivial⟩
  · exact ⟨fun h => absurd h.2.1 (by decide), fun _ => Or.inl (by decide)⟩
  · refine ⟨fun _ pid hbelow hagreed => ?_, fun h => absurd h.2.2.1 (by decide)⟩
    obtain ⟨p, hp, _⟩ := hagreed
    have hne : pid ≠ (1, 1) := by
      rintro rfl
      exact absurd hbelow (by decide)
    change Function.update (fun _ => none) ((1, 1) : ProposalID) (some _) pid = some p at hp
    rw [Function.update_of_ne hne] at hp
    exact absurd hp (by simp)

theorem recorded_agree_listenRun :
    Transition.Along (World.step duelConfig) SoundStep (World.init duelConfig) listenRun ∧
      .recorded 1 0 (1, 1) (some 10) ∈ (World.after duelConfig listenRun).log ∧
      .recorded 2 0 (1, 1) (some 10) ∈ (World.after duelConfig listenRun).log ∧
      (some 10 : Option Nat) = some 10 :=
  ⟨listenRun_sound, by decide, by decide,
    recorded_agree duelConfig listenRun listenRun_sound 0 1 2 (1, 1) (1, 1) (some 10) (some 10)
      (by decide) (by decide)⟩

/-- The acceptor agrees to both leaders' proposals before it accepts either, and then accepts the one after the other. -/
def duelRun : List (Action Nat) :=
  [.start 1, .setPrimary 1 true, .start 2, .setPrimary 2 true,
    .extPropose 1 9 (some 10), .extPropose 2 9 (some 20),
    .deliver { command := .extPropose, dest := 1, source := 9, value := some 10 },
    .deliver { command := .extPropose, dest := 2, source := 9, value := some 20 },
    .deliver { command := .propose, proposalID := (1, 1), instanceID := 0, dest := 3, source := 1,
               value := some 10 },
    .deliver { command := .propose, proposalID := (2, 1), instanceID := 0, dest := 3, source := 2,
               value := some 20 },
    .deliver { command := .acceptorAgree, proposalID := (1, 1), instanceID := 0, dest := 1,
               source := 3 },
    .deliver { command := .acceptorAgree, proposalID := (2, 1), instanceID := 0, dest := 2,
               source := 3, sequence := (1, 1) },
    .deliver { command := .accept, proposalID := (1, 1), instanceID := 0, dest := 3, source := 1,
               value := some 10 },
    .deliver { command := .acceptorAccept, proposalID := (1, 1), instanceID := 0, dest := 1,
               source := 3, value := some 10 },
    .deliver { command := .accept, proposalID := (2, 1), instanceID := 0, dest := 3, source := 2,
               value := some 20 },
    .deliver { command := .acceptorAccept, proposalID := (2, 1), instanceID := 0, dest := 2,
               source := 3, value := some 20 }]

/-- Two leaders record different values for one instance. -/
theorem duel_disagrees :
    ¬ ∀ l l' i pid pid' v v', .recorded l i pid v ∈ (World.after duelConfig duelRun).log →
      .recorded l' i pid' v' ∈ (World.after duelConfig duelRun).log → v = v' := by
  intro hagree
  have hfirst : .recorded 1 0 (1, 1) (some 10) ∈ (World.after duelConfig duelRun).log := by decide
  have hsecond : .recorded 2 0 (2, 1) (some 20) ∈ (World.after duelConfig duelRun).log := by decide
  exact absurd (hagree 1 2 0 (1, 1) (2, 1) _ _ hfirst hsecond) (by decide)

end Reading.Paxos
