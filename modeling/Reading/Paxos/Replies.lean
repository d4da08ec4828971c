import Reading.Paxos.Delivery

/-!
# What a reply tells

An answer to `MSG_PROPOSE` carries the value the acceptor keeps for the instance and, as its sequence, the highest proposal the acceptor has seen. In every run the value is that of the proposal the acceptor had accepted last, and an answer that carries one has a leader's number for its sequence. A leader still waiting for its quorum has not yet raised its `highestseen`, so any such number passes its test.

None of this depends on the two defects.
-/

namespace Reading.Paxos

variable {V : Type}

/-! ### The history of an acceptor -/

/-- The events a voting is made of. -/
def Event.IsBallot : Event V → Prop
  | .agreed .. | .accepted .. | .chose .. => True
  | _ => False

theorem lastAccepted_append (events : List (Event V)) (a : Port) (i : Int)
    (hevents : ∀ e ∈ events, ∀ pid v, e ≠ .accepted a i pid v) (log : List (Event V)) :
    lastAccepted a i (events ++ log) = lastAccepted a i log := by
  induction events with
  | nil => rfl
  | cons e events ih =>
    have hrest := ih fun e' he' => hevents e' (List.mem_cons_of_mem _ he')
    have hhead := hevents e List.mem_cons_self
    cases e with
    | accepted a' i' pid v =>
      have hne : ¬ (a' = a ∧ i' = i) := by
        rintro ⟨rfl, rfl⟩
        exact hhead pid v rfl
      rw [List.cons_append, lastAccepted, if_neg hne, hrest]
    | _ => exact hrest

theorem reported_append {events : List (Event V)} (a : Port) (i : Int) (pid : ProposalID)
    (hevents : .agreed a i pid ∉ events) (log : List (Event V)) :
    reported a i pid (events ++ log) = reported a i pid log := by
  induction events with
  | nil => rfl
  | cons e events ih =>
    rw [List.mem_cons, not_or] at hevents
    have hrest := ih hevents.2
    cases e with
    | agreed a' i' pid' =>
      have hne : ¬ (a' = a ∧ i' = i ∧ pid' = pid) := by
        rintro ⟨rfl, rfl, rfl⟩
        exact hevents.1 rfl
      rw [List.cons_append, reported, if_neg hne, hrest]
    | _ => exact hrest

/-- An answer on record is not for a proposal its sender is only now asked about. -/
theorem Delivery.not_agreed_of_answer {cfg : Config} {w : World V} (hd : Delivery cfg w) {m r : Message V} (hnet : m ∈ w.net)
    (hcommand : m.command = .propose) (hr : r ∈ w.sent) (hc : r.command = .acceptorAgree) :
    .agreed r.source r.instanceID r.proposalID ∉ [(.agreed m.dest m.instanceID m.proposalID : Event V)] := by
  rw [List.mem_singleton]
  intro heq
  obtain ⟨hsrc, hinst, hprop⟩ := Event.agreed.inj heq
  obtain ⟨-, q, hq, -⟩ := hd.agreeSent r hr hc
  rw [hsrc, hinst, hprop, hd.unknown hnet hcommand] at hq
  exact absurd hq (by simp)

theorem valueAt_update_same {w : World V} {a : Port} {ac : PaxosAcceptor V}
    (hvalue : ∀ j, ac.valueAt j = (w.acceptors a).valueAt j) (b : Port) (j : Int) :
    (Function.update w.acceptors a ac b).valueAt j = (w.acceptors b).valueAt j := by
  rcases eq_or_ne b a with rfl | hb
  · simpa using hvalue j
  · simp [hb]

/-! ### The value of a reply -/

/-- The value an acceptor keeps, and reports, is that of the proposal it accepted last. -/
structure Replies (w : World V) : Prop where
  kept : ∀ a i M, lastAccepted a i w.log = some M → .chose i M ((w.acceptors a).valueAt i) ∈ w.log
  unset : ∀ a i, lastAccepted a i w.log = none → (w.acceptors a).valueAt i = none
  value : ∀ r ∈ w.sent, r.command = .acceptorAgree → ∀ M, reported r.source r.instanceID r.proposalID w.log = some M →
    .chose r.instanceID M r.value ∈ w.log
  empty : ∀ r ∈ w.sent, r.command = .acceptorAgree → reported r.source r.instanceID r.proposalID w.log = none →
    r.value = none

theorem replies_init (cfg : Config) : Replies (World.init cfg : World V) := by
  constructor <;> simp [World.init, PaxosAcceptor.valueAt, lastAccepted]

namespace Replies

variable {cfg : Config} {w w' : World V}

/-- A move by which no acceptor's history grows. -/
theorem frame (h : Replies w) (events : List (Event V))
    (hvalue : ∀ a i, (w'.acceptors a).valueAt i = (w.acceptors a).valueAt i)
    (hsent : ∀ m ∈ w'.sent, m.command = .acceptorAgree → m ∈ w.sent) (hlog : w'.log = events ++ w.log)
    (haccepted : ∀ a i pid v, .accepted a i pid v ∉ events) (hagreed : ∀ a i pid, .agreed a i pid ∉ events) :
    Replies w' := by
  have hlast : ∀ a i, lastAccepted a i w'.log = lastAccepted a i w.log := by
    intro a i
    rw [hlog]
    refine lastAccepted_append events a i ?_ w.log
    rintro e he pid v rfl
    exact haccepted a i pid v he
  have hreported : ∀ a i pid, reported a i pid w'.log = reported a i pid w.log := by
    intro a i pid
    rw [hlog]
    exact reported_append a i pid (hagreed a i pid) w.log
  have hchose : ∀ i pid v, .chose i pid v ∈ w.log → .chose i pid v ∈ w'.log := by
    intro i pid v hv
    rw [hlog]
    exact List.mem_append_right _ hv
  constructor
  · intro a i M hM
    rw [hvalue]
    exact hchose _ _ _ (h.kept a i M ((hlast a i).symm.trans hM))
  · intro a i hnone
    rw [hvalue]
    exact h.unset a i ((hlast a i).symm.trans hnone)
  · intro r hr hc M hM
    exact hchose _ _ _ (h.value r (hsent r hr hc) hc M ((hreported _ _ _).symm.trans hM))
  · intro r hr hc hnone
    exact h.empty r (hsent r hr hc) hc ((hreported _ _ _).symm.trans hnone)

theorem agree [DecidableEq V] (h : Replies w) (hd : Delivery cfg w) {m reply : Message V} {ac : PaxosAcceptor V}
    (hnet : m ∈ w.net) (hcommand : m.command = .propose) (hvalue : ∀ j, ac.valueAt j = (w.acceptors m.dest).valueAt j)
    (hreply : reply.command = .acceptorAgree ∧ reply.instanceID = m.instanceID ∧ reply.proposalID = m.proposalID ∧
      reply.source = (w.acceptors m.dest).port ∧ reply.value = (w.acceptors m.dest).valueAt m.instanceID) :
    Replies ((w.consume m).acceptorDone m.dest
      { node := ac, sent := [reply], events := [.agreed (w.acceptors m.dest).port m.instanceID m.proposalID] }) := by
  rw [(hd.acceptor m.dest).1] at hreply ⊢
  obtain ⟨-, hi, hpid, hsource, hreplyValue⟩ := hreply
  have hlast : ∀ a i, lastAccepted a i (.agreed m.dest m.instanceID m.proposalID :: w.log) = lastAccepted a i w.log :=
    fun a i => lastAccepted_append [_] a i (by simp) w.log
  have hvalueAt := valueAt_update_same hvalue
  have hreported : reported reply.source reply.instanceID reply.proposalID
      (.agreed m.dest m.instanceID m.proposalID :: w.log) = lastAccepted m.dest m.instanceID w.log := by
    rw [hsource, hi, hpid, reported, if_pos ⟨rfl, rfl, rfl⟩]
  constructor
  · intro a i M hM
    exact (hvalueAt a i).symm ▸ List.mem_cons_of_mem _ (h.kept a i M ((hlast a i).symm.trans hM))
  · intro a i hnone
    exact (hvalueAt a i).trans (h.unset a i ((hlast a i).symm.trans hnone))
  · intro r hr hc M hM
    refine List.mem_cons_of_mem _ ?_
    rcases List.mem_append.mp hr with hold | hnew
    · exact h.value r hold hc M ((reported_append _ _ _ (hd.not_agreed_of_answer hnet hcommand hold hc) w.log).symm.trans hM)
    · obtain rfl := List.mem_singleton.mp hnew
      rw [hi, hreplyValue]
      exact h.kept _ _ M (hreported.symm.trans hM)
  · intro r hr hc hnone
    rcases List.mem_append.mp hr with hold | hnew
    · exact h.empty r hold hc ((reported_append _ _ _ (hd.not_agreed_of_answer hnet hcommand hold hc) w.log).symm.trans hnone)
    · obtain rfl := List.mem_singleton.mp hnew
      rw [hreplyValue]
      exact h.unset _ _ (hreported.symm.trans hnone)

theorem accept [DecidableEq V] (h : Replies w) (hd : Delivery cfg w) {m : Message V} {ac : PaxosAcceptor V}
    (hnet : m ∈ w.net) (hcommand : m.command = .accept)
    (hvalue : ∀ j, ac.valueAt j = if j = m.instanceID then m.value else (w.acceptors m.dest).valueAt j) :
    Replies ((w.consume m).acceptorDone m.dest
      { node := ac
        sent := acceptNotices (w.acceptors m.dest).leaders (w.acceptors m.dest).port m
        events := [.accepted (w.acceptors m.dest).port m.instanceID m.proposalID m.value] }) := by
  rw [(hd.acceptor m.dest).1]
  have hchose := hd.acceptSent m (hd.sent_of_net hnet (by simp [Message.IsProtocol, hcommand])) hcommand
  have hlast : ∀ a i, lastAccepted a i (.accepted m.dest m.instanceID m.proposalID m.value :: w.log) =
      if m.dest = a ∧ m.instanceID = i then some m.proposalID else lastAccepted a i w.log := fun a i => rfl
  have hvalueAt : ∀ a i, (Function.update w.acceptors m.dest ac a).valueAt i =
      if m.dest = a ∧ m.instanceID = i then m.value else (w.acceptors a).valueAt i := by
    intro a i
    rcases eq_or_ne a m.dest with rfl | ha
    · simp [hvalue, eq_comm]
    · simp [ha, ha.symm]
  have hold : ∀ r ∈ w.sent ++ acceptNotices (w.acceptors m.dest).leaders m.dest m, r.command = .acceptorAgree → r ∈ w.sent := by
    intro r hr hc
    rcases List.mem_append.mp hr with hold | hnew
    · exact hold
    · obtain ⟨l, -, rfl⟩ := List.mem_map.mp hnew
      exact absurd hc (by simp)
  constructor
  · intro a i M hM
    refine List.mem_cons_of_mem _ ?_
    have hM' := (hlast a i).symm.trans hM
    simp only [acceptorDone_acceptors, consume_acceptors, hvalueAt]
    split at hM'
    next hai =>
      obtain ⟨rfl, rfl⟩ := hai
      rw [if_pos ⟨rfl, rfl⟩, ← Option.some.inj hM']
      exact hchose
    next hai =>
      rw [if_neg hai]
      exact h.kept a i M hM'
  · intro a i hnone
    have hnone' := (hlast a i).symm.trans hnone
    split at hnone'
    next => exact absurd hnone' (by simp)
    next hai =>
      simp only [acceptorDone_acceptors, consume_acceptors, hvalueAt, if_neg hai]
      exact h.unset a i hnone'
  · exact fun r hr hc M hM => List.mem_cons_of_mem _ (h.value r (hold r hr hc) hc M hM)
  · exact fun r hr hc hnone => h.empty r (hold r hr hc) hc hnone

theorem move [DecidableEq V] {Sound : Prop} (hmove : Move cfg Sound w w') (hd : Delivery cfg w) (h : Replies w) :
    Replies w' := by
  -- what the leaders do is not seen by the acceptors' histories
  have hleader : ∀ l ld sent events, (∀ m ∈ sent, m.command ≠ .acceptorAgree) → (∀ a i pid v, .accepted a i pid v ∉ events) →
      (∀ a i pid, .agreed a i pid ∉ events) → ∀ w'' : World V, w''.acceptors = w.acceptors → w''.sent = w.sent →
      w''.log = w.log → Replies (w''.leaderDone l { node := ld, sent := sent, events := events }) := by
    intro l ld sent events hcommand haccepted hagreed w'' hacceptors hsent hlog
    refine h.frame events ?_ ?_ ?_ haccepted hagreed
    · simp [hacceptors]
    · intro m hm hc
      rcases List.mem_append.mp hm with hold | hnew
      · exact hsent ▸ hold
      · exact absurd hc (hcommand m hnew)
    · simp [hlog]
  have hquiet : ∀ a ac, (∀ j, ac.valueAt j = (w.acceptors a).valueAt j) → ∀ w'' : World V, w''.acceptors = w.acceptors →
      w''.sent = w.sent → w''.log = w.log → Replies (w''.acceptorDone a { node := ac }) := by
    intro a ac hvalue w'' hacceptors hsent hlog
    refine h.frame [] ?_ ?_ (by simp [hlog]) (by simp) (by simp)
    · simpa [hacceptors] using valueAt_update_same hvalue
    · simpa [hsent] using fun m hm _ => hm
  cases hmove with
  | consume m => exact h.frame [] (fun _ _ => rfl) (fun _ hm _ => hm) rfl (by simp) (by simp)
  | inject m hm => exact h.frame [] (fun _ _ => rfl) (fun _ hm _ => hm) rfl (by simp) (by simp)
  | leaderQuiet l ld _ => exact hleader l ld [] [] (by simp) (by simp) (by simp) w rfl rfl rfl
  | acceptorQuiet a ac _ _ hinstances => exact hquiet a ac (by simp [PaxosAcceptor.valueAt, hinstances]) w rfl rfl rfl
  | propose l ld i value p _ _ _ _ =>
    exact hleader l ld _ [] (by simp [proposals]) (by simp) (by simp) w rfl rfl rfl
  | count m ld p p' _ _ _ _ _ _ _ => exact hleader m.dest ld [] _ (by simp) (by simp) (by simp) (w.consume m) rfl rfl rfl
  | choose m ld p p' _ _ _ _ _ _ _ _ _ _ _ _ _ =>
    exact hleader m.dest ld _ _ (by simp [acceptRequests]) (by simp) (by simp) (w.consume m) rfl rfl rfl
  | record m ld p p' _ _ _ _ _ _ _ _ _ _ =>
    exact hleader m.dest ld [] _ (by simp) (by simp) (by simp) (w.consume m) rfl rfl rfl
  | agree m reply ac p _ hnet hcommand _ hvalue _ hreply => exact h.agree hd hnet hcommand hvalue hreply
  | reject m ac p _ _ _ _ hvalue _ => exact hquiet m.dest ac hvalue (w.consume m) rfl rfl rfl
  | accept m ac p p' _ hnet hcommand _ _ _ hvalue _ _ => exact h.accept hd hnet hcommand hvalue

end Replies

/-! ### The sequence of a reply -/

/-- A proposal number that a leader has given out. -/
def Config.IsNumber (cfg : Config) (pid : ProposalID) : Prop := pid.1 ∈ cfg.leaders ∧ 0 < pid.2

/-- What an acceptor knows of an instance starts with a leader's proposal. -/
structure PaxosAcceptor.Numbered (cfg : Config) (ac : PaxosAcceptor V) : Prop where
  highest : ∀ i, ac.highestAt i = (-1, -1) ∨ cfg.IsNumber (ac.highestAt i)
  opened : ∀ i pid p, ac.protocolAt i pid = some p → cfg.IsNumber (ac.highestAt i)
  valued : ∀ i, ac.valueAt i ≠ none → cfg.IsNumber (ac.highestAt i)

/-- A protocol that waits for its quorum has adopted no value yet. -/
def PaxosLeader.Waits (self : PaxosLeader V) : Prop :=
  0 ≤ self.proposalCount ∧ ∀ i pid p, self.protocolAt i pid = some p → p.state = .proposed → p.highestseen = (0, 0)

structure Numbering (cfg : Config) (w : World V) : Prop where
  leader : ∀ l, (w.leaders l).Waits
  acceptor : ∀ a, (w.acceptors a).Numbered cfg
  proposeSent : ∀ m ∈ w.sent, m.command = .propose → cfg.IsNumber m.proposalID
  sequence : ∀ r ∈ w.sent, r.command = .acceptorAgree → r.value ≠ none → cfg.IsNumber r.sequence

theorem numbering_init (cfg : Config) : Numbering cfg (World.init cfg : World V) := by
  constructor
  case acceptor =>
    intro a
    constructor <;> simp [World.init, PaxosAcceptor.highestAt, PaxosAcceptor.protocolAt, PaxosAcceptor.valueAt]
  all_goals simp [World.init, PaxosLeader.Waits, PaxosLeader.protocolAt]

/-- Replacing one protocol keeps a leader waiting if that protocol has adopted nothing or no longer waits. -/
theorem LeaderSets.waits {ld ld' : PaxosLeader V} {i : Int} {pid : ProposalID} {p : PaxosLeaderProtocol V}
    (hsets : LeaderSets ld ld' i pid p) (h : ld.Waits) (hcount : ld.proposalCount ≤ ld'.proposalCount)
    (hp : p.state = .proposed → p.highestseen = (0, 0)) : ld'.Waits := by
  refine ⟨h.1.trans hcount, fun j q p' hp' hstate => ?_⟩
  rw [hsets.protocol] at hp'
  split at hp'
  next =>
    obtain rfl := Option.some.inj hp'
    exact hp hstate
  next => exact h.2 j q p' hp' hstate

theorem LeaderQuiet.waits {ld ld' : PaxosLeader V} (hquiet : LeaderQuiet ld ld') (h : ld.Waits) : ld'.Waits := by
  refine ⟨h.1.trans hquiet.count, fun i pid p' hp' hstate => ?_⟩
  rcases hquiet.protocol i pid p' hp' with ⟨hne, -, -⟩ | ⟨p, hp, -, -, hseen, hback⟩
  · exact absurd hstate hne
  · exact hseen.trans (h.2 i pid p hp (hback hstate))

/-- An acceptor that looks at a leader's proposal goes on to know one of the instance. -/
theorem AcceptorRaises.numbered {cfg : Config} {ac ac' : PaxosAcceptor V} {i : Int} {pid : ProposalID}
    {p : PaxosAcceptorProtocol} (hraises : AcceptorRaises ac ac' i pid) (h : ac.Numbered cfg) (hnumber : cfg.IsNumber pid)
    (hsets : AcceptorSets ac ac' i pid p) (hvalue : ∀ j, ac'.valueAt j = ac.valueAt j) : ac'.Numbered cfg := by
  have hkeep : ∀ j, cfg.IsNumber (ac.highestAt j) → cfg.IsNumber (ac'.highestAt j) := by
    intro j hj
    rw [hraises]
    split
    next => exact hnumber
    next => exact hj
  have hself : cfg.IsNumber (ac'.highestAt i) := by
    rcases h.highest i with hnone | hold
    · rw [hraises, if_pos ⟨rfl, by rw [hnone]; exact .inl (by have := hnumber.2; omega)⟩]
      exact hnumber
    · exact hkeep i hold
  constructor
  · intro j
    rcases h.highest j with hnone | hold
    · rw [hraises]
      split
      next => exact .inr hnumber
      next => exact .inl hnone
    · exact .inr (hkeep j hold)
  · intro j q p' hp'
    rw [hsets.protocol] at hp'
    split at hp'
    next hjq => exact hjq.1 ▸ hself
    next => exact hkeep j (h.opened j q p' hp')
  · intro j hj
    exact hkeep j (h.valued j (hvalue j ▸ hj))

namespace Numbering

variable {cfg : Config} {w w' : World V}

/-- A move of one leader. -/
theorem setLeader (h : Numbering cfg w) {l : Port} {ld : PaxosLeader V} {sent : List (Message V)} {events : List (Event V)}
    (hld : ld.Waits) (hpropose : ∀ m ∈ sent, m.command = .propose → cfg.IsNumber m.proposalID)
    (hagree : ∀ m ∈ sent, m.command ≠ .acceptorAgree) :
    Numbering cfg (w.leaderDone l { node := ld, sent := sent, events := events }) := by
  refine ⟨fun k => ?_, h.acceptor, fun m hm hc => ?_, fun r hr hc hvalue => ?_⟩
  · rcases eq_or_ne k l with rfl | hk
    · simpa using hld
    · simpa [hk] using h.leader k
  · rcases List.mem_append.mp hm with hold | hnew
    · exact h.proposeSent m hold hc
    · exact hpropose m hnew hc
  · rcases List.mem_append.mp hr with hold | hnew
    · exact h.sequence r hold hc hvalue
    · exact absurd hc (hagree r hnew)

/-- A move of one acceptor. -/
theorem setAcceptor (h : Numbering cfg w) {a : Port} {ac : PaxosAcceptor V} {sent : List (Message V)}
    {events : List (Event V)} (hac : ac.Numbered cfg) (hpropose : ∀ m ∈ sent, m.command ≠ .propose)
    (hsequence : ∀ r ∈ sent, r.command = .acceptorAgree → r.value ≠ none → cfg.IsNumber r.sequence) :
    Numbering cfg (w.acceptorDone a { node := ac, sent := sent, events := events }) := by
  refine ⟨h.leader, fun b => ?_, fun m hm hc => ?_, fun r hr hc hvalue => ?_⟩
  · rcases eq_or_ne b a with rfl | hb
    · simpa using hac
    · simpa [hb] using h.acceptor b
  · rcases List.mem_append.mp hm with hold | hnew
    · exact h.proposeSent m hold hc
    · exact absurd hc (hpropose m hnew)
  · rcases List.mem_append.mp hr with hold | hnew
    · exact h.sequence r hold hc hvalue
    · exact hsequence r hnew hc hvalue

theorem consume [DecidableEq V] (h : Numbering cfg w) (m : Message V) : Numbering cfg (w.consume m) :=
  ⟨h.leader, h.acceptor, h.proposeSent, h.sequence⟩

theorem move [DecidableEq V] {Sound : Prop} (hmove : Move cfg Sound w w') (hd : Delivery cfg w) (h : Numbering cfg w) :
    Numbering cfg w' := by
  have hnumber : ∀ m ∈ w.net, m.command = .propose → cfg.IsNumber m.proposalID := fun m hnet hcommand =>
    h.proposeSent m (hd.sent_of_net hnet (by simp [Message.IsProtocol, hcommand])) hcommand
  cases hmove with
  | consume m => exact h.consume m
  | inject m _ => exact ⟨h.leader, h.acceptor, h.proposeSent, h.sequence⟩
  | leaderQuiet l ld hquiet => exact h.setLeader (hquiet.waits (h.leader l)) (by simp) (by simp)
  | acceptorQuiet a ac _ _ hinstances =>
    refine h.setAcceptor ⟨?_, ?_, ?_⟩ (by simp) (by simp)
    · simpa [PaxosAcceptor.highestAt, hinstances] using (h.acceptor a).highest
    · simpa [PaxosAcceptor.highestAt, PaxosAcceptor.protocolAt, hinstances] using (h.acceptor a).opened
    · simpa [PaxosAcceptor.highestAt, PaxosAcceptor.valueAt, hinstances] using (h.acceptor a).valued
  | propose l ld i value p hsets hcount _ hp hseen hleader =>
    refine h.setLeader (hsets.waits (h.leader l) (by omega) fun _ => hseen) ?_ (by simp [proposals])
    intro m hm _
    obtain ⟨s, -, rfl⟩ := List.mem_map.mp hm
    have hcounted := (h.leader l).1
    exact ⟨by simpa [(hd.leader l).1] using hleader, by simp only; omega⟩
  | count m ld p p' _ hp hsets hcount _ hstate _ hseen =>
    refine (h.consume m).setLeader (hsets.waits (h.leader m.dest) hcount.ge fun hproposed => ?_) (by simp) (by simp)
    exact hseen.trans ((h.leader m.dest).2 _ _ p hp (hstate ▸ hproposed))
  | choose m ld p p' _ _ _ _ _ hsets hcount _ hstate' _ _ _ _ =>
    exact (h.consume m).setLeader (hsets.waits (h.leader m.dest) hcount.ge (by simp [hstate'])) (by simp [acceptRequests])
      (by simp [acceptRequests])
  | record m ld p p' _ _ _ _ hsets hcount _ hstate' _ _ =>
    exact (h.consume m).setLeader (hsets.waits (h.leader m.dest) hcount.ge (by simp [hstate'])) (by simp) (by simp)
  | agree m reply ac p _ hnet hcommand hsets hvalue _ hreply hsequence hraises =>
    obtain ⟨hreplyCommand, -, -, -, hreplyValue⟩ := hreply
    refine (h.consume m).setAcceptor (hraises.numbered (h.acceptor m.dest) (hnumber m hnet hcommand) hsets hvalue) ?_ ?_
    · simp [hreplyCommand]
    · intro r hr _ hnone
      obtain rfl := List.mem_singleton.mp hr
      rw [hsequence]
      exact (h.acceptor m.dest).valued _ (hreplyValue ▸ hnone)
  | reject m ac p _ hnet hcommand hsets hvalue _ hraises =>
    exact (h.consume m).setAcceptor (hraises.numbered (h.acceptor m.dest) (hnumber m hnet hcommand) hsets hvalue) (by simp)
      (by simp)
  | accept m ac p p' _ _ _ hp _ hsets hvalue _ _ hhighest =>
    have hac := h.acceptor m.dest
    refine (h.consume m).setAcceptor ⟨?_, ?_, ?_⟩ (by simp [acceptNotices]) (by simp [acceptNotices])
    · simpa [hhighest] using hac.highest
    · intro j q p'' hp''
      rw [hsets.protocol] at hp''
      rw [hhighest]
      split at hp''
      next hjq => exact hjq.1 ▸ hac.opened _ _ p hp
      next => exact hac.opened j q p'' hp''
    · intro j hj
      rw [hvalue] at hj
      rw [hhighest]
      split at hj
      next hjm => exact hjm ▸ hac.opened _ _ p hp
      next => exact hac.valued j hj

end Numbering

theorem replies_after [DecidableEq V] [Zero V] (cfg : Config) (actions : List (Action V)) :
    Delivery cfg (World.after cfg actions) ∧ Replies (World.after cfg actions) ∧ Numbering cfg (World.after cfg actions) := by
  have hmoves : ∀ w w' : World V, Move cfg False w w' → Delivery cfg w ∧ Replies w ∧ Numbering cfg w →
      Delivery cfg w' ∧ Replies w' ∧ Numbering cfg w' := by
    rintro w w' hmove ⟨hd, hr, hn⟩
    exact ⟨hd.move hmove, hr.move hmove hd, hn.move hmove hd⟩
  refine after_invariant cfg False ⟨delivery_init cfg, replies_init cfg, numbering_init cfg⟩ hmoves ?_
  simpa using Transition.along_true (World.step cfg) (World.init cfg : World V) actions

end Reading.Paxos
