import Mathlib.Data.Set.Card
import Reading.Paxos.Moves

/-!
# The history of a leader

`newProposal` counts instances up from `highestInstance`, which is `-1` at first, so that the first instance is `0`. The loops of `getHistory` and `findAndFillGaps` begin at `1`. A leader is taken alone here, with any messages in any order, and its history is compared with what it has recorded.
-/

namespace Reading.Paxos

variable {V : Type}

namespace PaxosLeader

/-- The range `xrange(1, highestInstance + 1)`. -/
def historyInstances (self : PaxosLeader V) : List Int := (List.range self.highestInstance.toNat).map fun k : Nat => (k : Int) + 1

def getHistory (self : PaxosLeader V) : List (Option V) := self.historyInstances.map self.getInstanceValue

def getNumAccepted (self : PaxosLeader V) : Nat := (self.getHistory.filter Option.isSome).length

/-- The instances below `highestInstance` that have no value, from the first one `newProposal` uses. -/
def gaps (self : PaxosLeader V) : List Int :=
  ((List.range self.highestInstance.toNat).map fun k : Nat => (k : Int)).filter fun i => (self.getInstanceValue i).isNone

/-- A proposal of `0` for each of the instances. -/
def proposeFor [Zero V] (self : PaxosLeader V) : List Int → PaxosLeader V × List (Message V)
  | [] => (self, [])
  | i :: is =>
    let (self, sent) := self.newProposal (some 0) (some i)
    let (self, sent') := self.proposeFor is
    (self, sent ++ sent')

end PaxosLeader

/-- What happens to a leader. -/
inductive LeaderInput (V : Type) where
  | message (m : Message V)
  | timeout (elapsed : Bool)
  | setPrimary (primary : Bool)
  | start
  | stop

/-- A leader with its events, newest first. -/
structure Reign (V : Type) where
  leader : PaxosLeader V
  log : List (Event V) := []

namespace Reign

def done (r : Reign V) (out : Outcome (PaxosLeader V) V) : Reign V := { leader := out.node, log := out.events ++ r.log }

/-- A message that raises leaves the leader as it was. -/
def step [Zero V] (r : Reign V) : LeaderInput V → Reign V
  | .message m =>
    match r.leader.recvMessage m with
    | .ok out => r.done out
    | .error _ => r
  | .timeout elapsed => r.done (r.leader.recvNone elapsed)
  | .setPrimary primary => r.done { node := { r.leader with isPrimary := primary } }
  | .start => r.done { node := { r.leader with stopped := false } }
  | .stop => r.done { node := { r.leader with stopped := true } }

def init (port : Port) (acceptors : List Port) : Reign V := { leader := { port := port, acceptors := acceptors } }

def after [Zero V] (port : Port) (acceptors : List Port) (inputs : List (LeaderInput V)) : Reign V :=
  Transition.run step (init port acceptors) inputs

/-- The leader has recorded a value for the instance. -/
def Recorded (r : Reign V) (i : Int) : Prop := ∃ l pid v, .recorded l i pid v ∈ r.log

/-- The history has every recorded instance, the number of values is that of the instances with one, and the gaps that are filled are all the gaps. -/
structure Complete [Zero V] (r : Reign V) : Prop where
  history : ∀ i, r.Recorded i → i ∈ r.leader.historyInstances
  number : r.leader.getNumAccepted = {i | r.leader.getInstanceValue i ≠ none}.ncard
  filled : r.leader.findAndFillGaps = r.leader.proposeFor r.leader.gaps

end Reign

/-! ### What a leader records -/

/-- Values appear with the events that record them, and `highestInstance` keeps up with these. -/
structure Records (ld ld' : PaxosLeader V) (events : List (Event V)) : Prop where
  highest : ld.highestInstance ≤ ld'.highestInstance
  bound : ∀ {l i pid v}, .recorded l i pid v ∈ events → i ≤ ld'.highestInstance
  value : ∀ i, ld'.getInstanceValue i ≠ none → ld.getInstanceValue i ≠ none ∨ ∃ l pid v, .recorded l i pid v ∈ events

section Records

variable {ld ld' ld'' : PaxosLeader V} {events events' : List (Event V)}

theorem Records.trans (h : Records ld ld' events) (h' : Records ld' ld'' events') : Records ld ld'' (events' ++ events) where
  highest := h.highest.trans h'.highest
  bound hmem := by
    obtain hmem | hmem := List.mem_append.mp hmem
    · exact h'.bound hmem
    · exact (h.bound hmem).trans h'.highest
  value i hi := by
    obtain hi | ⟨l, pid, v, hmem⟩ := h'.value i hi
    · obtain hi | ⟨l, pid, v, hmem⟩ := h.value i hi
      · exact .inl hi
      · exact .inr ⟨l, pid, v, List.mem_append_right _ hmem⟩
    · exact .inr ⟨l, pid, v, List.mem_append_left _ hmem⟩

/-- Nothing is recorded and no value changes. -/
theorem Records.of_value (hhighest : ld.highestInstance ≤ ld'.highestInstance)
    (hvalue : ∀ i, ld'.getInstanceValue i = ld.getInstanceValue i)
    (hevents : ∀ l i pid v, .recorded l i pid v ∉ events) : Records ld ld' events where
  highest := hhighest
  bound hmem := absurd hmem (hevents _ _ _ _)
  value i hi := .inl (hvalue i ▸ hi)

/-- Storing a record back with its old value. -/
theorem getInstanceValue_store {i : Int} (record : InstanceRecord (PaxosLeaderProtocol V) V)
    (hinstances : ld'.instances = Function.update ld.instances i (some record)) (hrecord : record.value = ld.getInstanceValue i)
    (j : Int) : ld'.getInstanceValue j = ld.getInstanceValue j := by
  by_cases hj : j = i
  · subst hj
    simp [PaxosLeader.getInstanceValue, hinstances, hrecord]
  · simp [PaxosLeader.getInstanceValue, hinstances, Function.update_of_ne hj]

theorem newProposal_value (ld : PaxosLeader V) (value : Option V) (inst : Option Int) (j : Int) :
    (ld.newProposal value inst).1.getInstanceValue j = ld.getInstanceValue j := by
  cases inst with
  | none => exact getInstanceValue_store (InstanceRecord.addProtocol _ _ _) rfl (PaxosLeader.getD_value ld _) j
  | some i => exact getInstanceValue_store (InstanceRecord.addProtocol _ _ _) rfl (PaxosLeader.getD_value ld _) j

theorem newProposal_records (ld : PaxosLeader V) (value : Option V) (inst : Option Int) :
    Records ld (ld.newProposal value inst).1 [] := by
  apply Records.of_value _ (newProposal_value ld value inst) (by simp)
  cases inst with
  | none => exact (Int.lt_succ _).le
  | some i => exact le_rfl

theorem notifyLeader_records (ld : PaxosLeader V) (p : PaxosLeaderProtocol V) (m : Message V) :
    Records ld (ld.notifyLeader p m).node (ld.notifyLeader p m).events := by
  rw [PaxosLeader.notifyLeader]
  split
  · constructor
    case highest => exact le_max_right _ _
    case bound =>
      intro l i pid v hmem
      cases List.mem_singleton.mp hmem
      exact le_max_left _ _
    case value =>
      intro i hi
      by_cases heq : i = m.instanceID
      · subst heq
        exact .inr ⟨_, _, _, List.mem_singleton.mpr rfl⟩
      · left
        simpa [PaxosLeader.getInstanceValue, Function.update_of_ne heq] using hi
  · have hcount : Records ld { ld with proposalCount := max ld.proposalCount m.highestPID.2 } [] :=
      Records.of_value le_rfl (fun _ => rfl) (by simp)
    exact hcount.trans (newProposal_records _ m.value none)
  · exact Records.of_value le_rfl (fun _ => rfl) (by simp)

theorem doTransition_not_recorded (p : PaxosLeaderProtocol V) (ld : PaxosLeader V) (m : Message V) (l : Port) (i : Int)
    (pid : ProposalID) (v : Option V) : .recorded l i pid v ∉ (p.doTransition ld m).1.events := by
  rw [PaxosLeaderProtocol.doTransition]
  split
  all_goals dsimp only
  all_goals try split
  all_goals simp

theorem transition_records (ld : PaxosLeader V) {record : InstanceRecord (PaxosLeaderProtocol V) V}
    (p : PaxosLeaderProtocol V) (m : Message V) (hrecord : record.value = ld.getInstanceValue m.instanceID) :
    Records ld (ld.transition record p m).node (ld.transition record p m).events := by
  have hstore : Records ld { ld with
      instances := Function.update ld.instances m.instanceID
        (some (record.setProtocol m.proposalID (p.doTransition ld m).1.node)) } (p.doTransition ld m).1.events :=
    Records.of_value le_rfl (fun j => getInstanceValue_store (record.setProtocol _ _) rfl hrecord j) (doTransition_not_recorded p ld m)
  rw [PaxosLeader.transition]
  dsimp only
  split
  · exact hstore.trans (notifyLeader_records _ _ _)
  · exact hstore

theorem recvMessage_records {m : Message V} {out : Outcome (PaxosLeader V) V} (hout : ld.recvMessage m = .ok out) :
    Records ld out.node out.events := by
  have hsame : Records ld ld [] := Records.of_value le_rfl (fun _ => rfl) (by simp)
  rw [PaxosLeader.recvMessage] at hout
  split at hout
  · cases hout
    exact hsame
  split at hout
  · cases hout
    exact hsame
  · split at hout
    · cases hout
      exact newProposal_records ld m.value none
    · cases hout
      exact hsame
  · dsimp only at hout
    split at hout
    · cases hout
      exact transition_records ld _ m (PaxosLeader.getD_value ld m.instanceID)
    · cases hout
      exact transition_records ld _ m (PaxosLeader.getD_value ld m.instanceID)
  · split at hout
    · split at hout
      · cases hout
      · rename_i record hrecord
        cases hget : record.getProtocol m.proposalID with
        | error e =>
          rw [hget] at hout
          cases hout
        | ok p =>
          rw [hget] at hout
          cases hout
          exact transition_records ld p m (by simp [PaxosLeader.getInstanceValue, hrecord])
    · cases hout
      exact hsame

variable [Zero V]

/-- The loop of `findAndFillGaps` proposes for the instances of its range that have no value. -/
theorem fillGaps_eq (ld : PaxosLeader V) (is : List Int) :
    ld.fillGaps is = ld.proposeFor (is.filter fun i => (ld.getInstanceValue i).isNone) := by
  induction is generalizing ld with
  | nil => rfl
  | cons i is ih =>
    rw [PaxosLeader.fillGaps]
    by_cases hi : ld.getInstanceValue i = none
    · rw [if_pos hi, List.filter_cons_of_pos (by simp [hi]), PaxosLeader.proposeFor]
      dsimp only
      rw [ih]
      simp only [newProposal_value]
    · rw [if_neg hi, List.filter_cons_of_neg (by simpa using hi), ih]

theorem proposeFor_records (ld : PaxosLeader V) (is : List Int) : Records ld (ld.proposeFor is).1 [] := by
  induction is generalizing ld with
  | nil => exact Records.of_value le_rfl (fun _ => rfl) (by simp)
  | cons i is ih => exact (newProposal_records ld (some 0) (some i)).trans (ih _)

theorem proposeFor_count (ld : PaxosLeader V) (is : List Int) :
    (ld.proposeFor is).1.proposalCount = ld.proposalCount + is.length := by
  induction is generalizing ld with
  | nil => simp [PaxosLeader.proposeFor]
  | cons i is ih =>
    rw [PaxosLeader.proposeFor]
    dsimp only
    rw [ih, PaxosLeader.newProposal, List.length_cons]
    push_cast
    omega

theorem recvNone_records (ld : PaxosLeader V) (elapsed : Bool) :
    Records ld (ld.recvNone elapsed).node (ld.recvNone elapsed).events := by
  have hsame : Records ld ld [] := Records.of_value le_rfl (fun _ => rfl) (by simp)
  rw [PaxosLeader.recvNone]
  split
  · exact hsame
  split
  · have hfill : Records ld ld.findAndFillGaps.1 [] := by
      rw [PaxosLeader.findAndFillGaps, fillGaps_eq]
      exact proposeFor_records ld _
    have hcollect : Records ld.findAndFillGaps.1 ld.findAndFillGaps.1.garbageCollect [] :=
      Records.of_value le_rfl (garbageCollect_quiet _).value (by simp)
    exact hfill.trans hcollect
  · exact hsame

end Records

/-! ### Every run -/

section Runs

variable [Zero V]

/-- No instance above `highestInstance` is recorded, and every value has been. -/
structure Reign.Kept (r : Reign V) : Prop where
  bound : ∀ {i}, r.Recorded i → i ≤ r.leader.highestInstance
  value : ∀ {i}, r.leader.getInstanceValue i ≠ none → r.Recorded i

omit [Zero V] in
theorem Reign.Kept.done {r : Reign V} (h : r.Kept) {out : Outcome (PaxosLeader V) V}
    (hout : Records r.leader out.node out.events) : (r.done out).Kept where
  bound := by
    rintro i ⟨l, pid, v, hmem⟩
    obtain hmem | hmem := List.mem_append.mp hmem
    · exact hout.bound hmem
    · exact (h.bound ⟨l, pid, v, hmem⟩).trans hout.highest
  value := by
    intro i hi
    obtain hi | ⟨l, pid, v, hmem⟩ := hout.value i hi
    · obtain ⟨l, pid, v, hmem⟩ := h.value hi
      exact ⟨l, pid, v, List.mem_append_right _ hmem⟩
    · exact ⟨l, pid, v, List.mem_append_left _ hmem⟩

theorem Reign.Kept.step {r : Reign V} (h : r.Kept) (input : LeaderInput V) : (r.step input).Kept := by
  have hsame : ∀ ld : PaxosLeader V, ld.instances = r.leader.instances → ld.highestInstance = r.leader.highestInstance →
      (r.done { node := ld }).Kept := by
    intro ld hinstances hhighest
    refine h.done (Records.of_value hhighest.ge (fun i => ?_) (by simp))
    rw [PaxosLeader.getInstanceValue, PaxosLeader.getInstanceValue, hinstances]
  cases input with
  | message m =>
    rw [Reign.step]
    cases hrecv : r.leader.recvMessage m with
    | ok out => exact h.done (recvMessage_records hrecv)
    | error e => exact h
  | timeout elapsed => exact h.done (recvNone_records r.leader elapsed)
  | setPrimary primary => exact hsame _ rfl rfl
  | start => exact hsame _ rfl rfl
  | stop => exact hsame _ rfl rfl

theorem kept_after (port : Port) (acceptors : List Port) (inputs : List (LeaderInput V)) :
    (Reign.after port acceptors inputs).Kept := by
  have hinit : (Reign.init port acceptors : Reign V).Kept := by
    constructor <;> simp [Reign.init, Reign.Recorded, PaxosLeader.getInstanceValue]
  exact Transition.run_invariant _ (fun _ input _ h => h.step input) (Transition.along_true _ _ inputs) hinit

omit [Zero V] in
theorem mem_historyInstances {ld : PaxosLeader V} {i : Int} : i ∈ ld.historyInstances ↔ 1 ≤ i ∧ i ≤ ld.highestInstance := by
  simp only [PaxosLeader.historyInstances, List.mem_map, List.mem_range]
  constructor
  · rintro ⟨k, hk, rfl⟩
    omega
  · exact fun h => ⟨(i - 1).toNat, by omega, by omega⟩

theorem findAndFillGaps_eq (ld : PaxosLeader V) :
    ld.findAndFillGaps = ld.fillGaps ((List.range (ld.highestInstance - 1).toNat).map fun k : Nat => (k : Int) + 1) := by
  rw [PaxosLeader.findAndFillGaps, bind_pure_comp, List.map_eq_map, List.map_map]
  rfl

/-- The instance `0` is the one gap the loop of `findAndFillGaps` leaves out. -/
theorem findAndFillGaps_eq_iff (ld : PaxosLeader V) :
    ld.findAndFillGaps = ld.proposeFor ld.gaps ↔ ld.highestInstance ≤ 0 ∨ ld.getInstanceValue 0 ≠ none := by
  rw [findAndFillGaps_eq, fillGaps_eq, PaxosLeader.gaps]
  obtain ⟨n, hn⟩ | hnone : (∃ n : Nat, ld.highestInstance = n + 1) ∨ ld.highestInstance ≤ 0 := by
    by_cases h : ld.highestInstance ≤ 0
    · exact .inr h
    · exact .inl ⟨(ld.highestInstance - 1).toNat, by omega⟩
  · have hrange : (List.range ld.highestInstance.toNat).map (fun k : Nat => (k : Int)) =
        0 :: (List.range (ld.highestInstance - 1).toNat).map fun k : Nat => (k : Int) + 1 := by
      rw [hn, show ((n : Int) + 1).toNat = n + 1 by omega, show ((n : Int) + 1 - 1).toNat = n by omega, List.range_succ_eq_map]
      simp
    have hpos : ¬ ld.highestInstance ≤ 0 := by omega
    rw [hrange]
    by_cases hzero : ld.getInstanceValue 0 = none
    · rw [List.filter_cons_of_pos (by simp [hzero])]
      simp only [hpos, hzero, ne_eq, not_true_eq_false, or_self, iff_false]
      -- The two loops make a different number of proposals.
      intro heq
      have hcount := congrArg (fun result => result.1.proposalCount) heq
      simp only [proposeFor_count, List.length_cons] at hcount
      omega
    · rw [List.filter_cons_of_neg (by simpa using hzero)]
      simp [hzero]
  · have hrange : ld.highestInstance.toNat = 0 := by omega
    have hrange' : (ld.highestInstance - 1).toNat = 0 := by omega
    simp [hrange, hrange', hnone]

/-- In every run, the history of a leader is complete exactly while it has recorded nothing and knows no instance above `0`. -/
theorem history_complete_iff (port : Port) (acceptors : List Port) (inputs : List (LeaderInput V)) :
    (Reign.after port acceptors inputs).Complete ↔
      (∀ i, ¬ (Reign.after port acceptors inputs).Recorded i) ∧ (Reign.after port acceptors inputs).leader.highestInstance ≤ 0 := by
  set r := Reign.after port acceptors inputs
  have hkept : r.Kept := kept_after port acceptors inputs
  constructor
  · intro h
    -- The instance `0` is in no history.
    have hzero : ¬ r.Recorded 0 := fun hzero => absurd (mem_historyInstances.mp (h.history 0 hzero)).1 (by decide)
    have hhighest : r.leader.highestInstance ≤ 0 :=
      ((findAndFillGaps_eq_iff r.leader).mp h.filled).resolve_right fun hvalue => hzero (hkept.value hvalue)
    refine ⟨fun i hi => ?_, hhighest⟩
    have := mem_historyInstances.mp (h.history i hi)
    omega
  · rintro ⟨hnone, hhighest⟩
    have hvalue : ∀ i, r.leader.getInstanceValue i = none := by
      intro i
      by_contra hi
      exact hnone i (hkept.value hi)
    constructor
    case history => exact fun i hi => absurd hi (hnone i)
    case number => simp [PaxosLeader.getNumAccepted, PaxosLeader.getHistory, hvalue]
    case filled => exact (findAndFillGaps_eq_iff r.leader).mpr (.inl hhighest)

/-- A leader with one acceptor gets the value `7` through its first instance. -/
def firstInstance : List (LeaderInput Nat) :=
  [.start, .setPrimary true, .message { command := .extPropose, value := some 7 },
    .message { command := .acceptorAgree, proposalID := (1, 1), instanceID := 0 },
    .message { command := .acceptorAccept, proposalID := (1, 1), instanceID := 0, value := some 7 }]

/-- The recorded value is in no history, and of two proposals that get no reply the first is never made again. -/
theorem history_incomplete :
    ¬ (Reign.after 1 [3] firstInstance).Complete ∧
      ¬ (Reign.after 1 [3] [.start, .setPrimary true, .message { command := .extPropose, value := some 7 },
        .message { command := .extPropose, value := some (8 : Nat) }]).Complete := by
  constructor
  · intro h
    exact absurd (h.history 0 ⟨1, (1, 1), some 7, by decide⟩) (by decide)
  · intro h
    obtain hhighest | hvalue := (findAndFillGaps_eq_iff _).mp h.filled
    · exact absurd hhighest (by decide)
    · exact hvalue rfl

end Runs

end Reading.Paxos
