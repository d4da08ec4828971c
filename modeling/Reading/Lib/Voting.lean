import Mathlib.Order.Defs.Unbundled
import Reading.Lib.Quorum

/-!
# Ballots and majorities

The argument by which a majority protocol with numbered ballots agrees on one value, apart from any messages. A `Voting` is the history of one decision: which voters have agreed to a ballot, which have accepted it, and which value was chosen for it. A ballot is blocked when a quorum has not accepted it and has agreed to greater ones, so that it can no longer be accepted by a quorum. In a safe history a greater ballot carries the value of every lower one that is not blocked, and then two ballots that quorums have accepted carry the same value.
-/

namespace Reading

/-- The history of one decision, for voters `A`, ballots `B` and values `V`. -/
structure Voting (A B V : Type) where
  agreed : A → B → Prop
  accepted : A → B → Prop
  chose : B → V → Prop

namespace Voting

variable {A B V : Type} (below : B → B → Prop) (members : List A)

/-- A quorum has not accepted the ballot and has agreed to greater ones. -/
def Blocked (s : Voting A B V) (c : B) : Prop :=
  ∃ Q, IsQuorum members Q ∧ ∀ a ∈ Q, ¬ s.accepted a c ∧ ∃ b, below c b ∧ s.agreed a b

/-- A greater ballot carries the value of every lower one that is not blocked. -/
def Safe (s : Voting A B V) : Prop :=
  ∀ b w c v, s.chose b w → s.chose c v → below c b → w = v ∨ s.Blocked below members c

variable {below members} {s : Voting A B V}

theorem Safe.agree (hsafe : s.Safe below members) (agreed : A → B → Prop)
    (hgrow : ∀ a b, s.agreed a b → agreed a b) :
    Safe below members { s with agreed := agreed } := by
  intro b w c v hb hc hbelow
  refine (hsafe b w c v hb hc hbelow).imp_right ?_
  rintro ⟨Q, hQ, hall⟩
  refine ⟨Q, hQ, fun a ha => ⟨(hall a ha).1, ?_⟩⟩
  obtain ⟨b', hb', hagreed⟩ := (hall a ha).2
  exact ⟨b', hb', hgrow a b' hagreed⟩

/-- Accepting keeps a history safe where no greater ballot has been agreed to. -/
theorem Safe.accept (hsafe : s.Safe below members) (accepted : A → B → Prop)
    (hnew : ∀ a b, accepted a b → s.accepted a b ∨ ∀ b', below b b' → ¬ s.agreed a b') :
    Safe below members { s with accepted := accepted } := by
  intro b w c v hb hc hbelow
  refine (hsafe b w c v hb hc hbelow).imp_right ?_
  rintro ⟨Q, hQ, hall⟩
  refine ⟨Q, hQ, fun a ha => ⟨fun hacc => ?_, (hall a ha).2⟩⟩
  obtain ⟨hnot, b', hb', hagreed⟩ := hall a ha
  rcases hnew a c hacc with hold | hnone
  · exact hnot hold
  · exact hnone b' hb' hagreed

variable [Std.Trichotomous below] [Std.Asymm below]

/-- Choosing a value for a fresh ballot keeps a history safe: either no voter of a quorum that agreed to the ballot has accepted a lower one, or the value is that of a ballot at or above all those they have accepted. -/
theorem Safe.choose (hsafe : s.Safe below members)
    (honce : ∀ c v v', s.chose c v → s.chose c v' → v = v')
    (haccepted : ∀ a c, s.accepted a c → ∃ v, s.chose c v)
    (hbacked : ∀ c v, s.chose c v → ∃ Q, IsQuorum members Q ∧ ∀ a ∈ Q, s.agreed a c)
    {b : B} {w : V} (hfresh : ∀ v, ¬ s.chose b v) {Q : Finset A} (hQ : IsQuorum members Q)
    (hagreed : ∀ a ∈ Q, s.agreed a b)
    (hreport : (∀ a ∈ Q, ∀ c, below c b → ¬ s.accepted a c) ∨
      ∃ M, s.chose M w ∧ ∀ a ∈ Q, ∀ c, below c b → s.accepted a c → below c M ∨ c = M) :
    Safe below members { s with chose := fun c v => s.chose c v ∨ c = b ∧ v = w } := by
  rintro d u c v (hd | ⟨rfl, rfl⟩) (hc | ⟨rfl, rfl⟩) hbelow
  · exact hsafe d u c v hd hc hbelow
  · -- a greater ballot was chosen first, and the quorum behind it blocks the new one
    obtain ⟨R, hR, hall⟩ := hbacked d u hd
    refine Or.inr ⟨R, hR, fun a ha => ⟨fun hacc => ?_, d, hbelow, hall a ha⟩⟩
    obtain ⟨v', hv'⟩ := haccepted a c hacc
    exact hfresh v' hv'
  · rcases hreport with hnone | ⟨M, hM, hmax⟩
    · exact Or.inr ⟨Q, hQ, fun a ha => ⟨hnone a ha c hbelow, d, hbelow, hagreed a ha⟩⟩
    · by_cases hMc : below M c
      · refine Or.inr ⟨Q, hQ, fun a ha => ⟨fun hacc => ?_, d, hbelow, hagreed a ha⟩⟩
        rcases hmax a ha c hbelow hacc with hcM | rfl
        · exact Std.Asymm.asymm _ _ hcM hMc
        · exact Std.Asymm.asymm _ _ hMc hMc
      · by_cases hcM : below c M
        · exact hsafe M u c v hM hc hcM
        · obtain rfl := Std.Trichotomous.trichotomous c M hcM hMc
          exact Or.inl (honce c u v hM hc)
  · exact absurd hbelow (fun h => Std.Asymm.asymm _ _ h h)

omit [Std.Asymm below] in
/-- In a safe history the ballots that quorums have accepted carry one value. -/
theorem Safe.agreement [DecidableEq A] (hsafe : s.Safe below members)
    (honce : ∀ c v v', s.chose c v → s.chose c v' → v = v') {b c : B} {w v : V}
    (hb : s.chose b w) (hc : s.chose c v)
    (hQ : ∃ Q, IsQuorum members Q ∧ ∀ a ∈ Q, s.accepted a b)
    (hR : ∃ R, IsQuorum members R ∧ ∀ a ∈ R, s.accepted a c) : w = v := by
  have hlower : ∀ {b c w v}, s.chose b w → s.chose c v → below c b →
      (∃ R, IsQuorum members R ∧ ∀ a ∈ R, s.accepted a c) → w = v := by
    rintro b c w v hb hc hbelow ⟨R, hR, haccepted⟩
    rcases hsafe b w c v hb hc hbelow with heq | ⟨Q, hQ, hall⟩
    · exact heq
    · obtain ⟨a, haQ, haR⟩ := hQ.inter_nonempty hR
      exact absurd (haccepted a haR) (hall a haQ).1
  by_cases hcb : below c b
  · exact hlower hb hc hcb hR
  · by_cases hbc : below b c
    · exact (hlower hc hb hbc hQ).symm
    · obtain rfl := Std.Trichotomous.trichotomous c b hcb hbc
      exact honce c w v hb hc

end Voting

end Reading
