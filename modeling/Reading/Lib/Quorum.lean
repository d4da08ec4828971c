import Mathlib.Data.Finset.Card

/-!
# Majorities

A quorum of a list of members is a set of them that outnumbers the rest. Any two share a member, which is the only fact a majority protocol needs of them.
-/

namespace Reading

variable {α : Type} [DecidableEq α]

/-- At least `n / 2 + 1` of the `n` members. -/
structure IsQuorum (members : List α) (Q : Finset α) : Prop where
  subset : ∀ a ∈ Q, a ∈ members
  majority : members.length / 2 + 1 ≤ Q.card

theorem IsQuorum.inter_nonempty {members : List α} {Q R : Finset α}
    (hQ : IsQuorum members Q) (hR : IsQuorum members R) : ∃ a, a ∈ Q ∧ a ∈ R := by
  by_contra hnone
  push Not at hnone
  have hdisjoint : Disjoint Q R := Finset.disjoint_left.mpr hnone
  have hunion : Q ∪ R ⊆ members.toFinset := by
    intro a ha
    rcases Finset.mem_union.mp ha with h | h
    · exact List.mem_toFinset.mpr (hQ.subset a h)
    · exact List.mem_toFinset.mpr (hR.subset a h)
  have hcard := Finset.card_le_card hunion
  rw [Finset.card_union_of_disjoint hdisjoint] at hcard
  have hlength := members.toFinset_card_le
  have hq := hQ.majority
  have hr := hR.majority
  omega

/-- Enough list entries with pairwise different keys make a quorum of the keys. -/
theorem isQuorum_of_keys {β : Type} {members : List α} (entries : List β) (key : β → α)
    (hnodup : (entries.map key).Nodup) (hmem : ∀ b ∈ entries, key b ∈ members)
    (hlength : members.length / 2 + 1 ≤ entries.length) :
    IsQuorum members (entries.map key).toFinset where
  subset a ha := by
    obtain ⟨b, hb, rfl⟩ := List.mem_map.mp (List.mem_toFinset.mp ha)
    exact hmem b hb
  majority := by
    rw [List.toFinset_card_of_nodup hnodup, List.length_map]
    exact hlength

end Reading
