import Mathlib.Data.List.Induction
import Mathlib.Data.List.Nodup
import Mathlib.Order.Preorder.Chain

/-!
# Insertion in order

A list that is kept in order by insertion: a new element goes in front of the first one it comes before, and an element that is met again on the way is refused. Where the test is that of a partial order, the list is the same for every order of insertion exactly when any two of the elements compare.
-/

namespace Reading.Lib.Insertion

variable {α : Type} [DecidableEq α] {before : α → α → Bool} {a b x : α} {l l' : List α} {S : Set α}

/-- The list with `a` in front of the first element that it comes before, or none if `a` is met first. -/
def insertNew (before : α → α → Bool) (a : α) : List α → Option (List α)
  | [] => some [a]
  | b :: l => if b = a then none else if before a b then some (a :: b :: l) else (insertNew before a l).map (b :: ·)

/-- An element that is refused leaves the list as it is. -/
def add (before : α → α → Bool) (l : List α) (a : α) : List α := (insertNew before a l).getD l

/-- The list after the elements have been inserted one after another. -/
def build (before : α → α → Bool) (l : List α) : List α := l.foldl (add before) []

theorem add_nil : add before [] a = [a] := rfl

theorem add_self : add before (a :: l) a = a :: l := by simp [add, insertNew]

theorem add_before (hne : b ≠ a) (h : before a b = true) : add before (b :: l) a = a :: b :: l := by
  simp [add, insertNew, hne, h]

theorem add_after (hne : b ≠ a) (h : before a b = false) : add before (b :: l) a = b :: add before l a := by
  unfold add
  cases hl : insertNew before a l <;> simp [insertNew, hne, h, hl]

theorem mem_add : x ∈ add before l a ↔ x = a ∨ x ∈ l := by
  induction l with
  | nil => simp [add_nil]
  | cons b l ih =>
    by_cases hne : b = a
    · subst hne
      simp [add_self]
    · cases h : before a b with
      | true => simp [add_before hne h]
      | false => simp [add_after hne h, ih, or_left_comm]

theorem build_append_singleton : build before (l ++ [a]) = add before (build before l) a := by simp [build]

theorem mem_build : x ∈ build before l ↔ x ∈ l := by
  induction l using List.reverseRecOn with
  | nil => simp [build]
  | append_singleton l a ih => simp [build_append_singleton, mem_add, ih, or_comm]

section Order

variable [PartialOrder α]

/-- The test of a partial order: the list goes down, and an element comes before those it is not below. -/
def Tests (before : α → α → Bool) : Prop := ∀ a b, a ≠ b → (before a b = true ↔ ¬a ≤ b)

theorem add_pairwise (ht : Tests before) (hS : IsChain (· ≤ ·) S) (hl : l.Pairwise (· > ·)) (hlS : ∀ b ∈ l, b ∈ S)
    (ha : a ∈ S) : (add before l a).Pairwise (· > ·) := by
  induction l with
  | nil => simp [add_nil]
  | cons b l ih =>
    obtain ⟨hb, hl⟩ := List.pairwise_cons.mp hl
    by_cases hne : b = a
    · subst hne
      rw [add_self]
      exact List.pairwise_cons.mpr ⟨hb, hl⟩
    have hbS : b ∈ S := hlS b List.mem_cons_self
    cases h : before a b with
    | true =>
      -- `a` is not below `b`, so it is above `b` and with it above all the rest.
      have hle : b ≤ a := (hS hbS ha hne).resolve_right ((ht a b (Ne.symm hne)).mp h)
      have hlt : b < a := lt_of_le_of_ne hle hne
      rw [add_before hne h]
      refine List.pairwise_cons.mpr ⟨fun c hc => ?_, List.pairwise_cons.mpr ⟨hb, hl⟩⟩
      rcases List.mem_cons.mp hc with rfl | hc
      · exact hlt
      · exact (hb c hc).trans hlt
    | false =>
      have hle : a ≤ b := not_not.mp fun hn => by simp [(ht a b (Ne.symm hne)).mpr hn] at h
      rw [add_after hne h]
      refine List.pairwise_cons.mpr ⟨fun c hc => ?_, ih hl fun c hc => hlS c (List.mem_cons_of_mem b hc)⟩
      rcases mem_add.mp hc with rfl | hc
      · exact lt_of_le_of_ne hle (Ne.symm hne)
      · exact hb c hc

theorem build_pairwise (ht : Tests before) (hS : IsChain (· ≤ ·) S) (hl : ∀ a ∈ l, a ∈ S) :
    (build before l).Pairwise (· > ·) := by
  induction l using List.reverseRecOn with
  | nil => exact List.Pairwise.nil
  | append_singleton l a ih =>
    rw [build_append_singleton]
    refine add_pairwise ht hS (ih fun b hb => hl b (List.mem_append_left _ hb)) (fun b hb => ?_) (hl a (by simp))
    exact hl b (List.mem_append_left _ (mem_build.mp hb))

omit [DecidableEq α] in
/-- Two lists that go down and have the same elements are the same. -/
theorem eq_of_pairwise (hl : l.Pairwise (· > ·)) (hl' : l'.Pairwise (· > ·)) (h : ∀ a, a ∈ l ↔ a ∈ l') : l = l' := by
  have hperm : l.Perm l' := (List.perm_ext_iff_of_nodup (hl.imp fun h => ne_of_gt h) (hl'.imp fun h => ne_of_gt h)).mpr h
  exact hperm.eq_of_pairwise (fun a b _ _ hab hba => (lt_irrefl a (hba.trans hab)).elim) hl hl'

theorem build_pair (ht : Tests before) (hab : ¬a ≤ b) : build before [b, a] = [a, b] := by
  have hne : b ≠ a := fun h => hab (le_of_eq h.symm)
  exact add_before hne ((ht a b (Ne.symm hne)).mpr hab)

/-- The list does not depend on the order of insertion if and only if any two of the elements compare. -/
theorem build_eq_iff_isChain (ht : Tests before) :
    (∀ l l' : List α, (∀ a ∈ l, a ∈ S) → l.Perm l' → build before l = build before l') ↔ IsChain (· ≤ ·) S := by
  refine ⟨fun h a ha b hb hne => not_not.mp fun hn => ?_, fun hS l l' hl hperm => ?_⟩
  · obtain ⟨hab, hba⟩ := not_or.mp hn
    have heq := h [b, a] [a, b] (by simp [ha, hb]) (List.Perm.swap a b [])
    rw [build_pair ht hab, build_pair ht hba] at heq
    exact hne (List.cons.inj heq).1
  · refine eq_of_pairwise (build_pairwise ht hS hl) (build_pairwise ht hS fun a ha => hl a (hperm.mem_iff.mpr ha)) fun a => ?_
    rw [mem_build, mem_build, hperm.mem_iff]

end Order

end Reading.Lib.Insertion
