import Mathlib.Logic.Basic

/-!
# Trees that test one bit at a node

A leaf is found by the bits of its key. A node says which bit is tested next, and bits in which all leaves below agree are passed over. A new leaf is put where the first bit is tested in which its key differs from the one that the search for it finds.
-/

namespace Reading.Lib

inductive BitTree (α : Type) where
  | leaf (a : α)
  | node (bit : Nat) (left right : BitTree α)

namespace BitTree

variable {α : Type}

/-- The leaf that the bits lead to. -/
def search (v : Nat → Bool) : BitTree α → α
  | leaf a => a
  | node b left right => if v b then search v right else search v left

/-- A node for the bit `b` with the new leaf on its side and `x` on the other. -/
def pair (v : Nat → Bool) (b : Nat) (new : α) (x : BitTree α) : BitTree α :=
  if v b then node b x (leaf new) else node b (leaf new) x

/-- The pair for the bit `b` stands where the bits lead, above the first node that tests no earlier bit. -/
def graft (v : Nat → Bool) (b : Nat) (new : α) : BitTree α → BitTree α
  | leaf a => pair v b new (leaf a)
  | node b' left right =>
    if b' < b then
      if v b' then node b' left (graft v b new right) else node b' (graft v b new left) right
    else pair v b new (node b' left right)

def Has : BitTree α → α → Prop
  | leaf a, x => x = a
  | node _ left right, x => left.Has x ∨ right.Has x

/-- A bit that is tested at some node. -/
def Tests : BitTree α → Nat → Prop
  | leaf _, _ => False
  | node b left right, i => i = b ∨ left.Tests i ∨ right.Tests i

/-- The leaves below a node agree in the bits before the one that is tested, and this one says on which side they are. -/
inductive Sound (bits : α → Nat → Bool) : BitTree α → Prop
  | leaf (a : α) : Sound bits (leaf a)
  | node {b : Nat} {left right : BitTree α} (hleft : Sound bits left) (hright : Sound bits right)
      (zero : ∀ x, left.Has x → bits x b = false) (one : ∀ x, right.Has x → bits x b = true)
      (agree : ∀ x y, (left.Has x ∨ right.Has x) → (left.Has y ∨ right.Has y) → ∀ i < b, bits x i = bits y i) :
      Sound bits (node b left right)

variable {bits : α → Nat → Bool} {v w : Nat → Bool} {t x : BitTree α} {a new : α} {b i : Nat}

theorem has_search (v : Nat → Bool) (t : BitTree α) : t.Has (t.search v) := by
  induction t with
  | leaf a => rfl
  | node b left right ihl ihr =>
    rw [search]
    split
    · exact .inr ihr
    · exact .inl ihl

/-- Only the bits that are tested lead the way. -/
theorem search_congr (h : ∀ i, t.Tests i → v i = w i) : t.search v = t.search w := by
  induction t with
  | leaf a => rfl
  | node b left right ihl ihr =>
    rw [search, search, h b (.inl rfl), ihl fun i hi => h i (.inr (.inl hi)), ihr fun i hi => h i (.inr (.inr hi))]

/-- The search for the key of a leaf finds the leaf. -/
theorem Sound.search_eq (h : Sound bits t) (ha : t.Has a) : t.search (bits a) = a := by
  induction h with
  | leaf a' => exact ha.symm
  | node hleft hright zero one _ ihl ihr =>
    rw [search]
    rcases ha with ha | ha
    · rw [zero a ha]
      exact ihl ha
    · rw [one a ha]
      exact ihr ha

theorem has_pair : (pair v b new x).Has a ↔ a = new ∨ x.Has a := by
  rw [pair]
  split
  · exact or_comm
  · exact Iff.rfl

theorem has_graft : (graft v b new t).Has a ↔ a = new ∨ t.Has a := by
  induction t with
  | leaf a' => exact has_pair
  | node b' left right ihl ihr =>
    rw [graft]
    split
    · split
      · rw [Has, Has, ihr, or_left_comm]
      · rw [Has, Has, ihl, or_assoc]
    · exact has_pair

theorem tests_pair : (pair v b new x).Tests i ↔ i = b ∨ x.Tests i := by
  rw [pair]
  split
  · rw [Tests, Tests, or_false]
  · rw [Tests, Tests, false_or]

theorem tests_graft : (graft v b new t).Tests i ↔ i = b ∨ t.Tests i := by
  induction t with
  | leaf a => exact tests_pair
  | node b' left right ihl ihr =>
    rw [graft]
    split
    · split
      · rw [Tests, Tests, ihr, or_left_comm (b := i = b), or_left_comm (b := i = b)]
      · rw [Tests, Tests, ihl, or_assoc, or_left_comm]
    · exact tests_pair

/-- The leaves below `x` agree with the new one in the bits before `b` and differ from it in this one. -/
theorem Sound.pair (h : Sound bits x) (hdiff : ∀ y, x.Has y → bits y b ≠ bits new b)
    (hsame : ∀ y, x.Has y → ∀ i < b, bits y i = bits new i) : Sound bits (pair (bits new) b new x) := by
  have hsame' (y : α) (hy : y = new ∨ x.Has y) (i : Nat) (hi : i < b) : bits y i = bits new i := by
    rcases hy with rfl | hy
    · rfl
    · exact hsame y hy i hi
  rw [BitTree.pair]
  cases hbit : bits new b with
  | true =>
    refine .node h (.leaf new) (fun y hy => ?_) (fun y hy => ?_) fun y z hy hz i hi => ?_
    · exact eq_false_of_ne_true (by rw [← hbit]; exact hdiff y hy)
    · rw [show y = new from hy, hbit]
    · exact (hsame' y hy.symm i hi).trans (hsame' z hz.symm i hi).symm
  | false =>
    refine .node (.leaf new) h (fun y hy => ?_) (fun y hy => ?_) fun y z hy hz i hi => ?_
    · rw [show y = new from hy, hbit]
    · exact eq_true_of_ne_false (by rw [← hbit]; exact hdiff y hy)
    · exact (hsame' y hy i hi).trans (hsame' z hz i hi).symm

/-- A leaf is grafted at the first bit in which its key differs from the one that the search for it finds. -/
theorem Sound.graft (h : Sound bits t) (hdiff : bits (t.search (bits new)) b ≠ bits new b)
    (hsame : ∀ i < b, bits (t.search (bits new)) i = bits new i) : Sound bits (graft (bits new) b new t) := by
  induction h with
  | leaf a =>
    refine (Sound.leaf a).pair (fun y hy => ?_) fun y hy => ?_
    · rw [show y = a from hy]
      exact hdiff
    · rw [show y = a from hy]
      exact hsame
  | @node b' left right hleft hright zero one agree ihl ihr =>
    have hfound : (BitTree.node b' left right).Has ((BitTree.node b' left right).search (bits new)) := has_search _ _
    rw [BitTree.graft]
    by_cases hlt : b' < b
    · rw [if_pos hlt]
      -- The new leaf agrees with the one that is found in the bits before `b`, and so with all leaves in those before `b'`.
      have hnew (y : α) (hy : left.Has y ∨ right.Has y) (i : Nat) (hi : i < b') : bits new i = bits y i :=
        (hsame i (Nat.lt_trans hi hlt)).symm.trans (agree _ _ hfound hy i hi)
      have hagree (y z : α) (hy : y = new ∨ left.Has y ∨ right.Has y) (hz : z = new ∨ left.Has z ∨ right.Has z) (i : Nat)
          (hi : i < b') : bits y i = bits z i := by
        rcases hy with rfl | hy
        · rcases hz with rfl | hz
          · rfl
          · exact hnew z hz i hi
        · rcases hz with rfl | hz
          · exact (hnew y hy i hi).symm
          · exact agree y z hy hz i hi
      cases hside : bits new b' with
      | true =>
        rw [search, if_pos hside] at hdiff hsame
        refine .node hleft (ihr hdiff hsame) zero (fun y hy => ?_) fun y z hy hz => hagree y z ?_ ?_
        · rcases has_graft.1 hy with rfl | hy
          · exact hside
          · exact one y hy
        · rwa [has_graft, or_left_comm] at hy
        · rwa [has_graft, or_left_comm] at hz
      | false =>
        rw [search, if_neg (Bool.eq_false_iff.1 hside)] at hdiff hsame
        refine .node (ihl hdiff hsame) hright (fun y hy => ?_) one fun y z hy hz => hagree y z ?_ ?_
        · rcases has_graft.1 hy with rfl | hy
          · exact hside
          · exact zero y hy
        · rwa [has_graft, or_assoc] at hy
        · rwa [has_graft, or_assoc] at hz
    · rw [if_neg hlt]
      have hside : bits ((BitTree.node b' left right).search (bits new)) b' = bits new b' := by
        rw [search]
        cases hbit : bits new b' with
        | true => exact one _ (has_search _ _)
        | false => exact zero _ (has_search _ _)
      have hlt' : b < b' := by
        refine Nat.lt_of_le_of_ne (Nat.le_of_not_lt hlt) ?_
        intro heq
        subst heq
        exact hdiff hside
      refine (Sound.node hleft hright zero one agree).pair (fun y hy => ?_) fun y hy i hi => ?_
      · rw [agree y _ hy hfound b hlt']
        exact hdiff
      · exact (agree y _ hy hfound i (Nat.lt_trans hi hlt')).trans (hsame i hi)

end BitTree

end Reading.Lib
