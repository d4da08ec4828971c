import Mathlib.Data.List.Basic

/-!
# Sweeps

A sweep goes through the numbers from one bound to another in passes, each of which begins where the one before it ended. `firstFrom` is the loop a pass usually is: it ends at the first number with a property, or at its bound. However the property changes between the passes, every number belongs to exactly one of them.
-/

namespace Reading.Lib

/-- The loop that counts `i` up to a number with the property, for `steps` numbers at most. -/
def firstFrom (live : Nat → Prop) [DecidablePred live] (i : Nat) : Nat → Nat
  | 0 => i
  | steps + 1 => if live i then i else firstFrom live (i + 1) steps

/-- The first number from `i` on with the property, or the end. -/
structure FirstFrom (live : Nat → Prop) (i bound r : Nat) : Prop where
  from_le : i ≤ r
  le_bound : r ≤ bound
  dead : ∀ {j}, i ≤ j → j < r → ¬ live j
  live : r < bound → live r

theorem firstFrom_spec (live : Nat → Prop) [DecidablePred live] (i steps : Nat) :
    FirstFrom live i (i + steps) (firstFrom live i steps) := by
  induction steps generalizing i with
  | zero =>
    rw [firstFrom]
    exact ⟨Nat.le_refl i, Nat.le_refl i, fun hj hlt => absurd hj (Nat.not_le.mpr hlt), fun h => absurd h (Nat.lt_irrefl i)⟩
  | succ steps ih =>
    rw [firstFrom]
    by_cases hlive : live i
    · rw [if_pos hlive]
      exact ⟨Nat.le_refl i, Nat.le_add_right i _, fun hj hlt => absurd hj (Nat.not_le.mpr hlt), fun _ => hlive⟩
    · rw [if_neg hlive]
      have hrest := ih (i + 1)
      have hfrom := hrest.from_le
      have hbound := hrest.le_bound
      refine ⟨by omega, by omega, fun {j} hj hlt => ?_, fun h => hrest.live (by omega)⟩
      by_cases heq : j = i
      · exact heq ▸ hlive
      · exact hrest.dead (by omega) hlt

section Sweep

variable {β : Type} {lo hi : β → Nat} {a b p : Nat} {l : List β} {c : β}

/-- The passes `l`, each from `lo` on up to `hi`, go from `a` to `b`. -/
def Sweep (lo hi : β → Nat) : Nat → List β → Nat → Prop
  | a, [], b => a = b
  | a, c :: l, b => lo c = a ∧ lo c ≤ hi c ∧ Sweep lo hi (hi c) l b

theorem sweep_snoc : Sweep lo hi a (l ++ [c]) b ↔ Sweep lo hi a l (lo c) ∧ lo c ≤ hi c ∧ hi c = b := by
  induction l generalizing a with
  | nil => exact ⟨fun ⟨ha, hle, hb⟩ => ⟨ha.symm, hle, hb⟩, fun ⟨ha, hle, hb⟩ => ⟨ha.symm, hle, hb⟩⟩
  | cons d l ih =>
    rw [List.cons_append, Sweep, ih, Sweep]
    simp only [and_assoc]

/-- Passes that each move on are no more than the numbers they pass. -/
theorem Sweep.length_le (h : Sweep lo hi a l b) (hmove : ∀ c ∈ l, lo c < hi c) : a + l.length ≤ b := by
  induction l generalizing a with
  | nil => exact Nat.le_of_eq h
  | cons c l ih =>
    obtain ⟨hlo, -, hrest⟩ := h
    have hfirst := hmove c List.mem_cons_self
    have htail := ih hrest fun d hd => hmove d (List.mem_cons_of_mem c hd)
    rw [List.length_cons]
    omega

/-- The numbers in front of a sweep are in none of its passes. -/
theorem Sweep.filter_before (h : Sweep lo hi a l b) (hp : p < a) :
    l.filter (fun c => decide (lo c ≤ p ∧ p < hi c)) = [] := by
  induction l generalizing a with
  | nil => rfl
  | cons c l ih =>
    obtain ⟨hlo, hle, hrest⟩ := h
    rw [List.filter_cons_of_neg (by simp only [decide_eq_true_eq]; omega)]
    exact ih hrest (by omega)

/-- Every number of a sweep is in exactly one pass. -/
theorem Sweep.filter_eq (h : Sweep lo hi a l b) (ha : a ≤ p) (hb : p < b) :
    ∃ c ∈ l, lo c ≤ p ∧ p < hi c ∧ l.filter (fun c => decide (lo c ≤ p ∧ p < hi c)) = [c] := by
  induction l generalizing a with
  | nil =>
    obtain rfl : a = b := h
    omega
  | cons c l ih =>
    obtain ⟨hlo, hle, hrest⟩ := h
    by_cases hin : p < hi c
    · refine ⟨c, List.mem_cons_self, hlo ▸ ha, hin, ?_⟩
      rw [List.filter_cons_of_pos (by simp only [decide_eq_true_eq]; omega), hrest.filter_before hin]
    · obtain ⟨d, hd, hdlo, hdhi, hfilter⟩ := ih hrest (by omega)
      refine ⟨d, List.mem_cons_of_mem c hd, hdlo, hdhi, ?_⟩
      rw [List.filter_cons_of_neg (by simp only [decide_eq_true_eq]; omega), hfilter]

end Sweep

end Reading.Lib
