import Mathlib.Algebra.Group.Nat.Defs
import Mathlib.Logic.Basic

/-!
# Machine arithmetic that notes overflow

A computation on 32-bit integers wraps around as the machine does, and notes whether a result did not fit its type. The rules below are about computations in which every result fits: there the machine's numbers are the numbers.
-/

namespace Reading.Lib

variable {ε α β : Type}

/-- The state says whether a result did not fit. -/
abbrev Noted (ε α : Type) := StateT Bool (Except ε) α

namespace Noted

def note (fits : Bool) : Noted ε Unit := fun overflow => .ok ((), overflow || !fits)

def fail (e : ε) : Noted ε α := fun _ => .error e

/-- A step without arithmetic. -/
def lift (r : Except ε α) : Noted ε α := fun overflow => r.map (·, overflow)

def plus (i j : UInt32) : Noted ε UInt32 := do
  note (i.toNat + j.toNat < 2 ^ 32)
  pure (i + j)

def minus (i j : UInt32) : Noted ε UInt32 := do
  note (j.toNat ≤ i.toNat)
  pure (i - j)

def times (i j : UInt32) : Noted ε UInt32 := do
  note (i.toNat * j.toNat < 2 ^ 32)
  pure (i * j)

/-- The conversion to `int`. -/
def toInt (j : UInt32) : Noted ε Int32 := do
  note (j.toNat < 2 ^ 31)
  pure j.toInt32

/-- The computation returns, every result in it fits, and what it returns has the property. -/
def Fits (r : Noted ε α) (Q : α → Prop) : Prop := ∃ a, r false = .ok (a, false) ∧ Q a

variable {r : Noted ε α} {f : α → Noted ε β} {Q Q' : α → Prop} {R : β → Prop} {i j : UInt32}

theorem fits_pure {a : α} (h : Q a) : Fits (pure a : Noted ε α) Q := ⟨a, rfl, h⟩

theorem Fits.imp (h : Fits r Q) (hQ : ∀ a, Q a → Q' a) : Fits r Q' := by
  obtain ⟨a, hr, ha⟩ := h
  exact ⟨a, hr, hQ a ha⟩

theorem Fits.bind (h : Fits r Q) (hf : ∀ a, Q a → Fits (f a) R) : Fits (r >>= f) R := by
  obtain ⟨a, hr, ha⟩ := h
  obtain ⟨b, hfa, hb⟩ := hf a ha
  refine ⟨b, ?_, hb⟩
  change (r false >>= fun out => f out.1 out.2) = _
  rw [hr]
  exact hfa

theorem fits_lift {r : Except ε α} {a : α} (hr : r = .ok a) (h : Q a) : Fits (lift r) Q := by
  subst hr
  exact ⟨a, rfl, h⟩

theorem fits_note {fits : Bool} (h : fits = true) : Fits (note fits : Noted ε Unit) fun _ => True := by
  subst h
  exact ⟨(), rfl, trivial⟩

theorem fits_plus (h : i.toNat + j.toNat < 2 ^ 32) : Fits (plus i j : Noted ε UInt32) fun k => k.toNat = i.toNat + j.toNat :=
  (fits_note (decide_eq_true h)).bind fun _ _ => fits_pure (by rw [UInt32.toNat_add, Nat.mod_eq_of_lt h])

theorem fits_minus (h : j.toNat ≤ i.toNat) : Fits (minus i j : Noted ε UInt32) fun k => k.toNat = i.toNat - j.toNat :=
  (fits_note (decide_eq_true h)).bind fun _ _ => fits_pure (UInt32.toNat_sub_of_le i j (UInt32.le_iff_toNat_le.mpr h))

theorem fits_times (h : i.toNat * j.toNat < 2 ^ 32) : Fits (times i j : Noted ε UInt32) fun k => k.toNat = i.toNat * j.toNat :=
  (fits_note (decide_eq_true h)).bind fun _ _ => fits_pure (by rw [UInt32.toNat_mul, Nat.mod_eq_of_lt h])

theorem fits_toInt (h : j.toNat < 2 ^ 31) : Fits (toInt j : Noted ε Int32) fun k => k = j.toInt32 :=
  (fits_note (decide_eq_true h)).bind fun _ _ => fits_pure rfl

end Noted

end Reading.Lib
