import Mathlib.Data.BitVec
import Mathlib.Tactic.Ring

/-!
# Serial number arithmetic

Words that count positions of a stream modulo `2 ^ w` are compared by the sign of their difference. Relative to a common base the difference of two words is the difference of their positions as long as that fits into a signed word.
-/

namespace Reading.Lib.Serial

variable {w : Nat}

theorem sub_add_add (base : BitVec w) (a b : Int) :
    (base + BitVec.ofInt w a) - (base + BitVec.ofInt w b) = BitVec.ofInt w (a - b) := by
  have hadd : BitVec.ofInt w a = BitVec.ofInt w (a - b) + BitVec.ofInt w b := by
    rw [← BitVec.ofInt_add, Int.sub_add_cancel]
  rw [hadd]
  ring

/-- The signed difference of two positions. -/
theorem toInt_sub (base : BitVec w) (a b : Int) :
    ((base + BitVec.ofInt w a) - (base + BitVec.ofInt w b)).toInt = (a - b).bmod (2 ^ w) := by
  rw [sub_add_add, BitVec.toInt_ofInt]

/-- Two positions less than half the space apart. -/
theorem toInt_sub_of_near (base : BitVec w) {a b : Int} (hlo : -2 ^ w ≤ 2 * (a - b))
    (hhi : 2 * (a - b) < 2 ^ w) :
    ((base + BitVec.ofInt w a) - (base + BitVec.ofInt w b)).toInt = a - b := by
  rw [toInt_sub]
  apply Int.bmod_eq_of_le_mul_two
  · push_cast
    omega
  · push_cast
    omega

end Reading.Lib.Serial
