import Mathlib.Data.List.Basic

/-!
# Streams and their slices

An endless stream is a function of the position. Its slices are lists, and cutting or joining slices is cutting or joining the intervals they stand for.
-/

namespace Reading.Lib

variable {α : Type}

/-- The `n` items of a stream from position `a` on. -/
def slice (stream : Nat → α) (a n : Nat) : List α := (List.range' a n).map stream

variable (stream : Nat → α)

@[simp] theorem length_slice (a n : Nat) : (slice stream a n).length = n := by
  simp [slice]

@[simp] theorem slice_zero (a : Nat) : slice stream a 0 = [] := rfl

theorem slice_append (a m n : Nat) :
    slice stream a m ++ slice stream (a + m) n = slice stream a (m + n) := by
  rw [slice, slice, slice, ← List.map_append, List.range'_append_1]

theorem drop_slice (a n i : Nat) : (slice stream a n).drop i = slice stream (a + i) (n - i) := by
  rw [slice, slice, ← List.map_drop, List.drop_range', Nat.mul_one]

theorem take_slice (a : Nat) {n i : Nat} (hi : i ≤ n) : (slice stream a n).take i = slice stream a i := by
  rw [slice, slice, ← List.map_take, List.take_range'_of_length_ge hi]

variable {stream}

theorem slice_congr {stream' : Nat → α} {a b n : Nat} (h : ∀ k < n, stream (a + k) = stream' (b + k)) :
    slice stream a n = slice stream' b n := by
  apply List.ext_getElem
  · rw [length_slice, length_slice]
  · intro k hk hk'
    rw [length_slice] at hk
    simp only [slice, List.getElem_map, List.getElem_range', Nat.one_mul]
    exact h k hk

variable (stream)

/-- The items counted by a signed counter, while there are some. -/
theorem slice_pos {a : Nat} {cnt : Int} (hcnt : 0 < cnt) :
    slice stream a cnt.toNat = stream a :: slice stream (a + 1) (cnt - 1).toNat := by
  have hnat : cnt.toNat = (cnt - 1).toNat + 1 := by omega
  rw [hnat]
  rfl

end Reading.Lib
