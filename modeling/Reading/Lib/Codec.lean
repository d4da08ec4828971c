import Mathlib.Algebra.Group.Nat.Defs
import Mathlib.Data.List.Basic

/-!
# Binary formats

A reader takes what it needs from the front of a list and leaves the rest, or fails. It reads a value from a representation if it yields the value whatever follows, and leaves exactly that. Readers that read what writers write compose as the writers do.
-/

namespace Reading.Lib.Codec

/-! ### Words as bytes -/

/-- The `n` low bytes of a number, the lowest first. -/
def littleEndian : Nat → Nat → List UInt8
  | 0, _ => []
  | n + 1, x => UInt8.ofNat x :: littleEndian n (x / 256)

/-- The number that bytes stand for, the lowest first. -/
def ofLittleEndian : List UInt8 → Nat
  | [] => 0
  | b :: bs => b.toNat + 256 * ofLittleEndian bs

@[simp] theorem length_littleEndian (n x : Nat) : (littleEndian n x).length = n := by
  induction n generalizing x with
  | zero => rfl
  | succ n ih => rw [littleEndian, List.length_cons, ih]

theorem ofLittleEndian_littleEndian {n x : Nat} (h : x < 256 ^ n) : ofLittleEndian (littleEndian n x) = x := by
  induction n generalizing x with
  | zero =>
    rw [pow_zero] at h
    rw [littleEndian, ofLittleEndian]
    omega
  | succ n ih =>
    have hdiv : x / 256 < 256 ^ n := by
      rw [pow_succ] at h
      exact Nat.div_lt_of_lt_mul (by omega)
    rw [littleEndian, ofLittleEndian, ih hdiv, UInt8.toNat_ofNat']
    omega

/-! ### Readers -/

variable {β ε α γ : Type}

/-- What is left to read is the state, and a failure ends the reading. -/
abbrev Reader (β ε : Type) := StateT (List β) (Except ε)

/-- `p` reads `a` from `s`, whatever follows. -/
def Reads (p : Reader β ε α) (s : List β) (a : α) : Prop := ∀ rest, p.run (s ++ rest) = .ok (a, rest)

theorem Reads.pure (a : α) : Reads (Pure.pure a : Reader β ε α) [] a := fun _ => rfl

theorem Reads.bind {p : Reader β ε α} {q : α → Reader β ε γ} {s t : List β} {a : α} {c : γ} (hp : Reads p s a)
    (hq : Reads (q a) t c) : Reads (p >>= q) (s ++ t) c := by
  intro rest
  rw [StateT.run_bind, List.append_assoc, hp]
  exact hq rest

/-- A step that reads nothing more. -/
theorem Reads.bind_nil {p : Reader β ε α} {q : α → Reader β ε γ} {s : List β} {a : α} {c : γ} (hp : Reads p s a)
    (hq : Reads (q a) [] c) : Reads (p >>= q) s c := by
  have hboth := hp.bind hq
  rw [List.append_nil] at hboth
  exact hboth

theorem Reads.map {p : Reader β ε α} {s : List β} {a : α} (f : α → γ) (hp : Reads p s a) :
    Reads (f <$> p) s (f a) := by
  intro rest
  rw [StateT.run_map, hp]
  rfl

/-- `n` items, or a failure if there are fewer. -/
def take (short : ε) (n : Nat) : Reader β ε (List β) := fun s =>
  if n ≤ s.length then .ok (s.take n, s.drop n) else .error short

theorem reads_take (short : ε) (s : List β) : Reads (take short s.length) s s := by
  intro rest
  have hle : s.length ≤ (s ++ rest).length := by simp
  change (if s.length ≤ (s ++ rest).length then _ else _) = _
  rw [if_pos hle, List.take_left, List.drop_left]

/-- One reader after the other, `n` times. -/
def many (p : Reader β ε α) : Nat → Reader β ε (List α)
  | 0 => Pure.pure []
  | n + 1 => do
    let a ← p
    let as ← many p n
    Pure.pure (a :: as)

/-- A list that is written item by item. -/
theorem Reads.many {δ : Type} {p : Reader β ε α} {write : δ → List β} {read : δ → α} (ds : List δ)
    (h : ∀ d ∈ ds, Reads p (write d) (read d)) : Reads (Codec.many p ds.length) (ds.flatMap write) (ds.map read) := by
  induction ds with
  | nil => exact Reads.pure []
  | cons d ds ih =>
    have hhead := h d (List.mem_cons_self ..)
    have htail := ih fun e he => h e (List.mem_cons_of_mem d he)
    exact hhead.bind (htail.bind_nil (Reads.pure _))

end Reading.Lib.Codec
