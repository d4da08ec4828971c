import Mathlib.Data.List.Basic
import Mathlib.Algebra.Ring.Parity
import Mathlib.Algebra.BigOperators.Group.List.Basic

/-!
# One's-complement sums

Sixteen-bit one's-complement addition and its sums over bytes taken two at a time, in either byte order. A number represents a total when it is congruent to it modulo 65535 and zero exactly when the total is: that is what deferred carries preserve, and it determines a number of at most 65535. Multiplying by 256 exchanges the two byte orders.
-/

namespace Reading.OnesSum

/-- Addition with the carry brought around. -/
def add (a b : Nat) : Nat := if a + b > 65535 then a + b - 65535 else a + b

/-- The one's-complement sum of 16-bit words. -/
def sum (words : List Nat) : Nat := words.foldl add 0

def Represents (s v : Nat) : Prop := s % 65535 = v % 65535 ∧ (s = 0 ↔ v = 0)

theorem Represents.refl (s : Nat) : Represents s s := ⟨rfl, Iff.rfl⟩

theorem Represents.add {s v : Nat} (h : Represents s v) (x : Nat) : Represents (s + x) (v + x) := by
  obtain ⟨hmod, hzero⟩ := h
  exact ⟨by omega, by omega⟩

/-- Bringing the carries around. -/
theorem Represents.fold {s v : Nat} (h : Represents s v) (hs : s < 2 ^ 32) :
    Represents (OnesSum.add (s % 65536) (s / 65536)) v ∧ OnesSum.add (s % 65536) (s / 65536) ≤ 65535 := by
  obtain ⟨hmod, hzero⟩ := h
  unfold OnesSum.add
  split
  · exact ⟨⟨by omega, by omega⟩, by omega⟩
  · exact ⟨⟨by omega, by omega⟩, by omega⟩

/-- The complement is zero. -/
theorem Represents.eq_max_iff {s v : Nat} (h : Represents s v) (hle : s ≤ 65535) : s = 65535 ↔ v % 65535 = 0 ∧ v ≠ 0 := by
  obtain ⟨hmod, hzero⟩ := h
  omega

theorem Represents.unique {s t v : Nat} (hs : Represents s v) (ht : Represents t v) (hsle : s ≤ 65535)
    (htle : t ≤ 65535) : s = t := by
  obtain ⟨hsmod, hszero⟩ := hs
  obtain ⟨htmod, htzero⟩ := ht
  omega

theorem foldl_add {words : List Nat} (hwords : ∀ x ∈ words, x ≤ 65535) {s v : Nat} (h : Represents s v)
    (hs : s ≤ 65535) :
    Represents (words.foldl OnesSum.add s) (v + words.sum) ∧ words.foldl OnesSum.add s ≤ 65535 := by
  induction words generalizing s v with
  | nil => exact ⟨h, hs⟩
  | cons x words ih =>
    have hx : x ≤ 65535 := hwords x List.mem_cons_self
    have hnext := h.add x
    have hadd : Represents (OnesSum.add s x) (v + x) ∧ OnesSum.add s x ≤ 65535 := by
      obtain ⟨hmod, hzero⟩ := hnext
      unfold OnesSum.add
      split
      · exact ⟨⟨by omega, by omega⟩, by omega⟩
      · exact ⟨⟨by omega, by omega⟩, by omega⟩
    have hrest := ih (fun y hy => hwords y (List.mem_cons_of_mem x hy)) hadd.1 hadd.2
    rwa [Nat.add_assoc, ← List.sum_cons] at hrest

theorem sum_represents {words : List Nat} (hwords : ∀ x ∈ words, x ≤ 65535) :
    Represents (sum words) words.sum ∧ sum words ≤ 65535 := by
  have h := foldl_add hwords (Represents.refl 0) (Nat.zero_le _)
  rwa [Nat.zero_add] at h

/-! ### Bytes in two orders -/

/-- Which byte of a pair a machine takes for the more significant one. -/
inductive Order
  | big
  | little
  deriving DecidableEq

def Order.swap : Order → Order
  | .big => .little
  | .little => .big

/-- The weight of the first byte of a pair. -/
def Order.first : Order → Nat
  | .big => 256
  | .little => 1

/-- The 16-bit word of two bytes. -/
def Order.word (o : Order) (b c : UInt8) : Nat := o.first * b.toNat + o.swap.first * c.toNat

/-- The 16-bit words of a sequence of bytes, the last one padded with zero. -/
def words (o : Order) : List UInt8 → List Nat
  | [] => []
  | [b] => [o.word b 0]
  | b :: c :: rest => o.word b c :: words o rest

@[simp] theorem Order.swap_swap (o : Order) : o.swap.swap = o := by cases o <;> rfl

theorem Order.word_le (o : Order) (b c : UInt8) : o.word b c ≤ 65535 := by
  have hb := b.toNat_lt
  have hc := c.toNat_lt
  cases o with
  | big => simp only [Order.word, Order.first, Order.swap]; omega
  | little => simp only [Order.word, Order.first, Order.swap]; omega

/-- The total of the words of a sequence, byte by byte. -/
def weigh (o : Order) : List UInt8 → Nat
  | [] => 0
  | b :: rest => o.first * b.toNat + weigh o.swap rest

theorem sum_words (o : Order) (bytes : List UInt8) : (words o bytes).sum = weigh o bytes := by
  fun_induction words o bytes with
  | case1 => rfl
  | case2 b => simp [Order.word, weigh]
  | case3 b c rest ih => simp only [List.sum_cons, ih, weigh, Order.word, Order.swap_swap, Nat.add_assoc]

theorem words_le (o : Order) (bytes : List UInt8) : ∀ x ∈ words o bytes, x ≤ 65535 := by
  fun_induction words o bytes with
  | case1 => simp
  | case2 b => simpa using o.word_le b 0
  | case3 b c rest ih => simpa using ⟨o.word_le b c, ih⟩

theorem weigh_append {p : List UInt8} (hp : Even p.length) (o : Order) (q : List UInt8) :
    weigh o (p ++ q) = weigh o p + weigh o q := by
  fun_induction words o p with
  | case1 => simp [weigh]
  | case2 b => simp at hp
  | case3 b c rest ih =>
    have hrest : Even rest.length := by
      simp only [List.length_cons] at hp
      obtain ⟨n, hn⟩ := hp
      exact ⟨n - 1, by omega⟩
    simp only [List.cons_append, weigh, Order.swap_swap, ih hrest]
    omega

theorem weigh_append_odd {p : List UInt8} (hp : ¬ Even p.length) (o : Order) (q : List UInt8) :
    weigh o (p ++ q) = weigh o p + weigh o.swap q := by
  cases p with
  | nil => simp at hp
  | cons b p =>
    have hrest : Even p.length := by
      rw [List.length_cons, Nat.even_add_one, not_not] at hp
      exact hp
    simp only [List.cons_append, weigh, weigh_append hrest]
    omega

theorem weigh_eq_zero_iff (o : Order) (bytes : List UInt8) : weigh o bytes = 0 ↔ ∀ b ∈ bytes, b.toNat = 0 := by
  induction bytes generalizing o with
  | nil => simp [weigh]
  | cons b rest ih =>
    have hfirst : o.first ≠ 0 := by cases o <;> decide
    simp [weigh, ih, hfirst]

theorem weigh_swap_mod (o : Order) (bytes : List UInt8) : 256 * weigh o bytes % 65535 = weigh o.swap bytes % 65535 := by
  induction bytes generalizing o with
  | nil => rfl
  | cons b rest ih =>
    have hrest := ih o.swap
    cases o with
    | big => simp only [weigh, Order.first, Order.swap] at hrest ⊢; omega
    | little => simp only [weigh, Order.first, Order.swap] at hrest ⊢; omega

/-- Exchanging the bytes of the complement of `t` gives the complement of `s`, if `t` is `s` with its bytes exchanged, up to the two zeros. -/
theorem swap_complement {s t : Nat} (hcross : 256 * s % 65535 = t % 65535) (hs : 0 < s) (hsle : s ≤ 65535) (ht : 0 < t)
    (htle : t ≤ 65535) : (65535 - t) % 256 * 256 + (65535 - t) / 256 = 65535 - s := by
  obtain ⟨x, hx⟩ : ∃ x, x = 65535 - t := ⟨_, rfl⟩
  obtain ⟨y, hy⟩ : ∃ y, y = x % 256 * 256 + x / 256 := ⟨_, rfl⟩
  rw [← hx, ← hy]
  have hswap : 256 * x = 65535 * (x / 256) + y := by omega
  have hback : 256 * t % 65535 = s % 65535 := by
    calc 256 * t % 65535 = 256 * (256 * s % 65535) % 65535 := by rw [hcross, Nat.mul_mod_mod]
      _ = s % 65535 := by rw [Nat.mul_mod_mod]; omega
  have hbound : y < 65535 := by omega
  clear hy hcross
  omega

/-- A shift by eight bits exchanges the byte orders of what is represented. -/
theorem Represents.shift {s : Nat} {o : Order} {p q : List UInt8}
    (h : Represents s (weigh o p + weigh o.swap q)) : Represents (256 * s) (weigh o.swap p + weigh o q) := by
  obtain ⟨hmod, hzero⟩ := h
  have hp := weigh_swap_mod o p
  have hq := weigh_swap_mod o.swap q
  rw [Order.swap_swap] at hq
  have hpzero := (weigh_eq_zero_iff o p).trans (weigh_eq_zero_iff o.swap p).symm
  have hqzero := (weigh_eq_zero_iff o.swap q).trans (weigh_eq_zero_iff o q).symm
  refine ⟨by omega, ?_⟩
  rw [Nat.add_eq_zero_iff, ← hpzero, ← hqzero, ← Nat.add_eq_zero_iff, ← hzero]
  omega

end Reading.OnesSum
