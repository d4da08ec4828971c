import Reading.Kern.Mbuf
import Reading.Lib.OnesSum

/-!
# The Internet checksum

`in_cksum` (sys/netinet/in_cksum.c). The accumulator is a 32-bit word. An mbuf is given by the parity of the address of its data and by the data; `w` is the rest of the data from the current address on. The loops that add sixteen, four and one word a turn are one definition. `byte_swapped` is set and reset inside the turn for one mbuf, so it is no part of the state between two mbufs.
-/

namespace Reading.Ip

open Kern (Byte)
open OnesSum

/-- The data of an mbuf, and whether it begins at an odd address. -/
structure Piece where
  odd : Bool
  data : List Byte
  deriving DecidableEq

/-- The bytes of a chain. -/
def pieceBytes (ms : List Piece) : List Byte := ms.flatMap Piece.data

def add32 (sum x : Nat) : Nat := (sum + x) % 2 ^ 32

/-- `sum <<= 8`. -/
def shift8 (sum : Nat) : Nat := sum * 256 % 2 ^ 32

/-- `REDUCE`: the two halves of the accumulator are added, with `ADDCARRY`. -/
def reduce (sum : Nat) : Nat :=
  let s := sum % 65536 + sum / 65536
  if s > 65535 then s - 65535 else s

/-- `sum += w[0]; ... sum += w[n - 1]`. -/
def addWords (o : Order) : Nat → List Byte → Nat → Nat
  | n + 1, b :: c :: w, sum => addWords o n w (add32 sum (o.word b c))
  | _, _, sum => sum

/-- `while ((mlen -= 2 * n) >= 0)` with `n` words a turn, and `mlen += 2 * n` after it: what remains of `mlen`, and `w` and `sum` at the end. -/
def addBlocks (o : Order) (n mlen : Nat) (w : List Byte) (sum : Nat) : Nat × List Byte × Nat :=
  if 0 < n ∧ 2 * n ≤ mlen then
    addBlocks o n (mlen - 2 * n) (w.drop (2 * n)) (addWords o n w sum)
  else (mlen, w, sum)
termination_by mlen

/-- The variables of `in_cksum` between two mbufs: `mlen` is -1 when a byte waits in `s_util.c[0]`. -/
structure Sums where
  sum : Nat := 0
  mlen : Int := 0
  len : Nat
  c0 : Byte := 0
  deriving DecidableEq

/-- The variables inside the turn for one mbuf, from where `mlen` counts the bytes to add. -/
structure Scan where
  w : List Byte
  odd : Bool
  sum : Nat
  mlen : Nat
  len : Nat
  c0 : Byte

/-- The first byte may belong to a word that began in an earlier mbuf. -/
def resume (o : Order) (s : Sums) (odd : Bool) (b : Byte) (rest : List Byte) : Scan :=
  if s.mlen = -1 then
    { w := rest, odd := !odd, sum := add32 s.sum (o.word s.c0 b), mlen := min (s.len - 1) rest.length,
      len := s.len - 1 - min (s.len - 1) rest.length, c0 := s.c0 }
  else
    { w := b :: rest, odd := odd, sum := s.sum, mlen := min s.len (rest.length + 1),
      len := s.len - min s.len (rest.length + 1), c0 := s.c0 }

/-- The three loops: what remains of `mlen`, `w` and `sum`. -/
def addAll (o : Order) (mlen : Nat) (w : List Byte) (sum : Nat) : Nat × List Byte × Nat :=
  let (mlen, w, sum) := addBlocks o 16 mlen w sum
  let (mlen, w, sum) := addBlocks o 4 mlen w sum
  addBlocks o 1 mlen w (reduce sum)

/-- From an even address on. -/
def scanEven (o : Order) (s : Scan) : Sums :=
  let (mlen, w, sum) := addBlocks o 16 s.mlen s.w s.sum
  let (mlen, w, sum) := addBlocks o 4 mlen w sum
  if mlen = 0 then { sum := sum, mlen := 0, len := s.len, c0 := s.c0 }
  else
    let (mlen, w, sum) := addBlocks o 1 mlen w (reduce sum)
    { sum := sum, mlen := mlen - 2, len := s.len, c0 := if mlen = 1 then w.headD 0 else s.c0 }

/-- From an odd address on: the first byte waits, and the words of the rest are added with their bytes exchanged. -/
def scanOdd (o : Order) (s : Scan) : Sums :=
  let sum := shift8 (reduce s.sum)
  let c0 := s.w.headD 0
  let (mlen, w, sum) := addAll o (s.mlen - 1) s.w.tail sum
  let sum := shift8 (reduce sum)
  if mlen = 1 then { sum := add32 sum (o.word c0 (w.headD 0)), mlen := 0, len := s.len, c0 := c0 }
  else { sum := sum, mlen := -1, len := s.len, c0 := c0 }

/-- The turn for one mbuf. -/
def scan (o : Order) (m : Piece) (s : Sums) : Sums :=
  match m.data with
  | [] => s
  | b :: rest =>
    let scan := resume o s m.odd b rest
    if scan.odd ∧ scan.mlen > 0 then scanOdd o scan else scanEven o scan

/-- The loop over the mbufs. -/
def scanChain (o : Order) : List Piece → Sums → Sums
  | [], s => s
  | m :: ms, s => if s.len = 0 then s else scanChain o ms (scan o m s)

/-- `in_cksum`, on a machine of the given byte order. -/
def inCksum (o : Order) (ms : List Piece) (len : Nat) : Nat :=
  let s := scanChain o ms { len := len }
  let sum := if s.mlen = -1 then add32 s.sum (o.word s.c0 0) else s.sum
  (2 ^ 32 - 1 - reduce sum) % 2 ^ 16

/-! ### The accumulator -/

/-- The accumulator represents the total `v` of the bytes added so far, `n` of them at most since it was last reduced. -/
structure Tally (sum v n : Nat) : Prop where
  represents : Represents sum v
  bound : 2 * sum ≤ 65535 * (512 + n)

theorem Tally.lt {sum v n : Nat} (h : Tally sum v n) (hn : n ≤ 65536) : sum < 2 ^ 32 := by
  have := h.bound
  omega

theorem Tally.addWord {sum v n x : Nat} (h : Tally sum v n) (hn : n + 2 ≤ 65536) (hx : x ≤ 65535) :
    Tally (add32 sum x) (v + x) (n + 2) := by
  have hbound := h.bound
  have hsum : add32 sum x = sum + x := Nat.mod_eq_of_lt (by omega)
  rw [hsum]
  exact ⟨h.represents.add x, by omega⟩

theorem Tally.reduce {sum v n : Nat} (h : Tally sum v n) (hn : n ≤ 65536) :
    Represents (Ip.reduce sum) v ∧ Ip.reduce sum ≤ 65535 :=
  h.represents.fold (h.lt hn)

theorem Tally.of_le {sum v : Nat} (h : Represents sum v) (hle : sum ≤ 65535) (n : Nat) : Tally sum v n :=
  ⟨h, by omega⟩

/-- `REDUCE; sum <<= 8`. -/
theorem Tally.shift {sum n : Nat} {o : Order} {p q : List Byte} (h : Tally sum (weigh o p + weigh o.swap q) n)
    (hn : n ≤ 65536) (n' : Nat) : Tally (shift8 (Ip.reduce sum)) (weigh o.swap p + weigh o q) n' := by
  obtain ⟨hrep, hle⟩ := h.reduce hn
  have hshift : shift8 (Ip.reduce sum) = 256 * Ip.reduce sum := by
    unfold shift8
    rw [Nat.mod_eq_of_lt (by omega), Nat.mul_comm]
  rw [hshift]
  exact ⟨hrep.shift, by omega⟩

theorem Tally.addWords {o : Order} {n : Nat} {w : List Byte} {sum v k : Nat} (h : Tally sum v k)
    (hw : 2 * n ≤ w.length) (hk : k + 2 * n ≤ 65536) :
    Tally (Ip.addWords o n w sum) (v + weigh o (w.take (2 * n))) (k + 2 * n) := by
  induction n generalizing w sum v k with
  | zero => simpa [Ip.addWords, weigh] using h
  | succ n ih =>
    obtain _ | ⟨b, _ | ⟨c, w⟩⟩ := w
    case nil => simp at hw
    case cons.nil => simp only [List.length_cons, List.length_nil] at hw; omega
    case cons.cons =>
      simp only [List.length_cons] at hw
      have hword := h.addWord (by omega) (o.word_le b c)
      have hrest := ih hword (w := w) (by omega) (by omega)
      have htake : weigh o ((b :: c :: w).take (2 * (n + 1))) = o.word b c + weigh o (w.take (2 * n)) := by
        rw [show 2 * (n + 1) = 2 * n + 1 + 1 by omega]
        simp only [List.take_succ_cons, weigh, Order.word, Order.swap_swap, Nat.add_assoc]
      rw [htake, ← Nat.add_assoc, show k + 2 * (n + 1) = k + 2 + 2 * n by omega]
      exact hrest

/-- What remains of `mlen`, `w` and `sum` after an even number of bytes was added to a total `v`. -/
def Added (o : Order) (v k mlen : Nat) (w : List Byte) (out : Nat × List Byte × Nat) : Prop :=
  ∃ d, Even d ∧ d ≤ mlen ∧ out.1 = mlen - d ∧ out.2.1 = w.drop d ∧ Tally out.2.2 (v + weigh o (w.take d)) (k + d)

section Loops

variable {o : Order} {v k mlen sum : Nat} {w : List Byte} {out : Nat × List Byte × Nat}

theorem Added.start (h : Tally sum v k) : Added o v k mlen w (mlen, w, sum) :=
  ⟨0, ⟨0, rfl⟩, Nat.zero_le _, rfl, rfl, by simpa [weigh] using h⟩

theorem Added.reduce (h : Added o v k mlen w out) (hk : k + mlen ≤ 65536) :
    Added o v k mlen w (out.1, out.2.1, Ip.reduce out.2.2) := by
  obtain ⟨d, heven, hle, hmlen, hrest, htally⟩ := h
  obtain ⟨hrep, hsum⟩ := htally.reduce (by omega)
  exact ⟨d, heven, hle, hmlen, hrest, Tally.of_le hrep hsum _⟩

theorem Added.turn {n : Nat} (h : Added o v k mlen w out) (hn : 2 * n ≤ out.1) (hw : mlen ≤ w.length)
    (hk : k + mlen ≤ 65536) :
    Added o v k mlen w (out.1 - 2 * n, out.2.1.drop (2 * n), addWords o n out.2.1 out.2.2) := by
  obtain ⟨d, heven, hle, hmlen, hrest, htally⟩ := h
  have hlen : 2 * n ≤ (w.drop d).length := by
    rw [List.length_drop]
    omega
  have hmore := htally.addWords (o := o) hlen (by omega)
  refine ⟨d + 2 * n, heven.add (even_two_mul n), by omega, by dsimp only; omega, ?_, ?_⟩
  · show out.2.1.drop (2 * n) = w.drop (d + 2 * n)
    rw [hrest, List.drop_drop]
  · show Tally (addWords o n out.2.1 out.2.2) (v + weigh o (w.take (d + 2 * n))) (k + (d + 2 * n))
    have htake : Even (w.take d).length := by
      rw [List.length_take, Nat.min_eq_left (by omega)]
      exact heven
    rw [List.take_add, weigh_append htake, ← Nat.add_assoc, ← Nat.add_assoc, hrest]
    exact hmore

/-- A loop of `n` words a turn leaves fewer bytes than one turn takes. -/
theorem Added.blocks {n : Nat} (hn : 0 < n) (h : Added o v k mlen w out) (hw : mlen ≤ w.length)
    (hk : k + mlen ≤ 65536) :
    Added o v k mlen w (addBlocks o n out.1 out.2.1 out.2.2) ∧ (addBlocks o n out.1 out.2.1 out.2.2).1 < 2 * n := by
  obtain ⟨left, rest, acc⟩ := out
  induction left using Nat.strong_induction_on generalizing rest acc with
  | _ left ih =>
    dsimp only at h ⊢
    unfold addBlocks
    by_cases hturn : 0 < n ∧ 2 * n ≤ left
    · rw [if_pos hturn]
      exact ih (left - 2 * n) (by omega) _ _ (h.turn hturn.2 hw hk)
    · rw [if_neg hturn]
      exact ⟨h, by dsimp only; omega⟩

theorem Tally.addAll (h : Tally sum v k) (hw : mlen ≤ w.length) (hk : k + mlen ≤ 65536) :
    Added o v k mlen w (Ip.addAll o mlen w sum) ∧ (Ip.addAll o mlen w sum).1 < 2 := by
  have hstart : Added o v k mlen w (mlen, w, sum) := Added.start h
  have hsixteen := (hstart.blocks (n := 16) (by decide) hw hk).1
  have hfour := (hsixteen.blocks (n := 4) (by decide) hw hk).1
  exact (hfour.reduce hk).blocks (n := 1) (by decide) hw hk

end Loops

/-! ### The chain -/

/-- The state between two mbufs, after the bytes `done`: everything is added, or everything but the byte that waits, which stands first in its word. -/
def Sums.Holds (o : Order) (s : Sums) (done : List Byte) : Prop :=
  (s.mlen = -1 ∧ ¬ Even done.length ∧
    ∃ v, weigh o done = v + o.first * s.c0.toNat ∧ Tally s.sum v (done.length - 1)) ∨
  (s.mlen ≠ -1 ∧ Even done.length ∧ Tally s.sum (weigh o done) done.length)

section Chain

variable {o : Order}

theorem Added.rest {p w : List Byte} {v k mlen : Nat} {out : Nat × List Byte × Nat} (h : Added o v k mlen w out)
    (hw : mlen ≤ w.length) (hlt : out.1 < 2) (hp : Even p.length) :
    (out.1 = 0 ∧ Even (p ++ w.take mlen).length ∧ Tally out.2.2 (v + weigh o (w.take mlen)) (k + mlen)) ∨
    (out.1 = 1 ∧ ¬ Even (p ++ w.take mlen).length ∧ ∃ q, w.take mlen = q ++ [out.2.1.headD 0] ∧ Even q.length ∧
      Tally out.2.2 (v + weigh o q) (k + q.length)) := by
  obtain ⟨d, heven, hle, hmlen, hrest, htally⟩ := h
  have hlength : (p ++ w.take mlen).length = p.length + mlen := by
    rw [List.length_append, List.length_take, Nat.min_eq_left hw]
  rw [hlength]
  obtain hzero | hone : out.1 = 0 ∨ out.1 = 1 := by omega
  · obtain rfl : d = mlen := by omega
    exact .inl ⟨hzero, hp.add heven, htally⟩
  · obtain rfl : mlen = d + 1 := by omega
    have hqlen : (w.take d).length = d := by
      rw [List.length_take, Nat.min_eq_left (by omega)]
    have hget : w.take (d + 1) = w.take d ++ [out.2.1.headD 0] := by
      rw [List.take_add, hrest]
      congr 1
      have hdrop : 0 < (w.drop d).length := by
        rw [List.length_drop]
        omega
      obtain ⟨c, rest, hcons⟩ := List.exists_cons_of_length_pos hdrop
      rw [hcons]
      rfl
    refine .inr ⟨hone, ?_, w.take d, hget, ?_, ?_⟩
    · rw [← Nat.add_assoc, Nat.even_add_one, not_not]
      exact hp.add heven
    · rwa [hqlen]
    · rwa [hqlen]

theorem scanEven_holds {s : Scan} {p : List Byte} (hp : Even p.length) (h : Tally s.sum (weigh o p) p.length)
    (hw : s.mlen ≤ s.w.length) (hlong : p.length + s.mlen ≤ 65535) :
    (scanEven o s).Holds o (p ++ s.w.take s.mlen) := by
  have hlength : (p ++ s.w.take s.mlen).length = p.length + s.mlen := by
    rw [List.length_append, List.length_take, Nat.min_eq_left hw]
  have hstart : Added o (weigh o p) p.length s.mlen s.w (s.mlen, s.w, s.sum) := Added.start h
  have hsixteen := (hstart.blocks (n := 16) (by decide) hw (by omega)).1
  have hfour := (hsixteen.blocks (n := 4) (by decide) hw (by omega)).1
  unfold scanEven
  dsimp only at hfour ⊢
  generalize addBlocks o 4 (addBlocks o 16 s.mlen s.w s.sum).1 (addBlocks o 16 s.mlen s.w s.sum).2.1
    (addBlocks o 16 s.mlen s.w s.sum).2.2 = out at hfour ⊢
  by_cases hzero : out.1 = 0
  · rw [if_pos hzero]
    rcases hfour.rest hw (by omega) hp with ⟨-, heven, htally⟩ | ⟨hone, -⟩
    · refine .inr ⟨show (0 : Int) ≠ -1 by decide, heven, ?_⟩
      rw [weigh_append hp, hlength]
      exact htally
    · omega
  · rw [if_neg hzero]
    have hlast := (hfour.reduce (by omega)).blocks (n := 1) (by decide) hw (by omega)
    dsimp only at hlast
    rcases hlast.1.rest hw hlast.2 hp with ⟨hzero, heven, htally⟩ | ⟨hone, hodd, q, hq, hqeven, htally⟩
    · refine .inr ⟨?_, heven, ?_⟩
      · show (((addBlocks o 1 _ _ _).1 : Int)) - 2 ≠ -1
        rw [hzero]
        decide
      · rw [weigh_append hp, hlength]
        exact htally
    · refine .inl ⟨?_, hodd, weigh o p + weigh o q, ?_, ?_⟩
      · show (((addBlocks o 1 _ _ _).1 : Int)) - 2 = -1
        rw [hone]
        decide
      · show _ = _ + o.first * (if (addBlocks o 1 _ _ _).1 = 1 then _ else s.c0).toNat
        rw [if_pos hone, weigh_append hp, hq, weigh_append hqeven]
        simp only [weigh, Nat.add_zero, Nat.add_assoc]
      · have hqlen : (p ++ s.w.take s.mlen).length - 1 = p.length + q.length := by
          rw [hq]
          simp
        rw [hqlen]
        exact htally

theorem scanOdd_holds {s : Scan} {p : List Byte} (hp : Even p.length) (h : Tally s.sum (weigh o p) p.length)
    (hw : s.mlen ≤ s.w.length) (hpos : 0 < s.mlen) (hlong : p.length + s.mlen ≤ 65535) :
    (scanOdd o s).Holds o (p ++ s.w.take s.mlen) := by
  obtain ⟨w, odd, sum, mlen, len, c0⟩ := s
  dsimp only at h hw hpos hlong ⊢
  obtain ⟨n, rfl⟩ : ∃ n, mlen = n + 1 := ⟨mlen - 1, by omega⟩
  obtain ⟨b, rest, rfl⟩ := List.exists_cons_of_length_pos (show 0 < w.length by omega)
  simp only [List.length_cons, Nat.add_le_add_iff_right] at hw
  have hswapped : Tally (shift8 (reduce sum)) (weigh o.swap p + weigh o []) p.length :=
    Tally.shift (q := []) (by simpa [weigh] using h) (by omega) p.length
  have hadded := hswapped.addAll (o := o) hw (by omega)
  have hback : ∀ {acc k : Nat} {q : List Byte}, Tally acc (weigh o.swap p + weigh o [] + weigh o q) k → k ≤ 65536 →
      ∀ k', Tally (shift8 (reduce acc)) (weigh o p + weigh o.swap q) k' := by
    intro acc k q hacc hk k'
    have hshift : Tally (shift8 (reduce acc)) (weigh o.swap.swap p + weigh o.swap q) k' :=
      Tally.shift (o := o.swap) (by simpa [weigh] using hacc) hk k'
    rwa [Order.swap_swap] at hshift
  have hdone : ∀ q : List Byte, weigh o (p ++ b :: q) = weigh o p + weigh o.swap q + o.first * b.toNat := by
    intro q
    rw [weigh_append hp]
    simp only [weigh]
    omega
  have htake : (b :: rest).take (n + 1) = b :: rest.take n := rfl
  unfold scanOdd
  simp only [List.headD_cons, List.tail_cons, Nat.add_sub_cancel, htake]
  rcases hadded.1.rest (p := []) hw hadded.2 ⟨0, rfl⟩ with ⟨hzero, heven, htally⟩ | ⟨hone, hodd, q, hq, hqeven, htally⟩
  · rw [if_neg (by omega)]
    rw [List.nil_append] at heven
    have hlength : (p ++ b :: rest.take n).length = p.length + (rest.take n).length + 1 := by simp; omega
    refine .inl ⟨rfl, ?_, _, hdone _, hback htally (by omega) _⟩
    rw [hlength, Nat.even_add_one, not_not]
    exact hp.add heven
  · rw [if_pos hone]
    have hqlen : q.length + 1 ≤ n := by
      have := congrArg List.length hq
      rw [List.length_append, List.length_take] at this
      simp only [List.length_cons, List.length_nil] at this
      omega
    have hlength : (p ++ b :: rest.take n).length = p.length + q.length + 2 := by
      rw [hq]
      simp
      omega
    have hback' := hback htally (by omega) (p.length + q.length)
    have hword := hback'.addWord (by omega) (o.word_le b ((addAll o n rest (shift8 (reduce sum))).2.1.headD 0))
    refine .inr ⟨show (0 : Int) ≠ -1 by decide, ?_, ?_⟩
    · rw [hlength]
      exact (hp.add hqeven).add ⟨1, rfl⟩
    · rw [hlength, hdone, hq, weigh_append hqeven]
      have htotal : weigh o p + (weigh o.swap q + weigh o.swap [(addAll o n rest (shift8 (reduce sum))).2.1.headD 0]) +
          o.first * b.toNat =
          weigh o p + weigh o.swap q + o.word b ((addAll o n rest (shift8 (reduce sum))).2.1.headD 0) := by
        simp only [weigh, Order.word, Nat.add_zero]
        omega
      rw [htotal]
      exact hword

/-- The turn for one mbuf adds its bytes, as far as `len` reaches. -/
theorem scan_holds {m : Piece} {s : Sums} {done : List Byte} (h : s.Holds o done) (hlen : s.len ≠ 0)
    (hlong : done.length + (m.data.take s.len).length ≤ 65535) :
    (scan o m s).Holds o (done ++ m.data.take s.len) ∧ (scan o m s).len = s.len - m.data.length := by
  obtain ⟨odd, data⟩ := m
  dsimp only at hlong ⊢
  unfold scan
  cases data with
  | nil => simpa using h
  | cons b rest =>
    dsimp only
    obtain ⟨n, hn⟩ : ∃ n, s.len = n + 1 := ⟨s.len - 1, by omega⟩
    rw [hn, List.take_succ_cons] at hlong ⊢
    rw [List.length_cons, List.length_take] at hlong
    -- what `resume` leaves to the loops
    have hresumed : ∃ p, Even p.length ∧ Tally (resume o s odd b rest).sum (weigh o p) p.length ∧
        (resume o s odd b rest).mlen ≤ (resume o s odd b rest).w.length ∧
        p.length + (resume o s odd b rest).mlen ≤ 65535 ∧
        p ++ (resume o s odd b rest).w.take (resume o s odd b rest).mlen = done ++ b :: rest.take n ∧
        (resume o s odd b rest).len = n + 1 - (rest.length + 1) := by
      unfold resume
      rw [hn]
      rcases h with ⟨hwaits, hodd, v, hv, htally⟩ | ⟨hnone, heven, htally⟩
      · rw [if_pos hwaits]
        have hpos : 0 < done.length := by
          by_contra hzero
          exact hodd ⟨0, by omega⟩
        refine ⟨done ++ [b], ?_, ?_, ?_, ?_, ?_, ?_⟩
        · rw [List.length_append, List.length_singleton, Nat.even_add_one]
          exact hodd
        · have hword := htally.addWord (by omega) (o.word_le s.c0 b)
          have hweigh : weigh o (done ++ [b]) = v + o.word s.c0 b := by
            rw [weigh_append_odd hodd, hv]
            simp only [weigh, Order.word, Nat.add_zero, Nat.add_assoc]
          rw [hweigh, List.length_append, List.length_singleton, show done.length + 1 = done.length - 1 + 2 by omega]
          exact hword
        · exact Nat.min_le_right _ _
        · rw [List.length_append, List.length_singleton]
          dsimp only
          omega
        · show done ++ [b] ++ rest.take (min n rest.length) = _
          rw [← List.take_eq_take_min, List.append_assoc]
          rfl
        · dsimp only
          omega
      · rw [if_neg hnone]
        refine ⟨done, heven, htally, Nat.min_le_right _ _, ?_, ?_, ?_⟩
        · dsimp only
          omega
        · show done ++ (b :: rest).take (min (n + 1) (b :: rest).length) = _
          rw [← List.take_eq_take_min]
          rfl
        · dsimp only
          omega
    obtain ⟨p, hp, htally, hw, hplong, htake, hrest⟩ := hresumed
    rw [← htake]
    split
    · rename_i hcase
      refine ⟨scanOdd_holds hp htally hw hcase.2 hplong, ?_⟩
      have hkeeps : (scanOdd o (resume o s odd b rest)).len = (resume o s odd b rest).len := by
        unfold scanOdd
        dsimp only
        split <;> rfl
      rw [hkeeps, hrest]
      rfl
    · refine ⟨scanEven_holds hp htally hw hplong, ?_⟩
      have hkeeps : (scanEven o (resume o s odd b rest)).len = (resume o s odd b rest).len := by
        unfold scanEven
        dsimp only
        split <;> rfl
      rw [hkeeps, hrest]
      rfl

theorem scanChain_holds (ms : List Piece) {s : Sums} {done : List Byte} (h : s.Holds o done)
    (hlong : done.length + (pieceBytes ms).length ≤ 65535) :
    (scanChain o ms s).Holds o (done ++ (pieceBytes ms).take s.len) := by
  induction ms generalizing s done with
  | nil => simpa [pieceBytes, scanChain] using h
  | cons m ms ih =>
    have hcons : pieceBytes (m :: ms) = m.data ++ pieceBytes ms := rfl
    unfold scanChain
    by_cases hlen : s.len = 0
    · rw [if_pos hlen, hlen, List.take_zero, List.append_nil]
      exact h
    · rw [if_neg hlen, hcons, List.take_append, ← List.append_assoc]
      rw [hcons, List.length_append] at hlong
      obtain ⟨hnext, hrest⟩ := scan_holds (m := m) h hlen (by rw [List.length_take]; omega)
      rw [← hrest]
      refine ih hnext ?_
      rw [List.length_append, List.length_take]
      omega

end Chain

theorem inCksum_eq (o : Order) (ms : List Piece) (len : Nat) (hlong : (pieceBytes ms).length ≤ 65535) :
    inCksum o ms len = 65535 - OnesSum.sum (words o ((pieceBytes ms).take len)) := by
  have hinit : ({ len := len } : Sums).Holds o [] :=
    .inr ⟨show (0 : Int) ≠ -1 by decide, ⟨0, rfl⟩, Represents.refl 0, Nat.zero_le _⟩
  have hend : (scanChain o ms { len := len }).Holds o ((pieceBytes ms).take len) :=
    scanChain_holds ms hinit (by simpa using hlong)
  have hbytes : ((pieceBytes ms).take len).length ≤ 65535 := by
    rw [List.length_take]
    omega
  generalize hs : scanChain o ms { len := len } = s at hend
  unfold inCksum
  rw [hs]
  obtain ⟨hsum, hsumLe⟩ := sum_represents (words_le o ((pieceBytes ms).take len))
  rw [sum_words] at hsum
  suffices htotal : Represents (reduce (if s.mlen = -1 then add32 s.sum (o.word s.c0 0) else s.sum))
      (weigh o ((pieceBytes ms).take len)) ∧
      reduce (if s.mlen = -1 then add32 s.sum (o.word s.c0 0) else s.sum) ≤ 65535 by
    have hsame := htotal.1.unique hsum htotal.2 hsumLe
    dsimp only
    rw [hsame]
    omega
  rcases hend with ⟨hwaits, hodd, v, hv, htally⟩ | ⟨hnone, -, htally⟩
  · rw [if_pos hwaits]
    have hpos : 0 < ((pieceBytes ms).take len).length := by
      by_contra hzero
      exact hodd ⟨0, by omega⟩
    have hpad := htally.addWord (by omega) (o.word_le s.c0 0)
    have hword : v + o.word s.c0 0 = weigh o ((pieceBytes ms).take len) := by
      rw [hv]
      simp [Order.word]
    rw [hword] at hpad
    exact hpad.reduce (by omega)
  · rw [if_neg hnone]
    exact htally.reduce (by omega)

/-- The bytes of a `u_short` in memory. -/
def storeWord (o : Order) (x : Nat) : List Byte :=
  match o with
  | .big => [UInt8.ofNat (x / 256), UInt8.ofNat (x % 256)]
  | .little => [UInt8.ofNat (x % 256), UInt8.ofNat (x / 256)]

theorem length_storeWord (o : Order) (x : Nat) : (storeWord o x).length = 2 := by
  cases o <;> rfl

theorem weigh_storeWord (o : Order) {x : Nat} (hx : x ≤ 65535) : weigh o (storeWord o x) = x := by
  have hhigh : (UInt8.ofNat (x / 256)).toNat = x / 256 := UInt8.toNat_ofNat_of_lt' (by
    show x / 256 < 256
    omega)
  have hlow : (UInt8.ofNat (x % 256)).toNat = x % 256 := UInt8.toNat_ofNat_of_lt' (by
    show x % 256 < 256
    omega)
  cases o with
  | big =>
    simp only [storeWord, weigh, Order.first, Order.swap, hhigh, hlow]
    omega
  | little =>
    simp only [storeWord, weigh, Order.first, Order.swap, hhigh, hlow]
    omega

theorem weigh_take_field (o : Order) {before field : List Byte} (after : List Byte) {len : Nat} (hbefore : Even before.length)
    (hfield : field.length = 2) (hlen : before.length + 2 ≤ len) :
    weigh o ((before ++ field ++ after).take len) =
      weigh o before + weigh o field + weigh o (after.take (len - (before.length + 2))) := by
  have hhead : (before ++ field).length = before.length + 2 := by rw [List.length_append, hfield]
  have heven : Even (before ++ field).length := by
    rw [hhead]
    exact hbefore.add ⟨1, rfl⟩
  rw [List.take_append, List.take_of_length_le (by omega), weigh_append heven, weigh_append hbefore, hhead]

/-- Bytes that carry their checksum in a word at an even offset have the checksum 0. -/
theorem inCksum_stored (o : Order) {ms ms' : List Piece} {len : Nat} {before after : List Byte}
    (hlong : (pieceBytes ms).length ≤ 65535) (hbytes : pieceBytes ms = before ++ [0, 0] ++ after)
    (hbefore : Even before.length) (hlen : before.length + 2 ≤ len)
    (hbytes' : pieceBytes ms' = before ++ storeWord o (inCksum o ms len) ++ after) : inCksum o ms' len = 0 := by
  have hfirst := inCksum_eq o ms len hlong
  have hlong' : (pieceBytes ms').length ≤ 65535 := by
    have hlength := congrArg List.length hbytes
    rw [hbytes']
    simp only [List.length_append, length_storeWord, List.length_cons, List.length_nil] at hlength ⊢
    omega
  rw [inCksum_eq o ms' len hlong', hbytes']
  rw [hbytes] at hfirst
  obtain ⟨hsum, hsumLe⟩ := sum_represents (words_le o ((before ++ [0, 0] ++ after).take len))
  obtain ⟨hsum', hsumLe'⟩ := sum_represents
    (words_le o ((before ++ storeWord o (inCksum o ms len) ++ after).take len))
  rw [sum_words] at hsum hsum'
  have htotal := weigh_take_field o after hbefore (show [(0 : Byte), 0].length = 2 from rfl) hlen
  have htotal' := weigh_take_field o after hbefore (length_storeWord o (inCksum o ms len)) hlen
  rw [weigh_storeWord o (by omega)] at htotal'
  have hzero : weigh o [0, 0] = 0 := by cases o <;> rfl
  -- the stored word completes the total to a multiple of 65535 that is not zero
  obtain ⟨hmod, hiff⟩ := hsum
  obtain ⟨hmod', hiff'⟩ := hsum'
  omega

/-- The checksum is the complement of the one's-complement sum of the first `len` bytes, however they are laid out, and bytes that carry their checksum have the checksum 0. -/
theorem inCksum_rfc1071 (o : Order) (ms : List Piece) (len : Nat) (hlong : (pieceBytes ms).length ≤ 65535) :
    inCksum o ms len = 65535 - OnesSum.sum (words o ((pieceBytes ms).take len)) ∧
    ∀ (before after : List Byte) (ms' : List Piece), pieceBytes ms = before ++ [0, 0] ++ after →
      Even before.length → before.length + 2 ≤ len →
      pieceBytes ms' = before ++ storeWord o (inCksum o ms len) ++ after → inCksum o ms' len = 0 :=
  ⟨inCksum_eq o ms len hlong, fun _ _ _ hbytes hbefore hlen hbytes' =>
    inCksum_stored o hlong hbytes hbefore hlen hbytes'⟩

theorem inCksum_rfc1071_oneByte :
    inCksum .big [⟨true, [0x12]⟩, ⟨false, []⟩, ⟨true, [0x34, 0, 0]⟩] 4 = 0xedcb ∧
      inCksum .big [⟨false, [0x12, 0x34, 0xed, 0xcb]⟩] 4 = 0 := by
  have hlong : (pieceBytes [⟨true, [0x12]⟩, ⟨false, []⟩, ⟨true, [0x34, 0, 0]⟩]).length ≤ 65535 := by decide
  have hboth := inCksum_rfc1071 .big [⟨true, [0x12]⟩, ⟨false, []⟩, ⟨true, [0x34, 0, 0]⟩] 4 hlong
  have hvalue : inCksum .big [⟨true, [0x12]⟩, ⟨false, []⟩, ⟨true, [0x34, 0, 0]⟩] 4 = 0xedcb := hboth.1.trans (by decide)
  refine ⟨hvalue, hboth.2 [0x12, 0x34] [] _ rfl ⟨1, rfl⟩ (by decide) ?_⟩
  rw [hvalue]
  decide

end Reading.Ip
