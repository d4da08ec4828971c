import Mathlib.Data.List.Basic

/-!
# Mbuf chains

A chain of mbufs is the list of the data areas of its mbufs, as far as `m_len` bytes of each are in use; an mbuf whose data was cut away stays in the chain with no bytes. `mbcnt` is what the chain will be charged for in a socket buffer, which depends on where its data lies and not on the data.
-/

namespace Reading.Kern

abbrev Byte := UInt8

structure Mbuf where
  chain : List (List Byte)
  mbcnt : Nat := 0
  deriving DecidableEq

/-- The bytes of a chain. -/
def Mbuf.bytes (m : Mbuf) : List Byte := m.chain.flatten

/-! ### `m_adj` -/

/-- Trim `len` bytes from the head. -/
def adjHead : List (List Byte) → Nat → List (List Byte)
  | [], _ => []
  | m :: ms, len =>
    if len = 0 then m :: ms
    else if m.length ≤ len then [] :: adjHead ms (len - m.length)
    else m.drop len :: ms

/-- Keep `count` bytes: find the mbuf with the last data, adjust its length and toss the data from the remaining ones. -/
def adjKeep : List (List Byte) → Nat → List (List Byte)
  | [], _ => []
  | m :: ms, count =>
    if m.length ≥ count then m.take count :: ms.map fun _ => []
    else m :: adjKeep ms (count - m.length)

/-- Trim `len` bytes from the tail, where only the last mbuf is affected if it is long enough. -/
def adjTail (ms : List (List Byte)) (len : Nat) : List (List Byte) :=
  match ms.getLast? with
  | none => []
  | some last =>
    if last.length ≥ len then ms.dropLast ++ [last.take (last.length - len)]
    else adjKeep ms (ms.flatten.length - len)

/-- `m_adj`: a positive request trims from the head, a negative one from the tail. Nothing here asks for the least `int`, which has no opposite. -/
def mAdj (m : Mbuf) (reqLen : Int) : Mbuf :=
  { m with chain := if reqLen ≥ 0 then adjHead m.chain reqLen.toNat else adjTail m.chain (-reqLen).toNat }

theorem flatten_adjHead (ms : List (List Byte)) (len : Nat) :
    (adjHead ms len).flatten = ms.flatten.drop len := by
  induction ms generalizing len with
  | nil => simp [adjHead]
  | cons m ms ih =>
    unfold adjHead
    by_cases hzero : len = 0
    · simp [hzero]
    · rw [if_neg hzero]
      by_cases hle : m.length ≤ len
      · rw [if_pos hle, List.flatten_cons, List.nil_append, ih, List.flatten_cons, List.drop_append,
          List.drop_eq_nil_of_le hle, List.nil_append]
      · rw [if_neg hle, List.flatten_cons, List.flatten_cons, List.drop_append_of_le_length (by omega)]

theorem flatten_adjKeep (ms : List (List Byte)) (count : Nat) :
    (adjKeep ms count).flatten = ms.flatten.take count := by
  induction ms generalizing count with
  | nil => simp [adjKeep]
  | cons m ms ih =>
    unfold adjKeep
    by_cases hge : m.length ≥ count
    · have hrest : (ms.map fun _ => ([] : List Byte)).flatten = [] := by simp
      rw [if_pos hge, List.flatten_cons, hrest, List.append_nil, List.flatten_cons,
        List.take_append_of_le_length hge]
    · have hm : m.take count = m := List.take_of_length_le (by omega)
      rw [if_neg hge, List.flatten_cons, ih, List.flatten_cons, List.take_append, hm]

theorem flatten_adjTail (ms : List (List Byte)) (len : Nat) :
    (adjTail ms len).flatten = ms.flatten.take (ms.flatten.length - len) := by
  unfold adjTail
  rcases List.eq_nil_or_concat ms with rfl | ⟨init, last, rfl⟩
  · simp
  · simp only [List.concat_eq_append, List.getLast?_append, List.getLast?_singleton, Option.some_or,
      List.dropLast_concat]
    by_cases hge : last.length ≥ len
    · have hlength : (init ++ [last]).flatten.length - len =
          init.flatten.length + (last.length - len) := by
        simp only [List.flatten_append, List.flatten_singleton, List.length_append]
        omega
      rw [if_pos hge, hlength, List.flatten_append, List.flatten_append, List.flatten_singleton,
        List.flatten_singleton, List.take_length_add_append]
    · rw [if_neg hge, flatten_adjKeep]

/-- Trimming from the head. -/
theorem bytes_mAdj_head (m : Mbuf) {n : Int} (hn : 0 ≤ n) :
    (mAdj m n).bytes = m.bytes.drop n.toNat := by
  simp [mAdj, Mbuf.bytes, hn, flatten_adjHead]

/-- Trimming from the tail. -/
theorem bytes_mAdj_tail (m : Mbuf) {n : Int} (hn : n < 0) :
    (mAdj m n).bytes = m.bytes.take (m.bytes.length - (-n).toNat) := by
  have hneg : ¬ n ≥ 0 := by omega
  simp [mAdj, Mbuf.bytes, hneg, flatten_adjTail]

/-! ### `m_copym` -/

/-- The second loop of `m_copym`: `len` bytes, from offset `off` of the first mbuf on. `none` is its panic. -/
def copyFrom : List (List Byte) → Nat → Nat → Option (List (List Byte))
  | [], _, len => if len = 0 then some [] else none
  | m :: ms, off, len =>
    if len = 0 then some []
    else (copyFrom ms 0 (len - min len (m.length - off))).map ((m.drop off).take len :: ·)

/-- `m_copym`. -/
def mCopym : List (List Byte) → Nat → Nat → Option (List (List Byte))
  | [], off, len => if off = 0 then copyFrom [] 0 len else none
  | m :: ms, off, len =>
    if off = 0 ∨ off < m.length then copyFrom (m :: ms) off len else mCopym ms (off - m.length) len

theorem copyFrom_spec {ms : List (List Byte)} {off len : Nat} (hlen : off + len ≤ ms.flatten.length)
    (hoff : off = 0 ∨ ∃ m ∈ ms.head?, off < m.length) :
    ∃ chain, copyFrom ms off len = some chain ∧ chain.flatten = (ms.flatten.drop off).take len := by
  induction ms generalizing off len with
  | nil =>
    have hzero : len = 0 := by
      simp only [List.flatten_nil, List.length_nil] at hlen
      omega
    exact ⟨[], by simp [copyFrom, hzero], by simp⟩
  | cons m ms ih =>
    rw [List.flatten_cons, List.length_append] at hlen
    have hinside : off ≤ m.length := by
      rcases hoff with rfl | ⟨q, hq, hlt⟩
      · exact Nat.zero_le _
      · obtain rfl : m = q := by simpa using hq
        exact Nat.le_of_lt hlt
    unfold copyFrom
    by_cases hzero : len = 0
    · exact ⟨[], by rw [if_pos hzero], by rw [hzero, List.take_zero]; rfl⟩
    · obtain ⟨chain, hcopy, hbytes⟩ := @ih 0 (len - min len (m.length - off)) (by omega) (.inl rfl)
      refine ⟨(m.drop off).take len :: chain, by rw [if_neg hzero, hcopy]; rfl, ?_⟩
      rw [List.flatten_cons, hbytes, List.drop_zero, List.flatten_cons, List.drop_append_of_le_length hinside,
        List.take_append, List.length_drop]
      congr 2
      omega

/-- Bytes that are there are copied. -/
theorem mCopym_spec {ms : List (List Byte)} {off len : Nat} (hlen : off + len ≤ ms.flatten.length) :
    ∃ chain, mCopym ms off len = some chain ∧ chain.flatten = (ms.flatten.drop off).take len := by
  induction ms generalizing off with
  | nil =>
    have hzero : off = 0 := by
      simp only [List.flatten_nil, List.length_nil] at hlen
      omega
    unfold mCopym
    rw [if_pos hzero, hzero]
    exact copyFrom_spec (by omega) (.inl rfl)
  | cons m ms ih =>
    unfold mCopym
    by_cases hhere : off = 0 ∨ off < m.length
    · rw [if_pos hhere]
      exact copyFrom_spec hlen (hhere.imp_right fun hlt => ⟨m, rfl, hlt⟩)
    · rw [if_neg hhere]
      rw [not_or, Nat.not_lt] at hhere
      rw [List.flatten_cons, List.length_append] at hlen
      obtain ⟨chain, hcopy, hbytes⟩ := @ih (off - m.length) (by omega)
      refine ⟨chain, hcopy, ?_⟩
      rw [hbytes, List.flatten_cons, List.drop_append, List.drop_eq_nil_of_le hhere.2, List.nil_append]

end Reading.Kern
