import Mathlib.Order.CompletePartialOrder
import Mathlib.Data.Set.BooleanAlgebra
import Mathlib.Data.List.DropRight
import Mathlib.Data.List.GetD
import Mathlib.Order.WithBot
import Reading.Lib.Insertion
import Reading.Ip.Packet

/-!
# The order of masks in the radix tree

The routes for one key are in a chain, the most specific mask first. `rn_addroute` (sys/net/radix.c) puts a new one in front of the first that its index, `rn_refines` or `rn_lexobetter` says it comes before. A mask lies in memory behind a byte with its length, that byte included. `rn_addmask` makes one node of the mask tree for each mask, so comparing pointers to masks compares the masks.
-/

namespace Reading.Net.Radix

open Reading.Kern (Byte)

/-- A mask as `rn_addmask` enters it in the mask tree: the bytes behind the one with the length. There are no bytes in the mask that is all zero, which is `rn_zeros`. -/
structure Mask (skip : Nat) where
  body : List Byte
  filled : body ≠ [] → List.replicate (skip - 1) 0xff <+: body
  long : body ≠ [] → skip ≤ body.length
  trimmed : ∀ h, body.getLast h ≠ 0
  short : body.length < 255
  deriving DecidableEq

variable {skip : Nat} {l m n : Mask skip} {i : Nat}

namespace Mask

def zeros (skip : Nat) : Mask skip := ⟨[], nofun, nofun, nofun, by decide⟩

/-- What `rn_key` points to. -/
def key (m : Mask skip) : List Byte := if m.body = [] then [0] else UInt8.ofNat (m.body.length + 1) :: m.body

/-- A byte behind the one with the length. -/
def byte (m : Mask skip) (i : Nat) : Byte := m.body.getD i 0

/-- The one bits, each with the byte it is in. -/
def ones (m : Mask skip) : Set (Nat × Nat) := {p | (m.byte p.1).toNat.testBit p.2 = true}

theorem mem_ones {m : Mask skip} {i j : Nat} : (i, j) ∈ m.ones ↔ (m.byte i).toNat.testBit j = true := Iff.rfl

end Mask

theorem replicate_prefix_rdropWhile {k : Nat} {rest : List Byte}
    (h : k ≤ ((List.replicate k 0xff ++ rest).rdropWhile (· == 0)).length) :
    List.replicate k 0xff <+: (List.replicate k 0xff ++ rest).rdropWhile (· == 0) :=
  List.prefix_of_prefix_length_le (List.prefix_append _ _) (List.rdropWhile_prefix _ _) (by simpa using h)

/-- `rn_addmask` for a mask that is not in the mask tree, or finds it there. -/
def rnAddmask (maxKeylen skip : Nat) (netmask : List Byte) : Mask skip :=
  let mlen := min (netmask.headD 0).toNat maxKeylen
  let start := max skip 1
  if hstart : mlen ≤ start then Mask.zeros skip
  else
    let addmaskKey := List.replicate (start - 1) 0xff ++ (netmask.take mlen).drop start
    let trimmed := addmaskKey.rdropWhile (· == 0)
    if h : trimmed.length + 1 ≤ start then Mask.zeros skip
    else
      { body := trimmed
        filled := fun _ => by
          have hk : start - 1 = skip - 1 := by simp only [start]; omega
          exact hk ▸ replicate_prefix_rdropWhile (by simp only [trimmed, addmaskKey] at h; omega)
        long := fun _ => by simp only [start] at h; omega
        trimmed := fun h => by simpa using List.rdropWhile_last_not _ _ h
        short := by
          have hle : trimmed.length ≤ addmaskKey.length := (List.rdropWhile_prefix _ _).length_le
          have hlen : addmaskKey.length ≤ mlen - 1 := by
            simp only [addmaskKey, List.length_append, List.length_replicate, List.length_drop, List.length_take]
            omega
          have hmlen : mlen < 256 := Nat.lt_of_le_of_lt (Nat.min_le_left _ _) (UInt8.toNat_lt _)
          omega }

/-- The steps that `j` takes from `0x80` down over the one bits. -/
def leadingOnes (c : Byte) : Nat := ((List.range 8).takeWhile fun j => c.toNat.testBit (7 - j)).length

namespace Mask

/-- The index of the mask: the bits before the first zero bit. -/
def index (m : Mask skip) : Nat :=
  let start := max skip 1
  let ffs := (m.key.drop start).takeWhile (· == 0xff)
  8 * (start + ffs.length) + (((m.key.drop start).drop ffs.length).head?.map leadingOnes).getD 0

/-- `rn_b` of the node of the mask tree. -/
def rnB (m : Mask skip) : Int := if m.body = [] then -1 else -1 - m.index

end Mask

def rnRefines (m n : List Byte) : Bool :=
  let mlen := (m.headD 0).toNat
  let nlen := (n.headD 0).toNat
  let lim := max 1 (min mlen nlen)
  let both := List.range' 1 (lim - 1)
  let masksAreEqual := both.all fun i => n.getD i 0 == m.getD i 0
  if both.any fun i => n.getD i 0 &&& ~~~m.getD i 0 != 0 then false
  else if (List.range' lim (nlen - lim)).any fun i => n.getD i 0 != 0 then false
  -- Up to `m - longer`, which is a byte behind the mask when `n` is `rn_zeros`.
  else if masksAreEqual && (List.range' lim (mlen - nlen)).any fun i => m.getD i 0 != 0 then true
  else !masksAreEqual

def rnLexobetter (m n : List Byte) : Bool :=
  if m.headD 0 > n.headD 0 then true
  else if m.headD 0 = n.headD 0 then (List.range (m.headD 0).toNat).any fun i => m.getD i 0 > n.getD i 0
  else false

/-- The order that `rn_addroute` keeps the masks of a chain in, and those of equal index in a list of annotations. -/
def better (m n : Mask skip) : Bool := rnRefines m.key n.key || rnLexobetter m.key n.key

/-- The mask of a route; a host route has none and comes first. -/
abbrev Netmask (skip : Nat) := WithTop (Mask skip)

/-- The test for the place in front of `tt`. -/
def before : Netmask skip → Netmask skip → Bool
  | none, _ => true
  | some _, none => false
  | some netmask, some rnMask => netmask.rnB < rnMask.rnB || better netmask rnMask

/-- The search of `rn_addroute` through the routes for the same key, or none if it returns 0. -/
def addDuplicate (netmask : Netmask skip) : List (Netmask skip) → Option (List (Netmask skip))
  | [] => some [netmask]
  | tt :: rest =>
    if tt = netmask then none
    else if before netmask tt then some (netmask :: tt :: rest)
    else (addDuplicate netmask rest).map (tt :: ·)

/-- The chain of the routes for a key after `rn_addroute` has been called with their masks. -/
def dupedkey (routes : List (Netmask skip)) : List (Netmask skip) :=
  routes.foldl (fun chain netmask => (addDuplicate netmask chain).getD chain) []

/-! ### The bytes of a mask -/

namespace Mask

theorem byte_eq_zero (h : m.body.length ≤ i) : m.byte i = 0 := List.getD_eq_default _ _ h

theorem byte_last (h : m.body ≠ []) : m.byte (m.body.length - 1) ≠ 0 := by
  have hlast := m.trimmed h
  have hpos := List.length_pos_iff.mpr h
  rwa [List.getLast_eq_getElem, ← List.getD_eq_getElem _ 0] at hlast

theorem length_le (h : ∀ i, m.byte i ≠ 0 → n.byte i ≠ 0) : m.body.length ≤ n.body.length := by
  by_contra hlt
  have hm : m.body ≠ [] := fun hnil => by simp [hnil] at hlt
  exact h _ (byte_last hm) (byte_eq_zero (by omega))

theorem ext_byte (h : ∀ i, m.byte i = n.byte i) : m = n := by
  have hlen : m.body.length = n.body.length :=
    Nat.le_antisymm (length_le fun i => by simp [h]) (length_le fun i => by simp [h])
  have hbody : m.body = n.body := List.ext_getElem hlen fun i hi hi' => by
    have hbyte := h i
    rwa [byte, byte, List.getD_eq_getElem _ 0 hi, List.getD_eq_getElem _ 0 hi'] at hbyte
  cases m
  cases n
  congr

theorem key_byte : m.key.getD (i + 1) 0 = m.byte i := by
  unfold key byte
  split <;> simp [*]

theorem key_head : (m.key.headD 0).toNat = if m.body = [] then 0 else m.body.length + 1 := by
  have hshort := m.short
  unfold key
  split
  · rfl
  · rw [List.headD_cons, UInt8.toNat_ofNat_of_lt' (show _ < 256 by omega)]

end Mask

theorem rnAddmask_key {maxKeylen : Nat} (m : Mask skip) (h : m.body.length < maxKeylen) : rnAddmask maxKeylen skip m.key = m := by
  by_cases hbody : m.body = []
  · have hm : m = Mask.zeros skip := by cases m; simpa [Mask.zeros] using hbody
    rw [hm]
    simp [rnAddmask, Mask.key, Mask.zeros]
  · have hpos := List.length_pos_iff.mpr hbody
    have hlong := m.long hbody
    have hhead := m.key_head
    have hkey : m.key = UInt8.ofNat (m.body.length + 1) :: m.body := if_neg hbody
    rw [if_neg hbody] at hhead
    have hmlen : min (m.key.headD 0).toNat maxKeylen = m.body.length + 1 := by omega
    have hdrop : (m.key.take (m.body.length + 1)).drop (max skip 1) = m.body.drop (skip - 1) := by
      obtain ⟨k, hk⟩ : ∃ k, max skip 1 = k + 1 := ⟨max skip 1 - 1, by omega⟩
      have hk' : k = skip - 1 := by omega
      rw [hkey, hk, hk', List.take_succ_cons, List.take_length, List.drop_succ_cons]
    have hfilled : List.replicate (max skip 1 - 1) 0xff ++ m.body.drop (skip - 1) = m.body := by
      obtain ⟨rest, hrest⟩ := m.filled hbody
      have hskip : max skip 1 - 1 = skip - 1 := by omega
      rw [hskip, ← hrest, List.drop_left' (by simp)]
    have htrimmed : m.body.rdropWhile (· == 0) = m.body := by
      rw [List.rdropWhile_eq_self_iff]
      simpa using m.trimmed
    have hgt : ¬m.body.length + 1 ≤ max skip 1 := by omega
    simp only [rnAddmask, hmlen, hdrop, hfilled, htrimmed, dif_neg hgt]

/-! ### `rn_refines` -/

/-- The bytes that both masks have. -/
def Mask.common (m n : Mask skip) : Nat := min m.body.length n.body.length

theorem lim_eq : max 1 (min (m.key.headD 0).toNat (n.key.headD 0).toNat) = m.common n + 1 := by
  have hm : m.body = [] → m.body.length = 0 := fun h => h ▸ rfl
  have hn : n.body = [] → n.body.length = 0 := fun h => h ▸ rfl
  rw [Mask.key_head, Mask.key_head, Mask.common]
  split <;> split <;> grind

theorem any_byte {p : Nat → Bool} {s k : Nat} : (List.range' (s + 1) k).any p = true ↔ ∃ i, s ≤ i ∧ i < s + k ∧ p (i + 1) = true := by
  simp only [List.any_eq_true, List.mem_range'_1]
  refine ⟨fun ⟨i, hi, hp⟩ => ⟨i - 1, by omega, by omega, ?_⟩, fun ⟨i, hs, hk, hp⟩ => ⟨i + 1, by omega, hp⟩⟩
  rwa [Nat.sub_add_cancel (by omega)]

theorem any_rest {s k : Nat} (h : m.body.length ≤ s + k) :
    ((List.range' (s + 1) k).any fun i => m.key.getD i 0 != 0) = true ↔ ∃ i, s ≤ i ∧ m.byte i ≠ 0 := by
  simp only [any_byte, Mask.key_byte, bne_iff_ne]
  refine ⟨fun ⟨i, hs, _, hi⟩ => ⟨i, hs, hi⟩, fun ⟨i, hs, hi⟩ => ⟨i, hs, ?_, hi⟩⟩
  by_contra hge
  exact hi (Mask.byte_eq_zero (by omega))

/-- Where one of the masks has no byte left the other is not compared but has to be zero. -/
theorem covers_iff : (∀ i, n.byte i &&& ~~~m.byte i = 0) ↔
    (∀ i < m.common n, n.byte i &&& ~~~m.byte i = 0) ∧ ∀ i, m.common n ≤ i → n.byte i = 0 := by
  refine ⟨fun h => ⟨fun i _ => h i, fun i hi => ?_⟩, fun ⟨hlt, hge⟩ i => ?_⟩
  · rcases Nat.lt_or_ge i n.body.length with hn | hn
    · have hm : m.byte i = 0 := Mask.byte_eq_zero (by unfold Mask.common at hi; omega)
      simpa [hm] using h i
    · exact Mask.byte_eq_zero hn
  · rcases Nat.lt_or_ge i (m.common n) with hi | hi
    · exact hlt i hi
    · rw [hge i hi, UInt8.zero_and]

theorem ne_iff (hn : ∀ i, m.common n ≤ i → n.byte i = 0) :
    m ≠ n ↔ (∃ i < m.common n, n.byte i ≠ m.byte i) ∨ ∃ i, m.common n ≤ i ∧ m.byte i ≠ 0 := by
  refine ⟨fun h => ?_, ?_⟩
  · by_contra hnot
    obtain ⟨hlt, hge⟩ := not_or.mp hnot
    push Not at hlt hge
    refine h (Mask.ext_byte fun i => ?_)
    rcases Nat.lt_or_ge i (m.common n) with hi | hi
    · exact (hlt i hi).symm
    · rw [hge i hi, hn i hi]
  · rintro (⟨i, -, hi⟩ | ⟨i, hle, hi⟩) rfl
    · exact hi rfl
    · exact hi (hn i hle)

theorem length_le_rest : n.body.length ≤ m.common n + ((n.key.headD 0).toNat - (m.common n + 1)) := by
  rw [Mask.key_head, Mask.common]
  by_cases hn : n.body = []
  · simp [hn]
  · rw [if_neg hn]
    omega

theorem length_le_more : m.body.length ≤ m.common n + ((m.key.headD 0).toNat - (n.key.headD 0).toNat) := by
  rw [Mask.key_head, Mask.key_head, Mask.common]
  by_cases hm : m.body = []
  · simp [hm]
  · rw [if_neg hm]
    by_cases hn : n.body = []
    · simp [hn]
    · rw [if_neg hn]
      omega

/-- The walk over the bytes that both masks have and then over those of the longer one covers all bytes. -/
theorem rnRefines_iff : rnRefines m.key n.key = true ↔ (∀ i, n.byte i &&& ~~~m.byte i = 0) ∧ m ≠ n := by
  have hlim := lim_eq (m := m) (n := n)
  have hboth : ((List.range' 1 (m.common n)).any fun i => n.key.getD i 0 &&& ~~~m.key.getD i 0 != 0) = false ↔
      ∀ i < m.common n, n.byte i &&& ~~~m.byte i = 0 := by
    rw [← Bool.not_eq_true, any_byte (s := 0)]
    simp only [Mask.key_byte, bne_iff_ne]
    grind
  have hequal : ((List.range' 1 (m.common n)).all fun i => n.key.getD i 0 == m.key.getD i 0) = false ↔
      ∃ i < m.common n, n.byte i ≠ m.byte i := by
    rw [List.all_eq_not_any_not, Bool.not_eq_false', any_byte (s := 0)]
    simp only [Mask.key_byte, Bool.not_eq_true', beq_eq_false_iff_ne]
    grind
  have hrest := any_rest (m := n) (s := m.common n) length_le_rest
  have hmore := any_rest (m := m) (s := m.common n) length_le_more
  simp only [rnRefines, hlim, Nat.add_sub_cancel]
  generalize (List.range' 1 (m.common n)).any _ = both at hboth ⊢
  generalize (List.range' 1 (m.common n)).all _ = masksAreEqual at hequal ⊢
  generalize List.any _ _ = rest at hrest ⊢
  generalize List.any _ _ = more at hmore ⊢
  have hzero : rest = false ↔ ∀ i, m.common n ≤ i → n.byte i = 0 := by
    rw [← Bool.not_eq_true, hrest]
    push Not
    rfl
  rw [covers_iff, ← hboth, ← hzero]
  cases both with
  | true => simp
  | false =>
    cases rest with
    | true => simp
    | false =>
      rw [ne_iff (hzero.mp rfl), ← hequal, ← hmore]
      cases masksAreEqual <;> cases more <;> simp

/-! ### One bits -/

theorem testBit_byte (a : Byte) (j : Nat) : a.toNat.testBit j = a.toBitVec.getLsbD j := rfl

theorem and_not_eq_zero {a b : Byte} : a &&& ~~~b = 0 ↔ ∀ j, a.toNat.testBit j = true → b.toNat.testBit j = true := by
  rw [← UInt8.toBitVec_inj, UInt8.toBitVec_and, UInt8.toBitVec_not]
  simp only [testBit_byte]
  refine ⟨fun h j hj => ?_, fun h => BitVec.eq_of_getLsbD_eq fun j hj => ?_⟩
  · have hbit := congrArg (·.getLsbD j) h
    have hj8 : j < 8 := BitVec.lt_of_getLsbD hj
    simpa [hj, hj8] using hbit
  · have hj' := h j
    cases ha : a.toBitVec.getLsbD j <;> simp_all

theorem byte_le {a b : Byte} (h : a &&& ~~~b = 0) : a ≤ b :=
  UInt8.le_iff_toNat_le.mpr (Nat.le_of_testBit (and_not_eq_zero.mp h))

namespace Mask

theorem covers_iff_ones : (∀ i, n.byte i &&& ~~~m.byte i = 0) ↔ n.ones ⊆ m.ones := by
  simp only [and_not_eq_zero, Set.subset_def, Prod.forall, mem_ones]

theorem ones_injective : Function.Injective fun m : Mask skip => m.ones := fun _ _ h =>
  ext_byte fun i => UInt8.toNat_inj.mp (Nat.eq_of_testBit_eq fun j => Bool.eq_iff_iff.mpr (Set.ext_iff.mp h (i, j)))

end Mask

/-- `rn_refines` says that the first mask has all one bits of the second and more. -/
theorem rnRefines_iff_ones : rnRefines m.key n.key = true ↔ n.ones ⊂ m.ones := by
  rw [rnRefines_iff, Mask.covers_iff_ones, Set.ssubset_iff_subset_ne, Mask.ones_injective.ne_iff]
  exact and_congr_right fun _ => ne_comm

/-! ### `rn_lexobetter` -/

theorem rnLexobetter_iff : rnLexobetter m.key n.key = true ↔
    n.body.length < m.body.length ∨ m.body.length = n.body.length ∧ ∃ i, n.byte i < m.byte i := by
  have hm := m.key_head
  have hn := n.key_head
  have hlt : m.key.headD 0 > n.key.headD 0 ↔ n.body.length < m.body.length := by
    rw [gt_iff_lt, UInt8.lt_iff_toNat_lt, hm, hn]
    grind
  have heq : m.key.headD 0 = n.key.headD 0 ↔ m.body.length = n.body.length := by
    rw [← UInt8.toNat_inj, hm, hn]
    grind
  have hany (h : m.body.length = n.body.length) :
      ((List.range (m.key.headD 0).toNat).any fun i => m.key.getD i 0 > n.key.getD i 0) = true ↔ ∃ i, n.byte i < m.byte i := by
    simp only [List.any_eq_true, List.mem_range, decide_eq_true_eq, gt_iff_lt]
    refine ⟨fun ⟨i, _, hi⟩ => ?_, fun ⟨i, hi⟩ => ⟨i + 1, ?_, by simpa only [Mask.key_byte] using hi⟩⟩
    · cases i with
      | zero =>
        have hhead := heq.mpr h
        rw [← List.headD_eq_getD, ← List.headD_eq_getD, hhead] at hi
        exact absurd hi (UInt8.lt_irrefl _)
      | succ i => exact ⟨i, by simpa only [Mask.key_byte] using hi⟩
    · by_contra hge
      rw [hm] at hge
      rw [Mask.byte_eq_zero (m := m) (by grind)] at hi
      exact absurd hi UInt8.not_lt_zero
  unfold rnLexobetter
  split
  · next h => exact ⟨fun _ => Or.inl (hlt.mp h), fun _ => rfl⟩
  · next h =>
    rw [or_iff_right (h ∘ hlt.mpr)]
    split
    · next heq' => rw [hany (heq.mp heq'), and_iff_right (heq.mp heq')]
    · next hne => exact ⟨fun h => absurd h Bool.false_ne_true, fun h => absurd (heq.mpr h.1) hne⟩

/-- What the source says of `rn_lexobetter`: it is arbitrary, but not against `rn_refines`. -/
theorem rnRefines.rnLexobetter (h : rnRefines m.key n.key = true) : rnLexobetter m.key n.key = true := by
  obtain ⟨hcov, hne⟩ := rnRefines_iff.mp h
  have hle : n.body.length ≤ m.body.length := Mask.length_le fun i hn hm => hn (by simpa [hm] using hcov i)
  refine rnLexobetter_iff.mpr (hle.lt_or_eq.imp_right fun hlen => ⟨hlen.symm, ?_⟩)
  by_contra hnone
  rw [not_exists] at hnone
  exact hne (Mask.ext_byte fun i => UInt8.le_antisymm (UInt8.not_lt.mp (hnone i)) (byte_le (hcov i)))

theorem better_eq : better m n = rnLexobetter m.key n.key := by
  unfold better
  cases h : rnRefines m.key n.key with
  | false => rfl
  | true => rw [rnRefines.rnLexobetter h]; rfl

/-! ### The order of the chain -/

namespace Mask

/-- Neither the index nor `rn_lexobetter` puts `m` before `n`. -/
structure Under (m n : Mask skip) : Prop where
  index : n.rnB ≤ m.rnB
  length : m.body.length ≤ n.body.length
  bytes : m.body.length = n.body.length → ∀ i, m.byte i ≤ n.byte i

instance : PartialOrder (Mask skip) where
  le := Under
  le_refl m := ⟨Int.le_refl _, Nat.le_refl _, fun _ i => UInt8.le_refl _⟩
  le_trans l m n hlm hmn :=
    { index := hmn.index.trans hlm.index
      length := hlm.length.trans hmn.length
      bytes := fun h i => by
        have hl : l.body.length = m.body.length := Nat.le_antisymm hlm.length (h ▸ hmn.length)
        exact UInt8.le_trans (hlm.bytes hl i) (hmn.bytes (hl ▸ h) i) }
  le_antisymm m n hmn hnm := by
    have hlen : m.body.length = n.body.length := Nat.le_antisymm hmn.length hnm.length
    exact ext_byte fun i => UInt8.le_antisymm (hmn.bytes hlen i) (hnm.bytes hlen.symm i)

theorem le_def : m ≤ n ↔ m.Under n := Iff.rfl

end Mask

theorem before_some : before (some m) (some n) = true ↔ ¬m ≤ n := by
  simp only [before, better_eq, Bool.or_eq_true, decide_eq_true_eq, rnLexobetter_iff]
  rw [Mask.le_def]
  refine ⟨fun h hle => ?_, fun h => ?_⟩
  · rcases h with h | h | ⟨hlen, i, hi⟩
    · exact absurd hle.index (Int.not_le.mpr h)
    · exact absurd hle.length (Nat.not_le.mpr h)
    · exact absurd (hle.bytes hlen i) (UInt8.not_le.mpr hi)
  · by_contra hnot
    simp only [not_or, not_and, not_exists, Int.not_lt, Nat.not_lt, UInt8.not_lt] at hnot
    exact h ⟨hnot.1, hnot.2.1, hnot.2.2⟩

theorem tests_before : Lib.Insertion.Tests (before : Netmask skip → Netmask skip → Bool) := by
  rintro (_ | m) (_ | n) hne
  · exact absurd rfl hne
  · exact ⟨fun _ => (WithTop.not_top_le_coe n), fun _ => rfl⟩
  · exact ⟨nofun, fun h => absurd le_top h⟩
  · rw [before_some]
    exact not_congr WithTop.coe_le_coe.symm

theorem addDuplicate_eq (netmask : Netmask skip) (chain : List (Netmask skip)) :
    addDuplicate netmask chain = Lib.Insertion.insertNew before netmask chain := by
  induction chain with
  | nil => rfl
  | cons tt rest ih => simp only [addDuplicate, Lib.Insertion.insertNew, ih]

theorem dupedkey_eq (routes : List (Netmask skip)) : dupedkey routes = Lib.Insertion.build before routes := by
  simp only [dupedkey, Lib.Insertion.build, addDuplicate_eq]
  rfl

/-- What is to hold of the masks of a table. -/
structure MaskOrder (masks : Set (Mask skip)) : Prop where
  irrefl : ∀ m ∈ masks, rnRefines m.key m.key = false
  trans : ∀ l ∈ masks, ∀ m ∈ masks, ∀ n ∈ masks,
    rnRefines l.key m.key = true → rnRefines m.key n.key = true → rnRefines l.key n.key = true
  ones : ∀ m ∈ masks, ∀ n ∈ masks, (rnRefines m.key n.key = true ↔ n.ones ⊂ m.ones)
  refines : ∀ m ∈ masks, ∀ n ∈ masks, rnRefines m.key n.key = true → better m n = true
  asymm : ∀ m ∈ masks, ∀ n ∈ masks, better m n = true → better n m = false
  position : ∀ routes routes' : List (Netmask skip), (∀ m : Mask skip, ↑m ∈ routes → m ∈ masks) → routes.Perm routes' →
    dupedkey routes = dupedkey routes'

/-- Of any two masks one has the smaller index or the same, is no longer and, if they are equally long, has no greater byte. -/
def Orderly (masks : Set (Mask skip)) : Prop := ∀ m ∈ masks, ∀ n ∈ masks, m.Under n ∨ n.Under m

variable {masks : Set (Mask skip)}

theorem orderly_iff_isChain : Orderly masks ↔ IsChain (· ≤ ·) {r : Netmask skip | ∀ m : Mask skip, r = m → m ∈ masks} := by
  refine ⟨fun h r hr r' hr' _ => ?_, fun h m hm n hn => ?_⟩
  · cases r with
    | none => exact Or.inr le_top
    | some m =>
      cases r' with
      | none => exact Or.inl le_top
      | some n => exact (h m (hr m rfl) n (hr' n rfl)).imp WithTop.coe_le_coe.mpr WithTop.coe_le_coe.mpr
  · have htotal := h.total (x := (m : Netmask skip)) (y := n) (fun l hl => WithTop.coe_injective hl ▸ hm) fun l hl => WithTop.coe_injective hl ▸ hn
    exact htotal.imp WithTop.coe_le_coe.mp WithTop.coe_le_coe.mp

/-- The chain of a key does not depend on the order in which the routes are added if and only if the masks are orderly. -/
theorem position_iff : (∀ routes routes' : List (Netmask skip), (∀ m : Mask skip, ↑m ∈ routes → m ∈ masks) →
    routes.Perm routes' → dupedkey routes = dupedkey routes') ↔ Orderly masks := by
  rw [orderly_iff_isChain, ← Lib.Insertion.build_eq_iff_isChain tests_before]
  simp only [dupedkey_eq]
  refine forall₂_congr fun routes routes' => imp_congr_left ⟨fun h r hr m hm => h m (hm ▸ hr), fun h m hm => h m hm m rfl⟩

/-- Whatever the masks are, `rn_refines` is the order by one bits and `rn_lexobetter` extends it. The order of the chains is one if and only if the masks are orderly. -/
theorem maskOrder_iff (masks : Set (Mask skip)) : MaskOrder masks ↔ Orderly masks := by
  refine ⟨fun h => position_iff.mp h.position, fun h => ⟨?_, ?_, ?_, ?_, ?_, position_iff.mpr h⟩⟩
  · intro m _
    rw [← Bool.not_eq_true, rnRefines_iff_ones]
    exact ssubset_irrefl m.ones
  · intro l _ m _ n _
    simp only [rnRefines_iff_ones]
    exact fun hlm hmn => hmn.trans hlm
  · exact fun m _ n _ => rnRefines_iff_ones
  · exact fun m _ n _ h => by rw [better_eq, rnRefines.rnLexobetter h]
  · intro m hm n hn hmn
    have hle (l l' : Mask skip) (hb : better l l' = true) : ¬l ≤ l' := before_some.mp (by simp [before, hb])
    by_contra hnm
    rcases h m hm n hn with hu | hu
    · exact hle m n hmn hu
    · exact hle n m (Bool.not_eq_false _ ▸ hnm) hu

/-- 255.255.1.2 and 255.255.2.1 are both better than the other. -/
theorem maskOrder_false : ¬MaskOrder (Set.univ : Set (Mask 4)) := by
  intro h
  have hasymm := h.asymm (rnAddmask 16 4 [8, 0, 0, 0, 255, 255, 1, 2]) (Set.mem_univ _)
    (rnAddmask 16 4 [8, 0, 0, 0, 255, 255, 2, 1]) (Set.mem_univ _) (by decide)
  exact absurd hasymm (by decide)

end Reading.Net.Radix
