import Reading.Lib.BitTree
import Reading.Net.Radix

/-!
# The tree of masks

`rn_addmask` (sys/net/radix.c) keeps one leaf for every mask, in a radix tree of its own over the bytes of the masks, the one with the length included. It puts a mask together in a buffer that is never cleared as a whole: behind `last_zeroed` there is nothing left of earlier masks. The internal node that comes with a leaf is the node of the tree above it.
-/

namespace Reading.Net.Radix

open Reading.Kern (Byte)
open Reading.Lib

/-- A leaf of the mask tree. `node` stands for its address. -/
structure MaskNode where
  node : Nat
  key : Nat → Byte
  b : Int := -1
  normal : Bool := false

/-- The test of the bit `i` of a key, by `rn_off` and `rn_bmask`. -/
def bit (v : Nat → Byte) (i : Nat) : Bool := (v (i / 8)).toNat.testBit (7 - i % 8)

def MaskNode.bits (x : MaskNode) : Nat → Bool := bit x.key

/-- `rnh_nodes[0]` of the mask tree, whose key is `rn_zeros`. -/
def zerosNode : MaskNode := { node := 0, key := fun _ => 0 }

/-- `rnh_nodes[2]`, whose key is `rn_ones`. -/
def onesNode (maxKeylen : Nat) : MaskNode := { node := 1, key := fun i => if i < maxKeylen then 0xff else 0 }

/-- The mask tree with the static variables of `rn_addmask`. The top of the tree tests bit 0 and stays where it is. -/
structure MaskTree where
  addmaskKey : Nat → Byte := fun _ => 0
  lastZeroed : Nat := 0
  rnL : BitTree MaskNode
  rnR : BitTree MaskNode
  /-- The address of the next leaf. -/
  fresh : Nat := 2

/-- What `rn_init` leaves. -/
def rnInit (maxKeylen : Nat) : MaskTree := { rnL := .leaf zerosNode, rnR := .leaf (onesNode maxKeylen) }

/-- The buffer with the skipped bytes filled and the rest of the mask copied. -/
def copy (netmask : List Byte) (skip m0 : Nat) (addmaskKey : Nat → Byte) (i : Nat) : Byte :=
  if 1 ≤ i ∧ i < skip then 0xff else if skip ≤ i ∧ i < m0 then netmask.getD i 0 else addmaskKey i

/-- What is left of an earlier mask is cleared, and the length is entered. -/
def clear (m0 lastZeroed mlen : Nat) (addmaskKey : Nat → Byte) (i : Nat) : Byte :=
  if i = 0 then UInt8.ofNat mlen else if m0 ≤ i ∧ i < lastZeroed then 0 else addmaskKey i

/-- The loop that trims trailing zeroes. -/
def trim (key : Nat → Byte) : Nat → Nat
  | 0 => 0
  | mlen + 1 => if key mlen = 0 then trim key mlen else mlen + 1

/-- The loop over the bytes `0xff`, with the number of the bytes that are left. -/
def skipOnes (key : Nat → Byte) : Nat → Nat → Nat
  | cp, 0 => cp
  | cp, left + 1 => if key cp = 0xff then skipOnes key (cp + 1) left else cp

def normalChars : List Byte := [0, 0x80, 0xc0, 0xe0, 0xf0, 0xf8, 0xfc, 0xfe, 0xff]

/-- The index of a mask and whether it is normal. -/
def maskIndex (key : Nat → Byte) (skip mlen : Nat) : Nat × Bool :=
  let cp := skipOnes key skip (mlen - skip)
  if cp = mlen then (8 * cp, true)
  else
    let b := leadingOnes (key cp)
    (8 * cp + b, key cp == normalChars.getD b 0 && cp == mlen - 1)

/-- The leaf for a mask that is entered at an address. -/
def newMask (node : Nat) (key : Nat → Byte) (skip mlen : Nat) : MaskNode :=
  { node := node, key := key, b := -1 - (maskIndex key skip mlen).1, normal := (maskIndex key skip mlen).2 }

namespace MaskTree

def top (s : MaskTree) : BitTree MaskNode := .node 0 s.rnL s.rnR

/-- `rn_insert`, or the leaf that has the key already. -/
def rnInsert (s : MaskTree) (new : MaskNode) : Except MaskNode MaskTree :=
  let t := s.top.search new.bits
  match (List.range (new.key 0).toNat).find? fun i => t.key i != new.key i with
  | none => .error t
  | some i =>
    -- The rounds of the loop that shifts the difference of the bytes out.
    let b := 8 * (i + 1) - ((new.key i ^^^ t.key i).toNat.log2 + 1)
    .ok (if new.bits 0 then { s with rnR := s.rnR.graft new.bits b new } else { s with rnL := s.rnL.graft new.bits b new })

/-- The second half of `rn_addmask`, with the mask in `addmask_key`. -/
def find (s : MaskTree) (search : Bool) (skip mlen : Nat) : Option MaskNode × MaskTree :=
  let x := s.top.search (bit s.addmaskKey)
  if (List.range mlen).all fun i => s.addmaskKey i == x.key i then (some x, s)
  else if search then (none, s)
  else
    let key := fun i => if i < mlen then s.addmaskKey i else 0
    let new := newMask s.fresh key skip mlen
    match s.rnInsert new with
    | .error x => (some x, s)
    | .ok s => (some new, { s with fresh := s.fresh + 1 })

/-- `rn_addmask`, as long as memory can be allocated. -/
def rnAddmask (maxKeylen : Nat) (s : MaskTree) (netmask : List Byte) (search : Bool) (skip : Nat) : Option MaskNode × MaskTree :=
  let m0 := min (netmask.headD 0).toNat maxKeylen
  let skip := if skip = 0 then 1 else skip
  if m0 ≤ skip then (some zerosNode, s)
  else
    let copied := copy netmask skip m0 s.addmaskKey
    let mlen := trim copied m0
    if mlen ≤ skip then
      (some zerosNode, { s with addmaskKey := copied, lastZeroed := if s.lastZeroed ≤ m0 then mlen else s.lastZeroed })
    else
      find { s with addmaskKey := clear m0 s.lastZeroed mlen copied, lastZeroed := mlen } search skip mlen

end MaskTree

/-! ### The first bit in which two keys differ -/

variable {v w : Nat → Byte} {i n : Nat}

/-- The place of the bit that `rn_insert` computes for keys that differ first in the byte `i`. -/
theorem place_eq (c : Byte) (i : Nat) : 8 * (i + 1) - (c.toNat.log2 + 1) = 8 * i + (7 - c.toNat.log2) ∧ c.toNat.log2 ≤ 7 := by
  have hlt : c.toNat.log2 < 8 := by
    by_cases hc : c.toNat = 0
    · rw [hc]
      decide
    · exact (Nat.log2_lt hc).2 (UInt8.toNat_lt c)
  omega

theorem bit_place (v : Nat → Byte) (i : Nat) {j : Nat} (hj : j ≤ 7) : bit v (8 * i + (7 - j)) = (v i).toNat.testBit j := by
  rw [bit, show (8 * i + (7 - j)) / 8 = i by omega, show 7 - (8 * i + (7 - j)) % 8 = j by omega]

theorem bit_first_ne (h : v i ≠ w i) :
    bit v (8 * (i + 1) - ((w i ^^^ v i).toNat.log2 + 1)) ≠ bit w (8 * (i + 1) - ((w i ^^^ v i).toNat.log2 + 1)) := by
  obtain ⟨hplace, hle⟩ := place_eq (w i ^^^ v i) i
  have hne : (w i ^^^ v i).toNat ≠ 0 := by
    intro hzero
    exact h (UInt8.xor_eq_zero_iff.1 (UInt8.toNat_inj.1 hzero)).symm
  have htop : (w i ^^^ v i).toNat.testBit (w i ^^^ v i).toNat.log2 = true := Nat.testBit_log2 hne
  rw [hplace, bit_place v i hle, bit_place w i hle]
  intro heq
  rw [UInt8.toNat_xor, Nat.testBit_xor, ← UInt8.toNat_xor, heq, Bool.xor_self] at htop
  exact Bool.false_ne_true htop

theorem bit_first_eq (h : ∀ j < i, v j = w j) {j : Nat} (hj : j < 8 * (i + 1) - ((w i ^^^ v i).toNat.log2 + 1)) :
    bit v j = bit w j := by
  obtain ⟨hplace, hle⟩ := place_eq (w i ^^^ v i) i
  rw [hplace] at hj
  rcases Nat.lt_or_ge (j / 8) i with hbyte | hbyte
  · rw [bit, bit, h _ hbyte]
  · have hi : j / 8 = i := by omega
    have hlt : (w i ^^^ v i).toNat < 2 ^ (7 - j % 8) := by
      by_cases hzero : (w i ^^^ v i).toNat = 0
      · rw [hzero]
        exact Nat.two_pow_pos _
      · exact (Nat.log2_lt hzero).1 (by omega)
    have hsame := Nat.testBit_lt_two_pow hlt
    rw [UInt8.toNat_xor, Nat.testBit_xor] at hsame
    have heq : (w i).toNat.testBit (7 - j % 8) = (v i).toNat.testBit (7 - j % 8) := by simpa using hsame
    rw [bit, bit, hi, heq]

theorem bit_congr (h : ∀ j < n, v j = w j) {j : Nat} (hj : j < 8 * n) : bit v j = bit w j := by
  rw [bit, bit, h _ (by omega)]

/-! ### The loops over a key -/

theorem trim_eq {key : Nat → Byte} {k m0 : Nat} (hk : k < m0) (hne : key k ≠ 0) (hzero : ∀ i, k < i → i < m0 → key i = 0) :
    trim key m0 = k + 1 := by
  induction m0 with
  | zero => exact absurd hk (Nat.not_lt_zero k)
  | succ m0 ih =>
    rw [trim]
    rcases Nat.lt_or_ge k m0 with hlt | hge
    · rw [if_pos (hzero m0 hlt (Nat.lt_succ_self m0))]
      exact ih hlt fun i hki him => hzero i hki (Nat.lt_succ_of_lt him)
    · obtain rfl : k = m0 := by omega
      rw [if_neg hne]

theorem trim_le {key : Nat → Byte} {c m0 : Nat} (hzero : ∀ i, c ≤ i → i < m0 → key i = 0) : trim key m0 ≤ c := by
  induction m0 with
  | zero => exact Nat.zero_le c
  | succ m0 ih =>
    rw [trim]
    rcases Nat.lt_or_ge m0 c with hlt | hge
    · split
      · exact ih fun i hci him => hzero i hci (Nat.lt_succ_of_lt him)
      · exact hlt
    · rw [if_pos (hzero m0 hge (Nat.lt_succ_self m0))]
      exact ih fun i hci him => hzero i hci (Nat.lt_succ_of_lt him)

theorem trim_zero {key : Nat → Byte} {m0 i : Nat} (hi : trim key m0 ≤ i) (hlt : i < m0) : key i = 0 := by
  induction m0 with
  | zero => exact absurd hlt (Nat.not_lt_zero i)
  | succ m0 ih =>
    rw [trim] at hi
    split at hi
    · next hzero =>
      rcases Nat.lt_or_ge i m0 with h | h
      · exact ih hi h
      · rwa [show i = m0 by omega]
    · omega

theorem skipOnes_spec (key : Nat → Byte) (left cp : Nat) :
    cp ≤ skipOnes key cp left ∧ skipOnes key cp left ≤ cp + left ∧
      (∀ i, cp ≤ i → i < skipOnes key cp left → key i = 0xff) ∧
      (skipOnes key cp left < cp + left → key (skipOnes key cp left) ≠ 0xff) := by
  induction left generalizing cp with
  | zero => exact ⟨Nat.le_refl _, Nat.le_refl _, fun i hi hlt => absurd hlt (Nat.not_lt.2 hi), fun h => absurd h (Nat.lt_irrefl _)⟩
  | succ left ih =>
    rw [skipOnes]
    split
    · next hone =>
      obtain ⟨hle, hge, hones, hne⟩ := ih (cp + 1)
      refine ⟨by omega, by omega, fun i hi hlt => ?_, fun hlt => hne (by omega)⟩
      rcases Nat.eq_or_lt_of_le hi with rfl | hi
      · exact hone
      · exact hones i hi hlt
    · next hne => exact ⟨Nat.le_refl _, by omega, fun i hi hlt => absurd hlt (Nat.not_lt.2 hi), fun _ => hne⟩

/-! ### The index of a mask -/

/-- `rn_b` and `RNF_NORMAL` tell where the first zero bit behind the length is and whether any one bit comes later. -/
structure MaskNode.Indexed (x : MaskNode) (z : Nat) : Prop where
  b : x.b = -1 - z
  behind : 8 ≤ z
  ones : ∀ i, 8 ≤ i → i < z → x.bits i = true
  zero : x.bits z = false
  normal : x.normal = true ↔ ∀ i, z < i → x.bits i = false

theorem leadingOnes_spec : ∀ c < 256, c ≠ 255 → leadingOnes (UInt8.ofNat c) < 8 ∧
    (∀ j < leadingOnes (UInt8.ofNat c), c.testBit (7 - j) = true) ∧ c.testBit (7 - leadingOnes (UInt8.ofNat c)) = false ∧
    ((UInt8.ofNat c == normalChars.getD (leadingOnes (UInt8.ofNat c)) 0) = true ↔
      ∀ j < 8, leadingOnes (UInt8.ofNat c) < j → c.testBit (7 - j) = false) := by
  decide +kernel

theorem bit_ones {j : Nat} (h : v (j / 8) = 0xff) : bit v j = true := by
  have hbyte : ∀ k < 8, Nat.testBit 255 (7 - k) = true := by decide
  rw [bit, h]
  exact hbyte _ (Nat.mod_lt _ (by decide))

theorem bit_zeros {j : Nat} (h : v (j / 8) = 0) : bit v j = false := by
  rw [bit, h]
  exact Nat.zero_testBit _

/-- The index that `rn_addmask` calculates does not depend on where it begins to. -/
theorem newMask_indexed {node skip mlen : Nat} {key : Nat → Byte} (hpos : 1 ≤ skip) (hskip : skip < mlen)
    (hfilled : ∀ i, 1 ≤ i → i < skip → key i = 0xff) (hlast : key (mlen - 1) ≠ 0)
    (hbehind : ∀ i, mlen ≤ i → key i = 0) : (newMask node key skip mlen).Indexed (maskIndex key skip mlen).1 := by
  generalize hx : newMask node key skip mlen = x
  obtain rfl : x.key = key := by rw [← hx, newMask]
  have hb : x.b = -1 - (maskIndex x.key skip mlen).1 := by rw [← hx]; rfl
  have hnormal : x.normal = (maskIndex x.key skip mlen).2 := by rw [← hx]; rfl
  obtain ⟨hle, hge, hones, hne⟩ := skipOnes_spec x.key (mlen - skip) skip
  generalize hcp : skipOnes x.key skip (mlen - skip) = cp at hle hge hones hne
  have hfull (j : Nat) (hj : 8 ≤ j) (hlt : j < 8 * cp) : x.bits j = true := by
    refine bit_ones ?_
    rcases Nat.lt_or_ge (j / 8) skip with h | h
    · exact hfilled _ (by omega) h
    · exact hones _ h (by omega)
  by_cases hend : cp = mlen
  · have hindex : maskIndex x.key skip mlen = (8 * mlen, true) := by
      rw [maskIndex, hcp, if_pos hend, hend]
    rw [hindex] at hb hnormal ⊢
    refine ⟨hb, by simp only; omega, fun i hi hlt => hfull i hi (hend ▸ hlt), bit_zeros (hbehind _ (by omega)), ?_⟩
    exact ⟨fun _ i hi => bit_zeros (hbehind _ (by omega)), fun _ => hnormal⟩
  · have hc := UInt8.toNat_lt (x.key cp)
    have hc255 : (x.key cp).toNat ≠ 255 := fun h => hne (by omega) (UInt8.toNat_inj.1 h)
    obtain ⟨hb8, hset, hclear, htail⟩ := leadingOnes_spec (x.key cp).toNat hc hc255
    rw [UInt8.ofNat_toNat] at hb8 hset hclear htail
    have hindex : maskIndex x.key skip mlen = (8 * cp + leadingOnes (x.key cp),
        x.key cp == normalChars.getD (leadingOnes (x.key cp)) 0 && cp == mlen - 1) := by
      rw [maskIndex, hcp, if_neg hend]
    rw [hindex] at hb hnormal ⊢
    generalize leadingOnes (x.key cp) = b at *
    have hbyte (j : Nat) (hj : j < 8) : x.bits (8 * cp + j) = (x.key cp).toNat.testBit (7 - j) := by
      rw [MaskNode.bits, bit, show (8 * cp + j) / 8 = cp by omega, show (8 * cp + j) % 8 = j by omega]
    refine ⟨hb, by simp only; omega, fun i hi hlt => ?_, ?_, ?_⟩
    · rcases Nat.lt_or_ge i (8 * cp) with h | h
      · exact hfull i hi h
      · rw [show i = 8 * cp + (i - 8 * cp) by omega, hbyte _ (by omega)]
        exact hset _ (by omega)
    · rw [hbyte b hb8]
      exact hclear
    · rw [hnormal, Bool.and_eq_true, htail, beq_iff_eq]
      constructor
      · rintro ⟨hrest, hcpEnd⟩ i hi
        rcases Nat.lt_or_ge i (8 * mlen) with h | h
        · rw [show i = 8 * cp + (i - 8 * cp) by omega, hbyte _ (by omega)]
          exact hrest _ (by omega) (by omega)
        · exact bit_zeros (hbehind _ (by omega))
      · intro hrest
        refine ⟨fun j hj hbj => ?_, ?_⟩
        · rw [← hbyte j hj]
          exact hrest _ (by omega)
        · by_contra hlt
          -- A later byte has a one bit.
          refine hlast (UInt8.toNat_inj.1 (Nat.eq_of_testBit_eq fun k => ?_))
          rw [UInt8.toNat_zero, Nat.zero_testBit]
          rcases Nat.lt_or_ge k 8 with hk | hk
          · have hbit := hrest (8 * (mlen - 1) + (7 - k)) (by omega)
            rwa [MaskNode.bits, bit_place _ _ (by omega)] at hbit
          · refine Nat.testBit_lt_two_pow (Nat.lt_of_lt_of_le (UInt8.toNat_lt _) ?_)
            exact Nat.pow_le_pow_right (by decide) hk

/-! ### The bytes of a mask -/

theorem getD_rdropWhile (l : List Byte) (i : Nat) : (l.rdropWhile (· == 0)).getD i 0 = l.getD i 0 := by
  induction l using List.reverseRecOn with
  | nil => rfl
  | append_singleton l a ih =>
    by_cases ha : a = 0
    · rw [List.rdropWhile_concat_pos _ _ _ (by simpa using ha), ih, ha]
      rcases Nat.lt_trichotomy i l.length with h | h | h
      · rw [List.getD_append _ _ _ _ h]
      · rw [List.getD_append_right _ _ _ _ (Nat.le_of_eq h.symm), List.getD_eq_default _ _ (Nat.le_of_eq h.symm), h, Nat.sub_self]
        rfl
      · rw [List.getD_eq_default _ _ (Nat.le_of_lt h), List.getD_eq_default _ _ (by simp; omega)]
    · rw [List.rdropWhile_concat_neg _ _ _ (by simpa using ha)]

/-- A byte of the mask with its skipped bytes filled, by its place in memory. -/
def filled (maxKeylen skip : Nat) (netmask : List Byte) (i : Nat) : Byte :=
  if i < max skip 1 then 0xff else if i < min (netmask.headD 0).toNat maxKeylen then netmask.getD i 0 else 0

theorem getD_filled (maxKeylen skip : Nat) (netmask : List Byte) (i : Nat) :
    (List.replicate (max skip 1 - 1) 0xff ++ (netmask.take (min (netmask.headD 0).toNat maxKeylen)).drop (max skip 1)).getD i 0 =
      filled maxKeylen skip netmask (i + 1) := by
  rw [filled]
  generalize min (netmask.headD 0).toNat maxKeylen = mlen
  rcases Nat.lt_or_ge i (max skip 1 - 1) with hi | hi
  · rw [List.getD_append _ _ _ _ (by simpa using hi), List.getD_replicate, if_pos (by omega)]
    exact hi
  · rw [List.getD_append_right _ _ _ _ (by simpa using hi), List.length_replicate, if_neg (by omega)]
    simp only [List.getD_eq_getElem?_getD, List.getElem?_drop, List.getElem?_take,
      show max skip 1 + (i - (max skip 1 - 1)) = i + 1 by omega]
    split <;> rfl

/-- Without a one bit behind the skipped bytes a mask becomes the zero mask. -/
theorem body_cases (maxKeylen skip : Nat) (netmask : List Byte) :
    (rnAddmask maxKeylen skip netmask).body = [] ∧
        (∀ i, max skip 1 ≤ i → i < min (netmask.headD 0).toNat maxKeylen → netmask.getD i 0 = 0) ∨
      (rnAddmask maxKeylen skip netmask).body ≠ [] ∧ max skip 1 ≤ (rnAddmask maxKeylen skip netmask).body.length ∧
        ∀ i, (rnAddmask maxKeylen skip netmask).byte i = filled maxKeylen skip netmask (i + 1) := by
  have hgetD := getD_filled maxKeylen skip netmask
  have hfilled (i : Nat) (hstart : max skip 1 ≤ i) (hi : i < min (netmask.headD 0).toNat maxKeylen) :
      filled maxKeylen skip netmask i = netmask.getD i 0 := by
    rw [filled, if_neg (by omega), if_pos hi]
  rw [rnAddmask]
  simp only
  split
  · exact .inl ⟨rfl, fun i hstart hi => by omega⟩
  · next hskip =>
    split
    · next hshort =>
      refine .inl ⟨rfl, fun i hstart hi => ?_⟩
      rw [← hfilled i hstart hi, show i = i - 1 + 1 by omega, ← hgetD, ← getD_rdropWhile]
      exact List.getD_eq_default _ _ (by omega)
    · next hlong =>
      refine .inr ⟨?_, by simp only; omega, fun i => ?_⟩
      · intro hnil
        simp only at hnil
        rw [hnil, List.length_nil] at hlong
        omega
      · rw [← hgetD, ← getD_rdropWhile]
        rfl

namespace Mask

variable {skip : Nat} {m : Mask skip}

/-- The bytes from the address of the mask on. -/
def memory (m : Mask skip) (i : Nat) : Byte := m.key.getD i 0

theorem memory_succ (i : Nat) : m.memory (i + 1) = m.byte i := key_byte

theorem memory_zero (h : m.body ≠ []) : m.memory 0 = UInt8.ofNat (m.body.length + 1) := by
  rw [memory, key, if_neg h]
  rfl

theorem toNat_memory_zero (h : m.body ≠ []) : (m.memory 0).toNat = m.body.length + 1 := by
  have hhead := m.key_head
  rwa [if_neg h, List.headD_eq_getD] at hhead

theorem memory_behind {i : Nat} (h : m.body.length + 1 ≤ i) : m.memory i = 0 := by
  rw [show i = i - 1 + 1 by omega, memory_succ]
  exact byte_eq_zero (by omega)

theorem memory_last (h : m.body ≠ []) : m.memory m.body.length ≠ 0 := by
  have hpos := List.length_pos_iff.2 h
  rw [show m.body.length = m.body.length - 1 + 1 by omega, memory_succ]
  exact byte_last h

/-- The length and the bytes that it counts tell which mask it is. -/
theorem body_eq_of_memory {skip' : Nat} {n : Mask skip'} (hm : m.body ≠ []) (hn : n.body ≠ [])
    (h : ∀ i ≤ m.body.length, m.memory i = n.memory i) : m.body = n.body := by
  have hlen : m.body.length = n.body.length := by
    have hzero := congrArg UInt8.toNat (h 0 (Nat.zero_le _))
    rw [toNat_memory_zero hm, toNat_memory_zero hn] at hzero
    omega
  refine List.ext_getElem hlen fun i hi hi' => ?_
  have hbyte := h (i + 1) hi
  rw [memory_succ, memory_succ] at hbyte
  rwa [byte, byte, List.getD_eq_getElem _ 0 hi, List.getD_eq_getElem _ 0 hi'] at hbyte

theorem memory_eq_of_body {skip' : Nat} {n : Mask skip'} (h : m.body = n.body) : m.memory = n.memory := by
  funext i
  rw [memory, memory, key, key, h]

end Mask

/-! ### The invariant -/

/-- A leaf that `rn_addmask` has made. -/
structure MaskNode.Made (x : MaskNode) : Prop where
  mask : ∃ skip, ∃ m : Mask skip, m.body ≠ [] ∧ x.key = m.memory
  indexed : ∃ z, x.Indexed z

/-- The mask tree between two calls. Behind `last_zeroed` the buffer is zero, and a mask has at most 255 bytes. -/
structure MaskTree.Sound (maxKeylen : Nat) (s : MaskTree) : Prop where
  zeroed : ∀ i, s.lastZeroed ≤ i → s.addmaskKey i = 0
  tree : s.top.Sound MaskNode.bits
  tests : ∀ i, s.top.Tests i → i < 8 * 255
  leaf : ∀ x, s.top.Has x → x = zerosNode ∨ x = onesNode maxKeylen ∨ x.Made
  zeros : s.top.Has zerosNode
  old : ∀ x, s.top.Has x → x.node < s.fresh
  injective : ∀ x y, s.top.Has x → s.top.Has y → x.node = y.node → x = y

/-- The leaf stands for the mask: it is the zero leaf, or has the bytes of the mask for its key. -/
def MaskNode.Denotes {skip : Nat} (x : MaskNode) (m : Mask skip) : Prop :=
  if m.body = [] then x = zerosNode else ∀ i ≤ m.body.length, x.key i = m.memory i

section Denotes

variable {maxKeylen skip skip' : Nat} {m : Mask skip} {n : Mask skip'} {x y : MaskNode} {s : MaskTree}

theorem denotes_of_empty (h : m.body = []) : zerosNode.Denotes m := by
  rw [MaskNode.Denotes, if_pos h]

theorem denotes_iff (h : m.body ≠ []) : x.Denotes m ↔ ∀ i ≤ m.body.length, x.key i = m.memory i := by
  rw [MaskNode.Denotes, if_neg h]

theorem not_zerosNode_denotes (h : m.body ≠ []) : ¬zerosNode.Denotes m := by
  rw [denotes_iff h]
  intro hkey
  have hzero := congrArg UInt8.toNat (hkey 0 (Nat.zero_le _))
  rw [Mask.toNat_memory_zero h] at hzero
  exact absurd hzero (by simp [zerosNode])

theorem MaskNode.Denotes.body_eq (hm : x.Denotes m) (hn : x.Denotes n) : m.body = n.body := by
  by_cases hmbody : m.body = []
  · by_contra hne
    have hnbody : n.body ≠ [] := fun h => hne (hmbody.trans h.symm)
    rw [MaskNode.Denotes, if_pos hmbody] at hm
    exact not_zerosNode_denotes hnbody (hm ▸ hn)
  · by_cases hnbody : n.body = []
    · rw [MaskNode.Denotes, if_pos hnbody] at hn
      exact absurd (hn ▸ hm) (not_zerosNode_denotes hmbody)
    · rw [denotes_iff hmbody] at hm
      rw [denotes_iff hnbody] at hn
      have hlen : m.body.length = n.body.length := by
        have hzero := congrArg UInt8.toNat ((hm 0 (Nat.zero_le _)).symm.trans (hn 0 (Nat.zero_le _)))
        rw [Mask.toNat_memory_zero hmbody, Mask.toNat_memory_zero hnbody] at hzero
        omega
      exact Mask.body_eq_of_memory hmbody hnbody fun i hi => (hm i hi).symm.trans (hn i (hlen ▸ hi))

/-- Only the leaf for `rn_ones` is not the whole mask: more bytes follow in its key. -/
theorem key_eq (hleaf : x = zerosNode ∨ x = onesNode maxKeylen ∨ x.Made) (hm : m.body ≠ []) (hx : x.Denotes m) :
    (x = onesNode maxKeylen ∧ m.body = List.replicate 254 0xff) ∨ (x.Made ∧ x.key = m.memory) := by
  rcases hleaf with rfl | rfl | hmade
  · exact absurd hx (not_zerosNode_denotes hm)
  · refine .inl ⟨rfl, ?_⟩
    rw [denotes_iff hm] at hx
    have hones (i : Nat) (hi : i ≤ m.body.length) (hne : m.memory i ≠ 0) : m.memory i = 0xff := by
      have hi' := hx i hi
      simp only [onesNode] at hi'
      split at hi'
      · exact hi'.symm
      · exact absurd hi'.symm hne
    have hlen : m.body.length = 254 := by
      have hzero := hones 0 (Nat.zero_le _) fun h => by
        have hnat := Mask.toNat_memory_zero hm
        rw [h] at hnat
        exact absurd hnat (by simp)
      have hnat := Mask.toNat_memory_zero hm
      rw [hzero] at hnat
      exact Nat.succ_inj.1 hnat.symm
    have hbytes : 254 < maxKeylen := by
      by_contra hle
      have hlast := hx 254 (Nat.le_of_eq hlen.symm)
      simp only [onesNode, if_neg hle] at hlast
      exact Mask.memory_last hm (hlen ▸ hlast.symm)
    refine List.eq_replicate_iff.2 ⟨hlen, fun a ha => ?_⟩
    obtain ⟨i, hi, rfl⟩ := List.getElem_of_mem ha
    have hi' := hx (i + 1) hi
    simp only [onesNode, if_pos (show i + 1 < maxKeylen by omega), Mask.memory_succ, Mask.byte,
      List.getD_eq_getElem _ 0 hi] at hi'
    exact hi'.symm
  · obtain ⟨skip₀, m₀, hbody, hkey⟩ := hmade.mask
    have hx₀ : x.Denotes m₀ := (denotes_iff hbody).2 fun i _ => congrFun hkey i
    exact .inr ⟨hmade, hkey.trans (Mask.memory_eq_of_body (hx₀.body_eq hx))⟩

/-- Every bit that the tree tests is in the key of the leaf. -/
theorem search_of_denotes (hs : s.Sound maxKeylen) (hx : s.top.Has x) (hm : m.body ≠ []) (hdenotes : x.Denotes m) :
    s.top.search (bit m.memory) = x := by
  rw [← hs.tree.search_eq hx]
  refine BitTree.search_congr fun i hi => bit_congr (n := 255) (fun j hj => ?_) (hs.tests i hi)
  rcases key_eq (hs.leaf x hx) hm hdenotes with ⟨-, hbody⟩ | ⟨-, hkey⟩
  · have hlen : m.body.length = 254 := by rw [hbody, List.length_replicate]
    exact ((denotes_iff hm).1 hdenotes j (by omega)).symm
  · rw [hkey]

theorem denotes_unique (hs : s.Sound maxKeylen) (hx : s.top.Has x) (hy : s.top.Has y) (hmx : x.Denotes m) (hmy : y.Denotes m) :
    x = y := by
  by_cases hm : m.body = []
  · rw [MaskNode.Denotes, if_pos hm] at hmx hmy
    rw [hmx, hmy]
  · rw [← search_of_denotes hs hx hm hmx, search_of_denotes hs hy hm hmy]

end Denotes

theorem rnInit_sound {maxKeylen : Nat} (h : 0 < maxKeylen) : (rnInit maxKeylen).Sound maxKeylen := by
  have hzero : zerosNode.bits 0 = false := rfl
  have hone : (onesNode maxKeylen).bits 0 = true := bit_ones (if_pos h)
  have hhas (x : MaskNode) : (rnInit maxKeylen).top.Has x ↔ x = zerosNode ∨ x = onesNode maxKeylen := Iff.rfl
  refine { zeroed := fun _ _ => rfl, tree := ?_, tests := fun i hi => ?_, leaf := fun x hx => ?_, zeros := .inl rfl,
           old := fun x hx => ?_, injective := fun x y hx hy heq => ?_ }
  · refine .node (.leaf _) (.leaf _) (fun x hx => ?_) (fun x hx => ?_) fun x y _ _ i hi => absurd hi (Nat.not_lt_zero i)
    · rw [show x = zerosNode from hx, hzero]
    · rw [show x = onesNode maxKeylen from hx, hone]
  · rcases hi with rfl | hi | hi
    · decide
    · exact hi.elim
    · exact hi.elim
  · exact ((hhas x).1 hx).imp_right .inl
  · rcases (hhas x).1 hx with rfl | rfl
    · exact Nat.zero_lt_two
    · exact Nat.one_lt_two
  · rcases (hhas x).1 hx with rfl | rfl <;> rcases (hhas y).1 hy with rfl | rfl
    · rfl
    · exact absurd heq Nat.zero_ne_one
    · exact absurd heq Nat.one_ne_zero
    · rfl

/-! ### Insertion -/

namespace MaskTree

variable {s : MaskTree} {new : MaskNode}

/-- A new key stands at the first bit in which it differs from the key that the search for it finds. That bit is not the one at the top. -/
theorem rnInsert_eq (hs : s.top.Sound MaskNode.bits)
    (hnew : ∃ i < (new.key 0).toNat, (s.top.search new.bits).key i ≠ new.key i) :
    ∃ b s', s.rnInsert new = .ok s' ∧ s' = { s with rnL := s'.rnL, rnR := s'.rnR } ∧ s'.top = s.top.graft new.bits b new ∧
      b < 8 * 255 ∧ (s.top.search new.bits).bits b ≠ new.bits b ∧ ∀ j < b, (s.top.search new.bits).bits j = new.bits j := by
  generalize ht : s.top.search new.bits = t at hnew
  cases hfind : (List.range (new.key 0).toNat).find? fun i => t.key i != new.key i with
  | none =>
    obtain ⟨i, hi, hne⟩ := hnew
    exact absurd (bne_iff_ne.2 hne) (List.find?_eq_none.1 hfind i (List.mem_range.2 hi))
  | some i =>
    obtain ⟨hne, hmem, hsame⟩ := List.find?_range_eq_some.1 hfind
    have hi := List.mem_range.1 hmem
    have hbyte := UInt8.toNat_lt (new.key 0)
    have hne' : t.bits _ ≠ new.bits _ := bit_first_ne (bne_iff_ne.1 hne)
    have hsame' (j : Nat) (hj : j < _) : t.bits j = new.bits j :=
      bit_first_eq (fun k hk => by simpa using hsame k hk) hj
    obtain ⟨hplace, hle⟩ := place_eq (new.key i ^^^ t.key i) i
    generalize hb : 8 * (i + 1) - ((new.key i ^^^ t.key i).toNat.log2 + 1) = b at hne' hsame' hplace
    have htop : t.bits 0 = new.bits 0 := by
      cases hs with
      | node _ _ zero one _ =>
        rw [← ht, top, BitTree.search]
        cases hbit : new.bits 0 with
        | true => exact one _ (BitTree.has_search _ _)
        | false => exact zero _ (BitTree.has_search _ _)
    have hpos : 0 < b := by
      refine Nat.pos_of_ne_zero fun hzero => ?_
      rw [hzero] at hne'
      exact hne' htop
    have hinsert : s.rnInsert new = .ok (if new.bits 0 then { s with rnR := s.rnR.graft new.bits b new }
        else { s with rnL := s.rnL.graft new.bits b new }) := by
      simp only [rnInsert, ht, hfind, hb]
    refine ⟨b, _, hinsert, ?_, ?_, by omega, hne', hsame'⟩
    · split <;> rfl
    · split
      · next hbit => rw [top, top, BitTree.graft, if_pos hpos, if_pos hbit]
      · next hbit => rw [top, top, BitTree.graft, if_pos hpos, if_neg hbit]

theorem Sound.insert {maxKeylen : Nat} (hs : s.Sound maxKeylen) (hmade : new.Made) (hnode : new.node = s.fresh)
    (hnew : ∃ i < (new.key 0).toNat, (s.top.search new.bits).key i ≠ new.key i) :
    ∃ s', s.rnInsert new = .ok s' ∧ ({ s' with fresh := s'.fresh + 1 } : MaskTree).Sound maxKeylen ∧
      ∀ x, s'.top.Has x ↔ x = new ∨ s.top.Has x := by
  obtain ⟨b, s', hinsert, hfields, htop, hb, hne, hsame⟩ := rnInsert_eq hs.tree hnew
  have hhas (x : MaskNode) : s'.top.Has x ↔ x = new ∨ s.top.Has x := by rw [htop, BitTree.has_graft]
  have hfresh : s'.fresh = s.fresh := by rw [hfields]
  have hother (x : MaskNode) (hx : s.top.Has x) : x.node ≠ new.node := Nat.ne_of_lt (hnode ▸ hs.old x hx)
  refine ⟨s', hinsert, ?_, hhas⟩
  refine { zeroed := ?_, tree := ?_, tests := fun i hi => ?_, leaf := fun x hx => ?_, zeros := (hhas _).2 (.inr hs.zeros),
           old := fun x hx => ?_, injective := fun x y hx hy heq => ?_ }
  · rw [hfields]
    exact hs.zeroed
  · change s'.top.Sound MaskNode.bits
    rw [htop]
    exact hs.tree.graft hne hsame
  · change s'.top.Tests i at hi
    rw [htop, BitTree.tests_graft] at hi
    rcases hi with rfl | hi
    · exact hb
    · exact hs.tests i hi
  · rcases (hhas x).1 hx with rfl | hx
    · exact .inr (.inr hmade)
    · exact hs.leaf x hx
  · change x.node < s'.fresh + 1
    rw [hfresh]
    rcases (hhas x).1 hx with rfl | hx
    · exact Nat.lt_succ_of_le (Nat.le_of_eq hnode)
    · exact Nat.lt_succ_of_lt (hs.old x hx)
  · rcases (hhas x).1 hx with rfl | hx <;> rcases (hhas y).1 hy with rfl | hy
    · rfl
    · exact absurd heq.symm (hother y hy)
    · exact absurd heq (hother x hx)
    · exact hs.injective x y hx hy heq

end MaskTree

/-! ### One call -/

section Call

variable {maxKeylen skip : Nat} {netmask : List Byte} {s : MaskTree} {search : Bool}

theorem copy_eq (addmaskKey : Nat → Byte) {i : Nat} (hpos : 1 ≤ i) (hi : i < min (netmask.headD 0).toNat maxKeylen) :
    copy netmask (max skip 1) (min (netmask.headD 0).toNat maxKeylen) addmaskKey i = filled maxKeylen skip netmask i := by
  rw [copy, filled]
  by_cases hlt : i < max skip 1
  · rw [if_pos ⟨hpos, hlt⟩, if_pos hlt]
  · rw [if_neg fun h => hlt h.2, if_neg hlt, if_pos ⟨Nat.not_lt.1 hlt, hi⟩, if_pos hi]

theorem copy_behind (addmaskKey : Nat → Byte) {m0 i : Nat} (hskip : skip < m0) (hi : m0 ≤ i) :
    copy netmask skip m0 addmaskKey i = addmaskKey i := by
  rw [copy, if_neg (by omega), if_neg (by omega)]

theorem trim_of_empty (addmaskKey : Nat → Byte) (h : (rnAddmask maxKeylen skip netmask).body = []) :
    trim (copy netmask (max skip 1) (min (netmask.headD 0).toNat maxKeylen) addmaskKey)
      (min (netmask.headD 0).toNat maxKeylen) ≤ max skip 1 := by
  rcases body_cases maxKeylen skip netmask with ⟨-, hzero⟩ | ⟨hne, -⟩
  · refine trim_le fun i hstart hi => ?_
    rw [copy_eq addmaskKey (by omega) hi, filled, if_neg (by omega), if_pos hi]
    exact hzero i hstart hi
  · exact absurd h hne

theorem trim_of_body (addmaskKey : Nat → Byte) (h : (rnAddmask maxKeylen skip netmask).body ≠ []) :
    max skip 1 ≤ (rnAddmask maxKeylen skip netmask).body.length ∧
      (rnAddmask maxKeylen skip netmask).body.length < min (netmask.headD 0).toNat maxKeylen ∧
      trim (copy netmask (max skip 1) (min (netmask.headD 0).toNat maxKeylen) addmaskKey)
        (min (netmask.headD 0).toNat maxKeylen) = (rnAddmask maxKeylen skip netmask).body.length + 1 := by
  rcases body_cases maxKeylen skip netmask with ⟨hnil, -⟩ | ⟨-, hlong, hbyte⟩
  · exact absurd hnil h
  · generalize rnAddmask maxKeylen skip netmask = m at h hlong hbyte ⊢
    have hmemory (i : Nat) (hi : 1 ≤ i) : m.memory i = filled maxKeylen skip netmask i := by
      rw [show i = i - 1 + 1 by omega, Mask.memory_succ, hbyte]
    have hlast := Mask.memory_last h
    rw [hmemory _ (by omega), filled, if_neg (by omega)] at hlast
    have hlt : m.body.length < min (netmask.headD 0).toNat maxKeylen := by
      by_contra hge
      rw [if_neg hge] at hlast
      exact hlast rfl
    refine ⟨hlong, hlt, trim_eq hlt ?_ fun i hi hlt' => ?_⟩
    · rw [copy_eq addmaskKey (by omega) hlt, ← hmemory _ (by omega)]
      exact Mask.memory_last h
    · rw [copy_eq addmaskKey (by omega) hlt', ← hmemory _ (by omega)]
      exact Mask.memory_behind hi

theorem clear_eq (hs : s.Sound maxKeylen) (h : (rnAddmask maxKeylen skip netmask).body ≠ []) :
    clear (min (netmask.headD 0).toNat maxKeylen) s.lastZeroed ((rnAddmask maxKeylen skip netmask).body.length + 1)
      (copy netmask (max skip 1) (min (netmask.headD 0).toNat maxKeylen) s.addmaskKey) =
        (rnAddmask maxKeylen skip netmask).memory := by
  obtain ⟨hlong, hlt, -⟩ := trim_of_body s.addmaskKey h
  rcases body_cases maxKeylen skip netmask with ⟨hnil, -⟩ | ⟨-, -, hbyte⟩
  · exact absurd hnil h
  · generalize rnAddmask maxKeylen skip netmask = m at h hlong hlt hbyte ⊢
    funext i
    rw [clear]
    rcases Nat.eq_zero_or_pos i with rfl | hi
    · rw [if_pos rfl, Mask.memory_zero h]
    · rw [if_neg (Nat.ne_of_gt hi)]
      rcases Nat.lt_or_ge i (min (netmask.headD 0).toNat maxKeylen) with hin | hout
      · rw [if_neg (by omega), copy_eq s.addmaskKey hi hin, show i = i - 1 + 1 by omega, Mask.memory_succ, hbyte]
      · rw [Mask.memory_behind (by omega), copy_behind s.addmaskKey (by omega) hout]
        split
        · rfl
        · exact hs.zeroed i (by omega)

theorem copy_zeroed (hs : s.Sound maxKeylen) {m0 i : Nat} (hskip : skip < m0)
    (hi : (if s.lastZeroed ≤ m0 then trim (copy netmask skip m0 s.addmaskKey) m0 else s.lastZeroed) ≤ i) :
    copy netmask skip m0 s.addmaskKey i = 0 := by
  rcases Nat.lt_or_ge i m0 with hin | hout
  · rw [if_pos (by split at hi <;> omega)] at hi
    exact trim_zero hi hin
  · rw [copy_behind s.addmaskKey hskip hout]
    refine hs.zeroed i ?_
    split at hi <;> omega

/-- What a call does to the tree and what it returns. -/
structure MaskTree.Answers (maxKeylen : Nat) (s s' : MaskTree) (m : Mask skip) (search : Bool) (r : Option MaskNode) : Prop where
  sound : s'.Sound maxKeylen
  kept : ∀ x, s.top.Has x → s'.top.Has x
  found : ∀ x, r = some x → s'.top.Has x ∧ x.Denotes m
  adds : search = false → r ≠ none

theorem MaskTree.Sound.buffer (hs : s.Sound maxKeylen) (addmaskKey : Nat → Byte) (lastZeroed : Nat)
    (h : ∀ i, lastZeroed ≤ i → addmaskKey i = 0) :
    ({ s with addmaskKey := addmaskKey, lastZeroed := lastZeroed } : MaskTree).Sound maxKeylen :=
  { zeroed := h, tree := hs.tree, tests := hs.tests, leaf := hs.leaf, zeros := hs.zeros, old := hs.old, injective := hs.injective }

theorem answers_zero {s' : MaskTree} {m : Mask skip} (hs' : s'.Sound maxKeylen) (htop : s'.top = s.top) (h : m.body = []) :
    s.Answers maxKeylen s' m search (some zerosNode) where
  sound := hs'
  kept x hx := htop ▸ hx
  found x hx := by
    obtain rfl := Option.some.inj hx
    exact ⟨hs'.zeros, denotes_of_empty h⟩
  adds _ := Option.some_ne_none _

theorem find_answers (search : Bool) (hs : s.Sound maxKeylen) {m : Mask skip} (hm : m.body ≠ []) (hlong : max skip 1 ≤ m.body.length)
    (hfilled : ∀ i, 1 ≤ i → i < max skip 1 → m.memory i = 0xff) (hkey : s.addmaskKey = m.memory) :
    s.Answers maxKeylen (s.find search (max skip 1) (m.body.length + 1)).2 m search
      (s.find search (max skip 1) (m.body.length + 1)).1 := by
  have hcopy : (fun i => if i < m.body.length + 1 then m.memory i else 0) = m.memory := by
    funext i
    split
    · rfl
    · exact (Mask.memory_behind (by omega)).symm
  have hfound := BitTree.has_search (bit m.memory) s.top
  rw [MaskTree.find]
  simp only [hkey, hcopy]
  generalize ht : s.top.search (bit m.memory) = t at hfound ⊢
  cases hall : (List.range (m.body.length + 1)).all fun i => m.memory i == t.key i with
  | true =>
    rw [if_pos rfl]
    refine { sound := hs, kept := fun x hx => hx, found := fun x hx => ?_, adds := fun _ => Option.some_ne_none _ }
    obtain rfl := Option.some.inj hx
    refine ⟨hfound, (denotes_iff hm).2 fun i hi => ?_⟩
    exact (beq_iff_eq.1 (List.all_eq_true.1 hall i (List.mem_range.2 (Nat.lt_succ_of_le hi)))).symm
  | false =>
    rw [if_neg Bool.false_ne_true]
    cases search with
    | true =>
      rw [if_pos rfl]
      exact { sound := hs, kept := fun x hx => hx, found := fun x hx => absurd hx (Option.some_ne_none x).symm,
              adds := fun h => absurd h.symm Bool.false_ne_true }
    | false =>
      rw [if_neg Bool.false_ne_true]
      generalize hnew : newMask s.fresh m.memory (max skip 1) (m.body.length + 1) = new
      have hnewKey : new.key = m.memory := by rw [← hnew, newMask]
      have hmade : new.Made := by
        refine ⟨⟨skip, m, hm, hnewKey⟩, (maskIndex m.memory (max skip 1) (m.body.length + 1)).1, ?_⟩
        rw [← hnew]
        exact newMask_indexed (Nat.le_max_right _ _) (Nat.lt_succ_of_le hlong) hfilled (Mask.memory_last hm)
          fun i => Mask.memory_behind
      have hne : ∃ i < (new.key 0).toNat, (s.top.search new.bits).key i ≠ new.key i := by
        obtain ⟨i, hi, hne⟩ := List.all_eq_false.1 hall
        rw [MaskNode.bits, hnewKey, ht, Mask.toNat_memory_zero hm]
        exact ⟨i, List.mem_range.1 hi, fun h => hne (beq_iff_eq.2 h.symm)⟩
      obtain ⟨s', hinsert, hsound, hhas⟩ := hs.insert hmade (by rw [← hnew, newMask]) hne
      rw [hinsert]
      refine { sound := hsound, kept := fun x hx => (hhas x).2 (.inr hx), found := fun x hx => ?_,
               adds := fun _ => Option.some_ne_none _ }
      obtain rfl := Option.some.inj hx
      exact ⟨(hhas _).2 (.inl rfl), (denotes_iff hm).2 fun i _ => congrFun hnewKey i⟩

/-- A call keeps the invariant, and the leaf that it returns stands for the mask. -/
theorem rnAddmask_answers (hs : s.Sound maxKeylen) (netmask : List Byte) (search : Bool) (skip : Nat) :
    s.Answers maxKeylen (s.rnAddmask maxKeylen netmask search skip).2 (rnAddmask maxKeylen skip netmask) search
      (s.rnAddmask maxKeylen netmask search skip).1 := by
  have hskip : (if skip = 0 then 1 else skip) = max skip 1 := by
    split <;> omega
  rw [MaskTree.rnAddmask]
  simp only [hskip]
  by_cases hbody : (rnAddmask maxKeylen skip netmask).body = []
  · by_cases hshort : min (netmask.headD 0).toNat maxKeylen ≤ max skip 1
    · rw [if_pos hshort]
      exact answers_zero hs rfl hbody
    · rw [if_neg hshort, if_pos (trim_of_empty s.addmaskKey hbody)]
      exact answers_zero (hs.buffer _ _ fun i => copy_zeroed hs (Nat.not_le.1 hshort)) rfl hbody
  · obtain ⟨hlong, hlt, htrim⟩ := trim_of_body s.addmaskKey hbody
    rw [if_neg (by omega), htrim, if_neg (by omega), clear_eq hs hbody]
    have hs' := hs.buffer _ ((rnAddmask maxKeylen skip netmask).body.length + 1) fun i => Mask.memory_behind
    have hfilled (i : Nat) (hpos : 1 ≤ i) (hi : i < max skip 1) : (rnAddmask maxKeylen skip netmask).memory i = 0xff := by
      rcases body_cases maxKeylen skip netmask with ⟨hnil, -⟩ | ⟨-, -, hbyte⟩
      · exact absurd hnil hbody
      · rw [show i = i - 1 + 1 by omega, Mask.memory_succ, hbyte, filled, if_pos (by omega)]
    have hfind := find_answers search hs' hbody hlong hfilled rfl
    exact { hfind with }

end Call

/-! ### The index that the order of the masks uses -/

theorem skipOnes_eq (l : List Byte) (left cp : Nat) (h : l.length = cp + left) :
    skipOnes (fun i => l.getD i 0) cp left = cp + ((l.drop cp).takeWhile (· == 0xff)).length := by
  induction left generalizing cp with
  | zero => rw [skipOnes, List.drop_of_length_le (by omega), List.takeWhile_nil, List.length_nil, Nat.add_zero]
  | succ left ih =>
    have hcp : cp < l.length := by omega
    rw [skipOnes, List.drop_eq_getElem_cons hcp, List.takeWhile_cons, List.getD_eq_getElem _ 0 hcp]
    by_cases hone : l[cp] = 0xff
    · rw [if_pos hone, if_pos (beq_iff_eq.2 hone), ih (cp + 1) (by omega), List.length_cons]
      omega
    · rw [if_neg hone, if_neg fun h => hone (beq_iff_eq.1 h), List.length_nil, Nat.add_zero]

theorem MaskNode.Indexed.unique {x x' : MaskNode} {z z' : Nat} (hkey : x.key = x'.key) (hz : x.Indexed z) (hz' : x'.Indexed z') :
    z = z' := by
  have hbits : x.bits = x'.bits := congrArg bit hkey
  rcases Nat.lt_trichotomy z z' with hlt | rfl | hlt
  · exact absurd ((congrFun hbits z).symm.trans hz.zero) (by rw [hz'.ones z hz.behind hlt]; exact Bool.noConfusion)
  · rfl
  · exact absurd ((congrFun hbits z').trans hz'.zero) (by rw [hz.ones z' hz'.behind hlt]; exact Bool.noConfusion)

/-- The index of the mask is the place of its first zero bit. -/
theorem rnB_of_indexed {skip : Nat} {m : Mask skip} {x : MaskNode} {z : Nat} (hm : m.body ≠ []) (hkey : x.key = m.memory)
    (hx : x.Indexed z) : m.rnB = -1 - z := by
  rw [Mask.rnB, if_neg hm]
  have hlen : m.key.length = m.body.length + 1 := by rw [Mask.key, if_neg hm, List.length_cons]
  have hlong := m.long hm
  have hpos := List.length_pos_iff.2 hm
  have hfilled (i : Nat) (hpos : 1 ≤ i) (hi : i < max skip 1) : m.memory i = 0xff := by
    obtain ⟨rest, hrest⟩ := m.filled hm
    have hi' : i - 1 < (List.replicate (skip - 1) (0xff : Byte)).length := by
      rw [List.length_replicate]
      omega
    rw [show i = i - 1 + 1 by omega, Mask.memory_succ, Mask.byte, ← hrest, List.getD_append _ _ _ _ hi', List.getD_replicate]
    omega
  have hindex : m.index = (maskIndex m.memory (max skip 1) (m.body.length + 1)).1 := by
    have hcp := skipOnes_eq m.key (m.body.length + 1 - max skip 1) (max skip 1) (by omega)
    rw [Mask.index, maskIndex]
    change skipOnes m.memory _ _ = _ at hcp
    rw [hcp]
    simp only [List.drop_drop, List.head?_drop]
    generalize ((m.key.drop (max skip 1)).takeWhile (· == 0xff)).length = k at *
    by_cases hend : max skip 1 + k = m.body.length + 1
    · rw [if_pos hend, hend, List.getElem?_eq_none (by omega)]
      rfl
    · have hk : max skip 1 + k < m.key.length := by
        have hle := (skipOnes_spec m.memory (m.body.length + 1 - max skip 1) (max skip 1)).2.1
        rw [hcp] at hle
        omega
      rw [if_neg hend, List.getElem?_eq_getElem hk, Mask.memory, List.getD_eq_getElem _ 0 hk]
      rfl
  have hnew : (newMask 0 m.memory (max skip 1) (m.body.length + 1)).Indexed (maskIndex m.memory (max skip 1) (m.body.length + 1)).1 :=
    newMask_indexed (Nat.le_max_right _ _) (by omega) hfilled (Mask.memory_last hm) fun i => Mask.memory_behind
  rw [hindex, hx.unique hkey hnew]

/-! ### Any number of calls -/

structure MaskCall where
  netmask : List Byte
  search : Bool
  skip : Nat

/-- The mask tree after a sequence of calls. -/
def maskCalls (maxKeylen : Nat) (calls : List MaskCall) (s : MaskTree) : MaskTree :=
  calls.foldl (fun s c => (s.rnAddmask maxKeylen c.netmask c.search c.skip).2) s

theorem maskCalls_sound {maxKeylen : Nat} (calls : List MaskCall) {s : MaskTree} (hs : s.Sound maxKeylen) :
    (maskCalls maxKeylen calls s).Sound maxKeylen ∧ ∀ x, s.top.Has x → (maskCalls maxKeylen calls s).top.Has x := by
  induction calls generalizing s with
  | nil => exact ⟨hs, fun x hx => hx⟩
  | cons c calls ih =>
    have hanswers := rnAddmask_answers hs c.netmask c.search c.skip
    obtain ⟨hsound, hkept⟩ := ih hanswers.sound
    exact ⟨hsound, fun x hx => hkept x (hanswers.kept x hx)⟩

/-- Two calls return the same leaf exactly if their masks, filled and trimmed, are the same, whatever other calls came before and between. Unless the mask is that of `rn_ones`, with 254 bytes, the leaf says where its first zero bit is and whether one bits come later. -/
theorem rnAddmask_interned {maxKeylen : Nat} (h : 0 < maxKeylen) (earlier between : List MaskCall) (netmask netmask' : List Byte)
    (skip skip' : Nat) :
    ∃ x y s,
      (maskCalls maxKeylen earlier (rnInit maxKeylen)).rnAddmask maxKeylen netmask false skip = (some x, s) ∧
      ((maskCalls maxKeylen between s).rnAddmask maxKeylen netmask' false skip').1 = some y ∧
      (x.node = y.node ↔ (rnAddmask maxKeylen skip netmask).body = (rnAddmask maxKeylen skip' netmask').body) ∧
      ((rnAddmask maxKeylen skip netmask).body ≠ [] → (rnAddmask maxKeylen skip netmask).body ≠ List.replicate 254 0xff →
        x.key = (rnAddmask maxKeylen skip netmask).memory ∧ x.b = (rnAddmask maxKeylen skip netmask).rnB ∧ ∃ z, x.Indexed z) := by
  obtain ⟨hearlier, -⟩ := maskCalls_sound earlier (rnInit_sound h)
  have hfirst := rnAddmask_answers hearlier netmask false skip
  obtain ⟨hbetween, hkept⟩ := maskCalls_sound between hfirst.sound
  have hsecond := rnAddmask_answers hbetween netmask' false skip'
  obtain ⟨x, hx⟩ := Option.ne_none_iff_exists'.1 (hfirst.adds rfl)
  obtain ⟨y, hy⟩ := Option.ne_none_iff_exists'.1 (hsecond.adds rfl)
  obtain ⟨hxtree, hxmask⟩ := hfirst.found x hx
  obtain ⟨hytree, hymask⟩ := hsecond.found y hy
  have hxlater := hsecond.kept x (hkept x hxtree)
  refine ⟨x, y, _, Prod.ext hx rfl, hy, ⟨fun hnode => ?_, fun hbody => ?_⟩, fun hbody hsentinel => ?_⟩
  · obtain rfl := hsecond.sound.injective x y hxlater hytree hnode
    exact hxmask.body_eq hymask
  · have hxmask' : x.Denotes (rnAddmask maxKeylen skip' netmask') := by
      rwa [MaskNode.Denotes, hbody, Mask.memory_eq_of_body hbody] at hxmask
    rw [denotes_unique hsecond.sound hxlater hytree hxmask' hymask]
  · rcases key_eq (hfirst.sound.leaf x hxtree) hbody hxmask with ⟨-, hones⟩ | ⟨hmade, hkey⟩
    · exact absurd hones hsentinel
    · obtain ⟨z, hz⟩ := hmade.indexed
      exact ⟨hkey, hz.b.trans (rnB_of_indexed hbody hkey hz).symm, z, hz⟩

/-- The second mask is in the buffer behind a longer one. -/
theorem rnAddmask_interned_shorter : ∃ x y s,
    (maskCalls 16 [⟨[8, 0, 0, 0, 255, 255, 255, 255], false, 4⟩] (rnInit 16)).rnAddmask 16 [6, 0, 0, 0, 255, 0] false 4 =
      (some x, s) ∧
    ((maskCalls 16 [] s).rnAddmask 16 [5, 9, 9, 9, 255] false 4).1 = some y ∧ x.node = y.node := by
  obtain ⟨x, y, s, hx, hy, hnode, -⟩ := rnAddmask_interned (show 0 < 16 by decide)
    [⟨[8, 0, 0, 0, 255, 255, 255, 255], false, 4⟩] [] [6, 0, 0, 0, 255, 0] [5, 9, 9, 9, 255] 4 4
  exact ⟨x, y, s, hx, hy, hnode.2 (by decide)⟩

end Reading.Net.Radix
