import Reading.Lib.Overflow
import Reading.Lua.Map

/-!
# The length of a table

`luaH_getn` looks for a border: an index with a value, or 0, in front of an index without one. When the last element of the array part is nil, a binary search finds a border in front of it. Otherwise the search goes on in the hash part, in steps that double until they come to an index without a value, and then there is a binary search again. Past `MAX_INT` the indices are tried one after the other from 1 on.
-/

namespace Reading.Lua

open Lib Lib.Noted

variable {V : Values}

/-! ### The code -/

/-- `MAX_INT`. -/
def Llimits.maxInt : Nat := 2 ^ 31 - 3

/-- `ttisnil(luaH_getnum(t, j))`. -/
def numIsNil (t : Table V) (j : UInt32) : Noted Stop Bool := do
  let key ← toInt j
  let p ← lift (luaHGetnum t key)
  pure (t.read p = .nil)

/-- `ttisnil(&t->array[j - 1])`. -/
def elementIsNil (t : Table V) (j : UInt32) : Noted Stop Bool := do
  let i ← minus j 1
  pure (t.array.getD i.toNat .nil = .nil)

/-- The loop of both binary searches. -/
def binarySearch (isNil : UInt32 → Noted Stop Bool) : Nat → UInt32 → UInt32 → Noted Stop UInt32
  | 0, _, _ => fail .stuck
  | n + 1, i, j => do
    let d ← minus j i
    if 1 < d.toNat then do
      let s ← plus i j
      let m := s / 2
      let null ← isNil m
      if null then binarySearch isNil n i m else binarySearch isNil n m j
    else pure i

def linearSearch (t : Table V) : Nat → UInt32 → Noted Stop UInt32
  | 0, _ => fail .stuck
  | n + 1, i => do
    let null ← numIsNil t i
    if null then minus i 1
    else do
      let i ← plus i 1
      linearSearch t n i

/-- The first loop of `unbound_search`, with what follows it. -/
def doublingSearch (t : Table V) (fuel : Nat) : Nat → UInt32 → UInt32 → Noted Stop UInt32
  | 0, _, _ => fail .stuck
  | n + 1, i, j => do
    let null ← numIsNil t j
    if null then binarySearch (numIsNil t) fuel i j
    else do
      let k ← times j 2
      if Llimits.maxInt < k.toNat then linearSearch t fuel 1 else doublingSearch t fuel n j k

def unboundSearch (fuel : Nat) (t : Table V) (j : UInt32) : Noted Stop Int32 := do
  let k ← plus j 1
  let i ← doublingSearch t fuel fuel j k
  toInt i

/-- `fuel` bounds the rounds of each loop. -/
def luaHGetn (fuel : Nat) (t : Table V) : Noted Stop Int32 :=
  let j := UInt32.ofNat t.sizearray
  let inHash : Noted Stop Int32 := if t.dummy then toInt j else unboundSearch fuel t j
  if 0 < j.toNat then do
    let null ← elementIsNil t j
    if null then do
      let i ← binarySearch (elementIsNil t) fuel 0 j
      toInt i
    else inHash
  else inHash

/-! ### Borders -/

section Borders

variable {p : Nat → Prop} {i j m : Nat}

def IsBorder (p : Nat → Prop) (n : Nat) : Prop := (n = 0 ∨ p n) ∧ ¬p (n + 1)

/-- There is a border from `i` on and in front of `j`. -/
structure Straddles (p : Nat → Prop) (i j : Nat) : Prop where
  lt : i < j
  low : i = 0 ∨ p i
  high : ¬p j

theorem Straddles.isBorder (h : Straddles p i j) (hclose : j ≤ i + 1) : IsBorder p i := by
  have heq : i + 1 = j := Nat.le_antisymm h.lt hclose
  exact ⟨h.low, heq ▸ h.high⟩

theorem Straddles.below (h : Straddles p i j) (hm : i < m) (hp : ¬p m) : Straddles p i m := ⟨hm, h.low, hp⟩

theorem Straddles.above (h : Straddles p i j) (hm : m < j) (hp : p m) : Straddles p m j := ⟨hm, .inr hp, h.high⟩

end Borders

/-! ### The searches -/

section Searches

variable {p : Nat → Prop} {isNil : UInt32 → Noted Stop Bool}

/-- On the indices up to the bound, the test tells whether there is a value. -/
def Tests (isNil : UInt32 → Noted Stop Bool) (p : Nat → Prop) (bound : Nat) : Prop :=
  ∀ m : UInt32, 0 < m.toNat → m.toNat ≤ bound → Fits (isNil m) fun b => b = true ↔ ¬p m.toNat

theorem binarySearch_fits {bound : Nat} (htests : Tests isNil p bound) (hbound : bound < 2 ^ 31) {n : Nat} {i j : UInt32}
    (h : Straddles p i.toNat j.toNat) (hj : j.toNat ≤ bound) (hn : j.toNat - i.toNat ≤ n) :
    Fits (binarySearch isNil n i j) fun k => IsBorder p k.toNat ∧ k.toNat < j.toNat := by
  induction n generalizing i j with
  | zero =>
    have hlt := h.lt
    omega
  | succ n ih =>
    have hlt := h.lt
    rw [binarySearch]
    refine (fits_minus hlt.le).bind fun d hd => ?_
    split
    case isTrue hwide =>
      refine (fits_plus (by omega)).bind fun s hs => ?_
      have hmid : (s / 2).toNat = (i.toNat + j.toNat) / 2 := by
        rw [UInt32.toNat_div, hs]
        rfl
      refine (htests (s / 2) (by omega) (by omega)).bind fun null hnull => ?_
      cases null with
      | true =>
        have hlow := h.below (m := (s / 2).toNat) (by omega) (hnull.mp rfl)
        refine (ih hlow (by omega) (by omega)).imp fun k hk => ⟨hk.1, ?_⟩
        exact hk.2.trans (by omega)
      | false =>
        have hp : p (s / 2).toNat := by
          by_contra hnot
          exact Bool.false_ne_true (hnull.mpr hnot)
        exact ih (h.above (by omega) hp) hj (by omega)
    case isFalse hclose => exact fits_pure ⟨h.isBorder (by omega), hlt⟩

variable {t : Table V}

/-- The value of an index is not nil. -/
def Table.Has (t : Table V) (k : Nat) : Prop := t.content (intKey V k) ≠ .nil

theorem intKey_toNat (j : UInt32) : intKey V j.toNat = .number (V.castNum j.toInt32) := by
  have hint : Int32.ofNat j.toNat = j.toInt32 := by
    rw [← UInt32.toInt32_ofNat', UInt32.ofNat_toNat]
  rw [intKey, hint]

theorem Valid.numIsNil_tests (h : Valid t) {bound : Nat} (hbound : bound < 2 ^ 31) : Tests (numIsNil t) t.Has bound := by
  intro m _ hm
  refine (fits_toInt (by omega)).bind fun key hkey => ?_
  subst hkey
  refine (fits_lift (h.luaHGetnum_eq _) rfl).bind fun q hq => fits_pure ?_
  subst hq
  rw [decide_eq_true_iff, Table.Has, intKey_toNat, not_not, Table.content]

theorem Valid.elementIsNil_tests (h : Valid t) : Tests (elementIsNil t) t.Has t.sizearray := by
  intro m hpos hm
  refine (fits_minus (show (1 : UInt32).toNat ≤ m.toNat from hpos)).bind fun i hi => fits_pure ?_
  have hindex : index (intKey V m.toNat) = m.toNat := index_intKey (hm.trans_lt h.sizearray_lt)
  have hplace : t.place (intKey V m.toNat) = .array (m.toNat - 1) := by
    rw [place_array ⟨by omega, by omega⟩, hindex]
  have hone : (1 : UInt32).toNat = 1 := rfl
  rw [decide_eq_true_iff, Table.Has, not_not, Table.content, hplace, Table.read, hi, hone]

/-- The indices are tried up to one that has no value. -/
theorem linearSearch_fits {bound : Nat} (htests : Tests (numIsNil t) t.Has bound) (hbound : bound < 2 ^ 31) (hlast : ¬t.Has bound)
    {n : Nat} {i : UInt32} (hpos : 0 < i.toNat) (hlow : i.toNat = 1 ∨ t.Has (i.toNat - 1)) (hi : i.toNat ≤ bound)
    (hn : bound - i.toNat < n) : Fits (linearSearch t n i) fun k => IsBorder t.Has k.toNat ∧ k.toNat < bound := by
  have hone : (1 : UInt32).toNat = 1 := rfl
  induction n generalizing i with
  | zero => omega
  | succ n ih =>
    rw [linearSearch]
    refine (htests i hpos hi).bind fun null hnull => ?_
    cases null with
    | true =>
      refine (fits_minus (show (1 : UInt32).toNat ≤ i.toNat from hpos)).imp fun k hk => ?_
      rw [hone] at hk
      refine ⟨⟨?_, ?_⟩, by omega⟩
      · rw [hk]
        exact hlow.imp_left fun heq => by rw [heq]
      · rw [hk, Nat.sub_add_cancel hpos]
        exact hnull.mp rfl
    | false =>
      have hhas : t.Has i.toNat := by
        by_contra hnot
        exact Bool.false_ne_true (hnull.mpr hnot)
      have hne : i.toNat ≠ bound := fun heq => hlast (heq ▸ hhas)
      refine (fits_plus (by omega)).bind fun k hk => ?_
      rw [hone] at hk
      exact ih (by omega) (.inr (by rw [hk, Nat.add_sub_cancel]; exact hhas)) (by omega) (by omega)

/-- The indices are doubled up to one that has no value. -/
theorem doublingSearch_fits {bound hole fuel : Nat} (htests : Tests (numIsNil t) t.Has bound) (hbound : bound < 2 ^ 31)
    (hpos : 0 < hole) (hhole : hole ≤ bound) (hlast : ¬t.Has hole) (hmax : Llimits.maxInt < bound) (hfuel : bound ≤ fuel)
    {n : Nat} {i j : UInt32} (hij : i.toNat < j.toNat)
    (hlow : i.toNat = 0 ∨ t.Has i.toNat) (hj : j.toNat ≤ bound) (hn : bound - j.toNat < n) :
    Fits (doublingSearch t fuel n i j) fun k => IsBorder t.Has k.toNat ∧ k.toNat < bound := by
  have htwo : (2 : UInt32).toNat = 2 := rfl
  induction n generalizing i j with
  | zero => omega
  | succ n ih =>
    rw [doublingSearch]
    refine (htests j (by omega) hj).bind fun null hnull => ?_
    cases null with
    | true =>
      refine (binarySearch_fits htests hbound ⟨hij, hlow, hnull.mp rfl⟩ hj (by omega)).imp fun k hk => ⟨hk.1, ?_⟩
      exact hk.2.trans_le hj
    | false =>
      have hhas : t.Has j.toNat := by
        by_contra hnot
        exact Bool.false_ne_true (hnull.mpr hnot)
      refine (fits_times (by rw [htwo]; omega)).bind fun k hk => ?_
      rw [htwo] at hk
      split
      case isTrue =>
        have hone : (1 : UInt32).toNat = 1 := rfl
        have hbelow : Tests (numIsNil t) t.Has hole := fun m hm hle => htests m hm (hle.trans hhole)
        refine (linearSearch_fits hbelow (by omega) hlast (by rw [hone]; decide) (.inl hone) (by rw [hone]; omega)
          (by rw [hone]; omega)).imp fun k hk => ⟨hk.1, hk.2.trans_le hhole⟩
      case isFalse hle => exact ih (by omega) (.inr hhas) (by omega) (by omega)

end Searches

/-! ### The length -/

section Length

variable {t : Table V} {fuel d narray nhash : Nat} {ops : List (Op V)}

/-- The largest `int`. -/
def intMax : Nat := 2 ^ 31 - 1

theorem fits_index {j : UInt32} (hborder : IsBorder t.Has j.toNat) (hj : j.toNat < intMax) :
    Fits (toInt j : Noted Stop Int32) fun n => ∃ k < intMax, n = Int32.ofNat k ∧ IsBorder t.Has k := by
  have hlt : j.toNat < 2 ^ 31 := hj.trans (by decide)
  refine (fits_toInt hlt).imp fun n hn => ⟨j.toNat, hj, ?_, hborder⟩
  rw [hn, ← UInt32.toInt32_ofNat', UInt32.ofNat_toNat]

theorem Valid.unboundSearch_fits (h : Valid t) {hole : Nat} (hpos : 0 < hole) (hhole : hole ≤ intMax) (hlast : ¬t.Has hole)
    (hfuel : intMax ≤ fuel) {j : UInt32} (hlow : j.toNat = 0 ∨ t.Has j.toNat) (hj : j.toNat < intMax) :
    Fits (unboundSearch fuel t j) fun n => ∃ k < intMax, n = Int32.ofNat k ∧ IsBorder t.Has k := by
  have hone : (1 : UInt32).toNat = 1 := rfl
  have hintMax : intMax = 2 ^ 31 - 1 := rfl
  refine (fits_plus (by rw [hone]; omega)).bind fun k hk => ?_
  rw [hone] at hk
  have htests := h.numIsNil_tests (show intMax < 2 ^ 31 by decide)
  refine (doublingSearch_fits htests (by decide) hpos hhole hlast (by decide) hfuel (i := j) (by omega) hlow (by omega)
    (by omega)).bind fun i hi => ?_
  exact fits_index hi.1 hi.2

/-- With no hash part there is nothing behind the array part. -/
theorem Valid.not_has_dummy (h : Valid t) (hdummy : t.dummy = true) {k : Nat} (hk : t.sizearray < k) (hlt : k < 2 ^ 31) : ¬t.Has k := by
  have hplace : t.place (intKey V k) = .nilobject := by
    refine h.place_absent (fun harray => ?_) fun a ha => ?_
    · have hle := harray.2
      rw [index_intKey hlt] at hle
      omega
    · rw [(h.blank hdummy).1 a] at ha
      exact nomatch ha
  rw [Table.Has, not_not, Table.content, hplace]
  rfl

theorem Valid.luaHGetn_fits (h : Valid t) {hole : Nat} (hpos : 0 < hole) (hhole : hole ≤ intMax) (hlast : ¬t.Has hole)
    (harray : t.sizearray < intMax ∨ hole = intMax) (hfuel : intMax ≤ fuel) :
    Fits (luaHGetn fuel t) fun n => ∃ k < intMax, n = Int32.ofNat k ∧ IsBorder t.Has k := by
  have hsize : t.sizearray < 2 ^ 31 := h.sizearray_lt
  have hintMax : intMax = 2 ^ 31 - 1 := rfl
  have hj : (UInt32.ofNat t.sizearray).toNat = t.sizearray := UInt32.toNat_ofNat_of_lt (hsize.trans (by decide))
  -- Behind an array part that is empty or ends with a value.
  have hhash (hlow : t.sizearray = 0 ∨ t.Has t.sizearray) :
      Fits (if t.dummy then toInt (UInt32.ofNat t.sizearray) else unboundSearch fuel t (UInt32.ofNat t.sizearray) : Noted Stop Int32)
        fun n => ∃ k < intMax, n = Int32.ofNat k ∧ IsBorder t.Has k := by
    have hlt : t.sizearray < intMax := by
      obtain hlt | rfl := harray
      · exact hlt
      · have hne : t.sizearray ≠ intMax := by
          intro heq
          rw [heq] at hlow
          exact hlow.elim (by decide) hlast
        omega
    split
    case isTrue hdummy =>
      refine fits_index ?_ (by rw [hj]; exact hlt)
      rw [hj]
      exact ⟨hlow, h.not_has_dummy hdummy (Nat.lt_succ_self _) (by omega)⟩
    case isFalse => exact h.unboundSearch_fits hpos hhole hlast hfuel (by rw [hj]; exact hlow) (by rw [hj]; exact hlt)
  rw [luaHGetn]
  split
  case isTrue hpos =>
    refine (h.elementIsNil_tests _ hpos hj.le).bind fun null hnull => ?_
    rw [hj] at hnull
    cases null with
    | true =>
      have hstraddles : Straddles t.Has (0 : UInt32).toNat (UInt32.ofNat t.sizearray).toNat := by
        rw [hj]
        exact ⟨hj ▸ hpos, .inl rfl, hnull.mp rfl⟩
      refine (binarySearch_fits h.elementIsNil_tests hsize hstraddles hj.le ?_).bind fun i hi => fits_index hi.1 ?_
      · rw [hj]
        omega
      · rw [hj] at hi
        omega
    | false =>
      refine hhash (.inr ?_)
      by_contra hnot
      exact Bool.false_ne_true (hnull.mpr hnot)
  case isFalse hzero => exact hhash (.inl (by omega))

/-- The length is a border, and no arithmetic on the way to it overflows, when some `int` is no key, and the largest one is none if the array part goes so far. The keys up to `MAX_INT` may be any. -/
theorem luaHGetn_border (hnarray : narray < 2 ^ 31) (hnhash : nhash < 2 ^ 31) (h : Reached (d + 3) narray nhash ops t) {hole : Int32}
    (hpos : 0 < hole) (hkeys : lastAssigned ops (.number (V.castNum hole)) = .nil)
    (harray : t.sizearray < intMax ∨ hole = 2147483647) (hfuel : intMax ≤ fuel) :
    ∃ n : Int32, luaHGetn fuel t false = .ok (n, false) ∧ 0 ≤ n ∧ n < 2147483647 ∧ Finds t (luaHGetnum t (n + 1)) .nil ∧
      (n = 0 ∨ ∃ v, v ≠ .nil ∧ Finds t (luaHGetnum t n) v) := by
  obtain ⟨hvalid, hcontent⟩ := h.valid hnarray hnhash
  have hintMax : intMax = 2 ^ 31 - 1 := rfl
  obtain ⟨j, hj⟩ := Int.eq_ofNat_of_zero_le (Int32.le_iff_toInt_le.mp (Int32.le_of_lt hpos))
  have hhole : Int32.ofNat j = hole := by rw [← Int32.ofInt_eq_ofNat, ← hj, Int32.ofInt_toInt]
  have hjpos : 0 < j := by
    have hlt := Int32.lt_iff_toInt_lt.mp hpos
    rw [hj] at hlt
    exact Int.ofNat_lt.mp hlt
  have hjle : j ≤ intMax := by
    have hle := hole.toInt_le
    rw [hj] at hle
    exact Int.ofNat_le.mp hle
  have hlast : ¬t.Has j := by
    rw [Table.Has, not_not, hcontent, intKey, hhole]
    exact hkeys
  have harray' : t.sizearray < intMax ∨ j = intMax := harray.imp_right fun hmax => by
    rw [hmax] at hj
    exact Int.ofNat_inj.mp hj.symm
  obtain ⟨n, hrun, k, hk, rfl, hlow, hhigh⟩ := hvalid.luaHGetn_fits hjpos hjle hlast harray' hfuel
  have hint : (Int32.ofNat k).toInt = k := Int32.toInt_ofNat_of_lt (by omega)
  refine ⟨Int32.ofNat k, hrun, ?_, ?_, ?_, ?_⟩
  · rw [Int32.le_iff_toInt_le, hint]
    exact Int.natCast_nonneg k
  · rw [Int32.lt_iff_toInt_lt, hint]
    exact Int.ofNat_lt.mpr hk
  · have hsucc : Int32.ofNat k + 1 = Int32.ofNat (k + 1) := (Int32.ofNat_add k 1).symm
    refine ⟨_, hvalid.luaHGetnum_eq _, ?_⟩
    rw [hsucc]
    exact not_not.mp hhigh
  · refine hlow.imp (fun hzero => by rw [hzero]; rfl) fun hhas => ?_
    exact ⟨_, hhas, _, hvalid.luaHGetnum_eq _, rfl⟩

end Length

/-- Two indices with values in front of one without, and the largest `int`, which is a key as well. -/
theorem luaHGetn_border_two : ∃ t : Table integers,
    Reached 3 1 1 [.setnum 1 (.boolean true), .setnum 2 (.boolean true), .setnum 2147483647 (.boolean true)] t ∧
      ∃ n : Int32, luaHGetn intMax t false = .ok (n, false) ∧ 0 ≤ n ∧ n < 2147483647 ∧ Finds t (luaHGetnum t (n + 1)) .nil ∧
        (n = 0 ∨ ∃ v, v ≠ .nil ∧ Finds t (luaHGetnum t n) v) := by
  obtain ⟨t, ht, hsize⟩ : ∃ t : Table integers,
      Reached 3 1 1 [.setnum 1 (.boolean true), .setnum 2 (.boolean true), .setnum 2147483647 (.boolean true)] t ∧
        decide (t.sizearray < intMax) = true := exists_reached_of (by decide) (by decide +kernel)
  exact ⟨t, ht, luaHGetn_border (by decide) (by decide) ht (show (0 : Int32) < 3 by decide) (by decide)
    (.inl (of_decide_eq_true hsize)) (Nat.le_refl intMax)⟩

end Reading.Lua
