import Reading.Lua.Table

/-!
# What a lookup finds

`Valid` is the invariant of a table between two operations: the hash part is a chained scatter table, no key that belongs in the array part is in it, and every node from `lastfree` on is in use. On a valid table the three lookups agree: each finds the one place of its key, and so a table has a content, the value of every key.
-/

namespace Reading.Lua

open Lib (Scattered Links searchFrom findBefore)

variable {V : Values} {t : Table V} {k key : TValue V} {a i : Nat}

/-! ### Array indices -/

/-- The array index of a key, and 0 for a key that is none. -/
def index (k : TValue V) : Nat := (arrayindex k).toInt.toNat

/-- The key of an array index. -/
def intKey (V : Values) (j : Nat) : TValue V := .number (V.castNum (Int32.ofNat j))

theorem intKey_ne_nil (V : Values) (j : Nat) : intKey V j ≠ .nil := by rintro ⟨⟩

theorem arrayindex_castNum (j : Int32) : arrayindex (.number (V.castNum j)) = j := by
  simp [arrayindex, V.number2int_castNum]

theorem index_intKey {j : Nat} (hj : j < 2 ^ 31) : index (intKey V j) = j := by
  rw [index, intKey, arrayindex_castNum, Int32.toInt_ofNat_of_lt hj]
  simp

theorem index_castNum (j : Int32) : index (.number (V.castNum j)) = j.toInt.toNat := by
  rw [index, arrayindex_castNum]

/-- Only the ints are candidates for the array part. -/
theorem eq_intKey (h : 0 < index k) : k = intKey V (index k) := by
  cases k with
  | number n =>
    simp only [index, arrayindex] at h ⊢
    split at h
    case isTrue hn =>
      have hint : Int32.ofNat (V.number2int n).toInt.toNat = V.number2int n := by
        have hlt := (V.number2int n).toInt_lt
        rw [← Int32.toInt_inj, Int32.toInt_ofNat_of_lt (by omega)]
        omega
      rw [if_pos hn, intKey, hint, hn]
    case isFalse => exact absurd h (by decide)
  | _ => exact absurd h (show ¬ 0 < (-1 : Int32).toInt.toNat by decide)

theorem index_inj {k' : TValue V} (h : 0 < index k) (heq : index k = index k') : k = k' := by
  have hk' := eq_intKey (k := k') (heq ▸ h)
  rw [← heq] at hk'
  exact (eq_intKey h).trans hk'.symm

@[simp] theorem index_nil : index (.nil : TValue V) = 0 := by
  simp only [index, arrayindex]
  decide

theorem index_string (s : V.Str) : index (.string s : TValue V) = 0 := by
  simp only [index, arrayindex]
  decide

theorem index_eq_zero {n : V.Number} (h : V.castNum (V.number2int n) ≠ n) : index (.number n) = 0 := by
  simp only [index, arrayindex, if_neg h]
  decide

/-! ### Positions -/

theorem sizenode_pos (t : Table V) : 0 < t.sizenode := Nat.two_pow_pos _

theorem hashmod_lt (t : Table V) (n : Nat) : hashmod t n < t.sizenode := by
  have hpos : 0 < (t.sizenode - 1) ||| 1 := Nat.lt_of_lt_of_le Nat.zero_lt_one Nat.right_le_or
  have hle : (t.sizenode - 1) ||| 1 ≤ t.sizenode := by
    rw [Table.sizenode]
    cases t.lsizenode with
    | zero => decide
    | succ l =>
      have hlt : 2 ^ (l + 1) - 1 < 2 ^ (l + 1) := Nat.sub_lt (Nat.two_pow_pos _) Nat.zero_lt_one
      exact (Nat.or_lt_two_pow hlt (Nat.one_lt_two_pow (Nat.succ_ne_zero l))).le
  exact (Nat.mod_lt _ hpos).trans_le hle

theorem hashpow2_lt (t : Table V) (n : Nat) : hashpow2 t n < t.sizenode :=
  Nat.lt_of_le_of_lt Nat.and_le_right (Nat.sub_lt (sizenode_pos t) Nat.zero_lt_one)

theorem mainposition_lt (t : Table V) (k : TValue V) : mainposition t k < t.sizenode := by
  cases k with
  | number n =>
    rw [mainposition, hashnum]
    split
    · exact sizenode_pos t
    · exact hashmod_lt t _
  | string s => exact hashpow2_lt t _
  | boolean b => exact hashpow2_lt t _
  | lightuserdata p => exact hashmod_lt t _
  | object o => exact hashmod_lt t _
  | nil => exact hashmod_lt t _

/-- A position depends on the size of the hash part only. -/
theorem mainposition_congr {t t' : Table V} (h : t'.lsizenode = t.lsizenode) : mainposition t' = mainposition t := by
  have hsize : t'.sizenode = t.sizenode := by rw [Table.sizenode, Table.sizenode, h]
  funext k
  cases k <;> simp only [mainposition, hashnum, hashstr, hashmod, hashpow2, hsize]

/-! ### The invariant -/

/-- The key a node is used for. -/
def keyAt (t : Table V) (a : Nat) : Option (TValue V) := if (t.node a).key = .nil then none else some (t.node a).key

def nextAt (t : Table V) (a : Nat) : Option Nat := (t.node a).next

theorem keyAt_eq_some : keyAt t a = some k ↔ (t.node a).key = k ∧ k ≠ .nil := by
  rw [keyAt]
  split
  case isTrue h => simp [h, eq_comm]
  case isFalse h =>
    rw [Option.some.injEq]
    exact ⟨fun heq => ⟨heq, heq ▸ h⟩, And.left⟩

theorem keyAt_eq_none : keyAt t a = none ↔ (t.node a).key = .nil := by simp [keyAt]

theorem ne_nil_of_keyAt (h : keyAt t a = some k) : k ≠ .nil := (keyAt_eq_some.mp h).2

def Table.inArray (t : Table V) (k : TValue V) : Prop := 0 < index k ∧ index k ≤ t.sizearray

instance (t : Table V) (k : TValue V) : Decidable (t.inArray k) := inferInstanceAs (Decidable (_ ∧ _))

theorem not_inArray (h : index k = 0) : ¬ t.inArray k := fun harray => by
  have hpos := harray.1
  omega

structure Valid (t : Table V) : Prop where
  scattered : Scattered (mainposition t) (keyAt t) (nextAt t)
  inside : ∀ {a}, keyAt t a ≠ none → a < t.sizenode
  vacant : ∀ {a}, keyAt t a = none → (t.node a).val = .nil
  outside : ∀ {a k}, keyAt t a = some k → ¬ t.inArray k
  free : t.dummy = false → ∀ {a}, a < t.sizenode → t.lastfree ≤ a → keyAt t a ≠ none
  lastfree_le : t.lastfree ≤ t.sizenode
  blank : t.dummy = true → (∀ a, keyAt t a = none) ∧ t.lsizenode = 0 ∧ t.lastfree ≤ 0
  lsizenode_le : t.lsizenode ≤ maxBits
  buffer : t.sizearray ≤ t.array.length
  sizearray_lt : t.sizearray < 2 ^ 31

/-! ### Places -/

/-- The node of a key. -/
def Table.find (t : Table V) (k : TValue V) : Option Nat := (List.range t.sizenode).find? fun a => keyAt t a = some k

/-- Where the value of a key is. -/
def Table.place (t : Table V) (k : TValue V) : Slot :=
  if t.inArray k then .array (index k - 1)
  else
    match t.find k with
    | some a => .node a
    | none => .nilobject

/-- The value of a key. -/
def Table.content (t : Table V) (k : TValue V) : TValue V := t.read (t.place k)

theorem Valid.find_eq_some (h : Valid t) : t.find k = some a ↔ keyAt t a = some k := by
  constructor
  · intro hfind
    simpa using List.find?_some hfind
  · intro ha
    have hmem : a ∈ List.range t.sizenode := List.mem_range.mpr (h.inside (by simp [ha]))
    cases hfind : t.find k with
    | none =>
      have := List.find?_eq_none.mp hfind a hmem
      simp [ha] at this
    | some b =>
      have hb : keyAt t b = some k := by simpa using List.find?_some hfind
      rw [h.scattered.unique hb ha]

theorem Valid.find_eq_none (h : Valid t) : t.find k = none ↔ ∀ a, keyAt t a ≠ some k := by
  constructor
  · intro hfind a ha
    simp [h.find_eq_some.mpr ha] at hfind
  · intro hfresh
    cases hfind : t.find k with
    | none => rfl
    | some a => exact absurd (h.find_eq_some.mp hfind) (hfresh a)

theorem place_array (h : t.inArray k) : t.place k = .array (index k - 1) := if_pos h

theorem Valid.place_node (h : Valid t) (ha : keyAt t a = some k) : t.place k = .node a := by
  rw [Table.place, if_neg (h.outside ha), h.find_eq_some.mpr ha]

theorem Valid.place_absent (h : Valid t) (harray : ¬ t.inArray k) (hfresh : ∀ a, keyAt t a ≠ some k) :
    t.place k = .nilobject := by
  rw [Table.place, if_neg harray, h.find_eq_none.mpr hfresh]

/-- A key with no place is new to both parts. -/
theorem Valid.absent_of_place (h : Valid t) (hplace : t.place k = .nilobject) :
    ¬ t.inArray k ∧ ∀ a, keyAt t a ≠ some k := by
  by_cases harray : t.inArray k
  · rw [place_array harray] at hplace
    exact nomatch hplace
  · refine ⟨harray, fun a ha => ?_⟩
    rw [h.place_node ha] at hplace
    exact nomatch hplace

/-- A key has a place in one of the two parts. -/
theorem Valid.placed_cases (h : Valid t) (hp : t.place k ≠ .nilobject) : t.inArray k ∨ ∃ a, keyAt t a = some k := by
  by_cases hin : t.inArray k
  · exact .inl hin
  · right
    by_contra hfresh
    exact hp (h.place_absent hin (not_exists.mp hfresh))

theorem placed_array (hin : t.inArray k) : t.place k ≠ .nilobject := by
  rw [place_array hin]
  exact nofun

theorem Valid.placed_node (h : Valid t) (ha : keyAt t a = some k) : t.place k ≠ .nilobject := by
  rw [h.place_node ha]
  exact nofun

theorem place_nil (h : Valid t) : t.place .nil = .nilobject :=
  h.place_absent (not_inArray index_nil) fun _ ha => ne_nil_of_keyAt ha rfl

/-! ### The lookups -/

theorem Valid.searchChain_eq (h : Valid t) (harray : ¬ t.inArray k) (hk : k ≠ .nil) {test : TValue V → Bool}
    (htest : ∀ k', test k' = true ↔ k' = k) : searchChain t test (mainposition t k) = .ok (t.place k) := by
  have hcell : ∀ a, test (t.node a).key = true ↔ keyAt t a = some k := by
    intro a
    rw [htest, keyAt_eq_some]
    exact ⟨fun heq => ⟨heq, hk⟩, And.left⟩
  have hs : ∀ {a}, keyAt t a ≠ none → a ∈ Finset.range t.sizenode := fun ha => Finset.mem_range.mpr (h.inside ha)
  have hhome : mainposition t k ∈ Finset.range t.sizenode := Finset.mem_range.mpr (mainposition_lt t k)
  have hfuel : (Finset.range t.sizenode).card ≤ t.sizenode := (Finset.card_range _).le
  rw [searchChain]
  by_cases hfresh : ∀ a, keyAt t a ≠ some k
  · have hsearch : searchFrom (fun i => (t.node i).next) (fun i => test (t.node i).key) t.sizenode _ = _ :=
      h.scattered.search_absent hs hcell hhome hfuel hfresh
    rw [hsearch, h.place_absent harray hfresh]
  · rw [not_forall] at hfresh
    obtain ⟨a, ha⟩ := hfresh
    have ha := not_not.mp ha
    have hsearch : searchFrom (fun i => (t.node i).next) (fun i => test (t.node i).key) t.sizenode _ = _ :=
      h.scattered.search_found hs hcell hhome hfuel ha
    rw [hsearch, h.place_node ha]

/-- The comparison of `unsigned int`s in `luaH_getnum` asks for both bounds. -/
theorem unsigned_lt_iff {j : Int32} {n : Nat} (hn : n < 2 ^ 31) :
    (j - 1).toUInt32.toNat < n ↔ 0 < j.toInt ∧ j.toInt ≤ n := by
  have hsub : (j - 1).toUInt32.toNat = (2 ^ 32 - 1 + j.toBitVec.toNat) % 2 ^ 32 := BitVec.toNat_sub j.toBitVec 1#32
  have hlt := j.toBitVec.isLt
  have hint : j.toInt = if 2 * j.toBitVec.toNat < 2 ^ 32 then (j.toBitVec.toNat : Int) else j.toBitVec.toNat - (2 ^ 32 : Nat) :=
    BitVec.toInt_eq_toNat_cond j.toBitVec
  rw [hsub, hint]
  split <;> omega

theorem pred_toNat {j : Int32} (h : 0 < j.toInt) : (j - 1).toInt.toNat = j.toInt.toNat - 1 := by
  have hbound := j.toInt_lt
  have hsub : (j - 1).toInt = (j.toInt - 1).bmod (2 ^ 32) := Int32.toInt_sub j 1
  rw [hsub, Int.bmod_eq_of_le (by omega) (by omega)]
  omega

theorem Valid.luaHGetnum_eq (h : Valid t) (j : Int32) : luaHGetnum t j = .ok (t.place (.number (V.castNum j))) := by
  have hin : t.inArray (.number (V.castNum j)) ↔ 0 < j.toInt ∧ j.toInt ≤ t.sizearray := by
    rw [Table.inArray, index_castNum]
    omega
  rw [luaHGetnum]
  split
  case isTrue hlt =>
    have hpos := (unsigned_lt_iff h.sizearray_lt).mp hlt
    rw [place_array (hin.mpr hpos), index_castNum, pred_toNat hpos.1]
  case isFalse hge =>
    exact h.searchChain_eq (fun harray => hge ((unsigned_lt_iff h.sizearray_lt).mpr (hin.mp harray))) (by simp) (by simp)

theorem Valid.luaHGetstr_eq (h : Valid t) (s : V.Str) : luaHGetstr t s = .ok (t.place (.string s)) := by
  have hs : ¬ t.inArray (.string s) := not_inArray (index_string s)
  exact h.searchChain_eq hs (by simp) (by simp)

theorem Valid.luaHGet_eq (h : Valid t) (k : TValue V) : luaHGet t k = .ok (t.place k) := by
  have hother : index k = 0 → k ≠ .nil → searchChain t (fun k' => k' = k) (mainposition t k) = .ok (t.place k) :=
    fun hindex hk => h.searchChain_eq (not_inArray hindex) hk (by simp)
  cases k with
  | nil => rw [luaHGet, place_nil h]
  | string s => exact h.luaHGetstr_eq s
  | number n =>
    rw [luaHGet]
    split
    case isTrue hn => rw [h.luaHGetnum_eq, hn]
    case isFalse hn => exact hother (index_eq_zero hn) (by simp)
  | boolean b => exact hother rfl (by simp)
  | lightuserdata p => exact hother rfl (by simp)
  | object o => exact hother rfl (by simp)

end Reading.Lua
