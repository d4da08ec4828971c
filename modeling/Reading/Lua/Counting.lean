import Reading.Lua.Assign

/-!
# How large the array part becomes

A rehash counts the integer keys by powers of two and takes for the array part the largest power of two that they fill by more than half. `Counts` says which keys the counters stand for, and `computesizes` finds the size that is best for them.
-/

namespace Reading.Lua

variable {V : Values} {t : Table V} {k : TValue V}

/-! ### Powers of two -/

theorem log2Table_eq : log2Table = (List.range 256).map fun x => if x = 0 then 0 else x.log2 + 1 := by decide +kernel

/-- The table holds the number of bits. -/
theorem log2Table_le {x : Nat} (hx : x < 256) (n : Nat) : log2Table.getD x 0 ≤ n ↔ x < 2 ^ n := by
  have hget : log2Table.getD x 0 = if x = 0 then 0 else x.log2 + 1 := by
    simp [log2Table_eq, List.getD_eq_getElem?_getD, List.getElem?_range hx]
  rw [hget]
  split
  · have hpos := Nat.two_pow_pos n
    exact iff_of_true (Nat.zero_le n) (by omega)
  · rw [Nat.succ_le_iff, Nat.log2_lt ‹_›]

/-- What is added to `l` is the number of bits. -/
theorem log2Loop_spec (steps : Nat) {x : Nat} (h : x < 2 ^ (8 * (steps + 1))) (l : Int) :
    ∃ r : Nat, log2Loop steps x l = l + r ∧ ∀ n, r ≤ n ↔ x < 2 ^ n := by
  induction steps generalizing x l with
  | zero => exact ⟨log2Table.getD x 0, rfl, log2Table_le h⟩
  | succ steps ih =>
    rw [log2Loop]
    by_cases hx : 256 ≤ x
    · have hshift : x >>> 8 = x / 256 := Nat.shiftRight_eq_div_pow x 8
      have hlt : x >>> 8 < 2 ^ (8 * (steps + 1)) := by
        rw [hshift]
        apply Nat.div_lt_of_lt_mul
        have hsplit : 2 ^ (8 * (steps + 1 + 1)) = 256 * 2 ^ (8 * (steps + 1)) := by
          rw [show 8 * (steps + 1 + 1) = 8 + 8 * (steps + 1) by omega, Nat.pow_add]
        omega
      obtain ⟨r, hr, hbits⟩ := ih hlt (l + 8)
      refine ⟨r + 8, ?_, fun n => ?_⟩
      · rw [if_pos hx, hr]
        omega
      · by_cases hn : n < 8
        · have hpow : 2 ^ n ≤ 2 ^ 8 := Nat.pow_le_pow_right (by decide) hn.le
          exact iff_of_false (by omega) (by omega)
        · obtain ⟨m, rfl⟩ := Nat.exists_eq_add_of_le' (Nat.not_lt.mp hn)
          rw [Nat.add_le_add_iff_right, hbits m, hshift, Nat.div_lt_iff_lt_mul (by decide), Nat.pow_add]
    · rw [if_neg hx]
      have hsmall : x < 2 ^ (8 * (0 + 1)) := Nat.not_le.mp hx
      exact ⟨log2Table.getD x 0, rfl, log2Table_le hsmall⟩

theorem ceillog2_le {x : Nat} (hx : x ≤ 2 ^ 32) (n : Nat) : ceillog2 x ≤ n ↔ x ≤ 2 ^ n := by
  have hpos := Nat.two_pow_pos n
  obtain ⟨r, hr, hbits⟩ := log2Loop_spec 3 (show x - 1 < 2 ^ (8 * (3 + 1)) by omega) (-1)
  have hceil : ceillog2 x = r := by
    rw [ceillog2, luaOLog2, hr]
    omega
  rw [hceil, hbits]
  omega

/-- Above the power before. -/
theorem ceillog2_eq {x lg : Nat} (hx : x ≤ 2 ^ 32) (hle : x ≤ 2 ^ lg) (hgt : ∀ m < lg, 2 ^ m < x) : ceillog2 x = lg := by
  have hupper := (ceillog2_le hx lg).mpr hle
  rcases Nat.eq_or_lt_of_le hupper with heq | hlt
  · exact heq
  · have hlow := (ceillog2_le hx (ceillog2 x)).mp (Nat.le_refl _)
    exact absurd hlow (Nat.not_le.mpr (hgt _ hlt))

/-! ### Counters -/

/-- The counters say how many of the keys lie above each power of two and not above the next. -/
def Tallies (nums : Nat → Nat) (js : List Nat) : Prop := ∀ lg, nums lg = js.countP fun j => ceillog2 j = lg

theorem Tallies.nil : Tallies (fun _ => 0) [] := fun _ => rfl

/-- Keys of one slice are added to its counter. -/
theorem Tallies.append {nums : Nat → Nat} {js js' : List Nat} {lg : Nat} (h : Tallies nums js)
    (hslice : ∀ j ∈ js', ceillog2 j = lg) :
    Tallies (Function.update nums lg (nums lg + js'.length)) (js' ++ js) := by
  intro lg'
  rw [List.countP_append, ← h lg']
  by_cases heq : lg' = lg
  · have hall : js'.countP (fun j => ceillog2 j = lg) = js'.length :=
      List.countP_eq_length.mpr fun j hj => decide_eq_true (hslice j hj)
    rw [heq, Function.update_self, hall, Nat.add_comm]
  · have hnone : js'.countP (fun j => ceillog2 j = lg') = 0 :=
      List.countP_eq_zero.mpr fun j hj hj' => heq ((of_decide_eq_true hj').symm.trans (hslice j hj))
    rw [Function.update_of_ne heq, hnone, Nat.zero_add]

/-- The key as an array index, if it is counted as one. -/
def counted (k : TValue V) : List Nat := if 0 < index k ∧ index k ≤ maxAsize then [index k] else []

theorem countint_eq (k : TValue V) (nums : Nat → Nat) :
    countint k nums =
      if 0 < index k ∧ index k ≤ maxAsize then (Function.update nums (ceillog2 (index k)) (nums (ceillog2 (index k)) + 1), 1)
      else (nums, 0) := by
  have hcond : (0 < arrayindex k ∧ (arrayindex k).toInt ≤ maxAsize) ↔ 0 < index k ∧ index k ≤ maxAsize := by
    have hpos : 0 < arrayindex k ↔ 0 < (arrayindex k).toInt := Int32.lt_iff_toInt_lt
    rw [hpos, index]
    omega
  rw [countint]
  by_cases h : 0 < index k ∧ index k ≤ maxAsize
  · rw [if_pos h, if_pos (hcond.mpr h), index]
  · rw [if_neg h, if_neg fun h' => h (hcond.mp h')]

theorem Tallies.countint {nums : Nat → Nat} {js : List Nat} (h : Tallies nums js) (k : TValue V) :
    Tallies (Lua.countint k nums).1 (counted k ++ js) ∧ (Lua.countint k nums).2 = (counted k).length := by
  rw [countint_eq, counted]
  split
  case isTrue =>
    have hslice : ∀ j ∈ [index k], ceillog2 j = ceillog2 (index k) := fun j hj => by rw [List.mem_singleton.mp hj]
    exact ⟨h.append hslice, rfl⟩
  case isFalse => exact ⟨h, rfl⟩

/-! ### The keys of a table -/

/-- The indices up to `m` of values in the array part. -/
def arrayInts (t : Table V) (m : Nat) : List Nat := (List.range' 1 m).filter fun j => t.array.getD (j - 1) .nil ≠ .nil

theorem countSlice_eq (t : Table V) (i steps : Nat) :
    countSlice t i steps = ((List.range' i steps).filter fun j => t.array.getD (j - 1) .nil ≠ .nil).length := by
  induction steps with
  | zero => rfl
  | succ steps ih =>
    rw [countSlice, ih, List.range'_1_concat, List.filter_append, List.length_append]
    congr 1
    by_cases hnil : t.array.getD (i + steps - 1) .nil = .nil
    · simp only [List.filter_cons, List.filter_nil, hnil, ne_eq, not_true, decide_false, if_true]
      rfl
    · simp only [List.filter_cons, List.filter_nil, hnil, ne_eq, not_false_eq_true, decide_true, if_false, if_true]
      rfl

theorem arrayInts_append (t : Table V) {m n : Nat} (h : m ≤ n) :
    (arrayInts t n).Perm ((List.range' (m + 1) (n - m)).filter (fun j => t.array.getD (j - 1) .nil ≠ .nil) ++ arrayInts t m) := by
  have hsplit : List.range' 1 n = List.range' 1 m ++ List.range' (m + 1) (n - m) := by
    rw [Nat.add_comm m 1, List.range'_append_1, Nat.add_sub_cancel' h]
  rw [arrayInts, hsplit, List.filter_append]
  exact List.perm_append_comm

theorem Tallies.perm {nums : Nat → Nat} {js js' : List Nat} (h : Tallies nums js) (hperm : js'.Perm js) : Tallies nums js' :=
  fun lg => (h lg).trans (hperm.countP_eq _).symm

/-- The power of two before the slice `lg`. -/
def before : Nat → Nat
  | 0 => 0
  | lg + 1 => 2 ^ lg

theorem before_le (lg : Nat) : before lg ≤ 2 ^ lg := by
  cases lg with
  | zero => exact Nat.zero_le _
  | succ lg => exact Nat.pow_le_pow_right (by decide) (Nat.le_succ lg)

theorem lt_of_before_lt {lg m x : Nat} (h : before lg < x) (hm : m < lg) : 2 ^ m < x := by
  cases lg with
  | zero => exact absurd hm (Nat.not_lt_zero m)
  | succ lg => exact (Nat.pow_le_pow_right (by decide) (Nat.le_of_lt_succ hm)).trans_lt h

theorem numusearrayFrom_spec (t : Table V) (hsize : t.sizearray < 2 ^ 31) {slices lg i : Nat} {use : Use}
    (hslices : slices + lg = maxBits + 1) (hi : i = min (before lg) t.sizearray + 1)
    (htallies : Tallies use.nums (arrayInts t (i - 1))) (hause : use.ause = (arrayInts t (i - 1)).length) :
    Tallies (numusearrayFrom t slices lg i use).nums (arrayInts t (min t.sizearray maxAsize)) ∧
      (numusearrayFrom t slices lg i use).ause = (arrayInts t (min t.sizearray maxAsize)).length := by
  induction slices generalizing lg i use with
  | zero =>
    have hlg : lg = maxBits + 1 := by omega
    have hend : i - 1 = min t.sizearray maxAsize := by
      rw [hi, hlg, Nat.add_sub_cancel, Nat.min_comm]
      rfl
    rw [numusearrayFrom, ← hend]
    exact ⟨htallies, hause⟩
  | succ slices ih =>
    rw [numusearrayFrom]
    by_cases hbreak : t.sizearray < 2 ^ lg ∧ t.sizearray < i
    · rw [if_pos hbreak]
      have hlg : before lg ≤ maxAsize := by
        have hle : lg ≤ maxBits := by omega
        exact (before_le lg).trans (Nat.pow_le_pow_right (by decide) hle)
      have hend : i - 1 = min t.sizearray maxAsize := by omega
      rw [← hend]
      exact ⟨htallies, hause⟩
    · rw [if_neg hbreak]
      have hbefore := before_le lg
      have hlim : i + (min (2 ^ lg) t.sizearray + 1 - i) = min (before (lg + 1)) t.sizearray + 1 := by
        rw [before]
        omega
      have hslice : ∀ j ∈ (List.range' i (min (2 ^ lg) t.sizearray + 1 - i)).filter (fun j => t.array.getD (j - 1) .nil ≠ .nil),
          ceillog2 j = lg := by
        intro j hj
        have hmem := List.mem_range'_1.mp (List.mem_of_mem_filter hj)
        exact ceillog2_eq (by omega) (by omega) fun m hm => lt_of_before_lt (show before lg < j by omega) hm
      have hperm := arrayInts_append t (m := i - 1) (n := min (2 ^ lg) t.sizearray) (by omega)
      rw [show i - 1 + 1 = i by omega, show min (2 ^ lg) t.sizearray - (i - 1) = min (2 ^ lg) t.sizearray + 1 - i by omega] at hperm
      apply ih (by omega) hlim
      · rw [hlim, before, Nat.add_sub_cancel, countSlice_eq]
        exact (htallies.append hslice).perm hperm
      · rw [hlim, before, Nat.add_sub_cancel, countSlice_eq, hperm.length_eq, List.length_append, hause]
        exact Nat.add_comm _ _

theorem numusearray_spec (t : Table V) (hsize : t.sizearray < 2 ^ 31) :
    Tallies (numusearray t).nums (arrayInts t (min t.sizearray maxAsize)) ∧
      (numusearray t).ause = (arrayInts t (min t.sizearray maxAsize)).length := by
  have hstart : 1 = min (before 0) t.sizearray + 1 := by
    rw [before]
    omega
  exact numusearrayFrom_spec t hsize rfl hstart .nil rfl

/-- The indices of the keys with a value in the nodes below `i`. -/
def nodeInts (t : Table V) : Nat → List Nat
  | 0 => []
  | i + 1 => nodeInts t i ++ if (t.node i).val = .nil then [] else counted (t.node i).key

/-- How many nodes below `i` have a value. -/
def liveBelow (t : Table V) : Nat → Nat
  | 0 => 0
  | i + 1 => liveBelow t i + if (t.node i).val = .nil then 0 else 1

theorem liveBelow_le (t : Table V) (i : Nat) : liveBelow t i ≤ i := by
  induction i with
  | zero => exact Nat.le_refl 0
  | succ i ih =>
    rw [liveBelow]
    split <;> omega

theorem numusehashFrom_spec (t : Table V) (i : Nat) (use : Use) {js : List Nat} (htallies : Tallies use.nums js)
    (hause : use.ause = js.length) :
    Tallies (numusehashFrom t i use).nums (nodeInts t i ++ js) ∧
      (numusehashFrom t i use).ause = (nodeInts t i ++ js).length ∧
      (numusehashFrom t i use).totaluse = use.totaluse + liveBelow t i := by
  induction i generalizing use js with
  | zero => exact ⟨htallies, hause, rfl⟩
  | succ i ih =>
    rw [numusehashFrom, nodeInts, liveBelow, countNode]
    by_cases hval : (t.node i).val = .nil
    · rw [if_pos hval, if_pos hval, if_pos hval, List.append_nil]
      exact ih use htallies hause
    · rw [if_neg hval, if_neg hval, if_neg hval, List.append_assoc]
      obtain ⟨hnums, hone⟩ := htallies.countint (t.node i).key
      obtain ⟨hnums', hause', htotal⟩ := ih
        ⟨(countint (t.node i).key use.nums).1, use.ause + (countint (t.node i).key use.nums).2, use.totaluse + 1⟩
        hnums (by rw [hone, List.length_append, hause, Nat.add_comm])
      refine ⟨hnums', hause', htotal.trans ?_⟩
      change use.totaluse + 1 + liveBelow t i = _
      omega

/-! ### The best size -/

/-- How many of the keys are at most `m`. -/
def upTo (js : List Nat) (m : Nat) : Nat := js.countP fun j => j ≤ m

/-- They fill the first `2^i` places by more than half. -/
def Fills (js : List Nat) (i : Nat) : Prop := 2 ^ i / 2 < upTo js (2 ^ i)

/-- The largest power of two that the keys fill, or nothing. -/
structure Best (js : List Nat) (n : Nat) : Prop where
  fills : n = 0 ∨ ∃ i ≤ maxBits, n = 2 ^ i ∧ Fills js i
  largest : ∀ i ≤ maxBits, Fills js i → 2 ^ i ≤ n

/-- Different indices that may be counted. -/
structure Indices (js : List Nat) : Prop where
  nodup : js.Nodup
  range : ∀ j ∈ js, 0 < j ∧ j ≤ maxAsize

theorem Best.unique {js : List Nat} {n n' : Nat} (h : Best js n) (h' : Best js n') : n = n' := by
  apply Nat.le_antisymm
  · obtain rfl | ⟨i, hi, rfl, hfills⟩ := h.fills
    · exact Nat.zero_le n'
    · exact h'.largest i hi hfills
  · obtain rfl | ⟨i, hi, rfl, hfills⟩ := h'.fills
    · exact Nat.zero_le n
    · exact h.largest i hi hfills

theorem Best.le {js : List Nat} {n : Nat} (h : Best js n) : n ≤ maxAsize := by
  obtain rfl | ⟨i, hi, rfl, -⟩ := h.fills
  · exact Nat.zero_le _
  · exact Nat.pow_le_pow_right (by decide) hi

theorem Indices.upTo_le {js : List Nat} (h : Indices js) (m : Nat) : upTo js m ≤ m := by
  have hsubset : js.filter (fun j => j ≤ m) ⊆ List.range' 1 m := by
    intro j hj
    obtain ⟨hmem, hle⟩ := List.mem_filter.mp hj
    have hpos := (h.range j hmem).1
    have hle' : j ≤ m := of_decide_eq_true hle
    exact List.mem_range'_1.mpr ⟨hpos, by omega⟩
  have hlength := ((h.nodup.filter _).subperm hsubset).length_le
  rw [List.length_range'] at hlength
  rw [upTo, List.countP_eq_length_filter]
  exact hlength

theorem upTo_le_length (js : List Nat) (m : Nat) : upTo js m ≤ js.length := List.countP_le_length

theorem Indices.length_le {js : List Nat} (h : Indices js) : js.length ≤ maxAsize := by
  have hall : upTo js maxAsize = js.length :=
    List.countP_eq_length.mpr fun j hj => decide_eq_true (h.range j hj).2
  exact hall ▸ h.upTo_le maxAsize

theorem Indices.upTo_pow {js : List Nat} (h : Indices js) (i : Nat) :
    upTo js (2 ^ i) = js.countP fun j => ceillog2 j < i + 1 := by
  apply List.countP_congr
  intro j hj
  have hle : j ≤ 2 ^ 32 := (h.range j hj).2.trans (by decide)
  rw [decide_eq_true_iff, decide_eq_true_iff, Nat.lt_succ_iff, ceillog2_le hle]

theorem countP_slice (js : List Nat) (i : Nat) :
    js.countP (fun j => ceillog2 j < i + 1) = js.countP (fun j => ceillog2 j < i) + js.countP fun j => ceillog2 j = i := by
  induction js with
  | nil => rfl
  | cons j js ih =>
    rw [List.countP_cons, List.countP_cons, List.countP_cons, ih]
    simp only [decide_eq_true_eq]
    split <;> split <;> split <;> omega

/-- With no more keys than half of a power no later one is filled. -/
theorem best_of_length_le {js : List Nat} {i n : Nat} (hi : i ≤ maxBits + 1) (hn : n = 0 ∨ ∃ l < i, n = 2 ^ l ∧ Fills js l)
    (hlargest : ∀ l < i, Fills js l → 2 ^ l ≤ n) (hle : js.length ≤ 2 ^ i / 2) : Best js n := by
  constructor
  case fills => exact hn.imp_right fun ⟨l, hl, hpow, hfills⟩ => ⟨l, by omega, hpow, hfills⟩
  case largest =>
    intro l _ hfills
    by_cases hl : l < i
    · exact hlargest l hl hfills
    · have hhalf : 2 ^ i / 2 ≤ 2 ^ l / 2 := Nat.div_le_div_right (Nat.pow_le_pow_right (by decide) (Nat.not_lt.mp hl))
      have hupTo := upTo_le_length js (2 ^ l)
      rw [Fills] at hfills
      omega

section Computesizes

variable {js : List Nat} {nums : Nat → Nat} (h : Indices js) (hnums : Tallies nums js)

include h hnums

theorem Tallies.upTo_pow (i : Nat) : upTo js (2 ^ i) = (js.countP fun j => ceillog2 j < i) + nums i := by
  rw [h.upTo_pow, countP_slice, hnums i]

/-- A power that is filled has keys of its own slice. -/
theorem Fills.pos {i : Nat} (hfills : Fills js i) : 0 < nums i := by
  have hupTo := hnums.upTo_pow h i
  rw [Fills, hupTo] at hfills
  by_contra hzero
  cases i with
  | zero =>
    have hnone : (js.countP fun j => ceillog2 j < 0) = 0 := List.countP_eq_zero.mpr fun j _ => by simp
    omega
  | succ i =>
    have hbefore := h.upTo_le (2 ^ i)
    rw [h.upTo_pow] at hbefore
    rw [Nat.pow_succ] at hfills
    omega

theorem computesizesFrom_spec {slices i a n : Nat} (hslices : slices + i = maxBits + 1)
    (ha : a = js.countP fun j => ceillog2 j < i) (hn : n = 0 ∨ ∃ l < i, n = 2 ^ l ∧ Fills js l)
    (hlargest : ∀ l < i, Fills js l → 2 ^ l ≤ n) :
    ∃ m, computesizesFrom nums js.length slices i a (n, upTo js n) = .ok (m, upTo js m) ∧ Best js m := by
  induction slices generalizing i a n with
  | zero =>
    have hi : i = maxBits + 1 := by omega
    have hle : js.length ≤ 2 ^ i / 2 := hi ▸ h.length_le
    exact ⟨n, if_neg (Nat.not_lt.mpr hle), best_of_length_le (by omega) hn hlargest hle⟩
  | succ slices ih =>
    rw [computesizesFrom]
    by_cases hloop : 2 ^ i / 2 < js.length
    · have hupTo := hnums.upTo_pow h i
      -- the test of the code asks for a key in the slice too, which a filled power has
      have hbest : ∃ n', (if 0 < nums i ∧ 2 ^ i / 2 < upTo js (2 ^ i) then (2 ^ i, upTo js (2 ^ i)) else (n, upTo js n)) =
          (n', upTo js n') ∧ (n' = 0 ∨ ∃ l < i + 1, n' = 2 ^ l ∧ Fills js l) ∧ ∀ l < i + 1, Fills js l → 2 ^ l ≤ n' := by
        by_cases hfills : Fills js i
        · refine ⟨2 ^ i, if_pos ⟨hfills.pos h hnums, hfills⟩, .inr ⟨i, Nat.lt_succ_self i, rfl, hfills⟩, fun l hl _ => ?_⟩
          exact Nat.pow_le_pow_right (by decide) (Nat.le_of_lt_succ hl)
        · refine ⟨n, if_neg fun hcond => hfills hcond.2, hn.imp_right ?_, fun l hl hl' => ?_⟩
          · exact fun ⟨l, hl, hpow, hl'⟩ => ⟨l, Nat.lt_succ_of_lt hl, hpow, hl'⟩
          · have hne : l ≠ i := fun heq => hfills (heq ▸ hl')
            exact hlargest l (by omega) hl'
      obtain ⟨n', heq, hn', hlargest'⟩ := hbest
      rw [if_pos hloop, ha, ← hupTo]
      simp only [heq]
      by_cases hall : upTo js (2 ^ i) = js.length
      · rw [if_pos hall]
        refine ⟨n', rfl, ?_, fun l _ hfills => ?_⟩
        · exact hn'.imp_right fun ⟨l, hl, hpow, hfills⟩ => ⟨l, by omega, hpow, hfills⟩
        · by_cases hl : l < i + 1
          · exact hlargest' l hl hfills
          · -- no key is left for the later slices
            have hpos := hfills.pos h hnums
            have hupTo' := hnums.upTo_pow h l
            have hmono : upTo js (2 ^ i) ≤ js.countP fun j => ceillog2 j < l := by
              rw [h.upTo_pow]
              apply List.countP_mono_left
              intro j _ hj
              have hlt := of_decide_eq_true hj
              exact decide_eq_true (by omega)
            have hle := upTo_le_length js (2 ^ l)
            omega
      · rw [if_neg hall]
        exact ih (by omega) (h.upTo_pow i) hn' hlargest'
    · rw [if_neg hloop]
      exact ⟨n, rfl, best_of_length_le (by omega) hn hlargest (Nat.not_lt.mp hloop)⟩

theorem computesizes_spec : ∃ n, computesizes nums js.length = .ok (n, upTo js n) ∧ Best js n := by
  have hzero : upTo js 0 = 0 := by
    have hle := h.upTo_le 0
    omega
  have hnone : 0 = js.countP fun j => ceillog2 j < 0 := by
    symm
    exact List.countP_eq_zero.mpr fun j _ => by simp
  have hspec : ∃ n, computesizesFrom nums js.length (maxBits + 1) 0 0 (0, upTo js 0) = .ok (n, upTo js n) ∧ Best js n :=
    computesizesFrom_spec h hnums rfl hnone (.inl rfl) fun l hl => absurd hl (Nat.not_lt_zero l)
  rw [hzero] at hspec
  exact hspec

end Computesizes

/-! ### What a rehash counts -/

theorem Indices.upTo_mono {js js' : List Nat} (h' : Indices js') {m : Nat} (hsub : ∀ j ∈ js', j ≤ m → j ∈ js) :
    upTo js' m ≤ upTo js m := by
  rw [upTo, upTo, List.countP_eq_length_filter, List.countP_eq_length_filter]
  refine ((h'.nodup.filter _).subperm fun j hj => ?_).length_le
  obtain ⟨hmem, hle⟩ := List.mem_filter.mp hj
  exact List.mem_filter.mpr ⟨hsub j hmem (of_decide_eq_true hle), hle⟩

/-- The best size stays the best when keys above it go. -/
theorem Best.mono {js js' : List Nat} {n : Nat} (h : Best js n) (hjs : Indices js) (hjs' : Indices js') (hsub : js' ⊆ js)
    (hkept : ∀ j ∈ js, j ≤ n → j ∈ js') : Best js' n := by
  constructor
  case fills =>
    refine h.fills.imp_right fun ⟨i, hi, hpow, hfills⟩ => ⟨i, hi, hpow, ?_⟩
    have hle : upTo js (2 ^ i) ≤ upTo js' (2 ^ i) := hjs.upTo_mono fun j hj hle => hkept j hj (hpow ▸ hle)
    exact Nat.lt_of_lt_of_le hfills hle
  case largest =>
    intro i hi hfills
    have hle : upTo js' (2 ^ i) ≤ upTo js (2 ^ i) := hjs'.upTo_mono fun j hj _ => hsub hj
    exact h.largest i hi (Nat.lt_of_lt_of_le hfills hle)

theorem mem_counted {j : Nat} : j ∈ counted k ↔ index k = j ∧ 0 < j ∧ j ≤ maxAsize := by
  rw [counted]
  split
  case isTrue h =>
    rw [List.mem_singleton]
    constructor
    · rintro rfl
      exact ⟨rfl, h⟩
    · exact fun h' => h'.1.symm
  case isFalse h =>
    refine iff_of_false (List.not_mem_nil) fun h' => h ?_
    rw [h'.1]
    exact h'.2

theorem mem_arrayInts {m j : Nat} : j ∈ arrayInts t m ↔ 0 < j ∧ j ≤ m ∧ t.array.getD (j - 1) .nil ≠ .nil := by
  rw [arrayInts, List.mem_filter, List.mem_range'_1, decide_eq_true_iff, ← and_assoc]
  refine and_congr_left fun _ => ?_
  omega

theorem mem_nodeInts {i j : Nat} :
    j ∈ nodeInts t i ↔ ∃ a < i, (t.node a).val ≠ .nil ∧ index (t.node a).key = j ∧ 0 < j ∧ j ≤ maxAsize := by
  induction i with
  | zero => simp [nodeInts]
  | succ i ih =>
    rw [nodeInts, List.mem_append, ih]
    constructor
    · rintro (⟨a, ha, hrest⟩ | hmem)
      · exact ⟨a, Nat.lt_succ_of_lt ha, hrest⟩
      · by_cases hval : (t.node i).val = .nil
        · rw [if_pos hval] at hmem
          cases hmem
        · rw [if_neg hval] at hmem
          exact ⟨i, Nat.lt_succ_self i, hval, mem_counted.mp hmem⟩
    · rintro ⟨a, ha, hval, hrest⟩
      by_cases heq : a = i
      · right
        rw [← heq, if_neg hval]
        exact mem_counted.mpr hrest
      · exact .inl ⟨a, by omega, hval, hrest⟩

/-- The integer keys that the rehash for a new key counts. -/
def rehashInts (t : Table V) (ek : TValue V) : List Nat :=
  counted ek ++ (nodeInts t t.sizenode ++ arrayInts t (min t.sizearray maxAsize))

section RehashInts

variable (h : Valid t)

include h

theorem Valid.keyAt_of_val {a : Nat} (hval : (t.node a).val ≠ .nil) : keyAt t a = some (t.node a).key :=
  keyAt_eq_some.mpr ⟨rfl, fun hnil => hval (h.vacant (keyAt_eq_none.mpr hnil))⟩

theorem Valid.nodup_nodeInts (i : Nat) : (nodeInts t i).Nodup := by
  induction i with
  | zero => exact List.nodup_nil
  | succ i ih =>
    rw [nodeInts]
    by_cases hval : (t.node i).val = .nil
    · rw [if_pos hval, List.append_nil]
      exact ih
    rw [if_neg hval]
    refine ih.append ?_ fun j hj hj' => ?_
    · rw [counted]
      split
      · exact List.nodup_singleton _
      · exact List.nodup_nil
    · obtain ⟨a, ha, hval', hindex, hpos, -⟩ := mem_nodeInts.mp hj
      have hindex' := (mem_counted.mp hj').1
      have hkeys : (t.node a).key = (t.node i).key := index_inj (hindex ▸ hpos) (hindex.trans hindex'.symm)
      have hsame := h.scattered.unique (hkeys ▸ h.keyAt_of_val hval') (h.keyAt_of_val hval)
      omega

/-- An index is counted if its key has a value or is the new one. -/
theorem Valid.mem_rehashInts {j : Nat} : j ∈ rehashInts t k ↔
    0 < j ∧ j ≤ maxAsize ∧ (k = intKey V j ∨ t.content (intKey V j) ≠ .nil) := by
  have hsmall : j ≤ maxAsize → j < 2 ^ 31 := fun hle => hle.trans_lt (by decide)
  rw [rehashInts, List.mem_append, List.mem_append, mem_counted, mem_nodeInts, mem_arrayInts]
  constructor
  · rintro (⟨hindex, hpos, hle⟩ | ⟨a, ha, hval, hindex, hpos, hle⟩ | ⟨hpos, hle, hval⟩)
    · refine ⟨hpos, hle, .inl ?_⟩
      rw [← hindex] at hpos ⊢
      exact eq_intKey hpos
    · refine ⟨hpos, hle, .inr ?_⟩
      have hkey : (t.node a).key = intKey V j := by
        rw [← hindex] at hpos ⊢
        exact eq_intKey hpos
      rw [h.content_node (hkey ▸ h.keyAt_of_val hval)]
      exact hval
    · have hle' : j ≤ maxAsize := by omega
      have hin : t.inArray (intKey V j) := by
        rw [Table.inArray, index_intKey (hsmall hle')]
        omega
      refine ⟨hpos, hle', .inr ?_⟩
      rw [content_array hin, index_intKey (hsmall hle')]
      exact hval
  · rintro ⟨hpos, hle, rfl | hval⟩
    · exact .inl ⟨index_intKey (hsmall hle), hpos, hle⟩
    right
    by_cases hin : t.inArray (intKey V j)
    · right
      rw [content_array hin, index_intKey (hsmall hle)] at hval
      rw [Table.inArray, index_intKey (hsmall hle)] at hin
      exact ⟨hpos, by omega, hval⟩
    · left
      by_cases hused : ∃ a, keyAt t a = some (intKey V j)
      · obtain ⟨a, ha⟩ := hused
        rw [h.content_node ha] at hval
        have hkey := (keyAt_eq_some.mp ha).1
        refine ⟨a, h.inside (by rw [ha]; exact Option.some_ne_none _), hval, ?_, hpos, hle⟩
        rw [hkey, index_intKey (hsmall hle)]
      · exact absurd (h.content_absent hin (not_exists.mp hused)) hval

theorem Valid.indices_rehashInts (hplace : t.place k = .nilobject) : Indices (rehashInts t k) := by
  obtain ⟨houtside, hfresh⟩ := h.absent_of_place hplace
  constructor
  case range => exact fun j hj => ((h.mem_rehashInts.mp hj).imp_right And.left)
  case nodup =>
    refine List.Nodup.append ?_ (List.Nodup.append (h.nodup_nodeInts _) ?_ fun j hj hj' => ?_) fun j hj hj' => ?_
    · rw [counted]
      split
      · exact List.nodup_singleton _
      · exact List.nodup_nil
    · exact (List.nodup_range' ..).filter _
    · -- a key of the array part is in no node
      obtain ⟨a, -, hval, hindex, hpos, -⟩ := mem_nodeInts.mp hj
      obtain ⟨-, hle, -⟩ := mem_arrayInts.mp hj'
      exact h.outside (h.keyAt_of_val hval) ⟨hindex ▸ hpos, by omega⟩
    · obtain ⟨hindex, hpos, hle⟩ := mem_counted.mp hj
      rcases List.mem_append.mp hj' with hnode | harray
      · obtain ⟨a, -, hval, hindex', -, -⟩ := mem_nodeInts.mp hnode
        have hkey : (t.node a).key = k := index_inj (hindex' ▸ hpos) (hindex'.trans hindex.symm)
        exact hfresh a (hkey ▸ h.keyAt_of_val hval)
      · obtain ⟨-, hle', -⟩ := mem_arrayInts.mp harray
        exact houtside ⟨hindex ▸ hpos, by omega⟩

/-- What the loops of a rehash have counted before they count the new key. -/
def Table.use (t : Table V) : Use := numusehashFrom t t.sizenode { numusearray t with totaluse := (numusearray t).ause }

/-- The best size for the array part comes from the counters, with the number of keys that go there. -/
theorem Valid.computesizes_eq (hplace : t.place k = .nilobject) :
    ∃ n, Best (rehashInts t k) n ∧
      computesizes (countint k t.use.nums).1 (t.use.ause + (countint k t.use.nums).2) = .ok (n, upTo (rehashInts t k) n) ∧
      t.use.totaluse = (arrayInts t (min t.sizearray maxAsize)).length + liveBelow t t.sizenode := by
  obtain ⟨htallies, hause⟩ := numusearray_spec t h.sizearray_lt
  obtain ⟨htallies', hause', htotal⟩ := numusehashFrom_spec t t.sizenode
    { numusearray t with totaluse := (numusearray t).ause } htallies hause
  obtain ⟨hnums, hone⟩ := htallies'.countint k
  obtain ⟨n, hsizes, hbest⟩ := computesizes_spec (h.indices_rehashInts hplace) hnums
  refine ⟨n, hbest, ?_, ?_⟩
  · have hlength : (rehashInts t k).length = t.use.ause + (counted k).length := by
      rw [Table.use, hause', rehashInts, List.length_append, Nat.add_comm]
    rw [hlength] at hsizes
    rw [Table.use, hone]
    exact hsizes
  · rw [Table.use, htotal]
    exact congrArg (· + _) hause

/-- A rehash takes the best size for the array part, and for the hash part what it did not count for it. -/
theorem Valid.rehash_eq (newkey : Newkey V) (hplace : t.place k = .nilobject) :
    ∃ n, Best (rehashInts t k) n ∧
      rehash newkey t k = resize newkey t n
        ((arrayInts t (min t.sizearray maxAsize)).length + liveBelow t t.sizenode + 1 - upTo (rehashInts t k) n) := by
  obtain ⟨n, hbest, hsizes, htotal⟩ := h.computesizes_eq hplace
  refine ⟨n, hbest, ?_⟩
  change (computesizes (countint k t.use.nums).1 (t.use.ause + (countint k t.use.nums).2) >>= fun sizes =>
    resize newkey t sizes.1 (t.use.totaluse + 1 - sizes.2)) = _
  rw [hsizes, htotal]
  rfl

end RehashInts

/-! ### The room that is left -/

/-- How many of the nodes below `i` have a value and a key that an array part of size `n` does not take. -/
def outsideBelow (t : Table V) (n : Nat) : Nat → Nat
  | 0 => 0
  | i + 1 =>
    outsideBelow t n i + if (t.node i).val = .nil ∨ 0 < index (t.node i).key ∧ index (t.node i).key ≤ n then 0 else 1

theorem outsideBelow_le (t : Table V) (n i : Nat) : outsideBelow t n i ≤ i := by
  induction i with
  | zero => exact Nat.le_refl 0
  | succ i ih =>
    rw [outsideBelow]
    split <;> omega

theorem liveBelow_eq (t : Table V) {n : Nat} (hn : n ≤ maxAsize) (i : Nat) :
    liveBelow t i = outsideBelow t n i + upTo (nodeInts t i) n := by
  induction i with
  | zero => rfl
  | succ i ih =>
    rw [liveBelow, outsideBelow, nodeInts, upTo, List.countP_append, ih, upTo]
    by_cases hval : (t.node i).val = .nil
    · rw [if_pos hval, if_pos hval, if_pos (.inl hval), List.countP_nil]
      rfl
    rw [if_neg hval, if_neg hval]
    have hone : (counted (t.node i).key).countP (fun j => j ≤ n) =
        if 0 < index (t.node i).key ∧ index (t.node i).key ≤ n then 1 else 0 := by
      rw [counted]
      by_cases hin : 0 < index (t.node i).key ∧ index (t.node i).key ≤ n
      · rw [if_pos ⟨hin.1, hin.2.trans hn⟩, if_pos hin, List.countP_singleton, if_pos (decide_eq_true hin.2)]
      · rw [if_neg hin]
        split
        case isTrue hcount =>
          rw [List.countP_singleton, if_neg]
          intro hle
          exact hin ⟨hcount.1, of_decide_eq_true hle⟩
        case isFalse => rfl
    rw [hone]
    by_cases hin : 0 < index (t.node i).key ∧ index (t.node i).key ≤ n
    · rw [if_pos hin, if_pos (.inr hin)]
      omega
    · rw [if_neg hin, if_neg fun h => h.elim hval hin]
      omega

/-- The new key goes to the array part, or to the hash part. -/
theorem upTo_counted (k : TValue V) {n : Nat} (hn : n ≤ maxAsize) :
    upTo (counted k) n + (if 0 < index k ∧ index k ≤ n then 0 else 1) = 1 := by
  rw [counted]
  by_cases hin : 0 < index k ∧ index k ≤ n
  · rw [if_pos hin, if_pos ⟨hin.1, hin.2.trans hn⟩, upTo, List.countP_singleton, if_pos (decide_eq_true hin.2)]
  · rw [if_neg hin]
    split
    case isTrue hcount =>
      rw [upTo, List.countP_singleton, if_neg]
      intro hle
      exact hin ⟨hcount.1, of_decide_eq_true hle⟩
    case isFalse => rfl

theorem upTo_rehashInts (t : Table V) (k : TValue V) (n : Nat) : upTo (rehashInts t k) n =
    upTo (counted k) n + (upTo (nodeInts t t.sizenode) n + upTo (arrayInts t (min t.sizearray maxAsize)) n) := by
  rw [rehashInts, upTo, List.countP_append, List.countP_append]
  rfl

/-- The new hash part has room for the keys that go there, and for the new key. -/
theorem room_of_rehash (t : Table V) (k : TValue V) {n : Nat} (hn : n ≤ maxAsize) :
    outsideBelow t n t.sizenode + (if 0 < index k ∧ index k ≤ n then 0 else 1) ≤
      (arrayInts t (min t.sizearray maxAsize)).length + liveBelow t t.sizenode + 1 - upTo (rehashInts t k) n := by
  have hlive := liveBelow_eq t hn t.sizenode
  have harray := upTo_le_length (arrayInts t (min t.sizearray maxAsize)) n
  have hsplit := upTo_rehashInts t k n
  have hone := upTo_counted k hn
  omega

end Reading.Lua
