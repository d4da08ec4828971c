import Mathlib.Order.Interval.Finset.Nat
import Reading.Lua.Map

/-!
# A rehash makes room

`newkeyInPlace` is `newkey` on a table that must not grow. If a rehash and the insertion after it go through with it, then no key that is moved makes the table grow again, and the calls are nested no deeper than two. That is so wherever the counters of the rehash see all keys. They do not see the elements of the array part beyond `2^MAXBITS`, which all have to move, so that the hash part must be large enough for them by its rounding up to a power of two.
-/

namespace Reading.Lua

variable {V : Values} {t t' t₀ : Table V} {k key : TValue V} {a i n m : Nat} {p : Slot}

/-- `newkey`, except that it stops where it would rehash. -/
def newkeyInPlace : Newkey V := fun t key =>
  match insertFree t key with
  | .inl _ => .error .tableOverflow
  | .inr r => r

theorem newkeyInPlace_inserts : Inserts (newkeyInPlace : Newkey V) := by
  intro t k h hk hplace hroom
  obtain ⟨t', p, hfree, hinserted⟩ | ⟨hfull, -⟩ := insertFree_cases h hk hplace
  · refine ⟨t', p, ?_, hinserted⟩
    rw [newkeyInPlace, hfree]
  · exact absurd hroom (Nat.not_lt.mpr hfull)

/-- Where it puts a key, `newkey` puts it too. -/
theorem newkeyStep_of_inPlace (inner : Newkey V) {r : Table V × Slot} (h : newkeyInPlace t k = .ok r) :
    newkeyStep inner t k = .ok r := by
  rw [newkeyInPlace] at h
  rw [newkeyStep_eq]
  cases hfree : insertFree t k with
  | inl t₁ =>
    rw [hfree] at h
    cases h
  | inr r' =>
    rw [hfree] at h
    exact h

/-- What goes through in a run goes through in the other one, with the same result. -/
def Goes {α : Type} (x y : Except Stop α) : Prop := ∀ {r}, x = .ok r → y = .ok r

theorem related_goes : Host.Related (Host.plain : Host V _) Host.plain Goes where
  pure _ := id
  bind := by
    intro α β x x' f f' hx hf r hr
    cases hxr : x with
    | error e =>
      rw [hxr] at hr
      cases hr
    | ok a =>
      rw [hxr] at hr
      rw [hx hxr]
      exact hf a hr
  lift _ := id

/-- A rehash that goes through in place is the rehash of `newkey`. -/
theorem rehash_of_inPlace (inner : Newkey V) (h : rehash newkeyInPlace t k = .ok t') :
    rehash (newkeyStep inner) t k = .ok t' := by
  rw [← Host.plain_rehash] at h ⊢
  exact related_goes.rehash (fun _ _ => newkeyStep_of_inPlace inner) (fun _ => id) t k h

theorem luaHSet_of_inPlace (inner : Newkey V) {r : Table V × Slot} (h : luaHSet newkeyInPlace t k = .ok r) :
    luaHSet (newkeyStep inner) t k = .ok r := by
  rw [← Host.plain_luaHSet] at h ⊢
  exact related_goes.luaHSet (fun _ _ => newkeyStep_of_inPlace inner) t k h

/-! ### Live keys -/

/-- The keys of a table that have a value. -/
def Table.live (t : Table V) : Nat := countSlice t 1 t.sizearray + liveBelow t t.sizenode

/-- Elements of the array part that a rehash does not count. -/
def beyond (t : Table V) : Nat := countSlice t (maxAsize + 1) (t.sizearray - maxAsize)

/-- The keys that a rehash for `k` counts and that are not among the first `n` integers, `k` included. -/
def outsiders (t : Table V) (k : TValue V) (n : Nat) : Nat :=
  outsideBelow t n t.sizenode + countSlice t (n + 1) (min t.sizearray maxAsize - n) + extraRoom k n

theorem countSlice_add (t : Table V) (i a b : Nat) : countSlice t i (a + b) = countSlice t i a + countSlice t (i + a) b := by
  induction b with
  | zero => rfl
  | succ b ih =>
    rw [← Nat.add_assoc, countSlice, ih, countSlice, Nat.add_assoc i]
    omega

/-- The slice that is left begins with its first element. -/
theorem countSlice_succ (t : Table V) (i : Nat) {steps : Nat} (hsteps : 0 < steps) :
    countSlice t (i + 1) steps = (if t.array.getD i .nil = .nil then 0 else 1) + countSlice t (i + 1 + 1) (steps - 1) := by
  obtain ⟨rest, rfl⟩ := Nat.exists_eq_add_of_le hsteps
  rw [Nat.succ_eq_add_one, Nat.zero_add, countSlice_add, countSlice, countSlice, Nat.add_sub_cancel_left]
  simp

theorem countSlice_card (t : Table V) (i steps : Nat) :
    countSlice t i steps = ((Finset.Ico i (i + steps)).filter fun j => t.array.getD (j - 1) .nil ≠ .nil).card := by
  have hlist : ((Finset.Ico i (i + steps)).filter fun j => t.array.getD (j - 1) .nil ≠ .nil) =
      ((List.range' i steps).filter fun j => t.array.getD (j - 1) .nil ≠ .nil).toFinset := by
    ext j
    simp [List.mem_range'_1]
  rw [countSlice_eq, hlist, List.toFinset_card_of_nodup ((List.nodup_range' ..).filter _)]

theorem liveBelow_card (t : Table V) (i : Nat) : liveBelow t i = ((Finset.range i).filter fun a => (t.node a).val ≠ .nil).card := by
  induction i with
  | zero => rfl
  | succ i ih =>
    rw [liveBelow, Finset.range_add_one, Finset.filter_insert, ih]
    by_cases hval : (t.node i).val = .nil
    · rw [if_pos hval, if_neg (not_not.mpr hval), Nat.add_zero]
    · rw [if_neg hval, if_pos hval, Finset.card_insert_of_notMem (by simp)]

theorem outsideBelow_card (t : Table V) (n i : Nat) : outsideBelow t n i =
    ((Finset.range i).filter fun a => ¬((t.node a).val = .nil ∨ 0 < index (t.node a).key ∧ index (t.node a).key ≤ n)).card := by
  induction i with
  | zero => rfl
  | succ i ih =>
    rw [outsideBelow, Finset.range_add_one, Finset.filter_insert, ih]
    by_cases hval : (t.node i).val = .nil ∨ 0 < index (t.node i).key ∧ index (t.node i).key ≤ n
    · rw [if_pos hval, if_neg (not_not.mpr hval), Nat.add_zero]
    · rw [if_neg hval, if_pos hval, Finset.card_insert_of_notMem (by simp)]

theorem upTo_arrayInts_self (t : Table V) (h : m ≤ n) : upTo (arrayInts t m) n = (arrayInts t m).length :=
  List.countP_eq_length.mpr fun _ hj => decide_eq_true ((mem_arrayInts.mp hj).2.1.trans h)

theorem upTo_arrayInts (t : Table V) (m n : Nat) :
    upTo (arrayInts t m) n + countSlice t (n + 1) (m - n) = (arrayInts t m).length := by
  by_cases hle : m ≤ n
  · rw [upTo_arrayInts_self t hle, Nat.sub_eq_zero_of_le hle]
    rfl
  · have hperm := arrayInts_append t (Nat.le_of_not_le hle)
    have hrest : ((List.range' (n + 1) (m - n)).filter fun j => t.array.getD (j - 1) .nil ≠ .nil).countP (fun j => j ≤ n) = 0 := by
      refine List.countP_eq_zero.mpr fun j hj hle => ?_
      have hmem := List.mem_range'_1.mp (List.mem_of_mem_filter hj)
      have hle' := of_decide_eq_true hle
      omega
    have hself := upTo_arrayInts_self t (Nat.le_refl n)
    rw [upTo] at hself ⊢
    rw [hperm.countP_eq, hperm.length_eq, List.countP_append, List.length_append, hrest, hself, countSlice_eq]
    omega

/-- The size of the hash part is the number of the keys it is for. -/
theorem nhsize_eq (t : Table V) (k : TValue V) (hn : n ≤ maxAsize) : nhsize t k n = outsiders t k n := by
  have hlive := liveBelow_eq t hn t.sizenode
  have harray := upTo_arrayInts t (min t.sizearray maxAsize) n
  have hsplit := upTo_rehashInts t k n
  have hone := upTo_counted k hn
  rw [nhsize, outsiders, extraRoom]
  omega

/-- Under an array part no larger than what is counted the vanishing slice is what is counted and what is not. -/
theorem countSlice_vanishing (t : Table V) (hn : n ≤ maxAsize) :
    countSlice t (n + 1) (t.sizearray - n) = countSlice t (n + 1) (min t.sizearray maxAsize - n) + beyond t := by
  by_cases hle : t.sizearray ≤ maxAsize
  · rw [beyond, Nat.min_eq_left hle, Nat.sub_eq_zero_of_le hle]
    rfl
  · have hsplit : t.sizearray - n = (maxAsize - n) + (t.sizearray - maxAsize) := by omega
    rw [beyond, Nat.min_eq_right (Nat.le_of_not_le hle), hsplit, countSlice_add]
    congr 2
    omega

theorem outsideBelow_le_live (t : Table V) (n i : Nat) : outsideBelow t n i ≤ liveBelow t i := by
  induction i with
  | zero => exact Nat.le_refl 0
  | succ i ih =>
    rw [outsideBelow, liveBelow]
    by_cases hval : (t.node i).val = .nil
    · rw [if_pos (.inl hval), if_pos hval]
      exact ih
    · rw [if_neg hval]
      split <;> omega

theorem outsiders_le (t : Table V) (k : TValue V) (n : Nat) : outsiders t k n ≤ t.live + 1 := by
  have hnodes := outsideBelow_le_live t n t.sizenode
  have hnew : extraRoom k n ≤ 1 := by
    rw [extraRoom]
    split <;> omega
  have hslice : countSlice t (n + 1) (min t.sizearray maxAsize - n) ≤ countSlice t 1 t.sizearray := by
    by_cases hle : min t.sizearray maxAsize ≤ n
    · rw [Nat.sub_eq_zero_of_le hle]
      exact Nat.zero_le _
    · have hsplit : t.sizearray = n + (min t.sizearray maxAsize - n) + (t.sizearray - min t.sizearray maxAsize) := by omega
      have hsum := countSlice_add t 1 (n + (min t.sizearray maxAsize - n)) (t.sizearray - min t.sizearray maxAsize)
      rw [← hsplit, countSlice_add t 1 n, Nat.add_comm 1 n] at hsum
      omega
  rw [outsiders, Table.live]
  omega

theorem outsiders_exhausted (t : Table V) (k : TValue V) (n : Nat) : outsiders t.exhausted k n = outsiders t k n := by
  rw [outsiders, outsiders, outsideBelow_card, outsideBelow_card, countSlice_card, countSlice_card]
  rfl

theorem beyond_exhausted (t : Table V) : beyond t.exhausted = beyond t := by
  rw [beyond, beyond, countSlice_card, countSlice_card]
  rfl

/-! ### A rehash with room -/

/-- What is still to come has room while the vanishing slice is moved. -/
def RoomySlice (t₀ : Table V) (n extra i : Nat) (t : Table V) : Prop :=
  t.used + countSlice t₀ (i + 1) (t₀.sizearray - i) + outsideBelow t₀ n t₀.sizenode + extra ≤ t.capacity

section Outcome

variable {M : Type → Type} [Monad M] {host : Host V M} {o : host.Outcome} {newkey : Host.Newkey V M} {extra : Nat}

theorem RoomySlice.enters (hinserts : o.Inserts newkey) (h₀ : Valid t₀) (hn : n ≤ i) (hi : i < t₀.sizearray)
    (h : Slicing t₀ n i t) (hroomy : RoomySlice t₀ n extra i t) (hval : t₀.array.getD i .nil ≠ .nil) :
    EntersOr o newkey t (intKey V (i + 1)) fun t' => SameArray t t' ∧ RoomySlice t₀ n extra (i + 1) t' := by
  have hout := h.element_outside h₀ hn hi
  have hstep : t.used + 1 + countSlice t₀ (i + 1 + 1) (t₀.sizearray - (i + 1)) + outsideBelow t₀ n t₀.sizenode + extra ≤
      t.capacity := by
    rw [RoomySlice, countSlice_succ t₀ i (by omega), if_neg hval, Nat.sub_sub] at hroomy
    omega
  by_cases hplace : t.place (intKey V (i + 1)) = .nilobject
  · obtain ⟨t', p, hinsert, hinserted⟩ := hinserts h.valid (intKey_ne_nil _ _) hplace (by omega)
    left
    rw [enter_absent newkey hplace]
    refine ⟨t', p, hinsert, hinserted.entered, fun v t'' _ hwritten => ⟨⟨?_, ?_⟩, ?_⟩⟩
    · have hsizes := sizes_of_shape hinserted.shape
      have hout' : ¬ t'.inArray (intKey V (i + 1)) := fun hin => hout ((inArray_of_sizes hsizes).mp hin)
      exact (hwritten.array hout').trans (congrArg Prod.fst hinserted.shape)
    · exact congrArg Prod.fst (hwritten.sizes.trans (sizes_of_shape hinserted.shape))
    · have hused := hinserted.used
      rw [RoomySlice, hwritten.used, capacity_of_sizes (hwritten.sizes.trans (sizes_of_shape hinserted.shape))]
      omega
  · refine .placed h.valid hplace fun v t'' _ hwritten => ⟨⟨hwritten.array hout, congrArg Prod.fst hwritten.sizes⟩, ?_⟩
    rw [RoomySlice, hwritten.used, capacity_of_sizes hwritten.sizes]
    omega

/-- Keys for all of which there is room are moved without a failure, also where the array part shrinks. -/
theorem reinsert_roomy_shrink (hinserts : o.Inserts newkey) (h : Valid t) (hn : n < t.sizearray) {fresh : Table V}
    (hempty : Fresh t fresh)
    (hroom : countSlice t (n + 1) (t.sizearray - n) + outsideBelow t n t.sizenode + extra ≤ fresh.capacity) :
    (∃ t', o.Returns (host.reinsert newkey t n fresh) t' ∧ Resized t n extra t') ∨
      o.Fails (host.reinsert newkey t n fresh) := by
  refine (reinsert_shrink (o := o) (J := RoomySlice t n extra) (K := Roomy t n extra) h hn hempty
    ?_ ?_ ?_ ?_ Roomy.skip ?_).imp_left ?_
  · change fresh.used + countSlice t (n + 1) (t.sizearray - n) + outsideBelow t n t.sizenode + extra ≤ fresh.capacity
    rw [hempty.used]
    omega
  · intro i t' hi hval hJ
    rw [RoomySlice, countSlice_succ t i (by omega), if_pos hval, Nat.zero_add, Nat.sub_sub] at hJ
    exact hJ
  · exact fun hn' hi hs hJ hval => hJ.enters hinserts h hn' hi hs hval
  · intro t' hs hJ
    refine ⟨hs.sizearray, ?_, fun heq => absurd heq hn.ne'⟩
    rw [RoomySlice, Nat.sub_self] at hJ
    exact hJ
  · exact fun hv _ hK hval => hK.enters hinserts h hv hval
  · rintro ⟨t', hreturns, hvalid, hcontent, hroomy⟩
    exact ⟨t', hreturns, hvalid, hcontent, hroomy.sizearray, hroomy.room, fun heq => absurd heq hn.ne'⟩

end Outcome

/-- With room for all keys a rehash goes through, whatever its inner calls would do on a full table. -/
theorem rehash_roomy {newkey : Newkey V} (hinserts : Inserts newkey) (h : Valid t) (hplace : t.place k = .nilobject)
    (hbest : Best (rehashInts t k) n) (hsmall : ceillog2 (outsiders t k n) ≤ maxBits)
    (hroom : outsiders t k n + beyond t ≤ nodesFor (outsiders t k n)) :
    ∃ t', rehash newkey t k = .ok t' ∧ Resized t n (extraRoom k n) t' := by
  have hsize := nhsize_eq t k hbest.le
  by_cases hle : t.sizearray ≤ n
  · obtain hgrown | ⟨hlarge, -⟩ := rehash_grow hinserts h hplace hbest hle
    · exact hgrown
    · rw [hsize] at hlarge
      omega
  have hn : n < t.sizearray := Nat.not_le.mp hle
  obtain ⟨m, hbest', hrehash⟩ := h.rehash_eq newkey hplace
  have heq := hbest'.unique hbest
  subst heq
  change rehash newkey t k = resize newkey t m (nhsize t k m) at hrehash
  have hgrow : growarray t m = t := if_neg (Nat.not_lt.mpr hn.le)
  rw [hrehash, resize_eq, hgrow, hsize]
  obtain ⟨fresh, hfresh, hempty, hcapacity⟩ | ⟨hlarge, -⟩ := setnodevector_spec h.arrayOk (outsiders t k m)
  · rw [hfresh]
    have hfits : countSlice t (m + 1) (t.sizearray - m) + outsideBelow t m t.sizenode + extraRoom k m ≤ fresh.capacity := by
      rw [hcapacity, countSlice_vanishing t hbest.le]
      rw [outsiders] at hroom ⊢
      omega
    exact (reinsert_roomy_shrink (o := Host.plainOutcome False) hinserts h hn hempty hfits).resolve_right fun hfails => hfails.1
  · omega

/-! ### A rehash without room -/

/-- What is left when a key has come in without a rehash and its value is written. -/
structure Taken (t : Table V) (k : TValue V) (t' : Table V) : Prop where
  valid : Valid t'
  sizes : t'.sizes = t.sizes
  array : ¬ t.inArray k → t'.array = t.array
  content : ∃ v, v ≠ .nil ∧ t'.content = Function.update t.content k v
  used : t'.used ≤ t.used + if t.place k = .nilobject then 1 else 0

/-- A key is put into a free node, or there is none. -/
theorem free_enters {M : Type → Type} [Monad M] {host : Host V M} {o : host.Outcome} {newkey : Host.Newkey V M}
    (hinsert : ∀ {r}, insertFree t k = .inr (.ok r) → o.Returns (newkey t k) r)
    (hfull : t.place k = .nilobject → t.capacity ≤ t.used → Valid t.exhausted → insertFree t k = .inl t.exhausted →
      o.Fails (newkey t k)) (h : Valid t) (hk : k ≠ .nil) : EntersOr o newkey t k (Taken t k) := by
  by_cases hplace : t.place k = .nilobject
  · rw [EntersOr, enter_absent _ hplace]
    obtain ⟨t', p, hfree, hinserted⟩ | ⟨hroom, hexhausted, hfree⟩ := insertFree_cases h hk hplace
    · left
      have hsizes := sizes_of_shape hinserted.shape
      refine ⟨t', p, hinsert hfree, hinserted.entered, fun v t'' hv hwritten => ?_⟩
      constructor
      case valid => exact hwritten.valid
      case sizes => exact hwritten.sizes.trans hsizes
      case array =>
        intro hout
        exact (hwritten.array fun hin => hout ((inArray_of_sizes hsizes).mp hin)).trans (congrArg Prod.fst hinserted.shape)
      case content => exact ⟨v, hv, by rw [hwritten.content, hinserted.content]⟩
      case used =>
        rw [if_pos hplace, hwritten.used]
        exact hinserted.used
    · exact .inr (hfull hplace hroom hexhausted hfree)
  · refine .placed h hplace fun v t'' hv hwritten => ⟨hwritten.valid, hwritten.sizes, hwritten.array, ⟨v, hv, hwritten.content⟩, ?_⟩
    rw [if_neg hplace, hwritten.used]
    exact Nat.le_refl _

theorem inPlace_enters (h : Valid t) (hk : k ≠ .nil) : EntersOr (Host.plainOutcome True) newkeyInPlace t k (Taken t k) := by
  refine free_enters (fun hfree => ?_) (fun _ _ _ hfree => ⟨trivial, ?_⟩) h hk
  · change newkeyInPlace t k = _
    rw [newkeyInPlace, hfree]
  · rw [newkeyInPlace, hfree]

theorem Valid.used_le (h : Valid t) : t.used ≤ t.capacity := by
  rw [Table.capacity]
  cases hdummy : t.dummy with
  | true =>
    have hnone := (h.blank hdummy).1
    rw [if_pos rfl, Table.used, Finset.filter_false_of_mem fun a _ => not_not.mpr (hnone a)]
    exact Nat.le_refl 0
  | false => exact (Finset.card_filter_le _ _).trans (Finset.card_range _).le

/-- Keys that are in the hash part are no more than its nodes. -/
theorem card_le_used {keys : Finset (TValue V)} (h : ∀ k ∈ keys, ∃ a, keyAt t a = some k) (hvalid : Valid t) :
    keys.card ≤ t.used := by
  rw [Table.used]
  refine (Finset.card_le_card fun k hk => ?_).trans
    (Finset.card_image_le (s := (Finset.range t.sizenode).filter fun a => keyAt t a ≠ none) (f := fun a => (t.node a).key))
  obtain ⟨a, ha⟩ := h k hk
  have hused : keyAt t a ≠ none := by simp [ha]
  refine Finset.mem_image.mpr ⟨a, Finset.mem_filter.mpr ⟨Finset.mem_range.mpr (hvalid.inside hused), hused⟩, ?_⟩
  exact (keyAt_eq_some.mp ha).1

/-- The live keys of the nodes that an array part of size `n` does not take. -/
def nodeKeys (t : Table V) (n : Nat) : Finset (TValue V) :=
  ((Finset.range t.sizenode).filter fun a =>
    ¬((t.node a).val = .nil ∨ 0 < index (t.node a).key ∧ index (t.node a).key ≤ n)).image fun a => (t.node a).key

/-- The live keys of the slice that vanishes when the array part shrinks to size `n`. -/
def sliceKeys (t : Table V) (n : Nat) : Finset (TValue V) :=
  ((Finset.Ico (n + 1) (n + 1 + (t.sizearray - n))).filter fun j => t.array.getD (j - 1) .nil ≠ .nil).image (intKey V)

theorem mem_nodeKeys (h : Valid t) :
    k ∈ nodeKeys t n ↔ (∃ a, keyAt t a = some k) ∧ ¬(0 < index k ∧ index k ≤ n) ∧ t.content k ≠ .nil := by
  constructor
  · intro hk
    obtain ⟨a, ha, rfl⟩ := Finset.mem_image.mp hk
    rw [Finset.mem_filter, not_or] at ha
    have hkey := h.keyAt_of_val ha.2.1
    refine ⟨⟨a, hkey⟩, ha.2.2, ?_⟩
    rw [h.content_node hkey]
    exact ha.2.1
  · rintro ⟨⟨a, hkey⟩, hout, hval⟩
    rw [h.content_node hkey] at hval
    obtain ⟨rfl, -⟩ := keyAt_eq_some.mp hkey
    refine Finset.mem_image.mpr ⟨a, Finset.mem_filter.mpr ⟨?_, not_or.mpr ⟨hval, hout⟩⟩, rfl⟩
    exact Finset.mem_range.mpr (h.inside (by simp [hkey]))

theorem card_nodeKeys (h : Valid t) (n : Nat) : (nodeKeys t n).card = outsideBelow t n t.sizenode := by
  rw [nodeKeys, outsideBelow_card]
  refine Finset.card_image_of_injOn fun a ha b hb heq => ?_
  rw [Finset.mem_coe, Finset.mem_filter, not_or] at ha hb
  have hkey : keyAt t a = some (t.node b).key := (congrArg some heq) ▸ h.keyAt_of_val ha.2.1
  exact h.scattered.unique hkey (h.keyAt_of_val hb.2.1)

theorem mem_sliceKeys (h : Valid t) (hk : k ∈ sliceKeys t n) :
    t.inArray k ∧ ¬(0 < index k ∧ index k ≤ n) ∧ t.content k ≠ .nil := by
  obtain ⟨j, hj, rfl⟩ := Finset.mem_image.mp hk
  rw [Finset.mem_filter, Finset.mem_Ico] at hj
  have hbound := h.sizearray_lt
  have hindex : index (intKey V j) = j := index_intKey (by omega)
  have hin : t.inArray (intKey V j) := by
    rw [Table.inArray, hindex]
    omega
  refine ⟨hin, by omega, ?_⟩
  rw [content_array hin, hindex]
  exact hj.2

theorem card_sliceKeys (h : Valid t) (n : Nat) : (sliceKeys t n).card = countSlice t (n + 1) (t.sizearray - n) := by
  rw [sliceKeys, countSlice_card]
  refine Finset.card_image_of_injOn fun i hi j hj heq => ?_
  rw [Finset.mem_coe, Finset.mem_filter, Finset.mem_Ico] at hi hj
  have hbound := h.sizearray_lt
  have hindex : index (intKey V i) = i := index_intKey (by omega)
  rw [← hindex, heq, index_intKey (by omega)]

theorem disjoint_sliceKeys (h : Valid t) (n : Nat) : Disjoint (nodeKeys t n) (sliceKeys t n) := by
  rw [Finset.disjoint_left]
  intro k' hnode hslice
  obtain ⟨a, ha⟩ := ((mem_nodeKeys h).mp hnode).1
  exact h.outside ha (mem_sliceKeys h hslice).1

/-- The keys that an array part of size `n` does not take are all in the hash part of a table with such an array part. -/
theorem moved_hashed (h : Valid t) (h' : Valid t') (hcontent : t'.content = t.content) (hsize : t'.sizearray = n)
    (hk : k ∈ nodeKeys t n ∪ sliceKeys t n) : ∃ a, keyAt t' a = some k := by
  have hhashed : t.content k ≠ .nil → ¬(0 < index k ∧ index k ≤ n) → ∃ a, keyAt t' a = some k := by
    intro hval hout
    have hp : t'.place k ≠ .nilobject := by
      intro hp
      rw [← hcontent, Table.content, hp] at hval
      exact hval rfl
    refine (h'.placed_cases hp).resolve_left fun hin => hout ?_
    rw [Table.inArray, hsize] at hin
    exact hin
  obtain hnode | hslice := Finset.mem_union.mp hk
  · obtain ⟨-, hout, hval⟩ := (mem_nodeKeys h).mp hnode
    exact hhashed hval hout
  · obtain ⟨-, hout, hval⟩ := mem_sliceKeys h hslice
    exact hhashed hval hout

theorem moved_le_used (h : Valid t) (h' : Valid t') (hcontent : t'.content = t.content) (hsize : t'.sizearray = n) :
    outsideBelow t n t.sizenode + countSlice t (n + 1) (t.sizearray - n) ≤ t'.used := by
  rw [← card_nodeKeys h, ← card_sliceKeys h, ← Finset.card_union_of_disjoint (disjoint_sliceKeys h n)]
  exact card_le_used (fun _ => moved_hashed h h' hcontent hsize) h'

/-- So is the new key, where it has come in. -/
theorem outside_le_used (h : Valid t) (hplace : t.place k = .nilobject) (h' : Valid t') (hcontent : t'.content = t.content)
    (hsize : t'.sizearray = n) (hplace' : t'.place k ≠ .nilobject) :
    outsideBelow t n t.sizenode + countSlice t (n + 1) (t.sizearray - n) + extraRoom k n ≤ t'.used := by
  rw [extraRoom]
  by_cases hin : 0 < index k ∧ index k ≤ n
  · rw [if_pos hin]
    exact moved_le_used h h' hcontent hsize
  obtain ⟨houtside, hfresh⟩ := h.absent_of_place hplace
  have hnew : k ∉ nodeKeys t n ∪ sliceKeys t n := by
    intro hk
    obtain hnode | hslice := Finset.mem_union.mp hk
    · obtain ⟨a, ha⟩ := ((mem_nodeKeys h).mp hnode).1
      exact hfresh a ha
    · exact houtside (mem_sliceKeys h hslice).1
  rw [if_neg hin, ← card_nodeKeys h, ← card_sliceKeys h, ← Finset.card_union_of_disjoint (disjoint_sliceKeys h n),
    ← Finset.card_insert_of_notMem hnew]
  refine card_le_used (fun k' hk' => ?_) h'
  obtain rfl | hk' := Finset.mem_insert.mp hk'
  · refine (h'.placed_cases hplace').resolve_left fun hin' => hin ?_
    rw [Table.inArray, hsize] at hin'
    exact hin'
  · exact moved_hashed h h' hcontent hsize hk'

/-- A rehash and an insertion that go through in place had room for all keys. -/
theorem room_of_inPlace (h : Valid t) (hk : k ≠ .nil) (hplace : t.place k = .nilobject) (hbest : Best (rehashInts t k) n)
    (hrehash : rehash newkeyInPlace t k = .ok t') {t'' : Table V} (hset : luaHSet newkeyInPlace t' k = .ok (t'', p)) :
    outsiders t k n + beyond t ≤ nodesFor (outsiders t k n) := by
  have hsize := nhsize_eq t k hbest.le
  by_cases hle : t.sizearray ≤ n
  · have hnone : beyond t = 0 := by
      have hmax := hbest.le
      rw [beyond, Nat.sub_eq_zero_of_le (hle.trans hmax)]
      rfl
    have hint := nhsize_le h k n
    rw [hsize] at hint
    rw [hnone]
    exact le_nodesFor hint
  have hn : n < t.sizearray := Nat.not_le.mp hle
  obtain ⟨m, hbest', heq⟩ := h.rehash_eq newkeyInPlace hplace
  have hsame := hbest'.unique hbest
  subst hsame
  change rehash newkeyInPlace t k = resize newkeyInPlace t m (nhsize t k m) at heq
  have hgrow : growarray t m = t := if_neg (Nat.not_lt.mpr hn.le)
  rw [heq, resize_eq, hgrow, hsize] at hrehash
  obtain ⟨fresh, hfresh, hempty, hcapacity⟩ | ⟨-, hover⟩ := setnodevector_spec h.arrayOk (outsiders t k m)
  case inr =>
    rw [hover] at hrehash
    cases hrehash
  rw [hfresh] at hrehash
  obtain ⟨t₁, hmoved, hvalid, hcontent, hsizes⟩ | ⟨-, hover⟩ := reinsert_shrink (o := Host.plainOutcome True)
    (J := fun _ t' => t'.capacity = nodesFor (outsiders t k m))
    (K := fun _ t' => t'.sizearray = m ∧ t'.capacity = nodesFor (outsiders t k m)) h hn hempty
    hcapacity (fun _ _ hJ => hJ)
    (fun hn' hi hs hJ _ => (inPlace_enters hs.valid (intKey_ne_nil _ _)).mono fun t' htaken =>
      ⟨⟨htaken.array (hs.element_outside h hn' hi), congrArg Prod.fst htaken.sizes⟩, (capacity_of_sizes htaken.sizes).trans hJ⟩)
    (fun hs hJ => ⟨hs.sizearray, hJ⟩) (fun hK _ => hK)
    (fun hv _ hK hval => (inPlace_enters hv (ne_nil_of_keyAt (h.keyAt_of_val hval))).mono fun t' htaken =>
      ⟨(congrArg Prod.fst htaken.sizes).trans hK.1, (capacity_of_sizes htaken.sizes).trans hK.2⟩)
  case inr => cases hrehash.symm.trans hover
  cases hrehash.symm.trans hmoved
  have hsetters := (Host.plainOutcome (V := V) True).luaHSet newkeyInPlace hvalid hk
  rw [Host.plain_luaHSet] at hsetters
  obtain ⟨t₂, p', henter, hentered, hwrite⟩ | hfails := inPlace_enters hvalid hk
  case inr => cases hset.symm.trans (hsetters.2 hfails).2
  cases hset.symm.trans (hsetters.1 henter)
  have hwritten := hentered.write (.boolean true)
  have hkept := (hwritten.sizes.symm.trans (hwrite (.boolean true) _ (by rintro ⟨⟩) hwritten).sizes)
  have hused := outside_le_used h hplace hentered.valid (hentered.content.trans hcontent)
    ((congrArg Prod.fst hkept).trans hsizes.1) (hentered.place ▸ hentered.exists_place)
  have hroom := hentered.valid.used_le
  rw [capacity_of_sizes hkept, hsizes.2] at hroom
  rw [countSlice_vanishing t hbest.le] at hused
  have hall := hused.trans hroom
  rw [outsiders] at hall ⊢
  omega

/-! ### The size of the array part -/

/-- How many of the integers up to `m` are keys, the new key `k` counted. -/
def filled (t : Table V) (k : TValue V) (m : Nat) : Nat :=
  ((Finset.Icc 1 m).filter fun j => j < 2 ^ 31 ∧ (k = intKey V j ∨ t.content (intKey V j) ≠ .nil)).card

/-- The largest power of two such that more than half of the integers up to it are keys, or 0. -/
structure LargestHalf (t : Table V) (k : TValue V) (n : Nat) : Prop where
  filled : n = 0 ∨ ∃ i, n = 2 ^ i ∧ n / 2 < filled t k n
  largest : ∀ i, 2 ^ i / 2 < Lua.filled t k (2 ^ i) → 2 ^ i ≤ n

theorem upTo_eq_filled (h : Valid t) (hplace : t.place k = .nilobject) (hm : m ≤ maxAsize) :
    upTo (rehashInts t k) m = filled t k m := by
  rw [upTo, List.countP_eq_length_filter, ← List.toFinset_card_of_nodup ((h.indices_rehashInts hplace).nodup.filter _), filled]
  congr 1
  ext j
  have hsmall : j ≤ m → j < 2 ^ 31 := fun hle => (hle.trans hm).trans_lt (by decide)
  simp only [List.mem_toFinset, List.mem_filter, h.mem_rehashInts, decide_eq_true_eq, Finset.mem_filter, Finset.mem_Icc]
  constructor
  · rintro ⟨⟨hpos, -, hkey⟩, hle⟩
    exact ⟨⟨hpos, hle⟩, hsmall hle, hkey⟩
  · rintro ⟨⟨hpos, hle⟩, -, hkey⟩
    exact ⟨⟨hpos, hle.trans hm, hkey⟩, hle⟩

theorem filled_le (h : Valid t) (k : TValue V) (m : Nat) : filled t k m ≤ t.live + 1 := by
  rw [Table.live, countSlice_card, liveBelow_card, filled]
  set elements := (Finset.Ico 1 (1 + t.sizearray)).filter fun j => t.array.getD (j - 1) .nil ≠ .nil with helements
  set nodes := (Finset.range t.sizenode).filter fun a => (t.node a).val ≠ .nil with hnodes
  have hsubset : ((Finset.Icc 1 m).filter fun j => j < 2 ^ 31 ∧ (k = intKey V j ∨ t.content (intKey V j) ≠ .nil)) ⊆
      insert (index k) (elements ∪ nodes.image fun a => index (t.node a).key) := by
    intro j hj
    rw [Finset.mem_filter, Finset.mem_Icc] at hj
    obtain ⟨⟨hpos, -⟩, hlt, hkey⟩ := hj
    have hindex : index (intKey V j) = j := index_intKey hlt
    rw [Finset.mem_insert, Finset.mem_union]
    obtain rfl | hval := hkey
    · exact .inl hindex.symm
    right
    by_cases hin : t.inArray (intKey V j)
    · left
      rw [content_array hin, hindex] at hval
      rw [Table.inArray, hindex] at hin
      rw [helements, Finset.mem_filter, Finset.mem_Ico]
      exact ⟨by omega, hval⟩
    · right
      have hused : ∃ a, keyAt t a = some (intKey V j) := by
        by_contra hfresh
        exact hval (h.content_absent hin (not_exists.mp hfresh))
      obtain ⟨a, ha⟩ := hused
      rw [h.content_node ha] at hval
      refine Finset.mem_image.mpr ⟨a, ?_, ?_⟩
      · exact Finset.mem_filter.mpr ⟨Finset.mem_range.mpr (h.inside (by simp [ha])), hval⟩
      · rw [(keyAt_eq_some.mp ha).1, hindex]
  have hcard := (Finset.card_le_card hsubset).trans (Finset.card_insert_le _ _)
  have hunion := Finset.card_union_le elements (nodes.image fun a => index (t.node a).key)
  have himage : (nodes.image fun a => index (t.node a).key).card ≤ nodes.card := Finset.card_image_le
  omega

/-- With no more keys than the counters reach to, the best size is the largest of all. -/
theorem Best.largestHalf (h : Valid t) (hplace : t.place k = .nilobject) (htotal : t.live + 1 ≤ maxAsize)
    (hbest : Best (rehashInts t k) n) : LargestHalf t k n := by
  constructor
  case filled =>
    refine hbest.fills.imp_right fun ⟨i, hi, hpow, hfills⟩ => ⟨i, hpow, ?_⟩
    have hm : 2 ^ i ≤ maxAsize := Nat.pow_le_pow_right (by decide) hi
    rw [hpow, ← upTo_eq_filled h hplace hm]
    exact hfills
  case largest =>
    intro i hhalf
    by_cases hi : i ≤ maxBits
    · have hm : 2 ^ i ≤ maxAsize := Nat.pow_le_pow_right (by decide) hi
      rw [← upTo_eq_filled h hplace hm] at hhalf
      exact hbest.largest i hi hhalf
    · -- so many keys there are not
      have hpow : maxAsize * 2 ≤ 2 ^ i := (Nat.pow_succ ..).symm.trans_le (Nat.pow_le_pow_right (by decide) (Nat.not_le.mp hi))
      have hfew := filled_le h k (2 ^ i)
      omega

theorem LargestHalf.unique {n' : Nat} (h : LargestHalf t k n) (h' : LargestHalf t k n') : n = n' := by
  apply Nat.le_antisymm
  · obtain rfl | ⟨i, rfl, hhalf⟩ := h.filled
    · exact Nat.zero_le _
    · exact h'.largest i hhalf
  · obtain rfl | ⟨i, rfl, hhalf⟩ := h'.filled
    · exact Nat.zero_le _
    · exact h.largest i hhalf

/-! ### A place for the new key -/

/-- What a new key does to a table `t` in which it finds no free node, `t₁` being the table after the search for one. The array part becomes as large as the largest power of two that is filled by more than half. Neither a key that is moved nor the new one rehashes again, and so `newkey` ends. Then the new key has a place, all others have their values, and the integers up to the new size are in the array part. -/
def MakesRoom (t t₁ : Table V) (k : TValue V) : Prop :=
  ∃ n t' t'' p, LargestHalf t k n ∧ rehash newkeyInPlace t₁ k = .ok t' ∧ t'.sizearray = n ∧
    luaHSet newkeyInPlace t' k = .ok (t'', p) ∧ (∀ d, newkey (d + 2) t k = .ok (t'', p)) ∧
    p = t''.place k ∧ p ≠ .nilobject ∧ t''.content = t.content ∧ ∀ k', 0 < index k' → index k' ≤ n → t''.place k' = .array (index k' - 1)

section Full

variable {t₁ : Table V} (h : Valid t) (hk : k ≠ .nil) (hplace : t.place k = .nilobject)
  (htaken : (t.node (mainposition t k)).val ≠ .nil ∨ t.dummy = true) (hnone : getfreepos t = (t₁, none))

include h hk hplace htaken hnone

/-- The search for a free node only loses its place. -/
theorem full_eq : t₁ = t.exhausted ∧ Valid t.exhausted := by
  have hfull : insertFree t k = .inl t₁ := by
    rw [insertFree, if_pos htaken, hnone]
  obtain ⟨t', p, hfree, -⟩ | ⟨-, hexhausted, hfree⟩ := insertFree_cases h hk hplace
  · cases hfull.symm.trans hfree
  · exact ⟨Sum.inl.inj (hfull.symm.trans hfree), hexhausted⟩

omit h hk hplace in
theorem newkey_of_inPlace {t'' : Table V} (hrehash : rehash newkeyInPlace t₁ k = .ok t')
    (hset : luaHSet newkeyInPlace t' k = .ok (t'', p)) (d : Nat) : newkey (d + 2) t k = .ok (t'', p) := by
  have hfull : insertFree t k = .inl t₁ := by
    rw [insertFree, if_pos htaken, hnone]
  rw [newkey, newkeyStep_eq, hfull]
  change (rehash (newkey (d + 1)) t₁ k >>= fun t => luaHSet (newkey (d + 1)) t k) = _
  rw [newkey, rehash_of_inPlace (newkey d) hrehash]
  exact luaHSet_of_inPlace (newkey d) hset

theorem makesRoom_of_room (htotal : t.live + 1 ≤ maxAsize) (hhalf : LargestHalf t k n)
    (hroom : outsiders t k n + beyond t ≤ nodesFor (outsiders t k n)) : MakesRoom t t₁ k := by
  obtain ⟨rfl, hexhausted⟩ := full_eq h hk hplace htaken hnone
  obtain ⟨m, hbest, -⟩ := h.rehash_eq newkeyInPlace hplace
  obtain rfl := (hbest.largestHalf h hplace htotal).unique hhalf
  have hfew := (outsiders_le t k m).trans htotal
  have hsmall : ceillog2 (outsiders t k m) ≤ maxBits := (ceillog2_le (hfew.trans (by decide)) maxBits).mpr hfew
  rw [← rehashInts_exhausted] at hbest
  rw [← outsiders_exhausted] at hsmall hroom
  rw [← beyond_exhausted] at hroom
  obtain ⟨t', hrehash, hresized⟩ := rehash_roomy newkeyInPlace_inserts hexhausted hplace hbest hsmall hroom
  obtain ⟨t'', p, hset, hentered, -, hsize⟩ := hresized.enters newkeyInPlace_inserts hk
  refine ⟨m, t', t'', p, hhalf, hrehash, hresized.sizearray, hset, ?_, hentered.place, hentered.exists_place, ?_, ?_⟩
  · exact newkey_of_inPlace htaken hnone hrehash hset
  · exact hentered.content.trans hresized.content
  · intro k' hpos hle
    refine place_array ⟨hpos, ?_⟩
    rw [hsize, hresized.sizearray]
    exact hle

theorem room_of_makesRoom (htotal : t.live + 1 ≤ maxAsize) (hroom : MakesRoom t t₁ k) :
    ∃ n, LargestHalf t k n ∧ outsiders t k n + beyond t ≤ nodesFor (outsiders t k n) := by
  obtain ⟨rfl, hexhausted⟩ := full_eq h hk hplace htaken hnone
  obtain ⟨-, t', t'', p, -, hrehash, -, hset, -⟩ := hroom
  obtain ⟨m, hbest, -⟩ := h.rehash_eq newkeyInPlace hplace
  have hhalf := hbest.largestHalf h hplace htotal
  rw [← rehashInts_exhausted] at hbest
  have hfits := room_of_inPlace hexhausted hk hplace hbest hrehash hset
  rw [outsiders_exhausted, beyond_exhausted] at hfits
  exact ⟨m, hhalf, hfits⟩

omit hk htaken hnone in
/-- An array part of at most `2^MAXBITS` elements is counted as a whole. -/
theorem room_of_sizearray_le (htotal : t.live + 1 ≤ maxAsize) (hsize : t.sizearray ≤ maxAsize) :
    ∃ n, LargestHalf t k n ∧ outsiders t k n + beyond t ≤ nodesFor (outsiders t k n) := by
  obtain ⟨m, hbest, -⟩ := h.rehash_eq newkeyInPlace hplace
  refine ⟨m, hbest.largestHalf h hplace htotal, ?_⟩
  have hfew := (outsiders_le t k m).trans htotal
  rw [beyond, Nat.sub_eq_zero_of_le hsize]
  exact le_nodesFor (hfew.trans (by decide))

/-- A rehash makes room exactly if the hash part, rounded up to a power of two, takes the elements that were not counted. -/
theorem rehash_makes_room_iff (htotal : t.live + 1 ≤ maxAsize) :
    MakesRoom t t₁ k ↔ ∃ n, LargestHalf t k n ∧ outsiders t k n + beyond t ≤ nodesFor (outsiders t k n) :=
  ⟨room_of_makesRoom h hk hplace htaken hnone htotal,
    fun ⟨_, hhalf, hfits⟩ => makesRoom_of_room h hk hplace htaken hnone htotal hhalf hfits⟩

end Full

/-! ### Array parts without a hash part -/

/-- A table with an empty hash part and an array part of which only the last element has a value. -/
structure OnlyLast (t : Table integers) (n : Nat) : Prop where
  reached : Reached 3 n 0 [.setnum (Int32.ofNat n) (.boolean true)] t
  valid : Valid t
  sizearray : t.sizearray = n
  dummy : t.dummy = true
  free : getfreepos t = (t.exhausted, none)
  live : ∀ {j}, 0 < j → j ≤ n → (t.array.getD (j - 1) .nil ≠ .nil ↔ j = n)

theorem exists_onlyLast {n : Nat} (hpos : 0 < n) (hn : n < 2 ^ 31) : ∃ t, OnlyLast t n := by
  obtain ⟨t₀, hnew, hsize, hdummy, hlast⟩ : ∃ t₀ : Table integers, luaHNew n 0 = .ok t₀ ∧ t₀.sizearray = n ∧
      t₀.dummy = true ∧ t₀.lastfree = 0 := ⟨_, rfl, rfl, rfl, rfl⟩
  obtain ⟨hvalid, hempty⟩ := (Reached.new hnew : Reached 3 n 0 [] t₀).valid hn (by decide)
  have hindex : index (intKey integers n) = n := index_intKey hn
  have hin : t₀.inArray (intKey integers n) := by
    rw [Table.inArray, hindex, hsize]
    omega
  have hplace := placed_array hin
  have happly : (Op.setnum (Int32.ofNat n) (.boolean true)).apply 3 t₀ = .ok (t₀.write (.boolean true) (t₀.place (intKey integers n))) :=
    Op.apply_placed hvalid rfl hplace
  have hreached : Reached 3 n 0 [.setnum (Int32.ofNat n) (.boolean true)] _ := (Reached.new hnew).step trivial happly
  have hwritten := hvalid.write (.boolean true) hplace
  have hsizes := hwritten.sizes
  refine ⟨_, hreached, hwritten.valid, (congrArg Prod.fst hsizes).trans hsize, (congrArg (·.2.2) hsizes).trans hdummy, ?_, ?_⟩
  · rw [place_array hin, getfreepos]
    change getfreeposFrom _ t₀.lastfree.toNat = _
    rw [hlast]
    rfl
  · intro j hj hle
    have hindex' : index (intKey integers j) = j := index_intKey (by omega)
    have hin' : (t₀.write (.boolean true) (t₀.place (intKey integers n))).inArray (intKey integers j) := by
      rw [inArray_of_sizes hsizes, Table.inArray, hindex', hsize]
      omega
    have hread := content_array hin'
    rw [hindex', hwritten.content] at hread
    rw [← hread]
    by_cases heq : j = n
    · rw [heq, Function.update_self]
      exact iff_of_true (by rintro ⟨⟩) rfl
    · have hne : intKey integers j ≠ intKey integers n := fun h => heq (by rw [← hindex', h, hindex])
      rw [Function.update_of_ne hne, hempty]
      exact iff_of_false (not_not.mpr (lastAssigned_nil _)) heq

namespace OnlyLast

variable {t : Table integers} (h : OnlyLast t n)

include h

theorem countSlice_eq {i steps : Nat} (hi : 0 < i) (hle : i + steps ≤ n + 1) :
    countSlice t i steps = if i ≤ n ∧ n < i + steps then 1 else 0 := by
  rw [countSlice_card]
  have hfilter : ((Finset.Ico i (i + steps)).filter fun j => t.array.getD (j - 1) .nil ≠ .nil) =
      if i ≤ n ∧ n < i + steps then {n} else ∅ := by
    ext j
    rw [Finset.mem_filter, Finset.mem_Ico]
    by_cases hj : i ≤ j ∧ j < i + steps
    · rw [h.live (by omega) (by omega)]
      split <;> simp <;> omega
    · split <;> simp <;> omega
  rw [hfilter]
  split <;> rfl

theorem place_of_not_inArray {k : TValue integers} (hk : ¬ t.inArray k) : t.place k = .nilobject :=
  h.valid.place_absent hk fun a ha => by
    rw [(h.valid.blank h.dummy).1 a] at ha
    cases ha

theorem val_eq (a : Nat) : (t.node a).val = .nil := h.valid.vacant ((h.valid.blank h.dummy).1 a)

theorem liveBelow_eq (i : Nat) : liveBelow t i = 0 := by
  rw [liveBelow_card, Finset.filter_false_of_mem fun a _ => not_not.mpr (h.val_eq a)]
  rfl

theorem outsideBelow_eq (m i : Nat) : outsideBelow t m i = 0 := by
  have hle := outsideBelow_le_live t m i
  rw [h.liveBelow_eq] at hle
  exact Nat.le_zero.mp hle

theorem live_le : t.live ≤ 1 := by
  rw [Table.live, h.liveBelow_eq, h.sizearray, h.countSlice_eq Nat.zero_lt_one (by omega)]
  split <;> omega

end OnlyLast

/-- The integers 1 and 2 go to the array part together. -/
theorem rehash_makes_room_iff_two : ∃ t, OnlyLast t 1 ∧ MakesRoom t t.exhausted (integers.num 2) := by
  obtain ⟨t, h⟩ := exists_onlyLast Nat.zero_lt_one (by decide)
  have hplace : t.place (integers.num 2) = .nilobject := h.place_of_not_inArray fun hin => by
    have hle := hin.2
    rw [h.sizearray] at hle
    exact absurd hle (by decide)
  have htotal : t.live + 1 ≤ maxAsize := (Nat.succ_le_succ h.live_le).trans (by decide)
  have hk : integers.num 2 ≠ .nil := by
    rw [integers.num]
    exact nofun
  refine ⟨t, h, (rehash_makes_room_iff h.valid hk hplace (.inr h.dummy) h.free htotal).mpr ?_⟩
  exact room_of_sizearray_le h.valid hplace htotal (h.sizearray.trans_le (by decide))

/-- The element at `2^MAXBITS + 1` is not counted, and takes the node that was meant for the new key. -/
theorem rehash_lacks_room : ∃ t, OnlyLast t (maxAsize + 1) ∧ t.place (integers.str 0) = .nilobject ∧ t.live + 1 ≤ maxAsize ∧
    ¬ MakesRoom t t.exhausted (integers.str 0) := by
  obtain ⟨t, h⟩ := exists_onlyLast (Nat.succ_pos maxAsize) (by decide)
  have hindex : index (integers.str 0) = 0 := index_string (V := integers) _
  have hplace : t.place (integers.str 0) = .nilobject := h.place_of_not_inArray (not_inArray hindex)
  have htotal : t.live + 1 ≤ maxAsize := (Nat.succ_le_succ h.live_le).trans (by decide)
  have hk : integers.str 0 ≠ .nil := by
    rw [integers.str]
    exact nofun
  refine ⟨t, h, hplace, htotal, fun hroom => ?_⟩
  obtain ⟨n, hhalf, hfits⟩ := room_of_makesRoom h.valid hk hplace (.inr h.dummy) h.free htotal hroom
  have hmax : maxAsize = 67108864 := by decide
  have hzero : n = 0 := by
    refine hhalf.filled.resolve_right ?_
    rintro ⟨i, -, hmore⟩
    have hfew := filled_le h.valid (integers.str 0) n
    have hlive := h.live_le
    have hnone : filled t (integers.str 0) n = 0 := by
      rw [filled, Finset.card_eq_zero, Finset.filter_eq_empty_iff]
      rintro j hj ⟨hlt, heq | hval⟩
      · rw [integers.str, intKey] at heq
        cases heq
      · rw [Finset.mem_Icc] at hj
        have hj' : index (intKey integers j) = j := index_intKey hlt
        have hin : t.inArray (intKey integers j) := by
          rw [Table.inArray, hj', h.sizearray]
          omega
        rw [content_array hin, hj'] at hval
        have hlast := (h.live hj.1 (by omega)).mp hval
        omega
    omega
  subst hzero
  have hcounted : outsiders t (integers.str 0) 0 = 1 := by
    rw [outsiders, h.outsideBelow_eq, h.sizearray, h.countSlice_eq Nat.zero_lt_one (by omega), extraRoom, hindex]
    rw [if_neg (by omega), if_neg (by omega)]
  have hbeyond : beyond t = 1 := by
    rw [beyond, h.sizearray, h.countSlice_eq (by omega) (by omega), if_pos (by omega)]
  rw [hcounted, hbeyond] at hfits
  exact absurd hfits (by decide)

end Reading.Lua
