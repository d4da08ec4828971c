import Mathlib.Data.Finmap
import Reading.Clox.Strings

/-!
# The dictionary of the tree-walking interpreter

`ds/dict.c`. A bucket is the list of its pairs from the first on, and a pointer is an option whose `none` is the null pointer. A call has no result where it follows a null pointer or overflows `count`, which is an `int`.

`dict_set` takes what `dict_get` returns, the value, for the pair that holds it, and writes to the value. `size` says how many bytes of an object of the caller there are at a pointer: none at an address of the dictionary itself, or where there is no object. The word that is written is that of `fields` at the value, and there is no result where it is not all inside of the object.
-/

namespace Reading.Clox

structure KeyValuePair (P : Type) where
  key : Chars
  value : Option P
deriving DecidableEq

structure Dictionary (P : Type) where
  buckets : Fin 16 → List (KeyValuePair P) := fun _ => []
  count : Nat := 0

/-- A dictionary, and in what values point to the word that `dict_set` writes. -/
structure DictState (P : Type) where
  dict : Dictionary P := {}
  fields : P → Option P := fun _ => none

variable {P : Type}

/-- The end of `value` in a `KeyValuePair`, where it follows the pointer `key`. -/
def valueEnd : Nat := 16

/-- `hash_code`, where a `char` is signed. -/
def hashCode (key : Chars) : Fin 16 :=
  Fin.ofNat 16 (key.foldl (fun hash c => 31 * hash + c.toBitVec.signExtend 32) 0#32).toNat

def dictGetBucket (d : Dictionary P) (key : Chars) : Option (KeyValuePair P) :=
  if d.count = 0 then none else (d.buckets (hashCode key)).find? fun pair => pair.key = key

def dictContains (d : Dictionary P) (key : Chars) : Bool := (dictGetBucket d key).isSome

def dictGet (d : Dictionary P) (key : Chars) : Option P := (dictGetBucket d key).bind KeyValuePair.value

def dictAdd (d : Dictionary P) (key : Chars) (value : Option P) : Option (Dictionary P × Bool) :=
  if dictContains d key then some (d, false)
  else if d.count = intMax then none
  else
    let buckets := Function.update d.buckets (hashCode key) (⟨key, value⟩ :: d.buckets (hashCode key))
    some ({ buckets := buckets, count := d.count + 1 }, true)

/-- The loop of `dict_remove`, which writes to the pair before the one with the key. -/
def removePair (key : Chars) : Bool → List (KeyValuePair P) → Option (List (KeyValuePair P) × Bool)
  | _, [] => some ([], false)
  | prevBucket, bucket :: rest =>
    if key = bucket.key then if prevBucket then some (rest, true) else none
    else do
      let (rest, removed) ← removePair key true rest
      some (bucket :: rest, removed)

def dictRemove (d : Dictionary P) (key : Chars) : Option (Dictionary P × Bool) := do
  let (bucket, removed) ← removePair key false (d.buckets (hashCode key))
  some ({ d with buckets := Function.update d.buckets (hashCode key) bucket }, removed)

def dictSet [DecidableEq P] (size : P → Nat) (s : DictState P) (key : Chars) (value : Option P) : Option (DictState P × Bool) :=
  match dictGet s.dict key with
  | none => some (s, false)
  | some pair =>
    if size pair < valueEnd then none else some ({ s with fields := Function.update s.fields pair value }, true)

/-! ### Calls -/

inductive DictOp (P : Type) where
  | add (key : Chars) (value : Option P)
  | set (key : Chars) (value : Option P)
  | remove (key : Chars)
  | get (key : Chars)
  | contains (key : Chars)

/-- What a call returns. -/
inductive DictRet (P : Type) where
  | int (b : Bool)
  | ptr (value : Option P)
deriving DecidableEq

def dictExec [DecidableEq P] (size : P → Nat) (s : DictState P) : DictOp P → Option (DictState P × DictRet P)
  | .add key value => do
    let (d, added) ← dictAdd s.dict key value
    some ({ s with dict := d }, .int added)
  | .set key value => do
    let (s, done) ← dictSet size s key value
    some (s, .int done)
  | .remove key => do
    let (d, removed) ← dictRemove s.dict key
    some ({ s with dict := d }, .int removed)
  | .get key => some (s, .ptr (dictGet s.dict key))
  | .contains key => some (s, .int (dictContains s.dict key))

/-! ### The finite map -/

/-- What the dictionary is to be: the keys with the pointers they are bound to. -/
abbrev DictMap (P : Type) := Finmap fun _ : Chars => Option P

/-- The call on the finite map. -/
def DictMap.exec (m : DictMap P) : DictOp P → DictMap P × DictRet P
  | .add key value => if key ∈ m then (m, .int false) else (m.insert key value, .int true)
  | .set key value => if key ∈ m then (m.insert key value, .int true) else (m, .int false)
  | .remove key => (m.erase key, .int (decide (key ∈ m)))
  | .get key => (m, .ptr (m.lookup key).join)
  | .contains key => (m, .int (decide (key ∈ m)))

/-- The dictionary answers as the map, and counts its keys. -/
structure DictAgrees (d : Dictionary P) (m : DictMap P) : Prop where
  get : ∀ key, dictGet d key = (m.lookup key).join
  contains : ∀ key, dictContains d key = decide (key ∈ m)
  count : d.count = m.keys.card

/-- The call stays clear of what `dict_set` and `dict_remove` do to a key that is there: a key may be set only to the pointer that it is bound to, and only if a pair fits where this points to. -/
def DictOp.Clear (size : P → Nat) (m : DictMap P) : DictOp P → Prop
  | .add key _ => key ∉ m → m.keys.card < intMax
  | .set key value => ∀ old, m.lookup key = some old → ∃ pair, old = some pair ∧ value = some pair ∧ valueEnd ≤ size pair
  | .remove key => key ∉ m
  | .get _ | .contains _ => True

/-- The map as it lies in the buckets. -/
structure DictInv (d : Dictionary P) (m : DictMap P) : Prop where
  found : ∀ key, ((d.buckets (hashCode key)).find? fun pair => pair.key = key).map KeyValuePair.value = m.lookup key
  count : d.count = m.keys.card
  bound : d.count ≤ intMax

section Inv

variable {d : Dictionary P} {m : DictMap P} {key : Chars} {value : Option P}

theorem DictInv.getBucket (h : DictInv d m) (key : Chars) : (dictGetBucket d key).map KeyValuePair.value = m.lookup key := by
  rw [dictGetBucket]
  split
  · rename_i hzero
    rw [h.count, Finset.card_eq_zero] at hzero
    have habsent : key ∉ m := by
      rw [← Finmap.mem_keys, hzero]
      exact Finset.notMem_empty key
    rw [Finmap.lookup_eq_none.mpr habsent, Option.map_none]
  · exact h.found key

theorem DictInv.get (h : DictInv d m) (key : Chars) : dictGet d key = (m.lookup key).join := by
  rw [dictGet, ← h.getBucket key]
  cases dictGetBucket d key <;> rfl

theorem DictInv.contains (h : DictInv d m) (key : Chars) : dictContains d key = decide (key ∈ m) := by
  rw [dictContains, ← Option.isSome_map, h.getBucket key]
  by_cases hmem : key ∈ m
  · obtain ⟨value, hvalue⟩ := Finmap.mem_iff.mp hmem
    rw [hvalue, decide_eq_true hmem, Option.isSome_some]
  · rw [Finmap.lookup_eq_none.mpr hmem, decide_eq_false hmem, Option.isSome_none]

theorem DictInv.agrees (h : DictInv d m) : DictAgrees d m := ⟨h.get, h.contains, h.count⟩

theorem keys_insert (m : DictMap P) (key : Chars) (value : Option P) : (m.insert key value).keys = insert key m.keys := by
  ext k
  rw [Finmap.mem_keys, Finmap.mem_insert, Finset.mem_insert, Finmap.mem_keys]

/-- A new pair is the first of its bucket. -/
theorem DictInv.add (h : DictInv d m) (hkey : key ∉ m) (hfull : d.count ≠ intMax) :
    DictInv { buckets := Function.update d.buckets (hashCode key) (⟨key, value⟩ :: d.buckets (hashCode key)), count := d.count + 1 }
      (m.insert key value) := by
  constructor
  · intro k
    by_cases heq : k = key
    · subst heq
      simp [Finmap.lookup_insert]
    · rw [Finmap.lookup_insert_of_ne m heq, ← h.found k]
      by_cases hhash : hashCode k = hashCode key
      · have hne : ¬ key = k := fun h => heq h.symm
        simp [hhash, hne]
      · simp [Function.update_of_ne hhash]
  · rw [keys_insert, Finset.card_insert_of_notMem (by rwa [Finmap.mem_keys]), h.count]
  · exact Nat.lt_of_le_of_ne h.bound hfull

theorem removePair_absent (prevBucket : Bool) {bucket : List (KeyValuePair P)} (h : ∀ pair ∈ bucket, pair.key ≠ key) :
    removePair key prevBucket bucket = some (bucket, false) := by
  induction bucket generalizing prevBucket with
  | nil => rfl
  | cons pair rest ih =>
    have hne : ¬ key = pair.key := fun heq => h pair List.mem_cons_self heq.symm
    simp [removePair, hne, ih true fun p hp => h p (List.mem_cons_of_mem _ hp)]

theorem DictInv.remove_absent (h : DictInv d m) (hkey : key ∉ m) : dictRemove d key = some (d, false) := by
  have hnone := h.found key
  rw [Finmap.lookup_eq_none.mpr hkey, Option.map_eq_none_iff, List.find?_eq_none] at hnone
  rw [dictRemove, removePair_absent false fun pair hpair => by simpa using hnone pair hpair]
  simp

theorem DictInv.add_spec (h : DictInv d m) :
    (key ∈ m ∧ dictAdd d key value = some (d, false)) ∨ (key ∉ m ∧ d.count = intMax ∧ dictAdd d key value = none) ∨
      ∃ d', key ∉ m ∧ d.count ≠ intMax ∧ dictAdd d key value = some (d', true) ∧ DictInv d' (m.insert key value) := by
  by_cases hkey : key ∈ m
  · left
    refine ⟨hkey, ?_⟩
    simp [dictAdd, h.contains key, hkey]
  · right
    by_cases hfull : d.count = intMax
    · left
      refine ⟨hkey, hfull, ?_⟩
      simp [dictAdd, h.contains key, hkey, hfull]
    · right
      refine ⟨_, hkey, hfull, ?_, h.add hkey hfull⟩
      simp [dictAdd, h.contains key, hkey, hfull]

end Inv

/-! ### Runs -/

section Runs

variable [DecidableEq P] {size : P → Nat} {s : DictState P} {m : DictMap P}

/-- A call that stays clear of the two faults is the call on the map. -/
theorem DictInv.exec (h : DictInv s.dict m) {op : DictOp P} (hclear : op.Clear size m) :
    ∃ s', dictExec size s op = some (s', (m.exec op).2) ∧ DictInv s'.dict (m.exec op).1 := by
  cases op with
  | add key value =>
    obtain ⟨hkey, hadd⟩ | ⟨hkey, hfull, -⟩ | ⟨d', hkey, -, hadd, hinv⟩ := @DictInv.add_spec P s.dict m key value h
    · refine ⟨s, ?_, ?_⟩
      · simp [dictExec, hadd, DictMap.exec, hkey]
      · simpa [DictMap.exec, hkey] using h
    · rw [h.count] at hfull
      exact absurd hfull (Nat.ne_of_lt (hclear hkey))
    · refine ⟨{ s with dict := d' }, ?_, ?_⟩
      · simp [dictExec, hadd, DictMap.exec, hkey]
      · simpa [DictMap.exec, hkey] using hinv
  | set key value =>
    cases hold : m.lookup key with
    | none =>
      have hkey : key ∉ m := Finmap.lookup_eq_none.mp hold
      refine ⟨s, ?_, ?_⟩
      · simp [dictExec, dictSet, h.get key, hold, DictMap.exec, hkey]
      · simpa [DictMap.exec, hkey] using h
    | some old =>
      obtain ⟨pair, rfl, rfl, hsize⟩ := hclear old hold
      have hkey : key ∈ m := Finmap.mem_iff.mpr ⟨_, hold⟩
      have hsame : m.insert key (some pair) = m := by
        apply Finmap.ext_lookup
        intro k
        by_cases heq : k = key
        · rw [heq, Finmap.lookup_insert, hold]
        · rw [Finmap.lookup_insert_of_ne m heq]
      refine ⟨{ s with fields := Function.update s.fields pair (some pair) }, ?_, ?_⟩
      · simp [dictExec, dictSet, h.get key, hold, DictMap.exec, hkey, Nat.not_lt.mpr hsize]
      · simpa [DictMap.exec, hkey, hsame] using h
  | remove key =>
    refine ⟨s, ?_, ?_⟩
    · simp [dictExec, h.remove_absent hclear, DictMap.exec, show key ∉ m from hclear]
    · have hsame : m.erase key = m := by
        apply Finmap.ext_lookup
        intro k
        by_cases heq : k = key
        · rw [heq, Finmap.lookup_erase, Finmap.lookup_eq_none.mpr hclear]
        · rw [Finmap.lookup_erase_ne heq]
      simpa [DictMap.exec, hsame] using h
  | get key =>
    refine ⟨s, ?_, h⟩
    simp [dictExec, DictMap.exec, h.get key]
  | contains key =>
    refine ⟨s, ?_, h⟩
    simp [dictExec, DictMap.exec, h.contains key]

omit [DecidableEq P] in
theorem dictRemove_count {d d' : Dictionary P} {key : Chars} {removed : Bool} (h : dictRemove d key = some (d', removed)) :
    d'.count = d.count := by
  rw [dictRemove] at h
  obtain ⟨⟨bucket, r⟩, -, heq⟩ := Option.bind_eq_some_iff.mp h
  cases heq
  rfl

/-- A call that agrees with the map stays clear of the two faults. -/
theorem DictInv.clear (h : DictInv s.dict m) {op : DictOp P} {s' : DictState P} (hexec : dictExec size s op = some (s', (m.exec op).2))
    (hagrees : DictAgrees s'.dict (m.exec op).1) : op.Clear size m := by
  cases op with
  | add key value =>
    intro hkey
    obtain ⟨hkey', -⟩ | ⟨-, -, hadd⟩ | ⟨d', -, hfull, hadd, -⟩ := @DictInv.add_spec P s.dict m key value h
    · exact absurd hkey' hkey
    · simp [dictExec, hadd] at hexec
    · rw [← h.count]
      exact Nat.lt_of_le_of_ne h.bound hfull
  | set key value =>
    intro old hold
    have hkey : key ∈ m := Finmap.mem_iff.mpr ⟨_, hold⟩
    have hget := hagrees.get key
    simp only [DictMap.exec, hkey, if_true] at hget hexec
    rw [Finmap.lookup_insert] at hget
    cases old with
    | none => simp [dictExec, dictSet, h.get key, hold] at hexec
    | some pair =>
      simp only [dictExec, dictSet, h.get key, hold, Option.join_some] at hexec
      by_cases hsize : size pair < valueEnd
      · simp [hsize] at hexec
      · simp only [if_neg hsize, Option.bind_eq_bind, Option.bind_some, Option.some.injEq, Prod.mk.injEq, and_true] at hexec
        rw [← hexec, h.get key, hold] at hget
        exact ⟨pair, rfl, hget.symm, Nat.not_lt.mp hsize⟩
  | remove key =>
    intro hkey
    have hcount := hagrees.count
    rw [dictExec] at hexec
    obtain ⟨⟨d', removed⟩, hremove, heq⟩ := Option.bind_eq_some_iff.mp hexec
    cases heq
    -- The key is gone from the map and `count` is as before.
    rw [dictRemove_count hremove, h.count] at hcount
    have herase : (m.erase key).keys.card < m.keys.card := by
      rw [Finmap.keys_erase]
      exact Finset.card_erase_lt_of_mem (Finmap.mem_keys.mpr hkey)
    exact absurd hcount (Nat.ne_of_gt herase)
  | get key => trivial
  | contains key => trivial

end Runs

end Reading.Clox
