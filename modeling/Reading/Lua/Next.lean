import Mathlib.Algebra.Group.Int.Defs
import Reading.Lib.Sweep
import Reading.Lua.Map

/-!
# Traversals

`luaH_next` finds the position of the key it is given by a lookup and goes on from there, through the array part first and then through the nodes. The positions are numbered as `findindex` numbers them, with an `int`, and an assignment to a field that has a place changes no position, so a traversal is a sweep over the positions. The one thing that ends it early is a sum of the two sizes that no `int` holds. Keys of nodes die by collection only, which is left out.
-/

namespace Reading.Lua

open Lib (searchFrom FirstFrom firstFrom firstFrom_spec Sweep sweep_snoc)

variable {V : Values}

def maxInt : Int := 2 ^ 31 - 1

/-- How a call of `luaH_next` fails: by its error, by an `int` that overflows, or in a chain without an end. -/
inductive NextStop where
  | invalidKey
  | overflow
  | stuck
  deriving DecidableEq

def findindex (t : Table V) (key : TValue V) : Except NextStop Int :=
  if key = .nil then .ok (-1)
  else
    let i := arrayindex key
    if 0 < i ∧ i.toInt ≤ t.sizearray then .ok (i.toInt - 1)
    else
      match searchFrom (fun n => (t.node n).next) (fun n => (t.node n).key = key) t.sizenode (mainposition t key) with
      | some (some n) => if maxInt < n + t.sizearray then .error .overflow else .ok (n + t.sizearray)
      | some none => .error .invalidKey
      | none => .error .stuck

def luaHNext (t : Table V) (key : TValue V) : Except NextStop (Option (TValue V × TValue V)) := do
  let i ← findindex t key
  if maxInt < i + 1 then .error .overflow
  else
    let i := (i + 1).toNat
    let i := firstFrom (fun i => t.array.getD i .nil ≠ .nil) i (t.sizearray - i)
    if i < t.sizearray then .ok (some (.number (V.castNum (Int32.ofNat (i + 1))), t.array.getD i .nil))
    else
      let i := i - t.sizearray
      let i := firstFrom (fun i => (t.node i).val ≠ .nil) i (t.sizenode - i)
      if i < t.sizenode then .ok (some ((t.node i).key, (t.node i).val)) else .ok none

variable {t t' t₀ : Table V} {k key v : TValue V} {a d : Nat}

/-! ### Positions -/

/-- The index of a key with a place, as `findindex` numbers them. -/
def Table.position (t : Table V) (k : TValue V) : Nat :=
  match t.place k with
  | .nilobject => 0
  | .array i => i
  | .node a => t.sizearray + a

def Table.positions (t : Table V) : Nat := t.sizearray + t.sizenode

theorem position_array (hin : t.inArray k) : t.position k = index k - 1 := by
  rw [Table.position, place_array hin]

theorem Valid.position_node (h : Valid t) (ha : keyAt t a = some k) : t.position k = t.sizearray + a := by
  rw [Table.position, h.place_node ha]

theorem Valid.position_lt (h : Valid t) (hp : t.place k ≠ .nilobject) : t.position k < t.positions := by
  rw [Table.positions]
  obtain hin | ⟨a, ha⟩ := h.placed_cases hp
  · have hpos := hin.1
    have hle := hin.2
    rw [position_array hin]
    omega
  · have hlt := h.inside (a := a) (by simp [ha])
    rw [h.position_node ha]
    omega

/-- No two keys have the same position. -/
theorem Valid.position_inj (h : Valid t) {k' : TValue V} (hp : t.place k ≠ .nilobject) (hp' : t.place k' ≠ .nilobject)
    (heq : t.position k = t.position k') : k = k' := by
  obtain hin | ⟨a, ha⟩ := h.placed_cases hp <;> obtain hin' | ⟨a', ha'⟩ := h.placed_cases hp'
  · rw [position_array hin, position_array hin'] at heq
    have hpos := hin.1
    have hpos' := hin'.1
    exact index_inj hpos (by omega)
  · rw [position_array hin, h.position_node ha'] at heq
    have hpos := hin.1
    have hle := hin.2
    omega
  · rw [h.position_node ha, position_array hin'] at heq
    have hpos := hin'.1
    have hle := hin'.2
    omega
  · rw [h.position_node ha, h.position_node ha'] at heq
    obtain rfl : a = a' := by omega
    exact Option.some.inj (ha.symm.trans ha')

/-- The key of an element of the array part. -/
theorem Valid.inArray_intKey (h : Valid t) {i : Nat} (hi : i < t.sizearray) :
    t.inArray (intKey V (i + 1)) ∧ index (intKey V (i + 1)) = i + 1 := by
  have hbound := h.sizearray_lt
  have hindex : index (intKey V (i + 1)) = i + 1 := index_intKey (by omega)
  refine ⟨?_, hindex⟩
  rw [Table.inArray, hindex]
  omega

/-! ### One call -/

/-- The first position a call looks at when it is given this key. -/
def Table.behind (t : Table V) (key : TValue V) : Nat := if key = .nil then 0 else t.position key + 1

@[simp] theorem behind_nil (t : Table V) : t.behind .nil = 0 := if_pos rfl

theorem positive_arrayindex (k : TValue V) : 0 < arrayindex k ∧ (arrayindex k).toInt ≤ t.sizearray ↔ t.inArray k := by
  rw [Table.inArray, index, Int32.lt_iff_toInt_lt]
  change 0 < (arrayindex k).toInt ∧ _ ↔ _
  omega

theorem Valid.findindex_eq (h : Valid t) (hp : t.place key ≠ .nilobject) :
    findindex t key = if maxInt < t.position key then .error .overflow else .ok (t.position key : Int) := by
  have hkey : key ≠ .nil := by
    rintro rfl
    exact hp (place_nil h)
  rw [findindex, if_neg hkey]
  simp only [positive_arrayindex]
  obtain hin | ⟨a, ha⟩ := h.placed_cases hp
  · have hpos := hin.1
    have hbound := h.sizearray_lt
    have hle := hin.2
    have hindex : (arrayindex key).toInt - 1 = ((index key - 1 : Nat) : Int) := by
      rw [index] at hpos ⊢
      omega
    rw [if_pos hin, position_array hin, hindex, if_neg]
    rw [maxInt]
    omega
  · have hcell : ∀ b, decide ((t.node b).key = key) = true ↔ keyAt t b = some key := by
      intro b
      rw [decide_eq_true_eq, keyAt_eq_some]
      exact ⟨fun heq => ⟨heq, hkey⟩, And.left⟩
    have hs : ∀ {b}, keyAt t b ≠ none → b ∈ Finset.range t.sizenode := fun hb => Finset.mem_range.mpr (h.inside hb)
    have hhome : mainposition t key ∈ Finset.range t.sizenode := Finset.mem_range.mpr (mainposition_lt t key)
    have hsearch : searchFrom (fun n => (t.node n).next) (fun n => decide ((t.node n).key = key)) t.sizenode _ = _ :=
      h.scattered.search_found hs hcell hhome (Finset.card_range _).le ha
    rw [if_neg (h.outside ha), hsearch, h.position_node ha]
    push_cast
    rw [Int.add_comm a]

/-- What a call that looks at the positions from `first` on returns. -/
inductive Next (t : Table V) (first : Nat) : Option (TValue V × TValue V) → Prop
  | last (hrest : ∀ k, t.place k ≠ .nilobject → first ≤ t.position k → t.content k = .nil) : Next t first none
  | key {k : TValue V} (hplace : t.place k ≠ .nilobject) (hfirst : first ≤ t.position k) (hlive : t.content k ≠ .nil)
      (hskipped : ∀ k', t.place k' ≠ .nilobject → first ≤ t.position k' → t.position k' < t.position k → t.content k' = .nil) :
      Next t first (some (k, t.content k))

/-- The loop over the array part has skipped keys without a value. -/
theorem skipped_array {i r : Nat} (hskip : FirstFrom (fun i => t.array.getD i .nil ≠ .nil) i (i + (t.sizearray - i)) r)
    (hin : t.inArray k) (hi : i ≤ t.position k) (hr : t.position k < r) : t.content k = .nil := by
  rw [content_array hin]
  rw [position_array hin] at hi hr
  exact not_not.mp (hskip.dead hi hr)

/-- The loop over the nodes has skipped keys without a value. -/
theorem Valid.skipped_node (h : Valid t) {i r : Nat} (hskip : FirstFrom (fun i => (t.node i).val ≠ .nil) i (i + (t.sizenode - i)) r)
    (ha : keyAt t a = some k) (hi : i ≤ a) (hr : a < r) : t.content k = .nil := by
  rw [h.content_node ha]
  exact not_not.mp (hskip.dead hi hr)

theorem Valid.luaHNext_spec (h : Valid t) (hkey : key = .nil ∨ t.place key ≠ .nilobject)
    (hfit : key ≠ .nil → t.position key < maxInt) : ∃ r, luaHNext t key = .ok r ∧ Next t (t.behind key) r := by
  have hindex : ∃ i : Int, findindex t key = .ok i ∧ ¬ maxInt < i + 1 ∧ (i + 1).toNat = t.behind key := by
    rw [Table.behind]
    by_cases hnil : key = .nil
    · refine ⟨-1, ?_, by decide, ?_⟩
      · rw [findindex, if_pos hnil]
      · rw [if_pos hnil]
        rfl
    · have hfit := hfit hnil
      refine ⟨t.position key, ?_, by omega, ?_⟩
      · rw [h.findindex_eq (hkey.resolve_left hnil), if_neg (by omega)]
      · rw [if_neg hnil]
        rfl
  obtain ⟨i, hfind, hfit, hi⟩ := hindex
  rw [luaHNext, hfind]
  simp only [bind, Except.bind, if_neg hfit, hi]
  generalize t.behind key = first
  have hskip := firstFrom_spec (fun i => t.array.getD i .nil ≠ .nil) first (t.sizearray - first)
  generalize firstFrom (fun i => t.array.getD i .nil ≠ .nil) first (t.sizearray - first) = r at hskip
  have hr := hskip.from_le
  have hrle := hskip.le_bound
  by_cases harray : r < t.sizearray
  · rw [if_pos harray]
    obtain ⟨hin, hindex⟩ := h.inArray_intKey harray
    have hpos : t.position (intKey V (r + 1)) = r := by
      rw [position_array hin, hindex]
      rfl
    have hcontent : t.content (intKey V (r + 1)) = t.array.getD r .nil := by
      rw [content_array hin, hindex]
      rfl
    refine ⟨_, rfl, ?_⟩
    rw [← hcontent]
    refine .key (k := intKey V (r + 1)) (placed_array hin) (hpos.symm ▸ hr) ?_ fun k' hp' hfirst hlt => ?_
    · rw [hcontent]
      exact hskip.live (by omega)
    · rw [hpos] at hlt
      obtain hin' | ⟨a, ha⟩ := h.placed_cases hp'
      · exact skipped_array hskip hin' hfirst hlt
      · rw [h.position_node ha] at hlt
        omega
  · rw [if_neg harray]
    have hskip' := firstFrom_spec (fun i => (t.node i).val ≠ .nil) (r - t.sizearray) (t.sizenode - (r - t.sizearray))
    generalize firstFrom (fun i => (t.node i).val ≠ .nil) (r - t.sizearray) (t.sizenode - (r - t.sizearray)) = n at hskip'
    have hn := hskip'.from_le
    have hnle := hskip'.le_bound
    -- Every key from the first position on and in front of the node `n` was skipped by one of the loops.
    have hpassed : ∀ k', t.place k' ≠ .nilobject → first ≤ t.position k' → t.position k' < t.sizearray + n →
        t.content k' = .nil := by
      intro k' hp' hfirst hlt
      obtain hin' | ⟨a, ha⟩ := h.placed_cases hp'
      · refine skipped_array hskip hin' hfirst ?_
        have hpos := hin'.1
        have hle := hin'.2
        rw [position_array hin']
        omega
      · rw [h.position_node ha] at hfirst hlt
        exact h.skipped_node hskip' ha (by omega) (by omega)
    by_cases hnode : n < t.sizenode
    · rw [if_pos hnode]
      have hlive := hskip'.live (by omega)
      have ha : keyAt t n = some (t.node n).key := keyAt_eq_some.mpr ⟨rfl, fun hnil => hlive (h.vacant (keyAt_eq_none.mpr hnil))⟩
      have hpos := h.position_node ha
      refine ⟨_, rfl, ?_⟩
      rw [← h.content_node ha]
      refine .key (h.placed_node ha) ?_ ?_ fun k' hp' hfirst hlt => hpassed k' hp' hfirst (hpos ▸ hlt)
      · rw [hpos]
        omega
      · rw [h.content_node ha]
        exact hlive
    · rw [if_neg hnode]
      refine ⟨_, rfl, .last fun k' hp' hfirst => hpassed k' hp' hfirst ?_⟩
      have hlt := h.position_lt hp'
      rw [Table.positions] at hlt
      omega

/-- The key was at a position whose successor no `int` holds. -/
theorem Valid.luaHNext_overflow (h : Valid t) (hp : t.place key ≠ .nilobject) (hfar : maxInt ≤ t.position key) :
    luaHNext t key = .error .overflow := by
  rw [luaHNext, h.findindex_eq hp]
  by_cases hover : maxInt < t.position key
  · rw [if_pos hover]
    rfl
  · rw [if_neg hover]
    exact if_pos (show maxInt < (t.position key : Int) + 1 by omega)

/-! ### Assignments between two calls -/

/-- Assignments to keys that have a place. -/
inductive Assigned (d : Nat) (t : Table V) : Table V → Prop
  | refl : Assigned d t t
  | step {t' t'' : Table V} {op : Op V} {k v : TValue V} (h : Assigned d t t') (hop : op.assignment = some (k, v))
      (hplace : t'.place k ≠ .nilobject) (happly : op.apply d t' = .ok t'') : Assigned d t t''

/-- A table with the same keys at the same positions. -/
structure SameKeys (t t' : Table V) : Prop where
  valid : Valid t'
  sizes : t'.sizes = t.sizes
  keys : keyAt t' = keyAt t

theorem keyAt_write (t : Table V) (v : TValue V) (p : Slot) : keyAt (t.write v p) = keyAt t := by
  cases p with
  | nilobject => rfl
  | array i => rfl
  | node a => exact keyAt_setNode_same t rfl

theorem Assigned.sameKeys (h : Assigned d t t') (hvalid : Valid t) : SameKeys t t' := by
  induction h with
  | refl => exact ⟨hvalid, rfl, rfl⟩
  | @step t' t'' op k v _ hop hplace happly ih =>
    have hwritten := ih.valid.write v hplace
    rw [Op.apply_placed ih.valid hop hplace] at happly
    cases happly
    exact ⟨hwritten.valid, hwritten.sizes.trans ih.sizes, (keyAt_write t' v _).trans ih.keys⟩

namespace SameKeys

theorem trans {t'' : Table V} (h : SameKeys t t') (h' : SameKeys t' t'') : SameKeys t t'' :=
  ⟨h'.valid, h'.sizes.trans h.sizes, h'.keys.trans h.keys⟩

variable (h : SameKeys t t')

include h

theorem sizearray : t'.sizearray = t.sizearray := congrArg Prod.fst h.sizes

theorem place : t'.place = t.place := by
  funext k
  have hin := inArray_congr (k := k) h.sizearray
  rw [Table.place, Table.place, Table.find, Table.find, h.keys, sizenode_of_sizes h.sizes]
  simp only [hin]

theorem position : t'.position = t.position := by
  funext k
  rw [Table.position, Table.position, h.place, h.sizearray]

theorem positions : t'.positions = t.positions := by
  rw [Table.positions, Table.positions, h.sizearray, sizenode_of_sizes h.sizes]

end SameKeys

/-! ### Traversals -/

/-- A call of `luaH_next`: the table it finds and the key it is given. -/
structure Call (V : Values) where
  table : Table V
  key : TValue V

namespace Call

def result (c : Call V) : Except NextStop (Option (TValue V × TValue V)) := luaHNext c.table c.key

/-- The key that the call returns. -/
def returned (c : Call V) : Option (TValue V) :=
  match c.result with
  | .ok (some (k, _)) => some k
  | _ => none

/-- The positions a call passes begin behind the key it is given. -/
def first (c : Call V) : Nat := c.table.behind c.key

/-- They end with the key it returns, and with the last one if it returns none. -/
def bound (c : Call V) : Nat :=
  match c.returned with
  | some k => c.table.position k + 1
  | none => c.table.positions

def Passes (k : TValue V) (c : Call V) : Prop := c.first ≤ c.table.position k ∧ c.table.position k < c.bound

instance (k : TValue V) (c : Call V) : Decidable (c.Passes k) := inferInstanceAs (Decidable (_ ∧ _))

end Call

/-- The calls of a traversal that was begun on the table `t₀`: the first one is given nil and each other one the key that the one before it returned, and fields that have a place are assigned to at any time. -/
inductive Traversal (d : Nat) (t₀ : Table V) : List (Call V) → Prop
  | start {t : Table V} (ht : Assigned d t₀ t) : Traversal d t₀ [⟨t, .nil⟩]
  | next {calls : List (Call V)} {c : Call V} {t : Table V} {k : TValue V} (h : Traversal d t₀ (calls ++ [c]))
      (hreturned : c.returned = some k) (ht : Assigned d c.table t) : Traversal d t₀ (calls ++ [c] ++ [⟨t, k⟩])

/-- An `int` holds the number of every position that has a key, and the one behind it. -/
def Table.Numbered (t : Table V) : Prop := ∀ a, keyAt t a ≠ none → t.sizearray + a < maxInt

/-- What a traversal should do. Every call returns; there is one call for each position at most, and one that finds the end; a key comes with its value; and where the end was found, exactly one call passed the position of each key, and the traversal returned the key there, and once, if its value was not nil. -/
structure Sound (t₀ : Table V) (calls : List (Call V)) : Prop where
  returns : ∀ c ∈ calls, ∃ r, c.result = .ok r
  ends : calls.length ≤ t₀.positions + 1
  live : ∀ c ∈ calls, ∀ {k v}, c.result = .ok (some (k, v)) → t₀.place k ≠ .nilobject ∧ v = c.table.content k ∧ v ≠ .nil
  once : ∀ {before c}, calls = before ++ [c] → c.result = .ok none → ∀ k, t₀.place k ≠ .nilobject →
    ∃ c, calls.filter (fun c => c.Passes k) = [c] ∧
      calls.filter (fun c => c.returned = some k) = if c.table.content k = .nil then [] else [c]

/-- A call on a table with the keys of `t₀` that was given nil or one of these keys. -/
structure Call.Given (t₀ : Table V) (c : Call V) : Prop where
  same : SameKeys t₀ c.table
  key : c.key = .nil ∨ t₀.place c.key ≠ .nilobject

namespace Call.Given

variable {c : Call V} (h : c.Given t₀)

include h

theorem next_of_lt (hfit : c.key ≠ .nil → t₀.position c.key < maxInt) :
    ∃ r, c.result = .ok r ∧ Next c.table c.first r := by
  have hkey := h.key
  rw [← h.same.place] at hkey
  rw [← h.same.position] at hfit
  exact h.same.valid.luaHNext_spec hkey hfit

theorem next (hvalid : Valid t₀) (hnumbered : t₀.Numbered) : ∃ r, c.result = .ok r ∧ Next c.table c.first r := by
  refine h.next_of_lt fun hnil => ?_
  obtain hin | ⟨a, ha⟩ := hvalid.placed_cases (h.key.resolve_left hnil)
  · have hpos := hin.1
    have hle := hin.2
    have hbound := hvalid.sizearray_lt
    rw [position_array hin, maxInt]
    omega
  · have hfar := hnumbered a (by simp [ha])
    rw [hvalid.position_node ha]
    push_cast
    exact hfar

theorem first_le (hvalid : Valid t₀) : c.first ≤ t₀.positions := by
  rw [Call.first, Table.behind]
  split
  case isTrue => exact Nat.zero_le _
  case isFalse hnil =>
    rw [h.same.position]
    exact hvalid.position_lt (h.key.resolve_left hnil)

end Call.Given

section Bounds

variable {c : Call V}

theorem Call.bound_of_returned (h : c.returned = some k) : c.bound = c.table.position k + 1 := by
  rw [Call.bound, h]

theorem Call.returned_of_result (h : c.result = .ok (some (k, v))) : c.returned = some k := by
  rw [Call.returned, h]

theorem Call.result_of_returned (h : c.returned = some k) : ∃ v, c.result = .ok (some (k, v)) := by
  rw [Call.returned] at h
  cases hres : c.result with
  | error e =>
    rw [hres] at h
    cases h
  | ok r =>
    rw [hres] at h
    cases r with
    | none => cases h
    | some kv =>
      cases h
      exact ⟨kv.2, rfl⟩

theorem Call.bound_of_last (h : c.result = .ok none) : c.bound = c.table.positions := by
  rw [Call.bound, Call.returned, h]

end Bounds

/-- The call passes the key it returns, and of the keys it passes it returns the one that has a value. -/
theorem Next.passes {c : Call V} {r : Option (TValue V × TValue V)} (hvalid : Valid c.table) (h : Next c.table c.first r)
    (hres : c.result = .ok r) (hp : c.table.place k ≠ .nilobject) :
    (c.returned = some k → c.Passes k) ∧ (c.Passes k → (c.returned = some k ↔ c.table.content k ≠ .nil)) := by
  cases h with
  | last hrest =>
    have hreturned : c.returned = none := by
      rw [Call.returned, hres]
    rw [hreturned]
    refine ⟨nofun, fun hpasses => ⟨nofun, fun hlive => ?_⟩⟩
    exact absurd (hrest k hp hpasses.1) hlive
  | @key k' hplace hfirst hlive hskipped =>
    have hreturned := Call.returned_of_result hres
    have hbound := Call.bound_of_returned hreturned
    rw [hreturned, Call.Passes, hbound, Option.some.injEq]
    constructor
    · rintro rfl
      exact ⟨hfirst, Nat.lt_succ_self _⟩
    · intro hpasses
      constructor
      · rintro rfl
        exact hlive
      · intro hk
        by_contra hne
        have hpos : c.table.position k ≠ c.table.position k' := fun heq => hne (hvalid.position_inj hp hplace heq).symm
        exact hk (hskipped k hp hpasses.1 (by omega))

/-- What every run of calls keeps: all calls but the last one make a sweep that comes to where the last one begins. -/
theorem Traversal.sweep {calls : List (Call V)} (hvalid : Valid t₀) (hnumbered : t₀.Numbered) (h : Traversal d t₀ calls) :
    (∀ c ∈ calls, c.Given t₀) ∧
      ∃ before c, calls = before ++ [c] ∧ Sweep Call.first Call.bound 0 before c.first ∧
        ∀ c' ∈ before, c'.first < c'.bound := by
  induction h with
  | start ht =>
    have hsame := ht.sameKeys hvalid
    refine ⟨?_, [], _, rfl, (behind_nil _).symm, nofun⟩
    intro c hc
    rw [List.mem_singleton] at hc
    rw [hc]
    exact ⟨hsame, .inl rfl⟩
  | @next calls c t k _ hreturned ht ih =>
    obtain ⟨hgiven, before, c', heq, hsweep, hmoved⟩ := ih
    obtain ⟨rfl, hcc'⟩ := List.append_inj' heq rfl
    obtain rfl : c = c' := List.singleton_inj.mp hcc'
    have hc := hgiven c (by simp)
    obtain ⟨v, hres⟩ := Call.result_of_returned hreturned
    obtain ⟨r, hres', hnext⟩ := hc.next hvalid hnumbered
    have hkv : r = some (k, v) := Except.ok.inj (hres'.symm.trans hres)
    subst hkv
    cases hnext with
    | key hplace hfirst hlive _ =>
    have hsame := ht.sameKeys hc.same.valid
    have hbound := Call.bound_of_returned hreturned
    have hnil : k ≠ .nil := by
      rintro rfl
      exact hplace (place_nil hc.same.valid)
    have hbehind : (⟨t, k⟩ : Call V).first = c.bound := by
      rw [hbound, Call.first, Table.behind, if_neg hnil, hsame.position]
    refine ⟨?_, calls ++ [c], ⟨t, k⟩, rfl, ?_, ?_⟩
    · intro d hd
      rw [List.mem_append, List.mem_singleton] at hd
      obtain hd | rfl := hd
      · exact hgiven d hd
      · exact ⟨hc.same.trans hsame, .inr (by rw [← hc.same.place]; exact hplace)⟩
    · rw [sweep_snoc]
      exact ⟨hsweep, by omega, hbehind.symm⟩
    · intro d hd
      rw [List.mem_append, List.mem_singleton] at hd
      obtain hd | rfl := hd
      · exact hmoved d hd
      · omega

theorem Traversal.sound {calls : List (Call V)} (hvalid : Valid t₀) (hnumbered : t₀.Numbered)
    (h : Traversal d t₀ calls) : Sound t₀ calls := by
  obtain ⟨hgiven, before, last, heq, hsweep, hmoved⟩ := h.sweep hvalid hnumbered
  have hlast := hgiven last (by simp [heq])
  constructor
  case returns =>
    intro c hc
    obtain ⟨r, hres, -⟩ := (hgiven c hc).next hvalid hnumbered
    exact ⟨r, hres⟩
  case ends =>
    have hlength := hsweep.length_le hmoved
    have hfirst := hlast.first_le hvalid
    rw [heq, List.length_append, List.length_singleton]
    omega
  case live =>
    intro c hc k v hres
    have hgood := hgiven c hc
    obtain ⟨r, hres', hnext⟩ := hgood.next hvalid hnumbered
    have hkv : r = some (k, v) := Except.ok.inj (hres'.symm.trans hres)
    subst hkv
    cases hnext with
    | key hplace _ hlive _ =>
    rw [hgood.same.place] at hplace
    exact ⟨hplace, rfl, hlive⟩
  case once =>
    intro before' last' heq' hend k hp
    obtain ⟨rfl, hcc'⟩ := List.append_inj' (heq.symm.trans heq') rfl
    obtain rfl : last = last' := List.singleton_inj.mp hcc'
    have hpos : ∀ c ∈ calls, c.table.position k = t₀.position k := fun c hc => by rw [(hgiven c hc).same.position]
    -- The last call passes what is left, so the sweep comes to the end.
    have hwhole : Sweep Call.first Call.bound 0 calls t₀.positions := by
      rw [heq, sweep_snoc, Call.bound_of_last hend, hlast.same.positions]
      exact ⟨hsweep, hlast.first_le hvalid, rfl⟩
    obtain ⟨c, hc, hfirst, hbound, hfilter⟩ := hwhole.filter_eq (Nat.zero_le _) (hvalid.position_lt hp)
    have hpasses : calls.filter (fun c => c.Passes k) = [c] := by
      rw [← hfilter]
      refine List.filter_congr fun d hd => ?_
      simp only [Call.Passes, hpos d hd]
    refine ⟨c, hpasses, ?_⟩
    have hspec : ∀ d ∈ calls, (d.returned = some k → d.Passes k) ∧
        (d.Passes k → (d.returned = some k ↔ d.table.content k ≠ .nil)) := by
      intro d hd
      obtain ⟨r, hres, hnext⟩ := (hgiven d hd).next hvalid hnumbered
      exact hnext.passes (hgiven d hd).same.valid hres (by rw [(hgiven d hd).same.place]; exact hp)
    have hboth : calls.filter (fun c => c.returned = some k) = [c].filter (fun c => c.returned = some k) := by
      rw [← hpasses, List.filter_filter]
      refine List.filter_congr fun d hd => ?_
      have hd := (hspec d hd).1
      by_cases hreturned : d.returned = some k
      · simp [hreturned, hd hreturned]
      · simp [hreturned]
    have hreturned := (hspec c hc).2 (by rw [Call.Passes, hpos c hc]; exact ⟨hfirst, hbound⟩)
    rw [hboth]
    by_cases hlive : c.table.content k = .nil
    · rw [if_pos hlive, List.filter_cons_of_neg, List.filter_nil]
      simpa using fun h => hreturned.mp h hlive
    · rw [if_neg hlive, List.filter_cons_of_pos, List.filter_nil]
      simpa using hreturned.mpr hlive

/-- As long as a key behind has a value and the numbers fit, a traversal goes on; past the largest `int` it fails. -/
theorem Traversal.overflows (hvalid : Valid t₀) (hp : t₀.place k ≠ .nilobject) (hfar : maxInt ≤ t₀.position k)
    {before : List (Call V)} {c : Call V} (h : Traversal d t₀ (before ++ [c])) (hgiven : c.Given t₀)
    (hlive : c.table.content k ≠ .nil) (hfit : c.key ≠ .nil → t₀.position c.key < maxInt) (hfirst : c.first ≤ t₀.position k) :
    ∃ calls c', Traversal d t₀ calls ∧ c' ∈ calls ∧ c'.result = .error .overflow := by
  induction hleft : t₀.position k - c.first using Nat.strongRecOn generalizing before c with
  | ind left ih =>
    have hpos := hgiven.same.position
    have hplaces := hgiven.same.place
    obtain ⟨r, hres, hnext⟩ := hgiven.next_of_lt hfit
    cases hnext with
    | last hrest => exact absurd (hrest k (hplaces ▸ hp) (hpos ▸ hfirst)) hlive
    | @key k' hplace hfirst' _ hskipped =>
      rw [hplaces] at hplace
      rw [hpos] at hfirst' hskipped
      have hle : t₀.position k' ≤ t₀.position k := by
        by_contra hgt
        exact hlive (hskipped k (hplaces ▸ hp) hfirst (by omega))
      have hnil : k' ≠ .nil := by
        rintro rfl
        exact hplace (place_nil hvalid)
      have hnext := h.next (Call.returned_of_result hres) .refl
      have hgiven' : (⟨c.table, k'⟩ : Call V).Given t₀ := ⟨hgiven.same, .inr hplace⟩
      by_cases hfar' : maxInt ≤ t₀.position k'
      · refine ⟨_, ⟨c.table, k'⟩, hnext, by simp, ?_⟩
        exact hgiven.same.valid.luaHNext_overflow (hplaces ▸ hplace) (hpos ▸ hfar')
      · have hbehind : (⟨c.table, k'⟩ : Call V).first = t₀.position k' + 1 := by
          rw [Call.first, Table.behind, if_neg hnil, hpos]
        exact ih _ (by omega) hnext hgiven' hlive (fun _ => not_le.mp hfar') (by omega) rfl

/-- A value at a position that has no number is a traversal's end. -/
theorem Valid.exists_overflow (h : Valid t) (ha : keyAt t a ≠ none) (hfar : maxInt ≤ t.sizearray + a) :
    ∃ calls c, Traversal d t calls ∧ c ∈ calls ∧ c.result = .error .overflow := by
  obtain ⟨k, hk⟩ := Option.ne_none_iff_exists'.mp ha
  have hp := h.placed_node hk
  have happly : (Op.set k (.boolean true)).apply d t = .ok (t.write (.boolean true) (t.place k)) :=
    Op.apply_placed h rfl hp
  have hassigned : Assigned d t (t.write (.boolean true) (t.place k)) := .step .refl rfl hp happly
  refine Traversal.overflows h hp ?_ (show Traversal d t ([] ++ [_]) from .start hassigned) ⟨hassigned.sameKeys h, .inl rfl⟩ ?_ ?_ ?_
  · rw [h.position_node hk]
    push_cast
    exact hfar
  · rw [(h.write (.boolean true) hp).content, Function.update_self]
    exact nofun
  · exact fun hnil => absurd rfl hnil
  · rw [Call.first, behind_nil]
    exact Nat.zero_le _

/-- Traversals are sound exactly on the tables whose positions an `int` numbers. -/
theorem traversals_sound_iff (h : Valid t) : (∀ calls, Traversal d t calls → Sound t calls) ↔ t.Numbered := by
  constructor
  · intro hsound a ha
    by_contra hfar
    obtain ⟨calls, c, hcalls, hc, hres⟩ := h.exists_overflow (d := d) ha (not_lt.mp hfar)
    obtain ⟨r, hok⟩ := (hsound calls hcalls).returns c hc
    exact nomatch hok.symm.trans hres
  · exact fun hnumbered calls hcalls => hcalls.sound h hnumbered

/-- An array part of any size and two nodes, of which the second has a key. -/
theorem reached_second (narray : Nat) : ∃ t : Table integers, Reached 3 narray 2 [.set (integers.str 1) (.boolean true)] t ∧
    t.sizearray = narray ∧ t.sizenode = 2 ∧ keyAt t 1 ≠ none := by
  obtain ⟨t₀, hnew, ht₀⟩ : ∃ t₀ : Table integers, luaHNew narray 2 = .ok t₀ ∧ t₀ =
      { array := (([] : List (TValue integers)).take 0).take narray ++ List.replicate (narray - 0) .nil, sizearray := narray,
        lsizenode := 1, dummy := false, node := fun _ => {}, lastfree := 2 } := ⟨_, rfl, rfl⟩
  have happly : (Op.set (integers.str 1) (.boolean true)).apply 3 t₀ =
      .ok ((setkey t₀ 1 (integers.str 1)).1.write (.boolean true) (.node 1)) := by
    have hmain : mainposition t₀ (integers.str 1) = 1 := by
      rw [ht₀]
      change 1 % 2 ^ 32 &&& (2 ^ 1 - 1) = 1
      decide
    have hnewkey : newkey 3 t₀ (integers.str 1) = .ok (setkey t₀ 1 (integers.str 1)) := by
      rw [newkey, newkeyStep]
      simp only [hmain]
      rw [ht₀]
      rfl
    have hget : luaHGet t₀ (integers.str 1) = .ok .nilobject := by
      rw [ht₀]
      rfl
    rw [Op.apply, luaHSet, hget]
    change (newkey 3 t₀ (integers.str 1) >>= fun out => Except.ok (out.1.write _ out.2)) = _
    rw [hnewkey]
    rfl
  refine ⟨_, (Reached.new hnew).step trivial happly, ?_, ?_, ?_⟩
  · rw [ht₀]
    rfl
  · rw [ht₀]
    rfl
  · rw [ht₀]
    exact Option.some_ne_none _

theorem traversals_sound_second : ∃ t : Table integers, Reached 3 4 2 [.set (integers.str 1) (.boolean true)] t ∧
    ∀ calls, Traversal 3 t calls → Sound t calls := by
  obtain ⟨t, ht, harray, hnode, -⟩ := reached_second 4
  have hvalid := (ht.valid (by decide) (by decide)).1
  refine ⟨t, ht, (traversals_sound_iff hvalid).mpr fun a ha => ?_⟩
  have hlt := hvalid.inside ha
  rw [harray, maxInt]
  omega

/-- The second node has the number 2 ^ 31 - 1, and there is none for the place behind it. -/
theorem traversal_overflows : ∃ t : Table integers, Reached 3 (2 ^ 31 - 2) 2 [.set (integers.str 1) (.boolean true)] t ∧
    ∃ calls, Traversal 3 t calls ∧ ¬ Sound t calls := by
  obtain ⟨t, ht, harray, -, hkey⟩ := reached_second (2 ^ 31 - 2)
  have hvalid := (ht.valid (by decide) (by decide)).1
  obtain ⟨calls, c, hcalls, hc, hres⟩ := hvalid.exists_overflow (d := 3) hkey (by rw [harray]; decide)
  refine ⟨t, ht, calls, hcalls, fun hsound => ?_⟩
  obtain ⟨r, hok⟩ := hsound.returns c hc
  exact nomatch hok.symm.trans hres

end Reading.Lua
