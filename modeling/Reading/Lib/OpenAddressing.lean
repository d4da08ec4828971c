import Mathlib.Data.List.Basic
import Mathlib.Data.Nat.ModEq
import Mathlib.Logic.Function.Basic

/-!
# Open addressing on a ring of slots

A hash table with open addressing is a ring of slots. A search for a key begins at the key's home and goes round the ring until it comes to the key or to a slot that was never used, so a removed key leaves a tombstone that the searches of other keys pass over. `Addressed` is what makes such searches right: every live key is reached from its home without an empty slot on the way, and no key is live twice. `Target` says which slot a search for a key has to end at, and writing or clearing a target keeps the table addressed and updates the map it stands for at that key alone.
-/

namespace Reading.Lib

/-- The slot `d` places after `home` on a ring of `n` slots. -/
def around (n home d : Nat) : Nat := (home + d) % n

theorem around_lt {n : Nat} (hn : 0 < n) (home d : Nat) : around n home d < n := Nat.mod_lt _ hn

theorem around_succ (n home d : Nat) : (around n home d + 1) % n = around n home (d + 1) := by
  rw [around, around, Nat.mod_add_mod, Nat.add_assoc]

theorem exists_around {n i : Nat} (home : Nat) (hi : i < n) : ∃ d < n, around n home d = i := by
  have hhome : home % n < n := Nat.mod_lt _ (by omega)
  refine ⟨(i + n - home % n) % n, Nat.mod_lt _ (by omega), ?_⟩
  rw [around, Nat.add_mod_mod, ← Nat.mod_add_mod,
    show home % n + (i + n - home % n) = i + n by omega, Nat.add_mod_right, Nat.mod_eq_of_lt hi]

/-- A slot of the table: never used, left behind by a removed key, or with a key and its value. -/
inductive Slot (K V : Type) where
  | empty
  | tombstone
  | live (key : K) (value : V)
deriving DecidableEq

namespace Slot

variable {K V : Type}

/-- The slot was used and is passed over by a search for another key. -/
def used : Slot K V → Bool
  | .empty => false
  | _ => true

def isLive : Slot K V → Bool
  | .live _ _ => true
  | _ => false

/-- The value of the key, when the slot has it. -/
def valueOf [DecidableEq K] (k : K) : Slot K V → Option V
  | .live k' v => if k' = k then some v else none
  | _ => none

theorem valueOf_eq_some [DecidableEq K] {k : K} {v : V} {slot : Slot K V} :
    slot.valueOf k = some v ↔ slot = .live k v := by
  cases slot with
  | live k' v' =>
    by_cases hk : k' = k
    · simp [valueOf, hk]
    · simp [valueOf, hk]
  | _ => simp [valueOf]

end Slot

section Ring

variable {K V : Type}

/-- No slot that a search from `home` visits before its `d`-th is empty. -/
def Passed (slots : List (Slot K V)) (home d : Nat) : Prop :=
  ∀ e < d, slots[around slots.length home e]? ≠ some .empty

/-- Every live key is reached from its home, and no key is live twice. -/
structure Addressed (hash : K → Nat) (slots : List (Slot K V)) : Prop where
  reach : ∀ (i : Nat) (k : K) (v : V), slots[i]? = some (.live k v) →
    ∃ d < slots.length, i = around slots.length (hash k) d ∧ Passed slots (hash k) d
  unique : ∀ (i j : Nat) (k : K) (v w : V), slots[i]? = some (.live k v) → slots[j]? = some (.live k w) → i = j

/-- The slot a search for `k` ends at: the one that has the key or, when no slot has it, a free one that later searches for `k` come to. -/
inductive Target (hash : K → Nat) (slots : List (Slot K V)) (k : K) (i : Nat) : Prop
  | found (v : V) (h : slots[i]? = some (.live k v))
  | free (d : Nat) (hd : d < slots.length) (hi : i = around slots.length (hash k) d)
      (hfree : ∃ slot, slots[i]? = some slot ∧ slot.isLive = false) (hpassed : Passed slots (hash k) d)
      (habsent : ∀ (j : Nat) (v : V), slots[j]? ≠ some (.live k v))

variable {hash : K → Nat} {slots : List (Slot K V)} {k : K} {v : V} {i : Nat}

/-- A search that passed every slot before an empty one has seen all places where the key could be. -/
theorem Addressed.absent_of_empty (h : Addressed hash slots) {d : Nat} (hd : d < slots.length)
    (hempty : slots[around slots.length (hash k) d]? = some .empty)
    (hmiss : ∀ e < d, ∀ v, slots[around slots.length (hash k) e]? ≠ some (.live k v)) (j : Nat) (v : V) :
    slots[j]? ≠ some (.live k v) := by
  intro hj
  obtain ⟨e, _, rfl, hpassed⟩ := h.reach j k v hj
  rcases Nat.lt_trichotomy e d with hlt | rfl | hgt
  · exact hmiss e hlt v hj
  · rw [hempty] at hj
    cases hj
  · exact hpassed d hgt hempty

/-- What is in a slot after a write is the new slot or was there before. -/
theorem getElem?_set_cases {j : Nat} {slot x : Slot K V} (h : (slots.set i slot)[j]? = some x) :
    (j = i ∧ x = slot) ∨ (j ≠ i ∧ slots[j]? = some x) := by
  by_cases hj : j = i
  · subst hj
    rw [List.getElem?_set_self'] at h
    cases hold : slots[j]? with
    | none => simp [hold] at h
    | some old =>
      simp only [hold, Option.map_eq_map, Option.map_some, Function.const_apply, Option.some.injEq] at h
      exact .inl ⟨rfl, h.symm⟩
  · rw [List.getElem?_set_ne (Ne.symm hj)] at h
    exact .inr ⟨hj, h⟩

theorem Passed.set {home d : Nat} (h : Passed slots home d) {slot : Slot K V} (hslot : slot ≠ .empty) :
    Passed (slots.set i slot) home d := by
  intro e he hempty
  rw [List.length_set] at hempty
  obtain ⟨_, heq⟩ | ⟨_, hold⟩ := getElem?_set_cases hempty
  · exact hslot heq.symm
  · exact h e he hold

theorem Target.lt (h : Target hash slots k i) : i < slots.length := by
  cases h with
  | found v h => exact (List.getElem?_eq_some_iff.mp h).1
  | free d hd hi => exact hi ▸ around_lt (by omega) _ _

/-- A slot of another key, or one that is not live, is not disturbed by the write. -/
theorem Target.other (h : Target hash slots k i) (hone : Addressed hash slots) {j : Nat} {k' : K} {w : V}
    (hj : slots[j]? = some (.live k' w)) (hne : j ≠ i) : k' ≠ k := by
  rintro rfl
  cases h with
  | found v h => exact hne (hone.unique j i k' w v hj h)
  | free d hd hi hfree hpassed habsent => exact habsent j w hj

theorem Addressed.set (h : Addressed hash slots) (ht : Target hash slots k i) (v : V) :
    Addressed hash (slots.set i (.live k v)) := by
  refine ⟨fun j k' w hj => ?_, fun j j' k' w w' hj hj' => ?_⟩
  · rw [List.length_set]
    obtain ⟨rfl, heq⟩ | ⟨_, hold⟩ := getElem?_set_cases hj
    · -- the slot just written is reached as the target was
      cases heq
      cases ht with
      | found v' hfound =>
        obtain ⟨d, hd, hi, hpassed⟩ := h.reach j k v' hfound
        exact ⟨d, hd, hi, hpassed.set (by simp)⟩
      | free d hd hi hfree hpassed => exact ⟨d, hd, hi, hpassed.set (by simp)⟩
    · obtain ⟨d, hd, hi, hpassed⟩ := h.reach j k' w hold
      exact ⟨d, hd, hi, hpassed.set (by simp)⟩
  · obtain ⟨rfl, heq⟩ | ⟨hne, hold⟩ := getElem?_set_cases hj
    · cases heq
      obtain ⟨rfl, _⟩ | ⟨hne', hold'⟩ := getElem?_set_cases hj'
      · rfl
      · exact absurd rfl (ht.other h hold' hne')
    · obtain ⟨rfl, heq'⟩ | ⟨_, hold'⟩ := getElem?_set_cases hj'
      · cases heq'
        exact absurd rfl (ht.other h hold hne)
      · exact h.unique j j' k' w w' hold hold'

theorem live_of_clear {j : Nat} {w : V} (hj : (slots.set i .tombstone)[j]? = some (.live k w)) :
    j ≠ i ∧ slots[j]? = some (.live k w) := by
  obtain ⟨_, heq⟩ | hold := getElem?_set_cases hj
  · cases heq
  · exact hold

theorem Addressed.clear (h : Addressed hash slots) : Addressed hash (slots.set i .tombstone) := by
  refine ⟨fun j k' w hj => ?_, fun j j' k' w w' hj hj' => ?_⟩
  · obtain ⟨d, hd, hi, hpassed⟩ := h.reach j k' w (live_of_clear hj).2
    rw [List.length_set]
    exact ⟨d, hd, hi, hpassed.set (by simp)⟩
  · exact h.unique j j' k' w w' (live_of_clear hj).2 (live_of_clear hj').2

theorem addressed_replicate (n : Nat) : Addressed hash (List.replicate n (Slot.empty : Slot K V)) := by
  refine ⟨fun i k v hi => ?_, fun i j k v w hi => ?_⟩
  all_goals
    rw [List.getElem?_replicate] at hi
    split at hi <;> cases hi

section Contents

variable [DecidableEq K]

/-- The map that the slots stand for. -/
def contents (slots : List (Slot K V)) (k : K) : Option V := slots.findSome? (Slot.valueOf k)

theorem Addressed.contents_eq_some (h : Addressed hash slots) :
    contents slots k = some v ↔ ∃ i : Nat, slots[i]? = some (.live k v) := by
  constructor
  · intro hfind
    obtain ⟨slot, hslot, hvalue⟩ := List.exists_of_findSome?_eq_some hfind
    obtain ⟨i, hi⟩ := List.mem_iff_getElem?.mp hslot
    exact ⟨i, by rw [hi, Slot.valueOf_eq_some.mp hvalue]⟩
  · rintro ⟨i, hi⟩
    cases hfind : contents slots k with
    | none =>
      have := List.findSome?_eq_none_iff.mp hfind _ (List.mem_of_getElem? hi)
      simp [Slot.valueOf] at this
    | some w =>
      -- the slot that is found first is the only one with the key
      obtain ⟨slot, hslot, hvalue⟩ := List.exists_of_findSome?_eq_some hfind
      obtain ⟨j, hj⟩ := List.mem_iff_getElem?.mp hslot
      rw [Slot.valueOf_eq_some.mp hvalue] at hj
      obtain rfl := h.unique i j k v w hi hj
      rw [hi] at hj
      cases hj
      rfl

theorem contents_eq_none : contents slots k = none ↔ ∀ (j : Nat) (v : V), slots[j]? ≠ some (.live k v) := by
  rw [contents, List.findSome?_eq_none_iff]
  constructor
  · intro h j v hj
    have := h _ (List.mem_of_getElem? hj)
    simp [Slot.valueOf] at this
  · intro h slot hslot
    obtain ⟨j, hj⟩ := List.mem_iff_getElem?.mp hslot
    rw [Option.eq_none_iff_forall_ne_some]
    intro v hv
    exact h j v (by rw [hj, Slot.valueOf_eq_some.mp hv])

theorem Addressed.contents_set (h : Addressed hash slots) (ht : Target hash slots k i) (v : V) :
    contents (slots.set i (.live k v)) = Function.update (contents slots) k (some v) := by
  have hself : (slots.set i (.live k v))[i]? = some (.live k v) := List.getElem?_set_self ht.lt
  funext k'
  apply Option.ext
  intro w
  rw [(h.set ht v).contents_eq_some]
  by_cases hk : k' = k
  · subst hk
    rw [Function.update_self]
    constructor
    · rintro ⟨j, hj⟩
      obtain rfl := (h.set ht v).unique j i k' w v hj hself
      rw [hself] at hj
      cases hj
      rfl
    · intro hw
      cases hw
      exact ⟨i, hself⟩
  · rw [Function.update_of_ne hk, h.contents_eq_some]
    constructor
    · rintro ⟨j, hj⟩
      obtain ⟨_, heq⟩ | ⟨_, hold⟩ := getElem?_set_cases hj
      · cases heq
        exact absurd rfl hk
      · exact ⟨j, hold⟩
    · rintro ⟨j, hj⟩
      refine ⟨j, ?_⟩
      have hne : i ≠ j := by
        rintro rfl
        cases ht with
        | found v' hfound =>
          rw [hfound] at hj
          cases hj
          exact hk rfl
        | free d hd hi hfree =>
          obtain ⟨slot, hslot, hdead⟩ := hfree
          rw [hslot] at hj
          cases hj
          simp [Slot.isLive] at hdead
      rw [List.getElem?_set_ne hne, hj]

theorem Addressed.contents_clear (h : Addressed hash slots) (hi : slots[i]? = some (.live k v)) :
    contents (slots.set i .tombstone) = Function.update (contents slots) k none := by
  funext k'
  apply Option.ext
  intro w
  rw [h.clear.contents_eq_some]
  by_cases hk : k' = k
  · subst hk
    rw [Function.update_self]
    refine ⟨?_, fun hw => nomatch hw⟩
    rintro ⟨j, hj⟩
    obtain ⟨hne, hold⟩ := live_of_clear hj
    exact absurd (h.unique j i k' w v hold hi) hne
  · rw [Function.update_of_ne hk, h.contents_eq_some]
    constructor
    · rintro ⟨j, hj⟩
      exact ⟨j, (live_of_clear hj).2⟩
    · rintro ⟨j, hj⟩
      refine ⟨j, ?_⟩
      have hne : i ≠ j := by
        rintro rfl
        rw [hi] at hj
        cases hj
        exact hk rfl
      rw [List.getElem?_set_ne hne, hj]

theorem contents_replicate (n : Nat) : contents (List.replicate n (Slot.empty : Slot K V)) = fun _ => none := by
  funext k
  rw [contents_eq_none]
  intro j v hj
  rw [List.getElem?_replicate] at hj
  split at hj <;> cases hj

/-- The map after every live slot of a list is written over it. -/
def overlay (slots : List (Slot K V)) (map : K → Option V) (k : K) : Option V := (contents slots k).or (map k)

/-- No two slots of the list have one key. -/
def Distinct (slots : List (Slot K V)) : Prop :=
  slots.Pairwise fun a b => ∀ k v w, a = Slot.live k v → b ≠ Slot.live k w

omit [DecidableEq K] in
theorem Addressed.distinct (h : Addressed hash slots) : Distinct slots := by
  rw [Distinct, List.pairwise_iff_getElem]
  intro i j hi hj hlt k v w hv hw
  have := h.unique i j k v w (List.getElem?_eq_some_iff.mpr ⟨hi, hv⟩) (List.getElem?_eq_some_iff.mpr ⟨hj, hw⟩)
  omega

theorem contents_cons (slot : Slot K V) : contents (slot :: slots) k = (slot.valueOf k).or (contents slots k) := by
  rw [contents, contents, List.findSome?_cons]
  cases slot.valueOf k <;> rfl

@[simp] theorem overlay_nil (map : K → Option V) : overlay [] map = map := by
  funext k
  rfl

theorem overlay_cons_free {slot : Slot K V} (hslot : slot.isLive = false) (map : K → Option V) :
    overlay (slot :: slots) map = overlay slots map := by
  funext k'
  have hnone : slot.valueOf k' = none := by
    cases slot with
    | live => simp [Slot.isLive] at hslot
    | _ => rfl
  rw [overlay, overlay, contents_cons, hnone, Option.none_or]

theorem overlay_cons_live (hdistinct : Distinct (.live k v :: slots)) (map : K → Option V) :
    overlay (.live k v :: slots) map = overlay slots (Function.update map k (some v)) := by
  funext k'
  rw [overlay, overlay, contents_cons]
  by_cases hk : k' = k
  · subst hk
    have hnone : contents slots k' = none := by
      rw [contents_eq_none]
      intro j w hj
      exact (List.pairwise_cons.mp hdistinct).1 _ (List.mem_of_getElem? hj) k' v w rfl rfl
    simp [hnone, Slot.valueOf]
  · rw [Function.update_of_ne hk]
    simp [Slot.valueOf, Ne.symm hk]

end Contents

end Ring

section Load

variable {K V : Type} {slots : List (Slot K V)} {i : Nat} {slot old : Slot K V}

/-- The slots that are not empty. -/
def load (slots : List (Slot K V)) : Nat := slots.countP Slot.used

theorem load_replicate (n : Nat) : load (List.replicate n (Slot.empty : Slot K V)) = 0 := by
  simp [load, List.countP_replicate, Slot.used]

theorem load_set (hold : slots[i]? = some old) :
    load (slots.set i slot) + old.used.toNat = load slots + slot.used.toNat := by
  obtain ⟨hi, hget⟩ := List.getElem?_eq_some_iff.mp hold
  have hset := @List.countP_set _ Slot.used slots i slot hi
  have hpos : slots[i].used = true → 0 < slots.countP Slot.used := by
    intro hused
    exact List.countP_pos_iff.mpr ⟨slots[i], List.getElem_mem hi, hused⟩
  rw [load, load, hset]
  rw [hget] at hpos ⊢
  cases hused : old.used with
  | false => cases hslot : slot.used <;> simp
  | true =>
    have := hpos hused
    cases hslot : slot.used <;> simp <;> omega

theorem exists_empty (h : load slots < slots.length) : ∃ i : Nat, slots[i]? = some .empty := by
  by_contra hnone
  have hall : ∀ slot ∈ slots, slot.used = true := by
    intro slot hslot
    cases slot with
    | empty =>
      obtain ⟨i, hi⟩ := List.mem_iff_getElem?.mp hslot
      exact absurd ⟨i, hi⟩ hnone
    | _ => rfl
  rw [load, List.countP_eq_length.mpr hall] at h
  omega

theorem countP_isLive_le (entries : List (Slot K V)) : entries.countP Slot.isLive ≤ load entries := by
  apply List.countP_mono_left
  intro slot _ hlive
  cases slot <;> simp_all [Slot.isLive, Slot.used]

end Load

end Reading.Lib
