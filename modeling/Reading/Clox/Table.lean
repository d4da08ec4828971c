import Mathlib.Data.Fintype.Card
import Reading.Lib.OpenAddressing

/-!
# The hash table of the virtual machine

The string table and the globals of clox are hash tables with open addressing (`table.c`). An entry with a `NULL` key is empty when its value is nil and a tombstone otherwise, which the model keeps apart by constructors. Keys are compared by identity, so a key is an element of an arbitrary type with decidable equality and an arbitrary hash. The probe loop of `find_entry` has no bound: after as many steps as there are entries it is back at its first entry with nothing changed, so the model stops there and answers `none`, which stands for the loop that never ends. The capacity and the count are of the type `int`: there is no result either where the capacity would grow beyond the largest one.
-/

namespace Reading.Clox

open Reading.Lib

variable {K V : Type} [DecidableEq K]

/-- The largest `int`. -/
def intMax : Nat := 2 ^ 31 - 1

structure Table (K V : Type) where
  count : Nat
  entries : List (Slot K V)

/-- The length of the array. -/
def Table.capacity (t : Table K V) : Nat := t.entries.length

def tableInit : Table K V where
  count := 0
  entries := []

/-- The loop of `find_entry` at `index`, with the first tombstone it has passed. -/
def findEntryFrom (entries : List (Slot K V)) (key : K) : Nat → Nat → Option Nat → Option Nat
  | 0, _, _ => none
  | fuel + 1, index, tombstone =>
    match entries[index]? with
    | none => none
    | some .empty => some (tombstone.getD index)
    | some .tombstone =>
      findEntryFrom entries key fuel ((index + 1) % entries.length) (tombstone.or (some index))
    | some (.live k _) =>
      if k = key then some index
      else findEntryFrom entries key fuel ((index + 1) % entries.length) tombstone

/-- The index of the entry that holds the key, or of the one to put it in. -/
def findEntry (hash : K → Nat) (entries : List (Slot K V)) (key : K) : Option Nat :=
  findEntryFrom entries key entries.length (hash key % entries.length) none

/-- One round of the loop of `adjust_capacity`, on the new array and the new count. -/
def moveEntry (hash : K → Nat) (moved : List (Slot K V) × Nat) (entry : Slot K V) :
    Option (List (Slot K V) × Nat) :=
  match entry with
  | .live key value => do
    let dest ← findEntry hash moved.1 key
    some (moved.1.set dest (.live key value), moved.2 + 1)
  | _ => some moved

/-- The tombstones are left behind and the count begins anew. -/
def adjustCapacity (hash : K → Nat) (t : Table K V) (capacity : Nat) : Option (Table K V) := do
  let (entries, count) ← t.entries.foldlM (moveEntry hash) (List.replicate capacity .empty, 0)
  some { count, entries }

/-- `GROW_CAPACITY`. -/
def growCapacity (capacity : Nat) : Option Nat :=
  if capacity < 8 then some 8 else if capacity * 2 ≤ intMax then some (capacity * 2) else none

/-- The table `table_set` writes to: `TABLE_MAX_LOAD` is three quarters. -/
def ensureCapacity (hash : K → Nat) (t : Table K V) : Option (Table K V) :=
  if 4 * (t.count + 1) > 3 * t.capacity then do
    let capacity ← growCapacity t.capacity
    adjustCapacity hash t capacity
  else some t

/-- The entry is free, so that a write to it adds a key. -/
def isNewKey (entries : List (Slot K V)) (index : Nat) : Bool :=
  match entries[index]? with
  | some entry => !entry.isLive
  | none => false

/-- Whether the key is new, and the table with the value put in. A tombstone that is used again is counted once more. -/
def tableSet (hash : K → Nat) (t : Table K V) (key : K) (value : V) : Option (Bool × Table K V) := do
  let t ← ensureCapacity hash t
  let index ← findEntry hash t.entries key
  some (isNewKey t.entries index,
    { count := t.count + (isNewKey t.entries index).toNat, entries := t.entries.set index (.live key value) })

/-- The loop of `table_add_all` over the entries of the other table. -/
def addEntry (hash : K → Nat) (t : Table K V) (entry : Slot K V) : Option (Table K V) :=
  match entry with
  | .live key value => (tableSet hash t key value).map Prod.snd
  | _ => some t

def tableAddAll (hash : K → Nat) (source target : Table K V) : Option (Table K V) :=
  source.entries.foldlM (addEntry hash) target

/-- The value of the key, if it has one. No entries are allocated before the first insertion. -/
def tableGet (hash : K → Nat) (t : Table K V) (key : K) : Option (Option V) :=
  if t.entries = [] then some none
  else do
    let index ← findEntry hash t.entries key
    match t.entries[index]? with
    | some (.live _ value) => some (some value)
    | _ => some none

/-- Whether the key was there, and the table with a tombstone in its place. -/
def tableDelete (hash : K → Nat) (t : Table K V) (key : K) : Option (Bool × Table K V) :=
  if t.count = 0 then some (false, t)
  else do
    let index ← findEntry hash t.entries key
    match t.entries[index]? with
    | some (.live _ _) => some (true, { t with entries := t.entries.set index .tombstone })
    | _ => some (false, t)

section Probe

variable {hash : K → Nat} {entries : List (Slot K V)} {key : K}

/-- What the probe loop knows of the slots it has passed. -/
structure Probing (hash : K → Nat) (entries : List (Slot K V)) (key : K) (d : Nat) (tombstone : Option Nat) : Prop where
  passed : Passed entries (hash key) d
  missed : ∀ e < d, ∀ v, entries[around entries.length (hash key) e]? ≠ some (.live key v)
  first : ∀ i, tombstone = some i →
    ∃ e < d, i = around entries.length (hash key) e ∧ entries[i]? = some .tombstone

omit [DecidableEq K] in
theorem Probing.start : Probing hash entries key 0 none :=
  ⟨fun _ he => absurd he (Nat.not_lt_zero _), fun _ he => absurd he (Nat.not_lt_zero _), fun _ h => nomatch h⟩

omit [DecidableEq K] in
theorem Probing.next {d : Nat} {tombstone tombstone' : Option Nat} (h : Probing hash entries key d tombstone)
    {slot : Slot K V} (hslot : entries[around entries.length (hash key) d]? = some slot)
    (hused : slot ≠ .empty) (hkey : ∀ v, slot ≠ .live key v)
    (hfirst : tombstone' = tombstone ∨
      (slot = .tombstone ∧ tombstone' = some (around entries.length (hash key) d))) :
    Probing hash entries key (d + 1) tombstone' := by
  refine ⟨fun e he => ?_, fun e he v => ?_, fun i hi => ?_⟩
  · rcases Nat.lt_succ_iff_lt_or_eq.mp he with hlt | rfl
    · exact h.passed e hlt
    · simpa [hslot] using hused
  · rcases Nat.lt_succ_iff_lt_or_eq.mp he with hlt | rfl
    · exact h.missed e hlt v
    · simpa [hslot] using hkey v
  · obtain rfl | ⟨rfl, rfl⟩ := hfirst
    · obtain ⟨e, he, hat⟩ := h.first i hi
      exact ⟨e, by omega, hat⟩
    · cases hi
      exact ⟨d, by omega, rfl, hslot⟩

omit [DecidableEq K] in
theorem Probing.target_of_empty {d : Nat} {tombstone : Option Nat} (h : Probing hash entries key d tombstone)
    (haddr : Addressed hash entries) (hd : d < entries.length)
    (hempty : entries[around entries.length (hash key) d]? = some .empty) :
    Target hash entries key (tombstone.getD (around entries.length (hash key) d)) := by
  have habsent := haddr.absent_of_empty hd hempty h.missed
  cases htomb : tombstone with
  | none => exact .free d hd rfl ⟨.empty, hempty, rfl⟩ h.passed habsent
  | some i =>
    -- an earlier tombstone is free as well, and fewer slots lead to it
    obtain ⟨e, he, hi, hslot⟩ := h.first i htomb
    exact .free e (by omega) hi ⟨.tombstone, hslot, rfl⟩ (fun e' he' => h.passed e' (by omega)) habsent

theorem findEntryFrom_spec (haddr : Addressed hash entries) {stop : Nat} (hstop : stop < entries.length)
    (hempty : entries[around entries.length (hash key) stop]? = some .empty) (fuel d : Nat)
    (hfuel : d + fuel = entries.length) (tombstone : Option Nat) (h : Probing hash entries key d tombstone) :
    ∃ i, findEntryFrom entries key fuel (around entries.length (hash key) d) tombstone = some i
      ∧ Target hash entries key i := by
  induction fuel generalizing d tombstone with
  | zero => exact absurd hempty (h.passed stop (by omega))
  | succ fuel ih =>
    have hlt : around entries.length (hash key) d < entries.length := around_lt (by omega) _ _
    have hslot : entries[around entries.length (hash key) d]? = some entries[around entries.length (hash key) d] :=
      List.getElem?_eq_getElem hlt
    generalize entries[around entries.length (hash key) d] = slot at hslot
    rw [findEntryFrom, hslot, around_succ]
    cases slot with
    | empty => exact ⟨_, rfl, h.target_of_empty haddr (by omega) hslot⟩
    | tombstone =>
      apply ih (d + 1) (by omega)
      refine h.next hslot (by simp) (by simp) ?_
      cases tombstone with
      | none => exact .inr ⟨rfl, rfl⟩
      | some i => exact .inl rfl
    | live k v =>
      by_cases hk : k = key
      · subst hk
        exact ⟨_, if_pos rfl, .found v hslot⟩
      · simp only [if_neg hk]
        apply ih (d + 1) (by omega)
        exact h.next hslot (by simp) (by simp [hk]) (.inl rfl)

/-- The probe loop ends when one entry is empty, at the entry for the key. -/
theorem findEntry_spec (haddr : Addressed hash entries) (hload : load entries < entries.length) (key : K) :
    ∃ i, findEntry hash entries key = some i ∧ Target hash entries key i := by
  obtain ⟨i, hi⟩ := exists_empty hload
  obtain ⟨hlt, _⟩ := List.getElem?_eq_some_iff.mp hi
  obtain ⟨stop, hstop, rfl⟩ := exists_around (hash key) hlt
  have hhome : hash key % entries.length = around entries.length (hash key) 0 := rfl
  rw [findEntry, hhome]
  exact findEntryFrom_spec haddr hstop hi entries.length 0 (by omega) none .start

end Probe

/-- What every operation keeps: the keys are where a search finds them, and the count, which bounds the entries in use, stays within the maximal load. -/
structure Table.Valid (hash : K → Nat) (t : Table K V) : Prop where
  addressed : Addressed hash t.entries
  load_le : load t.entries ≤ t.count
  max_load : 4 * t.count ≤ 3 * t.capacity
  capacity_le : t.capacity ≤ intMax

/-- One more key is within the maximal load, or there is a larger capacity. -/
def Table.HasRoom (t : Table K V) : Prop := 4 * (t.count + 1) ≤ 3 * t.capacity ∨ t.capacity * 2 ≤ intMax

instance (t : Table K V) : Decidable t.HasRoom := inferInstanceAs (Decidable (_ ∨ _))

section Operations

variable {hash : K → Nat} {t : Table K V}

omit [DecidableEq K] in
theorem valid_tableInit : (tableInit : Table K V).Valid hash where
  addressed := addressed_replicate 0
  load_le := Nat.le_refl 0
  max_load := Nat.le_refl 0
  capacity_le := Nat.zero_le _

omit [DecidableEq K] in
theorem load_set_le {entries : List (Slot K V)} {i : Nat} {key : K} (hi : Target hash entries key i) (value : V) :
    load (entries.set i (.live key value)) ≤ load entries + (isNewKey entries i).toNat := by
  obtain ⟨slot, hslot⟩ : ∃ slot, entries[i]? = some slot := ⟨_, List.getElem?_eq_getElem hi.lt⟩
  have hset := @load_set K V entries i (.live key value) slot hslot
  cases slot <;> simp [isNewKey, hslot, Slot.isLive, Slot.used] at hset ⊢ <;> omega

theorem Target.isNewKey {entries : List (Slot K V)} {i : Nat} {key : K} (hi : Target hash entries key i)
    (haddr : Addressed hash entries) : isNewKey entries i = (contents entries key).isNone := by
  cases hi with
  | found v hfound =>
    have hsome : contents entries key = some v := haddr.contents_eq_some.mpr ⟨i, hfound⟩
    simp [Clox.isNewKey, hfound, hsome, Slot.isLive]
  | free d hd hi hfree hpassed habsent =>
    obtain ⟨slot, hslot, hdead⟩ := hfree
    simp [Clox.isNewKey, hslot, hdead, contents_eq_none.mpr habsent]

/-- Moving the entries of a list to an array that has room for them all. -/
theorem moveEntries_spec (entries acc : List (Slot K V)) (count : Nat) (haddr : Addressed hash acc)
    (hload : load acc ≤ count) (hroom : count + entries.countP Slot.isLive < acc.length) (hdistinct : Distinct entries) :
    ∃ moved, entries.foldlM (moveEntry hash) (acc, count) = some (moved, count + entries.countP Slot.isLive)
      ∧ Addressed hash moved ∧ load moved ≤ count + entries.countP Slot.isLive ∧ moved.length = acc.length
      ∧ contents moved = overlay entries (contents acc) := by
  induction entries generalizing acc count with
  | nil => exact ⟨acc, rfl, haddr, hload, rfl, (overlay_nil _).symm⟩
  | cons entry entries ih =>
    have htail := hdistinct.tail
    cases entry with
    | live key value =>
      rw [List.countP_cons_of_pos rfl] at hroom ⊢
      obtain ⟨i, hfind, hi⟩ := findEntry_spec haddr (by omega) key
      have hle := load_set_le hi value
      have hone : (isNewKey acc i).toNat ≤ 1 := Bool.toNat_le _
      obtain ⟨moved, hfold, hmoved, hbound, hlength, hcontents⟩ :=
        ih (acc.set i (.live key value)) (count + 1) (haddr.set hi value) (by omega)
          (by rw [List.length_set]; omega) htail
      refine ⟨moved, ?_, hmoved, by omega, by rw [hlength, List.length_set], ?_⟩
      · rw [List.foldlM_cons, moveEntry, hfind, show count + (entries.countP Slot.isLive + 1)
          = count + 1 + entries.countP Slot.isLive by omega]
        exact hfold
      · rw [hcontents, haddr.contents_set hi, overlay_cons_live hdistinct]
    | _ =>
      rw [List.countP_cons_of_neg (by simp [Slot.isLive])] at hroom ⊢
      obtain ⟨moved, hfold, hrest⟩ := ih acc count haddr hload hroom htail
      rw [overlay_cons_free rfl]
      exact ⟨moved, hfold, hrest⟩

omit [DecidableEq K] in
/-- The capacity is doubled as long as an `int` holds that. -/
theorem growCapacity_spec (h : t.Valid hash) (hfull : ¬4 * (t.count + 1) ≤ 3 * t.capacity) :
    (¬t.HasRoom ∧ growCapacity t.capacity = none) ∨
      ∃ capacity, t.HasRoom ∧ growCapacity t.capacity = some capacity ∧ 4 * (t.count + 1) ≤ 3 * capacity ∧ capacity ≤ intMax := by
  have hmax := h.max_load
  have hint : 8 * 2 ≤ intMax := by decide
  unfold Table.HasRoom growCapacity
  by_cases hsmall : t.capacity < 8
  · exact .inr ⟨8, .inr (by omega), if_pos hsmall, by omega, by omega⟩
  · rw [if_neg hsmall]
    by_cases hdouble : t.capacity * 2 ≤ intMax
    · exact .inr ⟨t.capacity * 2, .inr hdouble, if_pos hdouble, by omega, hdouble⟩
    · exact .inl ⟨not_or.mpr ⟨hfull, hdouble⟩, if_neg hdouble⟩

theorem ensureCapacity_spec (h : t.Valid hash) :
    (¬t.HasRoom ∧ ensureCapacity hash t = none) ∨
      ∃ t', t.HasRoom ∧ ensureCapacity hash t = some t' ∧ t'.Valid hash ∧ 4 * (t'.count + 1) ≤ 3 * t'.capacity
        ∧ contents t'.entries = contents t.entries := by
  rw [ensureCapacity]
  by_cases hfull : 4 * (t.count + 1) ≤ 3 * t.capacity
  · rw [if_neg (Nat.not_lt.mpr hfull)]
    exact .inr ⟨t, .inl hfull, rfl, h, hfull, rfl⟩
  · rw [if_pos (Nat.not_le.mp hfull)]
    obtain ⟨hroom, hgrow⟩ | ⟨capacity, hroom, hgrow, hlarge, hint⟩ := growCapacity_spec h hfull
    · exact .inl ⟨hroom, by rw [hgrow]; rfl⟩
    · -- the live entries fit into the new array
      right
      have hlive := countP_isLive_le t.entries
      have hcount := h.load_le
      obtain ⟨moved, hfold, haddr, hload, hlength, hcontents⟩ :=
        moveEntries_spec t.entries (List.replicate capacity .empty) 0 (addressed_replicate _)
          (by rw [load_replicate]) (by rw [List.length_replicate]; omega) h.addressed.distinct
      rw [List.length_replicate] at hlength
      refine ⟨⟨0 + t.entries.countP Slot.isLive, moved⟩, hroom, ?_, ⟨haddr, hload, ?_, ?_⟩, ?_, ?_⟩
      · rw [hgrow, Option.bind_eq_bind, Option.bind_some, adjustCapacity, hfold]
        rfl
      · change 4 * (0 + t.entries.countP Slot.isLive) ≤ 3 * moved.length
        omega
      · change moved.length ≤ intMax
        omega
      · change 4 * (0 + t.entries.countP Slot.isLive + 1) ≤ 3 * moved.length
        omega
      · simp only [hcontents, contents_replicate]
        funext k
        exact Option.or_none

/-- A key is put into a table that has room for one, and there is no result for others. -/
theorem tableSet_spec (h : t.Valid hash) (key : K) (value : V) :
    (¬t.HasRoom ∧ tableSet hash t key value = none) ∨
      ∃ t', t.HasRoom ∧ tableSet hash t key value = some ((contents t.entries key).isNone, t') ∧ t'.Valid hash
        ∧ contents t'.entries = Function.update (contents t.entries) key (some value) := by
  obtain ⟨hroom, hnone⟩ | ⟨big, hroom, hbig, hvalid, hmore, hcontents⟩ := ensureCapacity_spec h
  · exact .inl ⟨hroom, by rw [tableSet, hnone]; rfl⟩
  right
  have hload := hvalid.load_le
  obtain ⟨i, hfind, hi⟩ := findEntry_spec hvalid.addressed (show load big.entries < big.entries.length by
    rw [Table.capacity] at hmore
    omega) key
  have hle := load_set_le hi value
  have hone : (isNewKey big.entries i).toNat ≤ 1 := Bool.toNat_le _
  refine ⟨⟨big.count + (isNewKey big.entries i).toNat, big.entries.set i (.live key value)⟩, hroom, ?_, ⟨?_, ?_, ?_, ?_⟩, ?_⟩
  · rw [tableSet, hbig, Option.bind_eq_bind, Option.bind_some, hfind, ← hcontents, ← Target.isNewKey hi hvalid.addressed]
    rfl
  · exact hvalid.addressed.set hi value
  · simp only
    omega
  · simp only [Table.capacity, List.length_set] at hmore ⊢
    omega
  · rw [Table.capacity, List.length_set]
    exact hvalid.capacity_le
  · rw [← hcontents]
    exact hvalid.addressed.contents_set hi value

/-- What an insertion that has a result has done. -/
theorem tableSet_ok (h : t.Valid hash) {key : K} {value : V} {new : Bool} {t' : Table K V} (hset : tableSet hash t key value = some (new, t')) :
    new = (contents t.entries key).isNone ∧ t'.Valid hash ∧ contents t'.entries = Function.update (contents t.entries) key (some value) := by
  obtain ⟨-, hnone⟩ | ⟨t₁, -, hsome, hvalid, hcontents⟩ := tableSet_spec h key value
  · rw [hset] at hnone
    cases hnone
  · rw [hset] at hsome
    cases hsome
    exact ⟨rfl, hvalid, hcontents⟩

theorem Table.Valid.findEntry (h : t.Valid hash) (hne : t.entries ≠ []) (key : K) :
    ∃ i, findEntry hash t.entries key = some i ∧ Target hash t.entries key i := by
  apply findEntry_spec h.addressed
  have hpos := List.length_pos_iff.mpr hne
  have hload := h.load_le
  have hmax := h.max_load
  rw [Table.capacity] at hmax
  omega

theorem tableGet_spec (h : t.Valid hash) (key : K) : tableGet hash t key = some (contents t.entries key) := by
  rw [tableGet]
  split
  · rename_i hnil
    rw [hnil]
    rfl
  · rename_i hne
    obtain ⟨i, hfind, hi⟩ := h.findEntry hne key
    rw [hfind]
    cases hi with
    | found v hfound => simp [hfound, h.addressed.contents_eq_some.mpr ⟨i, hfound⟩]
    | free d hd hi hfree hpassed habsent =>
      obtain ⟨slot, hslot, hdead⟩ := hfree
      rw [contents_eq_none.mpr habsent]
      cases slot <;> simp_all [Slot.isLive]

theorem tableDelete_spec (h : t.Valid hash) (key : K) :
    ∃ t', tableDelete hash t key = some ((contents t.entries key).isSome, t') ∧ t'.Valid hash
      ∧ contents t'.entries = Function.update (contents t.entries) key none := by
  have hkept (hnone : contents t.entries key = none) :
      contents t.entries = Function.update (contents t.entries) key none := by
    rw [← hnone, Function.update_eq_self]
  rw [tableDelete]
  split
  · -- with a zero count no entry is in use
    rename_i hzero
    have hload := h.load_le
    have hlive := countP_isLive_le t.entries
    have hnone : contents t.entries key = none := by
      rw [contents_eq_none]
      intro j v hj
      have := List.countP_pos_iff.mpr ⟨_, List.mem_of_getElem? hj, show (Slot.live key v).isLive = true from rfl⟩
      omega
    exact ⟨t, by rw [hnone]; rfl, h, hkept hnone⟩
  · rename_i hcount
    have hne : t.entries ≠ [] := by
      intro hnil
      have hmax := h.max_load
      rw [Table.capacity, hnil] at hmax
      simp at hmax
      omega
    obtain ⟨i, hfind, hi⟩ := h.findEntry hne key
    rw [hfind]
    cases hi with
    | found v hfound =>
      refine ⟨{ t with entries := t.entries.set i .tombstone }, ?_, ⟨h.addressed.clear, ?_, ?_, ?_⟩, ?_⟩
      · simp [hfound, h.addressed.contents_eq_some.mpr ⟨i, hfound⟩]
      · have hset := @load_set K V t.entries i .tombstone _ hfound
        have hload := h.load_le
        simp only [Slot.used] at hset ⊢
        omega
      · have hmax := h.max_load
        simp only [Table.capacity, List.length_set] at hmax ⊢
        omega
      · rw [Table.capacity, List.length_set]
        exact h.capacity_le
      · exact h.addressed.contents_clear hfound
    | free d hd hi hfree hpassed habsent =>
      obtain ⟨slot, hslot, hdead⟩ := hfree
      have hnone := contents_eq_none.mpr habsent
      refine ⟨t, ?_, h, hkept hnone⟩
      rw [hnone]
      cases slot <;> simp_all [Slot.isLive]

/-- Every key that `table_add_all` puts into a table finds room. -/
def AddsWithRoom (hash : K → Nat) : List (Slot K V) → Table K V → Prop
  | [], _ => True
  | entry :: entries, t => (entry.isLive = true → t.HasRoom) ∧ ∀ t', addEntry hash t entry = some t' → AddsWithRoom hash entries t'

theorem addEntries_spec (entries : List (Slot K V)) (h : t.Valid hash) (hdistinct : Distinct entries) :
    (¬AddsWithRoom hash entries t ∧ entries.foldlM (addEntry hash) t = none) ∨
      ∃ t', AddsWithRoom hash entries t ∧ entries.foldlM (addEntry hash) t = some t' ∧ t'.Valid hash
        ∧ contents t'.entries = overlay entries (contents t.entries) := by
  induction entries generalizing t with
  | nil => exact .inr ⟨t, trivial, rfl, h, (overlay_nil _).symm⟩
  | cons entry entries ih =>
    rw [List.foldlM_cons]
    cases entry with
    | live key value =>
      obtain ⟨hroom, hnone⟩ | ⟨mid, hroom, hset, hmid, hcontents⟩ := tableSet_spec h key value
      · exact .inl ⟨fun hadds => hroom (hadds.1 rfl), by rw [addEntry, hnone]; rfl⟩
      · have hadd : addEntry hash t (.live key value) = some mid := by rw [addEntry, hset]; rfl
        have hrest : AddsWithRoom hash (.live key value :: entries) t ↔ AddsWithRoom hash entries mid := by
          rw [AddsWithRoom, hadd]
          exact ⟨fun h => h.2 mid rfl, fun h => ⟨fun _ => hroom, fun t' ht' => Option.some.inj ht' ▸ h⟩⟩
        rw [hadd, hrest]
        obtain ⟨hnone, hfold⟩ | ⟨t', hadds, hfold, hvalid, hall⟩ := ih hmid hdistinct.tail
        · exact .inl ⟨hnone, hfold⟩
        · refine .inr ⟨t', hadds, hfold, hvalid, ?_⟩
          rw [hall, hcontents, overlay_cons_live hdistinct]
    | _ =>
      have hrest {entry : Slot K V} (hfree : entry.isLive = false) (hadd : addEntry hash t entry = some t) :
          AddsWithRoom hash (entry :: entries) t ↔ AddsWithRoom hash entries t := by
        rw [AddsWithRoom, hadd, hfree]
        exact ⟨fun h => h.2 t rfl, fun h => ⟨fun hlive => absurd hlive Bool.false_ne_true, fun t' ht' => Option.some.inj ht' ▸ h⟩⟩
      rw [overlay_cons_free rfl, hrest rfl rfl]
      exact ih h hdistinct.tail

theorem tableAddAll_spec {source : Table K V} (hsource : source.Valid hash) (h : t.Valid hash) :
    (¬AddsWithRoom hash source.entries t ∧ tableAddAll hash source t = none) ∨
      ∃ t', AddsWithRoom hash source.entries t ∧ tableAddAll hash source t = some t' ∧ t'.Valid hash
        ∧ contents t'.entries = overlay source.entries (contents t.entries) :=
  addEntries_spec source.entries h hsource.addressed.distinct

end Operations

/-! ## Histories of several tables -/

/-- A call on one of the tables; `table_add_all` is called on two different ones. -/
inductive TableOp (K V : Type) where
  | set (table : Nat) (key : K) (value : V)
  | get (table : Nat) (key : K)
  | delete (table : Nat) (key : K)
  | addAll (source target : Nat) (hne : source ≠ target)

/-- What a call returns. -/
inductive TableAnswer (V : Type) where
  | isNewKey (new : Bool)
  | value (v : Option V)
  | deleted (present : Bool)
  | void

/-- The call on the tables, `none` when a probe loop does not end. -/
def tableStep (hash : K → Nat) (tables : Nat → Table K V) : TableOp K V → Option (TableAnswer V × (Nat → Table K V))
  | .set i key value => do
    let (new, t) ← tableSet hash (tables i) key value
    some (.isNewKey new, Function.update tables i t)
  | .get i key => do
    let v ← tableGet hash (tables i) key
    some (.value v, tables)
  | .delete i key => do
    let (present, t) ← tableDelete hash (tables i) key
    some (.deleted present, Function.update tables i t)
  | .addAll source target _ => do
    let t ← tableAddAll hash (tables source) (tables target)
    some (.void, Function.update tables target t)

def tableRun (hash : K → Nat) (tables : Nat → Table K V) :
    List (TableOp K V) → Option (List (TableAnswer V) × (Nat → Table K V))
  | [] => some ([], tables)
  | op :: ops => do
    let (answer, tables) ← tableStep hash tables op
    let (answers, tables) ← tableRun hash tables ops
    some (answer :: answers, tables)

/-- The same call on finite maps. -/
def mapStep (maps : Nat → K → Option V) : TableOp K V → TableAnswer V × (Nat → K → Option V)
  | .set i key value =>
    (.isNewKey (maps i key).isNone, Function.update maps i (Function.update (maps i) key (some value)))
  | .get i key => (.value (maps i key), maps)
  | .delete i key => (.deleted (maps i key).isSome, Function.update maps i (Function.update (maps i) key none))
  | .addAll source target _ => (.void, Function.update maps target fun key => (maps source key).or (maps target key))

def mapRun (maps : Nat → K → Option V) : List (TableOp K V) → List (TableAnswer V) × (Nat → K → Option V)
  | [] => ([], maps)
  | op :: ops =>
    let (answer, maps) := mapStep maps op
    let (answers, maps) := mapRun maps ops
    (answer :: answers, maps)

/-- The maps that the tables stand for. -/
def mapsOf (tables : Nat → Table K V) (i : Nat) : K → Option V := contents (tables i).entries

/-- Every key that the call puts into a table finds room. -/
def TableOp.HasRoom (hash : K → Nat) (tables : Nat → Table K V) : TableOp K V → Prop
  | .set i _ _ => (tables i).HasRoom
  | .get _ _ | .delete _ _ => True
  | .addAll source target _ => AddsWithRoom hash (tables source).entries (tables target)

/-- The same for all calls, one after the other. -/
def RunsWithRoom (hash : K → Nat) : (Nat → Table K V) → List (TableOp K V) → Prop
  | _, [] => True
  | tables, op :: ops =>
    op.HasRoom hash tables ∧ ∀ answer tables', tableStep hash tables op = some (answer, tables') → RunsWithRoom hash tables' ops

section Histories

variable {hash : K → Nat} {tables : Nat → Table K V}

theorem mapsOf_update (i : Nat) (t : Table K V) :
    mapsOf (Function.update tables i t) = Function.update (mapsOf tables) i (contents t.entries) := by
  funext j
  by_cases hj : j = i
  · subst hj
    rw [mapsOf, Function.update_self, Function.update_self]
  · rw [mapsOf, Function.update_of_ne hj, Function.update_of_ne hj]
    rfl

omit [DecidableEq K] in
theorem valid_update (h : ∀ i, (tables i).Valid hash) (i : Nat) {t : Table K V} (ht : t.Valid hash) (j : Nat) :
    (Function.update tables i t j).Valid hash := by
  by_cases hj : j = i
  · subst hj
    rwa [Function.update_self]
  · rw [Function.update_of_ne hj]
    exact h j

/-- A call that finds room does what it does to the maps, and another one has no result. -/
theorem tableStep_spec (h : ∀ i, (tables i).Valid hash) (op : TableOp K V) :
    (¬op.HasRoom hash tables ∧ tableStep hash tables op = none) ∨
      ∃ tables', op.HasRoom hash tables ∧ tableStep hash tables op = some ((mapStep (mapsOf tables) op).1, tables')
        ∧ (∀ i, (tables' i).Valid hash) ∧ mapsOf tables' = (mapStep (mapsOf tables) op).2 := by
  cases op with
  | set i key value =>
    obtain ⟨hroom, hnone⟩ | ⟨t, hroom, hset, ht, hcontents⟩ := tableSet_spec (h i) key value
    · exact .inl ⟨hroom, by rw [tableStep, hnone]; rfl⟩
    · refine .inr ⟨Function.update tables i t, hroom, by rw [tableStep, hset]; rfl, valid_update h i ht, ?_⟩
      rw [mapsOf_update, hcontents]
      rfl
  | get i key => exact .inr ⟨tables, trivial, by rw [tableStep, tableGet_spec (h i)]; rfl, h, rfl⟩
  | delete i key =>
    obtain ⟨t, hdelete, ht, hcontents⟩ := tableDelete_spec (h i) key
    refine .inr ⟨Function.update tables i t, trivial, by rw [tableStep, hdelete]; rfl, valid_update h i ht, ?_⟩
    rw [mapsOf_update, hcontents]
    rfl
  | addAll source target hne =>
    obtain ⟨hroom, hnone⟩ | ⟨t, hroom, hadd, ht, hcontents⟩ := tableAddAll_spec (h source) (h target)
    · exact .inl ⟨hroom, by rw [tableStep, hnone]; rfl⟩
    · refine .inr ⟨Function.update tables target t, hroom, by rw [tableStep, hadd]; rfl, valid_update h target ht, ?_⟩
      rw [mapsOf_update, hcontents]
      rfl

theorem tableRun_spec (h : ∀ i, (tables i).Valid hash) (ops : List (TableOp K V)) :
    (¬RunsWithRoom hash tables ops ∧ tableRun hash tables ops = none) ∨
      ∃ tables', RunsWithRoom hash tables ops ∧ tableRun hash tables ops = some ((mapRun (mapsOf tables) ops).1, tables')
        ∧ (∀ i, (tables' i).Valid hash) ∧ mapsOf tables' = (mapRun (mapsOf tables) ops).2 := by
  induction ops generalizing tables with
  | nil => exact .inr ⟨tables, trivial, rfl, h, rfl⟩
  | cons op ops ih =>
    obtain ⟨hroom, hnone⟩ | ⟨mid, hroom, hstep, hmid, hmaps⟩ := tableStep_spec h op
    · exact .inl ⟨fun hruns => hroom hruns.1, by rw [tableRun, hnone]; rfl⟩
    · have hrest : RunsWithRoom hash tables (op :: ops) ↔ RunsWithRoom hash mid ops := by
        rw [RunsWithRoom, hstep]
        refine ⟨fun h => h.2 _ mid rfl, fun h => ⟨hroom, fun answer tables' htables => ?_⟩⟩
        cases htables
        exact h
      rw [hrest, tableRun, hstep, Option.bind_eq_bind, Option.bind_some]
      obtain ⟨hruns, hnone⟩ | ⟨tables', hruns, hrun, hvalid, hall⟩ := ih hmid
      · exact .inl ⟨hruns, by simp only [hnone]; rfl⟩
      · refine .inr ⟨tables', hruns, ?_, hvalid, ?_⟩
        · simp only [hrun, hmaps]
          rfl
        · rw [hall, hmaps]
          rfl

/-- The tables after a history that has a result. -/
theorem tableRun_ok {ops : List (TableOp K V)} {answers : List (TableAnswer V)} {tables' : Nat → Table K V}
    (h : ∀ i, (tables i).Valid hash) (hrun : tableRun hash tables ops = some (answers, tables')) :
    (∀ i, (tables' i).Valid hash) ∧ mapsOf tables' = (mapRun (mapsOf tables) ops).2 := by
  obtain ⟨-, hnone⟩ | ⟨tables₁, -, hsome, hvalid, hmaps⟩ := tableRun_spec h ops
  · rw [hrun] at hnone
    cases hnone
  · rw [hrun] at hsome
    cases hsome
    exact ⟨hvalid, hmaps⟩

/-- The calls return with the answers of the finite maps that the same calls update, and leave tables with no key twice, with the used entries bounded by the count and the count within the maximal load. -/
def RefinesMap (hash : K → Nat) (ops : List (TableOp K V)) : Prop :=
  ∃ tables, tableRun hash (fun _ => tableInit) ops = some ((mapRun (fun _ _ => none) ops).1, tables)
    ∧ mapsOf tables = (mapRun (fun _ _ => none) ops).2
    ∧ ∀ i, (∀ k v, contents (tables i).entries k = some v ↔ .live k v ∈ (tables i).entries)
      ∧ (∀ (p q : Nat) (k : K) (v w : V), (tables i).entries[p]? = some (.live k v) → (tables i).entries[q]? = some (.live k w) → p = q)
      ∧ load (tables i).entries ≤ (tables i).count ∧ 4 * (tables i).count ≤ 3 * (tables i).capacity

/-- A history of calls on tables that begin empty refines the finite maps exactly if every key that is put into a table finds room. -/
theorem table_refines_map_iff (hash : K → Nat) (ops : List (TableOp K V)) :
    RefinesMap hash ops ↔ RunsWithRoom hash (fun _ => tableInit) ops := by
  obtain ⟨hruns, hnone⟩ | ⟨tables, hruns, hrun, hvalid, hmaps⟩ := tableRun_spec (fun _ => valid_tableInit) ops
  · refine iff_of_false (fun ⟨tables, hrun, _⟩ => ?_) hruns
    rw [hnone] at hrun
    cases hrun
  · refine iff_of_true ⟨tables, hrun, hmaps, fun i => ⟨fun k v => ?_, (hvalid i).addressed.unique, (hvalid i).load_le, (hvalid i).max_load⟩⟩ hruns
    rw [(hvalid i).addressed.contents_eq_some, List.mem_iff_getElem?]

end Histories

/-! ### More keys than an `int` counts -/

/-- So many keys are put into a table, one after the other. -/
def setAll (n : Nat) : List (TableOp Nat Unit) := (List.range n).map fun k => .set 0 k ()

theorem mapRun_set (keys : List Nat) (maps : Nat → Nat → Option Unit) (k : Nat) :
    (mapRun maps (keys.map fun k => .set 0 k ())).2 0 k = if k ∈ keys then some () else maps 0 k := by
  induction keys generalizing maps with
  | nil => rfl
  | cons key keys ih =>
    change (mapRun (Function.update maps 0 (Function.update (maps 0) key (some ()))) (keys.map fun k => .set 0 k ())).2 0 k = _
    rw [ih, Function.update_self]
    by_cases hkey : k = key
    · subst hkey
      simp
    · simp [hkey]

/-- Each key that is found has an entry of its own. -/
theorem le_length_of_contents {entries : List (Slot Nat Unit)} {hash : Nat → Nat} (haddr : Addressed hash entries) {n : Nat}
    (h : ∀ k < n, contents entries k = some ()) : n ≤ entries.length := by
  have hentry : ∀ k : Fin n, ∃ i : Fin entries.length, entries[i.1]? = some (.live k.1 ()) := by
    intro k
    obtain ⟨i, hi⟩ := haddr.contents_eq_some.mp (h k.1 k.2)
    exact ⟨⟨i, (List.getElem?_eq_some_iff.mp hi).1⟩, hi⟩
  choose place hplace using hentry
  have hinjective : Function.Injective place := by
    intro k k' heq
    have hk := hplace k
    rw [heq, hplace k'] at hk
    injection hk with hk
    injection hk with hk
    exact Fin.ext hk.symm
  simpa using Fintype.card_le_of_injective place hinjective

/-- More keys than the largest `int` do not go into a table. -/
theorem not_refinesMap_setAll {n : Nat} (hn : intMax < n) (hash : Nat → Nat) : ¬RefinesMap hash (setAll n) := by
  rintro ⟨tables, hrun, -⟩
  obtain ⟨hvalid, hmaps⟩ := tableRun_ok (fun _ => valid_tableInit) hrun
  have hall : ∀ k < n, contents (tables 0).entries k = some () := by
    intro k hk
    change mapsOf tables 0 k = _
    rw [hmaps, setAll, mapRun_set, if_pos (List.mem_range.mpr hk)]
  have hle := le_length_of_contents (hvalid 0).addressed hall
  have hint := (hvalid 0).capacity_le
  rw [Table.capacity] at hint
  omega

theorem table_not_map : ¬ ∀ ops : List (TableOp Nat Unit), RefinesMap id ops := fun h =>
  not_refinesMap_setAll (Nat.lt_succ_self intMax) id (h (setAll (intMax + 1)))

end Reading.Clox
