import Reading.Clox.Table

/-!
# Interned strings

Every string object of the virtual machine is made by `vmstring_copy` or `vmstring_take` (`compiler.c`), which look for an object with the same characters in the table `vm.strings` first. The characters of an object never change, so a pointer to it is its address with the characters found there. The hash of a string is that of its characters, by a function that is left open.
-/

namespace Reading.Clox

open Reading.Lib

/-- The characters of a string, without the final null. -/
abbrev Chars := List UInt8

/-- `hash_string`, with a `char` that has a sign. -/
def fnvHashString (chars : Chars) : Nat :=
  (chars.foldl (fun (hash : UInt32) c => (hash ^^^ c.toInt8.toInt32.toUInt32) * 16777619) 2166136261).toNat

/-- A pointer to a string object. -/
structure VmString where
  addr : Nat
  chars : Chars
deriving DecidableEq

/-- `vm.strings`, whose values are all nil, and the address of the next object. -/
structure Strings where
  table : Table VmString Unit
  next : Nat

variable (hashString : Chars → Nat)

/-- The hash of the object. -/
def VmString.hash (s : VmString) : Nat := hashString s.chars

/-- The loop of `table_find_string` at `index`; after as many steps as there are entries it would go round for ever. -/
def findStringFrom {V : Type} (entries : List (Slot VmString V)) (chars : Chars) : Nat → Nat → Option (Option VmString)
  | 0, _ => none
  | fuel + 1, index =>
    match entries[index]? with
    | some (.live key _) =>
      if key.chars = chars then some (some key) else findStringFrom entries chars fuel ((index + 1) % entries.length)
    | some _ => some none
    | none => none

def tableFindString {V : Type} (t : Table VmString V) (chars : Chars) : Option (Option VmString) :=
  if t.entries = [] then some none
  else findStringFrom t.entries chars t.entries.length (hashString chars % t.entries.length)

/-- `new_vmstring`. -/
def newVmstring (st : Strings) (chars : Chars) : Option (VmString × Strings) := do
  let string := { addr := st.next, chars := chars }
  let (_, table) ← tableSet (VmString.hash hashString) st.table string ()
  some (string, { table := table, next := st.next + 1 })

/-- `vmstring_copy`, and `vmstring_take` too, which differ in whose memory the characters stay in. -/
def vmstringCopy (st : Strings) (chars : Chars) : Option (VmString × Strings) := do
  match ← tableFindString hashString st.table chars with
  | some interned => some (interned, st)
  | none => newVmstring hashString st chars

/-- The object is in the table. -/
def Strings.Has (st : Strings) (s : VmString) : Prop := contents st.table.entries s = some ()

/-- The table holds one object for each sequence of characters it knows. -/
structure Strings.Valid (st : Strings) : Prop where
  valid : st.table.Valid (VmString.hash hashString)
  noTombstone : Slot.tombstone ∉ st.table.entries
  old : ∀ s, st.Has s → s.addr < st.next
  interned : ∀ s s', st.Has s → st.Has s' → s.chars = s'.chars → s = s'
  object : ∀ s s', st.Has s → st.Has s' → s.addr = s'.addr → s = s'

section Lookup

variable {hashString}

variable {V : Type} {entries : List (Slot VmString V)} {chars : Chars}

variable (hashString) in
/-- The entry at so many places behind the home of the characters is live and has others. -/
def Differs (entries : List (Slot VmString V)) (chars : Chars) (d : Nat) : Prop :=
  ∃ key v, entries[around entries.length (hashString chars) d]? = some (.live key v) ∧ key.chars ≠ chars

/-- The loop stops at the first entry that has no key, or whose key has the characters. -/
theorem findStringFrom_spec {stop : Nat} (hstop : stop < entries.length)
    (hempty : entries[around entries.length (hashString chars) stop]? = some .empty) (fuel d : Nat) (hfuel : d + fuel = entries.length)
    (hdiffers : ∀ e < d, Differs hashString entries chars e) :
    ∃ d' < entries.length, (∀ e < d', Differs hashString entries chars e) ∧
      ((∃ key v, findStringFrom entries chars fuel (around entries.length (hashString chars) d) = some (some key) ∧
          entries[around entries.length (hashString chars) d']? = some (.live key v) ∧ key.chars = chars) ∨
        findStringFrom entries chars fuel (around entries.length (hashString chars) d) = some none ∧
          ∃ slot, entries[around entries.length (hashString chars) d']? = some slot ∧ slot.isLive = false) := by
  induction fuel generalizing d with
  | zero =>
    obtain ⟨key, v, hlive, -⟩ := hdiffers stop (by omega)
    rw [hempty] at hlive
    cases hlive
  | succ fuel ih =>
    have hlt : around entries.length (hashString chars) d < entries.length := around_lt (by omega) _ _
    have hslot : entries[around entries.length (hashString chars) d]? = some entries[around entries.length (hashString chars) d] :=
      List.getElem?_eq_getElem hlt
    generalize entries[around entries.length (hashString chars) d] = slot at hslot
    rw [findStringFrom, hslot, around_succ]
    cases slot with
    | empty => exact ⟨d, by omega, hdiffers, .inr ⟨rfl, _, hslot, rfl⟩⟩
    | tombstone => exact ⟨d, by omega, hdiffers, .inr ⟨rfl, _, hslot, rfl⟩⟩
    | live key v =>
      by_cases hkey : key.chars = chars
      · exact ⟨d, by omega, hdiffers, .inl ⟨key, v, if_pos hkey, hslot, hkey⟩⟩
      · simp only [if_neg hkey]
        apply ih (d + 1) (by omega)
        intro e he
        rcases Nat.lt_succ_iff_lt_or_eq.mp he with hlt | rfl
        · exact hdiffers e hlt
        · exact ⟨key, v, hslot, hkey⟩

/-- In a table that is reached through its operations the search comes to an end, where the loop stops. -/
theorem tableFindString_stops {t : Table VmString V} (h : t.Valid (VmString.hash hashString)) (hne : t.entries ≠ []) (chars : Chars) :
    ∃ d < t.entries.length, (∀ e < d, Differs hashString t.entries chars e) ∧
      ((∃ key v, tableFindString hashString t chars = some (some key) ∧
          t.entries[around t.entries.length (hashString chars) d]? = some (.live key v) ∧ key.chars = chars) ∨
        tableFindString hashString t chars = some none ∧
          ∃ slot, t.entries[around t.entries.length (hashString chars) d]? = some slot ∧ slot.isLive = false) := by
  have hpos := List.length_pos_iff.mpr hne
  have hload := h.load_le
  have hmax := h.max_load
  rw [Table.capacity] at hmax
  obtain ⟨i, hi⟩ := exists_empty (show load t.entries < t.entries.length by omega)
  obtain ⟨hlt, _⟩ := List.getElem?_eq_some_iff.mp hi
  obtain ⟨stop, hstop, rfl⟩ := exists_around (hashString chars) hlt
  rw [tableFindString, if_neg hne]
  exact findStringFrom_spec hstop hi t.entries.length 0 (by omega) (fun e he => absurd he (Nat.not_lt_zero e))

variable {st : Strings}

/-- The object with the characters is found, if there is one. -/
theorem tableFindString_spec (h : st.Valid hashString) (chars : Chars) :
    (∃ s, tableFindString hashString st.table chars = some (some s) ∧ st.Has s ∧ s.chars = chars) ∨
      (tableFindString hashString st.table chars = some none ∧ ∀ s, st.Has s → s.chars ≠ chars) := by
  by_cases hnil : st.table.entries = []
  · refine .inr ⟨by rw [tableFindString, if_pos hnil], fun s hs => ?_⟩
    rw [Strings.Has, hnil] at hs
    cases hs
  · obtain ⟨d, hd, hdiffers, ⟨s, v, hfind, hs, hchars⟩ | ⟨hfind, slot, hslot, hfree⟩⟩ := tableFindString_stops h.valid hnil chars
    · exact .inl ⟨s, hfind, h.valid.addressed.contents_eq_some.mpr ⟨_, hs⟩, hchars⟩
    · refine .inr ⟨hfind, fun s hs hchars => ?_⟩
      have hempty : slot = .empty := by
        cases slot with
        | empty => rfl
        | tombstone => exact absurd (List.mem_of_getElem? hslot) h.noTombstone
        | live => cases hfree
      subst hempty
      obtain ⟨j, hj⟩ := h.valid.addressed.contents_eq_some.mp hs
      refine @Addressed.absent_of_empty _ _ _ _ s h.valid.addressed d hd (by rw [VmString.hash, hchars]; exact hslot) ?_ j () hj
      intro e he v hlive
      rw [VmString.hash, hchars] at hlive
      obtain ⟨key, w, hother, hne⟩ := hdiffers e he
      rw [hlive] at hother
      cases hother
      exact hne hchars

end Lookup

/-! ### Making a string -/

section Tombstones

variable {K V : Type} [DecidableEq K] {hash : K → Nat}

omit [DecidableEq K] in
theorem tombstone_notMem_set {entries : List (Slot K V)} (h : Slot.tombstone ∉ entries) (i : Nat) (k : K) (v : V) :
    Slot.tombstone ∉ entries.set i (.live k v) := by
  intro hmem
  rcases List.mem_or_eq_of_mem_set hmem with hold | hnew
  · exact h hold
  · cases hnew

theorem tombstone_notMem_move (entries : List (Slot K V)) {moved moved' : List (Slot K V) × Nat}
    (h : Slot.tombstone ∉ moved.1) (hfold : entries.foldlM (moveEntry hash) moved = some moved') :
    Slot.tombstone ∉ moved'.1 := by
  induction entries generalizing moved with
  | nil =>
    cases hfold
    exact h
  | cons entry entries ih =>
    rw [List.foldlM_cons, Option.bind_eq_bind, Option.bind_eq_some_iff] at hfold
    obtain ⟨mid, hstep, hrest⟩ := hfold
    cases entry with
    | live key value =>
      rw [moveEntry, Option.bind_eq_bind, Option.bind_eq_some_iff] at hstep
      obtain ⟨dest, _, hmid⟩ := hstep
      cases hmid
      exact ih (tombstone_notMem_set h dest key value) hrest
    | empty | tombstone =>
      cases hstep
      exact ih h hrest

/-- Insertion makes no tombstones. -/
theorem tombstone_notMem_tableSet {t t' : Table K V} {key : K} {value : V} {new : Bool} (h : Slot.tombstone ∉ t.entries)
    (hset : tableSet hash t key value = some (new, t')) : Slot.tombstone ∉ t'.entries := by
  simp only [tableSet, Option.bind_eq_bind, Option.bind_eq_some_iff] at hset
  obtain ⟨big, hbig, index, _, heq⟩ := hset
  cases heq
  apply tombstone_notMem_set
  rw [ensureCapacity] at hbig
  split at hbig
  · simp only [adjustCapacity, Option.bind_eq_bind, Option.bind_eq_some_iff] at hbig
    obtain ⟨capacity, -, moved, hmoved, heq⟩ := hbig
    cases heq
    exact tombstone_notMem_move t.entries (by simp) hmoved
  · cases hbig
    exact h

end Tombstones

section Interning

variable {hashString} {st : Strings}

def Strings.empty : Strings := { table := tableInit, next := 0 }

theorem valid_empty : Strings.empty.Valid hashString where
  valid := valid_tableInit
  noTombstone := by simp [Strings.empty, tableInit]
  old _ hs := nomatch hs
  interned _ _ hs := nomatch hs
  object _ _ hs := nomatch hs

/-- The table after the insertion of an object at a new address, if it has room for that. -/
theorem newVmstring_spec (h : st.Valid hashString) {chars : Chars} (habsent : ∀ s, st.Has s → s.chars ≠ chars) :
    newVmstring hashString st chars = none ∨
      ∃ s st', newVmstring hashString st chars = some (s, st') ∧ st'.Valid hashString ∧ s.chars = chars ∧
        ∀ s', st'.Has s' ↔ st.Has s' ∨ s' = s := by
  obtain ⟨-, hnone⟩ | ⟨t, -, hset, hvalid, hcontents⟩ := tableSet_spec h.valid { addr := st.next, chars := chars } ()
  · exact .inl (by rw [newVmstring, hnone]; rfl)
  right
  have hhas : ∀ s', Strings.Has { table := t, next := st.next + 1 } s' ↔ st.Has s' ∨ s' = { addr := st.next, chars := chars } := by
    intro s'
    rw [Strings.Has, Strings.Has, hcontents]
    by_cases hs : s' = { addr := st.next, chars := chars }
    · simp [hs]
    · simp [hs]
  refine ⟨_, _, by rw [newVmstring, hset]; rfl, ⟨hvalid, tombstone_notMem_tableSet h.noTombstone hset, ?_, ?_, ?_⟩, rfl, hhas⟩
  · intro s hs
    rcases (hhas s).mp hs with hold | rfl
    · exact Nat.lt_succ_of_lt (h.old s hold)
    · exact Nat.lt_succ_self _
  · intro s s' hs hs' hchars
    rcases (hhas s).mp hs with hold | rfl
    · rcases (hhas s').mp hs' with hold' | rfl
      · exact h.interned s s' hold hold' hchars
      · exact absurd hchars (habsent s hold)
    · rcases (hhas s').mp hs' with hold' | rfl
      · exact absurd hchars.symm (habsent s' hold')
      · rfl
  · intro s s' hs hs' haddr
    rcases (hhas s).mp hs with hold | rfl
    · rcases (hhas s').mp hs' with hold' | rfl
      · exact h.object s s' hold hold' haddr
      · exact absurd haddr (Nat.ne_of_lt (h.old s hold))
    · rcases (hhas s').mp hs' with hold' | rfl
      · exact absurd haddr.symm (Nat.ne_of_lt (h.old s' hold'))
      · rfl

/-- The object for the characters is in the table afterwards, and no object leaves it, unless the table has no room. -/
theorem vmstringCopy_spec (h : st.Valid hashString) (chars : Chars) :
    vmstringCopy hashString st chars = none ∨
      ∃ s st', vmstringCopy hashString st chars = some (s, st') ∧ st'.Valid hashString ∧ s.chars = chars ∧ st'.Has s ∧
        ∀ s', st.Has s' → st'.Has s' := by
  obtain ⟨s, hfind, hs, hchars⟩ | ⟨hfind, habsent⟩ := tableFindString_spec h chars
  · exact .inr ⟨s, st, by rw [vmstringCopy, hfind]; rfl, h, hchars, hs, fun _ hs' => hs'⟩
  · obtain hnone | ⟨s, st', hnew, hvalid, hchars, hhas⟩ := newVmstring_spec h habsent
    · exact .inl (by rw [vmstringCopy, hfind]; exact hnone)
    · exact .inr ⟨s, st', by rw [vmstringCopy, hfind]; exact hnew, hvalid, hchars, (hhas s).mpr (.inr rfl),
        fun s' hs' => (hhas s').mpr (.inl hs')⟩

/-- What a call that has a result has done. -/
theorem vmstringCopy_ok (h : st.Valid hashString) {chars : Chars} {s : VmString} {st' : Strings}
    (hcopy : vmstringCopy hashString st chars = some (s, st')) :
    st'.Valid hashString ∧ s.chars = chars ∧ st'.Has s ∧ ∀ s', st.Has s' → st'.Has s' := by
  obtain hnone | ⟨s', st₁, hsome, hspec⟩ := vmstringCopy_spec h chars
  · rw [hcopy] at hnone
    cases hnone
  · rw [hcopy] at hsome
    cases hsome
    exact hspec

end Interning

end Reading.Clox
