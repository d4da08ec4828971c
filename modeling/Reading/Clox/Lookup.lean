import Reading.Clox.Strings

/-!
# Looking for characters

`table_find_string` has a loop of its own, which stops at the first entry without a key. So it does not pass over tombstones as `find_entry` does, and misses a key behind one. In the table of strings nothing is ever removed and it finds what it looks for; in other tables it may not.
-/

namespace Reading.Clox

open Reading.Lib

section Find

variable (hashString : Chars → Nat) {V : Type}

/-- What is to hold of a search: it comes to an end, with a live key that has the characters or, if there is none, with nothing. -/
def FindsByContent (t : Table VmString V) (chars : Chars) : Prop :=
  ∃ found, tableFindString hashString t chars = some found ∧
    (∀ s, found = some s → s.chars = chars ∧ ∃ v, Slot.live s v ∈ t.entries) ∧
    (found = none → ∀ s v, Slot.live s v ∈ t.entries → s.chars ≠ chars)

/-- Each live key with the characters has a tombstone between its home and its entry. -/
def Hidden (entries : List (Slot VmString V)) (chars : Chars) : Prop :=
  ∀ s d v, entries[around entries.length (hashString chars) d]? = some (.live s v) → s.chars = chars →
    ∃ e < d, entries[around entries.length (hashString chars) e]? = some .tombstone

variable {hashString} {t : Table VmString V} {chars : Chars}

theorem differs_not_live {entries : List (Slot VmString V)} {e : Nat} (h : Differs hashString entries chars e) {s : VmString} {v : V}
    (hlive : entries[around entries.length (hashString chars) e]? = some (.live s v)) : s.chars ≠ chars := by
  obtain ⟨key, w, hother, hne⟩ := h
  rw [hlive] at hother
  cases hother
  exact hne

theorem findsByContent_iff (h : t.Valid (VmString.hash hashString)) :
    FindsByContent hashString t chars ↔ ((∃ s v, Slot.live s v ∈ t.entries ∧ s.chars = chars) → ¬Hidden hashString t.entries chars) := by
  by_cases hnil : t.entries = []
  · refine iff_of_true ⟨none, by rw [tableFindString, if_pos hnil], fun _ h => absurd h (Option.not_mem_none _), fun _ s v hlive => ?_⟩ ?_
    · rw [hnil] at hlive
      exact absurd hlive List.not_mem_nil
    · rintro ⟨s, v, hlive, -⟩
      rw [hnil] at hlive
      exact absurd hlive List.not_mem_nil
  obtain ⟨d, hd, hdiffers, ⟨key, w, hfind, hkey, hchars⟩ | ⟨hfind, slot, hslot, hfree⟩⟩ := tableFindString_stops h hnil chars
  · -- a key with the characters comes before any tombstone
    refine iff_of_true ⟨some key, hfind, ?_, fun h => absurd h (Option.some_ne_none _)⟩ fun _ hhidden => ?_
    · rintro s ⟨⟩
      exact ⟨hchars, w, List.mem_of_getElem? hkey⟩
    · obtain ⟨e, he, htomb⟩ := hhidden key d w hkey hchars
      obtain ⟨_, _, hlive, -⟩ := hdiffers e he
      rw [htomb] at hlive
      cases hlive
  · have hmissed (s : VmString) (e : Nat) (v : V)
        (hlive : t.entries[around t.entries.length (hashString chars) e]? = some (.live s v)) (hchars : s.chars = chars) : d < e := by
      by_contra hle
      obtain hlt | rfl := Nat.lt_or_eq_of_le (Nat.not_lt.mp hle)
      · exact differs_not_live (hdiffers e hlt) hlive hchars
      · rw [hslot] at hlive
        cases hlive
        cases hfree
    constructor
    · rintro ⟨found, hfound, -, hnone⟩ ⟨s, v, hlive, hchars⟩
      rw [hfind] at hfound
      cases hfound
      exact absurd hchars (hnone rfl s v hlive)
    · intro hopen
      refine ⟨none, hfind, fun _ h => absurd h (Option.not_mem_none _), fun _ s v hlive hchars => ?_⟩
      refine hopen ⟨s, v, hlive, hchars⟩ fun s' e v' hlive' hchars' => ⟨d, hmissed s' e v' hlive' hchars', ?_⟩
      cases slot with
      | tombstone => exact hslot
      | live => cases hfree
      | empty =>
        -- behind an empty entry no key with this home can be
        obtain ⟨j, hj⟩ := List.getElem?_of_mem hlive
        refine absurd hj (@Addressed.absent_of_empty _ _ _ _ s h.addressed d hd (by rw [VmString.hash, hchars]; exact hslot) ?_ j v)
        intro e he v hlive
        rw [VmString.hash, hchars] at hlive
        exact differs_not_live (hdiffers e he) hlive hchars

/-- In every table of every history a search by content is right exactly if no live key with the characters, or not each of them, is behind a tombstone. -/
theorem find_string_iff (ops : List (TableOp VmString V)) (answers : List (TableAnswer V)) (tables : Nat → Table VmString V)
    (hrun : tableRun (VmString.hash hashString) (fun _ => tableInit) ops = some (answers, tables)) (i : Nat) (chars : Chars) :
    FindsByContent hashString (tables i) chars ↔
      ((∃ s v, Slot.live s v ∈ (tables i).entries ∧ s.chars = chars) → ¬Hidden hashString (tables i).entries chars) := by
  have hinit (_ : Nat) : (tableInit : Table VmString V).Valid (VmString.hash hashString) := valid_tableInit
  exact findsByContent_iff ((tableRun_ok hinit hrun).1 i)

end Find

/-- The strings `a` and `i`, which have one home, are put into a table, and the first one is removed. -/
def removeFirst : List (TableOp VmString Unit) :=
  [.set 0 { addr := 0, chars := [97] } (), .set 0 { addr := 1, chars := [105] } (), .delete 0 { addr := 0, chars := [97] }]

theorem find_string_iff_first : ∃ answers tables,
    tableRun (VmString.hash fnvHashString) (fun _ => tableInit) removeFirst = some (answers, tables) ∧
      (FindsByContent fnvHashString (tables 0) [105] ↔
        ((∃ s v, Slot.live s v ∈ (tables 0).entries ∧ s.chars = [105]) → ¬Hidden fnvHashString (tables 0).entries [105])) := by
  have hrun : (tableRun (VmString.hash fnvHashString) (fun _ => tableInit) removeFirst).isSome := by decide +kernel
  obtain ⟨⟨answers, tables⟩, htables⟩ := Option.isSome_iff_exists.mp hrun
  exact ⟨answers, tables, htables, find_string_iff removeFirst answers tables htables 0 [105]⟩

/-- The second string is there, and is not found. -/
theorem not_found_behind : ∃ answers tables,
    tableRun (VmString.hash fnvHashString) (fun _ => tableInit) removeFirst = some (answers, tables) ∧
      Slot.live { addr := 1, chars := [105] } () ∈ (tables 0).entries ∧ tableFindString fnvHashString (tables 0) [105] = some none ∧
        ¬FindsByContent fnvHashString (tables 0) [105] := by
  have hrun : (tableRun (VmString.hash fnvHashString) (fun _ => tableInit) removeFirst).any fun r =>
      Slot.live { addr := 1, chars := [105] } () ∈ (r.2 0).entries ∧ tableFindString fnvHashString (r.2 0) [105] = some none := by
    decide +kernel
  obtain ⟨⟨answers, tables⟩, htables, hcheck⟩ := (Option.any_eq_true _ _).mp hrun
  obtain ⟨hlive, hfind⟩ := of_decide_eq_true hcheck
  refine ⟨answers, tables, htables, hlive, hfind, ?_⟩
  rintro ⟨found, hfound, -, hnone⟩
  rw [hfind] at hfound
  cases hfound
  exact hnone rfl _ _ hlive rfl

end Reading.Clox
