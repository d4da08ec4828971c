import Reading.Lua.Insert

/-!
# Entering a key and writing its value

The three setters look a key up and take a new one in, and their caller writes to the place they return. `enter` is what they share. A write through the place of a key changes the value of that key only.
-/

namespace Reading.Lua

open Lib (Scattered)

variable {V : Values} {t t' : Table V} {k : TValue V} {v : TValue V} {a : Nat} {p : Slot}

/-! ### Writes -/

/-- The parts of a table that no write through a place changes. -/
def Table.sizes (t : Table V) : Nat × Nat × Bool := (t.sizearray, t.lsizenode, t.dummy)

theorem sizes_of_shape (h : t'.shape = t.shape) : t'.sizes = t.sizes := congrArg Prod.snd h

theorem sizenode_of_sizes (h : t'.sizes = t.sizes) : t'.sizenode = t.sizenode := by
  simp only [Table.sizes, Prod.mk.injEq] at h
  rw [Table.sizenode, Table.sizenode, h.2.1]

theorem capacity_of_sizes (h : t'.sizes = t.sizes) : t'.capacity = t.capacity := by
  have hsize := sizenode_of_sizes h
  simp only [Table.sizes, Prod.mk.injEq] at h
  rw [Table.capacity, Table.capacity, hsize, h.2.2]

theorem inArray_of_sizes (h : t'.sizes = t.sizes) : t'.inArray k ↔ t.inArray k := inArray_congr (congrArg Prod.fst h)

/-- What a write through the place of a key leaves. -/
structure Written (t : Table V) (k v : TValue V) (t' : Table V) : Prop where
  valid : Valid t'
  sizes : t'.sizes = t.sizes
  array : ¬ t.inArray k → t'.array = t.array
  content : t'.content = Function.update t.content k v
  used : t'.used = t.used

theorem Valid.write_array (h : Valid t) (v : TValue V) (hin : t.inArray k) : Written t k v (t.write v (.array (index k - 1))) := by
  have hvalid : Valid (t.write v (.array (index k - 1))) := by
    constructor
    case buffer =>
      change t.sizearray ≤ (t.array.set (index k - 1) v).length
      rw [List.length_set]
      exact h.buffer
    case scattered => exact h.scattered
    case inside => exact h.inside
    case vacant => exact h.vacant
    case outside => exact h.outside
    case free => exact h.free
    case lastfree_le => exact h.lastfree_le
    case blank => exact h.blank
    case lsizenode_le => exact h.lsizenode_le
    case sizearray_lt => exact h.sizearray_lt
  refine ⟨hvalid, rfl, fun hout => absurd hin hout, ?_, rfl⟩
  funext k'
  have hlt : index k - 1 < t.array.length := by
    have hbuffer := h.buffer
    have hpos := hin.1
    have hle := hin.2
    omega
  by_cases heq : k' = k
  · subst heq
    have hstill : (t.write v (.array (index k' - 1))).inArray k' := hin
    rw [Function.update_self, content_array hstill]
    change (t.array.set (index k' - 1) v).getD (index k' - 1) .nil = v
    simp [List.getD, hlt]
  rw [Function.update_of_ne heq]
  by_cases hin' : t.inArray k'
  · have hstill : (t.write v (.array (index k - 1))).inArray k' := hin'
    rw [content_array hin', content_array hstill]
    change (t.array.set (index k - 1) v).getD (index k' - 1) .nil = t.array.getD (index k' - 1) .nil
    have hne : index k - 1 ≠ index k' - 1 := by
      intro hsame
      have hpos := hin.1
      have hpos' := hin'.1
      exact heq (index_inj hpos' (by omega))
    simp [List.getD, hne]
  · by_cases hused : ∃ a, keyAt t a = some k'
    · obtain ⟨a, ha⟩ := hused
      rw [h.content_node ha, hvalid.content_node (a := a) ha]
      rfl
    · rw [h.content_absent hin' (not_exists.mp hused), hvalid.content_absent hin' (not_exists.mp hused)]

theorem Valid.write_node (h : Valid t) (v : TValue V) (ha : keyAt t a = some k) : Written t k v (t.write v (.node a)) := by
  have hkey : keyAt (t.write v (.node a)) = keyAt t := keyAt_setNode_same t rfl
  have hnext : nextAt (t.write v (.node a)) = nextAt t := by
    rw [Table.write, nextAt_setNode]
    exact Function.update_eq_self a (nextAt t)
  have hvalid : Valid (t.write v (.node a)) := by
    constructor
    case scattered =>
      rw [hkey, hnext]
      exact h.scattered
    case inside => exact hkey ▸ h.inside
    case vacant =>
      intro b hb
      rw [hkey] at hb
      have hne : b ≠ a := fun heq => by
        rw [heq, ha] at hb
        cases hb
      rw [Table.write, setNode_of_ne t _ hne]
      exact h.vacant hb
    case outside => exact hkey ▸ h.outside
    case free => exact hkey ▸ h.free
    case lastfree_le => exact h.lastfree_le
    case blank => exact hkey ▸ h.blank
    case lsizenode_le => exact h.lsizenode_le
    case buffer => exact h.buffer
    case sizearray_lt => exact h.sizearray_lt
  have hused : (t.write v (.node a)).used = t.used := by
    rw [Table.used, Table.used, hkey]
    rfl
  refine ⟨hvalid, rfl, fun _ => rfl, ?_, hused⟩
  funext k'
  by_cases heq : k' = k
  · subst heq
    rw [Function.update_self, hvalid.content_node (a := a) (by rw [hkey, ha]), Table.write, setNode_self]
  rw [Function.update_of_ne heq]
  by_cases hin : t.inArray k'
  · have hstill : (t.write v (.node a)).inArray k' := hin
    rw [content_array hin, content_array hstill]
    rfl
  · by_cases hold : ∃ b, keyAt t b = some k'
    · obtain ⟨b, hb⟩ := hold
      have hne : b ≠ a := fun hba => by
        rw [hba, ha] at hb
        exact heq (Option.some.inj hb).symm
      rw [h.content_node hb, hvalid.content_node (a := b) (by rw [hkey, hb]), Table.write, setNode_of_ne t _ hne]
    · rw [h.content_absent hin (not_exists.mp hold), hvalid.content_absent hin (by rw [hkey]; exact not_exists.mp hold)]

theorem Valid.write (h : Valid t) (v : TValue V) (hp : t.place k ≠ .nilobject) : Written t k v (t.write v (t.place k)) := by
  by_cases hin : t.inArray k
  · rw [place_array hin]
    exact h.write_array v hin
  · by_cases hused : ∃ a, keyAt t a = some k
    · obtain ⟨a, ha⟩ := hused
      rw [h.place_node ha]
      exact h.write_node v ha
    · exact absurd (h.place_absent hin (not_exists.mp hused)) hp

/-! ### Setters -/

/-- What the setters share: a key that has a place keeps it, and any other is taken in. -/
def enter (newkey : Newkey V) (t : Table V) (k : TValue V) : Except Stop (Table V × Slot) :=
  match t.place k with
  | .nilobject => newkey t k
  | p => .ok (t, p)

theorem enter_placed (newkey : Newkey V) (hp : t.place k ≠ .nilobject) : enter newkey t k = .ok (t, t.place k) := by
  rw [enter]
  cases hplace : t.place k with
  | nilobject => exact absurd hplace hp
  | array i => rfl
  | node a => rfl

theorem Valid.luaHSet_eq (h : Valid t) (newkey : Newkey V) (hk : k ≠ .nil) : luaHSet newkey t k = enter newkey t k := by
  rw [luaHSet, h.luaHGet_eq, enter]
  cases t.place k with
  | nilobject => exact if_neg hk
  | array i => rfl
  | node i => rfl

theorem Valid.luaHSetnum_eq (h : Valid t) (newkey : Newkey V) (j : Int32) :
    luaHSetnum newkey t j = enter newkey t (.number (V.castNum j)) := by
  rw [luaHSetnum, h.luaHGetnum_eq, enter]
  cases t.place (.number (V.castNum j)) <;> rfl

theorem Valid.luaHSetstr_eq (h : Valid t) (newkey : Newkey V) (s : V.Str) :
    luaHSetstr newkey t s = enter newkey t (.string s) := by
  rw [luaHSetstr, h.luaHGetstr_eq, enter]
  cases t.place (.string s) <;> rfl

/-- A key has its place in a valid table with the same content. -/
structure Entered (t : Table V) (k : TValue V) (t' : Table V) (p : Slot) : Prop where
  valid : Valid t'
  place : p = t'.place k
  exists_place : p ≠ .nilobject
  content : t'.content = t.content

theorem Inserted.entered (h : Inserted t k t' p) : Entered t k t' p := ⟨h.valid, h.place, h.exists_place, h.content⟩

theorem Valid.entered_self (h : Valid t) (hp : t.place k ≠ .nilobject) : Entered t k t (t.place k) := ⟨h, rfl, hp, rfl⟩

/-- The write that follows gives the key its value and leaves the others. -/
theorem Entered.write (h : Entered t k t' p) (v : TValue V) : Written t' k v (t'.write v p) := by
  have hp := h.exists_place
  rw [h.place] at hp ⊢
  exact h.valid.write v hp

end Reading.Lua
