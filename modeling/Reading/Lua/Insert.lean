import Reading.Lua.Lookup

/-!
# A new key

As long as a node is free `newkey` finds a place for a key: in its main position, behind the key that lives there, or in the place of a stranger that moves away. `Newcomer` says what these three have in common, and from that the content of the table is what it was.
-/

namespace Reading.Lua

open Lib (Scattered Links findBefore findBefore_found linkBehind relink)

variable {V : Values} {t t' : Table V} {k key : TValue V} {a i mp n : Nat} {p : Slot}

/-! ### Contents -/

theorem content_array (h : t.inArray k) : t.content k = t.array.getD (index k - 1) .nil := by
  rw [Table.content, place_array h, Table.read]

theorem Valid.content_node (h : Valid t) (ha : keyAt t a = some k) : t.content k = (t.node a).val := by
  rw [Table.content, h.place_node ha, Table.read]

theorem Valid.content_absent (h : Valid t) (harray : ¬ t.inArray k) (hfresh : ∀ a, keyAt t a ≠ some k) :
    t.content k = .nil := by
  rw [Table.content, h.place_absent harray hfresh, Table.read]

/-! ### Room -/

/-- How many nodes have a key. -/
def Table.used (t : Table V) : Nat := ((Finset.range t.sizenode).filter fun a => keyAt t a ≠ none).card

/-- How many keys the hash part has room for. -/
def Table.capacity (t : Table V) : Nat := if t.dummy then 0 else t.sizenode

/-- The parts of a table that only a rehash changes. -/
def Table.shape (t : Table V) : List (TValue V) × Nat × Nat × Bool := (t.array, t.sizearray, t.lsizenode, t.dummy)

theorem inArray_congr (h : t'.sizearray = t.sizearray) : t'.inArray k ↔ t.inArray k := by
  rw [Table.inArray, Table.inArray, h]

/-! ### Newcomers -/

/-- The key `k` came into the hash part of `t`, with no value yet, and `p` is its place. -/
structure Newcomer (t : Table V) (k : TValue V) (t' : Table V) (p : Slot) : Prop where
  shape : t'.shape = t.shape
  scattered : Scattered (mainposition t) (keyAt t') (nextAt t')
  keys : ∀ {a k'}, keyAt t' a = some k' →
    k' = k ∧ (t'.node a).val = .nil ∨ k' ≠ k ∧ ∃ b, keyAt t b = some k' ∧ (t'.node a).val = (t.node b).val
  kept : ∀ {b k'}, keyAt t b = some k' → (t.node b).val ≠ .nil → ∃ a, keyAt t' a = some k'
  self : ∃ a, keyAt t' a = some k ∧ p = .node a
  still_used : ∀ {a}, keyAt t a ≠ none → keyAt t' a ≠ none
  inside : ∀ {a}, keyAt t' a ≠ none → a < t.sizenode
  vacant : ∀ {a}, keyAt t' a = none → (t'.node a).val = .nil
  free : ∀ {a}, a < t.sizenode → t'.lastfree ≤ a → keyAt t' a ≠ none
  lastfree_le : t'.lastfree ≤ t.sizenode
  one : ∃ n, ∀ a, a ≠ n → keyAt t' a ≠ none → keyAt t a ≠ none

/-- What `newkey` does while there is room. -/
structure Inserted (t : Table V) (k : TValue V) (t' : Table V) (p : Slot) : Prop where
  valid : Valid t'
  shape : t'.shape = t.shape
  place : p = t'.place k
  exists_place : p ≠ .nilobject
  content : t'.content = t.content
  used : t'.used ≤ t.used + 1

section Newcomer

variable (h : Valid t) (hdummy : t.dummy = false) (hplace : t.place k = .nilobject) (hnew : Newcomer t k t' p)

include hnew

theorem Newcomer.sizenode : t'.sizenode = t.sizenode := by
  have hshape := hnew.shape
  simp only [Table.shape, Prod.mk.injEq] at hshape
  rw [Table.sizenode, Table.sizenode, hshape.2.2.1]

theorem Newcomer.inArray (k' : TValue V) : t'.inArray k' ↔ t.inArray k' := by
  have hshape := hnew.shape
  simp only [Table.shape, Prod.mk.injEq] at hshape
  exact inArray_congr hshape.2.1

include h hdummy hplace

theorem Newcomer.valid : Valid t' := by
  have hshape := hnew.shape
  simp only [Table.shape, Prod.mk.injEq] at hshape
  obtain ⟨harray, hsize, hlsize, hdummy'⟩ := hshape
  have hsizenode := hnew.sizenode
  constructor
  case scattered =>
    rw [mainposition_congr hlsize]
    exact hnew.scattered
  case inside => exact fun ha => hsizenode ▸ hnew.inside ha
  case vacant => exact hnew.vacant
  case outside =>
    intro a k' ha
    rw [hnew.inArray]
    obtain ⟨rfl, -⟩ | ⟨-, b, hb, -⟩ := hnew.keys ha
    · exact (h.absent_of_place hplace).1
    · exact h.outside hb
  case free => exact fun _ _ ha => hnew.free (hsizenode ▸ ha)
  case lastfree_le => exact hsizenode ▸ hnew.lastfree_le
  case blank =>
    intro hblank
    rw [hdummy', hdummy] at hblank
    cases hblank
  case lsizenode_le => exact hlsize ▸ h.lsizenode_le
  case buffer => exact hsize ▸ harray ▸ h.buffer
  case sizearray_lt => exact hsize ▸ h.sizearray_lt

theorem Newcomer.content : t'.content = t.content := by
  funext k'
  have hvalid := hnew.valid h hdummy hplace
  obtain ⟨houtside, hfresh⟩ := h.absent_of_place hplace
  by_cases hin : t.inArray k'
  · have hshape := hnew.shape
    simp only [Table.shape, Prod.mk.injEq] at hshape
    rw [content_array hin, content_array ((hnew.inArray k').mpr hin), hshape.1]
  have hin' : ¬ t'.inArray k' := fun hin' => hin ((hnew.inArray k').mp hin')
  by_cases hused : ∃ a, keyAt t' a = some k'
  · obtain ⟨a, ha⟩ := hused
    rw [hvalid.content_node ha]
    obtain ⟨rfl, hval⟩ | ⟨-, b, hb, hval⟩ := hnew.keys ha
    · rw [hval, h.content_absent houtside hfresh]
    · rw [hval, h.content_node hb]
  · have hfresh' := not_exists.mp hused
    rw [hvalid.content_absent hin' hfresh']
    by_cases hold : ∃ b, keyAt t b = some k'
    · obtain ⟨b, hb⟩ := hold
      rw [h.content_node hb]
      by_contra hval
      obtain ⟨a, ha⟩ := hnew.kept hb (Ne.symm hval)
      exact hfresh' a ha
    · rw [h.content_absent hin (not_exists.mp hold)]

theorem Newcomer.inserted : Inserted t k t' p := by
  have hvalid := hnew.valid h hdummy hplace
  obtain ⟨a, ha, hp⟩ := hnew.self
  constructor
  case valid => exact hvalid
  case shape => exact hnew.shape
  case place => rw [hp, hvalid.place_node ha]
  case exists_place =>
    rw [hp]
    exact nofun
  case content => exact hnew.content h hdummy hplace
  case used =>
    obtain ⟨n, hn⟩ := hnew.one
    have hsubset : ((Finset.range t'.sizenode).filter fun a => keyAt t' a ≠ none) ⊆
        insert n ((Finset.range t.sizenode).filter fun a => keyAt t a ≠ none) := by
      intro a ha
      rw [Finset.mem_filter, hnew.sizenode] at ha
      rw [Finset.mem_insert, Finset.mem_filter]
      by_cases heq : a = n
      · exact .inl heq
      · exact .inr ⟨ha.1, hn a heq ha.2⟩
    exact (Finset.card_le_card hsubset).trans (Finset.card_insert_le _ _)

end Newcomer

/-! ### Free places -/

theorem getfreeposFrom_spec (t : Table V) (i : Nat) :
    (∃ n < i, keyAt t n = none ∧ (∀ a, n < a → a < i → keyAt t a ≠ none) ∧
      getfreeposFrom t i = ({ t with lastfree := n }, some n)) ∨
    (∀ a < i, keyAt t a ≠ none) ∧ getfreeposFrom t i = ({ t with lastfree := -1 }, none) := by
  induction i with
  | zero => exact .inr ⟨fun a ha => absurd ha (Nat.not_lt_zero a), rfl⟩
  | succ i ih =>
    rw [getfreeposFrom]
    by_cases hi : (t.node i).key = .nil
    · left
      refine ⟨i, Nat.lt_succ_self i, keyAt_eq_none.mpr hi, fun a ha ha' => by omega, ?_⟩
      rw [if_pos hi]
    · rw [if_neg hi]
      have hused : keyAt t i ≠ none := fun hnone => hi (keyAt_eq_none.mp hnone)
      obtain ⟨n, hn, hfree, habove, heq⟩ | ⟨hall, heq⟩ := ih
      · left
        refine ⟨n, Nat.lt_succ_of_lt hn, hfree, fun a ha ha' => ?_, heq⟩
        by_cases hai : a = i
        · exact hai ▸ hused
        · exact habove a ha (by omega)
      · right
        refine ⟨fun a ha => ?_, heq⟩
        by_cases hai : a = i
        · exact hai ▸ hused
        · exact hall a (by omega)

/-- Where nodes are free the search finds the last of them, and where it finds none all are used. -/
theorem Valid.getfreepos_spec (h : Valid t) (hdummy : t.dummy = false) :
    (∃ n < t.sizenode, keyAt t n = none ∧ (∀ a, n < a → a < t.sizenode → keyAt t a ≠ none) ∧
      getfreepos t = ({ t with lastfree := n }, some n)) ∨
    t.used = t.sizenode ∧ getfreepos t = ({ t with lastfree := -1 }, none) := by
  have hle := h.lastfree_le
  have habove : ∀ a, a < t.sizenode → t.lastfree.toNat ≤ a → keyAt t a ≠ none :=
    fun a ha hfrom => h.free hdummy ha (by omega)
  obtain ⟨n, hn, hfree, hbetween, heq⟩ | ⟨hall, heq⟩ := getfreeposFrom_spec t t.lastfree.toNat
  · left
    refine ⟨n, by omega, hfree, fun a ha ha' => ?_, heq⟩
    by_cases hlt : a < t.lastfree.toNat
    · exact hbetween a ha hlt
    · exact habove a ha' (by omega)
  · right
    refine ⟨?_, heq⟩
    have hevery : ∀ a ∈ Finset.range t.sizenode, keyAt t a ≠ none := by
      intro a ha
      by_cases hlt : a < t.lastfree.toNat
      · exact hall a hlt
      · exact habove a (Finset.mem_range.mp ha) (by omega)
    rw [Table.used, Finset.filter_true_of_mem hevery, Finset.card_range]

/-! ### The three ways in -/

theorem node_setNode (t : Table V) (i : Nat) (m : Node V) (a : Nat) :
    (t.setNode i m).node a = if a = i then m else t.node a :=
  Function.update_apply t.node i m a

@[simp] theorem setNode_self (t : Table V) (i : Nat) (m : Node V) : (t.setNode i m).node i = m := by
  rw [node_setNode, if_pos rfl]

theorem setNode_of_ne (t : Table V) (m : Node V) (h : a ≠ i) : (t.setNode i m).node a = t.node a := by
  rw [node_setNode, if_neg h]

@[simp] theorem shape_setNode (t : Table V) (i : Nat) (m : Node V) : (t.setNode i m).shape = t.shape := rfl

@[simp] theorem lastfree_setNode (t : Table V) (i : Nat) (m : Node V) : (t.setNode i m).lastfree = t.lastfree := rfl

theorem keyAt_setNode (t : Table V) (i : Nat) (m : Node V) :
    keyAt (t.setNode i m) = Function.update (keyAt t) i (if m.key = .nil then none else some m.key) := by
  funext a
  by_cases heq : a = i
  · subst heq
    rw [Function.update_self, keyAt, setNode_self]
  · rw [Function.update_of_ne heq, keyAt, setNode_of_ne t m heq, keyAt]

theorem nextAt_setNode (t : Table V) (i : Nat) (m : Node V) :
    nextAt (t.setNode i m) = Function.update (nextAt t) i m.next := by
  funext a
  by_cases heq : a = i
  · subst heq
    rw [Function.update_self, nextAt, setNode_self]
  · rw [Function.update_of_ne heq, nextAt, setNode_of_ne t m heq, nextAt]

theorem keyAt_chainBehind (t : Table V) (mp n : Nat) : keyAt (chainBehind t mp n) = keyAt t := by
  funext a
  rw [chainBehind, keyAt, keyAt]
  simp only [node_setNode]
  split <;> split <;> simp_all

theorem nextAt_chainBehind (t : Table V) : nextAt (chainBehind t mp n) = linkBehind (nextAt t) mp n := by
  rw [chainBehind, nextAt_setNode, nextAt_setNode, linkBehind]
  rfl

theorem val_chainBehind (t : Table V) (mp n a : Nat) : ((chainBehind t mp n).node a).val = (t.node a).val := by
  rw [chainBehind]
  simp only [node_setNode]
  split <;> split <;> simp_all

theorem keyAt_setkey (t : Table V) (i : Nat) (hk : k ≠ .nil) :
    keyAt (setkey t i k).1 = Function.update (keyAt t) i (some k) := by
  rw [setkey, keyAt_setNode]
  simp only [if_neg hk]

theorem nextAt_setkey (t : Table V) (i : Nat) : nextAt (setkey t i k).1 = nextAt t := by
  rw [setkey, nextAt_setNode]
  exact Function.update_eq_self _ _

theorem val_setkey (t : Table V) (i a : Nat) : ((setkey t i k).1.node a).val = (t.node a).val := by
  rw [setkey, node_setNode]
  split
  case isTrue heq => rw [heq]
  case isFalse => rfl

section MoveColliding

variable {othern : Nat} (hprev : othern ≠ mp)

/-- A node that keeps its key is the same to `keyAt`. -/
theorem keyAt_setNode_same (t : Table V) {m : Node V} (h : m.key = (t.node i).key) :
    keyAt (t.setNode i m) = keyAt t := by
  rw [keyAt_setNode, h]
  exact Function.update_eq_self i (keyAt t)

include hprev in
theorem keyAt_moveColliding (t : Table V) :
    keyAt (moveColliding t mp n othern) = Function.update (keyAt t) n (keyAt t mp) := by
  rw [moveColliding, keyAt_setNode_same, keyAt_setNode, keyAt_setNode_same, setNode_of_ne t _ hprev.symm]
  all_goals rfl

include hprev in
theorem nextAt_moveColliding (t : Table V) :
    nextAt (moveColliding t mp n othern) = relink (nextAt t) othern mp n := by
  rw [moveColliding, nextAt_setNode, nextAt_setNode, nextAt_setNode, setNode_of_ne t _ hprev.symm]
  rfl

include hprev in
theorem val_moveColliding (t : Table V) (a : Nat) :
    ((moveColliding t mp n othern).node a).val =
      if a = mp then .nil else if a = n then (t.node mp).val else (t.node a).val := by
  rw [moveColliding, node_setNode]
  by_cases hmp : a = mp
  · rw [if_pos hmp, if_pos hmp]
  · rw [if_neg hmp, if_neg hmp, node_setNode]
    by_cases hn : a = n
    · rw [if_pos hn, if_pos hn, setNode_of_ne t _ hprev.symm]
    · rw [if_neg hn, if_neg hn, node_setNode]
      split
      case isTrue ho => rw [ho]
      case isFalse => rfl

end MoveColliding

section Ways

variable (h : Valid t) (hk : k ≠ .nil) (hfresh : ∀ a, keyAt t a ≠ some k)

include h hk hfresh

/-- The main position is free, or its value was deleted. -/
theorem Valid.newcomer_setkey (hdummy : t.dummy = false) (hval : (t.node (mainposition t k)).val = .nil) :
    Newcomer t k (setkey t (mainposition t k) k).1 (setkey t (mainposition t k) k).2 := by
  have hkey := keyAt_setkey t (mainposition t k) hk
  have hvals := val_setkey (k := k) t (mainposition t k)
  have hof : ∀ {a}, a ≠ mainposition t k → keyAt (setkey t (mainposition t k) k).1 a = keyAt t a := by
    intro a ha
    rw [hkey, Function.update_of_ne ha]
  have hself : keyAt (setkey t (mainposition t k) k).1 (mainposition t k) = some k := by
    rw [hkey, Function.update_self]
  constructor
  case shape => rfl
  case scattered =>
    rw [hkey, nextAt_setkey]
    exact h.scattered.put hfresh
  case keys =>
    intro a k' ha
    rw [hvals]
    by_cases heq : a = mainposition t k
    · rw [heq, hself] at ha
      exact .inl ⟨(Option.some.inj ha).symm, heq ▸ hval⟩
    · rw [hof heq] at ha
      exact .inr ⟨fun hkk => hfresh a (hkk ▸ ha), a, ha, rfl⟩
  case kept =>
    intro b k' hb hbval
    have hne : b ≠ mainposition t k := fun heq => hbval (heq ▸ hval)
    exact ⟨b, by rw [hof hne, hb]⟩
  case self => exact ⟨mainposition t k, hself, rfl⟩
  case still_used =>
    intro a ha
    by_cases heq : a = mainposition t k
    · rw [heq, hself]
      exact Option.some_ne_none k
    · rwa [hof heq]
  case inside =>
    intro a ha
    by_cases heq : a = mainposition t k
    · exact heq ▸ mainposition_lt t k
    · rw [hof heq] at ha
      exact h.inside ha
  case vacant =>
    intro a ha
    rw [hvals]
    by_cases heq : a = mainposition t k
    · exact heq ▸ hval
    · rw [hof heq] at ha
      exact h.vacant ha
  case free =>
    intro a ha hlast
    by_cases heq : a = mainposition t k
    · rw [heq, hself]
      exact Option.some_ne_none k
    · rw [hof heq]
      exact h.free hdummy ha hlast
  case lastfree_le => exact h.lastfree_le
  case one => exact ⟨mainposition t k, fun a ha => by rw [hof ha]; exact id⟩

/-- The key that lives in the main position stays there, and the new one goes behind it. -/
theorem Valid.newcomer_behind (hval : (t.node (mainposition t k)).val ≠ .nil) (hn : keyAt t n = none)
    (hlt : n < t.sizenode) (habove : ∀ a, n < a → a < t.sizenode → keyAt t a ≠ none)
    (hhome : mainposition t (t.node (mainposition t k)).key = mainposition t k) :
    Newcomer t k (setkey (chainBehind { t with lastfree := n } (mainposition t k) n) n k).1
      (setkey (chainBehind { t with lastfree := n } (mainposition t k) n) n k).2 := by
  set t₁ : Table V := { t with lastfree := n } with ht₁
  have hcollides : keyAt t (mainposition t k) = some (t.node (mainposition t k)).key :=
    keyAt_eq_some.mpr ⟨rfl, fun hnil => hval (h.vacant (keyAt_eq_none.mpr hnil))⟩
  have hne : n ≠ mainposition t k := fun heq => by
    rw [← heq, hn] at hcollides
    cases hcollides
  generalize hr : setkey (chainBehind t₁ (mainposition t k) n) n k = r
  have hkey : keyAt r.1 = Function.update (keyAt t) n (some k) := by
    rw [← hr, keyAt_setkey _ n hk, keyAt_chainBehind]
    rfl
  have hnext : nextAt r.1 = linkBehind (nextAt t) (mainposition t k) n := by
    rw [← hr, nextAt_setkey, nextAt_chainBehind t₁]
    rfl
  have hvals : ∀ a, (r.1.node a).val = (t.node a).val := by
    intro a
    rw [← hr, val_setkey, val_chainBehind]
  have hof : ∀ {a}, a ≠ n → keyAt r.1 a = keyAt t a := by
    intro a ha
    rw [hkey, Function.update_of_ne ha]
  have hself : keyAt r.1 n = some k := by
    rw [hkey, Function.update_self]
  constructor
  case shape => rw [← hr]; rfl
  case scattered =>
    rw [hkey, hnext]
    exact h.scattered.behind hfresh hn hcollides hhome
  case keys =>
    intro a k' ha
    rw [hvals]
    by_cases heq : a = n
    · rw [heq, hself] at ha
      exact .inl ⟨(Option.some.inj ha).symm, heq ▸ h.vacant hn⟩
    · rw [hof heq] at ha
      exact .inr ⟨fun hkk => hfresh a (hkk ▸ ha), a, ha, rfl⟩
  case kept =>
    intro b k' hb hbval
    have hne : b ≠ n := fun heq => hbval (heq ▸ h.vacant hn)
    exact ⟨b, by rw [hof hne, hb]⟩
  case self => exact ⟨n, hself, by rw [← hr]; rfl⟩
  case still_used =>
    intro a ha
    have hne : a ≠ n := fun heq => ha (heq ▸ hn)
    rwa [hof hne]
  case inside =>
    intro a ha
    by_cases heq : a = n
    · exact heq ▸ hlt
    · rw [hof heq] at ha
      exact h.inside ha
  case vacant =>
    intro a ha
    rw [hvals]
    by_cases heq : a = n
    · exact heq ▸ h.vacant hn
    · rw [hof heq] at ha
      exact h.vacant ha
  case free =>
    intro a ha hlast
    have hlast' : (n : Int) ≤ a := by rw [← hr] at hlast; exact hlast
    by_cases heq : a = n
    · rw [heq, hself]
      exact Option.some_ne_none k
    · rw [hof heq]
      exact habove a (by omega) ha
  case lastfree_le =>
    rw [← hr]
    exact Int.ofNat_le.mpr hlt.le
  case one => exact ⟨n, fun a ha => by rw [hof ha]; exact id⟩

/-- A stranger moves out of the main position to a free node. -/
theorem Valid.newcomer_displace {othern : Nat} (hval : (t.node (mainposition t k)).val ≠ .nil) (hn : keyAt t n = none)
    (hlt : n < t.sizenode) (habove : ∀ a, n < a → a < t.sizenode → keyAt t a ≠ none)
    (hhome : mainposition t (t.node (mainposition t k)).key ≠ mainposition t k)
    (hbefore : nextAt t othern = some (mainposition t k)) :
    Newcomer t k (setkey (moveColliding { t with lastfree := n } (mainposition t k) n othern) (mainposition t k) k).1
      (setkey (moveColliding { t with lastfree := n } (mainposition t k) n othern) (mainposition t k) k).2 := by
  set t₁ : Table V := { t with lastfree := n } with ht₁
  set mp := mainposition t k with hmp
  have hcollides : keyAt t mp = some (t.node mp).key :=
    keyAt_eq_some.mpr ⟨rfl, fun hnil => hval (h.vacant (keyAt_eq_none.mpr hnil))⟩
  have hne : n ≠ mp := fun heq => by
    rw [← heq, hn] at hcollides
    cases hcollides
  have hprev : othern ≠ mp := by
    intro heq
    rw [heq] at hbefore
    exact h.scattered.no_loop hbefore
  generalize hr : setkey (moveColliding t₁ mp n othern) mp k = r
  have hkey : keyAt r.1 = Function.update (Function.update (keyAt t) n (some (t.node mp).key)) mp (some k) := by
    rw [← hr, keyAt_setkey _ mp hk, keyAt_moveColliding hprev, ← hcollides]
    rfl
  have hnext : nextAt r.1 = relink (nextAt t) othern mp n := by
    rw [← hr, nextAt_setkey, nextAt_moveColliding hprev]
    rfl
  have hvals : ∀ a, (r.1.node a).val = if a = mp then .nil else if a = n then (t.node mp).val else (t.node a).val := by
    intro a
    rw [← hr, val_setkey, val_moveColliding hprev]
  have hof : ∀ {a}, a ≠ mp → a ≠ n → keyAt r.1 a = keyAt t a ∧ (r.1.node a).val = (t.node a).val := by
    intro a ha ha'
    rw [hkey, Function.update_of_ne ha, Function.update_of_ne ha', hvals, if_neg ha, if_neg ha']
    exact ⟨rfl, rfl⟩
  have hself : keyAt r.1 mp = some k := by
    rw [hkey, Function.update_self]
  have hmoved : keyAt r.1 n = some (t.node mp).key := by
    rw [hkey, Function.update_of_ne hne, Function.update_self]
  have hmovedVal : (r.1.node n).val = (t.node mp).val := by
    rw [hvals, if_neg hne, if_pos rfl]
  have hused : ∀ {a}, a ≠ n → keyAt r.1 a ≠ none → keyAt t a ≠ none := by
    intro a ha hr
    by_cases heq : a = mp
    · rw [heq, hcollides]
      exact Option.some_ne_none _
    · rwa [(hof heq ha).1] at hr
  have hstill : ∀ {a}, keyAt t a ≠ none → keyAt r.1 a ≠ none := by
    intro a ha
    by_cases heq : a = mp
    · rw [heq, hself]
      exact Option.some_ne_none _
    · rwa [(hof heq fun han => ha (han ▸ hn)).1]
  constructor
  case shape =>
    rw [← hr]
    rfl
  case scattered =>
    rw [hkey, hnext]
    exact h.scattered.displace hfresh hn hcollides hhome hbefore
  case keys =>
    intro a k' ha
    by_cases heq : a = mp
    · rw [heq, hself] at ha
      refine .inl ⟨(Option.some.inj ha).symm, ?_⟩
      rw [hvals, if_pos heq]
    right
    by_cases hne' : a = n
    · rw [hne', hmoved] at ha
      have hk' : (t.node mp).key = k' := Option.some.inj ha
      rw [hk'] at hcollides
      exact ⟨fun hkk => hfresh mp (hkk ▸ hcollides), mp, hcollides, hne' ▸ hmovedVal⟩
    · rw [(hof heq hne').1] at ha
      exact ⟨fun hkk => hfresh a (hkk ▸ ha), a, ha, (hof heq hne').2⟩
  case kept =>
    intro b k' hb _
    by_cases heq : b = mp
    · rw [heq, hcollides] at hb
      exact ⟨n, by rw [hmoved, hb]⟩
    · have hbn : b ≠ n := fun hbn => by
        rw [hbn, hn] at hb
        cases hb
      exact ⟨b, by rw [(hof heq hbn).1, hb]⟩
  case self =>
    refine ⟨mp, hself, ?_⟩
    rw [← hr]
    rfl
  case still_used => exact hstill
  case inside =>
    intro a ha
    by_cases heq : a = n
    · exact heq ▸ hlt
    · exact h.inside (hused heq ha)
  case vacant =>
    intro a ha
    have hmp' : a ≠ mp := fun heq => by
      rw [heq, hself] at ha
      cases ha
    have hn' : a ≠ n := fun heq => by
      rw [heq, hmoved] at ha
      cases ha
    rw [(hof hmp' hn').1] at ha
    rw [(hof hmp' hn').2, h.vacant ha]
  case free =>
    intro a ha hlast
    have hlast' : (n : Int) ≤ a := by
      rw [← hr] at hlast
      exact hlast
    by_cases heq : a = n
    · rw [heq, hmoved]
      exact Option.some_ne_none _
    · exact hstill (habove a (by omega) ha)
  case lastfree_le =>
    rw [← hr]
    exact Int.ofNat_le.mpr hlt.le
  case one => exact ⟨n, fun a ha => hused ha⟩

end Ways

/-- The search for the node before a stranger starts at the stranger's own home. -/
theorem Valid.findBefore_eq (h : Valid t) (ha : keyAt t a = some k) (hne : mainposition t k ≠ a) :
    ∃ othern, findBefore (nextAt t) a t.sizenode (mainposition t k) = some (some othern) ∧ nextAt t othern = some a := by
  obtain ⟨l, l', othern, hlinks, hnext⟩ := h.scattered.exists_before ha hne
  have hs : ∀ {c}, keyAt t c ≠ none → c ∈ Finset.range t.sizenode := fun hc => Finset.mem_range.mpr (h.inside hc)
  have hlength := h.scattered.length_le hs hlinks (Finset.mem_range.mpr (mainposition_lt t k))
  rw [Finset.card_range, List.length_append, List.length_cons] at hlength
  exact ⟨othern, findBefore_found hlinks (by omega), hnext⟩

theorem Valid.newkeyAt_inserted (h : Valid t) (hk : k ≠ .nil) (hplace : t.place k = .nilobject)
    (hdummy : t.dummy = false) (hval : (t.node (mainposition t k)).val ≠ .nil) (hn : keyAt t n = none)
    (hlt : n < t.sizenode) (habove : ∀ a, n < a → a < t.sizenode → keyAt t a ≠ none) :
    ∃ t' p, newkeyAt { t with lastfree := n } k (mainposition t k) n = .ok (t', p) ∧ Inserted t k t' p := by
  have hfresh := (h.absent_of_place hplace).2
  have hmain : mainposition { t with lastfree := n } = mainposition t := mainposition_congr rfl
  rw [newkeyAt, hmain]
  by_cases hhome : mainposition t (t.node (mainposition t k)).key = mainposition t k
  · have hnew := h.newcomer_behind hk hfresh hval hn hlt habove hhome
    refine ⟨_, _, ?_, hnew.inserted h hdummy hplace⟩
    exact if_neg (not_not_intro hhome)
  · have hcollides : keyAt t (mainposition t k) = some (t.node (mainposition t k)).key :=
      keyAt_eq_some.mpr ⟨rfl, fun hnil => hval (h.vacant (keyAt_eq_none.mpr hnil))⟩
    obtain ⟨othern, hfind, hbefore⟩ := h.findBefore_eq hcollides hhome
    have hnew := h.newcomer_displace hk hfresh hval hn hlt habove hhome hbefore
    refine ⟨_, _, ?_, hnew.inserted h hdummy hplace⟩
    rw [if_pos hhome]
    have hfound : findBefore (fun i => (({ t with lastfree := n } : Table V).node i).next) (mainposition t k)
        ({ t with lastfree := n } : Table V).sizenode (mainposition t (t.node (mainposition t k)).key) =
          some (some othern) := hfind
    simp only [hfound]

/-- A full hash part after the search for a free node. -/
def Table.exhausted (t : Table V) : Table V := { t with lastfree := -1 }

theorem Valid.exhausted (h : Valid t) (hfull : t.dummy = false → t.used = t.sizenode) : Valid t.exhausted where
  scattered := h.scattered
  inside := h.inside
  vacant := h.vacant
  outside := h.outside
  free := by
    intro hdummy a ha _
    have hall := Finset.filter_card_eq ((hfull hdummy).trans (Finset.card_range _).symm)
    exact hall a (Finset.mem_range.mpr ha)
  lastfree_le := (Int.neg_nonpos_of_nonneg (by decide)).trans (Int.natCast_nonneg _)
  blank := fun hdummy => ⟨(h.blank hdummy).1, (h.blank hdummy).2.1, Int.neg_nonpos_of_nonneg (by decide)⟩
  lsizenode_le := h.lsizenode_le
  buffer := h.buffer
  sizearray_lt := h.sizearray_lt

/-- What `newkey` does without a rehash, or the table with which it finds no free node. -/
def insertFree (t : Table V) (key : TValue V) : Table V ⊕ Except Stop (Table V × Slot) :=
  let mp := mainposition t key
  if (t.node mp).val ≠ .nil ∨ t.dummy = true then
    match getfreepos t with
    | (t, none) => .inl t
    | (t, some n) => .inr (newkeyAt t key mp n)
  else .inr (.ok (setkey t mp key))

theorem newkeyStep_eq (inner : Newkey V) (t : Table V) (k : TValue V) :
    newkeyStep inner t k =
      match insertFree t k with
      | .inl t => do luaHSet inner (← rehash inner t k) k
      | .inr r => r := by
  rw [newkeyStep, insertFree]
  by_cases htaken : (t.node (mainposition t k)).val ≠ .nil ∨ t.dummy = true
  · rw [if_pos htaken, if_pos htaken]
    obtain ⟨t', n⟩ := getfreepos t
    cases n <;> rfl
  · rw [if_neg htaken, if_neg htaken]

/-- The key is inserted, or the hash part is full. -/
theorem insertFree_cases (h : Valid t) (hk : k ≠ .nil) (hplace : t.place k = .nilobject) :
    (∃ t' p, insertFree t k = .inr (.ok (t', p)) ∧ Inserted t k t' p) ∨
      t.capacity ≤ t.used ∧ Valid t.exhausted ∧ insertFree t k = .inl t.exhausted := by
  have hfresh := (h.absent_of_place hplace).2
  rw [insertFree]
  cases hdummy : t.dummy with
  | true =>
    right
    have hlast := (h.blank hdummy).2.2
    have hnone : getfreepos t = (t.exhausted, none) := by
      rw [getfreepos, Int.toNat_of_nonpos hlast, getfreeposFrom, Table.exhausted]
    refine ⟨?_, h.exhausted fun hd => ?_, ?_⟩
    · rw [Table.capacity, hdummy]
      exact Nat.zero_le _
    · rw [hdummy] at hd
      cases hd
    · rw [if_pos (.inr rfl), hnone]
  | false =>
    by_cases hval : (t.node (mainposition t k)).val = .nil
    · left
      rw [if_neg (by simp [hval])]
      exact ⟨_, _, rfl, (h.newcomer_setkey hk hfresh hdummy hval).inserted h hdummy hplace⟩
    rw [if_pos (.inl hval)]
    obtain ⟨n, hlt, hn, habove, hfreepos⟩ | ⟨hfull, hnone⟩ := h.getfreepos_spec hdummy
    · left
      rw [hfreepos]
      obtain ⟨t', p, hat, hinserted⟩ := h.newkeyAt_inserted hk hplace hdummy hval hn hlt habove
      exact ⟨t', p, congrArg Sum.inr hat, hinserted⟩
    · right
      refine ⟨?_, h.exhausted fun _ => hfull, ?_⟩
      · rw [Table.capacity, hdummy, hfull]
        exact Nat.le_refl _
      · rw [hnone]
        rfl

/-- `newkey` inserts the key, or the hash part is full and it rehashes. -/
theorem newkeyStep_cases (inner : Newkey V) (h : Valid t) (hk : k ≠ .nil) (hplace : t.place k = .nilobject) :
    (∃ t' p, newkeyStep inner t k = .ok (t', p) ∧ Inserted t k t' p) ∨
    t.capacity ≤ t.used ∧ Valid t.exhausted ∧
      newkeyStep inner t k = (do luaHSet inner (← rehash inner t.exhausted k) k) := by
  rw [newkeyStep_eq]
  obtain ⟨t', p, hfree, hinserted⟩ | ⟨hfull, hexhausted, hnone⟩ := insertFree_cases h hk hplace
  · left
    rw [hfree]
    exact ⟨t', p, rfl, hinserted⟩
  · right
    rw [hnone]
    exact ⟨hfull, hexhausted, rfl⟩

/-- A function that puts a new key where there is room for it. -/
def Inserts (newkey : Newkey V) : Prop := ∀ {t : Table V} {k}, Valid t → k ≠ .nil → t.place k = .nilobject →
  t.used < t.capacity → ∃ t' p, newkey t k = .ok (t', p) ∧ Inserted t k t' p

/-- With a free node `newkey` inserts the key, whatever its inner calls would do. -/
theorem newkeyStep_inserts (inner : Newkey V) : Inserts (newkeyStep inner) := by
  intro t k h hk hplace hroom
  obtain hinserted | ⟨hfull, -⟩ := newkeyStep_cases inner h hk hplace
  · exact hinserted
  · exact absurd hroom (Nat.not_lt.mpr hfull)

end Reading.Lua
