import Reading.Lua.Resize

/-!
# A table is a finite map

Every assignment and every resize that does not shrink the array part keeps the invariant, and an assignment changes the value of its own key. So whatever was done to a table, the three lookups give the values that were assigned last.
-/

namespace Reading.Lua

open Lib (Links Scattered)

variable {V : Values}

/-- What a table's user does to it: a setter and a write of the value to the place it returns, or a resize. -/
inductive Op (V : Values) where
  | set (key v : TValue V)
  | setnum (key : Int32) (v : TValue V)
  | setstr (key : V.Str) (v : TValue V)
  | resizearray (nasize : Nat)

namespace Op

/-- `depth` bounds the nesting of `newkey`. -/
def apply (depth : Nat) (t : Table V) : Op V → Except Stop (Table V)
  | set key v => do
    let (t, p) ← luaHSet (newkey depth) t key
    .ok (t.write v p)
  | setnum key v => do
    let (t, p) ← luaHSetnum (newkey depth) t key
    .ok (t.write v p)
  | setstr key v => do
    let (t, p) ← luaHSetstr (newkey depth) t key
    .ok (t.write v p)
  | resizearray nasize => luaHResizearray (newkey depth) t nasize

/-- The key and the value of an assignment. -/
def assignment : Op V → Option (TValue V × TValue V)
  | set key v => some (key, v)
  | setnum key v => some (.number (V.castNum key), v)
  | setstr key v => some (.string key, v)
  | resizearray _ => none

/-- Its size is an `int`, and it does not shrink the array part. -/
def Permitted (t : Table V) : Op V → Prop
  | resizearray nasize => t.sizearray ≤ nasize ∧ nasize < 2 ^ 31
  | _ => True

/-- The value the operation assigns to `k`, if it does. -/
def valueFor (k : TValue V) (op : Op V) : Option (TValue V) :=
  match op.assignment with
  | some (key, v) => if key = k then some v else none
  | none => none

end Op

/-- The value last assigned to a key, nil if none was. -/
def lastAssigned (ops : List (Op V)) (k : TValue V) : TValue V := (ops.reverse.findSome? (Op.valueFor k)).getD .nil

/-- The tables that operations which all succeed make of a new one. -/
inductive Reached (depth narray nhash : Nat) : List (Op V) → Table V → Prop where
  | new {t : Table V} (h : luaHNew narray nhash = .ok t) : Reached depth narray nhash [] t
  | step {ops : List (Op V)} {t t' : Table V} {op : Op V} (h : Reached depth narray nhash ops t) (hop : op.Permitted t)
      (happly : op.apply depth t = .ok t') : Reached depth narray nhash (ops ++ [op]) t'

variable {t t' : Table V} {k : TValue V} {d narray nhash : Nat} {ops : List (Op V)}

theorem lastAssigned_nil (k : TValue V) : lastAssigned [] k = .nil := rfl

theorem lastAssigned_concat (ops : List (Op V)) (op : Op V) (k : TValue V) :
    lastAssigned (ops ++ [op]) k = (op.valueFor k).getD (lastAssigned ops k) := by
  rw [lastAssigned, lastAssigned, List.reverse_append, List.reverse_singleton, List.singleton_append, List.findSome?_cons]
  cases op.valueFor k <;> rfl

/-- What the operation makes of a content. -/
theorem lastAssigned_assign {op : Op V} {key v : TValue V} (hop : op.assignment = some (key, v)) :
    lastAssigned (ops ++ [op]) = Function.update (lastAssigned ops) key v := by
  funext k
  rw [lastAssigned_concat, Op.valueFor, hop]
  by_cases heq : k = key
  · rw [heq, Function.update_self]
    simp
  · rw [Function.update_of_ne heq]
    simp [Ne.symm heq]

/-! ### One operation -/

/-- A key that is not nil is taken in, or the table would be too large. -/
theorem Valid.enter_spec (h : Valid t) (hk : k ≠ .nil) :
    (∃ t' p, enter (newkey (d + 3)) t k = .ok (t', p) ∧ Entered t k t' p) ∨
      enter (newkey (d + 3)) t k = .error .tableOverflow := by
  rw [enter]
  by_cases hplace : t.place k = .nilobject
  · rw [hplace]
    exact newkey_spec d h hk hplace
  · left
    refine ⟨t, t.place k, ?_, h.entered_self hplace⟩
    exact enter_placed _ hplace

/-- An assignment through `enter` updates the content. -/
theorem Valid.assign_spec (h : Valid t) (hk : k ≠ .nil) (v : TValue V) :
    (∃ t', (do
        let (t, p) ← enter (newkey (d + 3)) t k
        Except.ok (t.write v p)) = .ok t' ∧ Valid t' ∧ t'.content = Function.update t.content k v) ∨
      (do
        let (t, p) ← enter (newkey (d + 3)) t k
        Except.ok (t.write v p)) = .error Stop.tableOverflow := by
  obtain ⟨t', p, henter, hentered⟩ | hover := h.enter_spec hk (d := d)
  · left
    have hwritten := hentered.write v
    rw [henter]
    exact ⟨t'.write v p, rfl, hwritten.valid, by rw [hwritten.content, hentered.content]⟩
  · right
    rw [hover]
    rfl

/-- What an operation does to the content of a table. -/
def Op.Does (t : Table V) (op : Op V) (t' : Table V) : Prop :=
  match op.assignment with
  | some (key, v) => t'.content = Function.update t.content key v
  | none => t'.content = t.content

/-- An operation does what it should on a valid table, or raises an error. -/
theorem Op.apply_spec (h : Valid t) (op : Op V) (hop : op.Permitted t) :
    (∃ t', op.apply (d + 3) t = .ok t' ∧ Valid t' ∧ op.Does t t') ∨ op.apply (d + 3) t = .error .tableOverflow ∨
      op.apply (d + 3) t = .error .indexNil ∧ ∃ v, op = .set .nil v := by
  cases op with
  | set key v =>
    by_cases hkey : key = .nil
    · right; right
      rw [hkey]
      refine ⟨?_, v, rfl⟩
      rw [apply, luaHSet, h.luaHGet_eq, place_nil h]
      rfl
    · rw [apply, h.luaHSet_eq _ hkey]
      exact (h.assign_spec hkey v).imp_right .inl
  | setnum key v =>
    have hkey : TValue.number (V.castNum key) ≠ .nil := by rintro ⟨⟩
    rw [apply, h.luaHSetnum_eq]
    exact (h.assign_spec hkey v).imp_right .inl
  | setstr key v =>
    have hkey : TValue.string key ≠ .nil := by rintro ⟨⟩
    rw [apply, h.luaHSetstr_eq]
    exact (h.assign_spec hkey v).imp_right .inl
  | resizearray nasize => exact (luaHResizearray_spec (d + 2) h hop.1 hop.2).imp_right .inl

/-- An assignment to a key with a place is a write to that place. -/
theorem Op.apply_placed (h : Valid t) {op : Op V} {v : TValue V} (hop : op.assignment = some (k, v)) (hp : t.place k ≠ .nilobject) :
    op.apply d t = .ok (t.write v (t.place k)) := by
  cases op with
  | set key w =>
    cases hop
    have hk : k ≠ .nil := by
      rintro rfl
      exact hp (place_nil h)
    rw [apply, h.luaHSet_eq _ hk, enter_placed _ hp]
    rfl
  | setnum key w =>
    cases hop
    rw [apply, h.luaHSetnum_eq, enter_placed _ hp]
    rfl
  | setstr key w =>
    cases hop
    rw [apply, h.luaHSetstr_eq, enter_placed _ hp]
    rfl
  | resizearray n => exact nomatch hop

/-! ### Runs -/

/-- A new table is empty and has room for as many keys as it was made for. -/
theorem luaHNew_spec (hnarray : narray < 2 ^ 31) (hnhash : nhash < 2 ^ 31) :
    (∃ t : Table V, luaHNew narray nhash = .ok t ∧ Valid t ∧ (∀ k, t.content k = .nil) ∧ nhash ≤ t.capacity) ∨
      (luaHNew narray nhash : Except Stop (Table V)) = .error .tableOverflow := by
  rw [luaHNew]
  generalize hblank : setarrayvector (_ : Table V) narray = blank
  have hlist : blank.array = List.replicate narray .nil := by
    rw [← hblank]
    simp [setarrayvector]
  have hsize : blank.sizearray = narray := by
    rw [← hblank]
    rfl
  have hok : blank.ArrayOk := by
    rw [Table.ArrayOk, hsize, hlist, List.length_replicate]
    exact ⟨Nat.le_refl narray, hnarray⟩
  refine (setnodevector_spec hok nhash).imp ?_ And.right
  rintro ⟨t, hnew, hfresh, hcapacity⟩
  refine ⟨t, hnew, hfresh.valid, fun k => ?_, hcapacity ▸ le_nodesFor (by omega)⟩
  rw [hfresh.content, hlist]
  split
  · rw [List.getD_eq_getElem?_getD, List.getElem?_replicate]
    split <;> rfl
  · rfl

/-- What every run of operations keeps. -/
theorem Reached.valid (hnarray : narray < 2 ^ 31) (hnhash : nhash < 2 ^ 31) (h : Reached (d + 3) narray nhash ops t) :
    Valid t ∧ t.content = lastAssigned ops := by
  induction h with
  | new hnew =>
    obtain ⟨t', hnew', hvalid, hcontent, -⟩ | hover := luaHNew_spec (V := V) hnarray hnhash
    · cases hnew.symm.trans hnew'
      exact ⟨hvalid, funext hcontent⟩
    · exact nomatch hnew.symm.trans hover
  | @step ops t t' op _ hop happly ih =>
    obtain ⟨hvalid, hcontent⟩ := ih
    obtain ⟨t₁, happly', hvalid', hdoes⟩ | hover | ⟨hnil, -⟩ := op.apply_spec hvalid hop (d := d)
    · cases happly.symm.trans happly'
      refine ⟨hvalid', ?_⟩
      rw [Op.Does] at hdoes
      cases hassign : op.assignment with
      | none =>
        rw [hassign] at hdoes
        rw [hdoes, hcontent]
        funext k
        rw [lastAssigned_concat, Op.valueFor, hassign]
        rfl
      | some kv =>
        rw [hassign] at hdoes
        rw [hdoes, hcontent, lastAssigned_assign hassign]
    · exact nomatch happly.symm.trans hover
    · exact nomatch happly.symm.trans hnil

/-- A lookup finds a place with the value. -/
def Finds (t : Table V) (found : Except Stop Slot) (v : TValue V) : Prop := ∃ p, found = .ok p ∧ t.read p = v

/-- The chain from the main position of a node's key comes by the node, to its end and by no node twice. -/
def OnChain (t : Table V) (a : Nat) : Prop :=
  ∃ l l', Links (fun i => (t.node i).next) (some (mainposition t (t.node a).key)) (l ++ a :: l') none ∧
    (l ++ a :: l').Nodup

/-- Tables are finite maps. -/
theorem table_is_map (hnarray : narray < 2 ^ 31) (hnhash : nhash < 2 ^ 31) (h : Reached (d + 3) narray nhash ops t) :
    (∀ k, Finds t (luaHGet t k) (lastAssigned ops k)) ∧
    (∀ j, Finds t (luaHGetnum t j) (lastAssigned ops (.number (V.castNum j)))) ∧
    (∀ s, Finds t (luaHGetstr t s) (lastAssigned ops (.string s))) ∧
    (∀ a < t.sizenode, (t.node a).val ≠ .nil → OnChain t a) ∧
    (t.dummy = false → ∀ a < t.sizenode, t.lastfree ≤ a → (t.node a).key ≠ .nil) ∧
    ∀ op : Op V, op.Permitted t →
      (∃ t', op.apply (d + 3) t = .ok t') ∨ op.apply (d + 3) t = .error .tableOverflow ∨
        op.apply (d + 3) t = .error .indexNil ∧ ∃ v, op = .set .nil v := by
  obtain ⟨hvalid, hcontent⟩ := h.valid hnarray hnhash
  refine ⟨fun k => ?_, fun j => ?_, fun s => ?_, fun a _ hval => ?_, fun hdummy a ha hlast hnil => ?_, fun op hop => ?_⟩
  · exact ⟨t.place k, hvalid.luaHGet_eq k, congrFun hcontent k⟩
  · exact ⟨_, hvalid.luaHGetnum_eq j, congrFun hcontent _⟩
  · exact ⟨_, hvalid.luaHGetstr_eq s, congrFun hcontent _⟩
  · obtain ⟨l, l', hlinks, -⟩ := hvalid.scattered.chain (hvalid.keyAt_of_val hval)
    exact ⟨l, l', hlinks, hlinks.nodup⟩
  · exact hvalid.free hdummy ha hlast (keyAt_eq_none.mpr hnil)
  · exact (op.apply_spec hvalid hop).imp_left fun ⟨t', happly, _⟩ => ⟨t', happly⟩

/-- Numbers that are integers of any size, and nothing else with an identity. -/
def integers : Values where
  Number := Int
  Str := Nat
  Pointer := Empty
  Object := Empty
  castNum k := k.toInt
  number2int n := Int32.ofInt n
  number2int_castNum k := Int32.ofInt_toInt k
  ints n := UInt32.ofNat n.toNat
  hash s := UInt32.ofNat s
  pointer p := p.elim
  object o := o.elim

/-- The node that stands for an empty hash part has no key, and `lastfree` points to it. -/
theorem dummynode_unused :
    ∃ t : Table integers, Reached 3 0 0 [] t ∧ t.lastfree ≤ 0 ∧ 0 < t.sizenode ∧ (t.node 0).key = .nil := by
  refine ⟨_, .new rfl, ?_, ?_, rfl⟩
  · exact Int.le_refl 0
  · exact Nat.two_pow_pos 0

def integers.str (s : Nat) : TValue integers := .string s

def integers.num (n : Int) : TValue integers := .number n

/-- Assignments one after the other. -/
def assignAll (depth : Nat) : List (Op V) → Table V → Except Stop (Table V)
  | [], t => .ok t
  | op :: ops, t => do assignAll depth ops (← op.apply depth t)

theorem Reached.assignAll {ops' : List (Op V)} (hops : ∀ op ∈ ops', op.assignment ≠ none)
    (h : Reached d narray nhash ops t) (hrun : Lua.assignAll d ops' t = .ok t') : Reached d narray nhash (ops ++ ops') t' := by
  induction ops' generalizing ops t with
  | nil =>
    cases hrun
    rw [List.append_nil]
    exact h
  | cons op ops' ih =>
    have hop : op.Permitted t := by
      cases op with
      | resizearray nasize => exact absurd rfl (hops _ List.mem_cons_self)
      | _ => trivial
    rw [Lua.assignAll] at hrun
    cases happly : op.apply d t with
    | error e =>
      rw [happly] at hrun
      cases hrun
    | ok t₁ =>
      rw [happly] at hrun
      have hrest := ih (fun op' hop' => hops op' (List.mem_cons_of_mem op hop')) (h.step hop happly) hrun
      rw [List.append_assoc, List.singleton_append] at hrest
      exact hrest

/-- Assignments to a new table that all succeed reach a table. -/
theorem exists_reached_of {ops : List (Op V)} {p : Table V → Bool} (hops : ∀ op ∈ ops, op.assignment ≠ none)
    (hok : (luaHNew narray nhash >>= Lua.assignAll d ops).toOption.any p = true) :
    ∃ t, Reached d narray nhash ops t ∧ p t = true := by
  cases hnew : (luaHNew narray nhash : Except Stop (Table V)) with
  | error e =>
    rw [hnew] at hok
    cases hok
  | ok t₀ =>
    rw [hnew] at hok
    change (Lua.assignAll d ops t₀).toOption.any p = true at hok
    cases hrun : Lua.assignAll d ops t₀ with
    | error e =>
      rw [hrun] at hok
      cases hok
    | ok t =>
      rw [hrun] at hok
      exact ⟨t, (Reached.new hnew).assignAll hops hrun, hok⟩

theorem exists_reached {ops : List (Op V)} (hops : ∀ op ∈ ops, op.assignment ≠ none)
    (hok : (luaHNew narray nhash >>= Lua.assignAll d ops).toOption.isSome = true) : ∃ t, Reached d narray nhash ops t := by
  obtain ⟨t, hsome⟩ := Option.isSome_iff_exists.mp hok
  obtain ⟨t, ht, -⟩ := exists_reached_of (p := fun _ => true) hops ((Option.any_eq_true _ _).mpr ⟨t, hsome, rfl⟩)
  exact ⟨t, ht⟩

/-- The first key comes by a rehash, the second one goes to the array part, and the third one is deleted again. -/
def integers.history : List (Op integers) :=
  [.set (str 7) (.boolean true), .setnum 1 (str 2), .set (num 5) (str 3), .set (num 5) .nil]

theorem table_is_map_run : ∃ t : Table integers, Reached 3 0 0 integers.history t ∧
    Finds t (luaHGet t (integers.str 7)) (.boolean true) ∧ Finds t (luaHGetnum t 1) (integers.str 2) ∧
    Finds t (luaHGet t (integers.num 5)) .nil := by
  obtain ⟨t, ht⟩ : ∃ t, Reached 3 0 0 integers.history t := exists_reached (by decide) (by decide +kernel)
  obtain ⟨hget, hgetnum, -⟩ := table_is_map (by decide) (by decide) ht
  exact ⟨t, ht, hget (integers.str 7), hgetnum 1, hget (integers.num 5)⟩

end Reading.Lua
