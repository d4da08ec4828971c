import Mathlib.Algebra.Group.Nat.Defs
import Reading.Lib.Chain

/-!
# The list of the tree-walking interpreter

`ds/list.c` on the nodes themselves. Memory is a map from addresses to nodes with free cells mapped to `none`, and a call that allocates is given the address that it gets. A call has no result where it follows a null pointer or reads a node that was freed, and where a loop does not end.

A doubly linked list is two chains over the same nodes: from `head` along `next`, and backwards from `last` along `prev`.
-/

namespace Reading.Clox

open Reading.Lib

structure Node (A D : Type) where
  data : D
  next : Option A := none
  prev : Option A := none

/-- A list, with the memory its nodes are in. -/
structure DList (A D : Type) where
  mem : A → Option (Node A D)
  head : Option A := none
  last : Option A := none
  count : BitVec 32 := 0

variable {A D : Type} [DecidableEq A]

/-- A node is written to, which has to be there. -/
def DList.write (s : DList A D) (p : Option A) (f : Node A D → Node A D) : Option (DList A D) := do
  let a ← p
  let n ← s.mem a
  some { s with mem := Function.update s.mem a (some (f n)) }

def DList.alloc (s : DList A D) (new : A) (data : D) : DList A D :=
  { s with mem := Function.update s.mem new (some { data := data }) }

/-- `list->count++`. -/
def DList.grow (s : DList A D) : DList A D := { s with count := s.count + 1 }

/-- `list->count--`. -/
def DList.shrink (s : DList A D) : DList A D := { s with count := s.count - 1 }

/-- `fr`. -/
def DList.free (s : DList A D) (a : A) : DList A D := { s with mem := Function.update s.mem a none }

def listPush (s : DList A D) (data : D) (new : A) : Option (DList A D × A) := do
  let s := s.alloc new data
  let s ← match s.last with
    | none => some s
    | some last => do
      let s ← s.write (some last) fun n => { n with next := some new }
      s.write (some new) fun n => { n with prev := some last }
  some ({ s with head := s.head.or (some new), last := some new, count := s.count + 1 }, new)

/-- The loop of `list_at`. -/
def walk (mem : A → Option (Node A D)) : Nat → Option A → Option (Option A)
  | 0, n => some n
  | _ + 1, none => some none
  | index + 1, some n => do
    let x ← mem n
    walk mem index x.next

def listAt (s : DList A D) (index : BitVec 32) : Option (Option A) :=
  if index = 0 then some s.head
  else if index = s.count - 1 then some s.last
  else walk s.mem index.toNat s.head

def listInsert (s : DList A D) (data : D) (index : BitVec 32) (new : A) : Option (DList A D × Option A) :=
  if index = s.count - 1 then do
    let (s, n) ← listPush s data new
    some (s, some n)
  else do
    let s := (s.alloc new data).grow
    if index = 0 then do
      let s ← s.write (some new) fun n => { n with next := s.head }
      let s ← s.write s.head fun n => { n with prev := some new }
      some ({ s with head := some new }, some new)
    else
      match ← listAt s index with
      | none => some (s.free new, none)
      | some n => do
        let x ← s.mem n
        let s ← s.write x.prev fun y => { y with next := some new }
        let x ← s.mem n
        let s ← s.write (some new) fun y => { y with prev := x.prev }
        let s ← s.write (some n) fun y => { y with prev := some new }
        let s ← s.write (some new) fun y => { y with next := some n }
        some (s, some new)

/-- The loop of `list_remove`: the node, or else the last one. -/
def findNode (mem : A → Option (Node A D)) (node : Option A) : Nat → Option A → Option A
  | 0, _ => none
  | fuel + 1, n => do
    let a ← n
    let x ← mem a
    if x.next = none ∨ n = node then some a else findNode mem node fuel x.next

/-- The node before `n`, whose contents are `x`, or else the list is linked to the one behind. -/
def DList.unlinkNext (s : DList A D) (x : Node A D) : Option (DList A D) :=
  if x.prev = none then some { s with head := x.next } else s.write x.prev fun y => { y with next := x.next }

def DList.unlinkPrev (s : DList A D) (x : Node A D) : Option (DList A D) :=
  if x.next = none then some { s with last := x.prev } else s.write x.next fun y => { y with prev := x.prev }

/-- The links of `list_remove`, with `count` as it is afterwards. -/
def DList.unlink (s : DList A D) (n : A) : Option (DList A D) :=
  if s.count = 0 then some { s with head := none, last := none }
  else do
    let x ← s.mem n
    let s ← s.unlinkNext x
    let x ← s.mem n
    s.unlinkPrev x

variable [Fintype A]

def listRemove (s : DList A D) (node : Option A) : Option (DList A D × Bool) := do
  let n ← findNode s.mem node (Fintype.card A + 1) s.head
  let s ← s.shrink.unlink n
  some (s.free n, true)

omit [Fintype A] in
def listRemoveAt (s : DList A D) (index : BitVec 32) : Option (DList A D × Bool) := do
  match ← listAt s index with
  | none => some (s, false)
  | some n => do
    let x ← s.mem n
    let s ← s.write x.prev fun y => { y with next := x.next }
    let x ← s.mem n
    let s ← s.write x.next fun y => { y with prev := x.prev }
    some (s.free n, true)

/-- The loop of `list_clear`. -/
def freeAll : Nat → DList A D → Option A → Option (DList A D)
  | _, s, none => some s
  | 0, _, some _ => none
  | fuel + 1, s, some n => do
    let x ← s.mem n
    freeAll fuel (s.free n) x.prev

def listClear (s : DList A D) : Option (DList A D) := do
  let s ← freeAll (Fintype.card A + 1) s s.last
  some { s with count := 0, head := none, last := none }

def listPop (s : DList A D) : Option (DList A D × Option D) := do
  let node := s.last
  let data ← match node with
    | none => some none
    | some a => do
      let x ← s.mem a
      some (some x.data)
  let (s, _) ← listRemove s node
  some (s, data)

/-! ### Calls -/

inductive ListOp (A D : Type) where
  | push (data : D) (new : A)
  | insert (data : D) (index : BitVec 32) (new : A)
  | remove (node : A)
  | removeAt (index : BitVec 32)
  | pop
  | at (index : BitVec 32)
  | clear

/-- What a call returns. -/
inductive ListRet (A D : Type) where
  | node (n : Option A)
  | int (b : Bool)
  | data (d : Option D)
  | void

def listExec (s : DList A D) : ListOp A D → Option (DList A D × ListRet A D)
  | .push data new => do
    let (s, n) ← listPush s data new
    some (s, .node (some n))
  | .insert data index new => do
    let (s, n) ← listInsert s data index new
    some (s, .node n)
  | .remove node => do
    let (s, done) ← listRemove s (some node)
    some (s, .int done)
  | .removeAt index => do
    let (s, done) ← listRemoveAt s index
    some (s, .int done)
  | .pop => do
    let (s, data) ← listPop s
    some (s, .data data)
  | .at index => do
    let n ← listAt s index
    some (s, .node n)
  | .clear => do
    let s ← listClear s
    some (s, .void)

/-! ### The sequence -/

/-- The nodes with their data, in order. -/
abbrev Entries (A D : Type) := List (A × D)

/-- The call on the sequence. -/
def Entries.exec (l : Entries A D) : ListOp A D → Entries A D × ListRet A D
  | .push data new => (l ++ [(new, data)], .node (some new))
  | .insert data index new => (l.insertIdx index.toNat (new, data), .node (some new))
  | .remove node => (l.eraseP fun e => e.1 = node, .int true)
  | .removeAt index => (l.eraseIdx index.toNat, .int true)
  | .pop => (l.dropLast, .data (l.getLast?.map Prod.snd))
  | .at index => (l, .node (l[index.toNat]?.map Prod.fst))
  | .clear => ([], .void)

section Fields

omit [DecidableEq A] [Fintype A]

def nextOf (mem : A → Option (Node A D)) (a : A) : Option A := (mem a).bind Node.next

def prevOf (mem : A → Option (Node A D)) (a : A) : Option A := (mem a).bind Node.prev

def dataOf (mem : A → Option (Node A D)) (a : A) : Option D := (mem a).map Node.data

/-- The nodes are linked both ways from `head` to `last`, and `count` is their number. -/
structure DList.Represents (s : DList A D) (l : Entries A D) : Prop where
  next : Links (nextOf s.mem) s.head (l.map Prod.fst) none
  prev : Links (prevOf s.mem) s.last (l.map Prod.fst).reverse none
  data : ∀ e ∈ l, dataOf s.mem e.1 = some e.2
  count : s.count.toNat = l.length

end Fields

/-- What the callers keep to: memory that is allocated was free, the index of an insertion is at most `count`, and a node that is removed is there. -/
def ListOp.Legal (s : DList A D) (l : Entries A D) : ListOp A D → Prop
  | .push _ new => s.mem new = none
  | .insert _ index new => s.mem new = none ∧ index.toNat ≤ l.length
  | .remove node => node ∈ l.map Prod.fst
  | .removeAt index => index.toNat < l.length
  | .pop | .at _ | .clear => True

/-- Legal calls are made one after the other, each does what it does to the sequence, and the list stays well linked. -/
def ListFollows : DList A D → Entries A D → List (ListOp A D) → Prop
  | s, l, [] => s.Represents l
  | s, l, op :: ops =>
    s.Represents l ∧ (op.Legal s l → ∃ s', listExec s op = some (s', (l.exec op).2) ∧ ListFollows s' (l.exec op).1 ops)

/-- The call stays clear of the cases that go wrong: insertion at the last index, behind it or into an empty list, removal by index, and `list_pop` of an empty list. -/
def ListOp.Clear (l : Entries A D) : ListOp A D → Prop
  | .push _ _ => l.length + 1 < 2 ^ 32
  | .insert _ index _ => index.toNat + 1 < l.length ∧ l.length + 1 < 2 ^ 32
  | .removeAt _ => False
  | .pop => l ≠ []
  | .remove _ | .at _ | .clear => True

def ListClear : Entries A D → List (ListOp A D) → Prop
  | _, [] => True
  | l, op :: ops => op.Clear l ∧ ListClear (l.exec op).1 ops

/-! ### The operations -/

section Writes

omit [Fintype A]

variable {s : DList A D} {a b new : A} {p : Option A} {data : D}

def DList.setNext (s : DList A D) (a : A) (p : Option A) : DList A D :=
  { s with mem := fun b => if b = a then (s.mem b).map fun n => { n with next := p } else s.mem b }

def DList.setPrev (s : DList A D) (a : A) (p : Option A) : DList A D :=
  { s with mem := fun b => if b = a then (s.mem b).map fun n => { n with prev := p } else s.mem b }

@[simp] theorem head_setNext : (s.setNext a p).head = s.head := rfl

@[simp] theorem head_setPrev : (s.setPrev a p).head = s.head := rfl

@[simp] theorem head_alloc : (s.alloc new data).head = s.head := rfl

@[simp] theorem last_setNext : (s.setNext a p).last = s.last := rfl

@[simp] theorem last_setPrev : (s.setPrev a p).last = s.last := rfl

@[simp] theorem last_alloc : (s.alloc new data).last = s.last := rfl

@[simp] theorem count_setNext : (s.setNext a p).count = s.count := rfl

@[simp] theorem count_setPrev : (s.setPrev a p).count = s.count := rfl

@[simp] theorem count_alloc : (s.alloc new data).count = s.count := rfl

theorem update_eq_ite {β : Type} {mem : A → Option β} {x : β} (h : mem a = some x) (f : β → β) :
    Function.update mem a (some (f x)) = fun b => if b = a then (mem b).map f else mem b := by
  funext b
  rw [Function.update_apply]
  split
  · rename_i heq
    rw [heq, h, Option.map_some]
  · rfl

theorem write_next (h : (s.mem a).isSome) : s.write (some a) (fun n => { n with next := p }) = some (s.setNext a p) := by
  obtain ⟨n, hn⟩ := Option.isSome_iff_exists.mp h
  simp [DList.write, hn, DList.setNext, update_eq_ite hn fun n => { n with next := p }]

theorem write_prev (h : (s.mem a).isSome) : s.write (some a) (fun n => { n with prev := p }) = some (s.setPrev a p) := by
  obtain ⟨n, hn⟩ := Option.isSome_iff_exists.mp h
  simp [DList.write, hn, DList.setPrev, update_eq_ite hn fun n => { n with prev := p }]

@[simp] theorem isSome_setNext : ((s.setNext a p).mem b).isSome = (s.mem b).isSome := by
  rw [DList.setNext]
  dsimp only
  split
  · rw [Option.isSome_map]
  · rfl

@[simp] theorem isSome_setPrev : ((s.setPrev a p).mem b).isSome = (s.mem b).isSome := by
  rw [DList.setPrev]
  dsimp only
  split
  · rw [Option.isSome_map]
  · rfl

theorem nextOf_setNext (h : (s.mem a).isSome) : nextOf (s.setNext a p).mem = Function.update (nextOf s.mem) a p := by
  obtain ⟨n, hn⟩ := Option.isSome_iff_exists.mp h
  funext b
  rw [nextOf, DList.setNext, Function.update_apply]
  dsimp only
  split
  · rename_i heq
    rw [heq, hn]
    rfl
  · rfl

theorem prevOf_setPrev (h : (s.mem a).isSome) : prevOf (s.setPrev a p).mem = Function.update (prevOf s.mem) a p := by
  obtain ⟨n, hn⟩ := Option.isSome_iff_exists.mp h
  funext b
  rw [prevOf, DList.setPrev, Function.update_apply]
  dsimp only
  split
  · rename_i heq
    rw [heq, hn]
    rfl
  · rfl

theorem prevOf_setNext : prevOf (s.setNext a p).mem = prevOf s.mem := by
  funext b
  rw [prevOf, DList.setNext, prevOf]
  dsimp only
  split
  · cases s.mem b <;> rfl
  · rfl

theorem nextOf_setPrev : nextOf (s.setPrev a p).mem = nextOf s.mem := by
  funext b
  rw [nextOf, DList.setPrev, nextOf]
  dsimp only
  split
  · cases s.mem b <;> rfl
  · rfl

theorem dataOf_setNext : dataOf (s.setNext a p).mem = dataOf s.mem := by
  funext b
  rw [dataOf, DList.setNext, dataOf]
  dsimp only
  split
  · cases s.mem b <;> rfl
  · rfl

theorem dataOf_setPrev : dataOf (s.setPrev a p).mem = dataOf s.mem := by
  funext b
  rw [dataOf, DList.setPrev, dataOf]
  dsimp only
  split
  · cases s.mem b <;> rfl
  · rfl

theorem alloc_mem : (s.alloc new data).mem = Function.update s.mem new (some { data := data }) := rfl

theorem nextOf_alloc (h : s.mem new = none) : nextOf (s.alloc new data).mem = nextOf s.mem := by
  funext b
  rw [nextOf, alloc_mem, Function.update_apply]
  split
  · rename_i heq
    rw [heq, nextOf, h]
    rfl
  · rfl

theorem prevOf_alloc (h : s.mem new = none) : prevOf (s.alloc new data).mem = prevOf s.mem := by
  funext b
  rw [prevOf, alloc_mem, Function.update_apply]
  split
  · rename_i heq
    rw [heq, prevOf, h]
    rfl
  · rfl

theorem dataOf_alloc : dataOf (s.alloc new data).mem = Function.update (dataOf s.mem) new (some data) := by
  funext b
  rw [dataOf, alloc_mem, Function.update_apply, Function.update_apply]
  split <;> rfl

theorem isSome_alloc (h : (s.mem b).isSome) : ((s.alloc new data).mem b).isSome := by
  rw [alloc_mem, Function.update_apply]
  split
  · rfl
  · exact h

theorem isSome_alloc_self : ((s.alloc new data).mem new).isSome := by
  rw [alloc_mem, Function.update_self]
  rfl

/-- A node outside the list is freed. -/
theorem DList.Represents.free {l : Entries A D} (h : s.Represents l) (ha : a ∉ l.map Prod.fst) : (s.free a).Represents l := by
  have hother : ∀ b ∈ l.map Prod.fst, (s.free a).mem b = s.mem b := by
    intro b hb
    apply Function.update_of_ne
    rintro rfl
    exact ha hb
  refine ⟨h.next.congr fun b hb => ?_, h.prev.congr fun b hb => ?_, fun e he => ?_, h.count⟩
  · rw [nextOf, hother b hb, nextOf]
  · rw [prevOf, hother b (List.mem_reverse.mp hb), prevOf]
  · rw [dataOf, hother e.1 (List.mem_map_of_mem he)]
    exact h.data e he

end Writes

section Represents

omit [Fintype A] [DecidableEq A]

variable {s : DList A D} {l : Entries A D} {a new : A} {e : A × D}

@[simp] theorem mem_grow : s.grow.mem = s.mem := rfl

@[simp] theorem head_grow : s.grow.head = s.head := rfl

@[simp] theorem last_grow : s.grow.last = s.last := rfl

theorem count_grow : s.grow.count = s.count + 1 := rfl

theorem DList.Represents.isSome (h : s.Represents l) (ha : a ∈ l.map Prod.fst) : ∃ n, s.mem a = some n := by
  obtain ⟨e, he, rfl⟩ := List.mem_map.mp ha
  have hdata := h.data e he
  rw [dataOf] at hdata
  obtain ⟨n, hn, -⟩ := Option.map_eq_some_iff.mp hdata
  exact ⟨n, hn⟩

theorem DList.Represents.notMem (h : s.Represents l) (hfree : s.mem new = none) : new ∉ l.map Prod.fst := by
  intro hmem
  obtain ⟨n, hn⟩ := h.isSome hmem
  rw [hfree] at hn
  cases hn

theorem DList.Represents.nodup (h : s.Represents l) : (l.map Prod.fst).Nodup := h.next.nodup

theorem DList.Represents.head_eq (h : s.Represents l) : s.head = (l.map Prod.fst).head? := h.next.eq_head?

theorem DList.Represents.last_eq (h : s.Represents l) : s.last = (l.map Prod.fst).getLast? := by
  rw [h.prev.eq_head?, List.head?_reverse]

end Represents

section Push

omit [Fintype A]

variable {s : DList A D} {l : Entries A D} {new : A}

theorem toNat_add_one {c : BitVec 32} {n : Nat} (hc : c.toNat = n) (hn : n + 1 < 2 ^ 32) : (c + 1).toNat = n + 1 := by
  rw [BitVec.toNat_add, hc]
  exact Nat.mod_eq_of_lt hn

theorem data_append {l l' : Entries A D} {new : A} {data : D} {g : A → Option D} (hnew : new ∉ (l ++ l').map Prod.fst)
    (h : ∀ e ∈ l ++ l', g e.1 = some e.2) : ∀ e ∈ l ++ (new, data) :: l', Function.update g new (some data) e.1 = some e.2 := by
  intro e he
  rw [Function.update_apply]
  have hcases : e = (new, data) ∨ e ∈ l ++ l' := by
    simp only [List.mem_append, List.mem_cons] at he ⊢
    tauto
  obtain rfl | hold := hcases
  · rw [if_pos rfl]
  · rw [if_neg, h e hold]
    rintro rfl
    exact hnew (List.mem_map_of_mem hold)

theorem listPush_spec (h : s.Represents l) (hfree : s.mem new = none) (hroom : l.length + 1 < 2 ^ 32) (data : D) :
    ∃ s', listPush s data new = some (s', new) ∧ s'.Represents (l ++ [(new, data)]) := by
  have hnew := h.notMem hfree
  have hcount : (s.count + 1).toNat = (l ++ [(new, data)]).length := by
    rw [toNat_add_one h.count hroom, List.length_append, List.length_singleton]
  have hdata : ∀ e ∈ l ++ [(new, data)], Function.update (dataOf s.mem) new (some data) e.1 = some e.2 :=
    data_append (by rwa [List.append_nil]) (by simpa only [List.append_nil] using h.data)
  have hnull : nextOf s.mem new = none ∧ prevOf s.mem new = none := by simp [nextOf, prevOf, hfree]
  rcases List.eq_nil_or_concat' l with rfl | ⟨init, z, rfl⟩
  · have hhead : s.head = none := h.next
    have hlast : s.last = none := h.prev
    refine ⟨{ s.alloc new data with head := some new, last := some new, count := s.count + 1 }, ?_, ?_, ?_, ?_, hcount⟩
    · simp [listPush, DList.alloc, hlast, hhead]
    · rw [nextOf_alloc hfree]
      exact ⟨rfl, hnull.1⟩
    · rw [prevOf_alloc hfree]
      exact ⟨rfl, hnull.2⟩
    · rw [dataOf_alloc]
      exact hdata
  · have hlast : s.last = some z.1 := by simpa using h.last_eq
    obtain ⟨n, hn⟩ := h.isSome (List.mem_map_of_mem (a := z) (by simp))
    have hz : ((s.alloc new data).mem z.1).isSome := isSome_alloc (by rw [hn]; rfl)
    have hhead : s.head.or (some new) = s.head := by
      rw [h.head_eq]
      cases init <;> rfl
    have hnewSome : (((s.alloc new data).setNext z.1 (some new)).mem new).isSome := by
      rw [isSome_setNext]
      exact isSome_alloc_self
    refine ⟨{ ((s.alloc new data).setNext z.1 (some new)).setPrev new (some z.1) with last := some new, count := s.count + 1 },
      ?_, ?_, ?_, ?_, hcount⟩
    · simp only [listPush, last_alloc, hlast, Option.bind_eq_bind, write_next hz, Option.bind_some, write_prev hnewSome]
      simp only [head_setPrev, head_setNext, head_alloc, hhead, count_setPrev, count_setNext, count_alloc]
    · rw [nextOf_setPrev, nextOf_setNext hz, nextOf_alloc hfree]
      have hpush := @Links.push A (nextOf s.mem) s.head (init.map Prod.fst) new z.1 _ (by simpa only [List.map_append, List.map_cons, List.map_nil] using h.next)
        (by simpa only [List.map_append, List.map_cons, List.map_nil] using hnew) hnull.1
      simpa using hpush
    · rw [prevOf_setPrev hnewSome, prevOf_setNext, prevOf_alloc hfree]
      rw [List.map_append, List.reverse_append]
      refine ⟨rfl, ?_⟩
      rw [Function.update_self, ← hlast]
      exact h.prev.update (by rwa [List.mem_reverse]) _
    · rw [dataOf_setPrev, dataOf_setNext, dataOf_alloc]
      exact hdata

end Push

section At

omit [Fintype A] [DecidableEq A]

variable {s : DList A D} {l : Entries A D}

theorem walk_spec {mem : A → Option (Node A D)} {p : Option A} {as : List A} (h : Links (nextOf mem) p as none)
    (hsome : ∀ a ∈ as, (mem a).isSome) (index : Nat) : walk mem index p = some as[index]? := by
  induction index generalizing p as with
  | zero => rw [walk, h.eq_head?, List.head?_eq_getElem?]
  | succ index ih =>
    cases as with
    | nil =>
      obtain rfl : p = none := h
      rfl
    | cons a as =>
      obtain ⟨rfl, hrest⟩ := h
      obtain ⟨n, hn⟩ := Option.isSome_iff_exists.mp (hsome a List.mem_cons_self)
      have hnext : nextOf mem a = n.next := by rw [nextOf, hn, Option.bind_some]
      rw [hnext] at hrest
      have hwalk := ih hrest fun b hb => hsome b (List.mem_cons_of_mem _ hb)
      simp [walk, hn, hwalk]

theorem DList.Represents.all_isSome (h : s.Represents l) : ∀ a ∈ l.map Prod.fst, (s.mem a).isSome := by
  intro a ha
  obtain ⟨n, hn⟩ := h.isSome ha
  rw [hn]
  rfl

theorem listAt_spec (h : s.Represents l) (index : BitVec 32) : listAt s index = some (l[index.toNat]?.map Prod.fst) := by
  rw [listAt]
  split
  · rename_i hzero
    rw [hzero, h.head_eq, List.head?_eq_getElem?, List.getElem?_map]
    rfl
  · split
    · rename_i hlast
      rw [h.last_eq, List.getLast?_eq_getElem?, List.getElem?_map, List.length_map]
      congr 2
      have hcount := h.count
      rcases Nat.eq_zero_or_pos l.length with hempty | hpos
      · rw [List.eq_nil_of_length_eq_zero hempty]
        rfl
      · have hindex : index.toNat = l.length - 1 := by
          rw [hlast, ← hcount]
          bv_omega
        rw [hindex]
    · rw [walk_spec h.next h.all_isSome, List.getElem?_map]

end At

section Insert

omit [Fintype A]

variable {s : DList A D} {l : Entries A D} {a b new n z : A} {p : Option A} {data : D}

theorem mem_alloc_of_ne (h : b ≠ new) : (s.alloc new data).mem b = s.mem b := Function.update_of_ne h _ _

theorem mem_setNext_of_ne (h : b ≠ a) : (s.setNext a p).mem b = s.mem b := if_neg h

theorem isSome_new : ((s.alloc new data).grow.mem new).isSome := isSome_alloc_self

theorem isSome_old (h : (s.mem b).isSome) : ((s.alloc new data).grow.mem b).isSome := isSome_alloc h

/-- A new first node. -/
theorem DList.Represents.insert_front {e : A × D} (h : s.Represents (e :: l)) (hfree : s.mem new = none) (hroom : l.length + 1 + 1 < 2 ^ 32)
    (data : D) :
    ({ ((s.alloc new data).grow.setNext new s.head).setPrev e.1 (some new) with head := some new } : DList A D).Represents
      ((new, data) :: e :: l) := by
  have hnew := h.notMem hfree
  have hfirst : (((s.alloc new data).grow.setNext new s.head).mem e.1).isSome := by
    rw [isSome_setNext]
    exact isSome_alloc (h.all_isSome e.1 (List.mem_map_of_mem (by simp)))
  refine ⟨?_, ?_, ?_, ?_⟩
  · rw [nextOf_setPrev, nextOf_setNext isSome_new, mem_grow, nextOf_alloc hfree]
    refine ⟨rfl, ?_⟩
    rw [Function.update_self]
    exact h.next.update hnew _
  · rw [prevOf_setPrev hfirst, prevOf_setNext, mem_grow, prevOf_alloc hfree]
    have hprev : Links (prevOf s.mem) s.last ((l.map Prod.fst).reverse ++ [e.1]) none := by simpa using h.prev
    have hpush := hprev.push (by simpa [or_comm] using hnew) (show prevOf s.mem new = none by rw [prevOf, hfree]; rfl)
    simpa using hpush
  · rw [dataOf_setPrev, dataOf_setNext, mem_grow, dataOf_alloc]
    exact @data_append A D _ [] (e :: l) new data _ hnew h.data
  · exact toNat_add_one h.count hroom

/-- A new node between two others. -/
theorem DList.Represents.insert_between {before after : Entries A D} {e e' : A × D} (h : s.Represents (before ++ e :: e' :: after))
    (hfree : s.mem new = none) (hroom : (before ++ e :: e' :: after).length + 1 < 2 ^ 32) (data : D) :
    (((((s.alloc new data).grow.setNext e.1 (some new)).setPrev new (some e.1)).setPrev e'.1 (some new)).setNext new (some e'.1)).Represents
      (before ++ e :: (new, data) :: e' :: after) := by
  have hnew := h.notMem hfree
  have hnodup := h.nodup
  have hsome : ∀ b, (s.mem b).isSome → ((s.alloc new data).grow.mem b).isSome := fun b hb => isSome_old hb
  have hfirst := h.all_isSome e.1 (List.mem_map_of_mem (by simp))
  have hsecond := h.all_isSome e'.1 (List.mem_map_of_mem (by simp))
  have hne : new ≠ e.1 := by
    rintro rfl
    exact hnew (List.mem_map_of_mem (by simp))
  simp only [List.map_append, List.map_cons] at hnew hnodup
  refine ⟨?_, ?_, ?_, ?_⟩
  · rw [nextOf_setNext (by simpa using isSome_new), nextOf_setPrev, nextOf_setPrev, nextOf_setNext (hsome _ hfirst), mem_grow,
      nextOf_alloc hfree]
    have hchain : Links (nextOf s.mem) s.head (before.map Prod.fst ++ e.1 :: e'.1 :: after.map Prod.fst) none := by
      simpa only [List.map_append, List.map_cons] using h.next
    have hlink : nextOf s.mem e.1 = some e'.1 := by
      obtain ⟨r, -, -, hr, -⟩ := links_append.mp hchain
      exact hr
    have hins := hchain.insert (b := new) (by
      simp only [List.nodup_append, List.nodup_cons, List.mem_append] at hnodup ⊢
      rintro (hmem | hmem)
      · exact hnodup.2.2 _ hmem e.1 (by simp) rfl
      · exact hnodup.2.1.1 hmem) hnew
    rw [hlink, Function.update_comm hne] at hins
    simpa using hins
  · rw [prevOf_setNext, prevOf_setPrev (by simpa using hsome _ hsecond), prevOf_setPrev (by simpa using isSome_new), prevOf_setNext,
      mem_grow, prevOf_alloc hfree]
    have hchain : Links (prevOf s.mem) s.last ((after.map Prod.fst).reverse ++ e'.1 :: e.1 :: (before.map Prod.fst).reverse) none := by
      simpa only [List.map_append, List.map_cons, List.reverse_append, List.reverse_cons, List.append_assoc,
        List.cons_append, List.nil_append] using h.prev
    have hlink : prevOf s.mem e'.1 = some e.1 := by
      obtain ⟨r, -, -, hr, -⟩ := links_append.mp hchain
      exact hr
    have hins := hchain.insert (b := new) (by
      have hrev := hchain.nodup
      simp only [List.nodup_append, List.nodup_cons, List.mem_append] at hrev ⊢
      rintro (hmem | hmem)
      · exact hrev.2.2 _ hmem e'.1 (by simp) rfl
      · exact hrev.2.1.1 hmem) (by
      simp only [List.mem_append, List.mem_cons, List.mem_reverse] at hnew ⊢
      tauto)
    rw [hlink] at hins
    simpa using hins
  · rw [dataOf_setNext, dataOf_setPrev, dataOf_setPrev, dataOf_setNext, mem_grow, dataOf_alloc]
    have hall := @data_append A D _ (before ++ [e]) (e' :: after) new data (dataOf s.mem)
      (by simpa only [List.map_append, List.map_cons, List.append_assoc, List.singleton_append] using hnew)
      (by simpa only [List.append_assoc, List.singleton_append] using h.data)
    simpa only [List.append_assoc, List.singleton_append] using hall
  · have hlen := toNat_add_one h.count hroom
    simp only [List.length_append, List.length_cons] at hlen ⊢
    exact hlen.trans (by omega)

omit [DecidableEq A] in
theorem split_at {l : Entries A D} {i : Nat} (h : i + 1 < l.length) :
    ∃ before e e' after, l = before ++ e :: e' :: after ∧ before.length = i := by
  refine ⟨l.take i, l[i], l[i + 1], l.drop (i + 2), ?_, ?_⟩
  · rw [← List.drop_eq_getElem_cons h, ← List.drop_eq_getElem_cons (Nat.lt_of_succ_lt h), List.take_append_drop]
  · rw [List.length_take, Nat.min_eq_left (by omega)]

omit [DecidableEq A] in
theorem insertIdx_length_succ (l l' : Entries A D) (e x : A × D) : (l ++ e :: l').insertIdx (l.length + 1) x = l ++ e :: x :: l' := by
  induction l with
  | nil => rfl
  | cons y l ih => rw [List.cons_append, List.length_cons, List.insertIdx_succ_cons, ih, List.cons_append]

theorem listInsert_spec {index : BitVec 32} (h : s.Represents l) (hfree : s.mem new = none) (hindex : index.toNat + 1 < l.length)
    (hroom : l.length + 1 < 2 ^ 32) (data : D) :
    ∃ s', listInsert s data index new = some (s', some new) ∧ s'.Represents (l.insertIdx index.toNat (new, data)) := by
  have hcount := h.count
  have hpush : ¬ index = s.count - 1 := by
    intro heq
    rw [heq] at hindex
    bv_omega
  by_cases hzero : index = 0
  · subst hzero
    obtain ⟨e, l, rfl⟩ : ∃ e l', l = e :: l' := List.exists_cons_of_length_pos (by omega)
    have hhead : s.head = some e.1 := h.head_eq
    refine ⟨_, ?_, h.insert_front hfree hroom data⟩
    have hsome : (((s.alloc new data).grow.setNext new s.head).mem e.1).isSome := by
      rw [isSome_setNext]
      exact isSome_alloc (h.all_isSome e.1 (List.mem_map_of_mem (by simp)))
    simp only [listInsert, if_neg hpush, if_true, Option.bind_eq_bind]
    rw [write_next isSome_new, Option.bind_some, head_setNext, head_grow, head_alloc]
    rw [hhead] at hsome ⊢
    rw [write_prev hsome, Option.bind_some]
  · have hpos : index.toNat ≠ 0 := fun heq => hzero (BitVec.eq_of_toNat_eq (by simpa using heq))
    obtain ⟨before, e, e', after, rfl, hlen⟩ := @split_at A D l (index.toNat - 1) (by omega)
    have hindex' : index.toNat = before.length + 1 := by omega
    have hne : e'.1 ≠ new := by
      rintro rfl
      exact h.notMem hfree (List.mem_map_of_mem (by simp))
    have hne' : e'.1 ≠ e.1 := by
      intro heq
      have hnodup := h.nodup
      simp only [List.map_append, List.map_cons, heq, List.nodup_append, List.nodup_cons] at hnodup
      exact hnodup.2.1.1 (by simp)
    have hsome := h.all_isSome
    obtain ⟨x, hx⟩ := h.isSome (List.mem_map_of_mem (a := e') (by simp))
    have hprev : x.prev = some e.1 := by
      have hchain : Links (prevOf s.mem) s.last ((after.map Prod.fst).reverse ++ e'.1 :: e.1 :: (before.map Prod.fst).reverse) none := by
        simpa using h.prev
      obtain ⟨r, -, -, hr, -⟩ := links_append.mp hchain
      rwa [prevOf, hx] at hr
    have hins : (before ++ e :: e' :: after).insertIdx index.toNat (new, data) = before ++ e :: (new, data) :: e' :: after := by
      rw [hindex', insertIdx_length_succ]
    have hat : listAt (s.alloc new data).grow index = some (some e'.1) := by
      have hwalk := @walk_spec A D (s.alloc new data).mem s.head _ (by rw [nextOf_alloc hfree]; exact h.next)
        (fun a ha => isSome_alloc (hsome a ha)) index.toNat
      have hlast : ¬ index = s.count + 1 - 1 := by
        intro heq
        rw [heq] at hindex
        bv_omega
      rw [listAt, if_neg hzero, count_grow, count_alloc, if_neg hlast]
      simpa [hindex'] using hwalk
    refine ⟨_, ?_, hins ▸ h.insert_between hfree hroom data⟩
    have hx₀ : (s.alloc new data).grow.mem e'.1 = some x := (mem_alloc_of_ne hne).trans hx
    have hx₁ : ((s.alloc new data).grow.setNext e.1 (some new)).mem e'.1 = some x := (mem_setNext_of_ne hne').trans hx₀
    simp only [listInsert, if_neg hpush, if_neg hzero, Option.bind_eq_bind, hat, Option.bind_some, hx₀, hprev,
      write_next (isSome_old (hsome e.1 (List.mem_map_of_mem (by simp)))), hx₁]
    rw [write_prev (by simpa using isSome_new), Option.bind_some,
      write_prev (by simpa using isSome_old (hsome e'.1 (List.mem_map_of_mem (by simp)))), Option.bind_some,
      write_next (by simpa using isSome_new), Option.bind_some]

end Insert

section Remove

omit [DecidableEq A] [Fintype A] in
theorem count_shrink {s : DList A D} : s.shrink.count = s.count - 1 := rfl

variable {s : DList A D} {l before after : Entries A D} {e : A × D} {x : Node A D}

omit [Fintype A] in
theorem findNode_spec {mem : A → Option (Node A D)} {p : Option A} {as bs : List A} {a : A} {fuel : Nat}
    (h : Links (nextOf mem) p (as ++ a :: bs) none) (hsome : ∀ b ∈ as ++ a :: bs, (mem b).isSome) (ha : a ∉ as) (hfuel : as.length < fuel) :
    findNode mem (some a) fuel p = some a := by
  induction fuel generalizing p as with
  | zero => exact absurd hfuel (Nat.not_lt_zero _)
  | succ fuel ih =>
    cases as with
    | nil =>
      obtain ⟨rfl, -⟩ := h
      obtain ⟨n, hn⟩ := Option.isSome_iff_exists.mp (hsome a (by simp))
      simp [findNode, hn]
    | cons b as =>
      obtain ⟨rfl, hrest⟩ := h
      obtain ⟨n, hn⟩ := Option.isSome_iff_exists.mp (hsome b (by simp))
      rw [show nextOf mem b = n.next by rw [nextOf, hn, Option.bind_some]] at hrest
      have hnext : n.next ≠ none := by
        intro hnone
        have hnil := hrest.eq_nil_iff.mpr hnone
        simp at hnil
      have hne : ¬ some b = some a := by
        rintro ⟨⟩
        exact ha List.mem_cons_self
      have hfind := ih hrest (fun c hc => hsome c (List.mem_cons_of_mem _ hc)) (fun hmem => ha (List.mem_cons_of_mem _ hmem))
        (Nat.lt_of_succ_lt_succ hfuel)
      simp only [findNode, Option.bind_eq_bind, Option.bind_some, hn, hnext, hne, or_self, if_false]
      exact hfind

omit [Fintype A] in
/-- The `next` chain leaves a node out, or begins behind it. -/
theorem unlink_next (hnext : Links (nextOf s.mem) s.head ((before ++ e :: after).map Prod.fst) none)
    (hprev : Links (prevOf s.mem) s.last ((before ++ e :: after).map Prod.fst).reverse none)
    (hsome : ∀ b ∈ (before ++ e :: after).map Prod.fst, (s.mem b).isSome) (hx : s.mem e.1 = some x) :
    ∃ s', s.unlinkNext x = some s' ∧
      Links (nextOf s'.mem) s'.head ((before ++ after).map Prod.fst) none ∧ prevOf s'.mem = prevOf s.mem ∧ dataOf s'.mem = dataOf s.mem ∧
      s'.mem e.1 = some x ∧ s'.last = s.last ∧ s'.count = s.count ∧ ∀ b, (s'.mem b).isSome = (s.mem b).isSome := by
  have hxnext : nextOf s.mem e.1 = x.next := by rw [nextOf, hx, Option.bind_some]
  have hxprev : prevOf s.mem e.1 = x.prev := by rw [prevOf, hx, Option.bind_some]
  rcases List.eq_nil_or_concat' before with rfl | ⟨init, z, rfl⟩
  · have hnone : x.prev = none := by
      have hchain : Links (prevOf s.mem) s.last ((after.map Prod.fst).reverse ++ [e.1]) none := by simpa using hprev
      rw [← hxprev]
      exact (links_snoc.mp hchain).2
    refine ⟨{ s with head := x.next }, if_pos hnone, ?_, rfl, rfl, hx, rfl, rfl, fun _ => rfl⟩
    rw [← hxnext]
    exact hnext.2
  · have hz : x.prev = some z.1 := by
      have hchain : Links (prevOf s.mem) s.last ((after.map Prod.fst).reverse ++ e.1 :: z.1 :: (init.map Prod.fst).reverse) none := by
        simpa using hprev
      obtain ⟨r, -, -, hr, -⟩ := links_append.mp hchain
      rwa [hxprev] at hr
    have hzSome := hsome z.1 (List.mem_map_of_mem (by simp))
    have hchain : Links (nextOf s.mem) s.head (init.map Prod.fst ++ z.1 :: e.1 :: after.map Prod.fst) none := by simpa using hnext
    have hnodup := hchain.nodup
    simp only [List.nodup_append, List.nodup_cons, List.mem_cons, not_or] at hnodup
    have hunlink := hchain.unlink (by
      simp only [List.mem_append, not_or]
      exact ⟨fun hmem => hnodup.2.2 z.1 hmem z.1 (.inl rfl) rfl, hnodup.2.1.1.2⟩)
    refine ⟨s.setNext z.1 x.next, ?_, ?_, prevOf_setNext, dataOf_setNext, ?_, rfl, rfl, fun _ => isSome_setNext⟩
    · rw [DList.unlinkNext, hz, if_neg (Option.some_ne_none _), write_next hzSome]
    · rw [nextOf_setNext hzSome, ← hxnext]
      simpa using hunlink
    · rw [mem_setNext_of_ne fun heq => hnodup.2.1.1.1 heq.symm, hx]

omit [Fintype A] in
/-- The `prev` chain leaves a node out, or begins before it. -/
theorem unlink_prev (hchain : Links (prevOf s.mem) s.last (((before ++ e :: after).map Prod.fst).reverse) none)
    (hnext : x.next = (after.map Prod.fst).head?) (hsome : ∀ b ∈ (before ++ e :: after).map Prod.fst, (s.mem b).isSome)
    (hx : s.mem e.1 = some x) :
    ∃ s', s.unlinkPrev x = some s' ∧
      Links (prevOf s'.mem) s'.last ((before ++ after).map Prod.fst).reverse none ∧ nextOf s'.mem = nextOf s.mem ∧
      dataOf s'.mem = dataOf s.mem ∧ s'.head = s.head ∧ s'.count = s.count := by
  have hprev : prevOf s.mem e.1 = x.prev := by rw [prevOf, hx, Option.bind_some]
  cases after with
  | nil =>
    refine ⟨{ s with last := x.prev }, if_pos hnext, ?_, rfl, rfl, rfl, rfl⟩
    simp only [List.map_append, List.map_cons, List.map_nil, List.reverse_append, List.reverse_cons, List.reverse_nil, List.nil_append,
      List.singleton_append, List.append_nil] at hchain ⊢
    rw [← hprev]
    exact hchain.2
  | cons y after =>
    have hy : x.next = some y.1 := hnext
    have hySome := hsome y.1 (List.mem_map_of_mem (by simp))
    have hchain' : Links (prevOf s.mem) s.last ((after.map Prod.fst).reverse ++ y.1 :: e.1 :: (before.map Prod.fst).reverse) none := by
      simpa using hchain
    have hnodup := hchain'.nodup
    simp only [List.nodup_append, List.nodup_cons, List.mem_cons, not_or] at hnodup
    have hunlink := hchain'.unlink (by
      simp only [List.mem_append, not_or]
      exact ⟨fun hmem => hnodup.2.2 y.1 hmem y.1 (.inl rfl) rfl, hnodup.2.1.1.2⟩)
    refine ⟨s.setPrev y.1 x.prev, ?_, ?_, nextOf_setPrev, dataOf_setPrev, rfl, rfl⟩
    · rw [DList.unlinkPrev, hy, if_neg (Option.some_ne_none _), write_prev hySome]
    · rw [prevOf_setPrev hySome, ← hprev]
      simpa using hunlink

theorem listRemove_spec (h : s.Represents (before ++ e :: after)) :
    ∃ s', listRemove s (some e.1) = some (s', true) ∧ s'.Represents (before ++ after) := by
  have hnodup := h.nodup
  simp only [List.map_append, List.map_cons, List.nodup_append, List.nodup_cons, List.mem_cons] at hnodup
  have hnotin : e.1 ∉ before.map Prod.fst := fun hmem => hnodup.2.2 e.1 hmem e.1 (.inl rfl) rfl
  have hfind : findNode s.mem (some e.1) (Fintype.card A + 1) s.head = some e.1 := by
    have hle := h.next.length_le
    simp only [List.length_map, List.length_append, List.length_cons] at hle
    apply findNode_spec (by simpa only [List.map_append, List.map_cons] using h.next)
      (by simpa only [List.map_append, List.map_cons] using h.all_isSome) hnotin
    rw [List.length_map]
    omega
  have hcount : (s.count - 1).toNat = (before ++ after).length := by
    have hlen := h.count
    simp only [List.length_append, List.length_cons] at hlen ⊢
    bv_omega
  have hout : e.1 ∉ (before ++ after).map Prod.fst := by
    rw [List.map_append, List.mem_append, not_or]
    exact ⟨hnotin, hnodup.2.1.1⟩
  by_cases hlast : s.count - 1 = 0
  · have hnil : before ++ after = [] := by
      rw [hlast] at hcount
      exact List.eq_nil_of_length_eq_zero hcount.symm
    refine ⟨({ s with count := s.count - 1, head := none, last := none } : DList A D).free e.1, ?_, ?_⟩
    · simp only [listRemove, hfind, Option.bind_eq_bind, Option.bind_some, DList.unlink, count_shrink, hlast, if_true]
      rfl
    · rw [hnil]
      refine ⟨rfl, rfl, fun e he => (List.not_mem_nil he).elim, ?_⟩
      rw [hnil] at hcount
      exact hcount
  · obtain ⟨x, hx⟩ := h.isSome (List.mem_map_of_mem (a := e) (by simp))
    obtain ⟨s₁, hunlink, hnext₁, hprev₁, hdata₁, hx₁, hlast₁, hcount₁, hsome₁⟩ := @unlink_next A D _ s.shrink _ _ _ _ h.next h.prev h.all_isSome hx
    have hxnext : x.next = (after.map Prod.fst).head? := by
      have hchain : Links (nextOf s.mem) s.head (before.map Prod.fst ++ e.1 :: after.map Prod.fst) none := by
        simpa only [List.map_append, List.map_cons] using h.next
      obtain ⟨r, -, -, hr⟩ := links_append.mp hchain
      rw [nextOf, hx, Option.bind_some] at hr
      exact hr.eq_head?
    obtain ⟨s₂, hunlink₂, hprev₂, hnext₂, hdata₂, hhead₂, hcount₂⟩ := @unlink_prev A D _ s₁ before after e x (by
      rw [hprev₁, hlast₁]
      exact h.prev) hxnext (fun b hb => by
      rw [hsome₁]
      exact h.all_isSome b hb) hx₁
    have hrep : s₂.Represents (before ++ after) := by
      refine ⟨?_, hprev₂, ?_, ?_⟩
      · rw [hnext₂, hhead₂]
        exact hnext₁
      · intro e' he'
        rw [hdata₂, hdata₁]
        apply h.data
        simp only [List.mem_append, List.mem_cons] at he' ⊢
        exact he'.imp_right .inr
      · rw [hcount₂, hcount₁]
        exact hcount
    refine ⟨s₂.free e.1, ?_, hrep.free hout⟩
    simp only [listRemove, hfind, Option.bind_eq_bind, Option.bind_some, DList.unlink, count_shrink, hlast, if_false,
      show s.shrink.mem e.1 = some x from hx, hunlink, hx₁, hunlink₂]

omit [Fintype A] in
theorem eraseP_eq (hnodup : ((before ++ e :: after).map Prod.fst).Nodup) :
    (before ++ e :: after).eraseP (fun x => x.1 = e.1) = before ++ after := by
  have hbefore : ∀ x ∈ before, ¬ (decide (x.1 = e.1)) = true := by
    intro x hx heq
    simp only [List.map_append, List.map_cons, List.nodup_append] at hnodup
    exact hnodup.2.2 x.1 (List.mem_map_of_mem hx) e.1 List.mem_cons_self (of_decide_eq_true heq)
  rw [List.eraseP_append_right _ hbefore, List.eraseP_cons, decide_eq_true rfl, cond_true]

theorem listPop_spec (h : s.Represents (before ++ [e])) : ∃ s', listPop s = some (s', some e.2) ∧ s'.Represents before := by
  obtain ⟨s', hremove, hrep⟩ := listRemove_spec h
  rw [List.append_nil] at hrep
  obtain ⟨x, hx⟩ := h.isSome (List.mem_map_of_mem (a := e) (by simp))
  have hdata : x.data = e.2 := by
    have hdata := h.data e (by simp)
    rw [dataOf, hx, Option.map_some] at hdata
    exact Option.some.inj hdata
  have hlast : s.last = some e.1 := by simpa using h.last_eq
  refine ⟨s', ?_, hrep⟩
  simp only [listPop, hlast, hx, Option.bind_eq_bind, Option.bind_some, hremove, hdata]

omit [Fintype A] in
theorem freeAll_spec {fuel : Nat} {p : Option A} {as : List A} (h : Links (prevOf s.mem) p as none) (hsome : ∀ a ∈ as, (s.mem a).isSome)
    (hfuel : as.length ≤ fuel) : ∃ s', freeAll fuel s p = some s' := by
  induction as generalizing fuel s p with
  | nil =>
    obtain rfl : p = none := h
    refine ⟨s, ?_⟩
    cases fuel <;> rfl
  | cons a as ih =>
    have hnotin := (List.nodup_cons.mp h.nodup).1
    obtain ⟨rfl, hrest⟩ := h
    obtain ⟨n, hn⟩ := Option.isSome_iff_exists.mp (hsome a List.mem_cons_self)
    rw [prevOf, hn, Option.bind_some] at hrest
    obtain _ | fuel := fuel
    · exact absurd hfuel (by simp)
    have hother : ∀ b ∈ as, (s.free a).mem b = s.mem b := by
      intro b hb
      apply Function.update_of_ne
      rintro rfl
      exact hnotin hb
    have hchain : Links (prevOf (s.free a).mem) n.prev as none := by
      refine hrest.congr fun b hb => ?_
      rw [prevOf, hother b hb, prevOf]
    have hrestSome : ∀ b ∈ as, ((s.free a).mem b).isSome := by
      intro b hb
      rw [hother b hb]
      exact hsome b (List.mem_cons_of_mem _ hb)
    obtain ⟨s', hfree⟩ := ih hchain hrestSome (Nat.le_of_succ_le_succ hfuel)
    refine ⟨s', ?_⟩
    simp only [freeAll, hn, Option.bind_eq_bind, Option.bind_some, hfree]

theorem listClear_spec (h : s.Represents l) : ∃ s', listClear s = some s' ∧ s'.Represents [] := by
  obtain ⟨s', hfree⟩ := freeAll_spec h.prev (fun a ha => h.all_isSome a (List.mem_reverse.mp ha))
    (Nat.le_succ_of_le h.prev.length_le)
  refine ⟨{ s' with count := 0, head := none, last := none }, ?_, rfl, rfl, fun e he => (List.not_mem_nil he).elim, rfl⟩
  simp only [listClear, hfree, Option.bind_eq_bind, Option.bind_some]

end Remove

/-! ### Runs -/

section Runs

variable {s : DList A D} {l : Entries A D}

/-- A legal call that stays clear of the cases that go wrong is the call on the sequence. -/
theorem DList.Represents.exec (h : s.Represents l) {op : ListOp A D} (hlegal : op.Legal s l) (hclear : op.Clear l) :
    ∃ s', listExec s op = some (s', (l.exec op).2) ∧ s'.Represents (l.exec op).1 := by
  cases op with
  | push data new =>
    obtain ⟨s', hpush, hrep⟩ := listPush_spec h hlegal hclear data
    refine ⟨s', ?_, hrep⟩
    simp [listExec, hpush, Entries.exec]
  | insert data index new =>
    obtain ⟨s', hinsert, hrep⟩ := listInsert_spec h hlegal.1 hclear.1 hclear.2 data
    refine ⟨s', ?_, hrep⟩
    simp [listExec, hinsert, Entries.exec]
  | remove node =>
    obtain ⟨e, he, rfl⟩ := List.mem_map.mp hlegal
    obtain ⟨before, after, rfl⟩ := List.append_of_mem he
    obtain ⟨s', hremove, hrep⟩ := listRemove_spec h
    refine ⟨s', ?_, ?_⟩
    · simp [listExec, hremove, Entries.exec]
    · rw [Entries.exec, eraseP_eq h.nodup]
      exact hrep
  | removeAt index => exact hclear.elim
  | pop =>
    obtain rfl | ⟨before, e, rfl⟩ := List.eq_nil_or_concat' l
    · exact absurd rfl hclear
    obtain ⟨s', hpop, hrep⟩ := listPop_spec h
    refine ⟨s', ?_, ?_⟩
    · simp [listExec, hpop, Entries.exec]
    · rw [Entries.exec, List.dropLast_concat]
      exact hrep
  | «at» index =>
    refine ⟨s, ?_, h⟩
    simp [listExec, listAt_spec h, Entries.exec]
  | clear =>
    obtain ⟨s', hdone, hrep⟩ := listClear_spec h
    refine ⟨s', ?_, hrep⟩
    simp [listExec, hdone, Entries.exec]

theorem DList.Represents.follows (h : s.Represents l) {ops : List (ListOp A D)} (hclear : ListClear l ops) : ListFollows s l ops := by
  induction ops generalizing s l with
  | nil => exact h
  | cons op ops ih =>
    refine ⟨h, fun hlegal => ?_⟩
    obtain ⟨s', hexec, hrep⟩ := h.exec hlegal hclear.1
    exact ⟨s', hexec, ih hrep hclear.2⟩

/-- A run that stays clear of insertion at either of the last two indices, of removal by index and of `list_pop` of an empty list is a run on the sequence. -/
theorem list_follows_sequence (mem : A → Option (Node A D)) (ops : List (ListOp A D)) (hclear : ListClear [] ops) :
    ListFollows { mem := mem } [] ops := by
  have hempty : ({ mem := mem } : DList A D).Represents [] := ⟨rfl, rfl, fun e he => (List.not_mem_nil he).elim, rfl⟩
  exact hempty.follows hclear

end Runs

theorem list_follows_sequence_mixed :
    ListFollows ({ mem := fun _ => none } : DList (Fin 4) Nat) []
      [.push 7 0, .push 8 1, .insert 9 0 2, .at 1, .remove 0, .pop, .clear] :=
  list_follows_sequence _ _ (by simp [ListClear, ListOp.Clear, Entries.exec])

/-- `list_pop` of an empty list follows a null pointer. -/
theorem list_pop_empty : ¬ ∀ ops : List (ListOp (Fin 4) Nat), ListFollows { mem := fun _ => none } [] ops := by
  intro h
  obtain ⟨-, hpop⟩ := h [.pop]
  obtain ⟨s', hexec, -⟩ := hpop trivial
  cases hexec

end Reading.Clox
