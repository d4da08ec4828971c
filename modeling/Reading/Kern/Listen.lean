import Reading.Lib.Chain

/-!
# The queues of a listening socket

`sonewconn1`, `soisconnected`, `soqinsque` and `soqremque` (`uipc_socket2.c`) with `sofree` and `soclose` (`uipc_socket.c`), over all sockets in memory. A listening socket has two queues: incomplete connections are linked by `so_q0` and complete ones by `so_q`, and the same fields of the listening socket point to the first of them. The argument `q` of the source is a truth value here, and the fields that it selects are read and written by `link` and `len`.

Of the protocol it is used that `PRU_ABORT` and `PRU_DETACH` of a listening or pending socket clear `so_pcb` and call `sofree`, as `tcp_close` and `unp_detach` do. Whether `PRU_ATTACH` succeeds is a choice of the environment.
-/

namespace Reading.Kern.Listen

open Reading.Lib

structure Sock (A : Type) where
  soHead : Option A := none
  soQ0 : Option A := none
  soQ : Option A := none
  soQ0len : Nat := 0
  soQlen : Nat := 0
  soQlimit : Nat := 0
  /-- `SO_ACCEPTCONN`. -/
  acceptconn : Bool := false
  /-- `SS_NOFDREF`. -/
  nofdref : Bool := false
  /-- `so_pcb` is not null. -/
  pcb : Bool := false
deriving DecidableEq

variable {A : Type}

namespace Sock

def link (q : Bool) (s : Sock A) : Option A := if q then s.soQ else s.soQ0

def setLink (q : Bool) (p : Option A) (s : Sock A) : Sock A := if q then { s with soQ := p } else { s with soQ0 := p }

def len (q : Bool) (s : Sock A) : Nat := if q then s.soQlen else s.soQ0len

def setLen (q : Bool) (n : Nat) (s : Sock A) : Sock A := if q then { s with soQlen := n } else { s with soQ0len := n }

end Sock

/-- The sockets that are allocated. -/
abbrev Mem (A : Type) := A → Option (Sock A)

/-- The links of one of the two kinds. -/
def links (q : Bool) (mem : Mem A) (a : A) : Option A := (mem a).bind (Sock.link q)

variable [DecidableEq A]

/-- A socket is written to, which has to be there. -/
def Mem.write (mem : Mem A) (a : A) (f : Sock A → Sock A) : Option (Mem A) := do
  let s ← mem a
  some (Function.update mem a (some (f s)))

variable [Fintype A]

def soqinsque (mem : Mem A) (head so : A) (q : Bool) : Option (Mem A) := do
  let mem ← mem.write so fun s => { s with soHead := some head }
  let mem ← mem.write head fun s => s.setLen q (s.len q + 1)
  let mem ← mem.write so (Sock.setLink q none)
  let prev ← lastFrom (links q mem) (Fintype.card A + 1) head
  mem.write prev (Sock.setLink q (some so))

/-- Whether the socket was on the queue. A null pointer is followed if it has no head. -/
def soqremque (mem : Mem A) (so : A) (q : Bool) : Option (Mem A × Bool) := do
  let s ← mem so
  let head ← s.soHead
  match ← findBefore (links q mem) so (Fintype.card A + 1) head with
  | none => some (mem, false)
  | some prev => do
    let mem ← mem.write prev (Sock.setLink q (s.link q))
    let mem ← mem.write head fun s => s.setLen q (s.len q - 1)
    let mem ← mem.write so fun s => { s with soQ0 := none, soQ := none, soHead := none }
    some (mem, true)

inductive Fault where
  /-- `sofree dq`. -/
  | panic
  /-- A null pointer or freed memory is used, or a loop does not end. -/
  | undefined
deriving DecidableEq

/-- A computation that must have a result. -/
def defined {α : Type} : Option α → Except Fault α
  | some a => .ok a
  | none => .error .undefined

/-- The queues are left by a socket that is freed. -/
def dequeue (mem : Mem A) (so : A) : Except Fault (Mem A) := do
  let (mem, found) ← defined (soqremque mem so false)
  if found then .ok mem
  else do
    let (mem, found) ← defined (soqremque mem so true)
    if found then .ok mem else .error .panic

def sofree (mem : Mem A) (so : A) : Except Fault (Mem A) := do
  let s ← defined (mem so)
  if s.pcb || !s.nofdref then .ok mem
  else do
    let mem ← if s.soHead.isSome then dequeue mem so else .ok mem
    .ok (Function.update mem so none)

/-- The protocol lets go of the socket and calls `sofree`. -/
def detach (mem : Mem A) (so : A) : Except Fault (Mem A) := do
  let mem ← defined (mem.write so fun s => { s with pcb := false })
  sofree mem so

/-- A loop of `soclose`: `soabort` for the first socket of the queue until there is none. -/
def abortAll (q : Bool) (head : A) : Nat → Mem A → Except Fault (Mem A)
  | 0, _ => .error .undefined
  | fuel + 1, mem =>
    match links q mem head with
    | none => .ok mem
    | some so => do
      let mem ← detach mem so
      abortAll q head fuel mem

/-- `soclose`, where the protocol may keep its control block for a while unless the socket is listening. -/
def soclose (mem : Mem A) (so : A) (keeps : Bool) : Except Fault (Mem A) := do
  let s ← defined (mem so)
  let mem ←
    if s.acceptconn then do
      let mem ← abortAll false so (Fintype.card A + 1) mem
      abortAll true so (Fintype.card A + 1) mem
    else .ok mem
  let mem ← defined (mem.write so fun s => { s with pcb := s.pcb && keeps && !s.acceptconn, nofdref := true })
  sofree mem so

/-- `sonewconn1` with the memory it allocates, and whether `PRU_ATTACH` succeeds. -/
def sonewconn1 (mem : Mem A) (head : A) (connstatus : Bool) (so : A) (attach : Bool) : Except Fault (Mem A) := do
  let h ← defined (mem head)
  if h.soQlen + h.soQ0len > 3 * h.soQlimit / 2 then .ok mem
  else do
    let mem ← defined (soqinsque (Function.update mem so (some { nofdref := true })) head so connstatus)
    if attach then defined (mem.write so fun s => { s with pcb := true })
    else do
      let (mem, _) ← defined (soqremque mem so connstatus)
      .ok (Function.update mem so none)

def soisconnected (mem : Mem A) (so : A) : Except Fault (Mem A) := do
  let s ← defined (mem so)
  match s.soHead with
  | none => .ok mem
  | some head => do
    let (mem, found) ← defined (soqremque mem so false)
    if found then defined (soqinsque mem head so true) else .ok mem

/-- `accept` takes the first complete connection. -/
def accept (mem : Mem A) (head : A) : Except Fault (Mem A) := do
  match links true mem head with
  | none => .ok mem
  | some so => do
    let (mem, found) ← defined (soqremque mem so true)
    if found then defined (mem.write so fun s => { s with nofdref := false }) else .error .panic

def solisten (mem : Mem A) (so : A) (backlog : Int) : Except Fault (Mem A) :=
  defined (mem.write so fun s =>
    { s with acceptconn := s.acceptconn || s.soQ.isNone, soQlimit := (min (max backlog 0) 5).toNat })

/-! ### Runs -/

inductive Act (A : Type) where
  | create (so : A)
  | listen (so : A) (backlog : Int)
  | newconn (head : A) (connstatus : Bool) (so : A) (attach : Bool)
  | connected (so : A)
  | accept (head : A)
  | detach (so : A)
  | close (so : A) (keeps : Bool)

/-- The call is made only where its callers make it: memory is allocated where it is free, a process has a reference to what it names, and a connection comes in for a listening socket. -/
def Act.enabled (mem : Mem A) : Act A → Bool
  | .create so => (mem so).isNone
  | .listen so _ | .close so _ => (mem so).any fun s => !s.nofdref
  | .newconn head _ so _ => (mem head).any Sock.acceptconn && (mem so).isNone
  | .connected so | .detach so => (mem so).isSome
  | .accept head => (mem head).any fun s => !s.nofdref && s.acceptconn

def Act.perform (mem : Mem A) : Act A → Except Fault (Mem A)
  | .create so => .ok (Function.update mem so (some { pcb := true }))
  | .listen so backlog => solisten mem so backlog
  | .newconn head connstatus so attach => sonewconn1 mem head connstatus so attach
  | .connected so => soisconnected mem so
  | .accept head => Listen.accept mem head
  | .detach so => Listen.detach mem so
  | .close so keeps => soclose mem so keeps

def step (mem : Mem A) (a : Act A) : Except Fault (Mem A) := if a.enabled mem then a.perform mem else .ok mem

/-! ### The fields as functions of the address -/

section Fields

omit [DecidableEq A] [Fintype A]

def headOf (mem : Mem A) (a : A) : Option A := (mem a).bind Sock.soHead

def lenOf (q : Bool) (mem : Mem A) (a : A) : Nat := (mem a).elim 0 (Sock.len q)

/-- What the queues are not made of. -/
structure Status where
  acceptconn : Bool
  nofdref : Bool
  soQlimit : Nat

def statusOf (mem : Mem A) (a : A) : Option Status := (mem a).map fun s => ⟨s.acceptconn, s.nofdref, s.soQlimit⟩

/-- No process has a reference to the socket. -/
def unreferenced (mem : Mem A) (a : A) : Bool := (statusOf mem a).any Status.nofdref

def listening (mem : Mem A) (a : A) : Bool := (statusOf mem a).any Status.acceptconn

end Fields

section Modify

omit [Fintype A]

/-- A socket is changed, if it is there. -/
def Mem.modify (mem : Mem A) (a : A) (f : Sock A → Sock A) : Mem A := fun b => if b = a then (mem b).map f else mem b

variable {mem : Mem A} {a b : A} {f : Sock A → Sock A} {s : Sock A}

theorem write_of_isSome (h : (mem a).isSome) : mem.write a f = some (mem.modify a f) := by
  obtain ⟨s, hs⟩ := Option.isSome_iff_exists.mp h
  rw [Mem.write, hs]
  refine congrArg some (funext fun b => ?_)
  rw [Mem.modify, Function.update_apply]
  split
  · rename_i heq
    rw [heq, hs, Option.map_some]
  · rfl

@[simp] theorem isSome_modify : (mem.modify a f b).isSome = (mem b).isSome := by
  rw [Mem.modify]
  split
  · rw [Option.isSome_map]
  · rfl

theorem modify_self (h : mem a = some s) : mem.modify a f a = some (f s) := by
  rw [Mem.modify, if_pos rfl, h, Option.map_some]

theorem modify_of_ne (h : b ≠ a) : mem.modify a f b = mem b := if_neg h

/-- A field that the change keeps. -/
theorem bind_modify {β : Type} {g : Sock A → Option β} (h : ∀ s, g (f s) = g s) : (mem.modify a f b).bind g = (mem b).bind g := by
  rw [Mem.modify]
  split
  · rw [Option.bind_map]
    exact congrArg _ (funext h)
  · rfl

theorem elim_modify {β : Type} {n : β} {g : Sock A → β} (h : ∀ s, g (f s) = g s) :
    (mem.modify a f b).elim n g = (mem b).elim n g := by
  rw [Mem.modify]
  split
  · cases mem b with
    | none => rfl
    | some s => exact h s
  · rfl

theorem statusOf_modify (h : ∀ s, (f s).acceptconn = s.acceptconn ∧ (f s).nofdref = s.nofdref ∧ (f s).soQlimit = s.soQlimit) :
    statusOf (mem.modify a f) = statusOf mem := by
  funext b
  rw [statusOf, statusOf, Mem.modify]
  split
  · rw [Option.map_map]
    refine congrArg (Option.map · (mem b)) (funext fun s => ?_)
    obtain ⟨haccept, hnofdref, hlimit⟩ := h s
    rw [Function.comp_apply, haccept, hnofdref, hlimit]
  · rfl

theorem statusOf_setLink (q : Bool) (p : Option A) (a : A) : statusOf (mem.modify a (Sock.setLink q p)) = statusOf mem :=
  statusOf_modify fun s => by cases q <;> exact ⟨rfl, rfl, rfl⟩

theorem statusOf_setLen (q : Bool) (g : Sock A → Nat) (a : A) :
    statusOf (mem.modify a fun s => s.setLen q (g s)) = statusOf mem :=
  statusOf_modify fun s => by cases q <;> exact ⟨rfl, rfl, rfl⟩

theorem statusOf_setHead (p : Option A) (a : A) : statusOf (mem.modify a fun s => { s with soHead := p }) = statusOf mem :=
  statusOf_modify fun _ => ⟨rfl, rfl, rfl⟩

/-- A link is written. -/
theorem links_setLink (h : (mem a).isSome) (q : Bool) (p : Option A) :
    links q (mem.modify a (Sock.setLink q p)) = Function.update (links q mem) a p := by
  obtain ⟨s, hs⟩ := Option.isSome_iff_exists.mp h
  funext b
  rw [Function.update_apply, links]
  split
  · rename_i heq
    rw [heq, modify_self hs]
    cases q <;> rfl
  · rename_i hne
    rw [modify_of_ne hne]
    rfl

theorem links_setLink_not (q : Bool) (p : Option A) (a : A) :
    links (!q) (mem.modify a (Sock.setLink q p)) = links (!q) mem := by
  funext b
  exact bind_modify fun s => by cases q <;> rfl

theorem links_setLen (q q' : Bool) (g : Sock A → Nat) (a : A) :
    links q' (mem.modify a fun s => s.setLen q (g s)) = links q' mem := by
  funext b
  exact bind_modify fun s => by cases q <;> cases q' <;> rfl

theorem links_setHead (q : Bool) (p : Option A) (a : A) :
    links q (mem.modify a fun s => { s with soHead := p }) = links q mem := by
  funext b
  exact bind_modify fun s => by cases q <;> rfl

theorem headOf_setHead (h : (mem a).isSome) (p : Option A) :
    headOf (mem.modify a fun s => { s with soHead := p }) = Function.update (headOf mem) a p := by
  obtain ⟨s, hs⟩ := Option.isSome_iff_exists.mp h
  funext b
  rw [Function.update_apply, headOf]
  split
  · rename_i heq
    rw [heq, modify_self hs]
    rfl
  · rename_i hne
    rw [modify_of_ne hne]
    rfl

theorem headOf_setLink (q : Bool) (p : Option A) (a : A) : headOf (mem.modify a (Sock.setLink q p)) = headOf mem := by
  funext b
  exact bind_modify fun s => by cases q <;> rfl

theorem headOf_setLen (q : Bool) (g : Sock A → Nat) (a : A) : headOf (mem.modify a fun s => s.setLen q (g s)) = headOf mem := by
  funext b
  exact bind_modify fun s => by cases q <;> rfl

theorem lenOf_setLen (h : (mem a).isSome) (q : Bool) (g : Nat → Nat) :
    lenOf q (mem.modify a fun s => s.setLen q (g (s.len q))) = Function.update (lenOf q mem) a (g (lenOf q mem a)) := by
  obtain ⟨s, hs⟩ := Option.isSome_iff_exists.mp h
  funext b
  rw [Function.update_apply, lenOf]
  split
  · rename_i heq
    rw [heq, modify_self hs, lenOf, hs]
    cases q <;> rfl
  · rename_i hne
    rw [modify_of_ne hne]
    rfl

theorem lenOf_setLen_not (q : Bool) (g : Sock A → Nat) (a : A) :
    lenOf (!q) (mem.modify a fun s => s.setLen q (g s)) = lenOf (!q) mem := by
  funext b
  exact elim_modify fun s => by cases q <;> rfl

theorem lenOf_setLink (q q' : Bool) (p : Option A) (a : A) : lenOf q' (mem.modify a (Sock.setLink q p)) = lenOf q' mem := by
  funext b
  exact elim_modify fun s => by cases q <;> cases q' <;> rfl

theorem lenOf_setHead (q : Bool) (p : Option A) (a : A) :
    lenOf q (mem.modify a fun s => { s with soHead := p }) = lenOf q mem := by
  funext b
  exact elim_modify fun s => by cases q <;> rfl

end Modify

/-! ### The invariant -/

section Invariant

omit [DecidableEq A] [Fintype A]

/-- The queues of every socket, as lists. -/
abbrev Queues (A : Type) := Bool → A → List A

/-- A socket that is not pending itself has two chains, and the pending sockets are those on them. -/
structure Inv (mem : Mem A) (Q : Queues A) : Prop where
  chain : ∀ q a, headOf mem a = none → Links (links q mem) (links q mem a) (Q q a) none
  len : ∀ q a, headOf mem a = none → lenOf q mem a = (Q q a).length
  member : ∀ q a y, y ∈ Q q a → headOf mem y = some a ∧ links (!q) mem y = none ∧ unreferenced mem y = true
  pending : ∀ y a, headOf mem y = some a → ∃ q, y ∈ Q q a
  once : ∀ q a y, y ∈ Q q a → y ∉ Q (!q) a
  head : ∀ q a y, y ∈ Q q a → listening mem a = true
  referenced : ∀ a, listening mem a = true → unreferenced mem a = false ∧ headOf mem a = none
  plain : ∀ q a, listening mem a = false → lenOf q mem a = 0

variable {mem : Mem A} {Q : Queues A} {a y : A}

theorem Inv.queue_eq_nil (h : Inv mem Q) (ha : listening mem a = false) (q : Bool) : Q q a = [] := by
  apply List.eq_nil_iff_forall_not_mem.mpr
  intro y hy
  rw [h.head q a y hy] at ha
  exact nomatch ha

theorem isSome_of_headOf (h : headOf mem y = some a) : (mem y).isSome := by
  rw [headOf] at h
  cases hy : mem y with
  | none => simp [hy] at h
  | some s => rfl

theorem isSome_of_listening (h : listening mem a = true) : (mem a).isSome := by
  rw [listening, statusOf] at h
  cases ha : mem a with
  | none => simp [ha] at h
  | some s => rfl

end Invariant

section Specs

variable {mem : Mem A} {Q : Queues A} {head so : A} {q : Bool}

/-- The queue of a socket is changed. -/
def Queues.set (Q : Queues A) (q : Bool) (a : A) (l : List A) : Queues A :=
  fun q' b => if q' = q ∧ b = a then l else Q q' b

omit [Fintype A] in
@[simp] theorem set_self (l : List A) : Q.set q head l q head = l := if_pos ⟨rfl, rfl⟩

omit [Fintype A] in
@[simp] theorem set_not (l : List A) (a : A) : Q.set q head l (!q) a = Q (!q) a := if_neg (by simp)

omit [DecidableEq A] [Fintype A] in
theorem Inv.notMem (h : Inv mem Q) (hfree : headOf mem so = none) (q : Bool) (a : A) : so ∉ Q q a := by
  intro hmem
  have hpending := (h.member q a so hmem).1
  rw [hfree] at hpending
  exact nomatch hpending

omit [DecidableEq A] [Fintype A] in
theorem Inv.links_eq_none (h : Inv mem Q) (hfree : headOf mem so = none) (hplain : listening mem so = false) (q : Bool) :
    links q mem so = none := by
  have hchain := h.chain q so hfree
  rw [h.queue_eq_nil hplain q] at hchain
  exact hchain

omit [DecidableEq A] [Fintype A] in
/-- A socket is on the queues of one head. -/
theorem Inv.eq_head (h : Inv mem Q) {q q' : Bool} {a b y : A} (hy : y ∈ Q q a) (hy' : y ∈ Q q' b) : a = b := by
  have heq := (h.member q a y hy).1.symm.trans (h.member q' b y hy').1
  exact Option.some.inj heq

/-- The last cell of a queue, which is the head itself while the queue is empty. -/
def Queues.last (Q : Queues A) (q : Bool) (head : A) : A := (head :: Q q head).getLast (List.cons_ne_nil _ _)

omit [DecidableEq A] [Fintype A] in
theorem last_cases (Q : Queues A) (q : Bool) (head : A) : Q.last q head = head ∨ Q.last q head ∈ Q q head := by
  have hmem := List.getLast_mem (List.cons_ne_nil head (Q q head))
  exact List.mem_cons.mp hmem

omit [DecidableEq A] [Fintype A] in
/-- A cell of one chain is in no other queue. -/
theorem Inv.cell_notMem (h : Inv mem Q) (hheadfree : headOf mem head = none) {z : A} (hz : z = head ∨ z ∈ Q q head) {q' : Bool} {a : A}
    (hne : (q', a) ≠ (q, head)) : z ∉ Q q' a := by
  intro hmem
  obtain rfl | hz := hz
  · exact h.notMem hheadfree q' a hmem
  · obtain rfl := h.eq_head hmem hz
    rcases Bool.eq_or_eq_not q' q with rfl | rfl
    · exact hne rfl
    · exact h.once q _ _ hz hmem

section Insertion

omit [Fintype A]

omit [DecidableEq A] in
theorem listening_congr {mem' : Mem A} (h : statusOf mem' = statusOf mem) (a : A) : listening mem' a = listening mem a := by
  rw [listening, h, listening]

omit [DecidableEq A] in
theorem unreferenced_congr {mem' : Mem A} (h : statusOf mem' = statusOf mem) (a : A) : unreferenced mem' a = unreferenced mem a := by
  rw [unreferenced, h, unreferenced]

omit [DecidableEq A] in
/-- The queue of a head up to its last cell, and the cell itself. -/
theorem Inv.chain_last (h : Inv mem Q) (hheadfree : headOf mem head = none) (q : Bool) :
    Links (links q mem) (some head) ((head :: Q q head).dropLast ++ [Q.last q head]) none := by
  rw [Queues.last, List.dropLast_append_getLast]
  exact ⟨rfl, h.chain q head hheadfree⟩

omit [DecidableEq A] in
/-- What is no head and on no queue is no cell of one. -/
theorem Inv.ne_cell (h : Inv mem Q) {a z : A} (ha : headOf mem a = none) (hne : a ≠ head) (hz : z = head ∨ z ∈ Q q head) : a ≠ z := by
  rintro rfl
  obtain hz | hz := hz
  · exact hne hz
  · exact h.notMem ha q head hz

/-- `so` may be put on a queue of `head`. -/
structure Enters (mem : Mem A) (head so : A) : Prop where
  listens : listening mem head = true
  free : headOf mem so = none
  unref : unreferenced mem so = true
  plain : listening mem so = false

/-- What `mem'` has of `mem`, with `so` at the end of a queue of `head`. -/
structure Inserted (mem mem' : Mem A) (Q : Queues A) (q : Bool) (head so : A) : Prop where
  queue : links q mem' = Function.update (links q mem) (Q.last q head) (some so)
  other : links (!q) mem' = links (!q) mem
  heads : headOf mem' = Function.update (headOf mem) so (some head)
  lens : lenOf q mem' = Function.update (lenOf q mem) head (lenOf q mem head + 1)
  lensOther : lenOf (!q) mem' = lenOf (!q) mem
  status : statusOf mem' = statusOf mem

theorem mem_set_append {q' : Bool} {a y : A} :
    y ∈ Q.set q head (Q q head ++ [so]) q' a ↔ y ∈ Q q' a ∨ (q' = q ∧ a = head) ∧ y = so := by
  rw [Queues.set]
  split
  next hpair =>
    rw [hpair.1, hpair.2, List.mem_append, List.mem_singleton, and_iff_right ⟨rfl, rfl⟩]
  next hpair =>
    rw [iff_self_or]
    exact fun hnew => absurd hnew.1 hpair

namespace Inserted

variable {mem' : Mem A} {a y : A}

theorem free_of (i : Inserted mem mem' Q q head so) (ha : headOf mem' a = none) : headOf mem a = none := by
  rw [i.heads, Function.update_apply] at ha
  split at ha
  · cases ha
  · exact ha

theorem kept (i : Inserted mem mem' Q q head so) (e : Enters mem head so) (hy : headOf mem y = some a) : headOf mem' y = some a := by
  rw [i.heads, Function.update_of_ne, hy]
  rintro rfl
  rw [e.free] at hy
  cases hy

theorem chain_head (i : Inserted mem mem' Q q head so) (h : Inv mem Q) (e : Enters mem head so) :
    Links (links q mem') (links q mem' head) (Q q head ++ [so]) none := by
  have hchain := h.chain_last (h.referenced head e.listens).2 q
  have hnew : so ∉ (head :: Q q head).dropLast ++ [Q.last q head] := by
    rw [Queues.last, List.dropLast_append_getLast]
    intro hmem
    rcases List.mem_cons.mp hmem with rfl | hmem
    · have hplain := e.plain
      rw [e.listens] at hplain
      cases hplain
    · exact h.notMem e.free q head hmem
  have hpush := hchain.push hnew (h.links_eq_none e.free e.plain q)
  have hlist : (head :: Q q head).dropLast ++ [Q.last q head, so] = head :: (Q q head ++ [so]) := by
    have hsplit : ∀ (l : List A) (z : A), l ++ [z, so] = (l ++ [z]) ++ [so] := by simp
    rw [hsplit, Queues.last, List.dropLast_append_getLast, List.cons_append]
  rw [hlist] at hpush
  rw [i.queue]
  exact hpush.2

theorem chain (i : Inserted mem mem' Q q head so) (h : Inv mem Q) (e : Enters mem head so) (q' : Bool) (a : A)
    (ha : headOf mem' a = none) : Links (links q' mem') (links q' mem' a) (Q.set q head (Q q head ++ [so]) q' a) none := by
  rcases Bool.eq_or_eq_not q' q with rfl | rfl
  · by_cases heq : a = head
    · subst heq
      rw [set_self]
      exact i.chain_head h e
    · -- the queues of the other heads have no cell that is written
      have hheadfree := (h.referenced head e.listens).2
      have hne : (q', a) ≠ (q', head) := fun hpair => heq (Prod.ext_iff.mp hpair).2
      have hlast := h.ne_cell (i.free_of ha) heq (last_cases Q q' head)
      rw [i.queue, Queues.set, if_neg (by simp [heq]), Function.update_of_ne hlast]
      exact (h.chain q' a (i.free_of ha)).update (h.cell_notMem hheadfree (last_cases Q q' head) hne) _
  · rw [i.other, set_not]
    exact h.chain _ a (i.free_of ha)

theorem len (i : Inserted mem mem' Q q head so) (h : Inv mem Q) (q' : Bool) (a : A) (ha : headOf mem' a = none) :
    lenOf q' mem' a = (Q.set q head (Q q head ++ [so]) q' a).length := by
  have hold := h.len q' a (i.free_of ha)
  rcases Bool.eq_or_eq_not q' q with rfl | rfl
  · rw [i.lens, Function.update_apply, Queues.set]
    by_cases heq : a = head
    · subst heq
      simp [hold]
    · simp [heq, hold]
  · rw [i.lensOther, set_not]
    exact hold

theorem member (i : Inserted mem mem' Q q head so) (h : Inv mem Q) (e : Enters mem head so) (q' : Bool) (a y : A)
    (hy : y ∈ Q.set q head (Q q head ++ [so]) q' a) :
    headOf mem' y = some a ∧ links (!q') mem' y = none ∧ unreferenced mem' y = true := by
  rw [unreferenced_congr i.status]
  rcases mem_set_append.mp hy with hold | ⟨⟨rfl, rfl⟩, rfl⟩
  · obtain ⟨hpending, hlink, hunref⟩ := h.member q' a y hold
    refine ⟨i.kept e hpending, ?_, hunref⟩
    rcases Bool.eq_or_eq_not q' q with rfl | rfl
    · rw [i.other, hlink]
    · have hne : y ≠ Q.last q head := by
        rintro rfl
        exact h.cell_notMem (h.referenced head e.listens).2 (last_cases Q q head) (by simp) hold
      rw [Bool.not_not] at hlink ⊢
      rw [i.queue, Function.update_of_ne hne, hlink]
  · rw [i.heads, Function.update_self, i.other]
    exact ⟨rfl, h.links_eq_none e.free e.plain _, e.unref⟩

theorem pending (i : Inserted mem mem' Q q head so) (h : Inv mem Q) (y a : A) (hy : headOf mem' y = some a) :
    ∃ q', y ∈ Q.set q head (Q q head ++ [so]) q' a := by
  rw [i.heads, Function.update_apply] at hy
  split at hy
  next heq =>
    cases hy
    exact ⟨q, mem_set_append.mpr (.inr ⟨⟨rfl, rfl⟩, heq⟩)⟩
  · obtain ⟨q', hmem⟩ := h.pending y a hy
    exact ⟨q', mem_set_append.mpr (.inl hmem)⟩

end Inserted

theorem Inv.insert {mem' : Mem A} (h : Inv mem Q) (e : Enters mem head so) (i : Inserted mem mem' Q q head so) :
    Inv mem' (Q.set q head (Q q head ++ [so])) where
  chain := i.chain h e
  len := i.len h
  member := i.member h e
  pending := i.pending h
  once q' a y hy hy' := by
    rcases mem_set_append.mp hy with hmem | ⟨⟨rfl, rfl⟩, rfl⟩
    · rcases mem_set_append.mp hy' with hmem' | ⟨-, rfl⟩
      · exact h.once q' a y hmem hmem'
      · exact h.notMem e.free q' a hmem
    · rcases mem_set_append.mp hy' with hmem' | ⟨⟨hq, -⟩, -⟩
      · exact h.notMem e.free _ _ hmem'
      · exact absurd hq (by simp)
  head q' a y hy := by
    rw [listening_congr i.status]
    rcases mem_set_append.mp hy with hmem | ⟨⟨-, rfl⟩, -⟩
    · exact h.head q' a y hmem
    · exact e.listens
  referenced a ha := by
    rw [listening_congr i.status] at ha
    rw [unreferenced_congr i.status]
    obtain ⟨href, hnone⟩ := h.referenced a ha
    refine ⟨href, ?_⟩
    rw [i.heads, Function.update_of_ne, hnone]
    rintro rfl
    rw [e.plain] at ha
    cases ha
  plain q' a ha := by
    rw [listening_congr i.status] at ha
    rcases Bool.eq_or_eq_not q' q with rfl | rfl
    · rw [i.lens, Function.update_of_ne, h.plain q' a ha]
      rintro rfl
      rw [e.listens] at ha
      cases ha
    · rw [i.lensOther, h.plain _ a ha]

end Insertion

/-- The memory at the loop of `soqinsque`. -/
def Mem.queued (mem : Mem A) (head so : A) (q : Bool) : Mem A :=
  ((mem.modify so fun s => { s with soHead := some head }).modify head fun s => s.setLen q (s.len q + 1)).modify so (Sock.setLink q none)

omit [Fintype A] in
theorem links_queued (hso : (mem so).isSome) (hnone : links q mem so = none) : links q (mem.queued head so q) = links q mem := by
  rw [Mem.queued, links_setLink (by simpa using hso), links_setLen, links_setHead]
  exact Function.update_eq_self_iff.mpr hnone.symm

/-- A socket without a head that is in no queue is put at the end of one. -/
theorem soqinsque_spec (h : Inv mem Q) (hhead : listening mem head = true) (hso : (mem so).isSome) (hfree : headOf mem so = none)
    (hunref : unreferenced mem so = true) (hplain : listening mem so = false) (q : Bool) :
    ∃ mem', soqinsque mem head so q = some mem' ∧ Inv mem' (Q.set q head (Q q head ++ [so])) ∧ statusOf mem' = statusOf mem ∧
      ∀ a, (mem' a).isSome = (mem a).isSome := by
  have hheadSome := isSome_of_listening hhead
  have hlinks := @links_queued A _ mem head so q hso (h.links_eq_none hfree hplain q)
  have hchain := h.chain_last (h.referenced head hhead).2 q
  have hlastSome : (mem (Q.last q head)).isSome := by
    obtain hlast | hlast := last_cases Q q head
    · rw [hlast]
      exact hheadSome
    · exact isSome_of_headOf (h.member q head _ hlast).1
  have hfuel : (head :: Q q head).dropLast.length < Fintype.card A + 1 := by
    have hle := hchain.length_le
    rw [List.length_append] at hle
    omega
  refine ⟨(mem.queued head so q).modify (Q.last q head) (Sock.setLink q (some so)), ?_,
    h.insert ⟨hhead, hfree, hunref, hplain⟩ ⟨?_, ?_, ?_, ?_, ?_, ?_⟩, ?_, ?_⟩
  · simp only [soqinsque, Option.bind_eq_bind]
    rw [write_of_isSome hso, Option.bind_some, write_of_isSome (by simpa using hheadSome), Option.bind_some,
      write_of_isSome (by simpa using hso), Option.bind_some]
    rw [show ((mem.modify so fun s => { s with soHead := some head }).modify head fun s => s.setLen q (s.len q + 1)).modify so
      (Sock.setLink q none) = mem.queued head so q from rfl, hlinks, lastFrom_spec hchain hfuel, Option.bind_some]
    exact write_of_isSome (by simpa [Mem.queued] using hlastSome)
  · rw [links_setLink (by simpa [Mem.queued] using hlastSome), hlinks]
  · rw [links_setLink_not, Mem.queued, links_setLink_not, links_setLen, links_setHead]
  · rw [headOf_setLink, Mem.queued, headOf_setLink, headOf_setLen, headOf_setHead hso]
  · rw [lenOf_setLink, Mem.queued, lenOf_setLink, lenOf_setLen (by simpa using hheadSome) q (· + 1), lenOf_setHead]
  · rw [lenOf_setLink, Mem.queued, lenOf_setLink, lenOf_setLen_not, lenOf_setHead]
  · rw [statusOf_setLink, Mem.queued, statusOf_setLink, statusOf_setLen, statusOf_setHead]
  · rw [statusOf_setLink, Mem.queued, statusOf_setLink, statusOf_setLen, statusOf_setHead]
  · intro a
    simp [Mem.queued]

section Removal

omit [Fintype A]

omit [DecidableEq A] in
/-- A pending socket does not listen itself. -/
theorem Inv.listening_eq_false (h : Inv mem Q) (hpending : headOf mem so = some head) : listening mem so = false := by
  by_contra hlistening
  have hnone := (h.referenced so (by simpa using hlistening)).2
  rw [hpending] at hnone
  cases hnone

omit [DecidableEq A] in
theorem Inv.headOf_head (h : Inv mem Q) (hso : so ∈ Q q head) : headOf mem head = none :=
  (h.referenced head (h.head q head so hso)).2

omit [DecidableEq A] in
theorem Inv.plain_of_mem (h : Inv mem Q) (hso : so ∈ Q q head) : listening mem so = false :=
  h.listening_eq_false (h.member q head so hso).1

omit [DecidableEq A] in
theorem Inv.head_ne (h : Inv mem Q) (hso : so ∈ Q q head) : head ≠ so := by
  rintro rfl
  exact h.notMem (h.headOf_head hso) q head hso

/-- The queues without `so` have the other sockets. -/
theorem Inv.mem_set_erase (h : Inv mem Q) (hso : so ∈ Q q head) {q' : Bool} {a y : A} :
    y ∈ Q.set q head ((Q q head).erase so) q' a ↔ y ∈ Q q' a ∧ y ≠ so := by
  have hheadfree := h.headOf_head hso
  rw [Queues.set]
  split
  next hpair =>
    rw [(h.chain q head hheadfree).nodup.mem_erase_iff, hpair.1, hpair.2]
    exact and_comm
  next hpair =>
    refine ⟨fun hy => ⟨hy, ?_⟩, And.left⟩
    rintro rfl
    refine h.cell_notMem hheadfree (.inr hso) ?_ hy
    exact fun heq => hpair (Prod.ext_iff.mp heq)

/-- What `mem'` has of `mem`, with the socket behind the cell `z` taken from a queue of `head`. -/
structure Removed (mem mem' : Mem A) (q : Bool) (head so z : A) : Prop where
  queue : links q mem' = Function.update (Function.update (links q mem) z (links q mem so)) so none
  other : links (!q) mem' = links (!q) mem
  heads : headOf mem' = Function.update (headOf mem) so none
  lens : lenOf q mem' = Function.update (lenOf q mem) head (lenOf q mem head - 1)
  lensOther : lenOf (!q) mem' = lenOf (!q) mem
  status : statusOf mem' = statusOf mem

namespace Removed

variable {mem' : Mem A} {z : A} {l l' : List A}

theorem kept (r : Removed mem mem' q head so z) {y : A} (hy : y ≠ so) : headOf mem' y = headOf mem y := by
  rw [r.heads, Function.update_of_ne hy]

omit [DecidableEq A] in
theorem cell (hlist : head :: Q q head = l ++ z :: so :: l') : z = head ∨ z ∈ Q q head := by
  have hmem : z ∈ head :: Q q head := by simp [hlist]
  exact List.mem_cons.mp hmem

theorem chain_head (r : Removed mem mem' q head so z) (h : Inv mem Q) (hso : so ∈ Q q head)
    (hlist : head :: Q q head = l ++ z :: so :: l') : Links (links q mem') (links q mem' head) ((Q q head).erase so) none := by
  have hchain : Links (links q mem) (some head) (l ++ z :: so :: l') none := by
    rw [← hlist]
    exact ⟨rfl, h.chain q head (h.headOf_head hso)⟩
  have hnodup := hchain.nodup
  simp only [List.nodup_append, List.nodup_cons, List.mem_cons, not_or] at hnodup
  have hunlink : Links (Function.update (links q mem) z (links q mem so)) (some head) (l ++ z :: l') none := by
    refine hchain.unlink ?_
    simp only [List.mem_append, not_or]
    exact ⟨fun hin => hnodup.2.2 z hin z (.inl rfl) rfl, hnodup.2.1.1.2⟩
  have herase : l ++ z :: l' = head :: (Q q head).erase so := by
    have hcons : (head :: Q q head).erase so = head :: (Q q head).erase so := List.erase_cons_tail (by simpa using h.head_ne hso)
    have hbefore : so ∉ l := fun hmem => hnodup.2.2 so hmem so (.inr (.inl rfl)) rfl
    rw [← hcons, hlist, List.erase_append_right _ hbefore, List.erase_cons_tail (by simpa using hnodup.2.1.1.1), List.erase_cons_head]
  have hnotin : so ∉ head :: (Q q head).erase so := by
    simp only [List.mem_cons, not_or]
    exact ⟨(h.head_ne hso).symm, (h.chain q head (h.headOf_head hso)).nodup.not_mem_erase⟩
  rw [herase] at hunlink
  rw [r.queue]
  exact (hunlink.update hnotin none).2

theorem chain (r : Removed mem mem' q head so z) (h : Inv mem Q) (hso : so ∈ Q q head)
    (hlist : head :: Q q head = l ++ z :: so :: l') (q' : Bool) (a : A) (ha : headOf mem' a = none) :
    Links (links q' mem') (links q' mem' a) (Q.set q head ((Q q head).erase so) q' a) none := by
  by_cases hself : a = so
  · subst hself
    rw [Queues.set, if_neg (by simp [(h.head_ne hso).symm]), h.queue_eq_nil (h.plain_of_mem hso)]
    rcases Bool.eq_or_eq_not q' q with rfl | rfl
    · rw [r.queue, Function.update_self]
      rfl
    · rw [r.other, (h.member q head a hso).2.1]
      rfl
  rw [r.kept hself] at ha
  rcases Bool.eq_or_eq_not q' q with rfl | rfl
  · by_cases heq : a = head
    · subst heq
      rw [set_self]
      exact r.chain_head h hso hlist
    · -- the queues of the other heads have no cell that is written
      have hheadfree := h.headOf_head hso
      have hpair : (q', a) ≠ (q', head) := fun hpair => heq (Prod.ext_iff.mp hpair).2
      have hcell := h.ne_cell ha heq (cell hlist)
      rw [r.queue, Queues.set, if_neg (by simp [heq]), Function.update_of_ne hself, Function.update_of_ne hcell]
      exact ((h.chain q' a ha).update (h.cell_notMem hheadfree (cell hlist) hpair) _).update (h.cell_notMem hheadfree (.inr hso) hpair) _
  · rw [r.other, set_not]
    exact h.chain _ a ha

theorem len (r : Removed mem mem' q head so z) (h : Inv mem Q) (hso : so ∈ Q q head) (q' : Bool) (a : A)
    (ha : headOf mem' a = none) : lenOf q' mem' a = (Q.set q head ((Q q head).erase so) q' a).length := by
  by_cases hself : a = so
  · subst hself
    have hzero := h.plain q' a (h.plain_of_mem hso)
    rw [Queues.set, if_neg (by simp [(h.head_ne hso).symm]), h.queue_eq_nil (h.plain_of_mem hso)]
    rcases Bool.eq_or_eq_not q' q with rfl | rfl
    · rw [r.lens, Function.update_of_ne (h.head_ne hso).symm, hzero]
      rfl
    · rw [r.lensOther, hzero]
      rfl
  rw [r.kept hself] at ha
  rcases Bool.eq_or_eq_not q' q with rfl | rfl
  · rw [r.lens, Function.update_apply, Queues.set]
    by_cases heq : a = head
    · subst heq
      simp [h.len q' a ha, List.length_erase_of_mem hso]
    · simp [heq, h.len q' a ha]
  · rw [r.lensOther, set_not]
    exact h.len _ a ha

theorem member (r : Removed mem mem' q head so z) (h : Inv mem Q) (hso : so ∈ Q q head)
    (hlist : head :: Q q head = l ++ z :: so :: l') (q' : Bool) (a y : A) (hy : y ∈ Q.set q head ((Q q head).erase so) q' a) :
    headOf mem' y = some a ∧ links (!q') mem' y = none ∧ unreferenced mem' y = true := by
  obtain ⟨hy, hyso⟩ := (h.mem_set_erase hso).mp hy
  obtain ⟨hhead, hlink, hunref⟩ := h.member q' a y hy
  refine ⟨(r.kept hyso).trans hhead, ?_, (unreferenced_congr r.status y).trans hunref⟩
  rcases Bool.eq_or_eq_not q' q with rfl | rfl
  · rw [r.other, hlink]
  · have hcell : y ≠ z := by
      rintro rfl
      exact h.cell_notMem (h.headOf_head hso) (cell hlist) (by simp) hy
    rw [Bool.not_not] at hlink ⊢
    rw [r.queue, Function.update_of_ne hyso, Function.update_of_ne hcell, hlink]

theorem pending (r : Removed mem mem' q head so z) (h : Inv mem Q) (hso : so ∈ Q q head) (y a : A) (hy : headOf mem' y = some a) :
    ∃ q', y ∈ Q.set q head ((Q q head).erase so) q' a := by
  have hyso : y ≠ so := by
    rintro rfl
    rw [r.heads, Function.update_self] at hy
    cases hy
  rw [r.kept hyso] at hy
  obtain ⟨q', hold⟩ := h.pending y a hy
  exact ⟨q', (h.mem_set_erase hso).mpr ⟨hold, hyso⟩⟩

end Removed

theorem Inv.remove {mem' : Mem A} (h : Inv mem Q) (hso : so ∈ Q q head) {z : A} {l l' : List A}
    (hlist : head :: Q q head = l ++ z :: so :: l') (r : Removed mem mem' q head so z) :
    Inv mem' (Q.set q head ((Q q head).erase so)) where
  chain := r.chain h hso hlist
  len := r.len h hso
  member := r.member h hso hlist
  pending := r.pending h hso
  once q' a y hy hy' := h.once q' a y ((h.mem_set_erase hso).mp hy).1 ((h.mem_set_erase hso).mp hy').1
  head q' a y hy := by
    rw [listening_congr r.status]
    exact h.head q' a y ((h.mem_set_erase hso).mp hy).1
  referenced a ha := by
    rw [listening_congr r.status] at ha
    rw [unreferenced_congr r.status]
    obtain ⟨href, hnone⟩ := h.referenced a ha
    refine ⟨href, ?_⟩
    rw [r.kept, hnone]
    rintro rfl
    rw [h.plain_of_mem hso] at ha
    cases ha
  plain q' a ha := by
    rw [listening_congr r.status] at ha
    rcases Bool.eq_or_eq_not q' q with rfl | rfl
    · rw [r.lens, Function.update_of_ne, h.plain q' a ha]
      rintro rfl
      rw [h.head q' a so hso] at ha
      cases ha
    · rw [r.lensOther, h.plain _ a ha]

end Removal

section Remove

omit [Fintype A]

theorem links_clear (h : (mem so).isSome) (q : Bool) :
    links q (mem.modify so fun s => { s with soQ0 := none, soQ := none, soHead := none }) = Function.update (links q mem) so none := by
  obtain ⟨s, hs⟩ := Option.isSome_iff_exists.mp h
  funext b
  rw [Function.update_apply, links]
  split
  · rename_i heq
    rw [heq, modify_self hs]
    cases q <;> rfl
  · rename_i hne
    rw [modify_of_ne hne]
    rfl

theorem headOf_clear (h : (mem so).isSome) :
    headOf (mem.modify so fun s => { s with soQ0 := none, soQ := none, soHead := none }) = Function.update (headOf mem) so none := by
  obtain ⟨s, hs⟩ := Option.isSome_iff_exists.mp h
  funext b
  rw [Function.update_apply, headOf]
  split
  · rename_i heq
    rw [heq, modify_self hs]
    rfl
  · rename_i hne
    rw [modify_of_ne hne]
    rfl

theorem lenOf_clear (q : Bool) :
    lenOf q (mem.modify so fun s => { s with soQ0 := none, soQ := none, soHead := none }) = lenOf q mem := by
  funext b
  exact elim_modify fun s => by cases q <;> rfl

theorem statusOf_clear :
    statusOf (mem.modify so fun s => { s with soQ0 := none, soQ := none, soHead := none }) = statusOf mem :=
  statusOf_modify fun _ => ⟨rfl, rfl, rfl⟩

end Remove

/-- A pending socket is taken off the queue it is on. -/
theorem soqremque_found (h : Inv mem Q) (hso : so ∈ Q q head) :
    ∃ mem', soqremque mem so q = some (mem', true) ∧ Inv mem' (Q.set q head ((Q q head).erase so)) ∧ statusOf mem' = statusOf mem ∧
      headOf mem' so = none ∧ (mem' so).isSome := by
  have hheadSome := isSome_of_listening (h.head q head so hso)
  have hchain := h.chain q head (h.referenced head (h.head q head so hso)).2
  obtain ⟨hpending, hother, -⟩ := h.member q head so hso
  have hsoSome := isSome_of_headOf hpending
  obtain ⟨s, hs⟩ := Option.isSome_iff_exists.mp hsoSome
  have hsohead : s.soHead = some head := by
    rw [headOf, hs] at hpending
    exact hpending
  -- The cell before the socket, which may be the head.
  obtain ⟨before, behind, hsplit⟩ := List.append_of_mem hso
  have hlist : head :: Q q head = (head :: before).dropLast ++ (head :: before).getLast (List.cons_ne_nil _ _) :: so :: behind := by
    calc head :: Q q head = (head :: before) ++ so :: behind := by rw [hsplit, List.cons_append]
      _ = (head :: before).dropLast ++ [(head :: before).getLast (List.cons_ne_nil _ _)] ++ so :: behind := by
        rw [List.dropLast_append_getLast]
      _ = _ := by rw [List.append_assoc, List.singleton_append]
  generalize (head :: before).dropLast = l at hlist
  generalize (head :: before).getLast (List.cons_ne_nil _ _) = z at hlist
  have hall : Links (links q mem) (some head) (l ++ z :: so :: behind) none := by
    rw [← hlist]
    exact ⟨rfl, hchain⟩
  have hfuel : l.length < Fintype.card A + 1 := by
    have hle := hall.length_le
    rw [List.length_append] at hle
    omega
  have hzSome : (mem z).isSome := by
    have hz : z ∈ head :: Q q head := by simp [hlist]
    rcases List.mem_cons.mp hz with rfl | hz
    · exact hheadSome
    · exact isSome_of_headOf (h.member q head z hz).1
  refine ⟨((mem.modify z (Sock.setLink q (s.link q))).modify head fun s => s.setLen q (s.len q - 1)).modify so
    fun s => { s with soQ0 := none, soQ := none, soHead := none }, ?_, h.remove hso hlist ⟨?_, ?_, ?_, ?_, ?_, ?_⟩, ?_, ?_, ?_⟩
  · simp only [soqremque, hs, Option.bind_eq_bind, Option.bind_some, hsohead, findBefore_found hall hfuel]
    rw [write_of_isSome hzSome, Option.bind_some, write_of_isSome (by simpa using hheadSome), Option.bind_some,
      write_of_isSome (by simpa using hsoSome), Option.bind_some]
  · rw [links_clear (by simpa using hsoSome), links_setLen, links_setLink hzSome]
    simp [links, hs]
  · rw [links_clear (by simpa using hsoSome), links_setLen, links_setLink_not]
    exact Function.update_eq_self_iff.mpr hother.symm
  · rw [headOf_clear (by simpa using hsoSome), headOf_setLen, headOf_setLink]
  · rw [lenOf_clear, lenOf_setLen (by simpa using hheadSome) q (· - 1), lenOf_setLink]
  · rw [lenOf_clear, lenOf_setLen_not, lenOf_setLink]
  · rw [statusOf_clear, statusOf_setLen, statusOf_setLink]
  · rw [statusOf_clear, statusOf_setLen, statusOf_setLink]
  · rw [headOf_clear (by simpa using hsoSome), Function.update_self]
  · simpa using hsoSome

theorem soqremque_absent (h : Inv mem Q) (hpending : headOf mem so = some head) (hso : so ∉ Q q head) :
    soqremque mem so q = some (mem, false) := by
  obtain ⟨q', hq'⟩ := h.pending so head hpending
  have hchain := h.chain q head (h.referenced head (h.head q' head so hq')).2
  obtain ⟨s, hs⟩ := Option.isSome_iff_exists.mp (isSome_of_headOf hpending)
  have hsohead : s.soHead = some head := by
    rw [headOf, hs] at hpending
    exact hpending
  have hfuel : (Q q head).length < Fintype.card A + 1 := Nat.lt_succ_of_le hchain.length_le
  simp only [soqremque, hs, Option.bind_eq_bind, Option.bind_some, hsohead, findBefore_absent hchain hso hfuel]

/-! ### Memory and flags -/

section Flags

omit [Fintype A]

/-- The flags of a socket are written. -/
theorem Inv.modify {f : Sock A → Sock A} {s : Sock A} (h : Inv mem Q) (hs : mem so = some s)
    (hkeep : ∀ s, (f s).soHead = s.soHead ∧ (∀ q, (f s).link q = s.link q) ∧ ∀ q, (f s).len q = s.len q)
    (hpending : s.soHead.isSome → (f s).nofdref = true) (hlisten : s.acceptconn = true → (f s).acceptconn = true)
    (hopen : (f s).acceptconn = true → (f s).nofdref = false ∧ s.soHead = none) : Inv (mem.modify so f) Q := by
  have hheads : headOf (mem.modify so f) = headOf mem := funext fun b => bind_modify fun s => (hkeep s).1
  have hlinks : ∀ q, links q (mem.modify so f) = links q mem := fun q => funext fun b => bind_modify fun s => (hkeep s).2.1 q
  have hlens : ∀ q, lenOf q (mem.modify so f) = lenOf q mem := fun q => funext fun b => elim_modify fun s => (hkeep s).2.2 q
  have hother : ∀ b, b ≠ so → statusOf (mem.modify so f) b = statusOf mem b := fun b hb => by
    rw [statusOf, modify_of_ne hb, statusOf]
  have hlistening : ∀ b, listening mem b = true → listening (mem.modify so f) b = true := by
    intro b hb
    by_cases heq : b = so
    · subst heq
      simp only [listening, statusOf, hs, Option.map_some, Option.any_some] at hb
      simp [listening, statusOf, modify_self hs, hlisten hb]
    · rw [listening, hother b heq]
      exact hb
  constructor
  · intro q a
    rw [hheads, hlinks]
    exact h.chain q a
  · intro q a
    rw [hheads, hlens]
    exact h.len q a
  · intro q a y hy
    obtain ⟨hhead, hlink, hunref⟩ := h.member q a y hy
    rw [hheads, hlinks]
    refine ⟨hhead, hlink, ?_⟩
    by_cases heq : y = so
    · subst heq
      rw [headOf, hs] at hhead
      have hnofdref := hpending (Option.isSome_iff_exists.mpr ⟨a, hhead⟩)
      simp [unreferenced, statusOf, modify_self hs, hnofdref]
    · rw [unreferenced, hother y heq]
      exact hunref
  · intro y a
    rw [hheads]
    exact h.pending y a
  · exact h.once
  · intro q a y hy
    exact hlistening a (h.head q a y hy)
  · intro a ha
    rw [hheads]
    by_cases heq : a = so
    · subst heq
      simp only [listening, statusOf, modify_self hs, Option.map_some, Option.any_some] at ha
      obtain ⟨hnofdref, hnone⟩ := hopen ha
      simp [unreferenced, statusOf, modify_self hs, hnofdref, headOf, hs, hnone]
    · rw [unreferenced, hother a heq]
      rw [listening, hother a heq] at ha
      exact h.referenced a ha
  · intro q a ha
    rw [hlens]
    apply h.plain q a
    by_contra hlistens
    rw [hlistening a (by simpa using hlistens)] at ha
    cases ha

/-- A new socket. -/
theorem Inv.alloc (h : Inv mem Q) (hfree : mem so = none) {s : Sock A} (hhead : s.soHead = none) (hlink : ∀ q, s.link q = none)
    (hlen : ∀ q, s.len q = 0) (hplain : s.acceptconn = false) : Inv (Function.update mem so (some s)) Q := by
  have hsame : ∀ {β : Type} (g : Option (Sock A) → β), g none = g (some s) → ∀ b, g (Function.update mem so (some s) b) = g (mem b) := by
    intro β g hg b
    rw [Function.update_apply]
    split
    · rename_i heq
      rw [heq, hfree, hg]
    · rfl
  have hheads : headOf (Function.update mem so (some s)) = headOf mem :=
    funext fun b => hsame (fun x => x.bind Sock.soHead) (by simp [hhead]) b
  have hlinks : ∀ q, links q (Function.update mem so (some s)) = links q mem :=
    fun q => funext fun b => hsame (fun x => x.bind (Sock.link q)) (by simp [hlink]) b
  have hlens : ∀ q, lenOf q (Function.update mem so (some s)) = lenOf q mem :=
    fun q => funext fun b => hsame (fun x => x.elim 0 (Sock.len q)) (by simp [hlen]) b
  have hlistening : ∀ b, listening (Function.update mem so (some s)) b = listening mem b := fun b =>
    hsame (fun x => (x.map fun s : Sock A => (⟨s.acceptconn, s.nofdref, s.soQlimit⟩ : Status)).any Status.acceptconn) (by simp [hplain]) b
  have hunref : ∀ b, (mem b).isSome → unreferenced (Function.update mem so (some s)) b = unreferenced mem b := by
    intro b hb
    rw [unreferenced, statusOf, Function.update_of_ne]
    · rfl
    · rintro rfl
      simp [hfree] at hb
  constructor
  · intro q a
    rw [hheads, hlinks]
    exact h.chain q a
  · intro q a
    rw [hheads, hlens]
    exact h.len q a
  · intro q a y hy
    obtain ⟨hpending, hlink, hunref'⟩ := h.member q a y hy
    rw [hheads, hlinks, hunref y (isSome_of_headOf hpending)]
    exact ⟨hpending, hlink, hunref'⟩
  · intro y a
    rw [hheads]
    exact h.pending y a
  · exact h.once
  · intro q a y hy
    rw [hlistening]
    exact h.head q a y hy
  · intro a ha
    rw [hlistening] at ha
    rw [hheads, hunref a (isSome_of_listening ha)]
    exact h.referenced a ha
  · intro q a
    rw [hlistening, hlens]
    exact h.plain q a

/-- A socket that is in no queue and has none is freed. -/
theorem Inv.free (h : Inv mem Q) (hhead : headOf mem so = none) (hempty : ∀ q, Q q so = []) : Inv (Function.update mem so none) Q := by
  have hheads : headOf (Function.update mem so none) = headOf mem := by
    funext b
    rw [headOf, Function.update_apply]
    split
    · rename_i heq
      rw [heq, hhead]
      rfl
    · rfl
  have hlinks : ∀ q, links q (Function.update mem so none) = links q mem := by
    intro q
    have hnone := h.chain q so hhead
    rw [hempty q] at hnone
    funext b
    rw [links, Function.update_apply]
    split
    · rename_i heq
      rw [heq]
      exact hnone.symm
    · rfl
  have hlens : ∀ q, lenOf q (Function.update mem so none) = lenOf q mem := by
    intro q
    have hzero := h.len q so hhead
    rw [hempty q] at hzero
    funext b
    rw [lenOf, Function.update_apply]
    split
    · rename_i heq
      rw [heq, hzero]
      rfl
    · rfl
  have hother : ∀ b, b ≠ so → statusOf (Function.update mem so none) b = statusOf mem b := fun b hb => by
    rw [statusOf, Function.update_of_ne hb, statusOf]
  have hself : statusOf (Function.update mem so none) so = none := by simp [statusOf]
  constructor
  · intro q a
    rw [hheads, hlinks]
    exact h.chain q a
  · intro q a
    rw [hheads, hlens]
    exact h.len q a
  · intro q a y hy
    rw [hheads, hlinks, unreferenced, hother]
    · exact h.member q a y hy
    · rintro rfl
      exact h.notMem hhead q a hy
  · intro y a
    rw [hheads]
    exact h.pending y a
  · exact h.once
  · intro q a y hy
    rw [listening, hother]
    · exact h.head q a y hy
    · rintro rfl
      rw [hempty q] at hy
      cases hy
  · intro a ha
    have hne : a ≠ so := by
      rintro rfl
      rw [listening, hself] at ha
      cases ha
    rw [listening, hother a hne] at ha
    rw [hheads, unreferenced, hother a hne]
    exact h.referenced a ha
  · intro q a ha
    rw [hlens]
    by_cases heq : a = so
    · subst heq
      rw [h.len q a hhead, hempty q]
      rfl
    · rw [listening, hother a heq] at ha
      exact h.plain q a ha

end Flags

end Specs

end Reading.Kern.Listen
