import Reading.Lua.Assign

/-!
# Resizes that allocate

The functions from `luaH_set` to `newkey` once more, with a mark at each allocation. A `Host` gives what the code runs in: a monad, its errors, and what an allocation does to the run that is under way. Without failures this is the code of before; with a budget, the allocation after the last one that it allows fails and leaves the table as it is at that point. Where two hosts do related things, so do the functions on them.
-/

namespace Reading.Lua

variable {V : Values}

/-- What the functions run in. An allocation is told the table it finds. -/
structure Host (V : Values) (m : Type → Type) where
  lift : ∀ {α}, Except Stop α → m α
  allocate : Table V → m Unit

namespace Host

section Code

variable {m : Type → Type} [Monad m] (host : Host V m)

abbrev Newkey (V : Values) (m : Type → Type) : Type := Table V → TValue V → m (Table V × Slot)

variable (inner : Newkey V m)

def luaHSet (t : Table V) (key : TValue V) : m (Table V × Slot) := do
  match ← host.lift (luaHGet t key) with
  | .nilobject => if key = .nil then host.lift (.error .indexNil) else inner t key
  | p => pure (t, p)

/-- What the setters share. -/
def enter (t : Table V) (key : TValue V) : m (Table V × Slot) :=
  match t.place key with
  | .nilobject => inner t key
  | p => pure (t, p)

def luaHSetnum (t : Table V) (key : Int32) : m (Table V × Slot) := do
  match ← host.lift (luaHGetnum t key) with
  | .nilobject => inner t (.number (V.castNum key))
  | p => pure (t, p)

def setarrayvector (t : Table V) (size : Nat) : m (Table V) := do
  host.allocate t
  pure (Lua.setarrayvector t size)

def setnodevector (t : Table V) (size : Nat) : m (Table V) :=
  if size = 0 ∨ maxBits < ceillog2 size then host.lift (Lua.setnodevector t size)
  else do
    host.allocate t
    host.lift (Lua.setnodevector t size)

def moveElement (t : Table V) (i : Nat) : m (Table V) :=
  if t.array.getD i .nil = .nil then pure t
  else do
    let (t, p) ← host.luaHSetnum inner t (Int32.ofNat (i + 1))
    pure (t.write (t.read (.array i)) p)

def moveSlice : Nat → Nat → Table V → m (Table V)
  | 0, _, t => pure t
  | steps + 1, i, t => do moveSlice steps (i + 1) (← host.moveElement inner t i)

def moveNode (old : Node V) (t : Table V) : m (Table V) :=
  if old.val = .nil then pure t
  else do
    let (t, p) ← host.luaHSet inner t old.key
    pure (t.write old.val p)

def moveNodes (nold : Nat → Node V) : Nat → Table V → m (Table V)
  | 0, t => pure t
  | i + 1, t => do moveNodes nold i (← host.moveNode inner (nold i) t)

/-- Giving the rest of the buffer back does not fail. -/
def shrinkarray (t : Table V) (nasize oldasize : Nat) : m (Table V) := do
  let t ← host.moveSlice inner (oldasize - nasize) nasize { t with sizearray := nasize }
  pure { t with array := t.array.take nasize }

def growarray (t : Table V) (nasize : Nat) : m (Table V) :=
  if t.sizearray < nasize then host.setarrayvector t nasize else pure t

/-- The elements of the vanishing slice and those of the old hash part go into the new table. -/
def reinsert (t : Table V) (nasize : Nat) (fresh : Table V) : m (Table V) := do
  let kept ← (if nasize < t.sizearray then host.shrinkarray inner fresh nasize t.sizearray else pure fresh)
  host.moveNodes inner t.node t.sizenode kept

def resize (t : Table V) (nasize nhsize : Nat) : m (Table V) := do
  let grown ← host.growarray t nasize
  host.reinsert inner t nasize (← host.setnodevector grown nhsize)

def rehash (t : Table V) (ek : TValue V) : m (Table V) := do
  let inArray := numusearray t
  let use := numusehashFrom t t.sizenode { inArray with totaluse := inArray.ause }
  let (nums, one) := countint ek use.nums
  let (nasize, na) ← host.lift (computesizes nums (use.ause + one))
  host.resize inner t nasize (use.totaluse + 1 - na)

def newkeyStep (t : Table V) (key : TValue V) : m (Table V × Slot) :=
  match insertFree t key with
  | .inl t => do host.luaHSet inner (← host.rehash inner t key) key
  | .inr r => host.lift r

def newkey : Nat → Newkey V m
  | 0 => fun _ _ => host.lift (.error .stuck)
  | depth + 1 => host.newkeyStep (newkey depth)

end Code

/-! ### Related hosts -/

/-- A relation between what runs on two hosts that returning, sequencing and the errors keep. -/
structure Related {m m' : Type → Type} [Monad m] [Monad m'] (host : Host V m) (host' : Host V m')
    (rel : ∀ {α}, m α → m' α → Prop) : Prop where
  pure : ∀ {α} (a : α), rel (Pure.pure a) (Pure.pure a)
  bind : ∀ {α β} {x : m α} {x' : m' α} {f : α → m β} {f' : α → m' β}, rel x x' → (∀ a, rel (f a) (f' a)) →
    rel (x >>= f) (x' >>= f')
  lift : ∀ {α} (x : Except Stop α), rel (host.lift x) (host'.lift x)

namespace Related

variable {m m' : Type → Type} [Monad m] [Monad m'] {host : Host V m} {host' : Host V m'}
  {rel : ∀ {α}, m α → m' α → Prop} {inner : Newkey V m} {inner' : Newkey V m'}

variable (h : Related host host' rel) (hinner : ∀ t k, rel (inner t k) (inner' t k))

include h hinner

theorem luaHSet (t : Table V) (k : TValue V) : rel (host.luaHSet inner t k) (host'.luaHSet inner' t k) := by
  refine h.bind (h.lift _) fun p => ?_
  cases p with
  | nilobject =>
    by_cases hk : k = .nil
    · simp only [if_pos hk]
      exact h.lift _
    · simp only [if_neg hk]
      exact hinner t k
  | array i => exact h.pure _
  | node i => exact h.pure _

theorem luaHSetnum (t : Table V) (k : Int32) : rel (host.luaHSetnum inner t k) (host'.luaHSetnum inner' t k) := by
  refine h.bind (h.lift _) fun p => ?_
  cases p with
  | nilobject => exact hinner t _
  | array i => exact h.pure _
  | node i => exact h.pure _

theorem moveSlice (steps i : Nat) (t : Table V) :
    rel (host.moveSlice inner steps i t) (host'.moveSlice inner' steps i t) := by
  induction steps generalizing i t with
  | zero => exact h.pure t
  | succ steps ih =>
    refine h.bind ?_ fun t => ih (i + 1) t
    rw [moveElement, moveElement]
    by_cases hval : t.array.getD i .nil = .nil
    · rw [if_pos hval, if_pos hval]
      exact h.pure t
    · rw [if_neg hval, if_neg hval]
      exact h.bind (h.luaHSetnum hinner t _) fun _ => h.pure _

theorem moveNodes (nold : Nat → Node V) (i : Nat) (t : Table V) :
    rel (host.moveNodes inner nold i t) (host'.moveNodes inner' nold i t) := by
  induction i generalizing t with
  | zero => exact h.pure t
  | succ i ih =>
    refine h.bind ?_ ih
    rw [moveNode, moveNode]
    by_cases hval : (nold i).val = .nil
    · rw [if_pos hval, if_pos hval]
      exact h.pure t
    · rw [if_neg hval, if_neg hval]
      exact h.bind (h.luaHSet hinner t _) fun _ => h.pure _

theorem shrinkarray (t : Table V) (nasize oldasize : Nat) :
    rel (host.shrinkarray inner t nasize oldasize) (host'.shrinkarray inner' t nasize oldasize) :=
  h.bind (h.moveSlice hinner _ _ _) fun _ => h.pure _

theorem reinsert (t : Table V) (nasize : Nat) (fresh : Table V) :
    rel (host.reinsert inner t nasize fresh) (host'.reinsert inner' t nasize fresh) := by
  refine h.bind ?_ fun kept => h.moveNodes hinner t.node t.sizenode kept
  by_cases hshrink : nasize < t.sizearray
  · rw [if_pos hshrink, if_pos hshrink]
    exact h.shrinkarray hinner fresh nasize t.sizearray
  · rw [if_neg hshrink, if_neg hshrink]
    exact h.pure fresh

variable (halloc : ∀ t, rel (host.allocate t) (host'.allocate t))

include halloc

theorem resize (t : Table V) (nasize nhsize : Nat) :
    rel (host.resize inner t nasize nhsize) (host'.resize inner' t nasize nhsize) := by
  refine h.bind ?_ fun grown => h.bind ?_ fun fresh => h.reinsert hinner t nasize fresh
  · rw [growarray, growarray]
    by_cases hgrow : t.sizearray < nasize
    · rw [if_pos hgrow, if_pos hgrow]
      exact h.bind (halloc t) fun _ => h.pure _
    · rw [if_neg hgrow, if_neg hgrow]
      exact h.pure t
  · rw [setnodevector, setnodevector]
    by_cases hsize : nhsize = 0 ∨ maxBits < ceillog2 nhsize
    · rw [if_pos hsize, if_pos hsize]
      exact h.lift _
    · rw [if_neg hsize, if_neg hsize]
      exact h.bind (halloc grown) fun _ => h.lift _

theorem rehash (t : Table V) (ek : TValue V) : rel (host.rehash inner t ek) (host'.rehash inner' t ek) :=
  h.bind (h.lift _) fun _ => h.resize hinner halloc t _ _

theorem newkeyStep (t : Table V) (k : TValue V) : rel (host.newkeyStep inner t k) (host'.newkeyStep inner' t k) := by
  rw [Host.newkeyStep, Host.newkeyStep]
  cases insertFree t k with
  | inl t => exact h.bind (h.rehash hinner halloc t k) fun t => h.luaHSet hinner t k
  | inr r => exact h.lift r

omit hinner in
theorem newkey (depth : Nat) (t : Table V) (k : TValue V) : rel (host.newkey depth t k) (host'.newkey depth t k) := by
  induction depth generalizing t k with
  | zero => exact h.lift _
  | succ depth ih => exact h.newkeyStep ih halloc t k

end Related

/-! ### Allocation that succeeds -/

/-- Every allocation succeeds. -/
def plain : Host V (Except Stop) where
  lift := id
  allocate _ := .ok ()

section Plain

variable (inner : Lua.Newkey V)

theorem plain_luaHSet : (plain.luaHSet inner : Newkey V _) = Lua.luaHSet inner := by
  funext t k
  rw [luaHSet, Lua.luaHSet]
  rfl

theorem plain_moveSlice (steps i : Nat) (t : Table V) :
    plain.moveSlice inner steps i t = Lua.moveSlice inner steps i t := by
  induction steps generalizing i t with
  | zero => rfl
  | succ steps ih =>
    rw [moveSlice, Lua.moveSlice]
    exact congrArg _ (funext fun t => ih (i + 1) t)

theorem plain_moveNodes (nold : Nat → Node V) (i : Nat) (t : Table V) :
    plain.moveNodes inner nold i t = Lua.moveNodes inner nold i t := by
  induction i generalizing t with
  | zero => rfl
  | succ i ih =>
    rw [moveNodes, Lua.moveNodes]
    exact congrArg _ (funext ih)

theorem plain_growarray (t : Table V) (nasize : Nat) : plain.growarray t nasize = .ok (Lua.growarray t nasize) := by
  rw [growarray, Lua.growarray]
  split <;> rfl

theorem plain_setnodevector (t : Table V) (size : Nat) : plain.setnodevector t size = Lua.setnodevector t size := by
  rw [setnodevector]
  split <;> rfl

theorem plain_resize (t : Table V) (nasize nhsize : Nat) : plain.resize inner t nasize nhsize = Lua.resize inner t nasize nhsize := by
  rw [resize, plain_growarray, Lua.resize]
  simp only [bind, Except.bind, plain_setnodevector]
  cases Lua.setnodevector (Lua.growarray t nasize) nhsize with
  | error e => rfl
  | ok fresh =>
    simp only [reinsert]
    by_cases hshrink : nasize < t.sizearray
    · simp only [if_pos hshrink, shrinkarray, Lua.shrinkarray, plain_moveSlice, plain_moveNodes]
      rfl
    · simp only [if_neg hshrink, plain_moveNodes]
      rfl

theorem plain_rehash (t : Table V) (ek : TValue V) : plain.rehash inner t ek = Lua.rehash inner t ek := by
  rw [rehash, Lua.rehash]
  simp only [plain_resize]
  rfl

theorem plain_newkeyStep : (plain.newkeyStep inner : Newkey V _) = Lua.newkeyStep inner := by
  funext t k
  rw [newkeyStep, newkeyStep_eq]
  simp only [plain_rehash, plain_luaHSet]
  rfl

end Plain

/-- Without failures this is the code of before. -/
theorem plain_newkey (depth : Nat) : (plain.newkey depth : Newkey V _) = Lua.newkey depth := by
  induction depth with
  | zero => rfl
  | succ depth ih => rw [newkey, Lua.newkey, ih, plain_newkeyStep]

/-! ### Outcomes -/

/-- What is known of a run: that it returns a value, or that it fails in a way that is allowed. -/
structure Outcome {m : Type → Type} [Monad m] (host : Host V m) where
  Returns : ∀ {α}, m α → α → Prop
  Fails : ∀ {α}, m α → Prop
  pure : ∀ {α} (a : α), Returns (Pure.pure a) a
  lift : ∀ {α} (a : α), Returns (host.lift (.ok a)) a
  returns_bind : ∀ {α β} {x : m α} {a : α} {f : α → m β} {b : β}, Returns x a → Returns (f a) b → Returns (x >>= f) b
  fails_bind : ∀ {α β} {x : m α} {a : α} {f : α → m β}, Returns x a → Fails (f a) → Fails (x >>= f)
  bind_fails : ∀ {α β} {x : m α} (f : α → m β), Fails x → Fails (x >>= f)

/-- Without failures there are the errors of the code, of which a table that is too large may be allowed. -/
def plainOutcome (P : Prop) : Outcome (plain : Host V _) where
  Returns x a := x = .ok a
  Fails x := P ∧ x = .error .tableOverflow
  pure _ := rfl
  lift _ := rfl
  returns_bind hx hf := by
    rw [hx]
    exact hf
  fails_bind hx hf := by
    rw [hx]
    exact hf
  bind_fails _ hx := by
    rw [hx.2]
    exact ⟨hx.1, rfl⟩

namespace Outcome

variable {m : Type → Type} [Monad m] {host : Host V m} (o : host.Outcome) {inner : Newkey V m} {t : Table V} {k : TValue V}

/-- A function that puts a new key where there is room for it. -/
def Inserts (inner : Newkey V m) : Prop := ∀ {t : Table V} {k}, Valid t → k ≠ .nil → t.place k = .nilobject →
  t.used < t.capacity → ∃ t' p, o.Returns (inner t k) (t', p) ∧ Inserted t k t' p

/-- A setter returns the place that a key has, and leaves any other key to `newkey`. -/
theorem luaHSet (inner : Newkey V m) (h : Valid t) (hk : k ≠ .nil) :
    (∀ {r}, o.Returns (enter inner t k) r → o.Returns (host.luaHSet inner t k) r) ∧
      (o.Fails (enter inner t k) → o.Fails (host.luaHSet inner t k)) := by
  rw [Host.luaHSet, enter, h.luaHGet_eq]
  cases t.place k with
  | nilobject =>
    refine ⟨fun hr => o.returns_bind (o.lift _) ?_, fun hf => o.fails_bind (o.lift _) ?_⟩
    · simp only [if_neg hk]
      exact hr
    · simp only [if_neg hk]
      exact hf
  | array i => exact ⟨fun hr => o.returns_bind (o.lift _) hr, fun hf => o.fails_bind (o.lift _) hf⟩
  | node a => exact ⟨fun hr => o.returns_bind (o.lift _) hr, fun hf => o.fails_bind (o.lift _) hf⟩

theorem luaHSetnum (inner : Newkey V m) (h : Valid t) (j : Int32) :
    (∀ {r}, o.Returns (enter inner t (.number (V.castNum j))) r → o.Returns (host.luaHSetnum inner t j) r) ∧
      (o.Fails (enter inner t (.number (V.castNum j))) → o.Fails (host.luaHSetnum inner t j)) := by
  rw [Host.luaHSetnum, enter, h.luaHGetnum_eq]
  cases t.place (.number (V.castNum j)) with
  | nilobject => exact ⟨fun hr => o.returns_bind (o.lift _) hr, fun hf => o.fails_bind (o.lift _) hf⟩
  | array i => exact ⟨fun hr => o.returns_bind (o.lift _) hr, fun hf => o.fails_bind (o.lift _) hf⟩
  | node a => exact ⟨fun hr => o.returns_bind (o.lift _) hr, fun hf => o.fails_bind (o.lift _) hf⟩

end Outcome

end Host

end Reading.Lua
