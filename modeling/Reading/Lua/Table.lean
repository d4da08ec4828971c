import Reading.Lib.Scatter
import Mathlib.Algebra.Group.Nat.Defs

/-!
# Tables of the Lua interpreter

The code of `ltable.c`: an array part, a hash part that is a chained scatter table with Brent's variation, and the rehash that moves keys between the two. A `TValue *` into a table is a `Slot`, so that `luaH_set` returns the table and the place the caller writes to. `newkey` calls `rehash`, which calls `luaH_set` and through it `newkey` again; the functions take the inner `newkey` as an argument and `newkey` itself counts how deep the calls are nested. `resize` does not see allocation fail, and a table that would need more than `2^MAXBITS` nodes raises `table overflow`.
-/

namespace Reading.Lua

open Lib (searchFrom findBefore)

/-- The values a table is made of, up to the equality of `luaO_rawequalObj`, with what the hash functions read of them. -/
structure Values where
  Number : Type
  Str : Type
  Pointer : Type
  Object : Type
  [decNumber : DecidableEq Number]
  [decStr : DecidableEq Str]
  [decPointer : DecidableEq Pointer]
  [decObject : DecidableEq Object]
  castNum : Int32 → Number
  /-- `lua_number2int`, which gives some int where the number is none. -/
  number2int : Number → Int32
  number2int_castNum : ∀ k, number2int (castNum k) = k
  /-- The sum of the ints inside a number. -/
  ints : Number → UInt32
  hash : Str → UInt32
  pointer : Pointer → UInt32
  object : Object → UInt32

attribute [instance] Values.decNumber Values.decStr Values.decPointer Values.decObject

inductive TValue (V : Values) where
  | nil
  | boolean (b : Bool)
  | lightuserdata (p : V.Pointer)
  | number (n : V.Number)
  | string (s : V.Str)
  | object (o : V.Object)
  deriving DecidableEq

structure Node (V : Values) where
  val : TValue V := .nil
  key : TValue V := .nil
  next : Option Nat := none

/-- `array` is the allocated buffer, of which `sizearray` elements are in use. -/
structure Table (V : Values) where
  array : List (TValue V)
  sizearray : Nat
  lsizenode : Nat
  /-- The pointer `node` is `dummynode`. -/
  dummy : Bool
  node : Nat → Node V
  lastfree : Int

/-- A pointer to a value of a table, or `luaO_nilobject`. -/
inductive Slot where
  | nilobject
  | array (i : Nat)
  | node (i : Nat)
  deriving DecidableEq

/-- The errors of the code; `stuck` is a loop or a nesting of calls that does not end within its bound, or a pointer that leads nowhere. -/
inductive Stop where
  | tableOverflow
  | indexNil
  | stuck
  deriving DecidableEq

variable {V : Values}

def Table.sizenode (t : Table V) : Nat := 2 ^ t.lsizenode

def Table.read (t : Table V) : Slot → TValue V
  | .nilobject => .nil
  | .array i => t.array.getD i .nil
  | .node i => (t.node i).val

def Table.setNode (t : Table V) (i : Nat) (n : Node V) : Table V := { t with node := Function.update t.node i n }

def Table.write (t : Table V) (v : TValue V) : Slot → Table V
  | .nilobject => t
  | .array i => { t with array := t.array.set i v }
  | .node i => t.setNode i { t.node i with val := v }

/-! ### Hash functions -/

def maxBits : Nat := 26

def maxAsize : Nat := 2 ^ maxBits

def log2Table : List Nat :=
  [0, 1] ++ List.replicate 2 2 ++ List.replicate 4 3 ++ List.replicate 8 4 ++ List.replicate 16 5 ++ List.replicate 32 6
    ++ List.replicate 64 7 ++ List.replicate 128 8

/-- An `unsigned int` is below 256 after three shifts. -/
def log2Loop : Nat → Nat → Int → Int
  | 0, x, l => l + log2Table.getD x 0
  | steps + 1, x, l => if 256 ≤ x then log2Loop steps (x >>> 8) (l + 8) else l + log2Table.getD x 0

def luaOLog2 (x : Nat) : Int := log2Loop 3 x (-1)

def ceillog2 (x : Nat) : Nat := (luaOLog2 (x - 1) + 1).toNat

def lmod (s size : Nat) : Nat := s &&& (size - 1)

def hashpow2 (t : Table V) (n : Nat) : Nat := lmod n t.sizenode

def hashmod (t : Table V) (n : Nat) : Nat := n % ((t.sizenode - 1) ||| 1)

def hashnum (t : Table V) (n : V.Number) : Nat :=
  if n = V.castNum 0 then 0 else hashmod t (V.ints n).toNat

def hashstr (t : Table V) (s : V.Str) : Nat := hashpow2 t (V.hash s).toNat

/-- No caller asks for the position of nil, whose `gcvalue` is not set. -/
def mainposition (t : Table V) : TValue V → Nat
  | .number n => hashnum t n
  | .string s => hashstr t s
  | .boolean b => hashpow2 t b.toNat
  | .lightuserdata p => hashmod t (V.pointer p).toNat
  | .object o => hashmod t (V.object o).toNat
  | .nil => hashmod t 0

def arrayindex : TValue V → Int32
  | .number n => if V.castNum (V.number2int n) = n then V.number2int n else -1
  | _ => -1

/-! ### Lookups -/

/-- The loop `do … while (n)` over a chain. -/
def searchChain (t : Table V) (test : TValue V → Bool) (n : Nat) : Except Stop Slot :=
  match searchFrom (fun i => (t.node i).next) (fun i => test (t.node i).key) t.sizenode n with
  | some (some i) => .ok (.node i)
  | some none => .ok .nilobject
  | none => .error .stuck

def luaHGetnum (t : Table V) (key : Int32) : Except Stop Slot :=
  if (key - 1).toUInt32.toNat < t.sizearray then .ok (.array (key - 1).toInt.toNat)
  else searchChain t (fun k => k = .number (V.castNum key)) (hashnum t (V.castNum key))

def luaHGetstr (t : Table V) (key : V.Str) : Except Stop Slot :=
  searchChain t (fun k => k = .string key) (hashstr t key)

def luaHGet (t : Table V) (key : TValue V) : Except Stop Slot :=
  match key with
  | .nil => .ok .nilobject
  | .string s => luaHGetstr t s
  | .number n =>
    if V.castNum (V.number2int n) = n then luaHGetnum t (V.number2int n)
    else searchChain t (fun k => k = key) (mainposition t key)
  | _ => searchChain t (fun k => k = key) (mainposition t key)

/-! ### Insertion -/

/-- The table and the place of the new key's value. -/
abbrev Newkey (V : Values) : Type := Table V → TValue V → Except Stop (Table V × Slot)

def luaHSet (newkey : Newkey V) (t : Table V) (key : TValue V) : Except Stop (Table V × Slot) := do
  match ← luaHGet t key with
  | .nilobject => if key = .nil then .error .indexNil else newkey t key
  | p => .ok (t, p)

def luaHSetnum (newkey : Newkey V) (t : Table V) (key : Int32) : Except Stop (Table V × Slot) := do
  match ← luaHGetnum t key with
  | .nilobject => newkey t (.number (V.castNum key))
  | p => .ok (t, p)

def luaHSetstr (newkey : Newkey V) (t : Table V) (key : V.Str) : Except Stop (Table V × Slot) := do
  match ← luaHGetstr t key with
  | .nilobject => newkey t (.string key)
  | p => .ok (t, p)

/-- The loop counts `lastfree` down to the first node; past it no place is free. -/
def getfreeposFrom (t : Table V) : Nat → Table V × Option Nat
  | 0 => ({ t with lastfree := -1 }, none)
  | i + 1 => if (t.node i).key = .nil then ({ t with lastfree := i }, some i) else getfreeposFrom t i

def getfreepos (t : Table V) : Table V × Option Nat := getfreeposFrom t t.lastfree.toNat

/-- The key goes into the node `mp`, whose value is nil. -/
def setkey (t : Table V) (mp : Nat) (key : TValue V) : Table V × Slot :=
  (t.setNode mp { t.node mp with key := key }, .node mp)

/-- The colliding node is out of its main position and moves to the free node `n`. -/
def moveColliding (t : Table V) (mp n othern : Nat) : Table V :=
  let t := t.setNode othern { t.node othern with next := some n }
  let t := t.setNode n (t.node mp)
  t.setNode mp { t.node mp with next := none, val := .nil }

/-- The colliding node is in its own main position and the free node `n` is chained behind it. -/
def chainBehind (t : Table V) (mp n : Nat) : Table V :=
  let t := t.setNode n { t.node n with next := (t.node mp).next }
  t.setNode mp { t.node mp with next := some n }

/-- A new key when its main position `mp` is taken and `n` is free. -/
def newkeyAt (t : Table V) (key : TValue V) (mp n : Nat) : Except Stop (Table V × Slot) :=
  let othern := mainposition t (t.node mp).key
  if othern ≠ mp then
    match findBefore (fun i => (t.node i).next) mp t.sizenode othern with
    | some (some othern) => .ok (setkey (moveColliding t mp n othern) mp key)
    | _ => .error .stuck
  else .ok (setkey (chainBehind t mp n) n key)

/-! ### Rehash -/

/-- The state of the loops that count keys. -/
structure Use where
  nums : Nat → Nat
  ause : Nat
  totaluse : Nat

def countint (key : TValue V) (nums : Nat → Nat) : (Nat → Nat) × Nat :=
  let k := arrayindex key
  if 0 < k ∧ k.toInt ≤ maxAsize then
    (Function.update nums (ceillog2 k.toInt.toNat) (nums (ceillog2 k.toInt.toNat) + 1), 1)
  else (nums, 0)

/-- The elements among the next ones from `i` on that are not nil. -/
def countSlice (t : Table V) (i : Nat) : Nat → Nat
  | 0 => 0
  | steps + 1 => countSlice t i steps + (if t.array.getD (i + steps - 1) .nil = .nil then 0 else 1)

/-- The slices from `2^lg` on. -/
def numusearrayFrom (t : Table V) : Nat → Nat → Nat → Use → Use
  | 0, _, _, use => use
  | slices + 1, lg, i, use =>
    if t.sizearray < 2 ^ lg ∧ t.sizearray < i then use
    else
      let lim := min (2 ^ lg) t.sizearray
      let lc := countSlice t i (lim + 1 - i)
      numusearrayFrom t slices (lg + 1) (i + (lim + 1 - i))
        { use with nums := Function.update use.nums lg (use.nums lg + lc), ause := use.ause + lc }

def numusearray (t : Table V) : Use :=
  numusearrayFrom t (maxBits + 1) 0 1 { nums := fun _ => 0, ause := 0, totaluse := 0 }

def countNode (n : Node V) (use : Use) : Use :=
  if n.val = .nil then use
  else
    let (nums, one) := countint n.key use.nums
    { nums, ause := use.ause + one, totaluse := use.totaluse + 1 }

/-- The nodes below `i`, from the last to the first. -/
def numusehashFrom (t : Table V) : Nat → Use → Use
  | 0, use => use
  | i + 1, use => numusehashFrom t i (countNode (t.node i) use)

/-- The size for the array part and the number of elements that go there. The loop reads `nums[i]` for at most `slices` more slices. -/
def computesizesFrom (nums : Nat → Nat) (narray : Nat) : Nat → Nat → Nat → Nat × Nat → Except Stop (Nat × Nat)
  | 0, i, _, best => if 2 ^ i / 2 < narray then .error .stuck else .ok best
  | slices + 1, i, a, best =>
    if 2 ^ i / 2 < narray then
      let a := a + nums i
      let best := if 0 < nums i ∧ 2 ^ i / 2 < a then (2 ^ i, a) else best
      if a = narray then .ok best else computesizesFrom nums narray slices (i + 1) a best
    else .ok best

def computesizes (nums : Nat → Nat) (narray : Nat) : Except Stop (Nat × Nat) :=
  computesizesFrom nums narray (maxBits + 1) 0 0 (0, 0)

def setarrayvector (t : Table V) (size : Nat) : Table V :=
  { t with array := (t.array.take t.sizearray).take size ++ List.replicate (size - t.sizearray) .nil, sizearray := size }

def setnodevector (t : Table V) (size : Nat) : Except Stop (Table V) :=
  if size = 0 then .ok { t with node := fun _ => {}, dummy := true, lsizenode := 0, lastfree := 0 }
  else if maxBits < ceillog2 size then .error .tableOverflow
  else .ok { t with node := fun _ => {}, dummy := false, lsizenode := ceillog2 size, lastfree := (2 ^ ceillog2 size : Nat) }

/-- An element of the vanishing slice is re-inserted. -/
def moveElement (newkey : Newkey V) (t : Table V) (i : Nat) : Except Stop (Table V) :=
  if t.array.getD i .nil = .nil then .ok t
  else do
    let (t, p) ← luaHSetnum newkey t (Int32.ofNat (i + 1))
    .ok (t.write (t.read (.array i)) p)

def moveSlice (newkey : Newkey V) : Nat → Nat → Table V → Except Stop (Table V)
  | 0, _, t => .ok t
  | steps + 1, i, t => do moveSlice newkey steps (i + 1) (← moveElement newkey t i)

/-- A node of the old hash part is re-inserted. -/
def moveNode (newkey : Newkey V) (old : Node V) (t : Table V) : Except Stop (Table V) :=
  if old.val = .nil then .ok t
  else do
    let (t, p) ← luaHSet newkey t old.key
    .ok (t.write old.val p)

def moveNodes (newkey : Newkey V) (nold : Nat → Node V) : Nat → Table V → Except Stop (Table V)
  | 0, t => .ok t
  | i + 1, t => do moveNodes newkey nold i (← moveNode newkey (nold i) t)

def shrinkarray (newkey : Newkey V) (t : Table V) (nasize oldasize : Nat) : Except Stop (Table V) := do
  let t ← moveSlice newkey (oldasize - nasize) nasize { t with sizearray := nasize }
  .ok { t with array := t.array.take nasize }

/-- The array part after `setarrayvector`, where it must grow. -/
def growarray (t : Table V) (nasize : Nat) : Table V := if t.sizearray < nasize then setarrayvector t nasize else t

def resize (newkey : Newkey V) (t : Table V) (nasize nhsize : Nat) : Except Stop (Table V) := do
  let fresh ← setnodevector (growarray t nasize) nhsize
  let kept ← (if nasize < t.sizearray then shrinkarray newkey fresh nasize t.sizearray else .ok fresh)
  moveNodes newkey t.node t.sizenode kept

def luaHResizearray (newkey : Newkey V) (t : Table V) (nasize : Nat) : Except Stop (Table V) :=
  resize newkey t nasize (if t.dummy then 0 else t.sizenode)

def rehash (newkey : Newkey V) (t : Table V) (ek : TValue V) : Except Stop (Table V) := do
  let inArray := numusearray t
  let use := numusehashFrom t t.sizenode { inArray with totaluse := inArray.ause }
  let (nums, one) := countint ek use.nums
  let (nasize, na) ← computesizes nums (use.ause + one)
  resize newkey t nasize (use.totaluse + 1 - na)

/-- The body of `newkey`, with the function its own calls reach. -/
def newkeyStep (newkey : Newkey V) : Newkey V := fun t key =>
  let mp := mainposition t key
  if (t.node mp).val ≠ .nil ∨ t.dummy = true then
    match getfreepos t with
    | (t, none) => do luaHSet newkey (← rehash newkey t key) key
    | (t, some n) => newkeyAt t key mp n
  else .ok (setkey t mp key)

def newkey : Nat → Newkey V
  | 0 => fun _ _ => .error .stuck
  | depth + 1 => newkeyStep (newkey depth)

def luaHNew (narray nhash : Nat) : Except Stop (Table V) :=
  setnodevector
    (setarrayvector { array := [], sizearray := 0, lsizenode := 0, dummy := true, node := fun _ => {}, lastfree := 0 } narray)
    nhash

end Reading.Lua
