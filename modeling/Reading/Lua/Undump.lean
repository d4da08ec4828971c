import Reading.Lib.Codec
import Reading.Lua.Checkcode

/-!
# Precompiled chunks

A dumped function is its fields one after the other, as the machine has them in memory, with the length before every array and string. The reader takes them up in the same order. A function with its parent's source does not repeat it.
-/

namespace Reading.Lua

open Reading.Lib.Codec

/-- What the format takes from the machine: the order of a word's bytes and how many a `size_t` has. -/
structure Machine where
  bigEndian : Bool
  sizeofSizeT : Nat

namespace Machine

/-- A word as it is in memory. -/
def word (m : Machine) (n x : Nat) : List UInt8 :=
  if m.bigEndian then (littleEndian n x).reverse else littleEndian n x

def ofWord (m : Machine) (bs : List UInt8) : Nat := ofLittleEndian (if m.bigEndian then bs.reverse else bs)

@[simp] theorem length_word (m : Machine) (n x : Nat) : (m.word n x).length = n := by
  rw [word]
  split <;> simp

theorem ofWord_word (m : Machine) {n x : Nat} (h : x < 256 ^ n) : m.ofWord (m.word n x) = x := by
  rw [word, ofWord]
  cases m.bigEndian with
  | true =>
    rw [if_pos rfl, if_pos rfl, List.reverse_reverse]
    exact ofLittleEndian_littleEndian h
  | false => exact ofLittleEndian_littleEndian h

end Machine

def luaSignature : List UInt8 := [0x1b, 0x4c, 0x75, 0x61]
def luacVersion : UInt8 := 0x51
def luacFormat : UInt8 := 0
def luacHeadersize : Nat := 12

def luaTnil : UInt8 := 0
def luaTboolean : UInt8 := 1
def luaTnumber : UInt8 := 3
def luaTstring : UInt8 := 4

def luaiMaxccalls : Nat := 200

def sizeofInt : Nat := 4
def sizeofInstruction : Nat := 4
def sizeofLuaNumber : Nat := 8

def luaUHeader (m : Machine) : List UInt8 :=
  luaSignature
    ++ [luacVersion, luacFormat, if m.bigEndian then 0 else 1, .ofNat sizeofInt, .ofNat m.sizeofSizeT,
      .ofNat sizeofInstruction, .ofNat sizeofLuaNumber, 0]

/-! ### Writing -/

/-- The blocks that are handed to `DumpBlock`, in order. -/
abbrev Blocks := List (List UInt8)

section Dump

variable (m : Machine)

def dumpChar (y : UInt8) : Blocks := [[y]]

def dumpInt (x : BitVec 32) : Blocks := [m.word sizeofInt x.toNat]

def dumpNumber (x : BitVec 64) : Blocks := [m.word sizeofLuaNumber x.toNat]

/-- An array of words: its length, then its memory. -/
def dumpVector (b : List (BitVec 32)) (size : Nat) : Blocks :=
  dumpInt m b.length ++ [b.flatMap fun x => m.word size x.toNat]

/-- A length, then that many items. -/
def dumpCounted {α : Type} (xs : List α) (item : α → Blocks) : Blocks := dumpInt m xs.length ++ xs.flatMap item

def dumpString : Option TString → Blocks
  | none => [m.word m.sizeofSizeT 0]
  | some s => [m.word m.sizeofSizeT (s.length + 1), s ++ [0]]

def dumpConstant : Constant → Blocks
  | .nil => dumpChar luaTnil
  | .boolean b => dumpChar luaTboolean ++ dumpChar (if b then 1 else 0)
  | .number n => dumpChar luaTnumber ++ dumpNumber m n
  | .string s => dumpChar luaTstring ++ dumpString m s

/-- The first half of `DumpConstants`. -/
def dumpConstants (k : List Constant) : Blocks := dumpCounted m k (dumpConstant m)

def dumpLocvar (v : LocVar) : Blocks := dumpString m v.varname ++ dumpInt m v.startpc ++ dumpInt m v.endpc

def dumpDebug (strip : Bool) (lineinfo : List (BitVec 32)) (locvars : List LocVar) (upvalues : List (Option TString)) :
    Blocks :=
  let lineinfo := if strip then [] else lineinfo
  let locvars := if strip then [] else locvars
  let upvalues := if strip then [] else upvalues
  dumpVector m lineinfo sizeofInt
    ++ dumpCounted m locvars (dumpLocvar m)
    ++ dumpCounted m upvalues (dumpString m)

mutual

def dumpFunction (strip : Bool) (parent : Option TString) : Proto → Blocks
  | ⟨k, code, p, lineinfo, locvars, upvalues, source, linedefined, lastlinedefined, nups, numparams, isVararg,
      maxstacksize⟩ =>
    dumpString m (if source = parent ∨ strip then none else source)
      ++ dumpInt m linedefined
      ++ dumpInt m lastlinedefined
      ++ dumpChar nups
      ++ dumpChar numparams
      ++ dumpChar isVararg
      ++ dumpChar maxstacksize
      ++ dumpVector m code sizeofInstruction
      ++ dumpConstants m k
      ++ dumpInt m p.length
      ++ dumpFunctions strip source p
      ++ dumpDebug m strip lineinfo locvars upvalues

/-- The functions inside, which `DumpConstants` writes after the constants. -/
def dumpFunctions (strip : Bool) (source : Option TString) : List Proto → Blocks
  | [] => []
  | g :: gs => dumpFunction strip source g ++ dumpFunctions strip source gs

end

/-- What a writer does with a block: a status, `0` if it took it, and what it has then. -/
abbrev Writer (σ : Type) := List UInt8 → σ → Int × σ

/-- After a failure no block is written any more. -/
def dumpBlock {σ : Type} (writer : Writer σ) (d : Int × σ) (b : List UInt8) : Int × σ :=
  if d.1 = 0 then writer b d.2 else d

def luaUDump {σ : Type} (f : Proto) (w : Writer σ) (data : σ) (strip : Bool) : Int × σ :=
  (luaUHeader m :: dumpFunction m strip none f).foldl (dumpBlock w) (0, data)

/-- The writer that keeps all it gets. -/
def collect : Writer (List UInt8) := fun b written => (0, written ++ b)

end Dump

/-! ### Reading -/

def luaErrSyntax : Nat := 3

structure Thrown where
  errcode : Nat
  message : String
deriving DecidableEq

abbrev Load := Reader UInt8 Thrown

/-- The name in messages. -/
def chunkName (name : String) : String :=
  match name.toList with
  | [] => name
  | c :: rest =>
    if c = '@' ∨ c = '=' then String.ofList rest
    else if c.toNat = 0x1b then "binary string"
    else name

def thrown (name why : String) : Thrown := ⟨luaErrSyntax, name ++ ": " ++ why ++ " in precompiled chunk"⟩

section Load

variable (m : Machine) (name : String)

def loadBlock (size : Nat) : Load (List UInt8) := take (thrown name "unexpected end") size

def loadChar : Load UInt8 := do
  let x ← loadBlock name 1
  pure (x.headD 0)

def loadInt : Load (BitVec 32) := do
  let b ← loadBlock name sizeofInt
  let x : BitVec 32 := .ofNat 32 (m.ofWord b)
  if x.toInt < 0 then throw (thrown name "bad integer") else pure x

def loadNumber : Load (BitVec 64) := do
  let x ← loadBlock name sizeofLuaNumber
  pure (.ofNat 64 (m.ofWord x))

def loadString : Load (Option TString) := do
  let b ← loadBlock name m.sizeofSizeT
  let size := m.ofWord b
  if size = 0 then pure none
  else do
    let s ← loadBlock name size
    -- the `\0` at the end goes
    pure (some (s.take (size - 1)))

/-- A length, then that many items. -/
def loadCounted {α : Type} (item : Load α) : Load (List α) := do
  let n ← loadInt m name
  many item n.toNat

def loadVector (size : Nat) : Load (List (BitVec 32)) :=
  loadCounted m name ((fun b => .ofNat 32 (m.ofWord b)) <$> loadBlock name size)

def loadConstant : Load Constant := do
  let t ← loadChar name
  if t = luaTnil then pure .nil
  else if t = luaTboolean then do
    let b ← loadChar name
    pure (.boolean (b ≠ 0))
  else if t = luaTnumber then do
    let n ← loadNumber m name
    pure (.number n)
  else if t = luaTstring then do
    let s ← loadString m name
    pure (.string s)
  else throw (thrown name "bad constant")

def loadConstants : Load (List Constant) := loadCounted m name (loadConstant m name)

def loadLocvar : Load LocVar := do
  let varname ← loadString m name
  let startpc ← loadInt m name
  let endpc ← loadInt m name
  pure { varname := varname, startpc := startpc, endpc := endpc }

/-- `left` is how many more C calls `LUAI_MAXCCALLS` allows, and `p` the source of the function around this one. -/
def loadFunction : (left : Nat) → (p : Option TString) → Load Proto
  | 0, _ => throw (thrown name "code too deep")
  | left + 1, p => do
    let source ← loadString m name
    let source := source.or p
    let linedefined ← loadInt m name
    let lastlinedefined ← loadInt m name
    let nups ← loadChar name
    let numparams ← loadChar name
    let isVararg ← loadChar name
    let maxstacksize ← loadChar name
    let code ← loadVector m name sizeofInstruction
    let k ← loadConstants m name
    let ps ← loadCounted m name (loadFunction left source)
    let lineinfo ← loadVector m name sizeofInt
    let locvars ← loadCounted m name (loadLocvar m name)
    let upvalues ← loadCounted m name (loadString m name)
    let f : Proto :=
      { k := k
        code := code
        p := ps
        lineinfo := lineinfo
        locvars := locvars
        upvalues := upvalues
        source := source
        linedefined := linedefined
        lastlinedefined := lastlinedefined
        nups := nups
        numparams := numparams
        isVararg := isVararg
        maxstacksize := maxstacksize }
    if luaGCheckcode f then pure f else throw (thrown name "bad code")

def loadHeader : Load Unit := do
  let s ← loadBlock name luacHeadersize
  if s ≠ luaUHeader m then throw (thrown name "bad header") else pure ()

end Load

/-- The source of a chunk that does not say. -/
def noSource : TString := [0x3d, 0x3f]

def luaUUndump (m : Machine) (nCcalls : Nat) (name : String) : Load Proto := do
  loadHeader m (chunkName name)
  loadFunction m (chunkName name) (luaiMaxccalls - nCcalls) (some noSource)

end Reading.Lua
