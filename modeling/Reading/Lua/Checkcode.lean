import Mathlib.Data.Option.Basic
import Reading.Lua.Proto
import Mathlib.Algebra.Group.Nat.Defs
import Mathlib.Data.Int.Order.Basic

/-!
# The code checker

Code that comes from a file could read past a function's constants or registers, so the loader runs it symbolically first: every instruction once, in order, with its operands held against the sizes of what they index.
-/

namespace Reading.Lua

/-! ### Instructions -/

inductive OpCode where
  | opMove | opLoadk | opLoadbool | opLoadnil | opGetupval
  | opGetglobal | opGettable
  | opSetglobal | opSetupval | opSettable
  | opNewtable
  | opSelf
  | opAdd | opSub | opMul | opDiv | opMod | opPow | opUnm | opNot | opLen
  | opConcat
  | opJmp
  | opEq | opLt | opLe
  | opTest | opTestset
  | opCall | opTailcall | opReturn
  | opForloop | opForprep
  | opTforloop | opSetlist
  | opClose | opClosure
  | opVararg
deriving DecidableEq

namespace OpCode

/-- The instruction set in the order of its codes. -/
def all : List OpCode :=
  [opMove, opLoadk, opLoadbool, opLoadnil, opGetupval, opGetglobal, opGettable, opSetglobal, opSetupval, opSettable,
    opNewtable, opSelf, opAdd, opSub, opMul, opDiv, opMod, opPow, opUnm, opNot, opLen, opConcat, opJmp, opEq, opLt,
    opLe, opTest, opTestset, opCall, opTailcall, opReturn, opForloop, opForprep, opTforloop, opSetlist, opClose,
    opClosure, opVararg]

end OpCode

def sizeOp : Nat := 6
def sizeA : Nat := 8
def sizeB : Nat := 9
def sizeC : Nat := 9
def sizeBx : Nat := sizeC + sizeB

def posOp : Nat := 0
def posA : Nat := posOp + sizeOp
def posC : Nat := posA + sizeA
def posB : Nat := posC + sizeC
def posBx : Nat := posC

def maxargBx : Nat := 2 ^ sizeBx - 1
def maxargSBx : Nat := maxargBx / 2
def maxargA : Nat := 2 ^ sizeA - 1

/-- The bits of an instruction that hold one of its fields. -/
def field (i : Instruction) (pos size : Nat) : Nat := i.toNat / 2 ^ pos % 2 ^ size

/-- The opcode, if the number is one. -/
def getOpcode (i : Instruction) : Option OpCode := OpCode.all[field i posOp sizeOp]?

def getargA (i : Instruction) : Int := field i posA sizeA
def getargB (i : Instruction) : Int := field i posB sizeB
def getargC (i : Instruction) : Int := field i posC sizeC
def getargBx (i : Instruction) : Int := field i posBx sizeBx
def getargSBx (i : Instruction) : Int := getargBx i - maxargSBx

def bitRK : Nat := 2 ^ (sizeB - 1)

/-- Whether an operand is a constant. -/
def isK (x : Int) : Bool := x.toNat &&& bitRK != 0

/-- Which constant it is: the operand without the bit that says so. -/
def indexK (r : Int) : Int := (r.toNat ^^^ (r.toNat &&& bitRK) : Nat)

/-- No register that an instruction could name. -/
def noReg : Int := maxargA

inductive OpMode where
  | iABC | iABx | iAsBx
deriving DecidableEq

inductive OpArgMask where
  | opArgN | opArgU | opArgR | opArgK
deriving DecidableEq

/-- What `luaP_opmodes` packs into a byte: is it a test, does it set register `A`, what are `B` and `C`, and the format. -/
structure OpProperties where
  testT : Bool
  testA : Bool
  getBMode : OpArgMask
  getCMode : OpArgMask
  getOpMode : OpMode

open OpCode OpArgMask OpMode in
def luaPOpmodes : OpCode → OpProperties
  | opMove => ⟨false, true, opArgR, opArgN, iABC⟩
  | opLoadk => ⟨false, true, opArgK, opArgN, iABx⟩
  | opLoadbool => ⟨false, true, opArgU, opArgU, iABC⟩
  | opLoadnil => ⟨false, true, opArgR, opArgN, iABC⟩
  | opGetupval => ⟨false, true, opArgU, opArgN, iABC⟩
  | opGetglobal => ⟨false, true, opArgK, opArgN, iABx⟩
  | opGettable => ⟨false, true, opArgR, opArgK, iABC⟩
  | opSetglobal => ⟨false, false, opArgK, opArgN, iABx⟩
  | opSetupval => ⟨false, false, opArgU, opArgN, iABC⟩
  | opSettable => ⟨false, false, opArgK, opArgK, iABC⟩
  | opNewtable => ⟨false, true, opArgU, opArgU, iABC⟩
  | opSelf => ⟨false, true, opArgR, opArgK, iABC⟩
  | opAdd => ⟨false, true, opArgK, opArgK, iABC⟩
  | opSub => ⟨false, true, opArgK, opArgK, iABC⟩
  | opMul => ⟨false, true, opArgK, opArgK, iABC⟩
  | opDiv => ⟨false, true, opArgK, opArgK, iABC⟩
  | opMod => ⟨false, true, opArgK, opArgK, iABC⟩
  | opPow => ⟨false, true, opArgK, opArgK, iABC⟩
  | opUnm => ⟨false, true, opArgR, opArgN, iABC⟩
  | opNot => ⟨false, true, opArgR, opArgN, iABC⟩
  | opLen => ⟨false, true, opArgR, opArgN, iABC⟩
  | opConcat => ⟨false, true, opArgR, opArgR, iABC⟩
  | opJmp => ⟨false, false, opArgR, opArgN, iAsBx⟩
  | opEq => ⟨true, false, opArgK, opArgK, iABC⟩
  | opLt => ⟨true, false, opArgK, opArgK, iABC⟩
  | opLe => ⟨true, false, opArgK, opArgK, iABC⟩
  | opTest => ⟨true, true, opArgR, opArgU, iABC⟩
  | opTestset => ⟨true, true, opArgR, opArgU, iABC⟩
  | opCall => ⟨false, true, opArgU, opArgU, iABC⟩
  | opTailcall => ⟨false, true, opArgU, opArgU, iABC⟩
  | opReturn => ⟨false, false, opArgU, opArgN, iABC⟩
  | opForloop => ⟨false, true, opArgR, opArgN, iAsBx⟩
  | opForprep => ⟨false, true, opArgR, opArgN, iAsBx⟩
  | opTforloop => ⟨true, false, opArgN, opArgU, iABC⟩
  | opSetlist => ⟨false, false, opArgU, opArgU, iABC⟩
  | opClose => ⟨false, false, opArgN, opArgN, iABC⟩
  | opClosure => ⟨false, true, opArgU, opArgN, iABx⟩
  | opVararg => ⟨false, true, opArgU, opArgN, iABC⟩

/-! ### The checks -/

def maxStack : Nat := 250

def luaMultret : Int := -1

def varargHasarg : UInt8 := 1
def varargIsvararg : UInt8 := 2
def varargNeedsarg : UInt8 := 4

namespace Proto

def sizecode (pt : Proto) : Int := pt.code.length

def instruction (pt : Proto) (pc : Int) : Instruction := pt.code.getD pc.toNat 0

/-- How many upvalues the function inside with that number has. -/
def closureNups (pt : Proto) (b : Int) : Option Nat := (pt.p[b.toNat]?).map fun g => g.nups.toNat

/-- Whether the constant with that number is a string. -/
def isString (pt : Proto) (b : Int) : Bool :=
  match pt.k[b.toNat]? with
  | some (.string _) => true
  | _ => false

def checkreg (pt : Proto) (reg : Int) : Bool := reg < pt.maxstacksize.toNat

end Proto

def precheck (pt : Proto) : Bool :=
  pt.maxstacksize.toNat ≤ maxStack
    && pt.numparams.toNat + (pt.isVararg &&& varargHasarg).toNat ≤ pt.maxstacksize.toNat
    && (pt.isVararg &&& varargNeedsarg == 0 || pt.isVararg &&& varargHasarg != 0)
    && pt.upvalues.length ≤ pt.nups.toNat
    && (pt.lineinfo.length == pt.code.length || pt.lineinfo.length == 0)
    && (0 < pt.sizecode && getOpcode (pt.instruction (pt.sizecode - 1)) == some .opReturn)

/-- Only an instruction that takes all values up to the top may follow one that leaves the top open. -/
def luaGCheckopenop (i : Instruction) : Bool :=
  match getOpcode i with
  | some .opCall | some .opTailcall | some .opReturn | some .opSetlist => getargB i == 0
  | _ => false

def checkopenop (pt : Proto) (pc : Int) : Bool := luaGCheckopenop (pt.instruction (pc + 1))

def checkArgMode (pt : Proto) (r : Int) : OpArgMask → Bool
  | .opArgN => r == 0
  | .opArgU => true
  | .opArgR => pt.checkreg r
  | .opArgK => if isK r then indexK r < pt.k.length else r < pt.maxstacksize.toNat

/-- How many instructions just before `dest` look like a `SETLIST` whose count is in the next instruction. -/
def setlistRun (pt : Proto) : Nat → Nat
  | 0 => 0
  | dest + 1 =>
    let d := pt.instruction dest
    if getOpcode d = some .opSetlist ∧ getargC d = 0 then setlistRun pt dest + 1 else 0

/-- The operands `b` and `c` of an instruction, checked as its format says. -/
def operands (pt : Proto) (pc : Int) (op : OpCode) (i : Instruction) : Option (Int × Int) :=
  match (luaPOpmodes op).getOpMode with
  | .iABC => do
    let b := getargB i
    let c := getargC i
    guard (checkArgMode pt b (luaPOpmodes op).getBMode)
    guard (checkArgMode pt c (luaPOpmodes op).getCMode)
    some (b, c)
  | .iABx => do
    let b := getargBx i
    guard ((luaPOpmodes op).getBMode = .opArgK → b < pt.k.length)
    some (b, 0)
  | .iAsBx => do
    let b := getargSBx i
    if (luaPOpmodes op).getBMode = .opArgR then
      let dest := pc + 1 + b
      guard (0 ≤ dest ∧ dest < pt.sizecode)
      -- a run of such instructions alternates with its counts, so an even one ends with a count
      guard (dest > 0 → setlistRun pt dest.toNat % 2 = 0)
    some (b, 0)

/-- How many instructions a jump skips. Only a trace of one register follows it, forward and not past `lastpc`. -/
def jump (lastpc reg pc b : Int) : Nat :=
  let dest := pc + 1 + b
  if reg ≠ noReg ∧ pc < dest ∧ dest ≤ lastpc then b.toNat else 0

/-- What the `switch` on the opcode checks, with how many instructions it skips and the last change of `reg` so far. -/
def execute (pt : Proto) (lastpc reg pc : Int) (op : OpCode) (a b c : Int) (last : Int) : Option (Nat × Int) :=
  match op with
  | .opLoadbool => do
    guard (c = 1 → pc + 2 < pt.sizecode)
    guard (c = 1 → getOpcode (pt.instruction (pc + 1)) ≠ some .opSetlist ∨ getargC (pt.instruction (pc + 1)) ≠ 0)
    some (0, last)
  | .opLoadnil => some (0, if a ≤ reg ∧ reg ≤ b then pc else last)
  | .opGetupval | .opSetupval => do
    guard (b < pt.nups.toNat)
    some (0, last)
  | .opGetglobal | .opSetglobal => do
    guard (pt.isString b)
    some (0, last)
  | .opSelf => do
    guard (pt.checkreg (a + 1))
    some (0, if reg = a + 1 then pc else last)
  | .opConcat => do
    guard (b < c)
    some (0, last)
  | .opTforloop => do
    guard (c ≥ 1)
    guard (pt.checkreg (a + 2 + c))
    some (0, if reg ≥ a + 2 then pc else last)
  | .opForloop | .opForprep => do
    guard (pt.checkreg (a + 3))
    some (jump lastpc reg pc b, last)
  | .opJmp => some (jump lastpc reg pc b, last)
  | .opCall | .opTailcall => do
    guard (b ≠ 0 → pt.checkreg (a + b - 1))
    let c := c - 1
    if c = luaMultret then guard (checkopenop pt pc) else guard (c ≠ 0 → pt.checkreg (a + c - 1))
    some (0, if reg ≥ a then pc else last)
  | .opReturn => do
    let b := b - 1
    guard (b > 0 → pt.checkreg (a + b - 1))
    some (0, last)
  | .opSetlist => do
    guard (b > 0 → pt.checkreg (a + b))
    guard (c = 0 → pc + 1 < pt.sizecode - 1)
    some (if c = 0 then 1 else 0, last)
  | .opClosure => do
    let nup ← pt.closureNups b
    guard (pc + nup < pt.sizecode)
    guard ((List.range nup).all fun j =>
      let op1 := getOpcode (pt.instruction (pc + (j + 1)))
      op1 == some .opGetupval || op1 == some .opMove)
    some (if reg ≠ noReg then nup else 0, last)
  | .opVararg => do
    guard (pt.isVararg &&& varargIsvararg ≠ 0 ∧ pt.isVararg &&& varargNeedsarg = 0)
    let b := b - 1
    guard (b = luaMultret → checkopenop pt pc)
    guard (pt.checkreg (a + b - 1))
    some (0, last)
  | _ => some (0, last)

/-- One instruction. -/
def symbexecStep (pt : Proto) (lastpc reg pc last : Int) : Option (Nat × Int) := do
  let i := pt.instruction pc
  let op ← getOpcode i
  let a := getargA i
  guard (pt.checkreg a)
  let (b, c) ← operands pt pc op i
  let last := if (luaPOpmodes op).testA ∧ a = reg then pc else last
  if (luaPOpmodes op).testT then
    guard (pc + 2 < pt.sizecode)
    guard (getOpcode (pt.instruction (pc + 1)) = some .opJmp)
  execute pt lastpc reg pc op a b c last

/-- The loop from `pc` on. A pass moves on by at least one instruction, so `lastpc` passes are enough. -/
def symbexecLoop (pt : Proto) (lastpc reg : Int) : Nat → Int → Int → Option Int
  | 0, _, last => some last
  | n + 1, pc, last =>
    if pc < lastpc then do
      let (skipped, last) ← symbexecStep pt lastpc reg pc last
      symbexecLoop pt lastpc reg n (pc + skipped + 1) last
    else some last

/-- The last instruction before `lastpc` that changes `reg`, or `0` if a check fails. -/
def symbexec (pt : Proto) (lastpc reg : Int) : Instruction :=
  if precheck pt then
    match symbexecLoop pt lastpc reg lastpc.toNat 0 (pt.sizecode - 1) with
    | some last => pt.instruction last
    | none => 0
  else 0

def luaGCheckcode (pt : Proto) : Bool := symbexec pt pt.sizecode noReg != 0

/-! ### What the checker reads -/

/-- The passes that it gets are enough: more give the same. -/
theorem symbexecLoop_enough (pt : Proto) (lastpc reg : Int) {n m : Nat} {pc : Int} (last : Int)
    (hn : (lastpc - pc).toNat ≤ n) (hm : n ≤ m) :
    symbexecLoop pt lastpc reg m pc last = symbexecLoop pt lastpc reg n pc last := by
  induction n generalizing m pc last with
  | zero =>
    have hend : ¬ pc < lastpc := by omega
    cases m with
    | zero => rfl
    | succ m =>
      rw [symbexecLoop]
      exact if_neg hend
  | succ n ih =>
    cases m with
    | zero => omega
    | succ m =>
      rw [symbexecLoop, symbexecLoop]
      by_cases hpc : pc < lastpc
      · rw [if_pos hpc, if_pos hpc]
        cases symbexecStep pt lastpc reg pc last with
        | none => rfl
        | some r => exact ih r.2 (by omega) (Nat.le_of_succ_le_succ hm)
      · rw [if_neg hpc, if_neg hpc]

theorem closureNups_stripped (q : Option TString) (pt : Proto) (b : Int) :
    (pt.stripped q).closureNups b = pt.closureNups b := by
  rw [Proto.closureNups, Proto.closureNups, Proto.stripped_eq]
  change (((pt.p.map (Proto.stripped q))[b.toNat]?).map _) = _
  rw [List.getElem?_map, Option.map_map]
  congr 1
  funext g
  exact congrArg UInt8.toNat (Proto.stripped_nups q g)

theorem execute_stripped (q : Option TString) (pt : Proto) (lastpc reg pc : Int) (op : OpCode) (a b c last : Int) :
    execute (pt.stripped q) lastpc reg pc op a b c last = execute pt lastpc reg pc op a b c last := by
  have hnups := closureNups_stripped q pt b
  rw [Proto.stripped_eq] at hnups ⊢
  cases op with
  | opClosure =>
    rw [execute, execute, hnups]
    rfl
  | _ => rfl

theorem setlistRun_stripped (q : Option TString) (pt : Proto) (dest : Nat) :
    setlistRun (pt.stripped q) dest = setlistRun pt dest := by
  induction dest with
  | zero => rfl
  | succ dest ih =>
    rw [setlistRun, setlistRun, ih, Proto.stripped_eq]
    rfl

theorem operands_stripped (q : Option TString) (pt : Proto) (pc : Int) (op : OpCode) (i : Instruction) :
    operands (pt.stripped q) pc op i = operands pt pc op i := by
  rw [operands, operands]
  simp only [setlistRun_stripped]
  rw [Proto.stripped_eq]
  rfl

/-- A step reads nothing that a stripped chunk leaves out. -/
theorem symbexecStep_stripped (q : Option TString) (pt : Proto) (lastpc reg pc last : Int) :
    symbexecStep (pt.stripped q) lastpc reg pc last = symbexecStep pt lastpc reg pc last := by
  rw [symbexecStep, symbexecStep]
  simp only [execute_stripped, operands_stripped]
  rw [Proto.stripped_eq]
  rfl

theorem symbexecLoop_stripped (q : Option TString) (pt : Proto) (lastpc reg : Int) (n : Nat) (pc last : Int) :
    symbexecLoop (pt.stripped q) lastpc reg n pc last = symbexecLoop pt lastpc reg n pc last := by
  induction n generalizing pc last with
  | zero => rfl
  | succ n ih =>
    rw [symbexecLoop, symbexecLoop, symbexecStep_stripped]
    simp only [ih]

theorem precheck_stripped (q : Option TString) {pt : Proto} (h : precheck pt = true) :
    precheck (pt.stripped q) = true := by
  rw [Proto.stripped_eq]
  rw [precheck] at h ⊢
  simp only [Bool.and_eq_true] at h ⊢
  obtain ⟨⟨⟨⟨⟨hstack, hparams⟩, hvararg⟩, -⟩, -⟩, hcode⟩ := h
  exact ⟨⟨⟨⟨⟨hstack, hparams⟩, hvararg⟩, by simp⟩, by simp⟩, hcode⟩

/-- A function that is accepted with its debug information is accepted without it. -/
theorem luaGCheckcode_stripped (q : Option TString) {pt : Proto} (h : luaGCheckcode pt = true) :
    luaGCheckcode (pt.stripped q) = true := by
  have hpre : precheck pt = true := by
    by_contra hno
    rw [luaGCheckcode, symbexec, if_neg hno] at h
    cases h
  have hcode : (pt.stripped q).code = pt.code := by rw [Proto.stripped_eq]
  rw [luaGCheckcode, symbexec, if_pos hpre] at h
  rw [luaGCheckcode, symbexec, if_pos (precheck_stripped q hpre), symbexecLoop_stripped]
  simp only [Proto.sizecode, Proto.instruction, hcode] at h ⊢
  exact h

end Reading.Lua
