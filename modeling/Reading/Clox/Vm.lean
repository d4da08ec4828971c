import Reading.Clox.Completion

/-!
# The virtual machine

`vm_run` of `vm.c`, one instruction at a time. Numbers are elements of a type with the operations of C, and the readings of the clock are a sequence that is left open. Where the C program has no defined behaviour (the code or the stack is left, a constant that is not a string is used as a name) the step has no result, and neither has one in which a hash table loops for ever. `runtime_error` resets the stack.
-/

namespace Reading.Clox

open Reading.Lib

structure CallFrame where
  function : Nat
  ip : Nat
  slots : Nat
deriving DecidableEq

/-- The frames are listed from the innermost one outwards. Cells from `top` on hold what was left there. -/
structure Vm (N : Type) where
  frames : List CallFrame := []
  cells : Nat → Value N := fun _ => .bool false
  top : Nat := 0
  objects : Objects N
  globals : Table VmString (Value N) := tableInit
  /-- What was printed, with the operation that printed it. -/
  output : List (OpCode × Value N) := []
  /-- How often the clock was read. -/
  ticks : Nat := 0

def framesMax : Nat := 64

def stackMax : Nat := framesMax * 256

inductive RuntimeError where
  | operandNumber
  | operandsNumbers
  | operandsAdd
  | undefinedAt (name : Chars)
  | undefined (name : Chars)
  | arity (expected got : Nat)
  | stackOverflow
  | notCallable
deriving DecidableEq

inductive InterpretResult where
  | ok
  | compileError
  | runtimeError (e : RuntimeError)
deriving DecidableEq

variable {N : Type}

/-! ### Values -/

def isFalsey : Value N → Bool
  | .nil => true
  | .bool b => !b
  | _ => false

/-- Objects other than strings are not even equal to themselves. -/
def valuesEqual [BEq N] : Value N → Value N → Bool
  | .bool a, .bool b => a == b
  | .number a, .number b => a == b
  | .nil, .nil => true
  | .string a, .string b => a.addr == b.addr
  | _, _ => false

/-! ### The stack -/

namespace Vm

def push (vm : Vm N) (value : Value N) : Option (Vm N) :=
  if vm.top < stackMax then some { vm with cells := Function.update vm.cells vm.top value, top := vm.top + 1 } else none

def pop (vm : Vm N) : Option (Value N × Vm N) :=
  if 0 < vm.top then some (vm.cells (vm.top - 1), { vm with top := vm.top - 1 }) else none

def peek (vm : Vm N) (distance : Nat) : Option (Value N) :=
  if distance < vm.top then some (vm.cells (vm.top - 1 - distance)) else none

/-- `vm_run` returns after `runtime_error`. -/
def runtimeError (vm : Vm N) (e : RuntimeError) : Vm N × Option InterpretResult :=
  ({ vm with frames := [], top := 0 }, some (.runtimeError e))

/-! ### Reading code -/

def readByte (vm : Vm N) : Option (UInt8 × Vm N) :=
  match vm.frames with
  | [] => none
  | frame :: frames => do
    let function ← vm.objects.functions[frame.function]?
    let byte ← function.code[frame.ip]?
    some (byte, { vm with frames := { frame with ip := frame.ip + 1 } :: frames })

def readShort (vm : Vm N) : Option (Nat × Vm N) := do
  let (high, vm) ← vm.readByte
  let (low, vm) ← vm.readByte
  some (high.toNat * 256 + low.toNat, vm)

def readConstant (vm : Vm N) : Option (Value N × Vm N) := do
  let (index, vm) ← vm.readByte
  let frame ← vm.frames.head?
  let function ← vm.objects.functions[frame.function]?
  let value ← function.constants[index.toNat]?
  some (value, vm)

def readString (vm : Vm N) : Option (VmString × Vm N) := do
  match ← vm.readConstant with
  | (.string s, vm) => some (s, vm)
  | _ => none

/-- The place of the next instruction is moved. -/
def jump (vm : Vm N) (target : Nat → Option Nat) : Option (Vm N) :=
  match vm.frames with
  | [] => none
  | frame :: frames => do
    let ip ← target frame.ip
    some { vm with frames := { frame with ip := ip } :: frames }

/-! ### Calls -/

/-- `call`. -/
def call (vm : Vm N) (function argCount : Nat) : Option (Vm N × Option InterpretResult) := do
  let f ← vm.objects.functions[function]?
  if argCount ≠ f.arity then some (vm.runtimeError (.arity f.arity argCount))
  else if vm.frames.length = framesMax then some (vm.runtimeError .stackOverflow)
  else if argCount < vm.top then
    some ({ vm with frames := { function := function, ip := 0, slots := vm.top - argCount - 1 } :: vm.frames }, none)
  else none

/-- The only native function is `clock`. -/
def valueCall (clock : Nat → N) (vm : Vm N) (callable : Value N) (argCount : Nat) : Option (Vm N × Option InterpretResult) :=
  match callable with
  | .function f => vm.call f argCount
  | .native =>
    if argCount < vm.top then do
      let vm ← { vm with top := vm.top - (argCount + 1), ticks := vm.ticks + 1 }.push (.number (clock vm.ticks))
      some (vm, none)
    else none
  | _ => some (vm.runtimeError .notCallable)

end Vm

/-! ### Instructions -/

/-- The instruction for a byte, if there is one. -/
def OpCode.ofByte (byte : UInt8) : Option OpCode :=
  [OpCode.return, .constant, .nil, .true, .false, .not, .equal, .greater, .less, .negate, .add, .subtract, .multiply, .divide,
    .print, .jump, .jumpIfFalse, .loop, .pop, .defineGlobal, .getGlobal, .setGlobal, .getLocal, .setLocal, .call][byte.toNat]?

theorem OpCode.ofByte_toByte (op : OpCode) : OpCode.ofByte op.toByte = some op := by
  cases op <;> rfl

namespace Vm

/-- The machine goes on. -/
def goOn (vm : Option (Vm N)) : Option (Vm N × Option InterpretResult) := vm.map fun vm => (vm, none)

/-- `BINARY_OP`. -/
def binaryOp (vm : Vm N) (op : N → N → Value N) : Option (Vm N × Option InterpretResult) := do
  let right ← vm.peek 0
  let left ← vm.peek 1
  match left, right with
  | .number left, .number right => goOn ({ vm with top := vm.top - 2 }.push (op left right))
  | _, _ => some (vm.runtimeError .operandsNumbers)

/-- `vmstring_concatenate` for the two strings on the stack. -/
def concatenate (hashString : Chars → Nat) (vm : Vm N) (a b : VmString) : Option (Vm N) := do
  let (result, strings) ← vmstringCopy hashString vm.objects.strings (a.chars ++ b.chars)
  { vm with top := vm.top - 2, objects := { vm.objects with strings := strings } }.push (.string result)

section Execute

variable (hashString : Chars → Nat) (clock : Nat → N) [Add N] [Sub N] [Mul N] [Div N] [Neg N] [LT N] [DecidableLT N] [BEq N]

def add (vm : Vm N) : Option (Vm N × Option InterpretResult) := do
  let right ← vm.peek 0
  let left ← vm.peek 1
  match left, right with
  | .string left, .string right => goOn (vm.concatenate hashString left right)
  | .number left, .number right => goOn ({ vm with top := vm.top - 2 }.push (.number (left + right)))
  | _, _ => some (vm.runtimeError .operandsAdd)

def negate (vm : Vm N) : Option (Vm N × Option InterpretResult) := do
  match ← vm.peek 0 with
  | .number n => goOn ({ vm with top := vm.top - 1 }.push (.number (-n)))
  | _ => some (vm.runtimeError .operandNumber)

def defineGlobal (vm : Vm N) : Option (Vm N) := do
  let (name, vm) ← vm.readString
  let value ← vm.peek 0
  let (_, globals) ← tableSet (VmString.hash hashString) vm.globals name value
  some { vm with globals := globals, top := vm.top - 1 }

def getGlobal (vm : Vm N) : Option (Vm N × Option InterpretResult) := do
  let (name, vm) ← vm.readString
  match ← tableGet (VmString.hash hashString) vm.globals name with
  | some value => goOn (vm.push value)
  | none => some (vm.runtimeError (.undefinedAt name.chars))

/-- The value is stored before the variable is found to be undefined. -/
def setGlobal (vm : Vm N) : Option (Vm N × Option InterpretResult) := do
  let (name, vm) ← vm.readString
  let value ← vm.peek 0
  let (isNewKey, globals) ← tableSet (VmString.hash hashString) vm.globals name value
  let vm := { vm with globals := globals }
  if isNewKey then some (vm.runtimeError (.undefined name.chars)) else some (vm, none)

/-- The cell of a local of the innermost frame. -/
def slot (vm : Vm N) (index : UInt8) : Option Nat := do
  let frame ← vm.frames.head?
  if frame.slots + index.toNat < stackMax then some (frame.slots + index.toNat) else none

def getLocal (vm : Vm N) : Option (Vm N) := do
  let (index, vm) ← vm.readByte
  let slot ← vm.slot index
  vm.push (vm.cells slot)

def setLocal (vm : Vm N) : Option (Vm N) := do
  let (index, vm) ← vm.readByte
  let slot ← vm.slot index
  let value ← vm.peek 0
  some { vm with cells := Function.update vm.cells slot value }

def jumpIfFalse (vm : Vm N) : Option (Vm N) := do
  let (offset, vm) ← vm.readShort
  let condition ← vm.peek 0
  if isFalsey condition then vm.jump fun ip => some (ip + offset) else some vm

/-- A loop that would leave the code at its beginning is not defined. -/
def loop (vm : Vm N) : Option (Vm N) := do
  let (offset, vm) ← vm.readShort
  vm.jump fun ip => if offset ≤ ip then some (ip - offset) else none

/-- `OP_RETURN`. The value stays on the stack only if there is a caller. -/
def opReturn (vm : Vm N) : Option (Vm N × Option InterpretResult) := do
  let (value, vm) ← vm.pop
  match vm.frames with
  | [] => none
  | [_] => some ({ vm with frames := [] }, some .ok)
  | frame :: frames => goOn ({ vm with frames := frames, top := frame.slots }.push value)

/-- The effect of an instruction behind its first byte. -/
def execute (vm : Vm N) : OpCode → Option (Vm N × Option InterpretResult)
  | .constant => do
    let (value, vm) ← vm.readConstant
    goOn ({ vm with output := vm.output ++ [(OpCode.constant, value)] }.push value)
  | .not => do
    let (value, vm) ← vm.pop
    goOn (vm.push (.bool (isFalsey value)))
  | .negate => vm.negate
  | .add => vm.add hashString
  | .subtract => vm.binaryOp fun left right => .number (left - right)
  | .multiply => vm.binaryOp fun left right => .number (left * right)
  | .divide => vm.binaryOp fun left right => .number (left / right)
  | .nil => goOn (vm.push .nil)
  | .true => goOn (vm.push (.bool true))
  | .false => goOn (vm.push (.bool false))
  | .equal => do
    let (right, vm) ← vm.pop
    let (left, vm) ← vm.pop
    goOn (vm.push (.bool (valuesEqual left right)))
  | .greater => vm.binaryOp fun left right => .bool (right < left)
  | .less => vm.binaryOp fun left right => .bool (left < right)
  | .return => vm.opReturn
  | .print => do
    let (value, vm) ← vm.pop
    some ({ vm with output := vm.output ++ [(OpCode.print, value)] }, none)
  | .pop => do
    let (_, vm) ← vm.pop
    some (vm, none)
  | .defineGlobal => goOn (vm.defineGlobal hashString)
  | .getGlobal => vm.getGlobal hashString
  | .setGlobal => vm.setGlobal hashString
  | .getLocal => goOn vm.getLocal
  | .setLocal => goOn vm.setLocal
  | .jumpIfFalse => goOn vm.jumpIfFalse
  | .jump => do
    let (offset, vm) ← vm.readShort
    goOn (vm.jump fun ip => some (ip + offset))
  | .loop => goOn vm.loop
  | .call => do
    let (argCount, vm) ← vm.readByte
    let callable ← vm.peek argCount.toNat
    vm.valueCall clock callable argCount.toNat

/-- One round of the loop of `vm_run`, with the result if it returns. -/
def step (vm : Vm N) : Option (Vm N × Option InterpretResult) := do
  let (instruction, vm) ← vm.readByte
  match OpCode.ofByte instruction with
  | some op => vm.execute hashString clock op
  | none => some (vm, some .compileError)

variable {hashString clock}

theorem step_eq {vm vm₁ : Vm N} {op : OpCode} (hop : vm.readByte = some (op.toByte, vm₁)) :
    vm.step hashString clock = vm₁.execute hashString clock op := by
  rw [step, hop, Option.bind_eq_bind, Option.bind_some]
  dsimp only
  rw [OpCode.ofByte_toByte]

end Execute

end Vm

/-! ### Sessions -/

section Session

variable (hashString : Chars → Nat) (strtod : Chars → N) (clock : Nat → N)

/-- `native_define` for the name. -/
def nativeDefine (vm : Vm N) (name : Chars) : Option (Vm N) := do
  let (string, strings) ← vmstringCopy hashString vm.objects.strings name
  let vm ← { vm with objects := { vm.objects with strings := strings } }.push (.string string)
  let vm ← vm.push .native
  -- The name and the function are looked up at the bottom of the stack, which was empty.
  match vm.cells 0 with
  | .string name => do
    let (_, globals) ← tableSet (VmString.hash hashString) vm.globals name (vm.cells 1)
    let (_, vm) ← { vm with globals := globals }.pop
    let (_, vm) ← vm.pop
    some vm
  | _ => none

def vmInit : Option (Vm N) :=
  nativeDefine hashString { objects := Objects.empty N } (['c', 'l', 'o', 'c', 'k'].map ascii)

/-- What `vm_interpret` does before `vm_run`, with the state the compiler ended in. -/
def vmEnter (vm : Vm N) (s : State N) : Option (Vm N) := do
  let function := s.objects.functions.length - 1
  let vm ← { vm with objects := s.objects }.push (.function function)
  match ← vm.valueCall clock (.function function) 0 with
  | (vm, none) => some vm
  | (_, some _) => none

variable [Add N] [Sub N] [Mul N] [Div N] [Neg N] [LT N] [DecidableLT N] [BEq N]

/-- The states between two instructions (`running`) or between two calls of `vm_interpret`, from `vm_init` on. -/
inductive Reachable : Bool → Vm N → Prop where
  | init {vm : Vm N} : vmInit hashString = some vm → Reachable false vm
  | reject {vm : Vm N} {depth : Nat} {code : Chars} {s : State N} : Reachable false vm →
      compileSource hashString strtod depth vm.objects code = .ok s → s.hadError = true →
      Reachable false { vm with objects := s.objects }
  | enter {vm vm' : Vm N} {depth : Nat} {code : Chars} {s : State N} : Reachable false vm →
      compileSource hashString strtod depth vm.objects code = .ok s → s.hadError = false → vmEnter clock vm s = some vm' →
      Reachable true vm'
  | step {vm vm' : Vm N} : Reachable true vm → vm.step hashString clock = some (vm', none) → Reachable true vm'
  | leave {vm vm' : Vm N} {result : InterpretResult} : Reachable true vm →
      vm.step hashString clock = some (vm', some result) → Reachable false vm'

end Session

end Reading.Clox
