import Reading.Clox.Strings

/-!
# Values and code

The values of the virtual machine and the code of a function (`value.h`, `chunk.h`). Numbers are elements of a type that is left open. A function object is reached through its place in the list of all functions, and its code does not change after it was compiled; the line numbers beside the code are only printed and are left out.
-/

namespace Reading.Clox

inductive OpCode where
  | return
  | constant
  | nil
  | true
  | false
  | not
  | equal
  | greater
  | less
  | negate
  | add
  | subtract
  | multiply
  | divide
  | print
  | jump
  | jumpIfFalse
  | loop
  | pop
  | defineGlobal
  | getGlobal
  | setGlobal
  | getLocal
  | setLocal
  | call
deriving DecidableEq

/-- The place of the operation in the enumeration. -/
def OpCode.toByte : OpCode → UInt8
  | .return => 0
  | .constant => 1
  | .nil => 2
  | .true => 3
  | .false => 4
  | .not => 5
  | .equal => 6
  | .greater => 7
  | .less => 8
  | .negate => 9
  | .add => 10
  | .subtract => 11
  | .multiply => 12
  | .divide => 13
  | .print => 14
  | .jump => 15
  | .jumpIfFalse => 16
  | .loop => 17
  | .pop => 18
  | .defineGlobal => 19
  | .getGlobal => 20
  | .setGlobal => 21
  | .getLocal => 22
  | .setLocal => 23
  | .call => 24

inductive Value (N : Type) where
  | bool (b : Bool)
  | nil
  | number (n : N)
  | string (s : VmString)
  | function (f : Nat)
  | native
deriving DecidableEq

structure VmFunction (N : Type) where
  arity : Nat := 0
  code : List UInt8 := []
  constants : List (Value N) := []
  name : Option VmString := none
deriving DecidableEq

/-- The string object of a value, if it is one. -/
def Value.strings {N : Type} : Value N → List VmString
  | .string s => [s]
  | _ => []

/-- The string objects that a function refers to. -/
def VmFunction.strings {N : Type} (f : VmFunction N) : List VmString := f.constants.flatMap Value.strings ++ f.name.toList

/-- The objects of the virtual machine. -/
structure Objects (N : Type) where
  strings : Strings
  functions : List (VmFunction N)

/-- The strings of the finished functions are in the table, which holds its invariant. -/
structure Objects.Interned {N : Type} (hashString : Chars → Nat) (objects : Objects N) : Prop where
  strings : objects.strings.Valid hashString
  functions : ∀ f ∈ objects.functions, ∀ string ∈ f.strings, objects.strings.Has string

/-- Before the first string is made. -/
def Objects.empty (N : Type) : Objects N := ⟨Strings.empty, []⟩

theorem interned_empty {N : Type} {hashString : Chars → Nat} : (Objects.empty N).Interned hashString :=
  ⟨valid_empty, fun _ hf => nomatch hf⟩

end Reading.Clox
