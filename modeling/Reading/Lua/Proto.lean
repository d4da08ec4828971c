import Mathlib.Data.List.Basic

/-!
# Function prototypes

What the compiler makes of a function: its constants and instructions, the prototypes of the functions inside it, and the names and lines that only messages and debuggers read. A pointer that may be `NULL` is an option, a size goes with its array, and an `int` is its 32 bits.
-/

namespace Reading.Lua

abbrev TString := List UInt8

abbrev Instruction := BitVec 32

/-- A value that a function's constants may hold. The bits of a number are kept as they are. -/
inductive Constant where
  | nil
  | boolean (b : Bool)
  | number (n : BitVec 64)
  | string (s : Option TString)
deriving DecidableEq

structure LocVar where
  varname : Option TString
  startpc : BitVec 32
  endpc : BitVec 32
deriving DecidableEq

structure Proto where
  k : List Constant
  code : List Instruction
  p : List Proto
  lineinfo : List (BitVec 32)
  locvars : List LocVar
  upvalues : List (Option TString)
  source : Option TString
  linedefined : BitVec 32
  lastlinedefined : BitVec 32
  nups : UInt8
  numparams : UInt8
  isVararg : UInt8
  maxstacksize : UInt8

namespace Proto

/-- `P` holds of a prototype and of every one inside it. -/
inductive All (P : Proto → Prop) : Proto → Prop where
  | mk {f : Proto} (here : P f) (inside : ∀ g ∈ f.p, All P g) : All P f

theorem All.here {P : Proto → Prop} {f : Proto} : All P f → P f
  | .mk here _ => here

theorem All.inside {P : Proto → Prop} {f g : Proto} : All P f → g ∈ f.p → All P g
  | .mk _ inside, hmem => inside g hmem

theorem All.of_leaf {P : Proto → Prop} {f : Proto} (hp : f.p = []) (here : P f) : All P f := by
  refine .mk here fun g hg => ?_
  rw [hp] at hg
  cases hg

/-- The tree has at most `n` levels. -/
def Nests : Nat → Proto → Prop
  | 0, _ => False
  | n + 1, f => ∀ g ∈ f.p, Nests n g

mutual

/-- The tree without what a stripped chunk leaves out. A reader names every source `q`. -/
def stripped (q : Option TString) : Proto → Proto
  | ⟨k, code, p, _, _, _, _, linedefined, lastlinedefined, nups, numparams, isVararg, maxstacksize⟩ =>
    { k := k
      code := code
      p := strippedAll q p
      lineinfo := []
      locvars := []
      upvalues := []
      source := q
      linedefined := linedefined
      lastlinedefined := lastlinedefined
      nups := nups
      numparams := numparams
      isVararg := isVararg
      maxstacksize := maxstacksize }

def strippedAll (q : Option TString) : List Proto → List Proto
  | [] => []
  | f :: fs => stripped q f :: strippedAll q fs

end

theorem strippedAll_eq (q : Option TString) (fs : List Proto) : strippedAll q fs = fs.map (stripped q) := by
  induction fs with
  | nil => rfl
  | cons f fs ih => rw [strippedAll, ih, List.map_cons]

theorem stripped_eq (q : Option TString) (f : Proto) :
    f.stripped q =
      { f with p := f.p.map (stripped q), lineinfo := [], locvars := [], upvalues := [], source := q } := by
  cases f
  rw [stripped, strippedAll_eq]

@[simp] theorem stripped_nups (q : Option TString) (f : Proto) : (f.stripped q).nups = f.nups := by
  rw [stripped_eq]

end Proto

end Reading.Lua
