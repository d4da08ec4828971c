import Reading.Clox.Interning
import Reading.Clox.Repl

/-!
# Assignment to a global that is not defined

`OP_SET_GLOBAL` asks `table_set` whether the name is new, and `table_set` has put it in by then. So the machine reports an undefined variable and has defined it.
-/

namespace Reading.Clox

open Reading.Lib

variable {N : Type} {hashString : Chars → Nat} {strtod : Chars → N} {clock : Nat → N} {vm vm' : Vm N}

namespace Vm

variable {name : VmString} {result : Option InterpretResult}

theorem readByte_globals {byte : UInt8} (h : vm.readByte = some (byte, vm')) : vm'.globals = vm.globals := by
  rw [readByte] at h
  split at h
  · cases h
  · simp only [Option.bind_eq_bind, Option.bind_eq_some_iff] at h
    obtain ⟨function, _, byte', _, heq⟩ := h
    cases heq
    rfl

theorem readString_globals (h : vm.readString = some (name, vm')) : vm'.globals = vm.globals := by
  simp only [readString, readConstant, Option.bind_eq_bind, Option.bind_eq_some_iff] at h
  obtain ⟨⟨value, vm₁⟩, ⟨⟨index, vm₂⟩, hindex, frame, -, function, -, value', -, heq⟩, hname⟩ := h
  cases heq
  cases value with
  | string s =>
    cases hname
    exact readByte_globals hindex
  | bool | nil | number | function | native => cases hname

/-- The value is stored, and then the name is found to have been new. -/
theorem setGlobal_stores {vm₁ : Vm N} (hvalid : vm.globals.Valid (VmString.hash hashString)) (hname : vm.readString = some (name, vm₁))
    (hundefined : tableGet (VmString.hash hashString) vm.globals name = some none)
    (hset : vm.setGlobal hashString = some (vm', result)) :
    result = some (.runtimeError (.undefined name.chars)) ∧
      ∃ value, tableGet (VmString.hash hashString) vm'.globals name = some (some value) := by
  rw [tableGet_spec hvalid, Option.some_inj] at hundefined
  rw [← readString_globals hname] at hvalid hundefined
  simp only [setGlobal, Option.bind_eq_bind, Option.bind_eq_some_iff] at hset
  obtain ⟨⟨name', vm₂⟩, hname', value, -, ⟨isNewKey, globals⟩, htable, hset⟩ := hset
  rw [hname] at hname'
  cases hname'
  obtain ⟨rfl, hvalid', hcontents⟩ := tableSet_ok hvalid htable
  rw [hundefined] at hset
  cases hset
  refine ⟨rfl, value, ?_⟩
  change tableGet (VmString.hash hashString) globals name = _
  rw [tableGet_spec hvalid', hcontents, Function.update_self]

end Vm

variable [Add N] [Sub N] [Mul N] [Div N] [Neg N] [LT N] [DecidableLT N] [BEq N]

/-- What is to hold after a failed assignment: the run ends with an error, and the globals are what they were. -/
def FailsCleanly (hashString : Chars → Nat) (vm vm' : Vm N) (result : Option InterpretResult) : Prop :=
  (∃ e, result = some (.runtimeError e)) ∧
    ∀ key, tableGet (VmString.hash hashString) vm'.globals key = tableGet (VmString.hash hashString) vm.globals key

/-- Every assignment to a name that is not a defined global ends in the error for it, and leaves the name defined. -/
theorem setGlobal_never_clean (h : Reachable hashString strtod clock true vm) {vm₁ vm₂ : Vm N} {name : VmString}
    {result : Option InterpretResult} (hop : vm.readByte = some (OpCode.setGlobal.toByte, vm₁)) (hname : vm₁.readString = some (name, vm₂))
    (hundefined : tableGet (VmString.hash hashString) vm.globals name = some none)
    (hstep : vm.step hashString clock = some (vm', result)) :
    result = some (.runtimeError (.undefined name.chars)) ∧
      (∃ value, tableGet (VmString.hash hashString) vm'.globals name = some (some value)) ∧
      ¬FailsCleanly hashString vm vm' result := by
  have hglobals := Vm.readByte_globals hop
  have hvalid := h.interned.globals
  rw [Vm.step_eq hop] at hstep
  rw [← hglobals] at hvalid hundefined
  obtain ⟨hresult, value, hdefined⟩ := Vm.setGlobal_stores hvalid hname hundefined hstep
  refine ⟨hresult, ⟨value, hdefined⟩, ?_⟩
  rintro ⟨-, hsame⟩
  have hname := hsame name
  rw [hdefined, ← hglobals, hundefined] at hname
  cases hname

/-- The line `a=nil;`. -/
def assignLine : Chars := ['a', '=', 'n', 'i', 'l', ';'].map ascii

theorem setGlobal_never_clean_line : ∃ vm vm' : Vm Int, ∃ name result,
    vm.step fnvHashString (fun _ => 0) = some (vm', result) ∧ result = some (.runtimeError (.undefined name)) ∧
      ¬FailsCleanly fnvHashString vm vm' result := by
  have hinit : Reachable (N := Int) fnvHashString (fun _ => 0) (fun _ => 0) false _ := Reachable.init rfl
  have henter := @Reachable.enter Int _ _ _ _ _ _ _ _ _ _ _ _ _ 8 assignLine _ hinit rfl rfl rfl
  have hstep := Reachable.step henter rfl
  obtain ⟨hresult, -, hclean⟩ := setGlobal_never_clean hstep rfl rfl rfl rfl
  exact ⟨_, _, _, _, rfl, hresult, hclean⟩

/-- In a new session the line `a=nil;` ends in the error that `a` is undefined, and then the line `a;` runs to its end. -/
theorem undefined_then_defined : ∃ vm vm₁ vm₂ : Vm Int, vmInit fnvHashString = some vm ∧
    VmInterpret fnvHashString (fun _ => 0) (fun _ => 0) vm assignLine vm₁ (.runtimeError (.undefined [ascii 'a'])) ∧
      VmInterpret fnvHashString (fun _ => 0) (fun _ => 0) vm₁ [ascii 'a', ascii ';'] vm₂ .ok := by
  exact ⟨_, _, _, rfl,
    @VmInterpret.run Int _ _ _ _ _ _ _ _ _ _ _ _ _ 8 _ _ _ _ rfl rfl rfl (.goesOn rfl (.returns rfl)),
    @VmInterpret.run Int _ _ _ _ _ _ _ _ _ _ _ _ _ 8 _ _ _ _ rfl rfl rfl (.goesOn rfl (.goesOn rfl (.goesOn rfl (.returns rfl))))⟩

end Reading.Clox
