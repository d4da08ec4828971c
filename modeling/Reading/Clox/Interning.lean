import Reading.Clox.Vm

/-!
# Equal strings are the same object

A string object enters the constants, the stack or the globals through `vmstring_copy` or `vmstring_take` alone, or from one of these places. So all of them stay in the table of strings, in which no two have the same characters.
-/

namespace Reading.Clox

open Reading.Lib

variable {N : Type} {hashString : Chars → Nat}

namespace Vm

/-- The string of the value, if it is one, is in the table of strings. -/
def Knows (vm : Vm N) (value : Value N) : Prop := ∀ string ∈ value.strings, vm.objects.strings.Has string

variable (hashString) in
/-- The table of strings holds every string that the machine refers to. -/
structure Interned (vm : Vm N) : Prop where
  objects : vm.objects.Interned hashString
  cells : ∀ i, vm.Knows (vm.cells i)
  globals : vm.globals.Valid (VmString.hash hashString)
  bindings : ∀ key value, contents vm.globals.entries key = some value → vm.objects.strings.Has key ∧ vm.Knows value

variable {vm vm' : Vm N} {value : Value N}

section Stack

/-- The frames and the height of the stack do not matter. -/
theorem Interned.of_eq (h : vm.Interned hashString) (hobjects : vm'.objects = vm.objects) (hcells : vm'.cells = vm.cells)
    (hglobals : vm'.globals = vm.globals) : vm'.Interned hashString := by
  constructor
  · rw [hobjects]
    exact h.objects
  · intro i
    rw [Knows, hobjects, hcells]
    exact h.cells i
  · rw [hglobals]
    exact h.globals
  · intro key value
    rw [Knows, hobjects, hglobals]
    exact h.bindings key value

theorem Interned.update (h : vm.Interned hashString) (hvalue : vm.Knows value) (cell : Nat) :
    { vm with cells := Function.update vm.cells cell value }.Interned hashString := by
  refine ⟨h.objects, fun i => ?_, h.globals, h.bindings⟩
  by_cases hi : i = cell
  · subst hi
    simpa [Knows] using hvalue
  · simpa [Knows, Function.update_of_ne hi] using h.cells i

theorem Interned.push (h : vm.Interned hashString) (hvalue : vm.Knows value) (hpush : vm.push value = some vm') :
    vm'.Interned hashString := by
  rw [Vm.push] at hpush
  split at hpush
  · cases hpush
    exact (h.update hvalue vm.top).of_eq rfl rfl rfl
  · cases hpush

/-- The same after the frames or the height of the stack were changed. -/
theorem Interned.pushOn (h : vm.Interned hashString) (hvalue : vm.Knows value) {vm₁ : Vm N} (hpush : vm₁.push value = some vm')
    (hobjects : vm₁.objects = vm.objects) (hcells : vm₁.cells = vm.cells) (hglobals : vm₁.globals = vm.globals) :
    vm'.Interned hashString := by
  refine (h.of_eq hobjects hcells hglobals).push ?_ hpush
  rw [Knows, hobjects]
  exact hvalue

theorem Interned.pop (h : vm.Interned hashString) (hpop : vm.pop = some (value, vm')) :
    vm'.Interned hashString ∧ vm'.Knows value := by
  rw [Vm.pop] at hpop
  split at hpop
  · cases hpop
    exact ⟨h.of_eq rfl rfl rfl, h.cells _⟩
  · cases hpop

theorem Interned.peek (h : vm.Interned hashString) {distance : Nat} (hpeek : vm.peek distance = some value) : vm.Knows value := by
  rw [Vm.peek] at hpeek
  split at hpeek
  · cases hpeek
    exact h.cells _
  · cases hpeek

theorem Interned.runtimeError (h : vm.Interned hashString) {e : RuntimeError} {result : Option InterpretResult}
    (herror : some (vm.runtimeError e) = some (vm', result)) : vm'.Interned hashString := by
  cases herror
  exact h.of_eq rfl rfl rfl

/-- A value without a string. -/
theorem knows_of_nil (h : value.strings = []) : vm.Knows value := by
  intro string hstring
  rw [h] at hstring
  exact absurd hstring List.not_mem_nil

end Stack

/-! ### Reading code -/

section Read

theorem Interned.readByte (h : vm.Interned hashString) {byte : UInt8} (hread : vm.readByte = some (byte, vm')) :
    vm'.Interned hashString := by
  rw [Vm.readByte] at hread
  split at hread
  · cases hread
  · simp only [Option.bind_eq_bind, Option.bind_eq_some_iff] at hread
    obtain ⟨function, _, code, _, heq⟩ := hread
    cases heq
    exact h.of_eq rfl rfl rfl

theorem Interned.readShort (h : vm.Interned hashString) {offset : Nat} (hread : vm.readShort = some (offset, vm')) :
    vm'.Interned hashString := by
  simp only [Vm.readShort, Option.bind_eq_bind, Option.bind_eq_some_iff] at hread
  obtain ⟨⟨high, vm₁⟩, hhigh, ⟨low, vm₂⟩, hlow, heq⟩ := hread
  cases heq
  exact (h.readByte hhigh).readByte hlow

theorem Interned.readConstant (h : vm.Interned hashString) (hread : vm.readConstant = some (value, vm')) :
    vm'.Interned hashString ∧ vm'.Knows value := by
  simp only [Vm.readConstant, Option.bind_eq_bind, Option.bind_eq_some_iff] at hread
  obtain ⟨⟨index, vm₁⟩, hindex, frame, -, function, hfunction, constant, hconstant, heq⟩ := hread
  cases heq
  have h₁ := h.readByte hindex
  refine ⟨h₁, fun string hstring => h₁.objects.functions function (List.mem_of_getElem? hfunction) string ?_⟩
  exact List.mem_append_left _ (List.mem_flatMap.mpr ⟨value, List.mem_of_getElem? hconstant, hstring⟩)

theorem Interned.readString (h : vm.Interned hashString) {string : VmString} (hread : vm.readString = some (string, vm')) :
    vm'.Interned hashString ∧ vm'.objects.strings.Has string := by
  simp only [Vm.readString, Option.bind_eq_bind, Option.bind_eq_some_iff] at hread
  obtain ⟨⟨constant, vm₁⟩, hconstant, heq⟩ := hread
  obtain ⟨h₁, hknows⟩ := h.readConstant hconstant
  cases constant with
  | string s =>
    cases heq
    exact ⟨h₁, hknows _ (List.mem_singleton_self _)⟩
  | bool | nil | number | function | native => cases heq

theorem Interned.jump (h : vm.Interned hashString) {target : Nat → Option Nat} (hjump : vm.jump target = some vm') :
    vm'.Interned hashString := by
  rw [Vm.jump] at hjump
  split at hjump
  · cases hjump
  · simp only [Option.bind_eq_bind, Option.bind_eq_some_iff] at hjump
    obtain ⟨ip, _, heq⟩ := hjump
    cases heq
    exact h.of_eq rfl rfl rfl

end Read

/-! ### Strings and globals -/

section Tables

theorem Interned.intern (h : vm.Interned hashString) {chars : Chars} {string : VmString} {strings : Strings}
    (hcopy : vmstringCopy hashString vm.objects.strings chars = some (string, strings)) :
    { vm with objects := { vm.objects with strings := strings } }.Interned hashString ∧ strings.Has string := by
  obtain ⟨hvalid, -, hhas, hkept⟩ := vmstringCopy_ok h.objects.strings hcopy
  refine ⟨⟨⟨hvalid, fun f hf s hs => hkept s (h.objects.functions f hf s hs)⟩, fun i s hs => hkept s (h.cells i s hs), h.globals,
    fun key value hbinding => ?_⟩, hhas⟩
  obtain ⟨hkey, hvalue⟩ := h.bindings key value hbinding
  exact ⟨hkept key hkey, fun s hs => hkept s (hvalue s hs)⟩

theorem Interned.tableSet (h : vm.Interned hashString) {key : VmString} (hkey : vm.objects.strings.Has key) (hvalue : vm.Knows value)
    {new : Bool} {globals : Table VmString (Value N)}
    (hset : tableSet (VmString.hash hashString) vm.globals key value = some (new, globals)) :
    { vm with globals := globals }.Interned hashString := by
  obtain ⟨-, hvalid, hcontents⟩ := tableSet_ok h.globals hset
  refine ⟨h.objects, h.cells, hvalid, fun key' value' hbinding => ?_⟩
  rw [hcontents] at hbinding
  by_cases heq : key' = key
  · subst heq
    rw [Function.update_self] at hbinding
    cases hbinding
    exact ⟨hkey, hvalue⟩
  · rw [Function.update_of_ne heq] at hbinding
    exact h.bindings key' value' hbinding

end Tables

/-! ### Instructions -/

section Instructions

variable {result : Option InterpretResult}

theorem of_goOn {r : Option (Vm N)} (h : goOn r = some (vm', result)) : r = some vm' := by
  rw [goOn, Option.map_eq_some_iff] at h
  obtain ⟨vm, hr, heq⟩ := h
  cases heq
  exact hr

theorem Interned.binaryOp (h : vm.Interned hashString) {op : N → N → Value N} (hop : ∀ left right, (op left right).strings = [])
    (hexec : vm.binaryOp op = some (vm', result)) : vm'.Interned hashString := by
  simp only [Vm.binaryOp, Option.bind_eq_bind, Option.bind_eq_some_iff] at hexec
  obtain ⟨right, -, left, -, heq⟩ := hexec
  split at heq
  · exact h.pushOn (knows_of_nil (hop _ _)) (of_goOn heq) rfl rfl rfl
  · exact h.runtimeError heq

theorem Interned.concatenate (h : vm.Interned hashString) {a b : VmString} (hexec : vm.concatenate hashString a b = some vm') :
    vm'.Interned hashString := by
  simp only [Vm.concatenate, Option.bind_eq_bind, Option.bind_eq_some_iff] at hexec
  obtain ⟨⟨string, strings⟩, hcopy, hpush⟩ := hexec
  obtain ⟨hinterned, hhas⟩ := h.intern hcopy
  refine hinterned.pushOn ?_ hpush rfl rfl rfl
  simpa [Knows, Value.strings] using hhas

theorem Interned.add [Add N] (h : vm.Interned hashString) (hexec : vm.add hashString = some (vm', result)) :
    vm'.Interned hashString := by
  simp only [Vm.add, Option.bind_eq_bind, Option.bind_eq_some_iff] at hexec
  obtain ⟨right, -, left, -, heq⟩ := hexec
  split at heq
  · exact h.concatenate (of_goOn heq)
  · exact h.pushOn (knows_of_nil rfl) (of_goOn heq) rfl rfl rfl
  · exact h.runtimeError heq

theorem Interned.negate [Neg N] (h : vm.Interned hashString) (hexec : vm.negate = some (vm', result)) : vm'.Interned hashString := by
  simp only [Vm.negate, Option.bind_eq_bind, Option.bind_eq_some_iff] at hexec
  obtain ⟨value, -, heq⟩ := hexec
  split at heq
  · exact h.pushOn (knows_of_nil rfl) (of_goOn heq) rfl rfl rfl
  · exact h.runtimeError heq

theorem Interned.defineGlobal (h : vm.Interned hashString) (hexec : vm.defineGlobal hashString = some vm') : vm'.Interned hashString := by
  simp only [Vm.defineGlobal, Option.bind_eq_bind, Option.bind_eq_some_iff] at hexec
  obtain ⟨⟨name, vm₁⟩, hname, value, hvalue, ⟨new, globals⟩, hset, heq⟩ := hexec
  obtain ⟨h₁, hhas⟩ := h.readString hname
  cases heq
  exact (h₁.tableSet hhas (h₁.peek hvalue) hset).of_eq rfl rfl rfl

theorem Interned.getGlobal (h : vm.Interned hashString) (hexec : vm.getGlobal hashString = some (vm', result)) :
    vm'.Interned hashString := by
  simp only [Vm.getGlobal, Option.bind_eq_bind, Option.bind_eq_some_iff] at hexec
  obtain ⟨⟨name, vm₁⟩, hname, found, hget, heq⟩ := hexec
  obtain ⟨h₁, -⟩ := h.readString hname
  rw [tableGet_spec h₁.globals, Option.some_inj] at hget
  cases found with
  | some value => exact h₁.push (h₁.bindings _ _ hget).2 (of_goOn heq)
  | none =>
    exact h₁.runtimeError heq

theorem Interned.setGlobal (h : vm.Interned hashString) (hexec : vm.setGlobal hashString = some (vm', result)) :
    vm'.Interned hashString := by
  simp only [Vm.setGlobal, Option.bind_eq_bind, Option.bind_eq_some_iff] at hexec
  obtain ⟨⟨name, vm₁⟩, hname, value, hvalue, ⟨new, globals⟩, hset, heq⟩ := hexec
  obtain ⟨h₁, hhas⟩ := h.readString hname
  have h₂ := h₁.tableSet hhas (h₁.peek hvalue) hset
  split at heq
  · exact h₂.runtimeError heq
  · cases heq
    exact h₂

theorem Interned.getLocal (h : vm.Interned hashString) (hexec : vm.getLocal = some vm') : vm'.Interned hashString := by
  simp only [Vm.getLocal, Option.bind_eq_bind, Option.bind_eq_some_iff] at hexec
  obtain ⟨⟨index, vm₁⟩, hindex, slot, -, hpush⟩ := hexec
  have h₁ := h.readByte hindex
  exact h₁.push (h₁.cells slot) hpush

theorem Interned.setLocal (h : vm.Interned hashString) (hexec : vm.setLocal = some vm') : vm'.Interned hashString := by
  simp only [Vm.setLocal, Option.bind_eq_bind, Option.bind_eq_some_iff] at hexec
  obtain ⟨⟨index, vm₁⟩, hindex, slot, -, value, hvalue, heq⟩ := hexec
  have h₁ := h.readByte hindex
  cases heq
  exact h₁.update (h₁.peek hvalue) slot

theorem Interned.jumpIfFalse (h : vm.Interned hashString) (hexec : vm.jumpIfFalse = some vm') : vm'.Interned hashString := by
  simp only [Vm.jumpIfFalse, Option.bind_eq_bind, Option.bind_eq_some_iff] at hexec
  obtain ⟨⟨offset, vm₁⟩, hoffset, condition, -, heq⟩ := hexec
  have h₁ := h.readShort hoffset
  split at heq
  · exact h₁.jump heq
  · cases heq
    exact h₁

theorem Interned.loop (h : vm.Interned hashString) (hexec : vm.loop = some vm') : vm'.Interned hashString := by
  simp only [Vm.loop, Option.bind_eq_bind, Option.bind_eq_some_iff] at hexec
  obtain ⟨⟨offset, vm₁⟩, hoffset, heq⟩ := hexec
  exact (h.readShort hoffset).jump heq

theorem Interned.opReturn (h : vm.Interned hashString) (hexec : vm.opReturn = some (vm', result)) : vm'.Interned hashString := by
  simp only [Vm.opReturn, Option.bind_eq_bind, Option.bind_eq_some_iff] at hexec
  obtain ⟨⟨value, vm₁⟩, hpop, heq⟩ := hexec
  obtain ⟨h₁, hvalue⟩ := h.pop hpop
  split at heq
  · cases heq
  · cases heq
    exact h₁.of_eq rfl rfl rfl
  · exact h₁.pushOn hvalue (of_goOn heq) rfl rfl rfl

theorem Interned.call (h : vm.Interned hashString) {function argCount : Nat} (hcall : vm.call function argCount = some (vm', result)) :
    vm'.Interned hashString := by
  simp only [Vm.call, Option.bind_eq_bind, Option.bind_eq_some_iff] at hcall
  obtain ⟨f, -, heq⟩ := hcall
  split_ifs at heq
  · exact h.runtimeError heq
  · exact h.runtimeError heq
  · cases heq
    exact h.of_eq rfl rfl rfl

theorem Interned.valueCall (h : vm.Interned hashString) {clock : Nat → N} {argCount : Nat}
    (hcall : vm.valueCall clock value argCount = some (vm', result)) : vm'.Interned hashString := by
  cases value with
  | function f => exact h.call hcall
  | native =>
    rw [Vm.valueCall] at hcall
    split at hcall
    · simp only [Option.bind_eq_bind, Option.bind_eq_some_iff] at hcall
      obtain ⟨vm₁, hpush, heq⟩ := hcall
      cases heq
      exact h.pushOn (knows_of_nil rfl) hpush rfl rfl rfl
    · cases hcall
  | bool | nil | number | string => exact h.runtimeError hcall

variable {clock : Nat → N} [Add N] [Sub N] [Mul N] [Div N] [Neg N] [LT N] [DecidableLT N] [BEq N]

theorem Interned.execute (h : vm.Interned hashString) (op : OpCode) (hexec : vm.execute hashString clock op = some (vm', result)) :
    vm'.Interned hashString := by
  cases op with
  | negate => exact h.negate hexec
  | add => exact h.add hexec
  | subtract | multiply | divide | greater | less => exact h.binaryOp (fun _ _ => rfl) hexec
  | nil | true | false => exact h.push (knows_of_nil rfl) (of_goOn hexec)
  | «return» => exact h.opReturn hexec
  | defineGlobal => exact h.defineGlobal (of_goOn hexec)
  | getGlobal => exact h.getGlobal hexec
  | setGlobal => exact h.setGlobal hexec
  | getLocal => exact h.getLocal (of_goOn hexec)
  | setLocal => exact h.setLocal (of_goOn hexec)
  | jumpIfFalse => exact h.jumpIfFalse (of_goOn hexec)
  | loop => exact h.loop (of_goOn hexec)
  | constant =>
    simp only [Vm.execute, Option.bind_eq_bind, Option.bind_eq_some_iff] at hexec
    obtain ⟨⟨value, vm₁⟩, hconstant, heq⟩ := hexec
    obtain ⟨h₁, hvalue⟩ := h.readConstant hconstant
    exact h₁.pushOn hvalue (of_goOn heq) rfl rfl rfl
  | not =>
    simp only [Vm.execute, Option.bind_eq_bind, Option.bind_eq_some_iff] at hexec
    obtain ⟨⟨value, vm₁⟩, hpop, heq⟩ := hexec
    exact (h.pop hpop).1.push (knows_of_nil rfl) (of_goOn heq)
  | equal =>
    simp only [Vm.execute, Option.bind_eq_bind, Option.bind_eq_some_iff] at hexec
    obtain ⟨⟨right, vm₁⟩, hright, ⟨left, vm₂⟩, hleft, heq⟩ := hexec
    exact ((h.pop hright).1.pop hleft).1.push (knows_of_nil rfl) (of_goOn heq)
  | print =>
    simp only [Vm.execute, Option.bind_eq_bind, Option.bind_eq_some_iff] at hexec
    obtain ⟨⟨value, vm₁⟩, hpop, heq⟩ := hexec
    cases heq
    exact (h.pop hpop).1.of_eq rfl rfl rfl
  | pop =>
    simp only [Vm.execute, Option.bind_eq_bind, Option.bind_eq_some_iff] at hexec
    obtain ⟨⟨value, vm₁⟩, hpop, heq⟩ := hexec
    cases heq
    exact (h.pop hpop).1
  | jump =>
    simp only [Vm.execute, Option.bind_eq_bind, Option.bind_eq_some_iff] at hexec
    obtain ⟨⟨offset, vm₁⟩, hoffset, heq⟩ := hexec
    exact (h.readShort hoffset).jump (of_goOn heq)
  | call =>
    simp only [Vm.execute, Option.bind_eq_bind, Option.bind_eq_some_iff] at hexec
    obtain ⟨⟨argCount, vm₁⟩, hargs, callable, -, hcall⟩ := hexec
    exact (h.readByte hargs).valueCall hcall

theorem Interned.step (h : vm.Interned hashString) (hstep : vm.step hashString clock = some (vm', result)) :
    vm'.Interned hashString := by
  simp only [Vm.step, Option.bind_eq_bind, Option.bind_eq_some_iff] at hstep
  obtain ⟨⟨instruction, vm₁⟩, hread, heq⟩ := hstep
  have h₁ := h.readByte hread
  split at heq
  · exact h₁.execute _ heq
  · cases heq
    exact h₁

end Instructions

end Vm

/-! ### Sessions -/

section Sessions

variable {strtod : Chars → N} {clock : Nat → N} {vm vm' : Vm N}

theorem interned_nativeDefine (h : vm.Interned hashString) {name : Chars} (hdefine : nativeDefine hashString vm name = some vm') :
    vm'.Interned hashString := by
  simp only [nativeDefine, Option.bind_eq_bind, Option.bind_eq_some_iff] at hdefine
  obtain ⟨⟨string, strings⟩, hcopy, vm₁, hstring, vm₂, hnative, hdefine⟩ := hdefine
  obtain ⟨h₀, hhas⟩ := h.intern hcopy
  have h₁ := h₀.push (by simpa [Vm.Knows, Value.strings] using hhas) hstring
  have h₂ := h₁.push (Vm.knows_of_nil rfl) hnative
  split at hdefine
  · rename_i name hname
    simp only [Option.bind_eq_some_iff] at hdefine
    obtain ⟨⟨new, globals⟩, hset, ⟨value₁, vm₃⟩, hpop₁, ⟨value₂, vm₄⟩, hpop₂, heq⟩ := hdefine
    cases heq
    have hkey : vm₂.objects.strings.Has name := h₂.cells 0 name (by simp [hname, Value.strings])
    exact ((h₂.tableSet hkey (h₂.cells 1) hset).pop hpop₁).1.pop hpop₂ |>.1
  · cases hdefine

theorem interned_vmInit (hinit : vmInit hashString = some vm) : vm.Interned hashString := by
  refine interned_nativeDefine ⟨interned_empty, fun _ => Vm.knows_of_nil rfl, valid_tableInit, fun key value hbinding => ?_⟩ hinit
  exact nomatch hbinding

/-- The machine after the compiler has run. -/
theorem Vm.Interned.compiled (h : vm.Interned hashString) {depth : Nat} {code : Chars} {s : State N}
    (hs : compileSource hashString strtod depth vm.objects code = .ok s) : { vm with objects := s.objects }.Interned hashString := by
  obtain ⟨hobjects, hkept⟩ := compileSource_interned h.objects hs
  refine ⟨hobjects, fun i string hstring => hkept string (h.cells i string hstring), h.globals, fun key value hbinding => ?_⟩
  obtain ⟨hkey, hvalue⟩ := h.bindings key value hbinding
  exact ⟨hkept key hkey, fun string hstring => hkept string (hvalue string hstring)⟩

theorem Vm.Interned.enter (h : vm.Interned hashString) {depth : Nat} {code : Chars} {s : State N}
    (hs : compileSource hashString strtod depth vm.objects code = .ok s) (henter : vmEnter clock vm s = some vm') :
    vm'.Interned hashString := by
  simp only [vmEnter, Option.bind_eq_bind, Option.bind_eq_some_iff] at henter
  obtain ⟨vm₁, hpush, ⟨vm₂, result⟩, hcall, heq⟩ := henter
  have h₁ := (h.compiled hs).push (Vm.knows_of_nil rfl) hpush
  have h₂ := h₁.valueCall hcall
  cases result with
  | none =>
    cases heq
    exact h₂
  | some result => cases heq

variable [Add N] [Sub N] [Mul N] [Div N] [Neg N] [LT N] [DecidableLT N] [BEq N]

theorem Reachable.interned {running : Bool} (h : Reachable hashString strtod clock running vm) : vm.Interned hashString := by
  induction h with
  | init hinit => exact interned_vmInit hinit
  | reject _ hs _ ih => exact ih.compiled hs
  | enter _ hs _ henter ih => exact ih.enter hs henter
  | step _ hstep ih => exact ih.step hstep
  | leave _ hstep ih => exact ih.step hstep

/-- The string is a constant of a function, or on the stack, or the name or the value of a global variable. -/
def Vm.Appears (vm : Vm N) (string : VmString) : Prop :=
  (∃ f ∈ vm.objects.functions, ∃ value ∈ f.constants, string ∈ value.strings) ∨
    (∃ i < vm.top, string ∈ (vm.cells i).strings) ∨
      ∃ key value, Slot.live key value ∈ vm.globals.entries ∧ (string = key ∨ string ∈ value.strings)

omit [Add N] [Sub N] [Mul N] [Div N] [Neg N] [LT N] [DecidableLT N] [BEq N] in
theorem Vm.Interned.has (h : vm.Interned hashString) {string : VmString} (hstring : vm.Appears string) :
    vm.objects.strings.Has string := by
  obtain ⟨f, hf, value, hvalue, hmem⟩ | ⟨i, -, hmem⟩ | ⟨key, value, hlive, hmem⟩ := hstring
  · exact h.objects.functions f hf string (List.mem_append_left _ (List.mem_flatMap.mpr ⟨value, hvalue, hmem⟩))
  · exact h.cells i string hmem
  · obtain ⟨i, hi⟩ := List.getElem?_of_mem hlive
    obtain ⟨hkey, hvalue⟩ := h.bindings key value (h.globals.addressed.contents_eq_some.mpr ⟨i, hi⟩)
    obtain rfl | hmem := hmem
    · exact hkey
    · exact hvalue string hmem

/-- In every state of every session: strings with the same characters are one object, `values_equal` compares the characters, and `table_get` on the globals finds the variable of that name. -/
theorem strings_interned {running : Bool} (h : Reachable hashString strtod clock running vm) :
    (∀ a b, vm.Appears a → vm.Appears b → a.chars = b.chars → a = b) ∧
      (∀ a b, vm.Appears a → vm.Appears b → (valuesEqual (.string a : Value N) (.string b) = true ↔ a.chars = b.chars)) ∧
      ∀ a, vm.Appears a → ∃ found, tableGet (VmString.hash hashString) vm.globals a = some found ∧
        ∀ value, found = some value ↔ ∃ key, Slot.live key value ∈ vm.globals.entries ∧ key.chars = a.chars := by
  have hinterned := h.interned
  have hvalid := hinterned.objects.strings
  refine ⟨fun a b ha hb hchars => hvalid.interned a b (hinterned.has ha) (hinterned.has hb) hchars, fun a b ha hb => ?_, fun a ha => ?_⟩
  · constructor
    · intro hequal
      have haddr : a.addr = b.addr := by simpa [valuesEqual] using hequal
      rw [hvalid.object a b (hinterned.has ha) (hinterned.has hb) haddr]
    · intro hchars
      rw [hvalid.interned a b (hinterned.has ha) (hinterned.has hb) hchars]
      simp [valuesEqual]
  · refine ⟨_, tableGet_spec hinterned.globals a, fun value => ⟨fun hfound => ?_, ?_⟩⟩
    · obtain ⟨i, hi⟩ := hinterned.globals.addressed.contents_eq_some.mp hfound
      exact ⟨a, List.mem_of_getElem? hi, rfl⟩
    · rintro ⟨key, hlive, hchars⟩
      have hkey : vm.Appears key := .inr (.inr ⟨key, value, hlive, .inl rfl⟩)
      rw [← hvalid.interned key a (hinterned.has hkey) (hinterned.has ha) hchars]
      obtain ⟨i, hi⟩ := List.getElem?_of_mem hlive
      exact hinterned.globals.addressed.contents_eq_some.mpr ⟨i, hi⟩

end Sessions

/-- The source `"a";`, after its first instruction has put the string on the stack. -/
theorem strings_interned_constant : ∃ vm : Vm Int, Reachable (fun _ => 0) (fun _ => 0) (fun _ => 0) true vm ∧
    (∃ string, string.chars = [ascii 'a'] ∧ vm.Appears string) ∧
      ∀ a b, vm.Appears a → vm.Appears b → a.chars = b.chars → a = b := by
  have hinit : Reachable (N := Int) (fun _ => 0) (fun _ => 0) (fun _ => 0) false _ := Reachable.init rfl
  have henter := @Reachable.enter Int _ _ _ _ _ _ _ _ _ _ _ _ _ 12 [ascii '"', ascii 'a', ascii '"', ascii ';'] _ hinit rfl rfl rfl
  have hstep := Reachable.step henter rfl
  exact ⟨_, hstep, ⟨_, rfl, .inr (.inl ⟨1, by decide, List.mem_singleton_self _⟩)⟩, (strings_interned hstep).1⟩

end Reading.Clox
