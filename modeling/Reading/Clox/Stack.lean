import Reading.Clox.Interning
import Reading.Clox.Jumps
import Reading.Clox.Repl

/-!
# How high the stack gets

The stack has 256 places for each frame, but `call` counts the frames only, and nothing keeps a frame from taking more: an expression leaves a value on the stack for every operator that still waits for its right operand. `vm_stack_push` does not look at the end of the array.
-/

namespace Reading.Clox

variable {N : Type}

namespace Vm

/-! ### What an instruction does to the stack -/

section Pushes

variable (hashString : Chars → Nat)

/-- The value that an instruction pushes without having taken one. -/
def pushed (vm : Vm N) : OpCode → Option (Value N)
  | .constant => do
    let (value, _) ← vm.readConstant
    some value
  | .nil => some .nil
  | .true => some (.bool true)
  | .false => some (.bool false)
  | .getGlobal => do
    let (name, vm) ← vm.readString
    let found ← tableGet (VmString.hash hashString) vm.globals name
    found
  | .getLocal => do
    let (index, vm) ← vm.readByte
    let slot ← vm.slot index
    some (vm.cells slot)
  | _ => none

/-- The same for the next instruction. -/
def nextPushed (vm : Vm N) : Option (Value N) := do
  let (instruction, vm) ← vm.readByte
  let op ← OpCode.ofByte instruction
  vm.pushed hashString op

/-- The next instruction makes the stack higher. -/
def Pushes (vm : Vm N) : Prop := ∃ value, vm.nextPushed hashString = some value

/-- The next instruction writes behind the end of the stack. -/
def Overflows (vm : Vm N) : Prop := vm.Pushes hashString ∧ stackMax ≤ vm.top

end Pushes

/-- Where the frames begin, and the height of the stack. -/
def shape (vm : Vm N) : List Nat × Nat := (vm.frames.map CallFrame.slots, vm.top)

/-- What one instruction can do to the frames and the height. -/
inductive Moves (pushes : Prop) : List Nat × Nat → List Nat × Nat → Prop where
  | lower {slots : List Nat} {top top' : Nat} : top' ≤ top → Moves pushes (slots, top) (slots, top')
  | push {slots : List Nat} {top : Nat} : pushes → Moves pushes (slots, top) (slots, top + 1)
  | call {slots : List Nat} {slot top : Nat} : slots.length ≠ framesMax → slot < top → Moves pushes (slots, top) (slot :: slots, top)
  | return {slots : List Nat} {slot top : Nat} : Moves pushes (slot :: slots, top) (slots, slot + 1)
  | leave {slots : List Nat} {top top' : Nat} : top' ≤ top → Moves pushes (slots, top) ([], top')

section Shape

variable {vm vm' : Vm N} {value : Value N} {p : Prop}

theorem Moves.of_eq {a b : List Nat × Nat} (h : b = a) : Moves p a b := by
  rw [h]
  exact .lower (Nat.le_refl _)

theorem Moves.mono {q : Prop} {a b : List Nat × Nat} (hpq : p → q) (h : Moves p a b) : Moves q a b := by
  cases h with
  | lower hle => exact .lower hle
  | push hp => exact .push (hpq hp)
  | call hlength hbelow => exact .call hlength hbelow
  | «return» => exact .return
  | leave hle => exact .leave hle

theorem push_shape (h : vm.push value = some vm') : vm'.shape = (vm.shape.1, vm.top + 1) := by
  obtain ⟨hframes, htop⟩ := push_top h
  rw [shape, hframes, htop]
  rfl

theorem pop_shape (h : vm.pop = some (value, vm')) : vm.shape = (vm'.shape.1, vm'.top + 1) := by
  obtain ⟨hframes, htop⟩ := pop_top h
  rw [shape, ← hframes, ← htop]
  rfl

theorem readByte_shape {byte : UInt8} (h : vm.readByte = some (byte, vm')) : vm'.shape = vm.shape := by
  rw [readByte] at h
  split at h
  · cases h
  · rename_i frame frames hframes
    obtain ⟨function, -, h⟩ := Option.bind_eq_some_iff.mp h
    obtain ⟨byte, -, h⟩ := Option.bind_eq_some_iff.mp h
    cases h
    rw [shape, shape, hframes]
    rfl

theorem readShort_shape {offset : Nat} (h : vm.readShort = some (offset, vm')) : vm'.shape = vm.shape := by
  obtain ⟨⟨high, vm₁⟩, hhigh, h⟩ := Option.bind_eq_some_iff.mp h
  obtain ⟨⟨low, vm₂⟩, hlow, h⟩ := Option.bind_eq_some_iff.mp h
  cases h
  exact (readByte_shape hlow).trans (readByte_shape hhigh)

theorem readConstant_shape (h : vm.readConstant = some (value, vm')) : vm'.shape = vm.shape := by
  obtain ⟨⟨index, vm₁⟩, hread, h⟩ := Option.bind_eq_some_iff.mp h
  obtain ⟨frame, -, h⟩ := Option.bind_eq_some_iff.mp h
  obtain ⟨function, -, h⟩ := Option.bind_eq_some_iff.mp h
  obtain ⟨value, -, h⟩ := Option.bind_eq_some_iff.mp h
  cases h
  exact readByte_shape hread

theorem readString_shape {string : VmString} (h : vm.readString = some (string, vm')) : vm'.shape = vm.shape := by
  obtain ⟨⟨constant, vm₁⟩, hconstant, heq⟩ := Option.bind_eq_some_iff.mp h
  have hshape := readConstant_shape hconstant
  cases constant with
  | string s =>
    cases heq
    exact hshape
  | bool | nil | number | function | native => cases heq

theorem jump_shape {target : Nat → Option Nat} (h : vm.jump target = some vm') : vm'.shape = vm.shape := by
  rw [jump] at h
  split at h
  · cases h
  · rename_i frame frames hframes
    obtain ⟨ip, -, h⟩ := Option.bind_eq_some_iff.mp h
    cases h
    rw [shape, shape, hframes]
    rfl

theorem peek_lt {distance : Nat} (h : vm.peek distance = some value) : distance < vm.top := by
  rw [peek] at h
  split at h
  · assumption
  · cases h

end Shape

section Instructions

variable {hashString : Chars → Nat} {vm vm' : Vm N} {value : Value N} {p : Prop} {result : Option InterpretResult}

theorem Moves.pushes (hp : p) {vm₁ : Vm N} (hshape : vm₁.shape = vm.shape) (h : vm₁.push value = some vm') :
    Moves p vm.shape vm'.shape := by
  rw [push_shape h, ← hshape]
  exact .push hp

/-- Values are taken from the stack and one is put there. -/
theorem Moves.replaces {n : Nat} (hn : 0 < n) (htop : n ≤ vm.top) {vm₁ : Vm N} (hshape : vm₁.shape = (vm.shape.1, vm.top - n))
    (h : vm₁.push value = some vm') : Moves p vm.shape vm'.shape := by
  obtain ⟨hslots, htop₁⟩ := Prod.ext_iff.mp hshape
  rw [push_shape h, hslots]
  change vm₁.top = _ at htop₁
  exact .lower (by omega)

theorem Moves.runtimeError {e : RuntimeError} (h : some (vm.runtimeError e) = some (vm', result)) : Moves p vm.shape vm'.shape := by
  cases h
  exact .leave (Nat.zero_le _)

theorem Moves.binaryOp {op : N → N → Value N} (h : vm.binaryOp op = some (vm', result)) : Moves p vm.shape vm'.shape := by
  simp only [Vm.binaryOp, Option.bind_eq_bind, Option.bind_eq_some_iff] at h
  obtain ⟨right, -, left, hleft, heq⟩ := h
  split at heq
  · exact .replaces Nat.two_pos (peek_lt hleft) rfl (of_goOn heq)
  · exact .runtimeError heq

theorem Moves.add [Add N] (h : vm.add hashString = some (vm', result)) : Moves p vm.shape vm'.shape := by
  simp only [Vm.add, Option.bind_eq_bind, Option.bind_eq_some_iff] at h
  obtain ⟨right, -, left, hleft, heq⟩ := h
  split at heq
  · have hexec := of_goOn heq
    simp only [Vm.concatenate, Option.bind_eq_bind, Option.bind_eq_some_iff] at hexec
    obtain ⟨⟨string, strings⟩, -, hpush⟩ := hexec
    exact .replaces Nat.two_pos (peek_lt hleft) rfl hpush
  · exact .replaces Nat.two_pos (peek_lt hleft) rfl (of_goOn heq)
  · exact .runtimeError heq

theorem Moves.negate [Neg N] (h : vm.negate = some (vm', result)) : Moves p vm.shape vm'.shape := by
  simp only [Vm.negate, Option.bind_eq_bind, Option.bind_eq_some_iff] at h
  obtain ⟨value, hvalue, heq⟩ := h
  split at heq
  · exact .replaces Nat.one_pos (peek_lt hvalue) rfl (of_goOn heq)
  · exact .runtimeError heq

theorem Moves.defineGlobal (h : vm.defineGlobal hashString = some vm') : Moves p vm.shape vm'.shape := by
  simp only [Vm.defineGlobal, Option.bind_eq_bind, Option.bind_eq_some_iff] at h
  obtain ⟨⟨name, vm₁⟩, hname, value, -, ⟨new, globals⟩, -, heq⟩ := h
  cases heq
  rw [← readString_shape hname]
  exact .lower (Nat.sub_le _ _)

theorem Moves.getGlobal (h : vm.getGlobal hashString = some (vm', result)) :
    Moves (∃ value, vm.pushed hashString .getGlobal = some value) vm.shape vm'.shape := by
  simp only [Vm.getGlobal, Option.bind_eq_bind, Option.bind_eq_some_iff] at h
  obtain ⟨⟨name, vm₁⟩, hname, found, hget, heq⟩ := h
  rw [← readString_shape hname]
  cases found with
  | some value =>
    refine .pushes ⟨value, ?_⟩ rfl (of_goOn heq)
    simp only [pushed, hname, hget, Option.bind_eq_bind, Option.bind_some]
  | none => exact .runtimeError heq

theorem Moves.setGlobal (h : vm.setGlobal hashString = some (vm', result)) : Moves p vm.shape vm'.shape := by
  simp only [Vm.setGlobal, Option.bind_eq_bind, Option.bind_eq_some_iff] at h
  obtain ⟨⟨name, vm₁⟩, hname, value, -, ⟨new, globals⟩, -, heq⟩ := h
  rw [← readString_shape hname]
  split at heq
  · cases heq
    exact .leave (Nat.zero_le _)
  · cases heq
    exact .of_eq rfl

theorem Moves.getLocal (h : vm.getLocal = some vm') :
    Moves (∃ value, vm.pushed hashString .getLocal = some value) vm.shape vm'.shape := by
  simp only [Vm.getLocal, Option.bind_eq_bind, Option.bind_eq_some_iff] at h
  obtain ⟨⟨index, vm₁⟩, hindex, slot, hslot, hpush⟩ := h
  rw [← readByte_shape hindex]
  refine .pushes ⟨vm₁.cells slot, ?_⟩ rfl hpush
  simp only [pushed, hindex, hslot, Option.bind_eq_bind, Option.bind_some]

theorem Moves.setLocal (h : vm.setLocal = some vm') : Moves p vm.shape vm'.shape := by
  simp only [Vm.setLocal, Option.bind_eq_bind, Option.bind_eq_some_iff] at h
  obtain ⟨⟨index, vm₁⟩, hindex, slot, -, value, -, heq⟩ := h
  have hshape := readByte_shape hindex
  cases heq
  exact .of_eq hshape

theorem Moves.jumpIfFalse (h : vm.jumpIfFalse = some vm') : Moves p vm.shape vm'.shape := by
  simp only [Vm.jumpIfFalse, Option.bind_eq_bind, Option.bind_eq_some_iff] at h
  obtain ⟨⟨offset, vm₁⟩, hoffset, condition, -, heq⟩ := h
  rw [← readShort_shape hoffset]
  split at heq
  · exact .of_eq (jump_shape heq)
  · cases heq
    exact .of_eq rfl

theorem Moves.loop (h : vm.loop = some vm') : Moves p vm.shape vm'.shape := by
  simp only [Vm.loop, Option.bind_eq_bind, Option.bind_eq_some_iff] at h
  obtain ⟨⟨offset, vm₁⟩, hoffset, heq⟩ := h
  exact .of_eq ((jump_shape heq).trans (readShort_shape hoffset))

theorem Moves.opReturn (h : vm.opReturn = some (vm', result)) : Moves p vm.shape vm'.shape := by
  simp only [Vm.opReturn, Option.bind_eq_bind, Option.bind_eq_some_iff] at h
  obtain ⟨⟨value, vm₁⟩, hpop, heq⟩ := h
  rw [pop_shape hpop]
  split at heq
  · cases heq
  · cases heq
    exact .leave (Nat.le_succ _)
  · rename_i frame frames _ hframes
    rw [push_shape (of_goOn heq)]
    change Moves p (vm₁.frames.map CallFrame.slots, _) _
    rw [hframes]
    exact .return

/-- The frame of a function begins at the function, below its arguments. -/
theorem Moves.callFunction {function argCount : Nat} (h : vm.call function argCount = some (vm', result)) :
    Moves p vm.shape vm'.shape := by
  simp only [Vm.call, Option.bind_eq_bind, Option.bind_eq_some_iff] at h
  obtain ⟨f, -, heq⟩ := h
  split_ifs at heq with harity hfull htop
  · exact .runtimeError heq
  · exact .runtimeError heq
  · cases heq
    have hbelow : vm.top - argCount - 1 < vm.top := by omega
    refine .call ?_ hbelow
    rwa [List.length_map]

theorem Moves.valueCall {clock : Nat → N} {argCount : Nat} (h : vm.valueCall clock value argCount = some (vm', result)) :
    Moves p vm.shape vm'.shape := by
  cases value with
  | function f => exact .callFunction h
  | native =>
    rw [Vm.valueCall] at h
    split at h
    · rename_i htop
      obtain ⟨vm₁, hpush, heq⟩ := Option.bind_eq_some_iff.mp h
      cases heq
      exact .replaces (Nat.succ_pos argCount) htop rfl hpush
    · cases h
  | bool | nil | number | string => exact .runtimeError h

variable {clock : Nat → N} [Add N] [Sub N] [Mul N] [Div N] [Neg N] [LT N] [DecidableLT N] [BEq N]

theorem Moves.execute (op : OpCode) (h : vm.execute hashString clock op = some (vm', result)) :
    Moves (∃ value, vm.pushed hashString op = some value) vm.shape vm'.shape := by
  cases op with
  | negate => exact .negate h
  | add => exact .add h
  | subtract | multiply | divide | greater | less => exact .binaryOp h
  | nil | true | false => exact .pushes ⟨_, rfl⟩ rfl (of_goOn h)
  | «return» => exact .opReturn h
  | defineGlobal => exact .defineGlobal (of_goOn h)
  | getGlobal => exact .getGlobal h
  | setGlobal => exact .setGlobal h
  | getLocal => exact .getLocal (of_goOn h)
  | setLocal => exact .setLocal (of_goOn h)
  | jumpIfFalse => exact .jumpIfFalse (of_goOn h)
  | loop => exact .loop (of_goOn h)
  | jump =>
    obtain ⟨⟨offset, vm₁⟩, hoffset, heq⟩ := Option.bind_eq_some_iff.mp h
    exact .of_eq ((jump_shape (of_goOn heq)).trans (readShort_shape hoffset))
  | constant =>
    obtain ⟨⟨value, vm₁⟩, hvalue, heq⟩ := Option.bind_eq_some_iff.mp h
    rw [← readConstant_shape hvalue]
    refine .pushes ⟨value, ?_⟩ ?_ (of_goOn heq)
    · simp only [pushed, hvalue, Option.bind_eq_bind, Option.bind_some]
    · rfl
  | not =>
    obtain ⟨⟨value, vm₁⟩, hpop, heq⟩ := Option.bind_eq_some_iff.mp h
    rw [pop_shape hpop, push_shape (of_goOn heq)]
    exact .lower (Nat.le_refl _)
  | equal =>
    obtain ⟨⟨right, vm₁⟩, hright, heq⟩ := Option.bind_eq_some_iff.mp h
    obtain ⟨⟨left, vm₂⟩, hleft, heq⟩ := Option.bind_eq_some_iff.mp heq
    rw [pop_shape hright, pop_shape hleft, push_shape (of_goOn heq)]
    exact .lower (Nat.succ_le_succ ((Nat.le_succ _).trans_eq (pop_top hleft).2))
  | print =>
    obtain ⟨⟨value, vm₁⟩, hpop, heq⟩ := Option.bind_eq_some_iff.mp h
    cases heq
    rw [pop_shape hpop]
    exact .lower (Nat.le_succ _)
  | pop =>
    obtain ⟨⟨value, vm₁⟩, hpop, heq⟩ := Option.bind_eq_some_iff.mp h
    cases heq
    rw [pop_shape hpop]
    exact .lower (Nat.le_succ _)
  | call =>
    obtain ⟨⟨argCount, vm₁⟩, hcount, heq⟩ := Option.bind_eq_some_iff.mp h
    obtain ⟨callable, -, heq⟩ := Option.bind_eq_some_iff.mp heq
    rw [← readByte_shape hcount]
    exact .valueCall heq

/-- One round of `vm_run`. -/
theorem step_moves (h : vm.step hashString clock = some (vm', result)) : Moves (vm.Pushes hashString) vm.shape vm'.shape := by
  obtain ⟨⟨instruction, vm₁⟩, hread, heq⟩ := Option.bind_eq_some_iff.mp h
  rw [← readByte_shape hread]
  cases hop : OpCode.ofByte instruction with
  | none =>
    simp only [hop] at heq
    cases heq
    exact .of_eq rfl
  | some op =>
    simp only [hop] at heq
    have hpushes : (∃ value, vm₁.pushed hashString op = some value) → vm.Pushes hashString := by
      rintro ⟨value, hvalue⟩
      refine ⟨value, ?_⟩
      simp only [nextPushed, hread, hop, hvalue, Option.bind_eq_bind, Option.bind_some]
    exact (Moves.execute op heq).mono hpushes

end Instructions

/-! ### Frames that keep to their part of the stack -/

/-- The places of the frames in use; with none in use there are those of the first. -/
def places (slots : List Nat) : Nat := 256 * max 1 slots.length

/-- The values are no more than the places, and were no more when each of the frames was called. -/
def Layered : List Nat → Nat → Prop
  | [], top => top ≤ places []
  | slot :: slots, top => top ≤ places (slot :: slots) ∧ Layered slots (slot + 1)

/-- There are fewer values than places. -/
def Room (shape : List Nat × Nat) : Prop := shape.2 < places shape.1

instance (shape : List Nat × Nat) : Decidable (Room shape) := inferInstanceAs (Decidable (_ < _))

structure Within (shape : List Nat × Nat) : Prop where
  frames : shape.1.length ≤ framesMax
  stack : shape.2 ≤ stackMax
  layered : shape.1 ≠ [] → Layered shape.1 shape.2

theorem Layered.mono {slots : List Nat} {top top' : Nat} (h : Layered slots top) (hle : top' ≤ top) : Layered slots top' := by
  cases slots with
  | nil => exact hle.trans h
  | cons slot slots => exact ⟨hle.trans h.1, h.2⟩

theorem Layered.le {slots : List Nat} {top : Nat} (h : Layered slots top) : top ≤ places slots := by
  cases slots with
  | nil => exact h
  | cons slot slots => exact h.1

theorem places_cons (slot : Nat) (slots : List Nat) : places slots ≤ places (slot :: slots) := by
  unfold places
  rw [List.length_cons]
  omega

theorem Layered.le_stackMax {slots : List Nat} {top : Nat} (h : Layered slots top) (hlength : slots.length ≤ framesMax) :
    top ≤ stackMax := by
  have hle := h.le
  unfold places at hle
  change slots.length ≤ 64 at hlength
  change top ≤ 64 * 256
  omega

/-- Where there is room for a value it may be pushed. -/
theorem Within.pushed {slots : List Nat} {top : Nat} (h : Within (slots, top)) (hroom : Room (slots, top)) : Layered slots (top + 1) := by
  cases slots with
  | nil => exact hroom
  | cons slot slots => exact ⟨hroom, (h.layered (List.cons_ne_nil _ _)).2⟩

theorem Within.lt_stackMax {shape : List Nat × Nat} (h : Within shape) (hroom : Room shape) : shape.2 < stackMax :=
  (h.pushed hroom).le_stackMax h.frames

theorem Within.of_layered {slots : List Nat} {top : Nat} (hlength : slots.length ≤ framesMax) (h : Layered slots top) :
    Within (slots, top) := ⟨hlength, h.le_stackMax hlength, fun _ => h⟩

theorem Within.moves {a b : List Nat × Nat} {p : Prop} (h : Within a) (hlayered : Layered a.1 a.2) (hmoves : Moves p a b)
    (hroom : p → Room a) : Within b := by
  cases hmoves with
  | lower hle => exact .of_layered h.frames (hlayered.mono hle)
  | push hp => exact .of_layered h.frames (h.pushed (hroom hp))
  | @call slots slot top hlength hbelow =>
    exact .of_layered (Nat.lt_of_le_of_ne h.frames hlength) ⟨hlayered.le.trans (places_cons slot slots), hlayered.mono hbelow⟩
  | «return» => exact .of_layered (Nat.le_of_succ_le h.frames) hlayered.2
  | leave hle => exact ⟨Nat.zero_le _, hle.trans h.stack, fun hne => absurd rfl hne⟩

theorem shape_ne_nil_of_step {vm : Vm N} {hashString : Chars → Nat} {clock : Nat → N} [Add N] [Sub N] [Mul N] [Div N] [Neg N] [LT N]
    [DecidableLT N] [BEq N] {x : Vm N × Option InterpretResult} (h : vm.step hashString clock = some x) : vm.shape.1 ≠ [] := by
  obtain ⟨⟨instruction, vm₁⟩, hread, -⟩ := Option.bind_eq_some_iff.mp h
  intro hnil
  rw [readByte, List.map_eq_nil_iff.mp hnil] at hread
  cases hread

end Vm

/-! ### Runs in which the frames keep to their part -/

section Runs

variable (hashString : Chars → Nat) (strtod : Chars → N) (clock : Nat → N)

variable [Add N] [Sub N] [Mul N] [Div N] [Neg N] [LT N] [DecidableLT N] [BEq N]

/-- The reachable states, where there is room whenever a value is pushed, and for the script that is called. -/
inductive ReachableWithRoom : Bool → Vm N → Prop where
  | init {vm : Vm N} : vmInit hashString = some vm → ReachableWithRoom false vm
  | reject {vm : Vm N} {depth : Nat} {code : Chars} {s : State N} : ReachableWithRoom false vm →
      compileSource hashString strtod depth vm.objects code = .ok s → s.hadError = true →
      ReachableWithRoom false { vm with objects := s.objects }
  | enter {vm vm' : Vm N} {depth : Nat} {code : Chars} {s : State N} : ReachableWithRoom false vm →
      compileSource hashString strtod depth vm.objects code = .ok s → s.hadError = false → Vm.Room vm.shape →
      vmEnter clock vm s = some vm' → ReachableWithRoom true vm'
  | step {vm vm' : Vm N} : ReachableWithRoom true vm → (vm.Pushes hashString → Vm.Room vm.shape) →
      vm.step hashString clock = some (vm', none) → ReachableWithRoom true vm'
  | leave {vm vm' : Vm N} {result : InterpretResult} : ReachableWithRoom true vm → (vm.Pushes hashString → Vm.Room vm.shape) →
      vm.step hashString clock = some (vm', some result) → ReachableWithRoom false vm'

variable {hashString strtod clock} {vm vm' : Vm N}

omit [Add N] [Sub N] [Mul N] [Div N] [Neg N] [LT N] [DecidableLT N] [BEq N] in
theorem vmEnter_within {s : State N} (h : Vm.Within vm.shape) (hroom : Vm.Room vm.shape) (henter : vmEnter clock vm s = some vm') :
    Vm.Within vm'.shape := by
  obtain ⟨vm₁, hpush, hcall⟩ := Option.bind_eq_some_iff.mp henter
  obtain ⟨⟨vm₂, result⟩, hcall, heq⟩ := Option.bind_eq_some_iff.mp hcall
  have hlayered : Vm.Layered vm.shape.1 (vm.top + 1) := h.pushed hroom
  have hmoves : Vm.Moves False vm₁.shape vm₂.shape := .valueCall hcall
  rw [Vm.push_shape hpush] at hmoves
  cases result with
  | none =>
    cases heq
    exact (Vm.Within.of_layered h.frames hlayered).moves hlayered hmoves False.elim
  | some result => cases heq

theorem ReachableWithRoom.within {running : Bool} (h : ReachableWithRoom hashString strtod clock running vm) : Vm.Within vm.shape := by
  induction h with
  | init hinit =>
    obtain ⟨hframes, htop⟩ := vmInit_empty hinit
    rw [Vm.shape, hframes, htop]
    exact .of_layered (Nat.zero_le _) (Nat.zero_le _)
  | reject _ _ _ ih => exact ih
  | enter _ _ _ hroom henter ih => exact vmEnter_within ih hroom henter
  | step _ hroom hstep ih => exact ih.moves (ih.layered (Vm.shape_ne_nil_of_step hstep)) (Vm.step_moves hstep) hroom
  | leave _ hroom hstep ih => exact ih.moves (ih.layered (Vm.shape_ne_nil_of_step hstep)) (Vm.step_moves hstep) hroom

variable (hashString clock) in
/-- So many instructions, each with room for a value. -/
def runWithRoom : Nat → Vm N → Option (Vm N)
  | 0, vm => some vm
  | n + 1, vm =>
    if Vm.Room vm.shape then
      match vm.step hashString clock with
      | some (vm, none) => runWithRoom n vm
      | _ => none
    else none

theorem ReachableWithRoom.run {n : Nat} (h : ReachableWithRoom hashString strtod clock true vm)
    (hrun : runWithRoom hashString clock n vm = some vm') : ReachableWithRoom hashString strtod clock true vm' := by
  induction n generalizing vm with
  | zero =>
    cases hrun
    exact h
  | succ n ih =>
    rw [runWithRoom] at hrun
    split at hrun
    · rename_i hroom
      split at hrun
      · rename_i hstep
        exact ih (h.step (fun _ => hroom) hstep) hrun
      · cases hrun
    · cases hrun

/-- The stack is never too high, nor does the next instruction write behind its end. -/
theorem stack_bounded {running : Bool} (h : ReachableWithRoom hashString strtod clock running vm) :
    vm.top ≤ stackMax ∧ ((vm.Pushes hashString → Vm.Room vm.shape) → ¬vm.Overflows hashString) := by
  refine ⟨h.within.stack, ?_⟩
  rintro hroom ⟨hpushes, hfull⟩
  exact absurd (h.within.lt_stackMax (hroom hpushes)) (Nat.not_lt.mpr hfull)

end Runs

/-- `fun f(a){return a==nil;}nil==(nil==f(nil));`. -/
def waitingCall : Chars :=
  ['f', 'u', 'n', ' ', 'f', '(', 'a', ')', '{', 'r', 'e', 't', 'u', 'r', 'n', ' ', 'a', '=', '=', 'n', 'i', 'l', ';', '}',
    'n', 'i', 'l', '=', '=', '(', 'n', 'i', 'l', '=', '=', 'f', '(', 'n', 'i', 'l', ')', ')', ';'].map ascii

/-- Two operands wait below the call of a function, which has pushed two more. -/
theorem stack_bounded_waitingCall : ∃ vm : Vm Int, ReachableWithRoom (fun _ => 0) (fun _ => 0) (fun _ => 0) true vm ∧
    vm.shape = ([3, 0], 7) ∧ vm.top ≤ stackMax ∧ ((vm.Pushes (fun _ => 0) → Vm.Room vm.shape) → ¬vm.Overflows fun _ => 0) := by
  obtain ⟨vm, vm₁, vm₂, s, hvm, hs, herror, hroom, henter, hrun, hshape⟩ : ∃ vm vm₁ vm₂ : Vm Int, ∃ s, vmInit (fun _ => 0) = some vm ∧
      compileSource (fun _ => 0) (fun _ => 0) 14 vm.objects waitingCall = .ok s ∧ s.hadError = false ∧ Vm.Room vm.shape ∧
      vmEnter (fun _ => 0) vm s = some vm₁ ∧ runWithRoom (fun _ => 0) (fun _ => 0) 9 vm₁ = some vm₂ ∧ vm₂.shape = ([3, 0], 7) :=
    ⟨_, _, _, _, rfl, rfl, rfl, by decide, rfl, rfl, rfl⟩
  have hinit : ReachableWithRoom (fun _ => 0) (fun _ => 0) (fun _ => 0) false vm := .init hvm
  have hcalled := (hinit.enter hs herror hroom henter).run hrun
  exact ⟨vm₂, hcalled, hshape, stack_bounded hcalled⟩

/-! ### Nested expressions -/

section Nested

/-- What follows `nil ` in an expression with so many nested subtractions. -/
def nestedIn : Nat → Chars → Chars
  | 0, rest => rest
  | n + 1, rest => ['-', '(', 'n', 'i', 'l', ' '].map ascii ++ nestedIn n (ascii ')' :: rest)

/-- `nil -(nil -(nil …));`. -/
def nested (n : Nat) : Chars := ['n', 'i', 'l', ' '].map ascii ++ nestedIn n [ascii ';']

def token (type : TokenType) (lexeme : List Char) : Token := { type := type, lexeme := lexeme.map ascii }

def nilToken : Token := token .nilKey ['n', 'i', 'l']

/-- The tokens of `nestedIn`. -/
def nestedTokens : Nat → List Token → List Token
  | 0, rest => rest
  | n + 1, rest => token .minus ['-'] :: token .leftParen ['('] :: nilToken :: nestedTokens n (token .rightParen [')'] :: rest)

theorem toknzr_cons (c : UInt8) (code : Chars) : toknzr (c :: code) = (toknzrStep c code).1.toList ++ toknzr (toknzrStep c code).2 := by
  rw [toknzr, List.length_cons, toknzrLoop, toknzr, toknzrLoop_rounds (toknzrStep_length c code) (Nat.le_refl _)]

theorem toknzr_nil (code : Chars) : toknzr (['n', 'i', 'l', ' '].map ascii ++ code) = nilToken :: toknzr code := by
  have hword : toknzr (['n', 'i', 'l', ' '].map ascii ++ code) = nilToken :: toknzr (ascii ' ' :: code) := toknzr_cons _ _
  rw [hword, toknzr_cons]
  rfl

theorem toknzr_nestedIn (n : Nat) (rest : Chars) : toknzr (nestedIn n rest) = nestedTokens n (toknzr rest) := by
  induction n generalizing rest with
  | zero => rfl
  | succ n ih =>
    have hminus (code : Chars) : toknzr (ascii '-' :: code) = token .minus ['-'] :: toknzr code := toknzr_cons _ _
    have hleft (code : Chars) : toknzr (ascii '(' :: code) = token .leftParen ['('] :: toknzr code := toknzr_cons _ _
    have hright (code : Chars) : toknzr (ascii ')' :: code) = token .rightParen [')'] :: toknzr code := toknzr_cons _ _
    change toknzr (ascii '-' :: ascii '(' :: (['n', 'i', 'l', ' '].map ascii ++ nestedIn n (ascii ')' :: rest))) = _
    rw [hminus, hleft, toknzr_nil, ih, hright]
    rfl

theorem toknzr_nested (n : Nat) : toknzr (nested n) = nilToken :: nestedTokens n [token .semicolon [';'], endToken] := by
  rw [nested, toknzr_nil, toknzr_nestedIn]
  rfl

variable {hashString : Chars → Nat} {strtod : Chars → N} {recover : State N → Except Stop (State N)}

/-- The parser has read up to the token, and this code has been emitted. -/
def State.after (s : State N) (code : List UInt8) (previous current : Token) (following : List Token) : State N :=
  { s.modify fun f => { f with code := f.code ++ code } with previous := previous, current := current, following := following }

def nestedCode (n : Nat) : List UInt8 := List.replicate (n + 1) OpCode.nil.toByte ++ List.replicate n OpCode.subtract.toByte

theorem nestedCode_succ (n : Nat) : nestedCode (n + 1) = OpCode.nil.toByte :: (nestedCode n ++ [OpCode.subtract.toByte]) := by
  rw [nestedCode, nestedCode, List.append_assoc, ← List.replicate_succ']
  rfl

theorem expression_nested (n : Nat) (s : State N) (next : Token) (rest : List Token)
    (hnext : next = token .rightParen [')'] ∨ next = token .semicolon [';']) :
    ∃ previous, run hashString strtod recover (3 * n + 2) (.precParse Prec.assignment)
      { s with current := nilToken, following := nestedTokens n (next :: rest) } =
        .ok (s.after (nestedCode n) previous next rest) := by
  induction n generalizing s next rest with
  | zero =>
    refine ⟨nilToken, ?_⟩
    obtain rfl | rfl := hnext <;> rfl
  | succ n ih =>
    let parse (depth : Nat) := run hashString strtod recover (3 * n + depth)
    let left : State N := { s.after [OpCode.nil.toByte] nilToken (token .minus ['-']) [] with
      following := token .leftParen ['('] :: nilToken :: nestedTokens n (token .rightParen [')'] :: next :: rest) }
    let inner : State N := { s.after [OpCode.nil.toByte] (token .leftParen ['(']) nilToken [] with
      following := nestedTokens n (token .rightParen [')'] :: next :: rest) }
    obtain ⟨previous, hinner⟩ := ih inner (token .rightParen [')']) (next :: rest) (.inl rfl)
    have hgroup : parse 3 (.precParse (Prec.term + 1)) (advance left) =
        ((parse 2 (.precParse Prec.assignment) inner).bind fun t => .ok (consume t .rightParen "Expect ')' after expression.")).bind
          fun t => (parse 2 (.infixLoop (Prec.term + 1) false) t).bind .ok := rfl
    have hminus : parse 4 (.infixLoop Prec.assignment true) left =
        ((parse 3 (.precParse (Prec.term + 1)) (advance left)).bind fun t => .ok (emitOp t .subtract)).bind
          fun t => parse 3 (.infixLoop Prec.assignment true) t := rfl
    have hexpr : parse 5 (.precParse Prec.assignment) { s with
        current := nilToken, following := nestedTokens (n + 1) (next :: rest) } =
          (parse 4 (.infixLoop Prec.assignment true) left).bind fun t =>
            if check t .equal then expression (parse 4) (error (advance t) "Invalid assignment target.") else .ok t := rfl
    have hinner' : parse 2 (.precParse Prec.assignment) inner =
        .ok (inner.after (nestedCode n) previous (token .rightParen [')']) (next :: rest)) := hinner
    have hcode : s.compiler.function.code ++ [OpCode.nil.toByte] ++ nestedCode n ++ [OpCode.subtract.toByte] =
        s.compiler.function.code ++ nestedCode (n + 1) := by
      rw [nestedCode_succ, List.append_assoc, List.append_assoc]
      rfl
    refine ⟨token .rightParen [')'], ?_⟩
    change parse 5 _ _ = _
    rw [State.after, State.modify, ← hcode, hexpr, hminus, hgroup, hinner']
    obtain rfl | rfl := hnext <;> rfl

/-- The compiler accepts the program. -/
theorem compileSource_nested (n : Nat) (objects : Objects N) :
    ∃ s f, compileSource hashString strtod (3 * n + 5) objects (nested n) = .ok s ∧ s.hadError = false ∧
      s.objects.functions = objects.functions ++ [f] ∧ f.arity = 0 ∧
      f.code = nestedCode n ++ [OpCode.pop.toByte, OpCode.nil.toByte, OpCode.return.toByte] := by
  let parse (depth : Nat) := run hashString strtod synchronize (3 * n + depth)
  let start : State N := State.initial objects nilToken (nestedTokens n [token .semicolon [';'], endToken])
  obtain ⟨previous, hexpr⟩ := @expression_nested N hashString strtod synchronize n start (token .semicolon [';']) [endToken] (.inr rfl)
  have hexpr' : parse 2 (.precParse Prec.assignment) start = .ok (start.after (nestedCode n) previous (token .semicolon [';']) [endToken]) :=
    hexpr
  have hprogram : parse 5 .program start =
      ((((parse 2 (.precParse Prec.assignment) start).bind fun t =>
        .ok (consume (emitOp t .pop) .semicolon "Expect ';' after expression.")).bind
          fun t => if t.panicMode then synchronize t else .ok t).bind fun t => parse 4 .program t) := rfl
  have hcompile : compileSource hashString strtod (3 * n + 5) objects (nested n) =
      (parse 5 .program start).bind fun t => .ok (compilerEnd t).1 := by
    rw [compileSource, toknzr_nested]
    rfl
  rw [hcompile, hprogram, hexpr']
  refine ⟨_, _, rfl, rfl, rfl, rfl, ?_⟩
  change [] ++ nestedCode n ++ [_] ++ [_] ++ [_] = _
  rw [List.nil_append, List.append_assoc, List.append_assoc]
  rfl

end Nested

/-! ### A program that needs too much -/

section Overflow

variable {hashString : Chars → Nat} {strtod : Chars → N} {clock : Nat → N} {vm : Vm N}

/-- The script is entered with nothing below its function. -/
theorem vmEnter_empty (hframes : vm.frames = []) (htop : vm.top = 0) {s : State N} {f : VmFunction N} {functions : List (VmFunction N)}
    (hfunctions : s.objects.functions = functions ++ [f]) (harity : f.arity = 0) :
    ∃ vm', vmEnter clock vm s = some vm' ∧ vm'.frames = [{ function := functions.length, ip := 0, slots := 0 }] ∧ vm'.top = 1 ∧
      vm'.objects = s.objects := by
  have hlast : s.objects.functions.length - 1 = functions.length := by rw [hfunctions, List.length_append]; rfl
  have hf : s.objects.functions[functions.length]? = some f := by rw [hfunctions]; exact List.getElem?_concat_length
  let vm₁ : Vm N := { vm with objects := s.objects, cells := Function.update vm.cells 0 (.function functions.length), top := 1 }
  have hpush : { vm with objects := s.objects }.push (.function functions.length) = some vm₁ := by
    rw [Vm.push, htop]
    rfl
  have hcall : vm₁.valueCall clock (.function functions.length) 0 =
      some ({ vm₁ with frames := [{ function := functions.length, ip := 0, slots := 0 }] }, none) := by
    change vm₁.call functions.length 0 = _
    have hf₁ : vm₁.objects.functions[functions.length]? = some f := hf
    have hframes₁ : vm₁.frames = [] := hframes
    rw [Vm.call, hf₁, Option.bind_eq_bind, Option.bind_some, hframes₁, harity]
    rfl
  refine ⟨{ vm₁ with frames := [{ function := functions.length, ip := 0, slots := 0 }] }, ?_, rfl, rfl, rfl⟩
  rw [vmEnter, hlast, hpush, Option.bind_eq_bind, Option.bind_some, hcall]
  rfl

variable [Add N] [Sub N] [Mul N] [Div N] [Neg N] [LT N] [DecidableLT N] [BEq N]

/-- The instructions `nil` at the beginning of a script fill the stack. -/
theorem reachable_nil (h : Reachable hashString strtod clock true vm) {k n : Nat} {f : VmFunction N}
    (hframes : vm.frames = [{ function := k, ip := 0, slots := 0 }]) (htop : vm.top = 1) (hf : vm.objects.functions[k]? = some f)
    (hcode : ∀ i < n, f.code[i]? = some OpCode.nil.toByte) (hn : n < stackMax) :
    ∃ vm', Reachable hashString strtod clock true vm' ∧ vm'.frames = [{ function := k, ip := n, slots := 0 }] ∧ vm'.top = n + 1 ∧
      vm'.objects = vm.objects := by
  induction n with
  | zero => exact ⟨vm, h, hframes, htop, rfl⟩
  | succ n ih =>
    obtain ⟨vm', hreach, hframes', htop', hobjects⟩ := ih (fun i hi => hcode i (Nat.lt_succ_of_lt hi)) (Nat.lt_of_succ_lt hn)
    have hread := Vm.readByte_eq hframes' (by rw [hobjects]; exact hf) (hcode n (Nat.lt_succ_self n))
    have hroom : vm'.top < stackMax := by
      rw [htop']
      exact hn
    have hstep : vm'.step hashString clock = Vm.goOn (Vm.push _ .nil) := Vm.step_eq hread
    rw [Vm.push, if_pos hroom] at hstep
    exact ⟨_, .step hreach hstep, rfl, congrArg (· + 1) htop', hobjects⟩

/-- A subtraction is nested so deeply that there are more values than places. -/
theorem nested_overflows {n : Nat} (hn : stackMax ≤ n + 1) (h : Reachable hashString strtod clock false vm) (hframes : vm.frames = [])
    (htop : vm.top = 0) : ∃ s vm', compileSource hashString strtod (3 * n + 5) vm.objects (nested n) = .ok s ∧ s.hadError = false ∧
      Reachable hashString strtod clock true vm' ∧ vm'.objects = s.objects ∧ vm'.Overflows hashString := by
  obtain ⟨s, f, hcompile, herror, hfunctions, harity, hcode⟩ := @compileSource_nested N hashString strtod n vm.objects
  obtain ⟨vm₁, henter, hframes₁, htop₁, hobjects₁⟩ := @vmEnter_empty N clock vm hframes htop s f _ hfunctions harity
  have hf : vm₁.objects.functions[vm.objects.functions.length]? = some f := by
    rw [hobjects₁, hfunctions]
    exact List.getElem?_concat_length
  have hnil (i : Nat) (hi : i ≤ n) : f.code[i]? = some OpCode.nil.toByte := by
    rw [hcode, nestedCode, List.append_assoc, List.getElem?_append_left (by rw [List.length_replicate]; exact Nat.lt_succ_of_le hi),
      List.getElem?_replicate, if_pos (Nat.lt_succ_of_le hi)]
  have hmax : stackMax - 1 < stackMax := by decide
  have hle : stackMax - 1 ≤ n := Nat.sub_le_of_le_add hn
  obtain ⟨vm', hreach, hframes', htop', hobjects'⟩ := reachable_nil (.enter h hcompile herror henter) hframes₁ htop₁ hf
    (fun i hi => hnil i (Nat.le_of_lt (Nat.lt_of_lt_of_le hi hle))) hmax
  have hread := Vm.readByte_eq hframes' (by rw [hobjects']; exact hf) (hnil _ hle)
  refine ⟨s, vm', hcompile, herror, hreach, hobjects'.trans hobjects₁, ⟨.nil, ?_⟩, ?_⟩
  · rw [Vm.nextPushed, hread, Option.bind_eq_bind, Option.bind_some]
    rfl
  · rw [htop']
    exact Nat.le_of_eq rfl

end Overflow

theorem stack_not_bounded : ∃ vm vm' : Vm Int, ∃ s, vmInit (fun _ => 0) = some vm ∧
    compileSource (fun _ => 0) (fun _ => 0) (3 * 16383 + 5) vm.objects (nested 16383) = .ok s ∧ s.hadError = false ∧
    Reachable (fun _ => 0) (fun _ => 0) (fun _ => 0) true vm' ∧ vm'.objects = s.objects ∧ vm'.Overflows fun _ => 0 := by
  obtain ⟨vm, hvm⟩ : ∃ vm : Vm Int, vmInit (fun _ => 0) = some vm := ⟨_, rfl⟩
  obtain ⟨hframes, htop⟩ := vmInit_empty hvm
  obtain ⟨s, vm', hs⟩ := @nested_overflows Int (fun _ => 0) (fun _ => 0) (fun _ => 0) vm _ _ _ _ _ _ _ _ 16383 (by decide) (.init hvm)
    hframes htop
  exact ⟨vm, vm', s, hvm, hs⟩

end Reading.Clox
