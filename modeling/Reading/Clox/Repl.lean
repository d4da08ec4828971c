import Mathlib.Logic.Relation
import Reading.Clox.Vm

/-!
# Sessions of the virtual machine

Lines of source are given to `vm_interpret` one after the other. A line that does not compile leaves the stack alone, and `runtime_error` empties it; a script that runs to its end leaves its function on the stack.
-/

namespace Reading.Clox

variable {N : Type}

namespace Vm

theorem push_top {vm vm' : Vm N} {value : Value N} (h : vm.push value = some vm') : vm'.frames = vm.frames ∧ vm'.top = vm.top + 1 := by
  rw [push] at h
  split at h
  · cases h
    exact ⟨rfl, rfl⟩
  · cases h

theorem pop_top {vm vm' : Vm N} {value : Value N} (h : vm.pop = some (value, vm')) : vm'.frames = vm.frames ∧ vm'.top + 1 = vm.top := by
  rw [pop] at h
  split at h
  · rename_i hpos
    cases h
    exact ⟨rfl, Nat.succ_pred_eq_of_pos hpos⟩
  · cases h

/-- `vm_run` is at the `OP_RETURN` of the script, which is all that runs, or at a byte that is no instruction. -/
def AtEnd (vm : Vm N) : Prop :=
  ∃ byte vm₁, vm.readByte = some (byte, vm₁) ∧ (OpCode.ofByte byte = some .return ∧ vm₁.frames.length = 1 ∨ OpCode.ofByte byte = none)

theorem not_atEnd {vm vm₁ : Vm N} {op : OpCode} (hread : vm.readByte = some (op.toByte, vm₁)) (hne : op ≠ .return) : ¬vm.AtEnd := by
  rintro ⟨byte, vm₂, hread', h⟩
  rw [hread] at hread'
  cases hread'
  rw [OpCode.ofByte_toByte] at h
  obtain ⟨hop, -⟩ | hop := h
  · exact hne (Option.some.inj hop)
  · cases hop

/-- `vm_run` has not returned, or was ended by a runtime error with no frame and nothing on the stack. -/
def Resets (x : Option (Vm N × Option InterpretResult)) : Prop :=
  ∀ vm result, x = some (vm, some result) → (∃ e, result = .runtimeError e) ∧ vm.frames = [] ∧ vm.top = 0

theorem resets_none : Resets (none : Option (Vm N × Option InterpretResult)) := by
  intro vm result h
  cases h

theorem resets_goOn (x : Option (Vm N)) : Resets (goOn x) := by
  intro vm result h
  obtain ⟨vm', -, heq⟩ := Option.map_eq_some_iff.mp h
  cases heq

theorem resets_next (vm : Vm N) : Resets (some (vm, none)) := by
  intro vm' result h
  cases h

theorem resets_runtimeError (vm : Vm N) (e : RuntimeError) : Resets (some (vm.runtimeError e)) := by
  intro vm' result h
  cases h
  exact ⟨⟨e, rfl⟩, rfl, rfl⟩

theorem resets_bind {α : Type} {x : Option α} {f : α → Option (Vm N × Option InterpretResult)} (h : ∀ a, Resets (f a)) :
    Resets (x >>= f) := by
  intro vm result hbind
  obtain ⟨a, -, ha⟩ := Option.bind_eq_some_iff.mp hbind
  exact h a vm result ha

theorem resets_ite {p : Prop} [Decidable p] {x y : Option (Vm N × Option InterpretResult)} (hx : Resets x) (hy : Resets y) :
    Resets (if p then x else y) := by
  split
  · exact hx
  · exact hy

theorem resets_call (vm : Vm N) (function argCount : Nat) : Resets (vm.call function argCount) := by
  apply resets_bind
  intro f
  apply resets_ite (resets_runtimeError _ _)
  apply resets_ite (resets_runtimeError _ _)
  exact resets_ite (resets_next _) resets_none

theorem resets_valueCall (clock : Nat → N) (vm : Vm N) (callable : Value N) (argCount : Nat) :
    Resets (vm.valueCall clock callable argCount) := by
  cases callable with
  | function f => exact resets_call vm f argCount
  | native =>
    apply resets_ite
    · apply resets_bind
      intro vm
      exact resets_next vm
    · exact resets_none
  | bool b => exact resets_runtimeError _ _
  | nil => exact resets_runtimeError _ _
  | number n => exact resets_runtimeError _ _
  | string s => exact resets_runtimeError _ _

theorem resets_binaryOp (vm : Vm N) (op : N → N → Value N) : Resets (vm.binaryOp op) := by
  apply resets_bind
  intro right
  apply resets_bind
  intro left
  split
  · exact resets_goOn _
  · exact resets_runtimeError _ _

theorem resets_opReturn {vm : Vm N} (hframes : vm.frames.length ≠ 1) : Resets vm.opReturn := by
  intro vm' result h
  obtain ⟨⟨value, vm₁⟩, hpop, heq⟩ := Option.bind_eq_some_iff.mp h
  have hsame := (pop_top hpop).1
  dsimp only at heq
  split at heq
  · cases heq
  · rename_i frame hone
    rw [← hsame, hone] at hframes
    exact absurd rfl hframes
  · exact resets_goOn _ _ _ heq

section Execute

variable {hashString : Chars → Nat} {clock : Nat → N} [Add N] [Sub N] [Mul N] [Div N] [Neg N] [LT N] [DecidableLT N] [BEq N]

theorem resets_execute (vm : Vm N) {op : OpCode} (hreturn : op = .return → vm.frames.length ≠ 1) :
    Resets (vm.execute hashString clock op) := by
  cases op with
  | «return» => exact resets_opReturn (hreturn rfl)
  | constant =>
    apply resets_bind
    rintro ⟨value, vm⟩
    exact resets_goOn _
  | nil => exact resets_goOn _
  | true => exact resets_goOn _
  | false => exact resets_goOn _
  | not =>
    apply resets_bind
    rintro ⟨value, vm⟩
    exact resets_goOn _
  | equal =>
    apply resets_bind
    rintro ⟨right, vm⟩
    apply resets_bind
    rintro ⟨left, vm⟩
    exact resets_goOn _
  | greater => exact resets_binaryOp _ _
  | less => exact resets_binaryOp _ _
  | negate =>
    apply resets_bind
    intro value
    split
    · exact resets_goOn _
    · exact resets_runtimeError _ _
  | add =>
    apply resets_bind
    intro right
    apply resets_bind
    intro left
    split
    · exact resets_goOn _
    · exact resets_goOn _
    · exact resets_runtimeError _ _
  | subtract => exact resets_binaryOp _ _
  | multiply => exact resets_binaryOp _ _
  | divide => exact resets_binaryOp _ _
  | print =>
    apply resets_bind
    rintro ⟨value, vm⟩
    exact resets_next _
  | jump =>
    apply resets_bind
    rintro ⟨offset, vm⟩
    exact resets_goOn _
  | jumpIfFalse => exact resets_goOn _
  | loop => exact resets_goOn _
  | pop =>
    apply resets_bind
    rintro ⟨value, vm⟩
    exact resets_next _
  | defineGlobal => exact resets_goOn _
  | getGlobal =>
    apply resets_bind
    rintro ⟨name, vm⟩
    apply resets_bind
    intro found
    split
    · exact resets_goOn _
    · exact resets_runtimeError _ _
  | setGlobal =>
    apply resets_bind
    rintro ⟨name, vm⟩
    apply resets_bind
    intro value
    apply resets_bind
    rintro ⟨isNewKey, globals⟩
    exact resets_ite (resets_runtimeError _ _) (resets_next _)
  | getLocal => exact resets_goOn _
  | setLocal => exact resets_goOn _
  | call =>
    apply resets_bind
    rintro ⟨argCount, vm⟩
    apply resets_bind
    intro callable
    exact resets_valueCall _ _ _ _

theorem resets_step {vm : Vm N} (hend : ¬vm.AtEnd) : Resets (vm.step hashString clock) := by
  intro vm' result h
  obtain ⟨⟨instruction, vm₁⟩, hread, heq⟩ := Option.bind_eq_some_iff.mp h
  dsimp only at heq
  split at heq
  · rename_i op hop
    refine resets_execute vm₁ ?_ _ _ heq
    rintro rfl hone
    exact hend ⟨instruction, vm₁, hread, .inl ⟨hop, hone⟩⟩
  · rename_i hnone
    exact absurd ⟨instruction, vm₁, hread, .inr hnone⟩ hend

end Execute

end Vm

/-! ### Calls of `vm_interpret` -/

section Session

variable (hashString : Chars → Nat) (strtod : Chars → N) (clock : Nat → N)

variable [Add N] [Sub N] [Mul N] [Div N] [Neg N] [LT N] [DecidableLT N] [BEq N]

/-- `vm_run` from here on, until it returns. -/
inductive VmRun : Vm N → Vm N → InterpretResult → Prop where
  | returns {vm vm' : Vm N} {result : InterpretResult} : vm.step hashString clock = some (vm', some result) → VmRun vm vm' result
  | goesOn {vm vm₁ vm' : Vm N} {result : InterpretResult} : vm.step hashString clock = some (vm₁, none) → VmRun vm₁ vm' result →
      VmRun vm vm' result

/-- A call of `vm_interpret` that returns. -/
inductive VmInterpret (vm : Vm N) (code : Chars) : Vm N → InterpretResult → Prop where
  | reject {depth : Nat} {s : State N} : compileSource hashString strtod depth vm.objects code = .ok s → s.hadError = true →
      VmInterpret vm code { vm with objects := s.objects } .compileError
  | run {depth : Nat} {s : State N} {vm₁ vm' : Vm N} {result : InterpretResult} :
      compileSource hashString strtod depth vm.objects code = .ok s → s.hadError = false → vmEnter clock vm s = some vm₁ →
      VmRun hashString clock vm₁ vm' result → VmInterpret vm code vm' result

/-- What a call is to leave: no frame, and a stack as high as it was. -/
def Isolated (vm vm' : Vm N) : Prop := vm'.frames = [] ∧ vm'.top = vm.top

/-- The states that `vm_run` goes through from here on. -/
def VmSteps : Vm N → Vm N → Prop := Relation.ReflTransGen fun vm vm' => vm.step hashString clock = some (vm', none)

/-- `vm_run` does not come to the end of the script. -/
def StaysInside (vm : Vm N) : Prop := ∀ vm', VmSteps hashString clock vm vm' → ¬vm'.AtEnd

/-- The line does not compile, or its script does not come to its end. -/
def Aborts (vm : Vm N) (code : Chars) : Prop :=
  ∀ depth s, compileSource hashString strtod depth vm.objects code = .ok s → s.hadError = false →
    ∀ vm₁, vmEnter clock vm s = some vm₁ → StaysInside hashString clock vm₁

/-- The states between the lines of a session in which every line meets a condition. -/
inductive SessionOf (P : Vm N → Chars → Prop) : Vm N → Prop where
  | init {vm : Vm N} : vmInit hashString = some vm → SessionOf P vm
  | line {vm vm' : Vm N} {code : Chars} {result : InterpretResult} : SessionOf P vm → P vm code →
      VmInterpret hashString strtod clock vm code vm' result → SessionOf P vm'

end Session

section Theorems

variable {hashString : Chars → Nat} {strtod : Chars → N} {clock : Nat → N} {vm vm' : Vm N}

theorem vmInit_empty (h : vmInit (N := N) hashString = some vm) : vm.frames = [] ∧ vm.top = 0 := by
  rw [vmInit, nativeDefine] at h
  obtain ⟨⟨string, strings⟩, -, h⟩ := Option.bind_eq_some_iff.mp h
  obtain ⟨vm₁, hpush₁, h⟩ := Option.bind_eq_some_iff.mp h
  obtain ⟨vm₂, hpush₂, h⟩ := Option.bind_eq_some_iff.mp h
  have htop₁ := Vm.push_top hpush₁
  have htop₂ := Vm.push_top hpush₂
  dsimp only at h
  split at h
  · obtain ⟨⟨isNewKey, globals⟩, -, h⟩ := Option.bind_eq_some_iff.mp h
    obtain ⟨⟨value₃, vm₃⟩, hpop₃, h⟩ := Option.bind_eq_some_iff.mp h
    obtain ⟨⟨value₄, vm₄⟩, hpop₄, h⟩ := Option.bind_eq_some_iff.mp h
    cases h
    have htop₃ := Vm.pop_top hpop₃
    have htop₄ := Vm.pop_top hpop₄
    obtain ⟨hframes₁, htop₁⟩ := htop₁
    obtain ⟨hframes₃, htop₃⟩ := htop₃
    obtain ⟨hframes₄, htop₄⟩ := htop₄
    constructor
    · rw [hframes₄, hframes₃, htop₂.1, hframes₁]
    · dsimp only at htop₁ htop₃ htop₄ ⊢
      omega
  · cases h

variable [Add N] [Sub N] [Mul N] [Div N] [Neg N] [LT N] [DecidableLT N] [BEq N]

theorem StaysInside.step {vm₁ : Vm N} (h : StaysInside hashString clock vm) (hstep : vm.step hashString clock = some (vm₁, none)) :
    StaysInside hashString clock vm₁ := fun vm' hsteps => h vm' (.head hstep hsteps)

/-- If the end of the script is not reached, `vm_run` returns with a runtime error and an empty stack. -/
theorem VmRun.resets {result : InterpretResult} (h : VmRun hashString clock vm vm' result) (hinside : StaysInside hashString clock vm) :
    (∃ e, result = .runtimeError e) ∧ vm'.frames = [] ∧ vm'.top = 0 := by
  induction h with
  | returns hstep => exact Vm.resets_step (hinside _ .refl) _ _ hstep
  | goesOn hstep _ ih => exact ih (hinside.step hstep)

theorem StaysInside.of_step {vm₁ : Vm N} (hend : ¬vm.AtEnd) (hstep : vm.step hashString clock = some (vm₁, none))
    (h : StaysInside hashString clock vm₁) : StaysInside hashString clock vm := by
  intro vm' hsteps
  obtain rfl | ⟨vm₂, hstep', hrest⟩ := hsteps.cases_head
  · exact hend
  · rw [hstep] at hstep'
    cases hstep'
    exact h vm' hrest

theorem StaysInside.of_returns {result : InterpretResult} (hend : ¬vm.AtEnd)
    (hstep : vm.step hashString clock = some (vm', some result)) : StaysInside hashString clock vm := by
  intro vm₁ hsteps
  obtain rfl | ⟨vm₂, hstep', -⟩ := hsteps.cases_head
  · exact hend
  · rw [hstep] at hstep'
    cases hstep'

omit [Add N] [Sub N] [Mul N] [Div N] [Neg N] [LT N] [DecidableLT N] [BEq N] in
/-- The depth of the recursion does not matter where the compiler returns. -/
theorem compileSource_unique {objects : Objects N} {code : Chars} {depth depth' : Nat} {s s' : State N}
    (h : compileSource hashString strtod depth objects code = .ok s) (h' : compileSource hashString strtod depth' objects code = .ok s') :
    s = s' := by
  obtain ⟨t, ht, rfl⟩ := compileSource_ok_iff.mp h
  obtain ⟨t', ht', rfl⟩ := compileSource_ok_iff.mp h'
  have hne : guardedRun hashString strtod depth' objects code ≠ .error .depth := by simp [ht']
  have heq := (guardedRun_eq ht hne).symm.trans ht'
  cases heq
  rfl

/-- A line that aborts leaves an empty stack empty. -/
theorem VmInterpret.isolated {code : Chars} {result : InterpretResult} (h : VmInterpret hashString strtod clock vm code vm' result)
    (habort : Aborts hashString strtod clock vm code) (hempty : vm.frames = [] ∧ vm.top = 0) : vm'.frames = [] ∧ vm'.top = 0 := by
  cases h with
  | reject _ _ => exact hempty
  | run hcompile herror henter hrun =>
    exact (hrun.resets (habort _ _ hcompile herror _ henter)).2

theorem SessionOf.empty (h : SessionOf hashString strtod clock (Aborts hashString strtod clock) vm) : vm.frames = [] ∧ vm.top = 0 := by
  induction h with
  | init hinit => exact vmInit_empty hinit
  | line _ habort hcall ih => exact hcall.isolated habort ih

/-- As long as no script has come to its end every call leaves the frames and the stack as they were. -/
theorem repl_isolated (h : SessionOf hashString strtod clock (Aborts hashString strtod clock) vm) {code : Chars}
    (habort : Aborts hashString strtod clock vm code) {result : InterpretResult}
    (hcall : VmInterpret hashString strtod clock vm code vm' result) : Isolated vm vm' := by
  obtain ⟨hframes, htop⟩ := hcall.isolated habort h.empty
  rw [Isolated, htop, h.empty.2]
  exact ⟨hframes, rfl⟩

end Theorems

/-- `nil-(-nil);`. -/
def negatedNil : Chars := ['n', 'i', 'l', '-', '(', '-', 'n', 'i', 'l', ')', ';'].map ascii

/-- The script ends in its third instruction, with two values on the stack. -/
theorem negatedNil_fails : ∃ vm vm₁ vm' : Vm Int, ∃ s, vmInit (fun _ => 0) = some vm ∧
    compileSource (fun _ => 0) (fun _ => 0) 10 vm.objects negatedNil = .ok s ∧ s.hadError = false ∧
    vmEnter (fun _ => 0) vm s = some vm₁ ∧ StaysInside (fun _ => 0) (fun _ => 0) vm₁ ∧
    VmRun (fun _ => 0) (fun _ => 0) vm₁ vm' (.runtimeError .operandNumber) := by
  refine ⟨_, _, _, _, rfl, rfl, rfl, rfl, ?_, .goesOn rfl (.goesOn rfl (.returns rfl))⟩
  have hnil : OpCode.nil ≠ .return := by decide
  have hnegate : OpCode.negate ≠ .return := by decide
  exact .of_step (Vm.not_atEnd rfl hnil) rfl (.of_step (Vm.not_atEnd rfl hnil) rfl (.of_returns (Vm.not_atEnd rfl hnegate) rfl))

theorem semicolon_rejected (objects : Objects Int) :
    ∃ s, compileSource (fun _ => 0) (fun _ => 0) 8 objects [ascii ';'] = .ok s ∧ s.hadError = true := ⟨_, rfl, rfl⟩

/-- A line whose script ends in a runtime error, and one that is rejected. -/
theorem repl_isolated_negatedNil : ∃ vm vm₁ vm₂ : Vm Int,
    VmInterpret (fun _ => 0) (fun _ => 0) (fun _ => 0) vm negatedNil vm₁ (.runtimeError .operandNumber) ∧
    VmInterpret (fun _ => 0) (fun _ => 0) (fun _ => 0) vm₁ [ascii ';'] vm₂ .compileError ∧ Isolated vm vm₁ ∧ Isolated vm₁ vm₂ := by
  obtain ⟨vm, vm', vm₁, s, hvm, hs, herror, henter, hinside, hrun⟩ := negatedNil_fails
  obtain ⟨t, ht, hrejected⟩ := semicolon_rejected vm₁.objects
  have hinit : SessionOf (fun _ => 0) (fun _ => 0) (fun _ => 0) (Aborts (fun _ => 0) (fun _ => 0) fun _ => 0) vm := .init hvm
  have hfirst : Aborts (fun _ => 0) (fun _ => 0) (fun _ => 0) vm negatedNil := by
    intro depth s' hs' _ vm₂ henter'
    rw [← compileSource_unique hs hs', henter] at henter'
    cases henter'
    exact hinside
  have hsecond : Aborts (fun _ => 0) (fun _ => 0) (fun _ => 0) vm₁ [ascii ';'] := by
    intro depth s' hs' hno
    rw [← compileSource_unique ht hs', hrejected] at hno
    cases hno
  have hcall := VmInterpret.run hs herror henter hrun
  have hreject := @VmInterpret.reject Int (fun _ => 0) (fun _ => 0) (fun _ => 0) _ _ _ _ _ _ _ _ vm₁ _ _ t ht hrejected
  exact ⟨vm, vm₁, _, hcall, hreject, repl_isolated hinit hfirst hcall, repl_isolated (hinit.line hfirst hcall) hsecond hreject⟩

/-- A script without instructions of its own leaves its function on the stack. -/
theorem repl_not_isolated : ¬ ∀ (vm vm' : Vm Int) (code : Chars) (result : InterpretResult),
    SessionOf (fun _ => 0) (fun _ => 0) (fun _ => 0) (fun _ _ => True) vm →
      VmInterpret (fun _ => 0) (fun _ => 0) (fun _ => 0) vm code vm' result → Isolated vm vm' := by
  intro h
  have hinit : SessionOf (N := Int) (fun _ => 0) (fun _ => 0) (fun _ => 0) (fun _ _ => True) _ := SessionOf.init rfl
  have hisolated := h _ _ [] _ hinit (@VmInterpret.run Int (fun _ => 0) (fun _ => 0) (fun _ => 0) _ _ _ _ _ _ _ _ _ [] 8 _ _ _ _ rfl rfl rfl
    (VmRun.goesOn rfl (VmRun.returns rfl)))
  exact absurd hisolated.2 (by decide)

end Reading.Clox
