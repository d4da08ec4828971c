import Reading.Clox.Vm

/-!
# Where jumps go

The compiler writes the distance of a jump in two bytes, and the machine adds it to the place behind them or takes it away. Both agree on the order of the bytes and on what is counted. `patch_jump` compares the distance with the largest byte, and so refuses jumps that could be written; `emit_loop` compares it with the largest number of two bytes.
-/

namespace Reading.Clox

variable {N : Type}

def State.code (s : State N) : List UInt8 := s.compiler.function.code

/-! ### Two bytes -/

/-- A number of two bytes, the high one first. -/
def twoBytes (high low : UInt8) : Nat := high.toNat * 256 + low.toNat

theorem twoBytes_ofNat {n : Nat} (h : n ≤ 65535) : twoBytes (UInt8.ofNat (n / 256)) (UInt8.ofNat n) = n := by
  rw [twoBytes, UInt8.toNat_ofNat', UInt8.toNat_ofNat']
  omega

namespace Vm

variable {vm : Vm N} {frame : CallFrame} {frames : List CallFrame} {f : VmFunction N}

theorem readByte_eq (hframes : vm.frames = frame :: frames) (hf : vm.objects.functions[frame.function]? = some f) {byte : UInt8}
    (hbyte : f.code[frame.ip]? = some byte) :
    vm.readByte = some (byte, { vm with frames := { frame with ip := frame.ip + 1 } :: frames }) := by
  rw [readByte, hframes]
  dsimp only
  rw [hf, Option.bind_eq_bind, Option.bind_some, hbyte, Option.bind_eq_bind, Option.bind_some]

section Step

variable (hashString : Chars → Nat) (clock : Nat → N) [Add N] [Sub N] [Mul N] [Div N] [Neg N] [LT N] [DecidableLT N] [BEq N]

/-- The machine goes on at `target`, with all else as it is. -/
def Goes (vm : Vm N) (target : Nat) : Prop :=
  ∃ frame frames, vm.frames = frame :: frames ∧
    vm.step hashString clock = some ({ vm with frames := { frame with ip := target } :: frames }, none)

/-- The machine is at `place`, in code with the bytes there. -/
def At (vm : Vm N) (place : Nat) (bytes : List UInt8) : Prop :=
  ∃ frame frames f, vm.frames = frame :: frames ∧ vm.objects.functions[frame.function]? = some f ∧ frame.ip = place ∧
    bytes <+: f.code.drop place

variable {hashString clock} {place : Nat} {high low : UInt8} {bytes : List UInt8}

omit [Add N] [Sub N] [Mul N] [Div N] [Neg N] [LT N] [DecidableLT N] [BEq N] in
theorem At.readByte {byte : UInt8} (h : At vm place (byte :: bytes)) : ∃ frame frames, vm.frames = frame :: frames ∧
    vm.readByte = some (byte, { vm with frames := { frame with ip := place + 1 } :: frames }) ∧
    At { vm with frames := { frame with ip := place + 1 } :: frames } (place + 1) bytes := by
  obtain ⟨frame, frames, f, hframes, hf, rfl, t, ht⟩ := h
  have hbyte : f.code[frame.ip]? = some byte := by
    rw [← Nat.add_zero frame.ip, ← List.getElem?_drop, ← ht]
    rfl
  refine ⟨frame, frames, hframes, readByte_eq hframes hf hbyte, { frame with ip := frame.ip + 1 }, frames, f, rfl, hf, rfl, t, ?_⟩
  rw [← List.tail_drop, ← ht]
  rfl

/-- The instruction is read, and the operand is next. -/
theorem At.step {op : OpCode} (h : At vm place (op.toByte :: bytes)) : ∃ frame frames, vm.frames = frame :: frames ∧
    vm.step hashString clock = { vm with frames := { frame with ip := place + 1 } :: frames }.execute hashString clock op ∧
    At { vm with frames := { frame with ip := place + 1 } :: frames } (place + 1) bytes := by
  obtain ⟨frame, frames, hframes, hread, hat⟩ := h.readByte
  exact ⟨frame, frames, hframes, step_eq hread, hat⟩

/-- The instruction is read, and then its two bytes. -/
theorem At.reads {op : OpCode} (h : At vm place [op.toByte, high, low]) :
    ∃ frame frames, vm.frames = frame :: frames ∧
      vm.step hashString clock = { vm with frames := { frame with ip := place + 1 } :: frames }.execute hashString clock op ∧
      Vm.readShort { vm with frames := { frame with ip := place + 1 } :: frames } =
        some (twoBytes high low, { vm with frames := { frame with ip := place + 3 } :: frames }) := by
  obtain ⟨frame, frames, hframes, hstep, hat⟩ := @At.step N vm hashString clock _ _ _ _ _ _ _ _ place _ op h
  obtain ⟨_, _, heq, hhigh, hat⟩ := hat.readByte
  obtain ⟨rfl, rfl⟩ := List.cons.inj heq
  obtain ⟨_, _, heq, hlow, -⟩ := hat.readByte
  obtain ⟨rfl, rfl⟩ := List.cons.inj heq
  refine ⟨frame, frames, hframes, hstep, ?_⟩
  rw [readShort, hhigh, Option.bind_eq_bind, Option.bind_some]
  dsimp only
  rw [hlow, Option.bind_some]
  rfl

theorem At.jump (h : At vm place [OpCode.jump.toByte, high, low]) : Goes hashString clock vm (place + 3 + twoBytes high low) := by
  obtain ⟨frame, frames, hframes, hstep, hread⟩ := @At.reads N vm hashString clock _ _ _ _ _ _ _ _ place high low _ h
  refine ⟨frame, frames, hframes, ?_⟩
  rw [hstep, execute, hread, Option.bind_eq_bind, Option.bind_some]
  rfl

/-- The value on top of the stack is false. -/
theorem At.jumpIfFalse (h : At vm place [OpCode.jumpIfFalse.toByte, high, low]) {value : Value N} (hpeek : vm.peek 0 = some value)
    (hfalse : isFalsey value = true) : Goes hashString clock vm (place + 3 + twoBytes high low) := by
  obtain ⟨frame, frames, hframes, hstep, hread⟩ := @At.reads N vm hashString clock _ _ _ _ _ _ _ _ place high low _ h
  refine ⟨frame, frames, hframes, ?_⟩
  have htop : Vm.peek { vm with frames := { frame with ip := place + 3 } :: frames } 0 = some value := hpeek
  rw [hstep, execute, Vm.jumpIfFalse, hread, Option.bind_eq_bind, Option.bind_some]
  dsimp only
  rw [htop, Option.bind_eq_bind, Option.bind_some, if_pos hfalse]
  rfl

theorem At.loop (h : At vm place [OpCode.loop.toByte, high, low]) (hle : twoBytes high low ≤ place + 3) :
    Goes hashString clock vm (place + 3 - twoBytes high low) := by
  obtain ⟨frame, frames, hframes, hstep, hread⟩ := @At.reads N vm hashString clock _ _ _ _ _ _ _ _ place high low _ h
  refine ⟨frame, frames, hframes, ?_⟩
  rw [hstep, execute, Vm.loop, hread, Option.bind_eq_bind, Option.bind_some]
  dsimp only
  rw [Vm.jump]
  dsimp only
  rw [if_pos hle]
  rfl

end Step

end Vm

/-! ### What the compiler writes -/

section Emit

variable {s : State N} {op : OpCode} {pre body : List UInt8} {a b : UInt8}

/-- The operand of a new jump is behind the instruction. -/
theorem emitJump_code (s : State N) (op : OpCode) :
    (emitJump s op).1.code = s.code ++ [op.toByte, 0xff, 0xff] ∧ (emitJump s op).2 = s.code.length + 1 := by
  have hcode : (emitJump s op).1.code = s.code ++ [op.toByte] ++ [0xff] ++ [0xff] := rfl
  constructor
  · rw [hcode, List.append_assoc, List.append_assoc]
    rfl
  · change (s.code ++ [op.toByte] ++ [0xff] ++ [0xff]).length - 2 = _
    simp only [List.length_append, List.length_singleton]
    omega

theorem code_error (s : State N) (message : String) : (error s message).code = s.code := by
  rw [error, errorAt]
  split <;> rfl

/-- A report is only left out while the compiler recovers from an error. -/
theorem error_spec (s : State N) (message : String) :
    (error s message).panicMode = true ∧ ((error s message).errors = s.errors ↔ s.panicMode = true) := by
  rw [error, errorAt]
  by_cases hpanic : s.panicMode = true
  · rw [if_pos hpanic]
    exact ⟨hpanic, iff_of_true rfl hpanic⟩
  · rw [if_neg hpanic]
    refine ⟨rfl, iff_of_false (fun h => ?_) hpanic⟩
    have hlength := congrArg List.length h
    rw [List.length_append, List.length_singleton] at hlength
    exact absurd hlength (Nat.succ_ne_self _)

/-- How many bytes the jump with its operand at `offset` is to pass. -/
def distance (s : State N) (offset : Nat) : Nat := s.code.length - offset - 2

theorem patchJump_code (hcode : s.code = pre ++ op.toByte :: a :: b :: body) :
    (patchJump s (pre.length + 1)).code =
      pre ++ op.toByte :: UInt8.ofNat (body.length / 256) :: UInt8.ofNat body.length :: body := by
  have hdistance : s.compiler.function.code.length - (pre.length + 1) - 2 = body.length := by
    rw [show s.compiler.function.code = _ from hcode, List.length_append, List.length_cons, List.length_cons, List.length_cons]
    omega
  rw [patchJump]
  rw [hdistance]
  change ((State.code _).set (pre.length + 1) _).set (pre.length + 1 + 1) _ = _
  have hkept : (if body.length > 255 then error s "Too much code to jump over." else s).code = s.code := by
    split
    · exact code_error s _
    · rfl
  have hfirst : pre.length + 1 - pre.length = 1 := Nat.add_sub_cancel_left _ _
  have hsecond : pre.length + 1 + 1 - pre.length = 2 := Nat.add_sub_cancel_left _ 2
  rw [hkept, hcode, List.set_append_right _ _ (by omega), List.set_append_right _ _ (by omega), hfirst, hsecond]
  rfl

theorem patchJump_errors (s : State N) (offset : Nat) :
    ((patchJump s offset).errors = s.errors ↔ s.panicMode = true ∨ distance s offset ≤ 255) ∧
      (255 < distance s offset → (patchJump s offset).panicMode = true) := by
  obtain ⟨hpanic, herrors⟩ := error_spec s "Too much code to jump over."
  rw [patchJump]
  by_cases hfar : distance s offset > 255
  · rw [if_pos (show s.compiler.function.code.length - offset - 2 > 255 from hfar)]
    exact ⟨herrors.trans (or_iff_left (Nat.not_le.mpr hfar)).symm, fun _ => hpanic⟩
  · rw [if_neg (show ¬s.compiler.function.code.length - offset - 2 > 255 from hfar)]
    exact ⟨iff_of_true rfl (.inr (Nat.not_lt.mp hfar)), fun h => absurd h hfar⟩

theorem emitLoop_code {loopStart : Nat} (hle : loopStart ≤ s.code.length) :
    (emitLoop s loopStart).code =
      s.code ++ [OpCode.loop.toByte, UInt8.ofNat ((s.code.length + 3 - loopStart) / 256), UInt8.ofNat (s.code.length + 3 - loopStart)] := by
  have hlength : (emitOp s .loop).compiler.function.code.length - loopStart + 2 = s.code.length + 3 - loopStart := by
    change (s.code ++ [OpCode.loop.toByte]).length - loopStart + 2 = _
    rw [List.length_append, List.length_singleton]
    omega
  rw [emitLoop]
  rw [hlength]
  change (State.code _) ++ [_] ++ [_] = _
  have hkept : (if s.code.length + 3 - loopStart > 65535 then error (emitOp s .loop) "Loop body too large" else emitOp s .loop).code =
      s.code ++ [OpCode.loop.toByte] := by
    split
    · exact code_error _ _
    · rfl
  rw [hkept, List.append_assoc, List.append_assoc]
  rfl

theorem emitLoop_errors {loopStart : Nat} (hle : loopStart ≤ s.code.length) :
    (s.code.length + 3 - loopStart ≤ 65535 → (emitLoop s loopStart).errors = s.errors) ∧
      (65535 < s.code.length + 3 - loopStart → (emitLoop s loopStart).panicMode = true) := by
  have hlength : (emitOp s .loop).compiler.function.code.length - loopStart + 2 = s.code.length + 3 - loopStart := by
    change (s.code ++ [OpCode.loop.toByte]).length - loopStart + 2 = _
    rw [List.length_append, List.length_singleton]
    omega
  rw [emitLoop]
  rw [hlength]
  constructor
  · intro hnear
    rw [if_neg (Nat.not_lt.mpr hnear)]
    rfl
  · intro hfar
    rw [if_pos hfar]
    exact (error_spec (emitOp s .loop) "Loop body too large").1

end Emit

/-! ### Jumps land -/

section Land

variable (hashString : Chars → Nat) (clock : Nat → N) [Add N] [Sub N] [Mul N] [Div N] [Neg N] [LT N] [DecidableLT N] [BEq N]

/-- The machine takes the jump: always, or if the value on top of the stack is false. -/
def Takes (vm : Vm N) (op : OpCode) : Prop :=
  op = .jump ∨ op = .jumpIfFalse ∧ ∃ value, vm.peek 0 = some value ∧ isFalsey value = true

/-- What is to hold of `patch_jump` for the jump with its operand at `offset`: a distance of two bytes is accepted, and a machine that takes the jump goes on behind all code there was. -/
structure Patched (s : State N) (op : OpCode) (offset : Nat) : Prop where
  accepted : distance s offset ≤ 65535 → (patchJump s offset).errors = s.errors
  lands : distance s offset ≤ 65535 → ∀ vm : Vm N, vm.At (offset - 1) (((patchJump s offset).code.drop (offset - 1)).take 3) →
    Takes vm op → vm.Goes hashString clock s.code.length
  refused : 65535 < distance s offset → (patchJump s offset).panicMode = true

/-- What is to hold of `emit_loop`: the same, with the distance from the end of the instruction back. -/
structure Looped (s : State N) (loopStart : Nat) : Prop where
  accepted : s.code.length + 3 - loopStart ≤ 65535 → (emitLoop s loopStart).errors = s.errors
  lands : s.code.length + 3 - loopStart ≤ 65535 → ∀ vm : Vm N,
    vm.At s.code.length (((emitLoop s loopStart).code.drop s.code.length).take 3) → vm.Goes hashString clock loopStart
  refused : 65535 < s.code.length + 3 - loopStart → (emitLoop s loopStart).panicMode = true

variable {hashString clock} {s : State N}

theorem looped {loopStart : Nat} (hle : loopStart ≤ s.code.length) : Looped hashString clock s loopStart := by
  obtain ⟨haccepted, hrefused⟩ := emitLoop_errors hle
  refine ⟨haccepted, fun hnear vm hat => ?_, hrefused⟩
  rw [emitLoop_code hle, List.drop_left] at hat
  have hgoes := @Vm.At.loop N vm hashString clock _ _ _ _ _ _ _ _ _ _ _ hat (by rw [twoBytes_ofNat hnear]; omega)
  have htarget : s.code.length + 3 - (s.code.length + 3 - loopStart) = loopStart := by omega
  rwa [twoBytes_ofNat hnear, htarget] at hgoes

/-- A jump is patched rightly unless its distance is one of those that need the second byte. -/
theorem patched_iff {op : OpCode} {pre body : List UInt8} {a b : UInt8} (hcode : s.code = pre ++ op.toByte :: a :: b :: body) :
    Patched hashString clock s op (pre.length + 1) ↔ s.panicMode = true ∨ body.length ≤ 255 ∨ 65535 < body.length := by
  have hdistance : distance s (pre.length + 1) = body.length := by
    rw [distance, hcode, List.length_append, List.length_cons, List.length_cons, List.length_cons]
    omega
  have hlength : s.code.length = pre.length + 3 + body.length := by
    rw [hcode, List.length_append, List.length_cons, List.length_cons, List.length_cons]
    omega
  obtain ⟨herrors, hpanic⟩ := patchJump_errors s (pre.length + 1)
  rw [hdistance] at herrors hpanic
  constructor
  · intro h
    by_cases hnear : body.length ≤ 65535
    · have haccepted := h.accepted (by rwa [hdistance])
      exact (herrors.mp haccepted).imp_right .inl
    · exact .inr (.inr (Nat.not_le.mp hnear))
  · intro hwhen
    refine ⟨fun hnear => ?_, fun hnear vm hat htakes => ?_, fun hfar => ?_⟩
    · rw [hdistance] at hnear
      obtain hpanic | hbyte | hfar := hwhen
      · exact herrors.mpr (.inl hpanic)
      · exact herrors.mpr (.inr hbyte)
      · omega
    · rw [hdistance] at hnear
      rw [patchJump_code hcode, Nat.add_sub_cancel, List.drop_left] at hat
      obtain rfl | ⟨rfl, value, hpeek, hfalse⟩ := htakes
      · have hgoes := @Vm.At.jump N vm hashString clock _ _ _ _ _ _ _ _ _ _ _ hat
        rwa [twoBytes_ofNat hnear, ← hlength] at hgoes
      · have hgoes := @Vm.At.jumpIfFalse N vm hashString clock _ _ _ _ _ _ _ _ _ _ _ hat value hpeek hfalse
        rwa [twoBytes_ofNat hnear, ← hlength] at hgoes
    · rw [hdistance] at hfar
      exact hpanic (by omega)

/-- `emit_jump` in `s₀` and `patch_jump` in `s`, with `body` between them: the jump is right unless the distance is of two bytes. A loop always is. -/
theorem jumps_land_iff {s₀ s : State N} {op : OpCode} {pre body : List UInt8} {a b : UInt8} (hplace : s₀.code.length = pre.length)
    (hcode : s.code = pre ++ op.toByte :: a :: b :: body) :
    (Patched hashString clock s op (emitJump s₀ op).2 ↔ s.panicMode = true ∨ body.length ≤ 255 ∨ 65535 < body.length) ∧
      ∀ (t : State N) (loopStart : Nat), loopStart ≤ t.code.length → Looped hashString clock t loopStart := by
  refine ⟨?_, fun t loopStart hle => looped hle⟩
  rw [(emitJump_code s₀ op).2, hplace]
  exact patched_iff hcode

end Land

/-- A compiler that has written the code. -/
def written (code : List UInt8) : State Int :=
  { State.initial (Objects.empty Int) { type := .endOfFile } [] with compiler := { type := .script, function := { code := code } } }

/-- A jump over 200 bytes behind other code, and a loop over 300 bytes. -/
theorem jumps_land_iff_body :
    Patched (fun _ => 0) (fun _ => 0) (written ([2, 18] ++ 15 :: 0xff :: 0xff :: List.replicate 200 2)) .jump
      (emitJump (written [2, 18]) .jump).2 ∧
    Looped (fun _ => 0) (fun _ => 0) (written (List.replicate 320 2)) 20 := by
  obtain ⟨hpatched, hlooped⟩ := @jumps_land_iff Int (fun _ => 0) (fun _ => 0) _ _ _ _ _ _ _ _ (written [2, 18])
    (written ([2, 18] ++ 15 :: 0xff :: 0xff :: List.replicate 200 2)) .jump [2, 18] (List.replicate 200 2) 0xff 0xff rfl rfl
  refine ⟨hpatched.mpr (.inr (.inl ?_)), hlooped _ 20 ?_⟩
  · rw [List.length_replicate]
    decide
  · change 20 ≤ (List.replicate 320 (2 : UInt8)).length
    rw [List.length_replicate]
    decide

/-- A body of 256 bytes is refused. -/
theorem not_patched_long :
    ¬Patched (fun _ => 0) (fun _ => 0) (written (15 :: 0xff :: 0xff :: List.replicate 256 2)) .jump (emitJump (written []) .jump).2 := by
  intro h
  obtain hpanic | hwhen := (@patched_iff Int (fun _ => 0) (fun _ => 0) _ _ _ _ _ _ _ _ _ .jump [] (List.replicate 256 2) 0xff 0xff rfl).mp h
  · cases hpanic
  · rw [List.length_replicate] at hwhen
    omega

end Reading.Clox
