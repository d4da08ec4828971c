import Reading.Clox.Jumps

/-!
# How many arguments a call has

`argument_list` counts the arguments in a byte and compares the count with 255 when they have all been read. So a count that has gone round is taken for a small one, and 255 arguments are refused though the byte would hold their number.
-/

namespace Reading.Clox

variable {N : Type}

/-! ### The arguments of a call -/

section Calls

variable (hashString : Chars → Nat) (strtod : Chars → N) (recover : State N → Except Stop (State N))

/-- From a state to another one, so many expressions are compiled that have commas between them; the calls for them are nested. -/
inductive Arguments : Nat → State N → Nat → State N → Prop where
  | last {depth : Nat} {s s' : State N} : expression (run hashString strtod recover depth) s = .ok s' → check s' .comma = false →
      Arguments (depth + 1) s 1 s'
  | more {depth n : Nat} {s s' sEnd : State N} : expression (run hashString strtod recover depth) s = .ok s' → check s' .comma = true →
      Arguments depth (advance s') n sEnd → Arguments (depth + 1) s (n + 1) sEnd

/-- The same for a call, which may have no arguments. -/
inductive CallArguments (depth : Nat) : State N → Nat → State N → Prop where
  | none {s : State N} : check s .rightParen = true → CallArguments depth s 0 s
  | some {n : Nat} {s sEnd : State N} : check s .rightParen = false → Arguments hashString strtod recover depth s n sEnd →
      CallArguments depth s n sEnd

variable {hashString strtod recover}

theorem run_arguments (depth : Nat) (argCount : UInt8) (s : State N) :
    run hashString strtod recover (depth + 1) (.arguments argCount) s =
      (expression (run hashString strtod recover depth) s).bind fun t =>
        if check t .comma then run hashString strtod recover depth (.arguments (argCount + 1)) (advance t)
        else .ok (finishCall t (argCount + 1)) := rfl

/-- The loop counts the arguments, in a byte. -/
theorem Arguments.run_eq {depth n : Nat} {s sEnd : State N} (h : Arguments hashString strtod recover depth s n sEnd) (argCount : UInt8) :
    run hashString strtod recover depth (.arguments argCount) s = .ok (finishCall sEnd (argCount + UInt8.ofNat n)) := by
  induction h generalizing argCount with
  | last hexpr hcomma =>
    rw [run_arguments, hexpr]
    change (if check _ .comma = true then _ else _) = _
    rw [if_neg (by rw [hcomma]; exact Bool.false_ne_true)]
    rfl
  | more hexpr hcomma _ ih =>
    rw [run_arguments, hexpr]
    change (if check _ .comma = true then _ else _) = _
    rw [if_pos hcomma, ih, UInt8.ofNat_add, UInt8.add_assoc, UInt8.add_comm 1 (UInt8.ofNat _)]
    rfl

theorem CallArguments.call_eq {depth n : Nat} {s sEnd : State N} (h : CallArguments hashString strtod recover depth s n sEnd) :
    call (run hashString strtod recover depth) s = .ok (finishCall sEnd (UInt8.ofNat n)) := by
  cases h with
  | none hparen => rw [call, if_pos hparen]; rfl
  | some hparen hargs =>
    rw [call, if_neg (by rw [hparen]; exact Bool.false_ne_true), hargs.run_eq 0, UInt8.zero_add]

/-- A call that is compiled has arguments. -/
theorem arguments_of_run {depth : Nat} {s s' : State N} {argCount : UInt8}
    (h : run hashString strtod recover depth (.arguments argCount) s = .ok s') :
    ∃ n sEnd, Arguments hashString strtod recover depth s n sEnd := by
  induction depth generalizing s argCount with
  | zero => cases h
  | succ depth ih =>
    rw [run_arguments] at h
    cases hexpr : expression (run hashString strtod recover depth) s with
    | error e =>
      rw [hexpr] at h
      cases h
    | ok t =>
      rw [hexpr] at h
      change (if check t .comma = true then _ else _) = _ at h
      by_cases hcomma : check t .comma = true
      · rw [if_pos hcomma] at h
        obtain ⟨n, sEnd, hargs⟩ := ih h
        exact ⟨n + 1, sEnd, .more hexpr hcomma hargs⟩
      · exact ⟨1, t, .last hexpr (Bool.not_eq_true _ ▸ hcomma)⟩

end Calls

/-! ### The end of a call -/

section Finish

variable {s : State N}

theorem errorAt_panic (s : State N) (token : Token) (message : Option String) : (errorAt s token message).panicMode = true := by
  rw [errorAt]
  split
  next h => exact h
  next => rfl

theorem nextToken_code (s : State N) (tokens : List Token) :
    (nextToken s tokens).code = s.code ∧ (s.panicMode = true → (nextToken s tokens).panicMode = true) := by
  induction tokens generalizing s with
  | nil => exact ⟨rfl, id⟩
  | cons token tokens ih =>
    rw [nextToken]
    split
    · exact ⟨rfl, id⟩
    · obtain ⟨hcode, hpanic⟩ := ih (errorAt { s with current := token, following := tokens } token none)
      refine ⟨hcode.trans ?_, fun _ => hpanic (errorAt_panic _ _ _)⟩
      rw [errorAt]
      split <;> rfl

theorem consume_spec (s : State N) (type : TokenType) (message : String) :
    (consume s type message).code = s.code ∧ (s.panicMode = true → (consume s type message).panicMode = true) := by
  rw [consume]
  split
  · exact nextToken_code { s with previous := s.current } s.following
  · refine ⟨?_, fun _ => errorAt_panic _ _ _⟩
    rw [errorAtCurrent, errorAt]
    split <;> rfl

/-- An error is reported up to the closing parenthesis or at it. -/
def Unclosed (s : State N) : Prop := (consume s .rightParen "Expect ')' after arguments.").panicMode = true

theorem finishCall_spec (s : State N) (argCount : UInt8) :
    (finishCall s argCount).code = s.code ++ [OpCode.call.toByte, argCount] ∧
      ((finishCall s argCount).panicMode = true ↔ argCount = 255 ∨ Unclosed s) := by
  have hcode (t : State N) : (emitByte (emitOp t .call) argCount).code = t.code ++ [OpCode.call.toByte, argCount] := by
    change t.code ++ [_] ++ [_] = _
    rw [List.append_assoc]
    rfl
  rw [finishCall, hcode]
  by_cases hmax : argCount = 255
  · obtain ⟨hkept, hpanic⟩ := consume_spec (error s "Cannot have more than 255 arguments.") .rightParen "Expect ')' after arguments."
    rw [if_pos hmax]
    refine ⟨?_, iff_of_true ?_ (.inl hmax)⟩
    · rw [hkept, code_error]
    · exact hpanic (error_spec s _).1
  · rw [if_neg hmax]
    refine ⟨?_, ?_⟩
    · rw [(consume_spec s _ _).1]
    · rw [or_iff_right hmax]
      rfl

end Finish

/-! ### When the count is right -/

section Count

variable {hashString : Chars → Nat} {clock : Nat → N} [Add N] [Sub N] [Mul N] [Div N] [Neg N] [LT N] [DecidableLT N] [BEq N]

/-- The call takes the value below the topmost `n` ones for the function. -/
theorem Vm.At.call {vm : Vm N} {place : Nat} {argCount : UInt8} (h : vm.At place [OpCode.call.toByte, argCount])
    (htop : argCount.toNat < vm.top) : ∃ frame frames, vm.frames = frame :: frames ∧
      vm.step hashString clock = Vm.valueCall clock { vm with frames := { frame with ip := place + 2 } :: frames }
        (vm.cells (vm.top - 1 - argCount.toNat)) argCount.toNat := by
  obtain ⟨frame, frames, hframes, hstep, hat⟩ := @Vm.At.step N vm hashString clock _ _ _ _ _ _ _ _ place _ .call h
  obtain ⟨_, _, heq, hread, -⟩ := hat.readByte
  obtain ⟨rfl, rfl⟩ := List.cons.inj heq
  refine ⟨frame, frames, hframes, ?_⟩
  rw [hstep, Vm.execute, hread, Option.bind_eq_bind, Option.bind_some]
  dsimp only
  rw [Vm.peek, if_pos htop]
  rfl

variable (hashString clock) in
/-- What is to hold of a call with `n` arguments that has been compiled: if there was no error, the machine finds the function below the arguments; if `n` does not fit in the operand there was one. -/
structure Counted (n : Nat) (sEnd s' : State N) : Prop where
  accepted : s'.panicMode = false → ∃ argCount : UInt8, s'.code = sEnd.code ++ [OpCode.call.toByte, argCount] ∧ argCount.toNat = n ∧
    ∀ (vm : Vm N) (place : Nat), vm.At place [OpCode.call.toByte, argCount] → n < vm.top → ∃ frame frames, vm.frames = frame :: frames ∧
      vm.step hashString clock = Vm.valueCall clock { vm with frames := { frame with ip := place + 2 } :: frames }
        (vm.cells (vm.top - 1 - n)) n
  refused : 255 < n → s'.panicMode = true

theorem toNat_ofNat_byte (n : Nat) : (UInt8.ofNat n).toNat = n % 256 := UInt8.toNat_ofNat'

theorem counted_finishCall (n : Nat) (sEnd : State N) :
    Counted hashString clock n sEnd (finishCall sEnd (UInt8.ofNat n)) ↔ n ≤ 255 ∨ n % 256 = 255 ∨ Unclosed sEnd := by
  obtain ⟨hcode, hpanic⟩ := finishCall_spec sEnd (UInt8.ofNat n)
  have hmax : UInt8.ofNat n = 255 ↔ n % 256 = 255 := by
    rw [← UInt8.toNat_inj, toNat_ofNat_byte]
    rfl
  rw [hmax] at hpanic
  constructor
  · intro h
    by_cases hreported : n % 256 = 255 ∨ Unclosed sEnd
    · exact .inr hreported
    · left
      by_contra hmany
      exact hreported (hpanic.mp (h.refused (Nat.not_le.mp hmany)))
  · intro hwhen
    refine ⟨fun hcalm => ?_, fun hmany => ?_⟩
    · have hnone : ¬(n % 256 = 255 ∨ Unclosed sEnd) := by
        intro hreported
        rw [hpanic.mpr hreported] at hcalm
        cases hcalm
      have hfits : (UInt8.ofNat n).toNat = n := by
        obtain hfew | hreported := hwhen
        · rw [toNat_ofNat_byte]
          omega
        · exact absurd hreported hnone
      refine ⟨UInt8.ofNat n, hcode, hfits, fun vm place hat htop => ?_⟩
      have hcall := @Vm.At.call N hashString clock _ _ _ _ _ _ _ _ vm place _ hat (by rw [hfits]; exact htop)
      rwa [hfits] at hcall
    · obtain hfew | hreported := hwhen
      · omega
      · exact hpanic.mpr hreported

/-- A call is compiled rightly unless its count has gone round and is not 255. -/
theorem counted_iff {strtod : Chars → N} {recover : State N → Except Stop (State N)} {depth n : Nat} {s sEnd s' : State N}
    (hargs : CallArguments hashString strtod recover depth s n sEnd) (hcall : call (run hashString strtod recover depth) s = .ok s') :
    Counted hashString clock n sEnd s' ↔ n ≤ 255 ∨ n % 256 = 255 ∨ Unclosed sEnd := by
  rw [hargs.call_eq] at hcall
  obtain rfl := Except.ok.inj hcall
  exact counted_finishCall n sEnd

end Count

/-! ### Many arguments -/

section Many

variable {hashString : Chars → Nat} {strtod : Chars → N} {recover : State N → Except Stop (State N)}

/-- The tokens behind the first of so many more arguments `nil`. -/
def nilArguments : Nat → List Token
  | 0 => [{ type := .rightParen }, { type := .endOfFile }]
  | n + 1 => { type := .comma } :: { type := .nilKey } :: nilArguments n

/-- The parser is at the first argument. -/
def atNil (s : State N) (n : Nat) : State N := { s with current := { type := .nilKey }, following := nilArguments n }

theorem arguments_nil (n : Nat) (s : State N) : ∃ sEnd, Arguments hashString strtod recover (n + 3) (atNil s n) (n + 1) sEnd ∧
    sEnd.panicMode = s.panicMode ∧ sEnd.current = { type := .rightParen } ∧ sEnd.following = [{ type := .endOfFile }] := by
  induction n generalizing s with
  | zero => exact ⟨_, .last rfl rfl, rfl, rfl, rfl⟩
  | succ n ih =>
    obtain ⟨sEnd, hargs, hpanic, hcurrent, hfollowing⟩ := ih (emitOp (advance (advance (atNil s (n + 1)))) .nil)
    exact ⟨sEnd, .more rfl rfl hargs, hpanic, hcurrent, hfollowing⟩

theorem not_unclosed {s : State N} (hpanic : s.panicMode = false) (hcurrent : s.current = { type := .rightParen })
    (hfollowing : s.following = [{ type := .endOfFile }]) : ¬Unclosed s := by
  rw [Unclosed, consume, if_pos (by rw [hcurrent]), advance, hfollowing]
  intro h
  change s.panicMode = true at h
  rw [hpanic] at h
  cases h

theorem callArguments_nil (n : Nat) (s : State N) (hpanic : s.panicMode = false) :
    ∃ sEnd, CallArguments hashString strtod recover (n + 3) (atNil s n) (n + 1) sEnd ∧ ¬Unclosed sEnd := by
  obtain ⟨sEnd, hargs, hcalm, hcurrent, hfollowing⟩ := @arguments_nil N hashString strtod recover n s
  exact ⟨sEnd, .some rfl hargs, not_unclosed (hcalm.trans hpanic) hcurrent hfollowing⟩

end Many

theorem counted_iff_many : ∃ sEnd s', CallArguments (fun _ => 0) (fun _ => 0) synchronize 202 (atNil (written []) 199) 200 sEnd ∧
    call (run (fun _ => 0) (fun _ => 0) synchronize 202) (atNil (written []) 199) = .ok s' ∧
    Counted (fun _ => 0) (fun _ => 0) 200 sEnd s' := by
  obtain ⟨sEnd, hargs, -⟩ := @callArguments_nil Int (fun _ => 0) (fun _ => 0) synchronize 199 (written []) rfl
  exact ⟨sEnd, _, hargs, hargs.call_eq, (counted_iff hargs hargs.call_eq).mpr (.inl (by decide))⟩

/-- A call with 256 arguments is compiled to one with none. -/
theorem not_counted_many : ∃ sEnd s', CallArguments (fun _ => 0) (fun _ => 0) synchronize 258 (atNil (written []) 255) 256 sEnd ∧
    call (run (fun _ => 0) (fun _ => 0) synchronize 258) (atNil (written []) 255) = .ok s' ∧ s'.panicMode = false ∧
    s'.code = sEnd.code ++ [OpCode.call.toByte, 0] ∧ ¬Counted (fun _ => 0) (fun _ => 0) 256 sEnd s' := by
  obtain ⟨sEnd, hargs, hclosed⟩ := @callArguments_nil Int (fun _ => 0) (fun _ => 0) synchronize 255 (written []) rfl
  obtain ⟨hcode, hpanic⟩ := finishCall_spec sEnd (UInt8.ofNat 256)
  refine ⟨sEnd, _, hargs, hargs.call_eq, ?_, hcode, ?_⟩
  · rw [← Bool.not_eq_true, hpanic]
    exact not_or.mpr ⟨by decide, hclosed⟩
  · rw [show 255 + 1 = 256 from rfl, counted_finishCall]
    rintro (hfew | hmax | hreported)
    · exact absurd hfew (by decide)
    · exact absurd hmax (by decide)
    · exact hclosed hreported

end Reading.Clox
