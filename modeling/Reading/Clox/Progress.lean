import Reading.Clox.Tokenizer

/-!
# When the compiler comes to an end

Every function that is called recursively reads a token before it calls itself again, so the calls cannot be nested more deeply than there are tokens, up to a factor. What keeps `compile` from coming to an end is in `synchronize`: its loop looks at the types of two tokens that it has read before the loop, and so it ends in the first round or never. The other way not to come to an end is the token `.`, which has a precedence but no function to call.
-/

namespace Reading.Clox

variable {N : Type}

/-- The loop of `synchronize` would have to skip a token. -/
def Stuck (s : State N) : Prop :=
  s.current.type ≠ .endOfFile ∧ s.previous.type ≠ .semicolon ∧ isBoundary s.current.type = false

instance (s : State N) : Decidable (Stuck s) := inferInstanceAs (Decidable (_ ∧ _))

/-- The recovery made to stop where it has tokens to skip. -/
def recoverUnlessStuck (s : State N) : Except Stop (State N) :=
  if Stuck s then .error .stuck else .ok { s with panicMode := false }

theorem not_stuck_iff {s : State N} :
    ¬ Stuck s ↔ s.current.type = .endOfFile ∨ s.previous.type = .semicolon ∨ isBoundary s.current.type = true := by
  rw [Stuck, not_and_or, not_and_or, not_not, not_not, Bool.not_eq_false]

/-- In the first round or never. -/
theorem synchronizeLoop_eq (s t : State N) (rounds : Nat) :
    synchronizeLoop s.current.type s.previous.type (rounds + 1) t = if Stuck s then .error .loop else .ok t := by
  by_cases hstuck : Stuck s
  · have hnever := (not_iff_not.mpr (@not_stuck_iff N s)).mp (not_not.mpr hstuck)
    rw [if_pos hstuck]
    induction rounds generalizing t with
    | zero =>
      rw [synchronizeLoop, if_neg hnever]
      rfl
    | succ rounds ih => rw [synchronizeLoop, if_neg hnever, ih]
  · rw [if_neg hstuck, synchronizeLoop, if_pos (not_stuck_iff.mp hstuck)]

theorem synchronize_eq (s : State N) : synchronize s = if Stuck s then .error .loop else .ok { s with panicMode := false } := by
  rw [synchronize]
  exact synchronizeLoop_eq s _ _

/-! ### What the functions read -/

/-- The string objects that the functions refer to, finished or not. -/
def State.made (s : State N) : List VmString :=
  s.objects.functions.flatMap VmFunction.strings ++ (s.compiler :: s.enclosing).flatMap fun c => c.function.strings

/-- The part of the state that decides how the tokens are read, and the strings. -/
structure Front where
  previous : Token
  current : Token
  following : List Token
  strings : Strings
  made : List VmString

@[simp] theorem mem_made {s : State N} {string : VmString} :
    string ∈ s.made ↔ (∃ f ∈ s.objects.functions, string ∈ f.strings) ∨ string ∈ s.compiler.function.strings ∨
      ∃ c ∈ s.enclosing, string ∈ c.function.strings := by
  simp [State.made]

def State.front (s : State N) : Front := ⟨s.previous, s.current, s.following, s.objects.strings, s.made⟩

section Emit

variable (s : State N)

@[simp] theorem front_errorAt (token : Token) (message : Option String) : (errorAt s token message).front = s.front := by
  rw [errorAt]
  split <;> rfl

@[simp] theorem front_error (message : String) : (error s message).front = s.front := front_errorAt s _ _

@[simp] theorem front_errorAtCurrent (message : String) : (errorAtCurrent s message).front = s.front := front_errorAt s _ _

theorem front_modify (f : VmFunction N → VmFunction N) (hf : ∀ function, (f function).strings = function.strings) :
    (s.modify f).front = s.front := by
  simp [State.front, State.made, State.modify, hf]

@[simp] theorem front_emitByte (byte : UInt8) : (emitByte s byte).front = s.front := rfl

@[simp] theorem front_emitOp (op : OpCode) : (emitOp s op).front = s.front := rfl

@[simp] theorem front_emitReturn : (emitReturn s).front = s.front := rfl

@[simp] theorem front_emitJump (op : OpCode) : (emitJump s op).1.front = s.front := rfl

@[simp] theorem front_patchJump (offset : Nat) : (patchJump s offset).front = s.front := by
  rw [patchJump]
  refine (front_modify _ _ fun _ => rfl).trans ?_
  split
  · exact front_error s _
  · rfl

@[simp] theorem front_emitLoop (loopStart : Nat) : (emitLoop s loopStart).front = s.front := by
  rw [emitLoop]
  split <;> simp

@[simp] theorem front_scopeBegin : (scopeBegin s).front = s.front := rfl

theorem front_emitOps (ops : List OpCode) : (ops.foldl emitOp s).front = s.front := by
  induction ops generalizing s with
  | nil => rfl
  | cons op ops ih => rw [List.foldl_cons, ih, front_emitOp]

@[simp] theorem front_scopeEnd : (scopeEnd s).front = s.front := by
  rw [scopeEnd]
  dsimp only
  rw [front_emitOps]
  rfl

@[simp] theorem front_variableLocalResolve (name : Chars) : (variableLocalResolve s name).1.front = s.front := by
  rw [variableLocalResolve]
  split
  · rfl
  · split <;> simp

@[simp] theorem front_variableLocalAdd (name : Chars) : (variableLocalAdd s name).front = s.front := by
  rw [variableLocalAdd]
  split
  · simp
  · rfl

@[simp] theorem front_declareLoop (name : Chars) (locals : List Local) : (declareLoop name s locals).front = s.front := by
  induction locals generalizing s with
  | nil => rfl
  | cons l locals ih =>
    rw [declareLoop]
    split
    · rfl
    · rw [ih]
      split <;> simp

@[simp] theorem front_variableDeclare : (variableDeclare s).front = s.front := by
  rw [variableDeclare]
  split <;> simp

@[simp] theorem front_variableInitialize : (variableInitialize s).front = s.front := by
  rw [variableInitialize]
  split <;> rfl

@[simp] theorem front_variableDefine (variableId : UInt8) : (variableDefine s variableId).front = s.front := by
  rw [variableDefine]
  split <;> simp

@[simp] theorem front_literal : (literal s).front = s.front := by
  rw [literal]
  split <;> simp

end Emit

variable (hashString : Chars → Nat) (old : VmString → Prop)

/-- The parser is at a token of a list that ends properly, the strings are interned, and the old ones are still there. -/
structure Front.Sound (f : Front) : Prop where
  terminated : Terminated (f.current :: f.following)
  strings : f.strings.Valid hashString
  interned : ∀ string ∈ f.made, f.strings.Has string
  kept : ∀ string, old string → f.strings.Has string

/-- The number of tokens behind the current one. -/
def Front.left (f : Front) : Nat := f.following.length

variable {hashString old}

theorem Front.Sound.left_pos {f : Front} (h : f.Sound hashString old) (hcurrent : f.current.type ≠ .endOfFile) : 0 < f.left := by
  have hterminated := h.terminated
  rw [Front.left]
  cases hfollowing : f.following with
  | nil =>
    rw [hfollowing] at hterminated
    exact absurd hterminated hcurrent
  | cons token tokens => simp

@[simp] theorem errorAt_previous (s : State N) (token : Token) (message : Option String) :
    (errorAt s token message).previous = s.previous := congrArg Front.previous (front_errorAt s token message)

theorem nextToken_previous (s : State N) (tokens : List Token) : (nextToken s tokens).previous = s.previous := by
  induction tokens generalizing s with
  | nil => rfl
  | cons token tokens ih =>
    rw [nextToken]
    split
    · rfl
    · rw [ih, errorAt_previous]

@[simp] theorem advance_previous (s : State N) : (advance s).previous = s.current := nextToken_previous _ _

/-- Tokens of the type `TOKEN_ERROR` are passed over. -/
theorem nextToken_spec (s : State N) {tokens : List Token} (h : Terminated tokens) :
    (nextToken s tokens).objects = s.objects ∧ (nextToken s tokens).made = s.made ∧
      Terminated ((nextToken s tokens).current :: (nextToken s tokens).following) ∧
      (nextToken s tokens).following.length < tokens.length := by
  induction tokens generalizing s with
  | nil => exact h.elim
  | cons token tokens ih =>
    rw [nextToken]
    split
    · exact ⟨rfl, rfl, h, Nat.lt_succ_self _⟩
    · rename_i herror
      have hne : token.type ≠ .endOfFile := by
        rw [not_not.mp herror]
        simp
      obtain ⟨hobjects, hmade, hterminated, hlt⟩ :=
        ih (errorAt { s with current := token, following := tokens } token none) (terminated_cons h hne)
      refine ⟨hobjects.trans ?_, hmade.trans ?_, hterminated, Nat.lt_succ_of_lt hlt⟩ <;>
        rw [errorAt] <;> split <;> rfl

variable (hashString old)

/-- Strings are interned, and at most `n` tokens are behind the current one, the last of them the end of the file. -/
def Within (n : Nat) (s : State N) : Prop := s.front.Sound hashString old ∧ s.front.left ≤ n

variable {hashString old}

section Within

variable {n m : Nat} {s s' : State N}

theorem Within.of_front (h : Within hashString old n s) (hfront : s'.front = s.front) : Within hashString old n s' := by
  rw [Within, hfront]
  exact h

theorem Within.mono (h : Within hashString old n s) (hle : n ≤ m) : Within hashString old m s := ⟨h.1, h.2.trans hle⟩

theorem Within.advance (h : Within hashString old n s) : Within hashString old (n - 1) (advance s) := by
  by_cases hnil : s.following = []
  · have hadvance : Clox.advance s = { s with previous := s.current } := by
      rw [Clox.advance, hnil, nextToken]
    rw [hadvance]
    refine ⟨⟨h.1.terminated, h.1.strings, h.1.interned, h.1.kept⟩, ?_⟩
    show s.following.length ≤ n - 1
    simp [hnil]
  · have hterminated : Terminated s.following := by
      have hall := h.1.terminated
      simp only [State.front] at hall
      cases hfollowing : s.following with
      | nil => exact absurd hfollowing hnil
      | cons token tokens =>
        rw [hfollowing] at hall
        exact hall.2
    obtain ⟨hobjects, hmade, hterm, hlt⟩ := nextToken_spec { s with previous := s.current } hterminated
    have hobjects : (Clox.advance s).objects = s.objects := hobjects
    refine ⟨⟨hterm, ?_, ?_, ?_⟩, Nat.le_sub_one_of_lt (hlt.trans_le h.2)⟩
    · show (Clox.advance s).objects.strings.Valid hashString
      rw [hobjects]
      exact h.1.strings
    · intro string hstring
      show (Clox.advance s).objects.strings.Has string
      rw [hobjects]
      refine h.1.interned string ?_
      show string ∈ s.made
      rw [show s.made = (Clox.advance s).made from hmade.symm]
      exact hstring
    · intro string hstring
      show (Clox.advance s).objects.strings.Has string
      rw [hobjects]
      exact h.1.kept string hstring

/-- The functions refer to strings that are known. -/
theorem Within.of_made (h : Within hashString old n s) (hcurrent : s'.current = s.current) (hfollowing : s'.following = s.following)
    (hstrings : s'.objects.strings = s.objects.strings)
    (hmade : ∀ string ∈ s'.made, string ∈ s.made ∨ s.objects.strings.Has string) : Within hashString old n s' := by
  have hleft : s'.front.left = s.front.left := congrArg List.length hfollowing
  refine ⟨⟨?_, ?_, ?_, ?_⟩, hleft.trans_le h.2⟩
  · show Terminated (s'.current :: s'.following)
    rw [hcurrent, hfollowing]
    exact h.1.terminated
  · show s'.objects.strings.Valid hashString
    rw [hstrings]
    exact h.1.strings
  · intro string hstring
    show s'.objects.strings.Has string
    rw [hstrings]
    exact (hmade string hstring).elim (h.1.interned string) id
  · intro string hstring
    show s'.objects.strings.Has string
    rw [hstrings]
    exact h.1.kept string hstring

theorem Within.makeConstant (h : Within hashString old n s) {value : Value N} (hvalue : ∀ string ∈ value.strings, s.objects.strings.Has string) :
    Within hashString old n (makeConstant s value).1 := by
  have hadded : Within hashString old n (s.modify fun f => { f with constants := f.constants ++ [value] }) := by
    refine h.of_made rfl rfl rfl fun string hstring => ?_
    simp only [mem_made, State.modify, VmFunction.strings, List.flatMap_append, List.flatMap_singleton, List.mem_append] at hstring ⊢
    obtain hfinished | ((hold | hnew) | hname) | hpending := hstring
    · exact .inl (.inl hfinished)
    · exact .inl (.inr (.inl (.inl hold)))
    · exact .inr (hvalue string hnew)
    · exact .inl (.inr (.inl (.inr hname)))
    · exact .inl (.inr (.inr hpending))
  rw [Clox.makeConstant]
  split
  · exact hadded.of_front (front_error _ _)
  · exact hadded

theorem Within.emitConstant (h : Within hashString old n s) {value : Value N} (hvalue : ∀ string ∈ value.strings, s.objects.strings.Has string) :
    Within hashString old n (emitConstant s value) :=
  (h.makeConstant hvalue).of_front ((front_emitByte _ _).trans (front_emitOp _ _))

theorem Within.number (h : Within hashString old n s) (strtod : Chars → N) : Within hashString old n (number strtod s) :=
  h.emitConstant (by simp [Value.strings])

theorem Within.compilerEnd (h : Within hashString old n s) : Within hashString old n (compilerEnd s).1 := by
  refine h.of_made rfl rfl rfl fun string hstring => .inl ?_
  simp only [mem_made, Clox.compilerEnd, emitReturn, emitOp, emitByte, State.modify, List.mem_append, List.mem_singleton] at hstring ⊢
  obtain ⟨f, hold | rfl, hf⟩ | hcompiler | ⟨c, hc, hstring⟩ := hstring
  · exact .inl ⟨f, hold, hf⟩
  · exact .inr (.inl hf)
  · cases henclosing : s.enclosing with
    | nil =>
      rw [henclosing] at hcompiler
      exact .inr (.inl hcompiler)
    | cons c enclosing =>
      rw [henclosing] at hcompiler
      exact .inr (.inr ⟨c, List.mem_cons_self, hcompiler⟩)
  · exact .inr (.inr ⟨c, List.mem_of_mem_tail hc, hstring⟩)

theorem Within.consume (h : Within hashString old n s) (type : TokenType) (message : String) :
    Within hashString old n (consume s type message) := by
  rw [Clox.consume]
  split
  · exact h.advance.mono (Nat.sub_le n 1)
  · exact h.of_front (front_errorAtCurrent s message)

theorem Within.pos (h : Within hashString old n s) (hcurrent : s.current.type ≠ .endOfFile) : 0 < n :=
  (h.1.left_pos hcurrent).trans_le h.2

theorem Within.pos_of_check (h : Within hashString old n s) {type : TokenType} (hcheck : check s type = true)
    (htype : type ≠ .endOfFile) : 0 < n := by
  apply h.pos
  rw [show s.current.type = type from of_decide_eq_true hcheck]
  exact htype

end Within

/-! ### Calls that come to an end -/

/-- The result is a state with at most `n` tokens left, or the compiler stopped at one of its defects or for a string that has no room. -/
def Ends {α : Type} (hashString : Chars → Nat) (old : VmString → Prop) (state : α → State N) (n : Nat) : Except Stop α → Prop
  | .ok a => Within hashString old n (state a)
  | .error e => e = .stuck ∨ e = .nullRule ∨ e = .full

section Ends

variable {α β : Type} {state : α → State N} {state' : β → State N} {n m : Nat}

theorem Ends.mono {r : Except Stop α} (h : Ends hashString old state n r) (hle : n ≤ m) : Ends hashString old state m r := by
  cases r with
  | ok a => exact Within.mono h hle
  | error e => exact h

theorem Ends.bind {r : Except Stop α} (h : Ends hashString old state n r) {k : α → Except Stop β}
    (hk : ∀ a, Within hashString old n (state a) → Ends hashString old state' m (k a)) : Ends hashString old state' m (r >>= k) := by
  cases r with
  | ok a => exact hk a h
  | error e => exact h

/-- The same for functions that return nothing but the state. -/
theorem Ends.andThen {r : Except Stop (State N)} (h : Ends hashString old id n r) {k : State N → Except Stop β}
    (hk : ∀ s, Within hashString old n s → Ends hashString old state' m (k s)) : Ends hashString old state' m (r >>= k) :=
  h.bind hk

end Ends

/-- How much a call counts beside the tokens that are left. -/
def Fn.weight : Fn → Nat
  | .infixLoop .. | .parameters => 1
  | .precParse _ => 2
  | .arguments _ | .statement => 3
  | .declaration => 4
  | .block | .program => 5

/-- The bound for the tokens left after the call: some functions read a token in any case. -/
def Fn.out (f : Fn) (n : Nat) : Nat :=
  match f with
  | .precParse _ | .statement | .declaration => n - 1
  | .infixLoop .. | .arguments _ | .parameters | .block | .program => n

/-- The lowest precedence is not asked for. -/
def Fn.Admissible : Fn → Prop
  | .precParse prec | .infixLoop prec _ => 0 < prec
  | _ => True

/-- Calls that are small enough come to an end. -/
def Answers (hashString : Chars → Nat) (old : VmString → Prop) (parse : Fn → State N → Except Stop (State N)) (depth : Nat) : Prop :=
  ∀ f n s, f.Admissible → Within hashString old n s → 6 * n + f.weight < depth → Ends hashString old id (f.out n) (parse f s)

section Calls

variable {parse : Fn → State N → Except Stop (State N)} {depth n : Nat} {s : State N}

theorem Answers.expression (h : Answers hashString old parse depth) (hs : Within hashString old n s) (hdepth : 6 * n + 2 < depth) :
    Ends hashString old id (n - 1) (expression parse s) :=
  h (.precParse Prec.assignment) n s Nat.zero_lt_one hs hdepth

/-- A string is interned, and the rest of the computation goes on with it. -/
theorem ends_internString {β : Type} {state : β → State N} {m : Nat} (hs : Within hashString old n s) (chars : Chars)
    {k : State N × VmString → Except Stop β}
    (hk : ∀ s' string, Within hashString old n s' → s'.objects.strings.Has string → Ends hashString old state m (k (s', string))) :
    Ends hashString old state m (internString hashString s chars >>= k) := by
  obtain hnone | ⟨string, strings, hcopy, hvalid, -, hhas, hkept⟩ := vmstringCopy_spec hs.1.strings chars
  · have hnone : vmstringCopy hashString s.objects.strings chars = none := hnone
    rw [internString, hnone]
    exact .inr (.inr rfl)
  · have hcopy : vmstringCopy hashString s.objects.strings chars = some (string, strings) := hcopy
    rw [internString, hcopy]
    refine hk { s with objects := { s.objects with strings := strings } } string ?_ hhas
    exact ⟨⟨hs.1.terminated, hvalid, fun made hmade => hkept made (hs.1.interned made hmade),
      fun known hknown => hkept known (hs.1.kept known hknown)⟩, hs.2⟩

theorem ends_identifierConstant (hs : Within hashString old n s) (name : Chars) :
    Ends hashString old Prod.fst n (identifierConstant hashString s name) := by
  rw [identifierConstant]
  exact ends_internString hs name fun s' string hs' hhas => hs'.makeConstant (by simpa [Value.strings] using hhas)

theorem ends_variableParse (hs : Within hashString old n s) (message : String) :
    Ends hashString old Prod.fst n (variableParse hashString s message) := by
  have hdeclared := (hs.consume .identifier message).of_front (front_variableDeclare _)
  rw [variableParse]
  split
  · exact hdeclared
  · exact ends_identifierConstant hdeclared _

theorem ends_resolveVariable (hs : Within hashString old n s) (name : Chars) :
    Ends hashString old Prod.fst n (resolveVariable hashString s name) := by
  have hfront := front_variableLocalResolve s name
  rw [resolveVariable]
  split
  · rename_i s' slot hresolve
    rw [hresolve] at hfront
    exact hs.of_front hfront
  · rename_i s' hresolve
    rw [hresolve] at hfront
    exact (ends_identifierConstant (hs.of_front hfront) name).bind fun r hr => hr

/-! ### Expressions -/

theorem ends_namedVariable (h : Answers hashString old parse depth) (hs : Within hashString old n s) (name : Chars)
    (canAssign : Bool) (hdepth : 6 * n + 2 < depth) :
    Ends hashString old id n (namedVariable hashString parse s name canAssign) := by
  rw [namedVariable]
  refine (ends_resolveVariable hs name).bind ?_
  rintro ⟨s', getOp, setOp, arg⟩ hs'
  simp only at hs' ⊢
  split
  · have hadvance : Within hashString old n (advance s') := hs'.advance.mono (Nat.sub_le n 1)
    refine (h.expression hadvance hdepth).andThen fun s'' hs'' => ?_
    exact (hs''.mono (Nat.sub_le n 1)).of_front rfl
  · exact hs'.of_front rfl

theorem ends_string (hs : Within hashString old n s) : Ends hashString old id n (string hashString s) := by
  rw [Clox.string]
  exact ends_internString hs _ fun s' string hs' hhas => hs'.emitConstant (by simpa [Value.strings] using hhas)

theorem ends_grouping (h : Answers hashString old parse depth) (hs : Within hashString old n s) (hdepth : 6 * n + 2 < depth) :
    Ends hashString old id n (grouping parse s) := by
  rw [grouping]
  exact (h.expression hs hdepth).andThen fun s' hs' => (hs'.consume _ _).mono (Nat.sub_le n 1)

/-- `prec_parse` for an operand. -/
theorem Answers.operand (h : Answers hashString old parse depth) {prec : Nat} (hprec : 0 < prec) (hs : Within hashString old n s)
    (hdepth : 6 * n + 2 < depth) : Ends hashString old id n (parse (.precParse prec) s) :=
  (h (.precParse prec) n s hprec hs hdepth).mono (Nat.sub_le n 1)

theorem ends_unary (h : Answers hashString old parse depth) (hs : Within hashString old n s) (hdepth : 6 * n + 2 < depth) :
    Ends hashString old id n (unary parse s) := by
  rw [unary]
  refine (h.operand (by decide) hs hdepth).andThen fun s' hs' => ?_
  split <;> exact hs'.of_front rfl

theorem ends_binary (h : Answers hashString old parse depth) (hs : Within hashString old n s) (hdepth : 6 * n + 2 < depth) :
    Ends hashString old id n (binary parse s) := by
  rw [binary]
  refine (h.operand (Nat.succ_pos _) hs hdepth).andThen fun s' hs' => ?_
  split <;> exact hs'.of_front rfl

theorem ends_and (h : Answers hashString old parse depth) (hs : Within hashString old n s) (hdepth : 6 * n + 2 < depth) :
    Ends hashString old id n (and parse s) := by
  have hjump : Within hashString old n (emitOp (emitJump s .jumpIfFalse).1 .pop) := hs.of_front (by simp)
  rw [and]
  exact (h.operand (by decide) hjump hdepth).andThen fun s' hs' => hs'.of_front (front_patchJump _ _)

theorem ends_or (h : Answers hashString old parse depth) (hs : Within hashString old n s) (hdepth : 6 * n + 2 < depth) :
    Ends hashString old id n (or parse s) := by
  rw [or]
  refine Ends.andThen (h.operand (by decide) (hs.of_front ?_) hdepth) fun s' hs' => hs'.of_front (front_patchJump _ _)
  simp

theorem Within.finishCall (hs : Within hashString old n s) (argCount : UInt8) : Within hashString old n (finishCall s argCount) := by
  have hs' : Within hashString old n (if argCount = 255 then error s "Cannot have more than 255 arguments." else s) := by
    split
    · exact hs.of_front (front_error _ _)
    · exact hs
  exact (hs'.consume .rightParen "Expect ')' after arguments.").of_front ((front_emitByte _ _).trans (front_emitOp _ _))

theorem ends_call (h : Answers hashString old parse depth) (hs : Within hashString old n s) (hdepth : 6 * n + 3 < depth) :
    Ends hashString old id n (call parse s) := by
  rw [call]
  split
  · exact hs.finishCall 0
  · exact h (.arguments 0) n s trivial hs hdepth

theorem ends_argumentLoop (h : Answers hashString old parse depth) (hs : Within hashString old n s) (argCount : UInt8)
    (hdepth : 6 * n + 2 < depth) : Ends hashString old id n (argumentLoop parse s argCount) := by
  rw [argumentLoop]
  refine (h.expression hs hdepth).andThen fun s' hs' => ?_
  split
  · rename_i hcomma
    have hpos := hs'.pos_of_check hcomma (by decide)
    refine (h (.arguments _) (n - 1 - 1) (advance s') trivial hs'.advance ?_).mono ?_
    · simp only [Fn.weight]
      omega
    · simp only [Fn.out]
      omega
  · exact (hs'.finishCall _).mono (Nat.sub_le n 1)

theorem ends_applyPrefix (h : Answers hashString old parse depth) (strtod : Chars → N) (rule : PrefixRule) (canAssign : Bool)
    (hs : Within hashString old n s) (hdepth : 6 * n + 2 < depth) :
    Ends hashString old id n (applyPrefix hashString strtod parse rule canAssign s) := by
  cases rule with
  | grouping => exact ends_grouping h hs hdepth
  | unary => exact ends_unary h hs hdepth
  | «variable» => exact ends_namedVariable h hs _ _ hdepth
  | string => exact ends_string hs
  | number => exact hs.number strtod
  | literal => exact hs.of_front (front_literal s)

theorem ends_applyInfix (h : Answers hashString old parse depth) (rule : InfixRule) (hs : Within hashString old n s)
    (hdepth : 6 * n + 3 < depth) : Ends hashString old id n (applyInfix parse rule s) := by
  cases rule with
  | call => exact ends_call h hs hdepth
  | binary => exact ends_binary h hs (by omega)
  | and => exact ends_and h hs (by omega)
  | or => exact ends_or h hs (by omega)

/-- An operator is not the end of the file. -/
theorem current_ne_of_precedence {prec : Nat} (hprec : 0 < prec) (hle : prec ≤ precedence s.current.type) :
    s.current.type ≠ .endOfFile := by
  intro hend
  rw [hend] at hle
  exact absurd hle (Nat.not_le.mpr hprec)

theorem ends_infixLoop (h : Answers hashString old parse depth) {prec : Nat} (hprec : 0 < prec) (canAssign : Bool)
    (hs : Within hashString old n s) (hdepth : 6 * n < depth) : Ends hashString old id n (infixLoop parse prec canAssign s) := by
  rw [infixLoop]
  split
  · rename_i hle
    have hpos := hs.pos (current_ne_of_precedence hprec hle)
    dsimp only
    split
    · exact .inr (.inl rfl)
    · refine (ends_applyInfix h _ hs.advance (by omega)).andThen fun s' hs' => ?_
      refine (h (.infixLoop prec canAssign) (n - 1) s' hprec hs' ?_).mono (Nat.sub_le n 1)
      simp only [Fn.weight]
      omega
  · exact hs

theorem ends_precParse (h : Answers hashString old parse depth) (strtod : Chars → N) {prec : Nat} (hprec : 0 < prec)
    (hs : Within hashString old n s) (hdepth : 6 * n + 1 < depth) :
    Ends hashString old id (n - 1) (precParse hashString strtod parse prec s) := by
  rw [precParse]
  dsimp only
  split
  · exact hs.advance.of_front (front_error _ _)
  · rename_i rule hrule
    have hpos : 0 < n := by
      apply hs.pos
      intro hend
      rw [advance_previous, hend] at hrule
      simp [prefixRule] at hrule
    refine (ends_applyPrefix h strtod rule _ hs.advance (by omega)).andThen fun s' hs' => ?_
    refine Ends.andThen (h (.infixLoop prec _) (n - 1) s' hprec hs' ?_) fun s'' hs'' => ?_
    · simp only [Fn.weight]
      omega
    · split
      · have herror := (hs''.advance.of_front (front_error _ "Invalid assignment target."))
        exact (h.expression (herror.mono (Nat.sub_le _ 1)) (by simp only [Fn.out]; omega)).mono (Nat.sub_le _ 1)
      · exact hs''

/-! ### Statements -/

theorem ends_printStatement (h : Answers hashString old parse depth) (hs : Within hashString old n s) (hdepth : 6 * n + 2 < depth) :
    Ends hashString old id n (printStatement parse s) := by
  rw [printStatement]
  refine (h.expression hs hdepth).andThen fun s' hs' => ?_
  exact ((hs'.consume _ _).mono (Nat.sub_le n 1)).of_front rfl

theorem ends_expressionStatement (h : Answers hashString old parse depth) (hs : Within hashString old n s)
    (hdepth : 6 * n + 2 < depth) : Ends hashString old id (n - 1) (expressionStatement parse s) := by
  rw [expressionStatement]
  refine (h.expression hs hdepth).andThen fun s' hs' => ?_
  have hemit : Within hashString old (n - 1) (emitOp s' .pop) := hs'.of_front rfl
  exact hemit.consume _ _

/-- `statement` within another one. -/
theorem Answers.substatement (h : Answers hashString old parse depth) (hs : Within hashString old n s) (hdepth : 6 * n + 3 < depth) :
    Ends hashString old id n (parse .statement s) :=
  (h .statement n s trivial hs hdepth).mono (Nat.sub_le n 1)

/-- `expression` with no token counted. -/
theorem Answers.subexpression (h : Answers hashString old parse depth) (hs : Within hashString old n s) (hdepth : 6 * n + 3 < depth) :
    Ends hashString old id n (Clox.expression parse s) :=
  (h.expression hs (by omega)).mono (Nat.sub_le n 1)

/-- Behind the condition of a statement. -/
theorem Within.condition (hs : Within hashString old n s) (type : TokenType) (message : String) :
    Within hashString old n (emitOp (emitJump (Clox.consume s type message) .jumpIfFalse).1 .pop) := by
  refine (hs.consume type message).of_front ?_
  simp

theorem ends_whileStatement (h : Answers hashString old parse depth) (hs : Within hashString old n s) (hdepth : 6 * n + 3 < depth) :
    Ends hashString old id n (whileStatement parse s) := by
  rw [whileStatement]
  refine (h.subexpression (hs.consume _ _) hdepth).andThen fun s₁ hs₁ => ?_
  refine Ends.andThen (h.substatement (hs₁.condition _ _) hdepth) fun s₂ hs₂ => hs₂.of_front ?_
  simp

theorem ends_elseBranch (h : Answers hashString old parse depth) (hs : Within hashString old n s) (hdepth : 6 * n + 3 < depth) :
    Ends hashString old id n (elseBranch parse s) := by
  rw [elseBranch]
  split
  · exact h.substatement (hs.advance.mono (Nat.sub_le n 1)) hdepth
  · exact hs

theorem ends_ifStatement (h : Answers hashString old parse depth) (hs : Within hashString old n s) (hdepth : 6 * n + 3 < depth) :
    Ends hashString old id n (ifStatement parse s) := by
  rw [ifStatement]
  refine (h.subexpression (hs.consume _ _) hdepth).andThen fun s₁ hs₁ => ?_
  refine Ends.andThen (h.substatement (hs₁.condition _ _) hdepth) fun s₂ hs₂ => ?_
  refine Ends.andThen (ends_elseBranch h (hs₂.of_front ?_) hdepth) fun s₃ hs₃ => hs₃.of_front (front_patchJump _ _)
  simp

theorem ends_varInitializer (h : Answers hashString old parse depth) (hs : Within hashString old n s) (hdepth : 6 * n + 3 < depth) :
    Ends hashString old id n (varInitializer parse s) := by
  rw [varInitializer]
  split
  · exact h.subexpression (hs.advance.mono (Nat.sub_le n 1)) hdepth
  · exact hs.of_front rfl

theorem ends_varDeclaration (h : Answers hashString old parse depth) (hs : Within hashString old n s) (hdepth : 6 * n + 3 < depth) :
    Ends hashString old id n (varDeclaration hashString parse s) := by
  rw [varDeclaration]
  refine (ends_variableParse hs _).bind fun r hr => ?_
  refine (ends_varInitializer h hr hdepth).andThen fun s' hs' => ?_
  exact (hs'.consume _ _).of_front (front_variableDefine _ _)

theorem ends_forInitializer (h : Answers hashString old parse depth) (hs : Within hashString old n s) (hdepth : 6 * n + 3 < depth) :
    Ends hashString old id n (forInitializer hashString parse s) := by
  have hadvance : Within hashString old n (advance s) := hs.advance.mono (Nat.sub_le n 1)
  rw [forInitializer]
  split
  · exact ends_varDeclaration h hadvance hdepth
  · split
    · exact hadvance
    · exact (ends_expressionStatement h hs (by omega)).mono (Nat.sub_le n 1)

theorem ends_forCondition (h : Answers hashString old parse depth) (hs : Within hashString old n s) (hdepth : 6 * n + 3 < depth) :
    Ends hashString old Prod.fst n (forCondition parse s) := by
  rw [forCondition]
  split
  · exact hs.advance.mono (Nat.sub_le n 1)
  · exact (h.subexpression hs hdepth).andThen fun s' hs' => hs'.condition _ _

theorem ends_forIncrement (h : Answers hashString old parse depth) (hs : Within hashString old n s) (loopStart : Nat)
    (hdepth : 6 * n + 3 < depth) : Ends hashString old Prod.fst n (forIncrement parse s loopStart) := by
  rw [forIncrement]
  split
  · exact hs.advance.mono (Nat.sub_le n 1)
  · have hjump : Within hashString old n (emitJump s .jump).1 := hs.of_front rfl
    refine (h.subexpression hjump hdepth).andThen fun s' hs' => ?_
    have hemit : Within hashString old n (emitOp s' .pop) := hs'.of_front rfl
    refine (hemit.consume .rightParen "Expect ')' after for clauses.").of_front ?_
    simp

theorem ends_forStatement (h : Answers hashString old parse depth) (hs : Within hashString old n s) (hdepth : 6 * n + 3 < depth) :
    Ends hashString old id n (forStatement hashString parse s) := by
  have hscope : Within hashString old n (scopeBegin s) := hs.of_front rfl
  rw [forStatement]
  refine (ends_forInitializer h (hscope.consume _ _) hdepth).andThen fun s₁ hs₁ => ?_
  refine (ends_forCondition h hs₁ hdepth).bind fun r₂ hs₂ => ?_
  refine (ends_forIncrement h hs₂ _ hdepth).bind fun r₃ hs₃ => ?_
  refine (h.substatement hs₃ hdepth).andThen fun s₄ hs₄ => hs₄.of_front ?_
  refine (front_scopeEnd _).trans ?_
  split <;> simp

theorem ends_returnStatement (h : Answers hashString old parse depth) (hs : Within hashString old n s) (hdepth : 6 * n + 3 < depth) :
    Ends hashString old id n (returnStatement parse s) := by
  have hs' : Within hashString old n
      (if s.compiler.type = .script then error s "Cannot return from top-level code." else s) := by
    split
    · exact hs.of_front (front_error _ _)
    · exact hs
  rw [returnStatement]
  generalize (if s.compiler.type = .script then error s "Cannot return from top-level code." else s) = t at hs' ⊢
  split
  · exact (hs'.advance.mono (Nat.sub_le n 1)).of_front (front_emitReturn _)
  · exact (h.subexpression hs' hdepth).andThen fun s' hs' => (hs'.consume _ _).of_front (front_emitOp _ _)

theorem ends_blockStatement (h : Answers hashString old parse depth) (hs : Within hashString old n s) (hdepth : 6 * n + 5 < depth) :
    Ends hashString old id n (blockStatement parse s) := by
  rw [blockStatement]
  exact Ends.andThen (h .block n s trivial hs hdepth) fun s' hs' => hs'.consume _ _

theorem ends_statement (h : Answers hashString old parse depth) (hs : Within hashString old n s) (hdepth : 6 * n + 2 < depth) :
    Ends hashString old id (n - 1) (statement hashString parse s) := by
  -- The statements that begin with a keyword or a brace.
  have hkey : s.current.type ≠ .endOfFile → 6 * (n - 1) + 5 < depth := fun hne => by
    have := hs.pos hne
    omega
  rw [statement]
  split
  · rename_i htype
    exact ends_printStatement h hs.advance (by have := hkey (by simp [htype]); omega)
  · rename_i htype
    exact ends_forStatement h hs.advance (by have := hkey (by simp [htype]); omega)
  · rename_i htype
    exact ends_ifStatement h hs.advance (by have := hkey (by simp [htype]); omega)
  · rename_i htype
    exact ends_whileStatement h hs.advance (by have := hkey (by simp [htype]); omega)
  · rename_i htype
    have hscope : Within hashString old (n - 1) (scopeBegin (advance s)) := hs.advance.of_front rfl
    refine (ends_blockStatement h hscope (hkey (by simp [htype]))).andThen fun s' hs' => ?_
    exact hs'.of_front (front_scopeEnd _)
  · rename_i htype
    exact ends_returnStatement h hs.advance (by have := hkey (by simp [htype]); omega)
  · exact ends_expressionStatement h hs hdepth

/-! ### Declarations -/

theorem ends_blockLoop (h : Answers hashString old parse depth) (hs : Within hashString old n s) (hdepth : 6 * n + 4 < depth) :
    Ends hashString old id n (blockLoop parse s) := by
  rw [blockLoop]
  split
  · exact hs
  · rename_i hcheck
    have hpos : 0 < n := by
      apply hs.pos
      intro hend
      simp [check, hend] at hcheck
    refine Ends.andThen (h .declaration n s trivial hs hdepth) fun s' hs' => ?_
    refine (h .block (n - 1) s' trivial hs' ?_).mono (Nat.sub_le n 1)
    simp only [Fn.weight]
    omega

theorem ends_programLoop (h : Answers hashString old parse depth) (hs : Within hashString old n s) (hdepth : 6 * n + 4 < depth) :
    Ends hashString old id n (programLoop parse s) := by
  rw [programLoop]
  split
  · exact hs.advance.mono (Nat.sub_le n 1)
  · rename_i hcheck
    have hpos : 0 < n := by
      apply hs.pos
      intro hend
      simp [check, hend] at hcheck
    refine Ends.andThen (h .declaration n s trivial hs hdepth) fun s' hs' => ?_
    refine (h .program (n - 1) s' trivial hs' ?_).mono (Nat.sub_le n 1)
    simp only [Fn.weight]
    omega

theorem ends_parameterLoop (h : Answers hashString old parse depth) (hs : Within hashString old n s) (hdepth : 6 * n < depth) :
    Ends hashString old id n (parameterLoop hashString parse s) := by
  rw [parameterLoop]
  refine (ends_variableParse hs _).bind fun r hr => ?_
  have hdefined : Within hashString old n ((variableDefine r.1 r.2).modify fun f => { f with arity := f.arity + 1 }) :=
    hr.of_front (front_variableDefine _ _)
  dsimp only
  generalize (variableDefine r.1 r.2).modify (fun f => { f with arity := f.arity + 1 }) = t at hdefined ⊢
  have hbounded : Within hashString old n
      (if t.compiler.function.arity > 8 then error t "Cannot have more than 8 parameters." else t) := by
    split
    · exact hdefined.of_front (front_error _ _)
    · exact hdefined
  generalize (if t.compiler.function.arity > 8 then error t "Cannot have more than 8 parameters." else t) = u at hbounded ⊢
  split
  · rename_i hcomma
    have hpos := hbounded.pos_of_check hcomma (by decide)
    refine (h .parameters (n - 1) _ trivial hbounded.advance ?_).mono (Nat.sub_le n 1)
    simp only [Fn.weight]
    omega
  · exact hbounded

theorem ends_parameterList (h : Answers hashString old parse depth) (hs : Within hashString old n s) (hdepth : 6 * n + 1 < depth) :
    Ends hashString old id n (parameterList parse s) := by
  rw [parameterList]
  split
  · exact hs
  · exact h .parameters n s trivial hs hdepth

theorem ends_compilerInit (hs : Within hashString old n s) : Ends hashString old id n (compilerInit hashString s) := by
  rw [compilerInit]
  refine ends_internString hs _ fun s' name hs' hhas => ?_
  show Within hashString old n { s' with
    compiler := { type := .function, function := { name := some name } }, enclosing := s'.compiler :: s'.enclosing }
  refine hs'.of_made rfl rfl rfl fun string hstring => ?_
  simp only [mem_made, VmFunction.strings, List.flatMap_nil, List.nil_append, Option.toList_some, List.mem_cons,
    List.not_mem_nil, or_false, exists_eq_or_imp] at hstring ⊢
  obtain hfinished | rfl | hpending := hstring
  · exact .inl (.inl hfinished)
  · exact .inr hhas
  · exact .inl (.inr hpending)

theorem ends_functionStatement (h : Answers hashString old parse depth) (hs : Within hashString old n s)
    (hdepth : 6 * n + 5 < depth) : Ends hashString old id n (functionStatement hashString parse s) := by
  rw [functionStatement]
  refine (ends_compilerInit hs).andThen fun s₁ hs₁ => ?_
  have hscope : Within hashString old n (scopeBegin s₁) := hs₁.of_front rfl
  refine (ends_parameterList h (hscope.consume _ _) (by omega)).andThen fun s₂ hs₂ => ?_
  refine (ends_blockStatement h ((hs₂.consume _ _).consume _ _) hdepth).andThen fun s₃ hs₃ => ?_
  exact hs₃.compilerEnd.emitConstant (by simp [Value.strings])

theorem ends_funcDeclaration (h : Answers hashString old parse depth) (hs : Within hashString old n s)
    (hdepth : 6 * n + 5 < depth) : Ends hashString old id n (funcDeclaration hashString parse s) := by
  rw [funcDeclaration]
  refine (ends_variableParse hs _).bind fun r hr => ?_
  refine (ends_functionStatement h (hr.of_front (front_variableInitialize _)) hdepth).andThen fun s' hs' => ?_
  exact hs'.of_front (front_variableDefine _ _)

theorem ends_declare (h : Answers hashString old parse depth) (hs : Within hashString old n s) (hdepth : 6 * n + 3 < depth) :
    Ends hashString old id (n - 1) (declare hashString parse s) := by
  have hkey : s.current.type ≠ .endOfFile → 6 * (n - 1) + 5 < depth := fun hne => by
    have := hs.pos hne
    omega
  rw [declare]
  split
  · rename_i htype
    exact ends_varDeclaration h hs.advance (by have := hkey (by simp [htype]); omega)
  · rename_i htype
    exact ends_funcDeclaration h hs.advance (hkey (by simp [htype]))
  · exact h .statement n s trivial hs hdepth

theorem ends_declaration (h : Answers hashString old parse depth) (hs : Within hashString old n s) (hdepth : 6 * n + 3 < depth) :
    Ends hashString old id (n - 1) (declaration hashString parse recoverUnlessStuck s) := by
  rw [declaration]
  refine (ends_declare h hs hdepth).andThen fun s' hs' => ?_
  split
  · rw [recoverUnlessStuck]
    split
    · exact .inl rfl
    · exact hs'.of_front rfl
  · exact hs'

end Calls

/-! ### Runs -/

/-- Each body calls with fewer tokens left, or a function of less weight. -/
theorem answers_run (strtod : Chars → N) (depth : Nat) : Answers hashString old (run hashString strtod recoverUnlessStuck depth) depth := by
  induction depth with
  | zero =>
    intro f n s _ _ hdepth
    exact absurd hdepth (Nat.not_lt_zero _)
  | succ depth ih =>
    intro f n s hf hs hdepth
    rw [run]
    cases f with
    | precParse prec => exact ends_precParse ih strtod hf hs (Nat.lt_of_succ_lt_succ hdepth)
    | infixLoop prec canAssign => exact ends_infixLoop ih hf canAssign hs (Nat.lt_of_succ_lt_succ hdepth)
    | arguments argCount => exact ends_argumentLoop ih hs argCount (Nat.lt_of_succ_lt_succ hdepth)
    | statement => exact ends_statement ih hs (Nat.lt_of_succ_lt_succ hdepth)
    | declaration => exact ends_declaration ih hs (Nat.lt_of_succ_lt_succ hdepth)
    | block => exact ends_blockLoop ih hs (Nat.lt_of_succ_lt_succ hdepth)
    | parameters => exact ends_parameterLoop ih hs (Nat.lt_of_succ_lt_succ hdepth)
    | program => exact ends_programLoop ih hs (Nat.lt_of_succ_lt_succ hdepth)

end Reading.Clox
