import Reading.Clox.Chunk

/-!
# The single-pass compiler

`compile` of `compiler.c`: a parser driven by a table of precedences that emits code while it reads. The functions of the source call each other through `parse`, which is an argument of each of them here; `run` ties the knot, with a bound on the depth of the calls. What can go wrong is a `Stop`: the recovery loop never ends, the table of the strings cannot grow any more, or the table of rules has no function where one is called. Errors are reported once until the next recovery and do not stop the compiler.

The tokens end with `TOKEN_ENDOFFILE`; `current` is the token the parser looks at and `following` are those behind it. `parser.previous` is null before the first token and is not read then, so the model has the first token in its place.
-/

namespace Reading.Clox

inductive TokenType where
  | leftParen
  | rightParen
  | leftBrace
  | rightBrace
  | comma
  | dot
  | minus
  | plus
  | semicolon
  | slash
  | star
  | bang
  | bangEqual
  | equal
  | equalEqual
  | greater
  | greaterEqual
  | less
  | lessEqual
  | identifier
  | string
  | number
  | andKey
  | classKey
  | elseKey
  | falseKey
  | forKey
  | funKey
  | ifKey
  | nilKey
  | orKey
  | printKey
  | returnKey
  | superKey
  | thisKey
  | trueKey
  | varKey
  | whileKey
  | error
  | endOfFile
deriving DecidableEq

structure Token where
  type : TokenType
  lexeme : Chars := []
  literal : Chars := []
deriving DecidableEq

/-! ### The table of rules -/

namespace Prec

def none : Nat := 0

def assignment : Nat := 1

def or : Nat := 2

def and : Nat := 3

def equality : Nat := 4

def comparison : Nat := 5

def term : Nat := 6

def factor : Nat := 7

def unary : Nat := 8

def call : Nat := 9

end Prec

inductive PrefixRule where
  | grouping
  | unary
  | variable
  | string
  | number
  | literal
deriving DecidableEq

inductive InfixRule where
  | call
  | binary
  | and
  | or
deriving DecidableEq

def prefixRule : TokenType → Option PrefixRule
  | .leftParen => some .grouping
  | .minus | .bang => some .unary
  | .identifier => some .variable
  | .string => some .string
  | .number => some .number
  | .falseKey | .nilKey | .trueKey => some .literal
  | _ => none

def infixRule : TokenType → Option InfixRule
  | .leftParen => some .call
  | .minus | .plus | .slash | .star | .bangEqual | .equalEqual | .greater | .greaterEqual | .less | .lessEqual => some .binary
  | .andKey => some .and
  | .orKey => some .or
  | _ => none

def precedence : TokenType → Nat
  | .leftParen | .dot => Prec.call
  | .minus | .plus => Prec.term
  | .slash | .star => Prec.factor
  | .bangEqual | .equalEqual => Prec.equality
  | .greater | .greaterEqual | .less | .lessEqual => Prec.comparison
  | .andKey => Prec.and
  | .orKey => Prec.or
  | _ => Prec.none

/-! ### The state -/

inductive FunctionType where
  | function
  | script
deriving DecidableEq

structure Local where
  name : Chars
  /-- Nothing while the initializer is read. -/
  depth : Option Nat
deriving DecidableEq

/-- A `VmCompiler` with the function it makes. -/
structure Compiler (N : Type) where
  type : FunctionType
  function : VmFunction N := {}
  /-- The first slot is the function's own. -/
  locals : List Local := [{ name := [], depth := some 0 }]
  scopeDepth : Nat := 0
deriving DecidableEq

structure State (N : Type) where
  previous : Token
  current : Token
  following : List Token
  panicMode : Bool := false
  hadError : Bool := false
  /-- The tokens that errors were reported at, with the message, which is the lexeme for a token of the type `TOKEN_ERROR`. -/
  errors : List (Token × Option String) := []
  compiler : Compiler N
  enclosing : List (Compiler N) := []
  objects : Objects N

inductive Stop where
  /-- The calls are nested more deeply than allowed. -/
  | depth
  /-- A loop never ends. -/
  | loop
  /-- A string cannot be put into the table. -/
  | full
  /-- A null pointer is called. -/
  | nullRule
  /-- A recovery has tokens to skip, where the compiler is made to stop at one. -/
  | stuck
deriving DecidableEq

variable {N : Type}

/-! ### Reading tokens -/

def errorAt (s : State N) (token : Token) (message : Option String) : State N :=
  if s.panicMode then s
  else { s with panicMode := true, hadError := true, errors := s.errors ++ [(token, message)] }

def error (s : State N) (message : String) : State N := errorAt s s.previous (some message)

def errorAtCurrent (s : State N) (message : String) : State N := errorAt s s.current (some message)

/-- The loop of `advance`, over the tokens behind the current one. -/
def nextToken (s : State N) : List Token → State N
  | [] => { s with following := [] }
  | token :: tokens =>
    let s := { s with current := token, following := tokens }
    if token.type ≠ .error then s else nextToken (errorAt s token none) tokens

def advance (s : State N) : State N := nextToken { s with previous := s.current } s.following

def check (s : State N) (type : TokenType) : Bool := s.current.type = type

def consume (s : State N) (type : TokenType) (message : String) : State N :=
  if s.current.type = type then advance s else errorAtCurrent s message

/-! ### Emitting code -/

/-- The function under construction. -/
def State.modify (s : State N) (f : VmFunction N → VmFunction N) : State N :=
  { s with compiler := { s.compiler with function := f s.compiler.function } }

def emitByte (s : State N) (byte : UInt8) : State N := s.modify fun f => { f with code := f.code ++ [byte] }

def emitOp (s : State N) (op : OpCode) : State N := emitByte s op.toByte

def makeConstant (s : State N) (value : Value N) : State N × UInt8 :=
  let constant := s.compiler.function.constants.length
  let s := s.modify fun f => { f with constants := f.constants ++ [value] }
  if constant > 255 then (error s "Too many constants in one chunk.", 0) else (s, UInt8.ofNat constant)

def emitConstant (s : State N) (value : Value N) : State N :=
  let (s, constant) := makeConstant s value
  emitByte (emitOp s .constant) constant

def emitReturn (s : State N) : State N := emitOp (emitOp s .nil) .return

/-- The place of the operand, which is patched later. -/
def emitJump (s : State N) (op : OpCode) : State N × Nat :=
  let s := emitByte (emitByte (emitOp s op) 0xff) 0xff
  (s, s.compiler.function.code.length - 2)

def patchJump (s : State N) (offset : Nat) : State N :=
  let jump := s.compiler.function.code.length - offset - 2
  let s := if jump > 255 then error s "Too much code to jump over." else s
  s.modify fun f => { f with code := (f.code.set offset (UInt8.ofNat (jump / 256))).set (offset + 1) (UInt8.ofNat jump) }

def emitLoop (s : State N) (loopStart : Nat) : State N :=
  let s := emitOp s .loop
  let offset := s.compiler.function.code.length - loopStart + 2
  let s := if offset > 65535 then error s "Loop body too large" else s
  emitByte (emitByte s (UInt8.ofNat (offset / 256))) (UInt8.ofNat offset)

/-! ### Scopes -/

def scopeBegin (s : State N) : State N :=
  { s with compiler := { s.compiler with scopeDepth := s.compiler.scopeDepth + 1 } }

/-- The number of locals at the end of the list that are deeper than `depth`. -/
def deeper (depth : Nat) (locals : List Local) : Nat :=
  (locals.reverse.takeWhile fun l => l.depth.any (depth < ·)).length

def scopeEnd (s : State N) : State N :=
  let depth := s.compiler.scopeDepth - 1
  let gone := deeper depth s.compiler.locals
  let s := { s with compiler := { s.compiler with
    scopeDepth := depth, locals := s.compiler.locals.take (s.compiler.locals.length - gone) } }
  (List.replicate gone OpCode.pop).foldl emitOp s

/-- The slot of the innermost local with the name. -/
def lastIndex (name : Chars) : List Local → Option Nat
  | [] => none
  | l :: locals => (lastIndex name locals).map (· + 1) |>.or (if l.name = name then some 0 else none)

/-- `variable_local_resolve`, with the error it reports. -/
def variableLocalResolve (s : State N) (name : Chars) : State N × Option Nat :=
  match lastIndex name s.compiler.locals with
  | none => (s, none)
  | some i =>
    if (s.compiler.locals[i]?.bind Local.depth).isNone then
      (error s "Cannot read local variable in its own initializer.", some i)
    else (s, some i)

def variableLocalAdd (s : State N) (name : Chars) : State N :=
  if s.compiler.locals.length = 256 then error s "Too many local variables in function."
  else { s with compiler := { s.compiler with locals := s.compiler.locals ++ [{ name := name, depth := none }] } }

/-- The loop of `variable_declare` from the innermost local outwards; every local of the scope with the name is reported. -/
def declareLoop (name : Chars) (s : State N) : List Local → State N
  | [] => s
  | l :: locals =>
    if l.depth.any (· < s.compiler.scopeDepth) then s
    else declareLoop name
      (if l.name = name then error s "Variable with this name already declared in this scope." else s) locals

def variableDeclare (s : State N) : State N :=
  if s.compiler.scopeDepth = 0 then s
  else variableLocalAdd (declareLoop s.previous.lexeme s s.compiler.locals.reverse) s.previous.lexeme

def variableInitialize (s : State N) : State N :=
  if s.compiler.scopeDepth = 0 then s
  else { s with compiler := { s.compiler with
    locals := s.compiler.locals.modify (s.compiler.locals.length - 1) fun l => { l with depth := some s.compiler.scopeDepth } } }

def variableDefine (s : State N) (variableId : UInt8) : State N :=
  if s.compiler.scopeDepth > 0 then variableInitialize s
  else emitByte (emitOp s .defineGlobal) variableId

/-! ### Recovery -/

/-- A statement begins with a token of the type. -/
def isBoundary : TokenType → Bool
  | .classKey | .funKey | .varKey | .forKey | .ifKey | .whileKey | .printKey | .returnKey => true
  | _ => false

/-- The loop of `synchronize`, for a number of rounds. The two types are read before the loop and never again. -/
def synchronizeLoop (currentType prevType : TokenType) : Nat → State N → Except Stop (State N)
  | 0, _ => .error .loop
  | rounds + 1, s =>
    if currentType = .endOfFile ∨ prevType = .semicolon ∨ isBoundary currentType then .ok s
    else synchronizeLoop currentType prevType rounds (advance s)

/-- `synchronize`. Once all tokens are passed the loop changes nothing any more, so more rounds would not end it either. -/
def synchronize (s : State N) : Except Stop (State N) :=
  synchronizeLoop s.current.type s.previous.type (s.following.length + 2) { s with panicMode := false }

/-! ### Functions that call each other -/

/-- The functions and loops that are called recursively. -/
inductive Fn where
  | precParse (prec : Nat)
  /-- The loop of `prec_parse`. -/
  | infixLoop (prec : Nat) (canAssign : Bool)
  /-- The loop of `argument_list` and what follows it, after so many arguments. -/
  | arguments (argCount : UInt8)
  | statement
  | declaration
  /-- The loop of `block_statement`. -/
  | block
  /-- The loop over the parameters. -/
  | parameters
  /-- The loop of `compile`. -/
  | program
deriving DecidableEq

section Functions

variable (hashString : Chars → Nat) (strtod : Chars → N) (parse : Fn → State N → Except Stop (State N))

def expression (s : State N) : Except Stop (State N) := parse (.precParse Prec.assignment) s

/-- An object with the characters is made or found. -/
def internString (s : State N) (chars : Chars) : Except Stop (State N × VmString) :=
  match vmstringCopy hashString s.objects.strings chars with
  | none => .error .full
  | some (string, strings) => .ok ({ s with objects := { s.objects with strings := strings } }, string)

def identifierConstant (s : State N) (name : Chars) : Except Stop (State N × UInt8) := do
  let (s, identifier) ← internString hashString s name
  .ok (makeConstant s (.string identifier))

def variableParse (s : State N) (message : String) : Except Stop (State N × UInt8) := do
  let s := variableDeclare (consume s .identifier message)
  if s.compiler.scopeDepth > 0 then .ok (s, 0) else identifierConstant hashString s s.previous.lexeme

/-- The two operations for a variable and their operand. -/
def resolveVariable (s : State N) (name : Chars) : Except Stop (State N × OpCode × OpCode × UInt8) :=
  match variableLocalResolve s name with
  | (s, some slot) => .ok (s, .getLocal, .setLocal, UInt8.ofNat slot)
  | (s, none) => do
    let (s, constant) ← identifierConstant hashString s name
    .ok (s, .getGlobal, .setGlobal, constant)

def namedVariable (s : State N) (name : Chars) (canAssign : Bool) : Except Stop (State N) := do
  let (s, getOp, setOp, arg) ← resolveVariable hashString s name
  if canAssign && check s .equal then do
    let s ← expression parse (advance s)
    .ok (emitByte (emitOp s setOp) arg)
  else .ok (emitByte (emitOp s getOp) arg)

def string (s : State N) : Except Stop (State N) := do
  let (s, string) ← internString hashString s s.previous.literal
  .ok (emitConstant s (.string string))

def number (s : State N) : State N := emitConstant s (.number (strtod s.previous.lexeme))

def literal (s : State N) : State N :=
  match s.previous.type with
  | .falseKey => emitOp s .false
  | .trueKey => emitOp s .true
  | .nilKey => emitOp s .nil
  | _ => s

def grouping (s : State N) : Except Stop (State N) := do
  let s ← expression parse s
  .ok (consume s .rightParen "Expect ')' after expression.")

def unary (s : State N) : Except Stop (State N) := do
  let operatorType := s.previous.type
  let s ← parse (.precParse Prec.unary) s
  match operatorType with
  | .minus => .ok (emitOp s .negate)
  | .bang => .ok (emitOp s .not)
  | _ => .ok s

def binary (s : State N) : Except Stop (State N) := do
  let operatorType := s.previous.type
  let s ← parse (.precParse (precedence operatorType + 1)) s
  match operatorType with
  | .plus => .ok (emitOp s .add)
  | .minus => .ok (emitOp s .subtract)
  | .star => .ok (emitOp s .multiply)
  | .slash => .ok (emitOp s .divide)
  | .bangEqual => .ok (emitOp (emitOp s .equal) .not)
  | .equalEqual => .ok (emitOp s .equal)
  | .greaterEqual => .ok (emitOp (emitOp s .less) .not)
  | .greater => .ok (emitOp s .greater)
  | .less => .ok (emitOp s .less)
  | .lessEqual => .ok (emitOp (emitOp s .greater) .not)
  | _ => .ok s

/-- `_and`. -/
def and (s : State N) : Except Stop (State N) := do
  let (s, endJump) := emitJump s .jumpIfFalse
  let s ← parse (.precParse Prec.and) (emitOp s .pop)
  .ok (patchJump s endJump)

/-- `_or`. -/
def or (s : State N) : Except Stop (State N) := do
  let (s, elseJump) := emitJump s .jumpIfFalse
  let (s, endJump) := emitJump s .jump
  let s ← parse (.precParse Prec.or) (emitOp (patchJump s elseJump) .pop)
  .ok (patchJump s endJump)

/-- The end of `argument_list`, and the call. -/
def finishCall (s : State N) (argCount : UInt8) : State N :=
  let s := if argCount = 255 then error s "Cannot have more than 255 arguments." else s
  emitByte (emitOp (consume s .rightParen "Expect ')' after arguments.") .call) argCount

def argumentLoop (s : State N) (argCount : UInt8) : Except Stop (State N) := do
  let s ← expression parse s
  if check s .comma then parse (.arguments (argCount + 1)) (advance s) else .ok (finishCall s (argCount + 1))

def call (s : State N) : Except Stop (State N) :=
  if check s .rightParen then .ok (finishCall s 0) else parse (.arguments 0) s

def applyPrefix (rule : PrefixRule) (canAssign : Bool) (s : State N) : Except Stop (State N) :=
  match rule with
  | .grouping => grouping parse s
  | .unary => unary parse s
  | .variable => namedVariable hashString parse s s.previous.lexeme canAssign
  | .string => string hashString s
  | .number => .ok (number strtod s)
  | .literal => .ok (literal s)

def applyInfix (rule : InfixRule) (s : State N) : Except Stop (State N) :=
  match rule with
  | .call => call parse s
  | .binary => binary parse s
  | .and => and parse s
  | .or => or parse s

def infixLoop (prec : Nat) (canAssign : Bool) (s : State N) : Except Stop (State N) :=
  if prec ≤ precedence s.current.type then
    let s := advance s
    match infixRule s.previous.type with
    | none => .error .nullRule
    | some rule => do
      let s ← applyInfix parse rule s
      parse (.infixLoop prec canAssign) s
  else .ok s

def precParse (prec : Nat) (s : State N) : Except Stop (State N) :=
  let s := advance s
  match prefixRule s.previous.type with
  | none => .ok (error s "Expect Expression.")
  | some rule => do
    let canAssign := decide (prec ≤ Prec.assignment)
    let s ← applyPrefix hashString strtod parse rule canAssign s
    let s ← parse (.infixLoop prec canAssign) s
    if canAssign && check s .equal then expression parse (error (advance s) "Invalid assignment target.") else .ok s

def printStatement (s : State N) : Except Stop (State N) := do
  let s ← expression parse s
  .ok (emitOp (consume s .semicolon "Expect ';' after value.") .print)

def expressionStatement (s : State N) : Except Stop (State N) := do
  let s ← expression parse s
  .ok (consume (emitOp s .pop) .semicolon "Expect ';' after expression.")

def whileStatement (s : State N) : Except Stop (State N) := do
  let loopStart := s.compiler.function.code.length
  let s ← expression parse (consume s .leftParen "Expect '(' after 'while'.")
  let (s, exitJump) := emitJump (consume s .rightParen "Expect ')' after condition.") .jumpIfFalse
  let s ← parse .statement (emitOp s .pop)
  .ok (emitOp (patchJump (emitLoop s loopStart) exitJump) .pop)

/-- What follows the first branch of `if`. -/
def elseBranch (s : State N) : Except Stop (State N) :=
  if check s .elseKey then parse .statement (advance s) else .ok s

def ifStatement (s : State N) : Except Stop (State N) := do
  let s ← expression parse (consume s .leftParen "Expect '(' after 'if'.")
  let (s, thenJump) := emitJump (consume s .rightParen "Expect ')' after condition.") .jumpIfFalse
  let s ← parse .statement (emitOp s .pop)
  let (s, elseJump) := emitJump s .jump
  let s ← elseBranch parse (emitOp (patchJump s thenJump) .pop)
  .ok (patchJump s elseJump)

/-- The value of a variable that is declared. -/
def varInitializer (s : State N) : Except Stop (State N) :=
  if check s .equal then expression parse (advance s) else .ok (emitOp s .nil)

def varDeclaration (s : State N) : Except Stop (State N) := do
  let (s, global) ← variableParse hashString s "Expect variable name."
  let s ← varInitializer parse s
  .ok (variableDefine (consume s .semicolon "Expect ';' after variable declaration.") global)

/-- The first clause of `for`. -/
def forInitializer (s : State N) : Except Stop (State N) :=
  if check s .varKey then varDeclaration hashString parse (advance s)
  else if check s .semicolon then .ok (advance s)
  else expressionStatement parse s

/-- The second clause of `for`, with the jump out of the loop if there is a condition. -/
def forCondition (s : State N) : Except Stop (State N × Option Nat) :=
  if check s .semicolon then .ok (advance s, none)
  else do
    let s ← expression parse s
    let (s, exitJump) := emitJump (consume s .semicolon "Expect ';' after loop condition.") .jumpIfFalse
    .ok (emitOp s .pop, some exitJump)

/-- The third clause of `for`, with the place the body goes back to. -/
def forIncrement (s : State N) (loopStart : Nat) : Except Stop (State N × Nat) :=
  if check s .rightParen then .ok (advance s, loopStart)
  else do
    let (s, bodyJump) := emitJump s .jump
    let incrementStart := s.compiler.function.code.length
    let s ← expression parse s
    let s := emitLoop (consume (emitOp s .pop) .rightParen "Expect ')' after for clauses.") loopStart
    .ok (patchJump s bodyJump, incrementStart)

def forStatement (s : State N) : Except Stop (State N) := do
  let s ← forInitializer hashString parse (consume (scopeBegin s) .leftParen "Expect '(' after 'for'.")
  let loopStart := s.compiler.function.code.length
  let (s, exitJump) ← forCondition parse s
  let (s, loopStart) ← forIncrement parse s loopStart
  let s ← parse .statement s
  let s := emitLoop s loopStart
  .ok (scopeEnd (match exitJump with
    | some exitJump => emitOp (patchJump s exitJump) .pop
    | none => s))

def returnStatement (s : State N) : Except Stop (State N) :=
  let s := if s.compiler.type = .script then error s "Cannot return from top-level code." else s
  if check s .semicolon then .ok (emitReturn (advance s))
  else do
    let s ← expression parse s
    .ok (emitOp (consume s .semicolon "Expect ';' after return value.") .return)

/-- `block_statement` behind its loop. -/
def blockStatement (s : State N) : Except Stop (State N) := do
  let s ← parse .block s
  .ok (consume s .rightBrace "Expect '\x7d' after block.")

def statement (s : State N) : Except Stop (State N) :=
  match s.current.type with
  | .printKey => printStatement parse (advance s)
  | .forKey => forStatement hashString parse (advance s)
  | .ifKey => ifStatement parse (advance s)
  | .whileKey => whileStatement parse (advance s)
  | .leftBrace => do
    let s ← blockStatement parse (scopeBegin (advance s))
    .ok (scopeEnd s)
  | .returnKey => returnStatement parse (advance s)
  | _ => expressionStatement parse s

def blockLoop (s : State N) : Except Stop (State N) :=
  if check s .rightBrace || check s .endOfFile then .ok s
  else do
    let s ← parse .declaration s
    parse .block s

/-- `compiler_init` for a function, which has the name of the last token. -/
def compilerInit (s : State N) : Except Stop (State N) := do
  let (s, name) ← internString hashString s s.previous.lexeme
  .ok { s with compiler := { type := .function, function := { name := some name } }, enclosing := s.compiler :: s.enclosing }

/-- `compiler_end`, with the function that is finished. -/
def compilerEnd (s : State N) : State N × Nat :=
  let s := emitReturn s
  let functions := s.objects.functions ++ [s.compiler.function]
  ({ s with
      compiler := s.enclosing.headD s.compiler, enclosing := s.enclosing.tail
      objects := { s.objects with functions := functions } }, s.objects.functions.length)

def parameterLoop (s : State N) : Except Stop (State N) := do
  let (s, paramConstant) ← variableParse hashString s "Expect parameter name."
  let s := (variableDefine s paramConstant).modify fun f => { f with arity := f.arity + 1 }
  let s := if s.compiler.function.arity > 8 then error s "Cannot have more than 8 parameters." else s
  if check s .comma then parse .parameters (advance s) else .ok s

def parameterList (s : State N) : Except Stop (State N) :=
  if check s .rightParen then .ok s else parse .parameters s

def functionStatement (s : State N) : Except Stop (State N) := do
  let s ← compilerInit hashString s
  let s ← parameterList parse (consume (scopeBegin s) .leftParen "Expect '(' after function name.")
  let s := consume s .rightParen "Expect ')' after parameters."
  let s ← blockStatement parse (consume s .leftBrace "Expect '\x7b' before function body.")
  let (s, function) := compilerEnd s
  .ok (emitConstant s (.function function))

def funcDeclaration (s : State N) : Except Stop (State N) := do
  let (s, global) ← variableParse hashString s "Expect function name."
  let s ← functionStatement hashString parse (variableInitialize s)
  .ok (variableDefine s global)

/-- The three kinds of declarations. -/
def declare (s : State N) : Except Stop (State N) :=
  match s.current.type with
  | .varKey => varDeclaration hashString parse (advance s)
  | .funKey => funcDeclaration hashString parse (advance s)
  | _ => parse .statement s

def declaration (recover : State N → Except Stop (State N)) (s : State N) : Except Stop (State N) := do
  let s ← declare hashString parse s
  if s.panicMode then recover s else .ok s

def programLoop (s : State N) : Except Stop (State N) :=
  if check s .endOfFile then .ok (advance s)
  else do
    let s ← parse .declaration s
    parse .program s

/-- The body of each function. -/
def body (recover : State N → Except Stop (State N)) : Fn → State N → Except Stop (State N)
  | .precParse prec => precParse hashString strtod parse prec
  | .infixLoop prec canAssign => infixLoop parse prec canAssign
  | .arguments argCount => fun s => argumentLoop parse s argCount
  | .statement => statement hashString parse
  | .declaration => declaration hashString parse recover
  | .block => blockLoop parse
  | .parameters => parameterLoop hashString parse
  | .program => programLoop parse

end Functions

/-- A call, with a bound on the depth of the calls in it. -/
def run (hashString : Chars → Nat) (strtod : Chars → N) (recover : State N → Except Stop (State N)) :
    Nat → Fn → State N → Except Stop (State N)
  | 0, _, _ => .error .depth
  | depth + 1, f, s => body hashString strtod (run hashString strtod recover depth) recover f s

/-- The parser at the first token, with the compiler of the script. -/
def State.initial (objects : Objects N) (first : Token) (following : List Token) : State N :=
  { previous := first, current := first, following := following, compiler := { type := .script }, objects := objects }

/-- `compile`, for the tokens of the source. The function that it returns is the last one, unless there was an error. -/
def compile (hashString : Chars → Nat) (strtod : Chars → N) (depth : Nat) (objects : Objects N) (first : Token)
    (following : List Token) : Except Stop (State N) := do
  let s ← run hashString strtod synchronize depth .program (State.initial objects first following)
  .ok (compilerEnd s).1

end Reading.Clox
