import Reading.Clox.Compiler
import Reading.Lib.Fuel

/-!
# The parser of the tree walker

`parse.c`. The routines share one cursor into the list of the tokens and give back a pointer, so `null` is an expression and a statement too; the number in a tree is the text that `atof` reads. A routine does not return when it reads through a null pointer, and a loop or a recursion that goes on forever has no bound that is enough. `parse_error` prints and does nothing else. The local of `assignment` is read as `equals`.
-/

namespace Reading.Clox.Parse

open Lib Lib.Attempt

/-! ### Trees -/

inductive Literal where
  | nil
  | bool (value : Bool)
  | number (literal : Chars)
  | string (literal : Chars)
deriving DecidableEq

inductive Expr where
  | null
  | binary (op : Token) (left right : Expr)
  | grouping (expr : Expr)
  | unary (op : Token) (expr : Expr)
  | literal (value : Literal)
  | var (name : Token)
  | assignment (name : Token) (right : Expr)
  | logical (left : Expr) (op : Token) (right : Expr)
  | call (callee : Expr) (paren : Token) (args : List Expr)
  | get (object : Expr) (name : Token)
  | set (object : Expr) (name : Token) (value : Expr)
  | this (keyword : Token)
  | super (keyword method : Token)

inductive Stmt where
  | null
  | print (expr : Expr)
  | varDeclaration (initializer : Expr) (varName : Token)
  | block (innerStmts : List Stmt)
  | expr (expr : Expr)
  | ifElse (condition : Expr) (thenStmt elseStmt : Stmt)
  | whileStmt (condition : Expr) (body : Stmt)
  | funStmt (args : List Token) (name : Token) (body : Stmt)
  | returnStmt (keyword : Token) (value : Expr)
  | classStmt (name : Token) (methods : List Stmt) (super : Expr)

def Expr.isNull : Expr → Bool
  | .null => true
  | _ => false

def Stmt.isNull : Stmt → Bool
  | .null => true
  | _ => false

/-- Whether `expr_destroy` returns: it reads the type of every expression that it comes to. -/
def exprDestroy : Expr → Bool
  | .null => false
  | .unary _ expr | .grouping expr | .assignment _ expr | .call expr _ _ | .get expr _ => exprDestroy expr
  | .binary _ left right | .logical left _ right | .set left _ right => exprDestroy left && exprDestroy right
  | .literal _ | .var _ | .this _ | .super _ _ => true

mutual

/-- Whether `stmt_destroy` returns. -/
def stmtDestroy : Stmt → Bool
  | .null => true
  | .block inner => stmtsDestroy inner
  | .print expr | .expr expr | .varDeclaration expr _ | .returnStmt _ expr => exprDestroy expr
  | .ifElse condition thenStmt elseStmt => stmtDestroy thenStmt && stmtDestroy elseStmt && exprDestroy condition
  | .whileStmt condition body => stmtDestroy body && exprDestroy condition
  | .funStmt _ _ body => stmtDestroy body
  | .classStmt _ methods _ => stmtsDestroy methods

def stmtsDestroy : List Stmt → Bool
  | [] => true
  | stmt :: stmts => stmtDestroy stmt && stmtsDestroy stmts

end

/-! ### The cursor -/

/-- The tokens in front of the cursor, the nearest first, those from the cursor on, and what `parse_error` was called with. With no token from the cursor on, it is the null pointer. -/
structure Cursor where
  before : List Token
  ahead : List Token
  errors : List (Token × String)

abbrev Rule (α : Type) := Attempt Cursor α

/-- `(*node)->data`. -/
def here : Rule Token := fun c =>
  match c.ahead with
  | [] => none
  | tkn :: _ => some (tkn, c)

/-- `(*node) = (*node)->next`. -/
def advance : Rule Unit := fun c =>
  match c.ahead with
  | [] => none
  | tkn :: ahead => some ((), { c with before := tkn :: c.before, ahead := ahead })

/-- `(*node)->prev->data`. -/
def previous : Rule Token := fun c =>
  match c.ahead, c.before with
  | _ :: _, tkn :: _ => some (tkn, c)
  | _, _ => none

def atNull : Rule Bool := fun c => some (c.ahead.isEmpty, c)

/-- The text is put together in the 1024 bytes of `buff` without a check; 26 bytes, the line, the message and the lexeme are taken to fit. -/
def parseError (tkn : Token) (msg : String) : Rule Unit := fun c => some ((), { c with errors := c.errors ++ [(tkn, msg)] })

def maxArgs : Nat := 8

/-- `match`: whether the type is one of those, and then the cursor moves. -/
def matchType (type : TokenType) (types : List TokenType) : Rule Bool :=
  if type ∈ types then do
    advance
    pure true
  else pure false

/-- The token that was consumed. It is read through the node behind it. -/
def consume (type : TokenType) (msg : String) : Rule (Option Token) := do
  let tkn ← here
  if tkn.type = type then do
    advance
    let prev ← previous
    pure (some prev)
  else do
    parseError tkn msg
    pure none

/-! ### Expressions

The routines come one after another; the one that all of them lead back to, `expression`, is handed down. -/

def binaryLoop (rule : Rule Expr) (matchTokens : List TokenType) : Nat → Expr → Rule Expr
  | 0, _ => fail
  | n + 1, expr => do
    let tkn ← here
    let matched ← matchType tkn.type matchTokens
    if matched then do
      let tknPrev ← previous
      let exprRight ← rule
      binaryLoop rule matchTokens n (.binary tknPrev expr exprRight)
    else pure expr

def binaryProduction (n : Nat) (rule : Rule Expr) (matchTokens : List TokenType) : Rule Expr := do
  let expr ← rule
  binaryLoop rule matchTokens n expr

/-- A token that is an expression on its own. -/
def leaf (expr : Expr) : Rule Expr := do
  advance
  pure expr

def grouping (expression : Rule Expr) : Rule Expr := do
  advance
  let groupedExpr ← expression
  let n ← consume .rightParen "Expect ')' after expression."
  match n with
  | none => pure .null
  | some _ => pure (.grouping groupedExpr)

def superExpr : Rule Expr := do
  let keyword ← previous
  let dot ← consume .dot "Expect '.' after 'super'."
  match dot with
  | none => pure .null
  | some _ => do
    let n ← consume .identifier "Expect superclass method name."
    match n with
    | none => pure .null
    | some method => pure (.super keyword method)

/-- The cursor stays on `this`. -/
def thisExpr : Rule Expr := do
  let keyword ← previous
  pure (.this keyword)

def variableExpr : Rule Expr := do
  advance
  let name ← previous
  pure (.var name)

def primary (expression : Rule Expr) : Rule Expr := do
  let tkn ← here
  match tkn.type with
  | .trueKey => leaf (.literal (.bool true))
  | .falseKey => leaf (.literal (.bool false))
  | .nilKey => leaf (.literal .nil)
  | .string => leaf (.literal (.string tkn.literal))
  | .number => leaf (.literal (.number tkn.literal))
  | .leftParen => grouping expression
  | .superKey => superExpr
  | .thisKey => thisExpr
  | .identifier => variableExpr
  | _ => do
    parseError tkn "Unresolved Identifier"
    pure .null

/-- The expression at the cursor, or the one from the round before when there is none. -/
def nextArg (expression : Rule Expr) (tkn : Token) (arg : Expr) : Rule Expr :=
  if tkn.type = .rightParen then pure arg else expression

def pushArg (args : List Expr) (arg : Expr) : List Expr :=
  if arg.isNull then args else args ++ [arg]

/-- The loop of `finish_call`, with the cursor on the token in front of the argument. -/
def argsLoop (expression : Rule Expr) (callee : Expr) : Nat → List Expr → Expr → Rule (Option (List Expr))
  | 0, _, _ => fail
  | n + 1, args, arg => do
    advance
    let tkn ← here
    if maxArgs < args.length then do
      parseError tkn "Cannot have more than %d args"
      if exprDestroy callee then pure none else fail
    else do
      let arg ← nextArg expression tkn arg
      let tkn ← here
      if tkn.type = .comma then argsLoop expression callee n (pushArg args arg) arg
      else pure (some (pushArg args arg))

def finishCall (n : Nat) (expression : Rule Expr) (callee : Expr) : Rule Expr := do
  let args ← argsLoop expression callee n [] .null
  match args with
  | none => pure .null
  | some args => do
    let temp ← consume .rightParen "Expect ')' for function EXPR_CALL"
    match temp with
    | none => fail
    | some paren => pure (.call callee paren args)

def getProperty (object : Expr) : Rule Expr := do
  advance
  let temp ← consume .identifier "Expect property name after '.'."
  match temp with
  | none => pure object
  | some name => pure (.get object name)

def callLoop (expression : Rule Expr) : Nat → Expr → Rule Expr
  | 0, _ => fail
  | n + 1, expr => do
    let tkn ← here
    if tkn.type = .leftParen then do
      let expr ← finishCall n expression expr
      callLoop expression n expr
    else if tkn.type = .dot then do
      let expr ← getProperty expr
      callLoop expression n expr
    else pure expr

def call (n : Nat) (expression : Rule Expr) : Rule Expr := do
  let expr ← primary expression
  callLoop expression n expr

def unary (expression : Rule Expr) : Nat → Rule Expr
  | 0 => fail
  | n + 1 => do
    let tkn ← here
    let matched ← matchType tkn.type [.minus, .bang]
    if matched then do
      let tknPrev ← previous
      let rightExpr ← unary expression n
      pure (.unary tknPrev rightExpr)
    else call n expression

def multiplication (n : Nat) (expression : Rule Expr) : Rule Expr := binaryProduction n (unary expression n) [.slash, .star]

def addition (n : Nat) (expression : Rule Expr) : Rule Expr := binaryProduction n (multiplication n expression) [.minus, .plus]

def comparison (n : Nat) (expression : Rule Expr) : Rule Expr :=
  binaryProduction n (addition n expression) [.greater, .greaterEqual, .less, .lessEqual]

def equality (n : Nat) (expression : Rule Expr) : Rule Expr := binaryProduction n (comparison n expression) [.bangEqual, .equalEqual]

/-- The loop of `logicOr` and `logicAnd`. The token that it tests is the one behind the operator, read before the operand is. -/
def logicLoop (rule : Rule Expr) (type : TokenType) : Nat → Token → Expr → Rule Expr
  | 0, _, _ => fail
  | n + 1, tkn, expr =>
    if tkn.type = type then do
      let operatorTkn ← here
      advance
      let tkn ← here
      let right ← rule
      logicLoop rule type n tkn (.logical expr operatorTkn right)
    else pure expr

def logic (n : Nat) (rule : Rule Expr) (type : TokenType) : Rule Expr := do
  let expr ← rule
  let tkn ← here
  logicLoop rule type n tkn expr

def logicAnd (n : Nat) (expression : Rule Expr) : Rule Expr := logic n (equality n expression) .andKey

def logicOr (n : Nat) (expression : Rule Expr) : Rule Expr := logic n (logicAnd n expression) .orKey

/-- The assignment to an expression, at the token `equals`. -/
def assign (equals : Token) (value : Expr) : Expr → Rule Expr
  | .var name => pure (.assignment name value)
  | .get object name => pure (.set object name value)
  | .null => fail
  | expr => do
    parseError equals "Invalid Assignment Target"
    pure expr

def assignment : Nat → Rule Expr
  | 0 => fail
  | n + 1 => do
    let expr ← logicOr n (assignment n)
    let equals ← here
    if equals.type = .equal then do
      advance
      let value ← assignment n
      assign equals value expr
    else pure expr

def expression : Nat → Rule Expr := assignment

/-! ### Statements -/

/-- The loop of `synchronize`, which never reads `token` again. -/
def synchronizeLoop (token : Token) : Nat → Rule Unit
  | 0 => fail
  | n + 1 => do
    let prevToken ← previous
    if prevToken.type = .semicolon then pure ()
    else if token.type ∈ [.classKey, .funKey, .varKey, .forKey, .ifKey, .whileKey, .printKey, .returnKey] then pure ()
    else do
      advance
      synchronizeLoop token n

def synchronize (n : Nat) : Rule Unit := do
  advance
  let null ← atNull
  if null then pure ()
  else do
    let token ← here
    if token.type = .endOfFile then pure () else synchronizeLoop token n

def newTerminatedStatement (stmt : Stmt) : Rule Stmt := do
  let n ← consume .semicolon "Expect ';' after value"
  match n with
  | none => pure .null
  | some _ => pure stmt

def printStatement (n : Nat) : Rule Stmt := do
  let expr ← expression n
  newTerminatedStatement (.print expr)

def expressionStatement (n : Nat) : Rule Stmt := do
  let expr ← expression n
  newTerminatedStatement (.expr expr)

/-- What stands behind `=`, when the cursor is on it. -/
def initializer (n : Nat) : Rule Expr := do
  let tkn ← here
  if tkn.type = .equal then do
    advance
    expression n
  else pure .null

def varDeclaration (n : Nat) : Rule Stmt := do
  let identifierNode ← consume .identifier "Expected a EXPR_VARIABLE name"
  match identifierNode with
  | none => pure .null
  | some name => do
    let init ← initializer n
    newTerminatedStatement (.varDeclaration init name)

/-- The loop of `block_statements` and that of `class_statement`. -/
def untilBrace (rule : Rule Stmt) : Nat → List Stmt → Rule (List Stmt)
  | 0, _ => fail
  | n + 1, inner => do
    let token ← here
    if token.type ≠ .rightBrace ∧ token.type ≠ .endOfFile then do
      let stmt ← rule
      untilBrace rule n (inner ++ [stmt])
    else pure inner

def blockStatements (n : Nat) (declaration : Rule Stmt) : Rule Stmt := do
  let inner ← untilBrace declaration n []
  let _ ← consume .rightBrace "Expect '\x7d' after block."
  pure (.block inner)

def elseStatement (statement : Rule Stmt) : Rule Stmt := do
  let tkn ← here
  if tkn.type = .elseKey then do
    advance
    statement
  else pure .null

def ifStatement (n : Nat) (statement : Rule Stmt) : Rule Stmt := do
  let _ ← consume .leftParen "Expect '(' after 'if'."
  let condition ← expression n
  let _ ← consume .rightParen "Expect ')' after condition."
  let thenStmt ← statement
  let elseStmt ← elseStatement statement
  pure (.ifElse condition thenStmt elseStmt)

/-- The first clause of a `for`. The first token of an expression is passed over. -/
def forInitializer (n : Nat) : Rule Stmt := do
  let tkn ← here
  if tkn.type = .semicolon then do
    advance
    pure .null
  else if tkn.type = .varKey then do
    advance
    varDeclaration n
  else do
    advance
    expressionStatement n

/-- The expression at the cursor, unless the token `tkn` has the type that stands for no expression. -/
def clause (n : Nat) (tkn : Token) (type : TokenType) : Rule Expr :=
  if tkn.type = type then pure .null else expression n

/-- The `while` that a `for` stands for. -/
def wrapFor (init : Stmt) (condition step : Expr) (body : Stmt) : Stmt :=
  let body := if step.isNull then body else .block [body, .expr step]
  let condition := if condition.isNull then .literal (.bool true) else condition
  let body := .whileStmt condition body
  if init.isNull then body else .block [init, body]

/-- The token that decides about the step is the one that decided about the condition. -/
def forStatement (n : Nat) (statement : Rule Stmt) : Rule Stmt := do
  let _ ← consume .leftParen "Expect '(' after for"
  let init ← forInitializer n
  let tkn ← here
  let condition ← clause n tkn .semicolon
  let _ ← consume .semicolon "Expect ';' after for condition"
  let step ← clause n tkn .rightParen
  let _ ← consume .rightParen "Expect ')' for 'for' closing"
  let body ← statement
  pure (wrapFor init condition step body)

def whileStatement (n : Nat) (statement : Rule Stmt) : Rule Stmt := do
  let _ ← consume .leftParen "Expect '(' after 'while'."
  let condition ← expression n
  let _ ← consume .rightParen "Expect ')' after condition."
  let body ← statement
  pure (.whileStmt condition body)

def returnStatement (n : Nat) : Rule Stmt := do
  let keyword ← previous
  let tkn ← here
  let value ← clause n tkn .semicolon
  let _ ← consume .semicolon "Expect ';' after return"
  pure (.returnStmt keyword value)

def tooManyParams (params : List Token) (tkn : Token) : Rule Unit :=
  if maxArgs < params.length then parseError tkn "Cannot have more than 8 parameters." else pure ()

def passComma (tkn : Token) : Rule Unit :=
  if tkn.type = .rightParen then pure () else advance

def paramsLoop : Nat → List Token → Token → Rule (List Token)
  | 0, _, _ => fail
  | n + 1, params, tkn => do
    tooManyParams params tkn
    let temp ← consume .identifier "Expect parameter name."
    match temp with
    | none => fail
    | some name => do
      let tkn ← here
      passComma tkn
      if tkn.type = .comma then paramsLoop n (params ++ [name]) tkn else pure (params ++ [name])

def parameters (n : Nat) : Rule (List Token) := do
  let tkn ← here
  if tkn.type = .rightParen then pure [] else paramsLoop n [] tkn

def funStatement (n : Nat) (declaration : Rule Stmt) (kind : String) : Rule Stmt := do
  let temp ← consume .identifier ("Expect " ++ kind ++ " name.")
  match temp with
  | none => pure .null
  | some name => do
    let _ ← consume .leftParen ("Expect '(' after " ++ kind ++ " name.")
    let params ← parameters n
    let _ ← consume .rightParen "Expect ')' after parameters."
    let _ ← consume .leftBrace ("Expect '\x7b' before " ++ kind ++ " body.")
    let body ← blockStatements n declaration
    pure (.funStmt params name body)

/-- The class behind `<`; `none` when there is no name behind it. -/
def superClass : Rule (Option Expr) := do
  let temp ← here
  if temp.type = .less then do
    advance
    let n ← consume .identifier "Expect super class"
    match n with
    | none => pure none
    | some name => pure (some (.var name))
  else pure (some .null)

def classStatement (n : Nat) (declaration : Rule Stmt) : Rule Stmt := do
  let classNameNode ← consume .identifier "Expect class name"
  match classNameNode with
  | none => pure .null
  | some name => do
    let superClassExpr ← superClass
    match superClassExpr with
    | none => pure .null
    | some superClassExpr => do
      let _ ← consume .leftBrace "Expect '\x7b' before class body"
      let methods ← untilBrace (funStatement n declaration "method") n []
      let _ ← consume .rightBrace "Expect '\x7d' after class body"
      pure (.classStmt name methods superClassExpr)

/-- The cursor moves over the keyword of the statement first. -/
def behind {α : Type} (rule : Rule α) : Rule α := do
  advance
  rule

def statement (declaration : Rule Stmt) : Nat → Rule Stmt
  | 0 => fail
  | n + 1 => do
    let tkn ← here
    match tkn.type with
    | .printKey => behind (printStatement n)
    | .leftBrace => behind (blockStatements n declaration)
    | .ifKey => behind (ifStatement n (statement declaration n))
    | .forKey => behind (forStatement n (statement declaration n))
    | .whileKey => behind (whileStatement n (statement declaration n))
    | .returnKey => behind (returnStatement n)
    | _ => expressionStatement n

def recover (n : Nat) (rule : Rule Stmt) : Rule Stmt := do
  let stmt ← rule
  if stmt.isNull then do
    synchronize n
    pure stmt
  else pure stmt

def declaration : Nat → Rule Stmt
  | 0 => fail
  | n + 1 => do
    let tkn ← here
    match tkn.type with
    | .classKey => behind (classStatement n (declaration n))
    | .funKey => behind (funStatement n (declaration n) "function")
    | .varKey => recover n (behind (varDeclaration n))
    | _ => recover n (statement (declaration n) n)

def parseLoop : Nat → List Stmt → Rule (Option (List Stmt))
  | 0, _ => fail
  | n + 1, stmts => do
    let head ← here
    if head.type = .endOfFile then pure (some stmts)
    else do
      let stmt ← declaration n
      if stmt.isNull then
        if stmtsDestroy stmts then pure none else fail
      else parseLoop n (stmts ++ [stmt])

/-- The statements in `ctx.stmts`, and where the cursor is. -/
def parse (n : Nat) (tokens : List Token) : Option (Option (List Stmt) × Cursor) :=
  parseLoop n [] { before := [], ahead := tokens, errors := [] }

end Reading.Clox.Parse
