import Reading.Clox.Descent
import Reading.Lib.Checked

/-!
# The parser under watch

Some steps of the parser go wrong in some states: they read through a null pointer, or they begin a loop that has no end. Here are the routines once more with a check in front of each of these steps. They differ in nothing else.
-/

namespace Reading.Clox.Parse

open Lib Lib.Checked

/-- The steps that can go wrong, with the trees that they work on. -/
inductive Hazard where
  /-- `primary` reads the token in front of `this` and of `super`. -/
  | keyword
  /-- `finish_call` reads what `consume` found behind the arguments. -/
  | paren
  /-- `fun_statement` reads what `consume` found for a parameter. -/
  | parameter
  /-- `assignment` reads the type of its left side. -/
  | target (expr : Expr)
  /-- `finish_call` destroys the callee. -/
  | callee (expr : Expr)
  /-- `parse` destroys the statements. -/
  | statements (stmts : List Stmt)
  /-- `synchronize` looks for the next statement. -/
  | recovery
  /-- A routine reads the token at the cursor after the cursor may have passed the last one. -/
  | node
  /-- `class_statement` reads a method, and once more at the same token when there is none. -/
  | method

def Cursor.At (c : Cursor) (type : TokenType) : Prop := c.ahead.head?.map Token.type = some type

instance (c : Cursor) (type : TokenType) : Decidable (c.At type) := inferInstanceAs (Decidable (_ = _))

/-- `synchronize` finds where to stop: at the end, at the token that it looks at, or behind a semicolon. -/
def Cursor.Recovers (c : Cursor) : Prop :=
  c.ahead = [] ∨
    (∃ tkn ∈ c.ahead.head?.toList, tkn.type = .endOfFile ∨
      tkn.type ∈ [.classKey, .funKey, .varKey, .forKey, .ifKey, .whileKey, .printKey, .returnKey]) ∨
    ∃ tkn ∈ c.before.head?.toList ++ c.ahead, tkn.type = .semicolon

instance (c : Cursor) : Decidable c.Recovers := inferInstanceAs (Decidable (_ ∨ _ ∨ _))

/-- The state does not make the step go wrong. -/
def Hazard.Safe : Hazard → Cursor → Prop
  | .keyword, c => c.before ≠ []
  | .paren, c => c.At .rightParen
  | .parameter, c => c.At .identifier
  | .target expr, _ => expr.isNull = false
  | .callee expr, _ => exprDestroy expr = true
  | .statements stmts, _ => stmtsDestroy stmts = true
  | .recovery, c => c.Recovers
  | .node, c => c.ahead ≠ []
  | .method, c => c.At .identifier ∨ c.At .rightBrace ∨ c.At .endOfFile

instance : ∀ hazard : Hazard, DecidablePred hazard.Safe
  | .keyword, c => inferInstanceAs (Decidable (c.before ≠ []))
  | .paren, c => inferInstanceAs (Decidable (c.At .rightParen))
  | .parameter, c => inferInstanceAs (Decidable (c.At .identifier))
  | .target expr, _ => inferInstanceAs (Decidable (expr.isNull = false))
  | .callee expr, _ => inferInstanceAs (Decidable (exprDestroy expr = true))
  | .statements stmts, _ => inferInstanceAs (Decidable (stmtsDestroy stmts = true))
  | .recovery, c => inferInstanceAs (Decidable c.Recovers)
  | .node, c => inferInstanceAs (Decidable (c.ahead ≠ []))
  | .method, c => inferInstanceAs (Decidable (c.At .identifier ∨ c.At .rightBrace ∨ c.At .endOfFile))

abbrev Watch (α : Type) := Checked Hazard Cursor α

namespace Watched

def face (hazard : Hazard) : Watch Unit := Checked.check hazard.Safe hazard

/-! ### Expressions -/

def binaryLoop (rule : Watch Expr) (matchTokens : List TokenType) : Nat → Expr → Watch Expr
  | 0, _ => fail
  | n + 1, expr => do
    let tkn ← here
    let matched ← matchType tkn.type matchTokens
    if matched then do
      let tknPrev ← previous
      let exprRight ← rule
      binaryLoop rule matchTokens n (.binary tknPrev expr exprRight)
    else pure expr

def binaryProduction (n : Nat) (rule : Watch Expr) (matchTokens : List TokenType) : Watch Expr := do
  let expr ← rule
  binaryLoop rule matchTokens n expr

def grouping (expression : Watch Expr) : Watch Expr := do
  advance
  let groupedExpr ← expression
  let n ← consume .rightParen "Expect ')' after expression."
  match n with
  | none => pure .null
  | some _ => pure (.grouping groupedExpr)

def primary (expression : Watch Expr) : Watch Expr := do
  let tkn ← here
  match tkn.type with
  | .trueKey => leaf (.literal (.bool true))
  | .falseKey => leaf (.literal (.bool false))
  | .nilKey => leaf (.literal .nil)
  | .string => leaf (.literal (.string tkn.literal))
  | .number => leaf (.literal (.number tkn.literal))
  | .leftParen => grouping expression
  | .superKey => do
    face .keyword
    superExpr
  | .thisKey => do
    face .keyword
    thisExpr
  | .identifier => variableExpr
  | _ => do
    parseError tkn "Unresolved Identifier"
    pure .null

def nextArg (expression : Watch Expr) (tkn : Token) (arg : Expr) : Watch Expr :=
  if tkn.type = .rightParen then pure arg else expression

def argsLoop (expression : Watch Expr) (callee : Expr) : Nat → List Expr → Expr → Watch (Option (List Expr))
  | 0, _, _ => fail
  | n + 1, args, arg => do
    advance
    let tkn ← here
    if maxArgs < args.length then do
      parseError tkn "Cannot have more than %d args"
      face (.callee callee)
      pure none
    else do
      let arg ← nextArg expression tkn arg
      let tkn ← here
      if tkn.type = .comma then argsLoop expression callee n (pushArg args arg) arg
      else pure (some (pushArg args arg))

def finishCall (n : Nat) (expression : Watch Expr) (callee : Expr) : Watch Expr := do
  let args ← argsLoop expression callee n [] .null
  match args with
  | none => pure .null
  | some args => do
    face .paren
    let temp ← consume .rightParen "Expect ')' for function EXPR_CALL"
    match temp with
    | none => fail
    | some paren => pure (.call callee paren args)

def callLoop (expression : Watch Expr) : Nat → Expr → Watch Expr
  | 0, _ => fail
  | n + 1, expr => do
    let tkn ← here
    if tkn.type = .leftParen then do
      let expr ← finishCall n expression expr
      callLoop expression n expr
    else if tkn.type = .dot then do
      let expr ← getProperty expr
      callLoop expression n expr
    else pure expr

def call (n : Nat) (expression : Watch Expr) : Watch Expr := do
  let expr ← primary expression
  callLoop expression n expr

def unary (expression : Watch Expr) : Nat → Watch Expr
  | 0 => fail
  | n + 1 => do
    let tkn ← here
    let matched ← matchType tkn.type [.minus, .bang]
    if matched then do
      let tknPrev ← previous
      let rightExpr ← unary expression n
      pure (.unary tknPrev rightExpr)
    else call n expression

def multiplication (n : Nat) (expression : Watch Expr) : Watch Expr := binaryProduction n (unary expression n) [.slash, .star]

def addition (n : Nat) (expression : Watch Expr) : Watch Expr := binaryProduction n (multiplication n expression) [.minus, .plus]

def comparison (n : Nat) (expression : Watch Expr) : Watch Expr :=
  binaryProduction n (addition n expression) [.greater, .greaterEqual, .less, .lessEqual]

def equality (n : Nat) (expression : Watch Expr) : Watch Expr := binaryProduction n (comparison n expression) [.bangEqual, .equalEqual]

def logicLoop (rule : Watch Expr) (type : TokenType) : Nat → Token → Expr → Watch Expr
  | 0, _, _ => fail
  | n + 1, tkn, expr =>
    if tkn.type = type then do
      let operatorTkn ← here
      advance
      let tkn ← here
      let right ← rule
      logicLoop rule type n tkn (.logical expr operatorTkn right)
    else pure expr

def logic (n : Nat) (rule : Watch Expr) (type : TokenType) : Watch Expr := do
  let expr ← rule
  let tkn ← here
  logicLoop rule type n tkn expr

def logicAnd (n : Nat) (expression : Watch Expr) : Watch Expr := logic n (equality n expression) .andKey

def logicOr (n : Nat) (expression : Watch Expr) : Watch Expr := logic n (logicAnd n expression) .orKey

def assignment : Nat → Watch Expr
  | 0 => fail
  | n + 1 => do
    let expr ← logicOr n (assignment n)
    let equals ← here
    if equals.type = .equal then do
      advance
      let value ← assignment n
      face (.target expr)
      assign equals value expr
    else pure expr

def expression : Nat → Watch Expr := assignment

/-! ### Statements -/

def synchronize (n : Nat) : Watch Unit := do
  advance
  face .recovery
  let null ← atNull
  if null then pure ()
  else do
    let token ← here
    if token.type = .endOfFile then pure () else synchronizeLoop token n

def printStatement (n : Nat) : Watch Stmt := do
  let expr ← expression n
  newTerminatedStatement (.print expr)

def expressionStatement (n : Nat) : Watch Stmt := do
  let expr ← expression n
  newTerminatedStatement (.expr expr)

def initializer (n : Nat) : Watch Expr := do
  let tkn ← here
  if tkn.type = .equal then do
    advance
    expression n
  else pure .null

def varDeclaration (n : Nat) : Watch Stmt := do
  let identifierNode ← consume .identifier "Expected a EXPR_VARIABLE name"
  match identifierNode with
  | none => pure .null
  | some name => do
    let init ← initializer n
    newTerminatedStatement (.varDeclaration init name)

/-- The loop of `block_statements`. -/
def innerLoop (declaration : Watch Stmt) : Nat → List Stmt → Watch (List Stmt)
  | 0, _ => fail
  | n + 1, inner => do
    face .node
    let token ← here
    if token.type ≠ .rightBrace ∧ token.type ≠ .endOfFile then do
      let stmt ← declaration
      innerLoop declaration n (inner ++ [stmt])
    else pure inner

def blockStatements (n : Nat) (declaration : Watch Stmt) : Watch Stmt := do
  let inner ← innerLoop declaration n []
  let _ ← consume .rightBrace "Expect '\x7d' after block."
  pure (.block inner)

def elseStatement (statement : Watch Stmt) : Watch Stmt := do
  let tkn ← here
  if tkn.type = .elseKey then do
    advance
    statement
  else pure .null

def ifStatement (n : Nat) (statement : Watch Stmt) : Watch Stmt := do
  let _ ← consume .leftParen "Expect '(' after 'if'."
  let condition ← expression n
  let _ ← consume .rightParen "Expect ')' after condition."
  let thenStmt ← statement
  let elseStmt ← elseStatement statement
  pure (.ifElse condition thenStmt elseStmt)

def forInitializer (n : Nat) : Watch Stmt := do
  let tkn ← here
  if tkn.type = .semicolon then do
    advance
    pure .null
  else if tkn.type = .varKey then do
    advance
    varDeclaration n
  else do
    advance
    face .node
    expressionStatement n

def clause (n : Nat) (tkn : Token) (type : TokenType) : Watch Expr :=
  if tkn.type = type then pure .null else expression n

def forStatement (n : Nat) (statement : Watch Stmt) : Watch Stmt := do
  let _ ← consume .leftParen "Expect '(' after for"
  let init ← forInitializer n
  let tkn ← here
  let condition ← clause n tkn .semicolon
  let _ ← consume .semicolon "Expect ';' after for condition"
  let step ← clause n tkn .rightParen
  let _ ← consume .rightParen "Expect ')' for 'for' closing"
  let body ← statement
  pure (wrapFor init condition step body)

def whileStatement (n : Nat) (statement : Watch Stmt) : Watch Stmt := do
  let _ ← consume .leftParen "Expect '(' after 'while'."
  let condition ← expression n
  let _ ← consume .rightParen "Expect ')' after condition."
  let body ← statement
  pure (.whileStmt condition body)

def returnStatement (n : Nat) : Watch Stmt := do
  let keyword ← previous
  let tkn ← here
  let value ← clause n tkn .semicolon
  let _ ← consume .semicolon "Expect ';' after return"
  pure (.returnStmt keyword value)

def paramsLoop : Nat → List Token → Token → Watch (List Token)
  | 0, _, _ => fail
  | n + 1, params, tkn => do
    tooManyParams params tkn
    face .parameter
    let temp ← consume .identifier "Expect parameter name."
    match temp with
    | none => fail
    | some name => do
      let tkn ← here
      passComma tkn
      if tkn.type = .comma then paramsLoop n (params ++ [name]) tkn else pure (params ++ [name])

def parameters (n : Nat) : Watch (List Token) := do
  let tkn ← here
  if tkn.type = .rightParen then pure [] else paramsLoop n [] tkn

def funStatement (n : Nat) (declaration : Watch Stmt) (kind : String) : Watch Stmt := do
  let temp ← consume .identifier ("Expect " ++ kind ++ " name.")
  match temp with
  | none => pure .null
  | some name => do
    let _ ← consume .leftParen ("Expect '(' after " ++ kind ++ " name.")
    let params ← parameters n
    face .node
    let _ ← consume .rightParen "Expect ')' after parameters."
    let _ ← consume .leftBrace ("Expect '\x7b' before " ++ kind ++ " body.")
    let body ← blockStatements n declaration
    pure (.funStmt params name body)

/-- The loop of `class_statement`. -/
def methodsLoop (method : Watch Stmt) : Nat → List Stmt → Watch (List Stmt)
  | 0, _ => fail
  | n + 1, methods => do
    face .method
    let temp ← here
    if temp.type ≠ .rightBrace ∧ temp.type ≠ .endOfFile then do
      let stmt ← method
      methodsLoop method n (methods ++ [stmt])
    else pure methods

def classStatement (n : Nat) (declaration : Watch Stmt) : Watch Stmt := do
  let classNameNode ← consume .identifier "Expect class name"
  match classNameNode with
  | none => pure .null
  | some name => do
    let superClassExpr ← superClass
    match superClassExpr with
    | none => pure .null
    | some superClassExpr => do
      let _ ← consume .leftBrace "Expect '\x7b' before class body"
      let methods ← methodsLoop (funStatement n declaration "method") n []
      let _ ← consume .rightBrace "Expect '\x7d' after class body"
      pure (.classStmt name methods superClassExpr)

def behind {α : Type} (rule : Watch α) : Watch α := do
  advance
  rule

def statement (declaration : Watch Stmt) : Nat → Watch Stmt
  | 0 => fail
  | n + 1 => do
    let tkn ← here
    match tkn.type with
    | .printKey => behind (printStatement n)
    | .leftBrace => behind (blockStatements n declaration)
    | .ifKey => behind (ifStatement n (statement declaration n))
    | .forKey => behind (forStatement n (statement declaration n))
    | .whileKey => behind (whileStatement n (statement declaration n))
    | .returnKey => behind (returnStatement n)
    | _ => expressionStatement n

def recover (n : Nat) (rule : Watch Stmt) : Watch Stmt := do
  let stmt ← rule
  if stmt.isNull then do
    synchronize n
    pure stmt
  else pure stmt

def declaration : Nat → Watch Stmt
  | 0 => fail
  | n + 1 => do
    let tkn ← here
    match tkn.type with
    | .classKey => behind (classStatement n (declaration n))
    | .funKey => behind (funStatement n (declaration n) "function")
    | .varKey => recover n (behind (varDeclaration n))
    | _ => recover n (statement (declaration n) n)

def parseLoop : Nat → List Stmt → Watch (Option (List Stmt))
  | 0, _ => fail
  | n + 1, stmts => do
    let head ← here
    if head.type = .endOfFile then pure (some stmts)
    else do
      let stmt ← declaration n
      if stmt.isNull then do
        face (.statements stmts)
        pure none
      else parseLoop n (stmts ++ [stmt])

def parse (n : Nat) (tokens : List Token) : Option (Except Hazard (Option (List Stmt)) × Cursor) :=
  parseLoop n [] { before := [], ahead := tokens, errors := [] }

/-! ### Steps that go wrong -/

theorem here_null {c : Cursor} (h : c.ahead = []) : here c = none := by
  rw [here, h]

theorem consume_null {c : Cursor} (h : c.ahead = []) (type : TokenType) (msg : String) : consume type msg c = none :=
  Attempt.bind_of_none (here_null h) _

theorem previous_first {c : Cursor} (h : c.before = []) : previous c = none := by
  rw [previous, h]
  cases c.ahead <;> rfl

theorem not_at {c : Cursor} {type : TokenType} (h : ¬c.At type) : c.ahead = [] ∨ ∃ tkn ahead, c.ahead = tkn :: ahead ∧ tkn.type ≠ type := by
  rcases c with ⟨before, _ | ⟨tkn, ahead⟩, errors⟩
  · exact .inl rfl
  · exact .inr ⟨tkn, ahead, rfl, fun htype => h (congrArg some htype)⟩

theorem consume_of_ne {c : Cursor} {tkn : Token} {ahead : List Token} {type : TokenType} (hahead : c.ahead = tkn :: ahead)
    (htype : tkn.type ≠ type) (msg : String) : consume type msg c = some (none, { c with errors := c.errors ++ [(tkn, msg)] }) := by
  have hhere : here c = some (tkn, c) := by rw [here, hahead]
  rw [consume, Attempt.bind_of_eq hhere, if_neg htype]
  rfl

/-- What was not found is read. -/
theorem consume_wrong {α : Type} {f : Option Token → Rule α} {c : Cursor} {type : TokenType} (h : ¬c.At type)
    (hf : ∀ c', f none c' = none) (msg : String) : (consume type msg >>= f) c = none := by
  obtain hnull | ⟨tkn, ahead, hahead, htype⟩ := not_at h
  · exact Attempt.bind_of_none (consume_null hnull type msg) f
  · rw [Attempt.bind_of_eq (consume_of_ne hahead htype msg), hf]

theorem unary_null (e : Rule Expr) {c : Cursor} (h : c.ahead = []) (n : Nat) : Parse.unary e n c = none := by
  cases n with
  | zero => rfl
  | succ n => exact Attempt.bind_of_none (here_null h) _

theorem assignment_null {c : Cursor} (h : c.ahead = []) (n : Nat) : Parse.assignment n c = none := by
  cases n with
  | zero => rfl
  | succ n =>
    iterate 7 refine Attempt.bind_of_none ?_ _
    exact unary_null _ h n

/-- There is no method at the cursor, and the loop comes back to the same token. -/
theorem methods_stuck (d : Rule Stmt) (k n : Nat) {c : Cursor} (h : ¬Hazard.method.Safe c) (methods : List Stmt) :
    untilBrace (Parse.funStatement k d "method") n methods c = none := by
  induction n generalizing c methods with
  | zero => rfl
  | succ n ih =>
    obtain ⟨hname, hbrace, hend⟩ := not_or.1 h |>.imp_right not_or.1
    obtain hnull | ⟨tkn, ahead, hahead, htype⟩ := not_at hname
    · exact Attempt.bind_of_none (here_null hnull) _
    · have hhere : here c = some (tkn, c) := by rw [here, hahead]
      have hgo : tkn.type ≠ .rightBrace ∧ tkn.type ≠ .endOfFile := by
        constructor
        · exact fun heq => hbrace (by rw [Cursor.At, hahead]; exact congrArg some heq)
        · exact fun heq => hend (by rw [Cursor.At, hahead]; exact congrArg some heq)
      have hmethod : Parse.funStatement k d "method" c =
          some (.null, { c with errors := c.errors ++ [(tkn, "Expect " ++ "method" ++ " name.")] }) := by
        rw [Parse.funStatement, Attempt.bind_of_eq (consume_of_ne hahead htype _)]
        rfl
      rw [untilBrace, Attempt.bind_of_eq hhere, if_pos hgo, Attempt.bind_of_eq hmethod]
      have hstill : ¬Hazard.method.Safe { c with errors := c.errors ++ [(tkn, "Expect " ++ "method" ++ " name.")] } := h
      exact ih hstill _

/-- No token is a semicolon and the one that is looked at does not begin a statement, so the cursor passes the end. -/
theorem synchronizeLoop_lost (token : Token) (n : Nat) {c : Cursor}
    (htoken : token.type ∉ [.classKey, .funKey, .varKey, .forKey, .ifKey, .whileKey, .printKey, .returnKey])
    (hall : ∀ tkn ∈ c.before.head?.toList ++ c.ahead, tkn.type ≠ .semicolon) : synchronizeLoop token n c = none := by
  induction n generalizing c with
  | zero => rfl
  | succ n ih =>
    obtain ⟨before, ahead, errors⟩ := c
    cases ahead with
    | nil => exact Attempt.bind_of_none (by cases before <;> rfl) _
    | cons tkn ahead =>
      cases before with
      | nil => exact Attempt.bind_of_none rfl _
      | cons prev before =>
        have hprev : prev.type ≠ .semicolon := hall prev (by simp)
        rw [synchronizeLoop, Attempt.bind_of_eq previous_cons, if_neg hprev, if_neg htoken, Attempt.bind_of_eq advance_cons]
        exact ih fun t ht => hall t (List.mem_cons_of_mem _ (by simpa using ht))

/-! ### What the watch says of the parser -/

section Guards

variable {α : Type} {g : Watch α} {r : Rule α} {e rule : Watch Expr} {e' rule' : Rule Expr} {d s : Watch Stmt} {d' s' : Rule Stmt}
  {types : List TokenType} {type : TokenType} {n m : Nat}

theorem guards_face (h : Guards g r) (hazard : Hazard) (hr : ∀ c, ¬hazard.Safe c → r c = none) :
    Guards (face hazard >>= fun _ => g) r := guards_check (fun c _ => h c) hr hazard

/-- A check of what does not depend on the state. -/
theorem guards_assert {hazard : Hazard} {b : Bool} (hsafe : ∀ c, hazard.Safe c ↔ b = true) (a : α) :
    Guards (face hazard >>= fun _ => pure a) (if b then pure a else Attempt.fail) := by
  refine guards_check (fun c hc => ?_) (fun c hc => ?_) hazard
  · rw [if_pos ((hsafe c).1 hc)]
    exact guards_pure a c
  · rw [if_neg (fun hb => hc ((hsafe c).2 hb))]
    rfl

theorem guards_binaryLoop (h : Guards rule rule') (hle : n ≤ m) (expr : Expr) :
    Guards (binaryLoop rule types n expr) (Parse.binaryLoop rule' types m expr) := by
  induction n generalizing m expr with
  | zero => exact guards_fail _
  | succ n ih =>
    obtain ⟨k, rfl, hk⟩ := exists_add_one hle
    rw [binaryLoop, Parse.binaryLoop]
    refine (guards_refl _).bind fun tkn => (guards_refl _).bind fun matched => Guards.ite ?_ (guards_pure _)
    exact (guards_refl _).bind fun tknPrev => h.bind fun exprRight => ih hk _

theorem guards_binaryProduction (h : Guards rule rule') (hle : n ≤ m) :
    Guards (binaryProduction n rule types) (Parse.binaryProduction m rule' types) :=
  h.bind fun expr => guards_binaryLoop h hle expr

theorem guards_grouping (h : Guards e e') : Guards (grouping e) (Parse.grouping e') := by
  refine (guards_refl _).bind fun _ => h.bind fun groupedExpr => (guards_refl _).bind fun found => ?_
  cases found with
  | none => exact guards_pure _
  | some paren => exact guards_pure _

theorem guards_primary (h : Guards e e') : Guards (primary e) (Parse.primary e') := by
  have hfirst : ∀ (f : Token → Rule Expr) (c : Cursor), ¬Hazard.keyword.Safe c → (previous >>= f) c = none :=
    fun f c hc => Attempt.bind_of_none (previous_first (not_not.1 hc)) f
  refine (guards_refl _).bind fun tkn => ?_
  cases tkn.type with
  | leftParen => exact guards_grouping h
  | superKey => exact guards_face (guards_refl _) _ (hfirst _)
  | thisKey => exact guards_face (guards_refl _) _ (hfirst _)
  | trueKey | falseKey | nilKey | string | number | identifier => exact guards_refl _
  | _ => exact (guards_refl _).bind fun _ => guards_pure _

theorem guards_argsLoop (h : Guards e e') (hle : n ≤ m) (callee : Expr) (args : List Expr) (arg : Expr) :
    Guards (argsLoop e callee n args arg) (Parse.argsLoop e' callee m args arg) := by
  induction n generalizing m args arg with
  | zero => exact guards_fail _
  | succ n ih =>
    obtain ⟨k, rfl, hk⟩ := exists_add_one hle
    rw [argsLoop, Parse.argsLoop]
    refine (guards_refl _).bind fun _ => (guards_refl _).bind fun tkn => Guards.ite ?_ ?_
    · exact (guards_refl _).bind fun _ => guards_assert (fun _ => Iff.rfl) none
    · refine Guards.bind (Guards.ite (guards_pure _) h) fun arg => (guards_refl _).bind fun tkn => ?_
      exact Guards.ite (ih hk _ _) (guards_pure _)

theorem guards_finishCall (h : Guards e e') (hle : n ≤ m) (callee : Expr) :
    Guards (finishCall n e callee) (Parse.finishCall m e' callee) := by
  refine (guards_argsLoop h hle callee [] .null).bind fun args => ?_
  cases args with
  | none => exact guards_pure _
  | some args =>
    refine guards_face ((guards_refl _).bind fun temp => ?_) _ fun c hc => consume_wrong hc (fun _ => rfl) _
    cases temp with
    | none => exact guards_fail _
    | some paren => exact guards_pure _

theorem guards_callLoop (h : Guards e e') (hle : n ≤ m) (expr : Expr) : Guards (callLoop e n expr) (Parse.callLoop e' m expr) := by
  induction n generalizing m expr with
  | zero => exact guards_fail _
  | succ n ih =>
    obtain ⟨k, rfl, hk⟩ := exists_add_one hle
    rw [callLoop, Parse.callLoop]
    refine (guards_refl _).bind fun tkn => Guards.ite ?_ (Guards.ite ?_ (guards_pure _))
    · exact (guards_finishCall h hk expr).bind fun expr => ih hk expr
    · exact (guards_refl _).bind fun expr => ih hk expr

theorem guards_call (h : Guards e e') (hle : n ≤ m) : Guards (call n e) (Parse.call m e') :=
  (guards_primary h).bind fun expr => guards_callLoop h hle expr

theorem guards_unary (h : Guards e e') (hle : n ≤ m) : Guards (unary e n) (Parse.unary e' m) := by
  induction n generalizing m with
  | zero => exact guards_fail _
  | succ n ih =>
    obtain ⟨k, rfl, hk⟩ := exists_add_one hle
    rw [unary, Parse.unary]
    refine (guards_refl _).bind fun tkn => (guards_refl _).bind fun matched => Guards.ite ?_ (guards_call h hk)
    exact (guards_refl _).bind fun tknPrev => (ih hk).bind fun rightExpr => guards_pure _

theorem guards_equality (h : Guards e e') (hle : n ≤ m) : Guards (equality n e) (Parse.equality m e') :=
  guards_binaryProduction (guards_binaryProduction (guards_binaryProduction
    (guards_binaryProduction (guards_unary h hle) hle) hle) hle) hle

theorem guards_logicLoop (h : Guards rule rule') (hle : n ≤ m) (tkn : Token) (expr : Expr) :
    Guards (logicLoop rule type n tkn expr) (Parse.logicLoop rule' type m tkn expr) := by
  induction n generalizing m tkn expr with
  | zero => exact guards_fail _
  | succ n ih =>
    obtain ⟨k, rfl, hk⟩ := exists_add_one hle
    rw [logicLoop, Parse.logicLoop]
    refine Guards.ite ?_ (guards_pure _)
    exact (guards_refl _).bind fun _ => (guards_refl _).bind fun _ => (guards_refl _).bind fun _ => h.bind fun _ => ih hk _ _

theorem guards_logic (h : Guards rule rule') (hle : n ≤ m) : Guards (logic n rule type) (Parse.logic m rule' type) :=
  h.bind fun expr => (guards_refl _).bind fun tkn => guards_logicLoop h hle tkn expr

theorem guards_logicOr (h : Guards e e') (hle : n ≤ m) : Guards (logicOr n e) (Parse.logicOr m e') :=
  guards_logic (guards_logic (guards_equality h hle) hle) hle

theorem assign_null {expr : Expr} (h : ¬expr.isNull = false) (equals : Token) (value : Expr) (c : Cursor) :
    assign equals value expr c = none := by
  cases expr with
  | null => rfl
  | _ => exact absurd rfl h

theorem guards_assignment (hle : n ≤ m) : Guards (assignment n) (Parse.assignment m) := by
  induction n generalizing m with
  | zero => exact guards_fail _
  | succ n ih =>
    obtain ⟨k, rfl, hk⟩ := exists_add_one hle
    rw [assignment, Parse.assignment]
    refine (guards_logicOr (ih hk) hk).bind fun expr => (guards_refl _).bind fun equals => Guards.ite ?_ (guards_pure _)
    refine (guards_refl _).bind fun _ => (ih hk).bind fun value => ?_
    exact guards_face (guards_refl _) _ fun c hc => assign_null hc equals value c

theorem expressionStatement_null {c : Cursor} (h : c.ahead = []) (n : Nat) : Parse.expressionStatement n c = none :=
  Attempt.bind_of_none (assignment_null h n) _

theorem guards_synchronize (hle : n ≤ m) : Guards (synchronize n) (Parse.synchronize m) := by
  refine (guards_refl _).bind fun _ => guards_face ?_ _ fun c hc => ?_
  · refine (guards_refl _).bind fun null => Guards.ite (guards_pure _) ?_
    exact (guards_refl _).bind fun token => Guards.ite (guards_pure _) (guards_lift (synchronizeLoop_le token hle))
  · obtain ⟨hnull, hrest⟩ := not_or.1 hc
    obtain ⟨htoken, hall⟩ := not_or.1 hrest
    obtain ⟨before, ahead, errors⟩ := c
    cases ahead with
    | nil => exact absurd rfl hnull
    | cons tkn ahead =>
      have hlook : ¬(tkn.type = .endOfFile ∨
          tkn.type ∈ [.classKey, .funKey, .varKey, .forKey, .ifKey, .whileKey, .printKey, .returnKey]) :=
        fun h => htoken ⟨tkn, List.mem_singleton_self _, h⟩
      have hnot : atNull ⟨before, tkn :: ahead, errors⟩ = some (false, ⟨before, tkn :: ahead, errors⟩) := rfl
      rw [Attempt.bind_of_eq hnot, if_neg Bool.false_ne_true, Attempt.bind_of_eq here_cons, if_neg fun h => hlook (.inl h)]
      exact synchronizeLoop_lost tkn m (fun h => hlook (.inr h)) fun t ht htype => hall ⟨t, ht, htype⟩

theorem guards_clause (tkn : Token) (type : TokenType) (hle : n ≤ m) : Guards (clause n tkn type) (Parse.clause m tkn type) :=
  Guards.ite (guards_pure _) (guards_assignment hle)

theorem guards_varDeclaration (hle : n ≤ m) : Guards (varDeclaration n) (Parse.varDeclaration m) := by
  refine (guards_refl _).bind fun identifierNode => ?_
  cases identifierNode with
  | none => exact guards_pure _
  | some name =>
    refine Guards.bind ?_ fun init => guards_refl _
    exact (guards_refl _).bind fun tkn => Guards.ite ((guards_refl _).bind fun _ => guards_assignment hle) (guards_pure _)

theorem guards_expressionStatement (hle : n ≤ m) : Guards (expressionStatement n) (Parse.expressionStatement m) :=
  (guards_assignment hle).bind fun _ => guards_refl _

theorem guards_printStatement (hle : n ≤ m) : Guards (printStatement n) (Parse.printStatement m) :=
  (guards_assignment hle).bind fun _ => guards_refl _

theorem guards_innerLoop (h : Guards d d') (hle : n ≤ m) (inner : List Stmt) : Guards (innerLoop d n inner) (untilBrace d' m inner) := by
  induction n generalizing m inner with
  | zero => exact guards_fail _
  | succ n ih =>
    obtain ⟨k, rfl, hk⟩ := exists_add_one hle
    rw [innerLoop, untilBrace]
    refine guards_face ?_ _ fun c hc => Attempt.bind_of_none (here_null (not_not.1 hc)) _
    exact (guards_refl _).bind fun _ => Guards.ite (h.bind fun stmt => ih hk _) (guards_pure _)

theorem guards_blockStatements (h : Guards d d') (hle : n ≤ m) : Guards (blockStatements n d) (Parse.blockStatements m d') :=
  (guards_innerLoop h hle []).bind fun _ => (guards_refl _).bind fun _ => guards_pure _

theorem guards_ifStatement (h : Guards s s') (hle : n ≤ m) : Guards (ifStatement n s) (Parse.ifStatement m s') := by
  refine (guards_refl _).bind fun _ => (guards_assignment hle).bind fun _ => (guards_refl _).bind fun _ => h.bind fun _ => ?_
  refine Guards.bind ?_ fun _ => guards_pure _
  exact (guards_refl _).bind fun _ => Guards.ite ((guards_refl _).bind fun _ => h) (guards_pure _)

theorem guards_forInitializer (hle : n ≤ m) : Guards (forInitializer n) (Parse.forInitializer m) := by
  refine (guards_refl _).bind fun tkn => Guards.ite ((guards_refl _).bind fun _ => guards_pure _) (Guards.ite ?_ ?_)
  · exact (guards_refl _).bind fun _ => guards_varDeclaration hle
  · refine (guards_refl _).bind fun _ => guards_face (guards_expressionStatement hle) _ fun c hc => ?_
    exact expressionStatement_null (not_not.1 hc) m

theorem guards_forStatement (h : Guards s s') (hle : n ≤ m) : Guards (forStatement n s) (Parse.forStatement m s') :=
  (guards_refl _).bind fun _ => (guards_forInitializer hle).bind fun _ => (guards_refl _).bind fun tkn =>
    (guards_clause tkn _ hle).bind fun _ => (guards_refl _).bind fun _ => (guards_clause tkn _ hle).bind fun _ =>
      (guards_refl _).bind fun _ => h.bind fun _ => guards_pure _

theorem guards_whileStatement (h : Guards s s') (hle : n ≤ m) : Guards (whileStatement n s) (Parse.whileStatement m s') :=
  (guards_refl _).bind fun _ => (guards_assignment hle).bind fun _ => (guards_refl _).bind fun _ => h.bind fun _ => guards_pure _

theorem guards_returnStatement (hle : n ≤ m) : Guards (returnStatement n) (Parse.returnStatement m) :=
  (guards_refl _).bind fun _ => (guards_refl _).bind fun tkn => (guards_clause tkn _ hle).bind fun _ =>
    (guards_refl _).bind fun _ => guards_pure _

theorem guards_paramsLoop (hle : n ≤ m) (params : List Token) (tkn : Token) :
    Guards (paramsLoop n params tkn) (Parse.paramsLoop m params tkn) := by
  induction n generalizing m params tkn with
  | zero => exact guards_fail _
  | succ n ih =>
    obtain ⟨k, rfl, hk⟩ := exists_add_one hle
    rw [paramsLoop, Parse.paramsLoop]
    refine (guards_refl _).bind fun _ => guards_face ((guards_refl _).bind fun temp => ?_) _ fun c hc => consume_wrong hc (fun _ => rfl) _
    cases temp with
    | none => exact guards_fail _
    | some name => exact (guards_refl _).bind fun _ => (guards_refl _).bind fun _ => Guards.ite (ih hk _ _) (guards_pure _)

theorem guards_parameters (hle : n ≤ m) : Guards (parameters n) (Parse.parameters m) :=
  (guards_refl _).bind fun tkn => Guards.ite (guards_pure _) (guards_paramsLoop hle [] tkn)

theorem guards_funStatement (h : Guards d d') (hle : n ≤ m) (kind : String) :
    Guards (funStatement n d kind) (Parse.funStatement m d' kind) := by
  refine (guards_refl _).bind fun temp => ?_
  cases temp with
  | none => exact guards_pure _
  | some name =>
    refine (guards_refl _).bind fun _ => (guards_parameters hle).bind fun _ => guards_face ?_ _ fun c hc => ?_
    · exact (guards_refl _).bind fun _ => (guards_refl _).bind fun _ => (guards_blockStatements h hle).bind fun _ => guards_pure _
    · exact Attempt.bind_of_none (consume_null (not_not.1 hc) _ _) _

theorem guards_methodsLoop (k : Nat) (hs : Guards s (Parse.funStatement k d' "method")) (hle : n ≤ m)
    (methods : List Stmt) : Guards (methodsLoop s n methods) (untilBrace (Parse.funStatement k d' "method") m methods) := by
  induction n generalizing m methods with
  | zero => exact guards_fail _
  | succ n ih =>
    obtain ⟨l, rfl, hl⟩ := exists_add_one hle
    rw [methodsLoop]
    refine guards_face ?_ _ fun c hc => methods_stuck d' k (l + 1) hc methods
    rw [untilBrace]
    exact (guards_refl _).bind fun _ => Guards.ite (hs.bind fun stmt => ih hl _) (guards_pure _)

theorem guards_classStatement (h : Guards d d') (hle : n ≤ m) : Guards (classStatement n d) (Parse.classStatement m d') := by
  refine (guards_refl _).bind fun classNameNode => ?_
  cases classNameNode with
  | none => exact guards_pure _
  | some name =>
    refine (guards_refl _).bind fun superClassExpr => ?_
    cases superClassExpr with
    | none => exact guards_pure _
    | some superClassExpr =>
      refine (guards_refl _).bind fun _ => (guards_methodsLoop m (guards_funStatement h hle _) hle []).bind fun _ => ?_
      exact (guards_refl _).bind fun _ => guards_pure _

theorem guards_behind (h : Guards g r) : Guards (behind g) (Parse.behind r) := (guards_refl _).bind fun _ => h

theorem guards_statement (h : Guards d d') (hle : n ≤ m) : Guards (statement d n) (Parse.statement d' m) := by
  induction n generalizing m with
  | zero => exact guards_fail _
  | succ n ih =>
    obtain ⟨k, rfl, hk⟩ := exists_add_one hle
    rw [statement, Parse.statement]
    refine (guards_refl _).bind fun tkn => ?_
    cases tkn.type with
    | printKey => exact guards_behind (guards_printStatement hk)
    | leftBrace => exact guards_behind (guards_blockStatements h hk)
    | ifKey => exact guards_behind (guards_ifStatement (ih hk) hk)
    | forKey => exact guards_behind (guards_forStatement (ih hk) hk)
    | whileKey => exact guards_behind (guards_whileStatement (ih hk) hk)
    | returnKey => exact guards_behind (guards_returnStatement hk)
    | _ => exact guards_expressionStatement hk

theorem guards_recover (h : Guards s s') (hle : n ≤ m) : Guards (recover n s) (Parse.recover m s') :=
  h.bind fun _ => Guards.ite ((guards_synchronize hle).bind fun _ => guards_pure _) (guards_pure _)

theorem guards_declaration (hle : n ≤ m) : Guards (declaration n) (Parse.declaration m) := by
  induction n generalizing m with
  | zero => exact guards_fail _
  | succ n ih =>
    obtain ⟨k, rfl, hk⟩ := exists_add_one hle
    rw [declaration, Parse.declaration]
    refine (guards_refl _).bind fun tkn => ?_
    cases tkn.type with
    | classKey => exact guards_behind (guards_classStatement (ih hk) hk)
    | funKey => exact guards_behind (guards_funStatement (ih hk) hk _)
    | varKey => exact guards_recover (guards_behind (guards_varDeclaration hk)) hk
    | _ => exact guards_recover (guards_statement (ih hk) hk) hk

theorem guards_parseLoop (hle : n ≤ m) (stmts : List Stmt) : Guards (parseLoop n stmts) (Parse.parseLoop m stmts) := by
  induction n generalizing m stmts with
  | zero => exact guards_fail _
  | succ n ih =>
    obtain ⟨k, rfl, hk⟩ := exists_add_one hle
    rw [parseLoop, Parse.parseLoop]
    refine (guards_refl _).bind fun head => Guards.ite (guards_pure _) ((guards_declaration hk).bind fun stmt => ?_)
    exact Guards.ite (guards_assert (fun _ => Iff.rfl) none) (ih hk _)

end Guards

end Watched

end Reading.Clox.Parse
