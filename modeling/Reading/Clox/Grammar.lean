import Reading.Clox.Parse

/-!
# The grammar of the tree walker

Derivations of the grammar in the comments of `parse.c`, with the tokens of each and its abstract syntax tree. A derivation carries its tokens with their types, so every value of `Phrase` and of `Sentence` is one. A chain of operators is a left recursion, as its tree is. An `else` belongs to the nearest `if` in front of it: a statement says whether it ends in an `if` that could still take one, and what stands in front of an `else` does not.
-/

namespace Reading.Clox.Parse

/-- A token of the type. -/
abbrev Tok (type : TokenType) := { tkn : Token // tkn.type = type }

/-- A token of one of the types. -/
abbrev OneOf (types : List TokenType) := { tkn : Token // tkn.type ∈ types }

/-- The productions that are instances of `binary_production`. -/
inductive Binop where
  | equality
  | comparison
  | addition
  | multiplication
deriving DecidableEq

def Binop.types : Binop → List TokenType
  | .equality => [.bangEqual, .equalEqual]
  | .comparison => [.greater, .greaterEqual, .less, .lessEqual]
  | .addition => [.minus, .plus]
  | .multiplication => [.slash, .star]

inductive Logic where
  | or
  | and
deriving DecidableEq

def Logic.type : Logic → TokenType
  | .or => .orKey
  | .and => .andKey

/-- The levels of precedence, and the arguments of a call. -/
inductive Level where
  | arguments
  | assignment
  | logic (l : Logic)
  | binary (b : Binop)
  | unary
  | call
  | primary
deriving DecidableEq

/-- The level of what an operator stands between. -/
def Binop.operand : Binop → Level
  | .equality => .binary .comparison
  | .comparison => .binary .addition
  | .addition => .binary .multiplication
  | .multiplication => .unary

def Logic.operand : Logic → Level
  | .or => .logic .and
  | .and => .binary .equality

inductive Phrase : Level → Type where
  | literal (tkn : OneOf [.trueKey, .falseKey, .nilKey, .string, .number]) : Phrase .primary
  | var (name : Tok .identifier) : Phrase .primary
  | grouping (left : Tok .leftParen) (expr : Phrase .assignment) (right : Tok .rightParen) : Phrase .primary
  | this (keyword : Tok .thisKey) : Phrase .primary
  | super (keyword : Tok .superKey) (dot : Tok .dot) (method : Tok .identifier) : Phrase .primary
  | ofPrimary (expr : Phrase .primary) : Phrase .call
  | callNone (callee : Phrase .call) (left : Tok .leftParen) (paren : Tok .rightParen) : Phrase .call
  | callSome (callee : Phrase .call) (left : Tok .leftParen) (args : Phrase .arguments) (paren : Tok .rightParen) : Phrase .call
  | get (object : Phrase .call) (dot : Tok .dot) (name : Tok .identifier) : Phrase .call
  | lastArg (arg : Phrase .assignment) : Phrase .arguments
  | moreArgs (arg : Phrase .assignment) (comma : Tok .comma) (args : Phrase .arguments) : Phrase .arguments
  | ofCall (expr : Phrase .call) : Phrase .unary
  | unary (op : OneOf [.minus, .bang]) (expr : Phrase .unary) : Phrase .unary
  | ofOperand (b : Binop) (expr : Phrase b.operand) : Phrase (.binary b)
  | binary (b : Binop) (left : Phrase (.binary b)) (op : OneOf b.types) (right : Phrase b.operand) : Phrase (.binary b)
  | ofLogicOperand (l : Logic) (expr : Phrase l.operand) : Phrase (.logic l)
  | logical (l : Logic) (left : Phrase (.logic l)) (op : Tok l.type) (right : Phrase l.operand) : Phrase (.logic l)
  | ofOr (expr : Phrase (.logic .or)) : Phrase .assignment
  | assign (name : Tok .identifier) (equals : Tok .equal) (value : Phrase .assignment) : Phrase .assignment
  | set (object : Phrase .call) (dot : Tok .dot) (name : Tok .identifier) (equals : Tok .equal) (value : Phrase .assignment) :
      Phrase .assignment

namespace Phrase

def tokens : {k : Level} → Phrase k → List Token
  | _, .literal tkn => [tkn.1]
  | _, .var name => [name.1]
  | _, .grouping left expr right => left.1 :: (expr.tokens ++ [right.1])
  | _, .this keyword => [keyword.1]
  | _, .super keyword dot method => [keyword.1, dot.1, method.1]
  | _, .ofPrimary expr | _, .ofCall expr | _, .ofOperand _ expr | _, .ofLogicOperand _ expr | _, .ofOr expr | _, .lastArg expr =>
    expr.tokens
  | _, .callNone callee left paren => callee.tokens ++ [left.1, paren.1]
  | _, .callSome callee left args paren => callee.tokens ++ left.1 :: (args.tokens ++ [paren.1])
  | _, .get object dot name => object.tokens ++ [dot.1, name.1]
  | _, .moreArgs arg comma args => arg.tokens ++ comma.1 :: args.tokens
  | _, .unary op expr => op.1 :: expr.tokens
  | _, .binary _ left op right => left.tokens ++ op.1 :: right.tokens
  | _, .logical _ left op right => left.tokens ++ op.1 :: right.tokens
  | _, .assign name equals value => name.1 :: equals.1 :: value.tokens
  | _, .set object dot name equals value => object.tokens ++ dot.1 :: name.1 :: equals.1 :: value.tokens

def literalTree (tkn : Token) : Literal :=
  match tkn.type with
  | .trueKey => .bool true
  | .falseKey => .bool false
  | .string => .string tkn.literal
  | .number => .number tkn.literal
  | _ => .nil

/-- The tree of an expression, the trees of the arguments of a call. -/
def trees : {k : Level} → Phrase k → List Expr
  | _, .literal tkn => [.literal (literalTree tkn.1)]
  | _, .var name => [.var name.1]
  | _, .grouping _ expr _ => [.grouping (expr.trees.headD .null)]
  | _, .this keyword => [.this keyword.1]
  | _, .super keyword _ method => [.super keyword.1 method.1]
  | _, .ofPrimary expr | _, .ofCall expr | _, .ofOperand _ expr | _, .ofLogicOperand _ expr | _, .ofOr expr => expr.trees
  | _, .callNone callee _ paren => [.call (callee.trees.headD .null) paren.1 []]
  | _, .callSome callee _ args paren => [.call (callee.trees.headD .null) paren.1 args.trees]
  | _, .get object _ name => [.get (object.trees.headD .null) name.1]
  | _, .lastArg arg => [arg.trees.headD .null]
  | _, .moreArgs arg _ args => arg.trees.headD .null :: args.trees
  | _, .unary op expr => [.unary op.1 (expr.trees.headD .null)]
  | _, .binary _ left op right => [.binary op.1 (left.trees.headD .null) (right.trees.headD .null)]
  | _, .logical _ left op right => [.logical (left.trees.headD .null) op.1 (right.trees.headD .null)]
  | _, .assign name _ value => [.assignment name.1 (value.trees.headD .null)]
  | _, .set object _ name _ value => [.set (object.trees.headD .null) name.1 (value.trees.headD .null)]

def tree {k : Level} (p : Phrase k) : Expr := p.trees.headD .null

/-- Whether the last production is an operator of `logicOr` or `logicAnd`. -/
def isChain : {k : Level} → Phrase k → Bool
  | _, .logical .. => true
  | _, _ => false

/-- The expressions that the parser reads: without `this` and `super`, with at most one `or` in a chain of them and at most one `and`, and with at most nine arguments in a call. -/
def supported : {k : Level} → Phrase k → Bool
  | _, .literal _ | _, .var _ => true
  | _, .this _ | _, .super .. => false
  | _, .grouping _ expr _ | _, .ofPrimary expr | _, .callNone expr _ _ | _, .get expr _ _ | _, .lastArg expr | _, .ofCall expr
  | _, .unary _ expr | _, .ofOperand _ expr | _, .ofLogicOperand _ expr | _, .ofOr expr | _, .assign _ _ expr => expr.supported
  | _, .callSome callee _ args _ => callee.supported && args.supported && decide (args.trees.length ≤ maxArgs + 1)
  | _, .moreArgs arg _ args => arg.supported && args.supported
  | _, .binary _ left _ right => left.supported && right.supported
  | _, .logical _ left _ right => !left.isChain && left.supported && right.supported
  | _, .set object _ _ _ value => object.supported && value.supported

attribute [grind =] tokens trees tree supported

end Phrase

/-- An expression of the grammar. -/
abbrev Expression := Phrase .assignment

/-! ### Statements -/

/-- What stands behind `var`. -/
structure VarTail where
  name : Tok .identifier
  init : Option (Tok .equal × Expression)
  semicolon : Tok .semicolon

def VarTail.tokens (v : VarTail) : List Token :=
  match v.init with
  | none => [v.name.1, v.semicolon.1]
  | some (equals, expr) => v.name.1 :: equals.1 :: (expr.tokens ++ [v.semicolon.1])

def VarTail.tree (v : VarTail) : Stmt :=
  match v.init with
  | none => .varDeclaration .null v.name.1
  | some (_, expr) => .varDeclaration expr.tree v.name.1

/-- The first clause of a `for`, with its semicolon. -/
inductive ForInit where
  | none (semicolon : Tok .semicolon)
  | var (keyword : Tok .varKey) (v : VarTail)
  | expr (expr : Expression) (semicolon : Tok .semicolon)

def ForInit.tokens : ForInit → List Token
  | .none semicolon => [semicolon.1]
  | .var keyword v => keyword.1 :: v.tokens
  | .expr e semicolon => e.tokens ++ [semicolon.1]

def ForInit.tree : ForInit → Option Stmt
  | .none _ => .none
  | .var _ v => some v.tree
  | .expr e _ => some (.expr e.tree)

/-- The tokens of a clause that may be absent. -/
def clauseTokens (e : Option Expression) : List Token := (e.map Phrase.tokens).getD []

/-- The names between the parentheses of a function. -/
inductive Params where
  | none
  | some (first : Tok .identifier) (others : List (Tok .comma × Tok .identifier))

def Params.tokens : Params → List Token
  | .none => []
  | .some first others => first.1 :: others.flatMap fun other => [other.1.1, other.2.1]

def Params.names : Params → List Token
  | .none => []
  | .some first others => first.1 :: others.map fun other => other.2.1

/-- The `while` that stands for a `for`: the step at the end of the body, the first clause in a block around it. -/
def forTree (init : Option Stmt) (condition step : Option Expr) (body : Stmt) : Stmt :=
  let body := match step with
    | .none => body
    | some step => .block [body, .expr step]
  let loop := .whileStmt (condition.getD (.literal (.bool true))) body
  match init with
  | .none => loop
  | some init => .block [init, loop]

/-- A statement with whether an `else` behind it would be taken, a declaration, several of them, what stands behind `fun`, several methods. -/
inductive Form where
  | statement (dangling : Bool)
  | declaration
  | declarations
  | function
  | methods

inductive Sentence : Form → Type where
  | print (keyword : Tok .printKey) (expr : Expression) (semicolon : Tok .semicolon) : Sentence (.statement false)
  | expr (expr : Expression) (semicolon : Tok .semicolon) : Sentence (.statement false)
  | block (left : Tok .leftBrace) (inner : Sentence .declarations) (right : Tok .rightBrace) : Sentence (.statement false)
  | ifThen {d : Bool} (keyword : Tok .ifKey) (left : Tok .leftParen) (condition : Expression) (right : Tok .rightParen)
      (thenStmt : Sentence (.statement d)) : Sentence (.statement true)
  | ifElse {d : Bool} (keyword : Tok .ifKey) (left : Tok .leftParen) (condition : Expression) (right : Tok .rightParen)
      (thenStmt : Sentence (.statement false)) (elseKey : Tok .elseKey) (elseStmt : Sentence (.statement d)) : Sentence (.statement d)
  | whileLoop {d : Bool} (keyword : Tok .whileKey) (left : Tok .leftParen) (condition : Expression) (right : Tok .rightParen)
      (body : Sentence (.statement d)) : Sentence (.statement d)
  | forLoop {d : Bool} (keyword : Tok .forKey) (left : Tok .leftParen) (init : ForInit) (condition : Option Expression)
      (semicolon : Tok .semicolon) (step : Option Expression) (right : Tok .rightParen) (body : Sentence (.statement d)) :
      Sentence (.statement d)
  | returns (keyword : Tok .returnKey) (value : Option Expression) (semicolon : Tok .semicolon) : Sentence (.statement false)
  | ofStatement {d : Bool} (stmt : Sentence (.statement d)) : Sentence .declaration
  | var (keyword : Tok .varKey) (v : VarTail) : Sentence .declaration
  | func (keyword : Tok .funKey) (f : Sentence .function) : Sentence .declaration
  | cls (keyword : Tok .classKey) (name : Tok .identifier) (super : Option (Tok .less × Tok .identifier)) (left : Tok .leftBrace)
      (methods : Sentence .methods) (right : Tok .rightBrace) : Sentence .declaration
  | noDeclaration : Sentence .declarations
  | moreDeclarations (first : Sentence .declaration) (others : Sentence .declarations) : Sentence .declarations
  | function (name : Tok .identifier) (left : Tok .leftParen) (params : Params) (right : Tok .rightParen) (leftBrace : Tok .leftBrace)
      (body : Sentence .declarations) (rightBrace : Tok .rightBrace) : Sentence .function
  | noMethod : Sentence .methods
  | moreMethods (first : Sentence .function) (others : Sentence .methods) : Sentence .methods

namespace Sentence

def tokens : {f : Form} → Sentence f → List Token
  | _, .print keyword e semicolon => keyword.1 :: (e.tokens ++ [semicolon.1])
  | _, .expr e semicolon => e.tokens ++ [semicolon.1]
  | _, .block left inner right => left.1 :: (inner.tokens ++ [right.1])
  | _, .ifThen keyword left condition right thenStmt => keyword.1 :: left.1 :: (condition.tokens ++ right.1 :: thenStmt.tokens)
  | _, .ifElse keyword left condition right thenStmt elseKey elseStmt =>
    keyword.1 :: left.1 :: (condition.tokens ++ right.1 :: (thenStmt.tokens ++ elseKey.1 :: elseStmt.tokens))
  | _, .whileLoop keyword left condition right body => keyword.1 :: left.1 :: (condition.tokens ++ right.1 :: body.tokens)
  | _, .forLoop keyword left init condition semicolon step right body =>
    keyword.1 :: left.1 :: (init.tokens ++ (clauseTokens condition ++ semicolon.1 :: (clauseTokens step ++ right.1 :: body.tokens)))
  | _, .returns keyword value semicolon => keyword.1 :: (clauseTokens value ++ [semicolon.1])
  | _, .ofStatement stmt => stmt.tokens
  | _, .var keyword v => keyword.1 :: v.tokens
  | _, .func keyword f => keyword.1 :: f.tokens
  | _, .cls keyword name none left methods right => keyword.1 :: name.1 :: left.1 :: (methods.tokens ++ [right.1])
  | _, .cls keyword name (some (less, super)) left methods right =>
    keyword.1 :: name.1 :: less.1 :: super.1 :: left.1 :: (methods.tokens ++ [right.1])
  | _, .noDeclaration | _, .noMethod => []
  | _, .moreDeclarations first others => first.tokens ++ others.tokens
  | _, .moreMethods first others => first.tokens ++ others.tokens
  | _, .function name left params right leftBrace body rightBrace =>
    name.1 :: left.1 :: (params.tokens ++ right.1 :: leftBrace.1 :: (body.tokens ++ [rightBrace.1]))

/-- The tree of one statement or declaration, the trees of several. -/
def trees : {f : Form} → Sentence f → List Stmt
  | _, .print _ e _ => [.print e.tree]
  | _, .expr e _ => [.expr e.tree]
  | _, .block _ inner _ => [.block inner.trees]
  | _, .ifThen _ _ condition _ thenStmt => [.ifElse condition.tree (thenStmt.trees.headD .null) .null]
  | _, .ifElse _ _ condition _ thenStmt _ elseStmt =>
    [.ifElse condition.tree (thenStmt.trees.headD .null) (elseStmt.trees.headD .null)]
  | _, .whileLoop _ _ condition _ body => [.whileStmt condition.tree (body.trees.headD .null)]
  | _, .forLoop _ _ init condition _ step _ body =>
    [forTree init.tree (condition.map Phrase.tree) (step.map Phrase.tree) (body.trees.headD .null)]
  | _, .returns keyword value _ => [.returnStmt keyword.1 ((value.map Phrase.tree).getD .null)]
  | _, .ofStatement stmt => stmt.trees
  | _, .var _ v => [v.tree]
  | _, .func _ f => f.trees
  | _, .cls _ name super _ methods _ => [.classStmt name.1 methods.trees ((super.map fun s => .var s.2.1).getD .null)]
  | _, .noDeclaration | _, .noMethod => []
  | _, .moreDeclarations first others => first.trees.headD .null :: others.trees
  | _, .moreMethods first others => first.trees.headD .null :: others.trees
  | _, .function name _ params _ _ body _ => [.funStmt params.names name.1 (.block body.trees)]

def tree {f : Form} (s : Sentence f) : Stmt := s.trees.headD .null

attribute [grind =] tokens trees tree

end Sentence

def VarTail.supported (v : VarTail) : Bool := v.init.all fun init => init.2.supported

/-- The first clause of a `for` is not an expression. -/
def ForInit.supported : ForInit → Bool
  | .none _ => true
  | .var _ v => v.supported
  | .expr _ _ => false

/-- The expressions in it are read, and so are the first clauses of its `for` loops. -/
def Sentence.supported : {f : Form} → Sentence f → Bool
  | _, .print _ e _ | _, .expr e _ => e.supported
  | _, .block _ inner _ => inner.supported
  | _, .ifThen _ _ condition _ thenStmt => condition.supported && thenStmt.supported
  | _, .ifElse _ _ condition _ thenStmt _ elseStmt => condition.supported && thenStmt.supported && elseStmt.supported
  | _, .whileLoop _ _ condition _ body => condition.supported && body.supported
  | _, .forLoop _ _ init condition _ step _ body =>
    init.supported && condition.all Phrase.supported && step.all Phrase.supported && body.supported
  | _, .returns _ value _ => value.all Phrase.supported
  | _, .ofStatement stmt => stmt.supported
  | _, .var _ v => v.supported
  | _, .func _ f => f.supported
  | _, .cls _ _ _ _ methods _ => methods.supported
  | _, .noDeclaration | _, .noMethod => true
  | _, .moreDeclarations first others => first.supported && others.supported
  | _, .moreMethods first others => first.supported && others.supported
  | _, .function _ _ _ _ _ body _ => body.supported

/-- A sequence of declarations. -/
abbrev Program := Sentence .declarations

end Reading.Clox.Parse
