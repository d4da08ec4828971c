import Mathlib.Data.Finmap
import Reading.Clox.Tokenizer
import Reading.Clox.Parse

/-!
# The resolver of the tree walker

`resolve.c` over the trees of the parser. A scope is the finite map that its dictionary is: it has a name from `declare` on, with whether `define` was called for it too. `dict_set`, which writes behind the `int` of the name, changes nothing that is read here. The list of the scopes has the innermost one first, and before the first call, when it is null, it is empty. A visitor returns a pointer, which is read as whether it is not null.
-/

namespace Reading.Clox.Resolve

open Lib Lib.Attempt Parse

inductive FunctionType where
  | none
  | function
  | method
  | ctor
deriving DecidableEq

inductive ClassType where
  | none
  | classType
  | subclass
deriving DecidableEq

abbrev Scope := Finmap fun _ : Chars => Bool

structure Resolver where
  scopes : List Scope := []
  functionType : FunctionType := .none
  classType : ClassType := .none
  /-- What `parse_error` was called with. -/
  errors : List (Token × String) := []
  /-- What was written to the `order` of the expressions with a name. -/
  orders : List (Token × BitVec 32) := []

abbrev Visit (α : Type) := Attempt Resolver α

/-! ### Scopes -/

def currentFunctionType : Visit FunctionType := fun r => some (r.functionType, r)

def setFunctionType (type : FunctionType) : Visit Unit := fun r => some ((), { r with functionType := type })

def currentClassType : Visit ClassType := fun r => some (r.classType, r)

def setClassType (type : ClassType) : Visit Unit := fun r => some ((), { r with classType := type })

/-- As for the parser, the text is taken to fit into `buff`. -/
def parseError (tkn : Token) (msg : String) : Visit Unit := fun r => some ((), { r with errors := r.errors ++ [(tkn, msg)] })

def scopeBegin : Visit Unit := fun r => some ((), { r with scopes := ∅ :: r.scopes })

def scopeEnd : Visit Unit := fun r =>
  match r.scopes with
  | [] => none
  | _ :: scopes => some ((), { r with scopes := scopes })

def scopeAdd (name : Chars) (value : Bool) : Visit Bool := fun r =>
  match r.scopes with
  | [] => some (false, r)
  | last :: scopes => some (true, if name ∈ last then r else { r with scopes := last.insert name value :: scopes })

def declare (name : Token) : Visit Bool := fun r =>
  match r.scopes with
  | [] => some (true, r)
  | scope :: scopes =>
    if name.lexeme ∈ scope then
      some (false, { r with errors := r.errors ++ [(name, "Variable with this name already declared in this scope.")] })
    else some (true, { r with scopes := scope.insert name.lexeme false :: scopes })

/-- It writes through the pointer that it finds. -/
def define (name : Token) : Visit Bool := fun r =>
  match r.scopes with
  | [] => some (true, r)
  | scope :: scopes => do
    let _ ← scope.lookup name.lexeme
    return (true, { r with scopes := scope.insert name.lexeme true :: scopes })

/-- The loop of `resolve_local`. -/
def orderFrom (count : Nat) (lexeme : Chars) : Int → List Scope → Int
  | _, [] => -1
  | i, scope :: prev => if i < 0 then -1 else if lexeme ∈ scope then count - i else orderFrom count lexeme (i - 1) prev

def resolveLocal (name : Token) : Visit Bool := fun r =>
  let order := orderFrom r.scopes.length name.lexeme r.scopes.length r.scopes
  some (true, { r with orders := r.orders ++ [(name, BitVec.ofInt 32 order)] })

/-! ### Expressions -/

/-- `!a || !b ? NULL : …` -/
def both (a b : Visit Bool) : Visit Bool := do
  if ← a then b else return false

def visitVarExpr (name : Token) : Visit Bool := fun r =>
  if r.scopes.head?.bind (·.lookup name.lexeme) = some false then
    (do parseError name "Cannot Read Local variable in its own initializer: %s\n"; return false : Visit Bool) r
  else resolveLocal name r

def visitThisExpr (keyword : Token) : Visit Bool := do
  if (← currentClassType) = .none then
    parseError keyword "Cannot use 'this' outside of a class."
    return false
  else resolveLocal keyword

def visitSuperExpr (keyword : Token) : Visit Bool := do
  let type ← currentClassType
  if type = .none then
    parseError keyword "Cannot use 'super' outside of a class."
    return false
  else if type ≠ .classType then
    parseError keyword "Cannot use 'super' in a class with no superclass."
    return false
  else resolveLocal keyword

mutual

def resolveExpr : Expr → Visit Bool
  | .null => fail
  | .literal _ => return true
  | .var name => visitVarExpr name
  | .this keyword => visitThisExpr keyword
  | .super keyword _ => visitSuperExpr keyword
  | .unary _ expr | .grouping expr | .get expr _ => resolveExpr expr
  | .assignment name right => both (resolveExpr right) (resolveLocal name)
  | .binary _ left right | .logical left _ right | .set left _ right => both (resolveExpr left) (resolveExpr right)
  | .call callee _ args => do
    let resolved ← resolveExpr callee
    if resolved then return (← resolveArgs resolved.toNat args) ≠ 0 else return false

/-- The loop over the arguments of a call. It adds up what it gets. -/
def resolveArgs : Nat → List Expr → Visit Nat
  | resolved, [] => return resolved
  | resolved, arg :: args => do
    let resolved := resolved + (← resolveExpr arg).toNat
    if resolved = 0 then return resolved else resolveArgs resolved args

end

/-! ### Statements -/

def funArgs : List Token → Visit Unit
  | [] => return
  | name :: args => do
    let _ ← declare name
    let _ ← define name
    funArgs args

/-- `resolve_fun`, with what it does for the statements of the body. -/
def resolveFun (type : FunctionType) (args : List Token) (body : Visit Bool) : Visit Bool := do
  let enclosingType ← currentFunctionType
  setFunctionType type
  scopeBegin
  funArgs args
  let resolved ← body
  scopeEnd
  setFunctionType enclosingType
  return resolved

mutual

def resolve : Stmt → Visit Bool
  | .null => fail
  | .print expr | .expr expr => resolveExpr expr
  | .varDeclaration initializer varName => do
    let _ ← declare varName
    let resolved ← (if initializer.isNull then pure true else resolveExpr initializer : Visit Bool)
    if resolved then
      let _ ← define varName
      return true
    else return false
  | .block innerStmts => do
    scopeBegin
    let resolved ← resolveList false innerStmts
    scopeEnd
    return resolved
  | .ifElse condition thenStmt elseStmt => do
    let resolved ← both (resolveExpr condition) (resolve thenStmt)
    if resolved ∧ ¬ elseStmt.isNull then resolve elseStmt else return resolved
  | .whileStmt condition body => both (resolveExpr condition) (resolve body)
  | .funStmt args name body => do
    let _ ← declare name
    let _ ← define name
    resolveFun .function args (resolveBody body)
  | .returnStmt keyword value => do
    let type ← currentFunctionType
    if type = .ctor then
      parseError keyword "Cannot return from top-level code."
      return false
    else if value.isNull then return true
    else if type = .ctor then
      parseError keyword "Cannot return a value from an initializer."
      return false
    else resolveExpr value
  | .classStmt name methods super => do
    let enclosedClassType ← currentClassType
    setClassType .classType
    let _ ← declare name
    let _ ← define name
    let resolved ← (if super.isNull then pure true else do
      setClassType .subclass
      let resolved ← resolveExpr super
      scopeBegin
      let _ ← scopeAdd ("super".toList.map ascii) true
      return resolved : Visit Bool)
    scopeBegin
    let _ ← scopeAdd ("this".toList.map ascii) true
    resolveMethods methods
    scopeEnd
    if super.isNull then pure () else scopeEnd
    setClassType enclosedClassType
    return resolved

/-- What is read as the body of a function is to be a block. -/
def resolveBody : Stmt → Visit Bool
  | .block innerStmts => resolveList false innerStmts
  | _ => fail

/-- The loop of `resolve_list`, with `resolved`. -/
def resolveList : Bool → List Stmt → Visit Bool
  | resolved, [] => return resolved
  | _, stmt :: stmts => do
    let resolved ← resolve stmt
    if resolved then resolveList resolved stmts else return resolved

/-- `class_foreach_method` for each method of a class. -/
def resolveMethods : List Stmt → Visit Unit
  | [] => return
  | .funStmt args name body :: methods => do
    let type := if name.lexeme = "init".toList.map ascii then .ctor else .method
    let _ ← resolveFun type args (resolveBody body)
    resolveMethods methods
  | _ :: _ => fail

end

end Reading.Clox.Resolve
