import Reading.Clox.Resolve

/-!
# What the resolver reports

The static errors of a statement without classes are said of its tree: a local scope is entered with the names that are declared in it so far. The resolver does not report all of them, and it fails at a body or a block that is empty.
-/

namespace Reading.Clox.Parse

/-! ### Trees without classes -/

mutual

/-- Nothing is missing in the expression, and it is not about a class. -/
def Expr.classFree : Expr → Bool
  | .null | .this _ | .super _ _ => false
  | .literal _ | .var _ => true
  | .unary _ expr | .grouping expr | .get expr _ | .assignment _ expr => expr.classFree
  | .binary _ left right | .logical left _ right | .set left _ right => left.classFree && right.classFree
  | .call callee _ args => callee.classFree && allClassFree args

def allClassFree : List Expr → Bool
  | [] => true
  | expr :: exprs => expr.classFree && allClassFree exprs

end

def Stmt.isBlock : Stmt → Bool
  | .block _ => true
  | _ => false

mutual

/-- The same of a statement, which may lack an initializer, an `else` or what it returns. -/
def Stmt.classFree : Stmt → Bool
  | .null | .classStmt _ _ _ => false
  | .print expr | .expr expr => expr.classFree
  | .varDeclaration initializer _ => initializer.isNull || initializer.classFree
  | .block inner => stmtsClassFree inner
  | .ifElse condition thenStmt elseStmt =>
    condition.classFree && thenStmt.classFree && (elseStmt.isNull || elseStmt.classFree)
  | .whileStmt condition body => condition.classFree && body.classFree
  | .funStmt _ _ body => body.isBlock && body.classFree
  | .returnStmt _ value => value.isNull || value.classFree

def stmtsClassFree : List Stmt → Bool
  | [] => true
  | stmt :: stmts => stmt.classFree && stmtsClassFree stmts

end

mutual

/-- The names of the variables that the expression reads. -/
def Expr.reads : Expr → List Chars
  | .null | .literal _ | .this _ | .super _ _ => []
  | .var name => [name.lexeme]
  | .unary _ expr | .grouping expr | .get expr _ | .assignment _ expr => expr.reads
  | .binary _ left right | .logical left _ right | .set left _ right => left.reads ++ right.reads
  | .call callee _ args => callee.reads ++ readsOfAll args

def readsOfAll : List Expr → List Chars
  | [] => []
  | expr :: exprs => expr.reads ++ readsOfAll exprs

end

/-- The same without what is read in an argument of a call. -/
def Expr.readsPlainly : Expr → List Chars
  | .null | .literal _ | .this _ | .super _ _ => []
  | .var name => [name.lexeme]
  | .unary _ expr | .grouping expr | .get expr _ | .assignment _ expr | .call expr _ _ => expr.readsPlainly
  | .binary _ left right | .logical left _ right | .set left _ right => left.readsPlainly ++ right.readsPlainly

theorem Expr.readsPlainly_subset : (expr : Expr) → expr.readsPlainly ⊆ expr.reads
  | .null | .literal _ | .this _ | .super _ _ | .var _ => List.Subset.refl _
  | .unary _ expr | .grouping expr | .get expr _ | .assignment _ expr => expr.readsPlainly_subset
  | .binary _ left right | .logical left _ right | .set left _ right =>
    List.append_subset.mpr ⟨List.subset_append_of_subset_left _ left.readsPlainly_subset,
      List.subset_append_of_subset_right _ right.readsPlainly_subset⟩
  | .call callee _ _ => List.subset_append_of_subset_left _ callee.readsPlainly_subset

/-! ### Static errors -/

/-- Where a statement stands: the names that the innermost local scope has so far, if there is one, and whether a function is around it. -/
structure Context where
  scope : Option (List Chars)
  inFunction : Bool

namespace Context

/-- Outside of all blocks and functions. -/
def top : Context := ⟨none, false⟩

def names (ctx : Context) : List Chars := ctx.scope.getD []

def declare (ctx : Context) (names : List Chars) : Context := { ctx with scope := ctx.scope.map (· ++ names) }

def block (ctx : Context) : Context := { ctx with scope := some [] }

def function (args : List Token) : Context := ⟨some (args.map Token.lexeme), true⟩

end Context

/-- The names that a statement declares in the scope that it stands in. -/
def Stmt.declares : Stmt → List Chars
  | .varDeclaration _ name | .funStmt _ name _ | .classStmt name _ _ => [name.lexeme]
  | .ifElse _ thenStmt elseStmt => thenStmt.declares ++ elseStmt.declares
  | .whileStmt _ body => body.declares
  | .null | .print _ | .block _ | .expr _ | .returnStmt _ _ => []

mutual

/-- The statement and those inside of it, each with where it stands. -/
def Stmt.places (ctx : Context) : Stmt → List (Context × Stmt)
  | .block inner => (ctx, .block inner) :: placesIn ctx.block inner
  | .ifElse condition thenStmt elseStmt =>
    (ctx, .ifElse condition thenStmt elseStmt) :: (thenStmt.places ctx ++ elseStmt.places (ctx.declare thenStmt.declares))
  | .whileStmt condition body => (ctx, .whileStmt condition body) :: body.places ctx
  | .funStmt args name body => (ctx, .funStmt args name body) :: body.placesInside (.function args)
  | stmt => [(ctx, stmt)]

/-- The same of what is inside of a body. -/
def Stmt.placesInside (ctx : Context) : Stmt → List (Context × Stmt)
  | .block inner => placesIn ctx inner
  | _ => []

def placesIn (ctx : Context) : List Stmt → List (Context × Stmt)
  | [] => []
  | stmt :: stmts => stmt.places ctx ++ placesIn (ctx.declare stmt.declares) stmts

end

/-- One of the places has the property. -/
def Somewhere (P : Context → Stmt → Prop) (places : List (Context × Stmt)) : Prop := ∃ place ∈ places, P place.1 place.2

section Somewhere

variable {P Q : Context → Stmt → Prop} {ctx : Context} {stmt : Stmt} {places places' : List (Context × Stmt)}

@[simp] theorem somewhere_nil : ¬ Somewhere P [] := nofun

@[simp] theorem somewhere_cons : Somewhere P ((ctx, stmt) :: places) ↔ P ctx stmt ∨ Somewhere P places := by
  simp [Somewhere]

@[simp] theorem somewhere_append : Somewhere P (places ++ places') ↔ Somewhere P places ∨ Somewhere P places' := by
  simp only [Somewhere, List.mem_append, or_and_right, exists_or]

theorem somewhere_or : Somewhere (fun ctx stmt => P ctx stmt ∨ Q ctx stmt) places ↔ Somewhere P places ∨ Somewhere Q places := by
  simp only [Somewhere, and_or_left, exists_or]

theorem Somewhere.imp (h : Somewhere P places) (hPQ : ∀ ctx stmt, P ctx stmt → Q ctx stmt) : Somewhere Q places := by
  obtain ⟨place, hmem, hplace⟩ := h
  exact ⟨place, hmem, hPQ _ _ hplace⟩

end Somewhere

/-- It declares a name that its local scope has, or two parameters of one name. -/
def Stmt.DeclaresTwice (ctx : Context) : Stmt → Prop
  | .varDeclaration _ name => name.lexeme ∈ ctx.names
  | .funStmt args name _ => name.lexeme ∈ ctx.names ∨ ¬ (args.map Token.lexeme).Nodup
  | _ => False

/-- It reads the local that it declares. -/
def Stmt.ReadsItself (ctx : Context) : Stmt → Prop
  | .varDeclaration initializer name => ctx.scope.isSome ∧ name.lexeme ∈ initializer.reads
  | _ => False

def Stmt.ReturnsOutside (ctx : Context) : Stmt → Prop
  | .returnStmt _ _ => ctx.inFunction = false
  | _ => False

def Stmt.Wrong (ctx : Context) (stmt : Stmt) : Prop :=
  stmt.DeclaresTwice ctx ∨ stmt.ReadsItself ctx ∨ stmt.ReturnsOutside ctx

/-- A static error of a statement that stands outside of all others. -/
def Stmt.StaticError (stmt : Stmt) : Prop := Somewhere (fun ctx stmt => stmt.Wrong ctx) (stmt.places .top)

/-- A block or a body without a statement. -/
def Stmt.IsEmpty : Stmt → Prop
  | .block inner => inner = []
  | .funStmt _ _ (.block inner) => inner = []
  | _ => False

/-- It reads the local that it declares, which is new in its scope, and not only in arguments of calls. -/
def Stmt.ReadsItselfPlainly (ctx : Context) : Stmt → Prop
  | .varDeclaration initializer name => ctx.scope.isSome ∧ name.lexeme ∉ ctx.names ∧ name.lexeme ∈ initializer.readsPlainly
  | _ => False

def Stmt.HasEmpty (stmt : Stmt) : Prop := Somewhere (fun _ stmt => stmt.IsEmpty) (stmt.places .top)

def Stmt.HasPlainRead (stmt : Stmt) : Prop := Somewhere (fun ctx stmt => stmt.ReadsItselfPlainly ctx) (stmt.places .top)

theorem Stmt.HasPlainRead.staticError {stmt : Stmt} (h : stmt.HasPlainRead) : stmt.StaticError := by
  refine h.imp fun ctx stmt hplain => .inr (.inl ?_)
  cases stmt with
  | varDeclaration initializer name => exact ⟨hplain.1, initializer.readsPlainly_subset hplain.2.2⟩
  | _ => exact hplain.elim

end Reading.Clox.Parse

namespace Reading.Clox.Resolve

open Lib Lib.Attempt Parse

/-! ### What a visit keeps -/

/-- The scopes and the function are as before. -/
structure Same (r r' : Resolver) : Prop where
  scopes : r'.scopes = r.scopes
  functionType : r'.functionType = r.functionType

theorem Same.refl (r : Resolver) : Same r r := ⟨rfl, rfl⟩

theorem Same.trans {r r' r'' : Resolver} (h : Same r r') (h' : Same r' r'') : Same r r'' :=
  ⟨h'.scopes.trans h.scopes, h'.functionType.trans h.functionType⟩

/-- The innermost scope may have another content. -/
structure Kept (r r' : Resolver) : Prop where
  outer : r'.scopes.tail = r.scopes.tail
  count : r'.scopes.length = r.scopes.length
  functionType : r'.functionType = r.functionType

theorem Same.kept {r r' : Resolver} (h : Same r r') : Kept r r' :=
  ⟨congrArg List.tail h.scopes, congrArg List.length h.scopes, h.functionType⟩

theorem Kept.refl (r : Resolver) : Kept r r := (Same.refl r).kept

theorem Kept.trans {r r' r'' : Resolver} (h : Kept r r') (h' : Kept r' r'') : Kept r r'' :=
  ⟨h'.outer.trans h.outer, h'.count.trans h.count, h'.functionType.trans h.functionType⟩

/-! ### Expressions -/

/-- The innermost scope has the name, and not its value yet. -/
def Pending (scopes : List Scope) (name : Chars) : Prop := scopes.head?.bind (·.lookup name) = some false

def Initialized (scopes : List Scope) (expr : Expr) : Prop := ∀ name ∈ expr.readsPlainly, ¬ Pending scopes name

/-- The visit returns, it succeeds exactly if `p` holds, and keeps all scopes. -/
def Visits (a : Visit Bool) (r : Resolver) (p : Prop) : Prop := Returns a r fun ok r' => Same r r' ∧ (ok = true ↔ p)

section Visits

variable {a b : Visit Bool} {r : Resolver} {p q : Prop}

theorem Visits.congr (h : Visits a r p) (hpq : p ↔ q) : Visits a r q := h.imp fun _ _ hout => ⟨hout.1, hout.2.trans hpq⟩

theorem visits_both (ha : Visits a r p) (hb : ∀ r', Same r r' → Visits b r' q) : Visits (both a b) r (p ∧ q) := by
  refine Returns.bind ha fun ok r' ⟨hsame, hok⟩ => ?_
  cases ok with
  | false => exact returns_pure ⟨hsame, iff_of_false nofun fun hall => nomatch hok.mpr hall.1⟩
  | true =>
    refine (hb r' hsame).imp fun ok' r'' ⟨hsame', hok'⟩ => ⟨hsame.trans hsame', ?_⟩
    rw [hok', and_iff_right (hok.mp rfl)]

theorem visits_resolveLocal (name : Token) : Visits (resolveLocal name) r True := .of_eq rfl ⟨⟨rfl, rfl⟩, iff_of_true rfl trivial⟩

theorem visits_visitVarExpr (name : Token) : Visits (visitVarExpr name) r (¬ Pending r.scopes name.lexeme) := by
  by_cases hpending : Pending r.scopes name.lexeme
  · exact .of_eq (if_pos hpending) ⟨⟨rfl, rfl⟩, iff_of_false nofun fun hnot => hnot hpending⟩
  · exact .of_eq (if_neg hpending) ⟨⟨rfl, rfl⟩, iff_of_true rfl hpending⟩

end Visits

/-- Two expressions are resolved one after the other. -/
theorem visits_two {left right : Expr} (h : (left.classFree && right.classFree) = true) (r : Resolver)
    (hleft : left.classFree = true → ∀ r, Visits (resolveExpr left) r (Initialized r.scopes left))
    (hright : right.classFree = true → ∀ r, Visits (resolveExpr right) r (Initialized r.scopes right)) :
    Visits (both (resolveExpr left) (resolveExpr right)) r
      (∀ name ∈ left.readsPlainly ++ right.readsPlainly, ¬ Pending r.scopes name) := by
  have hboth := Bool.and_eq_true_iff.mp h
  refine (visits_both (hleft hboth.1 r) fun r' hsame => ?_).congr List.forall_mem_append.symm
  rw [← hsame.scopes]
  exact hright hboth.2 r'

mutual

theorem visits_resolveExpr : (expr : Expr) → expr.classFree = true → ∀ r, Visits (resolveExpr expr) r (Initialized r.scopes expr)
  | .literal _, _, r => .of_eq rfl ⟨.refl r, iff_of_true rfl nofun⟩
  | .var name, _, r => (visits_visitVarExpr name).congr (by rw [Initialized, Expr.readsPlainly, List.forall_mem_singleton])
  | .unary _ expr, h, r | .grouping expr, h, r | .get expr _, h, r => visits_resolveExpr expr h r
  | .assignment name right, h, r =>
    (visits_both (visits_resolveExpr right h r) fun _ _ => visits_resolveLocal name).congr (and_iff_left trivial)
  | .binary _ left right, h, r | .logical left _ right, h, r | .set left _ right, h, r =>
    visits_two h r (visits_resolveExpr left) (visits_resolveExpr right)
  | .call callee _ args, h, r => by
    have hboth := Bool.and_eq_true_iff.mp h
    refine Returns.bind (visits_resolveExpr callee hboth.1 r) fun ok r' ⟨hsame, hok⟩ => ?_
    cases ok with
    | false => exact returns_pure ⟨hsame, hok⟩
    | true =>
      refine (resolveArgs_returns args hboth.2 1 Nat.one_pos r').bind fun resolved r'' ⟨hsame', hpos⟩ => ?_
      exact returns_pure ⟨hsame.trans hsame', iff_of_true (decide_eq_true hpos.ne') (hok.mp rfl)⟩

/-- No argument makes the call fail. -/
theorem resolveArgs_returns : (args : List Expr) → allClassFree args = true → ∀ resolved, 0 < resolved → ∀ r,
    Returns (resolveArgs resolved args) r fun resolved' r' => Same r r' ∧ 0 < resolved'
  | [], _, _, hpos, r => returns_pure ⟨.refl r, hpos⟩
  | arg :: args, h, resolved, hpos, r => by
    have hboth := Bool.and_eq_true_iff.mp h
    refine Returns.bind (visits_resolveExpr arg hboth.1 r) fun ok r' ⟨hsame, _⟩ => ?_
    have hpos' : 0 < resolved + ok.toNat := Nat.add_pos_left hpos _
    simp only [if_neg hpos'.ne']
    exact (resolveArgs_returns args hboth.2 _ hpos' r').imp fun resolved' r'' ⟨hsame', hle⟩ => ⟨hsame.trans hsame', hle⟩

end

/-! ### Scopes -/

/-- The innermost scope has these names, and all of them their values. -/
inductive Settled : Option (List Chars) → List Scope → Prop
  | outside : Settled none []
  | inside {names : List Chars} {scope : Scope} {outer : List Scope}
      (lookup : ∀ name, scope.lookup name = if name ∈ names then some true else none) : Settled (some names) (scope :: outer)

/-- The same after one more name was declared, and not defined yet. -/
inductive Opened (last : Chars) : Option (List Chars) → List Scope → Prop
  | outside : Opened last none []
  | inside {names : List Chars} {scope : Scope} {outer : List Scope}
      (lookup : ∀ name, scope.lookup name = if name ∈ names then some true else if name = last then some false else none) :
      Opened last (some names) (scope :: outer)

section Scopes

variable {names : Option (List Chars)} {r : Resolver} {name : Token}

theorem declare_returns (h : Settled names r.scopes) :
    Returns (declare name) r fun _ r' => Kept r r' ∧ Opened name.lexeme names r'.scopes := by
  obtain ⟨scopes, type, kind, errors, orders⟩ := r
  cases h with
  | outside => exact .of_eq rfl ⟨.refl _, .outside⟩
  | @inside names scope outer hlookup =>
    by_cases hmem : name.lexeme ∈ scope
    · refine .of_eq (if_pos hmem) ⟨⟨rfl, rfl, rfl⟩, .inside fun other => ?_⟩
      rw [hlookup]
      have hin : name.lexeme ∈ names := by
        by_contra hout
        rw [← Finmap.lookup_isSome, hlookup, if_neg hout] at hmem
        cases hmem
      split
      · rfl
      · rename_i hout
        exact (if_neg fun heq : other = name.lexeme => hout (heq ▸ hin)).symm
    · refine .of_eq (if_neg hmem) ⟨⟨rfl, rfl, rfl⟩, .inside fun other => ?_⟩
      have hout : name.lexeme ∉ names := by
        intro hin
        rw [← Finmap.lookup_isSome, hlookup, if_pos hin] at hmem
        exact hmem rfl
      by_cases heq : other = name.lexeme
      · rw [heq, Finmap.lookup_insert, if_neg hout, if_pos rfl]
      · rw [Finmap.lookup_insert_of_ne _ heq, hlookup, if_neg heq]

theorem define_returns (h : Opened name.lexeme names r.scopes) :
    Returns (define name) r fun _ r' => Kept r r' ∧ Settled (names.map (· ++ [name.lexeme])) r'.scopes := by
  obtain ⟨scopes, type, kind, errors, orders⟩ := r
  cases h with
  | outside => exact .of_eq rfl ⟨.refl _, .outside⟩
  | @inside names scope outer hlookup =>
    obtain ⟨value, hvalue⟩ : ∃ value, scope.lookup name.lexeme = some value := by
      rw [hlookup, if_pos rfl]
      split
      · exact ⟨_, rfl⟩
      · exact ⟨_, rfl⟩
    have hdefine : define name ⟨scope :: outer, type, kind, errors, orders⟩ =
        some (true, ⟨scope.insert name.lexeme true :: outer, type, kind, errors, orders⟩) := by
      simp only [define, hvalue]
      rfl
    refine .of_eq hdefine ⟨⟨rfl, rfl, rfl⟩, .inside fun other => ?_⟩
    by_cases heq : other = name.lexeme
    · rw [heq, Finmap.lookup_insert, if_pos (List.mem_append_right _ List.mem_cons_self)]
    · have hiff : other ∈ names ++ [name.lexeme] ↔ other ∈ names := by
        rw [List.mem_append, List.mem_singleton, or_iff_left heq]
      rw [Finmap.lookup_insert_of_ne _ heq, hlookup, if_neg heq]
      simp only [hiff]

/-- Only the name that is not defined yet is pending. -/
theorem Opened.pending {last : Chars} {scopes : List Scope} (h : Opened last names scopes) (other : Chars) :
    Pending scopes other ↔ names.isSome ∧ last ∉ names.getD [] ∧ other = last := by
  cases h with
  | outside => exact iff_of_false nofun nofun
  | @inside names scope outer hlookup =>
    change scope.lookup other = some false ↔ _ ∧ last ∉ names ∧ _
    rw [hlookup, Option.isSome_some, eq_self, true_and]
    constructor
    · intro heq
      split at heq
      · cases heq
      · split at heq
        case isTrue hout hother => exact ⟨hother ▸ hout, hother⟩
        case isFalse => cases heq
    · rintro ⟨hout, rfl⟩
      rw [if_neg hout, if_pos rfl]

theorem Settled.pending {scopes : List Scope} (h : Settled names scopes) (name : Chars) : ¬ Pending scopes name := by
  cases h with
  | outside => exact nofun
  | @inside names scope outer hlookup =>
    change ¬ scope.lookup name = some false
    rw [hlookup]
    split
    · exact nofun
    · exact nofun

theorem funArgs_returns (args : List Token) (names : Option (List Chars)) (r : Resolver) (h : Settled names r.scopes) :
    Returns (funArgs args) r fun _ r' => Kept r r' ∧ Settled (names.map (· ++ args.map Token.lexeme)) r'.scopes := by
  induction args generalizing names r with
  | nil =>
    refine returns_pure ⟨.refl r, ?_⟩
    cases names with
    | none => exact h
    | some names => simpa using h
  | cons name args ih =>
    refine (declare_returns h).bind fun _ r' ⟨hkept, hopened⟩ => ?_
    refine (define_returns hopened).bind fun _ r'' ⟨hkept', hsettled⟩ => ?_
    refine (ih _ r'' hsettled).imp fun _ r''' ⟨hkept'', hsettled'⟩ => ⟨(hkept.trans hkept').trans hkept'', ?_⟩
    rw [Option.map_map] at hsettled'
    simpa [Function.comp_def] using hsettled'

end Scopes

/-! ### Statements -/

/-- Where a visit fails. -/
def Flaw (ctx : Context) (stmt : Stmt) : Prop := stmt.IsEmpty ∨ stmt.ReadsItselfPlainly ctx

structure Stands (ctx : Context) (r : Resolver) : Prop where
  settled : Settled ctx.scope r.scopes
  notCtor : r.functionType ≠ .ctor

theorem Stands.same {ctx : Context} {r r' : Resolver} (h : Stands ctx r) (hsame : Same r r') : Stands ctx r' :=
  ⟨hsame.scopes.symm ▸ h.settled, hsame.functionType.symm ▸ h.notCtor⟩

/-- The visit returns, it succeeds exactly if `p` holds, and then the resolver stands where the next statement does. -/
def Walks (a : Visit Bool) (next : Context) (r : Resolver) (p : Prop) : Prop :=
  Returns a r fun ok r' => Kept r r' ∧ (ok = true ↔ p) ∧ (p → Stands next r')

section Walks

variable {ctx next : Context} {a b : Visit Bool} {r : Resolver} {p q : Prop} {names : List Chars}

@[simp] theorem declare_nil (ctx : Context) : ctx.declare [] = ctx := by
  obtain ⟨scope, inFunction⟩ := ctx
  cases scope with
  | none => rfl
  | some names => simp [Context.declare]

theorem declare_declare (names names' : List Chars) : (ctx.declare names).declare names' = ctx.declare (names ++ names') := by
  simp [Context.declare, Function.comp_def]

theorem Walks.congr (h : Walks a next r p) (hpq : p ↔ q) : Walks a next r q :=
  h.imp fun _ _ ⟨hkept, hok, hnext⟩ => ⟨hkept, hok.trans hpq, fun hq => hnext (hpq.mpr hq)⟩

theorem Visits.walks (h : Visits a r p) (hr : Stands ctx r) : Walks a ctx r p :=
  h.imp fun _ _ ⟨hsame, hok⟩ => ⟨hsame.kept, hok, fun _ => hr.same hsame⟩

/-- In a scope without a pending name an expression is resolved. -/
theorem visits_expr (hr : Stands ctx r) {expr : Expr} (h : expr.classFree = true) : Visits (resolveExpr expr) r True :=
  (visits_resolveExpr expr h r).congr (iff_of_true (fun _ _ => hr.settled.pending _) trivial)

theorem scopeEnd_returns {scopes : List Scope} (htail : r.scopes.tail = scopes) (hcount : r.scopes.length = scopes.length + 1) :
    Returns scopeEnd r fun _ r' => r'.scopes = scopes ∧ r'.functionType = r.functionType := by
  obtain ⟨scopes', type, kind, errors, orders⟩ := r
  cases scopes' with
  | nil => cases hcount
  | cons scope scopes' => exact .of_eq rfl ⟨htail, rfl⟩

theorem settled_empty (scopes : List Scope) : Settled (some []) (∅ :: scopes) := .inside fun _ => rfl

/-- A function is resolved as its body is, in the scope of its parameters. -/
theorem visits_resolveFun {type : FunctionType} (args : List Token) (htype : type ≠ .ctor)
    (hbody : ∀ r', Stands (.function args) r' → Returns a r' fun ok r'' => Kept r' r'' ∧ (ok = true ↔ p)) :
    Visits (resolveFun type args a) r p := by
  refine .after rfl (.after rfl (.after rfl ?_))
  refine (funArgs_returns args _ _ (settled_empty r.scopes)).bind fun _ r₁ ⟨hkept₁, hsettled⟩ => ?_
  refine (hbody r₁ ⟨hsettled, hkept₁.functionType.symm ▸ htype⟩).bind fun ok r₂ ⟨hkept₂, hok⟩ => ?_
  have hkept := hkept₁.trans hkept₂
  refine (scopeEnd_returns hkept.outer hkept.count).bind fun _ r₃ ⟨hscopes, _⟩ => ?_
  exact .of_eq rfl ⟨⟨hscopes, rfl⟩, hok⟩

theorem walks_both (ha : Visits a r True) (hb : ∀ r', Same r r' → Walks b next r' p) : Walks (both a b) next r p := by
  refine Returns.bind ha fun ok r' ⟨hsame, hok⟩ => ?_
  obtain rfl := hok.mpr trivial
  exact (hb r' hsame).imp fun ok' r'' ⟨hkept, hout⟩ => ⟨hsame.kept.trans hkept, hout⟩

end Walks

mutual

theorem walks_resolve : (stmt : Stmt) → stmt.classFree = true → ∀ ctx r, Stands ctx r →
    Walks (resolve stmt) (ctx.declare stmt.declares) r (¬ Somewhere Flaw (stmt.places ctx))
  | .print expr, h, ctx, r, hr | .expr expr, h, ctx, r, hr => by
    rw [Stmt.declares, declare_nil]
    exact ((visits_expr hr h).walks hr).congr (by simp [Stmt.places, Flaw, Stmt.IsEmpty, Stmt.ReadsItselfPlainly])
  | .varDeclaration initializer name, h, ctx, r, hr => by
    refine (declare_returns hr.settled).bind fun _ r₁ ⟨hkept₁, hopened⟩ => ?_
    have hinit : Visits (if initializer.isNull then pure true else resolveExpr initializer) r₁
        (¬ Somewhere Flaw [(ctx, .varDeclaration initializer name)]) := by
      cases hnull : initializer.isNull with
      | true =>
        cases initializer with
        | null => exact .of_eq rfl ⟨.refl _, iff_of_true rfl (by simp [Flaw, Stmt.IsEmpty, Stmt.ReadsItselfPlainly, Expr.readsPlainly])⟩
        | _ => cases hnull
      | false =>
        rw [Stmt.classFree, hnull, Bool.false_or] at h
        refine (visits_resolveExpr initializer h r₁).congr ?_
        simp only [Initialized, hopened.pending, somewhere_cons, somewhere_nil, or_false, Flaw, Stmt.IsEmpty, false_or,
          Stmt.ReadsItselfPlainly, Context.names]
        exact ⟨fun hall hflaw => hall _ hflaw.2.2 ⟨hflaw.1, hflaw.2.1, rfl⟩,
          fun hflaw other hother hpending => hflaw ⟨hpending.1, hpending.2.1, hpending.2.2 ▸ hother⟩⟩
    refine Returns.bind hinit fun ok r₂ ⟨hsame, hok⟩ => ?_
    have hkept₂ := hkept₁.trans hsame.kept
    cases ok with
    | false => exact returns_pure ⟨hkept₂, hok, fun hp => nomatch hok.mpr hp⟩
    | true =>
      rw [← hsame.scopes] at hopened
      refine (define_returns hopened).bind fun _ r₃ ⟨hkept₃, hsettled⟩ => ?_
      have hkept := hkept₂.trans hkept₃
      exact returns_pure ⟨hkept, hok, fun _ => ⟨hsettled, hkept.functionType.symm ▸ hr.notCtor⟩⟩
  | .block inner, h, ctx, r, hr => by
    rw [Stmt.declares, declare_nil]
    refine Visits.walks (.after rfl ?_) hr
    refine (resolveList_returns inner h ctx.block { r with scopes := ∅ :: r.scopes } ⟨settled_empty r.scopes, hr.notCtor⟩ false).bind fun ok r₁ ⟨hkept, hok⟩ => ?_
    refine (scopeEnd_returns hkept.outer hkept.count).bind fun _ r₂ ⟨hscopes, htype⟩ => ?_
    refine returns_pure ⟨⟨hscopes, htype.trans hkept.functionType⟩, hok.trans ?_⟩
    simp [Stmt.places, Flaw, Stmt.IsEmpty, Stmt.ReadsItselfPlainly]
  | .ifElse condition thenStmt elseStmt, h, ctx, r, hr => by
    obtain ⟨hboth, helse⟩ := Bool.and_eq_true_iff.mp h
    obtain ⟨hcondition, hthen⟩ := Bool.and_eq_true_iff.mp hboth
    rw [Stmt.declares, ← declare_declare]
    refine Returns.bind (walks_both (visits_expr hr hcondition) fun r' hsame => walks_resolve thenStmt hthen ctx r' (hr.same hsame)) ?_
    intro ok r₁ ⟨hkept, hok, hnext⟩
    have hplaces : Somewhere Flaw ((Stmt.ifElse condition thenStmt elseStmt).places ctx) ↔
        Somewhere Flaw (thenStmt.places ctx) ∨ Somewhere Flaw (elseStmt.places (ctx.declare thenStmt.declares)) := by
      simp [Stmt.places, Flaw, Stmt.IsEmpty, Stmt.ReadsItselfPlainly]
    rw [hplaces, not_or]
    cases ok with
    | false => exact returns_pure ⟨hkept, iff_of_false nofun fun hall => (nomatch hok.mpr hall.1), fun hall => nomatch hok.mpr hall.1⟩
    | true =>
      have hfirst := hok.mp rfl
      rw [and_iff_right hfirst]
      cases hnull : elseStmt.isNull with
      | true =>
        cases elseStmt with
        | null =>
          rw [Stmt.declares, declare_nil]
          exact returns_pure ⟨hkept, iff_of_true rfl (by simp [Stmt.places, Flaw, Stmt.IsEmpty, Stmt.ReadsItselfPlainly]), fun _ => hnext hfirst⟩
        | _ => cases hnull
      | false =>
        rw [hnull, Bool.false_or] at helse
        exact (walks_resolve elseStmt helse _ r₁ (hnext hfirst)).imp fun ok' r₂ ⟨hkept', hout⟩ => ⟨hkept.trans hkept', hout⟩
  | .whileStmt condition body, h, ctx, r, hr => by
    have hboth := Bool.and_eq_true_iff.mp h
    refine (walks_both (visits_expr hr hboth.1) fun r' hsame => walks_resolve body hboth.2 ctx r' (hr.same hsame)).congr ?_
    simp [Stmt.places, Flaw, Stmt.IsEmpty, Stmt.ReadsItselfPlainly]
  | .funStmt args name body, h, ctx, r, hr => by
    have hboth := Bool.and_eq_true_iff.mp h
    refine (declare_returns hr.settled).bind fun _ r₁ ⟨hkept₁, hopened⟩ => ?_
    refine (define_returns hopened).bind fun _ r₂ ⟨hkept₂, hsettled⟩ => ?_
    have hkept := hkept₁.trans hkept₂
    have hstands : Stands (ctx.declare [name.lexeme]) r₂ := ⟨hsettled, hkept.functionType.symm ▸ hr.notCtor⟩
    have hbody : Visits (resolveFun .function args (resolveBody body)) r₂
        (¬ body.IsEmpty ∧ ¬ Somewhere Flaw (body.placesInside (.function args))) :=
      visits_resolveFun args (by decide) (resolveBody_returns body hboth.1 hboth.2 (.function args))
    refine ((hbody.walks hstands).congr ?_).imp fun _ _ ⟨hkept', hout⟩ => ⟨hkept.trans hkept', hout⟩
    cases body with
    | block inner => simp [Stmt.places, Flaw, Stmt.IsEmpty, Stmt.ReadsItselfPlainly]
    | _ => cases hboth.1
  | .returnStmt keyword value, h, ctx, r, hr => by
    rw [Stmt.declares, declare_nil]
    refine Visits.walks (.after rfl ?_) hr
    simp only [if_neg hr.notCtor]
    cases hnull : value.isNull with
    | true => exact returns_pure ⟨.refl r, by simp [Stmt.places, Flaw, Stmt.IsEmpty, Stmt.ReadsItselfPlainly]⟩
    | false =>
      rw [Stmt.classFree, hnull, Bool.false_or] at h
      exact (visits_expr hr h).congr (by simp [Stmt.places, Flaw, Stmt.IsEmpty, Stmt.ReadsItselfPlainly])

theorem resolveBody_returns : (body : Stmt) → body.isBlock = true → body.classFree = true → ∀ ctx r, Stands ctx r →
    Returns (resolveBody body) r fun ok r' => Kept r r' ∧ (ok = true ↔ ¬ body.IsEmpty ∧ ¬ Somewhere Flaw (body.placesInside ctx))
  | .block inner, _, h, ctx, r, hr => (resolveList_returns inner h ctx r hr false).imp fun _ _ ⟨hkept, hok⟩ =>
    ⟨hkept, hok.trans (and_congr_left' (imp_congr_right fun _ => iff_of_false nofun id))⟩

theorem resolveList_returns : (stmts : List Stmt) → stmtsClassFree stmts = true → ∀ ctx r, Stands ctx r → ∀ resolved,
    Returns (resolveList resolved stmts) r fun ok r' =>
      Kept r r' ∧ (ok = true ↔ (stmts = [] → resolved = true) ∧ ¬ Somewhere Flaw (placesIn ctx stmts))
  | [], _, ctx, r, _, resolved => returns_pure ⟨.refl r, by simp [placesIn]⟩
  | stmt :: stmts, h, ctx, r, hr, _ => by
    have hboth := Bool.and_eq_true_iff.mp h
    refine Returns.bind (walks_resolve stmt hboth.1 ctx r hr) fun ok r' ⟨hkept, hok, hnext⟩ => ?_
    rw [placesIn, somewhere_append, not_or]
    cases ok with
    | false => exact returns_pure ⟨hkept, iff_of_false nofun fun hall => nomatch hok.mpr hall.2.1⟩
    | true =>
      have hfirst := hok.mp rfl
      refine (resolveList_returns stmts hboth.2 _ r' (hnext hfirst) true).imp fun ok' r'' ⟨hkept', hok'⟩ => ⟨hkept.trans hkept', ?_⟩
      rw [hok']
      exact ⟨fun hall => ⟨nofun, hfirst, hall.2⟩, fun hall => ⟨fun _ => rfl, hall.2.2⟩⟩

end

/-! ### The verdict -/

/-- The call succeeds exactly if the statement has no static error, and restores the scopes and the function. -/
def Reports (stmt : Stmt) (r : Resolver) : Prop :=
  Returns (resolve stmt) r fun ok r' => (ok = true ↔ ¬ stmt.StaticError) ∧ r'.scopes = r.scopes ∧ r'.functionType = r.functionType

/-- What the resolver goes by is not the static errors. -/
theorem resolve_returns {stmt : Stmt} (h : stmt.classFree = true) {r : Resolver} (hscopes : r.scopes = []) (htype : r.functionType = .none) :
    Returns (resolve stmt) r fun ok r' =>
      (ok = true ↔ ¬ (stmt.HasEmpty ∨ stmt.HasPlainRead)) ∧ r'.scopes = r.scopes ∧ r'.functionType = r.functionType := by
  have hr : Stands .top r := ⟨by rw [hscopes]; exact .outside, by rw [htype]; decide⟩
  refine Returns.imp (walks_resolve stmt h .top r hr) fun ok r' ⟨hkept, hok, _⟩ => ⟨?_, ?_, hkept.functionType⟩
  · rw [hok, Stmt.HasEmpty, Stmt.HasPlainRead, ← somewhere_or]
    rfl
  · have hcount := hkept.count
    rw [hscopes] at hcount ⊢
    exact List.length_eq_zero_iff.mp hcount

/-- The resolver reports the static errors exactly of the statements that have none, and no empty block or body, and of those that have one and also an empty block or body, or a read of a new local in its own initializer that is not an argument of a call. -/
theorem reports_iff (stmt : Stmt) (h : stmt.classFree = true) (r : Resolver) (hscopes : r.scopes = []) (htype : r.functionType = .none) :
    Reports stmt r ↔ ¬ stmt.StaticError ∧ ¬ stmt.HasEmpty ∨ stmt.HasPlainRead ∨ stmt.StaticError ∧ stmt.HasEmpty := by
  obtain ⟨ok, r', hrun, hok, hscopes', htype'⟩ := resolve_returns h hscopes htype
  have hreports : Reports stmt r ↔ (ok = true ↔ ¬ stmt.StaticError) := by
    constructor
    · rintro ⟨ok', r'', hrun', hok', -⟩
      obtain ⟨rfl, rfl⟩ := Prod.mk.inj (Option.some.inj (hrun.symm.trans hrun'))
      exact hok'
    · exact fun hok' => ⟨ok, r', hrun, hok', hscopes', htype'⟩
  rw [hreports, hok, not_iff_not]
  constructor
  · intro hiff
    by_cases hwrong : stmt.StaticError
    · rcases hiff.mpr hwrong with hempty | hplain
      · exact .inr (.inr ⟨hwrong, hempty⟩)
      · exact .inr (.inl hplain)
    · exact .inl ⟨hwrong, fun hempty => hwrong (hiff.mp (.inl hempty))⟩
  · rintro (⟨hright, hfull⟩ | hplain | ⟨hwrong, hempty⟩)
    · have hread : ¬ stmt.HasPlainRead := fun hplain => hright hplain.staticError
      exact iff_of_false (not_or_intro hfull hread) hright
    · exact iff_of_true (.inr hplain) hplain.staticError
    · exact iff_of_true (.inl hempty) hwrong

/-- `{ var a = a; }` -/
def ownRead : Stmt :=
  let name : Token := { type := .identifier, lexeme := [ascii 'a'] }
  .block [.varDeclaration (.var name) name]

theorem reports_ownRead : Reports ownRead {} := by
  refine (reports_iff ownRead rfl {} rfl rfl).mpr (.inr (.inl ?_))
  simp [ownRead, Stmt.HasPlainRead, Stmt.places, placesIn, Stmt.ReadsItselfPlainly, Context.block, Context.names, Expr.readsPlainly]

/-- `return;` -/
def topReturn : Stmt := .returnStmt { type := .returnKey } .null

/-- A return outside of all functions is not reported. -/
theorem not_reports_topReturn : ¬ Reports topReturn {} := by
  rintro ⟨ok, r', hrun, hok, -⟩
  cases hrun
  refine hok.mp rfl ?_
  simp [topReturn, Stmt.StaticError, Stmt.places, Stmt.Wrong, Stmt.ReturnsOutside, Context.top]

end Reading.Clox.Resolve
