import Reading.Clox.Grammar

/-!
# The routines of the parser without their bounds

A larger bound changes no result of any routine, so a routine has one result or none and the bound disappears from what is said about it. `ruleOf` is the routine for a level of the grammar.
-/

namespace Reading.Clox.Parse

open Lib Lib.Attempt

/-! ### A larger bound -/

section Le

variable {e e' rule rule' : Rule Expr} {d d' s s' : Rule Stmt} {types : List TokenType} {type : TokenType} {n m : Nat}

theorem exists_add_one (h : n + 1 ≤ m) : ∃ k, m = k + 1 ∧ n ≤ k := ⟨m - 1, by omega, by omega⟩

theorem binaryLoop_le (h : Le rule rule') (hle : n ≤ m) (expr : Expr) :
    Le (binaryLoop rule types n expr) (binaryLoop rule' types m expr) := by
  induction n generalizing m expr with
  | zero => exact fail_le _
  | succ n ih =>
    obtain ⟨k, rfl, hk⟩ := exists_add_one hle
    rw [binaryLoop, binaryLoop]
    refine (Le.refl _).bind fun tkn => (Le.refl _).bind fun matched => Le.ite ?_ (Le.refl _)
    exact (Le.refl _).bind fun tknPrev => h.bind fun exprRight => ih hk _

theorem binaryProduction_le (h : Le rule rule') (hle : n ≤ m) : Le (binaryProduction n rule types) (binaryProduction m rule' types) :=
  h.bind fun expr => binaryLoop_le h hle expr

theorem primary_le (h : Le e e') : Le (primary e) (primary e') := by
  refine (Le.refl _).bind fun tkn => ?_
  cases tkn.type with
  | leftParen => exact (Le.refl _).bind fun _ => h.bind fun _ => Le.refl _
  | _ => exact Le.refl _

theorem argsLoop_le (h : Le e e') (hle : n ≤ m) (callee : Expr) (args : List Expr) (arg : Expr) :
    Le (argsLoop e callee n args arg) (argsLoop e' callee m args arg) := by
  induction n generalizing m args arg with
  | zero => exact fail_le _
  | succ n ih =>
    obtain ⟨k, rfl, hk⟩ := exists_add_one hle
    rw [argsLoop, argsLoop]
    refine (Le.refl _).bind fun _ => (Le.refl _).bind fun tkn => Le.ite (Le.refl _) ?_
    refine Le.bind (Le.ite (Le.refl _) h) fun arg => (Le.refl _).bind fun tkn => Le.ite (ih hk _ _) (Le.refl _)

theorem finishCall_le (h : Le e e') (hle : n ≤ m) (callee : Expr) : Le (finishCall n e callee) (finishCall m e' callee) :=
  (argsLoop_le h hle callee [] .null).bind fun _ => Le.refl _

theorem callLoop_le (h : Le e e') (hle : n ≤ m) (expr : Expr) : Le (callLoop e n expr) (callLoop e' m expr) := by
  induction n generalizing m expr with
  | zero => exact fail_le _
  | succ n ih =>
    obtain ⟨k, rfl, hk⟩ := exists_add_one hle
    rw [callLoop, callLoop]
    refine (Le.refl _).bind fun tkn => Le.ite ?_ (Le.ite ?_ (Le.refl _))
    · exact (finishCall_le h hk expr).bind fun expr => ih hk expr
    · exact (Le.refl _).bind fun expr => ih hk expr

theorem call_le (h : Le e e') (hle : n ≤ m) : Le (call n e) (call m e') :=
  (primary_le h).bind fun expr => callLoop_le h hle expr

theorem unary_le (h : Le e e') (hle : n ≤ m) : Le (unary e n) (unary e' m) := by
  induction n generalizing m with
  | zero => exact fail_le _
  | succ n ih =>
    obtain ⟨k, rfl, hk⟩ := exists_add_one hle
    rw [unary, unary]
    refine (Le.refl _).bind fun tkn => (Le.refl _).bind fun matched => Le.ite ?_ (call_le h hk)
    exact (Le.refl _).bind fun tknPrev => (ih hk).bind fun _ => Le.refl _

theorem equality_le (h : Le e e') (hle : n ≤ m) : Le (equality n e) (equality m e') :=
  binaryProduction_le (binaryProduction_le (binaryProduction_le (binaryProduction_le (unary_le h hle) hle) hle) hle) hle

theorem logicLoop_le (h : Le rule rule') (hle : n ≤ m) (tkn : Token) (expr : Expr) :
    Le (logicLoop rule type n tkn expr) (logicLoop rule' type m tkn expr) := by
  induction n generalizing m tkn expr with
  | zero => exact fail_le _
  | succ n ih =>
    obtain ⟨k, rfl, hk⟩ := exists_add_one hle
    rw [logicLoop, logicLoop]
    refine Le.ite ?_ (Le.refl _)
    exact (Le.refl _).bind fun _ => (Le.refl _).bind fun _ => (Le.refl _).bind fun _ => h.bind fun _ => ih hk _ _

theorem logic_le (h : Le rule rule') (hle : n ≤ m) : Le (logic n rule type) (logic m rule' type) :=
  h.bind fun expr => (Le.refl _).bind fun tkn => logicLoop_le h hle tkn expr

theorem logicAnd_le (h : Le e e') (hle : n ≤ m) : Le (logicAnd n e) (logicAnd m e') := logic_le (equality_le h hle) hle

theorem logicOr_le (h : Le e e') (hle : n ≤ m) : Le (logicOr n e) (logicOr m e') := logic_le (logicAnd_le h hle) hle

theorem assignment_ascending : Ascending assignment := by
  intro n
  induction n with
  | zero => exact fun m _ => fail_le _
  | succ n ih =>
    intro m hle
    obtain ⟨k, rfl, hk⟩ := exists_add_one hle
    rw [assignment, assignment]
    refine (logicOr_le (ih k hk) hk).bind fun expr => (Le.refl _).bind fun equals => Le.ite ?_ (Le.refl _)
    exact (Le.refl _).bind fun _ => (ih k hk).bind fun value => Le.refl _

theorem expression_ascending : Ascending expression := assignment_ascending

theorem synchronizeLoop_le (token : Token) (hle : n ≤ m) : Le (synchronizeLoop token n) (synchronizeLoop token m) := by
  induction n generalizing m with
  | zero => exact fail_le _
  | succ n ih =>
    obtain ⟨k, rfl, hk⟩ := exists_add_one hle
    rw [synchronizeLoop, synchronizeLoop]
    exact (Le.refl _).bind fun _ => Le.ite (Le.refl _) (Le.ite (Le.refl _) ((Le.refl _).bind fun _ => ih hk))

theorem synchronize_le (hle : n ≤ m) : Le (synchronize n) (synchronize m) :=
  (Le.refl _).bind fun _ => (Le.refl _).bind fun _ => Le.ite (Le.refl _)
    ((Le.refl _).bind fun token => Le.ite (Le.refl _) (synchronizeLoop_le token hle))

theorem clause_ascending (tkn : Token) (type : TokenType) : Ascending fun n => clause n tkn type :=
  fun n m hle => Le.ite (Le.refl _) (expression_ascending n m hle)

theorem initializer_ascending : Ascending initializer :=
  fun n m hle => (Le.refl _).bind fun _ => Le.ite ((Le.refl _).bind fun _ => expression_ascending n m hle) (Le.refl _)

theorem varDeclaration_ascending : Ascending varDeclaration := by
  intro n m hle
  refine (Le.refl _).bind fun identifierNode => ?_
  cases identifierNode with
  | none => exact Le.refl _
  | some name => exact (initializer_ascending n m hle).bind fun _ => Le.refl _

theorem expressionStatement_ascending : Ascending expressionStatement :=
  fun n m hle => (expression_ascending n m hle).bind fun _ => Le.refl _

theorem printStatement_ascending : Ascending printStatement :=
  fun n m hle => (expression_ascending n m hle).bind fun _ => Le.refl _

theorem untilBrace_le (h : Le s s') (hle : n ≤ m) (inner : List Stmt) : Le (untilBrace s n inner) (untilBrace s' m inner) := by
  induction n generalizing m inner with
  | zero => exact fail_le _
  | succ n ih =>
    obtain ⟨k, rfl, hk⟩ := exists_add_one hle
    rw [untilBrace, untilBrace]
    exact (Le.refl _).bind fun _ => Le.ite (h.bind fun stmt => ih hk _) (Le.refl _)

theorem blockStatements_le (h : Le d d') (hle : n ≤ m) : Le (blockStatements n d) (blockStatements m d') :=
  (untilBrace_le h hle []).bind fun _ => Le.refl _

theorem elseStatement_le (h : Le s s') : Le (elseStatement s) (elseStatement s') :=
  (Le.refl _).bind fun _ => Le.ite ((Le.refl _).bind fun _ => h) (Le.refl _)

theorem ifStatement_le (h : Le s s') (hle : n ≤ m) : Le (ifStatement n s) (ifStatement m s') :=
  (Le.refl _).bind fun _ => (expression_ascending n m hle).bind fun _ => (Le.refl _).bind fun _ =>
    h.bind fun _ => (elseStatement_le h).bind fun _ => Le.refl _

theorem forInitializer_ascending : Ascending forInitializer :=
  fun n m hle => (Le.refl _).bind fun _ => Le.ite (Le.refl _)
    (Le.ite ((Le.refl _).bind fun _ => varDeclaration_ascending n m hle) ((Le.refl _).bind fun _ => expressionStatement_ascending n m hle))

theorem forStatement_le (h : Le s s') (hle : n ≤ m) : Le (forStatement n s) (forStatement m s') :=
  (Le.refl _).bind fun _ => (forInitializer_ascending n m hle).bind fun _ => (Le.refl _).bind fun tkn =>
    (clause_ascending tkn _ n m hle).bind fun _ => (Le.refl _).bind fun _ =>
      (clause_ascending tkn _ n m hle).bind fun _ => (Le.refl _).bind fun _ => h.bind fun _ => Le.refl _

theorem whileStatement_le (h : Le s s') (hle : n ≤ m) : Le (whileStatement n s) (whileStatement m s') :=
  (Le.refl _).bind fun _ => (expression_ascending n m hle).bind fun _ => (Le.refl _).bind fun _ => h.bind fun _ => Le.refl _

theorem returnStatement_ascending : Ascending returnStatement :=
  fun n m hle => (Le.refl _).bind fun _ => (Le.refl _).bind fun tkn => (clause_ascending tkn _ n m hle).bind fun _ => Le.refl _

theorem paramsLoop_le (hle : n ≤ m) (params : List Token) (tkn : Token) : Le (paramsLoop n params tkn) (paramsLoop m params tkn) := by
  induction n generalizing m params tkn with
  | zero => exact fail_le _
  | succ n ih =>
    obtain ⟨k, rfl, hk⟩ := exists_add_one hle
    rw [paramsLoop, paramsLoop]
    refine (Le.refl _).bind fun _ => (Le.refl _).bind fun temp => ?_
    cases temp with
    | none => exact Le.refl _
    | some name => exact (Le.refl _).bind fun _ => (Le.refl _).bind fun _ => Le.ite (ih hk _ _) (Le.refl _)

theorem parameters_ascending : Ascending parameters :=
  fun _ _ hle => (Le.refl _).bind fun tkn => Le.ite (Le.refl _) (paramsLoop_le hle [] tkn)

theorem funStatement_le (h : Le d d') (hle : n ≤ m) (kind : String) : Le (funStatement n d kind) (funStatement m d' kind) := by
  refine (Le.refl _).bind fun temp => ?_
  cases temp with
  | none => exact Le.refl _
  | some name =>
    exact (Le.refl _).bind fun _ => (parameters_ascending n m hle).bind fun _ => (Le.refl _).bind fun _ =>
      (Le.refl _).bind fun _ => (blockStatements_le h hle).bind fun _ => Le.refl _

theorem classStatement_le (h : Le d d') (hle : n ≤ m) : Le (classStatement n d) (classStatement m d') := by
  refine (Le.refl _).bind fun classNameNode => ?_
  cases classNameNode with
  | none => exact Le.refl _
  | some name =>
    refine (Le.refl _).bind fun superClassExpr => ?_
    cases superClassExpr with
    | none => exact Le.refl _
    | some superClassExpr =>
      exact (Le.refl _).bind fun _ => (untilBrace_le (funStatement_le h hle _) hle []).bind fun _ => Le.refl _

theorem behind_le {α : Type} {r r' : Rule α} (h : Le r r') : Le (behind r) (behind r') := (Le.refl _).bind fun _ => h

theorem statement_le (h : Le d d') (hle : n ≤ m) : Le (statement d n) (statement d' m) := by
  induction n generalizing m with
  | zero => exact fail_le _
  | succ n ih =>
    obtain ⟨k, rfl, hk⟩ := exists_add_one hle
    rw [statement, statement]
    refine (Le.refl _).bind fun tkn => ?_
    cases tkn.type with
    | printKey => exact behind_le (printStatement_ascending n k hk)
    | leftBrace => exact behind_le (blockStatements_le h hk)
    | ifKey => exact behind_le (ifStatement_le (ih hk) hk)
    | forKey => exact behind_le (forStatement_le (ih hk) hk)
    | whileKey => exact behind_le (whileStatement_le (ih hk) hk)
    | returnKey => exact behind_le (returnStatement_ascending n k hk)
    | _ => exact expressionStatement_ascending n k hk

theorem recover_le (h : Le s s') (hle : n ≤ m) : Le (recover n s) (recover m s') :=
  h.bind fun _ => Le.ite ((synchronize_le hle).bind fun _ => Le.refl _) (Le.refl _)

theorem declaration_ascending : Ascending declaration := by
  intro n
  induction n with
  | zero => exact fun m _ => fail_le _
  | succ n ih =>
    intro m hle
    obtain ⟨k, rfl, hk⟩ := exists_add_one hle
    rw [declaration, declaration]
    refine (Le.refl _).bind fun tkn => ?_
    cases tkn.type with
    | classKey => exact behind_le (classStatement_le (ih k hk) hk)
    | funKey => exact behind_le (funStatement_le (ih k hk) hk _)
    | varKey => exact recover_le (behind_le (varDeclaration_ascending n k hk)) hk
    | _ => exact recover_le (statement_le (ih k hk) hk) hk

theorem parseLoop_le (hle : n ≤ m) (stmts : List Stmt) : Le (parseLoop n stmts) (parseLoop m stmts) := by
  induction n generalizing m stmts with
  | zero => exact fail_le _
  | succ n ih =>
    obtain ⟨k, rfl, hk⟩ := exists_add_one hle
    rw [parseLoop, parseLoop]
    refine (Le.refl _).bind fun _ => Le.ite (Le.refl _) ?_
    exact (declaration_ascending n k hk).bind fun _ => Le.ite (Le.refl _) (ih hk _)

end Le

/-! ### The routine for each level -/

def ruleOf : Level → Nat → Rule Expr
  | .arguments, _ => fail
  | .assignment, n => assignment n
  | .logic .or, n => logicOr n (assignment n)
  | .logic .and, n => logicAnd n (assignment n)
  | .binary .equality, n => equality n (assignment n)
  | .binary .comparison, n => comparison n (assignment n)
  | .binary .addition, n => addition n (assignment n)
  | .binary .multiplication, n => multiplication n (assignment n)
  | .unary, n => unary (assignment n) n
  | .call, n => call n (assignment n)
  | .primary, n => primary (assignment n)

theorem rule_binary (b : Binop) (n : Nat) : ruleOf (.binary b) n = binaryProduction n (ruleOf b.operand n) b.types := by
  cases b <;> rfl

theorem rule_logic (l : Logic) (n : Nat) : ruleOf (.logic l) n = logic n (ruleOf l.operand n) l.type := by
  cases l <;> rfl

theorem unary_ascending : Ascending (ruleOf .unary) := fun n m hle => unary_le (assignment_ascending n m hle) hle

theorem binary_ascending {b : Binop} (h : Ascending (ruleOf b.operand)) : Ascending (ruleOf (.binary b)) := by
  intro n m hle
  rw [rule_binary, rule_binary]
  exact binaryProduction_le (h n m hle) hle

theorem logic_ascending {l : Logic} (h : Ascending (ruleOf l.operand)) : Ascending (ruleOf (.logic l)) := by
  intro n m hle
  rw [rule_logic, rule_logic]
  exact logic_le (h n m hle) hle

theorem operand_ascending (b : Binop) : Ascending (ruleOf b.operand) := by
  have hmul : Ascending (ruleOf (.binary .multiplication)) := binary_ascending unary_ascending
  have hadd : Ascending (ruleOf (.binary .addition)) := binary_ascending hmul
  cases b with
  | multiplication => exact unary_ascending
  | addition => exact hmul
  | comparison => exact hadd
  | equality => exact binary_ascending hadd

theorem logicOperand_ascending (l : Logic) : Ascending (ruleOf l.operand) := by
  have heq : Ascending (ruleOf (.binary .equality)) := binary_ascending (operand_ascending .equality)
  cases l with
  | and => exact heq
  | or => exact logic_ascending heq

theorem primary_ascending : Ascending (ruleOf .primary) := fun n m hle => primary_le (assignment_ascending n m hle)

theorem or_ascending : Ascending (ruleOf (.logic .or)) := logic_ascending (logicOperand_ascending .or)

/-! ### Steps -/

section Steps

variable {before rest errors} {tkn u : Token}

@[simp] theorem here_cons : here ⟨before, tkn :: rest, errors⟩ = some (tkn, ⟨before, tkn :: rest, errors⟩) := rfl

@[simp] theorem advance_cons : advance ⟨before, tkn :: rest, errors⟩ = some ((), ⟨tkn :: before, rest, errors⟩) := rfl

@[simp] theorem previous_cons : previous ⟨tkn :: before, u :: rest, errors⟩ = some (tkn, ⟨tkn :: before, u :: rest, errors⟩) := rfl

theorem previous_append {tokens : List Token} :
    previous ⟨tkn :: before, tokens ++ u :: rest, errors⟩ = some (tkn, ⟨tkn :: before, tokens ++ u :: rest, errors⟩) := by
  cases tokens <;> rfl

theorem matchType_pos {types : List TokenType} (h : tkn.type ∈ types) :
    matchType tkn.type types ⟨before, tkn :: rest, errors⟩ = some (true, ⟨tkn :: before, rest, errors⟩) := by
  rw [matchType, if_pos h]
  rfl

theorem matchType_neg {c : Cursor} {types : List TokenType} (h : tkn.type ∉ types) : matchType tkn.type types c = some (false, c) := by
  rw [matchType, if_neg h]
  rfl

theorem consume_pos {type : TokenType} (h : tkn.type = type) (msg : String) :
    consume type msg ⟨before, tkn :: u :: rest, errors⟩ = some (some tkn, ⟨tkn :: before, u :: rest, errors⟩) := by
  rw [consume, bind_of_eq here_cons, if_pos h]
  rfl

theorem consume_append {type : TokenType} {tokens : List Token} (h : tkn.type = type) (msg : String) :
    consume type msg ⟨before, tkn :: (tokens ++ u :: rest), errors⟩ = some (some tkn, ⟨tkn :: before, tokens ++ u :: rest, errors⟩) := by
  cases tokens with
  | nil => exact consume_pos h msg
  | cons t ts => exact consume_pos h msg

end Steps

end Reading.Clox.Parse
