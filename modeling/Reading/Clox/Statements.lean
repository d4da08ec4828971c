import Reading.Clox.Recognize

/-!
# What the parser reads of a statement

For each form of statement: with its first tokens from the cursor on and legible expressions in them, the routine does what the routine for its last part does, and what it returns is the statement around the result of that. The same for the declarations and for what they begin with.
-/

namespace Reading.Clox.Parse

open Lib Lib.Attempt

variable {before rest tokens : List Token} {errors : List (Token × String)} {tkn u : Token} {c : Cursor} {out : Stmt × Cursor}

/-- `statement` and `declaration` with one bound. -/
def statementRule (n : Nat) : Rule Stmt := statement (declaration n) n

theorem statement_eq (n : Nat) : statement (declaration n) n = statementRule n := rfl

theorem statementRule_ascending : Ascending statementRule := fun n m hle => statement_le (declaration_ascending n m hle) hle

theorem yields_statement : Yields (fun n => statement (declaration n) (n + 1)) c out ↔ Yields statementRule c out :=
  yields_diagonal (F := fun n m => statement (declaration n) m) fun n n' _ _ hn hm => statement_le (declaration_ascending n n' hn) hm

/-! ### Expressions in statements -/

section Expressions

variable {ts : List Token} {x : Expr}

/-- Behind an expression. -/
theorem yields_expression {α : Type} (he : Legible .assignment ts [x]) (hu : u.type ∉ Level.continues .assignment)
    {g : Expr → Nat → Rule α} (hg : ∀ x, Ascending (g x)) {out : α × Cursor} :
    Yields (fun n => expression n >>= (g · n)) ⟨before, ts ++ u :: rest, errors⟩ out ↔
      Yields (g x) ⟨ts.reverse ++ before, u :: rest, errors⟩ out :=
  yields_bind_iff expression_ascending hg (he.recognized u hu before rest errors)

theorem newTerminatedStatement_apply {stmt : Stmt} (h : tkn.type = .semicolon) :
    newTerminatedStatement stmt ⟨before, tkn :: u :: rest, errors⟩ = some (stmt, ⟨tkn :: before, u :: rest, errors⟩) := by
  rw [newTerminatedStatement, bind_of_eq (consume_pos h _)]
  rfl

theorem yields_terminated (he : Legible .assignment ts [x]) (semicolon : Tok .semicolon) (f : Expr → Stmt) :
    Yields (fun n => expression n >>= fun x => newTerminatedStatement (f x)) ⟨before, ts ++ semicolon.1 :: u :: rest, errors⟩ out ↔
      out = (f x, ⟨semicolon.1 :: (ts.reverse ++ before), u :: rest, errors⟩) := by
  rw [yields_expression he (by rw [semicolon.2]; decide) fun _ => ascending_const _, yields_const,
    newTerminatedStatement_apply semicolon.2]
  exact Option.some_inj.trans eq_comm

theorem yields_print (keyword : Tok .printKey) (he : Legible .assignment ts [x]) (semicolon : Tok .semicolon) :
    Yields statementRule ⟨before, keyword.1 :: (ts ++ semicolon.1 :: u :: rest), errors⟩ out ↔
      out = (.print x, ⟨semicolon.1 :: (ts.reverse ++ keyword.1 :: before), u :: rest, errors⟩) := by
  rw [← yields_statement]
  simp only [statement]
  rw [yields_step_iff here_cons]
  simp only [keyword.2, behind]
  rw [yields_step_iff advance_cons]
  exact yields_terminated he semicolon .print

/-- A statement that begins with an expression is an expression statement. -/
theorem yields_expressionStatement (h : tkn.type ∈ Level.starts .assignment) :
    Yields statementRule ⟨before, tkn :: rest, errors⟩ out ↔ Yields expressionStatement ⟨before, tkn :: rest, errors⟩ out := by
  rw [← yields_statement]
  simp only [statement]
  rw [yields_step_iff here_cons]
  simp only [Level.starts, List.mem_cons, List.not_mem_nil, or_false] at h
  rcases h with h | h | h | h | h | h | h | h | h | h | h <;> simp only [h]

end Expressions

/-! ### An expression that is not there -/

theorem lift_binary {b : Binop} {x : Expr} (h : Yields (ruleOf b.operand) c (x, ⟨before, u :: rest, errors⟩)) (hu : u.type ∉ b.types) :
    Yields (ruleOf (.binary b)) c (x, ⟨before, u :: rest, errors⟩) := by
  simp only [funext (rule_binary b)]
  refine (yields_bind (operand_ascending b) ?_).2 ⟨_, _, h, binaryLoop_stop (operand_ascending b) hu⟩
  exact fun x n m hle => binaryLoop_le (operand_ascending b n m hle) hle x

theorem lift_logic {l : Logic} {x : Expr} (h : Yields (ruleOf l.operand) c (x, ⟨before, u :: rest, errors⟩)) (hu : u.type ≠ l.type) :
    Yields (ruleOf (.logic l)) c (x, ⟨before, u :: rest, errors⟩) := by
  simp only [funext (rule_logic l), logic]
  refine (yields_bind_iff (logicOperand_ascending l) logicRule_ascending h).2 ?_
  rw [yields_step_iff here_cons]
  exact logicLoop_stop (logicOperand_ascending l) hu

/-- At the end of the clauses of a `for` there is no expression: the null pointer is returned and the cursor stays. -/
theorem yields_expression_none (h : u.type = .rightParen) :
    Yields expression ⟨before, u :: rest, errors⟩ (.null, ⟨before, u :: rest, errors ++ [(u, "Unresolved Identifier")]⟩) := by
  have hprimary : Yields (ruleOf .primary) ⟨before, u :: rest, errors⟩
      (.null, ⟨before, u :: rest, errors ++ [(u, "Unresolved Identifier")]⟩) := by
    change Yields (fun n => primary (assignment n)) _ _
    simp only [primary]
    rw [yields_step_iff here_cons]
    simp only [h]
    exact yields_const.2 rfl
  have hcall : Yields (ruleOf .call) ⟨before, u :: rest, errors⟩
      (.null, ⟨before, u :: rest, errors ++ [(u, "Unresolved Identifier")]⟩) :=
    (yields_bind primary_ascending callLoop_ascending).2 ⟨_, _, hprimary, callLoop_stop (by rw [h]; decide)⟩
  have hunary : Yields (ruleOf .unary) ⟨before, u :: rest, errors⟩
      (.null, ⟨before, u :: rest, errors ++ [(u, "Unresolved Identifier")]⟩) := by
    rw [← yields_unary]
    simp only [unary]
    rw [yields_step_iff here_cons, yields_step_iff (matchType_neg (by rw [h]; decide))]
    exact hcall
  have hmul := lift_binary (b := .multiplication) hunary (by rw [h]; decide)
  have hadd := lift_binary (b := .addition) hmul (by rw [h]; decide)
  have hcmp := lift_binary (b := .comparison) hadd (by rw [h]; decide)
  have heq := lift_binary (b := .equality) hcmp (by rw [h]; decide)
  have hor := lift_logic (l := .or) (lift_logic (l := .and) heq (by rw [h]; decide)) (by rw [h]; decide)
  refine (yields_assignment hor).2 ?_
  rw [yields_step_iff here_cons]
  simp only [h, reduceCtorEq, if_false]
  exact yields_const.2 rfl

/-! ### Clauses -/

/-- An expression that may be absent. -/
inductive LegibleClause : List Token → Expr → Prop
  | none : LegibleClause [] .null
  | some {ts x} (expr : Legible .assignment ts [x]) : LegibleClause ts x

section Clauses

variable {α : Type} {g : Expr → Nat → Rule α} {out' : α × Cursor} {ts : List Token} {x : Expr}

/-- The token that decides about a clause. -/
theorem LegibleClause.head (h : LegibleClause ts x) (u : Token) (rest : List Token) :
    ∃ t us, ts ++ u :: rest = t :: us ∧ (ts = [] ∧ t = u ∨ ts ≠ [] ∧ t.type ∈ Level.starts .assignment) := by
  cases h with
  | none => exact ⟨u, rest, rfl, .inl ⟨rfl, rfl⟩⟩
  | some h =>
    obtain ⟨t, us, rfl, ht⟩ := h.first
    exact ⟨t, us ++ u :: rest, rfl, .inr ⟨List.cons_ne_nil _ _, ht⟩⟩

/-- A clause that ends with a semicolon, with the token that decides about it. -/
theorem yields_clause (he : LegibleClause ts x) (semicolon : Tok .semicolon) {t : Token}
    (ht : ts = [] ∧ t = semicolon.1 ∨ ts ≠ [] ∧ t.type ∈ Level.starts .assignment) (hg : ∀ x, Ascending (g x)) :
    Yields (fun n => clause n t .semicolon >>= (g · n)) ⟨before, ts ++ semicolon.1 :: rest, errors⟩ out' ↔
      Yields (g x) ⟨ts.reverse ++ before, semicolon.1 :: rest, errors⟩ out' := by
  obtain ⟨rfl, rfl⟩ | ⟨hsome, ht⟩ := ht
  · cases he with
    | none =>
      simp only [clause, semicolon.2, if_true]
      exact yields_step_iff (pure_apply _ _)
    | some he =>
      obtain ⟨t, us, hnil, -⟩ := he.first
      cases hnil
  · cases he with
    | none => exact absurd rfl hsome
    | some he =>
      have hne : t.type ≠ .semicolon := by
        have hall : ∀ type ∈ Level.starts .assignment, type ≠ .semicolon := by decide
        exact hall _ ht
      simp only [clause, if_neg hne]
      exact yields_expression he (by rw [semicolon.2]; decide) hg

/-- The errors of a step that is not there. -/
def stepErrors (ts : List Token) (right : Token) : List (Token × String) :=
  if ts = [] then [(right, "Unresolved Identifier")] else []

/-- The last clause of a `for`, when the token that decides about it is not a parenthesis. -/
theorem yields_step (he : LegibleClause ts x) (right : Tok .rightParen) {t : Token} (ht : t.type ≠ .rightParen) (hg : ∀ x, Ascending (g x)) :
    Yields (fun n => clause n t .rightParen >>= (g · n)) ⟨before, ts ++ right.1 :: rest, errors⟩ out' ↔
      Yields (g x) ⟨ts.reverse ++ before, right.1 :: rest, errors ++ stepErrors ts right.1⟩ out' := by
  simp only [clause, if_neg ht]
  cases he with
  | none => exact yields_bind_iff expression_ascending hg (yields_expression_none right.2)
  | some he =>
    obtain ⟨t, us, rfl, -⟩ := he.first
    rw [stepErrors, if_neg (List.cons_ne_nil _ _), List.append_nil]
    exact yields_expression he (by rw [right.2]; decide) hg

theorem yields_return (keyword : Tok .returnKey) (he : LegibleClause ts x) (semicolon : Tok .semicolon) :
    Yields statementRule ⟨before, keyword.1 :: (ts ++ semicolon.1 :: u :: rest), errors⟩ out ↔
      out = (.returnStmt keyword.1 x, ⟨semicolon.1 :: (ts.reverse ++ keyword.1 :: before), u :: rest, errors⟩) := by
  obtain ⟨t, us, hts, ht⟩ := he.head semicolon.1 (u :: rest)
  have hhere : here ⟨keyword.1 :: before, ts ++ semicolon.1 :: u :: rest, errors⟩ =
      some (t, ⟨keyword.1 :: before, ts ++ semicolon.1 :: u :: rest, errors⟩) := by
    rw [hts]
    rfl
  rw [← yields_statement]
  simp only [statement]
  rw [yields_step_iff here_cons]
  simp only [keyword.2, behind, returnStatement]
  rw [yields_step_iff advance_cons, yields_step_iff previous_append, yields_step_iff hhere,
    yields_clause he semicolon ht fun _ => ascending_const _, yields_step_iff (consume_pos semicolon.2 _), yields_const]
  exact Option.some_inj.trans eq_comm

end Clauses

/-! ### Variables -/

/-- What stands behind `var`. -/
inductive LegibleVar : List Token → Stmt → Prop
  | bare (name : Tok .identifier) (semicolon : Tok .semicolon) : LegibleVar [name.1, semicolon.1] (.varDeclaration .null name.1)
  | init {ts x} (name : Tok .identifier) (equals : Tok .equal) (expr : Legible .assignment ts [x]) (semicolon : Tok .semicolon) :
      LegibleVar (name.1 :: equals.1 :: (ts ++ [semicolon.1])) (.varDeclaration x name.1)

theorem LegibleVar.reads {ts : List Token} {stmt : Stmt} (h : LegibleVar ts stmt) (u : Token) : Reads varDeclaration ts stmt u := by
  intro before rest errors
  change Yields (fun n => varDeclaration n) _ _
  simp only [varDeclaration]
  cases h with
  | bare name semicolon =>
    simp only [List.cons_append, List.nil_append]
    rw [yields_step_iff (consume_pos name.2 _)]
    simp only [initializer, bind_assoc]
    rw [yields_step_iff here_cons]
    simp only [semicolon.2, reduceCtorEq, if_false]
    exact yields_const.2 (newTerminatedStatement_apply semicolon.2)
  | init name equals expr semicolon =>
    simp only [List.cons_append, List.nil_append, List.append_assoc, List.reverse_cons, List.reverse_append, List.reverse_nil]
    rw [yields_step_iff (consume_pos name.2 _)]
    simp only [initializer, bind_assoc]
    rw [yields_step_iff here_cons]
    simp only [equals.2, if_true, bind_assoc]
    rw [yields_step_iff advance_cons]
    exact (yields_terminated expr semicolon (.varDeclaration · name.1)).2 rfl

theorem LegibleVar.isNull {ts : List Token} {stmt : Stmt} (h : LegibleVar ts stmt) : stmt.isNull = false := by
  cases h with
  | bare => rfl
  | init => rfl

/-- The first clause of a `for`, with its semicolon. What stands in front of an expression is passed over. -/
inductive LegibleInit : List Token → Stmt → Prop
  | none (semicolon : Tok .semicolon) : LegibleInit [semicolon.1] .null
  | var {ts stmt} (keyword : Tok .varKey) (v : LegibleVar ts stmt) : LegibleInit (keyword.1 :: ts) stmt
  | expr {ts x} (skipped : Token) (hskipped : skipped.type ≠ .semicolon ∧ skipped.type ≠ .varKey) (expr : Legible .assignment ts [x])
      (semicolon : Tok .semicolon) : LegibleInit (skipped :: (ts ++ [semicolon.1])) (.expr x)

/-! ### Statements with parts -/

section Parts

variable {ts : List Token} {x : Expr}

theorem yields_while (keyword : Tok .whileKey) (left : Tok .leftParen) (he : Legible .assignment ts [x]) (right : Tok .rightParen) :
    Yields statementRule ⟨before, keyword.1 :: left.1 :: (ts ++ right.1 :: (tokens ++ u :: rest)), errors⟩ out ↔
      ∃ body c, Yields statementRule ⟨right.1 :: (ts.reverse ++ left.1 :: keyword.1 :: before), tokens ++ u :: rest, errors⟩ (body, c) ∧
        out = (.whileStmt x body, c) := by
  rw [← yields_statement]
  simp only [statement]
  rw [yields_step_iff here_cons]
  simp only [keyword.2, behind, whileStatement, statement_eq]
  rw [yields_step_iff advance_cons, yields_step_iff (consume_append left.2 _)]
  rw [yields_expression he (by rw [right.2]; decide) ?_, yields_step_iff (consume_append right.2 _)]
  · exact yields_map statementRule_ascending _
  · exact fun x => (ascending_const _).bind fun _ => statementRule_ascending.bind fun _ => ascending_const _

theorem elseStatement_ascending : Ascending fun n => elseStatement (statementRule n) :=
  fun n m hle => elseStatement_le (statementRule_ascending n m hle)

theorem yields_if (keyword : Tok .ifKey) (left : Tok .leftParen) (he : Legible .assignment ts [x]) (right : Tok .rightParen) :
    Yields statementRule ⟨before, keyword.1 :: left.1 :: (ts ++ right.1 :: (tokens ++ u :: rest)), errors⟩ out ↔
      ∃ thenStmt c, Yields statementRule ⟨right.1 :: (ts.reverse ++ left.1 :: keyword.1 :: before), tokens ++ u :: rest, errors⟩
        (thenStmt, c) ∧ ∃ elseStmt c', Yields (fun n => elseStatement (statementRule n)) c (elseStmt, c') ∧
          out = (.ifElse x thenStmt elseStmt, c') := by
  rw [← yields_statement]
  simp only [statement]
  rw [yields_step_iff here_cons]
  simp only [keyword.2, behind, ifStatement, statement_eq]
  rw [yields_step_iff advance_cons, yields_step_iff (consume_append left.2 _)]
  rw [yields_expression he (by rw [right.2]; decide) ?_, yields_step_iff (consume_append right.2 _), yields_bind statementRule_ascending ?_]
  · simp only [yields_map elseStatement_ascending]
  · exact fun y => elseStatement_ascending.bind fun _ => ascending_const _
  · intro x
    exact (ascending_const _).bind fun _ => statementRule_ascending.bind fun y => elseStatement_ascending.bind fun _ => ascending_const _

theorem yields_else (h : tkn.type = .elseKey) :
    Yields (fun n => elseStatement (statementRule n)) ⟨before, tkn :: rest, errors⟩ out ↔
      Yields statementRule ⟨tkn :: before, rest, errors⟩ out := by
  simp only [elseStatement]
  rw [yields_step_iff here_cons]
  simp only [h, if_true]
  rw [yields_step_iff advance_cons]

theorem yields_else_none (h : u.type ≠ .elseKey) :
    Yields (fun n => elseStatement (statementRule n)) ⟨before, u :: rest, errors⟩ (.null, ⟨before, u :: rest, errors⟩) := by
  simp only [elseStatement]
  rw [yields_step_iff here_cons]
  simp only [if_neg h]
  exact yields_const.2 rfl

theorem LegibleInit.reads {ts : List Token} {stmt : Stmt} (h : LegibleInit ts stmt) (u : Token) : Reads forInitializer ts stmt u := by
  intro before rest errors
  change Yields (fun n => forInitializer n) _ _
  simp only [forInitializer]
  cases h with
  | none semicolon =>
    simp only [List.cons_append, List.nil_append]
    rw [yields_step_iff here_cons]
    simp only [semicolon.2, if_true]
    exact yields_const.2 rfl
  | var keyword v =>
    have hv := v.reads u (keyword.1 :: before) rest errors
    simp only [List.cons_append, List.reverse_cons, List.append_assoc, List.nil_append]
    rw [yields_step_iff here_cons]
    simp only [keyword.2, reduceCtorEq, if_true, if_false]
    rw [yields_step_iff advance_cons]
    exact hv
  | expr skipped hskipped expr semicolon =>
    simp only [List.cons_append, List.reverse_cons, List.reverse_append, List.append_assoc, List.nil_append, List.reverse_nil]
    rw [yields_step_iff here_cons]
    simp only [if_neg hskipped.1, if_neg hskipped.2]
    rw [yields_step_iff advance_cons]
    exact (yields_terminated expr semicolon .expr).2 rfl

/-- The errors that a `for` prints, and the tree of its clauses around a body. -/
theorem yields_for {its cts sts : List Token} {i : Stmt} {x y : Expr} (keyword : Tok .forKey) (left : Tok .leftParen) (hi : LegibleInit its i)
    (hc : LegibleClause cts x) (semicolon : Tok .semicolon) (hs : LegibleClause sts y) (right : Tok .rightParen) :
    Yields statementRule ⟨before, keyword.1 :: left.1 :: (its ++ (cts ++ semicolon.1 :: (sts ++ right.1 :: (tokens ++ u :: rest)))), errors⟩
        out ↔
      ∃ body c, Yields statementRule ⟨right.1 :: (sts.reverse ++ semicolon.1 :: (cts.reverse ++ (its.reverse ++ left.1 :: keyword.1 ::
          before))), tokens ++ u :: rest, errors ++ stepErrors sts right.1⟩ (body, c) ∧ out = (wrapFor i x y body, c) := by
  obtain ⟨t, ts, hts, ht⟩ := hc.head semicolon.1 (sts ++ right.1 :: (tokens ++ u :: rest))
  have htype : t.type ≠ .rightParen := by
    obtain ⟨-, rfl⟩ | ⟨-, ht⟩ := ht
    · rw [semicolon.2]
      decide
    · have hall : ∀ type ∈ Level.starts .assignment, type ≠ .rightParen := by decide
      exact hall _ ht
  have hleft (b : List Token) (msg : String) : consume .leftParen msg ⟨b, left.1 :: (its ++ t :: ts), errors⟩ =
      some (some left.1, ⟨left.1 :: b, its ++ t :: ts, errors⟩) := consume_append left.2 msg
  have hinit (b : List Token) := hi.reads t b ts errors
  have hhere (b : List Token) : here ⟨b, t :: ts, errors⟩ = some (t, ⟨b, t :: ts, errors⟩) := here_cons
  rw [← hts] at hleft hinit hhere
  -- What is left to do behind each of the parts.
  have hbody (i : Stmt) (x y : Expr) : Ascending fun n => statementRule n >>= fun body => pure (wrapFor i x y body) :=
    statementRule_ascending.bind fun _ => ascending_const _
  have hstep (i : Stmt) (t : Token) (x : Expr) : Ascending fun n => consume .semicolon "Expect ';' after for condition" >>= fun _ =>
      clause n t .rightParen >>= fun y => consume .rightParen "Expect ')' for 'for' closing" >>= fun _ =>
        statementRule n >>= fun body => pure (wrapFor i x y body) :=
    (ascending_const _).bind fun _ => (clause_ascending t _).bind fun y => (ascending_const _).bind fun _ => hbody i x y
  rw [← yields_statement]
  simp only [statement]
  rw [yields_step_iff here_cons]
  simp only [keyword.2, behind, forStatement, statement_eq]
  rw [yields_step_iff advance_cons, yields_step_iff (hleft _ _), yields_bind_iff forInitializer_ascending ?_ (hinit _), yields_step_iff (hhere _),
    yields_clause hc semicolon ht (hstep _ t), yields_step_iff (consume_append semicolon.2 _), yields_step hs right htype ?_,
    yields_step_iff (consume_append right.2 _)]
  · exact yields_map statementRule_ascending _
  · exact fun y => (ascending_const _).bind fun _ => hbody _ _ y
  · exact fun i => (ascending_const _).bind fun t => (clause_ascending t _).bind fun x => hstep i t x

end Parts

/-! ### Sequences -/

section Sequences

variable {r : Nat → Rule Stmt} {inner : List Stmt} {outs : List Stmt × Cursor}

theorem yields_untilBrace (hr : Ascending r) :
    Yields (fun n => untilBrace (r n) (n + 1) inner) c outs ↔ Yields (fun n => untilBrace (r n) n inner) c outs :=
  yields_diagonal (F := fun n m => untilBrace (r n) m inner) fun n n' _ _ hn hm => untilBrace_le (hr n n' hn) hm inner

theorem untilBrace_ascending (hr : Ascending r) (inner : List Stmt) : Ascending fun n => untilBrace (r n) n inner :=
  fun n m hle => untilBrace_le (hr n m hle) hle inner

theorem untilBrace_stop (hr : Ascending r) (h : u.type = .rightBrace ∨ u.type = .endOfFile) :
    Yields (fun n => untilBrace (r n) n inner) ⟨before, u :: rest, errors⟩ (inner, ⟨before, u :: rest, errors⟩) := by
  rw [← yields_untilBrace hr]
  simp only [untilBrace]
  rw [yields_step_iff here_cons]
  simp only [if_neg (show ¬(u.type ≠ .rightBrace ∧ u.type ≠ .endOfFile) by tauto)]
  exact yields_const.2 rfl

theorem untilBrace_more (hr : Ascending r) (h : tkn.type ≠ .rightBrace ∧ tkn.type ≠ .endOfFile) :
    Yields (fun n => untilBrace (r n) n inner) ⟨before, tkn :: rest, errors⟩ outs ↔
      ∃ stmt c, Yields r ⟨before, tkn :: rest, errors⟩ (stmt, c) ∧ Yields (fun n => untilBrace (r n) n (inner ++ [stmt])) c outs := by
  rw [← yields_untilBrace hr]
  simp only [untilBrace]
  rw [yields_step_iff here_cons]
  simp only [if_pos h]
  exact yields_bind hr fun stmt => untilBrace_ascending hr _

/-- What has been read stays in front. -/
theorem untilBrace_append (h : Yields (fun n => untilBrace (r n) n inner) c outs) : ∃ more, outs.1 = inner ++ more := by
  obtain ⟨n, hn⟩ := h
  have hall : ∀ m inner c, untilBrace (r n) m inner c = some outs → ∃ more, outs.1 = inner ++ more := by
    intro m
    induction m with
    | zero => exact fun _ _ h => nomatch h
    | succ m ih =>
      intro inner c h
      rw [untilBrace] at h
      obtain ⟨token, c', _, h⟩ := bind_eq_some.1 h
      split at h
      · obtain ⟨stmt, c'', _, h⟩ := bind_eq_some.1 h
        obtain ⟨more, hmore⟩ := ih _ _ h
        exact ⟨stmt :: more, by rw [hmore, List.append_assoc]; rfl⟩
      · obtain rfl := Option.some.inj h
        exact ⟨[], (List.append_nil _).symm⟩
  exact hall n inner c hn

end Sequences

/-- `block_statements`, with one bound. -/
def blockRule (n : Nat) : Rule Stmt := blockStatements n (declaration n)

theorem yields_blockRule : Yields blockRule c out ↔ ∃ inner c₁, Yields (fun n => untilBrace (declaration n) n []) c (inner, c₁) ∧
    ∃ t c', consume .rightBrace "Expect '\x7d' after block." c₁ = some (t, c') ∧ out = (.block inner, c') := by
  change Yields (fun n => blockStatements n (declaration n)) c out ↔ _
  simp only [blockStatements]
  rw [yields_bind (untilBrace_ascending declaration_ascending []) fun _ => ascending_const _]
  simp only [yields_const, bind_eq_some, pure_apply, Option.some_inj, @eq_comm _ _ out]

theorem blockRule_ascending : Ascending blockRule := fun n m hle => blockStatements_le (declaration_ascending n m hle) hle

theorem yields_block {left : Tok .leftBrace} :
    Yields statementRule ⟨before, left.1 :: rest, errors⟩ out ↔ Yields blockRule ⟨left.1 :: before, rest, errors⟩ out := by
  rw [← yields_statement]
  simp only [statement]
  rw [yields_step_iff here_cons]
  simp only [left.2, behind]
  rw [yields_step_iff advance_cons]
  exact Iff.rfl

/-! ### Functions and classes -/

/-- The routine returns `a` and passes over the tokens. It may print errors, unless it is quiet. -/
def ReadsUpTo {α : Type} (quiet : Bool) (f : Nat → Rule α) (tokens : List Token) (a : α) (u : Token) : Prop :=
  ∀ before rest errors, ∃ errors', (quiet = true → errors' = errors) ∧
    Yields f ⟨before, tokens ++ u :: rest, errors⟩ (a, ⟨tokens.reverse ++ before, u :: rest, errors'⟩)

/-- The names between the parentheses of a function, with their tokens. One token behind the last name is passed over. -/
inductive LegibleNames : List Token → List Token → Prop
  | last (name : Tok .identifier) : LegibleNames [name.1] [name.1]
  | passed (name : Tok .identifier) (skipped : Token) (hskipped : skipped.type ≠ .rightParen ∧ skipped.type ≠ .comma) :
      LegibleNames [name.1, skipped] [name.1]
  | more {ts names} (name : Tok .identifier) (comma : Tok .comma) (others : LegibleNames ts names) :
      LegibleNames (name.1 :: comma.1 :: ts) (name.1 :: names)

inductive LegibleParams : List Token → List Token → Prop
  | none : LegibleParams [] []
  | some {ts names} (params : LegibleNames ts names) : LegibleParams ts names

theorem Params.legible_some (first : Tok .identifier) (others : List (Tok .comma × Tok .identifier)) :
    LegibleNames (Params.some first others).tokens (Params.some first others).names := by
  induction others generalizing first with
  | nil => exact .last first
  | cons other others ih => exact .more first other.1 (ih other.2)

theorem Params.legible (params : Params) : LegibleParams params.tokens params.names := by
  cases params with
  | none => exact .none
  | some first others => exact .some (Params.legible_some first others)

section Params

variable {ts names : List Token} {quiet : Bool}

theorem LegibleNames.first (h : LegibleNames ts names) : ∃ name us, ts = name :: us ∧ name.type = .identifier := by
  cases h with
  | last name => exact ⟨_, _, rfl, name.2⟩
  | passed name skipped => exact ⟨_, _, rfl, name.2⟩
  | more name comma others => exact ⟨_, _, rfl, name.2⟩

theorem tooManyParams_apply (params : List Token) (tkn : Token) (before ahead : List Token) (errors : List (Token × String)) :
    ∃ errors', (params.length ≤ maxArgs → errors' = errors) ∧
      tooManyParams params tkn ⟨before, ahead, errors⟩ = some ((), ⟨before, ahead, errors'⟩) := by
  rw [tooManyParams]
  split
  · exact ⟨_, fun hle => absurd hle (Nat.not_le.2 ‹_›), rfl⟩
  · exact ⟨_, fun _ => rfl, rfl⟩

theorem yields_paramsLoop {params : List Token} {outs : List Token × Cursor} :
    Yields (fun n => paramsLoop (n + 1) params tkn) c outs ↔ Yields (fun n => paramsLoop n params tkn) c outs :=
  yields_succ fun _ _ hle => paramsLoop_le hle params tkn

/-- Behind a name, with the token that decides whether there is another one. -/
theorem paramsLoop_round {name : Token} (hname : name.type = .identifier) (params : List Token) (tkn t : Token) (before rest : List Token)
    (errors : List (Token × String)) : ∃ errors', (params.length ≤ maxArgs → errors' = errors) ∧ ∀ outs,
      (Yields (fun n => paramsLoop n params tkn) ⟨before, name :: t :: rest, errors⟩ outs ↔
        Yields (fun n => passComma t >>= fun _ =>
          if t.type = .comma then paramsLoop n (params ++ [name]) t else pure (params ++ [name]))
          ⟨name :: before, t :: rest, errors'⟩ outs) := by
  obtain ⟨errors', hquiet, herrors⟩ := tooManyParams_apply params tkn before (name :: t :: rest) errors
  refine ⟨errors', hquiet, fun outs => ?_⟩
  rw [← yields_paramsLoop]
  simp only [paramsLoop]
  rw [yields_step_iff herrors, yields_step_iff (consume_pos hname _)]
  dsimp only
  rw [yields_step_iff here_cons]

theorem LegibleNames.reads (h : LegibleNames ts names) {u : Token} (hu : u.type = .rightParen) (params : List Token) (tkn : Token)
    (hroom : quiet = true → params.length + names.length ≤ maxArgs + 1) :
    ReadsUpTo quiet (fun n => paramsLoop n params tkn) ts (params ++ names) u := by
  induction h generalizing params tkn with
  | last name =>
    intro before rest errors
    obtain ⟨errors', hquiet, hround⟩ := paramsLoop_round name.2 params tkn u before rest errors
    refine ⟨errors', fun hq => hquiet (Nat.le_of_succ_le_succ (hroom hq)), (hround _).2 ?_⟩
    simp only [passComma, hu, reduceCtorEq, if_true, if_false]
    exact yields_const.2 rfl
  | passed name skipped hskipped =>
    intro before rest errors
    obtain ⟨errors', hquiet, hround⟩ := paramsLoop_round name.2 params tkn skipped before (u :: rest) errors
    refine ⟨errors', fun hq => hquiet (Nat.le_of_succ_le_succ (hroom hq)), (hround _).2 ?_⟩
    simp only [passComma, if_neg hskipped.1, if_neg hskipped.2]
    exact yields_const.2 rfl
  | @more ts names name comma others ih =>
    intro before rest errors
    obtain ⟨errors', hquiet, hround⟩ := paramsLoop_round name.2 params tkn comma.1 before (ts ++ u :: rest) errors
    have hroom' : quiet = true → (params ++ [name.1]).length + names.length ≤ maxArgs + 1 := by
      intro hq
      have hle := hroom hq
      simp only [List.length_cons, List.length_append, List.length_nil] at hle ⊢
      omega
    obtain ⟨errors'', hquiet', hothers⟩ := ih (params ++ [name.1]) comma.1 hroom' (comma.1 :: name.1 :: before) rest errors'
    refine ⟨errors'', fun hq => (hquiet' hq).trans (hquiet ?_), (hround _).2 ?_⟩
    · have hle := hroom hq
      simp only [List.length_cons] at hle
      omega
    · have hne : ¬comma.1.type = .rightParen := by
        rw [comma.2]
        decide
      simp only [passComma, if_neg hne]
      rw [yields_step_iff advance_cons]
      simp only [comma.2, if_true]
      simpa using hothers

/-- The names between the parentheses are read, whatever their number. -/
theorem LegibleParams.reads (h : LegibleParams ts names) {u : Token} (hu : u.type = .rightParen)
    (hroom : quiet = true → names.length ≤ maxArgs + 1) : ReadsUpTo quiet parameters ts names u := by
  intro before rest errors
  change ∃ errors', _ ∧ Yields (fun n => parameters n) _ _
  simp only [parameters]
  cases h with
  | none =>
    refine ⟨errors, fun _ => rfl, ?_⟩
    simp only [List.nil_append]
    rw [yields_step_iff here_cons]
    simp only [hu, if_true]
    exact yields_const.2 rfl
  | some h =>
    obtain ⟨name, us, rfl, hname⟩ := h.first
    obtain ⟨errors', hquiet, hread⟩ := h.reads hu [] name (by simpa using hroom) before rest errors
    refine ⟨errors', hquiet, ?_⟩
    simp only [List.cons_append] at hread ⊢
    rw [yields_step_iff here_cons]
    simp only [if_neg (show ¬name.type = .rightParen by rw [hname]; decide)]
    exact hread

/-- `fun_statement`, with one bound. -/
def funRule (kind : String) (n : Nat) : Rule Stmt := funStatement n (declaration n) kind

theorem funRule_ascending (kind : String) : Ascending (funRule kind) := fun n m hle => funStatement_le (declaration_ascending n m hle) hle kind

theorem yields_fun (kind : String) (name : Tok .identifier) (left : Tok .leftParen) (params : LegibleParams ts names) (right : Tok .rightParen)
    (leftBrace : Tok .leftBrace) (hroom : quiet = true → names.length ≤ maxArgs + 1) :
    ∃ errors', (quiet = true → errors' = errors) ∧ ∀ out,
      (Yields (funRule kind) ⟨before, name.1 :: left.1 :: (ts ++ right.1 :: leftBrace.1 :: (tokens ++ u :: rest)), errors⟩ out ↔
        ∃ body c, Yields blockRule ⟨leftBrace.1 :: right.1 :: (ts.reverse ++ left.1 :: name.1 :: before), tokens ++ u :: rest, errors'⟩
          (body, c) ∧ out = (.funStmt names name.1 body, c)) := by
  obtain ⟨errors', hquiet, hparams⟩ :=
    params.reads right.2 hroom (left.1 :: name.1 :: before) (leftBrace.1 :: (tokens ++ u :: rest)) errors
  refine ⟨errors', hquiet, fun out => ?_⟩
  change Yields (fun n => funStatement n (declaration n) kind) _ _ ↔ _
  simp only [funStatement]
  rw [yields_step_iff (consume_pos name.2 _)]
  dsimp only
  rw [yields_step_iff (consume_append left.2 _), yields_bind_iff parameters_ascending ?_ hparams, yields_step_iff (consume_pos right.2 _),
    yields_step_iff (consume_append leftBrace.2 _)]
  · exact yields_map blockRule_ascending _
  · exact fun _ => (ascending_const _).bind fun _ => (ascending_const _).bind fun _ => blockRule_ascending.bind fun _ => ascending_const _

end Params

/-- `class_statement`, with one bound. -/
def classRule (n : Nat) : Rule Stmt := classStatement n (declaration n)

/-- The tokens behind the name of a class, when it has a superclass. -/
def superTokens (super : Option (Tok .less × Tok .identifier)) : List Token := (super.map fun s => [s.1.1, s.2.1]).getD []

def superTree (super : Option (Tok .less × Tok .identifier)) : Expr := (super.map fun s => .var s.2.1).getD .null

theorem superClass_apply {super : Option (Tok .less × Tok .identifier)} {left : Tok .leftBrace} :
    superClass ⟨before, superTokens super ++ left.1 :: rest, errors⟩ =
      some (some (superTree super), ⟨(superTokens super).reverse ++ before, left.1 :: rest, errors⟩) := by
  cases super with
  | none =>
    simp only [superTokens, Option.map_none, Option.getD_none, List.nil_append, superClass]
    rw [bind_of_eq here_cons, if_neg (by rw [left.2]; decide)]
    rfl
  | some s =>
    simp only [superTokens, Option.map_some, Option.getD_some, List.cons_append, List.nil_append, superClass]
    rw [bind_of_eq here_cons, if_pos s.1.2, bind_of_eq advance_cons, bind_of_eq (consume_pos s.2.2 _)]
    rfl

theorem yields_class {name : Tok .identifier} {super : Option (Tok .less × Tok .identifier)} {left : Tok .leftBrace} :
    Yields classRule ⟨before, name.1 :: (superTokens super ++ left.1 :: (tokens ++ u :: rest)), errors⟩ out ↔
      ∃ methods c₁, Yields (fun n => untilBrace (funRule "method" n) n [])
          ⟨left.1 :: ((superTokens super).reverse ++ name.1 :: before), tokens ++ u :: rest, errors⟩ (methods, c₁) ∧
        ∃ t c', consume .rightBrace "Expect '\x7d' after class body" c₁ = some (t, c') ∧
          out = (.classStmt name.1 methods (superTree super), c') := by
  change Yields (fun n => classStatement n (declaration n)) _ _ ↔ _
  simp only [classStatement]
  rw [yields_step_iff (consume_append name.2 _)]
  dsimp only
  rw [yields_step_iff superClass_apply]
  dsimp only
  rw [yields_step_iff (consume_append left.2 _)]
  refine (yields_bind (untilBrace_ascending (funRule_ascending "method") []) fun _ => ascending_const _).trans ?_
  simp only [yields_const, bind_eq_some, pure_apply, Option.some_inj, @eq_comm _ _ out]

/-! ### Declarations -/

theorem yields_declaration : Yields (fun n => declaration (n + 1)) c out ↔ Yields declaration c out := yields_succ declaration_ascending

theorem yields_recover {r : Nat → Rule Stmt} (hr : Ascending r) (h : out.1.isNull = false) :
    Yields (fun n => recover n (r n)) c out ↔ Yields r c out := by
  simp only [recover]
  have htail (stmt : Stmt) : Ascending fun n => if stmt.isNull = true then synchronize n >>= fun _ => pure stmt else pure stmt :=
    fun n m hle => Le.ite ((synchronize_le hle).bind fun _ => Le.refl _) (Le.refl _)
  rw [yields_bind hr htail]
  constructor
  · intro ⟨stmt, c', hstmt, n, hn⟩
    split at hn
    · rename_i hnull
      obtain ⟨_, _, _, hpure⟩ := bind_eq_some.1 hn
      obtain rfl := Option.some.inj hpure
      exact Bool.noConfusion (hnull.symm.trans h)
    · obtain rfl := Option.some.inj hn
      exact hstmt
  · intro hout
    refine ⟨out.1, out.2, hout, 0, ?_⟩
    simp only [h, Bool.false_eq_true, if_false]
    rfl

theorem yields_declaration_class {keyword : Tok .classKey} :
    Yields declaration ⟨before, keyword.1 :: rest, errors⟩ out ↔ Yields classRule ⟨keyword.1 :: before, rest, errors⟩ out := by
  rw [← yields_declaration]
  simp only [declaration]
  rw [yields_step_iff here_cons]
  simp only [keyword.2, behind]
  rw [yields_step_iff advance_cons]
  exact Iff.rfl

theorem yields_declaration_fun {keyword : Tok .funKey} :
    Yields declaration ⟨before, keyword.1 :: rest, errors⟩ out ↔ Yields (funRule "function") ⟨keyword.1 :: before, rest, errors⟩ out := by
  rw [← yields_declaration]
  simp only [declaration]
  rw [yields_step_iff here_cons]
  simp only [keyword.2, behind]
  rw [yields_step_iff advance_cons]
  exact Iff.rfl

theorem yields_declaration_var {keyword : Tok .varKey} (h : out.1.isNull = false) :
    Yields declaration ⟨before, keyword.1 :: rest, errors⟩ out ↔ Yields varDeclaration ⟨keyword.1 :: before, rest, errors⟩ out := by
  rw [← yields_declaration]
  simp only [declaration]
  rw [yields_step_iff here_cons]
  simp only [keyword.2]
  refine (yields_recover (fun n m hle => behind_le (varDeclaration_ascending n m hle)) h).trans ?_
  simp only [behind]
  rw [yields_step_iff advance_cons]

/-- The types of the first tokens of a statement. -/
def statementStarts : List TokenType := [TokenType.printKey, .leftBrace, .ifKey, .forKey, .whileKey, .returnKey] ++ Level.starts .assignment

theorem yields_declaration_statement (htkn : tkn.type ∈ statementStarts) (h : out.1.isNull = false) :
    Yields declaration ⟨before, tkn :: rest, errors⟩ out ↔ Yields statementRule ⟨before, tkn :: rest, errors⟩ out := by
  rw [← yields_declaration]
  simp only [declaration]
  rw [yields_step_iff here_cons]
  refine Iff.trans ?_ (yields_recover statementRule_ascending h)
  have hnot : tkn.type ∉ [TokenType.classKey, .funKey, .varKey] := by
    have hall : ∀ type ∈ statementStarts, type ∉ [TokenType.classKey, .funKey, .varKey] := by decide
    exact hall _ htkn
  simp only [List.mem_cons, List.not_mem_nil, or_false, not_or] at hnot
  split
  · exact absurd ‹_› hnot.1
  · exact absurd ‹_› hnot.2.1
  · exact absurd ‹_› hnot.2.2
  · exact Iff.rfl

end Reading.Clox.Parse
