import Reading.Clox.Statements

/-!
# The programs that the parser reads

A statement or a declaration is legible when the routine of its form returns a tree for it and passes over its tokens, from wherever it stands in a list. Some of them are read without an error. The supported sentences of the grammar are legible, with the trees of their derivations.
-/

namespace Reading.Clox.Parse

open Lib Lib.Attempt

variable {before rest : List Token} {errors : List (Token × String)} {tkn u : Token} {c : Cursor}

/-- The types of the first tokens of a declaration. -/
def Sentence.declarationStarts : List TokenType := [TokenType.varKey, .funKey, .classKey] ++ statementStarts

/-! ### Statements that are read -/

/-- The statements and declarations that the parser reads, with their trees, and those of them that it reads without an error: no `for` without a step, and no function with more than nine parameters. -/
inductive LegibleForm (quiet : Bool) : Form → List Token → List Stmt → Prop
  | print {ts x} (keyword : Tok .printKey) (expr : Legible .assignment ts [x]) (semicolon : Tok .semicolon) :
      LegibleForm quiet (.statement false) (keyword.1 :: (ts ++ [semicolon.1])) [.print x]
  | expr {ts x} (expr : Legible .assignment ts [x]) (semicolon : Tok .semicolon) :
      LegibleForm quiet (.statement false) (ts ++ [semicolon.1]) [.expr x]
  | block {ts xs} (left : Tok .leftBrace) (inner : LegibleForm quiet .declarations ts xs) (right : Tok .rightBrace) :
      LegibleForm quiet (.statement false) (left.1 :: (ts ++ [right.1])) [.block xs]
  | ifThen {d cts x ts stmt} (keyword : Tok .ifKey) (left : Tok .leftParen) (condition : Legible .assignment cts [x]) (right : Tok .rightParen)
      (thenStmt : LegibleForm quiet (.statement d) ts [stmt]) :
      LegibleForm quiet (.statement true) (keyword.1 :: left.1 :: (cts ++ right.1 :: ts)) [.ifElse x stmt .null]
  | ifElse {d cts x ts stmt ts' stmt'} (keyword : Tok .ifKey) (left : Tok .leftParen) (condition : Legible .assignment cts [x])
      (right : Tok .rightParen) (thenStmt : LegibleForm quiet (.statement false) ts [stmt]) (elseKey : Tok .elseKey)
      (elseStmt : LegibleForm quiet (.statement d) ts' [stmt']) :
      LegibleForm quiet (.statement d) (keyword.1 :: left.1 :: (cts ++ right.1 :: (ts ++ elseKey.1 :: ts'))) [.ifElse x stmt stmt']
  | whileLoop {d cts x ts stmt} (keyword : Tok .whileKey) (left : Tok .leftParen) (condition : Legible .assignment cts [x])
      (right : Tok .rightParen) (body : LegibleForm quiet (.statement d) ts [stmt]) :
      LegibleForm quiet (.statement d) (keyword.1 :: left.1 :: (cts ++ right.1 :: ts)) [.whileStmt x stmt]
  | forLoop {d its i cts x sts y ts stmt} (keyword : Tok .forKey) (left : Tok .leftParen) (init : LegibleInit its i)
      (condition : LegibleClause cts x) (semicolon : Tok .semicolon) (step : LegibleClause sts y) (hstep : quiet = true → sts ≠ [])
      (right : Tok .rightParen) (body : LegibleForm quiet (.statement d) ts [stmt]) :
      LegibleForm quiet (.statement d) (keyword.1 :: left.1 :: (its ++ (cts ++ semicolon.1 :: (sts ++ right.1 :: ts)))) [wrapFor i x y stmt]
  | returns {ts x} (keyword : Tok .returnKey) (value : LegibleClause ts x) (semicolon : Tok .semicolon) :
      LegibleForm quiet (.statement false) (keyword.1 :: (ts ++ [semicolon.1])) [.returnStmt keyword.1 x]
  | ofStatement {d ts xs} (stmt : LegibleForm quiet (.statement d) ts xs) : LegibleForm quiet .declaration ts xs
  | var {ts stmt} (keyword : Tok .varKey) (v : LegibleVar ts stmt) : LegibleForm quiet .declaration (keyword.1 :: ts) [stmt]
  | func {ts xs} (keyword : Tok .funKey) (f : LegibleForm quiet .function ts xs) : LegibleForm quiet .declaration (keyword.1 :: ts) xs
  | cls {ts xs} (keyword : Tok .classKey) (name : Tok .identifier) (super : Option (Tok .less × Tok .identifier)) (left : Tok .leftBrace)
      (methods : LegibleForm quiet .methods ts xs) (right : Tok .rightBrace) :
      LegibleForm quiet .declaration (keyword.1 :: name.1 :: (superTokens super ++ left.1 :: (ts ++ [right.1])))
        [.classStmt name.1 xs (superTree super)]
  | noDeclaration : LegibleForm quiet .declarations [] []
  | moreDeclarations {ts x ts' xs} (first : LegibleForm quiet .declaration ts [x]) (others : LegibleForm quiet .declarations ts' xs) :
      LegibleForm quiet .declarations (ts ++ ts') (x :: xs)
  | function {pts names ts xs} (name : Tok .identifier) (left : Tok .leftParen) (params : LegibleParams pts names)
      (hroom : quiet = true → names.length ≤ maxArgs + 1) (right : Tok .rightParen) (leftBrace : Tok .leftBrace)
      (body : LegibleForm quiet .declarations ts xs) (rightBrace : Tok .rightBrace) :
      LegibleForm quiet .function (name.1 :: left.1 :: (pts ++ right.1 :: leftBrace.1 :: (ts ++ [rightBrace.1])))
        [.funStmt names name.1 (.block xs)]
  | noMethod : LegibleForm quiet .methods [] []
  | moreMethods {ts x ts' xs} (first : LegibleForm quiet .function ts [x]) (others : LegibleForm quiet .methods ts' xs) :
      LegibleForm quiet .methods (ts ++ ts') (x :: xs)

namespace LegibleForm

variable {quiet d : Bool} {f : Form} {ts ts' cts sts its : List Token} {xs : List Stmt} {x : Expr} {stmt stmt' : Stmt}

theorem first_statement (h : LegibleForm quiet (.statement d) ts xs) : StartsIn statementStarts ts := by
  cases h with
  | print keyword | returns keyword => exact startsIn_tok keyword _ (by decide)
  | expr e =>
    obtain ⟨t, us, rfl, ht⟩ := e.first
    exact StartsIn.append ⟨t, us, rfl, List.mem_append_right _ ht⟩ _
  | block left => exact startsIn_tok left _ (by decide)
  | ifThen keyword | ifElse keyword => exact startsIn_tok keyword _ (by decide)
  | whileLoop keyword => exact startsIn_tok keyword _ (by decide)
  | forLoop keyword => exact startsIn_tok keyword _ (by decide)

theorem first_declaration (h : LegibleForm quiet .declaration ts xs) : StartsIn Sentence.declarationStarts ts := by
  cases h with
  | ofStatement stmt =>
    obtain ⟨t, us, rfl, ht⟩ := stmt.first_statement
    exact ⟨t, us, rfl, List.mem_append_right _ ht⟩
  | var keyword => exact startsIn_tok keyword _ (by decide)
  | func keyword => exact startsIn_tok keyword _ (by decide)
  | cls keyword => exact startsIn_tok keyword _ (by decide)

theorem first_function (h : LegibleForm quiet .function ts xs) : ∃ t us, ts = t :: us ∧ t.type = .identifier := by
  cases h with
  | function name => exact ⟨name.1, _, rfl, name.2⟩

theorem declarations_head (h : LegibleForm quiet .declarations ts xs) (u : Token) (rest : List Token) :
    ∃ t us, ts ++ u :: rest = t :: us ∧ (t = u ∨ t.type ∈ Sentence.declarationStarts) := by
  cases h with
  | noDeclaration => exact ⟨u, rest, rfl, .inl rfl⟩
  | moreDeclarations first others =>
    obtain ⟨t, us, hts, ht⟩ := (first.first_declaration.append _).append (u :: rest)
    exact ⟨t, us, hts, .inr ht⟩

theorem wrapFor_isNull (init : Stmt) (condition step : Expr) (body : Stmt) : (wrapFor init condition step body).isNull = false := by
  simp only [wrapFor]
  split <;> rfl

theorem isNull_statement (h : LegibleForm quiet (.statement d) ts xs) : (xs.headD .null).isNull = false := by
  cases h with
  | forLoop => exact wrapFor_isNull _ _ _ _
  | _ => rfl

theorem isNull_declaration (h : LegibleForm quiet .declaration ts xs) : (xs.headD .null).isNull = false := by
  cases h with
  | ofStatement stmt => exact stmt.isNull_statement
  | var keyword v => exact v.isNull
  | func keyword f => cases f; rfl
  | cls => rfl

end LegibleForm

/-- The routine reads it. -/
def Accepted (quiet : Bool) : Form → List Token → List Stmt → Prop
  | .statement d, ts, xs => ∀ u, (d = true → u.type ≠ .elseKey) → ReadsUpTo quiet statementRule ts (xs.headD .null) u
  | .declaration, ts, xs => ∀ u, u.type ≠ .elseKey → ReadsUpTo quiet declaration ts (xs.headD .null) u
  | .declarations, ts, xs => ∀ inner u, u.type = .rightBrace →
    ReadsUpTo quiet (fun n => untilBrace (declaration n) n inner) ts (inner ++ xs) u
  | .function, ts, xs => ∀ kind u, ReadsUpTo quiet (funRule kind) ts (xs.headD .null) u
  | .methods, ts, xs => ∀ inner u, u.type = .rightBrace →
    ReadsUpTo quiet (fun n => untilBrace (funRule "method" n) n inner) ts (inner ++ xs) u

section Accepted

variable {quiet d : Bool} {ts ts' cts sts its pts names : List Token} {xs : List Stmt} {x y : Expr} {stmt stmt' i : Stmt}

theorem accepted_block (left : Tok .leftBrace) (h : Accepted quiet .declarations ts xs) (right : Tok .rightBrace) :
    Accepted quiet (.statement d) (left.1 :: (ts ++ [right.1])) [.block xs] := by
  intro u _ before rest errors
  obtain ⟨errors', hquiet, hinner⟩ := h [] right.1 right.2 (left.1 :: before) (u :: rest) errors
  refine ⟨errors', hquiet, ?_⟩
  simp only [List.cons_append, List.append_assoc, List.nil_append, List.reverse_cons, List.reverse_append, List.reverse_nil]
  exact yields_block.2 (yields_blockRule.2 ⟨_, _, hinner, _, _, consume_pos right.2 _, rfl⟩)

theorem accepted_ifThen (keyword : Tok .ifKey) (left : Tok .leftParen) (hc : Legible .assignment cts [x]) (right : Tok .rightParen)
    (h : Accepted quiet (.statement d) ts [stmt]) :
    Accepted quiet (.statement true) (keyword.1 :: left.1 :: (cts ++ right.1 :: ts)) [.ifElse x stmt .null] := by
  intro u hu before rest errors
  obtain ⟨errors', hquiet, hthen⟩ := h u (fun _ => hu rfl) (right.1 :: (cts.reverse ++ left.1 :: keyword.1 :: before)) rest errors
  refine ⟨errors', hquiet, ?_⟩
  simp only [List.cons_append, List.append_assoc, List.nil_append, List.reverse_cons, List.reverse_append]
  exact (yields_if keyword left hc right).2 ⟨_, _, hthen, _, _, yields_else_none (hu rfl), rfl⟩

theorem accepted_ifElse (keyword : Tok .ifKey) (left : Tok .leftParen) (hc : Legible .assignment cts [x]) (right : Tok .rightParen)
    (h : Accepted quiet (.statement false) ts [stmt]) (elseKey : Tok .elseKey) (helse : Accepted quiet (.statement d) ts' [stmt']) :
    Accepted quiet (.statement d) (keyword.1 :: left.1 :: (cts ++ right.1 :: (ts ++ elseKey.1 :: ts'))) [.ifElse x stmt stmt'] := by
  intro u hu before rest errors
  obtain ⟨errors₁, hquiet₁, hthen⟩ := h elseKey.1 (fun hd => Bool.noConfusion hd)
    (right.1 :: (cts.reverse ++ left.1 :: keyword.1 :: before)) (ts' ++ u :: rest) errors
  obtain ⟨errors₂, hquiet₂, hread⟩ := helse u hu (elseKey.1 :: (ts.reverse ++ right.1 ::
    (cts.reverse ++ left.1 :: keyword.1 :: before))) rest errors₁
  refine ⟨errors₂, fun hq => (hquiet₂ hq).trans (hquiet₁ hq), ?_⟩
  simp only [List.cons_append, List.append_assoc, List.nil_append, List.reverse_cons, List.reverse_append]
  exact (yields_if keyword left hc right).2 ⟨_, _, hthen, _, _, (yields_else elseKey.2).2 hread, rfl⟩

theorem accepted_whileLoop (keyword : Tok .whileKey) (left : Tok .leftParen) (hc : Legible .assignment cts [x]) (right : Tok .rightParen)
    (h : Accepted quiet (.statement d) ts [stmt]) :
    Accepted quiet (.statement d) (keyword.1 :: left.1 :: (cts ++ right.1 :: ts)) [.whileStmt x stmt] := by
  intro u hu before rest errors
  obtain ⟨errors', hquiet, hbody⟩ := h u hu (right.1 :: (cts.reverse ++ left.1 :: keyword.1 :: before)) rest errors
  refine ⟨errors', hquiet, ?_⟩
  simp only [List.cons_append, List.append_assoc, List.nil_append, List.reverse_cons, List.reverse_append]
  exact (yields_while keyword left hc right).2 ⟨_, _, hbody, rfl⟩

theorem accepted_forLoop (keyword : Tok .forKey) (left : Tok .leftParen) (hi : LegibleInit its i) (hc : LegibleClause cts x)
    (semicolon : Tok .semicolon) (hs : LegibleClause sts y) (hstep : quiet = true → sts ≠ []) (right : Tok .rightParen)
    (h : Accepted quiet (.statement d) ts [stmt]) :
    Accepted quiet (.statement d) (keyword.1 :: left.1 :: (its ++ (cts ++ semicolon.1 :: (sts ++ right.1 :: ts)))) [wrapFor i x y stmt] := by
  intro u hu before rest errors
  obtain ⟨errors', hquiet, hbody⟩ := h u hu (right.1 :: (sts.reverse ++ semicolon.1 :: (cts.reverse ++
    (its.reverse ++ left.1 :: keyword.1 :: before)))) rest (errors ++ stepErrors sts right.1)
  have herrors (hq : quiet = true) : errors ++ stepErrors sts right.1 = errors := by
    rw [stepErrors, if_neg (hstep hq), List.append_nil]
  refine ⟨errors', fun hq => (hquiet hq).trans (herrors hq), ?_⟩
  simp only [List.cons_append, List.append_assoc, List.nil_append, List.reverse_cons, List.reverse_append]
  exact (yields_for keyword left hi hc semicolon hs right).2 ⟨_, _, hbody, rfl⟩

theorem accepted_function (name : Tok .identifier) (left : Tok .leftParen) (params : LegibleParams pts names)
    (hroom : quiet = true → names.length ≤ maxArgs + 1) (right : Tok .rightParen) (leftBrace : Tok .leftBrace)
    (h : Accepted quiet .declarations ts xs) (rightBrace : Tok .rightBrace) :
    Accepted quiet .function (name.1 :: left.1 :: (pts ++ right.1 :: leftBrace.1 :: (ts ++ [rightBrace.1])))
      [.funStmt names name.1 (.block xs)] := by
  intro kind u before rest errors
  obtain ⟨errors₁, hquiet₁, hfun⟩ := yields_fun kind name left params right leftBrace hroom
  obtain ⟨errors₂, hquiet₂, hbody⟩ := h [] rightBrace.1 rightBrace.2 (leftBrace.1 :: right.1 :: (pts.reverse ++ left.1 :: name.1 :: before))
    (u :: rest) errors₁
  refine ⟨errors₂, fun hq => (hquiet₂ hq).trans (hquiet₁ hq), ?_⟩
  simp only [List.cons_append, List.append_assoc, List.nil_append, List.reverse_cons, List.reverse_append, List.reverse_nil]
  exact (hfun _).2 ⟨_, _, yields_blockRule.2 ⟨_, _, hbody, _, _, consume_pos rightBrace.2 _, rfl⟩, rfl⟩

theorem accepted_cls (keyword : Tok .classKey) (name : Tok .identifier) (super : Option (Tok .less × Tok .identifier))
    (left : Tok .leftBrace) (h : Accepted quiet .methods ts xs) (right : Tok .rightBrace) :
    Accepted quiet .declaration (keyword.1 :: name.1 :: (superTokens super ++ left.1 :: (ts ++ [right.1])))
      [.classStmt name.1 xs (superTree super)] := by
  intro u _ before rest errors
  obtain ⟨errors', hquiet, hread⟩ := h [] right.1 right.2 (left.1 :: ((superTokens super).reverse ++ name.1 :: keyword.1 :: before))
    (u :: rest) errors
  refine ⟨errors', hquiet, ?_⟩
  simp only [List.cons_append, List.append_assoc, List.nil_append, List.reverse_cons, List.reverse_append, List.reverse_nil]
  exact yields_declaration_class.2 (yields_class.2 ⟨_, _, hread, _, _, consume_pos right.2 _, rfl⟩)

theorem ne_else_of_starts {type : TokenType} (h : type ∈ Sentence.declarationStarts) :
    type ≠ .elseKey ∧ type ≠ .rightBrace ∧ type ≠ .endOfFile := by
  have hall : ∀ type ∈ Sentence.declarationStarts, type ≠ .elseKey ∧ type ≠ .rightBrace ∧ type ≠ .endOfFile := by decide
  exact hall type h

/-- One more in front of a sequence. -/
theorem untilBrace_cons {r : Nat → Rule Stmt} (hr : Ascending r) {others : List Token} {inner : List Stmt} {t : Token}
    (hts : ts = t :: ts') (ht : t.type ≠ .rightBrace ∧ t.type ≠ .endOfFile)
    (hfirst : ∀ before rest errors, ∃ errors', (quiet = true → errors' = errors) ∧ Yields r ⟨before, ts ++ (others ++ u :: rest), errors⟩
      (stmt, ⟨ts.reverse ++ before, others ++ u :: rest, errors'⟩))
    (hothers : ReadsUpTo quiet (fun n => untilBrace (r n) n (inner ++ [stmt])) others (inner ++ [stmt] ++ xs) u) :
    ReadsUpTo quiet (fun n => untilBrace (r n) n inner) (ts ++ others) (inner ++ stmt :: xs) u := by
  intro before rest errors
  obtain ⟨errors₁, hquiet₁, hread⟩ := hfirst before rest errors
  obtain ⟨errors₂, hquiet₂, hmore⟩ := hothers (ts.reverse ++ before) rest errors₁
  refine ⟨errors₂, fun hq => (hquiet₂ hq).trans (hquiet₁ hq), ?_⟩
  subst hts
  simp only [List.append_assoc, List.reverse_append, List.reverse_cons, List.cons_append, List.nil_append] at hread hmore ⊢
  exact (untilBrace_more hr ht).2 ⟨_, _, hread, hmore⟩

/-- What stands behind a declaration in a sequence does not begin with `else`. -/
theorem LegibleForm.declarations_ne_else (h : LegibleForm quiet .declarations ts xs) (hu : u.type ≠ .elseKey) (rest : List Token) :
    ∃ t us, ts ++ u :: rest = t :: us ∧ t.type ≠ .elseKey := by
  obtain ⟨t, us, hts, ht⟩ := h.declarations_head u rest
  refine ⟨t, us, hts, ?_⟩
  obtain rfl | ht := ht
  · exact hu
  · exact (ne_else_of_starts ht).1

theorem accepted_moreDeclarations (hfirst : LegibleForm quiet .declaration ts [stmt]) (h : Accepted quiet .declaration ts [stmt])
    (hothers : LegibleForm quiet .declarations ts' xs) (ho : Accepted quiet .declarations ts' xs) :
    Accepted quiet .declarations (ts ++ ts') (stmt :: xs) := by
  intro inner u hu
  obtain ⟨f, fs, hfs, hf⟩ := hfirst.first_declaration
  refine untilBrace_cons declaration_ascending hfs (ne_else_of_starts hf).2 ?_ (ho (inner ++ [stmt]) u hu)
  intro before rest errors
  obtain ⟨t, us, hts, ht⟩ := hothers.declarations_ne_else (u := u) (by rw [hu]; decide) rest
  rw [hts]
  exact h t ht before us errors

theorem append_head (ts : List Token) (u : Token) (rest : List Token) : ∃ t us, ts ++ u :: rest = t :: us := by
  cases ts with
  | nil => exact ⟨u, rest, rfl⟩
  | cons t ts => exact ⟨t, ts ++ u :: rest, rfl⟩

theorem accepted_moreMethods (hfirst : LegibleForm quiet .function ts [stmt]) (h : Accepted quiet .function ts [stmt])
    (ho : Accepted quiet .methods ts' xs) : Accepted quiet .methods (ts ++ ts') (stmt :: xs) := by
  intro inner u hu
  obtain ⟨f, fs, hfs, hf⟩ := hfirst.first_function
  refine untilBrace_cons (funRule_ascending "method") hfs (by rw [hf]; decide) ?_ (ho (inner ++ [stmt]) u hu)
  intro before rest errors
  obtain ⟨t, us, hts⟩ := append_head ts' u rest
  rw [hts]
  exact h "method" t before us errors

theorem LegibleForm.accepted {f : Form} (h : LegibleForm quiet f ts xs) : Accepted quiet f ts xs := by
  induction h with
  | print keyword e semicolon =>
    intro u _ before rest errors
    refine ⟨errors, fun _ => rfl, ?_⟩
    simp only [List.cons_append, List.append_assoc, List.nil_append, List.reverse_cons, List.reverse_append, List.reverse_nil]
    exact (yields_print keyword e semicolon).2 rfl
  | @expr ts x e semicolon =>
    intro u _ before rest errors
    refine ⟨errors, fun _ => rfl, ?_⟩
    simp only [List.cons_append, List.append_assoc, List.nil_append, List.reverse_cons, List.reverse_append, List.reverse_nil]
    have hread : Yields expressionStatement ⟨before, ts ++ semicolon.1 :: u :: rest, errors⟩
        (.expr x, ⟨semicolon.1 :: (ts.reverse ++ before), u :: rest, errors⟩) := (yields_terminated e semicolon .expr).2 rfl
    obtain ⟨t, us, hts, ht⟩ := e.first
    rw [hts, List.cons_append] at hread ⊢
    exact (yields_expressionStatement ht).2 hread
  | block left inner right ih => exact accepted_block left ih right
  | ifThen keyword left condition right thenStmt ih => exact accepted_ifThen keyword left condition right ih
  | ifElse keyword left condition right thenStmt elseKey elseStmt ih ihe => exact accepted_ifElse keyword left condition right ih elseKey ihe
  | whileLoop keyword left condition right body ih => exact accepted_whileLoop keyword left condition right ih
  | forLoop keyword left init condition semicolon step hstep right body ih =>
    exact accepted_forLoop keyword left init condition semicolon step hstep right ih
  | returns keyword value semicolon =>
    intro u _ before rest errors
    refine ⟨errors, fun _ => rfl, ?_⟩
    simp only [List.cons_append, List.append_assoc, List.nil_append, List.reverse_cons, List.reverse_append, List.reverse_nil]
    exact (yields_return keyword value semicolon).2 rfl
  | @ofStatement d ts xs stmt ih =>
    intro u hu before rest errors
    obtain ⟨errors', hquiet, hread⟩ := ih u (fun _ => hu) before rest errors
    refine ⟨errors', hquiet, ?_⟩
    obtain ⟨t, us, hts, ht⟩ := stmt.first_statement
    rw [hts, List.cons_append] at hread ⊢
    exact (yields_declaration_statement ht stmt.isNull_statement).2 hread
  | var keyword v =>
    intro u _ before rest errors
    refine ⟨errors, fun _ => rfl, ?_⟩
    simp only [List.cons_append, List.reverse_cons, List.append_assoc, List.nil_append]
    exact (yields_declaration_var v.isNull).2 (v.reads u (keyword.1 :: before) rest errors)
  | func keyword f ih =>
    intro u _ before rest errors
    obtain ⟨errors', hquiet, hread⟩ := ih "function" u (keyword.1 :: before) rest errors
    refine ⟨errors', hquiet, ?_⟩
    simp only [List.cons_append, List.reverse_cons, List.append_assoc, List.nil_append]
    exact yields_declaration_fun.2 hread
  | cls keyword name super left methods right ih => exact accepted_cls keyword name super left ih right
  | noDeclaration =>
    intro inner u hu before rest errors
    refine ⟨errors, fun _ => rfl, ?_⟩
    simpa using untilBrace_stop declaration_ascending (.inl hu)
  | moreDeclarations first others ih iho => exact accepted_moreDeclarations first ih others iho
  | function name left params hroom right leftBrace body rightBrace ih =>
    exact accepted_function name left params hroom right leftBrace ih rightBrace
  | noMethod =>
    intro inner u hu before rest errors
    refine ⟨errors, fun _ => rfl, ?_⟩
    simpa using untilBrace_stop (funRule_ascending "method") (.inl hu)
  | moreMethods first others ih iho => exact accepted_moreMethods first ih iho

end Accepted

/-! ### Supported sentences -/

theorem wrapFor_eq {init : Option Stmt} {condition step : Option Expr} (hi : ∀ i ∈ init, i.isNull = false)
    (hc : ∀ x ∈ condition, x.isNull = false) (hs : ∀ x ∈ step, x.isNull = false) (body : Stmt) :
    wrapFor (init.getD .null) (condition.getD .null) (step.getD .null) body = forTree init condition step body := by
  cases init <;> cases condition <;> cases step <;> simp_all [wrapFor, forTree, Expr.isNull, Stmt.isNull]

/-- The tree of an expression that may be absent. -/
def clauseTree (e : Option Expression) : Expr := (e.map Phrase.tree).getD .null

theorem clause_legible {e : Option Expression} (he : e.all Phrase.supported = true) : LegibleClause (clauseTokens e) (clauseTree e) := by
  cases e with
  | none => exact .none
  | some e => exact .some (e.legible_tree he)

theorem VarTail.legible {v : VarTail} (hv : v.supported = true) : LegibleVar v.tokens v.tree := by
  obtain ⟨name, init, semicolon⟩ := v
  cases init with
  | none => exact .bare name semicolon
  | some init => exact .init name init.1 (init.2.legible_tree hv) semicolon

theorem ForInit.legible {init : ForInit} (h : init.supported = true) : LegibleInit init.tokens (init.tree.getD .null) := by
  cases init with
  | none semicolon => exact .none semicolon
  | var keyword v => exact .var keyword (v.legible h)
  | expr e semicolon => exact Bool.noConfusion h

namespace Sentence

theorem first_statement {d : Bool} (s : Sentence (.statement d)) : StartsIn statementStarts s.tokens := by
  cases s with
  | print keyword e semicolon => exact startsIn_tok keyword _ (by decide)
  | expr e semicolon =>
    obtain ⟨t, ts, hts, ht⟩ := e.first
    refine StartsIn.append ⟨t, ts, hts, ?_⟩ _
    exact List.mem_append_right _ ht
  | block left inner right => exact startsIn_tok left _ (by decide)
  | ifThen keyword left condition right thenStmt => exact startsIn_tok keyword _ (by decide)
  | ifElse keyword left condition right thenStmt elseKey elseStmt => exact startsIn_tok keyword _ (by decide)
  | whileLoop keyword left condition right body => exact startsIn_tok keyword _ (by decide)
  | forLoop keyword left init condition semicolon step right body => exact startsIn_tok keyword _ (by decide)
  | returns keyword value semicolon => exact startsIn_tok keyword _ (by decide)

theorem first_declaration (s : Sentence .declaration) : StartsIn declarationStarts s.tokens := by
  cases s with
  | ofStatement stmt =>
    obtain ⟨t, ts, hts, ht⟩ := stmt.first_statement
    exact ⟨t, ts, hts, List.mem_append_right _ ht⟩
  | var keyword v => exact startsIn_tok keyword _ (by decide)
  | func keyword f => exact startsIn_tok keyword _ (by decide)
  | cls keyword name super left methods right => cases super <;> exact startsIn_tok keyword _ (by decide)

theorem forTree_isNull (init : Option Stmt) (condition step : Option Expr) (body : Stmt) :
    (forTree init condition step body).isNull = false := by
  cases init <;> rfl

theorem VarTail.tree_isNull (v : VarTail) : v.tree.isNull = false := by
  obtain ⟨name, init, semicolon⟩ := v
  cases init <;> rfl

theorem tree_isNull_statement {d : Bool} (s : Sentence (.statement d)) : s.tree.isNull = false := by
  cases s with
  | forLoop keyword left init condition semicolon step right body => exact forTree_isNull _ _ _ _
  | _ => rfl

theorem tokens_cls {keyword : Tok .classKey} {name : Tok .identifier} {super : Option (Tok .less × Tok .identifier)} {left : Tok .leftBrace}
    {methods : Sentence .methods} {right : Tok .rightBrace} : (cls keyword name super left methods right).tokens =
      keyword.1 :: name.1 :: (superTokens super ++ left.1 :: (methods.tokens ++ [right.1])) := by
  cases super <;> rfl

theorem declarations_head (s : Sentence .declarations) (u : Token) (rest : List Token) :
    ∃ t ts, s.tokens ++ u :: rest = t :: ts ∧ (t = u ∨ t.type ∈ declarationStarts) := by
  cases s with
  | noDeclaration => exact ⟨u, rest, rfl, .inl rfl⟩
  | moreDeclarations first others =>
    obtain ⟨t, ts, hts, ht⟩ := (first.first_declaration.append others.tokens).append (u :: rest)
    exact ⟨t, ts, hts, .inr ht⟩

theorem first_function (f : Sentence .function) : ∃ t ts, f.tokens = t :: ts ∧ t.type = .identifier := by
  cases f with
  | function name left params right leftBrace body rightBrace => exact ⟨name.1, _, rfl, name.2⟩

/-- The parser's loop around the body is the one of the derivation. -/
theorem wrapFor_clauses (init : ForInit) (condition step : Option Expression) (body : Stmt) :
    wrapFor (init.tree.getD .null) (clauseTree condition) (clauseTree step) body =
      forTree init.tree (condition.map Phrase.tree) (step.map Phrase.tree) body := by
  have hclause (e : Option Expression) : ∀ x ∈ e.map Phrase.tree, x.isNull = false := by
    intro x hx
    obtain ⟨p, _, rfl⟩ := Option.mem_map.1 hx
    exact p.tree_isNull
  refine wrapFor_eq ?_ (hclause condition) (hclause step) body
  cases init with
  | none semicolon => exact fun i hi => nomatch hi
  | var keyword v =>
    intro i hi
    obtain rfl := Option.some.inj hi
    exact VarTail.tree_isNull v
  | expr e semicolon =>
    intro i hi
    obtain rfl := Option.some.inj hi
    rfl

/-- One statement or declaration has one tree. -/
def Single : Form → Prop
  | .declarations | .methods => False
  | _ => True

theorem trees_eq {f : Form} (s : Sentence f) (hf : Single f) : s.trees = [s.tree] := by
  induction s with
  | noDeclaration | moreDeclarations | noMethod | moreMethods => exact hf.elim
  | ofStatement stmt ih => exact ih trivial
  | func keyword f ih => exact ih trivial
  | _ => rfl

/-- A supported sentence is read. -/
theorem legible : {f : Form} → (s : Sentence f) → s.supported = true → LegibleForm false f s.tokens s.trees
  | _, .print keyword e semicolon, h => .print keyword (e.legible_tree h) semicolon
  | _, .expr e semicolon, h => .expr (e.legible_tree h) semicolon
  | _, .block left inner right, h => .block left (inner.legible h) right
  | _, .ifThen keyword left condition right thenStmt, h => by
    simp only [supported, Bool.and_eq_true] at h
    exact .ifThen keyword left (condition.legible_tree h.1) right (thenStmt.trees_eq trivial ▸ thenStmt.legible h.2)
  | _, .ifElse keyword left condition right thenStmt elseKey elseStmt, h => by
    simp only [supported, Bool.and_eq_true] at h
    exact .ifElse keyword left (condition.legible_tree h.1.1) right (thenStmt.trees_eq trivial ▸ thenStmt.legible h.1.2) elseKey
      (elseStmt.trees_eq trivial ▸ elseStmt.legible h.2)
  | _, .whileLoop keyword left condition right body, h => by
    simp only [supported, Bool.and_eq_true] at h
    exact .whileLoop keyword left (condition.legible_tree h.1) right (body.trees_eq trivial ▸ body.legible h.2)
  | _, .forLoop keyword left init condition semicolon step right body, h => by
    simp only [supported, Bool.and_eq_true] at h
    have hloop := LegibleForm.forLoop keyword left (init.legible h.1.1.1) (clause_legible h.1.1.2) semicolon (clause_legible h.1.2)
      (fun hq => Bool.noConfusion hq) right (body.trees_eq trivial ▸ body.legible h.2)
    rw [wrapFor_clauses] at hloop
    exact hloop
  | _, .returns keyword value semicolon, h => .returns keyword (clause_legible h) semicolon
  | _, .ofStatement stmt, h => .ofStatement (stmt.legible h)
  | _, .var keyword v, h => .var keyword (v.legible h)
  | _, .func keyword f, h => .func keyword (f.legible h)
  | _, .cls keyword name super left methods right, h => by
    rw [tokens_cls]
    exact .cls keyword name super left (methods.legible h) right
  | _, .noDeclaration, _ => .noDeclaration
  | _, .moreDeclarations first others, h => by
    simp only [supported, Bool.and_eq_true] at h
    exact .moreDeclarations (first.trees_eq trivial ▸ first.legible h.1) (others.legible h.2)
  | _, .function name left params right leftBrace body rightBrace, h =>
    .function name left params.legible (fun hq => Bool.noConfusion hq) right leftBrace (body.legible h) rightBrace
  | _, .noMethod, _ => .noMethod
  | _, .moreMethods first others, h => by
    simp only [supported, Bool.and_eq_true] at h
    exact .moreMethods (first.trees_eq trivial ▸ first.legible h.1) (others.legible h.2)

end Sentence

/-! ### The whole list -/

section Whole

variable {stmts : List Stmt} {outs : Option (List Stmt) × Cursor}

theorem yields_parseLoop : Yields (fun n => parseLoop (n + 1) stmts) c outs ↔ Yields (fun n => parseLoop n stmts) c outs :=
  yields_succ fun _ _ hle => parseLoop_le hle stmts

theorem parseLoop_stop (h : u.type = .endOfFile) :
    Yields (fun n => parseLoop n stmts) ⟨before, u :: rest, errors⟩ (some stmts, ⟨before, u :: rest, errors⟩) := by
  rw [← yields_parseLoop]
  simp only [parseLoop]
  rw [yields_step_iff here_cons]
  simp only [if_pos h]
  exact yields_const.2 rfl

theorem parseLoop_more (h : tkn.type ≠ .endOfFile) :
    Yields (fun n => parseLoop n stmts) ⟨before, tkn :: rest, errors⟩ outs ↔
      ∃ stmt c, Yields declaration ⟨before, tkn :: rest, errors⟩ (stmt, c) ∧
        Yields (fun n => if stmt.isNull then if stmtsDestroy stmts then pure none else fail else parseLoop n (stmts ++ [stmt])) c outs := by
  rw [← yields_parseLoop]
  simp only [parseLoop]
  rw [yields_step_iff here_cons]
  simp only [if_neg h]
  refine yields_bind declaration_ascending ?_
  exact fun stmt n m hle => Le.ite (Le.refl _) (parseLoop_le hle _)

/-- A sequence of declarations up to the end of the file. -/
theorem LegibleForm.parseLoop_reads {quiet : Bool} {f : Form} {ts : List Token} {xs : List Stmt} (h : LegibleForm quiet f ts xs)
    (hf : f = .declarations) (stmts : List Stmt) (hu : u.type = .endOfFile) :
    ReadsUpTo quiet (fun n => parseLoop n stmts) ts (some (stmts ++ xs)) u := by
  induction h generalizing stmts with
  | noDeclaration =>
    intro before rest errors
    refine ⟨errors, fun _ => rfl, ?_⟩
    simpa using parseLoop_stop hu
  | @moreDeclarations ts stmt ts' xs first others _ ih =>
    intro before rest errors
    obtain ⟨f, fs, hfs, hf⟩ := first.first_declaration
    obtain ⟨t, us, hts, ht⟩ := others.declarations_ne_else (u := u) (by rw [hu]; decide) rest
    obtain ⟨errors₁, hquiet₁, hfirst⟩ := first.accepted t ht before us errors
    obtain ⟨errors₂, hquiet₂, hothers⟩ := ih rfl (stmts ++ [stmt]) (ts.reverse ++ before) rest errors₁
    refine ⟨errors₂, fun hq => (hquiet₂ hq).trans (hquiet₁ hq), ?_⟩
    rw [← hts] at hfirst
    have hnull : stmt.isNull = false := first.isNull_declaration
    simp only [List.append_assoc, List.reverse_append, List.cons_append, List.nil_append, List.headD_cons] at hothers hfirst ⊢
    rw [hfs, List.cons_append] at hfirst ⊢
    refine (parseLoop_more (ne_else_of_starts hf).2.2).2 ⟨_, _, hfirst, ?_⟩
    simp only [hnull, Bool.false_eq_true, if_false]
    rw [← hfs]
    exact hothers
  | _ => exact nomatch hf

end Whole

end Reading.Clox.Parse
