import Reading.Clox.Tidy

/-!
# When the parser returns the tree of a derivation

When the parser returns the tree of a sequence of declarations, its expressions are supported, because of the shape of what is returned. Then the cursor is where each part of a statement begins, and the part is read as it should be. Only an expression as the first clause of a `for` does not show in the tree: its first token has been passed over, and the tree of the rest is too small.
-/

namespace Reading.Clox.Parse

open Lib Lib.Attempt

theorem tidy_past {before tokens rest : List Token} {errors errors' : List (Token × String)}
    (h : Cursor.Tidy ⟨before, tokens ++ rest, errors⟩) : Cursor.Tidy ⟨tokens.reverse ++ before, rest, errors'⟩ := by
  rw [Cursor.Tidy, List.reverse_append, List.reverse_reverse, List.append_assoc]
  exact h

theorem VarTail.supported_of_shape {v : VarTail} (h : v.tree.Shape) : v.supported = true := by
  obtain ⟨name, init, semicolon⟩ := v
  cases init with
  | none => rfl
  | some init => exact Phrase.supported_of_tree h

theorem clause_supported {e : Option Expression} (h : ∀ x ∈ e.map Phrase.tree, x.Shape) : e.all Phrase.supported = true := by
  cases e with
  | none => rfl
  | some e => exact Phrase.supported_of_tree (h e.tree rfl)

/-- What the shape of a `for` says of its parts. -/
theorem forTree_shape {init : Option Stmt} {condition step : Option Expr} {body : Stmt} (h : (forTree init condition step body).Shape) :
    (∀ i ∈ init, i.Shape) ∧ (∀ x ∈ condition, x.Shape) ∧ (∀ x ∈ step, x.Shape) ∧ body.Shape := by
  cases init <;> cases condition <;> cases step <;> simp_all [forTree, Stmt.Shape, stmtShapes, Expr.Shape]

theorem forTree_body {init : Option Stmt} {condition step : Option Expr} {body body' : Stmt}
    (h : forTree init condition step body = forTree init condition step body') : body = body' := by
  cases init <;> cases step <;> simp_all [forTree]

/-- A `for` with a first clause is a block that begins with it. -/
theorem wrapFor_init {init i : Stmt} {x y : Expr} {condition step : Option Expr} {body body' : Stmt}
    (h : wrapFor init x y body = forTree (some i) condition step body') : init = i := by
  rw [wrapFor] at h
  split at h
  · exact Stmt.noConfusion h
  · exact (List.cons.inj (Stmt.block.inj h)).1

/-- What `for_statement` returns is around the first clause that it has read. -/
theorem forStatement_init {n : Nat} {s : Rule Stmt} {before rest : List Token} {errors : List (Token × String)} {left u : Token}
    {tokens : List Token} {out : Stmt × Cursor} (hleft : left.type = .leftParen)
    (h : forStatement n s ⟨before, left :: (tokens ++ u :: rest), errors⟩ = some out) :
    ∃ init c x y body, forInitializer n ⟨left :: before, tokens ++ u :: rest, errors⟩ = some (init, c) ∧ out.1 = wrapFor init x y body := by
  rw [forStatement, bind_of_eq (consume_append hleft _)] at h
  obtain ⟨init, c, hinit, h⟩ := bind_eq_some.1 h
  obtain ⟨_, _, _, h⟩ := bind_eq_some.1 h
  obtain ⟨x, _, _, h⟩ := bind_eq_some.1 h
  obtain ⟨_, _, _, h⟩ := bind_eq_some.1 h
  obtain ⟨y, _, _, h⟩ := bind_eq_some.1 h
  obtain ⟨_, _, _, h⟩ := bind_eq_some.1 h
  obtain ⟨body, _, _, h⟩ := bind_eq_some.1 h
  exact ⟨init, c, x, y, body, hinit, congrArg Prod.fst (Option.some.inj h).symm⟩

/-- An expression as the first clause is read without its first token. -/
theorem forInitializer_expr {n : Nat} {c : Cursor} {before rest : List Token} {errors : List (Token × String)} {t : Token} {x : Expr}
    (ht : t.type ∈ Level.starts .assignment) (h : forInitializer n ⟨before, t :: rest, errors⟩ = some (.expr x, c)) :
    ∃ c', expression n ⟨t :: before, rest, errors⟩ = some (x, c') := by
  have hne : t.type ≠ .semicolon ∧ t.type ≠ .varKey := by
    have hall : ∀ type ∈ Level.starts .assignment, type ≠ .semicolon ∧ type ≠ .varKey := by decide
    exact hall _ ht
  rw [forInitializer, bind_of_eq here_cons, if_neg hne.1, if_neg hne.2, bind_of_eq advance_cons] at h
  obtain ⟨y, c', hy, h⟩ := bind_eq_some.1 h
  obtain ⟨o, c'', ho, h⟩ := bind_eq_some.1 h
  cases o with
  | none => exact Stmt.noConfusion (congrArg Prod.fst (Option.some.inj h))
  | some _ =>
    obtain rfl := Stmt.expr.inj (congrArg Prod.fst (Option.some.inj h))
    exact ⟨c', hy⟩

/-- Tokens without a semicolon are passed over in front of it. -/
theorem passes_length {c c' : Cursor} {us ts rest : List Token} {semicolon : Token} (h : Passes c us c') (hsemi : semicolon.type = .semicolon)
    (hahead : c.ahead = ts ++ semicolon :: rest) : us.length ≤ ts.length := by
  by_contra hlt
  have heq : ts ++ semicolon :: rest = us ++ c'.ahead := hahead.symm.trans h.ahead
  have hget : (us ++ c'.ahead)[ts.length]? = some semicolon := by
    rw [← heq]
    simp
  rw [List.getElem?_append_left (by omega)] at hget
  exact h.semicolon semicolon (List.mem_of_getElem? hget) hsemi

namespace Sentence

/-- A `for` whose first clause is an expression is never read as it should be. -/
theorem forLoop_expr_ne {keyword : Tok .forKey} {left : Tok .leftParen} {e : Expression} {semicolon : Tok .semicolon} {tokens before : List Token}
    {errors : List (Token × String)} {out : Stmt × Cursor} {condition step : Option Expr} {body : Stmt} (he : e.supported = true)
    (htidy : Cursor.Tidy ⟨before, keyword.1 :: left.1 :: (e.tokens ++ semicolon.1 :: tokens), errors⟩)
    (h : Yields statementRule ⟨before, keyword.1 :: left.1 :: (e.tokens ++ semicolon.1 :: tokens), errors⟩ out) :
    out.1 ≠ forTree (some (.expr e.tree)) condition step body := by
  intro hout
  rw [← yields_statement] at h
  simp only [statement] at h
  rw [yields_step_iff here_cons] at h
  simp only [keyword.2, behind] at h
  rw [yields_step_iff advance_cons] at h
  obtain ⟨n, hn⟩ := h
  obtain ⟨init, c, x, y, body', hinit, hwrap⟩ := forStatement_init left.2 hn
  obtain rfl := wrapFor_init (hwrap.symm.trans hout)
  obtain ⟨t, ts, hts, ht⟩ := e.first
  rw [hts, List.cons_append] at hinit
  obtain ⟨c', hexpr⟩ := forInitializer_expr ht hinit
  -- The tokens of the expression but the first are too few for its tree.
  have hpast : Cursor.Tidy ⟨t :: left.1 :: keyword.1 :: before, ts ++ semicolon.1 :: tokens, errors⟩ := by
    rw [hts] at htidy
    simpa [Cursor.Tidy] using htidy
  obtain ⟨us, hus, hsize, -⟩ := bounded_expression n _ _ _ hpast hexpr
  have hlen : us.length ≤ ts.length := passes_length hus semicolon.2 rfl
  have htree : e.tree.size = ts.length + 1 := by
    rw [(e.size_eq he).1 (by decide), hts]
    rfl
  omega

/-- When the routine returns the tree, the sentence is supported. -/
def Faithful : {f : Form} → Sentence f → Prop
  | .statement d, s => ∀ u before rest errors c, (d = true → u.type ≠ .elseKey) → Cursor.Tidy ⟨before, s.tokens ++ u :: rest, errors⟩ →
    s.tree.Shape → Yields statementRule ⟨before, s.tokens ++ u :: rest, errors⟩ (s.tree, c) → s.supported = true
  | .declaration, s => ∀ u before rest errors c, u.type ≠ .elseKey → Cursor.Tidy ⟨before, s.tokens ++ u :: rest, errors⟩ →
    s.tree.Shape → Yields declaration ⟨before, s.tokens ++ u :: rest, errors⟩ (s.tree, c) → s.supported = true
  | .declarations, s => ∀ inner u before rest errors c, u.type = .rightBrace → Cursor.Tidy ⟨before, s.tokens ++ u :: rest, errors⟩ →
    stmtShapes s.trees → Yields (fun n => untilBrace (declaration n) n inner) ⟨before, s.tokens ++ u :: rest, errors⟩ (inner ++ s.trees, c) →
      s.supported = true
  | .function, s => ∀ kind u before rest errors c, Cursor.Tidy ⟨before, s.tokens ++ u :: rest, errors⟩ →
    s.tree.Shape → Yields (funRule kind) ⟨before, s.tokens ++ u :: rest, errors⟩ (s.tree, c) → s.supported = true
  | .methods, s => ∀ inner u before rest errors c, u.type = .rightBrace → Cursor.Tidy ⟨before, s.tokens ++ u :: rest, errors⟩ →
    stmtShapes s.trees →
      Yields (fun n => untilBrace (funRule "method" n) n inner) ⟨before, s.tokens ++ u :: rest, errors⟩ (inner ++ s.trees, c) →
        s.supported = true

theorem faithful_block {left : Tok .leftBrace} {inner : Sentence .declarations} {right : Tok .rightBrace} (h : inner.Faithful) :
    (block left inner right).Faithful := by
  intro u before rest errors c _ htidy hshape hrun
  simp only [tokens, List.cons_append, List.append_assoc, List.nil_append] at htidy hrun
  obtain ⟨inner', c₁, hinner, t, c', hconsume, hout⟩ := yields_blockRule.1 (yields_block.1 hrun)
  obtain rfl := Stmt.block.inj (congrArg Prod.fst hout)
  exact h [] right.1 (left.1 :: before) (u :: rest) errors c₁ right.2 (by simpa [Cursor.Tidy] using htidy) hshape hinner

theorem faithful_ifThen {d : Bool} {keyword : Tok .ifKey} {left : Tok .leftParen} {condition : Expression} {right : Tok .rightParen}
    {thenStmt : Sentence (.statement d)} (h : thenStmt.Faithful) : (ifThen keyword left condition right thenStmt).Faithful := by
  intro u before rest errors c hu htidy hshape hrun
  obtain ⟨hcshape, htshape, -⟩ := hshape
  have hc : condition.supported = true := Phrase.supported_of_tree hcshape
  simp only [tokens, List.cons_append, List.append_assoc] at htidy hrun
  obtain ⟨stmt, c₁, hthen, elseStmt, c', helse, hout⟩ := (yields_if keyword left (condition.legible_tree hc) right).1 hrun
  obtain ⟨-, rfl, -⟩ := Stmt.ifElse.inj (congrArg Prod.fst hout)
  have hsub := h u _ rest errors c₁ (fun _ => hu rfl) (by simpa [Cursor.Tidy] using htidy) htshape hthen
  simp only [supported, Bool.and_eq_true]
  exact ⟨hc, hsub⟩

theorem faithful_ifElse {d : Bool} {keyword : Tok .ifKey} {left : Tok .leftParen} {condition : Expression} {right : Tok .rightParen}
    {thenStmt : Sentence (.statement false)} {elseKey : Tok .elseKey} {elseStmt : Sentence (.statement d)} (h : thenStmt.Faithful)
    (he : elseStmt.Faithful) : (ifElse keyword left condition right thenStmt elseKey elseStmt).Faithful := by
  intro u before rest errors c hu htidy hshape hrun
  obtain ⟨hcshape, htshape, heshape⟩ := hshape
  have hc : condition.supported = true := Phrase.supported_of_tree hcshape
  simp only [tokens, List.cons_append, List.append_assoc] at htidy hrun
  obtain ⟨stmt, c₁, hthen, stmt', c', helse, hout⟩ := (yields_if keyword left (condition.legible_tree hc) right).1 hrun
  obtain ⟨-, rfl, rfl⟩ := Stmt.ifElse.inj (congrArg Prod.fst hout)
  have hsub := h elseKey.1 _ (elseStmt.tokens ++ u :: rest) errors c₁ (fun hd => Bool.noConfusion hd) (by simpa [Cursor.Tidy] using htidy)
    htshape hthen
  -- The first branch is read, so the cursor is on `else`.
  obtain ⟨errors', -, hread⟩ := (thenStmt.legible hsub).accepted elseKey.1 (fun hd => Bool.noConfusion hd)
    (right.1 :: (condition.tokens.reverse ++ left.1 :: keyword.1 :: before)) (elseStmt.tokens ++ u :: rest) errors
  obtain ⟨-, rfl⟩ := Prod.mk.inj (hthen.unique statementRule_ascending hread)
  have hsub' := he u _ rest errors' c' hu (by simpa [Cursor.Tidy] using htidy) heshape ((yields_else elseKey.2).1 helse)
  simp only [supported, Bool.and_eq_true]
  exact ⟨⟨hc, hsub⟩, hsub'⟩

theorem faithful_whileLoop {d : Bool} {keyword : Tok .whileKey} {left : Tok .leftParen} {condition : Expression} {right : Tok .rightParen}
    {body : Sentence (.statement d)} (h : body.Faithful) : (whileLoop keyword left condition right body).Faithful := by
  intro u before rest errors c hu htidy hshape hrun
  have hc : condition.supported = true := Phrase.supported_of_tree hshape.1
  simp only [tokens, List.cons_append, List.append_assoc] at htidy hrun
  obtain ⟨stmt, c₁, hbody, hout⟩ := (yields_while keyword left (condition.legible_tree hc) right).1 hrun
  obtain ⟨-, rfl⟩ := Stmt.whileStmt.inj (congrArg Prod.fst hout)
  have hsub := h u _ rest errors c₁ hu (by simpa [Cursor.Tidy] using htidy) hshape.2 hbody
  simp only [supported, Bool.and_eq_true]
  exact ⟨hc, hsub⟩

theorem faithful_forLoop {d : Bool} {keyword : Tok .forKey} {left : Tok .leftParen} {init : ForInit} {condition : Option Expression}
    {semicolon : Tok .semicolon} {step : Option Expression} {right : Tok .rightParen} {body : Sentence (.statement d)} (h : body.Faithful) :
    (forLoop keyword left init condition semicolon step right body).Faithful := by
  intro u before rest errors c hu htidy hshape hrun
  obtain ⟨hishape, hcshape, hsshape, hbshape⟩ := forTree_shape hshape
  have hc : condition.all Phrase.supported = true := clause_supported hcshape
  have hs : step.all Phrase.supported = true := clause_supported hsshape
  have hi : init.supported = true := by
    cases init with
    | none semicolon => rfl
    | var keyword v => exact VarTail.supported_of_shape (hishape _ rfl)
    | expr e semicolon' =>
      have he : e.supported = true := Phrase.supported_of_tree (hishape _ rfl)
      simp only [tokens, ForInit.tokens, List.cons_append, List.append_assoc, List.nil_append] at htidy hrun
      exact absurd rfl (forLoop_expr_ne he htidy hrun)
  simp only [tokens, List.cons_append, List.append_assoc] at htidy hrun
  obtain ⟨stmt, c₁, hbody, hout⟩ := (yields_for keyword left (init.legible hi) (clause_legible hc) semicolon (clause_legible hs) right).1 hrun
  have htree : forTree init.tree (condition.map Phrase.tree) (step.map Phrase.tree) body.tree =
      forTree init.tree (condition.map Phrase.tree) (step.map Phrase.tree) stmt :=
    (congrArg Prod.fst hout).trans (wrapFor_clauses init condition step stmt)
  obtain rfl := forTree_body htree
  have hsub := h u _ rest _ c₁ hu (by simpa [Cursor.Tidy] using htidy) hbshape hbody
  simp only [supported, Bool.and_eq_true]
  exact ⟨⟨⟨hi, hc⟩, hs⟩, hsub⟩

theorem faithful_ofStatement {d : Bool} {stmt : Sentence (.statement d)} (h : stmt.Faithful) : (ofStatement stmt).Faithful := by
  intro u before rest errors c hu htidy hshape hrun
  obtain ⟨t, ts, hts, ht⟩ := stmt.first_statement
  refine h u before rest errors c (fun _ => hu) htidy hshape ?_
  have hrun' : Yields declaration ⟨before, stmt.tokens ++ u :: rest, errors⟩ (stmt.tree, c) := hrun
  rw [hts, List.cons_append] at hrun' ⊢
  exact (yields_declaration_statement ht stmt.tree_isNull_statement).1 hrun'

theorem faithful_func {keyword : Tok .funKey} {f : Sentence .function} (h : f.Faithful) : (func keyword f).Faithful := by
  intro u before rest errors c hu htidy hshape hrun
  simp only [tokens, List.cons_append] at htidy hrun
  exact h "function" u _ rest errors c (by simpa [Cursor.Tidy] using htidy) hshape (yields_declaration_fun.1 hrun)

theorem faithful_cls {keyword : Tok .classKey} {name : Tok .identifier} {super : Option (Tok .less × Tok .identifier)}
    {left : Tok .leftBrace} {methods : Sentence .methods} {right : Tok .rightBrace} (h : methods.Faithful) :
    (cls keyword name super left methods right).Faithful := by
  intro u before rest errors c hu htidy hshape hrun
  rw [tokens_cls] at htidy hrun
  simp only [List.cons_append, List.append_assoc, List.nil_append] at htidy hrun
  obtain ⟨inner, c₁, hmethods, t, c', hconsume, hout⟩ := yields_class.1 (yields_declaration_class.1 hrun)
  obtain ⟨-, rfl, -⟩ := Stmt.classStmt.inj (congrArg Prod.fst hout)
  exact h [] right.1 _ (u :: rest) errors c₁ right.2 (by simpa [Cursor.Tidy] using htidy) hshape.1 hmethods

theorem faithful_function {name : Tok .identifier} {left : Tok .leftParen} {params : Params} {right : Tok .rightParen}
    {leftBrace : Tok .leftBrace} {body : Sentence .declarations} {rightBrace : Tok .rightBrace} (h : body.Faithful) :
    (function name left params right leftBrace body rightBrace).Faithful := by
  intro kind u before rest errors c htidy hshape hrun
  obtain ⟨errors', -, hfun⟩ := yields_fun kind name left params.legible right leftBrace fun hq : false = true => Bool.noConfusion hq
  simp only [tokens, List.cons_append, List.append_assoc, List.nil_append] at htidy hrun
  obtain ⟨stmt, c₁, hbody, hout⟩ := (hfun _).1 hrun
  obtain ⟨-, -, rfl⟩ := Stmt.funStmt.inj (congrArg Prod.fst hout)
  obtain ⟨inner, c₂, hinner, t, c', hconsume, hblock⟩ := yields_blockRule.1 hbody
  obtain rfl := Stmt.block.inj (congrArg Prod.fst hblock)
  exact h [] rightBrace.1 _ (u :: rest) errors' c₂ rightBrace.2 (by simpa [Cursor.Tidy] using htidy) hshape hinner

/-- The first of a sequence is the first that was read. -/
theorem untilBrace_first {r : Nat → Rule Stmt} (hr : Ascending r) {inner xs : List Stmt} {x : Stmt} {tkn : Token} {before rest : List Token}
    {errors : List (Token × String)} {c : Cursor} (ht : tkn.type ≠ .rightBrace ∧ tkn.type ≠ .endOfFile)
    (h : Yields (fun n => untilBrace (r n) n inner) ⟨before, tkn :: rest, errors⟩ (inner ++ x :: xs, c)) :
    ∃ c₁, Yields r ⟨before, tkn :: rest, errors⟩ (x, c₁) ∧ Yields (fun n => untilBrace (r n) n (inner ++ [x])) c₁ (inner ++ [x] ++ xs, c) := by
  obtain ⟨stmt, c₁, hfirst, hothers⟩ := (untilBrace_more hr ht).1 h
  obtain ⟨more, hmore⟩ := untilBrace_append hothers
  have hcons : x :: xs = stmt :: more := by
    simpa using hmore
  obtain ⟨rfl, rfl⟩ := List.cons.inj hcons
  refine ⟨c₁, hfirst, ?_⟩
  rw [List.append_assoc]
  exact hothers

theorem ne_else_of_head {u t : Token} (hu : u.type ≠ .elseKey)
    (ht : t = u ∨ t.type ∈ declarationStarts) : t.type ≠ .elseKey := by
  obtain rfl | ht := ht
  · exact hu
  · exact (ne_else_of_starts ht).1

theorem faithful_moreDeclarations {first : Sentence .declaration} {others : Sentence .declarations} (h : first.Faithful)
    (ho : others.Faithful) : (moreDeclarations first others).Faithful := by
  intro inner u before rest errors c hu htidy hshape hrun
  obtain ⟨f, fs, hfs, hf⟩ := first.first_declaration
  obtain ⟨t, ts, hts, ht⟩ := others.declarations_head u rest
  have helse : t.type ≠ .elseKey := ne_else_of_head (by rw [hu]; decide) ht
  simp only [tokens, List.append_assoc] at htidy hrun
  have hsplit : ∃ c₁, Yields declaration ⟨before, first.tokens ++ (others.tokens ++ u :: rest), errors⟩ (first.tree, c₁) ∧
      Yields (fun n => untilBrace (declaration n) n (inner ++ [first.tree])) c₁ (inner ++ [first.tree] ++ others.trees, c) := by
    rw [hfs, List.cons_append] at hrun ⊢
    exact untilBrace_first declaration_ascending (ne_else_of_starts hf).2 hrun
  obtain ⟨c₁, hfirst, hothers⟩ := hsplit
  rw [hts] at hfirst htidy
  have hsub := h t before ts errors c₁ helse htidy hshape.1 hfirst
  -- It is read, so the cursor is on the first token of the next.
  obtain ⟨errors', -, hread⟩ := (first.legible hsub).accepted t helse before ts errors
  obtain ⟨-, rfl⟩ := Prod.mk.inj (hfirst.unique declaration_ascending hread)
  rw [← hts] at hothers htidy
  have hsub' := ho (inner ++ [first.tree]) u _ rest errors' c hu (tidy_past htidy) hshape.2 hothers
  simp only [supported, Bool.and_eq_true]
  exact ⟨hsub, hsub'⟩

theorem faithful_moreMethods {first : Sentence .function} {others : Sentence .methods} (h : first.Faithful) (ho : others.Faithful) :
    (moreMethods first others).Faithful := by
  intro inner u before rest errors c hu htidy hshape hrun
  obtain ⟨f, fs, hfs, hf⟩ := first.first_function
  obtain ⟨t, ts, hts⟩ := append_head others.tokens u rest
  simp only [tokens, List.append_assoc] at htidy hrun
  have hsplit : ∃ c₁, Yields (funRule "method") ⟨before, first.tokens ++ (others.tokens ++ u :: rest), errors⟩ (first.tree, c₁) ∧
      Yields (fun n => untilBrace (funRule "method" n) n (inner ++ [first.tree])) c₁ (inner ++ [first.tree] ++ others.trees, c) := by
    rw [hfs, List.cons_append] at hrun ⊢
    exact untilBrace_first (funRule_ascending "method") (by rw [hf]; decide) hrun
  obtain ⟨c₁, hfirst, hothers⟩ := hsplit
  rw [hts] at hfirst htidy
  have hsub := h "method" t before ts errors c₁ htidy hshape.1 hfirst
  obtain ⟨errors', -, hread⟩ := (first.legible hsub).accepted "method" t before ts errors
  obtain ⟨-, rfl⟩ := Prod.mk.inj (hfirst.unique (funRule_ascending "method") hread)
  rw [← hts] at hothers htidy
  have hsub' := ho (inner ++ [first.tree]) u _ rest errors' c hu (tidy_past htidy) hshape.2 hothers
  simp only [supported, Bool.and_eq_true]
  exact ⟨hsub, hsub'⟩

theorem faithful {f : Form} (s : Sentence f) : s.Faithful := by
  induction s with
  | print keyword e semicolon => exact fun _ _ _ _ _ _ _ hshape _ => Phrase.supported_of_tree hshape
  | expr e semicolon => exact fun _ _ _ _ _ _ _ hshape _ => Phrase.supported_of_tree hshape
  | block left inner right ih => exact faithful_block ih
  | ifThen keyword left condition right thenStmt ih => exact faithful_ifThen ih
  | ifElse keyword left condition right thenStmt elseKey elseStmt ih ihe => exact faithful_ifElse ih ihe
  | whileLoop keyword left condition right body ih => exact faithful_whileLoop ih
  | forLoop keyword left init condition semicolon step right body ih => exact faithful_forLoop ih
  | returns keyword value semicolon =>
    intro _ _ _ _ _ _ _ hshape _
    refine clause_supported fun x hx => ?_
    cases value with
    | none => exact nomatch hx
    | some e =>
      obtain rfl := Option.some.inj hx
      exact hshape
  | ofStatement stmt ih => exact faithful_ofStatement ih
  | var keyword v => exact fun _ _ _ _ _ _ _ hshape _ => VarTail.supported_of_shape hshape
  | func keyword f ih => exact faithful_func ih
  | cls keyword name super left methods right ih => exact faithful_cls ih
  | noDeclaration => exact fun _ _ _ _ _ _ _ _ _ _ => rfl
  | moreDeclarations first others ih iho => exact faithful_moreDeclarations ih iho
  | function name left params right leftBrace body rightBrace ih => exact faithful_function ih
  | noMethod => exact fun _ _ _ _ _ _ _ _ _ _ => rfl
  | moreMethods first others ih iho => exact faithful_moreMethods ih iho

end Sentence

/-! ### The whole list -/

/-- What has been read stays in front. -/
theorem parseLoop_append {n : Nat} {stmts stmts' : List Stmt} {c c' : Cursor} (h : parseLoop n stmts c = some (some stmts', c')) :
    ∃ more, stmts' = stmts ++ more := by
  induction n generalizing stmts c with
  | zero => cases h
  | succ n ih =>
    rw [parseLoop] at h
    obtain ⟨head, c₁, _, h⟩ := bind_eq_some.1 h
    split at h
    · obtain rfl := Option.some.inj (congrArg Prod.fst (Option.some.inj h))
      exact ⟨[], (List.append_nil _).symm⟩
    · obtain ⟨stmt, c₂, _, h⟩ := bind_eq_some.1 h
      split at h
      · split at h
        · cases h
        · cases h
      · obtain ⟨more, hmore⟩ := ih h
        exact ⟨stmt :: more, by rw [hmore, List.append_assoc]; rfl⟩

/-- When the tree of a sequence of declarations is returned, they are supported. -/
theorem Sentence.parseLoop_faithful (s : Sentence .declarations) {stmts : List Stmt} {u : Token} {before rest : List Token}
    {errors : List (Token × String)} {c : Cursor} (hu : u.type = .endOfFile) (htidy : Cursor.Tidy ⟨before, s.tokens ++ u :: rest, errors⟩)
    (hshape : stmtShapes s.trees)
    (hrun : Yields (fun n => parseLoop n stmts) ⟨before, s.tokens ++ u :: rest, errors⟩ (some (stmts ++ s.trees), c)) :
    s.supported = true := by
  cases s with
  | noDeclaration => rfl
  | moreDeclarations first others =>
    obtain ⟨f, fs, hfs, hf⟩ := first.first_declaration
    obtain ⟨t, ts, hts, ht⟩ := others.declarations_head u rest
    have helse : t.type ≠ .elseKey := ne_else_of_head (by rw [hu]; decide) ht
    simp only [tokens, List.append_assoc] at htidy hrun
    have hsplit : ∃ c₁, Yields declaration ⟨before, first.tokens ++ (others.tokens ++ u :: rest), errors⟩ (first.tree, c₁) ∧
        Yields (fun n => parseLoop n (stmts ++ [first.tree])) c₁ (some (stmts ++ [first.tree] ++ others.trees), c) := by
      rw [hfs, List.cons_append] at hrun ⊢
      obtain ⟨stmt, c₁, hfirst, n, hn⟩ := (parseLoop_more (ne_else_of_starts hf).2.2).1 hrun
      split at hn
      · split at hn
        · exact nomatch hn
        · exact nomatch hn
      · obtain ⟨more, hmore⟩ := parseLoop_append hn
        have hcons : first.tree :: others.trees = stmt :: more := by
          simpa [trees, tree] using hmore
        obtain ⟨rfl, -⟩ := List.cons.inj hcons
        refine ⟨c₁, hfirst, n, ?_⟩
        rw [List.append_assoc]
        exact hn
    obtain ⟨c₁, hfirst, hothers⟩ := hsplit
    rw [hts] at hfirst htidy
    have hsub := first.faithful t before ts errors c₁ helse htidy hshape.1 hfirst
    obtain ⟨errors', -, hread⟩ := (first.legible hsub).accepted t helse before ts errors
    obtain ⟨-, rfl⟩ := Prod.mk.inj (hfirst.unique declaration_ascending hread)
    rw [← hts] at hothers htidy
    have hsub' := others.parseLoop_faithful hu (tidy_past htidy) hshape.2 hothers
    simp only [supported, Bool.and_eq_true]
    exact ⟨hsub, hsub'⟩

/-- `parse` returns the tree of the derivation and stops at the end of the file. -/
def ParsesTo (p : Program) (eof : Tok .endOfFile) : Prop :=
  ∃ n c, parse n (p.tokens ++ [eof.1]) = some (some p.trees, c) ∧ c.ahead = [eof.1]

theorem program_tidy (p : Program) (eof : Tok .endOfFile) : Cursor.Tidy ⟨[], p.tokens ++ [eof.1], []⟩ :=
  (p.shut.neat.shut (by rw [eof.2]; decide)).neat.chain

theorem ParsesTo.supported {p : Program} {eof : Tok .endOfFile} (h : ParsesTo p eof) : p.supported = true := by
  obtain ⟨n, c, hrun, -⟩ := h
  have hshape : stmtShapes p.trees := (gives_parseLoop n [] trivial _ _ _ (program_tidy p eof) hrun).2 _ rfl
  exact p.parseLoop_faithful eof.2 (program_tidy p eof) hshape ⟨n, hrun⟩

/-- The parser returns the tree of a derivation, with every token consumed, when it is supported and only then. -/
theorem parse_returns_tree_iff (p : Program) (eof : Tok .endOfFile) : ParsesTo p eof ↔ p.supported = true := by
  constructor
  · exact ParsesTo.supported
  · intro hp
    obtain ⟨errors, -, n, hn⟩ := (p.legible hp).parseLoop_reads rfl [] eof.2 [] [] []
    exact ⟨n, _, hn, rfl⟩

/-- A name as an operand of `or`. -/
def operandOfOr (name : Tok .identifier) : Phrase Logic.or.operand :=
  .ofLogicOperand .and (.ofOperand .equality (.ofOperand .comparison (.ofOperand .addition (.ofOperand .multiplication
    (.ofCall (.ofPrimary (.var name)))))))

/-- `x or x or x;`. -/
def twoOrs : Program :=
  let x : Tok .identifier := ⟨{ type := .identifier, lexeme := ['x'].map fun c => UInt8.ofNat c.toNat }, rfl⟩
  let or : Tok .orKey := ⟨{ type := .orKey }, rfl⟩
  .moreDeclarations (.ofStatement (.expr (.ofOr (.logical .or (.logical .or (.ofLogicOperand .or (operandOfOr x)) or (operandOfOr x)) or
    (operandOfOr x))) ⟨{ type := .semicolon }, rfl⟩)) .noDeclaration

/-- The second `or` is not read: `parse` gives back no statements. -/
theorem parse_twoOrs : ¬(∀ (p : Program) (eof : Tok .endOfFile), ParsesTo p eof) ∧
    (parse 20 (twoOrs.tokens ++ [{ type := .endOfFile }])).map Prod.fst = some none := by
  refine ⟨fun h => ?_, rfl⟩
  have hsupported : twoOrs.supported = true := (h twoOrs ⟨{ type := .endOfFile }, rfl⟩).supported
  exact absurd hsupported (by decide)

end Reading.Clox.Parse
