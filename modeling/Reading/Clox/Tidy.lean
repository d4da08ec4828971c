import Reading.Clox.Legible
import Reading.Clox.Shape

/-!
# The tokens and the trees of derivations

The tokens of a derivation are tidy, so what the parser returns for them has the shape of its results; and an expression whose tree has that shape is supported. The tree of a supported expression has the size of its tokens.
-/

namespace Reading.Clox.Parse

open Lib Lib.Attempt

/-! ### The tokens of a derivation are tidy -/

section Neat

variable {a b : List Token} {t : Token}

/-- Neighbours may stand together, and the list can be put behind a token other than `this` and in front of one. -/
structure Neat (tokens : List Token) : Prop where
  chain : tokens.IsChain Apart
  first : ∀ t ∈ tokens.head?, t.type ∉ [TokenType.orKey, .andKey, .rightParen]
  last : ∀ t ∈ tokens.getLast?, t.type ∉ [TokenType.orKey, .andKey, .comma]

theorem apart_of_first {u : Token} (ht : t.type ≠ .thisKey) (hu : u.type ∉ [TokenType.orKey, .andKey, .rightParen]) : Apart t u := by
  refine ⟨fun heq hmem => ?_, fun h => hu (by rw [h.2]; decide)⟩
  rw [← heq] at hu
  simp only [List.mem_cons, List.not_mem_nil, or_false, not_or] at hmem hu
  tauto

theorem apart_of_last {u : Token} (ht : t.type ∉ [TokenType.orKey, .andKey, .comma]) (hu : u.type ≠ .thisKey) : Apart t u := by
  refine ⟨fun heq hmem => ?_, fun h => ht (by rw [h.1]; decide)⟩
  rw [← heq] at hu
  simp only [List.mem_cons, List.not_mem_nil, or_false, not_or] at hmem ht
  tauto

theorem neat_nil : Neat [] := ⟨List.IsChain.nil, fun _ h => (nomatch h), fun _ h => nomatch h⟩

theorem neat_singleton (ht : t.type ∉ [TokenType.orKey, .andKey, .rightParen, .comma]) : Neat [t] := by
  simp only [List.mem_cons, List.not_mem_nil, or_false, not_or] at ht
  refine ⟨List.IsChain.singleton t, ?_, ?_⟩ <;>
    · intro u hu
      obtain rfl := Option.some.inj hu
      simp only [List.mem_cons, List.not_mem_nil, or_false, not_or]
      tauto

theorem Neat.append (ha : Neat a) (hb : Neat b) (hne : (∀ t ∈ a.getLast?, t.type ≠ .thisKey) ∨ ∀ t ∈ b.head?, t.type ≠ .thisKey) :
    Neat (a ++ b) := by
  refine ⟨List.isChain_append.2 ⟨ha.chain, hb.chain, fun t ht u hu => ?_⟩, fun t ht => ?_, fun t ht => ?_⟩
  · obtain h | h := hne
    · exact apart_of_first (h t ht) (hb.first u hu)
    · exact apart_of_last (ha.last t ht) (h u hu)
  · cases a with
    | nil => exact hb.first t ht
    | cons s a => exact ha.first t ht
  · cases b with
    | nil => exact ha.last t (by simpa using ht)
    | cons s b => exact hb.last t (by simpa using ht)

/-- Two lists with a token between them. -/
theorem Neat.between (ha : Neat a) (hb : Neat b) (hane : a ≠ []) (hbne : b ≠ []) (ht : t.type ≠ .thisKey) : Neat (a ++ t :: b) := by
  refine ⟨List.isChain_append.2 ⟨ha.chain, ?_, fun s hs u hu => ?_⟩, fun s hs => ha.first s ?_, fun s hs => hb.last s ?_⟩
  · exact List.isChain_cons.2 ⟨fun u hu => apart_of_first ht (hb.first u hu), hb.chain⟩
  · obtain rfl := Option.some.inj hu
    exact apart_of_last (ha.last s hs) ht
  · rwa [List.head?_append_of_ne_nil a hane] at hs
  · rw [List.getLast?_append_of_ne_nil a (List.cons_ne_nil t b)] at hs
    obtain ⟨s', b, rfl⟩ := List.exists_cons_of_ne_nil hbne
    simpa using hs

/-- A closing token. -/
theorem Neat.close (ha : Neat a) (hane : a ≠ []) (ht : t.type ∉ [TokenType.thisKey, .orKey, .andKey, .comma]) : Neat (a ++ [t]) := by
  simp only [List.mem_cons, List.not_mem_nil, or_false, not_or] at ht
  refine ⟨List.isChain_append.2 ⟨ha.chain, List.IsChain.singleton t, fun s hs u hu => ?_⟩, fun s hs => ha.first s ?_, fun s hs => ?_⟩
  · obtain rfl := Option.some.inj hu
    exact apart_of_last (ha.last s hs) ht.1
  · rwa [List.head?_append_of_ne_nil a hane] at hs
  · rw [List.getLast?_append_of_ne_nil a (List.cons_ne_nil t [])] at hs
    obtain rfl := Option.some.inj hs
    simp only [List.mem_cons, List.not_mem_nil, or_false, not_or]
    tauto

/-- A token in front. -/
theorem Neat.cons (hb : Neat b) (ht : t.type ∉ [TokenType.thisKey, .orKey, .andKey, .rightParen, .comma]) : Neat (t :: b) := by
  have hthis : t.type ≠ .thisKey := fun h => ht (by rw [h]; decide)
  have hsingle : Neat [t] := neat_singleton fun h => ht (List.mem_cons_of_mem _ h)
  refine hsingle.append hb (.inl fun s hs => ?_)
  obtain rfl := Option.some.inj hs
  exact hthis

end Neat

namespace Phrase

theorem tokens_ne_nil {k : Level} (p : Phrase k) : p.tokens ≠ [] := by
  obtain ⟨t, ts, hts, -⟩ := p.first
  rw [hts]
  exact List.cons_ne_nil t ts

theorem neat {k : Level} (p : Phrase k) : Neat p.tokens := by
  induction p with
  | literal tkn =>
    have hall : ∀ type ∈ [TokenType.trueKey, .falseKey, .nilKey, .string, .number],
        type ∉ [TokenType.orKey, .andKey, .rightParen, .comma] := by decide
    exact neat_singleton (hall _ tkn.2)
  | var name => exact neat_singleton (by rw [name.2]; decide)
  | grouping left expr right ih => exact (ih.close expr.tokens_ne_nil (by rw [right.2]; decide)).cons (by rw [left.2]; decide)
  | this keyword => exact neat_singleton (by rw [keyword.2]; decide)
  | super keyword dot method =>
    exact ((neat_singleton (by rw [method.2]; decide)).cons (by rw [dot.2]; decide)).cons (by rw [keyword.2]; decide)
  | ofPrimary expr ih | ofCall expr ih | ofOperand b expr ih | ofLogicOperand l expr ih | ofOr expr ih | lastArg expr ih => exact ih
  | callNone callee left paren ih =>
    have h := (ih.close callee.tokens_ne_nil (t := left.1) (by rw [left.2]; decide)).close (by simp) (t := paren.1) (by rw [paren.2]; decide)
    simpa [tokens] using h
  | callSome callee left args paren ih iha =>
    exact ih.between (iha.close args.tokens_ne_nil (by rw [paren.2]; decide)) callee.tokens_ne_nil (by simp) (by rw [left.2]; decide)
  | get object dot name ih =>
    have h := (ih.close object.tokens_ne_nil (t := dot.1) (by rw [dot.2]; decide)).close (by simp) (t := name.1) (by rw [name.2]; decide)
    simpa [tokens] using h
  | moreArgs arg comma args ih iha => exact ih.between iha arg.tokens_ne_nil args.tokens_ne_nil (by rw [comma.2]; decide)
  | unary op expr ih =>
    have hall : ∀ type ∈ [TokenType.minus, .bang], type ∉ [TokenType.thisKey, .orKey, .andKey, .rightParen, .comma] := by decide
    exact ih.cons (hall _ op.2)
  | binary b left op right ih ihr =>
    have hall : ∀ type ∈ b.types, type ≠ .thisKey := by cases b <;> decide
    exact ih.between ihr left.tokens_ne_nil right.tokens_ne_nil (hall _ op.2)
  | logical l left op right ih ihr =>
    exact ih.between ihr left.tokens_ne_nil right.tokens_ne_nil (by rw [op.2]; cases l <;> decide)
  | assign name equals value ih => exact (ih.cons (by rw [equals.2]; decide)).cons (by rw [name.2]; decide)
  | set object dot name equals value ih ihv =>
    exact ih.between ((ihv.cons (by rw [equals.2]; decide)).cons (by rw [name.2]; decide)) object.tokens_ne_nil (by simp)
      (by rw [dot.2]; decide)

end Phrase

/-- A list that ends with a statement. -/
structure Shut (tokens : List Token) : Prop where
  neat : Neat tokens
  last : ∀ t ∈ tokens.getLast?, t.type ≠ .thisKey

section Shut

variable {a b : List Token} {t : Token}

theorem shut_nil : Shut [] := ⟨neat_nil, fun _ h => nomatch h⟩

theorem Shut.append (ha : Shut a) (hb : Shut b) : Shut (a ++ b) := by
  refine ⟨ha.neat.append hb.neat (.inl ha.last), fun t ht => ?_⟩
  cases b with
  | nil => exact ha.last t (by simpa using ht)
  | cons s b => exact hb.last t (by simpa using ht)

/-- What stands in front of a statement. -/
theorem Shut.after (hb : Shut b) (hne : b ≠ []) (h : Neat (a ++ b)) : Shut (a ++ b) := by
  refine ⟨h, fun t ht => hb.last t ?_⟩
  rwa [List.getLast?_append_of_ne_nil a hne] at ht

theorem Shut.cons (hb : Shut b) (ht : t.type ∉ [TokenType.thisKey, .orKey, .andKey, .rightParen, .comma]) : Shut (t :: b) := by
  have hthis : t.type ≠ .thisKey := fun h => ht (by rw [h]; decide)
  refine ⟨hb.neat.cons ht, fun s hs => ?_⟩
  cases b with
  | nil =>
    obtain rfl := Option.some.inj hs
    exact hthis
  | cons u b => exact hb.last s (by simpa using hs)

theorem Neat.shut (ha : Neat a) (ht : t.type ∉ [TokenType.thisKey, .orKey, .andKey, .rightParen, .comma]) : Shut (a ++ [t]) := by
  have hthis : t.type ≠ .thisKey := fun h => ht (by rw [h]; decide)
  have hsingle : Neat [t] := neat_singleton fun h => ht (List.mem_cons_of_mem _ h)
  refine ⟨ha.append hsingle (.inr fun s hs => ?_), fun s hs => ?_⟩
  · obtain rfl := Option.some.inj hs
    exact hthis
  · rw [List.getLast?_append_of_ne_nil a (List.cons_ne_nil t [])] at hs
    obtain rfl := Option.some.inj hs
    exact hthis

end Shut

theorem clauseTokens_neat (e : Option Expression) : Neat (clauseTokens e) := by
  cases e with
  | none => exact neat_nil
  | some e => exact e.neat

theorem VarTail.shut (v : VarTail) : Shut v.tokens := by
  obtain ⟨name, init, semicolon⟩ := v
  cases init with
  | none => exact (neat_singleton (by rw [name.2]; decide)).shut (by rw [semicolon.2]; decide)
  | some init =>
    exact ((init.2.neat.shut (by rw [semicolon.2]; decide)).cons (by rw [init.1.2]; decide)).cons (by rw [name.2]; decide)

theorem ForInit.shut (init : ForInit) : Shut init.tokens := by
  cases init with
  | none semicolon => exact neat_nil.shut (by rw [semicolon.2]; decide)
  | var keyword v => exact v.shut.cons (by rw [keyword.2]; decide)
  | expr e semicolon => exact e.neat.shut (by rw [semicolon.2]; decide)

theorem Params.neat (params : Params) : Neat params.tokens := by
  cases params with
  | none => exact neat_nil
  | some first others =>
    induction others generalizing first with
    | nil => exact neat_singleton (by rw [first.2]; decide)
    | cons other others ih =>
      have hfirst : Neat [first.1] := neat_singleton (by rw [first.2]; decide)
      exact hfirst.between (ih other.2) (by simp) (by simp) (by rw [other.1.2]; decide)

namespace Sentence

/-- A condition in parentheses and the statement behind it. -/
theorem shut_condition {left : Tok .leftParen} {condition : Expression} {right : Tok .rightParen} {body : List Token} (h : Shut body)
    (hne : body ≠ []) : Shut (left.1 :: (condition.tokens ++ right.1 :: body)) := by
  have hneat : Neat (condition.tokens ++ right.1 :: body) :=
    condition.neat.between h.neat condition.tokens_ne_nil hne (by rw [right.2]; decide)
  have hshut : Shut ((condition.tokens ++ [right.1]) ++ body) := h.after hne (by simpa using hneat)
  exact Shut.cons (by simpa using hshut) (by rw [left.2]; decide)

theorem tokens_ne_nil {d : Bool} (s : Sentence (.statement d)) : s.tokens ≠ [] := by
  obtain ⟨t, ts, hts, -⟩ := s.first_statement
  rw [hts]
  exact List.cons_ne_nil t ts

theorem shut {f : Form} (s : Sentence f) : Shut s.tokens := by
  induction s with
  | print keyword e semicolon => exact (e.neat.shut (by rw [semicolon.2]; decide)).cons (by rw [keyword.2]; decide)
  | expr e semicolon => exact e.neat.shut (by rw [semicolon.2]; decide)
  | block left inner right ih => exact (ih.neat.shut (by rw [right.2]; decide)).cons (by rw [left.2]; decide)
  | ifThen keyword left condition right thenStmt ih =>
    exact (shut_condition ih thenStmt.tokens_ne_nil).cons (by rw [keyword.2]; decide)
  | ifElse keyword left condition right thenStmt elseKey elseStmt ih ihe =>
    have hbranches : Shut (thenStmt.tokens ++ elseKey.1 :: elseStmt.tokens) := ih.append (ihe.cons (by rw [elseKey.2]; decide))
    exact (shut_condition hbranches (by simp)).cons (by rw [keyword.2]; decide)
  | whileLoop keyword left condition right body ih => exact (shut_condition ih body.tokens_ne_nil).cons (by rw [keyword.2]; decide)
  | forLoop keyword left init condition semicolon step right body ih =>
    have hstep : Neat (semicolon.1 :: clauseTokens step) := (clauseTokens_neat step).cons (by rw [semicolon.2]; decide)
    have hbody : Neat ((semicolon.1 :: clauseTokens step) ++ right.1 :: body.tokens) :=
      hstep.between ih.neat (by simp) body.tokens_ne_nil (by rw [right.2]; decide)
    have hclauses : Neat (clauseTokens condition ++ ((semicolon.1 :: clauseTokens step) ++ right.1 :: body.tokens)) := by
      refine (clauseTokens_neat condition).append hbody (.inr fun t ht => ?_)
      obtain rfl := Option.some.inj ht
      rw [semicolon.2]
      decide
    have hshut : Shut ((clauseTokens condition ++ (semicolon.1 :: clauseTokens step) ++ [right.1]) ++ body.tokens) :=
      ih.after body.tokens_ne_nil (by simpa using hclauses)
    have hinit := init.shut.append hshut
    exact Shut.cons (Shut.cons (by simpa using hinit) (by rw [left.2]; decide)) (by rw [keyword.2]; decide)
  | returns keyword value semicolon =>
    exact ((clauseTokens_neat value).shut (by rw [semicolon.2]; decide)).cons (by rw [keyword.2]; decide)
  | ofStatement stmt ih => exact ih
  | var keyword v => exact v.shut.cons (by rw [keyword.2]; decide)
  | func keyword f ih => exact ih.cons (by rw [keyword.2]; decide)
  | cls keyword name super left methods right ih =>
    have hbody : Shut (left.1 :: (methods.tokens ++ [right.1])) :=
      (ih.neat.shut (by rw [right.2]; decide)).cons (by rw [left.2]; decide)
    cases super with
    | none => exact (hbody.cons (by rw [name.2]; decide)).cons (by rw [keyword.2]; decide)
    | some s =>
      exact (((hbody.cons (by rw [s.2.2]; decide)).cons (by rw [s.1.2]; decide)).cons (by rw [name.2]; decide)).cons
        (by rw [keyword.2]; decide)
  | noDeclaration | noMethod => exact shut_nil
  | moreDeclarations first others ih iho => exact ih.append iho
  | moreMethods first others ih iho => exact ih.append iho
  | function name left params right leftBrace body rightBrace ih =>
    have hbody : Shut (leftBrace.1 :: (body.tokens ++ [rightBrace.1])) :=
      (ih.neat.shut (by rw [rightBrace.2]; decide)).cons (by rw [leftBrace.2]; decide)
    have hparams : Neat (left.1 :: params.tokens) := params.neat.cons (by rw [left.2]; decide)
    have hneat := hparams.between hbody.neat (by simp) (by simp) (t := right.1) (by rw [right.2]; decide)
    have hshut : Shut ((left.1 :: params.tokens ++ [right.1]) ++ leftBrace.1 :: (body.tokens ++ [rightBrace.1])) :=
      hbody.after (by simp) (by simpa using hneat)
    exact Shut.cons (by simpa using hshut) (by rw [name.2]; decide)

end Sentence

/-! ### The shape and the size of the tree of an expression -/

namespace Phrase

theorem shapes_trees {k : Level} {p : Phrase k} (hk : k ≠ .arguments) : shapes p.trees ↔ p.tree.Shape := by
  rw [p.trees_eq hk]
  exact and_iff_left trivial

theorem isChain_eq_false {l : Logic} {left : Phrase (.logic l)} (h : left.tree.logicType ≠ some l.type) : left.isChain = false := by
  cases left with
  | ofLogicOperand _ expr => rfl
  | logical _ left op right => exact absurd (congrArg some op.2) h

/-- An expression whose tree can be returned is supported. -/
theorem supported_of_shape {k : Level} (p : Phrase k) (h : shapes p.trees) : p.supported = true := by
  induction p with
  | literal tkn => rfl
  | var name => rfl
  | this keyword => exact absurd keyword.2 h.1
  | super keyword dot method => exact h.1.elim
  | grouping left expr right ih => exact ih ((shapes_trees (by decide)).2 h.1)
  | ofPrimary expr ih | ofCall expr ih | ofOperand b expr ih | ofLogicOperand l expr ih | ofOr expr ih => exact ih h
  | callNone callee left paren ih => exact ih ((shapes_trees (by decide)).2 h.1.1)
  | callSome callee left args paren ih iha =>
    simp only [supported, Bool.and_eq_true, decide_eq_true_eq]
    exact ⟨⟨ih ((shapes_trees (by decide)).2 h.1.1), iha h.1.2.1⟩, h.1.2.2⟩
  | get object dot name ih => exact ih ((shapes_trees (by decide)).2 h.1)
  | lastArg arg ih => exact ih ((shapes_trees (by decide)).2 h.1)
  | moreArgs arg comma args ih iha =>
    simp only [supported, Bool.and_eq_true]
    exact ⟨ih ((shapes_trees (by decide)).2 h.1), iha h.2⟩
  | unary op expr ih => exact ih ((shapes_trees (by decide)).2 h.1)
  | binary b left op right ih ihr =>
    simp only [supported, Bool.and_eq_true]
    exact ⟨ih ((shapes_trees (by simp)).2 h.1.1), ihr ((shapes_trees (operand_ne b)).2 h.1.2)⟩
  | logical l left op right ih ihr =>
    obtain ⟨⟨hleft, hright, hne⟩, -⟩ := h
    rw [op.2] at hne
    simp only [supported, Bool.and_eq_true, Bool.not_eq_true']
    exact ⟨⟨isChain_eq_false hne, ih ((shapes_trees (by simp)).2 hleft)⟩, ihr ((shapes_trees (logicOperand_ne l)).2 hright)⟩
  | assign name equals value ih => exact ih ((shapes_trees (by decide)).2 h.1)
  | set object dot name equals value ih ihv =>
    simp only [supported, Bool.and_eq_true]
    exact ⟨ih ((shapes_trees (by decide)).2 h.1.1), ihv ((shapes_trees (by decide)).2 h.1.2)⟩

theorem supported_of_tree {e : Expression} (h : e.tree.Shape) : e.supported = true := e.supported_of_shape ((shapes_trees (by decide)).2 h)

/-- Without `this` and `super` the tree has the size of its tokens, and so have the arguments of a call with a token in front of each. -/
theorem size_eq {k : Level} (p : Phrase k) (h : p.supported = true) : (k ≠ .arguments → p.tree.size = p.tokens.length) ∧
    (k = .arguments → sizes p.trees + p.trees.length = p.tokens.length + 1 ∧ 1 ≤ p.trees.length) := by
  induction p with
  | literal tkn => exact ⟨fun _ => rfl, fun hk => absurd hk (by decide)⟩
  | var name => exact ⟨fun _ => rfl, fun hk => absurd hk (by decide)⟩
  | this keyword | super keyword dot method => exact Bool.noConfusion h
  | grouping left expr right ih =>
    have hexpr := (ih h).1 (by decide)
    exact ⟨fun _ => by simp_all [tree, trees, tokens, Expr.size], fun hk => absurd hk (by decide)⟩
  | ofPrimary expr ih => exact ⟨fun _ => (ih h).1 (by decide), fun hk => absurd hk (by decide)⟩
  | ofCall expr ih => exact ⟨fun _ => (ih h).1 (by decide), fun hk => absurd hk (by decide)⟩
  | ofOperand b expr ih => exact ⟨fun _ => (ih h).1 (operand_ne b), fun hk => absurd hk (by simp)⟩
  | ofLogicOperand l expr ih => exact ⟨fun _ => (ih h).1 (logicOperand_ne l), fun hk => absurd hk (by simp)⟩
  | ofOr expr ih => exact ⟨fun _ => (ih h).1 (by decide), fun hk => absurd hk (by decide)⟩
  | callNone callee left paren ih =>
    have hcallee := (ih h).1 (by decide)
    exact ⟨fun _ => by simp_all [tree, trees, tokens, Expr.size, sizes], fun hk => absurd hk (by decide)⟩
  | callSome callee left args paren ih iha =>
    simp only [supported, Bool.and_eq_true] at h
    have hcallee := (ih h.1.1).1 (by decide)
    obtain ⟨hargs, hpos⟩ := (iha h.1.2).2 rfl
    refine ⟨fun _ => ?_, fun hk => absurd hk (by decide)⟩
    have hsize : (callSome callee left args paren).tree.size = callee.tree.size + sizes args.trees + max args.trees.length 1 + 1 := rfl
    rw [hsize, hcallee]
    simp only [tokens, List.length_append, List.length_cons, List.length_nil]
    omega
  | get object dot name ih =>
    have hobject := (ih h).1 (by decide)
    exact ⟨fun _ => by simp_all [tree, trees, tokens, Expr.size], fun hk => absurd hk (by decide)⟩
  | lastArg arg ih =>
    have harg : arg.tree.size = arg.tokens.length := (ih h).1 (by decide)
    refine ⟨fun hk => absurd rfl hk, fun _ => ⟨?_, le_refl _⟩⟩
    have hsize : sizes (lastArg arg).trees = arg.tree.size + 0 := rfl
    rw [hsize, harg]
    rfl
  | moreArgs arg comma args ih iha =>
    simp only [supported, Bool.and_eq_true] at h
    have harg := (ih h.1).1 (by decide)
    obtain ⟨hargs, -⟩ := (iha h.2).2 rfl
    refine ⟨fun hk => absurd rfl hk, fun _ => ⟨?_, by simp [trees]⟩⟩
    have hsize : sizes (moreArgs arg comma args).trees = arg.tree.size + sizes args.trees := rfl
    rw [hsize, harg]
    simp only [tokens, trees, List.length_append, List.length_cons]
    omega
  | unary op expr ih =>
    have hexpr := (ih h).1 (by decide)
    exact ⟨fun _ => by simp_all [tree, trees, tokens, Expr.size], fun hk => absurd hk (by decide)⟩
  | binary b left op right ih ihr =>
    simp only [supported, Bool.and_eq_true] at h
    have hleft := (ih h.1).1 (by simp)
    have hright := (ihr h.2).1 (operand_ne b)
    refine ⟨fun _ => ?_, fun hk => absurd hk (by simp)⟩
    have hsize : (binary b left op right).tree.size = left.tree.size + right.tree.size + 1 := rfl
    rw [hsize, hleft, hright]
    simp only [tokens, List.length_append, List.length_cons]
    omega
  | logical l left op right ih ihr =>
    simp only [supported, Bool.and_eq_true] at h
    have hleft := (ih h.1.2).1 (by simp)
    have hright := (ihr h.2).1 (logicOperand_ne l)
    refine ⟨fun _ => ?_, fun hk => absurd hk (by simp)⟩
    have hsize : (logical l left op right).tree.size = left.tree.size + right.tree.size + 1 := rfl
    rw [hsize, hleft, hright]
    simp only [tokens, List.length_append, List.length_cons]
    omega
  | assign name equals value ih =>
    have hvalue := (ih h).1 (by decide)
    exact ⟨fun _ => by simp_all [tree, trees, tokens, Expr.size], fun hk => absurd hk (by decide)⟩
  | set object dot name equals value ih ihv =>
    simp only [supported, Bool.and_eq_true] at h
    have hobject := (ih h.1).1 (by decide)
    have hvalue := (ihv h.2).1 (by decide)
    refine ⟨fun _ => ?_, fun hk => absurd hk (by decide)⟩
    have hsize : (set object dot name equals value).tree.size = object.tree.size + value.tree.size + 3 := rfl
    rw [hsize, hobject, hvalue]
    simp only [tokens, List.length_append, List.length_cons]
    omega

end Phrase

end Reading.Clox.Parse
