import Reading.Clox.Descent

/-!
# What the parser reads

Each routine, with the cursor on the first token of an expression of its level that is legible and a token behind it that does not prolong it, returns the tree of the expression and leaves the cursor behind it. A chain of operators is followed from its left end: what the loop does from behind a prefix of the chain is what the routine does from its beginning. The supported phrases of the grammar are legible.
-/

namespace Reading.Clox.Parse

open Lib Lib.Attempt

/-- The types of the tokens that prolong a phrase of the level. -/
def Level.continues : Level → List TokenType
  | .arguments => [.comma]
  | .assignment =>
    [.equal, .orKey, .andKey, .bangEqual, .equalEqual, .greater, .greaterEqual, .less, .lessEqual, .minus, .plus, .slash, .star, .leftParen,
      .dot]
  | .logic .or =>
    [.orKey, .andKey, .bangEqual, .equalEqual, .greater, .greaterEqual, .less, .lessEqual, .minus, .plus, .slash, .star, .leftParen, .dot]
  | .logic .and =>
    [.andKey, .bangEqual, .equalEqual, .greater, .greaterEqual, .less, .lessEqual, .minus, .plus, .slash, .star, .leftParen, .dot]
  | .binary .equality =>
    [.bangEqual, .equalEqual, .greater, .greaterEqual, .less, .lessEqual, .minus, .plus, .slash, .star, .leftParen, .dot]
  | .binary .comparison => [.greater, .greaterEqual, .less, .lessEqual, .minus, .plus, .slash, .star, .leftParen, .dot]
  | .binary .addition => [.minus, .plus, .slash, .star, .leftParen, .dot]
  | .binary .multiplication => [.slash, .star, .leftParen, .dot]
  | .unary | .call => [.leftParen, .dot]
  | .primary => []

theorem continues_binary (b : Binop) : (Level.binary b).continues = b.types ++ b.operand.continues := by
  cases b <;> rfl

theorem continues_logic (l : Logic) : (Level.logic l).continues = l.type :: l.operand.continues := by
  cases l <;> rfl

theorem types_disjoint {b : Binop} {type : TokenType} (h : type ∈ b.types) : type ∉ b.operand.continues := by
  revert type
  cases b <;> decide

theorem type_notMem (l : Logic) : l.type ∉ l.operand.continues := by
  cases l <;> decide

/-- With these tokens and then `u` from the cursor on, the routine returns `a` and passes over the tokens. -/
def Reads {α : Type} (f : Nat → Rule α) (tokens : List Token) (a : α) (u : Token) : Prop :=
  ∀ before rest errors, Yields f ⟨before, tokens ++ u :: rest, errors⟩ (a, ⟨tokens.reverse ++ before, u :: rest, errors⟩)

/-! ### The loops -/

section Loops

variable {before rest : List Token} {errors : List (Token × String)} {tkn u : Token} {x y : Expr} {c : Cursor}

section Binary

variable {r : Nat → Rule Expr} {types : List TokenType} {out : Expr × Cursor}

theorem yields_binaryLoop (hr : Ascending r) :
    Yields (fun n => binaryLoop (r n) types (n + 1) x) c out ↔ Yields (fun n => binaryLoop (r n) types n x) c out :=
  yields_diagonal (F := fun n m => binaryLoop (r n) types m x) fun n n' _ _ hn hm => binaryLoop_le (hr n n' hn) hm x

theorem binaryLoop_stop (hr : Ascending r) (h : u.type ∉ types) :
    Yields (fun n => binaryLoop (r n) types n x) ⟨before, u :: rest, errors⟩ (x, ⟨before, u :: rest, errors⟩) := by
  rw [← yields_binaryLoop hr]
  simp only [binaryLoop]
  rw [yields_step_iff here_cons, yields_step_iff (matchType_neg h)]
  exact yields_const.2 rfl

theorem binaryLoop_next {tokens : List Token} (hr : Ascending r) (h : tkn.type ∈ types)
    (hright : Yields r ⟨tkn :: before, tokens ++ u :: rest, errors⟩ (y, c))
    (hloop : Yields (fun n => binaryLoop (r n) types n (.binary tkn x y)) c out) :
    Yields (fun n => binaryLoop (r n) types n x) ⟨before, tkn :: (tokens ++ u :: rest), errors⟩ out := by
  rw [← yields_binaryLoop hr]
  simp only [binaryLoop]
  rw [yields_step_iff here_cons, yields_step_iff (matchType_pos h)]
  simp only [if_true]
  rw [yields_step_iff previous_append]
  refine (yields_bind hr ?_).2 ⟨y, c, hright, hloop⟩
  exact fun y n m hle => binaryLoop_le (hr n m hle) hle _

end Binary

section Call

variable {out : Expr × Cursor}

theorem yields_callLoop :
    Yields (fun n => callLoop (assignment n) (n + 1) x) c out ↔ Yields (fun n => callLoop (assignment n) n x) c out :=
  yields_diagonal (F := fun n m => callLoop (assignment n) m x) fun n n' _ _ hn hm => callLoop_le (assignment_ascending n n' hn) hm x

theorem callLoop_ascending (x : Expr) : Ascending fun n => callLoop (assignment n) n x :=
  fun n m hle => callLoop_le (assignment_ascending n m hle) hle x

theorem callLoop_stop (h : u.type ∉ Level.call.continues) :
    Yields (fun n => callLoop (assignment n) n x) ⟨before, u :: rest, errors⟩ (x, ⟨before, u :: rest, errors⟩) := by
  simp only [Level.continues, List.mem_cons, List.not_mem_nil, or_false, not_or] at h
  rw [← yields_callLoop]
  simp only [callLoop]
  rw [yields_step_iff here_cons]
  simp only [h.1, h.2, if_false]
  exact yields_const.2 rfl

theorem callLoop_finish (h : u.type = .leftParen)
    (hcall : Yields (fun n => finishCall n (assignment n) x) ⟨before, u :: rest, errors⟩ (y, c))
    (hloop : Yields (fun n => callLoop (assignment n) n y) c out) :
    Yields (fun n => callLoop (assignment n) n x) ⟨before, u :: rest, errors⟩ out := by
  rw [← yields_callLoop]
  simp only [callLoop]
  rw [yields_step_iff here_cons]
  simp only [h, if_true]
  refine (yields_bind ?_ callLoop_ascending).2 ⟨y, c, hcall, hloop⟩
  exact fun n m hle => finishCall_le (assignment_ascending n m hle) hle x

theorem callLoop_get {dot name : Token} (hdot : dot.type = .dot) (hname : name.type = .identifier)
    (hloop : Yields (fun n => callLoop (assignment n) n (.get x name)) ⟨name :: dot :: before, u :: rest, errors⟩ out) :
    Yields (fun n => callLoop (assignment n) n x) ⟨before, dot :: name :: u :: rest, errors⟩ out := by
  have hget : getProperty x ⟨before, dot :: name :: u :: rest, errors⟩ = some (.get x name, ⟨name :: dot :: before, u :: rest, errors⟩) := by
    rw [getProperty, bind_of_eq advance_cons, bind_of_eq (consume_pos hname _)]
    rfl
  rw [← yields_callLoop]
  simp only [callLoop]
  rw [yields_step_iff here_cons]
  simp only [hdot, reduceCtorEq, if_true, if_false]
  rw [yields_step_iff hget]
  exact hloop

end Call

section Args

variable {callee arg : Expr} {args : List Expr} {out : Option (List Expr) × Cursor}

theorem yields_argsLoop : Yields (fun n => argsLoop (assignment n) callee (n + 1) args arg) c out ↔
    Yields (fun n => argsLoop (assignment n) callee n args arg) c out :=
  yields_diagonal (F := fun n m => argsLoop (assignment n) callee m args arg) fun n n' _ _ hn hm =>
    argsLoop_le (assignment_ascending n n' hn) hm callee args arg

theorem argsLoop_ascending (args : List Expr) (arg : Expr) : Ascending fun n => argsLoop (assignment n) callee n args arg :=
  fun n m hle => argsLoop_le (assignment_ascending n m hle) hle callee args arg

/-- One round: an argument is read and pushed, and the loop goes on when there is a comma behind it. -/
theorem argsLoop_round {first : Token} (hfirst : first.type ≠ .rightParen) (hroom : args.length ≤ maxArgs)
    (harg : Yields assignment ⟨tkn :: before, first :: rest, errors⟩ (x, c)) (hx : x.isNull = false) (hhere : here c = some (u, c)) :
    Yields (fun n => argsLoop (assignment n) callee n args arg) ⟨before, tkn :: first :: rest, errors⟩ out ↔
      Yields (fun n => if u.type = .comma then argsLoop (assignment n) callee n (args ++ [x]) x else pure (some (args ++ [x]))) c out := by
  rw [← yields_argsLoop]
  simp only [argsLoop]
  rw [yields_step_iff advance_cons, yields_step_iff here_cons]
  simp only [if_neg (Nat.not_lt.2 hroom), nextArg, if_neg hfirst]
  rw [yields_bind_iff assignment_ascending ?_ harg, yields_step_iff hhere]
  · simp only [pushArg, hx, Bool.false_eq_true, if_false]
  · exact fun arg n m hle => (Le.refl _).bind fun tkn => Le.ite (argsLoop_ascending _ _ n m hle) (Le.refl _)

/-- A call without arguments. -/
theorem argsLoop_none {paren : Token} (hparen : paren.type = .rightParen) :
    Yields (fun n => argsLoop (assignment n) callee n [] .null) ⟨before, tkn :: paren :: rest, errors⟩
      (some [], ⟨tkn :: before, paren :: rest, errors⟩) := by
  rw [← yields_argsLoop]
  simp only [argsLoop]
  rw [yields_step_iff advance_cons, yields_step_iff here_cons]
  simp only [List.length_nil, Nat.not_lt_zero, if_false, nextArg, hparen, if_true]
  rw [yields_step_iff (pure_apply _ _), yields_step_iff here_cons]
  simp only [hparen, reduceCtorEq, if_false]
  exact yields_const.2 rfl

/-- The call is closed behind its arguments. -/
theorem finishCall_of_args {paren : Token} (hparen : paren.type = .rightParen)
    (hargs : Yields (fun n => argsLoop (assignment n) callee n [] .null) c (some args, ⟨before, paren :: u :: rest, errors⟩)) :
    Yields (fun n => finishCall n (assignment n) callee) c (.call callee paren args, ⟨paren :: before, u :: rest, errors⟩) := by
  simp only [finishCall]
  rw [yields_bind_iff (argsLoop_ascending _ _) (fun _ => ascending_const _) hargs]
  dsimp only
  rw [yields_step_iff (consume_pos hparen _)]
  exact yields_const.2 rfl

end Args

section Logic

variable {r : Nat → Rule Expr} {type : TokenType} {out : Expr × Cursor}

theorem yields_logicLoop (hr : Ascending r) :
    Yields (fun n => logicLoop (r n) type (n + 1) tkn x) c out ↔ Yields (fun n => logicLoop (r n) type n tkn x) c out :=
  yields_diagonal (F := fun n m => logicLoop (r n) type m tkn x) fun n n' _ _ hn hm => logicLoop_le (hr n n' hn) hm tkn x

theorem logicLoop_stop (hr : Ascending r) (h : tkn.type ≠ type) : Yields (fun n => logicLoop (r n) type n tkn x) c (x, c) := by
  rw [← yields_logicLoop hr]
  simp only [logicLoop, if_neg h]
  exact yields_const.2 rfl

/-- One round. The token behind the operator decides whether there is another one. -/
theorem logicLoop_round (hr : Ascending r) (h : tkn.type = type) (hright : Yields r ⟨tkn :: before, u :: rest, errors⟩ (y, c)) :
    Yields (fun n => logicLoop (r n) type n tkn x) ⟨before, tkn :: u :: rest, errors⟩ out ↔
      Yields (fun n => logicLoop (r n) type n u (.logical x tkn y)) c out := by
  rw [← yields_logicLoop hr]
  simp only [logicLoop, if_pos h]
  rw [yields_step_iff here_cons, yields_step_iff advance_cons, yields_step_iff here_cons]
  refine yields_bind_iff hr ?_ hright
  exact fun y n m hle => logicLoop_le (hr n m hle) hle _ _

end Logic

end Loops

/-! ### The first token of a phrase -/

/-- The types of the first tokens of the phrases of a level. -/
def Level.starts : Level → List TokenType
  | .primary | .call => [.trueKey, .falseKey, .nilKey, .string, .number, .leftParen, .superKey, .thisKey, .identifier]
  | _ => [.trueKey, .falseKey, .nilKey, .string, .number, .leftParen, .superKey, .thisKey, .identifier, .minus, .bang]

theorem starts_subset (k : Level) {type : TokenType} (h : type ∈ k.starts) : type ∈ Level.starts .assignment := by
  cases k with
  | primary | call => exact List.mem_append_left [.minus, .bang] h
  | _ => exact h

/-- The list has a first token, and its type is one of these. -/
def StartsIn (types : List TokenType) (tokens : List Token) : Prop := ∃ t ts, tokens = t :: ts ∧ t.type ∈ types

theorem StartsIn.append {types : List TokenType} {tokens : List Token} (h : StartsIn types tokens) (others : List Token) :
    StartsIn types (tokens ++ others) := by
  obtain ⟨t, ts, rfl, ht⟩ := h
  exact ⟨t, ts ++ others, rfl, ht⟩

theorem startsIn_cons {types : List TokenType} {t : Token} (ts : List Token) (h : t.type ∈ types) : StartsIn types (t :: ts) := ⟨t, ts, rfl, h⟩

theorem startsIn_tok {types : List TokenType} {type : TokenType} (t : Tok type) (ts : List Token) (h : type ∈ types) :
    StartsIn types (t.1 :: ts) := startsIn_cons ts (t.2.symm ▸ h)

theorem StartsIn.up {k : Level} {tokens : List Token} (h : StartsIn k.starts tokens) : StartsIn (Level.starts .assignment) tokens := by
  obtain ⟨t, ts, rfl, ht⟩ := h
  exact startsIn_cons ts (starts_subset k ht)

theorem operand_ne (b : Binop) : b.operand ≠ .arguments := by
  cases b <;> decide

theorem logicOperand_ne (l : Logic) : l.operand ≠ .arguments := by
  cases l <;> decide

namespace Phrase

theorem first {k : Level} (p : Phrase k) : StartsIn k.starts p.tokens := by
  induction p with
  | literal tkn =>
    have hall : ∀ type ∈ [TokenType.trueKey, .falseKey, .nilKey, .string, .number], type ∈ Level.starts .primary := by decide
    exact startsIn_cons [] (hall _ tkn.2)
  | var name => exact startsIn_tok name _ (by decide)
  | grouping left expr right => exact startsIn_tok left _ (by decide)
  | this keyword => exact startsIn_tok keyword _ (by decide)
  | super keyword dot method => exact startsIn_tok keyword _ (by decide)
  | ofPrimary expr ih => exact ih
  | callNone callee left paren ih => exact ih.append _
  | callSome callee left args paren ih _ => exact ih.append _
  | get object dot name ih => exact ih.append _
  | lastArg arg ih => exact ih
  | moreArgs arg comma args ih _ => exact ih.append _
  | ofCall expr ih => exact ih.up
  | unary op expr =>
    have hall : ∀ type ∈ [TokenType.minus, .bang], type ∈ Level.starts .unary := by decide
    exact startsIn_cons _ (hall _ op.2)
  | ofOperand b expr ih => exact ih.up
  | binary b left op right ih _ => exact ih.append _
  | ofLogicOperand l expr ih => exact ih.up
  | logical l left op right ih _ => exact ih.append _
  | ofOr expr ih => exact ih
  | assign name equals value => exact startsIn_tok name _ (by decide)
  | set object dot name equals value ih _ => exact ih.up.append _

theorem tree_isNull {k : Level} (p : Phrase k) : p.tree.isNull = false := by
  induction p with
  | ofPrimary expr ih | ofCall expr ih | ofOperand b expr ih | ofLogicOperand l expr ih | ofOr expr ih | lastArg expr ih => exact ih
  | moreArgs arg comma args ih _ => exact ih
  | _ => rfl

theorem trees_eq {k : Level} (p : Phrase k) (hk : k ≠ .arguments) : p.trees = [p.tree] := by
  induction p with
  | lastArg | moreArgs => exact absurd rfl hk
  | ofPrimary expr ih | ofCall expr ih | ofOr expr ih => exact ih (by decide)
  | ofOperand b expr ih => exact ih (operand_ne b)
  | ofLogicOperand l expr ih => exact ih (logicOperand_ne l)
  | _ => rfl

end Phrase

/-! ### Expressions that are read -/

/-- The expressions that the parser reads without an error, with their trees; the same for the arguments of a call. There is no `this` and no `super` in them, at most one `or` in a row and at most one `and`, and a call has at most nine arguments. A comma behind the last argument is read as the argument once more. -/
inductive Legible : Level → List Token → List Expr → Prop
  | literal (tkn : OneOf [.trueKey, .falseKey, .nilKey, .string, .number]) :
      Legible .primary [tkn.1] [.literal (Phrase.literalTree tkn.1)]
  | var (name : Tok .identifier) : Legible .primary [name.1] [.var name.1]
  | grouping {ts x} (left : Tok .leftParen) (expr : Legible .assignment ts [x]) (right : Tok .rightParen) :
      Legible .primary (left.1 :: (ts ++ [right.1])) [.grouping x]
  | ofPrimary {ts xs} (expr : Legible .primary ts xs) : Legible .call ts xs
  | callNone {ts x} (callee : Legible .call ts [x]) (left : Tok .leftParen) (paren : Tok .rightParen) :
      Legible .call (ts ++ [left.1, paren.1]) [.call x paren.1 []]
  | callSome {ts x ts' xs} (callee : Legible .call ts [x]) (left : Tok .leftParen) (args : Legible .arguments ts' xs)
      (paren : Tok .rightParen) (room : xs.length ≤ maxArgs + 1) : Legible .call (ts ++ left.1 :: (ts' ++ [paren.1])) [.call x paren.1 xs]
  | get {ts x} (object : Legible .call ts [x]) (dot : Tok .dot) (name : Tok .identifier) :
      Legible .call (ts ++ [dot.1, name.1]) [.get x name.1]
  | lastArg {ts x} (arg : Legible .assignment ts [x]) : Legible .arguments ts [x]
  | lastComma {ts x} (arg : Legible .assignment ts [x]) (comma : Tok .comma) : Legible .arguments (ts ++ [comma.1]) [x, x]
  | moreArgs {ts x ts' xs} (arg : Legible .assignment ts [x]) (comma : Tok .comma) (args : Legible .arguments ts' xs) :
      Legible .arguments (ts ++ comma.1 :: ts') (x :: xs)
  | ofCall {ts xs} (expr : Legible .call ts xs) : Legible .unary ts xs
  | unary {ts x} (op : OneOf [.minus, .bang]) (expr : Legible .unary ts [x]) : Legible .unary (op.1 :: ts) [.unary op.1 x]
  | ofOperand {ts xs} (b : Binop) (expr : Legible b.operand ts xs) : Legible (.binary b) ts xs
  | binary {ts x ts' y} (b : Binop) (left : Legible (.binary b) ts [x]) (op : OneOf b.types) (right : Legible b.operand ts' [y]) :
      Legible (.binary b) (ts ++ op.1 :: ts') [.binary op.1 x y]
  | ofLogicOperand {ts xs} (l : Logic) (expr : Legible l.operand ts xs) : Legible (.logic l) ts xs
  | logical {ts x ts' y} (l : Logic) (left : Legible l.operand ts [x]) (op : Tok l.type) (right : Legible l.operand ts' [y]) :
      Legible (.logic l) (ts ++ op.1 :: ts') [.logical x op.1 y]
  | ofOr {ts xs} (expr : Legible (.logic .or) ts xs) : Legible .assignment ts xs
  | assign {ts y} (name : Tok .identifier) (equals : Tok .equal) (value : Legible .assignment ts [y]) :
      Legible .assignment (name.1 :: equals.1 :: ts) [.assignment name.1 y]
  | set {ts x ts' y} (object : Legible .call ts [x]) (dot : Tok .dot) (name : Tok .identifier) (equals : Tok .equal)
      (value : Legible .assignment ts' [y]) : Legible .assignment (ts ++ dot.1 :: name.1 :: equals.1 :: ts') [.set x name.1 y]

/-- A supported phrase is one of them. -/
theorem Phrase.legible : {k : Level} → (p : Phrase k) → p.supported = true → Legible k p.tokens p.trees
  | _, .literal tkn, _ => .literal tkn
  | _, .var name, _ => .var name
  | _, .grouping left expr right, h => .grouping left (expr.trees_eq (by decide) ▸ expr.legible h) right
  | _, .ofPrimary expr, h => .ofPrimary (expr.legible h)
  | _, .callNone callee left paren, h => .callNone (callee.trees_eq (by decide) ▸ callee.legible h) left paren
  | _, .callSome callee left args paren, h => by
    simp only [supported, Bool.and_eq_true, decide_eq_true_eq] at h
    exact .callSome (callee.trees_eq (by decide) ▸ callee.legible h.1.1) left (args.legible h.1.2) paren h.2
  | _, .get object dot name, h => .get (object.trees_eq (by decide) ▸ object.legible h) dot name
  | _, .lastArg arg, h => .lastArg (arg.trees_eq (by decide) ▸ arg.legible h)
  | _, .moreArgs arg comma args, h => by
    simp only [supported, Bool.and_eq_true] at h
    exact .moreArgs (arg.trees_eq (by decide) ▸ arg.legible h.1) comma (args.legible h.2)
  | _, .ofCall expr, h => .ofCall (expr.legible h)
  | _, .unary op expr, h => .unary op (expr.trees_eq (by decide) ▸ expr.legible h)
  | _, .ofOperand b expr, h => .ofOperand b (expr.legible h)
  | _, .binary b left op right, h => by
    simp only [supported, Bool.and_eq_true] at h
    exact .binary b (left.trees_eq nofun ▸ left.legible h.1) op (right.trees_eq (operand_ne b) ▸ right.legible h.2)
  | _, .ofLogicOperand l expr, h => .ofLogicOperand l (expr.legible h)
  | _, .logical l (.ofLogicOperand _ left) op right, h => by
    simp only [supported, isChain, Bool.and_eq_true] at h
    exact .logical l (left.trees_eq (logicOperand_ne l) ▸ left.legible h.1.2) op (right.trees_eq (logicOperand_ne l) ▸ right.legible h.2)
  | _, .ofOr expr, h => .ofOr (expr.legible h)
  | _, .assign name equals value, h => .assign name equals (value.trees_eq (by decide) ▸ value.legible h)
  | _, .set object dot name equals value, h => by
    simp only [supported, Bool.and_eq_true] at h
    exact .set (object.trees_eq (by decide) ▸ object.legible h.1) dot name equals (value.trees_eq (by decide) ▸ value.legible h.2)

theorem Phrase.legible_tree (e : Expression) (h : e.supported = true) : Legible .assignment e.tokens [e.tree] :=
  e.trees_eq (by decide) ▸ e.legible h

section Legible

variable {k : Level} {ts ts' : List Token} {xs : List Expr} {x y : Expr} {u : Token}

/-- It begins as the phrases of its level do. -/
theorem Legible.first (h : Legible k ts xs) : StartsIn k.starts ts := by
  induction h with
  | literal tkn =>
    have hall : ∀ type ∈ [TokenType.trueKey, .falseKey, .nilKey, .string, .number], type ∈ Level.starts .primary := by decide
    exact startsIn_cons [] (hall _ tkn.2)
  | var name => exact startsIn_tok name _ (by decide)
  | grouping left expr right => exact startsIn_tok left _ (by decide)
  | ofPrimary expr ih => exact ih
  | callNone callee left paren ih => exact ih.append _
  | callSome callee left args paren room ih _ => exact ih.append _
  | get object dot name ih => exact ih.append _
  | lastArg arg ih => exact ih
  | lastComma arg comma ih => exact ih.append _
  | moreArgs arg comma args ih _ => exact ih.append _
  | ofCall expr ih => exact ih.up
  | unary op expr =>
    have hall : ∀ type ∈ [TokenType.minus, .bang], type ∈ Level.starts .unary := by decide
    exact startsIn_cons _ (hall _ op.2)
  | ofOperand b expr ih => exact ih.up
  | binary b left op right ih _ => exact ih.append _
  | ofLogicOperand l expr ih => exact ih.up
  | logical l left op right ih _ => exact ih.up.append _
  | ofOr expr ih => exact ih
  | assign name equals value => exact startsIn_tok name _ (by decide)
  | set object dot name equals value ih _ => exact ih.up.append _

theorem Legible.isNull (h : Legible k ts xs) : (xs.headD .null).isNull = false := by
  induction h with
  | ofPrimary expr ih | ofCall expr ih | ofOperand b expr ih | ofLogicOperand l expr ih | ofOr expr ih => exact ih
  | lastArg arg ih | lastComma arg comma ih | moreArgs arg comma args ih _ => exact ih
  | _ => rfl

/-- The routine reads the expression. For the levels with a loop this is said of the loop behind the expression. -/
def Recognized : Level → List Token → List Expr → Prop
  | .arguments, ts, xs => ∀ callee args arg tkn u, args.length + xs.length ≤ maxArgs + 1 → u.type = .rightParen →
    Reads (fun n => argsLoop (assignment n) callee n args arg) (tkn :: ts) (some (args ++ xs)) u
  | .call, ts, xs => ∀ u before rest errors out,
    Yields (fun n => callLoop (assignment n) n (xs.headD .null)) ⟨ts.reverse ++ before, u :: rest, errors⟩ out →
      Yields (ruleOf .call) ⟨before, ts ++ u :: rest, errors⟩ out
  | .binary b, ts, xs => ∀ u before rest errors out, u.type ∉ b.operand.continues →
    Yields (fun n => binaryLoop (ruleOf b.operand n) b.types n (xs.headD .null)) ⟨ts.reverse ++ before, u :: rest, errors⟩ out →
      Yields (ruleOf (.binary b)) ⟨before, ts ++ u :: rest, errors⟩ out
  | k, ts, xs => ∀ u, u.type ∉ k.continues → Reads (ruleOf k) ts (xs.headD .null) u

theorem Recognized.reads (h : Recognized k ts xs) (hk : k ≠ .arguments) (hu : u.type ∉ k.continues) :
    Reads (ruleOf k) ts (xs.headD .null) u := by
  cases k with
  | arguments => exact absurd rfl hk
  | assignment | unary | primary | logic => exact h u hu
  | call => exact fun before rest errors => h u before rest errors _ (callLoop_stop hu)
  | binary b =>
    rw [continues_binary, List.mem_append, not_or] at hu
    exact fun before rest errors => h u before rest errors _ hu.2 (binaryLoop_stop (operand_ascending b) hu.1)

theorem recognized_literal (tkn : OneOf [.trueKey, .falseKey, .nilKey, .string, .number]) :
    Recognized .primary [tkn.1] [.literal (Phrase.literalTree tkn.1)] := by
  intro u _ before rest errors
  obtain ⟨tkn, h⟩ := tkn
  change Yields (fun n => primary (assignment n)) _ _
  simp only [primary, List.cons_append, List.nil_append]
  rw [yields_step_iff here_cons]
  simp only [List.mem_cons, List.not_mem_nil, or_false] at h
  rcases h with h | h | h | h | h <;> simp only [h, Phrase.literalTree] <;> exact yields_const.2 rfl

theorem recognized_var (name : Tok .identifier) : Recognized .primary [name.1] [.var name.1] := by
  intro u _ before rest errors
  change Yields (fun n => primary (assignment n)) _ _
  simp only [primary, List.cons_append, List.nil_append]
  rw [yields_step_iff here_cons]
  simp only [name.2]
  exact yields_const.2 rfl

theorem recognized_grouping (left : Tok .leftParen) (h : Recognized .assignment ts [x]) (right : Tok .rightParen) :
    Recognized .primary (left.1 :: (ts ++ [right.1])) [.grouping x] := by
  intro u _ before rest errors
  have hexpr := h right.1 (by rw [right.2]; decide) (left.1 :: before) (u :: rest) errors
  simp only [List.reverse_cons, List.reverse_append, List.cons_append, List.append_assoc, List.nil_append, List.reverse_nil]
  change Yields (fun n => primary (assignment n)) _ _
  simp only [primary]
  rw [yields_step_iff here_cons]
  simp only [left.2, grouping]
  rw [yields_step_iff advance_cons, yields_bind_iff assignment_ascending (fun _ => ascending_const _) hexpr]
  rw [yields_step_iff (consume_pos right.2 _)]
  exact yields_const.2 rfl

theorem recognized_ofPrimary (h : Recognized .primary ts xs) : Recognized .call ts xs := by
  intro u before rest errors out hloop
  exact (yields_bind primary_ascending callLoop_ascending).2 ⟨_, _, h u List.not_mem_nil before rest errors, hloop⟩

theorem recognized_callNone (h : Recognized .call ts [x]) (left : Tok .leftParen) (paren : Tok .rightParen) :
    Recognized .call (ts ++ [left.1, paren.1]) [.call x paren.1 []] := by
  intro u before rest errors out hloop
  simp only [List.reverse_append, List.reverse_cons, List.reverse_nil, List.nil_append, List.cons_append, List.append_assoc] at hloop ⊢
  apply h left.1 before _ errors out
  exact callLoop_finish left.2 (finishCall_of_args paren.2 (argsLoop_none paren.2)) hloop

theorem recognized_callSome (h : Recognized .call ts [x]) (left : Tok .leftParen) (hargs : Recognized .arguments ts' xs)
    (paren : Tok .rightParen) (hroom : xs.length ≤ maxArgs + 1) :
    Recognized .call (ts ++ left.1 :: (ts' ++ [paren.1])) [.call x paren.1 xs] := by
  intro u before rest errors out hloop
  have hread := hargs x [] .null left.1 paren.1 (by simpa using hroom) paren.2 (ts.reverse ++ before) (u :: rest) errors
  simp only [List.reverse_append, List.reverse_cons, List.reverse_nil, List.nil_append, List.cons_append, List.append_assoc] at hloop hread ⊢
  apply h left.1 before _ errors out
  exact callLoop_finish left.2 (finishCall_of_args paren.2 hread) hloop

theorem recognized_get (h : Recognized .call ts [x]) (dot : Tok .dot) (name : Tok .identifier) :
    Recognized .call (ts ++ [dot.1, name.1]) [.get x name.1] := by
  intro u before rest errors out hloop
  simp only [List.reverse_append, List.reverse_cons, List.reverse_nil, List.nil_append, List.cons_append, List.append_assoc] at hloop ⊢
  apply h dot.1 before _ errors out
  exact callLoop_get dot.2 name.2 hloop

theorem yields_unary {c : Cursor} {out : Expr × Cursor} :
    Yields (fun n => unary (assignment n) (n + 1)) c out ↔ Yields (ruleOf .unary) c out :=
  yields_diagonal (F := fun n m => unary (assignment n) m) fun n n' _ _ hn hm => unary_le (assignment_ascending n n' hn) hm

theorem recognized_ofCall (hexpr : Legible .call ts xs) (h : Recognized .call ts xs) : Recognized .unary ts xs := by
  intro u hu before rest errors
  obtain ⟨t, ts, rfl, ht⟩ := hexpr.first
  have hnot : t.type ∉ [TokenType.minus, .bang] := by
    have hall : ∀ type ∈ Level.starts .call, type ∉ [TokenType.minus, .bang] := by decide
    exact hall _ ht
  have hcall := h.reads (by decide) hu before rest errors
  rw [← yields_unary]
  simp only [unary, List.cons_append] at hcall ⊢
  rw [yields_step_iff here_cons, yields_step_iff (matchType_neg hnot)]
  exact hcall

theorem recognized_unary (op : OneOf [.minus, .bang]) (h : Recognized .unary ts [x]) : Recognized .unary (op.1 :: ts) [.unary op.1 x] := by
  intro u hu before rest errors
  have hexpr := h u hu (op.1 :: before) rest errors
  rw [← yields_unary]
  simp only [unary, List.cons_append]
  rw [yields_step_iff here_cons, yields_step_iff (matchType_pos op.2)]
  simp only [if_true]
  rw [yields_step_iff previous_append]
  refine (yields_bind_iff unary_ascending (fun _ => ascending_const _) hexpr).2 (yields_const.2 ?_)
  simp

theorem recognized_ofOperand (b : Binop) (h : Recognized b.operand ts xs) : Recognized (.binary b) ts xs := by
  intro u before rest errors out hu hloop
  simp only [funext (rule_binary b)]
  refine (yields_bind (operand_ascending b) ?_).2 ⟨_, _, h.reads (operand_ne b) hu before rest errors, hloop⟩
  exact fun x n m hle => binaryLoop_le (operand_ascending b n m hle) hle x

theorem recognized_binary (b : Binop) (h : Recognized (.binary b) ts [x]) (op : OneOf b.types) (hright : Recognized b.operand ts' [y]) :
    Recognized (.binary b) (ts ++ op.1 :: ts') [.binary op.1 x y] := by
  intro u before rest errors out hu hloop
  have hread := hright.reads (operand_ne b) hu (op.1 :: (ts.reverse ++ before)) rest errors
  simp only [List.reverse_append, List.reverse_cons, List.append_assoc, List.cons_append, List.nil_append] at hloop ⊢
  apply h op.1 before _ errors out (types_disjoint op.2)
  exact binaryLoop_next (operand_ascending b) op.2 hread hloop

theorem logicRule_ascending {l : Logic} (x : Expr) :
    Ascending fun n => here >>= fun tkn => logicLoop (ruleOf l.operand n) l.type n tkn x :=
  fun n m hle => (Le.refl _).bind fun tkn => logicLoop_le (logicOperand_ascending l n m hle) hle tkn x

theorem recognized_ofLogicOperand (l : Logic) (h : Recognized l.operand ts xs) : Recognized (.logic l) ts xs := by
  intro u hu before rest errors
  rw [continues_logic, List.mem_cons, not_or] at hu
  have hexpr := h.reads (logicOperand_ne l) hu.2 before rest errors
  simp only [funext (rule_logic l), logic]
  refine (yields_bind_iff (logicOperand_ascending l) logicRule_ascending hexpr).2 ?_
  rw [yields_step_iff here_cons]
  exact logicLoop_stop (logicOperand_ascending l) hu.1

theorem recognized_logical (l : Logic) (h : Recognized l.operand ts [x]) (op : Tok l.type) (hright : Legible l.operand ts' [y])
    (hr : Recognized l.operand ts' [y]) : Recognized (.logic l) (ts ++ op.1 :: ts') [.logical x op.1 y] := by
  intro u hu before rest errors
  rw [continues_logic, List.mem_cons, not_or] at hu
  have hleft := h.reads (u := op.1) (logicOperand_ne l) (op.2.symm ▸ type_notMem l) before (ts' ++ u :: rest) errors
  have hread := hr.reads (logicOperand_ne l) hu.2 (op.1 :: (ts.reverse ++ before)) rest errors
  obtain ⟨t, us, rfl, ht⟩ := hright.first
  have hstop : t.type ≠ l.type := by
    have hall : ∀ type ∈ Level.starts .assignment, type ≠ l.type := by cases l <;> decide
    exact hall _ (starts_subset _ ht)
  rw [List.cons_append] at hleft
  simp only [funext (rule_logic l), logic]
  simp only [List.append_assoc, List.cons_append]
  rw [yields_bind_iff (logicOperand_ascending l) logicRule_ascending hleft, yields_step_iff here_cons]
  rw [List.cons_append] at hread
  rw [logicLoop_round (logicOperand_ascending l) op.2 hread]
  have hdone := logicLoop_stop (c := ⟨(t :: us).reverse ++ op.1 :: (ts.reverse ++ before), u :: rest, errors⟩)
    (x := .logical x op.1 y) (logicOperand_ascending l) hstop
  simpa using hdone

/-- What `assignment` does behind its left side. -/
theorem assignmentTail_ascending (x : Expr) : Ascending fun n => here >>= fun equals =>
    if equals.type = .equal then advance >>= fun _ => assignment n >>= fun value => assign equals value x else pure x :=
  fun n m hle => (Le.refl _).bind fun _ =>
    Le.ite ((Le.refl _).bind fun _ => (assignment_ascending n m hle).bind fun _ => Le.refl _) (Le.refl _)

theorem yields_assignment {c c' : Cursor} {x : Expr} {out : Expr × Cursor} (h : Yields (ruleOf (.logic .or)) c (x, c')) :
    Yields assignment c out ↔ Yields (fun n => here >>= fun equals =>
      if equals.type = .equal then advance >>= fun _ => assignment n >>= fun value => assign equals value x
      else pure x) c' out := by
  rw [← yields_succ assignment_ascending]
  exact yields_bind_iff or_ascending assignmentTail_ascending h

theorem recognized_ofOr (h : Recognized (.logic .or) ts xs) : Recognized .assignment ts xs := by
  intro u hu before rest errors
  have hsplit : u.type ≠ .equal ∧ u.type ∉ (Level.logic .or).continues := by
    simpa only [Level.continues, List.mem_cons, not_or] using hu
  refine (yields_assignment (h u hsplit.2 before rest errors)).2 ?_
  rw [yields_step_iff here_cons]
  simp only [if_neg hsplit.1]
  exact yields_const.2 rfl

/-- An expression of the level `call` is read by `logicOr`. -/
theorem recognized_or (hexpr : Legible .call ts xs) (h : Recognized .call ts xs) : Recognized (.logic .or) ts xs := by
  have hmul := recognized_ofOperand .multiplication (recognized_ofCall hexpr h)
  have hcmp := recognized_ofOperand .comparison (recognized_ofOperand .addition hmul)
  have hand := recognized_ofLogicOperand .and (recognized_ofOperand .equality hcmp)
  exact recognized_ofLogicOperand .or hand

/-- The left side is read, and then the value behind `=`. -/
theorem yields_assign {z : Expr} (htarget : Legible .call ts [x]) (h : Recognized .call ts [x]) (equals : Tok .equal)
    (hvalue : Recognized .assignment ts' [y]) (hassign : ∀ c, assign equals.1 y x c = some (z, c)) :
    Recognized .assignment (ts ++ equals.1 :: ts') [z] := by
  intro u hu before rest errors
  have hread := recognized_or htarget h equals.1 (by rw [equals.2]; decide) before (ts' ++ u :: rest) errors
  have hright := hvalue u hu (equals.1 :: (ts.reverse ++ before)) rest errors
  simp only [List.append_assoc, List.cons_append, List.reverse_append, List.reverse_cons, List.nil_append]
  change Yields assignment _ _
  rw [yields_assignment hread, yields_step_iff here_cons]
  simp only [equals.2, if_true]
  rw [yields_step_iff advance_cons, yields_bind_iff assignment_ascending (fun _ => ascending_const _) hright]
  exact yields_const.2 (hassign _)

theorem recognized_set (hobject : Legible .call ts [x]) (h : Recognized .call ts [x]) (dot : Tok .dot) (name : Tok .identifier)
    (equals : Tok .equal) (hvalue : Recognized .assignment ts' [y]) :
    Recognized .assignment (ts ++ dot.1 :: name.1 :: equals.1 :: ts') [.set x name.1 y] := by
  have hread := yields_assign (.get hobject dot name) (recognized_get h dot name) equals hvalue fun _ => rfl
  simpa only [List.append_assoc, List.cons_append, List.nil_append] using hread

/-- A round of the loop over the arguments, with an argument that is read. -/
theorem argsLoop_next {callee arg : Expr} {args : List Expr} (hexpr : Legible .assignment ts [x]) (h : Recognized .assignment ts [x])
    {tkn : Token} (hroom : args.length ≤ maxArgs) (hu : u.type ∉ Level.continues .assignment) {before rest : List Token}
    {errors : List (Token × String)} {out : Option (List Expr) × Cursor} :
    Yields (fun n => argsLoop (assignment n) callee n args arg) ⟨before, tkn :: (ts ++ u :: rest), errors⟩ out ↔
      Yields (fun n => if u.type = .comma then argsLoop (assignment n) callee n (args ++ [x]) x
        else pure (some (args ++ [x]))) ⟨ts.reverse ++ tkn :: before, u :: rest, errors⟩ out := by
  have hread := h u hu (tkn :: before) rest errors
  obtain ⟨t, us, rfl, ht⟩ := hexpr.first
  have hfirst : t.type ≠ .rightParen := by
    have hall : ∀ type ∈ Level.starts .assignment, type ≠ .rightParen := by decide
    exact hall _ ht
  rw [List.cons_append] at hread ⊢
  exact argsLoop_round hfirst hroom hread hexpr.isNull rfl

theorem recognized_lastArg (hexpr : Legible .assignment ts [x]) (h : Recognized .assignment ts [x]) : Recognized .arguments ts [x] := by
  intro callee args old tkn u hroom hu before rest errors
  simp only [List.cons_append, List.reverse_cons, List.append_assoc, List.nil_append]
  refine (argsLoop_next hexpr h (Nat.le_of_succ_le_succ hroom) (by rw [hu]; decide)).2 ?_
  simp only [hu, reduceCtorEq, if_false]
  exact yields_const.2 rfl

theorem recognized_lastComma (hexpr : Legible .assignment ts [x]) (h : Recognized .assignment ts [x]) (comma : Tok .comma) :
    Recognized .arguments (ts ++ [comma.1]) [x, x] := by
  intro callee args old tkn u hroom hu before rest errors
  simp only [List.length_cons, List.length_nil] at hroom
  simp only [List.cons_append, List.reverse_cons, List.reverse_append, List.append_assoc, List.nil_append, List.reverse_nil]
  refine (argsLoop_next hexpr h (by omega) (by rw [comma.2]; decide)).2 ?_
  simp only [comma.2, if_true]
  rw [← yields_argsLoop]
  simp only [argsLoop]
  rw [yields_step_iff advance_cons, yields_step_iff here_cons]
  have hcount : ¬ maxArgs < (args ++ [x]).length := by
    rw [List.length_append, List.length_singleton]
    omega
  simp only [if_neg hcount, nextArg, hu, if_true]
  rw [yields_step_iff (pure_apply _ _), yields_step_iff here_cons]
  simp only [hu, reduceCtorEq, if_false]
  have hx : x.isNull = false := hexpr.isNull
  refine yields_const.2 ?_
  simp [pushArg, hx]

theorem recognized_moreArgs (hexpr : Legible .assignment ts [x]) (h : Recognized .assignment ts [x]) (comma : Tok .comma)
    (hargs : Recognized .arguments ts' xs) : Recognized .arguments (ts ++ comma.1 :: ts') (x :: xs) := by
  intro callee before_args old tkn u hroom hu before rest errors
  simp only [List.length_cons] at hroom
  have hothers := hargs callee (before_args ++ [x]) x comma.1 u
    (by simp only [List.length_append, List.length_singleton]; omega) hu (ts.reverse ++ tkn :: before) rest errors
  simp only [List.cons_append, List.reverse_cons, List.reverse_append, List.append_assoc, List.nil_append] at hothers ⊢
  refine (argsLoop_next hexpr h (by omega) (by rw [comma.2]; decide)).2 ?_
  simp only [comma.2, if_true]
  exact hothers

/-- The routine of its level reads it. -/
theorem Legible.recognized (h : Legible k ts xs) : Recognized k ts xs := by
  induction h with
  | literal tkn => exact recognized_literal tkn
  | var name => exact recognized_var name
  | grouping left expr right ih => exact recognized_grouping left ih right
  | ofPrimary expr ih => exact recognized_ofPrimary ih
  | callNone callee left paren ih => exact recognized_callNone ih left paren
  | callSome callee left args paren room ih iha => exact recognized_callSome ih left iha paren room
  | get object dot name ih => exact recognized_get ih dot name
  | lastArg arg ih => exact recognized_lastArg arg ih
  | lastComma arg comma ih => exact recognized_lastComma arg ih comma
  | moreArgs arg comma args ih iha => exact recognized_moreArgs arg ih comma iha
  | ofCall expr ih => exact recognized_ofCall expr ih
  | unary op expr ih => exact recognized_unary op ih
  | ofOperand b expr ih => exact recognized_ofOperand b ih
  | binary b left op right ih ihr => exact recognized_binary b ih op ihr
  | ofLogicOperand l expr ih => exact recognized_ofLogicOperand l ih
  | logical l left op right ih ihr => exact recognized_logical l ih op right ihr
  | ofOr expr ih => exact recognized_ofOr ih
  | assign name equals value ih =>
    exact yields_assign (.ofPrimary (.var name)) (recognized_ofPrimary (recognized_var name)) equals ih fun _ => rfl
  | set object dot name equals value ih ihv => exact recognized_set object ih dot name equals ihv

end Legible

end Reading.Clox.Parse
