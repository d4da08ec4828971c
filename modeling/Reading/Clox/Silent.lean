import Reading.Clox.Legible
import Reading.Lib.Silent

/-!
# What a run without an error has read

The other direction: a routine that returns without having printed an error has passed over a legible expression, statement or sequence of declarations and returns its tree. Only `this` is in the way, over which the cursor does not move. An expression that ends in it leaves the cursor there, and whoever called for the expression then finds no token that may stand behind one.
-/

namespace Reading.Clox.Parse

open Lib Lib.Attempt

/-- The routine keeps the errors printed before. When it prints none, its result and the cursors around it are related. -/
abbrev Quiet {α : Type} (r : Rule α) (Q : Cursor → α → Cursor → Prop) : Prop := Silent Cursor.errors r Q

/-- The cursor moves over the tokens. -/
structure Moves (c : Cursor) (ts : List Token) (c' : Cursor) : Prop where
  ahead : c.ahead = ts ++ c'.ahead
  before : c'.before = ts.reverse ++ c.before

/-- The cursor is on `this`. -/
def OnThis (c : Cursor) : Prop := ∃ t, c.ahead.head? = some t ∧ t.type = .thisKey

section Steps

variable {c c' c'' : Cursor} {ts us : List Token} {t : Token} {type : TokenType}

theorem Moves.refl (c : Cursor) : Moves c [] c := ⟨rfl, rfl⟩

theorem Moves.trans (h : Moves c ts c') (h' : Moves c' us c'') : Moves c (ts ++ us) c'' where
  ahead := by rw [h.ahead, h'.ahead, List.append_assoc]
  before := by rw [h'.before, h.before, List.reverse_append, List.append_assoc]

theorem Moves.head (h : Moves c (t :: ts) c') : c.ahead.head? = some t := by
  rw [h.ahead]
  rfl

/-- The token at the cursor is not `this` when it is of another type. -/
theorem not_onThis (h : c.ahead.head? = some t) (ht : t.type ≠ .thisKey) : ¬OnThis c := by
  intro ⟨u, hu, htype⟩
  obtain rfl := Option.some.inj (hu.symm.trans h)
  exact ht htype

theorem quiet_here : Quiet here fun c t c' => c' = c ∧ c.ahead.head? = some t := by
  refine silent_of_eq fun c t c' h => ?_
  obtain ⟨before, ahead, errors⟩ := c
  cases ahead with
  | nil => exact nomatch h
  | cons u rest =>
    obtain ⟨rfl, rfl⟩ := Prod.mk.inj (Option.some.inj h)
    exact ⟨rfl, rfl, rfl⟩

theorem quiet_advance : Quiet advance fun c _ c' => ∃ t, Moves c [t] c' := by
  refine silent_of_eq fun c _ c' h => ?_
  obtain ⟨before, ahead, errors⟩ := c
  cases ahead with
  | nil => exact nomatch h
  | cons u rest =>
    obtain ⟨-, rfl⟩ := Prod.mk.inj (Option.some.inj h)
    exact ⟨rfl, u, rfl, rfl⟩

theorem quiet_previous : Quiet previous fun c t c' => c' = c ∧ c.before.head? = some t := by
  refine silent_of_eq fun c t c' h => ?_
  obtain ⟨before, ahead, errors⟩ := c
  cases ahead with
  | nil => exact nomatch h
  | cons u rest =>
    cases before with
    | nil => exact nomatch h
    | cons p before =>
      obtain ⟨rfl, rfl⟩ := Prod.mk.inj (Option.some.inj h)
      exact ⟨rfl, rfl, rfl⟩

theorem quiet_atNull : Quiet atNull fun _ _ _ => True :=
  silent_of_eq fun _ _ _ h => ⟨congrArg (fun out : Bool × Cursor => out.2.errors) (Option.some.inj h).symm, trivial⟩

theorem quiet_parseError (tkn : Token) (msg : String) : Quiet (parseError tkn msg) fun _ _ _ => False :=
  silent_report fun _ _ _ h => congrArg (fun out : Unit × Cursor => out.2.errors) (Option.some.inj h).symm

theorem quiet_matchType (types : List TokenType) :
    Quiet (matchType type types) fun c b c' => b = decide (type ∈ types) ∧ if type ∈ types then ∃ t, Moves c [t] c' else c' = c := by
  rw [matchType]
  split
  · refine (quiet_advance.bind fun _ => silent_pure true).imp fun c b c' h => ?_
    obtain ⟨_, _, ht, rfl, rfl⟩ := h
    exact ⟨(decide_eq_true ‹_›).symm, ht⟩
  · refine (silent_pure false).imp fun c b c' h => ?_
    obtain ⟨rfl, rfl⟩ := h
    exact ⟨(decide_eq_false ‹_›).symm, rfl⟩

/-- A token of the type is at the cursor, and it is passed over. -/
theorem quiet_consume (type : TokenType) (msg : String) :
    Quiet (consume type msg) fun c o c' => ∃ t : Tok type, o = some t.1 ∧ Moves c [t.1] c' := by
  refine (quiet_here.bind fun tkn => (quiet_advance.bind fun _ => quiet_previous.bind fun prev => silent_pure (some prev)).ite
    ((quiet_parseError tkn msg).bind fun _ => silent_pure none)).imp ?_
  intro c o c' ⟨tkn, _, ⟨rfl, htkn⟩, h⟩
  obtain ⟨htype, _, c₁, ⟨t, ht⟩, prev, _, ⟨rfl, hprev⟩, rfl, rfl⟩ | ⟨_, _, _, hfalse, _⟩ := h
  · have ht' : t = tkn := Option.some.inj (ht.head.symm.trans htkn)
    have hprev' : t = prev := by
      rw [ht.before] at hprev
      exact Option.some.inj hprev
    subst ht' hprev'
    exact ⟨⟨t, htype⟩, rfl, ht⟩
  · exact hfalse.elim

/-- A token of the type is passed over, and then the run goes on with it. -/
theorem quiet_consume_bind {α : Type} {g : Option Token → Rule α} {Q : Cursor → α → Cursor → Prop} {R : Token → Cursor → α → Cursor → Prop}
    {msg : String} (hnone : Quiet (g none) Q) (hsome : ∀ t, Quiet (g (some t)) (R t)) :
    Quiet (consume type msg >>= g) fun c a c' => ∃ (t : Tok type) (c₁ : Cursor), Moves c [t.1] c₁ ∧ R t.1 c₁ a c' := by
  have hg : ∀ o, Quiet (g o) fun c a c' => ∀ t, o = some t → R t c a c' := by
    intro o
    cases o with
    | none => exact hnone.imp fun _ _ _ _ _ h => nomatch h
    | some u =>
      refine (hsome u).imp fun c a c' h t ht => ?_
      obtain rfl := Option.some.inj ht
      exact h
  refine ((quiet_consume type msg).bind hg).imp fun c a c' h => ?_
  obtain ⟨o, c₁, ⟨t, rfl, ht⟩, h⟩ := h
  exact ⟨t, c₁, ht, h t.1 rfl⟩

end Steps

/-! ### Expressions -/

/-- An expression of the level has been read, or one that ends in `this`. -/
def Result (k : Level) (c : Cursor) (x : Expr) (c' : Cursor) : Prop :=
  (∃ t, c.ahead.head? = some t ∧ t.type ∈ Level.starts .assignment) ∧ ((∃ ts, Moves c ts c' ∧ Legible k ts [x]) ∨ OnThis c')

/-- Behind the expression `x`, the rest of a longer one has been read. -/
def Follows (k : Level) (x : Expr) (c : Cursor) (y : Expr) (c' : Cursor) : Prop :=
  OnThis c' ∨ ¬OnThis c ∧ ∃ us, Moves c us c' ∧ ∀ ts, Legible k ts [x] → Legible k (ts ++ us) [y]

section Expressions

variable {k k' : Level} {c c' c'' : Cursor} {ts : List Token} {x y : Expr} {t : Token}

theorem Result.of_legible (h : Moves c ts c') (hx : Legible k ts [x]) : Result k c x c' := by
  refine ⟨?_, .inl ⟨ts, h, hx⟩⟩
  obtain ⟨t, us, rfl, ht⟩ := hx.first
  exact ⟨t, h.head, starts_subset k ht⟩

theorem Result.start (h : Result k c x c') (ht : c.ahead.head? = some t) : t.type ∈ Level.starts .assignment := by
  obtain ⟨⟨u, hu, hstart⟩, -⟩ := h
  obtain rfl := Option.some.inj (hu.symm.trans ht)
  exact hstart

/-- A token is found behind the expression that is not `this`. -/
theorem Result.legible (h : Result k c x c') (hthis : ¬OnThis c') : ∃ ts, Moves c ts c' ∧ Legible k ts [x] :=
  h.2.resolve_right hthis

theorem Result.lift (h : Result k c x c') (hlift : ∀ ts, Legible k ts [x] → Legible k' ts [x]) : Result k' c x c' := by
  refine ⟨h.1, h.2.imp_left ?_⟩
  intro ⟨ts, hts, hx⟩
  exact ⟨ts, hts, hlift ts hx⟩

theorem Result.follow (h : Result k c x c') (h' : Follows k x c' y c'') : Result k c y c'' := by
  refine ⟨h.1, ?_⟩
  obtain hthis | ⟨hthis, us, hus, hlift⟩ := h'
  · exact .inr hthis
  · obtain ⟨ts, hts, hx⟩ := h.legible hthis
    exact .inl ⟨ts ++ us, hts.trans hus, hlift ts hx⟩

theorem Follows.stop : Follows k x c x c := by
  by_cases hthis : OnThis c
  · exact .inl hthis
  · exact .inr ⟨hthis, [], Moves.refl c, fun ts hx => by rwa [List.append_nil]⟩

theorem quiet_leaf (x : Expr) : Quiet (leaf x) fun c y c' => y = x ∧ ∃ t, Moves c [t] c' := by
  refine (quiet_advance.bind fun _ => silent_pure x).imp fun c y c' h => ?_
  obtain ⟨_, c₁, ht, rfl, rfl⟩ := h
  exact ⟨rfl, ht⟩

/-- A literal is passed over. -/
theorem quiet_literal {value : Literal} (ht : t.type ∈ [TokenType.trueKey, .falseKey, .nilKey, .string, .number])
    (hvalue : Phrase.literalTree t = value) :
    Quiet (leaf (.literal value)) fun c x c' => c.ahead.head? = some t → Result .primary c x c' := by
  refine (quiet_leaf _).imp fun c x c' h hhead => ?_
  obtain ⟨rfl, u, hu⟩ := h
  obtain rfl := Option.some.inj (hu.head.symm.trans hhead)
  subst hvalue
  exact .of_legible hu (.literal ⟨u, ht⟩)

theorem quiet_variableExpr (ht : t.type = .identifier) :
    Quiet variableExpr fun c x c' => c.ahead.head? = some t → Result .primary c x c' := by
  refine (quiet_advance.bind fun _ => quiet_previous.bind fun name => silent_pure (Expr.var name)).imp fun c x c' h hhead => ?_
  obtain ⟨_, c₁, ⟨u, hu⟩, name, c₂, ⟨rfl, hname⟩, rfl, rfl⟩ := h
  obtain rfl := Option.some.inj (hu.head.symm.trans hhead)
  rw [hu.before] at hname
  obtain rfl := Option.some.inj hname
  exact .of_legible hu (.var ⟨u, ht⟩)

theorem quiet_thisExpr (ht : t.type = .thisKey) : Quiet thisExpr fun c x c' => c.ahead.head? = some t → Result .primary c x c' := by
  refine (quiet_previous.bind fun keyword => silent_pure (Expr.this keyword)).imp fun c x c' h hhead => ?_
  obtain ⟨keyword, c₁, ⟨rfl, -⟩, -, rfl⟩ := h
  exact ⟨⟨t, hhead, by rw [ht]; decide⟩, .inr ⟨t, hhead, ht⟩⟩

/-- The cursor is on `super`, where the dot is looked for. -/
theorem quiet_superExpr (ht : t.type = .superKey) : Quiet superExpr fun c x c' => c.ahead.head? = some t → Result .primary c x c' := by
  refine (quiet_previous.bind fun keyword => quiet_consume_bind (silent_pure Expr.null) fun dot =>
    quiet_consume_bind (silent_pure Expr.null) fun method => silent_pure (Expr.super keyword method)).imp fun c x c' h hhead => ?_
  obtain ⟨keyword, c₁, ⟨rfl, -⟩, dot, _, hdot, -⟩ := h
  obtain rfl := Option.some.inj (hdot.head.symm.trans hhead)
  exact nomatch dot.2.symm.trans ht

theorem quiet_grouping {expression : Rule Expr} (he : Quiet expression (Result .assignment)) (ht : t.type = .leftParen) :
    Quiet (grouping expression) fun c x c' => c.ahead.head? = some t → Result .primary c x c' := by
  refine (quiet_advance.bind fun _ => he.bind fun x => quiet_consume_bind (silent_pure Expr.null) fun _ => silent_pure (Expr.grouping x)).imp
    fun c x c' h hhead => ?_
  obtain ⟨_, c₁, ⟨left, hleft⟩, y, c₂, hy, right, c₃, hright, rfl, rfl⟩ := h
  obtain rfl := Option.some.inj (hleft.head.symm.trans hhead)
  obtain ⟨ts, hts, hlegible⟩ := hy.legible (not_onThis hright.head (by rw [right.2]; decide))
  exact .of_legible (hleft.trans (hts.trans hright)) (.grouping ⟨left, ht⟩ hlegible right)

theorem quiet_primary {expression : Rule Expr} (he : Quiet expression (Result .assignment)) : Quiet (primary expression) (Result .primary) := by
  refine (quiet_here.bind (R := fun tkn c x c' => c.ahead.head? = some tkn → Result .primary c x c') fun tkn => ?_).imp
    fun c x c' h => ?_
  · split
    · exact quiet_literal (by simp [*]) (by simp [Phrase.literalTree, *])
    · exact quiet_literal (by simp [*]) (by simp [Phrase.literalTree, *])
    · exact quiet_literal (by simp [*]) (by simp [Phrase.literalTree, *])
    · exact quiet_literal (by simp [*]) (by simp [Phrase.literalTree, *])
    · exact quiet_literal (by simp [*]) (by simp [Phrase.literalTree, *])
    · exact quiet_grouping he ‹_›
    · exact quiet_superExpr ‹_›
    · exact quiet_thisExpr ‹_›
    · exact quiet_variableExpr ‹_›
    · refine ((quiet_parseError _ _).bind fun _ => silent_pure _).imp fun c x c' h => ?_
      obtain ⟨_, _, hfalse, _⟩ := h
      exact hfalse.elim
  · obtain ⟨tkn, c₁, ⟨rfl, htkn⟩, h⟩ := h
    exact h htkn

theorem Follows.trans {z : Expr} (h : Follows k x c y c') (h' : Follows k y c' z c'') : Follows k x c z c'' := by
  obtain hthis' | ⟨hthis', us', hus', hlift'⟩ := h'
  · exact .inl hthis'
  · obtain hthis | ⟨hthis, us, hus, hlift⟩ := h
    · exact absurd hthis hthis'
    · refine .inr ⟨hthis, us ++ us', hus.trans hus', fun ts hx => ?_⟩
      rw [← List.append_assoc]
      exact hlift' _ (hlift ts hx)

/-! ### Calls -/

theorem pushArg_eq (args : List Expr) (arg : Expr) : pushArg args arg = args ++ pushArg [] arg := by
  unfold pushArg
  split
  · exact (List.append_nil args).symm
  · rfl

/-- The loop over the arguments has read some and pushed them, or it found the parenthesis and pushed the argument of the round before. -/
def Args (args : List Expr) (arg : Expr) (c : Cursor) (o : Option (List Expr)) (c' : Cursor) : Prop :=
  ∃ args', o = some args' ∧ (OnThis c' ∨ ∃ t ts xs, Moves c (t :: ts) c' ∧ args' = args ++ xs ∧ args'.length ≤ maxArgs + 1 ∧
    (Legible .arguments ts xs ∨ ts = [] ∧ xs = pushArg [] arg))

theorem pushArg_legible (args : List Expr) (hx : Legible k ts [x]) : pushArg args x = args ++ [x] := by
  have hnull : x.isNull = false := hx.isNull
  simp [pushArg, hnull]

theorem length_pushArg_le (args : List Expr) (arg : Expr) : (pushArg args arg).length ≤ args.length + 1 := by
  unfold pushArg
  split
  · exact Nat.le_succ _
  · simp

theorem quiet_nextArg {expression : Rule Expr} (he : Quiet expression (Result .assignment)) (tkn : Token) (arg : Expr) :
    Quiet (nextArg expression tkn arg) fun c x c' =>
      tkn.type = .rightParen ∧ x = arg ∧ c' = c ∨ ¬tkn.type = .rightParen ∧ Result .assignment c x c' := by
  simp only [nextArg]
  exact (silent_pure arg).ite he

theorem quiet_argsLoop {expression : Rule Expr} (he : Quiet expression (Result .assignment)) (callee : Expr) (n : Nat) (args : List Expr)
    (arg : Expr) : Quiet (argsLoop expression callee n args arg) (Args args arg) := by
  induction n generalizing args arg with
  | zero => exact silent_fail
  | succ n ih =>
    have hfull (tkn : Token) : Quiet (parseError tkn "Cannot have more than %d args" >>= fun _ =>
        if exprDestroy callee then pure none else fail) fun _ (_ : Option (List Expr)) _ => False := by
      refine ((quiet_parseError _ _).bind fun _ => (silent_pure none).ite (silent_fail (Q := fun _ _ _ => True))).imp fun _ _ _ h => ?_
      obtain ⟨_, _, hfalse, -⟩ := h
      exact hfalse
    have hround (tkn : Token) := (quiet_nextArg he tkn arg).bind fun arg => quiet_here.bind fun tkn =>
      (ih (pushArg args arg) arg).ite (p := tkn.type = .comma) (silent_pure (some (pushArg args arg)))
    refine (quiet_advance.bind fun _ => quiet_here.bind fun tkn => (hfull tkn).ite (hround tkn)).imp fun c o c' h => ?_
    obtain ⟨_, c₁, ⟨t, ht⟩, tkn, _, ⟨rfl, htkn⟩, ⟨-, hfalse⟩ | ⟨hroom, x, c₂, harg, tkn', _, ⟨rfl, htkn'⟩, hnext⟩⟩ := h
    · exact hfalse.elim
    have hlength (x : Expr) : (pushArg args x).length ≤ maxArgs + 1 :=
      (length_pushArg_le args x).trans (Nat.succ_le_succ (Nat.not_lt.1 hroom))
    obtain ⟨hparen, rfl, rfl⟩ | ⟨-, hx⟩ := harg
    · -- There is no argument here, and so there is no comma either.
      obtain rfl := Option.some.inj (htkn.symm.trans htkn')
      obtain ⟨hcomma, -⟩ | ⟨-, rfl, rfl⟩ := hnext
      · exact nomatch hparen.symm.trans hcomma
      · exact ⟨_, rfl, .inr ⟨t, [], _, ht, pushArg_eq args x, hlength x, .inr ⟨rfl, rfl⟩⟩⟩
    · obtain ⟨hcomma, args', rfl, hargs⟩ | ⟨-, rfl, rfl⟩ := hnext
      · refine ⟨args', rfl, hargs.imp_right fun ⟨u, us, xs, hus, heq, hle, hlegible⟩ => ?_⟩
        obtain rfl := Option.some.inj (hus.head.symm.trans htkn')
        obtain ⟨ts, hts, hxs⟩ := hx.legible (not_onThis htkn' (by rw [hcomma]; decide))
        rw [pushArg_legible args hxs, List.append_assoc] at heq
        refine ⟨t, ts ++ u :: us, x :: xs, ht.trans (hts.trans hus), heq, hle, .inl ?_⟩
        obtain hlegible | ⟨rfl, rfl⟩ := hlegible
        · exact .moreArgs hxs ⟨u, hcomma⟩ hlegible
        · rw [pushArg_legible [] hxs]
          exact .lastComma hxs ⟨u, hcomma⟩
      · refine ⟨_, rfl, hx.2.imp_left (fun ⟨ts, hts, hxs⟩ => ?_) |>.symm⟩
        exact ⟨t, ts, [x], ht.trans hts, pushArg_legible args hxs, hlength x, .inl (.lastArg hxs)⟩

theorem quiet_finishCall {expression : Rule Expr} (he : Quiet expression (Result .assignment)) (n : Nat) (callee : Expr) :
    Quiet (finishCall n expression callee) fun c y c' => ∀ t, c.ahead.head? = some t → t.type = .leftParen → Follows .call callee c y c' := by
  refine ((quiet_argsLoop he callee n [] .null).bind (R := fun o c y c' => ∀ args, o = some args →
    ∃ paren : Tok .rightParen, Moves c [paren.1] c' ∧ y = Expr.call callee paren.1 args) fun o => ?_).imp fun c y c' h t hhead ht => ?_
  · cases o with
    | none => exact (silent_pure Expr.null).imp fun _ _ _ _ _ h => absurd h (Option.some_ne_none _).symm
    | some args =>
      refine (quiet_consume_bind (silent_fail (Q := fun _ _ _ => True)) fun paren => silent_pure (Expr.call callee paren args)).imp
        fun c y c' h _ heq => ?_
      obtain rfl := Option.some.inj heq
      obtain ⟨paren, c₁, hparen, rfl, rfl⟩ := h
      exact ⟨paren, hparen, rfl⟩
  obtain ⟨_, c₁, ⟨args, rfl, hargs⟩, hclose⟩ := h
  obtain ⟨paren, hparen, rfl⟩ := hclose args rfl
  have hthis : ¬OnThis c₁ := not_onThis hparen.head (by rw [paren.2]; decide)
  obtain ⟨u, ts, xs, hts, heq, hle, hlegible⟩ := hargs.resolve_left hthis
  rw [List.nil_append] at heq
  subst heq
  obtain rfl := Option.some.inj (hts.head.symm.trans hhead)
  refine .inr ⟨not_onThis hhead (by rw [ht]; decide), u :: (ts ++ [paren.1]), hts.trans hparen, fun ts₀ hcallee => ?_⟩
  obtain hlegible | ⟨rfl, rfl⟩ := hlegible
  · exact .callSome hcallee ⟨u, ht⟩ hlegible paren hle
  · exact .callNone hcallee ⟨u, ht⟩ paren

theorem quiet_getProperty (object : Expr) :
    Quiet (getProperty object) fun c y c' => ∀ t, c.ahead.head? = some t → t.type = .dot → Follows .call object c y c' := by
  refine (quiet_advance.bind fun _ => quiet_consume_bind (silent_pure object) fun name => silent_pure (Expr.get object name)).imp
    fun c y c' h t hhead ht => ?_
  obtain ⟨_, c₁, ⟨dot, hdot⟩, name, c₂, hname, rfl, rfl⟩ := h
  obtain rfl := Option.some.inj (hdot.head.symm.trans hhead)
  exact .inr ⟨not_onThis hhead (by rw [ht]; decide), [dot, name.1], hdot.trans hname, fun ts hx => .get hx ⟨dot, ht⟩ name⟩

theorem quiet_callLoop {expression : Rule Expr} (he : Quiet expression (Result .assignment)) (n : Nat) (x : Expr) :
    Quiet (callLoop expression n x) (Follows .call x) := by
  induction n generalizing x with
  | zero => exact silent_fail
  | succ n ih =>
    refine (quiet_here.bind fun tkn => ((quiet_finishCall he n x).bind ih).ite (p := tkn.type = .leftParen)
      (((quiet_getProperty x).bind ih).ite (p := tkn.type = .dot) (silent_pure x))).imp fun c y c' h => ?_
    obtain ⟨tkn, _, ⟨rfl, htkn⟩, ⟨hparen, z, c₁, hfinish, hloop⟩ | ⟨-, ⟨hdot, z, c₁, hget, hloop⟩ | ⟨-, rfl, rfl⟩⟩⟩ := h
    · exact (hfinish tkn htkn hparen).trans hloop
    · exact (hget tkn htkn hdot).trans hloop
    · exact .stop

theorem quiet_call {expression : Rule Expr} (he : Quiet expression (Result .assignment)) (n : Nat) :
    Quiet (call n expression) (Result .call) := by
  refine ((quiet_primary he).bind fun x => quiet_callLoop he n x).imp fun c y c' h => ?_
  obtain ⟨x, c₁, hx, hloop⟩ := h
  exact (hx.lift fun ts hts => .ofPrimary hts).follow hloop

/-! ### Operators -/

/-- An operator is passed over, or something else is done where there is none. -/
theorem quiet_operator {types : List TokenType} {f : Token → Rule Expr} {g : Rule Expr} {R : Token → Cursor → Expr → Cursor → Prop}
    {Q : Cursor → Expr → Cursor → Prop} (hf : ∀ op, Quiet (f op) (R op)) (hg : Quiet g Q) :
    Quiet (here >>= fun tkn => matchType tkn.type types >>= fun matched => if matched then previous >>= f else g) fun c y c' =>
      (∃ (op : OneOf types) (c₁ : Cursor), Moves c [op.1] c₁ ∧ R op.1 c₁ y c') ∨ Q c y c' := by
  refine (quiet_here.bind fun tkn => (quiet_matchType types).bind fun matched =>
    (quiet_previous.bind hf).ite (p := matched = true) hg).imp fun c y c' h => ?_
  obtain ⟨tkn, _, ⟨rfl, htkn⟩, matched, c₁, ⟨rfl, hmove⟩, h⟩ := h
  by_cases hmem : tkn.type ∈ types
  · simp only [hmem, decide_true, if_true, true_and, not_true_eq_false, false_and, or_false] at hmove h
    obtain ⟨t, ht⟩ := hmove
    obtain ⟨op, _, ⟨rfl, hop⟩, hrest⟩ := h
    obtain rfl := Option.some.inj (ht.head.symm.trans htkn)
    rw [ht.before] at hop
    obtain rfl := Option.some.inj hop
    exact .inl ⟨⟨t, hmem⟩, _, ht, hrest⟩
  · simp only [hmem, decide_false, if_false, Bool.false_eq_true, false_and, false_or, not_false_eq_true, true_and] at hmove h
    exact .inr (hmove ▸ h)

theorem quiet_unary {expression : Rule Expr} (he : Quiet expression (Result .assignment)) (n : Nat) :
    Quiet (unary expression n) (Result .unary) := by
  induction n with
  | zero => exact silent_fail
  | succ n ih =>
    refine (quiet_operator (fun op => ih.bind fun x => silent_pure (Expr.unary op x)) (quiet_call he n)).imp fun c y c' h => ?_
    obtain ⟨op, c₁, hop, x, _, hx, rfl, rfl⟩ | hcall := h
    · have hall : ∀ type ∈ [TokenType.minus, .bang], type ∈ Level.starts .assignment := by decide
      refine ⟨⟨op.1, hop.head, hall _ op.2⟩, hx.2.imp_left fun ⟨ts, hts, hlegible⟩ => ?_⟩
      exact ⟨op.1 :: ts, hop.trans hts, .unary op hlegible⟩
    · exact hcall.lift fun ts hts => .ofCall hts

theorem quiet_binaryLoop (b : Binop) {rule : Rule Expr} (hr : Quiet rule (Result b.operand)) (n : Nat) (x : Expr) :
    Quiet (binaryLoop rule b.types n x) (Follows (.binary b) x) := by
  induction n generalizing x with
  | zero => exact silent_fail
  | succ n ih =>
    refine (quiet_operator (fun op => hr.bind fun y => ih (.binary op x y)) (silent_pure x)).imp fun c z c' h => ?_
    obtain ⟨op, c₁, hop, y, c₂, hy, hloop⟩ | ⟨rfl, rfl⟩ := h
    · refine Follows.trans ?_ hloop
      by_cases hthis : OnThis c₂
      · exact .inl hthis
      · obtain ⟨ts, hts, hlegible⟩ := hy.legible hthis
        have hop' : op.1.type ≠ .thisKey := by
          have hall : ∀ type ∈ b.types, type ≠ .thisKey := by cases b <;> decide
          exact hall _ op.2
        exact .inr ⟨not_onThis hop.head hop', op.1 :: ts, hop.trans hts, fun ts₀ hx => .binary b hx op hlegible⟩
    · exact .stop

theorem quiet_binaryProduction (b : Binop) {rule : Rule Expr} (hr : Quiet rule (Result b.operand)) (n : Nat) :
    Quiet (binaryProduction n rule b.types) (Result (.binary b)) := by
  refine (hr.bind fun x => quiet_binaryLoop b hr n x).imp fun c y c' h => ?_
  obtain ⟨x, c₁, hx, hloop⟩ := h
  exact (hx.lift fun ts hts => .ofOperand b hts).follow hloop

/-- The second operand begins with another token than the operator, so that there is no second round. -/
theorem quiet_logicLoop (l : Logic) {rule : Rule Expr} (hr : Quiet rule (Result l.operand)) (n : Nat) (tkn : Token) (x : Expr) :
    Quiet (logicLoop rule l.type n tkn x) fun c z c' => ¬tkn.type = l.type ∧ z = x ∧ c' = c ∨
      tkn.type = l.type ∧ ∃ (op : Token) (c₁ : Cursor) (y : Expr), Moves c [op] c₁ ∧ Result l.operand c₁ y c' ∧ z = .logical x op y := by
  induction n generalizing tkn x with
  | zero => exact silent_fail
  | succ n ih =>
    refine ((quiet_here.bind fun op => quiet_advance.bind fun _ => quiet_here.bind fun u => hr.bind fun y => ih u (.logical x op y)).ite
      (p := tkn.type = l.type) (silent_pure x)).imp fun c z c' h => ?_
    obtain ⟨htype, op, _, ⟨rfl, hop⟩, _, c₁, ⟨t, ht⟩, u, _, ⟨rfl, hu⟩, y, c₂, hy, hloop⟩ | hstop := h
    · obtain rfl := Option.some.inj (ht.head.symm.trans hop)
      obtain ⟨-, rfl, rfl⟩ | ⟨hagain, -⟩ := hloop
      · exact .inr ⟨htype, t, _, y, ht, hy, rfl⟩
      · have hall : ∀ type ∈ Level.starts .assignment, type ≠ l.type := by cases l <;> decide
        exact absurd hagain (hall _ (hy.start hu))
    · exact .inl hstop

theorem quiet_logic (l : Logic) {rule : Rule Expr} (hr : Quiet rule (Result l.operand)) (n : Nat) :
    Quiet (logic n rule l.type) (Result (.logic l)) := by
  refine (hr.bind fun x => quiet_here.bind fun tkn => quiet_logicLoop l hr n tkn x).imp fun c z c' h => ?_
  obtain ⟨x, c₁, hx, tkn, _, ⟨rfl, htkn⟩, ⟨-, rfl, rfl⟩ | ⟨htype, op, c₂, y, hop, hy, rfl⟩⟩ := h
  · exact hx.lift fun ts hts => .ofLogicOperand l hts
  · obtain rfl := Option.some.inj (hop.head.symm.trans htkn)
    have hthis : l.type ≠ .thisKey := by cases l <;> decide
    obtain ⟨ts, hts, hlegible⟩ := hx.legible (not_onThis htkn (htype.symm ▸ hthis))
    refine ⟨hx.1, hy.2.imp_left fun ⟨us, hus, hright⟩ => ?_⟩
    exact ⟨ts ++ op :: us, hts.trans (hop.trans hus), .logical l hlegible ⟨op, htype⟩ hright⟩

/-! ### Assignments -/

/-- A tree that is a name has been read from the name alone. -/
theorem Legible.of_var {xs : List Expr} {name : Token} (h : Legible k ts xs) (hk : k ∉ [Level.arguments, .assignment])
    (hxs : xs = [.var name]) : name.type = .identifier ∧ ts = [name] := by
  induction h with
  | var tkn =>
    injection hxs with hvar
    injection hvar with hname
    subst hname
    exact ⟨tkn.2, rfl⟩
  | ofPrimary expr ih | ofCall expr ih => exact ih (by decide) hxs
  | ofOperand b expr ih => exact ih (by cases b <;> decide) hxs
  | ofLogicOperand l expr ih => exact ih (by cases l <;> decide) hxs
  | lastArg | lastComma | moreArgs | ofOr | assign | set => exact absurd (by decide) hk
  | _ => exact nomatch hxs

theorem Legible.of_get {xs : List Expr} {object : Expr} {name : Token} (h : Legible k ts xs) (hk : k ∉ [Level.arguments, .assignment])
    (hxs : xs = [.get object name]) : ∃ us, ∃ dot : Tok .dot, name.type = .identifier ∧ ts = us ++ [dot.1, name] ∧ Legible .call us [object] := by
  induction h with
  | get object' dot tkn =>
    injection hxs with hget
    injection hget with hobject hname
    subst hobject hname
    exact ⟨_, dot, tkn.2, rfl, object'⟩
  | ofPrimary expr ih | ofCall expr ih => exact ih (by decide) hxs
  | ofOperand b expr ih => exact ih (by cases b <;> decide) hxs
  | ofLogicOperand l expr ih => exact ih (by cases l <;> decide) hxs
  | lastArg | lastComma | moreArgs | ofOr | assign | set => exact absurd (by decide) hk
  | _ => exact nomatch hxs

theorem quiet_assign (equals : Token) (value x : Expr) : Quiet (assign equals value x) fun c y c' => equals.type = .equal →
    c' = c ∧ ∀ ts us, Legible (.logic .or) ts [x] → Legible .assignment us [value] → Legible .assignment (ts ++ equals :: us) [y] := by
  unfold assign
  split
  · refine (silent_pure _).imp fun c y c' h htype => ?_
    obtain ⟨rfl, rfl⟩ := h
    refine ⟨rfl, fun ts us hx hvalue => ?_⟩
    obtain ⟨hname, rfl⟩ := hx.of_var (by decide) rfl
    exact .assign ⟨_, hname⟩ ⟨equals, htype⟩ hvalue
  · refine (silent_pure _).imp fun c y c' h htype => ?_
    obtain ⟨rfl, rfl⟩ := h
    refine ⟨rfl, fun ts us hx hvalue => ?_⟩
    obtain ⟨ts', dot, hname, rfl, hobject⟩ := hx.of_get (by decide) rfl
    rw [List.append_assoc]
    exact .set hobject dot ⟨_, hname⟩ ⟨equals, htype⟩ hvalue
  · exact silent_fail
  · refine ((quiet_parseError _ _).bind fun _ => silent_pure _).imp fun c y c' h => ?_
    obtain ⟨_, _, hfalse, -⟩ := h
    exact hfalse.elim

/-- An expression has been read without an error. -/
theorem quiet_assignment (n : Nat) : Quiet (assignment n) (Result .assignment) := by
  induction n with
  | zero => exact silent_fail
  | succ n ih =>
    have hmul := quiet_binaryProduction .multiplication (quiet_unary ih n) n
    have hequality := quiet_binaryProduction .equality (quiet_binaryProduction .comparison (quiet_binaryProduction .addition hmul n) n) n
    have hor : Quiet (logicOr n (assignment n)) (Result (.logic .or)) := quiet_logic .or (quiet_logic .and hequality n) n
    refine (hor.bind fun x => quiet_here.bind fun equals => (quiet_advance.bind fun _ => ih.bind fun value => quiet_assign equals value x).ite
      (p := equals.type = .equal) (silent_pure x)).imp fun c y c' h => ?_
    obtain ⟨x, c₁, hx, equals, _, ⟨rfl, hequals⟩, ⟨htype, _, c₂, ⟨t, ht⟩, value, c₃, hvalue, hdone⟩ | ⟨-, rfl, rfl⟩⟩ := h
    · obtain rfl := Option.some.inj (ht.head.symm.trans hequals)
      obtain ⟨rfl, hlift⟩ := hdone htype
      obtain ⟨ts, hts, hlegible⟩ := hx.legible (not_onThis hequals (by rw [htype]; decide))
      refine ⟨hx.1, hvalue.2.imp_left fun ⟨us, hus, hright⟩ => ?_⟩
      exact ⟨ts ++ t :: us, hts.trans (ht.trans hus), hlift ts us hlegible hright⟩
    · exact hx.lift fun ts hts => .ofOr hts

end Expressions

end Reading.Clox.Parse
