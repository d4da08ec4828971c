import Reading.Clox.Silent

/-!
# The programs that are parsed without an error

A parser that has printed no error has read a sequence of declarations and returns their trees. `parse` returns its list also after errors, though: a routine whose call to `consume` failed mostly goes on, and what is missing is a null pointer in the tree. Of the lists that `parse` returns, those for legible programs are the ones that come without an error and with nothing missing.
-/

namespace Reading.Clox.Parse

open Lib Lib.Attempt

/-! ### Steps of statements -/

section Steps

variable {c c' : Cursor} {type : TokenType} {n : Nat}

/-- A token of the type is passed over. -/
theorem quiet_expect {α : Type} {g : Rule α} {R : Cursor → α → Cursor → Prop} {msg : String} (hg : Quiet g R) :
    Quiet (consume type msg >>= fun _ => g) fun c a c' => ∃ (t : Tok type) (c₁ : Cursor), Moves c [t.1] c₁ ∧ R c₁ a c' := by
  refine ((quiet_consume type msg).bind fun _ => hg).imp fun c a c' h => ?_
  obtain ⟨_, c₁, ⟨t, -, ht⟩, hg⟩ := h
  exact ⟨t, c₁, ht, hg⟩

theorem quiet_behind {α : Type} {r : Rule α} {R : Cursor → α → Cursor → Prop} (h : Quiet r R) :
    Quiet (behind r) fun c a c' => ∃ (t : Token) (c₁ : Cursor), Moves c [t] c₁ ∧ R c₁ a c' := by
  refine (quiet_advance.bind fun _ => h).imp fun c a c' h => ?_
  obtain ⟨_, c₁, ⟨t, ht⟩, h⟩ := h
  exact ⟨t, c₁, ht, h⟩

theorem quiet_newTerminatedStatement (stmt : Stmt) :
    Quiet (newTerminatedStatement stmt) fun c s c' => ∃ semicolon : Tok .semicolon, Moves c [semicolon.1] c' ∧ s = stmt := by
  refine (quiet_consume_bind (silent_pure Stmt.null) fun _ => silent_pure stmt).imp fun c s c' h => ?_
  obtain ⟨semicolon, c₁, hsemicolon, rfl, rfl⟩ := h
  exact ⟨semicolon, hsemicolon, rfl⟩

theorem quiet_terminated (n : Nat) (f : Expr → Stmt) :
    Quiet (expression n >>= fun x => newTerminatedStatement (f x)) fun c s c' =>
      ∃ ts x, ∃ semicolon : Tok .semicolon, Moves c (ts ++ [semicolon.1]) c' ∧ Legible .assignment ts [x] ∧ s = f x := by
  refine ((quiet_assignment n).bind fun x => quiet_newTerminatedStatement (f x)).imp fun c s c' h => ?_
  obtain ⟨x, c₁, hx, semicolon, hsemicolon, rfl⟩ := h
  obtain ⟨ts, hts, hlegible⟩ := hx.legible (not_onThis hsemicolon.head (by rw [semicolon.2]; decide))
  exact ⟨ts, x, semicolon, hts.trans hsemicolon, hlegible, rfl⟩

/-- A condition up to its parenthesis. -/
theorem quiet_condition {α : Type} {g : Expr → Rule α} {R : Expr → Cursor → α → Cursor → Prop} {msg : String} (n : Nat)
    (hg : ∀ x, Quiet (g x) (R x)) : Quiet (expression n >>= fun x => consume .rightParen msg >>= fun _ => g x) fun c a c' =>
      ∃ ts x, ∃ right : Tok .rightParen, ∃ c₁, Moves c (ts ++ [right.1]) c₁ ∧ Legible .assignment ts [x] ∧ R x c₁ a c' := by
  refine ((quiet_assignment n).bind fun x => quiet_expect (hg x)).imp fun c a c' h => ?_
  obtain ⟨x, c₁, hx, right, c₂, hright, h⟩ := h
  obtain ⟨ts, hts, hlegible⟩ := hx.legible (not_onThis hright.head (by rw [right.2]; decide))
  exact ⟨ts, x, right, c₂, hts.trans hright, hlegible, h⟩

theorem quiet_clause (n : Nat) (tkn : Token) (type : TokenType) : Quiet (clause n tkn type) fun c x c' =>
    tkn.type = type ∧ x = .null ∧ c' = c ∨ ¬tkn.type = type ∧ Result .assignment c x c' :=
  (silent_pure Expr.null).ite (quiet_assignment n)

theorem quiet_initializer (n : Nat) : Quiet (initializer n) fun c x c' =>
    (∃ (equals : Tok .equal) (c₁ : Cursor), Moves c [equals.1] c₁ ∧ Result .assignment c₁ x c') ∨ x = .null ∧ c' = c := by
  refine (quiet_here.bind fun tkn => (quiet_advance.bind fun _ => quiet_assignment n).ite (p := tkn.type = .equal)
    (silent_pure Expr.null)).imp fun c x c' h => ?_
  obtain ⟨tkn, _, ⟨rfl, htkn⟩, ⟨hequal, _, c₁, ⟨t, ht⟩, hx⟩ | ⟨-, hnone⟩⟩ := h
  · obtain rfl := Option.some.inj (ht.head.symm.trans htkn)
    exact .inl ⟨⟨t, hequal⟩, c₁, ht, hx⟩
  · exact .inr hnone

theorem quiet_varDeclaration (n : Nat) : Quiet (varDeclaration n) fun c s c' => ∃ ts, Moves c ts c' ∧ LegibleVar ts s := by
  refine (quiet_consume_bind (silent_pure Stmt.null) fun name => (quiet_initializer n).bind fun init =>
    quiet_newTerminatedStatement (.varDeclaration init name)).imp fun c s c' h => ?_
  obtain ⟨name, c₁, hname, init, c₂, hinit, semicolon, hsemicolon, rfl⟩ := h
  obtain ⟨equals, c₃, hequals, hx⟩ | ⟨rfl, rfl⟩ := hinit
  · obtain ⟨ts, hts, hlegible⟩ := hx.legible (not_onThis hsemicolon.head (by rw [semicolon.2]; decide))
    exact ⟨_, hname.trans (hequals.trans (hts.trans hsemicolon)), .init name equals hlegible semicolon⟩
  · exact ⟨_, hname.trans hsemicolon, .bare name semicolon⟩

theorem quiet_forInitializer (n : Nat) : Quiet (forInitializer n) fun c s c' => ∃ ts, Moves c ts c' ∧ LegibleInit ts s := by
  refine (quiet_here.bind fun tkn => (quiet_advance.bind fun _ => silent_pure Stmt.null).ite (p := tkn.type = .semicolon)
    ((quiet_advance.bind fun _ => quiet_varDeclaration n).ite (p := tkn.type = .varKey)
      (quiet_advance.bind fun _ => quiet_terminated n .expr))).imp fun c s c' h => ?_
  obtain ⟨tkn, _, ⟨rfl, htkn⟩, h⟩ := h
  obtain ⟨htype, _, c₁, ⟨t, ht⟩, rfl, rfl⟩ | ⟨hsemicolon, ⟨htype, _, c₁, ⟨t, ht⟩, ts, hts, hvar⟩ | ⟨hvar, _, c₁, ⟨t, ht⟩, h⟩⟩ := h
  · obtain rfl := Option.some.inj (ht.head.symm.trans htkn)
    exact ⟨_, ht, .none ⟨t, htype⟩⟩
  · obtain rfl := Option.some.inj (ht.head.symm.trans htkn)
    exact ⟨_, ht.trans hts, .var ⟨t, htype⟩ hvar⟩
  · obtain rfl := Option.some.inj (ht.head.symm.trans htkn)
    obtain ⟨ts, x, semicolon, hts, hx, rfl⟩ := h
    exact ⟨_, ht.trans hts, .expr t ⟨hsemicolon, hvar⟩ hx semicolon⟩

end Steps

/-! ### Statements -/

/-- A form of one tree has been read. -/
def HasRead (f : Form) (c : Cursor) (x : Stmt) (c' : Cursor) : Prop := ∃ ts, Moves c ts c' ∧ LegibleForm true f ts [x]

/-- A statement has been read. There is no `else` behind one that could take it. -/
def StatementRead (c : Cursor) (x : Stmt) (c' : Cursor) : Prop :=
  ∃ d ts, Moves c ts c' ∧ LegibleForm true (.statement d) ts [x] ∧ (d = true → ∃ u, c'.ahead.head? = some u ∧ u.type ≠ .elseKey)

section Statements

variable {c c' : Cursor} {declaration statement rule : Rule Stmt}

theorem StatementRead.of_closed {x : Stmt} {ts : List Token} (h : Moves c ts c') (hx : LegibleForm true (.statement false) ts [x]) :
    StatementRead c x c' := ⟨false, ts, h, hx, fun hd => Bool.noConfusion hd⟩

theorem quiet_untilBrace {P : List Token → Stmt → Prop} {L : List Token → List Stmt → Prop}
    (hr : Quiet rule fun c x c' => ∃ ts, Moves c ts c' ∧ P ts x) (hnil : L [] [])
    (hcons : ∀ {ts x us ys}, P ts x → L us ys → L (ts ++ us) (x :: ys)) (n : Nat) (inner : List Stmt) :
    Quiet (untilBrace rule n inner) fun c xs c' => ∃ ts ys, Moves c ts c' ∧ xs = inner ++ ys ∧ L ts ys := by
  induction n generalizing inner with
  | zero => exact silent_fail
  | succ n ih =>
    refine (quiet_here.bind fun tkn => (hr.bind fun x => ih (inner ++ [x])).ite (p := tkn.type ≠ .rightBrace ∧ tkn.type ≠ .endOfFile)
      (silent_pure inner)).imp fun c xs c' h => ?_
    obtain ⟨tkn, _, ⟨rfl, -⟩, ⟨-, x, c₁, ⟨ts, hts, hx⟩, us, ys, hus, rfl, hys⟩ | ⟨-, rfl, rfl⟩⟩ := h
    · exact ⟨ts ++ us, x :: ys, hts.trans hus, by rw [List.append_assoc, List.singleton_append], hcons hx hys⟩
    · exact ⟨[], [], .refl _, (List.append_nil _).symm, hnil⟩

theorem quiet_blockStatements (hd : Quiet declaration (HasRead .declaration)) (n : Nat) :
    Quiet (blockStatements n declaration) fun c s c' => ∃ ts xs, ∃ right : Tok .rightBrace, Moves c (ts ++ [right.1]) c' ∧
      LegibleForm true .declarations ts xs ∧ s = .block xs := by
  refine ((quiet_untilBrace (L := LegibleForm true .declarations) hd .noDeclaration .moreDeclarations n []).bind fun inner =>
    quiet_expect (silent_pure (Stmt.block inner))).imp fun c s c' h => ?_
  obtain ⟨inner, c₁, ⟨ts, xs, hts, rfl, hxs⟩, right, c₂, hright, rfl, rfl⟩ := h
  exact ⟨ts, _, right, hts.trans hright, hxs, rfl⟩

theorem quiet_elseStatement (hs : Quiet statement StatementRead) : Quiet (elseStatement statement) fun c x c' =>
    (∃ (elseKey : Tok .elseKey) (c₁ : Cursor), Moves c [elseKey.1] c₁ ∧ StatementRead c₁ x c') ∨
      x = .null ∧ c' = c ∧ ∃ u, c.ahead.head? = some u ∧ u.type ≠ .elseKey := by
  refine (quiet_here.bind fun tkn => (quiet_advance.bind fun _ => hs).ite (p := tkn.type = .elseKey) (silent_pure Stmt.null)).imp
    fun c x c' h => ?_
  obtain ⟨tkn, _, ⟨rfl, htkn⟩, ⟨helse, _, c₁, ⟨t, ht⟩, hx⟩ | ⟨helse, rfl, rfl⟩⟩ := h
  · obtain rfl := Option.some.inj (ht.head.symm.trans htkn)
    exact .inl ⟨⟨t, helse⟩, c₁, ht, hx⟩
  · exact .inr ⟨rfl, rfl, tkn, htkn, helse⟩

theorem quiet_ifStatement (hs : Quiet statement StatementRead) (n : Nat) :
    Quiet (behind (ifStatement n statement)) fun c x c' => ∀ t, c.ahead.head? = some t → t.type = .ifKey → StatementRead c x c' := by
  refine (quiet_behind (quiet_expect (quiet_condition n fun condition => hs.bind fun thenStmt => (quiet_elseStatement hs).bind fun elseStmt =>
    silent_pure (Stmt.ifElse condition thenStmt elseStmt)))).imp fun c x c' h t hhead ht => ?_
  obtain ⟨u, c₁, hu, left, c₂, hleft, cts, condition, right, c₃, hright, hcond, thenStmt, c₄, hthen, elseStmt, c₅, helse, rfl, rfl⟩ := h
  obtain rfl := Option.some.inj (hu.head.symm.trans hhead)
  obtain ⟨d, ts, hts, hlegible, hd⟩ := hthen
  have hfront : Moves c (u :: left.1 :: (cts ++ [right.1])) c₃ := hu.trans (hleft.trans hright)
  obtain ⟨elseKey, c₆, hkey, e, us, hus, hlegible', he⟩ | ⟨rfl, rfl, hnext⟩ := helse
  · -- The first branch would have taken the `else`.
    have hfalse : d = false := by
      by_contra hne
      obtain ⟨v, hv, hvelse⟩ := hd (Bool.not_eq_false _ ▸ hne)
      obtain rfl := Option.some.inj (hkey.head.symm.trans hv)
      exact hvelse elseKey.2
    subst hfalse
    refine ⟨e, _, hfront.trans (hts.trans (hkey.trans hus)), ?_, he⟩
    have htree := LegibleForm.ifElse ⟨u, ht⟩ left hcond right hlegible elseKey hlegible'
    simpa only [List.cons_append, List.append_assoc, List.nil_append] using htree
  · refine ⟨true, _, hfront.trans hts, ?_, fun _ => hnext⟩
    have htree := LegibleForm.ifThen ⟨u, ht⟩ left hcond right hlegible
    simpa only [List.cons_append, List.append_assoc, List.nil_append] using htree

theorem quiet_whileStatement (hs : Quiet statement StatementRead) (n : Nat) :
    Quiet (behind (whileStatement n statement)) fun c x c' => ∀ t, c.ahead.head? = some t → t.type = .whileKey → StatementRead c x c' := by
  refine (quiet_behind (quiet_expect (quiet_condition n fun condition => hs.bind fun body =>
    silent_pure (Stmt.whileStmt condition body)))).imp fun c x c' h t hhead ht => ?_
  obtain ⟨u, c₁, hu, left, c₂, hleft, cts, condition, right, c₃, hright, hcond, body, c₄, ⟨d, ts, hts, hlegible, hd⟩, rfl, rfl⟩ := h
  obtain rfl := Option.some.inj (hu.head.symm.trans hhead)
  refine ⟨d, _, hu.trans (hleft.trans (hright.trans hts)), ?_, hd⟩
  have htree := LegibleForm.whileLoop ⟨u, ht⟩ left hcond right hlegible
  simpa only [List.cons_append, List.append_assoc, List.nil_append] using htree

theorem quiet_forStatement (hs : Quiet statement StatementRead) (n : Nat) :
    Quiet (behind (forStatement n statement)) fun c x c' => ∀ t, c.ahead.head? = some t → t.type = .forKey → StatementRead c x c' := by
  refine (quiet_behind (quiet_expect ((quiet_forInitializer n).bind fun init => quiet_here.bind fun tkn =>
    (quiet_clause n tkn .semicolon).bind fun condition => quiet_expect ((quiet_clause n tkn .rightParen).bind fun step =>
      quiet_expect (hs.bind fun body => silent_pure (wrapFor init condition step body)))))).imp fun c x c' h t hhead ht => ?_
  obtain ⟨u, c₁, hu, left, c₂, hleft, init, _, ⟨its, hits, hinit⟩, tkn, c₃, ⟨rfl, htkn⟩, condition, c₄, hcond, semicolon, c₅, hsemicolon, h⟩ := h
  obtain ⟨step, c₆, hstep, right, c₇, hright, body, c₈, ⟨d, ts, hts, hlegible, hd⟩, rfl, rfl⟩ := h
  obtain rfl := Option.some.inj (hu.head.symm.trans hhead)
  have hnotParen : tkn.type ≠ .rightParen := by
    obtain ⟨hempty, -⟩ | ⟨-, hx⟩ := hcond
    · rw [hempty]
      decide
    · have hall : ∀ type ∈ Level.starts .assignment, type ≠ .rightParen := by decide
      exact hall _ (hx.start htkn)
  have hcond' : ∃ cts, Moves c₃ cts c₄ ∧ LegibleClause cts condition := by
    obtain ⟨-, rfl, rfl⟩ | ⟨-, hx⟩ := hcond
    · exact ⟨[], .refl _, .none⟩
    · obtain ⟨cts, hcts, hx⟩ := hx.legible (not_onThis hsemicolon.head (by rw [semicolon.2]; decide))
      exact ⟨cts, hcts, .some hx⟩
  obtain ⟨cts, hcts, hclause⟩ := hcond'
  obtain ⟨-, hstep⟩ := hstep.resolve_left fun hempty => hnotParen hempty.1
  obtain ⟨sts, hsts, hy⟩ := hstep.legible (not_onThis hright.head (by rw [right.2]; decide))
  have hne : sts ≠ [] := by
    obtain ⟨v, vs, rfl, -⟩ := hy.first
    exact List.cons_ne_nil _ _
  refine ⟨d, _, hu.trans (hleft.trans (hits.trans (hcts.trans (hsemicolon.trans (hsts.trans (hright.trans hts)))))), ?_, hd⟩
  exact .forLoop ⟨u, ht⟩ left hinit hclause semicolon (.some hy) (fun _ => hne) right hlegible

theorem quiet_returnStatement (n : Nat) :
    Quiet (behind (returnStatement n)) fun c x c' => ∀ t, c.ahead.head? = some t → t.type = .returnKey → StatementRead c x c' := by
  refine (quiet_behind (quiet_previous.bind fun keyword => quiet_here.bind fun tkn => (quiet_clause n tkn .semicolon).bind fun value =>
    quiet_expect (silent_pure (Stmt.returnStmt keyword value)))).imp fun c x c' h t hhead ht => ?_
  obtain ⟨u, c₁, hu, keyword, _, ⟨rfl, hkeyword⟩, tkn, _, ⟨rfl, -⟩, value, c₂, hvalue, semicolon, c₃, hsemicolon, rfl, rfl⟩ := h
  obtain rfl := Option.some.inj (hu.head.symm.trans hhead)
  rw [hu.before] at hkeyword
  obtain rfl := Option.some.inj hkeyword
  obtain ⟨-, rfl, rfl⟩ | ⟨-, hx⟩ := hvalue
  · exact .of_closed (hu.trans hsemicolon) (.returns ⟨u, ht⟩ .none semicolon)
  · obtain ⟨ts, hts, hx⟩ := hx.legible (not_onThis hsemicolon.head (by rw [semicolon.2]; decide))
    exact .of_closed (hu.trans (hts.trans hsemicolon)) (.returns ⟨u, ht⟩ (.some hx) semicolon)

end Statements

section Declarations

variable {c c' : Cursor} {declaration : Rule Stmt}

theorem quiet_statement (hd : Quiet declaration (HasRead .declaration)) (n : Nat) : Quiet (statement declaration n) StatementRead := by
  induction n with
  | zero => exact silent_fail
  | succ n ih =>
    refine (quiet_here.bind (R := fun tkn c x c' => c.ahead.head? = some tkn → StatementRead c x c') fun tkn => ?_).imp
      fun c x c' h => ?_
    · split
      · refine (quiet_behind (quiet_terminated n .print)).imp fun c x c' h hhead => ?_
        obtain ⟨t, c₁, ht, ts, x, semicolon, hts, hx, rfl⟩ := h
        obtain rfl := Option.some.inj (ht.head.symm.trans hhead)
        exact .of_closed (ht.trans hts) (.print ⟨t, ‹_›⟩ hx semicolon)
      · refine (quiet_behind (quiet_blockStatements hd n)).imp fun c x c' h hhead => ?_
        obtain ⟨t, c₁, ht, ts, xs, right, hts, hxs, rfl⟩ := h
        obtain rfl := Option.some.inj (ht.head.symm.trans hhead)
        exact .of_closed (ht.trans hts) (.block ⟨t, ‹_›⟩ hxs right)
      · exact (quiet_ifStatement ih n).imp fun c x c' h hhead => h tkn hhead ‹_›
      · exact (quiet_forStatement ih n).imp fun c x c' h hhead => h tkn hhead ‹_›
      · exact (quiet_whileStatement ih n).imp fun c x c' h hhead => h tkn hhead ‹_›
      · exact (quiet_returnStatement n).imp fun c x c' h hhead => h tkn hhead ‹_›
      · refine (quiet_terminated n .expr).imp fun c x c' h _ => ?_
        obtain ⟨ts, x, semicolon, hts, hx, rfl⟩ := h
        exact .of_closed hts (.expr hx semicolon)
    · obtain ⟨tkn, _, ⟨rfl, htkn⟩, h⟩ := h
      exact h htkn

/-! ### Functions and classes -/

theorem quiet_tooManyParams (params : List Token) (tkn : Token) :
    Quiet (tooManyParams params tkn) fun c _ c' => c' = c ∧ params.length ≤ maxArgs := by
  refine ((quiet_parseError tkn _).ite (p := maxArgs < params.length) (silent_pure ())).imp fun c _ c' h => ?_
  obtain ⟨-, hfalse⟩ | ⟨hle, -, rfl⟩ := h
  · exact hfalse.elim
  · exact ⟨rfl, Nat.not_lt.1 hle⟩

theorem quiet_passComma (tkn : Token) : Quiet (passComma tkn) fun c _ c' =>
    tkn.type = .rightParen ∧ c' = c ∨ ¬tkn.type = .rightParen ∧ ∃ t, Moves c [t] c' := by
  refine ((silent_pure ()).ite (p := tkn.type = .rightParen) quiet_advance).imp fun c _ c' h => ?_
  exact h.imp_left fun ⟨hparen, _, heq⟩ => ⟨hparen, heq⟩

theorem quiet_paramsLoop (n : Nat) (params : List Token) (tkn : Token) : Quiet (paramsLoop n params tkn) fun c out c' =>
    ∃ ts names, Moves c ts c' ∧ LegibleNames ts names ∧ out = params ++ names ∧ out.length ≤ maxArgs + 1 := by
  induction n generalizing params tkn with
  | zero => exact silent_fail
  | succ n ih =>
    refine ((quiet_tooManyParams params tkn).bind fun _ => quiet_consume_bind (silent_fail (Q := fun _ _ _ => True)) fun name =>
      quiet_here.bind fun tkn => (quiet_passComma tkn).bind fun _ =>
        (ih (params ++ [name]) tkn).ite (p := tkn.type = .comma) (silent_pure (params ++ [name]))).imp fun c out c' h => ?_
    obtain ⟨_, _, ⟨rfl, hroom⟩, name, c₁, hname, tkn, _, ⟨rfl, htkn⟩, _, c₂, hpass, h⟩ := h
    have hlength : (params ++ [name.1]).length ≤ maxArgs + 1 := by
      rw [List.length_append]
      exact Nat.succ_le_succ hroom
    obtain ⟨hparen, rfl⟩ | ⟨hparen, t, ht⟩ := hpass
    · obtain ⟨hcomma, -⟩ | ⟨-, rfl, rfl⟩ := h
      · exact nomatch hparen.symm.trans hcomma
      · exact ⟨_, _, hname, .last name, rfl, hlength⟩
    · obtain rfl := Option.some.inj (ht.head.symm.trans htkn)
      obtain ⟨hcomma, ts, names, hts, hnames, rfl, hle⟩ | ⟨hcomma, rfl, rfl⟩ := h
      · exact ⟨_, _, hname.trans (ht.trans hts), .more name ⟨t, hcomma⟩ hnames, by rw [List.append_assoc, List.singleton_append], hle⟩
      · exact ⟨_, _, hname.trans ht, .passed name t ⟨hparen, hcomma⟩, rfl, hlength⟩

theorem quiet_parameters (n : Nat) : Quiet (parameters n) fun c names c' =>
    ∃ ts, Moves c ts c' ∧ LegibleParams ts names ∧ names.length ≤ maxArgs + 1 := by
  refine (quiet_here.bind fun tkn => (silent_pure []).ite (p := tkn.type = .rightParen) (quiet_paramsLoop n [] tkn)).imp
    fun c names c' h => ?_
  obtain ⟨tkn, _, ⟨rfl, -⟩, ⟨-, rfl, rfl⟩ | ⟨-, ts, names, hts, hnames, rfl, hle⟩⟩ := h
  · exact ⟨[], .refl _, .none, Nat.zero_le _⟩
  · exact ⟨ts, hts, .some hnames, hle⟩

theorem quiet_funStatement (hd : Quiet declaration (HasRead .declaration)) (n : Nat) (kind : String) :
    Quiet (funStatement n declaration kind) (HasRead .function) := by
  refine (quiet_consume_bind (silent_pure Stmt.null) fun name => quiet_expect ((quiet_parameters n).bind fun params =>
    quiet_expect (quiet_expect ((quiet_blockStatements hd n).bind fun body => silent_pure (Stmt.funStmt params name body))))).imp
    fun c x c' h => ?_
  obtain ⟨name, c₁, hname, left, c₂, hleft, params, c₃, ⟨pts, hpts, hparams, hroom⟩, right, c₄, hright, leftBrace, c₅, hbrace, h⟩ := h
  obtain ⟨body, c₆, ⟨ts, xs, rightBrace, hts, hxs, rfl⟩, rfl, rfl⟩ := h
  exact ⟨_, hname.trans (hleft.trans (hpts.trans (hright.trans (hbrace.trans hts)))),
    .function name left hparams (fun _ => hroom) right leftBrace hxs rightBrace⟩

theorem quiet_superClass : Quiet superClass fun c o c' =>
    ∃ super, Moves c (superTokens super) c' ∧ o = some (superTree super) := by
  refine (quiet_here.bind fun tkn => (quiet_advance.bind fun _ => quiet_consume_bind (silent_pure (none : Option Expr)) fun name =>
    silent_pure (some (Expr.var name))).ite (p := tkn.type = .less) (silent_pure (some Expr.null))).imp fun c o c' h => ?_
  obtain ⟨tkn, _, ⟨rfl, htkn⟩, ⟨hless, _, c₁, ⟨t, ht⟩, name, c₂, hname, rfl, rfl⟩ | ⟨-, rfl, rfl⟩⟩ := h
  · obtain rfl := Option.some.inj (ht.head.symm.trans htkn)
    exact ⟨some (⟨t, hless⟩, name), ht.trans hname, rfl⟩
  · exact ⟨none, .refl _, rfl⟩

theorem quiet_classStatement (hd : Quiet declaration (HasRead .declaration)) (n : Nat) : Quiet (behind (classStatement n declaration))
    fun c x c' => ∀ t, c.ahead.head? = some t → t.type = .classKey → HasRead .declaration c x c' := by
  refine (quiet_behind (quiet_consume_bind (silent_pure Stmt.null) fun name => quiet_superClass.bind (R := fun o c x c' =>
    ∀ super, o = some super → ∃ left : Tok .leftBrace, ∃ ts xs, ∃ right : Tok .rightBrace, Moves c (left.1 :: (ts ++ [right.1])) c' ∧
      LegibleForm true .methods ts xs ∧ x = .classStmt name xs super) fun o => ?_)).imp fun c x c' h t hhead ht => ?_
  · cases o with
    | none => exact (silent_pure Stmt.null).imp fun _ _ _ _ _ h => absurd h (Option.some_ne_none _).symm
    | some super =>
      refine (quiet_expect ((quiet_untilBrace (L := LegibleForm true .methods) (quiet_funStatement hd n "method") .noMethod .moreMethods n
        []).bind fun methods => quiet_expect (silent_pure (Stmt.classStmt name methods super)))).imp fun c x c' h _ heq => ?_
      obtain rfl := Option.some.inj heq
      obtain ⟨left, c₁, hleft, methods, c₂, ⟨ts, xs, hts, rfl, hxs⟩, right, c₃, hright, rfl, rfl⟩ := h
      exact ⟨left, ts, _, right, hleft.trans (hts.trans hright), hxs, rfl⟩
  obtain ⟨u, c₁, hu, name, c₂, hname, _, c₃, ⟨super, hsuper, rfl⟩, hbody⟩ := h
  obtain rfl := Option.some.inj (hu.head.symm.trans hhead)
  obtain ⟨left, ts, xs, right, hts, hxs, rfl⟩ := hbody _ rfl
  exact ⟨_, hu.trans (hname.trans (hsuper.trans hts)), .cls ⟨u, ht⟩ name super left hxs right⟩

/-! ### Declarations -/

theorem quiet_synchronizeLoop (token : Token) (n : Nat) : Quiet (synchronizeLoop token n) fun _ _ _ => True := by
  induction n with
  | zero => exact silent_fail
  | succ n ih =>
    exact (quiet_previous.bind fun prev => (silent_pure ()).ite (p := prev.type = .semicolon) ((silent_pure ()).ite
      (p := token.type ∈ [.classKey, .funKey, .varKey, .forKey, .ifKey, .whileKey, .printKey, .returnKey])
      (quiet_advance.bind fun _ => ih))).imp fun _ _ _ _ => trivial

theorem quiet_synchronize (n : Nat) : Quiet (synchronize n) fun _ _ _ => True :=
  (quiet_advance.bind fun _ => quiet_atNull.bind fun null => (silent_pure ()).ite (p := null = true) (quiet_here.bind fun token =>
    (silent_pure ()).ite (p := token.type = .endOfFile) (quiet_synchronizeLoop token n))).imp fun _ _ _ _ => trivial

/-- There is nothing to recover from. -/
theorem quiet_recover {rule : Rule Stmt} {Q : Cursor → Stmt → Cursor → Prop} (h : Quiet rule Q)
    (hnull : ∀ c x c', Q c x c' → x.isNull = false) (n : Nat) : Quiet (recover n rule) Q := by
  refine (h.bind fun stmt => ((quiet_synchronize n).bind fun _ => silent_pure stmt).ite (p := stmt.isNull = true) (silent_pure stmt)).imp
    fun c x c' h => ?_
  obtain ⟨stmt, c₁, hq, ⟨htrue, -⟩ | ⟨-, rfl, rfl⟩⟩ := h
  · exact nomatch htrue.symm.trans (hnull _ _ _ hq)
  · exact hq

theorem quiet_declaration (n : Nat) : Quiet (Parse.declaration n) (HasRead .declaration) := by
  induction n with
  | zero => exact silent_fail
  | succ n ih =>
    refine (quiet_here.bind (R := fun tkn c x c' => c.ahead.head? = some tkn → HasRead .declaration c x c') fun tkn => ?_).imp
      fun c x c' h => ?_
    · split
      · exact (quiet_classStatement ih n).imp fun c x c' h hhead => h tkn hhead ‹_›
      · refine (quiet_behind (quiet_funStatement ih n "function")).imp fun c x c' h hhead => ?_
        obtain ⟨t, c₁, ht, ts, hts, hx⟩ := h
        obtain rfl := Option.some.inj (ht.head.symm.trans hhead)
        exact ⟨_, ht.trans hts, .func ⟨t, ‹_›⟩ hx⟩
      · refine (quiet_recover (quiet_behind (quiet_varDeclaration n)) ?_ n).imp fun c x c' h hhead => ?_
        · intro c x c' ⟨t, c₁, ht, ts, hts, hx⟩
          exact hx.isNull
        · obtain ⟨t, c₁, ht, ts, hts, hx⟩ := h
          obtain rfl := Option.some.inj (ht.head.symm.trans hhead)
          exact ⟨_, ht.trans hts, .var ⟨t, ‹_›⟩ hx⟩
      · refine (quiet_recover (quiet_statement ih n) ?_ n).imp fun c x c' h _ => ?_
        · intro c x c' ⟨d, ts, hts, hx, hd⟩
          exact hx.isNull_statement
        · obtain ⟨d, ts, hts, hx, -⟩ := h
          exact ⟨ts, hts, .ofStatement hx⟩
    · obtain ⟨tkn, _, ⟨rfl, htkn⟩, h⟩ := h
      exact h htkn

theorem quiet_parseLoop (n : Nat) (stmts : List Stmt) : Quiet (parseLoop n stmts) fun c o c' =>
    ∃ ts xs eof, Moves c ts c' ∧ c'.ahead.head? = some eof ∧ eof.type = .endOfFile ∧ o = some (stmts ++ xs) ∧
      LegibleForm true .declarations ts xs := by
  induction n generalizing stmts with
  | zero => exact silent_fail
  | succ n ih =>
    refine (quiet_here.bind fun head => (silent_pure (some stmts)).ite (p := head.type = .endOfFile) ((quiet_declaration n).bind fun stmt =>
      ((silent_pure none).ite (p := stmtsDestroy stmts = true) (silent_fail (Q := fun _ _ _ => True))).ite (p := stmt.isNull = true)
        (ih (stmts ++ [stmt])))).imp fun c o c' h => ?_
    obtain ⟨head, _, ⟨rfl, hhead⟩, ⟨heof, rfl, rfl⟩ | ⟨-, stmt, c₁, ⟨ts, hts, hx⟩, ⟨hnull, -⟩ | ⟨-, hloop⟩⟩⟩ := h
    · exact ⟨[], [], head, .refl _, hhead, heof, by rw [List.append_nil], .noDeclaration⟩
    · exact nomatch hnull.symm.trans hx.isNull_declaration
    · obtain ⟨us, xs, eof, hus, hend, heof, rfl, hxs⟩ := hloop
      exact ⟨ts ++ us, stmt :: xs, eof, hts.trans hus, hend, heof, by rw [List.append_assoc, List.singleton_append],
        .moreDeclarations hx hxs⟩

end Declarations

/-! ### Complete trees -/

mutual

/-- No expression is missing. -/
def Expr.complete : Expr → Bool
  | .null => false
  | .unary _ expr | .grouping expr | .assignment _ expr | .get expr _ => expr.complete
  | .binary _ left right | .logical left _ right | .set left _ right => left.complete && right.complete
  | .call callee _ args => callee.complete && allComplete args
  | .literal _ | .var _ | .this _ | .super _ _ => true

def allComplete : List Expr → Bool
  | [] => true
  | expr :: exprs => expr.complete && allComplete exprs

end

mutual

/-- No expression or statement is missing but an initializer, a branch behind `else`, the value of a `return` or a superclass. -/
def Stmt.complete : Stmt → Bool
  | .null => false
  | .print expr | .expr expr => expr.complete
  | .varDeclaration expr _ | .returnStmt _ expr => expr.isNull || expr.complete
  | .block inner => stmtsComplete inner
  | .ifElse condition thenStmt elseStmt => condition.complete && thenStmt.complete && (elseStmt.isNull || elseStmt.complete)
  | .whileStmt condition body => condition.complete && body.complete
  | .funStmt _ _ body => body.complete
  | .classStmt _ methods super => stmtsComplete methods && (super.isNull || super.complete)

def stmtsComplete : List Stmt → Bool
  | [] => true
  | stmt :: stmts => stmt.complete && stmtsComplete stmts

end

section Complete

variable {k : Level} {ts : List Token} {x y : Expr} {xs : List Expr} {i body : Stmt}

theorem Legible.complete (h : Legible k ts xs) : allComplete xs = true := by
  induction h <;> simp_all [allComplete, Expr.complete]

theorem Legible.complete_tree (h : Legible k ts [x]) : x.complete = true := by
  simpa only [allComplete, Bool.and_true] using h.complete

theorem LegibleClause.complete (h : LegibleClause ts x) : (x.isNull || x.complete) = true := by
  cases h with
  | none => rfl
  | some expr => rw [expr.complete_tree, Bool.or_true]

theorem LegibleVar.complete (h : LegibleVar ts i) : i.complete = true := by
  cases h with
  | bare name semicolon => rfl
  | init name equals expr semicolon => simp only [Stmt.complete, expr.complete_tree, Bool.or_true]

theorem LegibleInit.complete (h : LegibleInit ts i) : (i.isNull || i.complete) = true := by
  cases h with
  | none semicolon => rfl
  | var keyword v => rw [v.complete, Bool.or_true]
  | expr skipped hskipped expr semicolon => simp only [Stmt.complete, expr.complete_tree, Bool.or_true]

theorem complete_wrapFor (hi : (i.isNull || i.complete) = true) (hx : (x.isNull || x.complete) = true)
    (hy : (y.isNull || y.complete) = true) (hbody : body.complete = true) : (wrapFor i x y body).complete = true := by
  have hstep : (if y.isNull then body else .block [body, .expr y]).complete = true := by
    cases hnull : y.isNull with
    | true => simpa [hnull] using hbody
    | false =>
      rw [hnull, Bool.false_or] at hy
      simp [Stmt.complete, stmtsComplete, hbody, hy]
  have hcondition : (if x.isNull then Expr.literal (.bool true) else x).complete = true := by
    cases hnull : x.isNull with
    | true => rfl
    | false =>
      rw [hnull, Bool.false_or] at hx
      exact hx
  simp only [wrapFor]
  cases hnull : i.isNull with
  | true => simp only [if_true, Stmt.complete, hcondition, hstep, Bool.and_true]
  | false =>
    rw [hnull, Bool.false_or] at hi
    simp only [Bool.false_eq_true, if_false, Stmt.complete, stmtsComplete, hi, hcondition, hstep, Bool.and_true]

theorem LegibleForm.complete {quiet : Bool} {f : Form} {stmts : List Stmt} (h : LegibleForm quiet f ts stmts) : stmtsComplete stmts = true := by
  induction h with
  | print keyword expr semicolon | expr expr semicolon => simp [stmtsComplete, Stmt.complete, expr.complete_tree]
  | block left inner right ih => simp [stmtsComplete, Stmt.complete, ih]
  | ifThen keyword left condition right thenStmt ih =>
    simp only [stmtsComplete, Bool.and_true] at ih
    simp [stmtsComplete, Stmt.complete, condition.complete_tree, ih, Stmt.isNull]
  | ifElse keyword left condition right thenStmt elseKey elseStmt ih ihe =>
    simp only [stmtsComplete, Bool.and_true] at ih ihe
    simp [stmtsComplete, Stmt.complete, condition.complete_tree, ih, ihe]
  | whileLoop keyword left condition right body ih =>
    simp only [stmtsComplete, Bool.and_true] at ih
    simp [stmtsComplete, Stmt.complete, condition.complete_tree, ih]
  | forLoop keyword left init condition semicolon step hstep right body ih =>
    simp only [stmtsComplete, Bool.and_true] at ih ⊢
    exact complete_wrapFor init.complete condition.complete step.complete ih
  | returns keyword value semicolon => simpa [stmtsComplete, Stmt.complete] using value.complete
  | ofStatement stmt ih => exact ih
  | var keyword v => simp [stmtsComplete, v.complete]
  | func keyword f ih => exact ih
  | cls keyword name super left methods right ih =>
    cases super <;> simp [stmtsComplete, Stmt.complete, ih, superTree, Expr.isNull, Expr.complete]
  | noDeclaration | noMethod => rfl
  | moreDeclarations first others ih iho | moreMethods first others ih iho =>
    simp only [stmtsComplete, Bool.and_true] at ih ⊢
    rw [ih, iho]
    rfl
  | function name left params hroom right leftBrace body rightBrace ih => simp [stmtsComplete, Stmt.complete, ih]

end Complete

/-! ### Programs -/

/-- The tokens up to the end of the file are a program that is read without an error. -/
def LegibleProgram (tokens : List Token) : Prop :=
  ∃ ts eof rest trees, tokens = ts ++ eof :: rest ∧ eof.type = .endOfFile ∧ LegibleForm true .declarations ts trees

variable {n : Nat} {tokens : List Token} {stmts : List Stmt} {c : Cursor}

/-- The statements that `parse` returns come without an error and with nothing missing if and only if the tokens are a program. -/
theorem parse_sound_iff (h : parse n tokens = some (some stmts, c)) :
    c.errors = [] ∧ stmtsComplete stmts = true ↔ LegibleProgram tokens := by
  constructor
  · intro ⟨herrors, _⟩
    obtain ⟨more, hmore, hread⟩ := quiet_parseLoop n [] _ _ _ h
    rw [herrors] at hmore
    obtain ⟨ts, xs, eof, hts, hend, heof, -, hxs⟩ := hread hmore.symm
    obtain ⟨rest, hrest⟩ := List.head?_eq_some_iff.1 hend
    exact ⟨ts, eof, rest, xs, hrest ▸ hts.ahead, heof, hxs⟩
  · rintro ⟨ts, eof, rest, trees, rfl, heof, hlegible⟩
    obtain ⟨errors, hquiet, hread⟩ := hlegible.parseLoop_reads rfl [] heof [] rest []
    have heq := Yields.unique (fun _ _ hle => parseLoop_le hle []) ⟨n, h⟩ hread
    obtain ⟨hstmts, rfl⟩ := Prod.mk.inj heq
    obtain rfl := Option.some.inj hstmts
    exact ⟨hquiet rfl, hlegible.complete⟩

/-- `print nil;` and the end of the file. -/
def printNil : List Token := [{ type := .printKey }, { type := .nilKey }, { type := .semicolon }, { type := .endOfFile }]

theorem parse_printNil : ∃ stmts c, parse 20 printNil = some (some stmts, c) ∧
    (c.errors = [] ∧ stmtsComplete stmts = true ↔ LegibleProgram printNil) :=
  ⟨_, _, rfl, parse_sound_iff (n := 20) rfl⟩

/-- `print;` and the end of the file. -/
def printNothing : List Token := [{ type := .printKey }, { type := .semicolon }, { type := .endOfFile }]

/-- An error is printed, and `parse` returns a statement that prints a null pointer. -/
theorem parse_printNothing : ¬∀ n tokens stmts c, parse n tokens = some (some stmts, c) → c.errors = [] ∧ stmtsComplete stmts = true := by
  intro h
  have hrun : ∃ stmts c, parse 20 printNothing = some (some stmts, c) ∧ stmtsComplete stmts = false := ⟨_, _, rfl, rfl⟩
  obtain ⟨stmts, c, hparse, hcomplete⟩ := hrun
  exact Bool.noConfusion (hcomplete.symm.trans (h _ _ _ _ hparse).2)

end Reading.Clox.Parse
