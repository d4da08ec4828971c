import Reading.Clox.Watched

/-!
# Every watched run comes to an end

On tokens that end with the end of the file, a routine under watch that is not stopped leaves the cursor on a token and not further from the end. An operand leaves it where it was when it was on `or` or `and`, so `logicOr` and `logicAnd` go on at the token that they looked at. Each round of a loop and each call of a routine inside itself has passed a token, so a bound above the number of the tokens is enough. `parse` returns exactly if its run under watch is not stopped.
-/

namespace Reading.Clox.Parse

open Lib Lib.Attempt Lib.Checked

/-! ### Where the cursor is -/

/-- The tokens from the cursor on end with the end of the file. -/
def Cursor.Ended (c : Cursor) : Prop := ∃ tkn ∈ c.ahead.getLast?, tkn.type = .endOfFile

section Ended

variable {c c' c'' : Cursor} {tkn : Token} {ahead : List Token} {type : TokenType} {still : List TokenType}

theorem Cursor.Ended.cons (h : c.Ended) : ∃ tkn ahead, c.ahead = tkn :: ahead := by
  obtain ⟨last, hlast, -⟩ := h
  cases hahead : c.ahead with
  | nil =>
    rw [hahead] at hlast
    cases hlast
  | cons tkn ahead => exact ⟨tkn, ahead, rfl⟩

theorem Cursor.Ended.pos (h : c.Ended) : 0 < c.ahead.length := by
  obtain ⟨tkn, ahead, hahead⟩ := h.cons
  rw [hahead]
  exact Nat.succ_pos _

/-- Only the last token has no token behind it. -/
theorem Cursor.Ended.tail (h : c.Ended) (hahead : c.ahead = tkn :: ahead) (hc' : c'.ahead = ahead) :
    c'.Ended ∨ ahead = [] ∧ tkn.type = .endOfFile := by
  obtain ⟨last, hlast, htype⟩ := h
  rw [hahead] at hlast
  cases ahead with
  | nil =>
    obtain rfl := Option.some.inj hlast
    exact .inr ⟨rfl, htype⟩
  | cons t ts =>
    refine .inl ⟨last, ?_, htype⟩
    rwa [hc', ← List.getLast?_cons_cons]

theorem Cursor.Ended.of_eq (h : c.Ended) (heq : c'.ahead = c.ahead) : c'.Ended := by
  rw [Cursor.Ended, heq]
  exact h

theorem at_iff (hahead : c.ahead = tkn :: ahead) : c.At type ↔ tkn.type = type := by
  rw [Cursor.At, hahead]
  exact Option.some_inj

theorem Cursor.Ended.two_le (h : c.Ended) (hahead : c.ahead = tkn :: ahead) (htype : tkn.type ≠ .endOfFile) : 2 ≤ c.ahead.length := by
  have htail : Cursor.Ended { c with ahead := ahead } := (h.tail hahead rfl).resolve_right fun hlast => htype hlast.2
  rw [hahead]
  exact Nat.succ_le_succ htail.pos

/-- The cursor did not move away from the end, and not at all from a token of one of the types. -/
structure Stays (still : List TokenType) (c c' : Cursor) : Prop where
  ended : c'.Ended
  le : c'.ahead.length ≤ c.ahead.length
  still : ∀ type ∈ still, c.At type → c'.ahead = c.ahead

theorem Stays.of_eq (h : c.Ended) (heq : c'.ahead = c.ahead) : Stays still c c' := ⟨h.of_eq heq, by rw [heq], fun _ _ _ => heq⟩

theorem Stays.refl (h : c.Ended) : Stays still c c := .of_eq h rfl

theorem Stays.of_ne (hahead : c.ahead = tkn :: ahead) (htype : tkn.type ∉ still) (h : c'.Ended)
    (hle : c'.ahead.length ≤ c.ahead.length) : Stays still c c' := by
  refine ⟨h, hle, fun type hmem hat => absurd ?_ htype⟩
  rwa [(at_iff hahead).1 hat]

theorem Stays.of_le (h : c'.Ended) (hle : c'.ahead.length ≤ c.ahead.length) : Stays [] c c' :=
  ⟨h, hle, fun _ hmem => absurd hmem List.not_mem_nil⟩

theorem Stays.trans (h : Stays still c c') (h' : Stays still c' c'') : Stays still c c'' := by
  refine ⟨h'.ended, h'.le.trans h.le, fun type hmem hat => ?_⟩
  have heq := h.still type hmem hat
  refine (h'.still type hmem ?_).trans heq
  rwa [Cursor.At, heq]

theorem Stays.weaken {types : List TokenType} (h : Stays types c c') (hsub : still ⊆ types) : Stays still c c' :=
  ⟨h.ended, h.le, fun type hmem => h.still type (hsub hmem)⟩

/-- The cursor is nearer to the end. -/
structure Nearer (c c' : Cursor) : Prop where
  ended : c'.Ended
  lt : c'.ahead.length < c.ahead.length

theorem Nearer.stays (h : Nearer c c') (hahead : c.ahead = tkn :: ahead) (htype : tkn.type ∉ still) : Stays still c c' :=
  .of_ne hahead htype h.ended h.lt.le

theorem Nearer.then (h : Nearer c c') (h' : Stays [] c' c'') : Nearer c c'' := ⟨h'.ended, h'.le.trans_lt h.lt⟩

theorem Nearer.stays_nil (h : Nearer c c') : Stays [] c c' := .of_le h.ended h.lt.le

theorem Stays.nearer (h : Stays still c c') (h' : Nearer c' c'') : Nearer c c'' := ⟨h'.ended, h'.lt.trans_le h.le⟩

end Ended

/-! ### Steps that return -/

section Returns

variable {c : Cursor} {tkn : Token} {ahead : List Token} {type : TokenType}

theorem returns_here (h : c.Ended) : Returns here c fun tkn c' => c' = c ∧ ∃ ahead, c.ahead = tkn :: ahead := by
  obtain ⟨tkn, ahead, hahead⟩ := h.cons
  exact .of_eq (by rw [here, hahead]) ⟨rfl, ahead, hahead⟩

theorem advance_eq (hahead : c.ahead = tkn :: ahead) :
    advance c = some ((), { c with before := tkn :: c.before, ahead := ahead }) := by
  rw [advance, hahead]

theorem returns_advance (h : c.Ended) (hahead : c.ahead = tkn :: ahead) (htype : tkn.type ≠ .endOfFile) :
    Returns advance c fun _ c' => Nearer c c' ∧ c'.before ≠ [] := by
  refine .of_eq (advance_eq hahead) ⟨⟨?_, ?_⟩, List.cons_ne_nil _ _⟩
  · exact (h.tail hahead rfl).resolve_right fun hlast => htype hlast.2
  · rw [hahead]
    exact Nat.lt_succ_self _

theorem returns_previous (h : c.Ended) (hbefore : c.before ≠ []) : Returns previous c fun _ c' => c' = c := by
  obtain ⟨tkn, ahead, hahead⟩ := h.cons
  obtain ⟨prev, before, hprev⟩ := List.exists_cons_of_ne_nil hbefore
  exact .of_eq (by rw [previous, hahead, hprev]) rfl

theorem returns_matchType {types : List TokenType} (h : c.Ended) (hahead : c.ahead = tkn :: ahead) (hend : .endOfFile ∉ types) :
    Returns (matchType tkn.type types) c fun matched c' =>
      if matched then tkn.type ∈ types ∧ Nearer c c' ∧ c'.before ≠ [] else tkn.type ∉ types ∧ c' = c := by
  rw [matchType]
  by_cases hmem : tkn.type ∈ types
  · rw [if_pos hmem]
    have htype : tkn.type ≠ .endOfFile := fun heq => hend (heq ▸ hmem)
    exact (returns_advance h hahead htype).bind fun _ c' hc' => returns_pure ⟨hmem, hc'⟩
  · rw [if_neg hmem]
    exact returns_pure ⟨hmem, rfl⟩

theorem returns_consume (h : c.Ended) (htype : type ≠ .endOfFile) (msg : String) :
    Returns (consume type msg) c fun found c' =>
      if found.isSome then Nearer c c' else c'.ahead = c.ahead ∧ ¬c.At type := by
  obtain ⟨tkn, ahead, hahead⟩ := h.cons
  by_cases heq : tkn.type = type
  · rw [consume]
    refine (returns_here h).bind fun t c₁ hhere => ?_
    obtain ⟨rfl, ahead', hahead'⟩ := hhere
    obtain ⟨rfl, rfl⟩ := List.cons.inj (hahead.symm.trans hahead')
    rw [if_pos heq]
    refine (returns_advance h hahead (heq ▸ htype)).bind fun _ c₂ hc₂ => ?_
    refine (returns_previous hc₂.1.ended hc₂.2).bind fun prev c₃ hc₃ => ?_
    rw [hc₃]
    exact returns_pure hc₂.1
  · exact .of_eq (Watched.consume_of_ne hahead heq msg) ⟨rfl, fun hat => heq ((at_iff hahead).1 hat)⟩

end Returns

namespace Watched

/-! ### Steps under watch -/

section Steps

variable {α : Type} {c : Cursor} {tkn : Token} {ahead : List Token} {type : TokenType} {Q : α → Cursor → Prop}

theorem halts_here {k : Token → Watch α} (h : c.Ended) (hk : ∀ tkn ahead, c.ahead = tkn :: ahead → Halts (k tkn) c Q) :
    Halts (liftM here >>= k) c Q := by
  refine (halts_lift (returns_here h)).bind fun tkn c' hhere => ?_
  obtain ⟨rfl, ahead, hahead⟩ := hhere
  exact hk tkn ahead hahead

theorem halts_advance {k : Unit → Watch α} (h : c.Ended) (hahead : c.ahead = tkn :: ahead) (htype : tkn.type ≠ .endOfFile)
    (hk : ∀ c', Nearer c c' → c'.before ≠ [] → Halts (k ()) c' Q) : Halts (liftM advance >>= k) c Q :=
  (halts_lift (returns_advance h hahead htype)).bind fun _ c' hc' => hk c' hc'.1 hc'.2

theorem halts_previous {k : Token → Watch α} (h : c.Ended) (hbefore : c.before ≠ []) (hk : ∀ tkn, Halts (k tkn) c Q) :
    Halts (liftM previous >>= k) c Q := by
  refine (halts_lift (returns_previous h hbefore)).bind fun tkn c' hc' => ?_
  rw [hc']
  exact hk tkn

theorem halts_matchType {k : Bool → Watch α} {types : List TokenType} (h : c.Ended) (hahead : c.ahead = tkn :: ahead)
    (hend : .endOfFile ∉ types) (hyes : tkn.type ∈ types → ∀ c', Nearer c c' → c'.before ≠ [] → Halts (k true) c' Q)
    (hno : tkn.type ∉ types → Halts (k false) c Q) : Halts (liftM (matchType tkn.type types) >>= k) c Q := by
  refine (halts_lift (returns_matchType h hahead hend)).bind fun matched c' hmatched => ?_
  cases matched with
  | true => exact hyes hmatched.1 c' hmatched.2.1 hmatched.2.2
  | false =>
    obtain ⟨hmem, rfl⟩ := hmatched
    exact hno hmem

theorem halts_consume {k : Option Token → Watch α} (h : c.Ended) (htype : type ≠ .endOfFile) (msg : String)
    (hsome : ∀ found c', Nearer c c' → Halts (k (some found)) c' Q)
    (hnone : ∀ c', c'.ahead = c.ahead → ¬c.At type → Halts (k none) c' Q) : Halts (liftM (consume type msg) >>= k) c Q := by
  refine (halts_lift (returns_consume h htype msg)).bind fun found c' hfound => ?_
  cases found with
  | none => exact hnone c' hfound.1 hfound.2
  | some tkn => exact hsome tkn c' hfound

/-- The routine goes on whether the token was found or not. -/
theorem halts_expect {k : Option Token → Watch α} (h : c.Ended) (htype : type ≠ .endOfFile) (msg : String)
    (hk : ∀ found c', Stays [] c c' → Halts (k found) c' Q) : Halts (liftM (consume type msg) >>= k) c Q :=
  halts_consume h htype msg (fun _ c' hc' => hk _ c' hc'.stays_nil) fun c' hc' _ => hk none c' (.of_eq h hc')

theorem halts_face {hazard : Hazard} {g : Watch α} (h : hazard.Safe c → Halts g c Q) : Halts (face hazard >>= fun _ => g) c Q :=
  halts_check h hazard

end Steps

/-! ### Expressions -/

/-- From every cursor with at most so many tokens in front, the routine comes to an end and leaves the cursor in its place. -/
def EndsUpTo {α : Type} (rule : Watch α) (n : Nat) (P : Cursor → α → Cursor → Prop) : Prop :=
  ∀ c, c.Ended → c.ahead.length ≤ n → Halts rule c (P c)

abbrev Operand (still : List TokenType) (rule : Watch Expr) (n : Nat) : Prop := EndsUpTo rule n fun c _ c' => Stays still c c'

section Expressions

variable {still types : List TokenType} {rule e : Watch Expr} {n : Nat} {c : Cursor}

theorem halts_binaryLoop (hend : .endOfFile ∉ types) (hstill : ∀ type ∈ types, type ∉ still) (hrule : Operand still rule n) {m : Nat}
    (expr : Expr) (h : c.Ended) (hm : c.ahead.length ≤ m) (hn : c.ahead.length ≤ n) :
    Halts (binaryLoop rule types m expr) c fun _ c' => Stays still c c' := by
  induction m generalizing c expr with
  | zero => exact absurd h.pos (by omega)
  | succ m ih =>
    rw [binaryLoop]
    refine halts_here h fun tkn ahead hahead => halts_matchType h hahead hend (fun hmem c₁ hc₁ hbefore => ?_) fun _ => halts_pure (.refl h)
    refine halts_previous hc₁.ended hbefore fun op => ?_
    have hlt := hc₁.lt
    refine (hrule c₁ hc₁.ended (by omega)).bind fun right c₂ hc₂ => ?_
    have hle := hc₂.le
    refine (ih _ hc₂.ended (by omega) (by omega)).imp fun _ c' hc' => ?_
    exact .of_ne hahead (hstill _ hmem) hc'.ended (hc'.le.trans (by omega))

theorem operand_binaryProduction (hend : .endOfFile ∉ types) (hstill : ∀ type ∈ types, type ∉ still) (hrule : Operand still rule n)
    {m : Nat} (hm : n ≤ m) : Operand still (binaryProduction m rule types) n := by
  intro c h hn
  refine (hrule c h hn).bind fun expr c₁ hc₁ => ?_
  have hle := hc₁.le
  exact (halts_binaryLoop hend hstill hrule expr hc₁.ended (by omega) (by omega)).imp fun _ _ hc' => hc₁.trans hc'

/-- The tokens that no operand moves over. -/
abbrev bars : List TokenType := [.andKey, .orKey]

/-- The routine that the others lead back to when they have passed a token. -/
abbrev Inner (e : Watch Expr) (n : Nat) : Prop := ∀ c, c.Ended → c.ahead.length < n → Halts e c fun _ c' => Stays [] c c'

variable {tkn : Token} {ahead : List Token}

theorem returns_leaf (h : c.Ended) (hahead : c.ahead = tkn :: ahead) (htype : tkn.type ≠ .endOfFile) (hbars : tkn.type ∉ bars)
    (expr : Expr) : Returns (leaf expr) c fun _ c' => Stays bars c c' :=
  (returns_advance h hahead htype).bind fun _ _ hc' => returns_pure (hc'.1.stays hahead hbars)

theorem returns_variableExpr (h : c.Ended) (hahead : c.ahead = tkn :: ahead) (htype : tkn.type ≠ .endOfFile) (hbars : tkn.type ∉ bars) :
    Returns variableExpr c fun _ c' => Stays bars c c' := by
  refine (returns_advance h hahead htype).bind fun _ c₁ hc₁ => (returns_previous hc₁.1.ended hc₁.2).bind fun name c₂ hc₂ => ?_
  rw [hc₂]
  exact returns_pure (hc₁.1.stays hahead hbars)

theorem returns_superExpr (h : c.Ended) (hahead : c.ahead = tkn :: ahead) (htype : tkn.type = .superKey) (hbefore : c.before ≠ []) :
    Returns superExpr c fun _ c' => Stays bars c c' := by
  refine (returns_previous h hbefore).bind fun keyword c₁ hc₁ => ?_
  rw [hc₁]
  refine .after (consume_of_ne hahead (by rw [htype]; decide) _) ?_
  exact returns_pure (.of_eq h rfl)

theorem returns_thisExpr (h : c.Ended) (hbefore : c.before ≠ []) : Returns thisExpr c fun _ c' => Stays bars c c' := by
  refine (returns_previous h hbefore).bind fun keyword c₁ hc₁ => ?_
  rw [hc₁]
  exact returns_pure (.refl h)

theorem returns_parseError (h : c.Ended) (tkn : Token) (msg : String) : Returns (parseError tkn msg) c fun _ c' => Stays bars c c' :=
  .of_eq rfl (.of_eq h rfl)

theorem halts_grouping (he : Inner e n) (h : c.Ended) (hahead : c.ahead = tkn :: ahead) (htype : tkn.type = .leftParen)
    (hn : c.ahead.length ≤ n) : Halts (grouping e) c fun _ c' => Stays bars c c' := by
  refine halts_advance h hahead (by rw [htype]; decide) fun c₁ hc₁ _ => ?_
  refine (he c₁ hc₁.ended (hc₁.lt.trans_le hn)).bind fun groupedExpr c₂ hc₂ => halts_expect hc₂.ended (by decide) _ fun found c₃ hc₃ => ?_
  have hmoved : Stays bars c c₃ := ((hc₁.then hc₂).then hc₃).stays hahead (by rw [htype]; decide)
  cases found with
  | none => exact halts_pure hmoved
  | some paren => exact halts_pure hmoved

theorem operand_primary (he : Inner e n) : Operand bars (primary e) n := by
  intro c h hn
  refine halts_here h fun tkn ahead hahead => ?_
  cases htype : tkn.type with
  | leftParen => exact halts_grouping he h hahead htype hn
  | superKey => exact halts_face fun hbefore => halts_lift (returns_superExpr h hahead htype hbefore)
  | thisKey => exact halts_face fun hbefore => halts_lift (returns_thisExpr h hbefore)
  | identifier => exact halts_lift (returns_variableExpr h hahead (by rw [htype]; decide) (by rw [htype]; decide))
  | trueKey | falseKey | nilKey | string | number =>
    exact halts_lift (returns_leaf h hahead (by rw [htype]; decide) (by rw [htype]; decide) _)
  | _ => exact (halts_lift (returns_parseError h _ _)).bind fun _ _ hc' => halts_pure hc'

theorem halts_argsLoop (he : Inner e n) (callee : Expr) {m : Nat} (args : List Expr) (arg : Expr) (h : c.Ended)
    (hahead : c.ahead = tkn :: ahead) (htype : tkn.type ≠ .endOfFile) (hm : c.ahead.length ≤ m + 1) (hn : c.ahead.length ≤ n) :
    Halts (argsLoop e callee m args arg) c fun _ c' => Nearer c c' := by
  induction m generalizing c tkn ahead args arg with
  | zero => exact absurd (h.two_le hahead htype) (by omega)
  | succ m ih =>
    rw [argsLoop]
    refine halts_advance h hahead htype fun c₁ hc₁ _ => halts_here hc₁.ended fun tkn₁ ahead₁ hahead₁ => ?_
    have hlt := hc₁.lt
    split
    · refine (halts_lift (returns_parseError hc₁.ended _ _)).bind fun _ c₂ hc₂ => halts_face fun _ => halts_pure ?_
      exact hc₁.then (hc₂.weaken (List.nil_subset _))
    · have hnext : Halts (nextArg e tkn₁ arg) c₁ fun _ c' => Stays [] c₁ c' := by
        rw [nextArg]
        split
        · exact halts_pure (.refl hc₁.ended)
        · exact he c₁ hc₁.ended (by omega)
      refine hnext.bind fun arg c₂ hc₂ => halts_here hc₂.ended fun tkn₂ ahead₂ hahead₂ => ?_
      have hle := hc₂.le
      split
      · have hcomma : tkn₂.type ≠ .endOfFile := by
          rw [‹tkn₂.type = .comma›]
          decide
        exact (ih _ _ hc₂.ended hahead₂ hcomma (by omega) (by omega)).imp fun _ _ hc' => (hc₁.then hc₂).then hc'.stays_nil
      · exact halts_pure (hc₁.then hc₂)

theorem halts_finishCall (he : Inner e n) (callee : Expr) {m : Nat} (h : c.Ended) (hahead : c.ahead = tkn :: ahead)
    (htype : tkn.type ≠ .endOfFile) (hm : c.ahead.length ≤ m + 1) (hn : c.ahead.length ≤ n) :
    Halts (finishCall m e callee) c fun _ c' => Nearer c c' := by
  refine (halts_argsLoop he callee [] .null h hahead htype hm hn).bind fun args c₁ hc₁ => ?_
  cases args with
  | none => exact halts_pure hc₁
  | some args =>
    refine halts_face fun hparen => halts_consume hc₁.ended (by decide) _ (fun paren c₂ hc₂ => ?_) fun c₂ _ hnot => absurd hparen hnot
    exact halts_pure (hc₁.then hc₂.stays_nil)

theorem returns_getProperty (object : Expr) (h : c.Ended) (hahead : c.ahead = tkn :: ahead) (htype : tkn.type ≠ .endOfFile) :
    Returns (getProperty object) c fun _ c' => Nearer c c' := by
  refine (returns_advance h hahead htype).bind fun _ c₁ hc₁ => ?_
  refine (returns_consume hc₁.1.ended (by decide) _).bind fun found c₂ hfound => ?_
  cases found with
  | none => exact returns_pure (hc₁.1.then (.of_eq hc₁.1.ended hfound.1))
  | some name => exact returns_pure (hc₁.1.then (Nearer.stays_nil hfound))

theorem halts_callLoop (he : Inner e n) {m : Nat} (expr : Expr) (h : c.Ended) (hm : c.ahead.length ≤ m) (hn : c.ahead.length ≤ n) :
    Halts (callLoop e m expr) c fun _ c' => Stays bars c c' := by
  induction m generalizing c expr with
  | zero => exact absurd h.pos (by omega)
  | succ m ih =>
    rw [callLoop]
    refine halts_here h fun tkn ahead hahead => ?_
    have hround (htype : tkn.type ∉ bars) (expr : Expr) {c₁ : Cursor} (hc₁ : Nearer c c₁) :
        Halts (callLoop e m expr) c₁ fun _ c' => Stays bars c c' := by
      have hlt := hc₁.lt
      refine (ih expr hc₁.ended (by omega) (by omega)).imp fun _ c' hc' => ?_
      exact (hc₁.then (hc'.weaken (List.nil_subset _))).stays hahead htype
    split
    · have htype : tkn.type = .leftParen := ‹_›
      refine (halts_finishCall he expr h hahead (by rw [htype]; decide) hm hn).bind fun expr c₁ hc₁ => ?_
      exact hround (by rw [htype]; decide) expr hc₁
    · split
      · have htype : tkn.type = .dot := ‹_›
        refine (halts_lift (returns_getProperty expr h hahead (by rw [htype]; decide))).bind fun expr c₁ hc₁ => ?_
        exact hround (by rw [htype]; decide) expr hc₁
      · exact halts_pure (.refl h)

theorem operand_call (he : Inner e n) {m : Nat} (hm : n ≤ m) : Operand bars (call m e) n := by
  intro c h hn
  refine (operand_primary he c h hn).bind fun expr c₁ hc₁ => ?_
  have hle := hc₁.le
  exact (halts_callLoop he expr hc₁.ended (by omega) (by omega)).imp fun _ _ hc' => hc₁.trans hc'

theorem halts_unary (he : Inner e n) {m : Nat} (h : c.Ended) (hm : c.ahead.length < m) (hn : c.ahead.length ≤ n) :
    Halts (unary e m) c fun _ c' => Stays bars c c' := by
  induction m generalizing c with
  | zero => exact absurd hm (Nat.not_lt_zero _)
  | succ m ih =>
    rw [unary]
    refine halts_here h fun tkn ahead hahead => halts_matchType h hahead (by decide) (fun hmem c₁ hc₁ hbefore => ?_) fun _ => ?_
    · refine halts_previous hc₁.ended hbefore fun op => ?_
      have hlt := hc₁.lt
      refine (ih hc₁.ended (by omega) (by omega)).bind fun right c₂ hc₂ => halts_pure ?_
      have hbars : ∀ type ∈ [TokenType.minus, .bang], type ∉ bars := by decide
      exact (hc₁.then (hc₂.weaken (List.nil_subset _))).stays hahead (hbars _ hmem)
    · have hinner : Inner e c.ahead.length := fun c' h' hlt => he c' h' (by omega)
      exact operand_call hinner (Nat.le_of_lt_succ hm) c h (Nat.le_refl _)

theorem operand_equality (he : Inner e n) {m : Nat} (hm : n < m) : Operand bars (equality m e) n := by
  have hunary : Operand bars (unary e m) n := fun c h hn => halts_unary he h (by omega) hn
  have hmul : Operand bars (multiplication m e) n := operand_binaryProduction (by decide) (by decide) hunary hm.le
  have hadd : Operand bars (addition m e) n := operand_binaryProduction (by decide) (by decide) hmul hm.le
  exact operand_binaryProduction (by decide) (by decide) (operand_binaryProduction (by decide) (by decide) hadd hm.le) hm.le

/-- The token that the loop tests is the one at the cursor, unless it is not an operator. -/
theorem halts_logicLoop {type : TokenType} (hend : type ≠ .endOfFile) (hstill : type ∉ still) (hrule : Operand (type :: still) rule n)
    {m : Nat} (tkn : Token) (expr : Expr) (h : c.Ended) (hat : tkn.type = type → c.At type) (hm : c.ahead.length ≤ m)
    (hn : c.ahead.length ≤ n) : Halts (logicLoop rule type m tkn expr) c fun _ c' => Stays still c c' := by
  induction m generalizing c tkn expr with
  | zero => exact absurd h.pos (by omega)
  | succ m ih =>
    rw [logicLoop]
    split
    · refine halts_here h fun op ahead hahead => ?_
      have hop : op.type = type := (at_iff hahead).1 (hat ‹_›)
      refine halts_advance h hahead (hop ▸ hend) fun c₁ hc₁ _ => halts_here hc₁.ended fun tkn₁ ahead₁ hahead₁ => ?_
      have hlt := hc₁.lt
      refine (hrule c₁ hc₁.ended (by omega)).bind fun right c₂ hc₂ => ?_
      have hle := hc₂.le
      have hat' : tkn₁.type = type → c₂.At type := by
        intro htype
        rw [Cursor.At, hc₂.still type List.mem_cons_self ((at_iff hahead₁).2 htype)]
        exact (at_iff hahead₁).2 htype
      refine (ih tkn₁ _ hc₂.ended hat' (by omega) (by omega)).imp fun _ c' hc' => ?_
      exact .of_ne hahead (hop ▸ hstill) hc'.ended (hc'.le.trans (by omega))
    · exact halts_pure (.refl h)

theorem operand_logic {type : TokenType} (hend : type ≠ .endOfFile) (hstill : type ∉ still) (hrule : Operand (type :: still) rule n)
    {m : Nat} (hm : n ≤ m) : Operand still (logic m rule type) n := by
  intro c h hn
  refine (hrule c h hn).bind fun expr c₁ hc₁ => halts_here hc₁.ended fun tkn ahead hahead => ?_
  have hle := hc₁.le
  refine (halts_logicLoop hend hstill hrule tkn expr hc₁.ended (at_iff hahead).2 (by omega) (by omega)).imp fun _ c' hc' => ?_
  exact (hc₁.weaken (List.subset_cons_self _ _)).trans hc'

theorem operand_logicOr (he : Inner e n) {m : Nat} (hm : n < m) : Operand [] (logicOr m e) n :=
  operand_logic (by decide) (by decide) (operand_logic (by decide) (by decide) (operand_equality he hm) hm.le) hm.le

theorem returns_assign {expr : Expr} (h : c.Ended) (hexpr : expr.isNull = false) (equals : Token) (value : Expr) :
    Returns (assign equals value expr) c fun _ c' => Stays [] c c' := by
  cases expr with
  | null => cases hexpr
  | var | get => exact returns_pure (.refl h)
  | _ => exact .of_eq rfl (.of_eq h rfl)

theorem halts_assignment {m : Nat} (h : c.Ended) (hm : c.ahead.length + 2 ≤ m) :
    Halts (assignment m) c fun _ c' => Stays [] c c' := by
  induction m generalizing c with
  | zero => exact absurd hm (by omega)
  | succ m ih =>
    have he : Inner (assignment m) c.ahead.length := fun c' h' hlt => ih h' (by omega)
    rw [assignment]
    refine (operand_logicOr he (by omega) c h (Nat.le_refl _)).bind fun expr c₁ hc₁ => halts_here hc₁.ended fun equals ahead hahead => ?_
    have hle := hc₁.le
    split
    · have htype : equals.type ≠ .endOfFile := by
        rw [‹equals.type = .equal›]
        decide
      refine halts_advance hc₁.ended hahead htype fun c₂ hc₂ _ => ?_
      have hlt := hc₂.lt
      refine (ih hc₂.ended (by omega)).bind fun value c₃ hc₃ => halts_face fun hexpr => ?_
      refine (halts_lift (returns_assign hc₃.ended hexpr equals value)).imp fun _ c' hc' => ?_
      exact hc₁.trans ((hc₂.then hc₃).then hc').stays_nil
    · exact halts_pure hc₁

end Expressions

/-! ### Statements -/

/-- When there is a statement, a token has been passed. -/
def Shortens (c : Cursor) (stmt : Stmt) (c' : Cursor) : Prop := Stays [] c c' ∧ (stmt.isNull = false → Nearer c c')

/-- A token has been passed, and when there is a statement, the last one has not. -/
structure Declared (c : Cursor) (stmt : Stmt) (c' : Cursor) : Prop where
  lt : c'.ahead.length < c.ahead.length
  ended : c'.ahead ≠ [] → c'.Ended
  known : stmt.isNull = false → c'.Ended

section Statements

variable {c c' : Cursor} {tkn : Token} {ahead : List Token} {d s : Watch Stmt} {m n : Nat} {stmt : Stmt}

theorem shortens_of_nearer (h : Nearer c c') : Shortens c stmt c' := ⟨h.stays_nil, fun _ => h⟩

theorem returns_newTerminatedStatement (stmt : Stmt) (h : c.Ended) : Returns (newTerminatedStatement stmt) c (Shortens c) := by
  refine (returns_consume h (by decide) _).bind fun found c₁ hfound => ?_
  cases found with
  | none => exact returns_pure ⟨.of_eq h hfound.1, fun hnull => Bool.noConfusion hnull⟩
  | some semicolon => exact returns_pure (shortens_of_nearer hfound)

theorem halts_expressionStatement (h : c.Ended) (hm : c.ahead.length + 2 ≤ m) : Halts (expressionStatement m) c (Shortens c) := by
  refine (halts_assignment h hm).bind fun expr c₁ hc₁ => (halts_lift (returns_newTerminatedStatement _ hc₁.ended)).imp fun stmt c' hc' => ?_
  exact ⟨hc₁.trans hc'.1, fun hnull => hc₁.nearer (hc'.2 hnull)⟩

theorem halts_printStatement (h : c.Ended) (hm : c.ahead.length + 2 ≤ m) : Halts (printStatement m) c fun _ c' => Stays [] c c' := by
  refine (halts_assignment h hm).bind fun expr c₁ hc₁ => (halts_lift (returns_newTerminatedStatement _ hc₁.ended)).imp fun _ c' hc' => ?_
  exact hc₁.trans hc'.1

theorem halts_clause (tkn : Token) (type : TokenType) (h : c.Ended) (hm : c.ahead.length + 2 ≤ m) :
    Halts (clause m tkn type) c fun _ c' => Stays [] c c' := by
  rw [clause]
  split
  · exact halts_pure (.refl h)
  · exact halts_assignment h hm

theorem halts_initializer (h : c.Ended) (hm : c.ahead.length + 2 ≤ m) : Halts (initializer m) c fun _ c' => Stays [] c c' := by
  refine halts_here h fun tkn ahead hahead => ?_
  split
  · have htype : tkn.type ≠ .endOfFile := by
      rw [‹tkn.type = .equal›]
      decide
    refine halts_advance h hahead htype fun c₁ hc₁ _ => ?_
    have hlt := hc₁.lt
    exact (halts_assignment hc₁.ended (by omega)).imp fun _ _ hc' => (hc₁.then hc').stays_nil
  · exact halts_pure (.refl h)

theorem halts_varDeclaration (h : c.Ended) (hm : c.ahead.length + 2 ≤ m) : Halts (varDeclaration m) c fun _ c' => Stays [] c c' := by
  refine halts_consume h (by decide) _ (fun name c₁ hc₁ => ?_) fun c₁ hc₁ _ => halts_pure (.of_eq h hc₁)
  have hlt := hc₁.lt
  refine (halts_initializer hc₁.ended (by omega)).bind fun init c₂ hc₂ => ?_
  refine (halts_lift (returns_newTerminatedStatement _ hc₂.ended)).imp fun _ c' hc' => ?_
  exact ((hc₁.then hc₂).then hc'.1).stays_nil

/-! ### Recovery -/

theorem returns_synchronizeLoop {token : Token} (h : c.Ended) (hbefore : c.before ≠ []) (hm : c.ahead.length ≤ m)
    (hstop : token.type ∈ [.classKey, .funKey, .varKey, .forKey, .ifKey, .whileKey, .printKey, .returnKey] ∨
      ∃ tkn ∈ c.before.head?.toList ++ c.ahead, tkn.type = .semicolon) :
    Returns (synchronizeLoop token m) c fun _ c' => Stays [] c c' := by
  induction m generalizing c with
  | zero => exact absurd h.pos (by omega)
  | succ m ih =>
    obtain ⟨before, ahead, errors⟩ := c
    obtain ⟨tkn, ahead, rfl⟩ := h.cons
    obtain ⟨prev, before, rfl⟩ := List.exists_cons_of_ne_nil hbefore
    rw [synchronizeLoop]
    refine .after previous_cons ?_
    split
    · exact returns_pure (.refl h)
    split
    · exact returns_pure (.refl h)
    refine .after advance_cons ?_
    obtain ⟨t, ht, htype⟩ := hstop.resolve_left ‹_›
    have hlater : t ∈ tkn :: ahead := by
      rcases List.mem_cons.1 ht with rfl | hlater
      · exact absurd htype ‹_›
      · exact hlater
    have hended : Cursor.Ended ⟨tkn :: prev :: before, ahead, errors⟩ := by
      refine (h.tail rfl rfl).resolve_right fun hlast => ?_
      obtain ⟨rfl, hend⟩ := hlast
      obtain rfl := List.mem_singleton.1 hlater
      cases htype.symm.trans hend
    refine (ih hended (List.cons_ne_nil _ _) (Nat.le_of_succ_le_succ hm) (.inr ⟨t, hlater, htype⟩)).imp fun _ c' hc' => ?_
    exact .of_le hc'.ended (hc'.le.trans (Nat.le_succ _))

theorem halts_synchronize (h : c.Ended) (hm : c.ahead.length ≤ m) :
    Halts (synchronize m) c fun _ c' => Declared c .null c' := by
  obtain ⟨tkn, ahead, hahead⟩ := h.cons
  refine halts_after (advance_eq hahead) (halts_face fun hrecovers => ?_)
  have hlt : ahead.length < c.ahead.length := by
    rw [hahead]
    exact Nat.lt_succ_self _
  cases ahead with
  | nil => exact halts_after rfl (halts_pure ⟨hlt, fun hnil => absurd rfl hnil, fun hnull => Bool.noConfusion hnull⟩)
  | cons token rest =>
    set c₁ : Cursor := { c with before := tkn :: c.before, ahead := token :: rest } with hc₁
    have hended : c₁.Ended := (h.tail hahead rfl).resolve_right fun hlast => List.cons_ne_nil _ _ hlast.1
    have hdone {c' : Cursor} (hc' : Stays [] c₁ c') : Declared c .null c' :=
      ⟨hc'.le.trans_lt hlt, fun _ => hc'.ended, fun hnull => Bool.noConfusion hnull⟩
    refine halts_after rfl (halts_after here_cons ?_)
    by_cases hend : token.type = .endOfFile
    · rw [if_pos hend]
      exact halts_pure (hdone (.refl hended))
    · rw [if_neg hend]
      refine halts_lift ((returns_synchronizeLoop hended (List.cons_ne_nil _ _) (hlt.le.trans hm) ?_).imp fun _ _ hc' => hdone hc')
      rcases hrecovers with hnil | ⟨t, ht, hlook⟩ | hsemicolon
      · exact absurd hnil (List.cons_ne_nil _ _)
      · obtain rfl := List.mem_singleton.1 ht
        exact .inl (hlook.resolve_left hend)
      · exact .inr hsemicolon

theorem halts_recover (hs : Halts s c (Shortens c)) (hm : c.ahead.length ≤ m) : Halts (recover m s) c (Declared c) := by
  refine hs.bind fun stmt c₁ hc₁ => ?_
  split
  · have hle := hc₁.1.le
    refine (halts_synchronize hc₁.1.ended (by omega)).bind fun _ c₂ hc₂ => halts_pure ?_
    refine ⟨hc₂.lt.trans_le hle, hc₂.ended, fun hnull => ?_⟩
    rw [‹stmt.isNull = true›] at hnull
    cases hnull
  · have hnull : stmt.isNull = false := Bool.eq_false_of_not_eq_true ‹_›
    exact halts_pure ⟨(hc₁.2 hnull).lt, fun _ => hc₁.1.ended, fun _ => hc₁.1.ended⟩

/-! ### Blocks, functions and classes -/

/-- From every cursor with fewer tokens in front, a declaration is read. -/
abbrev InnerDeclaration (d : Watch Stmt) (n : Nat) : Prop := ∀ c, c.Ended → c.ahead.length < n → Halts d c (Declared c)

theorem halts_innerLoop (hd : InnerDeclaration d n) (inner : List Stmt) (h : c.ahead ≠ [] → c.Ended) (hm : c.ahead.length < m)
    (hn : c.ahead.length < n) : Halts (innerLoop d m inner) c fun _ c' => Stays [] c c' := by
  induction m generalizing c inner with
  | zero => exact absurd hm (Nat.not_lt_zero _)
  | succ m ih =>
    rw [innerLoop]
    refine halts_face fun hnode => halts_here (h hnode) fun tkn ahead hahead => ?_
    split
    · refine (hd c (h hnode) hn).bind fun stmt c₁ hc₁ => ?_
      have hlt := hc₁.lt
      refine (ih _ hc₁.ended (by omega) (by omega)).imp fun _ c' hc' => ?_
      exact .of_le hc'.ended (hc'.le.trans hlt.le)
    · exact halts_pure (.refl (h hnode))

theorem halts_blockStatements (hd : InnerDeclaration d n) (h : c.Ended) (hm : c.ahead.length < m) (hn : c.ahead.length < n) :
    Halts (blockStatements m d) c fun _ c' => Stays [] c c' := by
  refine (halts_innerLoop hd [] (fun _ => h) hm hn).bind fun inner c₁ hc₁ => ?_
  exact halts_expect hc₁.ended (by decide) _ fun _ c₂ hc₂ => halts_pure (hc₁.trans hc₂)

theorem returns_tooManyParams (params : List Token) (tkn : Token) :
    Returns (tooManyParams params tkn) c fun _ c' => c'.ahead = c.ahead := by
  rw [tooManyParams]
  split
  · exact .of_eq rfl rfl
  · exact returns_pure rfl

/-- The token behind a parameter that is passed over may be the last one. -/
theorem returns_passComma (h : c.Ended) (hahead : c.ahead = tkn :: ahead) :
    Returns (passComma tkn) c fun _ c' => c'.ahead.length ≤ c.ahead.length ∧ (c'.ahead ≠ [] → c'.Ended) ∧
      (tkn.type = .comma → c'.Ended) := by
  rw [passComma]
  split
  · exact returns_pure ⟨Nat.le_refl _, fun _ => h, fun _ => h⟩
  · refine .of_eq (advance_eq hahead) ⟨?_, fun hne => (h.tail hahead rfl).resolve_right fun hlast => hne hlast.1, fun hcomma => ?_⟩
    · rw [hahead]
      exact Nat.le_succ _
    · refine (h.tail hahead rfl).resolve_right fun hlast => ?_
      cases hcomma.symm.trans hlast.2

theorem halts_paramsLoop (params : List Token) (tkn : Token) (h : c.Ended) (hm : c.ahead.length ≤ m) :
    Halts (paramsLoop m params tkn) c fun _ c' => c'.ahead.length ≤ c.ahead.length ∧ (c'.ahead ≠ [] → c'.Ended) := by
  induction m generalizing c params tkn with
  | zero => exact absurd h.pos (by omega)
  | succ m ih =>
    rw [paramsLoop]
    refine (halts_lift (returns_tooManyParams params tkn)).bind fun _ c₁ hc₁ => halts_face fun hname => ?_
    refine halts_consume (h.of_eq hc₁) (by decide) _ (fun name c₂ hc₂ => ?_) fun _ _ hnot => absurd hname hnot
    refine halts_here hc₂.ended fun tkn₂ ahead₂ hahead₂ => (halts_lift (returns_passComma hc₂.ended hahead₂)).bind fun _ c₃ hc₃ => ?_
    have hlt : c₃.ahead.length < c.ahead.length := hc₁ ▸ hc₃.1.trans_lt hc₂.lt
    split
    · refine (ih _ tkn₂ (hc₃.2.2 ‹_›) (by omega)).imp fun _ c' hc' => ⟨hc'.1.trans hlt.le, hc'.2⟩
    · exact halts_pure ⟨hlt.le, hc₃.2.1⟩

theorem halts_parameters (h : c.Ended) (hm : c.ahead.length ≤ m) :
    Halts (parameters m) c fun _ c' => c'.ahead.length ≤ c.ahead.length ∧ (c'.ahead ≠ [] → c'.Ended) := by
  refine halts_here h fun tkn ahead hahead => ?_
  split
  · exact halts_pure ⟨Nat.le_refl _, fun _ => h⟩
  · exact halts_paramsLoop [] tkn h hm

theorem halts_funStatement (hd : InnerDeclaration d n) (kind : String) (h : c.Ended) (hm : c.ahead.length ≤ m)
    (hn : c.ahead.length ≤ n) : Halts (funStatement m d kind) c fun _ c' => Stays [] c c' ∧ (c.At .identifier → Nearer c c') := by
  refine halts_consume h (by decide) _ (fun name c₁ hc₁ => ?_) fun c₁ hc₁ hnot => halts_pure ⟨.of_eq h hc₁, fun hat => absurd hat hnot⟩
  refine halts_expect hc₁.ended (by decide) _ fun _ c₂ hc₂ => ?_
  have hlt := (hc₁.then hc₂).lt
  refine (halts_parameters hc₂.ended (by omega)).bind fun params c₃ hc₃ => halts_face fun hnode => ?_
  have hmoved : Nearer c c₃ := ⟨hc₃.2 hnode, hc₃.1.trans_lt hlt⟩
  refine halts_expect hmoved.ended (by decide) _ fun _ c₄ hc₄ => halts_expect hc₄.ended (by decide) _ fun _ c₅ hc₅ => ?_
  have hbody := (hmoved.then hc₄).then hc₅
  refine (halts_blockStatements hd hc₅.ended (hbody.lt.trans_le hm) (hbody.lt.trans_le hn)).bind fun body c₆ hc₆ => halts_pure ?_
  exact ⟨(hbody.then hc₆).stays_nil, fun _ => hbody.then hc₆⟩

theorem halts_methodsLoop (hd : InnerDeclaration d n) {k : Nat} (methods : List Stmt) (h : c.Ended) (hm : c.ahead.length ≤ m)
    (hk : c.ahead.length ≤ k) (hn : c.ahead.length ≤ n) :
    Halts (methodsLoop (funStatement k d "method") m methods) c fun _ c' => Stays [] c c' := by
  induction m generalizing c methods with
  | zero => exact absurd h.pos (by omega)
  | succ m ih =>
    rw [methodsLoop]
    refine halts_face fun hmethod => halts_here h fun temp ahead hahead => ?_
    split
    · obtain ⟨hbrace, hend⟩ : temp.type ≠ .rightBrace ∧ temp.type ≠ .endOfFile := ‹_›
      have hname : c.At .identifier := by
        rcases hmethod with hname | hat | hat
        · exact hname
        · exact absurd ((at_iff hahead).1 hat) hbrace
        · exact absurd ((at_iff hahead).1 hat) hend
      refine (halts_funStatement hd "method" h hk hn).bind fun stmt c₁ hc₁ => ?_
      have hmoved := hc₁.2 hname
      have hlt := hmoved.lt
      exact (ih _ hmoved.ended (by omega) (by omega) (by omega)).imp fun _ _ hc' => (hmoved.then hc').stays_nil
    · exact halts_pure (.refl h)

theorem returns_superClass (h : c.Ended) : Returns superClass c fun _ c' => Stays [] c c' := by
  refine (returns_here h).bind fun temp c₁ hhere => ?_
  obtain ⟨rfl, ahead, hahead⟩ := hhere
  split
  · have htype : temp.type ≠ .endOfFile := by
      rw [‹temp.type = .less›]
      decide
    refine (returns_advance h hahead htype).bind fun _ c₂ hc₂ => (returns_consume hc₂.1.ended (by decide) _).bind fun found c₃ hfound => ?_
    cases found with
    | none => exact returns_pure (hc₂.1.then (.of_eq hc₂.1.ended hfound.1)).stays_nil
    | some name => exact returns_pure (hc₂.1.then (Nearer.stays_nil hfound)).stays_nil
  · exact returns_pure (.refl h)

theorem halts_classStatement (hd : InnerDeclaration d n) (h : c.Ended) (hm : c.ahead.length ≤ m) (hn : c.ahead.length ≤ n) :
    Halts (classStatement m d) c fun _ c' => Stays [] c c' := by
  refine halts_consume h (by decide) _ (fun name c₁ hc₁ => ?_) fun c₁ hc₁ _ => halts_pure (.of_eq h hc₁)
  refine (halts_lift (returns_superClass hc₁.ended)).bind fun superClassExpr c₂ hc₂ => ?_
  have hmoved := hc₁.then hc₂
  cases superClassExpr with
  | none => exact halts_pure hmoved.stays_nil
  | some superClassExpr =>
    refine halts_expect hc₂.ended (by decide) _ fun _ c₃ hc₃ => ?_
    have hle := (hmoved.then hc₃).lt.le
    refine (halts_methodsLoop hd [] hc₃.ended (by omega) (by omega) (by omega)).bind fun methods c₄ hc₄ => ?_
    exact halts_expect hc₄.ended (by decide) _ fun _ c₅ hc₅ => halts_pure (((hmoved.then hc₃).then hc₄).then hc₅).stays_nil

/-! ### The statements with other statements inside -/

/-- From every cursor with fewer tokens in front, a statement is read. -/
abbrev InnerStatement (s : Watch Stmt) (n : Nat) : Prop := ∀ c, c.Ended → c.ahead.length < n → Halts s c fun _ c' => Stays [] c c'

theorem halts_behind {g : Watch Stmt} (h : c.Ended) (hahead : c.ahead = tkn :: ahead) (htype : tkn.type ≠ .endOfFile)
    (hg : ∀ c₁, Nearer c c₁ → c₁.before ≠ [] → Halts g c₁ fun _ c' => Stays [] c₁ c') : Halts (behind g) c fun _ c' => Nearer c c' :=
  halts_advance h hahead htype fun c₁ hc₁ hbefore => (hg c₁ hc₁ hbefore).imp fun _ _ hc' => hc₁.then hc'

theorem halts_elseStatement (hs : InnerStatement s n) (h : c.Ended) (hn : c.ahead.length ≤ n) :
    Halts (elseStatement s) c fun _ c' => Stays [] c c' := by
  refine halts_here h fun tkn ahead hahead => ?_
  split
  · have htype : tkn.type ≠ .endOfFile := by
      rw [‹tkn.type = .elseKey›]
      decide
    refine halts_advance h hahead htype fun c₁ hc₁ _ => (hs c₁ hc₁.ended (hc₁.lt.trans_le hn)).imp fun _ _ hc' => ?_
    exact (hc₁.then hc').stays_nil
  · exact halts_pure (.refl h)

theorem halts_ifStatement (hs : InnerStatement s n) (h : c.Ended) (hm : c.ahead.length + 2 ≤ m) (hn : c.ahead.length < n) :
    Halts (ifStatement m s) c fun _ c' => Stays [] c c' := by
  refine halts_expect h (by decide) _ fun _ c₁ hc₁ => ?_
  have hle₁ := hc₁.le
  refine (halts_assignment hc₁.ended (by omega)).bind fun condition c₂ hc₂ => halts_expect hc₂.ended (by decide) _ fun _ c₃ hc₃ => ?_
  have hc := (hc₁.trans hc₂).trans hc₃
  refine (hs c₃ hc₃.ended (hc.le.trans_lt hn)).bind fun thenStmt c₄ hc₄ => ?_
  refine (halts_elseStatement hs hc₄.ended ((hc.trans hc₄).le.trans hn.le)).bind fun elseStmt c₅ hc₅ => ?_
  exact halts_pure ((hc.trans hc₄).trans hc₅)

theorem halts_forInitializer (h : c.Ended) (hm : c.ahead.length + 2 ≤ m) : Halts (forInitializer m) c fun _ c' => Stays [] c c' := by
  refine halts_here h fun tkn ahead hahead => ?_
  split
  · have htype : tkn.type ≠ .endOfFile := by
      rw [‹tkn.type = .semicolon›]
      decide
    exact halts_advance h hahead htype fun c₁ hc₁ _ => halts_pure hc₁.stays_nil
  split
  · have htype : tkn.type ≠ .endOfFile := by
      rw [‹tkn.type = .varKey›]
      decide
    refine halts_advance h hahead htype fun c₁ hc₁ _ => ?_
    have hlt := hc₁.lt
    exact (halts_varDeclaration hc₁.ended (by omega)).imp fun _ _ hc' => (hc₁.then hc').stays_nil
  · refine halts_after (advance_eq hahead) (halts_face fun hnode => ?_)
    have hlt : ahead.length < c.ahead.length := by
      rw [hahead]
      exact Nat.lt_succ_self _
    have hended : Cursor.Ended { c with before := tkn :: c.before, ahead := ahead } :=
      (h.tail hahead rfl).resolve_right fun hlast => hnode hlast.1
    refine (halts_expressionStatement hended (Nat.le_trans (Nat.add_le_add_right hlt.le 2) hm)).imp fun _ c' hc' => ?_
    exact .of_le hc'.1.ended (hc'.1.le.trans hlt.le)

theorem halts_forStatement (hs : InnerStatement s n) (h : c.Ended) (hm : c.ahead.length + 2 ≤ m) (hn : c.ahead.length < n) :
    Halts (forStatement m s) c fun _ c' => Stays [] c c' := by
  refine halts_expect h (by decide) _ fun _ c₁ hc₁ => ?_
  have hle₁ := hc₁.le
  refine (halts_forInitializer hc₁.ended (by omega)).bind fun init c₂ hc₂ => halts_here hc₂.ended fun tkn _ _ => ?_
  have hle₂ := hc₂.le
  refine (halts_clause tkn _ hc₂.ended (by omega)).bind fun condition c₃ hc₃ => halts_expect hc₃.ended (by decide) _ fun _ c₄ hc₄ => ?_
  have hc := ((hc₁.trans hc₂).trans hc₃).trans hc₄
  have hle₄ := hc.le
  refine (halts_clause tkn _ hc₄.ended (by omega)).bind fun step c₅ hc₅ => halts_expect hc₅.ended (by decide) _ fun _ c₆ hc₆ => ?_
  have hc' := (hc.trans hc₅).trans hc₆
  exact (hs c₆ hc₆.ended (hc'.le.trans_lt hn)).bind fun body c₇ hc₇ => halts_pure (hc'.trans hc₇)

theorem halts_whileStatement (hs : InnerStatement s n) (h : c.Ended) (hm : c.ahead.length + 2 ≤ m) (hn : c.ahead.length < n) :
    Halts (whileStatement m s) c fun _ c' => Stays [] c c' := by
  refine halts_expect h (by decide) _ fun _ c₁ hc₁ => ?_
  have hle₁ := hc₁.le
  refine (halts_assignment hc₁.ended (by omega)).bind fun condition c₂ hc₂ => halts_expect hc₂.ended (by decide) _ fun _ c₃ hc₃ => ?_
  have hc := (hc₁.trans hc₂).trans hc₃
  exact (hs c₃ hc₃.ended (hc.le.trans_lt hn)).bind fun body c₄ hc₄ => halts_pure (hc.trans hc₄)

theorem halts_returnStatement (h : c.Ended) (hbefore : c.before ≠ []) (hm : c.ahead.length + 2 ≤ m) :
    Halts (returnStatement m) c fun _ c' => Stays [] c c' := by
  refine halts_previous h hbefore fun keyword => halts_here h fun tkn _ _ => ?_
  refine (halts_clause tkn _ h hm).bind fun value c₁ hc₁ => halts_expect hc₁.ended (by decide) _ fun _ c₂ hc₂ => ?_
  exact halts_pure (hc₁.trans hc₂)

theorem halts_statement (hd : InnerDeclaration d n) (h : c.Ended) (hm : c.ahead.length + 3 ≤ m) (hn : c.ahead.length ≤ n) :
    Halts (statement d m) c (Shortens c) := by
  induction m generalizing c with
  | zero => exact absurd hm (by omega)
  | succ m ih =>
    have hs : InnerStatement (statement d m) c.ahead.length := by
      intro c' h' hlt
      exact (ih h' (by omega) (by omega)).imp fun _ _ hc'' => hc''.1
    rw [statement]
    refine halts_here h fun tkn ahead hahead => ?_
    have hbehind {g : Watch Stmt} (htype : tkn.type ≠ .endOfFile)
        (hg : ∀ c₁, Nearer c c₁ → c₁.before ≠ [] → Halts g c₁ fun _ c' => Stays [] c₁ c') : Halts (behind g) c (Shortens c) :=
      (halts_behind h hahead htype hg).imp fun _ _ hc' => shortens_of_nearer hc'
    have hfew {c₁ : Cursor} (hc₁ : Nearer c c₁) : c₁.ahead.length + 2 ≤ m := by
      have hlt := hc₁.lt
      omega
    cases htype : tkn.type with
    | printKey => exact hbehind (by rw [htype]; decide) fun c₁ hc₁ _ => halts_printStatement hc₁.ended (hfew hc₁)
    | leftBrace =>
      refine hbehind (by rw [htype]; decide) fun c₁ hc₁ _ => halts_blockStatements hd hc₁.ended ?_ (hc₁.lt.trans_le hn)
      exact Nat.lt_of_lt_of_le (Nat.lt_add_of_pos_right Nat.two_pos) (hfew hc₁)
    | ifKey => exact hbehind (by rw [htype]; decide) fun c₁ hc₁ _ => halts_ifStatement hs hc₁.ended (hfew hc₁) hc₁.lt
    | forKey => exact hbehind (by rw [htype]; decide) fun c₁ hc₁ _ => halts_forStatement hs hc₁.ended (hfew hc₁) hc₁.lt
    | whileKey => exact hbehind (by rw [htype]; decide) fun c₁ hc₁ _ => halts_whileStatement hs hc₁.ended (hfew hc₁) hc₁.lt
    | returnKey =>
      exact hbehind (by rw [htype]; decide) fun c₁ hc₁ hbefore => halts_returnStatement hc₁.ended hbefore (hfew hc₁)
    | _ => exact halts_expressionStatement h (by omega)

theorem halts_declaration (h : c.Ended) (hm : c.ahead.length + 4 ≤ m) : Halts (declaration m) c (Declared c) := by
  induction m generalizing c with
  | zero => exact absurd hm (by omega)
  | succ m ih =>
    have hd : InnerDeclaration (declaration m) c.ahead.length := fun c' h' hlt => ih h' (by omega)
    rw [declaration]
    refine halts_here h fun tkn ahead hahead => ?_
    have hknown {c' : Cursor} {stmt : Stmt} (hc' : Nearer c c') : Declared c stmt c' := ⟨hc'.lt, fun _ => hc'.ended, fun _ => hc'.ended⟩
    cases htype : tkn.type with
    | classKey =>
      refine (halts_behind h hahead (by rw [htype]; decide) fun c₁ hc₁ _ => ?_).imp fun _ _ hc' => hknown hc'
      have hlt := hc₁.lt
      exact halts_classStatement hd hc₁.ended (by omega) hlt.le
    | funKey =>
      refine (halts_behind h hahead (by rw [htype]; decide) fun c₁ hc₁ _ => ?_).imp fun _ _ hc' => hknown hc'
      have hlt := hc₁.lt
      exact (halts_funStatement hd _ hc₁.ended (by omega) hlt.le).imp fun _ _ hc' => hc'.1
    | varKey =>
      refine halts_recover ((halts_behind h hahead (by rw [htype]; decide) fun c₁ hc₁ _ => ?_).imp fun _ _ hc' => shortens_of_nearer hc') (by omega)
      have hlt := hc₁.lt
      exact halts_varDeclaration hc₁.ended (by omega)
    | _ => exact halts_recover (halts_statement hd h (by omega) (Nat.le_refl _)) (by omega)

theorem halts_parseLoop (stmts : List Stmt) (h : c.Ended) (hm : c.ahead.length + 5 ≤ m) :
    Halts (parseLoop m stmts) c fun _ _ => True := by
  induction m generalizing c stmts with
  | zero => exact absurd hm (by omega)
  | succ m ih =>
    rw [parseLoop]
    refine halts_here h fun head ahead hahead => ?_
    split
    · exact halts_pure trivial
    · refine (halts_declaration h (by omega)).bind fun stmt c₁ hc₁ => ?_
      have hlt := hc₁.lt
      split
      · exact halts_face fun _ => halts_pure trivial
      · exact ih _ (hc₁.known (Bool.eq_false_of_not_eq_true ‹_›)) (by omega)

end Statements

end Watched

/-! ### The parser -/

/-- However long it is, the run under watch is not stopped. -/
def Unstopped (tokens : List Token) : Prop := ∀ n hazard c, Watched.parse n tokens ≠ some (.error hazard, c)

theorem guards_parse {n m : Nat} (hle : n ≤ m) : Guards (Watched.parseLoop n []) (parseLoop m []) := Watched.guards_parseLoop hle []

/-- A run that is stopped has no result without the watch. -/
theorem parse_of_stopped {tokens : List Token} {n : Nat} {hazard : Hazard} {c : Cursor}
    (h : Watched.parse n tokens = some (.error hazard, c)) : ¬∃ m out, parse m tokens = some out := by
  intro hreturns
  obtain ⟨m, out, hm⟩ := hreturns
  exact not_yields_of_stopped (fun n m hle => parseLoop_le hle []) (fun n m hle => guards_parse hle) h ⟨m, hm⟩

/-- `parse` returns exactly on the tokens whose run under watch is not stopped. -/
theorem parse_returns_iff (ts : List Token) {eof : Token} (heof : eof.type = .endOfFile) :
    (∃ n out, parse n (ts ++ [eof]) = some out) ↔ Unstopped (ts ++ [eof]) := by
  constructor
  · exact fun hreturns n hazard c hstopped => parse_of_stopped hstopped hreturns
  · intro hunstopped
    have hended : Cursor.Ended ⟨[], ts ++ [eof], []⟩ := ⟨eof, List.getLast?_concat, heof⟩
    obtain ⟨out, n, hout⟩ := yields_of_not_stopped (fun n => guards_parse (Nat.le_refl n))
      ⟨_, Watched.halts_parseLoop [] hended (Nat.le_refl _)⟩ hunstopped
    exact ⟨n, out, hout⟩

/-- `print nil;` is read to its end. -/
theorem unstopped_printNil : Unstopped ([{ type := .printKey }, { type := .nilKey }, { type := .semicolon }] ++ [{ type := .endOfFile }]) :=
  (parse_returns_iff [{ type := .printKey }, { type := .nilKey }, { type := .semicolon }] rfl).mp ⟨20, _, rfl⟩

/-- `fun f(1) \x7b\x7d` has a number for a parameter. -/
def numberedParameter : List Token :=
  [{ type := .funKey }, { type := .identifier }, { type := .leftParen }, { type := .number }, { type := .rightParen },
    { type := .leftBrace }, { type := .rightBrace }]

/-- The parameter that `consume` did not find is read. -/
theorem parse_numberedParameter :
    ¬∀ (ts : List Token) (eof : Token), eof.type = .endOfFile → ∃ n out, parse n (ts ++ [eof]) = some out := by
  intro h
  have hstopped : ∃ c, Watched.parse 20 (numberedParameter ++ [{ type := .endOfFile }]) = some (.error .parameter, c) := ⟨_, rfl⟩
  obtain ⟨c, hc⟩ := hstopped
  exact parse_of_stopped hc (h numberedParameter { type := .endOfFile } rfl)

end Reading.Clox.Parse
