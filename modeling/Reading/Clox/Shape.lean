import Mathlib.Data.List.Chain
import Reading.Clox.Statements

/-!
# What the parser can return

The tokens may now be any, as long as no two neighbours are both `this`, both `or` or both `and`, and no comma stands in front of `)`. Whatever expression the parser returns, it has no `super` in it, no `this` with its own keyword, no two operators of one chain of `or` or of `and`, no call with more than nine arguments; and it has at most as many tokens as were passed over, a semicolon not among them.
-/

namespace Reading.Clox.Parse

open Lib Lib.Attempt

/-! ### Trees that can be returned -/

/-- The type of the operator of a logical expression. -/
def Expr.logicType : Expr → Option TokenType
  | .logical _ op _ => some op.type
  | _ => none

mutual

def Expr.Shape : Expr → Prop
  | .null | .literal _ | .var _ => True
  | .this keyword => keyword.type ≠ .thisKey
  | .super _ _ => False
  | .unary _ expr | .grouping expr | .assignment _ expr | .get expr _ => expr.Shape
  | .binary _ left right | .set left _ right => left.Shape ∧ right.Shape
  | .logical left op right => left.Shape ∧ right.Shape ∧ left.logicType ≠ some op.type
  | .call callee _ args => callee.Shape ∧ shapes args ∧ args.length ≤ maxArgs + 1

def shapes : List Expr → Prop
  | [] => True
  | arg :: args => arg.Shape ∧ shapes args

end

mutual

/-- The number of the tokens of a tree. A `this` is not counted: the parser does not pass over it. -/
def Expr.size : Expr → Nat
  | .null | .this _ | .super _ _ => 0
  | .literal _ | .var _ => 1
  | .unary _ expr => expr.size + 1
  | .grouping expr | .assignment _ expr | .get expr _ => expr.size + 2
  | .binary _ left right | .logical left _ right => left.size + right.size + 1
  | .set object _ value => object.size + value.size + 3
  | .call callee _ args => callee.size + sizes args + max args.length 1 + 1

def sizes : List Expr → Nat
  | [] => 0
  | arg :: args => arg.size + sizes args

end

theorem shapes_append (args : List Expr) (arg : Expr) : shapes (args ++ [arg]) ↔ shapes args ∧ arg.Shape := by
  induction args with
  | nil => simp [shapes]
  | cons a args ih => simp [shapes, ih, and_assoc]

theorem sizes_append (args : List Expr) (arg : Expr) : sizes (args ++ [arg]) = sizes args + arg.size := by
  induction args with
  | nil => simp [sizes]
  | cons a args ih => simp [sizes, ih, Nat.add_assoc]

/-! ### Passing over tokens -/

/-- The two tokens may be neighbours. -/
def Apart (t u : Token) : Prop :=
  (t.type = u.type → t.type ∉ [TokenType.thisKey, .orKey, .andKey]) ∧ ¬(t.type = .comma ∧ u.type = .rightParen)

def Cursor.Tidy (c : Cursor) : Prop := (c.before.reverse ++ c.ahead).IsChain Apart

/-- The cursor moves over the tokens. -/
structure Passes (c : Cursor) (tokens : List Token) (c' : Cursor) : Prop where
  ahead : c.ahead = tokens ++ c'.ahead
  before : c'.before = tokens.reverse ++ c.before
  semicolon : ∀ t ∈ tokens, t.type ≠ .semicolon

theorem Passes.refl (c : Cursor) : Passes c [] c := ⟨rfl, rfl, fun _ h => nomatch h⟩

theorem Passes.trans {c c' c'' : Cursor} {ts us : List Token} (h : Passes c ts c') (h' : Passes c' us c'') : Passes c (ts ++ us) c'' where
  ahead := by rw [h.ahead, h'.ahead, List.append_assoc]
  before := by rw [h'.before, h.before, List.reverse_append, List.append_assoc]
  semicolon := fun t ht => (List.mem_append.1 ht).elim (h.semicolon t) (h'.semicolon t)

theorem Passes.tidy {c c' : Cursor} {ts : List Token} (h : Passes c ts c') (hc : c.Tidy) : c'.Tidy := by
  rw [Cursor.Tidy, h.ahead] at hc
  rw [Cursor.Tidy, h.before, List.reverse_append, List.reverse_reverse, List.append_assoc]
  exact hc

/-- From a tidy cursor, with `k` tokens already in the tree, the routine returns a result of the weight of the tokens at most, with the property. -/
def Bounded {α : Type} (k : Nat) (r : Rule α) (w : α → Nat) (Q : α → Prop) : Prop :=
  ∀ c a c', c.Tidy → r c = some (a, c') → ∃ ts, Passes c ts c' ∧ w a ≤ k + ts.length ∧ Q a

section Bounded

variable {α β : Type} {k : Nat} {r : Rule α} {f : α → Rule β} {w : α → Nat} {v : β → Nat} {Q : α → Prop} {R : β → Prop}

theorem bounded_fail : Bounded k (fail : Rule α) w Q := fun _ _ _ _ h => nomatch h

theorem bounded_pure {a : α} (hw : w a ≤ k) (hQ : Q a) : Bounded k (pure a : Rule α) w Q := by
  intro c a' c' _ h
  obtain ⟨rfl, rfl⟩ := Prod.mk.inj (Option.some.inj h)
  exact ⟨[], Passes.refl c, by simpa using hw, hQ⟩

theorem Bounded.bind (h : Bounded k r w Q) (hf : ∀ a, Q a → Bounded (w a) (f a) v R) : Bounded k (r >>= f) v R := by
  intro c b c'' hc hrun
  obtain ⟨a, c', hr, hfa⟩ := bind_eq_some.1 hrun
  obtain ⟨ts, hts, hwa, hQ⟩ := h c a c' hc hr
  obtain ⟨us, hus, hvb, hR⟩ := hf a hQ c' b c'' (hts.tidy hc) hfa
  exact ⟨ts ++ us, hts.trans hus, by rw [List.length_append]; omega, hR⟩

theorem Bounded.ite {p : Prop} [Decidable p] {r' : Rule α} (h : p → Bounded k r w Q) (h' : ¬p → Bounded k r' w Q) :
    Bounded k (if p then r else r') w Q := by
  split
  · exact h ‹_›
  · exact h' ‹_›

/-- The same from a cursor on the token `t`. -/
def BoundedAt (t : Token) (k : Nat) (r : Rule α) (w : α → Nat) (Q : α → Prop) : Prop :=
  ∀ c a c', c.Tidy → c.ahead.head? = some t → r c = some (a, c') → ∃ ts, Passes c ts c' ∧ w a ≤ k + ts.length ∧ Q a

variable {t : Token}

theorem Bounded.at (h : Bounded k r w Q) : BoundedAt t k r w Q := fun c a c' hc _ => h c a c' hc

theorem BoundedAt.ite {p : Prop} [Decidable p] {r' : Rule α} (h : p → BoundedAt t k r w Q) (h' : ¬p → BoundedAt t k r' w Q) :
    BoundedAt t k (if p then r else r') w Q := by
  split
  · exact h ‹_›
  · exact h' ‹_›

theorem bounded_here {f : Token → Rule β} (h : ∀ t, BoundedAt t k (f t) v R) : Bounded k (here >>= f) v R := by
  intro c b c' hc hrun
  obtain ⟨before, ahead, errors⟩ := c
  cases ahead with
  | nil => exact nomatch hrun
  | cons t ahead => exact h t _ b c' hc rfl hrun

theorem boundedAt_here {f : Token → Rule β} (h : BoundedAt t k (f t) v R) : BoundedAt t k (here >>= f) v R := by
  intro c b c' hc ht hrun
  obtain ⟨before, ahead, errors⟩ := c
  cases ahead with
  | nil => exact nomatch ht
  | cons t' ahead =>
    obtain rfl := Option.some.inj ht
    exact h _ b c' hc rfl hrun

theorem boundedAt_advance {g : Unit → Rule β} (ht : t.type ≠ .semicolon) (h : Bounded (k + 1) (g ()) v R) :
    BoundedAt t k (advance >>= g) v R := by
  intro c b c' hc hhead hrun
  obtain ⟨before, ahead, errors⟩ := c
  cases ahead with
  | nil => exact nomatch hhead
  | cons t' ahead =>
    obtain rfl := Option.some.inj hhead
    have hpass : Passes ⟨before, t' :: ahead, errors⟩ [t'] ⟨t' :: before, ahead, errors⟩ :=
      ⟨rfl, rfl, fun t h => by rw [List.mem_singleton.1 h]; exact ht⟩
    obtain ⟨us, hus, hvb, hR⟩ := h _ b c' (hpass.tidy hc) hrun
    exact ⟨[t'] ++ us, hpass.trans hus, by simp only [List.length_append, List.length_singleton]; omega, hR⟩

/-- The token behind the one at the cursor is read. -/
theorem boundedAt_advance_here {f : Token → Rule β} (ht : t.type ≠ .semicolon) (h : ∀ u, Apart t u → BoundedAt u (k + 1) (f u) v R) :
    BoundedAt t k (advance >>= fun _ => here >>= f) v R := by
  intro c b c' hc hhead hrun
  obtain ⟨before, ahead, errors⟩ := c
  cases ahead with
  | nil => exact nomatch hhead
  | cons t' ahead =>
    obtain rfl := Option.some.inj hhead
    cases ahead with
    | nil => exact nomatch hrun
    | cons u ahead =>
      have hpass : Passes ⟨before, t' :: u :: ahead, errors⟩ [t'] ⟨t' :: before, u :: ahead, errors⟩ :=
        ⟨rfl, rfl, fun t h => by rw [List.mem_singleton.1 h]; exact ht⟩
      have hapart : Apart t' u := (List.isChain_append_cons_cons.1 hc).2.1
      obtain ⟨us, hus, hvb, hR⟩ := h u hapart _ b c' (hpass.tidy hc) rfl hrun
      exact ⟨[t'] ++ us, hpass.trans hus, by simp only [List.length_append, List.length_singleton]; omega, hR⟩

/-- What does not move the cursor. -/
theorem boundedAt_still {r : Rule α} {Q : α → Prop} (hr : ∀ c a c', c.Tidy → c.ahead.head? = some t → r c = some (a, c') →
    c'.before = c.before ∧ c'.ahead = c.ahead ∧ Q a) : BoundedAt t k r (fun _ => k) Q := by
  intro c a c' hc ht hrun
  obtain ⟨hbefore, hahead, hQ⟩ := hr c a c' hc ht hrun
  exact ⟨[], ⟨hahead.symm, hbefore, fun _ h => nomatch h⟩, Nat.le_add_right k _, hQ⟩

theorem bounded_previous : Bounded k previous (fun _ => k) fun _ => True := by
  intro c a c' _ hrun
  obtain ⟨before, ahead, errors⟩ := c
  cases ahead with
  | nil => exact nomatch hrun
  | cons t ahead =>
    cases before with
    | nil => exact nomatch hrun
    | cons p before =>
      obtain ⟨rfl, rfl⟩ := Prod.mk.inj (Option.some.inj hrun)
      exact ⟨[], Passes.refl _, Nat.le_add_right k _, trivial⟩

theorem boundedAt_previous : BoundedAt t k previous (fun _ => k) fun p => Apart p t := by
  apply boundedAt_still
  intro c a c' hc ht hrun
  obtain ⟨before, ahead, errors⟩ := c
  cases ahead with
  | nil => exact nomatch hrun
  | cons t' ahead =>
    obtain rfl := Option.some.inj ht
    cases before with
    | nil => exact nomatch hrun
    | cons p before =>
      obtain ⟨rfl, rfl⟩ := Prod.mk.inj (Option.some.inj hrun)
      refine ⟨rfl, rfl, ?_⟩
      rw [Cursor.Tidy, List.reverse_cons, List.append_assoc] at hc
      exact (List.isChain_append_cons_cons.1 hc).2.1

theorem bounded_parseError {tkn : Token} {msg : String} : Bounded k (parseError tkn msg) (fun _ => k) fun _ => True := by
  intro c a c' _ hrun
  obtain ⟨-, rfl⟩ := Prod.mk.inj (Option.some.inj hrun)
  exact ⟨[], ⟨rfl, rfl, fun _ h => nomatch h⟩, Nat.le_add_right k _, trivial⟩

theorem BoundedAt.bind (h : BoundedAt t k r w Q) (hf : ∀ a, Q a → Bounded (w a) (f a) v R) : BoundedAt t k (r >>= f) v R := by
  intro c b c'' hc ht hrun
  obtain ⟨a, c', hr, hfa⟩ := bind_eq_some.1 hrun
  obtain ⟨ts, hts, hwa, hQ⟩ := h c a c' hc ht hr
  obtain ⟨us, hus, hvb, hR⟩ := hf a hQ c' b c'' (hts.tidy hc) hfa
  exact ⟨ts ++ us, hts.trans hus, by rw [List.length_append]; omega, hR⟩

theorem bounded_consume {type : TokenType} (hne : type ≠ .semicolon) (msg : String) :
    Bounded k (consume type msg) (fun o => if o.isSome then k + 1 else k) fun _ => True := by
  refine bounded_here fun t => BoundedAt.ite (fun ht => ?_) fun _ => ?_
  · refine boundedAt_advance (ht ▸ hne) ?_
    exact bounded_previous.bind fun _ _ => bounded_pure (le_refl _) trivial
  · exact (bounded_parseError.bind fun _ _ => bounded_pure (le_refl _) trivial).at

theorem bounded_pure_bind {a : α} (h : Bounded k (f a) v R) : Bounded k (pure a >>= f) v R := fun c b c' hc hrun => h c b c' hc hrun

theorem boundedAt_match {types : List TokenType} {g : Bool → Rule β} (hne : .semicolon ∉ types)
    (htrue : t.type ∈ types → Bounded (k + 1) (g true) v R) (hfalse : t.type ∉ types → BoundedAt t k (g false) v R) :
    BoundedAt t k (matchType t.type types >>= g) v R := by
  intro c b c' hc ht hrun
  by_cases hmem : t.type ∈ types
  · rw [matchType, if_pos hmem, bind_assoc] at hrun
    have hsemi : t.type ≠ .semicolon := fun h => hne (h ▸ hmem)
    exact boundedAt_advance hsemi (bounded_pure_bind (htrue hmem)) c b c' hc ht hrun
  · rw [matchType, if_neg hmem] at hrun
    exact hfalse hmem c b c' hc ht hrun

theorem Bounded.add (h : Bounded k r w Q) (j : Nat) : Bounded (j + k) r (fun a => j + w a) Q := by
  intro c a c' hc hrun
  obtain ⟨ts, hts, hwa, hQ⟩ := h c a c' hc hrun
  exact ⟨ts, hts, by dsimp only; omega, hQ⟩

theorem BoundedAt.add (h : BoundedAt t k r w Q) (j : Nat) : BoundedAt t (j + k) r (fun a => j + w a) Q := by
  intro c a c' hc ht hrun
  obtain ⟨ts, hts, hwa, hQ⟩ := h c a c' hc ht hrun
  exact ⟨ts, hts, by dsimp only; omega, hQ⟩

theorem Bounded.weaken (h : Bounded k r w Q) {Q' : α → Prop} (hQ : ∀ a, Q a → Q' a) : Bounded k r w Q' := by
  intro c a c' hc hrun
  obtain ⟨ts, hts, hwa, hQa⟩ := h c a c' hc hrun
  exact ⟨ts, hts, hwa, hQ a hQa⟩

end Bounded

/-! ### Expressions -/

/-- No operator of `logicOr` or `logicAnd` is at the top. -/
def Expr.Flat (x : Expr) : Prop := x.Shape ∧ x.logicType = none

section Expressions

variable {e rule : Rule Expr} {k n : Nat} {x : Expr}

theorem bounded_leaf (t : Token) (h : t.type ≠ .semicolon) (hx : x.Flat) (hsize : x.size ≤ k + 1) :
    BoundedAt t k (leaf x) Expr.size Expr.Flat :=
  boundedAt_advance h (bounded_pure hsize hx)

theorem bounded_grouping (he : Bounded 0 e Expr.size Expr.Shape) (t : Token) (h : t.type ≠ .semicolon) :
    BoundedAt t 0 (grouping e) Expr.size Expr.Flat := by
  refine boundedAt_advance h ((he.add 1).bind fun x hx => (bounded_consume (by decide) _).bind fun o _ => ?_)
  cases o with
  | none => exact bounded_pure (Nat.zero_le _) ⟨trivial, rfl⟩
  | some paren => exact bounded_pure (by simp only [Expr.size, Option.isSome_some, if_true]; omega) ⟨hx, rfl⟩

theorem bounded_this (t : Token) (h : t.type = .thisKey) : BoundedAt t 0 thisExpr Expr.size Expr.Flat := by
  refine boundedAt_previous.bind fun p hp => bounded_pure (Nat.zero_le _) ⟨?_, rfl⟩
  intro hthis
  exact hp.1 (hthis.trans h.symm) (by rw [hthis]; decide)

/-- The cursor is still on `super`, where a dot is expected. -/
theorem bounded_super (t : Token) (h : t.type = .superKey) : BoundedAt t 0 superExpr Expr.size Expr.Flat := by
  intro c a c' hc ht hrun
  obtain ⟨before, ahead, errors⟩ := c
  cases ahead with
  | nil => cases ht
  | cons t' ahead =>
    obtain rfl := Option.some.inj ht
    cases before with
    | nil => cases hrun
    | cons p before =>
      have hconsume (msg : String) : consume .dot msg ⟨p :: before, t' :: ahead, errors⟩ =
          some (none, ⟨p :: before, t' :: ahead, errors ++ [(t', msg)]⟩) := by
        rw [consume, bind_of_eq here_cons, if_neg (by rw [h]; decide)]
        rfl
      rw [superExpr, bind_of_eq previous_cons, bind_of_eq (hconsume _)] at hrun
      obtain ⟨rfl, rfl⟩ := Prod.mk.inj (Option.some.inj hrun)
      exact ⟨[], ⟨rfl, rfl, fun _ h => absurd h List.not_mem_nil⟩, Nat.zero_le _, trivial, rfl⟩

theorem bounded_variable (t : Token) (h : t.type ≠ .semicolon) : BoundedAt t 0 variableExpr Expr.size Expr.Flat :=
  boundedAt_advance h (bounded_previous.bind fun _ _ => bounded_pure (le_refl _) ⟨trivial, rfl⟩)

theorem bounded_primary (he : Bounded 0 e Expr.size Expr.Shape) : Bounded 0 (primary e) Expr.size Expr.Flat := by
  refine bounded_here fun t => ?_
  have hnull : BoundedAt t 0 (parseError t "Unresolved Identifier" >>= fun _ => pure Expr.null) Expr.size Expr.Flat := by
    refine Bounded.at (bounded_parseError.bind fun _ _ => ?_)
    exact bounded_pure (Nat.zero_le _) ⟨trivial, rfl⟩
  cases htype : t.type with
  | trueKey | falseKey | nilKey | string | number =>
    exact bounded_leaf t (by rw [htype]; decide) ⟨trivial, rfl⟩ (le_refl _)
  | leftParen => exact bounded_grouping he t (by rw [htype]; decide)
  | superKey => exact bounded_super t htype
  | thisKey => exact bounded_this t htype
  | identifier => exact bounded_variable t (by rw [htype]; decide)
  | _ => exact hnull

/-- The weight of a list of arguments: with a token in front of each of them, and with the parenthesis in front of none. -/
def argsWeight (o : Option (List Expr)) : Nat := (o.map fun args => sizes args + max args.length 1).getD 0

/-- What an argument adds to the list. -/
theorem pushArg_weight {args : List Expr} (hargs : shapes args) (hk : sizes args + args.length ≤ k) (hx : x.Shape) :
    shapes (pushArg args x) ∧ sizes (pushArg args x) + (pushArg args x).length ≤ k + 1 + x.size ∧
      argsWeight (some (pushArg args x)) ≤ k + 1 + x.size ∧ (pushArg args x).length ≤ args.length + 1 := by
  rw [pushArg, argsWeight, Option.map_some, Option.getD_some]
  split
  · exact ⟨hargs, by omega, by omega, Nat.le_succ _⟩
  · rw [shapes_append, sizes_append, List.length_append, List.length_singleton]
    exact ⟨⟨hargs, hx⟩, by omega, by omega, le_refl _⟩

theorem bounded_args (he : Bounded 0 e Expr.size Expr.Shape) (callee : Expr) : ∀ n args arg t k, shapes args →
    sizes args + args.length ≤ k → (t.type = .leftParen ∧ args = [] ∧ arg = .null ∨ t.type = .comma) →
      BoundedAt t k (argsLoop e callee n args arg) argsWeight fun o => ∀ args ∈ o, shapes args ∧ args.length ≤ maxArgs + 1 := by
  intro n
  induction n with
  | zero => exact fun _ _ _ _ _ _ _ => bounded_fail.at
  | succ n ih =>
    intro args arg t k hargs hk ht
    rw [argsLoop]
    refine boundedAt_advance_here (by obtain ⟨h, -⟩ | h := ht <;> rw [h] <;> decide) fun u hu => ?_
    refine BoundedAt.ite (fun hmany => ?_) fun hroom => ?_
    · refine (bounded_parseError.bind fun _ _ => Bounded.ite (fun _ => ?_) fun _ => bounded_fail).at
      exact bounded_pure (Nat.zero_le _) fun _ h => absurd h (Option.not_mem_none _)
    · rw [nextArg]
      by_cases hparen : u.type = .rightParen
      · -- A comma is not in front of a parenthesis, so there are no arguments.
        obtain ⟨-, rfl, rfl⟩ | hcomma := ht
        · rw [if_pos hparen, pure_bind]
          refine boundedAt_here ?_
          rw [if_neg (by rw [hparen]; decide)]
          refine Bounded.at (bounded_pure (Nat.le_add_left 1 k) ?_)
          intro args h
          obtain rfl := Option.some.inj h
          exact ⟨trivial, Nat.zero_le _⟩
        · exact absurd ⟨hcomma, hparen⟩ hu.2
      · rw [if_neg hparen]
        refine ((he.add (k + 1)).bind fun x hx => bounded_here fun t' => ?_).at
        obtain ⟨hshapes, hnext, hweight, hlen⟩ := pushArg_weight hargs hk hx
        refine BoundedAt.ite (fun hcomma => ih _ _ _ _ hshapes hnext (.inr hcomma)) fun _ => ?_
        refine Bounded.at (bounded_pure hweight ?_)
        intro args h
        obtain rfl := Option.some.inj h
        exact ⟨hshapes, by omega⟩

theorem bounded_finishCall (he : Bounded 0 e Expr.size Expr.Shape) {callee : Expr} (hcallee : callee.Shape) {t : Token}
    (ht : t.type = .leftParen) : BoundedAt t callee.size (finishCall n e callee) Expr.size Expr.Flat := by
  have hargs := bounded_args he callee n [] .null t 0 trivial (Nat.zero_le _) (.inl ⟨ht, rfl, rfl⟩)
  refine (hargs.add callee.size).bind fun o ho => ?_
  cases o with
  | none => exact bounded_pure (Nat.zero_le _) ⟨trivial, rfl⟩
  | some args =>
    obtain ⟨hshapes, hlen⟩ := ho args rfl
    refine (bounded_consume (by decide) _).bind fun temp _ => ?_
    cases temp with
    | none => exact bounded_fail
    | some paren =>
      refine bounded_pure ?_ ⟨⟨hcallee, hshapes, hlen⟩, rfl⟩
      simp only [Expr.size, argsWeight, Option.isSome_some, if_true, Option.map_some, Option.getD_some]
      omega

theorem bounded_getProperty {object : Expr} (hobject : object.Flat) {t : Token} (ht : t.type ≠ .semicolon) :
    BoundedAt t object.size (getProperty object) Expr.size Expr.Flat := by
  refine boundedAt_advance ht ((bounded_consume (by decide) _).bind fun temp _ => ?_)
  cases temp with
  | none => exact bounded_pure (Nat.le_succ _) hobject
  | some name => exact bounded_pure (le_refl _) ⟨hobject.1, rfl⟩

theorem bounded_callLoop (he : Bounded 0 e Expr.size Expr.Shape) : ∀ n x, x.Flat →
    Bounded x.size (callLoop e n x) Expr.size Expr.Flat := by
  intro n
  induction n with
  | zero => exact fun _ _ => bounded_fail
  | succ n ih =>
    intro x hx
    rw [callLoop]
    refine bounded_here fun t => BoundedAt.ite (fun hparen => ?_) fun _ => BoundedAt.ite (fun hdot => ?_) fun _ => ?_
    · exact (bounded_finishCall he hx.1 hparen).bind fun y hy => ih y hy
    · exact (bounded_getProperty hx (by rw [hdot]; decide)).bind fun y hy => ih y hy
    · exact (bounded_pure (le_refl _) hx).at

theorem bounded_call (he : Bounded 0 e Expr.size Expr.Shape) : Bounded 0 (call n e) Expr.size Expr.Flat :=
  (bounded_primary he).bind fun x hx => bounded_callLoop he n x hx

theorem bounded_unary (he : Bounded 0 e Expr.size Expr.Shape) : ∀ n, Bounded 0 (unary e n) Expr.size Expr.Flat := by
  intro n
  induction n with
  | zero => exact bounded_fail
  | succ n ih =>
    rw [unary]
    refine bounded_here fun t => boundedAt_match (by decide) (fun _ => ?_) fun _ => ?_
    · refine bounded_previous.bind fun op _ => (ih.add 1).bind fun x hx => ?_
      exact bounded_pure (by simp only [Expr.size]; omega) ⟨hx.1, rfl⟩
    · exact (bounded_call he).at

theorem bounded_binaryLoop {types : List TokenType} (htypes : .semicolon ∉ types) (hrule : Bounded 0 rule Expr.size Expr.Flat) :
    ∀ n x, x.Flat → Bounded x.size (binaryLoop rule types n x) Expr.size Expr.Flat := by
  intro n
  induction n with
  | zero => exact fun _ _ => bounded_fail
  | succ n ih =>
    intro x hx
    rw [binaryLoop]
    refine bounded_here fun t => boundedAt_match htypes (fun _ => ?_) fun _ => (bounded_pure (le_refl _) hx).at
    refine bounded_previous.bind fun op _ => (hrule.add (x.size + 1)).bind fun y hy => ?_
    have hsize : (Expr.binary op x y).size = x.size + 1 + y.size := by
      simp only [Expr.size]
      omega
    rw [← hsize]
    exact ih _ ⟨⟨hx.1, hy.1⟩, rfl⟩

theorem bounded_binary {types : List TokenType} (htypes : .semicolon ∉ types) (hrule : Bounded 0 rule Expr.size Expr.Flat) :
    Bounded 0 (binaryProduction n rule types) Expr.size Expr.Flat :=
  hrule.bind fun x hx => bounded_binaryLoop htypes hrule n x hx

theorem bounded_equality (he : Bounded 0 e Expr.size Expr.Shape) : Bounded 0 (equality n e) Expr.size Expr.Flat :=
  bounded_binary (by decide) (bounded_binary (by decide) (bounded_binary (by decide) (bounded_binary (by decide) (bounded_unary he n))))

/-- The loop of `logicOr` and `logicAnd` stops behind its first operator. -/
theorem bounded_logic {type : TokenType} (htype : type ∈ [TokenType.orKey, .andKey]) {P : Expr → Prop}
    (hrule : Bounded 0 rule Expr.size fun x => x.Shape ∧ x.logicType ≠ some type ∧ P x) :
    Bounded 0 (logic n rule type) Expr.size fun x => x.Shape ∧ (P x ∨ x.logicType = some type) := by
  refine hrule.bind fun x hx => bounded_here fun t => ?_
  cases n with
  | zero => exact bounded_fail.at
  | succ n =>
    rw [logicLoop]
    refine BoundedAt.ite (fun ht => boundedAt_here ?_) fun _ => Bounded.at (bounded_pure (le_refl _) ⟨hx.1, .inl hx.2.2⟩)
    refine boundedAt_advance_here (by rw [ht]; rintro rfl; exact absurd htype (by decide)) fun u hu => Bounded.at ?_
    have hstop : u.type ≠ type := by
      intro h
      refine hu.1 (ht.trans h.symm) ?_
      rw [ht]
      exact List.mem_cons_of_mem _ htype
    refine (hrule.add (x.size + 1)).bind fun y hy => ?_
    cases n with
    | zero => exact bounded_fail
    | succ n =>
      rw [logicLoop, if_neg hstop]
      refine bounded_pure (by simp only [Expr.size]; omega) ⟨⟨hx.1, hy.1, ?_⟩, .inr (congrArg some ht)⟩
      rw [ht]
      exact hx.2.1

theorem bounded_logicOr (he : Bounded 0 e Expr.size Expr.Shape) : Bounded 0 (logicOr n e) Expr.size Expr.Shape := by
  have hequality : Bounded 0 (equality n e) Expr.size fun x => x.Shape ∧ x.logicType ≠ some .andKey ∧ x.logicType = none :=
    (bounded_equality he).weaken fun x hx => ⟨hx.1, by rw [hx.2]; simp, hx.2⟩
  have hand : Bounded 0 (logicAnd n e) Expr.size fun x => x.Shape ∧ x.logicType ≠ some .orKey ∧ True := by
    refine (bounded_logic (by decide) hequality).weaken fun x hx => ⟨hx.1, ?_, trivial⟩
    obtain h | h := hx.2 <;> rw [h] <;> simp
  exact (bounded_logic (by decide) hand).weaken fun x hx => hx.1

theorem bounded_assign {equals : Token} {value : Expr} (hvalue : value.Shape) (hx : x.Shape) :
    Bounded (x.size + 1 + value.size) (assign equals value x) Expr.size Expr.Shape := by
  cases x with
  | var name => exact bounded_pure (by simp only [Expr.size]; omega) hvalue
  | get object name => exact bounded_pure (by simp only [Expr.size]; omega) ⟨hx, hvalue⟩
  | null => exact bounded_fail
  | _ => exact bounded_parseError.bind fun _ _ => bounded_pure (by simp only [Expr.size]; omega) hx

/-- Whatever the tokens are. -/
theorem bounded_expression (n : Nat) : Bounded 0 (expression n) Expr.size Expr.Shape := by
  change Bounded 0 (assignment n) Expr.size Expr.Shape
  induction n with
  | zero => exact bounded_fail
  | succ n ih =>
    rw [assignment]
    refine (bounded_logicOr ih).bind fun x hx => bounded_here fun t => BoundedAt.ite (fun ht => ?_) fun _ => ?_
    · refine boundedAt_advance (by rw [ht]; decide) ((ih.add (x.size + 1)).bind fun value hvalue => ?_)
      exact bounded_assign hvalue hx
    · exact (bounded_pure (le_refl _) hx).at

end Expressions

/-! ### Statements -/

mutual

def Stmt.Shape : Stmt → Prop
  | .null => True
  | .print e | .expr e | .varDeclaration e _ | .returnStmt _ e => e.Shape
  | .block inner => stmtShapes inner
  | .ifElse condition thenStmt elseStmt => condition.Shape ∧ thenStmt.Shape ∧ elseStmt.Shape
  | .whileStmt condition body => condition.Shape ∧ body.Shape
  | .funStmt _ _ body => body.Shape
  | .classStmt _ methods super => stmtShapes methods ∧ super.Shape

def stmtShapes : List Stmt → Prop
  | [] => True
  | stmt :: stmts => stmt.Shape ∧ stmtShapes stmts

end

theorem stmtShapes_append (stmts : List Stmt) (stmt : Stmt) : stmtShapes (stmts ++ [stmt]) ↔ stmtShapes stmts ∧ stmt.Shape := by
  induction stmts with
  | nil => simp [stmtShapes]
  | cons a stmts ih => simp [stmtShapes, ih, and_assoc]

/-- From a tidy cursor, the result has the property. -/
abbrev Gives {α : Type} (r : Rule α) (Q : α → Prop) : Prop := Ensures Cursor.Tidy r Q

section Gives

variable {α : Type} {d s : Rule Stmt} {n : Nat}

theorem gives_here : Gives here fun _ => True := by
  intro c t c' hc hrun
  obtain ⟨before, ahead, errors⟩ := c
  cases ahead with
  | nil => exact nomatch hrun
  | cons u ahead =>
    obtain ⟨rfl, rfl⟩ := Prod.mk.inj (Option.some.inj hrun)
    exact ⟨hc, trivial⟩

theorem gives_advance : Gives advance fun _ => True := by
  intro c t c' hc hrun
  obtain ⟨before, ahead, errors⟩ := c
  cases ahead with
  | nil => exact nomatch hrun
  | cons u ahead =>
    obtain ⟨rfl, rfl⟩ := Prod.mk.inj (Option.some.inj hrun)
    rw [Cursor.Tidy] at hc ⊢
    rw [List.reverse_cons, List.append_assoc]
    exact ⟨hc, trivial⟩

theorem gives_previous : Gives previous fun _ => True := by
  intro c t c' hc hrun
  obtain ⟨ts, hts, -, -⟩ := bounded_previous (k := 0) c t c' hc hrun
  exact ⟨hts.tidy hc, trivial⟩

theorem gives_parseError (tkn : Token) (msg : String) : Gives (parseError tkn msg) fun _ => True := by
  intro c t c' hc hrun
  obtain ⟨-, rfl⟩ := Prod.mk.inj (Option.some.inj hrun)
  exact ⟨hc, trivial⟩

theorem gives_consume (type : TokenType) (msg : String) : Gives (consume type msg) fun _ => True :=
  gives_here.bind fun _ _ => Ensures.ite (gives_advance.bind fun _ _ => gives_previous.bind fun _ _ => ensures_pure trivial)
    ((gives_parseError _ _).bind fun _ _ => ensures_pure trivial)

theorem gives_expression (n : Nat) : Gives (expression n) Expr.Shape := by
  intro c x c' hc hrun
  obtain ⟨ts, hts, -, hx⟩ := bounded_expression n c x c' hc hrun
  exact ⟨hts.tidy hc, hx⟩

theorem gives_terminated {stmt : Stmt} (h : stmt.Shape) : Gives (newTerminatedStatement stmt) Stmt.Shape := by
  refine (gives_consume _ _).bind fun o _ => ?_
  cases o with
  | none => exact ensures_pure trivial
  | some _ => exact ensures_pure h

theorem gives_clause (tkn : Token) (type : TokenType) : Gives (clause n tkn type) Expr.Shape :=
  Ensures.ite (ensures_pure trivial) (gives_expression n)

theorem gives_varDeclaration (n : Nat) : Gives (varDeclaration n) Stmt.Shape := by
  refine (gives_consume _ _).bind fun o _ => ?_
  cases o with
  | none => exact ensures_pure trivial
  | some name =>
    refine Ensures.bind (Q := Expr.Shape) ?_ fun init hinit => gives_terminated hinit
    exact gives_here.bind fun _ _ => Ensures.ite (gives_advance.bind fun _ _ => gives_expression n) (ensures_pure trivial)

theorem gives_untilBrace (hs : Gives s Stmt.Shape) : ∀ n inner, stmtShapes inner → Gives (untilBrace s n inner) stmtShapes := by
  intro n
  induction n with
  | zero => exact fun _ _ => ensures_fail
  | succ n ih =>
    intro inner hinner
    rw [untilBrace]
    refine gives_here.bind fun _ _ => Ensures.ite (hs.bind fun stmt hstmt => ?_) (ensures_pure hinner)
    exact ih _ ((stmtShapes_append inner stmt).2 ⟨hinner, hstmt⟩)

theorem gives_blockStatements (hd : Gives d Stmt.Shape) : Gives (blockStatements n d) Stmt.Shape :=
  (gives_untilBrace hd n [] trivial).bind fun _ hinner => (gives_consume _ _).bind fun _ _ => ensures_pure hinner

theorem gives_elseStatement (hs : Gives s Stmt.Shape) : Gives (elseStatement s) Stmt.Shape :=
  gives_here.bind fun _ _ => Ensures.ite (gives_advance.bind fun _ _ => hs) (ensures_pure trivial)

theorem gives_ifStatement (hs : Gives s Stmt.Shape) : Gives (ifStatement n s) Stmt.Shape :=
  (gives_consume _ _).bind fun _ _ => (gives_expression n).bind fun _ hc => (gives_consume _ _).bind fun _ _ =>
    hs.bind fun _ ht => (gives_elseStatement hs).bind fun _ he => ensures_pure ⟨hc, ht, he⟩

theorem gives_whileStatement (hs : Gives s Stmt.Shape) : Gives (whileStatement n s) Stmt.Shape :=
  (gives_consume _ _).bind fun _ _ => (gives_expression n).bind fun _ hc => (gives_consume _ _).bind fun _ _ =>
    hs.bind fun _ hb => ensures_pure ⟨hc, hb⟩

theorem wrapFor_shape {init : Stmt} {condition step : Expr} {body : Stmt} (hi : init.Shape) (hc : condition.Shape) (hs : step.Shape)
    (hb : body.Shape) : (wrapFor init condition step body).Shape := by
  have hbody : (if step.isNull then body else .block [body, .expr step]).Shape := by
    split
    · exact hb
    · exact ⟨hb, hs, trivial⟩
  have hcondition : (if condition.isNull then .literal (.bool true) else condition).Shape := by
    split
    · exact trivial
    · exact hc
  rw [wrapFor]
  split
  · exact ⟨hcondition, hbody⟩
  · exact ⟨hi, ⟨hcondition, hbody⟩, trivial⟩

theorem gives_forInitializer (n : Nat) : Gives (forInitializer n) Stmt.Shape :=
  gives_here.bind fun _ _ => Ensures.ite (gives_advance.bind fun _ _ => ensures_pure trivial)
    (Ensures.ite (gives_advance.bind fun _ _ => gives_varDeclaration n)
      (gives_advance.bind fun _ _ => (gives_expression n).bind fun _ hx => gives_terminated hx))

theorem gives_forStatement (hs : Gives s Stmt.Shape) : Gives (forStatement n s) Stmt.Shape :=
  (gives_consume _ _).bind fun _ _ => (gives_forInitializer n).bind fun _ hi => gives_here.bind fun tkn _ =>
    (gives_clause tkn _).bind fun _ hc => (gives_consume _ _).bind fun _ _ => (gives_clause tkn _).bind fun _ hstep =>
      (gives_consume _ _).bind fun _ _ => hs.bind fun _ hb => ensures_pure (wrapFor_shape hi hc hstep hb)

theorem gives_returnStatement (n : Nat) : Gives (returnStatement n) Stmt.Shape :=
  gives_previous.bind fun _ _ => gives_here.bind fun tkn _ => (gives_clause tkn _).bind fun _ hx =>
    (gives_consume _ _).bind fun _ _ => ensures_pure hx

theorem gives_paramsLoop : ∀ n params tkn, Gives (paramsLoop n params tkn) fun _ => True := by
  intro n
  induction n with
  | zero => exact fun _ _ => ensures_fail
  | succ n ih =>
    intro params tkn
    rw [paramsLoop]
    refine Ensures.bind (Ensures.ite (gives_parseError _ _) (ensures_pure trivial)) fun _ _ => (gives_consume _ _).bind fun o _ => ?_
    cases o with
    | none => exact ensures_fail
    | some name =>
      refine gives_here.bind fun u _ => Ensures.bind (Ensures.ite (ensures_pure trivial) gives_advance) fun _ _ => ?_
      exact Ensures.ite (ih _ _) (ensures_pure trivial)

theorem gives_funStatement (hd : Gives d Stmt.Shape) (kind : String) : Gives (funStatement n d kind) Stmt.Shape := by
  refine (gives_consume _ _).bind fun o _ => ?_
  cases o with
  | none => exact ensures_pure trivial
  | some name =>
    refine (gives_consume _ _).bind fun _ _ => Ensures.bind (Q := fun _ => True) ?_ fun params _ => ?_
    · exact gives_here.bind fun tkn _ => Ensures.ite (ensures_pure trivial) (gives_paramsLoop n [] tkn)
    · exact (gives_consume _ _).bind fun _ _ => (gives_consume _ _).bind fun _ _ =>
        (gives_blockStatements hd).bind fun _ hbody => ensures_pure hbody

theorem gives_classStatement (hd : Gives d Stmt.Shape) : Gives (classStatement n d) Stmt.Shape := by
  refine (gives_consume _ _).bind fun o _ => ?_
  cases o with
  | none => exact ensures_pure trivial
  | some name =>
    refine Ensures.bind (Q := fun o => ∀ x ∈ o, Expr.Shape x) ?_ fun o ho => ?_
    · refine gives_here.bind fun _ _ => Ensures.ite ?_ (ensures_pure fun x hx => by obtain rfl := Option.some.inj hx; exact trivial)
      refine gives_advance.bind fun _ _ => (gives_consume _ _).bind fun o _ => ?_
      cases o with
      | none => exact ensures_pure fun _ h => nomatch h
      | some super => exact ensures_pure fun x hx => by obtain rfl := Option.some.inj hx; exact trivial
    · cases o with
      | none => exact ensures_pure trivial
      | some super =>
        exact (gives_consume _ _).bind fun _ _ => (gives_untilBrace (gives_funStatement hd "method") n [] trivial).bind fun _ hm =>
          (gives_consume _ _).bind fun _ _ => ensures_pure ⟨hm, ho super rfl⟩

theorem gives_behind {Q : α → Prop} {r : Rule α} (h : Gives r Q) : Gives (behind r) Q := gives_advance.bind fun _ _ => h

theorem gives_statement (hd : Gives d Stmt.Shape) : ∀ n, Gives (statement d n) Stmt.Shape := by
  intro n
  induction n with
  | zero => exact ensures_fail
  | succ n ih =>
    rw [statement]
    refine gives_here.bind fun tkn _ => ?_
    cases tkn.type with
    | printKey => exact gives_behind ((gives_expression n).bind fun _ hx => gives_terminated hx)
    | leftBrace => exact gives_behind (gives_blockStatements hd)
    | ifKey => exact gives_behind (gives_ifStatement ih)
    | forKey => exact gives_behind (gives_forStatement ih)
    | whileKey => exact gives_behind (gives_whileStatement ih)
    | returnKey => exact gives_behind (gives_returnStatement n)
    | _ => exact (gives_expression n).bind fun _ hx => gives_terminated hx

theorem gives_synchronizeLoop (token : Token) : ∀ n, Gives (synchronizeLoop token n) fun _ => True := by
  intro n
  induction n with
  | zero => exact ensures_fail
  | succ n ih =>
    rw [synchronizeLoop]
    exact gives_previous.bind fun _ _ => Ensures.ite (ensures_pure trivial)
      (Ensures.ite (ensures_pure trivial) (gives_advance.bind fun _ _ => ih))

theorem gives_recover (hs : Gives s Stmt.Shape) : Gives (recover n s) Stmt.Shape := by
  have hsync : Gives (synchronize n) fun _ => True := by
    refine gives_advance.bind fun _ _ => Ensures.bind (Q := fun _ => True) ?_ fun _ _ => ?_
    · intro c a c' hc hrun
      obtain ⟨-, rfl⟩ := Prod.mk.inj (Option.some.inj hrun)
      exact ⟨hc, trivial⟩
    · exact Ensures.ite (ensures_pure trivial)
        (gives_here.bind fun token _ => Ensures.ite (ensures_pure trivial) (gives_synchronizeLoop token n))
  exact hs.bind fun stmt hstmt => Ensures.ite (hsync.bind fun _ _ => ensures_pure hstmt) (ensures_pure hstmt)

theorem gives_declaration (n : Nat) : Gives (declaration n) Stmt.Shape := by
  induction n with
  | zero => exact ensures_fail
  | succ n ih =>
    rw [declaration]
    refine gives_here.bind fun tkn _ => ?_
    cases tkn.type with
    | classKey => exact gives_behind (gives_classStatement ih)
    | funKey => exact gives_behind (gives_funStatement ih _)
    | varKey => exact gives_recover (gives_behind (gives_varDeclaration n))
    | _ => exact gives_recover (gives_statement ih n)

/-- Whatever statements are returned. -/
theorem gives_parseLoop : ∀ n stmts, stmtShapes stmts → Gives (parseLoop n stmts) fun o => ∀ stmts ∈ o, stmtShapes stmts := by
  intro n
  induction n with
  | zero => exact fun _ _ => ensures_fail
  | succ n ih =>
    intro stmts hstmts
    rw [parseLoop]
    refine gives_here.bind fun _ _ => Ensures.ite (ensures_pure fun _ h => by obtain rfl := Option.some.inj h; exact hstmts) ?_
    refine (gives_declaration n).bind fun stmt hstmt => Ensures.ite ?_ (ih _ ((stmtShapes_append stmts stmt).2 ⟨hstmts, hstmt⟩))
    exact Ensures.ite (ensures_pure fun _ h => absurd h (Option.not_mem_none _)) ensures_fail

end Gives

end Reading.Clox.Parse
