import Reading.Clox.Lines
import Reading.Clox.Progress

/-!
# Where `compile` does not come back

Two runs of the compiler are compared: the one of the source, and the one whose recovery stops at once where it has tokens to skip. They differ in nothing else, and the second always comes to an end. So the first does exactly if the second never stops there.
-/

namespace Reading.Clox

variable {N α β : Type}

/-! ### Related runs -/

/-- The second result is the first one with the stops renamed, unless the first stopped for a reason that does not count. -/
def Sim (lost : Stop → Prop) (rename : Stop → Stop) (r r' : Except Stop α) : Prop :=
  (∃ e, lost e ∧ r = .error e) ∨ r' = r.mapError rename

section Sim

variable {lost : Stop → Prop} {rename : Stop → Stop}

theorem Sim.ok (a : α) : Sim lost rename (.ok a) (.ok a) := .inr rfl

theorem Sim.bind {r r' : Except Stop α} {k k' : α → Except Stop β} (hr : Sim lost rename r r')
    (hk : ∀ a, Sim lost rename (k a) (k' a)) : Sim lost rename (r >>= k) (r' >>= k') := by
  obtain ⟨e, hlost, rfl⟩ | rfl := hr
  · exact .inl ⟨e, hlost, rfl⟩
  · cases r with
    | ok a => exact hk a
    | error e => exact .inr rfl

variable (hashString : Chars → Nat) (strtod : Chars → N)

theorem sim_internString (hfull : rename .full = .full) (s : State N) (chars : Chars) :
    Sim lost rename (internString hashString s chars) (internString hashString s chars) := by
  rw [internString]
  split
  · right
    exact congrArg Except.error hfull.symm
  · exact Sim.ok _

theorem sim_identifierConstant (hfull : rename .full = .full) (s : State N) (name : Chars) :
    Sim lost rename (identifierConstant hashString s name) (identifierConstant hashString s name) :=
  (sim_internString hashString hfull s name).bind fun _ => Sim.ok _

theorem sim_variableParse (hfull : rename .full = .full) (s : State N) (message : String) :
    Sim lost rename (variableParse hashString s message) (variableParse hashString s message) := by
  rw [variableParse]
  split
  · exact Sim.ok _
  · exact sim_identifierConstant hashString hfull _ _

theorem sim_resolveVariable (hfull : rename .full = .full) (s : State N) (name : Chars) :
    Sim lost rename (resolveVariable hashString s name) (resolveVariable hashString s name) := by
  rw [resolveVariable]
  split
  · exact Sim.ok _
  · exact (sim_identifierConstant hashString hfull _ _).bind fun _ => Sim.ok _

variable {hashString strtod} {parse parse' : Fn → State N → Except Stop (State N)}

theorem sim_applyPrefix (hfull : rename .full = .full) (h : ∀ f s, Sim lost rename (parse f s) (parse' f s)) (rule : PrefixRule)
    (canAssign : Bool) (s : State N) :
    Sim lost rename (applyPrefix hashString strtod parse rule canAssign s) (applyPrefix hashString strtod parse' rule canAssign s) := by
  cases rule with
  | grouping => exact (h _ _).bind fun _ => Sim.ok _
  | unary =>
    refine (h _ _).bind fun _ => ?_
    split <;> exact Sim.ok _
  | «variable» =>
    refine (sim_resolveVariable hashString hfull s _).bind fun _ => ?_
    dsimp only
    split
    · exact (h _ _).bind fun _ => Sim.ok _
    · exact Sim.ok _
  | string => exact (sim_internString hashString hfull s _).bind fun _ => Sim.ok _
  | number => exact Sim.ok _
  | literal => exact Sim.ok _

theorem sim_applyInfix (h : ∀ f s, Sim lost rename (parse f s) (parse' f s)) (rule : InfixRule) (s : State N) :
    Sim lost rename (applyInfix parse rule s) (applyInfix parse' rule s) := by
  cases rule with
  | call =>
    simp only [applyInfix, call]
    split
    · exact Sim.ok _
    · exact h _ _
  | binary =>
    refine (h _ _).bind fun _ => ?_
    split <;> exact Sim.ok _
  | and => exact (h _ _).bind fun _ => Sim.ok _
  | or => exact (h _ _).bind fun _ => Sim.ok _

theorem sim_infixLoop (hnull : rename .nullRule = .nullRule) (h : ∀ f s, Sim lost rename (parse f s) (parse' f s)) (prec : Nat)
    (canAssign : Bool) (s : State N) : Sim lost rename (infixLoop parse prec canAssign s) (infixLoop parse' prec canAssign s) := by
  rw [infixLoop, infixLoop]
  split
  · dsimp only
    split
    · right
      exact congrArg Except.error hnull.symm
    · exact (sim_applyInfix h _ _).bind fun _ => h _ _
  · exact Sim.ok _

theorem sim_precParse (hfull : rename .full = .full) (h : ∀ f s, Sim lost rename (parse f s) (parse' f s)) (prec : Nat)
    (s : State N) : Sim lost rename (precParse hashString strtod parse prec s) (precParse hashString strtod parse' prec s) := by
  rw [precParse, precParse]
  dsimp only
  split
  · exact Sim.ok _
  · refine (sim_applyPrefix hfull h _ _ _).bind fun _ => (h _ _).bind fun _ => ?_
    split
    · exact h _ _
    · exact Sim.ok _

theorem sim_varDeclaration (hfull : rename .full = .full) (h : ∀ f s, Sim lost rename (parse f s) (parse' f s)) (s : State N) :
    Sim lost rename (varDeclaration hashString parse s) (varDeclaration hashString parse' s) := by
  refine (sim_variableParse hashString hfull s _).bind fun _ => Sim.bind ?_ fun _ => Sim.ok _
  rw [varInitializer, varInitializer]
  split
  · exact h _ _
  · exact Sim.ok _

theorem sim_forStatement (hfull : rename .full = .full) (h : ∀ f s, Sim lost rename (parse f s) (parse' f s)) (s : State N) :
    Sim lost rename (forStatement hashString parse s) (forStatement hashString parse' s) := by
  refine Sim.bind ?_ fun _ => Sim.bind ?_ fun _ => Sim.bind ?_ fun _ => (h _ _).bind fun _ => Sim.ok _
  · rw [forInitializer, forInitializer]
    split
    · exact sim_varDeclaration hfull h _
    · split
      · exact Sim.ok _
      · exact (h _ _).bind fun _ => Sim.ok _
  · rw [forCondition, forCondition]
    split
    · exact Sim.ok _
    · exact (h _ _).bind fun _ => Sim.ok _
  · rw [forIncrement, forIncrement]
    split
    · exact Sim.ok _
    · exact (h _ _).bind fun _ => Sim.ok _

theorem sim_ifStatement (h : ∀ f s, Sim lost rename (parse f s) (parse' f s)) (s : State N) :
    Sim lost rename (ifStatement parse s) (ifStatement parse' s) := by
  refine (h _ _).bind fun _ => (h _ _).bind fun _ => Sim.bind ?_ fun _ => Sim.ok _
  rw [elseBranch, elseBranch]
  split
  · exact h _ _
  · exact Sim.ok _

theorem sim_returnStatement (h : ∀ f s, Sim lost rename (parse f s) (parse' f s)) (s : State N) :
    Sim lost rename (returnStatement parse s) (returnStatement parse' s) := by
  rw [returnStatement, returnStatement]
  generalize (if s.compiler.type = .script then error s "Cannot return from top-level code." else s) = t
  split
  · exact Sim.ok _
  · exact (h _ _).bind fun _ => Sim.ok _

theorem sim_blockStatement (h : ∀ f s, Sim lost rename (parse f s) (parse' f s)) (s : State N) :
    Sim lost rename (blockStatement parse s) (blockStatement parse' s) := (h _ _).bind fun _ => Sim.ok _

theorem sim_statement (hfull : rename .full = .full) (h : ∀ f s, Sim lost rename (parse f s) (parse' f s)) (s : State N) :
    Sim lost rename (statement hashString parse s) (statement hashString parse' s) := by
  rw [statement, statement]
  split
  · exact (h _ _).bind fun _ => Sim.ok _
  · exact sim_forStatement hfull h _
  · exact sim_ifStatement h _
  · exact (h _ _).bind fun _ => (h _ _).bind fun _ => Sim.ok _
  · exact (sim_blockStatement h _).bind fun _ => Sim.ok _
  · exact sim_returnStatement h _
  · exact (h _ _).bind fun _ => Sim.ok _

theorem sim_funcDeclaration (hfull : rename .full = .full) (h : ∀ f s, Sim lost rename (parse f s) (parse' f s)) (s : State N) :
    Sim lost rename (funcDeclaration hashString parse s) (funcDeclaration hashString parse' s) := by
  refine (sim_variableParse hashString hfull s _).bind fun _ => Sim.bind ?_ fun _ => Sim.ok _
  refine ((sim_internString hashString hfull _ _).bind fun _ => Sim.ok _).bind fun _ => Sim.bind ?_ fun _ => ?_
  · rw [parameterList, parameterList]
    split
    · exact Sim.ok _
    · exact h _ _
  · exact (sim_blockStatement h _).bind fun _ => Sim.ok _

theorem sim_declaration (hfull : rename .full = .full) (h : ∀ f s, Sim lost rename (parse f s) (parse' f s))
    {recover recover' : State N → Except Stop (State N)} (hrecover : ∀ s, Sim lost rename (recover s) (recover' s)) (s : State N) :
    Sim lost rename (declaration hashString parse recover s) (declaration hashString parse' recover' s) := by
  refine Sim.bind ?_ fun t => ?_
  · rw [declare, declare]
    split
    · exact sim_varDeclaration hfull h _
    · exact sim_funcDeclaration hfull h _
    · exact h _ _
  · split
    · exact hrecover t
    · exact Sim.ok t

theorem sim_body (hfull : rename .full = .full) (hnull : rename .nullRule = .nullRule)
    (h : ∀ f s, Sim lost rename (parse f s) (parse' f s)) {recover recover' : State N → Except Stop (State N)}
    (hrecover : ∀ s, Sim lost rename (recover s) (recover' s)) (f : Fn) (s : State N) :
    Sim lost rename (body hashString strtod parse recover f s) (body hashString strtod parse' recover' f s) := by
  cases f with
  | precParse prec => exact sim_precParse hfull h prec s
  | infixLoop prec canAssign => exact sim_infixLoop hnull h prec canAssign s
  | arguments argCount =>
    refine (h _ _).bind fun _ => ?_
    split
    · exact h _ _
    · exact Sim.ok _
  | statement => exact sim_statement hfull h s
  | declaration => exact sim_declaration hfull h hrecover s
  | block =>
    simp only [body, blockLoop]
    split
    · exact Sim.ok _
    · exact (h _ _).bind fun _ => h _ _
  | parameters =>
    refine (sim_variableParse hashString hfull s _).bind fun r => ?_
    dsimp only
    generalize (variableDefine r.1 r.2).modify (fun f => { f with arity := f.arity + 1 }) = t
    generalize (if t.compiler.function.arity > 8 then error t "Cannot have more than 8 parameters." else t) = u
    split
    · exact h _ _
    · exact Sim.ok _
  | program =>
    simp only [body, programLoop]
    split
    · exact Sim.ok _
    · exact (h _ _).bind fun _ => h _ _

end Sim

section Runs

variable (hashString : Chars → Nat) (strtod : Chars → N)

/-- What a stop of the second run is in the first. -/
def Stop.seen : Stop → Stop
  | .stuck => .loop
  | .loop => .loop
  | .full => .full
  | .depth => .depth
  | .nullRule => .nullRule

theorem sim_recover (s : State N) : Sim (fun _ => False) Stop.seen (recoverUnlessStuck s) (synchronize s) := by
  right
  rw [synchronize_eq, recoverUnlessStuck]
  split <;> rfl

theorem run_synchronize (depth : Nat) (f : Fn) (s : State N) :
    Sim (fun _ => False) Stop.seen (run hashString strtod recoverUnlessStuck depth f s) (run hashString strtod synchronize depth f s) := by
  induction depth generalizing f s with
  | zero => exact .inr rfl
  | succ depth ih => exact sim_body rfl rfl ih sim_recover f s

theorem Sim.refl (r : Except Stop α) : Sim (· = .depth) id r r := by
  right
  cases r <;> rfl

/-- With more depth a run that was not cut off is the same. -/
theorem run_succ (recover : State N → Except Stop (State N)) (depth : Nat) (f : Fn) (s : State N) :
    Sim (· = .depth) id (run hashString strtod recover depth f s) (run hashString strtod recover (depth + 1) f s) := by
  induction depth generalizing f s with
  | zero => exact .inl ⟨.depth, rfl, rfl⟩
  | succ depth ih => exact sim_body rfl rfl ih (fun s => Sim.refl _) f s

theorem run_mono {recover : State N → Except Stop (State N)} {depth depth' : Nat} (hle : depth ≤ depth') {f : Fn} {s : State N}
    {r : Except Stop (State N)} (hr : run hashString strtod recover depth f s = r) (hdepth : r ≠ .error .depth) :
    run hashString strtod recover depth' f s = r := by
  induction hle with
  | refl => exact hr
  | step _ ih =>
    obtain ⟨e, rfl, herror⟩ | heq := run_succ hashString strtod recover _ f s
    · exact absurd (ih.symm.trans herror) hdepth
    · rw [heq, ih]
      cases r <;> rfl

/-- Two runs that were not cut off agree. -/
theorem run_unique {recover : State N → Except Stop (State N)} {depth depth' : Nat} {f : Fn} {s : State N}
    (h : run hashString strtod recover depth f s ≠ .error .depth) (h' : run hashString strtod recover depth' f s ≠ .error .depth) :
    run hashString strtod recover depth f s = run hashString strtod recover depth' f s := by
  obtain hle | hle := Nat.le_total depth depth'
  · exact (run_mono hashString strtod hle rfl h).symm
  · exact run_mono hashString strtod hle rfl h'

/-! ### The source -/

/-- `compile`, for a source. -/
def compileSource (depth : Nat) (objects : Objects N) (code : Chars) : Except Stop (State N) :=
  compile hashString strtod depth objects ((toknzr code).headD endToken) (toknzr code).tail

/-- The run of `compile` that is stopped where a recovery has tokens to skip. -/
def guardedRun (depth : Nat) (objects : Objects N) (code : Chars) : Except Stop (State N) :=
  run hashString strtod recoverUnlessStuck depth .program
    (State.initial objects ((toknzr code).headD endToken) (toknzr code).tail)

/-- `compile` returns: the scanner makes tokens, and the parser comes to their end. -/
def Completes (objects : Objects N) (code : Source) : Prop :=
  ∃ tokens, (Scan.toknzr code false).map (fun tokens => tokens.values.map Scan.tokenOf) = some tokens ∧
    ∃ depth s, compile hashString strtod depth objects (tokens.headD endToken) tokens.tail = .ok s

variable {hashString strtod}

theorem compileSource_ok_iff {objects : Objects N} {code : Chars} {depth : Nat} {s : State N} :
    compileSource hashString strtod depth objects code = .ok s ↔
      ∃ s', guardedRun hashString strtod depth objects code = .ok s' ∧ (compilerEnd s').1 = s := by
  have hrun : run hashString strtod synchronize depth .program
      (State.initial objects ((toknzr code).headD endToken) (toknzr code).tail) =
        (guardedRun hashString strtod depth objects code).mapError Stop.seen :=
    (run_synchronize hashString strtod depth .program _).resolve_left (fun ⟨_, hlost, _⟩ => hlost)
  rw [compileSource, compile, hrun]
  cases guardedRun hashString strtod depth objects code with
  | ok s' =>
    constructor
    · intro hs
      exact ⟨s', rfl, Except.ok.inj hs⟩
    · rintro ⟨_, hs', rfl⟩
      cases hs'
      rfl
  | error e =>
    constructor
    · intro hs
      exact nomatch hs
    · rintro ⟨_, hs', _⟩
      exact nomatch hs'

theorem within_initial {objects : Objects N} (hobjects : objects.Interned hashString) (code : Chars) :
    Within hashString objects.strings.Has (toknzr code).tail.length
      (State.initial objects ((toknzr code).headD endToken) (toknzr code).tail) := by
  refine ⟨⟨?_, hobjects.strings, fun string hstring => ?_, fun _ hold => hold⟩, Nat.le_refl _⟩
  · have hterminated := terminated_toknzr code
    cases htokens : toknzr code with
    | nil =>
      rw [htokens] at hterminated
      exact hterminated.elim
    | cons first following =>
      rw [htokens] at hterminated
      exact hterminated
  · obtain ⟨f, hf, hstring⟩ | hstring | ⟨c, hc, -⟩ := mem_made.mp hstring
    · exact hobjects.functions f hf string hstring
    · simp [State.initial, VmFunction.strings] at hstring
    · exact absurd hc List.not_mem_nil

theorem guardedRun_ends (strtod : Chars → N) {objects : Objects N} (hobjects : objects.Interned hashString) (code : Chars) :
    Ends hashString objects.strings.Has id (toknzr code).tail.length
      (guardedRun hashString strtod (6 * (toknzr code).tail.length + 6) objects code) :=
  answers_run strtod (6 * (toknzr code).tail.length + 6) .program _ _ trivial (within_initial hobjects code) (by simp [Fn.weight])

theorem guardedRun_eq {objects : Objects N} {code : Chars} {depth depth' : Nat} {s : State N}
    (hok : guardedRun hashString strtod depth objects code = .ok s)
    (hdepth : guardedRun hashString strtod depth' objects code ≠ .error .depth) :
    guardedRun hashString strtod depth' objects code = .ok s := by
  have hne : guardedRun hashString strtod depth objects code ≠ .error .depth := by simp [hok]
  exact (run_unique hashString strtod hdepth hne).trans hok

/-- Whatever was compiled, the strings of the functions are interned, and no string is lost. -/
theorem compileSource_interned {objects : Objects N} (hobjects : objects.Interned hashString) {depth : Nat} {code : Chars} {s : State N}
    (hs : compileSource hashString strtod depth objects code = .ok s) :
    s.objects.Interned hashString ∧ ∀ string, objects.strings.Has string → s.objects.strings.Has string := by
  obtain ⟨s', hs', rfl⟩ := compileSource_ok_iff.mp hs
  have hends := guardedRun_ends strtod hobjects code
  have hdepth : guardedRun hashString strtod (6 * (toknzr code).tail.length + 6) objects code ≠ .error .depth := by
    intro herror
    rw [herror] at hends
    obtain hstuck | hnull := hends
    · exact nomatch hstuck
    · exact nomatch hnull
  rw [guardedRun_eq hs' hdepth] at hends
  have hsound := (Within.compilerEnd hends).1
  refine ⟨⟨hsound.strings, fun f hf string hstring => hsound.interned string ?_⟩, hsound.kept⟩
  exact mem_made.mpr (.inl ⟨f, hf, hstring⟩)

end Runs

end Reading.Clox
