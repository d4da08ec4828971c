import Mathlib.Data.List.TakeWhile
import Reading.Clox.Scan

/-!
# Where the scanner goes wrong

The index of `toknzr` stays an `int` unless the source is too long, or as long as an `int` can say and ends in a comment or a string. `Mode.survey` reads a source character by character and says whether it ends so, and which of its lines end in a comment; the scanner counts the others. Where the numbers fit, both modes of the scanner give the same tokens up to the errors, and the list ends with the end of the file.
-/

namespace Reading.Clox

/-! ### Surveys -/

/-- What a character stands in: `slash` is behind a slash that may begin a comment. -/
inductive Mode where
  | plain
  | slash
  | comment
  | string
deriving DecidableEq

def Mode.next : Mode → UInt8 → Mode
  | .comment, c => if c = ascii '\n' then .plain else .comment
  | .string, c => if c = ascii '"' then .plain else .string
  | .slash, c => if c = ascii '/' then .comment else if c = ascii '"' then .string else .plain
  | .plain, c => if c = ascii '/' then .slash else if c = ascii '"' then .string else .plain

@[ext]
structure Survey where
  /-- 1 if the end is in a comment or a string. -/
  openEnd : Nat
  /-- The lines that do not end in a comment. -/
  lines : Nat
  commentLines : Nat
deriving DecidableEq

instance : Add Survey := ⟨fun s s' => ⟨s.openEnd + s'.openEnd, s.lines + s'.lines, s.commentLines + s'.commentLines⟩⟩

def Mode.survey : Mode → Chars → Survey
  | m, [] => ⟨if m = .comment ∨ m = .string then 1 else 0, 0, 0⟩
  | m, c :: rest =>
    (if m = .comment then ⟨0, 0, Scan.lineEnd c⟩ else ⟨0, Scan.lineEnd c, 0⟩) + (m.next c).survey rest

def Source.survey (code : Source) : Survey := Mode.plain.survey code.chars

variable {a b : Chars} {c : UInt8} {rest : Chars} {m : Mode}

@[simp] theorem survey_add (s s' : Survey) : s + s' = ⟨s.openEnd + s'.openEnd, s.lines + s'.lines, s.commentLines + s'.commentLines⟩ := rfl

/-- Every line ends in a comment or outside of one. -/
theorem survey_lines (m : Mode) (chars : Chars) :
    (m.survey chars).lines + (m.survey chars).commentLines = chars.count (ascii '\n') := by
  induction chars generalizing m with
  | nil => rfl
  | cons c rest ih =>
    rw [Scan.count_lines, ← ih (m.next c), Mode.survey]
    split <;> simp only [survey_add] <;> omega

/-- Characters that keep their mode, which is no comment. -/
theorem survey_still (hm : m ≠ .comment) (h : ∀ c ∈ a, m.next c = m) (b : Chars) :
    m.survey (a ++ b) = ⟨0, a.count (ascii '\n'), 0⟩ + m.survey b := by
  induction a with
  | nil =>
    ext <;> simp
  | cons c a ih =>
    rw [List.cons_append, Mode.survey, if_neg hm, h c List.mem_cons_self, ih fun c hc => h c (List.mem_cons_of_mem _ hc),
      Scan.count_lines]
    ext <;> simp only [survey_add] <;> omega

theorem survey_comment (h : ∀ c ∈ a, c ≠ ascii '\n') (b : Chars) : Mode.comment.survey (a ++ b) = Mode.comment.survey b := by
  induction a with
  | nil => rfl
  | cons c a ih =>
    have hc := h c List.mem_cons_self
    rw [List.cons_append, Mode.survey, if_pos rfl, Mode.next, if_neg hc, ih fun c hc => h c (List.mem_cons_of_mem _ hc),
      Scan.lineEnd, if_neg hc]
    ext <;> simp

/-- A slash that begins no comment is like any other character. -/
theorem survey_slash (h : rest.head? ≠ some (ascii '/')) : Mode.slash.survey rest = Mode.plain.survey rest := by
  cases rest with
  | nil => rfl
  | cons c rest =>
    have hc : c ≠ ascii '/' := fun heq => h (congrArg some heq)
    rw [Mode.survey, Mode.survey, Mode.next, Mode.next, if_neg hc, if_neg hc]
    rfl

theorem next_plain (hslash : c ≠ ascii '/') (hquote : c ≠ ascii '"') : Mode.plain.next c = .plain := by
  rw [Mode.next, if_neg hslash, if_neg hquote]

/-! ### Surveys and rounds -/

/-- A character that begins no comment and no string and ends no line. -/
def Quiet (c : UInt8) : Prop := c ≠ ascii '/' ∧ c ≠ ascii '"' ∧ c ≠ ascii '\n'

instance (c : UInt8) : Decidable (Quiet c) := inferInstanceAs (Decidable (_ ∧ _))

theorem count_quiet (h : ∀ c ∈ a, Quiet c) : a.count (ascii '\n') = 0 :=
  List.count_eq_zero.mpr fun hmem => (h _ hmem).2.2 rfl

theorem survey_quiet (h : ∀ c ∈ a, Quiet c) (b : Chars) : Mode.plain.survey (a ++ b) = ⟨0, 0, 0⟩ + Mode.plain.survey b := by
  rw [survey_still (m := .plain) nofun (fun c hc => next_plain (h c hc).1 (h c hc).2.1), count_quiet h]

theorem quiet_of {p : UInt8 → Bool} (hp : p (ascii '/') = false ∧ p (ascii '"') = false ∧ p (ascii '\n') = false) (h : p c = true) :
    Quiet c := by
  refine ⟨?_, ?_, ?_⟩
  · rintro rfl
    exact Bool.false_ne_true (hp.1.symm.trans h)
  · rintro rfl
    exact Bool.false_ne_true (hp.2.1.symm.trans h)
  · rintro rfl
    exact Bool.false_ne_true (hp.2.2.symm.trans h)

theorem quiet_isdigit (h : isdigit c = true) : Quiet c := quiet_of (by decide) h

theorem quiet_isalpha (h : isalpha c = true) : Quiet c := quiet_of (by decide) h

theorem quiet_simpleToken {type : TokenType} (h : simpleToken c = some type) : Quiet c :=
  quiet_of (p := fun c => (simpleToken c).isSome) (by decide) (Option.isSome_iff_exists.mpr ⟨type, h⟩)

theorem quiet_equalToken {types : TokenType × TokenType} (h : equalToken c = some types) : Quiet c :=
  quiet_of (p := fun c => (equalToken c).isSome) (by decide) (Option.isSome_iff_exists.mpr ⟨types, h⟩)

theorem quiet_readNumber {chars : Chars} : ∀ c ∈ (readNumber chars).1, Quiet c := by
  have hdigits : ∀ {chars : Chars}, ∀ c ∈ chars.takeWhile isdigit, Quiet c := fun c hc =>
    quiet_isdigit (List.mem_takeWhile_imp hc)
  intro c hc
  rw [readNumber] at hc
  split at hc
  · split at hc
    · rename_i hpoint
      rcases List.mem_append.mp hc with hc | hc
      · exact hdigits c hc
      · rcases List.mem_cons.mp hc with rfl | hc
        · rw [hpoint.1]
          decide
        · exact hdigits c hc
    · exact hdigits c hc
  · exact hdigits c hc

theorem quiet_readOther {chars : Chars} : ∀ c ∈ (readOther chars).1, Quiet c := fun _ hc => quiet_isalpha (List.mem_takeWhile_imp hc)

namespace Scan

/-- How the characters of a round are counted by a survey. -/
inductive Surveyed (s : Stride) (c : UInt8) (rest : Chars) : Prop where
  | closed (skipped : Nat) (hchars : s.chars ≤ rest.length + 1)
      (heq : Mode.plain.survey (c :: rest) = ⟨0, s.lines, skipped⟩ + Mode.plain.survey (rest.drop (s.chars - 1)))
  | openEnd (hchars : s.chars = rest.length + 2) (hword : s.word = false) (heq : Mode.plain.survey (c :: rest) = ⟨1, s.lines, 0⟩)

/-- A round over characters of which none is special. -/
theorem surveyed_quiet {s : Stride} (text : Chars) {behind : Chars} (hsplit : text ++ behind = c :: rest) (hquiet : ∀ c ∈ text, Quiet c)
    (hpos : 0 < text.length) (hchars : s.chars = text.length) (hlines : s.lines = 0) : Surveyed s c rest := by
  have hlength := congrArg List.length hsplit
  rw [List.length_append, List.length_cons] at hlength
  refine .closed 0 (by omega) ?_
  rw [hlines, hchars, ← drop_cons hpos, ← hsplit, List.drop_left, survey_quiet hquiet]

/-- A search stops at the character that it is for. -/
theorem eq_of_dropWhile {d : UInt8} {more : Chars} (h : rest.dropWhile (· ≠ d) = c :: more) : c = d := by
  induction rest with
  | nil => exact nomatch h
  | cons x rest ih =>
    by_cases hx : x = d
    · rw [List.dropWhile_cons_of_neg (by simpa using hx)] at h
      exact (List.cons.inj h).1.symm.trans hx
    · rw [List.dropWhile_cons_of_pos (by simpa using hx)] at h
      exact ih h

theorem surveyed_slash (rest : Chars) : Surveyed (.slash rest) (ascii '/') rest := by
  rw [Stride.slash]
  by_cases hhead : rest.head? = some (ascii '/')
  case neg =>
    rw [if_neg hhead]
    refine .closed 0 (Nat.le_add_left _ _) ?_
    change (⟨0, 0, 0⟩ : Survey) + Mode.slash.survey rest = _
    rw [survey_slash hhead]
    rfl
  rw [if_pos hhead]
  cases rest with
  | nil => cases hhead
  | cons second rest =>
    obtain rfl : second = ascii '/' := Option.some.inj hhead
    have hsplit := List.takeWhile_append_dropWhile (p := (· ≠ ascii '\n')) (l := rest)
    have hdrop := drop_takeWhile (· ≠ ascii '\n') rest
    have hcomment : ∀ c ∈ rest.takeWhile (· ≠ ascii '\n'), c ≠ ascii '\n' := fun c hc => by
      simpa using List.mem_takeWhile_imp hc
    have hsurvey : Mode.plain.survey (ascii '/' :: ascii '/' :: rest) =
        ⟨0, 0, 0⟩ + (⟨0, 0, 0⟩ + Mode.comment.survey (rest.dropWhile (· ≠ ascii '\n'))) := by
      rw [← survey_comment hcomment, hsplit]
      rfl
    have hlength := congrArg List.length hsplit
    rw [List.length_append] at hlength
    cases hrest : rest.dropWhile (· ≠ ascii '\n') with
    | nil =>
      rw [hrest] at hlength hsurvey
      refine .openEnd ?_ rfl hsurvey
      change (rest.takeWhile _).length + 3 = rest.length + 1 + 2
      simp only [List.length_nil] at hlength
      omega
    | cons newline more =>
      have hnewline := eq_of_dropWhile hrest
      rw [hrest, hnewline] at hsurvey
      rw [hrest, List.length_cons] at hlength
      refine .closed 1 ?_ (hsurvey.trans ?_)
      · change (rest.takeWhile _).length + 3 ≤ rest.length + 1 + 1
        omega
      · change _ = _ + Mode.plain.survey ((ascii '/' :: rest).drop ((rest.takeWhile _).length + 2))
        rw [List.drop_succ_cons, ← List.drop_drop, hdrop, hrest]
        change (⟨0, 0, 0⟩ : Survey) + (⟨0, 0, 0⟩ + (⟨0, 0, 1⟩ + Mode.plain.survey more)) = ⟨0, 0, 1⟩ + Mode.plain.survey more
        ext <;> simp

theorem surveyed_quote (rest : Chars) : Surveyed (.quote rest) (ascii '"') rest := by
  have hsplit := List.takeWhile_append_dropWhile (p := (· ≠ ascii '"')) (l := rest)
  have hdrop := drop_takeWhile (· ≠ ascii '"') rest
  have hstring : ∀ c ∈ rest.takeWhile (· ≠ ascii '"'), Mode.string.next c = .string := fun c hc =>
    if_neg (by simpa using List.mem_takeWhile_imp hc)
  have hsurvey : Mode.plain.survey (ascii '"' :: rest) = ⟨0, 0, 0⟩ + (⟨0, (rest.takeWhile (· ≠ ascii '"')).count (ascii '\n'), 0⟩ +
      Mode.string.survey (rest.dropWhile (· ≠ ascii '"'))) := by
    rw [← survey_still (m := .string) nofun hstring, hsplit]
    rfl
  have hlength := congrArg List.length hsplit
  rw [List.length_append] at hlength
  rw [Stride.quote]
  cases hrest : rest.dropWhile (· ≠ ascii '"') with
  | nil =>
    rw [hrest] at hsplit hsurvey
    rw [List.append_nil] at hsplit
    simp only [if_pos hsplit]
    refine .openEnd (congrArg (·.length + 2) hsplit) rfl (hsurvey.trans ?_)
    change (⟨0, 0, 0⟩ : Survey) + (⟨0, _, 0⟩ + ⟨1, 0, 0⟩) = ⟨1, _, 0⟩
    ext <;> simp
  | cons quote more =>
    have hquote := eq_of_dropWhile hrest
    have hopen : rest.takeWhile (· ≠ ascii '"') ≠ rest := by
      intro hopen
      rw [hopen, hrest] at hsplit
      simp at hsplit
    rw [hrest, hquote] at hsurvey
    rw [hrest, List.length_cons] at hlength
    simp only [if_neg hopen]
    refine .closed 0 ?_ (hsurvey.trans ?_)
    · change (rest.takeWhile _).length + 2 ≤ rest.length + 1
      omega
    · change _ = _ + Mode.plain.survey (rest.drop ((rest.takeWhile _).length + 1))
      rw [← List.drop_drop, hdrop, hrest]
      change (⟨0, 0, 0⟩ : Survey) + (⟨0, _, 0⟩ + (⟨0, 0, 0⟩ + Mode.plain.survey more)) = ⟨0, _, 0⟩ + Mode.plain.survey more
      ext <;> simp

/-- A survey goes on behind a round, unless the source ends in it. -/
theorem surveyed (c : UInt8) (rest : Chars) : Surveyed (stride c rest) c rest := by
  rw [stride]
  cases hsimple : simpleToken c with
  | some type =>
    refine surveyed_quiet [c] rfl ?_ Nat.one_pos rfl rfl
    simpa using quiet_simpleToken hsimple
  | none =>
    cases hequal : equalToken c with
    | some types =>
      have hquiet := quiet_equalToken hequal
      by_cases hhead : rest.head? = some (ascii '=')
      · simp only [if_pos hhead]
        cases rest with
        | nil => cases hhead
        | cons second rest =>
          obtain rfl : second = ascii '=' := Option.some.inj hhead
          refine surveyed_quiet [c, ascii '='] rfl ?_ Nat.two_pos rfl rfl
          simpa using ⟨hquiet, by decide⟩
      · simp only [if_neg hhead]
        refine surveyed_quiet [c] rfl ?_ Nat.one_pos rfl rfl
        simpa using hquiet
    | none =>
      simp only
      by_cases hslash : c = ascii '/'
      · subst hslash
        rw [if_pos rfl]
        exact surveyed_slash rest
      by_cases hquote : c = ascii '"'
      · subst hquote
        rw [if_neg hslash, if_pos rfl]
        exact surveyed_quote rest
      rw [if_neg hslash, if_neg hquote]
      by_cases hspace : isSpace c = true
      · rw [if_pos hspace]
        refine .closed 0 (Nat.le_add_left _ _) ?_
        rw [Mode.survey, if_neg (by decide), next_plain hslash hquote]
        rfl
      rw [if_neg hspace]
      by_cases hdigit : isdigit c = true
      · rw [if_pos hdigit]
        exact surveyed_quiet _ (readNumber_append _) quiet_readNumber (readNumber_pos hdigit rest) rfl rfl
      rw [if_neg hdigit]
      by_cases halpha : isalpha c = true
      · rw [if_pos halpha]
        exact surveyed_quiet (Clox.readOther (c :: rest)).1 List.takeWhile_append_dropWhile quiet_readOther
          (readOther_pos halpha rest) rfl rfl
      · rw [if_neg halpha]
        refine surveyed_quiet [c] rfl ?_ Nat.one_pos rfl rfl
        simp only [List.mem_singleton, forall_eq]
        refine ⟨hslash, hquote, fun hend => hspace ?_⟩
        rw [hend]
        decide

theorem stride_pos (c : UInt8) (rest : Chars) : 0 < (stride c rest).chars := by
  rw [stride]
  cases simpleToken c with
  | some type => exact Nat.one_pos
  | none =>
    cases equalToken c with
    | some types =>
      simp only
      split
      · exact Nat.two_pos
      · exact Nat.one_pos
    | none =>
      simp only
      split_ifs with hslash hquote hspace hdigit halpha
      · rw [Stride.slash]
        split
        · exact Nat.succ_pos _
        · exact Nat.one_pos
      · rw [Stride.quote]
        split <;> exact Nat.succ_pos _
      · exact Nat.one_pos
      · exact readNumber_pos hdigit rest
      · exact readOther_pos halpha rest
      · exact Nat.one_pos

/-! ### The whole loop -/

def endOfFile (line current : Nat) : Scanned := simple .endOfFile line current (['E', 'O', 'F'].map ascii)

/-- The tokens of the characters from an index on, for at most so many rounds. -/
def scanFrom (verbose : Bool) : Nat → Nat → Nat → Chars → Tokenization
  | rounds + 1, line, current, c :: rest =>
    let s := stride c rest
    let tokens := scanFrom verbose rounds (line + s.lines) (current + s.chars) (rest.drop (s.chars - 1))
    { tokens with values := (s.scanned verbose line current).toList ++ tokens.values }
  | _, line, current, _ => ⟨[endOfFile line current], line⟩

end Scan

/-- The source is a single number or a single name. -/
def OneWord : Chars → Prop
  | [] => False
  | c :: rest => (Scan.stride c rest).word = true ∧ (Scan.stride c rest).chars = rest.length + 1

/-- The numbers of the scanner that is at an index are in the range of an `int` up to the end. -/
structure FitsFrom (line current : Nat) (rest : Chars) : Prop where
  index : current + rest.length + (Mode.plain.survey rest).openEnd ≤ intMax
  lines : line + (Mode.plain.survey rest).lines ≤ intMax
  word : OneWord rest → rest.length < intMax

/-- An `int` holds the index behind the source, or behind the quote or the end of line that it lacks, and the number of its last line; and if the source is one word, it holds the length of that word with the byte at its end. -/
def Source.Fits (code : Source) : Prop := FitsFrom 1 0 code.chars

namespace Scan

variable {code : Source} {verbose : Bool} {rounds line current : Nat}

/-- The numbers fit to the end if they fit in this round and from the next one on. -/
theorem fitsFrom_cons : FitsFrom line current (c :: rest) ↔
    (stride c rest).Fits line current ∧
      FitsFrom (line + (stride c rest).lines) (current + (stride c rest).chars) (rest.drop ((stride c rest).chars - 1)) := by
  have hpos := stride_pos c rest
  have hdrop : (rest.drop ((stride c rest).chars - 1)).length = rest.length - ((stride c rest).chars - 1) := List.length_drop
  obtain ⟨skipped, hchars, heq⟩ | ⟨hchars, hword, heq⟩ := surveyed c rest
  case closed =>
    have hopen := congrArg Survey.openEnd heq
    have hlines := congrArg Survey.lines heq
    simp only [survey_add, Nat.zero_add] at hopen hlines
    constructor
    · rintro ⟨hindex, hline, hone⟩
      rw [List.length_cons] at hindex
      refine ⟨⟨by omega, by omega, fun hw => ?_⟩, by omega, by omega, fun _ => by omega⟩
      by_contra hlong
      have hlast : (stride c rest).chars = rest.length + 1 := by omega
      have hlt := hone ⟨hw, hlast⟩
      rw [List.length_cons] at hlt
      omega
    · rintro ⟨⟨-, -, hw⟩, hindex, hline, -⟩
      refine ⟨by rw [List.length_cons]; omega, by omega, fun hone => ?_⟩
      have hlt := hw hone.1
      rw [hone.2] at hlt
      exact hlt
  case openEnd =>
    have hnil : rest.drop ((stride c rest).chars - 1) = [] := List.drop_eq_nil_of_le (by omega)
    have hopen : (Mode.plain.survey (c :: rest)).openEnd = 1 := congrArg Survey.openEnd heq
    have hlines : (Mode.plain.survey (c :: rest)).lines = (stride c rest).lines := congrArg Survey.lines heq
    rw [hnil]
    constructor
    · rintro ⟨hindex, hline, -⟩
      rw [hopen, List.length_cons] at hindex
      rw [hlines] at hline
      refine ⟨⟨by omega, hline, fun hw => nomatch hword.symm.trans hw⟩, ?_, hline, False.elim⟩
      change current + (stride c rest).chars + 0 + 0 ≤ intMax
      omega
    · rintro ⟨⟨hindex, hline, -⟩, -⟩
      refine ⟨?_, by rw [hlines]; exact hline, fun hone => ?_⟩
      · rw [hopen, List.length_cons]
        omega
      · have hlast := hone.2
        omega

/-- Where the cursor stands, or behind the end after a comment or a string that does not end. -/
def Stands (code : Source) (current : Nat) (rest : Chars) : Prop := At code current rest ∨ rest = [] ∧ code.length < current

theorem Stands.next (h : At code current (c :: rest)) :
    Stands code (current + (stride c rest).chars) (rest.drop ((stride c rest).chars - 1)) := by
  have hpos := stride_pos c rest
  have hlength := h.length
  rw [List.length_cons] at hlength
  by_cases hinside : (stride c rest).chars ≤ rest.length + 1
  · left
    have hsplit : At code current ((c :: rest).take (stride c rest).chars ++ (c :: rest).drop (stride c rest).chars) := by
      rw [List.take_append_drop]
      exact h
    have hat := hsplit.append
    rw [List.length_take, List.length_cons, Nat.min_eq_left hinside, drop_cons hpos] at hat
    exact hat
  · right
    exact ⟨List.drop_eq_nil_of_le (by omega), by omega⟩

instance : (rest : Chars) → Decidable (OneWord rest)
  | [] => inferInstanceAs (Decidable False)
  | _ :: _ => inferInstanceAs (Decidable (_ ∧ _))

instance (line current : Nat) (rest : Chars) : Decidable (FitsFrom line current rest) :=
  decidable_of_iff (_ ∧ _ ∧ _) ⟨fun h => ⟨h.1, h.2.1, h.2.2⟩, fun h => ⟨h.index, h.lines, h.word⟩⟩

theorem loop_eq (hsize : code.length ≤ intMax) (hline : line ≤ intMax) (hcurrent : current ≤ intMax) (h : Stands code current rest)
    (hrounds : rest.length < rounds) :
    loop code verbose rounds line current =
      if FitsFrom line current rest then some (scanFrom verbose rounds line current rest) else none := by
  induction rounds generalizing line current rest with
  | zero => exact absurd hrounds (Nat.not_lt_zero _)
  | succ rounds ih =>
    rw [loop]
    cases rest with
    | nil =>
      have hend : code.length ≤ current := by
        obtain hat | ⟨-, hlt⟩ := h
        · exact hat.length.symm.le
        · exact hlt.le
      have hfits : FitsFrom line current [] := ⟨hcurrent, hline, False.elim⟩
      rw [if_pos hend, if_pos hfits]
      rfl
    | cons c rest =>
      have hat := h.resolve_right fun hnil => List.cons_ne_nil _ _ hnil.1
      have hlt : ¬ code.length ≤ current := Nat.not_le.mpr (hat.lt_iff.mpr (List.cons_ne_nil _ _))
      rw [if_neg hlt, round_eq hsize hline hat]
      by_cases hround : (stride c rest).Fits line current
      case neg =>
        rw [if_neg hround, if_neg fun hfits => hround (fitsFrom_cons.mp hfits).1]
        rfl
      have hrest : (rest.drop ((stride c rest).chars - 1)).length < rounds := by
        rw [List.length_drop]
        rw [List.length_cons] at hrounds
        omega
      rw [if_pos hround]
      change (loop code verbose rounds _ _ >>= _) = _
      rw [ih hround.2.1 hround.1 (.next hat) hrest]
      by_cases hfits : FitsFrom (line + (stride c rest).lines) (current + (stride c rest).chars) (rest.drop ((stride c rest).chars - 1))
      · rw [if_pos hfits, if_pos (fitsFrom_cons.mpr ⟨hround, hfits⟩)]
        rfl
      · rw [if_neg hfits, if_neg fun hall => hfits (fitsFrom_cons.mp hall).2]
        rfl

/-- An index that is an `int` does not come to the end of a source that is too long. -/
theorem loop_none (hsize : intMax < code.length) (hcurrent : current ≤ intMax) : loop code verbose rounds line current = none := by
  induction rounds generalizing line current with
  | zero => rfl
  | succ rounds ih =>
    rw [loop, if_neg (by omega)]
    cases hround : round code verbose line current with
    | none => rfl
    | some result =>
      obtain ⟨token, line', current'⟩ := result
      have hcurrent' : current' ≤ intMax := by
        rw [round] at hround
        cases hstep : step code verbose line current with
        | none =>
          rw [hstep] at hround
          cases hround
        | some result =>
          rw [hstep] at hround
          change (incr result.2.2 >>= _) = _ at hround
          rw [incr] at hround
          by_cases hlt : result.2.2 < intMax
          · rw [if_pos hlt] at hround
            cases hround
            exact hlt
          · rw [if_neg hlt] at hround
            cases hround
      change (loop code verbose rounds line' current' >>= _) = none
      rw [ih hcurrent']
      rfl

instance (code : Source) : Decidable code.Fits := inferInstanceAs (Decidable (FitsFrom 1 0 code.chars))

/-- The scanner makes its tokens exactly if the numbers fit. -/
theorem toknzr_eq (code : Source) (verbose : Bool) :
    toknzr code verbose = if code.Fits then some (scanFrom verbose (code.length + 1) 1 0 code.chars) else none := by
  rw [toknzr]
  by_cases hsize : code.length ≤ intMax
  · exact loop_eq hsize (by decide) (Nat.zero_le _) (.inl (at_zero code)) (Nat.lt_succ_self _)
  · rw [loop_none (Nat.not_le.mp hsize) (Nat.zero_le _), if_neg]
    intro hfits
    have hindex := hfits.index
    rw [Nat.zero_add] at hindex
    exact hsize ((Nat.le_add_right _ _).trans hindex)

/-- The token without its place. -/
def tokenOf (t : Scanned) : Token := { type := t.type, lexeme := t.lexeme, literal := t.literal.getD [] }

/-- A token that is not an error. -/
def isProper (token : Scanned) : Bool := token.type ≠ .error

theorem scanned_verbose (s : Stride) (line current : Nat) : s.scanned true line current = (s.scanned false line current).filter isProper := by
  rw [Stride.scanned, Stride.scanned]
  cases s.token with
  | none => rfl
  | some token =>
    obtain ⟨type, literal, lexeme⟩ := token
    by_cases herror : type = .error
    · simp [herror, isProper, Option.filter]
    · simp [herror, isProper, Option.filter]

theorem scanFrom_verbose (rounds line current : Nat) (rest : Chars) :
    scanFrom true rounds line current rest =
      { scanFrom false rounds line current rest with values := (scanFrom false rounds line current rest).values.filter isProper } := by
  induction rounds generalizing line current rest with
  | zero => rfl
  | succ rounds ih =>
    cases rest with
    | nil => rfl
    | cons c rest =>
      have htoken : ∀ token : Option Scanned, (token.filter isProper).toList = token.toList.filter isProper := by
        rintro (_ | token)
        · rfl
        · by_cases hproper : isProper token = true
          · simp [hproper]
          · simp [hproper]
      rw [scanFrom, scanFrom]
      simp only [ih, scanned_verbose, List.filter_append, htoken]

/-- The tree walker gets the tokens of the virtual machine without the errors. -/
theorem toknzr_verbose (code : Source) : toknzr code true =
    (toknzr code false).map fun tokens => { tokens with values := tokens.values.filter isProper } := by
  rw [toknzr_eq, toknzr_eq]
  by_cases hfits : code.Fits
  · rw [if_pos hfits, if_pos hfits, scanFrom_verbose]
    rfl
  · rw [if_neg hfits, if_neg hfits]
    rfl

/-! ### The end of the list -/

/-- The last token, and only it, is the end of the file. -/
def EndsOnce (tokens : List Scanned) : Prop :=
  ∃ before last, tokens = before ++ [last] ∧ last.type = .endOfFile ∧ ∀ token ∈ before, token.type ≠ .endOfFile

theorem scanned_ne {token : Scanned} (h : (stride c rest).scanned verbose line current = some token) : token.type ≠ .endOfFile := by
  rw [Stride.scanned] at h
  cases htoken : (stride c rest).token with
  | none =>
    rw [htoken] at h
    cases h
  | some parts =>
    have hstep : (toknzrStep c rest).1 = some (forget parts) := by rw [toknzrStep_eq, htoken]; rfl
    rw [htoken] at h
    obtain ⟨type, literal, lexeme⟩ := parts
    change (if _ then none else _) = _ at h
    split at h
    · cases h
    · cases h
      exact toknzrStep_ne hstep

/-- The end of the file comes last, on the line and at the index where the survey ends. -/
theorem scanFrom_last (verbose : Bool) (line current : Nat) (hrounds : rest.length < rounds) : ∃ before, (∀ token ∈ before, token.type ≠ .endOfFile) ∧
    (scanFrom verbose rounds line current rest).values = before ++
      [endOfFile (line + (Mode.plain.survey rest).lines) (current + rest.length + (Mode.plain.survey rest).openEnd)] := by
  induction rounds generalizing line current rest with
  | zero => exact absurd hrounds (Nat.not_lt_zero _)
  | succ rounds ih =>
    cases rest with
    | nil => exact ⟨[], nofun, rfl⟩
    | cons c rest =>
      have hpos := stride_pos c rest
      have hdrop : (rest.drop ((stride c rest).chars - 1)).length = rest.length - ((stride c rest).chars - 1) := List.length_drop
      rw [List.length_cons] at hrounds
      obtain ⟨before, hbefore, heq⟩ := @ih (rest.drop ((stride c rest).chars - 1)) (line + (stride c rest).lines)
        (current + (stride c rest).chars) (by omega)
      refine ⟨((stride c rest).scanned verbose line current).toList ++ before, fun token htoken => ?_, ?_⟩
      · rcases List.mem_append.mp htoken with hfirst | hlater
        · exact scanned_ne (Option.mem_toList.mp hfirst)
        · exact hbefore token hlater
      rw [scanFrom, List.append_assoc]
      simp only [heq]
      obtain ⟨skipped, hchars, hsurvey⟩ | ⟨hchars, -, hsurvey⟩ := surveyed c rest
      · rw [hsurvey]
        simp only [survey_add, Nat.zero_add, List.length_cons]
        congr 4 <;> omega
      · have hnil : rest.drop ((stride c rest).chars - 1) = [] := List.drop_eq_nil_of_le (by omega)
        rw [hsurvey, hnil]
        simp only [Mode.survey, List.length_cons, List.length_nil]
        congr 4
        simp
        omega

theorem endsOnce_scanFrom (hrounds : rest.length < rounds) : EndsOnce (scanFrom verbose rounds line current rest).values := by
  obtain ⟨before, hbefore, heq⟩ := scanFrom_last verbose line current hrounds
  exact ⟨before, _, heq, rfl, hbefore⟩

/-- The scanner returns a list that ends with the end of the file, exactly if its numbers fit. -/
theorem toknzr_endsOnce_iff (code : Source) (verbose : Bool) :
    (∃ tokens, toknzr code verbose = some tokens ∧ EndsOnce tokens.values) ↔ code.Fits := by
  rw [toknzr_eq]
  constructor
  · rintro ⟨tokens, heq, -⟩
    by_contra hfits
    rw [if_neg hfits] at heq
    cases heq
  · intro hfits
    rw [if_pos hfits]
    exact ⟨_, rfl, endsOnce_scanFrom (Nat.lt_succ_self _)⟩

/-- So many spaces that an `int` does not count them. -/
def spaces : Source := ⟨List.replicate (intMax + 1) (ascii ' '), by simp [List.mem_replicate, ascii]⟩

/-- The index overflows on the way to the end. -/
theorem toknzr_overflows : ¬ ∃ tokens, toknzr spaces false = some tokens ∧ EndsOnce tokens.values := by
  rintro ⟨tokens, heq, -⟩
  rw [toknzr, loop_none (by rw [Source.length, spaces, List.length_replicate]; exact Nat.lt_succ_self _) (Nat.zero_le _)] at heq
  cases heq

/-! ### Lines -/

/-- The number of the line that a character is on. -/
def lineAt (code : Source) (i : Nat) : Nat := 1 + (code.chars.take i).count (ascii '\n')

/-- No line ends inside of a word. -/
theorem count_inside (text : Chars) {behind : Chars} (hsplit : text ++ behind = c :: rest) (hquiet : ∀ c ∈ text, Quiet c) :
    ((c :: rest).take (text.length - 1)).count (ascii '\n') = 0 := by
  refine count_quiet fun c hc => hquiet c ?_
  rw [← hsplit, List.take_append_of_le_length (Nat.sub_le _ _)] at hc
  exact List.mem_of_mem_take hc

/-- The lines that a round counts end before the last character of its token. -/
theorem stride_lines (htoken : (stride c rest).token ≠ none) :
    ((c :: rest).take ((stride c rest).chars - 1)).count (ascii '\n') = (stride c rest).lines := by
  rw [stride] at htoken ⊢
  cases hsimple : simpleToken c with
  | some type => rfl
  | none =>
    cases hequal : equalToken c with
    | some types =>
      simp only
      split
      · exact count_quiet (a := [c]) (by simpa using quiet_equalToken hequal)
      · rfl
    | none =>
      rw [hsimple, hequal] at htoken
      simp only at htoken ⊢
      by_cases hslash : c = ascii '/'
      · rw [if_pos hslash, Stride.slash] at htoken ⊢
        split
        case isTrue hhead =>
          rw [if_pos hhead] at htoken
          exact absurd rfl htoken
        case isFalse => rfl
      rw [if_neg hslash] at htoken ⊢
      by_cases hquote : c = ascii '"'
      · have htake : rest.take (rest.takeWhile (· ≠ ascii '"')).length = rest.takeWhile (· ≠ ascii '"') :=
          List.prefix_iff_eq_take.mp (List.takeWhile_prefix _) |>.symm
        rw [if_pos hquote, Stride.quote, hquote]
        split
        all_goals
          change (ascii '"' :: rest.take _).count _ = _
          rw [htake, count_lines]
          exact Nat.zero_add _
      rw [if_neg hquote] at htoken ⊢
      split_ifs with hspace hdigit halpha
      · rw [if_pos hspace] at htoken
        exact absurd rfl htoken
      · exact count_inside _ (readNumber_append _) quiet_readNumber
      · exact count_inside (Clox.readOther (c :: rest)).1 List.takeWhile_append_dropWhile quiet_readOther
      · rfl

/-- Where no comment ends a line a round counts all lines that end in it. -/
theorem stride_newlines (hcomments : (Mode.plain.survey (c :: rest)).commentLines = 0) :
    ((c :: rest).take (stride c rest).chars).count (ascii '\n') = (stride c rest).lines ∧
      (Mode.plain.survey (rest.drop ((stride c rest).chars - 1))).commentLines = 0 := by
  have hall := survey_lines .plain (c :: rest)
  have hsplit := congrArg (List.count (ascii '\n')) (List.take_append_drop (stride c rest).chars (c :: rest))
  rw [List.count_append, drop_cons (stride_pos c rest)] at hsplit
  have hleft := survey_lines .plain (rest.drop ((stride c rest).chars - 1))
  obtain ⟨skipped, hchars, heq⟩ | ⟨hchars, -, heq⟩ := surveyed c rest
  · rw [heq] at hall hcomments
    simp only [survey_add] at hall hcomments
    omega
  · have hnil : rest.drop ((stride c rest).chars - 1) = [] := List.drop_eq_nil_of_le (by omega)
    rw [hnil] at hsplit ⊢
    rw [heq] at hall
    simp only [List.count_nil, Nat.add_zero] at hall hsplit
    exact ⟨hsplit.trans hall.symm, rfl⟩

theorem lineAt_add {before : Chars} (hcode : code.chars = before ++ rest) (n : Nat) :
    lineAt code (before.length + n) = lineAt code before.length + (rest.take n).count (ascii '\n') := by
  rw [lineAt, lineAt, hcode, List.take_length_add_append, List.take_left, List.count_append, Nat.add_assoc]

theorem lineAt_of_ge {i : Nat} (h : code.length ≤ i) : lineAt code i = 1 + code.chars.count (ascii '\n') := by
  rw [lineAt, List.take_of_length_le h]

theorem scanFrom_lines (h : Stands code current rest) (hline : line = lineAt code current)
    (hcomments : (Mode.plain.survey rest).commentLines = 0) :
    ∀ token ∈ (scanFrom verbose rounds line current rest).values, token.line = lineAt code token.column := by
  induction rounds generalizing line current rest with
  | zero =>
    intro token htoken
    obtain rfl := List.mem_singleton.mp htoken
    exact hline
  | succ rounds ih =>
    cases rest with
    | nil =>
      intro token htoken
      obtain rfl := List.mem_singleton.mp htoken
      exact hline
    | cons c rest =>
      have hat := h.resolve_right fun hnil => nomatch hnil.1
      obtain ⟨before, hcode, rfl⟩ := hat.exists_before
      obtain ⟨hnewlines, hcomments'⟩ := stride_newlines hcomments
      intro token htoken
      rw [scanFrom] at htoken
      rcases List.mem_append.mp htoken with hfirst | hlater
      · have hscanned := Option.mem_toList.mp hfirst
        have hpos := stride_pos c rest
        rw [Stride.scanned] at hscanned
        cases hparts : (stride c rest).token with
        | none =>
          rw [hparts] at hscanned
          cases hscanned
        | some parts =>
          have hsome : (stride c rest).token ≠ none := hparts ▸ Option.some_ne_none _
          rw [hparts] at hscanned
          obtain ⟨type, literal, lexeme⟩ := parts
          change (if _ then none else _) = _ at hscanned
          split at hscanned
          · cases hscanned
          · cases hscanned
            change line + _ = lineAt code (before.length + (stride c rest).chars - 1)
            rw [Nat.add_sub_assoc hpos, lineAt_add hcode, stride_lines hsome, hline]
      · refine ih (.next hat) ?_ hcomments' token hlater
        rw [lineAt_add hcode, hnewlines, hline]

/-- The lines of the tokens are right exactly if the numbers fit and no comment ends a line. -/
theorem toknzr_lines_iff (code : Source) (verbose : Bool) :
    (∃ tokens, toknzr code verbose = some tokens ∧ ∀ token ∈ tokens.values, token.line = lineAt code token.column) ↔
      code.Fits ∧ code.survey.commentLines = 0 := by
  rw [toknzr_eq]
  constructor
  · rintro ⟨tokens, heq, hlines⟩
    by_cases hfits : code.Fits
    case neg =>
      rw [if_neg hfits] at heq
      cases heq
    rw [if_pos hfits] at heq
    cases heq
    refine ⟨hfits, ?_⟩
    -- the end of the file is behind all lines
    obtain ⟨before, -, hlast⟩ := scanFrom_last verbose 1 0 (Nat.lt_succ_self code.length)
    have hline := hlines _ (hlast ▸ List.mem_append_right before List.mem_cons_self)
    change 1 + (Mode.plain.survey code.chars).lines = lineAt code (0 + code.length + _) at hline
    rw [lineAt_of_ge (by omega)] at hline
    have hall := survey_lines .plain code.chars
    rw [Source.survey]
    omega
  · rintro ⟨hfits, hcomments⟩
    rw [if_pos hfits]
    exact ⟨_, rfl, scanFrom_lines (.inl (at_zero code)) rfl hcomments⟩

/-- A comment and its end. -/
def commentLine : Source := ⟨[ascii '/', ascii '/', ascii '\n'], by decide⟩

/-- The end of the file is on line 2, and its token says 1. -/
theorem toknzr_miscounts : ¬ ∃ tokens, toknzr commentLine false = some tokens ∧
    ∀ token ∈ tokens.values, token.line = lineAt commentLine token.column := by
  have hrun : toknzr commentLine false = some ⟨[endOfFile 1 3], 1⟩ := by decide
  rw [hrun]
  rintro ⟨tokens, heq, hlines⟩
  cases heq
  exact absurd (hlines _ List.mem_cons_self) (by decide)

end Scan

end Reading.Clox
