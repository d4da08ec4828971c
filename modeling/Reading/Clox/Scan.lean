import Reading.Clox.Tokenizer

/-!
# The scanner with its cursor

`toknzr` of `tokenizer.c` once more, now with the index it reads at and the line it counts. The index is an `int` that is compared with a `size_t`, and so both can leave the range of an `int`. A read behind the byte that ends the source, or an `int` that grows past its largest value, gives no result. `stride` says in the words of the source's characters what one round of the loop does.
-/

namespace Reading.Clox

/-- A string of C without the byte 0 at its end. -/
structure Source where
  chars : Chars
  terminated : 0 ∉ chars

structure Scanned where
  type : TokenType
  /-- `none` is `NULL`. -/
  literal : Option Chars
  lexeme : Chars
  line : Nat
  /-- The index of the last character. -/
  column : Nat
deriving DecidableEq

structure Tokenization where
  values : List Scanned
  lines : Nat
deriving DecidableEq

namespace Source

def length (code : Source) : Nat := code.chars.length

/-- `code[i]`, up to the byte at the end. -/
def read (code : Source) (i : Nat) : Option UInt8 := (code.chars ++ [0])[i]?

/-- The string of a copy of so many bytes, the last of which is then set to 0. -/
def copy (code : Source) (start bytes : Nat) : Option Chars :=
  if start + bytes ≤ code.length + 1 then some ((code.chars.drop start).take (bytes - 1)) else none

end Source

namespace Scan

variable (code : Source) (verbose : Bool)

/-- An `int` plus one. -/
def incr (n : Nat) : Option Nat := if n < intMax then some (n + 1) else none

def matchNext (next : UInt8) (current : Nat) : Option (Bool × Nat) := do
  if code.length < current then return (false, current)
  let ahead ← incr current
  if (← code.read ahead) ≠ next then return (false, current)
  return (true, ahead)

/-- The loop `do (*current)++; while (!IS_AT_END(*current, codeLength) && …)`. -/
def skipWhile (p : UInt8 → Bool) : Nat → Nat → Option Nat
  | 0, _ => none
  | rounds + 1, current => do
    let current ← incr current
    if current < code.length then
      if p (← code.read current) then skipWhile p rounds current else some current
    else some current

/-- The literal, and the index of its last character. -/
def readWord (start current : Nat) : Option (Chars × Nat) := do
  let bytes ← incr (current - start)
  let literal ← code.copy start bytes
  return (literal, current - 1)

def readNumber (start : Nat) : Option (Chars × Nat) := do
  let current ← skipWhile code isdigit (code.length + 1) start
  let current ← (do
    if (← code.read current) = ascii '.' then
      if isdigit (← code.read (← incr current)) then skipWhile code isdigit (code.length + 1) current else some current
    else some current)
  readWord code start current

/-- `IS_ALPHA_NUMERIC`: the second `isdigit` is of a truth value, and no digit. -/
def isAlphaNumeric (c : UInt8) : Bool := isalpha c || isdigit (if c ≠ 0 ∨ c = ascii '_' then 1 else 0)

def readOther (start : Nat) : Option (Chars × Nat) := do
  readWord code start (← skipWhile code isAlphaNumeric (code.length + 1) start)

/-- The loop over a comment, which stops at the end by an equality. -/
def skipComment : Nat → Nat → Option Nat
  | 0, _ => none
  | rounds + 1, current => do
    let current ← incr current
    if current ≠ code.length then
      if (← code.read current) ≠ ascii '\n' then skipComment rounds current else some current
    else some current

/-- The loop over a string, with the line it is on. -/
def skipString : Nat → Nat → Nat → Option (Nat × Nat)
  | 0, _, _ => none
  | rounds + 1, line, current => do
    let line ← (do if (← code.read current) = ascii '\n' then incr line else some line)
    let current ← incr current
    if (← code.read current) ≠ ascii '"' ∧ current < code.length then skipString rounds line current else some (line, current)

def simple (type : TokenType) (line column : Nat) (lexeme : Chars) : Scanned := ⟨type, none, lexeme, line, column⟩

/-- An error is printed with the number of its column, or it is a token. -/
def failure (line column : Nat) (message : String) : Option (Option Scanned) :=
  if verbose then do
    let _ ← incr column
    return none
  else some (some (simple .error line column (message.toList.map ascii)))

def readString (line start : Nat) : Option (Option Scanned × Nat × Nat) := do
  let (line, current) ← skipString code (code.length + 1) line start
  if code.length ≤ current then
    let _ ← code.read current
    return (← failure verbose line current "Unterminated string.", line, current)
  else
    let literal ← code.copy (start + 1) (current - start)
    return (some ⟨.string, some literal, literal, line, current⟩, line, current)

/-- The `switch` of the loop: the token, the line and the index behind which the next round begins. -/
def step (line current : Nat) : Option (Option Scanned × Nat × Nat) := do
  let c ← code.read current
  match simpleToken c, equalToken c with
  | some type, _ => return (some (simple type line current [c]), line, current)
  | none, some (two, one) =>
    let (found, current) ← matchNext code (ascii '=') current
    return (some (simple (if found then two else one) line current [c]), line, current)
  | none, none =>
    if c = ascii '/' then
      let (found, current) ← matchNext code (ascii '/') current
      if found then return (none, line, ← skipComment code (code.length + 1) current)
      else return (some (simple .slash line current [c]), line, current)
    else if c = ascii '"' then readString code verbose line current
    else if c = ascii '\n' then return (none, ← incr line, current)
    else if isSpace c then return (none, line, current)
    else if isdigit c then
      let (literal, current) ← readNumber code current
      return (some ⟨.number, some literal, literal, line, current⟩, line, current)
    else if isalpha c then
      let (word, current) ← readOther code current
      return (some (simple (wordType word) line current word), line, current)
    else return (← failure verbose line current "Unexpected character.", line, current)

/-- A round of the loop. -/
def round (line current : Nat) : Option (Option Scanned × Nat × Nat) := do
  let (token, line, current) ← step code verbose line current
  return (token, line, ← incr current)

/-- The loop, for at most so many rounds. -/
def loop : Nat → Nat → Nat → Option Tokenization
  | 0, _, _ => none
  | rounds + 1, line, current =>
    if code.length ≤ current then some ⟨[simple .endOfFile line current (['E', 'O', 'F'].map ascii)], line⟩
    else do
      let (token, line, current) ← round code verbose line current
      let tokens ← loop rounds line current
      return { tokens with values := token.toList ++ tokens.values }

def toknzr : Option Tokenization := loop code verbose (code.length + 1) 1 0

end Scan

/-! ### Where the cursor stands -/

/-- The characters from an index on. -/
structure At (code : Source) (current : Nat) (rest : Chars) : Prop where
  exists_before : ∃ before, code.chars = before ++ rest ∧ before.length = current

section At

variable {code : Source} {current : Nat} {c : UInt8} {rest more : Chars}

theorem at_zero (code : Source) : At code 0 code.chars := ⟨[], rfl, rfl⟩

theorem At.length (h : At code current rest) : current + rest.length = code.length := by
  obtain ⟨before, heq, rfl⟩ := h.exists_before
  rw [Source.length, heq, List.length_append]

theorem At.read (h : At code current rest) (i : Nat) : code.read (current + i) = (rest ++ [0])[i]? := by
  obtain ⟨before, heq, rfl⟩ := h.exists_before
  rw [Source.read, heq, List.append_assoc, List.getElem?_append_right (Nat.le_add_right _ _), Nat.add_sub_cancel_left]

theorem At.read_cons (h : At code current (c :: rest)) : code.read current = some c := h.read 0

theorem At.read_nil (h : At code current []) : code.read current = some 0 := h.read 0

theorem At.append (h : At code current (more ++ rest)) : At code (current + more.length) rest := by
  obtain ⟨before, heq, rfl⟩ := h.exists_before
  exact ⟨before ++ more, by rw [heq, List.append_assoc], List.length_append⟩

theorem At.tail (h : At code current (c :: rest)) : At code (current + 1) rest := At.append (show At code current ([c] ++ rest) from h)

theorem At.copy (h : At code current (more ++ rest)) : code.copy current (more.length + 1) = some more := by
  have hlength := h.length
  obtain ⟨before, heq, rfl⟩ := h.exists_before
  rw [List.length_append] at hlength
  rw [Source.copy, if_pos (by omega), heq, List.drop_left, Nat.add_sub_cancel, List.take_left]

/-- The end is not reached before the last character. -/
theorem At.lt_iff (h : At code current rest) : current < code.length ↔ rest ≠ [] := by
  have hlength := h.length
  rw [← List.length_pos_iff]
  omega

end At

/-! ### The loops -/

namespace Scan

variable {code : Source} {current rounds line : Nat} {c : UInt8} {rest : Chars}

theorem incr_eq {n : Nat} (h : n < intMax) : incr n = some (n + 1) := if_pos h

/-! A source whose indices are all in the range of an `int` -/

section Fits

variable (hsize : code.length ≤ intMax)

include hsize

theorem At.incr_eq (h : At code current (c :: rest)) : incr current = some (current + 1) := by
  have hlt : current < code.length := h.lt_iff.mpr (List.cons_ne_nil _ _)
  exact Scan.incr_eq (hlt.trans_le hsize)

theorem skipWhile_eq (p : UInt8 → Bool) (h : At code current (c :: rest)) (hrounds : rest.length < rounds) :
    skipWhile code p rounds current = some (current + 1 + (rest.takeWhile p).length) := by
  induction rounds generalizing current c rest with
  | zero => exact absurd hrounds (Nat.not_lt_zero _)
  | succ rounds ih =>
    have htail := h.tail
    rw [skipWhile, At.incr_eq hsize h]
    change (if current + 1 < code.length then _ else _) = _
    cases rest with
    | nil =>
      rw [if_neg fun hlt => (htail.lt_iff.mp hlt) rfl]
      rfl
    | cons next rest =>
      rw [if_pos (htail.lt_iff.mpr (List.cons_ne_nil _ _)), htail.read_cons]
      change (if p next = true then _ else _) = _
      by_cases hnext : p next = true
      · rw [if_pos hnext, ih htail (Nat.lt_of_succ_lt_succ hrounds), List.takeWhile_cons_of_pos hnext, List.length_cons,
          Nat.add_right_comm]
        rfl
      · rw [if_neg hnext, List.takeWhile_cons_of_neg hnext]
        rfl

/-- The loop over a comment stops where one that asks for the order would. -/
theorem skipComment_eq (h : At code current (c :: rest)) (hrounds : rest.length < rounds) :
    skipComment code rounds current = some (current + 1 + (rest.takeWhile (· ≠ ascii '\n')).length) := by
  induction rounds generalizing current c rest with
  | zero => exact absurd hrounds (Nat.not_lt_zero _)
  | succ rounds ih =>
    have htail := h.tail
    have hlength := htail.length
    rw [skipComment, At.incr_eq hsize h]
    change (if current + 1 ≠ code.length then _ else _) = _
    cases rest with
    | nil =>
      have hend : current + 1 = code.length := hlength
      rw [if_neg (not_not.mpr hend)]
      rfl
    | cons next rest =>
      rw [List.length_cons] at hlength
      rw [if_pos (by omega), htail.read_cons]
      change (if next ≠ ascii '\n' then _ else _) = _
      by_cases hnext : next = ascii '\n'
      · rw [if_neg (not_not.mpr hnext), List.takeWhile_cons_of_neg (by simpa using hnext)]
        rfl
      · rw [if_pos hnext, ih htail (Nat.lt_of_succ_lt_succ hrounds), List.takeWhile_cons_of_pos (by simpa using hnext),
          List.length_cons, Nat.add_right_comm]
        rfl

/-- Whether a character ends a line. -/
def lineEnd (c : UInt8) : Nat := if c = ascii '\n' then 1 else 0

omit hsize in
theorem count_lines (c : UInt8) (rest : Chars) : (c :: rest).count (ascii '\n') = lineEnd c + rest.count (ascii '\n') := by
  rw [List.count_cons, lineEnd, Nat.add_comm]
  simp

/-- A string counts the lines that end in it. -/
theorem skipString_eq (h : At code current (c :: rest)) (hrounds : rest.length < rounds) (hline : line ≤ intMax) :
    skipString code rounds line current =
      if line + (c :: rest.takeWhile (· ≠ ascii '"')).count (ascii '\n') ≤ intMax then
        some (line + (c :: rest.takeWhile (· ≠ ascii '"')).count (ascii '\n'),
          current + 1 + (rest.takeWhile (· ≠ ascii '"')).length)
      else none := by
  induction rounds generalizing current c rest line with
  | zero => exact absurd hrounds (Nat.not_lt_zero _)
  | succ rounds ih =>
    have htail := h.tail
    have hfirst : (do if (← code.read current) = ascii '\n' then incr line else some line : Option Nat) =
        if line + lineEnd c ≤ intMax then some (line + lineEnd c) else none := by
      rw [h.read_cons, lineEnd]
      change (if c = ascii '\n' then incr line else some line) = _
      by_cases hc : c = ascii '\n'
      · rw [if_pos hc, if_pos hc]
        rfl
      · rw [if_neg hc, if_neg hc]
        exact (if_pos hline).symm
    rw [skipString, hfirst, count_lines]
    generalize lineEnd c = ended
    by_cases hlines : line + ended ≤ intMax
    case neg =>
      rw [if_neg hlines, if_neg (by omega)]
      rfl
    rw [if_pos hlines]
    change (incr current >>= _) = _
    rw [At.incr_eq hsize h]
    cases rest with
    | nil =>
      change (code.read (current + 1) >>= _) = _
      rw [htail.read_nil]
      change (if (0 : UInt8) ≠ ascii '"' ∧ current + 1 < code.length then _ else _) = _
      rw [if_neg fun hlt => (htail.lt_iff.mp hlt.2) rfl]
      exact (if_pos hlines).symm
    | cons next rest =>
      change (code.read (current + 1) >>= _) = _
      rw [htail.read_cons]
      change (if next ≠ ascii '"' ∧ current + 1 < code.length then _ else _) = _
      by_cases hnext : next = ascii '"'
      · rw [if_neg fun hne => hne.1 hnext, List.takeWhile_cons_of_neg (by simpa using hnext)]
        exact (if_pos hlines).symm
      · rw [if_pos ⟨hnext, htail.lt_iff.mpr (List.cons_ne_nil _ _)⟩, ih htail (Nat.lt_of_succ_lt_succ hrounds) hlines,
          List.takeWhile_cons_of_pos (by simpa using hnext), List.length_cons]
        simp only [Nat.add_assoc, Nat.add_comm 1]

omit hsize in
/-- The length of a word with the byte behind it is an `int`. -/
theorem readWord_eq {word rest : Chars} (h : At code current (word ++ rest)) :
    readWord code current (current + word.length) =
      if word.length < intMax then some (word, current + word.length - 1) else none := by
  rw [readWord, Nat.add_sub_cancel_left, incr]
  by_cases hfit : word.length < intMax
  · rw [if_pos hfit, if_pos hfit]
    change (code.copy current (word.length + 1) >>= _) = _
    rw [h.copy]
    rfl
  · rw [if_neg hfit, if_neg hfit]
    rfl

omit hsize in
theorem isAlphaNumeric_eq : isAlphaNumeric = isalpha := by
  funext c
  rw [isAlphaNumeric]
  split
  · exact Bool.or_false _
  · exact Bool.or_false _

omit hsize in
theorem readNumber_pos (hdigit : isdigit c = true) (rest : Chars) : 0 < (Clox.readNumber (c :: rest)).1.length := by
  rw [Clox.readNumber, List.takeWhile_cons_of_pos hdigit]
  split
  · split <;> exact Nat.succ_pos _
  · exact Nat.succ_pos _

omit hsize in
theorem readOther_pos (halpha : isalpha c = true) (rest : Chars) : 0 < (Clox.readOther (c :: rest)).1.length := by
  rw [Clox.readOther, List.takeWhile_cons_of_pos halpha]
  exact Nat.succ_pos _

theorem readOther_eq (h : At code current (c :: rest)) (halpha : isalpha c = true) :
    readOther code current =
      if (Clox.readOther (c :: rest)).1.length < intMax then
        some ((Clox.readOther (c :: rest)).1, current + (Clox.readOther (c :: rest)).1.length - 1)
      else none := by
  have hlength := h.length
  have hword : (Clox.readOther (c :: rest)).1 = c :: rest.takeWhile isalpha := List.takeWhile_cons_of_pos halpha
  rw [List.length_cons] at hlength
  rw [readOther, isAlphaNumeric_eq, skipWhile_eq hsize _ h (by omega), hword]
  have hat : At code current ((c :: rest.takeWhile isalpha) ++ rest.dropWhile isalpha) := by
    rw [List.cons_append, List.takeWhile_append_dropWhile]
    exact h
  rw [← readWord_eq hat, List.length_cons, Nat.add_right_comm]
  rfl

omit hsize in
/-- What is read of a number and what is left are the source. -/
theorem readNumber_append (chars : Chars) : (Clox.readNumber chars).1 ++ (Clox.readNumber chars).2 = chars := by
  rw [Clox.readNumber]
  split
  · rename_i point digit rest hdrop
    split
    · rw [List.append_assoc, List.cons_append, List.takeWhile_append_dropWhile, ← hdrop, List.takeWhile_append_dropWhile]
    · rw [← hdrop, List.takeWhile_append_dropWhile]
  · exact List.takeWhile_append_dropWhile

/-- The second loop runs if there is a point with a digit behind it. -/
theorem readFraction_eq (h : At code current (c :: rest)) (hdigit : isdigit c = true) :
    (do
      if (← code.read (current + 1 + (rest.takeWhile isdigit).length)) = ascii '.' then
        if isdigit (← code.read (← incr (current + 1 + (rest.takeWhile isdigit).length))) then
          skipWhile code isdigit (code.length + 1) (current + 1 + (rest.takeWhile isdigit).length)
        else some (current + 1 + (rest.takeWhile isdigit).length)
      else some (current + 1 + (rest.takeWhile isdigit).length)) =
      some (current + (Clox.readNumber (c :: rest)).1.length) := by
  have hat : At code current ((c :: rest.takeWhile isdigit) ++ rest.dropWhile isdigit) := by
    rw [List.cons_append, List.takeWhile_append_dropWhile]
    exact h
  have hend := hat.append
  rw [List.length_cons, ← Nat.add_assoc, Nat.add_right_comm] at hend
  have hwhole : (c :: rest).takeWhile isdigit = c :: rest.takeWhile isdigit := List.takeWhile_cons_of_pos hdigit
  rw [Clox.readNumber, List.dropWhile_cons_of_pos hdigit, hwhole]
  cases hrest : rest.dropWhile isdigit with
  | nil =>
    rw [hrest] at hend
    rw [hend.read_nil, List.length_cons, Nat.add_assoc, Nat.add_comm 1]
    rfl
  | cons point more =>
    rw [hrest] at hend
    rw [hend.read_cons]
    change (if point = ascii '.' then _ else _) = _
    by_cases hpoint : point = ascii '.'
    case neg =>
      rw [if_neg hpoint]
      cases more with
      | nil => rw [List.length_cons, Nat.add_assoc, Nat.add_comm 1]
      | cons digit more =>
        simp only [if_neg fun h : point = ascii '.' ∧ isdigit digit = true => hpoint h.1]
        rw [List.length_cons, Nat.add_assoc, Nat.add_comm 1]
    rw [if_pos hpoint, At.incr_eq hsize hend]
    change (code.read (current + 1 + _ + 1) >>= _) = _
    cases more with
    | nil =>
      rw [hend.tail.read_nil, List.length_cons, Nat.add_assoc current, Nat.add_comm 1]
      rfl
    | cons digit more =>
      rw [hend.tail.read_cons]
      change (if isdigit digit = true then _ else _) = _
      have hlength := hend.length
      rw [List.length_cons] at hlength
      by_cases hdigits : isdigit digit = true
      · rw [if_pos hdigits, skipWhile_eq hsize _ hend (by omega)]
        simp only [hpoint, hdigits, and_self, if_true, List.length_append, List.length_cons]
        congr 1
        omega
      · rw [if_neg hdigits]
        simp only [if_neg fun h : point = ascii '.' ∧ isdigit digit = true => hdigits h.2]
        rw [List.length_cons, Nat.add_assoc, Nat.add_comm 1]

theorem readNumber_eq (h : At code current (c :: rest)) (hdigit : isdigit c = true) :
    readNumber code current =
      if (Clox.readNumber (c :: rest)).1.length < intMax then
        some ((Clox.readNumber (c :: rest)).1, current + (Clox.readNumber (c :: rest)).1.length - 1)
      else none := by
  have hlength := h.length
  rw [List.length_cons] at hlength
  have hat : At code current ((Clox.readNumber (c :: rest)).1 ++ (Clox.readNumber (c :: rest)).2) := by
    rw [readNumber_append]
    exact h
  rw [← readWord_eq hat, readNumber, skipWhile_eq hsize _ h (by omega)]
  exact congrArg (· >>= readWord code current) (readFraction_eq hsize h hdigit)

end Fits

/-! ### Rounds -/

/-- What a round does with the characters that are left. -/
structure Stride where
  /-- The type, the literal and the lexeme of the token. -/
  token : Option (TokenType × Option Chars × Chars)
  /-- How far the index moves. -/
  chars : Nat
  lines : Nat
  /-- The length of the text is an `int` too. -/
  word : Bool

def Stride.simple (type : TokenType) (chars : Nat) (c : UInt8) : Stride := ⟨some (type, none, [c]), chars, 0, false⟩

/-- The index moves behind the character that ends a comment, also where the source ends instead. -/
def Stride.slash (rest : Chars) : Stride :=
  if rest.head? = some (ascii '/') then ⟨none, (rest.tail.takeWhile (· ≠ ascii '\n')).length + 3, 0, false⟩
  else .simple .slash 1 (ascii '/')

/-- So it does with the quote that ends a string. -/
def Stride.quote (rest : Chars) : Stride :=
  let literal := rest.takeWhile (· ≠ ascii '"')
  if literal = rest then
    ⟨some (.error, none, "Unterminated string.".toList.map ascii), literal.length + 2, literal.count (ascii '\n'), false⟩
  else ⟨some (.string, some literal, literal), literal.length + 2, literal.count (ascii '\n'), false⟩

def Stride.number (chars : Chars) : Stride :=
  let literal := (Clox.readNumber chars).1
  ⟨some (.number, some literal, literal), literal.length, 0, true⟩

def Stride.name (chars : Chars) : Stride :=
  let word := (Clox.readOther chars).1
  ⟨some (wordType word, none, word), word.length, 0, true⟩

def stride (c : UInt8) (rest : Chars) : Stride :=
  match simpleToken c, equalToken c with
  | some type, _ => .simple type 1 c
  | none, some (two, one) => if rest.head? = some (ascii '=') then .simple two 2 c else .simple one 1 c
  | none, none =>
    if c = ascii '/' then .slash rest
    else if c = ascii '"' then .quote rest
    else if isSpace c then ⟨none, 1, lineEnd c, false⟩
    else if isdigit c then .number (c :: rest)
    else if isalpha c then .name (c :: rest)
    else ⟨some (.error, none, "Unexpected character.".toList.map ascii), 1, 0, false⟩

/-- The token of a round, which is printed if it is an error and `verbose` is set. -/
def Stride.scanned (s : Stride) (verbose : Bool) (line current : Nat) : Option Scanned :=
  match s.token with
  | some (type, literal, lexeme) =>
    if verbose = true ∧ type = .error then none else some ⟨type, literal, lexeme, line + s.lines, current + s.chars - 1⟩
  | none => none

/-- The cursor and the numbers stay in the range of an `int`. -/
def Stride.Fits (s : Stride) (line current : Nat) : Prop :=
  current + s.chars ≤ intMax ∧ line + s.lines ≤ intMax ∧ (s.word = true → s.chars < intMax)

instance (s : Stride) (line current : Nat) : Decidable (s.Fits line current) := inferInstanceAs (Decidable (_ ∧ _))

variable {verbose : Bool}

/-- A round that ends in the range of an `int`, or where a line or a word leaves it. -/
theorem round_of_step {s : Stride} (hchars : 0 < s.chars)
    (hstep : step code verbose line current =
      if line + s.lines ≤ intMax ∧ (s.word = true → s.chars < intMax) then
        some (s.scanned verbose line current, line + s.lines, current + s.chars - 1)
      else none) :
    round code verbose line current =
      if s.Fits line current then some (s.scanned verbose line current, line + s.lines, current + s.chars) else none := by
  rw [round, hstep]
  by_cases hfits : line + s.lines ≤ intMax ∧ (s.word = true → s.chars < intMax)
  case neg =>
    have hnot : ¬ s.Fits line current := fun h => hfits h.2
    rw [if_neg hfits, if_neg hnot]
    rfl
  rw [if_pos hfits]
  change (incr (current + s.chars - 1) >>= _) = _
  rw [incr]
  by_cases hlast : current + s.chars - 1 < intMax
  · have hall : s.Fits line current := ⟨by omega, hfits⟩
    rw [if_pos hlast, if_pos hall]
    change some (_, _, current + s.chars - 1 + 1) = _
    rw [Nat.sub_add_cancel (by omega)]
  · have hnot : ¬ s.Fits line current := fun h => hlast (by have := h.1; omega)
    rw [if_neg hlast, if_neg hnot]
    rfl

theorem round_of_none (hstep : step code verbose line current = none) : round code verbose line current = none := by
  rw [round, hstep]
  rfl

theorem simpleToken_ne_error {type : TokenType} (h : simpleToken c = some type) : type ≠ .error :=
  lookup_of_all (p := (· ≠ TokenType.error)) (by decide) h

theorem equalToken_ne_error {types : TokenType × TokenType} (h : equalToken c = some types) :
    types.1 ≠ .error ∧ types.2 ≠ .error :=
  lookup_of_all (p := fun types : TokenType × TokenType => types.1 ≠ .error ∧ types.2 ≠ .error) (by decide) h

theorem wordType_ne_error (word : Chars) : wordType word ≠ .error := by
  rw [wordType]
  cases h : (keywords.map fun entry => (entry.1.map ascii, entry.2)).lookup word with
  | none => simp
  | some type => exact lookup_of_all (p := (· ≠ TokenType.error)) (by decide) h

theorem scanned_of_ne {type : TokenType} {literal : Option Chars} {lexeme : Chars} {chars lines : Nat} {word : Bool} (h : type ≠ .error) :
    Stride.scanned ⟨some (type, literal, lexeme), chars, lines, word⟩ verbose line current =
      some ⟨type, literal, lexeme, line + lines, current + chars - 1⟩ :=
  if_neg fun herror => h herror.2

theorem scanned_simple {type : TokenType} {chars : Nat} (h : type ≠ .error) :
    (Stride.simple type chars c).scanned verbose line current = some (simple type line (current + chars - 1) [c]) :=
  scanned_of_ne h

/-- The cases behind the ones of a single character. -/
theorem step_switch (verbose : Bool) (line : Nat) (hread : code.read current = some c) (hsimple : simpleToken c = none)
    (hequal : equalToken c = none) : step code verbose line current =
      if c = ascii '/' then do
        let (found, current) ← matchNext code (ascii '/') current
        if found then return (none, line, ← skipComment code (code.length + 1) current)
        else return (some (simple .slash line current [c]), line, current)
      else if c = ascii '"' then readString code verbose line current
      else if c = ascii '\n' then do return (none, ← incr line, current)
      else if isSpace c then some (none, line, current)
      else if isdigit c then do
        let (literal, current) ← readNumber code current
        return (some ⟨.number, some literal, literal, line, current⟩, line, current)
      else if isalpha c then do
        let (word, current) ← readOther code current
        return (some (simple (wordType word) line current word), line, current)
      else do return (← failure verbose line current "Unexpected character.", line, current) := by
  rw [step, hread]
  simp only [Option.bind_eq_bind, Option.bind_some, hsimple, hequal]
  rfl

section Round

variable (hsize : code.length ≤ intMax) (hline : line ≤ intMax) (h : At code current (c :: rest))

include hsize h

theorem matchNext_eq (next : UInt8) (hnext : next ≠ 0) :
    matchNext code next current = some (if rest.head? = some next then (true, current + 1) else (false, current)) := by
  have hlt : current < code.length := h.lt_iff.mpr (List.cons_ne_nil _ _)
  rw [matchNext, if_neg hlt.not_gt, At.incr_eq hsize h]
  change (code.read (current + 1) >>= fun c => if c ≠ next then some (false, current) else some (true, current + 1)) = _
  cases rest with
  | nil =>
    rw [h.tail.read_nil]
    exact if_pos hnext.symm
  | cons c' rest =>
    rw [h.tail.read_cons]
    change (if c' ≠ next then _ else _) = _
    by_cases hc : c' = next
    · subst hc
      rw [if_neg (not_not.mpr rfl), List.head?_cons, if_pos rfl]
    · rw [if_pos hc, List.head?_cons, if_neg fun heq => hc (Option.some.inj heq)]

include hline

theorem round_slash (hslash : c = ascii '/') (hstep : step code verbose line current = do
      let (found, current) ← matchNext code (ascii '/') current
      if found then return (none, line, ← skipComment code (code.length + 1) current)
      else return (some (simple .slash line current [c]), line, current)) :
    round code verbose line current =
      if (Stride.slash rest).Fits line current then
        some ((Stride.slash rest).scanned verbose line current, line + (Stride.slash rest).lines, current + (Stride.slash rest).chars)
      else none := by
  have hmatch := matchNext_eq hsize h (ascii '/') (by decide)
  rw [Stride.slash]
  by_cases hhead : rest.head? = some (ascii '/')
  · rw [if_pos hhead] at hmatch ⊢
    refine round_of_step (Nat.succ_pos _) ?_
    cases rest with
    | nil => exact nomatch hhead
    | cons second rest =>
      have htail := h.tail
      have hlength := htail.length
      rw [List.length_cons] at hlength
      rw [hstep, hmatch]
      change (skipComment code (code.length + 1) (current + 1) >>= fun current => some (none, line, current)) = _
      rw [skipComment_eq hsize htail (by omega)]
      have hlast : current + ((rest.takeWhile (· ≠ ascii '\n')).length + 3) - 1 =
          current + 1 + 1 + (rest.takeWhile (· ≠ ascii '\n')).length := by omega
      change _ = if line ≤ intMax ∧ _ then some (none, line, current + ((rest.takeWhile (· ≠ ascii '\n')).length + 3) - 1) else none
      rw [if_pos ⟨hline, nofun⟩, hlast]
      rfl
  · rw [if_neg hhead] at hmatch ⊢
    refine round_of_step Nat.one_pos ?_
    rw [hstep, hmatch, scanned_simple (by decide), hslash]
    exact (if_pos ⟨hline, nofun⟩).symm

theorem round_quote (hquote : c = ascii '"') (hstep : step code verbose line current = readString code verbose line current) :
    round code verbose line current =
      if (Stride.quote rest).Fits line current then
        some ((Stride.quote rest).scanned verbose line current, line + (Stride.quote rest).lines, current + (Stride.quote rest).chars)
      else none := by
  have hlength := h.length
  rw [List.length_cons] at hlength
  have hskip := skipString_eq hsize h (show rest.length < code.length + 1 by omega) hline
  rw [count_lines, hquote, show lineEnd (ascii '"') = 0 by decide, Nat.zero_add] at hskip
  rw [Stride.quote]
  set literal := rest.takeWhile (· ≠ ascii '"') with hliteral
  have hat : At code (current + 1) (literal ++ rest.dropWhile (· ≠ ascii '"')) := by
    rw [hliteral, List.takeWhile_append_dropWhile]
    exact h.tail
  have hsum := congrArg List.length (List.takeWhile_append_dropWhile (p := (· ≠ ascii '"')) (l := rest))
  rw [List.length_append, ← hliteral] at hsum
  rw [readString, hskip] at hstep
  by_cases hopen : literal = rest
  case neg =>
    -- the string is closed inside the source
    have hinside : ¬ code.length ≤ current + 1 + literal.length := by
      have hne : literal.length ≠ rest.length := fun heq => hopen ((List.takeWhile_prefix _).eq_of_length heq)
      omega
    have hbytes : current + 1 + literal.length - current = literal.length + 1 := by omega
    rw [if_neg hopen]
    refine round_of_step (Nat.succ_pos _) ?_
    rw [hstep, scanned_of_ne (by decide)]
    by_cases hlines : line + literal.count (ascii '\n') ≤ intMax
    · rw [if_pos hlines, if_pos ⟨hlines, nofun⟩]
      simp only [Option.bind_eq_bind, Option.bind_some, if_neg hinside, hbytes, hat.copy]
      rw [show current + (literal.length + 2) - 1 = current + 1 + literal.length by omega]
      rfl
    · rw [if_neg hlines, if_neg fun hfits => hlines hfits.1]
      rfl
  have hend : current + 1 + literal.length = code.length := by
    rw [hopen]
    omega
  have hzero : code.read code.length = some 0 := by
    have hnone : rest.dropWhile (· ≠ ascii '"') = [] := by
      rw [← List.length_eq_zero_iff]
      rw [hopen] at hsum
      omega
    have hnil := hat.append
    rw [hnone, hend] at hnil
    exact hnil.read_nil
  have hlast : current + (literal.length + 2) - 1 = code.length := by omega
  rw [if_pos hopen]
  rw [hend] at hstep
  by_cases hlines : line + literal.count (ascii '\n') ≤ intMax
  case neg =>
    rw [if_neg hlines] at hstep
    rw [round_of_none hstep]
    exact (if_neg fun hfits => hlines hfits.2.1).symm
  rw [if_pos hlines] at hstep
  simp only [Option.bind_eq_bind, Option.bind_some, if_pos (Nat.le_refl code.length), hzero] at hstep
  cases verbose with
  | false =>
    refine round_of_step (Nat.succ_pos _) ?_
    have hfits : line + literal.count (ascii '\n') ≤ intMax ∧ (false = true → literal.length + 2 < intMax) := ⟨hlines, nofun⟩
    refine hstep.trans (Eq.trans ?_ (if_pos hfits).symm)
    simp only [Stride.scanned, Bool.false_eq_true, false_and, if_false, hlast]
    rfl
  | true =>
    by_cases hlt : code.length < intMax
    · refine round_of_step (Nat.succ_pos _) ?_
      have hfits : line + literal.count (ascii '\n') ≤ intMax ∧ (false = true → literal.length + 2 < intMax) := ⟨hlines, nofun⟩
      rw [failure, if_pos rfl, incr_eq hlt] at hstep
      refine hstep.trans (Eq.trans ?_ (if_pos hfits).symm)
      simp only [Stride.scanned, true_and, if_true, hlast]
      rfl
    · -- the number of the column is not an `int`
      rw [failure, if_pos rfl, incr, if_neg hlt] at hstep
      rw [round_of_none hstep]
      refine (if_neg fun hfits => hlt ?_).symm
      have hall := hfits.1
      simp only at hall
      omega

omit hsize h in
/-- A round that reads a word. -/
theorem round_word {type : TokenType} {literal : Option Chars} {word : Chars} (hpos : 0 < word.length) (hne : type ≠ .error)
    (hstep : step code verbose line current =
      if word.length < intMax then some (some ⟨type, literal, word, line, current + word.length - 1⟩, line, current + word.length - 1)
      else none) :
    round code verbose line current =
      if Stride.Fits ⟨some (type, literal, word), word.length, 0, true⟩ line current then
        some (Stride.scanned ⟨some (type, literal, word), word.length, 0, true⟩ verbose line current, line + 0, current + word.length)
      else none := by
  refine round_of_step (s := ⟨some (type, literal, word), word.length, 0, true⟩) hpos ?_
  rw [hstep, scanned_of_ne hne]
  by_cases hfit : word.length < intMax
  · rw [if_pos hfit]
    exact (if_pos ⟨hline, fun _ => hfit⟩).symm
  · rw [if_neg hfit]
    exact (if_neg fun hfits => hfit (hfits.2 rfl)).symm

theorem round_eq :
    round code verbose line current =
      if (stride c rest).Fits line current then
        some ((stride c rest).scanned verbose line current, line + (stride c rest).lines, current + (stride c rest).chars)
      else none := by
  have hread := h.read_cons
  have hplain : line + 0 ≤ intMax ∧ (false = true → 1 < intMax) := ⟨hline, nofun⟩
  rw [stride]
  cases hsimple : simpleToken c with
  | some type =>
    refine round_of_step Nat.one_pos ?_
    rw [step, hread]
    simp only [Option.bind_eq_bind, Option.bind_some, hsimple]
    rw [scanned_simple (simpleToken_ne_error hsimple)]
    exact (if_pos ⟨hline, nofun⟩).symm
  | none =>
    cases hequal : equalToken c with
    | some types =>
      obtain ⟨hne, hne'⟩ := equalToken_ne_error hequal
      have hmatch := matchNext_eq hsize h (ascii '=') (by decide)
      by_cases hhead : rest.head? = some (ascii '=')
      · simp only [if_pos hhead] at hmatch ⊢
        refine round_of_step Nat.two_pos ?_
        rw [step, hread]
        simp only [Option.bind_eq_bind, Option.bind_some, hsimple, hequal, hmatch]
        rw [scanned_simple hne]
        exact (if_pos ⟨hline, nofun⟩).symm
      · simp only [if_neg hhead] at hmatch ⊢
        refine round_of_step Nat.one_pos ?_
        rw [step, hread]
        simp only [Option.bind_eq_bind, Option.bind_some, hsimple, hequal, hmatch]
        rw [scanned_simple hne']
        exact (if_pos ⟨hline, nofun⟩).symm
    | none =>
      have hswitch := step_switch verbose line hread hsimple hequal
      simp only
      by_cases hslash : c = ascii '/'
      · rw [if_pos hslash]
        exact round_slash hsize hline h hslash (by rw [hswitch, if_pos hslash])
      by_cases hquote : c = ascii '"'
      · rw [if_neg hslash, if_pos hquote]
        exact round_quote hsize hline h hquote (by rw [hswitch, if_neg hslash, if_pos hquote])
      rw [if_neg hslash, if_neg hquote]
      rw [if_neg hslash, if_neg hquote] at hswitch
      by_cases hspace : isSpace c = true
      · rw [if_pos hspace]
        refine round_of_step Nat.one_pos ?_
        rw [hswitch, lineEnd]
        by_cases hend : c = ascii '\n'
        · rw [if_pos hend, if_pos hend, incr]
          by_cases hlast : line < intMax
          · rw [if_pos hlast]
            exact (if_pos ⟨hlast, nofun⟩).symm
          · rw [if_neg hlast]
            exact (if_neg fun hfits => hlast hfits.1).symm
        · rw [if_neg hend, if_neg hend, if_pos hspace]
          exact (if_pos ⟨hline, nofun⟩).symm
      have hend : c ≠ ascii '\n' := by
        rintro rfl
        exact hspace (by decide)
      rw [if_neg hspace]
      rw [if_neg hend, if_neg hspace] at hswitch
      by_cases hdigit : isdigit c = true
      · rw [if_pos hdigit]
        refine round_word hline (readNumber_pos hdigit rest) (by decide) ?_
        rw [hswitch, if_pos hdigit, readNumber_eq hsize h hdigit]
        split <;> rfl
      by_cases halpha : isalpha c = true
      · rw [if_neg hdigit, if_pos halpha]
        refine round_word hline (readOther_pos halpha rest) (wordType_ne_error _) ?_
        rw [hswitch, if_neg hdigit, if_pos halpha, readOther_eq hsize h halpha]
        split <;> rfl
      · rw [if_neg hdigit, if_neg halpha]
        refine round_of_step Nat.one_pos ?_
        have hlt : current < intMax := (h.lt_iff.mpr (List.cons_ne_nil _ _)).trans_le hsize
        rw [hswitch, if_neg hdigit, if_neg halpha, failure, incr_eq hlt]
        cases verbose
        · exact (if_pos ⟨hline, nofun⟩).symm
        · exact (if_pos ⟨hline, nofun⟩).symm

end Round

/-! ### The tokens without their places -/

theorem drop_readNumber (chars : Chars) : chars.drop (Clox.readNumber chars).1.length = (Clox.readNumber chars).2 := by
  have hdrop : ((Clox.readNumber chars).1 ++ (Clox.readNumber chars).2).drop (Clox.readNumber chars).1.length = (Clox.readNumber chars).2 :=
    List.drop_left
  rwa [readNumber_append] at hdrop

theorem drop_takeWhile (p : UInt8 → Bool) (chars : Chars) : chars.drop (chars.takeWhile p).length = chars.dropWhile p := by
  have hdrop : (chars.takeWhile p ++ chars.dropWhile p).drop (chars.takeWhile p).length = chars.dropWhile p := List.drop_left
  rwa [List.takeWhile_append_dropWhile] at hdrop

def forget (token : TokenType × Option Chars × Chars) : Token :=
  { type := token.1, lexeme := token.2.2, literal := token.2.1.getD [] }

theorem drop_cons {n : Nat} (hn : 0 < n) : (c :: rest).drop n = rest.drop (n - 1) := by
  obtain ⟨m, rfl⟩ := Nat.exists_eq_succ_of_ne_zero hn.ne'
  rfl

theorem readString_stride (rest : Chars) : (some (Clox.readString rest).1, (Clox.readString rest).2) =
    ((Stride.quote rest).token.map forget, rest.drop ((Stride.quote rest).chars - 1)) := by
  have hsplit := List.takeWhile_append_dropWhile (p := (· ≠ ascii '"')) (l := rest)
  have hdrop := drop_takeWhile (· ≠ ascii '"') rest
  rw [Clox.readString, Stride.quote]
  cases hrest : rest.dropWhile (· ≠ ascii '"') with
  | nil =>
    rw [hrest, List.append_nil] at hsplit
    simp only [if_pos hsplit]
    refine Prod.ext rfl (List.drop_eq_nil_of_le ?_).symm
    rw [hsplit]
    exact Nat.le_succ _
  | cons quote more =>
    have hopen : rest.takeWhile (· ≠ ascii '"') ≠ rest := by
      intro hopen
      rw [hopen, hrest] at hsplit
      simp at hsplit
    simp only [if_neg hopen]
    refine Prod.ext rfl ?_
    change more = rest.drop ((rest.takeWhile (· ≠ ascii '"')).length + 1)
    rw [← List.drop_drop, hdrop, hrest]
    rfl

/-- A round of the loop without a cursor makes the same token and leaves the same characters. -/
theorem toknzrStep_eq (c : UInt8) (rest : Chars) :
    toknzrStep c rest = ((stride c rest).token.map forget, rest.drop ((stride c rest).chars - 1)) := by
  rw [toknzrStep, stride]
  cases simpleToken c with
  | some type => rfl
  | none =>
    cases equalToken c with
    | some types =>
      simp only
      by_cases hhead : rest.head? = some (ascii '=')
      · rw [if_pos hhead, if_pos hhead, ← List.drop_one]
        rfl
      · rw [if_neg hhead, if_neg hhead]
        rfl
    | none =>
      simp only
      by_cases hslash : c = ascii '/'
      · rw [if_pos hslash, if_pos hslash, Stride.slash]
        by_cases hhead : rest.head? = some (ascii '/')
        · rw [if_pos hhead, if_pos hhead, ← drop_takeWhile, ← List.drop_one, ← List.drop_one, List.drop_drop, List.drop_drop]
          refine Prod.ext rfl (congrArg rest.drop ?_)
          change 1 + _ + 1 = _ + 3 - 1
          omega
        · rw [if_neg hhead, if_neg hhead, hslash]
          rfl
      rw [if_neg hslash, if_neg hslash]
      by_cases hquote : c = ascii '"'
      · rw [if_pos hquote, if_pos hquote]
        exact readString_stride rest
      rw [if_neg hquote, if_neg hquote]
      by_cases hspace : isSpace c = true
      · rw [if_pos hspace, if_pos hspace]
        rfl
      rw [if_neg hspace, if_neg hspace]
      by_cases hdigit : isdigit c = true
      · rw [if_pos hdigit, if_pos hdigit]
        refine Prod.ext rfl ?_
        exact (drop_readNumber (c :: rest)).symm.trans (drop_cons (readNumber_pos hdigit rest))
      rw [if_neg hdigit, if_neg hdigit]
      by_cases halpha : isalpha c = true
      · rw [if_pos halpha, if_pos halpha]
        refine Prod.ext rfl ?_
        exact (drop_takeWhile isalpha (c :: rest)).symm.trans (drop_cons (readOther_pos halpha rest))
      · rw [if_neg halpha, if_neg halpha]
        rfl

end Scan

example : (Scan.toknzr ⟨[ascii '"', 10, ascii '"', ascii '1'], by decide⟩ false) =
    some ⟨[⟨.string, some [10], [10], 2, 2⟩, ⟨.number, some [ascii '1'], [ascii '1'], 2, 3⟩,
      ⟨.endOfFile, none, ['E', 'O', 'F'].map ascii, 2, 4⟩], 2⟩ := by decide

end Reading.Clox
