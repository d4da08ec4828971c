import Reading.Clox.Compiler

/-!
# The tokens of a source

`toknzr` of `tokenizer.c`, as `compile` calls it. The source has no byte 0. The lines and columns of the tokens are left out, and so are the `int`s of the scanner, which `Scan` has. Of a name only letters are read: the macro that should also accept digits and `_` tests a truth value. The list of the tokens always ends with the end of the file.
-/

namespace Reading.Clox

def ascii (c : Char) : UInt8 := UInt8.ofNat c.toNat

def isdigit (c : UInt8) : Bool := ascii '0' ≤ c ∧ c ≤ ascii '9'

def isalpha (c : UInt8) : Bool := (ascii 'a' ≤ c ∧ c ≤ ascii 'z') ∨ (ascii 'A' ≤ c ∧ c ≤ ascii 'Z')

/-- The characters that are a token on their own. -/
def simpleToken (c : UInt8) : Option TokenType :=
  [(ascii '(', TokenType.leftParen), (ascii ')', .rightParen), (ascii '\x7b', .leftBrace), (ascii '\x7d', .rightBrace),
    (ascii ',', .comma), (ascii '.', .dot), (ascii '-', .minus), (ascii '+', .plus), (ascii ';', .semicolon),
    (ascii '*', .star)].lookup c

/-- The characters that make another token with `=` behind them, with both types. -/
def equalToken (c : UInt8) : Option (TokenType × TokenType) :=
  [(ascii '!', TokenType.bangEqual, TokenType.bang), (ascii '=', .equalEqual, .equal), (ascii '>', .greaterEqual, .greater),
    (ascii '<', .lessEqual, .less)].lookup c

def isSpace (c : UInt8) : Bool := c ∈ [ascii ' ', ascii '\r', ascii '\t', ascii '\n']

def readNumber (code : Chars) : Chars × Chars :=
  let whole := code.takeWhile isdigit
  match code.dropWhile isdigit with
  | point :: digit :: rest =>
    if point = ascii '.' ∧ isdigit digit then
      (whole ++ point :: (digit :: rest).takeWhile isdigit, (digit :: rest).dropWhile isdigit)
    else (whole, point :: digit :: rest)
  | rest => (whole, rest)

def readOther (code : Chars) : Chars × Chars := (code.takeWhile isalpha, code.dropWhile isalpha)

def keywords : List (List Char × TokenType) :=
  [(['a', 'n', 'd'], .andKey), (['c', 'l', 'a', 's', 's'], .classKey), (['e', 'l', 's', 'e'], .elseKey),
    (['f', 'a', 'l', 's', 'e'], .falseKey), (['f', 'u', 'n'], .funKey), (['f', 'o', 'r'], .forKey), (['i', 'f'], .ifKey),
    (['n', 'i', 'l'], .nilKey), (['o', 'r'], .orKey), (['p', 'r', 'i', 'n', 't'], .printKey),
    (['r', 'e', 't', 'u', 'r', 'n'], .returnKey), (['s', 'u', 'p', 'e', 'r'], .superKey), (['t', 'h', 'i', 's'], .thisKey),
    (['t', 'r', 'u', 'e'], .trueKey), (['v', 'a', 'r'], .varKey), (['w', 'h', 'i', 'l', 'e'], .whileKey)]

/-- The type of the token for a word. -/
def wordType (word : Chars) : TokenType :=
  ((keywords.map fun entry => (entry.1.map ascii, entry.2)).lookup word).getD .identifier

def errorToken (message : String) : Token := { type := .error, lexeme := message.toList.map ascii }

def endToken : Token := { type := .endOfFile, lexeme := ['E', 'O', 'F'].map ascii }

/-- A string, from behind its first quote. -/
def readString (code : Chars) : Token × Chars :=
  let literal := code.takeWhile (· ≠ ascii '"')
  match code.dropWhile (· ≠ ascii '"') with
  | [] => (errorToken "Unterminated string.", [])
  | _ :: rest => ({ type := .string, lexeme := literal, literal := literal }, rest)

/-- One round of the loop at the character `c`: the token that is pushed, if there is one, and what is left of the source. -/
def toknzrStep (c : UInt8) (code : Chars) : Option Token × Chars :=
  match simpleToken c, equalToken c with
  | some type, _ => (some { type := type, lexeme := [c] }, code)
  | none, some (two, one) =>
    if code.head? = some (ascii '=') then (some { type := two, lexeme := [c] }, code.tail)
    else (some { type := one, lexeme := [c] }, code)
  | none, none =>
    if c = ascii '/' then
      if code.head? = some (ascii '/') then (none, (code.tail.dropWhile (· ≠ ascii '\n')).tail)
      else (some { type := .slash, lexeme := [c] }, code)
    else if c = ascii '"' then
      let (token, rest) := readString code
      (some token, rest)
    else if isSpace c then (none, code)
    else if isdigit c then
      let (literal, rest) := readNumber (c :: code)
      (some { type := .number, lexeme := literal, literal := literal }, rest)
    else if isalpha c then
      let (word, rest) := readOther (c :: code)
      (some { type := wordType word, lexeme := word }, rest)
    else (some (errorToken "Unexpected character."), code)

/-- The loop, for at most so many rounds. -/
def toknzrLoop : Nat → Chars → List Token
  | 0, _ => [endToken]
  | _, [] => [endToken]
  | rounds + 1, c :: code => (toknzrStep c code).1.toList ++ toknzrLoop rounds (toknzrStep c code).2

/-- A round reads at least one character. -/
def toknzr (code : Chars) : List Token := toknzrLoop code.length code

/-! ### The end of the list -/

/-- The last token, and only it, is the end of the file. -/
def Terminated : List Token → Prop
  | [] => False
  | [token] => token.type = .endOfFile
  | token :: tokens => token.type ≠ .endOfFile ∧ Terminated tokens

instance decidableTerminated : ∀ tokens : List Token, Decidable (Terminated tokens)
  | [] => isFalse id
  | [token] => inferInstanceAs (Decidable (token.type = .endOfFile))
  | token :: next :: tokens =>
    have : Decidable (Terminated (next :: tokens)) := decidableTerminated (next :: tokens)
    inferInstanceAs (Decidable (token.type ≠ .endOfFile ∧ Terminated (next :: tokens)))

theorem terminated_cons {token : Token} {tokens : List Token} (h : Terminated (token :: tokens)) (hne : token.type ≠ .endOfFile) :
    Terminated tokens := by
  cases tokens with
  | nil => exact absurd h hne
  | cons next tokens => exact h.2

theorem terminated_cons_iff {token : Token} {tokens : List Token} (h : Terminated tokens) :
    Terminated (token :: tokens) ↔ token.type ≠ .endOfFile := by
  cases tokens with
  | nil => exact h.elim
  | cons next tokens => exact and_iff_left h

theorem length_dropWhile_le (p : UInt8 → Bool) (code : Chars) : (code.dropWhile p).length ≤ code.length :=
  (List.dropWhile_suffix p).length_le

theorem readNumber_length {c : UInt8} (hdigit : isdigit c = true) (code : Chars) : (readNumber (c :: code)).2.length ≤ code.length := by
  have hfirst : (List.dropWhile isdigit (c :: code)).length ≤ code.length := by
    rw [List.dropWhile_cons_of_pos hdigit]
    exact length_dropWhile_le isdigit code
  rw [readNumber]
  split
  · rename_i point digit rest hdrop
    rw [hdrop] at hfirst
    split
    · have := length_dropWhile_le isdigit (digit :: rest)
      simp only [List.length_cons] at this hfirst
      exact this.trans (by omega)
    · exact hfirst
  · exact hfirst

theorem readOther_length {c : UInt8} (halpha : isalpha c = true) (code : Chars) : (readOther (c :: code)).2.length ≤ code.length := by
  rw [readOther, List.dropWhile_cons_of_pos halpha]
  exact length_dropWhile_le isalpha code

theorem readString_length (code : Chars) : (readString code).2.length ≤ code.length := by
  have hdrop := length_dropWhile_le (· ≠ ascii '"') code
  rw [readString]
  split
  · exact Nat.zero_le _
  · rename_i hrest
    rw [hrest] at hdrop
    exact (Nat.le_succ _).trans hdrop

/-- The character that is looked at is read in any case. -/
theorem toknzrStep_length (c : UInt8) (code : Chars) : (toknzrStep c code).2.length ≤ code.length := by
  rw [toknzrStep]
  split
  · exact Nat.le_refl _
  · split
    · exact (List.tail_suffix code).length_le
    · exact Nat.le_refl _
  · split_ifs with hslash hcomment hquote hspace hdigit halpha
    · have htail := (List.tail_suffix (code.tail.dropWhile (· ≠ ascii '\n'))).length_le
      exact htail.trans ((length_dropWhile_le _ _).trans (List.tail_suffix code).length_le)
    · exact Nat.le_refl _
    · exact readString_length code
    · exact Nat.le_refl _
    · exact readNumber_length hdigit code
    · exact readOther_length halpha code
    · exact Nat.le_refl _

/-- The bound on the rounds is not reached. -/
theorem toknzrLoop_rounds {rounds more : Nat} {code : Chars} (hrounds : code.length ≤ rounds) (hmore : code.length ≤ more) :
    toknzrLoop rounds code = toknzrLoop more code := by
  induction rounds generalizing more code with
  | zero =>
    rw [List.length_eq_zero_iff.mp (Nat.le_zero.mp hrounds)]
    cases more <;> rfl
  | succ rounds ih =>
    cases code with
    | nil => cases more <;> rfl
    | cons c code =>
      have hstep := toknzrStep_length c code
      cases more with
      | zero => simp at hmore
      | succ more =>
        rw [toknzrLoop, toknzrLoop]
        rw [ih (hstep.trans (Nat.le_of_succ_le_succ hrounds)) (hstep.trans (Nat.le_of_succ_le_succ hmore))]

theorem lookup_of_all {α β : Type} [BEq α] [LawfulBEq α] {p : β → Prop} {entries : List (α × β)}
    (hall : ∀ entry ∈ entries, p entry.2) {key : α} {value : β} (h : entries.lookup key = some value) : p value := by
  obtain ⟨before, behind, heq, -⟩ := List.lookup_eq_some_iff.mp h
  refine hall (key, value) ?_
  rw [heq]
  simp

theorem simpleToken_ne {c : UInt8} {type : TokenType} (h : simpleToken c = some type) : type ≠ .endOfFile :=
  lookup_of_all (p := (· ≠ TokenType.endOfFile)) (by decide) h

theorem equalToken_ne {c : UInt8} {types : TokenType × TokenType} (h : equalToken c = some types) :
    types.1 ≠ .endOfFile ∧ types.2 ≠ .endOfFile :=
  lookup_of_all (p := fun types : TokenType × TokenType => types.1 ≠ .endOfFile ∧ types.2 ≠ .endOfFile) (by decide) h

theorem wordType_ne (word : Chars) : wordType word ≠ .endOfFile := by
  rw [wordType]
  cases h : (keywords.map fun entry => (entry.1.map ascii, entry.2)).lookup word with
  | none => simp
  | some type => exact lookup_of_all (p := (· ≠ TokenType.endOfFile)) (by decide) h

theorem readString_ne (code : Chars) : (readString code).1.type ≠ .endOfFile := by
  rw [readString]
  split <;> simp [errorToken]

theorem toknzrStep_ne {c : UInt8} {code : Chars} {token : Token} (h : (toknzrStep c code).1 = some token) : token.type ≠ .endOfFile := by
  rw [toknzrStep] at h
  split at h
  · rename_i type hsimple
    cases h
    exact simpleToken_ne hsimple
  · rename_i two one hsimple hequal
    split at h
    · cases h
      exact (equalToken_ne hequal).1
    · cases h
      exact (equalToken_ne hequal).2
  · split_ifs at h
    · cases h
      simp
    · cases h
      exact readString_ne code
    · cases h
      simp
    · cases h
      exact wordType_ne _
    · cases h
      simp [errorToken]

theorem terminated_toknzrLoop (rounds : Nat) (code : Chars) : Terminated (toknzrLoop rounds code) := by
  induction rounds generalizing code with
  | zero => exact rfl
  | succ rounds ih =>
    cases code with
    | nil => exact rfl
    | cons c code =>
      rw [toknzrLoop]
      cases hstep : (toknzrStep c code).1 with
      | none => exact ih _
      | some token => exact (terminated_cons_iff (ih _)).mpr (toknzrStep_ne hstep)

/-- Whatever the source is. -/
theorem terminated_toknzr (code : Chars) : Terminated (toknzr code) := terminated_toknzrLoop _ _

example : (toknzr [ascii ')', ascii ' ', ascii '1']).map Token.type = [.rightParen, .number, .endOfFile] := by decide

end Reading.Clox
