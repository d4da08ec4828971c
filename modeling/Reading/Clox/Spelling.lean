import Reading.Clox.Lines

/-!
# Tokens spelled out and read again

Lox tokens are spelled with a space between each two of them, and the scanner reads them back, unless a name has a digit or an underscore in it: the scanner ends a name at the first character that is no letter.
-/

namespace Reading.Clox

open Scan (stride scanFrom)

/-- The operators and the punctuation of Lox. -/
def operators : List (List Char × TokenType) :=
  [(['('], .leftParen), ([')'], .rightParen), (['\x7b'], .leftBrace), (['\x7d'], .rightBrace), ([','], .comma), (['.'], .dot),
    (['-'], .minus), (['+'], .plus), ([';'], .semicolon), (['/'], .slash), (['*'], .star), (['!'], .bang),
    (['!', '='], .bangEqual), (['='], .equal), (['=', '='], .equalEqual), (['>'], .greater), (['>', '='], .greaterEqual),
    (['<'], .less), (['<', '='], .lessEqual)]

/-- A character of a name behind its first one. -/
def isNameChar (c : UInt8) : Bool := isalpha c || isdigit c || c = ascii '_'

/-- A name of Lox, which is not a keyword. -/
structure Name where
  text : Chars
  letter : text.head?.any isalpha = true
  chars : ∀ c ∈ text, isNameChar c = true
  name : ∀ entry ∈ keywords, text ≠ entry.1.map ascii

structure Digits where
  text : Chars
  some : text ≠ []
  digits : ∀ c ∈ text, isdigit c = true

/-- The inside of a string literal. -/
structure Content where
  text : Chars
  chars : ∀ c ∈ text, c ≠ ascii '"' ∧ c ≠ 0

/-- A token of Lox. -/
inductive Lexeme where
  | operator (entry : { entry : List Char × TokenType // entry ∈ operators })
  | keyword (entry : { entry : List Char × TokenType // entry ∈ keywords })
  | number (whole : Digits) (fraction : Option Digits)
  | string (content : Content)
  | identifier (name : Name)

namespace Lexeme

def type : Lexeme → TokenType
  | operator entry => entry.1.2
  | keyword entry => entry.1.2
  | number _ _ => .number
  | string _ => .string
  | identifier _ => .identifier

def text : Lexeme → Chars
  | operator entry => entry.1.1.map ascii
  | keyword entry => entry.1.1.map ascii
  | number whole none => whole.text
  | number whole (some fraction) => whole.text ++ ascii '.' :: fraction.text
  | string content => ascii '"' :: content.text ++ [ascii '"']
  | identifier name => name.text

/-- What a token keeps of its text. -/
def Keeps (l : Lexeme) (literal : Option Chars) (lexeme : Chars) : Prop :=
  match l with
  | operator _ | keyword _ => True
  | number _ _ | identifier _ => lexeme = l.text
  | string content => literal = some content.text

/-- No character of a name but letters. -/
def Plain : Lexeme → Prop
  | identifier name => ∀ c ∈ name.text, isalpha c = true
  | _ => True

end Lexeme

/-- The tokens with a space between each two of them. -/
def spelled : List Lexeme → Chars
  | [] => []
  | [l] => l.text
  | l :: l' :: ls => l.text ++ ascii ' ' :: spelled (l' :: ls)

/-- The token of a lexeme. -/
def Lexeme.Reads (l : Lexeme) (token : Scanned) : Prop := token.type = l.type ∧ l.Keeps token.literal token.lexeme

/-- What is behind a token: the end, or a space. -/
def Apart (behind : Chars) : Prop := behind.head? = none ∨ behind.head? = some (ascii ' ')

/-- What a round does with a token that is spelled out. -/
def Lexeme.Read (l : Lexeme) (behind : Chars) : Prop := ∃ c rest parts, l.text ++ behind = c :: rest ∧
  (stride c rest).token = some parts ∧ (stride c rest).chars = l.text.length ∧ parts.1 = l.type ∧ l.Keeps parts.2.1 parts.2.2

variable {l : Lexeme} {behind : Chars} {c : UInt8} {rest : Chars}

theorem Apart.head_ne (h : Apart behind) {d : UInt8} (hd : d ≠ ascii ' ') : behind.head? ≠ some d := by
  intro hhead
  obtain hnone | hspace := h
  · exact nomatch hnone.symm.trans hhead
  · exact hd (Option.some.inj (hhead.symm.trans hspace))

/-- A run of characters ends at the end of the token. -/
theorem takeWhile_apart {p : UInt8 → Bool} (h : Apart behind) (hp : p (ascii ' ') = false) {text : Chars} (htext : ∀ c ∈ text, p c = true) :
    (text ++ behind).takeWhile p = text ∧ (text ++ behind).dropWhile p = behind := by
  have hstop : behind.takeWhile p = [] ∧ behind.dropWhile p = behind := by
    cases behind with
    | nil => exact ⟨rfl, rfl⟩
    | cons c behind =>
      obtain rfl : c = ascii ' ' := by
        obtain hnone | hspace := h
        · exact nomatch hnone
        · exact Option.some.inj hspace
      rw [List.takeWhile_cons_of_neg (by simp [hp]), List.dropWhile_cons_of_neg (by simp [hp])]
      exact ⟨rfl, rfl⟩
  rw [List.takeWhile_append_of_pos htext, List.dropWhile_append_of_pos htext, hstop.1, hstop.2, List.append_nil]
  exact ⟨rfl, rfl⟩

/-- How the scanner knows an operator. -/
inductive Tabled : Chars → TokenType → Prop where
  | simple {c : UInt8} {type : TokenType} (h : simpleToken c = some type) : Tabled [c] type
  | one {c : UInt8} {two one : TokenType} (hsimple : simpleToken c = none) (h : equalToken c = some (two, one)) : Tabled [c] one
  | two {c : UInt8} {two one : TokenType} (hsimple : simpleToken c = none) (h : equalToken c = some (two, one)) :
      Tabled [c, ascii '='] two
  | slash : Tabled [ascii '/'] .slash

theorem operators_tabled : ∀ entry ∈ operators, Tabled (entry.1.map ascii) entry.2 := by
  rw [operators]
  simp only [List.forall_mem_cons, List.not_mem_nil, false_imp_iff, implies_true, and_true]
  refine ⟨.simple rfl, .simple rfl, .simple rfl, .simple rfl, .simple rfl, .simple rfl, .simple rfl, .simple rfl, .simple rfl,
    .slash, .simple rfl, .one rfl rfl, .two rfl rfl, .one rfl rfl, .two rfl rfl, .one rfl rfl, .two rfl rfl, .one rfl rfl, .two rfl rfl⟩

/-- An operator is read up to its end. -/
theorem Tabled.read {text : Chars} {type : TokenType} (h : Tabled text type) (hbehind : Apart behind) :
    ∃ c rest lexeme, text ++ behind = c :: rest ∧ (stride c rest).token = some (type, none, lexeme) ∧
      (stride c rest).chars = text.length := by
  cases h with
  | @simple c type h =>
    refine ⟨c, behind, [c], rfl, ?_, ?_⟩
    all_goals
      rw [stride, h]
      rfl
  | @one c two one hsimple h =>
    have hhead : behind.head? ≠ some (ascii '=') := hbehind.head_ne (by decide)
    refine ⟨c, behind, [c], rfl, ?_, ?_⟩
    all_goals
      rw [stride, hsimple, h]
      simp only [if_neg hhead]
      rfl
  | @two c two one hsimple h =>
    refine ⟨c, ascii '=' :: behind, [c], rfl, ?_, ?_⟩
    all_goals
      rw [stride, hsimple, h]
      rfl
  | slash =>
    have hhead : behind.head? ≠ some (ascii '/') := hbehind.head_ne (by decide)
    have hslash : stride (ascii '/') behind = Scan.Stride.simple .slash 1 (ascii '/') := by
      change Scan.Stride.slash behind = _
      rw [Scan.Stride.slash, if_neg hhead]
    refine ⟨ascii '/', behind, [ascii '/'], rfl, ?_, ?_⟩
    all_goals
      rw [hslash]
      rfl

/-! ### Words -/

theorem lookup_none {α β : Type} [BEq α] [LawfulBEq α] {p : α → Bool} {entries : List (α × β)} {key : α}
    (hall : ∀ entry ∈ entries, p entry.1 = false) (h : p key = true) : entries.lookup key = none := by
  rw [List.lookup_eq_none_iff]
  intro entry hentry
  rw [bne_iff_ne]
  rintro rfl
  exact Bool.false_ne_true ((hall entry hentry).symm.trans h)

theorem simpleToken_word (h : (isalpha c || isdigit c) = true) : simpleToken c = none :=
  lookup_none (p := fun c => isalpha c || isdigit c) (by decide) h

theorem equalToken_word (h : (isalpha c || isdigit c) = true) : equalToken c = none :=
  lookup_none (p := fun c => isalpha c || isdigit c) (by decide) h

/-- A character of a word is none of the others that the `switch` names. -/
theorem stride_word (h : (isalpha c || isdigit c) = true) (rest : Chars) :
    stride c rest = if isdigit c = true then Scan.Stride.number (c :: rest) else Scan.Stride.name (c :: rest) := by
  have hne : ∀ d, (isalpha d || isdigit d) = false → c ≠ d := by
    rintro d hd rfl
    exact Bool.false_ne_true (hd.symm.trans h)
  have hspace : ¬ isSpace c = true := by
    intro hspace
    have hmem := of_decide_eq_true hspace
    simp only [List.mem_cons, List.not_mem_nil, or_false] at hmem
    obtain rfl | rfl | rfl | rfl := hmem
    all_goals exact absurd h (by decide)
  rw [stride, simpleToken_word h, equalToken_word h]
  simp only
  rw [if_neg (hne _ (by decide)), if_neg (hne _ (by decide)), if_neg hspace]
  by_cases hdigit : isdigit c = true
  · rw [if_pos hdigit, if_pos hdigit]
  · have halpha : isalpha c = true := by simpa [hdigit] using h
    rw [if_neg hdigit, if_neg hdigit, if_pos halpha]

theorem not_isdigit (h : isalpha c = true) : ¬ isdigit c = true := by
  intro hdigit
  simp only [isalpha, isdigit, decide_eq_true_eq, UInt8.le_iff_toNat_le] at h hdigit
  simp only [ascii] at h hdigit
  have : (UInt8.ofNat 'a'.toNat).toNat = 97 := by decide
  have : (UInt8.ofNat 'A'.toNat).toNat = 65 := by decide
  have : (UInt8.ofNat '9'.toNat).toNat = 57 := by decide
  omega

/-- A word of letters is read up to its end. -/
theorem read_letters {text : Chars} (hne : text ≠ []) (hletters : ∀ c ∈ text, isalpha c = true) (hbehind : Apart behind) :
    ∃ c rest, text ++ behind = c :: rest ∧ stride c rest = ⟨some (wordType text, none, text), text.length, 0, true⟩ := by
  cases text with
  | nil => exact absurd rfl hne
  | cons c text =>
    have halpha := hletters c List.mem_cons_self
    refine ⟨c, text ++ behind, rfl, ?_⟩
    rw [stride_word (by simp [halpha]), if_neg (not_isdigit halpha), Scan.Stride.name, readOther]
    rw [← List.cons_append, (takeWhile_apart hbehind (by decide) hletters).1]

theorem keywords_letters : ∀ entry ∈ keywords, entry.1.map ascii ≠ [] ∧ (∀ c ∈ entry.1.map ascii, isalpha c = true) ∧
    wordType (entry.1.map ascii) = entry.2 := by
  have hne : keywords.all (fun entry => !entry.1.isEmpty) = true := rfl
  have hletters : keywords.all (fun entry => entry.1.all fun c => isalpha (ascii c)) = true := rfl
  have htypes : keywords.map (fun entry => wordType (entry.1.map ascii)) = keywords.map Prod.snd := rfl
  intro entry hentry
  refine ⟨?_, ?_, List.map_inj_left.mp htypes entry hentry⟩
  · simpa using List.all_eq_true.mp hne entry hentry
  · simpa using List.all_eq_true.mp hletters entry hentry

theorem wordType_name {text : Chars} (h : ∀ entry ∈ keywords, text ≠ entry.1.map ascii) : wordType text = .identifier := by
  have hnone : (keywords.map fun entry => (entry.1.map ascii, entry.2)).lookup text = none := by
    rw [List.lookup_eq_none_iff]
    intro entry hentry
    obtain ⟨entry', hentry', rfl⟩ := List.mem_map.mp hentry
    rw [bne_iff_ne]
    exact h entry' hentry'
  rw [wordType, hnone]
  rfl

/-! ### Numbers and strings -/

theorem readNumber_whole {whole : Chars} (hdigits : ∀ c ∈ whole, isdigit c = true) (hbehind : Apart behind) :
    (readNumber (whole ++ behind)).1 = whole := by
  obtain ⟨htake, hdrop⟩ := takeWhile_apart hbehind (p := isdigit) (by decide) hdigits
  rw [readNumber, htake, hdrop]
  split
  · rename_i point digit rest
    rw [if_neg fun hpoint => hbehind.head_ne (d := ascii '.') (by decide) (congrArg some hpoint.1)]
  · rfl

theorem readNumber_fraction {whole : Chars} (hwhole : ∀ c ∈ whole, isdigit c = true) (fraction : Digits) (hbehind : Apart behind) :
    (readNumber (whole ++ ascii '.' :: fraction.text ++ behind)).1 = whole ++ ascii '.' :: fraction.text := by
  obtain ⟨text, hsome, hdigits⟩ := fraction
  obtain ⟨htake, -⟩ := takeWhile_apart hbehind (p := isdigit) (by decide) hdigits
  cases text with
  | nil => exact absurd rfl hsome
  | cons d text =>
    have hpoint : ¬ isdigit (ascii '.') = true := by decide
    rw [readNumber, List.append_assoc, List.cons_append, List.takeWhile_append_of_pos hwhole, List.dropWhile_append_of_pos hwhole,
      List.takeWhile_cons_of_neg hpoint, List.dropWhile_cons_of_neg hpoint, List.append_nil, List.cons_append]
    simp only [hdigits d List.mem_cons_self, and_self, if_true]
    rw [← List.cons_append, htake]

/-- A number is read up to its end. -/
theorem read_number (whole : Digits) {text : Chars} (hfirst : text.head? = whole.text.head?) (hread : (readNumber (text ++ behind)).1 = text) :
    ∃ c rest, text ++ behind = c :: rest ∧ stride c rest = ⟨some (.number, some text, text), text.length, 0, true⟩ := by
  obtain ⟨d, digits, hd⟩ := List.exists_cons_of_ne_nil whole.some
  rw [hd] at hfirst
  cases text with
  | nil => exact nomatch hfirst
  | cons c text =>
    obtain rfl : c = d := Option.some.inj hfirst
    have hdigit : isdigit c = true := whole.digits c (hd ▸ List.mem_cons_self)
    refine ⟨c, text ++ behind, rfl, ?_⟩
    rw [stride_word (by simp [hdigit]), if_pos hdigit, Scan.Stride.number, ← List.cons_append, hread]

theorem read_string (content : Content) (behind : Chars) :
    stride (ascii '"') (content.text ++ ascii '"' :: behind) =
      ⟨some (.string, some content.text, content.text), content.text.length + 2, content.text.count (ascii '\n'), false⟩ := by
  have hinside : ∀ c ∈ content.text, decide (c ≠ ascii '"') = true := fun c hc => decide_eq_true (content.chars c hc).1
  have htake : (content.text ++ ascii '"' :: behind).takeWhile (· ≠ ascii '"') = content.text := by
    rw [List.takeWhile_append_of_pos hinside, List.takeWhile_cons_of_neg (by decide), List.append_nil]
  have hclosed : content.text ≠ content.text ++ ascii '"' :: behind := by
    intro hopen
    have hlength := congrArg List.length hopen
    rw [List.length_append, List.length_cons] at hlength
    omega
  change Scan.Stride.quote _ = _
  rw [Scan.Stride.quote, htake]
  simp only [if_neg hclosed]

/-! ### Tokens -/

/-- A token is read up to its end, if it is no name with a digit or an underscore. -/
theorem Lexeme.read_of_plain (hplain : l.Plain) (hbehind : Apart behind) : l.Read behind := by
  cases l with
  | operator entry =>
    obtain ⟨c, rest, lexeme, hsplit, htoken, hchars⟩ := (operators_tabled entry.1 entry.2).read hbehind
    exact ⟨c, rest, _, hsplit, htoken, hchars, rfl, trivial⟩
  | keyword entry =>
    obtain ⟨hne, hletters, htype⟩ := keywords_letters entry.1 entry.2
    obtain ⟨c, rest, hsplit, hstride⟩ := read_letters hne hletters hbehind
    exact ⟨c, rest, _, hsplit, by rw [hstride], by rw [hstride]; rfl, htype, trivial⟩
  | number whole fraction =>
    cases fraction with
    | none =>
      obtain ⟨c, rest, hsplit, hstride⟩ := read_number whole rfl (readNumber_whole whole.digits hbehind)
      refine ⟨c, rest, _, hsplit, by rw [hstride], by rw [hstride]; rfl, rfl, ?_⟩
      exact rfl
    | some fraction =>
      have hfirst : (whole.text ++ ascii '.' :: fraction.text).head? = whole.text.head? := by
        rw [List.head?_append_of_ne_nil _ whole.some]
      obtain ⟨c, rest, hsplit, hstride⟩ := read_number whole hfirst (readNumber_fraction whole.digits fraction hbehind)
      refine ⟨c, rest, _, hsplit, by rw [hstride], by rw [hstride]; rfl, rfl, ?_⟩
      exact rfl
  | string content =>
    have hstride := read_string content behind
    refine ⟨ascii '"', content.text ++ ascii '"' :: behind, _, ?_, by rw [hstride], ?_, rfl, ?_⟩
    · simp [text]
    · rw [hstride]
      simp [text]
    · exact rfl
  | identifier name =>
    have hne : name.text ≠ [] := by
      intro hnil
      have hletter := name.letter
      rw [hnil] at hletter
      cases hletter
    obtain ⟨c, rest, hsplit, hstride⟩ := read_letters hne hplain hbehind
    refine ⟨c, rest, _, hsplit, by rw [hstride], by rw [hstride]; rfl, wordType_name name.name, ?_⟩
    exact rfl

/-- Of any other name the scanner reads only the letters before the first character that is none. -/
theorem read_other {name : Name} (hplain : ¬ (Lexeme.identifier name).Plain) (behind : Chars) : ∃ c rest word,
    name.text ++ behind = c :: rest ∧ (stride c rest).token = some (wordType word, none, word) ∧ word ≠ name.text := by
  have hword : (name.text ++ behind).takeWhile isalpha ≠ name.text := by
    intro heq
    refine hplain fun c hc => ?_
    rw [← heq] at hc
    exact List.mem_takeWhile_imp hc
  have hletter := name.letter
  cases htext : name.text with
  | nil =>
    rw [htext] at hletter
    cases hletter
  | cons c text =>
    rw [htext] at hletter hword
    have halpha : isalpha c = true := hletter
    refine ⟨c, text ++ behind, _, rfl, ?_, hword⟩
    rw [stride_word (by simp [halpha]), if_neg (not_isdigit halpha)]
    rfl

/-! ### The whole text -/

theorem Lexeme.nul_notMem (l : Lexeme) : 0 ∉ l.text := by
  have hdigits : ∀ digits : Digits, 0 ∉ digits.text := fun digits hmem => absurd (digits.digits 0 hmem) (by decide)
  cases l with
  | operator entry =>
    have hall : ∀ entry ∈ operators, 0 ∉ entry.1.map ascii := by decide
    exact hall entry.1 entry.2
  | keyword entry =>
    have hall : ∀ entry ∈ keywords, 0 ∉ entry.1.map ascii := by decide
    exact hall entry.1 entry.2
  | number whole fraction =>
    cases fraction with
    | none => exact hdigits whole
    | some fraction => simpa [text, hdigits] using by decide
  | string content =>
    have hinside : 0 ∉ content.text := fun hmem => (content.chars 0 hmem).2 rfl
    simpa [text, hinside] using by decide
  | identifier name => exact fun hmem => absurd (name.chars 0 hmem) (by decide)

theorem nul_notMem_spelled (ls : List Lexeme) : 0 ∉ spelled ls := by
  fun_induction spelled ls with
  | case1 => exact List.not_mem_nil
  | case2 l => exact l.nul_notMem
  | case3 l l' ls ih =>
    rw [List.mem_append, List.mem_cons, not_or, not_or]
    exact ⟨l.nul_notMem, by decide, ih⟩

def spelledSource (ls : List Lexeme) : Source := ⟨spelled ls, nul_notMem_spelled ls⟩

/-- What is behind a token that is spelled out. -/
def behindOf : List Lexeme → Chars
  | [] => []
  | l :: ls => ascii ' ' :: spelled (l :: ls)

theorem spelled_cons (l : Lexeme) (ls : List Lexeme) : spelled (l :: ls) = l.text ++ behindOf ls := by
  cases ls with
  | nil => exact (List.append_nil _).symm
  | cons l' ls => rfl

theorem apart_behindOf (ls : List Lexeme) : Apart (behindOf ls) := by
  cases ls with
  | nil => exact .inl rfl
  | cons l ls => exact .inr rfl

variable {verbose : Bool} {rounds line current : Nat} {ls : List Lexeme}

/-- A space is a round of its own. -/
theorem scanFrom_behindOf (verbose : Bool) (line current : Nat) (hrounds : (behindOf ls).length < rounds) : ∃ rounds' current',
    (spelled ls).length < rounds' ∧ scanFrom verbose rounds line current (behindOf ls) = scanFrom verbose rounds' line current' (spelled ls) := by
  cases ls with
  | nil => exact ⟨rounds, current, hrounds, rfl⟩
  | cons l ls =>
    cases rounds with
    | zero => exact absurd hrounds (Nat.not_lt_zero _)
    | succ rounds => exact ⟨rounds, current + 1, Nat.lt_of_succ_lt_succ hrounds, rfl⟩

/-- The tokens are the ones that are spelled, and the end of the file. -/
def ReadBack (ls : List Lexeme) (tokens : List Scanned) : Prop :=
  ∃ before last, tokens = before ++ [last] ∧ List.Forall₂ Lexeme.Reads ls before ∧ last.type = .endOfFile

theorem readBack_cons {token : Scanned} {tokens : List Scanned} :
    ReadBack (l :: ls) (token :: tokens) ↔ l.Reads token ∧ ReadBack ls tokens := by
  constructor
  · rintro ⟨before, last, heq, hall, hlast⟩
    cases hall with
    | @cons _ token' _ before hreads hall =>
      obtain ⟨rfl, rfl⟩ := List.cons.inj heq
      exact ⟨hreads, before, last, rfl, hall, hlast⟩
  · rintro ⟨hreads, before, last, rfl, hall, hlast⟩
    exact ⟨token :: before, last, rfl, .cons hreads hall, hlast⟩

/-- The first token of a text, and the rest. -/
theorem scanFrom_cons (verbose : Bool) (line current : Nat) {type : TokenType} {literal : Option Chars} {lexeme : Chars} (hrounds : (c :: rest).length < rounds)
    (htoken : (stride c rest).token = some (type, literal, lexeme)) (hne : type ≠ .error) :
    ∃ token rounds' line' current', token.type = type ∧ token.literal = literal ∧ token.lexeme = lexeme ∧
      ((c :: rest).drop (stride c rest).chars).length < rounds' ∧
      (scanFrom verbose rounds line current (c :: rest)).values =
        token :: (scanFrom verbose rounds' line' current' ((c :: rest).drop (stride c rest).chars)).values := by
  have hpos := Scan.stride_pos c rest
  cases rounds with
  | zero => exact absurd hrounds (Nat.not_lt_zero _)
  | succ rounds =>
    rw [Scan.drop_cons hpos]
    refine ⟨⟨type, literal, lexeme, line + (stride c rest).lines, current + (stride c rest).chars - 1⟩, rounds,
      line + (stride c rest).lines, current + (stride c rest).chars, rfl, rfl, rfl, ?_, ?_⟩
    · rw [List.length_cons] at hrounds
      rw [List.length_drop]
      omega
    · rw [scanFrom, Scan.Stride.scanned, htoken]
      simp only [if_neg fun herror : verbose = true ∧ type = .error => hne herror.2]
      rfl

theorem Lexeme.type_ne_error (l : Lexeme) : l.type ≠ .error := by
  cases l with
  | operator entry =>
    have hall : ∀ entry ∈ operators, entry.2 ≠ .error := by decide
    exact hall entry.1 entry.2
  | keyword entry =>
    have hall : ∀ entry ∈ keywords, entry.2 ≠ .error := by decide
    exact hall entry.1 entry.2
  | number whole fraction => exact nofun
  | string content => exact nofun
  | identifier name => exact nofun

/-- The texts are read back exactly if no name has a digit or an underscore. -/
theorem scanFrom_spelled_iff (hrounds : (spelled ls).length < rounds) :
    ReadBack ls (scanFrom verbose rounds line current (spelled ls)).values ↔ ∀ l ∈ ls, l.Plain := by
  induction ls generalizing rounds line current with
  | nil =>
    refine iff_of_true ⟨[], Scan.endOfFile line current, ?_, .nil, rfl⟩ nofun
    cases rounds <;> rfl
  | cons l ls ih =>
    rw [List.forall_mem_cons]
    by_cases hplain : l.Plain
    · obtain ⟨c, rest, ⟨type, literal, lexeme⟩, hsplit, htoken, hchars, htype, hkeeps⟩ := Lexeme.read_of_plain hplain (apart_behindOf ls)
      have hne : type ≠ .error := fun herror => l.type_ne_error (htype.symm.trans herror)
      rw [spelled_cons, hsplit] at hrounds ⊢
      obtain ⟨token, rounds', line', current', rfl, rfl, rfl, hrounds', heq⟩ := scanFrom_cons verbose line current hrounds htoken hne
      rw [hchars, ← hsplit, List.drop_left] at hrounds' heq
      obtain ⟨rounds'', current'', hrounds'', heq'⟩ := scanFrom_behindOf verbose line' current' hrounds'
      rw [hsplit] at heq
      rw [heq, heq', readBack_cons, ih hrounds'']
      exact and_congr_left fun _ => iff_of_true ⟨htype, hkeeps⟩ hplain
    · refine iff_of_false (fun hback => ?_) fun hall => hplain hall.1
      cases l with
      | identifier name =>
        obtain ⟨c, rest, word, hsplit, htoken, hword⟩ := read_other hplain (behindOf ls)
        rw [spelled_cons, show (Lexeme.identifier name).text ++ behindOf ls = c :: rest from hsplit] at hrounds hback
        obtain ⟨token, rounds', line', current', -, -, hlexeme, -, heq⟩ :=
          scanFrom_cons verbose line current hrounds htoken (Scan.wordType_ne_error word)
        rw [heq, readBack_cons] at hback
        exact hword (hlexeme.symm.trans hback.1.2)
      | _ => exact hplain trivial

/-- Tokens that are spelled out are read back exactly if the numbers of the scanner fit and no name has a digit or an underscore. -/
theorem toknzr_spelled_iff (ls : List Lexeme) (verbose : Bool) :
    (∃ tokens, Scan.toknzr (spelledSource ls) verbose = some tokens ∧ ReadBack ls tokens.values) ↔
      (spelledSource ls).Fits ∧ ∀ l ∈ ls, l.Plain := by
  rw [Scan.toknzr_eq]
  by_cases hfits : (spelledSource ls).Fits
  · rw [if_pos hfits]
    constructor
    · rintro ⟨tokens, heq, hback⟩
      cases heq
      exact ⟨hfits, (scanFrom_spelled_iff (Nat.lt_succ_self _)).mp hback⟩
    · exact fun hall => ⟨_, rfl, (scanFrom_spelled_iff (Nat.lt_succ_self _)).mpr hall.2⟩
  · rw [if_neg hfits]
    refine iff_of_false ?_ fun hall => hfits hall.1
    rintro ⟨tokens, heq, -⟩
    cases heq

/-- The name `a1`. -/
def nameOne : Name := ⟨[ascii 'a', ascii '1'], rfl, by decide +kernel, by decide +kernel⟩

/-- It is read as the name `a` and the number 1. -/
theorem toknzr_splits_name : ¬ ∃ tokens, Scan.toknzr (spelledSource [.identifier nameOne]) false = some tokens ∧
    ReadBack [.identifier nameOne] tokens.values := by
  have hrun : Scan.toknzr (spelledSource [.identifier nameOne]) false =
      some ⟨[⟨.identifier, none, [ascii 'a'], 1, 0⟩, ⟨.number, some [ascii '1'], [ascii '1'], 1, 1⟩, Scan.endOfFile 1 2], 1⟩ := by decide
  rw [hrun]
  rintro ⟨tokens, heq, hback⟩
  cases heq
  have hlexeme : [ascii 'a'] = nameOne.text := (readBack_cons.mp hback).1.2
  exact absurd hlexeme (by decide)

end Reading.Clox
