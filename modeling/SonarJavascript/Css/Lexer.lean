import SonarJavascript.Lib.Backtracking
import SonarJavascript.Regex.Ast

/-!
# The lexer of style sheets

`Tokenizer.tokenize` tries a list of regular expressions where a token begins, and skips what none of them matches.
`tokenize_string_iff`: a string literal becomes a token of its own if and only if it has no escape but hexadecimal ones
without CR LF behind them, and escaped line ends. The alternative for the other escapes is written `\[^` instead of
`\\[^`, which matches nothing.
-/

namespace SonarJavascript.Css.Lexer

open Backtracking Backtracking.Pattern
open Regex (units)

/-! ### Characters -/

/-- UTF-16 code units. -/
abbrev Text := List ℕ

def isOneOf (set : String) (c : ℕ) : Bool := (units set).contains c

def isBetween (first last : Char) (c : ℕ) : Bool := first.toNat ≤ c ∧ c ≤ last.toNat

def LF : ℕ := 10
def FF : ℕ := 12
def CR : ℕ := 13

def isHexDigit (c : ℕ) : Bool := isBetween '0' '9' c || isBetween 'a' 'f' c || isBetween 'A' 'F' c

def isDigit (c : ℕ) : Bool := isBetween '0' '9' c

def isLetter (c : ℕ) : Bool := isBetween 'a' 'z' c || isBetween 'A' 'Z' c

def isNewLine (c : ℕ) : Bool := c = LF || c = CR || c = FF

def isWhitespace (c : ℕ) : Bool := isNewLine c || isOneOf " \t" c

/-! ### The regular expressions -/

def text (s : String) : Pattern ℕ := literal (units s)

def NEW_LINE : Pattern ℕ := either (literal [CR, LF]) (oneOf isNewLine)

def WHITESPACE : Pattern ℕ := oneOf isWhitespace

def NON_ASCII : Pattern ℕ := oneOf fun c => 128 ≤ c

/-- In the second alternative the bracket is escaped: it is a text with the start of the match after the bracket. -/
def ESCAPE : Pattern ℕ :=
  either (sequence (text "\\") (sequence (sequence (oneOf isHexDigit) (atMost (oneOf isHexDigit) 5)) (optional WHITESPACE)))
    (sequence (text "[") (sequence start (sequence (literal [CR, LF, FF]) (text "0-9a-fA-F]"))))

def PUNCTUATOR : Pattern ℕ := oneOf fun c => isOneOf "!:,;%&+#=>()[]\x7b\x7d" c || isBetween '*' '/' c

def MULTI_LINE_COMMENT : Pattern ℕ := sequence (text "/*") (sequence (few (oneOf fun _ => true)) (text "*/"))

def INLINE_COMMENT : Pattern ℕ := sequence (text "//") (atomic (Pattern.many (oneOf fun c => !isNewLine c)))

def NUMBER : Pattern ℕ :=
  let digits := atomic (oneOrMore (oneOf isDigit))
  sequence (atomic (optional (oneOf (isOneOf "+|-"))))
    (sequence (either (sequence digits (atomic (optional (sequence (text ".") digits)))) (sequence (text ".") digits))
      (atomic (optional (either (atomic (oneOrMore (oneOf (isBetween 'a' 'z')))) (text "%")))))

def NAME_CHAR : Pattern ℕ := either (oneOf fun c => isLetter c || isDigit c || isOneOf "_-" c) (either NON_ASCII ESCAPE)

def NAME_START : Pattern ℕ := either (oneOf fun c => isLetter c || isOneOf "_" c) (either NON_ASCII ESCAPE)

def IDENTIFIER : Pattern ℕ :=
  sequence (atomic (optional (text "-"))) (sequence NAME_START (atomic (Pattern.many NAME_CHAR)))

def AT_IDENTIFIER : Pattern ℕ := sequence (atomic (oneOrMore (text "@"))) IDENTIFIER

def HASH_IDENTIFIER : Pattern ℕ := sequence (text "#") (atomic (oneOrMore NAME_CHAR))

def DOLLAR_IDENTIFIER : Pattern ℕ := sequence (text "$") (atomic (oneOrMore NAME_CHAR))

/-- What the string with this quote repeats. -/
def STRING_PART (quote : ℕ) : Pattern ℕ :=
  either (oneOf fun c => !(c = quote || isOneOf "\\" c || isNewLine c)) (either ESCAPE (sequence (text "\\") NEW_LINE))

def QUOTED_STRING (quote : ℕ) : Pattern ℕ :=
  sequence (atomic (optional (text "~"))) (sequence (oneOf (· = quote))
    (sequence (atomic (Pattern.many (STRING_PART quote))) (oneOf (· = quote))))

def doubleQuote : ℕ := 34
def singleQuote : ℕ := 39

def DOUBLE_QUOTE_STRING : Pattern ℕ := QUOTED_STRING doubleQuote

def SINGLE_QUOTE_STRING : Pattern ℕ := QUOTED_STRING singleQuote

/-! ### Tokens -/

inductive CssTokenType
  | COMMENT | STRING | AT_IDENTIFIER | HASH_IDENTIFIER | DOLLAR_IDENTIFIER | IDENTIFIER | NUMBER | PUNCTUATOR
  deriving DecidableEq

def channels : List (CssTokenType × Pattern ℕ) :=
  [(.COMMENT, MULTI_LINE_COMMENT), (.COMMENT, INLINE_COMMENT), (.STRING, DOUBLE_QUOTE_STRING),
    (.STRING, SINGLE_QUOTE_STRING), (.AT_IDENTIFIER, AT_IDENTIFIER), (.HASH_IDENTIFIER, HASH_IDENTIFIER),
    (.DOLLAR_IDENTIFIER, DOLLAR_IDENTIFIER), (.IDENTIFIER, IDENTIFIER), (.NUMBER, NUMBER), (.PUNCTUATOR, PUNCTUATOR)]

structure Position where
  line : ℕ
  column : ℕ
  deriving DecidableEq

structure CssToken where
  type : CssTokenType
  text : Text
  start : Position
  stop : Position
  deriving DecidableEq

/-- The position behind a character, as SSLR documents it: a line ends with LF, CR or CR LF. -/
def Position.next (position : Position) (c : ℕ) (following : Option ℕ) : Position :=
  if c = LF ∨ (c = CR ∧ following ≠ some LF) then ⟨position.line + 1, 0⟩ else ⟨position.line, position.column + 1⟩

/-- The position after so many code units of the text. -/
def Position.after (position : Position) : ℕ → Text → Position
  | n + 1, c :: rest => (position.next c rest.head?).after n rest
  | _, _ => position

/-- The position at the end of a token. -/
def Position.endOf (start : Position) (text : Text) : Position := start.after text.length text

/-- What the first channel that takes something leaves. -/
def consume (rest : Text) : Option (CssTokenType × Text) :=
  channels.findSome? fun (type, pattern) =>
    ((pattern.lookingAt rest).filter fun left => left.length < rest.length).map fun left => (type, left)

theorem length_lt_of_consume {rest left : Text} {type : CssTokenType} (h : consume rest = some (type, left)) :
    left.length < rest.length := by
  obtain ⟨⟨_, pattern⟩, -, hchannel⟩ := List.exists_of_findSome?_eq_some h
  obtain ⟨left', hleft, heq⟩ := Option.map_eq_some_iff.mp hchannel
  cases heq
  exact of_decide_eq_true (Option.filter_eq_some_iff.mp hleft).2

/-- The lexer of SSLR from a position on: as documented, the first channel that consumes something, or nothing
and one character is skipped. -/
def lex (position : Position) (rest : Text) : List CssToken :=
  match rest with
  | [] => []
  | c :: tail =>
    match _h : consume (c :: tail) with
    | some (type, left) =>
      let value := (c :: tail).take ((c :: tail).length - left.length)
      ⟨type, value, position, position.endOf value⟩ :: lex (position.after value.length (c :: tail)) left
    | none => lex (position.next c tail.head?) tail
termination_by rest.length
decreasing_by
  · exact length_lt_of_consume _h
  · simp

def tokenize (css : Text) : List CssToken := lex ⟨1, 0⟩ css

/-! ### String literals -/

def backslash : ℕ := 92

/-- What a string literal is made of. The white space behind a hexadecimal escape belongs to it. -/
inductive Item
  | character (c : ℕ)
  | hexadecimal (digits space : Text)
  | escaped (c : ℕ)
  | newline (line : Text)

def Item.text : Item → Text
  | character c => [c]
  | hexadecimal digits space => backslash :: (digits ++ space)
  | escaped c => [backslash, c]
  | newline line => backslash :: line

def lineEnds : List Text := [[CR, LF], [CR], [LF], [FF]]

/-- Each takes as much as it can of what stands there. -/
def Item.WellFormed (quote : ℕ) (following : Text) : Item → Prop
  | character c => c ≠ quote ∧ c ≠ backslash ∧ isNewLine c = false
  | hexadecimal digits space =>
    digits ≠ [] ∧ digits.length ≤ 6 ∧ (∀ c ∈ digits, isHexDigit c = true) ∧
      (digits.length < 6 → ∀ c ∈ (space ++ following).head?, isHexDigit c = false) ∧
      (space = [] ∧ (∀ c ∈ following.head?, isWhitespace c = false) ∨
        space ∈ units " " :: units "\t" :: lineEnds ∧ (space = [CR] → following.head? ≠ some LF))
  | escaped c => isHexDigit c = false ∧ isNewLine c = false
  | newline line => line ∈ lineEnds ∧ (line = [CR] → following.head? ≠ some LF)

def contents (items : List Item) : Text := items.flatMap Item.text

/-- In front of the quote. -/
def WellFormed (quote : ℕ) (after : Text) : List Item → Prop
  | [] => True
  | item :: items => item.WellFormed quote (contents items ++ quote :: after) ∧ WellFormed quote after items

/-- A literal with the quotes. -/
def literalOf (quote : ℕ) (items : List Item) : Text := quote :: (contents items ++ [quote])

/-- The escapes that the regular expression knows. -/
def Item.isSupported : Item → Bool
  | character _ | newline _ => true
  | hexadecimal _ space => space ≠ [CR, LF]
  | escaped _ => false

/-! ### The regular expressions on string literals -/

section Strings

variable {length quote c : ℕ} {rest following : Text}

theorem text_backslash : text "\\" = literal [backslash] := rfl

theorem text_bracket : text "[" = literal [91] := rfl

theorem first_ESCAPE_of_ne (hbackslash : c ≠ backslash) (hbracket : c ≠ 91) :
    first length ESCAPE (c :: rest) = none := by
  rw [ESCAPE, first_either, text_backslash, text_bracket, first_sequence_literal, first_sequence_literal,
    if_neg hbackslash, if_neg hbracket]
  rfl

theorem first_ESCAPE_of_not_hex (h : ∀ d ∈ rest.head?, isHexDigit d = false) :
    first length ESCAPE (backslash :: rest) = none := by
  have hhex : first length (sequence (sequence (oneOf isHexDigit) (atMost (oneOf isHexDigit) 5)) (optional WHITESPACE))
      rest = none := by
    rw [first_sequence_assoc]
    cases rest with
    | nil => exact first_sequence_none first_oneOf_nil
    | cons d rest => rw [first_sequence_oneOf, h d rfl, if_neg Bool.false_ne_true]
  rw [ESCAPE, first_either, text_backslash, text_bracket, first_sequence_literal, first_sequence_literal,
    first_sequence_literal_nil, if_pos rfl, hhex, if_neg (by decide)]
  rfl

theorem first_ESCAPE_of_hex {d : ℕ} (hd : isHexDigit d = true) : first length ESCAPE (backslash :: d :: rest) =
    first length (optional WHITESPACE) (rest.drop (min 5 (rest.takeWhile isHexDigit).length)) := by
  have hhex : first length (sequence (sequence (oneOf isHexDigit) (atMost (oneOf isHexDigit) 5)) (optional WHITESPACE))
      (d :: rest) = first length (optional WHITESPACE) (rest.drop (min 5 (rest.takeWhile isHexDigit).length)) := by
    rw [first_sequence_assoc, first_sequence_oneOf, if_pos hd]
    exact first_sequence_some first_atMost_oneOf (by rw [first_optional]; simp)
  rw [ESCAPE, first_either, text_backslash, text_bracket, first_sequence_literal, first_sequence_literal_nil, if_pos rfl,
    hhex, first_optional, Option.some_or]

theorem first_STRING_PART_character (h : c ≠ quote ∧ c ≠ backslash ∧ isNewLine c = false) :
    first length (STRING_PART quote) (c :: rest) = some rest := by
  obtain ⟨hquote, hbackslash, hnewline⟩ := h
  have haccepts : (!(decide (c = quote) || isOneOf "\\" c || isNewLine c)) = true := by
    simp [hquote, hnewline, isOneOf, units]
    exact hbackslash
  rw [STRING_PART, first_either, first_oneOf_cons, if_pos haccepts, Option.some_or]

theorem first_STRING_PART_backslash : first length (STRING_PART quote) (backslash :: rest) =
    (first length ESCAPE (backslash :: rest)).or (first length NEW_LINE rest) := by
  have hrefuses : (!(decide (backslash = quote) || isOneOf "\\" backslash || isNewLine backslash)) = false := by
    simp [isOneOf, units, backslash]
  rw [STRING_PART, first_either, first_oneOf_cons, hrefuses, if_neg Bool.false_ne_true, Option.none_or, first_either,
    text_backslash, first_sequence_literal, if_pos rfl, first_sequence_literal_nil]

theorem first_STRING_PART_stop (h : c = quote ∨ isNewLine c = true) (hbackslash : c ≠ backslash) (hbracket : c ≠ 91) :
    first length (STRING_PART quote) (c :: rest) = none := by
  have hrefuses : (!(decide (c = quote) || isOneOf "\\" c || isNewLine c)) = false := by
    rcases h with rfl | h
    · simp
    · simp [h]
  rw [STRING_PART, first_either, first_oneOf_cons, hrefuses, if_neg Bool.false_ne_true, Option.none_or, first_either,
    first_ESCAPE_of_ne hbackslash hbracket, Option.none_or, text_backslash, first_sequence_literal, if_neg hbackslash]

theorem first_NEW_LINE {line : Text} (hline : line ∈ lineEnds) (h : line = [CR] → following.head? ≠ some LF) :
    first length NEW_LINE (line ++ following) = some following := by
  simp only [lineEnds, List.mem_cons, List.not_mem_nil, or_false] at hline
  rw [NEW_LINE, first_either]
  rcases hline with rfl | rfl | rfl | rfl
  · rfl
  · have hlf := h rfl
    cases following with
    | nil => rfl
    | cons d following =>
      have hd : d ≠ LF := fun heq => hlf (heq ▸ rfl)
      simp [hd, isNewLine]
  · rfl
  · rfl

end Strings

/-! ### String literals that are matched -/

section Items

variable {length quote : ℕ} {following after : Text}

theorem drop_digits {digits following : Text} (hlength : digits.length ≤ 5) (hdigits : ∀ c ∈ digits, isHexDigit c = true)
    (hmost : digits.length < 5 → ∀ c ∈ following.head?, isHexDigit c = false) :
    (digits ++ following).drop (min 5 ((digits ++ following).takeWhile isHexDigit).length) = following := by
  have htake : min 5 ((digits ++ following).takeWhile isHexDigit).length = digits.length := by
    rw [List.takeWhile_append_of_pos hdigits, List.length_append]
    by_cases hfull : digits.length = 5
    · omega
    · have hstop : following.takeWhile isHexDigit = [] := by
        cases following with
        | nil => rfl
        | cons c following => exact List.takeWhile_cons_of_neg (by simp [hmost (by omega) c rfl])
      rw [hstop]
      simp [hlength]
  rw [htake, List.drop_left]

theorem isHexDigit_of_isNewLine {c : ℕ} (h : isNewLine c = true) : isHexDigit c = false := by
  simp only [isNewLine, Bool.or_eq_true, decide_eq_true_eq] at h
  rcases h with (rfl | rfl) | rfl <;> rfl

theorem head_lineEnds {line : Text} (h : line ∈ lineEnds) : ∀ c ∈ (line ++ following).head?, isNewLine c = true := by
  intro c hc
  simp only [lineEnds, List.mem_cons, List.not_mem_nil, or_false] at h
  rcases h with rfl | rfl | rfl | rfl <;>
  · cases hc
    rfl

/-- A hexadecimal escape in front of the white space. -/
theorem first_STRING_PART_hexadecimal {digits space : Text}
    (h : (Item.hexadecimal digits space).WellFormed quote following) :
    first length (STRING_PART quote) ((Item.hexadecimal digits space).text ++ following) =
      first length (optional WHITESPACE) (space ++ following) := by
  obtain ⟨hne, hlength, hdigits, hmost, -⟩ := h
  cases digits with
  | nil => exact absurd rfl hne
  | cons d digits =>
    have htext : (Item.hexadecimal (d :: digits) space).text ++ following =
        backslash :: d :: (digits ++ (space ++ following)) := by
      simp [Item.text]
    rw [htext, first_STRING_PART_backslash, first_ESCAPE_of_hex (hdigits d List.mem_cons_self), drop_digits]
    · rw [first_optional, Option.some_or]
    · exact Nat.le_of_succ_le_succ hlength
    · exact fun c hc => hdigits c (List.mem_cons_of_mem _ hc)
    · intro hless
      exact hmost (by rw [List.length_cons]; omega)

theorem first_optional_WHITESPACE {space : Text}
    (h : space = [] ∧ (∀ c ∈ following.head?, isWhitespace c = false) ∨ space ∈ units " " :: units "\t" :: lineEnds)
    (hspace : space ≠ [CR, LF]) : first length (optional WHITESPACE) (space ++ following) = some following := by
  rw [first_optional, WHITESPACE]
  rcases h with ⟨rfl, hnone⟩ | h
  · cases following with
    | nil => rfl
    | cons c following =>
      rw [List.nil_append, first_oneOf_cons, hnone c rfl]
      rfl
  · simp only [lineEnds, List.mem_cons, List.not_mem_nil, or_false] at h
    rcases h with rfl | rfl | rfl | rfl | rfl | rfl
    · rfl
    · rfl
    · exact absurd rfl hspace
    · rfl
    · rfl
    · rfl

theorem first_STRING_PART_item {item : Item} (h : item.WellFormed quote following) (hsupported : item.isSupported) :
    first length (STRING_PART quote) (item.text ++ following) = some following := by
  cases item with
  | character c => exact first_STRING_PART_character h
  | hexadecimal digits space =>
    rw [first_STRING_PART_hexadecimal h]
    obtain ⟨-, -, -, -, hspace⟩ := h
    exact first_optional_WHITESPACE (hspace.imp_right And.left) (by simpa [Item.isSupported] using hsupported)
  | escaped c => cases hsupported
  | newline line =>
    have hnone : ∀ d ∈ (line ++ following).head?, isHexDigit d = false := fun d hd =>
      isHexDigit_of_isNewLine (head_lineEnds h.1 d hd)
    change first length (STRING_PART quote) (backslash :: (line ++ following)) = some following
    rw [first_STRING_PART_backslash, first_ESCAPE_of_not_hex hnone, Option.none_or, first_NEW_LINE h.1 h.2]

/-- The repetition stops at an item that is not supported, in front of a backslash or a line feed. -/
theorem first_many_unsupported {item : Item} (hquote : quote = doubleQuote ∨ quote = singleQuote)
    (h : item.WellFormed quote following) (hunsupported : item.isSupported = false) :
    ∃ c rest, first length (Pattern.many (STRING_PART quote)) (item.text ++ following) = some (c :: rest) ∧ c ≠ quote := by
  cases item with
  | character c => cases hunsupported
  | newline line => cases hunsupported
  | escaped c =>
    obtain ⟨hhex, hnewline⟩ := h
    refine ⟨backslash, c :: following, ?_, by rcases hquote with rfl | rfl <;> decide⟩
    have hnone : first length NEW_LINE (c :: following) = none := by
      have hcr : c ≠ CR := by
        rintro rfl
        cases hnewline
      rw [NEW_LINE, first_either, first_literal_cons, if_neg hcr, Option.none_or, first_oneOf_cons, hnewline]
      rfl
    apply first_many_of_none
    change first length (STRING_PART quote) (backslash :: (c :: following)) = none
    rw [first_STRING_PART_backslash, first_ESCAPE_of_not_hex (by simpa using hhex), Option.none_or, hnone]
  | hexadecimal digits space =>
    obtain rfl : space = [CR, LF] := by simpa [Item.isSupported] using hunsupported
    refine ⟨LF, following, ?_, by rcases hquote with rfl | rfl <;> decide⟩
    have hstep : first length (STRING_PART quote) ((Item.hexadecimal digits [CR, LF]).text ++ following) =
        some (LF :: following) := by
      rw [first_STRING_PART_hexadecimal h]
      rfl
    rw [first_many_some hstep (by simp [Item.text]; omega)]
    exact first_many_of_none (first_STRING_PART_stop (Or.inr rfl) (by decide) (by decide))

theorem Item.text_length_pos (item : Item) : 0 < item.text.length := by
  cases item <;> simp [Item.text]

theorem first_many_contents {items : List Item} (hquote : quote = doubleQuote ∨ quote = singleQuote)
    (h : WellFormed quote after items) :
    (∀ item ∈ items, item.isSupported) ∧
        first length (Pattern.many (STRING_PART quote)) (contents items ++ quote :: after) = some (quote :: after) ∨
      ¬ (∀ item ∈ items, item.isSupported) ∧ ∃ c rest,
        first length (Pattern.many (STRING_PART quote)) (contents items ++ quote :: after) = some (c :: rest) ∧ c ≠ quote := by
  induction items with
  | nil =>
    refine Or.inl ⟨by simp, first_many_of_none (first_STRING_PART_stop (Or.inl rfl) ?_ ?_)⟩ <;>
      rcases hquote with rfl | rfl <;> decide
  | cons item items ih =>
    have hword : contents (item :: items) ++ quote :: after = item.text ++ (contents items ++ quote :: after) := by
      simp [contents]
    rw [hword, List.forall_mem_cons]
    cases hsupported : item.isSupported with
    | true =>
      have hless : (contents items ++ quote :: after).length <
          (item.text ++ (contents items ++ quote :: after)).length := by
        have hpos := item.text_length_pos
        have hsum : (item.text ++ (contents items ++ quote :: after)).length =
            item.text.length + (contents items ++ quote :: after).length := List.length_append
        omega
      rw [first_many_some (first_STRING_PART_item h.1 hsupported) hless]
      simpa using ih h.2
    | false => exact Or.inr ⟨fun hall => Bool.false_ne_true hall.1, first_many_unsupported hquote h.1 hsupported⟩

end Items

/-! ### Tokens of string literals -/

section Tokens

variable {length quote c : ℕ} {rest left following after : Text}

theorem first_QUOTED_STRING (htilde : quote ≠ 126)
    (h : first length (Pattern.many (STRING_PART quote)) following = some (c :: rest)) :
    first length (QUOTED_STRING quote) (quote :: following) = if c = quote then some rest else none := by
  have hnone : first length (optional (text "~")) (quote :: following) = some (quote :: following) := by
    rw [first_optional, show text "~" = literal [126] from rfl, first_literal_cons, if_neg htilde]
    rfl
  rw [QUOTED_STRING, first_sequence_atomic hnone, first_sequence_oneOf, if_pos (decide_eq_true rfl),
    first_sequence_atomic h, first_oneOf_cons]
  simp only [decide_eq_true_eq]

theorem consume_eq {before others : List (CssTokenType × Pattern ℕ)} {type : CssTokenType} {pattern : Pattern ℕ}
    (hchannels : channels = before ++ (type, pattern) :: others)
    (hbefore : ∀ channel ∈ before, first rest.length channel.2 rest = none)
    (hothers : ∀ channel ∈ others, first rest.length channel.2 rest = none) :
    consume rest = ((first rest.length pattern rest).filter fun left => left.length < rest.length).map
      fun left => (type, left) := by
  have hnone {some : List (CssTokenType × Pattern ℕ)} (h : ∀ channel ∈ some, first rest.length channel.2 rest = none) :
      (some.findSome? fun (type, pattern) =>
        ((pattern.lookingAt rest).filter fun left => left.length < rest.length).map fun left => (type, left)) = none := by
    rw [List.findSome?_eq_none_iff]
    intro channel hchannel
    change ((first rest.length channel.2 rest).filter _).map _ = none
    rw [h channel hchannel]
    rfl
  rw [consume, hchannels, ← List.singleton_append, List.findSome?_append, List.findSome?_append, hnone hbefore,
    hnone hothers, Option.none_or, Option.or_none, List.findSome?_singleton]
  rfl

theorem consume_quote (hquote : quote = doubleQuote ∨ quote = singleQuote) : consume (quote :: rest) =
    ((first (quote :: rest).length (QUOTED_STRING quote) (quote :: rest)).filter
      fun left => left.length < (quote :: rest).length).map fun left => (.STRING, left) := by
  rcases hquote with rfl | rfl
  · refine consume_eq (show channels = channels.take 2 ++ _ :: channels.drop 3 from rfl) ?_ ?_
    · simp only [channels, List.take, List.forall_mem_cons]
      exact ⟨rfl, rfl, by simp⟩
    · simp only [channels, List.drop, List.forall_mem_cons]
      exact ⟨rfl, rfl, rfl, rfl, rfl, rfl, rfl, by simp⟩
  · refine consume_eq (show channels = channels.take 3 ++ _ :: channels.drop 4 from rfl) ?_ ?_
    · simp only [channels, List.take, List.forall_mem_cons]
      exact ⟨rfl, rfl, rfl, by simp⟩
    · simp only [channels, List.drop, List.forall_mem_cons]
      exact ⟨rfl, rfl, rfl, rfl, rfl, rfl, by simp⟩

theorem consume_literal {items : List Item} (hquote : quote = doubleQuote ∨ quote = singleQuote)
    (h : WellFormed quote after items) : consume (literalOf quote items ++ after) =
      if ∀ item ∈ items, item.isSupported then some (.STRING, after) else none := by
  have hword : literalOf quote items ++ after = quote :: (contents items ++ quote :: after) := by simp [literalOf]
  have htilde : quote ≠ 126 := by rcases hquote with rfl | rfl <;> decide
  rw [hword, consume_quote hquote]
  rcases @first_many_contents (quote :: (contents items ++ quote :: after)).length _ _ _ hquote h with
    ⟨hall, hfirst⟩ | ⟨hnot, c, rest, hfirst, hc⟩
  · rw [first_QUOTED_STRING htilde hfirst, if_pos rfl, if_pos hall, Option.filter_some, if_pos, Option.map_some]
    simp
    omega
  · rw [first_QUOTED_STRING htilde hfirst, if_neg hc, if_neg hnot]
    rfl

end Tokens

/-! ### Runs of the lexer -/

section Runs

variable {position position' : Position} {c : ℕ} {rest rest' left word more : Text} {type : CssTokenType}
  {tokens : List CssToken}

theorem lex_of_consume_some (h : consume (c :: rest) = some (type, left)) :
    lex position (c :: rest) =
      let value := (c :: rest).take ((c :: rest).length - left.length)
      ⟨type, value, position, position.endOf value⟩ :: lex (position.after value.length (c :: rest)) left := by
  rw [lex]
  split
  · rename_i heq
    rw [h] at heq
    cases heq
    rfl
  · rename_i heq
    rw [h] at heq
    cases heq

theorem lex_of_consume_none (h : consume (c :: rest) = none) :
    lex position (c :: rest) = lex (position.next c rest.head?) rest := by
  rw [lex]
  split
  · rename_i heq
    rw [h] at heq
    cases heq
  · rfl

/-- From one position to another, with these tokens. -/
inductive LexesTo : Position → Text → List CssToken → Position → Text → Prop
  | refl {position : Position} {rest : Text} : LexesTo position rest [] position rest
  | token {position position' : Position} {c : ℕ} {rest rest' left value : Text} {type : CssTokenType}
      {tokens : List CssToken} (h : consume (c :: rest) = some (type, left)) (hvalue : c :: rest = value ++ left)
      (hrun : LexesTo (position.after value.length (c :: rest)) left tokens position' rest') :
      LexesTo position (c :: rest) (⟨type, value, position, position.endOf value⟩ :: tokens) position' rest'
  | skip {position position' : Position} {c : ℕ} {rest rest' : Text} {tokens : List CssToken}
      (h : consume (c :: rest) = none) (hrun : LexesTo (position.next c rest.head?) rest tokens position' rest') :
      LexesTo position (c :: rest) tokens position' rest'

theorem LexesTo.lex_eq (h : LexesTo position rest tokens position' rest') :
    lex position rest = tokens ++ lex position' rest' := by
  induction h with
  | refl => rfl
  | @token position position' c rest rest' left value type tokens h hvalue hrun ih =>
    have htake : (c :: rest).take ((c :: rest).length - left.length) = value := by
      rw [hvalue, List.length_append, Nat.add_sub_cancel, List.take_left]
    rw [lex_of_consume_some h, htake, List.cons_append, ← ih]
  | skip h hrun ih => rw [lex_of_consume_none h, ih]

theorem Position.after_append {n : ℕ} : position.after (word.length + n) (word ++ more) =
    (position.after word.length (word ++ more)).after n more := by
  induction word generalizing position with
  | nil =>
    rw [List.length_nil, Nat.zero_add, List.nil_append]
    rfl
  | cons c word ih =>
    rw [List.length_cons, Nat.add_right_comm, List.cons_append, Position.after, ih, Position.after]

theorem LexesTo.position_eq (h : LexesTo position rest tokens position' rest') :
    ∃ before, rest = before ++ rest' ∧ position' = position.after before.length rest := by
  induction h with
  | refl => exact ⟨[], rfl, rfl⟩
  | @token position position' c rest rest' left value type tokens h hvalue hrun ih =>
    obtain ⟨before, hbefore, hposition⟩ := ih
    refine ⟨value ++ before, ?_, ?_⟩
    · rw [hvalue, hbefore, List.append_assoc]
    · rw [hposition, hvalue, List.length_append, Position.after_append]
  | @skip position position' c rest rest' tokens h hrun ih =>
    obtain ⟨before, hbefore, hposition⟩ := ih
    refine ⟨c :: before, ?_, ?_⟩
    · rw [hbefore, List.cons_append]
    · rw [hposition, List.length_cons, Position.after]

theorem Position.after_of_last (word : Text) (h : c ≠ CR) :
    position.after (word ++ [c]).length (word ++ [c] ++ more) = position.endOf (word ++ [c]) := by
  induction word generalizing position with
  | nil =>
    change position.next c more.head? = position.next c none
    rw [Position.next, Position.next]
    simp [h]
  | cons d word ih =>
    have hhead : (word ++ [c] ++ more).head? = (word ++ [c]).head? := by cases word <;> rfl
    change (position.next d (word ++ [c] ++ more).head?).after _ (word ++ [c] ++ more) = _
    rw [hhead]
    exact ih

/-! ### Positions only grow -/

def Position.Before (position position' : Position) : Prop :=
  position.line < position'.line ∨ position.line = position'.line ∧ position.column < position'.column

theorem Position.Before.trans {other : Position} (h : position.Before position') (h' : position'.Before other) :
    position.Before other := by
  simp only [Position.Before] at *
  omega

theorem Position.before_next {following : Option ℕ} : position.Before (position.next c following) := by
  rw [Position.next]
  split
  · exact Or.inl (Nat.lt_succ_self _)
  · exact Or.inr ⟨rfl, Nat.lt_succ_self _⟩

theorem Position.before_after {n : ℕ} (h : rest ≠ []) : position.Before (position.after (n + 1) rest) := by
  induction n generalizing position rest with
  | zero =>
    cases rest with
    | nil => exact absurd rfl h
    | cons c rest =>
      rw [Position.after]
      exact Position.before_next
  | succ n ih =>
    cases rest with
    | nil => exact absurd rfl h
    | cons c rest =>
      rw [Position.after]
      by_cases hrest : rest = []
      · rw [hrest]
        exact Position.before_next
      · exact Position.before_next.trans (ih hrest)

theorem not_before_of_mem_lex {token : CssToken} (h : token ∈ lex position rest) :
    token.start = position ∨ position.Before token.start := by
  induction hlength : rest.length using Nat.strongRecOn generalizing position rest with
  | _ n ih =>
    cases rest with
    | nil =>
      rw [lex] at h
      cases h
    | cons c rest =>
      have hsmaller {n : ℕ} {left : Text} (hless : left.length < (c :: rest).length)
          (hmem : token ∈ lex (position.after (n + 1) (c :: rest)) left) :
          token.start = position ∨ position.Before token.start := by
        have hafter : position.Before (position.after (n + 1) (c :: rest)) :=
          Position.before_after (List.cons_ne_nil c rest)
        rcases ih _ (hlength ▸ hless) hmem rfl with hstart | hbefore
        · exact Or.inr (hstart ▸ hafter)
        · exact Or.inr (hafter.trans hbefore)
      cases hconsume : consume (c :: rest) with
      | some result =>
        obtain ⟨type, left⟩ := result
        rw [lex_of_consume_some hconsume] at h
        rcases List.mem_cons.mp h with rfl | h
        · exact Or.inl rfl
        · have hless := length_lt_of_consume hconsume
          obtain ⟨n, hn⟩ : ∃ n, ((c :: rest).take ((c :: rest).length - left.length)).length = n + 1 := by
            refine ⟨(c :: rest).length - left.length - 1, ?_⟩
            rw [List.length_take]
            omega
          rw [hn] at h
          exact hsmaller hless h
      | none =>
        rw [lex_of_consume_none hconsume] at h
        exact hsmaller (n := 0) (by simp) h

end Runs

/-! ### String literals in style sheets -/

section Literals

variable {quote : ℕ} {items : List Item} {css before after : Text} {tokens : List CssToken} {position : Position}

/-- The position of an offset. -/
def positionAt (css : Text) (offset : ℕ) : Position := (⟨1, 0⟩ : Position).after offset css

theorem after_literal (hquote : quote = doubleQuote ∨ quote = singleQuote) :
    position.after (literalOf quote items).length (literalOf quote items ++ after) =
      position.endOf (literalOf quote items) := by
  have hcr : quote ≠ CR := by rcases hquote with rfl | rfl <;> decide
  exact Position.after_of_last (quote :: contents items) hcr

/-- Where a literal begins, it becomes the next token if its escapes are supported. -/
theorem lex_literal_iff (hquote : quote = doubleQuote ∨ quote = singleQuote) (h : WellFormed quote after items) :
    lex position (literalOf quote items ++ after) =
        ⟨.STRING, literalOf quote items, position, position.endOf (literalOf quote items)⟩ ::
          lex (position.endOf (literalOf quote items)) after ↔
      ∀ item ∈ items, item.isSupported := by
  have hconsume := consume_literal hquote h
  have hcons : literalOf quote items ++ after = quote :: (contents items ++ [quote] ++ after) := rfl
  constructor
  · intro htokens
    by_contra hnot
    rw [if_neg hnot, hcons] at hconsume
    rw [hcons, lex_of_consume_none hconsume] at htokens
    -- the position of the token is behind the quote
    have hmem := htokens ▸ List.mem_cons_self
    have hbefore : position.Before (position.next quote (contents items ++ [quote] ++ after).head?) :=
      Position.before_next
    have hirrefl : ¬ position.Before position := by simp [Position.Before]
    rcases not_before_of_mem_lex hmem with heq | hless
    · rw [← heq] at hbefore
      exact hirrefl hbefore
    · exact hirrefl (hbefore.trans hless)
  · intro hall
    rw [if_pos hall] at hconsume
    have hvalue : (literalOf quote items ++ after).take ((literalOf quote items ++ after).length - after.length) =
        literalOf quote items := by
      rw [List.length_append, Nat.add_sub_cancel, List.take_left]
    have hlex := @lex_of_consume_some position _ _ _ _ (hcons ▸ hconsume)
    rw [← hcons, hvalue] at hlex
    simp only [hlex, after_literal hquote]

/-- The literal is one token with its own text and positions if and only if every escape in it is hexadecimal without
CR LF behind it, or an escaped line end. -/
theorem tokenize_string_iff (hquote : quote = doubleQuote ∨ quote = singleQuote) (h : WellFormed quote after items)
    (hcss : css = before ++ (literalOf quote items ++ after))
    (hbegins : LexesTo ⟨1, 0⟩ css tokens position (literalOf quote items ++ after)) :
    tokenize css = tokens ++
        ⟨.STRING, literalOf quote items, positionAt css before.length,
            positionAt css (before.length + (literalOf quote items).length)⟩ ::
          lex (positionAt css (before.length + (literalOf quote items).length)) after ↔
      ∀ item ∈ items, item.isSupported := by
  have hstart : positionAt css before.length = position := by
    obtain ⟨before', hbefore, hposition⟩ := hbegins.position_eq
    rw [hcss] at hbefore
    rw [hposition, ← List.append_cancel_right hbefore]
    rfl
  have hstop : positionAt css (before.length + (literalOf quote items).length) =
      position.endOf (literalOf quote items) := by
    rw [← hstart, positionAt, positionAt, hcss, Position.after_append]
    exact after_literal hquote
  rw [hstart, hstop, tokenize, hbegins.lex_eq, List.append_cancel_left_eq]
  exact lex_literal_iff hquote h

/-- ` '\9 /*'` in front of `*/`. -/
theorem tokenize_comment_opener :
    tokenize (units " '\\9 /*' */") =
      ⟨.STRING, units "'\\9 /*'", ⟨1, 1⟩, ⟨1, 8⟩⟩ :: lex ⟨1, 8⟩ (units " */") := by
  have hskip : consume (units " '\\9 /*' */") = none := by
    rw [consume, List.findSome?_eq_none_iff]
    simp only [channels, List.forall_mem_cons]
    exact ⟨rfl, rfl, rfl, rfl, rfl, rfl, rfl, rfl, rfl, rfl, by simp⟩
  have hwellFormed : WellFormed singleQuote (units " */") [.hexadecimal [57] [32], .character 47, .character 42] := by
    simp only [WellFormed, Item.WellFormed]
    decide
  exact (@tokenize_string_iff singleQuote _ _ [32] (units " */") _ _ (Or.inr rfl) hwellFormed rfl
    (.skip hskip .refl)).mpr (by decide)

/-- A quote behind a backslash, after which nothing follows. -/
theorem escaped_quote_not_tokenized :
    ¬ ∀ (quote : ℕ) (items : List Item) (css before after : Text) (tokens : List CssToken) (position : Position),
      quote = doubleQuote ∨ quote = singleQuote → WellFormed quote after items →
      css = before ++ (literalOf quote items ++ after) →
      LexesTo ⟨1, 0⟩ css tokens position (literalOf quote items ++ after) →
      tokenize css = tokens ++
        ⟨.STRING, literalOf quote items, positionAt css before.length,
            positionAt css (before.length + (literalOf quote items).length)⟩ ::
          lex (positionAt css (before.length + (literalOf quote items).length)) after := by
  intro hall
  have hwellFormed : WellFormed doubleQuote [] [.escaped doubleQuote] := ⟨⟨rfl, rfl⟩, trivial⟩
  have htokens := hall doubleQuote [.escaped doubleQuote] _ [] [] [] ⟨1, 0⟩ (Or.inl rfl) hwellFormed rfl .refl
  have hsupported := (lex_literal_iff (Or.inl rfl) hwellFormed).mp htokens
  exact Bool.false_ne_true (hsupported _ List.mem_cons_self)

end Literals

end SonarJavascript.Css.Lexer
