import SonarJavascript.Regex.Tokenizer

/-!
# String literals

The grammar of string literals in ECMAScript, with the legacy escapes, and the value of a literal. A literal is the
list of its elements; what an element may be followed by is checked against the text after it.
-/

namespace SonarJavascript.Regex

open Utf16

def lineSeparator : ℕ := 0x2028
def paragraphSeparator : ℕ := 0x2029

/-- A source character, an escaped character, an escape of digits, or a line continuation. -/
inductive Element
  | character (c : ℕ)
  | escape (c : ℕ)
  | octal (digits : JsString)
  | hex (digits : JsString)
  | unicode (digits : JsString)
  | codePoint (digits : JsString)
  | lineContinuation (terminator : JsString)
  deriving DecidableEq

namespace Element

def text : Element → JsString
  | character c => encode c
  | escape c => 92 :: encode c
  | octal digits => 92 :: digits
  | hex digits => 92 :: 120 :: digits
  | unicode digits => 92 :: 117 :: digits
  | codePoint digits => 92 :: 117 :: 123 :: (digits ++ [125])
  | lineContinuation terminator => 92 :: terminator

/-- `\n`, `\r`, `\t`, `\b`, `\v` and `\f`; other characters stand for themselves. -/
def escaped (c : ℕ) : JsString :=
  if c = 110 then [10] else if c = 114 then [13] else if c = 116 then [9] else if c = 98 then [8]
  else if c = 118 then [11] else if c = 102 then [12] else encode c

def value : Element → JsString
  | character c => encode c
  | escape c => escaped c
  | octal digits => [numeral 8 digits]
  | hex digits | unicode digits => [numeral 16 digits]
  | codePoint digits => encode (numeral 16 digits)
  | lineContinuation _ => []

/-- An octal escape has up to three digits, up to two from 4 on. -/
def maxDigits (first : ℕ) : ℕ := if first ≤ 51 then 3 else 2

def Valid (quote : ℕ) : Element → Prop
  | character c => c ≤ 0x10FFFF ∧ c ∉ [quote, 92, 10, 13]
  | escape c => c ≤ 0x10FFFF ∧ isOctalDigit (some c) = false ∧ c ∉ [117, 120, 10, 13, lineSeparator, paragraphSeparator]
  | octal digits =>
    (∀ c ∈ digits, isOctalDigit (some c) = true) ∧ ∃ first ∈ digits.head?, digits.length ≤ maxDigits first
  | hex digits => (∀ c ∈ digits, isDigit 16 c = true) ∧ digits.length = 2
  | unicode digits => (∀ c ∈ digits, isDigit 16 c = true) ∧ digits.length = 4
  | codePoint digits => (∀ c ∈ digits, isDigit 16 c = true) ∧ digits ≠ [] ∧ numeral 16 digits ≤ 0x10FFFF
  | lineContinuation terminator => terminator ∈ [[10], [13], [13, 10], [lineSeparator], [paragraphSeparator]]

/-- What may come after the element: no digit that belongs to it, and no second half of a character. -/
def Before (rest : JsString) : Element → Prop
  | character c | escape c => Separate c rest
  | octal digits =>
    ∀ first ∈ digits.head?, digits.length < maxDigits first → isOctalDigit rest.head? = false
  | lineContinuation terminator => terminator = [13] → rest.head? ≠ some 10
  | hex _ | unicode _ | codePoint _ => True

end Element

def bodyOf (elements : List Element) : JsString := elements.flatMap Element.text

/-- The value of a literal. -/
def valueOf (elements : List Element) : JsString := elements.flatMap Element.value

def WellFormed (quote : ℕ) : List Element → Prop
  | [] => True
  | element :: rest => element.Valid quote ∧ element.Before (bodyOf rest) ∧ WellFormed quote rest

/-- A string literal with its quotes. -/
structure StringLiteral where
  quote : ℕ
  elements : List Element
  quote_eq : quote = 34 ∨ quote = 39
  wellFormed : WellFormed quote elements

namespace StringLiteral

variable (literal : StringLiteral)

def body : JsString := bodyOf literal.elements

def raw : JsString := literal.quote :: (literal.body ++ [literal.quote])

def value : JsString := valueOf literal.elements

end StringLiteral

/-! ### Elements -/

theorem bodyOf_cons (element : Element) (rest : List Element) :
    bodyOf (element :: rest) = element.text ++ bodyOf rest := rfl

theorem valueOf_cons (element : Element) (rest : List Element) :
    valueOf (element :: rest) = element.value ++ valueOf rest := rfl

theorem Element.text_ne_nil (element : Element) : element.text ≠ [] := by
  cases element with
  | character c => exact encode_ne_nil
  | escape | octal | hex | unicode | codePoint | lineContinuation => exact List.cons_ne_nil _ _

theorem Element.length_text_pos (element : Element) : 0 < element.text.length :=
  List.length_pos_iff.mpr element.text_ne_nil

end SonarJavascript.Regex
