import Mathlib.Data.Int.Notation
import SonarJavascript.Lib.Utf16
import SonarJavascript.Regex.Ast

/-!
# The tokens of a string literal

`helpers/regex/tokenizer.ts`. A reader has a position, in code units, and gives the position after what it has read;
it has no value when it throws.
-/

namespace SonarJavascript.Regex

open Utf16

structure StringLiteralToken where
  value : JsString
  range : ℕ × ℕ
  deriving DecidableEq

def UNICODE_ESCAPE_LENGTH : ℕ := 4
def HEX_ESCAPE_LENGTH : ℕ := 2

def CP_BACK_SLASH : ℕ := 92
def CP_FORWARD_SLASH : ℕ := 47
def CP_CR : ℕ := 13
def CP_LF : ℕ := 10
def CP_n : ℕ := 110
def CP_r : ℕ := 114
def CP_t : ℕ := 116
def CP_b : ℕ := 98
def CP_v : ℕ := 118
def CP_f : ℕ := 102
def CP_u : ℕ := 117
def CP_x : ℕ := 120

/-! ### The language -/

/-- `codePointAt`, which is undefined behind the end. -/
def cp (s : JsString) (i : ℕ) : Option ℕ := decode (s.drop i)

/-- `String.fromCodePoint`, which throws for other numbers. -/
def fromCodePoint (c : ℤ) : Option JsString := if 0 ≤ c ∧ c ≤ 0x10FFFF then some (encode c.toNat) else none

def substring (s : JsString) (start finish : ℕ) : JsString :=
  (s.drop (min start finish)).take (max start finish - min start finish)

/-- The position of a code unit from `start` on, where there is one. -/
def indexOf (s : JsString) (unit start : ℕ) : Option ℕ := ((s.drop start).idxOf? unit).map (start + ·)

def digit? (c : ℕ) : Option ℕ :=
  if 48 ≤ c ∧ c ≤ 57 then some (c - 48)
  else if 97 ≤ c ∧ c ≤ 122 then some (c - 87)
  else if 65 ≤ c ∧ c ≤ 90 then some (c - 55)
  else none

def isDigit (radix c : ℕ) : Bool := (digit? c).any (· < radix)

/-- The number of digits after each other. -/
def numeral (radix : ℕ) (digits : JsString) : ℕ := digits.foldl (fun n c => n * radix + (digit? c).getD 0) 0

def isWhiteSpace (c : ℕ) : Bool :=
  (9 ≤ c && c ≤ 13) || (0x2000 ≤ c && c ≤ 0x200A) ||
    c ∈ [0x20, 0xA0, 0x1680, 0x2028, 0x2029, 0x202F, 0x205F, 0x3000, 0xFEFF]

/-- `Number.parseInt`, without a value where it gives `NaN`. -/
def parseInt (text : JsString) (radix : ℕ) : Option ℤ :=
  let text := text.dropWhile isWhiteSpace
  let sign : ℤ := if text.head? = some 45 then -1 else 1
  let text := if text.head? = some 45 ∨ text.head? = some 43 then text.tail else text
  let text := if radix = 16 ∧ (text.take 2 = units "0x" ∨ text.take 2 = units "0X") then text.drop 2 else text
  let digits := text.takeWhile (isDigit radix)
  if digits = [] then none else some (sign * numeral radix digits)

/-! ### The readers -/

def inc (pos c : ℕ) : ℕ := pos + if c ≥ 0x10000 then 2 else 1

def isOctalDigit (c : Option ℕ) : Bool := c.any fun c => 48 ≤ c && c ≤ 55

def next (s : JsString) (pos : ℕ) : Option (ℕ × ℕ) := (cp s pos).map fun c => (c, inc pos c)

/-- Without a closing brace `indexOf` gives -1, which `substring` takes for 0. -/
def readUnicode (s : JsString) (pos : ℕ) : Option (ℤ × ℕ) :=
  if (s.drop pos).head? = some 123 then
    let pos := pos + 1
    match indexOf s 125 pos with
    | some close => (parseInt (substring s pos close) 16).map fun u => (u, close + 1)
    | none => (parseInt (substring s pos 0) 16).map fun u => (u, 0)
  else
    (parseInt (substring s pos (pos + UNICODE_ESCAPE_LENGTH)) 16).map fun u => (u, pos + UNICODE_ESCAPE_LENGTH)

def readHex (s : JsString) (pos : ℕ) : Option (ℤ × ℕ) :=
  (parseInt (substring s pos (pos + HEX_ESCAPE_LENGTH)) 16).map fun x => (x, pos + HEX_ESCAPE_LENGTH)

/-- The digits after the first one, at most `n`. -/
def octalDigits (s : JsString) (i : ℕ) : ℕ → JsString
  | 0 => []
  | n + 1 => if isOctalDigit (cp s i) then (s.drop i).take 1 ++ octalDigits s (i + 1) n else []

def readOctal (s : JsString) (firstDigit pos : ℕ) : Option (JsString × ℕ) := do
  let octal := octalDigits s pos 2
  let res ← parseInt (encode firstDigit ++ octal) 8
  let value ← fromCodePoint res
  return (value, pos + octal.length)

def readEscape (s : JsString) (pos : ℕ) : Option (JsString × ℕ) := do
  let (c, pos) ← next s pos
  if c = CP_n then return ([10], pos)
  else if c = CP_r then return ([13], pos)
  else if c = CP_t then return ([9], pos)
  else if c = CP_b then return ([8], pos)
  else if c = CP_v then return ([11], pos)
  else if c = CP_f then return ([12], pos)
  else if c = CP_BACK_SLASH then return ([92], pos)
  else if c = CP_CR then return ([], if cp s pos = some CP_LF then pos + 1 else pos)
  else if c = CP_LF then return ([], pos)
  else if c = CP_u then
    let (u, pos) ← readUnicode s pos
    let value ← fromCodePoint u
    return (value, pos)
  else if c = CP_x then
    let (x, pos) ← readHex s pos
    let value ← fromCodePoint x
    return (value, pos)
  else if isOctalDigit (some c) then readOctal s c pos
  else
    let value ← fromCodePoint c
    return (value, pos)

/-- One turn of the loop: the tokens that are pushed, and the position after them. -/
def readTokens (s : JsString) (start : ℕ) : Option (List StringLiteralToken × ℕ) := do
  let (c, pos) ← next s start
  if c = CP_BACK_SLASH then
    let (value, pos) ← readEscape s pos
    return (if value ≠ [] then [⟨value, (start, pos)⟩] else [], pos)
  else
    let value ← fromCodePoint c
    let token : StringLiteralToken := ⟨value, (start, pos)⟩
    return (if c = CP_FORWARD_SLASH then [token, token] else [token], pos)

/-- The loop, in at most `n` turns. -/
def tokenizeFrom (s : JsString) : ℕ → ℕ → Option (List StringLiteralToken)
  | n, pos =>
    if pos < s.length then
      match n with
      | 0 => none
      | n + 1 => do
        let (tokens, pos) ← readTokens s pos
        let rest ← tokenizeFrom s n pos
        return tokens ++ rest
    else some []

/-- A text that is a literal takes no more turns than it has code units. -/
def tokenizeString (s : JsString) : Option (List StringLiteralToken) := tokenizeFrom s s.length 0

end SonarJavascript.Regex
