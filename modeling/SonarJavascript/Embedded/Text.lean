import Mathlib.Data.List.Basic

/-!
# Texts and embedded snippets

A JavaScript string is a list of UTF-16 code units, and offsets count them.
-/

namespace SonarJavascript.Embedded

abbrev CodeUnit := UInt16

abbrev Text := List CodeUnit

namespace CodeUnit

def LF : CodeUnit := 0x000a
def CR : CodeUnit := 0x000d
def LS : CodeUnit := 0x2028
def PS : CodeUnit := 0x2029
def BOM : CodeUnit := 0xfeff

/-- White space and line terminators. -/
def isWhiteSpace (c : CodeUnit) : Bool :=
  (9 ≤ c.toNat && c.toNat ≤ 13) || (0x2000 ≤ c.toNat && c.toNat ≤ 0x200A) ||
    c.toNat ∈ [0x20, 0xA0, 0x1680, 0x2028, 0x2029, 0x202F, 0x205F, 0x3000, 0xFEFF]

end CodeUnit

/-- `text.slice(start, stop)` for offsets that are not negative. -/
def slice (text : Text) (start stop : ℕ) : Text := (text.drop start).take (stop - start)

theorem slice_append {before code after : Text} :
    slice (before ++ code ++ after) before.length (before.length + code.length) = code := by
  simp [slice, List.append_assoc]

/-- The code units of a string without characters beyond the basic plane. -/
def units (s : String) : Text := s.toList.map fun c => UInt16.ofNat c.toNat

inductive Format
  | plain
  | blockFolded
  | blockLiteral
  deriving DecidableEq

/-- An extracted snippet; `lineStarts` and `text` are those of the whole file. -/
structure EmbeddedJS (Extras : Type) where
  code : Text
  line : ℕ
  column : ℕ
  offset : ℕ
  lineStarts : List ℕ
  text : Text
  format : Format
  extras : Extras

end SonarJavascript.Embedded
