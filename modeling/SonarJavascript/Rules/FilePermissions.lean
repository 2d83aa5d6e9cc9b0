import Mathlib.Data.Rat.Floor
import Mathlib.Data.Set.Card
import Mathlib.Tactic.Ring
import SonarJavascript.Helpers.UniqueWrite
import SonarJavascript.Regex.ReadElements
import SonarJavascript.Rules.InvariantReturns

/-!
# File permissions

S2612 evaluates the mode that `chmod` or `umask` is called with. A literal that starts with a zero is read in base 8
even where this is another notation, an operand that is zero counts as unknown, and the operands of an expression share
the set of the written expressions that have been followed. `evaluates_iff` says when the mode is still right.
-/

namespace SonarJavascript.Rules.FilePermissions

open Helpers (Scope getVariableFromScope getUniqueWriteReference)
open InvariantReturns (Number)
open Regex (JsString units numeral isDigit)

/-! ### The rule -/

inductive LiteralValue
  | string (value : JsString)
  | number (value : Number)
  /-- Neither a string nor a number. -/
  | other

inductive Syntax (Node : Type)
  | MemberExpression (object property : Node)
  | Literal (value : LiteralValue) (raw : Option JsString)
  | Identifier (name : String)
  | BinaryExpression (left : Node) (operator : String) (right : Node)
  | other

/-- The operands of an expression are deeper in the tree. -/
structure Program (Node : Type) where
  syntaxOf : Node → Syntax Node
  getScope : Node → Scope Node
  height : Node → ℕ
  height_left : ∀ {node left operator right}, syntaxOf node = .BinaryExpression left operator right →
    height left < height node
  height_right : ∀ {node left operator right}, syntaxOf node = .BinaryExpression left operator right →
    height right < height node

/-- How a number becomes a double. -/
structure Doubles where
  round : ℚ → Number
  round_zero : round 0 = .finite 0

/-- What `modeFromExpression` returns. A property of `Object.prototype` is a function or an object. -/
inductive Mode
  | null
  | undefined
  | inherited
  | number (value : Number)

variable {Node : Type}

def isIdentifier (program : Program Node) (node : Node) (name : String) : Bool :=
  match program.syntaxOf node with
  | .Identifier name' => name' = name
  | _ => false

def isMemberExpression (program : Program Node) (node : Node) (objectValue propertyValue : String) : Bool :=
  match program.syntaxOf node with
  | .MemberExpression object property =>
    isIdentifier program object objectValue && isIdentifier program property propertyValue
  | _ => false

/-- `Number.parseInt` with base 8. -/
def parseOctal (doubles : Doubles) (text : JsString) : Number :=
  match Regex.parseInt text 8 with
  | some value => doubles.round value
  | none => .NaN

def modeFromLiteral (doubles : Doubles) (modeValue : LiteralValue) (raw : Option JsString) : Mode :=
  match modeValue with
  | .string value => .number (parseOctal doubles value)
  | .number value =>
    match raw with
    | some raw =>
      if raw.take 1 = units "0" ∧ raw.take 2 ≠ units "0o" then .number (parseOctal doubles raw) else .number value
    | none => .number value
  | .other => .null

def FS_CONST : List (String × ℕ) :=
  [("S_IRWXU", 0o700), ("S_IRUSR", 0o400), ("S_IWUSR", 0o200), ("S_IXUSR", 0o100), ("S_IRWXG", 0o70),
    ("S_IRGRP", 0o40), ("S_IWGRP", 0o20), ("S_IXGRP", 0o10), ("S_IRWXO", 0o7), ("S_IROTH", 0o4), ("S_IWOTH", 0o2),
    ("S_IXOTH", 0o1)]

/-- The properties of `Object.prototype`. -/
def inheritedNames : List String :=
  ["constructor", "__defineGetter__", "__defineSetter__", "hasOwnProperty", "__lookupGetter__", "__lookupSetter__",
    "isPrototypeOf", "propertyIsEnumerable", "toString", "valueOf", "__proto__", "toLocaleString"]

def modeFromMemberExpression (program : Program Node) (object property : Node) : Mode :=
  match isMemberExpression program object "fs" "constants", program.syntaxOf property with
  | true, .Identifier name =>
    match FS_CONST.lookup name with
    | some value => .number (.finite value)
    | none => if name ∈ inheritedNames then .inherited else .undefined
  | _, _ => .null

namespace Mode

def toBoolean : Mode → Bool
  | null | undefined => false
  | inherited => true
  | number value => value.toBoolean

def toInt32 : Mode → ℤ
  | number value => value.toInt32
  | _ => 0

end Mode

def bitwiseOr (a b : ℤ) : Number := .finite (BitVec.ofInt 32 a ||| BitVec.ofInt 32 b).toInt

def getUniqueWriteUsage (program : Program Node) (name : String) (node : Node) : Option Node :=
  getUniqueWriteReference (getVariableFromScope (program.getScope node) name)

variable [DecidableEq Node]

/-- With the set of the visited nodes. There is no result when the fuel does not suffice. -/
def modeFromExpression (doubles : Doubles) (program : Program Node) :
    ℕ → Option Node → List Node → Option (Mode × List Node)
  | 0, _, _ => none
  | _ + 1, none, visited => some (.null, visited)
  | fuel + 1, some expr, visited =>
    match program.syntaxOf expr with
    | .MemberExpression object property => some (modeFromMemberExpression program object property, visited)
    | .Literal value raw => some (modeFromLiteral doubles value raw, visited)
    | .Identifier name =>
      match getUniqueWriteUsage program name expr with
      | some usage =>
        if usage ∈ visited then some (.null, visited)
        else modeFromExpression doubles program fuel (some usage) (usage :: visited)
      | none => some (.null, visited)
    | .BinaryExpression left operator right =>
      if operator = "|" then
        match modeFromExpression doubles program fuel (some left) visited with
        | none => none
        | some (leftValue, visited) =>
          match modeFromExpression doubles program fuel (some right) visited with
          | none => none
          | some (rightValue, visited) =>
            if leftValue.toBoolean && rightValue.toBoolean then
              some (.number (bitwiseOr leftValue.toInt32 rightValue.toInt32), visited)
            else some (.null, visited)
      else some (.null, visited)
    | .other => some (.null, visited)

/-- `mode % 8 !== moduloTest`, for a mode that is a number. -/
def isSensitive (mode : Number) (moduloTest : ℕ) : Bool :=
  match mode with
  | .NaN => false
  | .negativeZero => moduloTest ≠ 0
  | .finite value => value - 8 * (value / 8).num.tdiv (value / 8).den ≠ moduloTest
  | .infinity _ => true

/-- Whether there is a report. -/
def checkModeArgument (doubles : Doubles) (program : Program Node) (fuel : ℕ) (node : Option Node) (moduloTest : ℕ) :
    Option Bool :=
  (modeFromExpression doubles program fuel node []).map fun (mode, _) =>
    match mode with
    | .number value => isSensitive value moduloTest
    | _ => false

/-! ### Numeric literals -/

structure Exponent where
  indicator : ℕ
  isNegative : Bool
  hasPlus : Bool
  digits : JsString

/-- Digits can be separated by underscores. -/
def valueOfDigits (radix : ℕ) (digits : JsString) : ℕ := numeral radix (digits.filter (· ≠ 95))

namespace Exponent

def text (exponent : Exponent) : JsString :=
  exponent.indicator ::
    ((if exponent.isNegative then units "-" else if exponent.hasPlus then units "+" else []) ++ exponent.digits)

def value (exponent : Exponent) : ℤ :=
  if exponent.isNegative then -valueOfDigits 10 exponent.digits else valueOfDigits 10 exponent.digits

end Exponent

/-- The notations of the language for numbers. -/
inductive NumericLiteral
  | decimal (integer : JsString) (fraction : Option JsString) (exponent : Option Exponent)
  /-- A zero in front of octal digits. -/
  | legacyOctal (digits : JsString)
  /-- A zero and a letter in front of binary, octal or hexadecimal digits. -/
  | prefixed (letter : ℕ) (digits : JsString)

namespace NumericLiteral

def radixOf (letter : ℕ) : ℕ :=
  if letter ∈ units "bB" then 2 else if letter ∈ units "oO" then 8 else 16

def text : NumericLiteral → JsString
  | decimal integer fraction exponent =>
    integer ++ (fraction.elim [] fun digits => 46 :: digits) ++ exponent.elim [] Exponent.text
  | legacyOctal digits => 48 :: digits
  | prefixed letter digits => 48 :: letter :: digits

/-- The integer of a decimal can start with a zero, when there is an eight or a nine in it. -/
def WellFormed : NumericLiteral → Prop
  | decimal integer fraction exponent =>
    (integer = [] ∧ (∃ digits, fraction = some digits ∧ digits ≠ []) ∨ integer = [48] ∨
        (∃ first ∈ integer.head?, isDigit 10 first = true ∧ first ≠ 48) ∨
        integer.head? = some 48 ∧ (∀ c ∈ integer, isDigit 10 c = true) ∧ ∃ c ∈ integer, isDigit 8 c = false) ∧
      (∀ c ∈ integer, isDigit 10 c = true ∨ c = 95) ∧
      (∀ digits ∈ fraction, ∀ c ∈ digits, isDigit 10 c = true ∨ c = 95) ∧
      (∀ part ∈ exponent, part.indicator ∈ units "eE" ∧ part.digits ≠ [] ∧
        ∀ c ∈ part.digits, isDigit 10 c = true ∨ c = 95)
  | legacyOctal digits => digits ≠ [] ∧ ∀ c ∈ digits, isDigit 8 c = true
  | prefixed letter digits =>
    letter ∈ units "bBoOxX" ∧ digits ≠ [] ∧ ∀ c ∈ digits, isDigit (radixOf letter) c = true ∨ c = 95

def exact : NumericLiteral → ℚ
  | decimal integer fraction exponent =>
    (valueOfDigits 10 integer +
        fraction.elim 0 fun digits => valueOfDigits 10 digits / 10 ^ (digits.filter (· ≠ 95)).length) *
      10 ^ exponent.elim 0 Exponent.value
  | legacyOctal digits => numeral 8 digits
  | prefixed letter digits => valueOfDigits (radixOf letter) digits

variable (doubles : Doubles)

/-- The number that the literal denotes. -/
def value (literal : NumericLiteral) : Number := doubles.round literal.exact

/-- Hexadecimal, binary and `0O` literals, and the decimals that start with a zero and have no other digit in front of
the point. -/
def isCutOff : NumericLiteral → Bool
  | decimal integer _ _ => integer = [48]
  | legacyOctal _ => false
  | prefixed letter _ => letter ≠ 111

/-- The number in front of the first eight or nine of a decimal that starts with a zero. -/
def octalPrefix : NumericLiteral → Option ℕ
  | decimal integer _ _ =>
    if integer.head? = some 48 ∧ integer ≠ [48] then some (numeral 8 (integer.takeWhile (isDigit 8))) else none
  | _ => none

/-- With the octal digits in front of an eight or a nine, where there is a leading zero. -/
def octalReading (literal : NumericLiteral) : Number :=
  match literal.octalPrefix with
  | some n => doubles.round n
  | none => literal.value doubles

/-- What `modeFromLiteral` makes of the literal. -/
def read (literal : NumericLiteral) : Number := if literal.isCutOff then .finite 0 else literal.octalReading doubles

end NumericLiteral

theorem parseInt_of_zero {rest : JsString} : Regex.parseInt (48 :: rest) 8 =
    some (numeral 8 ((48 :: rest).takeWhile (isDigit 8)) : ℤ) := by
  have hspace : (48 :: rest).dropWhile Regex.isWhiteSpace = 48 :: rest := List.dropWhile_cons_of_neg (by decide)
  have hminus : ¬ (48 :: rest).head? = some 45 := by simp
  have hplus : ¬ ((48 :: rest).head? = some 45 ∨ (48 :: rest).head? = some 43) := by simp
  have hradix : ¬ ((8 : ℕ) = 16 ∧ ((48 :: rest).take 2 = units "0x" ∨ (48 :: rest).take 2 = units "0X")) :=
    fun h => absurd h.1 (by decide)
  have hdigits : (48 :: rest).takeWhile (isDigit 8) ≠ [] := by
    rw [List.takeWhile_cons_of_pos (by decide)]
    exact List.cons_ne_nil _ _
  unfold Regex.parseInt
  simp only [hspace, if_neg hminus, if_neg hplus, if_neg hradix, if_neg hdigits, Int.one_mul]

theorem parseOctal_of_zero {doubles : Doubles} {rest : JsString} : parseOctal doubles (48 :: rest) =
    doubles.round (numeral 8 ((48 :: rest).takeWhile (isDigit 8))) := by
  rw [parseOctal, parseInt_of_zero]
  rfl

/-! ### Reading the literals -/

section Literals

variable {doubles : Doubles} {value : Number} {rest : JsString} {c : ℕ}

theorem modeFromLiteral_of_ne (h : ∀ c ∈ rest.head?, c ≠ 48) :
    modeFromLiteral doubles (.number value) (some rest) = .number value := by
  have hzero : ¬ (rest.take 1 = units "0" ∧ rest.take 2 ≠ units "0o") := by
    rintro ⟨htake, -⟩
    cases rest with
    | nil => cases htake
    | cons c rest => exact h c rfl (List.cons.inj htake).1
  rw [modeFromLiteral]
  simp only [if_neg hzero]

theorem modeFromLiteral_of_zero (h : rest.head? ≠ some 111) :
    modeFromLiteral doubles (.number value) (some (48 :: rest)) =
      .number (doubles.round (numeral 8 ((48 :: rest).takeWhile (isDigit 8)))) := by
  have hzero : (48 :: rest).take 1 = units "0" ∧ (48 :: rest).take 2 ≠ units "0o" := by
    refine ⟨rfl, fun htake => h ?_⟩
    cases rest with
    | nil => cases htake
    | cons c rest => exact congrArg some (List.cons.inj (List.cons.inj htake).2).1
  rw [modeFromLiteral]
  simp only [if_pos hzero, parseOctal_of_zero]

theorem not_isDigit_of_head {text : JsString} (h : ∀ c ∈ text.head?, isDigit 8 c = false) :
    (48 :: text).takeWhile (isDigit 8) = [48] := by
  rw [List.takeWhile_cons_of_pos (by decide)]
  cases text with
  | nil => rfl
  | cons c text => rw [List.takeWhile_cons_of_neg (by simp [h c rfl])]

theorem round_numeral_zero : doubles.round (numeral 8 [48]) = .finite 0 := by
  rw [show ((numeral 8 [48] : ℕ) : ℚ) = 0 from rfl, doubles.round_zero]

theorem ne_of_isDigit (h : isDigit 10 c = true) : c ≠ 111 := by
  rintro rfl
  cases h

/-- The point or the exponent behind an integer is neither a digit nor an `o`. -/
theorem head_after_integer {fraction : Option JsString} {exponent : Option Exponent}
    (hexponent : ∀ part ∈ exponent, part.indicator ∈ units "eE") :
    ∀ c ∈ ((fraction.elim [] fun digits => 46 :: digits) ++ exponent.elim [] Exponent.text).head?,
      isDigit 8 c = false ∧ c ≠ 111 := by
  intro c hc
  cases fraction with
  | some digits =>
    cases hc
    decide
  | none =>
    cases exponent with
    | none => cases hc
    | some part =>
      have hmem := hexponent part rfl
      cases hc
      have hall : ∀ c ∈ units "eE", isDigit 8 c = false ∧ c ≠ 111 := by decide
      exact hall _ hmem

theorem modeFromLiteral_decimal {integer : JsString} {fraction : Option JsString} {exponent : Option Exponent}
    (h : (NumericLiteral.decimal integer fraction exponent).WellFormed)
    (hvalue : value = (NumericLiteral.decimal integer fraction exponent).value doubles) :
    modeFromLiteral doubles (.number value) (some (NumericLiteral.decimal integer fraction exponent).text) =
      .number ((NumericLiteral.decimal integer fraction exponent).read doubles) := by
  obtain ⟨hinteger, -, -, hexponent⟩ := h
  have hafter := @head_after_integer fraction exponent fun part hpart => (hexponent part hpart).1
  rcases hinteger with ⟨rfl, digits, rfl, -⟩ | rfl | ⟨first, hfirst, hdigit, hne⟩ | ⟨hzero, hall, c, hmem, hc⟩
  · rw [modeFromLiteral_of_ne (by simp [NumericLiteral.text]), hvalue]
    rfl
  · have htext : (NumericLiteral.decimal [48] fraction exponent).text =
        48 :: ((fraction.elim [] fun digits => 46 :: digits) ++ exponent.elim [] Exponent.text) := by
      simp [NumericLiteral.text]
    rw [htext, modeFromLiteral_of_zero, not_isDigit_of_head fun c hc => (hafter c hc).1, round_numeral_zero]
    · rfl
    · intro ho
      exact (hafter 111 ho).2 rfl
  · obtain ⟨tail, rfl⟩ : ∃ tail, integer = first :: tail := by
      cases integer with
      | nil => cases hfirst
      | cons a tail =>
        cases hfirst
        exact ⟨tail, rfl⟩
    rw [modeFromLiteral_of_ne (by simpa [NumericLiteral.text] using hne), hvalue]
    have hcut : (NumericLiteral.decimal (first :: tail) fraction exponent).isCutOff = false := by
      simp [NumericLiteral.isCutOff, hne]
    have hnone : (NumericLiteral.decimal (first :: tail) fraction exponent).octalPrefix = none := by
      simp [NumericLiteral.octalPrefix, hne]
    rw [NumericLiteral.read, hcut, if_neg Bool.false_ne_true, NumericLiteral.octalReading, hnone]
  · obtain ⟨tail, rfl⟩ : ∃ tail, integer = 48 :: tail := by
      cases integer with
      | nil => cases hzero
      | cons a tail =>
        cases hzero
        exact ⟨tail, rfl⟩
    have hctail : c ∈ tail := by
      rcases List.mem_cons.mp hmem with rfl | hctail
      · cases hc
      · exact hctail
    obtain ⟨second, others, rfl⟩ := List.exists_cons_of_ne_nil (List.ne_nil_of_mem hctail)
    have hshort : ((48 :: second :: others).takeWhile (isDigit 8)).length ≠ (48 :: second :: others).length := by
      intro hlength
      have hwhole := (List.takeWhile_prefix (isDigit 8)).eq_of_length hlength
      have htrue := List.takeWhile_eq_self_iff.mp hwhole c hmem
      rw [hc] at htrue
      cases htrue
    have htext : (NumericLiteral.decimal (48 :: second :: others) fraction exponent).text = 48 :: (second :: others ++
        ((fraction.elim [] fun digits => 46 :: digits) ++ exponent.elim [] Exponent.text)) := by
      simp [NumericLiteral.text]
    rw [htext, modeFromLiteral_of_zero, ← List.cons_append, List.takeWhile_append, if_neg hshort]
    · rfl
    · intro ho
      exact ne_of_isDigit (hall second (by simp)) (Option.some.inj ho)

theorem numeral_zero_cons {radix : ℕ} {digits : JsString} : numeral radix (48 :: digits) = numeral radix digits := by
  simp [numeral, Regex.digit?]

theorem modeFromLiteral_numeric {literal : NumericLiteral} (h : literal.WellFormed)
    (hvalue : (∀ digits, literal ≠ .legacyOctal digits) → value = literal.value doubles) :
    modeFromLiteral doubles (.number value) (some literal.text) = .number (literal.read doubles) := by
  cases literal with
  | decimal integer fraction exponent => exact modeFromLiteral_decimal h (hvalue nofun)
  | legacyOctal digits =>
    obtain ⟨hne, hall⟩ := h
    have htake : (48 :: digits).takeWhile (isDigit 8) = 48 :: digits :=
      List.takeWhile_eq_self_iff.mpr (List.forall_mem_cons.mpr ⟨by decide, hall⟩)
    rw [NumericLiteral.text, modeFromLiteral_of_zero, htake, numeral_zero_cons]
    · rfl
    · intro ho
      cases digits with
      | nil => cases ho
      | cons c digits =>
        cases ho
        exact absurd (hall 111 List.mem_cons_self) (by decide)
  | prefixed letter digits =>
    by_cases ho : letter = 111
    · subst ho
      rw [hvalue nofun]
      rfl
    · have hletter : isDigit 8 letter = false := by
        have hall : ∀ c ∈ units "bBoOxX", isDigit 8 c = false := by decide
        exact hall letter h.1
      have hcut : (NumericLiteral.prefixed letter digits).isCutOff = true := by simp [NumericLiteral.isCutOff, ho]
      rw [NumericLiteral.text, modeFromLiteral_of_zero (by simpa using ho), not_isDigit_of_head (by simpa using hletter),
        round_numeral_zero, NumericLiteral.read, if_pos hcut]

theorem parseOctal_digits {digits : JsString} (hne : digits ≠ []) (h : ∀ c ∈ digits, isDigit 8 c = true) :
    parseOctal doubles digits = doubles.round (numeral 8 digits) := by
  rw [parseOctal, Regex.parseInt_digits (Or.inl rfl) h hne]
  rfl

end Literals

/-! ### Mode expressions -/

/-- An expression with the variables replaced by what is written to them. -/
inductive Expression (Node : Type)
  | numeric (literal : NumericLiteral)
  | octal (digits : JsString)
  | constant (value : ℕ)
  | written (usage : Node) (expression : Expression Node)
  | or (left right : Expression Node)

namespace Expression

/-- The number that is denoted, when the numeric literals mean this. -/
def value (doubles : Doubles) (meaning : NumericLiteral → Number) : Expression Node → Number
  | numeric literal => meaning literal
  | octal digits => doubles.round (numeral 8 digits)
  | constant value => .finite value
  | written _ expression => expression.value doubles meaning
  | or left right => bitwiseOr (left.value doubles meaning).toInt32 (right.value doubles meaning).toInt32

/-- The operands of the disjunctions are not zero. -/
def NonZeroOperands (doubles : Doubles) (meaning : NumericLiteral → Number) : Expression Node → Prop
  | written _ expression => expression.NonZeroOperands doubles meaning
  | or left right =>
    left.NonZeroOperands doubles meaning ∧ right.NonZeroOperands doubles meaning ∧
      (left.value doubles meaning).toBoolean ∧ (right.value doubles meaning).toBoolean
  | _ => True

def literals : Expression Node → List NumericLiteral
  | numeric literal => [literal]
  | written _ expression => expression.literals
  | or left right => left.literals ++ right.literals
  | _ => []

/-- The written expressions that are followed. -/
def usages : Expression Node → List Node
  | written usage expression => usage :: expression.usages
  | or left right => left.usages ++ right.usages
  | _ => []

/-- When the mode is the number that is denoted. -/
structure ReadRight (doubles : Doubles) (expression : Expression Node) : Prop where
  cutOff : ∀ literal ∈ expression.literals, literal.isCutOff → literal.value doubles = .finite 0
  octalPrefix : expression.value doubles (NumericLiteral.octalReading doubles) =
    expression.value doubles (NumericLiteral.value doubles)
  operands : expression.NonZeroOperands doubles (NumericLiteral.octalReading doubles)
  usages : expression.usages.Nodup

/-- The mode and the visited nodes, after the visited ones in front. -/
def mode (doubles : Doubles) : Expression Node → List Node → Mode × List Node
  | numeric literal, visited => (.number (literal.read doubles), visited)
  | octal digits, visited => (.number (doubles.round (numeral 8 digits)), visited)
  | constant value, visited => (.number (.finite value), visited)
  | written usage expression, visited =>
    if usage ∈ visited then (.null, visited) else expression.mode doubles (usage :: visited)
  | or left right, visited =>
    let (leftValue, visited) := left.mode doubles visited
    let (rightValue, visited) := right.mode doubles visited
    if leftValue.toBoolean && rightValue.toBoolean then
      (.number (bitwiseOr leftValue.toInt32 rightValue.toInt32), visited)
    else (.null, visited)

end Expression

/-- A mode expression without cyclic definitions. The value of a legacy octal literal is not what it denotes. -/
inductive Expands (doubles : Doubles) (program : Program Node) : Node → Expression Node → Prop
  | numeric {node : Node} {literal : NumericLiteral} {value : Number}
      (hnode : program.syntaxOf node = .Literal (.number value) (some literal.text)) (h : literal.WellFormed)
      (hvalue : (∀ digits, literal ≠ .legacyOctal digits) → value = literal.value doubles) :
      Expands doubles program node (.numeric literal)
  | octal {node : Node} {digits : JsString} {raw : Option JsString}
      (hnode : program.syntaxOf node = .Literal (.string digits) raw) (hne : digits ≠ [])
      (h : ∀ c ∈ digits, isDigit 8 c = true) : Expands doubles program node (.octal digits)
  | constant {node object property : Node} {name : String} {value : ℕ}
      (hnode : program.syntaxOf node = .MemberExpression object property)
      (hobject : isMemberExpression program object "fs" "constants" = true)
      (hproperty : program.syntaxOf property = .Identifier name) (h : FS_CONST.lookup name = some value) :
      Expands doubles program node (.constant value)
  | written {node usage : Node} {name : String} {expression : Expression Node}
      (hnode : program.syntaxOf node = .Identifier name) (husage : getUniqueWriteUsage program name node = some usage)
      (h : Expands doubles program usage expression) : Expands doubles program node (.written usage expression)
  | or {node left right : Node} {leftExpression rightExpression : Expression Node}
      (hnode : program.syntaxOf node = .BinaryExpression left "|" right)
      (hleft : Expands doubles program left leftExpression) (hright : Expands doubles program right rightExpression) :
      Expands doubles program node (.or leftExpression rightExpression)

/-! ### What the rule computes -/

section Runs

variable {doubles : Doubles} {program : Program Node} {node : Node} {visited : List Node} {expression : Expression Node}
  {fuel fuel' : ℕ} {result : Mode × List Node}

theorem modeFromExpression_mono (hle : fuel ≤ fuel') {expr : Option Node}
    (h : modeFromExpression doubles program fuel expr visited = some result) :
    modeFromExpression doubles program fuel' expr visited = some result := by
  induction fuel generalizing fuel' expr visited result with
  | zero => cases h
  | succ fuel ih =>
    obtain ⟨fuel', rfl⟩ : ∃ k, fuel' = k + 1 := ⟨fuel' - 1, by omega⟩
    cases expr with
    | none => exact h
    | some node =>
      rw [modeFromExpression] at h ⊢
      cases hnode : program.syntaxOf node with
      | MemberExpression object property => simpa only [hnode] using h
      | Literal value raw => simpa only [hnode] using h
      | other => simpa only [hnode] using h
      | Identifier name =>
        simp only [hnode] at h ⊢
        cases husage : getUniqueWriteUsage program name node with
        | none => simpa only [husage] using h
        | some usage =>
          simp only [husage] at h ⊢
          split_ifs at h ⊢ with hmem
          · exact h
          · exact ih (by omega) h
      | BinaryExpression left operator right =>
        simp only [hnode] at h ⊢
        split_ifs at h ⊢ with hoperator
        · cases hleft : modeFromExpression doubles program fuel (some left) visited with
          | none =>
            rw [hleft] at h
            cases h
          | some leftResult =>
            rw [hleft] at h
            rw [ih (by omega) hleft]
            obtain ⟨leftValue, visited⟩ := leftResult
            dsimp only at h ⊢
            cases hright : modeFromExpression doubles program fuel (some right) visited with
            | none =>
              rw [hright] at h
              cases h
            | some rightResult =>
              rw [hright] at h
              rw [ih (by omega) hright]
              exact h
        · exact h

/-- One turn for a disjunction. -/
theorem modeFromExpression_or {left right : Node} {leftResult rightResult : Mode × List Node}
    (hnode : program.syntaxOf node = .BinaryExpression left "|" right)
    (hleft : modeFromExpression doubles program fuel (some left) visited = some leftResult)
    (hright : modeFromExpression doubles program fuel (some right) leftResult.2 = some rightResult) :
    modeFromExpression doubles program (fuel + 1) (some node) visited = some
      (if leftResult.1.toBoolean && rightResult.1.toBoolean then
        (.number (bitwiseOr leftResult.1.toInt32 rightResult.1.toInt32), rightResult.2)
      else (.null, rightResult.2)) := by
  rw [modeFromExpression]
  simp only [hnode, if_pos, hleft, hright]
  split_ifs <;> rfl

theorem exists_mode (h : Expands doubles program node expression) (visited : List Node) :
    ∃ fuel, modeFromExpression doubles program fuel (some node) visited = some (expression.mode doubles visited) := by
  induction h generalizing visited with
  | numeric hnode h hvalue =>
    refine ⟨1, ?_⟩
    rw [modeFromExpression]
    simp only [hnode, modeFromLiteral_numeric h hvalue, Expression.mode]
  | octal hnode hne h =>
    refine ⟨1, ?_⟩
    rw [modeFromExpression]
    simp only [hnode, modeFromLiteral, parseOctal_digits hne h, Expression.mode]
  | constant hnode hobject hproperty h =>
    refine ⟨1, ?_⟩
    rw [modeFromExpression]
    simp only [hnode, modeFromMemberExpression, hobject, hproperty, h, Expression.mode]
  | written hnode husage h ih =>
    rename_i node usage name expression
    obtain ⟨fuel, hfuel⟩ := ih (usage :: visited)
    refine ⟨fuel + 1, ?_⟩
    rw [modeFromExpression, Expression.mode]
    simp only [hnode, husage, hfuel]
    split_ifs <;> rfl
  | or hnode hleft hright ihleft ihright =>
    rename_i node left right leftExpression rightExpression
    obtain ⟨fuelLeft, hfuelLeft⟩ := ihleft visited
    obtain ⟨fuelRight, hfuelRight⟩ := ihright (leftExpression.mode doubles visited).2
    refine ⟨max fuelLeft fuelRight + 1, ?_⟩
    rw [modeFromExpression_or hnode (modeFromExpression_mono (le_max_left _ _) hfuelLeft)
      (modeFromExpression_mono (le_max_right _ _) hfuelRight)]
    rfl

end Runs

section Modes

variable {doubles : Doubles} {expression : Expression Node} {visited : List Node} {n : Number} {literal : NumericLiteral}
  {meaning meaning' : NumericLiteral → Number}

open Expression

theorem mode_of_fresh (hoperands : expression.NonZeroOperands doubles (NumericLiteral.read doubles))
    (hnodup : expression.usages.Nodup) (hfresh : ∀ usage ∈ expression.usages, usage ∉ visited) :
    expression.mode doubles visited =
      (.number (expression.value doubles (NumericLiteral.read doubles)), expression.usages.reverse ++ visited) := by
  induction expression generalizing visited with
  | numeric literal => rfl
  | octal digits => rfl
  | constant value => rfl
  | written usage expression ih =>
    rw [usages, List.nodup_cons] at hnodup
    rw [usages, List.forall_mem_cons] at hfresh
    have hfresh' : ∀ other ∈ expression.usages, other ∉ usage :: visited := by
      intro other hother hmem
      rcases List.mem_cons.mp hmem with rfl | hmem
      · exact hnodup.1 hother
      · exact hfresh.2 other hother hmem
    rw [mode, if_neg hfresh.1, ih hoperands hnodup.2 hfresh', usages, List.reverse_cons, List.append_assoc]
    rfl
  | or left right ihleft ihright =>
    obtain ⟨hleft, hright, hleftValue, hrightValue⟩ := hoperands
    rw [usages, List.nodup_append] at hnodup
    rw [usages, List.forall_mem_append] at hfresh
    have hfresh' : ∀ usage ∈ right.usages, usage ∉ left.usages.reverse ++ visited := by
      intro usage husage hmem
      rcases List.mem_append.mp hmem with hmem | hmem
      · exact hnodup.2.2 usage (List.mem_reverse.mp hmem) usage husage rfl
      · exact hfresh.2 usage husage hmem
    rw [mode, ihleft hleft hnodup.1 hfresh.1]
    dsimp only
    rw [ihright hright hnodup.2.1 hfresh']
    simp only [Mode.toBoolean, hleftValue, hrightValue, Bool.and_self, if_true, usages, List.reverse_append,
      List.append_assoc]
    rfl

theorem mode_eq_null_or : (expression.mode doubles visited).1 = .null ∨
    ∃ n, (expression.mode doubles visited).1 = .number n := by
  induction expression generalizing visited with
  | numeric literal => exact Or.inr ⟨_, rfl⟩
  | octal digits => exact Or.inr ⟨_, rfl⟩
  | constant value => exact Or.inr ⟨_, rfl⟩
  | written usage expression ih =>
    rw [mode]
    split_ifs
    · exact Or.inl rfl
    · exact ih
  | or left right ihleft ihright =>
    rw [mode]
    dsimp only
    split_ifs
    · exact Or.inr ⟨_, rfl⟩
    · exact Or.inl rfl

theorem number_of_toBoolean (h : (expression.mode doubles visited).1.toBoolean = true) :
    ∃ n, (expression.mode doubles visited).1 = .number n := by
  rcases @mode_eq_null_or Node _ doubles expression visited with hnull | hnumber
  · rw [hnull] at h
    cases h
  · exact hnumber

theorem fresh_of_mode (h : (expression.mode doubles visited).1 = .number n) :
    expression.NonZeroOperands doubles (NumericLiteral.read doubles) ∧ expression.usages.Nodup ∧
      ∀ usage ∈ expression.usages, usage ∉ visited := by
  induction expression generalizing visited n with
  | numeric literal => exact ⟨trivial, List.nodup_nil, nofun⟩
  | octal digits => exact ⟨trivial, List.nodup_nil, nofun⟩
  | constant value => exact ⟨trivial, List.nodup_nil, nofun⟩
  | written usage expression ih =>
    rw [mode] at h
    split_ifs at h with hmem
    obtain ⟨hoperands, hnodup, hfresh⟩ := ih h
    refine ⟨hoperands, List.nodup_cons.mpr ⟨fun husage => ?_, hnodup⟩, List.forall_mem_cons.mpr ⟨hmem, ?_⟩⟩
    · exact hfresh usage husage List.mem_cons_self
    · exact fun other hother hvisited => hfresh other hother (List.mem_cons_of_mem _ hvisited)
  | or left right ihleft ihright =>
    rw [mode] at h
    dsimp only at h
    split_ifs at h with htrue
    obtain ⟨hleftTrue, hrightTrue⟩ := Bool.and_eq_true_iff.mp htrue
    obtain ⟨nleft, hnleft⟩ := number_of_toBoolean hleftTrue
    obtain ⟨nright, hnright⟩ := number_of_toBoolean hrightTrue
    obtain ⟨hleft, hleftNodup, hleftFresh⟩ := ihleft hnleft
    obtain ⟨hright, hrightNodup, hrightFresh⟩ := ihright hnright
    have hleftMode := mode_of_fresh hleft hleftNodup hleftFresh
    have hrightMode := mode_of_fresh hright hrightNodup hrightFresh
    rw [hrightMode] at hrightTrue
    rw [hleftMode] at hleftTrue hrightFresh
    refine ⟨⟨hleft, hright, hleftTrue, hrightTrue⟩, List.nodup_append.mpr ⟨hleftNodup, hrightNodup, ?_⟩,
      List.forall_mem_append.mpr ⟨hleftFresh, ?_⟩⟩
    · rintro usage husage _ hother rfl
      exact hrightFresh usage hother (List.mem_append_left _ (List.mem_reverse.mpr husage))
    · exact fun usage husage hvisited => hrightFresh usage husage (List.mem_append_right _ hvisited)

theorem mode_eq_iff : (expression.mode doubles []).1 = .number n ↔
    expression.NonZeroOperands doubles (NumericLiteral.read doubles) ∧ expression.usages.Nodup ∧
      expression.value doubles (NumericLiteral.read doubles) = n := by
  constructor
  · intro h
    obtain ⟨hoperands, hnodup, hfresh⟩ := fresh_of_mode h
    rw [mode_of_fresh hoperands hnodup hfresh] at h
    exact ⟨hoperands, hnodup, Mode.number.inj h⟩
  · rintro ⟨hoperands, hnodup, rfl⟩
    rw [mode_of_fresh hoperands hnodup fun _ _ => List.not_mem_nil]

/-! ### The literals of an expression -/

omit [DecidableEq Node]

theorem value_congr (h : ∀ literal ∈ expression.literals, meaning literal = meaning' literal) :
    expression.value doubles meaning = expression.value doubles meaning' := by
  induction expression with
  | numeric literal => exact h literal List.mem_cons_self
  | octal digits => rfl
  | constant value => rfl
  | written usage expression ih => exact ih h
  | or left right ihleft ihright =>
    obtain ⟨hleft, hright⟩ := List.forall_mem_append.mp h
    rw [value, value, ihleft hleft, ihright hright]

theorem nonZeroOperands_congr (h : ∀ literal ∈ expression.literals, meaning literal = meaning' literal) :
    expression.NonZeroOperands doubles meaning ↔ expression.NonZeroOperands doubles meaning' := by
  induction expression with
  | numeric literal => rfl
  | octal digits => rfl
  | constant value => rfl
  | written usage expression ih => exact ih h
  | or left right ihleft ihright =>
    obtain ⟨hleft, hright⟩ := List.forall_mem_append.mp h
    rw [NonZeroOperands, NonZeroOperands, ihleft hleft, ihright hright, value_congr hleft, value_congr hright]

/-- A literal that is cut off is read as zero, which is not an operand. -/
theorem value_of_cutOff (hoperands : expression.NonZeroOperands doubles (NumericLiteral.read doubles))
    (hmem : literal ∈ expression.literals) (hcut : literal.isCutOff = true) :
    expression.value doubles meaning = meaning literal := by
  have hread : (literal.read doubles).toBoolean = false := by
    rw [NumericLiteral.read, if_pos hcut]
    rfl
  induction expression generalizing meaning with
  | numeric literal' =>
    obtain rfl := List.mem_singleton.mp hmem
    rfl
  | octal digits => cases hmem
  | constant value => cases hmem
  | written usage expression ih => exact ih hoperands hmem
  | or left right ihleft ihright =>
    obtain ⟨hleft, hright, hleftValue, hrightValue⟩ := hoperands
    rcases List.mem_append.mp hmem with hmem | hmem
    · rw [ihleft hleft hmem, hread] at hleftValue
      cases hleftValue
    · rw [ihright hright hmem, hread] at hrightValue
      cases hrightValue

theorem readRight_iff : expression.ReadRight doubles ↔
    expression.NonZeroOperands doubles (NumericLiteral.read doubles) ∧ expression.usages.Nodup ∧
      expression.value doubles (NumericLiteral.read doubles) =
        expression.value doubles (NumericLiteral.value doubles) := by
  have hsame (hcutOff : ∀ literal ∈ expression.literals, literal.isCutOff → literal.value doubles = .finite 0) :
      ∀ literal ∈ expression.literals, literal.read doubles = literal.octalReading doubles := by
    intro literal hmem
    by_cases hcut : literal.isCutOff = true
    · have hnone : literal.octalPrefix = none := by
        cases literal with
        | decimal integer fraction exponent =>
          rw [NumericLiteral.octalPrefix, if_neg]
          exact fun h => h.2 (of_decide_eq_true hcut)
        | legacyOctal digits => rfl
        | prefixed letter digits => rfl
      rw [NumericLiteral.read, if_pos hcut, NumericLiteral.octalReading, hnone, ← hcutOff literal hmem hcut]
    · rw [NumericLiteral.read, if_neg hcut]
  constructor
  · rintro ⟨hcutOff, hvalue, hoperands, hnodup⟩
    exact ⟨(nonZeroOperands_congr (hsame hcutOff)).mpr hoperands, hnodup, (value_congr (hsame hcutOff)).trans hvalue⟩
  · rintro ⟨hoperands, hnodup, hvalue⟩
    have hcutOff : ∀ literal ∈ expression.literals, literal.isCutOff → literal.value doubles = .finite 0 := by
      intro literal hmem hcut
      rw [value_of_cutOff hoperands hmem hcut, value_of_cutOff hoperands hmem hcut, NumericLiteral.read,
        if_pos hcut] at hvalue
      exact hvalue.symm
    exact ⟨hcutOff, (value_congr (hsame hcutOff)).symm.trans hvalue,
      (nonZeroOperands_congr (hsame hcutOff)).mp hoperands, hnodup⟩

end Modes

/-! ### The rule ends -/

section Termination

variable [Finite Node] {doubles : Doubles} {program : Program Node} {node : Node} {visited visited' : List Node}

/-- How many expressions can still be followed. -/
noncomputable def unvisited (visited : List Node) : ℕ := {node | node ∉ visited}.ncard

omit [DecidableEq Node] in
theorem unvisited_le (h : visited ⊆ visited') : unvisited visited' ≤ unvisited visited :=
  Set.ncard_le_ncard (fun _ hnode hmem => hnode (h hmem)) (Set.toFinite _)

omit [DecidableEq Node] in
theorem unvisited_cons_lt {usage : Node} (h : usage ∉ visited) : unvisited (usage :: visited) < unvisited visited := by
  refine Set.ncard_lt_ncard ⟨fun _ hnode hmem => hnode (List.mem_cons_of_mem _ hmem), fun hsub => ?_⟩ (Set.toFinite _)
  exact hsub (show usage ∈ {node : Node | node ∉ visited} from h) List.mem_cons_self

/-- The turn from an identifier leaves fewer expressions to follow, and operands are lower in the tree. -/
theorem exists_result (node : Node) (visited : List Node) : ∃ fuel result,
    modeFromExpression doubles program fuel (some node) visited = some result ∧ visited ⊆ result.2 := by
  induction hcount : unvisited visited using Nat.strongRecOn generalizing node visited with
  | _ count ihcount =>
    subst hcount
    induction hheight : program.height node using Nat.strongRecOn generalizing node visited with
    | _ height ihheight =>
      subst hheight
      -- an operand, after some more visits
      have hoperand {operand : Node} (hlower : program.height operand < program.height node) (visited' : List Node)
          (hsub : visited ⊆ visited') : ∃ fuel result,
            modeFromExpression doubles program fuel (some operand) visited' = some result ∧ visited' ⊆ result.2 := by
        rcases (unvisited_le hsub).lt_or_eq with hless | heq
        · exact ihcount _ hless operand visited' rfl
        · exact ihheight _ hlower operand visited' (fun count hless => ihcount count (heq ▸ hless)) rfl
      have hleaf (mode : Mode) (h : modeFromExpression doubles program 1 (some node) visited = some (mode, visited)) :
          ∃ fuel result, modeFromExpression doubles program fuel (some node) visited = some result ∧ visited ⊆ result.2 :=
        ⟨1, (mode, visited), h, List.Subset.refl _⟩
      cases hnode : program.syntaxOf node with
      | MemberExpression object property =>
        refine hleaf (modeFromMemberExpression program object property) ?_
        rw [modeFromExpression]
        simp only [hnode]
      | Literal value raw =>
        refine hleaf (modeFromLiteral doubles value raw) ?_
        rw [modeFromExpression]
        simp only [hnode]
      | other =>
        refine hleaf .null ?_
        rw [modeFromExpression]
        simp only [hnode]
      | Identifier name =>
        cases husage : getUniqueWriteUsage program name node with
        | none =>
          refine hleaf .null ?_
          rw [modeFromExpression]
          simp only [hnode, husage]
        | some usage =>
          by_cases hmem : usage ∈ visited
          · refine hleaf .null ?_
            rw [modeFromExpression]
            simp only [hnode, husage, if_pos hmem]
          · obtain ⟨fuel, result, hresult, hsub⟩ := ihcount _ (unvisited_cons_lt hmem) usage _ rfl
            refine ⟨fuel + 1, result, ?_, fun other hother => hsub (List.mem_cons_of_mem _ hother)⟩
            rw [modeFromExpression]
            simp only [hnode, husage, if_neg hmem, hresult]
      | BinaryExpression left operator right =>
        by_cases hoperator : operator = "|"
        · subst hoperator
          obtain ⟨fuelLeft, leftResult, hleft, hsubLeft⟩ :=
            hoperand (program.height_left hnode) visited (List.Subset.refl _)
          obtain ⟨fuelRight, rightResult, hright, hsubRight⟩ :=
            hoperand (program.height_right hnode) leftResult.2 hsubLeft
          refine ⟨max fuelLeft fuelRight + 1, _, modeFromExpression_or hnode
            (modeFromExpression_mono (le_max_left _ _) hleft) (modeFromExpression_mono (le_max_right _ _) hright), ?_⟩
          split_ifs
          · exact List.Subset.trans hsubLeft hsubRight
          · exact List.Subset.trans hsubLeft hsubRight
        · refine hleaf .null ?_
          rw [modeFromExpression]
          simp only [hnode, if_neg hoperator]

end Termination

/-! ### The mode that is denoted -/

/-- The evaluation gives this number, and the decision is the one for the number. -/
def Evaluates (doubles : Doubles) (program : Program Node) (node : Node) (n : Number) : Prop :=
  ∃ fuel, (∃ visited, modeFromExpression doubles program fuel (some node) [] = some (.number n, visited)) ∧
    ∀ moduloTest, checkModeArgument doubles program fuel (some node) moduloTest = some (isSensitive n moduloTest)

/-- The evaluation ends, whatever refers to what. It gives the number that the expression denotes if and only if what is
cut off is zero, what is cut off before an eight or a nine makes no difference, no operand is zero, and no written
expression is followed twice. -/
theorem evaluates_iff [Finite Node] (doubles : Doubles) (program : Program Node) :
    (∀ expr, ∃ fuel, (modeFromExpression doubles program fuel expr []).isSome) ∧
    ∀ node expression, Expands doubles program node expression →
      (Evaluates doubles program node (expression.value doubles (NumericLiteral.value doubles)) ↔
        expression.ReadRight doubles) := by
  constructor
  · intro expr
    cases expr with
    | none => exact ⟨1, rfl⟩
    | some node =>
      obtain ⟨fuel, result, hresult, -⟩ := @exists_result Node _ _ doubles program node []
      exact ⟨fuel, by rw [hresult]; rfl⟩
  · intro node expression hexpands
    obtain ⟨fuel, hfuel⟩ := exists_mode hexpands []
    rw [readRight_iff, ← mode_eq_iff]
    constructor
    · rintro ⟨fuel', ⟨visited, hmode⟩, -⟩
      have hmax := modeFromExpression_mono (le_max_left fuel fuel') hfuel
      rw [modeFromExpression_mono (le_max_right fuel fuel') hmode] at hmax
      exact congrArg Prod.fst (Option.some.inj hmax).symm
    · intro hmode
      have hresult : modeFromExpression doubles program fuel (some node) [] =
          some (.number (expression.value doubles (NumericLiteral.value doubles)), (expression.mode doubles []).2) := by
        rw [hfuel, ← hmode]
      refine ⟨fuel, ⟨_, hresult⟩, fun moduloTest => ?_⟩
      rw [checkModeArgument, hresult]
      rfl

/-! ### A constant and a hexadecimal literal -/

/-- Without rounding. -/
def exactDoubles : Doubles := ⟨.finite, rfl⟩

/-- The nodes of `const mode = fs.constants.S_IRWXU | 0o7; fs.chmod(path, mode)` that are evaluated. -/
inductive ExampleNode
  | useOfMode | disjunction | S_IRWXU | literal | fsConstants | fs | constants | property
  deriving DecidableEq

namespace ExampleNode

def program : Program ExampleNode where
  syntaxOf
    | useOfMode => .Identifier "mode"
    | disjunction => .BinaryExpression S_IRWXU "|" literal
    | S_IRWXU => .MemberExpression fsConstants property
    | literal => .Literal (.number (.finite 7)) (some (units "0o7"))
    | fsConstants => .MemberExpression fs constants
    | fs => .Identifier "fs"
    | constants => .Identifier "constants"
    | property => .Identifier "S_IRWXU"
  getScope _ := .global [⟨"mode", [⟨true, some disjunction⟩, ⟨false, none⟩]⟩]
  height
    | disjunction => 1
    | _ => 0
  height_left := by
    intro node left operator right h
    cases node <;> cases h
    exact Nat.one_pos
  height_right := by
    intro node left operator right h
    cases node <;> cases h
    exact Nat.one_pos

instance : Finite ExampleNode :=
  Finite.of_injective (fun node => match node with
    | useOfMode => (0 : Fin 8) | disjunction => 1 | S_IRWXU => 2 | literal => 3 | fsConstants => 4 | fs => 5
    | constants => 6 | property => 7)
    (by rintro (_ | _) (_ | _) h <;> first | rfl | cases h)

end ExampleNode

theorem evaluates_disjunction : Evaluates exactDoubles ExampleNode.program .useOfMode (.finite 0o707) := by
  have hexpands : Expands exactDoubles ExampleNode.program .useOfMode
      (.written .disjunction (.or (.constant 0o700) (.numeric (.prefixed 111 [55])))) :=
    .written rfl rfl (.or rfl (.constant rfl rfl rfl rfl)
      (.numeric rfl ⟨by decide, by decide, by decide⟩ fun _ => by decide))
  exact ((evaluates_iff exactDoubles ExampleNode.program).2 _ _ hexpands).mpr
    ⟨by decide, by decide, ⟨trivial, trivial, by decide, by decide⟩, by decide⟩

/-- `0x1ff` gives everyone all permissions, and is evaluated to zero. -/
theorem hexadecimal_not_evaluated :
    ¬ ∀ (Node : Type) (_ : DecidableEq Node) (_ : Finite Node) (doubles : Doubles) (program : Program Node)
      (node : Node) (expression : Expression Node), Expands doubles program node expression →
      Evaluates doubles program node (expression.value doubles (NumericLiteral.value doubles)) := by
  intro h
  let program : Program Unit := {
    syntaxOf _ := .Literal (.number (.finite 0x1ff)) (some (units "0x1ff"))
    getScope _ := .global []
    height _ := 0
    height_left := nofun
    height_right := nofun }
  have hexpands : Expands exactDoubles program () (.numeric (.prefixed 120 (units "1ff"))) :=
    .numeric rfl ⟨by decide, by decide, by decide⟩ fun _ => by decide
  obtain ⟨fuel, ⟨visited, hmode⟩, -⟩ := h Unit inferInstance inferInstance exactDoubles program () _ hexpands
  cases fuel with
  | zero => cases hmode
  | succ fuel =>
    have hzero : modeFromExpression exactDoubles program (fuel + 1) (some ()) [] = some (.number (.finite 0), []) := rfl
    rw [hzero] at hmode
    have hvalue := Mode.number.inj (Prod.mk.inj (Option.some.inj hmode)).1
    exact absurd hvalue (by decide)

end SonarJavascript.Rules.FilePermissions
