import Mathlib.Data.List.Basic
import Mathlib.Data.Rat.Defs

/-!
# Expressions of calc()

S5362 goes through the levels of parentheses of each `calc()`. `malformed_mem_reports_iff`: it reports a malformed
expression if and only if, on some level, one of the second, fourth, ... siblings is no operator. An operator that has
no operand is not looked for.
-/

namespace SonarJavascript.Css.CalcExpression

/-! ### Values -/

abbrev Text := List Char

/-- The nodes of `postcss-value-parser`. A parenthesis is a function without a name, and a separator (`/`, `,` or `:`)
is a `div`. -/
inductive Node
  | word (value : Text)
  | string (value : Text)
  | div (value : Text)
  | space (value : Text)
  | comment (value : Text)
  | unicodeRange (value : Text)
  | function (value : Text) (nodes : List Node)

inductive Message
  | empty
  | malformed
  | divByZero
  deriving DecidableEq

def operators : List Text := [['+'], ['-'], ['*'], ['/']]

def isCalcFunction : Node → Bool
  | .function value _ => value.map Char.toLower = "calc".toList
  | _ => false

def isSpaceOrComment : Node → Bool
  | .space _ | .comment _ => true
  | _ => false

def isOperator : Node → Bool
  | .word value => operators.contains value
  | .div _ => true
  | _ => false

def isDivision : Node → Bool
  | .word value | .div value => value = ['/']
  | _ => false

/-- The digits in front, as a number after `value`, and the rest. -/
def readDigits (value : ℕ) : Text → ℕ × Text
  | [] => (value, [])
  | c :: text => if c.isDigit then readDigits (10 * value + (c.toNat - '0'.toNat)) text else (value, c :: text)

def readSign : Text → Bool × Text
  | '-' :: text => (true, text)
  | '+' :: text => (false, text)
  | text => (false, text)

/-- The exponent, which counts only with a digit. -/
def readExponent : Text → ℤ
  | c :: text =>
    if c = 'e' ∨ c = 'E' then
      let (isNegative, digits) := readSign text
      let (value, _) := readDigits 0 digits
      if isNegative then -value else value
    else 0
  | [] => 0

/-- The absolute value that `parseFloat` reads, before it is rounded. -/
def parseFloat (text : Text) : Option ℚ :=
  let (_, digits) := readSign text
  let (integer, rest) := readDigits 0 digits
  let fraction := match rest with
    | '.' :: fraction => fraction
    | _ => []
  let (mantissa, exponent) := readDigits integer fraction
  let length := fraction.length - exponent.length
  if digits.length = rest.length ∧ length = 0 then none
  else
    let exponent := readExponent (match rest with
      | '.' :: _ => exponent
      | _ => rest)
    some (mantissa * (10 : ℚ) ^ (exponent - length))

/-- Half of the smallest positive number is rounded to zero. -/
def isZero : Node → Bool
  | .word value =>
    match parseFloat value with
    | some number => number ≤ 1 / 2 ^ 1075
    | none => false
  | _ => false

/-! ### The checks -/

def siblingsOf (nodes : List Node) : List Node := nodes.filter fun node => !isSpaceOrComment node

/-- The nodes of a parenthesized expression, or of another function than `calc`. -/
def parenthesized : Node → Option (List Node)
  | .function value nodes => if isCalcFunction (.function value nodes) then none else some nodes
  | _ => none

theorem sizeOf_lt_of_parenthesized {nodes inner : List Node} {node : Node} (hmem : node ∈ siblingsOf nodes)
    (h : parenthesized node = some inner) : sizeOf inner < sizeOf nodes := by
  have hlt := List.sizeOf_lt_of_mem (List.mem_of_mem_filter hmem)
  cases node with
  | function value nodes =>
    rw [parenthesized] at h
    split at h
    · cases h
    · cases h
      simp at hlt
      omega
  | _ => cases h

def divisionsByZero : List Node → List Message
  | node :: operand :: siblings =>
    (if isDivision node && isZero operand then [.divByZero] else []) ++ divisionsByZero (operand :: siblings)
  | _ => []

/-- What stands second, fourth and so on has to be an operator. -/
def missingOperators : List Node → List Message
  | _ :: node :: siblings => (if isOperator node then [] else [.malformed]) ++ missingOperators siblings
  | _ => []

/-- A check of the siblings of a level, and of those in their parentheses. -/
def onLevels (check : List Node → List Message) (nodes : List Node) : List Message :=
  check (siblingsOf nodes) ++ (siblingsOf nodes).attach.flatMap fun node =>
    match _h : parenthesized node.1 with
    | some inner => onLevels check inner
    | none => []
termination_by sizeOf nodes
decreasing_by exact sizeOf_lt_of_parenthesized node.2 _h

def checkDivisionByZero (nodes : List Node) : List Message := onLevels divisionsByZero nodes

def checkMissingOperator (nodes : List Node) : List Message := onLevels missingOperators nodes

def checkEmpty (nodes : List Node) : List Message := if (siblingsOf nodes).length = 0 then [.empty] else []

mutual

/-- A node comes before those inside. -/
def visit (callback : Node → List Message) : Node → List Message
  | .function value nodes => callback (.function value nodes) ++ walk callback nodes
  | .word value => callback (.word value)
  | .string value => callback (.string value)
  | .div value => callback (.div value)
  | .space value => callback (.space value)
  | .comment value => callback (.comment value)
  | .unicodeRange value => callback (.unicodeRange value)

def walk (callback : Node → List Message) : List Node → List Message
  | [] => []
  | node :: nodes => visit callback node ++ walk callback nodes

end

def checkCalc (node : Node) : List Message :=
  match node with
  | .function _ nodes =>
    if isCalcFunction node then checkDivisionByZero nodes ++ (checkMissingOperator nodes ++ checkEmpty nodes) else []
  | _ => []

/-- What is reported for a declaration with this value. -/
def reports (nodes : List Node) : List Message := walk checkCalc nodes

/-! ### Levels -/

/-- The node is one of these, or inside. -/
inductive Occurs (node : Node) : List Node → Prop
  | here {nodes : List Node} (h : node ∈ nodes) : Occurs node nodes
  | inside {nodes inner : List Node} {value : Text} (h : .function value inner ∈ nodes) (hinner : Occurs node inner) :
      Occurs node nodes

/-- The nodes of a level that is reached through parentheses. -/
inductive Reached : List Node → List Node → Prop
  | self (nodes : List Node) : Reached nodes nodes
  | inside {nodes inner level : List Node} {node : Node} (hmem : node ∈ nodes) (h : parenthesized node = some inner)
      (hinner : Reached inner level) : Reached nodes level

theorem mem_siblingsOf {nodes inner : List Node} {node : Node} (h : parenthesized node = some inner) :
    node ∈ siblingsOf nodes ↔ node ∈ nodes := by
  have hkept : isSpaceOrComment node = false := by
    cases node with
    | function value nodes => rfl
    | _ => cases h
  simp [siblingsOf, hkept]

theorem mem_onLevels {check : List Node → List Message} {nodes : List Node} {message : Message} :
    message ∈ onLevels check nodes ↔ ∃ level, Reached nodes level ∧ message ∈ check (siblingsOf level) := by
  induction nodes using onLevels.induct with
  | case1 nodes ih =>
    rw [onLevels, List.mem_append, List.mem_flatMap]
    constructor
    · rintro (hself | ⟨⟨node, hnode⟩, -, hinner⟩)
      · exact ⟨nodes, .self nodes, hself⟩
      · split at hinner
        · next inner hparenthesized =>
          obtain ⟨level, hreached, hmessage⟩ := (ih ⟨node, hnode⟩ inner hparenthesized).mp hinner
          exact ⟨level, .inside ((mem_siblingsOf hparenthesized).mp hnode) hparenthesized hreached, hmessage⟩
        · cases hinner
    · rintro ⟨level, hreached, hmessage⟩
      cases hreached with
      | self => exact .inl hmessage
      | @inside _ inner _ node hmem hparenthesized hinner =>
        have hnode := (mem_siblingsOf hparenthesized).mpr hmem
        refine .inr ⟨⟨node, hnode⟩, List.mem_attach _ _, ?_⟩
        split
        · next inner' hinner' =>
          obtain rfl := Option.some.inj (hparenthesized.symm.trans hinner')
          exact (ih ⟨node, hnode⟩ inner hparenthesized).mpr ⟨level, hinner, hmessage⟩
        · next hnone =>
          rw [hparenthesized] at hnone
          cases hnone

theorem occurs_cons {found node : Node} {nodes : List Node} :
    Occurs found (node :: nodes) ↔ Occurs found [node] ∨ Occurs found nodes := by
  constructor
  · intro h
    cases h with
    | here h =>
      rcases List.mem_cons.mp h with rfl | h
      · exact .inl (.here List.mem_cons_self)
      · exact .inr (.here h)
    | inside h hinner =>
      rcases List.mem_cons.mp h with rfl | h
      · exact .inl (.inside List.mem_cons_self hinner)
      · exact .inr (.inside h hinner)
  · rintro (h | h)
    · cases h with
      | here h => exact .here (List.mem_singleton.mp h ▸ List.mem_cons_self)
      | inside h hinner =>
        cases List.mem_singleton.mp h
        exact .inside List.mem_cons_self hinner
    · cases h with
      | here h => exact .here (List.mem_cons_of_mem node h)
      | inside h hinner => exact .inside (List.mem_cons_of_mem node h) hinner

theorem not_occurs_nil {found : Node} : ¬ Occurs found [] := by
  rintro (h | ⟨h, -⟩) <;> cases h

theorem occurs_function {found : Node} {value : Text} {inner : List Node} :
    Occurs found [.function value inner] ↔ found = .function value inner ∨ Occurs found inner := by
  constructor
  · intro h
    cases h with
    | here h => exact .inl (List.mem_singleton.mp h)
    | inside h hinner =>
      cases List.mem_singleton.mp h
      exact .inr hinner
  · rintro (rfl | h)
    · exact .here List.mem_cons_self
    · exact .inside List.mem_cons_self h

theorem occurs_leaf {found node : Node} (hleaf : ∀ value inner, node ≠ .function value inner) :
    Occurs found [node] ↔ found = node := by
  constructor
  · intro h
    cases h with
    | here h => exact List.mem_singleton.mp h
    | inside h _ => exact absurd (List.mem_singleton.mp h).symm (hleaf _ _)
  · rintro rfl
    exact .here List.mem_cons_self

section Walk

variable {callback : Node → List Message} {message : Message}

mutual

theorem mem_visit (node : Node) :
    message ∈ visit callback node ↔ ∃ found, Occurs found [node] ∧ message ∈ callback found := by
  cases node with
  | function value inner =>
    rw [visit, List.mem_append, mem_walk inner]
    simp only [occurs_function, or_and_right, exists_or, exists_eq_left]
  | word value | string value | div value | space value | comment value | unicodeRange value =>
    rw [visit]
    simp [occurs_leaf]

theorem mem_walk (nodes : List Node) :
    message ∈ walk callback nodes ↔ ∃ found, Occurs found nodes ∧ message ∈ callback found := by
  cases nodes with
  | nil => simp [walk, not_occurs_nil]
  | cons node nodes =>
    rw [walk, List.mem_append, mem_visit node, mem_walk nodes, ← exists_or]
    simp only [← or_and_right, ← occurs_cons]

end

end Walk

theorem malformed_notMem_divisionsByZero (siblings : List Node) : Message.malformed ∉ divisionsByZero siblings := by
  induction siblings using divisionsByZero.induct with
  | case1 node operand siblings ih =>
    rw [divisionsByZero, List.mem_append, not_or]
    refine ⟨?_, ih⟩
    split <;> decide
  | case2 siblings hshort =>
    rw [divisionsByZero]
    · exact List.not_mem_nil
    · exact hshort

/-- What `calc()` calls report of the levels that are reached from them. -/
theorem malformed_mem_reports {nodes : List Node} :
    .malformed ∈ reports nodes ↔ ∃ name arguments level, Occurs (.function name arguments) nodes ∧
      isCalcFunction (.function name arguments) = true ∧ Reached arguments level ∧
      .malformed ∈ missingOperators (siblingsOf level) := by
  have hcalc : ∀ name arguments, .malformed ∈ checkCalc (.function name arguments) ↔
      isCalcFunction (.function name arguments) = true ∧
        ∃ level, Reached arguments level ∧ .malformed ∈ missingOperators (siblingsOf level) := by
    intro name arguments
    rw [checkCalc]
    split
    · next hname =>
      have hdivision : Message.malformed ∉ checkDivisionByZero arguments := by
        rw [checkDivisionByZero, mem_onLevels]
        rintro ⟨level, -, h⟩
        exact malformed_notMem_divisionsByZero _ h
      have hempty : Message.malformed ∉ checkEmpty arguments := by
        rw [checkEmpty]
        split <;> decide
      rw [List.mem_append, List.mem_append, checkMissingOperator, mem_onLevels]
      simp only [hdivision, hempty, hname, false_or, or_false, true_and]
    · next hname => simp only [hname, List.not_mem_nil, Bool.false_eq_true, false_and]
  rw [reports, mem_walk]
  constructor
  · rintro ⟨found, hoccurs, h⟩
    cases found with
    | function name arguments =>
      obtain ⟨hname, level, hreached, hmissing⟩ := (hcalc name arguments).mp h
      exact ⟨name, arguments, level, hoccurs, hname, hreached, hmissing⟩
    | _ => cases h
  · rintro ⟨name, arguments, level, hoccurs, hname, hreached, hmissing⟩
    exact ⟨_, hoccurs, (hcalc name arguments).mpr ⟨hname, level, hreached, hmissing⟩⟩

/-! ### The grammar of a level -/

/-- An operand, and more operands after operators. -/
inductive Expression : List Node → Prop
  | operand {node : Node} (h : isOperator node = false) : Expression [node]
  | cons {node operator : Node} {siblings : List Node} (hoperand : isOperator node = false)
      (hoperator : isOperator operator = true) (hrest : Expression siblings) :
      Expression (node :: operator :: siblings)

/-- Whatever stands first, third and so on is followed by an operator or by nothing. -/
inductive Separated : List Node → Prop
  | nil : Separated []
  | single (node : Node) : Separated [node]
  | cons {node operator : Node} {siblings : List Node} (hoperator : isOperator operator = true)
      (hrest : Separated siblings) : Separated (node :: operator :: siblings)

theorem Expression.separated {siblings : List Node} (h : Expression siblings) : Separated siblings := by
  induction h with
  | operand _ => exact .single _
  | cons _ hoperator _ ih => exact .cons hoperator ih

theorem malformed_mem_missingOperators (siblings : List Node) :
    .malformed ∈ missingOperators siblings ↔ ¬ Separated siblings := by
  induction siblings using missingOperators.induct with
  | case1 first node siblings ih =>
    rw [missingOperators, List.mem_append, ih]
    cases hoperator : isOperator node with
    | true =>
      have hiff : Separated (first :: node :: siblings) ↔ Separated siblings := by
        constructor
        · rintro (_ | _ | ⟨_, hrest⟩)
          exact hrest
        · exact .cons hoperator
      rw [hiff]
      simp
    | false =>
      have hnot : ¬ Separated (first :: node :: siblings) := by
        rintro (_ | _ | ⟨h, -⟩)
        rw [hoperator] at h
        cases h
      simp [hnot]
  | case2 siblings hshort =>
    have hseparated : Separated siblings := by
      match siblings, hshort with
      | [], _ => exact .nil
      | [node], _ => exact .single node
      | first :: node :: rest, hshort => exact absurd rfl (hshort first node rest)
    rw [missingOperators]
    · simp [hseparated]
    · exact hshort

/-- Reported as malformed: on some level an operator is missing. -/
theorem malformed_mem_reports_iff {nodes : List Node} :
    .malformed ∈ reports nodes ↔ ∃ name arguments level, Occurs (.function name arguments) nodes ∧
      isCalcFunction (.function name arguments) = true ∧ Reached arguments level ∧ ¬ Separated (siblingsOf level) := by
  rw [malformed_mem_reports]
  simp only [malformed_mem_missingOperators]

/-- The arguments of `calc(1 +)`. -/
def trailing : List Node := [.word ['1'], .space [' '], .word ['+']]

/-- What is no expression and is not reported. -/
theorem trailing_not_reported :
    ¬ (.malformed ∈ reports [.function "calc".toList trailing] ↔
      ∃ name arguments level, Occurs (.function name arguments) [.function "calc".toList trailing] ∧
        isCalcFunction (.function name arguments) = true ∧ Reached arguments level ∧
        siblingsOf level ≠ [] ∧ ¬ Expression (siblingsOf level)) := by
  have hsiblings : siblingsOf trailing = [.word ['1'], .word ['+']] := rfl
  intro h
  have hmalformed : ¬ Expression (siblingsOf trailing) := by
    rw [hsiblings]
    rintro (_ | ⟨_, _, hrest⟩)
    cases hrest
  have hreported := h.mpr ⟨_, trailing, trailing, .here List.mem_cons_self, rfl, .self _, by simp [hsiblings], hmalformed⟩
  obtain ⟨name, arguments, level, hoccurs, -, hreached, hmissing⟩ := malformed_mem_reports.mp hreported
  have harguments : arguments = trailing := by
    rcases occurs_function.mp hoccurs with heq | hinside
    · exact (Node.function.inj heq).2
    · cases hinside with
      | here hmem => simp [trailing] at hmem
      | inside hmem _ => simp [trailing] at hmem
  subst harguments
  cases hreached with
  | self => exact absurd hmissing (by decide)
  | inside hmem hparenthesized _ =>
    simp only [trailing, List.mem_cons, List.not_mem_nil, or_false] at hmem
    rcases hmem with rfl | rfl | rfl <;> cases hparenthesized

end SonarJavascript.Css.CalcExpression
