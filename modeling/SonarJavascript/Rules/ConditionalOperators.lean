import Mathlib.Data.Int.Notation
import Mathlib.Data.List.Basic

/-!
# Conditional operators of an expression

S1067 counts conditional operators. It keeps the operators of the expression around a node, and its nesting, for each
scope around it, and reports an expression when it leaves its outermost operator.

`run_conditionalOperators`: no scope is missing and all are left again, and the reports are those on the operators that
are in no other one of the same scope, if they are more than the maximum together with those inside of them.
-/

namespace SonarJavascript.Rules.ConditionalOperators

/-! ### Programs -/

/-- A node, with the operator token if it is a conditional or logical expression. -/
inductive Node (Token : Type)
  | mk (type : String) (generator : Bool) (operator : Token) (children : List (Node Token))

variable {Token : Type}

namespace Node

def type : Node Token → String
  | mk type _ _ _ => type

def generator : Node Token → Bool
  | mk _ generator _ _ => generator

/-- The token after the test, or after the left operand. -/
def operator : Node Token → Token
  | mk _ _ operator _ => operator

def isScopeLike (node : Node Token) : Bool :=
  node.type = "FunctionExpression" || (node.type = "FunctionDeclaration" && node.generator) ||
    node.type = "ObjectExpression" || node.type = "CallExpression" || node.type = "JSXElement"

def isConditionalLike (node : Node Token) : Bool :=
  node.type = "ConditionalExpression" || node.type = "LogicalExpression"

end Node

/-! ### The rule -/

def DEFAULT : ℤ := 3

structure ExpressionComplexity (Token : Type) where
  nestedLevel : ℤ
  operators : List Token

namespace ExpressionComplexity

def new : ExpressionComplexity Token := ⟨0, []⟩

def addOperator (operator : Token) (expr : ExpressionComplexity Token) : ExpressionComplexity Token :=
  { expr with operators := expr.operators ++ [operator] }

def incrementNestedExprLevel (expr : ExpressionComplexity Token) : ExpressionComplexity Token :=
  { expr with nestedLevel := expr.nestedLevel + 1 }

def decrementNestedExprLevel (expr : ExpressionComplexity Token) : ExpressionComplexity Token :=
  { expr with nestedLevel := expr.nestedLevel - 1 }

def isOnFirstExprLevel (expr : ExpressionComplexity Token) : Bool := expr.nestedLevel = 0

def resetExpressionComplexityOperators (expr : ExpressionComplexity Token) : ExpressionComplexity Token :=
  { expr with operators := [] }

end ExpressionComplexity

structure Report (Token : Type) where
  node : Node Token
  message : String
  secondaryLocations : List (Token × String)
  cost : ℤ

def reportIssue (node : Node Token) (operators : List Token) (max : ℤ) : Report Token where
  node := node
  message := "Reduce the number of conditional operators (" ++ toString operators.length ++
    ") used in the expression (maximum allowed " ++ toString max ++ ")."
  secondaryLocations := operators.map fun operator => (operator, "+1")
  cost := operators.length - max

/-- The innermost scope comes first. -/
structure State (Token : Type) where
  statementLevel : List (ExpressionComplexity Token)
  reports : List (Report Token)

section Rule

variable (threshold : ℤ)

/-- There is a TypeError when no scope is left. -/
def onEnter (node : Node Token) (state : State Token) : Option (State Token) :=
  if node.isConditionalLike then
    match state.statementLevel with
    | [] => none
    | expr :: rest =>
      some { state with statementLevel := expr.incrementNestedExprLevel.addOperator node.operator :: rest }
  else if node.isScopeLike then some { state with statementLevel := .new :: state.statementLevel }
  else some state

def onExit (node : Node Token) (state : State Token) : Option (State Token) :=
  if node.isConditionalLike then
    match state.statementLevel with
    | [] => none
    | expr :: rest =>
      let expr := expr.decrementNestedExprLevel
      if expr.isOnFirstExprLevel then
        some { statementLevel := expr.resetExpressionComplexityOperators :: rest
               reports := state.reports ++
                 if expr.operators.length > threshold then [reportIssue node expr.operators threshold] else [] }
      else some { state with statementLevel := expr :: rest }
  else if node.isScopeLike then some { state with statementLevel := state.statementLevel.tail }
  else some state

mutual

def traverse : Node Token → State Token → Option (State Token)
  | node@(.mk _ _ _ children), state => do
    let state ← onEnter node state
    let state ← traverseAll children state
    onExit threshold node state

def traverseAll : List (Node Token) → State Token → Option (State Token)
  | [], state => some state
  | node :: nodes, state => do
    let state ← traverse node state
    traverseAll nodes state

end

end Rule

/-- A program, with the option of the rule. -/
def run (max : Option ℤ) (program : Node Token) : Option (State Token) :=
  traverse (max.getD DEFAULT) program ⟨[.new], []⟩

/-! ### What is to be reported -/

mutual

/-- The operators of a node and of what is inside of it, up to the next scopes. -/
def operatorsOf : Node Token → List Token
  | node@(.mk _ _ operator children) =>
    if node.isConditionalLike then operator :: allOperators children
    else if node.isScopeLike then []
    else allOperators children

def allOperators : List (Node Token) → List Token
  | [] => []
  | node :: nodes => operatorsOf node ++ allOperators nodes

end

/-- The nodes around a node, the innermost one first. -/
structure Occurrence (Token : Type) where
  around : List (Node Token)
  node : Node Token

mutual

/-- Each node, after what is inside of it. -/
def occurrences (around : List (Node Token)) : Node Token → List (Occurrence Token)
  | node@(.mk _ _ _ children) => allOccurrences (node :: around) children ++ [⟨around, node⟩]

def allOccurrences (around : List (Node Token)) : List (Node Token) → List (Occurrence Token)
  | [] => []
  | node :: nodes => occurrences around node ++ allOccurrences around nodes

end

/-- An operator comes before the next scope around. -/
def inOperator (around : List (Node Token)) : Bool :=
  (around.find? fun node => node.isConditionalLike || node.isScopeLike).any Node.isConditionalLike

/-- The report on an outermost operator. -/
def expected (threshold : ℤ) (occurrence : Occurrence Token) : Option (Report Token) :=
  if occurrence.node.isConditionalLike = true ∧ inOperator occurrence.around = false ∧
      (operatorsOf occurrence.node).length > threshold then
    some (reportIssue occurrence.node (operatorsOf occurrence.node) threshold)
  else none

/-! ### The traversal -/

section Traversal

variable {threshold : ℤ} {around : List (Node Token)} {node : Node Token} {nodes : List (Node Token)}

theorem inOperator_conditionalLike (h : node.isConditionalLike = true) : inOperator (node :: around) = true := by
  simp [inOperator, h]

theorem inOperator_scopeLike (h : node.isConditionalLike = false) (hscope : node.isScopeLike = true) :
    inOperator (node :: around) = false := by
  simp [inOperator, h, hscope]

theorem inOperator_other (h : node.isConditionalLike = false) (hscope : node.isScopeLike = false) :
    inOperator (node :: around) = inOperator around := by
  simp [inOperator, h, hscope]

/-- What is kept for the scope of a node: its operators only as long as one is around. -/
structure Level (around : List (Node Token)) (expr : ExpressionComplexity Token) : Prop where
  nonneg : 0 ≤ expr.nestedLevel
  inside : inOperator around = true ↔ 0 < expr.nestedLevel
  outside : expr.nestedLevel = 0 → expr.operators = []

/-- The level after the operators of a node: at first level they have been reported and forgotten. -/
def grown (expr : ExpressionComplexity Token) (operators : List Token) : ExpressionComplexity Token :=
  if expr.nestedLevel = 0 then expr else { expr with operators := expr.operators ++ operators }

variable {expr : ExpressionComplexity Token} {rest : List (ExpressionComplexity Token)} {reports : List (Report Token)}

theorem grown_first (h : expr.nestedLevel = 0) (operators : List Token) : grown expr operators = expr := if_pos h

theorem grown_nested (h : expr.nestedLevel ≠ 0) (operators : List Token) :
    grown expr operators = { expr with operators := expr.operators ++ operators } := if_neg h

@[simp]
theorem nestedLevel_grown (operators : List Token) : (grown expr operators).nestedLevel = expr.nestedLevel := by
  unfold grown
  split_ifs <;> rfl

@[simp]
theorem grown_nil : grown expr [] = expr := by
  unfold grown
  split_ifs
  · rfl
  · rw [List.append_nil]

theorem grown_grown (first second : List Token) : grown (grown expr first) second = grown expr (first ++ second) := by
  by_cases h : expr.nestedLevel = 0
  · rw [grown_first h, grown_first h, grown_first h]
  · rw [grown_nested h, grown_nested h, grown, if_neg h, List.append_assoc]

theorem Level.grown (h : Level around expr) (operators : List Token) :
    Level around (ConditionalOperators.grown expr operators) := by
  refine ⟨?_, ?_, ?_⟩
  · rw [nestedLevel_grown]
    exact h.nonneg
  · rw [nestedLevel_grown]
    exact h.inside
  · intro hfirst
    rw [nestedLevel_grown] at hfirst
    rw [grown_first hfirst]
    exact h.outside hfirst

theorem Level.new (h : inOperator around = false) :
    Level around (ExpressionComplexity.new : ExpressionComplexity Token) :=
  ⟨Int.le_refl 0, by simp [h, ExpressionComplexity.new], fun _ => rfl⟩

theorem Level.enter (h : Level around expr) (hcond : node.isConditionalLike = true) :
    Level (node :: around) (expr.incrementNestedExprLevel.addOperator node.operator) := by
  have hnonneg := h.nonneg
  have hpos : 0 < (expr.incrementNestedExprLevel.addOperator node.operator).nestedLevel := by
    show 0 < expr.nestedLevel + 1
    omega
  refine ⟨Int.le_of_lt hpos, ?_, ?_⟩
  · rw [inOperator_conditionalLike hcond]
    exact iff_of_true rfl hpos
  · intro hzero
    omega

theorem Level.other (h : Level around expr) (hcond : node.isConditionalLike = false)
    (hscope : node.isScopeLike = false) : Level (node :: around) expr := by
  refine ⟨h.nonneg, ?_, h.outside⟩
  rw [inOperator_other hcond hscope]
  exact h.inside

theorem operatorsOf_conditionalLike {type : String} {generator : Bool} {operator : Token} {children : List (Node Token)}
    (h : (Node.mk type generator operator children).isConditionalLike = true) :
    operatorsOf (.mk type generator operator children) = operator :: allOperators children := by
  rw [operatorsOf, if_pos h]

/-- An operator is left at the first level if and only if it is in no other one. -/
theorem onExit_conditionalLike (h : Level around expr) (hcond : node.isConditionalLike = true) {operators : List Token}
    (hoperators : operatorsOf node = node.operator :: operators) :
    onExit threshold node
        ⟨grown (expr.incrementNestedExprLevel.addOperator node.operator) operators :: rest, reports⟩ =
      some ⟨grown expr (operatorsOf node) :: rest, reports ++ (expected threshold ⟨around, node⟩).toList⟩ := by
  have hnonneg := h.nonneg
  have hnested : (expr.incrementNestedExprLevel.addOperator node.operator).nestedLevel ≠ 0 := by
    show expr.nestedLevel + 1 ≠ 0
    omega
  have hleft : (grown (expr.incrementNestedExprLevel.addOperator node.operator) operators).decrementNestedExprLevel =
      { expr with operators := expr.operators ++ operatorsOf node } := by
    rw [grown_nested hnested, hoperators]
    simp [ExpressionComplexity.decrementNestedExprLevel, ExpressionComplexity.incrementNestedExprLevel,
      ExpressionComplexity.addOperator]
  rw [onExit, if_pos hcond]
  simp only [hleft]
  by_cases hfirst : expr.nestedLevel = 0
  · have hnone : expr.operators = [] := h.outside hfirst
    have houter : inOperator around = false := by
      rw [← Bool.not_eq_true, h.inside]
      omega
    rw [if_pos (by simpa [ExpressionComplexity.isOnFirstExprLevel] using hfirst), grown_first hfirst, hnone,
      List.nil_append, ExpressionComplexity.resetExpressionComplexityOperators, ← hnone, expected]
    simp only [hcond, houter, true_and]
    split_ifs <;> rfl
  · have hinner : inOperator around = true := by
      rw [h.inside]
      omega
    rw [if_neg (by simpa [ExpressionComplexity.isOnFirstExprLevel] using hfirst), grown_nested hfirst, expected]
    simp [hinner]

theorem filterMap_singleton (f : Occurrence Token → Option (Report Token)) (occurrence : Occurrence Token) :
    [occurrence].filterMap f = (f occurrence).toList := by
  cases h : f occurrence <;> simp [h]

mutual

theorem traverse_spec : ∀ (node : Node Token) (around : List (Node Token)) (expr : ExpressionComplexity Token)
    (rest : List (ExpressionComplexity Token)) (reports : List (Report Token)), Level around expr →
    traverse threshold node ⟨expr :: rest, reports⟩ =
      some ⟨grown expr (operatorsOf node) :: rest,
        reports ++ (occurrences around node).filterMap (expected threshold)⟩
  | .mk type generator operator children, around, expr, rest, reports, h => by
    rw [traverse, occurrences, List.filterMap_append, filterMap_singleton, ← List.append_assoc]
    by_cases hcond : (Node.mk type generator operator children).isConditionalLike = true
    · rw [onEnter, if_pos hcond]
      show (traverseAll threshold children _ >>= _) = _
      rw [traverseAll_spec children _ _ rest reports (h.enter hcond)]
      exact onExit_conditionalLike h hcond (operatorsOf_conditionalLike hcond)
    · have hnone : expected threshold ⟨around, .mk type generator operator children⟩ = none := by
        simp [expected, hcond]
      rw [hnone, Option.toList_none, List.append_nil]
      by_cases hscope : (Node.mk type generator operator children).isScopeLike = true
      · -- the level of the scope is new, and gone afterwards
        rw [onEnter, if_neg hcond, if_pos hscope]
        show (traverseAll threshold children _ >>= _) = _
        rw [traverseAll_spec children _ _ (expr :: rest) reports
          (Level.new (inOperator_scopeLike (eq_false_of_ne_true hcond) hscope))]
        show onExit threshold _ _ = _
        rw [onExit, if_neg hcond, if_pos hscope, operatorsOf, if_neg hcond, if_pos hscope, grown_nil]
        rfl
      · rw [onEnter, if_neg hcond, if_neg hscope]
        show (traverseAll threshold children _ >>= _) = _
        rw [traverseAll_spec children _ _ rest reports
          (h.other (eq_false_of_ne_true hcond) (eq_false_of_ne_true hscope))]
        show onExit threshold _ _ = _
        rw [onExit, if_neg hcond, if_neg hscope, operatorsOf, if_neg hcond, if_neg hscope]

theorem traverseAll_spec : ∀ (nodes : List (Node Token)) (around : List (Node Token))
    (expr : ExpressionComplexity Token) (rest : List (ExpressionComplexity Token)) (reports : List (Report Token)),
    Level around expr →
    traverseAll threshold nodes ⟨expr :: rest, reports⟩ =
      some ⟨grown expr (allOperators nodes) :: rest,
        reports ++ (allOccurrences around nodes).filterMap (expected threshold)⟩
  | [], around, expr, rest, reports, h => by
    rw [traverseAll, allOperators, allOccurrences, grown_nil, List.filterMap_nil, List.append_nil]
  | node :: nodes, around, expr, rest, reports, h => by
    rw [traverseAll, traverse_spec node around expr rest reports h]
    show traverseAll threshold nodes _ = _
    rw [traverseAll_spec nodes around _ rest _ (h.grown _), allOperators, allOccurrences, grown_grown,
      List.filterMap_append, List.append_assoc]

end

end Traversal

theorem run_conditionalOperators (max : Option ℤ) (program : Node Token) :
    run max program =
      some ⟨[.new], (occurrences [] program).filterMap (expected (max.getD DEFAULT))⟩ := by
  rw [run, traverse_spec program [] .new [] [] (Level.new rfl), grown_first rfl, List.nil_append]

end SonarJavascript.Rules.ConditionalOperators
