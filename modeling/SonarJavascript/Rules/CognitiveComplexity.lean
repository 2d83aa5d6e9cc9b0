import Mathlib.Algebra.Ring.Int.Defs
import Mathlib.Data.Finset.Basic

/-!
# Cognitive complexity (S3776)

The rule listens to every node twice, on enter and on exit; the listeners of `*` run before the ones for
a type of node. `Counters` are the variables that a complexity point reads and writes, `State` adds the
rest. `traverse` is the run over a subtree.
-/

namespace SonarJavascript.Rules.S3776

/-! ### Syntax trees -/

inductive NodeType
  | program
  | functionDeclaration
  | functionExpression
  | arrowFunctionExpression
  | ifStatement
  | forStatement
  | forInStatement
  | forOfStatement
  | doWhileStatement
  | whileStatement
  | switchStatement
  | continueStatement
  | breakStatement
  | catchClause
  | logicalExpression
  | conditionalExpression
  | returnStatement
  | variableDeclarator
  | identifier
  | jsxElement
  | jsxFragment
  | jsxExpressionContainer
  | other (type : String)
  deriving DecidableEq

/-- The property of the parent that holds a node. -/
inductive Key
  | id
  | test
  | consequent
  | alternate
  | body
  | cases
  | left
  | right
  | label
  | argument
  | other (key : String)
  deriving DecidableEq

inductive LogicalOperator
  | and
  | or
  | coalesce
  deriving DecidableEq

structure NodeData where
  id : ℕ
  type : NodeType
  key : Key
  operator : Option LogicalOperator
  name : String

/-- The children are in the order in which ESLint visits them. -/
inductive Node
  | mk (data : NodeData) (children : List Node)

namespace Node

def data : Node → NodeData
  | mk data _ => data

def children : Node → List Node
  | mk _ children => children

abbrev id (node : Node) : ℕ := node.data.id

abbrev type (node : Node) : NodeType := node.data.type

abbrev key (node : Node) : Key := node.data.key

/-- What a property holds: nothing where it is missing, all nodes of an array. -/
def property (node : Node) (key : Key) : List Node := node.children.filter (·.key = key)

/-- The class `:function` of selectors. -/
def isFunction (node : Node) : Bool :=
  node.type = .functionDeclaration || node.type = .functionExpression || node.type = .arrowFunctionExpression

def isIfStatement (node : Node) : Bool := node.type = .ifStatement

def isLogicalExpression (node : Node) : Bool := node.type = .logicalExpression

end Node

mutual

/-- All nodes of the subtree, by their identity. -/
def Node.ids : Node → List ℕ
  | .mk data children => data.id :: idsOf children

def idsOf : List Node → List ℕ
  | [] => []
  | child :: children => child.ids ++ idsOf children

end

/-! ### The variables of the rule -/

variable {Loc : Type}

structure ComplexityPoint (Loc : Type) where
  complexity : ℤ
  location : Loc
  deriving DecidableEq

structure Counters (Loc : Type) where
  fileComplexity : ℤ
  complexityIfNotNested : List (ComplexityPoint Loc)
  complexityIfNested : List (ComplexityPoint Loc)
  nesting : ℤ
  topLevelHasStructuralComplexity : Bool
  topLevelOwnComplexity : List (ComplexityPoint Loc)
  /-- The stacks have their top at the head. -/
  enclosingFunctions : List ℕ
  functionOwnComplexity : List (List (ComplexityPoint Loc))
  functionOwnControlFlowNesting : List ℤ

structure ReactFunctionalComponent where
  nameStartsWithCapital : Bool
  returnsJsx : Bool

def ReactFunctionalComponent.isConfirmed (component : ReactFunctionalComponent) : Bool :=
  component.nameStartsWithCapital && component.returnsJsx

structure SecondLevelFunction (Loc : Type) where
  node : ℕ
  parent : Option ℕ
  complexityIfThisSecondaryIsTopLevel : List (ComplexityPoint Loc)
  complexityIfNested : List (ComplexityPoint Loc)
  loc : Loc

inductive Report (Loc : Type)
  | refactorFunction (complexityAmount : ℤ) (threshold : ℤ) (loc : Loc) (secondaryLocations : List (Loc × String))
      (cost : ℤ)
  | fileComplexity (node : ℕ) (complexityAmount : ℤ)

structure State (Loc : Type) extends Counters Loc where
  reactFunctionalComponent : ReactFunctionalComponent
  nestingNodes : Finset ℕ
  consideredLogicalExpressions : Finset ℕ
  secondLevelFunctions : List (SecondLevelFunction Loc)
  reports : List (Report Loc)

/-- The variables as `create` initialises them. -/
def create : State Loc where
  fileComplexity := 0
  complexityIfNotNested := []
  complexityIfNested := []
  nesting := 0
  topLevelHasStructuralComplexity := false
  topLevelOwnComplexity := []
  enclosingFunctions := []
  functionOwnComplexity := []
  functionOwnControlFlowNesting := []
  reactFunctionalComponent := ⟨false, false⟩
  nestingNodes := ∅
  consideredLogicalExpressions := ∅
  secondLevelFunctions := []
  reports := []

/-- The options, the tokens and the letters. -/
structure Context (Loc : Type) where
  threshold : ℤ
  isFileComplexity : Bool
  firstToken : Node → Loc
  /-- The first token after a property of the node. -/
  firstTokenAfter : Node → Key → Loc
  mainFunctionToken : Node → Option Node → Loc
  startsWithCapital : String → Bool

/-! ### Complexity points -/

def modifyTop {α : Type} (f : α → α) : List α → List α
  | [] => []
  | top :: stack => f top :: stack

/-- `reduce` over the points. -/
def totalComplexity (points : List (ComplexityPoint Loc)) : ℤ :=
  points.foldl (fun acc cur => acc + cur.complexity) 0

def addStructuralComplexity (location : Loc) (s : Counters Loc) : Counters Loc :=
  let added := s.nesting + 1
  let complexityPoint : ComplexityPoint Loc := ⟨added, location⟩
  let nestedPoint : ComplexityPoint Loc := ⟨added + 1, location⟩
  let ownPoint : ComplexityPoint Loc := ⟨s.functionOwnControlFlowNesting.headD 0 + 1, location⟩
  let s : Counters Loc := match s.enclosingFunctions.length with
    | 0 => { s with fileComplexity := s.fileComplexity + added }
    | 1 => { s with
        topLevelHasStructuralComplexity := true
        topLevelOwnComplexity := s.topLevelOwnComplexity ++ [complexityPoint] }
    | _ => { s with
        complexityIfNested := s.complexityIfNested ++ [nestedPoint]
        complexityIfNotNested := s.complexityIfNotNested ++ [complexityPoint] }
  { s with functionOwnComplexity := modifyTop (· ++ [ownPoint]) s.functionOwnComplexity }

def addComplexity (location : Loc) (s : Counters Loc) : Counters Loc :=
  let complexityPoint : ComplexityPoint Loc := ⟨1, location⟩
  let s : Counters Loc := { s with
    functionOwnComplexity := modifyTop (· ++ [complexityPoint]) s.functionOwnComplexity }
  match s.enclosingFunctions.length with
  | 0 => { s with fileComplexity := s.fileComplexity + 1 }
  | 1 => { s with topLevelOwnComplexity := s.topLevelOwnComplexity ++ [complexityPoint] }
  | _ => { s with
      complexityIfNested := s.complexityIfNested ++ [complexityPoint]
      complexityIfNotNested := s.complexityIfNotNested ++ [complexityPoint] }

namespace State

def mapCounters (s : State Loc) (f : Counters Loc → Counters Loc) : State Loc :=
  { s with toCounters := f s.toCounters }

def addNestingNodes (s : State Loc) (nodes : List Node) : State Loc :=
  { s with nestingNodes := s.nestingNodes ∪ (nodes.map Node.id).toFinset }

def addConsidered (s : State Loc) (nodes : List Node) : State Loc :=
  { s with consideredLogicalExpressions := s.consideredLogicalExpressions ∪ (nodes.map Node.id).toFinset }

end State

/-! ### Logical expressions -/

mutual

def flattenLogicalExpression : Node → List Node
  | .mk data children =>
    if data.type = .logicalExpression then
      flattenProperty .left children ++ [.mk data children] ++ flattenProperty .right children
    else []

def flattenProperty (key : Key) : List Node → List Node
  | [] => []
  | child :: children =>
    (if child.key = key then flattenLogicalExpression child else []) ++ flattenProperty key children

end

mutual

/-- `none` is `null`. -/
def flattenJsxShortCircuitNodes (operator : Option LogicalOperator) : Node → Option (List Node)
  | .mk data children =>
    if data.type = .conditionalExpression ∨ (data.type = .logicalExpression ∧ data.operator ≠ operator) then
      none
    else if data.type ≠ .logicalExpression then some []
    else
      match flattenJsxProperty operator .left children, flattenJsxProperty operator .right children with
      | some leftNodes, some rightNodes => some (leftNodes ++ [.mk data children] ++ rightNodes)
      | _, _ => none

def flattenJsxProperty (operator : Option LogicalOperator) (key : Key) : List Node → Option (List Node)
  | [] => some []
  | child :: children =>
    if child.key = key then
      match flattenJsxShortCircuitNodes operator child, flattenJsxProperty operator key children with
      | some nodes, some others => some (nodes ++ others)
      | _, _ => none
    else flattenJsxProperty operator key children

end

def getJsxShortCircuitNodes (parent : Option Node) (logicalExpression : Node) : Option (List Node) :=
  if parent.map Node.type ≠ some .jsxExpressionContainer then none
  else flattenJsxShortCircuitNodes logicalExpression.data.operator logicalExpression

/-- The loop over the flattened expressions: where an operator counts. -/
def countedOperators (firstTokenAfter : Node → Key → Loc) : Option Node → List Node → List Loc
  | _, [] => []
  | previous, current :: rest =>
    let counts := current.data.operator ≠ some .or ∧ current.data.operator ≠ some .coalesce ∧
      previous.map (·.data.operator) ≠ some current.data.operator
    (if counts then [firstTokenAfter current .left] else []) ++
      countedOperators firstTokenAfter (some current) rest

/-! ### Listeners -/

section

variable (ctx : Context Loc)

def nameStartsWithCapital (parent : Option Node) (node : Node) : Bool :=
  match if node.type ≠ .arrowFunctionExpression then node.property .id else [] with
  | id :: _ => ctx.startsWithCapital id.data.name
  | [] =>
    match parent with
    | some parent =>
      parent.type = .variableDeclarator && (parent.property .id).any fun id =>
        id.type = .identifier && ctx.startsWithCapital id.data.name
    | none => false

def onEnterFunction (parent : Option Node) (node : Node) (s : State Loc) : State Loc :=
  let s : State Loc := match s.enclosingFunctions.length with
    | 0 => { s with
        topLevelHasStructuralComplexity := false
        reactFunctionalComponent := ⟨nameStartsWithCapital ctx parent node, false⟩
        topLevelOwnComplexity := []
        secondLevelFunctions := [] }
    | 1 => { s with complexityIfNotNested := [], complexityIfNested := [] }
    | _ => { s with nesting := s.nesting + 1 }.addNestingNodes [node]
  { s with
    enclosingFunctions := node.id :: s.enclosingFunctions
    functionOwnComplexity := [] :: s.functionOwnComplexity
    functionOwnControlFlowNesting := 0 :: s.functionOwnControlFlowNesting }

/-- The messages of the secondary locations. -/
def secondaryMessage (complexity : ℤ) : String :=
  if complexity = 1 then "+1" else s!"+{complexity} (incl. {complexity - 1} for nesting)"

def checkFunction (complexity : List (ComplexityPoint Loc)) (loc : Loc) (s : State Loc) : State Loc :=
  let complexityAmount := totalComplexity complexity
  if complexityAmount > ctx.threshold then
    { s with reports := s.reports ++ [.refactorFunction complexityAmount ctx.threshold loc
        (complexity.map fun point => (point.location, secondaryMessage point.complexity))
        (complexityAmount - ctx.threshold)] }
  else s

def leaveTopLevelFunction (s : State Loc) : State Loc :=
  if s.topLevelHasStructuralComplexity && !s.reactFunctionalComponent.isConfirmed then
    { s with fileComplexity := s.fileComplexity +
        totalComplexity (s.topLevelOwnComplexity ++ s.secondLevelFunctions.flatMap (·.complexityIfNested)) }
  else
    { s with fileComplexity := s.fileComplexity + totalComplexity s.topLevelOwnComplexity +
        (s.secondLevelFunctions.map (totalComplexity ·.complexityIfThisSecondaryIsTopLevel)).sum }

def leaveSecondLevelFunction (parent : Option Node) (node : Node) (s : State Loc) : State Loc :=
  { s with secondLevelFunctions := s.secondLevelFunctions ++ [{
      node := node.id
      parent := parent.map Node.id
      complexityIfNested := s.complexityIfNested
      complexityIfThisSecondaryIsTopLevel := s.complexityIfNotNested
      loc := ctx.mainFunctionToken node parent }] }

def onLeaveFunction (parent : Option Node) (node : Node) (s : State Loc) : State Loc :=
  let functionComplexity := s.functionOwnComplexity.headD []
  let s := { s with
    functionOwnComplexity := s.functionOwnComplexity.tail
    functionOwnControlFlowNesting := s.functionOwnControlFlowNesting.tail
    enclosingFunctions := s.enclosingFunctions.tail }
  let s := match s.enclosingFunctions.length with
    | 0 => leaveTopLevelFunction s
    | 1 => leaveSecondLevelFunction ctx parent node s
    | _ => s
  if ctx.isFileComplexity then s
  else checkFunction ctx functionComplexity (ctx.mainFunctionToken node parent) s

/-- `else if` -/
def isElseIf (parent : Option Node) (ifStatement : Node) : Bool :=
  parent.any Node.isIfStatement && ifStatement.key = .alternate

/-- The `else` branch, where it is not `else if`. -/
def elseBranch (ifStatement : Node) : List Node :=
  (ifStatement.property .alternate).filter (!·.isIfStatement)

def visitIfStatement (parent : Option Node) (ifStatement : Node) (s : State Loc) : State Loc :=
  let ifLoc := ctx.firstToken ifStatement
  let s := if isElseIf parent ifStatement then s.mapCounters (addComplexity ifLoc)
    else s.mapCounters (addStructuralComplexity ifLoc)
  let s := s.addNestingNodes (ifStatement.property .consequent)
  if elseBranch ifStatement ≠ [] then
    (s.addNestingNodes (elseBranch ifStatement)).mapCounters
      (addComplexity (ctx.firstTokenAfter ifStatement .consequent))
  else s

/-- The loops, `switch` and `catch`: one structural point, and the nodes of one property nest. -/
def visitNesting (key : Key) (node : Node) (s : State Loc) : State Loc :=
  (s.mapCounters (addStructuralComplexity (ctx.firstToken node))).addNestingNodes (node.property key)

def visitLoop (loop : Node) (s : State Loc) : State Loc := visitNesting ctx .body loop s

def visitSwitchStatement (switchStatement : Node) (s : State Loc) : State Loc :=
  visitNesting ctx .cases switchStatement s

def visitCatchClause (catchClause : Node) (s : State Loc) : State Loc := visitNesting ctx .body catchClause s

def visitContinueOrBreakStatement (statement : Node) (s : State Loc) : State Loc :=
  if statement.property .label ≠ [] then s.mapCounters (addComplexity (ctx.firstToken statement)) else s

def visitConditionalExpression (conditionalExpression : Node) (s : State Loc) : State Loc :=
  ((s.mapCounters (addStructuralComplexity (ctx.firstTokenAfter conditionalExpression .test))).addNestingNodes
    (conditionalExpression.property .consequent)).addNestingNodes (conditionalExpression.property .alternate)

def visitReturnStatement (returnStatement : Node) (s : State Loc) : State Loc :=
  if s.enclosingFunctions.length = 1 ∧ (returnStatement.property .argument).any fun argument =>
      argument.type = .jsxElement || argument.type = .jsxFragment then
    { s with reactFunctionalComponent := { s.reactFunctionalComponent with returnsJsx := true } }
  else s

def visitLogicalExpression (parent : Option Node) (logicalExpression : Node) (s : State Loc) : State Loc :=
  match getJsxShortCircuitNodes parent logicalExpression with
  | some jsxShortCircuitNodes => s.addConsidered jsxShortCircuitNodes
  | none =>
    if logicalExpression.id ∉ s.consideredLogicalExpressions then
      let flattened := flattenLogicalExpression logicalExpression
      (s.addConsidered flattened).mapCounters fun counters =>
        (countedOperators ctx.firstTokenAfter none flattened).foldl (fun s loc => addComplexity loc s) counters
    else s

/-- The listener of `*`. -/
def enterAny (node : Node) (s : State Loc) : State Loc :=
  if node.id ∈ s.nestingNodes then
    { s with
      nesting := s.nesting + 1
      functionOwnControlFlowNesting := modifyTop (· + 1) s.functionOwnControlFlowNesting }
  else s

/-- The listener of `*:exit`. -/
def exitAny (node : Node) (s : State Loc) : State Loc :=
  if node.id ∈ s.nestingNodes then
    { s with
      nesting := s.nesting - 1
      nestingNodes := s.nestingNodes.erase node.id
      functionOwnControlFlowNesting := modifyTop (· - 1) s.functionOwnControlFlowNesting }
  else s

/-- The other listeners on enter. -/
def enterNode (parent : Option Node) (node : Node) (s : State Loc) : State Loc :=
  match node.type with
  | .functionDeclaration | .functionExpression | .arrowFunctionExpression => onEnterFunction ctx parent node s
  | .program => { s with fileComplexity := 0 }
  | .ifStatement => visitIfStatement ctx parent node s
  | .forStatement | .forInStatement | .forOfStatement | .doWhileStatement | .whileStatement =>
    visitLoop ctx node s
  | .switchStatement => visitSwitchStatement ctx node s
  | .continueStatement | .breakStatement => visitContinueOrBreakStatement ctx node s
  | .catchClause => visitCatchClause ctx node s
  | .logicalExpression => visitLogicalExpression ctx parent node s
  | .conditionalExpression => visitConditionalExpression ctx node s
  | .returnStatement => visitReturnStatement node s
  | _ => s

/-- The other listeners on exit. -/
def exitNode (parent : Option Node) (node : Node) (s : State Loc) : State Loc :=
  match node.type with
  | .functionDeclaration | .functionExpression | .arrowFunctionExpression => onLeaveFunction ctx parent node s
  | .program =>
    if ctx.isFileComplexity then
      { s with reports := s.reports ++ [.fileComplexity node.id s.fileComplexity] }
    else s
  | _ => s

mutual

/-- The run over a subtree. -/
def traverse (parent : Option Node) : Node → State Loc → State Loc
  | .mk data children, s =>
    let node := .mk data children
    exitNode ctx parent node (exitAny node (traverseAll node children (enterNode ctx parent node (enterAny node s))))

def traverseAll (parent : Node) : List Node → State Loc → State Loc
  | [], s => s
  | child :: children, s => traverseAll parent children (traverse (some parent) child s)

end

mutual

/-- The states of the run, one after each listener. -/
def trace (parent : Option Node) : Node → State Loc → List (State Loc)
  | .mk data children, s =>
    let node := .mk data children
    let entered := enterNode ctx parent node (enterAny node s)
    let visited := traverseAll ctx node children entered
    enterAny node s :: entered :: traceAll node children entered ++
      [exitAny node visited, exitNode ctx parent node (exitAny node visited)]

def traceAll (parent : Node) : List Node → State Loc → List (State Loc)
  | [], _ => []
  | child :: children, s =>
    trace (some parent) child s ++ traceAll parent children (traverse ctx (some parent) child s)

end

end

end SonarJavascript.Rules.S3776
