import Mathlib.Algebra.Group.Nat.Defs
import Mathlib.Data.Rat.Defs
import SonarJavascript.Regex.Ast

/-!
# Functions that always return the same value

S3516 reports a function whose returned expressions have one literal value, or read one variable that is written
once. A listener collects the return statements of each function on a stack and checks them where the function is
left. `process_events`: there, the top of the stack has the return statements of the function and of no other one.
-/

namespace SonarJavascript.Rules.InvariantReturns

open Regex (JsString units)

/-! ### Primitive values -/

/-- A number of the language. The doubles are among these. -/
inductive Number
  | NaN
  | negativeZero
  | finite (value : ℚ)
  | infinity (isNegative : Bool)
  deriving DecidableEq

namespace Number

def negate : Number → Number
  | NaN => NaN
  | negativeZero => finite 0
  | finite value => if value = 0 then negativeZero else finite (-value)
  | infinity isNegative => infinity !isNegative

/-- The integer part, modulo 2³² and signed. -/
def toInt32 : Number → ℤ
  | finite value => (value.num.tdiv value.den).bmod (2 ^ 32)
  | _ => 0

def bitwiseNot (n : Number) : Number := finite (-n.toInt32 - 1)

def toBoolean : Number → Bool
  | NaN | negativeZero => false
  | finite value => value ≠ 0
  | infinity _ => true

def strictEquals : Number → Number → Bool
  | NaN, _ => false
  | negativeZero, negativeZero => true
  | negativeZero, finite value => value = 0
  | finite value, negativeZero => value = 0
  | finite value, finite value' => value = value'
  | infinity isNegative, infinity isNegative' => isNegative = isNegative'
  | _, _ => false

end Number

inductive Primitive
  | null
  | boolean (value : Bool)
  | number (value : Number)
  | string (value : JsString)
  | bigint (value : ℤ)
  deriving DecidableEq

/-- What a text and a bigint are as a number. -/
structure Conversions where
  ofString : JsString → Number
  ofBigint : ℤ → Number

namespace Primitive

def toNumber (conversions : Conversions) : Primitive → Number
  | null => .finite 0
  | boolean value => .finite (if value then 1 else 0)
  | number value => value
  | string value => conversions.ofString value
  | bigint value => conversions.ofBigint value

def toBoolean : Primitive → Bool
  | null => false
  | boolean value => value
  | number value => value.toBoolean
  | string value => value ≠ []
  | bigint value => value ≠ 0

def typeof : Primitive → JsString
  | null => units "object"
  | boolean _ => units "boolean"
  | number _ => units "number"
  | string _ => units "string"
  | bigint _ => units "bigint"

def strictEquals : Primitive → Primitive → Bool
  | number value, number value' => value.strictEquals value'
  | p, q => p = q

end Primitive

/-- A regular expression is the object in the literal, and the same as no other one. -/
inductive LiteralValue (Node : Type)
  | primitive (value : Primitive)
  | RegExp (literal : Node)

namespace LiteralValue

variable {Node : Type}

def toNumber (conversions : Conversions) : LiteralValue Node → Number
  | primitive value => value.toNumber conversions
  -- the text of a regular expression starts with a slash
  | RegExp _ => .NaN

def toBoolean : LiteralValue Node → Bool
  | primitive value => value.toBoolean
  | RegExp _ => true

def typeof : LiteralValue Node → JsString
  | primitive value => value.typeof
  | RegExp _ => units "object"

def strictEquals [DecidableEq Node] : LiteralValue Node → LiteralValue Node → Bool
  | primitive value, primitive value' => value.strictEquals value'
  | RegExp literal, RegExp literal' => literal = literal'
  | _, _ => false

end LiteralValue

/-! ### Programs -/

/-- The nodes that are told apart. The value of a regular expression that the engine cannot read is null. -/
inductive Syntax (Node : Type)
  | Literal (value : Primitive)
  | RegExpLiteral (isSupported : Bool)
  | UnaryExpression (operator : String) (argument : Node)
  | Identifier (name : String)
  | ExpressionStatement (expression : Node)
  | AssignmentExpression (left : Node)
  | MemberExpression (object : Node)
  | ReturnStatement (argument : Option Node)
  | VariableDeclarator (id : Node) (init : Option Node)
  | other (type : String)

def Syntax.type {Node : Type} : Syntax Node → String
  | .Literal _ | .RegExpLiteral _ => "Literal"
  | .UnaryExpression _ _ => "UnaryExpression"
  | .Identifier _ => "Identifier"
  | .ExpressionStatement _ => "ExpressionStatement"
  | .AssignmentExpression _ => "AssignmentExpression"
  | .MemberExpression _ => "MemberExpression"
  | .ReturnStatement _ => "ReturnStatement"
  | .VariableDeclarator _ _ => "VariableDeclarator"
  | .other type => type

structure Reference (Node : Type) where
  identifier : Node
  isWrite : Bool
  writeExpr : Option Node

inductive Definition (Node : Type)
  | Variable (node : Node)
  | other (type : String)

/-- A program with its scope analysis. `set` has the variables of the scope of a function. A variable that is
bound at the entry is a parameter without a default, a function that is declared, or `arguments`. -/
structure Program (Node Variable : Type) where
  conversions : Conversions
  syntaxOf : Node → Syntax Node
  ancestorsChain : Node → List Node
  depth : Node → ℕ
  name : Variable → String
  references : Variable → List (Reference Node)
  defs : Variable → List (Definition Node)
  set : Node → String → Option Variable
  variableOf : Node → Option Variable
  boundAtEntry : Variable → Bool
  object_depth {node object : Node} : syntaxOf node = .MemberExpression object → depth object < depth node
  argument_parent {node argument : Node} :
    syntaxOf node = .ReturnStatement (some argument) → (ancestorsChain argument).head? = some node
  init_parent {node id init : Node} :
    syntaxOf node = .VariableDeclarator id (some init) → (ancestorsChain init).head? = some node
  name_of_set {function : Node} {key : String} {found : Variable} : set function key = some found → name found = key
  syntaxOf_of_variableOf {node : Node} {found : Variable} : variableOf node = some found →
    syntaxOf node = .Identifier (name found) ∨ syntaxOf node = .other "JSXIdentifier"
  variableOf_identifier {found : Variable} {ref : Reference Node} :
    ref ∈ references found → variableOf ref.identifier = some found
  exists_initializer {found : Variable} {node id init : Node} : defs found = [.Variable node] →
    syntaxOf node = .VariableDeclarator id (some init) →
    ∃ ref ∈ references found, ref.isWrite = true ∧ ref.writeExpr = some init

variable {Node Variable : Type} [DecidableEq Node] (program : Program Node Variable)

def Program.type (node : Node) : String := (program.syntaxOf node).type

/-! ### Variables that are written once -/

def FUNCTION_NODES : List String := ["FunctionDeclaration", "FunctionExpression", "ArrowFunctionExpression"]

def findFirstMatchingAncestor (node : Node) (predicate : Node → Bool) : Option Node :=
  (program.ancestorsChain node).find? predicate

def isReferenceTo (ref : Reference Node) (node : Node) : Bool :=
  program.type node = "Identifier" && node = ref.identifier

def isMemberExpressionReference (lhs : Node) (ref : Reference Node) : Bool :=
  match _h : program.syntaxOf lhs with
  | .MemberExpression object => isReferenceTo program ref object || isMemberExpressionReference object ref
  | _ => false
termination_by program.depth lhs
decreasing_by exact program.object_depth _h

/-- Of the expression of the statement. -/
def isElementWrite (expression : Node) (ref : Reference Node) : Bool :=
  match program.syntaxOf expression with
  | .AssignmentExpression left => isMemberExpressionReference program left ref
  | _ => false

def isPossibleObjectUpdate (ref : Reference Node) : Bool :=
  let expressionStatement := findFirstMatchingAncestor program ref.identifier fun node =>
    program.type node = "ExpressionStatement" || FUNCTION_NODES.contains (program.type node)
  match expressionStatement.map program.syntaxOf with
  | some (.ExpressionStatement expression) =>
    isElementWrite program expression ref || program.type expression = "CallExpression"
  | _ => false

structure SingleWriteVariable (Node Variable : Type) where
  found : Variable
  initExpression : Option Node

def initExpression (found : Variable) : Option Node :=
  match program.defs found with
  | [.Variable node] =>
    match program.syntaxOf node with
    | .VariableDeclarator _ init => init
    | _ => none
  | _ => none

def getSingleWriteDefinition (function : Node) (variableName : String) : Option (SingleWriteVariable Node Variable) :=
  match program.set function variableName with
  | some found =>
    if (program.references found).tail.any fun ref => ref.isWrite || isPossibleObjectUpdate program ref then none
    else some ⟨found, initExpression program found⟩
  | none => none

/-! ### Literal values -/

def evaluateUnaryLiteralExpression (operator : String) (inner : LiteralValue Node) : Option (LiteralValue Node) :=
  match operator with
  | "-" => some (.primitive (.number (inner.toNumber program.conversions).negate))
  | "+" => some (.primitive (.number (inner.toNumber program.conversions)))
  | "~" => some (.primitive (.number (inner.toNumber program.conversions).bitwiseNot))
  | "!" => some (.primitive (.boolean !inner.toBoolean))
  | "typeof" => some (.primitive (.string inner.typeof))
  | _ => none

/-- There is no result when the fuel does not suffice; the inner option is the value or undefined. -/
def getLiteralValue (function : Node) : ℕ → Node → Option (Option (LiteralValue Node))
  | 0, _ => none
  | fuel + 1, returnedValue =>
    match program.syntaxOf returnedValue with
    | .Literal value => some (some (.primitive value))
    | .RegExpLiteral isSupported => some (some (if isSupported then .RegExp returnedValue else .primitive .null))
    | .UnaryExpression operator argument =>
      match getLiteralValue function fuel argument with
      | some (some inner) => some (evaluateUnaryLiteralExpression program operator inner)
      | some none => some none
      | none => none
    | .Identifier name =>
      match getSingleWriteDefinition program function name with
      | some ⟨_, some init⟩ => getLiteralValue function fuel init
      | _ => some none
    | _ => some none

/-- Each has the value, as far as they are looked at. -/
def everySameValue (function : Node) (fuel : ℕ) (firstValue : LiteralValue Node) : List Node → Option Bool
  | [] => some true
  | returnedValue :: rest =>
    match getLiteralValue program function fuel returnedValue with
    | some (some value) =>
      if value.strictEquals firstValue then everySameValue function fuel firstValue rest else some false
    | some none => some false
    | none => none

def areAllSameValue (function : Node) (fuel : ℕ) (returnedValues : List Node) : Option Bool :=
  match returnedValues with
  | [] => none
  | firstReturnedValue :: rest =>
    match getLiteralValue program function fuel firstReturnedValue with
    | some (some firstValue) => everySameValue program function fuel firstValue rest
    | some none =>
      match program.syntaxOf firstReturnedValue with
      | .Identifier name =>
        match getSingleWriteDefinition program function name with
        | some ⟨found, _⟩ =>
          some (returnedValues.all fun returnedValue =>
            ((program.references found).tail.map Reference.identifier).contains returnedValue)
        | none => some false
      | _ => some false
    | none => none

/-! ### The listener -/

structure CodePathSegment where
  reachable : Bool

structure CodePath where
  thrownSegments : List CodePathSegment

structure FunctionContext (Node : Type) where
  codePath : CodePath
  containsReturnWithoutValue : Bool
  returnStatements : List Node

def hasDifferentReturnTypes (functionContext : FunctionContext Node) (currentSegments : List CodePathSegment) : Bool :=
  let hasImplicitReturn := currentSegments.any CodePathSegment.reachable
  hasImplicitReturn || functionContext.containsReturnWithoutValue || functionContext.returnStatements.length ≤ 1 ||
    functionContext.codePath.thrownSegments.length > 0

def argument (returnStatement : Node) : Option Node :=
  match program.syntaxOf returnStatement with
  | .ReturnStatement argument => argument
  | _ => none

/-- Whether the function is reported. -/
def checkInvariantReturnStatements (fuel : ℕ) (node : Node) (functionContext : FunctionContext Node)
    (currentSegments : List CodePathSegment) : Option Bool :=
  if hasDifferentReturnTypes functionContext currentSegments then some false
  else areAllSameValue program node fuel (functionContext.returnStatements.filterMap (argument program))

inductive Event (Node : Type)
  | onCodePathStart (codePath : CodePath)
  | onCodePathEnd
  | onCodePathSegmentStart (segment : CodePathSegment)
  | onCodePathSegmentEnd
  | ReturnStatement (node : Node)
  | exit (function : Node)

/-- The tops of the stacks are the heads. -/
structure State (Node : Type) where
  functionContextStack : List (FunctionContext Node)
  codePathSegments : List (List CodePathSegment)
  currentCodePathSegments : List CodePathSegment
  reported : List Node

def State.initial : State Node := ⟨[], [], [], []⟩

def FunctionContext.add (functionContext : FunctionContext Node) (statements : List Node) : FunctionContext Node :=
  { functionContext with
    containsReturnWithoutValue :=
      functionContext.containsReturnWithoutValue || statements.any fun node => (argument program node).isNone
    returnStatements := functionContext.returnStatements ++ statements }

/-- There is no state after a check that does not end. -/
def handle (fuel : ℕ) (state : State Node) : Event Node → Option (State Node)
  | .onCodePathStart codePath =>
    some { state with
      functionContextStack := ⟨codePath, false, []⟩ :: state.functionContextStack
      codePathSegments := state.currentCodePathSegments :: state.codePathSegments
      currentCodePathSegments := [] }
  | .onCodePathEnd =>
    some { state with
      functionContextStack := state.functionContextStack.tail
      codePathSegments := state.codePathSegments.tail
      currentCodePathSegments := state.codePathSegments.headD [] }
  | .onCodePathSegmentStart segment =>
    some { state with currentCodePathSegments := segment :: state.currentCodePathSegments }
  | .onCodePathSegmentEnd => some { state with currentCodePathSegments := state.currentCodePathSegments.tail }
  | .ReturnStatement node =>
    match state.functionContextStack with
    | currentContext :: stack =>
      some { state with functionContextStack := currentContext.add program [node] :: stack }
    | [] => some state
  | .exit node =>
    match state.functionContextStack with
    | functionContext :: _ =>
      (checkInvariantReturnStatements program fuel node functionContext state.currentCodePathSegments).map
        fun isInvariant => if isInvariant then { state with reported := state.reported ++ [node] } else state
    | [] => some state

def process (fuel : ℕ) (state : State Node) : List (Event Node) → Option (State Node)
  | [] => some state
  | event :: events => (handle program fuel state event).bind fun next => process fuel next events

/-! ### Traversals -/

/-- What is visited in a code path and after it. The end of a function is visited before its last segments end;
the program, an initializer of a field and a static block are code paths without a function. -/
inductive Traversal (Node : Type)
  | done
  | segmentStart (segment : CodePathSegment) (rest : Traversal Node)
  | segmentEnd (rest : Traversal Node)
  | returnStatement (node : Node) (rest : Traversal Node)
  | codePath (codePath : CodePath) (function : Option Node) (body : Traversal Node) (segmentEnds : ℕ)
      (rest : Traversal Node)

/-- A function that has been traversed. -/
structure Function (Node : Type) where
  node : Node
  codePath : CodePath
  body : Traversal Node

namespace Traversal

def events : Traversal Node → List (Event Node)
  | done => []
  | segmentStart segment rest => .onCodePathSegmentStart segment :: rest.events
  | segmentEnd rest => .onCodePathSegmentEnd :: rest.events
  | returnStatement node rest => .ReturnStatement node :: rest.events
  | codePath path function body segmentEnds rest =>
    .onCodePathStart path :: (body.events ++ ((function.map Event.exit).toList ++
      (List.replicate segmentEnds .onCodePathSegmentEnd ++ .onCodePathEnd :: rest.events)))

/-- Without those of the functions inside. -/
def returnStatements : Traversal Node → List Node
  | done => []
  | segmentStart _ rest | segmentEnd rest | codePath _ _ _ _ rest => rest.returnStatements
  | returnStatement node rest => node :: rest.returnStatements

/-- The segments that have started and not ended, when there are some at the start. -/
def currentSegments : Traversal Node → List CodePathSegment → List CodePathSegment
  | done, segments => segments
  | segmentStart segment rest, segments => rest.currentSegments (segment :: segments)
  | segmentEnd rest, segments => rest.currentSegments segments.tail
  | returnStatement _ rest, segments | codePath _ _ _ _ rest, segments => rest.currentSegments segments

/-- In the order of their ends. -/
def functions : Traversal Node → List (Function Node)
  | done => []
  | segmentStart _ rest | segmentEnd rest | returnStatement _ rest => rest.functions
  | codePath path function body _ rest =>
    body.functions ++ ((function.map fun node => ⟨node, path, body⟩).toList ++ rest.functions)

end Traversal

namespace Function

variable (function : Function Node)

def returnStatements : List Node := function.body.returnStatements

/-- Those that lead to the end of the function. -/
def currentSegments : List CodePathSegment := function.body.currentSegments []

def context : FunctionContext Node :=
  FunctionContext.add program ⟨function.codePath, false, []⟩ function.returnStatements

def isReported (fuel : ℕ) : Option Bool :=
  checkInvariantReturnStatements program fuel function.node (function.context program) function.currentSegments

end Function

/-! ### The listener and the traversal -/

section Listener

variable {program} {fuel : ℕ} {state last : State Node}

theorem process_append (events events' : List (Event Node)) : process program fuel state (events ++ events') =
    (process program fuel state events).bind fun next => process program fuel next events' := by
  induction events generalizing state with
  | nil => rfl
  | cons event events ih =>
    rw [List.cons_append, process, process, Option.bind_assoc]
    congr 1
    funext next
    exact ih

theorem process_replicate_segmentEnd (n : ℕ) : process program fuel state (List.replicate n .onCodePathSegmentEnd) =
    some { state with currentCodePathSegments := state.currentCodePathSegments.drop n } := by
  induction n generalizing state with
  | zero => rfl
  | succ n ih =>
    rw [List.replicate_succ, process, handle, Option.bind_some, ih]
    simp only [List.drop_tail]

omit [DecidableEq Node] in
theorem FunctionContext.add_add (functionContext : FunctionContext Node) (statements statements' : List Node) :
    (functionContext.add program statements).add program statements' =
      functionContext.add program (statements ++ statements') := by
  simp only [add, List.any_append, List.append_assoc, Bool.or_assoc]

omit [DecidableEq Node] in
theorem FunctionContext.add_nil (functionContext : FunctionContext Node) :
    functionContext.add program [] = functionContext := by
  simp only [add, List.any_nil, Bool.or_false, List.append_nil]

/-- The statements are added to the context at the top. -/
def addToTop (program : Program Node Variable) (statements : List Node) :
    List (FunctionContext Node) → List (FunctionContext Node)
  | [] => []
  | functionContext :: stack => functionContext.add program statements :: stack

omit [DecidableEq Node] in
theorem addToTop_nil (stack : List (FunctionContext Node)) : addToTop program [] stack = stack := by
  cases stack with
  | nil => rfl
  | cons functionContext stack => rw [addToTop, FunctionContext.add_nil]

omit [DecidableEq Node] in
theorem addToTop_addToTop (statements statements' : List Node) (stack : List (FunctionContext Node)) :
    addToTop program statements' (addToTop program statements stack) =
      addToTop program (statements ++ statements') stack := by
  cases stack with
  | nil => rfl
  | cons functionContext stack => rw [addToTop, addToTop, addToTop, FunctionContext.add_add]

/-- The functions that are reported. -/
def reportedOf (program : Program Node Variable) (fuel : ℕ) (functions : List (Function Node)) : List Node :=
  (functions.filter fun function => function.isReported program fuel = some true).map Function.node

theorem reportedOf_append (functions functions' : List (Function Node)) :
    reportedOf program fuel (functions ++ functions') =
      reportedOf program fuel functions ++ reportedOf program fuel functions' := by
  rw [reportedOf, List.filter_append, List.map_append]
  rfl

/-- The exit of a function whose body has been traversed. -/
theorem handle_exit (function : Function Node) {stack : List (FunctionContext Node)}
    (hstack : state.functionContextStack = function.context program :: stack)
    (hsegments : state.currentCodePathSegments = function.currentSegments)
    (h : handle program fuel state (.exit function.node) = some last) :
    last = { state with reported := state.reported ++ reportedOf program fuel [function] } := by
  obtain ⟨contexts, outer, segments, reported⟩ := state
  obtain rfl : contexts = function.context program :: stack := hstack
  obtain rfl : segments = function.currentSegments := hsegments
  obtain ⟨isInvariant, hcheck, rfl⟩ := Option.map_eq_some_iff.mp h
  change function.isReported program fuel = some isInvariant at hcheck
  cases isInvariant with
  | true => simp [reportedOf, hcheck]
  | false => simp [reportedOf, hcheck]

/-- What a traversal does to the state: it is balanced. -/
theorem process_events (t : Traversal Node) (h : process program fuel state t.events = some last) :
    last =
      { functionContextStack := addToTop program t.returnStatements state.functionContextStack
        codePathSegments := state.codePathSegments
        currentCodePathSegments := t.currentSegments state.currentCodePathSegments
        reported := state.reported ++ reportedOf program fuel t.functions } := by
  induction t generalizing state last with
  | done =>
    cases h
    simp only [Traversal.returnStatements, addToTop_nil, Traversal.currentSegments, Traversal.functions, reportedOf,
      List.filter_nil, List.map_nil, List.append_nil]
  | segmentStart segment rest ih => exact ih h
  | segmentEnd rest ih => exact ih h
  | returnStatement node rest ih =>
    rw [Traversal.events, process, Option.bind_eq_some_iff] at h
    obtain ⟨next, hnext, hrest⟩ := h
    have hnext' : next = { state with functionContextStack := addToTop program [node] state.functionContextStack } := by
      rw [handle] at hnext
      split at hnext
      · rename_i currentContext stack hstack
        rw [hstack]
        exact (Option.some.inj hnext).symm
      · rename_i hstack
        rw [← Option.some.inj hnext, hstack, addToTop, ← hstack]
    rw [ih hrest, hnext']
    simp only [addToTop_addToTop, Traversal.returnStatements, Traversal.currentSegments, Traversal.functions,
      List.singleton_append]
  | codePath path function body segmentEnds rest ihbody ihrest =>
    rw [Traversal.events, process, handle, Option.bind_some, process_append, Option.bind_eq_some_iff] at h
    obtain ⟨inner, hinner, h⟩ := h
    rw [process_append, Option.bind_eq_some_iff] at h
    obtain ⟨checked, hchecked, h⟩ := h
    have hinner' := ihbody hinner
    have hchecked' : checked = { inner with
        reported := inner.reported ++ reportedOf program fuel
          (function.map fun node => (⟨node, path, body⟩ : Function Node)).toList } := by
      cases function with
      | none =>
        cases hchecked
        simp only [Option.map_none, Option.toList_none, reportedOf, List.filter_nil, List.map_nil, List.append_nil]
      | some node =>
        simp only [Option.map_some, Option.toList_some, process] at hchecked
        obtain ⟨next, hnext, hsame⟩ := Option.bind_eq_some_iff.mp hchecked
        cases hsame
        exact handle_exit ⟨node, path, body⟩ (by rw [hinner']; rfl) (by rw [hinner']; rfl) hnext
    rw [process_append, process_replicate_segmentEnd, Option.bind_some, process, handle, Option.bind_some] at h
    rw [ihrest h, hchecked', hinner']
    simp only [addToTop, List.tail_cons, List.headD_cons, Traversal.returnStatements, Traversal.currentSegments,
      Traversal.functions, reportedOf_append, List.append_assoc]

/-- A function that is reported is one of the program, whose own return statements have been checked. -/
theorem exists_function_of_reported {t : Traversal Node} {node : Node}
    (h : process program fuel State.initial t.events = some last) (hnode : node ∈ last.reported) :
    ∃ function ∈ t.functions, function.node = node ∧ function.isReported program fuel = some true := by
  rw [process_events t h, State.initial, List.nil_append, reportedOf, List.mem_map] at hnode
  obtain ⟨function, hmem, hname⟩ := hnode
  obtain ⟨hfunction, hreported⟩ := List.mem_filter.mp hmem
  exact ⟨function, hfunction, hname, of_decide_eq_true hreported⟩

end Listener

end SonarJavascript.Rules.InvariantReturns
