import SonarJavascript.Ast.Classes
import SonarJavascript.Ast.Proto

/-!
# The decoder

`ESTreeFactory.java`: a reader per node type says which record it creates, from which getter, and what
its components are read from. Every child is decoded and cast to the class of its component; a child that
is not an instance throws an `IllegalStateException`, and so does a missing child that the reader does
not check for, which is read as the default message.
-/

namespace SonarJavascript.Ast

inductive DecodeError
  /-- "Expected " + clazz + " but got " + class. -/
  | illegalState (clazz : ESClass) (got : Record)
  | numberFormat (text : String)
  deriving DecidableEq, Repr

/-! ### Components -/

inductive ScalarKind
  | string
  | boolean
  | int
  | bigInteger
  | operator (e : OperatorEnum)
  deriving DecidableEq, Repr

/-- A component that is read from a scalar field of the message. -/
structure ScalarComponent where
  name : String
  field : String
  kind : ScalarKind
  deriving DecidableEq, Repr

namespace ScalarComponent

def string (name : String) : ScalarComponent := ⟨name, name, .string⟩

def boolean (name : String) : ScalarComponent := ⟨name, name, .boolean⟩

def operator (e : OperatorEnum) : ScalarComponent := ⟨"operator", "operator", .operator e⟩

end ScalarComponent

/-- A component that is read from the child messages of a slot, under the name of the slot. -/
structure Component where
  slot : Slot
  /-- The getter is called without a check. -/
  unchecked : Bool
  clazz : ESClass
  deriving DecidableEq, Repr

namespace Component

def required (key : String) (clazz : ESClass) : Component := ⟨one key, true, clazz⟩

/-- `x.hasKey() ? Optional.of(from(x.getKey(), clazz)) : Optional.empty()` -/
def optional (key : String) (clazz : ESClass) : Component := ⟨one key, false, clazz⟩

def list (key : String) (clazz : ESClass) : Component := ⟨many key, false, clazz⟩

/-- A list with an `Optional` for each `ArrayElement`. -/
def boxes (key : String) (clazz : ESClass) : Component := ⟨elements key, false, clazz⟩

end Component

structure Reader where
  record : Record
  getter : String := ""
  scalars : List ScalarComponent := []
  components : List Component := []
  deriving DecidableEq, Repr

def hasField (message : Wires) (field : String) : Bool :=
  (message.lookup field).isSome

/-! ### One reader per node type -/

def fromProgramType : Reader where
  record := .Program
  getter := "program"
  scalars := [.string "sourceType"]
  components := [.list "body" (.interface .DirectiveOrModuleDeclarationOrStatement)]

def fromExportAllDeclarationType : Reader where
  record := .ExportAllDeclaration
  getter := "exportAllDeclaration"
  components :=
    [.optional "exported" (.interface .IdentifierOrLiteral),
      .required "source" (.interface .Literal)]

def fromExportAssignment : Reader where
  record := .ExportAssignment
  getter := "exportAssignment"
  components := [.required "expression" (.interface .Expression)]

def fromIdentifierType : Reader where
  record := .Identifier
  getter := "identifier"
  scalars := [.string "name"]

def fromExportDefaultDeclarationType : Reader where
  record := .ExportDefaultDeclaration
  getter := "exportDefaultDeclaration"
  components :=
    [.required "declaration" (.interface .ExpressionOrClassDeclarationOrFunctionDeclaration)]

def fromYieldExpressionType : Reader where
  record := .YieldExpression
  getter := "yieldExpression"
  scalars := [.boolean "delegate"]
  components := [.optional "argument" (.interface .Expression)]

def fromUpdateExpressionType : Reader where
  record := .UpdateExpression
  getter := "updateExpression"
  scalars := [.operator .UpdateOperator, .boolean "prefix"]
  components := [.required "argument" (.interface .Expression)]

def fromUnaryExpressionType : Reader where
  record := .UnaryExpression
  getter := "unaryExpression"
  scalars := [.operator .UnaryOperator, .boolean "prefix"]
  components := [.required "argument" (.interface .Expression)]

def fromThisExpressionType : Reader where
  record := .ThisExpression

def fromTemplateLiteralType : Reader where
  record := .TemplateLiteral
  getter := "templateLiteral"
  components :=
    [.list "quasis" (.record .TemplateElement), .list "expressions" (.interface .Expression)]

def fromTaggedTemplateExpressionType : Reader where
  record := .TaggedTemplateExpression
  getter := "taggedTemplateExpression"
  components :=
    [.required "tag" (.interface .Expression), .required "quasi" (.record .TemplateLiteral)]

def fromSequenceExpressionType : Reader where
  record := .SequenceExpression
  getter := "sequenceExpression"
  components := [.list "expressions" (.interface .Expression)]

def fromObjectExpressionType : Reader where
  record := .ObjectExpression
  getter := "objectExpression"
  components := [.list "properties" (.interface .PropertyOrSpreadElement)]

def fromSpreadElementType : Reader where
  record := .SpreadElement
  getter := "spreadElement"
  components := [.required "argument" (.interface .Expression)]

def fromPropertyType : Reader where
  record := .Property
  getter := "property"
  scalars := [.string "kind", .boolean "method", .boolean "shorthand", .boolean "computed"]
  components :=
    [.required "key" (.interface .ExpressionOrPrivateIdentifier),
      .required "value" (.interface .ExpressionOrPattern)]

def fromAssignmentPatternType : Reader where
  record := .AssignmentPattern
  getter := "assignmentPattern"
  components := [.required "left" (.interface .Pattern), .required "right" (.interface .Expression)]

def fromRestElementType : Reader where
  record := .RestElement
  getter := "restElement"
  components := [.required "argument" (.interface .Pattern)]

def fromArrayPatternType : Reader where
  record := .ArrayPattern
  getter := "arrayPattern"
  components := [.boxes "elements" (.interface .Pattern)]

def fromObjectPatternType : Reader where
  record := .ObjectPattern
  getter := "objectPattern"
  components := [.list "properties" (.interface .PropertyOrRestElement)]

def fromPrivateIdentifierType : Reader where
  record := .PrivateIdentifier
  getter := "privateIdentifier"
  scalars := [.string "name"]

def fromNewExpressionType : Reader where
  record := .NewExpression
  getter := "newExpression"
  components :=
    [.required "callee" (.interface .ExpressionOrSuper),
      .list "arguments" (.interface .ExpressionOrSpreadElement)]

def fromSuperType : Reader where
  record := .Super

def fromMetaPropertyType : Reader where
  record := .MetaProperty
  getter := "metaProperty"
  components := [.required "meta" (.record .Identifier), .required "property" (.record .Identifier)]

def fromMemberExpressionType : Reader where
  record := .MemberExpression
  getter := "memberExpression"
  scalars := [.boolean "computed", .boolean "optional"]
  components :=
    [.required "object" (.interface .ExpressionOrSuper),
      .required "property" (.interface .ExpressionOrPrivateIdentifier)]

def fromLogicalExpressionType : Reader where
  record := .LogicalExpression
  getter := "logicalExpression"
  scalars := [.operator .LogicalOperator]
  components :=
    [.required "left" (.interface .Expression), .required "right" (.interface .Expression)]

def fromImportExpressionType : Reader where
  record := .ImportExpression
  getter := "importExpression"
  components := [.required "source" (.interface .Expression)]

def fromBlockStatementType : Reader where
  record := .BlockStatement
  getter := "blockStatement"
  components := [.list "body" (.interface .Statement)]

def fromConditionalExpressionType : Reader where
  record := .ConditionalExpression
  getter := "conditionalExpression"
  components :=
    [.required "test" (.interface .Expression), .required "alternate" (.interface .Expression),
      .required "consequent" (.interface .Expression)]

def fromClassExpressionType : Reader where
  record := .ClassExpression
  getter := "classExpression"
  components :=
    [.optional "id" (.record .Identifier), .optional "superClass" (.interface .Expression),
      .required "body" (.record .ClassBody)]

def fromClassBodyType : Reader where
  record := .ClassBody
  getter := "classBody"
  components := [.list "body" (.interface .MethodDefinitionOrPropertyDefinitionOrStaticBlock)]

def fromStaticBlockType : Reader where
  record := .StaticBlock
  getter := "staticBlock"
  components := [.list "body" (.interface .Statement)]

def fromPropertyDefinitionType : Reader where
  record := .PropertyDefinition
  getter := "propertyDefinition"
  scalars := [.boolean "computed", ⟨"isStatic", "static", .boolean⟩]
  components :=
    [.required "key" (.interface .ExpressionOrPrivateIdentifier),
      .optional "value" (.interface .Expression)]

def fromMethodDefinitionType : Reader where
  record := .MethodDefinition
  getter := "methodDefinition"
  scalars := [.string "kind", .boolean "computed", ⟨"isStatic", "static", .boolean⟩]
  components :=
    [.required "key" (.interface .ExpressionOrPrivateIdentifier),
      .required "value" (.record .FunctionExpression)]

def fromChainExpressionType : Reader where
  record := .ChainExpression
  getter := "chainExpression"
  components := [.required "expression" (.interface .ChainElement)]

def fromCallExpressionType : Reader where
  record := .SimpleCallExpression
  getter := "callExpression"
  scalars := [.boolean "optional"]
  components :=
    [.required "callee" (.interface .ExpressionOrSuper),
      .list "arguments" (.interface .ExpressionOrSpreadElement)]

def fromBinaryExpressionType : Reader where
  record := .BinaryExpression
  getter := "binaryExpression"
  scalars := [.operator .BinaryOperator]
  components :=
    [.required "left" (.interface .Expression), .required "right" (.interface .Expression)]

def fromAwaitExpressionType : Reader where
  record := .AwaitExpression
  getter := "awaitExpression"
  components := [.required "argument" (.interface .Expression)]

def fromAssignmentExpressionType : Reader where
  record := .AssignmentExpression
  getter := "assignmentExpression"
  scalars := [.operator .AssignmentOperator]
  components :=
    [.required "left" (.interface .MemberExpressionOrPattern),
      .required "right" (.interface .Expression)]

def fromArrowFunctionExpressionType : Reader where
  record := .ArrowFunctionExpression
  getter := "arrowFunctionExpression"
  scalars := [.boolean "expression", .boolean "generator", .boolean "async"]
  components :=
    [.required "body" (.interface .BlockStatementOrExpression),
      .list "params" (.interface .Pattern)]

def fromArrayExpressionType : Reader where
  record := .ArrayExpression
  getter := "arrayExpression"
  components := [.boxes "elements" (.interface .ExpressionOrSpreadElement)]

def fromClassDeclarationType : Reader where
  record := .ClassDeclaration
  getter := "classDeclaration"
  components :=
    [.optional "id" (.record .Identifier), .optional "superClass" (.interface .Expression),
      .required "body" (.record .ClassBody)]

def fromFunctionDeclarationType : Reader where
  record := .FunctionDeclaration
  getter := "functionDeclaration"
  scalars := [.boolean "generator", .boolean "async"]
  components :=
    [.optional "id" (.record .Identifier), .required "body" (.record .BlockStatement),
      .list "params" (.interface .Pattern)]

def fromExportNamedDeclarationType : Reader where
  record := .ExportNamedDeclaration
  getter := "exportNamedDeclaration"
  components :=
    [.optional "declaration" (.interface .Declaration),
      .list "specifiers" (.record .ExportSpecifier), .optional "source" (.interface .Literal)]

def fromExportSpecifierType : Reader where
  record := .ExportSpecifier
  getter := "exportSpecifier"
  components :=
    [.required "exported" (.record .Identifier), .required "local" (.record .Identifier)]

def fromVariableDeclarationType : Reader where
  record := .VariableDeclaration
  getter := "variableDeclaration"
  scalars := [.string "kind"]
  components := [.list "declarations" (.record .VariableDeclarator)]

def fromVariableDeclaratorType : Reader where
  record := .VariableDeclarator
  getter := "variableDeclarator"
  components := [.required "id" (.interface .Pattern), .optional "init" (.interface .Expression)]

def fromImportDeclarationType : Reader where
  record := .ImportDeclaration
  getter := "importDeclaration"
  components :=
    [.list "specifiers" (.interface .ImportDefaultSpecifierOrImportNamespaceSpecifierOrImportSpecifier),
      .required "source" (.interface .Literal)]

def fromImportNamespaceSpecifierType : Reader where
  record := .ImportNamespaceSpecifier
  getter := "importNamespaceSpecifier"
  components := [.required "local" (.record .Identifier)]

def fromImportDefaultSpecifierType : Reader where
  record := .ImportDefaultSpecifier
  getter := "importDefaultSpecifier"
  components := [.required "local" (.record .Identifier)]

def fromImportSpecifierType : Reader where
  record := .ImportSpecifier
  getter := "importSpecifier"
  components :=
    [.required "imported" (.record .Identifier), .required "local" (.record .Identifier)]

def fromForOfStatementType : Reader where
  record := .ForOfStatement
  getter := "forOfStatement"
  scalars := [.boolean "await"]
  components :=
    [.required "left" (.interface .PatternOrVariableDeclaration),
      .required "right" (.interface .Expression), .required "body" (.interface .Statement)]

def fromForInStatementType : Reader where
  record := .ForInStatement
  getter := "forInStatement"
  components :=
    [.required "left" (.interface .PatternOrVariableDeclaration),
      .required "right" (.interface .Expression), .required "body" (.interface .Statement)]

def fromForStatementType : Reader where
  record := .ForStatement
  getter := "forStatement"
  components :=
    [.optional "init" (.interface .ExpressionOrVariableDeclaration),
      .optional "test" (.interface .Expression), .optional "update" (.interface .Expression),
      .required "body" (.interface .Statement)]

def fromDoWhileStatementType : Reader where
  record := .DoWhileStatement
  getter := "doWhileStatement"
  components :=
    [.required "body" (.interface .Statement), .required "test" (.interface .Expression)]

def fromWhileStatementType : Reader where
  record := .WhileStatement
  getter := "whileStatement"
  components :=
    [.required "test" (.interface .Expression), .required "body" (.interface .Statement)]

def fromTryStatementType : Reader where
  record := .TryStatement
  getter := "tryStatement"
  components :=
    [.required "block" (.record .BlockStatement), .optional "handler" (.record .CatchClause),
      .optional "finalizer" (.record .BlockStatement)]

def fromCatchClauseType : Reader where
  record := .CatchClause
  getter := "catchClause"
  components :=
    [.optional "param" (.interface .Pattern), .required "body" (.record .BlockStatement)]

def fromThrowStatementType : Reader where
  record := .ThrowStatement
  getter := "throwStatement"
  components := [.required "argument" (.interface .Expression)]

def fromSwitchStatementType : Reader where
  record := .SwitchStatement
  getter := "switchStatement"
  components :=
    [.required "discriminant" (.interface .Expression), .list "cases" (.record .SwitchCase)]

def fromSwitchCaseType : Reader where
  record := .SwitchCase
  getter := "switchCase"
  components :=
    [.optional "test" (.interface .Expression), .list "consequent" (.interface .Statement)]

def fromIfStatementType : Reader where
  record := .IfStatement
  getter := "ifStatement"
  components :=
    [.required "test" (.interface .Expression), .required "consequent" (.interface .Statement),
      .optional "alternate" (.interface .Statement)]

def fromContinueStatementType : Reader where
  record := .ContinueStatement
  getter := "continueStatement"
  components := [.optional "label" (.record .Identifier)]

def fromBreakStatementType : Reader where
  record := .BreakStatement
  getter := "breakStatement"
  components := [.optional "label" (.record .Identifier)]

def fromLabeledStatementType : Reader where
  record := .LabeledStatement
  getter := "labeledStatement"
  components := [.required "label" (.record .Identifier), .required "body" (.interface .Statement)]

def fromReturnStatementType : Reader where
  record := .ReturnStatement
  getter := "returnStatement"
  components := [.optional "argument" (.interface .Expression)]

def fromWithStatementType : Reader where
  record := .WithStatement
  getter := "withStatement"
  components :=
    [.required "object" (.interface .Expression), .required "body" (.interface .Statement)]

def fromDebuggerStatementType : Reader where
  record := .DebuggerStatement

def fromEmptyStatementType : Reader where
  record := .EmptyStatement

def fromExpressionStatementType : Reader where
  record := .ExpressionStatement
  getter := "expressionStatement"
  components := [.required "expression" (.interface .Expression)]

def fromDirective : Reader where
  record := .Directive
  getter := "expressionStatement"
  scalars := [.string "directive"]
  components := [.required "expression" (.interface .Literal)]

def bigIntLiteral : Reader where
  record := .BigIntLiteral
  getter := "literal"
  scalars := [⟨"value", "bigint", .bigInteger⟩, .string "bigint", .string "raw"]

def regExpLiteral : Reader where
  record := .RegExpLiteral
  getter := "literal"
  scalars := [.string "pattern", .string "flags", .string "raw"]

def simpleLiteral (field : String) (kind : ScalarKind) : Reader where
  record := .SimpleLiteral
  getter := "literal"
  scalars := [⟨"value", field, kind⟩, .string "raw"]

def fromLiteralType (literal : Wires) : Reader :=
  if hasField literal "bigint" then bigIntLiteral
  else if hasField literal "pattern" then regExpLiteral
  else if hasField literal "valueNumber" then simpleLiteral "valueNumber" .int
  else if hasField literal "valueBoolean" then simpleLiteral "valueBoolean" .boolean
  else simpleLiteral "valueString" .string

def fromTemplateElementType : Reader where
  record := .TemplateElement
  getter := "templateElement"
  scalars := [.boolean "tail", .string "cooked", .string "raw"]

def fromFunctionExpressionType : Reader where
  record := .FunctionExpression
  getter := "functionExpression"
  scalars := [.boolean "generator", .boolean "async"]
  components :=
    [.optional "id" (.record .Identifier), .required "body" (.record .BlockStatement),
      .list "params" (.interface .Pattern)]

def fromUnknownNodeType : Reader where
  record := .UnknownNode
  getter := "unknownNode"
  scalars := [.string "rawType"]

/-- The `switch` on the type. `get` is the message that a getter of the node returns. -/
def readerOf (get : String → Wires) : NodeType → Reader
  | .ProgramType => fromProgramType
  | .ExportAllDeclarationType => fromExportAllDeclarationType
  | .IdentifierType => fromIdentifierType
  | .ExportDefaultDeclarationType => fromExportDefaultDeclarationType
  | .YieldExpressionType => fromYieldExpressionType
  | .UpdateExpressionType => fromUpdateExpressionType
  | .UnaryExpressionType => fromUnaryExpressionType
  | .ThisExpressionType => fromThisExpressionType
  | .TemplateLiteralType => fromTemplateLiteralType
  | .TaggedTemplateExpressionType => fromTaggedTemplateExpressionType
  | .SequenceExpressionType => fromSequenceExpressionType
  | .ObjectExpressionType => fromObjectExpressionType
  | .SpreadElementType => fromSpreadElementType
  | .PropertyType => fromPropertyType
  | .AssignmentPatternType => fromAssignmentPatternType
  | .RestElementType => fromRestElementType
  | .ArrayPatternType => fromArrayPatternType
  | .ObjectPatternType => fromObjectPatternType
  | .PrivateIdentifierType => fromPrivateIdentifierType
  | .NewExpressionType => fromNewExpressionType
  | .SuperType => fromSuperType
  | .MetaPropertyType => fromMetaPropertyType
  | .MemberExpressionType => fromMemberExpressionType
  | .LogicalExpressionType => fromLogicalExpressionType
  | .ImportExpressionType => fromImportExpressionType
  | .BlockStatementType => fromBlockStatementType
  | .ConditionalExpressionType => fromConditionalExpressionType
  | .ClassExpressionType => fromClassExpressionType
  | .ClassBodyType => fromClassBodyType
  | .StaticBlockType => fromStaticBlockType
  | .PropertyDefinitionType => fromPropertyDefinitionType
  | .MethodDefinitionType => fromMethodDefinitionType
  | .ChainExpressionType => fromChainExpressionType
  | .CallExpressionType => fromCallExpressionType
  | .BinaryExpressionType => fromBinaryExpressionType
  | .AwaitExpressionType => fromAwaitExpressionType
  | .AssignmentExpressionType => fromAssignmentExpressionType
  | .ArrowFunctionExpressionType => fromArrowFunctionExpressionType
  | .ArrayExpressionType => fromArrayExpressionType
  | .ClassDeclarationType => fromClassDeclarationType
  | .FunctionDeclarationType => fromFunctionDeclarationType
  | .ExportNamedDeclarationType => fromExportNamedDeclarationType
  | .ExportSpecifierType => fromExportSpecifierType
  | .VariableDeclarationType => fromVariableDeclarationType
  | .VariableDeclaratorType => fromVariableDeclaratorType
  | .ImportDeclarationType => fromImportDeclarationType
  | .ImportNamespaceSpecifierType => fromImportNamespaceSpecifierType
  | .ImportDefaultSpecifierType => fromImportDefaultSpecifierType
  | .ImportSpecifierType => fromImportSpecifierType
  | .ForOfStatementType => fromForOfStatementType
  | .ForInStatementType => fromForInStatementType
  | .ForStatementType => fromForStatementType
  | .DoWhileStatementType => fromDoWhileStatementType
  | .WhileStatementType => fromWhileStatementType
  | .TryStatementType => fromTryStatementType
  | .CatchClauseType => fromCatchClauseType
  | .ThrowStatementType => fromThrowStatementType
  | .SwitchStatementType => fromSwitchStatementType
  | .SwitchCaseType => fromSwitchCaseType
  | .IfStatementType => fromIfStatementType
  | .ContinueStatementType => fromContinueStatementType
  | .BreakStatementType => fromBreakStatementType
  | .LabeledStatementType => fromLabeledStatementType
  | .ReturnStatementType => fromReturnStatementType
  | .WithStatementType => fromWithStatementType
  | .DebuggerStatementType => fromDebuggerStatementType
  | .EmptyStatementType => fromEmptyStatementType
  | .ExpressionStatementType =>
    if hasField (get "expressionStatement") "directive" then fromDirective
    else fromExpressionStatementType
  | .LiteralType => fromLiteralType (get "literal")
  | .TemplateElementType => fromTemplateElementType
  | .FunctionExpressionType => fromFunctionExpressionType
  | .ExportAssignmentType => fromExportAssignment
  | .UnknownNodeType => fromUnknownNodeType

/-! ### Decoding -/

/-- The digits of a number in base ten. -/
def parseDigits (digits : List Char) : Option ℕ :=
  if digits ≠ [] ∧ digits.all Char.isDigit then
    some (digits.foldl (fun n c => 10 * n + (c.toNat - 48)) 0)
  else none

/-- `new BigInteger(text)` -/
def parseBigInteger (text : String) : Except DecodeError JavaValue :=
  let value : Option ℤ :=
    match text.toList with
    | '-' :: digits => (parseDigits digits).map fun n => -(n : ℤ)
    | '+' :: digits => (parseDigits digits).map fun n => (n : ℤ)
    | digits => (parseDigits digits).map fun n => (n : ℤ)
  match value with
  | some n => .ok (.bigInteger n)
  | none => .error (.numberFormat text)

def getString : Option Wire → String
  | some (.string s) => s
  | _ => ""

def getBool : Option Wire → Bool
  | some (.bool b) => b
  | _ => false

def getInt : Option Wire → ℤ
  | some (.int32 i) => i
  | _ => 0

def ScalarKind.read (field : Option Wire) : ScalarKind → Except DecodeError JavaValue
  | .string => .ok (.string (getString field))
  | .boolean => .ok (.boolean (getBool field))
  | .int => .ok (.number (.finite (getInt field)))
  | .bigInteger => parseBigInteger (getString field)
  | .operator e => .ok (.operator (e.fromOperator (getString field)))

def ScalarComponent.read (message : Wires) (c : ScalarComponent) :
    Except DecodeError (String × JavaValue) :=
  (c.kind.read (message.lookup c.field)).map fun value => (c.name, value)

def cast (clazz : ESClass) (node : Tree) : Except DecodeError Tree :=
  if isInstance node.record clazz then .ok node else .error (.illegalState clazz node.record)

def fromLocation (loc : Option Location) : Location :=
  loc.getD ⟨⟨0, 0⟩, ⟨0, 0⟩⟩

/-- What the default message is read as. Its type is the first one of the enum. -/
def defaultInstance : Tree :=
  .mk .Program (fromLocation none) [("sourceType", .string "")] []

/-- A child and its cast. -/
def readEntry (clazz : ESClass) : Entry (Except DecodeError Tree) → Except DecodeError (Entry Tree)
  | .node key child => do return .node key (← cast clazz (← child))
  | .hole key => .ok (.hole key)

/-- The entries of a component, from the decoded children of the message. -/
def Component.read (children : List (Entry (Except DecodeError Tree))) (c : Component) :
    Except DecodeError (List (Entry Tree)) :=
  match c.slot.select children, c.unchecked with
  | [], true => do return [.node c.slot.key (← cast c.clazz defaultInstance)]
  | found, _ => found.mapM (readEntry c.clazz)

/-- The constructor call of a reader. -/
def construct (reader : Reader) (loc : Option Location) (message : Wires)
    (children : List (Entry (Except DecodeError Tree))) : Except DecodeError Tree := do
  let scalars ← reader.scalars.mapM fun c => c.read message
  let entries ← reader.components.mapM fun c => c.read children
  return .mk reader.record (fromLocation loc) scalars entries.flatten

/-- The message that a getter returns: the default one, when another member is set. -/
def getMessage (field : Option String) (message : Wires) (getter : String) : Wires :=
  if field = some getter then message else []

mutual

/-- The record that is created for a message, before the cast. -/
def build : Msg → Except DecodeError Tree
  | .mk type loc field message entries =>
    let reader := readerOf (getMessage field message) type
    if field = some reader.getter then construct reader loc message (buildEntries entries)
    else construct reader loc [] []

def buildEntries : List (Entry Msg) → List (Entry (Except DecodeError Tree))
  | [] => []
  | .node key child :: rest => .node key (build child) :: buildEntries rest
  | .hole key :: rest => .hole key :: buildEntries rest

end

/-- `from(node, clazz)` -/
def fromNode (node : Msg) (clazz : ESClass) : Except DecodeError Tree := do
  cast clazz (← build node)

theorem buildEntries_eq_map (entries : List (Entry Msg)) :
    buildEntries entries = entries.map (Entry.map build) := by
  induction entries with
  | nil => rfl
  | cons e rest ih =>
    cases e with
    | node key child => simp [buildEntries, ih]
    | hole key => simp [buildEntries, ih]

/-- The default message, with nothing set. -/
def Msg.defaultInstance : Msg :=
  .mk .ProgramType none none [] []

theorem build_defaultInstance : build Msg.defaultInstance = .ok defaultInstance := rfl

end SonarJavascript.Ast
