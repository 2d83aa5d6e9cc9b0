import SonarJavascript.Ast.Estree

/-!
# The messages

The schema of `estree.proto`, and what protobufjs makes of an object under it: the fields that the
message declares are written and the other keys are dropped, a number is truncated to an `int32`, and a
`repeated` field of messages throws when it meets a missing element. A getter of a field that has not
been written returns the default of its type.
-/

namespace SonarJavascript.Ast

inductive NodeType
  | ProgramType | ExportAllDeclarationType | IdentifierType | ExportDefaultDeclarationType
  | YieldExpressionType | UpdateExpressionType | UnaryExpressionType | ThisExpressionType
  | TemplateLiteralType | TaggedTemplateExpressionType | SequenceExpressionType
  | ObjectExpressionType | SpreadElementType | PropertyType | AssignmentPatternType
  | RestElementType | ArrayPatternType | ObjectPatternType | PrivateIdentifierType
  | NewExpressionType | SuperType | MetaPropertyType | MemberExpressionType | LogicalExpressionType
  | ImportExpressionType | BlockStatementType | ConditionalExpressionType | ClassExpressionType
  | ClassBodyType | StaticBlockType | PropertyDefinitionType | MethodDefinitionType
  | ChainExpressionType | CallExpressionType | BinaryExpressionType | AwaitExpressionType
  | AssignmentExpressionType | ArrowFunctionExpressionType | ArrayExpressionType
  | ClassDeclarationType | FunctionDeclarationType | ExportNamedDeclarationType
  | ExportSpecifierType | VariableDeclarationType | VariableDeclaratorType | ImportDeclarationType
  | ImportNamespaceSpecifierType | ImportDefaultSpecifierType | ImportSpecifierType
  | ForOfStatementType | ForInStatementType | ForStatementType | DoWhileStatementType
  | WhileStatementType | TryStatementType | CatchClauseType | ThrowStatementType
  | SwitchStatementType | SwitchCaseType | IfStatementType | ContinueStatementType
  | BreakStatementType | LabeledStatementType | ReturnStatementType | WithStatementType
  | DebuggerStatementType | EmptyStatementType | ExpressionStatementType | LiteralType
  | TemplateElementType | FunctionExpressionType | ExportAssignmentType | UnknownNodeType
  deriving DecidableEq, Repr

/-- The values of the enum, under their names. -/
def nodeTypeEnum : List (String × NodeType) :=
  [("ProgramType", .ProgramType), ("ExportAllDeclarationType", .ExportAllDeclarationType),
    ("IdentifierType", .IdentifierType),
    ("ExportDefaultDeclarationType", .ExportDefaultDeclarationType),
    ("YieldExpressionType", .YieldExpressionType), ("UpdateExpressionType", .UpdateExpressionType),
    ("UnaryExpressionType", .UnaryExpressionType), ("ThisExpressionType", .ThisExpressionType),
    ("TemplateLiteralType", .TemplateLiteralType),
    ("TaggedTemplateExpressionType", .TaggedTemplateExpressionType),
    ("SequenceExpressionType", .SequenceExpressionType),
    ("ObjectExpressionType", .ObjectExpressionType), ("SpreadElementType", .SpreadElementType),
    ("PropertyType", .PropertyType), ("AssignmentPatternType", .AssignmentPatternType),
    ("RestElementType", .RestElementType), ("ArrayPatternType", .ArrayPatternType),
    ("ObjectPatternType", .ObjectPatternType), ("PrivateIdentifierType", .PrivateIdentifierType),
    ("NewExpressionType", .NewExpressionType), ("SuperType", .SuperType),
    ("MetaPropertyType", .MetaPropertyType), ("MemberExpressionType", .MemberExpressionType),
    ("LogicalExpressionType", .LogicalExpressionType),
    ("ImportExpressionType", .ImportExpressionType), ("BlockStatementType", .BlockStatementType),
    ("ConditionalExpressionType", .ConditionalExpressionType),
    ("ClassExpressionType", .ClassExpressionType), ("ClassBodyType", .ClassBodyType),
    ("StaticBlockType", .StaticBlockType), ("PropertyDefinitionType", .PropertyDefinitionType),
    ("MethodDefinitionType", .MethodDefinitionType), ("ChainExpressionType", .ChainExpressionType),
    ("CallExpressionType", .CallExpressionType), ("BinaryExpressionType", .BinaryExpressionType),
    ("AwaitExpressionType", .AwaitExpressionType),
    ("AssignmentExpressionType", .AssignmentExpressionType),
    ("ArrowFunctionExpressionType", .ArrowFunctionExpressionType),
    ("ArrayExpressionType", .ArrayExpressionType), ("ClassDeclarationType", .ClassDeclarationType),
    ("FunctionDeclarationType", .FunctionDeclarationType),
    ("ExportNamedDeclarationType", .ExportNamedDeclarationType),
    ("ExportSpecifierType", .ExportSpecifierType),
    ("VariableDeclarationType", .VariableDeclarationType),
    ("VariableDeclaratorType", .VariableDeclaratorType),
    ("ImportDeclarationType", .ImportDeclarationType),
    ("ImportNamespaceSpecifierType", .ImportNamespaceSpecifierType),
    ("ImportDefaultSpecifierType", .ImportDefaultSpecifierType),
    ("ImportSpecifierType", .ImportSpecifierType), ("ForOfStatementType", .ForOfStatementType),
    ("ForInStatementType", .ForInStatementType), ("ForStatementType", .ForStatementType),
    ("DoWhileStatementType", .DoWhileStatementType), ("WhileStatementType", .WhileStatementType),
    ("TryStatementType", .TryStatementType), ("CatchClauseType", .CatchClauseType),
    ("ThrowStatementType", .ThrowStatementType), ("SwitchStatementType", .SwitchStatementType),
    ("SwitchCaseType", .SwitchCaseType), ("IfStatementType", .IfStatementType),
    ("ContinueStatementType", .ContinueStatementType), ("BreakStatementType", .BreakStatementType),
    ("LabeledStatementType", .LabeledStatementType), ("ReturnStatementType", .ReturnStatementType),
    ("WithStatementType", .WithStatementType), ("DebuggerStatementType", .DebuggerStatementType),
    ("EmptyStatementType", .EmptyStatementType),
    ("ExpressionStatementType", .ExpressionStatementType), ("LiteralType", .LiteralType),
    ("TemplateElementType", .TemplateElementType),
    ("FunctionExpressionType", .FunctionExpressionType),
    ("ExportAssignmentType", .ExportAssignmentType), ("UnknownNodeType", .UnknownNodeType)]

inductive FieldType
  | string
  | bool
  | int32
  deriving DecidableEq, Repr

/-- A message type: its scalar fields, and its fields of type `Node`, `repeated Node` or
`repeated ArrayElement`. -/
structure Message where
  scalars : List (String × FieldType)
  nodes : List Slot

/-- The members of `oneof node`, with the fields of their message types. -/
def nodeFields : List (String × Message) :=
  [("program", ⟨[("sourceType", .string)], [many "body"]⟩),
    ("exportAllDeclaration", ⟨[], [one "exported", one "source"]⟩),
    ("identifier", ⟨[("name", .string)], []⟩),
    ("exportDefaultDeclaration", ⟨[], [one "declaration"]⟩),
    ("yieldExpression", ⟨[("delegate", .bool)], [one "argument"]⟩),
    ("updateExpression", ⟨[("operator", .string), ("prefix", .bool)], [one "argument"]⟩),
    ("unaryExpression", ⟨[("operator", .string), ("prefix", .bool)], [one "argument"]⟩),
    ("thisExpression", ⟨[], []⟩),
    ("templateLiteral", ⟨[], [many "quasis", many "expressions"]⟩),
    ("taggedTemplateExpression", ⟨[], [one "tag", one "quasi"]⟩),
    ("sequenceExpression", ⟨[], [many "expressions"]⟩),
    ("objectExpression", ⟨[], [many "properties"]⟩),
    ("spreadElement", ⟨[], [one "argument"]⟩),
    ("property", ⟨[("kind", .string), ("method", .bool), ("shorthand", .bool), ("computed", .bool)],
      [one "key", one "value"]⟩),
    ("assignmentPattern", ⟨[], [one "left", one "right"]⟩),
    ("restElement", ⟨[], [one "argument"]⟩),
    ("arrayPattern", ⟨[], [elements "elements"]⟩),
    ("objectPattern", ⟨[], [many "properties"]⟩),
    ("privateIdentifier", ⟨[("name", .string)], []⟩),
    ("newExpression", ⟨[], [one "callee", many "arguments"]⟩),
    ("super", ⟨[], []⟩),
    ("metaProperty", ⟨[], [one "meta", one "property"]⟩),
    ("memberExpression", ⟨[("computed", .bool), ("optional", .bool)],
      [one "object", one "property"]⟩),
    ("logicalExpression", ⟨[("operator", .string)], [one "left", one "right"]⟩),
    ("importExpression", ⟨[], [one "source"]⟩),
    ("blockStatement", ⟨[], [many "body"]⟩),
    ("conditionalExpression", ⟨[], [one "test", one "alternate", one "consequent"]⟩),
    ("classExpression", ⟨[], [one "id", one "superClass", one "body"]⟩),
    ("classBody", ⟨[], [many "body"]⟩),
    ("staticBlock", ⟨[], [many "body"]⟩),
    ("propertyDefinition", ⟨[("computed", .bool), ("static", .bool)], [one "key", one "value"]⟩),
    ("methodDefinition", ⟨[("kind", .string), ("computed", .bool), ("static", .bool)],
      [one "key", one "value"]⟩),
    ("chainExpression", ⟨[], [one "expression"]⟩),
    ("callExpression", ⟨[("optional", .bool)], [one "callee", many "arguments"]⟩),
    ("binaryExpression", ⟨[("operator", .string)], [one "left", one "right"]⟩),
    ("awaitExpression", ⟨[], [one "argument"]⟩),
    ("assignmentExpression", ⟨[("operator", .string)], [one "left", one "right"]⟩),
    ("arrowFunctionExpression", ⟨[("expression", .bool), ("generator", .bool), ("async", .bool)],
      [one "body", many "params"]⟩),
    ("arrayExpression", ⟨[], [elements "elements"]⟩),
    ("classDeclaration", ⟨[], [one "id", one "superClass", one "body"]⟩),
    ("functionDeclaration", ⟨[("generator", .bool), ("async", .bool)],
      [one "id", one "body", many "params"]⟩),
    ("exportNamedDeclaration", ⟨[], [one "declaration", many "specifiers", one "source"]⟩),
    ("exportSpecifier", ⟨[], [one "exported", one "local"]⟩),
    ("variableDeclaration", ⟨[("kind", .string)], [many "declarations"]⟩),
    ("variableDeclarator", ⟨[], [one "id", one "init"]⟩),
    ("importDeclaration", ⟨[], [many "specifiers", one "source"]⟩),
    ("importNamespaceSpecifier", ⟨[], [one "local"]⟩),
    ("importDefaultSpecifier", ⟨[], [one "local"]⟩),
    ("importSpecifier", ⟨[], [one "imported", one "local"]⟩),
    ("forOfStatement", ⟨[("await", .bool)], [one "left", one "right", one "body"]⟩),
    ("forInStatement", ⟨[], [one "left", one "right", one "body"]⟩),
    ("forStatement", ⟨[], [one "init", one "test", one "update", one "body"]⟩),
    ("doWhileStatement", ⟨[], [one "body", one "test"]⟩),
    ("whileStatement", ⟨[], [one "test", one "body"]⟩),
    ("tryStatement", ⟨[], [one "block", one "handler", one "finalizer"]⟩),
    ("catchClause", ⟨[], [one "param", one "body"]⟩),
    ("throwStatement", ⟨[], [one "argument"]⟩),
    ("switchStatement", ⟨[], [one "discriminant", many "cases"]⟩),
    ("switchCase", ⟨[], [one "test", many "consequent"]⟩),
    ("ifStatement", ⟨[], [one "test", one "consequent", one "alternate"]⟩),
    ("continueStatement", ⟨[], [one "label"]⟩),
    ("breakStatement", ⟨[], [one "label"]⟩),
    ("labeledStatement", ⟨[], [one "label", one "body"]⟩),
    ("returnStatement", ⟨[], [one "argument"]⟩),
    ("withStatement", ⟨[], [one "object", one "body"]⟩),
    ("debuggerStatement", ⟨[], []⟩),
    ("emptyStatement", ⟨[], []⟩),
    ("expressionStatement", ⟨[("directive", .string)], [one "expression"]⟩),
    ("literal", ⟨[("raw", .string), ("bigint", .string), ("pattern", .string), ("flags", .string),
      ("valueString", .string), ("valueBoolean", .bool), ("valueNumber", .int32)], []⟩),
    ("templateElement", ⟨[("tail", .bool), ("cooked", .string), ("raw", .string)], []⟩),
    ("functionExpression", ⟨[("generator", .bool), ("async", .bool)],
      [one "id", one "body", many "params"]⟩),
    ("exportAssignment", ⟨[], [one "expression"]⟩),
    ("unknownNode", ⟨[("rawType", .string)], []⟩)]

/-! ### Encoding -/

/-- A message before it is encoded: the object that is created for a node, with the single key under
which it holds the fields of the node. -/
inductive Shape
  | mk (type : NodeType) (loc : Location) (key : String) (scalars : Scalars)
      (entries : List (Entry Shape))

inductive Wire
  | string (s : String)
  | bool (b : Bool)
  | int32 (i : ℤ)
  deriving DecidableEq, Repr

abbrev Wires := List (String × Wire)

/-- A message as it is received. `field` is the member of `oneof node` that is set. -/
inductive Msg
  | mk (type : NodeType) (loc : Option Location) (field : Option String) (scalars : Wires)
      (entries : List (Entry Msg))

/-- The 32 bits that an `int32` field keeps. -/
def Number.toInt32 : Number → ℤ
  | .finite q => (q.num.tdiv q.den).bmod 4294967296
  | .infinity => 0

/-- The value of a field, when the property has a value for a field of this type. -/
def FieldType.encode : FieldType → Scalar → Option Wire
  | .string, .string s => some (.string s)
  | .bool, .boolean b => some (.bool b)
  | .int32, .number n => some (.int32 n.toInt32)
  | _, _ => none

namespace Message

def fieldNames (m : Message) : List String :=
  m.scalars.map Prod.fst

def wire (m : Message) (scalars : Scalars) (field : String) : Option Wire := do
  let type ← m.scalars.lookup field
  type.encode (← scalars.lookup field)

def encodeScalars (m : Message) (scalars : Scalars) : Wires :=
  copy m.fieldNames (m.wire scalars)

end Message

/-- A missing element throws in a list of nodes only. -/
def throwsAt (slot : Slot) : Entry Bool → Bool
  | .node _ throws => throws
  | .hole _ => slot.arity == .many

mutual

/-- The fields that the message type of the key declares; a key that is no field leaves the message
empty. -/
def encode : Shape → Msg
  | .mk type loc key scalars entries =>
    match nodeFields.lookup key with
    | some m =>
      .mk type (some loc) (some key) (m.encodeScalars scalars)
        (Slot.project m.nodes (encodeEntries entries))
    | none => .mk type (some loc) none [] []

def encodeEntries : List (Entry Shape) → List (Entry Msg)
  | [] => []
  | .node key shape :: rest => .node key (encode shape) :: encodeEntries rest
  | .hole key :: rest => .hole key :: encodeEntries rest

end

mutual

/-- The encoder throws a `TypeError`. -/
def throws : Shape → Bool
  | .mk _ _ key _ entries =>
    match nodeFields.lookup key with
    | some m => m.nodes.any fun slot => (slot.select (throwsEntries entries)).any (throwsAt slot)
    | none => false

def throwsEntries : List (Entry Shape) → List (Entry Bool)
  | [] => []
  | .node key shape :: rest => .node key (throws shape) :: throwsEntries rest
  | .hole key :: rest => .hole key :: throwsEntries rest

end

theorem encodeEntries_eq_map (entries : List (Entry Shape)) :
    encodeEntries entries = entries.map (Entry.map encode) := by
  induction entries with
  | nil => rfl
  | cons e rest ih =>
    cases e with
    | node key shape => simp [encodeEntries, ih]
    | hole key => simp [encodeEntries, ih]

theorem lookup_encodeScalars (m : Message) (scalars : Scalars) (field : String) :
    (m.encodeScalars scalars).lookup field = m.wire scalars field := by
  by_cases hfield : field ∈ m.fieldNames
  · exact lookup_copy hfield (m.wire scalars)
  · have hnone : m.scalars.lookup field = none := by
      refine List.lookup_eq_none_iff.mpr fun p hp => ?_
      have hne : field ≠ p.1 := fun heq => hfield (heq ▸ List.mem_map_of_mem hp)
      simpa using hne
    show (copy m.fieldNames (m.wire scalars)).lookup field = m.wire scalars field
    rw [lookup_copy_of_notMem hfield]
    simp [Message.wire, hnone]

end SonarJavascript.Ast
