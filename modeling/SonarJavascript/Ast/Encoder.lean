import SonarJavascript.Ast.Proto

/-!
# The encoder

`ast.ts`: the object that is created for a node. A visitor per type copies the scalar properties and
visits the children that its message has fields for; a node of a type without a visitor becomes an
unknown node, and a TypeScript wrapper becomes the node that it wraps.
-/

namespace SonarJavascript.Ast

/-- The properties that a visitor copies, the children that it visits, and the properties that it
computes. -/
structure Visitor where
  copied : List String := []
  slots : List Slot := []
  translated : Option (Scalars → Scalars) := none

def Visitor.fields (v : Visitor) (node : Scalars) : Scalars :=
  copy v.copied (fun key => node.lookup key) ++ v.translated.elim [] fun translate => translate node

/-! ### One visitor per type -/

def visitProgram : Visitor := { copied := ["sourceType"], slots := [many "body"] }

def visitExportAllDeclaration : Visitor := { slots := [one "exported", one "source"] }

/-- `translateValue`. A null value sets none of the three fields. -/
def translateValue : Option Scalar → Scalars
  | some (.string s) => [("valueString", .string s)]
  | some (.number n) => [("valueNumber", .number n)]
  | some (.boolean b) => [("valueBoolean", .boolean b)]
  | _ => []

def translateLiteral (node : Scalars) : Scalars :=
  match node.lookup "bigint", node.lookup "regex" with
  | some bigint, _ => copy ["value"] (fun key => node.lookup key) ++ [("bigInt", bigint)]
  | none, some (.regex pattern flags) => [("flags", .string flags), ("pattern", .string pattern)]
  | none, _ => translateValue (node.lookup "value")

def visitLiteral : Visitor := { copied := ["raw"], translated := some translateLiteral }

def visitIdentifier : Visitor := { copied := ["name"] }

def visitExportDefaultDeclaration : Visitor := { slots := [one "declaration"] }

def visitYieldExpression : Visitor := { copied := ["delegate"], slots := [one "argument"] }

def visitUpdateExpression : Visitor :=
  { copied := ["operator", "prefix"], slots := [one "argument"] }

def visitUnaryExpression : Visitor :=
  { copied := ["operator", "prefix"], slots := [one "argument"] }

def visitThisExpression : Visitor := {}

def visitTemplateLiteral : Visitor := { slots := [many "quasis", many "expressions"] }

def visitTaggedTemplateExpression : Visitor := { slots := [one "tag", one "quasi"] }

def visitSequenceExpression : Visitor := { slots := [many "expressions"] }

def visitObjectExpression : Visitor := { slots := [many "properties"] }

def visitSpreadElement : Visitor := { slots := [one "argument"] }

def visitProperty : Visitor :=
  { copied := ["kind", "method", "shorthand", "computed"], slots := [one "key", one "value"] }

def visitAssignmentPattern : Visitor := { slots := [one "left", one "right"] }

def visitRestElement : Visitor := { slots := [one "argument"] }

def visitArrayPattern : Visitor := { slots := [elements "elements"] }

def visitObjectPattern : Visitor := { slots := [many "properties"] }

def visitPrivateIdentifier : Visitor := { copied := ["name"] }

def visitExportAssignment : Visitor := { slots := [one "expression"] }

def visitNewExpression : Visitor := { slots := [one "callee", many "arguments"] }

def visitSuper : Visitor := {}

def visitMetaProperty : Visitor := { slots := [one "meta", one "property"] }

def visitMemberExpression : Visitor :=
  { copied := ["computed", "optional"], slots := [one "object", one "property"] }

def visitLogicalExpression : Visitor :=
  { copied := ["operator"], slots := [one "left", one "right"] }

def visitImportExpression : Visitor := { slots := [one "source"] }

def visitBlockStatement : Visitor := { slots := [many "body"] }

def visitConditionalExpression : Visitor :=
  { slots := [one "test", one "consequent", one "alternate"] }

def visitClassExpression : Visitor := { slots := [one "id", one "superClass", one "body"] }

def visitClassBody : Visitor := { slots := [many "body"] }

def visitStaticBlock : Visitor := { slots := [many "body"] }

def visitPropertyDefinition : Visitor :=
  { copied := ["computed", "static"], slots := [one "key", one "value"] }

def visitMethodDefinition : Visitor :=
  { copied := ["kind", "computed", "static"], slots := [one "key", one "value"] }

def visitChainExpression : Visitor := { slots := [one "expression"] }

def visitCallExpression : Visitor :=
  { copied := ["optional"], slots := [one "callee", many "arguments"] }

def visitBinaryExpression : Visitor :=
  { copied := ["operator"], slots := [one "left", one "right"] }

def visitAwaitExpression : Visitor := { slots := [one "argument"] }

def visitAssignmentExpression : Visitor :=
  { copied := ["operator"], slots := [one "left", one "right"] }

def visitArrowFunctionExpression : Visitor :=
  { copied := ["expression", "generator", "async"], slots := [one "body", many "params"] }

def visitArrayExpression : Visitor := { slots := [elements "elements"] }

def visitClassDeclaration : Visitor := { slots := [one "id", one "superClass", one "body"] }

def visitFunctionDeclaration : Visitor :=
  { copied := ["generator", "async"], slots := [one "id", one "body", many "params"] }

def visitExportNamedDeclaration : Visitor :=
  { slots := [one "declaration", many "specifiers", one "source"] }

def visitExportSpecifier : Visitor := { slots := [one "exported", one "local"] }

def visitVariableDeclaration : Visitor := { copied := ["kind"], slots := [many "declarations"] }

def visitVariableDeclarator : Visitor := { slots := [one "id", one "init"] }

def visitImportDeclaration : Visitor := { slots := [many "specifiers", one "source"] }

def visitImportNamespaceSpecifier : Visitor := { slots := [one "local"] }

def visitImportDefaultSpecifier : Visitor := { slots := [one "local"] }

def visitImportSpecifier : Visitor := { slots := [one "imported", one "local"] }

def visitForOfStatement : Visitor :=
  { copied := ["await"], slots := [one "left", one "right", one "body"] }

def visitForInStatement : Visitor := { slots := [one "left", one "right", one "body"] }

def visitForStatement : Visitor := { slots := [one "init", one "test", one "update", one "body"] }

def visitDoWhileStatement : Visitor := { slots := [one "body", one "test"] }

def visitWhileStatement : Visitor := { slots := [one "test", one "body"] }

def visitTryStatement : Visitor := { slots := [one "block", one "handler", one "finalizer"] }

def visitCatchClause : Visitor := { slots := [one "param", one "body"] }

def visitThrowStatement : Visitor := { slots := [one "argument"] }

def visitSwitchStatement : Visitor := { slots := [one "discriminant", many "cases"] }

def visitSwitchCase : Visitor := { slots := [one "test", many "consequent"] }

def visitIfStatement : Visitor := { slots := [one "test", one "consequent", one "alternate"] }

def visitContinueStatement : Visitor := { slots := [one "label"] }

def visitBreakStatement : Visitor := { slots := [one "label"] }

def visitLabeledStatement : Visitor := { slots := [one "label", one "body"] }

def visitReturnStatement : Visitor := { slots := [one "argument"] }

def visitWithStatement : Visitor := { slots := [one "object", one "body"] }

def visitDebuggerStatement : Visitor := {}

def visitEmptyStatement : Visitor := {}

-- A directive that is undefined has no entry, in both branches of the source.
def visitExpressionStatement : Visitor :=
  { copied := ["directive"], slots := [one "expression"] }

def translateTemplateValue (node : Scalars) : Scalars :=
  match node.lookup "value" with
  | some (.template (some cooked) raw) => [("cooked", .string cooked), ("raw", .string raw)]
  | some (.template none raw) => [("cooked", .null), ("raw", .string raw)]
  | _ => []

def visitTemplateElement : Visitor :=
  { copied := ["tail"], translated := some translateTemplateValue }

def visitFunctionExpression : Visitor :=
  { copied := ["generator", "async"], slots := [one "id", one "body", many "params"] }

/-! ### The dispatch on the type -/

/-- The `switch`, with the visitor of each case. The types of the other cases, and all others, have no
visitor. -/
def switch : List (String × Visitor) :=
  [("Program", visitProgram), ("ExportAllDeclaration", visitExportAllDeclaration),
    ("Literal", visitLiteral), ("Identifier", visitIdentifier),
    ("ExportDefaultDeclaration", visitExportDefaultDeclaration),
    ("YieldExpression", visitYieldExpression), ("UpdateExpression", visitUpdateExpression),
    ("UnaryExpression", visitUnaryExpression), ("ThisExpression", visitThisExpression),
    ("TemplateLiteral", visitTemplateLiteral),
    ("TaggedTemplateExpression", visitTaggedTemplateExpression),
    ("SequenceExpression", visitSequenceExpression), ("ObjectExpression", visitObjectExpression),
    ("SpreadElement", visitSpreadElement), ("Property", visitProperty),
    ("AssignmentPattern", visitAssignmentPattern), ("RestElement", visitRestElement),
    ("ArrayPattern", visitArrayPattern), ("ObjectPattern", visitObjectPattern),
    ("PrivateIdentifier", visitPrivateIdentifier), ("NewExpression", visitNewExpression),
    ("Super", visitSuper), ("MetaProperty", visitMetaProperty),
    ("MemberExpression", visitMemberExpression), ("LogicalExpression", visitLogicalExpression),
    ("ImportExpression", visitImportExpression), ("BlockStatement", visitBlockStatement),
    ("ConditionalExpression", visitConditionalExpression),
    ("ClassExpression", visitClassExpression), ("ClassBody", visitClassBody),
    ("StaticBlock", visitStaticBlock), ("PropertyDefinition", visitPropertyDefinition),
    ("MethodDefinition", visitMethodDefinition), ("ChainExpression", visitChainExpression),
    ("CallExpression", visitCallExpression), ("BinaryExpression", visitBinaryExpression),
    ("AwaitExpression", visitAwaitExpression), ("AssignmentExpression", visitAssignmentExpression),
    ("ArrowFunctionExpression", visitArrowFunctionExpression),
    ("ArrayExpression", visitArrayExpression), ("ClassDeclaration", visitClassDeclaration),
    ("FunctionDeclaration", visitFunctionDeclaration),
    ("ExportNamedDeclaration", visitExportNamedDeclaration),
    ("ExportSpecifier", visitExportSpecifier), ("VariableDeclaration", visitVariableDeclaration),
    ("VariableDeclarator", visitVariableDeclarator), ("ImportDeclaration", visitImportDeclaration),
    ("ImportNamespaceSpecifier", visitImportNamespaceSpecifier),
    ("ImportDefaultSpecifier", visitImportDefaultSpecifier),
    ("ImportSpecifier", visitImportSpecifier), ("ForOfStatement", visitForOfStatement),
    ("ForInStatement", visitForInStatement), ("ForStatement", visitForStatement),
    ("DoWhileStatement", visitDoWhileStatement), ("WhileStatement", visitWhileStatement),
    ("TryStatement", visitTryStatement), ("CatchClause", visitCatchClause),
    ("ThrowStatement", visitThrowStatement), ("SwitchStatement", visitSwitchStatement),
    ("SwitchCase", visitSwitchCase), ("IfStatement", visitIfStatement),
    ("ContinueStatement", visitContinueStatement), ("BreakStatement", visitBreakStatement),
    ("LabeledStatement", visitLabeledStatement), ("ReturnStatement", visitReturnStatement),
    ("WithStatement", visitWithStatement), ("DebuggerStatement", visitDebuggerStatement),
    ("EmptyStatement", visitEmptyStatement), ("TSExportAssignment", visitExportAssignment),
    ("ExpressionStatement", visitExpressionStatement), ("TemplateElement", visitTemplateElement),
    ("FunctionExpression", visitFunctionExpression)]

def visitUnknownNode (type : String) : Scalars :=
  [("rawType", .string type)]

def lowerCaseFirstLetter (str : String) : String :=
  match str.toList with
  | [] => ""
  | first :: rest => String.ofList (first.toLower :: rest)

/-- The value of the enum for a type. -/
def protobufType (type : String) : NodeType :=
  (nodeTypeEnum.lookup (type ++ "Type")).getD .UnknownNodeType

def shapeScalars (type : String) (node : Scalars) : Scalars :=
  match switch.lookup type with
  | some v => v.fields node
  | none => visitUnknownNode type

/-- The entries that the visitor of the type keeps. -/
def shapeEntries {α : Type} (type : String) (entries : List (Entry α)) : List (Entry α) :=
  match switch.lookup type with
  | some v => Slot.project v.slots entries
  | none => []

mutual

def visitNode : Node → Shape
  | .mk type loc scalars entries =>
    .mk (protobufType type) loc (lowerCaseFirstLetter type) (shapeScalars type scalars)
      (shapeEntries type (visitEntries entries))
  | .skipped _ child => visitNode child

def visitEntries : List (Entry Node) → List (Entry Shape)
  | [] => []
  | .node key child :: rest => .node key (visitNode child) :: visitEntries rest
  | .hole key :: rest => .hole key :: visitEntries rest

end

/-- The message for a program, unless the encoder throws. -/
def serializeInProtobuf (ast : Node) : Option Msg :=
  if throws (visitNode ast) then none else some (encode (visitNode ast))

theorem visitEntries_eq_map (entries : List (Entry Node)) :
    visitEntries entries = entries.map (Entry.map visitNode) := by
  induction entries with
  | nil => rfl
  | cons e rest ih =>
    cases e with
    | node key child => simp [visitEntries, ih]
    | hole key => simp [visitEntries, ih]

theorem shapeEntries_map {α β : Type} (f : α → β) (type : String) (entries : List (Entry α)) :
    shapeEntries type (entries.map (Entry.map f)) =
      (shapeEntries type entries).map (Entry.map f) := by
  unfold shapeEntries
  split
  · exact Slot.project_map f _ entries
  · rfl

theorem serializeInProtobuf_eq_some {ast : Node} {message : Msg}
    (h : serializeInProtobuf ast = some message) : encode (visitNode ast) = message := by
  unfold serializeInProtobuf at h
  split at h
  · cases h
  · exact Option.some.inj h

end SonarJavascript.Ast
