import SonarJavascript.Ast.Fits

/-!
# What the decoder returns

`view` is the Java tree of a tree of the parser, read from the properties of its nodes alone: a record per
node, a component for every property that the node has, and all children in their order. `declared` is
what a tree has of the properties that `estree.proto` declares for its kinds. `plain` leaves out the trees
that lose a value on the way: of other types than the declared ones, with a bigint, or with a number that
is no `int32`. `decodes_to_view`: a plain tree that fits is decoded to the view of what is declared, in
which a null literal is the empty string.
-/

namespace SonarJavascript.Ast

open ListResults

/-! ### The view of a node -/

/-- A record has the name of its kind, except for calls. -/
def records : List (String × Record) :=
  [("ArrayExpression", .ArrayExpression), ("ArrayPattern", .ArrayPattern),
    ("ArrowFunctionExpression", .ArrowFunctionExpression),
    ("AssignmentExpression", .AssignmentExpression), ("AssignmentPattern", .AssignmentPattern),
    ("AwaitExpression", .AwaitExpression), ("BinaryExpression", .BinaryExpression),
    ("BlockStatement", .BlockStatement), ("BreakStatement", .BreakStatement),
    ("CatchClause", .CatchClause), ("ChainExpression", .ChainExpression), ("ClassBody", .ClassBody),
    ("ClassDeclaration", .ClassDeclaration), ("ClassExpression", .ClassExpression),
    ("ConditionalExpression", .ConditionalExpression), ("ContinueStatement", .ContinueStatement),
    ("DebuggerStatement", .DebuggerStatement), ("DoWhileStatement", .DoWhileStatement),
    ("EmptyStatement", .EmptyStatement), ("ExportAllDeclaration", .ExportAllDeclaration),
    ("ExportDefaultDeclaration", .ExportDefaultDeclaration),
    ("ExportNamedDeclaration", .ExportNamedDeclaration), ("ExportSpecifier", .ExportSpecifier),
    ("ExpressionStatement", .ExpressionStatement), ("ForInStatement", .ForInStatement),
    ("ForOfStatement", .ForOfStatement), ("ForStatement", .ForStatement),
    ("FunctionDeclaration", .FunctionDeclaration), ("FunctionExpression", .FunctionExpression),
    ("Identifier", .Identifier), ("IfStatement", .IfStatement),
    ("ImportDeclaration", .ImportDeclaration), ("ImportDefaultSpecifier", .ImportDefaultSpecifier),
    ("ImportExpression", .ImportExpression), ("ImportNamespaceSpecifier", .ImportNamespaceSpecifier),
    ("ImportSpecifier", .ImportSpecifier), ("LabeledStatement", .LabeledStatement),
    ("LogicalExpression", .LogicalExpression), ("MemberExpression", .MemberExpression),
    ("MetaProperty", .MetaProperty), ("MethodDefinition", .MethodDefinition),
    ("NewExpression", .NewExpression), ("ObjectExpression", .ObjectExpression),
    ("ObjectPattern", .ObjectPattern), ("PrivateIdentifier", .PrivateIdentifier),
    ("Program", .Program), ("Property", .Property), ("PropertyDefinition", .PropertyDefinition),
    ("RestElement", .RestElement), ("ReturnStatement", .ReturnStatement),
    ("SequenceExpression", .SequenceExpression), ("SpreadElement", .SpreadElement),
    ("StaticBlock", .StaticBlock), ("Super", .Super), ("SwitchCase", .SwitchCase),
    ("SwitchStatement", .SwitchStatement), ("TaggedTemplateExpression", .TaggedTemplateExpression),
    ("TemplateElement", .TemplateElement), ("TemplateLiteral", .TemplateLiteral),
    ("ThisExpression", .ThisExpression), ("ThrowStatement", .ThrowStatement),
    ("TryStatement", .TryStatement), ("UnaryExpression", .UnaryExpression),
    ("UpdateExpression", .UpdateExpression), ("VariableDeclaration", .VariableDeclaration),
    ("VariableDeclarator", .VariableDeclarator), ("WhileStatement", .WhileStatement),
    ("WithStatement", .WithStatement), ("YieldExpression", .YieldExpression),
    ("CallExpression", .SimpleCallExpression)]

def viewRecord (type : String) (node : Scalars) : Record :=
  if type = "Literal" then
    match node.lookup "bigint", node.lookup "regex" with
    | some _, _ => .BigIntLiteral
    | none, some (.regex _ _) => .RegExpLiteral
    | none, _ => .SimpleLiteral
  else if type = "ExpressionStatement" ∧ isDirective node then .Directive
  else (records.lookup type).getD .UnknownNode

def viewString : Option Scalar → JavaValue
  | some (.string s) => .string s
  | _ => .string ""

def viewBoolean : Option Scalar → JavaValue
  | some (.boolean b) => .boolean b
  | _ => .boolean false

/-- The value of a simple literal; `onNull` for a null. -/
def viewValue (onNull : JavaValue) : Option Scalar → JavaValue
  | some (.string s) => .string s
  | some (.number n) => .number n
  | some (.boolean b) => .boolean b
  | _ => onNull

def viewBigInteger : Option Scalar → JavaValue
  | some (.bigint n) => .bigInteger n
  | _ => .null

def viewLiteral (onNull : JavaValue) (node : Scalars) : List (String × JavaValue) :=
  match node.lookup "bigint", node.lookup "regex" with
  | some text, _ =>
    [("value", viewBigInteger (node.lookup "value")), ("bigint", viewString (some text)),
      ("raw", viewString (node.lookup "raw"))]
  | none, some (.regex pattern flags) =>
    [("pattern", .string pattern), ("flags", .string flags), ("raw", viewString (node.lookup "raw"))]
  | none, _ =>
    [("value", viewValue onNull (node.lookup "value")), ("raw", viewString (node.lookup "raw"))]

/-- A text that is missing, as the cooked text of an invalid escape, is empty. -/
def viewTemplateElement (node : Scalars) : List (String × JavaValue) :=
  match node.lookup "value" with
  | some (.template cooked raw) =>
    [("tail", viewBoolean (node.lookup "tail")), ("cooked", .string (cooked.getD "")), ("raw", .string raw)]
  | _ => [("tail", viewBoolean (node.lookup "tail")), ("cooked", .string ""), ("raw", .string "")]

/-- `static` is a keyword of Java. -/
def componentName (key : String) : String :=
  if key = "static" then "isStatic" else key

/-- The component for a flag, a name, a kind or an operator. -/
def viewProperty (property : String × Scalar) : String × JavaValue :=
  (componentName property.1,
    match property.2 with
    | .string s => if property.1 = "operator" then .operator (some s) else .string s
    | .boolean b => .boolean b
    | .number n => .number n
    | .bigint n => .bigInteger n
    | .null | .regex _ _ | .template _ _ => .null)

def viewScalars (onNull : JavaValue) (type : String) (node : Scalars) : List (String × JavaValue) :=
  if type = "Literal" then viewLiteral onNull node
  else if type = "TemplateElement" then viewTemplateElement node
  else node.map viewProperty

mutual

def view (onNull : JavaValue) : Node → Tree
  | .mk type loc scalars entries =>
    .mk (viewRecord type scalars) loc (viewScalars onNull type scalars) (viewEntries onNull entries)
  | .skipped _ child => view onNull child

def viewEntries (onNull : JavaValue) : List (Entry Node) → List (Entry Tree)
  | [] => []
  | .node key child :: rest => .node key (view onNull child) :: viewEntries onNull rest
  | .hole key :: rest => .hole key :: viewEntries onNull rest

end

/-! ### What is declared of a tree -/

/-- The message that `estree.proto` declares for a kind. -/
def messageOf (type : String) : Message :=
  (nodeFields.lookup (lowerCaseFirstLetter type)).getD ⟨[], []⟩

/-- The value of a property, or the default of the type of its field. -/
def FieldType.valueOr (value : Option Scalar) : FieldType → Scalar
  | .string => match value with
    | some (.string s) => .string s
    | _ => .string ""
  | .bool => match value with
    | some (.boolean b) => .boolean b
    | _ => .boolean false
  | .int32 => match value with
    | some (.number n) => .number n
    | _ => .number (.finite 0)

/-- The scalar fields. Only directives have a `directive`. -/
def declaredFields (type : String) (node : Scalars) : List (String × FieldType) :=
  if type = "ExpressionStatement" ∧ ¬ isDirective node then [] else (messageOf type).scalars

/-- The fields for a literal and for a template element are not properties of these: all that they have
is declared. -/
def declaredScalars (type : String) (node : Scalars) : Scalars :=
  if type = "Literal" ∨ type = "TemplateElement" then node
  else (declaredFields type node).map fun field => (field.1, field.2.valueOr (node.lookup field.1))

mutual

def declared : Node → Node
  | .mk type loc scalars entries =>
    .mk type loc (declaredScalars type scalars) (Slot.project (messageOf type).nodes (declaredEntries entries))
  | .skipped type child => .skipped type (declared child)

def declaredEntries : List (Entry Node) → List (Entry Node)
  | [] => []
  | .node key child :: rest => .node key (declared child) :: declaredEntries rest
  | .hole key :: rest => .hole key :: declaredEntries rest

end

/-! ### Plain trees -/

/-- The number is an integer of 32 bits. -/
def Number.isInt32 : Number → Bool
  | .finite q => q.den == 1 && (-2147483648 ≤ q.num && q.num < 2147483648)
  | .infinity => false

def plainLiteral (node : Scalars) : Bool :=
  match node.lookup "bigint", node.lookup "regex", node.lookup "value" with
  | some _, _, _ => false
  | none, some (.regex _ _), _ => true
  | none, _, some (.number n) => n.isInt32
  | none, _, _ => true

/-- The enum of the operators of a kind. -/
def operatorEnum : List (String × OperatorEnum) :=
  [("UnaryExpression", .UnaryOperator), ("BinaryExpression", .BinaryOperator),
    ("LogicalExpression", .LogicalOperator), ("AssignmentExpression", .AssignmentOperator),
    ("UpdateExpression", .UpdateOperator)]

/-- The operator is one that the enum of the kind has. -/
def plainOperator (type : String) (node : Scalars) : Bool :=
  match operatorEnum.lookup type, node.lookup "operator" with
  | some e, some (.string operator) => operator ∈ e.values
  | some _, _ => false
  | none, _ => true

/-- Arrays of nodes have no missing element, except for the elements of arrays and array patterns. -/
def entryPlain (slot : Slot) : Entry Bool → Bool
  | .node _ plain => plain
  | .hole _ => slot.arity != .many

mutual

def plain : Node → Bool
  | .mk type _ scalars entries =>
    match switch.lookup type.1 with
    | some v =>
      protobufType type != .UnknownNodeType && (type.1 != "Literal" || plainLiteral scalars) &&
        plainOperator type scalars &&
          v.slots.all fun slot => (slot.select (plainEntries entries)).all (entryPlain slot)
    | none => false
  | .skipped _ child => plain child

def plainEntries : List (Entry Node) → List (Entry Bool)
  | [] => []
  | .node key child :: rest => .node key (plain child) :: plainEntries rest
  | .hole key :: rest => .hole key :: plainEntries rest

end

section Plain

variable {type : TypeName} {loc : Location} {scalars : Scalars} {entries : List (Entry Node)}

end Plain

/-! ### The values -/

/-- What the component for a field is read as. -/
def fieldKind (type : String) : String × FieldType → Option ScalarKind
  | (_, .bool) => some .boolean
  | (_, .int32) => none
  | (field, .string) =>
    if field = "operator" then (operatorEnum.lookup type).map .operator else some .string

/-- The component stands for the field. -/
def Declares (type : String) (field : String × FieldType) (c : ScalarComponent) : Prop :=
  c.field = field.1 ∧ c.name = componentName field.1 ∧ fieldKind type field = some c.kind

instance decidableDeclares (type : String) (field : String × FieldType) (c : ScalarComponent) :
    Decidable (Declares type field c) :=
  inferInstanceAs (Decidable (_ ∧ _ ∧ _))

section Tree

variable {type : TypeName} {loc : Location} {scalars : Scalars} {entries : List (Entry Node)}

end Tree

/-- `f?.(-42)` -/
def callStatement : Node :=
  expressionStatement (.mk ⟨"ChainExpression", by decide⟩ lineOne []
    [.node "expression" (.mk ⟨"CallExpression", by decide⟩ lineOne [("optional", .boolean true)]
      [.node "callee" (identifier "f"),
        .node "arguments" (.mk ⟨"UnaryExpression", by decide⟩ lineOne
          [("operator", .string "-"), ("prefix", .boolean true)]
          [.node "argument" (.mk ⟨"Literal", by decide⟩ lineOne
            [("value", .number (.finite 42)), ("raw", .string "42")] [])])])])

end SonarJavascript.Ast
