import SonarJavascript.Ast.Estree

/-!
# The Java classes of the tree

`ESTree.java`: the interfaces with the interfaces that they extend, the records with the interfaces that
they implement, and the enums of operators. `isInstance` is the check that every decoded child must pass.
-/

namespace SonarJavascript.Ast

inductive Interface
  | Node | CallExpression | ChainElement | Declaration | Expression | Literal | ModuleDeclaration
  | Pattern | Statement | ExpressionOrSpreadElement | BlockStatementOrExpression
  | MemberExpressionOrPattern | ExpressionOrPrivateIdentifier
  | MethodDefinitionOrPropertyDefinitionOrStaticBlock
  | ExpressionOrClassDeclarationOrFunctionDeclaration | PatternOrVariableDeclaration
  | ExpressionOrVariableDeclaration
  | ImportDefaultSpecifierOrImportNamespaceSpecifierOrImportSpecifier | ExpressionOrSuper
  | PropertyOrSpreadElement | PropertyOrRestElement | DirectiveOrModuleDeclarationOrStatement
  | ExpressionOrPattern | IdentifierOrLiteral
  deriving DecidableEq, Repr

inductive Record
  | ArrayExpression | ArrayPattern | ArrowFunctionExpression | AssignmentExpression
  | AssignmentPattern | AwaitExpression | BigIntLiteral | BinaryExpression | BlockStatement
  | BreakStatement | CatchClause | ChainExpression | ClassBody | ClassDeclaration | ClassExpression
  | ConditionalExpression | ContinueStatement | DebuggerStatement | Directive | DoWhileStatement
  | EmptyStatement | ExportAllDeclaration | ExportAssignment | ExportDefaultDeclaration
  | ExportNamedDeclaration | ExportSpecifier | ExpressionStatement | ForInStatement | ForOfStatement
  | ForStatement | FunctionDeclaration | FunctionExpression | Identifier | IfStatement
  | ImportDeclaration | ImportDefaultSpecifier | ImportExpression | ImportNamespaceSpecifier
  | ImportSpecifier | LabeledStatement | LogicalExpression | MemberExpression | MetaProperty
  | MethodDefinition | NewExpression | ObjectExpression | ObjectPattern | PrivateIdentifier
  | Program | Property | PropertyDefinition | RegExpLiteral | RestElement | ReturnStatement
  | SequenceExpression | SimpleCallExpression | SimpleLiteral | SpreadElement | StaticBlock | Super
  | SwitchCase | SwitchStatement | TaggedTemplateExpression | TemplateElement | TemplateLiteral
  | ThisExpression | ThrowStatement | TryStatement | UnaryExpression | UpdateExpression
  | VariableDeclaration | VariableDeclarator | WhileStatement | WithStatement | YieldExpression
  | UnknownNode
  deriving DecidableEq, Repr

namespace Interface

def superInterfaces : Interface → List Interface
  | .Node => []
  | .CallExpression => [.Expression]
  | .Declaration => [.Statement]
  | .Expression =>
    [.ExpressionOrSpreadElement, .ExpressionOrSuper, .ExpressionOrPrivateIdentifier,
      .ExpressionOrPattern, .ExpressionOrVariableDeclaration,
      .ExpressionOrClassDeclarationOrFunctionDeclaration, .BlockStatementOrExpression]
  | .Literal => [.Expression, .IdentifierOrLiteral]
  | .ModuleDeclaration => [.DirectiveOrModuleDeclarationOrStatement]
  | .Pattern => [.ExpressionOrPattern, .PatternOrVariableDeclaration, .MemberExpressionOrPattern]
  | .Statement => [.DirectiveOrModuleDeclarationOrStatement]
  | _ => [.Node]

/-- The interface and those that it extends in so many steps. -/
def ancestorsWithin : ℕ → Interface → List Interface
  | 0, i => [i]
  | n + 1, i => i :: i.superInterfaces.flatMap (ancestorsWithin n)

/-- The longest chain leads to `Node` in three steps, such as from a declaration. -/
def ancestors (i : Interface) : List Interface :=
  i.ancestorsWithin 3

theorem superInterfaces_subset_ancestors (i : Interface) :
    ∀ j ∈ i.ancestors, ∀ k ∈ j.superInterfaces, k ∈ i.ancestors := by
  cases i <;> decide

end Interface

def Record.interfaces : Record → List Interface
  | .ArrayExpression | .ArrowFunctionExpression | .AssignmentExpression | .AwaitExpression
  | .BinaryExpression | .ChainExpression | .ClassExpression | .ConditionalExpression
  | .FunctionExpression | .ImportExpression | .LogicalExpression | .MetaProperty | .ObjectExpression
  | .SequenceExpression | .TaggedTemplateExpression | .TemplateLiteral | .ThisExpression
  | .UnaryExpression | .UpdateExpression | .YieldExpression | .UnknownNode => [.Expression]
  | .ArrayPattern | .AssignmentPattern | .ObjectPattern => [.Pattern]
  | .BigIntLiteral | .RegExpLiteral | .SimpleLiteral => [.Literal]
  | .BlockStatement => [.BlockStatementOrExpression, .Statement]
  | .BreakStatement | .ContinueStatement | .DebuggerStatement | .Directive | .DoWhileStatement
  | .EmptyStatement | .ExportAssignment | .ExpressionStatement | .ForInStatement | .ForOfStatement
  | .ForStatement | .IfStatement | .LabeledStatement | .ReturnStatement | .SwitchStatement
  | .ThrowStatement | .TryStatement | .WhileStatement | .WithStatement => [.Statement]
  | .CatchClause | .ClassBody | .ExportSpecifier | .Program | .SwitchCase | .TemplateElement
  | .VariableDeclarator => [.Node]
  | .ClassDeclaration | .FunctionDeclaration =>
    [.Declaration, .ExpressionOrClassDeclarationOrFunctionDeclaration]
  | .ExportAllDeclaration | .ExportDefaultDeclaration | .ExportNamedDeclaration | .ImportDeclaration =>
    [.ModuleDeclaration]
  | .Identifier => [.Expression, .Pattern, .IdentifierOrLiteral]
  | .ImportDefaultSpecifier | .ImportNamespaceSpecifier | .ImportSpecifier =>
    [.ImportDefaultSpecifierOrImportNamespaceSpecifierOrImportSpecifier]
  | .MemberExpression => [.ChainElement, .Expression, .Pattern]
  | .MethodDefinition | .PropertyDefinition => [.MethodDefinitionOrPropertyDefinitionOrStaticBlock]
  | .NewExpression => [.CallExpression]
  | .PrivateIdentifier => [.ExpressionOrPrivateIdentifier]
  | .Property => [.PropertyOrSpreadElement, .PropertyOrRestElement]
  | .RestElement => [.PropertyOrRestElement, .Pattern]
  | .SimpleCallExpression => [.CallExpression, .ChainElement]
  | .SpreadElement => [.ExpressionOrSpreadElement, .PropertyOrSpreadElement]
  | .StaticBlock => [.MethodDefinitionOrPropertyDefinitionOrStaticBlock, .Statement]
  | .Super => [.ExpressionOrSuper]
  | .VariableDeclaration =>
    [.ExpressionOrVariableDeclaration, .PatternOrVariableDeclaration, .Declaration]

inductive ESClass
  | interface (i : Interface)
  | record (r : Record)
  deriving DecidableEq, Repr

/-- `clazz.isInstance` for an object of the record. -/
def isInstance (r : Record) : ESClass → Bool
  | .interface i => r.interfaces.any fun j => i ∈ j.ancestors
  | .record r' => r == r'

/-! ### Operators -/

inductive OperatorEnum
  | UnaryOperator | BinaryOperator | LogicalOperator | AssignmentOperator | UpdateOperator
  deriving DecidableEq, Repr

namespace OperatorEnum

/-- The `raw` texts of the constants, which tell the constants of an enum apart. -/
def values : OperatorEnum → List String
  | .UnaryOperator => ["-", "+", "!", "~", "typeof", "void", "delete"]
  | .BinaryOperator =>
    ["==", "!=", "===", "!==", "<", "<=", ">", ">=", "<<", ">>", ">>>", "+", "-", "*", "/", "%",
      "**", "&", "|", "^", "in", "instanceof"]
  | .LogicalOperator => ["&&", "||", "??"]
  | .AssignmentOperator =>
    ["=", "+=", "-=", "*=", "/=", "%=", "**=", "<<=", ">>=", ">>>=", "|=", "^=", "&=", "||=", "&&=",
      "??="]
  | .UpdateOperator => ["++", "--"]

/-- The constant with the text, or null. -/
def fromOperator (e : OperatorEnum) (operator : String) : Option String :=
  e.values.find? fun raw => operator == raw

end OperatorEnum

/-! ### Trees -/

/-- The value of a component of a record. A number is an `Integer`, and an operator is a constant of its
enum or null. -/
inductive JavaValue
  | null
  | string (s : String)
  | boolean (b : Bool)
  | number (n : Number)
  | bigInteger (n : ℤ)
  | operator (raw : Option String)
  deriving DecidableEq, Repr

/-- A record of the tree, with the components that are values and those that are nodes. An entry of a
list of `Optional` that is empty is a hole. -/
inductive Tree
  | mk (record : Record) (loc : Location) (scalars : List (String × JavaValue))
      (entries : List (Entry Tree))

def Tree.record : Tree → Record
  | .mk record _ _ _ => record

end SonarJavascript.Ast
