import SonarJavascript.Ast.Encoder
import SonarJavascript.Ast.ESTreeFactory

/-!
# Agreement of the three descriptions

A type is described by its visitor, by the fields of its message and by its reader. `Agree` says that what
the reader gets is a field of the message and a property that the visitor writes, of the same arity and
type, under the key that the encoder derives from the type. It is checked for every case of the encoder.
-/

namespace SonarJavascript.Ast

/-- The type of the field that a component is read from, for the kinds that copy their property. -/
def ScalarKind.fieldType : ScalarKind → Option FieldType
  | .string | .operator _ => some .string
  | .boolean => some .bool
  | .int | .bigInteger => none

/-- The readers of a node type, of which the message selects one. -/
def readersOf : NodeType → List Reader
  | .ExpressionStatementType => [fromDirective, fromExpressionStatementType]
  | .LiteralType =>
    [bigIntLiteral, regExpLiteral, simpleLiteral "valueNumber" .int,
      simpleLiteral "valueBoolean" .boolean, simpleLiteral "valueString" .string]
  | type => [readerOf (fun _ => []) type]

theorem readerOf_mem (get : String → Wires) (type : NodeType) : readerOf get type ∈ readersOf type := by
  cases type
  case ExpressionStatementType =>
    show (if _ then fromDirective else fromExpressionStatementType) ∈ _
    split <;> simp [readersOf]
  case LiteralType =>
    show fromLiteralType (get "literal") ∈ _
    unfold fromLiteralType
    repeat' split
    all_goals simp [readersOf]
  all_goals exact List.mem_singleton.mpr rfl

/-- What the tables say about a component with children. -/
def Component.Agrees (type : String) (v : Visitor) (r : Reader) (c : Component) : Prop :=
  r.getter = lowerCaseFirstLetter type ∧ c.slot ∈ v.slots ∧
    ∃ m ∈ nodeFields.lookup (lowerCaseFirstLetter type), c.slot ∈ m.nodes

/-- What the tables say about a component with a value, unless the visitor computes it. -/
def ScalarComponent.Agrees (type : String) (v : Visitor) (r : Reader) (c : ScalarComponent) : Prop :=
  r.getter = lowerCaseFirstLetter type ∧ c.field ∈ v.copied ∧ c.kind.fieldType ≠ none ∧
    ∃ m ∈ nodeFields.lookup (lowerCaseFirstLetter type), m.scalars.lookup c.field = c.kind.fieldType

instance (type : String) (v : Visitor) (r : Reader) (c : Component) : Decidable (c.Agrees type v r) :=
  inferInstanceAs (Decidable (_ ∧ _ ∧ _))

instance (type : String) (v : Visitor) (r : Reader) (c : ScalarComponent) :
    Decidable (c.Agrees type v r) :=
  inferInstanceAs (Decidable (_ ∧ _ ∧ _ ∧ _))

/-! ### The check -/

theorem components_agree :
    ∀ p ∈ switch, ∀ r ∈ readersOf (protobufType p.1), ∀ c ∈ r.components, c.Agrees p.1 p.2 r := by
  decide +kernel

theorem nodup_slots : ∀ p ∈ switch, (p.2.slots.map Slot.key).Nodup := by
  decide

theorem nodup_nodes : ∀ p ∈ nodeFields, (p.2.nodes.map Slot.key).Nodup := by
  decide

end SonarJavascript.Ast
