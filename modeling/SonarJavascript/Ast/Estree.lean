import Mathlib.Algebra.GroupWithZero.Nat
import Mathlib.Data.Rat.Defs
import SonarJavascript.Lib.Projection

/-!
# Syntax trees of the parser

A node of the tree that the parser returns: its `type`, its location, its scalar properties and its
children. The types are strings, since the tree may have nodes that the encoder has never heard of.
-/

namespace SonarJavascript.Ast

/-- The value of a numeric literal. -/
inductive Number
  | finite (q : ℚ)
  | infinity
  deriving DecidableEq, Repr

inductive Scalar
  | null
  | boolean (b : Bool)
  | string (s : String)
  | number (n : Number)
  | bigint (n : ℤ)
  /-- The `regex` property of a literal. -/
  | regex (pattern flags : String)
  /-- The `value` property of a template element. -/
  | template (cooked : Option String) (raw : String)
  deriving DecidableEq, Repr

/-- The scalar properties that a node has; a key without an entry is undefined. -/
abbrev Scalars := List (String × Scalar)

instance neZero_lines : NeZero 2147483648 := ⟨by decide⟩

/-- Lines and columns are within the 32 bits that both sides of the transport give them. -/
structure Position where
  line : Fin 2147483648
  column : Fin 2147483648
  deriving DecidableEq, Repr

structure Location where
  startPosition : Position
  endPosition : Position
  deriving DecidableEq, Repr

/-- The TypeScript nodes that stand for the node they wrap. -/
inductive Skipped
  | TSAsExpression
  | TSSatisfiesExpression
  | TSNonNullExpression
  | TSTypeAssertion
  | TSParameterProperty
  deriving DecidableEq, Repr

def skippedTypes : List String :=
  ["TSAsExpression", "TSSatisfiesExpression", "TSNonNullExpression", "TSTypeAssertion",
    "TSParameterProperty"]

/-- The type of a node that is not skipped. -/
abbrev TypeName := { type : String // type ∉ skippedTypes }

inductive Node
  | mk (type : TypeName) (loc : Location) (scalars : Scalars) (entries : List (Entry Node))
  /-- `expression`, or `parameter` of a parameter property. -/
  | skipped (type : Skipped) (child : Node)

namespace Node

/-- A property of all nodes, from the children to the parent. -/
theorem induct {motive : Node → Prop}
    (hmk : ∀ type loc scalars entries, (∀ key child, Entry.node key child ∈ entries → motive child) →
      motive (mk type loc scalars entries))
    (hskipped : ∀ type child, motive child → motive (skipped type child)) : ∀ n, motive n
  | .skipped type child => hskipped type child (induct hmk hskipped child)
  | .mk type loc scalars entries => by
    refine hmk type loc scalars entries fun key child hchild => ?_
    have hlt : sizeOf child < sizeOf entries := by
      have hentry : sizeOf (Entry.node key child) < sizeOf entries := List.sizeOf_lt_of_mem hchild
      have hnode : sizeOf child < sizeOf (Entry.node key child) := by
        simp only [Entry.node.sizeOf_spec]
        omega
      omega
    exact induct hmk hskipped child

end Node

end SonarJavascript.Ast
