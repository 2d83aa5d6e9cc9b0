import Mathlib.Data.List.Chain

/-!
# Code path segments, scopes and references

The part of ESLint's code paths and of eslint-scope's scope analysis that the data-flow rules read.
Object identity is an `id` field: two variables or references are the same object when all their
fields agree.
-/

namespace SonarJavascript.Cfg

/-! ### Scope analysis -/

inductive DefinitionType
  | parameter
  | variable
  /-- `FunctionName`, `ClassName`, `CatchClause`, `ImportBinding` and the others. -/
  | other
  deriving DecidableEq

/-- A definition of a variable; `init` is whether `def.node.init` is set. -/
structure Definition where
  type : DefinitionType
  init : Bool
  deriving DecidableEq

structure Variable where
  id : Nat
  name : String
  defs : List Definition
  deriving DecidableEq

/-- A scope, as the lists of variables of the scope itself and of its upper scopes, innermost first. -/
structure Scope where
  chain : List (List Variable)
  deriving DecidableEq

/-- The parent of a node, as far as the rules tell parents apart. -/
inductive Parent
  | assignmentExpression (operator : String)
  | assignmentPattern
  | other
  deriving DecidableEq

inductive WriteExprType
  | literal (raw : Option String)
  | identifier (name : String)
  | other
  deriving DecidableEq

structure WriteExpr where
  type : WriteExprType
  parent : Option Parent
  deriving DecidableEq

/-- A reference to a variable. `isPartial` is eslint-scope's `partial`: a destructuring or a `for … of`
stores only a part of `writeExpr`. `identifierParent` is the parent of `ref.identifier`, `isIdentifier`
tells an `Identifier` from a `JSXIdentifier`. -/
structure Reference where
  id : Nat
  resolved : Option Variable
  isRead : Bool
  isWrite : Bool
  writeExpr : Option WriteExpr
  isPartial : Bool
  scope : Scope
  isIdentifier : Bool
  identifierParent : Option Parent
  deriving DecidableEq

/-- The reference reads `v`. -/
def Reference.Reads (ref : Reference) (v : Variable) : Prop := ref.resolved = some v ∧ ref.isRead = true

/-- The reference writes `v`. -/
def Reference.Writes (ref : Reference) (v : Variable) : Prop := ref.resolved = some v ∧ ref.isWrite = true

instance (ref : Reference) (v : Variable) : Decidable (ref.Reads v) := inferInstanceAs (Decidable (_ ∧ _))
instance (ref : Reference) (v : Variable) : Decidable (ref.Writes v) := inferInstanceAs (Decidable (_ ∧ _))

/-! ### Code path segments -/

abbrev SegmentId := String

/-- The segments of a `Map<string, …>` in insertion order, with edges that stay inside the map. -/
structure SegmentGraph where
  segments : List SegmentId
  nextSegments : SegmentId → List SegmentId
  prevSegments : SegmentId → List SegmentId
  next_mem : ∀ s ∈ segments, ∀ t ∈ nextSegments s, t ∈ segments
  prev_mem : ∀ s ∈ segments, ∀ t ∈ prevSegments s, t ∈ segments

/-- A control-flow graph: the two directions describe the same edges. -/
structure ControlFlowGraph extends SegmentGraph where
  mem_prev_iff : ∀ s ∈ segments, ∀ t ∈ segments, s ∈ prevSegments t ↔ t ∈ nextSegments s

namespace SegmentGraph

variable (g : SegmentGraph)

/-- Consecutive segments are joined by an edge. -/
def IsPath (path : List SegmentId) : Prop := path.IsChain fun s t => t ∈ g.nextSegments s

theorem isPath_cons_cons {s t : SegmentId} {path : List SegmentId} :
    g.IsPath (s :: t :: path) ↔ t ∈ g.nextSegments s ∧ g.IsPath (t :: path) :=
  List.isChain_cons_cons

theorem mem_segments_of_isPath {s : SegmentId} (hs : s ∈ g.segments) {path : List SegmentId}
    (h : g.IsPath (s :: path)) : ∀ t ∈ path, t ∈ g.segments := by
  induction path generalizing s with
  | nil => simp
  | cons t path ih =>
    obtain ⟨hst, htail⟩ := g.isPath_cons_cons.mp h
    have ht := g.next_mem s hs t hst
    intro u hu
    rcases List.mem_cons.mp hu with rfl | hu
    · exact ht
    · exact ih ht htail u hu

end SegmentGraph

end SonarJavascript.Cfg
