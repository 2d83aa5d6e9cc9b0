import Mathlib.Data.List.Basic

/-!
# Branches and their equivalence

The helpers of the rules on duplicated code: the branches of an `if` chain and of a `switch`, and the
comparison of two pieces of code by the types of their nodes and the values of their tokens.
-/

namespace SonarJavascript.Helpers

structure Token where
  value : String
  startLine : ℕ
  endLine : ℕ

/-- `if` statements are the nodes of their own constructor only. -/
abbrev OtherType := {type : String // type ≠ "IfStatement"}

inductive Node
  | ifStatement (tokens : List Token) (test consequent : Node) (alternate : Option Node)
  | other (type : OtherType) (tokens : List Token) (children : List Node)

namespace Node

def type : Node → String
  | ifStatement .. => "IfStatement"
  | other type .. => type

def tokens : Node → List Token
  | ifStatement tokens .. => tokens
  | other _ tokens _ => tokens

def isIfStatement : Node → Bool
  | ifStatement .. => true
  | other .. => false

/-- What two nodes are compared by. -/
def text (node : Node) : String × List String := (node.type, node.tokens.map (·.value))

end Node

def compareTokens (firstTokens secondTokens : List Token) : Bool :=
  firstTokens.map (·.value) = secondTokens.map (·.value)

def areEquivalent (first second : Node) : Bool :=
  first.type = second.type && compareTokens first.tokens second.tokens

def areEquivalentLists (first second : List Node) : Bool :=
  first.length = second.length && (first.zip second).all fun pair => areEquivalent pair.1 pair.2

@[simp]
theorem areEquivalent_iff (first second : Node) :
    areEquivalent first second = true ↔ first.text = second.text := by
  simp [areEquivalent, compareTokens, Node.text]

@[simp]
theorem areEquivalentLists_iff (first second : List Node) :
    areEquivalentLists first second = true ↔ first.map Node.text = second.map Node.text := by
  induction first generalizing second with
  | nil => cases second <;> simp [areEquivalentLists]
  | cons a first ih =>
    cases second with
    | nil => simp [areEquivalentLists]
    | cons b second =>
      have ih := ih second
      simp only [areEquivalentLists, Bool.and_eq_true, decide_eq_true_eq] at ih
      simp only [areEquivalentLists, List.length_cons, List.zip_cons_cons, List.all_cons, Bool.and_eq_true,
        decide_eq_true_eq, areEquivalent_iff, List.map_cons, List.cons.injEq, ← ih, Nat.add_right_cancel_iff]
      tauto

/-! ### Branches -/

/-- The branches of the `if` statements that follow one another as alternates, and whether they end with an
`else`, which is a statement of another type. -/
def collectIfBranches : Node → List Node × Bool
  | .ifStatement _ _ consequent none => ([consequent], false)
  | .ifStatement _ _ consequent (some alternate) =>
    (consequent :: (collectIfBranches alternate).1, (collectIfBranches alternate).2)
  | statement => ([statement], true)

structure SwitchCase where
  test : Option Node
  consequent : List Node

/-- Excludes the break statement from the list. -/
def takeWithoutBreak (nodes : List Node) : List Node :=
  match nodes.getLast? with
  | some node => if node.type = "BreakStatement" then nodes.dropLast else nodes
  | none => nodes

/-- The clauses that have an implementation, and the last one. -/
def implementedClauses : List SwitchCase → List SwitchCase
  | [] => []
  | [last] => [last]
  | clause :: rest => if clause.consequent ≠ [] then clause :: implementedClauses rest else implementedClauses rest

def collectSwitchBranches (cases : List SwitchCase) : List (List Node) × Bool :=
  ((implementedClauses cases).map fun clause => takeWithoutBreak clause.consequent,
    cases.any fun clause => clause.test.isNone)

/-- Each branch is equivalent to the one before it. -/
def consecutive {α : Type} (equivalent : α → α → Bool) (branches : List α) : Bool :=
  (branches.tail.zip branches).all fun pair => equivalent pair.1 pair.2

theorem consecutive_iff {α β : Type} {equivalent : α → α → Bool} {text : α → β}
    (htext : ∀ a b, equivalent a b = true ↔ text a = text b) {first : α} {rest : List α} :
    consecutive equivalent (first :: rest) = true ↔ ∀ branch ∈ rest, text branch = text first := by
  induction rest generalizing first with
  | nil => simp [consecutive]
  | cons second rest ih =>
    have hcons : consecutive equivalent (first :: second :: rest) =
        (equivalent second first && consecutive equivalent (second :: rest)) := by
      simp [consecutive]
    rw [hcons, Bool.and_eq_true, htext, ih, List.forall_mem_cons]
    exact and_congr_right fun h => by rw [h]

end SonarJavascript.Helpers
