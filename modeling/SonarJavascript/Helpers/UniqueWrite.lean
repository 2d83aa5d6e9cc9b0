import Mathlib.Data.Fintype.EquivFin
import Mathlib.Data.Fintype.Option
import SonarJavascript.Lib.Unfolding

/-!
# Following a variable to the value written to it

`getUniqueWriteUsageOrNode`, `getValueOfExpression` and `flattenArgs` go from an identifier to the expression
of its only write, wherever this is in the program. They return if and only if they do not come back to a
node on the way, and `flattenArgs` meets no hole of an array.
-/

namespace SonarJavascript.Helpers

open Unfolding

/-! ### Programs -/

/-- What is read off a node. The elements of an array can be null. -/
inductive Syntax (Node : Type)
  | Identifier (name : String)
  | ArrayExpression (elements : List (Option Node))
  | other (type : String)

structure Reference (Node : Type) where
  isWrite : Bool
  writeExpr : Option Node

structure Variable (Node : Type) where
  name : String
  references : List (Reference Node)

/-- The scope at the top has no upper scope. -/
inductive Scope (Node : Type)
  | global (vars : List (Variable Node))
  | inner (vars : List (Variable Node)) (upper : Scope Node)

/-- The nodes of a program with `sourceCode.getScope`. -/
structure Program (Node : Type) where
  syntaxOf : Node → Syntax Node
  getScope : Node → Scope Node

variable {Node : Type}

def Program.type (program : Program Node) (node : Node) : String :=
  match program.syntaxOf node with
  | .Identifier _ => "Identifier"
  | .ArrayExpression _ => "ArrayExpression"
  | .other type => type

/-! ### The helpers -/

def getVariableFromScope (scope : Scope Node) (name : String) : Option (Variable Node) :=
  match scope with
  | .global vars => vars.find? (·.name = name)
  | .inner vars upper =>
    match vars.find? (·.name = name) with
    | some found => some found
    | none => getVariableFromScope upper name

def getVariableFromName (program : Program Node) (name : String) (node : Node) : Option (Variable Node) :=
  getVariableFromScope (program.getScope node) name

def getUniqueWriteReference (found : Option (Variable Node)) : Option Node :=
  match found with
  | none => none
  | some found =>
    match found.references.filter (·.isWrite) with
    | [reference] => reference.writeExpr
    | _ => none

def getUniqueWriteUsage (program : Program Node) (name : String) (node : Node) : Option Node :=
  getUniqueWriteReference (getVariableFromName program name node)

/-- There is no result when the fuel does not suffice. -/
def getUniqueWriteUsageOrNode (program : Program Node) (recursive : Bool) : ℕ → Node → Option Node
  | 0, _ => none
  | fuel + 1, node =>
    match program.syntaxOf node with
    | .Identifier name =>
      match getUniqueWriteUsage program name node with
      | some usage => if recursive then getUniqueWriteUsageOrNode program recursive fuel usage else some usage
      | none => some node
    | _ => some node

/-- The inner option is the node or undefined. -/
def getValueOfExpression (program : Program Node) (type : String) (recursive : Bool) :
    ℕ → Option Node → Option (Option Node)
  | 0, _ => none
  | _ + 1, none => some none
  | fuel + 1, some expr =>
    if program.type expr = type then some (some expr)
    else
      match program.syntaxOf expr with
      | .Identifier name =>
        match getUniqueWriteUsage program name expr with
        | some usage =>
          if program.type usage = type then some (some usage)
          else if recursive then getValueOfExpression program type true fuel (some usage)
          else some none
        | none => some none
      | _ => some none

/-- Reading a property of null. -/
inductive JsError
  | typeError
  deriving DecidableEq, Repr

/-- An exception, or missing fuel, of an element ends the loop. -/
def flatMap {α β : Type} (f : α → Option (Except JsError (List β))) : List α → Option (Except JsError (List β))
  | [] => some (.ok [])
  | x :: xs =>
    match f x with
    | none => none
    | some (.error e) => some (.error e)
    | some (.ok ys) =>
      match flatMap f xs with
      | none => none
      | some (.error e) => some (.error e)
      | some (.ok zs) => some (.ok (ys ++ zs))

namespace flattenArgs

def recHelper (program : Program Node) : ℕ → Option Node → Option (Except JsError (List Node))
  | 0, _ => none
  | _ + 1, none => some (.error .typeError)
  | fuel + 1, some nodePossiblyIdentifier =>
    match getUniqueWriteUsageOrNode program false 1 nodePossiblyIdentifier with
    | none => none
    | some n =>
      match program.syntaxOf n with
      | .ArrayExpression elements => flatMap (recHelper program fuel) elements
      | _ => some (.ok [n])

end flattenArgs

def flattenArgs (program : Program Node) (fuel : ℕ) (args : List Node) : Option (Except JsError (List Node)) :=
  flatMap (fun arg => flattenArgs.recHelper program fuel (some arg)) args

/-! ### When they return -/

section Termination

variable (program : Program Node)

/-- The expression that is the only write to the identifier. -/
def follow (node : Node) : Option Node :=
  match program.syntaxOf node with
  | .Identifier name => getUniqueWriteUsage program name node
  | _ => none

/-- The expression that `getValueOfExpression` is called for next. -/
def followUntil (type : String) (node : Node) : Option Node :=
  if program.type node = type then none
  else (follow program node).filter fun usage => program.type usage ≠ type

/-- The elements that `recHelper` is called for next. -/
def elementsOf (element : Option Node) : List (Option Node) :=
  match element with
  | none => []
  | some node =>
    match program.syntaxOf ((follow program node).getD node) with
    | .ArrayExpression elements => elements
    | _ => []

theorem getUniqueWriteUsageOrNode_isSome (fuel : ℕ) (node : Node) :
    (getUniqueWriteUsageOrNode program true fuel node).isSome ↔
      Unfolds (fun node => (follow program node).toList) (fun _ => True) fuel node := by
  induction fuel generalizing node with
  | zero => simp [getUniqueWriteUsageOrNode, Unfolds]
  | succ fuel ih =>
    rw [getUniqueWriteUsageOrNode, Unfolds, follow]
    cases program.syntaxOf node with
    | Identifier name =>
      dsimp only
      cases getUniqueWriteUsage program name node with
      | none => simp
      | some usage => simp [ih]
    | ArrayExpression elements => simp
    | other type => simp

theorem getValueOfExpression_isSome (type : String) (fuel : ℕ) (expr : Node) :
    (getValueOfExpression program type true fuel (some expr)).isSome ↔
      Unfolds (fun node => (followUntil program type node).toList) (fun _ => True) fuel expr := by
  induction fuel generalizing expr with
  | zero => simp [getValueOfExpression, Unfolds]
  | succ fuel ih =>
    rw [getValueOfExpression, Unfolds, followUntil]
    by_cases htype : program.type expr = type
    · simp [htype]
    rw [if_neg htype, if_neg htype, follow]
    cases program.syntaxOf expr with
    | Identifier name =>
      dsimp only
      cases getUniqueWriteUsage program name expr with
      | none => simp
      | some usage =>
        by_cases husage : program.type usage = type
        · simp [husage]
        · simp [husage, ih]
    | ArrayExpression elements => simp
    | other type => simp

theorem flatMap_eq_ok {α β : Type} {f : α → Option (Except JsError (List β))} {xs : List α} :
    (∃ zs, flatMap f xs = some (.ok zs)) ↔ ∀ x ∈ xs, ∃ ys, f x = some (.ok ys) := by
  induction xs with
  | nil => simp [flatMap]
  | cons x xs ih =>
    rw [flatMap, List.forall_mem_cons, ← ih]
    rcases hx : f x with _ | e | ys
    · simp
    · simp
    · rcases flatMap f xs with _ | e | zs
      · simp
      · simp
      · simp

theorem getUniqueWriteUsageOrNode_once (node : Node) :
    getUniqueWriteUsageOrNode program false 1 node = some ((follow program node).getD node) := by
  rw [getUniqueWriteUsageOrNode, follow]
  cases program.syntaxOf node with
  | Identifier name =>
    dsimp only
    cases getUniqueWriteUsage program name node <;> rfl
  | ArrayExpression elements => rfl
  | other type => rfl

theorem recHelper_eq_ok (fuel : ℕ) (element : Option Node) :
    (∃ nodes, flattenArgs.recHelper program fuel element = some (.ok nodes)) ↔
      Unfolds (elementsOf program) (· ≠ none) fuel element := by
  induction fuel generalizing element with
  | zero => simp [flattenArgs.recHelper, Unfolds]
  | succ fuel ih =>
    cases element with
    | none => simp [flattenArgs.recHelper, Unfolds]
    | some node =>
      rw [flattenArgs.recHelper, getUniqueWriteUsageOrNode_once, Unfolds, elementsOf]
      dsimp only
      cases program.syntaxOf ((follow program node).getD node) with
      | Identifier name => simp
      | ArrayExpression elements =>
        dsimp only
        rw [flatMap_eq_ok, and_iff_right (Option.some_ne_none node)]
        exact forall₂_congr fun element _ => ih element
      | other type => simp

theorem recHelper_mono {fuel fuel' : ℕ} (hle : fuel ≤ fuel') {element : Option Node}
    (h : ∃ nodes, flattenArgs.recHelper program fuel element = some (.ok nodes)) :
    ∃ nodes, flattenArgs.recHelper program fuel' element = some (.ok nodes) :=
  (recHelper_eq_ok program fuel' element).mpr (((recHelper_eq_ok program fuel element).mp h).mono hle)

theorem flattenArgs_eq_ok (args : List Node) :
    (∃ fuel nodes, flattenArgs program fuel args = some (.ok nodes)) ↔
      ∀ arg ∈ args, ∃ fuel, Unfolds (elementsOf program) (· ≠ none) fuel (some arg) := by
  simp only [flattenArgs, flatMap_eq_ok]
  constructor
  · rintro ⟨fuel, h⟩ arg harg
    exact ⟨fuel, (recHelper_eq_ok program fuel _).mp (h arg harg)⟩
  · intro h
    induction args with
    | nil => exact ⟨0, nofun⟩
    | cons arg args ih =>
      obtain ⟨fuel, hrest⟩ := ih fun other hother => h other (List.mem_cons_of_mem _ hother)
      obtain ⟨fuel', harg⟩ := h arg List.mem_cons_self
      refine ⟨max fuel fuel', List.forall_mem_cons.mpr ⟨?_, fun other hother => ?_⟩⟩
      · exact (recHelper_eq_ok program _ _).mpr (harg.mono (le_max_right fuel fuel'))
      · exact recHelper_mono program (le_max_left fuel fuel') (hrest other hother)

end Termination

/-- The helpers return when they do not come back to a node, and when `flattenArgs` meets no hole. -/
theorem returns_iff [Finite Node] (program : Program Node) :
    (∀ node, (∃ fuel, (getUniqueWriteUsageOrNode program true fuel node).isSome) ↔
      AcyclicFrom (fun a b => follow program a = some b) node) ∧
    (∀ type expr, (∃ fuel, (getValueOfExpression program type true fuel (some expr)).isSome) ↔
      AcyclicFrom (fun a b => followUntil program type a = some b) expr) ∧
    (∀ args, (∃ fuel nodes, flattenArgs program fuel args = some (.ok nodes)) ↔
      ∀ arg ∈ args, AcyclicFrom (fun a b => b ∈ elementsOf program a) (some arg) ∧
        ∀ element, Relation.ReflTransGen (fun a b => b ∈ elementsOf program a) (some arg) element →
          element ≠ none) := by
  refine ⟨fun node => ?_, fun type expr => ?_, fun args => ?_⟩
  · simp only [getUniqueWriteUsageOrNode_isSome]
    exact exists_unfolds_toList_iff
  · simp only [getValueOfExpression_isSome]
    exact exists_unfolds_toList_iff
  · rw [flattenArgs_eq_ok]
    exact forall₂_congr fun arg _ => exists_unfolds_iff

/-! ### A variable that is initialized with itself -/

/-- The nodes of `let a = [f, b]; let b = f; let x = x;` that are followed. -/
inductive ExampleNode
  | array | identifierB | identifierF | useOfA | initializerX | useOfX
  deriving DecidableEq, Repr

namespace ExampleNode

def scope : Scope ExampleNode :=
  .global [⟨"a", [⟨true, some array⟩, ⟨false, none⟩]⟩, ⟨"b", [⟨true, some identifierF⟩, ⟨false, none⟩]⟩,
    ⟨"x", [⟨true, some initializerX⟩, ⟨false, none⟩, ⟨false, none⟩]⟩]

def program : Program ExampleNode where
  syntaxOf
    | array => .ArrayExpression [some identifierF, some identifierB]
    | identifierB => .Identifier "b"
    | identifierF => .Identifier "f"
    | useOfA => .Identifier "a"
    | initializerX => .Identifier "x"
    | useOfX => .Identifier "x"
  getScope _ := scope

instance : Finite ExampleNode :=
  Finite.of_injective (fun node => match node with
    | array => (0 : Fin 6) | identifierB => 1 | identifierF => 2 | useOfA => 3 | initializerX => 4 | useOfX => 5)
    (by rintro (_ | _) (_ | _) h <;> first | rfl | cases h)

end ExampleNode

theorem returns_iff_array :
    AcyclicFrom (fun a b => b ∈ elementsOf ExampleNode.program a) (some .useOfA) := by
  have hreturns : flattenArgs ExampleNode.program 3 [.useOfA] = some (.ok [.identifierF, .identifierF]) := by
    rfl
  exact (((returns_iff ExampleNode.program).2.2 [.useOfA]).mp ⟨3, _, hreturns⟩ _ List.mem_cons_self).1

/-- `let x = x` is followed for ever. -/
theorem self_initialized_not_returns :
    ¬ ∀ (Node : Type) (_ : Finite Node) (program : Program Node) (node : Node),
      ∃ fuel, (getUniqueWriteUsageOrNode program true fuel node).isSome := by
  intro h
  obtain ⟨fuel, hsome⟩ := h ExampleNode inferInstance ExampleNode.program .useOfX
  have hnone : ∀ fuel, getUniqueWriteUsageOrNode ExampleNode.program true fuel .initializerX = none := by
    intro fuel
    induction fuel with
    | zero => rfl
    | succ fuel ih => exact ih
  cases fuel with
  | zero => cases hsome
  | succ fuel =>
    have hnext : getUniqueWriteUsageOrNode ExampleNode.program true (fuel + 1) .useOfX = none := hnone fuel
    rw [hnext] at hsome
    cases hsome

end SonarJavascript.Helpers
