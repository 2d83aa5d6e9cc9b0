import Mathlib.Logic.Basic
import Mathlib.Tactic.Tauto

/-!
# Endless loops

The rule S2189 looks for something that ends a loop whose condition is always true. Its visitor carries one
boolean down the body, whether it is in a nested loop, and one out of it.

`hasEndCondition_iff` says when its answer is right: when the body has a plain way out, or else when it has a
labelled continue of an enclosing loop exactly if it has a jump that the visitor mistakes for a way out.
-/

namespace SonarJavascript.Rules.LoopVisitor

/-- The types of nodes that are told apart; all others are `other`. -/
inductive Kind
  | whileStatement
  | doWhileStatement
  | forStatement
  | forInStatement
  | forOfStatement
  | switchStatement
  | labeledStatement (label : String)
  | functionDeclaration
  | functionExpression
  | arrowFunctionExpression
  | staticBlock
  | breakStatement (label : Option String)
  | continueStatement (label : Option String)
  | returnStatement
  | throwStatement
  | yieldExpression
  | other
  deriving DecidableEq

/-- Nodes that are siblings, with their children; a node can be the value of a class field. -/
inductive Code
  | done
  | node (kind : Kind) (isFieldValue : Bool) (children next : Code)

/-! ### The rule -/

/-- `visitNode` for the nodes one after the other; the last argument is the field of the visitor. -/
def visitNodes : Code → Bool → Bool → Bool
  | .done, _, hasEndCondition => hasEndCondition
  | .node kind _ children next, isNestedLoop, hasEndCondition =>
    let visited := match kind with
      | .whileStatement | .doWhileStatement | .forStatement => visitNodes children true hasEndCondition
      | .functionExpression | .functionDeclaration => hasEndCondition
      | .breakStatement label =>
        visitNodes children isNestedLoop (hasEndCondition || !isNestedLoop || label.isSome)
      | .yieldExpression | .returnStatement | .throwStatement => true
      | _ => visitNodes children isNestedLoop hasEndCondition
    visitNodes next isNestedLoop visited

def hasEndCondition (node : Code) : Bool := visitNodes node false false

inductive LoopKind
  | whileStatement
  | doWhileStatement
  | forStatement
  deriving DecidableEq

/-- A loop; of its test it only matters whether it is the literal `true`. -/
structure Loop where
  kind : LoopKind
  testIsTrue : Option Bool
  labels : List String
  body : Code

/-- Only a for statement can have no test. -/
def Loop.isEndless (loop : Loop) : Bool :=
  match loop.kind, loop.testIsTrue with
  | .forStatement, none => true
  | _, test => test = some true

/-- The message that is reported at the first token of the loop. -/
def ruleExtension (loop : Loop) : Option String :=
  if loop.isEndless && !hasEndCondition loop.body then
    some "Correct this loop's end condition to not be invariant."
  else none

/-! ### Places in a body -/

/-- Where a node is: in a function expression or declaration, in any nested function, in a while, do-while or
for statement, in any loop or switch statement, and in statements with these labels. -/
structure Place where
  inFunctionNode : Bool
  inNestedFunction : Bool
  isNestedLoop : Bool
  isBreakable : Bool
  labels : List String

/-- The place of the children of a node. -/
def Place.enter (place : Place) : Kind → Place
  | .whileStatement | .doWhileStatement | .forStatement => { place with isNestedLoop := true, isBreakable := true }
  | .forInStatement | .forOfStatement | .switchStatement => { place with isBreakable := true }
  | .labeledStatement label => { place with labels := label :: place.labels }
  | .functionExpression | .functionDeclaration => { place with inFunctionNode := true, inNestedFunction := true }
  | .arrowFunctionExpression | .staticBlock => { place with inNestedFunction := true }
  | _ => place

/-- The value of a class field is a function of its own. -/
def Place.at (place : Place) (isFieldValue : Bool) : Place :=
  { place with inNestedFunction := place.inNestedFunction || isFieldValue }

/-- A node like that is somewhere in the code. -/
def Somewhere (p : Place → Kind → Prop) : Code → Place → Prop
  | .done, _ => False
  | .node kind isFieldValue children next, place =>
    p (place.at isFieldValue) kind ∨ Somewhere p children ((place.at isFieldValue).enter kind) ∨ Somewhere p next place

def bodyPlace : Place := ⟨false, false, false, false, []⟩

/-- Outside nested functions, a return, throw or yield, a break of the loop, or a break of an enclosing
statement. -/
def Leaves (place : Place) (kind : Kind) : Prop :=
  place.inNestedFunction = false ∧ match kind with
    | .returnStatement | .throwStatement | .yieldExpression => True
    | .breakStatement none => place.isBreakable = false
    | .breakStatement (some label) => label ∉ place.labels
    | _ => False

/-- Outside nested functions, a continue of a statement that encloses the loop with these labels. -/
def Continues (loopLabels : List String) (place : Place) (kind : Kind) : Prop :=
  place.inNestedFunction = false ∧ ∃ label, kind = .continueStatement (some label) ∧
    label ∉ place.labels ∧ label ∉ loopLabels

/-- The loop can be left from its body. -/
def CanEnd (loop : Loop) : Prop :=
  Somewhere (fun place kind => Leaves place kind ∨ Continues loop.labels place kind) loop.body bodyPlace

/-- What the visitor takes for a way out. -/
def Taken (place : Place) (kind : Kind) : Prop :=
  place.inFunctionNode = false ∧ match kind with
    | .returnStatement | .throwStatement | .yieldExpression => True
    | .breakStatement label => place.isNestedLoop = false ∨ label.isSome = true
    | _ => False

/-- What it takes for one and is not: a jump in another kind of nested function, a break of a nested for-in,
for-of or switch statement, or a break of a statement in the body. -/
def Mistaken (place : Place) (kind : Kind) : Prop :=
  place.inFunctionNode = false ∧ match kind with
    | .returnStatement | .throwStatement | .yieldExpression => place.inNestedFunction = true
    | .breakStatement none =>
      place.isNestedLoop = false ∧ (place.isBreakable = true ∨ place.inNestedFunction = true)
    | .breakStatement (some label) => label ∈ place.labels ∨ place.inNestedFunction = true
    | _ => False

variable {p q : Place → Kind → Prop} {place : Place}

theorem somewhere_or (code : Code) (place : Place) :
    Somewhere (fun place kind => p place kind ∨ q place kind) code place ↔
      Somewhere p code place ∨ Somewhere q code place := by
  induction code generalizing place with
  | done => simp [Somewhere]
  | node kind isFieldValue children next ihchildren ihnext =>
    simp only [Somewhere, ihchildren, ihnext]
    tauto

/-- The visitor enters no function node, and what it calls a nested loop is one. -/
structure Place.Fits (place : Place) : Prop where
  nestedFunction : place.inFunctionNode = true → place.inNestedFunction = true
  breakable : place.isNestedLoop = true → place.isBreakable = true

theorem Place.Fits.at (h : place.Fits) (isFieldValue : Bool) : (place.at isFieldValue).Fits where
  nestedFunction hin := by simp [Place.at, h.nestedFunction hin]
  breakable := h.breakable

theorem Place.Fits.enter (h : place.Fits) (kind : Kind) : (place.enter kind).Fits := by
  obtain ⟨hfunction, hbreakable⟩ := h
  cases kind <;> constructor <;> simp_all [Place.enter]

theorem somewhere_congr (hpq : ∀ place kind, place.Fits → (p place kind ↔ q place kind)) (code : Code)
    (h : place.Fits) : Somewhere p code place ↔ Somewhere q code place := by
  induction code generalizing place with
  | done => exact Iff.rfl
  | node kind isFieldValue children next ihchildren ihnext =>
    have hat := h.at isFieldValue
    rw [Somewhere, Somewhere, hpq _ _ hat, ihchildren (hat.enter kind), ihnext h]

theorem not_taken_inFunctionNode (code : Code) (h : place.inFunctionNode = true) : ¬ Somewhere Taken code place := by
  induction code generalizing place with
  | done => exact id
  | node kind isFieldValue children next ihchildren ihnext =>
    have henter : ((place.at isFieldValue).enter kind).inFunctionNode = true := by
      cases kind <;> simp [Place.enter, Place.at, h]
    rw [Somewhere, not_or, not_or]
    refine ⟨fun htaken => ?_, ihchildren henter, ihnext h⟩
    exact absurd (h.symm.trans htaken.1) (by decide)

theorem taken_iff (h : place.Fits) (kind : Kind) : Taken place kind ↔ Leaves place kind ∨ Mistaken place kind := by
  obtain ⟨hfunction, hbreakable⟩ := h
  unfold Taken Leaves Mistaken
  cases kind with
  | breakStatement label => cases label <;> grind
  | _ => grind

theorem visitNodes_iff (code : Code) (place : Place) (acc : Bool) (h : place.inFunctionNode = false) :
    visitNodes code place.isNestedLoop acc = true ↔ acc = true ∨ Somewhere Taken code place := by
  induction code generalizing place acc with
  | done => simp [visitNodes, Somewhere]
  | node kind isFieldValue children next ihchildren ihnext =>
    have hchildren : ∀ acc, ((place.at isFieldValue).enter kind).inFunctionNode = false →
        (visitNodes children ((place.at isFieldValue).enter kind).isNestedLoop acc = true ↔
          acc = true ∨ Somewhere Taken children ((place.at isFieldValue).enter kind)) := fun acc => ihchildren _ acc
    have hself : Taken (place.at isFieldValue) kind ↔ Taken place kind := Iff.rfl
    have hnode : ∀ visited, (visited = true ↔ acc = true ∨ Taken place kind ∨
          Somewhere Taken children ((place.at isFieldValue).enter kind)) →
        (visitNodes next place.isNestedLoop visited = true ↔
          acc = true ∨ Somewhere Taken (.node kind isFieldValue children next) place) := by
      intro visited hvisited
      rw [ihnext _ _ h, hvisited, Somewhere, hself, or_assoc, or_assoc]
    cases kind with
    | whileStatement | doWhileStatement | forStatement => exact hnode _ ((hchildren acc h).trans (by simp [Taken]))
    | functionDeclaration | functionExpression =>
      refine hnode acc ⟨.inl, ?_⟩
      rintro (hacc | htaken | hinside)
      · exact hacc
      · exact htaken.2.elim
      · exact absurd hinside (not_taken_inFunctionNode children rfl)
    | breakStatement label =>
      refine hnode _ ((hchildren _ h).trans ?_)
      simp [Taken, h, or_assoc]
    | returnStatement | throwStatement | yieldExpression => exact hnode true (by simp [Taken, h])
    | _ => exact hnode _ ((hchildren acc h).trans (by simp [Taken]))

theorem fits_bodyPlace : bodyPlace.Fits := ⟨nofun, nofun⟩

/-- The answer is right if the body has a return, throw, yield or break that leaves the loop, and otherwise if
it has a labelled continue of an enclosing loop exactly when it has a jump that is mistaken for a way out. -/
theorem hasEndCondition_iff (loop : Loop) :
    (hasEndCondition loop.body = true ↔ CanEnd loop) ↔
      (Somewhere Leaves loop.body bodyPlace ∨
        (Somewhere (Continues loop.labels) loop.body bodyPlace ↔ Somewhere Mistaken loop.body bodyPlace)) := by
  have hvisited : hasEndCondition loop.body = true ↔ Somewhere Taken loop.body bodyPlace :=
    (visitNodes_iff loop.body bodyPlace false rfl).trans (by simp)
  have htaken := somewhere_congr (fun _ kind h => taken_iff h kind) loop.body fits_bodyPlace
  rw [hvisited, htaken, CanEnd, somewhere_or, somewhere_or]
  tauto

/-- Where the answer is right, an endless loop is reported if and only if it cannot be left. -/
theorem reported_iff (loop : Loop) (hendless : loop.isEndless = true)
    (hright : hasEndCondition loop.body = true ↔ CanEnd loop) :
    (ruleExtension loop).isSome = true ↔ ¬ CanEnd loop := by
  rw [← hright, ruleExtension, hendless]
  cases hasEndCondition loop.body <;> simp

/-- In `while (true) \x7b xs.forEach(x => \x7b return x; \x7d); \x7d` the return of the arrow function is taken for the
end of the loop. -/
theorem arrow_return_mistaken :
    let loop : Loop := ⟨.whileStatement, some true, [], .node .other false
      (.node .arrowFunctionExpression false (.node .returnStatement false .done .done) .done) .done⟩
    ¬ (hasEndCondition loop.body = true ↔ CanEnd loop) := by
  intro loop h
  have hcan : CanEnd loop := h.mp rfl
  simp [CanEnd, loop, Somewhere, Leaves, Continues, Place.enter, Place.at] at hcan

end SonarJavascript.Rules.LoopVisitor
