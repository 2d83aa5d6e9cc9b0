import SonarJavascript.Regex.Range

/-!
# The complexity of a regular expression

`ComplexityCalculator` of S5843 adds up increments in the handlers of a visitor, with one counter of the nesting that is
raised when a node is entered and lowered when it is left. `visit_eq_cost`: the counter is back where it was, and the sum
is that of the recursive definition `cost`.
-/

namespace SonarJavascript.Rules.RegexComplexity

open Regex
open Regex.Node (Visit)

/-! ### The visitor -/

section Walk

variable {State : Type} (enter : Visit → State → Option State) (leave : Visit → State → State)

mutual

/-- `visitRegExpAST` with the handlers of a node, of which the first one may throw. -/
def walk (parentType : String) (start : ℕ) : Node → State → Option State
  | node@(.Pattern alternatives), state => do
    let entered ← enter ⟨node, start, parentType⟩ state
    let walked ← walkJoined node.type (units "|") start alternatives entered
    return leave ⟨node, start, parentType⟩ walked
  | node@(.Alternative elements), state => do
    let entered ← enter ⟨node, start, parentType⟩ state
    let walked ← walkJoined node.type [] start elements entered
    return leave ⟨node, start, parentType⟩ walked
  | node@(.Group opening alternatives), state | node@(.CapturingGroup opening _ alternatives), state
  | node@(.Lookaround opening alternatives), state => do
    let entered ← enter ⟨node, start, parentType⟩ state
    let walked ← walkJoined node.type (units "|") (start + opening.length) alternatives entered
    return leave ⟨node, start, parentType⟩ walked
  | node@(.Quantifier element _ _ _ _), state => do
    let entered ← enter ⟨node, start, parentType⟩ state
    let walked ← walk node.type start element entered
    return leave ⟨node, start, parentType⟩ walked
  | node@(.CharacterClass opening elements), state => do
    let entered ← enter ⟨node, start, parentType⟩ state
    let walked ← walkJoined node.type [] (start + opening.length) elements entered
    return leave ⟨node, start, parentType⟩ walked
  | node@(.CharacterClassRange min max), state => do
    let entered ← enter ⟨node, start, parentType⟩ state
    let first ← walk node.type start min entered
    let walked ← walk node.type (start + min.raw.length + 1) max first
    return leave ⟨node, start, parentType⟩ walked
  | node@(.ClassOperation _ opening separator _ operands), state => do
    let entered ← enter ⟨node, start, parentType⟩ state
    let walked ← walkJoined node.type separator (start + opening.length) operands entered
    return leave ⟨node, start, parentType⟩ walked
  | node@(.Edge _), state | node@(.Character _ _), state | node@(.CharacterSet _), state
  | node@(.Backreference _), state => do
    let entered ← enter ⟨node, start, parentType⟩ state
    return leave ⟨node, start, parentType⟩ entered

def walkJoined (parentType : String) (separator : JsString) (start : ℕ) : List Node → State → Option State
  | [], state => some state
  | node :: nodes, state => do
    let walked ← walk parentType start node state
    walkJoined parentType separator (start + node.raw.length + separator.length) nodes walked

end

end Walk

/-! ### The calculator -/

/-- `estree.Literal | estree.TemplateLiteral` -/
inductive RegexPart
  | regexLiteral
  | stringLiteral (literal : StringLiteral)
  | templateLiteral (length : ℕ)

def RegexPart.toPatternNode : RegexPart → PatternNode
  | regexLiteral => .regexLiteral
  | stringLiteral literal => .stringLiteral literal
  | templateLiteral length => .templateLiteral length

structure Component (Loc : Type) where
  loc : Loc × Loc
  message : String

structure ComplexityCalculator (Loc : Type) where
  nesting : ℤ := 1
  complexity : ℤ := 0
  components : List (Component Loc) := []

section Calculator

variable {Loc : Type} (getLocFromIndex : ℤ → Loc) (part : RegexPart) (partStart : ℤ) (partLoc : Loc × Loc)

/-- Without a value where it throws, and with none for an empty range. -/
def getRegexpLocation (regexpNode : Visit) (offset : ℤ × ℤ) : Option (Option (Loc × Loc)) :=
  match part with
  | .templateLiteral _ => some (some partLoc)
  | _ => do
    let (reStart, reEnd) ← getRegexpRange part.toPatternNode regexpNode
    let locationStart := partStart + reStart + offset.1
    let locationEnd := partStart + reEnd + offset.2
    return if locationStart = locationEnd then none else some (getLocFromIndex locationStart, getLocFromIndex locationEnd)

def messageOf (increment : ℤ) : String :=
  "+" ++ toString increment ++
    if increment > 1 then " (incl " ++ toString (increment - 1) ++ " for nesting)" else ""

def increaseComplexity (increment : ℤ) (node : Visit) (offset : ℤ × ℤ) (calculator : ComplexityCalculator Loc) :
    Option (ComplexityCalculator Loc) := do
  let loc ← getRegexpLocation getLocFromIndex part partStart partLoc node offset
  return { calculator with
    complexity := calculator.complexity + increment
    components := calculator.components ++ (loc.map fun loc => ⟨loc, messageOf increment⟩).toList }

/-- The loop over the second and the later alternatives. -/
def increaseForAlternatives (increment : ℤ) :
    List Visit → ComplexityCalculator Loc → Option (ComplexityCalculator Loc)
  | _ :: second :: others, calculator => do
    let (start, stop) ← getRegexpRange part.toPatternNode second
    let increased ← increaseComplexity getLocFromIndex part partStart partLoc increment second
      (-1, -((stop : ℤ) - start)) calculator
    increaseForAlternatives 1 (second :: others) increased
  | _, calculator => some calculator

def alternativesFrom (parentType : String) (start : ℕ) : List Node → List Visit
  | [] => []
  | node :: nodes => ⟨node, start, parentType⟩ :: alternativesFrom parentType (start + node.raw.length + 1) nodes

def onDisjunctionEnter (alternatives : List Visit) (calculator : ComplexityCalculator Loc) :
    Option (ComplexityCalculator Loc) :=
  if alternatives.length > 1 then do
    let increased ← increaseForAlternatives getLocFromIndex part partStart partLoc calculator.nesting alternatives
      calculator
    return { increased with nesting := increased.nesting + 1 }
  else some calculator

def onDisjunctionLeave (alternatives : List Node) (calculator : ComplexityCalculator Loc) : ComplexityCalculator Loc :=
  if alternatives.length > 1 then { calculator with nesting := calculator.nesting - 1 } else calculator

/-- `(?<=` or `(?<!` -/
def isLookbehind (opening : JsString) : Bool := opening[2]? = some 60

/-- The handlers with `Enter` in their names. -/
def onEnter (visit : Visit) (calculator : ComplexityCalculator Loc) : Option (ComplexityCalculator Loc) :=
  match visit.node with
  | .Lookaround opening alternatives => do
    let (start, stop) ← getRegexpRange part.toPatternNode visit
    let increased ← increaseComplexity getLocFromIndex part partStart partLoc calculator.nesting visit
      (0, -((stop : ℤ) - start - 1) + if isLookbehind opening then "?<=".length else "?=".length) calculator
    onDisjunctionEnter getLocFromIndex part partStart partLoc
      (alternativesFrom "Assertion" (visit.start + opening.length) alternatives)
      { increased with nesting := increased.nesting + 1 }
  | .Backreference _ => increaseComplexity getLocFromIndex part partStart partLoc 1 visit (0, 0) calculator
  | .CapturingGroup opening _ alternatives =>
    onDisjunctionEnter getLocFromIndex part partStart partLoc
      (alternativesFrom "CapturingGroup" (visit.start + opening.length) alternatives) calculator
  | .CharacterClass _ _ => do
    let (start, stop) ← getRegexpRange part.toPatternNode visit
    let increased ← increaseComplexity getLocFromIndex part partStart partLoc 1 visit
      (0, -((stop : ℤ) - start - 1)) calculator
    return { increased with nesting := increased.nesting + 1 }
  | .Group opening alternatives =>
    onDisjunctionEnter getLocFromIndex part partStart partLoc
      (alternativesFrom "Group" (visit.start + opening.length) alternatives) calculator
  | .Pattern alternatives =>
    onDisjunctionEnter getLocFromIndex part partStart partLoc (alternativesFrom "Pattern" visit.start alternatives)
      calculator
  | .Quantifier element _ _ _ _ => do
    let (start, _) ← getRegexpRange part.toPatternNode visit
    let (_, stop) ← getRegexpRange part.toPatternNode ⟨element, visit.start, "Quantifier"⟩
    let increased ← increaseComplexity getLocFromIndex part partStart partLoc calculator.nesting visit
      ((stop : ℤ) - start, 0) calculator
    return { increased with nesting := increased.nesting + 1 }
  | _ => some calculator

/-- The handlers with `Leave` in their names. -/
def onLeave (visit : Visit) (calculator : ComplexityCalculator Loc) : ComplexityCalculator Loc :=
  match visit.node with
  | .Lookaround _ alternatives =>
    let left := onDisjunctionLeave alternatives calculator
    { left with nesting := left.nesting - 1 }
  | .CapturingGroup _ _ alternatives | .Group _ alternatives | .Pattern alternatives =>
    onDisjunctionLeave alternatives calculator
  | .CharacterClass _ _ | .Quantifier _ _ _ _ _ => { calculator with nesting := calculator.nesting - 1 }
  | _ => calculator

/-- `visit`, for what the part is parsed as: the literal has a slash in front of the pattern. -/
def visit (regexPartAST : Option Node) : Option (ComplexityCalculator Loc) :=
  match regexPartAST with
  | none => some {}
  | some pattern =>
    walk (onEnter getLocFromIndex part partStart partLoc) onLeave "RegExpLiteral" 1 pattern {}

end Calculator

/-! ### The recursive definition -/

mutual

/-- What a node costs in a nesting. -/
def cost (n : ℤ) : Node → ℤ
  | .Quantifier element _ _ _ _ => n + cost (n + 1) element
  | .Lookaround _ alternatives => n + disjunctionCost (n + 1) alternatives
  | .Pattern alternatives | .Group _ alternatives | .CapturingGroup _ _ alternatives => disjunctionCost n alternatives
  | .CharacterClass _ elements => 1 + totalCost (n + 1) elements
  | .Backreference _ => 1
  | .Alternative elements => totalCost n elements
  | .CharacterClassRange min max => cost n min + cost n max
  | .ClassOperation _ _ _ _ operands => totalCost n operands
  | .Edge _ | .Character _ _ | .CharacterSet _ => 0

def disjunctionCost (n : ℤ) (alternatives : List Node) : ℤ :=
  if alternatives.length > 1 then n + (alternatives.length - 2) + totalCost (n + 1) alternatives
  else totalCost n alternatives

def totalCost (n : ℤ) : List Node → ℤ
  | [] => 0
  | node :: nodes => cost n node + totalCost n nodes

end

/-! ### The handlers -/

section Handlers

variable {Loc : Type} {getLocFromIndex : ℤ → Loc} {part : RegexPart} {partStart : ℤ} {partLoc : Loc × Loc}

/-- A part is a literal, so there is a range. -/
theorem exists_range (part : RegexPart) (node : Visit) :
    ∃ start stop, getRegexpRange part.toPatternNode node = some (start, stop) := by
  cases part with
  | regexLiteral => exact ⟨_, _, rfl⟩
  | templateLiteral length => exact ⟨_, _, rfl⟩
  | stringLiteral literal =>
    rw [RegexPart.toPatternNode, getRegexpRange]
    by_cases hvalue : literal.value = []
    · exact ⟨0, 2, if_pos hvalue⟩
    · obtain ⟨tokens, htokens, hranges⟩ := exists_tokens literal
      have hne : tokens ≠ [] := by
        rintro rfl
        exact readFrom_ne_nil hvalue (List.map_eq_nil_iff.mp hranges.symm)
      simp only [if_neg hvalue, htokens, Option.bind_eq_bind, Option.bind_some]
      split_ifs with hempty hlt
      · rw [List.getElem?_eq_getElem hlt]
        exact ⟨_, _, rfl⟩
      · rw [List.getLast?_eq_some_getLast hne]
        exact ⟨_, _, rfl⟩
      · split
        · exact ⟨_, _, rfl⟩
        · exact ⟨_, _, rfl⟩

theorem exists_location (node : Visit) (offset : ℤ × ℤ) :
    ∃ loc, getRegexpLocation getLocFromIndex part partStart partLoc node offset = some loc := by
  obtain ⟨start, stop, hrange⟩ := exists_range part node
  cases part with
  | templateLiteral length => exact ⟨_, rfl⟩
  | regexLiteral => exact ⟨_, rfl⟩
  | stringLiteral literal =>
    rw [getRegexpLocation]
    · rw [hrange]
      exact ⟨_, rfl⟩
    · nofun

/-- A handler returns, and adds to the nesting and to the complexity. -/
def Adds (nesting complexity : ℤ) (result : Option (ComplexityCalculator Loc)) (calculator : ComplexityCalculator Loc) :
    Prop :=
  ∃ calculator', result = some calculator' ∧ calculator'.nesting = calculator.nesting + nesting ∧
    calculator'.complexity = calculator.complexity + complexity

theorem adds_increaseComplexity (increment : ℤ) (node : Visit) (offset : ℤ × ℤ)
    (calculator : ComplexityCalculator Loc) : Adds 0 increment
      (increaseComplexity getLocFromIndex part partStart partLoc increment node offset calculator) calculator := by
  obtain ⟨loc, hloc⟩ := @exists_location _ getLocFromIndex part partStart partLoc node offset
  rw [increaseComplexity, hloc]
  exact ⟨_, rfl, (Int.add_zero _).symm, rfl⟩

/-- The first increment is that of the loop, all others are 1. -/
theorem adds_increaseForAlternatives (increment : ℤ) (first second : Visit) (others : List Visit)
    (calculator : ComplexityCalculator Loc) : Adds 0 (increment + others.length)
      (increaseForAlternatives getLocFromIndex part partStart partLoc increment (first :: second :: others) calculator)
      calculator := by
  induction others generalizing increment first second calculator with
  | nil =>
    obtain ⟨start, stop, hrange⟩ := exists_range part second
    obtain ⟨increased, hincreased, hnesting, hcomplexity⟩ := @adds_increaseComplexity _ getLocFromIndex part partStart
      partLoc increment second (-1, -((stop : ℤ) - start)) calculator
    refine ⟨increased, ?_, hnesting, by simpa using hcomplexity⟩
    simp only [increaseForAlternatives, hrange, hincreased, Option.bind_eq_bind, Option.bind_some]
  | cons third others ih =>
    obtain ⟨start, stop, hrange⟩ := exists_range part second
    obtain ⟨increased, hincreased, hnesting, hcomplexity⟩ := @adds_increaseComplexity _ getLocFromIndex part partStart
      partLoc increment second (-1, -((stop : ℤ) - start)) calculator
    obtain ⟨last, hlast, hnesting', hcomplexity'⟩ := ih 1 second third increased
    refine ⟨last, ?_, by omega, ?_⟩
    · rw [increaseForAlternatives]
      simp only [hrange, hincreased, Option.bind_eq_bind, Option.bind_some]
      exact hlast
    · rw [List.length_cons]
      push_cast
      omega

/-- What a disjunction adds to the nesting of its alternatives. -/
def raise (alternatives : List Node) : ℤ := if alternatives.length > 1 then 1 else 0

theorem length_alternativesFrom {parentType : String} {start : ℕ} {nodes : List Node} :
    (alternativesFrom parentType start nodes).length = nodes.length := by
  induction nodes generalizing start with
  | nil => rfl
  | cons node nodes ih => exact congrArg (· + 1) ih

theorem adds_onDisjunctionEnter (parentType : String) (start : ℕ) (alternatives : List Node)
    (calculator : ComplexityCalculator Loc) : Adds (raise alternatives)
      (disjunctionCost calculator.nesting alternatives - totalCost (calculator.nesting + raise alternatives) alternatives)
      (onDisjunctionEnter getLocFromIndex part partStart partLoc (alternativesFrom parentType start alternatives) calculator)
      calculator := by
  rw [onDisjunctionEnter, length_alternativesFrom, raise, disjunctionCost]
  split_ifs with hlength
  · match alternatives, hlength with
    | first :: second :: others, _ =>
      obtain ⟨increased, hincreased, hnesting, hcomplexity⟩ := @adds_increaseForAlternatives _ getLocFromIndex part
        partStart partLoc calculator.nesting ⟨first, start, parentType⟩
        ⟨second, start + first.raw.length + 1, parentType⟩
        (alternativesFrom parentType (start + first.raw.length + 1 + second.raw.length + 1) others) calculator
      refine ⟨{ increased with nesting := increased.nesting + 1 }, ?_, ?_, ?_⟩
      · simp only [alternativesFrom, hincreased, Option.bind_eq_bind, Option.bind_some, pure]
      · change increased.nesting + 1 = _
        omega
      · change increased.complexity = _
        rw [hcomplexity, length_alternativesFrom, List.length_cons, List.length_cons]
        push_cast
        omega
  · rw [Int.add_zero, Int.sub_self]
    exact ⟨calculator, rfl, (Int.add_zero _).symm, (Int.add_zero _).symm⟩

theorem onDisjunctionLeave_eq (alternatives : List Node) (calculator : ComplexityCalculator Loc) :
    (onDisjunctionLeave alternatives calculator).nesting = calculator.nesting - raise alternatives ∧
      (onDisjunctionLeave alternatives calculator).complexity = calculator.complexity := by
  rw [onDisjunctionLeave, raise]
  split_ifs
  · exact ⟨rfl, rfl⟩
  · exact ⟨(Int.sub_zero _).symm, rfl⟩

/-- A node whose handlers raise the nesting for its children and lower it again. -/
theorem Adds.node {raised own children : ℤ} {entered : Option (ComplexityCalculator Loc)}
    {walked : ComplexityCalculator Loc → Option (ComplexityCalculator Loc)}
    {leave : ComplexityCalculator Loc → ComplexityCalculator Loc} {calculator : ComplexityCalculator Loc}
    (henter : Adds raised own entered calculator)
    (hwalk : ∀ inner, inner.nesting = calculator.nesting + raised → Adds 0 children (walked inner) inner)
    (hleave : ∀ inner, (leave inner).nesting = inner.nesting - raised ∧ (leave inner).complexity = inner.complexity) :
    Adds 0 (own + children) (entered.bind fun inner => (walked inner).bind fun last => some (leave last)) calculator := by
  obtain ⟨first, rfl, hfirst, hown⟩ := henter
  obtain ⟨last, hlast, hnesting, hchildren⟩ := hwalk first hfirst
  obtain ⟨hleft, hsame⟩ := hleave last
  refine ⟨leave last, ?_, by omega, by omega⟩
  rw [Option.bind_some, hlast, Option.bind_some]

/-- A disjunction adds its cost. -/
theorem adds_disjunction {parentType : String} {start : ℕ} {alternatives : List Node}
    {walked : ComplexityCalculator Loc → Option (ComplexityCalculator Loc)} {calculator : ComplexityCalculator Loc}
    (hwalk : ∀ inner, Adds 0 (totalCost inner.nesting alternatives) (walked inner) inner) :
    Adds 0 (disjunctionCost calculator.nesting alternatives)
      ((onDisjunctionEnter getLocFromIndex part partStart partLoc (alternativesFrom parentType start alternatives)
        calculator).bind fun inner => (walked inner).bind fun last => some (onDisjunctionLeave alternatives last))
      calculator := by
  rw [← Int.sub_add_cancel (disjunctionCost _ _) (totalCost (calculator.nesting + raise alternatives) alternatives)]
  refine (adds_onDisjunctionEnter parentType start alternatives calculator).node (fun inner hinner => ?_)
    (onDisjunctionLeave_eq alternatives)
  rw [← hinner]
  exact hwalk inner

theorem adds_none (calculator : ComplexityCalculator Loc) : Adds 0 0 (some calculator) calculator :=
  ⟨calculator, rfl, (Int.add_zero _).symm, (Int.add_zero _).symm⟩

theorem leave_none (calculator : ComplexityCalculator Loc) :
    calculator.nesting = calculator.nesting - 0 ∧ calculator.complexity = calculator.complexity :=
  ⟨(Int.sub_zero _).symm, rfl⟩

theorem Adds.lower (calculator : ComplexityCalculator Loc) :
    ({ calculator with nesting := calculator.nesting - 1 } : ComplexityCalculator Loc).nesting = calculator.nesting - 1 ∧
      ({ calculator with nesting := calculator.nesting - 1 } : ComplexityCalculator Loc).complexity =
        calculator.complexity :=
  ⟨rfl, rfl⟩

theorem adds_onEnter_quantifier {element : Node} {min : ℕ} {max : Option ℕ} {greedy : Bool} {text : JsString}
    (start : ℕ) (parentType : String) (calculator : ComplexityCalculator Loc) : Adds 1 calculator.nesting
      (onEnter getLocFromIndex part partStart partLoc ⟨.Quantifier element min max greedy text, start, parentType⟩
        calculator) calculator := by
  obtain ⟨first, _, hfirst⟩ := exists_range part ⟨.Quantifier element min max greedy text, start, parentType⟩
  obtain ⟨_, stop, hstop⟩ := exists_range part ⟨element, start, "Quantifier"⟩
  obtain ⟨increased, hincreased, hnesting, hcomplexity⟩ := @adds_increaseComplexity _ getLocFromIndex part partStart
    partLoc calculator.nesting ⟨.Quantifier element min max greedy text, start, parentType⟩ ((stop : ℤ) - first, 0)
    calculator
  refine ⟨{ increased with nesting := increased.nesting + 1 }, ?_, by dsimp only; omega, hcomplexity⟩
  simp only [onEnter, hfirst, hstop, hincreased, Option.bind_eq_bind, Option.bind_some, pure]

theorem adds_onEnter_class {opening : JsString} {elements : List Node} (start : ℕ) (parentType : String)
    (calculator : ComplexityCalculator Loc) : Adds 1 1 (onEnter getLocFromIndex part partStart partLoc
      ⟨.CharacterClass opening elements, start, parentType⟩ calculator) calculator := by
  obtain ⟨first, stop, hrange⟩ := exists_range part ⟨.CharacterClass opening elements, start, parentType⟩
  obtain ⟨increased, hincreased, hnesting, hcomplexity⟩ := @adds_increaseComplexity _ getLocFromIndex part partStart
    partLoc 1 ⟨.CharacterClass opening elements, start, parentType⟩ (0, -((stop : ℤ) - first - 1)) calculator
  refine ⟨{ increased with nesting := increased.nesting + 1 }, ?_, by dsimp only; omega, hcomplexity⟩
  simp only [onEnter, hrange, hincreased, Option.bind_eq_bind, Option.bind_some, pure]

/-- Raised twice if there are several alternatives. -/
theorem adds_onEnter_lookaround {opening : JsString} {alternatives : List Node} (start : ℕ) (parentType : String)
    (calculator : ComplexityCalculator Loc) : Adds (1 + raise alternatives)
      (calculator.nesting + (disjunctionCost (calculator.nesting + 1) alternatives -
        totalCost (calculator.nesting + (1 + raise alternatives)) alternatives))
      (onEnter getLocFromIndex part partStart partLoc ⟨.Lookaround opening alternatives, start, parentType⟩ calculator)
      calculator := by
  obtain ⟨first, stop, hrange⟩ := exists_range part ⟨.Lookaround opening alternatives, start, parentType⟩
  obtain ⟨increased, hincreased, hnesting, hcomplexity⟩ := @adds_increaseComplexity _ getLocFromIndex part partStart
    partLoc calculator.nesting ⟨.Lookaround opening alternatives, start, parentType⟩
    (0, -((stop : ℤ) - first - 1) + if isLookbehind opening then "?<=".length else "?=".length) calculator
  have hraised : increased.nesting + 1 = calculator.nesting + 1 := by omega
  obtain ⟨entered, hentered, hnesting', hcomplexity'⟩ := @adds_onDisjunctionEnter _ getLocFromIndex part partStart
    partLoc "Assertion" (start + opening.length) alternatives { increased with nesting := increased.nesting + 1 }
  dsimp only at hnesting' hcomplexity'
  rw [hraised] at hnesting' hcomplexity'
  rw [Int.add_assoc] at hcomplexity'
  refine ⟨entered, ?_, by omega, by omega⟩
  simp only [onEnter, hrange, hincreased, Option.bind_eq_bind, Option.bind_some]
  exact hentered

end Handlers

/-! ### The whole visit -/

section Visit

variable {Loc : Type} {getLocFromIndex : ℤ → Loc} {part : RegexPart} {partStart : ℤ} {partLoc : Loc × Loc}

mutual

/-- Every node adds its cost in the nesting where it is entered, and leaves the nesting as it was. -/
theorem adds_walk : ∀ (node : Node) (parentType : String) (start : ℕ) (calculator : ComplexityCalculator Loc),
    Adds 0 (cost calculator.nesting node)
      (walk (onEnter getLocFromIndex part partStart partLoc) onLeave parentType start node calculator) calculator
  | .Pattern alternatives, parentType, start, calculator => by
    rw [walk, cost]
    exact adds_disjunction fun inner => adds_walkJoined alternatives "Pattern" (units "|") start inner
  | .Group opening alternatives, parentType, start, calculator => by
    rw [walk, cost]
    exact adds_disjunction fun inner => adds_walkJoined alternatives "Group" (units "|") (start + opening.length) inner
  | .CapturingGroup opening _ alternatives, parentType, start, calculator => by
    rw [walk, cost]
    exact adds_disjunction fun inner =>
      adds_walkJoined alternatives "CapturingGroup" (units "|") (start + opening.length) inner
  | .Lookaround opening alternatives, parentType, start, calculator => by
    have hcost : cost calculator.nesting (.Lookaround opening alternatives) =
        (calculator.nesting + (disjunctionCost (calculator.nesting + 1) alternatives -
          totalCost (calculator.nesting + (1 + raise alternatives)) alternatives)) +
          totalCost (calculator.nesting + (1 + raise alternatives)) alternatives := by
      rw [cost]
      omega
    rw [walk, hcost]
    refine (adds_onEnter_lookaround start parentType calculator).node (fun inner hinner => ?_) fun inner => ?_
    · rw [← hinner]
      exact adds_walkJoined alternatives "Assertion" (units "|") (start + opening.length) inner
    · obtain ⟨hnesting, hcomplexity⟩ := onDisjunctionLeave_eq alternatives inner
      refine ⟨?_, hcomplexity⟩
      change (onDisjunctionLeave alternatives inner).nesting - 1 = _
      omega
  | .Quantifier element min max greedy text, parentType, start, calculator => by
    rw [walk, cost]
    exact (adds_onEnter_quantifier start parentType calculator).node
      (fun inner hinner => hinner ▸ adds_walk element "Quantifier" start inner) Adds.lower
  | .CharacterClass opening elements, parentType, start, calculator => by
    rw [walk, cost]
    exact (adds_onEnter_class start parentType calculator).node
      (fun inner hinner => hinner ▸ adds_walkJoined elements "CharacterClass" [] (start + opening.length) inner) Adds.lower
  | .Backreference raw, parentType, start, calculator => by
    rw [walk, cost]
    exact (adds_increaseComplexity 1 ⟨.Backreference raw, start, parentType⟩ (0, 0) calculator).node
      (fun inner _ => adds_none inner) leave_none
  | .Alternative elements, parentType, start, calculator => by
    rw [walk, cost, ← Int.zero_add (totalCost _ _)]
    refine (adds_none calculator).node (fun inner hinner => ?_) leave_none
    rw [← Int.add_zero calculator.nesting, ← hinner]
    exact adds_walkJoined elements "Alternative" [] start inner
  | .ClassOperation type opening separator closing operands, parentType, start, calculator => by
    rw [walk, cost, ← Int.zero_add (totalCost _ _)]
    refine (adds_none calculator).node (fun inner hinner => ?_) leave_none
    rw [← Int.add_zero calculator.nesting, ← hinner]
    exact adds_walkJoined operands type separator (start + opening.length) inner
  | .CharacterClassRange min max, parentType, start, calculator => by
    obtain ⟨first, hfirst, hnesting, hcomplexity⟩ := adds_walk min "CharacterClassRange" start calculator
    obtain ⟨last, hlast, hnesting', hcomplexity'⟩ :=
      adds_walk max "CharacterClassRange" (start + min.raw.length + 1) first
    rw [Int.add_zero] at hnesting
    rw [hnesting] at hcomplexity' hnesting'
    refine ⟨last, ?_, hnesting', by rw [cost]; omega⟩
    rw [walk]
    simp only [onEnter, onLeave, Node.type, hfirst, hlast, Option.bind_eq_bind, Option.bind_some, pure]
  | .Edge _, parentType, start, calculator | .Character _ _, parentType, start, calculator
  | .CharacterSet _, parentType, start, calculator => by
    rw [walk, cost]
    exact adds_none calculator

theorem adds_walkJoined : ∀ (nodes : List Node) (parentType : String) (separator : JsString) (start : ℕ)
    (calculator : ComplexityCalculator Loc), Adds 0 (totalCost calculator.nesting nodes)
      (walkJoined (onEnter getLocFromIndex part partStart partLoc) onLeave parentType separator start nodes calculator)
      calculator
  | [], _, _, _, calculator => by
    rw [walkJoined, totalCost]
    exact adds_none calculator
  | node :: nodes, parentType, separator, start, calculator => by
    obtain ⟨first, hfirst, hnesting, hcomplexity⟩ := adds_walk node parentType start calculator
    obtain ⟨last, hlast, hnesting', hcomplexity'⟩ :=
      adds_walkJoined nodes parentType separator (start + node.raw.length + separator.length) first
    rw [Int.add_zero] at hnesting
    rw [hnesting] at hcomplexity' hnesting'
    refine ⟨last, ?_, hnesting', by rw [totalCost]; omega⟩
    rw [walkJoined, hfirst]
    exact hlast

end

end Visit

/-- The visit of a regular expression returns, with the nesting it began with and the cost of the pattern in it. -/
theorem visit_eq_cost {Loc : Type} (getLocFromIndex : ℤ → Loc) (part : RegexPart) (partStart : ℤ) (partLoc : Loc × Loc)
    (pattern : Node) : ∃ calculator, visit getLocFromIndex part partStart partLoc (some pattern) = some calculator ∧
      calculator.nesting = 1 ∧ calculator.complexity = cost 1 pattern := by
  obtain ⟨calculator, hvisit, hnesting, hcomplexity⟩ :=
    @adds_walk _ getLocFromIndex part partStart partLoc pattern "RegExpLiteral" 1 {}
  exact ⟨calculator, hvisit, hnesting, hcomplexity.trans (Int.zero_add _)⟩

end SonarJavascript.Rules.RegexComplexity
