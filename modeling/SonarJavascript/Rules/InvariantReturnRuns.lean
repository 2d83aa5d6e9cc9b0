import Mathlib.Data.List.Nodup
import Mathlib.Logic.Function.Basic
import Mathlib.Logic.Relation
import SonarJavascript.Lib.Runs
import SonarJavascript.Rules.InvariantReturns

/-!
# What a function returns that is reported for its returns

`reported_invariant`: the executions of a reported function return one primitive value, or the value of one variable
that is assigned once, as far as each variable is what the rule takes it for. The rule looks a name up in the scope of
the function and not where it is read, follows the initializer of a pattern, takes a variable to be assigned where it
is read, and computes with bigints as with numbers.
-/

namespace SonarJavascript.Rules.InvariantReturns

open Regex (units)
open Relation (ReflTransGen)

/-! ### Values -/

inductive Value
  | undefined
  | primitive (value : Primitive)
  | symbol (identity : ℕ)
  | object (isRegExp : Bool) (identity : ℕ)
  deriving DecidableEq

namespace Value

def toBoolean : Value → Bool
  | undefined => false
  | primitive value => value.toBoolean
  | symbol _ | object _ _ => true

/-- The number or bigint that an operator gets. An object that is no regular expression has its own conversion. -/
def ToNumeric (conversions : Conversions) : Value → Primitive → Prop
  | undefined, numeric => numeric = .number .NaN
  | primitive (.bigint value), numeric => numeric = .bigint value
  | primitive value, numeric => numeric = .number (value.toNumber conversions)
  | symbol _, _ => False
  | object true _, numeric => numeric = .number .NaN
  | object false _, _ => True

def HasType : Value → Primitive → Prop
  | undefined, type => type = .string (units "undefined")
  | primitive value, type => type = .string value.typeof
  | symbol _, type => type = .string (units "symbol")
  | object true _, type => type = .string (units "object")
  | object false _, type => type = .string (units "object") ∨ type = .string (units "function")

/-- One primitive value, by the operator `===`. -/
def SamePrimitive : Value → Value → Prop
  | undefined, undefined => True
  | primitive value, primitive value' => value.strictEquals value' = true
  | _, _ => False

end Value

/-- The values that an operator can give; none where it throws. -/
def OperatorResult (conversions : Conversions) (operator : String) (operand result : Value) : Prop :=
  match operator with
  | "-" =>
    (∃ n, operand.ToNumeric conversions (.number n) ∧ result = .primitive (.number n.negate)) ∨
      ∃ n, operand.ToNumeric conversions (.bigint n) ∧ result = .primitive (.bigint (-n))
  | "+" => ∃ n, operand.ToNumeric conversions (.number n) ∧ result = .primitive (.number n)
  | "~" =>
    (∃ n, operand.ToNumeric conversions (.number n) ∧ result = .primitive (.number n.bitwiseNot)) ∨
      ∃ n, operand.ToNumeric conversions (.bigint n) ∧ result = .primitive (.bigint (-n - 1))
  | "!" => result = .primitive (.boolean !operand.toBoolean)
  | "typeof" => ∃ type, operand.HasType type ∧ result = .primitive type
  | _ => True

/-! ### Executions -/

/-- The values of the variables that have been assigned. -/
abbrev Store (Variable : Type) := Variable → Option Value

variable {Node Variable : Type} [DecidableEq Node] [DecidableEq Variable] (program : Program Node Variable)

/-- A variable that has not been assigned is undefined where it can be read at all. -/
inductive Evaluates (store : Store Variable) : Node → Value → Prop
  | Literal {node : Node} {value : Primitive} (h : program.syntaxOf node = .Literal value) :
      Evaluates store node (.primitive value)
  | RegExpLiteral {node : Node} {isSupported : Bool} (h : program.syntaxOf node = .RegExpLiteral isSupported)
      (identity : ℕ) : Evaluates store node (.object true identity)
  | UnaryExpression {node argument : Node} {operator : String} {operand result : Value}
      (h : program.syntaxOf node = .UnaryExpression operator argument) (hargument : Evaluates store argument operand)
      (hresult : OperatorResult program.conversions operator operand result) : Evaluates store node result
  | reference {node : Node} {found : Variable} (h : program.variableOf node = some found) :
      Evaluates store node ((store found).getD .undefined)
  | other {node : Node} (hliteral : ∀ value, program.syntaxOf node ≠ .Literal value)
      (hregexp : ∀ isSupported, program.syntaxOf node ≠ .RegExpLiteral isSupported)
      (hunary : ∀ operator argument, program.syntaxOf node ≠ .UnaryExpression operator argument)
      (hvariable : program.variableOf node = none) (value : Value) : Evaluates store node value

variable (function : Function Node)

/-- The variables of the scope of the function. -/
def Own (v : Variable) : Prop := ∃ key, program.set function.node key = some v

/-- What is written to a variable that is declared by its name, and not by a pattern. -/
def IsInitializer (init : Node) : Prop :=
  ∃ node id name, program.syntaxOf node = .VariableDeclarator id (some init) ∧ program.syntaxOf id = .Identifier name

/-- A change of the variables: through a reference, without one (an element of `arguments`, code that `eval` runs),
or of other variables. -/
inductive Change (Node Variable : Type)
  | reference (v : Variable) (ref : Reference Node) (value : Value)
  | indirect (v : Variable) (value : Value)
  | elsewhere

/-- A parameter with a default is assigned through the reference of the default, also by an argument. -/
inductive Step : Store Variable → Change Node Variable → Store Variable → Prop
  | reference {store : Store Variable} {v : Variable} {ref : Reference Node} {value : Value}
      (hown : Own program function v) (hmem : ref ∈ program.references v) (hwrite : ref.isWrite = true)
      (hvalue : ∀ init, ref.writeExpr = some init → IsInitializer program init → Evaluates program store init value) :
      Step store (.reference v ref value) (Function.update store v (some value))
  | indirect {store : Store Variable} {v : Variable} {value : Value} (hown : Own program function v) :
      Step store (.indirect v value) (Function.update store v (some value))
  | elsewhere {store store' : Store Variable} (h : ∀ v, Own program function v → store' v = store v) :
      Step store .elsewhere store'

/-- How an execution returns. Its end is only reached through a segment that the code path analysis has. -/
inductive Completes (store : Store Variable) : Option Node → Value → Prop
  | returned {statement node : Node} {value : Value} (hmem : statement ∈ function.returnStatements)
      (hargument : argument program statement = some node) (hvalue : Evaluates program store node value) :
      Completes store (some node) value
  | returnedNothing {statement : Node} (hmem : statement ∈ function.returnStatements)
      (hargument : argument program statement = none) : Completes store none .undefined
  | reachedEnd {segment : CodePathSegment} (hmem : segment ∈ function.currentSegments)
      (hreachable : segment.reachable = true) : Completes store none .undefined

/-- An execution of the function that returns. -/
structure Execution where
  start : Store Variable
  trace : List (Store Variable × Change Node Variable)
  last : Store Variable
  returned : Option Node
  result : Value
  entry : ∀ v, Own program function v → (start v).isSome = program.boundAtEntry v
  run : Run (Step program function) start trace last
  completes : Completes program function last returned result

/-! ### What a report says -/

def writes (v : Variable) : List (Reference Node) := (program.references v).filter Reference.isWrite

/-- Bound by the call or written by one reference, and not both. -/
def SingleAssignment (v : Variable) : Prop :=
  (writes program v).length + (if program.boundAtEntry v then 1 else 0) ≤ 1

/-- All executions, of those that meet the condition, return one value. -/
def InvariantReturn (Meets : Execution program function → Prop) : Prop :=
  (∃ value, ∀ x, Meets x → x.result.SamePrimitive value) ∨
    ∃ v, SingleAssignment program v ∧ ∀ x, Meets x → x.last v = some x.result

/-! ### The condition -/

def returnedValues : List Node := function.returnStatements.filterMap (argument program)

/-- All returned expressions read the variable of the function. -/
def SameVariable (v : Variable) : Prop :=
  Own program function v ∧ ∀ node ∈ returnedValues program function, program.variableOf node = some v

/-- From the name of a variable to its initializer. -/
def Copies (node init : Node) : Prop :=
  ∃ name v, program.syntaxOf node = .Identifier name ∧
    getSingleWriteDefinition program function.node name = some ⟨v, some init⟩

def HasOperand (node operand : Node) : Prop := ∃ operator, program.syntaxOf node = .UnaryExpression operator operand

/-- The expressions whose literal value is asked for. -/
def Followed (node : Node) : Prop :=
  ∃ returned ∈ returnedValues program function,
    ReflTransGen (fun a b => Copies program function a b ∨ HasOperand program a b) returned node

/-- The expressions whose value is returned, from variable to variable. -/
def Copied (node : Node) : Prop :=
  ∃ returned ∈ returnedValues program function, ReflTransGen (Copies program function) returned node

/-- The variables that are taken for their initializers. -/
def Follows (v : Variable) (init : Node) : Prop :=
  ∃ node name, Followed program function node ∧ program.syntaxOf node = .Identifier name ∧
    getSingleWriteDefinition program function.node name = some ⟨v, some init⟩

def DeclaredByName (v : Variable) : Prop :=
  ∃ node id init, program.defs v = [.Variable node] ∧ program.syntaxOf node = .VariableDeclarator id init ∧
    program.syntaxOf id = .Identifier (program.name v)

/-- A name that is followed is that of the variable of the function, which is assigned; `-` and `~` have no bigint. -/
structure ReadsWell (store : Store Variable) (node : Node) : Prop where
  variable_assigned : ∀ name v init, program.syntaxOf node = .Identifier name →
    getSingleWriteDefinition program function.node name = some ⟨v, some init⟩ →
    program.variableOf node = some v ∧ (store v).isSome = true
  operand_number : ∀ operator operand n, program.syntaxOf node = .UnaryExpression operator operand →
    operator = "-" ∨ operator = "~" → ¬ Evaluates program store operand (.primitive (.bigint n))

/-- With the operands. -/
def EvaluatesWell (store : Store Variable) (node : Node) : Prop :=
  ∀ operand, ReflTransGen (HasOperand program) node operand → ReadsWell program function store operand

/-- Of a change: a variable is followed only if it is written by its initializer, which evaluates well. A regular
expression that is returned through other variables is assigned once. -/
def MeetsLiteralStep (store : Store Variable) : Change Node Variable → Prop
  | .reference v _ _ => ∀ init, Follows program function v init → EvaluatesWell program function store init ∧
      ∀ isSupported, program.syntaxOf init = .RegExpLiteral isSupported → Copied program function init → store v = none
  | .indirect v _ => ∀ init, ¬ Follows program function v init
  | .elsewhere => True

variable {program function}

/-- Where one variable is returned: it is assigned once, and before it is read. -/
structure MeetsVariable (x : Execution program function) (v : Variable) : Prop where
  not_written : program.boundAtEntry v = true → writes program v = []
  not_indirect : ∀ step ∈ x.trace, ∀ value, step.2 ≠ .indirect v value
  assigned : writes program v ≠ [] → (x.last v).isSome = true

/-- Where literal values are returned. -/
structure MeetsLiteral (x : Execution program function) : Prop where
  declared : ∀ v init, Follows program function v init → program.boundAtEntry v = false ∧ DeclaredByName program v
  supported : ∀ node isSupported, Followed program function node →
    program.syntaxOf node = .RegExpLiteral isSupported → isSupported = true
  steps : ∀ step ∈ x.trace, MeetsLiteralStep program function step.1 step.2
  evaluated : ∀ node, x.returned = some node → EvaluatesWell program function x.last node

def Meets (x : Execution program function) : Prop :=
  (∀ v, SameVariable program function v → MeetsVariable x v) ∧
    ((¬ ∃ v, SameVariable program function v) → MeetsLiteral x)

/-! ### Variables that are written once -/

section SingleWrite

omit [DecidableEq Variable]

theorem getSingleWriteDefinition_eq_some {name : String} {v : Variable} {init : Option Node}
    (h : getSingleWriteDefinition program function.node name = some ⟨v, init⟩) :
    program.set function.node name = some v ∧ initExpression program v = init ∧
      ∀ ref ∈ (program.references v).tail, ref.isWrite = false := by
  rw [getSingleWriteDefinition] at h
  split at h
  · rename_i found hset
    split at h
    · cases h
    · rename_i htail
      cases h
      refine ⟨hset, rfl, fun ref hmem => ?_⟩
      rw [Bool.not_eq_true, List.any_eq_false] at htail
      have hnot := htail ref hmem
      rw [Bool.or_eq_true, not_or] at hnot
      exact Bool.not_eq_true _ ▸ hnot.1
  · cases h

omit [DecidableEq Node] in
theorem initExpression_eq_some {v : Variable} {init : Node} (h : initExpression program v = some init) :
    ∃ node id, program.defs v = [.Variable node] ∧ program.syntaxOf node = .VariableDeclarator id (some init) := by
  rw [initExpression] at h
  split at h
  · rename_i node hdefs
    split at h
    · rename_i id init' hkind
      cases h
      exact ⟨node, id, hdefs, hkind⟩
    · cases h
  · cases h

theorem Follows.own {v : Variable} {init : Node} (h : Follows program function v init) : Own program function v := by
  obtain ⟨_, name, _, _, hsingle⟩ := h
  exact ⟨name, (getSingleWriteDefinition_eq_some hsingle).1⟩

theorem Follows.initExpression {v : Variable} {init : Node} (h : Follows program function v init) :
    initExpression program v = some init := by
  obtain ⟨_, _, _, _, hsingle⟩ := h
  exact (getSingleWriteDefinition_eq_some hsingle).2.1

theorem Follows.followed {v : Variable} {init : Node} (h : Follows program function v init) :
    Followed program function init := by
  obtain ⟨node, name, ⟨returned, hmem, hpath⟩, hkind, hsingle⟩ := h
  exact ⟨returned, hmem, hpath.tail (.inl ⟨name, v, hkind, hsingle⟩)⟩

/-- All writes but the one of the first reference are ruled out, so that it is the initializer. -/
theorem Follows.writeExpr {v : Variable} {init : Node} (h : Follows program function v init) {ref : Reference Node}
    (hmem : ref ∈ program.references v) (hwrite : ref.isWrite = true) : ref.writeExpr = some init := by
  obtain ⟨node, id, hdefs, hkind⟩ := initExpression_eq_some h.initExpression
  obtain ⟨_, _, _, _, hsingle⟩ := h
  have htail := (getSingleWriteDefinition_eq_some hsingle).2.2
  obtain ⟨first, hfirst, hwrite', hinit⟩ := program.exists_initializer hdefs hkind
  cases hrefs : program.references v with
  | nil => simp [hrefs] at hmem
  | cons head tail =>
    rw [hrefs] at hmem hfirst htail
    have hhead : ∀ r ∈ head :: tail, r.isWrite = true → r = head := by
      intro r hr hrwrite
      rcases List.mem_cons.mp hr with rfl | hr
      · rfl
      · rw [htail r hr] at hrwrite
        cases hrwrite
    rw [hhead ref hmem hwrite, ← hhead first hfirst hwrite', hinit]

theorem Follows.isInitializer {v : Variable} {init : Node} (h : Follows program function v init)
    (hname : DeclaredByName program v) : IsInitializer program init := by
  obtain ⟨node, id, hdefs, hkind⟩ := initExpression_eq_some h.initExpression
  obtain ⟨node', id', init', hdefs', hkind', hid⟩ := hname
  rw [hdefs] at hdefs'
  cases hdefs'
  rw [hkind] at hkind'
  cases hkind'
  exact ⟨node, id, _, hkind, hid⟩

theorem Follows.unique {v w : Variable} {init : Node} (hv : Follows program function v init)
    (hw : Follows program function w init) (hvname : DeclaredByName program v) (hwname : DeclaredByName program w) :
    v = w := by
  obtain ⟨dv, _, hvdefs, hvinit⟩ := initExpression_eq_some hv.initExpression
  obtain ⟨dw, _, hwdefs, hwinit⟩ := initExpression_eq_some hw.initExpression
  obtain rfl : dv = dw := Option.some.inj ((program.init_parent hvinit).symm.trans (program.init_parent hwinit))
  obtain ⟨dv', idv, _, hvdefs', hvinit', hvid⟩ := hvname
  obtain ⟨dw', idw, _, hwdefs', hwinit', hwid⟩ := hwname
  have hname : program.name v = program.name w := by
    rw [hvdefs] at hvdefs'
    rw [hwdefs] at hwdefs'
    cases hvdefs'
    cases hwdefs'
    rw [hvinit'] at hwinit'
    cases hwinit'
    rw [hvid] at hwid
    exact Syntax.Identifier.inj hwid
  obtain ⟨vkey, hvset⟩ := hv.own
  obtain ⟨wkey, hwset⟩ := hw.own
  have hkey : vkey = wkey := by
    rw [← program.name_of_set hvset, hname, program.name_of_set hwset]
  rw [hkey, hwset] at hvset
  exact (Option.some.inj hvset).symm

end SingleWrite

/-! ### Literal values -/

section LiteralValues

omit [DecidableEq Variable]

theorem exists_succ_of_getLiteralValue {fuel : ℕ} {node : Node} {value : Option (LiteralValue Node)}
    (h : getLiteralValue program function.node fuel node = some value) : ∃ n, fuel = n + 1 := by
  cases fuel with
  | zero => cases h
  | succ n => exact ⟨n, rfl⟩

theorem getLiteralValue_UnaryExpression {fuel : ℕ} {node operand : Node} {operator : String} {value : LiteralValue Node}
    (hkind : program.syntaxOf node = .UnaryExpression operator operand)
    (h : getLiteralValue program function.node (fuel + 1) node = some (some value)) :
    ∃ inner, getLiteralValue program function.node fuel operand = some (some inner) ∧
      evaluateUnaryLiteralExpression program operator inner = some value := by
  rw [getLiteralValue, hkind] at h
  simp only at h
  split at h
  · rename_i inner hinner
    exact ⟨inner, hinner, Option.some.inj h⟩
  · cases h
  · cases h

theorem getLiteralValue_Identifier {fuel : ℕ} {node : Node} {name : String} {value : LiteralValue Node}
    (hkind : program.syntaxOf node = .Identifier name)
    (h : getLiteralValue program function.node (fuel + 1) node = some (some value)) :
    ∃ v init, getSingleWriteDefinition program function.node name = some ⟨v, some init⟩ ∧
      getLiteralValue program function.node fuel init = some (some value) := by
  rw [getLiteralValue, hkind] at h
  simp only at h
  split at h
  · rename_i v init hsingle
    exact ⟨v, init, hsingle, h⟩
  · cases h

omit [DecidableEq Node] in
theorem exists_primitive_of_evaluateUnary {operator : String} {inner value : LiteralValue Node}
    (h : evaluateUnaryLiteralExpression program operator inner = some value) : ∃ p, value = .primitive p := by
  unfold evaluateUnaryLiteralExpression at h
  split at h
  · exact ⟨_, (Option.some.inj h).symm⟩
  · exact ⟨_, (Option.some.inj h).symm⟩
  · exact ⟨_, (Option.some.inj h).symm⟩
  · exact ⟨_, (Option.some.inj h).symm⟩
  · exact ⟨_, (Option.some.inj h).symm⟩
  · cases h

/-- A regular expression comes from its literal through variables only. -/
theorem copies_of_getLiteralValue {fuel : ℕ} {node literal : Node}
    (h : getLiteralValue program function.node fuel node = some (some (.RegExp literal))) :
    ReflTransGen (Copies program function) node literal ∧
      ∃ isSupported, program.syntaxOf literal = .RegExpLiteral isSupported := by
  induction fuel generalizing node with
  | zero => cases h
  | succ fuel ih =>
    cases hkind : program.syntaxOf node with
    | UnaryExpression operator operand =>
      obtain ⟨inner, _, hvalue⟩ := getLiteralValue_UnaryExpression hkind h
      obtain ⟨p, hp⟩ := exists_primitive_of_evaluateUnary hvalue
      cases hp
    | Identifier name =>
      obtain ⟨v, init, hsingle, hinit⟩ := getLiteralValue_Identifier hkind h
      obtain ⟨hpath, hliteral⟩ := ih hinit
      exact ⟨.head ⟨name, v, hkind, hsingle⟩ hpath, hliteral⟩
    | RegExpLiteral isSupported =>
      rw [getLiteralValue, hkind] at h
      cases isSupported with
      | false => cases h
      | true =>
        cases h
        exact ⟨.refl, true, hkind⟩
    | _ =>
      rw [getLiteralValue, hkind] at h
      cases h

end LiteralValues

/-! ### Literal values and the values they stand for -/

def LiteralValue.Represents : LiteralValue Node → Value → Prop
  | primitive p, value => value = .primitive p
  | RegExp _, value => ∃ identity, value = .object true identity

namespace LiteralValue

omit [DecidableEq Node]

variable {conversions : Conversions} {inner : LiteralValue Node} {operand : Value}

theorem Represents.number_eq (h : inner.Represents operand) {n : Number}
    (hnumeric : operand.ToNumeric conversions (.number n)) : n = inner.toNumber conversions := by
  cases inner with
  | primitive p =>
    cases h
    cases p with
    | bigint value => cases hnumeric
    | _ => exact Primitive.number.inj hnumeric
  | RegExp literal =>
    obtain ⟨identity, rfl⟩ := h
    exact Primitive.number.inj hnumeric

theorem Represents.eq_bigint (h : inner.Represents operand) {n : ℤ}
    (hnumeric : operand.ToNumeric conversions (.bigint n)) : operand = .primitive (.bigint n) := by
  cases inner with
  | primitive p =>
    cases h
    cases p <;> cases hnumeric
    rfl
  | RegExp literal =>
    obtain ⟨identity, rfl⟩ := h
    cases hnumeric

theorem Represents.toBoolean_eq (h : inner.Represents operand) : operand.toBoolean = inner.toBoolean := by
  cases inner with
  | primitive p =>
    cases h
    rfl
  | RegExp literal =>
    obtain ⟨identity, rfl⟩ := h
    rfl

theorem Represents.type_eq (h : inner.Represents operand) {type : Primitive} (htype : operand.HasType type) :
    type = .string inner.typeof := by
  cases inner with
  | primitive p =>
    cases h
    exact htype
  | RegExp literal =>
    obtain ⟨identity, rfl⟩ := h
    exact htype

end LiteralValue

omit [DecidableEq Node] [DecidableEq Variable] in
/-- The operators are evaluated as they run, but for bigints. -/
theorem represents_of_operatorResult {operator : String} {inner value : LiteralValue Node} {operand result : Value}
    (hinner : inner.Represents operand) (hvalue : evaluateUnaryLiteralExpression program operator inner = some value)
    (hresult : OperatorResult program.conversions operator operand result)
    (hnumber : operator = "-" ∨ operator = "~" → ∀ n, operand ≠ .primitive (.bigint n)) : value.Represents result := by
  unfold evaluateUnaryLiteralExpression at hvalue
  split at hvalue
  · cases hvalue
    rcases hresult with ⟨n, hn, rfl⟩ | ⟨n, hn, -⟩
    · rw [hinner.number_eq hn]
      rfl
    · exact absurd (hinner.eq_bigint hn) (hnumber (.inl rfl) n)
  · cases hvalue
    obtain ⟨n, hn, rfl⟩ := hresult
    rw [hinner.number_eq hn]
    rfl
  · cases hvalue
    rcases hresult with ⟨n, hn, rfl⟩ | ⟨n, hn, -⟩
    · rw [hinner.number_eq hn]
      rfl
    · exact absurd (hinner.eq_bigint hn) (hnumber (.inr rfl) n)
  · cases hvalue
    change result = _ at hresult
    rw [hresult, hinner.toBoolean_eq]
    rfl
  · cases hvalue
    obtain ⟨type, htype, rfl⟩ := hresult
    rw [hinner.type_eq htype]
    rfl
  · cases hvalue

/-! ### The values of the variables that are followed -/

variable (program function) in
/-- A regular expression that is returned is still that of the variable with the literal. -/
def Holds (store : Store Variable) : LiteralValue Node → Value → Prop
  | .primitive p, value => value = .primitive p
  | .RegExp literal, value => (∃ identity, value = .object true identity) ∧
      (Copied program function literal → ∃ v, Follows program function v literal ∧ store v = some value)

variable (program function) in
/-- The invariant of a run. -/
def HoldsLiterals (store : Store Variable) : Prop :=
  ∀ v init fuel literal value, Follows program function v init →
    getLiteralValue program function.node fuel init = some (some literal) → store v = some value →
    Holds program function store literal value

section Holds

omit [DecidableEq Variable]

theorem Holds.represents {store : Store Variable} {literal : LiteralValue Node} {value : Value}
    (h : Holds program function store literal value) : literal.Represents value := by
  cases literal with
  | primitive p => exact h
  | RegExp literal => exact h.1

theorem Holds.mono {store store' : Store Variable} {literal : LiteralValue Node} {value : Value}
    (h : Holds program function store literal value)
    (hkeep : ∀ v regexp, literal = .RegExp regexp → Copied program function regexp → Follows program function v regexp →
      store v = some value → store' v = some value) : Holds program function store' literal value := by
  cases literal with
  | primitive p => exact h
  | RegExp regexp =>
    refine ⟨h.1, fun hcopied => ?_⟩
    obtain ⟨v, hfollows, hstore⟩ := h.2 hcopied
    exact ⟨v, hfollows, hkeep v regexp rfl hcopied hfollows hstore⟩

/-- An expression that is followed has its literal value. Only the literal of a regular expression itself is not yet
in a variable. -/
theorem holds_of_evaluates {store : Store Variable} (hstore : HoldsLiterals program function store) {fuel : ℕ}
    {node : Node} {literal : LiteralValue Node} {value : Value} (hfollowed : Followed program function node)
    (hliteral : getLiteralValue program function.node fuel node = some (some literal))
    (hvalue : Evaluates program store node value) (hwell : EvaluatesWell program function store node)
    (hsupported : ∀ node isSupported, Followed program function node →
      program.syntaxOf node = .RegExpLiteral isSupported → isSupported = true) :
    Holds program function store literal value ∨
      literal = .RegExp node ∧ ∃ identity, value = .object true identity := by
  induction hvalue generalizing fuel literal with
  | @Literal node p h =>
    obtain ⟨fuel, rfl⟩ := exists_succ_of_getLiteralValue hliteral
    rw [getLiteralValue, h] at hliteral
    cases hliteral
    exact .inl rfl
  | @RegExpLiteral node isSupported h identity =>
    obtain ⟨fuel, rfl⟩ := exists_succ_of_getLiteralValue hliteral
    rw [getLiteralValue, h, hsupported node isSupported hfollowed h] at hliteral
    cases hliteral
    exact .inr ⟨rfl, identity, rfl⟩
  | @UnaryExpression node argument operator operand result h hargument hresult ih =>
    obtain ⟨fuel, rfl⟩ := exists_succ_of_getLiteralValue hliteral
    obtain ⟨inner, hinner, hunary⟩ := getLiteralValue_UnaryExpression h hliteral
    have hoperand : HasOperand program node argument := ⟨operator, h⟩
    have hargument' : Followed program function argument := by
      obtain ⟨returned, hmem, hpath⟩ := hfollowed
      exact ⟨returned, hmem, hpath.tail (.inr hoperand)⟩
    have hrepresents : inner.Represents operand := by
      rcases ih hargument' hinner fun e he => hwell e (.head hoperand he) with hholds | ⟨rfl, hobject⟩
      · exact hholds.represents
      · exact hobject
    have hnumber : operator = "-" ∨ operator = "~" → ∀ n, operand ≠ .primitive (.bigint n) := by
      rintro hoperator n rfl
      exact (hwell node .refl).operand_number operator argument n h hoperator hargument
    have hres := represents_of_operatorResult hrepresents hunary hresult hnumber
    obtain ⟨p, rfl⟩ := exists_primitive_of_evaluateUnary hunary
    exact .inl hres
  | @reference node found h =>
    obtain ⟨fuel, rfl⟩ := exists_succ_of_getLiteralValue hliteral
    rcases program.syntaxOf_of_variableOf h with hname | hother
    · obtain ⟨v, init, hsingle, hinit⟩ := getLiteralValue_Identifier hname hliteral
      obtain ⟨hvariable, hassigned⟩ := (hwell node .refl).variable_assigned _ v init hname hsingle
      obtain rfl : found = v := Option.some.inj (h.symm.trans hvariable)
      obtain ⟨value, hvalue⟩ := Option.isSome_iff_exists.mp hassigned
      rw [hvalue, Option.getD_some]
      exact .inl (hstore found init fuel literal value ⟨node, _, hfollowed, hname, hsingle⟩ hinit hvalue)
    · rw [getLiteralValue, hother] at hliteral
      cases hliteral
  | @other node hnotliteral hnotregexp hnotunary hvariable value =>
    obtain ⟨fuel, rfl⟩ := exists_succ_of_getLiteralValue hliteral
    cases hkind : program.syntaxOf node with
    | Literal p => exact absurd hkind (hnotliteral p)
    | RegExpLiteral isSupported => exact absurd hkind (hnotregexp isSupported)
    | UnaryExpression operator argument => exact absurd hkind (hnotunary operator argument)
    | Identifier name =>
      obtain ⟨v, init, hsingle, -⟩ := getLiteralValue_Identifier hkind hliteral
      have hsome := ((hwell node .refl).variable_assigned name v init hkind hsingle).1
      rw [hvariable] at hsome
      cases hsome
    | _ =>
      rw [getLiteralValue, hkind] at hliteral
      cases hliteral

end Holds

/-! ### Runs -/

theorem HoldsLiterals.step {store store' : Store Variable} {change : Change Node Variable}
    (h : HoldsLiterals program function store) (hstep : Step program function store change store')
    (hmeets : MeetsLiteralStep program function store change)
    (hdeclared : ∀ v init, Follows program function v init → DeclaredByName program v)
    (hsupported : ∀ node isSupported, Followed program function node →
      program.syntaxOf node = .RegExpLiteral isSupported → isSupported = true) :
    HoldsLiterals program function store' := by
  intro w init fuel literal value hfollows hliteral hstored
  cases hstep with
  | @reference v ref written _ hmem hwrite hvalue =>
    -- the literal of a regular expression that is returned is evaluated once
    have hkeep : ∀ u regexp, literal = .RegExp regexp → Copied program function regexp →
        Follows program function u regexp → store u = some value →
        Function.update store v (some written) u = some value := by
      rintro u regexp rfl hcopied hu hstore
      by_cases heq : u = v
      · subst heq
        obtain ⟨isSupported, hkind⟩ := (copies_of_getLiteralValue hliteral).2
        rw [(hmeets regexp hu).2 isSupported hkind hcopied] at hstore
        cases hstore
      · rw [Function.update_of_ne heq, hstore]
    by_cases heq : w = v
    · subst heq
      rw [Function.update_self] at hstored
      obtain rfl := Option.some.inj hstored
      have hinitializer := hfollows.isInitializer (hdeclared w init hfollows)
      have hevaluates := hvalue init (hfollows.writeExpr hmem hwrite) hinitializer
      rcases holds_of_evaluates h hfollows.followed hliteral hevaluates (hmeets init hfollows).1 hsupported with
        hholds | ⟨rfl, hobject⟩
      · exact hholds.mono hkeep
      · exact ⟨hobject, fun _ => ⟨w, hfollows, Function.update_self ..⟩⟩
    · rw [Function.update_of_ne heq] at hstored
      exact (h w init fuel literal value hfollows hliteral hstored).mono hkeep
  | @indirect v written _ =>
    have hne : ∀ {u init}, Follows program function u init → u ≠ v := by
      rintro u init hu rfl
      exact hmeets init hu
    rw [Function.update_of_ne (hne hfollows)] at hstored
    refine (h w init fuel literal value hfollows hliteral hstored).mono fun u regexp _ _ hu hstore => ?_
    rw [Function.update_of_ne (hne hu), hstore]
  | elsewhere hsame =>
    rw [hsame w hfollows.own] at hstored
    refine (h w init fuel literal value hfollows hliteral hstored).mono fun u regexp _ _ hu hstore => ?_
    rw [hsame u hu.own, hstore]

theorem Execution.holdsLiterals (x : Execution program function) (hmeets : MeetsLiteral x) :
    HoldsLiterals program function x.last := by
  have hstart : HoldsLiterals program function x.start := by
    intro v init fuel literal value hfollows _ hstored
    have hentry := x.entry v hfollows.own
    rw [(hmeets.declared v init hfollows).1, hstored] at hentry
    cases hentry
  have hstep : ∀ store change store', HoldsLiterals program function store → Step program function store change store' →
      MeetsLiteralStep program function store change → HoldsLiterals program function store' :=
    fun store change store' h hstep hmeets' =>
      h.step hstep hmeets' (fun v init hfollows => (hmeets.declared v init hfollows).2) hmeets.supported
  exact (x.run.throughout_of_forall hstart hstep hmeets.steps).2

section Assigned

omit [DecidableEq Node]

theorem Step.isSome {store store' : Store Variable} {change : Change Node Variable} {v : Variable}
    (hown : Own program function v) (hstep : Step program function store change store')
    (h : (store v).isSome = true) : (store' v).isSome = true := by
  cases hstep with
  | @reference w _ value _ _ _ _ | @indirect w value _ =>
    by_cases heq : v = w
    · rw [heq, Function.update_self, Option.isSome_some]
    · rw [Function.update_of_ne heq, h]
  | elsewhere hsame => rw [hsame v hown, h]

theorem Step.eq_none {store store' : Store Variable} {change : Change Node Variable} {v : Variable}
    (hown : Own program function v) (hwrites : writes program v = [])
    (hstep : Step program function store change store') (hindirect : ∀ value, change ≠ .indirect v value)
    (h : store v = none) : store' v = none := by
  cases hstep with
  | @reference w ref value _ hmem hwrite _ =>
    have hne : v ≠ w := by
      rintro rfl
      have hmem' : ref ∈ writes program v := List.mem_filter.mpr ⟨hmem, hwrite⟩
      rw [hwrites] at hmem'
      cases hmem'
    rw [Function.update_of_ne hne, h]
  | @indirect w value _ =>
    have hne : v ≠ w := by
      rintro rfl
      exact hindirect value rfl
    rw [Function.update_of_ne hne, h]
  | elsewhere hsame => rw [hsame v hown, h]

theorem Execution.isSome_last (x : Execution program function) {v : Variable} (hown : Own program function v)
    (hbound : program.boundAtEntry v = true) : (x.last v).isSome = true := by
  have hstep : ∀ store change store', (store v).isSome = true → Step program function store change store' → True →
      (store' v).isSome = true := fun _ _ _ h hstep _ => hstep.isSome hown h
  exact (x.run.throughout_of_forall ((x.entry v hown).trans hbound) hstep fun _ _ => trivial).2

theorem Execution.last_eq_none (x : Execution program function) {v : Variable} (hown : Own program function v)
    (hbound : program.boundAtEntry v = false) (hwrites : writes program v = []) (hmeets : MeetsVariable x v) :
    x.last v = none := by
  have hstart : x.start v = none := by
    rw [← Option.isNone_iff_eq_none, ← Option.isSome_eq_false_iff, x.entry v hown, hbound]
  have hstep : ∀ store change store', store v = none → Step program function store change store' →
      (∀ value, change ≠ .indirect v value) → store' v = none :=
    fun _ _ _ h hstep hindirect => hstep.eq_none hown hwrites hindirect h
  exact (x.run.throughout_of_forall hstart hstep hmeets.not_indirect).2

end Assigned

/-! ### What is reported -/

section Reported

omit [DecidableEq Variable]

variable {fuel : ℕ}

omit [DecidableEq Node] in
theorem argument_eq_some {statement node : Node} (h : argument program statement = some node) :
    program.syntaxOf statement = .ReturnStatement (some node) := by
  rw [argument] at h
  split at h
  · rename_i returned hkind
    rw [hkind, h]
  · cases h

omit [DecidableEq Node] in
theorem nodup_returnedValues (h : function.returnStatements.Nodup) : (returnedValues program function).Nodup := by
  refine List.Nodup.filterMap (fun statement statement' node hnode hnode' => ?_) h
  have hparent := program.argument_parent (argument_eq_some hnode)
  rw [program.argument_parent (argument_eq_some hnode')] at hparent
  exact (Option.some.inj hparent).symm

theorem isReported_eq_true (h : function.isReported program fuel = some true) :
    (∀ segment ∈ function.currentSegments, segment.reachable = false) ∧
      (∀ statement ∈ function.returnStatements, (argument program statement).isSome = true) ∧
      1 < (returnedValues program function).length ∧
      areAllSameValue program function.node fuel (returnedValues program function) = some true := by
  rw [Function.isReported, checkInvariantReturnStatements] at h
  split at h
  · cases h
  · rename_i hdifferent
    simp only [hasDifferentReturnTypes, Function.context, FunctionContext.add, Bool.false_or, List.nil_append,
      Bool.or_eq_true, not_or, decide_eq_true_eq, List.any_eq_true, not_exists, not_and, Bool.not_eq_true,
      Option.isNone_eq_false_iff, not_le] at hdifferent
    obtain ⟨⟨⟨himplicit, harguments⟩, hlength⟩, -⟩ := hdifferent
    refine ⟨himplicit, harguments, ?_, h⟩
    have hsame : (returnedValues program function).length = function.returnStatements.length :=
      List.filterMap_length_eq_length.mpr harguments
    omega

theorem exists_cons_of_isReported (h : function.isReported program fuel = some true) :
    ∃ first second rest, returnedValues program function = first :: second :: rest ∧
      areAllSameValue program function.node fuel (first :: second :: rest) = some true := by
  obtain ⟨-, -, hlength, hsame⟩ := isReported_eq_true h
  cases hreturned : returnedValues program function with
  | nil => simp [hreturned] at hlength
  | cons first rest =>
    cases rest with
    | nil => simp [hreturned] at hlength
    | cons second rest => exact ⟨first, second, rest, rfl, hreturned ▸ hsame⟩

theorem everySameValue_eq_true {firstValue : LiteralValue Node} {nodes : List Node}
    (h : everySameValue program function.node fuel firstValue nodes = some true) :
    ∀ node ∈ nodes, ∃ value, getLiteralValue program function.node fuel node = some (some value) ∧
      value.strictEquals firstValue = true := by
  induction nodes with
  | nil => simp
  | cons node nodes ih =>
    rw [everySameValue] at h
    split at h
    · rename_i value hvalue
      split at h
      · rename_i hsame
        exact List.forall_mem_cons.mpr ⟨⟨value, hvalue, hsame⟩, ih h⟩
      · cases h
    · cases h
    · cases h

/-- The first expression has a literal value that the others have, or all read its variable. -/
theorem areAllSameValue_eq_true {first : Node} {rest : List Node}
    (h : areAllSameValue program function.node fuel (first :: rest) = some true) :
    (∃ firstValue, getLiteralValue program function.node fuel first = some (some firstValue) ∧
      ∀ node ∈ rest, ∃ value, getLiteralValue program function.node fuel node = some (some value) ∧
        value.strictEquals firstValue = true) ∨
    ∃ name v init, program.syntaxOf first = .Identifier name ∧
      getSingleWriteDefinition program function.node name = some ⟨v, init⟩ ∧
      ∀ node ∈ first :: rest, program.variableOf node = some v := by
  rw [areAllSameValue] at h
  split at h
  · rename_i firstValue hfirst
    exact .inl ⟨firstValue, hfirst, everySameValue_eq_true h⟩
  · split at h
    · rename_i name hname
      split at h
      · rename_i v init hsingle
        refine .inr ⟨name, v, init, hname, hsingle, fun node hmem => ?_⟩
        have hread := List.all_eq_true.mp (Option.some.inj h) node hmem
        obtain ⟨ref, href, rfl⟩ := List.mem_map.mp (List.contains_iff_mem.mp hread)
        exact program.variableOf_identifier (List.mem_of_mem_tail href)
      · cases h
    · cases h
  · cases h

theorem Number.strictEquals_self {n m : Number} (h : n.strictEquals m = true) : m.strictEquals m = true := by
  cases m with
  | NaN => cases n <;> cases h
  | negativeZero => rfl
  | finite value => exact decide_eq_true rfl
  | infinity isNegative => exact decide_eq_true rfl

/-- A value that another one is equal to is equal to itself: it is not NaN. -/
theorem LiteralValue.strictEquals_self {value value' : LiteralValue Node} (h : value.strictEquals value' = true) :
    value'.strictEquals value' = true := by
  cases value' with
  | primitive q =>
    cases value with
    | primitive p =>
      cases q with
      | number m =>
        cases p with
        | number n => exact Number.strictEquals_self h
        | _ => cases h
      | _ => simp [strictEquals, Primitive.strictEquals]
    | RegExp literal => cases h
  | RegExp literal => exact decide_eq_true rfl

theorem literal_of_isReported (h : function.isReported program fuel = some true)
    (hnot : ¬ ∃ v, SameVariable program function v) :
    ∃ firstValue, ∀ node ∈ returnedValues program function,
      ∃ value, getLiteralValue program function.node fuel node = some (some value) ∧
        value.strictEquals firstValue = true := by
  obtain ⟨first, second, rest, hreturned, hall⟩ := exists_cons_of_isReported h
  rw [hreturned]
  rcases areAllSameValue_eq_true hall with ⟨firstValue, hfirst, hrest⟩ | ⟨name, v, init, -, hsingle, hreads⟩
  · obtain ⟨value, -, hsame⟩ := hrest second List.mem_cons_self
    exact ⟨firstValue, List.forall_mem_cons.mpr ⟨⟨firstValue, hfirst, LiteralValue.strictEquals_self hsame⟩, hrest⟩⟩
  · exact absurd ⟨v, ⟨name, (getSingleWriteDefinition_eq_some hsingle).1⟩, hreturned ▸ hreads⟩ hnot

/-- The literal is not returned itself: another expression is returned, and has it from a variable. -/
theorem exists_follows_of_regexp (h : function.isReported program fuel = some true)
    (hnodup : function.returnStatements.Nodup) {literal : Node}
    (hvalues : ∀ node ∈ returnedValues program function,
      getLiteralValue program function.node fuel node = some (some (.RegExp literal))) :
    (∃ v, Follows program function v literal) ∧ literal ∉ returnedValues program function := by
  obtain ⟨first, second, rest, hreturned, -⟩ := exists_cons_of_isReported h
  have hne : first ≠ second := by
    have hdistinct : (returnedValues program function).Nodup := nodup_returnedValues hnodup
    rw [hreturned, List.nodup_cons] at hdistinct
    rintro rfl
    exact hdistinct.1 List.mem_cons_self
  obtain ⟨node, hmem, hother⟩ : ∃ node ∈ returnedValues program function, node ≠ literal := by
    rw [hreturned]
    by_cases hfirst : first = literal
    · exact ⟨second, List.mem_cons_of_mem first List.mem_cons_self, fun hsecond => hne (hfirst.trans hsecond.symm)⟩
    · exact ⟨first, List.mem_cons_self, hfirst⟩
  obtain ⟨v, hfollows⟩ : ∃ v, Follows program function v literal := by
    rcases ReflTransGen.cases_tail (copies_of_getLiteralValue (hvalues node hmem)).1 with heq | ⟨last, hpath, hcopies⟩
    · exact absurd heq.symm hother
    · obtain ⟨name, v, hname, hsingle⟩ := hcopies
      exact ⟨v, last, name, ⟨node, hmem, ReflTransGen.mono (fun _ _ => .inl) _ _ hpath⟩, hname, hsingle⟩
  refine ⟨⟨v, hfollows⟩, fun hliteral => ?_⟩
  obtain ⟨declarator, id, -, hdeclarator⟩ := initExpression_eq_some hfollows.initExpression
  obtain ⟨statement, -, hstatement⟩ := List.mem_filterMap.mp hliteral
  have hparent := program.init_parent hdeclarator
  rw [program.argument_parent (argument_eq_some hstatement)] at hparent
  rw [← Option.some.inj hparent, argument_eq_some hstatement] at hdeclarator
  cases hdeclarator

/-- The variable that all returned expressions read is the one that the rule has looked up. -/
theorem SameVariable.not_written {v : Variable} (hsame : SameVariable program function v)
    (h : function.isReported program fuel = some true) : ∀ ref ∈ (program.references v).tail, ref.isWrite = false := by
  obtain ⟨first, second, rest, hreturned, hall⟩ := exists_cons_of_isReported h
  obtain ⟨⟨key, hset⟩, hvariable⟩ := hsame
  have hfirst : program.variableOf first = some v := hvariable first (by rw [hreturned]; exact List.mem_cons_self)
  rcases areAllSameValue_eq_true hall with ⟨firstValue, hvalue, -⟩ | ⟨name, w, init, -, hsingle, hreads⟩
  · obtain ⟨fuel, rfl⟩ := exists_succ_of_getLiteralValue hvalue
    rcases program.syntaxOf_of_variableOf hfirst with hname | hother
    · obtain ⟨w, init, hsingle, -⟩ := getLiteralValue_Identifier hname hvalue
      obtain ⟨hset', -, htail⟩ := getSingleWriteDefinition_eq_some hsingle
      rw [program.name_of_set hset, hset] at hset'
      rw [Option.some.inj hset']
      exact htail
    · rw [getLiteralValue, hother] at hvalue
      cases hvalue
  · have hw := hreads first List.mem_cons_self
    rw [hfirst] at hw
    rw [Option.some.inj hw]
    exact (getSingleWriteDefinition_eq_some hsingle).2.2

omit [DecidableEq Node] in
theorem length_writes_le {v : Variable} (h : ∀ ref ∈ (program.references v).tail, ref.isWrite = false) :
    (writes program v).length ≤ 1 := by
  rw [writes]
  cases hrefs : program.references v with
  | nil => exact Nat.zero_le 1
  | cons head tail =>
    rw [hrefs, List.tail_cons] at h
    have htail : tail.filter Reference.isWrite = [] :=
      List.filter_eq_nil_iff.mpr fun ref hmem => Bool.not_eq_true _ ▸ h ref hmem
    rw [List.filter_cons, htail]
    split
    · exact le_rfl
    · exact Nat.zero_le 1

omit [DecidableEq Node] in
theorem Evaluates.eq_getD {store : Store Variable} {node : Node} {v : Variable} {value : Value}
    (h : Evaluates program store node value) (hv : program.variableOf node = some v) :
    value = (store v).getD .undefined := by
  cases h with
  | reference hfound =>
    rw [hv] at hfound
    rw [Option.some.inj hfound]
  | other _ _ _ hnone =>
    rw [hv] at hnone
    cases hnone
  | Literal h | RegExpLiteral h | UnaryExpression h =>
    rcases program.syntaxOf_of_variableOf hv with hname | hother
    · rw [h] at hname
      cases hname
    · rw [h] at hother
      cases hother

end Reported

/-! ### What is returned -/

section Returned

variable {fuel : ℕ}

theorem Execution.exists_returned (h : function.isReported program fuel = some true) (x : Execution program function) :
    ∃ node ∈ returnedValues program function, x.returned = some node ∧ Evaluates program x.last node x.result := by
  obtain ⟨himplicit, harguments, -, -⟩ := isReported_eq_true h
  obtain ⟨start, trace, last, returned, result, entry, run, completes⟩ := x
  cases completes with
  | @returned statement node _ hmem hargument hvalue =>
    exact ⟨node, List.mem_filterMap.mpr ⟨statement, hmem, hargument⟩, rfl, hvalue⟩
  | returnedNothing hmem hargument =>
    have hsome := harguments _ hmem
    rw [hargument] at hsome
    cases hsome
  | reachedEnd hmem hreachable =>
    rw [himplicit _ hmem] at hreachable
    cases hreachable

theorem SameVariable.invariantReturn {v : Variable} (hsame : SameVariable program function v)
    (h : function.isReported program fuel = some true) :
    InvariantReturn program function fun x => MeetsVariable x v := by
  have hresult : ∀ x : Execution program function, x.result = (x.last v).getD .undefined := by
    intro x
    obtain ⟨node, hmem, -, hvalue⟩ := x.exists_returned h
    exact hvalue.eq_getD (hsame.2 node hmem)
  have hassigned : ∀ x : Execution program function, (x.last v).isSome = true → x.last v = some x.result := by
    intro x hsome
    obtain ⟨value, hvalue⟩ := Option.isSome_iff_exists.mp hsome
    rw [hresult, hvalue, Option.getD_some]
  have hlength := length_writes_le (hsame.not_written h)
  cases hbound : program.boundAtEntry v with
  | true =>
    by_cases hwrites : writes program v = []
    · refine .inr ⟨v, by simp [SingleAssignment, hwrites, hbound], fun x _ => ?_⟩
      exact hassigned x (x.isSome_last hsame.1 hbound)
    · exact .inl ⟨.undefined, fun x hmeets => absurd (hmeets.not_written hbound) hwrites⟩
  | false =>
    by_cases hwrites : writes program v = []
    · refine .inl ⟨.undefined, fun x hmeets => ?_⟩
      rw [hresult, x.last_eq_none hsame.1 hbound hwrites hmeets]
      trivial
    · refine .inr ⟨v, by simpa [SingleAssignment, hbound] using hlength, fun x hmeets => ?_⟩
      exact hassigned x (hmeets.assigned hwrites)

theorem invariantReturn_of_literal (h : function.isReported program fuel = some true)
    (hnodup : function.returnStatements.Nodup) (hnot : ¬ ∃ v, SameVariable program function v) :
    InvariantReturn program function MeetsLiteral := by
  obtain ⟨firstValue, hvalues⟩ := literal_of_isReported h hnot
  have hholds : ∀ x : Execution program function, MeetsLiteral x → ∃ node ∈ returnedValues program function,
      ∃ value, value.strictEquals firstValue = true ∧ (Holds program function x.last value x.result ∨
        value = .RegExp node ∧ ∃ identity, x.result = .object true identity) := by
    intro x hmeets
    obtain ⟨node, hmem, hreturned, hvalue⟩ := x.exists_returned h
    obtain ⟨value, hliteral, hsame⟩ := hvalues node hmem
    exact ⟨node, hmem, value, hsame, holds_of_evaluates (x.holdsLiterals hmeets) ⟨node, hmem, .refl⟩ hliteral hvalue
      (hmeets.evaluated node hreturned) hmeets.supported⟩
  cases firstValue with
  | primitive p =>
    refine .inl ⟨.primitive p, fun x hmeets => ?_⟩
    obtain ⟨node, hmem, value, hsame, hholds⟩ := hholds x hmeets
    cases value with
    | primitive q =>
      rcases hholds with hresult | ⟨hregexp, -⟩
      · rw [hresult]
        exact hsame
      · cases hregexp
    | RegExp literal => cases hsame
  | RegExp literal =>
    have hregexp : ∀ value : LiteralValue Node, value.strictEquals (.RegExp literal) = true →
        value = .RegExp literal := by
      intro value hsame
      cases value with
      | primitive p => cases hsame
      | RegExp literal' => rw [of_decide_eq_true hsame]
    obtain ⟨⟨v, hfollows⟩, hnotreturned⟩ := exists_follows_of_regexp h hnodup fun node hmem => by
      obtain ⟨value, hliteral, hsame⟩ := hvalues node hmem
      rw [hliteral, hregexp value hsame]
    by_cases hbound : program.boundAtEntry v = false
    · have hlength : (writes program v).length ≤ 1 := by
        obtain ⟨_, _, _, _, hsingle⟩ := hfollows
        exact length_writes_le (getSingleWriteDefinition_eq_some hsingle).2.2
      refine .inr ⟨v, by simpa [SingleAssignment, hbound] using hlength, fun x hmeets => ?_⟩
      obtain ⟨node, hmem, value, hsame, hholds⟩ := hholds x hmeets
      obtain rfl := hregexp value hsame
      rcases hholds with ⟨-, hstored⟩ | ⟨hnode, -⟩
      · obtain ⟨node, hmem, -, -⟩ := x.exists_returned h
        obtain ⟨value, hliteral, hsame⟩ := hvalues node hmem
        rw [hregexp value hsame] at hliteral
        obtain ⟨w, hw, hlast⟩ := hstored ⟨node, hmem, (copies_of_getLiteralValue hliteral).1⟩
        rw [hfollows.unique hw (hmeets.declared v literal hfollows).2 (hmeets.declared w literal hw).2, hlast]
      · cases hnode
        exact absurd hmem hnotreturned
    · exact .inl ⟨.undefined, fun x hmeets => absurd (hmeets.declared v literal hfollows).1 hbound⟩

end Returned

/-! ### Soundness of the report -/

omit [DecidableEq Node] in
theorem InvariantReturn.mono {P Q : Execution program function → Prop} (h : InvariantReturn program function P)
    (himp : ∀ x, Q x → P x) : InvariantReturn program function Q := by
  rcases h with ⟨value, hvalue⟩ | ⟨v, hsingle, hv⟩
  · exact .inl ⟨value, fun x hx => hvalue x (himp x hx)⟩
  · exact .inr ⟨v, hsingle, fun x hx => hv x (himp x hx)⟩

theorem invariantReturn_of_isReported {fuel : ℕ} (h : function.isReported program fuel = some true)
    (hnodup : function.returnStatements.Nodup) : InvariantReturn program function Meets := by
  by_cases hsame : ∃ v, SameVariable program function v
  · obtain ⟨v, hv⟩ := hsame
    exact (hv.invariantReturn h).mono fun x hmeets => hmeets.1 v hv
  · exact (invariantReturn_of_literal h hnodup hsame).mono fun x hmeets => hmeets.2 hsame

/-- Each return statement is visited once. -/
theorem reported_invariant (t : Traversal Node) (hvisits : ∀ function ∈ t.functions, function.returnStatements.Nodup)
    {fuel : ℕ} {last : State Node} (h : process program fuel State.initial t.events = some last) :
    ∀ node ∈ last.reported, ∃ function ∈ t.functions, function.node = node ∧
      InvariantReturn program function Meets := by
  intro node hnode
  obtain ⟨function, hfunction, hname, hreported⟩ := exists_function_of_reported h hnode
  exact ⟨function, hfunction, hname, invariantReturn_of_isReported hreported (hvisits function hfunction)⟩

/-! ### A name that is declared again -/

namespace Redeclared

/-- `() => { const x = 1; if (c()) { const x = 2; return x; } return 1; }`, and the same with `const y = 2`. -/
inductive Site
  | arrow | outer | outerId | one | inner | innerId | two | returnRead | read | returnLiteral | literal
  deriving DecidableEq

inductive Name
  | outer | inner
  deriving DecidableEq

def number (value : ℚ) : Primitive := .number (.finite value)

/-- Whether the inner variable has the name of the outer one. -/
def source (isRedeclared : Bool) : Program Site Name where
  conversions := ⟨fun _ => .NaN, fun value => .finite value⟩
  syntaxOf
    | .arrow => .other "ArrowFunctionExpression"
    | .outer => .VariableDeclarator .outerId (some .one)
    | .outerId | .read => .Identifier "x"
    | .one | .literal => .Literal (number 1)
    | .inner => .VariableDeclarator .innerId (some .two)
    | .innerId => .Identifier (if isRedeclared then "x" else "y")
    | .two => .Literal (number 2)
    | .returnRead => .ReturnStatement (some .read)
    | .returnLiteral => .ReturnStatement (some .literal)
  ancestorsChain
    | .arrow => []
    | .outer | .inner | .returnRead | .returnLiteral => [.arrow]
    | .outerId | .one => [.outer, .arrow]
    | .innerId | .two => [.inner, .arrow]
    | .read => [.returnRead, .arrow]
    | .literal => [.returnLiteral, .arrow]
  depth _ := 0
  name
    | .outer => "x"
    | .inner => if isRedeclared then "x" else "y"
  references
    | .outer => ⟨.outerId, true, some .one⟩ :: if isRedeclared then [] else [⟨.read, false, none⟩]
    | .inner => ⟨.innerId, true, some .two⟩ :: if isRedeclared then [⟨.read, false, none⟩] else []
  defs
    | .outer => [.Variable .outer]
    | .inner => [.Variable .inner]
  set function key := if function = .arrow ∧ key = "x" then some .outer else none
  variableOf
    | .outerId => some .outer
    | .innerId => some .inner
    | .read => if isRedeclared then some .inner else some .outer
    | _ => none
  boundAtEntry _ := false
  object_depth {node object} h := by cases node <;> cases h
  argument_parent {node argument} h := by cases node <;> cases h <;> rfl
  init_parent {node id init} h := by cases node <;> cases h <;> rfl
  name_of_set {_ key found} h := by
    split at h
    · rename_i hkey
      cases h
      exact hkey.2.symm
    · cases h
  syntaxOf_of_variableOf {node found} h := by
    cases isRedeclared <;> cases node <;> cases h <;> exact .inl rfl
  variableOf_identifier {found ref} h := by
    cases isRedeclared <;> cases found <;> simp at h <;> grind
  exists_initializer {found node id init} hdefs hkind := by
    cases found <;> cases hdefs <;> cases hkind <;> exact ⟨_, List.mem_cons_self, rfl, rfl⟩

/-- The segments of the test, of the branch and of the rest. -/
def body : Traversal Site :=
  .segmentStart ⟨true⟩ (.segmentEnd (.segmentStart ⟨true⟩ (.returnStatement .returnRead (.segmentEnd
    (.segmentStart ⟨true⟩ (.returnStatement .returnLiteral (.segmentEnd .done)))))))

def arrowFunction : Function Site := ⟨.arrow, ⟨[]⟩, body⟩

def traversal : Traversal Site :=
  .codePath ⟨[]⟩ none (.segmentStart ⟨true⟩ (.codePath ⟨[]⟩ (some .arrow) body 0 .done)) 1 .done

/-- `x` is assigned, then the inner variable if the branch is taken. -/
def start : Store Name := fun _ => none

def assigned : Store Name := Function.update start .outer (some (.primitive (number 1)))

variable {isRedeclared : Bool}

theorem own_iff {v : Name} : Own (source isRedeclared) arrowFunction v ↔ v = .outer := by
  constructor
  · rintro ⟨key, hset⟩
    change (if Site.arrow = .arrow ∧ key = "x" then some Name.outer else none) = some v at hset
    split at hset
    · exact (Option.some.inj hset).symm
    · cases hset
  · rintro rfl
    exact ⟨"x", rfl⟩

theorem step_outer : Step (source isRedeclared) arrowFunction start
    (.reference .outer ⟨.outerId, true, some .one⟩ (.primitive (number 1))) assigned := by
  refine .reference (own_iff.mpr rfl) List.mem_cons_self rfl fun init hinit _ => ?_
  cases hinit
  exact .Literal rfl

theorem mem_returnStatements {statement : Site} :
    statement ∈ arrowFunction.returnStatements ↔ statement = .returnRead ∨ statement = .returnLiteral := by
  simp [arrowFunction, Function.returnStatements, body, Traversal.returnStatements]

/-- The branch is not taken. -/
def fallsThrough (isRedeclared : Bool) : Execution (source isRedeclared) arrowFunction where
  start := start
  trace := [(start, .reference .outer ⟨.outerId, true, some .one⟩ (.primitive (number 1)))]
  last := assigned
  returned := some .literal
  result := .primitive (number 1)
  entry _ _ := rfl
  run := .cons step_outer (.nil assigned)
  completes := .returned (mem_returnStatements.mpr (.inr rfl)) rfl (.Literal rfl)

def branched : Store Name := Function.update assigned .inner (some (.primitive (number 2)))

theorem evaluates_read : Evaluates (source true) branched .read (.primitive (number 2)) := by
  have hread : (source true).variableOf .read = some .inner := rfl
  have hvalue : (branched .inner).getD .undefined = .primitive (number 2) := rfl
  exact hvalue ▸ Evaluates.reference hread

/-- The branch is taken, where the inner variable is read. -/
def takesBranch : Execution (source true) arrowFunction where
  start := start
  trace := [(start, .reference .outer ⟨.outerId, true, some .one⟩ (.primitive (number 1))), (assigned, .elsewhere)]
  last := branched
  returned := some .read
  result := .primitive (number 2)
  entry _ _ := rfl
  run := .cons step_outer (.cons (.elsewhere fun _ hown => own_iff.mp hown ▸ rfl) (.nil _))
  completes := .returned (mem_returnStatements.mpr (.inl rfl)) rfl evaluates_read

theorem process_traversal (isRedeclared : Bool) :
    process (source isRedeclared) 2 State.initial traversal.events = some ⟨[], [], [], [.arrow]⟩ := by
  cases isRedeclared <;> rfl

/-- What is reported, and returns 2 or 1. -/
theorem redeclared_not_invariant :
    (∃ last, process (source true) 2 State.initial traversal.events = some last ∧ .arrow ∈ last.reported) ∧
      traversal.functions = [arrowFunction] ∧
      ¬ InvariantReturn (source true) arrowFunction fun _ => True := by
  refine ⟨⟨_, process_traversal true, List.mem_cons_self⟩, rfl, ?_⟩
  rintro (⟨value, hvalue⟩ | ⟨v, -, hv⟩)
  · have hone := hvalue (fallsThrough true) trivial
    have htwo := hvalue takesBranch trivial
    cases value with
    | primitive p =>
      cases p with
      | number n =>
        cases n with
        | finite q =>
          change decide (1 = q) = true at hone
          change decide (2 = q) = true at htwo
          exact absurd ((of_decide_eq_true htwo).trans (of_decide_eq_true hone).symm) (by decide)
        | _ => cases hone
      | _ => cases hone
    | _ => cases hone
  · cases v with
    | outer => exact absurd (hv takesBranch trivial) (by decide)
    | inner => exact absurd (hv (fallsThrough true) trivial) (by decide)

omit [DecidableEq Variable] in
theorem evaluatesWell_of_literal {store : Store Variable} {node : Node} {value : Primitive}
    (h : program.syntaxOf node = .Literal value) : EvaluatesWell program function store node := by
  intro operand hpath
  rcases ReflTransGen.cases_head hpath with rfl | ⟨_, ⟨operator, hoperand⟩, _⟩
  · constructor
    · intro name v init hname
      rw [h] at hname
      cases hname
    · intro operator operand n hoperand
      rw [h] at hoperand
      cases hoperand
  · rw [h] at hoperand
    cases hoperand

theorem meets_fallsThrough : Meets (fallsThrough false) := by
  have hfollows : ∀ v init, Follows (source false) arrowFunction v init → v = .outer ∧ init = .one := by
    intro v init h
    obtain rfl := own_iff.mp h.own
    exact ⟨rfl, (Option.some.inj h.initExpression).symm⟩
  constructor
  · intro v hsame
    cases hsame.2 .literal (by decide)
  · intro _
    refine ⟨fun v init h => ?_, fun node isSupported _ h => ?_, fun step hmem => ?_, fun node hnode => ?_⟩
    · obtain ⟨rfl, -⟩ := hfollows v init h
      exact ⟨rfl, .outer, .outerId, some .one, rfl, rfl, rfl⟩
    · cases node <;> cases h
    · obtain rfl := List.mem_singleton.mp hmem
      intro init h
      obtain ⟨-, rfl⟩ := hfollows _ init h
      exact ⟨evaluatesWell_of_literal rfl, fun _ _ _ => rfl⟩
    · cases hnode
      exact evaluatesWell_of_literal rfl

/-- With `const y = 2` all is as it should be. -/
theorem reported_invariant_fallsThrough :
    (∃ last, process (source false) 2 State.initial traversal.events = some last ∧ .arrow ∈ last.reported ∧
      ∀ node ∈ last.reported, ∃ function ∈ traversal.functions, function.node = node ∧
        InvariantReturn (source false) function Meets) ∧ Meets (fallsThrough false) := by
  refine ⟨⟨_, process_traversal false, List.mem_cons_self, ?_⟩, meets_fallsThrough⟩
  refine reported_invariant traversal (fun function hmem => ?_) (process_traversal false)
  obtain rfl := List.mem_singleton.mp hmem
  decide

end Redeclared

end SonarJavascript.Rules.InvariantReturns
