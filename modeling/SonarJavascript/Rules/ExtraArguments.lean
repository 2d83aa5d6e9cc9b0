import SonarJavascript.Lib.Histories

/-!
# Extra arguments (S930)

The rule counts the arguments of a call against the parameters of the single definition of its callee. In an
execution the function called is that one, it gets more values than it has parameters, and no step depends on
the additional ones (`reported_sound`), if the variable is only defined, enough arguments are no spreads, and
each `arguments` of the function is one that the rule looks at.
-/

namespace SonarJavascript.Rules.ExtraArguments

/-! ### Programs -/

inductive FunctionType
  | FunctionDeclaration
  | FunctionExpression
  | ArrowFunctionExpression
  | TSDeclareFunction
  deriving DecidableEq

inductive Param
  | RestElement
  | other
  deriving DecidableEq

/-- `body` has the number of statements of a block; an expression is no block. Functions differ by position. -/
structure Function where
  position : ℕ
  type : FunctionType
  params : List Param
  body : Option ℕ
  deriving DecidableEq

inductive Kind
  | var
  | letOrConst
  deriving DecidableEq

inductive Init
  | function (node : Function)
  | other
  deriving DecidableEq

/-- A declarator with its `kind`, whether its `id` is an identifier, and its `init`; `other` has the type. -/
inductive Definition
  | FunctionName (node : Function)
  | Variable (kind : Kind) (isIdentifier : Bool) (init : Option Init)
  | other (type : String)
  deriving DecidableEq

/-- `init` when it is the write of an initialiser. -/
structure Reference where
  position : ℕ
  isWrite : Bool
  init : Bool
  deriving DecidableEq

/-- The reference is what the search among the references of the scope finds; it may be unresolved. -/
inductive Callee (Var : Type)
  | Identifier (reference : Option (Option Var))
  | function (node : Function)
  | other

inductive Argument
  | SpreadElement
  | other
  deriving DecidableEq

structure CallExpression (Var : Type) where
  callee : Callee Var
  arguments : List Argument

/-- A node above an identifier. -/
inductive Ancestor
  | function (node : Function)
  | other (type : String)
  deriving DecidableEq

/-- An identifier with the nodes above it, the innermost first, and what the search for its reference finds. -/
structure Occurrence (Var : Type) where
  name : String
  ancestors : List Ancestor
  reference : Option (Option Var)

/-- `scopeOf` is the function whose scope has the variable, also its own `arguments`, which has no definition. -/
structure Program (Var : Type) where
  definitions : Var → List Definition
  references : Var → List Reference
  scopeOf : Var → Option Function
  calls : List (CallExpression Var)
  functions : List Function
  identifiers : List (Occurrence Var)

variable {Var : Type}

/-! ### The rule -/

section Rule

variable (program : Program Var)

/-- Of `reference`, which is missing or unresolved for none. -/
def getSingleDefinition (reference : Option (Option Var)) : Option Definition :=
  match reference with
  | some (some x) =>
    match program.definitions x with
    | [definition] => some definition
    | _ => none
  | _ => none

/-- The entry for `callExpressionsToCheck`. -/
def checkFunction (call : CallExpression Var) (node : Function) : Option (CallExpression Var × Function) :=
  if .RestElement ∉ node.params ∧ call.arguments.length > node.params.length then some (call, node) else none

def visitCallExpression (call : CallExpression Var) : Option (CallExpression Var × Function) :=
  match call.callee with
  | .Identifier reference =>
    match getSingleDefinition program reference with
    | some (.FunctionName node) => checkFunction call node
    | some (.Variable _ _ (some (.function node))) => checkFunction call node
    | _ => none
  | .function node => checkFunction call node
  | .other => none

def emptyFunctions : List Function :=
  program.functions.filter fun node => node.body = some 0 ∧ node.params = []

def Function.isOrdinary (node : Function) : Bool :=
  node.type = .FunctionDeclaration ∨ node.type = .FunctionExpression

/-- The selectors `FunctionDeclaration > BlockStatement Identifier` and
`FunctionExpression > BlockStatement Identifier`. -/
def inFunctionBlock : List Ancestor → Bool
  | .other type :: .function node :: rest =>
    (type = "BlockStatement" ∧ node.isOrdinary) ∨ inFunctionBlock (.function node :: rest)
  | _ :: rest => inFunctionBlock rest
  | [] => false

/-- The first ancestor that is a function and no arrow function. -/
def nearestFunction (ancestors : List Ancestor) : Option Function :=
  ancestors.findSome? fun
    | .function node => if node.isOrdinary then some node else none
    | .other _ => none

def checkArguments (identifier : Occurrence Var) : Option Function :=
  if identifier.name = "arguments" then
    match getSingleDefinition program identifier.reference with
    | some _ => none
    | none => nearestFunction identifier.ancestors
  else none

def usingArguments : List Function :=
  (program.identifiers.filter fun identifier => inFunctionBlock identifier.ancestors).filterMap
    (checkArguments program)

/-- The calls with the functions whose parameters were counted. -/
def reported : List (CallExpression Var × Function) :=
  (program.calls.filterMap (visitCallExpression program)).filter fun entry =>
    entry.2 ∉ usingArguments program ∧ entry.2 ∉ emptyFunctions program

end Rule

/-! ### Executions -/

/-- Ways to the arguments object of a function: its name, a direct `eval`, the property `arguments` of the
function object. -/
inductive Channel (Var : Type)
  | identifier (occurrence : Occurrence Var)
  | evaluation (occurrence : Occurrence Var)
  | property

/-- A variable is written by its definition, by a reference, or from outside of the program or by `eval`. -/
inductive Writer
  | definition
  | reference (reference : Reference)
  | outside
  deriving DecidableEq

/-- The steps that write variables or take argument values. A call that is no call expression of the program,
such as `new` or a callback, is none. -/
inductive Event (Var Value : Type)
  | assigned (x : Var) (binding : ℕ) (value : Value) (writer : Writer)
  | invoked (call : Option (CallExpression Var)) (callee : Value) (values : List Value) (activation : ℕ)
  | bound (activation index : ℕ) (value : Value)
  | boundRest (activation : ℕ) (values : List Value)
  | read (node : Function) (activation : ℕ) (channel : Channel Var) (index : ℕ) (value : Option Value)

/-- The function node that a function object was made from. -/
structure World (Value : Type) where
  undefined : Value
  functionOf : Value → Option Function

variable {Value : Type}

/-- A `var` named `arguments` of the function itself still holds the arguments object; other variables of that
name hide it. -/
def Program.argumentsOf (program : Program Var) (identifier : Occurrence Var) : Option Function :=
  match nearestFunction identifier.ancestors, identifier.reference with
  | some node, some (some x) =>
    if identifier.name = "arguments" ∧ program.scopeOf x = some node ∧
        (program.definitions x).all fun
          | .Variable .var _ _ => true
          | _ => false
    then some node else none
  | _, _ => none

/-- The function that a variable gets from its definition. -/
def Definition.value : Definition → Option Function
  | .FunctionName node => if node.type = .TSDeclareFunction then none else some node
  | .Variable _ true (some (.function node)) => some node
  | _ => none

def CallExpression.variable (call : CallExpression Var) : Option Var :=
  match call.callee with
  | .Identifier (some (some x)) => some x
  | _ => none

def lastAssigned [DecidableEq Var] (past : List (Event Var Value)) (x : Var) (binding : ℕ) :
    Option (Value × Writer) :=
  past.findSome? fun
    | .assigned y i value writer => if y = x ∧ i = binding then some (value, writer) else none
    | _ => none

/-- The function object and the argument values of an activation. -/
def invocation (past : List (Event Var Value)) (activation : ℕ) : Option (Value × List Value) :=
  past.findSome? fun
    | .invoked _ callee values a => if a = activation then some (callee, values) else none
    | _ => none

/-- Each argument gives one value, a spread any number of them. -/
def Passes (arguments : List Argument) (values : List Value) : Prop :=
  arguments.count .other ≤ values.length ∧ (.SpreadElement ∉ arguments → values.length = arguments.length)

section Semantics

variable [DecidableEq Var] (program : Program Var) (world : World Value) (past : List (Event Var Value))

def Callee.Evaluates (callee : Callee Var) (v : Value) : Prop :=
  match callee with
  | .Identifier (some (some x)) => ∃ binding writer, lastAssigned past x binding = some (v, writer)
  | .function node => world.functionOf v = some node
  | _ => True

def Channel.Reaches (channel : Channel Var) (node : Function) : Prop :=
  match channel with
  | .identifier occurrence => occurrence ∈ program.identifiers ∧ program.argumentsOf occurrence = some node
  | .evaluation occurrence => occurrence ∈ program.identifiers ∧ nearestFunction occurrence.ancestors = some node
  | .property => node.isOrdinary

def Justified : Event Var Value → Prop
  | .assigned x _ v .definition =>
    ∀ definition node, program.definitions x = [definition] → definition.value = some node →
      world.functionOf v = some node
  | .assigned x _ _ (.reference reference) =>
    reference ∈ program.references x ∧ reference.isWrite = true ∧ reference.init = false
  | .assigned _ _ _ .outside => True
  | .invoked (some call) callee values _ => call.callee.Evaluates world past callee ∧ Passes call.arguments values
  | .invoked none _ _ _ => True
  | .bound activation index v => ∃ callee values node, invocation past activation = some (callee, values) ∧
    world.functionOf callee = some node ∧ index < node.params.length ∧ v = values[index]?.getD world.undefined
  | .boundRest activation rest => ∃ callee values node, invocation past activation = some (callee, values) ∧
    world.functionOf callee = some node ∧ .RestElement ∈ node.params ∧ rest = values.drop (node.params.length - 1)
  | .read node activation channel index v => ∃ callee values, invocation past activation = some (callee, values) ∧
    world.functionOf callee = some node ∧ channel.Reaches program node ∧ v = values[index]?

def Execution (run : List (Event Var Value)) : Prop :=
  History (Justified program world) run

end Semantics

/-! ### What a report says -/

/-- Other values in the place of the additional arguments of the function. -/
def replaceAdditional (world : World Value) (node : Function) (other : ℕ → ℕ → Value) :
    Event Var Value → Event Var Value
  | .invoked call callee values activation =>
    .invoked call callee
      (if world.functionOf callee = some node then
        values.mapIdx fun i v => if i < node.params.length then v else other activation i
      else values) activation
  | event => event

section Reports

variable [DecidableEq Var] (program : Program Var)

/-- In an execution the call invokes this function, with more values than it has parameters, and the execution
goes the same way with any other additional values. -/
def SoundIn (world : World Value) (run : List (Event Var Value)) (call : CallExpression Var) (node : Function) :
    Prop :=
  (∀ callee values activation, .invoked (some call) callee values activation ∈ run →
    world.functionOf callee = some node ∧ node.params.length < values.length) ∧
  ∀ other, Execution program world (run.map (replaceAdditional world node other))

def Sound : Prop :=
  ∀ call node, (call, node) ∈ reported program →
    ∀ (Value : Type) (world : World Value) run, Execution program world run → SoundIn program world run call node

/-- The declarator binds its identifier, and the function has a body. -/
def Definition.Whole : Definition → Prop
  | .FunctionName node => node.type ≠ .TSDeclareFunction
  | .Variable _ isIdentifier _ => isIdentifier = true
  | .other _ => True

/-- There are more arguments that are no spreads than parameters; the variable of the callee is written by its
definition only; each `arguments` of the function stands in the block of a function and has no definition. -/
structure Plain (call : CallExpression Var) (node : Function) : Prop where
  counted : node.params.length < call.arguments.count .other
  whole : ∀ x definition, call.variable = some x → program.definitions x = [definition] → definition.Whole
  written : ∀ x reference, call.variable = some x → reference ∈ program.references x → reference.isWrite = true →
    reference.init = true
  looked : ∀ identifier x, identifier ∈ program.identifiers → program.argumentsOf identifier = some node →
    identifier.reference = some (some x) →
    inFunctionBlock identifier.ancestors = true ∧ (program.definitions x).length ≠ 1

/-- Nothing outside of the program writes the variable, and the arguments object of the function is reached by
its name only. -/
structure Steady (run : List (Event Var Value)) (call : CallExpression Var) (node : Function) : Prop where
  inside : ∀ x binding v, call.variable = some x → .assigned x binding v .outside ∉ run
  named : ∀ activation channel index v, .read node activation channel index v ∈ run →
    ∃ occurrence, channel = .identifier occurrence

end Reports

/-! ### The function that is called -/

section Proofs

variable {program : Program Var} {call : CallExpression Var} {node : Function}

theorem getSingleDefinition_eq_some {reference : Option (Option Var)} {definition : Definition}
    (h : getSingleDefinition program reference = some definition) :
    ∃ x, reference = some (some x) ∧ program.definitions x = [definition] := by
  unfold getSingleDefinition at h
  split at h
  · next x =>
    split at h
    · next found hfound => exact ⟨x, rfl, by rw [hfound, Option.some.inj h]⟩
    · cases h
  · cases h

theorem checkFunction_eq_some {counted : Function} (h : checkFunction call counted = some (call, node)) :
    counted = node ∧ .RestElement ∉ node.params := by
  unfold checkFunction at h
  split at h
  · next hcounted =>
    obtain ⟨-, rfl⟩ := Prod.mk.inj (Option.some.inj h)
    exact ⟨rfl, hcounted.1⟩
  · cases h

theorem checkFunction_fst {other : CallExpression Var} {counted : Function}
    (h : checkFunction other counted = some (call, node)) : other = call := by
  unfold checkFunction at h
  split at h
  · exact (Prod.mk.inj (Option.some.inj h)).1
  · cases h

/-- The function is the callee itself, or the one in the single definition of its variable. -/
theorem reported_cases (h : (call, node) ∈ reported program) :
    .RestElement ∉ node.params ∧ node ∉ usingArguments program ∧
      (call.callee = .function node ∨ ∃ x definition, call.callee = .Identifier (some (some x)) ∧
        program.definitions x = [definition] ∧
        (definition.Whole → definition.value = some node)) := by
  obtain ⟨hmem, hfilter⟩ := List.mem_filter.mp h
  obtain ⟨other, -, hvisit⟩ := List.mem_filterMap.mp hmem
  have husing : node ∉ usingArguments program := by
    simp only [decide_eq_true_eq] at hfilter
    exact hfilter.1
  unfold visitCallExpression at hvisit
  split at hvisit
  · next reference hcallee =>
    split at hvisit
    · next counted hdefinition =>
      obtain rfl := checkFunction_fst hvisit
      obtain ⟨rfl, hrest⟩ := checkFunction_eq_some hvisit
      obtain ⟨x, rfl, hx⟩ := getSingleDefinition_eq_some hdefinition
      refine ⟨hrest, husing, .inr ⟨x, _, hcallee, hx, fun hwhole => ?_⟩⟩
      rw [Definition.value, if_neg hwhole]
    · next kind isIdentifier counted hdefinition =>
      obtain rfl := checkFunction_fst hvisit
      obtain ⟨rfl, hrest⟩ := checkFunction_eq_some hvisit
      obtain ⟨x, rfl, hx⟩ := getSingleDefinition_eq_some hdefinition
      refine ⟨hrest, husing, .inr ⟨x, _, hcallee, hx, fun hwhole => ?_⟩⟩
      obtain rfl : isIdentifier = true := hwhole
      rfl
    · cases hvisit
  · next counted hcallee =>
    obtain rfl := checkFunction_fst hvisit
    obtain ⟨rfl, hrest⟩ := checkFunction_eq_some hvisit
    exact ⟨hrest, husing, .inl hcallee⟩
  · cases hvisit

/-- An `arguments` that the rule looks at takes its function off the reports. -/
theorem mem_usingArguments {identifier : Occurrence Var} (hmem : identifier ∈ program.identifiers)
    (harguments : program.argumentsOf identifier = some node)
    (hlooked : ∀ x, identifier.reference = some (some x) →
      inFunctionBlock identifier.ancestors = true ∧ (program.definitions x).length ≠ 1) :
    node ∈ usingArguments program := by
  unfold Program.argumentsOf at harguments
  split at harguments
  · next nearest x hnearest hreference =>
    split at harguments
    · next hcondition =>
      obtain ⟨hblock, hlength⟩ := hlooked x hreference
      refine List.mem_filterMap.mpr ⟨identifier, List.mem_filter.mpr ⟨hmem, hblock⟩, ?_⟩
      have hnone : getSingleDefinition program identifier.reference = none := by
        cases hdefinition : getSingleDefinition program identifier.reference with
        | none => rfl
        | some definition =>
          obtain ⟨y, hy, hsingle⟩ := getSingleDefinition_eq_some hdefinition
          obtain rfl : x = y := Option.some.inj (Option.some.inj (hreference.symm.trans hy))
          exact absurd (by rw [hsingle]; rfl) hlength
      rw [checkArguments, if_pos hcondition.1, hnone, hnearest, harguments]
    · cases harguments
  · cases harguments

variable [DecidableEq Var] {world : World Value} {run past : List (Event Var Value)}

theorem mem_of_lastAssigned {x : Var} {binding : ℕ} {v : Value} {writer : Writer}
    (h : lastAssigned past x binding = some (v, writer)) : .assigned x binding v writer ∈ past := by
  obtain ⟨event, hmem, hevent⟩ := List.exists_of_findSome?_eq_some h
  cases event with
  | assigned y i value made =>
    simp only [Option.ite_none_right_eq_some, Option.some.injEq, Prod.mk.injEq] at hevent
    obtain ⟨⟨rfl, rfl⟩, rfl, rfl⟩ := hevent
    exact hmem
  | _ => cases hevent

theorem functionOf_invoked (hreported : (call, node) ∈ reported program) (hplain : Plain program call node)
    (hrun : Execution program world run) (hsteady : Steady run call node) {callee : Value} {values : List Value}
    {activation : ℕ} (hmem : .invoked (some call) callee values activation ∈ run) :
    world.functionOf callee = some node := by
  obtain ⟨past, hsuffix, hcallee, -⟩ := hrun.justified hmem
  obtain ⟨-, -, hfunction | ⟨x, definition, hidentifier, hdefinition, hvalue⟩⟩ := reported_cases hreported
  · rw [hfunction] at hcallee
    exact hcallee
  · have hvariable : call.variable = some x := by rw [CallExpression.variable, hidentifier]
    rw [hidentifier] at hcallee
    obtain ⟨binding, writer, hlast⟩ := hcallee
    have hassigned := History.mem_of_past hsuffix (mem_of_lastAssigned hlast)
    obtain ⟨before, -, hjustified⟩ := hrun.justified hassigned
    cases writer with
    | definition =>
      exact hjustified definition node hdefinition (hvalue (hplain.whole x definition hvariable hdefinition))
    | reference reference =>
      obtain ⟨hreference, hwrite, hinit⟩ := hjustified
      rw [hplain.written x reference hvariable hreference hwrite] at hinit
      cases hinit
    | outside => exact absurd hassigned (hsteady.inside x binding callee hvariable)

theorem length_lt_of_invoked (hplain : Plain program call node) (hrun : Execution program world run)
    {callee : Value} {values : List Value} {activation : ℕ}
    (hmem : .invoked (some call) callee values activation ∈ run) : node.params.length < values.length := by
  obtain ⟨past, -, -, hpasses, -⟩ := hrun.justified hmem
  exact hplain.counted.trans_le hpasses

/-! ### The additional values -/

variable {other : ℕ → ℕ → Value}

theorem lastAssigned_replace (x : Var) (binding : ℕ) :
    lastAssigned (past.map (replaceAdditional world node other)) x binding = lastAssigned past x binding := by
  induction past with
  | nil => rfl
  | cons event past ih =>
    unfold lastAssigned at ih ⊢
    rw [List.map_cons, List.findSome?_cons, List.findSome?_cons, ih]
    cases event <;> rfl

omit [DecidableEq Var] in
/-- The values of an activation in the other execution. -/
theorem invocation_replace {activation : ℕ} {callee : Value} {values : List Value}
    (h : invocation past activation = some (callee, values)) :
    invocation (past.map (replaceAdditional world node other)) activation = some (callee,
      if world.functionOf callee = some node then
        values.mapIdx fun i v => if i < node.params.length then v else other activation i
      else values) := by
  induction past with
  | nil => cases h
  | cons event past ih =>
    unfold invocation at ih h ⊢
    rw [List.map_cons, List.findSome?_cons]
    rw [List.findSome?_cons] at h
    cases event with
    | invoked call' callee' values' activation' =>
      by_cases hactivation : activation' = activation
      · subst hactivation
        simp only [if_true, Option.some.injEq, Prod.mk.injEq] at h
        obtain ⟨rfl, rfl⟩ := h
        simp [replaceAdditional]
      · simp only [hactivation, if_false] at h
        simp only [replaceAdditional, hactivation, if_false]
        exact ih h
    | _ => exact ih h

theorem justified_replace (hrest : .RestElement ∉ node.params)
    (hread : ∀ activation channel index v, .read node activation channel index v ∉ run)
    {event : Event Var Value} (hsuffix : event :: past <:+ run) (h : Justified program world past event) :
    Justified program world (past.map (replaceAdditional world node other)) (replaceAdditional world node other event) := by
  cases event with
  | assigned x binding v writer => cases writer <;> exact h
  | invoked made callee values activation =>
    cases made with
    | none => trivial
    | some call' =>
      obtain ⟨hcallee, hpasses⟩ := h
      refine ⟨?_, ?_⟩
      · cases hkind : call'.callee with
        | Identifier reference =>
          rw [hkind] at hcallee
          rcases reference with _ | _ | x
          · trivial
          · trivial
          · obtain ⟨binding, writer, hlast⟩ := hcallee
            exact ⟨binding, writer, by rw [lastAssigned_replace, hlast]⟩
        | function | other => rw [hkind] at hcallee; exact hcallee
      · split
        · simpa [Passes] using hpasses
        · exact hpasses
  | bound activation index v =>
    obtain ⟨callee, values, function, hinvocation, hfunction, hindex, rfl⟩ := h
    refine ⟨callee, _, function, invocation_replace hinvocation, hfunction, hindex, ?_⟩
    split
    · next hnode =>
      obtain rfl : function = node := Option.some.inj (hfunction.symm.trans hnode)
      rw [List.getElem?_mapIdx]
      cases hvalue : values[index]? <;> simp [hindex]
    · rfl
  | boundRest activation rest =>
    obtain ⟨callee, values, function, hinvocation, hfunction, hparam, rfl⟩ := h
    refine ⟨callee, _, function, invocation_replace hinvocation, hfunction, hparam, ?_⟩
    rw [if_neg]
    intro hnode
    obtain rfl : function = node := Option.some.inj (hfunction.symm.trans hnode)
    exact hrest hparam
  | read function activation channel index v =>
    obtain ⟨callee, values, hinvocation, hfunction, hreaches, rfl⟩ := h
    refine ⟨callee, _, invocation_replace hinvocation, hfunction, hreaches, ?_⟩
    rw [if_neg]
    intro hnode
    obtain rfl : function = node := Option.some.inj (hfunction.symm.trans hnode)
    exact hread _ _ _ _ (hsuffix.subset List.mem_cons_self)

/-- What a report says holds in the steady executions. -/
theorem reported_sound (hreported : (call, node) ∈ reported program) (hplain : Plain program call node)
    (hrun : Execution program world run) (hsteady : Steady run call node) : SoundIn program world run call node := by
  obtain ⟨hrest, husing, -⟩ := reported_cases hreported
  refine ⟨fun callee values activation hmem =>
    ⟨functionOf_invoked hreported hplain hrun hsteady hmem, length_lt_of_invoked hplain hrun hmem⟩, fun other => ?_⟩
  have hread : ∀ activation channel index v, .read node activation channel index v ∉ run := by
    intro activation channel index v hmem
    obtain ⟨occurrence, rfl⟩ := hsteady.named activation channel index v hmem
    obtain ⟨_, -, _, _, -, -, ⟨hidentifier, harguments⟩, -⟩ := hrun.justified hmem
    exact husing (mem_usingArguments hidentifier harguments fun x hx => hplain.looked _ x hidentifier harguments hx)
  exact hrun.map _ fun past event hsuffix h => justified_replace hrest hread hsuffix h

end Proofs

/-! ### Two programs -/

namespace Sample

/-- A function f with one parameter. -/
def f : Function := ⟨0, .FunctionDeclaration, [.other], some 1⟩

/-- `f(x, y)` -/
def callOfF : CallExpression Bool := ⟨.Identifier (some (some false)), [.other, .other]⟩

/-- A program that declares f and calls it, with the identifiers named arguments. The variables are f and the
arguments of f. -/
def declare (identifiers : List (Occurrence Bool)) : Program Bool where
  definitions x := if x then [] else [.FunctionName f]
  references _ := [⟨5, false, false⟩]
  scopeOf x := if x then some f else none
  calls := [callOfF]
  functions := [f]
  identifiers := identifiers

/-- The function object is 0. -/
def world : World ℕ where
  undefined := 1
  functionOf v := if v = 0 then some f else none

/-- f is called with two values. -/
def called (v w : ℕ) : List (Event Bool ℕ) :=
  [.invoked (some callOfF) 0 [v, w] 0, .assigned false 0 0 .definition]

theorem called_execution (identifiers : List (Occurrence Bool)) (v w : ℕ) :
    Execution (declare identifiers) world (called v w) := by
  refine .cons ?_ (.cons ?_ .nil)
  · exact ⟨⟨0, .definition, rfl⟩, Nat.le_refl 2, fun _ => rfl⟩
  · intro definition node hdefinition hvalue
    obtain rfl : Definition.FunctionName f = definition := by simpa [declare] using hdefinition
    exact hvalue

theorem reported_declare (identifiers : List (Occurrence Bool))
    (h : f ∉ usingArguments (declare identifiers)) : (callOfF, f) ∈ reported (declare identifiers) := by
  refine List.mem_filter.mpr ⟨List.mem_filterMap.mpr ⟨callOfF, List.mem_singleton_self _, rfl⟩, ?_⟩
  have hempty : f ∉ emptyFunctions (declare identifiers) := by simp [emptyFunctions, declare, f]
  simpa using ⟨h, hempty⟩

/-- `arguments` in `function f(a = arguments[1]) { return a; }` -/
def defaultArguments : Occurrence Bool where
  name := "arguments"
  ancestors := [.other "MemberExpression", .other "AssignmentPattern", .function f, .other "Program"]
  reference := some (some true)

/-- The first argument is undefined, and its default value is taken from the second one. -/
def observed : List (Event Bool ℕ) :=
  .read f 0 (.identifier defaultArguments) 1 (some 8) :: called 1 8

theorem observed_execution : Execution (declare [defaultArguments]) world observed :=
  .cons ⟨0, [1, 8], rfl, rfl, ⟨List.mem_singleton_self _, by decide⟩, rfl⟩ (called_execution _ 1 8)

end Sample

theorem reported_sound_declaration :
    SoundIn (Sample.declare []) Sample.world (.bound 0 0 7 :: Sample.called 7 8) Sample.callOfF Sample.f := by
  refine reported_sound (Sample.reported_declare [] (by decide)) ?_ ?_ ?_
  · refine ⟨by decide, ?_, ?_, nofun⟩
    · rintro x definition hvariable hdefinition
      obtain rfl : false = x := Option.some.inj hvariable
      obtain rfl : Definition.FunctionName Sample.f = definition := by simpa [Sample.declare] using hdefinition
      exact nofun
    · rintro x reference - hreference hwrite
      obtain rfl := List.mem_singleton.mp hreference
      cases hwrite
  · exact .cons ⟨0, [7, 8], Sample.f, rfl, rfl, by decide, rfl⟩ (Sample.called_execution [] 7 8)
  · exact ⟨by simp [Sample.called], by simp [Sample.called]⟩

/-- `function f(a = arguments[1]) { return a; } f(undefined, 8)` is reported. -/
theorem defaultArguments_not_sound : ¬ Sound (Sample.declare [Sample.defaultArguments]) := by
  intro h
  obtain ⟨-, hreplaced⟩ := h Sample.callOfF Sample.f (Sample.reported_declare _ (by decide)) ℕ Sample.world
    Sample.observed Sample.observed_execution
  cases hreplaced fun _ _ => 9 with
  | cons hread =>
    obtain ⟨callee, values, hinvocation, -, -, hvalue⟩ := hread
    obtain ⟨-, rfl⟩ := Prod.mk.inj (Option.some.inj hinvocation)
    exact absurd hvalue (by decide)

end SonarJavascript.Rules.ExtraArguments
