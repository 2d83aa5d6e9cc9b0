import Mathlib.Logic.Relation
import SonarJavascript.Lib.Histories
import SonarJavascript.Helpers.Module

/-!
# The values on the way of a qualified name

An execution is a history of evaluations and assignments. Where all accesses of a chain are plain, its value
comes from the value of the node at its end, by the properties that `reduceTo` collects (`reduceTo_accessed`).
-/

namespace SonarJavascript.Helpers.Module

/-! ### Executions -/

/-- Symbols and private names are no text. -/
inductive PropertyKey
  | name (text : Text)
  | other
  deriving DecidableEq

/-- What the reads and calls of an execution give. The values that stand for a module are its namespace object,
what `require` returns for it, and its default export (`aws-cdk-lib` in the comments of `module.ts`). -/
structure World (Value : Type) where
  undefined : Value
  nullish : Value → Prop
  string : Text → Value
  toKey : Value → PropertyKey
  exports : Text → Value → Prop
  reads : Value → PropertyKey → Value → Prop
  calls : Value → Value → Prop
  toKey_string : ∀ text, toKey (string text) = .name text

/-- A variable has a binding for each time that its scope is entered. An assignment that no reference makes is
the one of a parameter or a function, or comes from outside of the file or from `eval`. -/
inductive Event (Var Value : Type)
  | evaluated (node : Node) (value : Value)
  | assigned (x : Var) (binding : ℕ) (value : Value) (writer : Option Reference)

variable {Var Value : Type}

/-- The variable that the identifier stands for. -/
def Program.variableAt (program : Program Var) (name : Text) (position : ℕ) : Option Var :=
  getVariableFromScope (program.getScope (.Identifier name position)) name

/-- A call of Node's own `require`, which the program does not define. -/
def Program.requires (program : Program Var) : Node → Option Text
  | .CallExpression (.Identifier name position) arguments isOptional =>
    match getModuleNameFromRequire (.CallExpression (.Identifier name position) arguments isOptional),
      program.variableAt name position with
    | some (some specifier), none => some specifier
    | some (some specifier), some x => if (program.definitions x).isEmpty then some specifier else none
    | _, _ => none
  | _ => none

/-- The objects and callees before a `?.` in a chain. -/
def Node.optionalObjects : Node → List Node
  | .MemberExpression object _ _ isOptional => (if isOptional then [object] else []) ++ object.optionalObjects
  | .CallExpression callee _ isOptional => (if isOptional then [callee] else []) ++ callee.optionalObjects
  | .TSNonNullExpression expression => expression.optionalObjects
  | _ => []

def ModuleExportName.text : ModuleExportName → Text
  | .Identifier name => name
  | .Literal value => value

/-- What the last assignment to a binding has left, and what made it. -/
def lastAssigned [DecidableEq Var] (past : List (Event Var Value)) (x : Var) (binding : ℕ) :
    Option (Value × Option Reference) :=
  past.findSome? fun
    | .assigned y i value writer => if y = x ∧ i = binding then some (value, writer) else none
    | .evaluated .. => none

/-- The key of a member expression. -/
def Names (world : World Value) (past : List (Event Var Value)) (property : Node) (computed : Bool)
    (key : PropertyKey) : Prop :=
  if computed then ∃ k, .evaluated property k ∈ past ∧ key = world.toKey k
  else
    match property with
    | .Identifier name _ => key = .name name
    | _ => key = .other

/-- The key of a property of a pattern. -/
def NamesKey (key : Node) (computed : Bool) (read : PropertyKey) : Prop :=
  match key, computed with
  | .Identifier name _, false => read = .name name
  | .Literal (some text) _, _ => read = .name text
  | _, _ => True

/-- Destructuring a value gives the identifier of the pattern a value. -/
inductive Binds (world : World Value) : Pattern → Value → ℕ → Value → Prop
  | identifier (name : Text) (position : ℕ) (v : Value) : Binds world (.Identifier name position) v position v
  | property {properties : List PatternMember} {key : Node} {computed : Bool} {value : Pattern} {position : ℕ}
      {read : PropertyKey} {v u w : Value} (hmem : .Property key computed value ∈ properties)
      (hkey : NamesKey key computed read) (hread : world.reads v read u) (hbinds : Binds world value u position w) :
      Binds world (.ObjectPattern properties) v position w
  | rest {properties : List PatternMember} {argument : Pattern} {position : ℕ} {v u w : Value}
      (hmem : .RestElement argument ∈ properties) (hbinds : Binds world argument u position w) :
      Binds world (.ObjectPattern properties) v position w
  | other {type : String} {parts : List Pattern} {part : Pattern} {position : ℕ} {v u w : Value}
      (hmem : part ∈ parts) (hbinds : Binds world part u position w) : Binds world (.other type parts) v position w

section Semantics

variable [DecidableEq Var] (program : Program Var) (world : World Value) (past : List (Event Var Value))

/-- An imported binding has the value of the module or of its export, another one the value of the last
assignment. -/
def ReadsVariable (x : Var) (v : Value) : Prop :=
  match program.definitions x with
  | [.ImportBinding (.ImportSpecifier imported) source] =>
    if imported.text = "default".toList then world.exports source v
    else ∃ exported, world.exports source exported ∧ world.reads exported (.name imported.text) v
  | [.ImportBinding _ source] => world.exports source v
  | [.TSImportEquals (.TSExternalModuleReference (.Literal (some specifier) _))] => world.exports specifier v
  | [.TSImportEquals (.entityName name)] => .evaluated name v ∈ past
  | _ => ∃ binding, ((lastAssigned past x binding).map (·.1)).getD world.undefined = v

/-- What a node can evaluate to after the parts of it. -/
def Evaluates : Node → Value → Prop
  | .Identifier name position, v =>
    ∀ x, program.variableAt name position = some x → ReadsVariable program world past x v
  | .Literal (some text) _, v => v = world.string text
  | .MemberExpression object property computed _, v =>
    ∃ o key, .evaluated object o ∈ past ∧ Names world past property computed key ∧ world.reads o key v
  | .CallExpression callee arguments isOptional, v =>
    match program.requires (.CallExpression callee arguments isOptional) with
    | some specifier => world.exports specifier v
    | none => ∃ f, .evaluated callee f ∈ past ∧ world.calls f v
  | .NewExpression callee _, v => ∃ f, .evaluated callee f ∈ past ∧ world.calls f v
  | .ChainExpression expression, v => .evaluated expression v ∈ past ∨
    v = world.undefined ∧ ∃ object ∈ expression.optionalObjects, ∃ o, .evaluated object o ∈ past ∧ world.nullish o
  | .TSNonNullExpression expression, v => .evaluated expression v ∈ past
  | .TSQualifiedName left right, v => ∃ o, .evaluated left o ∈ past ∧ world.reads o (.name right) v
  | .Literal none _, _ => True
  | .other .., _ => True

def Justified : Event Var Value → Prop
  | .evaluated node v => Evaluates program world past node v
  | .assigned x _ v (some reference) => reference ∈ program.references x ∧ reference.isWrite = true ∧
    ∀ value target, reference.writeExpr = some value → reference.target = some target →
      ∃ u, .evaluated value u ∈ past ∧ Binds world target u reference.identifier v
  | .assigned _ _ _ none => True

/-- All executions are among these: which of the earlier values of its parts an expression takes is left open. -/
def Execution (run : List (Event Var Value)) : Prop :=
  History (Justified program world) run

end Semantics

/-! ### Names and values -/

/-- The second value comes from the first by reading the properties in this order, and by calls and
constructions. -/
inductive Accessed (world : World Value) : Value → List Text → Value → Prop
  | refl (v : Value) : Accessed world v [] v
  | read {w u v : Value} {path : List Text} {key : Text} (h : Accessed world w path u)
      (hread : world.reads u (.name key) v) : Accessed world w (path ++ [key]) v
  | call {w u v : Value} {path : List Text} (h : Accessed world w path u) (hcall : world.calls u v) :
      Accessed world w path v

def Obtained (world : World Value) (specifier : Text) (path : List Text) (v : Value) : Prop :=
  ∃ exported, world.exports specifier exported ∧ Accessed world exported path v

/-- `m.p1...pk`. -/
def qualifiedName (specifier : Text) (path : List Text) : Text :=
  join (removeNodePrefixIfExists (specifier.map fun c => if c = '/' then '.' else c) :: path)

/-! ### The way of the search -/

/-- The arguments of a call of `getFullyQualifiedNameRaw`. -/
structure Call (Var : Type) where
  node : Node
  fqn : List Text
  scope : Option (Scope Var)

section Way

variable (program : Program Var)

/-- The variable that is looked up. -/
def Call.variable (call : Call Var) : Option Var :=
  match (reduceToIdentifier call.node call.fqn).1 with
  | .Identifier name _ => getVariableFromScope (call.scope.getD (program.getScope call.node)) name
  | _ => none

/-- From a variable to what it is an alias of, or to the value of its only write. -/
inductive Follows : Call Var → Call Var → Prop
  | renamed {call : Call Var} {x : Var} {left : Node} {right : Text} (hvariable : call.variable program = some x)
      (hdefinition : program.definitions x = [.TSImportEquals (.entityName (.TSQualifiedName left right))]) :
      Follows call ⟨.TSQualifiedName left right, (reduceToIdentifier call.node call.fqn).2, some (program.scope x)⟩
  | written {call : Call Var} {x : Var} {name : ℕ} {id : Pattern} {value : Node}
      (hvariable : call.variable program = some x) (hdefinition : program.definitions x = [.Variable name id])
      (hvalue : getUniqueWriteReference program x = some value) :
      Follows call ⟨(reduceTo "CallExpression" value []).1,
        (reduceTo "CallExpression" value (unshiftPattern name id (reduceToIdentifier call.node call.fqn).2)).2,
        some (program.scope x)⟩

/-- An access by a name, or by a string in brackets. -/
def PlainMember (property : Node) (computed : Bool) : Prop :=
  match property, computed with
  | .Identifier .., false => True
  | .Literal (some _) _, true => True
  | _, _ => False

/-- All accesses on the way down are plain. -/
def PlainChain : Node → Prop
  | .MemberExpression object property computed _ => PlainMember property computed ∧ PlainChain object
  | .CallExpression callee arguments isOptional =>
    getModuleNameFromRequire (.CallExpression callee arguments isOptional) = none → PlainChain callee
  | .NewExpression callee _ => PlainChain callee
  | .ChainExpression expression => PlainChain expression
  | .TSNonNullExpression expression => PlainChain expression
  | .TSQualifiedName left _ => PlainChain left
  | .Identifier .. | .Literal .. | .other .. => True

/-- The only write gives the variable the whole value, or the property of it that the pattern of its
declaration names. -/
def PlainWrite (x : Var) (name : ℕ) (id : Pattern) : Prop :=
  ∃ reference, (program.references x).filter (·.isWrite) = [reference] ∧
    match id with
    | .ObjectPattern properties => reference.target = some (.ObjectPattern properties) ∧ reference.identifier = name ∧
      ∃ key position text, .Property (.Identifier key position) false (.Identifier text name) ∈ properties
    | _ => ∃ text, reference.target = some (.Identifier text reference.identifier)

/-- Down from a node. -/
def Below : Node → Node → Prop :=
  Relation.ReflTransGen fun node next => node.next = some next

/-- A node that the search goes through in one call. -/
def Call.Visits (call : Call Var) (node : Node) : Prop :=
  Below call.node node ∨
    ∃ x value, call.variable program = some x ∧ getUniqueWriteReference program x = some value ∧ Below value node

/-- What one call of the search goes through is plain. -/
structure Plain (call : Call Var) : Prop where
  links : PlainChain call.node
  lookup : ∀ scope name position, call.scope = some scope →
    (reduceToIdentifier call.node call.fqn).1 = .Identifier name position →
    getVariableFromScope scope name = program.variableAt name position
  chaining : ∀ callee arguments isOptional specifier, call.node = .CallExpression callee arguments isOptional →
    getModuleNameFromRequire (reduceTo "CallExpression" callee []).1 = some (some specifier) →
    call.fqn = [] ∧ '/' ∉ specifier ∧ program.requires (reduceTo "CallExpression" callee []).1 = some specifier
  imported : ∀ x text source, call.variable program = some x →
    program.definitions x = [.ImportBinding (.ImportSpecifier (.Literal text)) source] → text = "default".toList
  written : ∀ x name id value, call.variable program = some x → program.definitions x = [.Variable name id] →
    getUniqueWriteReference program x = some value → PlainWrite program x name id ∧ PlainChain value ∧
      ∀ specifier, getModuleNameFromRequire (reduceTo "CallExpression" value []).1 = some (some specifier) →
        program.requires (reduceTo "CallExpression" value []).1 = some specifier

/-- A variable is read after its only write, which nothing but this write has overwritten, and a chain is not cut
short at a `?.`. -/
def Regular [DecidableEq Var] (past : List (Event Var Value)) : Event Var Value → Prop
  | .evaluated (.Identifier name position) v =>
    ∀ x identifier id, program.variableAt name position = some x → program.definitions x = [.Variable identifier id] →
      ∃ binding reference, lastAssigned past x binding = some (v, some reference)
  | .evaluated (.ChainExpression expression) v => .evaluated expression v ∈ past
  | _ => True

/-- The steps of the run that evaluate the nodes on the way are regular. -/
def RegularRun [DecidableEq Var] (start : Call Var) (run : List (Event Var Value)) : Prop :=
  ∀ call node, Relation.ReflTransGen (Follows program) start call → call.Visits program node →
    ∀ past v, .evaluated node v :: past <:+ run → Regular program past (.evaluated node v)

/-- A list found for a call is the module, the properties read since in every execution, and the list of the
call. -/
def Faithful [DecidableEq Var] (call : Call Var) (specifier : Text) (fqn : List Text) : Prop :=
  ∃ path, fqn = specifier.splitOn '/' ++ path ++ call.fqn ∧
    ∀ (Value : Type) (world : World Value) (run : List (Event Var Value)), Execution program world run →
      RegularRun program call run → ∀ v, .evaluated call.node v ∈ run → Obtained world specifier path v

end Way

/-! ### Going down a chain -/

theorem unshiftProperty_eq (property : Node) (fqn : List Text) :
    unshiftProperty property fqn = unshiftProperty property [] ++ fqn := by
  unfold unshiftProperty
  split <;> rfl

theorem unshiftKeys_eq (name : ℕ) (properties : List PatternMember) (fqn : List Text) :
    unshiftKeys name properties fqn = unshiftKeys name properties [] ++ fqn := by
  induction properties generalizing fqn with
  | nil => rfl
  | cons property rest ih =>
    rcases property with ⟨key, computed, value⟩ | argument
    · cases value with
      | Identifier text position =>
        rw [unshiftKeys, unshiftKeys, ih, ih (if position = name then _ else _)]
        split <;> simp
      | ObjectPattern | other => exact ih fqn
    · exact ih fqn

/-- The property of the node itself. -/
def Node.keys : Node → List Text
  | .MemberExpression _ property _ _ => unshiftProperty property []
  | .TSQualifiedName _ right => [right]
  | _ => []

theorem Node.sizeOf_next {node next : Node} (h : node.next = some next) : sizeOf next < sizeOf node := by
  cases node <;> simp only [Node.next, Option.some.injEq, reduceCtorEq] at h <;> subst h <;> simp <;> omega

theorem Node.chain_induction {P : Node → Prop} (h : ∀ node, (∀ next, node.next = some next → P next) → P node)
    (node : Node) : P node := by
  induction hsize : sizeOf node using Nat.strong_induction_on generalizing node with
  | _ size ih =>
    subst hsize
    exact h node fun next hnext => ih _ (Node.sizeOf_next hnext) next rfl

/-- The loop ends at a node. -/
def Stops (type : String) (node : Node) : Prop :=
  node.type = type ∨ node.next = none ∨ getModuleNameFromRequire node ≠ none

theorem reduceTo_stop {type : String} {node : Node} (h : Stops type node) (fqn : List Text) :
    reduceTo type node fqn = (node, fqn) := by
  have hno : ∀ node : Node, node.next ≠ none → (∀ c a o, node ≠ .CallExpression c a o) → Stops type node →
      node.type = type := by
    intro node hnext hcall h
    rcases h with h | h | h
    · exact h
    · exact absurd h hnext
    · cases node <;> simp_all [getModuleNameFromRequire, isRequire]
  cases node with
  | CallExpression callee arguments isOptional => 
    rw [reduceTo]
    split
    · rfl
    · next hne =>
      rw [if_neg]
      simpa [Stops, hne, Node.next] using h
  | Identifier | Literal | other => rfl
  | _ => rw [reduceTo, if_pos (hno _ (by simp [Node.next]) (by simp) h)]

theorem reduceTo_next {type : String} {node next : Node} (h : ¬ Stops type node) (hnext : node.next = some next)
    (fqn : List Text) : reduceTo type node fqn = reduceTo type next (node.keys ++ fqn) := by
  obtain ⟨htype, -, hrequire⟩ : node.type ≠ type ∧ node.next ≠ none ∧ getModuleNameFromRequire node = none := by
    simpa [Stops] using h
  cases node with
  | Identifier | Literal | other => simp [Node.next] at hnext
  | MemberExpression object property computed isOptional =>
    obtain rfl := Option.some.inj hnext
    rw [reduceTo, if_neg htype, unshiftProperty_eq]
    rfl
  | CallExpression callee arguments isOptional =>
    obtain rfl := Option.some.inj hnext
    rw [reduceTo, if_neg htype, if_pos (by simp [hrequire])]
    rfl
  | _ =>
    obtain rfl := Option.some.inj hnext
    rw [reduceTo, if_neg htype]
    rfl

theorem reduceTo_eq (type : String) (node : Node) (fqn : List Text) :
    reduceTo type node fqn = ((reduceTo type node []).1, (reduceTo type node []).2 ++ fqn) := by
  induction node using Node.chain_induction generalizing fqn with
  | h node ih =>
    by_cases hstops : Stops type node
    · rw [reduceTo_stop hstops, reduceTo_stop hstops]
      rfl
    · obtain ⟨next, hnext⟩ : ∃ next, node.next = some next := by
        refine Option.ne_none_iff_exists'.mp fun hnone => hstops (.inr (.inl hnone))
      rw [reduceTo_next hstops hnext, reduceTo_next hstops hnext, ih next hnext, ih next hnext (node.keys ++ [])]
      simp

/-! ### Patterns -/

variable {world : World Value}

theorem mem_identifiersOfProperties {properties : List PatternMember} {property : PatternMember} {name : ℕ}
    (hmem : property ∈ properties) (hname : name ∈ property.identifiers) :
    name ∈ identifiersOfProperties properties := by
  induction properties with
  | nil => simp at hmem
  | cons first rest ih =>
    rw [identifiersOfProperties, List.mem_append]
    rcases List.mem_cons.mp hmem with rfl | hmem
    · exact .inl hname
    · exact .inr (ih hmem)

theorem mem_identifiersOfParts {parts : List Pattern} {part : Pattern} {name : ℕ} (hmem : part ∈ parts)
    (hname : name ∈ part.identifiers) : name ∈ identifiersOfParts parts := by
  induction parts with
  | nil => simp at hmem
  | cons first rest ih =>
    rw [identifiersOfParts, List.mem_append]
    rcases List.mem_cons.mp hmem with rfl | hmem
    · exact .inl hname
    · exact .inr (ih hmem)

theorem Binds.mem_identifiers {pattern : Pattern} {v w : Value} {name : ℕ} (h : Binds world pattern v name w) :
    name ∈ pattern.identifiers := by
  induction h with
  | identifier => simp [Pattern.identifiers]
  | property hmem _ _ _ ih => exact mem_identifiersOfProperties hmem (by simpa [PatternMember.identifiers] using ih)
  | rest hmem _ ih => exact mem_identifiersOfProperties hmem (by simpa [PatternMember.identifiers] using ih)
  | other hmem _ ih => exact mem_identifiersOfParts hmem ih

theorem eq_of_mem_identifiers {properties : List PatternMember} {first second : PatternMember} {name : ℕ}
    (hnodup : (identifiersOfProperties properties).Nodup) (hfirst : first ∈ properties)
    (hsecond : second ∈ properties) (hname : name ∈ first.identifiers) (hname' : name ∈ second.identifiers) :
    first = second := by
  induction properties with
  | nil => simp at hfirst
  | cons head rest ih =>
    rw [identifiersOfProperties] at hnodup
    obtain ⟨-, hrest, hdisjoint⟩ := List.nodup_append.mp hnodup
    rcases List.mem_cons.mp hfirst with rfl | hlater <;> rcases List.mem_cons.mp hsecond with rfl | hlater'
    · rfl
    · exact absurd rfl (hdisjoint name hname name (mem_identifiersOfProperties hlater' hname'))
    · exact absurd rfl (hdisjoint name hname' name (mem_identifiersOfProperties hlater hname))
    · exact ih hrest hlater hlater'

theorem unshiftKeys_of_notMem {properties : List PatternMember} {name : ℕ} (fqn : List Text)
    (h : name ∉ identifiersOfProperties properties) : unshiftKeys name properties fqn = fqn := by
  induction properties with
  | nil => rfl
  | cons property rest ih =>
    rw [identifiersOfProperties, List.mem_append, not_or] at h
    rcases property with ⟨key, computed, value⟩ | argument
    · cases value with
      | Identifier text position =>
        have hne : position ≠ name := by
          rintro rfl
          simp [PatternMember.identifiers, Pattern.identifiers] at h
        rw [unshiftKeys, if_neg hne, ih h.2]
      | ObjectPattern | other => exact ih h.2
    · exact ih h.2

theorem unshiftKeys_of_mem {properties : List PatternMember} {name position : ℕ} {key text : Text} {computed : Bool}
    (hnodup : (identifiersOfProperties properties).Nodup)
    (hmem : .Property (.Identifier key position) computed (.Identifier text name) ∈ properties) :
    unshiftKeys name properties [] = [key] := by
  induction properties with
  | nil => simp at hmem
  | cons property rest ih =>
    rw [identifiersOfProperties] at hnodup
    obtain ⟨-, hrest, hdisjoint⟩ := List.nodup_append.mp hnodup
    have hself : name ∈ PatternMember.identifiers
        (.Property (.Identifier key position) computed (.Identifier text name)) := by
      simp [PatternMember.identifiers, Pattern.identifiers]
    rcases List.mem_cons.mp hmem with rfl | hlater
    · rw [unshiftKeys, if_pos rfl, unshiftKeys_of_notMem]
      · rfl
      · exact fun hagain => hdisjoint name hself name hagain rfl
    · have hname := mem_identifiersOfProperties hlater hself
      rcases property with ⟨key', computed', value⟩ | argument
      · cases value with
        | Identifier text' position' =>
          have hne : position' ≠ name := by
            rintro rfl
            exact hdisjoint _ (by simp [PatternMember.identifiers, Pattern.identifiers]) _ hname rfl
          rw [unshiftKeys, if_neg hne]
          exact ih hrest hlater
        | ObjectPattern | other => exact ih hrest hlater
      · exact ih hrest hlater

/-- Of an object, the property of that key. -/
theorem Binds.read {properties : List PatternMember} {name position : ℕ} {key text : Text} {v w : Value}
    (h : Binds world (.ObjectPattern properties) v name w) (hnodup : (identifiersOfProperties properties).Nodup)
    (hmem : .Property (.Identifier key position) false (.Identifier text name) ∈ properties) :
    world.reads v (.name key) w := by
  have hself : name ∈ PatternMember.identifiers
      (.Property (.Identifier key position) false (.Identifier text name)) := by
    simp [PatternMember.identifiers, Pattern.identifiers]
  cases h with
  | property hother hkey hread hbinds =>
    have hname := hbinds.mem_identifiers
    have heq := eq_of_mem_identifiers hnodup hother hmem (by simpa [PatternMember.identifiers] using hname) hself
    obtain ⟨rfl, rfl, rfl⟩ := PatternMember.Property.inj heq
    obtain rfl : _ = PropertyKey.name key := hkey
    cases hbinds
    exact hread
  | rest hother hbinds =>
    have hname := hbinds.mem_identifiers
    have heq := eq_of_mem_identifiers hnodup hother hmem (by simpa [PatternMember.identifiers] using hname) hself
    cases heq

/-! ### What a run says about a chain -/

section Chains

variable {program : Program Var} {run past : List (Event Var Value)}

theorem Accessed.trans {w u v : Value} {path keys : List Text} (h : Accessed world w path u)
    (hrest : Accessed world u keys v) : Accessed world w (path ++ keys) v := by
  induction hrest with
  | refl => simpa using h
  | read _ hread ih => exact List.append_assoc path _ _ ▸ ih.read hread
  | call _ hcall ih => exact ih.call hcall

theorem Accessed.single {u v : Value} {key : Text} (h : world.reads u (.name key) v) : Accessed world u [key] v :=
  (Accessed.refl u).read h

theorem PlainChain.next {node next : Node} (h : PlainChain node) (hnext : node.next = some next)
    (hrequire : getModuleNameFromRequire node = none) : PlainChain next := by
  cases node with
  | MemberExpression => exact Option.some.inj hnext ▸ h.2
  | CallExpression => exact Option.some.inj hnext ▸ h hrequire
  | Identifier | Literal | other => simp [Node.next] at hnext
  | _ => exact Option.some.inj hnext ▸ h

theorem requires_eq_none {node : Node} (h : getModuleNameFromRequire node = none) :
    program.requires node = none := by
  unfold Program.requires
  split
  · rw [h]
  · rfl

variable [DecidableEq Var]

theorem exists_evaluated_next {node next : Node} {v : Value} (hrun : Execution program world run)
    (hplain : PlainChain node) (hnext : node.next = some next) (hrequire : getModuleNameFromRequire node = none)
    (hregular : ∀ past v, .evaluated node v :: past <:+ run → Regular program past (.evaluated node v))
    (hmem : .evaluated node v ∈ run) :
    ∃ u, .evaluated next u ∈ run ∧ Accessed world u node.keys v := by
  obtain ⟨past, hsuffix, hjustified⟩ := hrun.justified hmem
  have hpast : ∀ {n u}, .evaluated n u ∈ past → .evaluated n u ∈ run := History.mem_of_past hsuffix
  cases node with
  | Identifier | Literal | other => simp [Node.next] at hnext
  | MemberExpression object property computed isOptional =>
    obtain rfl := Option.some.inj hnext
    obtain ⟨o, key, hobject, hnames, hread⟩ := hjustified
    refine ⟨o, hpast hobject, ?_⟩
    have hmember := hplain.1
    unfold PlainMember at hmember
    split at hmember
    · obtain rfl : key = _ := hnames
      exact .single hread
    · next text position =>
      obtain ⟨k, hk, rfl⟩ := hnames
      obtain ⟨_, _, hliteral⟩ := hrun.justified (hpast hk)
      obtain rfl : k = world.string text := hliteral
      rw [world.toKey_string] at hread
      exact .single hread
    · exact hmember.elim
  | CallExpression callee arguments isOptional =>
    obtain rfl := Option.some.inj hnext
    have hcall : Evaluates program world past (.CallExpression callee arguments isOptional) v := hjustified
    rw [Evaluates, requires_eq_none hrequire] at hcall
    obtain ⟨f, hcallee, hcall⟩ := hcall
    exact ⟨f, hpast hcallee, (Accessed.refl f).call hcall⟩
  | NewExpression callee arguments =>
    obtain rfl := Option.some.inj hnext
    obtain ⟨f, hcallee, hcall⟩ := hjustified
    exact ⟨f, hpast hcallee, (Accessed.refl f).call hcall⟩
  | ChainExpression expression =>
    obtain rfl := Option.some.inj hnext
    exact ⟨v, hpast (hregular past v hsuffix), .refl v⟩
  | TSNonNullExpression expression =>
    obtain rfl := Option.some.inj hnext
    exact ⟨v, hpast hjustified, .refl v⟩
  | TSQualifiedName left right =>
    obtain rfl := Option.some.inj hnext
    obtain ⟨o, hleft, hread⟩ := hjustified
    exact ⟨o, hpast hleft, .single hread⟩

theorem below_reduceTo (type : String) (node : Node) : Below node (reduceTo type node []).1 := by
  induction node using Node.chain_induction with
  | h node ih =>
    by_cases hstops : Stops type node
    · rw [reduceTo_stop hstops]
      exact .refl
    · obtain ⟨next, hnext⟩ : ∃ next, node.next = some next :=
        Option.ne_none_iff_exists'.mp fun hnone => hstops (.inr (.inl hnone))
      rw [reduceTo_next hstops hnext, reduceTo_eq]
      exact .head hnext (ih next hnext)

/-- The value of a chain comes from the value of the node where the loop ends, by the properties in the list. -/
theorem reduceTo_accessed (type : String) {node : Node} {v : Value} (hrun : Execution program world run)
    (hplain : PlainChain node)
    (hregular : ∀ n, Below node n → ∀ past v, .evaluated n v :: past <:+ run → Regular program past (.evaluated n v))
    (hmem : .evaluated node v ∈ run) :
    PlainChain (reduceTo type node []).1 ∧
      ∃ u, .evaluated (reduceTo type node []).1 u ∈ run ∧ Accessed world u (reduceTo type node []).2 v := by
  induction node using Node.chain_induction generalizing v with
  | h node ih =>
    by_cases hstops : Stops type node
    · rw [reduceTo_stop hstops]
      exact ⟨hplain, v, hmem, .refl v⟩
    · obtain ⟨next, hnext⟩ : ∃ next, node.next = some next :=
        Option.ne_none_iff_exists'.mp fun hnone => hstops (.inr (.inl hnone))
      have hrequire : getModuleNameFromRequire node = none := by
        by_contra hne
        exact hstops (.inr (.inr hne))
      obtain ⟨w, hw, hlast⟩ := exists_evaluated_next hrun hplain hnext hrequire (hregular node .refl) hmem
      obtain ⟨hbase, u, hu, hfirst⟩ := ih next hnext (hplain.next hnext hrequire)
        (fun n hn => hregular n (.head hnext hn)) hw
      rw [reduceTo_next hstops hnext, reduceTo_eq, List.append_nil]
      exact ⟨hbase, u, hu, hfirst.trans hlast⟩

end Chains

end SonarJavascript.Helpers.Module
