import Mathlib.Data.Fintype.Card

/-!
# Fully qualified names

`getFullyQualifiedName` of `module.ts`: from an expression down to an identifier, from there to its import or
to the expression of its only write, and on, with the properties met on the way in one list. It returns for
every expression (`getFullyQualifiedNameRaw_isSome`): a variable that is met again ends the search.
-/

namespace SonarJavascript.Helpers.Module

abbrev Text := List Char

/-! ### Programs -/

/-- Leaves have their position, so that two nodes of a program are different. The value of a literal is there
when it is a string; `other` has the type. -/
inductive Node
  | Identifier (name : Text) (position : ℕ)
  | Literal (value : Option Text) (position : ℕ)
  | MemberExpression (object property : Node) (computed isOptional : Bool)
  | CallExpression (callee : Node) (arguments : List Node) (isOptional : Bool)
  | NewExpression (callee : Node) (arguments : List Node)
  | ChainExpression (expression : Node)
  | TSNonNullExpression (expression : Node)
  | TSQualifiedName (left : Node) (right : Text)
  | other (type : String) (position : ℕ)

def Node.type : Node → String
  | .Identifier .. => "Identifier"
  | .Literal .. => "Literal"
  | .MemberExpression .. => "MemberExpression"
  | .CallExpression .. => "CallExpression"
  | .NewExpression .. => "NewExpression"
  | .ChainExpression _ => "ChainExpression"
  | .TSNonNullExpression _ => "TSNonNullExpression"
  | .TSQualifiedName .. => "TSQualifiedName"
  | .other type _ => type

mutual

/-- Array patterns, defaults and member expressions are `other`, with the patterns in them. -/
inductive Pattern
  | Identifier (name : Text) (position : ℕ)
  | ObjectPattern (properties : List PatternMember)
  | other (type : String) (parts : List Pattern)

inductive PatternMember
  | Property (key : Node) (computed : Bool) (value : Pattern)
  | RestElement (argument : Pattern)

end

/-- `imported` of an import specifier. -/
inductive ModuleExportName
  | Identifier (name : Text)
  | Literal (value : Text)
  deriving DecidableEq

inductive Specifier
  | ImportSpecifier (imported : ModuleExportName)
  | ImportDefaultSpecifier
  | ImportNamespaceSpecifier
  deriving DecidableEq

inductive ModuleReference
  | TSExternalModuleReference (expression : Node)
  | entityName (name : Node)

/-- The first two are of type ImportBinding: of an ImportDeclaration with its source, of a
TSImportEqualsDeclaration with its `moduleReference`. A variable has the position of its identifier,
`definition.name`, in the pattern `definition.node.id`. -/
inductive Definition
  | ImportBinding (specifier : Specifier) (source : Text)
  | TSImportEquals (moduleReference : ModuleReference)
  | Variable (name : ℕ) (id : Pattern)
  | other (type : String)

/-- `target` is the left side of the initialiser or of the assignment `=` that writes the value of
`writeExpr`. There is none where a loop head, a compound assignment, an update or a default writes. -/
structure Reference where
  identifier : ℕ
  isWrite : Bool
  writeExpr : Option Node
  target : Option Pattern

/-- The variables of a scope with their names. The scope at the top has no upper scope. -/
inductive Scope (Var : Type)
  | global (vars : List (Text × Var))
  | inner (vars : List (Text × Var)) (upper : Scope Var)

/-- What a node on the way is reduced to. -/
def Node.next : Node → Option Node
  | .MemberExpression object _ _ _ => some object
  | .CallExpression callee _ _ => some callee
  | .NewExpression callee _ => some callee
  | .ChainExpression expression => some expression
  | .TSNonNullExpression expression => some expression
  | .TSQualifiedName left _ => some left
  | .Identifier .. | .Literal .. | .other .. => none

mutual

/-- The identifiers of a pattern. -/
def Pattern.identifiers : Pattern → List ℕ
  | .Identifier _ position => [position]
  | .ObjectPattern properties => identifiersOfProperties properties
  | .other _ parts => identifiersOfParts parts

def PatternMember.identifiers : PatternMember → List ℕ
  | .Property _ _ value => value.identifiers
  | .RestElement argument => argument.identifiers

def identifiersOfProperties : List PatternMember → List ℕ
  | [] => []
  | property :: rest => property.identifiers ++ identifiersOfProperties rest

def identifiersOfParts : List Pattern → List ℕ
  | [] => []
  | part :: rest => part.identifiers ++ identifiersOfParts rest

end

/-- The scope manager's view. None of the nodes on the way opens a scope, and the identifiers of a pattern
stand at different positions. -/
structure Program (Var : Type) where
  getScope : Node → Scope Var
  definitions : Var → List Definition
  references : Var → List Reference
  scope : Var → Scope Var
  writeable : Var → Option Bool
  getScope_next : ∀ node next, node.next = some next → getScope node = getScope next
  nodup_identifiers : ∀ x name id, Definition.Variable name id ∈ definitions x → id.identifiers.Nodup

variable {Var : Type}

/-! ### The helpers -/

def getVariableFromScope : Scope Var → Text → Option Var
  | .global vars, name => (vars.find? (·.1 = name)).map (·.2)
  | .inner vars upper, name =>
    match vars.find? (·.1 = name) with
    | some found => some found.2
    | none => getVariableFromScope upper name

def getUniqueWriteReference (program : Program Var) (x : Var) : Option Node :=
  match (program.references x).filter (·.isWrite) with
  | [reference] => reference.writeExpr
  | _ => none

def isRequire : Node → Bool
  | .CallExpression (.Identifier name _) arguments _ => name = "require".toList ∧ arguments.length = 1
  | _ => false

/-- The value of the literal that is required. -/
def getModuleNameFromRequire (node : Node) : Option (Option Text) :=
  if isRequire node then
    match node with
    | .CallExpression _ (.Literal value _ :: _) _ => some value
    | _ => none
  else none

/-- What the property of a member expression adds in front of the list. -/
def unshiftProperty : Node → List Text → List Text
  | .Literal (some value) _, fqn => value :: fqn
  | .Identifier name _, fqn => name :: fqn
  | _, fqn => fqn

/-- The loop: the node where it ends and the list. -/
def reduceTo (type : String) : Node → List Text → Node × List Text
  | node@(.MemberExpression object property _ _), fqn =>
    if node.type = type then (node, fqn) else reduceTo type object (unshiftProperty property fqn)
  | node@(.CallExpression callee _ _), fqn =>
    if node.type = type then (node, fqn)
    else if (getModuleNameFromRequire node).isNone then reduceTo type callee fqn else (node, fqn)
  | node@(.NewExpression callee _), fqn => if node.type = type then (node, fqn) else reduceTo type callee fqn
  | node@(.ChainExpression expression), fqn =>
    if node.type = type then (node, fqn) else reduceTo type expression fqn
  | node@(.TSNonNullExpression expression), fqn =>
    if node.type = type then (node, fqn) else reduceTo type expression fqn
  | node@(.TSQualifiedName left right), fqn =>
    if node.type = type then (node, fqn) else reduceTo type left (right :: fqn)
  | node, fqn => (node, fqn)

def reduceToIdentifier (node : Node) (fqn : List Text) : Node × List Text :=
  reduceTo "Identifier" node fqn

/-- The list, and how it was come to: from a built-in or repeated variable, or from an import or a require. -/
inductive Answer
  | builtin (fqn : List Text)
  | module (specifier : Text) (fqn : List Text)
  deriving DecidableEq

def Answer.fqn : Answer → List Text
  | .builtin fqn => fqn
  | .module _ fqn => fqn

def join (fqn : List Text) : Text :=
  ['.'].intercalate fqn

/-- `(key as Identifier).name`. Other keys have no name, which `join` takes for an empty one. -/
def nameOfKey : Node → Text
  | .Identifier name _ => name
  | _ => []

/-- The loop over the properties of `definition.node.id`. -/
def unshiftKeys (name : ℕ) : List PatternMember → List Text → List Text
  | [], fqn => fqn
  | .Property key _ (.Identifier _ position) :: rest, fqn =>
    unshiftKeys name rest (if position = name then nameOfKey key :: fqn else fqn)
  | _ :: rest, fqn => unshiftKeys name rest fqn

def unshiftPattern (name : ℕ) : Pattern → List Text → List Text
  | .ObjectPattern properties, fqn => unshiftKeys name properties fqn
  | _, fqn => fqn

/-- Chains such as `require('lib')()`. -/
def checkRequireChaining (node : Node) : Option Answer :=
  match node with
  | .CallExpression callee _ _ =>
    let (maybeRequire, qualifiers) := reduceTo "CallExpression" callee []
    match getModuleNameFromRequire maybeRequire with
    | some (some module) => some (.module module (module :: qualifiers))
    | _ => none
  | _ => none

def unshiftImported : Specifier → List Text → List Text
  | .ImportSpecifier (.Identifier name), fqn => if name ≠ "default".toList then name :: fqn else fqn
  | _, fqn => fqn

section Recursion

variable (recur : Node → List Text → Option (Scope Var) → List Var → Option (Option Answer))

/-- `recur` is `getFullyQualifiedNameRaw`, without a result when the fuel does not suffice. -/
def checkFqnFromImport (program : Program Var) (x : Var) (definition : Definition) (fqn : List Text)
    (visitedVars : List Var) : Option (Option Answer) :=
  match definition with
  | .ImportBinding specifier source =>
    some (some (.module source (source.splitOn '/' ++ unshiftImported specifier fqn)))
  | .TSImportEquals (.TSExternalModuleReference (.Literal (some module) _)) =>
    some (some (.module module (module.splitOn '/' ++ fqn)))
  | .TSImportEquals (.entityName (.TSQualifiedName left right)) =>
    recur (.TSQualifiedName left right) fqn (some (program.scope x)) (visitedVars ++ [x])
  | _ => some none

def checkFqnFromRequire (program : Program Var) (x : Var) (definition : Definition) (fqn : List Text)
    (visitedVars : List Var) : Option (Option Answer) :=
  match definition, getUniqueWriteReference program x with
  | .Variable name id, some value =>
    let (nodeToCheck, fqn) := reduceTo "CallExpression" value (unshiftPattern name id fqn)
    match getModuleNameFromRequire nodeToCheck with
    | some (some module) => some (some (.module module (module.splitOn '/' ++ fqn)))
    | _ => recur nodeToCheck fqn (some (program.scope x)) (visitedVars ++ [x])
  | _, _ => some none

end Recursion

/-- ImportBinding or Variable. -/
def Definition.followed : Definition → Bool
  | .other _ => false
  | _ => true

/-- The fuel bounds the depth of the recursion. -/
def getFullyQualifiedNameRaw [DecidableEq Var] (program : Program Var) :
    ℕ → Node → List Text → Option (Scope Var) → List Var → Option (Option Answer)
  | 0, _, _, _, _ => none
  | fuel + 1, node, fqn, scope, visitedVars =>
    match reduceToIdentifier node fqn with
    | (.Identifier name _, fqn) =>
      match getVariableFromScope (scope.getD (program.getScope node)) name with
      | none => some none
      | some x =>
        if (program.definitions x).length > 1 then some none
        else if program.writeable x = some false ∨ x ∈ visitedVars then some (some (.builtin (name :: fqn)))
        else
          match (program.definitions x).find? (·.followed) with
          | none => some none
          | some definition =>
            match checkFqnFromImport (getFullyQualifiedNameRaw program fuel) program x definition fqn visitedVars with
            | some none =>
              checkFqnFromRequire (getFullyQualifiedNameRaw program fuel) program x definition fqn visitedVars
            | result => result
    | _ => some (checkRequireChaining node)

def removeNodePrefixIfExists (fqn : Text) : Text :=
  if "node:".toList.isPrefixOf fqn then fqn.drop "node:".length else fqn

def getFullyQualifiedName [DecidableEq Var] (program : Program Var) (fuel : ℕ) (node : Node) :
    Option (Option Text) :=
  (getFullyQualifiedNameRaw program fuel node [] none []).map
    (·.map fun answer => removeNodePrefixIfExists (join answer.fqn))

/-! ### The search ends -/

section Termination

variable {recur : Node → List Text → Option (Scope Var) → List Var → Option (Option Answer)}
  {program : Program Var} {x : Var} {visitedVars : List Var}

theorem checkFqnFromImport_isSome (hrecur : ∀ node fqn scope, (recur node fqn scope (visitedVars ++ [x])).isSome)
    (definition : Definition) (fqn : List Text) :
    (checkFqnFromImport recur program x definition fqn visitedVars).isSome := by
  unfold checkFqnFromImport
  split
  · rfl
  · rfl
  · exact hrecur _ _ _
  · rfl

theorem checkFqnFromRequire_isSome (hrecur : ∀ node fqn scope, (recur node fqn scope (visitedVars ++ [x])).isSome)
    (definition : Definition) (fqn : List Text) :
    (checkFqnFromRequire recur program x definition fqn visitedVars).isSome := by
  unfold checkFqnFromRequire
  split
  · simp only
    split
    · rfl
    · exact hrecur _ _ _
  · rfl

/-- Each call for the value of a variable adds it to `visitedVars`, where it has not been. -/
theorem getFullyQualifiedNameRaw_isSome [Fintype Var] [DecidableEq Var] {fuel : ℕ} (hnodup : visitedVars.Nodup)
    (hfuel : Fintype.card Var < fuel + visitedVars.length) (node : Node) (fqn : List Text)
    (scope : Option (Scope Var)) : (getFullyQualifiedNameRaw program fuel node fqn scope visitedVars).isSome := by
  induction fuel generalizing node fqn scope visitedVars with
  | zero =>
    have hcard := hnodup.length_le_card
    omega
  | succ fuel ih =>
    unfold getFullyQualifiedNameRaw
    split
    · split
      · rfl
      · next x _ =>
        split
        · rfl
        · split
          · rfl
          · next hvisited =>
            have hrecur : ∀ node fqn scope,
                (getFullyQualifiedNameRaw program fuel node fqn scope (visitedVars ++ [x])).isSome := by
              refine ih ?_ (by simp only [List.length_append, List.length_singleton]; omega)
              exact List.nodup_append.mpr ⟨hnodup, List.nodup_singleton x,
                fun y hy z hz => by rintro rfl; exact hvisited (.inr (List.mem_singleton.mp hz ▸ hy))⟩
            split
            · rfl
            · split
              · exact checkFqnFromRequire_isSome hrecur _ _
              · exact checkFqnFromImport_isSome hrecur _ _
    · rfl

end Termination

end SonarJavascript.Helpers.Module
