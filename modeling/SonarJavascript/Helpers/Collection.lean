import Mathlib.Data.List.Basic

/-!
# References of a collection variable

Both rules on collections judge a reference by the nodes above its identifier. A path has these nodes, the
parent first, each with the place of the identifier below it.
-/

namespace SonarJavascript.Helpers.Collection

/-- An initialiser or right side: an array with the number of its elements, or a call or construction of an
identifier with the number of arguments, and whether the identifier is the built-in one. -/
inductive Init
  | ArrayExpression (elements : ℕ)
  | construct (callee : String) (isBuiltin : Bool) (arguments : ℕ)
  | other (type : String)
  deriving DecidableEq

/-- The object of a member expression has the name of the property when this is an identifier. A callee is that of a
call, a construction or a tagged template. A pattern part is an element, value or left side in a pattern, a
transparent node a non-null, cast or chain expression. -/
inductive Frame
  | memberObject (property : Option String) (computed : Bool)
  | memberProperty (property : String)
  | callee (type : String)
  | callArgument
  | assignmentLeft (operator : String) (right : Init)
  | assignmentRight (operator : String)
  | updateArgument
  | binaryOperand (operator : String)
  | forLeft
  | forRight
  | forBody
  | declaratorId (init : Option Init)
  | declaratorInit (init : Init)
  | patternPart (type : String)
  | transparent (type : String)
  | ExpressionStatement
  | other (type : String)
  deriving DecidableEq

inductive Flag
  | read
  | write
  | readWrite
  deriving DecidableEq

/-- A target of a compound assignment or of an update is read and written. -/
def Flag.Fits (flag : Flag) : List Frame → Prop
  | .assignmentLeft operator _ :: _ => operator = "=" ↔ flag = .write
  | .updateArgument :: _ => flag = .readWrite
  | _ => flag ≠ .readWrite

instance (flag : Flag) (path : List Frame) : Decidable (flag.Fits path) := by
  unfold Flag.Fits
  split <;> infer_instance

structure Reference where
  flag : Flag
  path : List Frame
  fits : flag.Fits path

/-- With the types of the first two nodes above its node. -/
structure Definition where
  type : String
  parent : Option String
  grandparent : Option String

structure Variable where
  defs : List Definition
  references : List Reference

inductive Scope
  | mk (type : String) (vars : List Variable) (childScopes : List Scope)

def collectionConstructor : List String := ["Array", "Map", "Set", "WeakSet", "WeakMap"]

def isDeclOrExprStmt : Frame → Bool
  | .declaratorId _ | .declaratorInit _ | .ExpressionStatement => true
  | _ => false

/-- In each of the rules, with its own test of an initialiser. An assignment is the expression of its statement,
with the reference as its left side, when nothing stands between them. -/
def isReferenceAssigning (isType : Init → Bool) (path : List Frame) : Bool :=
  match path.find? isDeclOrExprStmt with
  | some (.declaratorId (some init)) => isType init
  | some (.declaratorInit init) => isType init
  | some .ExpressionStatement =>
    match path with
    | .assignmentLeft _ right :: .ExpressionStatement :: _ => isType right
    | _ => false
  | _ => false

/-! ### What a reference writes -/

/-- The identifier alone stands left of the value; in a pattern it gets any part of the value. -/
def initOf : List Frame → Option Init
  | .declaratorId init :: _ => init
  | .assignmentLeft operator right :: _ => if operator = "=" then some right else none
  | _ => none

/-- A declaration or assignment statement of the variable itself. -/
def isDirect : List Frame → Bool
  | .declaratorId _ :: _ => true
  | .assignmentLeft _ _ :: .ExpressionStatement :: _ => true
  | _ => false

def isShadowed : Init → Bool
  | .construct _ isBuiltin _ => !isBuiltin
  | _ => false

theorem exists_init_of_direct {isType : Init → Bool} {ref : Reference} (hflag : ref.flag = .write)
    (hassigning : isReferenceAssigning isType ref.path = true) (hdirect : isDirect ref.path = true) :
    ∃ init, initOf ref.path = some init ∧ isType init = true := by
  have hfits := ref.fits
  unfold isDirect at hdirect
  split at hdirect
  · next init rest hpath =>
    rw [hpath] at hassigning ⊢
    match init with
    | some init => exact ⟨init, rfl, hassigning⟩
    | none => cases hassigning
  · next operator right rest hpath =>
    rw [hpath] at hassigning hfits ⊢
    obtain rfl : operator = "=" := hfits.mpr hflag
    exact ⟨right, rfl, hassigning⟩
  · cases hdirect

end SonarJavascript.Helpers.Collection
