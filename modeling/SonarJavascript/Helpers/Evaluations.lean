import Mathlib.Logic.Function.Basic
import Mathlib.Data.List.Infix
import Mathlib.Logic.Relation

/-!
# Evaluations of expressions

Evaluations are big steps with a trace of the accesses and writes. A pure expression writes nothing and has the
value of the state (`eval_pure`), which stays as long as nothing is written that it reads (`value_eq`).
-/

namespace SonarJavascript.Helpers.Evaluations

/-! ### Expressions -/

/-- Identifiers and `this` have their position. A literal has its text and whether its value is null; `other`
has the type and the children: assignments, calls, functions, statements. -/
inductive Node
  | Identifier (name : String) (position : ℕ)
  | ThisExpression (position : ℕ)
  | Literal (raw : String) (isNull : Bool)
  | MemberExpression (object property : Node) (computed isOptional : Bool)
  | BinaryExpression (operator : String) (left right : Node)
  | LogicalExpression (operator : String) (left right : Node)
  | ConditionalExpression (test consequent alternate : Node)
  | other (type : String) (children : List Node)

def Node.type : Node → String
  | .Identifier .. => "Identifier"
  | .ThisExpression _ => "ThisExpression"
  | .Literal .. => "Literal"
  | .MemberExpression .. => "MemberExpression"
  | .BinaryExpression .. => "BinaryExpression"
  | .LogicalExpression .. => "LogicalExpression"
  | .ConditionalExpression .. => "ConditionalExpression"
  | .other type _ => type

/-- Nothing is evaluated but names, literals, property reads, and choices between these. -/
def Pure : Node → Prop
  | .Identifier .. | .ThisExpression _ | .Literal .. => True
  | .MemberExpression object property computed isOptional => isOptional = false ∧ Pure object ∧
    if computed then Pure property else ∃ name position, property = .Identifier name position
  | .LogicalExpression _ left right => Pure left ∧ Pure right
  | .ConditionalExpression test consequent alternate => Pure test ∧ Pure consequent ∧ Pure alternate
  | .BinaryExpression .. | .other .. => False

/-- Pure expressions that differ by positions only. -/
inductive SameShape : Node → Node → Prop
  | identifier (name : String) (p q : ℕ) : SameShape (.Identifier name p) (.Identifier name q)
  | this (p q : ℕ) : SameShape (.ThisExpression p) (.ThisExpression q)
  | literal (raw : String) (isNull : Bool) : SameShape (.Literal raw isNull) (.Literal raw isNull)
  | named {object object' : Node} (name : String) (p q : ℕ) (hobject : SameShape object object') :
      SameShape (.MemberExpression object (.Identifier name p) false false)
        (.MemberExpression object' (.Identifier name q) false false)
  | computed {object object' property property' : Node} (hobject : SameShape object object')
      (hproperty : SameShape property property') : SameShape (.MemberExpression object property true false)
        (.MemberExpression object' property' true false)
  | logical {left left' right right' : Node} (operator : String) (hleft : SameShape left left')
      (hright : SameShape right right') :
      SameShape (.LogicalExpression operator left right) (.LogicalExpression operator left' right')
  | conditional {test test' consequent consequent' alternate alternate' : Node} (htest : SameShape test test')
      (hconsequent : SameShape consequent consequent') (halternate : SameShape alternate alternate') :
      SameShape (.ConditionalExpression test consequent alternate)
        (.ConditionalExpression test' consequent' alternate')

/-- The texts of the tokens of a node, which the rules compare. The tokens of a pure expression can be read in one
way only. -/
structure Source where
  tokens : Node → List String
  determined : ∀ a b, Pure a → a.type = b.type → tokens a = tokens b → SameShape a b

def areEquivalent (source : Source) (first second : Node) : Bool :=
  first.type = second.type ∧ source.tokens first = source.tokens second

/-! ### Evaluations -/

/-- `other` are the numbers, symbols, objects and functions. -/
inductive Value
  | undefined
  | null
  | boolean (b : Bool)
  | string (s : String)
  | other (n : ℕ)
  deriving DecidableEq

def Value.nullish : Value → Bool
  | .undefined | .null => true
  | _ => false

/-- A binding of a variable or of `this`, or what a value has under a key. -/
inductive Location
  | binding (n : ℕ)
  | property (object key : Value)
  deriving DecidableEq

abbrev Store := Location → Value

/-- The bindings that identifiers and `this` stand for; an identifier without one is not declared. Each
activation of a function has a frame. -/
abbrev Frame := ℕ → Option ℕ

inductive Event
  | wrote (location : Location) (value : Value)
  | accessed (access : Node) (frame : Frame) (object : Value)

/-- What the rest of the language decides: which values are true, the key that a value stands for, the value of
a literal. -/
structure World where
  isTrue : ℕ → Bool
  key : Value → Value
  literal : String → Value
  literal_null : literal "null" = .null

def World.truthy (world : World) : Value → Bool
  | .undefined | .null => false
  | .boolean b => b
  | .string s => s ≠ ""
  | .other n => world.isTrue n

/-- Whether the right operand is evaluated. -/
def World.continues (world : World) (operator : String) (v : Value) : Bool :=
  match operator with
  | "&&" => world.truthy v
  | "||" => !world.truthy v
  | _ => v.nullish

/-- What is known of a comparison with null or undefined: they equal nothing else, and nothing is called. -/
def Compares (operator : String) (a b v : Value) (τ : List Event) : Prop :=
  a.nullish ∨ b.nullish →
    match operator with
    | "==" => v = .boolean (a.nullish && b.nullish) ∧ τ = []
    | "!=" => v = .boolean (!(a.nullish && b.nullish)) ∧ τ = []
    | "===" => v = .boolean (a = b) ∧ τ = []
    | "!==" => v = .boolean (a ≠ b) ∧ τ = []
    | _ => True

def Event.apply (σ : Store) : Event → Store
  | .wrote location v => Function.update σ location v
  | .accessed .. => σ

def after (σ : Store) (τ : List Event) : Store :=
  τ.foldl Event.apply σ

/-- No value when the identifier is not declared. -/
def readIdentifier (f : Frame) (σ : Store) (name : String) (position : ℕ) : Option Value :=
  match f position with
  | some n => some (σ (.binding n))
  | none => if name = "undefined" then some .undefined else none

/-- Reading a property of null or undefined throws. -/
def readProperty (σ : Store) (object key : Value) : Option Value :=
  if object.nullish then none else some (σ (.property object key))

/-- The name of a property that is not computed. -/
def nameKey : Node → Value
  | .Identifier name _ => .string name
  | _ => .undefined

/-- A `?.` stands in the expression, or may. -/
def hasOptional : Node → Bool
  | .MemberExpression object _ _ isOptional => isOptional || hasOptional object
  | .other .. => true
  | _ => false

/-- An expression, or what is left of one that is taken apart. -/
inductive Code
  | node (n : Node)
  | parts (children : List Node)

/-- The trace of an evaluation and its value; none when it throws. Property reads have no effects. An expression
of another kind evaluates its parts and calls functions of the program, in any order and any number of times,
and writes anything in between. -/
inductive Eval (world : World) (functions : List Node) : Frame → Store → Code → List Event → Option Value → Prop
  | identifier (f : Frame) (σ : Store) (name : String) (p : ℕ) :
      Eval world functions f σ (.node (.Identifier name p)) [] (readIdentifier f σ name p)
  | this (f : Frame) (σ : Store) (p : ℕ) :
      Eval world functions f σ (.node (.ThisExpression p)) [] ((f p).map fun n => σ (.binding n))
  | literal (f : Frame) (σ : Store) (raw : String) (isNull : Bool) :
      Eval world functions f σ (.node (.Literal raw isNull)) [] (some (world.literal raw))
  | objectThrows {f : Frame} {σ : Store} {object property : Node} {computed isOptional : Bool} {τ : List Event}
      (hobject : Eval world functions f σ (.node object) τ none) :
      Eval world functions f σ (.node (.MemberExpression object property computed isOptional)) τ none
  | skipped {f : Frame} {σ : Store} {object property : Node} {computed isOptional : Bool} {τ : List Event}
      {w : Value} (hobject : Eval world functions f σ (.node object) τ (some w)) (hnullish : w.nullish = true)
      (hoptional : (isOptional || hasOptional object) = true) :
      Eval world functions f σ (.node (.MemberExpression object property computed isOptional)) τ (some .undefined)
  | named {f : Frame} {σ : Store} {object property : Node} {isOptional : Bool} {τ : List Event} {w : Value}
      (hobject : Eval world functions f σ (.node object) τ (some w)) :
      Eval world functions f σ (.node (.MemberExpression object property false isOptional))
        (τ ++ [.accessed (.MemberExpression object property false isOptional) f w])
        (readProperty (after σ τ) w (nameKey property))
  | computed {f : Frame} {σ : Store} {object property : Node} {isOptional : Bool} {τ τ' : List Event}
      {w : Value} {k : Option Value} (hobject : Eval world functions f σ (.node object) τ (some w))
      (hproperty : Eval world functions f (after σ τ) (.node property) τ' k) :
      Eval world functions f σ (.node (.MemberExpression object property true isOptional))
        (τ ++ .accessed (.MemberExpression object property true isOptional) f w :: τ')
        (k.bind fun k => readProperty (after (after σ τ) τ') w (world.key k))
  | leftThrows {f : Frame} {σ : Store} {operator : String} {left right : Node} {τ : List Event}
      (hleft : Eval world functions f σ (.node left) τ none) :
      Eval world functions f σ (.node (.BinaryExpression operator left right)) τ none
  | rightThrows {f : Frame} {σ : Store} {operator : String} {left right : Node} {τ τ' : List Event} {a : Value}
      (hleft : Eval world functions f σ (.node left) τ (some a))
      (hright : Eval world functions f (after σ τ) (.node right) τ' none) :
      Eval world functions f σ (.node (.BinaryExpression operator left right)) (τ ++ τ') none
  | binary {f : Frame} {σ : Store} {operator : String} {left right : Node} {τ τ' τ'' : List Event} {a b v : Value}
      (hleft : Eval world functions f σ (.node left) τ (some a))
      (hright : Eval world functions f (after σ τ) (.node right) τ' (some b))
      (hcoerce : Eval world functions f (after (after σ τ) τ') (.parts []) τ'' none)
      (hvalue : Compares operator a b v τ'') :
      Eval world functions f σ (.node (.BinaryExpression operator left right)) (τ ++ (τ' ++ τ'')) (some v)
  | logicalThrows {f : Frame} {σ : Store} {operator : String} {left right : Node} {τ : List Event}
      (hleft : Eval world functions f σ (.node left) τ none) :
      Eval world functions f σ (.node (.LogicalExpression operator left right)) τ none
  | logicalLeft {f : Frame} {σ : Store} {operator : String} {left right : Node} {τ : List Event} {a : Value}
      (hleft : Eval world functions f σ (.node left) τ (some a)) (hstop : world.continues operator a = false) :
      Eval world functions f σ (.node (.LogicalExpression operator left right)) τ (some a)
  | logicalRight {f : Frame} {σ : Store} {operator : String} {left right : Node} {τ τ' : List Event} {a : Value}
      {r : Option Value} (hleft : Eval world functions f σ (.node left) τ (some a))
      (hcontinue : world.continues operator a = true)
      (hright : Eval world functions f (after σ τ) (.node right) τ' r) :
      Eval world functions f σ (.node (.LogicalExpression operator left right)) (τ ++ τ') r
  | testThrows {f : Frame} {σ : Store} {test consequent alternate : Node} {τ : List Event}
      (htest : Eval world functions f σ (.node test) τ none) :
      Eval world functions f σ (.node (.ConditionalExpression test consequent alternate)) τ none
  | conditional {f : Frame} {σ : Store} {test consequent alternate : Node} {τ τ' : List Event} {a : Value}
      {r : Option Value} (htest : Eval world functions f σ (.node test) τ (some a))
      (hbranch : Eval world functions f (after σ τ) (.node (if world.truthy a then consequent else alternate)) τ' r) :
      Eval world functions f σ (.node (.ConditionalExpression test consequent alternate)) (τ ++ τ') r
  | other {f : Frame} {σ : Store} {type : String} {children : List Node} {τ : List Event} (r : Option Value)
      (hparts : Eval world functions f σ (.parts children) τ none) :
      Eval world functions f σ (.node (.other type children)) τ r
  | done (f : Frame) (σ : Store) (children : List Node) : Eval world functions f σ (.parts children) [] none
  | write {f : Frame} {σ : Store} {children : List Node} {τ : List Event} (location : Location) (v : Value)
      (hrest : Eval world functions f (Function.update σ location v) (.parts children) τ none) :
      Eval world functions f σ (.parts children) (.wrote location v :: τ) none
  | part {f : Frame} {σ : Store} {children : List Node} {child : Node} {τ τ' : List Event} {r : Option Value}
      (hmem : child ∈ children) (hchild : Eval world functions f σ (.node child) τ r)
      (hrest : Eval world functions f (after σ τ) (.parts children) τ' none) :
      Eval world functions f σ (.parts children) (τ ++ τ') none
  | call {f g : Frame} {σ : Store} {children : List Node} {body : Node} {τ τ' : List Event} {r : Option Value}
      (hmem : body ∈ functions) (hbody : Eval world functions g σ (.node body) τ r)
      (hrest : Eval world functions f (after σ τ) (.parts children) τ' none) :
      Eval world functions f σ (.parts children) (τ ++ τ') none

/-! ### The value of a pure expression -/

section Values

variable (world : World) (f : Frame) (σ : Store)

/-- No value when it throws. -/
def value : Node → Option Value
  | .Identifier name p => readIdentifier f σ name p
  | .ThisExpression p => (f p).map fun n => σ (.binding n)
  | .Literal raw _ => some (world.literal raw)
  | .MemberExpression object property computed _ =>
    (value object).bind fun w =>
      if computed then (value property).bind fun k => readProperty σ w (world.key k)
      else readProperty σ w (nameKey property)
  | .LogicalExpression operator left right =>
    (value left).bind fun a => if world.continues operator a then value right else some a
  | .ConditionalExpression test consequent alternate =>
    (value test).bind fun a => if world.truthy a then value consequent else value alternate
  | .BinaryExpression .. | .other .. => none

/-- The locations that the evaluation of a pure expression reads. -/
def reads : Node → List Location
  | .Identifier _ p => (f p).toList.map .binding
  | .ThisExpression p => (f p).toList.map .binding
  | .MemberExpression object property computed _ =>
    reads object ++
      match value world f σ object with
      | none => []
      | some w =>
        if computed then
          reads property ++ ((value world f σ property).toList.map fun k => .property w (world.key k))
        else [.property w (nameKey property)]
  | .LogicalExpression operator left right =>
    reads left ++ if (value world f σ left).any (world.continues operator) then reads right else []
  | .ConditionalExpression test consequent alternate =>
    reads test ++
      match value world f σ test with
      | none => []
      | some a => if world.truthy a then reads consequent else reads alternate
  | .Literal .. | .BinaryExpression .. | .other .. => []

end Values

/-- The positions of the identifiers and of `this` in a pure expression. -/
def identifiers : Node → List ℕ
  | .Identifier _ p => [p]
  | .ThisExpression p => [p]
  | .MemberExpression object property computed _ =>
    identifiers object ++ if computed then identifiers property else []
  | .LogicalExpression _ left right => identifiers left ++ identifiers right
  | .ConditionalExpression test consequent alternate =>
    identifiers test ++ (identifiers consequent ++ identifiers alternate)
  | .Literal .. | .BinaryExpression .. | .other .. => []

def Node.object : Node → Node
  | .MemberExpression object _ _ _ => object
  | node => node

def Node.size : Node → ℕ
  | .MemberExpression object property _ _ => object.size + property.size + 1
  | .LogicalExpression _ left right => left.size + right.size + 1
  | .ConditionalExpression test consequent alternate => test.size + consequent.size + alternate.size + 1
  | _ => 1

/-! ### Pure expressions -/

variable {world : World} {functions : List Node} {f g : Frame} {σ σ' : Store} {τ τ' : List Event}

theorem after_append (σ : Store) (τ τ' : List Event) : after σ (τ ++ τ') = after (after σ τ) τ' :=
  List.foldl_append

theorem after_eq_of_not_written {l : Location} (h : ∀ v, .wrote l v ∉ τ) : after σ τ l = σ l := by
  induction τ generalizing σ with
  | nil => rfl
  | cons event τ ih =>
    have hrest := @ih (event.apply σ) fun v hmem => h v (List.mem_cons_of_mem _ hmem)
    rw [after, List.foldl_cons]
    refine hrest.trans ?_
    cases event with
    | accessed => rfl
    | wrote location v =>
      refine Function.update_of_ne ?_ _ _
      rintro rfl
      exact h v List.mem_cons_self

/-- A trace of accesses only. -/
def Quiet (bound : ℕ) (τ : List Event) : Prop :=
  ∀ event ∈ τ, ∃ access g w, event = .accessed access g w ∧ access.size ≤ bound

theorem Quiet.after_eq {bound : ℕ} (h : Quiet bound τ) : after σ τ = σ := by
  funext l
  refine after_eq_of_not_written fun v hmem => ?_
  obtain ⟨access, g, w, heq, -⟩ := h _ hmem
  cases heq

theorem Quiet.mono {bound bound' : ℕ} (h : Quiet bound τ) (hle : bound ≤ bound') : Quiet bound' τ := by
  intro event hmem
  obtain ⟨access, g, w, heq, hsize⟩ := h event hmem
  exact ⟨access, g, w, heq, Nat.le_trans hsize hle⟩

theorem Quiet.append {bound : ℕ} (h : Quiet bound τ) (h' : Quiet bound τ') : Quiet bound (τ ++ τ') := by
  intro event hmem
  rcases List.mem_append.mp hmem with hmem | hmem
  · exact h event hmem
  · exact h' event hmem

theorem Quiet.nil {bound : ℕ} : Quiet bound [] :=
  nofun

theorem Pure.sameShape {n : Node} (h : Pure n) : SameShape n n := by
  induction n using Pure.induct with
  | case1 name p => exact .identifier name p p
  | case2 p => exact .this p p
  | case3 raw isNull => exact .literal raw isNull
  | case4 object property computed isOptional ihobject ihproperty =>
    obtain ⟨rfl, hobject, hproperty⟩ := h
    cases computed with
    | false =>
      obtain ⟨name, p, rfl⟩ := hproperty
      exact .named name p p (ihobject hobject)
    | true => exact .computed (ihobject hobject) (ihproperty hproperty)
  | case5 operator left right ihleft ihright => exact .logical operator (ihleft h.1) (ihright h.2)
  | case6 test consequent alternate ihtest ihconsequent ihalternate =>
    exact .conditional (ihtest h.1) (ihconsequent h.2.1) (ihalternate h.2.2)
  | case7 | case8 => exact h.elim

theorem SameShape.pure {a b : Node} (h : SameShape a b) : Pure a ∧ Pure b := by
  induction h with
  | identifier | this | literal => exact ⟨trivial, trivial⟩
  | named name p q _ ih => exact ⟨⟨rfl, ih.1, name, p, rfl⟩, rfl, ih.2, name, q, rfl⟩
  | computed _ _ ihobject ihproperty => exact ⟨⟨rfl, ihobject.1, ihproperty.1⟩, rfl, ihobject.2, ihproperty.2⟩
  | logical operator _ _ ihleft ihright => exact ⟨⟨ihleft.1, ihright.1⟩, ihleft.2, ihright.2⟩
  | conditional _ _ _ ihtest ihconsequent ihalternate =>
    exact ⟨⟨ihtest.1, ihconsequent.1, ihalternate.1⟩, ihtest.2, ihconsequent.2, ihalternate.2⟩

theorem SameShape.size_eq {a b : Node} (h : SameShape a b) : a.size = b.size := by
  induction h <;> simp_all [Node.size]

theorem SameShape.length_identifiers {a b : Node} (h : SameShape a b) :
    (identifiers a).length = (identifiers b).length := by
  induction h <;> simp_all [identifiers]

theorem SameShape.hasOptional_eq_false {a b : Node} (h : SameShape a b) : hasOptional a = false := by
  induction h <;> simp_all [hasOptional]

theorem eval_pure {n : Node} {r : Option Value} (h : Eval world functions f σ (.node n) τ r) (hpure : Pure n) :
    r = value world f σ n ∧ Quiet n.size τ := by
  generalize hcode : Code.node n = code at h
  induction h generalizing n with
  | identifier f σ name p =>
    obtain rfl := Code.node.inj hcode
    exact ⟨rfl, Quiet.nil⟩
  | this f σ p =>
    obtain rfl := Code.node.inj hcode
    exact ⟨rfl, Quiet.nil⟩
  | literal f σ raw isNull =>
    obtain rfl := Code.node.inj hcode
    exact ⟨rfl, Quiet.nil⟩
  | @objectThrows f σ object property computed isOptional τ hobject ih =>
    obtain rfl := Code.node.inj hcode
    obtain ⟨hvalue, hquiet⟩ := ih hpure.2.1 rfl
    refine ⟨by simp [value, ← hvalue], hquiet.mono (by simp [Node.size]; omega)⟩
  | skipped hobject hnullish hoptional ih =>
    obtain rfl := Code.node.inj hcode
    simp [hpure.1, hpure.2.1.sameShape.hasOptional_eq_false] at hoptional
  | @named f σ object property isOptional τ w hobject ih =>
    obtain rfl := Code.node.inj hcode
    obtain ⟨hvalue, hquiet⟩ := ih hpure.2.1 rfl
    rw [hquiet.after_eq]
    refine ⟨by simp [value, ← hvalue], (hquiet.mono (by simp [Node.size]; omega)).append ?_⟩
    exact fun event hmem => ⟨_, f, w, List.mem_singleton.mp hmem, Nat.le_refl _⟩
  | @computed f σ object property isOptional τ τ' w k hobject hproperty ihobject ihproperty =>
    obtain rfl := Code.node.inj hcode
    obtain ⟨hvalue, hquiet⟩ := ihobject hpure.2.1 rfl
    obtain ⟨rfl, hquiet'⟩ := ihproperty hpure.2.2 rfl
    rw [hquiet.after_eq, hquiet'.after_eq]
    refine ⟨by simp [value, ← hvalue], (hquiet.mono (by simp [Node.size]; omega)).append ?_⟩
    intro event hmem
    rcases List.mem_cons.mp hmem with rfl | hmem
    · exact ⟨_, f, w, rfl, Nat.le_refl _⟩
    · exact hquiet'.mono (by simp [Node.size]; omega) event hmem
  | leftThrows | rightThrows | binary =>
    obtain rfl := Code.node.inj hcode
    exact hpure.elim
  | logicalThrows hleft ih =>
    obtain rfl := Code.node.inj hcode
    obtain ⟨hvalue, hquiet⟩ := ih hpure.1 rfl
    exact ⟨by simp [value, ← hvalue], hquiet.mono (by simp [Node.size]; omega)⟩
  | logicalLeft hleft hstop ih =>
    obtain rfl := Code.node.inj hcode
    obtain ⟨hvalue, hquiet⟩ := ih hpure.1 rfl
    exact ⟨by simp [value, ← hvalue, hstop], hquiet.mono (by simp [Node.size]; omega)⟩
  | logicalRight hleft hcontinue hright ihleft ihright =>
    obtain rfl := Code.node.inj hcode
    obtain ⟨hvalue, hquiet⟩ := ihleft hpure.1 rfl
    obtain ⟨hvalue', hquiet'⟩ := ihright hpure.2 rfl
    rw [hquiet.after_eq] at hvalue'
    refine ⟨by simp [value, ← hvalue, hcontinue, hvalue'], ?_⟩
    exact (hquiet.mono (by simp [Node.size]; omega)).append (hquiet'.mono (by simp [Node.size]; omega))
  | testThrows htest ih =>
    obtain rfl := Code.node.inj hcode
    obtain ⟨hvalue, hquiet⟩ := ih hpure.1 rfl
    exact ⟨by simp [value, ← hvalue], hquiet.mono (by simp [Node.size]; omega)⟩
  | @conditional f σ test consequent alternate τ τ' a r htest hbranch ihtest ihbranch =>
    obtain rfl := Code.node.inj hcode
    obtain ⟨hvalue, hquiet⟩ := ihtest hpure.1 rfl
    have hbranchPure : Pure (if world.truthy a then consequent else alternate) := by
      split
      · exact hpure.2.1
      · exact hpure.2.2
    have hsize : (if world.truthy a then consequent else alternate).size ≤
        (Node.ConditionalExpression test consequent alternate).size := by
      split <;> simp [Node.size] <;> omega
    obtain ⟨hvalue', hquiet'⟩ := ihbranch hbranchPure rfl
    rw [hquiet.after_eq] at hvalue'
    refine ⟨?_, (hquiet.mono (by simp [Node.size]; omega)).append (hquiet'.mono hsize)⟩
    rw [hvalue', value, ← hvalue, Option.bind_some]
    split <;> rfl
  | other =>
    obtain rfl := Code.node.inj hcode
    exact hpure.elim
  | done | write | part | call => cases hcode

theorem value_eq {a b : Node} (h : SameShape a b) (hbindings : (identifiers b).map g = (identifiers a).map f)
    (hagree : ∀ l ∈ reads world f σ a, σ' l = σ l) : value world g σ' b = value world f σ a := by
  induction h with
  | identifier name p q =>
    obtain hpq : g q = f p := by simpa [identifiers] using hbindings
    rw [value, value, readIdentifier, readIdentifier, hpq]
    cases hp : f p with
    | none => rfl
    | some n => simp [hagree (.binding n) (by simp [reads, hp])]
  | this p q =>
    obtain hpq : g q = f p := by simpa [identifiers] using hbindings
    rw [value, value, hpq]
    cases hp : f p with
    | none => rfl
    | some n => simp [hagree (.binding n) (by simp [reads, hp])]
  | literal => rfl
  | @named object object' name p q hobject ih =>
    have hvalue := ih (by simpa [identifiers] using hbindings) fun l hl =>
      hagree l (by rw [reads]; exact List.mem_append_left _ hl)
    simp only [value, hvalue]
    cases hw : value world f σ object with
    | none => rfl
    | some w =>
      simp [readProperty, nameKey, hagree (.property w (.string name)) (by simp [reads, hw, nameKey])]
  | @computed object object' property property' hobject hproperty ihobject ihproperty =>
    simp only [identifiers, if_true, List.map_append] at hbindings
    obtain ⟨hfirst, hsecond⟩ := List.append_inj hbindings (by simp [hobject.length_identifiers])
    have hvalue := ihobject hfirst fun l hl => hagree l (by rw [reads]; exact List.mem_append_left _ hl)
    simp only [value, hvalue, if_true]
    cases hw : value world f σ object with
    | none => rfl
    | some w =>
      have hkey := ihproperty hsecond fun l hl => hagree l (by simp [reads, hw, hl])
      simp only [Option.bind_some, hkey]
      cases hk : value world f σ property with
      | none => rfl
      | some k => simp [readProperty, hagree (.property w (world.key k)) (by simp [reads, hw, hk])]
  | @logical left left' right right' operator hleft hright ihleft ihright =>
    simp only [identifiers, List.map_append] at hbindings
    obtain ⟨hfirst, hsecond⟩ := List.append_inj hbindings (by simp [hleft.length_identifiers])
    have hvalue := ihleft hfirst fun l hl => hagree l (by rw [reads]; exact List.mem_append_left _ hl)
    simp only [value, hvalue]
    cases ha : value world f σ left with
    | none => rfl
    | some a =>
      simp only [Option.bind_some]
      split
      · next hcontinue => exact ihright hsecond fun l hl => hagree l (by simp [reads, ha, hcontinue, hl])
      · rfl
  | @conditional test test' consequent consequent' alternate alternate' htest hconsequent halternate ihtest
      ihconsequent ihalternate =>
    simp only [identifiers, List.map_append] at hbindings
    obtain ⟨hfirst, hbranches⟩ := List.append_inj hbindings (by simp [htest.length_identifiers])
    obtain ⟨hsecond, hthird⟩ := List.append_inj hbranches (by simp [hconsequent.length_identifiers])
    have hvalue := ihtest hfirst fun l hl => hagree l (by rw [reads]; exact List.mem_append_left _ hl)
    simp only [value, hvalue]
    cases ha : value world f σ test with
    | none => rfl
    | some a =>
      simp only [Option.bind_some]
      split
      · next htruthy => exact ihconsequent hsecond fun l hl => hagree l (by simp [reads, ha, htruthy, hl])
      · next htruthy => exact ihalternate hthird fun l hl => hagree l (by simp [reads, ha, htruthy, hl])

/-! ### Where an access is reached -/

/-- Just before each access of the trace its object has been evaluated. -/
def Located (world : World) (functions : List Node) (σ : Store) (τ : List Event) : Prop :=
  ∀ before access g w rest, τ = before ++ .accessed access g w :: rest →
    ∃ object property computed isOptional start inside,
      access = .MemberExpression object property computed isOptional ∧ before = start ++ inside ∧
      Eval world functions g (after σ start) (.node object) inside (some w)

theorem split_append {α : Type} {first second before rest : List α} {x : α}
    (h : first ++ second = before ++ x :: rest) :
    (∃ s, first = before ++ x :: s) ∨ ∃ s, before = first ++ s ∧ second = s ++ x :: rest := by
  rcases List.append_eq_append_iff.mp h with ⟨s, hbefore, hsecond⟩ | ⟨s, hfirst, hrest⟩
  · exact .inr ⟨s, hbefore, hsecond⟩
  · cases s with
    | nil => exact .inr ⟨[], by simpa using hfirst.symm, by simpa using hrest.symm⟩
    | cons y s =>
      obtain ⟨rfl, -⟩ := List.cons.inj hrest
      exact .inl ⟨s, hfirst⟩

theorem Located.nil : Located world functions σ [] := by
  intro before access g w rest h
  simp at h

theorem Located.append (h : Located world functions σ τ) (h' : Located world functions (after σ τ) τ') :
    Located world functions σ (τ ++ τ') := by
  intro before access g w rest hsplit
  rcases split_append hsplit with ⟨s, hfirst⟩ | ⟨s, rfl, hsecond⟩
  · exact h before access g w s hfirst
  · obtain ⟨object, property, computed, isOptional, start, inside, haccess, rfl, hobject⟩ :=
      h' s access g w rest hsecond
    refine ⟨object, property, computed, isOptional, τ ++ start, inside, haccess, (List.append_assoc ..).symm, ?_⟩
    rwa [after_append]

theorem Located.write {location : Location} {v : Value}
    (h : Located world functions (Function.update σ location v) τ) :
    Located world functions σ (.wrote location v :: τ) := by
  have hwrite : Located world functions σ [.wrote location v] := by
    intro before access g w rest hsplit
    rcases before with _ | ⟨event, before⟩ <;> simp at hsplit
  exact hwrite.append h

theorem Located.access {object property : Node} {computed isOptional : Bool} {w : Value}
    (hobject : Eval world functions f σ (.node object) τ (some w)) (h : Located world functions σ τ) :
    Located world functions σ (τ ++ [.accessed (.MemberExpression object property computed isOptional) f w]) := by
  intro before access g u rest hsplit
  rcases split_append hsplit with ⟨s, hfirst⟩ | ⟨s, rfl, hsecond⟩
  · exact h before access g u s hfirst
  · rcases s with _ | ⟨event, s⟩
    · simp only [List.nil_append, List.cons.injEq, Event.accessed.injEq] at hsecond
      obtain ⟨⟨rfl, rfl, rfl⟩, -⟩ := hsecond
      exact ⟨object, property, computed, isOptional, [], τ, rfl, by simp, hobject⟩
    · simp at hsecond

theorem located {code : Code} {r : Option Value} (h : Eval world functions f σ code τ r) :
    Located world functions σ τ := by
  induction h with
  | identifier | this | literal | done => exact Located.nil
  | objectThrows _ ih | skipped _ _ _ ih | leftThrows _ ih => exact ih
  | logicalThrows _ ih | logicalLeft _ _ ih | testThrows _ ih | other _ _ ih => exact ih
  | named hobject ih => exact Located.access hobject ih
  | computed hobject _ ihobject ihproperty =>
    rw [List.append_cons]
    refine (Located.access hobject ihobject).append ?_
    rw [after_append]
    exact ihproperty
  | rightThrows _ _ ih ih' | conditional _ _ ih ih' => exact ih.append ih'
  | logicalRight _ _ _ ih ih' | part _ _ _ ih ih' | call _ _ _ ih ih' => exact ih.append ih'
  | binary _ _ _ _ ih ih' ih'' => exact ih.append (ih'.append ih'')
  | write _ _ _ ih => exact ih.write

/-! ### Parts -/

/-- The first node is a part of the second. -/
inductive Child : Node → Node → Prop
  | object (object property : Node) (computed isOptional : Bool) :
      Child object (.MemberExpression object property computed isOptional)
  | property (object property : Node) (computed isOptional : Bool) :
      Child property (.MemberExpression object property computed isOptional)
  | left (operator : String) (left right : Node) : Child left (.BinaryExpression operator left right)
  | right (operator : String) (left right : Node) : Child right (.BinaryExpression operator left right)
  | logicalLeft (operator : String) (left right : Node) : Child left (.LogicalExpression operator left right)
  | logicalRight (operator : String) (left right : Node) : Child right (.LogicalExpression operator left right)
  | test (test consequent alternate : Node) : Child test (.ConditionalExpression test consequent alternate)
  | consequent (test consequent alternate : Node) : Child consequent (.ConditionalExpression test consequent alternate)
  | alternate (test consequent alternate : Node) : Child alternate (.ConditionalExpression test consequent alternate)
  | part {child : Node} {children : List Node} (type : String) (hmem : child ∈ children) :
      Child child (.other type children)

def Below : Node → Node → Prop := Relation.ReflTransGen Child

/-- A node of the code, or of a function. -/
def Within (functions : List Node) (code : Code) (n : Node) : Prop :=
  (match code with
    | .node root => Below n root
    | .parts children => ∃ child ∈ children, Below n child) ∨ ∃ body ∈ functions, Below n body

theorem Within.of_child {child parent n : Node} (hchild : Child child parent)
    (h : Within functions (.node child) n) : Within functions (.node parent) n :=
  h.imp_left fun hbelow => hbelow.tail hchild

theorem Within.of_mem {children : List Node} {child n : Node} (hmem : child ∈ children)
    (h : Within functions (.node child) n) : Within functions (.parts children) n :=
  h.imp_left fun hbelow => ⟨child, hmem, hbelow⟩

/-! ### Texts in prefix form -/

mutual

/-- Texts that start with the kind of the node. -/
def code : Node → List String
  | .Identifier name _ => ["identifier", name]
  | .ThisExpression _ => ["this"]
  | .Literal raw isNull => ["literal", raw, if isNull then "null" else ""]
  | .MemberExpression object property computed isOptional =>
    ["member", if computed then "[" else ".", if isOptional then "?" else ""] ++ (code object ++ code property)
  | .LogicalExpression operator left right => ["logical", operator] ++ (code left ++ code right)
  | .ConditionalExpression test consequent alternate =>
    ["conditional"] ++ (code test ++ (code consequent ++ code alternate))
  | .BinaryExpression operator left right => ["binary", operator] ++ (code left ++ code right)
  | .other type children => ["other", type] ++ codeAll children

def codeAll : List Node → List String
  | [] => []
  | n :: rest => code n ++ codeAll rest

end

/-- The tokens of an identifier are its name. -/
def prefixTokens : Node → List String
  | .Identifier name _ => [name]
  | node => code node

theorem sameShape_of_code {a b : Node} (ha : Pure a) {s t : List String} (h : code a ++ s = code b ++ t) :
    SameShape a b ∧ s = t := by
  induction a using Pure.induct generalizing b s t with
  | case1 name p =>
    cases b <;> simp [code] at h
    obtain ⟨rfl, rfl⟩ := h
    exact ⟨.identifier name p _, rfl⟩
  | case2 p =>
    cases b <;> simp [code] at h
    exact ⟨.this p _, h⟩
  | case3 raw isNull =>
    cases b <;> simp [code] at h
    next raw' isNull' =>
      obtain ⟨rfl, hnull, rfl⟩ := h
      obtain rfl : isNull = isNull' := by revert hnull; cases isNull <;> cases isNull' <;> simp
      exact ⟨.literal raw isNull, rfl⟩
  | case4 object property computed isOptional ihobject ihproperty =>
    obtain ⟨rfl, hobject, hproperty⟩ := ha
    cases b <;> simp [code] at h
    next object' property' computed' isOptional' =>
      obtain ⟨hcomputed, hoptional, hrest⟩ := h
      obtain rfl : computed = computed' := by revert hcomputed; cases computed <;> cases computed' <;> simp
      obtain rfl : isOptional' = false := by revert hoptional; cases isOptional' <;> simp
      obtain ⟨hsame, hrest⟩ := ihobject hobject hrest
      cases computed with
      | false =>
        obtain ⟨name, p, rfl⟩ := hproperty
        cases property' <;> simp [code] at hrest
        obtain ⟨rfl, rfl⟩ := hrest
        exact ⟨.named name p _ hsame, rfl⟩
      | true =>
        obtain ⟨hsame', rfl⟩ := ihproperty hproperty hrest
        exact ⟨.computed hsame hsame', rfl⟩
  | case5 operator left right ihleft ihright =>
    cases b <;> simp [code] at h
    obtain ⟨rfl, hrest⟩ := h
    obtain ⟨hleft, hrest⟩ := ihleft ha.1 hrest
    obtain ⟨hright, rfl⟩ := ihright ha.2 hrest
    exact ⟨.logical operator hleft hright, rfl⟩
  | case6 test consequent alternate ihtest ihconsequent ihalternate =>
    cases b <;> simp [code] at h
    obtain ⟨htest, hrest⟩ := ihtest ha.1 h
    obtain ⟨hconsequent, hrest⟩ := ihconsequent ha.2.1 hrest
    obtain ⟨halternate, rfl⟩ := ihalternate ha.2.2 hrest
    exact ⟨.conditional htest hconsequent halternate, rfl⟩
  | case7 | case8 => exact ha.elim

theorem prefixTokens_determined (a b : Node) (ha : Pure a) (htype : a.type = b.type) (h : prefixTokens a = prefixTokens b) :
    SameShape a b := by
  have hcode : code a = code b → SameShape a b := fun hcode =>
    (sameShape_of_code (s := []) (t := []) ha (by rw [hcode])).1
  cases a with
  | Identifier name p =>
    cases b <;> simp [prefixTokens, code, Node.type] at h htype
    exact h ▸ .identifier name p _
  | other => exact ha.elim
  | _ =>
    cases b with
    | Identifier => simp [Node.type] at htype
    | _ => exact hcode h

/-- Texts that can be read in one way. -/
def prefixSource : Source := ⟨prefixTokens, prefixTokens_determined⟩

end SonarJavascript.Helpers.Evaluations
