import SonarJavascript.Helpers.UniqueWrite
import SonarJavascript.Regex.TemplateText

/-!
# The pattern of a regular expression

`getPatternFromNode` puts the pattern of a regular expression together from literals, concatenations and the
variables they are in. A variable that is initialized with itself is followed for ever, the text of a template
is not freed of its escapes, and a regular expression in a concatenation gives its source instead of its text.
-/

namespace SonarJavascript.Regex.Extract

open Helpers (Scope Variable Reference getVariableFromScope getUniqueWriteReference)
open Unfolding

/-! ### Programs -/

/-- The nodes that are told apart. Of the quasi of a tagged template, only the raw texts are read. -/
inductive Syntax (Node : Type)
  | StringLiteral (value : JsString)
  | RegExpLiteral (pattern flags : JsString)
  | TemplateLiteral (quasis : List TemplateText) (expressions : List Node)
  | TaggedTemplateExpression (tag : Node) (quasis : List JsString) (expressions : List Node)
  | CallExpression (callee : Node) (arguments : List Node)
  | NewExpression (callee : Node) (arguments : List Node)
  | MemberExpression (object property : Node) (computed : Bool)
  | Identifier (name : String)
  | BinaryExpression (operator : String) (left right : Node)
  | VariableDeclarator (id : Node)
  | other (type : String)

/-- A program, with the callees and tags that are the functions of the standard library. -/
structure Program (Node : Type) where
  syntaxOf : Node → Syntax Node
  parent : Node → Option Node
  getScope : Node → Scope Node
  isBuiltin : Node → Bool

variable {Node : Type} (program : Program Node)

/-! ### The helpers -/

def isIdentifier (node : Node) (name : String) : Bool :=
  match program.syntaxOf node with
  | .Identifier name' => name' = name
  | _ => false

/-- `globalThis.RegExp`; whether the property is computed is not looked at. -/
def isRegExpOfGlobalThis (callee : Node) : Bool :=
  match program.syntaxOf callee with
  | .MemberExpression object property _ =>
    isIdentifier program object "globalThis" && isIdentifier program property "RegExp"
  | _ => false

/-- The first argument and the others. -/
def isRegExpConstructor (node : Node) : Option (Node × List Node) :=
  match program.syntaxOf node with
  | .CallExpression callee (argument :: rest) =>
    if isIdentifier program callee "RegExp" then some (argument, rest) else none
  | .NewExpression callee (argument :: rest) =>
    if isIdentifier program callee "RegExp" || isRegExpOfGlobalThis program callee then some (argument, rest) else none
  | _ => none

def isStaticTemplateLiteral {Text : Type} (quasis : List Text) (expressions : List Node) : Option Text :=
  match quasis, expressions with
  | [quasi], [] => some quasi
  | _, _ => none

def isStringRaw (tag : Node) : Bool :=
  match program.syntaxOf tag with
  | .MemberExpression object property false =>
    isIdentifier program object "String" && isIdentifier program property "raw"
  | _ => false

/-- The raw text of the only quasi. -/
def isSimpleRawString (node : Node) : Option JsString :=
  match program.syntaxOf node with
  | .TaggedTemplateExpression tag quasis expressions =>
    if isStringRaw program tag then isStaticTemplateLiteral quasis expressions else none
  | _ => none

/-- Only a scope and the one above it are searched. -/
def getVariableFromIdentifier (name : String) (scope : Scope Node) : Option (Variable Node) :=
  match scope with
  | .global vars => vars.find? (·.name = name)
  | .inner vars upper =>
    match vars.find? (·.name = name) with
    | some found => some found
    | none =>
      match upper with
      | .global vars | .inner vars _ => vars.find? (·.name = name)

/-- The flags of a call with these arguments after the first one. -/
def getFlags (callExpr : Node) (rest : List Node) : Option JsString :=
  match rest with
  | [] => some []
  | flags :: _ =>
    match program.syntaxOf flags with
    | .StringLiteral value => some value
    | .Identifier name =>
      match getUniqueWriteReference (getVariableFromIdentifier name (program.getScope callExpr)) with
      | some ref =>
        match program.syntaxOf ref with
        | .StringLiteral value => some value
        | _ => none
      | none => none
    | .TemplateLiteral quasis expressions => (isStaticTemplateLiteral quasis expressions).map TemplateText.cooked
    | _ => isSimpleRawString program flags

/-- The declarator whose initializer a node is. -/
def declaratorOf (node : Node) : Option Node :=
  (program.parent node).filter fun parent =>
    match program.syntaxOf parent with
    | .VariableDeclarator _ => true
    | _ => false

/-- The initializer that is the only write to the variable. -/
def assignedExpression (name : String) (node : Node) : Option Node :=
  (getUniqueWriteReference (getVariableFromScope (program.getScope node) name)).filter fun usage =>
    (declaratorOf program usage).isSome

/-! ### The pattern -/

/-- The branches of `getPatternFromNode` with what they read. -/
inductive Form (Node : Type)
  | RegExpConstructor (argument : Node) (rest : List Node)
  | RegexLiteral (pattern flags : JsString)
  | StringLiteral (value : JsString)
  | StaticTemplateLiteral (quasi : TemplateText)
  | SimpleRawString (raw : JsString)
  | Identifier (assignedExpression : Node)
  | BinaryPlus (left right : Node)
  | other

def formOf (node : Node) : Form Node :=
  match isRegExpConstructor program node with
  | some (argument, rest) => .RegExpConstructor argument rest
  | none =>
    match program.syntaxOf node with
    | .RegExpLiteral pattern flags => .RegexLiteral pattern flags
    | .StringLiteral value => .StringLiteral value
    | .TemplateLiteral quasis expressions =>
      match isStaticTemplateLiteral quasis expressions with
      | some quasi => .StaticTemplateLiteral quasi
      | none => .other
    | .TaggedTemplateExpression _ _ _ =>
      match isSimpleRawString program node with
      | some raw => .SimpleRawString raw
      | none => .other
    | .Identifier name =>
      match assignedExpression program name node with
      | some usage => .Identifier usage
      | none => .other
    | .BinaryExpression operator left right => if operator = "+" then .BinaryPlus left right else .other
    | _ => .other

structure PatternAndFlags where
  pattern : JsString
  flags : JsString
  deriving DecidableEq, Repr

/-- There is no result when the fuel does not suffice. The inner option is null or the pattern. -/
def getPatternFromNode : ℕ → Node → Option (Option PatternAndFlags)
  | 0, _ => none
  | fuel + 1, node =>
    match formOf program node with
    | .RegExpConstructor argument rest =>
      match getPatternFromNode fuel argument with
      | none => none
      | some patternOnly =>
        match patternOnly, getFlags program node rest with
        | some patternOnly, some flags => some (some ⟨patternOnly.pattern, flags⟩)
        | _, _ => some none
    | .RegexLiteral pattern flags => some (some ⟨pattern, flags⟩)
    | .StringLiteral value => some (some ⟨value, []⟩)
    | .StaticTemplateLiteral quasi => some (some ⟨quasi.raw, []⟩)
    | .SimpleRawString raw => some (some ⟨raw, []⟩)
    | .Identifier assignedExpression => getPatternFromNode fuel assignedExpression
    | .BinaryPlus left right =>
      match getPatternFromNode fuel left, getPatternFromNode fuel right with
      | some left, some right =>
        match left, right with
        | some left, some right => some (some ⟨left.pattern ++ right.pattern, []⟩)
        | _, _ => some none
      | _, _ => none
    | .other => some none

/-! ### Evaluation -/

/-- The letters that stand for a line terminator after a backslash. -/
def lineTerminator (c : ℕ) : Option JsString :=
  if c = 10 then some [110]
  else if c = 13 then some [114]
  else if c = lineSeparator then some [117, 50, 48, 50, 56]
  else if c = paragraphSeparator then some [117, 50, 48, 50, 57]
  else none

/-- Slashes outside of classes and line terminators are escaped, unless a backslash is before them. -/
def escapeSource (inClass : Bool) : Bool → JsString → JsString
  | _, [] => []
  | true, c :: rest => (lineTerminator c).getD [c] ++ escapeSource inClass false rest
  | false, c :: rest =>
    if c = 92 then 92 :: escapeSource inClass true rest
    else if c = slash ∧ inClass = false then 92 :: slash :: escapeSource inClass false rest
    else
      match lineTerminator c with
      | some letters => 92 :: (letters ++ escapeSource inClass false rest)
      | none => c :: escapeSource (if c = 91 then true else if c = 93 then false else inClass) false rest

/-- The property `source` of a regular expression. -/
def escapeRegExpPattern (pattern : JsString) : JsString :=
  if pattern = [] then [40, 63, 58, 41] else escapeSource false false pattern

/-- Of other values nothing is known. -/
inductive Value
  | string (text : JsString)
  | regexp (pattern flags : JsString)
  | other
  deriving DecidableEq, Repr

namespace Value

/-- The text in a concatenation. -/
def text : Value → Option JsString
  | string text => some text
  | regexp pattern flags => some (slash :: (escapeRegExpPattern pattern ++ slash :: flags))
  | other => none

/-- The pattern that `RegExp` takes from its first argument. -/
def pattern : Value → Option JsString
  | string text => some text
  | regexp pattern _ => some pattern
  | other => none

/-- The flags that `RegExp` takes from its first argument when there is no other. -/
def flags : Value → Option JsString
  | string _ => some []
  | regexp _ flags => some flags
  | other => none

end Value

def usesBuiltin (node : Node) : Prop :=
  match program.syntaxOf node with
  | .CallExpression callee _ | .NewExpression callee _ => program.isBuiltin callee = true
  | .TaggedTemplateExpression tag _ _ => program.isBuiltin tag = true
  | _ => False

/-- The declarator names the variable instead of taking the initializer apart. -/
def declaresByName (assigned : Node) : Prop :=
  ∃ declarator ∈ declaratorOf program assigned, ∃ id name,
    program.syntaxOf declarator = .VariableDeclarator id ∧ program.syntaxOf id = .Identifier name

/-- What the code takes for granted of the node. -/
def Standard (node : Node) : Prop :=
  match formOf program node with
  | .RegExpConstructor _ _ | .SimpleRawString _ => usesBuiltin program node
  | .Identifier assigned => declaresByName program assigned
  | _ => True

/-- The values of a node in the executions where each variable that is followed has the value written to it.
`RegExp` throws when the pattern and the flags are not valid. -/
inductive Evaluates (valid : JsString → JsString → Prop) : Node → Value → Prop
  | regex {node : Node} {pattern flags : JsString} : formOf program node = .RegexLiteral pattern flags →
      Evaluates valid node (.regexp pattern flags)
  | string {node : Node} {value : JsString} : formOf program node = .StringLiteral value →
      Evaluates valid node (.string value)
  | template {node : Node} {quasi : TemplateText} : formOf program node = .StaticTemplateLiteral quasi →
      Evaluates valid node (.string quasi.cooked)
  | raw {node : Node} {text : JsString} : formOf program node = .SimpleRawString text → usesBuiltin program node →
      Evaluates valid node (.string text)
  | construct {node argument : Node} {value : Value} {pattern flags : JsString} :
      formOf program node = .RegExpConstructor argument [] → usesBuiltin program node →
      Evaluates valid argument value → (∀ p ∈ value.pattern, p = pattern) → (∀ f ∈ value.flags, f = flags) →
      valid pattern flags → Evaluates valid node (.regexp pattern flags)
  | constructWithFlags {node argument second : Node} {rest : List Node} {value given : Value}
      {pattern flags : JsString} :
      formOf program node = .RegExpConstructor argument (second :: rest) → usesBuiltin program node →
      Evaluates valid argument value → Evaluates valid second given → (∀ p ∈ value.pattern, p = pattern) →
      (∀ f ∈ given.text, f = flags) → valid pattern flags → Evaluates valid node (.regexp pattern flags)
  | assigned {node usage : Node} {value : Value} : formOf program node = .Identifier usage →
      declaresByName program usage → Evaluates valid usage value → Evaluates valid node value
  | plus {node left right : Node} {leftValue rightValue value : Value} :
      formOf program node = .BinaryPlus left right → Evaluates valid left leftValue →
      Evaluates valid right rightValue →
      (∀ l ∈ leftValue.text, ∀ r ∈ rightValue.text, value = .string (l ++ r)) → Evaluates valid node value
  | unknown {node : Node} {value : Value} : ¬ Standard program node → Evaluates valid node value
  | other {node : Node} {value : Value} : formOf program node = .other → Evaluates valid node value

/-! ### The walk -/

/-- The nodes that `getPatternFromNode` is called for next. -/
def subjects (node : Node) : List Node :=
  match formOf program node with
  | .RegExpConstructor argument _ => [argument]
  | .Identifier assigned => [assigned]
  | .BinaryPlus left right => [left, right]
  | _ => []

/-- The node itself is no reason to give up. -/
def Readable (node : Node) : Prop :=
  match formOf program node with
  | .RegExpConstructor _ rest => (getFlags program node rest).isSome
  | .other => False
  | _ => True

theorem getPatternFromNode_isSome (fuel : ℕ) (node : Node) :
    (getPatternFromNode program fuel node).isSome ↔ Unfolds (subjects program) (fun _ => True) fuel node := by
  induction fuel generalizing node with
  | zero => simp [getPatternFromNode, Unfolds]
  | succ fuel ih =>
    rw [getPatternFromNode, Unfolds, subjects]
    cases formOf program node with
    | RegExpConstructor argument rest =>
      simp only [true_and, List.mem_singleton, forall_eq, ← ih]
      rcases getPatternFromNode program fuel argument with _ | _ | patternOnly
      · rfl
      · simp
      · cases getFlags program node rest <;> simp
    | Identifier assigned => simp [ih]
    | BinaryPlus left right =>
      simp only [true_and, List.mem_cons, List.not_mem_nil, or_false, forall_eq_or_imp, forall_eq, ← ih]
      rcases getPatternFromNode program fuel left with _ | _ | left <;>
        rcases getPatternFromNode program fuel right with _ | _ | right <;> simp
    | RegexLiteral | StringLiteral | StaticTemplateLiteral | SimpleRawString | other => simp

theorem exists_pattern_iff (fuel : ℕ) (node : Node) :
    (∃ result, getPatternFromNode program fuel node = some (some result)) ↔
      Unfolds (subjects program) (Readable program) fuel node := by
  induction fuel generalizing node with
  | zero => simp [getPatternFromNode, Unfolds]
  | succ fuel ih =>
    rw [getPatternFromNode, Unfolds, subjects, Readable]
    cases formOf program node with
    | RegExpConstructor argument rest =>
      simp only [List.mem_singleton, forall_eq, ← ih]
      rcases getPatternFromNode program fuel argument with _ | _ | patternOnly
      · simp
      · simp
      · cases getFlags program node rest <;> simp
    | Identifier assigned => simp [ih]
    | BinaryPlus left right =>
      simp only [true_and, List.mem_cons, List.not_mem_nil, or_false, forall_eq_or_imp, forall_eq, ← ih]
      rcases getPatternFromNode program fuel left with _ | _ | left <;>
        rcases getPatternFromNode program fuel right with _ | _ | right <;> simp
    | RegexLiteral | StringLiteral | StaticTemplateLiteral | SimpleRawString | other => simp

def Reached (node other : Node) : Prop := Relation.ReflTransGen (Calls (subjects program)) node other

/-! ### The pattern beside the value -/

/-- The pattern that is read off a node, and a value of the node. -/
inductive Paired : Node → JsString → Value → Prop
  | regex {node : Node} {pattern flags : JsString} : formOf program node = .RegexLiteral pattern flags →
      Paired node pattern (.regexp pattern flags)
  | string {node : Node} {value : JsString} : formOf program node = .StringLiteral value →
      Paired node value (.string value)
  | template {node : Node} {quasi : TemplateText} : formOf program node = .StaticTemplateLiteral quasi →
      Paired node quasi.raw (.string quasi.cooked)
  | raw {node : Node} {text : JsString} : formOf program node = .SimpleRawString text →
      Paired node text (.string text)
  | construct {node argument : Node} {rest : List Node} {value : Value} {read pattern flags : JsString} :
      formOf program node = .RegExpConstructor argument rest → Paired argument read value →
      value.pattern = some pattern → Paired node read (.regexp pattern flags)
  | assigned {node usage : Node} {value : Value} {read : JsString} : formOf program node = .Identifier usage →
      Paired usage read value → Paired node read value
  | plus {node left right : Node} {leftValue rightValue : Value} {leftRead rightRead l r : JsString} :
      formOf program node = .BinaryPlus left right → Paired left leftRead leftValue →
      Paired right rightRead rightValue → leftValue.text = some l → rightValue.text = some r →
      Paired node (leftRead ++ rightRead) (.string (l ++ r))

variable {program}

theorem Paired.exists_text {node : Node} {read : JsString} {value : Value} (h : Paired program node read value) :
    ∃ text, value.text = some text := by
  induction h with
  | regex | string | template | raw | construct | plus => exact ⟨_, rfl⟩
  | assigned _ _ ih => exact ih

theorem Paired.exists_pattern {node : Node} {read : JsString} {value : Value} (h : Paired program node read value) :
    ∃ pattern, value.pattern = some pattern := by
  induction h with
  | regex | string | template | raw | construct | plus => exact ⟨_, rfl⟩
  | assigned _ _ ih => exact ih

theorem reached_subject {node other subject : Node} (hsubject : subject ∈ subjects program node)
    (h : Reached program subject other) : Reached program node other :=
  Relation.ReflTransGen.head hsubject h

/-- The readings that a reading is made of. -/
theorem read_cases {fuel : ℕ} {node : Node} {result : PatternAndFlags}
    (h : getPatternFromNode program fuel node = some (some result)) :
    ∃ fuel', match formOf program node with
      | .RegExpConstructor argument _ => ∃ inner, getPatternFromNode program fuel' argument = some (some inner) ∧
          result.pattern = inner.pattern
      | .RegexLiteral pattern _ => result.pattern = pattern
      | .StringLiteral value => result.pattern = value
      | .StaticTemplateLiteral quasi => result.pattern = quasi.raw
      | .SimpleRawString raw => result.pattern = raw
      | .Identifier assigned => getPatternFromNode program fuel' assigned = some (some result)
      | .BinaryPlus left right => ∃ l r, getPatternFromNode program fuel' left = some (some l) ∧
          getPatternFromNode program fuel' right = some (some r) ∧ result.pattern = l.pattern ++ r.pattern
      | .other => False := by
  cases fuel with
  | zero => cases h
  | succ fuel =>
    refine ⟨fuel, ?_⟩
    rw [getPatternFromNode] at h
    cases hform : formOf program node with
    | RegExpConstructor argument rest =>
      rw [hform] at h
      dsimp only at h ⊢
      rcases hargument : getPatternFromNode program fuel argument with _ | _ | inner
      · simp [hargument] at h
      · simp [hargument] at h
      · cases hflags : getFlags program node rest with
        | none => simp [hargument, hflags] at h
        | some flags =>
          simp only [hargument, hflags, Option.some.injEq] at h
          exact ⟨inner, rfl, h ▸ rfl⟩
    | Identifier assigned => simpa [hform] using h
    | BinaryPlus left right =>
      rw [hform] at h
      dsimp only at h ⊢
      rcases hleft : getPatternFromNode program fuel left with _ | _ | l
      · simp [hleft] at h
      · rcases hright : getPatternFromNode program fuel right with _ | r <;> simp [hleft, hright] at h
      · rcases hright : getPatternFromNode program fuel right with _ | _ | r
        · simp [hleft, hright] at h
        · simp [hleft, hright] at h
        · simp only [hleft, hright, Option.some.injEq] at h
          exact ⟨l, r, rfl, rfl, h ▸ rfl⟩
    | RegexLiteral | StringLiteral | StaticTemplateLiteral | SimpleRawString =>
      simp only [hform, Option.some.injEq] at h
      exact h ▸ rfl
    | other => simp [hform] at h

/-- What is read off a node stands beside each of its values. -/
theorem paired {valid : JsString → JsString → Prop} {fuel : ℕ} {node : Node} {result : PatternAndFlags} {value : Value}
    (hread : getPatternFromNode program fuel node = some (some result))
    (hstandard : ∀ other, Reached program node other → Standard program other)
    (hvalue : Evaluates program valid node value) : Paired program node result.pattern value := by
  induction hvalue generalizing fuel result with
  | regex hform =>
    obtain ⟨_, h⟩ := read_cases hread
    simp only [hform] at h
    exact h.symm ▸ .regex hform
  | string hform =>
    obtain ⟨_, h⟩ := read_cases hread
    simp only [hform] at h
    exact h.symm ▸ .string hform
  | template hform =>
    obtain ⟨_, h⟩ := read_cases hread
    simp only [hform] at h
    exact h.symm ▸ .template hform
  | raw hform =>
    obtain ⟨_, h⟩ := read_cases hread
    simp only [hform] at h
    exact h.symm ▸ .raw hform
  | construct hform _ _ hpattern _ _ ih =>
    obtain ⟨_, h⟩ := read_cases hread
    rw [hform] at h
    obtain ⟨inner, hinner, heq⟩ := h
    have hargument := ih hinner fun other hother =>
      hstandard other (reached_subject (by simp [subjects, hform]) hother)
    obtain ⟨p, hp⟩ := hargument.exists_pattern
    obtain rfl := hpattern p hp
    exact heq ▸ .construct hform hargument hp
  | constructWithFlags hform _ _ _ hpattern _ _ ih _ =>
    obtain ⟨_, h⟩ := read_cases hread
    rw [hform] at h
    obtain ⟨inner, hinner, heq⟩ := h
    have hargument := ih hinner fun other hother =>
      hstandard other (reached_subject (by simp [subjects, hform]) hother)
    obtain ⟨p, hp⟩ := hargument.exists_pattern
    obtain rfl := hpattern p hp
    exact heq ▸ .construct hform hargument hp
  | assigned hform _ _ ih =>
    obtain ⟨_, h⟩ := read_cases hread
    rw [hform] at h
    exact .assigned hform (ih h fun other hother =>
      hstandard other (reached_subject (by simp [subjects, hform]) hother))
  | plus hform _ _ hvalue ihleft ihright =>
    obtain ⟨_, h⟩ := read_cases hread
    rw [hform] at h
    obtain ⟨left, right, hleft, hright, heq⟩ := h
    have hleftPaired := ihleft hleft fun other hother =>
      hstandard other (reached_subject (by simp [subjects, hform]) hother)
    have hrightPaired := ihright hright fun other hother =>
      hstandard other (reached_subject (by simp [subjects, hform]) hother)
    obtain ⟨l, hl⟩ := hleftPaired.exists_text
    obtain ⟨r, hr⟩ := hrightPaired.exists_text
    rw [heq, hvalue l hl r hr]
    exact .plus hform hleftPaired hrightPaired hl hr
  | unknown hnot => exact absurd (hstandard _ .refl) hnot
  | other hform =>
    obtain ⟨_, h⟩ := read_cases hread
    rw [hform] at h
    exact h.elim

/-! ### Where the pattern is the value -/

variable (program) in
/-- The node is a regular expression, maybe through variables. -/
inductive DenotesRegExp : Node → Prop
  | literal {node : Node} {pattern flags : JsString} : formOf program node = .RegexLiteral pattern flags →
      DenotesRegExp node
  | construct {node argument : Node} {rest : List Node} : formOf program node = .RegExpConstructor argument rest →
      DenotesRegExp node
  | assigned {node usage : Node} : formOf program node = .Identifier usage → DenotesRegExp usage → DenotesRegExp node

variable (program) in
/-- A template has no escapes. -/
def Unescaped (node : Node) : Prop :=
  ∀ quasi, formOf program node = .StaticTemplateLiteral quasi → quasi.cooked = quasi.raw

variable (program) in
/-- No operand of a concatenation is a regular expression. -/
def StringOperands (node : Node) : Prop :=
  ∀ left right, formOf program node = .BinaryPlus left right →
    ¬ DenotesRegExp program left ∧ ¬ DenotesRegExp program right

theorem forall_reached_iff {node : Node} {P : Node → Prop} : (∀ other, Reached program node other → P other) ↔
    P node ∧ ∀ subject ∈ subjects program node, ∀ other, Reached program subject other → P other := by
  constructor
  · intro h
    exact ⟨h node .refl, fun subject hsubject other hother => h other (reached_subject hsubject hother)⟩
  · rintro ⟨hself, hsubjects⟩ other hother
    rcases Relation.ReflTransGen.cases_head hother with rfl | ⟨subject, hsubject, hother⟩
    · exact hself
    · exact hsubjects subject hsubject other hother

theorem Paired.string_of_not_denotes {node : Node} {read : JsString} {value : Value}
    (h : Paired program node read value) (hnot : ¬ DenotesRegExp program node) : ∃ text, value = .string text := by
  induction h with
  | regex hform => exact absurd (.literal hform) hnot
  | construct hform => exact absurd (.construct hform) hnot
  | string | template | raw | plus => exact ⟨_, rfl⟩
  | assigned hform _ ih => exact ih fun hdenotes => hnot (.assigned hform hdenotes)

theorem Paired.regexp_of_denotes {node : Node} {read : JsString} {value : Value}
    (h : Paired program node read value) (hdenotes : DenotesRegExp program node) :
    ∃ pattern flags, value = .regexp pattern flags := by
  induction h with
  | regex | construct => exact ⟨_, _, rfl⟩
  | string hform | template hform | raw hform | plus hform =>
    cases hdenotes with
    | literal h | construct h | assigned h => simp [hform] at h
  | assigned hform _ ih =>
    cases hdenotes with
    | literal h | construct h => simp [hform] at h
    | assigned h husage =>
      rw [hform] at h
      exact ih (Form.Identifier.inj h ▸ husage)

theorem Paired.sound {node : Node} {read : JsString} {value : Value} (h : Paired program node read value)
    (hfine : ∀ other, Reached program node other → Unescaped program other ∧ StringOperands program other) :
    value.pattern = some read := by
  induction h with
  | regex | string | raw => rfl
  | template hform => rw [Value.pattern, (hfine _ .refl).1 _ hform]
  | construct hform _ hpattern ih =>
    rw [Value.pattern, ← hpattern]
    exact ih fun other hother => hfine other (reached_subject (by simp [subjects, hform]) hother)
  | assigned hform _ ih => exact ih fun other hother => hfine other (reached_subject (by simp [subjects, hform]) hother)
  | plus hform hleft hright hl hr ihleft ihright =>
    obtain ⟨hleftNot, hrightNot⟩ := (hfine _ .refl).2 _ _ hform
    obtain ⟨leftText, rfl⟩ := hleft.string_of_not_denotes hleftNot
    obtain ⟨rightText, rfl⟩ := hright.string_of_not_denotes hrightNot
    have hleftEq := ihleft fun other hother => hfine other (reached_subject (by simp [subjects, hform]) hother)
    have hrightEq := ihright fun other hother => hfine other (reached_subject (by simp [subjects, hform]) hother)
    obtain rfl := Option.some.inj hl
    obtain rfl := Option.some.inj hr
    obtain rfl := Option.some.inj hleftEq
    obtain rfl := Option.some.inj hrightEq
    rfl

/-! ### Counting slashes -/

theorem count_lineTerminator {c : ℕ} : [c].count slash ≤ ((lineTerminator c).getD [c]).count slash := by
  unfold lineTerminator
  split_ifs with hn hr hl hp
  · subst hn; decide
  · subst hr; decide
  · subst hl; decide
  · subst hp; decide
  · exact le_refl _

theorem count_backslash (text : JsString) : (92 :: text).count slash = text.count slash :=
  List.count_cons_of_ne (by decide)

theorem count_le_escapeSource (source : JsString) (inClass escaped : Bool) :
    source.count slash ≤ (escapeSource inClass escaped source).count slash := by
  induction source generalizing inClass escaped with
  | nil => exact Nat.zero_le _
  | cons c rest ih =>
    cases escaped with
    | true =>
      rw [escapeSource, List.count_append, ← List.singleton_append, List.count_append]
      exact Nat.add_le_add count_lineTerminator (ih inClass false)
    | false =>
      rw [escapeSource]
      by_cases hbackslash : c = 92
      · rw [if_pos hbackslash, hbackslash, count_backslash, count_backslash]
        exact ih inClass true
      rw [if_neg hbackslash]
      by_cases hslash : c = slash ∧ inClass = false
      · rw [if_pos hslash, hslash.1, count_backslash, List.count_cons_self, List.count_cons_self]
        exact Nat.succ_le_succ (ih inClass false)
      rw [if_neg hslash]
      have hcount := count_lineTerminator (c := c)
      cases hletters : lineTerminator c with
      | some letters =>
        rw [hletters, Option.getD_some] at hcount
        dsimp only
        rw [count_backslash, List.count_append, ← List.singleton_append, List.count_append]
        exact Nat.add_le_add hcount (ih inClass false)
      | none =>
        dsimp only
        rw [List.count_cons, List.count_cons]
        exact Nat.add_le_add_right (ih _ false) _

theorem count_le_escapeRegExpPattern (pattern : JsString) :
    pattern.count slash ≤ (escapeRegExpPattern pattern).count slash := by
  unfold escapeRegExpPattern
  split_ifs with hempty
  · rw [hempty]
    exact Nat.zero_le _
  · exact count_le_escapeSource pattern false false

theorem count_regexp_text {pattern flags text : JsString} (h : (Value.regexp pattern flags).text = some text) :
    pattern.count slash + 2 ≤ text.count slash := by
  obtain rfl := Option.some.inj h
  rw [List.count_cons_self, List.count_append, List.count_cons_self]
  have := count_le_escapeRegExpPattern pattern
  omega

theorem count_pattern_le_text {value : Value} {pattern text : JsString} (hpattern : value.pattern = some pattern)
    (htext : value.text = some text) : pattern.count slash ≤ text.count slash := by
  cases value with
  | string text =>
    obtain rfl := Option.some.inj hpattern
    obtain rfl := Option.some.inj htext
    exact le_refl _
  | regexp source flags =>
    obtain rfl := Option.some.inj hpattern
    exact Nat.le_of_add_right_le (count_regexp_text htext)
  | other => cases hpattern

theorem stringOperands_of_ne {node : Node} (h : ∀ left right, formOf program node ≠ .BinaryPlus left right) :
    StringOperands program node :=
  fun left right hplus => absurd hplus (h left right)

/-- The value has the slashes of what is read; it has no others only if all operands are strings. -/
theorem Paired.slashes {node : Node} {read : JsString} {value : Value} (h : Paired program node read value) :
    ∀ pattern, value.pattern = some pattern → read.count slash ≤ pattern.count slash ∧
      (pattern.count slash ≤ read.count slash →
        ∀ other, Reached program node other → StringOperands program other) := by
  induction h with
  | regex hform | string hform | raw hform =>
    intro pattern hpattern
    obtain rfl := Option.some.inj hpattern
    refine ⟨le_refl _, fun _ => forall_reached_iff.mpr ⟨stringOperands_of_ne (by simp [hform]), ?_⟩⟩
    simp [subjects, hform]
  | @template node quasi hform =>
    intro pattern hpattern
    obtain rfl := Option.some.inj hpattern
    refine ⟨quasi.count_raw_le, fun _ => forall_reached_iff.mpr ⟨stringOperands_of_ne (by simp [hform]), ?_⟩⟩
    simp [subjects, hform]
  | construct hform _ hinner ih =>
    intro pattern hpattern
    obtain rfl := Option.some.inj hpattern
    obtain ⟨hle, hall⟩ := ih _ hinner
    refine ⟨hle, fun hge => forall_reached_iff.mpr ⟨stringOperands_of_ne (by simp [hform]), ?_⟩⟩
    simpa [subjects, hform] using hall hge
  | assigned hform _ ih =>
    intro pattern hpattern
    obtain ⟨hle, hall⟩ := ih _ hpattern
    refine ⟨hle, fun hge => forall_reached_iff.mpr ⟨stringOperands_of_ne (by simp [hform]), ?_⟩⟩
    simpa [subjects, hform] using hall hge
  | plus hform hleft hright hl hr ihleft ihright =>
    intro pattern hpattern
    obtain rfl := Option.some.inj hpattern
    obtain ⟨leftPattern, hleftPattern⟩ := hleft.exists_pattern
    obtain ⟨rightPattern, hrightPattern⟩ := hright.exists_pattern
    have hleftText := count_pattern_le_text hleftPattern hl
    have hrightText := count_pattern_le_text hrightPattern hr
    obtain ⟨hleftLe, hleftAll⟩ := ihleft leftPattern hleftPattern
    obtain ⟨hrightLe, hrightAll⟩ := ihright rightPattern hrightPattern
    rw [List.count_append, List.count_append]
    refine ⟨by omega, fun hle => forall_reached_iff.mpr ⟨?_, ?_⟩⟩
    · intro left' right' hplus
      rw [hform] at hplus
      obtain ⟨rfl, rfl⟩ := Form.BinaryPlus.inj hplus
      constructor
      · intro hdenotes
        obtain ⟨source, flags, rfl⟩ := hleft.regexp_of_denotes hdenotes
        obtain rfl := Option.some.inj hleftPattern
        have := count_regexp_text hl
        omega
      · intro hdenotes
        obtain ⟨source, flags, rfl⟩ := hright.regexp_of_denotes hdenotes
        obtain rfl := Option.some.inj hrightPattern
        have := count_regexp_text hr
        omega
    · simp only [subjects, hform, List.mem_cons, List.not_mem_nil, or_false, forall_eq_or_imp, forall_eq]
      exact ⟨hleftAll (by omega), hrightAll (by omega)⟩

/-! ### Lengths -/

theorem unescaped_of_ne {node : Node} (h : ∀ quasi, formOf program node ≠ .StaticTemplateLiteral quasi) :
    Unescaped program node :=
  fun quasi htemplate => absurd htemplate (h quasi)

/-- Among strings, the value is not longer than what is read; it is as long only without escapes. -/
theorem Paired.lengths {node : Node} {read : JsString} {value : Value} (h : Paired program node read value)
    (hstrings : ∀ other, Reached program node other → StringOperands program other) :
    ∀ pattern, value.pattern = some pattern → pattern.length ≤ read.length ∧
      (read.length ≤ pattern.length → ∀ other, Reached program node other → Unescaped program other) := by
  induction h with
  | regex hform | string hform | raw hform =>
    intro pattern hpattern
    obtain rfl := Option.some.inj hpattern
    refine ⟨le_refl _, fun _ => forall_reached_iff.mpr ⟨unescaped_of_ne (by simp [hform]), ?_⟩⟩
    simp [subjects, hform]
  | @template node quasi hform =>
    intro pattern hpattern
    obtain rfl := Option.some.inj hpattern
    refine ⟨quasi.length_cooked_le, fun hle => forall_reached_iff.mpr ⟨?_, by simp [subjects, hform]⟩⟩
    intro quasi' hquasi
    rw [hform] at hquasi
    obtain rfl := Form.StaticTemplateLiteral.inj hquasi
    by_contra hne
    exact absurd (quasi.length_cooked_lt hne) (Nat.not_lt.mpr hle)
  | construct hform _ hinner ih =>
    intro pattern hpattern
    obtain rfl := Option.some.inj hpattern
    obtain ⟨hle, hall⟩ := ih (fun other hother => hstrings other (reached_subject (by simp [subjects, hform]) hother)) _
      hinner
    refine ⟨hle, fun hge => forall_reached_iff.mpr ⟨unescaped_of_ne (by simp [hform]), ?_⟩⟩
    simpa [subjects, hform] using hall hge
  | assigned hform _ ih =>
    intro pattern hpattern
    obtain ⟨hle, hall⟩ := ih (fun other hother => hstrings other (reached_subject (by simp [subjects, hform]) hother)) _
      hpattern
    refine ⟨hle, fun hge => forall_reached_iff.mpr ⟨unescaped_of_ne (by simp [hform]), ?_⟩⟩
    simpa [subjects, hform] using hall hge
  | plus hform hleft hright hl hr ihleft ihright =>
    intro pattern hpattern
    obtain rfl := Option.some.inj hpattern
    obtain ⟨hleftNot, hrightNot⟩ := hstrings _ .refl _ _ hform
    obtain ⟨leftText, rfl⟩ := hleft.string_of_not_denotes hleftNot
    obtain ⟨rightText, rfl⟩ := hright.string_of_not_denotes hrightNot
    obtain rfl := Option.some.inj hl
    obtain rfl := Option.some.inj hr
    obtain ⟨hleftLe, hleftAll⟩ :=
      ihleft (fun other hother => hstrings other (reached_subject (by simp [subjects, hform]) hother)) _ rfl
    obtain ⟨hrightLe, hrightAll⟩ :=
      ihright (fun other hother => hstrings other (reached_subject (by simp [subjects, hform]) hother)) _ rfl
    rw [List.length_append, List.length_append]
    refine ⟨by omega, fun hle => forall_reached_iff.mpr ⟨unescaped_of_ne (by simp [hform]), ?_⟩⟩
    simp only [subjects, hform, List.mem_cons, List.not_mem_nil, or_false, forall_eq_or_imp, forall_eq]
    exact ⟨hleftAll (by omega), hrightAll (by omega)⟩

theorem Paired.pattern_eq_iff {node : Node} {read : JsString} {value : Value} (h : Paired program node read value) :
    value.pattern = some read ↔
      ∀ other, Reached program node other → Unescaped program other ∧ StringOperands program other := by
  constructor
  · intro hpattern other hother
    have hstrings := (h.slashes read hpattern).2 (le_refl _)
    exact ⟨(h.lengths hstrings read hpattern).2 (le_refl _) other hother, hstrings other hother⟩
  · exact h.sound

/-! ### The results -/

section Correctness

variable (program) (valid : JsString → JsString → Prop) (node : Node)

/-- `getPatternFromNode` returns, and a pattern is that of each value. -/
def Correct : Prop :=
  (∃ fuel, (getPatternFromNode program fuel node).isSome) ∧
    ∀ fuel result value, getPatternFromNode program fuel node = some (some result) →
      Evaluates program valid node value → value.pattern = some result.pattern

/-- No variable comes back to itself. Where all is read and has a value, no name stands for something else, no template
has an escape and no operand is a regular expression. -/
def Faithful : Prop :=
  AcyclicFrom (Calls (subjects program)) node ∧
    ((∀ other, Reached program node other → Readable program other) → (∃ value, Evaluates program valid node value) →
      ∀ other, Reached program node other →
        Standard program other ∧ Unescaped program other ∧ StringOperands program other)

theorem returns_iff_acyclic [Finite Node] :
    (∃ fuel, (getPatternFromNode program fuel node).isSome) ↔ AcyclicFrom (Calls (subjects program)) node := by
  simp only [getPatternFromNode_isSome]
  rw [exists_unfolds_iff, and_iff_left fun _ _ => trivial]

variable {program} {node} in
theorem readable_of_read [Finite Node] {fuel : ℕ} {result : PatternAndFlags}
    (h : getPatternFromNode program fuel node = some (some result)) :
    ∀ other, Reached program node other → Readable program other :=
  (exists_unfolds_iff.mp ⟨fuel, (exists_pattern_iff program fuel node).mp ⟨result, h⟩⟩).2

/-- `getPatternFromNode` returns exactly when no variable comes back to itself. What it reads is the value under
`Faithful`; the converse holds for the names of the standard library and variables that are declared by name. -/
theorem getPatternFromNode_correct_iff [Finite Node] :
    ((∃ fuel, (getPatternFromNode program fuel node).isSome) ↔ AcyclicFrom (Calls (subjects program)) node) ∧
    (Faithful program valid node → Correct program valid node) ∧
    ((∀ other, Reached program node other → Standard program other) →
      (Correct program valid node ↔ Faithful program valid node)) := by
  have hcorrect : Faithful program valid node → Correct program valid node := by
    rintro ⟨hacyclic, hfine⟩
    refine ⟨(returns_iff_acyclic program node).mpr hacyclic, fun fuel result value hread hvalue => ?_⟩
    have hall := hfine (readable_of_read hread) ⟨value, hvalue⟩
    have hpaired := paired hread (fun other hother => (hall other hother).1) hvalue
    exact hpaired.pattern_eq_iff.mpr fun other hother => (hall other hother).2
  refine ⟨returns_iff_acyclic program node, hcorrect, fun hstandard => ⟨?_, hcorrect⟩⟩
  rintro ⟨hreturns, hpatterns⟩
  have hacyclic := (returns_iff_acyclic program node).mp hreturns
  refine ⟨hacyclic, fun hreadable hvalues other hother => ⟨hstandard other hother, ?_⟩⟩
  obtain ⟨value, hvalue⟩ := hvalues
  obtain ⟨fuel, hunfolds⟩ := exists_unfolds_iff.mpr ⟨hacyclic, hreadable⟩
  obtain ⟨result, hread⟩ := (exists_pattern_iff program fuel node).mpr hunfolds
  have hpaired := paired hread hstandard hvalue
  exact hpaired.pattern_eq_iff.mp (hpatterns fuel result value hread hvalue) other hother

end Correctness

/-! ### Two constants -/

/-- The nodes of `const p = p + 'a'; new RegExp(p); const q = 'a' + 'a'; new RegExp(q);` that are looked at. -/
inductive ExampleNode
  | useOfP | initializerP | innerP | declaratorP | idP | literal | useOfQ | initializerQ | declaratorQ | idQ
  deriving DecidableEq, Repr

namespace ExampleNode

def scope : Scope ExampleNode :=
  .global [⟨"p", [⟨true, some initializerP⟩, ⟨false, none⟩, ⟨false, none⟩]⟩,
    ⟨"q", [⟨true, some initializerQ⟩, ⟨false, none⟩]⟩]

def constants : Program ExampleNode where
  syntaxOf
    | useOfP | innerP | idP => .Identifier "p"
    | useOfQ | idQ => .Identifier "q"
    | initializerP => .BinaryExpression "+" innerP literal
    | initializerQ => .BinaryExpression "+" literal literal
    | literal => .StringLiteral [97]
    | declaratorP => .VariableDeclarator idP
    | declaratorQ => .VariableDeclarator idQ
  parent
    | initializerP | idP => some declaratorP
    | initializerQ | idQ => some declaratorQ
    | innerP => some initializerP
    | literal => some initializerQ
    | _ => none
  getScope _ := scope
  isBuiltin _ := false

instance : Finite ExampleNode :=
  Finite.of_surjective
    (fun i : Fin 10 =>
      [useOfP, initializerP, innerP, declaratorP, idP, literal, useOfQ, initializerQ, declaratorQ, idQ].get i)
    fun node => by cases node <;> decide

theorem fine_useOfQ : ∀ other, Reached constants .useOfQ other →
    Standard constants other ∧ Unescaped constants other ∧ StringOperands constants other := by
  have hliteral : formOf constants .literal = .StringLiteral [97] := rfl
  have hinitializer : formOf constants .initializerQ = .BinaryPlus .literal .literal := rfl
  have huse : formOf constants .useOfQ = .Identifier .initializerQ := rfl
  have hnot : ¬ DenotesRegExp constants .literal := by
    rintro (h | h | h) <;> cases hliteral.symm.trans h
  rw [forall_reached_iff, show subjects constants .useOfQ = [.initializerQ] from rfl, List.forall_mem_singleton,
    forall_reached_iff, show subjects constants .initializerQ = [.literal, .literal] from rfl, List.forall_mem_cons,
    List.forall_mem_singleton, and_self, forall_reached_iff, show subjects constants .literal = [] from rfl]
  refine ⟨⟨?_, unescaped_of_ne (by simp [huse]), stringOperands_of_ne (by simp [huse])⟩,
    ⟨trivial, unescaped_of_ne (by simp [hinitializer]), ?_⟩,
    ⟨trivial, unescaped_of_ne (by simp [hliteral]), stringOperands_of_ne (by simp [hliteral])⟩, nofun⟩
  · exact ⟨.declaratorQ, rfl, .idQ, "q", rfl, rfl⟩
  · intro left right hplus
    rw [hinitializer] at hplus
    obtain ⟨rfl, rfl⟩ := Form.BinaryPlus.inj hplus
    exact ⟨hnot, hnot⟩

end ExampleNode

theorem getPatternFromNode_correct_constant : Correct ExampleNode.constants (fun _ _ => True) .useOfQ := by
  have hreturns : getPatternFromNode ExampleNode.constants 3 .useOfQ = some (some ⟨[97, 97], []⟩) := by
    rfl
  obtain ⟨hacyclic, hcorrect, -⟩ := getPatternFromNode_correct_iff ExampleNode.constants (fun _ _ => True) .useOfQ
  exact hcorrect ⟨hacyclic.mp ⟨3, by rw [hreturns]; rfl⟩, fun _ _ => ExampleNode.fine_useOfQ⟩

/-- `const p = p + 'a'` is followed for ever. -/
theorem self_initialized_pattern_not_returns :
    ¬ ∀ (Node : Type) (_ : Finite Node) (program : Program Node) (valid : JsString → JsString → Prop) (node : Node),
      Correct program valid node := by
  intro h
  obtain ⟨⟨fuel, hsome⟩, -⟩ := h ExampleNode inferInstance ExampleNode.constants (fun _ _ => True) .useOfP
  have hnone : ∀ fuel, getPatternFromNode ExampleNode.constants fuel .useOfP = none ∧
      getPatternFromNode ExampleNode.constants fuel .innerP = none ∧
      getPatternFromNode ExampleNode.constants fuel .initializerP = none := by
    intro fuel
    induction fuel with
    | zero => exact ⟨rfl, rfl, rfl⟩
    | succ fuel ih =>
      obtain ⟨huse, hinner, hinitializer⟩ := ih
      refine ⟨hinitializer, hinitializer, ?_⟩
      have hform : formOf ExampleNode.constants .initializerP = .BinaryPlus .innerP .literal := rfl
      simp only [getPatternFromNode, hform, hinner]
  rw [(hnone fuel).1] at hsome
  cases hsome

end SonarJavascript.Regex.Extract
