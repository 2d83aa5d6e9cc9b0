import SonarJavascript.Helpers.Evaluations

/-!
# Null dereferences in logical expressions (S2259)

A member access below a logical expression is reported when its object is the operand that the left side of
the outermost logical expression compares with null. Evaluations are big steps with a trace of the accesses
and writes. Where the operand is pure, and no write since the comparison touches what it reads, the object is
null or undefined whenever the access is reached (`reported_nullish`).
-/

namespace SonarJavascript.Rules.ShortCircuitNull

open Helpers.Evaluations

/-! ### Programs -/

/-- The source code, with the bodies of its functions. -/
structure Program extends Source where
  root : Node
  functions : List Node

/-! ### The rule -/

inductive Null
  | confirmed
  | discarded
  | unknown
  deriving DecidableEq

def isNullLiteral : Node → Bool
  | .Literal _ isNull => isNull
  | _ => false

def isUndefined : Node → Bool
  | .Identifier name _ => name = "undefined"
  | _ => false

def isNull (n : Node) : Bool :=
  isNullLiteral n || isUndefined n

def equalOperators : List String := ["==", "==="]

def notEqualOperators : List String := ["!=", "!=="]

section Rule

variable (program : Program)

/-- Of the binary expression with this operator. -/
def getNullState (operator : String) (left right node : Node) : Null :=
  if (isNull right ∧ areEquivalent program.toSource left node) ∨ (isNull left ∧ areEquivalent program.toSource right node) then
    if operator ∈ notEqualOperators then .discarded
    else if operator ∈ equalOperators then .confirmed
    else .unknown
  else .unknown

/-- Whether the check reports. -/
def checkLogicalNullDereference (expr node : Node) : Bool :=
  match expr with
  | .LogicalExpression operator (.BinaryExpression comparison left right) _ =>
    let nullState := getNullState program comparison left right node
    (nullState = .confirmed ∧ operator = "&&") ∨ (nullState = .discarded ∧ operator = "||")
  | _ => false

def isLogicalExpression : Node → Bool
  | .LogicalExpression .. => true
  | _ => false

/-- The listener `LogicalExpression MemberExpression`. The ancestors start with the root. -/
def checkMember (ancestors : List Node) (node : Node) : List (Node × Node) :=
  match node, ancestors.find? isLogicalExpression with
  | .MemberExpression object _ _ isOptional, some enclosingLogicalExpression =>
    if isOptional = false ∧ checkLogicalNullDereference program enclosingLogicalExpression object then
      [(enclosingLogicalExpression, node)]
    else []
  | _, _ => []

mutual

/-- The accesses that are reported below a node, each with its enclosing logical expression. -/
def visit (ancestors : List Node) : Node → List (Node × Node)
  | node@(.MemberExpression object property _ _) => checkMember program ancestors node ++
    (visit (ancestors ++ [node]) object ++ visit (ancestors ++ [node]) property)
  | node@(.BinaryExpression _ left right) => visit (ancestors ++ [node]) left ++ visit (ancestors ++ [node]) right
  | node@(.LogicalExpression _ left right) => visit (ancestors ++ [node]) left ++ visit (ancestors ++ [node]) right
  | node@(.ConditionalExpression test consequent alternate) => visit (ancestors ++ [node]) test ++
    (visit (ancestors ++ [node]) consequent ++ visit (ancestors ++ [node]) alternate)
  | node@(.other _ children) => visitAll (ancestors ++ [node]) children
  | .Identifier .. | .ThisExpression _ | .Literal .. => []

def visitAll (ancestors : List Node) : List Node → List (Node × Node)
  | [] => []
  | node :: rest => visit ancestors node ++ visitAll ancestors rest

end

def reports : List (Node × Node) :=
  visit program [] program.root

end Rule

/-! ### What a report says -/

/-- The operand that the check compares the object with. -/
def compared (program : Program) (expr object : Node) : Option Node :=
  match expr with
  | .LogicalExpression _ (.BinaryExpression _ left right) _ =>
    if isNull right ∧ areEquivalent program.toSource left object then some left
    else if isNull left ∧ areEquivalent program.toSource right object then some right
    else none
  | _ => none

/-- The other operand. -/
def nullOperand (program : Program) (expr object : Node) : Option Node :=
  match expr with
  | .LogicalExpression _ (.BinaryExpression _ left right) _ =>
    if isNull right ∧ areEquivalent program.toSource left object then some right
    else if isNull left ∧ areEquivalent program.toSource right object then some left
    else none
  | _ => none

/-- In every evaluation of the enclosing expression that reaches the access, the object is null or undefined. -/
def Sound (program : Program) : Prop :=
  ∀ expr access, (expr, access) ∈ reports program → ∀ world f σ τ r,
    Eval world program.functions f σ (.node expr) τ r → ∀ g w, .accessed access g w ∈ τ → w.nullish = true

/-- The operand is pure, and a literal that it is compared with is `null`. -/
structure Plain (program : Program) (expr access : Node) : Prop where
  pure : ∀ e, compared program expr access.object = some e → Pure e
  literal : ∀ raw isNull, nullOperand program expr access.object = some (.Literal raw isNull) → raw = "null"

/-- In the evaluation `undefined` is no variable of the program, and whenever the access is reached, its object
has the bindings of the operand, and nothing that the operand reads has been written. -/
structure Undisturbed (program : Program) (world : World) (f : Frame) (σ : Store) (τ : List Event)
    (expr access : Node) : Prop where
  undeclared : ∀ name p, nullOperand program expr access.object = some (.Identifier name p) → f p = none
  bindings : ∀ e g w, compared program expr access.object = some e → .accessed access g w ∈ τ →
    (identifiers access.object).map g = (identifiers e).map f
  unwritten : ∀ e before g w rest, compared program expr access.object = some e →
    τ = before ++ .accessed access g w :: rest → ∀ l v, .wrote l v ∈ before → l ∉ reads world f σ e

variable {world : World} {functions : List Node} {f g : Frame} {σ σ' : Store} {τ τ' : List Event}

section Reports

variable {program : Program} {expr access : Node}

/-! ### Reports -/

/-- What the check has found for a report. -/
def Checked (program : Program) (entry : Node × Node) : Prop :=
  ∃ object property computed, entry.2 = .MemberExpression object property computed false ∧
    checkLogicalNullDereference program entry.1 object = true

theorem checked_of_checkMember {ancestors : List Node} {node : Node} {entry : Node × Node}
    (h : entry ∈ checkMember program ancestors node) : Checked program entry := by
  unfold checkMember at h
  split at h
  · next object property computed isOptional enclosing _ =>
    split at h
    · next hcheck =>
      obtain ⟨rfl, hcheck⟩ := hcheck
      obtain rfl := List.mem_singleton.mp h
      exact ⟨object, property, computed, rfl, hcheck⟩
    · simp at h
  · simp at h

mutual

theorem checked_of_visit {entry : Node × Node} (ancestors : List Node) :
    ∀ node, entry ∈ visit program ancestors node → Checked program entry
  | .MemberExpression object property computed isOptional, h => by
    simp only [visit, List.mem_append] at h
    rcases h with h | h | h
    · exact checked_of_checkMember h
    · exact checked_of_visit _ object h
    · exact checked_of_visit _ property h
  | .BinaryExpression _ left right, h => by
    simp only [visit, List.mem_append] at h
    exact h.elim (checked_of_visit _ left) (checked_of_visit _ right)
  | .LogicalExpression _ left right, h => by
    simp only [visit, List.mem_append] at h
    exact h.elim (checked_of_visit _ left) (checked_of_visit _ right)
  | .ConditionalExpression test consequent alternate, h => by
    simp only [visit, List.mem_append] at h
    exact h.elim (checked_of_visit _ test)
      fun h => h.elim (checked_of_visit _ consequent) (checked_of_visit _ alternate)
  | .other _ children, h => checked_of_visitAll _ children (by simpa only [visit] using h)
  | .Identifier .., h | .ThisExpression _, h | .Literal .., h => by simp [visit] at h

theorem checked_of_visitAll {entry : Node × Node} (ancestors : List Node) :
    ∀ nodes, entry ∈ visitAll program ancestors nodes → Checked program entry
  | [], h => by simp [visitAll] at h
  | node :: rest, h => by
    simp only [visitAll, List.mem_append] at h
    exact h.elim (checked_of_visit _ node) (checked_of_visitAll _ rest)

end

/-- The comparison, and when it lets the right operand be evaluated. -/
structure Comparison (program : Program) (expr access e n : Node) (operator comparison : String)
    (left right rest : Node) : Prop where
  expr_eq : expr = .LogicalExpression operator (.BinaryExpression comparison left right) rest
  compared_eq : compared program expr access.object = some e
  nullOperand_eq : nullOperand program expr access.object = some n
  operands : e = left ∧ n = right ∨ e = right ∧ n = left
  isNull : isNull n = true
  equivalent : areEquivalent program.toSource e access.object = true
  operators : comparison ∈ equalOperators ∧ operator = "&&" ∨ comparison ∈ notEqualOperators ∧ operator = "||"

theorem exists_comparison {object : Node} (haccess : access.object = object)
    (h : checkLogicalNullDereference program expr object = true) :
    ∃ e n operator comparison left right rest, Comparison program expr access e n operator comparison left right rest := by
  subst haccess
  unfold checkLogicalNullDereference at h
  split at h
  · next operator comparison left right rest =>
    have hoperators : (isNull right ∧ areEquivalent program.toSource left access.object) ∨
        (isNull left ∧ areEquivalent program.toSource right access.object) := by
      by_contra hne
      simp [getNullState, hne] at h
    have hstates : comparison ∈ equalOperators ∧ operator = "&&" ∨
        comparison ∈ notEqualOperators ∧ operator = "||" := by
      unfold getNullState at h
      rw [if_pos hoperators] at h
      by_cases hnot : comparison ∈ notEqualOperators
      · simp [hnot] at h
        exact .inr ⟨hnot, h⟩
      · by_cases heq : comparison ∈ equalOperators
        · simp [hnot, heq] at h
          exact .inl ⟨heq, h⟩
        · simp [hnot, heq] at h
    by_cases hfirst : isNull right ∧ areEquivalent program.toSource left access.object
    · refine ⟨left, right, operator, comparison, left, right, rest, rfl, ?_, ?_, .inl ⟨rfl, rfl⟩, hfirst.1,
        hfirst.2, hstates⟩
      · rw [compared, if_pos hfirst]
      · rw [nullOperand, if_pos hfirst]
    · have hsecond := hoperators.resolve_left hfirst
      refine ⟨right, left, operator, comparison, left, right, rest, rfl, ?_, ?_, .inr ⟨rfl, rfl⟩, hsecond.1,
        hsecond.2, hstates⟩
      · rw [compared, if_neg hfirst, if_pos hsecond]
      · rw [nullOperand, if_neg hfirst, if_pos hsecond]
  · cases h

/-! ### The comparison decides -/

theorem trace_of_compares {comparison : String} {a b v : Value} (h : Compares comparison a b v τ)
    (hnull : a.nullish = true ∨ b.nullish = true)
    (hoperator : comparison ∈ equalOperators ∨ comparison ∈ notEqualOperators) : τ = [] := by
  have hvalue := h hnull
  simp only [equalOperators, notEqualOperators, List.mem_cons, List.not_mem_nil, or_false] at hoperator
  rcases hoperator with (rfl | rfl) | (rfl | rfl) <;> exact hvalue.2

theorem nullish_of_compares {comparison operator : String} {a b v : Value} (h : Compares comparison a b v τ)
    (hnull : a.nullish = true ∨ b.nullish = true)
    (hoperators : comparison ∈ equalOperators ∧ operator = "&&" ∨ comparison ∈ notEqualOperators ∧ operator = "||")
    (hcontinue : world.continues operator v = true) : a.nullish = true ∧ b.nullish = true := by
  have hvalue := h hnull
  simp only [equalOperators, notEqualOperators, List.mem_cons, List.not_mem_nil, or_false] at hoperators
  rcases hoperators with ⟨rfl | rfl, rfl⟩ | ⟨rfl | rfl, rfl⟩
  · obtain ⟨rfl, -⟩ := hvalue
    simpa [World.continues, World.truthy] using hcontinue
  · obtain ⟨rfl, -⟩ := hvalue
    obtain rfl : a = b := by simpa [World.continues, World.truthy] using hcontinue
    exact ⟨hnull.elim id id, hnull.elim id id⟩
  · obtain ⟨rfl, -⟩ := hvalue
    simpa [World.continues, World.truthy] using hcontinue
  · obtain ⟨rfl, -⟩ := hvalue
    obtain rfl : a = b := by simpa [World.continues, World.truthy] using hcontinue
    exact ⟨hnull.elim id id, hnull.elim id id⟩

/-- Of a comparison with null, only the accesses of the operands are in the trace. -/
theorem eval_comparison {comparison : String} {left right : Node} {r : Option Value}
    (h : Eval world functions f σ (.node (.BinaryExpression comparison left right)) τ r) (hleft : Pure left)
    (hright : Pure right) (hoperator : comparison ∈ equalOperators ∨ comparison ∈ notEqualOperators)
    (hnull : ∀ a b, value world f σ left = some a → value world f σ right = some b →
      a.nullish = true ∨ b.nullish = true) :
    Quiet (max left.size right.size) τ ∧ ∀ v, r = some v → ∃ a b, value world f σ left = some a ∧
      value world f σ right = some b ∧ Compares comparison a b v [] := by
  cases h with
  | leftThrows hfirst =>
    obtain ⟨-, hquiet⟩ := eval_pure hfirst hleft
    exact ⟨hquiet.mono (Nat.le_max_left ..), nofun⟩
  | rightThrows hfirst hsecond =>
    obtain ⟨-, hquiet⟩ := eval_pure hfirst hleft
    obtain ⟨-, hquiet'⟩ := eval_pure hsecond hright
    exact ⟨(hquiet.mono (Nat.le_max_left ..)).append (hquiet'.mono (Nat.le_max_right ..)), nofun⟩
  | binary hfirst hsecond hcoerce hvalue =>
    obtain ⟨ha, hquiet⟩ := eval_pure hfirst hleft
    rw [hquiet.after_eq] at hsecond
    obtain ⟨hb, hquiet'⟩ := eval_pure hsecond hright
    obtain rfl := trace_of_compares hvalue (hnull _ _ ha.symm hb.symm) hoperator
    rw [List.append_nil]
    refine ⟨(hquiet.mono (Nat.le_max_left ..)).append (hquiet'.mono (Nat.le_max_right ..)), ?_⟩
    rintro v hv
    obtain rfl := Option.some.inj hv
    exact ⟨_, _, ha.symm, hb.symm, hvalue⟩

/-! ### Reports are right -/

theorem pure_of_isNull {n : Node} (h : isNull n = true) : Pure n ∧ n.size = 1 := by
  cases n with
  | Identifier | Literal => exact ⟨trivial, rfl⟩
  | _ => simp [isNull, isNullLiteral, isUndefined] at h

theorem nullish_of_isNull {n : Node} {x : Value} (h : isNull n = true)
    (hliteral : ∀ raw isNull, n = .Literal raw isNull → raw = "null")
    (hundeclared : ∀ name p, n = .Identifier name p → f p = none) (hx : value world f σ n = some x) :
    x.nullish = true := by
  cases n with
  | Identifier name p =>
    obtain rfl : name = "undefined" := by simpa [isNull, isNullLiteral, isUndefined] using h
    rw [value, readIdentifier, hundeclared _ p rfl] at hx
    obtain rfl := Option.some.inj hx
    rfl
  | Literal raw isNull =>
    obtain rfl := hliteral raw isNull rfl
    obtain rfl := Option.some.inj hx
    rw [world.literal_null]
    rfl
  | _ => simp [isNull, isNullLiteral, isUndefined] at h

/-- The accesses in the operands are no reported one: its object is as large as the operand. -/
theorem not_mem_of_quiet {e object property : Node} {computed isOptional : Bool} {w : Value}
    (hsize : e.size = object.size) (hquiet : Quiet e.size τ) :
    .accessed (.MemberExpression object property computed isOptional) g w ∉ τ := by
  intro hmem
  obtain ⟨_, _, _, heq, hle⟩ := hquiet _ hmem
  obtain ⟨rfl, -, -⟩ := Event.accessed.inj heq
  simp only [Node.size] at hle
  omega

theorem reported_nullish (hreported : (expr, access) ∈ reports program) (hplain : Plain program expr access)
    {r : Option Value} (heval : Eval world program.functions f σ (.node expr) τ r)
    (hsteady : Undisturbed program world f σ τ expr access) {w : Value} (hmem : .accessed access g w ∈ τ) :
    w.nullish = true := by
  obtain ⟨object, property, computed, haccess, hcheck⟩ := checked_of_visit [] program.root hreported
  change access = _ at haccess
  subst haccess
  obtain ⟨e, n, operator, comparison, left, right, rest, hcomparison⟩ :=
    exists_comparison (show Node.object (.MemberExpression object property computed false) = object from rfl) hcheck
  obtain ⟨rfl, hcompared, hnullOperand, hoperands, hisNull, hequivalent, hoperators⟩ := hcomparison
  have hpure := hplain.pure e hcompared
  obtain ⟨hpureNull, hsizeNull⟩ := pure_of_isNull hisNull
  have hnullish : ∀ x, value world f σ n = some x → x.nullish = true := fun x =>
    nullish_of_isNull hisNull (fun raw isNull hn => hplain.literal raw isNull (hn ▸ hnullOperand))
      (fun name p hn => hsteady.undeclared name p (hn ▸ hnullOperand))
  have hshape : SameShape e object := by
    obtain ⟨htype, htokens⟩ : e.type = object.type ∧ program.tokens e = program.tokens object := by
      exact of_decide_eq_true hequivalent
    exact program.determined e object hpure htype htokens
  have hpositive : 1 ≤ e.size := by cases e <;> simp [Node.size]
  have hleft : Pure left := by rcases hoperands with ⟨rfl, -⟩ | ⟨-, rfl⟩ <;> assumption
  have hright : Pure right := by rcases hoperands with ⟨-, rfl⟩ | ⟨rfl, -⟩ <;> assumption
  have hmax : max left.size right.size = e.size := by
    rcases hoperands with ⟨rfl, rfl⟩ | ⟨rfl, rfl⟩ <;> omega
  have hnull : ∀ a b, value world f σ left = some a → value world f σ right = some b →
      a.nullish = true ∨ b.nullish = true := by
    intro a b ha hb
    rcases hoperands with ⟨-, rfl⟩ | ⟨-, rfl⟩
    · exact .inr (hnullish b hb)
    · exact .inl (hnullish a ha)
  have hequality := hoperators.imp And.left And.left
  cases heval with
  | logicalThrows hfirst =>
    obtain ⟨hquiet, -⟩ := eval_comparison hfirst hleft hright hequality hnull
    exact absurd hmem (not_mem_of_quiet hshape.size_eq (hmax ▸ hquiet))
  | logicalLeft hfirst =>
    obtain ⟨hquiet, -⟩ := eval_comparison hfirst hleft hright hequality hnull
    exact absurd hmem (not_mem_of_quiet hshape.size_eq (hmax ▸ hquiet))
  | @logicalRight _ _ _ _ _ τ τ' v _ hfirst hcontinue hsecond =>
    obtain ⟨hquiet, hvalue⟩ := eval_comparison hfirst hleft hright hequality hnull
    rw [hmax] at hquiet
    rw [hquiet.after_eq] at hsecond
    obtain ⟨a, b, ha, hb, hcompares⟩ := hvalue v rfl
    obtain ⟨hanull, hbnull⟩ := nullish_of_compares hcompares (hnull a b ha hb) hoperators hcontinue
    obtain ⟨x, hx, hxnull⟩ : ∃ x, value world f σ e = some x ∧ x.nullish = true := by
      rcases hoperands with ⟨rfl, -⟩ | ⟨rfl, -⟩
      · exact ⟨a, ha, hanull⟩
      · exact ⟨b, hb, hbnull⟩
    -- the access is reached in the right operand, in a state where the operand has the same value
    have hlater := (List.mem_append.mp hmem).resolve_left (not_mem_of_quiet hshape.size_eq hquiet)
    obtain ⟨before, after', rfl⟩ := List.append_of_mem hlater
    obtain ⟨_, _, _, _, start, inside, heq, rfl, hobject⟩ := located hsecond before _ g w after' rfl
    obtain ⟨rfl, -, -, -⟩ := Node.MemberExpression.inj heq
    obtain ⟨hw, -⟩ := eval_pure hobject hshape.pure.2
    have hsame : value world g (after σ start) object = value world f σ e := by
      refine value_eq hshape (hsteady.bindings e g w hcompared hmem) fun l hl => ?_
      refine after_eq_of_not_written fun u hwrote => ?_
      refine hsteady.unwritten e (τ ++ (start ++ inside)) g w after' hcompared (by simp) l u ?_ hl
      exact List.mem_append_right _ (List.mem_append_left _ hwrote)
    rw [hsame, hx] at hw
    obtain rfl := Option.some.inj hw
    exact hxnull

end Reports

/-! ### Two programs -/

namespace Sample

def x (position : ℕ) : Node := .Identifier "x" position

def access : Node := .MemberExpression (x 1) (.Identifier "y" 2) false false

/-- `x == null && right` -/
def guarded (right : Node) : Program where
  toSource := prefixSource
  root := .LogicalExpression "&&" (.BinaryExpression "==" (x 0) (.Literal "null" true)) right
  functions := []

/-- `x = {}, x.y` -/
def assigned : Node :=
  .other "SequenceExpression" [.other "AssignmentExpression" [x 3, .other "ObjectExpression" []], access]

theorem mem_reports (right : Node) (h : right = access ∨ right = assigned) :
    ((guarded right).root, access) ∈ reports (guarded right) := by
  rcases h with rfl | rfl
  · exact List.mem_singleton_self _
  · exact List.mem_singleton_self _

/-- All objects are true, and each value is its own key. -/
def host : World where
  isTrue _ := true
  key v := v
  literal raw := if raw = "null" then .null else .string raw
  literal_null := rfl

/-- x has binding 0. -/
def frame : Frame := fun _ => some 0

def store : Store := fun _ => .null

theorem eval_x (σ : Store) (p : ℕ) :
    Eval host [] frame σ (.node (x p)) [] (some (σ (.binding 0))) :=
  .identifier frame σ "x" p

theorem eval_guarded {right : Node} {τ : List Event} {r : Option Value}
    (h : Eval host [] frame store (.node right) τ r) :
    Eval host [] frame store (.node (guarded right).root) τ r := by
  have hcomparison : Eval host [] frame store (.node (.BinaryExpression "==" (x 0) (.Literal "null" true))) []
      (some (.boolean true)) :=
    .binary (eval_x store 0) (.literal frame store "null" true) (.done frame store []) fun _ => ⟨rfl, rfl⟩
  exact .logicalRight hcomparison rfl h

end Sample

theorem reported_nullish_guarded : ∃ τ, Eval Sample.host [] Sample.frame Sample.store
    (.node (Sample.guarded Sample.access).root) τ none ∧ ∀ g w, .accessed Sample.access g w ∈ τ → w.nullish = true := by
  refine ⟨_, Sample.eval_guarded (.named (Sample.eval_x Sample.store 1)), fun g w hmem => ?_⟩
  refine reported_nullish (Sample.mem_reports _ (.inl rfl)) ⟨?_, ?_⟩
    (Sample.eval_guarded (.named (Sample.eval_x Sample.store 1))) ⟨?_, ?_, ?_⟩ hmem
  · rintro e he
    obtain rfl := Option.some.inj he
    trivial
  · rintro raw isNull hn
    obtain ⟨rfl, -⟩ := Node.Literal.inj (Option.some.inj hn)
    rfl
  · rintro name p hn
    cases hn
  · rintro e g' w' he hmem'
    obtain rfl := Option.some.inj he
    obtain ⟨-, rfl, -⟩ := Event.accessed.inj (List.mem_singleton.mp hmem')
    rfl
  · rintro e before g' w' rest he hsplit l v hwrote
    cases before with
    | nil => cases hwrote
    | cons => simp at hsplit

/-- `x == null && (x = {}, x.y)` is reported. -/
theorem assigned_not_sound : ¬ Sound (Sample.guarded Sample.assigned) := by
  intro h
  have hassign : Eval Sample.host [] Sample.frame Sample.store
      (.node (.other "AssignmentExpression" [Sample.x 3, .other "ObjectExpression" []]))
      [.wrote (.binding 0) (.other 1)] (some (.other 1)) :=
    .other _ (.write _ _ (.done ..))
  have haccess : Eval Sample.host [] Sample.frame (after Sample.store [.wrote (.binding 0) (.other 1)])
      (.node Sample.access) ([] ++ [.accessed Sample.access Sample.frame (.other 1)]) _ :=
    .named (Sample.eval_x _ 1)
  have heval := Sample.eval_guarded (.other none
    (.part (by simp) hassign (.part (by simp) haccess (.done ..))) : Eval Sample.host [] Sample.frame Sample.store
      (.node Sample.assigned) _ none)
  exact absurd (h _ _ (Sample.mem_reports _ (.inr rfl)) _ _ _ _ _ heval Sample.frame (.other 1) (by simp)) (by decide)

end SonarJavascript.Rules.ShortCircuitNull
