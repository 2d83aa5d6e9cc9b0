import Mathlib.Algebra.Order.Ring.Rat
import Mathlib.Tactic.Linarith
import Mathlib.Tactic.LinearCombination
import Mathlib.Tactic.Ring
import SonarJavascript.Rules.InvariantReturns

/-!
# Loops that end at a value

S888 reports a loop whose condition compares the counter with `!=`, but not one that counts by one from a number
towards another. It looks at the sign of the difference only, so that the counter can miss the end, and at the numbers
of the initialisation without its variable. `becomesFalse_iff` says which of these loops end.
-/

namespace SonarJavascript.Rules.EqualityInFor

open InvariantReturns (Number)

/-! ### The rule -/

inductive LiteralValue
  | number (value : Number)
  | other

inductive Node
  | Identifier (name : String)
  | Literal (value : LiteralValue)
  | BinaryExpression (left : Node) (operator : String) (right : Node)
  | AssignmentExpression (left : Node) (operator : String) (right : Node)
  | UpdateExpression (operator : String) (argument : Node)
  | SequenceExpression (expressions : List Node)
  | VariableDeclaration (kind : String) (declarations : List (Node × Option Node))
  | other (type : String)

structure ForStatement where
  init : Option Node
  test : Option Node
  update : Option Node
  bodyRange : ℕ × ℕ

/-- The ranges of the references to a variable, where there is one of the name. -/
structure Context where
  getVariableFromName : String → Option (List (ℕ × ℕ))

/-- How the result of an addition becomes a double, where there is no overflow. -/
structure Doubles where
  Representable : ℚ → Prop
  round : ℚ → ℚ
  representable_round : ∀ q, Representable (round q)
  round_eq : ∀ {q}, Representable q → round q = q
  round_mono : ∀ {q r}, q ≤ r → round q ≤ round r
  representable_zero : Representable 0

def allEqualityOperators : List String := ["!=", "==", "!==", "==="]
def notEqualOperators : List String := ["!==", "!="]
def plusMinusOperators : List String := ["+=", "-="]

def isEquality : Node → Bool
  | .BinaryExpression _ operator _ => operator ∈ allEqualityOperators
  | _ => false

def isIncDec : Node → Bool
  | .AssignmentExpression _ operator _ => operator ∈ plusMinusOperators
  | _ => false

mutual

def isUpdateIncDec : Node → Bool
  | .AssignmentExpression _ operator _ => operator ∈ plusMinusOperators
  | .UpdateExpression _ _ => true
  | .SequenceExpression expressions => everyUpdateIncDec expressions
  | _ => false

def everyUpdateIncDec : List Node → Bool
  | [] => true
  | expression :: expressions => isUpdateIncDec expression && everyUpdateIncDec expressions

end

def counterOf : Node → List String
  | .Identifier name => [name]
  | _ => []

mutual

def collectCounters : Node → List String
  | .AssignmentExpression left operator _ => if operator ∈ plusMinusOperators then counterOf left else []
  | .UpdateExpression _ argument => counterOf argument
  | .SequenceExpression expressions => collectAllCounters expressions
  | _ => []

def collectAllCounters : List Node → List String
  | [] => []
  | expression :: expressions => collectCounters expression ++ collectAllCounters expressions

end

def isNontrivialConditionException (test update : Node) : Bool :=
  match test with
  | .BinaryExpression (.Identifier name) _ _ => name ∉ collectCounters update
  | _ => true

def isNotEqual : Node → Bool
  | .BinaryExpression _ operator _ => operator ∈ notEqualOperators
  | _ => false

def isInBody (range bodyRange : ℕ × ℕ) : Bool := range.1 > bodyRange.1 ∧ range.2 < bodyRange.2

def isUsedInsideBody (context : Context) (id : Node) (bodyRange : ℕ × ℕ) : Bool :=
  match id with
  | .Identifier name => (context.getVariableFromName name).any fun references => references.any (isInBody · bodyRange)
  | _ => false

def isUpdateOnOneWithAssign : Node → Bool
  | .AssignmentExpression _ operator (.Literal (.number value)) =>
    operator ∈ plusMinusOperators && value = .finite 1
  | _ => false

def isUpdateByOne (context : Context) (update : Node) (bodyRange : ℕ × ℕ) : Bool :=
  match update with
  | .UpdateExpression _ argument => !isUsedInsideBody context argument bodyRange
  | .AssignmentExpression left _ _ =>
    isUpdateOnOneWithAssign update && !isUsedInsideBody context left bodyRange
  | _ => false

def operatorOf : Node → String
  | .UpdateExpression operator _ => operator
  | .AssignmentExpression _ operator _ => operator
  | _ => ""

def checkForUpdateByOne (context : Context) (update : Node) (bodyRange : ℕ × ℕ) : ℤ :=
  if isUpdateByOne context update bodyRange then
    if operatorOf update = "++" ∨ operatorOf update = "+=" then 1
    else if operatorOf update = "--" ∨ operatorOf update = "-=" then -1
    else 0
  else 0

def getInteger : Option Node → Option Number
  | some (.Literal (.number value)) => some value
  | _ => none

def getValue : Node → Option Number
  | .BinaryExpression _ operator right => if operator ∈ notEqualOperators then getInteger (some right) else none
  | .VariableDeclaration _ [(_, init)] => getInteger init
  | .AssignmentExpression _ _ right => getInteger (some right)
  | _ => none

def sign (q : ℚ) : ℤ := if 0 < q then 1 else if q < 0 then -1 else 0

/-- `Math.sign(endValue - beginValue)`. The value of a literal is not negative, but it can be too large for a double. -/
def signOfDifference (doubles : Doubles) : Number → Number → Option ℤ
  | .finite endValue, .finite beginValue => some (sign (doubles.round (endValue - beginValue)))
  | .infinity _, .finite _ => some 1
  | .finite _, .infinity _ => some (-1)
  | _, _ => none

def isTrivialIteratorException (doubles : Doubles) (context : Context) (init : Option Node) (test update : Node)
    (bodyRange : ℕ × ℕ) : Bool :=
  match init with
  | none => false
  | some init =>
    if isNotEqual test then
      let updatedByOne := checkForUpdateByOne context update bodyRange
      if updatedByOne ≠ 0 then
        match getValue init, getValue test with
        | some beginValue, some endValue => signOfDifference doubles endValue beginValue = some updatedByOne
        | _, _ => false
      else false
    else false

/-- The loop is not reported for this reason only. -/
def grantsException (doubles : Doubles) (context : Context) (statement : ForStatement) : Bool :=
  match statement.test, statement.update with
  | some test, some update =>
    isEquality test && isUpdateIncDec update && !isNontrivialConditionException test update &&
      isTrivialIteratorException doubles context statement.init test update statement.bodyRange
  | _, _ => false

/-! ### Running the loop -/

/-- The values of the variables. -/
abbrev Environment := String → Number

/-- The variable that the initialisation sets to the value of a literal, and whether it is a constant. -/
def initialised : Node → Option (String × Number × Bool)
  | .VariableDeclaration kind [(.Identifier name, some (.Literal (.number value)))] => some (name, value, kind = "const")
  | .AssignmentExpression (.Identifier name) "=" (.Literal (.number value)) => some (name, value, false)
  | _ => none

def addStep (doubles : Doubles) (step : ℤ) : Number → Number
  | .finite value => .finite (doubles.round (value + step))
  | .negativeZero => .finite (doubles.round step)
  | .NaN => .NaN
  | .infinity isNegative => .infinity isNegative

/-- The variable that the update counts, and by how much. -/
def counted : Node → Option (String × ℤ)
  | .UpdateExpression operator (.Identifier name) =>
    some (name, if operator = "++" ∨ operator = "+=" then 1 else -1)
  | .AssignmentExpression (.Identifier name) operator (.Literal (.number (.finite value))) =>
    if value = 1 then some (name, if operator = "++" ∨ operator = "+=" then 1 else -1) else none
  | _ => none

/-- A loop over a variable that the rule has read off a statement. -/
structure Loop where
  /-- What the initialisation sets. -/
  initName : String
  beginValue : Number
  isConst : Bool
  /-- What the condition compares and the update counts. -/
  name : String
  endValue : Number
  step : ℤ

/-- The statement as a loop, when its initialisation sets a variable. -/
def loopOf (statement : ForStatement) : Option Loop :=
  match statement.init.bind initialised, statement.test, statement.update.bind counted with
  | some (initName, beginValue, isConst), some (.BinaryExpression (.Identifier name) _ (.Literal (.number endValue))),
      some (counter, step) =>
    if counter = name then some ⟨initName, beginValue, isConst, name, endValue, step⟩ else none
  | _, _, _ => none

namespace Loop

variable (loop : Loop) (doubles : Doubles)

def start (environment : Environment) : Environment := Function.update environment loop.initName loop.beginValue

/-- The body and the update, which throws for a constant. -/
def iteration (body : Environment → Environment) (environment : Environment) : Option Environment :=
  if loop.isConst ∧ loop.initName = loop.name then none
  else
    let environment := body environment
    some (Function.update environment loop.name (addStep doubles loop.step (environment loop.name)))

def iterations (body : Environment → Environment) : ℕ → Environment → Option Environment
  | 0, environment => some environment
  | n + 1, environment => (loop.iteration doubles body environment).bind (iterations body n)

/-- Whatever the variables are, and whatever the body does to the other ones. -/
def BecomesFalse : Prop :=
  ∀ body : Environment → Environment, (∀ environment, body environment loop.name = environment loop.name) →
    ∀ environment, ∃ n last, loop.iterations doubles body n (loop.start environment) = some last ∧
      (last loop.name).strictEquals loop.endValue = true

end Loop

/-! ### What the exception says about the loop -/

section Exception

variable {doubles : Doubles} {context : Context} {statement : ForStatement} {loop : Loop} {bodyRange : ℕ × ℕ}
  {test update : Node}

theorem mem_counterOf {name : String} {node : Node} (h : name ∈ counterOf node) : node = .Identifier name := by
  cases node with
  | Identifier name' =>
    obtain rfl := List.mem_singleton.mp h
    rfl
  | _ => cases h

/-- The sign that the code gives an update by one. -/
theorem checkForUpdateByOne_eq (h : isUpdateByOne context update bodyRange = true)
    (hne : checkForUpdateByOne context update bodyRange ≠ 0) :
    checkForUpdateByOne context update bodyRange =
        (if operatorOf update = "++" ∨ operatorOf update = "+=" then 1 else -1) ∧
      (checkForUpdateByOne context update bodyRange = 1 ∨ checkForUpdateByOne context update bodyRange = -1) := by
  rw [checkForUpdateByOne, if_pos h] at hne ⊢
  split_ifs at hne ⊢ with hplus hminus
  · exact ⟨rfl, Or.inl rfl⟩
  · exact ⟨rfl, Or.inr rfl⟩
  · exact absurd rfl hne

theorem isUpdateByOne_of_ne_zero (hne : checkForUpdateByOne context update bodyRange ≠ 0) :
    isUpdateByOne context update bodyRange = true := by
  rw [checkForUpdateByOne] at hne
  split_ifs at hne with hone
  · exact hone
  · exact hone
  · exact absurd rfl hne
  · exact absurd rfl hne

theorem counted_eq {name : String} (hcounter : name ∈ collectCounters update)
    (hne : checkForUpdateByOne context update bodyRange ≠ 0) :
    counted update = some (name, checkForUpdateByOne context update bodyRange) := by
  have hone := isUpdateByOne_of_ne_zero hne
  rw [(checkForUpdateByOne_eq hone hne).1]
  cases update with
  | UpdateExpression operator argument =>
    rw [collectCounters] at hcounter
    obtain rfl := mem_counterOf hcounter
    rfl
  | AssignmentExpression left operator right =>
    have hleft : name ∈ counterOf left := by
      rw [collectCounters] at hcounter
      split_ifs at hcounter
      · exact hcounter
      · cases hcounter
    obtain rfl := mem_counterOf hleft
    obtain ⟨hassign, -⟩ := Bool.and_eq_true_iff.mp hone
    cases right with
    | Literal value =>
      cases value with
      | number value =>
        obtain rfl : value = .finite 1 := of_decide_eq_true (Bool.and_eq_true_iff.mp hassign).2
        rfl
      | other => cases hassign
    | _ => cases hassign
  | _ => cases hone

theorem getValue_of_initialised {init : Node} {name : String} {value : Number} {isConst : Bool}
    (h : initialised init = some (name, value, isConst)) : getValue init = some value := by
  unfold initialised at h
  split at h
  · cases h
    rfl
  · cases h
    rfl
  · cases h

theorem granted_cases (h : grantsException doubles context statement = true) : ∃ init test update,
    statement.init = some init ∧ statement.test = some test ∧ statement.update = some update ∧
      isNontrivialConditionException test update = false ∧
      checkForUpdateByOne context update statement.bodyRange ≠ 0 ∧
      ∃ beginValue endValue, getValue init = some beginValue ∧ getValue test = some endValue ∧
        signOfDifference doubles endValue beginValue =
          some (checkForUpdateByOne context update statement.bodyRange) := by
  rw [grantsException] at h
  split at h
  · rename_i test update htest hupdate
    simp only [Bool.and_eq_true, Bool.not_eq_true'] at h
    obtain ⟨⟨-, hnontrivial⟩, htrivial⟩ := h
    unfold isTrivialIteratorException at htrivial
    split at htrivial
    · cases htrivial
    · rename_i init hinit
      dsimp only at htrivial
      split_ifs at htrivial with hnotEqual hne
      split at htrivial
      · rename_i beginValue endValue hbegin hend
        exact ⟨init, test, update, hinit, htest, hupdate, hnontrivial, hne, beginValue, endValue, hbegin, hend,
          of_decide_eq_true htrivial⟩
      · cases htrivial
  · cases h

/-- A loop whose initialisation sets a variable to a number compares the variable that it counts. -/
theorem exists_loop (h : grantsException doubles context statement = true) {initName : String} {beginValue : Number}
    {isConst : Bool} (hinit : statement.init.bind initialised = some (initName, beginValue, isConst)) :
    ∃ loop, loopOf statement = some loop ∧ loop.initName = initName ∧ loop.beginValue = beginValue ∧
      loop.isConst = isConst ∧ signOfDifference doubles loop.endValue loop.beginValue = some loop.step ∧
      (loop.step = 1 ∨ loop.step = -1) := by
  obtain ⟨init, test, update, hinit', htest, hupdate, hnontrivial, hne, beginValue', endValue, hbegin, hend, hsign⟩ :=
    granted_cases h
  rw [hinit', Option.bind_some] at hinit
  obtain rfl : beginValue = beginValue' := Option.some.inj ((getValue_of_initialised hinit).symm.trans hbegin)
  have hstep := (checkForUpdateByOne_eq (isUpdateByOne_of_ne_zero hne) hne).2
  cases test with
  | BinaryExpression left operator right =>
    cases left with
    | Identifier name =>
      have hcounter : name ∈ collectCounters update := by
        simpa [isNontrivialConditionException] using hnontrivial
      have hright : right = .Literal (.number endValue) := by
        rw [getValue] at hend
        split_ifs at hend
        unfold getInteger at hend
        split at hend
        · rename_i value heq
          cases heq
          cases hend
          rfl
        · cases hend
      subst hright
      refine ⟨⟨initName, beginValue, isConst, name, endValue, _⟩, ?_, rfl, rfl, rfl, hsign, hstep⟩
      rw [loopOf, hinit', Option.bind_some, hinit, htest, hupdate, Option.bind_some, counted_eq hcounter hne]
      exact if_pos rfl
    | _ => cases hnontrivial
  | _ => cases hnontrivial

theorem step_of_granted (h : grantsException doubles context statement = true) (hloop : loopOf statement = some loop) :
    signOfDifference doubles loop.endValue loop.beginValue = some loop.step ∧ (loop.step = 1 ∨ loop.step = -1) := by
  have hinit : ∃ initName beginValue isConst,
      statement.init.bind initialised = some (initName, beginValue, isConst) := by
    cases hinit : statement.init.bind initialised with
    | none =>
      rw [loopOf, hinit] at hloop
      cases hloop
    | some initial => exact ⟨initial.1, initial.2.1, initial.2.2, rfl⟩
  obtain ⟨initName, beginValue, isConst, hinit⟩ := hinit
  obtain ⟨loop', hloop', -, -, -, hsign⟩ := exists_loop h hinit
  obtain rfl := Option.some.inj (hloop.symm.trans hloop')
  exact hsign

end Exception

/-! ### Which loops end -/

section Runs

variable {doubles : Doubles} {context : Context} {statement : ForStatement} {loop : Loop} {n : ℕ} {b e x : ℚ}
  {body : Environment → Environment} {environment last : Environment}

/-- The initialisation sets the variable of the condition, the end is some steps behind the begin, and none of the
numbers up to there is rounded. -/
def Loop.Counts (doubles : Doubles) (loop : Loop) (b e : ℚ) : Prop :=
  loop.initName = loop.name ∧ loop.isConst = false ∧
    ∃ n : ℕ, e = b + loop.step * n ∧ ∀ k ≤ n, doubles.Representable (b + loop.step * k)

/-- In a loop that is not over a constant. -/
theorem exists_iterations (hconst : ¬ (loop.isConst = true ∧ loop.initName = loop.name))
    (hbody : ∀ environment, body environment loop.name = environment loop.name) (n : ℕ) (environment : Environment) :
    ∃ last, loop.iterations doubles body n environment = some last ∧
      last loop.name = (addStep doubles loop.step)^[n] (environment loop.name) := by
  induction n generalizing environment with
  | zero => exact ⟨environment, rfl, rfl⟩
  | succ n ih =>
    obtain ⟨last, hlast, hvalue⟩ := ih
      (Function.update (body environment) loop.name (addStep doubles loop.step (body environment loop.name)))
    refine ⟨last, ?_, ?_⟩
    · rw [Loop.iterations, Loop.iteration, if_neg hconst, Option.bind_some]
      exact hlast
    · rw [hvalue, Function.update_self, hbody, Function.iterate_succ_apply]

theorem iterate_addStep (step : ℤ) (h : ∀ k ≤ n, doubles.Representable (x + step * k)) :
    (addStep doubles step)^[n] (.finite x) = .finite (x + step * n) := by
  induction n with
  | zero => simp
  | succ n ih =>
    rw [Function.iterate_succ_apply', ih fun k hk => h k (by omega), addStep]
    have hnext : x + step * n + step = x + step * (n + 1 : ℕ) := by
      push_cast
      ring
    rw [hnext, doubles.round_eq (h (n + 1) (le_refl _))]

theorem strictEquals_finite : (Number.finite x).strictEquals (.finite e) = true ↔ x = e := by
  simp [Number.strictEquals]

theorem becomesFalse_of_counts (hbegin : loop.beginValue = .finite b) (hend : loop.endValue = .finite e)
    (h : loop.Counts doubles b e) : loop.BecomesFalse doubles := by
  obtain ⟨hname, hconst, n, hn, hrepresentable⟩ := h
  intro body hbody environment
  obtain ⟨last, hlast, hvalue⟩ := @exists_iterations doubles loop body (by simp [hconst]) hbody n
    (loop.start environment)
  refine ⟨n, last, hlast, ?_⟩
  have hstart : loop.start environment loop.name = .finite b := by
    rw [Loop.start, hname, Function.update_self, hbegin]
  rw [hvalue, hstart, iterate_addStep loop.step hrepresentable, hend, strictEquals_finite, hn]

/-- On the way to the end no number is rounded, and behind the end there is no way back. -/
theorem not_reached {step : ℤ} (hstep : step = 1 ∨ step = -1) (hahead : 0 < step * (e - b))
    (hrepresentable : ∀ k : ℕ, (k : ℚ) ≤ step * (e - b) + 1 → doubles.Representable (b + step * k))
    (hnot : ∀ n : ℕ, e ≠ b + step * n) (n : ℕ) :
    ∃ x, (addStep doubles step)^[n] (.finite b) = .finite x ∧ doubles.Representable x ∧
      (x = b + step * n ∧ 0 < step * (e - x) ∨ 0 < step * (x - e)) := by
  induction n with
  | zero =>
    refine ⟨b, rfl, ?_, Or.inl ⟨by simp, hahead⟩⟩
    have hb := hrepresentable 0 (by push_cast; linarith)
    simpa using hb
  | succ n ih =>
    obtain ⟨x, hx, hxrepresentable, hcase⟩ := ih
    refine ⟨doubles.round (x + step), ?_, doubles.representable_round _, ?_⟩
    · rw [Function.iterate_succ_apply', hx]
      rfl
    · have hsquare : (step : ℚ) * step = 1 := by rcases hstep with rfl | rfl <;> norm_num
      rcases hcase with ⟨rfl, hless⟩ | hbeyond
      · have hcount : (step : ℚ) * (e - (b + step * n)) = step * (e - b) - n := by
          linear_combination (-(n : ℚ)) * hsquare
        have hnext : b + (step : ℚ) * n + step = b + step * (n + 1 : ℕ) := by
          push_cast
          ring
        have hle : ((n + 1 : ℕ) : ℚ) ≤ step * (e - b) + 1 := by
          push_cast
          linarith
        rw [hnext, doubles.round_eq (hrepresentable (n + 1) hle)]
        rcases lt_trichotomy 0 ((step : ℚ) * (e - (b + step * (n + 1 : ℕ)))) with hpos | hzero | hneg
        · exact Or.inl ⟨rfl, hpos⟩
        · refine absurd ?_ (hnot (n + 1))
          linear_combination (-(step : ℚ)) * hzero - (e - (b + step * (n + 1 : ℕ))) * hsquare
        · exact Or.inr (by linarith)
      · -- the next number is at least as far
        right
        have hround := doubles.round_eq hxrepresentable
        rcases hstep with rfl | rfl
        · have hmono := @Doubles.round_mono doubles x (x + (1 : ℤ)) (by push_cast; linarith)
          rw [hround] at hmono
          push_cast at hbeyond hmono ⊢
          linarith
        · have hmono := @Doubles.round_mono doubles (x + (-1 : ℤ)) x (by push_cast; linarith)
          rw [hround] at hmono
          push_cast at hbeyond hmono ⊢
          linarith

theorem sign_eq_one {q : ℚ} (h : sign q = 1) : 0 < q := by
  by_contra hnot
  rw [sign, if_neg hnot] at h
  split_ifs at h
  cases h

theorem sign_eq_neg_one {q : ℚ} (h : sign q = -1) : q < 0 := by
  by_contra hnot
  rw [sign, if_neg hnot] at h
  split_ifs at h

theorem ahead_of_sign {step : ℤ} (hstep : step = 1 ∨ step = -1)
    (hsign : signOfDifference doubles (.finite e) (.finite b) = some step) : 0 < step * (e - b) := by
  have hzero : doubles.round 0 = 0 := doubles.round_eq doubles.representable_zero
  have hround := Option.some.inj hsign
  rcases hstep with rfl | rfl
  · by_contra hnot
    have hmono := @Doubles.round_mono doubles (e - b) 0 (by push_cast at hnot; linarith)
    have hpos := sign_eq_one hround
    linarith
  · by_contra hnot
    have hmono := @Doubles.round_mono doubles 0 (e - b) (by push_cast at hnot; linarith)
    have hneg := sign_eq_neg_one hround
    linarith

/-- A loop that is granted the exception ends if it counts from the begin to the end. Without rounding on the way, it
ends in no other case. -/
theorem becomesFalse_iff (hgranted : grantsException doubles context statement = true)
    (hloop : loopOf statement = some loop) (hbegin : loop.beginValue = .finite b) (hend : loop.endValue = .finite e) :
    (loop.Counts doubles b e → loop.BecomesFalse doubles) ∧
    ((∀ k : ℕ, (k : ℚ) ≤ |e - b| + 1 → doubles.Representable (b + loop.step * k)) →
      (loop.BecomesFalse doubles ↔ loop.Counts doubles b e)) := by
  obtain ⟨hsign, hstep⟩ := step_of_granted hgranted hloop
  rw [hbegin, hend] at hsign
  have hahead := ahead_of_sign hstep hsign
  have hcounts : loop.Counts doubles b e → loop.BecomesFalse doubles := becomesFalse_of_counts hbegin hend
  refine ⟨hcounts, fun hrepresentable => ⟨fun hfalse => ?_, hcounts⟩⟩
  have habs : |e - b| = loop.step * (e - b) := by
    rcases hstep with heq | heq
    · rw [heq] at hahead ⊢
      push_cast at hahead ⊢
      rw [abs_of_pos (by linarith), one_mul]
    · rw [heq] at hahead ⊢
      push_cast at hahead ⊢
      rw [abs_of_neg (by linarith)]
      ring
  rw [habs] at hrepresentable
  have hname : loop.initName = loop.name := by
    -- another variable can hold what is not a number
    by_contra hne
    obtain ⟨n, last, hlast, hequal⟩ := hfalse id (fun _ => rfl) fun _ => .NaN
    obtain ⟨last', hlast', hvalue⟩ := @exists_iterations doubles loop id (fun h => hne h.2) (fun _ => rfl) n
      (loop.start fun _ => .NaN)
    obtain rfl := Option.some.inj (hlast.symm.trans hlast')
    have hNaN : (addStep doubles loop.step)^[n] .NaN = .NaN := Function.iterate_fixed rfl n
    rw [hvalue, Loop.start, Function.update_of_ne (Ne.symm hne), hNaN] at hequal
    cases hequal
  have hstart (environment : Environment) : loop.start environment loop.name = .finite b := by
    rw [Loop.start, hname, Function.update_self, hbegin]
  have hconst : loop.isConst = false := by
    by_contra hconst
    obtain ⟨n, last, hlast, hequal⟩ := hfalse id (fun _ => rfl) fun _ => .NaN
    cases n with
    | zero =>
      obtain rfl := Option.some.inj hlast
      rw [hstart, hend, strictEquals_finite] at hequal
      rw [hequal, sub_self, mul_zero] at hahead
      exact lt_irrefl 0 hahead
    | succ n =>
      rw [Loop.iterations, Loop.iteration, if_pos ⟨by simpa using hconst, hname⟩] at hlast
      cases hlast
  obtain ⟨n, last, hlast, hequal⟩ := hfalse id (fun _ => rfl) fun _ => .NaN
  obtain ⟨last', hlast', hvalue⟩ := @exists_iterations doubles loop id (by simp [hconst]) (fun _ => rfl) n
    (loop.start fun _ => .NaN)
  obtain rfl := Option.some.inj (hlast.symm.trans hlast')
  rw [hvalue, hstart, hend] at hequal
  have hinteger : ∃ n : ℕ, e = b + loop.step * n := by
    by_contra hnot
    obtain ⟨x, hx, -, hcase⟩ := not_reached hstep hahead hrepresentable (fun n heq => hnot ⟨n, heq⟩) n
    rw [hx, strictEquals_finite] at hequal
    rw [hequal] at hcase
    rcases hcase with ⟨-, hpos⟩ | hpos
    · rw [sub_self, mul_zero] at hpos
      exact lt_irrefl 0 hpos
    · rw [sub_self, mul_zero] at hpos
      exact lt_irrefl 0 hpos
  obtain ⟨m, hm⟩ := hinteger
  refine ⟨hname, hconst, m, hm, fun k hk => hrepresentable k ?_⟩
  have hsquare : (loop.step : ℚ) * loop.step = 1 := by rcases hstep with heq | heq <;> rw [heq] <;> norm_num
  have hcount : (loop.step : ℚ) * (e - b) = m := by
    rw [hm]
    linear_combination (m : ℚ) * hsquare
  have hle : (k : ℚ) ≤ m := by exact_mod_cast hk
  linarith

end Runs

/-! ### Counting to three, and counting another variable -/

/-- Without rounding, as among small integers. -/
def exactDoubles : Doubles where
  Representable _ := True
  round := id
  representable_round _ := trivial
  round_eq _ := rfl
  round_mono := id
  representable_zero := trivial

/-- `for (let initName = 0; name != end; name++)` with a body without references. -/
def countingTo (initName name : String) (endValue : ℚ) : ForStatement where
  init := some (.VariableDeclaration "let" [(.Identifier initName, some (.Literal (.number (.finite 0))))])
  test := some (.BinaryExpression (.Identifier name) "!=" (.Literal (.number (.finite endValue))))
  update := some (.UpdateExpression "++" (.Identifier name))
  bodyRange := (0, 0)

theorem granted_countingTo {initName name : String} {endValue : ℚ} (h : 0 < endValue) :
    grantsException exactDoubles ⟨fun _ => none⟩ (countingTo initName name endValue) = true := by
  simp [grantsException, countingTo, isEquality, isUpdateIncDec, isNontrivialConditionException, collectCounters,
    counterOf, isTrivialIteratorException, isNotEqual, checkForUpdateByOne, isUpdateByOne, isUsedInsideBody,
    operatorOf, getValue, getInteger, signOfDifference, sign, exactDoubles, allEqualityOperators, notEqualOperators, h]

theorem becomesFalse_three :
    Loop.BecomesFalse ⟨"i", .finite 0, false, "i", .finite 3, 1⟩ exactDoubles := by
  have hgranted := @granted_countingTo "i" "i" 3 (by norm_num)
  exact (becomesFalse_iff hgranted rfl rfl rfl).1 ⟨rfl, rfl, 3, by norm_num, fun _ _ => trivial⟩

/-- `for (let i = 0; j != 10; j++)` where `j` is not a number. -/
theorem other_variable_not_counted :
    ¬ ∀ (doubles : Doubles) (context : Context) (statement : ForStatement) (loop : Loop) (b e : ℚ),
      grantsException doubles context statement = true → loopOf statement = some loop →
      loop.beginValue = .finite b → loop.endValue = .finite e →
      doubles.Representable b → doubles.Representable e → loop.BecomesFalse doubles := by
  intro h
  have hgranted := @granted_countingTo "i" "j" 10 (by norm_num)
  obtain ⟨n, last, hlast, hequal⟩ := h exactDoubles _ _ _ 0 10 hgranted rfl rfl rfl trivial trivial id (fun _ => rfl)
    fun _ => .NaN
  obtain ⟨last', hlast', hvalue⟩ := @exists_iterations exactDoubles ⟨"i", .finite 0, false, "j", .finite 10, 1⟩ id
    (by decide) (fun _ => rfl) n (Loop.start ⟨"i", .finite 0, false, "j", .finite 10, 1⟩ fun _ => .NaN)
  obtain rfl := Option.some.inj (hlast.symm.trans hlast')
  have hNaN : (addStep exactDoubles 1)^[n] .NaN = .NaN := Function.iterate_fixed rfl n
  rw [hvalue, Loop.start, Function.update_of_ne (by decide), hNaN] at hequal
  cases hequal

end SonarJavascript.Rules.EqualityInFor
