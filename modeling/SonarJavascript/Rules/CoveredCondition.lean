import Mathlib.Data.List.Basic

/-!
# S1862: conditions covered by an earlier link of the chain

The `IfStatement` visitor splits the test of a link into alternatives of conjuncts, walks up the
`else if` chain and drops the alternatives that the test of an earlier link covers; when none is left
the link is reported. An alternative is dropped because it implies the earlier test, so it is false
where that test is (`Covers`), and a test, or one of its conjuncts, without alternatives is false.
-/

namespace SonarJavascript.Rules.S1862

inductive LogicalOperator
  | or
  | and
  | nullish
  deriving DecidableEq

/-- An expression with the tokens of its source text. All node types but `LogicalExpression` are
`other`. -/
inductive Expression
  | logical (operator : LogicalOperator) (left right : Expression) (tokens : List String)
  | other (type : String) (tokens : List String)
  deriving DecidableEq

namespace Expression

def type : Expression → String
  | logical .. => "LogicalExpression"
  | other type _ => type

def tokens : Expression → List String
  | logical _ _ _ tokens => tokens
  | other _ tokens => tokens

end Expression

open Expression

/-! ### The rule -/

/-- `areEquivalent` of two nodes: the same type and the same token values. -/
def areEquivalent (first second : Expression) : Bool :=
  first.type = second.type && first.tokens = second.tokens

def splitByLogicalOperator (operator : LogicalOperator) : Expression → List Expression
  | .logical op left right tokens =>
    if op = operator then splitByLogicalOperator operator left ++ splitByLogicalOperator operator right
    else [.logical op left right tokens]
  | .other type tokens => [.other type tokens]

def splitByOr : Expression → List Expression := splitByLogicalOperator .or

def splitByAnd : Expression → List Expression := splitByLogicalOperator .and

def isSubsetOf : Expression → Expression → Bool
  | .logical op left right tokens, .logical op₂ left₂ right₂ tokens₂ =>
    if (op = .or ∨ op = .and) ∧ op = op₂ then
      (isSubsetOf left left₂ && isSubsetOf right right₂) || (isSubsetOf left right₂ && isSubsetOf right left₂)
    else areEquivalent (.logical op left right tokens) (.logical op₂ left₂ right₂ tokens₂)
  | first, second => if first.type ≠ second.type then false else areEquivalent first second

def isSubset (first second : List Expression) : Bool := first.all fun fst => second.any fun snd => isSubsetOf fst snd

/-- The parent of a statement: an `if` statement, of which it is the alternate or not, or another
node. -/
inductive Parent
  | ifStatement (test : Expression) (isAlternate : Bool)
  | other

def conditionsToCheck (test : Expression) : List Expression :=
  match test with
  | .logical .and .. => test :: splitByAnd test
  | _ => [test]

/-- One alternative is a list of conjuncts. -/
def orOperands (condition : Expression) : List (List Expression) := (splitByOr condition).map splitByAnd

def dropCovered (currentTest : Expression) (operandsToCheck : List (List (List Expression))) :
    List (List (List Expression)) :=
  operandsToCheck.map fun operands => operands.filter fun orOperand =>
    !(orOperands currentTest).any fun currentOrOperand => isSubset currentOrOperand orOperand

/-- The `while` loop up the chain, and the test of the link that covers the one checked. -/
def findCovering : List (List (List Expression)) → List Parent → Option Expression
  | operandsToCheck, .ifStatement test true :: parents =>
    if (dropCovered test operandsToCheck).any List.isEmpty then some test
    else findCovering (dropCovered test operandsToCheck) parents
  | _, _ => none

/-- The visitor of an `if` statement with its parents, innermost first: the covering test when the
statement is reported. -/
def ifStatement (test : Expression) (parents : List Parent) : Option Expression :=
  findCovering ((conditionsToCheck test).map orOperands) parents

/-! ### Assignments of truth values -/

/-- The expression and the operands of its logical expressions. -/
def subexpressions : Expression → List Expression
  | .logical op left right tokens =>
    .logical op left right tokens :: (subexpressions left ++ subexpressions right)
  | .other type tokens => [.other type tokens]

/-- The tests of the earlier links of the chain. -/
def earlierTests : List Parent → List Expression
  | .ifStatement test true :: parents => test :: earlierTests parents
  | _ => []

/-- An assignment of truth values to the sub-expressions of some tests: `&&` and `||` mean what they
mean, and equivalent sub-expressions have the same value. -/
structure IsAssignment (tests : List Expression) (value : Expression → Bool) : Prop where
  and : ∀ left right tokens, value (.logical .and left right tokens) = (value left && value right)
  or : ∀ left right tokens, value (.logical .or left right tokens) = (value left || value right)
  equivalent : ∀ t ∈ tests, ∀ t' ∈ tests, ∀ e ∈ subexpressions t, ∀ e' ∈ subexpressions t',
    areEquivalent e e' = true → value e = value e'

theorem self_mem_subexpressions (e : Expression) : e ∈ subexpressions e := by
  cases e <;> simp [subexpressions]

theorem subexpressions_trans {e e' : Expression} (h : e ∈ subexpressions e') :
    ∀ x ∈ subexpressions e, x ∈ subexpressions e' := by
  induction e' with
  | logical op left right tokens ihl ihr =>
    intro x hx
    unfold subexpressions at h ⊢
    rcases List.mem_cons.mp h with rfl | h
    · exact hx
    · refine List.mem_cons_of_mem _ (List.mem_append.mpr ?_)
      exact (List.mem_append.mp h).imp (fun h => ihl h x hx) fun h => ihr h x hx
  | other type tokens =>
    intro x hx
    rwa [List.mem_singleton.mp h] at hx

theorem mem_splitByLogicalOperator {op : LogicalOperator} {e x : Expression}
    (h : x ∈ splitByLogicalOperator op e) : x ∈ subexpressions e := by
  induction e with
  | logical op' left right tokens ihl ihr =>
    unfold splitByLogicalOperator at h
    split_ifs at h
    · unfold subexpressions
      refine List.mem_cons_of_mem _ (List.mem_append.mpr ?_)
      exact (List.mem_append.mp h).imp ihl ihr
    · rw [List.mem_singleton.mp h]
      exact self_mem_subexpressions _
  | other type tokens =>
    rw [List.mem_singleton.mp h]
    exact self_mem_subexpressions _

section Soundness

variable {tests : List Expression} {value : Expression → Bool}

theorem IsAssignment.splitByAnd (h : IsAssignment tests value) (e : Expression) :
    value e = (splitByAnd e).all value := by
  unfold S1862.splitByAnd
  induction e with
  | logical op left right tokens ihl ihr =>
    unfold splitByLogicalOperator
    split_ifs with hop
    · subst hop
      rw [h.and, List.all_append, ihl, ihr]
    · simp
  | other type tokens => simp [splitByLogicalOperator]

theorem IsAssignment.splitByOr (h : IsAssignment tests value) (e : Expression) :
    value e = (splitByOr e).any value := by
  unfold S1862.splitByOr
  induction e with
  | logical op left right tokens ihl ihr =>
    unfold splitByLogicalOperator
    split_ifs with hop
    · subst hop
      rw [h.or, List.any_append, ihl, ihr]
    · simp
  | other type tokens => simp [splitByLogicalOperator]

theorem IsAssignment.orOperands (h : IsAssignment tests value) (e : Expression) :
    value e = true ↔ ∃ operand ∈ orOperands e, operand.all value = true := by
  rw [h.splitByOr, List.any_eq_true]
  unfold S1862.orOperands
  simp only [List.mem_map, exists_exists_and_eq_and, ← h.splitByAnd]

/-- The operands that `isSubsetOf` matches have the same value. -/
theorem IsAssignment.isSubsetOf (h : IsAssignment tests value) {t t' first second : Expression}
    (ht : t ∈ tests) (ht' : t' ∈ tests) (hfirst : first ∈ subexpressions t)
    (hsecond : second ∈ subexpressions t') (hsub : isSubsetOf first second = true) :
    value first = value second := by
  induction first generalizing second with
  | logical op left right tokens ihl ihr =>
    have hleft := subexpressions_trans hfirst left (by simp [subexpressions, self_mem_subexpressions])
    have hright := subexpressions_trans hfirst right (by simp [subexpressions, self_mem_subexpressions])
    cases second with
    | logical op₂ left₂ right₂ tokens₂ =>
      unfold S1862.isSubsetOf at hsub
      split_ifs at hsub with hop
      · have hleft₂ := subexpressions_trans hsecond left₂ (by simp [subexpressions, self_mem_subexpressions])
        have hright₂ := subexpressions_trans hsecond right₂ (by simp [subexpressions, self_mem_subexpressions])
        -- both pairings of the operands give the same value, `&&` and `||` being commutative
        have hpair : (value left = value left₂ ∧ value right = value right₂) ∨
            (value left = value right₂ ∧ value right = value left₂) := by
          rcases Bool.or_eq_true_iff.mp hsub with hs | hs
          · obtain ⟨hl, hr⟩ := Bool.and_eq_true_iff.mp hs
            exact Or.inl ⟨ihl hleft hleft₂ hl, ihr hright hright₂ hr⟩
          · obtain ⟨hl, hr⟩ := Bool.and_eq_true_iff.mp hs
            exact Or.inr ⟨ihl hleft hright₂ hl, ihr hright hleft₂ hr⟩
        obtain ⟨hop, rfl⟩ := hop
        rcases hop with rfl | rfl
        · rw [h.or, h.or]
          rcases hpair with ⟨hl, hr⟩ | ⟨hl, hr⟩
          · rw [hl, hr]
          · rw [hl, hr, Bool.or_comm]
        · rw [h.and, h.and]
          rcases hpair with ⟨hl, hr⟩ | ⟨hl, hr⟩
          · rw [hl, hr]
          · rw [hl, hr, Bool.and_comm]
      · exact h.equivalent t ht t' ht' _ hfirst _ hsecond hsub
    | other type₂ tokens₂ =>
      unfold S1862.isSubsetOf at hsub
      split_ifs at hsub
      exact h.equivalent t ht t' ht' _ hfirst _ hsecond hsub
  | other type tokens =>
    unfold S1862.isSubsetOf at hsub
    split_ifs at hsub
    exact h.equivalent t ht t' ht' _ hfirst _ hsecond hsub

/-- Where all of `second` is true, so is all of a subset of it. -/
theorem IsAssignment.isSubset (h : IsAssignment tests value) {t t' : Expression}
    {first second : List Expression} (ht : t ∈ tests) (ht' : t' ∈ tests)
    (hfirst : ∀ e ∈ first, e ∈ subexpressions t) (hsecond : ∀ e ∈ second, e ∈ subexpressions t')
    (hsub : isSubset first second = true) (htrue : second.all value = true) : first.all value = true := by
  rw [List.all_eq_true] at htrue ⊢
  intro fst hfst
  obtain ⟨snd, hsnd, hmatch⟩ := List.any_eq_true.mp (List.all_eq_true.mp hsub fst hfst)
  rw [h.isSubsetOf ht ht' (hfirst fst hfst) (hsecond snd hsnd) hmatch]
  exact htrue snd hsnd

/-! ### The loop -/

theorem mem_subexpressions_of_orOperands {condition e : Expression} {operand : List Expression}
    (h : operand ∈ orOperands condition) (he : e ∈ operand) : e ∈ subexpressions condition := by
  obtain ⟨alternative, halt, rfl⟩ := List.mem_map.mp h
  exact subexpressions_trans (mem_splitByLogicalOperator halt) e (mem_splitByLogicalOperator he)

/-- The operands left of a condition still make it true where it is, and they come from the test. -/
structure Covers (value : Expression → Bool) (test condition : Expression)
    (operands : List (List Expression)) : Prop where
  sub : ∀ operand ∈ operands, ∀ e ∈ operand, e ∈ subexpressions test
  holds : value condition = true → ∃ operand ∈ operands, operand.all value = true

theorem mem_subexpressions_of_conditionsToCheck {test condition : Expression}
    (h : condition ∈ conditionsToCheck test) : condition ∈ subexpressions test := by
  unfold conditionsToCheck at h
  split at h
  · rcases List.mem_cons.mp h with rfl | h
    · exact self_mem_subexpressions _
    · exact mem_splitByLogicalOperator h
  · rw [List.mem_singleton.mp h]
    exact self_mem_subexpressions _

theorem IsAssignment.conditionsToCheck (h : IsAssignment tests value) {test condition : Expression}
    (hmem : condition ∈ conditionsToCheck test) (htrue : value test = true) : value condition = true := by
  unfold S1862.conditionsToCheck at hmem
  split at hmem
  · rcases List.mem_cons.mp hmem with rfl | hmem
    · exact htrue
    · rw [h.splitByAnd, List.all_eq_true] at htrue
      exact htrue condition hmem
  · rw [List.mem_singleton.mp hmem]
    exact htrue

theorem IsAssignment.covers_orOperands (h : IsAssignment tests value) {test condition : Expression}
    (hmem : condition ∈ S1862.conditionsToCheck test) :
    Covers value test condition (S1862.orOperands condition) where
  sub _ hop e he := subexpressions_trans (mem_subexpressions_of_conditionsToCheck hmem) e
    (mem_subexpressions_of_orOperands hop he)
  holds := (h.orOperands condition).mp

/-- An operand that is dropped implies the test of the current link, so it is false with it. -/
theorem IsAssignment.covers_filter (h : IsAssignment tests value) {test condition currentTest : Expression}
    {operands : List (List Expression)} (htest : test ∈ tests) (hcurrent : currentTest ∈ tests)
    (hfalse : value currentTest = false) (hcov : Covers value test condition operands) :
    Covers value test condition (operands.filter fun orOperand =>
      !(S1862.orOperands currentTest).any fun currentOrOperand =>
        S1862.isSubset currentOrOperand orOperand) where
  sub operand hop := hcov.sub operand (List.mem_filter.mp hop).1
  holds htrue := by
    obtain ⟨operand, hmem, hall⟩ := hcov.holds htrue
    refine ⟨operand, List.mem_filter.mpr ⟨hmem, ?_⟩, hall⟩
    rw [Bool.not_eq_true', List.any_eq_false]
    intro currentOperand hcur hsub
    have := h.isSubset hcurrent htest (fun e he => mem_subexpressions_of_orOperands hcur he)
      (hcov.sub operand hmem) hsub hall
    rw [(h.orOperands currentTest).mpr ⟨currentOperand, hcur, this⟩] at hfalse
    cases hfalse

/-- Along the chain: every list of operands covers a condition to check. -/
theorem IsAssignment.findCovering (h : IsAssignment tests value) {test : Expression} (htest : test ∈ tests)
    (parents : List Parent) {operandsToCheck : List (List (List Expression))}
    (hparents : ∀ t ∈ earlierTests parents, t ∈ tests ∧ value t = false)
    (hcov : ∀ operands ∈ operandsToCheck, ∃ condition ∈ S1862.conditionsToCheck test,
      Covers value test condition operands)
    (hfound : (findCovering operandsToCheck parents).isSome = true) : value test = false := by
  induction parents generalizing operandsToCheck with
  | nil => simp [S1862.findCovering] at hfound
  | cons parent parents ih =>
    match parent with
    | .ifStatement currentTest true =>
      obtain ⟨hcurrent, hfalse⟩ := hparents currentTest (by simp [earlierTests])
      have hdrop : ∀ operands ∈ dropCovered currentTest operandsToCheck,
          ∃ condition ∈ S1862.conditionsToCheck test, Covers value test condition operands := by
        intro operands hmem
        obtain ⟨old, hold, rfl⟩ := List.mem_map.mp hmem
        obtain ⟨condition, hcond, hc⟩ := hcov old hold
        exact ⟨condition, hcond, h.covers_filter htest hcurrent hfalse hc⟩
      unfold S1862.findCovering at hfound
      split_ifs at hfound with hempty
      · obtain ⟨operands, hmem, hnil⟩ := List.any_eq_true.mp hempty
        obtain ⟨condition, hcond, hc⟩ := hdrop operands hmem
        rw [List.isEmpty_iff.mp hnil] at hc
        rw [Bool.eq_false_iff]
        intro htrue
        obtain ⟨operand, hop, -⟩ := hc.holds (h.conditionsToCheck hcond htrue)
        exact absurd hop List.not_mem_nil
      · exact ih (fun t ht => hparents t (by simp [earlierTests, ht])) hdrop hfound
    | .ifStatement _ false => simp [S1862.findCovering] at hfound
    | .other => simp [S1862.findCovering] at hfound

end Soundness

/-- **Soundness of the report.** A test that is reported is false wherever the tests of all earlier links
are. -/
theorem value_of_reported (test : Expression) (parents : List Parent) (value : Expression → Bool)
    (hvalue : IsAssignment (test :: earlierTests parents) value)
    (hreported : (ifStatement test parents).isSome = true)
    (hearlier : ∀ t ∈ earlierTests parents, value t = false) : value test = false := by
  refine hvalue.findCovering List.mem_cons_self parents
    (fun t ht => ⟨List.mem_cons_of_mem _ ht, hearlier t ht⟩) (fun operands hmem => ?_) hreported
  obtain ⟨condition, hcond, rfl⟩ := List.mem_map.mp hmem
  exact ⟨condition, hcond, hvalue.covers_orOperands hcond⟩

/-- The truth value of an expression, given those of the expressions that are not `&&` or `||`. -/
def evaluate (atom : Expression → Bool) : Expression → Bool
  | .logical .and left right _ => evaluate atom left && evaluate atom right
  | .logical .or left right _ => evaluate atom left || evaluate atom right
  | e => atom e

def identifier (name : String) : Expression := .other "Identifier" [name]

/-- `a && b` -/
def chainFirst : Expression := .logical .and (identifier "a") (identifier "b") ["a", "&&", "b"]

/-- `b && a || a && b && c` -/
def chainTest : Expression :=
  .logical .or (.logical .and (identifier "b") (identifier "a") ["b", "&&", "a"])
    (.logical .and chainFirst (identifier "c") ["a", "&&", "b", "&&", "c"])
    ["b", "&&", "a", "||", "a", "&&", "b", "&&", "c"]

/-- `if (a && b) {} else if (c) {} else if (b && a || a && b && c) {}`, with `b` alone true. -/
theorem value_of_reported_chain : evaluate (fun e => e.tokens = ["b"]) chainTest = false :=
  value_of_reported chainTest [.ifStatement (identifier "c") true, .ifStatement chainFirst true, .other] _
    ⟨fun _ _ _ => rfl, fun _ _ _ => rfl, by decide⟩ (by decide) (by decide)

end SonarJavascript.Rules.S1862
