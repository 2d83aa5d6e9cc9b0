import Mathlib.Data.Fintype.Sum
import Mathlib.Tactic.DeriveFintype
import SonarJavascript.Lib.MarkedSearch

/-!
# S2699: test cases without assertions

When ESLint leaves a call that is a test case, the body of the callback is searched for an assertion, through
the functions that are called by name. The nodes that have been visited are remembered for the whole file.

`judged_iff`: each test case is reported if and only if it reaches no assertion, exactly when the nodes that
the test cases before it have visited never stand on all the ways to its assertions.
-/

namespace SonarJavascript.Rules.TestCaseAssertions

open MarkedSearch
open StackSearch (Way)

/-! ### The file -/

structure Definition (Node : Type) where
  type : String
  node : Node

structure Reference (Node : Type) where
  identifier : Node
  resolved : Option (List (Definition Node))

structure Scope (Node : Type) where
  references : List (Reference Node)

/-- The nodes of a file; what a node of another type does not have is arbitrary. `functionBody` is the body of
a function, `children` are its direct children by the visitor keys, and `calls` are the calls in the order in
which ESLint leaves them. The libraries say which nodes are assertions and whether the file imports them. -/
structure SourceFile (Node : Type) where
  type : Node → String
  name : Node → String
  callee : Node → Node
  arguments : Node → List Node
  object : Node → Node
  property : Node → Node
  functionBody : Node → Node
  children : Node → List Node
  scopes : List (Scope Node)
  calls : List Node
  isChaiAssertion : Node → Bool
  isSinonAssertion : Node → Bool
  isVitestAssertion : Node → Bool
  isSupertestAssertion : Node → Bool
  importsChai : Bool
  importsSinon : Bool
  importsVitest : Bool
  importsSupertest : Bool

namespace SourceFile

variable {Node : Type} (file : SourceFile Node)

def isIdentifier (node : Node) (values : List String) : Bool :=
  file.type node = "Identifier" && (values.isEmpty || values.contains (file.name node))

def FUNCTION_NODES : List String :=
  ["FunctionDeclaration", "FunctionExpression", "ArrowFunctionExpression"]

def isFunctionNode (node : Node) : Bool := FUNCTION_NODES.contains (file.type node)

def isFunctionCall (node : Node) : Bool :=
  file.type node = "CallExpression" && file.type (file.callee node) = "Identifier"

/-! ### Test cases -/

structure TestCase (Node : Type) where
  node : Node
  callback : Node

def isTestConstruct (node : Node) (constructs : List String) : Bool :=
  constructs.any fun construct =>
    file.type node = "CallExpression" &&
      (file.isIdentifier (file.callee node) [construct] ||
        (file.type (file.callee node) = "MemberExpression" &&
          file.isIdentifier (file.object (file.callee node)) [construct] &&
          file.isIdentifier (file.property (file.callee node)) ["only", "skip"]))

def isTestCase (node : Node) : Bool := file.isTestConstruct node ["it", "specify"]

def extractTestCase (node : Node) : Option (TestCase Node) :=
  if file.isTestCase node then
    match file.arguments node with
    | _ :: callback :: _ => if file.isFunctionNode callback then some ⟨file.callee node, callback⟩ else none
    | _ => none
  else none

def testCases : List (TestCase Node) := file.calls.filterMap file.extractTestCase

/-! ### The visit -/

variable [DecidableEq Node]

def resolveFromFunctionReference (functionIdentifier : Node) : Option Node :=
  file.scopes.findSome? fun scope =>
    match (scope.references.find? fun r => r.identifier = functionIdentifier).bind (·.resolved) with
    | some [definition] => if definition.type = "FunctionName" then some definition.node else none
    | _ => none

def resolveFunction (node : Node) : Option Node :=
  if file.isFunctionNode node then some node
  else if file.type node = "Identifier" then file.resolveFromFunctionReference node
  else none

def isAssertion (node : Node) : Bool :=
  file.isChaiAssertion node || file.isSinonAssertion node || file.isVitestAssertion node ||
    file.isSupertestAssertion node

/-- The visitor of a test case with the nodes that have been visited, given enough turns. -/
def visit : ℕ → Node → Search Node → Option (Search Node)
  | 0, _, _ => none
  | n + 1, node, s =>
    if node ∈ s.marked then some s
    else
      let s := { s with marked := insert node s.marked }
      if s.found then some s
      else if file.isAssertion node then some { s with found := true }
      else if file.isFunctionCall node then
        if file.name (file.callee node) = "expect" then some { s with found := true }
        else do
          let s ← match file.resolveFunction (file.callee node) with
            | some functionDef => visit n (file.functionBody functionDef) s
            | none => some s
          (file.children node).foldlM (fun s child => visit n child s) s
      else (file.children node).foldlM (fun s child => visit n child s) s

/-- The nodes are those of the whole file, the issues those of the test cases so far. -/
structure RuleState (Node : Type) where
  visitedNodes : Finset Node
  potentialIssues : List (TestCase Node)

def checkAssertions (n : ℕ) (state : RuleState Node) (testCase : TestCase Node) : Option (RuleState Node) := do
  let visitor ← file.visit n (file.functionBody testCase.callback) ⟨state.visitedNodes, false⟩
  return ⟨visitor.marked,
    if visitor.found then state.potentialIssues else state.potentialIssues ++ [testCase]⟩

def checkCalls (n : ℕ) (testCases : List (TestCase Node)) : Option (RuleState Node) :=
  testCases.foldlM (file.checkAssertions n) ⟨∅, []⟩

def isImported : Bool :=
  file.importsChai || file.importsSinon || file.importsVitest || file.importsSupertest

/-- The test cases that are reported. -/
def report (n : ℕ) : Option (List (TestCase Node)) :=
  (file.checkCalls n file.testCases).map fun state => if file.isImported then state.potentialIssues else []

/-! ### Assertions in reach -/

/-- An assertion, or a call of `expect`. -/
def endsSearch (node : Node) : Bool :=
  file.isAssertion node || (file.isFunctionCall node && file.name (file.callee node) = "expect")

/-- The sub-nodes, and the body of the function that is called. -/
def next (node : Node) : List Node :=
  (if file.isFunctionCall node then
    ((file.resolveFunction (file.callee node)).map file.functionBody).toList else []) ++ file.children node

/-- From the body of the test case around the nodes that are blocked. -/
def ReachesAssertion (blocked : Node → Prop) (testCase : TestCase Node) : Prop :=
  ∃ node, file.endsSearch node = true ∧
    Way file.next blocked (file.functionBody testCase.callback) node

theorem visit_eq (n : ℕ) (node : Node) (s : Search Node) :
    file.visit n node s = search file.next file.endsSearch n node s := by
  induction n generalizing node s with
  | zero => rfl
  | succ n ih =>
    have hchildren : ∀ (s : Search Node) (nodes : List Node),
        nodes.foldlM (fun s child => file.visit n child s) s =
          nodes.foldlM (fun s child => search file.next file.endsSearch n child s) s := by
      intro s nodes
      simp only [ih]
    rw [visit, search]
    simp only [hchildren]
    cases hfound : s.found with
    | true => simp
    | false =>
      by_cases hassertion : file.isAssertion node = true
      · simp [endsSearch, hassertion]
      · by_cases hcall : file.isFunctionCall node = true
        · by_cases hexpect : file.name (file.callee node) = "expect"
          · simp [endsSearch, hassertion, hcall, hexpect]
          · cases hresolve : file.resolveFunction (file.callee node) with
            | none => simp [endsSearch, next, hassertion, hcall, hexpect, hresolve]
            | some functionDef => simp [endsSearch, next, hassertion, hcall, hexpect, hresolve, ih]
        · simp [endsSearch, next, hassertion, hcall]

/-! ### The verdicts -/

variable {file} {n : ℕ} {state state' : RuleState Node} {testCase : TestCase Node} {tests : List (TestCase Node)}

variable (file) in
/-- No assertion is in reach. -/
def MissesAssertion (testCase : TestCase Node) : Prop := ¬ file.ReachesAssertion (fun _ => False) testCase

variable (file) in
open scoped Classical in
noncomputable def missing (tests : List (TestCase Node)) : List (TestCase Node) :=
  tests.filter fun testCase => file.MissesAssertion testCase

variable (file n) in
/-- Where a test case is judged and has an assertion in reach, it has one in reach around the nodes that have
been visited before. -/
def IndependentFrom (state : RuleState Node) (tests : List (TestCase Node)) : Prop :=
  ∀ before testCase after, tests = before ++ testCase :: after →
    ∀ state', before.foldlM (file.checkAssertions n) state = some state' →
      file.ReachesAssertion (fun _ => False) testCase →
        file.ReachesAssertion (· ∈ state'.visitedNodes) testCase

variable (file n) in
def Independent : Prop := file.IndependentFrom n ⟨∅, []⟩ file.testCases

theorem ReachesAssertion.mono {blocked : Node → Prop} (h : file.ReachesAssertion blocked testCase) :
    file.ReachesAssertion (fun _ => False) testCase := by
  obtain ⟨node, hends, hway⟩ := h
  exact ⟨node, hends, way_mono (fun _ => False.elim) hway⟩

variable (file) in
/-- One test case is judged by the assertions in reach around the nodes visited before. -/
theorem checkAssertions_eq [Fintype Node] (hn : Fintype.card Node < n) (state : RuleState Node)
    (testCase : TestCase Node) : ∃ state', file.checkAssertions n state testCase = some state' ∧
      (file.ReachesAssertion (· ∈ state.visitedNodes) testCase ∧
          state'.potentialIssues = state.potentialIssues ∨
        ¬ file.ReachesAssertion (· ∈ state.visitedNodes) testCase ∧
          state'.potentialIssues = state.potentialIssues ++ [testCase]) := by
  obtain ⟨visitor, hvisitor⟩ : ∃ visitor, search file.next file.endsSearch n
      (file.functionBody testCase.callback) ⟨state.visitedNodes, false⟩ = some visitor :=
    exists_search n _ _ ((Finset.card_le_univ _).trans_lt hn)
  have hfound := found_iff hvisitor rfl
  refine ⟨_, by rw [checkAssertions, visit_eq, hvisitor]; rfl, ?_⟩
  by_cases hreaches : file.ReachesAssertion (· ∈ state.visitedNodes) testCase
  · exact .inl ⟨hreaches, by simp [hfound.mpr hreaches]⟩
  · exact .inr ⟨hreaches, by simp [Bool.eq_false_iff.mpr (mt hfound.mp hreaches)]⟩

theorem independentFrom_nil : file.IndependentFrom n state [] := by
  intro before testCase after h
  simp at h

theorem independentFrom_cons (h : file.checkAssertions n state testCase = some state') :
    file.IndependentFrom n state (testCase :: tests) ↔
      (file.ReachesAssertion (fun _ => False) testCase →
        file.ReachesAssertion (· ∈ state.visitedNodes) testCase) ∧ file.IndependentFrom n state' tests := by
  constructor
  · intro hfrom
    refine ⟨hfrom [] testCase tests rfl state rfl, fun before next after htests last hlast => ?_⟩
    refine hfrom (testCase :: before) next after (by rw [htests]; rfl) last ?_
    rw [List.foldlM_cons, h]
    exact hlast
  · rintro ⟨hhead, htail⟩ before next after htests last hlast
    cases before with
    | nil =>
      obtain ⟨rfl, rfl⟩ := List.cons.inj htests
      obtain rfl := Option.some.inj hlast
      exact hhead
    | cons first before =>
      obtain ⟨rfl, hrest⟩ := List.cons.inj htests
      rw [List.foldlM_cons, h] at hlast
      exact htail before next after hrest last hlast

theorem missing_cons_of_reaches (h : file.ReachesAssertion (fun _ => False) testCase) :
    file.missing (testCase :: tests) = file.missing tests :=
  List.filter_cons_of_neg (by simp [MissesAssertion, h])

theorem missing_cons_of_misses (h : file.MissesAssertion testCase) :
    file.missing (testCase :: tests) = testCase :: file.missing tests :=
  List.filter_cons_of_pos (by simpa using h)

variable (file) in
/-- The test cases that are reported are at least those that miss an assertion, and no others if and only if
no test case is cut off. -/
theorem foldlM_checkAssertions [Fintype Node] (hn : Fintype.card Node < n) (state : RuleState Node)
    (tests : List (TestCase Node)) : ∃ state' reported,
      tests.foldlM (file.checkAssertions n) state = some state' ∧
      state'.potentialIssues = state.potentialIssues ++ reported ∧
      (file.missing tests).length ≤ reported.length ∧
      (reported = file.missing tests ↔ file.IndependentFrom n state tests) := by
  induction tests generalizing state with
  | nil => exact ⟨state, [], rfl, by simp, le_rfl, by simp [missing, independentFrom_nil]⟩
  | cons testCase tests ih =>
    obtain ⟨middle, hmiddle, hissues⟩ := checkAssertions_eq file hn state testCase
    obtain ⟨last, reported, hlast, hreported, hlength, hiff⟩ := ih middle
    have hfold : (testCase :: tests).foldlM (file.checkAssertions n) state = some last := by
      rw [List.foldlM_cons, hmiddle]
      exact hlast
    rcases hissues with ⟨hreaches, hissues⟩ | ⟨hcut, hissues⟩
    · refine ⟨last, reported, hfold, by rw [hreported, hissues], ?_, ?_⟩
      · rwa [missing_cons_of_reaches hreaches.mono]
      · rw [missing_cons_of_reaches hreaches.mono, hiff, independentFrom_cons hmiddle]
        exact ⟨fun h => ⟨fun _ => hreaches, h⟩, And.right⟩
    · refine ⟨last, testCase :: reported, hfold, by rw [hreported, hissues, List.append_assoc]; rfl, ?_⟩
      by_cases hmisses : file.MissesAssertion testCase
      · rw [missing_cons_of_misses hmisses, List.cons_inj_right, hiff, independentFrom_cons hmiddle]
        exact ⟨Nat.succ_le_succ hlength, fun h => ⟨fun hreaches => absurd hreaches hmisses, h⟩, And.right⟩
      · -- a report too many: the test case has been cut off
        have hreaches : file.ReachesAssertion (fun _ => False) testCase := not_not.mp hmisses
        rw [missing_cons_of_reaches hreaches, independentFrom_cons hmiddle]
        refine ⟨hlength.trans (Nat.le_succ _), fun heq => ?_, fun h => absurd (h.1 hreaches) hcut⟩
        rw [← heq] at hlength
        exact absurd hlength (by simp)

/-- **When each test case is judged by itself.** The visit always ends. -/
theorem judged_iff [Fintype Node] (himported : file.isImported = true) (hn : Fintype.card Node < n) :
    (∃ issues, file.report n = some issues) ∧
      (file.report n = some (file.missing file.testCases) ↔ file.Independent n) := by
  obtain ⟨last, reported, hlast, hreported, -, hiff⟩ :=
    foldlM_checkAssertions file hn ⟨∅, []⟩ file.testCases
  have hreport : file.report n = some reported := by
    rw [report, checkCalls, hlast, Option.map_some, if_pos himported, hreported, List.nil_append]
  exact ⟨⟨reported, hreport⟩, by rw [hreport, Option.some.injEq, hiff, Independent]⟩

/-! ### A helper of two test cases -/

/-- The nodes of two test cases that call one function `check`, whose body calls `expect`. -/
inductive HelperNode
  | itCall (second : Bool) | itName (second : Bool) | title (second : Bool) | callback (second : Bool)
  | block (second : Bool) | statement (second : Bool) | call (second : Bool) | checkName (second : Bool)
  | check | checkBlock | checkStatement | expectCall | expectName
  deriving DecidableEq, Fintype

open HelperNode in
def sharedHelper : SourceFile HelperNode where
  type
    | itCall _ | call _ | expectCall => "CallExpression"
    | itName _ | checkName _ | expectName => "Identifier"
    | title _ => "Literal"
    | callback _ => "ArrowFunctionExpression"
    | block _ | checkBlock => "BlockStatement"
    | statement _ | checkStatement => "ExpressionStatement"
    | check => "FunctionDeclaration"
  name
    | itName _ => "it"
    | checkName _ => "check"
    | expectName => "expect"
    | _ => ""
  callee
    | itCall second => itName second
    | call second => checkName second
    | _ => expectName
  arguments
    | itCall second => [title second, callback second]
    | _ => []
  object node := node
  property node := node
  functionBody
    | callback second => block second
    | _ => checkBlock
  children
    | itCall second => [itName second, title second, callback second]
    | callback second => [block second]
    | block second => [statement second]
    | statement second => [call second]
    | call second => [checkName second]
    | check => [checkBlock]
    | checkBlock => [checkStatement]
    | checkStatement => [expectCall]
    | expectCall => [expectName]
    | _ => []
  scopes := [⟨[⟨checkName false, some [⟨"FunctionName", check⟩]⟩, ⟨checkName true, some [⟨"FunctionName", check⟩]⟩]⟩]
  calls := [expectCall, call false, itCall false, call true, itCall true]
  isChaiAssertion _ := false
  isSinonAssertion _ := false
  isVitestAssertion _ := false
  isSupertestAssertion _ := false
  importsChai := true
  importsSinon := false
  importsVitest := false
  importsSupertest := false

theorem judged_iff_sharedHelper : (∃ issues, sharedHelper.report 30 = some issues) ∧
    (sharedHelper.report 30 = some (sharedHelper.missing sharedHelper.testCases) ↔
      sharedHelper.Independent 30) :=
  judged_iff rfl (by decide)

theorem sharedHelper_reaches (second : Bool) :
    sharedHelper.ReachesAssertion (fun _ => False) ⟨.itName second, .callback second⟩ := by
  refine ⟨.expectCall, by decide, not_false, ?_⟩
  have hstep : ∀ a b, b ∈ sharedHelper.next a → b ∈ sharedHelper.next a ∧ ¬ False := fun _ _ h => ⟨h, not_false⟩
  refine .head (hstep _ (.statement second) (by cases second <;> decide)) ?_
  refine .head (hstep _ (.call second) (by cases second <;> decide)) ?_
  refine .head (hstep _ .checkBlock (by cases second <;> decide)) ?_
  exact .tail (.single (hstep _ .checkStatement (by decide))) (hstep _ _ (by decide))

/-- The second test case is reported although the function that it calls has an assertion. -/
theorem sharedHelper_misjudged :
    sharedHelper.report 30 ≠ some (sharedHelper.missing sharedHelper.testCases) := by
  have htests : sharedHelper.testCases = [⟨.itName false, .callback false⟩, ⟨.itName true, .callback true⟩] := by
    rfl
  have hmissing : sharedHelper.missing sharedHelper.testCases = [] := by
    rw [htests, missing_cons_of_reaches (sharedHelper_reaches false),
      missing_cons_of_reaches (sharedHelper_reaches true)]
    rfl
  have hreport : sharedHelper.report 30 = some [⟨.itName true, .callback true⟩] := by rfl
  rw [hmissing, hreport]
  simp

end SourceFile

end SonarJavascript.Rules.TestCaseAssertions
