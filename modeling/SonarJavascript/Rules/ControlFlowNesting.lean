import Mathlib.Data.Int.Notation
import Mathlib.Data.List.Basic

/-!
# Nested control flow statements

S134 keeps the first tokens of the statements around a node in a stack. A link of a chain of `else if` takes the place of
the link in front of it and stays there when it is left. `reports_eq`: the stack is that of the links around a node, so
the reports are those of the statements with the given number of statements around them, and the stack is empty at the
end.
-/

namespace SonarJavascript.Rules.ControlFlowNesting

/-! ### Programs -/

/-- The control flow statements other than `IfStatement`. -/
inductive ControlFlow
  | ForStatement
  | ForInStatement
  | ForOfStatement
  | WhileStatement
  | DoWhileStatement
  | TryStatement
  | SwitchStatement

/-- The children are in the order in which they are visited. -/
inductive Node (Token : Type)
  | IfStatement (firstToken : Token) (test consequent : Node Token)
  | IfElseStatement (firstToken : Token) (test consequent alternate : Node Token)
  | statement (type : ControlFlow) (firstToken : Token) (children : List (Node Token))
  | other (children : List (Node Token))

variable {Token : Type}

namespace Node

def isIfStatement : Node Token → Bool
  | IfStatement _ _ _ | IfElseStatement _ _ _ _ => true
  | statement _ _ _ | other _ => false

/-- Of a control flow statement. -/
def firstToken : Node Token → Option Token
  | IfStatement token _ _ | IfElseStatement token _ _ _ | statement _ token _ => some token
  | other _ => none

/-- Whether it is the alternate of its parent does not follow from the node. -/
def isElseIf (isAlternate : Bool) (node : Node Token) : Bool := node.isIfStatement && isAlternate

end Node

/-! ### The rule -/

structure Report (Token : Type) where
  message : String
  token : Token
  secondary : List (Token × String)

structure State (Token : Type) where
  nodeStack : List Token
  reports : List (Report Token)

def DEFAULT_MAXIMUM_NESTING_LEVEL : ℤ := 3

def messageOf (threshold : ℤ) : String :=
  "Refactor this code to not nest more than " ++ toString threshold ++ " if/for/while/switch/try statements."

section Rule

variable (threshold : ℤ)

def push (token : Token) (state : State Token) : State Token :=
  { state with nodeStack := state.nodeStack ++ [token] }

def pop (state : State Token) : State Token := { state with nodeStack := state.nodeStack.dropLast }

def check (token : Token) (state : State Token) : State Token :=
  if state.nodeStack.length = threshold then
    { state with
      reports := state.reports ++ [⟨messageOf threshold, token, state.nodeStack.map fun link => (link, "+1")⟩] }
  else state

/-- The listener of the control flow statements. -/
def onEnter (isAlternate : Bool) (node : Node Token) (state : State Token) : State Token :=
  match node.firstToken with
  | none => state
  | some token =>
    if node.isElseIf isAlternate then push token (pop state) else push token (check threshold token state)

def onExit (isAlternate : Bool) (node : Node Token) (state : State Token) : State Token :=
  match node.firstToken with
  | none => state
  | some _ => if node.isElseIf isAlternate then state else pop state

mutual

def traverse (isAlternate : Bool) : Node Token → State Token → State Token
  | node@(.IfStatement _ test consequent), state =>
    let entered := onEnter threshold isAlternate node state
    onExit isAlternate node (traverse false consequent (traverse false test entered))
  | node@(.IfElseStatement _ test consequent alternate), state =>
    let entered := onEnter threshold isAlternate node state
    onExit isAlternate node (traverse true alternate (traverse false consequent (traverse false test entered)))
  | node@(.statement _ _ children), state | node@(.other children), state =>
    onExit isAlternate node (traverseAll children (onEnter threshold isAlternate node state))

def traverseAll : List (Node Token) → State Token → State Token
  | [], state => state
  | node :: nodes, state => traverseAll nodes (traverse false node state)

end

end Rule

/-- A program, with the option of the rule. -/
def run (maximumNestingLevel : Option ℤ) (program : Node Token) : State Token :=
  traverse (maximumNestingLevel.getD DEFAULT_MAXIMUM_NESTING_LEVEL) false program ⟨[], []⟩

/-! ### What is to be reported -/

/-- The first token of a control flow statement, and whether the node is an `else if`. -/
structure Link (Token : Type) where
  firstToken : Option Token
  isElseIf : Bool

def linkOf (isAlternate : Bool) (node : Node Token) : Link Token := ⟨node.firstToken, node.isElseIf isAlternate⟩

/-- A node with the nodes around it, from the outside. -/
structure Occurrence (Token : Type) where
  around : List (Link Token)
  node : Link Token

mutual

def occurrences (around : List (Link Token)) (isAlternate : Bool) : Node Token → List (Occurrence Token)
  | node@(.IfStatement _ test consequent) =>
    let inside := around ++ [linkOf isAlternate node]
    ⟨around, linkOf isAlternate node⟩ :: (occurrences inside false test ++ occurrences inside false consequent)
  | node@(.IfElseStatement _ test consequent alternate) =>
    let inside := around ++ [linkOf isAlternate node]
    ⟨around, linkOf isAlternate node⟩ ::
      (occurrences inside false test ++ (occurrences inside false consequent ++ occurrences inside true alternate))
  | node@(.statement _ _ children) | node@(.other children) =>
    ⟨around, linkOf isAlternate node⟩ :: allOccurrences (around ++ [linkOf isAlternate node]) children

def allOccurrences (around : List (Link Token)) : List (Node Token) → List (Occurrence Token)
  | [] => []
  | node :: nodes => occurrences around false node ++ allOccurrences around nodes

end

/-- The control flow statement that begins a chain, or is one by itself. -/
def Link.begins (link : Link Token) : Bool := link.firstToken.isSome && !link.isElseIf

/-- The first token of the last link of a chain, as far as the nodes are its links. -/
def lastLink (token : Token) : List (Link Token) → Token
  | ⟨some next, true⟩ :: links => lastLink next links
  | _ => token

/-- For each control flow statement that is no `else if`, the first token of its link around the node. -/
def enclosing : List (Link Token) → List Token
  | [] => []
  | ⟨some token, false⟩ :: links => lastLink token links :: enclosing links
  | _ :: links => enclosing links

/-- The report on a node with as many statements around it as the threshold says. -/
def expected (threshold : ℤ) (occurrence : Occurrence Token) : Option (Report Token) :=
  match occurrence.node with
  | ⟨some token, false⟩ =>
    if (occurrence.around.filter Link.begins).length = threshold then
      some ⟨messageOf threshold, token, (enclosing occurrence.around).map fun link => (link, "+1")⟩
    else none
  | _ => none

/-! ### The stack -/

section Stack

variable {around links : List (Link Token)} {token : Token} {link : Link Token}

theorem length_enclosing : (enclosing around).length = (around.filter Link.begins).length := by
  induction around with
  | nil => rfl
  | cons link links ih =>
    obtain ⟨firstToken, isElseIf⟩ := link
    cases firstToken with
    | none => exact ih
    | some token =>
      cases isElseIf with
      | true => exact ih
      | false => exact congrArg (· + 1) ih

theorem lastLink_append (hlink : link.isElseIf = false) {rest : List (Link Token)} :
    lastLink token (links ++ link :: rest) = lastLink token links := by
  induction links generalizing token with
  | nil =>
    obtain ⟨firstToken, isElseIf⟩ := link
    cases firstToken <;> cases hlink <;> rfl
  | cons first links ih =>
    obtain ⟨firstToken, isElseIf⟩ := first
    cases firstToken with
    | none => rfl
    | some next =>
      cases isElseIf with
      | true => exact ih
      | false => rfl

theorem enclosing_append (hlink : link.isElseIf = false) {rest : List (Link Token)} :
    enclosing (around ++ link :: rest) = enclosing around ++ enclosing (link :: rest) := by
  induction around with
  | nil => rfl
  | cons first around ih =>
    obtain ⟨firstToken, isElseIf⟩ := first
    cases firstToken with
    | none => exact ih
    | some next =>
      cases isElseIf with
      | true => exact ih
      | false =>
        change lastLink next (around ++ link :: rest) :: enclosing (around ++ link :: rest) = _
        rw [lastLink_append hlink, ih]
        rfl

/-- The innermost node is a link of a chain. -/
def EndsWithLink (around : List (Link Token)) : Prop :=
  ∃ before token links, around = before ++ ⟨some token, false⟩ :: links ∧
    ∀ link ∈ links, ∃ next, link = ⟨some next, true⟩

theorem enclosing_links (hlinks : ∀ link ∈ links, ∃ next, link = ⟨some next, true⟩) : enclosing links = [] := by
  induction links with
  | nil => rfl
  | cons link links ih =>
    obtain ⟨next, rfl⟩ := hlinks link List.mem_cons_self
    exact ih fun other hother => hlinks other (List.mem_cons_of_mem _ hother)

theorem lastLink_links (hlinks : ∀ link ∈ links, ∃ next, link = ⟨some next, true⟩) {next : Token} :
    lastLink token (links ++ [⟨some next, true⟩]) = next := by
  induction links generalizing token with
  | nil => rfl
  | cons link links ih =>
    obtain ⟨other, rfl⟩ := hlinks link List.mem_cons_self
    exact ih fun other hother => hlinks other (List.mem_cons_of_mem _ hother)

theorem enclosing_elseIf (h : EndsWithLink around) (next : Token) :
    enclosing (around ++ [⟨some next, true⟩]) = (enclosing around).dropLast ++ [next] := by
  obtain ⟨before, token, links, rfl, hlinks⟩ := h
  have hall : ∀ link ∈ links ++ [⟨some next, true⟩], ∃ next, link = ⟨some next, true⟩ := by
    intro link hlink
    rcases List.mem_append.mp hlink with hlink | hlink
    · exact hlinks link hlink
    · exact ⟨next, List.mem_singleton.mp hlink⟩
  rw [List.append_assoc, List.cons_append, enclosing_append rfl, enclosing_append rfl, enclosing, enclosing,
    enclosing_links hlinks, enclosing_links hall, lastLink_links hlinks, List.dropLast_concat]

theorem EndsWithLink.append (h : EndsWithLink around) (next : Token) :
    EndsWithLink (around ++ [⟨some next, true⟩]) := by
  obtain ⟨before, token, links, rfl, hlinks⟩ := h
  refine ⟨before, token, links ++ [⟨some next, true⟩], by simp, fun link hlink => ?_⟩
  rcases List.mem_append.mp hlink with hlink | hlink
  · exact hlinks link hlink
  · exact ⟨next, List.mem_singleton.mp hlink⟩

end Stack

/-! ### The traversal -/

section Traversal

variable {threshold : ℤ} {around : List (Link Token)} {isAlternate : Bool} {node : Node Token} {state : State Token}

theorem isElseIf_of_isAlternate (h : node.isElseIf isAlternate = true) : isAlternate = true :=
  (Bool.and_eq_true_iff.mp h).2

theorem onEnter_spec (hstack : state.nodeStack = enclosing around) (hlink : isAlternate = true → EndsWithLink around) :
    (onEnter threshold isAlternate node state).nodeStack = enclosing (around ++ [linkOf isAlternate node]) ∧
      (onEnter threshold isAlternate node state).reports =
        state.reports ++ [⟨around, linkOf isAlternate node⟩].filterMap (expected threshold) := by
  rw [onEnter, linkOf]
  cases htoken : node.firstToken with
  | none =>
    have hother : node.isElseIf isAlternate = false := by
      cases node with
      | other children => rfl
      | IfStatement | IfElseStatement | statement => cases htoken
    rw [hother, enclosing_append rfl]
    exact ⟨hstack.trans (List.append_nil _).symm, (List.append_nil _).symm⟩
  | some token =>
    cases helseIf : node.isElseIf isAlternate with
    | true =>
      rw [enclosing_elseIf (hlink (isElseIf_of_isAlternate helseIf)), ← hstack]
      exact ⟨rfl, (List.append_nil _).symm⟩
    | false =>
      rw [enclosing_append rfl]
      simp only [Bool.false_eq_true, if_false, push, check, hstack, length_enclosing, List.filterMap_cons,
        List.filterMap_nil, expected]
      split_ifs
      · exact ⟨rfl, rfl⟩
      · exact ⟨congrArg (· ++ [token]) hstack, (List.append_nil _).symm⟩

/-- What the stack is behind a node. -/
def Restored (isElseIf : Bool) (around : List (Link Token)) (state : State Token) : Prop :=
  if isElseIf then state.nodeStack.dropLast = (enclosing around).dropLast else state.nodeStack = enclosing around

theorem onExit_spec (hlink : isAlternate = true → EndsWithLink around)
    (hinner : if node.firstToken.isSome then
      state.nodeStack.dropLast = (enclosing (around ++ [linkOf isAlternate node])).dropLast
      else state.nodeStack = enclosing around) :
    Restored (node.isElseIf isAlternate) around (onExit isAlternate node state) ∧
      (onExit isAlternate node state).reports = state.reports := by
  rw [onExit, Restored]
  cases htoken : node.firstToken with
  | none =>
    have hother : node.isElseIf isAlternate = false := by
      cases node with
      | other children => rfl
      | IfStatement | IfElseStatement | statement => cases htoken
    rw [htoken, if_neg (by simp)] at hinner
    rw [hother]
    exact ⟨hinner, rfl⟩
  | some token =>
    rw [htoken, Option.isSome_some, if_pos rfl, linkOf, htoken] at hinner
    cases helseIf : node.isElseIf isAlternate with
    | true =>
      rw [helseIf, enclosing_elseIf (hlink (isElseIf_of_isAlternate helseIf)), List.dropLast_concat] at hinner
      exact ⟨hinner, rfl⟩
    | false =>
      rw [helseIf, enclosing_append rfl] at hinner
      exact ⟨hinner.trans List.dropLast_concat, rfl⟩

theorem filterMap_first {first : Occurrence Token} {others : List (Occurrence Token)} :
    (first :: others).filterMap (expected threshold) =
      [first].filterMap (expected threshold) ++ others.filterMap (expected threshold) :=
  List.filterMap_append (l := [first])

theorem endsWithLink_inside (hlink : isAlternate = true → EndsWithLink around) (token : Token)
    (test consequent alternate : Node Token) :
    EndsWithLink (around ++ [linkOf isAlternate (.IfElseStatement token test consequent alternate)]) := by
  cases isAlternate with
  | true => exact (hlink rfl).append token
  | false => exact ⟨around, token, [], rfl, nofun⟩

mutual

theorem traverse_spec : ∀ (node : Node Token) (isAlternate : Bool) (around : List (Link Token)) (state : State Token),
    state.nodeStack = enclosing around → (isAlternate = true → EndsWithLink around) →
    Restored (node.isElseIf isAlternate) around (traverse threshold isAlternate node state) ∧
      (traverse threshold isAlternate node state).reports =
        state.reports ++ (occurrences around isAlternate node).filterMap (expected threshold)
  | .IfStatement token test consequent, isAlternate, around, state, hstack, hlink => by
    obtain ⟨hentered, hreports⟩ := @onEnter_spec _ threshold _ _ (.IfStatement token test consequent) _ hstack hlink
    obtain ⟨htest, hreportsTest⟩ := traverse_spec test false _ _ hentered nofun
    rw [Node.isElseIf, Bool.and_false] at htest
    obtain ⟨hconsequent, hreportsConsequent⟩ := traverse_spec consequent false _ _ htest nofun
    rw [Node.isElseIf, Bool.and_false] at hconsequent
    obtain ⟨hleft, hreportsLeft⟩ := @onExit_spec _ around isAlternate (.IfStatement token test consequent) _ hlink
      (congrArg List.dropLast hconsequent)
    rw [traverse, occurrences]
    refine ⟨hleft, hreportsLeft.trans ?_⟩
    rw [hreportsConsequent, hreportsTest, hreports, @filterMap_first _ _ _ (_ ++ _), List.filterMap_append]
    simp only [List.append_assoc]
  | .IfElseStatement token test consequent alternate, isAlternate, around, state, hstack, hlink => by
    obtain ⟨hentered, hreports⟩ :=
      @onEnter_spec _ threshold _ _ (.IfElseStatement token test consequent alternate) _ hstack hlink
    obtain ⟨htest, hreportsTest⟩ := traverse_spec test false _ _ hentered nofun
    rw [Node.isElseIf, Bool.and_false] at htest
    obtain ⟨hconsequent, hreportsConsequent⟩ := traverse_spec consequent false _ _ htest nofun
    rw [Node.isElseIf, Bool.and_false] at hconsequent
    obtain ⟨halternate, hreportsAlternate⟩ := traverse_spec alternate true _ _ hconsequent fun _ =>
      endsWithLink_inside hlink token test consequent alternate
    -- the stack is that around the alternate, perhaps with its last link
    obtain ⟨hleft, hreportsLeft⟩ := @onExit_spec _ around isAlternate
      (.IfElseStatement token test consequent alternate) _ hlink (by
        rw [Restored] at halternate
        split_ifs at halternate
        · exact halternate
        · exact congrArg List.dropLast halternate)
    rw [traverse, occurrences]
    refine ⟨hleft, hreportsLeft.trans ?_⟩
    rw [hreportsAlternate, hreportsConsequent, hreportsTest, hreports, @filterMap_first _ _ _ (_ ++ _),
      List.filterMap_append, List.filterMap_append]
    simp only [List.append_assoc]
  | .statement type token children, isAlternate, around, state, hstack, hlink => by
    obtain ⟨hentered, hreports⟩ := @onEnter_spec _ threshold _ _ (.statement type token children) _ hstack hlink
    obtain ⟨hchildren, hreportsChildren⟩ := traverseAll_spec children _ _ hentered
    obtain ⟨hleft, hreportsLeft⟩ := @onExit_spec _ around isAlternate (.statement type token children) _ hlink
      (congrArg List.dropLast hchildren)
    rw [traverse, occurrences]
    refine ⟨hleft, hreportsLeft.trans ?_⟩
    rw [hreportsChildren, hreports, @filterMap_first _ _ _ (allOccurrences _ _), List.append_assoc]
  | .other children, isAlternate, around, state, hstack, hlink => by
    obtain ⟨hentered, hreports⟩ := @onEnter_spec _ threshold _ _ (.other children) _ hstack hlink
    obtain ⟨hchildren, hreportsChildren⟩ := traverseAll_spec children _ _ hentered
    rw [linkOf, enclosing_append rfl] at hchildren
    obtain ⟨hleft, hreportsLeft⟩ := @onExit_spec _ around isAlternate (.other children) _ hlink
      (hchildren.trans (List.append_nil _))
    rw [traverse, occurrences]
    refine ⟨hleft, hreportsLeft.trans ?_⟩
    rw [hreportsChildren, hreports, @filterMap_first _ _ _ (allOccurrences _ _), List.append_assoc]

theorem traverseAll_spec : ∀ (nodes : List (Node Token)) (around : List (Link Token)) (state : State Token),
    state.nodeStack = enclosing around →
    (traverseAll threshold nodes state).nodeStack = enclosing around ∧
      (traverseAll threshold nodes state).reports =
        state.reports ++ (allOccurrences around nodes).filterMap (expected threshold)
  | [], _, state, hstack => by
    rw [traverseAll, allOccurrences]
    exact ⟨hstack, (List.append_nil _).symm⟩
  | node :: nodes, around, state, hstack => by
    obtain ⟨hnode, hreports⟩ := traverse_spec node false around state hstack nofun
    rw [Node.isElseIf, Bool.and_false] at hnode
    obtain ⟨hnodes, hreportsNodes⟩ := traverseAll_spec nodes around _ hnode
    rw [traverseAll, allOccurrences]
    refine ⟨hnodes, ?_⟩
    rw [hreportsNodes, hreports, List.filterMap_append, List.append_assoc]

end

end Traversal

/-- The reports are those on the control flow statements that are no `else if` and have as many such statements around
them as the threshold says, with the first tokens of the links around them, and nothing stays in the stack. -/
theorem reports_eq (maximumNestingLevel : Option ℤ) (program : Node Token) :
    (run maximumNestingLevel program).reports = (occurrences [] false program).filterMap
        (expected (maximumNestingLevel.getD DEFAULT_MAXIMUM_NESTING_LEVEL)) ∧
      (run maximumNestingLevel program).nodeStack = [] := by
  obtain ⟨hstack, hreports⟩ := @traverse_spec _ (maximumNestingLevel.getD DEFAULT_MAXIMUM_NESTING_LEVEL) program false []
    ⟨[], []⟩ rfl nofun
  rw [Node.isElseIf, Bool.and_false] at hstack
  exact ⟨hreports, hstack⟩

mutual

/-- The control flow statements that are the alternate of an `IfStatement`, whatever their type. -/
def alternates : Node Token → List Token
  | .IfStatement _ test consequent => alternates test ++ alternates consequent
  | .IfElseStatement _ test consequent alternate =>
    alternates test ++ alternates consequent ++ alternate.firstToken.toList ++ alternates alternate
  | .statement _ _ children | .other children => allAlternates children

def allAlternates : List (Node Token) → List Token
  | [] => []
  | node :: nodes => alternates node ++ allAlternates nodes

end

/-- `if (a) b(); else for (;;) c();` -/
def loopInElse : Node ℕ :=
  .IfElseStatement 0 (.other []) (.other []) (.statement .ForStatement 1 [.other []])

/-- The loop is an alternate, but no `else if`. -/
theorem loopInElse_reported :
    ¬ ∀ report ∈ (run (some 1) loopInElse).reports, report.token ∉ alternates loopInElse := by
  intro h
  have hreports : (run (some 1) loopInElse).reports = [⟨messageOf 1, 1, [(0, "+1")]⟩] := rfl
  exact h ⟨messageOf 1, 1, [(0, "+1")]⟩ (hreports ▸ List.mem_cons_self) List.mem_cons_self

end SonarJavascript.Rules.ControlFlowNesting
