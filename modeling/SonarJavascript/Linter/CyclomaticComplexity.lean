import SonarJavascript.Embedded.Patch

/-!
# Cyclomatic complexity

The complexity of a file counts nodes by their type. S1541 walks each function on its own, without the functions in it,
and counts tokens.

`computeCyclomaticComplexity_eq`: the complexity of a file is what counts outside of functions and, for each function, the
tokens of S1541 with the nodes that have none (`default`, and `??` with no `&&` or `||` after it). S1541 reports the
functions above the threshold, but for those that define a module or are called where they are written.
-/

namespace SonarJavascript.Linter.CyclomaticComplexity

open Embedded (Node VisitorKeys childrenOf weight sizeOf_lt_of_mem_childrenOf)

variable {α : Type}

/-! ### The complexity of a file -/

def LOOP_NODES : List String :=
  ["ForStatement", "ForInStatement", "ForOfStatement", "WhileStatement", "DoWhileStatement"]

def CONDITIONAL_NODES : List String := ["IfStatement", "ConditionalExpression", "SwitchCase"]

def FUNCTION_NODES : List String := ["FunctionDeclaration", "FunctionExpression", "ArrowFunctionExpression"]

def COMPLEXITY_NODES : List String := CONDITIONAL_NODES ++ FUNCTION_NODES ++ LOOP_NODES ++ ["LogicalExpression"]

/-- The nodes that the loop of `visit` passes on; the top of the stack is the head of the list. -/
def visited (visitorKeys : VisitorKeys) (stack : List (Node α)) : List (Node α) :=
  match stack with
  | [] => []
  | node :: stack => node :: visited visitorKeys (childrenOf node visitorKeys ++ stack)
termination_by (stack.map (weight visitorKeys)).sum
decreasing_by
  rw [List.map_append, List.sum_append, List.map_cons, List.sum_cons, weight]
  simp

structure Token (Loc : Type) where
  type : String
  value : String
  loc : Loc

/-- The tree, the names of its identifiers, and the tokens as ESLint gives them. -/
structure SourceCode (α Loc : Type) where
  ast : Node α
  visitorKeys : VisitorKeys
  name : α → String
  getFirstToken : Node α → Option (Token Loc)
  getFirstTokenBetween : Node α → Node α → (Token Loc → Bool) → Option (Token Loc)
  getTokenAfter : Node α → (Token Loc → Bool) → Option (Token Loc)
  getMainFunctionTokenLocation : Node α → Option (Node α) → Loc

variable {Loc : Type}

def computeCyclomaticComplexity (sourceCode : SourceCode α Loc) : ℕ :=
  (visited sourceCode.visitorKeys [sourceCode.ast]).foldl
    (fun complexity node => if COMPLEXITY_NODES.contains node.type then complexity + 1 else complexity) 0

/-! ### The complexity of a function -/

namespace S1541

def DEFAULT_THRESHOLD : ℤ := 10

/-- A property with one node. -/
def property (node : Node α) (key : String) : Option (Node α) :=
  ((node.properties.lookup key).bind List.head?).join

def isFunctionNode (node : Node α) : Bool := FUNCTION_NODES.contains node.type

/-- Nodes that count with their first token. -/
def KEYWORD_NODES : List String :=
  ["IfStatement", "ForStatement", "ForInStatement", "ForOfStatement", "WhileStatement", "DoWhileStatement"]

section Visitor

variable (sourceCode : SourceCode α Loc)

/-- The token of a node that is no function. -/
def tokenOf (node : Node α) : Option (Token Loc) :=
  if node.type = "ConditionalExpression" then
    match property node "test", property node "consequent" with
    | some test, some consequent => sourceCode.getFirstTokenBetween test consequent fun token => token.value = "?"
    | _, _ => none
  else if node.type = "SwitchCase" then
    if (property node "test").isNone then none else sourceCode.getFirstToken node
  else if KEYWORD_NODES.contains node.type then sourceCode.getFirstToken node
  else if node.type = "LogicalExpression" then
    (property node "left").bind fun left => sourceCode.getTokenAfter left fun token =>
      ["||", "&&"].contains token.value && token.type = "Punctuator"
  else none

/-- `visitNode` of the `FunctionComplexityVisitor` of a root: the locations of the tokens. -/
def visitNode [DecidableEq α] (root : α) (parent : Option (Node α)) (node : Node α) : List Loc :=
  if isFunctionNode node ∧ node.id ≠ root then []
  else
    (if isFunctionNode node then [sourceCode.getMainFunctionTokenLocation node parent]
      else ((tokenOf sourceCode node).map Token.loc).toList) ++
      (childrenOf node sourceCode.visitorKeys).attach.flatMap fun child => visitNode root parent child.1
termination_by sizeOf node
decreasing_by exact sizeOf_lt_of_mem_childrenOf child.2

def computeCyclomaticComplexity [DecidableEq α] (node : Node α) (parent : Option (Node α)) : List Loc :=
  visitNode sourceCode node.id parent node

end Visitor

/-! ### The rule -/

structure Report (Loc : Type) where
  message : String
  cost : ℤ
  secondaryLocations : List (Loc × String)
  loc : Loc

/-- A `Map` from functions to their parents, in the order of insertion, and two arrays of functions. -/
structure State (α : Type) where
  functionsWithParent : List (Node α × Option (Node α))
  functionsDefiningModule : List α
  functionsImmediatelyInvoked : List α

def State.empty : State α := ⟨[], [], []⟩

/-- `Map.set` -/
def setFunction [DecidableEq α] (node : Node α) (parent : Option (Node α)) :
    List (Node α × Option (Node α)) → List (Node α × Option (Node α))
  | [] => [(node, parent)]
  | entry :: entries =>
    if entry.1.id = node.id then (entry.1, parent) :: entries else entry :: setFunction node parent entries

section Rule

variable (sourceCode : SourceCode α Loc)

/-- `CallExpression[callee.type='Identifier'][callee.name='define']` -/
def isDefine (node : Node α) : Bool :=
  node.type = "CallExpression" && (property node "callee").any fun callee =>
    callee.type = "Identifier" && sourceCode.name callee.id = "define"

/-- The callee of a `new` expression or a call, if it is a function expression. -/
def invokedFunction (node : Node α) : Option (Node α) :=
  if node.type = "NewExpression" ∨ node.type = "CallExpression" then
    (property node "callee").filter fun callee => callee.type = "FunctionExpression"
  else none

/-- The listeners on a node. -/
def enter [DecidableEq α] (ancestors : List (Node α)) (node : Node α) (state : State α) : State α :=
  let state := if node.type = "Program" then .empty else state
  { functionsWithParent :=
      if isFunctionNode node then setFunction node ancestors.head? state.functionsWithParent
      else state.functionsWithParent
    functionsDefiningModule :=
      if node.type = "FunctionExpression" ∧ ancestors.any (isDefine sourceCode) = true then
        state.functionsDefiningModule ++ [node.id]
      else state.functionsDefiningModule
    functionsImmediatelyInvoked :=
      state.functionsImmediatelyInvoked ++ ((invokedFunction node).map Node.id).toList }

/-- The nodes as ESLint enters them, each with the nodes above it, the parent first. -/
def occurrences (ancestors : List (Node α)) (node : Node α) : List (List (Node α) × Node α) :=
  (ancestors, node) :: (childrenOf node sourceCode.visitorKeys).attach.flatMap fun child =>
    occurrences (node :: ancestors) child.1
termination_by sizeOf node
decreasing_by exact sizeOf_lt_of_mem_childrenOf child.2

def traverse [DecidableEq α] : State α :=
  (occurrences sourceCode [] sourceCode.ast).foldl
    (fun state occurrence => enter sourceCode occurrence.1 occurrence.2 state) .empty

def raiseOnUnauthorizedComplexity [DecidableEq α] (node : Node α) (parent : Option (Node α)) (threshold : ℤ) :
    Option (Report Loc) :=
  let tokens := computeCyclomaticComplexity sourceCode node parent
  if tokens.length > threshold then
    some {
      message := "Function has a complexity of " ++ toString tokens.length ++ " which is greater than " ++
        toString threshold ++ " authorized."
      cost := tokens.length - threshold
      secondaryLocations := tokens.map fun loc => (loc, "+1")
      loc := sourceCode.getMainFunctionTokenLocation node parent }
  else none

/-- `Program:exit` -/
def exit [DecidableEq α] (threshold : Option ℤ) (state : State α) : List (Report Loc) :=
  (state.functionsWithParent.filter fun entry =>
    !state.functionsDefiningModule.contains entry.1.id && !state.functionsImmediatelyInvoked.contains entry.1.id).filterMap
    fun entry => raiseOnUnauthorizedComplexity sourceCode entry.1 entry.2 (threshold.getD DEFAULT_THRESHOLD)

end Rule

end S1541

/-! ### Regions -/

/-- The nodes of a tree, a node before what is under it. -/
def subtree (visitorKeys : VisitorKeys) (node : Node α) : List (Node α) :=
  node :: (childrenOf node visitorKeys).attach.flatMap fun child => subtree visitorKeys child.1
termination_by sizeOf node
decreasing_by exact sizeOf_lt_of_mem_childrenOf child.2

/-- The nodes under a node that are in no further function. -/
def own (visitorKeys : VisitorKeys) (node : Node α) : List (Node α) :=
  (childrenOf node visitorKeys).attach.flatMap fun child =>
    if S1541.isFunctionNode child.1 then [] else child.1 :: own visitorKeys child.1
termination_by sizeOf node
decreasing_by exact sizeOf_lt_of_mem_childrenOf child.2

/-- A node that is no function, with its own nodes. -/
def region (visitorKeys : VisitorKeys) (node : Node α) : List (Node α) :=
  if S1541.isFunctionNode node then [] else node :: own visitorKeys node

section Trees

variable {visitorKeys : VisitorKeys} {node : Node α}

theorem induction_childrenOf (visitorKeys : VisitorKeys) {motive : Node α → Prop}
    (h : ∀ node, (∀ child ∈ childrenOf node visitorKeys, motive child) → motive node) (node : Node α) :
    motive node :=
  h node fun child hchild =>
    have := sizeOf_lt_of_mem_childrenOf hchild
    induction_childrenOf visitorKeys h child
termination_by sizeOf node

theorem flatMap_attach {β γ : Type} (l : List β) (f : β → List γ) :
    (l.attach.flatMap fun b => f b.1) = l.flatMap f := by
  rw [List.flatMap, List.attach_map_val]
  rfl

theorem subtree_eq (visitorKeys : VisitorKeys) (node : Node α) :
    subtree visitorKeys node = node :: (childrenOf node visitorKeys).flatMap (subtree visitorKeys) := by
  rw [subtree, flatMap_attach]

theorem own_eq (visitorKeys : VisitorKeys) (node : Node α) :
    own visitorKeys node = (childrenOf node visitorKeys).flatMap (region visitorKeys) := by
  rw [own]
  exact flatMap_attach _ (region visitorKeys)

theorem visited_eq (visitorKeys : VisitorKeys) (stack : List (Node α)) :
    visited visitorKeys stack = stack.flatMap (subtree visitorKeys) := by
  fun_induction visited visitorKeys stack with
  | case1 => rfl
  | case2 node stack ih => rw [ih, List.flatMap_append, List.flatMap_cons, subtree_eq, List.cons_append]

theorem visited_ids (visitorKeys : VisitorKeys) (stack : List (Node α)) :
    (visited visitorKeys stack).map Node.id = Embedded.visit visitorKeys stack := by
  fun_induction visited visitorKeys stack with
  | case1 => rw [Embedded.visit, List.map_nil]
  | case2 node stack ih => rw [Embedded.visit, List.map_cons, ih]

theorem mem_subtree_self (visitorKeys : VisitorKeys) (node : Node α) : node ∈ subtree visitorKeys node := by
  rw [subtree_eq]
  exact List.mem_cons_self

/-- Every node is in the region of the tree, is a function, or is in the region of exactly one function. -/
theorem countP_subtree (p : Node α → Bool) (visitorKeys : VisitorKeys) (node : Node α) :
    (subtree visitorKeys node).countP p = (region visitorKeys node).countP p +
      (((subtree visitorKeys node).filter S1541.isFunctionNode).map fun f =>
        (if p f then 1 else 0) + (own visitorKeys f).countP p).sum := by
  induction node using induction_childrenOf visitorKeys with
  | h node ih =>
    have hchildren : ∀ children : List (Node α), (∀ child ∈ children, child ∈ childrenOf node visitorKeys) →
        (children.flatMap (subtree visitorKeys)).countP p = (children.flatMap (region visitorKeys)).countP p +
          (((children.flatMap (subtree visitorKeys)).filter S1541.isFunctionNode).map fun f =>
            (if p f then 1 else 0) + (own visitorKeys f).countP p).sum := by
      intro children hmem
      induction children with
      | nil => rfl
      | cons child children ihc =>
        have hchild := ih child (hmem child List.mem_cons_self)
        have hrest := ihc fun c hc => hmem c (List.mem_cons_of_mem _ hc)
        simp only [List.flatMap_cons, List.countP_append, List.filter_append, List.map_append, List.sum_append]
        omega
    have hall := hchildren _ fun _ h => h
    rw [subtree_eq, List.countP_cons, hall, region, ← own_eq]
    by_cases hf : S1541.isFunctionNode node = true
    · rw [if_pos hf, List.filter_cons_of_pos hf, List.map_cons, List.sum_cons, List.countP_nil]
      omega
    · rw [if_neg hf, List.filter_cons_of_neg hf, List.countP_cons]
      omega

theorem subtree_sublist {n : Node α} (h : n ∈ subtree visitorKeys node) :
    (subtree visitorKeys n).Sublist (subtree visitorKeys node) := by
  induction node using induction_childrenOf visitorKeys with
  | h node ih =>
    have hnode := h
    rw [subtree_eq] at hnode
    rcases List.mem_cons.mp hnode with rfl | hn
    · exact List.Sublist.refl _
    · obtain ⟨child, hchild, hn⟩ := List.mem_flatMap.mp hn
      rw [subtree_eq visitorKeys node]
      refine (ih child hchild hn).trans (List.Sublist.cons _ ?_)
      rw [List.flatMap]
      exact List.sublist_flatten_of_mem (List.mem_map_of_mem hchild)

theorem occurrences_eq (sourceCode : SourceCode α Loc) (ancestors : List (Node α)) (node : Node α) :
    S1541.occurrences sourceCode ancestors node = (ancestors, node) ::
      (childrenOf node sourceCode.visitorKeys).flatMap (S1541.occurrences sourceCode (node :: ancestors)) := by
  rw [S1541.occurrences]
  exact congrArg (_ :: ·) (flatMap_attach _ (S1541.occurrences sourceCode (node :: ancestors)))

theorem subtree_occurrences (sourceCode : SourceCode α Loc) (ancestors : List (Node α)) (node : Node α) :
    (S1541.occurrences sourceCode ancestors node).map Prod.snd = subtree sourceCode.visitorKeys node := by
  induction node using induction_childrenOf sourceCode.visitorKeys generalizing ancestors with
  | h node ih =>
    rw [occurrences_eq, subtree_eq, List.map_cons, List.map_flatMap]
    refine congrArg (node :: ·) ?_
    simp only [List.flatMap]
    exact congrArg List.flatten (List.map_congr_left fun child hchild => ih child hchild (node :: ancestors))

end Trees

/-! ### Tokens -/

section Tokens

variable (sourceCode : SourceCode α Loc)

def counts (node : Node α) : Bool := COMPLEXITY_NODES.contains node.type

/-- A node that counts for a file and not for a function. -/
def uncounted (node : Node α) : Bool := counts node && (S1541.tokenOf sourceCode node).isNone

theorem counts_of_isFunctionNode {node : Node α} (hf : S1541.isFunctionNode node = true) : counts node = true := by
  simp only [S1541.isFunctionNode, counts, List.contains_iff_mem] at hf ⊢
  simp only [COMPLEXITY_NODES, List.mem_append]
  exact .inl (.inl (.inr hf))

theorem counts_of_keyword {node : Node α} (h : S1541.KEYWORD_NODES.contains node.type = true) : counts node = true := by
  rw [List.contains_iff_mem] at h
  rw [counts, List.contains_iff_mem]
  exact (show S1541.KEYWORD_NODES ⊆ COMPLEXITY_NODES by decide) h

theorem counts_of_token {node : Node α} (h : (S1541.tokenOf sourceCode node).isSome = true) : counts node = true := by
  unfold S1541.tokenOf at h
  split_ifs at h with hconditional hcase htest hkeyword hlogical
  · rw [counts, hconditional]
    decide
  · exact absurd h (by simp)
  · rw [counts, hcase]
    decide
  · exact counts_of_keyword hkeyword
  · rw [counts, hlogical]
    decide
  · exact absurd h (by simp)

theorem countP_region (nodes : List (Node α)) :
    nodes.countP counts = nodes.countP (fun n => (S1541.tokenOf sourceCode n).isSome) +
      nodes.countP (uncounted sourceCode) := by
  induction nodes with
  | nil => rfl
  | cons node nodes ih =>
    rw [List.countP_cons, List.countP_cons, List.countP_cons, ih]
    cases htoken : S1541.tokenOf sourceCode node with
    | none =>
      simp only [uncounted, htoken]
      cases counts node <;> simp
      omega
    | some token =>
      have hcounts : counts node = true := counts_of_token sourceCode (by simp [htoken])
      simp only [uncounted, htoken, hcounts]
      simp
      omega

variable [DecidableEq α]

theorem visitNode_eq (root : α) (parent : Option (Node α)) (node : Node α) :
    S1541.visitNode sourceCode root parent node =
      if S1541.isFunctionNode node ∧ node.id ≠ root then []
      else
        (if S1541.isFunctionNode node then [sourceCode.getMainFunctionTokenLocation node parent]
          else ((S1541.tokenOf sourceCode node).map Token.loc).toList) ++
          (childrenOf node sourceCode.visitorKeys).flatMap (S1541.visitNode sourceCode root parent) := by
  rw [S1541.visitNode, flatMap_attach]

/-- A function other than the root is left out with what is under it. -/
theorem length_visitNode (root : α) (parent : Option (Node α)) (node : Node α)
    (h : ∀ n ∈ subtree sourceCode.visitorKeys node, S1541.isFunctionNode n = true → n.id ≠ root) :
    (S1541.visitNode sourceCode root parent node).length =
      (region sourceCode.visitorKeys node).countP fun n => (S1541.tokenOf sourceCode n).isSome := by
  induction node using induction_childrenOf sourceCode.visitorKeys with
  | h node ih =>
    rw [visitNode_eq, region]
    by_cases hf : S1541.isFunctionNode node = true
    · rw [if_pos ⟨hf, h node (mem_subtree_self _ _) hf⟩, if_pos hf]
      rfl
    · rw [if_neg fun h => hf h.1, if_neg hf, if_neg hf, List.length_append, List.length_flatMap, List.countP_cons, own_eq,
        List.countP_flatMap]
      have hchildren : (childrenOf node sourceCode.visitorKeys).map
          (fun child => (S1541.visitNode sourceCode root parent child).length) =
          (childrenOf node sourceCode.visitorKeys).map (List.countP (fun n => (S1541.tokenOf sourceCode n).isSome) ∘
            region sourceCode.visitorKeys) := by
        refine List.map_congr_left fun child hchild => ih child hchild fun n hn => h n ?_
        rw [subtree_eq]
        exact List.mem_cons_of_mem _ (List.mem_flatMap.mpr ⟨child, hchild, hn⟩)
      rw [hchildren]
      cases S1541.tokenOf sourceCode node <;> simp
      omega

theorem length_computeCyclomaticComplexity {f : Node α} (parent : Option (Node α)) (hf : S1541.isFunctionNode f = true)
    (hnodup : ((subtree sourceCode.visitorKeys f).map Node.id).Nodup) :
    (S1541.computeCyclomaticComplexity sourceCode f parent).length +
        (own sourceCode.visitorKeys f).countP (uncounted sourceCode) =
      1 + (own sourceCode.visitorKeys f).countP counts := by
  rw [subtree_eq, List.map_cons, List.nodup_cons] at hnodup
  have hchildren : (childrenOf f sourceCode.visitorKeys).map
      (fun child => (S1541.visitNode sourceCode f.id parent child).length) =
      (childrenOf f sourceCode.visitorKeys).map (List.countP (fun n => (S1541.tokenOf sourceCode n).isSome) ∘
        region sourceCode.visitorKeys) := by
    refine List.map_congr_left fun child hchild => length_visitNode sourceCode f.id parent child fun n hn _ hid => ?_
    exact hnodup.1 (hid ▸ List.mem_map_of_mem (List.mem_flatMap.mpr ⟨child, hchild, hn⟩))
  rw [S1541.computeCyclomaticComplexity, visitNode_eq, if_neg (fun h => h.2 rfl), if_pos hf, List.length_append,
    List.length_flatMap, hchildren, ← List.countP_flatMap, ← own_eq, countP_region sourceCode]
  simp only [List.length_singleton]
  omega

end Tokens

/-! ### The rule -/

section Rule

variable [DecidableEq α] (sourceCode : SourceCode α Loc)

/-- The functions with their parents, in the order of the text. -/
def functions : List (Node α × Option (Node α)) :=
  ((S1541.occurrences sourceCode [] sourceCode.ast).filter fun occurrence => S1541.isFunctionNode occurrence.2).map
    fun occurrence => (occurrence.2, occurrence.1.head?)

/-- A function expression that defines a module, and a function that is called where it is written. -/
def isExempt (occurrence : List (Node α) × Node α) : Bool :=
  (occurrence.2.type = "FunctionExpression" && occurrence.1.any (S1541.isDefine sourceCode)) ||
    (subtree sourceCode.visitorKeys sourceCode.ast).any fun node =>
      (S1541.invokedFunction node).any fun invoked => invoked.id = occurrence.2.id

theorem setFunction_of_new {node : Node α} {parent : Option (Node α)} {entries : List (Node α × Option (Node α))}
    (h : node.id ∉ entries.map fun entry => entry.1.id) :
    S1541.setFunction node parent entries = entries ++ [(node, parent)] := by
  induction entries with
  | nil => rfl
  | cons entry entries ih =>
    rw [List.map_cons, List.mem_cons, not_or] at h
    rw [S1541.setFunction, if_neg (Ne.symm h.1), ih h.2, List.cons_append]

theorem enter_eq (occurrence : List (Node α) × Node α) {state : S1541.State α}
    (hprogram : occurrence.2.type = "Program" → state = .empty)
    (hnew : occurrence.2.id ∉ state.functionsWithParent.map fun entry => entry.1.id) :
    S1541.enter sourceCode occurrence.1 occurrence.2 state =
      { functionsWithParent := state.functionsWithParent ++
          ([occurrence].filter fun occurrence => S1541.isFunctionNode occurrence.2).map fun occurrence =>
            (occurrence.2, occurrence.1.head?)
        functionsDefiningModule := state.functionsDefiningModule ++
          ([occurrence].filter fun occurrence => occurrence.2.type = "FunctionExpression" &&
            occurrence.1.any (S1541.isDefine sourceCode)).map fun occurrence => occurrence.2.id
        functionsImmediatelyInvoked := state.functionsImmediatelyInvoked ++
          ((S1541.invokedFunction occurrence.2).map Node.id).toList } := by
  have hstate : (if occurrence.2.type = "Program" then S1541.State.empty else state) = state := by
    split_ifs with h
    · exact (hprogram h).symm
    · rfl
  rw [S1541.enter, hstate, setFunction_of_new hnew]
  refine S1541.State.mk.injEq .. |>.mpr ⟨?_, ?_, rfl⟩
  · by_cases hf : S1541.isFunctionNode occurrence.2 = true <;> simp [hf]
  · by_cases hdefine : occurrence.2.type = "FunctionExpression" ∧
        occurrence.1.any (S1541.isDefine sourceCode) = true
    · rw [if_pos hdefine, List.filter_cons_of_pos (by simpa using hdefine)]
      rfl
    · rw [if_neg hdefine, List.filter_cons_of_neg (by simpa using hdefine)]
      simp

omit [DecidableEq α] in
/-- The functions that have been entered are not entered again. -/
theorem nodup_entered {entries : List (Node α × Option (Node α))} (occurrence : List (Node α) × Node α)
    (rest : List (List (Node α) × Node α)) (h : (entries.map (fun entry => entry.1.id) ++
      (occurrence :: rest).map fun occurrence => occurrence.2.id).Nodup) :
    (((entries ++ ([occurrence].filter fun occurrence => S1541.isFunctionNode occurrence.2).map fun occurrence =>
        (occurrence.2, occurrence.1.head?)).map fun entry => entry.1.id) ++
      rest.map fun occurrence => occurrence.2.id).Nodup := by
  refine h.sublist ?_
  rw [List.map_append, List.append_assoc, List.map_cons]
  refine List.Sublist.append (List.Sublist.refl _) ?_
  by_cases hf : S1541.isFunctionNode occurrence.2 = true
  · simp [hf]
  · simp [hf]

/-- What the listeners collect from nodes of which none is the program. -/
theorem foldl_enter (occurrences : List (List (Node α) × Node α)) (state : S1541.State α)
    (hprogram : ∀ occurrence ∈ occurrences, occurrence.2.type ≠ "Program")
    (hnodup : (state.functionsWithParent.map (fun entry => entry.1.id) ++
      occurrences.map fun occurrence => occurrence.2.id).Nodup) :
    occurrences.foldl (fun state occurrence => S1541.enter sourceCode occurrence.1 occurrence.2 state) state =
      { functionsWithParent := state.functionsWithParent ++
          (occurrences.filter fun occurrence => S1541.isFunctionNode occurrence.2).map fun occurrence =>
            (occurrence.2, occurrence.1.head?)
        functionsDefiningModule := state.functionsDefiningModule ++
          (occurrences.filter fun occurrence => occurrence.2.type = "FunctionExpression" &&
            occurrence.1.any (S1541.isDefine sourceCode)).map fun occurrence => occurrence.2.id
        functionsImmediatelyInvoked := state.functionsImmediatelyInvoked ++
          occurrences.flatMap fun occurrence => ((S1541.invokedFunction occurrence.2).map Node.id).toList } := by
  induction occurrences generalizing state with
  | nil => simp
  | cons occurrence rest ih =>
    have hnew : occurrence.2.id ∉ state.functionsWithParent.map fun entry => entry.1.id := fun hmem =>
      List.disjoint_of_nodup_append hnodup hmem List.mem_cons_self
    have hrest := nodup_entered occurrence rest hnodup
    rw [List.foldl_cons, enter_eq sourceCode occurrence (fun h => absurd h (hprogram occurrence List.mem_cons_self)) hnew,
      ih _ (fun o ho => hprogram o (List.mem_cons_of_mem _ ho)) hrest]
    simp only [List.append_assoc, ← List.map_append, ← List.filter_append, List.singleton_append, List.flatMap_cons]

omit [DecidableEq α] in
theorem ids_occurrences (ancestors : List (Node α)) (node : Node α) :
    (S1541.occurrences sourceCode ancestors node).map (fun occurrence => occurrence.2.id) =
      (subtree sourceCode.visitorKeys node).map Node.id := by
  rw [← subtree_occurrences sourceCode ancestors node, List.map_map]
  rfl

theorem traverse_eq (hnodup : ((subtree sourceCode.visitorKeys sourceCode.ast).map Node.id).Nodup)
    (hprogram : ∀ node ∈ (subtree sourceCode.visitorKeys sourceCode.ast).tail, node.type ≠ "Program") :
    S1541.traverse sourceCode =
      { functionsWithParent := functions sourceCode
        functionsDefiningModule :=
          ((S1541.occurrences sourceCode [] sourceCode.ast).filter fun occurrence =>
            occurrence.2.type = "FunctionExpression" && occurrence.1.any (S1541.isDefine sourceCode)).map
            fun occurrence => occurrence.2.id
        functionsImmediatelyInvoked := (S1541.occurrences sourceCode [] sourceCode.ast).flatMap fun occurrence =>
          ((S1541.invokedFunction occurrence.2).map Node.id).toList } := by
  obtain ⟨rest, hcons⟩ : ∃ rest, S1541.occurrences sourceCode [] sourceCode.ast = ([], sourceCode.ast) :: rest :=
    ⟨_, by rw [S1541.occurrences]⟩
  have hids := ids_occurrences sourceCode [] sourceCode.ast
  have hnodes := subtree_occurrences sourceCode [] sourceCode.ast
  rw [hcons, List.map_cons] at hids hnodes
  rw [← hids] at hnodup
  rw [← hnodes, List.tail_cons] at hprogram
  rw [S1541.traverse, functions, hcons, List.foldl_cons,
    enter_eq sourceCode ([], sourceCode.ast) (fun _ => rfl) (List.not_mem_nil), foldl_enter]
  · simp only [S1541.State.empty, List.nil_append, ← List.map_append, ← List.filter_append, List.singleton_append,
      List.flatMap_cons]
  · exact fun occurrence hmem => hprogram _ (List.mem_map_of_mem hmem)
  · exact nodup_entered ([], sourceCode.ast) rest hnodup

/-- A function is in the array if and only if it has been put there when it was entered. -/
theorem contains_defining (hnodup : ((subtree sourceCode.visitorKeys sourceCode.ast).map Node.id).Nodup)
    {occurrence : List (Node α) × Node α} (hmem : occurrence ∈ S1541.occurrences sourceCode [] sourceCode.ast)
    (p : List (Node α) × Node α → Bool) :
    (((S1541.occurrences sourceCode [] sourceCode.ast).filter p).map fun occurrence => occurrence.2.id).contains
      occurrence.2.id = p occurrence := by
  rw [← ids_occurrences sourceCode [] sourceCode.ast] at hnodup
  rw [Bool.eq_iff_iff, List.contains_iff_mem, List.mem_map]
  constructor
  · rintro ⟨other, hother, hid⟩
    obtain ⟨hother, hp⟩ := List.mem_filter.mp hother
    obtain rfl := List.inj_on_of_nodup_map hnodup hother hmem hid
    exact hp
  · exact fun hp => ⟨occurrence, List.mem_filter.mpr ⟨hmem, hp⟩, rfl⟩

theorem contains_invoked (id : α) :
    ((S1541.occurrences sourceCode [] sourceCode.ast).flatMap fun occurrence =>
        ((S1541.invokedFunction occurrence.2).map Node.id).toList).contains id =
      (subtree sourceCode.visitorKeys sourceCode.ast).any fun node =>
        (S1541.invokedFunction node).any fun invoked => invoked.id = id := by
  rw [← subtree_occurrences sourceCode [] sourceCode.ast, Bool.eq_iff_iff, List.contains_iff_mem, List.mem_flatMap,
    List.any_map, List.any_eq_true]
  refine exists_congr fun occurrence => and_congr_right fun _ => ?_
  cases h : S1541.invokedFunction occurrence.2 with
  | none => simp [h]
  | some invoked => simp [h, eq_comm]

omit [DecidableEq α] in
theorem computeCyclomaticComplexity_countP :
    computeCyclomaticComplexity sourceCode = (subtree sourceCode.visitorKeys sourceCode.ast).countP counts := by
  have hfoldl : ∀ (nodes : List (Node α)) (start : ℕ), nodes.foldl (fun complexity node =>
      if COMPLEXITY_NODES.contains node.type then complexity + 1 else complexity) start =
        start + nodes.countP counts := by
    intro nodes
    induction nodes with
    | nil => intro start; rfl
    | cons node nodes ih =>
      intro start
      rw [List.foldl_cons, ih, List.countP_cons, counts]
      split_ifs <;> omega
  rw [computeCyclomaticComplexity, visited_eq, hfoldl, List.flatMap_singleton, Nat.zero_add]

theorem computeCyclomaticComplexity_eq (threshold : Option ℤ)
    (hnodup : ((subtree sourceCode.visitorKeys sourceCode.ast).map Node.id).Nodup)
    (hprogram : ∀ node ∈ (subtree sourceCode.visitorKeys sourceCode.ast).tail, node.type ≠ "Program") :
    computeCyclomaticComplexity sourceCode =
        (region sourceCode.visitorKeys sourceCode.ast).countP counts +
          ((S1541.traverse sourceCode).functionsWithParent.map fun f =>
            (S1541.computeCyclomaticComplexity sourceCode f.1 f.2).length +
              (own sourceCode.visitorKeys f.1).countP (uncounted sourceCode)).sum ∧
      S1541.exit sourceCode threshold (S1541.traverse sourceCode) =
        ((S1541.occurrences sourceCode [] sourceCode.ast).filter fun occurrence =>
          S1541.isFunctionNode occurrence.2 && !isExempt sourceCode occurrence).filterMap fun occurrence =>
            S1541.raiseOnUnauthorizedComplexity sourceCode occurrence.2 occurrence.1.head?
              (threshold.getD S1541.DEFAULT_THRESHOLD) := by
  have htraverse := traverse_eq sourceCode hnodup hprogram
  constructor
  · rw [computeCyclomaticComplexity_countP, countP_subtree counts, htraverse]
    have hfunctions : ((functions sourceCode).map fun f =>
        (S1541.computeCyclomaticComplexity sourceCode f.1 f.2).length +
          (own sourceCode.visitorKeys f.1).countP (uncounted sourceCode)) =
        ((subtree sourceCode.visitorKeys sourceCode.ast).filter S1541.isFunctionNode).map fun f =>
          (if counts f then 1 else 0) + (own sourceCode.visitorKeys f).countP counts := by
      rw [functions, ← subtree_occurrences sourceCode [] sourceCode.ast, List.filter_map, List.map_map, List.map_map]
      refine List.map_congr_left fun occurrence hmem => ?_
      obtain ⟨hmem, hf⟩ := List.mem_filter.mp hmem
      have hsub : (subtree sourceCode.visitorKeys occurrence.2).Sublist
          (subtree sourceCode.visitorKeys sourceCode.ast) := by
        apply subtree_sublist
        rw [← subtree_occurrences sourceCode [] sourceCode.ast]
        exact List.mem_map_of_mem hmem
      simp only [Function.comp_apply, counts_of_isFunctionNode hf, if_true]
      exact length_computeCyclomaticComplexity sourceCode _ hf (hnodup.sublist (hsub.map Node.id))
    rw [hfunctions]
  · rw [S1541.exit, htraverse, functions, List.filter_map, List.filterMap_map, List.filter_filter]
    have hkept : ∀ occurrence ∈ S1541.occurrences sourceCode [] sourceCode.ast,
        (!(((S1541.occurrences sourceCode [] sourceCode.ast).filter fun occurrence =>
            occurrence.2.type = "FunctionExpression" && occurrence.1.any (S1541.isDefine sourceCode)).map
              fun occurrence => occurrence.2.id).contains occurrence.2.id &&
          !((S1541.occurrences sourceCode [] sourceCode.ast).flatMap fun occurrence =>
            ((S1541.invokedFunction occurrence.2).map Node.id).toList).contains occurrence.2.id) =
          !isExempt sourceCode occurrence := by
      intro occurrence hmem
      rw [contains_defining sourceCode hnodup hmem, contains_invoked, isExempt, Bool.not_or]
    refine congrArg (List.filterMap _) (List.filter_congr fun occurrence hmem => ?_)
    rw [Bool.and_comm, ← hkept occurrence hmem]
    rfl

end Rule

/-! ### A function with a condition -/

def leaf (id : ℕ) (type : String) : Node ℕ := .mk id type []

/-- `if (a) { }` -/
def condition : Node ℕ :=
  .mk 4 "IfStatement" [("test", [some (leaf 5 "Identifier")]), ("consequent", [some (leaf 6 "BlockStatement")]),
    ("alternate", [none])]

def block : Node ℕ := .mk 3 "BlockStatement" [("body", [some condition])]

/-- `function f() { if (a) { } }` -/
def function : Node ℕ :=
  .mk 1 "FunctionDeclaration" [("id", [some (leaf 2 "Identifier")]), ("params", []), ("body", [some block])]

def withCondition : Node ℕ := .mk 0 "Program" [("body", [some function])]

def keysOf : List (String × List String) :=
  [("Program", ["body"]), ("FunctionDeclaration", ["id", "params", "body"]), ("BlockStatement", ["body"]),
    ("IfStatement", ["test", "consequent", "alternate"]), ("Identifier", [])]

/-- The tokens are known by the nodes that they start. -/
def conditionSource : SourceCode ℕ ℕ where
  ast := withCondition
  visitorKeys type := keysOf.lookup type
  name _ := "a"
  getFirstToken node := some ⟨"Keyword", "if", node.id⟩
  getFirstTokenBetween _ _ _ := none
  getTokenAfter _ _ := none
  getMainFunctionTokenLocation node _ := node.id

theorem childrenOf_conditionSource :
    childrenOf withCondition conditionSource.visitorKeys = [function] ∧
      childrenOf function conditionSource.visitorKeys = [leaf 2 "Identifier", block] ∧
      childrenOf block conditionSource.visitorKeys = [condition] ∧
      childrenOf condition conditionSource.visitorKeys = [leaf 5 "Identifier", leaf 6 "BlockStatement"] :=
  ⟨rfl, rfl, rfl, rfl⟩

theorem childrenOf_leaf (id : ℕ) (type : String) : childrenOf (leaf id type) conditionSource.visitorKeys = [] := by
  simp only [childrenOf, leaf, Node.properties, List.lookup_nil, Option.getD_none]
  split <;> simp

theorem subtree_conditionSource : subtree conditionSource.visitorKeys conditionSource.ast =
    [withCondition, function, leaf 2 "Identifier", block, condition, leaf 5 "Identifier", leaf 6 "BlockStatement"] := by
  obtain ⟨hprogram, hfunction, hblock, hcondition⟩ := childrenOf_conditionSource
  rw [show conditionSource.ast = withCondition from rfl]
  simp [subtree_eq, hprogram, hfunction, hblock, hcondition, childrenOf_leaf]

theorem functions_conditionSource : functions conditionSource = [(function, some withCondition)] := by
  obtain ⟨hprogram, hfunction, hblock, hcondition⟩ := childrenOf_conditionSource
  have hoccurrences : S1541.occurrences conditionSource [] conditionSource.ast = [([], withCondition),
      ([withCondition], function), ([function, withCondition], leaf 2 "Identifier"), ([function, withCondition], block),
      ([block, function, withCondition], condition),
      ([condition, block, function, withCondition], leaf 5 "Identifier"),
      ([condition, block, function, withCondition], leaf 6 "BlockStatement")] := by
    rw [show conditionSource.ast = withCondition from rfl]
    simp [occurrences_eq, hprogram, hfunction, hblock, hcondition, childrenOf_leaf]
  rw [functions, hoccurrences]
  rfl

theorem computeCyclomaticComplexity_eq_condition :
    (region conditionSource.visitorKeys withCondition).countP counts +
      ((S1541.computeCyclomaticComplexity conditionSource function (some withCondition)).length +
        (own conditionSource.visitorKeys function).countP (uncounted conditionSource)) = 2 := by
  have hnodup : ((subtree conditionSource.visitorKeys conditionSource.ast).map Node.id).Nodup := by
    rw [subtree_conditionSource]
    decide
  have hprogram : ∀ node ∈ (subtree conditionSource.visitorKeys conditionSource.ast).tail, node.type ≠ "Program" := by
    rw [subtree_conditionSource]
    decide
  have hsum := (computeCyclomaticComplexity_eq conditionSource none hnodup hprogram).1
  rw [traverse_eq conditionSource hnodup hprogram, functions_conditionSource, computeCyclomaticComplexity_countP,
    subtree_conditionSource] at hsum
  exact hsum.symm

end SonarJavascript.Linter.CyclomaticComplexity
