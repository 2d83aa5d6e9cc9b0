import SonarJavascript.Rules.CognitiveComplexity

/-!
# Points of cognitive complexity (S3776)

`pointsOf` is the complexity of a subtree by recursion. `Adds` relates the variables before and after a
run to such points, and `enterNode_adds` says it of the listeners of one node.
-/

namespace SonarJavascript.Rules.S3776

variable {Loc : Type}

/-! ### Subtrees -/

@[simp] theorem mem_idsOf {i : ℕ} {children : List Node} :
    i ∈ idsOf children ↔ ∃ child ∈ children, i ∈ child.ids := by
  induction children with
  | nil => simp [idsOf]
  | cons child children ih => simp [idsOf, ih]

theorem Node.ids_eq (node : Node) : node.ids = node.id :: idsOf node.children := by
  obtain ⟨data, children⟩ := node
  rw [Node.ids]
  rfl

theorem Node.id_mem_ids (node : Node) : node.id ∈ node.ids := by
  simp [node.ids_eq]

theorem ids_subset_of_mem_children {node child : Node} (h : child ∈ node.children) : child.ids ⊆ node.ids :=
  fun i hi => by
    rw [node.ids_eq]
    exact List.mem_cons_of_mem _ (mem_idsOf.mpr ⟨child, h, hi⟩)

theorem nodup_ids_iff {node : Node} :
    node.ids.Nodup ↔ node.id ∉ idsOf node.children ∧ (idsOf node.children).Nodup := by
  rw [node.ids_eq, List.nodup_cons]

theorem nodup_idsOf_cons {child : Node} {children : List Node} :
    (idsOf (child :: children)).Nodup ↔
      child.ids.Nodup ∧ (idsOf children).Nodup ∧ ∀ i ∈ child.ids, ∀ c ∈ children, i ∉ c.ids := by
  rw [idsOf, List.nodup_append]
  simp only [mem_idsOf, ne_eq]
  constructor
  · rintro ⟨hchild, hchildren, hne⟩
    exact ⟨hchild, hchildren, fun i hi c hc hic => hne i hi i ⟨c, hc, hic⟩ rfl⟩
  · rintro ⟨hchild, hchildren, hdisj⟩
    refine ⟨hchild, hchildren, ?_⟩
    rintro i hi _ ⟨c, hc, hic⟩ rfl
    exact hdisj i hi c hc hic

theorem child_unique {children : List Node} (hnodup : (idsOf children).Nodup) {c c' : Node} {i : ℕ}
    (hc : c ∈ children) (hc' : c' ∈ children) (hi : i ∈ c.ids) (hi' : i ∈ c'.ids) : c = c' := by
  induction children with
  | nil => simp at hc
  | cons child children ih =>
    obtain ⟨-, hchildren, hdisj⟩ := nodup_idsOf_cons.mp hnodup
    obtain heq | hin := List.mem_cons.mp hc <;> obtain heq' | hin' := List.mem_cons.mp hc'
    · rw [heq, heq']
    · exact absurd hi' (hdisj i (heq ▸ hi) c' hin')
    · exact absurd hi (hdisj i (heq' ▸ hi') c hin)
    · exact ih hchildren hin hin'

theorem nodup_child {children : List Node} (hnodup : (idsOf children).Nodup) {c : Node} (hc : c ∈ children) :
    c.ids.Nodup := by
  induction children with
  | nil => simp at hc
  | cons child children ih =>
    obtain ⟨hchild, hchildren, -⟩ := nodup_idsOf_cons.mp hnodup
    obtain rfl | hc := List.mem_cons.mp hc
    · exact hchild
    · exact ih hchildren hc

/-! ### Logical expressions -/

theorem mem_flattenProperty {key : Key} {n : Node} {children : List Node} :
    n ∈ flattenProperty key children ↔ ∃ c ∈ children, c.key = key ∧ n ∈ flattenLogicalExpression c := by
  induction children with
  | nil => simp [flattenProperty]
  | cons child children ih =>
    by_cases h : child.key = key <;> simp [flattenProperty, ih, h]

theorem flattenLogicalExpression_eq (node : Node) :
    flattenLogicalExpression node =
      if node.isLogicalExpression = true then
        flattenProperty .left node.children ++ [node] ++ flattenProperty .right node.children
      else [] := by
  obtain ⟨data, children⟩ := node
  simp only [flattenLogicalExpression, Node.isLogicalExpression, decide_eq_true_eq]
  rfl

theorem mem_flattenLogicalExpression {node n : Node} (h : node.isLogicalExpression = true) :
    n ∈ flattenLogicalExpression node ↔ n = node ∨
      ∃ c ∈ node.children, (c.key = .left ∨ c.key = .right) ∧ n ∈ flattenLogicalExpression c := by
  rw [flattenLogicalExpression_eq, if_pos h]
  simp only [List.mem_append, mem_flattenProperty, List.mem_singleton]
  constructor
  · rintro ((⟨c, hc, hkey, hn⟩ | rfl) | ⟨c, hc, hkey, hn⟩)
    · exact .inr ⟨c, hc, .inl hkey, hn⟩
    · exact .inl rfl
    · exact .inr ⟨c, hc, .inr hkey, hn⟩
  · rintro (rfl | ⟨c, hc, hkey | hkey, hn⟩)
    · exact .inl (.inr rfl)
    · exact .inl (.inl ⟨c, hc, hkey, hn⟩)
    · exact .inr ⟨c, hc, hkey, hn⟩

/-- The identities of a chain of logical expressions. -/
def chainIds (node : Node) : List ℕ := (flattenLogicalExpression node).map Node.id

theorem chainIds_of_not_logical {node : Node} (h : node.isLogicalExpression = false) : chainIds node = [] := by
  simp [chainIds, flattenLogicalExpression_eq, h]

theorem mem_chainIds {node : Node} {i : ℕ} (h : node.isLogicalExpression = true) :
    i ∈ chainIds node ↔
      i = node.id ∨ ∃ c ∈ node.children, (c.key = .left ∨ c.key = .right) ∧ i ∈ chainIds c := by
  simp only [chainIds, List.mem_map, mem_flattenLogicalExpression h]
  constructor
  · rintro ⟨n, rfl | ⟨c, hc, hkey, hn⟩, rfl⟩
    · exact .inl rfl
    · exact .inr ⟨c, hc, hkey, n, hn, rfl⟩
  · rintro (rfl | ⟨c, hc, hkey, n, hn, rfl⟩)
    · exact ⟨node, .inl rfl, rfl⟩
    · exact ⟨n, .inr ⟨c, hc, hkey, hn⟩, rfl⟩

theorem chainIds_subset (node : Node) : chainIds node ⊆ node.ids := by
  match node with
  | .mk data children =>
    intro i hi
    by_cases h : (Node.mk data children).isLogicalExpression = true
    · obtain rfl | ⟨c, hc, -, hic⟩ := (mem_chainIds h).mp hi
      · exact Node.id_mem_ids _
      · exact ids_subset_of_mem_children hc (chainIds_subset c hic)
    · rw [chainIds_of_not_logical (by simpa using h)] at hi
      simp at hi
termination_by sizeOf node
decreasing_by
  have := List.sizeOf_lt_of_mem hc
  simp only [Node.children, Node.mk.sizeOf_spec] at this ⊢
  omega

theorem mem_chainIds_child {node c : Node} {i : ℕ} (hnodup : node.ids.Nodup)
    (h : node.isLogicalExpression = true) (hc : c ∈ node.children) (hi : i ∈ c.ids) :
    i ∈ chainIds node ↔ (c.key = .left ∨ c.key = .right) ∧ i ∈ chainIds c := by
  obtain ⟨hid, hnodup⟩ := nodup_ids_iff.mp hnodup
  rw [mem_chainIds h]
  constructor
  · rintro (rfl | ⟨c', hc', hkey, hi'⟩)
    · exact absurd (mem_idsOf.mpr ⟨c, hc, hi⟩) hid
    · obtain rfl := child_unique hnodup hc hc' hi (chainIds_subset c' hi')
      exact ⟨hkey, hi'⟩
  · rintro ⟨hkey, hi'⟩
    exact .inr ⟨c, hc, hkey, hi'⟩

mutual

theorem flattenJsx_eq {operator : Option LogicalOperator} :
    ∀ (node : Node) {nodes : List Node}, flattenJsxShortCircuitNodes operator node = some nodes →
      nodes = flattenLogicalExpression node
  | .mk data children, nodes, h => by
    rw [flattenJsxShortCircuitNodes] at h
    split_ifs at h with hnull hlogical
    · obtain rfl : [] = nodes := by simpa using h
      rw [flattenLogicalExpression, if_neg hlogical]
    · have hlogical : data.type = .logicalExpression := by simpa using hlogical
      rw [flattenLogicalExpression, if_pos hlogical]
      split at h
      · rename_i leftNodes rightNodes hleft hright
        rw [← flattenJsxProperty_eq children hleft, ← flattenJsxProperty_eq children hright]
        exact (Option.some.inj h).symm
      · simp at h

theorem flattenJsxProperty_eq {operator : Option LogicalOperator} {key : Key} :
    ∀ (children : List Node) {nodes : List Node}, flattenJsxProperty operator key children = some nodes →
      nodes = flattenProperty key children
  | [], nodes, h => by simpa [flattenJsxProperty, flattenProperty] using h.symm
  | child :: children, nodes, h => by
    rw [flattenJsxProperty] at h
    rw [flattenProperty]
    split_ifs at h ⊢ with hkey
    · split at h
      · rename_i own others hown hothers
        rw [← flattenJsx_eq child hown, ← flattenJsxProperty_eq children hothers]
        exact (Option.some.inj h).symm
      · simp at h
    · simpa using flattenJsxProperty_eq children h

end

/-! ### Branches and points -/

/-- The children that the listener of their parent puts into `nestingNodes`. -/
def nests (parent child : Node) : Bool :=
  match parent.type with
  | .ifStatement => child.key = .consequent || (child.key = .alternate && !child.isIfStatement)
  | .forStatement | .forInStatement | .forOfStatement | .doWhileStatement | .whileStatement
  | .catchClause => child.key = .body
  | .switchStatement => child.key = .cases
  | .conditionalExpression => child.key = .consequent || child.key = .alternate
  | _ => false

def isBranch (parent : Option Node) (node : Node) : Bool := parent.any (nests · node)

/-- An operand of a logical expression that is one itself. -/
def isChained (parent : Option Node) (node : Node) : Bool :=
  parent.any Node.isLogicalExpression && (node.key = .left || node.key = .right)

inductive Increment (Loc : Type)
  | structural (location : Loc)
  | plain (location : Loc)

def Increment.add : Increment Loc → Counters Loc → Counters Loc
  | structural location => addStructuralComplexity location
  | plain location => addComplexity location

/-- The point of an increment at a nesting level. -/
def Increment.point (bonus level : ℤ) : Increment Loc → ComplexityPoint Loc
  | structural location => ⟨level + 1 + bonus, location⟩
  | plain location => ⟨1, location⟩

section

variable (ctx : Context Loc)

/-- What a node adds, without its children. -/
def increments (parent : Option Node) (node : Node) : List (Increment Loc) :=
  match node.type with
  | .ifStatement =>
    (if isElseIf parent node then Increment.plain (ctx.firstToken node)
      else .structural (ctx.firstToken node)) ::
      if elseBranch node ≠ [] then [.plain (ctx.firstTokenAfter node .consequent)] else []
  | .forStatement | .forInStatement | .forOfStatement | .doWhileStatement | .whileStatement
  | .switchStatement | .catchClause => [.structural (ctx.firstToken node)]
  | .continueStatement | .breakStatement =>
    if node.property .label ≠ [] then [.plain (ctx.firstToken node)] else []
  | .conditionalExpression => [.structural (ctx.firstTokenAfter node .test)]
  | .logicalExpression =>
    if isChained parent node || (getJsxShortCircuitNodes parent node).isSome then []
    else (countedOperators ctx.firstTokenAfter none (flattenLogicalExpression node)).map .plain
  | _ => []

mutual

/-- The points of a subtree that is entered at a nesting level. With `into`, those of the functions in it
too, one level deeper. -/
def pointsOf (into : Bool) (bonus : ℤ) (parent : Option Node) : Node → ℤ → List (ComplexityPoint Loc)
  | .mk data children, level =>
    let node := .mk data children
    let level := if isBranch parent node then level + 1 else level
    if node.isFunction then
      if into then pointsOfAll into bonus node children (level + 1) else []
    else (increments ctx parent node).map (·.point bonus level) ++ pointsOfAll into bonus node children level

def pointsOfAll (into : Bool) (bonus : ℤ) (parent : Node) : List Node → ℤ → List (ComplexityPoint Loc)
  | [], _ => []
  | child :: children, level =>
    pointsOf into bonus (some parent) child level ++ pointsOfAll into bonus parent children level

end

end

/-! ### What a run adds -/

@[simp] theorem modifyTop_id {α : Type} (stack : List α) : modifyTop (fun top => top) stack = stack := by
  cases stack <;> rfl

@[simp] theorem modifyTop_modifyTop {α : Type} (f g : α → α) (stack : List α) :
    modifyTop g (modifyTop f stack) = modifyTop (fun top => g (f top)) stack := by
  cases stack <;> rfl

@[simp] theorem tail_modifyTop {α : Type} (f : α → α) (stack : List α) : (modifyTop f stack).tail = stack.tail := by
  cases stack <;> rfl

@[simp] theorem length_modifyTop {α : Type} (f : α → α) (stack : List α) :
    (modifyTop f stack).length = stack.length := by
  cases stack <;> rfl

/-- Nesting is the same after the run, and the points at the levels of `s` are added: in a top-level function
without those of nested functions, below with them. -/
structure Adds (points : Bool → ℤ → ℤ → List (ComplexityPoint Loc)) (s t : Counters Loc) : Prop where
  nesting : t.nesting = s.nesting
  enclosing : t.enclosingFunctions = s.enclosingFunctions
  ownNesting : t.functionOwnControlFlowNesting = s.functionOwnControlFlowNesting
  own : 1 ≤ s.enclosingFunctions.length → t.functionOwnComplexity =
    modifyTop (· ++ points false 0 (s.functionOwnControlFlowNesting.headD 0)) s.functionOwnComplexity
  top : s.enclosingFunctions.length = 1 →
    t.topLevelOwnComplexity = s.topLevelOwnComplexity ++ points false 0 s.nesting
  topKept : 2 ≤ s.enclosingFunctions.length → t.topLevelOwnComplexity = s.topLevelOwnComplexity
  nested : 2 ≤ s.enclosingFunctions.length →
    t.complexityIfNested = s.complexityIfNested ++ points true 1 s.nesting
  notNested : 2 ≤ s.enclosingFunctions.length →
    t.complexityIfNotNested = s.complexityIfNotNested ++ points true 0 s.nesting

theorem Adds.refl (s : Counters Loc) : Adds (fun _ _ _ => []) s s where
  nesting := rfl
  enclosing := rfl
  ownNesting := rfl
  own _ := by simp
  top _ := by simp
  topKept _ := rfl
  nested _ := by simp
  notNested _ := by simp

theorem Adds.trans {p q : Bool → ℤ → ℤ → List (ComplexityPoint Loc)} {s t u : Counters Loc}
    (h : Adds p s t) (h' : Adds q t u) : Adds (fun into bonus level => p into bonus level ++ q into bonus level) s u where
  nesting := h'.nesting.trans h.nesting
  enclosing := h'.enclosing.trans h.enclosing
  ownNesting := h'.ownNesting.trans h.ownNesting
  own hd := by simp [h'.own (h.enclosing ▸ hd), h.own hd, h.ownNesting]
  top hd := by rw [h'.top (h.enclosing ▸ hd), h.top hd, h.nesting, List.append_assoc]
  topKept hd := by rw [h'.topKept (h.enclosing ▸ hd), h.topKept hd]
  nested hd := by rw [h'.nested (h.enclosing ▸ hd), h.nested hd, h.nesting, List.append_assoc]
  notNested hd := by rw [h'.notNested (h.enclosing ▸ hd), h.notNested hd, h.nesting, List.append_assoc]

theorem Increment.add_adds (increment : Increment Loc) (s : Counters Loc) :
    Adds (fun _ bonus level => [increment.point bonus level]) s (increment.add s) := by
  have hcases : s.enclosingFunctions.length = 0 ∨ s.enclosingFunctions.length = 1 ∨
      ∃ n, s.enclosingFunctions.length = n + 2 := by
    match s.enclosingFunctions.length with
    | 0 => simp
    | 1 => simp
    | n + 2 => simp
  cases increment <;> obtain h | h | ⟨n, h⟩ := hcases <;>
    constructor <;> simp [add, point, addStructuralComplexity, addComplexity, h]

theorem foldl_adds (list : List (Increment Loc)) (s : Counters Loc) :
    Adds (fun _ bonus level => list.map (·.point bonus level)) s (list.foldl (fun s i => i.add s) s) := by
  induction list generalizing s with
  | nil => exact .refl s
  | cons increment list ih => exact (increment.add_adds s).trans (ih (increment.add s))

/-! ### The listeners -/

section

variable {ctx : Context Loc} {parent : Option Node} {node : Node} {s : State Loc} {i : ℕ}

@[simp] theorem mapCounters_toCounters (f : Counters Loc → Counters Loc) :
    (s.mapCounters f).toCounters = f s.toCounters := rfl

@[simp] theorem mapCounters_nestingNodes (f : Counters Loc → Counters Loc) :
    (s.mapCounters f).nestingNodes = s.nestingNodes := rfl

@[simp] theorem mapCounters_considered (f : Counters Loc → Counters Loc) :
    (s.mapCounters f).consideredLogicalExpressions = s.consideredLogicalExpressions := rfl

@[simp] theorem addNestingNodes_toCounters (nodes : List Node) :
    (s.addNestingNodes nodes).toCounters = s.toCounters := rfl

@[simp] theorem addNestingNodes_considered (nodes : List Node) :
    (s.addNestingNodes nodes).consideredLogicalExpressions = s.consideredLogicalExpressions := rfl

@[simp] theorem mem_addNestingNodes {nodes : List Node} :
    i ∈ (s.addNestingNodes nodes).nestingNodes ↔ i ∈ s.nestingNodes ∨ ∃ n ∈ nodes, n.id = i := by
  simp [State.addNestingNodes]

@[simp] theorem addConsidered_toCounters (nodes : List Node) :
    (s.addConsidered nodes).toCounters = s.toCounters := rfl

@[simp] theorem addConsidered_nestingNodes (nodes : List Node) :
    (s.addConsidered nodes).nestingNodes = s.nestingNodes := rfl

@[simp] theorem mem_addConsidered {nodes : List Node} :
    i ∈ (s.addConsidered nodes).consideredLogicalExpressions ↔
      i ∈ s.consideredLogicalExpressions ∨ ∃ n ∈ nodes, n.id = i := by
  simp [State.addConsidered]

theorem mem_property {key : Key} {n : Node} : n ∈ node.property key ↔ n ∈ node.children ∧ n.key = key := by
  simp [Node.property]

theorem exists_property {key : Key} {P : Node → Prop} :
    (∃ n ∈ node.property key, P n) ↔ ∃ n ∈ node.children, n.key = key ∧ P n := by
  simp [mem_property, and_assoc]

@[simp] theorem mem_visitNesting {key : Key} :
    i ∈ (visitNesting ctx key node s).nestingNodes ↔
      i ∈ s.nestingNodes ∨ ∃ c ∈ node.children, c.key = key ∧ c.id = i := by
  simp [visitNesting, exists_property]

theorem exists_elseBranch {P : Node → Prop} :
    (∃ n ∈ elseBranch node, P n) ↔ ∃ c ∈ node.children, (c.key = .alternate ∧ c.isIfStatement = false) ∧ P c := by
  simp [elseBranch, mem_property, and_assoc]

theorem mem_visitIfStatement :
    i ∈ (visitIfStatement ctx parent node s).nestingNodes ↔ i ∈ s.nestingNodes ∨
      ∃ c ∈ node.children, (c.key = .consequent ∨ (c.key = .alternate ∧ c.isIfStatement = false)) ∧ c.id = i := by
  have hadded : i ∈ (visitIfStatement ctx parent node s).nestingNodes ↔ i ∈ s.nestingNodes ∨
      (∃ c ∈ node.children, c.key = .consequent ∧ c.id = i) ∨ ∃ n ∈ elseBranch node, n.id = i := by
    unfold visitIfStatement
    split_ifs with h h' h' <;> simp_all [exists_property, or_assoc]
  rw [hadded, exists_elseBranch]
  simp only [or_and_right, and_or_left, exists_or]

theorem mem_visitConditionalExpression :
    i ∈ (visitConditionalExpression ctx node s).nestingNodes ↔ i ∈ s.nestingNodes ∨
      ∃ c ∈ node.children, (c.key = .consequent ∨ c.key = .alternate) ∧ c.id = i := by
  simp only [visitConditionalExpression, mem_addNestingNodes, exists_property, mapCounters_nestingNodes, or_assoc,
    or_and_right, and_or_left, exists_or]

@[simp] theorem visitContinueOrBreakStatement_nestingNodes :
    (visitContinueOrBreakStatement ctx node s).nestingNodes = s.nestingNodes := by
  unfold visitContinueOrBreakStatement
  split_ifs <;> rfl

@[simp] theorem visitReturnStatement_nestingNodes : (visitReturnStatement node s).nestingNodes = s.nestingNodes := by
  unfold visitReturnStatement
  split_ifs <;> rfl

@[simp] theorem visitLogicalExpression_nestingNodes :
    (visitLogicalExpression ctx parent node s).nestingNodes = s.nestingNodes := by
  unfold visitLogicalExpression
  split
  · rfl
  · split_ifs <;> rfl

theorem mem_nestingNodes_enterNode (hf : node.isFunction = false) :
    i ∈ (enterNode ctx parent node s).nestingNodes ↔
      i ∈ s.nestingNodes ∨ ∃ c ∈ node.children, nests node c = true ∧ c.id = i := by
  unfold enterNode nests
  cases htype : node.type with
  | functionDeclaration | functionExpression | arrowFunctionExpression => simp [Node.isFunction, htype] at hf
  | ifStatement => simp [mem_visitIfStatement]
  | conditionalExpression => simp [mem_visitConditionalExpression]
  | _ => simp [visitLoop, visitSwitchStatement, visitCatchClause]

theorem mem_nestingNodes_onEnterFunction :
    i ∈ (onEnterFunction ctx parent node s).nestingNodes ↔
      i ∈ s.nestingNodes ∨ (2 ≤ s.enclosingFunctions.length ∧ node.id = i) := by
  unfold onEnterFunction
  split
  · simp [*]
  · simp [*]
  · have h2 : 2 ≤ s.enclosingFunctions.length := by
      have : s.enclosingFunctions.length ≠ 0 := ‹_›
      have : s.enclosingFunctions.length ≠ 1 := ‹_›
      omega
    show i ∈ (State.addNestingNodes _ [node]).nestingNodes ↔ _
    simp [h2]

@[simp] theorem visitIfStatement_considered :
    (visitIfStatement ctx parent node s).consideredLogicalExpressions = s.consideredLogicalExpressions := by
  unfold visitIfStatement
  split_ifs <;> simp

@[simp] theorem visitContinueOrBreakStatement_considered :
    (visitContinueOrBreakStatement ctx node s).consideredLogicalExpressions = s.consideredLogicalExpressions := by
  unfold visitContinueOrBreakStatement
  split_ifs <;> rfl

@[simp] theorem visitReturnStatement_considered :
    (visitReturnStatement node s).consideredLogicalExpressions = s.consideredLogicalExpressions := by
  unfold visitReturnStatement
  split_ifs <;> rfl

@[simp] theorem onEnterFunction_considered :
    (onEnterFunction ctx parent node s).consideredLogicalExpressions = s.consideredLogicalExpressions := by
  unfold onEnterFunction
  split <;> rfl

theorem getJsxShortCircuitNodes_of_isChained (h : isChained parent node = true) :
    getJsxShortCircuitNodes parent node = none := by
  cases parent with
  | none => rfl
  | some p =>
    have hp : p.type = .logicalExpression := by
      simp [isChained, Node.isLogicalExpression] at h
      exact h.1
    exact if_pos (by simp [hp])

theorem getJsxShortCircuitNodes_eq {nodes : List Node} (h : getJsxShortCircuitNodes parent node = some nodes) :
    nodes = flattenLogicalExpression node := by
  unfold getJsxShortCircuitNodes at h
  split_ifs at h
  exact flattenJsx_eq node h

theorem mem_considered_visitLogicalExpression
    (hchain : node.id ∈ s.consideredLogicalExpressions ↔ isChained parent node = true) :
    i ∈ (visitLogicalExpression ctx parent node s).consideredLogicalExpressions ↔
      i ∈ s.consideredLogicalExpressions ∨ (isChained parent node = false ∧ i ∈ chainIds node) := by
  unfold visitLogicalExpression
  by_cases h : isChained parent node = true
  · rw [getJsxShortCircuitNodes_of_isChained h]
    simp [hchain, h]
  · cases hjsx : getJsxShortCircuitNodes parent node with
    | some nodes =>
      obtain rfl := getJsxShortCircuitNodes_eq hjsx
      simp [h, chainIds]
    | none => simp [hchain, h, chainIds]

theorem enterNode_considered (hl : node.isLogicalExpression = false) :
    (enterNode ctx parent node s).consideredLogicalExpressions = s.consideredLogicalExpressions := by
  unfold enterNode
  cases htype : node.type with
  | logicalExpression => simp [Node.isLogicalExpression, htype] at hl
  | _ => simp [visitLoop, visitSwitchStatement, visitCatchClause, visitNesting, visitConditionalExpression]

theorem enterNode_toCounters (hf : node.isFunction = false) (hprogram : node.type ≠ .program)
    (hchain : node.isLogicalExpression = true →
      (node.id ∈ s.consideredLogicalExpressions ↔ isChained parent node = true)) :
    (enterNode ctx parent node s).toCounters =
      (increments ctx parent node).foldl (fun s i => i.add s) s.toCounters := by
  unfold enterNode increments
  cases htype : node.type with
  | functionDeclaration | functionExpression | arrowFunctionExpression => simp [Node.isFunction, htype] at hf
  | program => exact absurd htype hprogram
  | ifStatement =>
    unfold visitIfStatement
    split_ifs <;> simp [Increment.add]
  | continueStatement | breakStatement =>
    unfold visitContinueOrBreakStatement
    split_ifs <;> simp [Increment.add]
  | logicalExpression =>
    have hchain := hchain (by simp [Node.isLogicalExpression, htype])
    unfold visitLogicalExpression
    by_cases h : isChained parent node = true
    · simp [getJsxShortCircuitNodes_of_isChained h, hchain, h]
    · cases hjsx : getJsxShortCircuitNodes parent node with
      | some nodes => simp
      | none => simp [hchain, h, List.foldl_map, Increment.add]
  | returnStatement =>
    unfold visitReturnStatement
    split_ifs <;> rfl
  | _ => rfl

theorem enterNode_adds (hf : node.isFunction = false)
    (hchain : node.isLogicalExpression = true →
      (node.id ∈ s.consideredLogicalExpressions ↔ isChained parent node = true)) :
    Adds (fun _ bonus level => (increments ctx parent node).map (·.point bonus level)) s.toCounters
      (enterNode ctx parent node s).toCounters := by
  by_cases hprogram : node.type = .program
  · have hempty : increments ctx parent node = [] := by simp [increments, hprogram]
    have henter : enterNode ctx parent node s = { s with fileComplexity := 0 } := by simp [enterNode, hprogram]
    have h := Adds.refl s.toCounters
    rw [henter, hempty]
    exact ⟨h.nesting, h.enclosing, h.ownNesting, h.own, h.top, h.topKept, h.nested, h.notNested⟩
  · rw [enterNode_toCounters hf hprogram hchain]
    exact foldl_adds _ _

theorem enterNode_of_isFunction (hf : node.isFunction = true) :
    enterNode ctx parent node s = onEnterFunction ctx parent node s := by
  unfold enterNode
  cases htype : node.type <;> simp [Node.isFunction, htype] at hf ⊢

theorem exitNode_of_isFunction (hf : node.isFunction = true) :
    exitNode ctx parent node s = onLeaveFunction ctx parent node s := by
  unfold exitNode
  cases htype : node.type <;> simp [Node.isFunction, htype] at hf ⊢

end

end SonarJavascript.Rules.S3776
