import SonarJavascript.Rules.ComplexityPoints

/-!
# Nesting along a run (S3776)

A node that is about to be visited is `Ready`: of its subtree, only the node itself can be in
`nestingNodes`. This passes to the children and to the siblings, and with it a run never lowers the
nesting and touches only the entry of the enclosing function (`traverse_keeps`).
-/

namespace SonarJavascript.Rules.S3776

variable {Loc : Type}

/-- The states differ at most in what is reported, in the file complexity and in the second level functions. -/
structure Same (s t : State Loc) : Prop where
  nestingNodes : t.nestingNodes = s.nestingNodes
  considered : t.consideredLogicalExpressions = s.consideredLogicalExpressions
  nesting : t.nesting = s.nesting
  enclosing : t.enclosingFunctions = s.enclosingFunctions
  ownNesting : t.functionOwnControlFlowNesting = s.functionOwnControlFlowNesting
  own : t.functionOwnComplexity = s.functionOwnComplexity
  top : t.topLevelOwnComplexity = s.topLevelOwnComplexity
  nested : t.complexityIfNested = s.complexityIfNested
  notNested : t.complexityIfNotNested = s.complexityIfNotNested

theorem Same.refl (s : State Loc) : Same s s := ⟨rfl, rfl, rfl, rfl, rfl, rfl, rfl, rfl, rfl⟩

theorem Same.trans {s t u : State Loc} (h : Same s t) (h' : Same t u) : Same s u :=
  ⟨h'.1.trans h.1, h'.2.trans h.2, h'.3.trans h.3, h'.4.trans h.4, h'.5.trans h.5, h'.6.trans h.6,
    h'.7.trans h.7, h'.8.trans h.8, h'.9.trans h.9⟩

theorem checkFunction_same (ctx : Context Loc) (complexity : List (ComplexityPoint Loc)) (loc : Loc)
    (s : State Loc) : Same s (checkFunction ctx complexity loc s) := by
  simp only [checkFunction]
  split_ifs
  · exact ⟨rfl, rfl, rfl, rfl, rfl, rfl, rfl, rfl, rfl⟩
  · exact .refl s

theorem leaveTopLevelFunction_same (s : State Loc) : Same s (leaveTopLevelFunction s) := by
  unfold leaveTopLevelFunction
  split_ifs <;> exact ⟨rfl, rfl, rfl, rfl, rfl, rfl, rfl, rfl, rfl⟩

/-- A function is left as its entries are taken off the stacks. -/
theorem onLeaveFunction_same (ctx : Context Loc) (parent : Option Node) (node : Node) (s : State Loc) :
    Same { s with
        functionOwnComplexity := s.functionOwnComplexity.tail
        functionOwnControlFlowNesting := s.functionOwnControlFlowNesting.tail
        enclosingFunctions := s.enclosingFunctions.tail }
      (onLeaveFunction ctx parent node s) := by
  have hsecond (t : State Loc) : Same t (leaveSecondLevelFunction ctx parent node t) :=
    ⟨rfl, rfl, rfl, rfl, rfl, rfl, rfl, rfl, rfl⟩
  unfold onLeaveFunction
  dsimp only
  split_ifs
  · split
    · exact leaveTopLevelFunction_same _
    · exact hsecond _
    · exact .refl _
  · refine Same.trans ?_ (checkFunction_same ctx _ _ _)
    split
    · exact leaveTopLevelFunction_same _
    · exact hsecond _
    · exact .refl _

theorem exitNode_same (ctx : Context Loc) (parent : Option Node) {node : Node} (hf : node.isFunction = false)
    (s : State Loc) : Same s (exitNode ctx parent node s) := by
  unfold exitNode
  cases htype : node.type with
  | functionDeclaration | functionExpression | arrowFunctionExpression => simp [Node.isFunction, htype] at hf
  | program =>
    simp only
    split_ifs
    · exact ⟨rfl, rfl, rfl, rfl, rfl, rfl, rfl, rfl, rfl⟩
    · exact .refl s
  | _ => exact .refl s

/-! ### Frames -/

section

variable {ctx : Context Loc} {i : ℕ}

/-- The state after the listeners on enter. -/
def entered (ctx : Context Loc) (parent : Option Node) (node : Node) (s : State Loc) : State Loc :=
  enterNode ctx parent node (enterAny node s)

/-- The state after the children. -/
def visited (ctx : Context Loc) (parent : Option Node) (node : Node) (s : State Loc) : State Loc :=
  traverseAll ctx node node.children (entered ctx parent node s)

theorem traverse_eq (parent : Option Node) (node : Node) (s : State Loc) :
    traverse ctx parent node s = exitNode ctx parent node (exitAny node (visited ctx parent node s)) := by
  cases node
  rfl

/-- The membership of a node is the same in both states. -/
def Frame (i : ℕ) (s t : State Loc) : Prop :=
  (i ∈ t.nestingNodes ↔ i ∈ s.nestingNodes) ∧
    (i ∈ t.consideredLogicalExpressions ↔ i ∈ s.consideredLogicalExpressions)

theorem Frame.trans {s t u : State Loc} (h : Frame i s t) (h' : Frame i t u) : Frame i s u :=
  ⟨h'.1.trans h.1, h'.2.trans h.2⟩

theorem Same.frame {s t : State Loc} (h : Same s t) : Frame i s t := by
  rw [Frame, h.nestingNodes, h.considered]
  exact ⟨.rfl, .rfl⟩

theorem enterAny_frame (node : Node) (s : State Loc) : Frame i s (enterAny node s) := by
  unfold enterAny
  split_ifs <;> exact ⟨.rfl, .rfl⟩

theorem exitAny_frame {node : Node} (hi : i ≠ node.id) (s : State Loc) : Frame i s (exitAny node s) := by
  unfold exitAny
  split_ifs
  · exact ⟨by simp [hi], .rfl⟩
  · exact ⟨.rfl, .rfl⟩

theorem visitLogicalExpression_considered {parent : Option Node} {node : Node} (hi : i ∉ node.ids)
    (s : State Loc) :
    i ∈ (visitLogicalExpression ctx parent node s).consideredLogicalExpressions ↔
      i ∈ s.consideredLogicalExpressions := by
  have hchain : ¬ ∃ n ∈ flattenLogicalExpression node, n.id = i := fun ⟨n, hn, heq⟩ =>
    hi (chainIds_subset node (List.mem_map.mpr ⟨n, hn, heq⟩))
  unfold visitLogicalExpression
  split
  · rename_i nodes hjsx
    obtain rfl := getJsxShortCircuitNodes_eq hjsx
    exact mem_addConsidered.trans (or_iff_left hchain)
  · split
    · exact mem_addConsidered.trans (or_iff_left hchain)
    · exact .rfl

theorem enterNode_frame {parent : Option Node} {node : Node} (hi : i ∉ node.ids) (s : State Loc) :
    Frame i s (enterNode ctx parent node s) := by
  rw [node.ids_eq, List.mem_cons, not_or, mem_idsOf] at hi
  constructor
  · by_cases hf : node.isFunction = true
    · rw [enterNode_of_isFunction hf, mem_nestingNodes_onEnterFunction]
      exact or_iff_left fun h => hi.1 h.2.symm
    · rw [mem_nestingNodes_enterNode (by simpa using hf)]
      exact or_iff_left fun ⟨c, hc, _, hci⟩ => hi.2 ⟨c, hc, hci ▸ c.id_mem_ids⟩
  · by_cases hl : node.isLogicalExpression = true
    · have henter : enterNode ctx parent node s = visitLogicalExpression ctx parent node s := by
        simp [enterNode, show node.type = .logicalExpression by simpa [Node.isLogicalExpression] using hl]
      rw [henter]
      exact visitLogicalExpression_considered (by rwa [node.ids_eq, List.mem_cons, not_or, mem_idsOf]) s
    · rw [enterNode_considered (by simpa using hl)]

theorem entered_frame {parent : Option Node} {node : Node} (hi : i ∉ node.ids) (s : State Loc) :
    Frame i s (entered ctx parent node s) :=
  (enterAny_frame node s).trans (enterNode_frame hi _)

theorem exitNode_frame (parent : Option Node) (node : Node) (s : State Loc) :
    Frame i s (exitNode ctx parent node s) := by
  by_cases hf : node.isFunction = true
  · rw [exitNode_of_isFunction hf]
    exact (onLeaveFunction_same ctx parent node s).frame
  · exact (exitNode_same ctx parent (by simpa using hf) s).frame

mutual

theorem traverse_frame : ∀ (parent : Option Node) (node : Node) (s : State Loc), i ∉ node.ids →
    Frame i s (traverse ctx parent node s)
  | parent, .mk data children, s, hi => by
    have hchildren : i ∉ idsOf children := fun h => hi (List.mem_cons_of_mem _ h)
    have hid : i ≠ data.id := fun h => hi (h ▸ List.mem_cons_self)
    have hvisited : Frame i s (visited ctx parent (.mk data children) s) :=
      (entered_frame hi s).trans (traverseAll_frame (.mk data children) children _ hchildren)
    rw [traverse_eq]
    exact hvisited.trans ((exitAny_frame hid _).trans (exitNode_frame parent _ _))

theorem traverseAll_frame : ∀ (parent : Node) (children : List Node) (s : State Loc), i ∉ idsOf children →
    Frame i s (traverseAll ctx parent children s)
  | _, [], _, _ => ⟨.rfl, .rfl⟩
  | parent, child :: children, s, hi => by
    rw [idsOf, List.mem_append, not_or] at hi
    exact (traverse_frame (some parent) child s hi.1).trans (traverseAll_frame parent children _ hi.2)

end

/-! ### Nodes that are about to be visited -/

/-- Of the nodes of the subtree, `nestingNodes` has at most the root, and the considered logical expressions
are the chain that comes from the parent. -/
structure Ready (parent : Option Node) (node : Node) (s : State Loc) : Prop where
  nodup : node.ids.Nodup
  nestingNodes : ∀ i ∈ node.ids, i ∈ s.nestingNodes ↔ i = node.id ∧ isBranch parent node = true
  considered : ∀ i ∈ node.ids, i ∈ s.consideredLogicalExpressions ↔
    isChained parent node = true ∧ i ∈ chainIds node
  length : s.functionOwnControlFlowNesting.length = s.enclosingFunctions.length

theorem Ready.frame {parent : Option Node} {node : Node} {s t : State Loc} (h : Ready parent node s)
    (hframe : ∀ i ∈ node.ids, Frame i s t)
    (hlength : t.functionOwnControlFlowNesting.length = t.enclosingFunctions.length) : Ready parent node t where
  nodup := h.nodup
  nestingNodes i hi := (hframe i hi).1.trans (h.nestingNodes i hi)
  considered i hi := (hframe i hi).2.trans (h.considered i hi)
  length := hlength

variable {parent : Option Node} {node : Node} {s : State Loc}

theorem Ready.id_mem (h : Ready parent node s) : node.id ∈ s.nestingNodes ↔ isBranch parent node = true := by
  simpa using h.nestingNodes node.id node.id_mem_ids

theorem Ready.id_considered (h : Ready parent node s) (hl : node.isLogicalExpression = true) :
    node.id ∈ s.consideredLogicalExpressions ↔ isChained parent node = true := by
  rw [h.considered node.id node.id_mem_ids]
  exact and_iff_left ((mem_chainIds hl).mpr (.inl rfl))

@[simp] theorem enterAny_enclosing : (enterAny node s).enclosingFunctions = s.enclosingFunctions := by
  unfold enterAny
  split_ifs <;> rfl

@[simp] theorem enterAny_considered :
    (enterAny node s).consideredLogicalExpressions = s.consideredLogicalExpressions := by
  unfold enterAny
  split_ifs <;> rfl

@[simp] theorem enterAny_nestingNodes : (enterAny node s).nestingNodes = s.nestingNodes := by
  unfold enterAny
  split_ifs <;> rfl

theorem Ready.entered_adds (ctx : Context Loc) (h : Ready parent node s) (hf : node.isFunction = false) :
    Adds (fun _ bonus level => (increments ctx parent node).map (·.point bonus level))
      (enterAny node s).toCounters (entered ctx parent node s).toCounters :=
  enterNode_adds hf fun hl => by rw [enterAny_considered, h.id_considered hl]

/-- How a function is entered. -/
theorem onEnterFunction_eq (ctx : Context Loc) (parent : Option Node) (node : Node) (s : State Loc) :
    (onEnterFunction ctx parent node s).nesting =
        (if 2 ≤ s.enclosingFunctions.length then s.nesting + 1 else s.nesting) ∧
      (onEnterFunction ctx parent node s).enclosingFunctions = node.id :: s.enclosingFunctions ∧
      (onEnterFunction ctx parent node s).functionOwnControlFlowNesting = 0 :: s.functionOwnControlFlowNesting ∧
      (onEnterFunction ctx parent node s).functionOwnComplexity = [] :: s.functionOwnComplexity := by
  unfold onEnterFunction
  split
  · simp [*]
  · simp [*]
  · have h0 : s.enclosingFunctions.length ≠ 0 := ‹_›
    have h1 : s.enclosingFunctions.length ≠ 1 := ‹_›
    have h2 : 2 ≤ s.enclosingFunctions.length := by omega
    simp [h2]

/-- The lists of points that a function starts with. -/
theorem onEnterFunction_points (ctx : Context Loc) (parent : Option Node) (node : Node) (s : State Loc) :
    (s.enclosingFunctions.length = 0 → (onEnterFunction ctx parent node s).topLevelOwnComplexity = []) ∧
      (1 ≤ s.enclosingFunctions.length →
        (onEnterFunction ctx parent node s).topLevelOwnComplexity = s.topLevelOwnComplexity) ∧
      (s.enclosingFunctions.length = 1 → (onEnterFunction ctx parent node s).complexityIfNested = [] ∧
        (onEnterFunction ctx parent node s).complexityIfNotNested = []) ∧
      (2 ≤ s.enclosingFunctions.length →
        (onEnterFunction ctx parent node s).complexityIfNested = s.complexityIfNested ∧
        (onEnterFunction ctx parent node s).complexityIfNotNested = s.complexityIfNotNested) := by
  unfold onEnterFunction
  split
  · simp [*]
  · simp [*]
  · have h0 : s.enclosingFunctions.length ≠ 0 := ‹_›
    have h1 : s.enclosingFunctions.length ≠ 1 := ‹_›
    have h2 : 1 ≤ s.enclosingFunctions.length := by omega
    simp [h0, h1]

theorem Ready.entered_length (h : Ready parent node s) :
    (entered ctx parent node s).functionOwnControlFlowNesting.length =
      (entered ctx parent node s).enclosingFunctions.length := by
  have henter : (enterAny node s).functionOwnControlFlowNesting.length = (enterAny node s).enclosingFunctions.length := by
    unfold enterAny
    split_ifs <;> simp [h.length]
  by_cases hf : node.isFunction = true
  · rw [entered, enterNode_of_isFunction hf]
    obtain ⟨-, henclosing, hown, -⟩ := onEnterFunction_eq ctx parent node (enterAny node s)
    rw [henclosing, hown, List.length_cons, List.length_cons, henter]
  · have hadds := h.entered_adds ctx (by simpa using hf)
    rw [hadds.ownNesting, hadds.enclosing, henter]

theorem nests_of_isFunction {c : Node} (hf : node.isFunction = true) : nests node c = false := by
  unfold nests
  cases htype : node.type <;> simp [Node.isFunction, htype] at hf ⊢

theorem mem_nestingNodes_entered {i : ℕ} :
    i ∈ (entered ctx parent node s).nestingNodes ↔ i ∈ s.nestingNodes ∨
      (node.isFunction = true ∧ 2 ≤ s.enclosingFunctions.length ∧ node.id = i) ∨
        ∃ c ∈ node.children, nests node c = true ∧ c.id = i := by
  by_cases hf : node.isFunction = true
  · rw [entered, enterNode_of_isFunction hf, mem_nestingNodes_onEnterFunction]
    simp [hf, nests_of_isFunction hf]
  · rw [entered, mem_nestingNodes_enterNode (by simpa using hf)]
    simp [hf]

theorem Ready.mem_considered_entered (h : Ready parent node s) {i : ℕ} (hi : i ∈ node.ids) :
    i ∈ (entered ctx parent node s).consideredLogicalExpressions ↔ i ∈ chainIds node := by
  by_cases hl : node.isLogicalExpression = true
  · have henter : entered ctx parent node s = visitLogicalExpression ctx parent node (enterAny node s) := by
      simp [entered, enterNode, show node.type = .logicalExpression by simpa [Node.isLogicalExpression] using hl]
    rw [henter, mem_considered_visitLogicalExpression (by rw [enterAny_considered, h.id_considered hl]),
      enterAny_considered, h.considered i hi]
    cases isChained parent node <;> simp
  · rw [entered, enterNode_considered (by simpa using hl), enterAny_considered, h.considered i hi,
      chainIds_of_not_logical (by simpa using hl)]
    simp

theorem Ready.children (h : Ready parent node s) {c : Node} (hc : c ∈ node.children) :
    Ready (some node) c (entered ctx parent node s) := by
  obtain ⟨hid, hnodup⟩ := nodup_ids_iff.mp h.nodup
  have hne : ∀ i ∈ c.ids, i ≠ node.id := fun i hi heq => hid (heq ▸ mem_idsOf.mpr ⟨c, hc, hi⟩)
  have hsub : c.ids ⊆ node.ids := ids_subset_of_mem_children hc
  refine ⟨nodup_child hnodup hc, fun i hi => ?_, fun i hi => ?_, h.entered_length⟩
  · have hs : i ∉ s.nestingNodes := fun hin => hne i hi ((h.nestingNodes i (hsub hi)).mp hin).1
    rw [mem_nestingNodes_entered, isBranch, Option.any_some]
    constructor
    · rintro (hin | ⟨-, -, heq⟩ | ⟨c', hc', hnests, rfl⟩)
      · exact absurd hin hs
      · exact absurd heq.symm (hne i hi)
      · obtain rfl := child_unique hnodup hc hc' hi c'.id_mem_ids
        exact ⟨rfl, hnests⟩
    · rintro ⟨rfl, hnests⟩
      exact .inr (.inr ⟨c, hc, hnests, rfl⟩)
  · rw [h.mem_considered_entered (hsub hi), isChained, Option.any_some]
    by_cases hl : node.isLogicalExpression = true
    · rw [mem_chainIds_child h.nodup hl hc hi]
      simp [hl]
    · rw [chainIds_of_not_logical (by simpa using hl)]
      simp [hl]

/-! ### A run from enter to exit -/

/-- A function in two others or more is entered one level deeper. -/
def isNestedFunction (node : Node) (s : State Loc) : Bool :=
  node.isFunction && 2 ≤ s.enclosingFunctions.length

theorem Ready.entered_nesting (ctx : Context Loc) (h : Ready parent node s) :
    (entered ctx parent node s).nesting = s.nesting + (if isBranch parent node = true then 1 else 0) +
      (if isNestedFunction node s = true then 1 else 0) := by
  have henter : (enterAny node s).nesting = s.nesting + (if isBranch parent node = true then 1 else 0) := by
    simp only [enterAny, h.id_mem]
    split_ifs <;> simp
  by_cases hf : node.isFunction = true
  · rw [entered, enterNode_of_isFunction hf, (onEnterFunction_eq ctx parent node _).1, enterAny_enclosing, henter]
    simp only [isNestedFunction, hf, Bool.true_and, decide_eq_true_eq]
    split_ifs <;> simp
  · rw [(h.entered_adds ctx (by simpa using hf)).nesting, henter]
    simp [isNestedFunction, hf]

/-- Whether the listener of `*:exit` counts the node. -/
theorem Ready.mem_visited (h : Ready parent node s) :
    node.id ∈ (visited ctx parent node s).nestingNodes ↔
      isBranch parent node = true ∨ isNestedFunction node s = true := by
  have hid := (nodup_ids_iff.mp h.nodup).1
  have hchild : ¬ ∃ c ∈ node.children, nests node c = true ∧ c.id = node.id := fun ⟨c, hc, _, heq⟩ =>
    hid (mem_idsOf.mpr ⟨c, hc, heq ▸ c.id_mem_ids⟩)
  rw [visited, (traverseAll_frame node node.children (entered ctx parent node s) hid).1,
    mem_nestingNodes_entered, h.id_mem]
  simp [hchild, isNestedFunction]

theorem exitNode_nesting (t : State Loc) : (exitNode ctx parent node t).nesting = t.nesting := by
  by_cases hf : node.isFunction = true
  · rw [exitNode_of_isFunction hf]
    exact (onLeaveFunction_same ctx parent node t).nesting
  · exact (exitNode_same ctx parent (by simpa using hf) t).nesting

theorem Ready.exitAny_nesting (h : Ready parent node s) :
    (exitAny node (visited ctx parent node s)).nesting = (visited ctx parent node s).nesting -
      (if isBranch parent node = true ∨ isNestedFunction node s = true then 1 else 0) := by
  simp only [exitAny, h.mem_visited]
  split_ifs <;> simp

theorem Ready.traverse_nesting (h : Ready parent node s) :
    (traverse ctx parent node s).nesting = (visited ctx parent node s).nesting -
      (if isBranch parent node = true ∨ isNestedFunction node s = true then 1 else 0) := by
  rw [traverse_eq, exitNode_nesting, h.exitAny_nesting]

/-- What a run changes at most: the top of the stack of nesting levels, and the nesting upwards. -/
structure Keeps (s t : Counters Loc) : Prop where
  nesting : s.nesting ≤ t.nesting
  enclosing : t.enclosingFunctions = s.enclosingFunctions
  length : t.functionOwnControlFlowNesting.length = s.functionOwnControlFlowNesting.length
  tail : t.functionOwnControlFlowNesting.tail = s.functionOwnControlFlowNesting.tail

theorem Keeps.trans {s t u : Counters Loc} (h : Keeps s t) (h' : Keeps t u) : Keeps s u :=
  ⟨h.nesting.trans h'.nesting, h'.enclosing.trans h.enclosing, h'.length.trans h.length, h'.tail.trans h.tail⟩

theorem enterAny_ownNesting (h : Ready parent node s) :
    (enterAny node s).functionOwnControlFlowNesting =
      if isBranch parent node = true then modifyTop (· + 1) s.functionOwnControlFlowNesting
      else s.functionOwnControlFlowNesting := by
  simp only [enterAny, h.id_mem]
  split_ifs <;> rfl

/-- A function takes its own entry along, so that only the first listener is left. -/
theorem Ready.function_ownNesting (h : Ready parent node s) (hf : node.isFunction = true)
    (hkeeps : Keeps (entered ctx parent node s).toCounters (visited ctx parent node s).toCounters) :
    (traverse ctx parent node s).functionOwnControlFlowNesting =
      if isBranch parent node = true then modifyTop (· + 1) s.functionOwnControlFlowNesting
      else s.functionOwnControlFlowNesting := by
  have htail : (exitAny node (visited ctx parent node s)).functionOwnControlFlowNesting.tail =
      (visited ctx parent node s).functionOwnControlFlowNesting.tail := by
    unfold exitAny
    split_ifs <;> simp
  rw [traverse_eq, exitNode_of_isFunction hf, (onLeaveFunction_same ctx parent node _).ownNesting]
  simp only
  rw [htail, hkeeps.tail, entered, enterNode_of_isFunction hf, (onEnterFunction_eq ctx parent node _).2.2.1, List.tail_cons,
    enterAny_ownNesting h]

theorem Ready.entered_enclosing (h : Ready parent node s) :
    (entered ctx parent node s).enclosingFunctions =
      if node.isFunction = true then node.id :: s.enclosingFunctions else s.enclosingFunctions := by
  split_ifs with hf
  · rw [entered, enterNode_of_isFunction hf, (onEnterFunction_eq ctx parent node _).2.1, enterAny_enclosing]
  · rw [(h.entered_adds ctx (by simpa using hf)).enclosing, enterAny_enclosing]

theorem exitAny_enclosing (t : State Loc) : (exitAny node t).enclosingFunctions = t.enclosingFunctions := by
  unfold exitAny
  split_ifs <;> rfl

theorem Ready.traverse_enclosing (h : Ready parent node s)
    (hkeeps : (visited ctx parent node s).enclosingFunctions = (entered ctx parent node s).enclosingFunctions) :
    (traverse ctx parent node s).enclosingFunctions = s.enclosingFunctions := by
  rw [h.entered_enclosing] at hkeeps
  rw [traverse_eq]
  split_ifs at hkeeps with hf
  · rw [exitNode_of_isFunction hf, (onLeaveFunction_same ctx parent node _).enclosing]
    simp only [exitAny_enclosing, hkeeps, List.tail_cons]
  · rw [(exitNode_same ctx parent (by simpa using hf) _).enclosing, exitAny_enclosing, hkeeps]

/-- Any other node takes back what it has added. -/
theorem Ready.other_ownNesting (ctx : Context Loc) (h : Ready parent node s) (hf : node.isFunction = false) :
    (traverse ctx parent node s).functionOwnControlFlowNesting =
      if isBranch parent node = true then modifyTop (· - 1) (visited ctx parent node s).functionOwnControlFlowNesting
      else (visited ctx parent node s).functionOwnControlFlowNesting := by
  rw [traverse_eq, (exitNode_same ctx parent hf _).ownNesting]
  simp only [exitAny, h.mem_visited, isNestedFunction, hf, Bool.false_and, Bool.false_eq_true, or_false]
  split_ifs <;> rfl

theorem Ready.entered_ownNesting (h : Ready parent node s) (hf : node.isFunction = false) :
    (entered ctx parent node s).functionOwnControlFlowNesting =
      if isBranch parent node = true then modifyTop (· + 1) s.functionOwnControlFlowNesting
      else s.functionOwnControlFlowNesting := by
  rw [(h.entered_adds ctx hf).ownNesting, enterAny_ownNesting h]

theorem Ready.traverse_keeps_of_visited (h : Ready parent node s)
    (hkeeps : Keeps (entered ctx parent node s).toCounters (visited ctx parent node s).toCounters) :
    Keeps s.toCounters (traverse ctx parent node s).toCounters := by
  have hnesting : s.nesting ≤ (traverse ctx parent node s).nesting := by
    have := hkeeps.nesting
    rw [h.entered_nesting] at this
    rw [h.traverse_nesting]
    split_ifs at this ⊢ <;> simp_all
    all_goals omega
  by_cases hf : node.isFunction = true
  · have hown := h.function_ownNesting hf hkeeps
    refine ⟨hnesting, h.traverse_enclosing hkeeps.enclosing, ?_, ?_⟩
    · rw [hown]
      split_ifs <;> simp
    · rw [hown]
      split_ifs <;> simp
  · have hf : node.isFunction = false := by simpa using hf
    have hown := h.other_ownNesting ctx hf
    have hlength := hkeeps.length
    have htail := hkeeps.tail
    rw [h.entered_ownNesting hf] at hlength htail
    refine ⟨hnesting, h.traverse_enclosing hkeeps.enclosing, ?_, ?_⟩ <;> rw [hown] <;> split_ifs at hlength htail ⊢ <;>
      simp_all

theorem ready_siblings {parent child : Node} {children : List Node} {s : State Loc}
    (hnodup : (idsOf (child :: children)).Nodup) (h : ∀ c ∈ child :: children, Ready (some parent) c s)
    (hkeeps : Keeps s.toCounters (traverse ctx (some parent) child s).toCounters) :
    ∀ c ∈ children, Ready (some parent) c (traverse ctx (some parent) child s) := by
  intro c hc
  obtain ⟨-, -, hdisj⟩ := nodup_idsOf_cons.mp hnodup
  refine (h c (List.mem_cons_of_mem _ hc)).frame (fun i hi => traverse_frame _ child s fun hin => hdisj i hin c hc hi) ?_
  rw [hkeeps.length, hkeeps.enclosing, (h child List.mem_cons_self).length]

variable (ctx) in
mutual

/-- The nesting is never lower after a node than before it, and only the entry of the enclosing function is
touched. -/
theorem traverse_keeps : ∀ (parent : Option Node) (node : Node) (s : State Loc), Ready parent node s →
    Keeps s.toCounters (traverse ctx parent node s).toCounters
  | _, .mk data children, _, h => h.traverse_keeps_of_visited
      (traverseAll_keeps (.mk data children) children _ (nodup_ids_iff.mp h.nodup).2 fun _ hc => h.children hc)

theorem traverseAll_keeps : ∀ (parent : Node) (children : List Node) (s : State Loc), (idsOf children).Nodup →
    (∀ c ∈ children, Ready (some parent) c s) → Keeps s.toCounters (traverseAll ctx parent children s).toCounters
  | _, [], _, _, _ => ⟨le_rfl, rfl, rfl, rfl⟩
  | parent, child :: children, s, hnodup, h =>
    have hkeeps := traverse_keeps (some parent) child s (h child List.mem_cons_self)
    hkeeps.trans (traverseAll_keeps parent children _ (nodup_idsOf_cons.mp hnodup).2.1
      (ready_siblings hnodup h hkeeps))

end

theorem Ready.visited_keeps (h : Ready parent node s) :
    Keeps (entered ctx parent node s).toCounters (visited ctx parent node s).toCounters :=
  traverseAll_keeps ctx node node.children _ (nodup_ids_iff.mp h.nodup).2 fun _ hc => h.children hc

theorem ready_after {parent : Node} (before : List Node) {after : List Node} {s : State Loc}
    (hnodup : (idsOf (before ++ after)).Nodup) (h : ∀ c ∈ before ++ after, Ready (some parent) c s) :
    ∀ c ∈ after, Ready (some parent) c (traverseAll ctx parent before s) := by
  induction before generalizing s with
  | nil => exact h
  | cons child before ih =>
    have hkeeps := traverse_keeps ctx (some parent) child s (h child List.mem_cons_self)
    exact ih (nodup_idsOf_cons.mp hnodup).2.1 (ready_siblings hnodup h hkeeps)

mutual

theorem trace_nesting : ∀ (parent : Option Node) (node : Node) (s : State Loc), Ready parent node s →
    ∀ t ∈ trace ctx parent node s, s.nesting ≤ t.nesting
  | parent, .mk data children, s, h, t, ht => by
    have hentered := h.entered_nesting ctx
    have hle : s.nesting ≤ (entered ctx parent (.mk data children) s).nesting := by
      rw [hentered]
      split_ifs <;> omega
    have htraverse := (traverse_keeps ctx parent _ s h).nesting
    have htrace : t = enterAny (.mk data children) s ∨ t = entered ctx parent (.mk data children) s ∨
        t ∈ traceAll ctx (.mk data children) children (entered ctx parent (.mk data children) s) ∨
        t = exitAny (.mk data children) (visited ctx parent (.mk data children) s) ∨
        t = traverse ctx parent (.mk data children) s := by
      simpa [trace, entered, visited, traverse_eq, Node.children] using ht
    obtain rfl | rfl | hin | rfl | rfl := htrace
    · unfold enterAny
      split_ifs
      · show s.nesting ≤ s.nesting + 1
        omega
      · exact le_rfl
    · exact hle
    · exact hle.trans (traceAll_nesting _ children _ (nodup_ids_iff.mp h.nodup).2 (fun _ hc => h.children hc) t hin)
    · rwa [h.traverse_nesting, ← h.exitAny_nesting] at htraverse
    · exact htraverse

theorem traceAll_nesting : ∀ (parent : Node) (children : List Node) (s : State Loc), (idsOf children).Nodup →
    (∀ c ∈ children, Ready (some parent) c s) → ∀ t ∈ traceAll ctx parent children s, s.nesting ≤ t.nesting
  | _, [], _, _, _, _, ht => by simp [traceAll] at ht
  | parent, child :: children, s, hnodup, h, t, ht => by
    have hchild := h child List.mem_cons_self
    have hkeeps := traverse_keeps ctx (some parent) child s hchild
    rw [traceAll, List.mem_append] at ht
    obtain ht | ht := ht
    · exact trace_nesting (some parent) child s hchild t ht
    · exact hkeeps.nesting.trans (traceAll_nesting parent children _ (nodup_idsOf_cons.mp hnodup).2.1
        (ready_siblings hnodup h hkeeps) t ht)

end

end

end SonarJavascript.Rules.S3776
