import SonarJavascript.Rules.NestingRun

/-!
# Locality of nesting (S3776)

A node that a listener puts into `nestingNodes` is entered one level deeper. Where it is also a function,
`*` counts it for the enclosing function on enter and for itself on exit.

`nesting_local_iff`: S3776 leaves each function as it entered it, with the complexity of the recursion, if
and only if no function inside another is such a branch.
-/

namespace SonarJavascript.Rules.S3776

variable {Loc : Type}

section

variable {ctx : Context Loc} {parent : Option Node} {node : Node} {s : State Loc}

/-! ### Complexity by recursion -/

/-- The nodes of a subtree with the nodes above each, the parent first. -/
inductive Reaches (top : List Node) (node : Node) : List Node → Node → Prop
  | root : Reaches top node top node
  | child {ancestors parent c} : Reaches top node ancestors parent → c ∈ parent.children →
      Reaches top node (parent :: ancestors) c

/-- No function inside another is a branch. -/
def FunctionsOutsideBranches (top : List Node) (node : Node) : Prop :=
  ∀ ancestors f, Reaches top node ancestors f → f.isFunction = true → isBranch ancestors.head? f = true →
    ∀ a ∈ ancestors, a.isFunction = false

theorem FunctionsOutsideBranches.child {top : List Node} {node c : Node} (h : FunctionsOutsideBranches top node)
    (hc : c ∈ node.children) : FunctionsOutsideBranches (node :: top) c := by
  intro ancestors f hreaches
  refine h ancestors f ?_
  induction hreaches with
  | root => exact .child .root hc
  | child _ hmem ih => exact .child ih hmem

mutual

/-- The condition, node by node. -/
def functionsOutsideBranches (top : List Node) : Node → Bool
  | .mk data children =>
    (!((Node.mk data children).isFunction && isBranch top.head? (.mk data children)) || top.all (!·.isFunction)) &&
      allOutsideBranches (.mk data children :: top) children

def allOutsideBranches (top : List Node) : List Node → Bool
  | [] => true
  | child :: children => functionsOutsideBranches top child && allOutsideBranches top children

end

theorem allOutsideBranches_iff {top children : List Node} :
    allOutsideBranches top children = true ↔ ∀ c ∈ children, functionsOutsideBranches top c = true := by
  induction children with
  | nil => simp [allOutsideBranches]
  | cons child children ih => simp [allOutsideBranches, ih]

theorem functionsOutsideBranches_eq {top : List Node} {node : Node} :
    functionsOutsideBranches top node = true ↔
      (node.isFunction = true → isBranch top.head? node = true → ∀ a ∈ top, a.isFunction = false) ∧
        ∀ c ∈ node.children, functionsOutsideBranches (node :: top) c = true := by
  obtain ⟨data, children⟩ := node
  rw [functionsOutsideBranches, Bool.and_eq_true, allOutsideBranches_iff]
  refine and_congr ?_ .rfl
  simp only [Bool.or_eq_true, Bool.not_eq_true', Bool.and_eq_false_iff, List.all_eq_true]
  cases (Node.mk data children).isFunction <;> cases isBranch top.head? (.mk data children) <;> simp

theorem functionsOutsideBranches_iff {top : List Node} {node : Node} :
    functionsOutsideBranches top node = true ↔ FunctionsOutsideBranches top node := by
  constructor
  · intro h ancestors f hreaches
    have hcheck : functionsOutsideBranches ancestors f = true := by
      induction hreaches with
      | root => exact h
      | child _ hmem ih => exact (functionsOutsideBranches_eq.mp ih).2 _ hmem
    exact (functionsOutsideBranches_eq.mp hcheck).1
  · intro h
    match node with
    | .mk data children =>
      exact functionsOutsideBranches_eq.mpr
        ⟨h top _ .root, fun c hc => functionsOutsideBranches_iff.mpr (h.child hc)⟩
termination_by sizeOf node
decreasing_by
  have := List.sizeOf_lt_of_mem hc
  simp only [Node.children, Node.mk.sizeOf_spec] at this ⊢
  omega

instance {top : List Node} {node : Node} : Decidable (FunctionsOutsideBranches top node) :=
  decidable_of_iff _ functionsOutsideBranches_iff

/-- The functions above a node. -/
def depth (ancestors : List Node) : ℕ := (ancestors.filter Node.isFunction).length

theorem FunctionsOutsideBranches.depth_eq {top : List Node} {node : Node} (h : FunctionsOutsideBranches top node)
    (hf : node.isFunction = true) (hb : isBranch top.head? node = true) : depth top = 0 := by
  have hnone := h top node .root hf hb
  simpa [depth] using hnone

theorem pointsOf_of_isFunction {into : Bool} {bonus level : ℤ} (hf : node.isFunction = true) :
    pointsOf ctx into bonus parent node level =
      if into then pointsOfAll ctx into bonus node node.children
        ((if isBranch parent node = true then level + 1 else level) + 1)
      else [] := by
  cases node
  rw [pointsOf]
  simp only [hf, if_true]
  rfl

theorem pointsOf_of_not_isFunction {into : Bool} {bonus level : ℤ} (hf : node.isFunction = false) :
    pointsOf ctx into bonus parent node level =
      (increments ctx parent node).map (·.point bonus (if isBranch parent node = true then level + 1 else level)) ++
        pointsOfAll ctx into bonus node node.children (if isBranch parent node = true then level + 1 else level) := by
  cases node
  rw [pointsOf]
  simp only [hf, Bool.false_eq_true, if_false]
  rfl

/-- `*` and `*:exit` leave the lists of points alone. -/
theorem enterAny_points (node : Node) (s : State Loc) :
    (enterAny node s).functionOwnComplexity = s.functionOwnComplexity ∧
      (enterAny node s).topLevelOwnComplexity = s.topLevelOwnComplexity ∧
      (enterAny node s).complexityIfNested = s.complexityIfNested ∧
      (enterAny node s).complexityIfNotNested = s.complexityIfNotNested := by
  unfold enterAny
  split_ifs <;> simp

theorem exitAny_points (node : Node) (s : State Loc) :
    (exitAny node s).functionOwnComplexity = s.functionOwnComplexity ∧
      (exitAny node s).topLevelOwnComplexity = s.topLevelOwnComplexity ∧
      (exitAny node s).complexityIfNested = s.complexityIfNested ∧
      (exitAny node s).complexityIfNotNested = s.complexityIfNotNested := by
  unfold exitAny
  split_ifs <;> simp

theorem traverse_points (ctx : Context Loc) (parent : Option Node) (node : Node) (s : State Loc) :
    (traverse ctx parent node s).functionOwnComplexity =
        (if node.isFunction = true then (visited ctx parent node s).functionOwnComplexity.tail
          else (visited ctx parent node s).functionOwnComplexity) ∧
      (traverse ctx parent node s).topLevelOwnComplexity = (visited ctx parent node s).topLevelOwnComplexity ∧
      (traverse ctx parent node s).complexityIfNested = (visited ctx parent node s).complexityIfNested ∧
      (traverse ctx parent node s).complexityIfNotNested = (visited ctx parent node s).complexityIfNotNested := by
  obtain ⟨hown, htop, hnested, hnot⟩ := exitAny_points node (visited ctx parent node s)
  rw [traverse_eq]
  split_ifs with hf
  · rw [exitNode_of_isFunction hf]
    have hsame := onLeaveFunction_same ctx parent node (exitAny node (visited ctx parent node s))
    exact ⟨hsame.own.trans (congrArg List.tail hown), hsame.top.trans htop, hsame.nested.trans hnested,
      hsame.notNested.trans hnot⟩
  · have hsame := exitNode_same ctx parent (by simpa using hf) (exitAny node (visited ctx parent node s))
    exact ⟨hsame.own.trans hown, hsame.top.trans htop, hsame.nested.trans hnested, hsame.notNested.trans hnot⟩

theorem Ready.other_adds (h : Ready parent node s) (hf : node.isFunction = false)
    (hadds : Adds (fun into bonus level => pointsOfAll ctx into bonus node node.children level)
      (entered ctx parent node s).toCounters (visited ctx parent node s).toCounters) :
    Adds (fun into bonus level => pointsOf ctx into bonus parent node level) s.toCounters
      (traverse ctx parent node s).toCounters := by
  obtain ⟨hown, htop, hnested, hnot⟩ := traverse_points ctx parent node s
  obtain ⟨hown', htop', hnested', hnot'⟩ := enterAny_points node s
  rw [if_neg (by simp [hf])] at hown
  have hrun := (h.entered_adds ctx hf).trans hadds
  have hlevel : (enterAny node s).nesting = if isBranch parent node = true then s.nesting + 1 else s.nesting := by
    simp only [enterAny, h.id_mem]
    split_ifs <;> rfl
  have hd : (enterAny node s).enclosingFunctions = s.enclosingFunctions := enterAny_enclosing
  have hfalse : isNestedFunction node s = false := by simp [isNestedFunction, hf]
  constructor
  · rw [h.traverse_nesting, hrun.nesting, hlevel, hfalse]
    split_ifs <;> simp_all
  · exact h.traverse_enclosing hadds.enclosing
  · rw [h.other_ownNesting ctx hf, hrun.ownNesting, enterAny_ownNesting h]
    split_ifs <;> simp
  · intro hone
    have hhead : (enterAny node s).functionOwnControlFlowNesting.headD 0 =
        if isBranch parent node = true then s.functionOwnControlFlowNesting.headD 0 + 1
        else s.functionOwnControlFlowNesting.headD 0 := by
      have hne : s.functionOwnControlFlowNesting ≠ [] := fun hnil => by
        have := h.length
        rw [hnil] at this
        simp only [List.length_nil] at this
        omega
      rw [enterAny_ownNesting h]
      cases hstack : s.functionOwnControlFlowNesting with
      | nil => exact absurd hstack hne
      | cons top stack => split_ifs <;> simp [modifyTop]
    rw [hown, hrun.own (by rw [hd]; exact hone), hown', hhead, pointsOf_of_not_isFunction hf]
  · intro hone
    rw [htop, hrun.top (by rw [hd]; exact hone), htop', hlevel, pointsOf_of_not_isFunction hf]
  · intro htwo
    rw [htop, hrun.topKept (by rw [hd]; exact htwo), htop']
  · intro htwo
    rw [hnested, hrun.nested (by rw [hd]; exact htwo), hnested', hlevel, pointsOf_of_not_isFunction hf]
  · intro htwo
    rw [hnot, hrun.notNested (by rw [hd]; exact htwo), hnot', hlevel, pointsOf_of_not_isFunction hf]

/-- The lists of points that a function starts with. -/
theorem function_entered_points (ctx : Context Loc) (parent : Option Node) (hf : node.isFunction = true) (s : State Loc) :
    (entered ctx parent node s).functionOwnComplexity = [] :: s.functionOwnComplexity ∧
      (s.enclosingFunctions.length = 0 → (entered ctx parent node s).topLevelOwnComplexity = []) ∧
      (1 ≤ s.enclosingFunctions.length →
        (entered ctx parent node s).topLevelOwnComplexity = s.topLevelOwnComplexity) ∧
      (s.enclosingFunctions.length = 1 → (entered ctx parent node s).complexityIfNested = [] ∧
        (entered ctx parent node s).complexityIfNotNested = []) ∧
      (2 ≤ s.enclosingFunctions.length →
        (entered ctx parent node s).complexityIfNested = s.complexityIfNested ∧
        (entered ctx parent node s).complexityIfNotNested = s.complexityIfNotNested) := by
  obtain ⟨hown, htop, hnested, hnot⟩ := enterAny_points node s
  have hpoints := onEnterFunction_points ctx parent node (enterAny node s)
  rw [enterAny_enclosing, htop, hnested, hnot] at hpoints
  rw [entered, enterNode_of_isFunction hf]
  exact ⟨by rw [(onEnterFunction_eq ctx parent node _).2.2.2, hown], hpoints⟩

theorem Ready.function_adds (h : Ready parent node s) (hf : node.isFunction = true)
    (hlocal : isBranch parent node = true → s.enclosingFunctions.length = 0)
    (hadds : Adds (fun into bonus level => pointsOfAll ctx into bonus node node.children level)
      (entered ctx parent node s).toCounters (visited ctx parent node s).toCounters) :
    Adds (fun into bonus level => pointsOf ctx into bonus parent node level) s.toCounters
      (traverse ctx parent node s).toCounters := by
  obtain ⟨hown, htop, hnested, hnot⟩ := traverse_points ctx parent node s
  obtain ⟨hown', -, htop', -, hnested'⟩ := function_entered_points ctx parent hf s
  rw [if_pos hf] at hown
  have hd : (entered ctx parent node s).enclosingFunctions.length = s.enclosingFunctions.length + 1 := by
    rw [h.entered_enclosing, if_pos hf, List.length_cons]
  have hnesting := h.entered_nesting ctx
  have hpoints : ∀ into bonus level, pointsOf ctx into bonus parent node level = if into then
      pointsOfAll ctx into bonus node node.children
        ((if isBranch parent node = true then level + 1 else level) + 1) else [] :=
    fun into bonus level => pointsOf_of_isFunction hf
  constructor
  · -- a branch is not nested, so that one of the two levels at most is taken back
    rw [h.traverse_nesting, hadds.nesting, hnesting]
    simp only [isNestedFunction, hf, Bool.true_and, decide_eq_true_eq]
    by_cases hb : isBranch parent node = true
    · have := hlocal hb
      simp [hb, this]
    · by_cases h2 : 2 ≤ s.enclosingFunctions.length <;> simp [hb, h2]
  · exact h.traverse_enclosing hadds.enclosing
  · rw [h.function_ownNesting hf h.visited_keeps]
    split_ifs with hb
    · have hnil := List.eq_nil_of_length_eq_zero (h.length.trans (hlocal hb))
      rw [hnil]
      rfl
    · rfl
  · intro _
    rw [hown, hadds.own (by omega), hown', tail_modifyTop, List.tail_cons, hpoints]
    simp
  · intro hone
    rw [htop, hadds.topKept (by omega), htop' (by omega), hpoints]
    simp
  · intro htwo
    rw [htop, hadds.topKept (by omega), htop' (by omega)]
  · intro htwo
    have hb : isBranch parent node = false := by
      by_contra hb
      have := hlocal (by simpa using hb)
      omega
    rw [hnested, hadds.nested (by omega), (hnested' htwo).1, hnesting, hpoints]
    simp [isNestedFunction, hf, htwo, hb]
  · intro htwo
    have hb : isBranch parent node = false := by
      by_contra hb
      have := hlocal (by simpa using hb)
      omega
    rw [hnot, hadds.notNested (by omega), (hnested' htwo).2, hnesting, hpoints]
    simp [isNestedFunction, hf, htwo, hb]

variable (ctx) in
mutual

/-- Where no function inside another is a branch, a run adds the points of the recursion. -/
theorem traverse_adds : ∀ (top : List Node) (node : Node) (s : State Loc), Ready top.head? node s →
    depth top = s.enclosingFunctions.length → FunctionsOutsideBranches top node →
      Adds (fun into bonus level => pointsOf ctx into bonus top.head? node level) s.toCounters
        (traverse ctx top.head? node s).toCounters
  | top, .mk data children, s, h, hdepth, hlocal => by
    have hadds := traverseAll_adds top (.mk data children) children (entered ctx top.head? (.mk data children) s)
      (nodup_ids_iff.mp h.nodup).2 (fun _ hc => h.children hc) ?_ fun _ hc => hlocal.child hc
    · by_cases hf : (Node.mk data children).isFunction = true
      · exact h.function_adds hf (fun hb => by rw [← hdepth, hlocal.depth_eq hf hb]) hadds
      · exact h.other_adds (by simpa using hf) hadds
    · rw [h.entered_enclosing]
      by_cases hf : (Node.mk data children).isFunction = true
      · rw [depth, List.filter_cons_of_pos hf, if_pos hf, List.length_cons, List.length_cons, ← hdepth, depth]
      · rw [depth, List.filter_cons_of_neg hf, if_neg hf, ← hdepth, depth]

theorem traverseAll_adds : ∀ (top : List Node) (parent : Node) (children : List Node) (s : State Loc),
    (idsOf children).Nodup → (∀ c ∈ children, Ready (some parent) c s) →
    depth (parent :: top) = s.enclosingFunctions.length →
    (∀ c ∈ children, FunctionsOutsideBranches (parent :: top) c) →
      Adds (fun into bonus level => pointsOfAll ctx into bonus parent children level) s.toCounters
        (traverseAll ctx parent children s).toCounters
  | _, _, [], s, _, _, _, _ => .refl s.toCounters
  | top, parent, child :: children, s, hnodup, h, hdepth, hlocal => by
    have hchild := traverse_adds (parent :: top) child s (h child List.mem_cons_self) hdepth
      (hlocal child List.mem_cons_self)
    have hkeeps := traverse_keeps ctx (some parent) child s (h child List.mem_cons_self)
    exact hchild.trans (traverseAll_adds top parent children _ (nodup_idsOf_cons.mp hnodup).2.1
      (ready_siblings hnodup h hkeeps) (hdepth.trans (congrArg List.length hkeeps.enclosing).symm)
      fun c hc => hlocal c (List.mem_cons_of_mem _ hc))

end

/-! ### Runs over a program -/

/-- A node of the program with the nodes above it, and the state in which the run enters it. -/
inductive Visited (ctx : Context Loc) (program : Node) : List Node → Node → State Loc → Prop
  | root : Visited ctx program [] program create
  | child {ancestors node s before c after} : Visited ctx program ancestors node s →
      node.children = before ++ c :: after →
      Visited ctx program (node :: ancestors) c (traverseAll ctx node before (entered ctx ancestors.head? node s))

/-- The branches and the nested functions above a node. -/
def levelOf : List Node → ℤ
  | [] => 0
  | node :: ancestors => levelOf ancestors + (if isBranch ancestors.head? node = true then 1 else 0) +
      (if node.isFunction = true ∧ 2 ≤ depth ancestors then 1 else 0)

variable {program : Node} {ancestors : List Node}

theorem ready_create (hnodup : program.ids.Nodup) : Ready none program (create : State Loc) where
  nodup := hnodup
  nestingNodes i _ := by simp [create, isBranch]
  considered i _ := by simp [create, isChained]
  length := rfl

theorem Visited.ready (hnodup : program.ids.Nodup) (h : Visited ctx program ancestors node s) :
    Ready ancestors.head? node s := by
  induction h with
  | root => exact ready_create hnodup
  | child _ hsplit ih =>
    have hchildren := (nodup_ids_iff.mp ih.nodup).2
    rw [hsplit] at hchildren
    exact ready_after _ hchildren (fun c hc => ih.children (by rw [hsplit]; exact hc)) _ List.mem_cons_self

theorem Visited.reaches (h : Visited ctx program ancestors node s) : Reaches [] program ancestors node := by
  induction h with
  | root => exact .root
  | child _ hsplit ih => exact .child ih (by rw [hsplit]; simp)

theorem exists_visited (ctx : Context Loc) (h : Reaches [] program ancestors node) :
    ∃ s, Visited ctx program ancestors node s := by
  induction h with
  | root => exact ⟨create, .root⟩
  | child _ hmem ih =>
    obtain ⟨s, hs⟩ := ih
    obtain ⟨before, after, hsplit⟩ := List.append_of_mem hmem
    exact ⟨_, .child hs hsplit⟩

theorem idsOf_append (before after : List Node) : idsOf (before ++ after) = idsOf before ++ idsOf after := by
  induction before with
  | nil => rfl
  | cons child before ih => simp [idsOf, ih]

theorem FunctionsOutsideBranches.of_reaches (h : FunctionsOutsideBranches [] program)
    (hreaches : Reaches [] program ancestors node) : FunctionsOutsideBranches ancestors node := by
  induction hreaches with
  | root => exact h
  | child _ hmem ih => exact ih.child hmem

theorem Ready.before (ctx : Context Loc) {before after : List Node} {c : Node} (h : Ready ancestors.head? node s)
    (hsplit : node.children = before ++ c :: after) :
    (idsOf before).Nodup ∧ ∀ c ∈ before, Ready (some node) c (entered ctx ancestors.head? node s) := by
  have hchildren := (nodup_ids_iff.mp h.nodup).2
  rw [hsplit, idsOf_append] at hchildren
  exact ⟨hchildren.of_append_left, fun c hc => h.children (by rw [hsplit]; exact List.mem_append_left _ hc)⟩

theorem depth_cons (node : Node) (ancestors : List Node) :
    depth (node :: ancestors) = if node.isFunction = true then depth ancestors + 1 else depth ancestors := by
  unfold depth
  split_ifs with hf
  · rw [List.filter_cons_of_pos hf, List.length_cons]
  · rw [List.filter_cons_of_neg hf]

theorem Ready.depth_cons_eq (h : Ready ancestors.head? node s) (hdepth : depth ancestors = s.enclosingFunctions.length) :
    depth (node :: ancestors) = (entered ctx ancestors.head? node s).enclosingFunctions.length := by
  rw [depth_cons, h.entered_enclosing]
  split_ifs <;> simp [hdepth]

theorem Visited.depth_eq (hnodup : program.ids.Nodup) (h : Visited ctx program ancestors node s) :
    depth ancestors = s.enclosingFunctions.length := by
  induction h with
  | root => rfl
  | child hvisited hsplit ih =>
    have hready := hvisited.ready hnodup
    obtain ⟨hbefore, hall⟩ := hready.before ctx hsplit
    rw [(traverseAll_keeps ctx _ _ _ hbefore hall).enclosing]
    exact hready.depth_cons_eq ih

theorem Visited.nesting_eq (hnodup : program.ids.Nodup) (hlocal : FunctionsOutsideBranches [] program)
    (h : Visited ctx program ancestors node s) : s.nesting = levelOf ancestors := by
  induction h with
  | root => rfl
  | @child ancestors node s before c after hvisited hsplit ih =>
    have hready := hvisited.ready hnodup
    have hdepth := hvisited.depth_eq hnodup
    obtain ⟨hbefore, hall⟩ := hready.before ctx hsplit
    have hadds := traverseAll_adds ctx ancestors node before _ hbefore hall (hready.depth_cons_eq hdepth)
      fun c hc => (hlocal.of_reaches hvisited.reaches).child (by rw [hsplit]; exact List.mem_append_left _ hc)
    rw [hadds.nesting, hready.entered_nesting, ih, levelOf, hdepth]
    simp [isNestedFunction]

/-! ### Locality -/

/-- The state that the listener of `:function:exit` finds. -/
def beforeExit (ctx : Context Loc) (parent : Option Node) (f : Node) (s : State Loc) : State Loc :=
  exitAny f (visited ctx parent f s)

/-- The function `f`, entered in the state `s`, is left as it was entered; the level of `s` comes from the
nodes above `f`; the lists of points are those of the recursion over `f`. -/
structure NestingLocal (ctx : Context Loc) (ancestors : List Node) (f : Node) (s : State Loc) : Prop where
  nesting : (traverse ctx ancestors.head? f s).nesting = s.nesting
  ownNesting : (traverse ctx ancestors.head? f s).functionOwnControlFlowNesting = s.functionOwnControlFlowNesting
  level : s.nesting = levelOf ancestors
  own : (beforeExit ctx ancestors.head? f s).functionOwnComplexity.head? =
    some (pointsOfAll ctx false 0 f f.children 0)
  topLevel : depth ancestors = 0 → (beforeExit ctx ancestors.head? f s).topLevelOwnComplexity =
    pointsOfAll ctx false 0 f f.children
      (levelOf ancestors + if isBranch ancestors.head? f = true then 1 else 0)
  secondLevel : depth ancestors = 1 →
    (beforeExit ctx ancestors.head? f s).complexityIfNested = pointsOfAll ctx true 1 f f.children (levelOf ancestors) ∧
      (beforeExit ctx ancestors.head? f s).complexityIfNotNested =
        pointsOfAll ctx true 0 f f.children (levelOf ancestors)

theorem Visited.nestingLocal (hnodup : program.ids.Nodup) (hlocal : FunctionsOutsideBranches [] program)
    {f : Node} (h : Visited ctx program ancestors f s) (hf : f.isFunction = true) :
    NestingLocal ctx ancestors f s := by
  have hready := h.ready hnodup
  have hdepth := h.depth_eq hnodup
  have hlevel := h.nesting_eq hnodup hlocal
  have hlocal := hlocal.of_reaches h.reaches
  have hrun := traverse_adds ctx ancestors f s hready hdepth hlocal
  have hadds : Adds (fun into bonus level => pointsOfAll ctx into bonus f f.children level)
      (entered ctx ancestors.head? f s).toCounters (visited ctx ancestors.head? f s).toCounters :=
    traverseAll_adds ctx ancestors f f.children _ (nodup_ids_iff.mp hready.nodup).2
      (fun _ hc => hready.children hc) (hready.depth_cons_eq hdepth) fun _ hc => hlocal.child hc
  have hd : (entered ctx ancestors.head? f s).enclosingFunctions.length = depth ancestors + 1 := by
    rw [hready.entered_enclosing, if_pos hf, List.length_cons, hdepth]
  have hnesting := hready.entered_nesting ctx
  obtain ⟨hown, htop, hnested, hnot⟩ := exitAny_points f (visited ctx ancestors.head? f s)
  obtain ⟨hown', htop', -, hnested', -⟩ := function_entered_points ctx ancestors.head? hf s
  have hzero : (entered ctx ancestors.head? f s).functionOwnControlFlowNesting.headD 0 = 0 := by
    rw [entered, enterNode_of_isFunction hf, (onEnterFunction_eq ctx ancestors.head? f _).2.2.1]
    rfl
  refine ⟨hrun.nesting, hrun.ownNesting, hlevel, ?_, fun h0 => ?_, fun h1 => ?_⟩
  · rw [beforeExit, hown, hadds.own (by omega), hown', hzero]
    simp [modifyTop]
  · rw [beforeExit, htop, hadds.top (by omega), htop' (by omega), hnesting, hlevel]
    simp [isNestedFunction, ← hdepth, h0]
  · have hb : isBranch ancestors.head? f = false := by
      by_contra hb
      have := hlocal.depth_eq hf (by simpa using hb)
      omega
    rw [beforeExit, hnested, hnot, hadds.nested (by omega), hadds.notNested (by omega),
      (hnested' (by omega)).1, (hnested' (by omega)).2, hnesting, hlevel]
    simp [isNestedFunction, ← hdepth, h1, hb]

/-- In a function, another one that is a branch leaves its level behind. -/
theorem Visited.ownNesting_of_isBranch (hnodup : program.ids.Nodup) {f : Node}
    (h : Visited ctx program ancestors f s) (hf : f.isFunction = true) (hb : isBranch ancestors.head? f = true)
    (hd : depth ancestors ≠ 0) :
    (traverse ctx ancestors.head? f s).functionOwnControlFlowNesting ≠ s.functionOwnControlFlowNesting := by
  have hready := h.ready hnodup
  rw [hready.function_ownNesting hf hready.visited_keeps, if_pos hb]
  have hlength := hready.length
  rw [← h.depth_eq hnodup] at hlength
  cases hstack : s.functionOwnControlFlowNesting with
  | nil => simp [hstack] at hlength; omega
  | cons level stack =>
    intro heq
    have : level + 1 = level := (List.cons.inj heq).1
    omega

/-- S3776 keeps the nesting of each function local, and the nesting is never negative, if and only if no
function inside another is a branch of a conditional, of a loop, of a `switch` or of a `catch`. -/
theorem nesting_local_iff (ctx : Context Loc) (program : Node) (hnodup : program.ids.Nodup) :
    ((∀ ancestors f s, Visited ctx program ancestors f s → f.isFunction = true → NestingLocal ctx ancestors f s) ∧
        ∀ t ∈ trace ctx none program create, 0 ≤ t.nesting) ↔
      FunctionsOutsideBranches [] program := by
  constructor
  · rintro ⟨hall, -⟩ ancestors f hreaches hf hb
    obtain ⟨s, hs⟩ := exists_visited ctx hreaches
    by_contra hnone
    refine hs.ownNesting_of_isBranch hnodup hf hb (fun hd => hnone ?_) (hall ancestors f s hs hf).ownNesting
    simpa [depth] using hd
  · exact fun hlocal => ⟨fun ancestors f s h hf => h.nestingLocal hnodup hlocal hf,
      trace_nesting none program create (ready_create hnodup)⟩

end

/-! ### A branch in two functions -/

def counting : Context ℕ where
  threshold := 15
  isFileComplexity := false
  firstToken := Node.id
  firstTokenAfter node _ := node.id
  mainFunctionToken node _ := node.id
  startsWithCapital _ := false

def leaf (id : ℕ) (type : NodeType) (key : Key) : Node := .mk ⟨id, type, key, none, ""⟩ []

def nodeOf (id : ℕ) (type : NodeType) (key : Key) (children : List Node) : Node :=
  .mk ⟨id, type, key, none, ""⟩ children

/-- `function outer() { function inner(a) { a ? () => 1 : 0 } }`, with blocks and parameters left out. -/
def outerFunction : Node :=
  nodeOf 1 .functionDeclaration .body [nodeOf 2 .functionDeclaration .body
    [nodeOf 3 .conditionalExpression (.other "expression") [leaf 4 .identifier .test,
      nodeOf 5 .arrowFunctionExpression .consequent [leaf 6 (.other "Literal") .body],
      leaf 7 (.other "Literal") .alternate]]]

/-- `function next(a) { if (a) { } }` -/
def nextFunction : Node :=
  nodeOf 8 .functionDeclaration .body [nodeOf 9 .ifStatement .body
    [leaf 10 .identifier .test, leaf 11 (.other "BlockStatement") .consequent]]

def twoFunctions : Node := nodeOf 0 .program (.other "") [outerFunction, nextFunction]

/-- `function inner(b) { if (b) { } }` -/
def innerFunction : Node :=
  nodeOf 2 .functionDeclaration .body [nodeOf 3 .ifStatement .body
    [leaf 4 .identifier .test, leaf 5 (.other "BlockStatement") .consequent]]

/-- `function outer(a) { function inner(b) { if (b) { } } if (a) { } }` -/
def enclosingFunction : Node :=
  nodeOf 1 .functionDeclaration .body [innerFunction, nodeOf 6 .ifStatement .body
    [leaf 7 .identifier .test, leaf 12 (.other "BlockStatement") .consequent]]

def nestedFunctions : Node := nodeOf 0 .program (.other "") [enclosingFunction, nextFunction]

theorem nesting_local_iff_nested : ∃ s t,
    Visited counting nestedFunctions [enclosingFunction, nestedFunctions] innerFunction s ∧
      NestingLocal counting [enclosingFunction, nestedFunctions] innerFunction s ∧
      Visited counting nestedFunctions [nestedFunctions] nextFunction t ∧
      NestingLocal counting [nestedFunctions] nextFunction t := by
  have hlocal := ((nesting_local_iff counting nestedFunctions (by decide)).mpr (by decide)).1
  have hroot : Visited counting nestedFunctions [] nestedFunctions create := .root
  have hinner := (hroot.child (show nestedFunctions.children = [] ++ enclosingFunction :: [nextFunction] from rfl)).child
    (show enclosingFunction.children = [] ++ innerFunction :: _ from rfl)
  have hnext := hroot.child (show nestedFunctions.children = [enclosingFunction] ++ nextFunction :: [] from rfl)
  exact ⟨_, _, hinner, hlocal _ _ _ hinner rfl, hnext, hlocal _ _ _ hnext rfl⟩

set_option maxRecDepth 4000 in
/-- The arrow function leaves `nesting` at 1, and the `if` of the next function counts 2. -/
theorem nesting_after_branch :
    ∃ s t, Visited counting twoFunctions [twoFunctions] outerFunction s ∧
      Visited counting twoFunctions [twoFunctions] nextFunction t ∧
      s.nesting = 0 ∧ (traverse counting (some twoFunctions) outerFunction s).nesting = 1 ∧
      (beforeExit counting (some twoFunctions) nextFunction s).topLevelOwnComplexity = [⟨1, 9⟩] ∧
      (beforeExit counting (some twoFunctions) nextFunction t).topLevelOwnComplexity = [⟨2, 9⟩] :=
  ⟨_, _, .child .root (show twoFunctions.children = [] ++ outerFunction :: [nextFunction] from rfl),
    .child .root (show twoFunctions.children = [outerFunction] ++ nextFunction :: [] from rfl),
    rfl, by decide, by decide, by decide⟩

end SonarJavascript.Rules.S3776
