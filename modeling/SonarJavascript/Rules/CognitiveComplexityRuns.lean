import SonarJavascript.Rules.NestingLocality

/-!
# Reports of cognitive complexity (S3776)

The rule keeps what it has found in a top-level function and in the function inside of it that it is in. A function that
is left counts for the file, or for the function around it.

`reports_traverse`: where no function inside another is a branch, the reports are those on the functions that have more
points than the threshold, or the one of the file with the sum over its sites.
-/

namespace SonarJavascript.Rules.S3776

variable {Loc : Type}

/-! ### What is to be reported -/

/-- A node with its parent and the nesting level at which it counts. -/
structure Site where
  parent : Option Node
  node : Node
  level : ℤ

mutual

/-- The nodes of a subtree up to the next functions, with these. -/
def sites (parent : Option Node) : Node → ℤ → List Site
  | .mk data children, level =>
    let node := .mk data children
    let level := if isBranch parent node then level + 1 else level
    ⟨parent, node, level⟩ :: if node.isFunction then [] else sitesAll node children level

def sitesAll (parent : Node) : List Node → ℤ → List Site
  | [], _ => []
  | child :: children, level => sites (some parent) child level ++ sitesAll parent children level

end

mutual

/-- All nodes of a subtree with their parents, in the order in which they are left. -/
def leftNodes (parent : Option Node) : Node → List (Option Node × Node)
  | .mk data children => leftNodesAll (.mk data children) children ++ [(parent, .mk data children)]

def leftNodesAll (parent : Node) : List Node → List (Option Node × Node)
  | [] => []
  | child :: children => leftNodes (some parent) child ++ leftNodesAll parent children

end

def Increment.isStructural : Increment Loc → Bool
  | structural _ => true
  | plain _ => false

section

variable (ctx : Context Loc)

namespace Site

def structural (site : Site) : Bool := (increments ctx site.parent site.node).any Increment.isStructural

def returnsJsx (site : Site) : Bool :=
  site.node.type = .returnStatement && (site.node.property .argument).any fun argument =>
    argument.type = .jsxElement || argument.type = .jsxFragment

/-- A function in a top-level function: its points with all functions inside of it, for both ways to count them. -/
def secondLevelFunctions (site : Site) : List (SecondLevelFunction Loc) :=
  if site.node.isFunction then
    [{ node := site.node.id
       parent := site.parent.map Node.id
       complexityIfThisSecondaryIsTopLevel := pointsOfAll ctx true 0 site.node site.node.children site.level
       complexityIfNested := pointsOfAll ctx true 1 site.node site.node.children site.level
       loc := ctx.mainFunctionToken site.node site.parent }]
  else []

/-- The sites in a function. -/
def inside (site : Site) : List Site := sitesAll site.node site.node.children site.level

/-- In a top-level function that has control flow and is no component, the functions count as nested ones. -/
def topLevelComplexity (site : Site) : ℤ :=
  let own := pointsOfAll ctx false 0 site.node site.node.children site.level
  let secondLevel := site.inside.flatMap (secondLevelFunctions ctx)
  if site.inside.any (structural ctx) &&
      !(nameStartsWithCapital ctx site.parent site.node && site.inside.any returnsJsx) then
    totalComplexity (own ++ secondLevel.flatMap (·.complexityIfNested))
  else totalComplexity own + (secondLevel.map (totalComplexity ·.complexityIfThisSecondaryIsTopLevel)).sum

/-- What a site outside of functions adds to the complexity of the file. -/
def complexity (site : Site) : ℤ :=
  if site.node.isFunction then site.topLevelComplexity ctx
  else totalComplexity ((increments ctx site.parent site.node).map (·.point 0 site.level))

end Site

def reportsOn (points : List (ComplexityPoint Loc)) (loc : Loc) : List (Report Loc) :=
  if totalComplexity points > ctx.threshold then
    [.refactorFunction (totalComplexity points) ctx.threshold loc
      (points.map fun point => (point.location, secondaryMessage point.complexity))
      (totalComplexity points - ctx.threshold)]
  else []

/-- The reports on a function, from its own points. -/
def refactorFunction (parent : Option Node) (f : Node) : List (Report Loc) :=
  reportsOn ctx (pointsOfAll ctx false 0 f f.children 0) (ctx.mainFunctionToken f parent)

/-- The reports on the functions that are left. -/
def leftReports (left : List (Option Node × Node)) : List (Report Loc) :=
  if ctx.isFileComplexity then []
  else (left.filter (·.2.isFunction)).flatMap fun f => refactorFunction ctx f.1 f.2

def expectedReports (program : Node) : List (Report Loc) :=
  if ctx.isFileComplexity then
    [.fileComplexity program.id ((sites none program 0).map (Site.complexity ctx)).sum]
  else leftReports ctx (leftNodes none program)

end

/-! ### What a run finds -/

/-- Outside of functions the sites count for the file, in a top-level function they are kept for it, and further inside
they leave nothing. The functions that are left are reported. -/
structure Finds (ctx : Context Loc) (found : ℤ → List Site) (left : List (Option Node × Node)) (s t : State Loc) :
    Prop where
  file : s.enclosingFunctions.length = 0 →
    t.fileComplexity = s.fileComplexity + ((found s.nesting).map (Site.complexity ctx)).sum
  fileKept : 1 ≤ s.enclosingFunctions.length → t.fileComplexity = s.fileComplexity
  structural : s.enclosingFunctions.length = 1 → t.topLevelHasStructuralComplexity =
    (s.topLevelHasStructuralComplexity || (found s.nesting).any (Site.structural ctx))
  component : s.enclosingFunctions.length = 1 → t.reactFunctionalComponent = { s.reactFunctionalComponent with
    returnsJsx := s.reactFunctionalComponent.returnsJsx || (found s.nesting).any Site.returnsJsx }
  secondLevel : s.enclosingFunctions.length = 1 → t.secondLevelFunctions =
    s.secondLevelFunctions ++ (found s.nesting).flatMap (Site.secondLevelFunctions ctx)
  kept : 2 ≤ s.enclosingFunctions.length →
    t.topLevelHasStructuralComplexity = s.topLevelHasStructuralComplexity ∧
      t.reactFunctionalComponent = s.reactFunctionalComponent ∧ t.secondLevelFunctions = s.secondLevelFunctions
  reports : t.reports = s.reports ++ leftReports ctx left

section

variable {ctx : Context Loc} {parent : Option Node} {node : Node} {s t u : State Loc}

theorem leftReports_append (first second : List (Option Node × Node)) :
    leftReports ctx (first ++ second) = leftReports ctx first ++ leftReports ctx second := by
  unfold leftReports
  split_ifs
  · rfl
  · rw [List.filter_append, List.flatMap_append]

theorem leftReports_nil : leftReports ctx [] = [] := by
  unfold leftReports
  split_ifs <;> rfl

theorem leftReports_other (hf : node.isFunction = false) : leftReports ctx [(parent, node)] = [] := by
  unfold leftReports
  rw [List.filter_cons_of_neg (by simp [hf])]
  split_ifs <;> rfl

theorem Finds.refl (ctx : Context Loc) (s : State Loc) : Finds ctx (fun _ => []) [] s s where
  file _ := by simp
  fileKept _ := rfl
  structural _ := by simp
  component _ := by simp
  secondLevel _ := by simp
  kept _ := ⟨rfl, rfl, rfl⟩
  reports := by simp [leftReports_nil]

theorem Finds.trans {found found' : ℤ → List Site} {left left' : List (Option Node × Node)}
    (h : Finds ctx found left s t) (h' : Finds ctx found' left' t u) (hnesting : t.nesting = s.nesting)
    (henclosing : t.enclosingFunctions = s.enclosingFunctions) :
    Finds ctx (fun level => found level ++ found' level) (left ++ left') s u where
  file hd := by
    rw [h'.file (henclosing ▸ hd), h.file hd, hnesting, List.map_append, List.sum_append, add_assoc]
  fileKept hd := (h'.fileKept (henclosing ▸ hd)).trans (h.fileKept hd)
  structural hd := by rw [h'.structural (henclosing ▸ hd), h.structural hd, hnesting, List.any_append, Bool.or_assoc]
  component hd := by
    rw [h'.component (henclosing ▸ hd), h.component hd, hnesting, List.any_append]
    simp only [Bool.or_assoc]
  secondLevel hd := by
    rw [h'.secondLevel (henclosing ▸ hd), h.secondLevel hd, hnesting, List.flatMap_append, List.append_assoc]
  kept hd := by
    obtain ⟨hstructural, hcomponent, hsecond⟩ := h.kept hd
    obtain ⟨hstructural', hcomponent', hsecond'⟩ := h'.kept (henclosing ▸ hd)
    exact ⟨hstructural'.trans hstructural, hcomponent'.trans hcomponent, hsecond'.trans hsecond⟩
  reports := by rw [h'.reports, h.reports, leftReports_append, List.append_assoc]

/-! ### Nodes that are no functions -/

theorem totalComplexity_cons (point : ComplexityPoint Loc) (points : List (ComplexityPoint Loc)) :
    totalComplexity (point :: points) = point.complexity + totalComplexity points := by
  have hfoldl : ∀ (points : List (ComplexityPoint Loc)) (start : ℤ),
      points.foldl (fun acc cur => acc + cur.complexity) start = start + totalComplexity points := by
    intro points
    induction points with
    | nil => intro start; exact (add_zero start).symm
    | cons first rest ih =>
      intro start
      rw [totalComplexity, List.foldl_cons, List.foldl_cons, ih, ih, zero_add, add_assoc]
  rw [totalComplexity, List.foldl_cons, hfoldl, zero_add]

theorem add_file (increment : Increment Loc) (s : Counters Loc) :
    (s.enclosingFunctions.length = 0 → (increment.add s).fileComplexity =
        s.fileComplexity + (increment.point 0 s.nesting).complexity) ∧
      (1 ≤ s.enclosingFunctions.length → (increment.add s).fileComplexity = s.fileComplexity) := by
  cases increment <;> rcases hd : s.enclosingFunctions.length with _ | _ | n <;>
    simp [Increment.add, Increment.point, addStructuralComplexity, addComplexity, hd]

theorem add_structural (increment : Increment Loc) (s : Counters Loc) :
    (s.enclosingFunctions.length = 1 → (increment.add s).topLevelHasStructuralComplexity =
        (s.topLevelHasStructuralComplexity || increment.isStructural)) ∧
      (2 ≤ s.enclosingFunctions.length →
        (increment.add s).topLevelHasStructuralComplexity = s.topLevelHasStructuralComplexity) := by
  cases increment <;> rcases hd : s.enclosingFunctions.length with _ | _ | n <;>
    simp [Increment.add, Increment.isStructural, addStructuralComplexity, addComplexity, hd]

theorem foldl_file (list : List (Increment Loc)) (s : Counters Loc) :
    (s.enclosingFunctions.length = 0 → (list.foldl (fun s i => i.add s) s).fileComplexity =
        s.fileComplexity + totalComplexity (list.map (·.point 0 s.nesting))) ∧
      (1 ≤ s.enclosingFunctions.length →
        (list.foldl (fun s i => i.add s) s).fileComplexity = s.fileComplexity) := by
  induction list generalizing s with
  | nil => exact ⟨fun _ => (add_zero _).symm, fun _ => rfl⟩
  | cons increment list ih =>
    have hadds := increment.add_adds s
    have hfile := add_file increment s
    have hrest := ih (increment.add s)
    rw [hadds.enclosing, hadds.nesting] at hrest
    refine ⟨fun hd => ?_, fun hd => ?_⟩
    · rw [List.foldl_cons, hrest.1 hd, hfile.1 hd, List.map_cons, totalComplexity_cons, add_assoc]
    · rw [List.foldl_cons, hrest.2 hd, hfile.2 hd]

theorem foldl_structural (list : List (Increment Loc)) (s : Counters Loc) :
    (s.enclosingFunctions.length = 1 → (list.foldl (fun s i => i.add s) s).topLevelHasStructuralComplexity =
        (s.topLevelHasStructuralComplexity || list.any Increment.isStructural)) ∧
      (2 ≤ s.enclosingFunctions.length → (list.foldl (fun s i => i.add s) s).topLevelHasStructuralComplexity =
        s.topLevelHasStructuralComplexity) := by
  induction list generalizing s with
  | nil => simp
  | cons increment list ih =>
    have hstructural := add_structural increment s
    have hrest := ih (increment.add s)
    rw [(increment.add_adds s).enclosing] at hrest
    refine ⟨fun hd => ?_, fun hd => ?_⟩
    · rw [List.foldl_cons, hrest.1 hd, hstructural.1 hd, List.any_cons, Bool.or_assoc]
    · rw [List.foldl_cons, hrest.2 hd, hstructural.2 hd]

theorem enterNode_rest (ctx : Context Loc) (parent : Option Node) (s : State Loc) (hf : node.isFunction = false)
    (hreturn : node.type ≠ .returnStatement) :
    (enterNode ctx parent node s).reports = s.reports ∧
      (enterNode ctx parent node s).secondLevelFunctions = s.secondLevelFunctions ∧
      (enterNode ctx parent node s).reactFunctionalComponent = s.reactFunctionalComponent := by
  unfold enterNode
  cases htype : node.type with
  | functionDeclaration | functionExpression | arrowFunctionExpression => simp [Node.isFunction, htype] at hf
  | returnStatement => exact absurd htype hreturn
  | ifStatement =>
    simp only [visitIfStatement]
    split_ifs <;> exact ⟨rfl, rfl, rfl⟩
  | continueStatement | breakStatement =>
    simp only [visitContinueOrBreakStatement]
    split_ifs <;> exact ⟨rfl, rfl, rfl⟩
  | logicalExpression =>
    simp only [visitLogicalExpression]
    split
    · exact ⟨rfl, rfl, rfl⟩
    · split_ifs <;> exact ⟨rfl, rfl, rfl⟩
  | _ => exact ⟨rfl, rfl, rfl⟩

theorem enterNode_kept (ctx : Context Loc) (parent : Option Node) (s : State Loc) (hf : node.isFunction = false) :
    (enterNode ctx parent node s).reports = s.reports ∧
      (enterNode ctx parent node s).secondLevelFunctions = s.secondLevelFunctions := by
  by_cases hreturn : node.type = .returnStatement
  · simp only [enterNode, hreturn, visitReturnStatement]
    split_ifs <;> exact ⟨rfl, rfl⟩
  · obtain ⟨hreports, hsecond, -⟩ := enterNode_rest ctx parent s hf hreturn
    exact ⟨hreports, hsecond⟩

theorem enterNode_component (ctx : Context Loc) (parent : Option Node) (s : State Loc) (hf : node.isFunction = false)
    (level : ℤ) :
    (enterNode ctx parent node s).reactFunctionalComponent =
      if s.enclosingFunctions.length = 1 ∧ (Site.mk parent node level).returnsJsx = true then
        { s.reactFunctionalComponent with returnsJsx := true }
      else s.reactFunctionalComponent := by
  by_cases hreturn : node.type = .returnStatement
  · simp only [enterNode, hreturn, visitReturnStatement, Site.returnsJsx, decide_true, Bool.true_and]
    split_ifs <;> rfl
  · rw [if_neg (by simp [Site.returnsJsx, hreturn])]
    exact (enterNode_rest ctx parent s hf hreturn).2.2

/-- The listeners of `*` leave alone what has been found. -/
structure Untouched (s t : State Loc) : Prop where
  file : t.fileComplexity = s.fileComplexity
  structural : t.topLevelHasStructuralComplexity = s.topLevelHasStructuralComplexity
  component : t.reactFunctionalComponent = s.reactFunctionalComponent
  secondLevel : t.secondLevelFunctions = s.secondLevelFunctions
  reports : t.reports = s.reports

theorem enterAny_untouched (node : Node) (s : State Loc) : Untouched s (enterAny node s) := by
  unfold enterAny
  split_ifs <;> exact ⟨rfl, rfl, rfl, rfl, rfl⟩

theorem exitAny_untouched (node : Node) (s : State Loc) : Untouched s (exitAny node s) := by
  unfold exitAny
  split_ifs <;> exact ⟨rfl, rfl, rfl, rfl, rfl⟩

theorem Finds.untouched {found found' : ℤ → List Site} {left : List (Option Node × Node)} {s' t' : State Loc}
    (h : Finds ctx found left s' t') (hs : Untouched s s') (ht : Untouched t' t)
    (henclosing : s'.enclosingFunctions = s.enclosingFunctions) (hfound : found' s.nesting = found s'.nesting) :
    Finds ctx found' left s t where
  file hd := by rw [ht.file, h.file (henclosing ▸ hd), hs.file, hfound]
  fileKept hd := by rw [ht.file, h.fileKept (henclosing ▸ hd), hs.file]
  structural hd := by rw [ht.structural, h.structural (henclosing ▸ hd), hs.structural, hfound]
  component hd := by rw [ht.component, h.component (henclosing ▸ hd), hs.component, hfound]
  secondLevel hd := by rw [ht.secondLevel, h.secondLevel (henclosing ▸ hd), hs.secondLevel, hfound]
  kept hd := by
    obtain ⟨hstructural, hcomponent, hsecond⟩ := h.kept (henclosing ▸ hd)
    rw [ht.structural, ht.component, ht.secondLevel, hstructural, hcomponent, hsecond]
    exact ⟨hs.structural, hs.component, hs.secondLevel⟩
  reports := by rw [ht.reports, h.reports, hs.reports]

theorem entered_finds (hf : node.isFunction = false) (hprogram : node.type ≠ .program)
    (hchain : node.isLogicalExpression = true →
      (node.id ∈ s.consideredLogicalExpressions ↔ isChained parent node = true)) :
    Finds ctx (fun level => [⟨parent, node, level⟩]) [] s (enterNode ctx parent node s) := by
  have hcounters : (enterNode ctx parent node s).toCounters =
      (increments ctx parent node).foldl (fun s i => i.add s) s.toCounters := enterNode_toCounters hf hprogram hchain
  have hfile := foldl_file (increments ctx parent node) s.toCounters
  have hstructural := foldl_structural (increments ctx parent node) s.toCounters
  obtain ⟨hreports, hsecond⟩ := enterNode_kept ctx parent s hf
  have hcomponent := enterNode_component ctx parent s hf
  rw [← hcounters] at hfile hstructural
  constructor
  · intro hd
    rw [hfile.1 hd]
    simp [Site.complexity, hf]
  · exact hfile.2
  · intro hd
    rw [hstructural.1 hd]
    simp [Site.structural]
  · intro hd
    rw [hcomponent s.nesting]
    by_cases hjsx : (Site.mk parent node s.nesting).returnsJsx = true
    · simp [hd, hjsx]
    · simp [hjsx]
  · intro _
    rw [hsecond]
    simp [Site.secondLevelFunctions, hf]
  · intro hd
    refine ⟨hstructural.2 hd, ?_, hsecond⟩
    rw [hcomponent s.nesting, if_neg (by omega)]
  · rw [hreports, leftReports_nil, List.append_nil]

theorem sites_eq (parent : Option Node) (node : Node) (level : ℤ) :
    sites parent node level =
      ⟨parent, node, if isBranch parent node = true then level + 1 else level⟩ :: if node.isFunction = true then []
        else sitesAll node node.children (if isBranch parent node = true then level + 1 else level) := by
  cases node
  rw [sites]
  rfl

theorem leftNodes_eq (parent : Option Node) (node : Node) :
    leftNodes parent node = leftNodesAll node node.children ++ [(parent, node)] := by
  cases node
  rw [leftNodes]
  rfl

theorem Ready.enterAny_nesting (h : Ready parent node s) :
    (enterAny node s).nesting = if isBranch parent node = true then s.nesting + 1 else s.nesting := by
  simp only [enterAny, h.id_mem]
  split_ifs <;> rfl

theorem exitNode_of_other (hf : node.isFunction = false) (hprogram : node.type ≠ .program) :
    exitNode ctx parent node s = s := by
  unfold exitNode
  cases htype : node.type with
  | functionDeclaration | functionExpression | arrowFunctionExpression => simp [Node.isFunction, htype] at hf
  | program => exact absurd htype hprogram
  | _ => rfl

theorem Ready.other_finds (h : Ready parent node s) (hf : node.isFunction = false) (hprogram : node.type ≠ .program)
    (hfinds : Finds ctx (sitesAll node node.children) (leftNodesAll node node.children)
      (entered ctx parent node s) (visited ctx parent node s)) :
    Finds ctx (sites parent node) (leftNodes parent node) s (traverse ctx parent node s) := by
  have hadds := h.entered_adds ctx hf
  have hentered : Finds ctx (fun level => [⟨parent, node, level⟩]) [] (enterAny node s) (entered ctx parent node s) :=
    entered_finds hf hprogram fun hl => by rw [enterAny_considered, h.id_considered hl]
  have hrun := hentered.trans hfinds hadds.nesting hadds.enclosing
  have hleft : Finds ctx (fun level => [⟨parent, node, level⟩] ++ sitesAll node node.children level)
      (leftNodes parent node) (enterAny node s) (visited ctx parent node s) := by
    refine ⟨hrun.file, hrun.fileKept, hrun.structural, hrun.component, hrun.secondLevel, hrun.kept, ?_⟩
    rw [hrun.reports, leftNodes_eq, leftReports_append, leftReports_append, leftReports_other hf, leftReports_nil,
      List.append_nil, List.nil_append]
  rw [traverse_eq, exitNode_of_other hf hprogram]
  refine hleft.untouched (enterAny_untouched node s) (exitAny_untouched node _) enterAny_enclosing ?_
  rw [sites_eq, hf, h.enterAny_nesting]
  rfl

/-! ### Functions -/

theorem checkFunction_reports (points : List (ComplexityPoint Loc)) (loc : Loc) :
    (checkFunction ctx points loc s).reports = s.reports ++ reportsOn ctx points loc := by
  simp only [checkFunction, reportsOn]
  split_ifs
  · rfl
  · exact (List.append_nil _).symm

theorem checkFunction_toCounters (ctx : Context Loc) (points : List (ComplexityPoint Loc)) (loc : Loc) (s : State Loc) :
    (checkFunction ctx points loc s).toCounters = s.toCounters ∧
      (checkFunction ctx points loc s).reactFunctionalComponent = s.reactFunctionalComponent ∧
      (checkFunction ctx points loc s).secondLevelFunctions = s.secondLevelFunctions := by
  simp only [checkFunction]
  split_ifs <;> exact ⟨rfl, rfl, rfl⟩

/-- The state in which a function is counted for the file, or for the function around it. -/
def popped (s : State Loc) : State Loc :=
  { s with
    functionOwnComplexity := s.functionOwnComplexity.tail
    functionOwnControlFlowNesting := s.functionOwnControlFlowNesting.tail
    enclosingFunctions := s.enclosingFunctions.tail }

def counted (ctx : Context Loc) (parent : Option Node) (node : Node) (s : State Loc) : State Loc :=
  match (popped s).enclosingFunctions.length with
  | 0 => leaveTopLevelFunction (popped s)
  | 1 => leaveSecondLevelFunction ctx parent node (popped s)
  | _ => popped s

theorem onLeaveFunction_counted (ctx : Context Loc) (parent : Option Node) (node : Node) (s : State Loc) :
    (onLeaveFunction ctx parent node s).toCounters = (counted ctx parent node s).toCounters ∧
      (onLeaveFunction ctx parent node s).reactFunctionalComponent =
        (counted ctx parent node s).reactFunctionalComponent ∧
      (onLeaveFunction ctx parent node s).secondLevelFunctions = (counted ctx parent node s).secondLevelFunctions ∧
      (onLeaveFunction ctx parent node s).reports = (counted ctx parent node s).reports ++
        if ctx.isFileComplexity then []
        else reportsOn ctx (s.functionOwnComplexity.headD []) (ctx.mainFunctionToken node parent) := by
  have hleave : onLeaveFunction ctx parent node s = if ctx.isFileComplexity then counted ctx parent node s
      else checkFunction ctx (s.functionOwnComplexity.headD []) (ctx.mainFunctionToken node parent)
        (counted ctx parent node s) := rfl
  rw [hleave]
  split_ifs
  · exact ⟨rfl, rfl, rfl, (List.append_nil _).symm⟩
  · obtain ⟨hcounters, hcomponent, hsecond⟩ := checkFunction_toCounters ctx (s.functionOwnComplexity.headD [])
      (ctx.mainFunctionToken node parent) (counted ctx parent node s)
    exact ⟨hcounters, hcomponent, hsecond, checkFunction_reports _ _⟩

/-- What a top-level function adds to the complexity of the file. -/
def share (s : State Loc) : ℤ :=
  if s.topLevelHasStructuralComplexity && !s.reactFunctionalComponent.isConfirmed then
    totalComplexity (s.topLevelOwnComplexity ++ s.secondLevelFunctions.flatMap (·.complexityIfNested))
  else totalComplexity s.topLevelOwnComplexity +
    (s.secondLevelFunctions.map (totalComplexity ·.complexityIfThisSecondaryIsTopLevel)).sum

theorem leaveTopLevelFunction_file (s : State Loc) :
    (leaveTopLevelFunction s).fileComplexity = s.fileComplexity + share s := by
  unfold leaveTopLevelFunction share
  split_ifs
  · rfl
  · exact add_assoc _ _ _

theorem counted_kept (ctx : Context Loc) (parent : Option Node) (node : Node) (s : State Loc) :
    (counted ctx parent node s).topLevelHasStructuralComplexity = s.topLevelHasStructuralComplexity ∧
      (counted ctx parent node s).reactFunctionalComponent = s.reactFunctionalComponent ∧
      (counted ctx parent node s).reports = s.reports ∧
      (1 ≤ (popped s).enclosingFunctions.length → (counted ctx parent node s).fileComplexity = s.fileComplexity) ∧
      (2 ≤ (popped s).enclosingFunctions.length →
        (counted ctx parent node s).secondLevelFunctions = s.secondLevelFunctions) := by
  unfold counted
  rcases (popped s).enclosingFunctions.length with _ | _ | n
  · simp only [leaveTopLevelFunction]
    refine ⟨?_, ?_, ?_, by omega, by omega⟩ <;> split_ifs <;> rfl
  · exact ⟨rfl, rfl, rfl, fun _ => rfl, by omega⟩
  · exact ⟨rfl, rfl, rfl, fun _ => rfl, fun _ => rfl⟩

/-- What has been found when a function is entered. -/
theorem onEnterFunction_found (ctx : Context Loc) (parent : Option Node) (node : Node) (s : State Loc) :
    (onEnterFunction ctx parent node s).fileComplexity = s.fileComplexity ∧
      (onEnterFunction ctx parent node s).reports = s.reports ∧
      (s.enclosingFunctions.length = 0 →
        (onEnterFunction ctx parent node s).topLevelHasStructuralComplexity = false ∧
        (onEnterFunction ctx parent node s).reactFunctionalComponent = ⟨nameStartsWithCapital ctx parent node, false⟩ ∧
        (onEnterFunction ctx parent node s).secondLevelFunctions = []) ∧
      (1 ≤ s.enclosingFunctions.length →
        (onEnterFunction ctx parent node s).topLevelHasStructuralComplexity = s.topLevelHasStructuralComplexity ∧
        (onEnterFunction ctx parent node s).reactFunctionalComponent = s.reactFunctionalComponent ∧
        (onEnterFunction ctx parent node s).secondLevelFunctions = s.secondLevelFunctions) := by
  unfold onEnterFunction
  split
  · simp [*]
  · simp [*]
  · have h0 : s.enclosingFunctions.length ≠ 0 := ‹_›
    simp only [h0, false_implies, true_and]
    exact ⟨rfl, rfl, fun _ => ⟨rfl, rfl, rfl⟩⟩

theorem function_entered_found (ctx : Context Loc) (parent : Option Node) (hf : node.isFunction = true)
    (s : State Loc) :
    (entered ctx parent node s).fileComplexity = s.fileComplexity ∧
      (entered ctx parent node s).reports = s.reports ∧
      (s.enclosingFunctions.length = 0 →
        (entered ctx parent node s).topLevelHasStructuralComplexity = false ∧
        (entered ctx parent node s).reactFunctionalComponent = ⟨nameStartsWithCapital ctx parent node, false⟩ ∧
        (entered ctx parent node s).secondLevelFunctions = []) ∧
      (1 ≤ s.enclosingFunctions.length →
        (entered ctx parent node s).topLevelHasStructuralComplexity = s.topLevelHasStructuralComplexity ∧
        (entered ctx parent node s).reactFunctionalComponent = s.reactFunctionalComponent ∧
        (entered ctx parent node s).secondLevelFunctions = s.secondLevelFunctions) := by
  have hfound := onEnterFunction_found ctx parent node (enterAny node s)
  have hsame := enterAny_untouched node s
  rw [enterAny_enclosing, hsame.file, hsame.structural, hsame.component, hsame.secondLevel, hsame.reports] at hfound
  rw [entered, enterNode_of_isFunction hf]
  exact hfound

theorem site_of_isFunction (ctx : Context Loc) (parent : Option Node) (hf : node.isFunction = true) (level : ℤ) :
    (Site.mk parent node level).structural ctx = false ∧ (Site.mk parent node level).returnsJsx = false := by
  unfold Site.structural Site.returnsJsx increments
  cases htype : node.type <;> simp [Node.isFunction, htype] at hf ⊢

theorem leftReports_function (hf : node.isFunction = true) :
    leftReports ctx [(parent, node)] = if ctx.isFileComplexity then [] else refactorFunction ctx parent node := by
  simp [leftReports, hf]

theorem Ready.function_nesting (ctx : Context Loc) (h : Ready parent node s) (hd : s.enclosingFunctions.length ≤ 1) :
    (entered ctx parent node s).nesting = if isBranch parent node = true then s.nesting + 1 else s.nesting := by
  have hfalse : isNestedFunction node s = false := by
    simp only [isNestedFunction, Bool.and_eq_false_iff, decide_eq_false_iff_not]
    omega
  rw [h.entered_nesting, hfalse]
  split_ifs <;> simp_all

/-- A function that is left has its own points on the top of the stack. -/
theorem Ready.function_own (h : Ready parent node s) (hf : node.isFunction = true)
    (hadds : Adds (fun into bonus level => pointsOfAll ctx into bonus node node.children level)
      (entered ctx parent node s).toCounters (visited ctx parent node s).toCounters) :
    (exitAny node (visited ctx parent node s)).functionOwnComplexity.headD [] =
      pointsOfAll ctx false 0 node node.children 0 := by
  have henclosing : 1 ≤ (entered ctx parent node s).enclosingFunctions.length := by
    rw [h.entered_enclosing, if_pos hf]
    simp
  obtain ⟨hown, -, -, -⟩ := exitAny_points node (visited ctx parent node s)
  have hzero : (entered ctx parent node s).functionOwnControlFlowNesting.headD 0 = 0 := by
    rw [entered, enterNode_of_isFunction hf, (onEnterFunction_eq ctx parent node _).2.2.1]
    rfl
  rw [hown, hadds.own henclosing, (function_entered_points ctx parent hf s).1, hzero]
  simp [modifyTop]

theorem Ready.function_enclosing (h : Ready parent node s) (hf : node.isFunction = true)
    (hadds : Adds (fun into bonus level => pointsOfAll ctx into bonus node node.children level)
      (entered ctx parent node s).toCounters (visited ctx parent node s).toCounters) :
    (popped (exitAny node (visited ctx parent node s))).enclosingFunctions = s.enclosingFunctions := by
  show (exitAny node (visited ctx parent node s)).enclosingFunctions.tail = _
  rw [exitAny_enclosing, hadds.enclosing, h.entered_enclosing, if_pos hf, List.tail_cons]

/-- A top-level function is counted for the file. -/
theorem Ready.function_top (h : Ready parent node s) (hf : node.isFunction = true)
    (hd : s.enclosingFunctions.length = 0)
    (hadds : Adds (fun into bonus level => pointsOfAll ctx into bonus node node.children level)
      (entered ctx parent node s).toCounters (visited ctx parent node s).toCounters)
    (hfinds : Finds ctx (sitesAll node node.children) (leftNodesAll node node.children)
      (entered ctx parent node s) (visited ctx parent node s)) :
    (counted ctx parent node (exitAny node (visited ctx parent node s))).fileComplexity = s.fileComplexity +
      (Site.mk parent node
        (if isBranch parent node = true then s.nesting + 1 else s.nesting)).topLevelComplexity ctx := by
  have hone : (entered ctx parent node s).enclosingFunctions.length = 1 := by
    rw [h.entered_enclosing, if_pos hf, List.length_cons, hd]
  obtain ⟨hfile, -, hfound, -⟩ := function_entered_found ctx parent hf s
  obtain ⟨hstructural, hcomponent, hsecond⟩ := hfound hd
  have hleft := exitAny_untouched node (visited ctx parent node s)
  have htop : (exitAny node (visited ctx parent node s)).topLevelOwnComplexity =
      pointsOfAll ctx false 0 node node.children (entered ctx parent node s).nesting := by
    rw [(exitAny_points node _).2.1, hadds.top hone, (function_entered_points ctx parent hf s).2.1 hd, List.nil_append]
  have hflag : (exitAny node (visited ctx parent node s)).topLevelHasStructuralComplexity =
      (sitesAll node node.children (entered ctx parent node s).nesting).any (Site.structural ctx) := by
    rw [hleft.structural, hfinds.structural hone, hstructural, Bool.false_or]
  have hreact : (exitAny node (visited ctx parent node s)).reactFunctionalComponent =
      ⟨nameStartsWithCapital ctx parent node,
        (sitesAll node node.children (entered ctx parent node s).nesting).any Site.returnsJsx⟩ := by
    rw [hleft.component, hfinds.component hone, hcomponent, Bool.false_or]
  have hinner : (exitAny node (visited ctx parent node s)).secondLevelFunctions =
      (sitesAll node node.children (entered ctx parent node s).nesting).flatMap (Site.secondLevelFunctions ctx) := by
    rw [hleft.secondLevel, hfinds.secondLevel hone, hsecond, List.nil_append]
  rw [counted, h.function_enclosing hf hadds, hd]
  show (leaveTopLevelFunction (popped (exitAny node (visited ctx parent node s)))).fileComplexity = _
  rw [leaveTopLevelFunction_file]
  show (exitAny node (visited ctx parent node s)).fileComplexity + share (exitAny node (visited ctx parent node s)) = _
  rw [share, hleft.file, hfinds.fileKept (by omega), hfile, hflag, hreact, hinner, htop,
    h.function_nesting ctx (by omega)]
  rfl

/-- A function in a top-level one is kept for it. -/
theorem Ready.function_second (h : Ready parent node s) (hf : node.isFunction = true)
    (hd : s.enclosingFunctions.length = 1)
    (hadds : Adds (fun into bonus level => pointsOfAll ctx into bonus node node.children level)
      (entered ctx parent node s).toCounters (visited ctx parent node s).toCounters)
    (hfinds : Finds ctx (sitesAll node node.children) (leftNodesAll node node.children)
      (entered ctx parent node s) (visited ctx parent node s)) :
    (counted ctx parent node (exitAny node (visited ctx parent node s))).secondLevelFunctions =
      s.secondLevelFunctions ++ (Site.mk parent node
        (if isBranch parent node = true then s.nesting + 1 else s.nesting)).secondLevelFunctions ctx := by
  have htwo : (entered ctx parent node s).enclosingFunctions.length = 2 := by
    rw [h.entered_enclosing, if_pos hf, List.length_cons, hd]
  obtain ⟨-, -, -, hfound⟩ := function_entered_found ctx parent hf s
  obtain ⟨hnested, hnot⟩ := (function_entered_points ctx parent hf s).2.2.2.1 hd
  obtain ⟨-, -, hnested', hnot'⟩ := exitAny_points node (visited ctx parent node s)
  rw [hadds.nested (by omega), hnested, List.nil_append] at hnested'
  rw [hadds.notNested (by omega), hnot, List.nil_append] at hnot'
  rw [counted, h.function_enclosing hf hadds, hd]
  show (leaveSecondLevelFunction ctx parent node
    (popped (exitAny node (visited ctx parent node s)))).secondLevelFunctions = _
  simp only [leaveSecondLevelFunction, popped]
  rw [hnested', hnot', (exitAny_untouched node _).secondLevel, (hfinds.kept (by omega)).2.2, (hfound (by omega)).2.2,
    h.function_nesting ctx (by omega), Site.secondLevelFunctions, if_pos hf]

/-- The function that is left reports its own points, and counts for what is around it. -/
theorem Ready.function_finds (h : Ready parent node s) (hf : node.isFunction = true)
    (hadds : Adds (fun into bonus level => pointsOfAll ctx into bonus node node.children level)
      (entered ctx parent node s).toCounters (visited ctx parent node s).toCounters)
    (hfinds : Finds ctx (sitesAll node node.children) (leftNodesAll node node.children)
      (entered ctx parent node s) (visited ctx parent node s)) :
    Finds ctx (sites parent node) (leftNodes parent node) s (traverse ctx parent node s) := by
  obtain ⟨hcounters, hcomponent, hsecond, hreports⟩ :=
    onLeaveFunction_counted ctx parent node (exitAny node (visited ctx parent node s))
  have henclosing := h.function_enclosing hf hadds
  have hdeeper : 1 ≤ s.enclosingFunctions.length → 2 ≤ (entered ctx parent node s).enclosingFunctions.length := by
    rw [h.entered_enclosing, if_pos hf, List.length_cons]
    omega
  have hone : 1 ≤ (entered ctx parent node s).enclosingFunctions.length := by
    rw [h.entered_enclosing, if_pos hf, List.length_cons]
    omega
  have hleft := exitAny_untouched node (visited ctx parent node s)
  obtain ⟨hfile, hentered, -, hfound⟩ := function_entered_found ctx parent hf s
  obtain ⟨hstructuralSite, hjsxSite⟩ := site_of_isFunction ctx parent hf
    (if isBranch parent node = true then s.nesting + 1 else s.nesting)
  rw [← exitNode_of_isFunction hf, ← traverse_eq] at hcounters hcomponent hsecond hreports
  have hsites : sites parent node s.nesting =
      [⟨parent, node, if isBranch parent node = true then s.nesting + 1 else s.nesting⟩] := by
    rw [sites_eq, if_pos hf]
  obtain ⟨hflag', hreact', hreports', hfile', hsecond'⟩ :=
    counted_kept ctx parent node (exitAny node (visited ctx parent node s))
  rw [henclosing] at hfile' hsecond'
  have hkept : 1 ≤ s.enclosingFunctions.length →
      (traverse ctx parent node s).topLevelHasStructuralComplexity = s.topLevelHasStructuralComplexity ∧
        (traverse ctx parent node s).reactFunctionalComponent = s.reactFunctionalComponent := by
    intro hd
    obtain ⟨hflag, hreact, -⟩ := hfinds.kept (hdeeper hd)
    exact ⟨by rw [hcounters, hflag', hleft.structural, hflag, (hfound hd).1],
      by rw [hcomponent, hreact', hleft.component, hreact, (hfound hd).2.1]⟩
  constructor
  · intro hd
    rw [hcounters, h.function_top hf hd hadds hfinds, hsites, List.map_singleton, List.sum_singleton, Site.complexity,
      if_pos hf]
  · intro hd
    rw [hcounters, hfile' hd, hleft.file, hfinds.fileKept hone, hfile]
  · intro hd
    rw [(hkept hd.ge).1, hsites, List.any_cons, List.any_nil, hstructuralSite, Bool.or_false, Bool.or_false]
  · intro hd
    rw [(hkept hd.ge).2, hsites, List.any_cons, List.any_nil, hjsxSite, Bool.or_false, Bool.or_false]
  · intro hd
    rw [hsecond, h.function_second hf hd hadds hfinds, hsites, List.flatMap_singleton]
  · intro hd
    refine ⟨(hkept (by omega)).1, (hkept (by omega)).2, ?_⟩
    rw [hsecond, hsecond' hd, hleft.secondLevel, (hfinds.kept (hdeeper (by omega))).2.2, (hfound (by omega)).2.2]
  · rw [hreports, hreports', hleft.reports, hfinds.reports, hentered, leftNodes_eq, leftReports_append,
      leftReports_function hf, h.function_own hf hadds, List.append_assoc]
    rfl

/-! ### Runs -/

variable (ctx) in
mutual

theorem traverse_finds : ∀ (top : List Node) (node : Node) (s : State Loc), Ready top.head? node s →
    depth top = s.enclosingFunctions.length → FunctionsOutsideBranches top node →
    (∀ n ∈ leftNodes top.head? node, n.2.type ≠ .program) →
      Finds ctx (sites top.head? node) (leftNodes top.head? node) s (traverse ctx top.head? node s)
  | top, .mk data children, s, h, hdepth, hlocal, hprogram => by
    have hchildren := (nodup_ids_iff.mp h.nodup).2
    have hready : ∀ c ∈ children, Ready (some (.mk data children)) c (entered ctx top.head? (.mk data children) s) :=
      fun _ hc => h.children hc
    have hentered : depth (.mk data children :: top) =
        (entered ctx top.head? (.mk data children) s).enclosingFunctions.length := h.depth_cons_eq hdepth
    rw [leftNodes_eq] at hprogram
    have hfinds := traverseAll_finds top (.mk data children) children (entered ctx top.head? (.mk data children) s)
      hchildren hready hentered (fun _ hc => hlocal.child hc) fun n hn => hprogram n (List.mem_append_left _ hn)
    by_cases hf : (Node.mk data children).isFunction = true
    · exact h.function_finds hf (traverseAll_adds ctx top (.mk data children) children _ hchildren hready hentered
        fun _ hc => hlocal.child hc) hfinds
    · exact h.other_finds (by simpa using hf) (hprogram (top.head?, .mk data children) (by simp)) hfinds

theorem traverseAll_finds : ∀ (top : List Node) (parent : Node) (children : List Node) (s : State Loc),
    (idsOf children).Nodup → (∀ c ∈ children, Ready (some parent) c s) →
    depth (parent :: top) = s.enclosingFunctions.length →
    (∀ c ∈ children, FunctionsOutsideBranches (parent :: top) c) →
    (∀ n ∈ leftNodesAll parent children, n.2.type ≠ .program) →
      Finds ctx (sitesAll parent children) (leftNodesAll parent children) s (traverseAll ctx parent children s)
  | _, _, [], s, _, _, _, _, _ => .refl ctx s
  | top, parent, child :: children, s, hnodup, h, hdepth, hlocal, hprogram => by
    have hready := h child List.mem_cons_self
    have hkeeps := traverse_keeps ctx (some parent) child s hready
    have hadds := traverse_adds ctx (parent :: top) child s hready hdepth (hlocal child List.mem_cons_self)
    have hchild := traverse_finds (parent :: top) child s hready hdepth (hlocal child List.mem_cons_self)
      fun n hn => hprogram n (List.mem_append_left _ hn)
    have hrest := traverseAll_finds top parent children (traverse ctx (some parent) child s)
      (nodup_idsOf_cons.mp hnodup).2.1 (ready_siblings hnodup h hkeeps)
      (hdepth.trans (congrArg List.length hkeeps.enclosing).symm) (fun c hc => hlocal c (List.mem_cons_of_mem _ hc))
      fun n hn => hprogram n (List.mem_append_right _ hn)
    exact hchild.trans hrest hadds.nesting hkeeps.enclosing

end

end

/-- In a program whose nodes are distinct and where no function inside another is a branch, S3776 reports the functions
with more points than the threshold, in the order in which they are left, or the complexity of the file. -/
theorem reports_traverse (ctx : Context Loc) (program : Node) (hnodup : program.ids.Nodup)
    (hprogram : program.type = .program) (hinner : ∀ n ∈ leftNodesAll program program.children, n.2.type ≠ .program)
    (hlocal : FunctionsOutsideBranches [] program) :
    (traverse ctx none program create).reports = expectedReports ctx program := by
  have hready : Ready none program (create : State Loc) := ready_create hnodup
  have hf : program.isFunction = false := by simp [Node.isFunction, hprogram]
  have hentered : entered ctx none program create = create := by
    rw [entered, enterNode, hprogram]
    rfl
  have hfinds := traverseAll_finds ctx [] program program.children (entered ctx none program create)
    (nodup_ids_iff.mp hnodup).2 (fun c hc => hready.children hc) (by rw [hentered, depth_cons, hf]; rfl)
    (fun c hc => hlocal.child hc) hinner
  have hdepth : (entered ctx none program create).enclosingFunctions.length = 0 := by
    rw [hentered]
    rfl
  have hsites : sites none program 0 = ⟨none, program, 0⟩ :: sitesAll program program.children 0 := by
    rw [sites_eq, hf]
    rfl
  have hsite : (Site.mk none program 0).complexity ctx = 0 := by
    rw [Site.complexity, hf, increments, hprogram]
    rfl
  have hfile : (visited ctx none program create).fileComplexity =
      ((sites none program 0).map (Site.complexity ctx)).sum := by
    rw [visited, hfinds.file hdepth, hentered, hsites, List.map_cons, List.sum_cons, hsite]
    rfl
  have hleft := exitAny_untouched program (visited ctx none program create)
  have hreports : (exitAny program (visited ctx none program create)).reports =
      leftReports ctx (leftNodesAll program program.children) := by
    rw [hleft.reports, visited, hfinds.reports, hentered]
    rfl
  rw [traverse_eq, exitNode, hprogram, expectedReports]
  simp only
  split_ifs with hmetric
  · rw [hreports, hleft.file, hfile, leftReports, if_pos hmetric, List.nil_append]
  · rw [hreports, leftNodes_eq, leftReports_append, leftReports_other hf, List.append_nil]

def oneFunction : Node := nodeOf 0 .program (.other "") [nextFunction]

theorem reports_traverse_oneFunction :
    (traverse { counting with threshold := 0 } none oneFunction create).reports =
        [.refactorFunction 1 0 8 [(9, "+1")] 1] ∧
      (traverse { counting with isFileComplexity := true } none oneFunction create).reports = [.fileComplexity 0 1] :=
  ⟨reports_traverse { counting with threshold := 0 } oneFunction (by decide) rfl (by decide) (by decide),
    reports_traverse { counting with isFileComplexity := true } oneFunction (by decide) rfl (by decide) (by decide)⟩

end SonarJavascript.Rules.S3776
