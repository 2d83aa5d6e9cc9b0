import Mathlib.Data.List.Chain

/-!
# Gratuitous conditions (S2589)

The rule takes the identifiers of an `if` test for known in the branch, and reports the conditions that look at
them again. What it reports stands in a branch that knows the variable (`reported_justified`), and code in a
branch is inside the scope that the rule compares the writes with (`branchScope_suffix`).
-/

namespace SonarJavascript.Rules.GratuitousConditions

/-! ### Programs -/

structure ScopeNode where
  type : String
  index : ℕ
  deriving DecidableEq

/-- An identifier of a test is given by its index in the place of the test. -/
inductive Expression
  | Identifier (index : ℕ)
  | not (argument : Expression)
  | logical (operator : String) (left right : Expression)
  | other (type : String)
  deriving DecidableEq

structure IfStatement where
  key : ℕ
  test : Expression
  deriving DecidableEq

/-- A scope, or a statement that is the consequent or the alternate of an `if`, with the scope of its own. -/
inductive Site
  | scope (node : ScopeNode)
  | branch (parent : IfStatement) (consequent : Bool) (own : Option ScopeNode)
  deriving DecidableEq

/-- The sites around a node, the innermost first. A scope is the place that starts with it. -/
abbrev Place := List Site

structure Identifier where
  place : Place
  index : ℕ
  deriving DecidableEq

/-- The place of a variable is its scope. It is lexical when it has no value before its declaration. -/
structure Variable where
  place : Place
  name : String
  lexical : Bool
  deriving DecidableEq

structure Reference where
  identifier : Identifier
  source : Place
  resolved : Option Variable
  isWrite : Bool
  init : Bool

/-- What stands in the scope of a branch stands in the branch through its scope. -/
def Nested (child parent : Site) : Prop :=
  match parent with
  | .branch _ _ (some own) => child = .scope own
  | _ => True

def IsInner : Place → Prop
  | .branch _ _ (some _) :: _ => False
  | place => place.IsChain Nested

/-- Identifiers resolve to variables of scopes around them, in the same way for each of their references. -/
structure Program where
  references : List Reference
  inner : ∀ ref ∈ references, IsInner ref.identifier.place
  enclosed : ∀ ref ∈ references, ∀ x, ref.resolved = some x → x.place <:+ ref.identifier.place
  resolved_eq : ∀ ref ∈ references, ∀ ref' ∈ references, ref.identifier = ref'.identifier →
    ref.resolved = ref'.resolved

/-- The parent of an identifier, where the rule asks for it. -/
inductive Parent
  | logicalAnd (isRight : Bool) (insideLogical : Bool)
  | logicalOr (isLeft : Bool)
  | IfStatement
  | logicalNegation
  | other (type : String)

inductive Node
  | identifier (index : ℕ) (parent : Parent) (insideJSX : Bool)
  | branch (parent : IfStatement) (consequent : Bool) (own : Option ScopeNode) (children : List Node)
  | other (own : Option ScopeNode) (children : List Node)

/-! ### Scopes -/

def getScope : Place → Place
  | [] => []
  | .scope node :: rest => .scope node :: rest
  | .branch .. :: rest => getScope rest

def upper : Place → Option Place
  | [] => none
  | _ :: rest =>
    match getScope rest with
    | [] => none
    | scope => some scope

def getFunctionScope : Place → Option Place
  | [] => none
  | .scope node :: rest => if node.type = "function" then some (.scope node :: rest) else getFunctionScope rest
  | .branch .. :: rest => getFunctionScope rest

/-- The loop over the scopes from one outwards. -/
def isInside : Place → Place → Bool
  | [], _ => false
  | .scope node :: rest, currentScope => .scope node :: rest = currentScope ∨ isInside rest currentScope
  | .branch .. :: rest, currentScope => isInside rest currentScope

/-! ### The rule -/

/-- The identifiers known to be truthy, and those known to be falsy. -/
def checkExpr (known : List ℕ × List ℕ) : Expression → List ℕ × List ℕ
  | .Identifier index => (known.1 ++ [index], known.2)
  | .not (.Identifier index) => (known.1, known.2 ++ [index])
  | .not (.not (.Identifier index)) => (known.1 ++ [index], known.2)
  | _ => known

/-- The loop down the left operands, with the check after it. -/
def collectLoop (known : List ℕ × List ℕ) : Expression → List ℕ × List ℕ
  | .logical operator left right =>
    if operator = "&&" then collectLoop (checkExpr known right) left
    else checkExpr known (.logical operator left right)
  | current => checkExpr known current

def collectKnownIdentifiers (expression : Expression) : List ℕ × List ℕ :=
  collectLoop (checkExpr ([], []) expression) expression

section Rule

variable (program : Program)

def mightBeWritten (symbol : Variable) (currentScope : Place) : Bool :=
  (program.references.filter fun ref => ref.resolved = some symbol ∧ ref.isWrite).any fun ref =>
    isInside ref.source currentScope ∨ getFunctionScope ref.source ≠ getFunctionScope currentScope

def transformAndFilter (ids : List Identifier) (currentScope : Place) : List Reference :=
  ids.filterMap (fun id => program.references.find? fun ref =>
      some ref.source = upper currentScope ∧ ref.identifier = id)
    |>.filter (·.resolved.isSome)
    |>.filter fun ref =>
      match ref.resolved with
      | some symbol => !mightBeWritten program symbol currentScope
      | none => false

/-- The places of the code in a branch. -/
def branchPlace (place : Place) (parent : IfStatement) (consequent : Bool) (own : Option ScopeNode) : Place :=
  (own.map Site.scope).toList ++ .branch parent consequent own :: place

/-- What the branch of a statement in this place adds to `truthyMap` and to `falsyMap`. -/
def known (place : Place) (parent : IfStatement) (consequent : Bool) (own : Option ScopeNode) :
    List Reference × List Reference :=
  let currentScope := getScope (branchPlace place parent consequent own)
  if consequent then
    let (truthy, falsy) := collectKnownIdentifiers parent.test
    (transformAndFilter program (truthy.map (⟨place, ·⟩)) currentScope,
      transformAndFilter program (falsy.map (⟨place, ·⟩)) currentScope)
  else
    match parent.test with
    | .Identifier index => ([], transformAndFilter program [⟨place, index⟩] currentScope)
    | _ => ([], [])

/-- The maps from the branches, with their statements and sides, that have been entered and not left. -/
structure Maps where
  truthyMap : List ((IfStatement × Bool) × List Reference)
  falsyMap : List ((IfStatement × Bool) × List Reference)

def Maps.set (maps : Maps) (node : IfStatement × Bool) (known : List Reference × List Reference) : Maps :=
  ⟨maps.truthyMap ++ [(node, known.1)], maps.falsyMap ++ [(node, known.2)]⟩

def Maps.delete (maps : Maps) (node : IfStatement × Bool) : Maps :=
  ⟨maps.truthyMap.filter (·.1 ≠ node), maps.falsyMap.filter (·.1 ≠ node)⟩

structure Report where
  id : Identifier
  ref : Reference
  truthy : Bool

def getSymbol (id : Identifier) (scope : Place) : Option Variable :=
  (program.references.find? fun ref => ref.source = scope ∧ ref.identifier = id).bind (·.resolved)

def Parent.isLogicalAndRhs : Parent → Bool
  | .logicalAnd isRight insideLogical => isRight ∧ !insideLogical
  | _ => false

def Parent.isCondition : Parent → Bool
  | .logicalAnd .. => true
  | .logicalOr isLeft => isLeft
  | .IfStatement => true
  | .logicalNegation => true
  | .other _ => false

def checkIfKnownAndReport (id : Identifier) (symbol : Variable)
    (map : List ((IfStatement × Bool) × List Reference)) (truthy : Bool) : List Report :=
  map.filterMap fun entry => (entry.2.find? (·.resolved = some symbol)).map (⟨id, ·, truthy⟩)

def visitIdentifier (maps : Maps) (id : Identifier) (parent : Parent) (insideJSX : Bool) : List Report :=
  match getSymbol program id (getScope id.place) with
  | none => []
  | some symbol =>
    if insideJSX ∧ parent.isLogicalAndRhs then []
    else if !parent.isCondition then []
    else checkIfKnownAndReport id symbol maps.truthyMap true ++ checkIfKnownAndReport id symbol maps.falsyMap false

mutual

def visit (place : Place) (maps : Maps) : Node → Maps × List Report
  | .identifier index parent insideJSX => (maps, visitIdentifier program maps ⟨place, index⟩ parent insideJSX)
  | .branch parent consequent own children =>
    let entered := maps.set (parent, consequent) (known program place parent consequent own)
    let (after, reports) := visitAll (branchPlace place parent consequent own) entered children
    (after.delete (parent, consequent), reports)
  | .other own children => visitAll ((own.map Site.scope).toList ++ place) maps children

def visitAll (place : Place) (maps : Maps) : List Node → Maps × List Report
  | [] => (maps, [])
  | node :: rest =>
    let (after, reports) := visit place maps node
    let (last, more) := visitAll place after rest
    (last, reports ++ more)

end

/-- The reports on identifiers in a file. -/
def reported (root : Node) : List Report :=
  (visit program [] ⟨[], []⟩ root).2

end Rule

/-! ### Scopes around code -/

section Scopes

variable {place : Place}

theorem getScope_suffix (place : Place) : getScope place <:+ place := by
  induction place with
  | nil => exact List.suffix_rfl
  | cons site rest ih =>
    cases site with
    | scope node => exact List.suffix_rfl
    | branch => exact ih.trans (List.suffix_cons _ _)

theorem getScope_cons_branch_ne {parent : IfStatement} {consequent : Bool} {own : Option ScopeNode} :
    getScope (.branch parent consequent own :: place) ≠ .branch parent consequent own :: place := by
  intro heq
  have hlength := (getScope_suffix place).length_le
  rw [getScope] at heq
  rw [heq, List.length_cons] at hlength
  omega

theorem getScope_getScope (place : Place) : getScope (getScope place) = getScope place := by
  induction place with
  | nil => rfl
  | cons site rest ih =>
    cases site with
    | scope node => rfl
    | branch => exact ih

theorem isInside_getScope (place currentScope : Place) :
    isInside (getScope place) currentScope = isInside place currentScope := by
  induction place with
  | nil => rfl
  | cons site rest ih =>
    cases site with
    | scope node => rfl
    | branch => exact ih

theorem isInside_of_suffix {currentScope : Place} (hscope : getScope currentScope = currentScope)
    (hne : currentScope ≠ []) (h : currentScope <:+ place) : isInside place currentScope = true := by
  induction place with
  | nil => exact absurd (List.suffix_nil.mp h) hne
  | cons site rest ih =>
    rcases List.suffix_cons_iff.mp h with heq | hsuffix
    · cases site with
      | scope node => simp [isInside, heq]
      | branch =>
        rw [heq] at hscope
        exact absurd hscope getScope_cons_branch_ne
    · cases site with
      | scope node => simp [isInside, ih hsuffix]
      | branch => exact ih hsuffix

theorem branchScope_suffix {outer : Place} {parent : IfStatement} {consequent : Bool} {own : Option ScopeNode}
    (hinner : IsInner place) (h : .branch parent consequent own :: outer <:+ place) :
    getScope (branchPlace outer parent consequent own) <:+ place := by
  cases own with
  | none => exact ((getScope_suffix _).trans (List.suffix_cons _ outer)).trans h
  | some node =>
    obtain ⟨inside, rfl⟩ := h
    rcases List.eq_nil_or_concat inside with rfl | ⟨before, site, rfl⟩
    · exact absurd hinner (by simp [IsInner])
    · have hchain : (before ++ site :: .branch parent consequent (some node) :: outer).IsChain Nested := by
        unfold IsInner at hinner
        split at hinner
        · exact hinner.elim
        · simpa using hinner
      have hnested : Nested site (.branch parent consequent (some node)) :=
        (List.isChain_cons_cons.mp (hchain.suffix (List.suffix_append _ _))).1
      obtain rfl : site = .scope node := hnested
      exact ⟨before, by simp [branchPlace, getScope]⟩

end Scopes

/-! ### What is reported -/

/-- An identifier of the test known in the branch, its truth and its variable. -/
def Knows (program : Program) (place : Place) (parent : IfStatement) (consequent : Bool) (own : Option ScopeNode) (index : ℕ)
    (truth : Bool) (x : Variable) : Prop :=
  ∃ ref ∈ (if truth then (known program place parent consequent own).1
      else (known program place parent consequent own).2),
    ref.identifier = ⟨place, index⟩ ∧ ref.resolved = some x

section Reported

variable {program : Program} {place : Place} {maps : Maps}

theorem mem_transformAndFilter {ids : List Identifier} {currentScope : Place} {ref : Reference}
    (h : ref ∈ transformAndFilter program ids currentScope) :
    ref ∈ program.references ∧ ref.identifier ∈ ids ∧ some ref.source = upper currentScope ∧
      ∃ symbol, ref.resolved = some symbol ∧ mightBeWritten program symbol currentScope = false := by
  obtain ⟨h, hfilter⟩ := List.mem_filter.mp h
  obtain ⟨h, -⟩ := List.mem_filter.mp h
  obtain ⟨id, hid, hfind⟩ := List.mem_filterMap.mp h
  have hspec := List.find?_some hfind
  rw [decide_eq_true_eq] at hspec
  refine ⟨List.mem_of_find?_eq_some hfind, hspec.2 ▸ hid, hspec.1, ?_⟩
  split at hfilter
  · next symbol hresolved => exact ⟨symbol, hresolved, by simpa using hfilter⟩
  · cases hfilter

theorem knows_of_mem {parent : IfStatement} {consequent truth : Bool} {own : Option ScopeNode} {ref : Reference}
    {x : Variable} (hmem : ref ∈ (if truth then (known program place parent consequent own).1
      else (known program place parent consequent own).2)) (hresolved : ref.resolved = some x) :
    ∃ index, Knows program place parent consequent own index truth x := by
  have hfiltered : ∀ (ids : List ℕ) currentScope,
      ref ∈ transformAndFilter program (ids.map (⟨place, ·⟩)) currentScope →
      ∃ index, ref.identifier = ⟨place, index⟩ := by
    intro ids currentScope hids
    obtain ⟨index, -, heq⟩ := List.mem_map.mp (mem_transformAndFilter hids).2.1
    exact ⟨index, heq.symm⟩
  have hidentifier : ∃ index, ref.identifier = ⟨place, index⟩ := by
    unfold known at hmem
    cases consequent with
    | true => cases truth <;> exact hfiltered _ _ hmem
    | false =>
      cases htest : parent.test with
      | Identifier i =>
        rw [htest] at hmem
        cases truth with
        | true => simp at hmem
        | false => exact hfiltered [i] _ hmem
      | not | logical | other =>
        rw [htest] at hmem
        cases truth <;> simp at hmem
  obtain ⟨index, hindex⟩ := hidentifier
  exact ⟨index, ref, hmem, hindex, hresolved⟩

/-- The entries of the maps are those of branches around the place. -/
structure MapsOf (program : Program) (place : Place) (maps : Maps) : Prop where
  truthy : ∀ entry ∈ maps.truthyMap, ∃ outer parent consequent own,
    .branch parent consequent own :: outer <:+ place ∧ entry.2 = (known program outer parent consequent own).1
  falsy : ∀ entry ∈ maps.falsyMap, ∃ outer parent consequent own,
    .branch parent consequent own :: outer <:+ place ∧ entry.2 = (known program outer parent consequent own).2

/-- The identifier stands in a branch that knows its variable. -/
def Justified (program : Program) (report : Report) : Prop :=
  ∃ outer parent consequent own index x, .branch parent consequent own :: outer <:+ report.id.place ∧
    Knows program outer parent consequent own index report.truthy x ∧
    getSymbol program report.id (getScope report.id.place) = some x

theorem checkIfKnownAndReport_justified {id : Identifier} {symbol : Variable}
    {map : List ((IfStatement × Bool) × List Reference)} {truth : Bool} {report : Report}
    (hsymbol : getSymbol program id (getScope id.place) = some symbol)
    (hmap : ∀ entry ∈ map, ∃ outer parent consequent own, .branch parent consequent own :: outer <:+ id.place ∧
      entry.2 = if truth then (known program outer parent consequent own).1
        else (known program outer parent consequent own).2)
    (hmem : report ∈ checkIfKnownAndReport id symbol map truth) : Justified program report := by
  obtain ⟨entry, hentry, hreport⟩ := List.mem_filterMap.mp hmem
  obtain ⟨ref, hfind, rfl⟩ := Option.map_eq_some_iff.mp hreport
  obtain ⟨outer, parent, consequent, own, hsuffix, hknown⟩ := hmap entry hentry
  have hresolved : ref.resolved = some symbol := by simpa using List.find?_some hfind
  obtain ⟨index, hknows⟩ := knows_of_mem (hknown ▸ List.mem_of_find?_eq_some hfind) hresolved
  exact ⟨outer, parent, consequent, own, index, symbol, hsuffix, hknows, hsymbol⟩

theorem visitIdentifier_justified {id : Identifier} {parent : Parent} {insideJSX : Bool} {report : Report}
    (hmaps : MapsOf program id.place maps) (hmem : report ∈ visitIdentifier program maps id parent insideJSX) :
    Justified program report := by
  unfold visitIdentifier at hmem
  split at hmem
  · cases hmem
  · next symbol hsymbol =>
    split_ifs at hmem
    · cases hmem
    · cases hmem
    · rcases List.mem_append.mp hmem with hmem | hmem
      · exact checkIfKnownAndReport_justified hsymbol hmaps.truthy hmem
      · exact checkIfKnownAndReport_justified hsymbol hmaps.falsy hmem

/-- Entering a branch adds its entries. -/
theorem mapsOf_set {parent : IfStatement} {consequent : Bool} {own : Option ScopeNode}
    (hmaps : MapsOf program place maps) :
    MapsOf program (branchPlace place parent consequent own)
      (maps.set (parent, consequent) (known program place parent consequent own)) := by
  have hbranch : .branch parent consequent own :: place <:+ branchPlace place parent consequent own :=
    List.suffix_append _ _
  have hplace : place <:+ branchPlace place parent consequent own := (List.suffix_cons _ _).trans hbranch
  constructor
  · intro entry hentry
    rcases List.mem_append.mp hentry with hentry | hentry
    · obtain ⟨outer, parent, consequent, own, hsuffix, hknown⟩ := hmaps.truthy entry hentry
      exact ⟨outer, parent, consequent, own, hsuffix.trans hplace, hknown⟩
    · obtain rfl := List.mem_singleton.mp hentry
      exact ⟨place, parent, consequent, own, hbranch, rfl⟩
  · intro entry hentry
    rcases List.mem_append.mp hentry with hentry | hentry
    · obtain ⟨outer, parent, consequent, own, hsuffix, hknown⟩ := hmaps.falsy entry hentry
      exact ⟨outer, parent, consequent, own, hsuffix.trans hplace, hknown⟩
    · obtain rfl := List.mem_singleton.mp hentry
      exact ⟨place, parent, consequent, own, hbranch, rfl⟩

theorem mapsOf_mono {after : Maps} {inner : Place} (hmaps : MapsOf program place maps) (hplace : place <:+ inner)
    (htruthy : after.truthyMap ⊆ maps.truthyMap) (hfalsy : after.falsyMap ⊆ maps.falsyMap) :
    MapsOf program inner after := by
  constructor
  · intro entry hentry
    obtain ⟨outer, parent, consequent, own, hsuffix, hknown⟩ := hmaps.truthy entry (htruthy hentry)
    exact ⟨outer, parent, consequent, own, hsuffix.trans hplace, hknown⟩
  · intro entry hentry
    obtain ⟨outer, parent, consequent, own, hsuffix, hknown⟩ := hmaps.falsy entry (hfalsy hentry)
    exact ⟨outer, parent, consequent, own, hsuffix.trans hplace, hknown⟩

/-- The entries of a branch are deleted when it is left. -/
theorem delete_set_subset {after : Maps} {node : IfStatement × Bool} {refs : List Reference × List Reference}
    (htruthy : after.truthyMap ⊆ (maps.set node refs).truthyMap)
    (hfalsy : after.falsyMap ⊆ (maps.set node refs).falsyMap) :
    (after.delete node).truthyMap ⊆ maps.truthyMap ∧ (after.delete node).falsyMap ⊆ maps.falsyMap := by
  constructor
  · intro entry hentry
    obtain ⟨hafter, hne⟩ := List.mem_filter.mp hentry
    rcases List.mem_append.mp (htruthy hafter) with hmem | hmem
    · exact hmem
    · rw [List.mem_singleton.mp hmem] at hne
      simp at hne
  · intro entry hentry
    obtain ⟨hafter, hne⟩ := List.mem_filter.mp hentry
    rcases List.mem_append.mp (hfalsy hafter) with hmem | hmem
    · exact hmem
    · rw [List.mem_singleton.mp hmem] at hne
      simp at hne

mutual

theorem visit_spec (place : Place) (maps : Maps) (node : Node) (hmaps : MapsOf program place maps) :
    ((visit program place maps node).1.truthyMap ⊆ maps.truthyMap ∧
      (visit program place maps node).1.falsyMap ⊆ maps.falsyMap) ∧
      ∀ report ∈ (visit program place maps node).2, Justified program report := by
  match node with
  | .identifier index parent insideJSX =>
    rw [visit]
    exact ⟨⟨fun _ h => h, fun _ h => h⟩, fun report hmem => visitIdentifier_justified hmaps hmem⟩
  | .branch parent consequent own children =>
    rw [visit]
    obtain ⟨⟨htruthy, hfalsy⟩, hreports⟩ := visitAll_spec _ _ children (mapsOf_set hmaps)
    exact ⟨delete_set_subset htruthy hfalsy, hreports⟩
  | .other own children =>
    rw [visit]
    exact visitAll_spec _ _ children
      (mapsOf_mono hmaps (List.suffix_append _ _) (fun _ h => h) (fun _ h => h))

theorem visitAll_spec (place : Place) (maps : Maps) (nodes : List Node) (hmaps : MapsOf program place maps) :
    ((visitAll program place maps nodes).1.truthyMap ⊆ maps.truthyMap ∧
      (visitAll program place maps nodes).1.falsyMap ⊆ maps.falsyMap) ∧
      ∀ report ∈ (visitAll program place maps nodes).2, Justified program report := by
  match nodes with
  | [] =>
    rw [visitAll]
    exact ⟨⟨fun _ h => h, fun _ h => h⟩, by simp⟩
  | node :: rest =>
    rw [visitAll]
    obtain ⟨⟨htruthy, hfalsy⟩, hreports⟩ := visit_spec place maps node hmaps
    obtain ⟨⟨htruthy', hfalsy'⟩, hmore⟩ :=
      visitAll_spec place _ rest (mapsOf_mono hmaps List.suffix_rfl htruthy hfalsy)
    refine ⟨⟨List.Subset.trans htruthy' htruthy, List.Subset.trans hfalsy' hfalsy⟩, fun report hmem => ?_⟩
    rcases List.mem_append.mp hmem with hmem | hmem
    · exact hreports report hmem
    · exact hmore report hmem

end

theorem reported_justified {root : Node} {report : Report} (h : report ∈ reported program root) :
    Justified program report :=
  (visit_spec [] ⟨[], []⟩ root ⟨by simp, by simp⟩).2 report h

end Reported

end SonarJavascript.Rules.GratuitousConditions
