import Mathlib.Data.Finset.Basic
import Mathlib.Logic.Function.Iterate

/-!
# Contexts of the rule against reassigned parameters

The rule S1226 keeps a chain of contexts. A function, a for-each loop and a catch clause each have one of
their own: it is pushed at an event of the code path, and popped when the node is left.

`balanced_iff`: the context that is current after each construct of a program is the one that was current
before it, if and only if every for-each loop has a block as its body that ESLint reaches with one looped
segment, and every catch clause starts one segment.
-/

namespace SonarJavascript.Rules.NoParameterReassignment

inductive ContextType
  | catch
  | function
  | foreach
  | global
  deriving DecidableEq

/-- `writeExpr` has the values of its tokens; an identifier is named by its place in the file. -/
structure Reference where
  identifier : ℕ
  init : Bool
  isWriteOnly : Bool
  writeExpr : Option (List String)

structure Variable where
  name : String
  references : List Reference

/-- `id` tells the objects apart. -/
structure ReassignmentContext where
  id : ℕ
  type : ContextType
  variablesToCheckInCurrentScope : Finset String
  variablesToCheck : Finset String
  variablesRead : Finset String
  referencesByIdentifier : ℕ → Option Reference

/-- The current context, its parent, the parent of that one and so on; `created` counts the objects. -/
structure State where
  variableUsageContext : ReassignmentContext
  parentContexts : List ReassignmentContext
  created : ℕ
  issues : List Reference

/-- `contextTypes` are those of the selectors that match the identifier. -/
structure Identifier where
  node : ℕ
  name : String
  contextTypes : List ContextType
  isInsideIfStatement : Bool
  isInsideSwitchCase : Bool

/-- The node of a code path: the program, a function, the value of a class field or a static block. -/
structure CodePathNode where
  scopeIsFunction : Bool
  declaredVariables : List Variable
  functionName : Option String

/-- A for-in or for-of statement; the event is emitted once for each looped segment in reach. -/
structure ForEach where
  bodyIsBlock : Bool
  loopedSegments : ℕ
  declaredVariables : List Variable
  bodyReferences : List Reference
  leftNames : List String

structure CatchClause where
  startedSegments : ℕ
  declaredVariables : List Variable

/-- What the rule listens to in a part of the program, in the order of its nodes. -/
inductive Code
  | done
  | identifier (node : Identifier) (next : Code)
  | codePath (node : CodePathNode) (inside next : Code)
  | forEach (loop : ForEach) (header body next : Code)
  | catchClause (clause : CatchClause) (inside next : Code)

/-! ### The listeners -/

def setReferences (references : List Reference) (byIdentifier : ℕ → Option Reference) : ℕ → Option Reference :=
  references.foldl (fun map ref => Function.update map ref.identifier (some ref)) byIdentifier

def names (declared : List Variable) : Finset String := (declared.map (·.name)).toFinset

/-- A new context with the current one as its parent. -/
def State.push (state : State) (type : ContextType) (variablesToCheckInCurrentScope variablesToCheck : Finset String)
    (variablesRead : Finset String) (referencesByIdentifier : ℕ → Option Reference) : State :=
  { state with
    variableUsageContext := ⟨state.created, type, variablesToCheckInCurrentScope, variablesToCheck, variablesRead,
      referencesByIdentifier⟩
    parentContexts := state.variableUsageContext :: state.parentContexts
    created := state.created + 1 }

/-- `computeNewContextInfo`, without what the listeners add to it. -/
def referencesOf (declared : List Variable) : ℕ → Option Reference :=
  setReferences (declared.flatMap (·.references)) fun _ => none

def onCodePathStart (node : CodePathNode) (state : State) : State :=
  let current := state.variableUsageContext
  if node.scopeIsFunction then
    let inScope := names node.declaredVariables
    let toCheck := current.variablesToCheck ∪ inScope
    state.push .function inScope (match node.functionName with | none => toCheck | some name => toCheck.erase name)
      (current.variablesRead \ inScope) (referencesOf node.declaredVariables)
  else state.push .global ∅ ∅ ∅ fun _ => none

/-- `isForEachLoopStart` asks for a block. -/
def onCodePathSegmentLoop (loop : ForEach) (state : State) : State :=
  if loop.bodyIsBlock then
    let current := state.variableUsageContext
    let inScope := names loop.declaredVariables ∪ loop.leftNames.toFinset
    state.push .foreach inScope (current.variablesToCheck ∪ inScope) (current.variablesRead \ inScope)
      (setReferences loop.bodyReferences (referencesOf loop.declaredVariables))
  else state

def onCodePathSegmentStart (clause : CatchClause) (state : State) : State :=
  let current := state.variableUsageContext
  let inScope := names clause.declaredVariables
  state.push .catch inScope (current.variablesToCheck ∪ inScope) (current.variablesRead \ inScope)
    (referencesOf clause.declaredVariables)

/-- A context without a parent stays. -/
def popContext (state : State) : State :=
  match state.parentContexts with
  | [] => state
  | parent :: rest => { state with variableUsageContext := parent, parentContexts := rest }

def getReference (state : State) (identifier : ℕ) : Option Reference :=
  (state.variableUsageContext :: state.parentContexts).findSome? (·.referencesByIdentifier identifier)

/-- Up to the context whose scope has the variable. -/
def markAsRead (name : String) : List ReassignmentContext → List ReassignmentContext
  | [] => []
  | context :: parents =>
    { context with variablesRead := insert name context.variablesRead } ::
      if name ∈ context.variablesToCheckInCurrentScope then parents else markAsRead name parents

/-- In the first context of a function. -/
def markAllFunctionArgumentsAsRead : List ReassignmentContext → List ReassignmentContext
  | [] => []
  | context :: parents =>
    if context.type = .function then
      { context with variablesRead := context.variablesRead ∪ context.variablesToCheckInCurrentScope } :: parents
    else context :: markAllFunctionArgumentsAsRead parents

/-- What is done to the chain of contexts. -/
def State.modify (state : State) (f : List ReassignmentContext → List ReassignmentContext) : State :=
  match f (state.variableUsageContext :: state.parentContexts) with
  | [] => state
  | current :: parents => { state with variableUsageContext := current, parentContexts := parents }

def isUsedInWriteExpression (variableName : String) (ref : Reference) : Bool :=
  ref.writeExpr.any (·.any fun token => token = variableName || token = "arguments")

def checkIdentifierUsage (identifier : Identifier) (state : State) (identifierContextType : ContextType) : State :=
  if state.variableUsageContext.type ≠ identifierContextType then state
  else
    let current := state.variableUsageContext
    match (getReference state identifier.node).filter fun ref =>
      !ref.init && identifier.name ∉ current.variablesRead with
    | some ref =>
      if identifier.name ∈ current.variablesToCheck && ref.isWriteOnly &&
          !isUsedInWriteExpression identifier.name ref then
        if identifier.isInsideIfStatement || identifier.isInsideSwitchCase then state
        else { state with issues := state.issues ++ [ref] }.modify (markAsRead identifier.name)
      else state.modify (markAsRead identifier.name)
    | none =>
      if identifier.name = "arguments" then state.modify markAllFunctionArgumentsAsRead else state

def onIdentifier (identifier : Identifier) (state : State) : State :=
  identifier.contextTypes.foldl (checkIdentifierUsage identifier) state

def traverse : Code → State → State
  | .done, state => state
  | .identifier node next, state => traverse next (onIdentifier node state)
  | .codePath node inside next, state =>
    traverse next (popContext (traverse inside (onCodePathStart node state)))
  | .forEach loop header body next, state =>
    let entered := (onCodePathSegmentLoop loop)^[loop.loopedSegments] (traverse header state)
    traverse next (popContext (traverse body entered))
  | .catchClause clause inside next, state =>
    let entered := (onCodePathSegmentStart clause)^[clause.startedSegments] state
    traverse next (popContext (traverse inside entered))

/-- `create` -/
def initialState : State :=
  ⟨⟨0, .global, ∅, ∅, ∅, fun _ => none⟩, [], 1, []⟩

/-! ### What is asked of a program -/

/-- The context after the exit is the one before the entry. -/
def Restores (entry exit : State) : Prop :=
  exit.variableUsageContext.id = entry.variableUsageContext.id

instance (entry exit : State) : Decidable (Restores entry exit) := inferInstanceAs (Decidable (_ = _))

/-- Every construct restores the context, when the rule gets to the code in this state. -/
def Balanced : Code → State → Prop
  | .done, _ => True
  | .identifier node next, state => Balanced next (onIdentifier node state)
  | .codePath node inside next, state =>
    let entered := onCodePathStart node state
    let exited := popContext (traverse inside entered)
    Restores state exited ∧ Balanced inside entered ∧ Balanced next exited
  | .forEach loop header body next, state =>
    let entered := (onCodePathSegmentLoop loop)^[loop.loopedSegments] (traverse header state)
    let exited := popContext (traverse body entered)
    Restores state exited ∧ Balanced header state ∧ Balanced body entered ∧ Balanced next exited
  | .catchClause clause inside next, state =>
    let entered := (onCodePathSegmentStart clause)^[clause.startedSegments] state
    let exited := popContext (traverse inside entered)
    Restores state exited ∧ Balanced inside entered ∧ Balanced next exited

/-- Each construct has one context. -/
def PushesOnce : Code → Prop
  | .done => True
  | .identifier _ next => PushesOnce next
  | .codePath _ inside next => PushesOnce inside ∧ PushesOnce next
  | .forEach loop header body next =>
    (loop.bodyIsBlock = true ∧ loop.loopedSegments = 1) ∧ PushesOnce header ∧ PushesOnce body ∧ PushesOnce next
  | .catchClause clause inside next => clause.startedSegments = 1 ∧ PushesOnce inside ∧ PushesOnce next

/-! ### The chain of contexts -/

/-- The contexts from the current one on. -/
def State.ids (state : State) : List ℕ :=
  state.variableUsageContext.id :: state.parentContexts.map (·.id)

/-- The contexts of the chain are different ones. -/
structure Inv (state : State) : Prop where
  nodup : state.ids.Nodup
  lt : ∀ i ∈ state.ids, i < state.created

variable {state : State}

theorem ids_push (type : ContextType) (inScope toCheck read : Finset String) (refs : ℕ → Option Reference) :
    (state.push type inScope toCheck read refs).ids = state.created :: state.ids := rfl

theorem Inv.push (h : Inv state) (type : ContextType) (inScope toCheck read : Finset String)
    (refs : ℕ → Option Reference) : Inv (state.push type inScope toCheck read refs) where
  nodup := List.nodup_cons.mpr ⟨fun hmem => (h.lt _ hmem).ne rfl, h.nodup⟩
  lt i hi := by
    obtain rfl | hi := List.mem_cons.mp hi
    · exact Nat.lt_succ_self _
    · exact (h.lt i hi).trans (Nat.lt_succ_self _)

theorem ids_popContext (state : State) :
    (popContext state).ids = if state.parentContexts = [] then state.ids else state.ids.tail := by
  unfold popContext
  cases hparents : state.parentContexts with
  | nil => simp
  | cons parent rest => simp [State.ids, hparents]

theorem Inv.popContext (h : Inv state) : Inv (popContext state) := by
  have hids := ids_popContext state
  have hcreated : (NoParameterReassignment.popContext state).created = state.created := by
    unfold NoParameterReassignment.popContext
    cases state.parentContexts <;> rfl
  split_ifs at hids
  · exact ⟨hids ▸ h.nodup, hids ▸ hcreated ▸ h.lt⟩
  · exact ⟨hids ▸ h.nodup.tail, fun i hi => hcreated ▸ h.lt i (List.mem_of_mem_tail (hids ▸ hi))⟩

theorem map_id_markAsRead (name : String) (contexts : List ReassignmentContext) :
    (markAsRead name contexts).map (·.id) = contexts.map (·.id) := by
  induction contexts with
  | nil => rfl
  | cons context parents ih =>
    unfold markAsRead
    split_ifs
    · rfl
    · rw [List.map_cons, List.map_cons, ih]

theorem map_id_markAllFunctionArgumentsAsRead (contexts : List ReassignmentContext) :
    (markAllFunctionArgumentsAsRead contexts).map (·.id) = contexts.map (·.id) := by
  induction contexts with
  | nil => rfl
  | cons context parents ih =>
    unfold markAllFunctionArgumentsAsRead
    split_ifs
    · rfl
    · rw [List.map_cons, List.map_cons, ih]

/-- The contexts that are there stay, whatever is written into them. -/
def SameChain (state next : State) : Prop :=
  next.ids = state.ids ∧ next.created = state.created

theorem sameChain_modify {f : List ReassignmentContext → List ReassignmentContext}
    (hf : ∀ contexts, (f contexts).map (·.id) = contexts.map (·.id)) (state : State) :
    SameChain state (state.modify f) := by
  have hids := hf (state.variableUsageContext :: state.parentContexts)
  unfold State.modify
  cases hchain : f (state.variableUsageContext :: state.parentContexts) with
  | nil => simp [hchain] at hids
  | cons current parents => exact ⟨by rwa [hchain] at hids, rfl⟩

theorem sameChain_checkIdentifierUsage (identifier : Identifier) (state : State) (type : ContextType) :
    SameChain state (checkIdentifierUsage identifier state type) := by
  unfold checkIdentifierUsage
  by_cases htype : state.variableUsageContext.type ≠ type
  · rw [if_pos htype]
    exact ⟨rfl, rfl⟩
  · rw [if_neg htype]
    dsimp only
    split
    · split_ifs
      · exact ⟨rfl, rfl⟩
      · exact sameChain_modify (map_id_markAsRead identifier.name) { state with issues := state.issues ++ [_] }
      · exact sameChain_modify (map_id_markAsRead identifier.name) state
    · split_ifs
      · exact sameChain_modify map_id_markAllFunctionArgumentsAsRead state
      · exact ⟨rfl, rfl⟩

theorem sameChain_onIdentifier (identifier : Identifier) (state : State) :
    SameChain state (onIdentifier identifier state) := by
  unfold onIdentifier
  induction identifier.contextTypes generalizing state with
  | nil => exact ⟨rfl, rfl⟩
  | cons type types ih =>
    have hfirst := sameChain_checkIdentifierUsage identifier state type
    have hrest := ih (checkIdentifierUsage identifier state type)
    exact ⟨hrest.1.trans hfirst.1, hrest.2.trans hfirst.2⟩

theorem Inv.of_sameChain {next : State} (h : Inv state) (hsame : SameChain state next) : Inv next :=
  ⟨hsame.1 ▸ h.nodup, hsame.1 ▸ hsame.2 ▸ h.lt⟩

/-! ### Constructs -/

/-- New contexts on top of the chain, so many. -/
structure Entered (state : State) (n : ℕ) (entered : State) : Prop where
  inv : Inv entered
  exists_ids : ∃ fresh, fresh.length = n ∧ entered.ids = fresh ++ state.ids

theorem Entered.refl (h : Inv state) : Entered state 0 state := ⟨h, [], rfl, rfl⟩

theorem Entered.push {n : ℕ} {entered : State} (h : Entered state n entered) (type : ContextType)
    (inScope toCheck read : Finset String) (refs : ℕ → Option Reference) :
    Entered state (n + 1) (entered.push type inScope toCheck read refs) := by
  obtain ⟨fresh, hlength, hids⟩ := h.exists_ids
  exact ⟨h.inv.push .., entered.created :: fresh, by rw [List.length_cons, hlength], by rw [ids_push, hids]; rfl⟩

theorem entered_onCodePathStart (h : Inv state) (node : CodePathNode) :
    Entered state 1 (onCodePathStart node state) := by
  unfold onCodePathStart
  dsimp only
  split_ifs <;> exact (Entered.refl h).push ..

theorem entered_loops (h : Inv state) (loop : ForEach) (n : ℕ) :
    Entered state (if loop.bodyIsBlock then n else 0) ((onCodePathSegmentLoop loop)^[n] state) := by
  induction n with
  | zero => simpa using Entered.refl h
  | succ n ih =>
    rw [Function.iterate_succ_apply', onCodePathSegmentLoop]
    split_ifs at ih ⊢
    · exact ih.push ..
    · exact ih

theorem entered_catch (h : Inv state) (clause : CatchClause) (n : ℕ) :
    Entered state n ((onCodePathSegmentStart clause)^[n] state) := by
  induction n with
  | zero => exact Entered.refl h
  | succ n ih =>
    rw [Function.iterate_succ_apply', onCodePathSegmentStart]
    exact ih.push ..

theorem parentContexts_ne_nil_iff : state.parentContexts ≠ [] ↔ 2 ≤ state.ids.length := by
  rw [← List.length_pos_iff, State.ids, List.length_cons, List.length_map]
  omega

theorem Entered.restores_iff {n : ℕ} {entered last : State} (h : Entered state n entered)
    (hparents : state.parentContexts ≠ []) (hlast : last.ids = entered.ids) :
    Restores state (popContext last) ↔ n = 1 := by
  obtain ⟨fresh, rfl, hids⟩ := h.exists_ids
  have hnodup := h.inv.nodup
  obtain ⟨parent, parents, hstate⟩ := List.exists_cons_of_ne_nil hparents
  have hmore : last.parentContexts ≠ [] := by
    rw [parentContexts_ne_nil_iff] at hparents ⊢
    rw [hlast, hids, List.length_append]
    omega
  have hpop : (popContext last).ids = (fresh ++ state.ids).tail := by
    rw [ids_popContext, if_neg hmore, hlast, hids]
  have hhead : (popContext last).ids.head? = some (popContext last).variableUsageContext.id := rfl
  rw [hpop] at hhead
  rw [hids] at hnodup
  unfold Restores
  match fresh with
  | [] =>
    -- the parent of the context is another one
    rw [List.nil_append, State.ids, hstate] at hhead hnodup
    have hid : parent.id = (popContext last).variableUsageContext.id := by simpa using hhead
    rw [← hid]
    simp only [List.map_cons, List.nodup_cons, List.mem_cons, not_or] at hnodup
    exact iff_of_false (Ne.symm hnodup.1.1) (by simp)
  | [_] =>
    have hid : state.variableUsageContext.id = (popContext last).variableUsageContext.id := by
      simpa [State.ids] using hhead
    exact iff_of_true hid.symm rfl
  | _ :: second :: fresh =>
    have hid : second = (popContext last).variableUsageContext.id := by simpa using hhead
    rw [← hid]
    have hother : second ∉ fresh ++ state.ids := (List.nodup_cons.mp (List.nodup_cons.mp hnodup).2).1
    refine iff_of_false (fun heq => hother ?_) (by simp)
    rw [heq]
    simp [State.ids]

/-- A construct that has pushed one context leaves the chain as it was. -/
theorem Entered.ids_popContext {entered last : State} (h : Entered state 1 entered) (hlast : last.ids = entered.ids) :
    (popContext last).ids = state.ids := by
  obtain ⟨fresh, hlength, hids⟩ := h.exists_ids
  obtain ⟨first, rfl⟩ := List.length_eq_one_iff.mp hlength
  have hmore : last.parentContexts ≠ [] := by
    rw [parentContexts_ne_nil_iff, hlast, hids]
    simp [State.ids]
  rw [NoParameterReassignment.ids_popContext, if_neg hmore, hlast, hids]
  rfl

theorem Entered.parentContexts_ne_nil {n : ℕ} {entered : State} (h : Entered state n entered)
    (hparents : state.parentContexts ≠ []) : entered.parentContexts ≠ [] := by
  obtain ⟨fresh, -, hids⟩ := h.exists_ids
  rw [parentContexts_ne_nil_iff] at hparents ⊢
  rw [hids, List.length_append]
  omega

/-! ### Programs -/

/-- What the traversal of a part of the program does to the chain. -/
structure Traversed (code : Code) (state : State) : Prop where
  balanced_iff : Balanced code state ↔ PushesOnce code
  inv : PushesOnce code → Inv (traverse code state)
  ids_eq : PushesOnce code → (traverse code state).ids = state.ids

theorem parentContexts_ne_nil_of_ids {next : State} (hids : next.ids = state.ids)
    (hparents : state.parentContexts ≠ []) : next.parentContexts ≠ [] := by
  rw [parentContexts_ne_nil_iff] at hparents ⊢
  rwa [hids]

/-- A construct and the code after it. -/
theorem Entered.traversed_next {n : ℕ} {inside next : Code} {entered : State} (h : Entered state n entered)
    (hparents : state.parentContexts ≠ []) (hinside : Traversed inside entered)
    (hnext : ∀ {state : State}, Inv state → state.parentContexts ≠ [] → Traversed next state) :
    let exited := popContext (traverse inside entered)
    (Restores state exited ∧ Balanced inside entered ∧ Balanced next exited ↔
        n = 1 ∧ PushesOnce inside ∧ PushesOnce next) ∧
      (n = 1 ∧ PushesOnce inside ∧ PushesOnce next →
        Inv (traverse next exited) ∧ (traverse next exited).ids = state.ids) := by
  intro exited
  have hrestores : Restores state exited ∧ Balanced inside entered ↔ n = 1 ∧ PushesOnce inside := by
    rw [hinside.balanced_iff]
    exact and_congr_left fun hpushes => h.restores_iff hparents (hinside.ids_eq hpushes)
  have hids : n = 1 ∧ PushesOnce inside → exited.ids = state.ids := by
    rintro ⟨rfl, hpushes⟩
    exact h.ids_popContext (hinside.ids_eq hpushes)
  have hafter : n = 1 ∧ PushesOnce inside → Traversed next exited := fun hpushes =>
    hnext (hinside.inv hpushes.2).popContext (parentContexts_ne_nil_of_ids (hids hpushes) hparents)
  constructor
  · rw [← and_assoc, hrestores, ← and_assoc]
    exact and_congr_right fun hpushes => (hafter hpushes).balanced_iff
  · rintro ⟨hn, hpushes, hpushesNext⟩
    exact ⟨(hafter ⟨hn, hpushes⟩).inv hpushesNext,
      ((hafter ⟨hn, hpushes⟩).ids_eq hpushesNext).trans (hids ⟨hn, hpushes⟩)⟩

theorem loops_eq_one_iff (loop : ForEach) :
    (if loop.bodyIsBlock then loop.loopedSegments else 0) = 1 ↔ loop.bodyIsBlock = true ∧ loop.loopedSegments = 1 := by
  cases loop.bodyIsBlock <;> simp

theorem traversed (code : Code) (hinv : Inv state) (hparents : state.parentContexts ≠ []) : Traversed code state := by
  induction code generalizing state with
  | done => exact ⟨Iff.rfl, fun _ => hinv, fun _ => rfl⟩
  | identifier node next ih =>
    have hsame := sameChain_onIdentifier node state
    have hnext := ih (hinv.of_sameChain hsame) (parentContexts_ne_nil_of_ids hsame.1 hparents)
    exact ⟨hnext.balanced_iff, hnext.inv, fun hpushes => (hnext.ids_eq hpushes).trans hsame.1⟩
  | codePath node inside next ihinside ihnext =>
    have hentered := entered_onCodePathStart hinv node
    have hinside := ihinside hentered.inv (hentered.parentContexts_ne_nil hparents)
    obtain ⟨hiff, hafter⟩ := hentered.traversed_next hparents hinside ihnext
    simp only [true_and] at hiff hafter
    exact ⟨hiff, fun hpushes => (hafter hpushes).1, fun hpushes => (hafter hpushes).2⟩
  | forEach loop header body next ihheader ihbody ihnext =>
    have hheader := ihheader hinv hparents
    have hrest := fun hpushes : PushesOnce header => by
      have hloops := entered_loops (hheader.inv hpushes) loop loop.loopedSegments
      have hentered : Entered state _ _ := ⟨hloops.inv, hheader.ids_eq hpushes ▸ hloops.exists_ids⟩
      have hbody := ihbody hentered.inv (hentered.parentContexts_ne_nil hparents)
      have hnext := hentered.traversed_next hparents hbody ihnext
      rw [loops_eq_one_iff] at hnext
      exact hnext
    refine ⟨?_, fun hpushes => ?_, fun hpushes => ?_⟩
    · rw [Balanced, PushesOnce, and_left_comm, @and_left_comm _ (PushesOnce header), hheader.balanced_iff]
      exact and_congr_right fun hpushes => (hrest hpushes).1
    · obtain ⟨hloop, hpushes, hpushesRest⟩ := hpushes
      exact ((hrest hpushes).2 ⟨hloop, hpushesRest⟩).1
    · obtain ⟨hloop, hpushes, hpushesRest⟩ := hpushes
      exact ((hrest hpushes).2 ⟨hloop, hpushesRest⟩).2
  | catchClause clause inside next ihinside ihnext =>
    have hentered := entered_catch hinv clause clause.startedSegments
    have hinside := ihinside hentered.inv (hentered.parentContexts_ne_nil hparents)
    obtain ⟨hiff, hafter⟩ := hentered.traversed_next hparents hinside ihnext
    exact ⟨hiff, fun hpushes => (hafter hpushes).1, fun hpushes => (hafter hpushes).2⟩

/-- Every construct of a program restores the context if and only if each for-each loop has a block as its
body that is reached with one looped segment, and each catch clause starts one segment. -/
theorem balanced_iff (program : CodePathNode) (body : Code) :
    Balanced (.codePath program body .done) initialState ↔ PushesOnce body := by
  have hinv : Inv initialState := ⟨List.nodup_singleton 0, by simp [State.ids, initialState]⟩
  have hentered := entered_onCodePathStart hinv program
  have hparents : (onCodePathStart program initialState).parentContexts ≠ [] := by
    obtain ⟨fresh, hlength, hids⟩ := hentered.exists_ids
    rw [parentContexts_ne_nil_iff, hids, List.length_append, hlength]
    decide
  have hbody := traversed body hentered.inv hparents
  rw [Balanced, hbody.balanced_iff]
  refine ⟨fun h => h.2.1, fun hpushes => ⟨?_, hpushes, trivial⟩⟩
  have hids := hentered.ids_popContext (hbody.ids_eq hpushes)
  exact (List.cons.inj hids).1

/-- In `function f(p) \x7b for (const x of xs) g(x); p = 1; \x7d` the context of the function is popped by the loop. -/
theorem loop_without_block_not_balanced :
    ¬ Balanced (.codePath ⟨false, [], none⟩ (.codePath ⟨true, [⟨"p", []⟩], some "f"⟩
      (.forEach ⟨false, 1, [⟨"x", []⟩], [], ["x"]⟩ .done (.identifier ⟨60, "x", [.function, .foreach], false, false⟩ .done)
        (.identifier ⟨70, "p", [.function], false, false⟩ .done)) .done) .done) initialState := by
  intro h
  exact absurd h.2.1.2.1.1 (by decide)

end SonarJavascript.Rules.NoParameterReassignment
