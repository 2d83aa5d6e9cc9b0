import SonarJavascript.Lib.Runs
import SonarJavascript.Lib.StackSearch

/-!
# Cases that fall through

The rule S128 follows ESLint's code paths through its events, and looks back from the end of each case whether
there is a way from its beginning that does not call `process.exit`.

`report_exact`: in every run in which each such call is met in the one segment that started last, and each case
begins its body with one segment, to which the first segment after the entry of the case leads, a case is
reported if and only if it falls through.
-/

namespace SonarJavascript.Rules.SwitchFallthrough

open StackSearch

/-- The shape of a callee: a member expression with the names that its object and property have as
identifiers, or another expression. -/
inductive Callee
  | memberExpression (object property : Option String) (computed : Bool)
  | other

/-- `consequent` and `commentsAfter` are the lengths of the lists; `id` tells the nodes apart. -/
structure SwitchCase where
  id : ℕ
  consequent : ℕ
  isLast : Bool
  commentsAfter : ℕ
  deriving DecidableEq

/-- What ESLint meets. The rule does not listen to `segmentLoop`, which connects a segment to an earlier one,
and to `caseBody`, the first statement of a case. -/
inductive Event (Segment : Type)
  | codePathStart
  | codePathEnd
  | segmentStart (segment : Segment) (prevSegments : List Segment)
  | segmentEnd (segment : Segment)
  | unreachableSegmentStart (segment : Segment)
  | unreachableSegmentEnd (segment : Segment)
  | segmentLoop (source target : Segment)
  | callExpression (callee : Callee)
  | switchCase (node : SwitchCase)
  | caseBody (node : SwitchCase)
  | switchCaseExit (node : SwitchCase)

variable {Segment : Type} [DecidableEq Segment]

/-! ### The rule -/

/-- `reports` are the cases with an issue. -/
structure RuleState (Segment : Type) where
  currentCodeSegment : Option Segment
  enteringSwitchCase : Bool
  currentSegments : List Segment
  allCurrentSegments : List (List Segment)
  segmentsWithExit : List Segment
  initialSegmentBySwitchCase : SwitchCase → Option Segment
  switchCaseStack : List SwitchCase
  reports : List SwitchCase

def create : RuleState Segment := ⟨none, false, [], [], [], fun _ => none, [], []⟩

/-- Adding to a set and deleting from it. -/
def add (segment : Segment) (segments : List Segment) : List Segment :=
  if segment ∈ segments then segments else segments ++ [segment]

def delete (segment : Segment) (segments : List Segment) : List Segment :=
  segments.filter (· ≠ segment)

def isProcessExitCall : Callee → Bool
  | .memberExpression object property _ => object = some "process" && property = some "exit"
  | .other => false

-- The segments of one program.
variable [Fintype Segment]

/-- No segment is the initial one when there is none. -/
def isAfterProcessExitCall (prevSegments : Segment → List Segment) (segmentsWithExit : List Segment)
    (segment : Segment) : Option Segment → Bool
  | none => true
  | some initialSegment => !search prevSegments (· ∈ segmentsWithExit) initialSegment ∅ [segment]

def onCodePathSegmentStart (segment : Segment) (state : RuleState Segment) : RuleState Segment :=
  let started := { state with
    currentSegments := add segment state.currentSegments
    currentCodeSegment := some segment }
  if started.enteringSwitchCase then
    match started.switchCaseStack with
    | [] => { started with enteringSwitchCase := false }
    | node :: stack => { started with
        initialSegmentBySwitchCase := Function.update started.initialSegmentBySwitchCase node (some segment)
        switchCaseStack := stack
        enteringSwitchCase := false }
  else started

/-- `prevSegments` and `reachable` are properties of the segments. -/
def onSwitchCaseExit (reachable : Segment → Bool) (prevSegments : Segment → List Segment) (node : SwitchCase)
    (state : RuleState Segment) : RuleState Segment :=
  let initialSegment := state.initialSegmentBySwitchCase node
  let isReachable := state.currentSegments.any fun segment =>
    reachable segment && !isAfterProcessExitCall prevSegments state.segmentsWithExit segment initialSegment
  if isReachable && node.consequent > 0 && !node.isLast && node.commentsAfter = 0 then
    { state with reports := state.reports ++ [node] }
  else state

def onEvent (reachable : Segment → Bool) (prevSegments : Segment → List Segment) (state : RuleState Segment) :
    Event Segment → RuleState Segment
  | .codePathStart => { state with
      allCurrentSegments := state.currentSegments :: state.allCurrentSegments
      currentSegments := [] }
  | .codePathEnd => { state with
      currentSegments := state.allCurrentSegments.headD []
      allCurrentSegments := state.allCurrentSegments.tail }
  | .segmentStart segment _ => onCodePathSegmentStart segment state
  | .unreachableSegmentStart segment => { state with currentSegments := add segment state.currentSegments }
  | .segmentEnd segment | .unreachableSegmentEnd segment =>
    { state with currentSegments := delete segment state.currentSegments }
  | .segmentLoop _ _ => state
  | .callExpression callee =>
    if isProcessExitCall callee then
      { state with segmentsWithExit := state.currentCodeSegment.toList ++ state.segmentsWithExit }
    else state
  | .switchCase node => { state with
      enteringSwitchCase := true
      switchCaseStack := node :: state.switchCaseStack }
  | .caseBody _ => state
  | .switchCaseExit node => onSwitchCaseExit reachable prevSegments node state

/-! ### ESLint -/

/-- The beginning of the body of a case: the current segments, and those that have started by then. -/
structure Body (Segment : Type) where
  current : List Segment
  started : List Segment

/-- What ESLint has met: the current segments of the code paths that are open, the innermost one first; the
segments before each segment; the reachable segments that have started, the last one first; the segments of
which a call of `process.exit` is part; the cases entered, the last one first; for each case the first segment
that started after its entry, and the beginning of its body. -/
structure Analyzer (Segment : Type) where
  codePaths : List (List Segment)
  prevSegments : Segment → List Segment
  started : List Segment
  exits : List Segment
  entered : List SwitchCase
  firstStarted : SwitchCase → Option Segment
  bodies : SwitchCase → Option (Body Segment)

namespace Analyzer

def start : Analyzer Segment := ⟨[], fun _ => [], [], [], [], fun _ => none, fun _ => none⟩

/-- The current segments of the innermost code path. -/
def current (eslint : Analyzer Segment) : List Segment := eslint.codePaths.headD []

/-- The current segments of the innermost code path change. -/
def modifyCurrent (eslint : Analyzer Segment) (f : List Segment → List Segment) : Analyzer Segment :=
  { eslint with codePaths := eslint.codePaths.modifyHead f }

/-- A call of `process.exit`. -/
def IsExit : Callee → Prop
  | .memberExpression object property computed =>
    object = some "process" ∧ property = some "exit" ∧ computed = false
  | .other => False

instance (callee : Callee) : Decidable (IsExit callee) := by
  cases callee <;> unfold IsExit <;> infer_instance

/-- The first segment after the entry of the case entered last, if there was none yet. -/
def noteStart (eslint : Analyzer Segment) (segment : Segment) : SwitchCase → Option Segment :=
  match eslint.entered with
  | [] => eslint.firstStarted
  | node :: _ =>
    if eslint.firstStarted node = none then Function.update eslint.firstStarted node (some segment)
    else eslint.firstStarted

def meet (eslint : Analyzer Segment) : Event Segment → Analyzer Segment
  | .codePathStart => { eslint with codePaths := [] :: eslint.codePaths }
  | .codePathEnd => { eslint with codePaths := eslint.codePaths.tail }
  | .segmentStart segment prevSegments =>
    { eslint.modifyCurrent (add segment) with
      prevSegments := Function.update eslint.prevSegments segment prevSegments
      started := segment :: eslint.started
      firstStarted := eslint.noteStart segment }
  | .unreachableSegmentStart segment => eslint.modifyCurrent (add segment)
  | .segmentEnd segment | .unreachableSegmentEnd segment => eslint.modifyCurrent (delete segment)
  | .segmentLoop source target =>
    { eslint with
      prevSegments := Function.update eslint.prevSegments target (eslint.prevSegments target ++ [source]) }
  | .callExpression callee =>
    if IsExit callee then { eslint with exits := eslint.current ++ eslint.exits } else eslint
  | .switchCase node => { eslint with entered := node :: eslint.entered }
  | .caseBody node =>
    { eslint with bodies := Function.update eslint.bodies node (some ⟨eslint.current, eslint.started⟩) }
  | .switchCaseExit _ => eslint

end Analyzer

/-! ### What is asked of a run -/

/-- ESLint and the rule, between two events. -/
structure System (Segment : Type) where
  eslint : Analyzer Segment
  rule : RuleState Segment

/-- The body of a case is entered at its beginning only, and what follows unreachable code is unreachable. -/
structure Enclosed (reachable : Segment → Bool) (eslint : Analyzer Segment) (body : Body Segment) : Prop where
  current : ∀ segment ∈ eslint.current, reachable segment = true →
    (∃ first ∈ body.current, reachable first = true) ∧ (segment ∈ body.current ∨ segment ∉ body.started)
  prevSegments : ∀ segment ∉ body.started, ∀ prev ∈ eslint.prevSegments segment,
    prev ∈ body.current ∨ prev ∉ body.started

/-- What ESLint can meet. -/
def Emits (reachable : Segment → Bool) (eslint : Analyzer Segment) : Event Segment → Prop
  | .codePathStart => True
  | .codePathEnd | .segmentEnd _ | .unreachableSegmentStart _ | .unreachableSegmentEnd _ => eslint.codePaths ≠ []
  | .segmentStart segment prevSegments =>
    eslint.codePaths ≠ [] ∧ segment ∉ eslint.started ∧ ∀ prev ∈ prevSegments, prev ∈ eslint.started
  | .segmentLoop source target => source ∈ eslint.started ∧ target ∈ eslint.started
  | .callExpression _ => True
  | .switchCase node => node ∉ eslint.entered
  | .caseBody node => node ∈ eslint.entered
  | .switchCaseExit node =>
    0 < node.consequent → ∃ body, eslint.bodies node = some body ∧ Enclosed reachable eslint body

def System.next (reachable : Segment → Bool) (s : System Segment) (event : Event Segment) : System Segment :=
  ⟨s.eslint.meet event, onEvent reachable s.eslint.prevSegments s.rule event⟩

inductive Step (reachable : Segment → Bool) : System Segment → Event Segment → System Segment → Prop
  | intro (s : System Segment) (event : Event Segment) (h : Emits reachable s.eslint event) :
      Step reachable s event (s.next reachable event)

/-- The end of the case can be reached from the beginning of its body, without a call of `process.exit`. -/
def FallsThrough (reachable : Segment → Bool) (eslint : Analyzer Segment) (node : SwitchCase) : Prop :=
  ∃ segment ∈ eslint.current, reachable segment = true ∧ ∃ body, eslint.bodies node = some body ∧
    ∃ first ∈ body.current, Way eslint.prevSegments (· ∈ eslint.exits) segment first

/-- A case with statements that is not the last one and has no comment after it. -/
def SwitchCase.IsChecked (node : SwitchCase) : Prop :=
  0 < node.consequent ∧ node.isLast = false ∧ node.commentsAfter = 0

/-- Whichever case ends here is reported if and only if it has to be. -/
def Exact (reachable : Segment → Bool) (s : System Segment) : Prop :=
  ∀ node, Emits reachable s.eslint (.switchCaseExit node) →
    ((onEvent reachable s.eslint.prevSegments s.rule (.switchCaseExit node)).reports = s.rule.reports ++ [node] ↔
      node.IsChecked ∧ FallsThrough reachable s.eslint node)

/-- From the segment back to the other one, without coming back to it or meeting a call of `process.exit`. -/
def LeadsTo (eslint : Analyzer Segment) (first segment : Segment) : Prop :=
  Relation.ReflTransGen (fun a b => b ∈ eslint.prevSegments a ∧ b ∉ eslint.exits ∧ b ≠ segment) segment first

/-- What is called `process.exit` is that, in the one current segment, which started last; the body of a case
that is checked begins, if it is reachable, with the one segment that started last, and the first segment
after the entry of the case leads to it. -/
def Meets (reachable : Segment → Bool) (s : System Segment) : Event Segment → Prop
  | .callExpression callee => isProcessExitCall callee = true → Analyzer.IsExit callee ∧
      ∃ segment, s.eslint.current = [segment] ∧ s.eslint.started.head? = some segment
  | .caseBody node => node.IsChecked → (∃ segment ∈ s.eslint.current, reachable segment = true) →
      ∃ segment first, s.eslint.current = [segment] ∧ s.eslint.started.head? = some segment ∧
        s.eslint.firstStarted node = some first ∧ LeadsTo s.eslint first segment
  | _ => True

/-! ### The invariant -/

variable {reachable : Segment → Bool} {s s' : System Segment} {event : Event Segment}

/-- The way from the beginning of the body back to the first segment after the entry of the case. -/
def WayBack (eslint : Analyzer Segment) (started : List Segment) (segment first : Segment) : Prop :=
  Relation.ReflTransGen (fun a b => a ∈ started ∧ b ∈ started ∧ b ∈ eslint.prevSegments a ∧ b ∉ eslint.exits ∧
    b ≠ segment) segment first

/-- What is known of a body that is reachable. -/
structure Begun (eslint : Analyzer Segment) (node : SwitchCase) (body : Body Segment) (segment first : Segment) :
    Prop where
  current : body.current = [segment]
  head : body.started.head? = some segment
  firstStarted : eslint.firstStarted node = some first
  first_mem : first ∈ body.started
  suffix : body.started <:+ eslint.started
  wayBack : WayBack eslint body.started segment first

/-- The rule has its variables from ESLint. -/
structure Inv (reachable : Segment → Bool) (s : System Segment) : Prop where
  current : s.rule.currentSegments :: s.rule.allCurrentSegments = s.eslint.codePaths ++ [[]]
  last : s.rule.currentCodeSegment = s.eslint.started.head?
  exits : ∀ segment, segment ∈ s.rule.segmentsWithExit ↔ segment ∈ s.eslint.exits
  initial : s.rule.initialSegmentBySwitchCase = s.eslint.firstStarted
  entering : if s.rule.enteringSwitchCase then
      ∃ node, s.eslint.entered.head? = some node ∧ s.rule.switchCaseStack.head? = some node ∧
        s.eslint.firstStarted node = none
    else ∀ node ∈ s.eslint.entered.head?, s.eslint.firstStarted node ≠ none
  notEntered : ∀ node, node ∉ s.eslint.entered → s.eslint.firstStarted node = none
  first_mem : ∀ node first, s.eslint.firstStarted node = some first → first ∈ s.eslint.started
  prev_mem : ∀ segment, ∀ prev ∈ s.eslint.prevSegments segment, prev ∈ s.eslint.started
  nodup : s.eslint.started.Nodup
  begun : ∀ node body, node.IsChecked → s.eslint.bodies node = some body →
    (∃ segment ∈ body.current, reachable segment = true) → ∃ segment first, Begun s.eslint node body segment first

omit [DecidableEq Segment] [Fintype Segment] in
theorem inv_start : Inv reachable ⟨.start, create⟩ where
  current := rfl
  last := rfl
  exits _ := Iff.rfl
  initial := rfl
  entering := by simp [create, Analyzer.start]
  notEntered _ _ := rfl
  first_mem := by simp [Analyzer.start]
  prev_mem := by simp [Analyzer.start]
  nodup := List.nodup_nil
  begun := by simp [Analyzer.start]

omit [DecidableEq Segment] [Fintype Segment] in
/-- What is known stays when the way back does. -/
theorem Begun.mono {eslint eslint' : Analyzer Segment} {node : SwitchCase} {body : Body Segment}
    {segment first : Segment} (h : Begun eslint node body segment first)
    (hfirst : eslint'.firstStarted node = some first) (hstarted : eslint.started <:+ eslint'.started)
    (hprev : ∀ a ∈ body.started, ∀ b ∈ eslint.prevSegments a, b ∈ eslint'.prevSegments a)
    (hexits : ∀ b ∈ body.started, b ≠ segment → b ∉ eslint.exits → b ∉ eslint'.exits) :
    Begun eslint' node body segment first where
  current := h.current
  head := h.head
  firstStarted := hfirst
  first_mem := h.first_mem
  suffix := h.suffix.trans hstarted
  wayBack := Relation.ReflTransGen.mono (fun a b ⟨ha, hb, hmem, hfree, hne⟩ =>
    ⟨ha, hb, hprev a ha b hmem, hexits b hb hne hfree, hne⟩) _ _ h.wayBack

omit [DecidableEq Segment] [Fintype Segment] in
theorem Inv.begun_mono (h : Inv reachable s) (eslint : Analyzer Segment)
    (hstarted : s.eslint.started <:+ eslint.started)
    (hfirst : ∀ node first, s.eslint.firstStarted node = some first → eslint.firstStarted node = some first)
    (hprev : ∀ a ∈ s.eslint.started, ∀ b ∈ s.eslint.prevSegments a, b ∈ eslint.prevSegments a)
    (hexits : eslint.exits = s.eslint.exits) {node : SwitchCase} {body : Body Segment} (hchecked : node.IsChecked)
    (hbody : s.eslint.bodies node = some body) (hreachable : ∃ segment ∈ body.current, reachable segment = true) :
    ∃ segment first, Begun eslint node body segment first := by
  obtain ⟨segment, first, hbegun⟩ := h.begun node body hchecked hbody hreachable
  refine ⟨segment, first, hbegun.mono (hfirst node first hbegun.firstStarted) hstarted ?_ ?_⟩
  · exact fun a ha => hprev a (hbegun.suffix.mem ha)
  · exact fun b _ _ hfree => hexits ▸ hfree

omit [DecidableEq Segment] [Fintype Segment] in
theorem Inv.of_current (h : Inv reachable s)
    (heslint : s'.eslint = { s.eslint with codePaths := s'.eslint.codePaths })
    (hrule : s'.rule = { s.rule with
      currentSegments := s'.rule.currentSegments
      allCurrentSegments := s'.rule.allCurrentSegments
      reports := s'.rule.reports })
    (hcurrent : s'.rule.currentSegments :: s'.rule.allCurrentSegments = s'.eslint.codePaths ++ [[]]) :
    Inv reachable s' := by
  obtain ⟨eslint, rule⟩ := s'
  dsimp only at heslint hrule hcurrent
  rw [heslint, hrule]
  refine ⟨hcurrent, h.last, h.exits, h.initial, h.entering, h.notEntered, h.first_mem, h.prev_mem, h.nodup, ?_⟩
  exact fun _ _ hchecked hbody hreachable =>
    h.begun_mono { s.eslint with codePaths := eslint.codePaths } List.suffix_rfl
      (fun _ _ hfirst => hfirst) (fun _ _ _ hb => hb) rfl hchecked hbody hreachable

omit [DecidableEq Segment] [Fintype Segment] in
theorem Inv.codePaths (h : Inv reachable s) (hne : s.eslint.codePaths ≠ []) :
    ∃ rest, s.eslint.codePaths = s.rule.currentSegments :: rest ∧ s.rule.allCurrentSegments = rest ++ [[]] := by
  have hcurrent := h.current
  obtain ⟨first, rest, hpaths⟩ := List.exists_cons_of_ne_nil hne
  rw [hpaths, List.cons_append, List.cons.injEq] at hcurrent
  exact ⟨rest, by rw [hpaths, hcurrent.1], hcurrent.2⟩

theorem Inv.codePathStart (h : Inv reachable s) :
    Inv reachable (s.next reachable .codePathStart) :=
  h.of_current rfl rfl (congrArg ([] :: ·) h.current)

theorem Inv.codePathEnd (h : Inv reachable s) (hne : s.eslint.codePaths ≠ []) :
    Inv reachable (s.next reachable .codePathEnd) := by
  obtain ⟨rest, hpaths, hall⟩ := h.codePaths hne
  refine h.of_current rfl rfl ?_
  simp only [System.next, onEvent, Analyzer.meet, hpaths, hall, List.tail_cons]
  cases rest <;> rfl

omit [DecidableEq Segment] [Fintype Segment] in
theorem Inv.modifyCurrent (h : Inv reachable s) (hne : s.eslint.codePaths ≠ [])
    (f : List Segment → List Segment) :
    Inv reachable ⟨s.eslint.modifyCurrent f, { s.rule with currentSegments := f s.rule.currentSegments }⟩ := by
  obtain ⟨rest, hpaths, hall⟩ := h.codePaths hne
  refine h.of_current rfl rfl ?_
  simp only [Analyzer.modifyCurrent, hpaths, hall, List.modifyHead_cons, List.cons_append]

theorem Inv.segmentLoop (h : Inv reachable s) {source target : Segment} (hsource : source ∈ s.eslint.started) :
    Inv reachable (s.next reachable (.segmentLoop source target)) := by
  have hgrows : ∀ a, ∀ b ∈ s.eslint.prevSegments a, b ∈ Function.update s.eslint.prevSegments target
      (s.eslint.prevSegments target ++ [source]) a := by
    intro a b hb
    by_cases ha : a = target
    · subst ha
      simp [hb]
    · simpa [ha] using hb
  refine ⟨h.current, h.last, h.exits, h.initial, h.entering, h.notEntered, h.first_mem, ?_, h.nodup, ?_⟩
  · intro segment prev hprev
    by_cases ha : segment = target
    · subst ha
      simp only [System.next, Analyzer.meet, Function.update_self, List.mem_append, List.mem_singleton] at hprev
      obtain hprev | rfl := hprev
      · exact h.prev_mem segment prev hprev
      · exact hsource
    · simp only [System.next, Analyzer.meet, Function.update_of_ne ha] at hprev
      exact h.prev_mem segment prev hprev
  · exact fun _ _ hchecked hbody hreachable =>
      h.begun_mono (s.eslint.meet (.segmentLoop source target)) List.suffix_rfl
        (fun _ _ hfirst => hfirst) (fun a _ => hgrows a) rfl hchecked hbody hreachable

theorem isProcessExitCall_of_isExit {callee : Callee} (h : Analyzer.IsExit callee) :
    isProcessExitCall callee = true := by
  cases callee with
  | memberExpression object property computed =>
    obtain ⟨rfl, rfl, -⟩ := h
    rfl
  | other => exact h.elim

omit [DecidableEq Segment] [Fintype Segment] in
/-- The segment that started last, and is not the beginning of the body, has not started by then. -/
theorem Begun.not_mem {eslint : Analyzer Segment} {node : SwitchCase} {body : Body Segment}
    {segment first last : Segment} (h : Begun eslint node body segment first) (hnodup : eslint.started.Nodup)
    (hlast : eslint.started.head? = some last) (hne : last ≠ segment) : last ∉ body.started := by
  obtain ⟨later, hlater⟩ := h.suffix
  cases later with
  | nil =>
    have hhead := h.head
    rw [show body.started = eslint.started from hlater, hlast] at hhead
    exact absurd (Option.some.inj hhead) hne
  | cons head later =>
    rw [← hlater] at hnodup hlast
    obtain rfl := Option.some.inj hlast
    exact fun hmem => (List.nodup_cons.mp hnodup).1 (List.mem_append_right _ hmem)

theorem Inv.callExpression (h : Inv reachable s) {callee : Callee}
    (hmeets : Meets reachable s (.callExpression callee)) :
    Inv reachable (s.next reachable (.callExpression callee)) := by
  by_cases hcall : isProcessExitCall callee = true
  · obtain ⟨hexit, segment, hcurrent, hlast⟩ := hmeets hcall
    have hcode : s.rule.currentCodeSegment = some segment := h.last.trans hlast
    simp only [System.next, Analyzer.meet, onEvent, if_pos hexit, if_pos hcall, hcurrent]
    refine ⟨h.current, h.last, ?_, h.initial, h.entering, h.notEntered, h.first_mem, h.prev_mem, h.nodup, ?_⟩
    · intro other
      simp [hcode, h.exits]
    · intro node body hchecked hbody hreachable
      obtain ⟨start, first, hbegun⟩ := h.begun node body hchecked hbody hreachable
      refine ⟨start, first, hbegun.mono hbegun.firstStarted List.suffix_rfl (fun _ _ _ hb => hb) ?_⟩
      intro b hb hne hfree
      simp only [List.cons_append, List.nil_append, List.mem_cons, not_or]
      refine ⟨?_, hfree⟩
      -- the call is in the segment that started last, so in the beginning of the body or after it
      rintro rfl
      exact hbegun.not_mem h.nodup hlast hne hb
  · have hexit : ¬ Analyzer.IsExit callee := fun hexit => hcall (isProcessExitCall_of_isExit hexit)
    simpa only [System.next, Analyzer.meet, onEvent, if_neg hexit, if_neg hcall] using h

omit [DecidableEq Segment] [Fintype Segment] in
theorem Analyzer.noteStart_cases (eslint : Analyzer Segment) (segment : Segment) (node : SwitchCase) :
    eslint.noteStart segment node = eslint.firstStarted node ∨
      eslint.entered.head? = some node ∧ eslint.firstStarted node = none ∧
        eslint.noteStart segment node = some segment := by
  unfold noteStart
  cases eslint.entered with
  | nil => exact .inl rfl
  | cons last entered =>
    by_cases hnone : eslint.firstStarted last = none
    · simp only [if_pos hnone]
      by_cases hnode : node = last
      · subst hnode
        exact .inr ⟨rfl, hnone, Function.update_self ..⟩
      · exact .inl (Function.update_of_ne hnode ..)
    · exact .inl (by simp only [if_neg hnone])

omit [DecidableEq Segment] [Fintype Segment] in
theorem Analyzer.noteStart_head (eslint : Analyzer Segment) (segment : Segment) (node : SwitchCase)
    (h : node ∈ eslint.entered.head?) : eslint.noteStart segment node ≠ none := by
  unfold noteStart
  cases hentered : eslint.entered with
  | nil => simp [hentered] at h
  | cons last entered =>
    obtain rfl : last = node := by simpa [hentered] using h
    by_cases hnone : eslint.firstStarted last = none
    · simp [hnone]
    · simp only [if_neg hnone]
      exact hnone

omit [Fintype Segment] in
theorem Inv.initial_segmentStart (h : Inv reachable s) (segment : Segment) :
    (onCodePathSegmentStart segment s.rule).initialSegmentBySwitchCase = s.eslint.noteStart segment := by
  have hentering := h.entering
  unfold onCodePathSegmentStart Analyzer.noteStart
  by_cases htrue : s.rule.enteringSwitchCase = true
  · rw [if_pos htrue] at hentering
    obtain ⟨node, hentered, hstack, hnone⟩ := hentering
    obtain ⟨entered, hentered⟩ := List.head?_eq_some_iff.mp hentered
    obtain ⟨stack, hstack⟩ := List.head?_eq_some_iff.mp hstack
    simp only [if_pos htrue, hstack, hentered, if_pos hnone, h.initial]
  · rw [if_neg htrue] at hentering
    simp only [if_neg htrue, h.initial]
    cases hentered : s.eslint.entered with
    | nil => rfl
    | cons node entered => exact (if_neg (hentering node (by simp [hentered]))).symm

omit [Fintype Segment] in
/-- What stays when a segment starts. -/
theorem onCodePathSegmentStart_eq (segment : Segment) (rule : RuleState Segment) :
    (onCodePathSegmentStart segment rule).currentSegments = add segment rule.currentSegments ∧
      (onCodePathSegmentStart segment rule).allCurrentSegments = rule.allCurrentSegments ∧
      (onCodePathSegmentStart segment rule).currentCodeSegment = some segment ∧
      (onCodePathSegmentStart segment rule).segmentsWithExit = rule.segmentsWithExit ∧
      (onCodePathSegmentStart segment rule).enteringSwitchCase = false := by
  unfold onCodePathSegmentStart
  by_cases htrue : rule.enteringSwitchCase = true
  · cases rule.switchCaseStack with
    | nil => simp [htrue]
    | cons node stack => simp [htrue]
  · simp [htrue]

theorem Inv.segmentStart (h : Inv reachable s) (hne : s.eslint.codePaths ≠ []) {segment : Segment}
    {prevSegments : List Segment} (hnew : segment ∉ s.eslint.started)
    (hprev : ∀ prev ∈ prevSegments, prev ∈ s.eslint.started) :
    Inv reachable (s.next reachable (.segmentStart segment prevSegments)) := by
  obtain ⟨rest, hpaths, hall⟩ := h.codePaths hne
  obtain ⟨hcurrent, hallCurrent, hcode, hexits, hentering⟩ := onCodePathSegmentStart_eq segment s.rule
  constructor
  case current =>
    simp only [System.next, onEvent, Analyzer.meet, Analyzer.modifyCurrent, hcurrent, hallCurrent, hpaths, hall,
      List.modifyHead_cons, List.cons_append]
  case last => exact hcode
  case exits =>
    intro other
    simp only [System.next, onEvent, hexits]
    exact h.exits other
  case initial => exact h.initial_segmentStart segment
  case entering =>
    simp only [System.next, onEvent, hentering]
    exact fun node hnode => s.eslint.noteStart_head segment node hnode
  case notEntered =>
    intro node hnode
    obtain heq | ⟨hlast, -, -⟩ := s.eslint.noteStart_cases segment node
    · exact heq.trans (h.notEntered node hnode)
    · exact absurd (List.mem_of_mem_head? hlast) hnode
  case first_mem =>
    intro node first hfirst
    obtain heq | ⟨-, -, heq⟩ := s.eslint.noteStart_cases segment node
    · exact List.mem_cons_of_mem _ (h.first_mem node first (heq.symm.trans hfirst))
    · obtain rfl := Option.some.inj (heq.symm.trans hfirst)
      exact List.mem_cons_self
  case prev_mem =>
    intro other prev hmem
    by_cases hother : other = segment
    · subst hother
      simp only [System.next, Analyzer.meet, Function.update_self] at hmem
      exact List.mem_cons_of_mem _ (hprev prev hmem)
    · simp only [System.next, Analyzer.meet, Function.update_of_ne hother] at hmem
      exact List.mem_cons_of_mem _ (h.prev_mem other prev hmem)
  case nodup => exact List.nodup_cons.mpr ⟨hnew, h.nodup⟩
  case begun =>
    refine fun _ _ hchecked hbody hreachable =>
      h.begun_mono (s.eslint.meet (.segmentStart segment prevSegments)) (List.suffix_cons ..)
        ?_ ?_ rfl hchecked hbody hreachable
    · intro node first hfirst
      obtain heq | ⟨-, hnone, -⟩ := s.eslint.noteStart_cases segment node
      · exact heq.trans hfirst
      · rw [hfirst] at hnone
        cases hnone
    · intro a ha b hb
      have hother : a ≠ segment := fun heq => hnew (heq ▸ ha)
      simpa only [System.next, Analyzer.meet, Function.update_of_ne hother] using hb

theorem Inv.switchCase (h : Inv reachable s) {node : SwitchCase} (hnew : node ∉ s.eslint.entered) :
    Inv reachable (s.next reachable (.switchCase node)) := by
  refine ⟨h.current, h.last, h.exits, h.initial, ?_, ?_, h.first_mem, h.prev_mem, h.nodup, ?_⟩
  · exact ⟨node, rfl, rfl, h.notEntered node hnew⟩
  · exact fun other hother => h.notEntered other (List.not_mem_of_not_mem_cons hother)
  · exact fun _ _ hchecked hbody hreachable =>
      h.begun_mono (s.eslint.meet (.switchCase node)) List.suffix_rfl
        (fun _ _ hfirst => hfirst) (fun _ _ _ hb => hb) rfl hchecked hbody hreachable

omit [DecidableEq Segment] [Fintype Segment] in
theorem Inv.wayBack (h : Inv reachable s) {segment first : Segment} (hsegment : segment ∈ s.eslint.started)
    (hleads : LeadsTo s.eslint first segment) :
    WayBack s.eslint s.eslint.started segment first ∧ first ∈ s.eslint.started := by
  induction hleads with
  | refl => exact ⟨.refl, hsegment⟩
  | tail _ hnext ih =>
    obtain ⟨hway, hmem⟩ := ih
    have hprev := h.prev_mem _ _ hnext.1
    exact ⟨hway.tail ⟨hmem, hprev, hnext⟩, hprev⟩

theorem Inv.caseBody (h : Inv reachable s) {node : SwitchCase} (hmeets : Meets reachable s (.caseBody node)) :
    Inv reachable (s.next reachable (.caseBody node)) := by
  refine ⟨h.current, h.last, h.exits, h.initial, h.entering, h.notEntered, h.first_mem, h.prev_mem, h.nodup, ?_⟩
  intro other body hchecked hbody hreachable
  by_cases hother : other = node
  · subst hother
    simp only [System.next, Analyzer.meet, Function.update_self, Option.some.injEq] at hbody
    subst hbody
    obtain ⟨segment, first, hcurrent, hhead, hfirst, hleads⟩ := hmeets hchecked hreachable
    obtain ⟨hway, hmem⟩ := h.wayBack (List.mem_of_mem_head? hhead) hleads
    exact ⟨segment, first, hcurrent, hhead, hfirst, hmem, List.suffix_rfl, hway⟩
  · simp only [System.next, Analyzer.meet, Function.update_of_ne hother] at hbody
    exact h.begun_mono (s.eslint.meet (.caseBody node)) List.suffix_rfl
      (fun _ _ hfirst => hfirst) (fun _ _ _ hb => hb) rfl hchecked hbody hreachable

theorem Inv.switchCaseExit (h : Inv reachable s) (node : SwitchCase) :
    Inv reachable (s.next reachable (.switchCaseExit node)) := by
  simp only [System.next, onEvent, onSwitchCaseExit]
  split_ifs
  · exact h.of_current rfl rfl h.current
  · exact h

theorem Inv.step (h : Inv reachable s) (hstep : Step reachable s event s') (hmeets : Meets reachable s event) :
    Inv reachable s' := by
  obtain ⟨hemits⟩ := hstep
  cases event with
  | codePathStart => exact h.codePathStart
  | codePathEnd => exact h.codePathEnd hemits
  | segmentStart segment prevSegments => exact h.segmentStart hemits.1 hemits.2.1 hemits.2.2
  | segmentEnd segment => exact h.modifyCurrent hemits (delete segment)
  | unreachableSegmentStart segment => exact h.modifyCurrent hemits (add segment)
  | unreachableSegmentEnd segment => exact h.modifyCurrent hemits (delete segment)
  | segmentLoop source target => exact h.segmentLoop hemits.1
  | callExpression callee => exact h.callExpression hmeets
  | switchCase node => exact h.switchCase hemits
  | caseBody node => exact h.caseBody hmeets
  | switchCaseExit node => exact h.switchCaseExit node

/-! ### The report -/

omit [DecidableEq Segment] [Fintype Segment] in
theorem Inv.current_eq (h : Inv reachable s) : s.rule.currentSegments = s.eslint.current := by
  have hcurrent := h.current
  unfold Analyzer.current
  cases hpaths : s.eslint.codePaths with
  | nil =>
    rw [hpaths] at hcurrent
    exact (List.cons.inj hcurrent).1
  | cons first rest =>
    rw [hpaths] at hcurrent
    exact (List.cons.inj hcurrent).1

theorem reports_iff (rule : RuleState Segment) (prevSegments : Segment → List Segment) (node : SwitchCase) :
    (onEvent reachable prevSegments rule (.switchCaseExit node)).reports = rule.reports ++ [node] ↔
      node.IsChecked ∧ ∃ segment ∈ rule.currentSegments, reachable segment = true ∧
        isAfterProcessExitCall prevSegments rule.segmentsWithExit segment (rule.initialSegmentBySwitchCase node) =
          false := by
  simp only [onEvent, onSwitchCaseExit]
  split_ifs with hreport
  · simp only [Bool.and_eq_true, List.any_eq_true, decide_eq_true_eq, Bool.not_eq_true'] at hreport
    obtain ⟨⟨⟨⟨segment, hsegment, hreachable, hafter⟩, hpos⟩, hlast⟩, hcomments⟩ := hreport
    simp only [true_iff]
    exact ⟨⟨hpos, hlast, hcomments⟩, segment, hsegment, hreachable, hafter⟩
  · simp only [List.self_eq_append_right, List.cons_ne_nil, false_iff]
    rintro ⟨⟨hpos, hlast, hcomments⟩, segment, hsegment, hreachable, hafter⟩
    simp only [Bool.and_eq_true, List.any_eq_true, decide_eq_true_eq, Bool.not_eq_true'] at hreport
    exact hreport ⟨⟨⟨⟨segment, hsegment, hreachable, hafter⟩, hpos⟩, hlast⟩, hcomments⟩

omit [DecidableEq Segment] [Fintype Segment] in
/-- From the first segment after the entry of a case on there is the way that there is from the beginning of
its body on. -/
theorem Begun.way_iff {eslint : Analyzer Segment} {node : SwitchCase} {body : Body Segment}
    {start first segment : Segment} (h : Begun eslint node body start first)
    (henclosed : Enclosed reachable eslint body) (hsegment : segment ∈ body.current ∨ segment ∉ body.started) :
    Way eslint.prevSegments (· ∈ eslint.exits) segment first ↔
      Way eslint.prevSegments (· ∈ eslint.exits) segment start := by
  constructor
  · intro hway
    have henter : ∀ a, ¬ a ∈ body.started → ∀ b ∈ eslint.prevSegments a, b = start ∨ ¬ b ∈ body.started := by
      intro a ha b hb
      simpa only [h.current, List.mem_singleton] using henclosed.prevSegments a ha b hb
    have hfrom : segment = start ∨ ¬ segment ∈ body.started := by
      simpa only [h.current, List.mem_singleton] using hsegment
    exact hway.entry henter hfrom h.first_mem
  · intro hway
    exact hway.trans (Relation.ReflTransGen.mono (fun _ _ ⟨_, _, hmem, hfree, _⟩ => ⟨hmem, hfree⟩) _ _ h.wayBack)

theorem Inv.isAfterProcessExitCall_iff (h : Inv reachable s) {node : SwitchCase} {segment first : Segment}
    (hfirst : s.eslint.firstStarted node = some first) :
    isAfterProcessExitCall s.eslint.prevSegments s.rule.segmentsWithExit segment
        (s.rule.initialSegmentBySwitchCase node) = false ↔
      Way s.eslint.prevSegments (· ∈ s.eslint.exits) segment first := by
  rw [h.initial, hfirst, ← Way.congr h.exits, ← search_singleton]
  simp [isAfterProcessExitCall]

theorem Inv.exact (h : Inv reachable s) : Exact reachable s := by
  intro node hemits
  rw [reports_iff, h.current_eq]
  refine and_congr_right fun hchecked => ?_
  obtain ⟨body, hbody, henclosed⟩ := hemits hchecked.1
  unfold FallsThrough
  refine exists_congr fun segment => and_congr_right fun hsegment => and_congr_right fun hreachable => ?_
  obtain ⟨hbodyReachable, hwhere⟩ := henclosed.current segment hsegment hreachable
  obtain ⟨start, first, hbegun⟩ := h.begun node body hchecked hbody hbodyReachable
  rw [h.isAfterProcessExitCall_iff hbegun.firstStarted, hbegun.way_iff henclosed hwhere]
  simp [hbody, hbegun.current]

/-- **When a case is reported as it has to be.** In each state of a run of which every step meets the condition,
the case that ends there is reported if and only if it falls through. -/
theorem report_exact {trace : List (System Segment × Event Segment)} {last : System Segment}
    (hrun : Run (Step reachable) ⟨.start, create⟩ trace last)
    (hmeets : ∀ step ∈ trace, Meets reachable step.1 step.2) :
    Throughout (Exact reachable) trace last := by
  obtain ⟨htrace, hlast⟩ := hrun.throughout_of_forall inv_start (fun _ _ _ h => h.step) hmeets
  exact ⟨fun step hstep => (htrace step hstep).exact, hlast.exact⟩

/-- The steps of the events, one after the other, and the state after them. -/
def trace (reachable : Segment → Bool) (s : System Segment) :
    List (Event Segment) → List (System Segment × Event Segment)
  | [] => []
  | event :: events => (s, event) :: trace reachable (s.next reachable event) events

def after (reachable : Segment → Bool) (s : System Segment) (events : List (Event Segment)) : System Segment :=
  events.foldl (System.next reachable) s

theorem run_trace (events : List (Event Segment)) (s : System Segment)
    (h : ∀ step ∈ trace reachable s events, Emits reachable step.1.eslint step.2) :
    Run (Step reachable) s (trace reachable s events) (after reachable s events) := by
  induction events generalizing s with
  | nil => exact .nil s
  | cons event events ih =>
    obtain ⟨hfirst, hrest⟩ := List.forall_mem_cons.mp h
    exact .cons (.intro s event hfirst) (ih _ hrest)

/-- The beginning of `switch (x) \x7b case 0: f(); default: \x7d`. -/
def plainCase : List (Event (Fin 3)) :=
  [.codePathStart, .segmentStart 0 [], .switchCase ⟨0, 1, false, 0⟩, .segmentEnd 0, .segmentStart 1 [0],
    .caseBody ⟨0, 1, false, 0⟩, .callExpression .other]

theorem report_exact_plainCase :
    Throughout (Exact fun _ => true) (trace (fun _ => true) ⟨.start, create⟩ plainCase)
      (after (fun _ => true) ⟨.start, create⟩ plainCase) := by
  refine report_exact (run_trace _ _ ?_) ?_
  · simp [plainCase, trace, Emits, System.next, Analyzer.meet, Analyzer.start, Analyzer.modifyCurrent]
  · simp only [plainCase, trace, List.forall_mem_cons]
    refine ⟨trivial, trivial, trivial, trivial, trivial, fun _ _ => ⟨1, 1, rfl, rfl, rfl, .refl⟩, ?_, by simp⟩
    intro h
    cases h

/-- The beginning of `switch (x) \x7b case 0: f(() => \x7b\x7d); process.exit(); default: \x7d`. -/
def arrowCase : List (Event (Fin 3)) :=
  [.codePathStart, .segmentStart 0 [], .switchCase ⟨0, 2, false, 0⟩, .segmentEnd 0, .segmentStart 1 [0],
    .caseBody ⟨0, 2, false, 0⟩, .callExpression .other, .codePathStart, .segmentStart 2 [], .segmentEnd 2,
    .codePathEnd, .callExpression (.memberExpression (some "process") (some "exit") false)]

/-- The call of `process.exit` is taken for one of the arrow function, and the case is reported. -/
theorem arrowCase_not_exact :
    Run (Step fun _ => true) ⟨.start, create⟩ (trace (fun _ => true) ⟨.start, create⟩ arrowCase)
        (after (fun _ => true) ⟨.start, create⟩ arrowCase) ∧
      ¬ Exact (fun _ => true) (after (fun _ => true) ⟨.start, create⟩ arrowCase) := by
  refine ⟨run_trace _ _ ?_, fun hexact => ?_⟩
  · simp [arrowCase, trace, Emits, System.next, Analyzer.meet, Analyzer.start, Analyzer.modifyCurrent,
      Analyzer.IsExit]
  · set last := after (fun _ => true) ⟨.start, create⟩ arrowCase
    let node : SwitchCase := ⟨0, 2, false, 0⟩
    have hemits : Emits (fun _ => true) last.eslint (.switchCaseExit node) :=
      fun _ => ⟨⟨[1], [1, 0]⟩, rfl, by decide, by decide⟩
    have hafter : isAfterProcessExitCall last.eslint.prevSegments last.rule.segmentsWithExit 1
        (last.rule.initialSegmentBySwitchCase node) = false := by
      change (!search _ (· ∈ [2]) 1 ∅ [1]) = false
      simpa using search_singleton.mpr (Way.refl (by decide))
    have hreport : (onEvent (fun _ => true) last.eslint.prevSegments last.rule (.switchCaseExit node)).reports =
        last.rule.reports ++ [node] :=
      (reports_iff last.rule _ node).mpr ⟨⟨by decide, rfl, rfl⟩, 1, by decide, rfl, hafter⟩
    obtain ⟨-, segment, hsegment, -, body, hbody, first, -, hfree, -⟩ := (hexact node hemits).mp hreport
    obtain rfl : segment = 1 := List.mem_singleton.mp hsegment
    exact hfree List.mem_cons_self

end SonarJavascript.Rules.SwitchFallthrough
