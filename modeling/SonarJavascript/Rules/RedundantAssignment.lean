import SonarJavascript.Cfg.ReachingFixpoint

/-!
# S4165: redundant assignments

`checkSegment` walks the writes of a segment with the program state that flows in and reports a write
when the variable and the value written are the same single literal. Three things keep a report from
being right on every path: a variable that is not in the state of one branch (`join` lets the other
branches speak for it), a write that `updateProgramState` takes for a plain assignment, and a write that
the scan skips without updating its map. `Tracked` excludes the last two and the first for the copied
variables; `report_sound_iff` says that a report is then right exactly when every path writes the
variable.
-/

namespace SonarJavascript.Rules.S4165

open Cfg Worklist ReachingDefinitions ProgramState

/-! ### The rule -/

/-- What the rule reads beside the segment: the references of a variable, and the ids of the code paths
that use it. -/
structure RuleContext where
  references : Variable → List Reference
  variableUsages : Variable → Finset String

variable (context : RuleContext)

def isSelfAssignement (ref : Reference) : Bool :=
  match ref.writeExpr with
  | some ⟨.identifier name, _⟩ => ref.resolved = getVariableFromIdentifier name ref.scope
  | _ => false

def isCompoundAssignment (writeExpr : Option WriteExpr) : Bool :=
  match writeExpr with
  | some ⟨_, some (.assignmentExpression operator)⟩ => operator ≠ "="
  | _ => false

def isDefaultParameter (ref : Reference) : Bool :=
  if ref.isIdentifier = false then false else ref.identifierParent = some .assignmentPattern

def isWrittenOnlyOnce (v : Variable) : Bool := ((context.references v).filter (·.isWrite)).length = 1

def variableUsedOutsideOfCodePath (v : Variable) : Bool := 1 < (context.variableUsages v).card

def shouldReportReference (ref : Reference) : Bool :=
  match ref.resolved with
  | none => false
  | some v =>
    !isDefaultParameter ref && !(v.name.toList.head? = some '_') && !isCompoundAssignment ref.writeExpr &&
      !isSelfAssignement ref &&
      !v.defs.any fun d => d.type = .parameter || (d.type = .variable && !d.init)

def shouldReport (ref : Reference) : Bool :=
  match ref.resolved with
  | none => false
  | some v => shouldReportReference ref && !variableUsedOutsideOfCodePath context v

/-- The sets of both sides are compared whole: the source takes the only element of each. -/
def checkRedundantAssignement (v : Variable) (lhsValues : Finset LiteralValue) (rhsValues : Values) : Bool :=
  match rhsValues with
  | .unknownValue => false
  | .assignedValues rhs => rhs.card = 1 && !isWrittenOnlyOnce context v && lhsValues = rhs

/-- The map of the scan, and the references reported so far. -/
structure Scan where
  assignedValuesMap : ProgramState
  reported : List Reference

def checkReference (scan : Scan) (ref : Reference) : Scan :=
  match ref.resolved with
  | none => scan
  | some v =>
    if ref.isWrite = false ∨ shouldReport context ref = false then scan
    else
      let rhsValues := resolveAssignedValues v ref.writeExpr scan.assignedValuesMap ref.scope
      let redundant := match scan.assignedValuesMap.lookup v with
        | some (.assignedValues lhs) => lhs.card = 1 && checkRedundantAssignement context v lhs rhsValues
        | _ => false
      ⟨scan.assignedValuesMap.insert v rhsValues,
        if redundant then scan.reported ++ [ref] else scan.reported⟩

def checkSegment (defs : ReachingDefinitions) : List Reference :=
  (defs.references.foldl (checkReference context) ⟨defs.inMap, []⟩).reported

/-! ### Executions -/

/-- The innermost variable of that name, at any depth. -/
def resolve (scope : Scope) (name : String) : Option Variable :=
  scope.chain.findSome? fun vars => vars.find? (·.name = name)

/-- The write stores the value of `writeExpr` itself, whenever it is executed. -/
def isPlain (ref : Reference) : Bool :=
  !ref.isPartial && !isCompoundAssignment ref.writeExpr && !isDefaultParameter ref

/-- What a write stores. -/
def stored (ref : Reference) : Effect :=
  if isPlain ref then
    match ref.writeExpr with
    | some ⟨.literal (some raw), _⟩ => .literal raw
    | some ⟨.identifier name, _⟩ =>
      match resolve ref.scope name with
      | some v => .copy v
      | none => .unknown
    | _ => .unknown
  else .unknown

variable {D : Type} (literal : LiteralValue → D)

/-- `d` is a value that the write may store: a value it does not know about is any value. -/
def Stores (ref : Reference) (ρ : Variable → D) (d : D) : Prop :=
  match stored ref with
  | .literal raw => d = literal raw
  | .copy v => d = ρ v
  | .unknown => True

/-- Evaluating one reference. -/
def Step (ref : Reference) (ρ ρ' : Variable → D) : Prop :=
  match ref.effect? with
  | none => ρ' = ρ
  | some (v, _) => ∃ d, Stores literal ref ρ d ∧ ρ' = Function.update ρ v d

/-- Evaluating references one after the other. -/
def Exec : List Reference → (Variable → D) → (Variable → D) → Prop
  | [], ρ, ρ' => ρ' = ρ
  | ref :: l, ρ, ρ'' => ∃ ρ', Step literal ref ρ ρ' ∧ Exec l ρ' ρ''

/-- Some reference of the list writes `v`. -/
def Written (l : List Reference) (v : Variable) : Prop := ∃ ref ∈ l, ref.Writes v

/-- `path` leads from `initial` to `s`, which is not part of it. -/
def PathTo (g : SegmentGraph) (initial : SegmentId) (path : List SegmentId) (s : SegmentId) : Prop :=
  g.IsPath (path ++ [s]) ∧ (path ++ [s]).head? = some initial

/-- The references evaluated along a path. -/
def pathReferences (refs : SegmentId → List Reference) (path : List SegmentId) : List Reference :=
  path.flatMap fun s => (ofReferences (refs s)).references

variable {context literal}

theorem exec_append {l l' : List Reference} {ρ ρ' : Variable → D} :
    Exec literal (l ++ l') ρ ρ' ↔ ∃ ρ₁, Exec literal l ρ ρ₁ ∧ Exec literal l' ρ₁ ρ' := by
  induction l generalizing ρ with
  | nil => simp [Exec]
  | cons ref l ih =>
    constructor
    · rintro ⟨ρ₁, hstep, h⟩
      obtain ⟨ρ₂, h, h'⟩ := ih.mp h
      exact ⟨ρ₂, ⟨ρ₁, hstep, h⟩, h'⟩
    · rintro ⟨ρ₂, ⟨ρ₁, hstep, h⟩, h'⟩
      exact ⟨ρ₁, hstep, ih.mpr ⟨ρ₂, h, h'⟩⟩

theorem exists_stores (literal : LiteralValue → D) (ref : Reference) (ρ : Variable → D) (d : D) :
    ∃ d, Stores literal ref ρ d := by
  unfold Stores
  cases stored ref with
  | literal raw => exact ⟨_, rfl⟩
  | copy v => exact ⟨_, rfl⟩
  | unknown => exact ⟨d, trivial⟩

theorem exists_exec (literal : LiteralValue → D) (l : List Reference) (ρ : Variable → D) :
    ∃ ρ', Exec literal l ρ ρ' := by
  induction l generalizing ρ with
  | nil => exact ⟨ρ, rfl⟩
  | cons ref l ih =>
    have hstep : ∃ ρ', Step literal ref ρ ρ' := by
      unfold Step
      cases ref.effect? with
      | none => exact ⟨ρ, rfl⟩
      | some effect =>
        obtain ⟨d, hd⟩ := exists_stores literal ref ρ (ρ effect.1)
        exact ⟨_, d, hd, rfl⟩
    obtain ⟨ρ₁, hstep⟩ := hstep
    obtain ⟨ρ', h⟩ := ih ρ₁
    exact ⟨ρ', ρ₁, hstep, h⟩

theorem step_of_not_writes {ref : Reference} {ρ ρ' : Variable → D} {v : Variable}
    (h : Step literal ref ρ ρ') (hnot : ¬ ref.Writes v) : ρ' v = ρ v := by
  unfold Step at h
  cases he : ref.effect? with
  | none => rw [he] at h; exact congrFun h v
  | some effect =>
    rw [he] at h
    obtain ⟨d, -, rfl⟩ := h
    refine Function.update_of_ne (fun hv => hnot ?_) _ _
    rw [hv]
    exact (Reference.writes_of_effect? he).1

theorem step_of_writes {ref : Reference} {ρ ρ' : Variable → D} {v : Variable}
    (h : Step literal ref ρ ρ') (hw : ref.Writes v) : Stores literal ref ρ (ρ' v) := by
  unfold Step at h
  rw [Reference.writes_iff.mp hw] at h
  obtain ⟨d, hd, rfl⟩ := h
  rwa [Function.update_self]

theorem exec_of_not_written {l : List Reference} {ρ ρ' : Variable → D} {v : Variable}
    (h : Exec literal l ρ ρ') (hnot : ¬ Written l v) : ρ' v = ρ v := by
  induction l generalizing ρ with
  | nil => exact congrFun h v
  | cons ref l ih =>
    obtain ⟨ρ₁, hstep, h⟩ := h
    rw [ih h fun ⟨r, hr, hw⟩ => hnot ⟨r, List.mem_cons_of_mem _ hr, hw⟩]
    exact step_of_not_writes hstep fun hw => hnot ⟨ref, List.mem_cons_self, hw⟩

/-! ### What the analysis reads correctly -/

/-- What is known describes the value. -/
def Describes (literal : LiteralValue → D) (x : Known LiteralValue) (d : D) : Prop :=
  x = ⊤ ∨ ∃ values, x = .oneOf values ∧ ∃ raw ∈ values, d = literal raw

theorem describes_top {d : D} : Describes literal ⊤ d := Or.inl rfl

theorem describes_singleton {raw : LiteralValue} {d : D} :
    Describes literal (.oneOf {raw}) d ↔ d = literal raw := by
  constructor
  · rintro (h | ⟨values, h, raw', hmem, hd⟩)
    · exact absurd h Known.oneOf_ne_top
    · rw [← Known.oneOf_injective h, Finset.mem_singleton] at hmem
      rw [hd, hmem]
  · exact fun h => Or.inr ⟨_, rfl, raw, Finset.mem_singleton_self raw, h⟩

theorem Describes.mono {x y : Known LiteralValue} {d : D} (h : Describes literal x d) (hle : x ≤ y) :
    Describes literal y d := by
  rcases h with rfl | ⟨values, rfl, raw, hmem, hd⟩
  · exact Or.inl (top_le_iff.mp hle)
  · rcases Known.cases y with rfl | ⟨values', rfl⟩ | rfl
    · exact absurd (le_bot_iff.mp hle) Known.oneOf_ne_bot
    · exact Or.inr ⟨values', rfl, raw, Known.oneOf_le_oneOf.mp hle hmem, hd⟩
    · exact describes_top

/-- The identifier that the code finds, in the scope or its upper scope, is the one it means. -/
theorem resolve_of_getVariableFromIdentifier {name : String} {scope : Scope} {v : Variable}
    (h : getVariableFromIdentifier name scope = some v) : resolve scope name = some v := by
  obtain ⟨_ | ⟨vars, _ | ⟨upper, rest⟩⟩⟩ := scope
  · simp [getVariableFromIdentifier, Scope.vars, Scope.upper] at h
  · unfold getVariableFromIdentifier at h
    unfold resolve
    cases hf : vars.find? (·.name = name) with
    | none => simp [Scope.vars, Scope.upper, hf] at h
    | some w => simpa [Scope.vars, Scope.upper, hf] using h
  · unfold getVariableFromIdentifier at h
    unfold resolve
    cases hf : vars.find? (·.name = name) with
    | none =>
      simp only [Scope.vars, Scope.upper, List.headD_cons, hf] at h
      simp [hf, h]
    | some w => simpa [Scope.vars, Scope.upper, hf] using h

theorem stored_of_effect {ref : Reference} {v : Variable} {e : Effect} (hplain : isPlain ref = true)
    (he : ref.effect? = some (v, e)) (hne : e ≠ .unknown) : stored ref = e := by
  obtain ⟨-, rfl⟩ := Reference.writes_of_effect? he
  unfold stored
  rw [if_pos hplain]
  rcases hw : ref.writeExpr with _ | ⟨type, parent⟩
  · exact absurd (by rw [hw]; rfl) hne
  rw [hw] at hne
  cases type with
  | literal raw =>
    cases raw with
    | none => exact absurd rfl hne
    | some raw =>
      simp only [effect] at hne ⊢
      split_ifs at hne ⊢
      · exact absurd rfl hne
      · rfl
  | identifier name =>
    cases hv : getVariableFromIdentifier name ref.scope with
    | none => exact absurd (by simp only [effect, hv]) hne
    | some resolvedVar =>
      simp only [effect, hv, resolve_of_getVariableFromIdentifier hv] at hne ⊢
      split_ifs at hne ⊢
      · rfl
      · exact absurd rfl hne
  | other => exact absurd rfl hne

/-- One step: the analysis goes on describing `v` when it reads the write of `v` correctly. -/
theorem describes_apply {ref : Reference} {σ : KnownState} {ρ ρ' : Variable → D} {v : Variable}
    (hstep : Step literal ref ρ ρ')
    (hplain : ∀ e, ref.effect? = some (v, e) → e ≠ .unknown → isPlain ref = true)
    (hcopy : ∀ y, ref.effect? = some (v, .copy y) → σ y = ⊥ ∨ Describes literal (σ y) (ρ y))
    (hold : ¬ ref.Writes v → Describes literal (σ v) (ρ v)) :
    Describes literal (ref.apply σ v) (ρ' v) := by
  by_cases hw : ref.Writes v
  · have he := Reference.writes_iff.mp hw
    have hstored := step_of_writes hstep hw
    unfold Reference.apply
    rw [he]
    dsimp only
    rw [Function.update_self]
    cases hcase : effect v ref.writeExpr ref.scope with
    | unknown => exact describes_top
    | literal raw =>
      rw [hcase] at he
      unfold Stores at hstored
      rw [stored_of_effect (hplain _ he (by simp)) he (by simp)] at hstored
      exact describes_singleton.mpr hstored
    | copy y =>
      rw [hcase] at he
      unfold Stores at hstored
      rw [stored_of_effect (hplain _ he (by simp)) he (by simp)] at hstored
      rw [Effect.value_copy]
      split_ifs with hbot
      · exact describes_top
      · exact hstored ▸ (hcopy y he).resolve_left hbot
  · have happly : ref.apply σ v = σ v := by
      unfold Reference.apply
      cases he : ref.effect? with
      | none => rfl
      | some effect =>
        refine Function.update_of_ne (fun hv => hw ?_) _ _
        rw [hv]
        exact (Reference.writes_of_effect? he).1
    rw [happly, step_of_not_writes hstep hw]
    exact hold hw

/-! ### Tracked writes -/

section Tracked

variable (context) (g : SegmentGraph) (refs : SegmentId → List Reference)

/-- `ref` comes right after `before` in the references of `s`. -/
def At (s : SegmentId) (before : List Reference) (ref : Reference) : Prop :=
  ∃ after, (ofReferences (refs s)).references = before ++ ref :: after

/-- The place after `b` in `t` is the one after `before` in `s`, or may be executed before it. -/
def Precedes (s : SegmentId) (before : List Reference) (t : SegmentId) (b : List Reference) : Prop :=
  Relation.TransGen (fun p t => p ∈ g.prevSegments t) t s ∨ (t = s ∧ b.length ≤ before.length)

/-- `x` and the variables that are copied, directly or not, into it. -/
inductive Relevant (s : SegmentId) (before : List Reference) (x : Variable) : Variable → Prop
  | self : Relevant s before x x
  | copy {t : SegmentId} {b : List Reference} {ref : Reference} {v y : Variable} :
      At refs t b ref → Precedes g s before t b → ref.effect? = some (v, .copy y) →
      Relevant s before x v → Relevant s before x y

/-- The scan has skipped a write of `v` and not stored one since. -/
def Stale (l : List Reference) (v : Variable) : Prop :=
  ∃ b ref m, l = b ++ ref :: m ∧ ref.Writes v ∧ shouldReport context ref = false ∧
    ∀ r ∈ m, ¬ (r.Writes v ∧ shouldReport context r = true)

/-- What the report of the write of `x` after `before` in `s` relies on, for the variables relevant to it:
a write read as a literal or a copy is a plain one, a copied variable is written on every path to the
copy or nowhere before it, and the scan has not skipped the last write of a variable that it looks up. -/
structure Tracked (initial s : SegmentId) (before : List Reference) (x : Variable) : Prop where
  plain : ∀ t b ref v e, At refs t b ref → Precedes g s before t b → ref.effect? = some (v, e) →
    Relevant g refs s before x v → e ≠ .unknown → isPlain ref = true
  copied : ∀ t b ref v y, At refs t b ref → Precedes g s before t b → ref.effect? = some (v, .copy y) →
    Relevant g refs s before x v →
    (∀ path, PathTo g initial path t → Written (pathReferences refs path ++ b) y) ∨
      (¬ Written b y ∧ ¬ WrittenBefore g refs t y)
  fresh : ¬ Stale context before x ∧ ∀ b ref v y, At refs s b ref → b.length ≤ before.length →
    shouldReport context ref = true → ref.effect? = some (v, .copy y) →
    Relevant g refs s before x v → ¬ Stale context b y

end Tracked

theorem written_append {l l' : List Reference} {v : Variable} :
    Written (l ++ l') v ↔ Written l v ∨ Written l' v := by
  simp only [Written, List.mem_append, or_and_right, exists_or]

theorem written_singleton {ref : Reference} {v : Variable} : Written [ref] v ↔ ref.Writes v := by
  simp [Written]

theorem not_written_nil {v : Variable} : ¬ Written [] v := by simp [Written]

/-- The keys of a state are variables written in `b` or before the segment. -/
def KeysFrom (g : SegmentGraph) (refs : SegmentId → List Reference) (t : SegmentId) (b : List Reference)
    (σ : KnownState) : Prop :=
  ∀ v, σ v ≠ ⊥ → Written b v ∨ WrittenBefore g refs t v

theorem KeysFrom.apply {g : SegmentGraph} {refs : SegmentId → List Reference} {t : SegmentId}
    {b : List Reference} {σ : KnownState} (h : KeysFrom g refs t b σ) (ref : Reference) :
    KeysFrom g refs t (b ++ [ref]) (ref.apply σ) := by
  intro v hv
  rw [written_append, written_singleton]
  rcases Reference.apply_ne_bot.mp hv with hw | hne
  · exact Or.inl (Or.inr hw)
  · exact (h v hne).imp Or.inl id

/-! ### Along a path -/

section Soundness

variable {g : SegmentGraph} {refs : SegmentId → List Reference} {initial s t : SegmentId}
  {before : List Reference} {x : Variable} {path : List SegmentId}

/-- A copy that is tracked finds nothing or something that describes the copied variable. -/
theorem Tracked.copy_describes (htr : Tracked context g refs initial s before x) {b : List Reference}
    {ref : Reference} {v y : Variable} {σ : KnownState} {ρ : Variable → D} (hat : At refs t b ref)
    (hpre : Precedes g s before t b) (he : ref.effect? = some (v, .copy y))
    (hrel : Relevant g refs s before x v) (hpath : PathTo g initial path t) (hkeys : KeysFrom g refs t b σ)
    (hσ : Written (pathReferences refs path ++ b) y → Describes literal (σ y) (ρ y)) :
    σ y = ⊥ ∨ Describes literal (σ y) (ρ y) := by
  rcases htr.copied t b ref v y hat hpre he hrel with hw | ⟨hnot, hbefore⟩
  · exact Or.inr (hσ (hw path hpath))
  · exact Or.inl (by_contra fun hne => (hkeys y hne).elim hnot hbefore)

/-- The transfer function of a segment before `s` keeps the relevant variables described. -/
theorem Tracked.describes_transfer (htr : Tracked context g refs initial s before x)
    (ht : Relation.TransGen (fun p t => p ∈ g.prevSegments t) t s) (hpath : PathTo g initial path t)
    (l : List Reference) {b : List Reference} {σ : KnownState} {ρ ρ' : Variable → D}
    (hrefs : (ofReferences (refs t)).references = b ++ l) (hkeys : KeysFrom g refs t b σ)
    (hσ : ∀ v, Relevant g refs s before x v → Written (pathReferences refs path ++ b) v →
      Describes literal (σ v) (ρ v))
    (hexec : Exec literal l ρ ρ') {v : Variable} (hv : Relevant g refs s before x v)
    (hw : Written (pathReferences refs path ++ (b ++ l)) v) :
    Describes literal (transferAll l σ v) (ρ' v) := by
  induction l generalizing b σ ρ with
  | nil =>
    rw [List.append_nil] at hw
    have heq : ρ' = ρ := hexec
    exact heq ▸ hσ v hv hw
  | cons ref l ih =>
    obtain ⟨ρ₁, hstep, hexec⟩ := hexec
    have hat : At refs t b ref := ⟨l, hrefs⟩
    refine ih (b := b ++ [ref]) (by rw [hrefs, List.append_assoc]; rfl) (hkeys.apply ref) ?_ hexec
      (by rwa [List.append_assoc, List.singleton_append])
    intro w hrel hww
    refine describes_apply hstep (fun e he hne => htr.plain t b ref w e hat (Or.inl ht) he hrel hne)
      (fun y he => ?_) fun hnot => ?_
    · exact htr.copy_describes hat (Or.inl ht) he hrel hpath hkeys
        (hσ y (.copy hat (Or.inl ht) he hrel))
    · refine hσ w hrel ?_
      rw [← List.append_assoc, written_append, written_singleton] at hww
      exact hww.resolve_right hnot

theorem pathTo_append {p t : SegmentId} :
    PathTo g initial (path ++ [p]) t ↔ PathTo g initial path p ∧ t ∈ g.nextSegments p := by
  have hhead : (path ++ [p] ++ [t]).head? = (path ++ [p]).head? := by cases path <;> rfl
  unfold PathTo SegmentGraph.IsPath
  rw [hhead, List.isChain_append]
  simp
  tauto

theorem PathTo.mem_segments (hinit : initial ∈ g.segments) (h : PathTo g initial path t) :
    t ∈ g.segments := by
  obtain ⟨hpath, hhead⟩ := h
  cases path with
  | nil => exact Option.some.inj hhead ▸ hinit
  | cons p path =>
    obtain rfl : p = initial := Option.some.inj hhead
    exact g.mem_segments_of_isPath hinit hpath t (by simp)

theorem pathReferences_append (p : SegmentId) :
    pathReferences refs (path ++ [p]) = pathReferences refs path ++ (ofReferences (refs p)).references := by
  simp [pathReferences]

/-- On entry to a segment that leads to `s` the analysis describes the relevant variables that the path
has written. -/
theorem Tracked.describes_entry {g : ControlFlowGraph}
    (htr : Tracked context g.toSegmentGraph refs initial s before x) {k : ℕ}
    (hdone : ((reachingDefinitions g.toSegmentGraph).run k
      (reachingStart g.toSegmentGraph refs)).pending = [])
    (hinit : initial ∈ g.segments) (path : List SegmentId) {t : SegmentId} {ρ₀ ρ : Variable → D}
    (ht : Relation.ReflTransGen (fun p t => p ∈ g.prevSegments t) t s)
    (hpath : PathTo g.toSegmentGraph initial path t) (hexec : Exec literal (pathReferences refs path) ρ₀ ρ)
    {v : Variable} (hv : Relevant g.toSegmentGraph refs s before x v)
    (hw : Written (pathReferences refs path) v) :
    Describes literal (knownIn g.toSegmentGraph (reachingMap g.toSegmentGraph refs k) t v) (ρ v) := by
  induction path using List.reverseRecOn generalizing t ρ v with
  | nil => exact absurd hw not_written_nil
  | append_singleton path p ih =>
    have htmem := hpath.mem_segments hinit
    obtain ⟨hpath, hnext⟩ := pathTo_append.mp hpath
    have hpmem := hpath.mem_segments hinit
    have hprev := (g.mem_prev_iff p hpmem t htmem).mpr hnext
    rw [pathReferences_append] at hexec hw
    obtain ⟨ρ₁, hexec₁, hexec⟩ := exec_append.mp hexec
    have hp : Relation.TransGen (fun p t => p ∈ g.prevSegments t) p s := .head' hprev ht
    have hentry := fun v (hv : Relevant g.toSegmentGraph refs s before x v) hw =>
      ih hp.to_reflTransGen hpath hexec₁ hv hw
    have hkeys : KeysFrom g.toSegmentGraph refs p []
        (knownIn g.toSegmentGraph (reachingMap g.toSegmentGraph refs k) p) :=
      fun v hne => Or.inr ((keys_run g.toSegmentGraph refs k).writtenBefore hne)
    have hout := htr.describes_transfer hp hpath (ofReferences (refs p)).references rfl hkeys
      (fun v hv hw => hentry v hv (by rwa [List.append_nil] at hw)) hexec hv hw
    refine hout.mono ?_
    have hsettled := (reaching_fixpoint g refs hdone p hpmem).2
    rw [reachingMap, run_references] at hsettled
    rw [reachingMap, ← hsettled]
    exact out_le_knownIn hprev v

end Soundness

/-! ### The scan -/

/-- One reference of the scan, on what is known. -/
def scanApply (context : RuleContext) (σ : KnownState) (ref : Reference) : KnownState :=
  if shouldReport context ref = true then ref.apply σ else σ

/-- The scan reports `ref` when it finds this in its map. -/
def Redundant (context : RuleContext) (map : ProgramState) (ref : Reference) : Prop :=
  ∃ v raw, ref.Writes v ∧ shouldReport context ref = true ∧
    map.lookup v = some (.assignedValues {raw}) ∧
    resolveAssignedValues v ref.writeExpr map ref.scope = .assignedValues {raw}

theorem known_checkReference (scan : Scan) (ref : Reference) :
    known (checkReference context scan ref).assignedValuesMap =
      scanApply context (known scan.assignedValuesMap) ref := by
  unfold checkReference scanApply Reference.apply Reference.effect?
  cases ref.resolved with
  | none => dsimp only; split_ifs <;> rfl
  | some v =>
    cases ref.isWrite
    · simp only [true_or, if_true]
      split_ifs <;> rfl
    · cases shouldReport context ref
      · rfl
      · simp only [Bool.true_eq_false, or_self, if_false, if_true]
        rw [known_insert, known_resolveAssignedValues]

theorem reported_checkReference (scan : Scan) (ref : Reference) :
    (checkReference context scan ref).reported = scan.reported ∨
      ((checkReference context scan ref).reported = scan.reported ++ [ref] ∧
        Redundant context scan.assignedValuesMap ref) := by
  unfold checkReference
  cases hr : ref.resolved with
  | none => exact Or.inl rfl
  | some v =>
    dsimp only
    split_ifs with hskip hred
    · exact Or.inl rfl
    · refine Or.inr ⟨rfl, ?_⟩
      simp only [not_or, Bool.not_eq_false] at hskip
      cases hl : scan.assignedValuesMap.lookup v with
      | none => simp [hl] at hred
      | some lhsValues =>
        cases lhsValues with
        | unknownValue => simp [hl] at hred
        | assignedValues lhs =>
          cases hrhs : resolveAssignedValues v ref.writeExpr scan.assignedValuesMap ref.scope with
          | unknownValue => simp [hl, hrhs, checkRedundantAssignement] at hred
          | assignedValues rhs =>
            simp only [hl, hrhs, checkRedundantAssignement, Bool.and_eq_true, decide_eq_true_eq] at hred
            obtain ⟨hcard, -, rfl⟩ := hred
            obtain ⟨raw, rfl⟩ := Finset.card_eq_one.mp hcard
            exact ⟨v, raw, ⟨hr, hskip.1⟩, hskip.2, hl, hrhs⟩
    · exact Or.inl rfl

/-- What the scan knows before a reference that it reports. -/
theorem exists_redundant (l : List Reference) {scan : Scan} {ref : Reference}
    (h : ref ∈ (l.foldl (checkReference context) scan).reported) :
    ref ∈ scan.reported ∨ ∃ b after, l = b ++ ref :: after ∧
      Redundant context (b.foldl (checkReference context) scan).assignedValuesMap ref := by
  induction l generalizing scan with
  | nil => exact Or.inl h
  | cons r l ih =>
    rcases ih h with h | ⟨b, after, rfl, hred⟩
    · rcases reported_checkReference scan r with he | ⟨he, hred⟩
      · exact Or.inl (he ▸ h)
      · rw [he] at h
        rcases List.mem_append.mp h with h | h
        · exact Or.inl h
        · obtain rfl := List.mem_singleton.mp h
          exact Or.inr ⟨[], l, rfl, hred⟩
    · exact Or.inr ⟨r :: b, after, rfl, hred⟩

theorem known_foldl_checkReference (l : List Reference) (scan : Scan) :
    known (l.foldl (checkReference context) scan).assignedValuesMap =
      l.foldl (scanApply context) (known scan.assignedValuesMap) := by
  induction l generalizing scan with
  | nil => rfl
  | cons r l ih => rw [List.foldl_cons, List.foldl_cons, ih, known_checkReference]

theorem nodup_references (l : List Reference) : (ofReferences l).references.Nodup := by
  suffices h : ∀ (l : List Reference) (defs : ReachingDefinitions), defs.references.Nodup →
      (l.foldl ReachingDefinitions.add defs).references.Nodup from h l {} List.nodup_nil
  intro l
  induction l with
  | nil => exact fun _ h => h
  | cons r l ih =>
    intro defs h
    refine ih (defs.add r) ?_
    unfold ReachingDefinitions.add
    cases r.resolved with
    | none => exact h
    | some v =>
      dsimp only
      split_ifs with hmem
      · exact h
      · exact List.nodup_append.mpr ⟨h, List.nodup_singleton r, fun a ha b hb =>
          List.mem_singleton.mp hb ▸ fun he => hmem (he ▸ ha)⟩

theorem Stale.snoc {l : List Reference} {ref : Reference} {v : Variable} (h : Stale context l v)
    (hnot : ¬ (ref.Writes v ∧ shouldReport context ref = true)) : Stale context (l ++ [ref]) v := by
  obtain ⟨b, r, m, rfl, hw, hskip, hm⟩ := h
  refine ⟨b, r, m ++ [ref], by simp, hw, hskip, fun r' hr' => ?_⟩
  rcases List.mem_append.mp hr' with hr' | hr'
  · exact hm r' hr'
  · exact List.mem_singleton.mp hr' ▸ hnot

theorem KeysFrom.scanApply {g : SegmentGraph} {refs : SegmentId → List Reference} {t : SegmentId}
    {b : List Reference} {σ : KnownState} (h : KeysFrom g refs t b σ) (ref : Reference) :
    KeysFrom g refs t (b ++ [ref]) (scanApply context σ ref) := by
  unfold S4165.scanApply
  split_ifs
  · exact h.apply ref
  · exact fun v hne => (h v hne).imp (fun h => written_append.mpr (Or.inl h)) id

section ScanSoundness

variable {g : SegmentGraph} {refs : SegmentId → List Reference} {initial s : SegmentId}
  {before : List Reference} {x : Variable} {path : List SegmentId}

/-- The scan keeps describing the relevant variables that are not stale. -/
theorem Tracked.describes_scan (htr : Tracked context g refs initial s before x)
    (hpath : PathTo g initial path s) (l : List Reference) {b rest : List Reference} {σ : KnownState}
    {ρ ρ' : Variable → D} (hrefs : (ofReferences (refs s)).references = b ++ l ++ rest)
    (hlen : (b ++ l).length ≤ before.length) (hkeys : KeysFrom g refs s b σ)
    (hσ : ∀ v, Relevant g refs s before x v → ¬ Stale context b v →
      Written (pathReferences refs path ++ b) v → Describes literal (σ v) (ρ v))
    (hexec : Exec literal l ρ ρ') :
    KeysFrom g refs s (b ++ l) (l.foldl (scanApply context) σ) ∧
    ∀ v, Relevant g refs s before x v → ¬ Stale context (b ++ l) v →
      Written (pathReferences refs path ++ (b ++ l)) v →
      Describes literal (l.foldl (scanApply context) σ v) (ρ' v) := by
  induction l generalizing b σ ρ with
  | nil =>
    have heq : ρ' = ρ := hexec
    rw [List.append_nil, heq]
    exact ⟨hkeys, hσ⟩
  | cons ref l ih =>
    obtain ⟨ρ₁, hstep, hexec⟩ := hexec
    have hat : At refs s b ref := ⟨l ++ rest, by rw [hrefs]; simp⟩
    have hb : b.length ≤ before.length := by rw [List.length_append] at hlen; omega
    have hsplit : b ++ ref :: l = b ++ [ref] ++ l := by simp
    rw [hsplit] at hlen hrefs ⊢
    refine ih hrefs hlen (hkeys.scanApply ref) ?_ hexec
    intro v hrel hfresh hw
    -- a variable that is not stale after `ref`, and not written by it, was not stale before
    have hkeep : ¬ ref.Writes v → Describes literal (σ v) (ρ v) := fun hnot =>
      hσ v hrel (fun h => hfresh (h.snoc fun hw => hnot hw.1)) (by
        rw [← List.append_assoc, written_append, written_singleton] at hw
        exact hw.resolve_right hnot)
    unfold scanApply
    split_ifs with hreport
    · refine describes_apply hstep
        (fun e he hne => htr.plain s b ref v e hat (Or.inr ⟨rfl, hb⟩) he hrel hne) (fun y he => ?_) hkeep
      exact htr.copy_describes hat (Or.inr ⟨rfl, hb⟩) he hrel hpath hkeys
        (hσ y (.copy hat (Or.inr ⟨rfl, hb⟩) he hrel) (htr.fresh.2 b ref v y hat hb hreport he hrel))
    · have hnot : ¬ ref.Writes v := fun hw =>
        hfresh ⟨b, ref, [], rfl, hw, Bool.not_eq_true _ ▸ hreport, by simp⟩
      rw [step_of_not_writes hstep hnot]
      exact hkeep hnot

/-- What a tracked write stores when the analysis knows a single literal for it. -/
theorem Tracked.eq_literal_of_stores (htr : Tracked context g refs initial s before x) {ref : Reference}
    {σ : KnownState} {ρ : Variable → D} {d : D} {raw : LiteralValue} (hat : At refs s before ref)
    (hw : ref.Writes x) (hreport : shouldReport context ref = true) (hpath : PathTo g initial path s)
    (hkeys : KeysFrom g refs s before σ)
    (hσ : ∀ v, Relevant g refs s before x v → ¬ Stale context before v →
      Written (pathReferences refs path ++ before) v → Describes literal (σ v) (ρ v))
    (hvalue : (effect x ref.writeExpr ref.scope).value σ = .oneOf {raw}) (hd : Stores literal ref ρ d) :
    d = literal raw := by
  have he := Reference.writes_iff.mp hw
  have hpre : Precedes g s before s before := Or.inr ⟨rfl, le_rfl⟩
  have hplain := fun hne => htr.plain s before ref x _ hat hpre he .self hne
  cases hcase : effect x ref.writeExpr ref.scope with
  | unknown =>
    rw [hcase] at hvalue
    exact absurd hvalue.symm Known.oneOf_ne_top
  | literal raw' =>
    rw [hcase] at he hplain hvalue
    unfold Stores at hd
    rw [stored_of_effect (hplain (by simp)) he (by simp)] at hd
    rw [hd, Finset.singleton_injective (Known.oneOf_injective hvalue)]
  | copy y =>
    rw [hcase] at he hplain hvalue
    unfold Stores at hd
    rw [stored_of_effect (hplain (by simp)) he (by simp)] at hd
    rw [Effect.value_copy] at hvalue
    split_ifs at hvalue with hbot
    · exact absurd hvalue.symm Known.oneOf_ne_top
    · have hy := (htr.copy_describes hat hpre he .self hpath hkeys (hσ y (.copy hat hpre he .self)
        (htr.fresh.2 before ref x y hat le_rfl hreport he .self))).resolve_left hbot
      rw [hvalue, describes_singleton] at hy
      rw [hd, hy]

end ScanSoundness

/-- **What a report means.** When the writes that matter to it are tracked, a reported write is redundant
on every path from the initial segment exactly when every path writes the variable before it. -/
theorem report_sound_iff (context : RuleContext) (g : ControlFlowGraph) (refs : SegmentId → List Reference)
    {k : ℕ} (hdone : ((reachingDefinitions g.toSegmentGraph).run k
      (reachingStart g.toSegmentGraph refs)).pending = [])
    {initial s : SegmentId} (hinit : initial ∈ g.segments) (hs : s ∈ g.segments)
    {before after : List Reference} {ref : Reference} {x : Variable}
    (hrefs : (reachingMap g.toSegmentGraph refs k s).references = before ++ ref :: after)
    (hreport : ref ∈ checkSegment context (reachingMap g.toSegmentGraph refs k s))
    (hx : ref.resolved = some x) (htr : Tracked context g.toSegmentGraph refs initial s before x) :
    (∀ (D : Type) (literal : LiteralValue → D) (path : List SegmentId) (ρ₀ ρ : Variable → D) (d : D),
        PathTo g.toSegmentGraph initial path s →
        Exec literal (pathReferences refs path ++ before) ρ₀ ρ → Stores literal ref ρ d → ρ x = d) ↔
      ∀ path, PathTo g.toSegmentGraph initial path s → Written (pathReferences refs path ++ before) x := by
  have hseg : (ofReferences (refs s)).references = before ++ ref :: after := by
    rw [← hrefs, reachingMap, run_references]
  -- the scan has met `ref` once, after `before`
  obtain ⟨v, raw, hw, hshould, hlookup, hresolve⟩ :
      Redundant context (before.foldl (checkReference context)
        ⟨(reachingMap g.toSegmentGraph refs k s).inMap, []⟩).assignedValuesMap ref := by
    rcases exists_redundant _ hreport with h | ⟨b, after', hb, h⟩
    · exact absurd h List.not_mem_nil
    · have hnodup := nodup_references (refs s)
      rw [hrefs] at hb
      rw [hseg, hb] at hnodup
      obtain ⟨-, hcons, hdisjoint⟩ := List.nodup_append.mp hnodup
      have hnotMem : ref ∉ b := fun h => hdisjoint ref h ref List.mem_cons_self rfl
      rw [((List.append_cons_inj_of_notMem hnotMem (List.nodup_cons.mp hcons).1).mp hb.symm).1] at h
      exact h
  obtain rfl : v = x := Option.some.inj (hw.1.symm.trans hx)
  have hknown : known (before.foldl (checkReference context)
      ⟨(reachingMap g.toSegmentGraph refs k s).inMap, []⟩).assignedValuesMap =
      before.foldl (scanApply context) (knownIn g.toSegmentGraph (reachingMap g.toSegmentGraph refs k) s) := by
    rw [known_foldl_checkReference]
    exact congrArg (fun σ => before.foldl (scanApply context) σ) (reaching_fixpoint g refs hdone s hs).1
  have hlhs := known_of_lookup hlookup
  have hrhs := congrArg Values.known hresolve
  rw [known_resolveAssignedValues, hknown] at hrhs
  rw [hknown] at hlhs
  have hat : At refs s before ref := ⟨after, hseg⟩
  -- on every path the scan describes the relevant variables
  have hscan : ∀ {D : Type} {literal : LiteralValue → D} {path : List SegmentId} {ρ₀ ρ : Variable → D},
      PathTo g.toSegmentGraph initial path s → Exec literal (pathReferences refs path ++ before) ρ₀ ρ →
      (Written (pathReferences refs path ++ before) v → ρ v = literal raw) ∧
        ∀ d, Stores literal ref ρ d → d = literal raw := by
    intro D literal path ρ₀ ρ hpath hexec
    obtain ⟨ρ₁, hexec₁, hexec⟩ := exec_append.mp hexec
    obtain ⟨hkeys, hσ⟩ := htr.describes_scan (b := []) hpath before hseg le_rfl
      (fun w hne => Or.inr ((keys_run g.toSegmentGraph refs k).writtenBefore hne))
      (fun w hrel _ hww => htr.describes_entry hdone hinit path .refl hpath hexec₁ hrel
        (by rwa [List.append_nil] at hww)) hexec
    refine ⟨fun hww => ?_, fun d hd => htr.eq_literal_of_stores hat hw hshould hpath hkeys hσ hrhs hd⟩
    have := hσ v .self htr.fresh.1 hww
    rw [hlhs] at this
    exact describes_singleton.mp this
  constructor
  · intro hsound path hpath
    by_contra hnot
    -- on a path that does not write it, the variable may hold anything, say no literal at all
    obtain ⟨ρ, hexec⟩ := exists_exec some (pathReferences refs path ++ before) fun _ => none
    obtain ⟨d, hd⟩ := exists_stores some ref ρ none
    have hnone : ρ v = none := exec_of_not_written hexec hnot
    have := hsound _ some path _ ρ d hpath hexec hd
    rw [hnone, (hscan hpath hexec).2 d hd] at this
    cases this
  · intro hwritten D literal path ρ₀ ρ d hpath hexec hd
    rw [(hscan hpath hexec).1 (hwritten path hpath), (hscan hpath hexec).2 d hd]

/-! ### One function body -/

/-- `function f() { … }` with no branches: the code path has one segment. -/
def bodyGraph : ControlFlowGraph where
  segments := ["s2_1"]
  nextSegments _ := []
  prevSegments _ := []
  next_mem := by decide
  prev_mem := by decide
  mem_prev_iff := by decide

def bodyX : Variable := ⟨1, "x", [⟨.variable, true⟩]⟩

def bodyScope : Scope := ⟨[[⟨0, "arguments", []⟩, bodyX], []]⟩

/-- `let x = 1` -/
def declareX : Reference :=
  ⟨0, some bodyX, false, true, some ⟨.literal (some "1"), some .other⟩, false, bodyScope, true, some .other⟩

/-- `x += 2` -/
def addX : Reference :=
  ⟨1, some bodyX, true, true, some ⟨.literal (some "2"), some (.assignmentExpression "+=")⟩, false,
    bodyScope, true, some (.assignmentExpression "+=")⟩

/-- `x = 1` -/
def assignX : Reference :=
  ⟨2, some bodyX, false, true, some ⟨.literal (some "1"), some (.assignmentExpression "=")⟩, false,
    bodyScope, true, some (.assignmentExpression "=")⟩

def bodyContext (l : List Reference) : RuleContext := ⟨fun _ => l, fun _ => {"s2"}⟩

def bodyReferences (l : List Reference) (s : SegmentId) : List Reference := if s = "s2_1" then l else []

theorem At.mem {refs : SegmentId → List Reference} {s : SegmentId} {b : List Reference} {ref : Reference}
    (h : At refs s b ref) : ref ∈ refs s := by
  obtain ⟨after, h⟩ := h
  exact mem_of_mem_references _ (by rw [h]; simp)

theorem mem_of_at_body {l : List Reference} {s : SegmentId} {b : List Reference} {ref : Reference}
    (h : At (bodyReferences l) s b ref) : ref ∈ l := by
  have hmem := h.mem
  unfold bodyReferences at hmem
  split_ifs at hmem
  · exact hmem
  · exact absurd hmem List.not_mem_nil

/-- `let x = 1; x = 1;` is reported, and rightly so. -/
theorem report_sound_iff_body :
    assignX ∈ checkSegment (bodyContext [declareX, assignX])
      (reachingMap bodyGraph.toSegmentGraph (bodyReferences [declareX, assignX]) 1 "s2_1") ∧
    ∀ (D : Type) (literal : LiteralValue → D) (path : List SegmentId) (ρ₀ ρ : Variable → D) (d : D),
      PathTo bodyGraph.toSegmentGraph "s2_1" path "s2_1" →
      Exec literal (pathReferences (bodyReferences [declareX, assignX]) path ++ [declareX]) ρ₀ ρ →
      Stores literal assignX ρ d → ρ bodyX = d := by
  have hcopy : ∀ ref ∈ [declareX, assignX], ∀ v y, ref.effect? ≠ some (v, .copy y) := by
    simp [declareX, assignX, Reference.effect?, effect]
  have hfresh : ¬ Stale (bodyContext [declareX, assignX]) [declareX] bodyX := by
    rintro ⟨b, r, m, hsplit, -, hskip, -⟩
    have hr : r ∈ [declareX] := by rw [hsplit]; simp
    rw [List.mem_singleton.mp hr] at hskip
    exact absurd hskip (by decide)
  have hdone : ((reachingDefinitions bodyGraph.toSegmentGraph).run 1
      (reachingStart bodyGraph.toSegmentGraph (bodyReferences [declareX, assignX]))).pending = [] := by decide
  have hsplit : (reachingMap bodyGraph.toSegmentGraph (bodyReferences [declareX, assignX]) 1
      "s2_1").references = [declareX] ++ assignX :: [] := by decide
  have hreported : assignX ∈ checkSegment (bodyContext [declareX, assignX])
      (reachingMap bodyGraph.toSegmentGraph (bodyReferences [declareX, assignX]) 1 "s2_1") := by decide
  refine ⟨hreported, (report_sound_iff (bodyContext [declareX, assignX]) bodyGraph
    (bodyReferences [declareX, assignX]) hdone (by decide) (by decide) hsplit hreported rfl
    { plain := fun t b ref v e hat _ _ _ _ =>
        (by decide : ∀ ref ∈ [declareX, assignX], isPlain ref = true) ref (mem_of_at_body hat)
      copied := fun t b ref v y hat _ he _ => absurd he (hcopy ref (mem_of_at_body hat) v y)
      fresh := ⟨hfresh, fun b ref v y hat _ _ he _ => absurd he (hcopy ref (mem_of_at_body hat) v y)⟩ }).mpr
    fun path _ => ⟨declareX, by simp, by decide⟩⟩

/-- `let x = 1; x += 2; x = 1;`: the last write is reported, and it changes `x` from 3 to 1. -/
theorem report_after_compound :
    ((reachingDefinitions bodyGraph.toSegmentGraph).run 1
      (reachingStart bodyGraph.toSegmentGraph (bodyReferences [declareX, addX, assignX]))).pending = [] ∧
    assignX ∈ checkSegment (bodyContext [declareX, addX, assignX])
      (reachingMap bodyGraph.toSegmentGraph (bodyReferences [declareX, addX, assignX]) 1 "s2_1") ∧
    ¬ ∀ (D : Type) (literal : LiteralValue → D) (path : List SegmentId) (ρ₀ ρ : Variable → D) (d : D),
      PathTo bodyGraph.toSegmentGraph "s2_1" path "s2_1" →
      Exec literal (pathReferences (bodyReferences [declareX, addX, assignX]) path ++ [declareX, addX]) ρ₀ ρ →
      Stores literal assignX ρ d → ρ bodyX = d := by
  refine ⟨by decide, by decide, fun h => ?_⟩
  have := h ℕ (fun raw => if raw = "1" then 1 else 2) [] (fun _ => 0) (fun v => if v = bodyX then 3 else 0) 1
    ⟨by simp [SegmentGraph.IsPath], rfl⟩
    ⟨fun v => if v = bodyX then 1 else 0, ⟨1, rfl, ?_⟩, _, ⟨3, trivial, ?_⟩, rfl⟩ rfl
  · simp at this
  · funext v
    by_cases hv : v = bodyX <;> simp [hv, Function.update]
  · funext v
    by_cases hv : v = bodyX <;> simp [hv, Function.update]

end SonarJavascript.Rules.S4165
