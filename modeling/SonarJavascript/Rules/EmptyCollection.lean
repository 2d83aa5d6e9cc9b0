import Mathlib.Data.List.Basic
import Mathlib.Logic.Function.Basic
import SonarJavascript.Helpers.Collection
import SonarJavascript.Lib.Runs

/-!
# Uses of empty collections (S4158)

The rule reports the uses of a variable whose references, by the nodes above them, all assign an empty
collection or only read. A run follows the sizes of the objects, the bindings of the variable, and which
objects are held elsewhere. A collection that the variable holds is its own and empty in every state
(`reported_empty`), if no reference is of one of the kinds that the rule takes for a read although it writes
or hands the collection on.
-/

namespace SonarJavascript.Rules.EmptyCollection

open Helpers.Collection

/-! ### The rule -/

def nonAdditiveMutatorMethods : List String := ["copyWithin", "pop", "reverse", "shift", "sort", "clear", "delete"]

def accessorMethods : List String :=
  ["concat", "flat", "flatMap", "includes", "indexOf", "join", "lastIndexOf", "slice", "toSource", "toString",
    "toLocaleString", "get", "has"]

def iterationMethods : List String :=
  ["entries", "every", "filter", "find", "findIndex", "forEach", "keys", "map", "reduce", "reduceRight", "some",
    "values"]

def strictlyReadingMethods : List String :=
  nonAdditiveMutatorMethods ++ accessorMethods ++ iterationMethods

def isEmptyCollectionType : Init → Bool
  | .ArrayExpression elements => elements = 0
  | .construct callee _ arguments => callee ∈ collectionConstructor ∧ arguments = 0
  | .other _ => false

def isReferenceAssigningEmptyCollection (path : List Frame) : Bool :=
  isReferenceAssigning isEmptyCollectionType path

/-- The callee and the arguments have the call for parent. -/
def isCallExpression : Frame → Bool
  | .callee type => type = "CallExpression"
  | .callArgument => true
  | _ => false

def isStrictlyReadingMethodCall (path : List Frame) : Bool :=
  match path with
  | .memberObject (some property) _ :: parent :: _ => isCallExpression parent ∧ property ∈ strictlyReadingMethods
  | .memberProperty property :: parent :: _ => isCallExpression parent ∧ property ∈ strictlyReadingMethods
  | _ => false

def isForStatement : Frame → Bool
  | .forLeft | .forRight | .forBody => true
  | _ => false

/-- The right side of the statement is the reference when it is the first ancestor. -/
def isForIterationPattern (path : List Frame) : Bool :=
  path.find? isForStatement = some .forRight ∧ path.head? = some .forRight

def isAssignmentExpression : Frame → Bool
  | .assignmentLeft .. | .assignmentRight _ => true
  | _ => false

/-- Of the member expression with these ancestors. -/
def isElementWrite (ancestors : List Frame) : Bool :=
  match ancestors.find? isAssignmentExpression with
  | some (.assignmentLeft operator _) => operator = "="
  | _ => false

def isElementRead (path : List Frame) : Bool :=
  match path with
  | .memberObject _ computed :: rest => computed ∧ !isElementWrite rest
  | .memberProperty _ :: rest => !isElementWrite rest
  | _ => false

def isReadingCollectionUsage (path : List Frame) : Bool :=
  isStrictlyReadingMethodCall path ∨ isForIterationPattern path ∨ isElementRead path

/-- The loop over the references: none when it returns, else `readingUsages` and
`hasAssignmentOfEmptyCollection`. -/
def classify : List Reference → List Reference → Bool → Option (List Reference × Bool)
  | [], readingUsages, hasAssignment => some (readingUsages, hasAssignment)
  | ref :: refs, readingUsages, hasAssignment =>
    if ref.flag = .write then
      if isReferenceAssigningEmptyCollection ref.path then classify refs readingUsages true else none
    else if isReadingCollectionUsage ref.path then classify refs (readingUsages ++ [ref]) hasAssignment
    else none

def reportEmptyCollectionUsage (x : Variable) : List Reference :=
  if x.references.length ≤ 1 then []
  else if x.defs.any fun d => d.type = "Parameter" ∨ d.type = "ImportBinding" then []
  else
    match classify x.references [] false with
    | some (readingUsages, true) => readingUsages
    | _ => []

mutual

/-- The reported references with their variables. -/
def reportEmptyCollectionsUsage : Scope → List (Variable × Reference)
  | .mk type vars childScopes =>
    (if type ≠ "global" then vars.flatMap fun x => (reportEmptyCollectionUsage x).map (x, ·) else []) ++
      reportChildScopes childScopes

def reportChildScopes : List Scope → List (Variable × Reference)
  | [] => []
  | scope :: rest => reportEmptyCollectionsUsage scope ++ reportChildScopes rest

end

/-! ### Runs -/

/-- A collection object, or any other value. -/
inductive Value
  | collection (n : ℕ)
  | other
  deriving DecidableEq

/-- The sizes of the collections, the bindings of the variable, the collections that anything else holds, and
those that are values of expressions, with the nodes above the expression. -/
structure State where
  size : ℕ → ℕ
  holds : ℕ → Value
  elsewhere : ℕ → Prop
  pending : List (ℕ × List Frame)

/-- The variable or an expression holds it. -/
def State.Held (s : State) (n : ℕ) : Prop :=
  (∃ i, s.holds i = .collection n) ∨ ∃ path, (n, path) ∈ s.pending

def State.Fresh (s : State) (n : ℕ) : Prop :=
  ¬ s.elsewhere n ∧ ¬ s.Held n

def State.evaluate (s : State) (v : Value) (path : List Frame) : State :=
  match v with
  | .collection n => { s with pending := (n, path) :: s.pending }
  | .other => s

/-- The assigned value is the value of the assignment. -/
def State.assign (s : State) (path : List Frame) (i : ℕ) (v : Value) : State :=
  let assigned := { s with holds := Function.update s.holds i v }
  match path with
  | .assignmentLeft _ _ :: rest => assigned.evaluate v rest
  | _ => assigned

/-- The value of an initialiser or right side. -/
def Creates (s : State) (v : Value) : Init → Prop
  | .ArrayExpression elements => ∀ n, v = .collection n → s.Fresh n ∧ s.size n = elements
  | .construct callee true arguments =>
    callee ∈ collectionConstructor → ∀ n, v = .collection n → s.Fresh n ∧ (arguments = 0 → s.size n = 0)
  | _ => True

def Assigned (s : State) (v : Value) (path : List Frame) : Prop :=
  match initOf path with
  | some init => Creates s v init
  | none => True

/-- Methods that return the collection. -/
def returningMethods : List String := ["copyWithin", "reverse", "sort"]

/-- Nodes that test their operand or make a primitive value of it. -/
def testingNodes : List String :=
  ["IfStatement", "WhileStatement", "DoWhileStatement", "ForStatement", "SwitchStatement", "UnaryExpression"]

def isTaggedTemplate : Frame → Bool
  | .other type => type = "TaggedTemplateExpression"
  | _ => false

/-- A member expression with these ancestors is called with its object as receiver, perhaps as a tag: the ancestors of
the call. -/
def call : List Frame → Option (List Frame)
  | .transparent _ :: rest => call rest
  | .callee type :: rest => if type = "NewExpression" then none else some rest
  | frame :: rest => if isTaggedTemplate frame then some rest else none
  | [] => none

/-- A member expression with these ancestors is written to, as a whole or as part of a pattern. -/
def isTarget : List Frame → Bool
  | .transparent _ :: rest | .patternPart _ :: rest => isTarget rest
  | .assignmentLeft .. :: _ | .updateArgument :: _ | .forLeft :: _ => true
  | _ => false

/-- What the nodes above an expression do with the collection that is its value: they read it, they read it and
its value is theirs, or anything else. -/
inductive Effect
  | reads
  | passes (path : List Frame)
  | unknown
  deriving DecidableEq

def methodEffect (property : Option String) (computed : Bool) (path : List Frame) : Effect :=
  match property with
  | some method =>
    if computed then .unknown
    else if method ∈ returningMethods then .passes path
    else if method ∈ strictlyReadingMethods then .reads
    else .unknown
  | none => .unknown

def effect : List Frame → Effect
  | .ExpressionStatement :: _ | .forRight :: _ | .memberProperty _ :: _ => .reads
  -- `instanceof` calls a method of its right side with the left one.
  | .binaryOperand operator :: _ => if operator = "instanceof" then .unknown else .reads
  | .other type :: rest =>
    -- A tag gets the values of the template.
    if type = "TemplateLiteral" then if rest.head?.any isTaggedTemplate then .unknown else .reads
    else if type ∈ testingNodes then .reads
    else .unknown
  | .transparent _ :: rest => .passes rest
  | .memberObject property computed :: rest =>
    if isTarget rest then .unknown
    else
      match call rest with
      | some path => methodEffect property computed path
      | none => .reads
  | _ => .unknown

/-- Only the collection changes. -/
structure Touches (s : State) (n : ℕ) (s' : State) : Prop where
  holds_eq : s'.holds = s.holds
  size_eq : ∀ m, m ≠ n → s'.size m = s.size m
  elsewhere_iff : ∀ m, m ≠ n → (s'.elsewhere m ↔ s.elsewhere m)

/-- Nothing is added, and a callback gets the collection only with an element. -/
structure Reads (s : State) (n : ℕ) (s' : State) : Prop extends Touches s n s' where
  size_le : s'.size n ≤ s.size n
  callback : s.size n = 0 → (s'.elsewhere n ↔ s.elsewhere n)

def Acts (s : State) (n : ℕ) (s' : State) : Effect → Prop
  | .reads => Reads s n s' ∧ s'.pending = s.pending
  | .passes path => Reads s n s' ∧ s'.pending = (n, path) :: s.pending
  | .unknown => Touches s n s' ∧ s'.pending = s.pending

/-- A write of the variable by a reference or by a definition, the value of a reference, what the nodes above an
expression do with a collection, and other code. -/
inductive Event
  | written (ref : Reference) (i : ℕ) (v : Value)
  | defined (d : Definition) (i : ℕ) (v : Value)
  | evaluated (ref : Reference) (i : ℕ)
  | acted (n : ℕ) (path : List Frame)
  | other

/-- Other code has only the collections that are elsewhere, and those it creates. -/
structure Others (s s' : State) : Prop where
  holds_eq : s'.holds = s.holds
  pending_eq : s'.pending = s.pending
  size_eq : ∀ n, s.Held n → ¬ s.elsewhere n → s'.size n = s.size n
  elsewhere_of : ∀ n, s.Held n → s'.elsewhere n → s.elsewhere n

inductive Step (x : Variable) : State → Event → State → Prop
  | written {s : State} {ref : Reference} {i : ℕ} {v : Value} (hmem : ref ∈ x.references) (hflag : ref.flag ≠ .read)
      (hassigned : Assigned s v ref.path) : Step x s (.written ref i v) (s.assign ref.path i v)
  | defined {s : State} {d : Definition} {i : ℕ} {v : Value} (hmem : d ∈ x.defs)
      (hvalue : d.type ≠ "CatchClause" → v = .other) :
      Step x s (.defined d i v) { s with holds := Function.update s.holds i v }
  | evaluated {s : State} {ref : Reference} {i : ℕ} (hmem : ref ∈ x.references) (hflag : ref.flag ≠ .write) :
      Step x s (.evaluated ref i) (s.evaluate (s.holds i) ref.path)
  | acted {s s' : State} {n : ℕ} {path : List Frame} {before after : List (ℕ × List Frame)}
      (hpending : s.pending = before ++ (n, path) :: after)
      (hacts : Acts { s with pending := before ++ after } n s' (effect path)) : Step x s (.acted n path) s'
  | other {s s' : State} (hothers : Others s s') : Step x s .other s'

/-- The variable has no collection before the program runs. -/
structure Initial (s : State) : Prop where
  holds_other : ∀ i, s.holds i = .other
  pending_nil : s.pending = []

/-- The collection is empty whenever the reference is evaluated. -/
def SoundIn (trace : List (State × Event)) (ref : Reference) : Prop :=
  ∀ s i n, (s, .evaluated ref i) ∈ trace → s.holds i = .collection n → s.size n = 0

/-! ### Reads that only read -/

/-- The collection is only read, and so is each value that is the collection again. -/
inductive OnlyRead : List Frame → Prop
  | reads {path : List Frame} (heffect : effect path = .reads) : OnlyRead path
  | passes {path above : List Frame} (heffect : effect path = .passes above) (habove : OnlyRead above) : OnlyRead path

/-- A write is direct and calls no shadowed constructor, no catch clause defines the variable, and a value is only
read. -/
def Plain : Event → Prop
  | .written ref _ _ => isDirect ref.path = true ∧ ∀ init, initOf ref.path = some init → isShadowed init = false
  | .defined d _ _ => d.type ≠ "CatchClause"
  | .evaluated ref _ => OnlyRead ref.path
  | _ => True

/-! ### The references of a reported variable -/

theorem classify_eq_some {refs readingUsages usages : List Reference} {hasAssignment found : Bool}
    (h : classify refs readingUsages hasAssignment = some (usages, found)) :
    (∀ ref ∈ refs, if ref.flag = .write then isReferenceAssigningEmptyCollection ref.path = true
      else isReadingCollectionUsage ref.path = true) ∧
      ∀ ref ∈ usages, ref ∈ readingUsages ∨ ref ∈ refs := by
  induction refs generalizing readingUsages hasAssignment with
  | nil =>
    obtain ⟨rfl, -⟩ := Prod.mk.inj (Option.some.inj h)
    exact ⟨by simp, fun ref hmem => .inl hmem⟩
  | cons ref refs ih =>
    unfold classify at h
    split_ifs at h with hwrite hempty hreading
    · obtain ⟨hrefs, husages⟩ := ih h
      refine ⟨List.forall_mem_cons.mpr ⟨by rw [if_pos hwrite, hempty], hrefs⟩, fun usage hmem => ?_⟩
      exact (husages usage hmem).imp_right (List.mem_cons_of_mem ref)
    · obtain ⟨hrefs, husages⟩ := ih h
      refine ⟨List.forall_mem_cons.mpr ⟨by rw [if_neg hwrite, hreading], hrefs⟩, fun usage hmem => ?_⟩
      rcases husages usage hmem with hmem | hmem
      · rcases List.mem_append.mp hmem with hmem | hmem
        · exact .inl hmem
        · exact .inr (by simp [List.mem_singleton.mp hmem])
      · exact .inr (List.mem_cons_of_mem ref hmem)

variable {x : Variable} {ref : Reference}

theorem reportEmptyCollectionUsage_references (h : ref ∈ reportEmptyCollectionUsage x) :
    ∀ ref ∈ x.references, if ref.flag = .write then isReferenceAssigningEmptyCollection ref.path = true
      else isReadingCollectionUsage ref.path = true := by
  unfold reportEmptyCollectionUsage at h
  split_ifs at h
  · simp at h
  · simp at h
  · split at h
    · next hclassify => exact (classify_eq_some hclassify).1
    · simp at h

mutual

theorem mem_reportEmptyCollectionsUsage (scope : Scope) (h : (x, ref) ∈ reportEmptyCollectionsUsage scope) :
    ref ∈ reportEmptyCollectionUsage x := by
  match scope with
  | .mk type vars childScopes =>
    rw [reportEmptyCollectionsUsage] at h
    rcases List.mem_append.mp h with h | h
    · split_ifs at h
      · obtain ⟨y, -, hy⟩ := List.mem_flatMap.mp h
        obtain ⟨usage, husage, heq⟩ := List.mem_map.mp hy
        obtain ⟨rfl, rfl⟩ := Prod.mk.inj heq
        exact husage
      · simp at h
    · exact mem_reportChildScopes childScopes h

theorem mem_reportChildScopes (scopes : List Scope) (h : (x, ref) ∈ reportChildScopes scopes) :
    ref ∈ reportEmptyCollectionUsage x := by
  match scopes with
  | [] => simp [reportChildScopes] at h
  | scope :: rest =>
    rw [reportChildScopes] at h
    rcases List.mem_append.mp h with h | h
    · exact mem_reportEmptyCollectionsUsage scope h
    · exact mem_reportChildScopes rest h

end

/-- A reading usage is the object or property of a member expression, or the right side of a loop. -/
theorem flag_ne_readWrite (h : isReadingCollectionUsage ref.path = true) : ref.flag ≠ .readWrite := by
  intro hflag
  have hfits := ref.fits
  rw [hflag] at hfits
  unfold Flag.Fits at hfits
  split at hfits
  · next hpath => simp [isReadingCollectionUsage, isStrictlyReadingMethodCall, isForIterationPattern, isElementRead,
      hpath] at h
  · next hpath => simp [isReadingCollectionUsage, isStrictlyReadingMethodCall, isForIterationPattern, isElementRead,
      hpath] at h
  · exact hfits rfl

/-- What a direct write assigns is a new collection without elements. -/
theorem assigned_fresh {s : State} {v : Value} {n : ℕ} (hflag : ref.flag = .write)
    (hempty : isReferenceAssigningEmptyCollection ref.path = true) (hdirect : isDirect ref.path = true)
    (hbuiltin : ∀ init, initOf ref.path = some init → isShadowed init = false) (hassigned : Assigned s v ref.path)
    (hv : v = .collection n) : s.Fresh n ∧ s.size n = 0 := by
  obtain ⟨init, hinit, hinitEmpty⟩ := exists_init_of_direct hflag hempty hdirect
  have hshadowed := hbuiltin init hinit
  unfold Assigned at hassigned
  rw [hinit] at hassigned
  match init with
  | .ArrayExpression elements =>
    obtain ⟨hfresh, hsize⟩ := hassigned n hv
    exact ⟨hfresh, hsize.trans (by simpa [isEmptyCollectionType] using hinitEmpty)⟩
  | .construct callee true arguments =>
    simp only [isEmptyCollectionType, decide_eq_true_eq] at hinitEmpty
    obtain ⟨hfresh, hsize⟩ := hassigned hinitEmpty.1 n hv
    exact ⟨hfresh, hsize hinitEmpty.2⟩
  | .construct callee false arguments => simp [isShadowed] at hshadowed
  | .other type => simp [isEmptyCollectionType] at hinitEmpty

/-! ### Steps -/

/-- A held collection has no elements and nothing else has it; what happens to a value only reads it. -/
structure Inv (s : State) : Prop where
  empty : ∀ n, s.Held n → s.size n = 0
  own : ∀ n, s.Held n → ¬ s.elsewhere n
  pending : ∀ n path, (n, path) ∈ s.pending → OnlyRead path

theorem inv_initial {s : State} (h : Initial s) : Inv s := by
  have hheld : ∀ n, ¬ s.Held n := by
    rintro n (⟨i, hi⟩ | ⟨path, hmem⟩)
    · rw [h.holds_other i] at hi
      cases hi
    · rw [h.pending_nil] at hmem
      cases hmem
  exact ⟨fun n hn => absurd hn (hheld n), fun n hn => absurd hn (hheld n), fun n path hmem =>
    absurd (.inr ⟨path, hmem⟩) (hheld n)⟩

variable {s s' : State} {v : Value} {path : List Frame} {i : ℕ}

theorem inv_evaluate (hinv : Inv s) (hv : ∀ n, v = .collection n → s.size n = 0 ∧ ¬ s.elsewhere n)
    (hpath : OnlyRead path) : Inv (s.evaluate v path) := by
  match v with
  | .other => exact hinv
  | .collection n =>
    have hheld : ∀ m, (s.evaluate (.collection n) path).Held m → s.Held m ∨ m = n := by
      rintro m (hm | ⟨above, hmem⟩)
      · exact .inl (.inl hm)
      · rcases List.mem_cons.mp hmem with heq | hmem
        · exact .inr (Prod.mk.inj heq).1
        · exact .inl (.inr ⟨above, hmem⟩)
    refine ⟨fun m hm => ?_, fun m hm => ?_, fun m above hmem => ?_⟩
    · rcases hheld m hm with hm | rfl
      · exact hinv.empty m hm
      · exact (hv m rfl).1
    · rcases hheld m hm with hm | rfl
      · exact hinv.own m hm
      · exact (hv m rfl).2
    · rcases List.mem_cons.mp hmem with heq | hmem
      · rw [(Prod.mk.inj heq).2]
        exact hpath
      · exact hinv.pending m above hmem

theorem inv_update (hinv : Inv s) (hv : ∀ n, v = .collection n → s.size n = 0 ∧ ¬ s.elsewhere n) :
    Inv { s with holds := Function.update s.holds i v } := by
  have hheld : ∀ n, State.Held { s with holds := Function.update s.holds i v } n →
      s.size n = 0 ∧ ¬ s.elsewhere n := by
    rintro n (⟨j, hj⟩ | hpending)
    · have hj : Function.update s.holds i v j = .collection n := hj
      by_cases hij : j = i
      · subst hij
        exact hv n (by simpa using hj)
      · rw [Function.update_of_ne hij] at hj
        exact ⟨hinv.empty n (.inl ⟨j, hj⟩), hinv.own n (.inl ⟨j, hj⟩)⟩
    · exact ⟨hinv.empty n (.inr hpending), hinv.own n (.inr hpending)⟩
  exact ⟨fun n hn => (hheld n hn).1, fun n hn => (hheld n hn).2, hinv.pending⟩

/-- A direct assignment is a statement, so nothing is done with its value. -/
theorem inv_assign (hinv : Inv s) (hv : ∀ n, v = .collection n → s.size n = 0 ∧ ¬ s.elsewhere n)
    (hdirect : isDirect path = true) : Inv (s.assign path i v) := by
  have hassigned := inv_update (i := i) hinv hv
  unfold State.assign
  unfold isDirect at hdirect
  split at hdirect
  · exact hassigned
  · exact inv_evaluate hassigned hv (.reads rfl)
  · cases hdirect

/-- A collection that is only read stays as it is. -/
theorem inv_acts {n : ℕ} {before after : List (ℕ × List Frame)} (hinv : Inv s)
    (hpending : s.pending = before ++ (n, path) :: after)
    (hacts : Acts { s with pending := before ++ after } n s' (effect path)) : Inv s' := by
  have hmem : (n, path) ∈ s.pending := by simp [hpending]
  have hsubset : ∀ entry ∈ before ++ after, entry ∈ s.pending := by
    intro entry hentry
    rw [hpending]
    simp only [List.mem_append, List.mem_cons] at hentry ⊢
    tauto
  have hn : s.Held n := .inr ⟨path, hmem⟩
  have hkeeps : ∀ above, Reads { s with pending := before ++ after } n s' →
      (∀ entry ∈ s'.pending, entry ∈ s.pending ∨ entry = (n, above)) → OnlyRead above → Inv s' := by
    intro above hreads hentries habove
    have hheld : ∀ m, s'.Held m → s.Held m := by
      rintro m (⟨i, hi⟩ | ⟨path, hentry⟩)
      · exact .inl ⟨i, by rw [← hi, hreads.holds_eq]⟩
      · rcases hentries _ hentry with hentry | heq
        · exact .inr ⟨path, hentry⟩
        · rw [(Prod.mk.inj heq).1]
          exact hn
    refine ⟨fun m hm => ?_, fun m hm => ?_, fun m path hentry => ?_⟩
    · by_cases hmn : m = n
      · subst hmn
        exact Nat.le_zero.mp (Nat.le_trans hreads.size_le (Nat.le_of_eq (hinv.empty m hn)))
      · rw [hreads.size_eq m hmn]
        exact hinv.empty m (hheld m hm)
    · by_cases hmn : m = n
      · subst hmn
        exact fun helsewhere => hinv.own m hn ((hreads.callback (hinv.empty m hn)).mp helsewhere)
      · exact fun helsewhere => hinv.own m (hheld m hm) ((hreads.elsewhere_iff m hmn).mp helsewhere)
    · rcases hentries _ hentry with hentry | heq
      · exact hinv.pending m path hentry
      · rw [(Prod.mk.inj heq).2]
        exact habove
  cases hinv.pending n path hmem with
  | reads heffect =>
    rw [heffect] at hacts
    refine hkeeps path hacts.1 (fun entry hentry => .inl ?_) (.reads heffect)
    exact hsubset entry (by simpa [hacts.2] using hentry)
  | @passes _ above heffect habove =>
    rw [heffect] at hacts
    refine hkeeps above hacts.1 (fun entry hentry => ?_) habove
    rw [hacts.2] at hentry
    rcases List.mem_cons.mp hentry with rfl | hentry
    · exact .inr rfl
    · exact .inl (hsubset entry hentry)

theorem inv_others (hinv : Inv s) (h : Others s s') : Inv s' := by
  have hheld : ∀ n, s'.Held n → s.Held n := by
    intro n hn
    simpa only [State.Held, h.holds_eq, h.pending_eq] using hn
  refine ⟨fun n hn => ?_, fun n hn => ?_, fun n path hmem => ?_⟩
  · rw [h.size_eq n (hheld n hn) (hinv.own n (hheld n hn))]
    exact hinv.empty n (hheld n hn)
  · exact fun helsewhere => hinv.own n (hheld n hn) (h.elsewhere_of n (hheld n hn) helsewhere)
  · exact hinv.pending n path (by rwa [← h.pending_eq])

theorem step_inv {e : Event} (hreport : ∀ ref ∈ x.references,
      if ref.flag = .write then isReferenceAssigningEmptyCollection ref.path = true
      else isReadingCollectionUsage ref.path = true)
    (hinv : Inv s) (hstep : Step x s e s') (hplain : Plain e) : Inv s' := by
  cases hstep with
  | @written ref i v hmem hflag hassigned =>
    have hwrite : ref.flag = .write := by
      by_contra hne
      have hreading := hreport ref hmem
      rw [if_neg hne] at hreading
      have hreadWrite := flag_ne_readWrite hreading
      cases hcase : ref.flag <;> simp_all
    have hempty := hreport ref hmem
    rw [if_pos hwrite] at hempty
    refine inv_assign hinv (fun n hv => ?_) hplain.1
    obtain ⟨hfresh, hsize⟩ := assigned_fresh hwrite hempty hplain.1 hplain.2 hassigned hv
    exact ⟨hsize, hfresh.1⟩
  | @defined d i v hmem hvalue =>
    refine inv_update hinv fun n hv => ?_
    rw [hvalue hplain] at hv
    cases hv
  | @evaluated ref i hmem hflag =>
    refine inv_evaluate hinv (fun n hn => ?_) hplain
    exact ⟨hinv.empty n (.inl ⟨i, hn⟩), hinv.own n (.inl ⟨i, hn⟩)⟩
  | acted hpending hacts => exact inv_acts hinv hpending hacts
  | other hothers => exact inv_others hinv hothers

theorem reported_empty {scope : Scope} {trace : List (State × Event)}
    (hreport : (x, ref) ∈ reportEmptyCollectionsUsage scope) (hinitial : Initial s) (hrun : Run (Step x) s trace s')
    (hplain : ∀ step ∈ trace, Plain step.2) : SoundIn trace ref := by
  have hreferences := reportEmptyCollectionUsage_references (mem_reportEmptyCollectionsUsage scope hreport)
  have hinv := hrun.throughout_of_forall (inv_initial hinitial)
    (fun _ _ _ => step_inv hreferences) hplain
  exact fun before i n hmem hn => (hinv.1 _ hmem).empty n (.inl ⟨i, hn⟩)

/-! ### Fixed runs -/

/-- The identifier of `const a = []`. -/
def declared : Reference :=
  ⟨.write, [.declaratorId (some (.ArrayExpression 0)), .other "VariableDeclaration"], by decide⟩

/-- In `a.forEach(f)`. -/
def iterated : Reference :=
  ⟨.read, [.memberObject (some "forEach") false, .callee "CallExpression", .ExpressionStatement], by decide⟩

/-- In `a.sort().map(f)`. -/
def sorted : Reference :=
  ⟨.read, [.memberObject (some "sort") false, .callee "CallExpression", .memberObject (some "map") false,
    .callee "CallExpression", .ExpressionStatement], by decide⟩

/-- In `a[0] += 1`. -/
def increased : Reference :=
  ⟨.read, [.memberObject none true, .assignmentLeft "+=" (.other "Literal"), .ExpressionStatement], by decide⟩

/-- A variable with these references in a function, and the scopes of its file. -/
def variableOf (references : List Reference) : Variable := ⟨[⟨"Variable", some "VariableDeclaration", some "BlockStatement"⟩], references⟩

def fileOf (references : List Reference) : Scope := .mk "global" [] [.mk "function" [variableOf references] []]

def start : State := ⟨fun _ => 0, fun _ => .other, fun _ => False, []⟩

def bound : State := { start with holds := Function.update start.holds 0 (.collection 0) }

def waiting (path : List Frame) : State := { bound with pending := [(0, path)] }

theorem run_declared (references : List Reference) (hmem : declared ∈ references) :
    Step (variableOf references) start (.written declared 0 (.collection 0)) bound := by
  refine .written hmem (by decide) ?_
  rintro n ⟨⟩
  simp [State.Fresh, State.Held, start]

theorem run_evaluated {references : List Reference} {ref : Reference} (hmem : ref ∈ references)
    (hflag : ref.flag ≠ .write) :
    Step (variableOf references) bound (.evaluated ref 0) (waiting ref.path) :=
  .evaluated hmem hflag

/-- A reading that leaves the collection as it is. -/
theorem reads_of_eq {n : ℕ} (hholds : s'.holds = s.holds) (hsize : s'.size = s.size)
    (helsewhere : s'.elsewhere = s.elsewhere) : Reads s n s' where
  holds_eq := hholds
  size_eq := fun m _ => congrFun hsize m
  elsewhere_iff := fun m _ => by rw [helsewhere]
  size_le := Nat.le_of_eq (congrFun hsize n)
  callback := fun _ => by rw [helsewhere]

theorem reported_empty_sorted :
    SoundIn [(start, .written declared 0 (.collection 0)), (bound, .evaluated sorted 0),
      (waiting sorted.path, .acted 0 sorted.path), (waiting (sorted.path.drop 2), .acted 0 (sorted.path.drop 2))]
      sorted := by
  have hreport : reportEmptyCollectionsUsage (fileOf [declared, sorted]) =
      [(variableOf [declared, sorted], sorted)] := rfl
  have hrun : Run (Step (variableOf [declared, sorted])) start
      [(start, .written declared 0 (.collection 0)), (bound, .evaluated sorted 0),
        (waiting sorted.path, .acted 0 sorted.path), (waiting (sorted.path.drop 2), .acted 0 (sorted.path.drop 2))]
      bound := by
    refine .cons (run_declared _ (by simp)) (.cons (run_evaluated (by simp) (by decide)) ?_)
    refine .cons ?_ (.cons ?_ (.nil _))
    · exact @Step.acted _ _ _ _ _ [] [] rfl ⟨reads_of_eq rfl rfl rfl, rfl⟩
    · exact @Step.acted _ _ _ _ _ [] [] rfl ⟨reads_of_eq rfl rfl rfl, rfl⟩
  refine reported_empty (hreport ▸ List.mem_singleton_self _) ⟨fun _ => rfl, rfl⟩ hrun ?_
  simp only [List.forall_mem_cons]
  refine ⟨⟨rfl, ?_⟩, .passes rfl (.reads rfl), trivial, trivial, by simp⟩
  rintro init ⟨⟩
  rfl

/-- `const a = []; a[0] += 1; a.forEach(f)`: the last use is reported, of a collection with one element. -/
theorem increased_not_sound :
    ¬ ∀ scope x ref, (x, ref) ∈ reportEmptyCollectionsUsage scope →
      ∀ s last trace, Initial s → Run (Step x) s trace last → SoundIn trace ref := by
  intro h
  let grown : State := { bound with size := Function.update bound.size 0 1 }
  have hreport : reportEmptyCollectionsUsage (fileOf [declared, increased, iterated]) =
      [(variableOf [declared, increased, iterated], increased),
        (variableOf [declared, increased, iterated], iterated)] :=
    rfl
  have hrun : Run (Step (variableOf [declared, increased, iterated])) start
      [(start, .written declared 0 (.collection 0)), (bound, .evaluated increased 0),
        (waiting increased.path, .acted 0 increased.path), (grown, .evaluated iterated 0)]
      (grown.evaluate (.collection 0) iterated.path) := by
    refine .cons (run_declared _ (by simp)) (.cons (run_evaluated (by simp) (by decide)) ?_)
    refine .cons ?_ (.cons ?_ (.nil _))
    · refine @Step.acted _ _ _ _ _ [] [] rfl ⟨⟨rfl, fun m hm => ?_, fun m _ => Iff.rfl⟩, rfl⟩
      exact Function.update_of_ne hm 1 bound.size
    · exact .evaluated (by simp [variableOf]) (by decide)
  have hmem : (variableOf [declared, increased, iterated], iterated) ∈
      reportEmptyCollectionsUsage (fileOf [declared, increased, iterated]) := by
    rw [hreport]
    exact List.mem_cons_of_mem _ (List.mem_singleton_self _)
  have hsize : grown.size 0 = 0 := h _ _ _ hmem _ _ _ ⟨fun _ => rfl, rfl⟩ hrun grown 0 0 (by simp) rfl
  simp [grown] at hsize

end SonarJavascript.Rules.EmptyCollection
