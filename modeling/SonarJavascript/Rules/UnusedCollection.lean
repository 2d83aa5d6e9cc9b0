import Mathlib.Algebra.Group.Nat.Defs
import Mathlib.Logic.Function.Basic
import SonarJavascript.Helpers.Collection
import SonarJavascript.Lib.Runs

/-!
# Unused collections (S4030)

The rule reports a variable whose references all assign a collection to it, write an element or call a writing
method as a statement. A run follows the collections of the variable and the world, which is all that the rest of
the program can observe. Without the write statements the program goes the same way (`reported_replaceable`), if
the variable gets new collections only and each write statement changes nothing but a collection.
-/

namespace SonarJavascript.Rules.UnusedCollection

open Helpers.Collection

/-! ### The rule -/

def writingMethods : List String :=
  ["copyWithin", "fill", "pop", "push", "reverse", "set", "shift", "sort", "splice", "unshift", "add", "clear",
    "delete"]

def startsWithExport (type : Option String) : Bool :=
  type.any fun type => "Export".toList.isPrefixOf type.toList

/-- Of the first definition only. -/
def isExported (x : Variable) : Bool :=
  x.defs.head?.any fun definition => startsWithExport definition.grandparent

def isCollectionType : Init → Bool
  | .ArrayExpression _ => true
  | .construct callee _ _ => callee ∈ collectionConstructor
  | .other _ => false

def isReferenceAssigningCollection (path : List Frame) : Bool :=
  isReferenceAssigning isCollectionType path

/-- The reference is the object of the left side of the statement. -/
def isElementWrite : List Frame → Bool
  | .memberObject _ _ :: .assignmentLeft _ _ :: .ExpressionStatement :: _ => true
  | _ => false

def isWritingMethodCall : List Frame → Bool
  | .memberObject (some property) _ :: .callee type :: .ExpressionStatement :: _ =>
    type = "CallExpression" ∧ property ∈ writingMethods
  | _ => false

/-- Without a statement above it, the reference is a read. -/
def isRead (path : List Frame) : Bool :=
  match path.find? (· = .ExpressionStatement) with
  | some _ => !(isElementWrite path ∨ isWritingMethodCall path)
  | none => true

/-- The loop over the references: none when it returns false, else `assignCollection`. -/
def classify : List Reference → Bool → Option Bool
  | [], assignCollection => some assignCollection
  | ref :: refs, assignCollection =>
    if ref.flag = .write then if isReferenceAssigningCollection ref.path then classify refs true else none
    else if isRead ref.path then none
    else classify refs assignCollection

def isUnusedCollection (x : Variable) : Bool :=
  if isExported x then false
  else if x.references.length ≤ 1 then false
  else (classify x.references false).getD false

mutual

def collectUnusedCollections : Scope → List Variable
  | .mk type vars childScopes =>
    (if type ≠ "global" then vars.filter isUnusedCollection else []) ++ collectChildScopes childScopes

def collectChildScopes : List Scope → List Variable
  | [] => []
  | scope :: rest => collectUnusedCollections scope ++ collectChildScopes rest

end

/-! ### Operations on collections -/

/-- An operand or element: primitive is one that is neither a number, a symbol nor a bigint. -/
inductive Arg
  | number
  | primitive
  | symbol
  | bigint
  | object
  deriving DecidableEq

/-- Its conversion to a number runs no code and does not throw. -/
def Arg.converts : Arg → Bool
  | .number | .primitive => true
  | _ => false

/-- Its conversion to a string runs no code and does not throw. -/
def Arg.prints : Arg → Bool
  | .symbol | .object => false
  | _ => true

/-- The constructor and the elements. -/
structure Content where
  kind : String
  elements : List Arg

/-- What a write statement does. A key is none when its conversion to a property runs code. -/
inductive Operation
  | element (operator : String) (key : Option String) (old right : Arg)
  | method (name : String) (arguments : List Arg)
  deriving DecidableEq

def methodsOf (kind : String) : List String :=
  match kind with
  | "Array" => ["copyWithin", "fill", "pop", "push", "reverse", "shift", "sort", "splice", "unshift"]
  | "Map" => ["set", "clear", "delete"]
  | "Set" => ["add", "clear", "delete"]
  | "WeakMap" => ["set", "delete"]
  | "WeakSet" => ["add", "delete"]
  | _ => []

/-- Properties that the built-in operations look at. -/
def reserved : List String := ["length", "constructor", "__proto__"] ++ writingMethods

def arithmetic : List String :=
  ["+=", "-=", "*=", "/=", "%=", "**=", "<<=", ">>=", ">>>=", "&=", "|=", "^="]

/-- The method converts no argument and no element by code, and accepts them. -/
def argumentsFit (content : Content) (name : String) (arguments : List Arg) : Bool :=
  match name with
  | "sort" => arguments = [] ∧ content.elements.all Arg.prints
  | "splice" => (arguments.take 2).all Arg.converts
  | "copyWithin" => arguments.all Arg.converts
  | "fill" => (arguments.drop 1).all Arg.converts
  | "set" => content.kind = "Map" ∨ arguments.head? = some .object
  | "add" => content.kind = "Set" ∨ arguments.head? = some .object
  | _ => true

/-- The operation changes nothing but the collection: it runs no code and does not throw. -/
def isQuiet (content : Content) : Operation → Bool
  | .element operator key old right =>
    (key.any fun key => key ∉ reserved) ∧
      (operator = "=" ∨ operator ∈ arithmetic ∧ old.converts ∧ right.converts)
  | .method name arguments =>
    name ∈ methodsOf content.kind ∧ content.elements.length + arguments.length < 2 ^ 32 ∧
      argumentsFit content name arguments

/-! ### Runs -/

/-- A collection that a write of the variable created, any other collection, whose content is part of the world,
or any other value. -/
inductive Value
  | own (n : ℕ)
  | foreign
  | other
  deriving DecidableEq

/-- The bindings of the variable; the collections created for it and those among them that anything else can
read; the collections that write statements have evaluated. -/
structure State (World : Type) where
  world : World
  holds : ℕ → Value
  next : ℕ
  content : ℕ → Content
  leaked : ℕ → Prop
  pending : List (Value × Reference)

section Runs

variable {World : Type}

def State.Private (s : State World) (v : Value) : Prop := ∃ n, v = .own n ∧ ¬ s.leaked n

/-- An array literal or a call of a built-in constructor, with the content that it gives. -/
def Creates (content : Content) : Init → Prop
  | .ArrayExpression elements => content.kind = "Array" ∧ content.elements.length = elements
  | .construct callee isBuiltin _ => callee ∈ collectionConstructor ∧ isBuiltin = true ∧ content.kind = callee
  | .other _ => False

/-- Definitions that give the variable a value that the rest of the program has. -/
def bindingDefinitions : List String := ["Parameter", "CatchClause", "ImportBinding"]

/-- The statement of the reference performs the operation. -/
def Performs : List Frame → Operation → Prop
  | .memberObject property computed :: .assignmentLeft operator _ :: _, .element operator' key _ _ =>
    operator' = operator ∧ (computed = false → key = property)
  | .memberObject property computed :: .callee _ :: _, .method name _ => computed = false → property = some name
  | _, _ => False

/-- A write of the variable by a reference, with the content of a new collection, or by a definition; in a write
statement, the collection, the computed key and the operation, each with the world after it; other code, and code
that reads the variable without a reference (an importing module, `eval`). -/
inductive Event (World : Type)
  | written (ref : Reference) (i : ℕ) (v : Value) (content : Content)
  | defined (d : Definition) (i : ℕ) (v : Value)
  | evaluated (ref : Reference) (i : ℕ) (world : World)
  | keyed (ref : Reference) (world : World)
  | acted (v : Value) (ref : Reference) (operation : Operation) (world : World)
  | other (world : World)
  | outside (i : ℕ) (world : World)

/-- The steps of write statements. -/
def Event.isStatement : Event World → Bool
  | .evaluated .. | .keyed .. | .acted .. => true
  | _ => false

def State.bind (s : State World) (i : ℕ) (v : Value) : State World :=
  { s with holds := Function.update s.holds i v }

/-- The next collection is new. -/
def State.create (s : State World) (i : ℕ) (content : Content) : State World :=
  { s with
    holds := Function.update s.holds i (.own s.next)
    next := s.next + 1
    content := Function.update s.content s.next content
    leaked := fun n => n ≠ s.next ∧ s.leaked n }

def State.leak (s : State World) (v : Value) : State World :=
  { s with leaked := fun n => s.leaked n ∨ v = .own n }

def State.become (s : State World) (world : World) : State World := { s with world := world }

/-- A quiet operation changes the content of a collection that nothing else can read; any other one may leave any
world. -/
def Acts (s : State World) (v : Value) (operation : Operation) (world : World) (s' : State World) : Prop :=
  (∃ n content, v = .own n ∧ ¬ s.leaked n ∧ isQuiet (s.content n) operation = true ∧
      content.kind = (s.content n).kind ∧ s' = { s with content := Function.update s.content n content }) ∨
    ((∀ n, v = .own n → ¬ s.leaked n → isQuiet (s.content n) operation = false) ∧ s' = (s.leak v).become world)

/-- The value of an assignment that is no statement is used elsewhere. -/
inductive Step (x : Variable) (others : World → World → Prop) : State World → Event World → State World → Prop
  | created {s : State World} {ref : Reference} {i : ℕ} {init : Init} {content : Content} (hmem : ref ∈ x.references)
      (hflag : ref.flag ≠ .read) (hinit : initOf ref.path = some init) (hcreates : Creates content init) :
      Step x others s (.written ref i (.own s.next) content)
        (if isDirect ref.path then s.create i content else (s.create i content).leak (.own s.next))
  | assigned {s : State World} {ref : Reference} {i : ℕ} {v : Value} {content : Content} (hmem : ref ∈ x.references)
      (hflag : ref.flag ≠ .read)
      (hinit : ∀ init, initOf ref.path = some init → (∃ content, Creates content init) → v = .other) :
      Step x others s (.written ref i v content) ((s.bind i v).leak v)
  | defined {s : State World} {d : Definition} {i : ℕ} {v : Value} (hmem : d ∈ x.defs)
      (hvalue : v = .foreign → d.type ∈ bindingDefinitions) (hown : ∀ n, v ≠ .own n) :
      Step x others s (.defined d i v) (s.bind i v)
  | evaluated {s : State World} {ref : Reference} {i : ℕ} {world : World} (hmem : ref ∈ x.references)
      (hflag : ref.flag ≠ .write) (hvalue : s.holds i ≠ .other) :
      Step x others s (.evaluated ref i world) { s with pending := (s.holds i, ref) :: s.pending }
  | failed {s : State World} {ref : Reference} {i : ℕ} {world : World} (hmem : ref ∈ x.references)
      (hflag : ref.flag ≠ .write) (hvalue : s.holds i = .other) :
      Step x others s (.evaluated ref i world) (s.become world)
  | keyed {s : State World} {v : Value} {ref : Reference} {property : Option String} {rest : List Frame}
      {world : World} (hmem : (v, ref) ∈ s.pending) (hpath : ref.path = .memberObject property true :: rest) :
      Step x others s (.keyed ref world) (s.become world)
  | acted {s s' : State World} {v : Value} {ref : Reference} {operation : Operation} {world : World}
      {before after : List (Value × Reference)} (hpending : s.pending = before ++ (v, ref) :: after)
      (hstatement : isRead ref.path = false) (hperforms : Performs ref.path operation)
      (hacts : Acts { s with pending := before ++ after } v operation world s') :
      Step x others s (.acted v ref operation world) s'
  | read {s : State World} {v : Value} {ref : Reference} {operation : Operation} {world : World}
      {before after : List (Value × Reference)} (hpending : s.pending = before ++ (v, ref) :: after)
      (hread : isRead ref.path = true) :
      Step x others s (.acted v ref operation world) (({ s with pending := before ++ after }.leak v).become world)
  | other {s : State World} {world : World} (hothers : others s.world world) :
      Step x others s (.other world) (s.become world)
  | outside {s : State World} {i : ℕ} {world : World} :
      Step x others s (.outside i world) ((s.leak (s.holds i)).become world)

/-- Without the write statements. -/
def Replaced (x : Variable) (others : World → World → Prop) (s : State World) (e : Event World) (s' : State World) :
    Prop :=
  Step x others s e s' ∧ e.isStatement = false

structure Initial (s : State World) : Prop where
  holds_other : ∀ i, s.holds i = .other
  pending_nil : s.pending = []

/-- What happens besides the write statements, with the worlds in which it happens. -/
def observed (trace : List (State World × Event World)) : List (World × Event World) :=
  (trace.filter fun step => !step.2.isStatement).map fun step => (step.1.world, step.2)

/-- Nothing else can read the collections that the variable holds. -/
def Unreadable (s : State World) : Prop := ∀ i, s.holds i = .other ∨ s.Private (s.holds i)

def SoundIn (x : Variable) (others : World → World → Prop) (s : State World) (trace : List (State World × Event World))
    (last : State World) : Prop :=
  Throughout Unreadable trace last ∧ ∃ trace' last', Run (Replaced x others) s trace' last' ∧
    observed trace' = observed trace ∧ last'.world = last.world

end Runs

/-! ### Steps without effect on the world -/

section Conditions

variable {World : Type}

/-- A write is direct and calls no shadowed constructor; a definition gives no collection; a write statement finds
a collection, evaluates its key without effect and performs a quiet operation; no code reads the variable without
a reference. -/
def Plain (s : State World) : Event World → Prop
  | .written ref _ _ _ => isDirect ref.path = true ∧ ∀ init, initOf ref.path = some init → isShadowed init = false
  | .defined _ _ v => v = .other
  | .evaluated _ i _ => s.holds i ≠ .other
  | .keyed _ world => world = s.world
  | .acted v _ operation _ => ∀ n, v = .own n → isQuiet (s.content n) operation = true
  | .other _ => True
  | .outside _ _ => False

end Conditions

/-! ### The references of a reported variable -/

theorem classify_eq_some {refs : List Reference} {assignCollection found : Bool}
    (h : classify refs assignCollection = some found) :
    ∀ ref ∈ refs, if ref.flag = .write then isReferenceAssigningCollection ref.path = true
      else isRead ref.path = false := by
  induction refs generalizing assignCollection with
  | nil => simp
  | cons ref refs ih =>
    unfold classify at h
    split_ifs at h with hwrite hassigning hread
    · exact List.forall_mem_cons.mpr ⟨by rw [if_pos hwrite, hassigning], ih h⟩
    · exact List.forall_mem_cons.mpr ⟨by rw [if_neg hwrite]; simpa using hread, ih h⟩

theorem isUnusedCollection_references {x : Variable} (h : isUnusedCollection x = true) :
    ∀ ref ∈ x.references, if ref.flag = .write then isReferenceAssigningCollection ref.path = true
      else isRead ref.path = false := by
  unfold isUnusedCollection at h
  split_ifs at h
  cases hclassify : classify x.references false with
  | none => simp [hclassify] at h
  | some found => exact classify_eq_some hclassify

mutual

theorem isUnusedCollection_of_mem {x : Variable} (scope : Scope) (h : x ∈ collectUnusedCollections scope) :
    isUnusedCollection x = true := by
  match scope with
  | .mk type vars childScopes =>
    rw [collectUnusedCollections] at h
    rcases List.mem_append.mp h with h | h
    · split_ifs at h
      · exact (List.mem_filter.mp h).2
      · simp at h
    · exact isUnusedCollection_of_mem_children childScopes h

theorem isUnusedCollection_of_mem_children {x : Variable} (scopes : List Scope) (h : x ∈ collectChildScopes scopes) :
    isUnusedCollection x = true := by
  match scopes with
  | [] => simp [collectChildScopes] at h
  | scope :: rest =>
    rw [collectChildScopes] at h
    rcases List.mem_append.mp h with h | h
    · exact isUnusedCollection_of_mem scope h
    · exact isUnusedCollection_of_mem_children rest h

end

variable {x : Variable} {ref : Reference}

/-- A write statement has the reference as the object of a member expression. -/
theorem flag_ne_readWrite (h : isRead ref.path = false) : ref.flag ≠ .readWrite := by
  intro hflag
  have hfits := ref.fits
  rw [hflag] at hfits
  unfold Flag.Fits at hfits
  split at hfits
  · next hpath =>
    rw [hpath] at h
    unfold isRead at h
    split at h
    · simp [isElementWrite, isWritingMethodCall] at h
    · cases h
  · next hpath =>
    rw [hpath] at h
    unfold isRead at h
    split at h
    · simp [isElementWrite, isWritingMethodCall] at h
    · cases h
  · exact hfits rfl

/-- What a direct write assigns is an array or the value of a built-in constructor. -/
theorem exists_creates (hflag : ref.flag = .write) (hassigning : isReferenceAssigningCollection ref.path = true)
    (hdirect : isDirect ref.path = true)
    (hbuiltin : ∀ init, initOf ref.path = some init → isShadowed init = false) :
    ∃ init, initOf ref.path = some init ∧ ∃ content, Creates content init := by
  obtain ⟨init, hinit, htype⟩ := exists_init_of_direct hflag hassigning hdirect
  refine ⟨init, hinit, ?_⟩
  have hshadowed := hbuiltin init hinit
  match init with
  | .ArrayExpression elements => exact ⟨⟨"Array", .replicate elements .number⟩, rfl, List.length_replicate⟩
  | .construct callee isBuiltin arguments =>
    exact ⟨⟨callee, []⟩, by simpa [isCollectionType] using htype, by simpa [isShadowed] using hshadowed, rfl⟩
  | .other type => cases htype

/-! ### The simulation -/

section Simulation

variable {World : Type} {others : World → World → Prop} {s s' t last : State World} {e : Event World}

/-- The variable holds its own collections, and nothing but write statements has evaluated them. -/
structure Inv (s : State World) : Prop where
  holds : Unreadable s
  pending : ∀ v ref, (v, ref) ∈ s.pending → s.Private v ∧ isRead ref.path = false

/-- With the same world and bindings the content may differ. -/
structure Sim (s t : State World) : Prop where
  inv : Inv s
  world_eq : t.world = s.world
  holds_eq : t.holds = s.holds
  next_eq : t.next = s.next

/-- What the rule knows of the references. -/
def Classified (x : Variable) : Prop :=
  ∀ ref ∈ x.references, if ref.flag = .write then isReferenceAssigningCollection ref.path = true
    else isRead ref.path = false

theorem Classified.isRead_eq (hx : Classified x) (hmem : ref ∈ x.references) (hflag : ref.flag ≠ .write) :
    isRead ref.path = false := by
  have h := hx ref hmem
  rwa [if_neg hflag] at h

theorem Classified.flag_eq_write (hx : Classified x) (hmem : ref ∈ x.references) (hflag : ref.flag ≠ .read) :
    ref.flag = .write := by
  by_contra hwrite
  have hreadWrite := flag_ne_readWrite (hx.isRead_eq hmem hwrite)
  cases hcase : ref.flag with
  | read => exact hflag hcase
  | write => exact hwrite hcase
  | readWrite => exact hreadWrite hcase

theorem Classified.isReferenceAssigning_eq (hx : Classified x) (hmem : ref ∈ x.references) (hflag : ref.flag = .write) :
    isReferenceAssigningCollection ref.path = true := by
  have h := hx ref hmem
  rwa [if_pos hflag] at h

theorem inv_initial (h : Initial s) : Inv s where
  holds := fun i => .inl (h.holds_other i)
  pending := fun v ref hmem => by simp [h.pending_nil] at hmem

theorem inv_create {i : ℕ} {content : Content} (hinv : Inv s) : Inv (s.create i content) := by
  have hprivate : ∀ v, s.Private v → (s.create i content).Private v := by
    rintro v ⟨n, rfl, hn⟩
    exact ⟨n, rfl, fun h => hn h.2⟩
  refine ⟨fun j => ?_, fun v ref hmem => (hinv.pending v ref hmem).imp_left (hprivate v)⟩
  by_cases hij : j = i
  · subst hij
    exact .inr ⟨s.next, by simp [State.create], fun h => h.1 rfl⟩
  · have hj : (s.create i content).holds j = s.holds j := Function.update_of_ne hij _ _
    rw [hj]
    exact (hinv.holds j).imp_right (hprivate _)

theorem inv_bind_other {i : ℕ} (hinv : Inv s) : Inv (s.bind i .other) := by
  refine ⟨fun j => ?_, hinv.pending⟩
  by_cases hij : j = i
  · subst hij
    exact .inl (by simp [State.bind])
  · have hj : (s.bind i .other).holds j = s.holds j := Function.update_of_ne hij _ _
    rw [hj]
    exact hinv.holds j

theorem inv_leak_other (hinv : Inv s) : Inv (s.leak .other) := by
  have hprivate : ∀ v, s.Private v → (s.leak .other).Private v := by
    rintro v ⟨n, rfl, hn⟩
    exact ⟨n, rfl, by simpa [State.leak] using hn⟩
  exact ⟨fun j => (hinv.holds j).imp_right (hprivate _), fun v ref hmem =>
    (hinv.pending v ref hmem).imp_left (hprivate v)⟩

/-- The step of a write statement leaves the world and the bindings as they are. -/
theorem sim_statement (hx : Classified x) (hsim : Sim s t) (hstep : Step x others s e s') (hplain : Plain s e)
    (he : e.isStatement = true) : Sim s' t := by
  have hinv := hsim.inv
  cases hstep with
  | @evaluated ref i world hmem hflag hvalue =>
    refine ⟨⟨hinv.holds, fun v ref' hpending => ?_⟩, hsim.world_eq, hsim.holds_eq, hsim.next_eq⟩
    rcases List.mem_cons.mp hpending with heq | hpending
    · obtain ⟨rfl, rfl⟩ := Prod.mk.inj heq
      exact ⟨(hinv.holds i).resolve_left hvalue, hx.isRead_eq hmem hflag⟩
    · exact hinv.pending v ref' hpending
  | failed hmem hflag hvalue => exact absurd hvalue hplain
  | keyed hmem hpath =>
    obtain rfl : _ = s.world := hplain
    exact ⟨⟨hinv.holds, hinv.pending⟩, hsim.world_eq, hsim.holds_eq, hsim.next_eq⟩
  | @acted _ v ref operation world before after hpending hstatement hperforms hacts =>
    have hsubset : ∀ entry ∈ before ++ after, entry ∈ s.pending := by
      intro entry hentry
      rw [hpending]
      simp only [List.mem_append, List.mem_cons] at hentry ⊢
      tauto
    obtain ⟨n, hv, hn⟩ := (hinv.pending v ref (by simp [hpending])).1
    rcases hacts with ⟨m, content, -, -, -, -, rfl⟩ | ⟨hnot, -⟩
    · exact ⟨⟨hinv.holds, fun v ref hentry => hinv.pending v ref (hsubset _ hentry)⟩, hsim.world_eq, hsim.holds_eq,
        hsim.next_eq⟩
    · have hquiet : isQuiet (s.content n) operation = true := hplain n hv
      rw [hnot n hv hn] at hquiet
      cases hquiet
  | @read v ref operation world before after hpending hread =>
    rw [(hinv.pending v ref (by simp [hpending])).2] at hread
    cases hread
  | created | assigned | defined | other | outside => cases he

theorem sim_other (hx : Classified x) (hsim : Sim s t) (hstep : Step x others s e s') (hplain : Plain s e)
    (he : e.isStatement = false) : ∃ t', Replaced x others t e t' ∧ Sim s' t' := by
  have hinv := hsim.inv
  cases hstep with
  | @created ref i init content hmem hflag hinit hcreates =>
    rw [if_pos hplain.1]
    have hstep : Step x others t (.written ref i (.own t.next) content) _ :=
      Step.created hmem hflag hinit hcreates
    rw [if_pos hplain.1, hsim.next_eq] at hstep
    refine ⟨_, ⟨hstep, rfl⟩, inv_create hinv, hsim.world_eq, ?_, ?_⟩
    · simp [State.create, hsim.holds_eq, hsim.next_eq]
    · simp [State.create, hsim.next_eq]
  | @assigned ref i v content hmem hflag hinit =>
    have hwrite := hx.flag_eq_write hmem hflag
    obtain ⟨init, hsome, hcreates⟩ := exists_creates hwrite (hx.isReferenceAssigning_eq hmem hwrite) hplain.1 hplain.2
    obtain rfl := hinit init hsome hcreates
    refine ⟨_, ⟨.assigned hmem hflag hinit, rfl⟩, inv_leak_other (inv_bind_other hinv), hsim.world_eq, ?_,
      hsim.next_eq⟩
    simp [State.leak, State.bind, hsim.holds_eq]
  | @defined d i v hmem hvalue hown =>
    obtain rfl : v = .other := hplain
    refine ⟨_, ⟨.defined hmem hvalue hown, rfl⟩, inv_bind_other hinv, hsim.world_eq, ?_, hsim.next_eq⟩
    simp [State.bind, hsim.holds_eq]
  | other hothers =>
    refine ⟨_, ⟨.other (hsim.world_eq ▸ hothers), rfl⟩, ⟨hinv.holds, hinv.pending⟩, rfl, hsim.holds_eq, hsim.next_eq⟩
  | outside => exact hplain.elim
  | evaluated | failed | keyed | acted | read => cases he

theorem step_inv (hx : Classified x) (hinv : Inv s) (hstep : Step x others s e s') (hplain : Plain s e) : Inv s' := by
  have hsim : Sim s s := ⟨hinv, rfl, rfl, rfl⟩
  cases he : e.isStatement with
  | true => exact (sim_statement hx hsim hstep hplain he).inv
  | false =>
    obtain ⟨t', -, hsim'⟩ := sim_other hx hsim hstep hplain he
    exact hsim'.inv

theorem observed_replaced {trace : List (State World × Event World)} (hrun : Run (Replaced x others) s trace last) :
    observed trace = trace.map fun step => (step.1.world, step.2) := by
  induction hrun with
  | nil s => rfl
  | cons hstep _ ih =>
    simp only [observed, List.map_cons] at ih ⊢
    rw [List.filter_cons_of_pos (by simp [hstep.2]), List.map_cons, ih]

theorem reported_replaceable {scope : Scope} {trace : List (State World × Event World)}
    (hreport : x ∈ collectUnusedCollections scope) (hinitial : Initial s) (hrun : Run (Step x others) s trace last)
    (hplain : ∀ step ∈ trace, Plain step.1 step.2) : SoundIn x others s trace last := by
  have hx : Classified x := isUnusedCollection_references (isUnusedCollection_of_mem scope hreport)
  have hinv := inv_initial hinitial
  obtain ⟨htrace, hlast⟩ := hrun.throughout_of_forall hinv (fun _ _ _ => step_inv hx) hplain
  have hview : ∀ s t : State World, Sim s t → t.world = s.world := fun _ _ h => h.world_eq
  have hshown : ∀ s e s' (t : State World), Sim s t → Step x others s e s' → Plain s e → e.isStatement = false →
      ∃ t', Replaced x others t e t' ∧ Sim s' t' := fun _ _ _ _ => sim_other hx
  obtain ⟨trace', last', hrun', hsim, hsame⟩ := hrun.hide Event.isStatement State.world State.world hview
    (fun _ _ _ _ => sim_statement hx) hshown ⟨hinv, rfl, rfl, rfl⟩ hplain
  refine ⟨⟨fun step hmem => (htrace step hmem).holds, hlast.holds⟩, trace', last', hrun', ?_, hsim.world_eq⟩
  rw [observed_replaced hrun', hsame]
  rfl

end Simulation

/-! ### Fixed runs -/

theorem fits_declared : Flag.write.Fits [.declaratorId (some (.ArrayExpression 0)), .other "VariableDeclaration"] := by decide

/-- In `let a = []`. -/
def declared : Reference :=
  ⟨.write, [.declaratorId (some (.ArrayExpression 0)), .other "VariableDeclaration"], fits_declared⟩

/-- In `a = []`. -/
def emptied : Reference := ⟨.write, [.assignmentLeft "=" (.ArrayExpression 0), .ExpressionStatement], by decide⟩

/-- In `a.push(1)`. -/
def pushed : Reference :=
  ⟨.read, [.memberObject (some "push") false, .callee "CallExpression", .ExpressionStatement], by decide⟩

/-- The variable of `let a = []; a.push(1);`, and that of `function f(a) { a.push(1); a = []; }`. -/
def localVariable : Variable := ⟨[⟨"Variable", some "VariableDeclaration", some "BlockStatement"⟩], [declared, pushed]⟩

def parameter : Variable := ⟨[⟨"Parameter", some "Program", none⟩], [pushed, emptied]⟩

/-- The scopes of a file with a function that has this variable. -/
def fileOf (x : Variable) : Scope := .mk "global" [] [.mk "function" [x] []]

def emptyArray : Content := ⟨"Array", []⟩

def start : State ℕ := ⟨0, fun _ => .other, 0, fun _ => emptyArray, fun _ => False, []⟩

def nobody (_ _ : ℕ) : Prop := False

theorem reported_replaceable_local : SoundIn localVariable nobody start
    [(start, .written declared 0 (.own 0) emptyArray), (start.create 0 emptyArray, .evaluated pushed 0 0),
      ({ start.create 0 emptyArray with pending := [(.own 0, pushed)] },
        .acted (.own 0) pushed (.method "push" [.number]) 0)]
    { start.create 0 emptyArray with
      content := Function.update (start.create 0 emptyArray).content 0 ⟨"Array", [.number]⟩ } := by
  have hreport : collectUnusedCollections (fileOf localVariable) = [localVariable] := rfl
  refine reported_replaceable (hreport ▸ List.mem_singleton_self _) ⟨fun _ => rfl, rfl⟩ ?_ ?_
  · refine .cons ?_ (.cons (.evaluated (by simp [localVariable]) (by decide) (by decide)) (.cons ?_ (.nil _)))
    · exact .created (by simp [localVariable]) (by decide) rfl ⟨rfl, rfl⟩
    · exact @Step.acted _ _ _ _ _ _ _ _ _ [] [] rfl rfl (fun _ => rfl)
        (.inl ⟨0, ⟨"Array", [.number]⟩, rfl, fun h => h.1 rfl, rfl, rfl, rfl⟩)
  · simp only [List.forall_mem_cons]
    refine ⟨⟨rfl, ?_⟩, by simp [Plain, State.create, start], ?_, by simp⟩
    · rintro init ⟨⟩
      rfl
    · rintro n ⟨⟩
      rfl

/-- The caller of `f` sees what is pushed. -/
theorem parameter_not_sound :
    ¬ ∀ (scope : Scope) x, x ∈ collectUnusedCollections scope →
      ∀ (others : ℕ → ℕ → Prop) s trace last, Initial s → Run (Step x others) s trace last →
        SoundIn x others s trace last := by
  intro h
  let bound : State ℕ := start.bind 0 .foreign
  have hrun : Run (Step parameter nobody) start
      [(start, .defined ⟨"Parameter", some "Program", none⟩ 0 .foreign), (bound, .evaluated pushed 0 0),
        ({ bound with pending := [(.foreign, pushed)] }, .acted .foreign pushed (.method "push" [.number]) 1)]
      ((bound.leak .foreign).become 1) := by
    refine .cons (.defined (by simp [parameter]) (by decide) (by simp)) (.cons ?_ (.cons ?_ (.nil _)))
    · exact .evaluated (by simp [parameter]) (by decide) (by decide)
    · exact @Step.acted _ _ _ _ _ _ _ _ _ [] [] rfl rfl (fun _ => rfl) (.inr ⟨by simp, rfl⟩)
  have hreport : collectUnusedCollections (fileOf parameter) = [parameter] := rfl
  obtain ⟨-, trace', last', hrun', hsame, hworld⟩ :=
    h _ parameter (hreport ▸ List.mem_singleton_self _) nobody start _ _ ⟨fun _ => rfl, rfl⟩ hrun
  rw [observed_replaced hrun'] at hsame
  have hdefined : trace'.map (fun step => (step.1.world, step.2)) =
      [(0, .defined ⟨"Parameter", some "Program", none⟩ 0 .foreign)] := hsame
  cases hrun' with
  | nil => cases hdefined
  | cons hstep hrest =>
    cases hrest with
    | cons => simp at hdefined
    | nil =>
      obtain ⟨-, rfl⟩ := Prod.mk.inj (List.cons.inj hdefined).1
      cases hstep.1
      cases hworld

end SonarJavascript.Rules.UnusedCollection
