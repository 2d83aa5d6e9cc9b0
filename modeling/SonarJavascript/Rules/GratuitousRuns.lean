import SonarJavascript.Lib.Environments
import SonarJavascript.Lib.Runs
import SonarJavascript.Rules.GratuitousConditions

/-!
# Runs with gratuitous conditions

Activations enter branches, open and leave scopes, and read and write variables. A reported identifier has the
truth of its report (`reported_truthy`) when the test has not written it after it was read, the branch is still
being executed or nothing writes the variable again, and no other activation of the function writes it while the
branch is being executed.
-/

namespace SonarJavascript.Rules.GratuitousConditions

/-! ### Runs -/

/-- Scopes whose code runs as an activation of its own. -/
def bodies : List String := ["global", "module", "function", "class-field-initializer", "class-static-block"]

def Site.isBody : Site → Bool
  | .scope node => node.type ∈ bodies
  | .branch .. => false

/-- The binding of a variable that code in the environment refers to. -/
def locate (k : Env Site) (x : Variable) : Env Site := k.outer x.place.length

section Runs

variable {Value : Type} (truthy : Value → Bool)

/-- The activations, the values of the bindings that have one, the tests under way and the truth of the
identifiers that they have read. -/
structure State (Value : Type) where
  control : Control Site
  store : Variable → Env Site → Option Value
  testing : Env Site → Option IfStatement
  seen : Env Site → List (ℕ × Bool)

def State.Runs (s : State Value) (k : Env Site) : Prop := s.control.Runs Site.isBody k

def State.Open (s : State Value) (e : Env Site) : Prop := s.control.Open Site.isBody e

/-- The truth of a test that has read these identifiers. -/
inductive Outcome (seen : List (ℕ × Bool)) : Expression → Bool → Prop
  | Identifier {index : ℕ} {v : Bool} (hseen : (index, v) ∈ seen) : Outcome seen (.Identifier index) v
  | not {e : Expression} {v : Bool} (h : Outcome seen e !v) : Outcome seen (.not e) v
  | and_left {l r : Expression} (hl : Outcome seen l false) : Outcome seen (.logical "&&" l r) false
  | and_right {l r : Expression} {v : Bool} (hl : Outcome seen l true) (hr : Outcome seen r v) :
      Outcome seen (.logical "&&" l r) v
  | or_left {l r : Expression} (hl : Outcome seen l true) : Outcome seen (.logical "||" l r) true
  | or_right {l r : Expression} {v : Bool} (hl : Outcome seen l false) (hr : Outcome seen r v) :
      Outcome seen (.logical "||" l r) v
  | nullish_left {l r : Expression} {v : Bool} (hl : Outcome seen l v) : Outcome seen (.logical "??" l r) v
  | nullish_right {l r : Expression} {v : Bool} (hl : Outcome seen l false) (hr : Outcome seen r v) :
      Outcome seen (.logical "??" l r) v
  | other {type : String} {v : Bool} : Outcome seen (.other type) v

/-- An activation starts, opens a scope, enters a branch, leaves either, starts or ends a test, reads or writes a
variable; a binding gets its first value without a reference, or is changed by anything else (another script or
module, `arguments`, `eval`). -/
inductive Event (Value : Type)
  | called (p : Env Site) (node : ScopeNode) (n : ℕ) (values : Variable → Option Value)
  | opened (k : Env Site) (node : ScopeNode) (n : ℕ) (values : Variable → Option Value)
  | branched (k : Env Site) (parent : IfStatement) (consequent : Bool) (own : Option ScopeNode) (n : ℕ)
  | left (f : Site × ℕ) (k : Env Site)
  | tested (k : Env Site) (statement : IfStatement)
  | finished (k : Env Site)
  | evaluated (ref : Reference) (k : Env Site) (v : Value)
  | written (ref : Reference) (k : Env Site) (v : Value)
  | initialised (x : Variable) (l : Env Site) (v : Value)
  | changed (x : Variable) (l : Env Site) (v : Value)

def State.assign (s : State Value) (x : Variable) (l : Env Site) (v : Value) : State Value :=
  { s with store := fun y m => if y = x ∧ m = l then some v else s.store y m }

/-- The variables of a new environment have their first values. -/
def State.extend (s : State Value) (control : Control Site) (e : Env Site) (values : Variable → Option Value) :
    State Value :=
  { s with control := control, store := fun y m => if m = e then values y else s.store y m }

def State.setTest (s : State Value) (k : Env Site) (statement : Option IfStatement) : State Value :=
  { s with testing := Function.update s.testing k statement, seen := Function.update s.seen k [] }

/-- A test that is under way records what it reads. -/
def State.record (s : State Value) (k : Env Site) (index : ℕ) (v : Bool) : State Value :=
  match s.testing k with
  | some _ => { s with seen := Function.update s.seen k ((index, v) :: s.seen k) }
  | none => s

inductive Step (program : Program) : State Value → Event Value → State Value → Prop
  | called {s : State Value} {p : Env Site} {node : ScopeNode} {n : ℕ} {values : Variable → Option Value}
      (hp : p ∈ s.control.created) (hbody : Site.isBody (.scope node) = true)
      (hfresh : (.scope node, n) :: p ∉ s.control.created) :
      Step program s (.called p node n values)
        (s.extend (s.control.call ((.scope node, n) :: p)) ((.scope node, n) :: p) values)
  | opened {s : State Value} {k : Env Site} {node : ScopeNode} {n : ℕ} {values : Variable → Option Value}
      (hruns : s.Runs k) (hblock : Site.isBody (.scope node) = false)
      (hfresh : (.scope node, n) :: k ∉ s.control.created) :
      Step program s (.opened k node n values)
        (s.extend (s.control.enter Site.isBody (.scope node, n) k) ((.scope node, n) :: k) values)
  | branched {s : State Value} {k : Env Site} {parent : IfStatement} {consequent : Bool} {own : Option ScopeNode}
      {n : ℕ} (hruns : s.Runs k) (hfresh : (.branch parent consequent own, n) :: k ∉ s.control.created)
      (htesting : s.testing k = some parent) (houtcome : Outcome (s.seen k) parent.test consequent) :
      Step program s (.branched k parent consequent own n)
        ({ s with control := s.control.enter Site.isBody (.branch parent consequent own, n) k }.setTest k none)
  | left {s : State Value} {f : Site × ℕ} {k : Env Site} (hruns : s.Runs (f :: k))
      (hblock : Site.isBody f.1 = false) :
      Step program s (.left f k) { s with control := s.control.leave Site.isBody k }
  | tested {s : State Value} {k : Env Site} {statement : IfStatement} (hruns : s.Runs k) :
      Step program s (.tested k statement) (s.setTest k (some statement))
  | finished {s : State Value} {k : Env Site} (hruns : s.Runs k) : Step program s (.finished k) (s.setTest k none)
  | evaluated {s : State Value} {ref : Reference} {k : Env Site} {x : Variable} {v : Value} (hruns : s.Runs k)
      (hmem : ref ∈ program.references) (hplace : ref.identifier.place = k.place) (hresolved : ref.resolved = some x)
      (hv : s.store x (locate k x) = some v) :
      Step program s (.evaluated ref k v) (s.record k ref.identifier.index (truthy v))
  | written {s : State Value} {ref : Reference} {k : Env Site} {x : Variable} {v : Value} (hruns : s.Runs k)
      (hmem : ref ∈ program.references) (hplace : ref.identifier.place = k.place) (hresolved : ref.resolved = some x)
      (hwrite : ref.isWrite = true) (hinit : ref.init = true → x.lexical = true → s.store x (locate k x) = none) :
      Step program s (.written ref k v) (s.assign x (locate k x) v)
  | initialised {s : State Value} {x : Variable} {l : Env Site} {v : Value} (hnone : s.store x l = none) :
      Step program s (.initialised x l v) (s.assign x l v)
  | changed {s : State Value} {x : Variable} {l : Env Site} {v : Value} :
      Step program s (.changed x l v) (s.assign x l v)

/-- The outermost code runs. -/
structure Initial (s : State Value) : Prop where
  created_eq : s.control.created = [[]]
  testing_eq : ∀ k, s.testing k = none

/-- A reported identifier has the truth of its report. -/
def SoundIn (program : Program) (root : Node) (trace : List (State Value × Event Value)) : Prop :=
  ∀ report ∈ reported program root, ∀ s ref k v, (s, .evaluated ref k v) ∈ trace → ref.identifier = report.id →
    truthy v = report.truthy

end Runs

/-! ### What the reports rely on -/

section Conditions

variable {Value : Type} (program : Program)

/-- The test under way has read the variable with a truth known in a branch. -/
def InTest (s : State Value) (x : Variable) (l : Env Site) : Prop :=
  ∃ (k : Env Site) (parent : IfStatement) (consequent : Bool) (own : Option ScopeNode) (index : ℕ) (truth : Bool),
    s.testing k = some parent ∧ (index, truth) ∈ s.seen k ∧
      Knows program k.place parent consequent own index truth x ∧ locate k x = l

/-- The variable is known in the branch of this environment, with the scope of the branch. -/
def InBranch (s : State Value) (x : Variable) (l e : Env Site) (currentScope : Place) : Prop :=
  ∃ (k : Env Site) (parent : IfStatement) (consequent : Bool) (own : Option ScopeNode) (n index : ℕ) (truth : Bool),
    e = (.branch parent consequent own, n) :: k ∧ e ∈ s.control.created ∧
      Knows program k.place parent consequent own index truth x ∧ locate k x = l ∧
      currentScope = getScope (branchPlace k.place parent consequent own)

/-- Nothing but initialisers, which run once for a binding, writes the variable. -/
def Fixed (x : Variable) : Prop :=
  ∀ ref ∈ program.references, ref.resolved = some x → ref.isWrite = true → ref.init = true ∧ x.lexical = true

def Kept (s : State Value) (e : Env Site) (x : Variable) : Prop := s.Open e ∨ Fixed program x

/-- A variable that a test has read and a branch is to know is not written before the branch is entered; as long
as the branch runs, no other activation of its function writes the variable; in inner functions, after the branch,
only variables that are written once are read. -/
def Plain (root : Node) (s : State Value) : Event Value → Prop
  | .written ref k _ => ∀ x, ref.resolved = some x → ¬ InTest program s x (locate k x) ∧
    ∀ e currentScope, InBranch program s x (locate k x) e currentScope → s.Open e →
      getFunctionScope ref.source = getFunctionScope currentScope →
      bodyOf Site.isBody e = bodyOf Site.isBody k ∧ ref.source = getScope ref.identifier.place
  | .changed x l _ => ¬ InTest program s x l ∧
    ∀ e currentScope, InBranch program s x l e currentScope → ¬ Kept program s e x
  | .evaluated ref k _ => ∀ report ∈ reported program root, ref.identifier = report.id →
    ∀ x l e currentScope, ref.resolved = some x → e <:+ k → InBranch program s x l e currentScope → Kept program s e x
  | _ => True

end Conditions

/-! ### Known identifiers -/

section Known

variable {seen : List (ℕ × Bool)}

/-- The test has read the known identifiers with their truth. -/
def Agrees (seen : List (ℕ × Bool)) (known : List ℕ × List ℕ) : Prop :=
  (∀ index ∈ known.1, (index, true) ∈ seen) ∧ ∀ index ∈ known.2, (index, false) ∈ seen

theorem agrees_truthy {known : List ℕ × List ℕ} {index : ℕ} (h : Agrees seen known) (hindex : (index, true) ∈ seen) :
    Agrees seen (known.1 ++ [index], known.2) := by
  refine ⟨fun i hi => ?_, h.2⟩
  rcases List.mem_append.mp hi with hi | hi
  · exact h.1 i hi
  · rwa [List.mem_singleton.mp hi]

theorem agrees_falsy {known : List ℕ × List ℕ} {index : ℕ} (h : Agrees seen known) (hindex : (index, false) ∈ seen) :
    Agrees seen (known.1, known.2 ++ [index]) := by
  refine ⟨h.1, fun i hi => ?_⟩
  rcases List.mem_append.mp hi with hi | hi
  · exact h.2 i hi
  · rwa [List.mem_singleton.mp hi]

theorem outcome_identifier {index : ℕ} {v : Bool} (h : Outcome seen (.Identifier index) v) : (index, v) ∈ seen := by
  cases h with
  | Identifier hseen => exact hseen

theorem outcome_not {e : Expression} {v : Bool} (h : Outcome seen (.not e) v) : Outcome seen e !v := by
  cases h with
  | not h => exact h

theorem outcome_and {l r : Expression} (h : Outcome seen (.logical "&&" l r) true) :
    Outcome seen l true ∧ Outcome seen r true := by
  generalize hexpression : Expression.logical "&&" l r = e at h
  generalize hv : true = v at h
  cases h with
  | and_right hl hr =>
    obtain ⟨-, rfl, rfl⟩ := Expression.logical.inj hexpression
    subst hv
    exact ⟨hl, hr⟩
  | and_left => cases hv
  | Identifier | not | or_left | or_right | nullish_left | nullish_right | other => simp at hexpression

theorem checkExpr_agrees {known : List ℕ × List ℕ} {e : Expression} (h : Agrees seen known)
    (houtcome : Outcome seen e true) : Agrees seen (checkExpr known e) := by
  unfold checkExpr
  split
  · exact agrees_truthy h (outcome_identifier houtcome)
  · exact agrees_falsy h (outcome_identifier (outcome_not houtcome))
  · exact agrees_truthy h (outcome_identifier (outcome_not (outcome_not houtcome)))
  · exact h

theorem collectLoop_agrees {known : List ℕ × List ℕ} {e : Expression} (h : Agrees seen known)
    (houtcome : Outcome seen e true) : Agrees seen (collectLoop known e) := by
  induction e generalizing known with
  | logical operator l r ihl =>
    unfold collectLoop
    split_ifs with hand
    · subst hand
      obtain ⟨hl, hr⟩ := outcome_and houtcome
      exact ihl (checkExpr_agrees h hr) hl
    · exact checkExpr_agrees h houtcome
  | Identifier | not | other => exact checkExpr_agrees h houtcome

theorem collectKnownIdentifiers_agrees {e : Expression} (houtcome : Outcome seen e true) :
    Agrees seen (collectKnownIdentifiers e) :=
  collectLoop_agrees (checkExpr_agrees ⟨by simp, by simp⟩ houtcome) houtcome

variable {program : Program} {place : Place} {parent : IfStatement} {consequent : Bool} {own : Option ScopeNode}
  {index : ℕ} {truth : Bool} {x : Variable}

/-- What is known in a branch passes the filter, and a test that leads into the branch has read it so. -/
theorem knows_spec (h : Knows program place parent consequent own index truth x) :
    (∃ ref ∈ program.references, ref.identifier = ⟨place, index⟩ ∧ ref.resolved = some x) ∧
      mightBeWritten program x (getScope (branchPlace place parent consequent own)) = false ∧
      (upper (getScope (branchPlace place parent consequent own))).isSome = true ∧
      ∀ seen, Outcome seen parent.test consequent → (index, truth) ∈ seen := by
  obtain ⟨ref, hmem, hidentifier, hresolved⟩ := h
  have hfiltered : ∀ ids : List ℕ,
      ref ∈ transformAndFilter program (ids.map (⟨place, ·⟩)) (getScope (branchPlace place parent consequent own)) →
      index ∈ ids ∧ (∃ ref ∈ program.references, ref.identifier = ⟨place, index⟩ ∧ ref.resolved = some x) ∧
        mightBeWritten program x (getScope (branchPlace place parent consequent own)) = false ∧
        (upper (getScope (branchPlace place parent consequent own))).isSome = true := by
    intro ids hids
    obtain ⟨href, hid, hupper, symbol, hsymbol, hwritten⟩ := mem_transformAndFilter hids
    rw [hresolved] at hsymbol
    obtain rfl := Option.some.inj hsymbol
    rw [hidentifier] at hid
    obtain ⟨i, hi, heq⟩ := List.mem_map.mp hid
    obtain rfl : i = index := congrArg Identifier.index heq
    exact ⟨hi, ⟨ref, href, hidentifier, hresolved⟩, hwritten, by rw [← hupper]; rfl⟩
  unfold known at hmem
  cases consequent with
  | true =>
    cases truth with
    | true =>
      obtain ⟨hindex, hrest⟩ := hfiltered _ hmem
      exact ⟨hrest.1, hrest.2.1, hrest.2.2, fun seen houtcome =>
        (collectKnownIdentifiers_agrees houtcome).1 index hindex⟩
    | false =>
      obtain ⟨hindex, hrest⟩ := hfiltered _ hmem
      exact ⟨hrest.1, hrest.2.1, hrest.2.2, fun seen houtcome =>
        (collectKnownIdentifiers_agrees houtcome).2 index hindex⟩
  | false =>
    cases htest : parent.test with
    | Identifier i =>
      rw [htest] at hmem
      cases truth with
      | true => simp at hmem
      | false =>
        obtain ⟨hindex, hrest⟩ := hfiltered [i] hmem
        obtain rfl := List.mem_singleton.mp hindex
        exact ⟨hrest.1, hrest.2.1, hrest.2.2, fun seen houtcome => outcome_identifier houtcome⟩
    | not | logical | other =>
      rw [htest] at hmem
      cases truth <;> simp at hmem

end Known

/-! ### Steps -/

section Steps

variable {Value : Type} {truthy : Value → Bool} {program : Program} {root : Node} {s s' : State Value}

/-- The binding has a value of this truth. -/
def HasTruth (truthy : Value → Bool) (s : State Value) (x : Variable) (l : Env Site) (truth : Bool) : Prop :=
  ∃ v, s.store x l = some v ∧ truthy v = truth

/-- What a test under way has read, and what is kept of a branch, has the known truth. -/
structure Inv (truthy : Value → Bool) (program : Program) (s : State Value) : Prop where
  closed : s.control.Closed
  testing : ∀ k parent, s.testing k = some parent → k ∈ s.control.created
  seen : ∀ k parent consequent own index truth x, s.testing k = some parent → (index, truth) ∈ s.seen k →
    Knows program (Env.place k) parent consequent own index truth x → HasTruth truthy s x (locate k x) truth
  kept : ∀ k parent consequent own n index truth x,
    (.branch parent consequent own, n) :: k ∈ s.control.created →
    Knows program (Env.place k) parent consequent own index truth x →
    Kept program s ((.branch parent consequent own, n) :: k) x → HasTruth truthy s x (locate k x) truth

theorem inv_initial (h : Initial s) : Inv truthy program s where
  closed := by
    intro k hk e hsuffix he
    rw [h.created_eq, List.mem_singleton] at hk
    exact absurd (List.suffix_nil.mp (hk ▸ hsuffix)) he
  testing := fun k parent htesting => by simp [h.testing_eq k] at htesting
  seen := fun k parent _ _ _ _ _ htesting => by simp [h.testing_eq k] at htesting
  kept := fun k _ _ _ _ _ _ _ hmem => by simp [h.created_eq] at hmem

/-- A branch that only runs on, and bindings that keep their values. -/
theorem inv_of_eq (hinv : Inv truthy program s) (hcreated : s'.control.created = s.control.created)
    (hopen : ∀ e, s'.Open e → s.Open e) (hstore : s'.store = s.store)
    (htesting : ∀ k parent, s'.testing k = some parent → k ∈ s.control.created)
    (hseen : ∀ k parent entry, s'.testing k = some parent → entry ∈ s'.seen k →
      s.testing k = some parent ∧ entry ∈ s.seen k) : Inv truthy program s' where
  closed := by
    rw [Control.Closed, hcreated]
    exact hinv.closed
  testing := fun k parent h => by
    rw [hcreated]
    exact htesting k parent h
  seen := fun k parent consequent own index truth x h hmem hknows => by
    obtain ⟨hbefore, hmem⟩ := hseen k parent _ h hmem
    rw [HasTruth, hstore]
    exact hinv.seen k parent consequent own index truth x hbefore hmem hknows
  kept := fun k parent consequent own n index truth x hmem hknows hkept => by
    rw [hcreated] at hmem
    rw [HasTruth, hstore]
    exact hinv.kept k parent consequent own n index truth x hmem hknows (hkept.imp_left (hopen _))

theorem testing_setTest {k k' : Env Site} {statement : Option IfStatement} {parent : IfStatement}
    (h : (s.setTest k statement).testing k' = some parent) :
    (k' = k ∧ statement = some parent) ∨ (k' ≠ k ∧ s.testing k' = some parent) := by
  by_cases hk : k' = k
  · subst hk
    exact .inl ⟨rfl, by simpa [State.setTest] using h⟩
  · exact .inr ⟨hk, by simpa [State.setTest, Function.update_of_ne hk] using h⟩

theorem inv_setTest {k : Env Site} {statement : Option IfStatement} (hinv : Inv truthy program s)
    (hk : k ∈ s.control.created) : Inv truthy program (s.setTest k statement) := by
  refine inv_of_eq hinv rfl (fun _ h => h) rfl (fun k' parent h => ?_) (fun k' parent entry h hmem => ?_)
  · rcases testing_setTest h with ⟨rfl, -⟩ | ⟨-, htesting⟩
    · exact hk
    · exact hinv.testing k' parent htesting
  · rcases testing_setTest h with ⟨rfl, -⟩ | ⟨hne, htesting⟩
    · simp [State.setTest] at hmem
    · exact ⟨htesting, by simpa [State.setTest, Function.update_of_ne hne] using hmem⟩

theorem locate_ne_of_fresh {k e : Env Site} {x : Variable} (hclosed : s.control.Closed) (hk : k ∈ s.control.created)
    (hfresh : e ∉ s.control.created) (he : e ≠ []) : locate k x ≠ e := by
  rintro rfl
  exact hfresh (hclosed k hk _ Env.outer_suffix he)

theorem hasTruth_extend {control : Control Site} {e l : Env Site} {values : Variable → Option Value} {x : Variable}
    {truth : Bool} (h : HasTruth truthy s x l truth) (hl : l ≠ e) :
    HasTruth truthy (s.extend control e values) x l truth := by
  obtain ⟨v, hv, htruth⟩ := h
  exact ⟨v, by simpa [State.extend, hl] using hv, htruth⟩

/-- A new environment of a scope. -/
theorem inv_extend {node : ScopeNode} {n : ℕ} {k : Env Site} {control : Control Site}
    {values : Variable → Option Value} (hinv : Inv truthy program s) (hk : k ∈ s.control.created)
    (hfresh : (.scope node, n) :: k ∉ s.control.created)
    (hcreated : control.created = ((.scope node, n) :: k) :: s.control.created)
    (hopen : ∀ e ∈ s.control.created, control.Open Site.isBody e → s.Open e) :
    Inv truthy program (s.extend control ((.scope node, n) :: k) values) where
  closed := by
    have hclosed := Control.closed_cons (f := (.scope node, n)) hinv.closed hk control.current
    intro k' hk' e hsuffix he
    rw [State.extend] at hk' ⊢
    rw [hcreated] at hk' ⊢
    exact hclosed k' hk' e hsuffix he
  testing := fun k' parent h => by
    rw [State.extend, hcreated]
    exact List.mem_cons_of_mem _ (hinv.testing k' parent h)
  seen := fun k' parent consequent own index truth x h hmem hknows =>
    hasTruth_extend (hinv.seen k' parent consequent own index truth x h hmem hknows)
      (locate_ne_of_fresh hinv.closed (hinv.testing k' parent h) hfresh (List.cons_ne_nil _ _))
  kept := fun k' parent consequent own m index truth x hmem hknows hkept => by
    rw [State.extend, hcreated] at hmem
    have hmem : (.branch parent consequent own, m) :: k' ∈ s.control.created :=
      (List.mem_cons.mp hmem).resolve_left (by simp)
    refine hasTruth_extend (hinv.kept k' parent consequent own m index truth x hmem hknows
      (hkept.imp_left (hopen _ hmem))) fun heq => ?_
    refine hfresh (hinv.closed _ hmem _ ?_ (List.cons_ne_nil _ _))
    rw [← heq]
    exact Env.outer_suffix.trans (List.suffix_cons _ k')

/-- A branch is entered after its test, which has read what the branch knows. -/
theorem inv_branch {k : Env Site} {parent : IfStatement} {consequent : Bool} {own : Option ScopeNode} {n : ℕ}
    (hinv : Inv truthy program s) (hruns : s.Runs k)
    (hfresh : (.branch parent consequent own, n) :: k ∉ s.control.created) (htesting : s.testing k = some parent)
    (houtcome : Outcome (s.seen k) parent.test consequent) :
    Inv truthy program
      { s with control := s.control.enter Site.isBody (.branch parent consequent own, n) k } where
  closed := Control.closed_cons hinv.closed hruns.1 _
  testing := fun k' parent' h => List.mem_cons_of_mem _ (hinv.testing k' parent' h)
  seen := fun k' parent' consequent' own' index truth x h hmem hknows =>
    hinv.seen k' parent' consequent' own' index truth x h hmem hknows
  kept := fun k' parent' consequent' own' m index truth x hmem hknows hkept => by
    rcases List.mem_cons.mp hmem with heq | hmem
    · obtain ⟨hsite, rfl⟩ := List.cons.inj heq
      obtain ⟨hbranch, rfl⟩ := Prod.mk.inj hsite
      obtain ⟨rfl, rfl, rfl⟩ := Site.branch.inj hbranch
      exact hinv.seen k' parent' consequent' own' index truth x htesting
        ((knows_spec hknows).2.2.2 _ houtcome) hknows
    · exact hinv.kept k' parent' consequent' own' m index truth x hmem hknows
        (hkept.imp_left (Control.open_of_enter hruns hmem hfresh))

/-- What the test reads has the truth that is recorded. -/
theorem inv_record {ref : Reference} {k : Env Site} {x : Variable} {v : Value} (hinv : Inv truthy program s)
    (hmem : ref ∈ program.references) (hplace : ref.identifier.place = Env.place k)
    (hresolved : ref.resolved = some x) (hv : s.store x (locate k x) = some v) :
    Inv truthy program (s.record k ref.identifier.index (truthy v)) := by
  unfold State.record
  split
  · next statement hstatement =>
    refine ⟨hinv.closed, hinv.testing, fun k' parent consequent own index truth y h hseen hknows => ?_, hinv.kept⟩
    have hseen : (index, truth) ∈
        Function.update s.seen k ((ref.identifier.index, truthy v) :: s.seen k) k' := hseen
    by_cases hk : k' = k
    · subst hk
      rw [Function.update_self] at hseen
      rcases List.mem_cons.mp hseen with heq | hseen
      · obtain ⟨rfl, rfl⟩ := Prod.mk.inj heq
        obtain ⟨ref', hmem', hidentifier, hresolved'⟩ := (knows_spec hknows).1
        have hsame : ref.identifier = ref'.identifier := by rw [hidentifier, ← hplace]
        obtain rfl : x = y := Option.some.inj
          (hresolved.symm.trans ((program.resolved_eq ref hmem ref' hmem' hsame).trans hresolved'))
        exact ⟨v, hv, rfl⟩
      · exact hinv.seen k' parent consequent own index truth y h hseen hknows
    · rw [Function.update_of_ne hk] at hseen
      exact hinv.seen k' parent consequent own index truth y h hseen hknows
  · exact hinv

theorem hasTruth_assign {x y : Variable} {l m : Env Site} {v : Value} {truth : Bool}
    (h : HasTruth truthy s y m truth) (hne : ¬ (y = x ∧ m = l)) : HasTruth truthy (s.assign x l v) y m truth := by
  obtain ⟨w, hw, htruth⟩ := h
  exact ⟨w, by simpa only [State.assign, if_neg hne] using hw, htruth⟩

/-- A binding that no test has read and no branch keeps may change. -/
theorem inv_assign {x : Variable} {l : Env Site} {v : Value} (hinv : Inv truthy program s)
    (htest : ¬ InTest program s x l)
    (hbranch : ∀ e currentScope, InBranch program s x l e currentScope → ¬ Kept program s e x) :
    Inv truthy program (s.assign x l v) where
  closed := hinv.closed
  testing := hinv.testing
  seen := fun k parent consequent own index truth y h hmem hknows => by
    refine hasTruth_assign (hinv.seen k parent consequent own index truth y h hmem hknows) ?_
    rintro ⟨rfl, hl⟩
    exact htest ⟨k, parent, consequent, own, index, truth, h, hmem, hknows, hl⟩
  kept := fun k parent consequent own n index truth y hmem hknows hkept => by
    refine hasTruth_assign (hinv.kept k parent consequent own n index truth y hmem hknows hkept) ?_
    rintro ⟨rfl, hl⟩
    exact hbranch _ _ ⟨k, parent, consequent, own, n, index, truth, rfl, hmem, hknows, hl, rfl⟩ hkept

theorem inv_initialised {x : Variable} {l : Env Site} {v : Value} (hinv : Inv truthy program s)
    (hnone : s.store x l = none) : Inv truthy program (s.assign x l v) := by
  have hno : ∀ truth, ¬ HasTruth truthy s x l truth := by
    rintro truth ⟨w, hw, -⟩
    rw [hnone] at hw
    cases hw
  refine inv_assign hinv ?_ ?_
  · rintro ⟨k, parent, consequent, own, index, truth, htesting, hmem, hknows, rfl⟩
    exact hno truth (hinv.seen k parent consequent own index truth x htesting hmem hknows)
  · rintro e currentScope ⟨k, parent, consequent, own, n, index, truth, rfl, hmem, hknows, rfl, -⟩ hkept
    exact hno truth (hinv.kept k parent consequent own n index truth x hmem hknows hkept)

/-- A write in the activation of a branch that runs stands in the branch. -/
theorem not_open_of_written {ref : Reference} {k k' : Env Site} {x : Variable} {parent : IfStatement}
    {consequent truth : Bool} {own : Option ScopeNode} {n index : ℕ} (hruns : s.Runs k)
    (hmem : ref ∈ program.references) (hplace : ref.identifier.place = Env.place k)
    (hresolved : ref.resolved = some x) (hwrite : ref.isWrite = true)
    (hknows : Knows program (Env.place k') parent consequent own index truth x)
    (hplain : getFunctionScope ref.source =
      getFunctionScope (getScope (branchPlace (Env.place k') parent consequent own)) →
      bodyOf Site.isBody ((.branch parent consequent own, n) :: k') = bodyOf Site.isBody k ∧
        ref.source = getScope ref.identifier.place) :
    ¬ s.Open ((.branch parent consequent own, n) :: k') := by
  intro hopen
  obtain ⟨-, hwritten, hupper, -⟩ := knows_spec hknows
  have hnot : isInside ref.source (getScope (branchPlace (Env.place k') parent consequent own)) = false ∧
      getFunctionScope ref.source = getFunctionScope (getScope (branchPlace (Env.place k') parent consequent own)) := by
    have hall := List.any_eq_false.mp hwritten ref (List.mem_filter.mpr ⟨hmem, by simp [hresolved, hwrite]⟩)
    simpa using hall
  obtain ⟨hinside, hfunction⟩ := hnot
  obtain ⟨hbody, hsource⟩ := hplain hfunction
  have hsuffix : Env.place ((.branch parent consequent own, n) :: k') <:+ ref.identifier.place := by
    rw [hplace]
    exact Env.place_suffix (Control.suffix_of_open hopen hruns hbody)
  have hscope := branchScope_suffix (program.inner ref hmem) hsuffix
  have hne : getScope (branchPlace (Env.place k') parent consequent own) ≠ [] := by
    intro heq
    rw [heq] at hupper
    simp [upper] at hupper
  rw [hsource, isInside_getScope, isInside_of_suffix (getScope_getScope _) hne hscope] at hinside
  cases hinside

theorem inv_written {ref : Reference} {k : Env Site} {x : Variable} {v : Value} (hinv : Inv truthy program s)
    (hruns : s.Runs k) (hmem : ref ∈ program.references) (hplace : ref.identifier.place = Env.place k)
    (hresolved : ref.resolved = some x) (hwrite : ref.isWrite = true)
    (hinit : ref.init = true → x.lexical = true → s.store x (locate k x) = none)
    (hplain : Plain program root s (.written ref k v)) : Inv truthy program (s.assign x (locate k x) v) := by
  obtain ⟨htest, hbranch⟩ := hplain x hresolved
  by_cases hfixed : Fixed program x
  · obtain ⟨hrefInit, hlexical⟩ := hfixed ref hmem hresolved hwrite
    exact inv_initialised hinv (hinit hrefInit hlexical)
  · refine inv_assign hinv htest ?_
    rintro e currentScope hin (hopen | hkept)
    · have hsame := hbranch e currentScope hin hopen
      obtain ⟨k', parent, consequent, own, n, index, truth, rfl, -, hknows, -, rfl⟩ := hin
      exact not_open_of_written hruns hmem hplace hresolved hwrite hknows hsame hopen
    · exact hfixed hkept

theorem step_inv {e : Event Value} (hinv : Inv truthy program s) (hstep : Step truthy program s e s')
    (hplain : Plain program root s e) : Inv truthy program s' := by
  cases hstep with
  | called hp hbody hfresh =>
    exact inv_extend hinv hp hfresh rfl fun e he => Control.open_of_call hinv.closed he hfresh
  | opened hruns hblock hfresh =>
    exact inv_extend hinv hruns.1 hfresh rfl fun e he => Control.open_of_enter hruns he hfresh
  | branched hruns hfresh htesting houtcome =>
    exact inv_setTest (inv_branch hinv hruns hfresh htesting houtcome) (List.mem_cons_of_mem _ hruns.1)
  | left hruns hblock =>
    exact inv_of_eq hinv rfl (fun e => Control.open_of_leave hruns hblock) rfl hinv.testing
      fun k parent entry h hmem => ⟨h, hmem⟩
  | tested hruns => exact inv_setTest hinv hruns.1
  | finished hruns => exact inv_setTest hinv hruns.1
  | evaluated hruns hmem hplace hresolved hv => exact inv_record hinv hmem hplace hresolved hv
  | written hruns hmem hplace hresolved hwrite hinit =>
    exact inv_written hinv hruns hmem hplace hresolved hwrite hinit hplain
  | initialised hnone => exact inv_initialised hinv hnone
  | changed => exact inv_assign hinv hplain.1 hplain.2

/-- A reported identifier that is evaluated stands in a branch that has been entered. -/
theorem evaluated_truthy {ref : Reference} {k : Env Site} {v : Value} {report : Report}
    (hinv : Inv truthy program s) (hstep : Step truthy program s (.evaluated ref k v) s')
    (hplain : Plain program root s (.evaluated ref k v)) (hreport : report ∈ reported program root)
    (hidentifier : ref.identifier = report.id) : truthy v = report.truthy := by
  cases hstep with
  | @evaluated _ _ x _ hruns hmem hplace hresolved hv =>
    obtain ⟨outer, parent, consequent, own, index, y, hsuffix, hknows, hsymbol⟩ := reported_justified hreport
    obtain ⟨found, hfind, hfound⟩ := Option.bind_eq_some_iff.mp hsymbol
    have hspec := List.find?_some hfind
    rw [decide_eq_true_eq] at hspec
    obtain rfl : x = y := Option.some.inj (hresolved.symm.trans ((program.resolved_eq ref hmem found
      (List.mem_of_find?_eq_some hfind) (hidentifier.trans hspec.2.symm)).trans hfound))
    rw [← hidentifier, hplace] at hsuffix
    obtain ⟨e, he, heplace⟩ := Env.exists_suffix hsuffix
    match e with
    | [] => cases heplace
    | (site, n) :: k' =>
      obtain ⟨rfl, rfl⟩ := List.cons.inj heplace
      have hcreated := hinv.closed k hruns.1 _ he (List.cons_ne_nil _ _)
      have hdepth : x.place.length ≤ k'.length := by
        obtain ⟨ref', hmem', hidentifier', hresolved'⟩ := (knows_spec hknows).1
        have hlength := (program.enclosed ref' hmem' x hresolved').length_le
        rw [hidentifier'] at hlength
        simpa [Env.place] using hlength
      have hlocate : locate k x = locate k' x :=
        Env.outer_of_suffix ((List.suffix_cons _ k').trans he) hdepth
      have hkept := hplain report hreport hidentifier x (locate k' x) _ _ hresolved he
        ⟨k', parent, consequent, own, n, index, report.truthy, rfl, hcreated, hknows, rfl, rfl⟩
      obtain ⟨w, hw, htruth⟩ := hinv.kept k' parent consequent own n index report.truthy x hcreated hknows hkept
      rw [hlocate, hw] at hv
      obtain rfl := Option.some.inj hv
      exact htruth

theorem run_truthy {trace : List (State Value × Event Value)} (hinv : Inv truthy program s)
    (hrun : Run (Step truthy program) s trace s') (hplain : ∀ step ∈ trace, Plain program root step.1 step.2) :
    SoundIn truthy program root trace := by
  induction hrun with
  | nil s => exact fun report _ s ref k v hmem => absurd hmem (by simp)
  | @cons s s' last e trace hstep _ ih =>
    obtain ⟨hfirst, hrest⟩ := List.forall_mem_cons.mp hplain
    intro report hreport before ref k v hmem hidentifier
    rcases List.mem_cons.mp hmem with heq | hmem
    · obtain ⟨rfl, rfl⟩ := Prod.mk.inj heq
      exact evaluated_truthy hinv hstep hfirst hreport hidentifier
    · exact ih (step_inv hinv hstep hfirst) hrest report hreport before ref k v hmem hidentifier

theorem reported_truthy {trace : List (State Value × Event Value)} (hinitial : Initial s)
    (hrun : Run (Step truthy program) s trace s') (hplain : ∀ step ∈ trace, Plain program root step.1 step.2) :
    SoundIn truthy program root trace :=
  run_truthy (inv_initial hinitial) hrun hplain

end Steps

/-! ### Fixed runs -/

def block : ScopeNode := ⟨"block", 0⟩

def statement : IfStatement := ⟨0, .Identifier 0⟩

/-- In `function f(x) { if (x) { } }`, the place of the test and that of the block, and the variable. -/
def testPlace : Place := [.scope ⟨"function", 0⟩, .scope ⟨"global", 0⟩]

def blockPlace : Place := branchPlace testPlace statement true (some block)

def parameter : Variable := ⟨testPlace, "x", false⟩

/-- The first identifier in a place. -/
def readIn (place : Place) : Reference := ⟨⟨place, 0⟩, place, some parameter, false, false⟩

def writeAfter : Reference := ⟨⟨testPlace, 1⟩, testPlace, some parameter, true, false⟩

def arrowPlace : Place := .scope ⟨"function", 1⟩ :: blockPlace

/-- `function f(x) { if (x) { if (x) { } } }` -/
def direct : Program where
  references := [readIn testPlace, readIn blockPlace]
  inner := by simp [IsInner, readIn, testPlace, blockPlace, branchPlace, Nested, block]
  enclosed := by
    intro ref hmem x hx
    simp only [List.mem_cons, List.not_mem_nil, or_false] at hmem
    rcases hmem with rfl | rfl <;> obtain rfl := Option.some.inj hx
    · exact List.suffix_rfl
    · exact List.suffix_append [.scope block, .branch statement true (some block)] testPlace
  resolved_eq := by simp [readIn]

def directRoot : Node :=
  .other (some ⟨"global", 0⟩) [.other (some ⟨"function", 0⟩)
    [.identifier 0 .IfStatement false, .branch statement true (some block) [.identifier 0 .IfStatement false]]]

/-- `function f(x) { if (x) { later(() => { if (x) { } }); } x = null; }` -/
def deferred : Program where
  references := [readIn testPlace, readIn arrowPlace, writeAfter]
  inner := by simp [IsInner, readIn, writeAfter, testPlace, arrowPlace, blockPlace, branchPlace, Nested, block]
  enclosed := by
    intro ref hmem x hx
    simp only [List.mem_cons, List.not_mem_nil, or_false] at hmem
    rcases hmem with rfl | rfl | rfl <;> obtain rfl := Option.some.inj hx
    · exact List.suffix_rfl
    · exact List.suffix_append [.scope ⟨"function", 1⟩, .scope block, .branch statement true (some block)] testPlace
    · exact List.suffix_rfl
  resolved_eq := by simp [readIn, writeAfter]

def deferredRoot : Node :=
  .other (some ⟨"global", 0⟩) [.other (some ⟨"function", 0⟩)
    [.identifier 0 .IfStatement false,
      .branch statement true (some block) [.other (some ⟨"function", 1⟩) [.identifier 0 .IfStatement false]],
      .identifier 1 (.other "AssignmentExpression") false]]

def globalEnv : Env Site := [(.scope ⟨"global", 0⟩, 0)]

def functionEnv : Env Site := (.scope ⟨"function", 0⟩, 1) :: globalEnv

def branchEnv : Env Site := (.branch statement true (some block), 2) :: functionEnv

def blockEnv : Env Site := (.scope block, 3) :: branchEnv

def arrowEnv : Env Site := (.scope ⟨"function", 1⟩, 4) :: blockEnv

/-- Before the program, in the function, after its test has been read, in the branch, and in its block. -/
def start : State Bool := ⟨⟨[[]], fun _ => []⟩, fun _ _ => none, fun _ => none, fun _ => []⟩

def inFile : State Bool := start.extend (start.control.call globalEnv) globalEnv fun _ => none

def inFunction : State Bool := inFile.extend (inFile.control.call functionEnv) functionEnv fun _ => some true

def afterTest : State Bool := (inFunction.setTest functionEnv (some statement)).record functionEnv 0 true

def inBranch : State Bool :=
  { afterTest with
    control := afterTest.control.enter Site.isBody (.branch statement true (some block), 2) functionEnv }.setTest
      functionEnv none

def inBlock : State Bool :=
  inBranch.extend (inBranch.control.enter Site.isBody (.scope block, 3) branchEnv) blockEnv fun _ => none

def entering : List (State Bool × Event Bool) :=
  [(start, .called [] ⟨"global", 0⟩ 0 fun _ => none),
    (inFile, .called globalEnv ⟨"function", 0⟩ 1 fun _ => some true),
    (inFunction, .tested functionEnv statement),
    (inFunction.setTest functionEnv (some statement), .evaluated (readIn testPlace) functionEnv true),
    (afterTest, .branched functionEnv statement true (some block) 2),
    (inBranch, .opened branchEnv block 3 fun _ => none)]

theorem run_entering {program : Program} {rest : List (State Bool × Event Bool)} {last : State Bool}
    (hmem : readIn testPlace ∈ program.references) (hrest : Run (Step id program) inBlock rest last) :
    Run (Step id program) start (entering ++ rest) last := by
  refine .cons (.called (by decide) (by decide) (by decide)) (.cons (.called (by decide) (by decide) (by decide)) ?_)
  refine .cons (.tested ⟨by decide, by decide⟩) (.cons ?_ (.cons ?_ (.cons ?_ hrest)))
  · exact .evaluated ⟨by decide, by decide⟩ hmem rfl rfl (by decide)
  · exact .branched ⟨by decide, by decide⟩ (by decide) (by decide) (.Identifier (by decide))
  · exact .opened ⟨by decide, by decide⟩ (by decide) (by decide)

theorem plain_entering {program : Program} {root : Node} {report : Report}
    (hreported : reported program root = [report]) (hreport : report.id ≠ (readIn testPlace).identifier) :
    ∀ step ∈ entering, Plain program root step.1 step.2 := by
  simp only [entering, List.forall_mem_cons]
  refine ⟨trivial, trivial, trivial, fun other hother hidentifier => ?_, trivial, trivial, by simp⟩
  rw [hreported, List.mem_singleton] at hother
  exact absurd (hother ▸ hidentifier.symm) hreport

theorem reported_truthy_direct :
    SoundIn id direct directRoot (entering ++ [(inBlock, .evaluated (readIn blockPlace) blockEnv true)]) := by
  have hreported : reported direct directRoot = [⟨⟨blockPlace, 0⟩, readIn testPlace, true⟩] := rfl
  have hstep : Step id direct inBlock (.evaluated (readIn blockPlace) blockEnv true) inBlock :=
    .evaluated ⟨by decide, by decide⟩ (by simp [direct]) rfl rfl (by decide)
  refine reported_truthy ⟨rfl, fun _ => rfl⟩ (run_entering (by simp [direct]) (.cons hstep (.nil _))) ?_
  intro step hstep
  rcases List.mem_append.mp hstep with hstep | hstep
  · exact plain_entering hreported (by decide) step hstep
  · obtain rfl := List.mem_singleton.mp hstep
    rintro report - - x l e currentScope - hsuffix ⟨k, parent, consequent, own, n, index, truth, rfl, -⟩
    refine .inl (Control.open_of_runs (k := blockEnv) ⟨by decide, by decide⟩ hsuffix ?_)
    simp only [blockEnv, branchEnv, functionEnv, globalEnv, List.suffix_cons_iff, List.cons.injEq, Prod.mk.injEq,
      reduceCtorEq, false_and, false_or, List.suffix_nil, or_false] at hsuffix
    obtain ⟨⟨hsite, rfl⟩, rfl⟩ := hsuffix
    rw [hsite]
    rfl

/-- The inner function reads the variable after it is written. -/
theorem deferred_not_sound :
    ¬ ∀ (program : Program) root s last trace, Initial s → Run (Step id program) s trace last →
      SoundIn (id : Bool → Bool) program root trace := by
  intro h
  let outside : State Bool :=
    { inBlock with control := (inBlock.control.leave Site.isBody branchEnv).leave Site.isBody functionEnv }
  let written : State Bool := outside.assign parameter functionEnv false
  let inArrow : State Bool := written.extend (written.control.call arrowEnv) arrowEnv fun _ => none
  have hrun : Run (Step id deferred) inBlock
      [(inBlock, .left (.scope block, 3) branchEnv),
        ({ inBlock with control := inBlock.control.leave Site.isBody branchEnv },
          .left (.branch statement true (some block), 2) functionEnv),
        (outside, .written writeAfter functionEnv false), (written, .called blockEnv ⟨"function", 1⟩ 4 fun _ => none),
        (inArrow, .evaluated (readIn arrowPlace) arrowEnv false)] inArrow := by
    refine .cons (.left ⟨by decide, by decide⟩ (by decide)) (.cons (.left ⟨by decide, by decide⟩ (by decide)) ?_)
    refine .cons (.written ⟨by decide, by decide⟩ (by simp [deferred]) rfl rfl rfl (by decide)) ?_
    refine .cons (.called (by decide) (by decide) (by decide)) (.cons ?_ (.nil _))
    exact .evaluated ⟨by decide, by decide⟩ (by simp [deferred]) rfl rfl (by decide)
  have hreported : reported deferred deferredRoot = [⟨⟨arrowPlace, 0⟩, readIn testPlace, true⟩] := rfl
  have hfalse := h deferred deferredRoot start _ _ ⟨rfl, fun _ => rfl⟩ (run_entering (by simp [deferred]) hrun)
    _ (by rw [hreported]; exact List.mem_singleton_self _) inArrow (readIn arrowPlace) arrowEnv false (by simp) rfl
  cases hfalse

end SonarJavascript.Rules.GratuitousConditions
