import Mathlib.Data.List.AList
import Mathlib.Order.CompleteLattice.Basic
import SonarJavascript.Cfg.Basic
import SonarJavascript.Lib.PowersetTop
import SonarJavascript.Lib.Worklist

/-!
# Reaching definitions

`helpers/reaching-definitions.ts`: for every segment, the sets of literals that the variables may hold
on entry and on exit. A program state is a JavaScript `Map`; a variable that is not a key is one
nothing has been recorded for.

`ProgramState.known` reads a program state as a function into the lattice `Known LiteralValue`, and
the lemmas of the second half say what the operations of the source are there: `join` is the
supremum, `equals` is equality and `updateProgramState` is `Effect.apply`. The transfer function is
not monotone, because a copy from a variable that is not in the state yet gives `unknownValue`.
-/

namespace SonarJavascript.Cfg

open Worklist

abbrev LiteralValue := String

inductive Values
  | assignedValues (values : Finset LiteralValue)
  | unknownValue
  deriving DecidableEq

abbrev ProgramState := AList fun _ : Variable => Values

/-- The analysis of one segment; `inMap` is the field `in`. -/
structure ReachingDefinitions where
  inMap : ProgramState := ∅
  out : ProgramState := ∅
  references : List Reference := []

abbrev ReachingDefinitionsMap := SegmentId → ReachingDefinitions

/-! ### Names and assigned values -/

def Scope.vars (scope : Scope) : List Variable := scope.chain.headD []

def Scope.upper (scope : Scope) : Option Scope :=
  match scope.chain with
  | _ :: vars :: rest => some ⟨vars :: rest⟩
  | _ => none

/-- Looks in the scope and in its upper scope, not further. -/
def getVariableFromIdentifier (identifier : String) (scope : Scope) : Option Variable :=
  match scope.vars.find? (·.name = identifier), scope.upper with
  | some v, _ => some v
  | none, some upper => upper.vars.find? (·.name = identifier)
  | none, none => none

def resolveAssignedValues (lhsVariable : Variable) (writeExpr : Option WriteExpr)
    (assignedValuesMap : ProgramState) (scope : Scope) : Values :=
  match writeExpr with
  | none => .unknownValue
  | some expr =>
    match expr.type with
    | .literal none => .unknownValue
    | .literal (some raw) => if raw = "" then .unknownValue else .assignedValues {raw}
    | .identifier name =>
      match getVariableFromIdentifier name scope with
      | some resolvedVar =>
        if resolvedVar ≠ lhsVariable then (assignedValuesMap.lookup resolvedVar).getD .unknownValue
        else .unknownValue
      | none => .unknownValue
    | .other => .unknownValue

/-! ### Equality of program states -/

def setEquals (a b : Finset LiteralValue) : Bool := a.card = b.card && decide (a ⊆ b)

def valuesEquals : Values → Values → Bool
  | .assignedValues a, .assignedValues b => setEquals a b
  | .unknownValue, .unknownValue => true
  | _, _ => false

def equals (ps1 ps2 : ProgramState) : Bool :=
  if ps1.entries.length ≠ ps2.entries.length then false
  else ps1.entries.all fun e =>
    match ps2.lookup e.1 with
    | none => false
    | some values2 => valuesEquals values2 e.2

/-! ### One segment -/

namespace ReachingDefinitions

def add (defs : ReachingDefinitions) (ref : Reference) : ReachingDefinitions :=
  match ref.resolved with
  | none => defs
  | some _ =>
    { defs with references := if ref ∈ defs.references then defs.references else defs.references ++ [ref] }

def ofReferences (refs : List Reference) : ReachingDefinitions := refs.foldl add {}

def joinEntry (inMap : ProgramState) (key : Variable) (values : Values) : ProgramState :=
  match (inMap.lookup key).getD (.assignedValues ∅), values with
  | .assignedValues inValues, .assignedValues values => inMap.insert key (.assignedValues (inValues ∪ values))
  | _, _ => inMap.insert key .unknownValue

def join (inMap previousOut : ProgramState) : ProgramState := previousOut.foldl joinEntry inMap

def updateProgramState (programState : ProgramState) (ref : Reference) : ProgramState :=
  match ref.resolved with
  | none => programState
  | some v =>
    if ref.isWrite = false then programState
    else
      match ref.writeExpr with
      | none => programState.insert v .unknownValue
      | some _ => programState.insert v (resolveAssignedValues v ref.writeExpr programState ref.scope)

/-- The first half of `propagate`: the state joined from the previous segments. -/
def joinPrev (g : SegmentGraph) (map : ReachingDefinitionsMap) (segment : SegmentId) : ProgramState :=
  (g.prevSegments segment).foldl (fun inMap prev => join inMap (map prev).out) ∅

def propagate (g : SegmentGraph) (map : ReachingDefinitionsMap) (segment : SegmentId) :
    ReachingDefinitions × Bool :=
  let defs := map segment
  let inMap := joinPrev g map segment
  let newOut := defs.references.foldl updateProgramState inMap
  if equals defs.out newOut then ({ defs with inMap := inMap }, false)
  else ({ defs with inMap := inMap, out := newOut }, true)

end ReachingDefinitions

open ReachingDefinitions

/-- The loop of `reachingDefinitions`: a visit is `propagate`, a change pushes the next segments. -/
def reachingDefinitions (g : SegmentGraph) : Algorithm SegmentId ReachingDefinitionsMap where
  visit segment map :=
    (Function.update map segment (propagate g map segment).1, (propagate g map segment).2)
  dependents := g.nextSegments

def reachingStart (g : SegmentGraph) (refs : SegmentId → List Reference) :
    State SegmentId ReachingDefinitionsMap :=
  ⟨fun s => ofReferences (refs s), g.segments.reverse⟩

/-! ### What a write does -/

/-- What a write stores, as far as the analysis looks: a literal, the value of another variable, or
something it does not follow. -/
inductive Effect
  | literal (raw : LiteralValue)
  | copy (source : Variable)
  | unknown
  deriving DecidableEq

/-- How the analysis classifies a write of `lhsVariable`. -/
def effect (lhsVariable : Variable) (writeExpr : Option WriteExpr) (scope : Scope) : Effect :=
  match writeExpr with
  | none => .unknown
  | some expr =>
    match expr.type with
    | .literal none => .unknown
    | .literal (some raw) => if raw = "" then .unknown else .literal raw
    | .identifier name =>
      match getVariableFromIdentifier name scope with
      | some resolvedVar => if resolvedVar ≠ lhsVariable then .copy resolvedVar else .unknown
      | none => .unknown
    | .other => .unknown

/-- What the analysis knows about the variables. -/
abbrev KnownState := Variable → Known LiteralValue

/-- The value an effect stores; a variable nothing is known about is copied as `⊤`. -/
def Effect.value (σ : KnownState) : Effect → Known LiteralValue
  | .literal raw => .oneOf {raw}
  | .copy source => if σ source = ⊥ then ⊤ else σ source
  | .unknown => ⊤

theorem Effect.value_copy (σ : KnownState) (source : Variable) :
    (Effect.copy source).value σ = if σ source = ⊥ then ⊤ else σ source := rfl

/-- The variable a reference writes and what it stores. -/
def Reference.effect? (ref : Reference) : Option (Variable × Effect) :=
  match ref.resolved with
  | none => none
  | some v => if ref.isWrite = false then none else some (v, effect v ref.writeExpr ref.scope)

/-- The transfer function of one reference. -/
def Reference.apply (σ : KnownState) (ref : Reference) : KnownState :=
  match ref.effect? with
  | none => σ
  | some (v, e) => Function.update σ v (e.value σ)

theorem Reference.writes_iff {ref : Reference} {v : Variable} :
    ref.Writes v ↔ ref.effect? = some (v, effect v ref.writeExpr ref.scope) := by
  unfold Reference.Writes Reference.effect?
  cases ref.resolved with
  | none => simp
  | some w =>
    cases h : ref.isWrite
    · simp
    · simp only [Option.some.injEq, and_true, Bool.true_eq_false, if_false, Prod.mk.injEq]
      constructor
      · rintro rfl; exact ⟨rfl, rfl⟩
      · exact fun h => h.1

theorem Reference.writes_of_effect? {ref : Reference} {v : Variable} {e : Effect}
    (h : ref.effect? = some (v, e)) : ref.Writes v ∧ e = effect v ref.writeExpr ref.scope := by
  unfold Reference.Writes
  unfold Reference.effect? at h
  cases hr : ref.resolved with
  | none => simp [hr] at h
  | some w =>
    cases hw : ref.isWrite
    · simp [hr, hw] at h
    · simp only [hr, hw, Bool.true_eq_false, if_false, Option.some.injEq, Prod.mk.injEq] at h
      obtain ⟨rfl, rfl⟩ := h
      exact ⟨⟨rfl, rfl⟩, rfl⟩

/-! ### Program states as elements of a lattice -/

def Values.known : Values → Known LiteralValue
  | .assignedValues values => .oneOf values
  | .unknownValue => ⊤

theorem Values.known_injective : Function.Injective Values.known := by
  rintro (a | _) (b | _) h
  · exact congrArg _ (Known.oneOf_injective h)
  · exact absurd h Known.oneOf_ne_top
  · exact absurd h.symm Known.oneOf_ne_top
  · rfl

theorem Values.known_ne_bot (values : Values) : values.known ≠ ⊥ := by
  cases values
  · exact Known.oneOf_ne_bot
  · exact Known.top_ne_bot

namespace ProgramState

def known (ps : ProgramState) : KnownState := fun v => ((ps.lookup v).map Values.known).getD ⊥

theorem known_of_lookup {ps : ProgramState} {v : Variable} {values : Values}
    (h : ps.lookup v = some values) : known ps v = values.known := by
  unfold known; rw [h]; rfl

theorem known_eq_bot_iff {ps : ProgramState} {v : Variable} : known ps v = ⊥ ↔ v ∉ ps := by
  rw [← AList.lookup_eq_none]
  cases h : ps.lookup v with
  | none => simp [known, h]
  | some values => simp [known_of_lookup h, Values.known_ne_bot]

theorem lookup_of_known {ps : ProgramState} {v : Variable} {values : Values}
    (h : known ps v = values.known) : ps.lookup v = some values := by
  cases h' : ps.lookup v with
  | none =>
    rw [known_eq_bot_iff.mpr (AList.lookup_eq_none.mp h')] at h
    exact absurd h.symm values.known_ne_bot
  | some values' =>
    rw [known_of_lookup h'] at h
    exact congrArg some (Values.known_injective h)

@[simp] theorem known_empty : known ∅ = ⊥ := by
  funext v
  exact known_eq_bot_iff.mpr (AList.notMem_empty v)

theorem known_insert (ps : ProgramState) (v : Variable) (values : Values) :
    known (ps.insert v values) = Function.update (known ps) v values.known := by
  funext w
  by_cases h : w = v
  · subst h
    rw [Function.update_self, known_of_lookup (AList.lookup_insert ps)]
  · rw [Function.update_of_ne h]
    unfold known
    rw [AList.lookup_insert_ne h]

end ProgramState

open ProgramState

/-! ### The operations of the source in the lattice -/

theorem known_resolveAssignedValues (v : Variable) (writeExpr : Option WriteExpr) (ps : ProgramState)
    (scope : Scope) :
    (resolveAssignedValues v writeExpr ps scope).known = (effect v writeExpr scope).value (known ps) := by
  rcases writeExpr with _ | ⟨type, parent⟩
  · rfl
  cases type with
  | literal raw =>
    cases raw with
    | none => rfl
    | some raw =>
      simp only [resolveAssignedValues, effect]
      split_ifs <;> rfl
  | identifier name =>
    cases hv : getVariableFromIdentifier name scope with
    | none => simp only [resolveAssignedValues, effect, hv]; rfl
    | some resolvedVar =>
      simp only [resolveAssignedValues, effect, hv]
      split_ifs with h
      · cases hl : ps.lookup resolvedVar with
        | none =>
          rw [Effect.value_copy, if_pos (known_eq_bot_iff.mpr (AList.lookup_eq_none.mp hl))]; rfl
        | some values =>
          rw [Effect.value_copy, known_of_lookup hl, if_neg values.known_ne_bot]; rfl
      · rfl
  | other => rfl

theorem known_updateProgramState (ps : ProgramState) (ref : Reference) :
    known (updateProgramState ps ref) = ref.apply (known ps) := by
  unfold updateProgramState Reference.apply Reference.effect?
  cases ref.resolved with
  | none => rfl
  | some v =>
    cases ref.isWrite
    · rfl
    · simp only [Bool.true_eq_false, if_false]
      rw [← known_resolveAssignedValues, ← known_insert]
      cases hw : ref.writeExpr with
      | none => rfl
      | some _ => rfl

theorem known_foldl_update (refs : List Reference) (ps : ProgramState) :
    known (refs.foldl updateProgramState ps) = refs.foldl Reference.apply (known ps) := by
  induction refs generalizing ps with
  | nil => rfl
  | cons ref refs ih => rw [List.foldl_cons, List.foldl_cons, ih, known_updateProgramState]

theorem known_joinEntry (ps : ProgramState) (key : Variable) (values : Values) :
    known (joinEntry ps key values) = Function.update (known ps) key (known ps key ⊔ values.known) := by
  have hcase : ∀ inValues : Values, (ps.lookup key).getD (.assignedValues ∅) = inValues →
      known ps key ⊔ values.known = inValues.known ⊔ values.known := by
    intro inValues h
    cases hl : ps.lookup key with
    | none =>
      rw [hl] at h
      subst h
      rw [known_eq_bot_iff.mpr (AList.lookup_eq_none.mp hl), bot_sup_eq]
      cases values with
      | assignedValues b => exact congrArg Known.oneOf (Finset.empty_union b).symm
      | unknownValue => exact (sup_top_eq _).symm
    | some inValues' =>
      rw [hl] at h
      subst h
      rw [known_of_lookup hl]
      rfl
  unfold joinEntry
  cases h : (ps.lookup key).getD (.assignedValues ∅) with
  | assignedValues a =>
    rw [hcase _ h]
    cases values with
    | assignedValues b => rw [known_insert]; rfl
    | unknownValue => rw [known_insert]; exact congrArg _ (sup_top_eq _).symm
  | unknownValue =>
    rw [hcase _ h]
    rw [known_insert]
    exact congrArg _ (top_sup_eq _).symm

theorem known_foldl_joinEntry (entries : List (Sigma fun _ : Variable => Values))
    (hnodup : entries.NodupKeys) (ps : ProgramState) :
    known (entries.foldl (fun inMap e => joinEntry inMap e.1 e.2) ps) =
      known ps ⊔ known ⟨entries, hnodup⟩ := by
  induction entries generalizing ps with
  | nil => exact (sup_bot_eq (known ps)).symm.trans (congrArg _ known_empty.symm)
  | cons e entries ih =>
    have hnot := (List.nodupKeys_cons.mp hnodup).1
    have htail := (List.nodupKeys_cons.mp hnodup).2
    rw [List.foldl_cons, ih htail, known_joinEntry]
    have hcons : known ⟨e :: entries, hnodup⟩ = Function.update (known ⟨entries, htail⟩) e.1 e.2.known := by
      rw [AList.mk_cons_eq_insert e entries hnodup, known_insert]
    have hbot : known ⟨entries, htail⟩ e.1 = ⊥ :=
      known_eq_bot_iff.mpr fun h => hnot (AList.mem_keys.mp h)
    rw [hcons]
    funext v
    by_cases hv : v = e.1
    · subst hv
      simp only [Pi.sup_apply, Function.update_self, hbot, sup_bot_eq]
    · simp only [Pi.sup_apply, Function.update_of_ne hv]

theorem known_join (ps previousOut : ProgramState) :
    known (join ps previousOut) = known ps ⊔ known previousOut :=
  known_foldl_joinEntry previousOut.entries previousOut.nodupKeys ps

/-- What flows into a segment. -/
def knownIn (g : SegmentGraph) (map : ReachingDefinitionsMap) (s : SegmentId) : KnownState :=
  (g.prevSegments s).foldl (fun σ prev => σ ⊔ known (map prev).out) ⊥

theorem known_joinPrev (g : SegmentGraph) (map : ReachingDefinitionsMap) (s : SegmentId) :
    known (joinPrev g map s) = knownIn g map s := by
  have h : ∀ (l : List SegmentId) (ps : ProgramState),
      known (l.foldl (fun inMap prev => join inMap (map prev).out) ps) =
        l.foldl (fun σ prev => σ ⊔ known (map prev).out) (known ps) := by
    intro l
    induction l with
    | nil => intro ps; rfl
    | cons prev l ih => intro ps; rw [List.foldl_cons, List.foldl_cons, ih, known_join]
  unfold joinPrev knownIn
  rw [h, known_empty]

theorem setEquals_iff {a b : Finset LiteralValue} : setEquals a b = true ↔ a = b := by
  simp only [setEquals, Bool.and_eq_true, decide_eq_true_eq]
  constructor
  · exact fun h => Finset.eq_of_subset_of_card_le h.2 h.1.ge
  · rintro rfl; exact ⟨rfl, subset_rfl⟩

theorem valuesEquals_iff {a b : Values} : valuesEquals a b = true ↔ a = b := by
  cases a <;> cases b <;> simp [valuesEquals, setEquals_iff]

theorem equals_iff {ps1 ps2 : ProgramState} : equals ps1 ps2 = true ↔ known ps1 = known ps2 := by
  have hall : (ps1.entries.all fun e =>
      match ps2.lookup e.1 with
      | none => false
      | some values2 => valuesEquals values2 e.2) = true ↔
      ∀ v values, ps1.lookup v = some values → ps2.lookup v = some values := by
    rw [List.all_eq_true]
    constructor
    · intro h v values hv
      have := h ⟨v, values⟩ (AList.mem_lookup_iff.mp hv)
      dsimp only at this
      cases h2 : ps2.lookup v with
      | none => rw [h2] at this; exact absurd this (by simp)
      | some values2 => rw [h2] at this; rw [valuesEquals_iff.mp this]
    · intro h e he
      rw [h e.1 e.2 (AList.mem_lookup_iff.mpr he)]
      exact valuesEquals_iff.mpr rfl
  have hlen : ∀ ps : ProgramState, ps.entries.length = ps.keys.length := fun ps => by
    simp [AList.keys, List.keys]
  unfold equals
  constructor
  · intro h
    split_ifs at h with hne
    rw [hall] at h
    have hsub : ps1.keys ⊆ ps2.keys := by
      intro v hv
      obtain ⟨values, hv⟩ := Option.isSome_iff_exists.mp (AList.lookup_isSome.mpr (AList.mem_keys.mpr hv))
      exact AList.mem_keys.mp (AList.lookup_isSome.mp (by rw [h v values hv]; rfl))
    have hsub' : ps2.keys ⊆ ps1.keys :=
      (List.subperm_of_subset ps1.keys_nodup hsub).perm_of_length_le
        (by rw [← hlen, ← hlen]; omega) |>.symm.subset
    funext v
    cases h1 : ps1.lookup v with
    | some values => rw [known_of_lookup h1, known_of_lookup (h v values h1)]
    | none =>
      have h1' := AList.lookup_eq_none.mp h1
      rw [known_eq_bot_iff.mpr h1', known_eq_bot_iff.mpr fun h2 => h1' (hsub' h2)]
  · intro h
    have hlookup : ∀ v, ps1.lookup v = ps2.lookup v := by
      intro v
      cases h1 : ps1.lookup v with
      | some values => exact (lookup_of_known (by rw [← h, known_of_lookup h1])).symm
      | none =>
        have := known_eq_bot_iff.mpr (AList.lookup_eq_none.mp h1)
        rw [h] at this
        exact (AList.lookup_eq_none.mpr (known_eq_bot_iff.mp this)).symm
    have hperm : ps1.keys.Perm ps2.keys := (List.perm_ext_iff_of_nodup ps1.keys_nodup ps2.keys_nodup).mpr
      fun v => by rw [← AList.mem_keys, ← AList.mem_keys, ← AList.lookup_isSome, ← AList.lookup_isSome,
        hlookup]
    rw [if_neg (by rw [hlen, hlen]; exact not_not.mpr hperm.length_eq)]
    exact hall.mpr fun v values hv => hlookup v ▸ hv

/-! ### One call of `propagate` -/

/-- The transfer function of a segment. -/
def transferAll (references : List Reference) (σ : KnownState) : KnownState :=
  references.foldl Reference.apply σ

/-- `propagate` recomputes `in`, and replaces `out` when it is not what `in` gives. -/
theorem propagate_cases (g : SegmentGraph) (map : ReachingDefinitionsMap) (s : SegmentId) :
    ((propagate g map s).2 = true ∧
        known (propagate g map s).1.out = transferAll (map s).references (knownIn g map s) ∧
        known (map s).out ≠ transferAll (map s).references (knownIn g map s)) ∨
      ((propagate g map s).2 = false ∧ (propagate g map s).1.out = (map s).out ∧
        known (map s).out = transferAll (map s).references (knownIn g map s)) := by
  unfold propagate transferAll
  rw [← known_joinPrev, ← known_foldl_update]
  dsimp only
  split_ifs with h
  · exact Or.inr ⟨rfl, rfl, equals_iff.mp h⟩
  · exact Or.inl ⟨rfl, rfl, fun he => h (equals_iff.mpr he)⟩

theorem known_propagate_out (g : SegmentGraph) (map : ReachingDefinitionsMap) (s : SegmentId) :
    known (propagate g map s).1.out = transferAll (map s).references (knownIn g map s) := by
  rcases propagate_cases g map s with ⟨_, h, _⟩ | ⟨_, h, h'⟩
  · exact h
  · rw [h]; exact h'

@[simp] theorem propagate_references (g : SegmentGraph) (map : ReachingDefinitionsMap) (s : SegmentId) :
    (propagate g map s).1.references = (map s).references := by
  unfold propagate
  dsimp only
  split_ifs <;> rfl

@[simp] theorem propagate_inMap (g : SegmentGraph) (map : ReachingDefinitionsMap) (s : SegmentId) :
    (propagate g map s).1.inMap = joinPrev g map s := by
  unfold propagate
  dsimp only
  split_ifs <;> rfl

variable {g : SegmentGraph} {map : ReachingDefinitionsMap} {s t : SegmentId}

@[simp] theorem reaching_visit_snd : ((reachingDefinitions g).visit s map).2 = (propagate g map s).2 := rfl

@[simp] theorem reaching_visit_self :
    ((reachingDefinitions g).visit s map).1 s = (propagate g map s).1 :=
  Function.update_self ..

theorem reaching_visit_of_ne (h : t ≠ s) : ((reachingDefinitions g).visit s map).1 t = map t :=
  Function.update_of_ne h ..

end SonarJavascript.Cfg
