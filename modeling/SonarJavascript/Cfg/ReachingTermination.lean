import Mathlib.Algebra.BigOperators.Group.Finset.Basic
import Mathlib.Algebra.Order.BigOperators.Group.Finset
import SonarJavascript.Cfg.ReachingFixpoint

/-!
# When the reaching-definitions loop ends

The transfer function of a segment is monotone except where it copies a variable that is not in the
program state yet: the copy then stores `unknownValue`, which a later visit may lower to a set. A run
in which that never happens to a variable that can still turn up (`Ready`) ends: every visit raises
`out`, and `out` lives in a lattice of finite height. A run in which it does happen may go on forever,
and one does: two copies that swap their values in the body of a loop keep handing an unknown value
and a literal to each other.
-/

namespace SonarJavascript.Cfg

open Worklist ReachingDefinitions ProgramState

/-! ### What a segment can find in its program state -/

variable {g : SegmentGraph} {refs : SegmentId → List Reference} {map : ReachingDefinitionsMap}
  {s t : SegmentId} {v : Variable}

/-- The copies of `references` find what they copy: it is written earlier in the segment, it is in
`σ`, or it never gets there. -/
def ReadyAt (references : List Reference) (σ : KnownState) (never : Variable → Prop) : Prop :=
  ∀ before ref after v source, references = before ++ ref :: after →
    ref.effect? = some (v, .copy source) →
    (∃ r ∈ before, r.Writes source) ∨ σ source ≠ ⊥ ∨ never source

/-- Before a visit of `s`: every variable that `s` copies, and has not written itself before the copy,
is a key of the `out` of a previous segment, or no segment leading to `s` writes it. -/
def Ready (g : SegmentGraph) (refs : SegmentId → List Reference) (map : ReachingDefinitionsMap)
    (s : SegmentId) : Prop :=
  ∀ before ref after v source, (map s).references = before ++ ref :: after →
    ref.effect? = some (v, .copy source) →
    (∃ r ∈ before, r.Writes source) ∨ (∃ p ∈ g.prevSegments s, source ∈ (map p).out) ∨
      ¬ WrittenBefore g refs s source

theorem Ready.readyAt (h : Ready g refs map s) :
    ReadyAt (map s).references (knownIn g map s) fun v => ¬ WrittenBefore g refs s v := by
  intro before ref after v source hsplit heffect
  rcases h before ref after v source hsplit heffect with h | ⟨p, hp, h⟩ | h
  · exact Or.inl h
  · refine Or.inr (Or.inl fun hbot => ?_)
    exact known_eq_bot_iff.mp (knownIn_eq_bot.mp hbot p hp) h
  · exact Or.inr (Or.inr h)

/-! ### The transfer function -/

theorem Effect.value_le {σ σ' : KnownState} (hle : σ ≤ σ') (e : Effect)
    (hcopy : ∀ source, e = .copy source → σ source ≠ ⊥ ∨ σ' source = ⊥) : e.value σ ≤ e.value σ' := by
  cases e with
  | literal raw => exact le_refl _
  | unknown => exact le_refl _
  | copy source =>
    rw [Effect.value_copy, Effect.value_copy]
    by_cases h' : σ' source = ⊥
    · rw [if_pos h']
      exact le_top
    · rcases hcopy source rfl with h | h
      · rw [if_neg h, if_neg h']
        exact hle source
      · exact absurd h h'

/-- The transfer function is monotone from states in which the copies find what they copy. -/
theorem transferAll_le {references : List Reference} {σ σ' : KnownState} (hle : σ ≤ σ')
    (hready : ReadyAt references σ fun v => σ' v = ⊥) :
    transferAll references σ ≤ transferAll references σ' := by
  induction references generalizing σ σ' with
  | nil => exact hle
  | cons ref references ih =>
    unfold transferAll
    rw [List.foldl_cons, List.foldl_cons]
    refine ih ?_ ?_
    · cases h : ref.effect? with
      | none =>
        unfold Reference.apply
        rw [h]
        exact hle
      | some effect =>
        obtain ⟨v, e⟩ := effect
        rw [Reference.apply_of_effect? σ h, Reference.apply_of_effect? σ' h]
        refine update_le_update_iff.mpr ⟨e.value_le hle ?_, fun w _ => hle w⟩
        rintro source rfl
        exact (hready [] ref references v source rfl h).resolve_left (by simp)
    · intro before ref' after v source hsplit heffect
      rcases hready (ref :: before) ref' after v source (by rw [hsplit]; rfl) heffect with h | h | h
      · obtain ⟨r, hr, hwrites⟩ := h
        rcases List.mem_cons.mp hr with rfl | hr
        · exact Or.inr (Or.inl (Reference.apply_ne_bot.mpr (Or.inl hwrites)))
        · exact Or.inl ⟨r, hr, hwrites⟩
      · exact Or.inr (Or.inl (Reference.apply_ne_bot.mpr (Or.inr h)))
      · by_cases hwrites : ref.Writes source
        · exact Or.inr (Or.inl (Reference.apply_ne_bot.mpr (Or.inl hwrites)))
        · refine Or.inr (Or.inr (by_contra fun hne => ?_))
          exact (Reference.apply_ne_bot.mp hne).elim hwrites fun hne => hne h

/-! ### The invariant -/

theorem foldl_sup_le {map' : ReachingDefinitionsMap} (h : ∀ t, known (map t).out ≤ known (map' t).out)
    (l : List SegmentId) {σ σ' : KnownState} (hσ : σ ≤ σ') :
    l.foldl (fun σ prev => σ ⊔ known (map prev).out) σ ≤
      l.foldl (fun σ prev => σ ⊔ known (map' prev).out) σ' := by
  induction l generalizing σ σ' with
  | nil => exact hσ
  | cons p l ih => exact ih (sup_le_sup hσ (h p))

theorem knownIn_le {map' : ReachingDefinitionsMap} (h : ∀ t, known (map t).out ≤ known (map' t).out)
    (s : SegmentId) : knownIn g map s ≤ knownIn g map' s :=
  foldl_sup_le h _ le_rfl

/-- The literals that the references of the segments write. -/
def literals (g : SegmentGraph) (refs : SegmentId → List Reference) : Finset LiteralValue :=
  ((g.segments.flatMap refs).filterMap fun ref =>
    match ref.effect? with
    | some (_, .literal raw) => some raw
    | _ => none).toFinset

/-- The variables that the references of the segments write. -/
def writtenVariables (g : SegmentGraph) (refs : SegmentId → List Reference) : Finset Variable :=
  ((g.segments.flatMap refs).filterMap fun ref => ref.effect?.map Prod.fst).toFinset

/-- What holds of the map all along a run whose visits are ready. `out` was computed, at the last visit,
from a state below the one that flows in now. -/
structure Rising (g : SegmentGraph) (refs : SegmentId → List Reference) (map : ReachingDefinitionsMap) :
    Prop where
  references : ∀ s, (map s).references = (ofReferences (refs s)).references
  keys : KeysWritten g refs map
  computed : ∀ s, known (map s).out = ⊥ ∨ ∃ σ, σ ≤ knownIn g map s ∧
    known (map s).out = transferAll (map s).references σ ∧
    ReadyAt (map s).references σ fun v => ¬ WrittenBefore g refs s v
  within : ∀ s v, Known.Within (literals g refs) (known (map s).out v)

/-- The state a segment was computed from is below the current one, so recomputing it raises `out`. -/
theorem Rising.out_le (h : Rising g refs map) (s : SegmentId) :
    known (map s).out ≤ transferAll (map s).references (knownIn g map s) := by
  rcases h.computed s with hbot | ⟨σ, hσ, hout, hready⟩
  · rw [hbot]; exact bot_le
  · rw [hout]
    refine transferAll_le hσ fun before ref after v source hsplit heffect => ?_
    rcases hready before ref after v source hsplit heffect with hw | hne | hnever
    · exact Or.inl hw
    · exact Or.inr (Or.inl hne)
    · exact Or.inr (Or.inr (by_contra fun hne => hnever (h.keys.writtenBefore hne)))

/-! ### One visit -/

theorem mem_literals (hs : s ∈ g.segments) {ref : Reference} (href : ref ∈ refs s) {raw : LiteralValue}
    (h : ref.effect? = some (v, .literal raw)) : raw ∈ literals g refs := by
  unfold literals
  rw [List.mem_toFinset, List.mem_filterMap]
  exact ⟨ref, List.mem_flatMap.mpr ⟨s, hs, href⟩, by rw [h]⟩

theorem mem_writtenVariables (hs : s ∈ g.segments) (h : WrittenIn refs s v) :
    v ∈ writtenVariables g refs := by
  obtain ⟨ref, href, hw⟩ := h
  unfold writtenVariables
  rw [List.mem_toFinset, List.mem_filterMap]
  exact ⟨ref, List.mem_flatMap.mpr ⟨s, hs, href⟩, by rw [Reference.writes_iff.mp hw]; rfl⟩

theorem within_transferAll {bound : Finset LiteralValue} {references : List Reference} {σ : KnownState}
    (hσ : ∀ v, Known.Within bound (σ v))
    (hlit : ∀ ref ∈ references, ∀ v raw, ref.effect? = some (v, .literal raw) → raw ∈ bound) :
    ∀ v, Known.Within bound (transferAll references σ v) := by
  unfold transferAll
  induction references generalizing σ with
  | nil => exact hσ
  | cons ref references ih =>
    refine ih ?_ fun r hr => hlit r (List.mem_cons_of_mem _ hr)
    intro v
    cases h : ref.effect? with
    | none => unfold Reference.apply; rw [h]; exact hσ v
    | some effect =>
      obtain ⟨w, e⟩ := effect
      rw [Reference.apply_of_effect? σ h]
      by_cases hv : v = w
      · subst hv
        rw [Function.update_self]
        cases e with
        | literal raw =>
          refine Known.within_oneOf.mpr (Finset.singleton_subset_iff.mpr ?_)
          exact hlit ref List.mem_cons_self v raw h
        | copy source =>
          rw [Effect.value_copy]
          split_ifs
          · exact Known.within_top _
          · exact hσ source
        | unknown => exact Known.within_top _
      · rw [Function.update_of_ne hv]; exact hσ v

theorem within_knownIn {bound : Finset LiteralValue} (h : ∀ s v, Known.Within bound (known (map s).out v)) :
    Known.Within bound (knownIn g map s v) := by
  suffices h' : ∀ (l : List SegmentId) (σ : KnownState), Known.Within bound (σ v) →
      Known.Within bound (l.foldl (fun σ prev => σ ⊔ known (map prev).out) σ v) from
    h' _ _ (Known.within_bot _)
  intro l
  induction l with
  | nil => exact fun _ hσ => hσ
  | cons p l ih => exact fun σ hσ => ih _ (Known.within_sup hσ (h p v))

theorem Rising.le_visit (h : Rising g refs map) (n s : SegmentId) :
    known (map s).out ≤ known (((reachingDefinitions g).visit n map).1 s).out := by
  rw [known_visit_out]
  split_ifs with hs
  · subst hs; exact h.out_le s
  · exact le_rfl

theorem Rising.visit (h : Rising g refs map) {n : SegmentId} (hn : n ∈ g.segments)
    (hready : Ready g refs map n) : Rising g refs ((reachingDefinitions g).visit n map).1 where
  references s := (visit_references n s).trans (h.references s)
  keys := h.keys.visit h.references n
  computed s := by
    have hle := knownIn_le (g := g) (fun t => h.le_visit n t) s
    rw [known_visit_out, visit_references]
    split_ifs with hs
    · subst hs
      exact Or.inr ⟨knownIn g map s, hle, rfl, hready.readyAt⟩
    · rcases h.computed s with hbot | ⟨σ, hσ, hout, hat⟩
      · exact Or.inl hbot
      · exact Or.inr ⟨σ, hσ.trans hle, hout, hat⟩
  within s v := by
    rw [known_visit_out]
    split_ifs with hs
    · subst hs
      refine within_transferAll (fun v => within_knownIn h.within) (fun ref href v raw heffect => ?_) v
      rw [h.references] at href
      exact mem_literals hn (mem_of_mem_references _ href) heffect
    · exact h.within s v

theorem Rising.start (g : SegmentGraph) (refs : SegmentId → List Reference) :
    Rising g refs (reachingStart g refs).store where
  references _ := rfl
  keys := KeysWritten.start g refs
  computed s := Or.inl (by rw [reachingStart, ofReferences_out, known_empty])
  within s v := by
    rw [reachingStart, ofReferences_out, known_empty]
    exact Known.within_bot _

/-! ### Termination -/

/-- How far the map has risen: the heights of the values in all `out` states. -/
def height (g : SegmentGraph) (refs : SegmentId → List Reference) (map : ReachingDefinitionsMap) : ℕ :=
  Known.totalRank (literals g refs).card (g.segments.toFinset ×ˢ writtenVariables g refs) fun i =>
    known (map i.1).out i.2

theorem Rising.grows (h : Rising g refs map) {n : SegmentId} (hn : n ∈ g.segments) :
    (reachingDefinitions g).Grows (height g refs) n map := by
  have hle : (fun i : SegmentId × Variable => known (map i.1).out i.2) ≤ fun i =>
      known (((reachingDefinitions g).visit n map).1 i.1).out i.2 := fun i => h.le_visit n i.1 i.2
  have hwithin := fun i : SegmentId × Variable => h.within i.1 i.2
  refine ⟨Known.totalRank_le hwithin hle, fun hchanged => ?_⟩
  rw [reaching_visit_snd] at hchanged
  obtain ⟨-, hout, hne⟩ | ⟨hfalse, -⟩ := propagate_cases g map n
  · -- some variable rises, and it is one that is written
    have hlt : known (map n).out < transferAll (map n).references (knownIn g map n) :=
      lt_of_le_of_ne (h.out_le n) hne
    obtain ⟨-, v, hv⟩ := Pi.lt_def.mp hlt
    have hkey : transferAll (map n).references (knownIn g map n) v ≠ ⊥ := (bot_le.trans_lt hv).ne'
    have hwritten : v ∈ writtenVariables g refs := by
      rcases transferAll_ne_bot.mp hkey with ⟨ref, href, hw⟩ | hne
      · rw [h.references] at href
        exact mem_writtenVariables hn ⟨ref, mem_of_mem_references _ href, hw⟩
      · obtain ⟨p, hp, hw⟩ := h.keys.writtenBefore hne
        exact mem_writtenVariables (mem_segments_of_transGen hn hp) hw
    refine Known.totalRank_lt hwithin hle (i := (n, v))
      (Finset.mem_product.mpr ⟨List.mem_toFinset.mpr hn, hwritten⟩) ?_
    rw [known_visit_out, if_pos rfl]
    exact hv
  · rw [hfalse] at hchanged; cases hchanged

/-- **Termination.** A run all of whose visits find what they copy ends. -/
theorem reachingDefinitions_terminates (g : SegmentGraph) (refs : SegmentId → List Reference)
    (hready : ∀ k s rest, ((reachingDefinitions g).run k (reachingStart g refs)).pending = s :: rest →
      Ready g refs ((reachingDefinitions g).run k (reachingStart g refs)).store s) :
    (reachingDefinitions g).Terminates (reachingStart g refs) := by
  have hmem : ∀ k, ∀ s ∈ ((reachingDefinitions g).run k (reachingStart g refs)).pending,
      s ∈ g.segments :=
    Algorithm.pending_mem g.next_mem fun s hs => List.mem_reverse.mp hs
  have hrising : ∀ k, Rising g refs ((reachingDefinitions g).run k (reachingStart g refs)).store :=
    Algorithm.holds_of_next (Rising.start g refs) fun k s rest hp h =>
      h.visit (hmem k s (hp ▸ List.mem_cons_self)) (hready k s rest hp)
  refine Algorithm.terminates_of_measure (height g refs) _
    (fun k => Known.totalRank_le_bound fun i => (hrising k).within i.1 i.2) fun k s rest hp => ?_
  exact (hrising k).grows (hmem k s (hp ▸ List.mem_cons_self))

/-- `y = 0; while (c()) { y = 1; x = y; }`: the copy finds `y` in its own segment. -/
def copyGraph : ControlFlowGraph where
  segments := ["s1", "s2"]
  nextSegments s := if s = "s1" ∨ s = "s2" then ["s2"] else []
  prevSegments s := if s = "s2" then ["s1", "s2"] else []
  next_mem := by decide
  prev_mem := by decide
  mem_prev_iff := by decide

def copyX : Variable := ⟨0, "x", []⟩
def copyY : Variable := ⟨1, "y", []⟩

def copyAssign (id : ℕ) (v : Variable) (rhs : WriteExprType) : Reference :=
  ⟨id, some v, false, true, some ⟨rhs, some (.assignmentExpression "=")⟩, false, ⟨[[copyX, copyY]]⟩, true,
    some (.assignmentExpression "=")⟩

def copyReferences (s : SegmentId) : List Reference :=
  if s = "s1" then [copyAssign 0 copyY (.literal (some "0"))]
  else [copyAssign 1 copyY (.literal (some "1")), copyAssign 2 copyX (.identifier "y")]

theorem reachingDefinitions_terminates_copy :
    (reachingDefinitions copyGraph.toSegmentGraph).Terminates
      (reachingStart copyGraph.toSegmentGraph copyReferences) := by
  refine reachingDefinitions_terminates copyGraph.toSegmentGraph copyReferences ?_
  intro k s rest _ before ref after v source hsplit heffect
  rw [run_references] at hsplit
  refine Or.inl ?_
  by_cases hs : s = "s1"
  · subst hs
    rw [show (ofReferences (copyReferences "s1")).references =
      [copyAssign 0 copyY (.literal (some "0"))] by decide] at hsplit
    rcases before with _ | ⟨_, before⟩
    · obtain ⟨rfl, -⟩ := List.cons.inj hsplit
      exact absurd heffect (by simp [copyAssign, Reference.effect?, effect])
    · simp at hsplit
  · have hrefs : copyReferences s = copyReferences "s2" := by simp [copyReferences, hs]
    rw [hrefs, show (ofReferences (copyReferences "s2")).references =
      [copyAssign 1 copyY (.literal (some "1")), copyAssign 2 copyX (.identifier "y")] by decide] at hsplit
    rcases before with _ | ⟨_, _ | ⟨_, before⟩⟩
    · obtain ⟨rfl, -⟩ := List.cons.inj hsplit
      exact absurd heffect (by simp [copyAssign, Reference.effect?, effect])
    · obtain ⟨rfl, htail⟩ := List.cons.inj hsplit
      obtain ⟨rfl, -⟩ := List.cons.inj htail
      have : (copyAssign 2 copyX (.identifier "y")).effect? = some (copyX, .copy copyY) := by decide
      rw [this] at heffect
      cases heffect
      exact ⟨_, List.mem_cons_self, by decide⟩
    · simp at hsplit

/-! ### A loop that does not end -/

/-- The maps give every segment the same references and the same `out`. -/
def Agree (g : SegmentGraph) (map map' : ReachingDefinitionsMap) : Prop :=
  ∀ s ∈ g.segments, (map s).references = (map' s).references ∧ equals (map s).out (map' s).out = true

instance (g : SegmentGraph) (map map' : ReachingDefinitionsMap) : Decidable (Agree g map map') :=
  inferInstanceAs (Decidable (∀ s ∈ g.segments, _))

theorem agree_iff {map' : ReachingDefinitionsMap} : Agree g map map' ↔ ∀ s ∈ g.segments,
    (map s).references = (map' s).references ∧ known (map s).out = known (map' s).out := by
  simp only [Agree, equals_iff]

theorem knownIn_congr {map' : ReachingDefinitionsMap} (h : Agree g map map') (hs : s ∈ g.segments) :
    knownIn g map s = knownIn g map' s := by
  suffices h' : ∀ (l : List SegmentId) (σ : KnownState), (∀ p ∈ l, p ∈ g.segments) →
      l.foldl (fun σ prev => σ ⊔ known (map prev).out) σ =
        l.foldl (fun σ prev => σ ⊔ known (map' prev).out) σ from h' _ _ (g.prev_mem s hs)
  intro l
  induction l with
  | nil => exact fun _ _ => rfl
  | cons p l ih =>
    intro σ hl
    rw [List.foldl_cons, List.foldl_cons, (agree_iff.mp h p (hl p List.mem_cons_self)).2]
    exact ih _ fun q hq => hl q (List.mem_cons_of_mem _ hq)

theorem respects_agree (g : SegmentGraph) : (reachingDefinitions g).Respects g.segments (Agree g) := by
  intro n hn map map' h
  have hagree := agree_iff.mp h
  have hnew : transferAll (map n).references (knownIn g map n) =
      transferAll (map' n).references (knownIn g map' n) := by
    rw [(hagree n hn).1, knownIn_congr h hn]
  refine ⟨agree_iff.mpr fun s hs => ?_, ?_⟩
  · rw [visit_references, visit_references, known_visit_out, known_visit_out, hnew, (hagree s hs).2]
    exact ⟨(hagree s hs).1, rfl⟩
  · rw [reaching_visit_snd, reaching_visit_snd]
    rcases propagate_cases g map n with ⟨hc, -, hne⟩ | ⟨hc, -, heq⟩ <;>
      rcases propagate_cases g map' n with ⟨hc', -, hne'⟩ | ⟨hc', -, heq'⟩
    · rw [hc, hc']
    · exact absurd (by rw [(hagree n hn).2, hnew]; exact heq') hne
    · exact absurd (by rw [← (hagree n hn).2, ← hnew]; exact heq) hne'
    · rw [hc, hc']

/-- `function f() { let t = 0, x = 0, q = 0; while (c()) { t = x; x = q; q = t; if (d()) { x = 1; } } }` -/
def swapGraph : ControlFlowGraph where
  segments := ["s1_1", "s2_1", "s2_2", "s2_3", "s2_4", "s2_5", "s2_6"]
  nextSegments
    | "s2_1" => ["s2_2"]
    | "s2_2" => ["s2_3", "s2_6"]
    | "s2_3" => ["s2_4", "s2_5"]
    | "s2_4" => ["s2_5"]
    | "s2_5" => ["s2_2"]
    | _ => []
  prevSegments
    | "s2_2" => ["s2_1", "s2_5"]
    | "s2_3" => ["s2_2"]
    | "s2_4" => ["s2_3"]
    | "s2_5" => ["s2_4", "s2_3"]
    | "s2_6" => ["s2_2"]
    | _ => []
  next_mem := by decide
  prev_mem := by decide
  mem_prev_iff := by decide

def swapT : Variable := ⟨1, "t", [⟨.variable, true⟩]⟩
def swapX : Variable := ⟨2, "x", [⟨.variable, true⟩]⟩
def swapQ : Variable := ⟨3, "q", [⟨.variable, true⟩]⟩

/-- The scope of the function, under `depth` block scopes without variables. -/
def swapScope (depth : ℕ) : Scope :=
  ⟨List.replicate depth [] ++ [[⟨0, "arguments", []⟩, swapT, swapX, swapQ], []]⟩

def swapRead (id : ℕ) (v : Variable) : Reference :=
  ⟨id, some v, true, false, none, false, swapScope 1, true, some (.assignmentExpression "=")⟩

def swapDeclare (id : ℕ) (v : Variable) : Reference :=
  ⟨id, some v, false, true, some ⟨.literal (some "0"), some .other⟩, false, swapScope 0, true, some .other⟩

def swapAssign (id : ℕ) (v : Variable) (rhs : WriteExprType) (depth : ℕ) : Reference :=
  ⟨id, some v, false, true, some ⟨rhs, some (.assignmentExpression "=")⟩, false, swapScope depth, true,
    some (.assignmentExpression "=")⟩

def swapReferences : SegmentId → List Reference
  | "s2_1" => [swapDeclare 0 swapT, swapDeclare 1 swapX, swapDeclare 2 swapQ]
  | "s2_3" => [swapRead 3 swapX, swapAssign 4 swapT (.identifier "x") 1, swapRead 5 swapQ,
      swapAssign 6 swapX (.identifier "q") 1, swapRead 7 swapT, swapAssign 8 swapQ (.identifier "t") 1]
  | "s2_4" => [swapAssign 9 swapX (.literal (some "1")) 2]
  | _ => []

/-- Ten turns into the run, the body of the loop is on top. -/
def swapState : State SegmentId ReachingDefinitionsMap :=
  (reachingDefinitions swapGraph.toSegmentGraph).run 10 (reachingStart swapGraph.toSegmentGraph swapReferences)

/-- The visits of `s2_3`, `s2_5`, `s2_2` and `s2_6` repeat, with the values of `t`, `x` and `q`
alternating between a literal and unknown. -/
theorem swap_not_terminates :
    ¬ (reachingDefinitions swapGraph.toSegmentGraph).Terminates
        (reachingStart swapGraph.toSegmentGraph swapReferences) := by
  rw [← Algorithm.terminates_run_iff 10]
  have hstate : (reachingDefinitions swapGraph.toSegmentGraph).run 10
      (reachingStart swapGraph.toSegmentGraph swapReferences) =
      ⟨swapState.store, ["s2_3"] ++ ["s2_4", "s2_3", "s2_2", "s2_1", "s1_1"]⟩ :=
    State.ext rfl (by decide)
  have htrans : ∀ s t u, Agree swapGraph.toSegmentGraph s t → Agree swapGraph.toSegmentGraph t u →
      Agree swapGraph.toSegmentGraph s u := fun s t u hst htu => agree_iff.mpr fun n hn =>
    ⟨(agree_iff.mp hst n hn).1.trans (agree_iff.mp htu n hn).1,
      (agree_iff.mp hst n hn).2.trans (agree_iff.mp htu n hn).2⟩
  have hstack : ((reachingDefinitions swapGraph.toSegmentGraph).run 8 ⟨swapState.store, ["s2_3"]⟩).pending =
      ["s2_3"] ++ ["s2_4", "s2_4"] := by decide
  rw [hstate]
  exact Algorithm.not_terminates_of_cycle swapGraph.next_mem (respects_agree _) htrans (by decide)
    (by decide) (by decide) (agree_iff.mpr fun _ _ => ⟨rfl, rfl⟩) (by decide) (by decide) hstack _

end SonarJavascript.Cfg
