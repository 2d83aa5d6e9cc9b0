import Mathlib.Logic.Relation
import SonarJavascript.Cfg.ReachingDefinitions

/-!
# What the reaching-definitions loop establishes

Two facts about every run, whether it ends or not and whatever the visits find: the references of a
segment stay, and the keys of `out` are variables that the segment or a segment before it writes
(`keys_run`). When the run ends, `in` is the join of the previous `out` states and `out` is what the
transfer function makes of `in` (`reaching_fixpoint`).
-/

namespace SonarJavascript.Cfg

open Worklist ReachingDefinitions ProgramState

variable {g : SegmentGraph} {refs : SegmentId → List Reference} {map : ReachingDefinitionsMap}
  {s t : SegmentId} {v : Variable}

/-! ### References -/

theorem mem_of_mem_references {ref : Reference} (l : List Reference)
    (h : ref ∈ (ofReferences l).references) : ref ∈ l := by
  suffices h' : ∀ (l : List Reference) (defs : ReachingDefinitions),
      ref ∈ (l.foldl ReachingDefinitions.add defs).references → ref ∈ defs.references ∨ ref ∈ l from
    (h' l {} h).resolve_left (by simp)
  intro l
  induction l with
  | nil => exact fun defs h => Or.inl h
  | cons r l ih =>
    intro defs h
    rcases ih (defs.add r) h with h | h
    · unfold ReachingDefinitions.add at h
      cases hr : r.resolved with
      | none => rw [hr] at h; exact Or.inl h
      | some w =>
        rw [hr] at h
        dsimp only at h
        split_ifs at h with hmem
        · exact Or.inl h
        · rcases List.mem_append.mp h with h | h
          · exact Or.inl h
          · exact Or.inr (List.mem_singleton.mp h ▸ List.mem_cons_self)
    · exact Or.inr (List.mem_cons_of_mem _ h)

@[simp] theorem ofReferences_out (l : List Reference) : (ofReferences l).out = ∅ := by
  suffices h : ∀ (l : List Reference) (defs : ReachingDefinitions),
      (l.foldl ReachingDefinitions.add defs).out = defs.out from h l {}
  intro l
  induction l with
  | nil => exact fun _ => rfl
  | cons r l ih =>
    intro defs
    refine (ih (defs.add r)).trans ?_
    unfold ReachingDefinitions.add
    cases r.resolved <;> rfl

theorem known_visit_out (n s : SegmentId) :
    known (((reachingDefinitions g).visit n map).1 s).out =
      if s = n then transferAll (map n).references (knownIn g map n) else known (map s).out := by
  split_ifs with h
  · subst h
    rw [reaching_visit_self, known_propagate_out]
  · rw [reaching_visit_of_ne h]

theorem visit_references (n s : SegmentId) :
    (((reachingDefinitions g).visit n map).1 s).references = (map s).references := by
  by_cases h : s = n
  · subst h
    rw [reaching_visit_self, propagate_references]
  · rw [reaching_visit_of_ne h]

@[simp] theorem run_references (k : ℕ) (s : SegmentId) :
    (((reachingDefinitions g).run k (reachingStart g refs)).store s).references =
      (ofReferences (refs s)).references := by
  refine Algorithm.holds_of_next (P := fun map : ReachingDefinitionsMap => (map s).references = (ofReferences (refs s)).references)
    rfl (fun k n rest _ h => ?_) k
  rw [visit_references, h]

/-! ### Keys -/

/-- Some reference of `s` writes `v`. -/
def WrittenIn (refs : SegmentId → List Reference) (s : SegmentId) (v : Variable) : Prop :=
  ∃ ref ∈ refs s, ref.Writes v

/-- Some segment from which `s` is reached, in one step or more, writes `v`. -/
def WrittenBefore (g : SegmentGraph) (refs : SegmentId → List Reference) (s : SegmentId) (v : Variable) :
    Prop :=
  ∃ p, Relation.TransGen (fun p t => p ∈ g.prevSegments t) p s ∧ WrittenIn refs p v

theorem mem_segments_of_transGen (hs : s ∈ g.segments)
    (h : Relation.TransGen (fun p t => p ∈ g.prevSegments t) t s) : t ∈ g.segments := by
  induction h using Relation.TransGen.head_induction_on with
  | single h => exact g.prev_mem _ hs _ h
  | head h _ ih => exact g.prev_mem _ ih _ h

theorem foldl_sup_eq_bot {l : List SegmentId} {σ : KnownState} :
    l.foldl (fun σ prev => σ ⊔ known (map prev).out) σ v = ⊥ ↔
      σ v = ⊥ ∧ ∀ p ∈ l, known (map p).out v = ⊥ := by
  induction l generalizing σ with
  | nil => simp
  | cons p l ih =>
    rw [List.foldl_cons, ih, Pi.sup_apply, sup_eq_bot_iff, and_assoc, List.forall_mem_cons]

theorem knownIn_eq_bot :
    knownIn g map s v = ⊥ ↔ ∀ p ∈ g.prevSegments s, known (map p).out v = ⊥ := by
  unfold knownIn
  rw [foldl_sup_eq_bot]
  exact and_iff_right rfl

theorem out_le_knownIn {p : SegmentId} (h : p ∈ g.prevSegments s) :
    known (map p).out ≤ knownIn g map s := by
  suffices h' : ∀ (l : List SegmentId) (σ : KnownState),
      σ ≤ l.foldl (fun σ prev => σ ⊔ known (map prev).out) σ ∧ (p ∈ l →
        known (map p).out ≤ l.foldl (fun σ prev => σ ⊔ known (map prev).out) σ) from (h' _ _).2 h
  intro l
  induction l with
  | nil => exact fun σ => ⟨le_rfl, fun h => absurd h List.not_mem_nil⟩
  | cons q l ih =>
    intro σ
    obtain ⟨hle, hmem⟩ := ih (σ ⊔ known (map q).out)
    refine ⟨le_sup_left.trans hle, fun h => ?_⟩
    rcases List.mem_cons.mp h with rfl | h
    · exact le_sup_right.trans hle
    · exact hmem h

theorem Effect.value_ne_bot (σ : KnownState) (e : Effect) : e.value σ ≠ ⊥ := by
  cases e with
  | literal raw => exact Known.oneOf_ne_bot
  | copy source =>
    rw [Effect.value_copy]
    split_ifs with h
    · exact Known.top_ne_bot
    · exact h
  | unknown => exact Known.top_ne_bot

theorem Reference.apply_of_effect? {ref : Reference} {v : Variable} {e : Effect} (σ : KnownState)
    (h : ref.effect? = some (v, e)) : ref.apply σ = Function.update σ v (e.value σ) := by
  unfold Reference.apply; rw [h]

theorem Reference.apply_ne_bot {ref : Reference} {σ : KnownState} :
    ref.apply σ v ≠ ⊥ ↔ ref.Writes v ∨ σ v ≠ ⊥ := by
  cases h : ref.effect? with
  | none =>
    have hnot : ¬ ref.Writes v := fun hw => by rw [writes_iff.mp hw] at h; cases h
    unfold Reference.apply
    rw [h]
    exact (or_iff_right hnot).symm
  | some effect =>
    obtain ⟨w, e⟩ := effect
    rw [apply_of_effect? σ h]
    obtain ⟨hw, -⟩ := writes_of_effect? h
    by_cases hv : v = w
    · subst hv
      rw [Function.update_self]
      exact iff_of_true (e.value_ne_bot σ) (Or.inl hw)
    · have hnot : ¬ ref.Writes v := fun hv' => hv (Option.some.inj (hv'.1.symm.trans hw.1))
      rw [Function.update_of_ne hv]
      exact (or_iff_right hnot).symm

/-- After a segment the program state has the keys it had before and the variables written. -/
theorem transferAll_ne_bot {references : List Reference} {σ : KnownState} :
    transferAll references σ v ≠ ⊥ ↔ (∃ ref ∈ references, ref.Writes v) ∨ σ v ≠ ⊥ := by
  unfold transferAll
  induction references generalizing σ with
  | nil => simp
  | cons ref references ih =>
    rw [List.foldl_cons, ih, Reference.apply_ne_bot]
    rw [List.exists_mem_cons_iff, or_assoc]
    exact or_left_comm

/-- The keys of `out` are variables written in the segment or before it. -/
def KeysWritten (g : SegmentGraph) (refs : SegmentId → List Reference) (map : ReachingDefinitionsMap) :
    Prop :=
  ∀ s v, known (map s).out v ≠ ⊥ → WrittenIn refs s v ∨ WrittenBefore g refs s v

theorem KeysWritten.writtenBefore (h : KeysWritten g refs map) (hne : knownIn g map s v ≠ ⊥) :
    WrittenBefore g refs s v := by
  obtain ⟨p, hp, hne⟩ : ∃ p ∈ g.prevSegments s, known (map p).out v ≠ ⊥ := by
    by_contra hnone
    exact hne (knownIn_eq_bot.mpr fun p hp => by_contra fun hne => hnone ⟨p, hp, hne⟩)
  rcases h p v hne with hw | ⟨q, hq, hw⟩
  · exact ⟨p, .single hp, hw⟩
  · exact ⟨q, hq.tail hp, hw⟩

theorem KeysWritten.start (g : SegmentGraph) (refs : SegmentId → List Reference) :
    KeysWritten g refs (reachingStart g refs).store := by
  intro s v hne
  rw [reachingStart, ofReferences_out, known_empty] at hne
  exact absurd rfl hne

theorem KeysWritten.visit (h : KeysWritten g refs map)
    (hrefs : ∀ s, (map s).references = (ofReferences (refs s)).references) (n : SegmentId) :
    KeysWritten g refs ((reachingDefinitions g).visit n map).1 := by
  intro s v
  rw [known_visit_out]
  split_ifs with hs
  · subst hs
    rw [transferAll_ne_bot]
    rintro (⟨ref, href, hw⟩ | hne)
    · rw [hrefs] at href
      exact Or.inl ⟨ref, mem_of_mem_references _ href, hw⟩
    · exact Or.inr (h.writtenBefore hne)
  · exact h s v

/-- The map after `k` turns of the loop. -/
def reachingMap (g : SegmentGraph) (refs : SegmentId → List Reference) (k : ℕ) : ReachingDefinitionsMap :=
  ((reachingDefinitions g).run k (reachingStart g refs)).store

theorem keys_run (g : SegmentGraph) (refs : SegmentId → List Reference) (k : ℕ) :
    KeysWritten g refs (reachingMap g refs k) :=
  Algorithm.holds_of_next (KeysWritten.start g refs)
    (fun k n _ _ h => h.visit (fun s => run_references k s) n) k

/-! ### The fixed point -/

/-- The segment is up to date with its previous segments. -/
def Settled (g : SegmentGraph) (s : SegmentId) (map : ReachingDefinitionsMap) : Prop :=
  known (map s).inMap = knownIn g map s ∧
    known (map s).out = transferAll (map s).references (knownIn g map s)

theorem knownIn_visit_of_unchanged {n : SegmentId} (h : ((reachingDefinitions g).visit n map).2 = false)
    (s : SegmentId) : knownIn g ((reachingDefinitions g).visit n map).1 s = knownIn g map s := by
  have hout : ∀ p, known (((reachingDefinitions g).visit n map).1 p).out = known (map p).out := by
    intro p
    rw [known_visit_out]
    split_ifs with hp
    · subst hp
      rw [reaching_visit_snd] at h
      rcases propagate_cases g map p with ⟨hc, -⟩ | ⟨-, -, heq⟩
      · rw [hc] at h; cases h
      · exact heq.symm
    · rfl
  unfold knownIn
  simp only [hout]

theorem knownIn_visit_of_not_prev {n : SegmentId} (h : n ∉ g.prevSegments s) :
    knownIn g ((reachingDefinitions g).visit n map).1 s = knownIn g map s := by
  unfold knownIn
  refine List.foldl_ext _ _ _ fun σ p hp => ?_
  have hne : p ≠ n := fun he => h (he ▸ hp)
  rw [reaching_visit_of_ne hne]

theorem settles_visit (g : ControlFlowGraph) {n : SegmentId} (hn : n ∈ g.segments) :
    (reachingDefinitions g.toSegmentGraph).Settles g.segments (Settled g.toSegmentGraph) n map := by
  intro m hm hcase
  have hin : knownIn g.toSegmentGraph ((reachingDefinitions g.toSegmentGraph).visit n map).1 m =
      knownIn g.toSegmentGraph map m ∨
        (((reachingDefinitions g.toSegmentGraph).visit n map).2 = true ∧ m ∈ g.nextSegments n) := by
    cases hc : ((reachingDefinitions g.toSegmentGraph).visit n map).2 with
    | false => exact Or.inl (knownIn_visit_of_unchanged hc m)
    | true =>
      by_cases hprev : n ∈ g.prevSegments m
      · exact Or.inr ⟨rfl, (g.mem_prev_iff n hn m hm).mp hprev⟩
      · exact Or.inl (knownIn_visit_of_not_prev hprev)
  refine hin.imp (fun hin => ?_) id
  unfold Settled
  rw [hin, known_visit_out, visit_references]
  by_cases hmn : m = n
  · subst hmn
    rw [if_pos rfl, reaching_visit_self, propagate_inMap, known_joinPrev]
    exact ⟨rfl, rfl⟩
  · rw [if_neg hmn, reaching_visit_of_ne hmn]
    exact hcase.resolve_left hmn

/-- When the loop has ended every segment is settled. -/
theorem reaching_fixpoint (g : ControlFlowGraph) (refs : SegmentId → List Reference) {k : ℕ}
    (hdone : ((reachingDefinitions g.toSegmentGraph).run k
      (reachingStart g.toSegmentGraph refs)).pending = []) :
    ∀ s ∈ g.segments, Settled g.toSegmentGraph s (reachingMap g.toSegmentGraph refs k) :=
  have hmem : ∀ k, ∀ s ∈ ((reachingDefinitions g.toSegmentGraph).run k
      (reachingStart g.toSegmentGraph refs)).pending, s ∈ g.segments :=
    Algorithm.pending_mem g.next_mem fun _ hs => List.mem_reverse.mp hs
  Algorithm.settled_of_done (fun _ hs => List.mem_reverse.mpr hs)
    (fun k n _ hp => settles_visit g (hmem k n (hp ▸ List.mem_cons_self))) hdone

end SonarJavascript.Cfg
