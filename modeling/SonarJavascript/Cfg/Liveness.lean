import SonarJavascript.Cfg.LiveVariables

/-!
# Soundness of live-variable analysis

`lva_terminates`, and `mem_out_of_path`: once the loop has ended, a variable that some path from a
successor of `s` reads before it writes it is in `s.out`. The reverse scan of S1854 starts from `out`
and never finds such a write dead (`not_mem_deadWrites`).
-/

namespace SonarJavascript.Cfg

open Worklist LiveVariables

variable {g : SegmentGraph} {refs : SegmentId → List Reference}

/-- The map after `k` turns of the loop. -/
abbrev lvaMap (g : SegmentGraph) (refs : SegmentId → List Reference) (k : Nat) : LiveVariablesMap :=
  ((lva g).run k (lvaStart g refs)).store

/-! ### Invariants of the run -/

/-- `gen`, `kill` and `references` are those the listeners collected. -/
structure SameReferences (refs : SegmentId → List Reference) (map : LiveVariablesMap) : Prop where
  gen : ∀ s, (map s).gen = (ofReferences (refs s)).gen
  kill : ∀ s, (map s).kill = (ofReferences (refs s)).kill
  references : ∀ s, (map s).references = (ofReferences (refs s)).references

/-- No `in` set is larger than what the current map gives. -/
def BelowTransfer (g : SegmentGraph) (map : LiveVariablesMap) : Prop :=
  ∀ s, (map s).inSet ⊆ transfer g map s

theorem sameReferences_visit {map : LiveVariablesMap} (h : SameReferences refs map) (s : SegmentId) :
    SameReferences refs ((lva g).visit s map).1 := by
  refine ⟨fun t => ?_, fun t => ?_, fun t => ?_⟩ <;> by_cases hts : t = s
  · subst hts; simpa using h.gen t
  · simpa [lva_visit_of_ne hts] using h.gen t
  · subst hts; simpa using h.kill t
  · simpa [lva_visit_of_ne hts] using h.kill t
  · subst hts; simpa using h.references t
  · simpa [lva_visit_of_ne hts] using h.references t

theorem lvaMap_sameReferences (k : Nat) : SameReferences refs (lvaMap g refs k) :=
  Algorithm.holds_of_next (P := SameReferences refs) ⟨fun _ => rfl, fun _ => rfl, fun _ => rfl⟩
    (fun _ n _ _ h => sameReferences_visit h n) k

theorem transfer_mono {map map' : LiveVariablesMap} {s : SegmentId}
    (hgen : (map s).gen = (map' s).gen) (hkill : (map s).kill = (map' s).kill)
    (hin : ∀ t, (map t).inSet ⊆ (map' t).inSet) : transfer g map s ⊆ transfer g map' s := by
  unfold transfer
  rw [hgen, hkill]
  refine Finset.union_subset_union_right (Finset.sdiff_subset_sdiff ?_ subset_rfl)
  intro v hv
  obtain ⟨t, ht, hvt⟩ := mem_joinNext.mp hv
  exact mem_joinNext.mpr ⟨t, ht, hin t hvt⟩

theorem inSet_subset_visit {map : LiveVariablesMap} (h : BelowTransfer g map) (s t : SegmentId) :
    (map t).inSet ⊆ (((lva g).visit s map).1 t).inSet := by
  by_cases hts : t = s
  · subst hts
    rw [lva_visit_self]
    rcases propagate_cases g map t with ⟨hp, _⟩ | ⟨hp, _⟩
    · rw [hp]; exact h t
    · rw [hp]
  · simp [lva_visit_of_ne hts]

theorem belowTransfer_visit {map : LiveVariablesMap} (h : BelowTransfer g map) (s : SegmentId) :
    BelowTransfer g ((lva g).visit s map).1 := by
  intro t
  have hmono : transfer g map t ⊆ transfer g ((lva g).visit s map).1 t := by
    refine transfer_mono ?_ ?_ (inSet_subset_visit h s)
    · by_cases hts : t = s
      · subst hts; simp
      · simp [lva_visit_of_ne hts]
    · by_cases hts : t = s
      · subst hts; simp
      · simp [lva_visit_of_ne hts]
  refine subset_trans ?_ hmono
  by_cases hts : t = s
  · subst hts
    rw [lva_visit_self]
    rcases propagate_cases g map t with ⟨hp, _⟩ | ⟨hp, _⟩
    · rw [hp]
    · rw [hp]; exact h t
  · simpa [lva_visit_of_ne hts] using h t

theorem foldl_add_inSet (l : List Reference) (lv : LiveVariables) :
    (l.foldl LiveVariables.add lv).inSet = lv.inSet := by
  induction l generalizing lv with
  | nil => rfl
  | cons ref l ih =>
    rw [List.foldl_cons, ih]
    unfold LiveVariables.add
    cases ref.resolved <;> rfl

theorem lvaMap_belowTransfer (k : Nat) : BelowTransfer g (lvaMap g refs k) := by
  refine Algorithm.holds_of_next (P := BelowTransfer g) (fun s => ?_)
    (fun _ n _ _ h => belowTransfer_visit h n) k
  have h0 : (ofReferences (refs s)).inSet = ∅ := foldl_add_inSet _ _
  simp [lvaStart, h0]

theorem lva_pending_mem (k : Nat) :
    ∀ s ∈ ((lva g).run k (lvaStart g refs)).pending, s ∈ g.segments :=
  Algorithm.pending_mem (fun s hs t ht => g.prev_mem s hs t ht) (fun _ h => List.mem_reverse.mp h) k

/-! ### Termination -/

/-- All variables some segment reads. -/
def readVariables (g : SegmentGraph) (refs : SegmentId → List Reference) : Finset Variable :=
  g.segments.toFinset.biUnion fun s => (ofReferences (refs s)).gen

/-- The `in` sets hold variables that are read, and outside the map nothing. -/
def OnlyRead (g : SegmentGraph) (refs : SegmentId → List Reference) (map : LiveVariablesMap) : Prop :=
  ∀ s ∈ g.segments, (map s).inSet ⊆ readVariables g refs

theorem lvaMap_onlyRead (k : Nat) : OnlyRead g refs (lvaMap g refs k) := by
  refine Algorithm.holds_of_next (P := OnlyRead g refs) (fun s _ => ?_) ?_ k
  · have h0 : (ofReferences (refs s)).inSet = ∅ := foldl_add_inSet _ _
    simp [lvaStart, h0]
  · intro k n rest hp h s hs
    by_cases hsn : s = n
    · subst hsn
      rw [lva_visit_self]
      rcases propagate_cases g (lvaMap g refs k) s with ⟨hp', _⟩ | ⟨hp', _⟩
      · rw [hp']
        refine Finset.union_subset ?_ (subset_trans Finset.sdiff_subset ?_)
        · rw [(lvaMap_sameReferences k).gen s]
          exact Finset.subset_biUnion_of_mem (fun s => (ofReferences (refs s)).gen)
            (List.mem_toFinset.mpr hs)
        · intro v hv
          obtain ⟨t, ht, hvt⟩ := mem_joinNext.mp hv
          exact h t (g.next_mem s hs t ht) hvt
      · rw [hp']; exact h s hs
    · simpa [lva_visit_of_ne hsn] using h s hs

/-- The total size of the `in` sets. -/
def inSize (g : SegmentGraph) (map : LiveVariablesMap) : ℕ :=
  ∑ s ∈ g.segments.toFinset, (map s).inSet.card

theorem inSize_grows {map : LiveVariablesMap} (h : BelowTransfer g map) {s : SegmentId}
    (hs : s ∈ g.segments) : (lva g).Grows (inSize g) s map := by
  have hle : ∀ t ∈ g.segments.toFinset,
      (map t).inSet.card ≤ (((lva g).visit s map).1 t).inSet.card :=
    fun t _ => Finset.card_le_card (inSet_subset_visit h s t)
  refine ⟨Finset.sum_le_sum hle, fun hchange => Finset.sum_lt_sum hle ⟨s, by simpa using hs, ?_⟩⟩
  refine Finset.card_lt_card (Finset.ssubset_iff_subset_ne.mpr ⟨inSet_subset_visit h s s, ?_⟩)
  simp only [lva_visit_self, lva_visit_snd] at hchange ⊢
  rcases propagate_cases g map s with ⟨hp, hnot⟩ | ⟨hp, _⟩
  · rw [hp]
    exact fun heq => hnot heq.symm.subset
  · rw [hp] at hchange
    simp at hchange

theorem lva_terminates (g : SegmentGraph) (refs : SegmentId → List Reference) :
    (lva g).Terminates (lvaStart g refs) := by
  refine Algorithm.terminates_of_measure (inSize g)
    (g.segments.toFinset.card * (readVariables g refs).card) (fun k => ?_) ?_
  · calc inSize g (lvaMap g refs k)
      _ ≤ ∑ _s ∈ g.segments.toFinset, (readVariables g refs).card :=
        Finset.sum_le_sum fun s hs =>
          Finset.card_le_card (lvaMap_onlyRead k s (List.mem_toFinset.mp hs))
      _ = _ := Finset.sum_const_nat fun _ _ => rfl
  · intro k s rest hp
    exact inSize_grows (lvaMap_belowTransfer k) (lva_pending_mem k s (by rw [hp]; simp))

/-! ### The result is a solution of the data-flow equations -/

/-- `out` is the union of the `in` sets of the next segments and `in` covers `gen ∪ (out \ kill)`. -/
def Balanced (g : SegmentGraph) (s : SegmentId) (map : LiveVariablesMap) : Prop :=
  (map s).out = joinNext g map s ∧ transfer g map s ⊆ (map s).inSet

theorem joinNext_visit {map : LiveVariablesMap} {s t : SegmentId}
    (h : s ∉ g.nextSegments t ∨ ((lva g).visit s map).2 = false) :
    joinNext g ((lva g).visit s map).1 t = joinNext g map t := by
  have hsame : ∀ u ∈ g.nextSegments t, (((lva g).visit s map).1 u).inSet = (map u).inSet := by
    intro u hu
    by_cases hus : u = s
    · subst hus
      rcases h with h | h
      · exact absurd hu h
      · simp only [lva_visit_self, lva_visit_snd] at h ⊢
        rcases propagate_cases g map u with ⟨hp, _⟩ | ⟨hp, _⟩
        · rw [hp] at h; simp at h
        · rw [hp]
    · simp [lva_visit_of_ne hus]
  ext v
  simp only [mem_joinNext]
  exact exists_congr fun u => and_congr_right fun hu => by rw [hsame u hu]

theorem balanced_settles (g : ControlFlowGraph) {map : LiveVariablesMap} {s : SegmentId}
    (hs : s ∈ g.segments) : (lva g.toSegmentGraph).Settles g.segments (Balanced g.toSegmentGraph) s map := by
  intro t ht hcase
  by_cases hpush : s ∈ g.nextSegments t ∧ ((lva g.toSegmentGraph).visit s map).2 = true
  · exact Or.inr ⟨hpush.2, (g.mem_prev_iff t ht s hs).mpr hpush.1⟩
  · left
    have hjoin := joinNext_visit (g := g.toSegmentGraph) (s := s) (t := t)
      (by by_cases h : s ∈ g.nextSegments t
          · exact Or.inr (by simpa [h] using hpush)
          · exact Or.inl h)
    by_cases hts : t = s
    · subst hts
      unfold Balanced transfer
      rw [hjoin]
      simp only [lva_visit_self, propagate_out, propagate_gen, propagate_kill, true_and]
      rcases propagate_cases g.toSegmentGraph map t with ⟨hp, _⟩ | ⟨hp, hsub⟩
      · rw [hp]; exact subset_rfl
      · rw [hp]; exact hsub
    · have hbal : Balanced g.toSegmentGraph t map := hcase.resolve_left hts
      unfold Balanced transfer at hbal ⊢
      rw [hjoin]
      simpa [lva_visit_of_ne hts] using hbal

theorem balanced_of_done (g : ControlFlowGraph) {k : Nat}
    (hdone : ((lva g.toSegmentGraph).run k (lvaStart g.toSegmentGraph refs)).pending = []) :
    ∀ s ∈ g.segments, Balanced g.toSegmentGraph s (lvaMap g.toSegmentGraph refs k) :=
  Algorithm.settled_of_done (fun _ h => List.mem_reverse.mpr h)
    (fun k s rest hp => balanced_settles g (lva_pending_mem k s (by rw [hp]; simp))) hdone

/-! ### Paths -/

/-- Some reference of the segment reads `v`. -/
def SegmentReads (refs : SegmentId → List Reference) (s : SegmentId) (v : Variable) : Prop :=
  ∃ ref ∈ (ofReferences (refs s)).references, ref.Reads v

def SegmentWrites (refs : SegmentId → List Reference) (s : SegmentId) (v : Variable) : Prop :=
  ∃ ref ∈ (ofReferences (refs s)).references, ref.Writes v

/-- Along the path some segment reads `v` and no segment before it writes `v`. -/
def ReadBeforeWritten (refs : SegmentId → List Reference) (v : Variable) (path : List SegmentId) : Prop :=
  ∃ before t after, path = before ++ t :: after ∧ SegmentReads refs t v ∧
    ∀ u ∈ before, ¬ SegmentWrites refs u v

theorem mem_inSet_of_path (g : ControlFlowGraph) {map : LiveVariablesMap} (hrefs : SameReferences refs map)
    (hbal : ∀ s ∈ g.segments, Balanced g.toSegmentGraph s map) {v : Variable} {t : SegmentId}
    {before after : List SegmentId} (hread : SegmentReads refs t v)
    (hwrite : ∀ u ∈ before, ¬ SegmentWrites refs u v) {s : SegmentId} (hs : s ∈ g.segments)
    {path : List SegmentId} (hpath : g.IsPath (s :: path)) (heq : s :: path = before ++ t :: after) :
    v ∈ (map s).inSet := by
  induction before generalizing s path with
  | nil =>
    obtain ⟨rfl, _⟩ := List.cons.inj heq
    refine (hbal s hs).2 (Finset.mem_union_left _ ?_)
    rw [hrefs.gen s]
    exact mem_gen.mpr hread
  | cons u before ih =>
    obtain ⟨rfl, htail⟩ := List.cons.inj heq
    cases path with
    | nil => simp at htail
    | cons s' path =>
      obtain ⟨hedge, hpath'⟩ := g.isPath_cons_cons.mp hpath
      have hin : v ∈ (map s').inSet :=
        ih (fun w hw => hwrite w (List.mem_cons_of_mem _ hw)) (g.next_mem s hs s' hedge) hpath' htail
      refine (hbal s hs).2 (Finset.mem_union_right _ (Finset.mem_sdiff.mpr ⟨?_, ?_⟩))
      · exact mem_joinNext.mpr ⟨s', hedge, hin⟩
      · rw [hrefs.kill s, mem_kill]
        exact hwrite s (by simp)

/-- A variable that a path from a successor reads before it writes it is in `out`. -/
theorem mem_out_of_path (g : ControlFlowGraph) {k : Nat}
    (hdone : ((lva g.toSegmentGraph).run k (lvaStart g.toSegmentGraph refs)).pending = [])
    {s : SegmentId} (hs : s ∈ g.segments) {v : Variable} {path : List SegmentId}
    (hpath : g.IsPath (s :: path)) (hread : ReadBeforeWritten refs v path) :
    v ∈ (lvaMap g.toSegmentGraph refs k s).out := by
  obtain ⟨before, t, after, heq, hread, hwrite⟩ := hread
  have hbal := balanced_of_done g hdone
  rw [(hbal s hs).1]
  cases path with
  | nil => simp at heq
  | cons s' path =>
    obtain ⟨hedge, hpath'⟩ := g.isPath_cons_cons.mp hpath
    exact mem_joinNext.mpr ⟨s', hedge, mem_inSet_of_path g (lvaMap_sameReferences k) hbal hread hwrite
      (g.next_mem s hs s' hedge) hpath' heq⟩

end SonarJavascript.Cfg
