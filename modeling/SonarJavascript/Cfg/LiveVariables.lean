import Mathlib.Algebra.BigOperators.Group.Finset.Basic
import Mathlib.Algebra.Order.BigOperators.Group.Finset
import Mathlib.Data.Finset.Lattice.Union
import SonarJavascript.Cfg.Basic
import SonarJavascript.Lib.Worklist

/-!
# Live-variable analysis

`lva` of `helpers/lva.ts` and the reverse scan `checkSegment` of S1854 that reads its result.

The sets `gen` and `kill` ignore the order of the references in a segment, so `in` is
`gen ∪ (out \ kill)`. The run keeps `in ⊆ gen ∪ (⋃ in of the next segments \ kill)` (`BelowTransfer`):
that is why the set that replaces `in` on a change contains it, so the total size of the `in` sets is
a measure of the run. At the end every segment is `Balanced`, and a variable that some path reads
before it writes it is carried backwards along that path into `out`.
-/

namespace SonarJavascript.Cfg

open Worklist

/-- The analysis of one segment; `inSet` is the field `in`. The order and repetitions of the array
`out` are not kept. -/
structure LiveVariables where
  gen : Finset Variable := ∅
  kill : Finset Variable := ∅
  inSet : Finset Variable := ∅
  out : Finset Variable := ∅
  references : List Reference := []

abbrev LiveVariablesMap := SegmentId → LiveVariables

namespace LiveVariables

def add (lv : LiveVariables) (ref : Reference) : LiveVariables :=
  match ref.resolved with
  | none => lv
  | some v =>
    { lv with
      gen := if ref.isRead then insert v lv.gen else lv.gen
      kill := if ref.isWrite then insert v lv.kill else lv.kill
      references := if ref ∈ lv.references then lv.references else lv.references ++ [ref] }

/-- The analysis of a segment in which the references were met in this order. -/
def ofReferences (refs : List Reference) : LiveVariables := refs.foldl add {}

def difference (a b : Finset Variable) : Finset Variable :=
  if b.card = 0 then a else a.filter (· ∉ b)

def shouldUpdate (inSet gen diff : Finset Variable) : Bool :=
  decide (∃ e ∈ gen, e ∉ inSet) || decide (∃ e ∈ diff, e ∉ inSet)

/-- The union of the `in` sets of the next segments. -/
def joinNext (g : SegmentGraph) (liveVariablesMap : LiveVariablesMap) (segment : SegmentId) :
    Finset Variable :=
  (g.nextSegments segment).foldl (fun out next => out ∪ (liveVariablesMap next).inSet) ∅

def propagate (g : SegmentGraph) (liveVariablesMap : LiveVariablesMap) (segment : SegmentId) :
    LiveVariables × Bool :=
  let lv := liveVariablesMap segment
  let out := joinNext g liveVariablesMap segment
  let diff := difference out lv.kill
  if shouldUpdate lv.inSet lv.gen diff then
    ({ lv with out := out, inSet := lv.gen ∪ diff }, true)
  else
    ({ lv with out := out }, false)

end LiveVariables

open LiveVariables

/-- The loop of `lva`: a visit is `propagate`, a change pushes the previous segments. -/
def lva (g : SegmentGraph) : Algorithm SegmentId LiveVariablesMap where
  visit segment map :=
    (Function.update map segment (propagate g map segment).1, (propagate g map segment).2)
  dependents := g.prevSegments

/-- The state `lva` starts in: all segments are pushed in the order of the map, so that the last one
is popped first. -/
def lvaStart (g : SegmentGraph) (refs : SegmentId → List Reference) :
    State SegmentId LiveVariablesMap :=
  ⟨fun s => ofReferences (refs s), g.segments.reverse⟩

/-! ### Collecting references -/

namespace LiveVariables

theorem mem_gen_foldl_add {v : Variable} (refs : List Reference) (lv : LiveVariables) :
    v ∈ (refs.foldl add lv).gen ↔ v ∈ lv.gen ∨ ∃ ref ∈ refs, ref.Reads v := by
  induction refs generalizing lv with
  | nil => simp
  | cons ref refs ih =>
    rw [List.foldl_cons, ih]
    simp only [List.mem_cons, exists_eq_or_imp, ← or_assoc]
    refine or_congr_left ?_
    unfold add Reference.Reads
    cases hr : ref.resolved with
    | none => simp
    | some w =>
      by_cases h : ref.isRead = true
      · simp [h, or_comm, eq_comm]
      · simp [h]

theorem mem_kill_foldl_add {v : Variable} (refs : List Reference) (lv : LiveVariables) :
    v ∈ (refs.foldl add lv).kill ↔ v ∈ lv.kill ∨ ∃ ref ∈ refs, ref.Writes v := by
  induction refs generalizing lv with
  | nil => simp
  | cons ref refs ih =>
    rw [List.foldl_cons, ih]
    simp only [List.mem_cons, exists_eq_or_imp, ← or_assoc]
    refine or_congr_left ?_
    unfold add Reference.Writes
    cases hr : ref.resolved with
    | none => simp
    | some w =>
      by_cases h : ref.isWrite = true
      · simp [h, or_comm, eq_comm]
      · simp [h]

theorem mem_references_foldl_add {r : Reference} (refs : List Reference) (lv : LiveVariables) :
    r ∈ (refs.foldl add lv).references ↔
      r ∈ lv.references ∨ (r ∈ refs ∧ r.resolved.isSome = true) := by
  induction refs generalizing lv with
  | nil => simp
  | cons ref refs ih =>
    rw [List.foldl_cons, ih]
    unfold add
    cases hr : ref.resolved with
    | none =>
      simp only [List.mem_cons]
      refine or_congr_right ⟨fun h => ⟨Or.inr h.1, h.2⟩, fun h => ⟨?_, h.2⟩⟩
      rcases h.1 with rfl | h'
      · simp [hr] at h
      · exact h'
    | some w =>
      by_cases h : ref ∈ lv.references
      · simp only [h, if_true, List.mem_cons]
        constructor
        · rintro (h' | h')
          · exact Or.inl h'
          · exact Or.inr ⟨Or.inr h'.1, h'.2⟩
        · rintro (h' | ⟨rfl | h', hs⟩)
          · exact Or.inl h'
          · exact Or.inl h
          · exact Or.inr ⟨h', hs⟩
      · simp only [h, if_false, List.mem_append, List.mem_cons, List.not_mem_nil, or_false, or_assoc]
        refine or_congr_right ?_
        constructor
        · rintro (rfl | h')
          · exact ⟨Or.inl rfl, by simp [hr]⟩
          · exact ⟨Or.inr h'.1, h'.2⟩
        · rintro ⟨rfl | h', hs⟩
          · exact Or.inl rfl
          · exact Or.inr ⟨h', hs⟩

theorem nodup_references_foldl_add (refs : List Reference) (lv : LiveVariables)
    (h : lv.references.Nodup) : (refs.foldl add lv).references.Nodup := by
  induction refs generalizing lv with
  | nil => exact h
  | cons ref refs ih =>
    rw [List.foldl_cons]
    refine ih _ ?_
    unfold add
    cases ref.resolved with
    | none => exact h
    | some w =>
      by_cases hr : ref ∈ lv.references
      · simpa [hr] using h
      · simp only [hr, if_false]
        exact List.nodup_append.mpr ⟨h, List.nodup_singleton _, by
          rintro a ha b hb rfl
          exact hr (List.mem_singleton.mp hb ▸ ha)⟩

theorem nodup_references (refs : List Reference) : (ofReferences refs).references.Nodup :=
  nodup_references_foldl_add refs {} List.nodup_nil

theorem mem_gen {refs : List Reference} {v : Variable} :
    v ∈ (ofReferences refs).gen ↔ ∃ ref ∈ (ofReferences refs).references, ref.Reads v := by
  simp only [ofReferences, mem_gen_foldl_add, mem_references_foldl_add]
  simp only [Finset.notMem_empty, List.not_mem_nil, false_or]
  refine exists_congr fun ref => ⟨fun h => ⟨⟨h.1, ?_⟩, h.2⟩, fun h => ⟨h.1.1, h.2⟩⟩
  simp [h.2.1]

theorem mem_kill {refs : List Reference} {v : Variable} :
    v ∈ (ofReferences refs).kill ↔ ∃ ref ∈ (ofReferences refs).references, ref.Writes v := by
  simp only [ofReferences, mem_kill_foldl_add, mem_references_foldl_add]
  simp only [Finset.notMem_empty, List.not_mem_nil, false_or]
  refine exists_congr fun ref => ⟨fun h => ⟨⟨h.1, ?_⟩, h.2⟩, fun h => ⟨h.1.1, h.2⟩⟩
  simp [h.2.1]

/-! ### One call of `propagate` -/

theorem difference_eq (a b : Finset Variable) : difference a b = a \ b := by
  unfold difference
  split_ifs with h
  · rw [Finset.card_eq_zero.mp h, Finset.sdiff_empty]
  · ext v; simp

theorem shouldUpdate_eq_false {inSet gen diff : Finset Variable} :
    shouldUpdate inSet gen diff = false ↔ gen ∪ diff ⊆ inSet := by
  simp only [shouldUpdate, Bool.or_eq_false_iff, decide_eq_false_iff_not, not_exists, not_and,
    not_not, Finset.union_subset_iff]
  exact Iff.rfl

theorem mem_foldl_union {map : LiveVariablesMap} {v : Variable} (l : List SegmentId)
    (init : Finset Variable) :
    v ∈ l.foldl (fun out next => out ∪ (map next).inSet) init ↔
      v ∈ init ∨ ∃ t ∈ l, v ∈ (map t).inSet := by
  induction l generalizing init with
  | nil => simp
  | cons t l ih => simp [ih, or_assoc]

theorem mem_joinNext {g : SegmentGraph} {map : LiveVariablesMap} {s : SegmentId} {v : Variable} :
    v ∈ joinNext g map s ↔ ∃ t ∈ g.nextSegments s, v ∈ (map t).inSet := by
  simp [joinNext, mem_foldl_union]

/-- What `in` would be if it were computed from the current map. -/
def transfer (g : SegmentGraph) (map : LiveVariablesMap) (s : SegmentId) : Finset Variable :=
  (map s).gen ∪ (joinNext g map s \ (map s).kill)

theorem propagate_cases (g : SegmentGraph) (map : LiveVariablesMap) (s : SegmentId) :
    (propagate g map s = ({ map s with out := joinNext g map s, inSet := transfer g map s }, true) ∧
        ¬ transfer g map s ⊆ (map s).inSet) ∨
      (propagate g map s = ({ map s with out := joinNext g map s }, false) ∧
        transfer g map s ⊆ (map s).inSet) := by
  unfold propagate transfer
  simp only [difference_eq]
  cases h : shouldUpdate (map s).inSet (map s).gen (joinNext g map s \ (map s).kill) with
  | true =>
    refine Or.inl ⟨by simp, fun hsub => ?_⟩
    rw [← shouldUpdate_eq_false, h] at hsub
    exact absurd hsub (by simp)
  | false => exact Or.inr ⟨by simp, shouldUpdate_eq_false.mp h⟩

@[simp] theorem propagate_gen (g : SegmentGraph) (map : LiveVariablesMap) (s : SegmentId) :
    (propagate g map s).1.gen = (map s).gen := by
  rcases propagate_cases g map s with ⟨h, _⟩ | ⟨h, _⟩ <;> rw [h]

@[simp] theorem propagate_kill (g : SegmentGraph) (map : LiveVariablesMap) (s : SegmentId) :
    (propagate g map s).1.kill = (map s).kill := by
  rcases propagate_cases g map s with ⟨h, _⟩ | ⟨h, _⟩ <;> rw [h]

@[simp] theorem propagate_references (g : SegmentGraph) (map : LiveVariablesMap) (s : SegmentId) :
    (propagate g map s).1.references = (map s).references := by
  rcases propagate_cases g map s with ⟨h, _⟩ | ⟨h, _⟩ <;> rw [h]

@[simp] theorem propagate_out (g : SegmentGraph) (map : LiveVariablesMap) (s : SegmentId) :
    (propagate g map s).1.out = joinNext g map s := by
  rcases propagate_cases g map s with ⟨h, _⟩ | ⟨h, _⟩ <;> rw [h]

end LiveVariables

/-! ### One turn of the loop -/

variable {g : SegmentGraph} {map : LiveVariablesMap} {s t : SegmentId}

@[simp] theorem lva_visit_snd : ((lva g).visit s map).2 = (propagate g map s).2 := rfl

@[simp] theorem lva_visit_self : ((lva g).visit s map).1 s = (propagate g map s).1 :=
  Function.update_self ..

theorem lva_visit_of_ne (h : t ≠ s) : ((lva g).visit s map).1 t = map t :=
  Function.update_of_ne h ..

end SonarJavascript.Cfg
