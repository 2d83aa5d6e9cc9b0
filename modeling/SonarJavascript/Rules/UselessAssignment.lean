import SonarJavascript.Cfg.Liveness

/-!
# S1854: useless assignments

`checkSegment` walks the references of a segment from the last to the first and reports a write of a
variable that is not in `willBeRead`. The condition `shouldReport` only takes reports away, so it is a
parameter here: a write that some path reads is not reported under any condition.
-/

namespace SonarJavascript.Rules.S1854

open Cfg Worklist LiveVariables

/-- The local `willBeRead` of the scan, and the references reported so far. -/
structure Scan where
  willBeRead : Finset Variable
  reported : List Reference

variable (shouldReport : Reference → Bool)

def checkReference (scan : Scan) (ref : Reference) : Scan :=
  match ref.resolved with
  | none => scan
  | some v =>
    let written : Scan :=
      if ref.isWrite then
        ⟨scan.willBeRead.erase v,
          if v ∉ scan.willBeRead ∧ shouldReport ref = true then scan.reported ++ [ref] else scan.reported⟩
      else scan
    if ref.isRead then { written with willBeRead := insert v written.willBeRead } else written

def checkReferences (out : Finset Variable) (references : List Reference) : Scan :=
  references.reverse.foldl (checkReference shouldReport) ⟨out, []⟩

def checkSegment (lv : LiveVariables) : List Reference :=
  (checkReferences shouldReport lv.out lv.references).reported

/-- In the sequence of references `v` is read before it is written. A reference that reads and writes
reads first. -/
def ReadFirst (v : Variable) (references : List Reference) : Prop :=
  ∃ before ref after, references = before ++ ref :: after ∧ ref.Reads v ∧ ∀ r ∈ before, ¬ r.Writes v

variable {shouldReport}

theorem readFirst_cons {v : Variable} {ref : Reference} {l : List Reference} :
    ReadFirst v (ref :: l) ↔ ref.Reads v ∨ (¬ ref.Writes v ∧ ReadFirst v l) := by
  constructor
  · rintro ⟨before, r, after, heq, hread, hwrite⟩
    cases before with
    | nil =>
      obtain ⟨rfl, _⟩ := List.cons.inj heq
      exact Or.inl hread
    | cons b before =>
      obtain ⟨rfl, rfl⟩ := List.cons.inj heq
      exact Or.inr ⟨hwrite ref (by simp),
        before, r, after, rfl, hread, fun x hx => hwrite x (List.mem_cons_of_mem _ hx)⟩
  · rintro (hread | ⟨hnot, before, r, after, rfl, hread, hwrite⟩)
    · exact ⟨[], ref, l, rfl, hread, by simp⟩
    · refine ⟨ref :: before, r, after, rfl, hread, fun x hx => ?_⟩
      rcases List.mem_cons.mp hx with rfl | hx
      · exact hnot
      · exact hwrite x hx

theorem readFirst_append {v : Variable} {l l' : List Reference} :
    ReadFirst v (l ++ l') ↔ ReadFirst v l ∨ ((∀ r ∈ l, ¬ r.Writes v) ∧ ReadFirst v l') := by
  induction l with
  | nil =>
    have : ¬ ReadFirst v [] := by
      rintro ⟨before, ref, after, heq, -⟩
      simp at heq
    simp [this]
  | cons ref l ih =>
    rw [List.cons_append, readFirst_cons, readFirst_cons, ih]
    simp only [List.mem_cons, forall_eq_or_imp]
    tauto

theorem mem_willBeRead {v : Variable} {out : Finset Variable} (references : List Reference)
    (h : ReadFirst v references ∨ ((∀ r ∈ references, ¬ r.Writes v) ∧ v ∈ out)) :
    v ∈ (checkReferences shouldReport out references).willBeRead := by
  unfold checkReferences
  induction references with
  | nil =>
    rcases h with ⟨before, ref, after, heq, -⟩ | h
    · simp at heq
    · exact h.2
  | cons ref l ih =>
    rw [List.reverse_cons, List.foldl_append, List.foldl_cons, List.foldl_nil]
    have hcase : ref.Reads v ∨ (¬ ref.Writes v ∧
        v ∈ (l.reverse.foldl (checkReference shouldReport) ⟨out, []⟩).willBeRead) := by
      rcases h with h | ⟨hwrite, hout⟩
      · rcases readFirst_cons.mp h with h | ⟨hnot, h⟩
        · exact Or.inl h
        · exact Or.inr ⟨hnot, ih (Or.inl h)⟩
      · exact Or.inr ⟨hwrite ref (by simp),
          ih (Or.inr ⟨fun r hr => hwrite r (List.mem_cons_of_mem _ hr), hout⟩)⟩
    revert hcase
    generalize l.reverse.foldl (checkReference shouldReport) ⟨out, []⟩ = scan
    intro hcase
    unfold checkReference
    unfold Reference.Reads Reference.Writes at hcase
    cases hr : ref.resolved with
    | none => simpa [hr] using hcase
    | some w =>
      rw [hr] at hcase
      by_cases hw : w = v
      · subst hw
        rcases hcase with ⟨_, hread⟩ | ⟨hnot, hmem⟩
        · simp [hread]
        · have hwrite : ref.isWrite = false := by simpa using hnot
          simp only [hwrite, Bool.false_eq_true, if_false]
          split_ifs
          · exact Finset.mem_insert_self _ _
          · exact hmem
      · have hmem : v ∈ scan.willBeRead := by simpa [hw] using hcase
        have hmem' : v ∈ scan.willBeRead.erase w := Finset.mem_erase.mpr ⟨fun h => hw h.symm, hmem⟩
        dsimp only
        split_ifs <;> simp [hmem, hmem']

/-- A turn of the scan reports nothing, or the reference at hand, whose variable is then not in
`willBeRead`. -/
theorem reported_checkReference (scan : Scan) (ref : Reference) :
    (checkReference shouldReport scan ref).reported = scan.reported ∨
      ((checkReference shouldReport scan ref).reported = scan.reported ++ [ref] ∧
        ∀ v, ref.resolved = some v → v ∉ scan.willBeRead) := by
  unfold checkReference
  cases ref.resolved with
  | none => exact Or.inl rfl
  | some w =>
    by_cases hw : w ∈ scan.willBeRead
    · left
      cases ref.isWrite <;> cases ref.isRead <;> simp [hw]
    · cases ref.isWrite <;> cases ref.isRead <;> cases shouldReport ref <;> simp [hw]

theorem mem_of_mem_reported {r : Reference} (l : List Reference) (scan : Scan)
    (h : r ∈ (l.foldl (checkReference shouldReport) scan).reported) : r ∈ scan.reported ∨ r ∈ l := by
  induction l generalizing scan with
  | nil => exact Or.inl h
  | cons ref l ih =>
    rw [List.foldl_cons] at h
    rcases ih _ h with h | h
    · rcases reported_checkReference scan ref with he | ⟨he, -⟩
      · exact Or.inl (he ▸ h)
      · rw [he, List.mem_append, List.mem_singleton] at h
        exact h.imp id fun h => by simp [h]
    · exact Or.inr (List.mem_cons_of_mem _ h)

/-- A reference of a variable that is in `willBeRead` when the scan meets it is not reported. -/
theorem not_mem_checkSegment {lv : LiveVariables} (hnodup : lv.references.Nodup)
    {before after : List Reference} {ref : Reference} (hrefs : lv.references = before ++ ref :: after)
    {v : Variable} (hresolved : ref.resolved = some v)
    (hmem : v ∈ (checkReferences shouldReport lv.out after).willBeRead) :
    ref ∉ checkSegment shouldReport lv := by
  have hafter : ref ∉ after := by
    rw [hrefs] at hnodup
    exact (List.nodup_cons.mp (List.nodup_append.mp hnodup).2.1).1
  have hbefore : ref ∉ before := by
    rw [hrefs] at hnodup
    exact fun h => (List.nodup_append.mp hnodup).2.2 ref h ref (by simp) rfl
  intro h
  unfold checkSegment checkReferences at h
  rw [hrefs, List.reverse_append, List.reverse_cons, List.foldl_append, List.foldl_append,
    List.foldl_cons, List.foldl_nil] at h
  rcases mem_of_mem_reported _ _ h with h | h
  · have hscan : ref ∉ (checkReferences shouldReport lv.out after).reported := fun h =>
      (mem_of_mem_reported _ _ h).elim (by simp) (fun h => hafter (List.mem_reverse.mp h))
    change ref ∈ (checkReference shouldReport (checkReferences shouldReport lv.out after) ref).reported at h
    rcases reported_checkReference (checkReferences shouldReport lv.out after) ref with he | ⟨-, he⟩
    · exact hscan (he ▸ h)
    · exact he v hresolved hmem
  · exact hbefore (List.mem_reverse.mp h)

/-! ### Soundness -/

variable {refs : SegmentId → List Reference}

/-- The references executed along a path of segments. -/
def pathReferences (refs : SegmentId → List Reference) (path : List SegmentId) : List Reference :=
  path.flatMap fun s => (ofReferences (refs s)).references

theorem readBeforeWritten_of_readFirst {v : Variable} {path : List SegmentId}
    (h : ReadFirst v (pathReferences refs path)) : ReadBeforeWritten refs v path := by
  induction path with
  | nil =>
    obtain ⟨before, ref, after, heq, -⟩ := h
    simp [pathReferences] at heq
  | cons t path ih =>
    rw [pathReferences, List.flatMap_cons, readFirst_append] at h
    rcases h with ⟨before, ref, after, heq, hread, -⟩ | ⟨hwrite, h⟩
    · exact ⟨[], t, path, rfl, ⟨ref, by rw [heq]; simp, hread⟩, by simp⟩
    · obtain ⟨before, u, after, rfl, hread, hnot⟩ := ih h
      refine ⟨t :: before, u, after, rfl, hread, fun w hw => ?_⟩
      rcases List.mem_cons.mp hw with rfl | hw
      · rintro ⟨ref, hmem, hw⟩
        exact hwrite ref hmem hw
      · exact hnot w hw

/-- **Soundness of live variables.** The loop ends; when it has, every variable that a path from a
successor of `s` reads before writing it is in `s.out`, and the scan of `s` does not report a write
whose value is read, later in the segment or along such a path, before it is overwritten. -/
theorem lva_sound (g : ControlFlowGraph) (refs : SegmentId → List Reference) :
    (lva g.toSegmentGraph).Terminates (lvaStart g.toSegmentGraph refs) ∧
    ∀ k, ((lva g.toSegmentGraph).run k (lvaStart g.toSegmentGraph refs)).pending = [] →
      ∀ s ∈ g.segments, ∀ (v : Variable) (path : List SegmentId), g.IsPath (s :: path) →
        (ReadBeforeWritten refs v path → v ∈ (lvaMap g.toSegmentGraph refs k s).out) ∧
        ∀ (shouldReport : Reference → Bool) (before after : List Reference) (ref : Reference),
          (lvaMap g.toSegmentGraph refs k s).references = before ++ ref :: after →
          ref.Writes v → ReadFirst v (after ++ pathReferences refs path) →
          ref ∉ checkSegment shouldReport (lvaMap g.toSegmentGraph refs k s) := by
  refine ⟨lva_terminates _ refs, fun k hdone s hs v path hpath => ?_⟩
  have hout : ReadBeforeWritten refs v path → v ∈ (lvaMap g.toSegmentGraph refs k s).out :=
    mem_out_of_path g hdone hs hpath
  refine ⟨hout, fun shouldReport before after ref hrefs hwrites hread => ?_⟩
  have hnodup : (lvaMap g.toSegmentGraph refs k s).references.Nodup := by
    rw [(lvaMap_sameReferences k).references s]
    exact nodup_references _
  refine not_mem_checkSegment hnodup hrefs hwrites.1 (mem_willBeRead after ?_)
  rcases readFirst_append.mp hread with h | ⟨hnot, h⟩
  · exact Or.inl h
  · exact Or.inr ⟨hnot, hout (readBeforeWritten_of_readFirst h)⟩

theorem loop_next_mem : ∀ s ∈ ["s1", "s2"], ∀ t ∈ if s = "s1" ∨ s = "s2" then ["s2"] else [], t ∈ ["s1", "s2"] := by
  decide

theorem loop_prev_mem : ∀ s ∈ ["s1", "s2"], ∀ t ∈ if s = "s2" then ["s1", "s2"] else [], t ∈ ["s1", "s2"] := by decide

theorem loop_mem_prev_iff : ∀ s ∈ ["s1", "s2"], ∀ t ∈ ["s1", "s2"],
    s ∈ (if t = "s2" then ["s1", "s2"] else []) ↔ t ∈ if s = "s1" ∨ s = "s2" then ["s2"] else [] := by
  decide

/-- `let x = f(); while (x) {}`: the write in the first segment is read in the second. -/
def loopGraph : ControlFlowGraph where
  segments := ["s1", "s2"]
  nextSegments s := if s = "s1" ∨ s = "s2" then ["s2"] else []
  prevSegments s := if s = "s2" then ["s1", "s2"] else []
  next_mem := loop_next_mem
  prev_mem := loop_prev_mem
  mem_prev_iff := loop_mem_prev_iff

def loopVariable : Variable := ⟨0, "x", [⟨.variable, true⟩]⟩

def loopReference (id : Nat) (isWrite : Bool) : Reference :=
  ⟨id, some loopVariable, !isWrite, isWrite, none, false, ⟨[[loopVariable]]⟩, true, none⟩

def loopReferences (s : SegmentId) : List Reference :=
  if s = "s1" then [loopReference 0 true] else [loopReference 1 false]

theorem lva_sound_loop :
    loopReference 0 true ∉
      checkSegment (fun _ => true) (lvaMap loopGraph.toSegmentGraph loopReferences 5 "s1") :=
  ((lva_sound loopGraph loopReferences).2 5 (by decide) "s1" (by decide) loopVariable ["s2"]
    (by simp [SegmentGraph.IsPath, loopGraph])).2 (fun _ => true) [] [] (loopReference 0 true) (by decide)
    (by decide) ⟨[], loopReference 1 false, [], by decide, by decide, by simp⟩

end SonarJavascript.Rules.S1854
