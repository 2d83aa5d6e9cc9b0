import Mathlib.Data.Nat.Find
import SonarJavascript.Regex.ClassElements

/-!
# S5869: duplicates in character classes

The rule adds the elements of a class one after the other and collects those that an element meets when it is added.
An element is its index. A class is reported exactly when two of its elements have a code point in common as the
builder sees them, but an element that ends right before such a code point is named as well: `duplicates_iff`.
-/

namespace SonarJavascript.Rules.DuplicatesInCharacterClass

open OrderedTree Regex

/-! ### The rule -/

section Rule

variable (R : OrderedTree ℕ (Option ℕ)) (forEach : R.Tree → ℕ → ℕ → List (ℕ × Option ℕ)) (mapping : CaseMapping)
  (flags : Flags)

/-- A set in the order of insertion. -/
def addToSet (set : List ℕ) (value : ℕ) : List ℕ := if value ∈ set then set else set ++ [value]

def intersections (characterClass : R.Tree) (element : ClassElement) (index : ℕ) : List ℕ :=
  findIntersections R forEach (add R mapping flags R.createTree element index) characterClass

def onElement (state : R.Tree × List ℕ) (element : ClassElement × ℕ) : R.Tree × List ℕ :=
  let found := intersections R forEach mapping flags state.1 element.1 element.2
  (add R mapping flags state.1 element.1 element.2,
    if found.length > 0 then addToSet (found.foldl addToSet state.2) element.2 else state.2)

/-- What `onCharacterClassEnter` reports, the primary location first. It reports nothing where there is nothing. -/
def duplicates (elements : List ClassElement) : List ℕ :=
  (elements.zipIdx.foldl (onElement R forEach mapping flags) (R.createTree, [])).2

end Rule

/-! ### Overlaps -/

section Overlaps

variable (denotes : ClassElement → ℕ → Prop) (elements : List ClassElement)

/-- The element of the index denotes the code point. -/
def At (i cp : ℕ) : Prop := ∃ element ∈ elements[i]?, denotes element cp

def Overlap (i j : ℕ) : Prop := ∃ cp, At denotes elements i cp ∧ At denotes elements j cp

/-- The element shares a code point with another one. -/
def Involved (i : ℕ) : Prop := ∃ j ≠ i, Overlap denotes elements i j

end Overlaps

/-- The class is reported when two of its elements denote a common code point, and those named are such elements. -/
structure Right (flags : Flags) (elements : List ClassElement) (duplicates : List ℕ) : Prop where
  reports : duplicates ≠ [] ↔ ∃ i, Involved (Denotes flags) elements i
  names : ∀ i ∈ duplicates, Involved (Denotes flags) elements i

/-- The builder's ranges for the elements overlap where the elements do. -/
def SameOverlaps (flags : Flags) (elements : List ClassElement) : Prop :=
  ∀ i j, i ≠ j → (Overlap (Visited flags) elements i j ↔ Overlap (Denotes flags) elements i j)

/-- Right before a code point that two elements share there is no element that shares nothing. -/
def NoLoneNeighbour (flags : Flags) (elements : List ClassElement) : Prop :=
  ∀ i j k cp, i < k → j < k → At (Visited flags) elements i cp → At (Visited flags) elements j (cp + 1) →
    At (Visited flags) elements k (cp + 1) → Involved (Visited flags) elements i

variable {R : OrderedTree ℕ (Option ℕ)} {forEach : R.Tree → ℕ → ℕ → List (ℕ × Option ℕ)} {mapping : CaseMapping}
  {flags : Flags} {denotes : ClassElement → ℕ → Prop} {elements init rest : List ClassElement}
  {element : ClassElement} {i j cp : ℕ}

theorem Overlap.symm (h : Overlap denotes elements i j) : Overlap denotes elements j i := by
  obtain ⟨cp, hi, hj⟩ := h
  exact ⟨cp, hj, hi⟩

theorem at_append_left (h : i < init.length) : At denotes (init ++ rest) i cp ↔ At denotes init i cp := by
  unfold At
  rw [List.getElem?_append_left h]

theorem at_length : At denotes (init ++ element :: rest) init.length cp ↔ denotes element cp := by
  unfold At
  simp

theorem exists_split (h : elements[i]? = some element) :
    ∃ before after, elements = before ++ element :: after ∧ before.length = i := by
  obtain ⟨hi, rfl⟩ := List.getElem?_eq_some_iff.mp h
  exact ⟨elements.take i, elements.drop (i + 1), by simp, by simp; omega⟩

theorem lt_length_of_at (h : At denotes elements i cp) : i < elements.length := by
  obtain ⟨element, helement, -⟩ := h
  exact (List.getElem?_eq_some_iff.mp helement).1

/-! ### The run -/

theorem mem_addToSet {set : List ℕ} {value : ℕ} : i ∈ addToSet set value ↔ i ∈ set ∨ i = value := by
  unfold addToSet
  split_ifs with h
  · exact ⟨Or.inl, fun hi => hi.elim id fun hi => hi ▸ h⟩
  · simp

theorem mem_foldl_addToSet {values set : List ℕ} : i ∈ values.foldl addToSet set ↔ i ∈ set ∨ i ∈ values := by
  induction values generalizing set with
  | nil => simp
  | cons value values ih => rw [List.foldl_cons, ih, mem_addToSet, List.mem_cons, or_assoc]

variable (R forEach mapping flags) in
/-- What the element after `init` meets. -/
def found (init : List ClassElement) (element : ClassElement) : List ℕ :=
  intersections R forEach mapping flags (addAll R mapping flags init.zipIdx) element init.length

theorem characterClass_eq (elements : List (ClassElement × ℕ)) (state : R.Tree × List ℕ) :
    (elements.foldl (onElement R forEach mapping flags) state).1 =
      elements.foldl (fun contents element => add R mapping flags contents element.1 element.2) state.1 := by
  induction elements generalizing state with
  | nil => rfl
  | cons element elements ih => exact ih _

/-- **One element more.** -/
theorem mem_duplicates_append_singleton :
    i ∈ duplicates R forEach mapping flags (init ++ [element]) ↔
      i ∈ duplicates R forEach mapping flags init ∨ (found R forEach mapping flags init element ≠ [] ∧
        (i ∈ found R forEach mapping flags init element ∨ i = init.length)) := by
  have hclass : (init.zipIdx.foldl (onElement R forEach mapping flags) (R.createTree, [])).1 =
      addAll R mapping flags init.zipIdx := characterClass_eq _ _
  unfold duplicates
  rw [List.zipIdx_append, List.foldl_append, Nat.zero_add]
  simp only [List.zipIdx_cons, List.zipIdx_nil, List.foldl_cons, List.foldl_nil, onElement]
  rw [hclass]
  change i ∈ (if (found R forEach mapping flags init element).length > 0 then _ else _) ↔ _
  split_ifs with hfound
  · rw [mem_addToSet, mem_foldl_addToSet, or_assoc]
    exact or_congr_right ⟨fun h => ⟨List.length_pos_iff.mp hfound, h⟩, fun h => h.2⟩
  · exact ⟨Or.inl, fun h => h.resolve_right fun h => hfound (List.length_pos_iff.mpr h.1)⟩

theorem mem_duplicates_iff : i ∈ duplicates R forEach mapping flags elements ↔
    ∃ init element rest, elements = init ++ element :: rest ∧ found R forEach mapping flags init element ≠ [] ∧
      (i ∈ found R forEach mapping flags init element ∨ i = init.length) := by
  induction elements using List.reverseRecOn with
  | nil => simp [duplicates]
  | append_singleton elements last ih =>
    rw [mem_duplicates_append_singleton, ih]
    constructor
    · rintro (⟨init, element, rest, rfl, h⟩ | h)
      · exact ⟨init, element, rest ++ [last], by simp, h⟩
      · exact ⟨elements, last, [], rfl, h⟩
    · rintro ⟨init, element, rest, hsplit, h⟩
      rcases List.eq_nil_or_concat rest with rfl | ⟨rest, last', rfl⟩
      · obtain ⟨rfl, hlast⟩ := List.append_inj' hsplit rfl
        obtain rfl := (List.cons.inj hlast).1
        exact Or.inr h
      · rw [List.concat_eq_append, ← List.cons_append, ← List.append_assoc] at hsplit
        exact Or.inl ⟨init, element, rest, (List.append_inj' hsplit rfl).1, h⟩

/-! ### What the classes contain -/

section Contents

variable (hR : R.Lawful) (hcase : flags.ignoreCase = false)

include hR hcase

variable (init) in
theorem at_of_owner (hmax : cp ≤ maxCodePoint) (h : owner R (addAll R mapping flags init.zipIdx) cp = some i) :
    At (Visited flags) init i cp := by
  rw [addAll_eq hcase] at h
  obtain ⟨range, hrange, rfl, hcontains⟩ := exists_of_owner_addRanges hR hmax h
  obtain ⟨⟨element, index⟩, hmem, hrange⟩ := List.mem_flatMap.mp hrange
  obtain ⟨hvisit, rfl⟩ := mem_rangesOf.mp hrange
  exact ⟨element, List.mk_mem_zipIdx_iff_getElem?.mp hmem, _, hvisit, hcontains⟩

variable (mapping) in
theorem contains_of_first (hfirst : ∀ j < i, ¬ Overlap (Visited flags) init j i) (h : At (Visited flags) init i cp) :
    contains R (addAll R mapping flags init.zipIdx) cp = true := by
  obtain ⟨element, helement, hvisited⟩ := h
  obtain ⟨range, hrange, hcontains⟩ := (visited_iff element i).mp hvisited
  obtain ⟨earlier, later, hsplit⟩ := List.append_of_mem hrange
  obtain ⟨before, after, rfl, rfl⟩ := exists_split helement
  rw [addAll_eq hcase, List.zipIdx_append, List.flatMap_append, Nat.zero_add, List.zipIdx_cons, List.flatMap_cons,
    hsplit, List.append_assoc, List.cons_append, ← List.append_assoc]
  refine contains_addRanges_of_apart hR (fun range' hrange' cp' hboth => ?_) hcontains
  rcases List.mem_append.mp hrange' with hrange' | hrange'
  · obtain ⟨⟨element', j⟩, hmem, hrange'⟩ := List.mem_flatMap.mp hrange'
    have hj := List.mk_mem_zipIdx_iff_getElem?.mp hmem
    have hlt := (List.getElem?_eq_some_iff.mp hj).1
    refine hfirst j hlt ⟨cp', (at_append_left hlt).mpr ⟨element', hj, ?_⟩, at_length.mpr ?_⟩
    · exact (visited_iff element' j).mpr ⟨range', hrange', hboth.1⟩
    · exact (visited_iff element before.length).mpr ⟨range, hrange, hboth.2⟩
  · exact apart_of_split hsplit range' hrange' cp' hboth

variable (mapping) in
theorem contains_of_begin (h : At (Visited flags) init i (cp + 1)) (hbegin : ¬ At (Visited flags) init i cp) :
    contains R (addAll R mapping flags init.zipIdx) (cp + 1) = true := by
  obtain ⟨element, helement, hvisited⟩ := h
  obtain ⟨range, hrange, hcontains⟩ := (visited_iff element i).mp hvisited
  have hfrom : range.fromCp = cp + 1 := by
    by_contra hne
    refine hbegin ⟨element, helement, (visited_iff element i).mpr ⟨range, hrange, ?_, ?_⟩⟩
    · have := hcontains.1
      omega
    · exact (Nat.le_succ cp).trans hcontains.2
  rw [addAll_eq hcase, ← hfrom]
  refine contains_addRanges_first hR (List.mem_flatMap.mpr ⟨(element, i), ?_, hrange⟩)
  exact List.mk_mem_zipIdx_iff_getElem?.mpr helement

variable (R mapping) in
theorem contains_own (hmax : cp ≤ maxCodePoint) (index : ℕ) :
    contains R (add R mapping flags R.createTree element index) cp = true ↔ Visited flags element cp :=
  contains_add_iff hR (fun range _ => caseRanges_of_case hcase range) hmax

variable (R mapping) in
theorem segmented_addAll (elements : List (ClassElement × ℕ)) : Segmented (addAll R mapping flags elements) := by
  rw [addAll_eq hcase]
  exact segmented_addRanges hR _

variable (mapping) in
theorem segmented_own (element : ClassElement) (index : ℕ) :
    Segmented (add R mapping flags R.createTree element index) := by
  have := segmented_addAll R mapping hR hcase [(element, index)]
  exact this

/-! ### What is found -/

section Found

variable (hvisits : Visits R forEach)

include hvisits

theorem found_ne_nil (hcontains : contains R (addAll R mapping flags init.zipIdx) cp = true)
    (hvisited : Visited flags element cp) : found R forEach mapping flags init element ≠ [] := by
  obtain ⟨i, howner⟩ := Option.isSome_iff_exists.mp hcontains
  have hshares : Shares R (add R mapping flags R.createTree element init.length) (addAll R mapping flags init.zipIdx) i :=
    ⟨cp, hvisited.le_max, howner, (contains_own _ _ hR hcase hvisited.le_max init.length).mpr hvisited⟩
  exact List.ne_nil_of_mem (mem_findIntersections_of_shares hR hvisits hshares)

/-- What is found shares a code point with the element, or ends right before one that another element shares. -/
theorem overlap_or_neighbour (h : i ∈ found R forEach mapping flags init element) :
    (∃ cp, At (Visited flags) init i cp ∧ Visited flags element cp) ∨
      ∃ j cp, At (Visited flags) init i cp ∧ At (Visited flags) init j (cp + 1) ∧ Visited flags element (cp + 1) := by
  have hsegmented := segmented_addAll R mapping hR hcase init.zipIdx
  have hown := segmented_own mapping hR hcase element init.length
  rcases shares_or_neighbour hR hvisits hown hsegmented h with ⟨cp, hmax, howner, hcontains⟩ |
    ⟨before, key, next, j, value, rest, hsplit, hentry⟩
  · exact Or.inl ⟨cp, at_of_owner _ hR hcase hmax howner, (contains_own _ _ hR hcase hmax _).mp hcontains⟩
  · have hlt : key < next := key_lt_of_split hR hsplit
    have hmax : next ≤ maxCodePoint := hown.le_max _ hentry
    obtain ⟨cp, rfl⟩ : ∃ cp, next = cp + 1 := ⟨next - 1, by omega⟩
    have howner : owner R (addAll R mapping flags init.zipIdx) cp = some i :=
      owner_of_segment hR hsplit (by omega) fun e he => by
        obtain rfl := Option.some.inj he
        exact Nat.lt_succ_self cp
    have hnext : owner R (addAll R mapping flags init.zipIdx) (cp + 1) = some j :=
      owner_of_entry hR (by rw [hsplit]; simp)
    have hcontains : contains R (add R mapping flags R.createTree element init.length) (cp + 1) = true := by
      rw [contains_eq_isSome, owner_of_entry hR hentry, Option.isSome_some]
    exact Or.inr ⟨j, cp, at_of_owner _ hR hcase (by omega) howner, at_of_owner _ hR hcase hmax hnext,
      (contains_own _ _ hR hcase hmax _).mp hcontains⟩

/-- An element that shares nothing is found when it ends right before a code point that two others share. -/
theorem mem_found_of_neighbour (hlone : ∀ j ≠ i, ¬ Overlap (Visited flags) init i j)
    (hnot : ∀ cp, At (Visited flags) init i cp → ¬ Visited flags element cp) (hi : At (Visited flags) init i cp)
    (hj : At (Visited flags) init j (cp + 1)) (hvisited : Visited flags element (cp + 1)) :
    i ∈ found R forEach mapping flags init element := by
  have hmax := hvisited.le_max
  have hne : i ≠ j := by
    rintro rfl
    exact hnot _ hj hvisited
  have howner : owner R (addAll R mapping flags init.zipIdx) cp = some i := by
    have hcontains := contains_of_first mapping hR hcase
      (fun k hk hoverlap => hlone k (by omega) hoverlap.symm) hi
    obtain ⟨k, hk⟩ := Option.isSome_iff_exists.mp hcontains
    by_cases hki : k = i
    · rw [← hki]
      exact hk
    · exact absurd ⟨cp, hi, at_of_owner _ hR hcase (by omega) hk⟩ (hlone k hki)
  obtain ⟨k, hk⟩ := Option.isSome_iff_exists.mp (contains_of_begin mapping hR hcase hj
    fun hcp => hlone j hne.symm ⟨cp, hi, hcp⟩)
  have hik : i ≠ k := by
    rintro rfl
    exact hnot _ (at_of_owner _ hR hcase hmax hk) hvisited
  obtain ⟨before, key, rest, hsplit⟩ := exists_neighbour hR howner hk hik
  -- the class of the element begins at the next code point
  have hown := (contains_own R mapping hR hcase hmax init.length).mpr hvisited
  obtain ⟨value, hvalue⟩ := Option.isSome_iff_exists.mp hown
  have hentry := mem_of_owner_ne hR hvalue fun heq => by
    refine hnot cp hi ((contains_own R mapping hR hcase (by omega) init.length).mp ?_)
    rw [contains_eq_isSome, heq, Option.isSome_some]
  exact mem_findIntersections_of_neighbour hR hvisits hsplit hentry

end Found

end Contents

/-! ### Reports -/

theorem Overlap.append (h : Overlap denotes init i j) : Overlap denotes (init ++ rest) i j := by
  obtain ⟨cp, hi, hj⟩ := h
  exact ⟨cp, (at_append_left (lt_length_of_at hi)).mpr hi, (at_append_left (lt_length_of_at hj)).mpr hj⟩

theorem overlap_length (hi : At denotes init i cp) (h : denotes element cp) :
    Overlap denotes (init ++ element :: rest) i init.length :=
  ⟨cp, (at_append_left (lt_length_of_at hi)).mpr hi, at_length.mpr h⟩

theorem involved_iff_exists_lt : (∃ i, Involved denotes elements i) ↔ ∃ j, ∃ i < j, Overlap denotes elements i j := by
  constructor
  · rintro ⟨i, j, hne, hoverlap⟩
    rcases Nat.lt_or_gt_of_ne hne with hlt | hgt
    · exact ⟨i, j, hlt, hoverlap.symm⟩
    · exact ⟨j, i, hgt, hoverlap⟩
  · rintro ⟨j, i, hlt, hoverlap⟩
    exact ⟨i, j, hlt.ne', hoverlap⟩

section Reports

variable (hR : R.Lawful) (hcase : flags.ignoreCase = false) (hvisits : Visits R forEach)

include hR hcase hvisits

theorem duplicates_ne_nil_iff :
    duplicates R forEach mapping flags elements ≠ [] ↔ ∃ i, Involved (Visited flags) elements i := by
  constructor
  · intro hne
    obtain ⟨i, hi⟩ := List.exists_mem_of_ne_nil _ hne
    obtain ⟨init, element, rest, rfl, hfound, -⟩ := mem_duplicates_iff.mp hi
    obtain ⟨j, hj⟩ := List.exists_mem_of_ne_nil _ hfound
    rcases overlap_or_neighbour hR hcase hvisits hj with ⟨cp, hat, hvisited⟩ | ⟨k, cp, -, hat, hvisited⟩
    · exact ⟨j, init.length, (lt_length_of_at hat).ne', overlap_length hat hvisited⟩
    · exact ⟨k, init.length, (lt_length_of_at hat).ne', overlap_length hat hvisited⟩
  · intro hinvolved
    classical
    -- up to the first element that meets an earlier one, all are added in full
    have hexists := involved_iff_exists_lt.mp hinvolved
    obtain ⟨i, hlt, cp, hi, element, helement, hvisited⟩ := Nat.find_spec hexists
    obtain ⟨init, rest, hsplit, hlength⟩ := exists_split helement
    have hi' : At (Visited flags) init i cp := by
      rw [hsplit] at hi
      exact (at_append_left (by omega)).mp hi
    have hcontains : contains R (addAll R mapping flags init.zipIdx) cp = true :=
      contains_of_first _ hR hcase (fun j hj hoverlap => Nat.find_min hexists hlt
        ⟨j, hj, by rw [hsplit]; exact hoverlap.append⟩) hi'
    have hmem : init.length ∈ duplicates R forEach mapping flags elements :=
      mem_duplicates_iff.mpr ⟨init, element, rest, hsplit, found_ne_nil hR hcase hvisits hcontains hvisited, Or.inr rfl⟩
    exact List.ne_nil_of_mem hmem

variable (mapping elements) in
theorem names_iff : (∀ i ∈ duplicates R forEach mapping flags elements, Involved (Visited flags) elements i) ↔
    NoLoneNeighbour flags elements := by
  constructor
  · intro h i j k cp hik hjk hi hj hk
    obtain ⟨element, helement, hvisited⟩ := hk
    obtain ⟨init, rest, rfl, rfl⟩ := exists_split helement
    by_contra hlone
    refine hlone (h i (mem_duplicates_iff.mpr ⟨init, element, rest, rfl, ?_⟩))
    have hfound : i ∈ found R forEach mapping flags init element :=
      mem_found_of_neighbour hR hcase hvisits (fun l hl hoverlap => hlone ⟨l, hl, hoverlap.append⟩)
        (fun cp' hat hvisited' => hlone ⟨init.length, hik.ne', overlap_length hat hvisited'⟩)
        ((at_append_left hik).mp hi) ((at_append_left hjk).mp hj) hvisited
    exact ⟨List.ne_nil_of_mem hfound, Or.inl hfound⟩
  · intro h i hi
    obtain ⟨init, element, rest, rfl, hne, hfound | rfl⟩ := mem_duplicates_iff.mp hi
    · rcases overlap_or_neighbour hR hcase hvisits hfound with ⟨cp, hat, hvisited⟩ | ⟨j, cp, hat, hnext, hvisited⟩
      · exact ⟨init.length, (lt_length_of_at hat).ne', overlap_length hat hvisited⟩
      · have hlt := lt_length_of_at hat
        have hlt' := lt_length_of_at hnext
        exact h i j init.length cp hlt hlt' ((at_append_left hlt).mpr hat) ((at_append_left hlt').mpr hnext)
          (at_length.mpr hvisited)
    · obtain ⟨j, hj⟩ := List.exists_mem_of_ne_nil _ hne
      rcases overlap_or_neighbour hR hcase hvisits hj with ⟨cp, hat, hvisited⟩ | ⟨k, cp, -, hat, hvisited⟩
      · exact ⟨j, (lt_length_of_at hat).ne, (overlap_length hat hvisited).symm⟩
      · exact ⟨k, (lt_length_of_at hat).ne, (overlap_length hat hvisited).symm⟩

end Reports

theorem involved_congr (h : SameOverlaps flags elements) :
    Involved (Visited flags) elements i ↔ Involved (Denotes flags) elements i :=
  exists_congr fun j => and_congr_right fun hne => h i j hne.symm

/-- `findIntersections` is exact next to no other element; the rule names no element that shares nothing if and only
if there is none right before a code point that two others share. -/
theorem duplicates_iff {E : Type} {T : OrderedTree ℕ (Option E)} {forEachT : T.Tree → ℕ → ℕ → List (ℕ × Option E)}
    (hT : T.Lawful) (hvisitsT : Visits T forEachT) (hR : R.Lawful) (hvisits : Visits R forEach)
    (hcase : flags.ignoreCase = false) :
    (∀ elements further : List (ClassElement × E),
      Exact T forEachT (addAll T mapping flags further) (addAll T mapping flags elements) ↔
        NoNeighbour T (addAll T mapping flags further) (addAll T mapping flags elements)) ∧
    ∀ elements, SameOverlaps flags elements →
      (Right flags elements (duplicates R forEach mapping flags elements) ↔ NoLoneNeighbour flags elements) := by
  refine ⟨fun elements further => ?_, fun elements hsame => ?_⟩
  · rw [addAll_eq hcase, addAll_eq hcase]
    exact exact_intersections_iff hT hvisitsT (segmented_addRanges hT _) (segmented_addRanges hT _)
  · have hnames := names_iff mapping elements hR hcase hvisits
    constructor
    · exact fun h => hnames.mp fun i hi => (involved_congr hsame).mpr (h.names i hi)
    · intro h
      refine ⟨?_, fun i hi => (involved_congr hsame).mp (hnames.mpr h i hi)⟩
      rw [duplicates_ne_nil_iff hR hcase hvisits]
      exact exists_congr fun i => involved_congr hsame

/-! ### Classes of characters -/

theorem sameOverlaps_of_visited (h : ∀ element ∈ elements, ∀ cp, Visited flags element cp ↔ Denotes flags element cp) :
    SameOverlaps flags elements := by
  have hat : ∀ i cp, At (Visited flags) elements i cp ↔ At (Denotes flags) elements i cp := fun i cp =>
    exists_congr fun element => and_congr_right fun helement => h element (List.mem_of_getElem? helement) cp
  exact fun i j _ => exists_congr fun cp => and_congr (hat i cp) (hat j cp)

theorem visited_character {value : ℕ} {h : value ≤ maxCodePoint} :
    Visited flags (.Character value h) cp ↔ cp = value := by
  unfold Visited visit
  simp only [List.mem_singleton, exists_eq_left]
  omega

def noFlags : Flags := ⟨false, false, false⟩

/-- The case mapping plays no part without the flag `i`. -/
def sameCase : CaseMapping := ⟨id, id⟩

def characterA : ClassElement := .Character 97 (by decide)
def characterB : ClassElement := .Character 98 (by decide)

/-- `[aa]`. -/
theorem duplicates_iff_aa :
    Right noFlags [characterA, characterA]
      (duplicates (sortedEntries ℕ (Option ℕ)) entriesBetween sameCase noFlags [characterA, characterA]) := by
  refine ((duplicates_iff (lawful_sortedEntries (κ := ℕ) (V := Option ℕ)) visits_entriesBetween
    lawful_sortedEntries visits_entriesBetween rfl).2 _ (sameOverlaps_of_visited ?_)).mpr ?_
  · intro element helement cp
    obtain rfl : element = characterA := by simpa using helement
    exact visited_character
  · have hat : ∀ {i cp}, At (Visited noFlags) [characterA, characterA] i cp → cp = 97 := by
      rintro i cp ⟨element, helement, hvisited⟩
      obtain rfl : element = characterA := by simpa using List.mem_of_getElem? helement
      exact visited_character.mp hvisited
    intro i j k cp _ _ hi hj _
    have := hat hi
    have := hat hj
    omega

/-- `[ab]` and `b` share no `a`, and `a` is no duplicate in `[abb]`. -/
theorem abb_names_a :
    ¬ Exact (sortedEntries ℕ (Option ℕ)) entriesBetween
        (addAll _ sameCase noFlags [(characterB, 2)]) (addAll _ sameCase noFlags [(characterA, 0), (characterB, 1)]) ∧
      ¬ Right noFlags [characterA, characterB, characterB]
        (duplicates (sortedEntries ℕ (Option ℕ)) entriesBetween sameCase noFlags
          [characterA, characterB, characterB]) := by
  constructor
  · intro h
    obtain ⟨cp, hmax, howner, hcontains⟩ := (h 0).mp (by decide)
    obtain ⟨element, helement, hvisited⟩ :=
      at_of_owner [characterA, characterB] lawful_sortedEntries rfl hmax howner
    obtain rfl : characterA = element := Option.some.inj helement
    obtain rfl := visited_character.mp hvisited
    revert hcontains
    decide
  · intro h
    obtain ⟨j, hne, cp, ⟨element, helement, hcp⟩, element', helement', hcp'⟩ := h.names 0 (by decide)
    obtain rfl : characterA = element := Option.some.inj helement
    have hcp : cp = 97 := hcp
    obtain rfl : characterB = element' := by
      rcases j with _ | _ | _ | j
      · exact absurd rfl hne
      · exact Option.some.inj helement'
      · exact Option.some.inj helement'
      · simp at helement'
    have hcp' : cp = 98 := hcp'
    omega

end SonarJavascript.Rules.DuplicatesInCharacterClass
