import Mathlib.Data.Finset.Image
import SonarJavascript.Lcov.Records

/-!
# The merged coverage

`mergesExactly_iff`: the coverage that is saved does not depend on the order of the reports; and it has the
lines and branches with a positive count, and no others, if and only if the records of each line are regular.
-/

namespace SonarJavascript.Lcov

open SumMap

/-! ### The coverage of a file -/

variable {NewCoverage : Type} (store : CoverageStore NewCoverage)

/-- The hits of a line are those of its `DA` lines, or else the number of its branches that are covered. -/
theorem hitsOf_save (data : FileData) (line : ℤ) :
    store.hitsOf (data.save store) line = ((data.hits.lookup line).map BitVec.toInt).or
      ((data.branches.lookup line).map fun branchesForLine => (covered branchesForLine : ℤ)) := by
  have hhits := read_foldl store.hitsOf (fun coverage entry => store.lineHits entry.1 entry.2.toInt coverage)
    (fun _ => BitVec.toInt) (by simp [store.hitsOf_lineHits]) data.hits store.newCoverage line
  rw [store.hitsOf_newCoverage, Option.none_or] at hhits
  have hbranches := read_foldl store.hitsOf (data.saveBranches store)
    (fun line branchesForLine => ((data.hits.lookup line).getD 0).toInt + covered branchesForLine)
    (by simp [FileData.saveBranches, store.hitsOf_lineHits, store.hitsOf_conditions])
  rw [FileData.save, hbranches, hhits]
  cases data.hits.lookup line with
  | some hits => rfl
  | none => simp

theorem conditionsOf_save (data : FileData) (line : ℤ) :
    store.conditionsOf (data.save store) line = (data.branches.lookup line).map fun branchesForLine =>
      (branchesForLine.length, covered branchesForLine) := by
  have hhits : ∀ (hits : List (ℤ × BitVec 32)) coverage, store.conditionsOf
      (hits.foldl (fun coverage entry => store.lineHits entry.1 entry.2.toInt coverage) coverage) line =
        store.conditionsOf coverage line := by
    intro hits
    induction hits with
    | nil => exact fun _ => rfl
    | cons entry hits ih => exact fun coverage => (ih _).trans (by rw [store.conditionsOf_lineHits])
  have hbranches := read_foldl store.conditionsOf (data.saveBranches store)
    (fun _ branchesForLine => (branchesForLine.length, covered branchesForLine))
    (by simp [FileData.saveBranches, store.conditionsOf_lineHits, store.conditionsOf_conditions])
  rw [FileData.save, hbranches, hhits, store.conditionsOf_newCoverage, Option.none_or]

/-! ### The coverage of the records of a line -/

/-- The keys of the branches with an accepted count. -/
def keys (counts : List ((Text × Text) × ℤ)) : Finset Text :=
  ((counts.filter fun count => Fits count.2).map fun count => branchKey count.1).toFinset

def coveredKeys (counts : List ((Text × Text) × ℤ)) : Finset Text :=
  (keys counts).filter fun key => 0 < (acceptedBranch key counts).sum.toInt

def savedConditions (counts : List ((Text × Text) × ℤ)) : Option (ℕ × ℕ) :=
  if keys counts = ∅ then none else some ((keys counts).card, (coveredKeys counts).card)

def savedHits (counts : List (ℤ × Bool)) (branches : List ((Text × Text) × ℤ)) : Option ℤ :=
  ((total (acceptedLine counts)).map BitVec.toInt).or
    ((savedConditions branches).map fun conditions => (conditions.2 : ℤ))

theorem mem_keys_iff {counts : List ((Text × Text) × ℤ)} {key : Text} :
    key ∈ keys counts ↔ acceptedBranch key counts ≠ [] := by
  simp only [keys, acceptedBranch, List.mem_toFinset, List.mem_map, List.mem_filter, ne_eq, List.map_eq_nil_iff,
    List.filter_eq_nil_iff, decide_eq_true_eq]
  constructor
  · rintro ⟨count, ⟨hmem, hfits⟩, rfl⟩ h
    exact h count hmem ⟨rfl, hfits⟩
  · intro h
    push Not at h
    obtain ⟨count, hmem, rfl, hfits⟩ := h
    exact ⟨count, ⟨hmem, hfits⟩, rfl⟩

variable {InputFile : Type} [DecidableEq InputFile] {context : Context InputFile}
  {records : List (InputFile × Record)} {file : InputFile} {data : FileData}

theorem Collected.conditionsOf (h : Collected context records file data) (line : ℤ) :
    store.conditionsOf (data.save store) line = savedConditions (branchCounts records file line) := by
  rw [conditionsOf_save]
  have hlookup := h.branches line
  have hnodup := h.nodup line
  unfold savedConditions
  cases hbranches : data.branches.lookup line with
  | none =>
    have hempty : keys (branchCounts records file line) = ∅ := by
      refine Finset.eq_empty_of_forall_notMem fun key hkey => mem_keys_iff.mp hkey (total_eq_none_iff.mp ?_)
      rw [← hlookup key, hbranches]
      rfl
    rw [if_pos hempty]
    rfl
  | some branchesForLine =>
    simp only [hbranches, Option.getD_some] at hlookup hnodup
    have hkeys : ∀ key, key ∈ keys (branchCounts records file line) ↔
        ∃ value, branchesForLine.lookup key = some value ∧ true = true := by
      simp [hlookup, mem_keys_iff, total_eq_some_iff]
    have hcoveredKeys : ∀ key, key ∈ coveredKeys (branchCounts records file line) ↔
        ∃ value, branchesForLine.lookup key = some value ∧ decide (0 < value.toInt) = true := by
      simp [hlookup, coveredKeys, mem_keys_iff, total_eq_some_iff]
    have hlength := length_filter_eq_card hnodup (fun _ => true) hkeys
    have hcovered := length_filter_eq_card hnodup (fun value => decide (0 < value.toInt)) hcoveredKeys
    have hne : keys (branchCounts records file line) ≠ ∅ := by
      intro hempty
      rw [hempty] at hlength
      have hnil : branchesForLine = [] := by simpa using hlength
      exact h.ne_nil line (hnil ▸ hbranches)
    rw [if_neg hne, Option.map_some, ← hcovered, ← hlength]
    simp [covered]

theorem Collected.hitsOf (h : Collected context records file data) (line : ℤ) :
    store.hitsOf (data.save store) line =
      savedHits (lineCounts records file line) (branchCounts records file line) := by
  rw [savedHits, ← h.conditionsOf store line, conditionsOf_save, hitsOf_save, h.hits, Option.map_map]
  rfl

/-! ### Sums of counts -/

/-- The sum of counts in 32 bits. -/
def wrap (counts : List ℤ) : ℤ := counts.sum.bmod (2 ^ 32)

theorem toInt_sum (counts : List ℤ) : ((counts.map (BitVec.ofInt 32)).sum).toInt = wrap counts := by
  have hsum : (counts.map (BitVec.ofInt 32)).sum = BitVec.ofInt 32 counts.sum := by
    induction counts with
    | nil => rfl
    | cons count counts ih => rw [List.map_cons, List.sum_cons, List.sum_cons, ih, BitVec.ofInt_add]
  rw [hsum, BitVec.toInt_ofInt, wrap]

theorem exists_pos_of_wrap {counts : List ℤ} (hnonneg : ∀ count ∈ counts, 0 ≤ count) (h : 0 < wrap counts) :
    ∃ count ∈ counts, 0 < count := by
  by_contra hnone
  push Not at hnone
  have hsum : counts.sum = 0 := List.sum_eq_zero fun count hcount =>
    le_antisymm (hnone count hcount) (hnonneg count hcount)
  simp [wrap, hsum] at h

/-! ### The branches of a line -/

variable {branches : List ((Text × Text) × ℤ)} {counts : List (ℤ × Bool)}

def branchesOf (branches : List ((Text × Text) × ℤ)) : Finset (Text × Text) := (branches.map Prod.fst).toFinset

/-- The branches with a positive count. -/
def takenBranches (branches : List ((Text × Text) × ℤ)) : Finset (Text × Text) :=
  (branchesOf branches).filter fun branch => ∃ count ∈ branches, count.1 = branch ∧ 0 < count.2

def acceptedTaken (branch : Text × Text) (branches : List ((Text × Text) × ℤ)) : List ℤ :=
  (branches.filter fun count => count.1 = branch ∧ Fits count.2).map Prod.snd

/-- The branches whose counts have a positive sum. -/
def summedBranches (branches : List ((Text × Text) × ℤ)) : Finset (Text × Text) :=
  (branchesOf branches).filter fun branch => 0 < wrap (acceptedTaken branch branches)

/-- Each branch has a count of 32 bits, no two branches have one key, and as many branches have a positive sum
of counts as have a positive count. -/
structure RegularBranches (branches : List ((Text × Text) × ℤ)) : Prop where
  accepted : ∀ branch ∈ branchesOf branches, acceptedTaken branch branches ≠ []
  injective : Set.InjOn branchKey (branchesOf branches)
  positive : (summedBranches branches).card = (takenBranches branches).card

theorem keys_eq_image : keys branches =
    ((branchesOf branches).filter fun branch => acceptedTaken branch branches ≠ []).image branchKey := by
  ext key
  simp only [keys, branchesOf, acceptedTaken, List.mem_toFinset, List.mem_map, List.mem_filter,
    Finset.mem_image, Finset.mem_filter, ne_eq, List.map_eq_nil_iff, List.filter_eq_nil_iff, decide_eq_true_eq]
  constructor
  · rintro ⟨count, ⟨hmem, hfits⟩, rfl⟩
    exact ⟨count.1, ⟨⟨count, hmem, rfl⟩, fun h => h count hmem ⟨rfl, hfits⟩⟩, rfl⟩
  · rintro ⟨branch, ⟨-, h⟩, rfl⟩
    push Not at h
    obtain ⟨count, hmem, rfl, hfits⟩ := h
    exact ⟨count, ⟨hmem, hfits⟩, rfl⟩

theorem card_keys_eq_iff : (keys branches).card = (branchesOf branches).card ↔
    (∀ branch ∈ branchesOf branches, acceptedTaken branch branches ≠ []) ∧
      Set.InjOn branchKey (branchesOf branches) := by
  rw [keys_eq_image, ← Finset.filter_eq_self]
  set accepted := (branchesOf branches).filter fun branch => acceptedTaken branch branches ≠ []
  constructor
  · intro hcard
    have himage := Finset.card_image_le (s := accepted) (f := branchKey)
    have heq : accepted = branchesOf branches :=
      Finset.eq_of_subset_of_card_le (Finset.filter_subset ..) (hcard ▸ himage)
    refine ⟨heq, heq ▸ Finset.card_image_iff.mp ?_⟩
    rw [hcard, heq]
  · rintro ⟨heq, hinjective⟩
    rw [heq, Finset.card_image_of_injOn hinjective]

/-- Where no two branches have one key, the keys that are covered are those of branches. -/
theorem card_coveredKeys (haccepted : ∀ branch ∈ branchesOf branches, acceptedTaken branch branches ≠ [])
    (hinjective : Set.InjOn branchKey (branchesOf branches)) :
    (coveredKeys branches).card = (summedBranches branches).card := by
  have hsame : ∀ branch ∈ branchesOf branches,
      acceptedBranch (branchKey branch) branches = (acceptedTaken branch branches).map (BitVec.ofInt 32) := by
    intro branch hbranch
    have hfilter : ∀ count ∈ branches, (branchKey count.1 = branchKey branch ∧ Fits count.2) =
        (count.1 = branch ∧ Fits count.2) := by
      intro count hcount
      have hmem : count.1 ∈ branchesOf branches := List.mem_toFinset.mpr (List.mem_map_of_mem hcount)
      rw [hinjective.eq_iff hmem hbranch]
    rw [acceptedBranch, acceptedTaken, List.map_map]
    exact congrArg _ (List.filter_congr fun count hcount => by simp only [hfilter count hcount])
  rw [coveredKeys, keys_eq_image, Finset.filter_eq_self.mpr haccepted, Finset.filter_image,
    Finset.card_image_of_injOn (hinjective.mono (Finset.coe_subset.mpr (Finset.filter_subset ..)))]
  congr 1
  exact Finset.filter_congr fun branch hbranch => by rw [hsame branch hbranch, toInt_sum]

/-- Where no count is negative, every branch with a positive count has to have a positive sum. -/
theorem card_summedBranches_eq_iff (hnonneg : ∀ count ∈ branches, 0 ≤ count.2) :
    (summedBranches branches).card = (takenBranches branches).card ↔
      ∀ branch ∈ takenBranches branches, 0 < wrap (acceptedTaken branch branches) := by
  have hsubset : summedBranches branches ⊆ takenBranches branches := by
    intro branch hbranch
    obtain ⟨hmem, hpositive⟩ := Finset.mem_filter.mp hbranch
    obtain ⟨taken, htaken, hpos⟩ := exists_pos_of_wrap (fun taken htaken => by
      obtain ⟨count, hcount, rfl⟩ := List.mem_map.mp htaken
      exact hnonneg count (List.mem_of_mem_filter hcount)) hpositive
    obtain ⟨count, hcount, rfl⟩ := List.mem_map.mp htaken
    obtain ⟨hcount, haccept⟩ := List.mem_filter.mp hcount
    exact Finset.mem_filter.mpr ⟨hmem, count, hcount, (of_decide_eq_true haccept).1, hpos⟩
  constructor
  · intro hcard branch hbranch
    rw [← Finset.eq_of_subset_of_card_le hsubset hcard.ge] at hbranch
    exact (Finset.mem_filter.mp hbranch).2
  · intro hpositive
    congr 1
    refine hsubset.antisymm fun branch hbranch => ?_
    exact Finset.mem_filter.mpr ⟨Finset.filter_subset _ _ hbranch, hpositive branch hbranch⟩

/-- The conditions of a line are its branches, and those with a positive count. -/
def BranchesExact (saved : Option (ℕ × ℕ)) (branches : List ((Text × Text) × ℤ)) : Prop :=
  saved = if branchesOf branches = ∅ then none
    else some ((branchesOf branches).card, (takenBranches branches).card)

theorem branchesExact_iff : BranchesExact (savedConditions branches) branches ↔ RegularBranches branches := by
  have hcards : BranchesExact (savedConditions branches) branches ↔
      (keys branches).card = (branchesOf branches).card ∧
        (coveredKeys branches).card = (takenBranches branches).card := by
    unfold BranchesExact savedConditions
    by_cases hempty : branchesOf branches = ∅
    · have hkeys : keys branches = ∅ := by rw [keys_eq_image, hempty]; rfl
      simp [hempty, hkeys, coveredKeys, takenBranches]
    · by_cases hkeys : keys branches = ∅
      · have hpos := Finset.card_pos.mpr (Finset.nonempty_iff_ne_empty.mpr hempty)
        simp [hempty, hkeys, hpos.ne]
      · simp [hempty, hkeys]
  rw [hcards, card_keys_eq_iff]
  constructor
  · rintro ⟨⟨haccepted, hinjective⟩, hcard⟩
    exact ⟨haccepted, hinjective, (card_coveredKeys haccepted hinjective).symm.trans hcard⟩
  · rintro ⟨haccepted, hinjective, hpositive⟩
    exact ⟨⟨haccepted, hinjective⟩, (card_coveredKeys haccepted hinjective).trans hpositive⟩

/-! ### The hits of a line -/

/-- The counts of 32 bits in lines without a checksum. -/
def acceptedCounts (counts : List (ℤ × Bool)) : List ℤ :=
  (counts.filter fun count => count.2 = false ∧ Fits count.1).map Prod.fst

theorem acceptedLine_eq : acceptedLine counts = (acceptedCounts counts).map (BitVec.ofInt 32) := by
  rw [acceptedLine, acceptedCounts, List.map_map]
  rfl

/-- A record of the line, or of one of its branches, has a positive count. -/
def Positive (counts : List (ℤ × Bool)) (branches : List ((Text × Text) × ℤ)) : Prop :=
  (∃ count ∈ counts, 0 < count.1) ∨ ∃ count ∈ branches, 0 < count.2

def LineExact (saved : Option ℤ) (counts : List (ℤ × Bool)) (branches : List ((Text × Text) × ℤ)) : Prop :=
  (∃ hits, saved = some hits ∧ 0 < hits) ↔ Positive counts branches

/-- The records of a line: the counts that are accepted have a positive sum exactly if a record has a positive
count; where none is accepted, a branch has to have one. -/
structure Regular (counts : List (ℤ × Bool)) (branches : List ((Text × Text) × ℤ)) : Prop where
  regular : RegularBranches branches
  accepted : acceptedCounts counts ≠ [] → (0 < wrap (acceptedCounts counts) ↔ Positive counts branches)
  unaccepted : acceptedCounts counts = [] → Positive counts branches → ∃ count ∈ branches, 0 < count.2

theorem nonempty_takenBranches_iff : (takenBranches branches).Nonempty ↔ ∃ count ∈ branches, 0 < count.2 := by
  constructor
  · rintro ⟨branch, hbranch⟩
    obtain ⟨-, count, hcount, -, hpositive⟩ := Finset.mem_filter.mp hbranch
    exact ⟨count, hcount, hpositive⟩
  · rintro ⟨count, hcount, hpositive⟩
    have hmem : count.1 ∈ branchesOf branches := List.mem_toFinset.mpr (List.mem_map_of_mem hcount)
    exact ⟨count.1, Finset.mem_filter.mpr ⟨hmem, count, hcount, rfl, hpositive⟩⟩

theorem lineExact_iff (hbranches : BranchesExact (savedConditions branches) branches) :
    LineExact (savedHits counts branches) counts branches ↔
      (acceptedCounts counts ≠ [] → (0 < wrap (acceptedCounts counts) ↔ Positive counts branches)) ∧
        (acceptedCounts counts = [] → Positive counts branches → ∃ count ∈ branches, 0 < count.2) := by
  unfold LineExact savedHits
  rw [hbranches, acceptedLine_eq]
  by_cases hempty : acceptedCounts counts = []
  · have hsaved : (∃ hits, (if branchesOf branches = ∅ then none else
        some ((branchesOf branches).card, (takenBranches branches).card)).map
          (fun conditions => (conditions.2 : ℤ)) = some hits ∧ 0 < hits) ↔ ∃ count ∈ branches, 0 < count.2 := by
      rw [← nonempty_takenBranches_iff, ← Finset.card_pos]
      by_cases hbranchesOf : branchesOf branches = ∅
      · simp [hbranchesOf, takenBranches]
      · simp [hbranchesOf]
    simp only [hempty, List.map_nil, total, if_true, Option.map_none, Option.none_or, hsaved]
    simp only [ne_eq, not_true_eq_false, false_implies, true_and, true_implies]
    exact ⟨Iff.mpr, fun h => ⟨.inr, h⟩⟩
  · have htotal : total ((acceptedCounts counts).map (BitVec.ofInt 32)) =
        some ((acceptedCounts counts).map (BitVec.ofInt 32)).sum := if_neg (by simpa using hempty)
    simp only [htotal, Option.map_some, toInt_sum, Option.some_or, Option.some.injEq, exists_eq_left', hempty,
      ne_eq, not_false_eq_true, true_implies, false_implies, and_true]

/-- Where no count is negative, a line or branch with a positive count has to have a positive sum. -/
theorem regular_iff_of_nonneg (hcounts : ∀ count ∈ counts, 0 ≤ count.1)
    (hbranches : ∀ count ∈ branches, 0 ≤ count.2) : Regular counts branches ↔
      (∀ branch ∈ branchesOf branches, acceptedTaken branch branches ≠ []) ∧
      Set.InjOn branchKey (branchesOf branches) ∧
      (∀ branch ∈ takenBranches branches, 0 < wrap (acceptedTaken branch branches)) ∧
      (acceptedCounts counts ≠ [] → Positive counts branches → 0 < wrap (acceptedCounts counts)) ∧
      (acceptedCounts counts = [] → Positive counts branches → ∃ count ∈ branches, 0 < count.2) := by
  have hwrap : 0 < wrap (acceptedCounts counts) → Positive counts branches := by
    intro hpositive
    obtain ⟨count, hmem, hpos⟩ := exists_pos_of_wrap (fun count hmem => by
      obtain ⟨count, hcount, rfl⟩ := List.mem_map.mp hmem
      exact hcounts count (List.mem_of_mem_filter hcount)) hpositive
    obtain ⟨count, hcount, rfl⟩ := List.mem_map.mp hmem
    exact .inl ⟨count, List.mem_of_mem_filter hcount, hpos⟩
  rw [← card_summedBranches_eq_iff hbranches]
  constructor
  · rintro ⟨⟨haccepted, hinjective, hpositive⟩, hline, hnone⟩
    exact ⟨haccepted, hinjective, hpositive, fun hne => (hline hne).mpr, hnone⟩
  · rintro ⟨haccepted, hinjective, hpositive, hline, hnone⟩
    exact ⟨⟨haccepted, hinjective, hpositive⟩, fun hne => ⟨hwrap, hline hne⟩, hnone⟩

/-! ### Reports -/

/-- The first record is an `SF` line. -/
def startsWithSource : List Text → Bool
  | [] => true
  | line :: lines =>
    SF.isPrefixOf line || (!DA.isPrefixOf line && !BRDA.isPrefixOf line && startsWithSource lines)

/-- The lines of a report; they begin with a section. -/
structure Report where
  lines : List Text
  source : startsWithSource lines = true

variable (context) in
/-- The records of each report by itself. -/
def recordsOf (reports : List Report) : List (InputFile × Record) :=
  reports.flatMap fun report => scan context none report.lines

omit [DecidableEq InputFile] in
theorem scan_append (current : Option InputFile) (lines rest : List Text) :
    scan context current (lines ++ rest) =
      scan context current lines ++ scan context (lines.foldl (nextFile context) current) rest := by
  induction lines generalizing current with
  | nil => rfl
  | cons line lines ih => rw [List.cons_append, scan, ih, scan, List.append_assoc, List.foldl_cons]

omit [DecidableEq InputFile] in
theorem scan_of_source (current : Option InputFile) {lines : List Text} (h : startsWithSource lines = true) :
    scan context current lines = scan context none lines := by
  induction lines with
  | nil => rfl
  | cons line lines ih =>
    rw [scan, scan]
    by_cases hsource : SF.isPrefixOf line = true
    · simp only [scanLine, nextFile, if_pos hsource]
    · rw [startsWithSource, Bool.eq_false_iff.mpr hsource, Bool.false_or, Bool.and_eq_true, Bool.and_eq_true,
        Bool.not_eq_true', Bool.not_eq_true'] at h
      obtain ⟨⟨hda, hbrda⟩, hrest⟩ := h
      have hline : scanLine context current line = [] := by
        cases current <;> simp [scanLine, hsource, readRecord, hda, hbrda]
      have hnone : scanLine context (none : Option InputFile) line = [] := by simp [scanLine, hsource]
      rw [hline, hnone, nextFile, nextFile, if_neg hsource, if_neg hsource, ih hrest]

omit [DecidableEq InputFile] in
theorem scan_flatten (current : Option InputFile) (reports : List Report) :
    scan context current (reports.map (·.lines)).flatten = recordsOf context reports := by
  induction reports generalizing current with
  | nil => rfl
  | cons report reports ih =>
    rw [List.map_cons, List.flatten_cons, scan_append, scan_of_source current report.source, ih]
    rfl

theorem mem_lineCounts {line count : ℤ} {checksum : Bool} :
    (count, checksum) ∈ lineCounts records file line ↔ (file, .line line count checksum) ∈ records := by
  simp only [lineCounts, List.mem_filterMap]
  constructor
  · rintro ⟨⟨other, record⟩, hmem, heq⟩
    cases record with
    | source => cases heq
    | branch number branch taken => cases heq
    | line number count' checksum' =>
      simp only [Option.ite_none_right_eq_some, Option.some.injEq, Prod.mk.injEq] at heq
      obtain ⟨⟨rfl, rfl⟩, rfl, rfl⟩ := heq
      exact hmem
  · exact fun hmem => ⟨_, hmem, by simp⟩

theorem mem_branchCounts {line taken : ℤ} {branch : Text × Text} :
    (branch, taken) ∈ branchCounts records file line ↔ (file, .branch line branch taken) ∈ records := by
  simp only [branchCounts, List.mem_filterMap]
  constructor
  · rintro ⟨⟨other, record⟩, hmem, heq⟩
    cases record with
    | source => cases heq
    | line number count checksum => cases heq
    | branch number branch' taken' =>
      simp only [Option.ite_none_right_eq_some, Option.some.injEq, Prod.mk.injEq] at heq
      obtain ⟨⟨rfl, rfl⟩, rfl, rfl⟩ := heq
      exact hmem
  · exact fun hmem => ⟨_, hmem, by simp⟩

/-! ### Order -/

theorem keys_perm {counts counts' : List ((Text × Text) × ℤ)} (h : counts.Perm counts') :
    keys counts = keys counts' :=
  List.toFinset_eq_of_perm _ _ ((h.filter _).map _)

theorem savedConditions_perm {counts counts' : List ((Text × Text) × ℤ)} (h : counts.Perm counts') :
    savedConditions counts = savedConditions counts' := by
  have hcovered : coveredKeys counts = coveredKeys counts' := by
    have hsum : ∀ key, (acceptedBranch key counts).sum = (acceptedBranch key counts').sum :=
      fun key => ((h.filter _).map _).sum_eq
    simp only [coveredKeys, keys_perm h, hsum]
  rw [savedConditions, savedConditions, keys_perm h, hcovered]

theorem savedHits_perm {counts counts' : List (ℤ × Bool)} {branches branches' : List ((Text × Text) × ℤ)}
    (h : counts.Perm counts') (hbranches : branches.Perm branches') :
    savedHits counts branches = savedHits counts' branches' := by
  have htotal : total (acceptedLine counts) = total (acceptedLine counts') := total_perm ((h.filter _).map _)
  rw [savedHits, savedHits, htotal, savedConditions_perm hbranches]

/-! ### The merged coverage -/

/-- The hits and the conditions of each line. -/
def reading (coverage : Option NewCoverage) : Option ((ℤ → Option ℤ) × (ℤ → Option (ℕ × ℕ))) :=
  coverage.map fun coverage => (store.hitsOf coverage, store.conditionsOf coverage)

variable (context) in
def savedCoverage (reports : List Report) (file : InputFile) : Option NewCoverage :=
  saveCoverage context store (reports.map (·.lines)) file

variable {reports reports' : List Report}

theorem savedCoverage_of_mem {record : Record} (hmain : context.isMain file = true)
    (h : (file, record) ∈ recordsOf context reports) :
    ∃ coverage, savedCoverage store context reports file = some coverage ∧ ∀ line,
      store.hitsOf coverage line = savedHits (lineCounts (recordsOf context reports) file line)
          (branchCounts (recordsOf context reports) file line) ∧
        store.conditionsOf coverage line =
          savedConditions (branchCounts (recordsOf context reports) file line) := by
  have hinv : Inv context _ _ := inv_parse (reports.map (·.lines)).flatten
  rw [scan_flatten] at hinv
  obtain ⟨data, hdata⟩ := (hinv.files file).mpr ⟨record, h⟩
  have hcollected := hinv.collected file data hdata
  refine ⟨data.save store, ?_, fun line => ⟨hcollected.hitsOf store line, hcollected.conditionsOf store line⟩⟩
  rw [savedCoverage, saveCoverage, if_pos hmain, hdata, Option.map_some]

theorem savedCoverage_of_forall
    (h : context.isMain file = true → ∀ record, (file, record) ∉ recordsOf context reports) :
    savedCoverage store context reports file = none := by
  have hinv : Inv context _ _ := inv_parse (reports.map (·.lines)).flatten
  rw [scan_flatten] at hinv
  unfold savedCoverage saveCoverage
  split_ifs with hmain
  · rw [Option.map_eq_none_iff, Option.eq_none_iff_forall_ne_some]
    intro data hdata
    obtain ⟨record, hrecord⟩ := (hinv.files file).mp ⟨data, hdata⟩
    exact h hmain record hrecord
  · rfl

theorem reading_perm (h : reports.Perm reports') (file : InputFile) :
    reading store (savedCoverage store context reports file) =
      reading store (savedCoverage store context reports' file) := by
  have hrecords : (recordsOf context reports).Perm (recordsOf context reports') := h.flatMap_right _
  by_cases hsaved : context.isMain file = true ∧ ∃ record, (file, record) ∈ recordsOf context reports
  · obtain ⟨hmain, record, hrecord⟩ := hsaved
    obtain ⟨coverage, heq, hread⟩ := savedCoverage_of_mem store hmain hrecord
    obtain ⟨coverage', heq', hread'⟩ := savedCoverage_of_mem store hmain (hrecords.subset hrecord)
    have hlines : ∀ line, (lineCounts (recordsOf context reports) file line).Perm
        (lineCounts (recordsOf context reports') file line) :=
      fun line => hrecords.filterMap _
    have hbranches : ∀ line, (branchCounts (recordsOf context reports) file line).Perm
        (branchCounts (recordsOf context reports') file line) :=
      fun line => hrecords.filterMap _
    rw [heq, heq']
    refine congrArg some (Prod.ext (funext fun line => ?_) (funext fun line => ?_))
    · exact (hread line).1.trans ((savedHits_perm (hlines line) (hbranches line)).trans (hread' line).1.symm)
    · exact (hread line).2.trans ((savedConditions_perm (hbranches line)).trans (hread' line).2.symm)
  · have hnone : context.isMain file = true → ∀ record, (file, record) ∉ recordsOf context reports :=
      fun hmain record hrecord => hsaved ⟨hmain, record, hrecord⟩
    rw [savedCoverage_of_forall store hnone, savedCoverage_of_forall store fun hmain record hrecord =>
      hnone hmain record (hrecords.symm.subset hrecord)]

variable (context) in
/-- What is asked of the coverage: it does not depend on the order of the reports, a line is covered if and only
if one of its records has a positive count, and so is a branch. -/
structure MergesExactly (reports : List Report) : Prop where
  order : ∀ reports', reports.Perm reports' → ∀ file,
    reading store (savedCoverage store context reports file) =
      reading store (savedCoverage store context reports' file)
  lines : ∀ file, context.isMain file = true → ∀ line,
    LineExact ((savedCoverage store context reports file).bind fun coverage => store.hitsOf coverage line)
      (lineCounts (recordsOf context reports) file line) (branchCounts (recordsOf context reports) file line)
  branches : ∀ file, context.isMain file = true → ∀ line,
    BranchesExact
      ((savedCoverage store context reports file).bind fun coverage => store.conditionsOf coverage line)
      (branchCounts (recordsOf context reports) file line)

/-- A file without records has no hits and no conditions. -/
theorem saved_eq (hmain : context.isMain file = true) (line : ℤ) :
    ((savedCoverage store context reports file).bind fun coverage => store.hitsOf coverage line) =
        savedHits (lineCounts (recordsOf context reports) file line)
          (branchCounts (recordsOf context reports) file line) ∧
      ((savedCoverage store context reports file).bind fun coverage => store.conditionsOf coverage line) =
        savedConditions (branchCounts (recordsOf context reports) file line) := by
  by_cases hsaved : ∃ record, (file, record) ∈ recordsOf context reports
  · obtain ⟨record, hrecord⟩ := hsaved
    obtain ⟨coverage, heq, hread⟩ := savedCoverage_of_mem store hmain hrecord
    rw [heq]
    exact hread line
  · have hnone : ∀ record, (file, record) ∉ recordsOf context reports :=
      fun record hrecord => hsaved ⟨record, hrecord⟩
    have hlines : lineCounts (recordsOf context reports) file line = [] :=
      List.eq_nil_iff_forall_not_mem.mpr fun count hcount => hnone _ (mem_lineCounts.mp hcount)
    have hbranches : branchCounts (recordsOf context reports) file line = [] :=
      List.eq_nil_iff_forall_not_mem.mpr fun count hcount => hnone _ (mem_branchCounts.mp hcount)
    rw [savedCoverage_of_forall store fun _ => hnone, hlines, hbranches]
    exact ⟨rfl, rfl⟩

/-- **When the merged coverage is right.** -/
theorem mergesExactly_iff (reports : List Report) : MergesExactly store context reports ↔
    ∀ file, context.isMain file = true → ∀ line,
      Regular (lineCounts (recordsOf context reports) file line)
        (branchCounts (recordsOf context reports) file line) := by
  constructor
  · intro h file hmain line
    have hexact := h.branches file hmain line
    have hline := h.lines file hmain line
    rw [(saved_eq store hmain line).2] at hexact
    rw [(saved_eq store hmain line).1, lineExact_iff hexact] at hline
    exact ⟨branchesExact_iff.mp hexact, hline.1, hline.2⟩
  · intro h
    have hexact : ∀ file, context.isMain file = true → ∀ line,
        BranchesExact (savedConditions (branchCounts (recordsOf context reports) file line))
          (branchCounts (recordsOf context reports) file line) :=
      fun file hmain line => branchesExact_iff.mpr (h file hmain line).regular
    refine ⟨fun reports' hperm file => reading_perm store hperm file, fun file hmain line => ?_,
      fun file hmain line => ?_⟩
    · rw [(saved_eq store hmain line).1, lineExact_iff (hexact file hmain line)]
      exact ⟨(h file hmain line).accepted, (h file hmain line).unaccepted⟩
    · rw [(saved_eq store hmain line).2]
      exact hexact file hmain line

/-- A store that keeps the first value of each line. -/
def firstValues : CoverageStore ((ℤ → Option ℤ) × (ℤ → Option (ℕ × ℕ))) where
  newCoverage := (fun _ => none, fun _ => none)
  lineHits line hits coverage :=
    (fun other => if other = line then (coverage.1 line).or (some hits) else coverage.1 other, coverage.2)
  conditions line conditions covered coverage :=
    (coverage.1, fun other =>
      if other = line then (coverage.2 line).or (some (conditions, covered)) else coverage.2 other)
  hitsOf := Prod.fst
  conditionsOf := Prod.snd
  hitsOf_newCoverage _ := rfl
  conditionsOf_newCoverage _ := rfl
  hitsOf_lineHits _ _ _ _ := rfl
  conditionsOf_lineHits _ _ _ := rfl
  hitsOf_conditions _ _ _ _ := rfl
  conditionsOf_conditions _ _ _ _ _ := rfl

/-- A project of one file with one line. -/
def oneLine : Context Unit where
  inputFile _ := some ()
  getInputFile _ := none
  lines _ := 1
  isMain _ := true
  digit c := if c.isDigit then some (c.toNat - 48) else none
  digit_comma := rfl

def checksumLine : Text := ['D', 'A', ':', '1', ',', '5', ',', 'a']

def checksumReport : Report where
  lines := [['S', 'F', ':', 'a'], checksumLine]
  source := by decide

/-- The line has been executed five times, and is not covered. -/
theorem checksum_not_covered : ¬ MergesExactly firstValues oneLine [checksumReport] := by
  intro h
  have hline := h.lines () rfl 1
  rw [(saved_eq firstValues rfl 1).1] at hline
  have hlines : lineCounts (recordsOf oneLine [checksumReport]) () 1 = [(5, true)] := by decide
  have hbranches : branchCounts (recordsOf oneLine [checksumReport]) () 1 = [] := by decide
  rw [hlines, hbranches] at hline
  obtain ⟨hits, hhits, -⟩ := hline.mpr (.inl ⟨(5, true), by decide, by decide⟩)
  have hnone : savedHits [(5, true)] [] = none := by decide
  rw [hnone] at hhits
  cases hhits

end SonarJavascript.Lcov
