import Mathlib.Algebra.Order.BigOperators.Group.List
import Mathlib.Algebra.Order.Ring.Int
import SonarJavascript.Lcov.MergedCoverage

/-!
# The conditions of a line

The conditions that are saved for a line are its branches, and the covered ones those whose counts have a positive
sum, as long as no two branches share a key and no count is lost: `conditionsExact_iff`.
-/

namespace SonarJavascript.Lcov

variable {branches : List ((Text × Text) × ℤ)}

/-- The counts of a branch, of whatever size. -/
def takenOf (branch : Text × Text) (branches : List ((Text × Text) × ℤ)) : List ℤ :=
  (branches.filter fun count => count.1 = branch).map Prod.snd

def positiveBranches (branches : List ((Text × Text) × ℤ)) : Finset (Text × Text) :=
  (branchesOf branches).filter fun branch => 0 < (takenOf branch branches).sum

/-- Each branch has a count of 32 bits, no two branches have one key, and as many branches have a positive sum in
32 bits as have a positive sum. -/
structure RegularConditions (branches : List ((Text × Text) × ℤ)) : Prop where
  accepted : ∀ branch ∈ branchesOf branches, acceptedTaken branch branches ≠ []
  injective : Set.InjOn branchKey (branchesOf branches)
  positive : (summedBranches branches).card = (positiveBranches branches).card

/-- The numbers of the branches of a line and of those with a positive sum. -/
def expectedConditions (branches : List ((Text × Text) × ℤ)) : Option (ℕ × ℕ) :=
  if branchesOf branches = ∅ then none else some ((branchesOf branches).card, (positiveBranches branches).card)

theorem keys_eq_empty_of_branchesOf (h : branchesOf branches = ∅) : keys branches = ∅ := by
  rw [keys_eq_image, h]
  rfl

theorem savedConditions_eq_iff : savedConditions branches = expectedConditions branches ↔
    (keys branches).card = (branchesOf branches).card ∧
      (coveredKeys branches).card = (positiveBranches branches).card := by
  unfold savedConditions expectedConditions
  by_cases hempty : branchesOf branches = ∅
  · have hkeys := keys_eq_empty_of_branchesOf hempty
    simp [hempty, hkeys, coveredKeys, positiveBranches]
  · by_cases hkeys : keys branches = ∅
    · have hpos := Finset.card_pos.mpr (Finset.nonempty_iff_ne_empty.mpr hempty)
      simp [hempty, hkeys, hpos.ne]
    · simp [hempty, hkeys]

theorem regularConditions_iff :
    savedConditions branches = expectedConditions branches ↔ RegularConditions branches := by
  rw [savedConditions_eq_iff, card_keys_eq_iff]
  constructor
  · rintro ⟨⟨haccepted, hinjective⟩, hcard⟩
    exact ⟨haccepted, hinjective, (card_coveredKeys haccepted hinjective).symm.trans hcard⟩
  · rintro ⟨haccepted, hinjective, hpositive⟩
    exact ⟨⟨haccepted, hinjective⟩, (card_coveredKeys haccepted hinjective).trans hpositive⟩

/-- Where all counts are numbers from 0 on whose sums are below 2^31, only the keys matter. -/
theorem regularConditions_of_small (hnonneg : ∀ count ∈ branches, 0 ≤ count.2)
    (hsmall : ∀ branch ∈ branchesOf branches, (takenOf branch branches).sum < 2 ^ 31) :
    RegularConditions branches ↔ Set.InjOn branchKey (branchesOf branches) := by
  have hmem : ∀ count ∈ branches, count.1 ∈ branchesOf branches := fun count hcount =>
    List.mem_toFinset.mpr (List.mem_map_of_mem hcount)
  have hnonneg' : ∀ branch, ∀ taken ∈ takenOf branch branches, 0 ≤ taken := by
    intro branch taken htaken
    obtain ⟨count, hcount, rfl⟩ := List.mem_map.mp htaken
    exact hnonneg count (List.mem_of_mem_filter hcount)
  have hfits : ∀ count ∈ branches, Fits count.2 := by
    intro count hcount
    have hle : count.2 ≤ (takenOf count.1 branches).sum :=
      List.single_le_sum (hnonneg' count.1) _ (List.mem_map_of_mem (by simpa using hcount))
    have := hsmall count.1 (hmem count hcount)
    have := hnonneg count hcount
    constructor <;> omega
  have hsame : ∀ branch, acceptedTaken branch branches = takenOf branch branches := fun branch => by
    unfold acceptedTaken takenOf
    congr 1
    exact List.filter_congr fun count hcount => by simp [hfits count hcount]
  have haccepted : ∀ branch ∈ branchesOf branches, acceptedTaken branch branches ≠ [] := by
    intro branch hbranch hnil
    obtain ⟨count, hcount, rfl⟩ := List.mem_map.mp (List.mem_toFinset.mp hbranch)
    rw [hsame, takenOf, List.map_eq_nil_iff, List.filter_eq_nil_iff] at hnil
    simpa using hnil count hcount
  have hpositive : summedBranches branches = positiveBranches branches :=
    Finset.filter_congr fun branch hbranch => by
      have hsum := hsmall branch hbranch
      have hpos := List.sum_nonneg (hnonneg' branch)
      rw [hsame, wrap, Int.bmod_eq_of_le_mul_two (by omega) (by omega)]
  exact ⟨RegularConditions.injective, fun h => ⟨haccepted, h, by rw [hpositive]⟩⟩

variable {NewCoverage : Type} (store : CoverageStore NewCoverage)

variable {InputFile : Type} [DecidableEq InputFile] {context : Context InputFile} {file : InputFile}

variable (context) in
/-- The records of all reports, read as one stream. -/
def recordsOfStream (reports : List (List Text)) : List (InputFile × Record) :=
  scan context none reports.flatten

theorem savedConditions_of_stream (hmain : context.isMain file = true) (reports : List (List Text)) (line : ℤ) :
    ((saveCoverage context store reports file).bind fun coverage => store.conditionsOf coverage line) =
      savedConditions (branchCounts (recordsOfStream context reports) file line) := by
  have hinv : Inv context (recordsOfStream context reports) _ := inv_parse reports.flatten
  rw [saveCoverage, if_pos hmain]
  cases hdata : (parse context reports.flatten).files.lookup file with
  | some data => exact (hinv.collected file data hdata).conditionsOf store line
  | none =>
    have hbranches : branchCounts (recordsOfStream context reports) file line = [] := by
      refine List.eq_nil_iff_forall_not_mem.mpr fun count hcount => ?_
      obtain ⟨data, hsome⟩ := (hinv.files file).mpr ⟨_, mem_branchCounts.mp hcount⟩
      rw [hdata] at hsome
      cases hsome
    rw [hbranches]
    rfl

variable (context) in
/-- What is asked of the conditions of a line. -/
def ConditionsExact (reports : List (List Text)) (file : InputFile) (line : ℤ) : Prop :=
  ((saveCoverage context store reports file).bind fun coverage => store.conditionsOf coverage line) =
    expectedConditions (branchCounts (recordsOfStream context reports) file line)

/-- **When the conditions of a line are right.** -/
theorem conditionsExact_iff (hmain : context.isMain file = true) (reports : List (List Text)) (line : ℤ) :
    ConditionsExact store context reports file line ↔
      RegularConditions (branchCounts (recordsOfStream context reports) file line) := by
  rw [ConditionsExact, savedConditions_of_stream store hmain, regularConditions_iff]

def branchLine (block branch taken : Char) : Text :=
  ['B', 'R', 'D', 'A', ':', '1', ',', block, ',', branch, ',', taken]

def twoBranches : List Text :=
  [['S', 'F', ':', 'a'], branchLine '0' '0' '1', branchLine '0' '1' '-', branchLine '0' '0' '2']

/-- Two branches, one of them taken three times. -/
theorem conditionsExact_iff_twoBranches : ConditionsExact firstValues oneLine [twoBranches] () 1 := by
  refine (conditionsExact_iff firstValues rfl _ _).mpr ?_
  have hbranches : branchCounts (recordsOfStream oneLine [twoBranches]) () 1 =
      [((['0'], ['0']), 1), ((['0'], ['1']), 0), ((['0'], ['0']), 2)] := by decide
  rw [hbranches]
  exact ⟨by decide, by decide, by decide⟩

/-- Block 1 and branch 12, and block 11 and branch 2. -/
def sharedKey : List Text :=
  [['S', 'F', ':', 'a'], ['B', 'R', 'D', 'A', ':', '1', ',', '1', ',', '1', '2', ',', '1'],
    ['B', 'R', 'D', 'A', ':', '1', ',', '1', '1', ',', '2', ',', '0']]

/-- The two branches are saved as one. -/
theorem sharedKey_not_exact : ¬ ConditionsExact firstValues oneLine [sharedKey] () 1 := by
  have hsaved : ((saveCoverage oneLine firstValues [sharedKey] ()).bind
      fun coverage => firstValues.conditionsOf coverage 1) = some (1, 1) := by decide
  have hbranches : branchCounts (recordsOfStream oneLine [sharedKey]) () 1 =
      [((['1'], ['1', '2']), 1), ((['1', '1'], ['2']), 0)] := by decide
  rw [ConditionsExact, hsaved, hbranches]
  decide

end SonarJavascript.Lcov
