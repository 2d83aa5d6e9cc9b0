import Mathlib.Data.List.Basic

/-!
# Deploying the embedded Node.js

`EmbeddedNode.deploy` extracts the runtime that the plugin bundles, unless the version file of the deploy
directory says that it is there. The bundled version is a stream that can be read once: `isDifferent` reads
it, and what is then copied into the version file is what is left of it.

`deploy_converges_iff`: the directory has the bundled version afterwards exactly when it had no version file
before, or the bundled version is empty.
-/

namespace SonarJavascript.Bridge

/-- The version text and the uncompressed runtime that a plugin bundles. -/
structure Bundle where
  version : String
  binary : List UInt8

structure DeployDirectory where
  version : Option String
  runtime : Option (List UInt8)
  deriving DecidableEq

inductive Outcome
  | notBundled
  | skipped
  | extracted
  | lockTaken
  deriving DecidableEq

/-- The answer, and what is left of `newVersionIs`. -/
def isDifferent (newVersionIs currentVersion : String) : Bool × String := (newVersionIs ≠ currentVersion, "")

/-- `extract`, an existing file is overwritten. -/
def extract (source : List UInt8) (dir : DeployDirectory) : DeployDirectory := { dir with runtime := some source }

/-- `Files.copy(versionIs, .., REPLACE_EXISTING)` -/
def copyVersion (versionIs : String) (dir : DeployDirectory) : DeployDirectory :=
  { dir with version := some versionIs }

/-- `lockFree` says whether `tryLock` returns a lock. -/
def extractWithLocking (source : List UInt8) (versionIs : String) (lockFree : Bool) (dir : DeployDirectory) :
    Outcome × DeployDirectory :=
  if lockFree then (.extracted, copyVersion versionIs (extract source dir))
  else (.lockTaken, dir)

/-- No exception is thrown; the plugin may have no archive for the platform. -/
def deploy (bundle : Option Bundle) (lockFree : Bool) (dir : DeployDirectory) : Outcome × DeployDirectory :=
  match bundle with
  | none => (.notBundled, dir)
  | some bundle =>
    match dir.version with
    | none => extractWithLocking bundle.binary bundle.version lockFree dir
    | some currentVersion =>
      let (different, versionIs) := isDifferent bundle.version currentVersion
      if different then extractWithLocking bundle.binary versionIs lockFree dir
      else (.skipped, dir)

variable {bundle : Bundle} {lockFree : Bool} {dir dir' : DeployDirectory}

/-- What an extraction leaves. -/
theorem deploy_extracted (h : deploy (some bundle) lockFree dir = (.extracted, dir')) :
    dir'.runtime = some bundle.binary ∧
      ((dir.version = none ∧ dir'.version = some bundle.version) ∨
        ∃ current, dir.version = some current ∧ current ≠ bundle.version ∧ dir'.version = some "") := by
  have hrun : ∀ versionIs, extractWithLocking bundle.binary versionIs lockFree dir = (.extracted, dir') →
      dir' = ⟨some versionIs, some bundle.binary⟩ := by
    intro versionIs h
    unfold extractWithLocking at h
    split_ifs at h
    · exact (Prod.mk.inj h).2.symm
    · exact absurd (Prod.mk.inj h).1 (by decide)
  unfold deploy at h
  cases hversion : dir.version with
  | none =>
    rw [hversion] at h
    obtain rfl := hrun _ h
    exact ⟨rfl, .inl ⟨rfl, rfl⟩⟩
  | some current =>
    rw [hversion] at h
    simp only [isDifferent, decide_eq_true_eq] at h
    split_ifs at h with hdifferent
    · obtain rfl := hrun _ h
      exact ⟨rfl, .inr ⟨current, rfl, Ne.symm hdifferent, rfl⟩⟩
    · exact absurd (Prod.mk.inj h).1 (by decide)

/-- The version file has the bundled version if and only if a deploy of the same plugin has nothing to do. -/
theorem deploy_skipped_iff (lockFree : Bool) (dir : DeployDirectory) :
    deploy (some bundle) lockFree dir = (.skipped, dir) ↔ dir.version = some bundle.version := by
  unfold deploy
  cases hversion : dir.version with
  | none => simp [extractWithLocking, Prod.ext_iff, ite_eq_iff]
  | some current =>
    simp only [isDifferent, decide_eq_true_eq, Option.some.injEq]
    split_ifs with hdifferent
    · refine iff_of_false (fun h => ?_) (Ne.symm hdifferent)
      unfold extractWithLocking at h
      split_ifs at h <;> exact absurd (Prod.mk.inj h).1 (by decide)
    · exact iff_of_true rfl (not_not.mp hdifferent).symm

/-- **When a deploy converges.** After an extraction the directory has the bundled version and runtime, and
the next deploy is skipped, if and only if there was no version file or the bundled version is empty. -/
theorem deploy_converges_iff (h : deploy (some bundle) lockFree dir = (.extracted, dir')) :
    (dir'.version = some bundle.version ∧ dir'.runtime = some bundle.binary ∧
        ∀ free, deploy (some bundle) free dir' = (.skipped, dir')) ↔
      dir.version = none ∨ bundle.version = "" := by
  obtain ⟨hruntime, hversion⟩ := deploy_extracted h
  simp only [deploy_skipped_iff, hruntime, true_and, forall_const, and_self]
  obtain ⟨hnone, hcopied⟩ | ⟨current, hcurrent, -, hcopied⟩ := hversion
  · simp [hnone, hcopied]
  · simp only [hcurrent, hcopied, Option.some.injEq, reduceCtorEq, false_or]
    exact eq_comm

/-- The plugin of these tests. -/
def nodeBundle : Bundle := ⟨"v20.11.1", [0x7f, 0x45, 0x4c, 0x46]⟩

/-- Into an empty directory. -/
theorem deploy_converges_iff_empty :
    deploy (some nodeBundle) true ⟨some "v20.11.1", some nodeBundle.binary⟩ =
      (.skipped, ⟨some "v20.11.1", some nodeBundle.binary⟩) :=
  ((@deploy_converges_iff nodeBundle true ⟨none, none⟩ ⟨some "v20.11.1", some nodeBundle.binary⟩ rfl).mpr
    (.inl rfl)).2.2 true

/-- Over an older version the version file is left empty, and the next deploy extracts again. -/
theorem upgrade_empties_version :
    deploy (some nodeBundle) true ⟨some "v18.0.0", some []⟩ = (.extracted, ⟨some "", some nodeBundle.binary⟩) ∧
      deploy (some nodeBundle) true ⟨some "", some nodeBundle.binary⟩ =
        (.extracted, ⟨some "", some nodeBundle.binary⟩) := by
  decide

end SonarJavascript.Bridge
