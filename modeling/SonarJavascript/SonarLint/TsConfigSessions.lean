import SonarJavascript.SonarLint.TsConfigAnswers

/-!
# Sessions with the tsconfig cache

Lists of tsconfigs and events leave the cache of an origin as it is, or clear it; queries go on with its
exploration.
-/

namespace SonarJavascript.SonarLint

open SonarJavascript.Cache (JavaException)
open Exploration

variable {host : Host}

theorem putCache_cacheMap (impl : TsConfigCacheImpl) (tsConfigOrigin origin : TsConfigOrigin) (cache : Cache) :
    (impl.putCache tsConfigOrigin cache).cacheMap origin =
      if origin = tsConfigOrigin then cache else impl.cacheMap origin :=
  Function.update_apply _ _ _ _

/-- What an operation makes of the cache of an origin. -/
theorem apply_cases (impl : TsConfigCacheImpl) (origin : TsConfigOrigin) (operation : Operation) :
    (operation.clears impl origin = false ∧ (operation.apply impl).cacheMap origin = impl.cacheMap origin) ∨
    (operation.clears impl origin = true ∧
      ((operation.apply impl).cacheMap origin = (impl.cacheMap origin).clearFileToTsConfigCache ∨
        (operation.apply impl).cacheMap origin = (impl.cacheMap origin).clearAll ∨
        ∃ tsConfigPaths, operation = .initializeWith tsConfigPaths origin ∧
          (operation.apply impl).cacheMap origin =
            (impl.cacheMap origin).initializeOriginalTsConfigs tsConfigPaths)) := by
  cases operation with
  | initializeWith tsConfigPaths tsConfigOrigin =>
    simp only [Operation.clears, Operation.apply, TsConfigCacheImpl.initializeWith]
    by_cases horigin : origin = tsConfigOrigin
    · subst horigin
      by_cases hfallback : origin = .FALLBACK
      · cases hinitialized : (impl.cacheMap origin).initialized with
        | false => exact .inr (by simp [hfallback, putCache_cacheMap])
        | true => exact .inl (by simp [hfallback])
      · by_cases hequals : (impl.cacheMap origin).originalTsConfigFiles = tsConfigPaths
        · exact .inl (by simp [hfallback, hequals])
        · exact .inr (by simp [hfallback, hequals, putCache_cacheMap])
    · refine .inl ⟨by simp [horigin], ?_⟩
      split
      · rfl
      · split
        · rfl
        · rw [putCache_cacheMap, if_neg horigin]
  | process event =>
    simp only [Operation.clears, Operation.apply, TsConfigCacheImpl.process]
    by_cases htsConfig : TsConfigCacheImpl.isTsConfig event.target = true
    · rw [if_pos htsConfig, if_pos htsConfig]
      by_cases hdiscovered : event.target.absolutePath ∈ (impl.cacheMap .PROPERTY).discoveredTsConfigFiles
      · cases origin <;> simp [putCache_cacheMap, hdiscovered]
      · cases origin <;> simp [putCache_cacheMap, hdiscovered]
    · rw [if_neg htsConfig, if_neg htsConfig]
      cases "package.json".toList.isSuffixOf event.target.absolutePath.toList with
      | true => exact .inl ⟨rfl, rfl⟩
      | false =>
        cases event.type = .CREATED && (event.target.isJavaScriptFile || event.target.isTypeScriptFile) with
        | false => exact .inl ⟨rfl, rfl⟩
        | true => exact .inr ⟨rfl, .inl rfl⟩
  | setOrigin tsConfigOrigin => exact .inl ⟨rfl, rfl⟩
  | getAndResetShouldClearDependenciesCache => exact .inl ⟨rfl, rfl⟩
  | setProjectSize projectSize => exact .inl ⟨rfl, rfl⟩

/-- The cache of each origin is an exploration from its original list, where a query meets no exception. -/
def Session.Inv (host : Host) (session : Session) : Prop :=
  ∀ origin, (session.impl.cacheMap origin).Inv host (session.loaded origin) ∧
    HaveFolders host (session.impl.cacheMap origin).originalTsConfigFiles

theorem haveFolders_nil : HaveFolders host [] := by
  rintro path ⟨root, hroot, -⟩
  cases hroot

theorem inv_apply {session : Session} (h : session.Inv host) (operation : Operation)
    (hfolders : ∀ tsConfigPaths origin, operation = .initializeWith tsConfigPaths origin →
      HaveFolders host tsConfigPaths) : (session.apply operation).Inv host := by
  intro origin
  obtain ⟨hinv, hold⟩ := h origin
  show ((operation.apply session.impl).cacheMap origin).Inv host (if _ then _ else _) ∧
    HaveFolders host ((operation.apply session.impl).cacheMap origin).originalTsConfigFiles
  rcases apply_cases session.impl origin operation with ⟨hclears, hcache⟩ |
    ⟨hclears, hcache | hcache | ⟨tsConfigPaths, hinitialize, hcache⟩⟩
  · rw [hcache, hclears, if_neg Bool.false_ne_true]
    exact ⟨hinv, hold⟩
  · rw [hcache, hclears, if_pos rfl]
    exact ⟨Cache.inv_clearFileToTsConfigCache hinv.uninitialized, hold⟩
  · rw [hcache, hclears, if_pos rfl]
    exact ⟨Cache.inv_clearFileToTsConfigCache fun _ => rfl, haveFolders_nil⟩
  · rw [hcache, hclears, if_pos rfl]
    exact ⟨Cache.inv_clearFileToTsConfigCache nofun, hfolders _ _ hinitialize⟩

/-! ### Queries -/

/-- The list that a query is about. -/
def TsConfigCacheImpl.currentTsConfigFiles (impl : TsConfigCacheImpl) : List String :=
  match impl.origin with
  | none => []
  | some origin => (impl.cacheMap origin).originalTsConfigFiles

section Queries

variable {session : Session} {inputFile : InputFile} {fuel : ℕ} {loaded : List String} {impl : TsConfigCacheImpl}
  {result : Except JavaException (Option TsConfigFile)}

/-- What a query answers and leaves. -/
structure Query (host : Host) (session : Session) (inputFile : InputFile)
    (result : Except JavaException (Option TsConfigFile)) (loaded : List String) (impl : TsConfigCacheImpl)
    (answer : Option TsConfigFile) : Prop where
  result : result = .ok answer
  correct : Correct host session.impl.currentTsConfigFiles inputFile.absolutePath answer
  inv : (session.answered impl loaded).Inv host
  original : ∀ origin, (impl.cacheMap origin).originalTsConfigFiles =
    (session.impl.cacheMap origin).originalTsConfigFiles
  exhausted : answer = none → ∀ origin, session.impl.origin = some origin →
    (impl.cacheMap origin).pendingTsConfigFiles = []

theorem query_spec (h : session.Inv host)
    (hquery : session.impl.getTsConfigForInputFile host inputFile fuel = some (result, loaded, impl)) :
    ∃ answer, Query host session inputFile result loaded impl answer := by
  rw [TsConfigCacheImpl.getTsConfigForInputFile] at hquery
  cases horigin : session.impl.origin with
  | none =>
    rw [horigin] at hquery
    obtain ⟨rfl, rfl, rfl⟩ : _ ∧ _ ∧ _ := by simpa [eq_comm] using hquery
    refine ⟨none, rfl, ⟨nofun, iff_of_true rfl ?_⟩, fun origin => ?_, fun _ => rfl, fun _ origin hsome => ?_⟩
    · rintro ⟨path, ⟨root, hroot, -⟩, -⟩
      rw [TsConfigCacheImpl.currentTsConfigFiles, horigin] at hroot
      cases hroot
    · have hloaded : (session.answered session.impl []).loaded origin = session.loaded origin :=
        if_neg (by rw [horigin]; nofun)
      show (session.impl.cacheMap origin).Inv host _ ∧ _
      rw [hloaded]
      exact h origin
    · rw [horigin] at hsome
      cases hsome
  | some current =>
    rw [horigin] at hquery
    obtain ⟨answer, hanswer, heq⟩ := Option.map_eq_some_iff.mp hquery
    obtain ⟨rfl, rfl, rfl⟩ : _ ∧ _ ∧ _ := by simpa [eq_comm] using heq
    obtain ⟨hinv, hfolders⟩ := h current
    obtain ⟨tsConfigFile, hanswers⟩ := Cache.getTsConfigForInputFile_spec hinv hfolders hanswer
    refine ⟨tsConfigFile, hanswers.result, ?_, fun origin => ?_, fun origin => ?_, fun hnone origin hsome => ?_⟩
    · rw [TsConfigCacheImpl.currentTsConfigFiles, horigin]
      exact hanswers.correct
    · show ((session.impl.putCache current answer.cache).cacheMap origin).Inv host (if _ then _ else _) ∧
        HaveFolders host ((session.impl.putCache current answer.cache).cacheMap origin).originalTsConfigFiles
      rw [putCache_cacheMap, horigin]
      by_cases heq : origin = current
      · subst heq
        rw [if_pos rfl, if_pos rfl, hanswers.original]
        exact ⟨hanswers.inv, hfolders⟩
      · rw [if_neg heq, if_neg fun hsome => heq (Option.some.inj hsome).symm]
        exact h origin
    · rw [putCache_cacheMap]
      split
      next heq => rw [heq, hanswers.original]
      next => rfl
    · obtain rfl := Option.some.inj (horigin.symm.trans hsome)
      rw [putCache_cacheMap, if_pos rfl]
      exact hanswers.exhausted hnone

end Queries

theorem Reachable.inv {session : Session} (h : Reachable host session) : session.Inv host := by
  induction h with
  | start => exact fun origin => ⟨Cache.inv_create, haveFolders_nil⟩
  | operation operation _ hfolders ih => exact inv_apply ih operation hfolders
  | query _ hquery ih =>
    obtain ⟨answer, hspec⟩ := query_spec ih hquery
    exact hspec.inv

/-- Every query ends, with a tsconfig of the current list that has the file, or with null when there is none.
Between two clears a tsconfig is loaded once, when the list does not have it twice; and when it has, it is
loaded as often by the time that a query has found nothing. -/
theorem answers_from_current_list (hfinite : {path | references host path ≠ []}.Finite) {session : Session}
    (h : Reachable host session) :
    (∀ origin, (session.impl.cacheMap origin).originalTsConfigFiles.Nodup → (session.loaded origin).Nodup) ∧
    ∀ inputFile, (∃ fuel, (session.impl.getTsConfigForInputFile host inputFile fuel).isSome) ∧
      ∀ fuel result loaded impl,
        session.impl.getTsConfigForInputFile host inputFile fuel = some (result, loaded, impl) →
        ∃ answer, result = .ok answer ∧
          Correct host session.impl.currentTsConfigFiles inputFile.absolutePath answer ∧
          (answer = none → ∀ origin, session.impl.origin = some origin →
            (((session.answered impl loaded).loaded origin).Nodup ↔
              session.impl.currentTsConfigFiles.Nodup)) := by
  refine ⟨fun origin => (h.inv origin).1.explored.nodup_visited, fun inputFile => ⟨?_, ?_⟩⟩
  · cases horigin : session.impl.origin with
    | none => exact ⟨0, by rw [TsConfigCacheImpl.getTsConfigForInputFile, horigin]; rfl⟩
    | some origin =>
      obtain ⟨fuel, hfuel⟩ :=
        Cache.getTsConfigForInputFile_isSome hfinite inputFile (session.impl.cacheMap origin)
      refine ⟨fuel, ?_⟩
      rw [TsConfigCacheImpl.getTsConfigForInputFile, horigin, Option.isSome_map]
      exact hfuel
  · intro fuel result loaded impl hquery
    obtain ⟨answer, hspec⟩ := query_spec h.inv hquery
    refine ⟨answer, hspec.result, hspec.correct, fun hnone origin horigin => ?_⟩
    have hexplored := (hspec.inv origin).1.explored
    have hcurrent : session.impl.currentTsConfigFiles = (impl.cacheMap origin).originalTsConfigFiles := by
      rw [TsConfigCacheImpl.currentTsConfigFiles, horigin]
      exact (hspec.original origin).symm
    rw [hcurrent]
    exact ⟨hexplored.nodup_roots (hspec.exhausted hnone origin horigin), hexplored.nodup_visited⟩

/-! ### Two tsconfigs that refer to each other -/

/-- The folder of an absolute path. -/
def unixFolder (path : String) : Except JavaException String :=
  match path.toList.reverse.dropWhile (· ≠ '/') with
  | [] => .error .nullPointer
  | [_] => .ok "/"
  | _ :: folder => .ok (String.ofList folder.reverse)

def cyclicHost : Host where
  loadTsConfig path :=
    if path = "/a/tsconfig.json" then ⟨path, ["/a/x.ts"], ["/b/tsconfig.json"]⟩
    else if path = "/b/tsconfig.json" then ⟨path, ["/b/y.ts"], ["/a/tsconfig.json", "/b/tsconfig.json"]⟩
    else ⟨path, [], []⟩
  parentFolder := unixFolder

def cyclicSession : Session :=
  (Session.start.apply (.setOrigin .PROPERTY)).apply (.initializeWith ["/a/tsconfig.json"] .PROPERTY)

theorem references_cyclicHost {path : String} (h : references cyclicHost path ≠ []) :
    path = "/a/tsconfig.json" ∨ path = "/b/tsconfig.json" := by
  by_cases ha : path = "/a/tsconfig.json"
  · exact .inl ha
  · by_cases hb : path = "/b/tsconfig.json"
    · exact .inr hb
    · exact absurd (by simp [references, cyclicHost, ha, hb]) h

theorem finite_cyclicHost : {path | references cyclicHost path ≠ []}.Finite :=
  Set.Finite.subset (Set.toFinite {"/a/tsconfig.json", "/b/tsconfig.json"}) fun _ h => references_cyclicHost h

theorem haveFolders_cyclicHost : HaveFolders cyclicHost ["/a/tsconfig.json"] := by
  rintro path ⟨root, hroot, hpath⟩
  have hmem : path = "/a/tsconfig.json" ∨ path = "/b/tsconfig.json" := by
    induction hpath with
    | refl => exact .inl (List.mem_singleton.mp hroot)
    | tail _ hnext ih =>
      rcases ih with rfl | rfl
      · exact .inr (List.mem_singleton.mp hnext)
      · rcases hnext with _ | ⟨_, hlast⟩
        · exact .inl rfl
        · exact .inr (List.mem_singleton.mp hlast)
  rcases hmem with rfl | rfl
  · exact ⟨"/a", by decide⟩
  · exact ⟨"/b", by decide⟩

theorem reachable_cyclicSession : Reachable cyclicHost cyclicSession := by
  refine .operation _ (.operation _ .start fun _ _ h => by cases h) fun tsConfigPaths origin h => ?_
  obtain ⟨rfl, rfl⟩ := Operation.initializeWith.inj h
  exact haveFolders_cyclicHost

theorem answers_from_current_list_cyclic :
    ∃ fuel, (cyclicSession.impl.getTsConfigForInputFile cyclicHost ⟨"/b/y.ts", "y.ts", false, true⟩ fuel).isSome :=
  ((answers_from_current_list finite_cyclicHost reachable_cyclicSession).2 ⟨"/b/y.ts", "y.ts", false, true⟩).1

/-- A list that has a tsconfig twice, which a query loads twice. -/
def repeatedSession : Session :=
  (Session.start.apply (.setOrigin .PROPERTY)).apply
    (.initializeWith ["/a/tsconfig.json", "/a/tsconfig.json"] .PROPERTY)

theorem loaded_twice :
    ¬ ∀ (host : Host) (session : Session), {path | references host path ≠ []}.Finite → Reachable host session →
      ∀ origin, (session.loaded origin).Nodup := by
  intro h
  have hfolders : HaveFolders cyclicHost ["/a/tsconfig.json", "/a/tsconfig.json"] := by
    rintro path ⟨root, hroot, hpath⟩
    have hroot' : root ∈ ["/a/tsconfig.json"] := by simpa using hroot
    exact haveFolders_cyclicHost path ⟨root, hroot', hpath⟩
  have hsession : Reachable cyclicHost repeatedSession := by
    refine .operation _ (.operation _ .start fun _ _ h => by cases h) fun tsConfigPaths origin h => ?_
    obtain ⟨rfl, rfl⟩ := Operation.initializeWith.inj h
    exact hfolders
  obtain ⟨⟨result, loaded, impl⟩, hquery, hloaded⟩ : ∃ r, repeatedSession.impl.getTsConfigForInputFile cyclicHost
      ⟨"/c/z.ts", "z.ts", false, true⟩ 4 = some r ∧
        r.2.1 = ["/a/tsconfig.json", "/b/tsconfig.json", "/a/tsconfig.json"] :=
    Option.map_eq_some_iff.mp (by decide)
  have hnodup := h cyclicHost _ finite_cyclicHost (.query hsession hquery) .PROPERTY
  obtain rfl : loaded = _ := hloaded
  have htwice : ["/a/tsconfig.json", "/b/tsconfig.json", "/a/tsconfig.json"].Nodup := hnodup
  exact absurd htwice (by decide)

end SonarJavascript.SonarLint
