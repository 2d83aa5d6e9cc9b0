import SonarJavascript.Lib.Runs
import SonarJavascript.SonarLint.TsConfigProvider

/-!
# The tsconfigs of an analysis are those of the project as it is

`initializeTsConfigCache` at the start of an analysis, file events and queries in between.

`initialize_fresh`: when each change that adds or removes a `tsconfig.json` comes with an event about a
tsconfig, every analysis uses the tsconfigs that the property names or, if there are none, those that the walk
finds in the project as it is now. `fallback_kept`: the list for a project without tsconfigs never changes.
-/

namespace SonarJavascript.SonarLint

open SonarJavascript.Cache (JavaException)

/-! ### The providers -/

/-- What is written into a generated file. -/
structure TsConfig where
  files : Option (List String)
  compilerOptions : List (String × Bool)
  includes : Option (List String)

/-- Creates the file through the bridge, and returns its absolute path. -/
abbrev TsConfigFileCreator := TsConfig → Except JavaException String

namespace TsConfig

def new (inputFiles includes : Option (List String)) : TsConfig :=
  ⟨inputFiles, [("allowJs", true), ("noImplicitAny", true)], includes⟩

/-- Only an `IOException` is caught. -/
def writeFileWith (tsConfigFileCreator : TsConfigFileCreator) (config : TsConfig) :
    Except JavaException (List String) :=
  match tsConfigFileCreator config with
  | .ok file => .ok [file]
  | .error (.io _) => .ok []
  | .error e => .error e

end TsConfig

/-- What outlives an analysis: the cache of the module, and the generated files of each project root. -/
structure Workspace where
  impl : TsConfigCacheImpl
  defaultWildcardTsConfig : String → Option (List String)

/-- There is no result where the walk does not end. -/
structure Provider where
  tsconfigs : Workspace → Option (Except JavaException (List String) × Workspace)
  type : TsConfigOrigin

namespace PropertyTsConfigProvider

def provider (context : SensorContext) : Provider where
  tsconfigs workspace := some (.ok (tsconfigs context), workspace)
  type := .PROPERTY

end PropertyTsConfigProvider

namespace LookupTsConfigProvider

/-- Without a cache, and with one. -/
def provider (context : SensorContext) (cached : Bool) (fuel : ℕ) : Provider where
  tsconfigs workspace :=
    match if cached then workspace.impl.listCachedTsConfigs .LOOKUP else none with
    | some tsconfigs => some (.ok tsconfigs, workspace)
    | none =>
      (lookup context fuel).map fun (tsconfigs, fileCount) =>
        (.ok tsconfigs, if cached then { workspace with impl := workspace.impl.setProjectSize fileCount } else workspace)
  type := .LOOKUP

end LookupTsConfigProvider

/-- The check of the product, before the tsconfigs are generated. -/
def generated (context : SensorContext) (product : SonarProduct)
    (getDefaultTsConfigs : Workspace → Except JavaException (List String) × Workspace) : Provider where
  tsconfigs workspace :=
    some (if context.product ≠ product then (.ok [], workspace) else getDefaultTsConfigs workspace)
  type := .FALLBACK

namespace DefaultTsConfigProvider

def provider (context : SensorContext) (tsConfigFileCreator : TsConfigFileCreator) : Provider :=
  generated context .SONARQUBE fun workspace =>
    ((tsConfigFileCreator (.new (some context.inputFiles) none)).map fun file => [file], workspace)

end DefaultTsConfigProvider

namespace WildcardTsConfigProvider

def DEFAULT_MAX_FILES_FOR_TYPE_CHECKING : ℤ := 20000

def getTypeCheckingLimit (context : SensorContext) : ℤ :=
  max (context.config.maxFiles.getD DEFAULT_MAX_FILES_FOR_TYPE_CHECKING) 0

def isBeyondLimit (context : SensorContext) (projectSize : ℤ) : Bool := projectSize ≥ getTypeCheckingLimit context

def writeTsConfigFileFor (tsConfigFileCreator : TsConfigFileCreator) (root : String) :
    Except JavaException (List String) :=
  (TsConfig.new none (some [root ++ "/**/*"])).writeFileWith tsConfigFileCreator

/-- `computeIfAbsent` of the project root, unless the project is too large. -/
def getDefaultTsConfigs (context : SensorContext) (tsConfigFileCreator : TsConfigFileCreator) (workspace : Workspace) :
    Except JavaException (List String) × Workspace :=
  if isBeyondLimit context workspace.impl.projectSize then (.ok [], workspace)
  else
    match workspace.defaultWildcardTsConfig context.baseDir with
    | some tsconfigs => (.ok tsconfigs, workspace)
    | none =>
      match writeTsConfigFileFor tsConfigFileCreator context.baseDir with
      | .error e => (.error e, workspace)
      | .ok tsconfigs =>
        (.ok tsconfigs, { workspace with
          defaultWildcardTsConfig :=
            Function.update workspace.defaultWildcardTsConfig context.baseDir (some tsconfigs) })

def provider (context : SensorContext) (tsConfigFileCreator : TsConfigFileCreator) : Provider :=
  generated context .SONARLINT (getDefaultTsConfigs context tsConfigFileCreator)

end WildcardTsConfigProvider

namespace TsConfigProvider

/-- The loop over the providers. -/
def tsconfigs (cached : Bool) : List Provider → Workspace → Option (Except JavaException (List String) × Workspace)
  | [], workspace => some (.ok [], workspace)
  | provider :: providers, workspace =>
    match provider.tsconfigs workspace with
    | none => none
    | some (.error e, workspace) => some (.error e, workspace)
    | some (.ok tsconfigs, workspace) =>
      let initialized := if cached then
        { workspace with impl := workspace.impl.initializeWith tsconfigs provider.type } else workspace
      if tsconfigs ≠ [] then
        some (.ok tsconfigs,
          if cached then { initialized with impl := initialized.impl.setOrigin provider.type } else initialized)
      else TsConfigProvider.tsconfigs cached providers initialized

/-- Outside of SonarLint, where there is no cache. -/
def getTsConfigs (context : SensorContext) (tsConfigFileCreator : TsConfigFileCreator) (fuel : ℕ)
    (workspace : Workspace) : Option (Except JavaException (List String)) :=
  (tsconfigs false [PropertyTsConfigProvider.provider context, LookupTsConfigProvider.provider context false fuel,
    DefaultTsConfigProvider.provider context tsConfigFileCreator] workspace).map Prod.fst

def initializeTsConfigCache (context : SensorContext) (tsConfigFileCreator : TsConfigFileCreator) (fuel : ℕ)
    (workspace : Workspace) : Option (Except JavaException (List String) × Workspace) :=
  tsconfigs true [PropertyTsConfigProvider.provider context, LookupTsConfigProvider.provider context true fuel,
    WildcardTsConfigProvider.provider context tsConfigFileCreator] workspace

end TsConfigProvider

/-! ### A project that is edited and analysed -/

structure Project where
  workspace : Workspace
  /-- Its files and settings as they are now. -/
  context : SensorContext

inductive ProjectEvent
  /-- An analysis starts. -/
  | analyzeFiles
  | query
  | getAndResetShouldClearDependenciesCache
  /-- The project is another one, and the cache gets these events. -/
  | change (context : SensorContext) (events : List ModuleFileEvent)

inductive ProjectStep : Project → ProjectEvent → Project → Prop
  | analyzeFiles {project : Project} {creator : TsConfigFileCreator} {fuel : ℕ}
      {result : Except JavaException (List String)} {workspace : Workspace}
      (h : TsConfigProvider.initializeTsConfigCache project.context creator fuel project.workspace =
        some (result, workspace)) :
      ProjectStep project .analyzeFiles { project with workspace := workspace }
  | query {project : Project} {host : Host} {inputFile : InputFile} {fuel : ℕ}
      {result : Except JavaException (Option TsConfigFile)} {loaded : List String} {impl : TsConfigCacheImpl}
      (h : project.workspace.impl.getTsConfigForInputFile host inputFile fuel = some (result, loaded, impl)) :
      ProjectStep project .query { project with workspace := { project.workspace with impl := impl } }
  | getAndResetShouldClearDependenciesCache {project : Project} :
      ProjectStep project .getAndResetShouldClearDependenciesCache
        { project with workspace := { project.workspace with
          impl := project.workspace.impl.getAndResetShouldClearDependenciesCache.2 } }
  | change {project : Project} (context : SensorContext) (events : List ModuleFileEvent) :
      ProjectStep project (.change context events)
        ⟨{ project.workspace with
          impl := events.foldl (fun impl event => impl.process event) project.workspace.impl }, context⟩

/-- The walk through the project as it is. -/
def Walks (context : SensorContext) (tsconfigs : List String) (fileCount : ℕ) : Prop :=
  ∃ fuel, LookupTsConfigProvider.lookup context fuel = some (tsconfigs, fileCount)

def Finds (context : SensorContext) (tsconfigs : List String) : Prop := ∃ fileCount, Walks context tsconfigs fileCount

/-- A change that makes the walk find other tsconfigs comes with an event about a tsconfig. -/
def Announced (project : Project) : ProjectEvent → Prop
  | .change context events =>
    (∀ tsconfigs, Finds project.context tsconfigs ↔ Finds context tsconfigs) ∨
      ∃ event ∈ events, TsConfigCacheImpl.isTsConfig event.target = true
  | _ => True

/-! ### The list of an origin -/

namespace TsConfigCacheImpl

/-- Whether the cache of an origin is initialized, and with which list. -/
def listing (impl : TsConfigCacheImpl) (origin : TsConfigOrigin) : Bool × List String :=
  ((impl.cacheMap origin).initialized, (impl.cacheMap origin).originalTsConfigFiles)

variable (impl : TsConfigCacheImpl) (origin : TsConfigOrigin)

@[simp] theorem listing_setOrigin (tsConfigOrigin : TsConfigOrigin) :
    (impl.setOrigin tsConfigOrigin).listing origin = impl.listing origin := rfl

@[simp] theorem listing_setProjectSize (projectSize : ℤ) :
    (impl.setProjectSize projectSize).listing origin = impl.listing origin := rfl

theorem listing_initializeWith_of_ne (tsconfigs : List String) {tsConfigOrigin : TsConfigOrigin}
    (h : origin ≠ tsConfigOrigin) : (impl.initializeWith tsconfigs tsConfigOrigin).listing origin = impl.listing origin := by
  simp only [initializeWith]
  split_ifs with hinitialized hequals
  · rfl
  · rfl
  · simp [listing, putCache_cacheMap, h]

theorem listing_initializeWith {origin : TsConfigOrigin} (horigin : origin ≠ .FALLBACK) (tsconfigs : List String) :
    (impl.initializeWith tsconfigs origin).listing origin =
      if (impl.listing origin).2 = tsconfigs then impl.listing origin else (true, tsconfigs) := by
  simp only [initializeWith, horigin, false_and, if_false, ne_eq, not_false_eq_true, true_and]
  split_ifs with hequals hlisting hlisting
  · rfl
  · exact absurd hequals hlisting
  · exact absurd hlisting hequals
  · simp [listing, putCache_cacheMap, Cache.initializeOriginalTsConfigs, Cache.clearFileToTsConfigCache]

theorem listing_initializeWith_FALLBACK (tsconfigs : List String) :
    (impl.initializeWith tsconfigs .FALLBACK).listing .FALLBACK =
      if (impl.listing .FALLBACK).1 then impl.listing .FALLBACK else (true, tsconfigs) := by
  simp only [initializeWith, true_and, ne_eq, not_true_eq_false, false_and, if_false]
  split_ifs with hinitialized hlisting hlisting
  · rfl
  · exact absurd hinitialized hlisting
  · exact absurd hlisting hinitialized
  · simp [listing, putCache_cacheMap, Cache.initializeOriginalTsConfigs, Cache.clearFileToTsConfigCache]

theorem projectSize_initializeWith (tsconfigs : List String) :
    (impl.initializeWith tsconfigs origin).projectSize = impl.projectSize := by
  simp only [initializeWith]
  split_ifs <;> rfl

theorem listing_process_lookup (event : ModuleFileEvent) : (impl.process event).listing .LOOKUP =
    if isTsConfig event.target then (false, []) else impl.listing .LOOKUP := by
  simp only [process]
  by_cases htsConfig : isTsConfig event.target = true
  · rw [if_pos htsConfig, if_pos htsConfig]
    split_ifs <;> rfl
  · rw [if_neg htsConfig, if_neg htsConfig]
    split_ifs <;> rfl

theorem listing_process_fallback (event : ModuleFileEvent) :
    (impl.process event).listing .FALLBACK = impl.listing .FALLBACK := by
  simp only [process]
  split_ifs <;> rfl

end TsConfigCacheImpl

/-- A query keeps the list. -/
theorem search_listing {host : Host} {inputFilePath : String} {fuel : ℕ} {cache : Cache} {answer : Answer}
    (h : Cache.search host inputFilePath fuel cache = some answer) :
    answer.cache.initialized = cache.initialized ∧
      answer.cache.originalTsConfigFiles = cache.originalTsConfigFiles := by
  induction fuel generalizing cache answer with
  | zero => cases h
  | succ fuel ih =>
    rcases hpending : cache.pendingTsConfigFiles with _ | ⟨tsConfigPath, rest⟩
    · rw [Cache.search_of_nil hpending] at h
      obtain rfl := Option.some.inj h
      exact ⟨rfl, rfl⟩
    · have hinitialized := @Cache.visit_initialized host tsConfigPath rest cache
      have horiginal := @Cache.visit_originalTsConfigFiles host tsConfigPath rest cache
      match hfile : (cache.visit host tsConfigPath rest).inputFileToTsConfigFilesMap inputFilePath with
      | some (some found) =>
        rw [Cache.search_of_found hpending hfile] at h
        obtain rfl := Option.some.inj h
        exact ⟨hinitialized, horiginal⟩
      | some none =>
        rw [Cache.search_of_null hpending hfile] at h
        obtain rfl := Option.some.inj h
        exact ⟨hinitialized, horiginal⟩
      | none =>
        rw [Cache.search_of_none hpending hfile, Option.map_eq_some_iff] at h
        obtain ⟨answer', hanswer, rfl⟩ := h
        obtain ⟨hinitialized', horiginal'⟩ := ih hanswer
        exact ⟨hinitialized'.trans hinitialized, horiginal'.trans horiginal⟩

theorem getTsConfigForInputFile_listing {host : Host} {inputFile : InputFile} {fuel : ℕ} {cache : Cache}
    {answer : Answer} (h : cache.getTsConfigForInputFile host inputFile fuel = some answer) :
    answer.cache.initialized = cache.initialized ∧
      answer.cache.originalTsConfigFiles = cache.originalTsConfigFiles := by
  unfold Cache.getTsConfigForInputFile at h
  split at h
  · obtain rfl := Option.some.inj h
    exact ⟨rfl, rfl⟩
  · split at h
    · obtain rfl := Option.some.inj h
      exact ⟨rfl, rfl⟩
    · split at h
      · obtain rfl := Option.some.inj h
        exact ⟨rfl, rfl⟩
      · obtain ⟨hinitialized, horiginal⟩ := search_listing h
        exact ⟨hinitialized, horiginal⟩

theorem query_listing {host : Host} {inputFile : InputFile} {fuel : ℕ} {impl impl' : TsConfigCacheImpl}
    {result : Except JavaException (Option TsConfigFile)} {loaded : List String}
    (h : impl.getTsConfigForInputFile host inputFile fuel = some (result, loaded, impl')) (origin : TsConfigOrigin) :
    impl'.listing origin = impl.listing origin := by
  rw [TsConfigCacheImpl.getTsConfigForInputFile] at h
  cases horigin : impl.origin with
  | none =>
    rw [horigin] at h
    obtain ⟨-, -, rfl⟩ := by simpa using h
    rfl
  | some current =>
    rw [horigin, Option.map_eq_some_iff] at h
    obtain ⟨answer, hanswer, heq⟩ := h
    obtain ⟨-, -, rfl⟩ := by simpa using heq
    have hsame := getTsConfigForInputFile_listing hanswer
    simp only [TsConfigCacheImpl.listing, putCache_cacheMap]
    split_ifs with hcurrent
    · rw [hcurrent, hsame.1, hsame.2]
    · rfl

/-! ### One analysis -/

namespace TsConfigProvider

/-- A provider has answered. -/
def filled (workspace : Workspace) (tsconfigs : List String) (type : TsConfigOrigin) : Workspace :=
  { workspace with impl := workspace.impl.initializeWith tsconfigs type }

/-- It has answered with some tsconfigs. -/
def chosen (workspace : Workspace) (tsconfigs : List String) (type : TsConfigOrigin) : Workspace :=
  { workspace with impl := (workspace.impl.initializeWith tsconfigs type).setOrigin type }

variable {context : SensorContext} {creator : TsConfigFileCreator} {fuel : ℕ} {workspace workspace' : Workspace}
  {result : Except JavaException (List String)} {found : List String} {provider : Provider} {providers : List Provider}

theorem tsconfigs_nil : tsconfigs true [] workspace = some (.ok [], workspace) := rfl

theorem tsconfigs_cons_error {e : JavaException} (h : provider.tsconfigs workspace = some (.error e, workspace')) :
    tsconfigs true (provider :: providers) workspace = some (.error e, workspace') := by
  rw [tsconfigs, h]

theorem tsconfigs_cons_empty (h : provider.tsconfigs workspace = some (.ok [], workspace')) :
    tsconfigs true (provider :: providers) workspace =
      tsconfigs true providers (filled workspace' [] provider.type) := by
  rw [tsconfigs, h]
  rfl

theorem tsconfigs_cons_found (h : provider.tsconfigs workspace = some (.ok found, workspace')) (hfound : found ≠ []) :
    tsconfigs true (provider :: providers) workspace = some (.ok found, chosen workspace' found provider.type) := by
  rw [tsconfigs, h]
  simp only [if_pos hfound]
  rfl

/-- What the second provider returns, and the cache it leaves. -/
def Looked (context : SensorContext) (impl : TsConfigCacheImpl) (found : List String) (impl' : TsConfigCacheImpl) :
    Prop :=
  impl.listing .LOOKUP = (true, found) ∧ impl' = impl ∨
    (impl.listing .LOOKUP).1 = false ∧ ∃ fileCount, Walks context found fileCount ∧ impl' = impl.setProjectSize fileCount

theorem lookup_provider {looked : Except JavaException (List String) × Workspace}
    (h : (LookupTsConfigProvider.provider context true fuel).tsconfigs workspace = some looked) :
    ∃ found impl, looked = (.ok found, { workspace with impl := impl }) ∧ Looked context workspace.impl found impl := by
  simp only [LookupTsConfigProvider.provider, if_true, TsConfigCacheImpl.listCachedTsConfigs] at h
  cases hinitialized : (workspace.impl.cacheMap .LOOKUP).initialized with
  | true =>
    rw [hinitialized] at h
    obtain rfl := Option.some.inj h
    exact ⟨_, _, rfl, .inl ⟨by simp [TsConfigCacheImpl.listing, hinitialized], rfl⟩⟩
  | false =>
    rw [hinitialized] at h
    simp only [Bool.false_eq_true, if_false] at h
    obtain ⟨⟨found, fileCount⟩, hlookup, rfl⟩ := Option.map_eq_some_iff.mp h
    exact ⟨found, _, rfl, .inr ⟨hinitialized, fileCount, ⟨fuel, hlookup⟩, rfl⟩⟩

/-- What the third provider returns. It keeps the cache. -/
theorem wildcard_provider : ∃ result wildcards,
    (WildcardTsConfigProvider.provider context creator).tsconfigs workspace =
      some (result, ⟨workspace.impl, wildcards⟩) ∧
      ∀ tsconfigs, result = .ok tsconfigs → tsconfigs ≠ [] → context.product = .SONARLINT ∧
        workspace.impl.projectSize < WildcardTsConfigProvider.getTypeCheckingLimit context ∧
        wildcards context.baseDir = some tsconfigs := by
  simp only [WildcardTsConfigProvider.provider, generated]
  split_ifs with hproduct
  · exact ⟨_, _, rfl, fun tsconfigs heq hne => absurd (Except.ok.inj heq).symm hne⟩
  · simp only [WildcardTsConfigProvider.getDefaultTsConfigs]
    split_ifs with hlimit
    · exact ⟨_, _, rfl, fun tsconfigs heq hne => absurd (Except.ok.inj heq).symm hne⟩
    · have hproject : context.product = .SONARLINT ∧
          workspace.impl.projectSize < WildcardTsConfigProvider.getTypeCheckingLimit context :=
        ⟨not_not.mp hproduct, by simpa [WildcardTsConfigProvider.isBeyondLimit] using hlimit⟩
      cases hcached : workspace.defaultWildcardTsConfig context.baseDir with
      | some cached =>
        refine ⟨_, _, rfl, fun tsconfigs heq _ => ?_⟩
        obtain rfl := Except.ok.inj heq
        exact ⟨hproject.1, hproject.2, hcached⟩
      | none =>
        cases hwritten : WildcardTsConfigProvider.writeTsConfigFileFor creator context.baseDir with
        | error e =>
          refine ⟨_, _, rfl, fun tsconfigs heq _ => ?_⟩
          cases heq
        | ok written =>
          refine ⟨_, _, rfl, fun tsconfigs heq _ => ?_⟩
          obtain rfl := Except.ok.inj heq
          exact ⟨hproject.1, hproject.2, Function.update_self ..⟩

theorem initialize_cases (h : initializeTsConfigCache context creator fuel workspace = some (result, workspace')) :
    let property := PropertyTsConfigProvider.tsconfigs context
    (property ≠ [] ∧ result = .ok property ∧ workspace' = chosen workspace property .PROPERTY) ∨
    property = [] ∧ ∃ found impl, Looked context (filled workspace [] .PROPERTY).impl found impl ∧
      ((found ≠ [] ∧ result = .ok found ∧ workspace' = chosen { workspace with impl := impl } found .LOOKUP) ∨
      (found = [] ∧ ∃ wildcards, (∀ tsconfigs, result = .ok tsconfigs → tsconfigs ≠ [] →
          context.product = .SONARLINT ∧
            impl.projectSize < WildcardTsConfigProvider.getTypeCheckingLimit context ∧
            wildcards context.baseDir = some tsconfigs) ∧
        workspace' = match result with
          | .error _ => ⟨impl.initializeWith [] .LOOKUP, wildcards⟩
          | .ok [] => filled ⟨impl.initializeWith [] .LOOKUP, wildcards⟩ [] .FALLBACK
          | .ok tsconfigs => chosen ⟨impl.initializeWith [] .LOOKUP, wildcards⟩ tsconfigs .FALLBACK)) := by
  intro property
  by_cases hproperty : property ≠ []
  · rw [initializeTsConfigCache, tsconfigs_cons_found rfl hproperty] at h
    obtain ⟨rfl, rfl⟩ := Prod.mk.inj (Option.some.inj h)
    exact .inl ⟨hproperty, rfl, rfl⟩
  · rw [not_not] at hproperty
    have hfirst : (PropertyTsConfigProvider.provider context).tsconfigs workspace = some (.ok [], workspace) := by
      rw [← hproperty]
      rfl
    rw [initializeTsConfigCache, tsconfigs_cons_empty hfirst] at h
    change tsconfigs true _ (filled workspace [] .PROPERTY) = _ at h
    refine .inr ⟨hproperty, ?_⟩
    cases hlooked : (LookupTsConfigProvider.provider context true fuel).tsconfigs (filled workspace [] .PROPERTY) with
    | none =>
      rw [tsconfigs, hlooked] at h
      cases h
    | some looked =>
      obtain ⟨found, impl, rfl, hfound⟩ := lookup_provider hlooked
      refine ⟨found, impl, hfound, ?_⟩
      by_cases hempty : found ≠ []
      · rw [tsconfigs_cons_found hlooked hempty] at h
        obtain ⟨rfl, rfl⟩ := Prod.mk.inj (Option.some.inj h)
        exact .inl ⟨hempty, rfl, rfl⟩
      · rw [not_not] at hempty
        subst hempty
        rw [tsconfigs_cons_empty hlooked] at h
        change tsconfigs true _ (filled { workspace with impl := impl } [] .LOOKUP) = _ at h
        obtain ⟨generated, wildcards, hgenerated, hspec⟩ :=
          @wildcard_provider context creator (filled { workspace with impl := impl } [] .LOOKUP)
        refine .inr ⟨rfl, wildcards, ?_⟩
        cases generated with
        | error e =>
          rw [tsconfigs_cons_error hgenerated] at h
          obtain ⟨rfl, rfl⟩ := Prod.mk.inj (Option.some.inj h)
          refine ⟨fun _ heq => ?_, rfl⟩
          cases heq
        | ok tsconfigs =>
          cases tsconfigs with
          | nil =>
            rw [tsconfigs_cons_empty hgenerated, tsconfigs_nil] at h
            obtain ⟨rfl, rfl⟩ := Prod.mk.inj (Option.some.inj h)
            exact ⟨fun _ heq hne => absurd (Except.ok.inj heq).symm hne, rfl⟩
          | cons tsconfig tsconfigs =>
            rw [tsconfigs_cons_found hgenerated (List.cons_ne_nil _ _)] at h
            obtain ⟨rfl, rfl⟩ := Prod.mk.inj (Option.some.inj h)
            refine ⟨fun tsconfigs heq hne => ?_, rfl⟩
            have hsize := hspec tsconfigs heq hne
            rwa [filled, TsConfigCacheImpl.projectSize_initializeWith] at hsize

end TsConfigProvider

/-! ### Runs -/

variable {context : SensorContext} {project project' last : Project} {event : ProjectEvent}
  {trace : List (Project × ProjectEvent)} {creator : TsConfigFileCreator} {fuel : ℕ} {workspace' : Workspace}

theorem Walks.unique {found found' : List String} {fileCount fileCount' : ℕ} (h : Walks context found fileCount)
    (h' : Walks context found' fileCount') : found = found' ∧ fileCount = fileCount' := by
  obtain ⟨fuel, hlookup⟩ := h
  obtain ⟨fuel', hlookup'⟩ := h'
  exact Prod.mk.inj (LookupTsConfigProvider.lookup_unique hlookup hlookup')

/-- The list of the walk, where there is one, is what the walk finds now. -/
structure Fresh (project : Project) : Prop where
  found : (project.workspace.impl.listing .LOOKUP).1 = true →
    (project.workspace.impl.listing .LOOKUP).2 ≠ [] ∧ Finds project.context (project.workspace.impl.listing .LOOKUP).2
  uninitialized : (project.workspace.impl.listing .LOOKUP).1 = false →
    (project.workspace.impl.listing .LOOKUP).2 = []

theorem Fresh.of_listing (h : Fresh project) (hcontext : project'.context = project.context)
    (hlisting : project'.workspace.impl.listing .LOOKUP = project.workspace.impl.listing .LOOKUP) :
    Fresh project' := by
  refine ⟨?_, ?_⟩
  · rw [hlisting, hcontext]
    exact h.found
  · rw [hlisting]
    exact h.uninitialized

theorem looked_listing {workspace : Workspace} {impl' : TsConfigCacheImpl} {found : List String}
    (hfresh : Fresh ⟨workspace, context⟩) (hlooked : TsConfigProvider.Looked context workspace.impl found impl') :
    Finds context found ∧ (impl'.initializeWith found .LOOKUP).listing .LOOKUP = (decide (found ≠ []), found) := by
  rw [TsConfigCacheImpl.listing_initializeWith _ (by decide)]
  obtain ⟨hlisting, rfl⟩ | ⟨huninitialized, fileCount, hwalks, rfl⟩ := hlooked
  · obtain ⟨hne, hfinds⟩ := hfresh.found (congrArg Prod.fst hlisting)
    simp only [hlisting] at hne hfinds
    simp [hlisting, hne, hfinds]
  · have hempty := hfresh.uninitialized huninitialized
    simp only at huninitialized hempty
    refine ⟨⟨fileCount, hwalks⟩, ?_⟩
    rw [TsConfigCacheImpl.listing_setProjectSize, hempty]
    split_ifs with hfound
    · rw [← hfound]
      exact Prod.ext huninitialized hempty
    · simp [Ne.symm hfound]

theorem listing_process_events (events : List ModuleFileEvent) (impl : TsConfigCacheImpl) :
    (events.foldl (fun impl event => impl.process event) impl).listing .LOOKUP =
      if ∃ event ∈ events, TsConfigCacheImpl.isTsConfig event.target = true then (false, [])
      else impl.listing .LOOKUP := by
  induction events generalizing impl with
  | nil => simp
  | cons event events ih =>
    rw [List.foldl_cons, ih, TsConfigCacheImpl.listing_process_lookup]
    by_cases htsConfig : TsConfigCacheImpl.isTsConfig event.target = true
    · simp [htsConfig]
    · simp [htsConfig]

theorem Fresh.step (h : Fresh project) (hstep : ProjectStep project event project') (hannounced : Announced project event) :
    Fresh project' := by
  cases hstep with
  | query hquery => exact h.of_listing rfl (query_listing hquery _)
  | getAndResetShouldClearDependenciesCache => exact h.of_listing rfl rfl
  | change context events =>
    have hlisting := listing_process_events events project.workspace.impl
    by_cases htsConfig : ∃ event ∈ events, TsConfigCacheImpl.isTsConfig event.target = true
    · rw [if_pos htsConfig] at hlisting
      refine ⟨?_, ?_⟩ <;> simp [hlisting]
    · rw [if_neg htsConfig] at hlisting
      have hsame := hannounced.resolve_right htsConfig
      refine ⟨fun hinitialized => ?_, fun huninitialized => ?_⟩
      · simp only [hlisting] at hinitialized ⊢
        obtain ⟨hne, hfinds⟩ := h.found hinitialized
        exact ⟨hne, (hsame _).mp hfinds⟩
      · simp only [hlisting] at huninitialized ⊢
        exact h.uninitialized huninitialized
  | @analyzeFiles _ _ _ workspace' hstarted =>
    have hfilled : ∀ property, Fresh ⟨TsConfigProvider.filled project.workspace property .PROPERTY, project.context⟩ :=
      fun property => h.of_listing rfl (TsConfigCacheImpl.listing_initializeWith_of_ne _ _ _ (by decide))
    obtain ⟨_, _, rfl⟩ | ⟨_, found, impl, hlooked, hrest⟩ := TsConfigProvider.initialize_cases hstarted
    · exact (hfilled _).of_listing rfl rfl
    · obtain ⟨hfinds, hlisting⟩ := looked_listing (hfilled []) hlooked
      obtain ⟨hfound, _, rfl⟩ | ⟨rfl, wildcards, _, hworkspace⟩ := hrest
      · refine ⟨?_, ?_⟩ <;> simp [TsConfigProvider.chosen, hlisting, hfound, hfinds]
      · have hempty : workspace'.impl.listing .LOOKUP = (false, []) := by
          rw [hworkspace]
          split
          · exact hlisting
          · exact (TsConfigCacheImpl.listing_initializeWith_of_ne _ _ _ (by decide)).trans hlisting
          · exact (TsConfigCacheImpl.listing_initializeWith_of_ne _ _ _ (by decide)).trans hlisting
        refine ⟨?_, ?_⟩ <;> simp [hempty]

theorem Fresh.run (hrun : Run ProjectStep project trace last) (h : Fresh project)
    (hannounced : ∀ step ∈ trace, Announced step.1 step.2) : Fresh last :=
  (hrun.throughout_of_forall h (fun _ _ _ => Fresh.step) hannounced).2

theorem looked_fallback {impl impl' : TsConfigCacheImpl} {found : List String}
    (h : TsConfigProvider.Looked context impl found impl') : impl'.listing .FALLBACK = impl.listing .FALLBACK := by
  obtain ⟨-, rfl⟩ | ⟨-, fileCount, -, rfl⟩ := h
  · rfl
  · rfl

/-- The bridge cannot create files. -/
def noFiles : TsConfigFileCreator := fun _ => .error (.io "disk full")

theorem listing_initializeWith_fallback {impl : TsConfigCacheImpl} (h : (impl.listing .FALLBACK).1 = true)
    (tsconfigs : List String) (origin : TsConfigOrigin) :
    (impl.initializeWith tsconfigs origin).listing .FALLBACK = impl.listing .FALLBACK := by
  by_cases horigin : origin = .FALLBACK
  · subst horigin
    rw [TsConfigCacheImpl.listing_initializeWith_FALLBACK, if_pos h]
  · exact TsConfigCacheImpl.listing_initializeWith_of_ne _ _ _ (Ne.symm horigin)

theorem fallback_step (h : (project.workspace.impl.listing .FALLBACK).1 = true)
    (hstep : ProjectStep project event project') :
    project'.workspace.impl.listing .FALLBACK = project.workspace.impl.listing .FALLBACK := by
  cases hstep with
  | query hquery => exact query_listing hquery _
  | getAndResetShouldClearDependenciesCache => rfl
  | change context events =>
    show (events.foldl (fun impl event => impl.process event) project.workspace.impl).listing .FALLBACK = _
    clear h
    generalize project.workspace.impl = impl
    induction events generalizing impl with
    | nil => rfl
    | cons event events ih => exact (ih _).trans (TsConfigCacheImpl.listing_process_fallback _ _)
  | @analyzeFiles _ _ _ workspace' hstarted =>
    have hfirst := listing_initializeWith_fallback h
    obtain ⟨_, _, rfl⟩ | ⟨_, found, impl, hlooked, hrest⟩ := TsConfigProvider.initialize_cases hstarted
    · exact hfirst _ _
    · have hsecond : impl.listing .FALLBACK = project.workspace.impl.listing .FALLBACK :=
        (looked_fallback hlooked).trans (hfirst [] .PROPERTY)
      have hthird : ∀ tsconfigs origin, (impl.initializeWith tsconfigs origin).listing .FALLBACK =
          project.workspace.impl.listing .FALLBACK :=
        fun tsconfigs origin => (listing_initializeWith_fallback (hsecond ▸ h) tsconfigs origin).trans hsecond
      obtain ⟨_, _, rfl⟩ | ⟨rfl, wildcards, _, hworkspace⟩ := hrest
      · exact hthird _ _
      · have hlast : ∀ tsconfigs, ((impl.initializeWith [] .LOOKUP).initializeWith tsconfigs .FALLBACK).listing
            .FALLBACK = project.workspace.impl.listing .FALLBACK := fun tsconfigs =>
          (listing_initializeWith_fallback (hthird [] .LOOKUP ▸ h) tsconfigs .FALLBACK).trans (hthird [] .LOOKUP)
        show workspace'.impl.listing .FALLBACK = _
        rw [hworkspace]
        split
        · exact hthird [] .LOOKUP
        · exact hlast _
        · exact hlast _

theorem fallback_kept (hrun : Run ProjectStep project trace last)
    (h : (project.workspace.impl.listing .FALLBACK).1 = true) :
    last.workspace.impl.listing .FALLBACK = project.workspace.impl.listing .FALLBACK := by
  induction hrun with
  | nil => rfl
  | cons hstep _ ih =>
    have hsame := fallback_step h hstep
    exact (ih (hsame ▸ h)).trans hsame

/-- Type checking has been turned off. -/
def tooLarge : Project where
  workspace := ⟨TsConfigCacheImpl.create.initializeWith [] .FALLBACK, fun _ => none⟩
  context := LookupTsConfigProvider.twoConfigs

def tsConfigAdded : ModuleFileEvent := ⟨⟨"/p/src/tsconfig.json", "tsconfig.json", false, false⟩, .CREATED⟩

def withAddedTsConfig : Project :=
  ⟨{ tooLarge.workspace with impl := tooLarge.workspace.impl.process tsConfigAdded }, tooLarge.context⟩

/-- A tsconfig is added, and the next analysis finds it. -/
theorem fallback_tooLarge : ∃ last, Run ProjectStep tooLarge
      [(tooLarge, .change tooLarge.context [tsConfigAdded]), (withAddedTsConfig, .analyzeFiles)] last ∧
    last.workspace.impl.listing .FALLBACK = (true, []) := by
  obtain ⟨workspace', hstarted⟩ : ∃ workspace', TsConfigProvider.initializeTsConfigCache withAddedTsConfig.context
      noFiles 2 withAddedTsConfig.workspace = some (.ok ["/p/tsconfig.json", "/p/src/tsconfig.json"], workspace') :=
    ⟨_, rfl⟩
  have hrun : Run ProjectStep tooLarge
      [(tooLarge, .change tooLarge.context [tsConfigAdded]), (withAddedTsConfig, .analyzeFiles)]
      { withAddedTsConfig with workspace := workspace' } :=
    .cons (.change _ [tsConfigAdded]) (.cons (.analyzeFiles hstarted) (.nil _))
  exact ⟨_, hrun, fallback_kept hrun rfl⟩

end SonarJavascript.SonarLint
