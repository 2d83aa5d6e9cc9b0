import SonarJavascript.Cache.VarLength
import SonarJavascript.Lib.Exploration

/-!
# Cache of tsconfigs

`TsConfigCacheImpl`. A query goes on with the search where the query before has left it, until it meets a
tsconfig with the file.
-/

namespace SonarJavascript.SonarLint

open SonarJavascript.Cache (JavaException)
open Exploration

structure TsConfigFile where
  filename : String
  files : List String
  projectReferences : List String
  deriving DecidableEq, Repr

structure InputFile where
  absolutePath : String
  filename : String
  isJavaScriptFile : Bool
  isTypeScriptFile : Bool

/-- What the cache relies on. -/
structure Host where
  loadTsConfig : String → TsConfigFile
  /-- `Path.of(path).getParent().toAbsolutePath().toString()` -/
  parentFolder : String → Except JavaException String

/-! ### The cache of an origin -/

/-- A file of the map can have the value null. -/
structure Cache where
  inputFileToTsConfigFilesMap : String → Option (Option TsConfigFile)
  discoveredTsConfigFiles : Finset String
  originalTsConfigFiles : List String
  pendingTsConfigFiles : List String
  initialized : Bool

/-- What a query returns, what it has asked the bridge for, and what it leaves. -/
structure Answer where
  result : Except JavaException (Option TsConfigFile)
  loaded : List String
  cache : Cache

namespace Cache

def create : Cache :=
  ⟨fun _ => none, ∅, [], [], false⟩

def clearFileToTsConfigCache (cache : Cache) : Cache :=
  { cache with
    inputFileToTsConfigFilesMap := fun _ => none
    discoveredTsConfigFiles := cache.originalTsConfigFiles.toFinset
    pendingTsConfigFiles := cache.originalTsConfigFiles }

def initializeOriginalTsConfigs (tsconfigs : List String) (cache : Cache) : Cache :=
  clearFileToTsConfigCache { cache with initialized := true, originalTsConfigFiles := tsconfigs }

def clearAll (cache : Cache) : Cache :=
  clearFileToTsConfigCache { cache with initialized := false, originalTsConfigFiles := [] }

/-- The tsconfigs in a folder above the file, and the others. -/
def splitByFolder (host : Host) (inputFile : InputFile) :
    List String → Except JavaException (List String × List String)
  | [] => .ok ([], [])
  | ts :: pendingTsConfigFiles => do
    let folder ← host.parentFolder ts
    let (newPendingTsConfigFiles, notMatching) ← splitByFolder host inputFile pendingTsConfigFiles
    if folder.toList.isPrefixOf inputFile.absolutePath.toList then
      return (ts :: newPendingTsConfigFiles, notMatching)
    else return (newPendingTsConfigFiles, ts :: notMatching)

def improvedPendingTsConfigOrder (host : Host) (inputFile : InputFile) (pendingTsConfigFiles : List String) :
    Except JavaException (List String) := do
  let (newPendingTsConfigFiles, notMatching) ← splitByFolder host inputFile pendingTsConfigFiles
  return newPendingTsConfigFiles ++ notMatching

/-- A file with the value null counts as absent. -/
def putIfAbsent (tsConfigFile : TsConfigFile) (map : String → Option (Option TsConfigFile)) (file : String) :
    String → Option (Option TsConfigFile) :=
  match map file with
  | some (some _) => map
  | _ => fun other => if other = file then some (some tsConfigFile) else map other

def addFiles (tsConfigFile : TsConfigFile) (cache : Cache) : Cache :=
  { cache with
    inputFileToTsConfigFilesMap :=
      tsConfigFile.files.foldl (putIfAbsent tsConfigFile) cache.inputFileToTsConfigFilesMap }

def addProjectReferences (tsConfigFile : TsConfigFile) (cache : Cache) : Cache :=
  tsConfigFile.projectReferences.foldl (fun cache refPath =>
    if refPath ∈ cache.discoveredTsConfigFiles then cache
    else
      { cache with
        discoveredTsConfigFiles := insert refPath cache.discoveredTsConfigFiles
        pendingTsConfigFiles := refPath :: cache.pendingTsConfigFiles }) cache

/-- The loop of `getTsConfigForInputFile`. There is no result when the fuel does not suffice. -/
def search (host : Host) (inputFilePath : String) : ℕ → Cache → Option Answer
  | 0, _ => none
  | fuel + 1, cache =>
    match cache.pendingTsConfigFiles with
    | [] =>
      some ⟨.ok none, [], { cache with
        inputFileToTsConfigFilesMap := fun other =>
          if other = inputFilePath then some none else cache.inputFileToTsConfigFilesMap other }⟩
    | tsConfigPath :: rest =>
      let tsConfigFile := host.loadTsConfig tsConfigPath
      let cache := addProjectReferences tsConfigFile
        (addFiles tsConfigFile { cache with pendingTsConfigFiles := rest })
      match cache.inputFileToTsConfigFilesMap inputFilePath with
      | some (some foundTsConfigFile) => some ⟨.ok (some foundTsConfigFile), [tsConfigPath], cache⟩
      -- the message names the tsconfig that has been found
      | some none => some ⟨.error .nullPointer, [tsConfigPath], cache⟩
      | none =>
        (search host inputFilePath fuel cache).map fun answer =>
          { answer with loaded := tsConfigPath :: answer.loaded }

def getTsConfigForInputFile (host : Host) (inputFile : InputFile) (fuel : ℕ) (cache : Cache) : Option Answer :=
  if !cache.initialized then some ⟨.ok none, [], cache⟩
  else
    match cache.inputFileToTsConfigFilesMap inputFile.absolutePath with
    | some tsConfigFile => some ⟨.ok tsConfigFile, [], cache⟩
    | none =>
      match improvedPendingTsConfigOrder host inputFile cache.pendingTsConfigFiles with
      | .error e => some ⟨.error e, [], cache⟩
      | .ok pendingTsConfigFiles =>
        search host inputFile.absolutePath fuel { cache with pendingTsConfigFiles := pendingTsConfigFiles }

end Cache

/-! ### The caches of the three origins -/

inductive TsConfigOrigin
  | PROPERTY | LOOKUP | FALLBACK
  deriving DecidableEq, Repr

inductive EventType
  | CREATED | MODIFIED | DELETED
  deriving DecidableEq, Repr

structure ModuleFileEvent where
  target : InputFile
  type : EventType

structure TsConfigCacheImpl where
  origin : Option TsConfigOrigin
  projectSize : ℤ
  shouldClearDependenciesCache : Bool
  cacheMap : TsConfigOrigin → Cache

namespace TsConfigCacheImpl

def create : TsConfigCacheImpl :=
  ⟨none, 0, false, fun _ => .create⟩

def putCache (tsConfigOrigin : TsConfigOrigin) (cache : Cache) (impl : TsConfigCacheImpl) : TsConfigCacheImpl :=
  { impl with cacheMap := Function.update impl.cacheMap tsConfigOrigin cache }

/-- What the query has asked the bridge for comes with the result. -/
def getTsConfigForInputFile (host : Host) (inputFile : InputFile) (fuel : ℕ) (impl : TsConfigCacheImpl) :
    Option (Except JavaException (Option TsConfigFile) × List String × TsConfigCacheImpl) :=
  match impl.origin with
  | none => some (.ok none, [], impl)
  | some origin =>
    ((impl.cacheMap origin).getTsConfigForInputFile host inputFile fuel).map fun answer =>
      (answer.result, answer.loaded, impl.putCache origin answer.cache)

def listCachedTsConfigs (tsConfigOrigin : TsConfigOrigin) (impl : TsConfigCacheImpl) : Option (List String) :=
  if (impl.cacheMap tsConfigOrigin).initialized then
    some (impl.cacheMap tsConfigOrigin).originalTsConfigFiles
  else none

def setOrigin (tsConfigOrigin : TsConfigOrigin) (impl : TsConfigCacheImpl) : TsConfigCacheImpl :=
  { impl with origin := some tsConfigOrigin }

def getAndResetShouldClearDependenciesCache (impl : TsConfigCacheImpl) : Bool × TsConfigCacheImpl :=
  (impl.shouldClearDependenciesCache, { impl with shouldClearDependenciesCache := false })

def initializeWith (tsConfigPaths : List String) (tsConfigOrigin : TsConfigOrigin) (impl : TsConfigCacheImpl) :
    TsConfigCacheImpl :=
  let cache := impl.cacheMap tsConfigOrigin
  if tsConfigOrigin = .FALLBACK ∧ cache.initialized then impl
  else if tsConfigOrigin ≠ .FALLBACK ∧ cache.originalTsConfigFiles = tsConfigPaths then impl
  else impl.putCache tsConfigOrigin (cache.initializeOriginalTsConfigs tsConfigPaths)

/-- `filename.endsWith("json") && file.filename().contains("tsconfig")` -/
def isTsConfig (file : InputFile) : Bool :=
  "json".toList.isSuffixOf file.absolutePath.toList && decide ("tsconfig".toList <:+: file.filename.toList)

def process (event : ModuleFileEvent) (impl : TsConfigCacheImpl) : TsConfigCacheImpl :=
  let file := event.target
  if isTsConfig file then
    let impl := impl.putCache .LOOKUP (impl.cacheMap .LOOKUP).clearAll
    if file.absolutePath ∈ (impl.cacheMap .PROPERTY).discoveredTsConfigFiles then
      impl.putCache .PROPERTY (impl.cacheMap .PROPERTY).clearAll
    else impl
  else if "package.json".toList.isSuffixOf file.absolutePath.toList then
    { impl with shouldClearDependenciesCache := true }
  else if event.type = .CREATED && (file.isJavaScriptFile || file.isTypeScriptFile) then
    { impl with cacheMap := fun origin => (impl.cacheMap origin).clearFileToTsConfigCache }
  else impl

def setProjectSize (projectSize : ℤ) (impl : TsConfigCacheImpl) : TsConfigCacheImpl :=
  { impl with projectSize := projectSize }

end TsConfigCacheImpl

/-! ### Sessions -/

/-- A call, other than a query, that can change the caches. -/
inductive Operation
  | initializeWith (tsConfigPaths : List String) (tsConfigOrigin : TsConfigOrigin)
  | process (event : ModuleFileEvent)
  | setOrigin (tsConfigOrigin : TsConfigOrigin)
  | getAndResetShouldClearDependenciesCache
  | setProjectSize (projectSize : ℤ)

namespace Operation

def apply (impl : TsConfigCacheImpl) : Operation → TsConfigCacheImpl
  | initializeWith tsConfigPaths tsConfigOrigin => impl.initializeWith tsConfigPaths tsConfigOrigin
  | process event => impl.process event
  | setOrigin tsConfigOrigin => impl.setOrigin tsConfigOrigin
  | getAndResetShouldClearDependenciesCache => impl.getAndResetShouldClearDependenciesCache.2
  | setProjectSize projectSize => impl.setProjectSize projectSize

/-- The operation clears the cache of the origin. -/
def clears (impl : TsConfigCacheImpl) (origin : TsConfigOrigin) : Operation → Bool
  | initializeWith tsConfigPaths tsConfigOrigin =>
    origin = tsConfigOrigin &&
      if origin = .FALLBACK then !(impl.cacheMap origin).initialized
      else (impl.cacheMap origin).originalTsConfigFiles ≠ tsConfigPaths
  | process event =>
    if TsConfigCacheImpl.isTsConfig event.target then
      match origin with
      | .LOOKUP => true
      | .PROPERTY => event.target.absolutePath ∈ (impl.cacheMap .PROPERTY).discoveredTsConfigFiles
      | .FALLBACK => false
    else
      !"package.json".toList.isSuffixOf event.target.absolutePath.toList &&
        (event.type = .CREATED && (event.target.isJavaScriptFile || event.target.isTypeScriptFile))
  | _ => false

end Operation

/-- The caches, and what each has asked the bridge for since it has been cleared. -/
structure Session where
  impl : TsConfigCacheImpl
  loaded : TsConfigOrigin → List String

namespace Session

def start : Session :=
  ⟨.create, fun _ => []⟩

def apply (operation : Operation) (session : Session) : Session where
  impl := operation.apply session.impl
  loaded origin := if operation.clears session.impl origin then [] else session.loaded origin

/-- The session after a query. -/
def answered (impl : TsConfigCacheImpl) (loaded : List String) (session : Session) : Session where
  impl := impl
  loaded origin := if session.impl.origin = some origin then session.loaded origin ++ loaded else session.loaded origin

end Session

/-- The tsconfigs that a tsconfig refers to. -/
def references (host : Host) (tsConfigPath : String) : List String :=
  (host.loadTsConfig tsConfigPath).projectReferences

/-- The tsconfigs that can be reached all have a parent folder. -/
def HaveFolders (host : Host) (tsConfigPaths : List String) : Prop :=
  ∀ tsConfigPath, Reaches (references host) tsConfigPaths tsConfigPath →
    ∃ folder, host.parentFolder tsConfigPath = .ok folder

/-- The sessions that queries, lists of tsconfigs with a parent folder, and events lead to. -/
inductive Reachable (host : Host) : Session → Prop
  | start : Reachable host .start
  | operation {session : Session} (operation : Operation) : Reachable host session →
      (∀ tsConfigPaths origin, operation = .initializeWith tsConfigPaths origin → HaveFolders host tsConfigPaths) →
      Reachable host (session.apply operation)
  | query {session : Session} {inputFile : InputFile} {fuel : ℕ}
      {result : Except JavaException (Option TsConfigFile)} {loaded : List String} {impl : TsConfigCacheImpl} :
      Reachable host session →
      session.impl.getTsConfigForInputFile host inputFile fuel = some (result, loaded, impl) →
      Reachable host (session.answered impl loaded)

end SonarJavascript.SonarLint
