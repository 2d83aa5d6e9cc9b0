import SonarJavascript.Cache.CacheKey
import SonarJavascript.Cache.Corrupted
import SonarJavascript.Cache.Sequence

/-!
# Cache strategies

`CacheStrategies`, `CacheAnalysisSerialization` and what they serialize, and the analysis of a file in
`AbstractAnalysis`. The result of a step comes with the state that it leaves, also when it is an exception.

JSON and the digest are those of their libraries. A write to the next cache may fail.
-/

namespace SonarJavascript.Cache

open ListResults

/-! ### What the plugin runs on -/

/-- The JSON of a class. `fromJson` has no value on a `JsonParseException`, and may have the value null. -/
structure Gson (P : Type) where
  toJson : P → Bytes
  fromJson : Bytes → Option (Option P)

namespace Gson

/-- A library that knows the JSON of these values, and the texts that have the value null. -/
def known {P : Type} (toJson : P → Bytes) (values : List P) : Gson P where
  toJson := toJson
  fromJson bytes :=
    if bytes = [] ∨ bytes = getBytes "null" then some none
    else (values.find? fun value => toJson value = bytes).map some

end Gson

structure InputFile where
  key : String
  contents : String
  /-- `getBytes` with the charset of the file. -/
  encode : String → Bytes

structure FileMetadata where
  size : ℤ
  hash : Option Bytes
  deriving DecidableEq, Repr

/-- The JSON of the metadata. -/
def metadataJson (fileMetadata : FileMetadata) : Bytes :=
  let hash := match fileMetadata.hash with
    | some bytes => ",\"hash\":[" ++ ",".intercalate (bytes.map fun b => toString b.toInt8.toInt) ++ "]"
    | none => ""
  getBytes ("\x7b\"size\":" ++ toString fileMetadata.size ++ hash ++ "\x7d")

/-- The JSON of a manifest whose names have nothing to escape. -/
def manifestJson (manifest : FilesManifest) : Bytes :=
  let fileSize (entry : Option FileSize) : String :=
    match entry with
    | none => "null"
    | some ⟨some name, size⟩ => "\x7b\"name\":\"" ++ name ++ "\",\"size\":" ++ toString size ++ "\x7d"
    | some ⟨none, size⟩ => "\x7b\"size\":" ++ toString size ++ "\x7d"
  match manifest.fileSizes with
  | none => getBytes "\x7b\x7d"
  | some fileSizes =>
    getBytes ("\x7b\"fileSizes\":[" ++ ",".intercalate (fileSizes.map fileSize) ++ "]\x7d")

structure Platform where
  vm : Jvm
  /-- SHA-256 -/
  digest : Bytes → Bytes
  metadataGson : Gson FileMetadata
  manifestGson : Gson FilesManifest

inductive SonarProduct
  | SONARLINT | SONARQUBE
  deriving DecidableEq, Repr

/-- What stays the same while the files are analyzed. -/
structure SensorContext where
  /-- Major and minor version. -/
  apiVersion : ℕ × ℕ
  product : SonarProduct
  canSkipUnchangedFiles : Bool
  previousCache : String → Option InputStream
  workDir : Path
  ucfgPluginVersion : Option String

/-! ### Next cache -/

structure WriteCache where
  entries : String → Option Bytes
  /-- How many writes still succeed, if one fails. -/
  remaining : Option ℕ

namespace WriteCache

/-- A key is written at most once. -/
def write (key : String) (bytes : Bytes) (cache : WriteCache) : Except JavaException Unit × WriteCache :=
  if cache.remaining = some 0 then (.error .illegalState, cache)
  else if (cache.entries key).isSome then (.error .illegalArgument, cache)
  else
    (.ok (), { entries := fun other => if other = key then some bytes else cache.entries other
               remaining := cache.remaining.map (· - 1) })

def copyFromPrevious (previous : String → Option InputStream) (key : String) (cache : WriteCache) :
    Except JavaException Unit × WriteCache :=
  match previous key with
  | none => (.error .illegalArgument, cache)
  | some input => cache.write key input.content

end WriteCache

structure AnalysisState where
  nextCache : WriteCache
  fs : FileSystem

def andThen {α β σ : Type} (result : Except JavaException α × σ)
    (k : α → σ → Except JavaException β × σ) : Except JavaException β × σ :=
  match result with
  | (.ok a, state) => k a state
  | (.error e, state) => (.error e, state)

/-! ### File metadata -/

namespace FileMetadata

def bytesOf (file : InputFile) : Bytes :=
  file.encode file.contents

def «from» (p : Platform) (file : InputFile) : FileMetadata :=
  ⟨(bytesOf file).length, some (p.digest (bytesOf file))⟩

def compareTo (p : Platform) (fileMetadata : FileMetadata) (file : InputFile) : Bool :=
  fileMetadata.size = (bytesOf file).length && fileMetadata.hash = some (p.digest (bytesOf file))

end FileMetadata

/-! ### Serialization of an analysis -/

namespace CacheAnalysisSerialization

variable (p : Platform) (context : SensorContext) (cacheKey : CacheKey)

/-- `getInputStream` -/
def read (key : String) : Except JavaException InputStream :=
  match context.previousCache key with
  | some input => .ok input
  | none => .error .illegalArgument

def readJson {P : Type} (gson : Gson P) (key : String) : Except JavaException (Option P) := do
  let input ← read context key
  match gson.fromJson input.content with
  | some value => return value
  | none => .error (.io "Failure when parsing cache entry JSON")

def isInCache : Bool :=
  (context.previousCache (cacheKey.jsonKey context.ucfgPluginVersion)).isSome &&
    (context.previousCache (cacheKey.seqKey context.ucfgPluginVersion)).isSome &&
    (context.previousCache cacheKey.dataKey).isSome &&
    (context.previousCache cacheKey.stringTableKey).isSome

/-- `Optional.of` rejects null. -/
def fileMetadata : Except JavaException (Option FileMetadata) :=
  if (context.previousCache cacheKey.metadataKey).isSome then do
    match ← readJson context p.metadataGson cacheKey.metadataKey with
    | some value => return some value
    | none => .error .nullPointer
  else .ok none

/-- `ucfgFileSerialization.readFromCache` -/
def readUcfgFiles (fs : FileSystem) : Except JavaException Unit × FileSystem :=
  match readJson context p.manifestGson (cacheKey.jsonKey context.ucfgPluginVersion) with
  | .error e => (.error e, fs)
  | .ok none =>
    (.error (.io s!"The manifest is null for key {(cacheKey.forUcfg context.ucfgPluginVersion).toString}"), fs)
  | .ok (some manifest) =>
    match read context (cacheKey.seqKey context.ucfgPluginVersion) with
    | .error e => (.error e, fs)
    | .ok input =>
      andThen (SequenceSerialization.readFromCache context.workDir (some manifest) input fs) fun _ fs =>
        (.ok (), fs)

/-- `cpdSerialization.readFromCache` -/
def readCpdData : Except JavaException CpdData := do
  let data ← read context cacheKey.dataKey
  let stringTable ← read context cacheKey.stringTableKey
  fromBinary p.vm data.content stringTable.content

def readFromCache (fs : FileSystem) : Except JavaException CpdData × FileSystem :=
  andThen (readUcfgFiles p context cacheKey fs) fun _ fs => (readCpdData p context cacheKey, fs)

def copyFromPrevious (cache : WriteCache) : Except JavaException Unit × WriteCache :=
  andThen (cache.copyFromPrevious context.previousCache (cacheKey.jsonKey context.ucfgPluginVersion))
    fun _ cache =>
  andThen (cache.copyFromPrevious context.previousCache (cacheKey.seqKey context.ucfgPluginVersion))
    fun _ cache =>
  andThen (cache.copyFromPrevious context.previousCache cacheKey.dataKey) fun _ cache =>
  cache.copyFromPrevious context.previousCache cacheKey.stringTableKey

/-- The entries are written one after the other, the metadata last. -/
def writeToCache (ucfgPaths : Option (List String)) (cpdTokens : CpdData) (file : InputFile)
    (state : AnalysisState) : Except JavaException Unit × WriteCache :=
  let cache := state.nextCache
  match SequenceSerialization.writeToCache context.workDir ucfgPaths state.fs with
  | .error e => (.error e, cache)
  | .ok (sequence, manifest) =>
    andThen (cache.write (cacheKey.seqKey context.ucfgPluginVersion) sequence) fun _ cache =>
    andThen (cache.write (cacheKey.jsonKey context.ucfgPluginVersion) (p.manifestGson.toJson manifest))
      fun _ cache =>
    match toBinary p.vm cpdTokens with
    | .error e => (.error e, cache)
    | .ok result =>
      andThen (cache.write cacheKey.dataKey result.data) fun _ cache =>
      andThen (cache.write cacheKey.stringTableKey result.stringTable) fun _ cache =>
      cache.write cacheKey.metadataKey (p.metadataGson.toJson (FileMetadata.from p file))

end CacheAnalysisSerialization

/-! ### Strategies -/

inductive StrategyName
  | NO_CACHE | READ_AND_WRITE | WRITE_ONLY
  deriving DecidableEq, Repr

inductive MissReason
  | RUNTIME_API_INCOMPATIBLE | CACHE_DISABLED | ANALYSIS_MODE_INELIGIBLE | FILE_CHANGED
  | FILE_NOT_IN_CACHE | CACHE_CORRUPTED
  deriving DecidableEq, Repr

structure CacheStrategy where
  name : StrategyName
  cacheAnalysis : Option CpdData
  serialization : Option CacheKey
  deriving DecidableEq, Repr

namespace CacheStrategy

def noCache : CacheStrategy :=
  ⟨.NO_CACHE, none, none⟩

def writeOnly (serialization : CacheKey) : CacheStrategy :=
  ⟨.WRITE_ONLY, none, some serialization⟩

def readAndWrite (cacheAnalysis : CpdData) (serialization : CacheKey) : CacheStrategy :=
  ⟨.READ_AND_WRITE, some cacheAnalysis, some serialization⟩

def isAnalysisRequired (strategy : CacheStrategy) : Bool :=
  strategy.cacheAnalysis.isNone

end CacheStrategy

/-- The strategy, and the reason that is reported with it. -/
structure Decision where
  strategy : CacheStrategy
  missReason : Option MissReason
  deriving DecidableEq, Repr

namespace CacheStrategies

open CacheStrategy

variable (p : Platform) (context : SensorContext)

def isRuntimeApiCompatible : Bool :=
  (9 < context.apiVersion.1 || (context.apiVersion.1 = 9 && 4 ≤ context.apiVersion.2)) &&
    context.product ≠ .SONARLINT

/-- An `IOException` is logged; the result is null. -/
def readFromCache (cacheKey : CacheKey) (state : AnalysisState) :
    Except JavaException (Option CpdData) × AnalysisState :=
  match CacheAnalysisSerialization.readFromCache p context cacheKey state.fs with
  | (.error (.io _), fs) => (.ok none, { state with fs := fs })
  | (.error e, fs) => (.error e, { state with fs := fs })
  | (.ok cacheAnalysis, fs) =>
    match CacheAnalysisSerialization.copyFromPrevious context cacheKey state.nextCache with
    | (.error e, cache) => (.error e, ⟨cache, fs⟩)
    | (.ok _, cache) => (.ok (some cacheAnalysis), ⟨cache, fs⟩)

def getStrategyFor (inputFile : InputFile) (pluginVersion : Option String) (state : AnalysisState) :
    Except JavaException Decision × AnalysisState :=
  if !isRuntimeApiCompatible context then (.ok ⟨noCache, some .RUNTIME_API_INCOMPATIBLE⟩, state)
  else
    let cacheKey := CacheKey.forFile inputFile.key pluginVersion
    if !context.canSkipUnchangedFiles then
      (.ok ⟨writeOnly cacheKey, some .ANALYSIS_MODE_INELIGIBLE⟩, state)
    else
      match CacheAnalysisSerialization.fileMetadata p context cacheKey with
      | .error e => (.error e, state)
      | .ok fileMetadata =>
        if !fileMetadata.any (·.compareTo p inputFile) then
          (.ok ⟨writeOnly cacheKey, some .FILE_CHANGED⟩, state)
        else if !CacheAnalysisSerialization.isInCache context cacheKey then
          (.ok ⟨writeOnly cacheKey, some .FILE_NOT_IN_CACHE⟩, state)
        else
          andThen (readFromCache p context cacheKey state) fun cacheAnalysis state =>
            match cacheAnalysis with
            | none => (.ok ⟨writeOnly cacheKey, some .CACHE_CORRUPTED⟩, state)
            | some cacheAnalysis => (.ok ⟨readAndWrite cacheAnalysis cacheKey, none⟩, state)

end CacheStrategies

/-! ### Analysis of a file -/

structure Response where
  ucfgPaths : Option (List String)
  cpdTokens : CpdData
  deriving DecidableEq, Repr

/-- A file to be analyzed, and what the analyzer does: it generates files and answers, or fails. -/
structure Request where
  file : InputFile
  analyze : FileSystem → Except JavaException Response × FileSystem

/-- `writeAnalysisToCache` -/
def writeAnalysisToCache (p : Platform) (context : SensorContext) (strategy : CacheStrategy)
    (response : Response) (file : InputFile) (state : AnalysisState) :
    Except JavaException Unit × AnalysisState :=
  match strategy.serialization with
  | none => (.ok (), state)
  | some cacheKey =>
    let (result, cache) := CacheAnalysisSerialization.writeToCache p context cacheKey response.ucfgPaths
      response.cpdTokens file state
    (result, { state with nextCache := cache })

def analyzeFile (p : Platform) (context : SensorContext) (pluginVersion : Option String) (request : Request)
    (state : AnalysisState) : Except JavaException Decision × AnalysisState :=
  andThen (CacheStrategies.getStrategyFor p context request.file pluginVersion state) fun decision state =>
    if decision.strategy.isAnalysisRequired then
      match request.analyze state.fs with
      | (.error e, fs) => (.error e, { state with fs := fs })
      | (.ok response, fs) =>
        andThen (writeAnalysisToCache p context decision.strategy response request.file { state with fs := fs })
          fun _ state => (.ok decision, state)
    else (.ok decision, state)

end SonarJavascript.Cache
