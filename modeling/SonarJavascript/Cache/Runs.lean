import SonarJavascript.Cache.NextCache

/-!
# Runs

A run analyzes its files one after the other with the cache that the run before has left. An invariant of
the next cache says that metadata are there only beside the tokens of the file that they are of.
-/

namespace SonarJavascript.Cache

/-- The analysis of a file. A write to the next cache can fail after a number of others. -/
structure Task where
  request : Request
  failsAfter : Option ℕ

abbrev Contents := String → Option Bytes

structure Run where
  apiVersion : ℕ × ℕ
  product : SonarProduct
  canSkipUnchangedFiles : Bool
  workDir : Path
  ucfgPluginVersion : Option String
  pluginVersion : Option String
  /-- How much the reads of the entry of a key return at most. -/
  sizes : String → List ℕ
  fs : FileSystem
  tasks : List Task

def Run.context (run : Run) (previous : Contents) : SensorContext where
  apiVersion := run.apiVersion
  product := run.product
  canSkipUnchangedFiles := run.canSkipUnchangedFiles
  previousCache key := (previous key).map (⟨·, run.sizes key⟩)
  workDir := run.workDir
  ucfgPluginVersion := run.ucfgPluginVersion

def Run.start (run : Run) : AnalysisState :=
  ⟨⟨fun _ => none, none⟩, run.fs⟩

section Runs

variable (p : Platform) (run : Run) (previous : Contents)

def Run.before (task : Task) (state : AnalysisState) : AnalysisState :=
  { state with nextCache := { state.nextCache with remaining := task.failsAfter } }

def runTask (task : Task) (state : AnalysisState) : Except JavaException Decision × AnalysisState :=
  analyzeFile p (run.context previous) run.pluginVersion task.request (Run.before task state)

/-- A file whose analysis fails does not keep the others from being analyzed. -/
def runTasks (tasks : List Task) (state : AnalysisState) : AnalysisState :=
  tasks.foldl (fun state task => (runTask p run previous task state).2) state

/-- The state in which a task is started, after those before it. -/
def stateAt (before : List Task) : AnalysisState :=
  runTasks p run previous before run.start

/-- What the run leaves to the next one. -/
def nextCache : Contents :=
  (stateAt p run previous run.tasks).nextCache.entries

def cacheAfter (runs : List Run) : Contents :=
  runs.foldl (fun previous run => nextCache p run previous) fun _ => none

/-- The task after these ones is the analysis of a file that is stored. -/
def StoredAfter (before : List Task) (task : Task) (response : Response) (sequence : Bytes)
    (manifest : FilesManifest) (result : SerializationResult) : Prop :=
  ∃ decision, (runTask p run previous task (stateAt p run previous before)).1 = .ok decision ∧
    Stores p (run.context previous) run.pluginVersion task.request
      (Run.before task (stateAt p run previous before))
      (runTask p run previous task (stateAt p run previous before)).2 decision response sequence manifest result

end Runs

section Steps

variable {p : Platform} {run : Run} {previous : Contents}

theorem stateAt_append (before : List Task) (task : Task) :
    stateAt p run previous (before ++ [task]) =
      (runTask p run previous task (stateAt p run previous before)).2 := by
  rw [stateAt, runTasks, List.foldl_append]
  rfl

/-- The key of the file in this run. -/
def Run.key (run : Run) (file : InputFile) : CacheKey :=
  .forFile file.key run.pluginVersion

theorem runTask_next (before : List Task) (task : Task) :
    (WriteCache.Extends (DataKey (run.context previous) (run.key task.request.file))
      (stateAt p run previous before).nextCache (stateAt p run previous (before ++ [task])).nextCache ∧
      ∀ decision, (runTask p run previous task (stateAt p run previous before)).1 = .ok decision →
        decision.strategy.name ≠ .WRITE_ONLY) ∨
    ∃ response sequence manifest result,
      StoredAfter p run previous before task response sequence manifest result := by
  rw [stateAt_append]
  rcases hrun : runTask p run previous task (stateAt p run previous before) with ⟨r, state'⟩
  rcases analyzeFile_next hrun with ⟨hextends, hname⟩ |
    ⟨decision, response, sequence, manifest, result, rfl, hstores⟩
  · exact .inl ⟨⟨hextends.kept, hextends.same⟩, hname⟩
  · refine .inr ⟨response, sequence, manifest, result, decision, ?_, ?_⟩
    · rw [hrun]
    · rw [hrun]
      exact hstores

/-- The entries of a file that has just been stored. -/
structure Present (p : Platform) (ucfgVersion : Option String) (cacheKey : CacheKey) (file : InputFile)
    (sequence : Bytes) (manifest : FilesManifest) (result : SerializationResult) (entries : Contents) :
    Prop where
  seq : entries (cacheKey.seqKey ucfgVersion) = some sequence
  json : entries (cacheKey.jsonKey ucfgVersion) = some (p.manifestGson.toJson manifest)
  data : entries cacheKey.dataKey = some result.data
  stringTable : entries cacheKey.stringTableKey = some result.stringTable
  metadata : entries cacheKey.metadataKey = some (p.metadataGson.toJson (FileMetadata.from p file))

theorem present_of_storedAfter {before : List Task} {task : Task} {response : Response} {sequence : Bytes}
    {manifest : FilesManifest} {result : SerializationResult}
    (h : StoredAfter p run previous before task response sequence manifest result) :
    Present p run.ucfgPluginVersion (run.key task.request.file) task.request.file sequence manifest result
      (stateAt p run previous (before ++ [task])).nextCache.entries := by
  obtain ⟨decision, -, hstores⟩ := h
  obtain ⟨state₁, fs, -, -, hwritten⟩ := hstores.written
  have hentry : ∀ kind bytes, (kind, bytes) ∈ [(CacheKey.EntryKind.seq, sequence),
      (.json, p.manifestGson.toJson manifest), (.data, result.data), (.stringTable, result.stringTable),
      (.metadata, p.metadataGson.toJson (FileMetadata.from p task.request.file))] →
      (stateAt p run previous (before ++ [task])).nextCache.entries
        ((run.key task.request.file).entryKey run.ucfgPluginVersion kind) = some bytes := by
    intro kind bytes hmem
    rw [stateAt_append, hwritten.entries]
    refine entries_storeEntries_of_mem ?_ hmem
    show [CacheKey.EntryKind.seq, .json, .data, .stringTable, .metadata].Nodup
    decide
  exact ⟨hentry .seq _ (by simp), hentry .json _ (by simp), hentry .data _ (by simp),
    hentry .stringTable _ (by simp), hentry .metadata _ (by simp)⟩

/-- The entries of another file stay as they are. -/
theorem entries_of_storedAfter {before : List Task} {task : Task} {response : Response} {sequence : Bytes}
    {manifest : FilesManifest} {result : SerializationResult}
    (h : StoredAfter p run previous before task response sequence manifest result) {fileKey : String}
    {version : Option String} (hsuffix : (CacheKey.forFile fileKey version).suffix ≠ (run.key task.request.file).suffix)
    (kind : CacheKey.EntryKind) :
    (stateAt p run previous (before ++ [task])).nextCache.entries
      ((CacheKey.forFile fileKey version).entryKey run.ucfgPluginVersion kind) =
        (stateAt p run previous before).nextCache.entries
          ((CacheKey.forFile fileKey version).entryKey run.ucfgPluginVersion kind) := by
  obtain ⟨decision, -, hstores⟩ := h
  obtain ⟨state₁, fs, -, -, hwritten⟩ := hstores.written
  rw [stateAt_append, hwritten.entries]
  exact entries_storeEntries_of_ne fun _ _ => CacheKey.entryKey_ne (.inr hsuffix)

/-! ### Metadata are beside their tokens -/

/-- The metadata under such a key, and the tokens under its other keys, are those of a file that has been
stored. -/
def Sound (p : Platform) (run : Run) (previous : Contents) (before : List Task) : Prop :=
  ∀ fileKey version bytes, (stateAt p run previous before).nextCache.entries
      (CacheKey.forFile fileKey version).metadataKey = some bytes →
    ∃ earlier task later response sequence manifest result, before = earlier ++ task :: later ∧
      StoredAfter p run previous earlier task response sequence manifest result ∧
      (run.key task.request.file).suffix = (CacheKey.forFile fileKey version).suffix ∧
      bytes = p.metadataGson.toJson (FileMetadata.from p task.request.file) ∧
      (stateAt p run previous before).nextCache.entries (CacheKey.forFile fileKey version).dataKey =
        some result.data ∧
      (stateAt p run previous before).nextCache.entries (CacheKey.forFile fileKey version).stringTableKey =
        some result.stringTable

theorem not_dataKey_metadataKey {context : SensorContext} {fileKey fileKey' : String}
    {version version' : Option String} :
    ¬ DataKey context (.forFile fileKey' version') (CacheKey.forFile fileKey version).metadataKey := by
  rintro ⟨kind, hkind, hkey⟩
  have hentry : (CacheKey.forFile fileKey version).entryKey context.ucfgPluginVersion .metadata =
      (CacheKey.forFile fileKey' version').entryKey context.ucfgPluginVersion kind := hkey
  exact hkind (CacheKey.entryKey_injective hentry).1.symm

theorem sound_append {before : List Task} {task : Task} (h : Sound p run previous before) :
    Sound p run previous (before ++ [task]) := by
  intro fileKey version bytes hmetadata
  rcases @runTask_next p run previous before task with ⟨hextends, -⟩ |
    ⟨response, sequence, manifest, result, hstored⟩
  · rw [hextends.same _ not_dataKey_metadataKey] at hmetadata
    obtain ⟨earlier, task', later, response, sequence, manifest, result, rfl, hstored, hsuffix, hbytes,
      hdata, htable⟩ := h fileKey version bytes hmetadata
    exact ⟨earlier, task', later ++ [task], response, sequence, manifest, result, by simp, hstored, hsuffix,
      hbytes, hextends.kept _ _ hdata, hextends.kept _ _ htable⟩
  by_cases hsuffix : (CacheKey.forFile fileKey version).suffix = (run.key task.request.file).suffix
  · have hpresent := present_of_storedAfter hstored
    have hkey := CacheKey.entryKey_of_suffix hsuffix run.ucfgPluginVersion
    refine ⟨before, task, [], response, sequence, manifest, result, rfl, hstored, hsuffix.symm, ?_, ?_, ?_⟩
    · have hmetadata' := (congrArg _ (hkey .metadata)).trans hpresent.metadata
      exact Option.some.inj (hmetadata.symm.trans hmetadata')
    · exact (congrArg _ (hkey .data)).trans hpresent.data
    · exact (congrArg _ (hkey .stringTable)).trans hpresent.stringTable
  · have hsame := entries_of_storedAfter hstored hsuffix
    obtain ⟨earlier, task', later, response, sequence, manifest, result, rfl, hstored', hsuffix', hbytes,
      hdata, htable⟩ := h fileKey version bytes ((hsame .metadata).symm.trans hmetadata)
    exact ⟨earlier, task', later ++ [task], response, sequence, manifest, result, by simp, hstored', hsuffix',
      hbytes, (hsame .data).trans hdata, (hsame .stringTable).trans htable⟩

theorem sound (before : List Task) : Sound p run previous before := by
  induction before using List.reverseRecOn with
  | nil => exact fun fileKey version bytes h => by cases h
  | append_singleton before task ih => exact sound_append ih

end Steps

end SonarJavascript.Cache
