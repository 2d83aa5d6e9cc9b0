import SonarJavascript.Cache.HitSoundness

/-!
# Files that do not change

The metadata of a file are not copied with its other entries. The run after the one that stores a file can
read it; the run after that finds no metadata, and analyzes the file again.
-/

namespace SonarJavascript.Cache

/-- The tasks before the first one on the file. -/
def Run.tasksBefore (run : Run) (file : InputFile) : List Task :=
  run.tasks.takeWhile fun task => task.request.file.key ≠ file.key

/-- The run analyzes the file once, and without an exception. -/
structure Analyzes (p : Platform) (file : InputFile) (run : Run) (previous : Contents) (task : Task)
    (after : List Task) (decision : Decision) : Prop where
  tasks : run.tasks = run.tasksBefore file ++ task :: after
  sameFile : task.request.file = file
  others : ∀ other ∈ after, other.request.file.key ≠ file.key
  result : (runTask p run previous task (stateAt p run previous (run.tasksBefore file))).1 = .ok decision

/-- Runs of one version on the unchanged file, each with the cache of the run before it. -/
inductive Later (p : Platform) (file : InputFile) (version : Option String) :
    Contents → List Run → List Decision → Prop
  | nil {previous : Contents} : Later p file version previous [] []
  | cons {previous : Contents} {run : Run} {runs : List Run} {task : Task} {after : List Task}
      {decision : Decision} {decisions : List Decision} :
      run.pluginVersion = version → Analyzes p file run previous task after decision →
      Later p file version (nextCache p run previous) runs decisions →
      Later p file version previous (run :: runs) (decision :: decisions)

/-- The run uses the cache, and nothing keeps it from restoring the files that are in there. -/
structure Readable (p : Platform) (file : InputFile) (run : Run) (previous : Contents) : Prop where
  runtime : CacheStrategies.isRuntimeApiCompatible (run.context previous) = true
  skip : run.canSkipUnchangedFiles = true
  files : ∃ json stream fileSizes,
    previous ((run.key file).jsonKey run.ucfgPluginVersion) = some json ∧
    previous ((run.key file).seqKey run.ucfgPluginVersion) = some stream ∧
    p.manifestGson.fromJson json = some (some ⟨some fileSizes⟩) ∧
    AllRestored run.workDir fileSizes stream (stateAt p run previous (run.tasksBefore file)).fs

section Stability

variable {p : Platform} {run : Run} {previous : Contents} {file : InputFile}

/-! ### Other files -/

/-- The analysis of another file leaves the entries of the file as they are. -/
theorem entries_of_other {before : List Task} {task : Task} (h : task.request.file.key ≠ file.key)
    (kind : CacheKey.EntryKind) :
    (stateAt p run previous (before ++ [task])).nextCache.entries
      ((run.key file).entryKey run.ucfgPluginVersion kind) =
        (stateAt p run previous before).nextCache.entries
          ((run.key file).entryKey run.ucfgPluginVersion kind) := by
  have hsuffix : (run.key file).suffix ≠ (run.key task.request.file).suffix :=
    fun heq => h (CacheKey.fileKey_of_suffix heq).symm
  rcases @runTask_next p run previous before task with ⟨hextends, -⟩ |
    ⟨response, sequence, manifest, result, hstored⟩
  · refine hextends.same _ ?_
    rintro ⟨kind', -, hkey⟩
    exact hsuffix (CacheKey.entryKey_injective hkey).2
  · exact entries_of_storedAfter hstored hsuffix kind

theorem entries_of_others (before : List Task) {after : List Task}
    (h : ∀ other ∈ after, other.request.file.key ≠ file.key) (kind : CacheKey.EntryKind) :
    (stateAt p run previous (before ++ after)).nextCache.entries
      ((run.key file).entryKey run.ucfgPluginVersion kind) =
        (stateAt p run previous before).nextCache.entries
          ((run.key file).entryKey run.ucfgPluginVersion kind) := by
  induction after generalizing before with
  | nil => rw [List.append_nil]
  | cons other after ih =>
    rw [List.append_cons, ih _ fun later hlater => h later (List.mem_cons_of_mem _ hlater),
      entries_of_other (h other List.mem_cons_self)]

theorem entries_tasksBefore (kind : CacheKey.EntryKind) :
    (stateAt p run previous (run.tasksBefore file)).nextCache.entries
      ((run.key file).entryKey run.ucfgPluginVersion kind) = none := by
  have hothers : ∀ other ∈ run.tasksBefore file, other.request.file.key ≠ file.key :=
    fun other hother => by simpa using List.mem_takeWhile_imp hother
  exact @entries_of_others p run previous file [] _ hothers kind

theorem nextCache_of_analyzes {task : Task} {after : List Task} {decision : Decision}
    (h : Analyzes p file run previous task after decision) (kind : CacheKey.EntryKind) :
    nextCache p run previous ((run.key file).entryKey run.ucfgPluginVersion kind) =
      (stateAt p run previous (run.tasksBefore file ++ [task])).nextCache.entries
        ((run.key file).entryKey run.ucfgPluginVersion kind) := by
  rw [nextCache, h.tasks, List.append_cons]
  exact entries_of_others _ h.others kind

/-! ### The run that stores the file -/

theorem decision_of_analyzeFile {context : SensorContext} {version : Option String} {request : Request}
    {state : AnalysisState} {decision : Decision}
    (h : (analyzeFile p context version request state).1 = .ok decision) :
    (CacheStrategies.getStrategyFor p context request.file version state).1 = .ok decision := by
  rcases hresult : analyzeFile p context version request state with ⟨r, state'⟩
  rw [hresult] at h
  obtain rfl : r = .ok decision := h
  rw [analyzeFile] at hresult
  obtain ⟨decision', state₁, hstrategy, hrest⟩ := andThen_eq_ok hresult
  rw [hstrategy]
  split at hrest
  · split at hrest
    · cases hrest
    · obtain ⟨_, _, -, hpair⟩ := andThen_eq_ok hrest
      obtain ⟨hok, -⟩ := Prod.mk.inj hpair
      exact hok
  · obtain ⟨hok, -⟩ := Prod.mk.inj hrest
    exact hok

/-- The metadata and the tokens that a run leaves for the next one. -/
structure Keeps (p : Platform) (cacheKey : CacheKey) (file : InputFile) (cpdTokens : CpdData)
    (result : SerializationResult) (entries : Contents) : Prop where
  tokens : toBinary p.vm cpdTokens = .ok result
  data : entries cacheKey.dataKey = some result.data
  stringTable : entries cacheKey.stringTableKey = some result.stringTable
  metadata : entries cacheKey.metadataKey = some (p.metadataGson.toJson (FileMetadata.from p file))

theorem keeps_of_writeOnly {task : Task} {after : List Task} {decision : Decision}
    (h : Analyzes p file run previous task after decision) (hname : decision.strategy.name = .WRITE_ONLY) :
    ∃ cpdTokens result, Keeps p (run.key file) file cpdTokens result (nextCache p run previous) := by
  rcases @runTask_next p run previous (run.tasksBefore file) task with ⟨-, hnot⟩ |
    ⟨response, sequence, manifest, result, hstored⟩
  · exact absurd hname (hnot decision h.result)
  · have hpresent := present_of_storedAfter hstored
    obtain ⟨_, -, hstores⟩ := hstored
    obtain ⟨_, _, -, -, hwritten⟩ := hstores.written
    rw [h.sameFile] at hpresent
    exact ⟨response.cpdTokens, result, hwritten.tokens,
      (nextCache_of_analyzes h .data).trans hpresent.data,
      (nextCache_of_analyzes h .stringTable).trans hpresent.stringTable,
      (nextCache_of_analyzes h .metadata).trans hpresent.metadata⟩

theorem metadata_of_not_writeOnly {task : Task} {after : List Task} {decision : Decision}
    (h : Analyzes p file run previous task after decision) (hname : decision.strategy.name ≠ .WRITE_ONLY) :
    nextCache p run previous (run.key file).metadataKey = none := by
  refine (nextCache_of_analyzes h .metadata).trans ?_
  rcases @runTask_next p run previous (run.tasksBefore file) task with ⟨hextends, -⟩ |
    ⟨response, sequence, manifest, result, decision', hresult, hstores⟩
  · exact (hextends.same _ not_dataKey_metadataKey).trans (entries_tasksBefore .metadata)
  · have heq : decision' = decision := Except.ok.inj (hresult.symm.trans h.result)
    rw [← heq, hstores.strategy] at hname
    exact absurd rfl hname

/-! ### The run that reads the file -/

theorem strategy_of_analyzes {task : Task} {after : List Task} {decision : Decision}
    (h : Analyzes p file run previous task after decision) :
    ∃ state', CacheStrategies.getStrategyFor p (run.context previous) file run.pluginVersion
      (Run.before task (stateAt p run previous (run.tasksBefore file))) = (.ok decision, state') := by
  have hstrategy := decision_of_analyzeFile h.result
  rw [h.sameFile] at hstrategy
  exact ⟨_, Prod.ext hstrategy rfl⟩

theorem previousCache_eq {key : String} {input : InputStream}
    (h : (run.context previous).previousCache key = some input) : previous key = some input.content := by
  obtain ⟨bytes, hbytes, rfl⟩ := Option.map_eq_some_iff.mp h
  exact hbytes

theorem reads_of_readAndWrite {task : Task} {after : List Task} {decision : Decision}
    (h : Analyzes p file run previous task after decision) (hname : decision.strategy.name = .READ_AND_WRITE) :
    ∃ state' cpdTokens json stream data stringTable,
      Reads p (run.context previous) run.pluginVersion file
        (Run.before task (stateAt p run previous (run.tasksBefore file))) state' decision cpdTokens json stream
        data stringTable := by
  obtain ⟨state', hstrategy⟩ := strategy_of_analyzes h
  rcases getStrategyFor_next hstrategy with ⟨e, he, -⟩ | ⟨decision', hok, -, hmiss⟩ |
    ⟨decision', cpdTokens, json, stream, data, stringTable, hok, hreads⟩
  · cases he
  · obtain rfl := Except.ok.inj hok
    rcases hmiss with hmiss | hmiss <;> rw [hmiss] at hname <;> cases hname
  · obtain rfl := Except.ok.inj hok
    exact ⟨state', cpdTokens, json, stream, data, stringTable, hreads⟩

theorem readable_of_readAndWrite {task : Task} {after : List Task} {decision : Decision}
    (h : Analyzes p file run previous task after decision) (hname : decision.strategy.name = .READ_AND_WRITE) :
    Readable p file run previous := by
  obtain ⟨state', cpdTokens, json, stream, data, stringTable, hreads⟩ := reads_of_readAndWrite h hname
  have hfiles : ∃ u, (CacheAnalysisSerialization.readUcfgFiles p (run.context previous) (run.key file)
      (stateAt p run previous (run.tasksBefore file)).fs).1 = .ok u := by
    have htokens := hreads.tokens
    rw [CacheAnalysisSerialization.readFromCache] at htokens
    obtain ⟨u, fs', hread, -⟩ := andThen_eq_ok (Prod.ext htokens rfl)
    exact ⟨u, congrArg Prod.fst hread⟩
  obtain ⟨fileSizes, hmanifest, hall⟩ := (readUcfgFiles_eq_ok hreads.hit.entries).mp hfiles
  exact ⟨hreads.runtime, hreads.skip, json.content, stream.content, fileSizes,
    previousCache_eq hreads.hit.entries.json, previousCache_eq hreads.hit.entries.stream, hmanifest, hall⟩

theorem compareTo_from (p : Platform) (file : InputFile) : (FileMetadata.from p file).compareTo p file = true := by
  simp [FileMetadata.compareTo, FileMetadata.from]

/-- Tokens that are kept, and files that can be restored, are read. -/
theorem readAndWrite_of_readable {task : Task} {after : List Task} {decision : Decision}
    {cpdTokens : CpdData} {result : SerializationResult}
    (hjson : p.metadataGson.RoundTrips (FileMetadata.from p file))
    (hkeeps : Keeps p (run.key file) file cpdTokens result previous)
    (h : Analyzes p file run previous task after decision) (hreadable : Readable p file run previous) :
    decision.strategy.name = .READ_AND_WRITE := by
  obtain ⟨json, stream, fileSizes, hjsonKey, hseqKey, hmanifest, hall⟩ := hreadable.files
  have hentry : ∀ {key : String} {bytes : Bytes}, previous key = some bytes →
      (run.context previous).previousCache key = some ⟨bytes, run.sizes key⟩ :=
    fun hkey => Option.map_eq_some_iff.mpr ⟨_, hkey, rfl⟩
  have hhit : Hit p (run.context previous) (run.key file) file _ _ _ _ :=
    ⟨⟨_, _, hentry hkeeps.metadata, hjson, compareTo_from p file⟩, hentry hjsonKey, hentry hseqKey,
      hentry hkeeps.data, hentry hkeeps.stringTable⟩
  have hread : (CacheAnalysisSerialization.readFromCache p (run.context previous) (run.key file)
      (stateAt p run previous (run.tasksBefore file)).fs).1 = .ok cpdTokens := by
    obtain ⟨u, hu⟩ := (readUcfgFiles_eq_ok hhit.entries).mpr ⟨fileSizes, hmanifest, hall⟩
    have htokens := readCpdData_eq (p := p) hhit.entries
    rw [fromBinary_of_toBinary hkeeps.tokens] at htokens
    rcases hucfg : CacheAnalysisSerialization.readUcfgFiles p (run.context previous) (run.key file)
      (stateAt p run previous (run.tasksBefore file)).fs with ⟨r, fs'⟩
    rw [hucfg] at hu
    obtain rfl : r = .ok u := hu
    rw [CacheAnalysisSerialization.readFromCache, hucfg]
    exact htokens
  obtain ⟨state', hstrategy⟩ := strategy_of_analyzes h
  have houtcome := getStrategyFor_outcome p (run.context previous) file run.pluginVersion
    (Run.before task (stateAt p run previous (run.tasksBefore file)))
  rw [hstrategy] at houtcome
  generalize hpair : ((.ok decision : Except JavaException Decision), state') = pair at houtcome
  cases houtcome with
  | noCache hruntime =>
    rw [hreadable.runtime] at hruntime
    cases hruntime
  | missed reason _ hmissed => exact absurd hhit ((hmissed hreadable.skip).2 _ _ _ _)
  | badMetadata e _ _ _ _ => cases (Prod.mk.inj hpair).1
  | hit _ _ _ =>
    rcases hstep : CacheStrategies.readFromCache p (run.context previous) (.forFile file.key run.pluginVersion)
      (Run.before task (stateAt p run previous (run.tasksBefore file))) with ⟨r, state₁⟩
    rw [hstep] at hpair
    rcases readFromCache_cases hstep with ⟨e, rfl, -⟩ | ⟨rfl, -, message, hio⟩ |
      ⟨cpdTokens', _, _, _, _, rfl, -⟩
    · cases (Prod.mk.inj hpair).1
    · cases hio.symm.trans hread
    · obtain ⟨hok, -⟩ := Prod.mk.inj hpair
      obtain rfl := Except.ok.inj hok
      rfl

theorem not_readAndWrite_of_metadata {task : Task} {after : List Task} {decision : Decision}
    (hmetadata : previous (run.key file).metadataKey = none)
    (h : Analyzes p file run previous task after decision) : decision.strategy.name ≠ .READ_AND_WRITE := by
  intro hname
  obtain ⟨_, _, _, _, _, _, hreads⟩ := reads_of_readAndWrite h hname
  obtain ⟨input, _, hinput, -⟩ := hreads.hit.sameFile
  have hpresent : previous (run.key file).metadataKey = some input.content := previousCache_eq hinput
  rw [hpresent] at hmetadata
  cases hmetadata

/-- After the run that stores a file, every run reads it exactly when there is at most one more run, and
this one can. -/
theorem all_readAndWrite_iff {first : Run} {previous₀ : Contents} {task : Task} {after : List Task}
    {decision : Decision} {runs : List Run} {decisions : List Decision}
    (hjson : p.metadataGson.RoundTrips (FileMetadata.from p file))
    (hfirst : Analyzes p file first previous₀ task after decision)
    (hstored : decision.strategy.name = .WRITE_ONLY)
    (hlater : Later p file first.pluginVersion (nextCache p first previous₀) runs decisions) :
    (∀ later ∈ decisions, later.strategy.name = .READ_AND_WRITE) ↔
      runs = [] ∨ ∃ run, runs = [run] ∧ Readable p file run (nextCache p first previous₀) := by
  obtain ⟨cpdTokens, result, hkeeps⟩ := keeps_of_writeOnly hfirst hstored
  cases hlater with
  | nil => simp
  | @cons _ second runs _ _ decision₂ decisions hversion hsecond hrest =>
    have hkey : second.key file = first.key file := by rw [Run.key, Run.key, hversion]
    rw [← hkey] at hkeeps
    constructor
    · intro hall
      have hname := hall decision₂ List.mem_cons_self
      have hreadable := readable_of_readAndWrite hsecond hname
      cases hrest with
      | nil => exact .inr ⟨second, rfl, hreadable⟩
      | @cons _ third _ _ _ decision₃ _ hversion₃ hthird _ =>
        have hmetadata := metadata_of_not_writeOnly hsecond (by rw [hname]; decide)
        have hkey₃ : third.key file = second.key file := by rw [Run.key, Run.key, hversion₃, hversion]
        rw [← hkey₃] at hmetadata
        exact absurd (hall decision₃ (by simp)) (not_readAndWrite_of_metadata hmetadata hthird)
    · rintro (hnil | ⟨run, hruns, hreadable⟩)
      · cases hnil
      · obtain ⟨rfl, rfl⟩ := List.cons.inj hruns
        cases hrest
        intro later hmem
        obtain rfl := List.mem_singleton.mp hmem
        exact readAndWrite_of_readable hjson hkeeps hsecond hreadable

end Stability

/-! ### Three runs on one file -/

def questionMarkTask : Task :=
  ⟨⟨questionMark, fun fs => (.ok ⟨none, []⟩, fs)⟩, none⟩

def questionMarkRun : Run :=
  { asciiRun questionMark [] with tasks := [questionMarkTask] }

def questionMarkKey : CacheKey :=
  .forFile "project:src/test.js" (some "1.0.0")

/-- The cache after so many runs. -/
def questionMarkCache (n : ℕ) : Contents :=
  cacheAfter questionMarkPlatform (List.replicate n questionMarkRun)

theorem analyzes_questionMark {previous : Contents} {decision : Decision}
    (h : (runTask questionMarkPlatform questionMarkRun previous questionMarkTask questionMarkRun.start).1 =
      .ok decision) :
    Analyzes questionMarkPlatform questionMark questionMarkRun previous questionMarkTask [] decision := by
  have hbefore : questionMarkRun.tasksBefore questionMark = [] := by
    decide
  refine ⟨?_, rfl, nofun, ?_⟩
  · rw [hbefore]
    rfl
  · rw [hbefore]
    exact h

theorem questionMark_stored : Analyzes questionMarkPlatform questionMark questionMarkRun (questionMarkCache 0)
    questionMarkTask [] ⟨.writeOnly questionMarkKey, some .FILE_CHANGED⟩ :=
  analyzes_questionMark (by decide +kernel)

theorem questionMark_read : Analyzes questionMarkPlatform questionMark questionMarkRun (questionMarkCache 1)
    questionMarkTask [] ⟨.readAndWrite [] questionMarkKey, none⟩ :=
  analyzes_questionMark (by decide +kernel)

theorem questionMark_changed : Analyzes questionMarkPlatform questionMark questionMarkRun (questionMarkCache 2)
    questionMarkTask [] ⟨.writeOnly questionMarkKey, some .FILE_CHANGED⟩ :=
  analyzes_questionMark (by decide +kernel)

theorem roundTrips_questionMark :
    questionMarkPlatform.metadataGson.RoundTrips (FileMetadata.from questionMarkPlatform questionMark) := by
  have hmetadata : FileMetadata.from questionMarkPlatform questionMark = ⟨1, some questionMarkDigest⟩ := by
    decide
  rw [hmetadata]
  show (Gson.known metadataJson [⟨1, some questionMarkDigest⟩]).fromJson
    (metadataJson ⟨1, some questionMarkDigest⟩) = _
  decide

theorem readable_questionMark :
    Readable questionMarkPlatform questionMark questionMarkRun (questionMarkCache 1) :=
  readable_of_readAndWrite questionMark_read rfl

theorem all_readAndWrite_iff_second :
    (⟨.readAndWrite [] questionMarkKey, none⟩ : Decision).strategy.name = .READ_AND_WRITE :=
  (@all_readAndWrite_iff questionMarkPlatform questionMark questionMarkRun _ questionMarkTask [] _
    [questionMarkRun] _ roundTrips_questionMark questionMark_stored rfl
    (.cons rfl questionMark_read .nil)).mpr (.inr ⟨questionMarkRun, rfl, readable_questionMark⟩) _
      List.mem_cons_self

/-- The run after the one that has read the file finds no metadata. -/
theorem second_later_run_not_readAndWrite :
    ¬ ∀ (p : Platform) (file : InputFile) (first : Run) (previous : Contents) (task : Task) (after : List Task)
      (decision : Decision) (runs : List Run) (decisions : List Decision),
      p.metadataGson.RoundTrips (FileMetadata.from p file) →
      Analyzes p file first previous task after decision → decision.strategy.name = .WRITE_ONLY →
      Later p file first.pluginVersion (nextCache p first previous) runs decisions →
      (∀ run ∈ runs, CacheStrategies.isRuntimeApiCompatible (run.context previous) = true ∧
        run.canSkipUnchangedFiles = true) →
      ∀ later ∈ decisions, later.strategy.name = .READ_AND_WRITE := by
  intro h
  have hlater : Later questionMarkPlatform questionMark questionMarkRun.pluginVersion (questionMarkCache 1)
      [questionMarkRun, questionMarkRun] _ :=
    .cons rfl questionMark_read (.cons rfl questionMark_changed .nil)
  have hall := h questionMarkPlatform questionMark questionMarkRun _ questionMarkTask [] _ _ _
    roundTrips_questionMark questionMark_stored rfl hlater (by decide)
  cases hall ⟨.writeOnly questionMarkKey, some .FILE_CHANGED⟩ (List.mem_cons_of_mem _ List.mem_cons_self)

end SonarJavascript.Cache
