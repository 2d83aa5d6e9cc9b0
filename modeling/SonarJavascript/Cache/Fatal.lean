import SonarJavascript.Cache.Strategy

/-!
# Cache contents that are fatal

A cache entry that cannot be read gives `WRITE_ONLY` with `CACHE_CORRUPTED` when it leads to an
`IOException` while the analysis is read. The other exceptions, and those of the metadata, leave
`getStrategyFor`.
-/

namespace SonarJavascript.Cache

open ListResults

section Steps

variable {α β σ : Type}

@[simp]
theorem andThen_ok (a : α) (state : σ) (k : α → σ → Except JavaException β × σ) :
    andThen (.ok a, state) k = k a state :=
  rfl

@[simp]
theorem andThen_error (e : JavaException) (state : σ) (k : α → σ → Except JavaException β × σ) :
    andThen (.error e, state) k = (.error e, state) :=
  rfl

end Steps

/-! ### Writes -/

namespace WriteCache

variable {cache : WriteCache} {key other : String} {bytes : Bytes}

/-- Nothing is stored for the key, and no write is going to fail. -/
def Accepts (cache : WriteCache) (key : String) : Prop :=
  cache.remaining = none ∧ cache.entries key = none

/-- The cache with one more entry. -/
def stored (cache : WriteCache) (key : String) (bytes : Bytes) : WriteCache :=
  { entries := fun other => if other = key then some bytes else cache.entries other
    remaining := cache.remaining.map (· - 1) }

/-- The cache with more entries of a file. -/
def storeEntries (ucfgVersion : Option String) (cacheKey : CacheKey) (cache : WriteCache)
    (entries : List (CacheKey.EntryKind × Bytes)) : WriteCache :=
  entries.foldl (fun cache entry => cache.stored (cacheKey.entryKey ucfgVersion entry.1) entry.2) cache

theorem write_of_accepts (h : cache.Accepts key) : cache.write key bytes = (.ok (), cache.stored key bytes) := by
  rw [write, if_neg (by simp [h.1]), if_neg (by simp [h.2])]
  rfl

theorem accepts_stored (h : cache.Accepts other) (hne : other ≠ key) : (cache.stored key bytes).Accepts other :=
  ⟨by simp [stored, h.1], by simp [stored, hne, h.2]⟩

theorem copyFromPrevious_of_accepts {previous : String → Option InputStream} {input : InputStream}
    (hinput : previous key = some input) (h : cache.Accepts key) :
    cache.copyFromPrevious previous key = (.ok (), cache.stored key input.content) := by
  rw [copyFromPrevious, hinput]
  exact write_of_accepts h

@[simp]
theorem entries_stored_self : (cache.stored key bytes).entries key = some bytes :=
  if_pos rfl

theorem entries_stored_of_ne (hne : other ≠ key) : (cache.stored key bytes).entries other = cache.entries other :=
  if_neg hne

end WriteCache

section Reading

variable {p : Platform} {context : SensorContext} {cacheKey : CacheKey} {fs : FileSystem}
  {json stream data stringTable : InputStream}

/-- The entries of the file that `isInCache` looks for. -/
structure Entries (context : SensorContext) (cacheKey : CacheKey) (json stream data stringTable : InputStream) :
    Prop where
  json : context.previousCache (cacheKey.jsonKey context.ucfgPluginVersion) = some json
  stream : context.previousCache (cacheKey.seqKey context.ucfgPluginVersion) = some stream
  data : context.previousCache cacheKey.dataKey = some data
  stringTable : context.previousCache cacheKey.stringTableKey = some stringTable

theorem isInCache_iff : CacheAnalysisSerialization.isInCache context cacheKey = true ↔
    ∃ json stream data stringTable, Entries context cacheKey json stream data stringTable := by
  simp only [CacheAnalysisSerialization.isInCache, Bool.and_eq_true, Option.isSome_iff_exists]
  constructor
  · rintro ⟨⟨⟨⟨json, hjson⟩, stream, hstream⟩, data, hdata⟩, stringTable, hstringTable⟩
    exact ⟨json, stream, data, stringTable, hjson, hstream, hdata, hstringTable⟩
  · rintro ⟨json, stream, data, stringTable, hjson, hstream, hdata, hstringTable⟩
    exact ⟨⟨⟨⟨json, hjson⟩, stream, hstream⟩, data, hdata⟩, stringTable, hstringTable⟩

theorem readJson_eq {P : Type} (gson : Gson P) {key : String} {input : InputStream}
    (h : context.previousCache key = some input) :
    CacheAnalysisSerialization.readJson context gson key =
      match gson.fromJson input.content with
      | some value => .ok value
      | none => .error (.io "Failure when parsing cache entry JSON") := by
  rw [CacheAnalysisSerialization.readJson, CacheAnalysisSerialization.read, h]
  rfl

theorem readCpdData_eq (h : Entries context cacheKey json stream data stringTable) :
    CacheAnalysisSerialization.readCpdData p context cacheKey =
      fromBinary p.vm data.content stringTable.content := by
  rw [CacheAnalysisSerialization.readCpdData, CacheAnalysisSerialization.read, h.data,
    CacheAnalysisSerialization.read, h.stringTable]
  rfl

/-- How reading an analysis can end with something else than an `IOException`. -/
inductive FatalAnalysis (p : Platform) (workDir : Path) (json stream data stringTable : Bytes)
    (fs : FileSystem) : Prop
  | manifestList : p.manifestGson.fromJson json = some (some ⟨none⟩) →
      FatalAnalysis p workDir json stream data stringTable fs
  | badName {fileSizes : List (Option FileSize)} :
      p.manifestGson.fromJson json = some (some ⟨some fileSizes⟩) →
      ReachesBadName workDir fileSizes stream fs → FatalAnalysis p workDir json stream data stringTable fs
  | tokens {fileSizes : List (Option FileSize)} :
      p.manifestGson.fromJson json = some (some ⟨some fileSizes⟩) →
      AllRestored workDir fileSizes stream fs → Crash p.vm data stringTable →
      FatalAnalysis p workDir json stream data stringTable fs

section Sequence

variable {workDir : Path} {fileSizes : List (Option FileSize)} {input : InputStream}

theorem unchecked_readFileSizes :
    Unchecked (readFileSizes workDir fileSizes input fs).1 ↔ ReachesBadName workDir fileSizes input.content fs := by
  refine ⟨fun ⟨e, he, hchecked⟩ => ?_, unchecked_of_reachesBadName⟩
  rcases readFileSizes_cases fileSizes input fs with ⟨message, hio⟩ | hname | hall
  · obtain rfl := Except.error.inj (hio.symm.trans he)
    cases hchecked
  · exact hname
  · obtain ⟨rest, fs', hread⟩ := ok_of_allRestored hall
    rw [hread] at he
    cases he

theorem readFileSizes_eq_ok :
    (∃ rest, (readFileSizes workDir fileSizes input fs).1 = .ok rest) ↔
      AllRestored workDir fileSizes input.content fs := by
  constructor
  · rintro ⟨rest, hread⟩
    rcases readFileSizes_cases fileSizes input fs with ⟨message, hio⟩ | hname | hall
    · cases hio.symm.trans hread
    · obtain ⟨e, he, -⟩ := unchecked_of_reachesBadName hname
      cases he.symm.trans hread
    · exact hall
  · intro hall
    obtain ⟨rest, fs', hread⟩ := ok_of_allRestored hall
    exact ⟨rest, by rw [hread]⟩

end Sequence

theorem unchecked_andThen {α β σ : Type} {result : Except JavaException α × σ}
    {k : α → σ → Except JavaException β × σ} :
    Unchecked (andThen result k).1 ↔
      Unchecked result.1 ∨ ∃ a, result.1 = .ok a ∧ Unchecked (k a result.2).1 := by
  obtain ⟨_ | a, state⟩ := result
  · simp [Unchecked]
  · simp [Unchecked]

theorem unchecked_readUcfgFiles (h : Entries context cacheKey json stream data stringTable) :
    Unchecked (CacheAnalysisSerialization.readUcfgFiles p context cacheKey fs).1 ↔
      p.manifestGson.fromJson json.content = some (some ⟨none⟩) ∨
        ∃ fileSizes, p.manifestGson.fromJson json.content = some (some ⟨some fileSizes⟩) ∧
          ReachesBadName context.workDir fileSizes stream.content fs := by
  rw [CacheAnalysisSerialization.readUcfgFiles, readJson_eq p.manifestGson h.json]
  rcases p.manifestGson.fromJson json.content with _ | _ | ⟨_ | fileSizes⟩
  · simp [not_unchecked_io]
  · simp [not_unchecked_io]
  · rw [CacheAnalysisSerialization.read, h.stream]
    simp [SequenceSerialization.readFromCache, Unchecked, JavaException.isChecked]
  · rw [CacheAnalysisSerialization.read, h.stream]
    dsimp only [SequenceSerialization.readFromCache]
    rw [unchecked_andThen, unchecked_readFileSizes]
    simp [not_unchecked_ok]

theorem readUcfgFiles_eq_ok (h : Entries context cacheKey json stream data stringTable) :
    (∃ u, (CacheAnalysisSerialization.readUcfgFiles p context cacheKey fs).1 = .ok u) ↔
      ∃ fileSizes, p.manifestGson.fromJson json.content = some (some ⟨some fileSizes⟩) ∧
        AllRestored context.workDir fileSizes stream.content fs := by
  rw [CacheAnalysisSerialization.readUcfgFiles, readJson_eq p.manifestGson h.json]
  rcases p.manifestGson.fromJson json.content with _ | _ | ⟨_ | fileSizes⟩
  · simp
  · simp
  · rw [CacheAnalysisSerialization.read, h.stream]
    simp [SequenceSerialization.readFromCache]
  · rw [CacheAnalysisSerialization.read, h.stream]
    dsimp only [SequenceSerialization.readFromCache]
    simp only [Option.some.injEq, FilesManifest.mk.injEq, exists_eq_left', ← readFileSizes_eq_ok]
    obtain ⟨_ | rest, fs'⟩ := readFileSizes context.workDir fileSizes stream fs
    · simp
    · simp

theorem unchecked_readFromCache (h : Entries context cacheKey json stream data stringTable) :
    Unchecked (CacheAnalysisSerialization.readFromCache p context cacheKey fs).1 ↔
      FatalAnalysis p context.workDir json.content stream.content data.content stringTable.content fs := by
  rw [CacheAnalysisSerialization.readFromCache, unchecked_andThen, unchecked_readUcfgFiles h,
    readCpdData_eq h, exists_and_right, readUcfgFiles_eq_ok h, unchecked_fromBinary]
  constructor
  · rintro ((hlist | ⟨fileSizes, hjson, hname⟩) | ⟨⟨fileSizes, hjson, hall⟩, hcrash⟩)
    · exact .manifestList hlist
    · exact .badName hjson hname
    · exact .tokens hjson hall hcrash
  · rintro (hlist | ⟨hjson, hname⟩ | ⟨hjson, hall, hcrash⟩)
    · exact .inl (.inl hlist)
    · exact .inl (.inr ⟨_, hjson, hname⟩)
    · exact .inr ⟨⟨_, hjson, hall⟩, hcrash⟩

end Reading

/-! ### Copying -/

/-- Nothing has been stored for these entries of the file, and no write is going to fail. -/
def Free (context : SensorContext) (cacheKey : CacheKey) (kinds : List CacheKey.EntryKind)
    (cache : WriteCache) : Prop :=
  ∀ kind ∈ kinds, cache.Accepts (cacheKey.entryKey context.ucfgPluginVersion kind)

section Copying

variable {p : Platform} {context : SensorContext} {fileKey : String} {version : Option String}
  {cache : WriteCache} {json stream data stringTable : InputStream}

theorem free_stored {kind : CacheKey.EntryKind} {kinds : List CacheKey.EntryKind}
    (h : Free context (.forFile fileKey version) (kind :: kinds) cache) (hkind : kind ∉ kinds) (bytes : Bytes) :
    Free context (.forFile fileKey version) kinds
      (cache.stored ((CacheKey.forFile fileKey version).entryKey context.ucfgPluginVersion kind) bytes) := by
  intro other hother
  have hne : other ≠ kind := fun heq => hkind (heq ▸ hother)
  exact WriteCache.accepts_stored (h other (List.mem_cons_of_mem _ hother)) (CacheKey.entryKey_ne (.inl hne))

theorem copyFromPrevious_eq (h : Entries context (.forFile fileKey version) json stream data stringTable)
    (hfree : Free context (.forFile fileKey version) [.json, .seq, .data, .stringTable] cache) :
    CacheAnalysisSerialization.copyFromPrevious context (.forFile fileKey version) cache =
      (.ok (), cache.storeEntries context.ucfgPluginVersion (.forFile fileKey version)
        [(.json, json.content), (.seq, stream.content), (.data, data.content),
          (.stringTable, stringTable.content)]) := by
  have hseq := free_stored hfree (by decide) json.content
  have hdata := free_stored hseq (by decide) stream.content
  have htable := free_stored hdata (by decide) data.content
  have copyJson : cache.copyFromPrevious context.previousCache (CacheKey.jsonKey _ _) = (.ok (), _) :=
    WriteCache.copyFromPrevious_of_accepts h.json (hfree .json List.mem_cons_self)
  have copySeq : WriteCache.copyFromPrevious context.previousCache (CacheKey.seqKey _ _) _ = (.ok (), _) :=
    WriteCache.copyFromPrevious_of_accepts h.stream (hseq .seq List.mem_cons_self)
  have copyData : WriteCache.copyFromPrevious context.previousCache (CacheKey.dataKey _) _ = (.ok (), _) :=
    WriteCache.copyFromPrevious_of_accepts h.data (hdata .data List.mem_cons_self)
  have copyTable : WriteCache.copyFromPrevious context.previousCache (CacheKey.stringTableKey _) _ = (.ok (), _) :=
    WriteCache.copyFromPrevious_of_accepts h.stringTable (htable .stringTable List.mem_cons_self)
  rw [CacheAnalysisSerialization.copyFromPrevious, copyJson, andThen_ok]
  dsimp only [CacheKey.entryKey] at copySeq copyData copyTable ⊢
  rw [copySeq, andThen_ok, copyData, andThen_ok, copyTable]
  rfl

/-- The result of reading decides, as long as the entries can be copied. -/
theorem readFromCache_eq {state : AnalysisState}
    (h : Entries context (.forFile fileKey version) json stream data stringTable)
    (hfree : Free context (.forFile fileKey version) [.json, .seq, .data, .stringTable] state.nextCache) :
    (CacheStrategies.readFromCache p context (.forFile fileKey version) state).1 =
      match (CacheAnalysisSerialization.readFromCache p context (.forFile fileKey version) state.fs).1 with
      | .error (.io _) => .ok none
      | .error e => .error e
      | .ok cacheAnalysis => .ok (some cacheAnalysis) := by
  rw [CacheStrategies.readFromCache]
  obtain ⟨result, fs⟩ := CacheAnalysisSerialization.readFromCache p context (.forFile fileKey version) state.fs
  rcases result with e | cacheAnalysis
  · cases e <;> rfl
  · rw [copyFromPrevious_eq h hfree]

/-- The file is the one that the metadata are of, and its entries are there. -/
structure Hit (p : Platform) (context : SensorContext) (cacheKey : CacheKey) (file : InputFile)
    (json stream data stringTable : InputStream) : Prop where
  sameFile : ∃ input fileMetadata, context.previousCache cacheKey.metadataKey = some input ∧
    p.metadataGson.fromJson input.content = some (some fileMetadata) ∧
      fileMetadata.compareTo p file = true
  entries : Entries context cacheKey json stream data stringTable

/-- What `getStrategyFor` does not survive. -/
inductive Fatal (p : Platform) (context : SensorContext) (cacheKey : CacheKey) (file : InputFile)
    (fs : FileSystem) : Prop
  | metadata {input : InputStream} : context.previousCache cacheKey.metadataKey = some input →
      (p.metadataGson.fromJson input.content = none ∨ p.metadataGson.fromJson input.content = some none) →
      Fatal p context cacheKey file fs
  | analysis {json stream data stringTable : InputStream} :
      Hit p context cacheKey file json stream data stringTable →
      FatalAnalysis p context.workDir json.content stream.content data.content stringTable.content fs →
      Fatal p context cacheKey file fs

theorem fileMetadata_eq (p : Platform) (context : SensorContext) (cacheKey : CacheKey) :
    CacheAnalysisSerialization.fileMetadata p context cacheKey =
      match context.previousCache cacheKey.metadataKey with
      | none => .ok none
      | some input =>
        match p.metadataGson.fromJson input.content with
        | none => .error (.io "Failure when parsing cache entry JSON")
        | some none => .error .nullPointer
        | some (some fileMetadata) => .ok (some fileMetadata) := by
  rw [CacheAnalysisSerialization.fileMetadata]
  cases hinput : context.previousCache cacheKey.metadataKey with
  | none => rfl
  | some input =>
    rw [readJson_eq p.metadataGson hinput, Option.isSome_some, if_pos rfl]
    dsimp only
    rcases p.metadataGson.fromJson input.content with _ | _ | fileMetadata
    · rfl
    · rfl
    · rfl

/-- The ways through `getStrategyFor`: the cache is not used, the file is missed, its metadata cannot be
read, or it is hit. -/
inductive Outcome (p : Platform) (context : SensorContext) (file : InputFile) (version : Option String)
    (state : AnalysisState) : Except JavaException Decision × AnalysisState → Prop
  | noCache : CacheStrategies.isRuntimeApiCompatible context = false →
      Outcome p context file version state (.ok ⟨.noCache, some .RUNTIME_API_INCOMPATIBLE⟩, state)
  | missed (reason : MissReason) : CacheStrategies.isRuntimeApiCompatible context = true →
      (context.canSkipUnchangedFiles = true →
        (∀ input, context.previousCache (CacheKey.forFile file.key version).metadataKey = some input →
          ∃ fileMetadata, p.metadataGson.fromJson input.content = some (some fileMetadata)) ∧
        ∀ json stream data stringTable,
          ¬ Hit p context (.forFile file.key version) file json stream data stringTable) →
      Outcome p context file version state
        (.ok ⟨.writeOnly (.forFile file.key version), some reason⟩, state)
  | badMetadata {input : InputStream} (e : JavaException) :
      CacheStrategies.isRuntimeApiCompatible context = true → context.canSkipUnchangedFiles = true →
      context.previousCache (CacheKey.forFile file.key version).metadataKey = some input →
      (p.metadataGson.fromJson input.content = none ∨ p.metadataGson.fromJson input.content = some none) →
      Outcome p context file version state (.error e, state)
  | hit {json stream data stringTable : InputStream} :
      CacheStrategies.isRuntimeApiCompatible context = true → context.canSkipUnchangedFiles = true →
      Hit p context (.forFile file.key version) file json stream data stringTable →
      Outcome p context file version state
        (andThen (CacheStrategies.readFromCache p context (.forFile file.key version) state)
          fun cacheAnalysis state =>
            match cacheAnalysis with
            | none => (.ok ⟨.writeOnly (.forFile file.key version), some .CACHE_CORRUPTED⟩, state)
            | some cacheAnalysis =>
              (.ok ⟨.readAndWrite cacheAnalysis (.forFile file.key version), none⟩, state))

theorem getStrategyFor_outcome (p : Platform) (context : SensorContext) (file : InputFile)
    (version : Option String) (state : AnalysisState) :
    Outcome p context file version state (CacheStrategies.getStrategyFor p context file version state) := by
  rw [CacheStrategies.getStrategyFor]
  cases hruntime : CacheStrategies.isRuntimeApiCompatible context with
  | false => exact .noCache hruntime
  | true =>
    cases hskip : context.canSkipUnchangedFiles with
    | false => exact .missed .ANALYSIS_MODE_INELIGIBLE hruntime fun h => by rw [hskip] at h; cases h
    | true =>
      simp only [Bool.not_true, Bool.false_eq_true, if_false]
      rw [fileMetadata_eq]
      cases hinput : context.previousCache (CacheKey.forFile file.key version).metadataKey with
      | none =>
        refine .missed .FILE_CHANGED hruntime fun _ => ⟨fun input h => ?_, fun _ _ _ _ hhit => ?_⟩
        · rw [hinput] at h
          cases h
        · obtain ⟨input, _, h, -⟩ := hhit.sameFile
          rw [hinput] at h
          cases h
      | some input =>
        dsimp only
        rcases hjson : p.metadataGson.fromJson input.content with _ | _ | fileMetadata
        · exact .badMetadata _ hruntime hskip hinput (.inl hjson)
        · exact .badMetadata _ hruntime hskip hinput (.inr hjson)
        have hmetadata : ∀ input', context.previousCache (CacheKey.forFile file.key version).metadataKey =
            some input' → ∃ fileMetadata, p.metadataGson.fromJson input'.content = some (some fileMetadata) := by
          intro input' h
          obtain rfl := Option.some.inj (hinput.symm.trans h)
          exact ⟨fileMetadata, hjson⟩
        dsimp only
        cases hsame : fileMetadata.compareTo p file with
        | false =>
          rw [Option.any_some, hsame, Bool.not_false, if_pos rfl]
          refine .missed .FILE_CHANGED hruntime fun _ => ⟨hmetadata, fun _ _ _ _ hhit => ?_⟩
          obtain ⟨input', fileMetadata', h, hjson', hsame'⟩ := hhit.sameFile
          obtain rfl := Option.some.inj (hinput.symm.trans h)
          obtain rfl := Option.some.inj (Option.some.inj (hjson.symm.trans hjson'))
          rw [hsame] at hsame'
          cases hsame'
        | true =>
          rw [Option.any_some, hsame, Bool.not_true, if_neg Bool.false_ne_true]
          cases hcache : CacheAnalysisSerialization.isInCache context (.forFile file.key version) with
          | false =>
            refine .missed .FILE_NOT_IN_CACHE hruntime fun _ => ⟨hmetadata, fun _ _ _ _ hhit => ?_⟩
            have htrue := isInCache_iff.mpr ⟨_, _, _, _, hhit.entries⟩
            rw [hcache] at htrue
            cases htrue
          | true =>
            obtain ⟨json, stream, data, stringTable, hentries⟩ := isInCache_iff.mp hcache
            exact .hit hruntime hskip ⟨⟨input, fileMetadata, hinput, hjson, hsame⟩, hentries⟩

theorem fatal_iff_of_hit {file : InputFile} {cacheKey : CacheKey} {fs : FileSystem}
    (h : Hit p context cacheKey file json stream data stringTable) :
    Fatal p context cacheKey file fs ↔
      FatalAnalysis p context.workDir json.content stream.content data.content stringTable.content fs := by
  refine ⟨fun hfatal => ?_, .analysis h⟩
  rcases hfatal with ⟨hinput, hbad⟩ | ⟨hhit, hanalysis⟩
  · obtain ⟨input', fileMetadata, hinput', hjson, -⟩ := h.sameFile
    obtain rfl := Option.some.inj (hinput.symm.trans hinput')
    rcases hbad with hbad | hbad <;> rw [hjson] at hbad <;> cases hbad
  · obtain rfl := Option.some.inj (h.entries.json.symm.trans hhit.entries.json)
    obtain rfl := Option.some.inj (h.entries.stream.symm.trans hhit.entries.stream)
    obtain rfl := Option.some.inj (h.entries.data.symm.trans hhit.entries.data)
    obtain rfl := Option.some.inj (h.entries.stringTable.symm.trans hhit.entries.stringTable)
    exact hanalysis

/-- What a hit returns, as long as the entries can be copied. -/
theorem getStrategyFor_of_hit {file : InputFile} {state : AnalysisState}
    (hruntime : CacheStrategies.isRuntimeApiCompatible context = true)
    (hskip : context.canSkipUnchangedFiles = true)
    (h : Hit p context (.forFile file.key version) file json stream data stringTable)
    (hfree : Free context (.forFile file.key version) [.json, .seq, .data, .stringTable] state.nextCache) :
    (CacheStrategies.getStrategyFor p context file version state).1 =
      match (CacheAnalysisSerialization.readFromCache p context (.forFile file.key version) state.fs).1 with
      | .error (.io _) => .ok ⟨.writeOnly (.forFile file.key version), some .CACHE_CORRUPTED⟩
      | .error e => .error e
      | .ok cacheAnalysis => .ok ⟨.readAndWrite cacheAnalysis (.forFile file.key version), none⟩ := by
  have hread := @readFromCache_eq p _ _ _ _ _ _ _ _ h.entries hfree
  have houtcome := getStrategyFor_outcome p context file version state
  generalize CacheStrategies.getStrategyFor p context file version state = result at houtcome ⊢
  cases houtcome with
  | noCache hincompatible =>
    rw [hruntime] at hincompatible
    cases hincompatible
  | missed reason _ hmissed => exact absurd h ((hmissed hskip).2 _ _ _ _)
  | badMetadata e _ _ hinput hbad =>
    obtain ⟨input', fileMetadata, hinput', hjson, -⟩ := h.sameFile
    obtain rfl := Option.some.inj (hinput.symm.trans hinput')
    rcases hbad with hbad | hbad <;> rw [hjson] at hbad <;> cases hbad
  | hit =>
    generalize CacheStrategies.readFromCache p context (.forFile file.key version) state = r at hread ⊢
    obtain ⟨result, state'⟩ := r
    replace hread : result = _ := hread
    subst hread
    rcases (CacheAnalysisSerialization.readFromCache p context (.forFile file.key version) state.fs).1 with e | a
    · cases e <;> rfl
    · rfl

/-- A strategy is returned unless the content of the cache is fatal. -/
theorem getStrategyFor_returns_iff {file : InputFile} {state : AnalysisState}
    (hfree : Free context (.forFile file.key version) [.json, .seq, .data, .stringTable] state.nextCache) :
    (∃ decision, (CacheStrategies.getStrategyFor p context file version state).1 = .ok decision) ↔
      ¬ (CacheStrategies.isRuntimeApiCompatible context = true ∧ context.canSkipUnchangedFiles = true ∧
        Fatal p context (.forFile file.key version) file state.fs) := by
  have houtcome := getStrategyFor_outcome p context file version state
  generalize hresult : CacheStrategies.getStrategyFor p context file version state = result at houtcome ⊢
  cases houtcome with
  | noCache hruntime => simp [hruntime]
  | missed reason hruntime hmissed =>
    refine iff_of_true ⟨_, rfl⟩ ?_
    rintro ⟨-, hskip, ⟨hinput, hbad⟩ | ⟨hhit, -⟩⟩
    · obtain ⟨fileMetadata, hjson⟩ := (hmissed hskip).1 _ hinput
      rcases hbad with hbad | hbad <;> rw [hjson] at hbad <;> cases hbad
    · exact (hmissed hskip).2 _ _ _ _ hhit
  | badMetadata e hruntime hskip hinput hjson =>
    exact iff_of_false (by simp) fun h => h ⟨hruntime, hskip, .metadata hinput hjson⟩
  | hit hruntime hskip hhit =>
    rw [← hresult, getStrategyFor_of_hit hruntime hskip hhit hfree, fatal_iff_of_hit hhit,
      ← unchecked_readFromCache hhit.entries]
    simp only [hruntime, hskip, true_and]
    rcases (CacheAnalysisSerialization.readFromCache p context (.forFile file.key version) state.fs).1 with e | a
    · cases e <;> simp [Unchecked, JavaException.isChecked]
    · simp [not_unchecked_ok]

/-- Bytes that do not crash the deserializer, and cache contents that are not fatal, are what it takes; an
`IOException` while the analysis is read gives `CACHE_CORRUPTED`. -/
theorem corrupted_cache_iff {file : InputFile} {state : AnalysisState}
    (hfree : Free context (.forFile file.key version) [.json, .seq, .data, .stringTable] state.nextCache) :
    (∀ (vm : Jvm) (data stringTable : Bytes),
      (∀ e, fromBinary vm data stringTable = .error e → e.isChecked = true) ↔
        ¬ Crash vm data stringTable) ∧
    ((∃ decision, (CacheStrategies.getStrategyFor p context file version state).1 = .ok decision) ↔
      ¬ (CacheStrategies.isRuntimeApiCompatible context = true ∧ context.canSkipUnchangedFiles = true ∧
        Fatal p context (.forFile file.key version) file state.fs)) ∧
    (CacheStrategies.isRuntimeApiCompatible context = true → context.canSkipUnchangedFiles = true →
      ∀ json stream data stringTable message,
        Hit p context (.forFile file.key version) file json stream data stringTable →
        (CacheAnalysisSerialization.readFromCache p context (.forFile file.key version) state.fs).1 =
          .error (.io message) →
        (CacheStrategies.getStrategyFor p context file version state).1 =
          .ok ⟨.writeOnly (.forFile file.key version), some .CACHE_CORRUPTED⟩) := by
  refine ⟨fun vm data stringTable => ?_, getStrategyFor_returns_iff hfree, ?_⟩
  · rw [← unchecked_fromBinary, Unchecked]
    simp
  · intro hruntime hskip json stream data stringTable message hhit hread
    rw [getStrategyFor_of_hit hruntime hskip hhit hfree, hread]

end Copying

/-! ### Contents that are not survived -/

/-- No entry of the cache is JSON. -/
def noJsonPlatform : Platform where
  vm := hotSpot
  digest := id
  metadataGson := Gson.known metadataJson []
  manifestGson := Gson.known manifestJson []

def emptyFile : InputFile :=
  ⟨"project:src/test.js", "", fun _ => []⟩

def noJsonContext : SensorContext where
  apiVersion := (9, 6)
  product := .SONARQUBE
  canSkipUnchangedFiles := true
  previousCache _ := some ⟨getBytes "invalid-json", []⟩
  workDir := ["work"]
  ucfgPluginVersion := none

theorem corrupted_cache_iff_no_json :
    ¬ ∃ decision, (CacheStrategies.getStrategyFor noJsonPlatform noJsonContext emptyFile (some "1.0.0")
      ⟨⟨fun _ => none, none⟩, .empty⟩).1 = .ok decision := by
  have hfatal : Fatal noJsonPlatform noJsonContext (.forFile emptyFile.key (some "1.0.0")) emptyFile .empty :=
    .metadata rfl (.inl (by decide))
  have hiff := (@corrupted_cache_iff noJsonPlatform noJsonContext (some "1.0.0") emptyFile
    ⟨⟨fun _ => none, none⟩, .empty⟩ fun _ _ => ⟨rfl, rfl⟩).2.1
  exact fun h => hiff.mp h ⟨by decide, rfl, hfatal⟩

/-- A table with the size `-1`. -/
theorem negative_size_not_checked :
    ¬ ∀ (vm : Jvm) (data stringTable : Bytes) (e : JavaException),
      fromBinary vm data stringTable = .error e → e.isChecked = true := by
  intro h
  have hsize : fromBinary hotSpot [0, 3, 69, 78, 68] [255, 255, 255, 255, 15] = .error .illegalArgument := by
    decide
  exact absurd (h _ _ _ _ hsize) (by decide)

end SonarJavascript.Cache
