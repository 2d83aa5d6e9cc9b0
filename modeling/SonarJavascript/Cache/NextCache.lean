import SonarJavascript.Cache.Fatal

/-!
# What the analysis of a file leaves in the next cache

Entries are only added to the next cache, and the analysis of a file adds entries of this file only. The
metadata come last: they are there only when everything else has been written before them.
-/

namespace SonarJavascript.Cache

/-! ### Cache that grows -/

namespace WriteCache

variable {keys : String → Prop} {cache cache' cache'' : WriteCache} {key : String} {bytes : Bytes}

/-- Entries are only added, and only under such keys. -/
structure Extends (keys : String → Prop) (cache cache' : WriteCache) : Prop where
  kept : ∀ key bytes, cache.entries key = some bytes → cache'.entries key = some bytes
  same : ∀ key, ¬ keys key → cache'.entries key = cache.entries key

theorem Extends.refl : Extends keys cache cache :=
  ⟨fun _ _ h => h, fun _ _ => rfl⟩

theorem Extends.trans (h : Extends keys cache cache') (h' : Extends keys cache' cache'') :
    Extends keys cache cache'' :=
  ⟨fun key bytes hkey => h'.kept key bytes (h.kept key bytes hkey),
    fun key hkey => (h'.same key hkey).trans (h.same key hkey)⟩

theorem Extends.mono {keys' : String → Prop} (h : Extends keys cache cache') (hkeys : ∀ key, keys key → keys' key) :
    Extends keys' cache cache' :=
  ⟨h.kept, fun key hkey => h.same key fun hkey' => hkey (hkeys key hkey')⟩

theorem extends_stored (hkey : keys key) (hnew : cache.entries key = none) :
    Extends keys cache (cache.stored key bytes) := by
  constructor
  · intro other bytes' hother
    rw [entries_stored_of_ne, hother]
    rintro rfl
    rw [hnew] at hother
    cases hother
  · intro other hother
    exact entries_stored_of_ne fun heq => hother (heq ▸ hkey)

theorem write_cases (cache : WriteCache) (key : String) (bytes : Bytes) :
    (∃ e, cache.write key bytes = (.error e, cache)) ∨
      (cache.entries key = none ∧ cache.write key bytes = (.ok (), cache.stored key bytes)) := by
  rw [write]
  split
  · exact .inl ⟨_, rfl⟩
  · split
    · exact .inl ⟨_, rfl⟩
    · rename_i hnew
      exact .inr ⟨by simpa using hnew, rfl⟩

theorem write_eq_ok (h : cache.write key bytes = (.ok (), cache')) :
    cache.entries key = none ∧ cache' = cache.stored key bytes := by
  rcases write_cases cache key bytes with ⟨e, hwrite⟩ | ⟨hnew, hwrite⟩
  · cases hwrite.symm.trans h
  · exact ⟨hnew, (Prod.mk.inj (h.symm.trans hwrite)).2⟩

theorem extends_write (hkey : keys key) : Extends keys cache (cache.write key bytes).2 := by
  rcases write_cases cache key bytes with ⟨e, hwrite⟩ | ⟨hnew, hwrite⟩
  · rw [hwrite]
    exact .refl
  · rw [hwrite]
    exact extends_stored hkey hnew

theorem extends_write_error {e : JavaException} (h : cache.write key bytes = (.error e, cache')) :
    Extends keys cache cache' := by
  rcases write_cases cache key bytes with ⟨e', hwrite⟩ | ⟨-, hwrite⟩
  · obtain ⟨-, rfl⟩ := Prod.mk.inj (h.symm.trans hwrite)
    exact .refl
  · cases hwrite.symm.trans h

theorem extends_copyFromPrevious {previous : String → Option InputStream} (hkey : keys key) :
    Extends keys cache (cache.copyFromPrevious previous key).2 := by
  rw [copyFromPrevious]
  split
  · exact .refl
  · exact extends_write hkey

theorem copyFromPrevious_eq_ok {previous : String → Option InputStream}
    (h : cache.copyFromPrevious previous key = (.ok (), cache')) :
    ∃ input, previous key = some input ∧ cache' = cache.stored key input.content := by
  rw [copyFromPrevious] at h
  split at h
  · cases h
  · rename_i input hinput
    exact ⟨input, hinput, (write_eq_ok h).2⟩

end WriteCache

/-! ### Steps one after the other -/

section Steps

variable {α β σ : Type} {result : Except JavaException α × σ} {k : α → σ → Except JavaException β × σ}

theorem andThen_eq_ok {b : β} {state' : σ} (h : andThen result k = (.ok b, state')) :
    ∃ a state, result = (.ok a, state) ∧ k a state = (.ok b, state') := by
  obtain ⟨_ | a, state⟩ := result
  · cases h
  · exact ⟨a, state, rfl, h⟩

theorem andThen_eq_error {e : JavaException} {state' : σ} (h : andThen result k = (.error e, state')) :
    result = (.error e, state') ∨ ∃ a state, result = (.ok a, state) ∧ k a state = (.error e, state') := by
  obtain ⟨e' | a, state⟩ := result
  · have herror : ((.error e' : Except JavaException β), state) = (.error e, state') := h
    obtain ⟨he, rfl⟩ := Prod.mk.inj herror
    obtain rfl := Except.error.inj he
    exact .inl rfl
  · exact .inr ⟨a, state, rfl, h⟩

theorem andThen_rel {R : σ → σ → Prop} (htrans : ∀ a b c, R a b → R b c → R a c) {state : σ}
    (hresult : R state result.2) (hk : ∀ a state', R state' (k a state').2) : R state (andThen result k).2 := by
  obtain ⟨e | a, state'⟩ := result
  · exact hresult
  · exact htrans _ _ _ hresult (hk a state')

end Steps

/-! ### Entries of one file -/

section Entries

variable {fileKey : String} {version ucfgVersion : Option String} {cache : WriteCache}
  {entries : List (CacheKey.EntryKind × Bytes)}

/-- The key of such an entry of the file. -/
def OwnKey (ucfgVersion : Option String) (cacheKey : CacheKey) (kinds : CacheKey.EntryKind → Prop)
    (key : String) : Prop :=
  ∃ kind, kinds kind ∧ key = cacheKey.entryKey ucfgVersion kind

theorem entries_storeEntries_of_ne {key : String}
    (h : ∀ entry ∈ entries, key ≠ (CacheKey.forFile fileKey version).entryKey ucfgVersion entry.1) :
    (cache.storeEntries ucfgVersion (.forFile fileKey version) entries).entries key = cache.entries key := by
  induction entries generalizing cache with
  | nil => rfl
  | cons entry entries ih =>
    have hentry := h entry List.mem_cons_self
    show ((cache.stored _ _).storeEntries ucfgVersion (.forFile fileKey version) entries).entries key = _
    rw [ih fun other hother => h other (List.mem_cons_of_mem _ hother), WriteCache.entries_stored_of_ne hentry]

theorem entries_storeEntries_of_mem (hnodup : (entries.map Prod.fst).Nodup) {kind : CacheKey.EntryKind}
    {bytes : Bytes} (hmem : (kind, bytes) ∈ entries) :
    (cache.storeEntries ucfgVersion (.forFile fileKey version) entries).entries
      ((CacheKey.forFile fileKey version).entryKey ucfgVersion kind) = some bytes := by
  induction entries generalizing cache with
  | nil => cases hmem
  | cons entry entries ih =>
    obtain ⟨hentry, hrest⟩ := List.nodup_cons.mp hnodup
    show ((cache.stored _ _).storeEntries ucfgVersion (.forFile fileKey version) entries).entries _ = _
    rcases List.mem_cons.mp hmem with rfl | hmem
    · rw [entries_storeEntries_of_ne, WriteCache.entries_stored_self]
      intro other hother
      refine CacheKey.entryKey_ne (.inl ?_)
      intro heq
      exact hentry (List.mem_map.mpr ⟨other, hother, heq.symm⟩)
    · exact ih hrest hmem

end Entries

section Analysis

variable {p : Platform} {context : SensorContext} {cacheKey : CacheKey}

/-- All entries of the file but its metadata. -/
def DataKey (context : SensorContext) (cacheKey : CacheKey) : String → Prop :=
  OwnKey context.ucfgPluginVersion cacheKey (· ≠ .metadata)

theorem extends_copy (cache : WriteCache) :
    WriteCache.Extends (DataKey context cacheKey) cache
      (CacheAnalysisSerialization.copyFromPrevious context cacheKey cache).2 := by
  have hcopy : ∀ (kind : CacheKey.EntryKind) (cache : WriteCache), kind ≠ .metadata →
      WriteCache.Extends (DataKey context cacheKey) cache
        (cache.copyFromPrevious context.previousCache
          (cacheKey.entryKey context.ucfgPluginVersion kind)).2 :=
    fun kind cache hkind => WriteCache.extends_copyFromPrevious ⟨kind, hkind, rfl⟩
  have htrans : ∀ a b c, WriteCache.Extends (DataKey context cacheKey) a b →
      WriteCache.Extends (DataKey context cacheKey) b c → WriteCache.Extends (DataKey context cacheKey) a c :=
    fun _ _ _ => WriteCache.Extends.trans
  refine andThen_rel htrans (hcopy .json _ nofun) fun _ cache => ?_
  refine andThen_rel htrans (hcopy .seq _ nofun) fun _ cache => ?_
  refine andThen_rel htrans (hcopy .data _ nofun) fun _ cache => ?_
  exact hcopy .stringTable cache nofun

theorem copy_eq_ok {cache cache' : WriteCache}
    (h : CacheAnalysisSerialization.copyFromPrevious context cacheKey cache = (.ok (), cache')) :
    ∃ json stream data stringTable, Entries context cacheKey json stream data stringTable ∧
      cache' = cache.storeEntries context.ucfgPluginVersion cacheKey
        [(.json, json.content), (.seq, stream.content), (.data, data.content),
          (.stringTable, stringTable.content)] := by
  obtain ⟨_, _, copyJson, h⟩ := andThen_eq_ok h
  obtain ⟨_, _, copySeq, h⟩ := andThen_eq_ok h
  obtain ⟨_, _, copyData, copyTable⟩ := andThen_eq_ok h
  obtain ⟨json, hjson, rfl⟩ := WriteCache.copyFromPrevious_eq_ok copyJson
  obtain ⟨stream, hstream, rfl⟩ := WriteCache.copyFromPrevious_eq_ok copySeq
  obtain ⟨data, hdata, rfl⟩ := WriteCache.copyFromPrevious_eq_ok copyData
  obtain ⟨stringTable, hstringTable, rfl⟩ := WriteCache.copyFromPrevious_eq_ok copyTable
  exact ⟨json, stream, data, stringTable, ⟨hjson, hstream, hdata, hstringTable⟩, rfl⟩

/-- What a writing that succeeds has written. -/
structure Written (p : Platform) (context : SensorContext) (cacheKey : CacheKey) (response : Response)
    (file : InputFile) (fs : FileSystem) (cache cache' : WriteCache) (sequence : Bytes)
    (manifest : FilesManifest) (result : SerializationResult) : Prop where
  files : SequenceSerialization.writeToCache context.workDir response.ucfgPaths fs = .ok (sequence, manifest)
  tokens : toBinary p.vm response.cpdTokens = .ok result
  entries : cache' = cache.storeEntries context.ucfgPluginVersion cacheKey
    [(.seq, sequence), (.json, p.manifestGson.toJson manifest), (.data, result.data),
      (.stringTable, result.stringTable), (.metadata, p.metadataGson.toJson (FileMetadata.from p file))]

theorem write_eq_ok {response : Response} {file : InputFile} {state : AnalysisState} {cache' : WriteCache}
    (h : CacheAnalysisSerialization.writeToCache p context cacheKey response.ucfgPaths response.cpdTokens file
      state = (.ok (), cache')) :
    ∃ sequence manifest result, Written p context cacheKey response file state.fs state.nextCache cache'
      sequence manifest result := by
  rw [CacheAnalysisSerialization.writeToCache] at h
  split at h
  · cases h
  rename_i sequence manifest hfiles
  obtain ⟨_, _, hseq, h⟩ := andThen_eq_ok h
  obtain ⟨_, _, hjson, h⟩ := andThen_eq_ok h
  split at h
  · cases h
  rename_i result htokens
  obtain ⟨_, _, hdata, h⟩ := andThen_eq_ok h
  obtain ⟨_, _, htable, hmetadata⟩ := andThen_eq_ok h
  obtain ⟨-, rfl⟩ := WriteCache.write_eq_ok hseq
  obtain ⟨-, rfl⟩ := WriteCache.write_eq_ok hjson
  obtain ⟨-, rfl⟩ := WriteCache.write_eq_ok hdata
  obtain ⟨-, rfl⟩ := WriteCache.write_eq_ok htable
  obtain ⟨-, rfl⟩ := WriteCache.write_eq_ok hmetadata
  exact ⟨sequence, manifest, result, hfiles, htokens, rfl⟩

/-- A writing that fails does so before the metadata. -/
theorem extends_write_error {response : Response} {file : InputFile} {state : AnalysisState}
    {e : JavaException} {cache' : WriteCache}
    (h : CacheAnalysisSerialization.writeToCache p context cacheKey response.ucfgPaths response.cpdTokens file
      state = (.error e, cache')) :
    WriteCache.Extends (DataKey context cacheKey) state.nextCache cache' := by
  rw [CacheAnalysisSerialization.writeToCache] at h
  split at h
  · obtain ⟨-, rfl⟩ := Prod.mk.inj h
    exact .refl
  have hwrite : ∀ (kind : CacheKey.EntryKind) {bytes : Bytes} {cache cache' : WriteCache}
      {result : Except JavaException Unit}, kind ≠ .metadata →
      cache.write (cacheKey.entryKey context.ucfgPluginVersion kind) bytes = (result, cache') →
      WriteCache.Extends (DataKey context cacheKey) cache cache' := by
    intro kind bytes cache cache' result hkind hresult
    have hkey : DataKey context cacheKey (cacheKey.entryKey context.ucfgPluginVersion kind) := ⟨kind, hkind, rfl⟩
    have hextends := @WriteCache.extends_write (DataKey context cacheKey) cache _ bytes hkey
    rwa [hresult] at hextends
  rcases andThen_eq_error h with hseq | ⟨_, _, hseq, h⟩
  · exact hwrite .seq nofun hseq
  refine .trans (hwrite .seq nofun hseq) ?_
  rcases andThen_eq_error h with hjson | ⟨_, _, hjson, h⟩
  · exact hwrite .json nofun hjson
  refine .trans (hwrite .json nofun hjson) ?_
  split at h
  · obtain ⟨-, rfl⟩ := Prod.mk.inj h
    exact .refl
  rcases andThen_eq_error h with hdata | ⟨_, _, hdata, h⟩
  · exact hwrite .data nofun hdata
  refine .trans (hwrite .data nofun hdata) ?_
  rcases andThen_eq_error h with htable | ⟨_, _, htable, h⟩
  · exact hwrite .stringTable nofun htable
  exact .trans (hwrite .stringTable nofun htable) (WriteCache.extends_write_error h)

/-- What `readFromCache` leaves: with an analysis, its entries are copied; without one, nothing is. -/
theorem readFromCache_cases {state state' : AnalysisState} {result : Except JavaException (Option CpdData)}
    (h : CacheStrategies.readFromCache p context cacheKey state = (result, state')) :
    (∃ e, result = .error e ∧ WriteCache.Extends (DataKey context cacheKey) state.nextCache state'.nextCache) ∨
    (result = .ok none ∧ state'.nextCache = state.nextCache ∧
      ∃ message, (CacheAnalysisSerialization.readFromCache p context cacheKey state.fs).1 =
        .error (.io message)) ∨
    ∃ cpdTokens json stream data stringTable, result = .ok (some cpdTokens) ∧
      (CacheAnalysisSerialization.readFromCache p context cacheKey state.fs).1 = .ok cpdTokens ∧
      Entries context cacheKey json stream data stringTable ∧
      state'.nextCache = state.nextCache.storeEntries context.ucfgPluginVersion cacheKey
        [(.json, json.content), (.seq, stream.content), (.data, data.content),
          (.stringTable, stringTable.content)] ∧
      WriteCache.Extends (DataKey context cacheKey) state.nextCache state'.nextCache := by
  rw [CacheStrategies.readFromCache] at h
  rcases hread : CacheAnalysisSerialization.readFromCache p context cacheKey state.fs with ⟨e | cpdTokens, fs⟩
  · rw [hread] at h
    cases e with
    | io message =>
      obtain ⟨rfl, rfl⟩ := Prod.mk.inj h
      exact .inr (.inl ⟨rfl, rfl, message, rfl⟩)
    | _ =>
      obtain ⟨rfl, rfl⟩ := Prod.mk.inj h
      exact .inl ⟨_, rfl, .refl⟩
  · rw [hread] at h
    have hextends := @extends_copy context cacheKey state.nextCache
    rcases hcopy : CacheAnalysisSerialization.copyFromPrevious context cacheKey state.nextCache with ⟨e | _, cache⟩
    · rw [hcopy] at h hextends
      obtain ⟨rfl, rfl⟩ := Prod.mk.inj h
      exact .inl ⟨e, rfl, hextends⟩
    · rw [hcopy] at h hextends
      obtain ⟨rfl, rfl⟩ := Prod.mk.inj h
      obtain ⟨json, stream, data, stringTable, hentries, rfl⟩ := copy_eq_ok hcopy
      exact .inr (.inr ⟨cpdTokens, json, stream, data, stringTable, rfl, rfl, hentries, rfl, hextends⟩)

end Analysis

section Strategy

variable {p : Platform} {context : SensorContext} {version : Option String} {state state' : AnalysisState}

/-- What a hit returns, and what it copies. -/
structure Reads (p : Platform) (context : SensorContext) (version : Option String) (file : InputFile)
    (state state' : AnalysisState) (decision : Decision) (cpdTokens : CpdData)
    (json stream data stringTable : InputStream) : Prop where
  decision : decision = ⟨.readAndWrite cpdTokens (.forFile file.key version), none⟩
  runtime : CacheStrategies.isRuntimeApiCompatible context = true
  skip : context.canSkipUnchangedFiles = true
  hit : Hit p context (.forFile file.key version) file json stream data stringTable
  tokens : (CacheAnalysisSerialization.readFromCache p context (.forFile file.key version) state.fs).1 =
    .ok cpdTokens
  entries : state'.nextCache = state.nextCache.storeEntries context.ucfgPluginVersion (.forFile file.key version)
    [(.json, json.content), (.seq, stream.content), (.data, data.content), (.stringTable, stringTable.content)]
  grows : WriteCache.Extends (DataKey context (.forFile file.key version)) state.nextCache state'.nextCache

theorem getStrategyFor_next {file : InputFile} {result : Except JavaException Decision}
    (h : CacheStrategies.getStrategyFor p context file version state = (result, state')) :
    (∃ e, result = .error e ∧
      WriteCache.Extends (DataKey context (.forFile file.key version)) state.nextCache state'.nextCache) ∨
    (∃ decision, result = .ok decision ∧ state'.nextCache = state.nextCache ∧
      (decision.strategy = .noCache ∨ decision.strategy = .writeOnly (.forFile file.key version))) ∨
    ∃ decision cpdTokens json stream data stringTable, result = .ok decision ∧
      Reads p context version file state state' decision cpdTokens json stream data stringTable := by
  have houtcome := getStrategyFor_outcome p context file version state
  rw [h] at houtcome
  generalize hpair : (result, state') = pair at houtcome
  cases houtcome with
  | noCache _ =>
    obtain ⟨rfl, rfl⟩ := Prod.mk.inj hpair
    exact .inr (.inl ⟨_, rfl, rfl, .inl rfl⟩)
  | missed reason _ _ =>
    obtain ⟨rfl, rfl⟩ := Prod.mk.inj hpair
    exact .inr (.inl ⟨_, rfl, rfl, .inr rfl⟩)
  | badMetadata e _ _ _ _ =>
    obtain ⟨rfl, rfl⟩ := Prod.mk.inj hpair
    exact .inl ⟨e, rfl, .refl⟩
  | hit hruntime hskip hhit =>
    rcases hread : CacheStrategies.readFromCache p context (.forFile file.key version) state with ⟨r, s⟩
    rw [hread] at hpair
    rcases readFromCache_cases hread with ⟨e, rfl, hextends⟩ | ⟨rfl, hnext, -⟩ |
      ⟨cpdTokens, json, stream, data, stringTable, rfl, htokens, hentries, hnext, hgrows⟩
    · obtain ⟨rfl, rfl⟩ := Prod.mk.inj hpair
      exact .inl ⟨e, rfl, hextends⟩
    · obtain ⟨rfl, rfl⟩ := Prod.mk.inj hpair
      exact .inr (.inl ⟨_, rfl, hnext, .inr rfl⟩)
    · obtain ⟨rfl, rfl⟩ := Prod.mk.inj hpair
      exact .inr (.inr ⟨_, cpdTokens, json, stream, data, stringTable, rfl,
        ⟨rfl, hruntime, hskip, ⟨hhit.sameFile, hentries⟩, htokens, hnext, hgrows⟩⟩)

/-- The file is analyzed, and the analysis is written. -/
structure Stores (p : Platform) (context : SensorContext) (version : Option String) (request : Request)
    (state state' : AnalysisState) (decision : Decision) (response : Response) (sequence : Bytes)
    (manifest : FilesManifest) (result : SerializationResult) : Prop where
  strategy : decision.strategy = .writeOnly (.forFile request.file.key version)
  written : ∃ state₁ fs, CacheStrategies.getStrategyFor p context request.file version state =
      (.ok decision, state₁) ∧ request.analyze state₁.fs = (.ok response, fs) ∧
    Written p context (.forFile request.file.key version) response request.file fs state.nextCache
      state'.nextCache sequence manifest result

/-- The analysis of a file stores it with its metadata, or leaves its metadata alone. -/
theorem analyzeFile_next {request : Request} {result : Except JavaException Decision}
    (h : analyzeFile p context version request state = (result, state')) :
    (WriteCache.Extends (DataKey context (.forFile request.file.key version)) state.nextCache state'.nextCache ∧
      ∀ decision, result = .ok decision → decision.strategy.name ≠ .WRITE_ONLY) ∨
    ∃ decision response sequence manifest serialized, result = .ok decision ∧
      Stores p context version request state state' decision response sequence manifest serialized := by
  rw [analyzeFile] at h
  rcases hstrategy : CacheStrategies.getStrategyFor p context request.file version state with ⟨r, state₁⟩
  rw [hstrategy] at h
  rcases getStrategyFor_next hstrategy with ⟨e, rfl, hextends⟩ | ⟨decision, rfl, hnext, hname⟩ |
    ⟨decision, cpdTokens, json, stream, data, stringTable, rfl, hreads⟩
  · obtain ⟨rfl, rfl⟩ := Prod.mk.inj h
    exact .inl ⟨hextends, fun _ hok => by cases hok⟩
  · obtain ⟨strategy, reason⟩ := decision
    have hrequired : strategy.isAnalysisRequired = true := by
      rcases hname with rfl | rfl
      · rfl
      · rfl
    rw [andThen_ok] at h
    dsimp only at h hname
    rw [if_pos hrequired] at h
    rcases hanswer : request.analyze state₁.fs with ⟨e | response, fs⟩
    · rw [hanswer] at h
      obtain ⟨rfl, rfl⟩ := Prod.mk.inj h
      exact .inl ⟨hnext ▸ .refl, fun _ hok => by cases hok⟩
    rw [hanswer] at h
    dsimp only at h
    rcases hname with rfl | rfl
    · obtain ⟨rfl, rfl⟩ := Prod.mk.inj h
      refine .inl ⟨hnext ▸ .refl, fun decision hok => ?_⟩
      obtain rfl := Except.ok.inj hok
      exact nofun
    rw [writeAnalysisToCache, CacheStrategy.writeOnly] at h
    dsimp only at h
    rcases hwrite : CacheAnalysisSerialization.writeToCache p context (.forFile request.file.key version)
      response.ucfgPaths response.cpdTokens request.file { state₁ with fs := fs } with ⟨e | _, cache⟩
    · rw [hwrite] at h
      obtain ⟨rfl, rfl⟩ := Prod.mk.inj h
      have hextends := extends_write_error hwrite
      exact .inl ⟨hnext ▸ hextends, fun _ hok => by cases hok⟩
    · rw [hwrite] at h
      obtain ⟨rfl, rfl⟩ := Prod.mk.inj h
      obtain ⟨sequence, manifest, serialized, hwritten⟩ := write_eq_ok hwrite
      exact .inr ⟨_, response, sequence, manifest, serialized, rfl, rfl,
        state₁, fs, hstrategy, hanswer, hnext ▸ hwritten⟩
  · have hrequired : decision.strategy.isAnalysisRequired = false := by
      rw [hreads.decision]
      rfl
    rw [andThen_ok, hrequired, if_neg Bool.false_ne_true] at h
    obtain ⟨rfl, rfl⟩ := Prod.mk.inj h
    refine .inl ⟨hreads.grows, fun decision' hok => ?_⟩
    obtain rfl := Except.ok.inj hok
    rw [hreads.decision]
    exact nofun

end Strategy

end SonarJavascript.Cache
