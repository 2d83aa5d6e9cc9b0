import SonarJavascript.Cache.Runs
import Mathlib.Logic.Equiv.Basic

/-!
# Hits

A hit returns the tokens that the run before has stored under the same key for the same bytes. The key and
the bytes are not the version, the file and its content: a key can be that of another file in a run without
a version, and a charset encodes two contents to the same bytes when it lacks some of their characters.
-/

namespace SonarJavascript.Cache

/-- The JSON of a value is read back. -/
def Gson.RoundTrips {P : Type} (gson : Gson P) (value : P) : Prop :=
  gson.fromJson (gson.toJson value) = some (some value)

section Hits

variable {p : Platform} {run : Run} {history : List Run}

theorem cacheAfter_append (last : Run) :
    cacheAfter p (history ++ [last]) = nextCache p last (cacheAfter p history) := by
  rw [cacheAfter, List.foldl_append]
  rfl

/-- What stands beside metadata in the previous cache. -/
theorem stored_of_metadata {fileKey : String} {version : Option String} {bytes : Bytes}
    (h : cacheAfter p history (CacheKey.forFile fileKey version).metadataKey = some bytes) :
    ∃ before last earlier task response sequence manifest result, history = before ++ [last] ∧
      (∃ later, last.tasks = earlier ++ task :: later) ∧
      StoredAfter p last (cacheAfter p before) earlier task response sequence manifest result ∧
      (last.key task.request.file).suffix = (CacheKey.forFile fileKey version).suffix ∧
      bytes = p.metadataGson.toJson (FileMetadata.from p task.request.file) ∧
      cacheAfter p history (CacheKey.forFile fileKey version).dataKey = some result.data ∧
      cacheAfter p history (CacheKey.forFile fileKey version).stringTableKey = some result.stringTable := by
  rcases List.eq_nil_or_concat history with rfl | ⟨before, last, rfl⟩
  · cases h
  rw [List.concat_eq_append, cacheAfter_append] at h ⊢
  obtain ⟨earlier, task, later, response, sequence, manifest, result, htasks, hstored, hsuffix, hbytes, hdata,
    htable⟩ := sound last.tasks fileKey version bytes h
  exact ⟨before, last, earlier, task, response, sequence, manifest, result, rfl, ⟨later, htasks⟩, hstored,
    hsuffix, hbytes, hdata, htable⟩

theorem fromBinary_of_toBinary {cpdTokens : CpdData} {result : SerializationResult}
    (h : toBinary p.vm cpdTokens = .ok result) :
    fromBinary p.vm result.data result.stringTable = .ok cpdTokens := by
  rw [fromBinary, convert_toBinary h]
  rfl

theorem fromBinary_of_read {context : SensorContext} {cacheKey : CacheKey} {fs : FileSystem}
    {json stream data stringTable : InputStream} {cpdTokens : CpdData}
    (hentries : Entries context cacheKey json stream data stringTable)
    (h : (CacheAnalysisSerialization.readFromCache p context cacheKey fs).1 = .ok cpdTokens) :
    fromBinary p.vm data.content stringTable.content = .ok cpdTokens := by
  rw [← @readCpdData_eq p _ _ _ _ _ _ hentries]
  rcases hread : CacheAnalysisSerialization.readFromCache p context cacheKey fs with ⟨r, fs'⟩
  rw [hread] at h
  obtain rfl : r = .ok cpdTokens := h
  obtain ⟨_, _, -, htokens⟩ := andThen_eq_ok hread
  exact (Prod.mk.inj htokens).1

theorem content_of_previousCache {previous : Contents} {key : String} {input : InputStream} {bytes : Bytes}
    (hinput : (run.context previous).previousCache key = some input) (h : previous key = some bytes) :
    input.content = bytes := by
  obtain ⟨bytes', hbytes, rfl⟩ := Option.map_eq_some_iff.mp hinput
  exact Option.some.inj (hbytes.symm.trans h)

theorem bytesOf_of_compareTo (hdigest : Function.Injective p.digest) {file other : InputFile}
    (h : (FileMetadata.from p other).compareTo p file = true) :
    FileMetadata.bytesOf other = FileMetadata.bytesOf file := by
  rw [FileMetadata.compareTo, Bool.and_eq_true] at h
  exact hdigest (Option.some.inj (of_decide_eq_true h.2))

/-- The tokens of a hit have been stored by an earlier run, under the same key and for the same bytes. -/
theorem hit_returns_stored (hdigest : Function.Injective p.digest)
    (hjson : ∀ earlier ∈ history, ∀ task ∈ earlier.tasks,
      p.metadataGson.RoundTrips (FileMetadata.from p task.request.file))
    {file : InputFile} {state : AnalysisState} {decision : Decision}
    (h : (CacheStrategies.getStrategyFor p (run.context (cacheAfter p history)) file run.pluginVersion
      state).1 = .ok decision)
    (hname : decision.strategy.name = .READ_AND_WRITE) :
    ∃ before last earlier task response sequence manifest result,
      history = before ++ [last] ∧ (∃ later, last.tasks = earlier ++ task :: later) ∧
      StoredAfter p last (cacheAfter p before) earlier task response sequence manifest result ∧
      decision.strategy.cacheAnalysis = some response.cpdTokens ∧
      (last.key task.request.file).suffix = (run.key file).suffix ∧
      FileMetadata.bytesOf task.request.file = FileMetadata.bytesOf file := by
  rcases hstrategy : CacheStrategies.getStrategyFor p (run.context (cacheAfter p history)) file
    run.pluginVersion state with ⟨r, state'⟩
  rw [hstrategy] at h
  obtain rfl : r = .ok decision := h
  obtain ⟨cpdTokens, json, stream, data, stringTable, hreads⟩ : ∃ cpdTokens json stream data stringTable,
      Reads p (run.context (cacheAfter p history)) run.pluginVersion file state state' decision cpdTokens json
        stream data stringTable := by
    rcases getStrategyFor_next hstrategy with ⟨e, he, -⟩ | ⟨decision', hok, -, hmiss⟩ |
      ⟨decision', cpdTokens, json, stream, data, stringTable, hok, hreads⟩
    · cases he
    · obtain rfl := Except.ok.inj hok
      rcases hmiss with hmiss | hmiss <;> rw [hmiss] at hname <;> cases hname
    · obtain rfl := Except.ok.inj hok
      exact ⟨cpdTokens, json, stream, data, stringTable, hreads⟩
  obtain ⟨input, fileMetadata, hinput, hparsed, hsame⟩ := hreads.hit.sameFile
  obtain ⟨bytes, hbytes, rfl⟩ : ∃ bytes, cacheAfter p history (run.key file).metadataKey = some bytes ∧
      input = ⟨bytes, _⟩ := by
    obtain ⟨bytes, hbytes, heq⟩ := Option.map_eq_some_iff.mp hinput
    exact ⟨bytes, hbytes, heq.symm⟩
  obtain ⟨before, last, earlier, task, response, sequence, manifest, result, hhistory, ⟨later, htasks⟩, hstored,
    hsuffix, hmetadata, hdata, htable⟩ := stored_of_metadata hbytes
  have hroundTrip : p.metadataGson.RoundTrips (FileMetadata.from p task.request.file) :=
    hjson last (by simp [hhistory]) task (by simp [htasks])
  have hfile : fileMetadata = FileMetadata.from p task.request.file := by
    rw [hmetadata] at hparsed
    exact Option.some.inj (Option.some.inj (hparsed.symm.trans hroundTrip))
  have htokens : cpdTokens = response.cpdTokens := by
    obtain ⟨decision', -, hstores⟩ := hstored
    obtain ⟨state₁, fs, -, -, hwritten⟩ := hstores.written
    have hread := fromBinary_of_read hreads.hit.entries hreads.tokens
    rw [content_of_previousCache hreads.hit.entries.data hdata,
      content_of_previousCache hreads.hit.entries.stringTable htable,
      fromBinary_of_toBinary hwritten.tokens] at hread
    exact (Except.ok.inj hread).symm
  refine ⟨before, last, earlier, task, response, sequence, manifest, result, hhistory, ⟨later, htasks⟩,
    hstored, ?_, hsuffix, bytesOf_of_compareTo hdigest (hfile ▸ hsame)⟩
  rw [hreads.decision, ← htokens]
  rfl

/-- The run before has stored the tokens of a hit, for a file with the same key in the cache and the same
bytes. The same file has had the same version. When both runs have a version, and there is no colon in
it, file and version are the same. Where the charset is the same and loses nothing, so is the content. -/
theorem hit_sound (hdigest : Function.Injective p.digest)
    (hjson : ∀ earlier ∈ history, ∀ task ∈ earlier.tasks,
      p.metadataGson.RoundTrips (FileMetadata.from p task.request.file))
    {file : InputFile} {state : AnalysisState} {decision : Decision}
    (h : (CacheStrategies.getStrategyFor p (run.context (cacheAfter p history)) file run.pluginVersion
      state).1 = .ok decision)
    (hname : decision.strategy.name = .READ_AND_WRITE) :
    ∃ before last earlier task response sequence manifest result,
      history = before ++ [last] ∧ (∃ later, last.tasks = earlier ++ task :: later) ∧
      StoredAfter p last (cacheAfter p before) earlier task response sequence manifest result ∧
      decision.strategy.cacheAnalysis = some response.cpdTokens ∧
      (last.key task.request.file).suffix = (run.key file).suffix ∧
      FileMetadata.bytesOf task.request.file = FileMetadata.bytesOf file ∧
      (task.request.file.key = file.key → last.pluginVersion = run.pluginVersion) ∧
      (∀ version version', last.pluginVersion = some version → run.pluginVersion = some version' →
        ':' ∉ version.toList → ':' ∉ version'.toList →
          version = version' ∧ task.request.file.key = file.key) ∧
      (task.request.file.encode = file.encode → Function.Injective file.encode →
        task.request.file.contents = file.contents) := by
  obtain ⟨before, last, earlier, task, response, sequence, manifest, result, hhistory, htasks, hstored, htokens,
    hsuffix, hbytes⟩ := hit_returns_stored hdigest hjson h hname
  refine ⟨before, last, earlier, task, response, sequence, manifest, result, hhistory, htasks, hstored, htokens,
    hsuffix, hbytes, fun hkey => ?_, fun version version' hversion hversion' hcolon hcolon' => ?_,
    fun hencode hinjective => ?_⟩
  · rw [Run.key, Run.key, hkey] at hsuffix
    exact CacheKey.version_of_suffix hsuffix
  · rw [Run.key, Run.key, hversion, hversion'] at hsuffix
    exact CacheKey.eq_of_suffix hcolon hcolon' hsuffix
  · rw [FileMetadata.bytesOf, FileMetadata.bytesOf, hencode] at hbytes
    exact hinjective hbytes

end Hits

/-! ### A charset that loses characters -/

/-- `getBytes` with US-ASCII. -/
def usAscii (s : String) : Bytes :=
  s.toList.map fun c => if c.toNat < 128 then c.toUInt8 else 63

/-- The digest of a question mark. -/
def questionMarkDigest : Bytes :=
  [138, 141, 232, 35, 213, 237, 62, 18, 116, 106, 98, 239, 22, 155, 207, 55, 43, 224, 202, 68, 240, 161, 35, 106,
    188, 53, 223, 5, 217, 105, 40, 225]

def questionMarkPlatform : Platform where
  vm := hotSpot
  digest := Equiv.swap [63] questionMarkDigest
  metadataGson := Gson.known metadataJson [⟨1, some questionMarkDigest⟩]
  manifestGson := Gson.known manifestJson [⟨some []⟩]

/-- The character that undecodable bytes are decoded to. -/
def undecodable : InputFile :=
  ⟨"project:src/test.js", "\uFFFD", usAscii⟩

def questionMark : InputFile :=
  ⟨"project:src/test.js", "?", usAscii⟩

def asciiRun (file : InputFile) (cpdTokens : CpdData) : Run where
  apiVersion := (9, 6)
  product := .SONARQUBE
  canSkipUnchangedFiles := true
  workDir := ["work"]
  ucfgPluginVersion := none
  pluginVersion := some "1.0.0"
  sizes _ := []
  fs := .empty
  tasks := [⟨⟨file, fun fs => (.ok ⟨none, cpdTokens⟩, fs)⟩, none⟩]

theorem hit_of_undecodable :
    (CacheStrategies.getStrategyFor questionMarkPlatform
      ((asciiRun questionMark []).context (cacheAfter questionMarkPlatform
        [asciiRun undecodable [⟨⟨1, 0, 1, 1⟩, "\uFFFD"⟩]]))
      questionMark (some "1.0.0") (asciiRun questionMark []).start).1 =
      .ok ⟨.readAndWrite [⟨⟨1, 0, 1, 1⟩, "\uFFFD"⟩] (.forFile "project:src/test.js" (some "1.0.0")), none⟩ := by
  decide +kernel

theorem roundTrips_undecodable (cpdTokens : CpdData) : ∀ earlier ∈ [asciiRun undecodable cpdTokens],
    ∀ task ∈ earlier.tasks,
      questionMarkPlatform.metadataGson.RoundTrips (FileMetadata.from questionMarkPlatform task.request.file) := by
  rintro _ (_ | ⟨_, ⟨⟩⟩) _ (_ | ⟨_, ⟨⟩⟩)
  have hmetadata : FileMetadata.from questionMarkPlatform undecodable = ⟨1, some questionMarkDigest⟩ := by
    decide
  show Gson.RoundTrips _ (FileMetadata.from questionMarkPlatform undecodable)
  rw [hmetadata]
  show (Gson.known metadataJson [⟨1, some questionMarkDigest⟩]).fromJson
    (metadataJson ⟨1, some questionMarkDigest⟩) = _
  decide

theorem hit_sound_undecodable : ∃ before last earlier task response sequence manifest result,
    [asciiRun undecodable [⟨⟨1, 0, 1, 1⟩, "\uFFFD"⟩]] = before ++ [last] ∧
    StoredAfter questionMarkPlatform last (cacheAfter questionMarkPlatform before) earlier task response
      sequence manifest result ∧
    response.cpdTokens = [⟨⟨1, 0, 1, 1⟩, "\uFFFD"⟩] ∧
    FileMetadata.bytesOf task.request.file = FileMetadata.bytesOf questionMark ∧
    (task.request.file.key = questionMark.key → last.pluginVersion = some "1.0.0") := by
  obtain ⟨before, last, earlier, task, response, sequence, manifest, result, hhistory, -, hstored, htokens, -,
    hbytes, hversion, -⟩ := @hit_sound questionMarkPlatform (asciiRun questionMark []) _
      (Equiv.swap [63] questionMarkDigest).injective (roundTrips_undecodable _) questionMark _ _
      hit_of_undecodable rfl
  exact ⟨before, last, earlier, task, response, sequence, manifest, result, hhistory, hstored,
    (Option.some.inj htokens).symm, hbytes, hversion⟩

/-- The tokens of another content are returned when both contents are encoded to a question mark. -/
theorem other_content_hit :
    ¬ ∀ (p : Platform) (history : List Run) (run : Run) (file : InputFile) (state : AnalysisState)
      (decision : Decision), Function.Injective p.digest →
      (∀ earlier ∈ history, ∀ task ∈ earlier.tasks,
        p.metadataGson.RoundTrips (FileMetadata.from p task.request.file)) →
      (CacheStrategies.getStrategyFor p (run.context (cacheAfter p history)) file run.pluginVersion state).1 =
        .ok decision →
      decision.strategy.name = .READ_AND_WRITE →
      ∃ before last after earlier task response sequence manifest result,
        history = before ++ last :: after ∧ (∃ later, last.tasks = earlier ++ task :: later) ∧
        StoredAfter p last (cacheAfter p before) earlier task response sequence manifest result ∧
        decision.strategy.cacheAnalysis = some response.cpdTokens ∧
        last.pluginVersion = run.pluginVersion ∧ task.request.file.contents = file.contents := by
  intro h
  obtain ⟨before, last, after, earlier, task, response, sequence, manifest, result, hhistory, ⟨later, htasks⟩, -, -,
    -, hcontents⟩ := h questionMarkPlatform _ (asciiRun questionMark []) questionMark _ _
      (Equiv.swap [63] questionMarkDigest).injective (roundTrips_undecodable _) hit_of_undecodable rfl
  have hlast : last ∈ [asciiRun undecodable [⟨⟨1, 0, 1, 1⟩, "\uFFFD"⟩]] := by
    rw [hhistory]
    exact List.mem_append_right _ List.mem_cons_self
  obtain rfl := List.mem_singleton.mp hlast
  have htask : task ∈ (asciiRun undecodable [⟨⟨1, 0, 1, 1⟩, "\uFFFD"⟩]).tasks := by
    rw [htasks]
    exact List.mem_append_right _ List.mem_cons_self
  obtain rfl := List.mem_singleton.mp htask
  exact absurd hcontents (by decide)

end SonarJavascript.Cache
