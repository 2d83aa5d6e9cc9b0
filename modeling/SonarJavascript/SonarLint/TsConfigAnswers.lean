import SonarJavascript.Lib.ListResults
import SonarJavascript.SonarLint.TsConfigCache

/-!
# Answers of the tsconfig cache

Between two clears, a cache is an exploration of the tsconfigs from its original list, with a map of the
files that the visited ones list. A query visits until the map has the file, or until nothing is left.
-/

namespace SonarJavascript.SonarLint

open SonarJavascript.Cache (JavaException)
open Exploration ListResults

variable {host : Host}

/-- The answer is a tsconfig that lists the file and can be reached from these, if there is one. -/
def Correct (host : Host) (tsConfigPaths : List String) (inputFilePath : String) (answer : Option TsConfigFile) :
    Prop :=
  (∀ tsConfigFile, answer = some tsConfigFile →
    ∃ path, Reaches (references host) tsConfigPaths path ∧ tsConfigFile = host.loadTsConfig path ∧
      inputFilePath ∈ tsConfigFile.files) ∧
  (answer = none ↔
    ¬ ∃ path, Reaches (references host) tsConfigPaths path ∧ inputFilePath ∈ (host.loadTsConfig path).files)

/-! ### The order of the pending tsconfigs -/

theorem splitByFolder_perm (inputFile : InputFile) {pending : List String}
    (h : ∀ ts ∈ pending, ∃ folder, host.parentFolder ts = .ok folder) :
    ∃ matching notMatching, Cache.splitByFolder host inputFile pending = .ok (matching, notMatching) ∧
      (matching ++ notMatching).Perm pending := by
  induction pending with
  | nil => exact ⟨[], [], rfl, .refl _⟩
  | cons ts pending ih =>
    obtain ⟨folder, hfolder⟩ := h ts List.mem_cons_self
    obtain ⟨matching, notMatching, hrest, hperm⟩ := ih fun other hother => h other (List.mem_cons_of_mem _ hother)
    rw [Cache.splitByFolder, hfolder, hrest, ok_bind, ok_bind]
    dsimp only
    split
    · exact ⟨ts :: matching, notMatching, rfl, hperm.cons ts⟩
    · exact ⟨matching, ts :: notMatching, rfl, List.perm_middle.trans (hperm.cons ts)⟩

theorem improvedPendingTsConfigOrder_perm (inputFile : InputFile) {pending : List String}
    (h : ∀ ts ∈ pending, ∃ folder, host.parentFolder ts = .ok folder) :
    ∃ ordered, Cache.improvedPendingTsConfigOrder host inputFile pending = .ok ordered ∧ ordered.Perm pending := by
  obtain ⟨matching, notMatching, hsplit, hperm⟩ := splitByFolder_perm inputFile h
  exact ⟨_, by rw [Cache.improvedPendingTsConfigOrder, hsplit]; rfl, hperm⟩

/-! ### One turn of the loop -/

namespace Cache

def frontier (cache : Cache) : Frontier String :=
  ⟨cache.pendingTsConfigFiles, cache.discoveredTsConfigFiles⟩

/-- References only change the frontier. -/
theorem addProjectReferences_eq (tsConfigFile : TsConfigFile) (cache : Cache) :
    addProjectReferences tsConfigFile cache =
      { cache with
        discoveredTsConfigFiles := (cache.frontier.discover tsConfigFile.projectReferences).discovered
        pendingTsConfigFiles := (cache.frontier.discover tsConfigFile.projectReferences).pending } := by
  rw [addProjectReferences]
  generalize tsConfigFile.projectReferences = refPaths
  induction refPaths generalizing cache with
  | nil => rfl
  | cons refPath refPaths ih =>
    rw [List.foldl_cons, ih]
    by_cases h : refPath ∈ cache.discoveredTsConfigFiles
    · have hdiscover : cache.frontier.discover (refPath :: refPaths) = cache.frontier.discover refPaths := by
        rw [Frontier.discover, List.foldl_cons, if_pos (show refPath ∈ cache.frontier.discovered from h)]
        rfl
      rw [if_pos h, hdiscover]
    · have hdiscover : cache.frontier.discover (refPath :: refPaths) =
          (⟨refPath :: cache.pendingTsConfigFiles, insert refPath cache.discoveredTsConfigFiles⟩ :
            Frontier String).discover refPaths := by
        rw [Frontier.discover, List.foldl_cons, if_neg (show refPath ∉ cache.frontier.discovered from h)]
        rfl
      rw [if_neg h, hdiscover]
      rfl

/-- A file that a tsconfig has been found for keeps it. -/
theorem foldl_putIfAbsent (tsConfigFile : TsConfigFile) (files : List String)
    (map : String → Option (Option TsConfigFile)) (file : String) :
    files.foldl (putIfAbsent tsConfigFile) map file =
      match map file with
      | some (some found) => some (some found)
      | absent => if file ∈ files then some (some tsConfigFile) else absent := by
  induction files generalizing map with
  | nil =>
    rw [List.foldl_nil]
    rcases map file with _ | _ | found <;> simp
  | cons first files ih =>
    rw [List.foldl_cons, ih, putIfAbsent]
    by_cases heq : file = first
    · subst heq
      rcases hfile : map file with _ | _ | found
      · simp
      · simp
      · simp [hfile]
    · rcases hfirst : map first with _ | _ | found
      · simp [heq]
      · simp [heq]
      · simp [heq]

/-- The cache after the visit of a tsconfig. -/
def visit (host : Host) (tsConfigPath : String) (rest : List String) (cache : Cache) : Cache :=
  addProjectReferences (host.loadTsConfig tsConfigPath)
    (addFiles (host.loadTsConfig tsConfigPath) { cache with pendingTsConfigFiles := rest })

/-- What holds between two visits. A file has the value null only when nothing is left to visit. -/
structure Inv (host : Host) (cache : Cache) (loaded : List String) : Prop where
  explored : Explored (references host) cache.originalTsConfigFiles loaded cache.frontier
  listed : ∀ file tsConfigFile, cache.inputFileToTsConfigFilesMap file = some (some tsConfigFile) →
    ∃ path ∈ loaded, tsConfigFile = host.loadTsConfig path ∧ file ∈ tsConfigFile.files
  covered : ∀ path ∈ loaded, ∀ file ∈ (host.loadTsConfig path).files,
    ∃ tsConfigFile, cache.inputFileToTsConfigFilesMap file = some (some tsConfigFile)
  exhausted : ∀ file, cache.inputFileToTsConfigFilesMap file = some none → cache.pendingTsConfigFiles = []
  uninitialized : cache.initialized = false → cache.originalTsConfigFiles = []

variable {cache : Cache} {loaded : List String}

theorem inv_clearFileToTsConfigCache (h : cache.initialized = false → cache.originalTsConfigFiles = []) :
    Inv host cache.clearFileToTsConfigCache [] where
  explored := explored_start
  listed := nofun
  covered := nofun
  exhausted := nofun
  uninitialized := h

theorem inv_create : Inv host create [] where
  explored := explored_start
  listed := nofun
  covered := nofun
  exhausted := nofun
  uninitialized _ := rfl

theorem Inv.reorder (h : Inv host cache loaded) {ordered : List String}
    (hperm : ordered.Perm cache.pendingTsConfigFiles) :
    Inv host { cache with pendingTsConfigFiles := ordered } loaded where
  explored := h.explored.reorder hperm
  listed := h.listed
  covered := h.covered
  exhausted file hfile := by
    have hnil := h.exhausted file hfile
    rw [hnil] at hperm
    exact hperm.eq_nil
  uninitialized := h.uninitialized

theorem visit_map (tsConfigPath : String) (rest : List String) (cache : Cache) (file : String) :
    (cache.visit host tsConfigPath rest).inputFileToTsConfigFilesMap file =
      match cache.inputFileToTsConfigFilesMap file with
      | some (some found) => some (some found)
      | absent =>
        if file ∈ (host.loadTsConfig tsConfigPath).files then some (some (host.loadTsConfig tsConfigPath))
        else absent := by
  rw [visit, addProjectReferences_eq]
  exact foldl_putIfAbsent _ _ _ _

theorem visit_frontier (tsConfigPath : String) (rest : List String) (cache : Cache) :
    (cache.visit host tsConfigPath rest).frontier =
      (⟨rest, cache.discoveredTsConfigFiles⟩ : Frontier String).discover (references host tsConfigPath) := by
  rw [visit, addProjectReferences_eq]
  rfl

theorem visit_originalTsConfigFiles (tsConfigPath : String) (rest : List String) (cache : Cache) :
    (cache.visit host tsConfigPath rest).originalTsConfigFiles = cache.originalTsConfigFiles := by
  rw [visit, addProjectReferences_eq]
  rfl

theorem visit_initialized (tsConfigPath : String) (rest : List String) (cache : Cache) :
    (cache.visit host tsConfigPath rest).initialized = cache.initialized := by
  rw [visit, addProjectReferences_eq]
  rfl

theorem Inv.visit (h : Inv host cache loaded) {tsConfigPath : String} {rest : List String}
    (hpending : cache.pendingTsConfigFiles = tsConfigPath :: rest) :
    Inv host (cache.visit host tsConfigPath rest) (loaded ++ [tsConfigPath]) where
  explored := by
    have hexplored := h.explored
    rw [frontier, hpending] at hexplored
    rw [visit_frontier, visit_originalTsConfigFiles]
    exact hexplored.visit
  listed file tsConfigFile hfile := by
    rw [visit_map] at hfile
    split at hfile
    next found hfound =>
      obtain rfl := Option.some.inj (Option.some.inj hfile)
      obtain ⟨path, hpath, hlisted⟩ := h.listed file _ hfound
      exact ⟨path, List.mem_append_left _ hpath, hlisted⟩
    next hnot =>
      split at hfile
      next hmem =>
        obtain rfl := Option.some.inj (Option.some.inj hfile)
        exact ⟨tsConfigPath, List.mem_append_right _ List.mem_cons_self, rfl, hmem⟩
      next => exact absurd hfile (hnot tsConfigFile)
  covered path hpath file hfile := by
    rw [visit_map]
    rcases List.mem_append.mp hpath with hpath | hpath
    · obtain ⟨found, hfound⟩ := h.covered path hpath file hfile
      rw [hfound]
      exact ⟨found, rfl⟩
    · rw [List.mem_singleton.mp hpath] at hfile
      split
      next found _ => exact ⟨found, rfl⟩
      next =>
        rw [if_pos hfile]
        exact ⟨_, rfl⟩
  exhausted file hfile := by
    -- a tsconfig has been pending, so no file had the value null
    rw [visit_map] at hfile
    split at hfile
    next => cases hfile
    next =>
      split at hfile
      next => cases hfile
      next =>
        have hnil := h.exhausted file hfile
        rw [hpending] at hnil
        cases hnil
  uninitialized := by
    rw [visit_initialized, visit_originalTsConfigFiles]
    exact h.uninitialized

/-! ### Queries -/

theorem Inv.correct (h : Inv host cache loaded) {file : String} {answer : Option TsConfigFile}
    (hfile : cache.inputFileToTsConfigFilesMap file = some answer) :
    Correct host cache.originalTsConfigFiles file answer := by
  cases answer with
  | none =>
    refine ⟨nofun, iff_of_true rfl ?_⟩
    rintro ⟨path, hreaches, hlisted⟩
    have hpath := (h.explored.mem_visited_iff (h.exhausted file hfile)).mpr hreaches
    obtain ⟨found, hfound⟩ := h.covered path hpath file hlisted
    cases hfile.symm.trans hfound
  | some tsConfigFile =>
    obtain ⟨path, hpath, rfl, hlisted⟩ := h.listed file tsConfigFile hfile
    have hreaches := h.explored.reaches_visited hpath
    refine ⟨fun found hfound => ?_, iff_of_false nofun fun hnone => hnone ⟨path, hreaches, hlisted⟩⟩
    obtain rfl := Option.some.inj hfound
    exact ⟨path, hreaches, rfl, hlisted⟩

/-- What a query leaves: the exploration has gone on, and the map has the answer. -/
structure Answers (host : Host) (inputFilePath : String) (cache : Cache) (loaded : List String) (answer : Answer)
    (tsConfigFile : Option TsConfigFile) : Prop where
  result : answer.result = .ok tsConfigFile
  inv : Inv host answer.cache (loaded ++ answer.loaded)
  original : answer.cache.originalTsConfigFiles = cache.originalTsConfigFiles
  correct : Correct host cache.originalTsConfigFiles inputFilePath tsConfigFile
  exhausted : tsConfigFile = none → answer.cache.pendingTsConfigFiles = []

theorem Inv.put_null (h : Inv host cache loaded) (hpending : cache.pendingTsConfigFiles = []) {file : String}
    (hfile : cache.inputFileToTsConfigFilesMap file = none) :
    Inv host { cache with
      inputFileToTsConfigFilesMap := fun other =>
        if other = file then some none else cache.inputFileToTsConfigFilesMap other } loaded where
  explored := h.explored
  listed other tsConfigFile hother := by
    dsimp only at hother
    split at hother
    · cases hother
    · exact h.listed other tsConfigFile hother
  covered path hpath other hother := by
    obtain ⟨found, hfound⟩ := h.covered path hpath other hother
    refine ⟨found, ?_⟩
    dsimp only
    rw [if_neg, hfound]
    rintro rfl
    cases hfile.symm.trans hfound
  exhausted _ _ := hpending
  uninitialized := h.uninitialized

section Search

variable {inputFilePath tsConfigPath : String} {rest : List String} {fuel : ℕ}

theorem search_of_nil (hpending : cache.pendingTsConfigFiles = []) : search host inputFilePath (fuel + 1) cache =
    some ⟨.ok none, [], { cache with
      inputFileToTsConfigFilesMap := fun other =>
        if other = inputFilePath then some none else cache.inputFileToTsConfigFilesMap other }⟩ := by
  rw [search]
  split
  next => rfl
  next hcons => cases hpending.symm.trans hcons

theorem search_of_found {found : TsConfigFile} (hpending : cache.pendingTsConfigFiles = tsConfigPath :: rest)
    (hfound : (cache.visit host tsConfigPath rest).inputFileToTsConfigFilesMap inputFilePath = some (some found)) :
    search host inputFilePath (fuel + 1) cache =
      some ⟨.ok (some found), [tsConfigPath], cache.visit host tsConfigPath rest⟩ := by
  unfold visit at hfound
  rw [search, hpending]
  dsimp only
  rw [hfound]
  rfl

theorem search_of_null (hpending : cache.pendingTsConfigFiles = tsConfigPath :: rest)
    (hfound : (cache.visit host tsConfigPath rest).inputFileToTsConfigFilesMap inputFilePath = some none) :
    search host inputFilePath (fuel + 1) cache =
      some ⟨.error .nullPointer, [tsConfigPath], cache.visit host tsConfigPath rest⟩ := by
  unfold visit at hfound
  rw [search, hpending]
  dsimp only
  rw [hfound]
  rfl

theorem search_of_none (hpending : cache.pendingTsConfigFiles = tsConfigPath :: rest)
    (hfound : (cache.visit host tsConfigPath rest).inputFileToTsConfigFilesMap inputFilePath = none) :
    search host inputFilePath (fuel + 1) cache =
      (search host inputFilePath fuel (cache.visit host tsConfigPath rest)).map fun answer =>
        { answer with loaded := tsConfigPath :: answer.loaded } := by
  unfold visit at hfound ⊢
  rw [search, hpending]
  dsimp only
  rw [hfound]

end Search

theorem search_spec {inputFilePath : String} {fuel : ℕ} {answer : Answer} (h : Inv host cache loaded)
    (hfile : cache.inputFileToTsConfigFilesMap inputFilePath = none)
    (hsearch : search host inputFilePath fuel cache = some answer) :
    ∃ tsConfigFile, Answers host inputFilePath cache loaded answer tsConfigFile := by
  induction fuel generalizing cache loaded answer with
  | zero => cases hsearch
  | succ fuel ih =>
    rcases hpending : cache.pendingTsConfigFiles with _ | ⟨tsConfigPath, rest⟩
    · rw [search_of_nil hpending] at hsearch
      obtain rfl := Option.some.inj hsearch
      have hput := h.put_null hpending hfile
      refine ⟨none, rfl, ?_, rfl, hput.correct (if_pos rfl), fun _ => hpending⟩
      rw [List.append_nil]
      exact hput
    · have hvisit := h.visit hpending
      have horiginal := @visit_originalTsConfigFiles host tsConfigPath rest cache
      rcases hfound : (cache.visit host tsConfigPath rest).inputFileToTsConfigFilesMap inputFilePath with
        _ | _ | found
      · rw [search_of_none hpending hfound] at hsearch
        obtain ⟨later, hlater, rfl⟩ := Option.map_eq_some_iff.mp hsearch
        obtain ⟨tsConfigFile, hanswers⟩ := ih hvisit hfound hlater
        have hcorrect := hanswers.correct
        rw [horiginal] at hcorrect
        refine ⟨tsConfigFile, hanswers.result, ?_, hanswers.original.trans horiginal, hcorrect,
          hanswers.exhausted⟩
        have hinv := hanswers.inv
        rw [List.append_assoc] at hinv
        exact hinv
      · rw [visit_map, hfile] at hfound
        dsimp only at hfound
        split at hfound <;> cases hfound
      · rw [search_of_found hpending hfound] at hsearch
        obtain rfl := Option.some.inj hsearch
        have hcorrect := hvisit.correct hfound
        rw [horiginal] at hcorrect
        exact ⟨some found, rfl, hvisit, horiginal, hcorrect, nofun⟩

theorem search_isSome {nodes : Finset String} (hnodes : ∀ path, ∀ next ∈ references host path, next ∈ nodes)
    (inputFilePath : String) {fuel : ℕ} (hfuel : remaining nodes cache.frontier < fuel) :
    (search host inputFilePath fuel cache).isSome := by
  induction fuel generalizing cache with
  | zero => omega
  | succ fuel ih =>
    rcases hpending : cache.pendingTsConfigFiles with _ | ⟨tsConfigPath, rest⟩
    · rw [search_of_nil hpending]
      rfl
    · have hremaining : remaining nodes (cache.visit host tsConfigPath rest).frontier + 1 =
          remaining nodes cache.frontier := by
        rw [visit_frontier, frontier, hpending]
        exact remaining_visit hnodes
      have hrest := @ih (cache.visit host tsConfigPath rest) (by omega)
      rcases hfound : (cache.visit host tsConfigPath rest).inputFileToTsConfigFilesMap inputFilePath with _ | _ | found
      · rw [search_of_none hpending hfound, Option.isSome_map]
        exact hrest
      · rw [search_of_null hpending hfound]
        rfl
      · rw [search_of_found hpending hfound]
        rfl

theorem Inv.haveFolders (h : Inv host cache loaded) (hfolders : HaveFolders host cache.originalTsConfigFiles) :
    ∀ ts ∈ cache.pendingTsConfigFiles, ∃ folder, host.parentFolder ts = .ok folder :=
  fun ts hts => hfolders ts (h.explored.reaches ts ((h.explored.mem_discovered ts).mpr (.inl hts)))

theorem Inv.of_uninitialized (h : Inv host cache loaded) (hinitialized : cache.initialized = false) :
    cache.pendingTsConfigFiles = [] ∧ ∀ path, ¬ Reaches (references host) cache.originalTsConfigFiles path := by
  have hnot : ∀ path, ¬ Reaches (references host) cache.originalTsConfigFiles path := by
    rintro path ⟨root, hroot, -⟩
    rw [h.uninitialized hinitialized] at hroot
    cases hroot
  refine ⟨List.eq_nil_iff_forall_not_mem.mpr fun ts hts => ?_, hnot⟩
  exact hnot ts (h.explored.reaches ts ((h.explored.mem_discovered ts).mpr (.inl hts)))

theorem getTsConfigForInputFile_spec {inputFile : InputFile} {fuel : ℕ} {answer : Answer}
    (h : Inv host cache loaded) (hfolders : HaveFolders host cache.originalTsConfigFiles)
    (hquery : getTsConfigForInputFile host inputFile fuel cache = some answer) :
    ∃ tsConfigFile, Answers host inputFile.absolutePath cache loaded answer tsConfigFile := by
  rw [getTsConfigForInputFile] at hquery
  cases hinitialized : cache.initialized with
  | false =>
    rw [hinitialized, Bool.not_false, if_pos rfl] at hquery
    obtain rfl := Option.some.inj hquery
    obtain ⟨hpending, hnot⟩ := h.of_uninitialized hinitialized
    refine ⟨none, rfl, ?_, rfl, ⟨nofun, iff_of_true rfl ?_⟩, fun _ => hpending⟩
    · rw [List.append_nil]
      exact h
    · rintro ⟨path, hreaches, -⟩
      exact hnot path hreaches
  | true =>
    rw [if_neg (by rw [hinitialized]; exact Bool.false_ne_true)] at hquery
    cases hfile : cache.inputFileToTsConfigFilesMap inputFile.absolutePath with
    | some tsConfigFile =>
      rw [hfile] at hquery
      obtain rfl := Option.some.inj hquery
      refine ⟨tsConfigFile, rfl, ?_, rfl, h.correct hfile, fun hnone => h.exhausted _ (hnone ▸ hfile)⟩
      rw [List.append_nil]
      exact h
    | none =>
      obtain ⟨ordered, hordered, hperm⟩ := improvedPendingTsConfigOrder_perm inputFile (h.haveFolders hfolders)
      rw [hfile, hordered] at hquery
      obtain ⟨tsConfigFile, hanswers⟩ := search_spec (h.reorder hperm) hfile hquery
      exact ⟨tsConfigFile, hanswers.result, hanswers.inv, hanswers.original, hanswers.correct,
        hanswers.exhausted⟩

theorem getTsConfigForInputFile_isSome (hfinite : {path | references host path ≠ []}.Finite)
    (inputFile : InputFile) (cache : Cache) : ∃ fuel, (getTsConfigForInputFile host inputFile fuel cache).isSome := by
  obtain ⟨nodes, hnodes⟩ := exists_successors hfinite
  cases hordered : improvedPendingTsConfigOrder host inputFile cache.pendingTsConfigFiles with
  | error e =>
    refine ⟨0, ?_⟩
    rw [getTsConfigForInputFile, hordered]
    split
    · rfl
    · split <;> rfl
  | ok ordered =>
    obtain ⟨fuel, hsearch⟩ : ∃ fuel, (search host inputFile.absolutePath fuel
        { cache with pendingTsConfigFiles := ordered }).isSome :=
      ⟨_, search_isSome hnodes inputFile.absolutePath (Nat.lt_succ_self _)⟩
    refine ⟨fuel, ?_⟩
    rw [getTsConfigForInputFile, hordered]
    split
    · rfl
    · split
      · rfl
      · exact hsearch

end Cache

end SonarJavascript.SonarLint
