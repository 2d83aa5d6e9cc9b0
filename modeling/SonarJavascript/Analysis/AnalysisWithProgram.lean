import SonarJavascript.Lib.QueueTraversal

/-!
# Analysis with TypeScript programs, in the plugin

`AnalysisWithProgram.analyzeFiles` creates the programs of the tsconfigs it finds and of their project
references, one after the other, analyzes the files of each, and at last the files that were in none. The
bridge is a parameter, and its calls are recorded in their order.

`analyzeFiles_covers`: with finitely many tsconfigs in reach the loop ends, each is asked for once, at most
one program is there at any time, and every input file is analyzed once.
-/

namespace SonarJavascript.Analysis

open Exploration QueueTraversal

/-- `error` is null. -/
structure TsProgram where
  files : List String
  projectReferences : List String
  missingTsConfig : Bool

variable {InputFile : Type} [DecidableEq InputFile]

/-- What is outside: `Path.of(path).toString()`, the answers of the bridge, and the file of the project that
has an absolute path. -/
structure Environment (InputFile : Type) where
  pathOf : String → String
  createProgram : String → Except String TsProgram
  inputFile : String → Option InputFile

/-- Calls of the bridge and of `analyzeFile`; a program is named by its tsconfig. -/
inductive Call (InputFile : Type)
  | createProgram (tsConfig : String)
  | deleteProgram (tsConfig : String)
  | analyzeFile (file : InputFile) (program : Option String)

inductive Warning
  | failedToCreateProgram (tsConfig : String)
  | missingTsConfig
  deriving DecidableEq

/-- The variables of `analyzeFiles`; the queue has the work list and the analyzed projects. -/
structure State (InputFile : Type) where
  queue : Queue String String
  analyzedFiles : List InputFile
  calls : List (Call InputFile)
  warnings : List Warning

variable (env : Environment InputFile)

/-- `analysisWarnings.addUnique` -/
def addUnique (warning : Warning) (warnings : List Warning) : List Warning :=
  if warning ∈ warnings then warnings else warnings ++ [warning]

def analyzeProgramFile (tsConfig : String) (state : State InputFile) (file : String) : State InputFile :=
  match env.inputFile file with
  | none => state
  | some inputFile =>
    if inputFile ∈ state.analyzedFiles then state
    else { state with
      analyzedFiles := state.analyzedFiles ++ [inputFile]
      calls := state.calls ++ [.analyzeFile inputFile (some tsConfig)] }

def analyzeProgram (tsConfig : String) (program : TsProgram) (state : State InputFile) : State InputFile :=
  program.files.foldl (analyzeProgramFile env tsConfig) state

/-- A turn of the loop that creates a program. -/
def visitProject (tsConfig : String) (rest : List String) (state : State InputFile) : State InputFile :=
  let asked := { state with
    queue := ⟨rest, state.queue.visited ++ [tsConfig]⟩
    calls := state.calls ++ [.createProgram tsConfig] }
  match env.createProgram tsConfig with
  | .error _ => { asked with warnings := addUnique (.failedToCreateProgram tsConfig) asked.warnings }
  | .ok program =>
    let warned := if program.missingTsConfig then
      { asked with warnings := addUnique .missingTsConfig asked.warnings } else asked
    let analyzed := analyzeProgram env tsConfig program warned
    { analyzed with
      queue := ⟨analyzed.queue.pending ++ program.projectReferences, analyzed.queue.visited⟩
      calls := analyzed.calls ++ [.deleteProgram tsConfig] }

/-- The loop, with at most so many turns. -/
def analyzeProjects : ℕ → State InputFile → Option (State InputFile)
  | fuel, state =>
    match state.queue.pending, fuel with
    | [], _ => some state
    | _ :: _, 0 => none
    | first :: rest, fuel + 1 =>
      if env.pathOf first ∈ state.queue.visited then
        analyzeProjects fuel { state with queue := ⟨rest, state.queue.visited⟩ }
      else analyzeProjects fuel (visitProject env (env.pathOf first) rest state)

/-- The set of the files that are left has no order. -/
def analyzeSkippedFiles (inputFiles : List InputFile) (state : State InputFile) : State InputFile :=
  { state with
    calls := state.calls ++ ((inputFiles.dedup.filter (· ∉ state.analyzedFiles)).map (.analyzeFile · none)) }

/-- The sensor has returned before when there are no input files. -/
def analyzeFiles (tsConfigs : List String) (inputFiles : List InputFile) (fuel : ℕ) : Option (State InputFile) :=
  (analyzeProjects env fuel ⟨⟨tsConfigs, []⟩, [], [], []⟩).map (analyzeSkippedFiles inputFiles)

/-! ### What is asked of a run -/

def references (tsConfig : String) : List String :=
  match env.createProgram tsConfig with
  | .error _ => []
  | .ok program => program.projectReferences

/-- Some tsconfig of the list leads there, along the references of programs that could be created. -/
def ReachesTsConfig (tsConfigs : List String) (tsConfig : String) : Prop :=
  Reaches (keys env.pathOf (references env)) (tsConfigs.map env.pathOf) tsConfig

/-- The program of the tsconfig could be created and lists the file. -/
def Lists (tsConfig : String) (file : InputFile) : Prop :=
  ∃ program, env.createProgram tsConfig = .ok program ∧ ∃ path ∈ program.files, env.inputFile path = some file

def Call.asked : Call InputFile → Option String
  | .createProgram tsConfig => some tsConfig
  | _ => none

def Call.analyzed : Call InputFile → Option InputFile
  | .analyzeFile file _ => some file
  | _ => none

/-- The program that is there before a call, and after it; no program is there twice, or used when it is not
there. -/
def follow (program : Option String) : Call InputFile → Option (Option String)
  | .createProgram tsConfig =>
    match program, env.createProgram tsConfig with
    | some _, _ => none
    | none, .error _ => some none
    | none, .ok _ => some (some tsConfig)
  | .deleteProgram tsConfig => if program = some tsConfig then some none else none
  | .analyzeFile _ none => some program
  | .analyzeFile _ (some tsConfig) => if program = some tsConfig then some program else none

variable {env} {state : State InputFile} {tsConfigs : List String} {tsConfig : String}

/-- What the analysis of a program adds: each of its files that has not been analyzed, once. -/
theorem analyzeProgram_spec (env : Environment InputFile) (tsConfig : String) (program : TsProgram) (state : State InputFile) :
    ∃ files, (∀ file, file ∈ files ↔
        (∃ path ∈ program.files, env.inputFile path = some file) ∧ file ∉ state.analyzedFiles) ∧ files.Nodup ∧
      analyzeProgram env tsConfig program state = { state with
        analyzedFiles := state.analyzedFiles ++ files
        calls := state.calls ++ files.map fun file => .analyzeFile file (some tsConfig) } := by
  obtain ⟨paths, references, missing⟩ := program
  unfold analyzeProgram
  dsimp only
  induction paths generalizing state with
  | nil => exact ⟨[], by simp, List.nodup_nil, by simp⟩
  | cons path paths ih =>
    rw [List.foldl_cons]
    obtain ⟨files, hfiles, hnodup, hstate⟩ := ih (analyzeProgramFile env tsConfig state path)
    rw [hstate]
    unfold analyzeProgramFile at hfiles ⊢
    cases hpath : env.inputFile path with
    | none =>
      rw [hpath] at hfiles
      exact ⟨files, fun file => by rw [hfiles]; simp [hpath], hnodup, rfl⟩
    | some inputFile =>
      rw [hpath] at hfiles
      dsimp only at hfiles ⊢
      split_ifs at hfiles ⊢ with hold
      · refine ⟨files, fun file => ?_, hnodup, rfl⟩
        rw [hfiles]
        simp only [List.mem_cons, exists_eq_or_imp, hpath, Option.some.injEq]
        constructor
        · exact fun ⟨hmem, hnew⟩ => ⟨.inr hmem, hnew⟩
        · rintro ⟨rfl | hmem, hnew⟩
          · exact absurd hold hnew
          · exact ⟨hmem, hnew⟩
      · refine ⟨inputFile :: files, fun file => ?_, List.nodup_cons.mpr ⟨fun hmem => ?_, hnodup⟩, by simp⟩
        · rw [List.mem_cons, hfiles]
          simp only [List.mem_cons, exists_eq_or_imp, hpath, Option.some.injEq, List.mem_append, not_or]
          constructor
          · rintro (rfl | ⟨hmem, hnew, -⟩)
            · exact ⟨.inl rfl, hold⟩
            · exact ⟨.inr hmem, hnew⟩
          · rintro ⟨rfl | hmem, hnew⟩
            · exact .inl rfl
            · by_cases heq : file = inputFile
              · exact .inl heq
              · exact .inr ⟨hmem, hnew, by simpa using heq⟩
        · exact ((hfiles inputFile).mp hmem).2 (by simp)

/-- What holds between two turns. -/
structure Inv (env : Environment InputFile) (tsConfigs : List String) (state : State InputFile) : Prop where
  traversed : Traversed env.pathOf (references env) tsConfigs state.queue
  asked : state.calls.filterMap Call.asked = state.queue.visited
  analyzed : state.calls.filterMap Call.analyzed = state.analyzedFiles
  withProgram : ∀ file, Call.analyzeFile file none ∉ state.calls
  nodup : state.analyzedFiles.Nodup
  listed : ∀ file, file ∈ state.analyzedFiles ↔ ∃ tsConfig ∈ state.queue.visited, Lists env tsConfig file
  followed : state.calls.foldlM (follow env) none = some none

omit [DecidableEq InputFile] in
theorem inv_start : Inv env tsConfigs ⟨⟨tsConfigs, []⟩, [], [], []⟩ where
  traversed := Traversed.start
  asked := rfl
  analyzed := rfl
  withProgram _ := List.not_mem_nil
  nodup := List.nodup_nil
  listed := by simp
  followed := rfl

omit [DecidableEq InputFile] in
theorem follow_analyzeFiles (files : List InputFile) :
    (files.map fun file => Call.analyzeFile file (some tsConfig)).foldlM (follow env) (some tsConfig) =
      some (some tsConfig) := by
  induction files with
  | nil => rfl
  | cons file files ih => simpa [follow] using ih

omit [DecidableEq InputFile] in
theorem filterMap_asked_analyzeFile (files : List InputFile) (program : Option String) :
    (files.map fun file => Call.analyzeFile file program).filterMap Call.asked = [] := by
  induction files with
  | nil => rfl
  | cons file files ih => exact ih

omit [DecidableEq InputFile] in
theorem filterMap_analyzed_analyzeFile (files : List InputFile) (program : Option String) :
    (files.map fun file => Call.analyzeFile file program).filterMap Call.analyzed = files := by
  induction files with
  | nil => rfl
  | cons file files ih => exact congrArg (file :: ·) ih

/-- A program that could be created. -/
theorem visitProject_eq (state : State InputFile) (rest : List String) {program : TsProgram}
    (hcreate : env.createProgram tsConfig = .ok program) :
    ∃ files, (∀ file, file ∈ files ↔
        (∃ path ∈ program.files, env.inputFile path = some file) ∧ file ∉ state.analyzedFiles) ∧ files.Nodup ∧
      (visitProject env tsConfig rest state).queue =
        ⟨rest ++ program.projectReferences, state.queue.visited ++ [tsConfig]⟩ ∧
      (visitProject env tsConfig rest state).analyzedFiles = state.analyzedFiles ++ files ∧
      (visitProject env tsConfig rest state).calls = state.calls ++ (.createProgram tsConfig ::
        (files.map fun file => .analyzeFile file (some tsConfig)) ++ [.deleteProgram tsConfig]) := by
  unfold visitProject
  rw [hcreate]
  dsimp only
  split_ifs
  all_goals
    obtain ⟨files, hfiles, hnodup, heq⟩ := analyzeProgram_spec env tsConfig program _
    rw [heq]
    exact ⟨files, hfiles, hnodup, rfl, rfl, by simp⟩

theorem Inv.visitProject {first : String} {rest visited : List String} (h : Inv env tsConfigs state)
    (hqueue : state.queue = ⟨first :: rest, visited⟩) (hnew : env.pathOf first ∉ visited) :
    Inv env tsConfigs (visitProject env (env.pathOf first) rest state) := by
  have htraversed := (hqueue ▸ h.traversed).visit hnew
  have hasked := h.asked
  have hlisted := h.listed
  rw [hqueue] at hasked hlisted
  cases hcreate : env.createProgram (env.pathOf first) with
  | error message =>
    rw [references, hcreate, List.append_nil] at htraversed
    unfold Analysis.visitProject
    rw [hcreate]
    refine ⟨by rw [hqueue]; exact htraversed, ?_, ?_, ?_, h.nodup, fun file => ?_, ?_⟩
    · simp [hqueue, hasked, Call.asked]
    · simp [h.analyzed, Call.analyzed]
    · simpa using h.withProgram
    · rw [hqueue, hlisted]
      simp [or_and_right, exists_or, Lists, hcreate]
    · simp [List.foldlM_append, h.followed, follow, hcreate]
  | ok program =>
    rw [references, hcreate] at htraversed
    obtain ⟨files, hfiles, hnodup, hqueue', hanalyzed, hcalls⟩ := visitProject_eq state rest hcreate
    rw [hqueue] at hqueue'
    refine ⟨hqueue' ▸ htraversed, ?_, ?_, fun file hmem => ?_, ?_, fun file => ?_, ?_⟩
    · rw [hcalls, hqueue', List.filterMap_append, hasked]
      simp [Call.asked]
    · rw [hcalls, hanalyzed, List.filterMap_append, h.analyzed, List.cons_append,
        List.filterMap_cons_none rfl, List.filterMap_append, filterMap_analyzed_analyzeFile]
      simp [Call.analyzed]
    · rw [hcalls] at hmem
      exact h.withProgram file (by simpa using hmem)
    · rw [hanalyzed]
      refine List.nodup_append.mpr ⟨h.nodup, hnodup, fun file hold file' hmem => ?_⟩
      rintro rfl
      exact ((hfiles file).mp hmem).2 hold
    · have hlists : Lists env (env.pathOf first) file ↔ ∃ path ∈ program.files, env.inputFile path = some file := by
        simp [Lists, hcreate]
      rw [hanalyzed, hqueue', List.mem_append, hfiles]
      simp only [List.mem_append, List.mem_singleton, or_and_right, exists_or, exists_eq_left, hlists]
      rw [← hlisted]
      by_cases hold : file ∈ state.analyzedFiles <;> simp [hold]
    · rw [hcalls, List.foldlM_append, h.followed]
      simp [List.foldlM_append, follow, hcreate, follow_analyzeFiles]

theorem visitProject_queue {rest : List String} :
    (visitProject env tsConfig rest state).queue =
      ⟨rest ++ references env tsConfig, state.queue.visited ++ [tsConfig]⟩ := by
  cases hcreate : env.createProgram tsConfig with
  | error message => simp [visitProject, references, hcreate]
  | ok program =>
    obtain ⟨-, -, -, hqueue, -⟩ := visitProject_eq state rest hcreate
    rw [hqueue, references, hcreate]

theorem analyzeProjects_nil {fuel : ℕ} (hnil : state.queue.pending = []) :
    analyzeProjects env fuel state = some state := by
  rw [analyzeProjects.eq_def]
  dsimp only
  rw [hnil]

theorem analyzeProjects_cons {fuel : ℕ} {first : String} {rest : List String}
    (hcons : state.queue.pending = first :: rest) :
    analyzeProjects env (fuel + 1) state =
      if env.pathOf first ∈ state.queue.visited then
        analyzeProjects env fuel { state with queue := ⟨rest, state.queue.visited⟩ }
      else analyzeProjects env fuel (visitProject env (env.pathOf first) rest state) := by
  rw [analyzeProjects.eq_def]
  dsimp only
  rw [hcons]

theorem Inv.analyzeProjects (nodes : Finset String) (hnodes : ∀ t, ReachesTsConfig env tsConfigs t → t ∈ nodes) :
    ∀ (n : ℕ) (state : State InputFile), Inv env tsConfigs state → capacity nodes (references env) state.queue ≤ n →
      ∃ last, analyzeProjects env n state = some last ∧ Inv env tsConfigs last ∧ last.queue.pending = [] := by
  intro n
  induction n with
  | zero =>
    intro state h hcapacity
    have hnil : state.queue.pending = [] := by
      unfold capacity at hcapacity
      exact List.length_eq_zero_iff.mp (by omega)
    exact ⟨state, analyzeProjects_nil hnil, h, hnil⟩
  | succ n ih =>
    intro state h hcapacity
    cases hqueue : state.queue with
    | mk pending visited =>
    cases pending with
    | nil => exact ⟨state, analyzeProjects_nil (by rw [hqueue]), h, by rw [hqueue]⟩
    | cons first rest =>
      have htraversed := hqueue ▸ h.traversed
      have hasked := h.asked
      have hlisted := h.listed
      rw [hqueue] at hcapacity hasked hlisted
      rw [analyzeProjects_cons (by rw [hqueue]), hqueue]
      dsimp only
      split_ifs with hmarked
      · have hlt := capacity_skip nodes (references env) first rest visited
        exact ih _ ⟨htraversed.skip hmarked, hasked, h.analyzed, h.withProgram, h.nodup, hlisted, h.followed⟩
          (by dsimp only; omega)
      · have hnode := hnodes _ (htraversed.pending_reaches first List.mem_cons_self)
        have hlt := capacity_visit (references env) rest hnode hmarked
        refine ih _ (h.visitProject hqueue hmarked) ?_
        rw [visitProject_queue, hqueue]
        dsimp only
        omega

omit [DecidableEq InputFile] in
theorem follow_analyzeSkippedFiles (files : List InputFile) :
    (files.map fun file => Call.analyzeFile file none).foldlM (follow env) none = some none := by
  induction files with
  | nil => rfl
  | cons file files ih => simpa [follow] using ih

omit [DecidableEq InputFile] in
theorem Inv.mem_calls_iff (h : Inv env tsConfigs state) {file : InputFile} :
    (∃ tsConfig, Call.analyzeFile file (some tsConfig) ∈ state.calls) ↔ file ∈ state.analyzedFiles := by
  rw [← h.analyzed, List.mem_filterMap]
  constructor
  · rintro ⟨tsConfig, hmem⟩
    exact ⟨_, hmem, rfl⟩
  · rintro ⟨call, hmem, hcall⟩
    obtain _ | _ | ⟨file', _ | tsConfig⟩ := call
    · cases hcall
    · cases hcall
    · exact absurd hmem (h.withProgram file')
    · cases hcall
      exact ⟨tsConfig, hmem⟩

/-- The loop ends for every graph with finitely many tsconfigs in reach. Each of them is asked for once and no
other, a program is deleted before the next one is asked for, and each input file is analyzed once, with a
program when one lists it. -/
theorem analyzeFiles_covers (env : Environment InputFile) (tsConfigs : List String) (inputFiles : List InputFile)
    (hfinite : {tsConfig | ReachesTsConfig env tsConfigs tsConfig}.Finite) :
    ∃ fuel state, analyzeFiles env tsConfigs inputFiles fuel = some state ∧
      (state.calls.filterMap Call.asked).Nodup ∧
      state.calls.foldlM (follow env) none = some none ∧
      (∀ tsConfig, tsConfig ∈ state.calls.filterMap Call.asked ↔ ReachesTsConfig env tsConfigs tsConfig) ∧
      ∀ file ∈ inputFiles, (state.calls.filterMap Call.analyzed).count file = 1 ∧
        ((∃ tsConfig, Call.analyzeFile file (some tsConfig) ∈ state.calls) ↔
          ∃ tsConfig, ReachesTsConfig env tsConfigs tsConfig ∧ Lists env tsConfig file) := by
  obtain ⟨last, hlast, hinv, hnil⟩ := Inv.analyzeProjects hfinite.toFinset (fun t ht => hfinite.mem_toFinset.mpr ht) _ _
    inv_start le_rfl
  have hvisited : ∀ tsConfig, tsConfig ∈ last.queue.visited ↔ ReachesTsConfig env tsConfigs tsConfig := by
    obtain ⟨⟨pending, visited⟩, _⟩ := last
    subst hnil
    exact fun _ => hinv.traversed.mem_visited_iff
  have hasked : (analyzeSkippedFiles inputFiles last).calls.filterMap Call.asked = last.queue.visited := by
    rw [analyzeSkippedFiles, List.filterMap_append, hinv.asked, filterMap_asked_analyzeFile, List.append_nil]
  have hanalyzed : (analyzeSkippedFiles inputFiles last).calls.filterMap Call.analyzed =
      last.analyzedFiles ++ inputFiles.dedup.filter (· ∉ last.analyzedFiles) := by
    rw [analyzeSkippedFiles, List.filterMap_append, hinv.analyzed, filterMap_analyzed_analyzeFile]
  refine ⟨_, analyzeSkippedFiles inputFiles last, by rw [analyzeFiles, hlast]; rfl, ?_, ?_, ?_, ?_⟩
  · rw [hasked]
    exact hinv.traversed.nodup
  · rw [analyzeSkippedFiles, List.foldlM_append, hinv.followed]
    exact follow_analyzeSkippedFiles _
  · rw [hasked]
    exact hvisited
  · intro file hfile
    constructor
    · rw [hanalyzed, List.count_append]
      by_cases hold : file ∈ last.analyzedFiles
      · rw [List.count_eq_one_of_mem hinv.nodup hold, List.count_eq_zero_of_not_mem (by simp [hold])]
      · rw [List.count_eq_zero_of_not_mem hold, List.count_filter (by simpa using hold),
          List.count_eq_one_of_mem inputFiles.nodup_dedup (List.mem_dedup.mpr hfile)]
    · have hlisted := hinv.listed file
      simp only [hvisited] at hlisted
      rw [← hlisted, ← hinv.mem_calls_iff]
      simp [analyzeSkippedFiles]

/-- A tsconfig that refers to itself and to one whose program is not created. -/
theorem analyzeFiles_covers_cycle :
    let env : Environment String := {
      pathOf := id
      createProgram := fun tsConfig =>
        if tsConfig = "tsconfig.json" then .ok ⟨["main.ts"], ["tsconfig.json", "broken.json"], false⟩
        else .error "broken"
      inputFile := some }
    ∃ fuel state, analyzeFiles env ["tsconfig.json"] ["main.ts", "other.ts"] fuel = some state ∧
      (state.calls.filterMap Call.analyzed).count "main.ts" = 1 := by
  intro env
  have hclosed : ∀ t, ReachesTsConfig env ["tsconfig.json"] t → t ∈ ({"tsconfig.json", "broken.json"} : Set String) := by
    rintro t ⟨root, hroot, hpath⟩
    induction hpath with
    | refl => exact .inl (List.mem_singleton.mp hroot)
    | tail _ hnext ih =>
      rcases ih with rfl | rfl
      · simpa [env, keys, references] using hnext
      · simp [env, keys, references] at hnext
  obtain ⟨fuel, state, hrun, -, -, -, hfiles⟩ := analyzeFiles_covers env ["tsconfig.json"] ["main.ts", "other.ts"]
    ((Set.toFinite _).subset hclosed)
  exact ⟨fuel, state, hrun, (hfiles "main.ts" (by simp)).1⟩

end SonarJavascript.Analysis
