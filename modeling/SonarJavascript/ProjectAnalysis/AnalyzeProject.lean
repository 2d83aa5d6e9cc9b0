import SonarJavascript.Lib.Visits

/-!
# Analysis of a project, in the bridge

`analyzeProject` analyzes the requested files with the programs of the tsconfigs that are found and of their
project references, and then those that are in none of them. A reference is followed without a look at where
it has been before; SonarLint uses watch programs, which follow no references.

`covers_iff`: the analysis ends, creates no program twice, analyzes every requested file once and leaves no
program behind, if and only if no tsconfig that has a program is named twice by the tsconfigs consulted and
the references of the programs in reach; in SonarLint, if and only if no tsconfig consulted is broken.
-/

namespace SonarJavascript.ProjectAnalysis

open Exploration Visits

inductive JsTsLanguage
  | js
  | ts
  deriving DecidableEq

inductive FileType
  | MAIN
  | TEST
  deriving DecidableEq

structure JsTsFile where
  fileContent : Option String
  fileType : FileType
  language : Option JsTsLanguage

/-- `programId` is undefined without a program. -/
structure JsTsAnalysisInput (TsConfig : Type) where
  filePath : String
  fileContent : String
  fileType : FileType
  language : JsTsLanguage
  programId : Option ℕ
  tsConfigs : Option (List TsConfig)

/-- The files of the request; `names` are the keys of the object. -/
structure JsTsFiles where
  names : List String
  file : String → Option JsTsFile
  nodup : names.Nodup
  mem_names : ∀ name, name ∈ names ↔ (file name).isSome

/-- What `createProgram` returns; the program itself is known by its tsconfig. -/
structure ProgramResult (TsConfig : Type) where
  files : List String
  projectReferences : List TsConfig

/-- `programs` and `programCount` of program.ts; no identifier has been given that is above the counter. -/
structure SavedPrograms (TsConfig : Type) where
  programs : List (ℕ × TsConfig)
  programCount : ℕ
  id_le : ∀ saved ∈ programs, saved.1 ≤ programCount

/-- What is outside: TypeScript, the files on disk, which can be read, and `analyzeFile`, which returns also
when the analysis throws. -/
structure ProjectEnvironment (TsConfig Output : Type) where
  createProgram : TsConfig → Except String (ProgramResult TsConfig)
  createProgramOptions : TsConfig → Except String (List String)
  readFile : String → String
  analyzeFile : JsTsAnalysisInput TsConfig → Output

/-- `files`, `filesWithoutTypeChecking` and `programsCreated` are those of the results; the calls of
`analyzeFile` are recorded. -/
structure ProjectState (TsConfig Output : Type) where
  pendingFiles : List String
  files : String → Option Output
  calls : List (JsTsAnalysisInput TsConfig)
  filesWithoutTypeChecking : List String
  programsCreated : List TsConfig
  saved : SavedPrograms TsConfig

variable {TsConfig Output : Type}

def DEFAULT_LANGUAGE : JsTsLanguage := .ts

namespace SavedPrograms

/-- `nextId` is the new counter. -/
def createAndSaveProgram (saved : SavedPrograms TsConfig) (tsConfig : TsConfig) : SavedPrograms TsConfig where
  programs := saved.programs ++ [(saved.programCount + 1, tsConfig)]
  programCount := saved.programCount + 1
  id_le := by
    intro entry hentry
    obtain hentry | hentry := List.mem_append.mp hentry
    · exact (saved.id_le entry hentry).trans (Nat.le_succ _)
    · rw [List.mem_singleton.mp hentry]

def deleteProgram (saved : SavedPrograms TsConfig) (programId : ℕ) : SavedPrograms TsConfig where
  programs := saved.programs.filter (·.1 ≠ programId)
  programCount := saved.programCount
  id_le := fun entry hentry => saved.id_le entry (List.mem_of_mem_filter hentry)

theorem programs_deleteProgram (saved : SavedPrograms TsConfig) (tsConfig : TsConfig) :
    ((saved.createAndSaveProgram tsConfig).deleteProgram (saved.createAndSaveProgram tsConfig).programCount).programs =
      saved.programs := by
  have hkept : saved.programs.filter (·.1 ≠ saved.programCount + 1) = saved.programs := by
    refine List.filter_eq_self.mpr fun entry hentry => ?_
    have hle := saved.id_le entry hentry
    simp only [ne_eq, decide_eq_true_eq]
    omega
  rw [deleteProgram, createAndSaveProgram]
  dsimp only
  rw [List.filter_append, hkept]
  simp

end SavedPrograms

variable (env : ProjectEnvironment TsConfig Output) (files : JsTsFiles)

/-- The argument of `analyzeFile` for a file of the request. -/
def requestOf (programId : Option ℕ) (tsConfigs : Option (List TsConfig)) (filename : String) (file : JsTsFile) :
    JsTsAnalysisInput TsConfig where
  filePath := filename
  fileContent := file.fileContent.getD (env.readFile filename)
  fileType := file.fileType
  language := file.language.getD DEFAULT_LANGUAGE
  programId := programId
  tsConfigs := tsConfigs

/-- The result of a file is set. -/
def analyze (input : JsTsAnalysisInput TsConfig) (state : ProjectState TsConfig Output) : ProjectState TsConfig Output :=
  { state with
    files := Function.update state.files input.filePath (some (env.analyzeFile input))
    calls := state.calls ++ [input] }

/-- Only analyze files which are requested. -/
def analyzeListed (programId : Option ℕ) (tsConfigs : Option (List TsConfig)) (state : ProjectState TsConfig Output)
    (filename : String) : ProjectState TsConfig Output :=
  match files.file filename with
  | none => state
  | some file =>
    if filename ∈ state.pendingFiles then
      let analyzed := analyze env (requestOf env programId tsConfigs filename file) state
      { analyzed with pendingFiles := analyzed.pendingFiles.erase filename }
    else state

/-- What `analyzeProgram` does with a program that it has created. -/
def visitProgram (tsConfig : TsConfig) (program : ProgramResult TsConfig) (state : ProjectState TsConfig Output) :
    ProjectState TsConfig Output :=
  let saved := state.saved.createAndSaveProgram tsConfig
  let created := { state with saved := saved, programsCreated := state.programsCreated ++ [tsConfig] }
  let analyzed := program.files.foldl (analyzeListed env files (some saved.programCount) none) created
  { analyzed with saved := analyzed.saved.deleteProgram saved.programCount }

/-- The recursion is at most so deep. -/
def analyzeProgram : ℕ → TsConfig → ProjectState TsConfig Output → Option (ProjectState TsConfig Output)
  | 0, _, _ => none
  | fuel + 1, tsConfig, state =>
    match env.createProgram tsConfig with
    | .error _ => some state
    | .ok program =>
      program.projectReferences.foldlM (fun state reference => analyzeProgram fuel reference state)
        (visitProgram env files tsConfig program state)

def analyzeWithProgram (fuel : ℕ) :
    List TsConfig → ProjectState TsConfig Output → Option (ProjectState TsConfig Output)
  | [], state => some state
  | tsConfig :: tsConfigs, state => do
    let analyzed ← analyzeProgram env files fuel tsConfig state
    if analyzed.pendingFiles = [] then some analyzed else analyzeWithProgram fuel tsConfigs analyzed

/-- Nothing catches what `createProgramOptions` throws. -/
def analyzeWithWatchProgram :
    List TsConfig → ProjectState TsConfig Output → Except String (ProjectState TsConfig Output)
  | [], state => .ok state
  | tsConfig :: tsConfigs, state => do
    let filenames ← env.createProgramOptions tsConfig
    let analyzed := filenames.foldl (analyzeListed env files none (some [tsConfig])) state
    if analyzed.pendingFiles = [] then .ok analyzed else analyzeWithWatchProgram tsConfigs analyzed

def analyzeWithoutProgram (state : ProjectState TsConfig Output) : ProjectState TsConfig Output :=
  state.pendingFiles.foldl (fun state filename =>
    match files.file filename with
    | none => state
    | some file =>
      let pushed := { state with filesWithoutTypeChecking := state.filesWithoutTypeChecking ++ [filename] }
      analyze env (requestOf env none none filename file) pushed) state

/-- `none` when the recursion is deeper than the fuel, an error when the promise is rejected. -/
def analyzeProject (isSonarlint : Bool) (tsConfigs : List TsConfig) (saved : SavedPrograms TsConfig) (fuel : ℕ) :
    Option (Except String (ProjectState TsConfig Output)) :=
  let start : ProjectState TsConfig Output := ⟨files.names, fun _ => none, [], [], [], saved⟩
  if files.names = [] then some (.ok start)
  else if isSonarlint then
    some ((analyzeWithWatchProgram env files tsConfigs start).map (analyzeWithoutProgram env files))
  else (analyzeWithProgram env files fuel tsConfigs start).map fun state => .ok (analyzeWithoutProgram env files state)

/-! ### What is asked of a run -/

structure Covered (saved : SavedPrograms TsConfig) (state : ProjectState TsConfig Output) : Prop where
  createdOnce : state.programsCreated.Nodup
  analyzedOnce : ∀ name ∈ files.names, (state.calls.map (·.filePath)).count name = 1 ∧
    ∃ call ∈ state.calls, call.filePath = name ∧ state.files name = some (env.analyzeFile call)
  noneLeft : state.saved.programs = saved.programs

def projectReferences (tsConfig : TsConfig) : List TsConfig :=
  match env.createProgram tsConfig with
  | .error _ => []
  | .ok program => program.projectReferences

def ListedBy (tsConfig : TsConfig) (name : String) : Prop :=
  ∃ program, env.createProgram tsConfig = .ok program ∧ name ∈ program.files

/-- A program in reach of the tsconfigs has the file. -/
def InProgram (tsConfigs : List TsConfig) (name : String) : Prop :=
  ∃ tsConfig, Reaches (projectReferences env) tsConfigs tsConfig ∧ ListedBy env tsConfig name

/-- A tsconfig of the list has the file. -/
def InOptions (tsConfigs : List TsConfig) (name : String) : Prop :=
  ∃ tsConfig ∈ tsConfigs, ∃ filenames, env.createProgramOptions tsConfig = .ok filenames ∧ name ∈ filenames

open Classical in
/-- The tsconfigs of the list that are consulted, after some others: as long as these leave a file. -/
noncomputable def consultedAfter (covered : List TsConfig → String → Prop) :
    List TsConfig → List TsConfig → List TsConfig
  | _, [] => []
  | before, tsConfig :: tsConfigs =>
    if ∃ name ∈ files.names, ¬ covered before name then
      tsConfig :: consultedAfter covered (before ++ [tsConfig]) tsConfigs
    else []

/-! ### Steps -/

variable {env files} {state : ProjectState TsConfig Output} {saved : SavedPrograms TsConfig} {name : String}

/-- What holds throughout: a file is analyzed or waits, and the result of an analysis is kept. -/
structure Pending (env : ProjectEnvironment TsConfig Output) (files : JsTsFiles)
    (state : ProjectState TsConfig Output) : Prop where
  perm : (state.calls.map (·.filePath) ++ state.pendingFiles).Perm files.names
  results : ∀ call ∈ state.calls, state.files call.filePath = some (env.analyzeFile call)

namespace Pending

theorem nodup (h : Pending env files state) : (state.calls.map (·.filePath) ++ state.pendingFiles).Nodup :=
  h.perm.nodup_iff.mpr files.nodup

theorem mem_names (h : Pending env files state) (hname : name ∈ state.pendingFiles) : name ∈ files.names :=
  h.perm.subset (List.mem_append_right _ hname)

/-- The result of a file that has not been analyzed leaves the others as they are. -/
theorem results_analyze {input : JsTsAnalysisInput TsConfig} (h : ∀ call ∈ state.calls,
      state.files call.filePath = some (env.analyzeFile call))
    (hnew : input.filePath ∉ state.calls.map (·.filePath)) :
    ∀ call ∈ (analyze env input state).calls,
      (analyze env input state).files call.filePath = some (env.analyzeFile call) := by
  intro call hcall
  obtain hcall | hcall := List.mem_append.mp hcall
  · have hne : call.filePath ≠ input.filePath := fun heq => hnew (heq ▸ List.mem_map_of_mem hcall)
    simpa [analyze, hne] using h call hcall
  · rw [List.mem_singleton.mp hcall]
    simp [analyze]

theorem analyzeListed (h : Pending env files state) (programId : Option ℕ) (watched : Option (List TsConfig))
    (name : String) :
    Pending env files (analyzeListed env files programId watched state name) ∧
      (∀ other, other ∈ (ProjectAnalysis.analyzeListed env files programId watched state name).pendingFiles ↔
        other ∈ state.pendingFiles ∧ other ≠ name) := by
  unfold ProjectAnalysis.analyzeListed
  by_cases hname : name ∈ state.pendingFiles
  · obtain ⟨file, hfile⟩ := Option.isSome_iff_exists.mp ((files.mem_names name).mp (h.mem_names hname))
    obtain ⟨-, hpending, hdisjoint⟩ := List.nodup_append.mp h.nodup
    have hnew : name ∉ state.calls.map (·.filePath) := fun hmem => hdisjoint name hmem name hname rfl
    rw [hfile]
    dsimp only
    rw [if_pos hname]
    refine ⟨⟨?_, results_analyze h.results hnew⟩, fun other => ?_⟩
    · have hmoved := (List.perm_cons_erase hname).append_left (state.calls.map (·.filePath))
      refine List.Perm.trans ?_ (hmoved.symm.trans h.perm)
      simp [analyze, requestOf]
    · rw [and_comm]
      exact hpending.mem_erase_iff
  · have hsame : ∀ other, other ∈ state.pendingFiles ↔ other ∈ state.pendingFiles ∧ other ≠ name :=
      fun other => ⟨fun hmem => ⟨hmem, fun heq => hname (heq ▸ hmem)⟩, And.left⟩
    cases files.file name with
    | none => exact ⟨h, hsame⟩
    | some file =>
      dsimp only
      rw [if_neg hname]
      exact ⟨h, hsame⟩

theorem foldl_analyzeListed (h : Pending env files state) (programId : Option ℕ)
    (watched : Option (List TsConfig)) (names : List String) :
    Pending env files (names.foldl (ProjectAnalysis.analyzeListed env files programId watched) state) ∧
      ∀ name, name ∈ (names.foldl (ProjectAnalysis.analyzeListed env files programId watched) state).pendingFiles ↔
        name ∈ state.pendingFiles ∧ name ∉ names := by
  induction names generalizing state with
  | nil => exact ⟨h, by simp⟩
  | cons first names ih =>
    obtain ⟨hfirst, hpending⟩ := h.analyzeListed programId watched first
    refine ⟨(ih hfirst).1, fun name => ?_⟩
    rw [List.foldl_cons, (ih hfirst).2, hpending]
    simp [and_assoc]

end Pending

/-- The programs are the business of `analyzeProgram`. -/
theorem programs_foldl_analyzeListed (programId : Option ℕ) (watched : Option (List TsConfig)) (names : List String)
    (state : ProjectState TsConfig Output) :
    (names.foldl (analyzeListed env files programId watched) state).saved = state.saved ∧
      (names.foldl (analyzeListed env files programId watched) state).programsCreated = state.programsCreated := by
  induction names generalizing state with
  | nil => exact ⟨rfl, rfl⟩
  | cons first names ih =>
    have hfirst : (analyzeListed env files programId watched state first).saved = state.saved ∧
        (analyzeListed env files programId watched state first).programsCreated = state.programsCreated := by
      unfold analyzeListed
      cases files.file first with
      | none => exact ⟨rfl, rfl⟩
      | some file =>
        dsimp only
        split_ifs <;> exact ⟨rfl, rfl⟩
    rw [List.foldl_cons, (ih _).1, (ih _).2]
    exact hfirst

/-! ### Programs -/

/-- A tsconfig without a program is passed over. -/
def visit (env : ProjectEnvironment TsConfig Output) (files : JsTsFiles) (state : ProjectState TsConfig Output)
    (tsConfig : TsConfig) : ProjectState TsConfig Output :=
  match env.createProgram tsConfig with
  | .error _ => state
  | .ok program => visitProgram env files tsConfig program state

theorem analyzeProgram_eq (fuel : ℕ) (tsConfig : TsConfig) (state : ProjectState TsConfig Output) :
    analyzeProgram env files fuel tsConfig state =
      (preorder (projectReferences env) fuel tsConfig).map fun visited => visited.foldl (visit env files) state := by
  refine walk_eq (analyzeProgram env files) (visit env files) (fun _ _ => rfl) (fun n t s => ?_) state
  rw [analyzeProgram, projectReferences, visit]
  cases env.createProgram t <;> rfl

/-- What holds after the visits of these tsconfigs. -/
structure Visited (env : ProjectEnvironment TsConfig Output) (files : JsTsFiles) (saved : SavedPrograms TsConfig)
    (visited : List TsConfig) (state : ProjectState TsConfig Output) : Prop where
  pending : Pending env files state
  pending_iff : ∀ name, name ∈ state.pendingFiles ↔
    name ∈ files.names ∧ ∀ tsConfig ∈ visited, ¬ ListedBy env tsConfig name
  created : state.programsCreated = visited.filter fun tsConfig => (env.createProgram tsConfig).isOk
  saved : state.saved.programs = saved.programs

theorem Visited.visit {visited : List TsConfig} (h : Visited env files saved visited state) (tsConfig : TsConfig) :
    Visited env files saved (visited ++ [tsConfig]) (visit env files state tsConfig) := by
  have hlisted : ∀ name, (∀ t ∈ visited ++ [tsConfig], ¬ ListedBy env t name) ↔
      (∀ t ∈ visited, ¬ ListedBy env t name) ∧ ¬ ListedBy env tsConfig name := by
    intro name
    simp [or_imp, forall_and]
  unfold ProjectAnalysis.visit
  cases hcreate : env.createProgram tsConfig with
  | error message =>
    refine ⟨h.pending, fun name => ?_, ?_, h.saved⟩
    · have hnone : ¬ ListedBy env tsConfig name := by simp [ListedBy, hcreate]
      rw [hlisted, h.pending_iff, and_iff_left hnone]
    · rw [List.filter_append, h.created]
      simp [hcreate, Except.isOk, Except.toBool]
  | ok program =>
    dsimp only
    unfold visitProgram
    have hcreated : Pending env files { state with
        saved := state.saved.createAndSaveProgram tsConfig
        programsCreated := state.programsCreated ++ [tsConfig] } := ⟨h.pending.perm, h.pending.results⟩
    obtain ⟨hpending, hmem⟩ := hcreated.foldl_analyzeListed
      (some (state.saved.createAndSaveProgram tsConfig).programCount) none program.files
    refine ⟨⟨hpending.perm, hpending.results⟩, fun name => ?_, ?_, ?_⟩
    · have hprogram : ListedBy env tsConfig name ↔ name ∈ program.files := by simp [ListedBy, hcreate]
      rw [hlisted, hprogram, ← and_assoc, ← h.pending_iff]
      exact hmem name
    · dsimp only
      rw [(programs_foldl_analyzeListed _ _ program.files _).2, List.filter_append, h.created]
      simp [hcreate, Except.isOk, Except.toBool]
    · dsimp only
      rw [(programs_foldl_analyzeListed _ _ program.files _).1, SavedPrograms.programs_deleteProgram, h.saved]

theorem Visited.foldl {visited : List TsConfig} (h : Visited env files saved visited state)
    (tsConfigs : List TsConfig) :
    Visited env files saved (visited ++ tsConfigs) (tsConfigs.foldl (ProjectAnalysis.visit env files) state) := by
  induction tsConfigs generalizing visited state with
  | nil => simpa using h
  | cons tsConfig tsConfigs ih => simpa using ih (h.visit tsConfig)

/-- The files that wait are those that the tsconfigs so far leave. -/
theorem Visited.pending_eq_nil_iff {fuel : ℕ} {before visited : List TsConfig}
    (h : Visited env files saved visited state)
    (hvisited : gather (preorder (projectReferences env) fuel) before = some visited) :
    state.pendingFiles = [] ↔ ¬ ∃ name ∈ files.names, ¬ InProgram env before name := by
  have hcovered : ∀ name, InProgram env before name ↔ ∃ tsConfig ∈ visited, ListedBy env tsConfig name := by
    intro name
    simp only [InProgram, mem_iff_reaches hvisited]
  rw [List.eq_nil_iff_forall_not_mem]
  simp only [h.pending_iff, hcovered, not_exists, not_and]

/-- The loop consults the tsconfigs until no file waits. -/
theorem analyzeWithProgram_spec (fuel : ℕ) (before rest : List TsConfig) {visited : List TsConfig}
    (hvisited : gather (preorder (projectReferences env) fuel) before = some visited)
    (h : Visited env files saved visited state) (hpending : state.pendingFiles ≠ []) :
    analyzeWithProgram env files fuel rest state =
        (gather (preorder (projectReferences env) fuel) (consultedAfter files (InProgram env) before rest)).map
          (fun more => more.foldl (visit env files) state) := by
  induction rest generalizing before visited state with
  | nil => rfl
  | cons tsConfig rest ih =>
    rw [analyzeWithProgram, analyzeProgram_eq, consultedAfter,
      if_pos (not_not.mp (mt (h.pending_eq_nil_iff hvisited).mpr hpending))]
    cases hfirst : preorder (projectReferences env) fuel tsConfig with
    | none => simp [gather, hfirst]
    | some first =>
      have hnext := h.foldl first
      have hgather : gather (preorder (projectReferences env) fuel) (before ++ [tsConfig]) = some (visited ++ first) := by
        simp [gather_append, gather, hvisited, hfirst]
      simp only [Option.map_some, Option.bind_eq_bind, Option.bind_some, gather, hfirst, Option.map_map]
      split_ifs with hdone
      · have hstop := (hnext.pending_eq_nil_iff hgather).mp hdone
        have hnil : consultedAfter files (InProgram env) (before ++ [tsConfig]) rest = [] := by
          cases rest with
          | nil => rfl
          | cons next rest => rw [consultedAfter, if_neg hstop]
        simp [hnil, gather]
      · rw [ih _ hgather hnext hdone]
        simp [Function.comp_def]

/-! ### Watch programs -/

theorem analyzeWithWatchProgram_pending (tsConfigs : List TsConfig) {last : ProjectState TsConfig Output}
    (h : Pending env files state) (hlast : analyzeWithWatchProgram env files tsConfigs state = .ok last) :
    Pending env files last ∧ last.saved = state.saved ∧ last.programsCreated = state.programsCreated := by
  induction tsConfigs generalizing state with
  | nil => cases hlast; exact ⟨h, rfl, rfl⟩
  | cons tsConfig tsConfigs ih =>
    rw [analyzeWithWatchProgram] at hlast
    cases hoptions : env.createProgramOptions tsConfig with
    | error message => rw [hoptions] at hlast; cases hlast
    | ok filenames =>
      rw [hoptions] at hlast
      have hnext := (h.foldl_analyzeListed none (some [tsConfig]) filenames).1
      have hsame := @programs_foldl_analyzeListed _ _ env files none (some [tsConfig]) filenames state
      dsimp only [bind, Except.bind] at hlast
      split_ifs at hlast
      · cases hlast
        exact ⟨hnext, hsame⟩
      · obtain ⟨hpending, hsaved, hcreated⟩ := ih hnext hlast
        exact ⟨hpending, hsaved.trans hsame.1, hcreated.trans hsame.2⟩

theorem analyzeWithWatchProgram_iff (before rest : List TsConfig) (h : Pending env files state)
    (hiff : ∀ name, name ∈ state.pendingFiles ↔ name ∈ files.names ∧ ¬ InOptions env before name)
    (hpending : state.pendingFiles ≠ []) :
    (∃ last, analyzeWithWatchProgram env files rest state = .ok last) ↔
      ∀ tsConfig ∈ consultedAfter files (InOptions env) before rest, (env.createProgramOptions tsConfig).isOk := by
  induction rest generalizing before state with
  | nil => simp [analyzeWithWatchProgram, consultedAfter]
  | cons tsConfig rest ih =>
    have hleft : ∃ name ∈ files.names, ¬ InOptions env before name := by
      obtain ⟨name, hname⟩ := List.exists_mem_of_ne_nil _ hpending
      exact ⟨name, (hiff name).mp hname⟩
    rw [analyzeWithWatchProgram, consultedAfter, if_pos hleft, List.forall_mem_cons]
    cases hoptions : env.createProgramOptions tsConfig with
    | error message =>
      refine iff_of_false ?_ fun hall => by simp [Except.isOk, Except.toBool] at hall
      rintro ⟨last, hlast⟩
      cases hlast
    | ok filenames =>
      obtain ⟨hnext, hmem⟩ := h.foldl_analyzeListed none (some [tsConfig]) filenames
      have hnextiff : ∀ name, name ∈ (filenames.foldl (analyzeListed env files none (some [tsConfig])) state).pendingFiles ↔
          name ∈ files.names ∧ ¬ InOptions env (before ++ [tsConfig]) name := by
        intro name
        rw [hmem, hiff, and_assoc, ← not_or]
        simp only [InOptions, List.mem_append, List.mem_singleton, or_and_right, exists_or, exists_eq_left, hoptions,
          Except.ok.injEq, exists_eq_left']
      rw [and_iff_right (by rfl)]
      dsimp only [bind, Except.bind]
      split_ifs with hdone
      · have hnil : consultedAfter files (InOptions env) (before ++ [tsConfig]) rest = [] := by
          cases rest with
          | nil => rfl
          | cons next rest =>
            refine if_neg ?_
            rintro ⟨name, hname⟩
            exact List.ne_nil_of_mem ((hnextiff name).mpr hname) hdone
        rw [hnil]
        exact iff_of_true ⟨_, rfl⟩ (List.forall_mem_nil _)
      · exact ih _ hnext hnextiff hdone

/-! ### Whole runs -/

theorem analyzeWithoutProgram_covers (h : Pending env files state) :
    (∀ name ∈ files.names, ((analyzeWithoutProgram env files state).calls.map (·.filePath)).count name = 1 ∧
        ∃ call ∈ (analyzeWithoutProgram env files state).calls, call.filePath = name ∧
          (analyzeWithoutProgram env files state).files name = some (env.analyzeFile call)) ∧
      (analyzeWithoutProgram env files state).saved = state.saved ∧
      (analyzeWithoutProgram env files state).programsCreated = state.programsCreated := by
  have hloop : ∀ (names : List String) (state : ProjectState TsConfig Output),
      (state.calls.map (·.filePath) ++ names).Perm files.names →
      (∀ call ∈ state.calls, state.files call.filePath = some (env.analyzeFile call)) →
      let last := names.foldl (fun state filename =>
        match files.file filename with
        | none => state
        | some file => analyze env (requestOf env none none filename file)
          { state with filesWithoutTypeChecking := state.filesWithoutTypeChecking ++ [filename] }) state
      (last.calls.map (·.filePath)).Perm files.names ∧
        (∀ call ∈ last.calls, last.files call.filePath = some (env.analyzeFile call)) ∧
        last.saved = state.saved ∧ last.programsCreated = state.programsCreated := by
    intro names
    induction names with
    | nil => exact fun state hperm hresults => ⟨by simpa using hperm, hresults, rfl, rfl⟩
    | cons name names ih =>
      intro state hperm hresults
      have hname : name ∈ files.names := hperm.subset (by simp)
      obtain ⟨file, hfile⟩ := Option.isSome_iff_exists.mp ((files.mem_names name).mp hname)
      have hnew : name ∉ state.calls.map (·.filePath) := fun hmem =>
        (List.nodup_append.mp (hperm.nodup_iff.mpr files.nodup)).2.2 name hmem name List.mem_cons_self rfl
      rw [List.foldl_cons, hfile]
      refine ih _ ?_ (Pending.results_analyze hresults hnew)
      simpa [analyze, requestOf] using hperm
  obtain ⟨hperm, hresults, hsame⟩ := hloop state.pendingFiles state h.perm h.results
  refine ⟨fun name hname => ⟨?_, ?_⟩, hsame⟩
  · exact (hperm.count_eq name).trans (List.count_eq_one_of_mem files.nodup hname)
  · obtain ⟨call, hcall, rfl⟩ := List.mem_map.mp (hperm.symm.subset hname)
    exact ⟨call, hcall, rfl, hresults call hcall⟩

theorem pending_start (h : state.calls = []) (hpending : state.pendingFiles = files.names) :
    Pending env files state := by
  constructor
  · simp [h, hpending]
  · simp [h]

theorem inner_of_projectReferences {tsConfig : TsConfig} (h : projectReferences env tsConfig ≠ []) :
    (env.createProgram tsConfig).isOk = true := by
  unfold projectReferences at h
  cases hcreate : env.createProgram tsConfig with
  | error message => simp [hcreate] at h
  | ok program => rfl

theorem nodup_created_iff [DecidableEq TsConfig] {visited : List TsConfig} :
    (visited.filter fun tsConfig => (env.createProgram tsConfig).isOk).Nodup ↔
      ∀ tsConfig, (env.createProgram tsConfig).isOk = true → visited.count tsConfig ≤ 1 := by
  rw [List.nodup_iff_count_le_one]
  refine forall_congr' fun tsConfig => ?_
  by_cases hok : (env.createProgram tsConfig).isOk = true
  · rw [List.count_filter (by simpa using hok)]
    exact ⟨fun h _ => h, fun h => h hok⟩
  · rw [List.count_eq_zero_of_not_mem (by simp [hok])]
    exact ⟨fun _ h => absurd h hok, fun _ => Nat.zero_le 1⟩

theorem consultedAfter_nil {covered : List TsConfig → String → Prop} (hnames : files.names = [])
    (tsConfigs : List TsConfig) : consultedAfter files covered [] tsConfigs = [] := by
  cases tsConfigs with
  | nil => rfl
  | cons tsConfig tsConfigs => exact if_neg (by simp [hnames])

/-- The analysis of a project covers it exactly when, without SonarLint, each tsconfig that has a program is
named at most once by the tsconfigs consulted and the references of the programs in reach, and with SonarLint
the options of each tsconfig consulted can be created. -/
theorem covers_iff [Fintype TsConfig] [DecidableEq TsConfig] (env : ProjectEnvironment TsConfig Output) (files : JsTsFiles)
    (isSonarlint : Bool) (tsConfigs : List TsConfig) (saved : SavedPrograms TsConfig) :
    (∃ fuel state, analyzeProject env files isSonarlint tsConfigs saved fuel = some (.ok state) ∧
        Covered env files saved state) ↔
      (isSonarlint = false → ∀ tsConfig, (env.createProgram tsConfig).isOk = true →
          naming (projectReferences env) (consultedAfter files (InProgram env) [] tsConfigs) tsConfig ≤ 1) ∧
        (isSonarlint = true → ∀ tsConfig ∈ consultedAfter files (InOptions env) [] tsConfigs,
          (env.createProgramOptions tsConfig).isOk = true) := by
  unfold analyzeProject
  dsimp only
  by_cases hnames : files.names = []
  · simp only [if_pos hnames, consultedAfter_nil hnames]
    refine iff_of_true ⟨0, _, rfl, ⟨List.nodup_nil, by simp [hnames], rfl⟩⟩ ⟨fun _ tsConfig _ => ?_, fun _ => nofun⟩
    simp [naming, Reaches]
  simp only [if_neg hnames]
  generalize hstart : (⟨files.names, fun _ => none, [], [], [], saved⟩ : ProjectState TsConfig Output) = start
  have hpending : Pending env files start := pending_start (by rw [← hstart]) (by rw [← hstart])
  cases isSonarlint with
  | true =>
    have hiff := analyzeWithWatchProgram_iff [] tsConfigs hpending
      (fun name => by simp [← hstart, InOptions]) (by rwa [← hstart])
    simp only [if_true, Bool.true_eq_false, false_implies, true_implies, true_and, ← hiff]
    constructor
    · rintro ⟨fuel, state, hrun, -⟩
      cases hwatch : analyzeWithWatchProgram env files tsConfigs start with
      | error message => simp [hwatch, Except.map] at hrun
      | ok last => exact ⟨last, rfl⟩
    · rintro ⟨last, hlast⟩
      obtain ⟨hpending', hsaved, hcreated⟩ := analyzeWithWatchProgram_pending tsConfigs hpending hlast
      obtain ⟨honce, hsaved', hcreated'⟩ := analyzeWithoutProgram_covers hpending'
      refine ⟨0, _, by rw [hlast]; rfl, ⟨?_, honce, ?_⟩⟩
      · rw [hcreated', hcreated, ← hstart]
        exact List.nodup_nil
      · rw [hsaved', hsaved, ← hstart]
  | false =>
    have hvisited : Visited env files saved [] start := by
      subst hstart
      exact ⟨hpending, by simp, rfl, rfl⟩
    have hrun := fun n => analyzeWithProgram_spec n [] tsConfigs rfl hvisited
      (by rwa [← hstart])
    simp only [Bool.false_eq_true, if_false, false_implies, true_implies, and_true, hrun]
    rw [← exists_preorder_iff fun _ => inner_of_projectReferences]
    constructor
    · rintro ⟨fuel, state, hstate, hcovered⟩
      cases hgather : gather (preorder (projectReferences env) fuel) (consultedAfter files (InProgram env) [] tsConfigs) with
      | none => simp [hgather] at hstate
      | some visited =>
        rw [hgather] at hstate
        cases hstate
        have hcreated := hcovered.createdOnce
        have hlast := hvisited.foldl visited
        rw [(analyzeWithoutProgram_covers hlast.pending).2.2, hlast.created] at hcreated
        exact ⟨fuel, visited, hgather, nodup_created_iff.mp hcreated⟩
    · rintro ⟨fuel, visited, hgather, hcount⟩
      have hlast := hvisited.foldl visited
      obtain ⟨honce, hsaved, hcreated⟩ := analyzeWithoutProgram_covers hlast.pending
      refine ⟨fuel, _, by rw [hgather]; rfl, ⟨?_, honce, ?_⟩⟩
      · rw [hcreated, hlast.created]
        exact nodup_created_iff.mpr hcount
      · rw [hsaved, hlast.saved]

/-! ### A tsconfig that refers to itself -/

/-- The only tsconfig refers to itself. -/
def selfReference : ProjectEnvironment Unit Unit where
  createProgram _ := .ok ⟨["main.ts"], [()]⟩
  createProgramOptions _ := .ok ["main.ts"]
  readFile _ := ""
  analyzeFile _ := ()

/-- The request for main.ts. -/
def mainFile : JsTsFiles where
  names := ["main.ts"]
  file name := if name = "main.ts" then some ⟨none, .MAIN, none⟩ else none
  nodup := List.nodup_singleton _
  mem_names name := by
    by_cases h : name = "main.ts" <;> simp [h]

/-- The recursion does not end. -/
theorem self_reference_not_covered :
    ¬ ∃ fuel state, analyzeProject selfReference mainFile false [()] ⟨[], 0, nofun⟩ fuel = some (.ok state) ∧
      Covered selfReference mainFile ⟨[], 0, nofun⟩ state := by
  have hdeep : ∀ (fuel : ℕ) (state : ProjectState Unit Unit),
      analyzeProgram selfReference mainFile fuel () state = none := by
    intro fuel
    induction fuel with
    | zero => exact fun _ => rfl
    | succ fuel ih =>
      intro state
      change List.foldlM (fun state reference => analyzeProgram selfReference mainFile fuel reference state)
        (visitProgram selfReference mainFile () _ state) [()] = none
      rw [List.foldlM_cons, ih]
      rfl
  rintro ⟨fuel, state, hrun, -⟩
  have hnames : mainFile.names ≠ [] := List.cons_ne_nil _ _
  simp [analyzeProject, if_neg hnames, analyzeWithProgram, hdeep] at hrun

end SonarJavascript.ProjectAnalysis
