import SonarJavascript.Bridge.FormData
import SonarJavascript.Lib.BreadthFirst
import SonarJavascript.SonarLint.TsConfigSessions

/-!
# Where the tsconfigs come from

`TsConfigProvider` asks its providers one after the other: the property, the file system below the base
directory, and a file that is made for the project.

`lookup_spec`: the walk through the file system returns each `tsconfig.json` below directories that are not
excluded once, the outer ones first, and counts each file of the project once.
-/

namespace SonarJavascript.SonarLint

open SonarJavascript.Cache (JavaException)
open SonarJavascript.Bridge.FormData (stringSplit)
open Exploration BreadthFirst

inductive SonarProduct
  | SONARLINT | SONARQUBE
  deriving DecidableEq

/-- An entry of `listFiles`, with its absolute path. -/
structure File where
  path : String
  name : String
  isDirectory : Bool
  deriving DecidableEq

structure Configuration where
  get : String → Option String
  getStringArray : String → List String
  /-- `getInt` of `MAX_FILES_PROPERTY` -/
  maxFiles : Option ℤ

/-- What an analysis is about. The file system is part of it. -/
structure SensorContext where
  product : SonarProduct
  config : Configuration
  baseDir : String
  /-- `null` where the directory cannot be read. -/
  listFiles : String → Option (List File)
  /-- `getFilePath` of the base directory and a pattern. -/
  getFilePath : String → Option String
  /-- The absolute paths of `FileProvider.getMatchingFiles`. -/
  getMatchingFiles : String → List String
  /-- Iteration of a `HashSet` of these. -/
  hashSet : List String → List String
  /-- `WildcardPattern.match` of one pattern. -/
  wildcardMatch : String → String → Bool
  /-- The absolute paths of the JavaScript and TypeScript input files. -/
  inputFiles : List String

def hasKey (config : Configuration) (key : String) : Bool := (config.get key).isSome

/-! ### The property -/

def TSCONFIG_PATHS : String := "sonar.typescript.tsconfigPaths"

def TSCONFIG_PATHS_ALIAS : String := "sonar.typescript.tsconfigPath"

namespace PropertyTsConfigProvider

def tsconfigs (context : SensorContext) : List String :=
  if !hasKey context.config TSCONFIG_PATHS && !hasKey context.config TSCONFIG_PATHS_ALIAS then []
  else
    let property := if hasKey context.config TSCONFIG_PATHS then TSCONFIG_PATHS else TSCONFIG_PATHS_ALIAS
    (context.hashSet (context.config.getStringArray property)).flatMap fun pattern =>
      match context.getFilePath pattern with
      | some tsconfig => [tsconfig]
      | none => context.getMatchingFiles pattern

end PropertyTsConfigProvider

/-! ### The file system -/

namespace FileFilter

def extensions (config : Configuration) : List String :=
  stringSplit "," ((config.get "sonar.javascript.file.suffixes").getD ".js,.jsx,.cjs,.mjs,.vue") ++
    stringSplit "," ((config.get "sonar.typescript.file.suffixes").getD ".ts,.tsx,.cts,.mts")

def test (config : Configuration) (path : String) : Bool :=
  (extensions config).any fun ext => ext.toList.isSuffixOf path.toList

end FileFilter

namespace PathFilter

def JS_EXCLUSIONS_KEY : String := "sonar.javascript.exclusions"

def TS_EXCLUSIONS_KEY : String := "sonar.typescript.exclusions"

def EXCLUSIONS_DEFAULT_VALUE : List String :=
  ["**/node_modules/**", "**/bower_components/**", "**/dist/**", "**/vendor/**", "**/external/**", "**/*.d.ts"]

def isExclusionOverridden (config : Configuration) : Bool :=
  hasKey config JS_EXCLUSIONS_KEY || hasKey config TS_EXCLUSIONS_KEY

def exclusions (config : Configuration) : List String :=
  if !isExclusionOverridden config then EXCLUSIONS_DEFAULT_VALUE
  else config.getStringArray JS_EXCLUSIONS_KEY ++ config.getStringArray TS_EXCLUSIONS_KEY

/-- `replaceAll("[\\\\/]", "/")` -/
def toSlashes (path : String) : String := .ofList (path.toList.map fun c => if c = '\\' then '/' else c)

def test (context : SensorContext) (path : String) : Bool :=
  !(exclusions context.config).any fun pattern => context.wildcardMatch pattern (toSlashes path)

end PathFilter

namespace LookupTsConfigProvider

/-- The variables of the walk. -/
structure Walk where
  dirs : List String
  tsconfigs : List String
  fileCount : ℕ

/-- The body of the loop over the entries of a directory. -/
def visitFile (context : SensorContext) (walk : Walk) (file : File) : Walk :=
  if !PathFilter.test context file.path then walk
  else if file.isDirectory then { walk with dirs := walk.dirs ++ [file.path] }
  else if FileFilter.test context.config file.path then { walk with fileCount := walk.fileCount + 1 }
  else if file.name = "tsconfig.json" then { walk with tsconfigs := walk.tsconfigs ++ [file.path] }
  else walk

/-- The body of the loop over the directories. -/
def visitDir (context : SensorContext) (walk : Walk) (dir : String) : Walk :=
  match context.listFiles dir with
  | none => walk
  | some files => files.foldl (visitFile context) walk

/-- The loop over the directories. There is no result when the fuel does not suffice. -/
def walkDirs (context : SensorContext) : ℕ → Walk → Option Walk
  | 0, walk => if walk.dirs = [] then some walk else none
  | fuel + 1, walk =>
    match walk.dirs with
    | [] => some walk
    | dir :: dirs => walkDirs context fuel (visitDir context { walk with dirs := dirs } dir)

/-- The tsconfigs and the size of the project. -/
def lookup (context : SensorContext) (fuel : ℕ) : Option (List String × ℕ) :=
  (walkDirs context fuel ⟨[context.baseDir], [], 0⟩).map fun walk => (walk.tsconfigs, walk.fileCount)

/-! #### The walk is a breadth-first traversal -/

/-- The entries of a directory that are not excluded. -/
def entries (context : SensorContext) (dir : String) : List File :=
  ((context.listFiles dir).getD []).filter fun file => PathFilter.test context file.path

def subdirectories (context : SensorContext) (dir : String) : List String :=
  ((entries context dir).filter (·.isDirectory)).map (·.path)

/-- A file of the project. -/
def IsSource (context : SensorContext) (file : File) : Bool :=
  !file.isDirectory && FileFilter.test context.config file.path

def IsTsConfig (context : SensorContext) (file : File) : Bool :=
  !file.isDirectory && !FileFilter.test context.config file.path && file.name = "tsconfig.json"

def tsconfigsIn (context : SensorContext) (dir : String) : List String :=
  ((entries context dir).filter (IsTsConfig context)).map (·.path)

def sourcesIn (context : SensorContext) (dir : String) : List String :=
  ((entries context dir).filter (IsSource context)).map (·.path)

variable {context : SensorContext} {fuel : ℕ}

theorem foldl_visitFile (files : List File) (walk : Walk) : files.foldl (visitFile context) walk =
    let accepted := files.filter fun file => PathFilter.test context file.path
    ⟨walk.dirs ++ (accepted.filter (·.isDirectory)).map (·.path),
      walk.tsconfigs ++ (accepted.filter (IsTsConfig context)).map (·.path),
      walk.fileCount + ((accepted.filter (IsSource context)).map (·.path)).length⟩ := by
  induction files generalizing walk with
  | nil => simp
  | cons file files ih =>
    rw [List.foldl_cons, ih, visitFile]
    cases haccepted : PathFilter.test context file.path with
    | false => simp [haccepted]
    | true =>
      cases hdirectory : file.isDirectory with
      | true => simp [haccepted, hdirectory, IsTsConfig, IsSource]
      | false =>
        cases hsource : FileFilter.test context.config file.path with
        | true =>
          simp [haccepted, hdirectory, hsource, IsTsConfig, IsSource]
          omega
        | false =>
          by_cases hname : file.name = "tsconfig.json" <;>
            simp [haccepted, hdirectory, hsource, hname, IsTsConfig, IsSource]

theorem visitDir_eq (dir : String) (dirs tsconfigs : List String) (fileCount : ℕ) :
    visitDir context ⟨dirs, tsconfigs, fileCount⟩ dir =
      ⟨dirs ++ subdirectories context dir, tsconfigs ++ tsconfigsIn context dir,
        fileCount + (sourcesIn context dir).length⟩ := by
  rw [visitDir]
  cases hfiles : context.listFiles dir with
  | none => simp [subdirectories, tsconfigsIn, sourcesIn, entries, hfiles]
  | some files =>
    show files.foldl (visitFile context) _ = _
    rw [foldl_visitFile]
    simp [subdirectories, tsconfigsIn, sourcesIn, entries, hfiles]

theorem walkDirs_nil (tsconfigs : List String) (fileCount : ℕ) :
    walkDirs context fuel ⟨[], tsconfigs, fileCount⟩ = some ⟨[], tsconfigs, fileCount⟩ := by
  cases fuel <;> rfl

theorem walkDirs_cons (dir : String) (dirs tsconfigs : List String) (fileCount : ℕ) :
    walkDirs context (fuel + 1) ⟨dir :: dirs, tsconfigs, fileCount⟩ =
      walkDirs context fuel ⟨dirs ++ subdirectories context dir, tsconfigs ++ tsconfigsIn context dir,
        fileCount + (sourcesIn context dir).length⟩ := by
  rw [← visitDir_eq]
  rfl

theorem walkDirs_eq (dirs tsconfigs : List String) (fileCount : ℕ) :
    walkDirs context fuel ⟨dirs, tsconfigs, fileCount⟩ =
      (traverse (subdirectories context) fuel dirs).map fun visited =>
        ⟨[], tsconfigs ++ visited.flatMap (tsconfigsIn context),
          fileCount + (visited.flatMap (sourcesIn context)).length⟩ := by
  induction fuel generalizing dirs tsconfigs fileCount with
  | zero =>
    cases dirs with
    | nil => simp [walkDirs_nil]
    | cons dir dirs => rfl
  | succ fuel ih =>
    cases dirs with
    | nil => simp [walkDirs_nil]
    | cons dir dirs =>
      rw [walkDirs_cons, ih, traverse_succ_cons, Option.map_map]
      congr 1
      funext visited
      simp [Nat.add_assoc]

theorem lookup_eq : lookup context fuel = (traverse (subdirectories context) fuel [context.baseDir]).map fun visited =>
    (visited.flatMap (tsconfigsIn context), (visited.flatMap (sourcesIn context)).length) := by
  rw [lookup, walkDirs_eq, Option.map_map]
  congr 1
  funext visited
  simp

theorem lookup_unique {fuel' : ℕ} {result result' : List String × ℕ} (h : lookup context fuel = some result)
    (h' : lookup context fuel' = some result') : result = result' := by
  rw [lookup_eq, Option.map_eq_some_iff] at h h'
  obtain ⟨visited, htraverse, rfl⟩ := h
  obtain ⟨visited', htraverse', rfl⟩ := h'
  rw [traverse_unique htraverse htraverse']

/-! #### What the walk finds -/

/-- The directory is below directories that are not excluded. -/
def Below (context : SensorContext) (dir : String) : Prop := Reaches (subdirectories context) [context.baseDir] dir

/-- What `listFiles` returns: the entries have different names, and the path of the directory before them. -/
def Listed (context : SensorContext) : Prop :=
  ∀ dir files, context.listFiles dir = some files →
    (files.map (·.name)).Nodup ∧ ∀ file ∈ files, '/' ∉ file.name.toList ∧ file.path = dir ++ "/" ++ file.name

/-- The entries of the directories that satisfy a condition. -/
def found (context : SensorContext) (pick : File → Bool) (dir : String) : List String :=
  ((entries context dir).filter pick).map (·.path)

def slashes (path : String) : ℕ := path.toList.count '/'

theorem append_slash_inj {dir dir' name name' : List Char} (hname : '/' ∉ name) (hname' : '/' ∉ name')
    (h : dir ++ '/' :: name = dir' ++ '/' :: name') : dir = dir' ∧ name = name' := by
  rcases List.append_eq_append_iff.mp h with ⟨middle, rfl, hrest⟩ | ⟨middle, rfl, hrest⟩
  · cases middle with
    | nil => simpa using hrest
    | cons c middle =>
      obtain ⟨rfl, rfl⟩ := List.cons.inj hrest
      simp at hname
  · cases middle with
    | nil => simpa [eq_comm] using hrest
    | cons c middle =>
      obtain ⟨rfl, rfl⟩ := List.cons.inj hrest
      simp at hname'

namespace Listed

variable {dir dir' : String} {file file' : File} (h : Listed context)
include h

theorem entry (hfile : file ∈ entries context dir) :
    '/' ∉ file.name.toList ∧ file.path.toList = dir.toList ++ '/' :: file.name.toList := by
  obtain ⟨hmem, -⟩ := List.mem_filter.mp hfile
  cases hfiles : context.listFiles dir with
  | none => simp [hfiles] at hmem
  | some files =>
    rw [hfiles, Option.getD_some] at hmem
    obtain ⟨hname, hpath⟩ := (h dir files hfiles).2 file hmem
    exact ⟨hname, by simp [hpath]⟩

theorem entry_inj (hfile : file ∈ entries context dir) (hfile' : file' ∈ entries context dir')
    (hpath : file.path = file'.path) : dir = dir' ∧ file.name = file'.name := by
  obtain ⟨hname, heq⟩ := h.entry hfile
  obtain ⟨hname', heq'⟩ := h.entry hfile'
  rw [hpath, heq'] at heq
  obtain ⟨hdir, hsame⟩ := append_slash_inj hname hname' heq.symm
  exact ⟨String.ext hdir, String.ext hsame⟩

theorem nodup_names : ((entries context dir).map (·.name)).Nodup := by
  rw [entries]
  cases hfiles : context.listFiles dir with
  | none => simp
  | some files => exact (h dir files hfiles).1.sublist (List.filter_sublist.map _)

theorem found_nodup (pick : File → Bool) : (found context pick dir).Nodup := by
  have hnames : (((entries context dir).filter pick).map (·.name)).Nodup :=
    h.nodup_names.sublist (List.filter_sublist.map _)
  refine List.Nodup.map_on (fun file hfile file' hfile' hpath => ?_) hnames.of_map
  have hname := (h.entry_inj (List.mem_of_mem_filter hfile) (List.mem_of_mem_filter hfile') hpath).2
  exact List.inj_on_of_nodup_map hnames hfile hfile' hname

theorem found_parent {pick : File → Bool} {path : String} (hpath : path ∈ found context pick dir)
    (hpath' : path ∈ found context pick dir') : dir = dir' := by
  obtain ⟨file, hfile, rfl⟩ := List.mem_map.mp hpath
  obtain ⟨file', hfile', heq⟩ := List.mem_map.mp hpath'
  exact (h.entry_inj (List.mem_of_mem_filter hfile) (List.mem_of_mem_filter hfile') heq.symm).1

/-- A level is as deep as its number. -/
theorem slashes_level {n : ℕ} (hdir : dir ∈ level (subdirectories context) [context.baseDir] n) :
    slashes dir = slashes context.baseDir + n := by
  induction n generalizing dir with
  | zero => rw [List.mem_singleton.mp hdir, Nat.add_zero]
  | succ n ih =>
    obtain ⟨parent, hparent, hmem⟩ := List.mem_flatMap.mp hdir
    obtain ⟨file, hfile, rfl⟩ := List.mem_map.mp hmem
    obtain ⟨hname, hpath⟩ := h.entry (List.mem_of_mem_filter hfile)
    rw [slashes, hpath, List.count_append, List.count_cons_self, List.count_eq_zero.mpr hname]
    have hslashes := ih hparent
    rw [slashes] at hslashes
    omega

theorem slashes_found {pick : File → Bool} {path : String} (hpath : path ∈ found context pick dir) :
    slashes path = slashes dir + 1 := by
  obtain ⟨file, hfile, rfl⟩ := List.mem_map.mp hpath
  obtain ⟨hname, hpath⟩ := h.entry (List.mem_of_mem_filter hfile)
  rw [slashes, hpath, List.count_append, List.count_cons_self, List.count_eq_zero.mpr hname, slashes]

theorem forest : Forest (subdirectories context) [context.baseDir] where
  roots_nodup := List.nodup_singleton _
  succ_nodup dir _ := h.found_nodup _
  not_root dir path hdir hpath hbase := by
    obtain ⟨n, hlevel⟩ := reaches_iff_mem_level.mp hdir
    have hdeep := h.slashes_level hlevel
    have hdeeper := h.slashes_found hpath
    rw [List.mem_singleton.mp hbase] at hdeeper
    omega
  parent dir dir' path _ _ hpath hpath' := h.found_parent hpath hpath'

theorem flatMap_found_nodup {visited : List String} (hvisited : visited.Nodup) (pick : File → Bool) :
    (visited.flatMap (found context pick)).Nodup := by
  refine List.nodup_flatMap.mpr ⟨fun dir _ => h.found_nodup pick, hvisited.imp fun {dir dir'} hne path hpath hpath' => ?_⟩
  exact hne (h.found_parent hpath hpath')

end Listed

theorem mem_flatMap_found {visited : List String} (htraverse : traverse (subdirectories context) fuel [context.baseDir] =
    some visited) (pick : File → Bool) (path : String) : path ∈ visited.flatMap (found context pick) ↔
      ∃ dir, Below context dir ∧ ∃ file ∈ entries context dir, pick file = true ∧ file.path = path := by
  simp only [List.mem_flatMap, found, List.mem_map, List.mem_filter, mem_traverse_iff htraverse, Below, and_assoc]

theorem outer_first (h : Listed context) {visited : List String}
    (htraverse : traverse (subdirectories context) fuel [context.baseDir] = some visited) (pick : File → Bool) :
    (visited.flatMap (found context pick)).Pairwise fun path path' => slashes path ≤ slashes path' := by
  obtain ⟨n, -, rfl⟩ := eq_levels_of_traverse htraverse
  have hdirs : (levels (subdirectories context) [context.baseDir] n).Pairwise fun dir dir' =>
      slashes dir ≤ slashes dir' := by
    refine List.pairwise_flatMap.mpr ⟨fun m _ => ?_, List.pairwise_lt_range.imp fun {m m'} hlt dir hdir dir' hdir' => ?_⟩
    · refine List.pairwise_of_forall_mem_list fun dir hdir dir' hdir' => ?_
      rw [h.slashes_level hdir, h.slashes_level hdir']
    · rw [h.slashes_level hdir, h.slashes_level hdir']
      omega
  refine List.pairwise_flatMap.mpr ⟨fun dir _ => ?_, hdirs.imp fun {dir dir'} hle path hpath path' hpath' => ?_⟩
  · refine List.pairwise_of_forall_mem_list fun path hpath path' hpath' => ?_
    rw [h.slashes_found hpath, h.slashes_found hpath']
  · rw [h.slashes_found hpath, h.slashes_found hpath']
    omega

theorem lookup_spec (h : Listed context) (hfinite : {dir | Below context dir}.Finite) :
    (∃ fuel, (lookup context fuel).isSome) ∧ ∀ fuel tsconfigs fileCount,
      lookup context fuel = some (tsconfigs, fileCount) →
        (∀ path, path ∈ tsconfigs ↔ ∃ dir, Below context dir ∧
          ∃ file ∈ entries context dir, IsTsConfig context file = true ∧ file.path = path) ∧
        tsconfigs.Nodup ∧ tsconfigs.Pairwise (fun path path' => slashes path ≤ slashes path') ∧
        ∃ sources : List String, sources.Nodup ∧ sources.length = fileCount ∧ ∀ path, path ∈ sources ↔
          ∃ dir, Below context dir ∧ ∃ file ∈ entries context dir, IsSource context file = true ∧ file.path = path := by
  constructor
  · obtain ⟨fuel, visited, htraverse⟩ := h.forest.exists_traverse hfinite
    exact ⟨fuel, by simp [lookup_eq, htraverse]⟩
  · intro fuel tsconfigs fileCount hlookup
    rw [lookup_eq, Option.map_eq_some_iff] at hlookup
    obtain ⟨visited, htraverse, heq⟩ := hlookup
    obtain ⟨rfl, rfl⟩ := Prod.mk.inj heq
    have hvisited := h.forest.traverse_nodup htraverse
    exact ⟨mem_flatMap_found htraverse _, h.flatMap_found_nodup hvisited _, outer_first h htraverse _,
      _, h.flatMap_found_nodup hvisited _, rfl, mem_flatMap_found htraverse _⟩

/-- A project with two tsconfigs, the directory `/p` and below it `/p/src`. -/
def twoConfigs : SensorContext where
  product := .SONARLINT
  config := ⟨fun _ => none, fun _ => [], none⟩
  baseDir := "/p"
  listFiles dir :=
    if dir = "/p" then some [⟨"/p/tsconfig.json", "tsconfig.json", false⟩, ⟨"/p/src", "src", true⟩]
    else if dir = "/p/src" then
      some [⟨"/p/src/a.ts", "a.ts", false⟩, ⟨"/p/src/tsconfig.json", "tsconfig.json", false⟩]
    else none
  getFilePath _ := none
  getMatchingFiles _ := []
  hashSet patterns := patterns
  wildcardMatch _ _ := false
  inputFiles := ["/p/src/a.ts"]

theorem listed_twoConfigs : Listed twoConfigs := by
  intro dir files hfiles
  simp only [twoConfigs] at hfiles
  split_ifs at hfiles with hbase hsrc
  · obtain rfl := Option.some.inj hfiles
    subst hbase
    decide
  · obtain rfl := Option.some.inj hfiles
    subst hsrc
    decide

theorem finite_twoConfigs : {dir | Below twoConfigs dir}.Finite := by
  refine (List.finite_toSet ["/p", "/p/src"]).subset fun dir hdir => ?_
  obtain ⟨base, hbase, hpath⟩ := hdir
  obtain rfl := List.mem_singleton.mp hbase
  induction hpath with
  | refl => exact List.mem_cons_self
  | tail _ hnext ih =>
    rcases List.mem_cons.mp ih with rfl | ih
    · have hsub : subdirectories twoConfigs "/p" = ["/p/src"] := by decide
      rw [hsub] at hnext
      exact List.mem_cons_of_mem _ hnext
    · rw [List.mem_singleton.mp ih] at hnext
      have hsub : subdirectories twoConfigs "/p/src" = [] := by decide
      rw [hsub] at hnext
      cases hnext

theorem lookup_twoConfigs : ∃ fuel, (lookup twoConfigs fuel).isSome :=
  (lookup_spec listed_twoConfigs finite_twoConfigs).1

end LookupTsConfigProvider

end SonarJavascript.SonarLint
