import Mathlib.Algebra.GroupWithZero.Nat
import SonarJavascript.Helpers.FindUp

/-!
# The dependencies of a file

`getDependencies` collects the names that the `package.json` files above a file depend on, and keeps them for
the directory of the file; the finders keep the files of the directories.

`answers_eq`: in every sequence of calls of which no two are in conflict, each call gives what it gives with
empty caches.
-/

namespace SonarJavascript.Helpers

open PartialCache

/-- What `JSON.parse` gives: a number with its text, an object with its properties in the order of
`Object.keys`. -/
inductive Json
  | null
  | bool (value : Bool)
  | number (text : List Char)
  | string (text : List Char)
  | array (items : List Json)
  | object (properties : List (List Char × Json))

/-- The name of a dependency. -/
inductive Dependency (Pattern : Type)
  | named (name : List Char)
  | minimatch (name : Pattern)
  deriving DecidableEq

/-- What the code runs with. `parse` has no value when `JSON.parse` throws. -/
structure Runtime (Finder Error Pattern : Type) where
  node : NodePath
  matcher : Finder → Path → Bool
  findPackageJsons : Finder
  fs : Filesystem Error
  parse : List Char → Option Json
  newMinimatch : Json → Except Error Pattern
  typeError : Error

variable {Finder Error Pattern : Type} (runtime : Runtime Finder Error Pattern)

/-! ### The dependencies of a manifest -/

namespace Json

def property (name : String) : Json → Option Json
  | object properties => properties.lookup name.toList
  | _ => none

def truthy : Json → Bool
  | null => false
  | bool value => value
  | number text => text ≠ ['0']
  | string text => text ≠ []
  | array _ | object _ => true

mutual

/-- `String(value)`, which throws when an object has a property `toString` of its own. -/
def toText : Json → Option (List Char)
  | null => some "null".toList
  | bool value => some (toString value).toList
  | number text | string text => some text
  | array items => (itemTexts items).map [','].intercalate
  | object properties =>
    if properties.any (·.1 = "toString".toList) then none else some "[object Object]".toList

def itemTexts : List Json → Option (List (List Char))
  | [] => some []
  | null :: items => (itemTexts items).map ([] :: ·)
  | item :: items => do return (← item.toText) :: (← itemTexts items)

end

/-- The length of a text in UTF-16 code units. -/
def utf16Length (text : List Char) : ℕ := (text.map fun c => if c.toNat < 0x10000 then 1 else 2).sum

/-- `Object.keys`. -/
def keys : Json → Except Error (List (List Char))
  | null => .error runtime.typeError
  | bool _ | number _ => .ok []
  | string text => .ok ((List.range (utf16Length text)).map fun index => index.repr.toList)
  | array items => .ok ((List.range items.length).map fun index => index.repr.toList)
  | object properties => .ok (properties.map (·.1))

end Json

def definitelyTyped : List Char := "@types/".toList

def addDependency (dependency : List Char) : Dependency Pattern :=
  if definitelyTyped.isPrefixOf dependency then .named (dependency.drop definitelyTyped.length)
  else .named dependency

def addDependencies (dependencies : Json) : Except Error (List (Dependency Pattern)) :=
  (dependencies.keys runtime).map (·.map addDependency)

def addDependenciesArray (dependencies : List Json) : Except Error (List (Dependency Pattern)) :=
  (dependencies.mapM runtime.newMinimatch).map (·.map .minimatch)

/-- Nothing is added when there is no such property. -/
def addProperty (content : Json) (name : String) : Except Error (List (Dependency Pattern)) :=
  match content.property name with
  | some dependencies => addDependencies runtime dependencies
  | none => .ok []

def addName (content : Json) : Except Error (List (Dependency Pattern)) :=
  match content.property "name" with
  | some name =>
    if name.truthy then
      match name.toText with
      | some key => addDependencies runtime (.object [(key, .string ['*'])])
      | none => .error runtime.typeError
    else .ok []
  | none => .ok []

def addWorkspaces (content : Json) : Except Error (List (Dependency Pattern)) :=
  match content.property "workspaces" with
  | some (.array workspaces) => addDependenciesArray runtime workspaces
  | some workspaces =>
    match workspaces.property "packages" with
    | some packages =>
      if packages.truthy then
        match packages with
        | .array names => addDependenciesArray runtime names
        | _ => .error runtime.typeError
      else .ok []
    | none => .ok []
  | none => .ok []

def getDependenciesFromPackageJson : Json → Except Error (List (Dependency Pattern))
  | .null => .error runtime.typeError
  | content => do
    let name ← addName runtime content
    let dependencies ← addProperty runtime content "dependencies"
    let devDependencies ← addProperty runtime content "devDependencies"
    let peerDependencies ← addProperty runtime content "peerDependencies"
    let optionalDependencies ← addProperty runtime content "optionalDependencies"
    let moduleAliases ← addProperty runtime content "_moduleAliases"
    let workspaces ← addWorkspaces runtime content
    return name ++ dependencies ++ devDependencies ++ peerDependencies ++ optionalDependencies ++
      moduleAliases ++ workspaces

/-- The dependencies that have been added when the loop ends, and the exception that ends it. -/
def collect : List Json → List (Dependency Pattern) × Option Error
  | [] => ([], none)
  | manifest :: manifests =>
    match getDependenciesFromPackageJson runtime manifest with
    | .error error => ([], some error)
    | .ok dependencies =>
      let (result, exception) := collect manifests
      (dependencies ++ result, exception)

/-- `new Set` keeps each name once; two instances of `Minimatch` are never the same. -/
def nameSet : List (Dependency Pattern) → List (Dependency Pattern)
  | [] => []
  | .minimatch name :: names => .minimatch name :: nameSet names
  | .named name :: names => .named name :: (nameSet names).filter fun
    | .named other => other ≠ name
    | .minimatch _ => true

/-! ### The caches -/

/-- The cache of each finder, and the one of `getDependencies`. -/
structure Caches (Finder Pattern : Type) where
  files : Finder → Cache Path (List File)
  dependencies : Cache Path (List (Dependency Pattern))

def Caches.empty : Caches Finder Pattern := ⟨fun _ _ => none, fun _ => none⟩

variable [DecidableEq Finder]

def Caches.findUp (caches : Caches Finder Pattern) (finder : Finder) (dir : Path) (upTo : Option Path)
    (filesystem : Option (Filesystem Error)) : Except Error (List File) × Caches Finder Pattern :=
  let (result, cache) := Helpers.findUp runtime.node (runtime.matcher finder) (filesystem.getD runtime.fs)
    (caches.files finder) dir upTo
  (result, { caches with files := Function.update caches.files finder cache })

def stripBOM : List Char → List Char
  | [] => []
  | c :: text => if c = '\uFEFF' then text else c :: text

/-- A file that cannot be parsed is an empty manifest. -/
def manifestOf (file : File) : Json := (runtime.parse (stripBOM file.content)).getD (.object [])

def Caches.getManifests (caches : Caches Finder Pattern) (dir : Path) (workingDirectory : Option Path)
    (fileSystem : Option (Filesystem Error)) : Except Error (List Json) × Caches Finder Pattern :=
  let (files, caches) := caches.findUp runtime runtime.findPackageJsons dir workingDirectory fileSystem
  (files.map (·.map (manifestOf runtime)), caches)

def Caches.getDependencies (caches : Caches Finder Pattern) (filename cwd : Path) :
    Except Error (List (Dependency Pattern)) × Caches Finder Pattern :=
  let dir := dirname (toUnixPath filename)
  match caches.dependencies dir with
  | some cached => (.ok (nameSet cached), caches)
  | none =>
    let caches := { caches with dependencies := Function.update caches.dependencies dir (some []) }
    match caches.getManifests runtime dir (some cwd) (some runtime.fs) with
    | (.error error, caches) => (.error error, caches)
    | (.ok manifests, caches) =>
      let (result, exception) := collect runtime manifests
      let caches := { caches with dependencies := Function.update caches.dependencies dir (some result) }
      match exception with
      | some error => (.error error, caches)
      | none => (.ok (nameSet result), caches)

/-! ### Calls -/

inductive Call (Finder Error : Type)
  | findUp (finder : Finder) (dir : Path) (upTo : Option Path) (filesystem : Option (Filesystem Error))
  | getManifests (dir : Path) (workingDirectory : Option Path) (fileSystem : Option (Filesystem Error))
  | getDependencies (filename cwd : Path)

/-- The result of a call, or its exception. -/
inductive Answer (Error Pattern : Type)
  | files (result : Except Error (List File))
  | manifests (result : Except Error (List Json))
  | dependencies (result : Except Error (List (Dependency Pattern)))

def Call.run (caches : Caches Finder Pattern) : Call Finder Error → Answer Error Pattern × Caches Finder Pattern
  | .findUp finder dir upTo filesystem =>
    let (result, caches) := caches.findUp runtime finder dir upTo filesystem
    (.files result, caches)
  | .getManifests dir workingDirectory fileSystem =>
    let (result, caches) := caches.getManifests runtime dir workingDirectory fileSystem
    (.manifests result, caches)
  | .getDependencies filename cwd =>
    let (result, caches) := caches.getDependencies runtime filename cwd
    (.dependencies result, caches)

/-- What the calls give, one after the other. -/
def answers (caches : Caches Finder Pattern) : List (Call Finder Error) → List (Answer Error Pattern)
  | [] => []
  | call :: calls => (call.run runtime caches).1 :: answers (call.run runtime caches).2 calls

/-! ### The search of a call -/

/-- A walk of a finder through directories of a file system. -/
structure Search (Finder Error : Type) where
  finder : Finder
  filesystem : Filesystem Error
  directories : List Path

namespace Search

variable (search : Search Finder Error)

def filesIn : Path → List File × Option Error :=
  Helpers.filesIn runtime.node (runtime.matcher search.finder) search.filesystem

/-- The directories up to the first one with a file that cannot be read. -/
def reached : List Path := PartialCache.reached (search.filesIn runtime) search.directories

def outcome : Except Error (List File) :=
  (PartialCache.outcome (search.filesIn runtime) search.directories).map List.flatten

end Search

def searchUp (finder : Finder) (dir : Path) (upTo : Option Path) (filesystem : Option (Filesystem Error)) :
    Search Finder Error :=
  ⟨finder, filesystem.getD runtime.fs, directories runtime.node (unixBase upTo) (toUnixPath dir)⟩

def dependenciesSearch (filename cwd : Path) : Search Finder Error :=
  searchUp runtime runtime.findPackageJsons (dirname (toUnixPath filename)) (some cwd) (some runtime.fs)

def Call.search : Call Finder Error → Search Finder Error
  | .findUp finder dir upTo filesystem => searchUp runtime finder dir upTo filesystem
  | .getManifests dir workingDirectory fileSystem =>
    searchUp runtime runtime.findPackageJsons dir workingDirectory fileSystem
  | .getDependencies filename cwd => dependenciesSearch runtime filename cwd

/-- The dependencies that a call keeps, and the exception that ends it. -/
def collected (filename cwd : Path) : List (Dependency Pattern) × Option Error :=
  match (dependenciesSearch runtime filename cwd).outcome runtime with
  | .error error => ([], some error)
  | .ok files => collect runtime (files.map (manifestOf runtime))

/-- What the call gives without caches. -/
def Call.answer : Call Finder Error → Answer Error Pattern
  | .findUp finder dir upTo filesystem => .files ((searchUp runtime finder dir upTo filesystem).outcome runtime)
  | .getManifests dir workingDirectory fileSystem =>
    .manifests (((searchUp runtime runtime.findPackageJsons dir workingDirectory fileSystem).outcome runtime).map
      (·.map (manifestOf runtime)))
  | .getDependencies filename cwd =>
    .dependencies (match (collected runtime filename cwd).2 with
      | some error => .error error
      | none => .ok (nameSet (collected runtime filename cwd).1))

/-! ### Calls that are not in conflict -/

/-- The dependencies of each manifest that the call finds can be collected. -/
def Collects (filename cwd : Path) : Prop :=
  ∀ dir ∈ (dependenciesSearch runtime filename cwd).reached runtime,
    ∀ file ∈ ((dependenciesSearch runtime filename cwd).filesIn runtime dir).1,
      ∃ dependencies, getDependenciesFromPackageJson runtime (manifestOf runtime file) = .ok dependencies

/-- Where two searches of one finder meet, they find the same files, which can be read. Two calls for files of
one directory have the same working directory, and the manifests that they find can be used. -/
structure Compatible (earlier later : Call Finder Error) : Prop where
  files : (earlier.search runtime).finder = (later.search runtime).finder →
    ∀ dir ∈ (earlier.search runtime).reached runtime, dir ∈ (later.search runtime).reached runtime →
      (earlier.search runtime).filesIn runtime dir = (later.search runtime).filesIn runtime dir ∧
        ((earlier.search runtime).filesIn runtime dir).2 = none
  dependencies : ∀ filename cwd filename' cwd', earlier = .getDependencies filename cwd →
    later = .getDependencies filename' cwd' → dirname (toUnixPath filename) = dirname (toUnixPath filename') →
      unixBase (some cwd) = unixBase (some cwd') ∧ Collects runtime filename cwd

/-- The caches have what the calls have found. -/
structure Inv (done : List (Call Finder Error)) (caches : Caches Finder Pattern) : Prop where
  files : ∀ finder dir files, caches.files finder dir = some files →
    ∃ call ∈ done, (call.search runtime).finder = finder ∧ dir ∈ (call.search runtime).reached runtime ∧
      files = ((call.search runtime).filesIn runtime dir).1
  dependencies : ∀ dir kept, caches.dependencies dir = some kept →
    ∃ filename cwd, .getDependencies filename cwd ∈ done ∧ dirname (toUnixPath filename) = dir ∧
      kept = (collected runtime filename cwd).1

variable {runtime} {done : List (Call Finder Error)} {caches : Caches Finder Pattern} {call : Call Finder Error}

omit [DecidableEq Finder] in
theorem inv_empty : Inv runtime [] Caches.empty := ⟨by simp [Caches.empty], by simp [Caches.empty]⟩

omit [DecidableEq Finder] in
/-- What the caches have of the directories that the next call searches is complete. -/
theorem Inv.agrees (h : Inv runtime done caches)
    (hcompatible : ∀ earlier ∈ done, Compatible runtime earlier call) :
    Agrees ((call.search runtime).filesIn runtime) (caches.files (call.search runtime).finder)
      ((call.search runtime).reached runtime) := by
  intro dir hdir files hfiles
  obtain ⟨earlier, hearlier, hfinder, hreached, rfl⟩ := h.files _ _ _ hfiles
  obtain ⟨hsame, hnone⟩ := (hcompatible earlier hearlier).files hfinder dir hreached hdir
  rw [← hsame, ← hnone]

/-- What the call adds to the caches it has found. -/
theorem Inv.append (h : Inv runtime done caches) {cache : Cache Path (List File)}
    {dependencies : Cache Path (List (Dependency Pattern))}
    (hfiles : ∀ dir files, cache dir = some files → caches.files (call.search runtime).finder dir = some files ∨
      dir ∈ (call.search runtime).reached runtime ∧ files = ((call.search runtime).filesIn runtime dir).1)
    (hdependencies : ∀ dir kept, dependencies dir = some kept → caches.dependencies dir = some kept ∨
      ∃ filename cwd, call = .getDependencies filename cwd ∧ dirname (toUnixPath filename) = dir ∧
        kept = (collected runtime filename cwd).1) :
    Inv runtime (done ++ [call])
      ⟨Function.update caches.files (call.search runtime).finder cache, dependencies⟩ := by
  constructor
  · intro finder dir files hcached
    have hcases : caches.files finder dir = some files ∨ finder = (call.search runtime).finder ∧
        dir ∈ (call.search runtime).reached runtime ∧ files = ((call.search runtime).filesIn runtime dir).1 := by
      by_cases hfinder : finder = (call.search runtime).finder
      · subst hfinder
        simp only [Function.update_self] at hcached
        exact (hfiles dir files hcached).imp_right fun hnew => ⟨rfl, hnew⟩
      · exact .inl ((congrFun (Function.update_of_ne hfinder ..) dir).symm.trans hcached)
    obtain hcached | ⟨rfl, hreached, hnew⟩ := hcases
    · obtain ⟨earlier, hearlier, hrest⟩ := h.files finder dir files hcached
      exact ⟨earlier, List.mem_append_left _ hearlier, hrest⟩
    · exact ⟨call, by simp, rfl, hreached, hnew⟩
  · intro dir kept hkept
    obtain hkept | ⟨filename, cwd, rfl, hdir, hnew⟩ := hdependencies dir kept hkept
    · obtain ⟨filename, cwd, hmem, hrest⟩ := h.dependencies dir kept hkept
      exact ⟨filename, cwd, List.mem_append_left _ hmem, hrest⟩
    · exact ⟨filename, cwd, by simp, hdir, hnew⟩

/-- A search gives what it gives without caches. -/
theorem Caches.findUp_of_agrees (caches : Caches Finder Pattern) {finder : Finder} {dir : Path}
    {upTo : Option Path} {filesystem : Option (Filesystem Error)}
    (h : Agrees ((searchUp runtime finder dir upTo filesystem).filesIn runtime) (caches.files finder)
      ((searchUp runtime finder dir upTo filesystem).reached runtime)) :
    ∃ cache, caches.findUp runtime finder dir upTo filesystem =
        ((searchUp runtime finder dir upTo filesystem).outcome runtime,
          ⟨Function.update caches.files finder cache, caches.dependencies⟩) ∧
      ∀ dir' files, cache dir' = some files → caches.files finder dir' = some files ∨
        dir' ∈ (searchUp runtime finder dir upTo filesystem).reached runtime ∧
          files = ((searchUp runtime finder dir upTo filesystem).filesIn runtime dir').1 := by
  obtain ⟨hresult, hkept⟩ := walk_eq h
  refine ⟨_, ?_, hkept⟩
  simp only [Caches.findUp, Helpers.findUp, findUpFrom_eq]
  exact Prod.ext (congrArg (Except.map List.flatten) hresult) rfl

omit [DecidableEq Finder] in
theorem collect_of_forall {manifests : List Json}
    (h : ∀ manifest ∈ manifests,
      ∃ dependencies, getDependenciesFromPackageJson runtime manifest = .ok dependencies) :
    (collect runtime manifests).2 = none := by
  induction manifests with
  | nil => rfl
  | cons manifest manifests ih =>
    obtain ⟨dependencies, hdependencies⟩ := h manifest List.mem_cons_self
    simp only [collect, hdependencies]
    exact ih fun manifest hmem => h manifest (List.mem_cons_of_mem _ hmem)

omit [DecidableEq Finder] in
/-- A call whose files can be read and whose manifests can be used has no exception. -/
theorem collected_of_collects {filename cwd : Path} (h : Collects runtime filename cwd)
    (hread : ∀ dir ∈ (dependenciesSearch runtime filename cwd).reached runtime,
      ((dependenciesSearch runtime filename cwd).filesIn runtime dir).2 = none) :
    (collected runtime filename cwd).2 = none := by
  unfold collected Search.outcome
  rw [outcome_of_reached hread]
  refine collect_of_forall fun manifest hmanifest => ?_
  obtain ⟨file, hfile, rfl⟩ := List.mem_map.mp hmanifest
  obtain ⟨files, hfiles, hfile⟩ := List.mem_flatten.mp hfile
  obtain ⟨dir, hdir, rfl⟩ := List.mem_map.mp hfiles
  exact h dir hdir file hfile

omit [DecidableEq Finder] in
theorem Inv.mono (h : Inv runtime done caches) : Inv runtime (done ++ [call]) caches where
  files finder dir files hcached := by
    obtain ⟨earlier, hearlier, hrest⟩ := h.files finder dir files hcached
    exact ⟨earlier, List.mem_append_left _ hearlier, hrest⟩
  dependencies dir kept hkept := by
    obtain ⟨filename, cwd, hmem, hrest⟩ := h.dependencies dir kept hkept
    exact ⟨filename, cwd, List.mem_append_left _ hmem, hrest⟩

omit [DecidableEq Finder] in
/-- What is kept for the directory of a file is what the call collects, without an exception. -/
theorem Inv.kept (h : Inv runtime done caches) {filename cwd : Path} {kept : List (Dependency Pattern)}
    (hcompatible : ∀ earlier ∈ done, Compatible runtime earlier (.getDependencies filename cwd))
    (hkept : caches.dependencies (dirname (toUnixPath filename)) = some kept) :
    collected runtime filename cwd = (kept, none) := by
  obtain ⟨filename', cwd', hmem, hdir, rfl⟩ := h.dependencies _ _ hkept
  have hpair := hcompatible _ hmem
  obtain ⟨hbase, hcollects⟩ := hpair.dependencies _ _ _ _ rfl rfl hdir
  have hsearch : dependenciesSearch runtime filename' cwd' = dependenciesSearch runtime filename cwd := by
    simp only [dependenciesSearch, searchUp, hdir, hbase]
  have hread : ∀ dir ∈ (dependenciesSearch runtime filename' cwd').reached runtime,
      ((dependenciesSearch runtime filename' cwd').filesIn runtime dir).2 = none := by
    intro dir hreached
    have hlater : dir ∈ (dependenciesSearch runtime filename cwd).reached runtime := by rwa [← hsearch]
    exact (hpair.files rfl dir hreached hlater).2
  have hnone := collected_of_collects hcollects hread
  have hcollected : collected runtime filename' cwd' = collected runtime filename cwd := by
    simp only [collected, hsearch]
  rw [← hcollected]
  exact Prod.ext rfl hnone

/-- What is not kept is collected, and kept. -/
theorem Caches.getDependencies_of_agrees {filename cwd : Path}
    (hnone : caches.dependencies (dirname (toUnixPath filename)) = none)
    (h : Agrees ((dependenciesSearch runtime filename cwd).filesIn runtime)
      (caches.files runtime.findPackageJsons) ((dependenciesSearch runtime filename cwd).reached runtime)) :
    ∃ cache, (Call.getDependencies filename cwd).run runtime caches =
        ((Call.getDependencies filename cwd).answer runtime,
          ⟨Function.update caches.files runtime.findPackageJsons cache,
            Function.update caches.dependencies (dirname (toUnixPath filename))
              (some (collected runtime filename cwd).1)⟩) ∧
      ∀ dir files, cache dir = some files → caches.files runtime.findPackageJsons dir = some files ∨
        dir ∈ (dependenciesSearch runtime filename cwd).reached runtime ∧
          files = ((dependenciesSearch runtime filename cwd).filesIn runtime dir).1 := by
  obtain ⟨cache, heq, hkept⟩ := Caches.findUp_of_agrees
    ⟨caches.files, Function.update caches.dependencies (dirname (toUnixPath filename)) (some [])⟩ h
  refine ⟨cache, ?_, hkept⟩
  simp only [Call.run, Call.answer, Caches.getDependencies, hnone, Caches.getManifests, heq, collected,
    dependenciesSearch]
  cases (searchUp runtime runtime.findPackageJsons (dirname (toUnixPath filename)) (some cwd)
      (some runtime.fs)).outcome runtime with
  | error error => rfl
  | ok files =>
    simp only [Except.map]
    cases (collect runtime (files.map (manifestOf runtime))).2 with
    | some error => simp only [Function.update_idem]
    | none => simp only [Function.update_idem]

/-- A call after calls that it is not in conflict with. -/
theorem Inv.run (h : Inv runtime done caches)
    (hcompatible : ∀ earlier ∈ done, Compatible runtime earlier call) :
    (call.run runtime caches).1 = call.answer runtime ∧
      Inv runtime (done ++ [call]) (call.run runtime caches).2 := by
  have hagrees := h.agrees hcompatible
  cases call with
  | findUp finder dir upTo filesystem =>
    obtain ⟨cache, heq, hkept⟩ := caches.findUp_of_agrees hagrees
    simp only [Call.run, heq]
    exact ⟨rfl, h.append hkept fun _ _ hdependencies => .inl hdependencies⟩
  | getManifests dir workingDirectory fileSystem =>
    obtain ⟨cache, heq, hkept⟩ := caches.findUp_of_agrees hagrees
    simp only [Call.run, Caches.getManifests, heq]
    exact ⟨rfl, h.append hkept fun _ _ hdependencies => .inl hdependencies⟩
  | getDependencies filename cwd =>
    cases hdependencies : caches.dependencies (dirname (toUnixPath filename)) with
    | some kept =>
      have hcollected := h.kept hcompatible hdependencies
      simp only [Call.run, Caches.getDependencies, hdependencies, Call.answer, hcollected, true_and]
      exact h.mono
    | none =>
      obtain ⟨cache, heq, hkept⟩ := Caches.getDependencies_of_agrees hdependencies hagrees
      rw [heq]
      refine ⟨rfl, h.append hkept fun dir kept hdir => ?_⟩
      obtain hdir | ⟨rfl, rfl⟩ := eq_of_update hdir
      · exact .inl hdir
      · exact .inr ⟨filename, cwd, rfl, rfl, rfl⟩

/-- **Calls that are not in conflict do not depend on their history.** Each gives what it gives with empty
caches. -/
theorem answers_eq {calls : List (Call Finder Error)} (h : calls.Pairwise (Compatible runtime)) :
    answers runtime Caches.empty calls = calls.map fun call => (call.run runtime Caches.empty).1 := by
  have hfresh : ∀ call : Call Finder Error, (call.run runtime Caches.empty).1 = call.answer runtime := by
    intro call
    exact (inv_empty.run fun _ hearlier => absurd hearlier List.not_mem_nil).1
  simp only [hfresh]
  suffices ∀ (done calls : List (Call Finder Error)) (caches : Caches Finder Pattern),
      Inv runtime done caches → (done ++ calls).Pairwise (Compatible runtime) →
        answers runtime caches calls = calls.map (·.answer runtime) from
    this [] calls Caches.empty inv_empty h
  intro done calls
  induction calls generalizing done with
  | nil => exact fun _ _ _ => rfl
  | cons call calls ih =>
    intro caches hinv hpairwise
    have hcompatible : ∀ earlier ∈ done, Compatible runtime earlier call := fun earlier hearlier =>
      (List.pairwise_append.mp hpairwise).2.2 earlier hearlier call List.mem_cons_self
    obtain ⟨hanswer, hnext⟩ := hinv.run hcompatible
    rw [answers, List.map_cons, hanswer, ih (done ++ [call]) _ hnext (by simpa using hpairwise)]

def packageJson : Path := ['p', 'a', 'c', 'k', 'a', 'g', 'e', '.', 'j', 's', 'o', 'n']

/-- A platform with POSIX paths and a directory that has one file. -/
def posix (content : Except Unit (List Char)) : Runtime Unit Unit Unit where
  node := {
    join := fun dir entry => dir ++ entry
    basename := fun path => path.drop 1
    root := fun path => path.take 1
    root_slash := rfl }
  matcher := fun _ name => name = packageJson
  findPackageJsons := ()
  fs := {
    readdirSync := fun _ => .ok [packageJson]
    statSync := fun _ => .ok true
    readFileSync := fun _ => content }
  parse := fun text => if text = ['\x7b', '\x7d'] then some (.object []) else none
  newMinimatch := fun _ => .ok ()
  typeError := ()

def readable : Runtime Unit Unit Unit := posix (.ok ['\x7b', '\x7d'])

def unreadable : Runtime Unit Unit Unit := posix (.error ())

theorem posix_directories (content : Except Unit (List Char)) (upTo : Option Path) :
    directories (posix content).node upTo ['/'] = [['/']] := by
  have hroot : (posix content).node.isRoot ['/'] := rfl
  rw [directories, dif_neg (by decide), dif_pos (.inl hroot)]

def twoFiles : List (Call Unit Unit) := [.getDependencies ['/', 'f'] ['/'], .getDependencies ['/', 'g'] ['/']]

theorem answers_eq_twoFiles :
    answers readable Caches.empty twoFiles =
      twoFiles.map fun call => (call.run readable Caches.empty).1 := by
  have hroot : ∀ dir ∈ (dependenciesSearch readable ['/', 'f'] ['/']).reached readable, dir = ['/'] := by
    intro dir hdir
    have hmem := mem_of_mem_reached hdir
    have hdirectories : (dependenciesSearch readable ['/', 'f'] ['/']).directories = [['/']] :=
      posix_directories _ _
    rw [hdirectories] at hmem
    exact List.mem_singleton.mp hmem
  refine answers_eq (List.pairwise_pair.mpr ⟨fun _ dir hdir _ => ?_, ?_⟩)
  · obtain rfl := hroot dir hdir
    exact ⟨rfl, rfl⟩
  · rintro _ _ _ _ ⟨⟩ ⟨⟩ -
    refine ⟨rfl, fun dir hdir file hfile => ⟨[], ?_⟩⟩
    obtain rfl := hroot dir hdir
    obtain rfl := List.mem_singleton.mp hfile
    rfl

def twoSearches : List (Call Unit Unit) := [.getManifests ['/'] none none, .getManifests ['/'] none none]

/-- The manifest cannot be read: the second call finds none, without an exception. -/
theorem unreadable_forgotten :
    answers unreadable Caches.empty twoSearches ≠
      twoSearches.map fun call => (call.run unreadable Caches.empty).1 := by
  let search := walk (filesIn unreadable.node (unreadable.matcher ()) unreadable.fs)
  have hrun : ∀ caches : Caches Unit Unit, caches.getManifests unreadable ['/'] none none =
      (((search (caches.files ()) [['/']]).1.map List.flatten).map (·.map (manifestOf unreadable)),
        ⟨Function.update caches.files () (search (caches.files ()) [['/']]).2, caches.dependencies⟩) := by
    intro caches
    simp only [Caches.getManifests, Caches.findUp, Helpers.findUp, findUpFrom_eq,
      show directories unreadable.node (unixBase none) (toUnixPath ['/']) = [['/']] from posix_directories _ _]
    rfl
  intro h
  simp only [answers, twoSearches, Call.run, List.map_cons, hrun] at h
  injection h with _ h
  injection h with h
  injection h with h
  cases h

end SonarJavascript.Helpers
