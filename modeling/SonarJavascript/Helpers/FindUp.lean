import Mathlib.Data.List.Basic
import Mathlib.Tactic.SplitIfs
import SonarJavascript.Lib.PartialCache

/-!
# Searching upwards

A finder searches a directory and its parents for files with a name that matches a pattern, and keeps the files
of each directory. `findUpFrom_eq`: it is a walk through the directories with a cache.
-/

namespace SonarJavascript.Helpers

open PartialCache

abbrev Path := List Char

/-- A run of separators becomes one slash; `after` tells that there was a separator before. -/
def replaceSeparators : Bool → Path → Path
  | _, [] => []
  | after, c :: path =>
    if c = '/' ∨ c = '\\' then
      if after then replaceSeparators true path else '/' :: replaceSeparators true path
    else c :: replaceSeparators false path

def toUnixPath (path : Path) : Path := replaceSeparators false path

/-- From the last slash that has a name after it backwards. -/
def upToLastName (path : Path) : List Char := (path.reverse.dropWhile (· = '/')).dropWhile (· ≠ '/')

/-- The parent directory of a POSIX path. -/
def dirname : Path → Path
  | [] => ['.']
  | first :: path =>
    match upToLastName path with
    | [] => if first = '/' then ['/'] else ['.']
    | _ :: before => if first = '/' ∧ before = [] then ['/', '/'] else first :: before.reverse

/-- The functions of node:path on a platform: two of POSIX paths, and the root of a path of the platform. -/
structure NodePath where
  join : Path → Path → Path
  basename : Path → Path
  root : Path → Path
  root_slash : root ['/'] = ['/']

def NodePath.isRoot (node : NodePath) (file : Path) : Prop := toUnixPath file = toUnixPath (node.root file)

instance (node : NodePath) (file : Path) : Decidable (node.isRoot file) := by
  unfold NodePath.isRoot
  infer_instance

/-- The entries of a directory, whether there is a file, and its text. -/
structure Filesystem (Error : Type) where
  readdirSync : Path → Except Error (List Path)
  statSync : Path → Except Error Bool
  readFileSync : Path → Except Error (List Char)

structure File where
  path : Path
  content : List Char
  deriving DecidableEq

variable {Error : Type} (node : NodePath) (matcher : Path → Bool) (filesystem : Filesystem Error)

def Filesystem.entries (path : Path) : List Path :=
  match filesystem.readdirSync path with
  | .ok entries => entries
  | .error _ => []

/-- The resource may not be available. -/
def Filesystem.isFile (path : Path) : Bool :=
  match filesystem.statSync path with
  | .ok isFile => isFile
  | .error _ => false

/-- The files that have been read when the loop ends, and the exception that ends it. -/
def readEntries (dir : Path) : List Path → List File × Option Error
  | [] => ([], none)
  | entry :: entries =>
    let fullEntryPath := node.join dir entry
    if matcher (node.basename fullEntryPath) && filesystem.isFile fullEntryPath then
      match filesystem.readFileSync fullEntryPath with
      | .error error => ([], some error)
      | .ok content =>
        let (files, exception) := readEntries dir entries
        (⟨fullEntryPath, content⟩ :: files, exception)
    else readEntries dir entries

def filesIn (dir : Path) : List File × Option Error :=
  readEntries node matcher filesystem dir (filesystem.entries dir)

/-! ### The way up -/

def rank (path : Path) : ℕ := if path = ['.'] then 0 else path.length + 1

theorem length_upToLastName {path : Path} {slash : Char} {before : List Char}
    (h : upToLastName path = slash :: before) : before.length + 2 ≤ path.length := by
  unfold upToLastName at h
  have hreverse := (List.dropWhile_suffix (l := path.reverse) (fun c => decide (c = '/'))).length_le
  cases hname : path.reverse.dropWhile (· = '/') with
  | nil => simp [hname] at h
  | cons c name =>
    have hc : ¬ c = '/' := by
      simpa [hname] using List.head?_dropWhile_not (fun c => decide (c = '/')) path.reverse
    rw [hname] at h hreverse
    rw [List.dropWhile_cons_of_pos (by simpa using hc)] at h
    have hsuffix := (List.dropWhile_suffix (l := name) (fun c => decide (c ≠ '/'))).length_le
    rw [h] at hsuffix
    simp only [List.length_cons, List.length_reverse] at hsuffix hreverse
    omega

theorem rank_le (path : Path) : rank path ≤ path.length + 1 := by
  unfold rank
  split_ifs <;> omega

theorem rank_dirname_lt {path : Path} (hdot : path ≠ ['.']) (hslash : path ≠ ['/']) :
    rank (dirname path) < rank path := by
  rw [show rank path = path.length + 1 from if_neg hdot]
  cases path with
  | nil => decide
  | cons first path =>
    cases hbefore : upToLastName path with
    | nil =>
      simp only [dirname, hbefore]
      by_cases hfirst : first = '/'
      · subst hfirst
        have hpath : 0 < path.length := List.length_pos_iff.mpr fun h => hslash (by rw [h])
        simpa [rank] using hpath
      · simp [hfirst, rank]
    | cons slash before =>
      have hlength := length_upToLastName hbefore
      simp only [dirname, hbefore]
      refine Nat.lt_of_le_of_lt (rank_le _) ?_
      split_ifs with hroot
      · simp only [List.length_cons, List.length_nil]
        omega
      · simp only [List.length_cons, List.length_reverse]
        omega

/-! ### The search -/

variable {node}

theorem NodePath.ne_slash {path : Path} (h : ¬ node.isRoot path) : path ≠ ['/'] := by
  rintro rfl
  exact h (by rw [NodePath.isRoot, node.root_slash])

variable (node)

/-- The files of the directory and of its parents, up to the directory `upTo`. -/
def findUpFrom (upTo : Option Path) (cache : Cache Path (List File)) (dir : Path) :
    Except Error (List File) × Cache Path (List File) :=
  if _hdot : dir = ['.'] then (.ok [], cache)
  else
    match lookup (filesIn node matcher filesystem) cache dir with
    | (.error error, cache) => (.error error, cache)
    | (.ok files, cache) =>
      if _hroot : node.isRoot dir ∨ upTo = some dir then (.ok files, cache)
      else
        match findUpFrom upTo cache (dirname dir) with
        | (.error error, cache) => (.error error, cache)
        | (.ok results, cache) => (.ok (files ++ results), cache)
termination_by rank dir
decreasing_by exact rank_dirname_lt _hdot (NodePath.ne_slash fun h => _hroot (.inl h))

/-- No directory, and the empty text, is no end of the search. -/
def unixBase (upTo : Option Path) : Option Path := (upTo.filter (· ≠ [])).map toUnixPath

def findUp (cache : Cache Path (List File)) (dir : Path) (upTo : Option Path) :
    Except Error (List File) × Cache Path (List File) :=
  findUpFrom node matcher filesystem (unixBase upTo) cache (toUnixPath dir)

/-! ### The directories searched -/

def directories (upTo : Option Path) (dir : Path) : List Path :=
  if _hdot : dir = ['.'] then []
  else dir :: if _hroot : node.isRoot dir ∨ upTo = some dir then [] else directories upTo (dirname dir)
termination_by rank dir
decreasing_by exact rank_dirname_lt _hdot (NodePath.ne_slash fun h => _hroot (.inl h))

theorem findUpFrom_eq (upTo : Option Path) (cache : Cache Path (List File)) (dir : Path) :
    findUpFrom node matcher filesystem upTo cache dir =
      ((walk (filesIn node matcher filesystem) cache (directories node upTo dir)).1.map List.flatten,
        (walk (filesIn node matcher filesystem) cache (directories node upTo dir)).2) := by
  induction dir using directories.induct node upTo generalizing cache with
  | case1 =>
    rw [findUpFrom, directories, dif_pos rfl, dif_pos rfl]
    rfl
  | case2 dir hdot ih =>
    rw [findUpFrom, directories, dif_neg hdot, dif_neg hdot]
    rcases hlookup : lookup (filesIn node matcher filesystem) cache dir with ⟨result, cache'⟩
    cases result with
    | error error => simp only [walk, hlookup, Except.map]
    | ok files =>
      rw [walk_cons_of_ok hlookup]
      by_cases hroot : node.isRoot dir ∨ upTo = some dir
      · simp [hroot, walk, Except.map]
      · simp only [dif_neg hroot, ih hroot cache']
        cases (walk (filesIn node matcher filesystem) cache' (directories node upTo (dirname dir))).1 <;> rfl

end SonarJavascript.Helpers
