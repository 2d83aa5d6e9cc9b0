import SonarJavascript.Lcov.LCOVParser
import SonarJavascript.Lib.Trie

/-!
# Finding files by their last segments

`ReversePathTree` is a trie of the segments of paths, the last one first. What it finds ends with the path that is
asked for (`getInputFile_spec`), but it goes on to the first leaf, so that a file with just this path is passed
over for one whose path is longer: `located_iff`.
-/

namespace SonarJavascript.Lcov

variable {InputFile : Type}

/-- `split("/")`, which leaves out empty texts at the end. -/
def splitPath (path : Text) : List Text :=
  if '/' ∈ path then ((path.splitOn '/').reverse.dropWhile (· = [])).reverse else [path]

namespace ReversePathTree

def index (inputFile : InputFile) (path : List Text) (root : Trie Text InputFile) : Trie Text InputFile :=
  root.insert inputFile path.reverse

def getFileWithSuffix (path : List Text) (root : Trie Text InputFile) : Option InputFile :=
  (root.descend path.reverse).bind Trie.firstLeaf

end ReversePathTree

/-- The files that are indexed. `sanitize` is the one of the platform, which has no value for a path that leaves
the root. -/
structure FileLocator (InputFile : Type) where
  inputFiles : List InputFile
  relativePath : InputFile → Text
  sanitize : Text → Option Text

namespace FileLocator

variable (locator : FileLocator InputFile)

/-- The segments of the path of a file. -/
def path (inputFile : InputFile) : List Text := splitPath (locator.relativePath inputFile)

def tree : Trie Text InputFile :=
  locator.inputFiles.foldl
    (fun tree inputFile => ReversePathTree.index inputFile (locator.path inputFile) tree) Trie.empty

def getInputFile (filePath : Text) : Option InputFile :=
  match locator.sanitize filePath with
  | none => none
  | some sanitizedPath => ReversePathTree.getFileWithSuffix (splitPath sanitizedPath) locator.tree

variable {locator}

theorem tree_eq : locator.tree =
    Trie.ofList (locator.inputFiles.map fun inputFile => ((locator.path inputFile).reverse, inputFile)) := by
  rw [Trie.ofList, List.foldl_map]
  rfl

variable {filePath sanitizedPath : Text} {inputFile : InputFile}

theorem getInputFile_of_sanitize (h : locator.sanitize filePath = some sanitizedPath) :
    locator.getInputFile filePath = locator.tree.search (splitPath sanitizedPath).reverse := by
  unfold getInputFile
  rw [h]
  rfl

theorem isSome_getInputFile_iff (h : locator.sanitize filePath = some sanitizedPath) :
    (locator.getInputFile filePath).isSome ↔
      ∃ inputFile ∈ locator.inputFiles, splitPath sanitizedPath <:+ locator.path inputFile := by
  rw [getInputFile_of_sanitize h, tree_eq, Trie.isSome_search_iff]
  simp only [List.mem_map, exists_exists_and_eq_and, List.reverse_prefix]

/-- What is found ends with the path; it has just this path only if no file has a longer one. -/
theorem getInputFile_spec (h : locator.sanitize filePath = some sanitizedPath)
    (hfound : locator.getInputFile filePath = some inputFile) :
    inputFile ∈ locator.inputFiles ∧ splitPath sanitizedPath <:+ locator.path inputFile ∧
      (locator.path inputFile = splitPath sanitizedPath → ∀ other ∈ locator.inputFiles,
        splitPath sanitizedPath <:+ locator.path other → locator.path other = splitPath sanitizedPath) := by
  rw [getInputFile_of_sanitize h, tree_eq] at hfound
  obtain ⟨more, hmem, hlast⟩ := Trie.mem_of_search hfound
  obtain ⟨found, hfile, heq⟩ := List.mem_map.mp hmem
  obtain ⟨hpath, rfl⟩ := Prod.mk.inj heq
  have hpath : locator.path found = more.reverse ++ splitPath sanitizedPath := by
    rw [← List.reverse_reverse (locator.path found), hpath, List.reverse_append, List.reverse_reverse]
  refine ⟨hfile, hpath ▸ List.suffix_append _ _, fun hexact other hother hsuffix => ?_⟩
  have hnil : more = [] := by
    have := congrArg List.length (hpath.symm.trans hexact)
    simpa using this
  have := hlast hnil _ (List.mem_map_of_mem hother) (List.reverse_prefix.mpr hsuffix)
  exact List.reverse_injective this

/-- What is asked of the search: it finds a file exactly if a path ends with the one that is asked for, what it
finds does, and if a file has just this path, then so has the one that is found. -/
structure Located (locator : FileLocator InputFile) (filePath sanitizedPath : Text) : Prop where
  isSome_iff : (locator.getInputFile filePath).isSome ↔
    ∃ inputFile ∈ locator.inputFiles, splitPath sanitizedPath <:+ locator.path inputFile
  suffix : ∀ inputFile, locator.getInputFile filePath = some inputFile →
    inputFile ∈ locator.inputFiles ∧ splitPath sanitizedPath <:+ locator.path inputFile
  exact : (∃ inputFile ∈ locator.inputFiles, locator.path inputFile = splitPath sanitizedPath) →
    ∃ inputFile, locator.getInputFile filePath = some inputFile ∧ locator.path inputFile = splitPath sanitizedPath

/-- **When the search is right.** A path without a sanitized form finds nothing. -/
theorem located_iff (locator : FileLocator InputFile) (filePath : Text) :
    (match locator.sanitize filePath with
      | none => locator.getInputFile filePath = none
      | some sanitizedPath => Located locator filePath sanitizedPath) ↔
    ∀ sanitizedPath, locator.sanitize filePath = some sanitizedPath →
      ∀ inputFile ∈ locator.inputFiles, locator.path inputFile = splitPath sanitizedPath →
        ∀ other ∈ locator.inputFiles, splitPath sanitizedPath <:+ locator.path other →
          locator.path other = splitPath sanitizedPath := by
  cases hsanitize : locator.sanitize filePath with
  | none =>
    refine iff_of_true ?_ nofun
    simp only [getInputFile, hsanitize]
  | some sanitizedPath =>
    constructor
    · intro hlocated path hpath' inputFile hfile hpath
      obtain rfl := Option.some.inj hpath'
      obtain ⟨found, hfound, hexact⟩ := hlocated.exact ⟨inputFile, hfile, hpath⟩
      exact (getInputFile_spec hsanitize hfound).2.2 hexact
    · intro h
      refine ⟨isSome_getInputFile_iff hsanitize, fun found hfound => ?_, ?_⟩
      · obtain ⟨hmem, hsuffix, -⟩ := getInputFile_spec hsanitize hfound
        exact ⟨hmem, hsuffix⟩
      · rintro ⟨inputFile, hfile, hpath⟩
        obtain ⟨found, hfound⟩ := Option.isSome_iff_exists.mp
          ((isSome_getInputFile_iff hsanitize).mpr ⟨inputFile, hfile, hpath ▸ List.suffix_rfl⟩)
        obtain ⟨hmem, hsuffix, -⟩ := getInputFile_spec hsanitize hfound
        exact ⟨found, hfound, h sanitizedPath rfl inputFile hfile hpath found hmem hsuffix⟩

/-- The files are their paths. -/
def twoFiles : FileLocator Text where
  inputFiles := [['b'], ['a', '/', 'b']]
  relativePath := id
  sanitize := some

/-- The path `b` finds `a/b`, although `b` is indexed. -/
theorem shorter_path_passed_over : twoFiles.getInputFile ['b'] = some ['a', '/', 'b'] ∧
    ¬ Located twoFiles ['b'] ['b'] := by
  have hfound : twoFiles.getInputFile ['b'] = some ['a', '/', 'b'] := by decide
  refine ⟨hfound, fun hlocated => ?_⟩
  obtain ⟨inputFile, hfile, hexact⟩ := hlocated.exact ⟨['b'], by decide, by decide⟩
  obtain rfl := Option.some.inj (hfound.symm.trans hfile)
  exact absurd hexact (by decide)

end FileLocator

end SonarJavascript.Lcov
