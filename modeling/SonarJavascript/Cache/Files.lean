import SonarJavascript.Cache.VarLength
import Mathlib.Data.List.DropRight
import Mathlib.Data.List.Infix

/-!
# Files and streams

What the sequence cache uses of `java.nio.file` and `java.io`: absolute paths, a tree of directories and
files, and input streams whose reads may return less than they are asked for.
-/

namespace SonarJavascript.Cache

/-! ### Paths -/

/-- The names from the root. -/
abbrev Path := List String

def splitOnSlash (s : String) : List String :=
  (s.toList.splitOn '/').map String.ofList

/-- `split("/")`: the empty strings at the end are dropped, but a string without separator is kept. -/
def split (s : String) : List String :=
  let parts := splitOnSlash s
  if parts.length = 1 then parts else parts.rdropWhile (· = "")

def hasNul (s : String) : Bool :=
  s.toList.contains (Char.ofNat 0)

/-- `Path.of` of an absolute path. -/
def pathOf (s : String) : Except JavaException Path :=
  if hasNul s then .error .invalidPath else .ok ((splitOnSlash s).filter (· ≠ ""))

/-- `path.resolve(Path.of(name))` of a name without separator. -/
def resolve (path : Path) (name : String) : Except JavaException Path :=
  if hasNul name then .error .invalidPath
  else if name = "" then .ok path
  else .ok (path ++ [name])

def commonPrefix : Path → Path → ℕ
  | a :: as, b :: bs => if a = b then commonPrefix as bs + 1 else 0
  | _, _ => 0

/-- The relative path of the base itself has one name, which is empty. -/
def relativize (base other : Path) : List String :=
  if base = other then [""]
  else
    let n := commonPrefix base other
    List.replicate (base.length - n) ".." ++ other.drop n

/-- The path that the system opens. -/
def canonical (path : Path) : Path :=
  path.foldl (fun opened name =>
    if name = "." then opened else if name = ".." then opened.dropLast else opened ++ [name]) []

/-- A name of a directory entry. -/
structure IsName (name : String) : Prop where
  nonempty : name ≠ ""
  noSlash : '/' ∉ name.toList
  noNul : hasNul name = false
  notDot : name ≠ "."
  notDotDot : name ≠ ".."

theorem mem_of_mem_splitOn {a : Char} {xs : List Char} :
    ∀ l ∈ xs.splitOn a, ∀ c ∈ l, c ∈ xs ∧ c ≠ a := by
  induction xs with
  | nil => simp
  | cons x xs ih =>
    intro l hl c hc
    rw [List.splitOn_cons_eq_if_modifyHead] at hl
    split at hl
    · rcases List.mem_cons.mp hl with rfl | hl
      · cases hc
      · exact ⟨List.mem_cons_of_mem _ (ih l hl c hc).1, (ih l hl c hc).2⟩
    · rename_i hx
      cases hsplit : xs.splitOn a with
      | nil => exact absurd hsplit (List.splitOn_ne_nil a xs)
      | cons first others =>
        rw [hsplit, List.modifyHead_cons] at hl
        rw [hsplit] at ih
        rcases List.mem_cons.mp hl with rfl | hl
        · rcases List.mem_cons.mp hc with rfl | hc
          · exact ⟨List.mem_cons_self, by simpa using hx⟩
          · have hfirst := ih first List.mem_cons_self c hc
            exact ⟨List.mem_cons_of_mem _ hfirst.1, hfirst.2⟩
        · have hother := ih l (List.mem_cons_of_mem _ hl) c hc
          exact ⟨List.mem_cons_of_mem _ hother.1, hother.2⟩

theorem isName_of_pathOf {s : String} {path : Path} (h : pathOf s = .ok path) {name : String}
    (hname : name ∈ path) (hdots : name ≠ "." ∧ name ≠ "..") : IsName name := by
  unfold pathOf at h
  split at h
  · cases h
  rename_i hnul
  obtain rfl := Except.ok.inj h
  obtain ⟨hmem, hnonempty⟩ := List.mem_filter.mp hname
  obtain ⟨l, hl, rfl⟩ := List.mem_map.mp hmem
  refine ⟨by simpa using hnonempty, ?_, ?_, hdots.1, hdots.2⟩
  · rw [String.toList_ofList]
    exact fun hslash => (mem_of_mem_splitOn l hl _ hslash).2 rfl
  · have hchar : Char.ofNat 0 ∉ s.toList := by simpa [hasNul] using hnul
    have hpart : Char.ofNat 0 ∉ l := fun hmem => hchar (mem_of_mem_splitOn l hl _ hmem).1
    simpa [hasNul] using hpart

theorem canonical_eq_self {path : Path} (h : ∀ name ∈ path, IsName name) : canonical path = path := by
  have hfold : ∀ (names opened : Path), (∀ name ∈ names, IsName name) →
      names.foldl (fun opened name =>
        if name = "." then opened else if name = ".." then opened.dropLast else opened ++ [name]) opened =
        opened ++ names := by
    intro names
    induction names with
    | nil => simp
    | cons name names ih =>
      intro opened hnames
      have hname := hnames name List.mem_cons_self
      rw [List.foldl_cons, if_neg hname.notDot, if_neg hname.notDotDot,
        ih _ fun other hother => hnames other (List.mem_cons_of_mem _ hother)]
      simp
  exact hfold path [] h

/-! ### File system -/

inductive Node
  | directory
  | file (content : Bytes)
  deriving DecidableEq, Repr

/-- Everything lies in a directory. -/
structure FileSystem where
  node : Path → Option Node
  inDirectory : ∀ path name, (node (path ++ [name])).isSome → node path = some .directory

namespace FileSystem

def empty : FileSystem :=
  ⟨fun _ => none, fun _ _ h => by cases h⟩

def isFile (fs : FileSystem) (path : Path) : Bool :=
  match fs.node path with
  | some (.file _) => true
  | _ => false

/-- `createDirectories` of the parent fails at a file above, `newOutputStream` at a directory. -/
def isObstructed (fs : FileSystem) (path : Path) : Bool :=
  path.dropLast.inits.any fs.isFile || fs.node path = some .directory

/-- The file with its content, and the directories above it. -/
def write (fs : FileSystem) (path : Path) (content : Bytes) : FileSystem where
  node other :=
    if other = path then some (.file content)
    else if other <+: path then some .directory
    else if path <+: other then none
    else fs.node other
  inDirectory other name h := by
    have hstart : other <+: other ++ [name] := List.prefix_append other [name]
    have hne : other ≠ other ++ [name] := by simp
    by_cases hfile : other ++ [name] = path
    · rw [if_neg (hfile ▸ hne), if_pos (hfile ▸ hstart)]
    by_cases habove : other ++ [name] <+: path
    · have hother : other ≠ path := by
        rintro rfl
        have hlength := habove.length_le
        rw [List.length_append, List.length_singleton] at hlength
        omega
      rw [if_neg hother, if_pos (hstart.trans habove)]
    rw [if_neg hfile, if_neg habove] at h
    by_cases hbelow : path <+: other ++ [name]
    · simp [hbelow] at h
    rw [if_neg hbelow] at h
    have hother : other ≠ path := fun heq => hbelow (heq ▸ hstart)
    have hpath : ¬ path <+: other := fun hp => hbelow (hp.trans hstart)
    rw [if_neg hother, if_neg hpath, fs.inDirectory other name h, ite_self]

/-- The content of a file. -/
def contentOf (fs : FileSystem) (path : Path) : Bytes :=
  match fs.node path with
  | some (.file content) => content
  | _ => []

/-- The content that an input stream of the file has. -/
def read (fs : FileSystem) (path : Path) : Except JavaException Bytes :=
  match fs.node (canonical path) with
  | some (.file content) => .ok content
  | some .directory => .error (.io "Is a directory")
  | none => .error (.uncheckedIOException "Failure when opening file")

variable {fs : FileSystem} {path other : Path} {content : Bytes}

theorem node_write_self : (fs.write path content).node path = some (.file content) :=
  if_pos rfl

theorem node_write_of_apart (habove : ¬ other <+: path) (hbelow : ¬ path <+: other) :
    (fs.write path content).node other = fs.node other := by
  have hne : other ≠ path := fun heq => habove (heq ▸ List.prefix_refl _)
  show (if other = path then _ else _) = _
  rw [if_neg hne, if_neg habove, if_neg hbelow]

theorem directory_of_prefix (h : (fs.node path).isSome) (hstart : other <+: path) (hne : other ≠ path) :
    fs.node other = some .directory := by
  induction path using List.reverseRecOn with
  | nil => exact absurd (List.prefix_nil.mp hstart) hne
  | append_singleton path name ih =>
    have hparent := fs.inDirectory path name h
    rcases List.prefix_concat_iff.mp hstart with rfl | hstart
    · exact absurd rfl hne
    · by_cases heq : other = path
      · rw [heq, hparent]
      · exact ih (by rw [hparent]; rfl) hstart heq

theorem eq_of_prefix_of_file {content' : Bytes} (hpath : fs.node path = some (.file content))
    (hother : fs.node other = some (.file content')) (hstart : other <+: path) : other = path := by
  by_contra hne
  have hdirectory := directory_of_prefix (by rw [hpath]; rfl) hstart hne
  rw [hdirectory] at hother
  cases hother

theorem isObstructed_eq_false_iff :
    fs.isObstructed path = false ↔
      (∀ above, above <+: path.dropLast → fs.isFile above = false) ∧ fs.node path ≠ some .directory := by
  simp only [isObstructed, Bool.or_eq_false_iff, List.any_eq_false, List.mem_inits, Bool.not_eq_true,
    decide_eq_false_iff_not, ne_eq]

/-- Writing a file does not get in the way of another one, unless one of them lies below the other. -/
theorem isObstructed_write (h : fs.isObstructed other = false) (habove : ¬ other <+: path)
    (hbelow : ¬ path <+: other) : (fs.write path content).isObstructed other = false := by
  obtain ⟨hfiles, hdirectory⟩ := isObstructed_eq_false_iff.mp h
  refine isObstructed_eq_false_iff.mpr ⟨fun above hstart => ?_, ?_⟩
  · have hother : above <+: other := hstart.trans (List.dropLast_prefix other)
    by_cases hpath : above <+: path
    · have hne : above ≠ path := fun heq => hbelow (heq ▸ hother)
      have hnode : (fs.write path content).node above = some .directory := by
        show (if above = path then _ else _) = _
        rw [if_neg hne, if_pos hpath]
      rw [isFile, hnode]
    · have hnot : ¬ path <+: above := fun hp => hbelow (hp.trans hother)
      rw [isFile, node_write_of_apart hpath hnot]
      exact hfiles above hstart
  · rwa [node_write_of_apart habove hbelow]

end FileSystem

/-! ### Input streams -/

/-- What is left of a stream, and how much each of the next reads returns at most. -/
structure InputStream where
  content : Bytes
  sizes : List ℕ
  deriving DecidableEq, Repr

namespace InputStream

/-- `read(buffer, 0, toRead)`: at least one byte, unless the stream is at its end. -/
def read (input : InputStream) (toRead : ℕ) : Option (Bytes × InputStream) :=
  if input.content = [] then none
  else
    let n := min toRead (max 1 (input.sizes.headD toRead))
    some (input.content.take n, ⟨input.content.drop n, input.sizes.tail⟩)

variable {input : InputStream} {toRead : ℕ}

theorem read_eq_none : input.read toRead = none ↔ input.content = [] := by
  unfold read
  split <;> simp [*]

theorem content_of_read {bytes : Bytes} {rest : InputStream} (h : input.read toRead = some (bytes, rest)) :
    input.content = bytes ++ rest.content ∧ bytes.length ≤ toRead ∧ (0 < toRead → bytes ≠ []) := by
  unfold read at h
  split at h
  · cases h
  · rename_i hcontent
    obtain ⟨rfl, rfl⟩ := Prod.mk.inj (Option.some.inj h)
    have hpos := List.length_pos_iff.mpr hcontent
    refine ⟨(List.take_append_drop _ _).symm, ?_, fun htoRead hnil => ?_⟩
    · rw [List.length_take]
      omega
    · have hlength := congrArg List.length hnil
      rw [List.length_take, List.length_nil] at hlength
      omega

theorem length_content_of_read {bytes : Bytes} {rest : InputStream}
    (h : input.read toRead = some (bytes, rest)) (hpos : 0 < toRead) :
    rest.content.length < input.content.length := by
  obtain ⟨hcontent, -, hne⟩ := content_of_read h
  have hbytes := List.length_pos_iff.mpr (hne hpos)
  rw [hcontent, List.length_append]
  omega

end InputStream

end SonarJavascript.Cache
