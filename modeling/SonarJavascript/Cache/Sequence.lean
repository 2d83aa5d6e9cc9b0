import Mathlib.Algebra.Ring.Int.Defs
import SonarJavascript.Cache.Files
import SonarJavascript.Lib.ListResults

/-!
# Sequences of files

`SequenceSerialization` and `FileIterator`. The generated files are concatenated into one stream, and a
manifest keeps their names and sizes, by which the stream is cut again.
-/

namespace SonarJavascript.Cache

open ListResults

structure FileSize where
  name : Option String
  size : ℤ
  deriving DecidableEq, Repr

/-- What the JSON does not set is null. -/
structure FilesManifest where
  fileSizes : Option (List (Option FileSize))
  deriving DecidableEq, Repr

def convertToEntryName (base file : Path) : String :=
  "/".intercalate (relativize base file)

def convertFromEntryName (base : Path) : Option String → Except JavaException Path
  | none => .error .nullPointer
  | some entryName => (split entryName).foldlM resolve base

/-! ### Writing -/

/-- `LinkedHashMap.put`: a file that is there keeps its place. -/
def putFileSize (fileSizes : List (Path × ℕ)) (file : Path) (size : ℕ) : List (Path × ℕ) :=
  if fileSizes.any (·.1 = file) then
    fileSizes.map fun entry => if entry.1 = file then (file, size) else entry
  else fileSizes ++ [(file, size)]

def createManifest (directory : Path) (fileSizes : List (Path × ℕ)) : FilesManifest :=
  ⟨some (fileSizes.map fun (file, bytesRead) =>
    some ⟨some (convertToEntryName directory file), bytesRead⟩)⟩

/-- The sequence of the files, and their manifest. -/
def SequenceSerialization.writeToCache (workDir : Path) (generatedFiles : Option (List String)) (fs : FileSystem) :
    Except JavaException (Bytes × FilesManifest) := do
  let paths ← (generatedFiles.getD []).mapM pathOf
  let contents ← paths.mapM fs.read
  let fileSizes := (paths.zip contents).foldl
    (fun fileSizes entry => putFileSize fileSizes entry.1 entry.2.length) []
  return (contents.flatten, createManifest workDir fileSizes)

/-! ### Reading -/

def DEFAULT_BUFFER_SIZE : ℤ := 8192

def toRead (limit : ℤ) (totalRead : ℕ) : ℕ :=
  (min DEFAULT_BUFFER_SIZE (limit - totalRead)).toNat

theorem toRead_pos {limit : ℤ} {totalRead : ℕ} (h : totalRead < limit) : 0 < toRead limit totalRead := by
  unfold toRead DEFAULT_BUFFER_SIZE
  omega

/-- The loop of `writeFile`: the bytes that go to the file, and the stream after them. -/
def copy (limit : ℤ) (totalRead : ℕ) (input : InputStream) : Bytes × InputStream :=
  if h : totalRead < limit then
    match hread : input.read (toRead limit totalRead) with
    | none => ([], input)
    | some (buffer, rest) =>
      have := InputStream.length_content_of_read hread (toRead_pos h)
      let copied := copy limit (totalRead + buffer.length) rest
      (buffer ++ copied.1, copied.2)
  else ([], input)
termination_by input.content.length

/-- The stream after the file, and the file system. A file of which a part has been read remains. -/
def writeFile (input : InputStream) (file : Path) (limit : ℤ) (shouldFinish : Bool) (fs : FileSystem) :
    Except JavaException InputStream × FileSystem :=
  if file = [] then (.error .nullPointer, fs)
  else if fs.isObstructed (canonical file) then (.error (.io (pathText file)), fs)
  else
    let (copied, input) := copy limit 0 input
    let fs := fs.write (canonical file) copied
    if copied.length < limit then
      (.error (.io s!"The cache stream is too small (<{limit}) for file {pathText file}"), fs)
    else if shouldFinish && (input.read 1).isSome then
      (.error (.io s!"The cache stream is too big (>{limit}) for file {pathText file}"), fs)
    else (.ok input, fs)
where
  pathText (path : Path) : String := "/" ++ "/".intercalate path

/-- The loop of `readFromCache`. It ends at the first null. -/
def readFileSizes (workDir : Path) : List (Option FileSize) → InputStream → FileSystem →
    Except JavaException InputStream × FileSystem
  | [], input, fs => (.ok input, fs)
  | none :: _, input, fs => (.ok input, fs)
  | some fileSize :: rest, input, fs =>
    match convertFromEntryName workDir fileSize.name with
    | .error e => (.error e, fs)
    | .ok file =>
      match writeFile input file fileSize.size rest.isEmpty fs with
      | (.error e, fs) => (.error e, fs)
      | (.ok input, fs) => readFileSizes workDir rest input fs

def SequenceSerialization.readFromCache (workDir : Path) (manifest : Option FilesManifest) (input : InputStream) (fs : FileSystem) :
    Except JavaException InputStream × FileSystem :=
  match manifest with
  | some ⟨some fileSizes⟩ => readFileSizes workDir fileSizes input fs
  | _ => (.error .nullPointer, fs)

/-! ### Copying is independent of the reads -/

theorem copy_eq (limit : ℤ) (totalRead : ℕ) (input : InputStream) :
    (copy limit totalRead input).1 = input.content.take (limit - totalRead).toNat ∧
      (copy limit totalRead input).2.content = input.content.drop (limit - totalRead).toNat := by
  induction totalRead, input using copy.induct limit with
  | case1 totalRead input h hread =>
    rw [copy, dif_pos h]
    split
    · have hnil := InputStream.read_eq_none.mp hread
      simp [hnil]
    · simp_all
  | case2 totalRead input h buffer rest hread _ ih =>
    obtain ⟨hcontent, hlength, -⟩ := InputStream.content_of_read hread
    have hfits : buffer.length ≤ (limit - totalRead).toNat := by
      unfold toRead at hlength
      omega
    have hleft : (limit - (totalRead + buffer.length : ℕ)).toNat =
        (limit - totalRead).toNat - buffer.length := by omega
    rw [hleft] at ih
    rw [copy, dif_pos h]
    split
    · simp_all
    · rename_i buffer' rest' hread'
      obtain ⟨rfl, rfl⟩ := Prod.mk.inj (Option.some.inj (hread.symm.trans hread'))
      show buffer ++ (copy limit (totalRead + buffer.length) rest).1 = _ ∧
        (copy limit (totalRead + buffer.length) rest).2.content = _
      rw [ih.1, ih.2, hcontent, List.take_append, List.take_of_length_le hfits, List.drop_append,
        List.drop_eq_nil_of_le hfits]
      exact ⟨rfl, rfl⟩
  | case3 totalRead input h =>
    have hzero : (limit - totalRead).toNat = 0 := by omega
    rw [copy, dif_neg h, hzero]
    exact ⟨rfl, rfl⟩

theorem copy_start (limit : ℤ) (input : InputStream) :
    (copy limit 0 input).1 = input.content.take limit.toNat ∧
      (copy limit 0 input).2.content = input.content.drop limit.toNat := by
  have hcopy := copy_eq limit 0 input
  rwa [show limit - ((0 : ℕ) : ℤ) = limit by omega] at hcopy

section WriteFile

variable {input : InputStream} {file : Path} {limit : ℤ} {shouldFinish : Bool} {fs : FileSystem}

theorem writeFile_ok (hfile : file ≠ []) (hfs : fs.isObstructed (canonical file) = false)
    (hlimit : limit.toNat ≤ input.content.length)
    (hlast : shouldFinish = true → input.content.length ≤ limit.toNat) :
    ∃ rest : InputStream, rest.content = input.content.drop limit.toNat ∧
      writeFile input file limit shouldFinish fs =
        (.ok rest, fs.write (canonical file) (input.content.take limit.toNat)) := by
  obtain ⟨hcopied, hrest⟩ := copy_start limit input
  refine ⟨(copy limit 0 input).2, hrest, ?_⟩
  have hlength : ¬ ((copy limit 0 input).1.length : ℤ) < limit := by
    rw [hcopied, List.length_take]
    omega
  have hend : ¬ (shouldFinish && ((copy limit 0 input).2.read 1).isSome) = true := by
    rw [Bool.and_eq_true, Option.isSome_iff_ne_none, ne_eq, InputStream.read_eq_none, hrest,
      List.drop_eq_nil_iff]
    exact fun ⟨hfinish, hmore⟩ => hmore (hlast hfinish)
  rw [writeFile, if_neg hfile, if_neg (by simp [hfs])]
  dsimp only
  rw [if_neg hlength, if_neg hend, hcopied]

theorem writeFile_error (hfile : file ≠ [])
    (h : fs.isObstructed (canonical file) = true ∨ input.content.length < limit.toNat ∨
      (shouldFinish = true ∧ limit.toNat < input.content.length)) :
    ∃ message, (writeFile input file limit shouldFinish fs).1 = .error (.io message) := by
  obtain ⟨hcopied, hrest⟩ := copy_start limit input
  rw [writeFile, if_neg hfile]
  by_cases hfs : fs.isObstructed (canonical file) = true
  · exact ⟨_, by rw [if_pos hfs]⟩
  rw [if_neg hfs]
  dsimp only
  by_cases hlength : ((copy limit 0 input).1.length : ℤ) < limit
  · exact ⟨_, by rw [if_pos hlength]⟩
  have hlimit : limit.toNat ≤ input.content.length := by
    rw [hcopied, List.length_take] at hlength
    omega
  obtain ⟨hfinish, hmore⟩ := (h.resolve_left hfs).resolve_left (by omega)
  have hend : (shouldFinish && ((copy limit 0 input).2.read 1).isSome) = true := by
    rw [Bool.and_eq_true, Option.isSome_iff_ne_none, ne_eq, InputStream.read_eq_none, hrest,
      List.drop_eq_nil_iff]
    exact ⟨hfinish, by omega⟩
  exact ⟨_, by rw [if_neg hlength, if_pos hend]⟩

end WriteFile

/-! ### Entries that are restored -/

/-- The entries are restored one after the other: from the content of the stream and the file system before
them to what is left of the stream and the file system after them. -/
inductive Restored (workDir : Path) :
    List FileSize → Bytes → FileSystem → Bytes → FileSystem → Prop
  | nil {content : Bytes} {fs : FileSystem} : Restored workDir [] content fs content fs
  | cons {fileSize : FileSize} {rest : List FileSize} {content content' : Bytes} {fs fs' : FileSystem}
      {file : Path} :
      convertFromEntryName workDir fileSize.name = .ok file → file ≠ [] →
      fs.isObstructed (canonical file) = false → fileSize.size.toNat ≤ content.length →
      Restored workDir rest (content.drop fileSize.size.toNat)
        (fs.write (canonical file) (content.take fileSize.size.toNat)) content' fs' →
      Restored workDir (fileSize :: rest) content fs content' fs'

/-- The entry has no name, or one that is not the name of a file. -/
def BadName (workDir : Path) (fileSize : FileSize) : Prop :=
  ∀ file, convertFromEntryName workDir fileSize.name = .ok file → file = []

section Restored

variable {workDir : Path} {before : List FileSize} {content content' : Bytes} {fs fs' : FileSystem}

theorem Restored.length_eq (h : Restored workDir before content fs content' fs') :
    content.length = (before.map fun fileSize => fileSize.size.toNat).sum + content'.length := by
  induction h with
  | nil => simp
  | cons _ _ _ hlength _ ih =>
    rw [List.map_cons, List.sum_cons, add_assoc, ← ih, List.length_drop]
    omega

/-- Entries that others follow are restored, and the loop goes on with those others. -/
theorem readFileSizes_append (h : Restored workDir before content fs content' fs')
    {after : List (Option FileSize)} (hafter : after ≠ []) :
    ∀ input : InputStream, input.content = content → ∃ rest : InputStream, rest.content = content' ∧
      readFileSizes workDir (before.map some ++ after) input fs = readFileSizes workDir after rest fs' := by
  induction h with
  | nil => exact fun input hinput => ⟨input, hinput, rfl⟩
  | @cons fileSize others content content' fs fs' file hname hfile hfs hlength _ ih =>
    rintro input rfl
    have hmore : (others.map some ++ after).isEmpty = false := by simp [hafter]
    obtain ⟨next, hnext, hwrite⟩ := @writeFile_ok input file fileSize.size false fs hfile hfs hlength (by simp)
    obtain ⟨rest, hrest, hread⟩ := ih next hnext
    refine ⟨rest, hrest, ?_⟩
    rw [List.map_cons, List.cons_append, readFileSizes, hname]
    simp only [hmore, hwrite, hread]

/-- When the stream ends with the last entry, everything is restored. -/
theorem readFileSizes_of_restored (h : Restored workDir before content fs content' fs') :
    ∀ input : InputStream, input.content = content → content' = [] →
      ∃ rest : InputStream, rest.content = [] ∧
        readFileSizes workDir (before.map some) input fs = (.ok rest, fs') := by
  induction h with
  | nil => exact fun input hinput hnil => ⟨input, hinput.trans hnil, rfl⟩
  | @cons fileSize others content content' fs fs' file hname hfile hfs hlength hothers ih =>
    rintro input rfl rfl
    have hlast : (others.map some).isEmpty = true → input.content.length ≤ fileSize.size.toNat := by
      intro hempty
      obtain rfl : others = [] := by simpa using hempty
      have hnil := hothers.length_eq
      rw [List.length_drop] at hnil
      simp at hnil
      omega
    obtain ⟨next, hnext, hwrite⟩ :=
      @writeFile_ok input file fileSize.size (others.map some).isEmpty fs hfile hfs hlength hlast
    obtain ⟨rest, hrest, hread⟩ := ih next hnext rfl
    refine ⟨rest, hrest, ?_⟩
    rw [List.map_cons, readFileSizes, hname]
    simp only [hwrite, hread]

end Restored

/-! ### The outcomes of reading -/

/-- An entry with a bad name is reached. -/
def ReachesBadName (workDir : Path) (fileSizes : List (Option FileSize)) (content : Bytes) (fs : FileSystem) :
    Prop :=
  ∃ before fileSize after content' fs', fileSizes = before.map some ++ some fileSize :: after ∧
    Restored workDir before content fs content' fs' ∧ BadName workDir fileSize

/-- The entries before the first null are restored. Only when there is no null, and when there are entries,
has the stream to end there. -/
def AllRestored (workDir : Path) (fileSizes : List (Option FileSize)) (content : Bytes) (fs : FileSystem) :
    Prop :=
  ∃ before content' fs', Restored workDir before content fs content' fs' ∧
    ((fileSizes = before.map some ∧ (before = [] ∨ content' = [])) ∨
      ∃ after, fileSizes = before.map some ++ none :: after)

section Outcomes

variable {workDir : Path} {fileSizes : List (Option FileSize)} {input : InputStream} {fs : FileSystem}

theorem isChecked_of_resolve_error {path : Path} {name : String} {e : JavaException}
    (h : resolve path name = .error e) : e.isChecked = false := by
  unfold resolve at h
  split at h
  · obtain rfl := Except.error.inj h
    rfl
  · split at h <;> cases h

theorem isChecked_of_convertFromEntryName_error {name : Option String} {e : JavaException}
    (h : convertFromEntryName workDir name = .error e) : e.isChecked = false := by
  have hfold : ∀ (names : List String) (path : Path), names.foldlM resolve path = .error e →
      e.isChecked = false := by
    intro names
    induction names with
    | nil => exact fun path hpath => by cases hpath
    | cons name names ih =>
      intro path hpath
      rw [List.foldlM_cons] at hpath
      cases hresolve : resolve path name with
      | error e' =>
        rw [hresolve] at hpath
        obtain rfl := Except.error.inj hpath
        exact isChecked_of_resolve_error hresolve
      | ok next =>
        rw [hresolve] at hpath
        exact ih next hpath
  cases name with
  | none =>
    obtain rfl := Except.error.inj h
    rfl
  | some entryName => exact hfold _ _ h

theorem unchecked_of_badName {fileSize : FileSize} {after : List (Option FileSize)}
    (h : BadName workDir fileSize) :
    ∃ e, (readFileSizes workDir (some fileSize :: after) input fs).1 = .error e ∧ e.isChecked = false := by
  rw [readFileSizes]
  cases hname : convertFromEntryName workDir fileSize.name with
  | error e => exact ⟨e, rfl, isChecked_of_convertFromEntryName_error hname⟩
  | ok file =>
    obtain rfl := h file hname
    exact ⟨.nullPointer, rfl, rfl⟩

theorem unchecked_of_reachesBadName (h : ReachesBadName workDir fileSizes input.content fs) :
    ∃ e, (readFileSizes workDir fileSizes input fs).1 = .error e ∧ e.isChecked = false := by
  obtain ⟨before, fileSize, after, content', fs', rfl, hbefore, hname⟩ := h
  obtain ⟨rest, -, hread⟩ := readFileSizes_append hbefore (List.cons_ne_nil _ after) input rfl
  rw [hread]
  exact unchecked_of_badName hname

theorem ok_of_allRestored (h : AllRestored workDir fileSizes input.content fs) :
    ∃ rest fs', readFileSizes workDir fileSizes input fs = (.ok rest, fs') := by
  obtain ⟨before, content', fs', hbefore, ⟨rfl, hend⟩ | ⟨after, rfl⟩⟩ := h
  · rcases hend with rfl | hend
    · exact ⟨input, fs, rfl⟩
    · obtain ⟨rest, -, hread⟩ := readFileSizes_of_restored hbefore input rfl hend
      exact ⟨rest, fs', hread⟩
  · obtain ⟨rest, -, hread⟩ := readFileSizes_append hbefore (List.cons_ne_nil none after) input rfl
    exact ⟨rest, fs', hread⟩

/-- By the entries: each of them stops the loop, or is restored. -/
theorem readFileSizes_cases (fileSizes : List (Option FileSize)) :
    ∀ (input : InputStream) (fs : FileSystem),
      (∃ message, (readFileSizes workDir fileSizes input fs).1 = .error (.io message)) ∨
        ReachesBadName workDir fileSizes input.content fs ∨
        AllRestored workDir fileSizes input.content fs := by
  induction fileSizes with
  | nil => exact fun input fs => .inr (.inr ⟨[], _, _, .nil, .inl ⟨rfl, .inl rfl⟩⟩)
  | cons entry others ih =>
    intro input fs
    cases entry with
    | none => exact .inr (.inr ⟨[], _, _, .nil, .inr ⟨others, rfl⟩⟩)
    | some fileSize =>
      by_cases hbad : BadName workDir fileSize
      · exact .inr (.inl ⟨[], fileSize, others, _, _, rfl, .nil, hbad⟩)
      obtain ⟨file, hname, hfile⟩ : ∃ file, convertFromEntryName workDir fileSize.name = .ok file ∧ file ≠ [] := by
        simpa [BadName] using hbad
      by_cases hstop : fs.isObstructed (canonical file) = true ∨ input.content.length < fileSize.size.toNat ∨
          (others.isEmpty = true ∧ fileSize.size.toNat < input.content.length)
      · obtain ⟨message, hwrite⟩ := @writeFile_error input file fileSize.size others.isEmpty fs hfile hstop
        left
        refine ⟨message, ?_⟩
        rw [readFileSizes, hname]
        dsimp only
        split
        · rename_i hresult
          rw [hresult] at hwrite
          exact hwrite
        · rename_i hresult
          rw [hresult] at hwrite
          cases hwrite
      · obtain ⟨hfs, hlength, hlast⟩ : fs.isObstructed (canonical file) = false ∧
            fileSize.size.toNat ≤ input.content.length ∧
            (others.isEmpty = true → input.content.length ≤ fileSize.size.toNat) := by
          simpa using hstop
        obtain ⟨next, hnext, hwrite⟩ :=
          @writeFile_ok input file fileSize.size others.isEmpty fs hfile hfs hlength hlast
        have hread : readFileSizes workDir (some fileSize :: others) input fs =
            readFileSizes workDir others next
              (fs.write (canonical file) (input.content.take fileSize.size.toNat)) := by
          rw [readFileSizes, hname]
          simp only [hwrite]
        rw [hread]
        rcases ih next (fs.write (canonical file) (input.content.take fileSize.size.toNat)) with
          hio | ⟨before, bad, after, content', fs', hothers, hbefore, hbad'⟩ |
          ⟨before, content', fs', hbefore, hend⟩
        · exact .inl hio
        · rw [hnext] at hbefore
          exact .inr (.inl ⟨fileSize :: before, bad, after, content', fs', by rw [hothers]; rfl,
            .cons hname hfile hfs hlength hbefore, hbad'⟩)
        · rw [hnext] at hbefore
          refine .inr (.inr ⟨fileSize :: before, content', fs', .cons hname hfile hfs hlength hbefore, ?_⟩)
          rcases hend with ⟨rfl, hend⟩ | ⟨after, rfl⟩
          · refine .inl ⟨rfl, .inr ?_⟩
            rcases hend with rfl | hend
            · cases hbefore
              exact List.drop_eq_nil_of_le (hlast rfl)
            · exact hend
          · exact .inr ⟨after, rfl⟩

/-! ### Lengths that do not agree -/

/-- A null entry has no size. -/
def totalSize (fileSizes : List (Option FileSize)) : ℤ :=
  ((fileSizes.filterMap id).map (·.size)).sum

/-- How a stream can have another length than its manifest says without an `IOException`: before the length
is compared, a name is rejected or a null ends the loop; no entry is there to compare it; or a negative size
hides the difference. -/
inductive Unnoticed (workDir : Path) (content : Bytes) (fs : FileSystem) : List (Option FileSize) → Prop
  | badName {fileSizes : List (Option FileSize)} :
      ReachesBadName workDir fileSizes content fs → Unnoticed workDir content fs fileSizes
  | noEntry : Unnoticed workDir content fs []
  | nullEntry {before : List FileSize} {content' : Bytes} {fs' : FileSystem} (after : List (Option FileSize)) :
      Restored workDir before content fs content' fs' →
      Unnoticed workDir content fs (before.map some ++ none :: after)
  | negativeSize {before : List FileSize} {fs' : FileSystem} {fileSize : FileSize} :
      Restored workDir before content fs [] fs' → fileSize ∈ before → fileSize.size < 0 →
      Unnoticed workDir content fs (before.map some)

theorem totalSize_map_some (before : List FileSize) :
    totalSize (before.map some) = (before.map (·.size)).sum := by
  rw [totalSize, List.filterMap_map]
  simp

theorem sum_toNat_of_nonneg {before : List FileSize} (h : ∀ fileSize ∈ before, 0 ≤ fileSize.size) :
    (((before.map fun fileSize => fileSize.size.toNat).sum : ℕ) : ℤ) = (before.map (·.size)).sum := by
  induction before with
  | nil => rfl
  | cons fileSize before ih =>
    have hsize := h fileSize List.mem_cons_self
    have hrest := ih fun other hother => h other (List.mem_cons_of_mem _ hother)
    rw [List.map_cons, List.map_cons, List.sum_cons, List.sum_cons]
    omega

theorem unnoticed_of_allRestored (h : AllRestored workDir fileSizes input.content fs)
    (hlength : (input.content.length : ℤ) ≠ totalSize fileSizes) :
    Unnoticed workDir input.content fs fileSizes := by
  obtain ⟨before, content', fs', hbefore, ⟨rfl, hend⟩ | ⟨after, rfl⟩⟩ := h
  · rcases hend with rfl | rfl
    · exact .noEntry
    · have hsum := hbefore.length_eq
      rw [List.length_nil, Nat.add_zero] at hsum
      rw [totalSize_map_some, hsum] at hlength
      obtain ⟨fileSize, hmem, hsize⟩ : ∃ fileSize ∈ before, fileSize.size < 0 := by
        by_contra hnone
        exact hlength (sum_toNat_of_nonneg fun fileSize hmem =>
          Int.not_lt.mp fun hsize => hnone ⟨fileSize, hmem, hsize⟩)
      exact .negativeSize hbefore hmem hsize
  · exact .nullEntry after hbefore

theorem unnoticed_cases (h : Unnoticed workDir input.content fs fileSizes) :
    ReachesBadName workDir fileSizes input.content fs ∨ AllRestored workDir fileSizes input.content fs := by
  cases h with
  | badName hname => exact .inl hname
  | noEntry => exact .inr ⟨[], _, _, .nil, .inl ⟨rfl, .inl rfl⟩⟩
  | nullEntry after hbefore => exact .inr ⟨_, _, _, hbefore, .inr ⟨after, rfl⟩⟩
  | negativeSize hbefore => exact .inr ⟨_, _, _, hbefore, .inl ⟨rfl, .inr rfl⟩⟩

theorem io_iff_not_unnoticed (hlength : (input.content.length : ℤ) ≠ totalSize fileSizes) :
    (∃ message, (SequenceSerialization.readFromCache workDir (some ⟨some fileSizes⟩) input fs).1 = .error (.io message)) ↔
      ¬ Unnoticed workDir input.content fs fileSizes := by
  show (∃ message, (readFileSizes workDir fileSizes input fs).1 = .error (.io message)) ↔ _
  constructor
  · rintro ⟨message, hio⟩ hunnoticed
    rcases unnoticed_cases hunnoticed with hname | hall
    · obtain ⟨e, he, hchecked⟩ := unchecked_of_reachesBadName hname
      obtain rfl := Except.error.inj (hio.symm.trans he)
      cases hchecked
    · obtain ⟨rest, fs', hread⟩ := ok_of_allRestored hall
      rw [hread] at hio
      cases hio
  · intro hnoticed
    rcases readFileSizes_cases fileSizes input fs with hio | hname | hall
    · exact hio
    · exact absurd (.badName hname) hnoticed
    · exact absurd (unnoticed_of_allRestored hall hlength) hnoticed

end Outcomes

/-! ### Round trip -/

section EntryNames

variable {base names : Path}

theorem commonPrefix_append (base names : Path) : commonPrefix base (base ++ names) = base.length := by
  induction base with
  | nil => rfl
  | cons name base ih => rw [List.cons_append, commonPrefix, if_pos rfl, ih, List.length_cons]

theorem relativize_append (hnames : names ≠ []) : relativize base (base ++ names) = names := by
  rw [relativize, if_neg (by simpa using hnames)]
  simp [commonPrefix_append]

theorem splitOnSlash_intercalate (hnames : names ≠ []) (h : ∀ name ∈ names, IsName name) :
    splitOnSlash ("/".intercalate names) = names := by
  have hsplit : (['/'].intercalate (names.map String.toList)).splitOn '/' = names.map String.toList := by
    apply List.splitOn_intercalate
    · intro l hl
      obtain ⟨name, hname, rfl⟩ := List.mem_map.mp hl
      exact (h name hname).noSlash
    · simpa using hnames
  have htoList : ("/".intercalate names).toList = ['/'].intercalate (names.map String.toList) :=
    String.toList_intercalate
  rw [splitOnSlash, htoList, hsplit, List.map_map]
  simp

theorem split_intercalate (hnames : names ≠ []) (h : ∀ name ∈ names, IsName name) :
    split ("/".intercalate names) = names := by
  rw [split, splitOnSlash_intercalate hnames h]
  split
  · rfl
  · rw [List.rdropWhile_eq_self_iff]
    intro hne
    have hlast := (h _ (List.getLast_mem hne)).nonempty
    simpa using hlast

theorem foldlM_resolve (h : ∀ name ∈ names, IsName name) : names.foldlM resolve base = .ok (base ++ names) := by
  induction names generalizing base with
  | nil => simp [pure, Except.pure]
  | cons name names ih =>
    have hname := h name List.mem_cons_self
    have hresolve : resolve base name = .ok (base ++ [name]) := by
      rw [resolve, hname.noNul, if_neg (by simp), if_neg hname.nonempty]
    rw [List.foldlM_cons, hresolve, ok_bind, ih fun other hother => h other (List.mem_cons_of_mem _ hother)]
    simp

/-- The name of an entry leads to the same file below another directory. -/
theorem convertFromEntryName_convertToEntryName {workDir : Path} (hnames : names ≠ [])
    (h : ∀ name ∈ names, IsName name) :
    convertFromEntryName workDir (some (convertToEntryName base (base ++ names))) =
      .ok (workDir ++ names) := by
  rw [convertToEntryName, relativize_append hnames, convertFromEntryName, split_intercalate hnames h,
    foldlM_resolve h]

end EntryNames

/-- The manifest entry of a file, by its names below the working directory and its content. -/
def entryOf (base : Path) (file : Path × Bytes) : FileSize :=
  ⟨some (convertToEntryName base (base ++ file.1)), file.2.length⟩

/-- Neither path lies below the other. -/
def Apart (path other : Path) : Prop :=
  ¬ path <+: other ∧ ¬ other <+: path

theorem apart_append {base names others : Path} (h : Apart names others) :
    Apart (base ++ names) (base ++ others) :=
  ⟨fun hstart => h.1 ((List.prefix_append_right_inj base).mp hstart),
    fun hstart => h.2 ((List.prefix_append_right_inj base).mp hstart)⟩

/-- Files that are apart are all restored: a file that has been written is not touched again. -/
theorem restored_entries {base workDir : Path} (hworkDir : ∀ name ∈ workDir, IsName name)
    {files : List (Path × Bytes)} (hnames : ∀ file ∈ files, file.1 ≠ [] ∧ ∀ name ∈ file.1, IsName name)
    (hapart : files.Pairwise fun file other => Apart file.1 other.1) {fs : FileSystem}
    (hfs : ∀ file ∈ files, fs.isObstructed (workDir ++ file.1) = false) :
    ∃ fs', Restored workDir (files.map (entryOf base)) (files.flatMap Prod.snd) fs [] fs' ∧
      (∀ file ∈ files, fs'.node (workDir ++ file.1) = some (.file file.2)) ∧
      ∀ path, (∀ file ∈ files, Apart (workDir ++ file.1) path) → fs'.node path = fs.node path := by
  induction files generalizing fs with
  | nil => exact ⟨fs, .nil, by simp, fun path _ => rfl⟩
  | cons file files ih =>
    obtain ⟨hne, hvalid⟩ := hnames file List.mem_cons_self
    obtain ⟨hhead, htail⟩ := List.pairwise_cons.mp hapart
    have hname : convertFromEntryName workDir (some (convertToEntryName base (base ++ file.1))) = _ :=
      convertFromEntryName_convertToEntryName hne hvalid
    have hcanonical : canonical (workDir ++ file.1) = workDir ++ file.1 :=
      canonical_eq_self fun name hname => (List.mem_append.mp hname).elim (hworkDir name) (hvalid name)
    have hothers : ∀ other ∈ files,
        (fs.write (workDir ++ file.1) file.2).isObstructed (workDir ++ other.1) = false := by
      intro other hother
      have hpaths : Apart (workDir ++ file.1) _ := apart_append (hhead other hother)
      exact FileSystem.isObstructed_write (hfs other (List.mem_cons_of_mem _ hother)) hpaths.2 hpaths.1
    obtain ⟨fs', hrestored, hfiles, hframe⟩ :=
      ih (fun other hother => hnames other (List.mem_cons_of_mem _ hother)) htail hothers
    refine ⟨fs', ?_, ?_, ?_⟩
    · have hsize : (entryOf base file).size.toNat = file.2.length := Int.toNat_natCast _
      refine .cons hname (by simp [hne]) ?_ ?_ ?_
      · rw [hcanonical]
        exact hfs file List.mem_cons_self
      · rw [hsize, List.flatMap_cons, List.length_append]
        omega
      · rw [hsize, List.flatMap_cons, hcanonical, List.take_left' rfl, List.drop_left' rfl]
        exact hrestored
    · intro other hother
      rcases List.mem_cons.mp hother with rfl | hother
      · rw [hframe _ fun later hlater => ?_]
        · exact FileSystem.node_write_self
        · have hpaths : Apart (workDir ++ _) _ := apart_append (hhead later hlater)
          exact ⟨hpaths.2, hpaths.1⟩
      · exact hfiles other hother
    · intro path hpath
      have hfile := hpath file List.mem_cons_self
      rw [hframe path fun other hother => hpath other (List.mem_cons_of_mem _ hother)]
      exact FileSystem.node_write_of_apart hfile.2 hfile.1

/-- Distinct files below the working directory, which the analyzer has generated. -/
structure Generated (fs : FileSystem) (workDir : Path) (generatedFiles : List String) (paths : List Path) :
    Prop where
  parsed : generatedFiles.mapM pathOf = .ok paths
  distinct : paths.Nodup
  below : ∀ path ∈ paths, ∃ names, names ≠ [] ∧ path = workDir ++ names
  plain : ∀ path ∈ paths, ∀ name ∈ path, name ≠ "." ∧ name ≠ ".."
  isFile : ∀ path ∈ paths, fs.node path = some (.file (fs.contentOf path))

/-- The names below the working directory, and the contents. -/
def filesOf (fs : FileSystem) (workDir : Path) (paths : List Path) : List (Path × Bytes) :=
  paths.map fun path => (path.drop workDir.length, fs.contentOf path)

section Generated

variable {fs : FileSystem} {workDir : Path} {generatedFiles : List String} {paths : List Path}

theorem foldl_putFileSize {entries : List (Path × Bytes)} (h : (entries.map Prod.fst).Nodup) :
    ∀ fileSizes : List (Path × ℕ), (∀ entry ∈ entries, entry.1 ∉ fileSizes.map Prod.fst) →
      entries.foldl (fun fileSizes entry => putFileSize fileSizes entry.1 entry.2.length) fileSizes =
        fileSizes ++ entries.map fun entry => (entry.1, entry.2.length) := by
  induction entries with
  | nil => simp
  | cons entry entries ih =>
    intro fileSizes hnew
    obtain ⟨hentry, hrest⟩ := List.nodup_cons.mp h
    have hput : putFileSize fileSizes entry.1 entry.2.length =
        fileSizes ++ [(entry.1, entry.2.length)] := by
      rw [putFileSize, if_neg]
      intro hany
      obtain ⟨other, hother, heq⟩ := List.any_eq_true.mp hany
      exact hnew entry List.mem_cons_self (List.mem_map.mpr ⟨other, hother, of_decide_eq_true heq⟩)
    rw [List.foldl_cons, hput, ih hrest]
    · simp
    · intro other hother hmem
      rw [List.map_append, List.mem_append] at hmem
      rcases hmem with hold | hsame
      · exact hnew other (List.mem_cons_of_mem _ hother) hold
      · obtain heq : other.1 = entry.1 := by simpa using hsame
        exact hentry (heq ▸ List.mem_map_of_mem hother)

theorem Generated.isName (h : Generated fs workDir generatedFiles paths) {path : Path} (hpath : path ∈ paths)
    {name : String} (hname : name ∈ path) : IsName name := by
  obtain ⟨s, -, hs⟩ := exists_of_mem_mapM h.parsed hpath
  exact isName_of_pathOf hs hname (h.plain path hpath name hname)

theorem Generated.append_drop (h : Generated fs workDir generatedFiles paths) {path : Path}
    (hpath : path ∈ paths) :
    workDir ++ path.drop workDir.length = path ∧ path.drop workDir.length ≠ [] := by
  obtain ⟨names, hnames, rfl⟩ := h.below path hpath
  rw [List.drop_left' rfl]
  exact ⟨rfl, hnames⟩

/-- The sequence is the concatenation of the files; the manifest has their names and sizes in this order. -/
theorem writeToCache_generated (h : Generated fs workDir generatedFiles paths) :
    SequenceSerialization.writeToCache workDir (some generatedFiles) fs =
      .ok ((filesOf fs workDir paths).flatMap Prod.snd,
        ⟨some (((filesOf fs workDir paths).map (entryOf workDir)).map some)⟩) := by
  have hcontents : paths.mapM fs.read = .ok (paths.map fs.contentOf) := by
    refine mapM_eq_ok fun path hpath => ?_
    rw [FileSystem.read, canonical_eq_self fun name hname => h.isName hpath hname, h.isFile path hpath]
  have hzip : paths.zip (paths.map fs.contentOf) = paths.map fun path => (path, fs.contentOf path) := by
    have hmap := @List.zip_map' _ _ _ id fs.contentOf paths
    rwa [List.map_id] at hmap
  have hkeys : ((paths.map fun path => (path, fs.contentOf path)).map Prod.fst).Nodup := by
    have hfst : (paths.map fun path => (path, fs.contentOf path)).map Prod.fst = paths := by
      simp [Function.comp_def]
    rw [hfst]
    exact h.distinct
  rw [SequenceSerialization.writeToCache, Option.getD_some, h.parsed, ok_bind, hcontents, ok_bind]
  dsimp only
  rw [hzip, foldl_putFileSize hkeys [] (by simp), List.nil_append, createManifest, filesOf]
  have hentries : ∀ path ∈ paths,
      (⟨some (convertToEntryName workDir path), ((fs.contentOf path).length : ℤ)⟩ : FileSize) =
        entryOf workDir (path.drop workDir.length, fs.contentOf path) := by
    intro path hpath
    rw [entryOf, (h.append_drop hpath).1]
  congr 1
  refine Prod.ext ?_ ?_
  · simp [List.flatMap_def, Function.comp_def]
  · simp only [List.map_map, Function.comp_def]
    congr 2
    exact List.map_congr_left fun path hpath => congrArg some (hentries path hpath)

theorem Generated.pairwise_apart (h : Generated fs workDir generatedFiles paths) :
    (filesOf fs workDir paths).Pairwise fun file other => Apart file.1 other.1 := by
  rw [filesOf, List.pairwise_map]
  refine (List.pairwise_iff_forall_sublist.mpr fun {path other} hsub => ?_)
  have hmem : path ∈ paths ∧ other ∈ paths := ⟨hsub.subset (by simp), hsub.subset (by simp)⟩
  have hne : path ≠ other := by
    have hnodup := h.distinct.sublist hsub
    simpa using hnodup
  have hpath := (h.append_drop hmem.1).1
  have hother := (h.append_drop hmem.2).1
  refine ⟨fun hstart => hne ?_, fun hstart => hne ?_⟩
  · have hfull := (List.prefix_append_right_inj workDir).mpr hstart
    rw [hpath, hother] at hfull
    exact FileSystem.eq_of_prefix_of_file (h.isFile other hmem.2) (h.isFile path hmem.1) hfull
  · have hfull := (List.prefix_append_right_inj workDir).mpr hstart
    rw [hpath, hother] at hfull
    exact (FileSystem.eq_of_prefix_of_file (h.isFile path hmem.1) (h.isFile other hmem.2) hfull).symm

/-- The files that have been written are read back below any working directory where nothing is in their
way, however the stream is split into reads. -/
theorem readFromCache_generated (h : Generated fs workDir generatedFiles paths) {workDir' : Path}
    {fs' : FileSystem} {input : InputStream} (hworkDir' : ∀ name ∈ workDir', IsName name)
    (hinput : input.content = (filesOf fs workDir paths).flatMap Prod.snd)
    (hfs' : ∀ path ∈ paths, fs'.isObstructed (workDir' ++ path.drop workDir.length) = false) :
    ∃ rest fs'', SequenceSerialization.readFromCache workDir'
        (some ⟨some (((filesOf fs workDir paths).map (entryOf workDir)).map some)⟩) input fs' =
          (.ok rest, fs'') ∧
      ∀ path ∈ paths, fs''.node (workDir' ++ path.drop workDir.length) = fs.node path := by
  have hnames : ∀ file ∈ filesOf fs workDir paths, file.1 ≠ [] ∧ ∀ name ∈ file.1, IsName name := by
    intro file hfile
    obtain ⟨path, hpath, rfl⟩ := List.mem_map.mp hfile
    exact ⟨(h.append_drop hpath).2, fun name hname => h.isName hpath (List.mem_of_mem_drop hname)⟩
  have hclear : ∀ file ∈ filesOf fs workDir paths, fs'.isObstructed (workDir' ++ file.1) = false := by
    intro file hfile
    obtain ⟨path, hpath, rfl⟩ := List.mem_map.mp hfile
    exact hfs' path hpath
  obtain ⟨fs'', hrestored, hfiles, -⟩ := restored_entries hworkDir' hnames h.pairwise_apart hclear
  obtain ⟨rest, -, hread⟩ := readFileSizes_of_restored hrestored input hinput rfl
  refine ⟨rest, fs'', hread, fun path hpath => ?_⟩
  rw [hfiles _ (List.mem_map_of_mem hpath), h.isFile path hpath]

/-- The files come back with their content, and a stream of another length than the manifest says is
reported, unless the difference goes unnoticed. -/
theorem restores_and_reports (h : Generated fs workDir generatedFiles paths) :
    (∃ bytes manifest, SequenceSerialization.writeToCache workDir (some generatedFiles) fs = .ok (bytes, manifest) ∧
      ∀ (workDir' : Path) (fs' : FileSystem) (input : InputStream),
        (∀ name ∈ workDir', IsName name) → input.content = bytes →
        (∀ path ∈ paths, fs'.isObstructed (workDir' ++ path.drop workDir.length) = false) →
        ∃ rest fs'', SequenceSerialization.readFromCache workDir' (some manifest) input fs' = (.ok rest, fs'') ∧
          ∀ path ∈ paths, fs''.node (workDir' ++ path.drop workDir.length) = fs.node path) ∧
      ∀ (dir : Path) (fileSizes : List (Option FileSize)) (input : InputStream) (fs' : FileSystem),
        (input.content.length : ℤ) ≠ totalSize fileSizes →
        ((∃ message, (SequenceSerialization.readFromCache dir (some ⟨some fileSizes⟩) input fs').1 = .error (.io message)) ↔
          ¬ Unnoticed dir input.content fs' fileSizes) :=
  ⟨⟨_, _, writeToCache_generated h, fun _ _ _ hworkDir' hinput hfs' =>
    readFromCache_generated h hworkDir' hinput hfs'⟩, fun _ _ _ _ => io_iff_not_unnoticed⟩

end Generated

def twoFiles : FileSystem :=
  (FileSystem.empty.write ["w", "a"] [1, 2, 3]).write ["w", "d", "b"] []

theorem restores_and_reports_two_files :
    ∃ bytes manifest, SequenceSerialization.writeToCache ["w"] (some ["/w/a", "/w/d/b"]) twoFiles = .ok (bytes, manifest) ∧
      ∃ rest fs', SequenceSerialization.readFromCache ["v"] (some manifest) ⟨bytes, [2]⟩ .empty = (.ok rest, fs') ∧
        fs'.node ["v", "a"] = some (.file [1, 2, 3]) := by
  have h : Generated twoFiles ["w"] ["/w/a", "/w/d/b"] [["w", "a"], ["w", "d", "b"]] :=
    { parsed := by decide
      distinct := by decide
      below := by
        rintro path (_ | ⟨_, _ | ⟨_, ⟨⟩⟩⟩)
        · exact ⟨["a"], by decide, rfl⟩
        · exact ⟨["d", "b"], by decide, rfl⟩
      plain := by decide
      isFile := by decide }
  obtain ⟨⟨bytes, manifest, hwrite, hread⟩, -⟩ := restores_and_reports h
  have hname : ∀ name ∈ ["v"], IsName name := by
    rintro name (_ | ⟨_, ⟨⟩⟩)
    exact ⟨by decide, by decide, by decide, by decide, by decide⟩
  obtain ⟨rest, fs', hread, hfiles⟩ := hread ["v"] .empty ⟨bytes, [2]⟩ hname rfl (by decide)
  exact ⟨bytes, manifest, hwrite, rest, fs', hread, hfiles ["w", "a"] (by decide)⟩

/-- The stream is not looked at when there is no file. -/
theorem empty_manifest_unnoticed :
    ¬ ∀ (workDir : Path) (fileSizes : List (Option FileSize)) (input : InputStream) (fs : FileSystem),
      (input.content.length : ℤ) ≠ totalSize fileSizes →
      ∃ message, (SequenceSerialization.readFromCache workDir (some ⟨some fileSizes⟩) input fs).1 = .error (.io message) := by
  intro h
  obtain ⟨message, hread⟩ := h ["w"] [] ⟨[65], []⟩ .empty (by decide)
  cases hread

end SonarJavascript.Cache
