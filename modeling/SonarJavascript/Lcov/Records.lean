import Mathlib.Data.List.TakeWhile
import SonarJavascript.Lcov.LCOVParser

/-!
# The records of LCOV reports

What the lines of the reports say, whether or not the parser accepts it. `Inv.parse`: the parser collects the
sums of the counts that it accepts, those below 2^31 in lines without a checksum.
-/

namespace SonarJavascript.Lcov

open SumMap

/-- A section begins; a line has a count, with or without a checksum; a branch, which is a block number and a
branch number, has been taken. -/
inductive Record
  | source
  | line (number count : ℤ) (checksum : Bool)
  | branch (number : ℤ) (branch : Text × Text) (taken : ℤ)
  deriving DecidableEq

variable {InputFile : Type} (context : Context InputFile)

def lineRecord (line : Text) : Option Record :=
  match fields (line.drop DA.length) with
  | lineNumber :: executionCount :: checksum => do
    let number ← valueOf context lineNumber
    let count ← integer context executionCount
    return .line number count (checksum ≠ [])
  | _ => none

def branchRecord (line : Text) : Option Record :=
  match split (trim (line.drop BRDA.length)) with
  | lineNumber :: blockNumber :: branchNumber :: taken :: _ => do
    let number ← valueOf context lineNumber
    let count ← takenCount (integer context) taken
    return .branch number (blockNumber, branchNumber) count
  | _ => none

/-- The record of a line of a section; its line number is one of the file. -/
def readRecord (file : InputFile) (line : Text) : Option Record :=
  (if DA.isPrefixOf line then lineRecord context line
    else if BRDA.isPrefixOf line then branchRecord context line
    else none).filter fun
  | .source => true
  | .line number _ _ | .branch number _ _ => 1 ≤ number ∧ number ≤ context.lines file

def nextFile (current : Option InputFile) (line : Text) : Option InputFile :=
  if SF.isPrefixOf line then inputFileForSourceFile context (line.drop SF.length) else current

def scanLine (current : Option InputFile) (line : Text) : List (InputFile × Record) :=
  if SF.isPrefixOf line then
    (inputFileForSourceFile context (line.drop SF.length)).toList.map fun file => (file, .source)
  else
    match current with
    | some file => (readRecord context file line).toList.map fun record => (file, record)
    | none => []

def scan : Option InputFile → List Text → List (InputFile × Record)
  | _, [] => []
  | current, line :: lines => scanLine context current line ++ scan (nextFile context current line) lines

/-! ### What a record adds -/

def Record.add : Record → FileData → Option FileData
  | .source, _ => none
  | .line number count checksum, data =>
    if checksum = false ∧ Fits count then data.addLine number count else none
  | .branch number (blockNumber, branchNumber) taken, data =>
    if Fits taken then data.addBranch number (blockNumber ++ branchNumber) taken else none

theorem fields_of_not_mem {text : Text} (h : ',' ∉ text) : fields text = [text] := by
  induction text with
  | nil => rfl
  | cons c text ih =>
    obtain ⟨hc, htext⟩ := not_or.mp (mt List.mem_cons.mpr h)
    rw [fields, if_neg (Ne.symm hc), ih htext]

theorem fields_append {before after : Text} (h : ',' ∉ before) :
    fields (before ++ ',' :: after) = before :: fields after := by
  induction before with
  | nil => simp [fields]
  | cons c before ih =>
    obtain ⟨hc, hbefore⟩ := not_or.mp (mt List.mem_cons.mpr h)
    rw [List.cons_append, fields, if_neg (Ne.symm hc), ih hbefore]

variable {context}

theorem digits_of_comma {text : Text} (h : ',' ∈ text) : digits context text = none := by
  unfold digits
  generalize 0 = number
  induction text generalizing number with
  | nil => exact absurd h List.not_mem_nil
  | cons c text ih =>
    rw [List.foldlM_cons]
    obtain rfl | h := List.mem_cons.mp h
    · rw [context.digit_comma]
      rfl
    · cases context.digit c with
      | none => rfl
      | some value => exact ih h _

theorem integer_of_comma {text : Text} (h : ',' ∈ text) : integer context text = none := by
  cases text with
  | nil => exact absurd h List.not_mem_nil
  | cons c text =>
    have hwhole : digits context (c :: text) = none := digits_of_comma h
    simp only [integer]
    split_ifs with hminus hnil hplus
    · rfl
    · subst hminus
      rw [digits_of_comma (by simpa using h)]
      rfl
    · rfl
    · subst hplus
      rw [digits_of_comma (by simpa using h)]
      rfl
    · rw [hwhole]
      rfl

theorem fields_ne_nil (text : Text) : fields text ≠ [] := by
  cases text with
  | nil => simp [fields]
  | cons c text =>
    unfold fields
    split_ifs
    · simp
    · cases fields text <;> simp

theorem exists_append_of_comma {text : Text} (h : ',' ∈ text) :
    ∃ after, text.dropWhile (· ≠ ',') = ',' :: after ∧ text = text.takeWhile (· ≠ ',') ++ ',' :: after ∧
      ',' ∉ text.takeWhile (· ≠ ',') := by
  induction text with
  | nil => exact absurd h List.not_mem_nil
  | cons c text ih =>
    by_cases hc : c = ','
    · subst hc
      exact ⟨text, by simp, by simp, by simp⟩
    · obtain ⟨after, hdrop, htext, hnot⟩ := ih ((List.mem_cons.mp h).resolve_left (Ne.symm hc))
      refine ⟨after, by simpa [hc] using hdrop, by simpa [hc] using htext, ?_⟩
      simpa [hc, Ne.symm hc] using hnot

theorem valueOf_eq (text : Text) : valueOf context text = (integer context text).filter (Fits ·) := rfl

theorem parseLineCoverage_eq (line : Text) (data : FileData) :
    parseLineCoverage context line data = (lineRecord context line).bind (·.add data) := by
  unfold parseLineCoverage lineRecord
  generalize line.drop DA.length = text
  by_cases hcomma : ',' ∈ text
  · obtain ⟨after, hdrop, htext, hnot⟩ := exists_append_of_comma hcomma
    have hfields : fields text = text.takeWhile (· ≠ ',') :: fields after := by
      conv_lhs => rw [htext, fields_append hnot]
    by_cases hchecksum : ',' ∈ after
    · -- the checksum is read as a part of the count
      obtain ⟨checksum, -, hafter, hcount⟩ := exists_append_of_comma hchecksum
      have hrest : fields after = after.takeWhile (· ≠ ',') :: fields checksum := by
        conv_lhs => rw [hafter, fields_append hcount]
      simp only [hdrop, hfields, hrest, valueOf_eq after, integer_of_comma hchecksum]
      cases valueOf context (text.takeWhile (· ≠ ',')) with
      | none => rfl
      | some number =>
        cases integer context (after.takeWhile (· ≠ ',')) with
        | none => rfl
        | some count => simp [Record.add, fields_ne_nil]
    · simp only [hdrop, hfields, fields_of_not_mem hchecksum, valueOf_eq after]
      cases valueOf context (text.takeWhile (· ≠ ',')) with
      | none => rfl
      | some number =>
        cases integer context after with
        | none => rfl
        | some count =>
          by_cases hfits : Fits count
          · simp [Record.add, Option.filter, hfits]
          · simp [Record.add, Option.filter, hfits]
  · have hdrop : text.dropWhile (· ≠ ',') = [] := by
      exact List.dropWhile_eq_nil_iff.mpr fun c hc => by simpa using ne_of_mem_of_not_mem hc hcomma
    simp only [hdrop, fields_of_not_mem hcomma]
    rfl

theorem takenCount_valueOf (taken : Text) :
    takenCount (valueOf context) taken = (takenCount (integer context) taken).filter (Fits ·) := by
  unfold takenCount
  split_ifs
  · decide
  · rfl

theorem parseBranchCoverage_eq (line : Text) (data : FileData) :
    parseBranchCoverage context line data = (branchRecord context line).bind (·.add data) := by
  unfold parseBranchCoverage branchRecord
  rcases split (trim (line.drop BRDA.length)) with
    _ | ⟨lineNumber, _ | ⟨blockNumber, _ | ⟨branchNumber, _ | ⟨taken, rest⟩⟩⟩⟩
  any_goals rfl
  simp only [takenCount_valueOf]
  cases valueOf context lineNumber with
  | none => rfl
  | some number =>
    cases takenCount (integer context) taken with
    | none => rfl
    | some count =>
      by_cases hfits : Fits count
      · simp [Record.add, Option.filter, hfits]
      · simp [Record.add, Option.filter, hfits]

/-! ### The counts of a line -/

variable [DecidableEq InputFile] {records : List (InputFile × Record)} {file : InputFile} {record : Record}
  {line : ℤ} {key : Text}

def lineCounts (records : List (InputFile × Record)) (file : InputFile) (line : ℤ) : List (ℤ × Bool) :=
  records.filterMap fun
    | (other, .line number count checksum) =>
      if other = file ∧ number = line then some (count, checksum) else none
    | _ => none

def branchCounts (records : List (InputFile × Record)) (file : InputFile) (line : ℤ) :
    List ((Text × Text) × ℤ) :=
  records.filterMap fun
    | (other, .branch number branch taken) =>
      if other = file ∧ number = line then some (branch, taken) else none
    | _ => none

def acceptedLine (counts : List (ℤ × Bool)) : List (BitVec 32) :=
  (counts.filter fun count => count.2 = false ∧ Fits count.1).map fun count => BitVec.ofInt 32 count.1

/-- The key of a branch in the map of its line. -/
def branchKey (branch : Text × Text) : Text := branch.1 ++ branch.2

def acceptedBranch (key : Text) (counts : List ((Text × Text) × ℤ)) : List (BitVec 32) :=
  (counts.filter fun count => branchKey count.1 = key ∧ Fits count.2).map fun count => BitVec.ofInt 32 count.2

variable (context) in
/-- The data of a file has the sums of the counts that are accepted. -/
structure Collected (records : List (InputFile × Record)) (file : InputFile) (data : FileData) : Prop where
  lines : data.linesInFile = context.lines file
  hits : ∀ line, data.hits.lookup line = total (acceptedLine (lineCounts records file line))
  branches : ∀ line key, ((data.branches.lookup line).getD []).lookup key =
    total (acceptedBranch key (branchCounts records file line))
  nodup : ∀ line, (((data.branches.lookup line).getD []).map Prod.fst).Nodup
  ne_nil : ∀ line, data.branches.lookup line ≠ some []

theorem lineCounts_append (more : List (InputFile × Record)) :
    lineCounts (records ++ more) file line = lineCounts records file line ++ lineCounts more file line :=
  List.filterMap_append ..

theorem branchCounts_append (more : List (InputFile × Record)) :
    branchCounts (records ++ more) file line = branchCounts records file line ++ branchCounts more file line :=
  List.filterMap_append ..

theorem acceptedLine_append (counts more : List (ℤ × Bool)) :
    acceptedLine (counts ++ more) = acceptedLine counts ++ acceptedLine more := by
  simp [acceptedLine]

theorem acceptedBranch_append (counts more : List ((Text × Text) × ℤ)) :
    acceptedBranch key (counts ++ more) = acceptedBranch key counts ++ acceptedBranch key more := by
  simp [acceptedBranch]

/-- A record without accepted counts changes nothing. -/
theorem Collected.append {data : FileData} {more : List (InputFile × Record)}
    (h : Collected context records file data) (hline : ∀ line, acceptedLine (lineCounts more file line) = [])
    (hbranch : ∀ line key, acceptedBranch key (branchCounts more file line) = []) :
    Collected context (records ++ more) file data where
  lines := h.lines
  hits line := by rw [h.hits, lineCounts_append, acceptedLine_append, hline, List.append_nil]
  branches line key := by rw [h.branches, branchCounts_append, acceptedBranch_append, hbranch, List.append_nil]
  nodup := h.nodup
  ne_nil := h.ne_nil

theorem Collected.append_other {data : FileData} {more : List (InputFile × Record)}
    (h : Collected context records file data) (hother : ∀ entry ∈ more, entry.1 ≠ file) :
    Collected context (records ++ more) file data := by
  refine h.append (fun line => ?_) fun line key => ?_
  · have hnil : lineCounts more file line = [] := List.filterMap_eq_nil_iff.mpr fun entry hentry => by
      have := hother entry hentry
      rcases entry with ⟨_, _ | _ | _⟩ <;> simp_all
    rw [hnil]
    rfl
  · have hnil : branchCounts more file line = [] := List.filterMap_eq_nil_iff.mpr fun entry hentry => by
      have := hother entry hentry
      rcases entry with ⟨_, _ | _ | _⟩ <;> simp_all
    rw [hnil]
    rfl

/-- The number of a record is one of the lines. -/
def Record.Within (lines : ℤ) : Record → Prop
  | .source => True
  | .line number _ _ | .branch number _ _ => 1 ≤ number ∧ number ≤ lines

theorem lineCounts_line (number count : ℤ) (checksum : Bool) :
    lineCounts [(file, .line number count checksum)] file line =
      if number = line then [(count, checksum)] else [] := by
  by_cases h : number = line <;> simp [lineCounts, h]

theorem branchCounts_branch (number : ℤ) (branch : Text × Text) (taken : ℤ) :
    branchCounts [(file, .branch number branch taken)] file line =
      if number = line then [(branch, taken)] else [] := by
  by_cases h : number = line <;> simp [branchCounts, h]

theorem Collected.add {data data' : FileData} (h : Collected context records file data)
    (hadd : record.add data = some data') : Collected context (records ++ [(file, record)]) file data' := by
  cases record with
  | source => cases hadd
  | line number count checksum =>
    simp only [Record.add, FileData.addLine, Option.ite_none_right_eq_some, Option.some.injEq] at hadd
    obtain ⟨⟨rfl, hfits⟩, -, rfl⟩ := hadd
    refine ⟨h.lines, fun line => ?_, fun line key => ?_, h.nodup, h.ne_nil⟩
    · rw [lineCounts_append, acceptedLine_append, lineCounts_line]
      by_cases hline : number = line
      · subst hline
        simpa [acceptedLine, hfits] using lookup_merge_self (h.hits number)
      · simpa [acceptedLine, hline] using (lookup_merge_of_ne (Ne.symm hline)).trans (h.hits line)
    · rw [branchCounts_append, acceptedBranch_append, h.branches]
      simp [branchCounts, acceptedBranch]
  | branch number branch taken =>
    simp only [Record.add, FileData.addBranch, Option.ite_none_right_eq_some, Option.some.injEq] at hadd
    obtain ⟨hfits, -, rfl⟩ := hadd
    refine ⟨h.lines, fun line => ?_, fun line key => ?_, fun line => ?_, fun line => ?_⟩
    · rw [lineCounts_append, acceptedLine_append, h.hits]
      simp [lineCounts, acceptedLine]
    · rw [branchCounts_append, acceptedBranch_append, branchCounts_branch]
      by_cases hline : number = line
      · subst hline
        rw [lookup_upsert_self, if_pos rfl, Option.getD_some, ← branchKey]
        by_cases hkey : branchKey branch = key
        · subst hkey
          simpa [acceptedBranch, hfits] using lookup_merge_self (h.branches number (branchKey branch))
        · simpa [acceptedBranch, hkey] using (lookup_merge_of_ne (Ne.symm hkey)).trans (h.branches number key)
      · rw [lookup_upsert_of_ne (Ne.symm hline), h.branches]
        simp [acceptedBranch, hline]
    · by_cases hline : number = line
      · subst hline
        rw [lookup_upsert_self, Option.getD_some]
        exact nodup_upsert (h.nodup number)
      · rw [lookup_upsert_of_ne (Ne.symm hline)]
        exact h.nodup line
    · by_cases hline : number = line
      · subst hline
        rw [lookup_upsert_self, ne_eq, Option.some.injEq]
        exact upsert_ne_nil
      · rw [lookup_upsert_of_ne (Ne.symm hline)]
        exact h.ne_nil line

theorem Collected.skip {data : FileData} (h : Collected context records file data)
    (hadd : record.add data = none) (hwithin : record.Within data.linesInFile) :
    Collected context (records ++ [(file, record)]) file data := by
  cases record with
  | source => exact h.append (fun _ => rfl) fun _ _ => rfl
  | line number count checksum =>
    have hcheck : data.checkLine number := hwithin
    have hreject : ¬ (checksum = false ∧ Fits count) := by
      intro haccept
      simp [Record.add, FileData.addLine, haccept, hcheck] at hadd
    refine h.append (fun line => ?_) fun _ _ => rfl
    rw [lineCounts_line]
    by_cases hline : number = line
    · simpa [acceptedLine, hline] using hreject
    · simp [acceptedLine, hline]
  | branch number branch taken =>
    have hcheck : data.checkLine number := hwithin
    have hreject : ¬ Fits taken := by
      intro haccept
      simp [Record.add, FileData.addBranch, haccept, hcheck] at hadd
    refine h.append (fun _ => rfl) fun line key => ?_
    rw [branchCounts_branch]
    by_cases hline : number = line
    · simp [acceptedBranch, hline, hreject]
    · simp [acceptedBranch, hline]

/-! ### The run of the parser -/

variable (context) in
/-- The parser has the data of the sections that have begun. -/
structure Inv (records : List (InputFile × Record)) (state : ParserState InputFile) : Prop where
  files : ∀ file, (∃ data, state.files.lookup file = some data) ↔ ∃ record, (file, record) ∈ records
  current : ∀ file, state.fileData = some file → ∃ data, state.files.lookup file = some data
  collected : ∀ file data, state.files.lookup file = some data → Collected context records file data

theorem collected_new (file : InputFile) (h : ∀ record, (file, record) ∉ records) :
    Collected context records file ⟨context.lines file, [], []⟩ := by
  have hempty : Collected context ([] : List (InputFile × Record)) file ⟨context.lines file, [], []⟩ :=
    ⟨rfl, fun _ => rfl, fun _ _ => rfl, fun _ => List.nodup_nil, fun _ => by simp⟩
  exact hempty.append_other fun entry hentry heq => h entry.2 (heq ▸ hentry)

omit [DecidableEq InputFile] in
theorem readRecord_within {line : Text} (h : readRecord context file line = some record) :
    record.Within (context.lines file) := by
  obtain ⟨-, hfilter⟩ := Option.filter_eq_some_iff.mp h
  cases record with
  | source => trivial
  | line number count checksum => simpa [Record.Within] using hfilter
  | branch number branch taken => simpa [Record.Within] using hfilter

/-- A record joins those of its file. -/
theorem Inv.append_record {state state' : ParserState InputFile} {data : FileData}
    (h : Inv context records state) (hself : state'.files.lookup file = some data)
    (hother : ∀ other, other ≠ file → state'.files.lookup other = state.files.lookup other)
    (hcurrent : state'.fileData = state.fileData ∨ state'.fileData = some file)
    (hcollected : Collected context (records ++ [(file, record)]) file data) :
    Inv context (records ++ [(file, record)]) state' := by
  have hkept : ∀ other, (∃ data, state.files.lookup other = some data) →
      ∃ data, state'.files.lookup other = some data := by
    rintro other ⟨data', hdata'⟩
    by_cases hfile : other = file
    · subst hfile
      exact ⟨data, hself⟩
    · exact ⟨data', (hother other hfile).trans hdata'⟩
  refine ⟨fun other => ?_, fun other hfile => ?_, fun other data' hlookup => ?_⟩
  · by_cases hfile : other = file
    · subst hfile
      exact iff_of_true ⟨data, hself⟩ ⟨record, by simp⟩
    · rw [hother other hfile, h.files other]
      simp [hfile]
  · obtain hcurrent | hcurrent := hcurrent
    · exact hkept other (h.current other (hcurrent ▸ hfile))
    · obtain rfl := Option.some.inj (hcurrent.symm.trans hfile)
      exact ⟨data, hself⟩
  · by_cases hfile : other = file
    · subst hfile
      rwa [Option.some.inj (hlookup.symm.trans hself)]
    · rw [hother other hfile] at hlookup
      refine (h.collected other data' hlookup).append_other fun entry hentry => ?_
      rw [List.mem_singleton.mp hentry]
      exact Ne.symm hfile

theorem Inv.update {state : ParserState InputFile} (h : Inv context records state)
    (hfile : state.fileData = some file) {line : Text} {parse : FileData → Option FileData}
    (hparse : ∀ data : FileData, data.linesInFile = context.lines file →
      parse data = (readRecord context file line).bind (·.add data)) :
    Inv context (records ++ (readRecord context file line).toList.map fun record => (file, record))
      (state.update file parse) := by
  obtain ⟨data, hdata⟩ := h.current file hfile
  have hcollected := h.collected file data hdata
  have hparse := hparse data hcollected.lines
  unfold ParserState.update
  rw [hdata, Option.bind_some, hparse]
  cases hrecord : readRecord context file line with
  | none =>
    rw [Option.bind_none, Option.toList_none, List.map_nil, List.append_nil]
    exact ⟨h.files, h.current, h.collected⟩
  | some record =>
    have hwithin := readRecord_within hrecord
    rw [Option.bind_some, Option.toList_some, List.map_singleton]
    cases hadd : record.add data with
    | none =>
      exact h.append_record hdata (fun _ _ => rfl) (.inl rfl) (hcollected.skip hadd (hcollected.lines ▸ hwithin))
    | some data' =>
      exact h.append_record lookup_upsert_self (fun _ hother => lookup_upsert_of_ne hother) (.inl rfl)
        (hcollected.add hadd)

omit [DecidableEq InputFile] in
/-- Records with other line numbers are not accepted. -/
theorem bind_filter_add {data : FileData} (hlines : data.linesInFile = context.lines file)
    (read : Option Record) :
    read.bind (·.add data) = (read.filter fun
      | .source => true
      | .line number _ _ | .branch number _ _ => 1 ≤ number ∧ number ≤ context.lines file).bind (·.add data) := by
  cases read with
  | none => rfl
  | some record =>
    cases record with
    | source => rfl
    | line number count checksum =>
      by_cases hnumber : 1 ≤ number ∧ number ≤ context.lines file
      · simp [Option.filter, hnumber]
      · simp [Option.filter, Record.add, FileData.addLine, FileData.checkLine, hlines, hnumber]
    | branch number branch taken =>
      by_cases hnumber : 1 ≤ number ∧ number ≤ context.lines file
      · simp [Option.filter, hnumber]
      · simp [Option.filter, Record.add, FileData.addBranch, FileData.checkLine, hlines, hnumber]

theorem Inv.source {state : ParserState InputFile} (h : Inv context records state) (file : InputFile) :
    Inv context (records ++ [(file, .source)]) { state with
      files := upsert (·.getD ⟨context.lines file, [], []⟩) file state.files
      fileData := some file } := by
  refine h.append_record lookup_upsert_self (fun _ hother => lookup_upsert_of_ne hother) (.inr rfl) ?_
  cases hlookup : state.files.lookup file with
  | some data => exact (h.collected file data hlookup).append (fun _ => rfl) fun _ _ => rfl
  | none =>
    have hnew : ∀ record, (file, record) ∉ records := by
      intro record hmem
      obtain ⟨data, hdata⟩ := (h.files file).mpr ⟨record, hmem⟩
      rw [hlookup] at hdata
      cases hdata
    exact (collected_new file hnew).append (fun _ => rfl) fun _ _ => rfl

theorem Inv.parseLine {state : ParserState InputFile} (h : Inv context records state) (line : Text) :
    Inv context (records ++ scanLine context state.fileData line) (parseLine context state line) := by
  unfold Lcov.parseLine scanLine
  by_cases hsource : SF.isPrefixOf line = true
  · simp only [if_pos hsource]
    cases inputFileForSourceFile context (line.drop SF.length) with
    | none =>
      rw [Option.toList_none, List.map_nil, List.append_nil]
      exact ⟨h.files, fun _ hfile => absurd hfile (Option.not_mem_none _), h.collected⟩
    | some file => exact h.source file
  · simp only [if_neg hsource]
    cases hfile : state.fileData with
    | none => simpa using h
    | some file =>
      by_cases hda : DA.isPrefixOf line = true
      · simp only [if_pos hda]
        refine h.update hfile fun data hlines => ?_
        rw [parseLineCoverage_eq, bind_filter_add hlines, readRecord, if_pos hda]
      · by_cases hbrda : BRDA.isPrefixOf line = true
        · simp only [if_neg hda, if_pos hbrda]
          refine h.update hfile fun data hlines => ?_
          rw [parseBranchCoverage_eq, bind_filter_add hlines, readRecord, if_neg hda, if_pos hbrda]
        · simp only [if_neg hda, if_neg hbrda, readRecord]
          simpa using h

theorem fileData_update (state : ParserState InputFile) (file : InputFile)
    (parse : FileData → Option FileData) :
    (state.update file parse).fileData = state.fileData := by
  unfold ParserState.update
  split <;> rfl

theorem fileData_parseLine (state : ParserState InputFile) (line : Text) :
    (parseLine context state line).fileData = nextFile context state.fileData line := by
  unfold parseLine nextFile
  by_cases hsource : SF.isPrefixOf line = true
  · simp only [if_pos hsource]
    cases inputFileForSourceFile context (line.drop SF.length) <;> rfl
  · simp only [if_neg hsource]
    cases hfile : state.fileData with
    | none => exact hfile
    | some file =>
      by_cases hda : DA.isPrefixOf line = true
      · simp only [if_pos hda, fileData_update, hfile]
      · by_cases hbrda : BRDA.isPrefixOf line = true
        · simp only [if_neg hda, if_pos hbrda, fileData_update, hfile]
        · simp only [if_neg hda, if_neg hbrda, hfile]

theorem Inv.parse {state : ParserState InputFile} (h : Inv context records state) (lines : List Text) :
    Inv context (records ++ scan context state.fileData lines) (lines.foldl (Lcov.parseLine context) state) := by
  induction lines generalizing records state with
  | nil => simpa [scan] using h
  | cons line lines ih =>
    rw [List.foldl_cons, scan, ← List.append_assoc, ← fileData_parseLine]
    exact ih (h.parseLine line)

theorem inv_parse (lines : List Text) : Inv context (scan context none lines) (parse context lines) := by
  have hinitial : Inv context [] ParserState.initial :=
    ⟨fun file => by simp [ParserState.initial], nofun, nofun⟩
  exact hinitial.parse lines

end SonarJavascript.Lcov
