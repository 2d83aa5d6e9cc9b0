import Mathlib.Data.BitVec
import SonarJavascript.Lib.SumMap

/-!
# Reading LCOV reports

All reports are parsed as one list of lines, with a current file that each `SF` line changes; `DA` and `BRDA`
lines add to the counts of its lines and branches, in 32 bits. What cannot be read is counted and skipped.

`Inv.parse`: the counts that have been collected are the sums over the records that are accepted.
-/

namespace SonarJavascript.Lcov

open SumMap

abbrev Text := List Char

/-- The project: the files that a path can name, with the numbers of their lines; which of them are analyzed;
and the digits of Java, which are those of all scripts. -/
structure Context (InputFile : Type) where
  inputFile : Text → Option InputFile
  getInputFile : Text → Option InputFile
  lines : InputFile → ℤ
  isMain : InputFile → Bool
  digit : Char → Option ℕ
  digit_comma : digit ',' = none

variable {InputFile : Type} (context : Context InputFile)

/-! ### Java -/

def digits (text : Text) : Option ℕ :=
  text.foldlM (fun number c => (context.digit c).map (10 * number + ·)) 0

/-- The number that a text is, with its sign. -/
def integer : Text → Option ℤ
  | [] => none
  | c :: text =>
    if c = '-' then if text = [] then none else (digits context text).map fun number : ℕ => -(number : ℤ)
    else if c = '+' then if text = [] then none else (digits context text).map fun number : ℕ => (number : ℤ)
    else (digits context (c :: text)).map fun number : ℕ => (number : ℤ)

/-- A number of 32 bits. -/
def Fits (number : ℤ) : Prop := -2 ^ 31 ≤ number ∧ number < 2 ^ 31

instance (number : ℤ) : Decidable (Fits number) := by
  unfold Fits
  infer_instance

/-- `Integer.valueOf`, which has no value when it throws. -/
def valueOf (text : Text) : Option ℤ := (integer context text).filter (Fits ·)

def trim (text : Text) : Text := ((text.dropWhile (· ≤ ' ')).reverse.dropWhile (· ≤ ' ')).reverse

/-- The texts between the commas. -/
def fields : Text → List Text
  | [] => [[]]
  | c :: text =>
    if c = ',' then [] :: fields text
    else
      match fields text with
      | [] => [[c]]
      | field :: rest => (c :: field) :: rest

/-- `split(",")`, which leaves out empty texts at the end. -/
def split (text : Text) : List Text :=
  if ',' ∈ text then ((fields text).reverse.dropWhile (· = [])).reverse else [text]

/-! ### The data of a file -/

structure FileData where
  linesInFile : ℤ
  hits : List (ℤ × BitVec 32)
  branches : List (ℤ × List (Text × BitVec 32))

namespace FileData

def checkLine (data : FileData) (lineNumber : ℤ) : Prop := 1 ≤ lineNumber ∧ lineNumber ≤ data.linesInFile

instance (data : FileData) (lineNumber : ℤ) : Decidable (data.checkLine lineNumber) := by
  unfold checkLine
  infer_instance

/-- Nothing is added when the check throws. -/
def addLine (lineNumber executionCount : ℤ) (data : FileData) : Option FileData :=
  if data.checkLine lineNumber then
    some { data with hits := merge lineNumber (BitVec.ofInt 32 executionCount) data.hits }
  else none

def addBranch (lineNumber : ℤ) (branchNumber : Text) (taken : ℤ) (data : FileData) : Option FileData :=
  if data.checkLine lineNumber then
    let add (branchesForLine : Option (List (Text × BitVec 32))) :=
      merge branchNumber (BitVec.ofInt 32 taken) (branchesForLine.getD [])
    some { data with branches := upsert add lineNumber data.branches }
  else none

end FileData

def SF : Text := ['S', 'F', ':']
def DA : Text := ['D', 'A', ':']
def BRDA : Text := ['B', 'R', 'D', 'A', ':']

/-- The count of a branch, which is a dash when its line has not been executed. -/
def takenCount (read : Text → Option ℤ) (taken : Text) : Option ℤ :=
  if taken = ['-'] then some 0 else read taken

/-- `BRDA:<line number>,<block number>,<branch number>,<taken>`. -/
def parseBranchCoverage (line : Text) (fileData : FileData) : Option FileData :=
  match split (trim (line.drop BRDA.length)) with
  | lineNumber :: blockNumber :: branchNumber :: taken :: _ => do
    let number ← valueOf context lineNumber
    let count ← takenCount (valueOf context) taken
    fileData.addBranch number (blockNumber ++ branchNumber) count
  | _ => none

/-- `DA:<line number>,<execution count>[,<checksum>]`. -/
def parseLineCoverage (line : Text) (fileData : FileData) : Option FileData :=
  let execution := line.drop DA.length
  match execution.dropWhile (· ≠ ',') with
  | _ :: executionCount => do
    let number ← valueOf context (execution.takeWhile (· ≠ ','))
    let count ← valueOf context executionCount
    fileData.addLine number count
  | [] => none

/-! ### The parser -/

/-- `fileData` is the file of the current data. -/
structure ParserState (InputFile : Type) where
  files : List (InputFile × FileData)
  fileData : Option InputFile
  unresolvedPaths : List Text
  inconsistenciesCounter : ℕ

def ParserState.initial : ParserState InputFile := ⟨[], none, [], 0⟩

def inputFileForSourceFile (filePath : Text) : Option InputFile :=
  (context.inputFile filePath).or (context.getInputFile filePath)

variable [DecidableEq InputFile]

/-- The data changes, or the line is skipped. -/
def ParserState.update (state : ParserState InputFile) (file : InputFile) (parse : FileData → Option FileData) :
    ParserState InputFile :=
  match (state.files.lookup file).bind parse with
  | some data => { state with files := upsert (fun _ => data) file state.files }
  | none => { state with inconsistenciesCounter := state.inconsistenciesCounter + 1 }

def parseLine (state : ParserState InputFile) (line : Text) : ParserState InputFile :=
  if SF.isPrefixOf line then
    match inputFileForSourceFile context (line.drop SF.length) with
    | some file => { state with
        files := upsert (·.getD ⟨context.lines file, [], []⟩) file state.files
        fileData := some file }
    | none => { state with
        fileData := none
        unresolvedPaths := if line.drop SF.length ∈ state.unresolvedPaths then state.unresolvedPaths
          else state.unresolvedPaths ++ [line.drop SF.length] }
  else
    match state.fileData with
    | some file =>
      if DA.isPrefixOf line then state.update file (parseLineCoverage context line)
      else if BRDA.isPrefixOf line then state.update file (parseBranchCoverage context line)
      else state
    | none => state

def parse (lines : List Text) : ParserState InputFile := lines.foldl (parseLine context) .initial

/-! ### What is saved -/

/-- The coverage of a file as the platform keeps it: of two values for one line the first one counts. -/
structure CoverageStore (NewCoverage : Type) where
  newCoverage : NewCoverage
  lineHits : ℤ → ℤ → NewCoverage → NewCoverage
  conditions : ℤ → ℕ → ℕ → NewCoverage → NewCoverage
  hitsOf : NewCoverage → ℤ → Option ℤ
  conditionsOf : NewCoverage → ℤ → Option (ℕ × ℕ)
  hitsOf_newCoverage : ∀ line, hitsOf newCoverage line = none
  conditionsOf_newCoverage : ∀ line, conditionsOf newCoverage line = none
  hitsOf_lineHits : ∀ line hits coverage other, hitsOf (lineHits line hits coverage) other =
    if other = line then (hitsOf coverage line).or (some hits) else hitsOf coverage other
  conditionsOf_lineHits : ∀ line hits coverage, conditionsOf (lineHits line hits coverage) = conditionsOf coverage
  hitsOf_conditions : ∀ line conditions' covered coverage,
    hitsOf (conditions line conditions' covered coverage) = hitsOf coverage
  conditionsOf_conditions : ∀ line conditions' covered coverage other,
    conditionsOf (conditions line conditions' covered coverage) other =
      if other = line then (conditionsOf coverage line).or (some (conditions', covered))
      else conditionsOf coverage other

variable {NewCoverage : Type} (store : CoverageStore NewCoverage)

def covered (branchesForLine : List (Text × BitVec 32)) : ℕ :=
  (branchesForLine.filter fun branch => 0 < branch.2.toInt).length

def FileData.saveBranches (data : FileData) (coverage : NewCoverage) : ℤ × List (Text × BitVec 32) → NewCoverage
  | (line, branchesForLine) =>
    store.lineHits line (((data.hits.lookup line).getD 0).toInt + covered branchesForLine)
      (store.conditions line branchesForLine.length (covered branchesForLine) coverage)

def FileData.save (data : FileData) : NewCoverage :=
  data.branches.foldl (data.saveBranches store)
    (data.hits.foldl (fun coverage entry => store.lineHits entry.1 entry.2.toInt coverage) store.newCoverage)

/-- The coverage that is saved for a file, from all the reports. -/
def saveCoverage (reports : List (List Text)) (file : InputFile) : Option NewCoverage :=
  if context.isMain file then ((parse context reports.flatten).files.lookup file).map (·.save store) else none

end SonarJavascript.Lcov
