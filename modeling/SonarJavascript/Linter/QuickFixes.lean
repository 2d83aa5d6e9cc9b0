import Mathlib.Algebra.Ring.Int.Defs
import SonarJavascript.Embedded.Patch
import SonarJavascript.Linter.EncodedMessage

/-!
# Locations from the linter to the plugin

ESLint locates what it reports by its own lines, `convertMessage`, `normalizeLocation` and `fixToEdit` take these locations
over, and the plugin reads them back as ranges of its input file, whose lines end at CR LF, CR and LF only.

`newRange_iff`: a range comes back if and only if both ends of it are kept (`Kept`): no line of ESLint alone starts before,
and no line break is split.
-/

namespace SonarJavascript.Linter.QuickFixes

open Embedded CodeUnit
open EncodedMessage (JsString IssueLocation)

/-! ### The input file -/

/-- From the start of each line to its line break. -/
def linesFrom (start : ℕ) : List (ℕ × ℕ) → ℕ → List (ℕ × ℕ)
  | [], stop => [(start, stop)]
  | lineBreak :: rest, stop => (start, lineBreak.1) :: linesFrom lineBreak.2 rest stop

def lines (text : Text) : List (ℕ × ℕ) := linesFrom 0 (lineBreaks htmlBreak 0 text) text.length

/-- The offset of `InputFile.newPointer`, which throws for a position that is not in the file. -/
def newPointer (text : Text) (line lineOffset : ℤ) : Option ℕ :=
  if 1 ≤ line ∧ 0 ≤ lineOffset then
    match (lines text)[line.toNat - 1]? with
    | none => none
    | some (start, stop) => if start + lineOffset.toNat ≤ stop then some (start + lineOffset.toNat) else none
  else none

/-- `InputFile.newRange`, which throws when the end is not after the start. -/
def newRange (acceptEmptyRange : Bool) (text : Text) (line column endLine endColumn : ℤ) : Option (ℕ × ℕ) := do
  let start ← newPointer text line column
  let stop ← newPointer text endLine endColumn
  if start < stop ∨ (acceptEmptyRange = true ∧ start = stop) then some (start, stop) else none

def selectLine (text : Text) (line : ℤ) : Option (ℕ × ℕ) :=
  if 1 ≤ line then (lines text)[line.toNat - 1]? else none

/-! ### Quick fixes -/

structure Fix where
  range : ℕ × ℕ
  text : Text
  deriving DecidableEq

structure Suggestion where
  desc : String
  fix : Fix

/-- A message of ESLint. -/
structure LintMessage where
  ruleId : Option String
  line : ℤ
  column : ℤ
  endLine : Option ℤ
  endColumn : Option ℤ
  message : JsString
  fix : Option Fix
  suggestions : List Suggestion

structure QuickFixEdit where
  line : ℤ
  column : ℤ
  endLine : ℤ
  endColumn : ℤ
  text : Text

structure QuickFix where
  message : String
  edits : List QuickFixEdit

structure Issue (Num : Type) where
  ruleId : String
  line : ℤ
  column : ℤ
  endLine : Option ℤ
  endColumn : Option ℤ
  message : JsString
  cost : Option Num
  secondaryLocations : List (IssueLocation Num)
  quickFixes : List QuickFix

def quickFixRules : List String :=
  ["S1537", "S113", "S6637", "S6509", "S1116", "S4326", "S1131", "S6645", "S6644", "S3812", "S6650", "S3504", "S3498",
    "S3353", "S6653", "S6325", "S3512", "S1441", "S2427", "S1438", "S1186", "S108", "S6660", "S6679", "S3696", "S1763",
    "S1068", "S6676", "S6647", "S6661", "S6666", "S2688", "S3981", "S1940", "S3626", "S2757", "S1488", "S1126", "S1264",
    "S6754", "S6479", "S6747", "S6568", "S4023", "S4204", "S3257", "S2966", "S4157", "S4325", "S6569", "S6590", "S6598",
    "S4156", "S6606", "S2933", "S6565", "S6557", "S6572", "S4138", "S1528", "S3403", "S3415", "S2871", "S125", "S4621",
    "S6426", "S2990", "S4619", "S4043", "S1533", "S4781", "S1110", "S4623", "S3984", "S1172", "S1444", "S4634", "S4322",
    "S1534", "S5868", "S6759", "S6594", "S131", "S6535", "S1128", "S3863", "S6859", "S7060"]

def quickFixMessages : List (String × String) :=
  [("S1537", "Remove this trailing comma"), ("S113", "Add a new line at the end of file"),
    ("S6749", "Remove redundant fragment"), ("S6859", "Replace with a relative path"),
    ("S4023", "Replace with type alias"), ("S6637", "Remove .bind() call"), ("S6509", "Remove extra cast"),
    ("S1116", "Remove extra semicolon"), ("S3257", "Remove type declaration"), ("S6660", "Replace with 'else if'"),
    ("S2966", "Replace with optional chaining '.?'"), ("S1131", "Remove trailing space"),
    ("S6645", "Remove initialization"), ("S4157", "Remove type argument"), ("S4325", "Remove type assertion"),
    ("S6644", "Replace with a simpler expression"), ("S6650", "Remove alias"), ("S3504", "Replace 'var' with 'let'"),
    ("S3498", "Use shorthand property"), ("S6590", "Replace with 'as const'"), ("S3353", "Replace with 'const'"),
    ("S6598", "Replace with a function type"), ("S1488", "Return value immediately"),
    ("S4156", "Replace with 'namespace' keyword"), ("S6653", "Replace with Object.hasOwn()"),
    ("S6661", "Replace with object spread syntax"), ("S2933", "Add 'readonly'"),
    ("S6565", "Replace return type with 'this'"), ("S3512", "Replace with template string literal"),
    ("S1264", "Replace with 'while' loop"), ("S1441", "Fix quotes"), ("S2427", "Add 10 as radix"),
    ("S1438", "Add semicolon")]

/-- What is thrown. -/
inductive Thrown
  | missingMessage (ruleKey : String)
  | outOfRange
  /-- "Failed to parse encoded issue message for rule " + ruleId. -/
  | invalidEncoding (ruleId : String) (message : JsString)
  | syntaxError (message : JsString)
  /-- Nothing is thrown: an encoded message is not of the type that the source declares for it. -/
  | otherType (message : JsString)

def getQuickFixMessage (ruleKey : String) : Except Thrown String :=
  match quickFixMessages.lookup ruleKey with
  | some message => .ok message
  | none => if ruleKey = "S3863" then .ok "Remove this duplicate import" else .error (.missingMessage ruleKey)

/-- `ruleId.slice(8)` -/
def ruleKeyOf (ruleId : String) : String := String.ofList (ruleId.toList.drop 8)

def hasQuickFix (message : LintMessage) : Bool :=
  if message.fix.isNone && message.suggestions.isEmpty then false
  else message.ruleId.any fun ruleId => quickFixRules.contains (ruleKeyOf ruleId)

def getLocFromIndex (eslint : ESLint) (source : SourceText) (index : ℕ) : Except Thrown Location :=
  match eslint.getLocFromIndex source index with
  | none => .error .outOfRange
  | some loc => .ok loc

def fixToEdit (eslint : ESLint) (source : SourceText) (fix : Fix) : Except Thrown QuickFixEdit := do
  let startPos ← getLocFromIndex eslint source fix.range.1
  let endPos ← getLocFromIndex eslint source fix.range.2
  .ok ⟨startPos.line, startPos.column, endPos.line, endPos.column, fix.text⟩

def fixOf (eslint : ESLint) (source : SourceText) (ruleKey : String) : Option Fix → Except Thrown (List QuickFix)
  | none => .ok []
  | some fix => do
    let message ← getQuickFixMessage ruleKey
    let edit ← fixToEdit eslint source fix
    .ok [⟨message, [edit]⟩]

def suggestionsOf (eslint : ESLint) (source : SourceText) : List Suggestion → Except Thrown (List QuickFix)
  | [] => .ok []
  | suggestion :: suggestions => do
    let edit ← fixToEdit eslint source suggestion.fix
    let quickFixes ← suggestionsOf eslint source suggestions
    .ok (⟨suggestion.desc, [edit]⟩ :: quickFixes)

def transformFixes (eslint : ESLint) (source : SourceText) (message : LintMessage) : Except Thrown (List QuickFix) :=
  if !hasQuickFix message then .ok []
  else do
    let fix ← fixOf eslint source (ruleKeyOf (message.ruleId.getD "")) message.fix
    let suggestions ← suggestionsOf eslint source message.suggestions
    .ok (fix ++ suggestions)

/-! ### Issues -/

variable {Num : Type}

def convertMessage (eslint : ESLint) (source : SourceText) (message : LintMessage) :
    Except Thrown (Option (Issue Num)) :=
  match message.ruleId with
  | none => .ok none
  | some ruleId =>
    if "sonarjs/".toList <+: ruleId.toList then do
      let quickFixes ← transformFixes eslint source message
      .ok (some ⟨ruleKeyOf ruleId, message.line, message.column, message.endLine, message.endColumn, message.message,
        none, [], quickFixes⟩)
    else .ok none

/-- An end column that is 0 stays. -/
def normalizeLocation (issue : Issue Num) : Issue Num :=
  { issue with
    column := issue.column - 1
    endColumn := issue.endColumn.map fun endColumn => if endColumn ≠ 0 then endColumn - 1 else endColumn }

/-- Where `saveIssue` puts the issue; `none` stands for an exception, `some none` for the file. -/
def issueRange (acceptEmptyRange : Bool) (text : Text) (issue : Issue Num) : Option (Option (ℕ × ℕ)) :=
  match issue.endLine, issue.endColumn with
  | some endLine, some endColumn =>
    (newRange acceptEmptyRange text issue.line issue.column endLine endColumn).map some
  | some _, none => none
  | none, _ => if issue.line ≠ 0 then (selectLine text issue.line).map some else some none

/-- The range of a text edit that `addQuickFixes` makes. -/
def editRange (acceptEmptyRange : Bool) (text : Text) (edit : QuickFixEdit) : Option (ℕ × ℕ) :=
  newRange acceptEmptyRange text edit.line edit.column edit.endLine edit.endColumn

/-! ### Lines and line breaks -/

variable {text : Text} {p q : ℕ}

theorem lineBreaks_apart (isBreak : CodeUnit → Bool) (pos : ℕ) (text : Text) :
    (lineBreaks isBreak pos text).Pairwise (fun b b' => b.2 ≤ b'.1) ∧
      ∀ b ∈ lineBreaks isBreak pos text, pos ≤ b.1 ∧ b.1 < b.2 ∧ b.2 ≤ pos + text.length := by
  fun_induction lineBreaks isBreak pos text with
  | case1 pos => simp
  | case2 pos c h => simp
  | case3 pos c h => simp
  | case4 pos c d rest h ih =>
    refine ⟨List.pairwise_cons.mpr ⟨fun b hb => (ih.2 b hb).1, ih.1⟩, List.forall_mem_cons.mpr ⟨?_, fun b hb => ?_⟩⟩
    · simp
    · have := ih.2 b hb
      simp only [List.length_cons]
      omega
  | case5 pos c d rest h h' ih =>
    refine ⟨List.pairwise_cons.mpr ⟨fun b hb => (ih.2 b hb).1, ih.1⟩, List.forall_mem_cons.mpr ⟨?_, fun b hb => ?_⟩⟩
    · simp
    · have := ih.2 b hb
      simp only [List.length_cons] at this ⊢
      omega
  | case6 pos c d rest h h' ih =>
    refine ⟨ih.1, fun b hb => ?_⟩
    have := ih.2 b hb
    simp only [List.length_cons] at this ⊢
    omega

/-- What lies between these line breaks. -/
structure Apart (start stop : ℕ) (lineBreaks : List (ℕ × ℕ)) : Prop where
  sorted : lineBreaks.Pairwise fun b b' => b.2 ≤ b'.1
  bounds : ∀ b ∈ lineBreaks, start ≤ b.1 ∧ b.1 < b.2 ∧ b.2 ≤ stop
  le : start ≤ stop

theorem apart_lineBreaks (text : Text) : Apart 0 text.length (lineBreaks htmlBreak 0 text) where
  sorted := (lineBreaks_apart htmlBreak 0 text).1
  bounds b hb := by simpa using (lineBreaks_apart htmlBreak 0 text).2 b hb
  le := Nat.zero_le _

variable {start stop : ℕ} {lineBreak : ℕ × ℕ} {rest : List (ℕ × ℕ)}

theorem Apart.tail (h : Apart start stop (lineBreak :: rest)) : Apart lineBreak.2 stop rest where
  sorted := (List.pairwise_cons.mp h.sorted).2
  bounds b hb := ⟨(List.pairwise_cons.mp h.sorted).1 b hb, (h.bounds b (List.mem_cons_of_mem _ hb)).2⟩
  le := (h.bounds lineBreak List.mem_cons_self).2.2

theorem linesFrom_starts (start : ℕ) (lineBreaks : List (ℕ × ℕ)) (stop : ℕ) :
    (linesFrom start lineBreaks stop).map Prod.fst = start :: lineBreaks.map Prod.snd := by
  induction lineBreaks generalizing start with
  | nil => rfl
  | cons lineBreak rest ih => rw [linesFrom, List.map_cons, ih, List.map_cons]

theorem lines_starts (text : Text) : (lines text).map Prod.fst = lineStarts htmlBreak text := linesFrom_starts _ _ _

theorem Apart.linesFrom_bounds {lineBreaks : List (ℕ × ℕ)} (h : Apart start stop lineBreaks) :
    ∀ line ∈ linesFrom start lineBreaks stop, start ≤ line.1 ∧ line.1 ≤ line.2 ∧ line.2 ≤ stop := by
  induction lineBreaks generalizing start with
  | nil => simpa [linesFrom] using h.le
  | cons lineBreak rest ih =>
    have hbreak := h.bounds lineBreak List.mem_cons_self
    refine List.forall_mem_cons.mpr ⟨?_, fun line hline => ?_⟩
    · exact ⟨Nat.le_refl _, hbreak.1, by omega⟩
    · have := ih h.tail line hline
      omega

theorem Apart.linesFrom_sorted {lineBreaks : List (ℕ × ℕ)} (h : Apart start stop lineBreaks) :
    (linesFrom start lineBreaks stop).Pairwise fun line line' => line.2 < line'.1 := by
  induction lineBreaks generalizing start with
  | nil => exact List.pairwise_singleton _ _
  | cons lineBreak rest ih =>
    have hbreak := h.bounds lineBreak List.mem_cons_self
    refine List.pairwise_cons.mpr ⟨fun line hline => ?_, ih h.tail⟩
    have := h.tail.linesFrom_bounds line hline
    show lineBreak.1 < line.1
    omega

/-- Inside a line break: between CR and LF. -/
def InsideBreak (text : Text) (p : ℕ) : Prop := ∃ b ∈ lineBreaks htmlBreak 0 text, b.1 < p ∧ p < b.2

theorem Apart.exists_line {lineBreaks : List (ℕ × ℕ)} (h : Apart start stop lineBreaks) (hstart : start ≤ p)
    (hstop : p ≤ stop) (hinside : ¬ ∃ b ∈ lineBreaks, b.1 < p ∧ p < b.2) :
    ∃ line ∈ linesFrom start lineBreaks stop, line.1 ≤ p ∧ p ≤ line.2 := by
  induction lineBreaks generalizing start with
  | nil => exact ⟨(start, stop), List.mem_singleton_self _, hstart, hstop⟩
  | cons lineBreak rest ih =>
    by_cases hfirst : p ≤ lineBreak.1
    · exact ⟨(start, lineBreak.1), List.mem_cons_self, hstart, hfirst⟩
    · have hafter : lineBreak.2 ≤ p := by
        by_contra hlt
        exact hinside ⟨lineBreak, List.mem_cons_self, by omega, by omega⟩
      obtain ⟨line, hline, hp⟩ := ih h.tail hafter fun ⟨b, hb, hp⟩ => hinside ⟨b, List.mem_cons_of_mem _ hb, hp⟩
      exact ⟨line, List.mem_cons_of_mem _ hline, hp⟩

theorem Apart.not_inside {lineBreaks : List (ℕ × ℕ)} (h : Apart start stop lineBreaks) :
    ∀ line ∈ linesFrom start lineBreaks stop, ∀ b ∈ lineBreaks, line.2 ≤ b.1 ∨ b.2 ≤ line.1 := by
  induction lineBreaks generalizing start with
  | nil => exact fun _ _ b hb => absurd hb List.not_mem_nil
  | cons lineBreak rest ih =>
    have hbounds := h.tail.linesFrom_bounds
    intro line hline b hb
    rcases List.mem_cons.mp hline with rfl | hline <;> rcases List.mem_cons.mp hb with rfl | hb
    · exact .inl (Nat.le_refl _)
    · have := (h.tail.bounds b hb).1
      have := h.bounds lineBreak List.mem_cons_self
      exact .inl (show lineBreak.1 ≤ b.1 by omega)
    · exact .inr (hbounds line hline).1
    · exact ih h.tail line hline b hb

/-! ### Pointers -/

theorem locate_of_line {i : ℕ} (hline : (lines text)[i]? = some (start, stop)) (hstart : start ≤ p) (hstop : p ≤ stop) :
    locate (lineStarts htmlBreak text) p = ⟨i + 1, p - start⟩ := by
  have hapart := apart_lineBreaks text
  obtain ⟨hlt, hget⟩ := List.getElem?_eq_some_iff.mp hline
  have hsplit : lines text = (lines text).take i ++ (start, stop) :: (lines text).drop (i + 1) := by
    rw [← hget, List.getElem_cons_drop, List.take_append_drop]
  have hsorted : (lines text).Pairwise fun line line' => line.2 < line'.1 := hapart.linesFrom_sorted
  have hbounds : ∀ line ∈ lines text, 0 ≤ line.1 ∧ line.1 ≤ line.2 ∧ line.2 ≤ text.length := hapart.linesFrom_bounds
  rw [hsplit] at hsorted
  obtain ⟨-, hafter, hbefore⟩ := List.pairwise_append.mp hsorted
  have htake : (((lines text).take i).map Prod.fst).filter (· ≤ p) = ((lines text).take i).map Prod.fst := by
    refine List.filter_eq_self.mpr fun s hs => ?_
    obtain ⟨line, hmem, rfl⟩ := List.mem_map.mp hs
    have hend : line.2 < start := hbefore line hmem (start, stop) List.mem_cons_self
    have := hbounds line (List.mem_of_mem_take hmem)
    rw [decide_eq_true_eq]
    omega
  have hdrop : (((lines text).drop (i + 1)).map Prod.fst).filter (· ≤ p) = [] := by
    refine List.filter_eq_nil_iff.mpr fun s hs => ?_
    obtain ⟨line, hmem, rfl⟩ := List.mem_map.mp hs
    have hend : stop < line.1 := (List.pairwise_cons.mp hafter).1 line hmem
    rw [decide_eq_true_eq]
    omega
  have hfilter : (lineStarts htmlBreak text).filter (· ≤ p) = ((lines text).take i).map Prod.fst ++ [start] := by
    rw [← lines_starts, hsplit, List.map_append, List.map_cons, List.filter_append, List.filter_cons, if_pos (by simpa),
      ← hsplit, htake, hdrop]
  rw [locate, hfilter]
  simp [Nat.min_eq_left hlt.le]

theorem newPointer_eq_some {line : ℤ} {lineOffset : ℤ} (h : newPointer text line lineOffset = some p) :
    ∃ l c : ℕ, line = l ∧ lineOffset = c ∧ locate (lineStarts htmlBreak text) p = ⟨l, c⟩ ∧ ¬ InsideBreak text p := by
  rw [newPointer] at h
  split_ifs at h with hpos
  cases hline : (lines text)[line.toNat - 1]? with
  | none => simp [hline] at h
  | some bounds =>
    obtain ⟨start, stop⟩ := bounds
    simp only [hline] at h
    split_ifs at h with hle
    obtain rfl := Option.some.inj h
    refine ⟨line.toNat, lineOffset.toNat, by omega, by omega, ?_, ?_⟩
    · rw [locate_of_line hline (by omega) hle, Nat.add_sub_cancel_left, Location.mk.injEq]
      omega
    · rintro ⟨b, hb, hlt, hgt⟩
      have hmem : (start, stop) ∈ lines text := List.mem_of_getElem? hline
      have := (apart_lineBreaks text).not_inside _ hmem b hb
      omega

theorem newPointer_locate (hp : p ≤ text.length) (hinside : ¬ InsideBreak text p) :
    newPointer text (locate (lineStarts htmlBreak text) p).line (locate (lineStarts htmlBreak text) p).column = some p := by
  obtain ⟨⟨start, stop⟩, hmem, hstart, hstop⟩ := (apart_lineBreaks text).exists_line (Nat.zero_le p) hp hinside
  obtain ⟨i, hline⟩ := List.mem_iff_getElem?.mp hmem
  rw [locate_of_line hline hstart hstop, newPointer, if_pos (by dsimp only; omega)]
  have hindex : ((i + 1 : ℕ) : ℤ).toNat - 1 = i := by simp
  simp only [hindex]
  have hline' : (lines text)[i]? = some (start, stop) := hline
  rw [hline']
  simp only [Int.toNat_natCast]
  rw [if_pos (by omega)]
  congr 1
  omega

/-! ### Both ends -/

/-- ESLint and the file have the same lines up to the offset, and it is not inside a line break. -/
def Kept (text : Text) (p : ℕ) : Prop :=
  (∀ s ≤ p, IsLineStart eslintBreak text s → IsLineStart htmlBreak text s) ∧ ¬ InsideBreak text p

variable {eslint : ESLint}

/-- Where ESLint locates the offset. -/
def eslintLoc (text : Text) (p : ℕ) : Location := locate (lineStarts eslintBreak text) p

theorem newPointer_iff (hp : p ≤ text.length) :
    newPointer text (eslintLoc text p).line (eslintLoc text p).column = some p ↔ Kept text p := by
  have htables := @locate_eq_iff_isLineStart .html text p
  constructor
  · intro h
    obtain ⟨l, c, hline, hcolumn, hlocate, hinside⟩ := newPointer_eq_some h
    refine ⟨htables.mp (hlocate.trans ?_), hinside⟩
    show _ = eslintLoc text p
    rw [← Int.natCast_inj.mp hline, ← Int.natCast_inj.mp hcolumn]
  · rintro ⟨hlines, hinside⟩
    have hsame : locate (lineStarts htmlBreak text) p = eslintLoc text p := htables.mpr hlines
    rw [← hsame]
    exact newPointer_locate hp hinside

theorem newRange_iff (acceptEmptyRange : Bool) (hle : p ≤ q) (hq : q ≤ text.length) :
    newRange acceptEmptyRange text (eslintLoc text p).line (eslintLoc text p).column (eslintLoc text q).line
        (eslintLoc text q).column = some (p, q) ↔
      Kept text p ∧ Kept text q ∧ (p < q ∨ acceptEmptyRange = true) := by
  rw [← newPointer_iff (hle.trans hq), ← newPointer_iff hq]
  simp only [newRange, Option.bind_eq_bind, Option.bind_eq_some_iff]
  constructor
  · rintro ⟨start, hstart, stop, hstop, h⟩
    split_ifs at h with hempty
    obtain ⟨rfl, rfl⟩ := Prod.mk.inj (Option.some.inj h)
    exact ⟨hstart, hstop, hempty.imp_right And.left⟩
  · rintro ⟨hstart, hstop, hempty⟩
    refine ⟨p, hstart, q, hstop, if_pos ?_⟩
    rcases Nat.lt_or_eq_of_le hle with hlt | heq
    · exact .inl hlt
    · exact hempty.imp_right fun haccept => ⟨haccept, heq⟩

/-! ### Messages -/

theorem getLocFromIndex_eq (doc : eslint.Documented) (hBOM : text.head? ≠ some BOM) (hp : p ≤ text.length) :
    getLocFromIndex eslint (eslint.sourceText text) p = .ok (eslintLoc text p) := by
  have hstrip : stripBOM text = text := if_neg hBOM
  rw [getLocFromIndex, getLocFromIndex_rebuilt doc (by rwa [hstrip]), hstrip]
  rfl

/-- How ESLint reports a range for a rule of the plugin: columns count from 1. -/
structure Reports (text : Text) (message : LintMessage) (ruleKey : String) (range : ℕ × ℕ) : Prop where
  ruleId : message.ruleId = some ("sonarjs/" ++ ruleKey)
  line : message.line = (eslintLoc text range.1).line
  column : message.column = (eslintLoc text range.1).column + 1
  endLine : message.endLine = some ((eslintLoc text range.2).line : ℤ)
  endColumn : message.endColumn = some ((eslintLoc text range.2).column + 1 : ℤ)

def InText (text : Text) (range : ℕ × ℕ) : Prop := range.1 ≤ range.2 ∧ range.2 ≤ text.length

/-- Fix and suggestions, with their messages. -/
def proposals (message : LintMessage) (ruleKey : String) : List (String × Fix) :=
  if ruleKey ∈ quickFixRules then
    (message.fix.toList.map fun fix => ((quickFixMessages.lookup ruleKey).getD "Remove this duplicate import", fix)) ++
      message.suggestions.map fun suggestion => (suggestion.desc, suggestion.fix)
  else []

/-- The edit that ESLint's range becomes. -/
def editOf (text : Text) (fix : Fix) : QuickFixEdit :=
  ⟨(eslintLoc text fix.range.1).line, (eslintLoc text fix.range.1).column, (eslintLoc text fix.range.2).line,
    (eslintLoc text fix.range.2).column, fix.text⟩

def quickFixOf (text : Text) (proposal : String × Fix) : QuickFix := ⟨proposal.1, [editOf text proposal.2]⟩

theorem fixToEdit_eq (doc : eslint.Documented) (hBOM : text.head? ≠ some BOM) {fix : Fix} (h : InText text fix.range) :
    fixToEdit eslint (eslint.sourceText text) fix = .ok (editOf text fix) := by
  rw [fixToEdit, getLocFromIndex_eq doc hBOM (h.1.trans h.2), getLocFromIndex_eq doc hBOM h.2]
  rfl

theorem suggestionsOf_eq (doc : eslint.Documented) (hBOM : text.head? ≠ some BOM) {suggestions : List Suggestion}
    (h : ∀ suggestion ∈ suggestions, InText text suggestion.fix.range) :
    suggestionsOf eslint (eslint.sourceText text) suggestions =
      .ok (suggestions.map fun suggestion => quickFixOf text (suggestion.desc, suggestion.fix)) := by
  induction suggestions with
  | nil => rfl
  | cons suggestion suggestions ih =>
    obtain ⟨hfirst, hrest⟩ := List.forall_mem_cons.mp h
    rw [suggestionsOf, fixToEdit_eq doc hBOM hfirst, ih hrest]
    rfl

theorem getQuickFixMessage_eq {ruleKey : String} (h : (quickFixMessages.lookup ruleKey).isSome = true ∨ ruleKey = "S3863") :
    getQuickFixMessage ruleKey = .ok ((quickFixMessages.lookup ruleKey).getD "Remove this duplicate import") := by
  rw [getQuickFixMessage]
  cases hlookup : quickFixMessages.lookup ruleKey with
  | some message => rfl
  | none =>
    rw [hlookup] at h
    rw [if_pos (h.resolve_left (by simp))]
    rfl

theorem ruleKeyOf_append (ruleKey : String) : ruleKeyOf ("sonarjs/" ++ ruleKey) = ruleKey := by
  rw [ruleKeyOf, String.toList_append]
  show String.ofList (List.drop 8 ("sonarjs/".toList ++ ruleKey.toList)) = ruleKey
  rw [List.drop_left' (by decide), String.ofList_toList]

/-- A fix of a rule with quick fixes needs a message, a suggestion has one. -/
def HasMessage (message : LintMessage) (ruleKey : String) : Prop :=
  message.fix.isSome = true → ruleKey ∈ quickFixRules →
    (quickFixMessages.lookup ruleKey).isSome = true ∨ ruleKey = "S3863"

theorem transformFixes_eq (doc : eslint.Documented) (hBOM : text.head? ≠ some BOM) {message : LintMessage}
    {ruleKey : String} (hruleId : message.ruleId = some ("sonarjs/" ++ ruleKey)) (hmessage : HasMessage message ruleKey)
    (hfixes : ∀ proposal ∈ proposals message ruleKey, InText text proposal.2.range) :
    transformFixes eslint (eslint.sourceText text) message =
      .ok ((proposals message ruleKey).map (quickFixOf text)) := by
  rw [transformFixes, hasQuickFix, hruleId]
  simp only [Option.any_some, Option.getD_some, ruleKeyOf_append]
  by_cases hrule : ruleKey ∈ quickFixRules
  · rw [proposals, if_pos hrule] at hfixes ⊢
    have hsuggestions := @suggestionsOf_eq _ _ doc hBOM message.suggestions fun suggestion hmem =>
      hfixes (suggestion.desc, suggestion.fix) (List.mem_append_right _ (List.mem_map.mpr ⟨suggestion, hmem, rfl⟩))
    have hcontains : quickFixRules.contains ruleKey = true := List.contains_iff_mem.mpr hrule
    rw [hcontains]
    cases hfix : message.fix with
    | none =>
      cases hnone : message.suggestions with
      | nil => rfl
      | cons suggestion suggestions =>
        rw [← hnone, hsuggestions]
        simp [hnone, fixOf, Bind.bind, Except.bind]
    | some fix =>
      have hin := hfixes ((quickFixMessages.lookup ruleKey).getD "Remove this duplicate import", fix)
        (List.mem_append_left _ (by rw [hfix]; exact List.mem_singleton_self _))
      rw [fixOf, getQuickFixMessage_eq (hmessage (by rw [hfix]; rfl) hrule), fixToEdit_eq doc hBOM hin, hsuggestions]
      simp [Bind.bind, Except.bind, quickFixOf]
  · have hcontains : quickFixRules.contains ruleKey = false := by
      rw [Bool.eq_false_iff]
      exact fun h => hrule (List.contains_iff_mem.mp h)
    rw [hcontains, proposals, if_neg hrule]
    simp

theorem convertMessage_eq (doc : eslint.Documented) (hBOM : text.head? ≠ some BOM) {message : LintMessage}
    {ruleKey : String} (hruleId : message.ruleId = some ("sonarjs/" ++ ruleKey)) (hmessage : HasMessage message ruleKey)
    (hfixes : ∀ proposal ∈ proposals message ruleKey, InText text proposal.2.range) :
    convertMessage eslint (eslint.sourceText text) message =
      .ok (some (⟨ruleKey, message.line, message.column, message.endLine, message.endColumn, message.message, none, [],
        (proposals message ruleKey).map (quickFixOf text)⟩ : Issue Num)) := by
  have hprefix : "sonarjs/".toList <+: ("sonarjs/" ++ ruleKey).toList := by
    rw [String.toList_append]
    exact List.prefix_append _ _
  rw [convertMessage, hruleId]
  simp only
  rw [if_pos hprefix, transformFixes_eq doc hBOM hruleId hmessage hfixes, ruleKeyOf_append]
  rfl

/-- Both ends are kept, and the range may be had. -/
def Survives (acceptEmptyRange : Bool) (text : Text) (range : ℕ × ℕ) : Prop :=
  Kept text range.1 ∧ Kept text range.2 ∧ (range.1 < range.2 ∨ acceptEmptyRange = true)

theorem editRange_iff (acceptEmptyRange : Bool) {fix : Fix} (h : InText text fix.range) :
    editRange acceptEmptyRange text (editOf text fix) = some fix.range ↔ Survives acceptEmptyRange text fix.range :=
  newRange_iff acceptEmptyRange h.1 h.2

/-- The columns of an issue count from 1 until they are normalized. -/
theorem issueRange_iff (acceptEmptyRange : Bool) {message : LintMessage} {ruleKey : String} {range : ℕ × ℕ}
    (hreports : Reports text message ruleKey range) (hrange : InText text range) {issue : Issue Num}
    (hline : issue.line = message.line) (hcolumn : issue.column = message.column)
    (hendLine : issue.endLine = message.endLine) (hendColumn : issue.endColumn = message.endColumn) :
    issueRange acceptEmptyRange text (normalizeLocation issue) = some (some range) ↔
      Survives acceptEmptyRange text range := by
  simp only [issueRange, normalizeLocation, hline, hcolumn, hendLine, hendColumn, hreports.line, hreports.column,
    hreports.endLine, hreports.endColumn, Option.map_some]
  have hpositive : ((eslintLoc text range.2).column + 1 : ℤ) ≠ 0 := by omega
  rw [if_pos hpositive, Int.add_sub_cancel, Int.add_sub_cancel, Option.map_eq_some_iff]
  simp only [Option.some.injEq, exists_eq_right]
  exact newRange_iff acceptEmptyRange hrange.1 hrange.2

end SonarJavascript.Linter.QuickFixes
