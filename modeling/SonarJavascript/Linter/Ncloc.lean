import Mathlib.Data.List.Sort
import SonarJavascript.Embedded.LineTable

/-!
# Lines of code

`findNcloc` adds all lines that a token extends over. Each line with a character of code is among them, and the lines are
sorted and without duplicates. There are no other lines (`ncloc_eq_iff`) unless a token extends over a line without such a
character: a blank line in a template or in a JSX text.
-/

namespace SonarJavascript.Linter.Ncloc

open Embedded CodeUnit

/-! ### The metric -/

structure Token where
  type : String
  value : String
  startLine : ℕ
  endLine : ℕ

/-- Lines are kept in the order of their insertion. -/
def addLines (startLine endLine : ℕ) (lines : List ℕ) : List ℕ :=
  (List.range' startLine (endLine + 1 - startLine)).foldl
    (fun lines line => if line ∈ lines then lines else lines ++ [line]) lines

structure TemplateState where
  tokens : List Token := []
  withinStyle : Bool := false
  withinComment : Bool := false

def extractVuejsToken (state : TemplateState) (token : Token) : TemplateState :=
  let withinStyle :=
    if token.type = "HTMLTagOpen" ∧ token.value = "style" then true
    else if token.type = "HTMLEndTagOpen" ∧ token.value = "style" then false
    else state.withinStyle
  let state := { state with withinStyle }
  if token.type = "HTMLWhitespace" then state
  else if token.type = "HTMLRawText" ∧ withinStyle = false then state
  else if withinStyle = true ∧ state.withinComment = false ∧ token.value = "/*" then { state with withinComment := true }
  else if withinStyle = true ∧ state.withinComment = true then { state with withinComment := token.value ≠ "*/" }
  else { state with tokens := state.tokens ++ [token] }

def extractVuejsTokens (templateBody : List Token) : List Token := (templateBody.foldl extractVuejsToken {}).tokens

/-- With the tokens of the template, if there is one. -/
def findNcloc (astTokens : List Token) (templateBody : Option (List Token)) : List ℕ :=
  let tokens := astTokens ++ (templateBody.map extractVuejsTokens).getD []
  let lines := tokens.foldl (fun lines token => addLines token.startLine token.endLine lines) []
  lines.insertionSort (· ≤ ·)

/-! ### Sources -/

/-- From one offset to another. -/
structure Span where
  type : String
  value : String
  start : ℕ
  stop : ℕ

def Span.Contains (span : Span) (i : ℕ) : Prop := span.start ≤ i ∧ i < span.stop

/-- A source with its tokens and comments, as the parser gives them. -/
structure Source where
  text : Text
  tokens : List Span
  comments : List Span
  disjoint : ∀ token ∈ tokens, ∀ comment ∈ comments, ∀ i, token.Contains i → ¬ comment.Contains i
  covered : ∀ i c, text[i]? = some c → isWhiteSpace c = false →
    (∃ token ∈ tokens, token.Contains i) ∨ ∃ comment ∈ comments, comment.Contains i

namespace Source

variable (source : Source)

def lineOf (i : ℕ) : ℕ := (locate (lineStarts eslintBreak source.text) i).line

def tokenOf (span : Span) : Token := ⟨span.type, span.value, source.lineOf span.start, source.lineOf span.stop⟩

def ncloc : List ℕ := findNcloc (source.tokens.map source.tokenOf) none

/-- A line with a character that is neither white space nor part of a comment. -/
def IsCodeLine (line : ℕ) : Prop :=
  ∃ i c, source.text[i]? = some c ∧ isWhiteSpace c = false ∧ (∀ comment ∈ source.comments, ¬ comment.Contains i) ∧
    source.lineOf i = line

/-- Each line that a token extends over has a character of a token that is no white space. -/
def TokensVisible : Prop :=
  ∀ token ∈ source.tokens, ∀ line, source.lineOf token.start ≤ line → line ≤ source.lineOf token.stop →
    ∃ other ∈ source.tokens, ∃ i c, other.Contains i ∧ source.text[i]? = some c ∧ isWhiteSpace c = false ∧
      source.lineOf i = line

end Source

/-! ### Lines of tokens -/

section Lines

variable {startLine endLine line : ℕ} {lines numbers : List ℕ} {tokens : List Token}

theorem mem_insertLines : line ∈ numbers.foldl (fun lines line => if line ∈ lines then lines else lines ++ [line]) lines ↔
    line ∈ lines ∨ line ∈ numbers := by
  induction numbers generalizing lines with
  | nil => simp
  | cons number numbers ih =>
    rw [List.foldl_cons, ih, List.mem_cons]
    split_ifs with hmem
    · constructor
      · exact fun h => h.imp_right Or.inr
      · rintro (h | rfl | h)
        · exact Or.inl h
        · exact Or.inl hmem
        · exact Or.inr h
    · rw [List.mem_append, List.mem_singleton, or_assoc]

theorem nodup_insertLines (h : lines.Nodup) :
    (numbers.foldl (fun lines line => if line ∈ lines then lines else lines ++ [line]) lines).Nodup := by
  induction numbers generalizing lines with
  | nil => exact h
  | cons number numbers ih =>
    rw [List.foldl_cons]
    split_ifs with hmem
    · exact ih h
    · refine ih (List.Nodup.append h (List.nodup_singleton number) ?_)
      rw [List.disjoint_singleton]
      exact hmem

theorem mem_addLines : line ∈ addLines startLine endLine lines ↔
    line ∈ lines ∨ (startLine ≤ line ∧ line ≤ endLine) := by
  rw [addLines, mem_insertLines, List.mem_range'_1]
  refine or_congr_right ?_
  omega

theorem mem_foldl_addLines :
    line ∈ tokens.foldl (fun lines token => addLines token.startLine token.endLine lines) lines ↔
      line ∈ lines ∨ ∃ token ∈ tokens, token.startLine ≤ line ∧ line ≤ token.endLine := by
  induction tokens generalizing lines with
  | nil => simp
  | cons token tokens ih => rw [List.foldl_cons, ih, mem_addLines, or_assoc, List.exists_mem_cons_iff]

theorem nodup_foldl_addLines (h : lines.Nodup) :
    (tokens.foldl (fun lines token => addLines token.startLine token.endLine lines) lines).Nodup := by
  induction tokens generalizing lines with
  | nil => exact h
  | cons token tokens ih => exact ih (nodup_insertLines h)

theorem mem_findNcloc : line ∈ findNcloc tokens none ↔
    ∃ token ∈ tokens, token.startLine ≤ line ∧ line ≤ token.endLine := by
  rw [findNcloc, List.mem_insertionSort, mem_foldl_addLines, Option.map_none, Option.getD_none, List.append_nil]
  exact or_iff_right List.not_mem_nil

theorem sorted_findNcloc (templateBody : Option (List Token)) : (findNcloc tokens templateBody).Pairwise (· < ·) := by
  rw [findNcloc]
  have hsorted := List.pairwise_insertionSort (· ≤ ·) ((tokens ++ (templateBody.map extractVuejsTokens).getD []).foldl
    (fun lines token => addLines token.startLine token.endLine lines) [])
  have hnodup := (List.perm_insertionSort (· ≤ ·) ((tokens ++ (templateBody.map extractVuejsTokens).getD []).foldl
    (fun lines token => addLines token.startLine token.endLine lines) [])).nodup_iff.mpr (nodup_foldl_addLines List.nodup_nil)
  exact (hsorted.and hnodup).imp fun h => Nat.lt_of_le_of_ne h.1 h.2

end Lines

namespace Source

variable {source : Source} {i j line : ℕ}

theorem lineOf_mono (h : i ≤ j) : source.lineOf i ≤ source.lineOf j := by
  refine (List.monotone_filter_right _ fun start hstart => ?_).length_le
  rw [decide_eq_true_iff] at hstart ⊢
  exact hstart.trans h

theorem mem_ncloc : line ∈ source.ncloc ↔
    ∃ token ∈ source.tokens, source.lineOf token.start ≤ line ∧ line ≤ source.lineOf token.stop := by
  rw [ncloc, mem_findNcloc]
  constructor
  · rintro ⟨_, hmem, hline⟩
    obtain ⟨token, htoken, rfl⟩ := List.mem_map.mp hmem
    exact ⟨token, htoken, hline⟩
  · rintro ⟨token, htoken, hline⟩
    exact ⟨_, List.mem_map_of_mem htoken, hline⟩

theorem isCodeLine_iff : source.IsCodeLine line ↔ ∃ token ∈ source.tokens, ∃ i c, token.Contains i ∧
    source.text[i]? = some c ∧ isWhiteSpace c = false ∧ source.lineOf i = line := by
  constructor
  · rintro ⟨i, c, hget, hwhite, hcomments, hline⟩
    rcases source.covered i c hget hwhite with ⟨token, hmem, hcontains⟩ | ⟨comment, hmem, hcontains⟩
    · exact ⟨token, hmem, i, c, hcontains, hget, hwhite, hline⟩
    · exact absurd hcontains (hcomments comment hmem)
  · rintro ⟨token, hmem, i, c, hcontains, hget, hwhite, hline⟩
    exact ⟨i, c, hget, hwhite, fun comment hcomment => source.disjoint token hmem comment hcomment i hcontains, hline⟩

theorem mem_ncloc_of_isCodeLine (h : source.IsCodeLine line) : line ∈ source.ncloc := by
  obtain ⟨token, hmem, i, c, ⟨hstart, hstop⟩, -, -, rfl⟩ := isCodeLine_iff.mp h
  exact mem_ncloc.mpr ⟨token, hmem, lineOf_mono hstart, lineOf_mono hstop.le⟩

end Source

/-- The lines are the lines of code. -/
theorem ncloc_eq_iff (source : Source) :
    (source.ncloc.Pairwise (· < ·) ∧ ∀ line, line ∈ source.ncloc ↔ source.IsCodeLine line) ↔ source.TokensVisible := by
  constructor
  · rintro ⟨-, h⟩ token hmem line hstart hstop
    exact Source.isCodeLine_iff.mp ((h line).mp (Source.mem_ncloc.mpr ⟨token, hmem, hstart, hstop⟩))
  · refine fun h => ⟨sorted_findNcloc none, fun line => ⟨fun hmem => ?_, Source.mem_ncloc_of_isCodeLine⟩⟩
    obtain ⟨token, hmem, hstart, hstop⟩ := Source.mem_ncloc.mp hmem
    exact Source.isCodeLine_iff.mpr (h token hmem line hstart hstop)

/-- A template with a blank line in it. -/
def blankLineSource : Source where
  text := units "`a\n\nb`"
  tokens := [⟨"Template", "`a\n\nb`", 0, 6⟩]
  comments := []
  disjoint := by simp
  covered i c hget _ := by
    obtain ⟨hlt, -⟩ := List.getElem?_eq_some_iff.mp hget
    exact Or.inl ⟨_, List.mem_singleton_self _, Nat.zero_le i, hlt⟩

theorem blank_line_counted : ¬ ∀ source : Source, source.ncloc.Pairwise (· < ·) ∧
    ∀ line, line ∈ source.ncloc ↔ source.IsCodeLine line := by
  intro h
  have hncloc : blankLineSource.ncloc = [1, 2, 3] := by decide
  obtain ⟨i, c, hget, hwhite, -, hline⟩ := ((h blankLineSource).2 2).mp (by rw [hncloc]; decide)
  obtain ⟨hlt, -⟩ := List.getElem?_eq_some_iff.mp hget
  have hall : ∀ i < 6, blankLineSource.lineOf i = 2 → blankLineSource.text[i]?.any (fun c => !isWhiteSpace c) = false := by decide
  have hnone := hall i hlt hline
  rw [hget, Option.any_some, hwhite] at hnone
  exact nomatch hnone

end SonarJavascript.Linter.Ncloc
