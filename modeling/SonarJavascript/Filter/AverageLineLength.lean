import Mathlib.Algebra.BigOperators.Group.List.Basic
import Mathlib.Algebra.GroupWithZero.Nat
import Mathlib.Data.List.DropRight
import SonarJavascript.Lib.FirstOccurrence

/-!
# The average line length

`AverageLineLengthCalculator` leaves out the lines of the comment at the start of a file. Whether a line ends the comment
and whether something is behind the end is seen from what the line starts with, contains and ends with. That is right
(`leftOut_eq_iff`) unless something behind the end of the comment ends like a comment as well, or the slash of `/*/` is
taken for the end.
-/

namespace SonarJavascript.Filter.AverageLineLength

/-- The code units of a line. -/
abbrev Line := List ℕ

/-! ### The language -/

/-- What `String.trim` removes. -/
def isWhite (c : ℕ) : Bool := c ≤ 32

def trim (line : Line) : Line := (line.dropWhile isWhite).rdropWhile isWhite

/-- `/*` -/
def opening : Line := [47, 42]

/-- `*/` -/
def closing : Line := [42, 47]

/-- `//` -/
def slashes : Line := [47, 47]

def contains (line word : Line) : Bool := (splitFirst word line).isSome

/-! ### The calculator -/

structure AverageLineLengthCalculator where
  isAtFirstLine : Bool := true
  isInHeaderComment : Bool := false
  isClike : Bool := false

def isFirstLineInHeaderComment (line : Line) (calculator : AverageLineLengthCalculator) :
    Bool × AverageLineLengthCalculator :=
  if opening.isPrefixOf line && (!contains line closing || closing.isSuffixOf line) then
    (true, { calculator with isClike := true, isInHeaderComment := !closing.isSuffixOf line })
  else if slashes.isPrefixOf line then (true, { calculator with isClike := false, isInHeaderComment := true })
  else (false, calculator)

def isSubsequentLineInHeaderComment (line : Line) (calculator : AverageLineLengthCalculator) :
    Bool × AverageLineLengthCalculator :=
  if calculator.isClike then
    if closing.isSuffixOf line then (true, { calculator with isInHeaderComment := false })
    -- case of */ followed with something, possibly a long minified line
    else if contains line closing then (false, { calculator with isInHeaderComment := false })
    else (true, calculator)
  else if slashes.isPrefixOf line then (true, calculator)
  else (false, { calculator with isInHeaderComment := false })

def isLineInHeaderComment (line : Line) (calculator : AverageLineLengthCalculator) :
    Bool × AverageLineLengthCalculator :=
  let trimmedLine := trim line
  if calculator.isAtFirstLine then isFirstLineInHeaderComment trimmedLine { calculator with isAtFirstLine := false }
  else if calculator.isInHeaderComment then isSubsequentLineInHeaderComment trimmedLine calculator
  else (false, calculator)

/-- For each line whether it is left out. -/
def leftOut : AverageLineLengthCalculator → List Line → List Bool
  | _, [] => []
  | calculator, line :: lines =>
    let (isLeftOut, next) := isLineInHeaderComment line calculator
    isLeftOut :: leftOut next lines

def getAverageLineLength (lines : List Line) : ℕ :=
  let counted := ((lines.zip (leftOut {} lines)).filter fun (_, isLeftOut) => !isLeftOut).map Prod.fst
  if counted.length > 0 then (counted.map List.length).sum / counted.length else 0

/-! ### The header comment -/

/-- The text behind the first end of a comment. -/
def behindClosing (text : Line) : Option Line := (splitFirst closing text).map Prod.snd

/-- In a C-like comment. -/
def commentLines : List Line → List Bool
  | [] => []
  | line :: lines =>
    match behindClosing line with
    | none => true :: commentLines lines
    | some rest => rest.all isWhite :: lines.map fun _ => false

def slashesLines : List Line → List Bool
  | [] => []
  | line :: lines =>
    if slashes.isPrefixOf (line.dropWhile isWhite) then true :: slashesLines lines
    else false :: lines.map fun _ => false

/-- For each line whether it consists of white space and of a part of the header comment, which starts at the first column
of the first line that is not blank. -/
def headerLines : List Line → List Bool
  | [] => []
  | line :: lines =>
    let text := line.dropWhile isWhite
    if opening.isPrefixOf text then
      match behindClosing (text.drop 2) with
      | none => true :: commentLines lines
      | some rest => rest.all isWhite :: lines.map fun _ => false
    else if slashes.isPrefixOf text then true :: slashesLines lines
    else false :: lines.map fun _ => false

/-- What is behind the end of the comment does not end like a comment. -/
def ClosesOnce (rest text : Line) : Prop := rest = [] ∨ ¬ closing <:+ text

/-- In a C-like comment. -/
def CommentCloses : List Line → Prop
  | [] => True
  | line :: lines =>
    match behindClosing (trim line) with
    | none => CommentCloses lines
    | some rest => ClosesOnce rest (trim line)

def HeaderCloses : List Line → Prop
  | [] => True
  | line :: lines =>
    opening <+: trim line →
    match behindClosing ((trim line).drop 2) with
    | some rest => ClosesOnce rest (trim line)
    | none =>
      if (trim line)[2]? = some 47 then
        trim line = [47, 42, 47] ∧ ∀ second ∈ lines.head?, ∃ rest, behindClosing (trim second) = some rest ∧ rest ≠ []
      else CommentCloses lines

/-! ### Trimmed lines -/

section Trim

variable {line text before after rest word : Line}

theorem exists_trim (line : Line) : ∃ before after, line.dropWhile isWhite = trim line ++ after ∧
    line = before ++ (trim line ++ after) ∧ (∀ c ∈ before, isWhite c = true) ∧ ∀ c ∈ after, isWhite c = true := by
  have hright : trim line ++ (line.dropWhile isWhite).rtakeWhile isWhite = line.dropWhile isWhite :=
    List.rdropWhile_append_rtakeWhile
  refine ⟨line.takeWhile isWhite, (line.dropWhile isWhite).rtakeWhile isWhite, hright.symm, ?_, fun c hc => ?_,
    fun c hc => ?_⟩
  · rw [hright, List.takeWhile_append_dropWhile]
  · exact List.mem_takeWhile_imp hc
  · exact List.mem_rtakeWhile_imp hc

theorem eq_nil_of_suffix (hsuffix : rest <:+ trim line) (hwhite : ∀ c ∈ rest, isWhite c = true) : rest = [] := by
  by_contra hne
  obtain ⟨before, hbefore⟩ := hsuffix
  have htrim : trim line ≠ [] := by
    rw [← hbefore]
    exact List.append_ne_nil_of_right_ne_nil _ hne
  have hlast := List.rdropWhile_last_not isWhite (line.dropWhile isWhite) htrim
  have hsame : (trim line).getLast htrim = rest.getLast hne := by
    simp only [← hbefore, List.getLast_append_of_ne_nil _ hne]
  exact hlast (hsame ▸ hwhite _ (List.getLast_mem hne))

theorem isPrefixOf_append (hword : ∀ c ∈ word, isWhite c = false) (hafter : ∀ c ∈ after, isWhite c = true) :
    word.isPrefixOf (text ++ after) = word.isPrefixOf text := by
  induction word generalizing text with
  | nil => rw [List.isPrefixOf_nil_left, List.isPrefixOf_nil_left]
  | cons c word ih =>
    rw [List.forall_mem_cons] at hword
    cases text with
    | nil =>
      cases after with
      | nil => rfl
      | cons d after =>
        have hne : (c == d) = false := by
          refine beq_eq_false_iff_ne.mpr fun hcd => ?_
          have hd := hafter d List.mem_cons_self
          rw [← hcd, hword.1] at hd
          cases hd
        rw [List.nil_append, List.isPrefixOf_cons_cons, hne]
        rfl
    | cons d text => rw [List.cons_append, List.isPrefixOf_cons_cons, List.isPrefixOf_cons_cons, ih hword.2]

theorem behindClosing_cons {c : ℕ} : behindClosing (c :: text) =
    if closing.isPrefixOf (c :: text) then some (text.drop 1) else behindClosing text := by
  rw [behindClosing, splitFirst]
  split_ifs
  · rfl
  · rw [Option.map_map]
    rfl

theorem behindClosing_white (hbefore : ∀ c ∈ before, isWhite c = true) :
    behindClosing (before ++ text) = behindClosing text := by
  induction before with
  | nil => rfl
  | cons c before ih =>
    rw [List.forall_mem_cons] at hbefore
    have hne : (42 == c) = false := by
      refine beq_eq_false_iff_ne.mpr fun hc => ?_
      rw [← hc] at hbefore
      cases hbefore.1
    have hnot : closing.isPrefixOf (c :: (before ++ text)) = false := by
      rw [closing, List.isPrefixOf_cons_cons, hne]
      rfl
    rw [List.cons_append, behindClosing_cons, hnot, if_neg Bool.false_ne_true]
    exact ih hbefore.2

theorem behindClosing_append (hafter : ∀ c ∈ after, isWhite c = true) :
    behindClosing (text ++ after) = (behindClosing text).map (· ++ after) := by
  induction text with
  | nil =>
    have hwhite := @behindClosing_white [] after hafter
    rw [List.append_nil] at hwhite
    exact hwhite
  | cons c text ih =>
    have hsame : closing.isPrefixOf (c :: text ++ after) = closing.isPrefixOf (c :: text) :=
      isPrefixOf_append (by decide) hafter
    rw [List.cons_append] at hsame ⊢
    rw [behindClosing_cons, behindClosing_cons, hsame]
    split_ifs with hstarts
    · obtain ⟨others, hothers⟩ := List.isPrefixOf_iff_prefix.mp hstarts
      obtain ⟨-, rfl⟩ := List.cons.inj hothers
      rfl
    · exact ih

theorem suffix_of_behindClosing (h : behindClosing text = some rest) : closing ++ rest <:+ text := by
  obtain ⟨⟨before, after⟩, hsplit, rfl⟩ := Option.map_eq_some_iff.mp h
  exact ⟨before, by rw [splitFirst_eq_some hsplit, List.append_assoc]⟩

theorem behindClosing_ne_none (h : closing <:+ text) : behindClosing text ≠ none := by
  obtain ⟨before, rfl⟩ := h
  obtain ⟨first, rest, hsplit, -⟩ := exists_splitFirst (show before ++ closing = before ++ closing ++ [] by simp)
  rw [behindClosing, hsplit]
  nofun

theorem contains_eq : contains text closing = (behindClosing text).isSome := Option.isSome_map.symm

/-- The end of a comment in a part of a line, trimmed or not. -/
theorem exists_behind (hsuffix : text <:+ trim line) (hafter : ∀ c ∈ after, isWhite c = true) :
    behindClosing text = none ∧ behindClosing (text ++ after) = none ∨
      ∃ rest rest', behindClosing text = some rest ∧ behindClosing (text ++ after) = some rest' ∧
        rest'.all isWhite = decide (rest = []) := by
  rw [behindClosing_append hafter]
  cases hbehind : behindClosing text with
  | none => exact Or.inl ⟨rfl, rfl⟩
  | some rest =>
    refine Or.inr ⟨rest, rest ++ after, rfl, rfl, Bool.eq_iff_iff.mpr ?_⟩
    rw [List.all_eq_true, decide_eq_true_iff]
    constructor
    · intro hwhite
      have hrest : rest <:+ trim line :=
        ((List.suffix_append closing rest).trans (suffix_of_behindClosing hbehind)).trans hsuffix
      exact eq_nil_of_suffix hrest fun c hc => hwhite c (List.mem_append_left _ hc)
    · rintro rfl
      exact hafter

theorem exists_behind_line (line : Line) : behindClosing (trim line) = none ∧ behindClosing line = none ∨
    ∃ rest rest', behindClosing (trim line) = some rest ∧ behindClosing line = some rest' ∧
      rest'.all isWhite = decide (rest = []) := by
  obtain ⟨before, after, -, hline, hbefore, hafter⟩ := exists_trim line
  have hsame : behindClosing line = behindClosing (trim line ++ after) :=
    (congrArg behindClosing hline).trans (behindClosing_white hbefore)
  rw [hsame]
  exact exists_behind (List.suffix_refl (trim line)) hafter

theorem isPrefixOf_trim (hword : ∀ c ∈ word, isWhite c = false) :
    word.isPrefixOf (line.dropWhile isWhite) = word.isPrefixOf (trim line) := by
  obtain ⟨before, after, hline, -, -, hafter⟩ := exists_trim line
  rw [hline, isPrefixOf_append hword hafter]

/-- What the comment of the first line begins with. -/
theorem exists_opening (h : opening <+: trim line) : ∃ text, trim line = 47 :: 42 :: text ∧
    (behindClosing text = none ∧ behindClosing ((line.dropWhile isWhite).drop 2) = none ∨
      ∃ rest rest', behindClosing text = some rest ∧ behindClosing ((line.dropWhile isWhite).drop 2) = some rest' ∧
        rest'.all isWhite = decide (rest = [])) := by
  obtain ⟨text, htext⟩ := h
  obtain ⟨before, after, hline, -, -, hafter⟩ := exists_trim line
  have hdrop : (line.dropWhile isWhite).drop 2 = text ++ after := by
    rw [hline, ← htext]
    rfl
  rw [hdrop]
  exact ⟨text, htext.symm, exists_behind ⟨opening, htext⟩ hafter⟩

theorem contains_opening : contains (47 :: 42 :: text) closing = (decide (text.head? = some 47) || contains text closing) := by
  rw [contains_eq, contains_eq, behindClosing_cons, behindClosing_cons]
  cases text with
  | nil => rfl
  | cons c text =>
    by_cases hc : c = 47
    · subst hc
      rfl
    · have hstarts : closing.isPrefixOf (42 :: c :: text) = false := by
        simp [closing, List.isPrefixOf, Ne.symm hc]
      have hfirst : closing.isPrefixOf (47 :: 42 :: c :: text) = false := rfl
      rw [hstarts, hfirst]
      simp [hc]

theorem suffix_opening_iff : closing <:+ 47 :: 42 :: text ↔ text = [47] ∨ closing <:+ text := by
  constructor
  · rintro ⟨before, hbefore⟩
    match before, hbefore with
    | [], hbefore => cases hbefore
    | [_], hbefore => exact Or.inl (List.cons.inj (List.cons.inj hbefore).2).2.symm
    | _ :: _ :: before, hbefore => exact Or.inr ⟨before, (List.cons.inj (List.cons.inj hbefore).2).2⟩
  · rintro (rfl | h)
    · exact List.suffix_cons 47 closing
    · exact h.trans ((List.suffix_cons 42 text).trans (List.suffix_cons 47 (42 :: text)))

end Trim

/-! ### The run -/

section Run

variable {line : Line} {lines : List Line} {calculator : AverageLineLengthCalculator}

theorem leftOut_counted (hfirst : calculator.isAtFirstLine = false) (hheader : calculator.isInHeaderComment = false) :
    leftOut calculator lines = lines.map fun _ => false := by
  induction lines with
  | nil => rfl
  | cons line lines ih =>
    have hline : isLineInHeaderComment line calculator = (false, calculator) := by
      rw [isLineInHeaderComment, hfirst, hheader]
      rfl
    rw [leftOut, hline, List.map_cons]
    exact congrArg (false :: ·) ih

theorem leftOut_slashes : leftOut ⟨false, true, false⟩ lines = slashesLines lines := by
  induction lines with
  | nil => rfl
  | cons line lines ih =>
    rw [slashesLines, isPrefixOf_trim (by decide), leftOut]
    by_cases hslashes : slashes.isPrefixOf (trim line) = true
    · have hline : isLineInHeaderComment line ⟨false, true, false⟩ = (true, ⟨false, true, false⟩) := if_pos hslashes
      rw [hline, if_pos hslashes]
      exact congrArg (true :: ·) ih
    · have hline : isLineInHeaderComment line ⟨false, true, false⟩ = (false, ⟨false, false, false⟩) := if_neg hslashes
      rw [hline, if_neg hslashes]
      exact congrArg (false :: ·) (leftOut_counted rfl rfl)

theorem leftOut_comment_iff : leftOut ⟨false, true, true⟩ lines = commentLines lines ↔ CommentCloses lines := by
  induction lines with
  | nil => exact iff_of_true rfl trivial
  | cons line lines ih =>
    rw [commentLines, CommentCloses, leftOut]
    have hline : isLineInHeaderComment line ⟨false, true, true⟩ =
        if closing.isSuffixOf (trim line) then (true, ⟨false, false, true⟩)
        else if contains (trim line) closing then (false, ⟨false, false, true⟩) else (true, ⟨false, true, true⟩) := rfl
    rw [hline, contains_eq]
    rcases exists_behind_line line with ⟨htrim, hbehind⟩ | ⟨rest, rest', htrim, hbehind, hwhite⟩
    · have hsuffix : ¬ closing.isSuffixOf (trim line) = true := fun h =>
        behindClosing_ne_none (List.isSuffixOf_iff_suffix.mp h) htrim
      rw [if_neg hsuffix, htrim, hbehind]
      exact List.cons_inj_right true |>.trans ih
    · rw [htrim, hbehind]
      dsimp only [ClosesOnce]
      by_cases hsuffix : closing.isSuffixOf (trim line) = true
      · rw [if_pos hsuffix]
        dsimp only
        rw [leftOut_counted rfl rfl, hwhite]
        simp [List.isSuffixOf_iff_suffix.mp hsuffix]
      · rw [if_neg hsuffix, Option.isSome_some, if_pos rfl]
        dsimp only
        have hne : rest ≠ [] := by
          rintro rfl
          exact hsuffix (List.isSuffixOf_iff_suffix.mpr (suffix_of_behindClosing htrim))
        rw [leftOut_counted rfl rfl, hwhite, decide_eq_false hne]
        exact iff_of_true rfl (Or.inr fun h => hsuffix (List.isSuffixOf_iff_suffix.mpr h))

theorem counted_iff : lines.map (fun _ => false) = commentLines lines ↔
    ∀ second ∈ lines.head?, ∃ rest, behindClosing (trim second) = some rest ∧ rest ≠ [] := by
  cases lines with
  | nil => exact iff_of_true rfl nofun
  | cons line lines =>
    rw [commentLines]
    rcases exists_behind_line line with ⟨htrim, hbehind⟩ | ⟨rest, rest', htrim, hbehind, hwhite⟩
    · rw [hbehind]
      simp [htrim]
    · rw [hbehind]
      simp [htrim, hwhite]

theorem firstLine_of_some {text rest : Line} (h : behindClosing text = some rest) :
    isFirstLineInHeaderComment (47 :: 42 :: text) ⟨false, false, false⟩ =
      if closing.isSuffixOf (47 :: 42 :: text) then (true, ⟨false, false, true⟩) else (false, ⟨false, false, false⟩) := by
  have hcontains : contains (47 :: 42 :: text) closing = true := by
    rw [contains_opening, contains_eq, h, Option.isSome_some, Bool.or_true]
  have hopening : opening.isPrefixOf (47 :: 42 :: text) = true := rfl
  have hslashes : slashes.isPrefixOf (47 :: 42 :: text) = false := rfl
  rw [isFirstLineInHeaderComment, hcontains, hopening, hslashes]
  cases closing.isSuffixOf (47 :: 42 :: text) <;> rfl

/-- The comment does not end in its first line. -/
theorem firstLine_of_none {text : Line} (h : behindClosing text = none) :
    isFirstLineInHeaderComment (47 :: 42 :: text) ⟨false, false, false⟩ =
      if text = [47] then (true, ⟨false, false, true⟩)
      else if text.head? = some 47 then (false, ⟨false, false, false⟩) else (true, ⟨false, true, true⟩) := by
  have hcontains : contains (47 :: 42 :: text) closing = decide (text.head? = some 47) := by
    rw [contains_opening, contains_eq, h, Option.isSome_none, Bool.or_false]
  have hsuffix : closing.isSuffixOf (47 :: 42 :: text) = decide (text = [47]) := by
    rw [Bool.eq_iff_iff, List.isSuffixOf_iff_suffix, suffix_opening_iff, decide_eq_true_iff]
    exact or_iff_left fun hclosing => behindClosing_ne_none hclosing h
  have hopening : opening.isPrefixOf (47 :: 42 :: text) = true := rfl
  have hslashes : slashes.isPrefixOf (47 :: 42 :: text) = false := rfl
  rw [isFirstLineInHeaderComment, hcontains, hsuffix, hopening, hslashes]
  by_cases htext : text = [47]
  · subst htext
    rfl
  · rw [if_neg htext, decide_eq_false htext]
    by_cases hhead : text.head? = some 47
    · rw [if_pos hhead, decide_eq_true hhead]
      rfl
    · rw [if_neg hhead, decide_eq_false hhead]
      rfl

end Run

/-- The lines that are left out are those of the header comment. -/
theorem leftOut_eq_iff (lines : List Line) : leftOut {} lines = headerLines lines ↔ HeaderCloses lines := by
  cases lines with
  | nil => exact iff_of_true rfl trivial
  | cons line lines =>
    have hline : isLineInHeaderComment line {} = isFirstLineInHeaderComment (trim line) ⟨false, false, false⟩ := rfl
    rw [leftOut, hline, headerLines, HeaderCloses]
    dsimp only
    rw [isPrefixOf_trim (by decide), isPrefixOf_trim (by decide)]
    by_cases hopening : opening <+: trim line
    · obtain ⟨text, htext, hbehind⟩ := exists_opening hopening
      rw [if_pos (List.isPrefixOf_iff_prefix.mpr hopening), forall_prop_of_true hopening, htext, List.drop_succ_cons,
        List.drop_succ_cons, List.drop_zero]
      rcases hbehind with ⟨hnone, hspec⟩ | ⟨rest, rest', hsome, hspec, hwhite⟩
      · rw [hnone, hspec, firstLine_of_none hnone]
        have hsecond : (47 :: 42 :: text)[2]? = text.head? := by
          cases text <;> rfl
        dsimp only
        rw [hsecond]
        by_cases hslash : text = [47]
        · subst hslash
          rw [if_pos rfl, List.head?_cons, if_pos rfl]
          dsimp only
          rw [leftOut_counted rfl rfl, List.cons_inj_right, counted_iff]
          exact (and_iff_right rfl).symm
        · rw [if_neg hslash]
          by_cases hhead : text.head? = some 47
          · rw [if_pos hhead, if_pos hhead]
            refine iff_of_false (fun h => ?_) fun h => hslash (List.cons.inj (List.cons.inj h.1).2).2
            cases (List.cons.inj h).1
          · rw [if_neg hhead, if_neg hhead, List.cons_inj_right, leftOut_comment_iff]
      · rw [hsome, hspec, firstLine_of_some hsome]
        dsimp only [ClosesOnce]
        rw [hwhite, ← List.isSuffixOf_iff_suffix]
        by_cases hends : closing.isSuffixOf (47 :: 42 :: text) = true
        · rw [if_pos hends]
          dsimp only
          rw [leftOut_counted rfl rfl]
          simp [hends]
        · rw [if_neg hends]
          dsimp only
          have hne : rest ≠ [] := by
            rintro rfl
            have hclosing : closing <:+ text := suffix_of_behindClosing hsome
            exact hends (List.isSuffixOf_iff_suffix.mpr (suffix_opening_iff.mpr (Or.inr hclosing)))
          rw [leftOut_counted rfl rfl, decide_eq_false hne]
          exact iff_of_true rfl (Or.inr hends)
    · have hstarts : opening.isPrefixOf (trim line) = false := by
        rw [← Bool.not_eq_true, List.isPrefixOf_iff_prefix]
        exact hopening
      rw [isFirstLineInHeaderComment, hstarts, Bool.false_and, if_neg Bool.false_ne_true, if_neg Bool.false_ne_true]
      refine iff_of_true ?_ fun h => absurd h hopening
      split_ifs with hslashes
      · exact congrArg (true :: ·) leftOut_slashes
      · exact congrArg (false :: ·) (leftOut_counted rfl rfl)

/-- Code between two comments on the first line. -/
theorem code_between_comments_left_out : leftOut {} ["/* a */ b() /* c */".toList.map Char.toNat] = [true] ∧
    ¬ ∀ lines, leftOut {} lines = headerLines lines := by
  refine ⟨by decide, fun h => ?_⟩
  have hfirst := h ["/* a */ b() /* c */".toList.map Char.toNat]
  revert hfirst
  decide

end SonarJavascript.Filter.AverageLineLength
