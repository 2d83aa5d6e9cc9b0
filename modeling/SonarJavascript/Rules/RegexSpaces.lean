import SonarJavascript.Regex.Range
import SonarJavascript.Regex.Semantics

/-!
# S6326: multiple spaces in regular expressions

The range of the suggestion is the one of the run in the literal, but a fixer takes it for a range of the file. Where
the literal is at the start of the file, the edit of a run in an alternative keeps the meaning: `suggestion_iff`.
-/

namespace SonarJavascript.Rules.RegexSpaces

open Regex
open Regex.Node (Visit visits raw rawJoined)

/-! ### The rule -/

/-- The flags of a `RegExp` object. -/
def sortFlags (flags : JsString) : JsString := (units "dgimsuvy").filter (· ∈ flags)

def literal (pattern flags : JsString) : JsString := units "/" ++ pattern ++ units "/" ++ flags

/-- The loop goes down to 1. -/
def countSpacesBefore (pattern : JsString) : ℕ → ℕ
  | i + 2 => if pattern[i + 1]? = some 32 then countSpacesBefore pattern (i + 1) + 1 else 0
  | _ => 0

structure Report where
  message : String
  regexpNode : Visit
  offset : ℤ × ℤ
  desc : String
  range : ℕ × ℕ
  text : JsString

def quantifier (spacesNumber : ℕ) : String := s!"\x7b{spacesNumber}\x7d"

def reportRegExpNode (node : Visit) (spacesNumber : ℕ) (regexpRange : ℕ × ℕ) : Report where
  message := s!"If multiple spaces are required here, use number quantifier ({quantifier spacesNumber})."
  regexpNode := node
  offset := (-spacesNumber + 1, 0)
  desc := s!"Use quantifier {quantifier spacesNumber}"
  range := (regexpRange.1 + 1 - spacesNumber, regexpRange.2)
  text := units s!" {quantifier spacesNumber}"

theorem units_append (text text' : String) : units (text ++ text') = units text ++ units text' := by
  simp only [units, String.toList_append, List.map_append]

theorem units_quantifier (n : ℕ) : units s!" {quantifier n}" = 32 :: braces n := by
  have hspace : units " " = [32] := by decide
  have hquantifier : units (quantifier n) = braces n := by
    unfold quantifier braces
    rw [← units_append, ← units_append]
    rfl
  rw [← hquantifier]
  show units (" " ++ quantifier n) = _
  rw [units_append, hspace, List.singleton_append]

def onCharacterEnter (node : PatternNode) (rawPattern : JsString) (visit : Visit) : Option Report :=
  match visit.node with
  | .Character raw _ =>
    if raw ≠ units " " ∨ visit.parentType = "CharacterClass" then none
    else
      let nextChar := rawPattern[visit.start + 1]?
      if nextChar ≠ some 32 then
        let spacesBefore := countSpacesBefore rawPattern visit.start
        if spacesBefore > 0 then (getRegexpRange node visit).map (reportRegExpNode visit (spacesBefore + 1)) else none
      else none
  | _ => none

/-- The reports on a literal, which is parsed as a `RegExp` object is written. -/
def reports (pattern : Node) (flags : JsString) : List Report :=
  (visits "RegExpLiteral" 1 pattern).filterMap (onCharacterEnter .regexLiteral (literal pattern.raw (sortFlags flags)))

def replaceTextRange (source : JsString) (range : ℕ × ℕ) (text : JsString) : JsString :=
  source.take range.1 ++ text ++ source.drop range.2

/-! ### What is expected -/

/-- A maximal run of at least two spaces. -/
structure Run (text : JsString) where
  left : JsString
  n : ℕ
  right : JsString
  text_eq : text = left ++ spaces n ++ right
  left_ends : left.getLast? ≠ some 32
  right_begins : right.head? ≠ some 32
  two_le : 2 ≤ n

namespace Run

variable {text : JsString} (run : Run text)

def quantified : JsString := run.left ++ units " " ++ braces run.n ++ run.right

/-- The report is about the last space of the run. Before the pattern there is a slash. -/
def Reported (report : Report) : Prop := report.regexpNode.start = run.left.length + run.n

end Run

/-- In the file, the run is replaced, and the pattern that results means the same. -/
structure Correct (G : Grammar) (before after flags : JsString) {pattern : Node} (run : Run pattern.raw)
    (report : Report) : Prop where
  text : replaceTextRange (before ++ literal pattern.raw flags ++ after) report.range report.text =
    before ++ literal run.quantified flags ++ after
  pattern : ∃ pattern', pattern'.raw = run.quantified ∧ IsParse G pattern' [] ∧
    ∀ S : Semantics, S.denotation pattern' = S.denotation pattern

/-! ### The run that is reported -/

section Reports

theorem getElem?_append_length (init : JsString) (unit : ℕ) (rest : JsString) :
    (init ++ unit :: rest)[init.length]? = some unit := by
  rw [List.getElem?_append_right (Nat.le_refl _), Nat.sub_self, List.getElem?_cons_zero]

variable {G : Grammar} {pattern : Node} {flags before after : JsString} {run : Run pattern.raw} {report : Report}

theorem countSpacesBefore_run {text : JsString} (hne : text ≠ []) (hlast : text.getLast? ≠ some 32) (n : ℕ)
    (rest : JsString) : countSpacesBefore (text ++ spaces n ++ rest) (text.length + n) = n := by
  induction n generalizing rest with
  | zero =>
    rw [spaces, List.replicate_zero, List.append_nil, Nat.add_zero]
    obtain ⟨i, hi⟩ := Nat.exists_eq_succ_of_ne_zero (mt List.length_eq_zero_iff.mp hne)
    rw [List.getLast?_eq_getElem?, hi, Nat.succ_sub_one] at hlast
    rw [hi]
    cases i with
    | zero => rfl
    | succ i =>
      rw [countSpacesBefore, List.getElem?_append_left (by omega), if_neg hlast]
  | succ n ih =>
    have hmore : text ++ spaces (n + 1) ++ rest = text ++ spaces n ++ 32 :: rest := by
      rw [spaces, List.replicate_succ']
      simp [spaces]
    obtain ⟨i, hi⟩ := Nat.exists_eq_succ_of_ne_zero (mt List.length_eq_zero_iff.mp hne)
    have hindex : text.length + (n + 1) = (i + n) + 2 := by omega
    have hspace : (text ++ spaces n ++ 32 :: rest)[i + n + 1]? = some 32 := by
      have hlength : (text ++ spaces n).length = i + n + 1 := by
        rw [List.length_append, spaces, List.length_replicate]
        omega
      rw [← hlength, getElem?_append_length]
    rw [hmore, hindex, countSpacesBefore, if_pos hspace, show i + n + 1 = text.length + n by omega, ih]

theorem report_eq (hreport : report ∈ reports pattern flags) (hrun : run.Reported report) :
    (∃ node, report = reportRegExpNode node run.n (node.start, node.start + node.node.raw.length)) ∧
      report.regexpNode ∈ visits "RegExpLiteral" 1 pattern ∧ report.regexpNode.node.raw = units " " := by
  obtain ⟨visit, hvisit, hreport⟩ := List.mem_filterMap.mp hreport
  unfold onCharacterEnter at hreport
  split at hreport
  case h_2 => cases hreport
  case h_1 text value hnode =>
    dsimp only at hreport
    split_ifs at hreport with hraw
    obtain rfl := Option.some.inj hreport
    obtain ⟨rfl, -⟩ : text = units " " ∧ visit.parentType ≠ "CharacterClass" := by simpa using hraw
    have hstart : visit.start = run.left.length + run.n := hrun
    have hslash : units "/" = [47] := by decide
    obtain ⟨m, hm⟩ : ∃ m, run.n = m + 1 := ⟨run.n - 1, by have := run.two_le; omega⟩
    have hpattern : literal pattern.raw (sortFlags flags) =
        47 :: run.left ++ spaces m ++ (32 :: (run.right ++ units "/" ++ sortFlags flags)) := by
      conv_lhs => rw [run.text_eq, hm, spaces, List.replicate_succ']
      simp [literal, hslash, spaces]
    have hends : (47 :: run.left).getLast? ≠ some 32 := by
      have := run.left_ends
      cases hleft : run.left with
      | nil => simp
      | cons unit units =>
        rw [hleft] at this
        rwa [List.getLast?_cons_cons]
    have hcount := countSpacesBefore_run (List.cons_ne_nil 47 run.left) hends m
      (32 :: (run.right ++ units "/" ++ sortFlags flags))
    rw [← hpattern, List.length_cons, show run.left.length + 1 + m = visit.start by omega] at hcount
    rw [hcount, ← hm]
    refine ⟨⟨visit, rfl⟩, hvisit, ?_⟩
    show visit.node.raw = units " "
    rw [hnode, raw]

theorem range_reportRegExpNode {node : Visit} {n m : ℕ} (hstart : node.start = m + n) (hnode : node.node.raw = units " ") :
    (reportRegExpNode node n (node.start, node.start + node.node.raw.length)).range = (m + 1, m + 1 + n) := by
  have hlength : (units " ").length = 1 := by decide
  show (node.start + 1 - n, node.start + node.node.raw.length) = _
  rw [hstart, hnode, hlength]
  exact Prod.ext (by omega) (by omega)

theorem literal_eq (flags : JsString) :
    literal pattern.raw flags = 47 :: run.left ++ spaces run.n ++ (run.right ++ units "/" ++ flags) := by
  have hslash : units "/" = [47] := by decide
  conv_lhs => rw [run.text_eq]
  simp [literal, hslash]

theorem literal_quantified (flags : JsString) :
    literal run.quantified flags = 47 :: run.left ++ 32 :: braces run.n ++ (run.right ++ units "/" ++ flags) := by
  have hslash : units "/" = [47] := by decide
  have hspace : units " " = [32] := by decide
  simp [literal, hslash, hspace, Run.quantified]

theorem eq_nil_of_edit (h : (before ++ literal pattern.raw flags ++ after).take (run.left.length + 1) ++ 32 :: braces run.n ++
      (before ++ literal pattern.raw flags ++ after).drop (run.left.length + 1 + run.n) =
    before ++ literal run.quantified flags ++ after) : before = [] := by
  by_contra hne
  obtain ⟨k, hk⟩ := Nat.exists_eq_succ_of_ne_zero (mt List.length_eq_zero_iff.mp hne)
  obtain ⟨digits, hbraces⟩ : ∃ digits : JsString, braces run.n = digits ++ [125] :=
    ⟨units "\x7b" ++ units (toString run.n), by rw [braces, show units "\x7d" = [125] by decide]⟩
  obtain ⟨m, hm⟩ : ∃ m, run.n = m + 1 := ⟨run.n - 1, by have := run.two_le; omega⟩
  -- the brace that is expected, behind the digits
  have hexpected : before ++ literal run.quantified flags ++ after =
      (before ++ 47 :: run.left ++ 32 :: digits) ++ 125 :: (run.right ++ units "/" ++ flags ++ after) := by
    rw [literal_quantified, hbraces]
    simp
  -- the space that is there, the last one of the run
  have hsource : before ++ literal pattern.raw flags ++ after =
      (before ++ 47 :: run.left ++ spaces m) ++ 32 :: (run.right ++ units "/" ++ flags ++ after) := by
    rw [literal_eq, hm, spaces, List.replicate_succ']
    simp [spaces]
  have hbrace := getElem?_append_length (before ++ 47 :: run.left ++ 32 :: digits) 125
    (run.right ++ units "/" ++ flags ++ after)
  have hspace := getElem?_append_length (before ++ 47 :: run.left ++ spaces m) 32
    (run.right ++ units "/" ++ flags ++ after)
  have hleft : (before ++ 47 :: run.left ++ 32 :: digits).length = before.length + run.left.length + 2 + digits.length := by
    simp only [List.length_append, List.length_cons]
    omega
  rw [← hexpected, hleft, ← h] at hbrace
  rw [← hsource] at hspace
  generalize hs : before ++ literal pattern.raw flags ++ after = source at hbrace hspace
  have hlong : run.left.length + 1 ≤ source.length := by
    rw [← hs, hsource]
    simp only [List.length_append, List.length_cons]
    omega
  have hinit : (source.take (run.left.length + 1) ++ 32 :: braces run.n).length = run.left.length + 1 + (digits.length + 2) := by
    rw [hbraces]
    simp only [List.length_append, List.length_cons, List.length_take, Nat.min_eq_left hlong, List.length_nil]
  rw [List.getElem?_append_right (by omega), hinit, List.getElem?_drop] at hbrace
  have hindex : run.left.length + 1 + run.n +
      (before.length + run.left.length + 2 + digits.length - (run.left.length + 1 + (digits.length + 2))) =
      (before ++ 47 :: run.left ++ spaces m).length := by
    simp only [List.length_append, List.length_cons, spaces, List.length_replicate]
    omega
  rw [hindex, hspace] at hbrace
  exact absurd hbrace (by decide)

theorem replaceTextRange_run : replaceTextRange (literal pattern.raw flags ++ after)
    (run.left.length + 1, run.left.length + 1 + run.n) (32 :: braces run.n) = literal run.quantified flags ++ after := by
  have hleft : (47 :: run.left).length = run.left.length + 1 := rfl
  have hrun : (47 :: run.left ++ spaces run.n).length = run.left.length + 1 + run.n := by simp [spaces]; omega
  rw [literal_eq, literal_quantified, replaceTextRange]
  dsimp only
  rw [← hrun, List.append_assoc _ _ after, List.drop_left, ← hleft, List.append_assoc, List.append_assoc, List.take_left]
  simp

/-- A run that ends in an alternative has a pattern with the quantifier. -/
theorem exists_pattern (h : IsParse G pattern []) {visit : Visit} (hvisit : visit ∈ visits "RegExpLiteral" 1 pattern)
    (htype : visit.parentType = "Alternative") (hraw : visit.node.raw = units " ")
    (hstart : visit.start = run.left.length + run.n) :
    ∃ pattern', pattern'.raw = run.quantified ∧ IsParse G pattern' [] ∧
      ∀ S : Semantics, S.denotation pattern' = S.denotation pattern := by
  rcases inAlternative_of_visit pattern _ _ _ h hvisit htype with rfl | ⟨C, first, later, hpattern, hin⟩
  · exact absurd htype (by simp)
  · obtain ⟨m, hm⟩ : ∃ m, run.n = m + 2 := ⟨run.n - 2, by have := run.two_le; omega⟩
    have hspace : units " " = [32] := by decide
    -- the node is a space
    have hparts := hpattern ▸ h
    replace hparts := isParse_of_fill C [] hparts
    simp only [IsParse] at hparts
    have hnode := partsIsParse_of_append first hparts
    simp only [PartsParse] at hnode
    obtain ⟨escape, hcharacter, -⟩ := (term_ends hnode.2.1 hnode.1.1).2 (by rw [hraw, hspace]; rfl)
    have hescape : escape = [] := by
      rw [hcharacter, raw, hspace] at hraw
      simpa using congrArg List.length hraw
    rw [hcharacter, hescape, List.nil_append] at hpattern
    -- the text before it ends with the other spaces of the run
    have htext : (C.left ++ rawJoined [] first) ++ 32 :: (rawJoined [] later ++ C.right) =
        (run.left ++ spaces (m + 1)) ++ 32 :: run.right := by
      have hrun := (congrArg raw hpattern).symm.trans run.text_eq
      rw [hm, spaces, List.replicate_succ', Context.raw_fill, raw] at hrun
      have hjoined := rawJoined_run [] 0 first later
      rw [List.replicate_zero, List.nil_append, List.nil_append, List.append_nil] at hjoined
      rw [hjoined] at hrun
      simpa [spaces] using hrun
    obtain ⟨hbefore, hright⟩ := List.append_inj htext (by
      simp only [List.length_append, spaces, List.length_replicate]
      omega)
    obtain ⟨pattern', hwell, hraw', hmeaning⟩ := exists_quantified (hpattern ▸ h) run.left_ends hbefore
    refine ⟨pattern', ?_, hwell, fun S => (hmeaning S).trans (congrArg S.denotation hpattern.symm)⟩
    rw [hraw', Run.quantified, hm, hspace, (List.cons.inj hright).2]
    simp

theorem report_fields (hreport : report ∈ reports pattern flags) (hrun : run.Reported report) :
    report.range = (run.left.length + 1, run.left.length + 1 + run.n) ∧ report.text = 32 :: braces run.n := by
  obtain ⟨⟨node, rfl⟩, -, hraw⟩ := report_eq hreport hrun
  exact ⟨range_reportRegExpNode hrun hraw, units_quantifier run.n⟩

theorem Correct.before_eq_nil (hreport : report ∈ reports pattern flags) (hrun : run.Reported report)
    (h : Correct G before after flags run report) : before = [] := by
  obtain ⟨hrange, htext⟩ := report_fields hreport hrun
  exact eq_nil_of_edit (by simpa only [replaceTextRange, hrange, htext] using h.text)

/-- **Exactly the run is replaced, and the language is kept, only where the literal starts the file**, and there for
every run whose last space is an element of an alternative. -/
theorem suggestion_iff (h : IsParse G pattern []) (hreport : report ∈ reports pattern flags)
    (hrun : run.Reported report) :
    (Correct G before after flags run report → before = []) ∧
      (report.regexpNode.parentType = "Alternative" → (Correct G before after flags run report ↔ before = [])) := by
  refine ⟨Correct.before_eq_nil hreport hrun, fun htype => ⟨Correct.before_eq_nil hreport hrun, ?_⟩⟩
  rintro rfl
  obtain ⟨-, hvisit, hraw⟩ := report_eq hreport hrun
  obtain ⟨hrange, htext⟩ := report_fields hreport hrun
  refine ⟨?_, exists_pattern h hvisit htype hraw hrun⟩
  rw [hrange, htext]
  exact replaceTextRange_run

end Reports

/-! ### A literal of the tests -/

/-- Of the letters, the spaces and the numbers of repetitions. -/
def lettersGrammar : Grammar where
  leaf node _ := ∃ unit : ℕ, node = .Character [unit] unit ∧ (unit = 32 ∨ 97 ≤ unit ∧ unit ≤ 122)
  opening _ := False
  quantifier text min max greedy := text = braces min ∧ max = some min ∧ greedy = true
  leaf_ends := by
    rintro node rest ⟨unit, rfl, -⟩
    refine ⟨by simp [raw], fun h => ⟨[], ?_, by simp⟩⟩
    obtain rfl : unit = 32 := by simpa [raw] using h
    rfl
  opening_ends _ h := h.elim
  quantifier_ends := by
    rintro text min max greedy ⟨rfl, -, -⟩
    have hclose : units "\x7d" = [125] := by decide
    simp [braces, hclose]
  quantifier_braces _ := ⟨rfl, rfl, rfl⟩
  leaf_space _ _ _ h := h
  leaf_run _ _ _ _ _ h := h
  leaf_class := by
    rintro opening elements rest ⟨unit, h, -⟩
    cases h

def letter (unit : ℕ) : Node := .Character [unit] unit

/-- `/a   b /` -/
def aSpacesB : Node := .Pattern [.Alternative [letter 97, letter 32, letter 32, letter 32, letter 98, letter 32]]

def aSpacesBRun : Run aSpacesB.raw where
  left := [97]
  n := 3
  right := [98, 32]
  text_eq := by simp [aSpacesB, letter, raw, rawJoined, spaces]
  left_ends := by decide
  right_begins := by decide
  two_le := by decide

def aSpacesBReport : Report := reportRegExpNode ⟨letter 32, 4, "Alternative"⟩ 3 (4, 5)

theorem aSpacesB_isParse : IsParse lettersGrammar aSpacesB [] := by
  simp [aSpacesB, letter, IsParse, PartsParse, IsPart, Node.isAlternative, Node.isTerm, lettersGrammar, following,
    separator, rawJoined, raw, beginsQuantifier]

theorem aSpacesB_reported : aSpacesBReport ∈ reports aSpacesB [] := by
  refine List.mem_filterMap.mpr ⟨⟨letter 32, 4, "Alternative"⟩, ?_, ?_⟩
  · simp [aSpacesB, letter, visits, Node.visitsJoined, Node.type, raw]
  · have hpattern : aSpacesB.raw = [97, 32, 32, 32, 98, 32] := by simp [aSpacesB, letter, raw, rawJoined]
    rw [hpattern]
    rfl

theorem aSpacesB_run : aSpacesBRun.Reported aSpacesBReport := rfl

theorem suggestion_iff_aSpacesB : Correct lettersGrammar [] [] [] aSpacesBRun aSpacesBReport :=
  ((suggestion_iff aSpacesB_isParse aSpacesB_reported aSpacesB_run).2 rfl).mpr rfl

/-- `x = /a   b /` becomes `x  {3}  b /`. -/
theorem assigned_not_replaced : ¬ ∀ (G : Grammar) (pattern : Node) (before after flags : JsString)
    (run : Run pattern.raw) (report : Report), IsParse G pattern [] → report ∈ reports pattern flags →
      run.Reported report → Correct G before after flags run report := by
  intro h
  have hcorrect := h lettersGrammar aSpacesB (units "x = ") [] [] aSpacesBRun aSpacesBReport aSpacesB_isParse
    aSpacesB_reported aSpacesB_run
  exact absurd (hcorrect.before_eq_nil aSpacesB_reported aSpacesB_run) (by decide)

end SonarJavascript.Rules.RegexSpaces
