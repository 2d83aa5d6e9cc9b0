import Mathlib.Algebra.Group.Nat.Defs
import SonarJavascript.Embedded.SnippetLocation
import SonarJavascript.Lib.FirstOccurrence

/-!
# Patching a parsing error

`patchParsingError` moves the line of a parsing error, and the `(line:column)` in its message, from the
snippet into the file. Lines count from 1 and columns from 0; the line of a snippet is known to its parser,
and so is its column, which counts from 1.

`patchParsingError_iff`: both are moved to the position of the error if and only if the snippet is a block
scalar, or the error is on the first line of the snippet, the two line tables agree on a block scalar up to
the error (`LineKept`), and the location is the first of its form in the message (`LocationFirst`).
-/

namespace SonarJavascript.Embedded

open CodeUnit

/-! ### Numbers in a text -/

/-- `\d` -/
def isDigit (c : CodeUnit) : Bool := 0x30 ≤ c && c ≤ 0x39

def decimal (n : ℕ) : Text := units n.repr

/-- The number that a row of digits stands for. -/
def number (digits : Text) : ℕ := digits.foldl (fun n c => 10 * n + (c.toNat - 0x30)) 0

theorem decimal_eq (n : ℕ) : decimal n = (Nat.toDigits 10 n).map fun c => UInt16.ofNat c.toNat := by
  rw [decimal, units, Nat.toList_repr]

theorem toNat_of_isDigit {d : Char} (h : d.isDigit = true) :
    0x30 ≤ d.toNat ∧ d.toNat ≤ 0x39 ∧ (UInt16.ofNat d.toNat).toNat = d.toNat := by
  simp only [Char.isDigit, Bool.and_eq_true, decide_eq_true_eq, ge_iff_le, UInt32.le_iff_toNat_le] at h
  have hle : d.toNat ≤ 0x39 := h.2
  refine ⟨h.1, hle, ?_⟩
  rw [UInt16.toNat_ofNat']
  omega

theorem isDigit_of_mem_decimal {n : ℕ} {c : CodeUnit} (h : c ∈ decimal n) : isDigit c = true := by
  rw [decimal_eq] at h
  obtain ⟨d, hd, rfl⟩ := List.mem_map.mp h
  obtain ⟨hlow, hhigh, heq⟩ := toNat_of_isDigit (Nat.isDigit_of_mem_toDigits (by decide) (by decide) hd)
  simp only [isDigit, Bool.and_eq_true, decide_eq_true_eq, UInt16.le_iff_toNat_le, heq]
  exact ⟨hlow, hhigh⟩

theorem number_decimal (n : ℕ) : number (decimal n) = n := by
  have hdigits : ∀ d ∈ Nat.toDigits 10 n, (UInt16.ofNat d.toNat).toNat = d.toNat := fun d hd =>
    (toNat_of_isDigit (Nat.isDigit_of_mem_toDigits (by decide) (by decide) hd)).2.2
  calc number (decimal n)
      = (Nat.toDigits 10 n).foldl (fun m d => 10 * m + ((UInt16.ofNat d.toNat).toNat - 0x30)) 0 := by
        rw [number, decimal_eq, List.foldl_map]
    _ = (Nat.toDigits 10 n).foldl (fun m d => 10 * m + (d.toNat - 0x30)) 0 :=
        List.foldl_ext _ _ _ fun m d hd => by rw [hdigits d hd]
    _ = n := Nat.ofDigitChars_ten_toDigits

theorem decimal_injective : Function.Injective decimal := fun n m h => by
  rw [← number_decimal n, h, number_decimal]

/-- `/((?<line>\d+):(?<column>\d+))/` at the start of the text: the digits are all that there are. -/
def matchHere (text : Text) : Option (Text × Text) :=
  match text.dropWhile isDigit with
  | [] => none
  | c :: rest =>
    if text.takeWhile isDigit ≠ [] ∧ c = 0x3a ∧ rest.takeWhile isDigit ≠ [] then
      some (text.takeWhile isDigit, rest.takeWhile isDigit)
    else none

/-- The first match, its groups `line` and `column`. -/
def matchLocation : Text → Option (Text × Text)
  | [] => none
  | c :: text => (matchHere (c :: text)).or (matchLocation text)

/-! ### Patching -/

/-- What patching reads of an error: `data.line` may be missing. -/
structure APIError where
  message : Text
  line : Option ℕ

/-- `(line:column)` -/
def token (line column : Text) : Text := 0x28 :: (line ++ 0x3a :: column) ++ [0x29]

variable {Extras : Type}

/-- How a number is written that `column` leads to. It is exact up to 2 ^ 53; `large` writes the others. -/
def numeral (large : Text → ℕ → Text) (column : Text) (n : ℕ) : Text :=
  if n < 2 ^ 53 then decimal n else large column n

def patchedColumn (embeddedJS : EmbeddedJS Extras) (column : ℕ) : ℕ :=
  if embeddedJS.format = .plain then column + embeddedJS.column - 1 else column

def patchParsingErrorMessage (large : Text → ℕ → Text) (message : Text) (patchedLine : ℕ)
    (embeddedJS : EmbeddedJS Extras) : Text :=
  match matchLocation message with
  | none => message
  | some (line, column) =>
    replaceFirst (token line (numeral large column (number column)))
      (token (decimal patchedLine) (numeral large column (patchedColumn embeddedJS (number column)))) message

def patchedLine (embeddedJS : EmbeddedJS Extras) (line : ℕ) : ℕ :=
  if embeddedJS.format = .plain then embeddedJS.line else embeddedJS.line + line

def patchParsingError (large : Text → ℕ → Text) (parsingError : APIError) (embeddedJS : EmbeddedJS Extras) :
    APIError :=
  match parsingError.line with
  | none => parsingError
  | some line =>
    { message := patchParsingErrorMessage large parsingError.message (patchedLine embeddedJS line) embeddedJS
      line := some (patchedLine embeddedJS line) }

/-! ### Positions -/

variable {language : LanguageParser} {js : EmbeddedJS Extras} {start p : ℕ}

/-- A plain snippet is patched as if the error were on its first line, a block scalar as if the parser of
the file saw the same lines. -/
def LineKept (language : LanguageParser) (js : EmbeddedJS Extras) (p : ℕ) : Prop :=
  if js.format = .plain then (locate (lineStarts eslintBreak js.code) p).line = 1
  else locate (lineStarts language.isBreak js.code) p = locate (lineStarts eslintBreak js.code) p

theorem Placed.le_start (h : Placed language js start) (hp : p ≤ js.code.length)
    (hfirst : (locate (lineStarts eslintBreak js.code) p).line = 1) :
    ∀ s ∈ lineStarts language.isBreak js.text, s ≤ start + p → s ≤ start := by
  intro s hs hle
  by_contra hlt
  obtain ⟨k, rfl⟩ : ∃ k, s = start + k := ⟨s - start, by omega⟩
  have hstart := ((mem_lineStarts language.isBreak_LF).mp hs).resolve_left (by omega)
  have hcode := (h.codeAt.isLineStart (by omega) (by omega) hstart).mono fun _ => language.eslintBreak_of_isBreak
  have := (isTable_lineStarts eslintBreak js.code).line_eq_one_iff.mp hfirst k
    ((mem_lineStarts rfl).mpr (.inr hcode)) (by omega)
  omega

theorem Placed.locate_plain (h : Placed language js start) (hplain : js.format = .plain)
    (hline : (locate (lineStarts language.isBreak js.text) (start + p)).line = js.line) :
    locate (lineStarts language.isBreak js.text) (start + p) = ⟨js.line, js.column - 1 + p⟩ := by
  obtain ⟨hstart, hcolumn⟩ := h.plain hplain
  rw [locate_add_of_forall (isTable_lineStarts _ _) fun s hs hle => ?_, hstart]
  by_contra hlt
  have := line_lt_of_mem hs (show start < s by omega) hle
  rw [hline, hstart] at this
  exact absurd this (lt_irrefl _)

/-- In a block scalar. -/
theorem Placed.locate_block (h : Placed language js start) (hplain : js.format ≠ .plain)
    (hp : p ≤ js.code.length) :
    locate (lineStarts language.isBreak js.text) (start + p) =
      ⟨js.line + (locate (lineStarts language.isBreak js.code) p).line,
        (locate (lineStarts language.isBreak js.code) p).column⟩ := by
  obtain ⟨rfl, hstart⟩ := h.block hplain
  have htable := isTable_lineStarts LanguageParser.yaml.isBreak js.code
  have hpos := htable.line_pos p
  rw [locate_add (isTable_lineStarts _ _) htable fun s hs hle => h.codeAt.mem_lineStarts_yaml hs (by omega),
    hstart, Location.mk.injEq]
  refine ⟨by dsimp only; omega, ?_⟩
  split_ifs with hone
  · rw [Nat.zero_add, htable.column_eq_iff.mpr (htable.line_eq_one_iff.mp hone)]
  · rfl

/-- Where the patched line is right, the error is elsewhere in the file than in the snippet. -/
theorem Placed.locate_ne (h : Placed language js start)
    (hline : (locate (lineStarts language.isBreak js.text) (start + p)).line =
      patchedLine js (locate (lineStarts eslintBreak js.code) p).line) :
    locate (lineStarts eslintBreak js.code) p ≠ locate (lineStarts language.isBreak js.text) (start + p) := by
  intro heq
  have htable := isTable_lineStarts eslintBreak js.code
  by_cases hplain : js.format = .plain
  · rw [patchedLine, if_pos hplain] at hline
    obtain ⟨hstart, -⟩ := h.plain hplain
    have hat := h.locate_plain hplain hline
    have hcolumn : (locate (lineStarts eslintBreak js.code) p).column = js.column - 1 + p := by rw [heq, hat]
    have hle : (locate (lineStarts eslintBreak js.code) p).column ≤ p := Nat.sub_le _ _
    -- the error is on the first line of the snippet, so this is the first line of the file
    have hone := htable.line_eq_one_iff.mpr (htable.column_eq_iff.mp (show _ = p by omega))
    have hfile : (locate (lineStarts language.isBreak js.text) start).line = 1 := by
      rw [hstart, ← hline, ← heq, hone]
    have := (isTable_lineStarts _ _).column_eq_iff.mpr ((isTable_lineStarts _ _).line_eq_one_iff.mp hfile)
    have hpos := h.pos
    rw [hstart] at this
    dsimp only at this
    omega
  · rw [patchedLine, if_neg hplain, ← heq] at hline
    have := h.line_pos
    omega

/-- The patched line and column are those of the error in the file. -/
theorem Placed.lineKept_iff (h : Placed language js start) (hp : p ≤ js.code.length) :
    (locate (lineStarts language.isBreak js.text) (start + p)).line =
          patchedLine js (locate (lineStarts eslintBreak js.code) p).line ∧
        (locate (lineStarts language.isBreak js.text) (start + p)).column =
          patchedColumn js (locate (lineStarts eslintBreak js.code) p).column ↔
      LineKept language js p := by
  have htable := isTable_lineStarts eslintBreak js.code
  unfold patchedLine patchedColumn LineKept
  by_cases hplain : js.format = .plain
  · obtain ⟨hstart, hpos⟩ := h.plain hplain
    rw [if_pos hplain, if_pos hplain, if_pos hplain]
    constructor
    · rintro ⟨hline, hcolumn⟩
      rw [h.locate_plain hplain hline] at hcolumn
      refine htable.line_eq_one_iff.mpr (htable.column_eq_iff.mp ?_)
      dsimp only at hcolumn
      omega
    · intro hone
      rw [locate_add_of_forall (isTable_lineStarts _ _) (h.le_start hp hone), hstart,
        htable.column_eq_iff.mpr (htable.line_eq_one_iff.mp hone)]
      exact ⟨rfl, by dsimp only; omega⟩
  · rw [if_neg hplain, if_neg hplain, if_neg hplain, h.locate_block hplain hp]
    constructor
    · rintro ⟨hline, hcolumn⟩
      refine Location.ext_iff.mpr ⟨?_, hcolumn⟩
      dsimp only at hline
      omega
    · intro heq
      rw [heq]
      exact ⟨rfl, rfl⟩

/-! ### The location in the message -/

def Location.token (loc : Location) : Text := Embedded.token (decimal loc.line) (decimal loc.column)

/-- The error is at `loc`, by its line and by its message. -/
structure Reports (error : APIError) (loc : Location) (reason rest : Text) : Prop where
  line : error.line = some loc.line
  message : error.message = reason ++ loc.token ++ rest

/-- The location is the first match in the message, and its first occurrence. -/
structure LocationFirst (message reason : Text) (loc : Location) : Prop where
  matched : ∃ column, matchLocation message = some (decimal loc.line, column) ∧ number column = loc.column
  first : ∀ before after, message = before ++ loc.token ++ after → reason.length ≤ before.length

/-- A number of at least 2 ^ 53 is not written as a smaller one, and there is no parenthesis in it. The
sum from which 1 is taken may be rounded. -/
structure DocumentedNumerals (large : Text → ℕ → Text) : Prop where
  ne_decimal : ∀ column n m, 2 ^ 53 ≤ n → m < 2 ^ 53 - 1 → large column n ≠ decimal m
  noParen : ∀ column n, 0x28 ∉ large column n ∧ 0x29 ∉ large column n

theorem digits_notMem {digits : Text} (h : ∀ c ∈ digits, isDigit c = true) :
    0x28 ∉ digits ∧ 0x29 ∉ digits ∧ 0x3a ∉ digits :=
  ⟨fun hc => absurd (h _ hc) (by decide), fun hc => absurd (h _ hc) (by decide),
    fun hc => absurd (h _ hc) (by decide)⟩

theorem digits_decimal (n : ℕ) : ∀ c ∈ decimal n, isDigit c = true := fun _ => isDigit_of_mem_decimal

theorem digits_of_matchLocation {message line column : Text}
    (h : matchLocation message = some (line, column)) : ∀ c ∈ line, isDigit c = true := by
  induction message with
  | nil => cases h
  | cons c message ih =>
    obtain hhere | ⟨-, hrest⟩ := Option.or_eq_some_iff.mp h
    · unfold matchHere at hhere
      split at hhere
      · cases hhere
      · split_ifs at hhere
        obtain ⟨rfl, -⟩ := Prod.mk.inj (Option.some.inj hhere)
        exact fun c hc => List.mem_takeWhile_imp hc
    · exact ih hrest

theorem bracketed_token {line column : Text} (hline : 0x28 ∉ line ∧ 0x29 ∉ line)
    (hcolumn : 0x28 ∉ column ∧ 0x29 ∉ column) : Bracketed 0x28 0x29 (token line column) where
  ne := by decide
  exists_body := ⟨line ++ 0x3a :: column, rfl, by simp [hline.1, hcolumn.1],
    by simp [hline.2, hcolumn.2]⟩

theorem token_inj {line line' column column' : Text} (hline : ∀ c ∈ line, isDigit c = true)
    (hline' : ∀ c ∈ line', isDigit c = true) :
    token line column = token line' column' ↔ line = line' ∧ column = column' := by
  constructor
  · intro h
    -- up to the colon a token is in brackets too
    have hcolon : ∀ digits : Text, (∀ c ∈ digits, isDigit c = true) →
        Bracketed 0x28 0x3a (0x28 :: digits ++ [0x3a]) := fun digits hdigits =>
      ⟨by decide, digits, rfl, (digits_notMem hdigits).1, (digits_notMem hdigits).2.2⟩
    obtain ⟨heq, hrest⟩ := (hcolon line hline).append_inj (hcolon line' hline')
      (show _ ++ (column ++ [0x29]) = _ ++ (column' ++ [0x29]) by simpa [token] using h)
    exact ⟨by simpa using heq, by simpa using hrest⟩
  · rintro ⟨rfl, rfl⟩
    rfl

section

variable {large : Text → ℕ → Text} (numerals : DocumentedNumerals large)

include numerals

theorem numeral_eq_decimal_iff {column : Text} {n m : ℕ} (hm : m < 2 ^ 53 - 1) :
    numeral large column n = decimal m ↔ n = m := by
  unfold numeral
  split_ifs with hn
  · exact decimal_injective.eq_iff
  · exact iff_of_false (numerals.ne_decimal column n m (by omega) hm) (by omega)

theorem numeral_noParen (column : Text) (n : ℕ) :
    0x28 ∉ numeral large column n ∧ 0x29 ∉ numeral large column n := by
  unfold numeral
  split_ifs
  · exact ⟨(digits_notMem (digits_decimal n)).1, (digits_notMem (digits_decimal n)).2.1⟩
  · exact numerals.noParen column n

/-- The message has the location of the error in the file, on the patched line, if and only if that is
the patched location and the one of the snippet was the first. -/
theorem patchParsingErrorMessage_iff {loc new : Location} (hne : loc ≠ new) (hloc : loc.column < 2 ^ 53 - 1)
    (hnew : new.column < 2 ^ 53 - 1) {reason rest : Text} :
    patchParsingErrorMessage large (reason ++ loc.token ++ rest) new.line js = reason ++ new.token ++ rest ↔
      LocationFirst (reason ++ loc.token ++ rest) reason loc ∧ new.column = patchedColumn js loc.column := by
  have hbracketed : ∀ l : Location, Bracketed 0x28 0x29 l.token := fun l =>
    bracketed_token ((digits_notMem (digits_decimal _)).imp_right And.left)
      ((digits_notMem (digits_decimal _)).imp_right And.left)
  have hinj : ∀ l l' : Location, l.token = l'.token ↔ l = l' := fun l l' => by
    rw [Location.token, Location.token, token_inj (digits_decimal _) (digits_decimal _),
      decimal_injective.eq_iff, decimal_injective.eq_iff, Location.ext_iff]
  have hold : loc.token ≠ new.token := fun h => hne ((hinj _ _).mp h)
  unfold patchParsingErrorMessage
  cases hmatch : matchLocation (reason ++ loc.token ++ rest) with
  | none =>
    refine iff_of_false (fun h => hold (by simpa using h)) fun h => ?_
    obtain ⟨⟨column, hcolumn, -⟩, -⟩ := h.1
    rw [hmatch] at hcolumn
    cases hcolumn
  | some groups =>
    obtain ⟨line, column⟩ := groups
    have hline := digits_of_matchLocation hmatch
    dsimp only
    rw [replaceFirst_eq_iff
        (bracketed_token ((digits_notMem hline).imp_right And.left) (numeral_noParen numerals _ _))
        (bracketed_token ((digits_notMem (digits_decimal _)).imp_right And.left) (numeral_noParen numerals _ _))
        (hbracketed loc) (hbracketed new) hold,
      Location.token, token_inj hline (digits_decimal _), numeral_eq_decimal_iff numerals hloc,
      Location.token, token_inj (digits_decimal _) (digits_decimal _), numeral_eq_decimal_iff numerals hnew]
    constructor
    · rintro ⟨⟨rfl, hcolumn⟩, ⟨-, hpatched⟩, hfirst⟩
      refine ⟨⟨⟨column, hmatch, hcolumn⟩, hfirst⟩, ?_⟩
      rw [← hcolumn]
      exact hpatched.symm
    · rintro ⟨⟨⟨column', hmatch', hcolumn⟩, hfirst⟩, hpatched⟩
      obtain ⟨rfl, rfl⟩ := Prod.mk.inj (Option.some.inj (hmatch.symm.trans hmatch'))
      rw [hcolumn]
      exact ⟨⟨rfl, rfl⟩, ⟨rfl, hpatched.symm⟩, hfirst⟩

end

/-- **When a parsing error is patched right.** The patched line and the location in the patched message are
where the error is in the file if and only if the error is on a line that patching keeps, and the location in
the message of the parser is the first one. -/
theorem patchParsingError_iff {Position : Type} (events : Text → List HtmlEvent) {yaml : YamlLibrary Position}
    (doc : DocumentedPositions yaml) {large : Text → ℕ → Text} (numerals : DocumentedNumerals large)
    (hjs : Produced events yaml language js start) (hcode : js.code ≠ []) (hlength : js.text.length < 2 ^ 53 - 1)
    (hp : p ≤ js.code.length) {error : APIError} {reason rest : Text}
    (herror : Reports error (locate (lineStarts eslintBreak js.code) p) reason rest) :
    Reports (patchParsingError large error js) (locate (lineStarts language.isBreak js.text) (start + p))
        reason rest ↔
      LineKept language js p ∧
        LocationFirst error.message reason (locate (lineStarts eslintBreak js.code) p) := by
  have hplaced := hjs.placed doc hcode
  have hend := hplaced.codeAt.length_le hcode
  have hcolumn : (locate (lineStarts eslintBreak js.code) p).column ≤ p := Nat.sub_le _ _
  have hnew : (locate (lineStarts language.isBreak js.text) (start + p)).column ≤ start + p := Nat.sub_le _ _
  rw [← hplaced.lineKept_iff hp, patchParsingError, herror.line, herror.message]
  constructor
  · rintro ⟨hline, hmessage⟩
    have hline := Option.some.inj hline
    dsimp only at hmessage
    rw [hline] at hmessage
    obtain ⟨hfirst, hpatched⟩ := (patchParsingErrorMessage_iff numerals (hplaced.locate_ne hline.symm)
      (by omega) (by omega)).mp hmessage
    exact ⟨⟨hline.symm, hpatched⟩, hfirst⟩
  · rintro ⟨⟨hline, hpatched⟩, hfirst⟩
    refine ⟨congrArg some hline.symm, ?_⟩
    dsimp only
    rw [← hline]
    exact (patchParsingErrorMessage_iff numerals (hplaced.locate_ne hline) (by omega) (by omega)).mpr
      ⟨hfirst, hpatched⟩

/-! ### Two scripts -/

/-- A library that finds no document. -/
def emptyLibrary : YamlLibrary Unit where
  docs _ := []
  lineStarts := lineStarts LanguageParser.yaml.isBreak
  linePos text p := ((locate (lineStarts LanguageParser.yaml.isBreak text) p).line,
    (locate (lineStarts LanguageParser.yaml.isBreak text) p).column + 1)

theorem documentedPositions_emptyLibrary : DocumentedPositions emptyLibrary where
  plain _ _ hdoc := absurd hdoc List.not_mem_nil
  block _ _ hdoc := absurd hdoc List.not_mem_nil
  linePos _ _ _ := rfl
  rangeStart _ _ hdoc := absurd hdoc List.not_mem_nil

theorem documentedNumerals_nil : DocumentedNumerals fun _ _ => [] where
  ne_decimal _ _ m _ _ h := by
    rw [decimal_eq] at h
    exact Nat.toDigits_ne_nil (List.map_eq_nil_iff.mp h.symm)
  noParen _ _ := ⟨List.not_mem_nil, List.not_mem_nil⟩

/-- The events of a file whose only script ends at `stop`. -/
def scriptEvents (stop : ℕ) : Text → List HtmlEvent := fun _ =>
  [.openTag "script" none none 7, .closeTag "script" stop]

def syntaxError (message : String) (line : ℕ) : APIError := ⟨units message, some line⟩

def lineFile : Text := units "<script>foo(,)</script>"

/-- The script after a line feed. -/
def secondLineFile : Text := units "<script>\nfoo(,)</script>"

/-- On the line of the tag the error is moved by the tag. -/
theorem patchParsingError_iff_line : Reports
    (patchParsingError (fun _ _ => []) (syntaxError "Unexpected token ','. (1:5)" 1) (scriptSnippet lineFile 8 14))
    ⟨1, 13⟩ (units "Unexpected token ','. ") [] := by
  refine (patchParsingError_iff (p := 5) (scriptEvents 14) documentedPositions_emptyLibrary documentedNumerals_nil
    (.html (show scriptSnippet lineFile 8 14 ∈ parseHTML (scriptEvents 14) lineFile from List.mem_cons_self))
    (by decide) (by decide) (by decide) ⟨rfl, by decide⟩).mpr ⟨?_, ⟨units "5", by decide, by decide⟩, fun before after h => ?_⟩
  · rw [LineKept, if_pos (show (scriptSnippet lineFile 8 14).format = .plain from rfl)]
    decide
  · obtain ⟨reason, rest, hsplit, hle⟩ := exists_splitFirst h
    have hreason : splitFirst (Location.token ⟨1, 5⟩) (syntaxError "Unexpected token ','. (1:5)" 1).message =
        some (units "Unexpected token ','. ", []) := by decide
    obtain ⟨rfl, -⟩ := Prod.mk.inj (Option.some.inj (hreason.symm.trans hsplit))
    exact hle

/-- On the next line the error stays on the line of the tag, and moves by the tag. -/
theorem second_line_misplaced :
    scriptSnippet secondLineFile 8 15 ∈ parseHTML (scriptEvents 15) secondLineFile ∧
      Reports (syntaxError "Unexpected token ','. (2:5)" 2)
        (locate (lineStarts eslintBreak (scriptSnippet secondLineFile 8 15).code) 6)
        (units "Unexpected token ','. ") [] ∧
      locate (lineStarts htmlBreak secondLineFile) (8 + 6) = ⟨2, 5⟩ ∧
      patchParsingError (fun _ _ => []) (syntaxError "Unexpected token ','. (2:5)" 2)
        (scriptSnippet secondLineFile 8 15) = syntaxError "Unexpected token ','. (1:13)" 1 ∧
      ¬ Reports (syntaxError "Unexpected token ','. (1:13)" 1) (locate (lineStarts htmlBreak secondLineFile) (8 + 6))
        (units "Unexpected token ','. ") [] :=
  ⟨List.mem_cons_self, ⟨by decide, by decide⟩, by decide, rfl, fun h => absurd h.line (by decide)⟩

end SonarJavascript.Embedded
