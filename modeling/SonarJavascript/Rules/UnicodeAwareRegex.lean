import Mathlib.Data.List.ReduceOption
import Mathlib.Data.Nat.Digits.Lemmas
import SonarJavascript.Rules.RegexSpaces

/-!
# S5867: Unicode constructs without the flag for them

Property escapes are found by an automaton on the text of the literal, and code point escapes by the length of a printed
number. The automaton ends at the slash behind the pattern at the latest, but it only knows names of letters, and the number
also belongs to quantifiers of other escapes: `recognised_iff`.
-/

namespace SonarJavascript.Rules.UnicodeAwareRegex

open Regex
open Regex.Node (Visit visits visits_standsIn)
open RegexSpaces (literal)

/-! ### Numbers as texts -/

/-- The nearest number of 53 binary digits, with an even last one in the middle between two. -/
def roundToDouble (n : ℕ) : ℕ :=
  let unit := 2 ^ (Nat.log2 n + 1 - 53)
  let down := n / unit
  if 2 * (n % unit) < unit ∨ (2 * (n % unit) = unit ∧ down % 2 = 0) then down * unit else (down + 1) * unit

def digitCount (n : ℕ) : ℕ := max 1 (Nat.digits 10 n).length

/-- The decimals with `k` digits around a number, each with the number of zeros behind it. -/
def decimals (x k : ℕ) : List (ℕ × ℕ) :=
  let zeros := digitCount x - k
  let digits := x / 10 ^ zeros
  [(digits, zeros), if digits + 1 = 10 ^ k then (1, zeros + k) else (digits + 1, zeros)]

/-- The shortest decimal that is rounded to the number. -/
def shortestDecimal (x : ℕ) : ℕ × ℕ :=
  (((List.range' 1 17).flatMap (decimals x)).find? fun (digits, zeros) => roundToDouble (digits * 10 ^ zeros) = x).getD (x, 0)

/-- The length of `x.toString()`. A number from 2^1024 on is `Infinity`, one from 10^21 on has an exponent. -/
def printedLength (x : ℕ) : ℕ :=
  if 2 ^ 1024 ≤ x then 8
  else if x < 10 ^ 21 then digitCount x
  else
    let (digits, zeros) := shortestDecimal x
    let count := digitCount digits
    (if count = 1 then 1 else count + 1) + 2 + digitCount (zeros + count - 1)

/-! ### The rule -/

inductive ScanState
  | start
  | openingBracket
  | alpha
  | equal
  | alpha1
  | closingBracket
  /-- Behind the last one. -/
  | finished
  deriving DecidableEq

def isLetter (c : ℕ) : Bool := (65 ≤ c && c ≤ 90) || (97 ≤ c && c ≤ 122)

/-- `/[a-zA-Z]/.test(nextChar)`. Where there is no character, the text `undefined` is tested. -/
def testLetter (nextChar : Option ℕ) : Bool := (nextChar.map isLetter).getD true

namespace ScanState

def next (state : ScanState) (nextChar : Option ℕ) : ScanState :=
  match state with
  | start => if nextChar = some 123 then openingBracket else finished
  | openingBracket => if testLetter nextChar then alpha else finished
  | alpha =>
    if testLetter nextChar then alpha
    else if nextChar = some 61 then equal
    else if nextChar = some 125 then closingBracket
    else finished
  | equal => if testLetter nextChar then alpha1 else finished
  | alpha1 =>
    if testLetter nextChar then alpha1
    else if nextChar = some 125 then closingBracket
    else finished
  | closingBracket | finished => finished

end ScanState

/-- The offset behind the last character that is read, and whether a property is found. -/
def scan (rawPattern : JsString) : ℕ → ScanState → ℕ → Option (ℕ × Bool)
  | 0, _, _ => none
  | fuel + 1, state, offset =>
    if state.next rawPattern[offset]? = .finished then some (offset + 1, state = .closingBracket)
    else scan rawPattern fuel (state.next rawPattern[offset]?) (offset + 1)

structure UnicodeProperty where
  character : Visit
  offset : ℕ

def isProperty (c : JsString) : Bool := c = units "\\p" || c = units "\\P"

/-- The inner option is the property that is pushed. -/
def onCharacterEnter (rawPattern : JsString) (fuel : ℕ) (visit : Visit) : Option (Option UnicodeProperty) :=
  match visit.node with
  | .Character c _ =>
    if isProperty c then
      (scan rawPattern fuel .start (visit.start + c.length)).map fun (offset, found) =>
        if found then some ⟨visit, offset - c.length - 1⟩ else none
    else some none
  | _ => some none

def onQuantifierEnter (node : Node) : Bool :=
  match node with
  | .Quantifier _ min _ _ _ =>
    (units "\\u").isPrefixOf node.raw && !node.raw.contains 44 && [4, 5].contains (printedLength min)
  | _ => false

structure SecondaryLocation where
  regexpNode : Visit
  offset : ℕ × ℕ
  message : String

structure Report where
  message : String
  regexpNode : Node
  secondaryLocations : List SecondaryLocation

def isUnicodeEnabled (flags : JsString) : Bool := 117 ∈ flags

def onRegExpLiteralLeave (regexp : Node) (unicodeProperties : List UnicodeProperty) (unicodeCharacters : List Visit) :
    List Report :=
  if unicodeProperties.length > 0 ∨ unicodeCharacters.length > 0 then
    [⟨"Enable the 'u' flag for this regex using Unicode constructs.", regexp,
      unicodeProperties.map (fun p => ⟨p.character, (0, p.offset), "Unicode property"⟩) ++
        unicodeCharacters.map fun c => ⟨c, (0, 0), "Unicode character"⟩⟩]
  else []

/-- On a literal. There is no result when the fuel does not suffice. -/
def reports (pattern : Node) (flags : JsString) (fuel : ℕ) : Option (List Report) :=
  if isUnicodeEnabled flags then some []
  else
    let nodes := visits "RegExpLiteral" 1 pattern
    (nodes.mapM (onCharacterEnter (literal pattern.raw flags) fuel)).map fun properties =>
      onRegExpLiteralLeave pattern properties.reduceOption (nodes.filter fun visit => onQuantifierEnter visit.node)

/-! ### Unicode constructs -/

/-- A backslash behind an even number of backslashes. -/
def Unescaped (text : JsString) (k : ℕ) : Prop :=
  text[k]? = some 92 ∧ ((text.take k).reverse.takeWhile (· = 92)).length % 2 = 0

instance (text : JsString) (k : ℕ) : Decidable (Unescaped text k) := inferInstanceAs (Decidable (_ ∧ _))

def isHexDigit (c : ℕ) : Bool := isDecimal c || (65 ≤ c && c ≤ 70) || (97 ≤ c && c ≤ 102)

def isNameCharacter (c : ℕ) : Bool := isLetter c || c = 95

def isValueCharacter (c : ℕ) : Bool := isNameCharacter c || isDecimal c

/-- A name and a value, or only one of them. -/
def IsExpression (inName inValue : ℕ → Bool) (text : JsString) : Prop :=
  (text ≠ [] ∧ ∀ c ∈ text, inValue c = true) ∨ ∃ name value, name ≠ [] ∧ value ≠ [] ∧ (∀ c ∈ name, inName c = true) ∧
    (∀ c ∈ value, inValue c = true) ∧ text = name ++ 61 :: value

def UnicodePropertyValueExpression (text : JsString) : Prop := IsExpression isNameCharacter isValueCharacter text

/-- `\p` or `\P` with braces. -/
def HasProperty (expression : JsString → Prop) (text : JsString) : Prop :=
  ∃ k c content, Unescaped text k ∧ (c = 112 ∨ c = 80) ∧ expression content ∧
    92 :: c :: 123 :: (content ++ [125]) <+: text.drop k

def HasCodePoint (text : JsString) : Prop :=
  ∃ k digits, Unescaped text k ∧ (digits.length = 4 ∨ digits.length = 5) ∧ (∀ c ∈ digits, isHexDigit c = true) ∧
    92 :: 117 :: 123 :: (digits ++ [125]) <+: text.drop k

def HasConstruct (text : JsString) : Prop := HasCodePoint text ∨ HasProperty UnicodePropertyValueExpression text

/-- What the parser knows of the escapes with these letters, with the flags and without them. -/
structure Parsed (pattern : Node) (flags : JsString) : Prop where
  escaped_property : 117 ∉ flags → 118 ∉ flags → ∀ visit ∈ visits "RegExpLiteral" 1 pattern, ∀ c value,
    visit.node = .Character [92, c] value → c = 112 ∨ c = 80 → Unescaped pattern.raw (visit.start - 1)
  property_character : 117 ∉ flags → 118 ∉ flags → ∀ k c, Unescaped pattern.raw k → pattern.raw[k + 1]? = some c →
    c = 112 ∨ c = 80 → ∃ visit ∈ visits "RegExpLiteral" 1 pattern, ∃ value, visit.start = k + 1 ∧
      visit.node = .Character [92, c] value
  escaped_quantifier : 117 ∉ flags → 118 ∉ flags → ∀ visit ∈ visits "RegExpLiteral" 1 pattern,
    ∀ element min max greedy text, visit.node = .Quantifier element min max greedy text →
    units "\\u" <+: visit.node.raw → Unescaped pattern.raw (visit.start - 1)
  /-- Small numbers are exact. -/
  min : ∀ visit ∈ visits "RegExpLiteral" 1 pattern, ∀ element min max greedy digits rest,
    visit.node = .Quantifier element min max greedy (123 :: (digits ++ 125 :: rest)) →
    (∀ c ∈ digits, isDecimal c = true) → numeral 10 digits < 2 ^ 53 → min = numeral 10 digits
  /-- With the flag `v`, it is a property. -/
  no_character : 118 ∈ flags → ∀ visit ∈ visits "RegExpLiteral" 1 pattern, ∀ c value,
    visit.node = .Character c value → isProperty c = false

/-- The scan ends for each `\p`, and the last character that it reads is not behind the slash that ends the pattern. -/
def Terminates (pattern : Node) (flags : JsString) : Prop :=
  ∀ visit ∈ visits "RegExpLiteral" 1 pattern, ∀ c value, visit.node = .Character c value → isProperty c = true →
    ∃ offset found, offset ≤ pattern.raw.length + 2 ∧ ∀ fuel > pattern.raw.length,
      scan (literal pattern.raw flags) fuel .start (visit.start + c.length) = some (offset, found)

def Correct (pattern : Node) (flags : JsString) : Prop :=
  (117 ∉ flags → 118 ∉ flags → Terminates pattern flags) ∧
    ∃ found, (∀ fuel > pattern.raw.length, reports pattern flags fuel = some found) ∧
      if 117 ∈ flags ∨ 118 ∈ flags then found = [] else found ≠ [] ↔ HasConstruct pattern.raw

/-- Four or five decimal digits without a zero in front, as a quantifier of `\u`. -/
def IsPlainCodePoint (node : Node) : Prop :=
  ∃ value min max greedy digits mode, node = .Quantifier (.Character (units "\\u") value) min max greedy
      (123 :: (digits ++ 125 :: mode)) ∧ (digits.length = 4 ∨ digits.length = 5) ∧ (∀ c ∈ digits, isDecimal c = true) ∧
    digits.head? ≠ some 48 ∧ (mode = [] ∨ mode = units "?")

/-- There is a construct of a kind that is known. If not, there is a quantifier that is taken for one just if there is one. -/
def Recognised (pattern : Node) (flags : JsString) : Prop :=
  if 117 ∈ flags then True
  else if 118 ∈ flags then ∀ visit ∈ visits "RegExpLiteral" 1 pattern, onQuantifierEnter visit.node = false
  else (HasProperty (IsExpression isLetter isLetter) pattern.raw ∨
      ∃ visit ∈ visits "RegExpLiteral" 1 pattern, IsPlainCodePoint visit.node) ∨
    (HasConstruct pattern.raw ∧ ∃ visit ∈ visits "RegExpLiteral" 1 pattern, onQuantifierEnter visit.node = true) ∨
    (¬ HasConstruct pattern.raw ∧ ∀ visit ∈ visits "RegExpLiteral" 1 pattern, onQuantifierEnter visit.node = false)

/-! ### The automaton -/

section Scan

variable {rawPattern body rest : JsString} {offset : ℕ}

/-- What the scan finds, by the text in front of the slash. -/
def accepts (state : ScanState) : JsString → Bool
  | [] => state = .closingBracket
  | c :: rest => state = .closingBracket || accepts (state.next (some c)) rest

theorem accepts_finished (body : JsString) : accepts .finished body = false := by
  induction body with
  | nil => rfl
  | cons c body ih => exact ih

theorem next_slash (state : ScanState) : state.next (some 47) = .finished := by cases state <;> rfl

/-- By induction on the text in front of the slash: each turn reads one character of it. -/
theorem scan_eq (state : ScanState) (h : rawPattern.drop offset = body ++ 47 :: rest) : ∃ offset', offset' ≤ offset + body.length + 1 ∧
    ∀ fuel > body.length, scan rawPattern fuel state offset = some (offset', accepts state body) := by
  induction body generalizing state offset with
  | nil =>
    have hget : rawPattern[offset]? = some 47 := by rw [← List.head?_drop, h]; rfl
    refine ⟨offset + 1, le_rfl, fun fuel hfuel => ?_⟩
    obtain ⟨fuel, rfl⟩ := Nat.exists_eq_succ_of_ne_zero (Nat.ne_of_gt hfuel)
    rw [scan, hget, next_slash, if_pos rfl, accepts]
  | cons c body ih =>
    have hget : rawPattern[offset]? = some c := by rw [← List.head?_drop, h]; rfl
    have hdrop : rawPattern.drop (offset + 1) = body ++ 47 :: rest := by rw [← List.drop_drop, h]; rfl
    by_cases hnext : state.next (some c) = .finished
    · refine ⟨offset + 1, by omega, fun fuel hfuel => ?_⟩
      obtain ⟨fuel, rfl⟩ := Nat.exists_eq_succ_of_ne_zero (Nat.ne_of_gt (Nat.zero_lt_of_lt hfuel))
      rw [scan, hget, if_pos hnext, accepts, hnext, accepts_finished, Bool.or_false]
    · obtain ⟨offset', hle, hscan⟩ := ih (state.next (some c)) hdrop
      refine ⟨offset', by rw [List.length_cons]; omega, fun fuel hfuel => ?_⟩
      obtain ⟨fuel, rfl⟩ := Nat.exists_eq_succ_of_ne_zero (Nat.ne_of_gt (Nat.zero_lt_of_lt hfuel))
      have hstate : state ≠ .closingBracket := fun heq => hnext (by rw [heq]; rfl)
      rw [scan, hget, if_neg hnext, hscan fuel (by rw [List.length_cons] at hfuel; omega), accepts,
        decide_eq_false hstate, Bool.false_or]

theorem accepts_closingBracket (body : JsString) : accepts .closingBracket body = true := by cases body <;> rfl

theorem accepts_dropWhile (state : ScanState) (hne : state ≠ .closingBracket)
    (hstay : ∀ c, isLetter c = true → state.next (some c) = state) (body : JsString) :
    accepts state (body.dropWhile isLetter) = accepts state body := by
  induction body with
  | nil => rfl
  | cons c body ih =>
    by_cases hletter : isLetter c = true
    · rw [List.dropWhile_cons_of_pos hletter, ih, accepts, decide_eq_false hne, Bool.false_or, hstay c hletter]
    · rw [List.dropWhile_cons_of_neg hletter]

theorem dropWhile_eq_cons_iff {c : ℕ} (hc : isLetter c = false) : body.dropWhile isLetter = c :: rest ↔
    ∃ name, (∀ c ∈ name, isLetter c = true) ∧ body = name ++ c :: rest := by
  constructor
  · intro h
    refine ⟨body.takeWhile isLetter, fun c hmem => List.mem_takeWhile_imp hmem, ?_⟩
    rw [← h, List.takeWhile_append_dropWhile]
  · rintro ⟨name, hname, rfl⟩
    rw [List.dropWhile_append_of_pos hname, List.dropWhile_cons_of_neg (by rw [hc]; exact Bool.false_ne_true)]

theorem isLetter_of_dropWhile {c : ℕ} (h : body.dropWhile isLetter = c :: rest) : isLetter c = false := by
  have hhead := List.head?_dropWhile_not isLetter body
  rw [h, List.head?_cons] at hhead
  simpa using hhead

theorem accepts_alpha1_iff : accepts .alpha1 body = true ↔ ∃ after, body.dropWhile isLetter = 125 :: after := by
  rw [← accepts_dropWhile .alpha1 (by decide) fun c hc => if_pos hc]
  cases hrest : body.dropWhile isLetter with
  | nil => simp [accepts]
  | cons c after =>
    have hletter : testLetter (some c) = false := isLetter_of_dropWhile hrest
    have hstep : accepts .alpha1 (c :: after) = accepts (ScanState.next .alpha1 (some c)) after := rfl
    rw [hstep, ScanState.next, hletter, if_neg Bool.false_ne_true]
    split_ifs with hbrace
    · rw [accepts_closingBracket, Option.some_inj.mp hbrace]
      exact iff_of_true rfl ⟨after, rfl⟩
    · rw [accepts_finished]
      refine iff_of_false Bool.false_ne_true ?_
      rintro ⟨after', heq⟩
      exact hbrace (congrArg some (List.cons.inj heq).1)

theorem accepts_equal_iff : accepts .equal body = true ↔
    ∃ value after, value ≠ [] ∧ (∀ c ∈ value, isLetter c = true) ∧ body = value ++ 125 :: after := by
  cases body with
  | nil => simp [accepts]
  | cons c body =>
    have hstep : accepts .equal (c :: body) = accepts (ScanState.next .equal (some c)) body := rfl
    rw [hstep, ScanState.next]
    split_ifs with hletter
    · rw [accepts_alpha1_iff]
      constructor
      · rintro ⟨after, h⟩
        obtain ⟨value, hvalue, rfl⟩ := (dropWhile_eq_cons_iff (by decide)).mp h
        exact ⟨c :: value, after, List.cons_ne_nil c value, List.forall_mem_cons.mpr ⟨hletter, hvalue⟩, rfl⟩
      · rintro ⟨value, after, hne, hvalue, heq⟩
        obtain ⟨d, value, rfl⟩ := List.exists_cons_of_ne_nil hne
        obtain ⟨rfl, rfl⟩ := List.cons.inj heq
        exact ⟨after, (dropWhile_eq_cons_iff (by decide)).mpr ⟨value, (List.forall_mem_cons.mp hvalue).2, rfl⟩⟩
    · rw [accepts_finished]
      refine iff_of_false Bool.false_ne_true ?_
      rintro ⟨value, after, hne, hvalue, heq⟩
      obtain ⟨d, value, rfl⟩ := List.exists_cons_of_ne_nil hne
      exact hletter ((List.cons.inj heq).1 ▸ (List.forall_mem_cons.mp hvalue).1)

theorem accepts_alpha_iff : accepts .alpha body = true ↔ (∃ after, body.dropWhile isLetter = 125 :: after) ∨
    ∃ after, body.dropWhile isLetter = 61 :: after ∧ accepts .equal after = true := by
  rw [← accepts_dropWhile .alpha (by decide) fun c hc => if_pos hc]
  cases hrest : body.dropWhile isLetter with
  | nil => simp [accepts]
  | cons c after =>
    have hletter : testLetter (some c) = false := isLetter_of_dropWhile hrest
    have hstep : accepts .alpha (c :: after) = accepts (ScanState.next .alpha (some c)) after := rfl
    rw [hstep, ScanState.next, hletter, if_neg Bool.false_ne_true]
    split_ifs with hequal hbrace
    · obtain rfl := Option.some_inj.mp hequal
      simp
    · obtain rfl := Option.some_inj.mp hbrace
      simp [accepts_closingBracket]
    · rw [Option.some_inj] at hequal hbrace
      simp [accepts_finished, hequal, hbrace]

theorem accepts_openingBracket_iff : accepts .openingBracket body = true ↔
    ∃ content after, IsExpression isLetter isLetter content ∧ body = content ++ 125 :: after := by
  cases body with
  | nil =>
    refine iff_of_false Bool.false_ne_true ?_
    rintro ⟨content, after, -, heq⟩
    exact absurd (congrArg List.length heq) (by simp)
  | cons c body =>
    have hstep : accepts .openingBracket (c :: body) = accepts (ScanState.next .openingBracket (some c)) body := rfl
    rw [hstep, ScanState.next]
    split_ifs with hletter
    · rw [accepts_alpha_iff]
      constructor
      · rintro (⟨after, h⟩ | ⟨after, h, hequal⟩)
        · obtain ⟨name, hname, rfl⟩ := (dropWhile_eq_cons_iff (by decide)).mp h
          exact ⟨c :: name, after, Or.inl ⟨List.cons_ne_nil c name, List.forall_mem_cons.mpr ⟨hletter, hname⟩⟩, rfl⟩
        · obtain ⟨name, hname, rfl⟩ := (dropWhile_eq_cons_iff (by decide)).mp h
          obtain ⟨value, after, hne, hvalue, rfl⟩ := accepts_equal_iff.mp hequal
          exact ⟨c :: name ++ 61 :: value, after, Or.inr ⟨c :: name, value, List.cons_ne_nil c name, hne,
            List.forall_mem_cons.mpr ⟨hletter, hname⟩, hvalue, rfl⟩, by simp⟩
      · rintro ⟨content, after, ⟨hne, hcontent⟩ | ⟨name, value, hname_ne, hvalue_ne, hname, hvalue, rfl⟩, heq⟩
        · obtain ⟨d, content, rfl⟩ := List.exists_cons_of_ne_nil hne
          obtain ⟨rfl, rfl⟩ := List.cons.inj heq
          exact Or.inl ⟨after, (dropWhile_eq_cons_iff (by decide)).mpr
            ⟨content, (List.forall_mem_cons.mp hcontent).2, rfl⟩⟩
        · obtain ⟨d, name, rfl⟩ := List.exists_cons_of_ne_nil hname_ne
          rw [List.append_assoc] at heq
          obtain ⟨rfl, rfl⟩ := List.cons.inj heq
          exact Or.inr ⟨value ++ 125 :: after, (dropWhile_eq_cons_iff (by decide)).mpr
            ⟨name, (List.forall_mem_cons.mp hname).2, rfl⟩, accepts_equal_iff.mpr ⟨value, after, hvalue_ne, hvalue, rfl⟩⟩
    · rw [accepts_finished]
      refine iff_of_false Bool.false_ne_true ?_
      rintro ⟨content, after, ⟨hne, hcontent⟩ | ⟨name, value, hne, -, hname, -, rfl⟩, heq⟩
      · obtain ⟨d, content, rfl⟩ := List.exists_cons_of_ne_nil hne
        exact hletter ((List.cons.inj heq).1 ▸ (List.forall_mem_cons.mp hcontent).1)
      · obtain ⟨d, name, rfl⟩ := List.exists_cons_of_ne_nil hne
        exact hletter ((List.cons.inj heq).1 ▸ (List.forall_mem_cons.mp hname).1)

theorem accepts_start_iff : accepts .start body = true ↔
    ∃ content, IsExpression isLetter isLetter content ∧ 123 :: (content ++ [125]) <+: body := by
  cases body with
  | nil => simp [accepts]
  | cons c body =>
    have hstep : accepts .start (c :: body) = accepts (ScanState.next .start (some c)) body := rfl
    rw [hstep, ScanState.next]
    split_ifs with hbrace
    · obtain rfl := Option.some_inj.mp hbrace
      rw [accepts_openingBracket_iff]
      constructor
      · rintro ⟨content, after, hcontent, rfl⟩
        exact ⟨content, hcontent, after, by simp⟩
      · rintro ⟨content, hcontent, after, heq⟩
        exact ⟨content, after, hcontent, by simpa using (List.cons.inj heq).2.symm⟩
    · rw [accepts_finished]
      refine iff_of_false Bool.false_ne_true ?_
      rintro ⟨content, -, after, heq⟩
      exact hbrace (congrArg some (List.cons.inj heq).1.symm)

end Scan

/-! ### The reports -/

section Reports

variable {pattern : Node} {flags : JsString} {visit : Visit} {c value : ℕ}

/-- What is behind the letter of an escape, in the pattern and in the literal. -/
theorem drop_literal (flags : JsString) (hvisit : visit ∈ visits "RegExpLiteral" 1 pattern)
    (hnode : visit.node = .Character [92, c] value) : ∃ after, pattern.raw.drop (visit.start - 1) = 92 :: c :: after ∧
      (literal pattern.raw flags).drop (visit.start + 2) = after ++ 47 :: flags ∧
      visit.start + after.length + 1 = pattern.raw.length := by
  obtain ⟨before, after, hraw, hstart⟩ := visits_standsIn pattern _ 1 hvisit
  have hnode_raw : visit.node.raw = [92, c] := by rw [hnode]; rfl
  have hslash : units "/" = [47] := by decide
  rw [hnode_raw, List.append_assoc] at hraw
  have hliteral : literal pattern.raw flags = (47 :: before ++ [92, c]) ++ (after ++ 47 :: flags) := by
    rw [literal, hslash, hraw]
    simp
  refine ⟨after, ?_, ?_, ?_⟩
  · rw [hraw, hstart, Nat.add_sub_cancel_left, List.drop_left]
    rfl
  · rw [hliteral, List.drop_left' (by rw [hstart]; simp; omega)]
  · rw [hraw, hstart]
    simp
    omega

/-- The automaton accepts what is behind the letter. -/
def Finds (pattern : Node) (visit : Visit) : Prop :=
  ∃ c value after, visit.node = .Character [92, c] value ∧ (c = 112 ∨ c = 80) ∧
    pattern.raw.drop (visit.start - 1) = 92 :: c :: after ∧ accepts .start after = true

theorem isProperty_iff {text : JsString} : isProperty text = true ↔ ∃ c, text = [92, c] ∧ (c = 112 ∨ c = 80) := by
  have hunits : units "\\p" = [92, 112] ∧ units "\\P" = [92, 80] := by decide
  rw [isProperty, hunits.1, hunits.2, Bool.or_eq_true, decide_eq_true_iff, decide_eq_true_iff]
  constructor
  · rintro (rfl | rfl)
    · exact ⟨112, rfl, Or.inl rfl⟩
    · exact ⟨80, rfl, Or.inr rfl⟩
  · rintro ⟨c, rfl, rfl | rfl⟩
    · exact Or.inl rfl
    · exact Or.inr rfl

/-- The scan ends at the slash at the latest. -/
theorem scan_visit (flags : JsString) (hvisit : visit ∈ visits "RegExpLiteral" 1 pattern)
    (hnode : visit.node = .Character [92, c] value) : ∃ offset after, offset ≤ pattern.raw.length + 2 ∧
      pattern.raw.drop (visit.start - 1) = 92 :: c :: after ∧ ∀ fuel > pattern.raw.length,
      scan (literal pattern.raw flags) fuel .start (visit.start + 2) = some (offset, accepts .start after) := by
  obtain ⟨after, hdrop, hliteral, hlength⟩ := drop_literal flags hvisit hnode
  obtain ⟨offset, hle, hscan⟩ := scan_eq .start hliteral
  exact ⟨offset, after, by omega, hdrop, fun fuel hfuel => hscan fuel (by omega)⟩

theorem terminates (pattern : Node) (flags : JsString) : Terminates pattern flags := by
  intro visit hvisit text value hnode hproperty
  obtain ⟨c, rfl, -⟩ := isProperty_iff.mp hproperty
  obtain ⟨offset, after, hle, -, hscan⟩ := scan_visit flags hvisit hnode
  exact ⟨offset, _, hle, hscan⟩

theorem onCharacterEnter_eq (flags : JsString) (hvisit : visit ∈ visits "RegExpLiteral" 1 pattern) :
    ∃ property, (property.isSome ↔ Finds pattern visit) ∧ ∀ fuel > pattern.raw.length,
      onCharacterEnter (literal pattern.raw flags) fuel visit = some property := by
  by_cases hcharacter : ∃ text value, visit.node = .Character text value ∧ isProperty text = true
  · obtain ⟨text, value, hnode, hproperty⟩ := hcharacter
    obtain ⟨c, rfl, hc⟩ := isProperty_iff.mp hproperty
    obtain ⟨offset, after, -, hdrop, hscan⟩ := scan_visit flags hvisit hnode
    refine ⟨if accepts .start after then some ⟨visit, offset - 2 - 1⟩ else none, ?_, fun fuel hfuel => ?_⟩
    · constructor
      · intro hsome
        split_ifs at hsome with haccepts
        · exact ⟨c, value, after, hnode, hc, hdrop, haccepts⟩
        · exact nomatch hsome
      · rintro ⟨c', value', after', hnode', -, hdrop', haccepts⟩
        rw [hdrop] at hdrop'
        obtain rfl : after = after' := (List.cons.inj (List.cons.inj hdrop').2).2
        rw [if_pos haccepts]
        rfl
    · rw [onCharacterEnter, hnode]
      dsimp only
      rw [if_pos hproperty, List.length_cons, List.length_singleton, hscan fuel hfuel]
      rfl
  · refine ⟨none, iff_of_false Bool.false_ne_true ?_, fun fuel _ => ?_⟩
    · rintro ⟨c, value, after, hnode, hc, -⟩
      exact hcharacter ⟨_, value, hnode, isProperty_iff.mpr ⟨c, rfl, hc⟩⟩
    · unfold onCharacterEnter
      split
      case h_1 text value hnode => rw [if_neg fun hproperty => hcharacter ⟨text, value, hnode, hproperty⟩]
      case h_2 => rfl

/-- By induction on the nodes that are visited. -/
theorem mapM_onCharacterEnter (flags : JsString) {nodes : List Visit}
    (h : ∀ visit ∈ nodes, visit ∈ visits "RegExpLiteral" 1 pattern) : ∃ properties,
      (properties.reduceOption ≠ [] ↔ ∃ visit ∈ nodes, Finds pattern visit) ∧ ∀ fuel > pattern.raw.length,
      nodes.mapM (onCharacterEnter (literal pattern.raw flags) fuel) = some properties := by
  induction nodes with
  | nil => exact ⟨[], by simp, fun _ _ => rfl⟩
  | cons visit nodes ih =>
    obtain ⟨properties, hfinds, hproperties⟩ := ih (List.forall_mem_cons.mp h).2
    obtain ⟨property, hfind, hproperty⟩ := onCharacterEnter_eq flags (List.forall_mem_cons.mp h).1
    refine ⟨property :: properties, ?_, fun fuel hfuel => ?_⟩
    · rw [List.exists_mem_cons_iff, ← hfind, ← hfinds]
      cases property with
      | none => simp
      | some property => simp
    · rw [List.mapM_cons, hproperty fuel hfuel, hproperties fuel hfuel]
      rfl

theorem exists_reports (pattern : Node) (hflag : 117 ∉ flags) : ∃ found, (∀ fuel > pattern.raw.length, reports pattern flags fuel = some found) ∧
    (found ≠ [] ↔ (∃ visit ∈ visits "RegExpLiteral" 1 pattern, Finds pattern visit) ∨
      ∃ visit ∈ visits "RegExpLiteral" 1 pattern, onQuantifierEnter visit.node = true) := by
  obtain ⟨properties, hfinds, hproperties⟩ := mapM_onCharacterEnter flags fun visit
    (hvisit : visit ∈ visits "RegExpLiteral" 1 pattern) => hvisit
  refine ⟨onRegExpLiteralLeave pattern properties.reduceOption ((visits "RegExpLiteral" 1 pattern).filter fun visit =>
    onQuantifierEnter visit.node), fun fuel hfuel => ?_, ?_⟩
  · have henabled : isUnicodeEnabled flags = false := decide_eq_false hflag
    rw [reports, henabled, if_neg Bool.false_ne_true]
    dsimp only
    rw [hproperties fuel hfuel]
    rfl
  · rw [← hfinds, onRegExpLiteralLeave]
    have hcharacters : ((visits "RegExpLiteral" 1 pattern).filter fun visit => onQuantifierEnter visit.node) ≠ [] ↔
        ∃ visit ∈ visits "RegExpLiteral" 1 pattern, onQuantifierEnter visit.node = true := by
      rw [Ne, List.filter_eq_nil_iff]
      push Not
      rfl
    rw [← hcharacters]
    split_ifs with hsome
    · exact iff_of_true (List.cons_ne_nil _ _) (hsome.imp List.ne_nil_of_length_pos List.ne_nil_of_length_pos)
    · exact iff_of_false (fun h => h rfl)
        fun h => hsome (h.imp List.length_pos_iff.mpr List.length_pos_iff.mpr)

/-- A property escape with letters is one of the characters with an expression behind it. -/
theorem exists_finds_iff (h : Parsed pattern flags) (hflag : 117 ∉ flags) (hflag' : 118 ∉ flags) :
    (∃ visit ∈ visits "RegExpLiteral" 1 pattern, Finds pattern visit) ↔
      HasProperty (IsExpression isLetter isLetter) pattern.raw := by
  constructor
  · rintro ⟨visit, hvisit, c, value, after, hnode, hc, hdrop, haccepts⟩
    obtain ⟨content, hcontent, hbegins⟩ := accepts_start_iff.mp haccepts
    refine ⟨visit.start - 1, c, content, h.escaped_property hflag hflag' visit hvisit c value hnode hc, hc, hcontent, ?_⟩
    rw [hdrop]
    exact List.cons_prefix_cons.mpr ⟨rfl, List.cons_prefix_cons.mpr ⟨rfl, hbegins⟩⟩
  · rintro ⟨k, c, content, hk, hc, hcontent, hbegins⟩
    have hletter : pattern.raw[k + 1]? = some c := by
      obtain ⟨rest, hrest⟩ := hbegins
      rw [← List.getElem?_drop, ← hrest]
      rfl
    obtain ⟨visit, hvisit, value, hstart, hnode⟩ := h.property_character hflag hflag' k c hk hletter hc
    obtain ⟨after, hdrop, -⟩ := drop_literal flags hvisit hnode
    refine ⟨visit, hvisit, c, value, after, hnode, hc, hdrop, accepts_start_iff.mpr ⟨content, hcontent, ?_⟩⟩
    rw [hstart, Nat.add_sub_cancel] at hdrop
    rw [hdrop] at hbegins
    exact (List.cons_prefix_cons.mp (List.cons_prefix_cons.mp hbegins).2).2

end Reports

/-! ### Constructs that are known -/

section Known

variable {pattern : Node} {flags : JsString} {visit : Visit} {digits : JsString}

theorem IsExpression.mono {inName inName' inValue inValue' : ℕ → Bool} {text : JsString}
    (hname : ∀ c, inName c = true → inName' c = true) (hvalue : ∀ c, inValue c = true → inValue' c = true)
    (h : IsExpression inName inValue text) : IsExpression inName' inValue' text := by
  rcases h with ⟨hne, htext⟩ | ⟨name, value, hname_ne, hvalue_ne, hin, hin', rfl⟩
  · exact Or.inl ⟨hne, fun c hc => hvalue c (htext c hc)⟩
  · exact Or.inr ⟨name, value, hname_ne, hvalue_ne, fun c hc => hname c (hin c hc), fun c hc => hvalue c (hin' c hc), rfl⟩

theorem hasConstruct_of_property {text : JsString} (h : HasProperty (IsExpression isLetter isLetter) text) :
    HasConstruct text := by
  obtain ⟨k, c, content, hk, hc, hcontent, hbegins⟩ := h
  refine Or.inr ⟨k, c, content, hk, hc, hcontent.mono (fun c hletter => ?_) (fun c hletter => ?_), hbegins⟩
  · rw [isNameCharacter, hletter, Bool.true_or]
  · rw [isValueCharacter, isNameCharacter, hletter, Bool.true_or, Bool.true_or]

theorem hasConstruct_of_codePoint (h : Parsed pattern flags) (hflag : 117 ∉ flags) (hflag' : 118 ∉ flags)
    (hvisit : visit ∈ visits "RegExpLiteral" 1 pattern) (hplain : IsPlainCodePoint visit.node) :
    HasConstruct pattern.raw := by
  obtain ⟨value, min, max, greedy, digits, mode, hnode, hlength, hdigits, -, -⟩ := hplain
  have hunits : units "\\u" = [92, 117] := by decide
  have hraw : visit.node.raw = [92, 117] ++ 123 :: (digits ++ 125 :: mode) := by
    rw [hnode, hunits]
    rfl
  have hescaped := h.escaped_quantifier hflag hflag' visit hvisit _ _ _ _ _ hnode (by
    rw [hraw, hunits]
    exact List.prefix_append _ _)
  obtain ⟨before, after, htext, hstart⟩ := visits_standsIn pattern _ 1 hvisit
  refine Or.inl ⟨visit.start - 1, digits, hescaped, hlength, fun c hc => ?_, mode ++ after, ?_⟩
  · rw [isHexDigit, hdigits c hc, Bool.true_or, Bool.true_or]
  · rw [htext, hstart, Nat.add_sub_cancel_left, List.append_assoc, List.drop_left, hraw]
    simp

/-- Each decimal digit makes a number ten times as large. -/
theorem numeral_bounds (n : ℕ) (hdigits : ∀ c ∈ digits, isDecimal c = true) :
    n * 10 ^ digits.length ≤ digits.foldl (fun n c => n * 10 + (digit? c).getD 0) n ∧
      digits.foldl (fun n c => n * 10 + (digit? c).getD 0) n < (n + 1) * 10 ^ digits.length := by
  induction digits generalizing n with
  | nil => simp
  | cons c digits ih =>
    obtain ⟨hc, hrest⟩ := List.forall_mem_cons.mp hdigits
    obtain ⟨hlower, hupper⟩ := ih (n * 10 + (digit? c).getD 0) hrest
    have hdigit : (digit? c).getD 0 < 10 := by
      rw [isDecimal, Bool.and_eq_true, decide_eq_true_iff, decide_eq_true_iff] at hc
      rw [digit?, if_pos hc, Option.getD_some]
      omega
    rw [List.foldl_cons, List.length_cons, Nat.pow_succ']
    constructor
    · refine le_trans ?_ hlower
      rw [← Nat.mul_assoc]
      exact Nat.mul_le_mul_right _ (Nat.le_add_right _ _)
    · refine lt_of_lt_of_le hupper ?_
      rw [← Nat.mul_assoc]
      exact Nat.mul_le_mul_right _ (by omega)

theorem numeral_plain (hlength : digits.length = 4 ∨ digits.length = 5) (hdigits : ∀ c ∈ digits, isDecimal c = true)
    (hhead : digits.head? ≠ some 48) : 10 ^ 3 ≤ numeral 10 digits ∧ numeral 10 digits < 10 ^ 5 := by
  cases digits with
  | nil => exact absurd hlength (by decide)
  | cons c digits =>
    obtain ⟨hc, hrest⟩ := List.forall_mem_cons.mp hdigits
    rw [isDecimal, Bool.and_eq_true, decide_eq_true_iff, decide_eq_true_iff] at hc
    have hne : c ≠ 48 := fun h => hhead (congrArg some h)
    have hdigit : (digit? c).getD 0 = c - 48 := by rw [digit?, if_pos hc, Option.getD_some]
    obtain ⟨hlower, hupper⟩ := numeral_bounds (0 * 10 + (digit? c).getD 0) hrest
    rw [hdigit] at hlower hupper
    have hnumeral : numeral 10 (c :: digits) =
        digits.foldl (fun n c => n * 10 + (digit? c).getD 0) (0 * 10 + (c - 48)) := by rw [← hdigit]; rfl
    rw [hnumeral]
    rw [List.length_cons] at hlength
    rcases hlength with hlength | hlength
    · rw [show digits.length = 3 by omega] at hlower hupper
      omega
    · rw [show digits.length = 4 by omega] at hlower hupper
      omega

theorem printedLength_plain {n : ℕ} (hlower : 10 ^ 3 ≤ n) (hupper : n < 10 ^ 5) :
    printedLength n = 4 ∨ printedLength n = 5 := by
  have hle := (Nat.digits_length_le_iff (by decide : 1 < 10) n).mpr hupper
  have hlt := (Nat.lt_digits_length_iff (by decide : 1 < 10) n).mpr hlower
  rw [printedLength, if_neg (by omega), if_pos (by omega), digitCount]
  omega

theorem onQuantifierEnter_plain (h : Parsed pattern flags) (hvisit : visit ∈ visits "RegExpLiteral" 1 pattern)
    (hplain : IsPlainCodePoint visit.node) : onQuantifierEnter visit.node = true := by
  obtain ⟨value, min, max, greedy, digits, mode, hnode, hlength, hdigits, hhead, hmode⟩ := hplain
  obtain ⟨hlower, hupper⟩ := numeral_plain hlength hdigits hhead
  have hmin := h.min visit hvisit _ _ _ _ digits mode hnode hdigits (by omega)
  have hunits : units "\\u" = [92, 117] ∧ units "?" = [63] := by decide
  have hcomma : 44 ∉ digits := fun hmem => absurd (hdigits 44 hmem) (by decide)
  have hprinted : [4, 5].contains (printedLength min) = true := by
    rw [hmin]
    rcases printedLength_plain hlower hupper with hprinted | hprinted <;> rw [hprinted] <;> rfl
  rw [hnode, onQuantifierEnter, hprinted, Bool.and_true, Bool.and_eq_true]
  constructor
  · exact List.isPrefixOf_iff_prefix.mpr (List.prefix_append _ _)
  · rw [Bool.not_eq_true', ← Bool.not_eq_true, List.contains_iff_mem]
    simp only [Node.raw, hunits.1, List.mem_append, List.mem_cons, List.not_mem_nil]
    rcases hmode with rfl | rfl
    · simpa using hcomma
    · rw [hunits.2]
      simpa using hcomma

end Known

section Main

variable {pattern : Node} {flags : JsString}

theorem not_finds (h : Parsed pattern flags) (hflag : 118 ∈ flags) :
    ¬ ∃ visit ∈ visits "RegExpLiteral" 1 pattern, Finds pattern visit := by
  rintro ⟨visit, hvisit, c, value, after, hnode, hc, -⟩
  have hproperty := h.no_character hflag visit hvisit _ _ hnode
  rw [isProperty_iff.mpr ⟨c, rfl, hc⟩] at hproperty
  exact nomatch hproperty

theorem correct_iff {found : List Report} (hreports : ∀ fuel > pattern.raw.length, reports pattern flags fuel = some found) :
    Correct pattern flags ↔ if 117 ∈ flags ∨ 118 ∈ flags then found = [] else found ≠ [] ↔ HasConstruct pattern.raw := by
  constructor
  · rintro ⟨-, found', hreports', hfound⟩
    have heq := (hreports _ (Nat.lt_succ_self _)).symm.trans (hreports' _ (Nat.lt_succ_self _))
    rwa [Option.some_inj.mp heq]
  · exact fun hfound => ⟨fun _ _ => terminates pattern flags, found, hreports, hfound⟩

/-- What is reported is a property or a quantifier that is taken for a construct. -/
theorem known_iff {property codePoint construct taken : Prop} (hproperty : property → construct)
    (hcodePoint : codePoint → construct ∧ taken) :
    ((property ∨ taken) ↔ construct) ↔
      ((property ∨ codePoint) ∨ (construct ∧ taken) ∨ (¬ construct ∧ ¬ taken)) := by
  tauto

end Main

/-- The rule recognises the constructs. -/
theorem recognised_iff (pattern : Node) (flags : JsString) (h : Parsed pattern flags) :
    Correct pattern flags ↔ Recognised pattern flags := by
  unfold Recognised
  by_cases hflag : 117 ∈ flags
  · have hreports : ∀ fuel > pattern.raw.length, reports pattern flags fuel = some [] := by
      intro fuel _
      have henabled : isUnicodeEnabled flags = true := decide_eq_true hflag
      rw [reports, if_pos henabled]
    rw [correct_iff hreports, if_pos (Or.inl hflag), if_pos hflag]
    exact iff_of_true rfl trivial
  · obtain ⟨found, hreports, hfound⟩ := exists_reports pattern hflag
    rw [correct_iff hreports, if_neg hflag]
    by_cases hflag' : 118 ∈ flags
    · rw [if_pos (Or.inr hflag'), if_pos hflag']
      rw [or_iff_right (not_finds h hflag'), ← not_iff_not, not_not] at hfound
      rw [hfound]
      push Not
      simp only [Bool.not_eq_true]
    · rw [if_neg (by tauto), if_neg hflag', hfound, exists_finds_iff h hflag hflag']
      have hproperty : HasProperty (IsExpression isLetter isLetter) pattern.raw → HasConstruct pattern.raw :=
        hasConstruct_of_property
      have hcodePoint : (∃ visit ∈ visits "RegExpLiteral" 1 pattern, IsPlainCodePoint visit.node) →
          HasConstruct pattern.raw ∧ ∃ visit ∈ visits "RegExpLiteral" 1 pattern, onQuantifierEnter visit.node = true := by
        rintro ⟨visit, hvisit, hplain⟩
        exact ⟨hasConstruct_of_codePoint h hflag hflag' hvisit hplain, visit, hvisit,
          onQuantifierEnter_plain h hvisit hplain⟩
      rw [known_iff hproperty hcodePoint]
      push Not
      simp only [Bool.not_eq_true]

/-! ### Properties of letters and of other characters -/

/-- The pattern that is parsed from a name in `\p\x7b\x7d`. -/
def propertyPattern (name : JsString) : Node :=
  .Pattern [.Alternative (.Character [92, 112] 112 :: (123 :: (name ++ [125])).map fun c => .Character [c] c)]

section Example

variable {name : JsString} {visit : Visit}

theorem mem_visitsJoined_map {parentType : String} {start : ℕ} {text : JsString}
    (h : visit ∈ Node.visitsJoined parentType [] start (text.map fun c => .Character [c] c)) :
    ∃ c ∈ text, visit.node = .Character [c] c := by
  induction text generalizing start with
  | nil =>
    rw [List.map_nil, Node.visitsJoined] at h
    exact nomatch h
  | cons c text ih =>
    rw [List.map_cons, Node.visitsJoined, visits] at h
    rcases List.mem_cons.mp h with rfl | h
    · exact ⟨c, List.mem_cons_self, rfl⟩
    · obtain ⟨d, hd, hnode⟩ := ih h
      exact ⟨d, List.mem_cons_of_mem c hd, hnode⟩

theorem rawJoined_nil_cons (node : Node) (nodes : List Node) :
    Node.rawJoined [] (node :: nodes) = node.raw ++ Node.rawJoined [] nodes := by
  cases nodes with
  | nil => rw [Node.rawJoined, Node.rawJoined, List.append_nil]
  | cons next nodes => rw [Node.rawJoined, List.append_nil]; exact List.cons_ne_nil next nodes

theorem rawJoined_map (text : JsString) : Node.rawJoined [] (text.map fun c => .Character [c] c) = text := by
  induction text with
  | nil => rfl
  | cons c text ih =>
    rw [List.map_cons, rawJoined_nil_cons, ih]
    rfl

theorem raw_propertyPattern : (propertyPattern name).raw = 92 :: 112 :: 123 :: (name ++ [125]) := by
  rw [propertyPattern, Node.raw, Node.rawJoined, Node.raw, rawJoined_nil_cons, rawJoined_map]
  rfl

theorem mem_visits_propertyPattern (h : visit ∈ visits "RegExpLiteral" 1 (propertyPattern name)) :
    (∃ nodes, visit.node = .Pattern nodes) ∨ (∃ nodes, visit.node = .Alternative nodes) ∨
      (visit.node = .Character [92, 112] 112 ∧ visit.start = 1) ∨ ∃ c, visit.node = .Character [c] c := by
  rw [propertyPattern, visits, Node.visitsJoined, Node.visitsJoined, List.append_nil, visits, Node.visitsJoined, visits] at h
  rcases List.mem_cons.mp h with rfl | h
  · exact Or.inl ⟨_, rfl⟩
  rcases List.mem_cons.mp h with rfl | h
  · exact Or.inr (Or.inl ⟨_, rfl⟩)
  rcases List.mem_cons.mp h with rfl | h
  · exact Or.inr (Or.inr (Or.inl ⟨rfl, rfl⟩))
  · obtain ⟨c, -, hnode⟩ := mem_visitsJoined_map h
    exact Or.inr (Or.inr (Or.inr ⟨c, hnode⟩))

theorem parsed_propertyPattern (hname : 92 ∉ name) : Parsed (propertyPattern name) [] where
  escaped_property _ _ visit hvisit c value hnode _ := by
    rcases mem_visits_propertyPattern hvisit with ⟨_, h⟩ | ⟨_, h⟩ | ⟨-, hstart⟩ | ⟨_, h⟩
    · exact nomatch hnode.symm.trans h
    · exact nomatch hnode.symm.trans h
    · rw [hstart, raw_propertyPattern]
      exact ⟨rfl, rfl⟩
    · exact nomatch hnode.symm.trans h
  property_character _ _ k c hk hletter _ := by
    rw [raw_propertyPattern] at hk hletter
    cases k with
    | zero =>
      obtain rfl := Option.some_inj.mp hletter
      refine ⟨⟨.Character [92, 112] 112, 1, "Alternative"⟩, ?_, 112, rfl, rfl⟩
      rw [propertyPattern, visits, Node.visitsJoined, Node.visitsJoined, List.append_nil, visits, Node.visitsJoined, visits]
      exact List.mem_cons_of_mem _ (List.mem_cons_of_mem _ List.mem_cons_self)
    | succ k =>
      have hget := hk.1
      rw [List.getElem?_cons_succ] at hget
      have hmem := List.mem_of_getElem? hget
      simp [hname] at hmem
  escaped_quantifier _ _ visit hvisit element min max greedy text hnode _ := by
    rcases mem_visits_propertyPattern hvisit with ⟨_, h⟩ | ⟨_, h⟩ | ⟨h, -⟩ | ⟨_, h⟩ <;> exact nomatch hnode.symm.trans h
  min visit hvisit element min max greedy digits rest hnode _ _ := by
    rcases mem_visits_propertyPattern hvisit with ⟨_, h⟩ | ⟨_, h⟩ | ⟨h, -⟩ | ⟨_, h⟩ <;> exact nomatch hnode.symm.trans h
  no_character hflag := nomatch hflag

end Example

theorem recognised_iff_letters : Correct (propertyPattern (units "Alpha")) [] ↔
    Recognised (propertyPattern (units "Alpha")) [] :=
  recognised_iff _ _ (parsed_propertyPattern (by decide))

theorem low_line_missed : ¬ ∀ pattern flags, Parsed pattern flags → Correct pattern flags := by
  intro h
  obtain ⟨-, found, hreports, hfound⟩ := h _ _ (parsed_propertyPattern (by decide : 92 ∉ units "ID_Start"))
  obtain rfl : [] = found := Option.some_inj.mp (hreports 13 (by decide))
  refine hfound.mpr (Or.inr ⟨0, 112, units "ID_Start", by decide, Or.inl rfl, Or.inl ⟨by decide, by decide⟩, ?_⟩) rfl
  rw [raw_propertyPattern]
  exact List.prefix_refl _

end SonarJavascript.Rules.UnicodeAwareRegex
