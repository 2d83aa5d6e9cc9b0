import SonarJavascript.Linter.QuickFixes

/-!
# From the messages of a file to its issues

`transformMessages` takes the paths of ucfg files and the two internal metrics out of the messages of the linter, decodes
the messages of the rules with secondary locations and converts the rest as it is.

`transport_iff`: every other message of a rule of the plugin becomes one issue, in order, with what the message carries, and
the issue and the edits of its quick fixes come back at their ranges if and only if these survive.
-/

namespace SonarJavascript.Linter.QuickFixes

open Embedded CodeUnit
open EncodedMessage (JsString Schema Properties Properties.get IssueLocation hasSonarRuntimeOption encodeContents contents
  get_append get_optional get_optional_of_ne)
open Json (Value NumberFormat parse)

variable {Num : Type}

/-! ### Decoding -/

def stringOf : Value Num → Option JsString
  | .string s => some s
  | _ => none

def numberOf : Value Num → Option Num
  | .number n => some n
  | _ => none

/-- The member of an object at its type. -/
def member {α : Type} (members : Properties (Value Num)) (key : String) (read : Value Num → Option α) : Option α :=
  (members.get (EncodedMessage.units key)).bind read

/-- A member that may be missing. -/
def optionalMember {α : Type} (members : Properties (Value Num)) (key : String) (read : Value Num → Option α) :
    Option (Option α) :=
  match members.get (EncodedMessage.units key) with
  | none => some none
  | some value => (read value).map some

def locationOf : Value Num → Option (IssueLocation Num)
  | .object members => do
    let column ← member members "column" numberOf
    let line ← member members "line" numberOf
    let endColumn ← member members "endColumn" numberOf
    let endLine ← member members "endLine" numberOf
    let message ← optionalMember members "message" stringOf
    some ⟨column, line, endColumn, endLine, message⟩
  | _ => none

def locationsOf : Value Num → Option (List (IssueLocation Num))
  | .array items => items.mapM locationOf
  | _ => none

/-- `{ ...issue, ...value }`. A value that is no object has no property that an issue has. -/
def spread (issue : Issue Num) : Value Num → Option (Issue Num)
  | .object members =>
    if members.all fun m => (["message", "secondaryLocations", "cost"].map EncodedMessage.units).contains m.1 then do
      let message ← optionalMember members "message" stringOf
      let secondaryLocations ← optionalMember members "secondaryLocations" locationsOf
      let cost ← optionalMember members "cost" numberOf
      some { issue with
        message := message.getD issue.message
        secondaryLocations := secondaryLocations.getD issue.secondaryLocations
        cost := cost.or issue.cost }
    else none
  | _ => some issue

variable (format : NumberFormat Num)

def decodeSonarRuntime (schema : Option Schema) (issue : Issue Num) : Except Thrown (Issue Num) :=
  if hasSonarRuntimeOption schema then
    match parse format issue.message with
    | none => .error (.invalidEncoding issue.ruleId issue.message)
    | some encodedMessage =>
      match spread issue encodedMessage with
      | none => .error (.otherType issue.message)
      | some decoded => .ok decoded
  else .ok issue

/-! ### Extracting -/

def findAndRemoveFirstIssue (ruleId : String) : List (Issue Num) → Option (Issue Num) × List (Issue Num)
  | [] => (none, [])
  | issue :: issues =>
    if issue.ruleId = ruleId then (some issue, issues)
    else
      let (found, rest) := findAndRemoveFirstIssue ruleId issues
      (found, issue :: rest)

def symbolHighlightingRule : String := "internal-symbol-highlighting"

def cognitiveComplexityRule : String := "internal-cognitive-complexity"

/-- The symbols as the JSON that the rule reports, and the issues that are left. -/
def extractHighlightedSymbols (issues : List (Issue Num)) : Except Thrown (Value Num × List (Issue Num)) :=
  match findAndRemoveFirstIssue symbolHighlightingRule issues with
  | (none, rest) => .ok (.array [], rest)
  | (some issue, rest) =>
    match parse format issue.message with
    | none => .error (.syntaxError issue.message)
    | some highlightedSymbols => .ok (highlightedSymbols, rest)

/-- `Number(issue.message)`, for the literals that the rule reports. -/
def extractCognitiveComplexity (issues : List (Issue Num)) : Option Num × List (Issue Num) :=
  let (found, rest) := findAndRemoveFirstIssue cognitiveComplexityRule issues
  (found.bind fun issue => format.read issue.message, rest)

/-! ### Transforming -/

structure LintingResult (Num : Type) where
  issues : List (Issue Num)
  ucfgPaths : List JsString
  highlightedSymbols : Value Num
  cognitiveComplexity : Option Num

variable (eslint : ESLint) (source : SourceText) (rules : String → Option Schema)

/-- The loop over the messages. -/
def issuesAndPaths : List LintMessage → Except Thrown (List (Issue Num) × List JsString)
  | [] => .ok ([], [])
  | message :: messages =>
    if message.ruleId = some "sonarjs/ucfg" then do
      let (issues, ucfgPaths) ← issuesAndPaths messages
      .ok (issues, message.message :: ucfgPaths)
    else do
      match ← convertMessage eslint source message with
      | none => issuesAndPaths messages
      | some issue =>
        let decoded ← decodeSonarRuntime format (rules issue.ruleId) issue
        let (issues, ucfgPaths) ← issuesAndPaths messages
        .ok (normalizeLocation decoded :: issues, ucfgPaths)

def transformMessages (messages : List LintMessage) : Except Thrown (LintingResult Num) := do
  let (issues, ucfgPaths) ← issuesAndPaths format eslint source rules messages
  let (highlightedSymbols, issues) ← extractHighlightedSymbols format issues
  let (cognitiveComplexity, issues) := extractCognitiveComplexity format issues
  .ok ⟨issues, ucfgPaths, highlightedSymbols, cognitiveComplexity⟩

/-! ### What a message carries -/

/-- The message, the secondary locations and the cost that arrive, for the text of a message. A metric is a number, which
has nothing to spread. -/
inductive Carries (schema : Option Schema) (text : JsString) :
    JsString → List (IssueLocation Num) → Option Num → Prop
  | plain (hoption : hasSonarRuntimeOption schema = false) : Carries schema text text [] none
  | encoded (hoption : hasSonarRuntimeOption schema = true) (message : JsString)
      (secondaryLocations : Option (List (IssueLocation Num))) (cost : Option Num)
      (htext : text = encodeContents format message secondaryLocations cost) :
      Carries schema text message (secondaryLocations.getD []) cost
  | metric (hoption : hasSonarRuntimeOption schema = true) (n : Num) (htext : text = format.text n) :
      Carries schema text text [] none

theorem locationOf_toJson (location : IssueLocation Num) : locationOf location.toJson = some location := by
  obtain ⟨column, line, endColumn, endLine, message⟩ := location
  cases message with
  | none => rfl
  | some message => rfl

theorem locationsOf_toJson (locations : List (IssueLocation Num)) :
    locationsOf (.array (locations.map IssueLocation.toJson)) = some locations := by
  show (locations.map IssueLocation.toJson).mapM locationOf = some locations
  induction locations with
  | nil => rfl
  | cons location locations ih =>
    rw [List.map_cons, List.mapM_cons, locationOf_toJson, ih]
    rfl

/-- A property that may be undefined is read as it was written. -/
theorem optionalMember_optional {α : Type} {members : Properties (Value Num)} {key : String}
    {read : Value Num → Option α} {value : Option α} {toJson : α → Value Num}
    (hget : members.get (EncodedMessage.units key) = value.map toJson) (hread : ∀ a, read (toJson a) = some a) :
    optionalMember members key read = some value := by
  rw [optionalMember, hget]
  cases value with
  | none => rfl
  | some a =>
    show (read (toJson a)).map some = _
    rw [hread]
    rfl

theorem spread_contents (issue : Issue Num) (message : JsString)
    (secondaryLocations : Option (List (IssueLocation Num))) (cost : Option Num) :
    spread issue (.object (contents message secondaryLocations cost)) =
      some { issue with
        message := message
        secondaryLocations := secondaryLocations.getD issue.secondaryLocations
        cost := cost.or issue.cost } := by
  have hkeys : (contents message secondaryLocations cost).all (fun m =>
      (["message", "secondaryLocations", "cost"].map EncodedMessage.units).contains m.1) = true := by
    cases secondaryLocations <;> cases cost <;> rfl
  have hmessage : optionalMember (contents message secondaryLocations cost) "message" stringOf =
      some (some message) := by
    rw [optionalMember, contents, get_append, get_append, get_optional_of_ne (by decide),
      get_optional_of_ne (by decide)]
    rfl
  have hlocations : optionalMember (contents message secondaryLocations cost) "secondaryLocations" locationsOf =
      some secondaryLocations := by
    refine optionalMember_optional ?_ locationsOf_toJson
    rw [contents, get_append, get_append, get_optional_of_ne (by decide), get_optional, Option.none_or]
    cases secondaryLocations <;> rfl
  have hcost : optionalMember (contents message secondaryLocations cost) "cost" numberOf = some cost := by
    refine optionalMember_optional (show _ = cost.map Value.number from ?_) fun _ => rfl
    rw [contents, get_append, get_append, get_optional, get_optional_of_ne (by decide)]
    cases cost <;> rfl
  rw [spread, if_pos hkeys, hmessage, hlocations, hcost]
  rfl

theorem decodeSonarRuntime_eq {schema : Option Schema} {issue : Issue Num} {message : JsString}
    {secondaryLocations : List (IssueLocation Num)} {cost : Option Num}
    (h : Carries format schema issue.message message secondaryLocations cost) (hlocations : issue.secondaryLocations = [])
    (hcost : issue.cost = none) :
    decodeSonarRuntime format schema issue =
      .ok { issue with message := message, secondaryLocations := secondaryLocations, cost := cost } := by
  obtain ⟨ruleId, line, column, endLine, endColumn, text, issueCost, locations, quickFixes⟩ := issue
  obtain rfl : locations = [] := hlocations
  obtain rfl : issueCost = none := hcost
  cases h with
  | plain hoption => rw [decodeSonarRuntime, if_neg (by simp [hoption])]
  | encoded hoption message secondaryLocations cost htext =>
    obtain rfl : text = _ := htext
    rw [decodeSonarRuntime, if_pos hoption, encodeContents]
    dsimp only
    rw [Json.parse_stringify]
    dsimp only
    rw [spread_contents, Option.or_none]
  | metric hoption n htext =>
    obtain rfl : text = _ := htext
    have hparse : parse format (format.text n) = some (.number n) := Json.parse_stringify format (.number n)
    rw [decodeSonarRuntime, if_pos hoption]
    dsimp only
    rw [hparse]
    rfl

variable {format} in
/-- A text carries one content. -/
theorem Carries.unique {schema : Option Schema} {text message message' : JsString}
    {secondaryLocations secondaryLocations' : List (IssueLocation Num)} {cost cost' : Option Num}
    (h : Carries format schema text message secondaryLocations cost)
    (h' : Carries format schema text message' secondaryLocations' cost') :
    message = message' ∧ secondaryLocations = secondaryLocations' ∧ cost = cost' := by
  let issue : Issue Num := ⟨"", 0, 0, none, none, text, none, [], []⟩
  have hdecode : decodeSonarRuntime format schema issue = _ := decodeSonarRuntime_eq format h rfl rfl
  have hdecode' : decodeSonarRuntime format schema issue = _ := decodeSonarRuntime_eq format h' rfl rfl
  have hsame := Except.ok.inj (hdecode.symm.trans hdecode')
  simp only [Issue.mk.injEq, true_and, and_true] at hsame
  exact ⟨hsame.1, hsame.2.2, hsame.2.1⟩

/-! ### What arrives -/

variable {text : Text} {message : LintMessage} {ruleKey : String}

/-- The rule of a message that becomes an issue. -/
def keyOf (message : LintMessage) : Option String :=
  match message.ruleId with
  | none => none
  | some ruleId =>
    if "sonarjs/".toList <+: ruleId.toList ∧ ruleId ≠ "sonarjs/ucfg" then some (ruleKeyOf ruleId) else none

/-- The messages whose issues are left: all but the first one of each metric. -/
def delivered (messages : List LintMessage) : List LintMessage :=
  ((messages.filter fun message => (keyOf message).isSome).eraseP fun message =>
    keyOf message = some symbolHighlightingRule).eraseP fun message => keyOf message = some cognitiveComplexityRule

/-- A message that nothing is thrown for. -/
structure Convertible (text : Text) (message : LintMessage) (ruleKey : String) : Prop where
  hasMessage : HasMessage message ruleKey
  inText : ∀ proposal ∈ proposals message ruleKey, InText text proposal.2.range
  carries : ∃ content secondaryLocations cost,
    Carries format (rules ruleKey) message.message content secondaryLocations cost

/-- The issue of a message, with its quick fixes. -/
structure Arrives (acceptEmptyRange : Bool) (text : Text) (message : LintMessage) (issue : Issue Num) : Prop where
  ruleId : keyOf message = some issue.ruleId
  carried : ∀ content secondaryLocations cost,
    Carries format (rules issue.ruleId) message.message content secondaryLocations cost →
      issue.message = content ∧ issue.secondaryLocations = secondaryLocations ∧ issue.cost = cost
  range : ∀ range, Reports text message issue.ruleId range → InText text range →
    (issueRange acceptEmptyRange text issue = some (some range) ↔ Survives acceptEmptyRange text range)
  quickFixes : List.Forall₂ (fun (proposal : String × Fix) (quickFix : QuickFix) => quickFix.message = proposal.1 ∧
      ∃ edit, quickFix.edits = [edit] ∧ edit.text = proposal.2.text ∧
        (editRange acceptEmptyRange text edit = some proposal.2.range ↔
          Survives acceptEmptyRange text proposal.2.range))
    (proposals message issue.ruleId) issue.quickFixes

theorem ruleId_of_keyOf (h : keyOf message = some ruleKey) :
    message.ruleId = some ("sonarjs/" ++ ruleKey) ∧ message.ruleId ≠ some "sonarjs/ucfg" := by
  unfold keyOf at h
  split at h
  · cases h
  · rename_i ruleId hruleId
    split_ifs at h with hplugin
    obtain rfl := Option.some.inj h
    obtain ⟨rest, hrest⟩ := hplugin.1
    have heq : ruleId = "sonarjs/" ++ String.ofList rest := by
      refine String.toList_inj.mp (hrest.symm.trans ?_)
      rw [String.toList_append]
      exact congrArg _ String.toList_ofList.symm
    rw [hruleId, heq, ruleKeyOf_append]
    exact ⟨rfl, fun hucfg => hplugin.2 (heq.trans (Option.some.inj hucfg))⟩

theorem keyOf_ucfg (h : message.ruleId = some "sonarjs/ucfg") : keyOf message = none := by
  unfold keyOf
  rw [h]
  exact if_neg fun hplugin => hplugin.2 rfl

theorem convertMessage_eq_none (hkey : keyOf message = none) (hucfg : message.ruleId ≠ some "sonarjs/ucfg") :
    convertMessage eslint source message = .ok (none : Option (Issue Num)) := by
  unfold keyOf at hkey
  unfold convertMessage
  cases hruleId : message.ruleId with
  | none => rfl
  | some ruleId =>
    rw [hruleId] at hkey hucfg
    dsimp only at hkey ⊢
    split_ifs at hkey with hplugin
    rw [if_neg fun hplugin' => hplugin ⟨hplugin', fun heq => hucfg (congrArg some heq)⟩]

variable {format eslint rules}

/-- One message. -/
theorem arrives (doc : eslint.Documented) (hBOM : text.head? ≠ some BOM) (acceptEmptyRange : Bool)
    (hkey : keyOf message = some ruleKey) (h : Convertible format rules text message ruleKey) :
    ∃ issue decoded : Issue Num, convertMessage eslint (eslint.sourceText text) message = .ok (some issue) ∧
      decodeSonarRuntime format (rules issue.ruleId) issue = .ok decoded ∧
      Arrives format rules acceptEmptyRange text message (normalizeLocation decoded) := by
  obtain ⟨content, secondaryLocations, cost, hcarries⟩ := h.carries
  refine ⟨_, _, convertMessage_eq doc hBOM (ruleId_of_keyOf hkey).1 h.hasMessage h.inText,
    decodeSonarRuntime_eq format hcarries rfl rfl, ?_⟩
  constructor
  · exact hkey
  · exact fun _ _ _ hcarries' => hcarries.unique hcarries'
  · exact fun range hreports hrange => issueRange_iff acceptEmptyRange hreports hrange rfl rfl rfl rfl
  · refine List.forall₂_map_right_iff.mpr (List.forall₂_same.mpr fun proposal hproposal => ?_)
    exact ⟨rfl, editOf text proposal.2, rfl, rfl, editRange_iff acceptEmptyRange (h.inText proposal hproposal)⟩

theorem issuesAndPaths_eq (doc : eslint.Documented) (hBOM : text.head? ≠ some BOM) (acceptEmptyRange : Bool)
    {messages : List LintMessage}
    (h : ∀ message ∈ messages, ∀ ruleKey, keyOf message = some ruleKey →
      Convertible format rules text message ruleKey) :
    ∃ issues : List (Issue Num),
      issuesAndPaths format eslint (eslint.sourceText text) rules messages = .ok (issues,
        (messages.filter fun message => message.ruleId = some "sonarjs/ucfg").map LintMessage.message) ∧
      List.Forall₂ (Arrives format rules acceptEmptyRange text)
        (messages.filter fun message => (keyOf message).isSome) issues := by
  induction messages with
  | nil => exact ⟨[], rfl, .nil⟩
  | cons message messages ih =>
    obtain ⟨hmessage, hrest⟩ := List.forall_mem_cons.mp h
    obtain ⟨issues, hloop, hissues⟩ := ih hrest
    by_cases hucfg : message.ruleId = some "sonarjs/ucfg"
    · refine ⟨issues, ?_, ?_⟩
      · rw [issuesAndPaths, if_pos hucfg, hloop, List.filter_cons_of_pos (by simpa using hucfg)]
        rfl
      · rw [List.filter_cons_of_neg (by simp [keyOf_ucfg hucfg])]
        exact hissues
    · rw [issuesAndPaths, if_neg hucfg, List.filter_cons_of_neg (by simpa using hucfg)]
      cases hkey : keyOf message with
      | none =>
        refine ⟨issues, ?_, ?_⟩
        · rw [convertMessage_eq_none eslint _ hkey hucfg]
          exact hloop
        · rw [List.filter_cons_of_neg (by simp [hkey])]
          exact hissues
      | some ruleKey =>
        obtain ⟨issue, decoded, hconvert, hdecode, harrives⟩ := arrives doc hBOM acceptEmptyRange hkey (hmessage _ hkey)
        refine ⟨normalizeLocation decoded :: issues, ?_, ?_⟩
        · rw [hconvert]
          show (do
            let decoded ← decodeSonarRuntime format (rules issue.ruleId) issue
            let (issues, ucfgPaths) ← issuesAndPaths format eslint (eslint.sourceText text) rules messages
            .ok (normalizeLocation decoded :: issues, ucfgPaths)) = _
          rw [hdecode, hloop]
          rfl
        · rw [List.filter_cons_of_pos (by simp [hkey])]
          exact .cons harrives hissues

/-- The issue that is removed belongs to the first message of the rule. -/
theorem forall₂_remove {acceptEmptyRange : Bool} {messages : List LintMessage} {issues : List (Issue Num)}
    (h : List.Forall₂ (Arrives format rules acceptEmptyRange text) messages issues) (ruleId : String) :
    List.Forall₂ (Arrives format rules acceptEmptyRange text)
        (messages.eraseP fun message => keyOf message = some ruleId) (findAndRemoveFirstIssue ruleId issues).2 ∧
      ∀ issue, (findAndRemoveFirstIssue ruleId issues).1 = some issue → issue.ruleId = ruleId ∧
        ∃ message ∈ messages, Arrives format rules acceptEmptyRange text message issue := by
  induction h with
  | nil => exact ⟨.nil, fun issue hissue => by cases hissue⟩
  | @cons message issue messages issues harrives hrest ih =>
    by_cases hrule : issue.ruleId = ruleId
    · rw [findAndRemoveFirstIssue, if_pos hrule, List.eraseP_cons_of_pos (by simp [harrives.ruleId, hrule])]
      refine ⟨hrest, fun found hfound => ?_⟩
      obtain rfl : issue = found := Option.some.inj hfound
      exact ⟨hrule, message, List.mem_cons_self, harrives⟩
    · rw [findAndRemoveFirstIssue, if_neg hrule, List.eraseP_cons_of_neg (by simp [harrives.ruleId, hrule])]
      refine ⟨.cons harrives ih.1, fun found hfound => ?_⟩
      obtain ⟨hfoundRule, message', hmem, hmessage'⟩ := ih.2 found hfound
      exact ⟨hfoundRule, message', List.mem_cons_of_mem _ hmem, hmessage'⟩

theorem extractHighlightedSymbols_eq_ok {issues : List (Issue Num)}
    (h : ∀ issue, (findAndRemoveFirstIssue symbolHighlightingRule issues).1 = some issue →
      (parse format issue.message).isSome = true) :
    ∃ highlightedSymbols, extractHighlightedSymbols format issues =
      .ok (highlightedSymbols, (findAndRemoveFirstIssue symbolHighlightingRule issues).2) := by
  unfold extractHighlightedSymbols
  split
  · rename_i heq
    exact ⟨_, by rw [heq]⟩
  · rename_i issue rest heq
    obtain ⟨value, hvalue⟩ := Option.isSome_iff_exists.mp (h issue (by rw [heq]))
    exact ⟨value, by rw [hvalue, heq]⟩

/-- The messages of the rules of the plugin arrive as issues, but for the paths of ucfg files and the first message of each
metric. -/
theorem transport_iff (doc : eslint.Documented) (hBOM : text.head? ≠ some BOM) (acceptEmptyRange : Bool)
    {messages : List LintMessage}
    (h : ∀ message ∈ messages, ∀ ruleKey, keyOf message = some ruleKey →
      Convertible format rules text message ruleKey)
    (hsymbols : ∀ message ∈ messages, keyOf message = some symbolHighlightingRule →
      hasSonarRuntimeOption (rules symbolHighlightingRule) = false ∧ (parse format message.message).isSome = true) :
    ∃ result : LintingResult Num, transformMessages format eslint (eslint.sourceText text) rules messages = .ok result ∧
      List.Forall₂ (Arrives format rules acceptEmptyRange text) (delivered messages) result.issues ∧
      result.ucfgPaths =
        (messages.filter fun message => message.ruleId = some "sonarjs/ucfg").map LintMessage.message := by
  obtain ⟨issues, hloop, hissues⟩ := issuesAndPaths_eq doc hBOM acceptEmptyRange h
  obtain ⟨hrest, hfound⟩ := forall₂_remove hissues symbolHighlightingRule
  obtain ⟨hleft, -⟩ := forall₂_remove hrest cognitiveComplexityRule
  have hreadable : ∀ issue, (findAndRemoveFirstIssue symbolHighlightingRule issues).1 = some issue →
      (parse format issue.message).isSome = true := fun issue hissue => by
    obtain ⟨hrule, message, hmem, harrives⟩ := hfound issue hissue
    have hkey := harrives.ruleId
    rw [hrule] at hkey
    obtain ⟨hoption, hparse⟩ := hsymbols message (List.mem_of_mem_filter hmem) hkey
    rw [(harrives.carried _ _ _ (.plain (by rw [hrule]; exact hoption))).1]
    exact hparse
  obtain ⟨highlightedSymbols, hextract⟩ := extractHighlightedSymbols_eq_ok hreadable
  let left := (findAndRemoveFirstIssue symbolHighlightingRule issues).2
  refine ⟨⟨(extractCognitiveComplexity format left).2, _, highlightedSymbols,
    (extractCognitiveComplexity format left).1⟩, ?_, hleft, rfl⟩
  rw [transformMessages, hloop]
  dsimp only [Bind.bind, Except.bind]
  rw [hextract]

/-! ### The messages of a file -/

def sonarRuntime : Schema := .list [some [EncodedMessage.units "sonar-runtime"]]

def schemas (ruleId : String) : Option Schema :=
  if ruleId = "S3776" ∨ ruleId = cognitiveComplexityRule then some sonarRuntime else none

def twoLines : Text := units "a=1\r\nb=2"

def missingSemicolon : LintMessage where
  ruleId := some "sonarjs/S1438"
  line := 2
  column := 1
  endLine := some 2
  endColumn := some 4
  message := EncodedMessage.units "Missing semicolon."
  fix := some ⟨(8, 8), units ";"⟩
  suggestions := []

/-- A message for the first line. -/
def messageOf (ruleId : String) (message : JsString) : LintMessage :=
  ⟨some ruleId, 1, 1, some 1, some 4, message, none, []⟩

def increment : IssueLocation ℕ := ⟨0, 1, 1, 1, some (EncodedMessage.units "+1")⟩

def messages : List LintMessage :=
  [messageOf "sonarjs/ucfg" (EncodedMessage.units "/ucfgs/a"), missingSemicolon,
    messageOf "sonarjs/internal-cognitive-complexity" (EncodedMessage.units "3"),
    messageOf "sonarjs/S3776" (encodeContents Json.decimal (EncodedMessage.units "Refactor.") (some [increment]) (some 1))]

theorem kept_twoLines {p : ℕ} (hp : p ≤ 8) (hne : p ≠ 4) : Kept twoLines p := by
  have htables : lineStarts htmlBreak twoLines = lineStarts eslintBreak twoLines := by decide
  refine ⟨(@locate_eq_iff_isLineStart .html twoLines p).mp (congrArg (locate · p) htables), ?_⟩
  rintro ⟨b, hb, hlt, hgt⟩
  have hbreaks : lineBreaks htmlBreak 0 twoLines = [(3, 5)] := by decide
  rw [hbreaks, List.mem_singleton] at hb
  subst hb
  dsimp only at hlt hgt
  omega

theorem survives_twoLines {range : ℕ × ℕ} (hstart : range.1 ≤ 8 ∧ range.1 ≠ 4) (hstop : range.2 ≤ 8 ∧ range.2 ≠ 4) :
    Survives true twoLines range :=
  ⟨kept_twoLines hstart.1 hstart.2, kept_twoLines hstop.1 hstop.2, .inr rfl⟩

/-- A message without fixes. -/
theorem convertible_messageOf {ruleId ruleKey : String} {text content : JsString}
    {secondaryLocations : List (IssueLocation ℕ)} {cost : Option ℕ}
    (hcarries : Carries Json.decimal (schemas ruleKey) text content secondaryLocations cost) :
    Convertible Json.decimal schemas twoLines (messageOf ruleId text) ruleKey where
  hasMessage hfix := by cases hfix
  inText proposal hproposal := by
    have hnone : proposals (messageOf ruleId text) ruleKey = [] := by
      unfold proposals
      split <;> rfl
    rw [hnone] at hproposal
    cases hproposal
  carries := ⟨content, secondaryLocations, cost, hcarries⟩

theorem proposals_missingSemicolon :
    proposals missingSemicolon "S1438" = [("Add semicolon", ⟨(8, 8), units ";"⟩)] := by
  decide

theorem convertible_missingSemicolon : Convertible Json.decimal schemas twoLines missingSemicolon "S1438" where
  hasMessage _ _ := .inl (by decide)
  inText proposal hproposal := by
    rw [proposals_missingSemicolon, List.mem_singleton] at hproposal
    subst hproposal
    exact ⟨by decide, by decide⟩
  carries := ⟨_, _, _, .plain rfl⟩

theorem convertible_messages : ∀ message ∈ messages, ∀ ruleKey, keyOf message = some ruleKey →
    Convertible Json.decimal schemas twoLines message ruleKey := by
  have hsame : ∀ {message ruleKey ruleKey'}, keyOf message = some ruleKey → keyOf message = some ruleKey' →
      Convertible Json.decimal schemas twoLines message ruleKey →
        Convertible Json.decimal schemas twoLines message ruleKey' := fun h h' hconvertible => by
    obtain rfl := Option.some.inj (h.symm.trans h')
    exact hconvertible
  refine List.forall_mem_cons.mpr ⟨fun ruleKey hkey => ?_, List.forall_mem_cons.mpr ⟨fun ruleKey hkey => ?_,
    List.forall_mem_cons.mpr ⟨fun ruleKey hkey => ?_, List.forall_mem_singleton.mpr fun ruleKey hkey => ?_⟩⟩⟩
  · rw [keyOf_ucfg rfl] at hkey
    cases hkey
  · exact hsame (by decide) hkey convertible_missingSemicolon
  · exact hsame (show keyOf _ = some cognitiveComplexityRule by decide) hkey
      (convertible_messageOf (.metric (by decide) 3 (by decide)))
  · exact hsame (show keyOf _ = some "S3776" by decide) hkey
      (convertible_messageOf (.encoded (by decide) _ _ _ rfl))

theorem transport_messages : ∃ result : LintingResult ℕ,
    transformMessages Json.decimal documentedESLint (documentedESLint.sourceText twoLines) schemas messages = .ok result ∧
      result.ucfgPaths = [EncodedMessage.units "/ucfgs/a"] ∧
      ∃ semicolon complexity, result.issues = [semicolon, complexity] ∧
        issueRange true twoLines semicolon = some (some (5, 8)) ∧
        (∃ edit, semicolon.quickFixes.map QuickFix.edits = [[edit]] ∧ editRange true twoLines edit = some (8, 8)) ∧
        complexity.message = EncodedMessage.units "Refactor." ∧ complexity.secondaryLocations = [increment] := by
  obtain ⟨result, hresult, hissues, hpaths⟩ := transport_iff documented (by decide) true convertible_messages
    (List.forall_mem_cons.mpr ⟨by decide, List.forall_mem_cons.mpr ⟨by decide,
      List.forall_mem_cons.mpr ⟨by decide, List.forall_mem_singleton.mpr (by decide)⟩⟩⟩)
  have hdelivered : delivered messages = [missingSemicolon, messageOf "sonarjs/S3776"
      (encodeContents Json.decimal (EncodedMessage.units "Refactor.") (some [increment]) (some 1))] := by
    rfl
  rw [hdelivered] at hissues
  obtain ⟨semicolon, rest, hsemicolon, hrest, heq⟩ := List.forall₂_cons_left_iff.mp hissues
  obtain ⟨complexity, rest, hcomplexity, hnil, rfl⟩ := List.forall₂_cons_left_iff.mp hrest
  obtain rfl := List.forall₂_nil_left_iff.mp hnil
  have hkey : "S1438" = semicolon.ruleId := Option.some.inj (hsemicolon.ruleId.symm.trans (by decide)).symm
  have hkey' : "S3776" = complexity.ruleId := Option.some.inj (hcomplexity.ruleId.symm.trans (by decide)).symm
  have hquickFixes := hsemicolon.quickFixes
  rw [← hkey, proposals_missingSemicolon] at hquickFixes
  obtain ⟨quickFix, rest, ⟨-, edit, hedits, -, hedit⟩, hlast, hfixes⟩ := List.forall₂_cons_left_iff.mp hquickFixes
  obtain rfl := List.forall₂_nil_left_iff.mp hlast
  have hreports : Reports twoLines missingSemicolon semicolon.ruleId (5, 8) := by
    rw [← hkey]
    exact ⟨rfl, by decide, by decide, by decide, by decide⟩
  obtain ⟨hmessage, hlocations, -⟩ := hcomplexity.carried _ _ _
    (by rw [← hkey']; exact .encoded (by decide) _ _ _ rfl)
  refine ⟨result, hresult, hpaths, semicolon, complexity, heq, ?_, ⟨edit, ?_, ?_⟩, hmessage, hlocations⟩
  · exact (hsemicolon.range _ hreports ⟨by decide, by decide⟩).mpr (survives_twoLines (by decide) (by decide))
  · rw [hfixes, List.map_singleton, hedits]
  · exact hedit.mpr (survives_twoLines (by decide) (by decide))

end SonarJavascript.Linter.QuickFixes
