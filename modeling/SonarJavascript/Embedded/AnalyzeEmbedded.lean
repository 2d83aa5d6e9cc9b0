import SonarJavascript.Embedded.ParseHtml
import SonarJavascript.Embedded.ParsingError
import SonarJavascript.Embedded.Patch
import SonarJavascript.Linter.Ncloc

/-!
# Analyzing embedded snippets

`build` parses and patches the snippets, up to the first one that does not parse. `analyzeFile` lints them one after
the other. A patched `SourceCode` has the text of the whole file, so `removeNonJsIssues` takes out what a rule has found
outside of the program of the snippet.

`analyzeEmbedded_html`: of each script exactly the issues are kept that start in its program, those of one script are
before those of the next one, and a line of code is listed once for each script that has a token on it.
-/

namespace SonarJavascript.Embedded

open CodeUnit

/-! ### The analysis -/

structure Issue where
  ruleId : String
  message : Text
  /-- `line` and `column`, after the location has been normalized. -/
  start : Location
  deriving DecidableEq

structure ExtendedParseResult (α : Type) where
  sourceCode : SourceCode α
  syntheticFilePath : String

structure EmbeddedAnalysisOutput where
  issues : List Issue
  ucfgPaths : List String
  ncloc : List ℕ

inductive Failure
  | parsing (error : APIError)
  | exception

/-- What the analysis of embedded snippets calls; `large` writes large columns. -/
structure Tools (α : Type) where
  eslint : ESLint
  large : Text → ℕ → Text
  buildJsTs : Text → Except APIError (SourceCode α)
  composeSyntheticFilePath : String → String → String
  /-- The issues and the paths of UCFG files. -/
  lint : SourceCode α → String → List Issue × List String

variable {α Extras : Type}

def buildSnippet [DecidableEq α] (tools : Tools α) (resourceName : Extras → Option String) (filePath : String)
    (embeddedJS : EmbeddedJS Extras) : Except Failure (ExtendedParseResult α) :=
  let syntheticFilePath := match resourceName embeddedJS.extras with
    | none => filePath
    | some resourceName => tools.composeSyntheticFilePath filePath resourceName
  match tools.buildJsTs embeddedJS.code with
  | .error error => .error (.parsing (patchParsingError tools.large error embeddedJS))
  | .ok sourceCode =>
    match patchSourceCode tools.eslint sourceCode embeddedJS with
    | none => .error .exception
    | some sourceCode => .ok ⟨sourceCode, syntheticFilePath⟩

def build [DecidableEq α] (tools : Tools α) (resourceName : Extras → Option String) (filePath : String) :
    List (EmbeddedJS Extras) → Except Failure (List (ExtendedParseResult α))
  | [] => .ok []
  | embeddedJS :: embeddedJSs =>
    match buildSnippet tools resourceName filePath embeddedJS with
    | .error failure => .error failure
    | .ok result => (build tools resourceName filePath embeddedJSs).map (result :: ·)

def isBeforeOrEqual (a b : Location) : Bool :=
  if a.line < b.line then true else if a.line > b.line then false else a.column ≤ b.column

def removeNonJsIssues (eslint : ESLint) (sourceCode : SourceCode α) (issues : List Issue) : Option (List Issue) := do
  let range ← (sourceCode.objects sourceCode.ast.id).range
  let jsStart ← eslint.getLocFromIndex sourceCode.source range.1
  let jsEnd ← eslint.getLocFromIndex sourceCode.source range.2
  some (issues.filter fun issue => isBeforeOrEqual jsStart issue.start && isBeforeOrEqual issue.start jsEnd)

/-- A snippet has no template; type and value of a token are only read in templates. -/
def findNcloc (sourceCode : SourceCode α) : List ℕ :=
  Linter.Ncloc.findNcloc (sourceCode.tokens.filterMap fun token =>
    (sourceCode.objects token).loc.map fun loc => ⟨"", "", loc.start.line, loc.stop.line⟩) none

def analyzeFile (tools : Tools α) :
    List (ExtendedParseResult α) → EmbeddedAnalysisOutput → Except Failure EmbeddedAnalysisOutput
  | [], output => .ok output
  | result :: results, output =>
    let linted := tools.lint result.sourceCode result.syntheticFilePath
    match removeNonJsIssues tools.eslint result.sourceCode linted.1 with
    | none => .error .exception
    | some filteredIssues =>
      analyzeFile tools results
        { issues := output.issues ++ filteredIssues
          ucfgPaths := output.ucfgPaths ++ linted.2
          ncloc := output.ncloc ++ findNcloc result.sourceCode }

def analyzeEmbedded [DecidableEq α] (tools : Tools α) (resourceName : Extras → Option String)
    (languageParser : Text → List (EmbeddedJS Extras)) (filePath : String) (fileContent : Text) :
    Except Failure EmbeddedAnalysisOutput :=
  (build tools resourceName filePath (languageParser fileContent)).bind fun results =>
    analyzeFile tools results ⟨[], [], []⟩

/-! ### The order of locations -/

namespace Location

def Before (a b : Location) : Prop := a.line < b.line ∨ a.line = b.line ∧ a.column < b.column

theorem isBeforeOrEqual_iff {a b : Location} : isBeforeOrEqual a b = true ↔ ¬ b.Before a := by
  obtain ⟨line, column⟩ := a
  obtain ⟨line', column'⟩ := b
  unfold isBeforeOrEqual Before
  dsimp only
  split_ifs with hlt hgt
  · refine ⟨fun _ => ?_, fun _ => rfl⟩
    omega
  · refine ⟨fun h => absurd h (by simp), fun h => absurd (Or.inl hgt) h⟩
  · rw [decide_eq_true_eq]
    omega

theorem Before.trans_le {a b c : Location} (h : a.Before b) (hle : ¬ c.Before b) : a.Before c := by
  unfold Before at *
  omega

theorem Before.le_trans {a b c : Location} (hle : ¬ b.Before a) (h : b.Before c) : a.Before c := by
  unfold Before at *
  omega

theorem Before.asymm {a b : Location} (h : a.Before b) : ¬ b.Before a := by
  unfold Before at *
  omega

end Location

variable {starts : List ℕ} {p q s e : ℕ}

theorem line_mono (hle : p ≤ q) : (locate starts p).line ≤ (locate starts q).line := by
  refine (List.monotone_filter_right starts fun start hstart => ?_).length_le
  rw [decide_eq_true_iff] at hstart ⊢
  exact hstart.trans hle

theorem locate_before (h : IsTable starts) (hlt : p < q) : (locate starts p).Before (locate starts q) := by
  have hsub : (starts.filter (· ≤ p)).Sublist (starts.filter (· ≤ q)) := by
    refine List.monotone_filter_right starts fun start hstart => ?_
    rw [decide_eq_true_iff] at hstart ⊢
    omega
  rcases Nat.lt_or_eq_of_le hsub.length_le with hline | hline
  · exact .inl hline
  · have hlast := (h.last p).2.1
    refine .inr ⟨hline, ?_⟩
    show p - (starts.filter (· ≤ p)).getLastD 0 < q - (starts.filter (· ≤ q)).getLastD 0
    rw [← hsub.eq_of_length hline]
    omega

theorem not_before_iff (h : IsTable starts) : ¬ (locate starts q).Before (locate starts p) ↔ p ≤ q := by
  constructor
  · intro hnot
    by_contra hlt
    exact hnot (locate_before h (by omega))
  · intro hle
    rcases Nat.lt_or_eq_of_le hle with hlt | rfl
    · exact (locate_before h hlt).asymm
    · exact fun hbefore => hbefore.asymm hbefore

/-! ### Scripts of a file -/

def HtmlEvent.index : HtmlEvent → ℕ
  | .openTag _ _ _ endIndex => endIndex
  | .closeTag _ startIndex => startIndex

/-- The parser reads forward: a tag that opens ends in the text, after all that has been read before. -/
structure DocumentedEvents (events : Text → List HtmlEvent) : Prop where
  inside : ∀ text name src type endIndex, .openTag name src type endIndex ∈ events text → endIndex < text.length
  forward : ∀ text, (events text).Pairwise fun event later =>
    ∀ name src type endIndex, later = .openTag name src type endIndex → event.index < endIndex

def EmbeddedJS.stop (js : EmbeddedJS Extras) : ℕ := js.offset + js.code.length

theorem scriptSnippet_stop_le {text : Text} {start stop : ℕ} (h : start ≤ text.length) :
    (scriptSnippet text start stop).stop ≤ max start stop ∧ (scriptSnippet text start stop).stop ≤ text.length := by
  have hlength : (slice text start stop).length = min (stop - start) (text.length - start) := by
    rw [slice, List.length_take, List.length_drop]
  show start + (slice text start stop).length ≤ _ ∧ start + (slice text start stop).length ≤ _
  omega

/-- The snippets so far, and the script that is open, end before each tag that opens later. -/
structure ParseState.Forward (code : Text) (rest : List HtmlEvent) (state : ParseState) : Prop where
  separate : state.embeddedJSs.Pairwise fun js js' => js.stop < js'.offset
  inside : ∀ js ∈ state.embeddedJSs, js.stop ≤ code.length
  ends : state.inScript = true → ∀ js ∈ state.embeddedJSs, js.stop < state.jsSnippetStartIndex
  start : state.inScript = true → state.jsSnippetStartIndex ≤ code.length
  later : ∀ name src type endIndex, .openTag name src type endIndex ∈ rest →
    (∀ js ∈ state.embeddedJSs, js.stop ≤ endIndex) ∧ (state.inScript = true → state.jsSnippetStartIndex ≤ endIndex)

theorem ParseState.Forward.onEvent {code : Text} {rest : List HtmlEvent} {state : ParseState} {event : HtmlEvent}
    (h : state.Forward code (event :: rest))
    (hinside : ∀ name src type endIndex, event = .openTag name src type endIndex → endIndex < code.length)
    (hforward : ∀ name src type endIndex, .openTag name src type endIndex ∈ rest → event.index < endIndex) :
    (onEvent code state event).Forward code rest := by
  have hskip : state.Forward code rest :=
    ⟨h.separate, h.inside, h.ends, h.start, fun name src type endIndex hmem => h.later name src type endIndex
      (List.mem_cons_of_mem _ hmem)⟩
  cases event with
  | openTag name src type endIndex =>
    simp only [Embedded.onEvent, onopentag]
    split_ifs
    · exact hskip
    · exact hskip
    · have hends := (h.later name src type endIndex List.mem_cons_self).1
      refine ⟨h.separate, h.inside, fun _ js hjs => Nat.lt_succ_of_le (hends js hjs), fun _ => hinside _ _ _ _ rfl, ?_⟩
      intro name' src' type' endIndex' hmem
      exact ⟨(hskip.later name' src' type' endIndex' hmem).1, fun _ => hforward name' src' type' endIndex' hmem⟩
  | closeTag name startIndex =>
    simp only [Embedded.onEvent, onclosetag]
    split_ifs with hclosed
    · exact hskip
    · have hopen : state.inScript = true := by simpa using (not_or.mp hclosed).2
      obtain ⟨hstop, hlength⟩ := @scriptSnippet_stop_le _ _ startIndex (h.start hopen)
      refine ⟨?_, ?_, fun h => absurd h (by simp), fun h => absurd h (by simp), ?_⟩
      · refine List.pairwise_append.mpr ⟨h.separate, List.pairwise_singleton _ _, fun js hjs js' hjs' => ?_⟩
        rw [List.mem_singleton.mp hjs']
        exact h.ends hopen js hjs
      · intro js hjs
        rcases List.mem_append.mp hjs with hjs | hjs
        · exact h.inside js hjs
        · rwa [List.mem_singleton.mp hjs]
      · intro name' src type endIndex hmem
        obtain ⟨hends, hstart⟩ := hskip.later name' src type endIndex hmem
        refine ⟨fun js hjs => ?_, fun h => absurd h (by simp)⟩
        rcases List.mem_append.mp hjs with hjs | hjs
        · exact hends js hjs
        · have hindex : startIndex < endIndex := hforward name' src type endIndex hmem
          have := hstart hopen
          rw [List.mem_singleton.mp hjs]
          omega

theorem parseHTML_separate {events : Text → List HtmlEvent} (doc : DocumentedEvents events) (code : Text) :
    (parseHTML events code).Pairwise (fun js js' => js.stop < js'.offset) ∧
      ∀ js ∈ parseHTML events code, js.stop ≤ code.length := by
  have hfold : ∀ (rest : List HtmlEvent) (state : ParseState), state.Forward code rest →
      (∀ name src type endIndex, .openTag name src type endIndex ∈ rest → endIndex < code.length) →
      (rest.Pairwise fun event later =>
        ∀ name src type endIndex, later = .openTag name src type endIndex → event.index < endIndex) →
      (rest.foldl (onEvent code) state).Forward code [] := by
    intro rest
    induction rest with
    | nil => intro state h _ _; exact h
    | cons event rest ih =>
      intro state h hinside hforward
      obtain ⟨hfirst, hrest⟩ := List.pairwise_cons.mp hforward
      refine ih _ (h.onEvent (fun name src type endIndex heq => ?_) fun name src type endIndex hmem => ?_) ?_ hrest
      · exact hinside name src type endIndex (heq ▸ List.mem_cons_self)
      · exact hfirst _ hmem name src type endIndex rfl
      · exact fun name src type endIndex hmem => hinside name src type endIndex (List.mem_cons_of_mem _ hmem)
  unfold parseHTML
  split_ifs
  · exact ⟨List.Pairwise.nil, List.forall_mem_nil _⟩
  · have hstart : (⟨[], 0, false⟩ : ParseState).Forward code (events code) :=
      ⟨List.Pairwise.nil, List.forall_mem_nil _, fun h => absurd h (by simp), fun h => absurd h (by simp),
        fun _ _ _ _ _ => ⟨List.forall_mem_nil _, fun h => absurd h (by simp)⟩⟩
    have h := hfold _ _ hstart (doc.inside code) (doc.forward code)
    exact ⟨h.separate, h.inside⟩

/-! ### Patched scripts -/

/-- How ESTree parsers document it: each object occurs once, and lies in the snippet. -/
structure Parsed (code : Text) (sourceCode : SourceCode α) : Prop where
  once : sourceCode.patched.Nodup
  located : ∀ id, sourceCode.IsObject id → ∃ loc s e,
    sourceCode.objects id = ⟨some loc, some (s, e)⟩ ∧ s ≤ e ∧ e ≤ code.length

theorem SourceCode.isObject_ast (sourceCode : SourceCode α) : sourceCode.IsObject sourceCode.ast.id :=
  .inl ⟨sourceCode.ast, .root, rfl⟩

/-- A script in its file, after patching. -/
structure Patched (eslint : ESLint) (js : EmbeddedJS Extras) (text : Text) (patched : SourceCode α) : Prop where
  source : patched.source = eslint.sourceText text
  located : ∀ id, patched.IsObject id → ∃ loc s e, patched.objects id = ⟨some loc, some (s, e)⟩ ∧
    js.offset ≤ s ∧ s ≤ e ∧ e ≤ js.stop ∧ eslint.getLocFromIndex (patchedText .html text) s = some loc.start ∧
    eslint.getLocFromIndex (patchedText .html text) e = some loc.stop

theorem patchSourceCode_script [DecidableEq α] {eslint : ESLint} (doc : eslint.Documented) {code : SourceCode α}
    {start stop : ℕ} {text : Text} (hparsed : Parsed (slice text start stop) code)
    (hstop : (scriptSnippet text start stop).stop ≤ text.length) :
    ∃ patched, patchSourceCode eslint code (scriptSnippet text start stop) = some patched ∧
      Patched eslint (scriptSnippet text start stop) text patched := by
  have hin : ∀ id ∈ code.patched, ∀ s e, (code.objects id).range = some (s, e) →
      s + start ≤ text.length ∧ e + start ≤ text.length := by
    intro id hid s e hrange
    obtain ⟨loc, s', e', hobject, hle, hcode⟩ := hparsed.located id (SourceCode.mem_patched.mp hid)
    obtain ⟨rfl, rfl⟩ : s' = s ∧ e' = e := by simpa [hobject] using hrange
    have : start + (slice text start stop).length ≤ text.length := hstop
    omega
  obtain ⟨objects, hrun, hfix, -⟩ := foldlM_update hparsed.once code.objects
    fun id hid => fixNodeLocation_isSome doc .html (hin id hid)
  refine ⟨{ code with source := eslint.sourceText text, objects }, ?_, rfl, fun id hid => ?_⟩
  · have hast : patchASTLocations eslint { code with source := patchedText .html text } start = some objects := hrun
    show (patchASTLocations eslint { code with source := patchedText .html text } start).bind _ = _
    rw [hast]
    rfl
  · obtain ⟨loc, s, e, hobject, hle, hcode⟩ := hparsed.located id hid
    have hfixed := hfix id (SourceCode.mem_patched.mpr hid)
    obtain ⟨hrange, hnone, hloc⟩ := fixNodeLocation_eq hfixed
    rw [hobject] at hrange hnone hloc
    obtain ⟨fixedLoc, hfixedLoc⟩ : ∃ fixedLoc, (objects id).loc = some fixedLoc :=
      Option.ne_none_iff_exists'.mp fun hnot => Option.some_ne_none loc (hnone.mp hnot)
    obtain ⟨hs, he⟩ := hloc fixedLoc s e hfixedLoc rfl
    refine ⟨fixedLoc, s + start, e + start, ?_, Nat.le_add_left .., Nat.add_le_add_right hle _, ?_, hs, he⟩
    · show objects id = _
      rw [← hfixedLoc]
      exact congrArg (Located.mk _) hrange
    · show e + start ≤ start + (slice text start stop).length
      omega

/-! ### The issues of a script -/

variable {eslint : ESLint} {text : Text} {sourceCode : SourceCode α} {js : EmbeddedJS Extras}

theorem le_of_getLocFromIndex (doc : eslint.Documented) {loc : Location}
    (h : eslint.getLocFromIndex (eslint.sourceText text) p = some loc) :
    p ≤ (stripBOM text).length ∧ loc = locate (lineStarts eslintBreak (stripBOM text)) p := by
  have hle : p ≤ (stripBOM text).length := by
    by_contra hlt
    rw [doc.outOfRange _ _ (by rw [doc.constructed]; exact Nat.lt_of_not_le hlt)] at h
    exact absurd h (Option.some_ne_none _).symm
  rw [getLocFromIndex_rebuilt doc hle] at h
  exact ⟨hle, (Option.some.inj h).symm⟩

/-- What `removeNonJsIssues` leaves is from the start of the program to its end. -/
theorem removeNonJsIssues_spec (doc : eslint.Documented) (hsource : sourceCode.source = eslint.sourceText text)
    (hrange : (sourceCode.objects sourceCode.ast.id).range = some (s, e)) {issues filteredIssues : List Issue}
    (h : removeNonJsIssues eslint sourceCode issues = some filteredIssues) :
    filteredIssues = issues.filter fun issue =>
      isBeforeOrEqual (locate (lineStarts eslintBreak (stripBOM text)) s) issue.start &&
        isBeforeOrEqual issue.start (locate (lineStarts eslintBreak (stripBOM text)) e) := by
  simp only [removeNonJsIssues, hrange, hsource, Option.bind_eq_bind, Option.bind_some, Option.bind_eq_some_iff] at h
  obtain ⟨jsStart, hstart, jsEnd, hend, heq⟩ := h
  obtain ⟨-, rfl⟩ := le_of_getLocFromIndex doc hstart
  obtain ⟨-, rfl⟩ := le_of_getLocFromIndex doc hend
  exact (Option.some.inj heq).symm

theorem exists_start (hrange : (sourceCode.objects sourceCode.ast.id).range = some (s, e))
    {issues filteredIssues : List Issue} (h : removeNonJsIssues eslint sourceCode issues = some filteredIssues) :
    ∃ jsStart, eslint.getLocFromIndex sourceCode.source s = some jsStart := by
  simp only [removeNonJsIssues, hrange, Option.bind_eq_bind, Option.bind_some, Option.bind_eq_some_iff] at h
  obtain ⟨jsStart, hstart, -⟩ := h
  exact ⟨jsStart, hstart⟩

/-- The issues of a snippet that are in its program. -/
def kept (tools : Tools α) (result : ExtendedParseResult α) : List Issue :=
  (removeNonJsIssues tools.eslint result.sourceCode
    (tools.lint result.sourceCode result.syntheticFilePath).1).getD []

theorem analyzeFile_eq {tools : Tools α} {results : List (ExtendedParseResult α)} {before output : EmbeddedAnalysisOutput}
    (h : analyzeFile tools results before = .ok output) :
    output.issues = before.issues ++ results.flatMap (kept tools) ∧
      output.ncloc = before.ncloc ++ results.flatMap (fun result => findNcloc result.sourceCode) ∧
      ∀ result ∈ results, removeNonJsIssues tools.eslint result.sourceCode
        (tools.lint result.sourceCode result.syntheticFilePath).1 = some (kept tools result) := by
  induction results generalizing before with
  | nil =>
    obtain rfl := Except.ok.inj h
    simp
  | cons result results ih =>
    rw [analyzeFile] at h
    cases hfilter : removeNonJsIssues tools.eslint result.sourceCode
        (tools.lint result.sourceCode result.syntheticFilePath).1 with
    | none => simp [hfilter] at h
    | some filteredIssues =>
      simp only [hfilter] at h
      have hkept : kept tools result = filteredIssues := by rw [kept, hfilter, Option.getD_some]
      obtain ⟨hissues, hncloc, hall⟩ := ih h
      refine ⟨?_, ?_, List.forall_mem_cons.mpr ⟨by rw [hkept, hfilter], hall⟩⟩
      · rw [hissues, List.flatMap_cons, hkept, List.append_assoc]
      · rw [hncloc, List.flatMap_cons, List.append_assoc]

theorem build_forall₂ [DecidableEq α] {tools : Tools α} {resourceName : Extras → Option String} {filePath : String}
    {embeddedJSs : List (EmbeddedJS Extras)} {results : List (ExtendedParseResult α)}
    (h : build tools resourceName filePath embeddedJSs = .ok results) :
    List.Forall₂ (fun js result => buildSnippet tools resourceName filePath js = .ok result) embeddedJSs results := by
  induction embeddedJSs generalizing results with
  | nil =>
    obtain rfl := Except.ok.inj h
    exact .nil
  | cons js embeddedJSs ih =>
    rw [build] at h
    cases hfirst : buildSnippet tools resourceName filePath js with
    | error failure => simp [hfirst] at h
    | ok result =>
      simp only [hfirst] at h
      cases hrest : build tools resourceName filePath embeddedJSs with
      | error failure => simp [hrest, Except.map] at h
      | ok rest =>
        rw [hrest] at h
        obtain rfl := Except.ok.inj h
        exact .cons hfirst (ih hrest)

/-! ### The lines of a script -/

def onLine (sourceCode : SourceCode α) (line : ℕ) : Bool :=
  sourceCode.tokens.any fun token =>
    (sourceCode.objects token).loc.any fun loc => loc.start.line ≤ line && line ≤ loc.stop.line

theorem mem_findNcloc {line : ℕ} : line ∈ findNcloc sourceCode ↔ onLine sourceCode line = true := by
  rw [findNcloc, Linter.Ncloc.mem_findNcloc, onLine, List.any_eq_true]
  constructor
  · rintro ⟨spot, hspot, hstart, hstop⟩
    obtain ⟨token, htoken, hmap⟩ := List.mem_filterMap.mp hspot
    obtain ⟨loc, hloc, rfl⟩ := Option.map_eq_some_iff.mp hmap
    exact ⟨token, htoken, by simpa [hloc] using ⟨hstart, hstop⟩⟩
  · rintro ⟨token, htoken, hany⟩
    cases hloc : (sourceCode.objects token).loc with
    | none => simp [hloc] at hany
    | some loc =>
      simp only [hloc, Option.any_some, Bool.and_eq_true, decide_eq_true_eq] at hany
      exact ⟨_, List.mem_filterMap.mpr ⟨token, htoken, by rw [hloc, Option.map_some]⟩, hany.1, hany.2⟩

theorem count_findNcloc (line : ℕ) : (findNcloc sourceCode).count line = if onLine sourceCode line then 1 else 0 := by
  have hnodup : (findNcloc sourceCode).Nodup :=
    (Linter.Ncloc.sorted_findNcloc none).imp fun hlt => Nat.ne_of_lt hlt
  split_ifs with hline
  · exact List.count_eq_one_of_mem hnodup (mem_findNcloc.mpr hline)
  · exact List.count_eq_zero.mpr fun hmem => hline (mem_findNcloc.mp hmem)

theorem line_le_of_getLocFromIndex (doc : eslint.Documented) {loc : Location} (hle : p ≤ q)
    (h : eslint.getLocFromIndex (patchedText .html text) q = some loc) :
    (locate (lineStarts htmlBreak text) p).line ≤ loc.line := by
  rcases Nat.lt_trichotomy q text.length with hlt | rfl | hgt
  · rw [patchedText, getLocFromIndex_inside doc _ _ hlt] at h
    obtain rfl := Option.some.inj h
    exact line_mono hle
  · rw [patchedText, getLocFromIndex_end doc] at h
    obtain rfl := Option.some.inj h
    have hsub : lineStarts htmlBreak text ⊆ lineStarts eslintBreak text :=
      fun s hs => @mem_lineStarts_eslint .html _ _ hs
    exact (List.length_filter_le _ _).trans ((isTable_lineStarts _ _).nodup.subperm hsub).length_le
  · rw [doc.outOfRange _ _ hgt] at h
    exact absurd h (Option.some_ne_none _).symm

theorem Patched.line_bounds (h : Patched eslint js text sourceCode) (doc : eslint.Documented) {line : ℕ}
    (hline : onLine sourceCode line = true) : (locate (lineStarts htmlBreak text) js.offset).line ≤ line ∧
      (js.stop < text.length → line ≤ (locate (lineStarts htmlBreak text) js.stop).line) := by
  obtain ⟨token, htoken, hany⟩ := List.any_eq_true.mp hline
  obtain ⟨loc, s, e, hobject, hstart, hle, hstop, hs, he⟩ := h.located token (.inr (.inr htoken))
  simp only [hobject, Option.any_some, Bool.and_eq_true, decide_eq_true_eq] at hany
  refine ⟨(line_le_of_getLocFromIndex doc hstart hs).trans hany.1, fun hlt => hany.2.trans ?_⟩
  rw [patchedText, getLocFromIndex_inside doc _ _ (by omega)] at he
  rw [← Option.some.inj he]
  exact line_mono hstop

/-! ### All scripts of a file -/

theorem count_flatMap_findNcloc (results : List (ExtendedParseResult α)) (line : ℕ) :
    (results.flatMap fun result => findNcloc result.sourceCode).count line =
      results.countP fun result => onLine result.sourceCode line := by
  induction results with
  | nil => rfl
  | cons result results ih =>
    rw [List.flatMap_cons, List.count_append, ih, count_findNcloc, List.countP_cons, Nat.add_comm]

section Forall₂

variable {β γ : Type} {Made : β → γ → Prop} {l : List β} {l' : List γ}

theorem exists_of_forall₂ (h : List.Forall₂ Made l l') {b' : γ} (hb' : b' ∈ l') : ∃ b ∈ l, Made b b' := by
  induction h with
  | nil => exact absurd hb' List.not_mem_nil
  | cons hfirst _ ih =>
    rcases List.mem_cons.mp hb' with rfl | hb'
    · exact ⟨_, List.mem_cons_self, hfirst⟩
    · obtain ⟨b, hb, hmade⟩ := ih hb'
      exact ⟨b, List.mem_cons_of_mem _ hb, hmade⟩

theorem pairwise_of_forall₂ {S : β → β → Prop} (h : List.Forall₂ Made l l') (hpairwise : l.Pairwise S) :
    l'.Pairwise fun a' b' => ∃ a b, Made a a' ∧ Made b b' ∧ S a b := by
  induction h with
  | nil => exact .nil
  | cons hfirst hrest ih =>
    obtain ⟨hS, hpairwise⟩ := List.pairwise_cons.mp hpairwise
    refine List.pairwise_cons.mpr ⟨fun b' hb' => ?_, ih hpairwise⟩
    obtain ⟨b, hb, hmade⟩ := exists_of_forall₂ hrest hb'
    exact ⟨_, b, hfirst, hmade, hS b hb⟩

end Forall₂

/-- A script that has been built. -/
def Built (eslint : ESLint) (text : Text) (js : EmbeddedJS Unit) (result : ExtendedParseResult α) : Prop :=
  js.stop ≤ text.length ∧ Patched eslint js text result.sourceCode

theorem build_scripts [DecidableEq α] {tools : Tools α} (doc : tools.eslint.Documented)
    {events : Text → List HtmlEvent} (hevents : DocumentedEvents events)
    (hparser : ∀ code sourceCode, tools.buildJsTs code = .ok sourceCode → Parsed code sourceCode) {filePath : String}
    {results : List (ExtendedParseResult α)}
    (h : build tools (fun _ => none) filePath (parseHTML events text) = .ok results) :
    List.Forall₂ (Built tools.eslint text) (parseHTML events text) results := by
  refine ((List.forall₂_and_left ..).mpr ⟨fun _ hjs => hjs, build_forall₂ h⟩).imp fun js result hboth => ?_
  obtain ⟨hjs, hbuilt⟩ := hboth
  have hstop := (parseHTML_separate hevents text).2 js hjs
  obtain ⟨start, stop, -, rfl⟩ := exists_snippet hjs
  refine ⟨hstop, ?_⟩
  rw [buildSnippet] at hbuilt
  cases hparsed : tools.buildJsTs (slice text start stop) with
  | error error => simp [scriptSnippet, hparsed] at hbuilt
  | ok code =>
    obtain ⟨patched, hpatched, hspec⟩ := patchSourceCode_script doc (hparser _ _ hparsed) hstop
    have hcode : tools.buildJsTs (scriptSnippet text start stop).code = .ok code := hparsed
    simp only [hcode, hpatched] at hbuilt
    obtain rfl := Except.ok.inj hbuilt
    exact hspec

/-- Of each script the issues in its program are kept. -/
theorem Built.kept_spec {tools : Tools α} (doc : tools.eslint.Documented) {js : EmbeddedJS Unit}
    {result : ExtendedParseResult α} (hbuilt : Built tools.eslint text js result)
    (hkept : removeNonJsIssues tools.eslint result.sourceCode
      (tools.lint result.sourceCode result.syntheticFilePath).1 = some (kept tools result)) :
    ∃ s e, (result.sourceCode.objects result.sourceCode.ast.id).range = some (s, e) ∧ js.offset ≤ s ∧ e ≤ js.stop ∧
      ∀ issue, issue ∈ kept tools result ↔ issue ∈ (tools.lint result.sourceCode result.syntheticFilePath).1 ∧
        ¬ issue.start.Before (locate (lineStarts eslintBreak (stripBOM text)) s) ∧
        ¬ (locate (lineStarts eslintBreak (stripBOM text)) e).Before issue.start := by
  obtain ⟨-, hsource, hlocated⟩ := hbuilt
  obtain ⟨loc, s, e, hobject, hstart, -, hstop, -, -⟩ := hlocated _ result.sourceCode.isObject_ast
  refine ⟨s, e, by rw [hobject], hstart, hstop, fun issue => ?_⟩
  rw [removeNonJsIssues_spec doc hsource (by rw [hobject]) hkept, List.mem_filter, Bool.and_eq_true,
    Location.isBeforeOrEqual_iff, Location.isBeforeOrEqual_iff]

theorem analyzeEmbedded_html [DecidableEq α] {tools : Tools α} (doc : tools.eslint.Documented)
    {events : Text → List HtmlEvent} (hevents : DocumentedEvents events)
    (hparser : ∀ code sourceCode, tools.buildJsTs code = .ok sourceCode → Parsed code sourceCode) {filePath : String}
    {output : EmbeddedAnalysisOutput}
    (h : analyzeEmbedded tools (fun _ => none) (parseHTML events) filePath text = .ok output) :
    ∃ results, build tools (fun _ => none) filePath (parseHTML events text) = .ok results ∧
      output.issues = results.flatMap (kept tools) ∧
      (∀ result ∈ results, ∃ s e, (result.sourceCode.objects result.sourceCode.ast.id).range = some (s, e) ∧
        ∀ issue p, tools.eslint.getLocFromIndex result.sourceCode.source p = some issue.start →
          (issue ∈ kept tools result ↔
            issue ∈ (tools.lint result.sourceCode result.syntheticFilePath).1 ∧ s ≤ p ∧ p ≤ e)) ∧
      results.Pairwise (fun result later => ∃ s e jsStart,
        (later.sourceCode.objects later.sourceCode.ast.id).range = some (s, e) ∧
        tools.eslint.getLocFromIndex later.sourceCode.source s = some jsStart ∧
        ∀ issue ∈ kept tools result, issue.start.Before jsStart ∧
          ∀ next ∈ kept tools later, issue.start.Before next.start) ∧
      output.ncloc.Pairwise (· ≤ ·) ∧
      ∀ line, output.ncloc.count line = results.countP fun result => onLine result.sourceCode line := by
  rw [analyzeEmbedded] at h
  cases hbuild : build tools (fun _ => none) filePath (parseHTML events text) with
  | error failure => simp [hbuild, Except.bind] at h
  | ok results =>
    rw [hbuild] at h
    obtain ⟨hissues, hncloc, hkept⟩ := analyzeFile_eq h
    have hbuilt := build_scripts doc hevents hparser hbuild
    have happart := pairwise_of_forall₂ hbuilt (parseHTML_separate hevents text).1
    have htable := isTable_lineStarts eslintBreak (stripBOM text)
    rw [List.nil_append] at hissues hncloc
    refine ⟨results, rfl, hissues, fun result hresult => ?_, ?_, ?_, fun line => ?_⟩
    · obtain ⟨js, -, hjs⟩ := exists_of_forall₂ hbuilt hresult
      obtain ⟨s, e, hrange, -, -, hspec⟩ := hjs.kept_spec doc (hkept result hresult)
      refine ⟨s, e, hrange, fun issue p hp => ?_⟩
      rw [hjs.2.source] at hp
      obtain ⟨-, hstart⟩ := le_of_getLocFromIndex doc hp
      rw [hspec, hstart, not_before_iff htable, not_before_iff htable]
    · refine happart.imp_of_mem fun {result later} hresult hlater hsnippets => ?_
      obtain ⟨js, js', hjs, hjs', hlt⟩ := hsnippets
      obtain ⟨s, e, -, -, hstop, hspec⟩ := hjs.kept_spec doc (hkept result hresult)
      obtain ⟨s', e', hrange, hstart, -, hspec'⟩ := hjs'.kept_spec doc (hkept later hlater)
      obtain ⟨jsStart, hjsStart⟩ := exists_start hrange (hkept later hlater)
      have hlocated := hjsStart
      rw [hjs'.2.source] at hlocated
      obtain ⟨-, hjsStartEq⟩ := le_of_getLocFromIndex doc hlocated
      refine ⟨s', e', jsStart, hrange, hjsStart, fun issue hissue => ?_⟩
      have hbefore := locate_before (p := e) (q := s') htable (by omega)
      have hissueBefore := Location.Before.le_trans ((hspec issue).mp hissue).2.2 hbefore
      refine ⟨hjsStartEq ▸ hissueBefore, fun next hnext => ?_⟩
      exact hissueBefore.trans_le ((hspec' next).mp hnext).2.1
    · rw [hncloc]
      refine List.pairwise_flatMap.mpr ⟨fun result _ => ?_, happart.imp fun {result later} hsnippets line hline next hnext => ?_⟩
      · exact (Linter.Ncloc.sorted_findNcloc none).imp fun hlt => Nat.le_of_lt hlt
      · obtain ⟨js, js', hjs, hjs', hlt⟩ := hsnippets
        have hlast := (hjs.2.line_bounds doc (mem_findNcloc.mp hline)).2
        have hfirst := (hjs'.2.line_bounds doc (mem_findNcloc.mp hnext)).1
        have hstop : js'.offset ≤ text.length := (Nat.le_add_right _ _).trans hjs'.1
        exact ((hlast (by omega)).trans (line_mono hlt.le)).trans hfirst
    · rw [hncloc]
      exact count_flatMap_findNcloc results line

/-! ### Two scripts on a line -/

def twoScripts : Text := units "<script>f</script><script>g</script>"

def twoEvents : Text → List HtmlEvent := fun text =>
  if text = twoScripts then
    [.openTag "script" none none 7, .closeTag "script" 9, .openTag "script" none none 25, .closeTag "script" 27]
  else []

theorem documented_twoEvents : DocumentedEvents twoEvents where
  inside text name src type endIndex hmem := by
    rw [twoEvents] at hmem
    split_ifs at hmem with htext
    · subst htext
      simp only [List.mem_cons, HtmlEvent.openTag.injEq, reduceCtorEq, List.not_mem_nil, or_false, false_or] at hmem
      show endIndex < 36
      omega
    · exact absurd hmem List.not_mem_nil
  forward text := by
    rw [twoEvents]
    split_ifs
    · simp only [List.pairwise_cons, List.mem_cons, List.not_mem_nil, or_false, forall_eq_or_imp, forall_eq, reduceCtorEq,
        HtmlEvent.openTag.injEq, HtmlEvent.index]
      grind
    · exact List.Pairwise.nil

/-- A program that is one token. -/
def oneToken (code : Text) : SourceCode ℕ where
  ast := .mk 0 "Program" []
  comments := []
  tokens := [1]
  visitorKeys := fun _ => none
  source := documentedESLint.sourceText code
  objects _ := ⟨some ⟨⟨1, 0⟩, ⟨1, code.length⟩⟩, some (0, code.length)⟩

theorem oneToken_patched (code : Text) (source : SourceText) :
    SourceCode.patched { oneToken code with source } = [0, 1] := by
  simp [SourceCode.patched, oneToken, visit, childrenOf, Node.id]

theorem parsed_oneToken (code : Text) : Parsed code (oneToken code) where
  once := by
    show (SourceCode.patched { oneToken code with source := _ }).Nodup
    rw [oneToken_patched]
    decide
  located _ _ := ⟨_, 0, code.length, rfl, Nat.zero_le _, Nat.le_refl _⟩

/-- A rule on the text finds both scripts in each of them. -/
def textRule : List Issue := [⟨"S1", [], ⟨1, 8⟩⟩, ⟨"S1", [], ⟨1, 26⟩⟩]

def twoTools : Tools ℕ where
  eslint := documentedESLint
  large _ _ := []
  buildJsTs code := .ok (oneToken code)
  composeSyntheticFilePath filePath _ := filePath
  lint _ _ := (textRule, [])

theorem analyze_twoScripts : analyzeEmbedded twoTools (fun _ => none) (parseHTML twoEvents) "index.html" twoScripts =
    .ok ⟨textRule, [], [1, 1]⟩ := by
  have hpatch : ∀ js : EmbeddedJS Unit, patchSourceCode documentedESLint (oneToken js.code) js =
      (([0, 1] : List ℕ).foldlM (fun objects object =>
        (fixNodeLocation documentedESLint ⟨js.text, computeLines js, js.lineStarts⟩ js.offset (objects object)).map
          (Function.update objects object)) (oneToken js.code).objects).bind fun objects =>
        some { oneToken js.code with source := documentedESLint.sourceText js.text, objects } := by
    intro js
    rw [patchSourceCode, patchASTLocations, oneToken_patched]
    rfl
  have hsnippets : parseHTML twoEvents twoScripts = [scriptSnippet twoScripts 8 9, scriptSnippet twoScripts 26 27] := rfl
  rw [analyzeEmbedded, hsnippets]
  simp only [build, buildSnippet, twoTools, hpatch]
  rfl

/-- The issues of the rule are reported once, the line is listed twice. -/
theorem analyzeEmbedded_html_twoScripts : ∃ output, ∃ results : List (ExtendedParseResult ℕ),
    analyzeEmbedded twoTools (fun _ => none) (parseHTML twoEvents) "index.html" twoScripts = .ok output ∧
      results.length = 2 ∧ output.issues = results.flatMap (kept twoTools) ∧ output.issues = textRule ∧
      output.ncloc.count 1 = results.countP fun result => onLine result.sourceCode 1 := by
  obtain ⟨results, hbuild, hissues, -, -, -, hcount⟩ := analyzeEmbedded_html documented documented_twoEvents
    (fun code _ h => Except.ok.inj h ▸ parsed_oneToken code) analyze_twoScripts
  exact ⟨_, results, analyze_twoScripts, (build_forall₂ hbuild).length_eq.symm, hissues, rfl, hcount 1⟩

end SonarJavascript.Embedded
