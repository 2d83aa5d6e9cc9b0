import SonarJavascript.Embedded.LineTable

/-!
# Snippets of HTML files

`parseHTML` extracts the scripts of an HTML file. The htmlparser2 library is a parameter: the tags that it
opens and closes, in its order and with the indices that the handlers read.

A snippet is what lies between the tags, at the line and the column of its first character
(`exists_snippet`).
-/

namespace SonarJavascript.Embedded

/-- A call of `onopentag` or `onclosetag`, with the index of the parser that the handler reads. -/
inductive HtmlEvent
  | openTag (name : String) (src type : Option String) (endIndex : ℕ)
  | closeTag (name : String) (startIndex : ℕ)

def validMimeTypes : List String :=
  ["module", "text/javascript", "application/javascript", "application/ecmascript", "application/x-ecmascript",
    "application/x-javascript", "text/ecmascript", "text/javascript1.0", "text/javascript1.1",
    "text/javascript1.2", "text/javascript1.3", "text/javascript1.4", "text/javascript1.5", "text/jscript",
    "text/livescript", "text/x-ecmascript", "text/x-javascript"]

/-- A missing attribute is undefined, and the empty string is falsy. -/
def truthy (value : Option String) : Bool := value.any (· ≠ "")

/-- The variables of the handlers. `jsSnippetEndIndex` is written before each read. -/
structure ParseState where
  embeddedJSs : List (EmbeddedJS Unit)
  jsSnippetStartIndex : ℕ
  inScript : Bool

def onopentag (state : ParseState) (name : String) (src type : Option String) (endIndex : ℕ) : ParseState :=
  if name ≠ "script" then state
  else if truthy src ∨ (truthy type ∧ type.getD "" ∉ validMimeTypes) then state
  else { state with inScript := true, jsSnippetStartIndex := endIndex + 1 }

/-- The snippet from `start` to `stop`. -/
def scriptSnippet (code : Text) (start stop : ℕ) : EmbeddedJS Unit where
  code := slice code start stop
  line := computeLine start (computeLineStarts code)
  column := computeCol start (computeLineStarts code)
  offset := start
  lineStarts := computeLineStarts code
  text := code
  format := .plain
  extras := ()

def onclosetag (code : Text) (state : ParseState) (name : String) (startIndex : ℕ) : ParseState :=
  if name ≠ "script" ∨ state.inScript = false then state
  else
    { embeddedJSs := state.embeddedJSs ++ [scriptSnippet code state.jsSnippetStartIndex startIndex]
      jsSnippetStartIndex := startIndex
      inScript := false }

def onEvent (code : Text) (state : ParseState) : HtmlEvent → ParseState
  | .openTag name src type endIndex => onopentag state name src type endIndex
  | .closeTag name startIndex => onclosetag code state name startIndex

def parseHTML (events : Text → List HtmlEvent) (code : Text) : List (EmbeddedJS Unit) :=
  if code = [] then []
  else ((events code).foldl (onEvent code) ⟨[], 0, false⟩).embeddedJSs

/-! ### Where a snippet comes from -/

/-- Every snippet starts after a tag, and so does the one that is open. -/
structure ParseState.Valid (code : Text) (state : ParseState) : Prop where
  snippets : ∀ js ∈ state.embeddedJSs, ∃ start stop, 0 < start ∧ js = scriptSnippet code start stop
  opened : state.inScript = true → 0 < state.jsSnippetStartIndex

theorem ParseState.Valid.onEvent {code : Text} {state : ParseState} (h : state.Valid code) (event : HtmlEvent) :
    (onEvent code state event).Valid code := by
  cases event with
  | openTag name src type endIndex =>
    simp only [Embedded.onEvent, onopentag]
    split_ifs
    · exact h
    · exact h
    · exact ⟨h.snippets, fun _ => Nat.succ_pos endIndex⟩
  | closeTag name startIndex =>
    simp only [Embedded.onEvent, onclosetag]
    split_ifs with hskip
    · exact h
    · refine ⟨fun js hjs => ?_, fun hopen => absurd hopen (by simp)⟩
      obtain hjs | hjs := List.mem_append.mp hjs
      · exact h.snippets js hjs
      · exact ⟨_, _, h.opened (by simpa using (not_or.mp hskip).2), List.mem_singleton.mp hjs⟩

theorem exists_snippet {events : Text → List HtmlEvent} {code : Text} {js : EmbeddedJS Unit}
    (h : js ∈ parseHTML events code) : ∃ start stop, 0 < start ∧ js = scriptSnippet code start stop := by
  unfold parseHTML at h
  split_ifs at h
  · simp at h
  · have hvalid : ((events code).foldl (onEvent code) ⟨[], 0, false⟩).Valid code := by
      refine List.foldlRecOn (motive := ParseState.Valid code) (events code) _ ?_ ?_
      · exact ⟨by simp, by simp⟩
      · exact fun state hstate event _ => hstate.onEvent event
    exact hvalid.snippets js h

end SonarJavascript.Embedded
