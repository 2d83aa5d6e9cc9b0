import Mathlib.Data.List.ReduceOption
import SonarJavascript.Embedded.Text
import SonarJavascript.Lib.ListResults

/-!
# Snippets of YAML files

`parseYaml` extracts the values of the pairs that a parsing context selects. The yaml library is a
parameter: its documents, as the pairs in the order of `yaml.visit`, and its line counter. What it
promises about the values is `Documented`: a plain scalar is the text at its range, and a block scalar is
a header line, from the indicator to the line break, followed by the source.

The offset of a block scalar is taken to be two after the indicator. `offset_faithful_iff` says that this
is the start of the content exactly when the indicator is the whole header line.
-/

namespace SonarJavascript.Embedded

open CodeUnit ListResults

/-! ### The library -/

inductive ScalarType
  | plain
  | quoteDouble
  | quoteSingle
  | blockFolded
  | blockLiteral
  deriving DecidableEq

/-- The value of a pair: its type, when it is a scalar, and the start of its range. -/
structure YamlValue where
  type : Option ScalarType
  rangeStart : ℕ

/-- A visited pair. `position` stands for the key and the ancestors, which only the parsing contexts
read; `source` is `srcToken.value.source`, missing when there is no such token. -/
structure Pair (Position : Type) where
  position : Position
  value : Option YamlValue
  source : Option Text

/-- The message and the position of an error. -/
structure YamlError where
  message : String
  pos : ℕ

structure Doc (Position : Type) where
  errors : List YamlError
  pairs : List (Pair Position)

structure YamlLibrary (Position : Type) where
  docs : Text → List (Doc Position)
  lineStarts : Text → List ℕ
  /-- Line and column. -/
  linePos : Text → ℕ → ℕ × ℕ

/-- The indicator at the start of a block scalar. -/
def indicator : ScalarType → Option CodeUnit
  | .blockLiteral => some 0x7c
  | .blockFolded => some 0x3e
  | _ => none

/-- A block scalar of the text: its indicator at `start`, the rest of the header line, the line break and
the source. The file may end with the header line. -/
structure BlockScalar (text : Text) (start : ℕ) (mark : CodeUnit) (source : Text) : Prop where
  exists_header : ∃ before header lineBreak after,
    text = before ++ mark :: header ++ lineBreak ++ source ++ after ∧ before.length = start ∧
      LF ∉ header ∧ (lineBreak = [LF] ∨ lineBreak = [CR, LF] ∨ (lineBreak = [] ∧ source = [] ∧ after = []))

variable {Position Extras : Type}

/-- What the library promises about the scalars of a document. -/
structure Documented (yaml : YamlLibrary Position) : Prop where
  plain : ∀ text, ∀ doc ∈ yaml.docs text, ∀ pair ∈ doc.pairs, ∀ value source, pair.value = some value →
    value.type = some .plain → pair.source = some source →
    slice text value.rangeStart (value.rangeStart + source.length) = source
  block : ∀ text, ∀ doc ∈ yaml.docs text, ∀ pair ∈ doc.pairs, ∀ value type mark source,
    pair.value = some value → value.type = some type → indicator type = some mark →
    pair.source = some source → BlockScalar text value.rangeStart mark source

/-! ### The parser -/

/-- A predicate that selects pairs and the extras to keep of a selected one. -/
structure ParsingContext (Position Extras : Type) where
  predicate : Pair Position → Bool
  picker : Pair Position → Extras

inductive ParseYamlError
  | parsingError (message : String) (line : ℕ)
  /-- `srcToken.value` is undefined. -/
  | typeError

def supportedFormat : ScalarType → Option Format
  | .plain => some .plain
  | .blockFolded => some .blockFolded
  | .blockLiteral => some .blockLiteral
  | _ => none

/-- `pair.value.type` when it is a supported format. -/
def isSupportedFormat (pair : Pair Position) : Option (YamlValue × Format) :=
  pair.value.bind fun value => (value.type.bind supportedFormat).map fun format => (value, format)

def fixOffset (offset : ℕ) (format : Format) : ℕ :=
  if format = .blockFolded ∨ format = .blockLiteral then offset + 2 else offset

variable (yaml : YamlLibrary Position)

/-- The snippet of a pair in one context, when it is selected. -/
def extract (text : Text) (pair : Pair Position) (context : ParsingContext Position Extras) :
    Except ParseYamlError (Option (EmbeddedJS Extras)) :=
  if context.predicate pair = true then
    match isSupportedFormat pair with
    | none => .ok none
    | some (value, format) =>
      match pair.source with
      | none => .error .typeError
      | some code => .ok (some
        { code := code
          line := (yaml.linePos text value.rangeStart).1
          column := (yaml.linePos text value.rangeStart).2
          offset := fixOffset value.rangeStart format
          lineStarts := yaml.lineStarts text
          text := text
          format := format
          extras := context.picker pair })
  else .ok none

def visitPair (contexts : List (ParsingContext Position Extras)) (text : Text) (pair : Pair Position) :
    Except ParseYamlError (List (EmbeddedJS Extras)) :=
  (contexts.mapM (extract yaml text pair)).map List.reduceOption

def parseDoc (contexts : List (ParsingContext Position Extras)) (text : Text) (doc : Doc Position) :
    Except ParseYamlError (List (EmbeddedJS Extras)) :=
  match doc.errors with
  | error :: _ => .error (.parsingError error.message (yaml.linePos text error.pos).1)
  | [] => (doc.pairs.mapM (visitPair yaml contexts text)).map List.flatten

def parseYaml (contexts : List (ParsingContext Position Extras)) (text : Text) :
    Except ParseYamlError (List (EmbeddedJS Extras)) :=
  ((yaml.docs text).mapM (parseDoc yaml contexts text)).map List.flatten

/-! ### Where a snippet comes from -/

/-- Every snippet is extracted from a pair in a context. -/
theorem exists_extract {yaml : YamlLibrary Position} {contexts : List (ParsingContext Position Extras)}
    {text : Text} {snippets : List (EmbeddedJS Extras)} (h : parseYaml yaml contexts text = .ok snippets)
    {js : EmbeddedJS Extras} (hjs : js ∈ snippets) :
    ∃ doc ∈ yaml.docs text, ∃ pair ∈ doc.pairs, ∃ context ∈ contexts,
      extract yaml text pair context = .ok (some js) := by
  obtain ⟨perDoc, hdocs, rfl⟩ := exists_of_map_ok h
  obtain ⟨docSnippets, hdocSnippets, hjs⟩ := List.mem_flatten.mp hjs
  obtain ⟨doc, hdoc, hparse⟩ := exists_of_mem_mapM hdocs hdocSnippets
  unfold parseDoc at hparse
  cases herr : doc.errors with
  | cons error rest => rw [herr] at hparse; cases hparse
  | nil =>
    rw [herr] at hparse
    obtain ⟨perPair, hpairs, rfl⟩ := exists_of_map_ok hparse
    obtain ⟨pairSnippets, hpairSnippets, hjs⟩ := List.mem_flatten.mp hjs
    obtain ⟨pair, hpair, hvisit⟩ := exists_of_mem_mapM hpairs hpairSnippets
    obtain ⟨perContext, hcontexts, rfl⟩ := exists_of_map_ok hvisit
    obtain ⟨context, hcontext, hextract⟩ := exists_of_mem_mapM hcontexts (List.reduceOption_mem_iff.mp hjs)
    exact ⟨doc, hdoc, pair, hpair, context, hcontext, hextract⟩

/-! ### Offsets -/

/-- The start of the line after the one of `start`. -/
def contentStart (text : Text) (start : ℕ) : ℕ :=
  start + ((text.drop start).takeWhile (· ≠ LF)).length + 1

/-- The offset of the snippet is that of its code: for a plain scalar the code is the text at the offset,
for a block scalar the offset is where the first content line starts. -/
def Faithful (js : EmbeddedJS Extras) (start : ℕ) : Prop :=
  if js.format = .plain then slice js.text js.offset (js.offset + js.code.length) = js.code
  else js.code ≠ [] → js.offset = contentStart js.text start

/-- Position of the content of a block scalar, and when it is two after the indicator. -/
theorem BlockScalar.contentStart {text source : Text} {start : ℕ} {mark : CodeUnit}
    (h : BlockScalar text start mark source) (hmark : mark ≠ LF) (hsource : source ≠ []) :
    slice text (contentStart text start) (contentStart text start + source.length) = source ∧
      (start + 2 = contentStart text start ↔ text[start + 1]? = some LF) := by
  obtain ⟨before, header, lineBreak, after, rfl, rfl, hheader, hbreak⟩ := h.exists_header
  have hkeep : ∀ l : Text, LF ∉ l → ∀ rest, (l ++ LF :: rest).takeWhile (· ≠ LF) = l := by
    intro l hl rest
    have hall : ∀ a ∈ l, decide (a ≠ LF) = true := fun a ha => by
      have hne : a ≠ LF := fun he => hl (he ▸ ha)
      simpa using hne
    rw [List.takeWhile_append_of_pos hall]
    simp
  have hCR : CR ≠ LF := by decide
  have hline : LF ∉ mark :: header := fun hmem =>
    (List.mem_cons.mp hmem).elim (fun he => hmark he.symm) hheader
  have hdrop : (before ++ mark :: header ++ lineBreak ++ source ++ after).drop before.length =
      mark :: header ++ lineBreak ++ source ++ after := by
    simp [List.append_assoc]
  have hnext : (before ++ mark :: header ++ lineBreak ++ source ++ after)[before.length + 1]? =
      (header ++ lineBreak ++ source ++ after)[0]? := by
    rw [← List.getElem?_drop, hdrop]
    rfl
  -- the line break ends the header line, so the content starts right after it
  have hstart : Embedded.contentStart (before ++ mark :: header ++ lineBreak ++ source ++ after)
      before.length = (before ++ mark :: header ++ lineBreak).length := by
    unfold Embedded.contentStart
    rw [hdrop]
    rcases hbreak with rfl | rfl | ⟨-, hnil, -⟩
    · have := hkeep (mark :: header) hline (source ++ after)
      rw [show mark :: header ++ [LF] ++ source ++ after = mark :: header ++ LF :: (source ++ after) by simp,
        this]
      simp
      omega
    · have hcr : LF ∉ mark :: header ++ [CR] := fun hmem =>
        (List.mem_append.mp hmem).elim hline fun he => hCR (List.mem_singleton.mp he).symm
      have := hkeep (mark :: header ++ [CR]) hcr (source ++ after)
      rw [show mark :: header ++ [CR, LF] ++ source ++ after =
        mark :: header ++ [CR] ++ LF :: (source ++ after) by simp, this]
      simp
      omega
    · exact absurd hnil hsource
  rw [hstart, hnext]
  refine ⟨slice_append, ?_⟩
  cases header with
  | nil =>
    rcases hbreak with rfl | rfl | ⟨-, hnil, -⟩
    · simp
    · simp [hCR]
    · exact absurd hnil hsource
  | cons a header =>
    have ha : a ≠ LF := fun he => hheader (he ▸ List.mem_cons_self)
    rcases hbreak with rfl | rfl | ⟨-, hnil, -⟩
    · simp [ha]
    · simp [ha]
    · exact absurd hnil hsource

/-- What is in a snippet. -/
theorem extract_eq_some {yaml : YamlLibrary Position} {text : Text} {pair : Pair Position}
    {context : ParsingContext Position Extras} {js : EmbeddedJS Extras}
    (h : extract yaml text pair context = .ok (some js)) :
    ∃ value type, pair.value = some value ∧ value.type = some type ∧ supportedFormat type = some js.format ∧
      pair.source = some js.code ∧ js.text = text ∧ js.offset = fixOffset value.rangeStart js.format ∧
      (js.line, js.column) = yaml.linePos text value.rangeStart := by
  unfold extract at h
  split_ifs at h
  · cases hformat : isSupportedFormat pair with
    | none => rw [hformat] at h; cases h
    | some supported =>
      obtain ⟨value, format⟩ := supported
      rw [hformat] at h
      cases hsource : pair.source with
      | none => rw [hsource] at h; cases h
      | some code =>
        rw [hsource] at h
        obtain rfl := Option.some.inj (Except.ok.inj h)
        obtain ⟨value', hvalue, hmap⟩ := Option.bind_eq_some_iff.mp hformat
        obtain ⟨format', hbind, heq⟩ := Option.map_eq_some_iff.mp hmap
        obtain ⟨type, htype, hsupported⟩ := Option.bind_eq_some_iff.mp hbind
        cases heq
        exact ⟨value, type, hvalue, htype, hsupported, rfl, rfl, rfl, rfl⟩
  · cases h

theorem type_eq_plain {type : ScalarType} (h : supportedFormat type = some .plain) : type = .plain := by
  cases type <;> simp [supportedFormat] at h ⊢

theorem exists_indicator {type : ScalarType} {format : Format} (h : supportedFormat type = some format)
    (hplain : format ≠ .plain) : ∃ mark, indicator type = some mark ∧ mark ≠ LF := by
  cases type with
  | blockLiteral => exact ⟨0x7c, rfl, by decide⟩
  | blockFolded => exact ⟨0x3e, rfl, by decide⟩
  | plain => exact absurd (Option.some.inj h).symm hplain
  | quoteDouble => cases h
  | quoteSingle => cases h

/-- **When an offset is faithful.** The offset of a snippet is that of its code if and only if the scalar is
plain, or it has no content, or the line break comes right after the indicator. -/
theorem offset_faithful_iff (yaml : YamlLibrary Position) (hyaml : Documented yaml)
    (contexts : List (ParsingContext Position Extras)) (text : Text) {snippets : List (EmbeddedJS Extras)}
    (hparse : parseYaml yaml contexts text = .ok snippets) {js : EmbeddedJS Extras} (hjs : js ∈ snippets) :
    ∃ doc ∈ yaml.docs text, ∃ pair ∈ doc.pairs, ∃ context ∈ contexts, ∃ value,
      extract yaml text pair context = .ok (some js) ∧ pair.value = some value ∧
      (js.format ≠ .plain → js.code ≠ [] →
        slice text (contentStart text value.rangeStart)
          (contentStart text value.rangeStart + js.code.length) = js.code) ∧
      (Faithful js value.rangeStart ↔
        js.format = .plain ∨ js.code = [] ∨ text[value.rangeStart + 1]? = some LF) := by
  obtain ⟨doc, hdoc, pair, hpair, context, hcontext, hextract⟩ := exists_extract hparse hjs
  obtain ⟨value, type, hvalue, htype, hformat, hsource, htext, hoffset, -⟩ := extract_eq_some hextract
  refine ⟨doc, hdoc, pair, hpair, context, hcontext, value, hextract, hvalue, ?_⟩
  unfold Faithful
  by_cases hplain : js.format = .plain
  · rw [hplain] at hformat hoffset
    obtain rfl := type_eq_plain hformat
    refine ⟨fun h => absurd hplain h, ?_⟩
    rw [if_pos hplain, htext, hoffset]
    exact iff_of_true (hyaml.plain text doc hdoc pair hpair value js.code hvalue htype hsource)
      (Or.inl hplain)
  · obtain ⟨mark, hmark, hne⟩ := exists_indicator hformat hplain
    have hblock := hyaml.block text doc hdoc pair hpair value type mark js.code hvalue htype hmark hsource
    have hfix : js.offset = value.rangeStart + 2 := by
      rw [hoffset]
      unfold fixOffset
      rw [if_pos]
      cases hjs : js.format with
      | plain => exact absurd hjs hplain
      | blockFolded => exact Or.inl rfl
      | blockLiteral => exact Or.inr rfl
    refine ⟨fun _ hcode => (hblock.contentStart hne hcode).1, ?_⟩
    rw [if_neg hplain, htext, hfix]
    by_cases hcode : js.code = []
    · exact iff_of_true (fun h => absurd hcode h) (Or.inr (Or.inl hcode))
    · rw [(hblock.contentStart hne hcode).2]
      simp [hplain, hcode]

/-! ### Two files -/

/-- What the line counter of the library records: the offset behind each line feed. -/
def lineStartsLF (text : Text) : List ℕ :=
  0 :: (text.zipIdx.filterMap fun (c, i) => if c = LF then some (i + 1) else none)

/-- A library that knows one file, whose only document has the pair `k` with a literal block. -/
def literalLibrary (file source : Text) : YamlLibrary Unit where
  docs text := if text = file then [⟨[], [⟨(), some ⟨some .blockLiteral, 3⟩, some source⟩]⟩] else []
  lineStarts := lineStartsLF
  linePos _ _ := (1, 4)

def anyContext : ParsingContext Unit Unit := ⟨fun _ => true, fun _ => ()⟩

theorem documented_literalLibrary {file source : Text} (h : BlockScalar file 3 0x7c source) :
    Documented (literalLibrary file source) where
  plain text doc hdoc pair hpair value code hvalue htype hcode := by
    simp only [literalLibrary] at hdoc
    split_ifs at hdoc
    · obtain rfl := List.mem_singleton.mp hdoc
      obtain rfl := List.mem_singleton.mp hpair
      cases hvalue
      cases htype
    · exact absurd hdoc List.not_mem_nil
  block text doc hdoc pair hpair value type mark code hvalue htype hmark hcode := by
    simp only [literalLibrary] at hdoc
    split_ifs at hdoc with htext
    · obtain rfl := List.mem_singleton.mp hdoc
      obtain rfl := List.mem_singleton.mp hpair
      cases hvalue
      cases htype
      cases hmark
      cases hcode
      exact htext ▸ h
    · exact absurd hdoc List.not_mem_nil

/-- `k: |` with the block on the next line. -/
def literalFile : Text := units "k: |\n  f()\n"

/-- `k: |-` with the block on the next line. -/
def stripFile : Text := units "k: |-\n  f()\n"

def blockSource : Text := units "  f()\n"

def literalSnippet (file : Text) : EmbeddedJS Unit := ⟨blockSource, 1, 4, 5, lineStartsLF file, file, .blockLiteral, ()⟩

theorem blockScalar_literalFile : BlockScalar literalFile 3 0x7c blockSource :=
  ⟨units "k: ", [], [LF], [], by decide, by decide, by decide, Or.inl rfl⟩

theorem blockScalar_stripFile : BlockScalar stripFile 3 0x7c blockSource :=
  ⟨units "k: ", units "-", [LF], [], by decide, by decide, by decide, Or.inl rfl⟩

/-- After `|` and a line break the offset is faithful. -/
theorem offset_faithful_iff_literal : Faithful (literalSnippet literalFile) 3 := by
  have hparse : parseYaml (literalLibrary literalFile blockSource) [anyContext] literalFile =
      .ok [literalSnippet literalFile] := rfl
  obtain ⟨doc, hdoc, pair, hpair, context, -, value, -, hvalue, -, hiff⟩ :=
    offset_faithful_iff (literalLibrary literalFile blockSource)
      (documented_literalLibrary blockScalar_literalFile) [anyContext] literalFile hparse List.mem_cons_self
  obtain rfl := List.mem_singleton.mp hdoc
  obtain rfl := List.mem_singleton.mp hpair
  cases hvalue
  exact hiff.mpr (by decide)

/-- After `|-` the snippet is recorded at the line break: offset 5, and the content starts at 6. -/
theorem offset_of_strip_indicator :
    Documented (literalLibrary stripFile blockSource) ∧
    parseYaml (literalLibrary stripFile blockSource) [anyContext] stripFile = .ok [literalSnippet stripFile] ∧
    ¬ Faithful (literalSnippet stripFile) 3 ∧ contentStart stripFile 3 = 6 :=
  ⟨documented_literalLibrary blockScalar_stripFile, rfl, by
    intro h
    exact absurd (h (by decide)) (by decide), by decide⟩

end SonarJavascript.Embedded
