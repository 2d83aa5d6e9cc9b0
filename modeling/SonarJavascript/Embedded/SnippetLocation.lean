import Mathlib.Data.List.TakeWhile
import SonarJavascript.Embedded.ParseHtml
import SonarJavascript.Embedded.Patch
import SonarJavascript.Embedded.ParseYaml

/-!
# Where a snippet lies in its file

`Produced` are the snippets of the two parsers, each with the index of its code in the file. The line table
is the one of the parser. A plain snippet is at its own line and column, a block scalar at the start of the
line after its own (`Produced.placed`).
-/

namespace SonarJavascript.Embedded

open CodeUnit

attribute [ext] Location

/-! ### Offsets from an index -/

section

variable {starts other : List ℕ} {start p : ℕ}

/-- The location `p` after `start`, by any table that has the same line starts after 0 as there are after
`start`. -/
theorem locate_add (h : IsTable starts) (h' : IsTable other)
    (hmem : ∀ s, 0 < s → s ≤ p → (start + s ∈ starts ↔ s ∈ other)) :
    locate starts (start + p) = ⟨(locate starts start).line + ((locate other p).line - 1),
      if (locate other p).line = 1 then (locate starts start).column + p else (locate other p).column⟩ := by
  have hlater : (other.filter fun s => decide (0 < s ∧ s ≤ p)).Pairwise (· < ·) := h'.sorted.filter _
  have hother : other.filter (· ≤ p) = 0 :: other.filter fun s => decide (0 < s ∧ s ≤ p) := by
    refine sorted_ext (h'.sorted.filter _) (List.pairwise_cons.mpr ⟨fun s hs => ?_, hlater⟩) fun s => ?_
    · exact (by simpa using hs : _ ∧ 0 < s ∧ s ≤ p).2.1
    · obtain rfl | hs := Nat.eq_zero_or_pos s
      · simpa using h'.zero_mem
      · simp [hs, hs.ne']
  have hstarts : starts.filter (· ≤ start + p) =
      starts.filter (· ≤ start) ++ (other.filter fun s => decide (0 < s ∧ s ≤ p)).map (start + ·) := by
    refine sorted_ext (h.sorted.filter _) (List.pairwise_append.mpr ⟨h.sorted.filter _,
      List.pairwise_map.mpr (hlater.imp fun hlt => by omega), fun s hs t ht => ?_⟩) fun s => ?_
    · obtain ⟨k, hk, rfl⟩ := List.mem_map.mp ht
      have hs := of_decide_eq_true (List.mem_filter.mp hs).2
      have hk := of_decide_eq_true (List.mem_filter.mp hk).2
      omega
    · simp only [List.mem_append, List.mem_filter, List.mem_map, decide_eq_true_eq]
      constructor
      · rintro ⟨hs, hle⟩
        by_cases hbefore : s ≤ start
        · exact .inl ⟨hs, hbefore⟩
        · obtain ⟨k, rfl⟩ : ∃ k, s = start + k := ⟨s - start, by omega⟩
          exact .inr ⟨k, ⟨(hmem k (by omega) (by omega)).mp hs, by omega, by omega⟩, rfl⟩
      · rintro (⟨hs, hle⟩ | ⟨k, ⟨hk, hpos, hle⟩, rfl⟩)
        · exact ⟨hs, by omega⟩
        · exact ⟨(hmem k hpos hle).mpr hk, by omega⟩
  have hlast := (h.last start).2.1
  unfold locate
  rw [hstarts, hother]
  generalize starts.filter (· ≤ start) = upTo at hlast ⊢
  cases hrest : other.filter fun s => decide (0 < s ∧ s ≤ p) with
  | nil =>
    simp only [List.map_nil, List.append_nil, List.length_singleton, Nat.sub_self, Nat.add_zero, if_true,
      Location.mk.injEq, true_and]
    omega
  | cons k rest =>
    obtain ⟨init, last, heq⟩ : ∃ init last, k :: rest = init ++ [last] :=
      ⟨_, _, (List.dropLast_append_getLast (List.cons_ne_nil k rest)).symm⟩
    rw [heq, List.map_append, List.map_singleton, ← List.append_assoc, ← List.cons_append,
      List.getLastD_concat, List.getLastD_concat]
    simp only [List.length_append, List.length_cons, List.length_map, List.length_nil]
    rw [if_neg (by omega), Location.mk.injEq]
    omega

theorem locate_add_of_forall (h : IsTable starts) (hnone : ∀ s ∈ starts, s ≤ start + p → s ≤ start) :
    locate starts (start + p) = ⟨(locate starts start).line, (locate starts start).column + p⟩ := by
  have hzero : IsTable [0] := ⟨by simp, by simp⟩
  rw [locate_add h hzero fun s hpos hle => ?_]
  · simp [locate]
  · refine iff_of_false (fun hs => ?_) (by simp; omega)
    have := hnone _ hs (by omega)
    omega

theorem IsTable.line_pos (h : IsTable starts) (p : ℕ) : 0 < (locate starts p).line :=
  List.length_pos_of_mem (List.mem_filter.mpr ⟨h.zero_mem, by simp⟩)

theorem IsTable.column_eq_iff (h : IsTable starts) :
    (locate starts p).column = p ↔ ∀ s ∈ starts, s ≤ p → s = 0 := by
  obtain ⟨hmem, hle, hmax⟩ := h.last p
  unfold locate
  constructor
  · intro heq s hs hsp
    have := hmax s hs hsp
    dsimp only at heq
    omega
  · intro hall
    rw [hall _ hmem hle, Nat.sub_zero]

theorem IsTable.line_eq_one_iff (h : IsTable starts) :
    (locate starts p).line = 1 ↔ ∀ s ∈ starts, s ≤ p → s = 0 := by
  constructor
  · intro hline s hs hsp
    obtain ⟨a, ha⟩ := List.length_eq_one_iff.mp hline
    have hzero : 0 ∈ starts.filter (· ≤ p) := List.mem_filter.mpr ⟨h.zero_mem, by simp⟩
    have hs : s ∈ starts.filter (· ≤ p) := List.mem_filter.mpr ⟨hs, by simpa using hsp⟩
    rw [ha, List.mem_singleton] at hzero hs
    rw [hs, hzero]
  · intro hall
    have hfilter : starts.filter (· ≤ p) = [0] := by
      refine sorted_ext (h.sorted.filter _) (List.pairwise_singleton _ _) fun s => ?_
      simp only [List.mem_filter, decide_eq_true_eq, List.mem_singleton]
      exact ⟨fun ⟨hs, hsp⟩ => hall s hs hsp, fun hs => hs ▸ ⟨h.zero_mem, Nat.zero_le p⟩⟩
    rw [locate, hfilter, List.length_singleton]

theorem line_lt_of_mem {s : ℕ} (hs : s ∈ starts) (hlt : start < s) (hle : s ≤ p) :
    (locate starts start).line < (locate starts p).line := by
  have hsub : (starts.filter (· ≤ start)).Sublist (starts.filter (· ≤ p)) :=
    List.monotone_filter_right starts fun t ht => by
      simp only [decide_eq_true_eq] at ht ⊢
      omega
  refine lt_of_le_of_ne hsub.length_le fun heq => ?_
  have hmem : s ∈ starts.filter (· ≤ start) := by
    rw [hsub.eq_of_length heq]
    exact List.mem_filter.mpr ⟨hs, by simpa using hle⟩
  have := of_decide_eq_true (List.mem_filter.mp hmem).2
  omega

theorem locate_next (h : IsTable starts) {next : ℕ} (hnext : next ∈ starts) (hlt : start < next)
    (hnone : ∀ s ∈ starts, start < s → next ≤ s) :
    locate starts next = ⟨(locate starts start).line + 1, 0⟩ := by
  obtain ⟨k, rfl⟩ : ∃ k, next = start + k := ⟨next - start, by omega⟩
  have htable : IsTable [0, k] := ⟨by simp; omega, by simp⟩
  rw [locate_add h htable fun s hpos hle => ?_]
  · simp [locate]
  · constructor
    · intro hs
      have := hnone _ hs (by omega)
      simp
      omega
    · intro hs
      obtain rfl : s = k := by
        simp at hs
        omega
      exact hnext

end

/-! ### The code in the file -/

variable {isBreak : CodeUnit → Bool} {text code : Text} {start s p : ℕ}

/-- The code is in the text at `start`. -/
def CodeAt (text code : Text) (start : ℕ) : Prop := ∀ i < code.length, text[start + i]? = code[i]?

theorem codeAt_slice (text : Text) (start stop : ℕ) : CodeAt text (slice text start stop) start := by
  intro i hi
  have hstop : i < stop - start := by
    have := List.length_take_le (stop - start) (text.drop start)
    exact lt_of_lt_of_le hi this
  rw [slice, List.getElem?_take_of_lt hstop, List.getElem?_drop]

theorem CodeAt.length_le (h : CodeAt text code start) (hcode : code ≠ []) :
    start + code.length ≤ text.length := by
  have hpos := List.length_pos_iff.mpr hcode
  have hlast := h (code.length - 1) (by omega)
  rw [List.getElem?_eq_getElem (show code.length - 1 < code.length by omega)] at hlast
  have := (List.getElem?_eq_some_iff.mp hlast).1
  omega

theorem CodeAt.isLineStart (h : CodeAt text code start) (hs : 0 < s) (hle : s ≤ code.length)
    (hstart : IsLineStart isBreak text (start + s)) : IsLineStart isBreak code s := by
  obtain ⟨c, -, hget, hbreak, hcrlf⟩ := hstart
  rw [show start + s - 1 = start + (s - 1) by omega, h (s - 1) (by omega)] at hget
  refine ⟨c, hs, hget, hbreak, fun ⟨hCR, hnext⟩ => hcrlf ⟨hCR, ?_⟩⟩
  rw [h s (List.getElem?_eq_some_iff.mp hnext).1, hnext]

theorem isLineStart_yaml : IsLineStart LanguageParser.yaml.isBreak text s ↔ 0 < s ∧ text[s - 1]? = some LF := by
  constructor
  · rintro ⟨c, hs, hget, hbreak, -⟩
    obtain rfl : c = LF := by simpa [LanguageParser.isBreak] using hbreak
    exact ⟨hs, hget⟩
  · rintro ⟨hs, hget⟩
    exact ⟨LF, hs, hget, rfl, fun h => absurd h.1 (by decide)⟩

/-- The YAML parser breaks the lines of the code as it breaks those of the text. -/
theorem CodeAt.mem_lineStarts_yaml (h : CodeAt text code start) (hs : 0 < s) (hle : s ≤ code.length) :
    start + s ∈ lineStarts LanguageParser.yaml.isBreak text ↔ s ∈ lineStarts LanguageParser.yaml.isBreak code := by
  rw [mem_lineStarts LanguageParser.yaml.isBreak_LF, mem_lineStarts LanguageParser.yaml.isBreak_LF,
    isLineStart_yaml, isLineStart_yaml, show start + s - 1 = start + (s - 1) by omega, h (s - 1) (by omega)]
  simp only [hs, true_and, Nat.ne_of_gt, show 0 < start + s by omega, false_or]

theorem locate_contentStart (hle : contentStart text start ≤ text.length) :
    locate (lineStarts LanguageParser.yaml.isBreak text) (contentStart text start) =
      ⟨(locate (lineStarts LanguageParser.yaml.isBreak text) start).line + 1, 0⟩ := by
  have hmem : ∀ s, 0 < s → (s ∈ lineStarts LanguageParser.yaml.isBreak text ↔ text[s - 1]? = some LF) := by
    intro s hs
    rw [mem_lineStarts LanguageParser.yaml.isBreak_LF, isLineStart_yaml]
    simp [hs, hs.ne']
  have hline : text.drop start =
      (text.drop start).takeWhile (· ≠ LF) ++ (text.drop start).dropWhile (· ≠ LF) :=
    List.takeWhile_append_dropWhile.symm
  have hmark : ∀ c ∈ (text.drop start).takeWhile (· ≠ LF), c ≠ LF := fun c hc => by
    simpa using List.mem_takeWhile_imp hc
  have hbreak := List.head?_dropWhile_not (· ≠ LF) (text.drop start)
  have hget : ∀ i, text[start + i]? = (text.drop start)[i]? := fun i => List.getElem?_drop.symm
  have hlen := congrArg List.length hline
  unfold contentStart at hle ⊢
  generalize (text.drop start).takeWhile (· ≠ LF) = line at *
  generalize (text.drop start).dropWhile (· ≠ LF) = rest at *
  rw [List.length_drop, List.length_append] at hlen
  refine locate_next (isTable_lineStarts _ _) ((hmem _ (by omega)).mpr ?_) (by omega) fun s hs hpos => ?_
  · cases rest with
    | nil =>
      rw [List.length_nil] at hlen
      omega
    | cons c rest =>
      obtain rfl : c = LF := by simpa using hbreak
      rw [Nat.add_sub_cancel, hget, hline, List.getElem?_append_right le_rfl]
      simp
  · by_contra hbefore
    have hs := (hmem s (by omega)).mp hs
    rw [show s - 1 = start + (s - 1 - start) by omega, hget, hline,
      List.getElem?_append_left (by omega)] at hs
    exact hmark LF (List.mem_of_getElem? hs) rfl

/-! ### The snippets of the two parsers -/

variable {Position Extras : Type}

/-- What the library promises about positions: they are those of its line table, columns count from 1, and
the value of a pair is not the first token of a file. -/
structure DocumentedPositions (yaml : YamlLibrary Position) : Prop extends Documented yaml where
  linePos : ∀ text, ∀ p ≤ text.length, yaml.linePos text p =
    ((locate (lineStarts LanguageParser.yaml.isBreak text) p).line,
      (locate (lineStarts LanguageParser.yaml.isBreak text) p).column + 1)
  rangeStart : ∀ text, ∀ doc ∈ yaml.docs text, ∀ pair ∈ doc.pairs, ∀ value, pair.value = some value →
    0 < value.rangeStart

/-- The snippets of a file, with the index of the code. -/
inductive Produced (events : Text → List HtmlEvent) (yaml : YamlLibrary Position) :
    {Extras : Type} → LanguageParser → EmbeddedJS Extras → ℕ → Prop
  | html {text : Text} {js : EmbeddedJS Unit} (hjs : js ∈ parseHTML events text) :
      Produced events yaml .html js js.offset
  | yaml {Extras : Type} {text : Text} {doc : Doc Position} {pair : Pair Position}
      {context : ParsingContext Position Extras} {value : YamlValue} {js : EmbeddedJS Extras}
      (hdoc : doc ∈ yaml.docs text) (hpair : pair ∈ doc.pairs)
      (hextract : extract yaml text pair context = .ok (some js)) (hvalue : pair.value = some value) :
      Produced events yaml .yaml js
        (if js.format = .plain then value.rangeStart else contentStart text value.rangeStart)

/-- Where the code of a snippet is, and where the snippet says it is. -/
structure Placed (language : LanguageParser) (js : EmbeddedJS Extras) (start : ℕ) : Prop where
  codeAt : CodeAt js.text js.code start
  pos : 0 < start
  line_pos : 0 < js.line
  plain : js.format = .plain →
    locate (lineStarts language.isBreak js.text) start = ⟨js.line, js.column - 1⟩ ∧ 0 < js.column
  block : js.format ≠ .plain → language = .yaml ∧
    locate (lineStarts language.isBreak js.text) start = ⟨js.line + 1, 0⟩

theorem placed_html {start stop : ℕ} (hpos : 0 < start) :
    Placed .html (scriptSnippet text start stop) start where
  codeAt := codeAt_slice text start stop
  pos := hpos
  line_pos := by
    have hpos := (isTable_lineStarts htmlBreak text).line_pos start
    rwa [computeCol_eq (isTable_lineStarts htmlBreak text)] at hpos
  plain _ := ⟨computeCol_eq (isTable_lineStarts _ _) start, Nat.succ_pos _⟩
  block hformat := absurd rfl hformat

theorem Produced.placed {events : Text → List HtmlEvent} {yaml : YamlLibrary Position}
    (doc : DocumentedPositions yaml) {language : LanguageParser} {js : EmbeddedJS Extras}
    (h : Produced events yaml language js start) (hcode : js.code ≠ []) : Placed language js start := by
  cases h with
  | html hjs =>
    obtain ⟨start, stop, hpos, rfl⟩ := exists_snippet hjs
    exact placed_html hpos
  | @yaml _ _ yamlDoc pair _ value _ hdoc hpair hextract hvalue =>
    obtain ⟨value', type, hvalue', htype, hformat, hsource, rfl, -, hposition⟩ := extract_eq_some hextract
    obtain rfl : value' = value := Option.some.inj (hvalue'.symm.trans hvalue)
    have hpos := doc.rangeStart js.text yamlDoc hdoc pair hpair value' hvalue
    -- both kinds of scalars start in the text, at the position that the library gives
    have hlocate : value'.rangeStart ≤ js.text.length → js.line =
          (locate (lineStarts LanguageParser.yaml.isBreak js.text) value'.rangeStart).line ∧
        js.column = (locate (lineStarts LanguageParser.yaml.isBreak js.text) value'.rangeStart).column + 1 :=
      fun hle => Prod.mk.inj (hposition.trans (doc.linePos js.text _ hle))
    by_cases hplain : js.format = .plain
    · rw [if_pos hplain]
      rw [hplain] at hformat
      obtain rfl := type_eq_plain hformat
      have hslice := doc.plain js.text yamlDoc hdoc pair hpair value' js.code hvalue htype hsource
      have hcodeAt : CodeAt js.text js.code value'.rangeStart := by
        have := codeAt_slice js.text value'.rangeStart (value'.rangeStart + js.code.length)
        rwa [hslice] at this
      have hle := hcodeAt.length_le hcode
      obtain ⟨hline, hcolumn⟩ := hlocate (by omega)
      have hline_pos := (isTable_lineStarts LanguageParser.yaml.isBreak js.text).line_pos value'.rangeStart
      refine ⟨hcodeAt, hpos, by omega, fun _ => ⟨?_, by omega⟩, fun hblock => absurd hplain hblock⟩
      rw [hline, hcolumn, Nat.add_sub_cancel]
    · rw [if_neg hplain]
      obtain ⟨mark, hmark, hne⟩ := exists_indicator hformat hplain
      have hblock := doc.block js.text yamlDoc hdoc pair hpair value' type mark js.code hvalue htype hmark hsource
      have hcodeAt : CodeAt js.text js.code (contentStart js.text value'.rangeStart) := by
        have := codeAt_slice js.text (contentStart js.text value'.rangeStart)
          (contentStart js.text value'.rangeStart + js.code.length)
        rwa [(hblock.contentStart hne hcode).1] at this
      have hle := hcodeAt.length_le hcode
      have hcontent := @locate_contentStart js.text value'.rangeStart (by omega)
      have hline := (hlocate (by unfold contentStart at hle; omega)).1
      have hline_pos := (isTable_lineStarts LanguageParser.yaml.isBreak js.text).line_pos value'.rangeStart
      refine ⟨hcodeAt, ?_, by omega, fun hblock => absurd hblock hplain, fun _ => ⟨rfl, ?_⟩⟩
      · unfold contentStart
        omega
      · rw [hcontent, hline]

end SonarJavascript.Embedded
