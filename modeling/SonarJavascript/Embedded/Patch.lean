import Mathlib.Algebra.GroupWithZero.Nat
import Mathlib.Logic.Function.Basic
import SonarJavascript.Embedded.LineTable
import SonarJavascript.Lib.ListResults

/-!
# Patching an embedded snippet

`patchSourceCode` moves every location of a snippet's AST into the file. The locations come from the
line table of the snippet's parser, the rebuilt `SourceCode` has the line table of ESLint.

`patchSourceCode_iff`: ranges are always moved by the offset, once; the locations are those of the rebuilt
`SourceCode` if and only if the two tables agree up to both ends of each range (`Agrees`).
-/

namespace SonarJavascript.Embedded

open CodeUnit

/-! ### ESLint -/

/-- What the location methods of a `SourceCode` read. -/
structure SourceText where
  text : Text
  lines : List Text
  lineStartIndices : List ℕ

/-- The part of ESLint that is called. -/
structure ESLint where
  getLocFromIndex : SourceText → ℕ → Option Location
  sourceText : Text → SourceText

/-- The lines between the line breaks of ESLint, each from the line start that has its index. -/
def splitLines (text : Text) (starts : List ℕ) : List Text :=
  (lineBreaks eslintBreak 0 text).zipIdx.map (fun m => slice text (starts[m.2]?.getD 0) m.1.1) ++
    [slice text (starts.getLastD 0) text.length]

def stripBOM (text : Text) : Text := if text.head? = some BOM then text.tail else text

/-- How ESLint documents it: an index out of range throws, the end of the text is after the last line, any
other index is located in `lineStartIndices`; the constructor takes the BOM off and splits the lines. -/
structure ESLint.Documented (eslint : ESLint) : Prop where
  outOfRange : ∀ source index, source.text.length < index → eslint.getLocFromIndex source index = none
  atEnd : ∀ source, eslint.getLocFromIndex source source.text.length =
    some ⟨source.lines.length, (source.lines.getLastD []).length⟩
  inside : ∀ source index, IsTable source.lineStartIndices → index < source.text.length →
    eslint.getLocFromIndex source index = some (locate source.lineStartIndices index)
  constructed : ∀ text, eslint.sourceText text = ⟨stripBOM text,
    splitLines (stripBOM text) (lineStarts eslintBreak (stripBOM text)), lineStarts eslintBreak (stripBOM text)⟩

/-! ### The syntax tree -/

/-- A node by its identity, with its properties: one node, a missing one or an array. -/
inductive Node (α : Type)
  | mk (id : α) (type : String) (properties : List (String × List (Option (Node α))))

namespace Node

variable {α : Type}

def id : Node α → α
  | mk id _ _ => id

def type : Node α → String
  | mk _ type _ => type

def properties : Node α → List (String × List (Option (Node α)))
  | mk _ _ properties => properties

end Node

abbrev VisitorKeys := String → Option (List String)

variable {α : Type}

def childrenOf (node : Node α) (visitorKeys : VisitorKeys) : List (Node α) :=
  match visitorKeys node.type with
  | none => []
  | some keys => (keys.flatMap fun key => (node.properties.lookup key).getD []).filterMap fun child => child

theorem sizeOf_lt_of_mem_childrenOf {child node : Node α} {visitorKeys : VisitorKeys}
    (h : child ∈ childrenOf node visitorKeys) : sizeOf child < sizeOf node := by
  obtain ⟨id, type, properties⟩ := node
  unfold childrenOf at h
  split at h
  · simp at h
  · obtain ⟨child', hmem, rfl⟩ := List.mem_filterMap.mp h
    obtain ⟨key, -, hkey⟩ := List.mem_flatMap.mp hmem
    obtain ⟨value, hvalue⟩ : ∃ value, properties.lookup key = some value := by
      cases hlookup : properties.lookup key with
      | none => simp [Node.properties, hlookup] at hkey
      | some value => exact ⟨value, rfl⟩
    have hprop := List.sizeOf_lt_of_mem (ListResults.mem_of_lookup hvalue)
    have hchild := List.sizeOf_lt_of_mem (show some child ∈ value by
      simpa [Node.properties, hvalue] using hkey)
    simp only [Prod.mk.sizeOf_spec, Option.some.sizeOf_spec, Node.mk.sizeOf_spec] at hprop hchild ⊢
    omega

/-- The nodes that the loop still has to visit, each with all nodes under it. -/
def weight (visitorKeys : VisitorKeys) (node : Node α) : ℕ :=
  1 + ((childrenOf node visitorKeys).attach.map fun child => weight visitorKeys child.1).sum
termination_by sizeOf node
decreasing_by exact sizeOf_lt_of_mem_childrenOf child.2

/-- `visit`: the nodes in the order of the callbacks; the top of the stack is the head of the list. -/
def visit (visitorKeys : VisitorKeys) (stack : List (Node α)) : List α :=
  match stack with
  | [] => []
  | node :: stack => node.id :: visit visitorKeys (childrenOf node visitorKeys ++ stack)
termination_by (stack.map (weight visitorKeys)).sum
decreasing_by
  rw [List.map_append, List.sum_append, List.map_cons, List.sum_cons, weight]
  simp

/-- The nodes of the AST, along the visitor keys. -/
inductive Within (visitorKeys : VisitorKeys) (root : Node α) : Node α → Prop
  | root : Within visitorKeys root root
  | child {node child} : Within visitorKeys root node → child ∈ childrenOf node visitorKeys →
      Within visitorKeys root child

theorem within_iff {visitorKeys : VisitorKeys} {root node : Node α} :
    Within visitorKeys root node ↔
      node = root ∨ ∃ child ∈ childrenOf root visitorKeys, Within visitorKeys child node := by
  constructor
  · intro h
    induction h with
    | root => exact .inl rfl
    | child _ hchild ih =>
      obtain rfl | ⟨top, htop, hwithin⟩ := ih
      · exact .inr ⟨_, hchild, .root⟩
      · exact .inr ⟨top, htop, .child hwithin hchild⟩
  · rintro (rfl | ⟨child, hchild, hwithin⟩)
    · exact .root
    · induction hwithin with
      | root => exact .child .root hchild
      | child _ hchild ih => exact .child ih hchild

theorem mem_visit_iff {visitorKeys : VisitorKeys} {stack : List (Node α)} {id : α} :
    id ∈ visit visitorKeys stack ↔
      ∃ root ∈ stack, ∃ node, Within visitorKeys root node ∧ node.id = id := by
  fun_induction visit visitorKeys stack with
  | case1 => simp
  | case2 node stack ih =>
    have hnode : (∃ n, Within visitorKeys node n ∧ n.id = id) ↔ id = node.id ∨
        ∃ child ∈ childrenOf node visitorKeys, ∃ n, Within visitorKeys child n ∧ n.id = id := by
      constructor
      · rintro ⟨n, hn, hid⟩
        obtain rfl | ⟨child, hchild, hwithin⟩ := within_iff.mp hn
        · exact .inl hid.symm
        · exact .inr ⟨child, hchild, n, hwithin, hid⟩
      · rintro (hid | ⟨child, hchild, n, hwithin, hid⟩)
        · exact ⟨node, .root, hid.symm⟩
        · exact ⟨n, within_iff.mpr (.inr ⟨child, hchild, hwithin⟩), hid⟩
    rw [List.mem_cons, ih, List.exists_mem_cons_iff, hnode, or_assoc]
    simp only [List.mem_append, or_and_right, exists_or]

/-! ### Patching -/

structure SourceLocation where
  start : Location
  stop : Location
  deriving DecidableEq

/-- The location data of a node, a comment or a token. -/
structure Located where
  loc : Option SourceLocation
  range : Option (ℕ × ℕ)
  deriving DecidableEq

/-- A `SourceCode`: nodes, comments and tokens are identities, `objects` has their locations. -/
structure SourceCode (α : Type) where
  ast : Node α
  comments : List α
  tokens : List α
  visitorKeys : VisitorKeys
  source : SourceText
  objects : α → Located

/-- All that is patched, in its order. -/
def SourceCode.patched (code : SourceCode α) : List α :=
  visit code.visitorKeys [code.ast] ++ code.comments ++ code.tokens

def fixNodeLocation (eslint : ESLint) (source : SourceText) (offset : ℕ) (node : Located) : Option Located :=
  match node.range with
  | none => some node
  | some (sRange, eRange) =>
    match node.loc with
    | none => some { node with range := some (sRange + offset, eRange + offset) }
    | some _ => do
      let start ← eslint.getLocFromIndex source (sRange + offset)
      let stop ← eslint.getLocFromIndex source (eRange + offset)
      some { loc := some ⟨start, stop⟩, range := some (sRange + offset, eRange + offset) }

def patchASTLocations [DecidableEq α] (eslint : ESLint) (code : SourceCode α) (offset : ℕ) :
    Option (α → Located) :=
  code.patched.foldlM (fun objects object =>
    (fixNodeLocation eslint code.source offset (objects object)).map (Function.update objects object))
    code.objects

variable {Extras : Type}

def computeLines (embeddedJS : EmbeddedJS Extras) : List Text :=
  splitLines embeddedJS.text embeddedJS.lineStarts

def patchSourceCode [DecidableEq α] (eslint : ESLint) (originalSourceCode : SourceCode α)
    (embeddedJS : EmbeddedJS Extras) : Option (SourceCode α) := do
  let patchedSourceCode := { originalSourceCode with
    source := ⟨embeddedJS.text, computeLines embeddedJS, embeddedJS.lineStarts⟩ }
  let objects ← patchASTLocations eslint patchedSourceCode embeddedJS.offset
  some { patchedSourceCode with source := eslint.sourceText embeddedJS.text, objects }

/-- Where each object occurs once, the pass fixes each object from its own location. -/
theorem foldlM_update [DecidableEq α] {fix : Located → Option Located} {ids : List α} (hnodup : ids.Nodup)
    (objects : α → Located) (hfix : ∀ id ∈ ids, (fix (objects id)).isSome = true) :
    ∃ patched, ids.foldlM (fun objects id => (fix (objects id)).map (Function.update objects id)) objects
        = some patched ∧
      (∀ id ∈ ids, fix (objects id) = some (patched id)) ∧ ∀ id ∉ ids, patched id = objects id := by
  induction ids generalizing objects with
  | nil => exact ⟨objects, rfl, by simp, fun _ _ => rfl⟩
  | cons id ids ih =>
    obtain ⟨hid, hids⟩ := List.nodup_cons.mp hnodup
    obtain ⟨fixed, hfixed⟩ := Option.isSome_iff_exists.mp (hfix id List.mem_cons_self)
    have hother : ∀ id' ∈ ids, Function.update objects id fixed id' = objects id' := fun id' h =>
      Function.update_of_ne (show id' ≠ id from fun heq => hid (heq ▸ h)) _ _
    obtain ⟨patched, hrun, hin, hout⟩ := ih hids (Function.update objects id fixed)
      fun id' h => by rw [hother id' h]; exact hfix id' (List.mem_cons_of_mem _ h)
    refine ⟨patched, by simp [hfixed, hrun], ?_, ?_⟩
    · intro id' h
      obtain rfl | h := List.mem_cons.mp h
      · rw [hout id' hid, Function.update_self, hfixed]
      · rw [← hin id' h, hother id' h]
    · intro id' h
      rw [List.mem_cons, not_or] at h
      rw [hout id' h.2, Function.update_of_ne h.1]

/-! ### Where the tables agree -/

/-- The parsers that extract snippets. -/
inductive LanguageParser
  | html
  | yaml

/-- Where the line table of the parser breaks lines: `computeLineStarts` of the HTML parser, the line
counter of the YAML library. -/
def LanguageParser.isBreak : LanguageParser → CodeUnit → Bool
  | html => htmlBreak
  | yaml => fun c => c = LF

theorem LanguageParser.isBreak_LF (language : LanguageParser) : language.isBreak LF = true := by
  cases language <;> rfl

theorem LanguageParser.eslintBreak_of_isBreak (language : LanguageParser) {c : CodeUnit}
    (h : language.isBreak c = true) : eslintBreak c = true := by
  cases language <;> simp_all [isBreak, htmlBreak, eslintBreak]

/-- The parser's table has all line starts of ESLint up to `p`. At the end of the text only the last one
counts, and after a BOM no line may have started. -/
def Agrees (language : LanguageParser) (text : Text) (p : ℕ) : Prop :=
  if text.head? = some BOM then
    p < text.length ∧ ∀ s ≤ p + 1, ¬ IsLineStart eslintBreak text s
  else if p < text.length then
    ∀ s ≤ p, IsLineStart eslintBreak text s → IsLineStart language.isBreak text s
  else
    ∀ s, IsLineStart eslintBreak text s → (∀ s', IsLineStart eslintBreak text s' → s' ≤ s) →
      IsLineStart language.isBreak text s

theorem IsLineStart.mono {isBreak isBreak' : CodeUnit → Bool} {text : Text} {s : ℕ}
    (hsub : ∀ c, isBreak c = true → isBreak' c = true) (h : IsLineStart isBreak text s) :
    IsLineStart isBreak' text s := by
  obtain ⟨c, hpos, hget, hbreak, hcrlf⟩ := h
  exact ⟨c, hpos, hget, hsub c hbreak, hcrlf⟩

variable {eslint : ESLint} {language : LanguageParser} {text : Text} {p : ℕ}

/-- The `SourceText` that `patchSourceCode` puts over the original one. -/
def patchedText (language : LanguageParser) (text : Text) : SourceText :=
  ⟨text, splitLines text (lineStarts language.isBreak text), lineStarts language.isBreak text⟩

theorem getLocFromIndex_inside (doc : eslint.Documented) (lines : List Text) (isBreak : CodeUnit → Bool)
    (hp : p < text.length) :
    eslint.getLocFromIndex ⟨text, lines, lineStarts isBreak text⟩ p =
      some (locate (lineStarts isBreak text) p) :=
  doc.inside ⟨text, lines, lineStarts isBreak text⟩ p (isTable_lineStarts isBreak text) hp

theorem getLocFromIndex_end (doc : eslint.Documented) (starts indices : List ℕ) :
    eslint.getLocFromIndex ⟨text, splitLines text starts, indices⟩ text.length =
      some ⟨(lineStarts eslintBreak text).length, text.length - starts.getLastD 0⟩ := by
  rw [doc.atEnd ⟨text, splitLines text starts, indices⟩]
  simp [splitLines, lineStarts, slice]

theorem filter_lineStarts {isBreak : CodeUnit → Bool} (hLF : isBreak LF = true) (text : Text) :
    (lineStarts isBreak text).filter (· ≤ text.length) = lineStarts isBreak text := by
  refine List.filter_eq_self.mpr fun s hs => ?_
  obtain rfl | h := (mem_lineStarts hLF).mp hs
  · simp
  · simpa using h.le_length

theorem locate_length {isBreak : CodeUnit → Bool} (hLF : isBreak LF = true) (text : Text) :
    locate (lineStarts isBreak text) text.length =
      ⟨(lineStarts isBreak text).length, text.length - (lineStarts isBreak text).getLastD 0⟩ := by
  rw [locate, filter_lineStarts hLF]

/-- The last line start. -/
theorem getLastD_lineStarts {isBreak : CodeUnit → Bool} (hLF : isBreak LF = true) (text : Text) :
    (lineStarts isBreak text).getLastD 0 ∈ lineStarts isBreak text ∧
      (lineStarts isBreak text).getLastD 0 ≤ text.length ∧
      ∀ s, IsLineStart isBreak text s → s ≤ (lineStarts isBreak text).getLastD 0 := by
  have h := (isTable_lineStarts isBreak text).last text.length
  rw [filter_lineStarts hLF] at h
  exact ⟨h.1, h.2.1, fun s hs => h.2.2 s ((mem_lineStarts hLF).mpr (.inr hs)) hs.le_length⟩

theorem getLocFromIndex_rebuilt (doc : eslint.Documented) (hp : p ≤ (stripBOM text).length) :
    eslint.getLocFromIndex (eslint.sourceText text) p =
      some (locate (lineStarts eslintBreak (stripBOM text)) p) := by
  rw [doc.constructed]
  obtain hlt | rfl := Nat.lt_or_eq_of_le hp
  · exact getLocFromIndex_inside doc _ _ hlt
  · rw [getLocFromIndex_end doc, locate_length (show eslintBreak LF = true from rfl)]

theorem mem_lineStarts_eslint {s : ℕ} (h : s ∈ lineStarts language.isBreak text) :
    s ∈ lineStarts eslintBreak text := by
  obtain rfl | h := (mem_lineStarts language.isBreak_LF).mp h
  · exact List.mem_cons_self
  · exact (mem_lineStarts rfl).mpr (.inr (h.mono fun _ => language.eslintBreak_of_isBreak))

theorem locate_eq_iff_isLineStart :
    locate (lineStarts language.isBreak text) p = locate (lineStarts eslintBreak text) p ↔
      ∀ s ≤ p, IsLineStart eslintBreak text s → IsLineStart language.isBreak text s := by
  rw [locate_eq_iff (isTable_lineStarts _ _) (isTable_lineStarts _ _) fun s => mem_lineStarts_eslint]
  constructor
  · intro h s hp hs
    have := (mem_lineStarts language.isBreak_LF).mp (h s ((mem_lineStarts rfl).mpr (.inr hs)) hp)
    exact this.resolve_left (Nat.ne_of_gt hs.pos)
  · intro h s hs hp
    obtain rfl | hs := (mem_lineStarts rfl).mp hs
    · exact List.mem_cons_self
    · exact (mem_lineStarts language.isBreak_LF).mpr (.inr (h s hp hs))

/-- At the end of a text without BOM. -/
theorem last_eq_iff_isLineStart :
    text.length - (lineStarts language.isBreak text).getLastD 0 =
        text.length - (lineStarts eslintBreak text).getLastD 0 ↔
      ∀ s, IsLineStart eslintBreak text s → (∀ s', IsLineStart eslintBreak text s' → s' ≤ s) →
        IsLineStart language.isBreak text s := by
  obtain ⟨hmem, hle, hmax⟩ := getLastD_lineStarts language.isBreak_LF text
  obtain ⟨hmem', hle', hmax'⟩ := getLastD_lineStarts (show eslintBreak LF = true from rfl) text
  generalize (lineStarts language.isBreak text).getLastD 0 = last at *
  generalize (lineStarts eslintBreak text).getLastD 0 = last' at *
  constructor
  · intro heq s hs hlast
    -- the last line start of ESLint is the last one of both tables
    obtain rfl : last = last' := by omega
    have hpos := hs.pos
    have := hmax' s hs
    have hlastStart := ((mem_lineStarts language.isBreak_LF).mp hmem).resolve_left (by omega)
    have := hlast last (hlastStart.mono fun _ => language.eslintBreak_of_isBreak)
    rwa [show s = last by omega]
  · intro h
    suffices last = last' by rw [this]
    refine Nat.le_antisymm ?_ ?_
    · obtain rfl | hs := (mem_lineStarts language.isBreak_LF).mp hmem
      · exact Nat.zero_le last'
      · exact hmax' last (hs.mono fun _ => language.eslintBreak_of_isBreak)
    · obtain rfl | hs := (mem_lineStarts rfl).mp hmem'
      · exact Nat.zero_le last
      · exact hmax last' (h last' hs hmax')

theorem locate_tail_eq_iff_isLineStart (hBOM : text.head? = some BOM) :
    locate (lineStarts language.isBreak text) p = locate (lineStarts eslintBreak text.tail) p ↔
      ∀ s ≤ p + 1, ¬ IsLineStart eslintBreak text s := by
  obtain ⟨rest, rfl⟩ : ∃ rest, text = BOM :: rest := by
    cases text with
    | nil => simp at hBOM
    | cons c rest => exact ⟨rest, by simpa using hBOM⟩
  have hone : ∀ isBreak : CodeUnit → Bool, isBreak BOM = false → ¬ IsLineStart isBreak (BOM :: rest) 1 :=
    fun isBreak hbreak h => by simp [isLineStart_one, hbreak] at h
  have htail : ∀ s, 0 < s → (s ∈ lineStarts eslintBreak rest ↔ IsLineStart eslintBreak (BOM :: rest) (s + 1)) := by
    intro s hs
    obtain ⟨s, rfl⟩ : ∃ k, s = k + 1 := ⟨s - 1, by omega⟩
    rw [mem_lineStarts rfl, isLineStart_cons]
    simp
  rw [List.tail_cons, locate_tail_eq_iff (isTable_lineStarts _ _) (isTable_lineStarts _ _)]
  · constructor
    · intro h s hp hs
      have hs1 : s ≠ 1 := fun h1 => hone eslintBreak (by decide) (h1 ▸ hs)
      have hpos := hs.pos
      obtain ⟨k, rfl⟩ : ∃ k, s = k + 2 := ⟨s - 2, by omega⟩
      have := h (k + 1) ((htail (k + 1) (by omega)).mpr hs) (by omega)
      omega
    · intro h s hs hp
      by_contra h0
      exact h (s + 1) (by omega) ((htail s (by omega)).mp hs)
  · intro h1
    have := mem_lineStarts_eslint h1
    rw [mem_lineStarts rfl] at this
    exact hone eslintBreak (by decide) (this.resolve_left (by omega))
  · intro s hs hpos
    have hs' := ((mem_lineStarts rfl).mp (mem_lineStarts_eslint hs)).resolve_left (by omega)
    have hs1 : s ≠ 1 := fun h1 => hone eslintBreak (by decide) (h1 ▸ hs')
    refine (htail (s - 1) (by omega)).mpr ?_
    rwa [show s - 1 + 1 = s by omega]

/-- The two `SourceText`s locate an offset alike if and only if the tables agree up to it. -/
theorem getLocFromIndex_eq_iff (doc : eslint.Documented) (hp : p ≤ text.length) :
    eslint.getLocFromIndex (patchedText language text) p = eslint.getLocFromIndex (eslint.sourceText text) p ↔
      Agrees language text p := by
  unfold Agrees
  by_cases hBOM : text.head? = some BOM
  · have hstrip : stripBOM text = text.tail := if_pos hBOM
    have hlen : text.length = text.tail.length + 1 := by
      cases text with
      | nil => simp at hBOM
      | cons c rest => simp
    rw [if_pos hBOM]
    by_cases hlt : p < text.length
    · rw [getLocFromIndex_rebuilt doc (by rw [hstrip]; omega), hstrip, patchedText,
        getLocFromIndex_inside doc _ _ hlt, Option.some_inj, locate_tail_eq_iff_isLineStart hBOM]
      simp [hlt]
    · obtain rfl : p = text.length := by omega
      rw [doc.outOfRange (eslint.sourceText text) _ (by rw [doc.constructed, hstrip]; simp only; omega),
        patchedText, getLocFromIndex_end doc]
      simp
  · have hstrip : stripBOM text = text := if_neg hBOM
    rw [if_neg hBOM, getLocFromIndex_rebuilt doc (by rw [hstrip]; exact hp), hstrip]
    by_cases hlt : p < text.length
    · rw [if_pos hlt, patchedText, getLocFromIndex_inside doc _ _ hlt, Option.some_inj,
        locate_eq_iff_isLineStart]
    · obtain rfl : p = text.length := by omega
      rw [if_neg hlt, patchedText, getLocFromIndex_end doc, locate_length (show eslintBreak LF = true from rfl), Option.some_inj,
        Location.mk.injEq, last_eq_iff_isLineStart]
      simp

/-! ### The patched source code -/

/-- The nodes of the AST, its comments and its tokens. -/
def SourceCode.IsObject (code : SourceCode α) (id : α) : Prop :=
  (∃ node, Within code.visitorKeys code.ast node ∧ node.id = id) ∨ id ∈ code.comments ∨ id ∈ code.tokens

theorem SourceCode.mem_patched {code : SourceCode α} {id : α} : id ∈ code.patched ↔ code.IsObject id := by
  rw [patched, List.mem_append, List.mem_append, mem_visit_iff, or_assoc]
  simp [IsObject]

/-- `loc` is where the `SourceText` locates `range`. -/
def Located.LocOf (object : Located) (eslint : ESLint) (source : SourceText) : Prop :=
  ∀ loc s e, object.loc = some loc → object.range = some (s, e) →
    eslint.getLocFromIndex source s = some loc.start ∧ eslint.getLocFromIndex source e = some loc.stop

/-- What happens to one object. -/
theorem fixNodeLocation_eq {source : SourceText} {offset : ℕ} {node fixed : Located}
    (h : fixNodeLocation eslint source offset node = some fixed) :
    fixed.range = node.range.map (Prod.map (· + offset) (· + offset)) ∧
      (fixed.loc = none ↔ node.loc = none) ∧ ∀ loc s e, fixed.loc = some loc → node.range = some (s, e) →
        eslint.getLocFromIndex source (s + offset) = some loc.start ∧
          eslint.getLocFromIndex source (e + offset) = some loc.stop := by
  obtain ⟨nodeLoc, range⟩ := node
  unfold fixNodeLocation at h
  match range, nodeLoc with
  | none, _ =>
    obtain rfl : _ = fixed := by simpa using h
    simp
  | some (s, e), none =>
    obtain rfl : _ = fixed := by simpa using h
    simp
  | some (s, e), some nodeLoc =>
    simp only [Option.bind_eq_bind, Option.bind_eq_some_iff] at h
    obtain ⟨start, hstart, stop, hstop, heq⟩ := h
    obtain rfl : _ = fixed := by simpa using heq
    refine ⟨by simp, by simp, ?_⟩
    intro loc s' e' hloc hrange
    simp only [Option.some.injEq, Prod.mk.injEq] at hloc hrange
    obtain ⟨rfl, rfl⟩ := hrange
    subst hloc
    exact ⟨hstart, hstop⟩

theorem fixNodeLocation_isSome (doc : eslint.Documented) (language : LanguageParser) {offset : ℕ} {node : Located}
    (hin : ∀ s e, node.range = some (s, e) → s + offset ≤ text.length ∧ e + offset ≤ text.length) :
    (fixNodeLocation eslint (patchedText language text) offset node).isSome = true := by
  have hloc : ∀ p ≤ text.length, (eslint.getLocFromIndex (patchedText language text) p).isSome = true := by
    intro p hp
    obtain hlt | rfl := Nat.lt_or_eq_of_le hp
    · rw [patchedText, getLocFromIndex_inside doc _ _ hlt, Option.isSome_some]
    · rw [patchedText, getLocFromIndex_end doc, Option.isSome_some]
  obtain ⟨nodeLoc, range⟩ := node
  unfold fixNodeLocation
  match range, nodeLoc with
  | none, _ => rfl
  | some (s, e), none => rfl
  | some (s, e), some nodeLoc =>
    obtain ⟨start, hstart⟩ := Option.isSome_iff_exists.mp (hloc _ (hin s e rfl).1)
    obtain ⟨stop, hstop⟩ := Option.isSome_iff_exists.mp (hloc _ (hin s e rfl).2)
    simp [hstart, hstop]

/-- A snippet whose objects lie in the file is patched: each range moves by the offset, and the location
is the one of the rebuilt `SourceCode` if and only if the line tables agree up to both ends. -/
theorem patchSourceCode_iff [DecidableEq α] (doc : eslint.Documented) (language : LanguageParser)
    (code : SourceCode α) (embeddedJS : EmbeddedJS Extras)
    (htable : embeddedJS.lineStarts = lineStarts language.isBreak embeddedJS.text)
    (honce : code.patched.Nodup)
    (hin : ∀ id, code.IsObject id → ∀ s e, (code.objects id).range = some (s, e) →
      s + embeddedJS.offset ≤ embeddedJS.text.length ∧ e + embeddedJS.offset ≤ embeddedJS.text.length) :
    ∃ patched, patchSourceCode eslint code embeddedJS = some patched ∧ ∀ id, code.IsObject id →
      (patched.objects id).range =
          (code.objects id).range.map (Prod.map (· + embeddedJS.offset) (· + embeddedJS.offset)) ∧
        ((patched.objects id).LocOf eslint patched.source ↔
          ((code.objects id).loc.isSome = true → ∀ s e, (code.objects id).range = some (s, e) →
            Agrees language embeddedJS.text (s + embeddedJS.offset) ∧
              Agrees language embeddedJS.text (e + embeddedJS.offset))) := by
  obtain ⟨patched, hrun, hfix, -⟩ := foldlM_update honce code.objects
    fun id hid => fixNodeLocation_isSome doc language (hin id (SourceCode.mem_patched.mp hid))
  refine ⟨{ code with source := eslint.sourceText embeddedJS.text, objects := patched }, ?_, ?_⟩
  · have hast : patchASTLocations eslint { code with source := patchedText language embeddedJS.text }
        embeddedJS.offset = some patched := hrun
    rw [patchSourceCode, computeLines, htable]
    show (patchASTLocations eslint { code with source := patchedText language embeddedJS.text }
      embeddedJS.offset).bind _ = _
    rw [hast]
    rfl
  · intro id hid
    obtain ⟨hrange, hnone, hloc⟩ := fixNodeLocation_eq (hfix id (SourceCode.mem_patched.mpr hid))
    have hin := hin id hid
    refine ⟨hrange, fun h hsome s e hnode => ?_, fun h loc s' e' hsome hmoved => ?_⟩
    · obtain ⟨loc, hsome⟩ : ∃ loc, (patched id).loc = some loc :=
        Option.ne_none_iff_exists'.mp fun hn => by simp [hnone.mp hn] at hsome
      obtain ⟨hstart, hstop⟩ := hloc loc s e hsome hnode
      obtain ⟨hstart', hstop'⟩ := h loc (s + embeddedJS.offset) (e + embeddedJS.offset) hsome
        (by rw [hrange, hnode]; rfl)
      exact ⟨(getLocFromIndex_eq_iff doc (hin s e hnode).1).mp (hstart.trans hstart'.symm),
        (getLocFromIndex_eq_iff doc (hin s e hnode).2).mp (hstop.trans hstop'.symm)⟩
    · rw [hrange, Option.map_eq_some_iff] at hmoved
      obtain ⟨⟨s, e⟩, hnode, heq⟩ := hmoved
      obtain ⟨rfl, rfl⟩ : s + embeddedJS.offset = s' ∧ e + embeddedJS.offset = e' := by simpa using heq
      have hnodeLoc : (code.objects id).loc.isSome = true :=
        Option.isSome_iff_ne_none.mpr fun hn => by simp [hnone.mpr hn] at hsome
      obtain ⟨hstart, hstop⟩ := hloc loc s e hsome hnode
      obtain ⟨hagrees, hagrees'⟩ := h hnodeLoc s e hnode
      rw [← hstart, ← hstop]
      exact ⟨((getLocFromIndex_eq_iff doc (hin s e hnode).1).mpr hagrees).symm,
        ((getLocFromIndex_eq_iff doc (hin s e hnode).2).mpr hagrees').symm⟩

/-! ### A snippet after a line terminator -/

/-- ESLint as it is documented. -/
def documentedESLint : ESLint where
  getLocFromIndex source index :=
    if source.text.length < index then none
    else if index = source.text.length then some ⟨source.lines.length, (source.lines.getLastD []).length⟩
    else some (locate source.lineStartIndices index)
  sourceText text := ⟨stripBOM text,
    splitLines (stripBOM text) (lineStarts eslintBreak (stripBOM text)), lineStarts eslintBreak (stripBOM text)⟩

theorem documented : documentedESLint.Documented where
  outOfRange source index h := if_pos h
  atEnd source := by simp [documentedESLint]
  inside source index _ h := (if_neg (by omega)).trans (if_neg (by omega))
  constructed text := rfl

/-- The code units of `<script>`. -/
def scriptTag : Text := [0x3c, 0x73, 0x63, 0x72, 0x69, 0x70, 0x74, 0x3e]

/-- The code units of `</script>`. -/
def scriptEndTag : Text := 0x3c :: 0x2f :: scriptTag.tail

/-- `f()`, after a line terminator. -/
def scriptCode (terminator : CodeUnit) : Text := [terminator, 0x66, 0x28, 0x29]

/-- The only script of an HTML file. -/
def scriptAfter (terminator : CodeUnit) : EmbeddedJS Unit where
  code := scriptCode terminator
  line := computeLine 8 (computeLineStarts (scriptTag ++ scriptCode terminator ++ scriptEndTag))
  column := computeCol 8 (computeLineStarts (scriptTag ++ scriptCode terminator ++ scriptEndTag))
  offset := 8
  lineStarts := computeLineStarts (scriptTag ++ scriptCode terminator ++ scriptEndTag)
  text := scriptTag ++ scriptCode terminator ++ scriptEndTag
  format := .plain
  extras := ()

/-- The program and its statement, as parsed from the script. -/
def scriptSourceCode (terminator : CodeUnit) : SourceCode ℕ where
  ast := .mk 0 "Program" [("body", [some (.mk 1 "ExpressionStatement" [])])]
  comments := []
  tokens := [2, 3, 4]
  visitorKeys := fun type => if type = "Program" then some ["body"] else none
  source := documentedESLint.sourceText (scriptAfter terminator).code
  objects := fun id => match id with
    | 0 | 1 => ⟨some ⟨⟨2, 0⟩, ⟨2, 3⟩⟩, some (1, 4)⟩
    | 2 => ⟨some ⟨⟨2, 0⟩, ⟨2, 1⟩⟩, some (1, 2)⟩
    | 3 => ⟨some ⟨⟨2, 1⟩, ⟨2, 2⟩⟩, some (2, 3)⟩
    | _ => ⟨some ⟨⟨2, 2⟩, ⟨2, 3⟩⟩, some (3, 4)⟩

theorem scriptSourceCode_patched (terminator : CodeUnit) (source : SourceText) :
    SourceCode.patched { scriptSourceCode terminator with source } = [0, 1, 2, 3, 4] := by
  simp [SourceCode.patched, scriptSourceCode, visit, childrenOf, Node.id, Node.type, Node.properties]

theorem scriptSourceCode_range (terminator : CodeUnit) :
    ∀ id s e, ((scriptSourceCode terminator).objects id).range = some (s, e) → s ≤ 4 ∧ e ≤ 4 := by
  intro id s e h
  match id with
  | 0 | 1 | 2 | 3 | id + 4 =>
    simp only [scriptSourceCode, Option.some.injEq, Prod.mk.injEq] at h
    omega

/-- After a line feed the statement is in the second line, for the rebuilt `SourceCode` too. -/
theorem patchSourceCode_iff_line_feed :
    ∃ patched, patchSourceCode documentedESLint (scriptSourceCode LF) (scriptAfter LF) = some patched ∧
      (patched.objects 1).range = some (9, 12) ∧ (patched.objects 1).LocOf documentedESLint patched.source := by
  have hpatched : (scriptSourceCode LF).patched = [0, 1, 2, 3, 4] := scriptSourceCode_patched LF _
  obtain ⟨patched, hrun, hall⟩ := patchSourceCode_iff documented .html (scriptSourceCode LF) (scriptAfter LF)
    rfl (hpatched ▸ by decide) fun id _ s e hrange => by
      have := scriptSourceCode_range LF id s e hrange
      show s + 8 ≤ 21 ∧ e + 8 ≤ 21
      omega
  have hid : (scriptSourceCode LF).IsObject 1 := SourceCode.mem_patched.mp (hpatched ▸ by decide)
  refine ⟨patched, hrun, (hall 1 hid).1, (hall 1 hid).2.mpr fun _ s e hrange => ?_⟩
  obtain ⟨rfl, rfl⟩ : 1 = s ∧ 4 = e := by simpa [scriptSourceCode] using hrange
  have htables : lineStarts htmlBreak (scriptAfter LF).text = lineStarts eslintBreak (scriptAfter LF).text := by
    decide
  have hagrees : ∀ p < (scriptAfter LF).text.length, Agrees .html (scriptAfter LF).text p := fun p hp => by
    rw [Agrees, if_neg (by decide), if_pos hp]
    exact locate_eq_iff_isLineStart.mp (congrArg (locate · p) htables)
  exact ⟨hagrees 9 (by decide), hagrees 12 (by decide)⟩

/-- After U+2028 the HTML parser has no new line, ESLint has one. -/
theorem statement_after_line_separator :
    (patchSourceCode documentedESLint (scriptSourceCode LS) (scriptAfter LS)).map (fun patched =>
      (patched.objects 1, documentedESLint.getLocFromIndex patched.source 9)) =
      some (⟨some ⟨⟨1, 9⟩, ⟨1, 12⟩⟩, some (9, 12)⟩, some ⟨2, 0⟩) := by
  rw [patchSourceCode, patchASTLocations, scriptSourceCode_patched]
  rfl

end SonarJavascript.Embedded
