import Mathlib.Algebra.GroupWithZero.Nat
import Mathlib.Data.List.Sort
import SonarJavascript.Regex.Tokenizer

/-!
# Grids of tables

`computeGrid` lays out the rows of a JSX table. A column keeps its cell for as many rows as the cell spans, and the cells
of the next row go into the columns that are free.

`computeGrid_rectangular`: if the cells fill a rectangle, each in the row where it begins and without overlaps, and each
row has a cell of its own, then each slot of the grid has the cell that covers it.
-/

namespace SonarJavascript.Helpers.Table

open Regex (JsString isWhiteSpace)

/-! ### JSX -/

/-- What `getLiteralPropValue` returns for an attribute: its text, and whether it counts as true. -/
structure PropValue where
  text : JsString
  truthy : Bool

/-- The attributes that `getProp` finds. -/
structure Attributes where
  rowspan : Option PropValue
  colspan : Option PropValue
  headers : Option PropValue
  id : Option PropValue

/-- `name` is the name of a `JSXIdentifier`; `elementType` is that of `getElementType`, in lower case. -/
inductive Node
  | element (node : ℕ) (name : Option String) (elementType : String) (attributes : Attributes) (children : List Node)
  | fragment (children : List Node)
  | expressionContainer (empty : Bool)
  | text
  | other

def HTML_TAG_NAMES : List String :=
  ["a", "abbr", "acronym", "address", "applet", "area", "article", "aside", "audio", "b", "base", "basefont",
    "bdi", "bdo", "bgsound", "big", "blink", "blockquote", "body", "br", "button", "canvas", "caption",
    "center", "cite", "code", "col", "colgroup", "command", "content", "data", "datalist", "dd", "del",
    "details", "dfn", "dialog", "dir", "div", "dl", "dt", "element", "em", "embed", "fieldset", "figcaption",
    "figure", "font", "footer", "form", "frame", "frameset", "h1", "h2", "h3", "h4", "h5", "h6", "head",
    "header", "hgroup", "hr", "html", "i", "iframe", "image", "img", "input", "ins", "isindex", "kbd", "keygen",
    "label", "legend", "li", "link", "listing", "main", "map", "mark", "marquee", "math", "menu", "menuitem",
    "meta", "meter", "multicol", "nav", "nextid", "nobr", "noembed", "noframes", "noscript", "object", "ol",
    "optgroup", "option", "output", "p", "param", "picture", "plaintext", "pre", "progress", "q", "rb", "rbc",
    "rp", "rt", "rtc", "ruby", "s", "samp", "script", "search", "section", "select", "shadow", "slot", "small",
    "source", "spacer", "span", "strike", "strong", "style", "sub", "summary", "sup", "svg", "table", "tbody",
    "td", "template", "textarea", "tfoot", "th", "thead", "time", "title", "tr", "track", "tt", "u", "ul",
    "var", "video", "wbr", "xmp"]

def isHtmlElement (name : Option String) : Bool := name.any (· ∈ HTML_TAG_NAMES)

/-! ### Cells -/

structure TableCell where
  isHeader : Bool
  headers : Option (List JsString)
  id : Option JsString
  node : ℕ
  internalNodeId : ℕ
  deriving DecidableEq

/-- A span is missing where it is `NaN`. -/
structure TableCellInternal extends TableCell where
  rowSpan : Option ℤ
  deriving DecidableEq

def MAX_ROW_SPAN : ℤ := 65534
def MAX_INVALID_COL_SPAN : ℤ := 10000
def KNOWN_TABLE_STRUCTURE_ELEMENTS : List String := ["thead", "tbody", "tfoot"]

/-- `parseInt` with no radix. -/
def parseInt (text : JsString) : Option ℤ :=
  let digits := text.dropWhile isWhiteSpace
  let digits := if digits.head? = some 45 ∨ digits.head? = some 43 then digits.tail else digits
  if digits.take 2 = Regex.units "0x" ∨ digits.take 2 = Regex.units "0X" then Regex.parseInt text 16
  else Regex.parseInt text 10

def computeSpan (spanAttr : Option PropValue) : Option ℤ :=
  match spanAttr with
  | none => some 1
  | some value => parseInt value.text

def rowSpan (attributes : Attributes) : Option ℤ :=
  (computeSpan attributes.rowspan).map fun value => if value > MAX_ROW_SPAN then MAX_ROW_SPAN else value

def colSpan (attributes : Attributes) : Option ℤ :=
  (computeSpan attributes.colspan).map fun value => if value > MAX_INVALID_COL_SPAN then 1 else value

/-- `split(/\s+/)`; `afterSpace` is whether a separator ends in front of the text. -/
def splitOnSpaces (afterSpace : Bool) : JsString → List JsString
  | [] => [[]]
  | unit :: text =>
    if isWhiteSpace unit then
      if afterSpace then splitOnSpaces true text else [] :: splitOnSpaces true text
    else
      match splitOnSpaces false text with
      | first :: others => (unit :: first) :: others
      | [] => [[unit]]

def getHeaders (attributes : Attributes) : Option (List JsString) :=
  match attributes.headers with
  | none => none
  | some value => if value.truthy && !value.text.all isWhiteSpace then some (splitOnSpaces false value.text) else none

def getID (attributes : Attributes) : Option JsString := attributes.id.map PropValue.text

/-- The cells of an element, one for each column: as many as the loop pushes. -/
def cellsOf (internalNodeCount node : ℕ) (name : String) (attributes : Attributes) : List TableCellInternal :=
  List.replicate ((colSpan attributes).getD 0).toNat
    ⟨⟨name = "th", getHeaders attributes, getID attributes, node, internalNodeCount⟩, rowSpan attributes⟩

/-- The cells of the children of a row, and the number of the next element. -/
def extractRow (internalNodeCount : ℕ) : List Node → Option (List TableCellInternal × ℕ)
  | [] => some ([], internalNodeCount)
  | .expressionContainer true :: children | .text :: children => extractRow internalNodeCount children
  | .element node (some name) _ attributes _ :: children =>
    if name ∈ ["td", "th"] then
      (extractRow (internalNodeCount + 1) children).map fun (row, count) =>
        (cellsOf internalNodeCount node name attributes ++ row, count)
    else none
  | _ :: _ => none

mutual

/-- The rows of a child, and the number of the next element. -/
def extractChild (internalNodeCount : ℕ) : Node → Option (List (List TableCellInternal) × ℕ)
  | .element _ name elementType _ children =>
    if elementType = "tr" then (extractRow internalNodeCount children).map fun (row, count) => ([row], count)
    else if elementType = "table" then some ([], internalNodeCount)
    else if elementType ∈ KNOWN_TABLE_STRUCTURE_ELEMENTS then
      (extractChildren 0 children).map fun rows => (rows, internalNodeCount)
    else if isHtmlElement name then some ([], internalNodeCount)
    else none
  | .fragment children => (extractChildren 0 children).map fun rows => (rows, internalNodeCount)
  | .expressionContainer empty => if empty then some ([], internalNodeCount) else none
  | .text => some ([], internalNodeCount)
  | .other => some ([], internalNodeCount)

def extractChildren (internalNodeCount : ℕ) : List Node → Option (List (List TableCellInternal))
  | [] => some []
  | child :: children =>
    match extractChild internalNodeCount child with
    | none => none
    | some (rows, count) => (extractChildren count children).map (rows ++ ·)

end

/-- Of the children of the table. The elements of each part of the table are numbered from 0. -/
def extractRows (children : List Node) : Option (List (List TableCellInternal)) := extractChildren 0 children

/-! ### The grid -/

namespace TableCellInternal

/-- What is left of the cell behind a row. -/
def lowered (cell : TableCellInternal) : Option TableCellInternal :=
  match cell.rowSpan with
  | none => some cell
  | some span => if 0 < span then if span - 1 = 0 then none else some { cell with rowSpan := some (span - 1) } else some cell

def isSpanning (cell : TableCellInternal) : Bool := cell.rowSpan.any (0 < ·)

end TableCellInternal

/-- What the loop over the columns makes of them and of the other variables. -/
structure Turn where
  columns : List (Option TableCellInternal)
  resultRow : List TableCell
  usedCurrentRow : Bool
  onlyMaxRowSpan : Bool

/-- A cell in the first column, in front of the other ones. -/
def Turn.place (cell : TableCellInternal) (turn : Turn) : Turn where
  columns := cell.lowered :: turn.columns
  resultRow := cell.toTableCell :: turn.resultRow
  usedCurrentRow := turn.usedCurrentRow
  onlyMaxRowSpan := !cell.isSpanning && turn.onlyMaxRowSpan

/-- The loop over the columns, with the cells from `indexInRow` on. -/
def fillRow : List (Option TableCellInternal) → List TableCellInternal → Turn
  | [], _ => ⟨[], [], false, true⟩
  | some cell :: columns, row => (fillRow columns row).place cell
  | none :: columns, [] => { fillRow columns [] with columns := none :: (fillRow columns []).columns }
  | none :: columns, cell :: row => { (fillRow columns row).place cell with usedCurrentRow := true }

/-- How many more rows the cells of the columns span. -/
def height (columns : List (Option TableCellInternal)) : ℕ :=
  (columns.map fun column => ((column.bind (·.rowSpan)).getD 0).toNat).sum

theorem height_cons (column : Option TableCellInternal) (columns : List (Option TableCellInternal)) :
    height (column :: columns) = ((column.bind (·.rowSpan)).getD 0).toNat + height columns := rfl

theorem lowered_height (cell : TableCellInternal) :
    ((cell.lowered.bind (·.rowSpan)).getD 0).toNat + cell.isSpanning.toNat = (cell.rowSpan.getD 0).toNat := by
  unfold TableCellInternal.lowered TableCellInternal.isSpanning
  cases hspan : cell.rowSpan with
  | none => simp [hspan]
  | some span =>
    simp only [Option.any_some, Option.getD_some]
    split_ifs with hpos hone
    · rw [decide_eq_true hpos]
      show 0 + 1 = span.toNat
      omega
    · rw [decide_eq_true hpos]
      show (span - 1).toNat + 1 = span.toNat
      omega
    · simp [hspan, hpos]

theorem height_fillRow (columns : List (Option TableCellInternal)) (row : List TableCellInternal)
    (hused : (fillRow columns row).usedCurrentRow = false) :
    height (fillRow columns row).columns + (!(fillRow columns row).onlyMaxRowSpan).toNat ≤ height columns := by
  induction columns generalizing row with
  | nil => simp [fillRow, height]
  | cons column columns ih =>
    cases column with
    | some cell =>
      have hrest := ih row hused
      have hcell := lowered_height cell
      show height (cell.lowered :: (fillRow columns row).columns) +
        (!(!cell.isSpanning && (fillRow columns row).onlyMaxRowSpan)).toNat ≤ height (some cell :: columns)
      rw [height_cons, height_cons, Option.bind_some]
      have hor : (!(!cell.isSpanning && (fillRow columns row).onlyMaxRowSpan)).toNat ≤
          cell.isSpanning.toNat + (!(fillRow columns row).onlyMaxRowSpan).toNat := by
        cases cell.isSpanning <;> cases (fillRow columns row).onlyMaxRowSpan <;> decide
      omega
    | none =>
      cases row with
      | nil =>
        have hrest := ih [] hused
        show height (none :: (fillRow columns []).columns) + (!(fillRow columns []).onlyMaxRowSpan).toNat ≤
          height (none :: columns)
        rw [height_cons, height_cons]
        omega
      | cons cell row => cases hused

/-- The loop over the rows, with the columns and the rows from `row` on. -/
def fillRows (columns : List (Option TableCellInternal)) (rows : List (List TableCellInternal)) : List (List TableCell) :=
  match rows with
  | [] => []
  | row :: rows =>
    if _hmax : (fillRow columns row).onlyMaxRowSpan then []
    else if _hused : (fillRow columns row).usedCurrentRow then
      (fillRow columns row).resultRow :: fillRows (fillRow columns row).columns rows
    else (fillRow columns row).resultRow :: fillRows (fillRow columns row).columns (row :: rows)
termination_by (rows.length, height columns)
decreasing_by
  · exact Prod.Lex.left _ _ (Nat.lt_succ_self _)
  · have h := height_fillRow columns row (by simpa using _hused)
    rw [Bool.eq_false_iff.mpr _hmax] at h
    exact Prod.Lex.right _ h

def computeGrid (children : List Node) : Option (List (List TableCell)) :=
  (extractRows children).map fun rows =>
    match rows with
    | [] => []
    | row :: _ => fillRows (List.replicate row.length none) rows

/-! ### Rectangular tables -/

/-- The place of an element: it covers the rows from `top` and the columns from `left` on. -/
structure Block where
  cell : TableCell
  top : ℕ
  left : ℕ
  width : ℕ
  height : ℕ
  width_pos : 0 < width
  height_pos : 0 < height
  deriving DecidableEq

instance Block.inhabited : Inhabited Block := ⟨⟨⟨false, none, none, 0, 0⟩, 0, 0, 1, 1, Nat.one_pos, Nat.one_pos⟩⟩

namespace Block

def CoversRow (block : Block) (row : ℕ) : Prop := block.top ≤ row ∧ row < block.top + block.height

def CoversColumn (block : Block) (column : ℕ) : Prop := block.left ≤ column ∧ column < block.left + block.width

def Occupies (block : Block) (row column : ℕ) : Prop := block.CoversRow row ∧ block.CoversColumn column

instance decidableOccupies (block : Block) (row column : ℕ) : Decidable (block.Occupies row column) :=
  inferInstanceAs (Decidable ((_ ∧ _) ∧ _ ∧ _))

/-- The cell of the block with the rows that are left of it from a row on. -/
def cellFrom (block : Block) (row : ℕ) : TableCellInternal := ⟨block.cell, some (block.top + block.height - row : ℕ)⟩

end Block

/-- The cells that begin in a row. -/
def rowOf (blocks : List Block) (row : ℕ) : List TableCellInternal :=
  (blocks.filter (·.top = row)).flatMap fun block => List.replicate block.width (block.cellFrom row)

/-- The elements fill a rectangle, in the order of the source. -/
structure Rectangular (rows : List (List TableCellInternal)) (columns : ℕ) (blocks : List Block) : Prop where
  rows_eq : rows = (List.range rows.length).map (rowOf blocks)
  top_lt : ∀ block ∈ blocks, block.top < rows.length
  own : ∀ row < rows.length, ∃ block ∈ blocks, block.top = row
  inside : ∀ block ∈ blocks, block.left + block.width ≤ columns
  ordered : blocks.Pairwise fun block next =>
    block.top < next.top ∨ block.top = next.top ∧ block.left + block.width ≤ next.left
  covers : ∀ row < rows.length, ∀ column < columns, ∃ block ∈ blocks, block.Occupies row column
  apart : ∀ block ∈ blocks, ∀ other ∈ blocks, ∀ row < rows.length, ∀ column < columns,
    block.Occupies row column → other.Occupies row column → block = other

/-- The cell that covers each slot. -/
def grid (blocks : List Block) (rows columns : ℕ) : List (List TableCell) :=
  (List.range rows).map fun row => (List.range columns).filterMap fun column =>
    (blocks.find? (·.Occupies row column)).map Block.cell

variable {rows : List (List TableCellInternal)} {columns row : ℕ} {blocks : List Block} {block : Block}

/-- The block that covers each slot. -/
def Owns (rows columns : ℕ) (blocks : List Block) (owner : ℕ → ℕ → Block) : Prop :=
  ∀ row < rows, ∀ column < columns, owner row column ∈ blocks ∧ (owner row column).Occupies row column

theorem Rectangular.exists_owner (h : Rectangular rows columns blocks) :
    ∃ owner, Owns rows.length columns blocks owner := by
  choose! owner howner using h.covers
  exact ⟨owner, howner⟩

theorem fillRow_map {indices : List ℕ} {cell : ℕ → TableCellInternal} {starts : ℕ → Bool}
    (hspanning : ∀ index ∈ indices, (cell index).isSpanning = true) :
    fillRow (indices.map fun index => if starts index then none else some (cell index))
        ((indices.filter starts).map cell) =
      ⟨indices.map fun index => (cell index).lowered, indices.map fun index => (cell index).toTableCell,
        indices.any starts, indices.isEmpty⟩ := by
  induction indices with
  | nil => rfl
  | cons index indices ih =>
    have hfirst := hspanning index List.mem_cons_self
    have hrest := ih fun other hother => hspanning other (List.mem_cons_of_mem _ hother)
    by_cases hstarts : starts index = true
    · rw [List.map_cons, if_pos hstarts, List.filter_cons_of_pos hstarts, List.map_cons, fillRow, hrest]
      simp only [Turn.place, hfirst, List.any_cons, hstarts, Bool.true_or, List.map_cons, List.isEmpty_cons,
        Bool.not_true, Bool.false_and]
    · rw [List.map_cons, if_neg hstarts, List.filter_cons_of_neg hstarts, fillRow, hrest]
      simp only [Turn.place, hfirst, List.any_cons, Bool.eq_false_iff.mpr hstarts, Bool.false_or, List.map_cons,
        List.isEmpty_cons, Bool.not_true, Bool.false_and]

theorem occupies_top (block : Block) {column : ℕ} :
    block.Occupies block.top column ↔ column ∈ List.range' block.left block.width := by
  have hpos := block.height_pos
  rw [List.mem_range'_1]
  constructor
  · rintro ⟨-, hcolumn⟩
    exact hcolumn
  · intro hcolumn
    exact ⟨⟨le_refl _, by omega⟩, hcolumn⟩

section Owner

variable {owner : ℕ → ℕ → Block} (h : Rectangular rows columns blocks) (howner : Owns rows.length columns blocks owner)

include h howner

theorem Rectangular.owner_eq (hrow : row < rows.length) {column : ℕ} (hcolumn : column < columns) (hblock : block ∈ blocks)
    (hoccupies : block.Occupies row column) : owner row column = block := by
  obtain ⟨hmem, howns⟩ := howner row hrow column hcolumn
  exact h.apart _ hmem _ hblock row hrow column hcolumn howns hoccupies

theorem Rectangular.starts_eq (hrow : row < rows.length) :
    ((blocks.filter (·.top = row)).flatMap fun block => List.range' block.left block.width) =
      (List.range columns).filter fun column => (owner row column).top = row := by
  have hleft : ((blocks.filter (·.top = row)).flatMap fun block => List.range' block.left block.width).Pairwise (· < ·) := by
    refine List.pairwise_flatMap.mpr ⟨fun block _ => List.pairwise_lt_range' 1 Nat.one_pos, ?_⟩
    refine ((h.ordered.filter _).imp_of_mem ?_)
    intro block next hblock hnext hlt column hcolumn column' hcolumn'
    have htop : block.top = row := by simpa using (List.mem_filter.mp hblock).2
    have htop' : next.top = row := by simpa using (List.mem_filter.mp hnext).2
    rw [List.mem_range'_1] at hcolumn hcolumn'
    omega
  refine hleft.eq_of_mem_iff (List.pairwise_lt_range.filter _) fun column => ?_
  simp only [List.mem_flatMap, List.mem_filter, List.mem_range, decide_eq_true_eq]
  constructor
  · rintro ⟨block, ⟨hblock, rfl⟩, hcolumn⟩
    have hlt : column < columns := by
      have hinside := h.inside block hblock
      have hrange := List.mem_range'_1.mp hcolumn
      omega
    refine ⟨hlt, ?_⟩
    rw [h.owner_eq howner hrow hlt hblock ((occupies_top block).mpr hcolumn)]
  · rintro ⟨hlt, htop⟩
    obtain ⟨hmem, howns⟩ := howner row hrow column hlt
    refine ⟨owner row column, ⟨hmem, htop⟩, (occupies_top _).mp ?_⟩
    rw [htop]
    exact howns

theorem Rectangular.rowOf_eq (hrow : row < rows.length) :
    rowOf blocks row = ((List.range columns).filter fun column => (owner row column).top = row).map fun column =>
      (owner row column).cellFrom row := by
  rw [← h.starts_eq howner hrow, rowOf, List.map_flatMap]
  refine List.flatMap_congr fun block hblock => ?_
  obtain ⟨hmem, htop⟩ := List.mem_filter.mp hblock
  have htop : block.top = row := by simpa using htop
  refine (List.eq_replicate_iff.mpr ⟨by rw [List.length_map, List.length_range'], fun cell hcell => ?_⟩).symm
  obtain ⟨column, hcolumn, rfl⟩ := List.mem_map.mp hcell
  have hinside := h.inside block hmem
  have hrange := List.mem_range'_1.mp hcolumn
  subst htop
  rw [h.owner_eq howner hrow (by omega) hmem ((occupies_top block).mpr hcolumn)]

end Owner

/-- The columns before a row, as the blocks that cover it say. -/
def columnsAt (owner : ℕ → ℕ → Block) (columns row : ℕ) : List (Option TableCellInternal) :=
  (List.range columns).map fun column =>
    if decide ((owner row column).top = row) then none else some ((owner row column).cellFrom row)

theorem lowered_cellFrom (hrow : row < block.top + block.height) : (block.cellFrom row).lowered =
    if block.top + block.height = row + 1 then none else some (block.cellFrom (row + 1)) := by
  have hpos : (0 : ℤ) < (block.top + block.height - row : ℕ) := by omega
  rw [TableCellInternal.lowered, Block.cellFrom]
  simp only [if_pos hpos]
  by_cases hlast : block.top + block.height = row + 1
  · rw [if_pos (by omega), if_pos hlast]
  · have hspan : ((block.top + block.height - row : ℕ) : ℤ) - 1 = (block.top + block.height - (row + 1) : ℕ) := by omega
    rw [if_neg (by omega), if_neg hlast, hspan, Block.cellFrom]

section Loop

variable {owner : ℕ → ℕ → Block} (h : Rectangular rows columns blocks) (howner : Owns rows.length columns blocks owner)

include h howner

/-- A block that does not end with the row covers the next one. -/
theorem Rectangular.lowered_eq (hrow : row + 1 < rows.length) {column : ℕ} (hcolumn : column < columns) :
    ((owner row column).cellFrom row).lowered =
      if decide ((owner (row + 1) column).top = row + 1) then none
      else some ((owner (row + 1) column).cellFrom (row + 1)) := by
  have hlt : row < rows.length := Nat.lt_of_succ_lt hrow
  obtain ⟨hmem, ⟨htop, hbottom⟩, hcolumns⟩ := howner row hlt column hcolumn
  obtain ⟨hmem', ⟨htop', hbottom'⟩, hcolumns'⟩ := howner (row + 1) hrow column hcolumn
  rw [lowered_cellFrom hbottom]
  by_cases hlast : (owner row column).top + (owner row column).height = row + 1
  · have hstart : (owner (row + 1) column).top = row + 1 := by
      by_contra hne
      have heq := h.owner_eq howner hlt hcolumn hmem' ⟨⟨by omega, by omega⟩, hcolumns'⟩
      rw [heq] at hlast
      omega
    rw [if_pos hlast, if_pos (decide_eq_true hstart)]
  · have heq := h.owner_eq howner hrow hcolumn hmem ⟨⟨by omega, by omega⟩, hcolumns⟩
    rw [heq, if_neg hlast, if_neg]
    simp only [decide_eq_true_eq]
    omega

theorem Rectangular.fillRow_eq (hrow : row < rows.length) : fillRow (columnsAt owner columns row) (rowOf blocks row) =
    ⟨(List.range columns).map fun column => ((owner row column).cellFrom row).lowered,
      (List.range columns).map fun column => (owner row column).cell, true, false⟩ := by
  have hspanning : ∀ column ∈ List.range columns, ((owner row column).cellFrom row).isSpanning = true := by
    intro column hcolumn
    obtain ⟨-, ⟨-, hbottom⟩, -⟩ := howner row hrow column (List.mem_range.mp hcolumn)
    simp only [TableCellInternal.isSpanning, Block.cellFrom, Option.any_some, decide_eq_true_eq]
    omega
  rw [columnsAt, h.rowOf_eq howner hrow, fillRow_map hspanning]
  obtain ⟨block, hblock, htop⟩ := h.own row hrow
  have hinside := h.inside block hblock
  have hwidth := block.width_pos
  have hleft : block.left < columns := by omega
  have hstart : (owner row block.left).top = row := by
    subst htop
    rw [h.owner_eq howner hrow hleft hblock ((occupies_top block).mpr (List.mem_range'_1.mpr ⟨le_refl _, by omega⟩))]
  have hany : (List.range columns).any (fun column => decide ((owner row column).top = row)) = true :=
    List.any_eq_true.mpr ⟨block.left, List.mem_range.mpr hleft, decide_eq_true hstart⟩
  have hempty : (List.range columns).isEmpty = false := by
    rw [List.isEmpty_eq_false_iff]
    exact List.ne_nil_of_mem (List.mem_range.mpr hleft)
  rw [hany, hempty]
  rfl

/-- The loop from a row on, with so many rows to go. -/
theorem Rectangular.fillRows_eq (count : ℕ) : ∀ row, row + count = rows.length →
    fillRows (columnsAt owner columns row) ((List.range' row count).map (rowOf blocks)) =
      (List.range' row count).map fun row => (List.range columns).map fun column => (owner row column).cell := by
  induction count with
  | zero =>
    intro row _
    rw [List.range'_zero, List.map_nil, fillRows, List.map_nil]
  | succ count ih =>
    intro row hcount
    have hrow : row < rows.length := by omega
    have hturn := h.fillRow_eq howner hrow
    rw [List.range'_succ, List.map_cons, fillRows, hturn, dif_neg (by simp), dif_pos rfl, List.map_cons]
    congr 1
    cases count with
    | zero => rw [List.range'_zero, List.map_nil, fillRows, List.map_nil]
    | succ count =>
      rw [← ih (row + 1) (by omega), columnsAt]
      congr 1
      exact List.map_congr_left fun column hcolumn =>
        h.lowered_eq howner (by omega) (List.mem_range.mp hcolumn)

theorem Rectangular.columnsAt_zero (hrows : 0 < rows.length) :
    columnsAt owner columns 0 = List.replicate (rowOf blocks 0).length none := by
  have htop : ∀ column ∈ List.range columns, decide ((owner 0 column).top = 0) = true := by
    intro column hcolumn
    obtain ⟨-, hoccupies, -⟩ := howner 0 hrows column (List.mem_range.mp hcolumn)
    exact decide_eq_true (Nat.le_zero.mp hoccupies.1)
  rw [h.rowOf_eq howner hrows, List.filter_eq_self.mpr htop, List.length_map, List.length_range, columnsAt]
  refine List.eq_replicate_iff.mpr ⟨by rw [List.length_map, List.length_range], fun column hcolumn => ?_⟩
  obtain ⟨index, hindex, rfl⟩ := List.mem_map.mp hcolumn
  rw [if_pos (htop index hindex)]

theorem Rectangular.grid_eq : grid blocks rows.length columns =
    (List.range rows.length).map fun row => (List.range columns).map fun column => (owner row column).cell := by
  refine List.map_congr_left fun row hrow => ?_
  rw [← List.filterMap_eq_map]
  refine List.filterMap_congr fun column hcolumn => ?_
  rw [List.mem_range] at hrow hcolumn
  obtain ⟨hmem, hoccupies⟩ := howner row hrow column hcolumn
  cases hfind : blocks.find? (·.Occupies row column) with
  | none => exact absurd (decide_eq_true hoccupies) (List.find?_eq_none.mp hfind _ hmem)
  | some block =>
    show some block.cell = some (owner row column).cell
    rw [h.owner_eq howner hrow hcolumn (List.mem_of_find?_eq_some hfind) (by simpa using List.find?_some hfind)]

end Loop

theorem computeGrid_rectangular {children : List Node} (hrows : extractRows children = some rows)
    (h : Rectangular rows columns blocks) : computeGrid children = some (grid blocks rows.length columns) := by
  obtain ⟨owner, howner⟩ := h.exists_owner
  rw [computeGrid, hrows, Option.map_some, h.grid_eq howner]
  cases hlength : rows.length with
  | zero => rw [List.eq_nil_of_length_eq_zero hlength]; rfl
  | succ count =>
    have hloop := h.fillRows_eq howner rows.length 0 (Nat.zero_add _)
    rw [← List.range_eq_range', ← h.rows_eq, hlength, h.columnsAt_zero howner (by omega)] at hloop
    obtain ⟨row, rest, rfl⟩ := List.exists_cons_of_length_eq_add_one hlength
    have hfirst : row = rowOf blocks 0 := by
      have hhead := congrArg List.head? h.rows_eq
      simpa [hlength, List.range_succ_eq_map] using hhead
    rw [← hfirst] at hloop
    rw [← hloop]

end SonarJavascript.Helpers.Table
