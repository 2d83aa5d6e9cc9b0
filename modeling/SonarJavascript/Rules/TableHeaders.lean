import SonarJavascript.Helpers.Table

/-!
# References to headers of tables

S5260 checks the ids that the cells of a table name in their attribute `headers` against the header cells in the rows and
columns that a cell spans, which it takes from the first and the last slot of the cell in the grid.

`verifyHeaderReferences_rectangular`: for a rectangular table whose cells with that attribute have different numbers, an
id of a cell is reported if and only if no header cell with it shares a row or a column with the cell.
-/

namespace SonarJavascript.Rules.TableHeaders

open Regex (JsString units)
open Helpers.Table

/-! ### The rule -/

structure BlockInfo where
  minRow : ℕ
  maxRow : ℕ
  minCol : ℕ
  maxCol : ℕ
  cell : TableCell

/-- The entries of a map, in the order of their insertion. -/
abbrev Positions := List (ℕ × BlockInfo)

/-- A slot of the grid. -/
structure Slot where
  row : ℕ
  col : ℕ
  cell : TableCell

/-- The slots in the order of the loops. -/
def slots (grid : List (List TableCell)) : List Slot :=
  grid.zipIdx.flatMap fun (cells, row) => cells.zipIdx.map fun (cell, col) => ⟨row, col, cell⟩

/-- The new value for the number of the slot. -/
def update (slot : Slot) (entry : ℕ × BlockInfo) : ℕ × BlockInfo :=
  if entry.1 = slot.cell.internalNodeId then (entry.1, { entry.2 with maxRow := slot.row, maxCol := slot.col }) else entry

def visitSlot (internalNodeToPositions : Positions) (slot : Slot) : Positions :=
  if slot.cell.headers = none then internalNodeToPositions
  else if internalNodeToPositions.any (·.1 = slot.cell.internalNodeId) then
    internalNodeToPositions.map (update slot)
  else internalNodeToPositions ++ [(slot.cell.internalNodeId, ⟨slot.row, slot.row, slot.col, slot.col, slot.cell⟩)]

def compileBlockInfo (grid : List (List TableCell)) : Positions := (slots grid).foldl visitSlot []

/-- The ids of the header cells; an empty id does not count. -/
def headerIds (cells : List TableCell) : List JsString :=
  cells.filterMap fun cell => if cell.isHeader then cell.id.filter (· ≠ []) else none

def rowHeaders (grid : List (List TableCell)) : List (List JsString) := grid.map headerIds

def colHeaders (grid : List (List TableCell)) : List (List JsString) :=
  (List.range (grid.head?.map List.length |>.getD 0)).map fun idx => headerIds (grid.filterMap (·[idx]?))

def allHeaders (grid : List (List TableCell)) : List JsString := (rowHeaders grid).flatten ++ (colHeaders grid).flatten

def slice {α : Type} (list : List α) (start stop : ℕ) : List α := (list.drop start).take (stop - start)

def actualHeaders (grid : List (List TableCell)) (info : BlockInfo) : List JsString :=
  (slice (colHeaders grid) info.minCol (info.maxCol + 1) ++ slice (rowHeaders grid) info.minRow (info.maxRow + 1)).flatten

structure Report where
  node : ℕ
  message : JsString
  deriving DecidableEq

/-- The message about an id, which may be the one of a header elsewhere. -/
def messageOf (header : JsString) (isElsewhere : Bool) : JsString :=
  units "id \"" ++ header ++ units "\" in \"headers\" " ++
    if isElsewhere then units "references the header of another column/row."
    else units "does not reference any <th> header."

/-- The reports on the ids that a cell names. -/
def checkHeaders (grid : List (List TableCell)) (info : BlockInfo) : List Report :=
  (info.cell.headers.getD []).filterMap fun header =>
    if header ∈ actualHeaders grid info then none
    else some ⟨info.cell.node, messageOf header (header ∈ allHeaders grid)⟩

/-- The reports for a table with these children. -/
def verifyHeaderReferences (children : List Node) : List Report :=
  match computeGrid children with
  | none => []
  | some grid => (compileBlockInfo grid).flatMap fun entry => checkHeaders grid entry.2

/-! ### The positions of the cells -/

/-- In the order of the loops. -/
def Before (position next : ℕ × ℕ) : Prop := position.1 < next.1 ∨ position.1 = next.1 ∧ position.2 < next.2

theorem Before.trans {a b c : ℕ × ℕ} (hab : Before a b) (hbc : Before b c) : Before a c := by
  unfold Before at *
  omega

theorem not_before_self (a : ℕ × ℕ) : ¬ Before a a := by
  unfold Before
  omega

def Slot.position (slot : Slot) : ℕ × ℕ := (slot.row, slot.col)

/-- The slot is one of those that are looked up under the number. -/
def Slot.Has (slot : Slot) (number : ℕ) : Prop := slot.cell.headers ≠ none ∧ slot.cell.internalNodeId = number

/-- The entry has the first and the last slot of its number. -/
structure Spans (visited : List Slot) (entry : ℕ × BlockInfo) (first last : Slot) : Prop where
  first_mem : first ∈ visited
  last_mem : last ∈ visited
  first_has : first.Has entry.1
  last_has : last.Has entry.1
  info : entry.2 = ⟨first.row, last.row, first.col, last.col, first.cell⟩
  bounds : ∀ slot ∈ visited, slot.Has entry.1 →
    ¬ Before slot.position first.position ∧ ¬ Before last.position slot.position

/-- By the first slots. -/
def EntryBefore (entry next : ℕ × BlockInfo) : Prop :=
  Before (entry.2.minRow, entry.2.minCol) (next.2.minRow, next.2.minCol)

/-- What the map has after some of the slots. -/
structure Compiled (visited : List Slot) (positions : Positions) : Prop where
  entries : ∀ entry ∈ positions, ∃ first last, Spans visited entry first last
  complete : ∀ slot ∈ visited, slot.cell.headers ≠ none → ∃ info, (slot.cell.internalNodeId, info) ∈ positions
  sorted : positions.Pairwise EntryBefore

variable {visited : List Slot} {positions : Positions} {slot first last : Slot} {entry : ℕ × BlockInfo}

theorem Spans.append_of_not (h : Spans visited entry first last) (hslot : ¬ slot.Has entry.1) :
    Spans (visited ++ [slot]) entry first last where
  first_mem := List.mem_append_left _ h.first_mem
  last_mem := List.mem_append_left _ h.last_mem
  first_has := h.first_has
  last_has := h.last_has
  info := h.info
  bounds other hother hhas := by
    rcases List.mem_append.mp hother with hmem | hmem
    · exact h.bounds other hmem hhas
    · rw [List.mem_singleton.mp hmem] at hhas
      exact absurd hhas hslot

theorem Spans.append (h : Spans visited entry first last) (hslot : slot.Has entry.1)
    (hafter : ∀ other ∈ visited, Before other.position slot.position) :
    Spans (visited ++ [slot]) (entry.1, { entry.2 with maxRow := slot.row, maxCol := slot.col }) first slot where
  first_mem := List.mem_append_left _ h.first_mem
  last_mem := List.mem_append_right _ (List.mem_singleton.mpr rfl)
  first_has := h.first_has
  last_has := hslot
  info := by rw [h.info]
  bounds other hother hhas := by
    rcases List.mem_append.mp hother with hmem | hmem
    · refine ⟨(h.bounds other hmem hhas).1, fun hbefore => ?_⟩
      exact not_before_self _ (hbefore.trans (hafter other hmem))
    · rw [List.mem_singleton.mp hmem]
      refine ⟨fun hbefore => ?_, not_before_self _⟩
      exact not_before_self _ (hbefore.trans (hafter first h.first_mem))

theorem Spans.single {number : ℕ} (hslot : slot.Has number) (hnew : ∀ other ∈ visited, ¬ other.Has number) :
    Spans (visited ++ [slot]) (number, ⟨slot.row, slot.row, slot.col, slot.col, slot.cell⟩) slot slot where
  first_mem := List.mem_append_right _ (List.mem_singleton.mpr rfl)
  last_mem := List.mem_append_right _ (List.mem_singleton.mpr rfl)
  first_has := hslot
  last_has := hslot
  info := rfl
  bounds other hother hhas := by
    rcases List.mem_append.mp hother with hmem | hmem
    · exact absurd hhas (hnew other hmem)
    · rw [List.mem_singleton.mp hmem]
      exact ⟨not_before_self _, not_before_self _⟩

theorem update_fst (slot : Slot) (entry : ℕ × BlockInfo) : (update slot entry).1 = entry.1 := by
  unfold update
  split_ifs <;> rfl

theorem update_min (slot : Slot) (entry : ℕ × BlockInfo) :
    ((update slot entry).2.minRow, (update slot entry).2.minCol) = (entry.2.minRow, entry.2.minCol) := by
  unfold update
  split_ifs <;> rfl

theorem Compiled.visitSlot (h : Compiled visited positions)
    (hafter : ∀ other ∈ visited, Before other.position slot.position) :
    Compiled (visited ++ [slot]) (visitSlot positions slot) := by
  unfold TableHeaders.visitSlot
  split_ifs with hheaders hany
  · -- The slot has no headers, and nothing changes.
    refine ⟨fun entry hentry => ?_, fun other hother hother' => ?_, h.sorted⟩
    · obtain ⟨first, last, hspans⟩ := h.entries entry hentry
      exact ⟨first, last, hspans.append_of_not fun hhas => hhas.1 hheaders⟩
    · rcases List.mem_append.mp hother with hmem | hmem
      · exact h.complete other hmem hother'
      · rw [List.mem_singleton.mp hmem] at hother'
        exact absurd hheaders hother'
  · -- Its number is there already: the slot is the last one now.
    refine ⟨fun entry hentry => ?_, fun other hother hother' => ?_, ?_⟩
    · obtain ⟨old, hmem, rfl⟩ := List.mem_map.mp hentry
      obtain ⟨first, last, hspans⟩ := h.entries old hmem
      by_cases hnumber : old.1 = slot.cell.internalNodeId
      · rw [update, if_pos hnumber]
        exact ⟨first, slot, hspans.append ⟨hheaders, hnumber.symm⟩ hafter⟩
      · rw [update, if_neg hnumber]
        exact ⟨first, last, hspans.append_of_not fun hhas => hnumber hhas.2.symm⟩
    · have hold : ∃ info, (other.cell.internalNodeId, info) ∈ positions := by
        rcases List.mem_append.mp hother with hmem | hmem
        · exact h.complete other hmem hother'
        · obtain ⟨old, hold, hnumber⟩ := List.any_eq_true.mp hany
          rw [List.mem_singleton.mp hmem, ← of_decide_eq_true hnumber]
          exact ⟨old.2, hold⟩
      obtain ⟨info, hinfo⟩ := hold
      have hmap : update slot (other.cell.internalNodeId, info) ∈ positions.map (update slot) :=
        List.mem_map_of_mem hinfo
      rw [← Prod.eta (update slot (_, info)), update_fst] at hmap
      exact ⟨_, hmap⟩
    · exact List.pairwise_map.mpr (h.sorted.imp fun {old next} hbefore => by rwa [EntryBefore, update_min, update_min])
  · -- The slot is the first one of its number.
    have hnew : ∀ other ∈ visited, ¬ other.Has slot.cell.internalNodeId := by
      rintro other hother ⟨hother', hnumber⟩
      obtain ⟨info, hinfo⟩ := h.complete other hother hother'
      exact hany (List.any_eq_true.mpr ⟨_, hinfo, decide_eq_true hnumber⟩)
    refine ⟨fun entry hentry => ?_, fun other hother hother' => ?_, ?_⟩
    · rcases List.mem_append.mp hentry with hmem | hmem
      · obtain ⟨first, last, hspans⟩ := h.entries entry hmem
        refine ⟨first, last, hspans.append_of_not fun hhas => hany ?_⟩
        exact List.any_eq_true.mpr ⟨entry, hmem, decide_eq_true hhas.2.symm⟩
      · rw [List.mem_singleton.mp hmem]
        exact ⟨slot, slot, .single ⟨hheaders, rfl⟩ hnew⟩
    · rcases List.mem_append.mp hother with hmem | hmem
      · obtain ⟨info, hinfo⟩ := h.complete other hmem hother'
        exact ⟨info, List.mem_append_left _ hinfo⟩
      · rw [List.mem_singleton.mp hmem]
        exact ⟨_, List.mem_append_right _ (List.mem_singleton.mpr rfl)⟩
    · refine List.pairwise_append.mpr ⟨h.sorted, List.pairwise_singleton _ _, fun entry hentry next hnext => ?_⟩
      obtain ⟨first, last, hspans⟩ := h.entries entry hentry
      rw [List.mem_singleton.mp hnext, EntryBefore, hspans.info]
      exact hafter first hspans.first_mem

theorem Compiled.foldl (h : Compiled visited positions) (rest : List Slot)
    (hsorted : (visited ++ rest).Pairwise fun slot next => Before slot.position next.position) :
    Compiled (visited ++ rest) (rest.foldl TableHeaders.visitSlot positions) := by
  induction rest generalizing visited positions with
  | nil => rwa [List.append_nil]
  | cons slot rest ih =>
    have hafter : ∀ other ∈ visited, Before other.position slot.position := fun other hother =>
      (List.pairwise_append.mp hsorted).2.2 other hother slot List.mem_cons_self
    rw [List.append_cons] at hsorted ⊢
    exact ih (h.visitSlot hafter) hsorted

/-! ### Rectangular tables -/

/-- A header cell with this id. -/
def IsHeader (block : Block) (header : JsString) : Prop :=
  block.cell.isHeader = true ∧ block.cell.id = some header ∧ header ≠ []

/-- A header cell with this id has a slot in one of the rows or columns of the block. -/
def IsReached (blocks : List Block) (rows : ℕ) (block : Block) (header : JsString) : Prop :=
  ∃ other ∈ blocks, IsHeader other header ∧
    ((∃ row < rows, block.CoversRow row ∧ other.CoversRow row) ∨
      ∃ column, block.CoversColumn column ∧ other.CoversColumn column)

open Classical in
/-- The reports on the ids that a cell names. -/
noncomputable def expected (blocks : List Block) (rows : ℕ) (block : Block) : List Report :=
  (block.cell.headers.getD []).filterMap fun header =>
    if IsReached blocks rows block header then none
    else some ⟨block.cell.node, messageOf header (∃ other ∈ blocks, IsHeader other header)⟩

/-- The cells that name headers have different numbers. -/
def NumbersApart (blocks : List Block) : Prop :=
  ∀ block ∈ blocks, ∀ other ∈ blocks, block.cell.headers ≠ none → other.cell.headers ≠ none →
    block.cell.internalNodeId = other.cell.internalNodeId → block = other

/-- The entry of a block: its rows end with the table. -/
def entryOf (rows : ℕ) (block : Block) : ℕ × BlockInfo :=
  (block.cell.internalNodeId, ⟨block.top, min (block.top + block.height) rows - 1, block.left,
    block.left + block.width - 1, block.cell⟩)

theorem zipIdx_map_range {α : Type} (f : ℕ → α) (n : ℕ) :
    ((List.range n).map f).zipIdx = (List.range n).map fun i => (f i, i) := by
  refine List.ext_getElem? fun i => ?_
  rw [List.getElem?_zipIdx, List.getElem?_map, List.getElem?_map]
  cases hi : (List.range n)[i]? with
  | none => rfl
  | some j =>
    obtain ⟨hlt, rfl⟩ := List.getElem?_eq_some_iff.mp hi
    simp

theorem slots_map_range (f : ℕ → ℕ → TableCell) (rows columns : ℕ) :
    slots ((List.range rows).map fun row => (List.range columns).map fun column => f row column) =
      (List.range rows).flatMap fun row => (List.range columns).map fun column => ⟨row, column, f row column⟩ := by
  rw [slots, zipIdx_map_range, List.flatMap_map]
  refine List.flatMap_congr fun row _ => ?_
  show List.map _ ((List.range columns).map fun column => f row column).zipIdx = _
  rw [zipIdx_map_range, List.map_map]
  rfl

theorem mem_slots_map_range {f : ℕ → ℕ → TableCell} {rows columns : ℕ} :
    slot ∈ slots ((List.range rows).map fun row => (List.range columns).map fun column => f row column) ↔
      slot.row < rows ∧ slot.col < columns ∧ slot.cell = f slot.row slot.col := by
  rw [slots_map_range]
  simp only [List.mem_flatMap, List.mem_map, List.mem_range]
  constructor
  · rintro ⟨row, hrow, column, hcolumn, rfl⟩
    exact ⟨hrow, hcolumn, rfl⟩
  · rintro ⟨hrow, hcolumn, hcell⟩
    exact ⟨slot.row, hrow, slot.col, hcolumn, by rw [← hcell]⟩

theorem slots_sorted (f : ℕ → ℕ → TableCell) (rows columns : ℕ) :
    (slots ((List.range rows).map fun row => (List.range columns).map fun column => f row column)).Pairwise
      fun slot next => Before slot.position next.position := by
  rw [slots_map_range]
  refine List.pairwise_flatMap.mpr ⟨fun row _ => ?_, List.pairwise_lt_range.imp ?_⟩
  · exact List.pairwise_map.mpr (List.pairwise_lt_range.imp fun hlt => .inr ⟨rfl, hlt⟩)
  · intro row next hlt slot hslot slot' hslot'
    obtain ⟨column, -, rfl⟩ := List.mem_map.mp hslot
    obtain ⟨column', -, rfl⟩ := List.mem_map.mp hslot'
    exact .inl hlt

theorem mem_headerIds {cells : List TableCell} {header : JsString} : header ∈ headerIds cells ↔
    ∃ cell ∈ cells, cell.isHeader = true ∧ cell.id = some header ∧ header ≠ [] := by
  rw [headerIds, List.mem_filterMap]
  refine exists_congr fun cell => and_congr_right fun _ => ?_
  by_cases hheader : cell.isHeader = true
  · rw [if_pos hheader, Option.filter_eq_some_iff]
    simp [hheader]
  · simp [hheader]

theorem mem_slice {α : Type} {list : List α} {start stop : ℕ} {a : α} :
    a ∈ slice list start stop ↔ ∃ i, (start ≤ i ∧ i < stop) ∧ list[i]? = some a := by
  rw [slice, List.mem_iff_getElem?]
  constructor
  · rintro ⟨i, hi⟩
    rw [List.getElem?_take, List.getElem?_drop] at hi
    split_ifs at hi with hlt
    exact ⟨start + i, ⟨by omega, by omega⟩, hi⟩
  · rintro ⟨i, ⟨hle, hlt⟩, hi⟩
    refine ⟨i - start, ?_⟩
    rw [List.getElem?_take, if_pos (by omega), List.getElem?_drop, Nat.add_sub_cancel' hle]
    exact hi

theorem mem_slice_map_range {α : Type} {f : ℕ → List α} {n start stop : ℕ} {a : α} (hstop : stop ≤ n) :
    a ∈ (slice ((List.range n).map f) start stop).flatten ↔ ∃ i, (start ≤ i ∧ i < stop) ∧ a ∈ f i := by
  rw [List.mem_flatten]
  constructor
  · rintro ⟨list, hlist, ha⟩
    obtain ⟨i, hi, heq⟩ := mem_slice.mp hlist
    rw [List.getElem?_map, List.getElem?_range (by omega)] at heq
    exact ⟨i, hi, Option.some.inj heq ▸ ha⟩
  · rintro ⟨i, hi, ha⟩
    refine ⟨f i, mem_slice.mpr ⟨i, hi, ?_⟩, ha⟩
    rw [List.getElem?_map, List.getElem?_range (by omega)]
    rfl

section Owner

variable {rows : List (List TableCellInternal)} {columns row column : ℕ} {blocks : List Block} {block : Block}
  {owner : ℕ → ℕ → Block} (h : Rectangular rows columns blocks) (howner : Owns rows.length columns blocks owner)

/-- The cells that cover the slots. -/
def cellGrid (owner : ℕ → ℕ → Block) (rows columns : ℕ) : List (List TableCell) :=
  (List.range rows).map fun row => (List.range columns).map fun column => (owner row column).cell

include h in
theorem corner_lt (hblock : block ∈ blocks) : block.top < rows.length ∧ block.left < columns ∧
    block.left + block.width - 1 < columns := by
  have htop := h.top_lt block hblock
  have hinside := h.inside block hblock
  have hwidth := block.width_pos
  omega

include h howner

theorem occupies_of_has (hapart : NumbersApart blocks) (hblock : block ∈ blocks) (hheaders : block.cell.headers ≠ none)
    (hslot : slot ∈ slots (cellGrid owner rows.length columns)) :
    slot.Has block.cell.internalNodeId ↔ block.Occupies slot.row slot.col := by
  obtain ⟨hrow, hcol, hcell⟩ := mem_slots_map_range.mp hslot
  obtain ⟨hmem, hoccupies⟩ := howner slot.row hrow slot.col hcol
  constructor
  · rintro ⟨hheaders', hnumber⟩
    rw [hcell] at hheaders' hnumber
    rwa [hapart _ hmem _ hblock hheaders' hheaders hnumber] at hoccupies
  · intro hcovers
    rw [h.owner_eq howner hrow hcol hblock hcovers] at hcell
    exact ⟨hcell ▸ hheaders, by rw [hcell]⟩

theorem entry_eq (hapart : NumbersApart blocks)
    (hspans : Spans (slots (cellGrid owner rows.length columns)) entry first last) :
    ∃ block ∈ blocks, block.cell.headers ≠ none ∧ entry = entryOf rows.length block := by
  obtain ⟨hrow, hcol, hcell⟩ := mem_slots_map_range.mp hspans.first_mem
  obtain ⟨hmem, -⟩ := howner first.row hrow first.col hcol
  obtain ⟨block, hblock⟩ : ∃ block, owner first.row first.col = block := ⟨_, rfl⟩
  rw [hblock] at hcell hmem
  obtain ⟨hheaders, hnumber⟩ := hspans.first_has
  rw [hcell] at hheaders hnumber
  refine ⟨block, hmem, hheaders, ?_⟩
  have hhas : ∀ slot ∈ slots (cellGrid owner rows.length columns),
      slot.Has entry.1 ↔ block.Occupies slot.row slot.col := by
    intro slot hslot
    rw [← hnumber]
    exact occupies_of_has h howner hapart hmem hheaders hslot
  obtain ⟨htop, hleft, hright⟩ := corner_lt h hmem
  have hheight := block.height_pos
  have hwidth := block.width_pos
  -- No slot of the block is before its first one, or behind its last one.
  have hbounds : ∀ row < rows.length, ∀ column < columns, block.Occupies row column →
      ¬ Before (row, column) first.position ∧ ¬ Before last.position (row, column) := by
    intro row hrow column hcolumn hoccupies
    have hslot : (⟨row, column, (owner row column).cell⟩ : Slot) ∈ slots (cellGrid owner rows.length columns) :=
      mem_slots_map_range.mpr ⟨hrow, hcolumn, rfl⟩
    exact hspans.bounds _ hslot ((hhas _ hslot).mpr hoccupies)
  obtain ⟨⟨hfirstTop, -⟩, hfirstLeft, -⟩ := (hhas _ hspans.first_mem).mp hspans.first_has
  obtain ⟨⟨-, hlastBottom⟩, -, hlastRight⟩ := (hhas _ hspans.last_mem).mp hspans.last_has
  obtain ⟨hlastRow, -, -⟩ := mem_slots_map_range.mp hspans.last_mem
  have hstart := (hbounds block.top htop block.left hleft ⟨⟨le_refl _, by omega⟩, le_refl _, by omega⟩).1
  have hend := (hbounds (min (block.top + block.height) rows.length - 1) (by omega) (block.left + block.width - 1) hright
    ⟨⟨by omega, by omega⟩, by omega, by omega⟩).2
  simp only [Before, Slot.position] at hstart hend
  rw [entryOf, ← Prod.eta entry, hspans.info, hcell, hnumber]
  congr 2 <;> omega

theorem compileBlockInfo_eq (hapart : NumbersApart blocks) :
    compileBlockInfo (cellGrid owner rows.length columns) =
      (blocks.filter fun block => block.cell.headers.isSome).map (entryOf rows.length) := by
  have hcompiled : Compiled (slots (cellGrid owner rows.length columns))
      (compileBlockInfo (cellGrid owner rows.length columns)) :=
    Compiled.foldl ⟨List.forall_mem_nil _, List.forall_mem_nil _, .nil⟩ _ (slots_sorted _ _ _)
  have hirrefl : Std.Irrefl EntryBefore := ⟨fun entry => not_before_self _⟩
  have hantisymm : Std.Antisymm EntryBefore :=
    ⟨fun entry next hbefore hafter => absurd (hbefore.trans hafter) (not_before_self _)⟩
  refine hcompiled.sorted.eq_of_mem_iff (List.pairwise_map.mpr ((h.ordered.filter _).imp ?_)) fun entry => ?_
  · intro block next hlt
    have hwidth := block.width_pos
    show Before (block.top, block.left) (next.top, next.left)
    unfold Before
    omega
  · rw [List.mem_map]
    constructor
    · intro hentry
      obtain ⟨first, last, hspans⟩ := hcompiled.entries entry hentry
      obtain ⟨block, hblock, hheaders, rfl⟩ := entry_eq h howner hapart hspans
      exact ⟨block, List.mem_filter.mpr ⟨hblock, Option.isSome_iff_ne_none.mpr hheaders⟩, rfl⟩
    · rintro ⟨block, hblock, rfl⟩
      obtain ⟨hblock, hheaders⟩ := List.mem_filter.mp hblock
      have hheaders := Option.isSome_iff_ne_none.mp hheaders
      obtain ⟨htop, hleft, -⟩ := corner_lt h hblock
      have hwidth := block.width_pos
      -- The first slot of the block has an entry, which is that of a block with the same number.
      have howns := h.owner_eq howner htop hleft hblock ((occupies_top block).mpr
        (List.mem_range'_1.mpr ⟨le_refl _, by omega⟩))
      obtain ⟨info, hinfo⟩ := hcompiled.complete ⟨block.top, block.left, block.cell⟩
        (mem_slots_map_range.mpr ⟨htop, hleft, by rw [howns]⟩) hheaders
      obtain ⟨first, last, hspans⟩ := hcompiled.entries _ hinfo
      obtain ⟨other, hother, hheaders', heq⟩ := entry_eq h howner hapart hspans
      have hsame := hapart block hblock other hother hheaders hheaders' (congrArg Prod.fst heq)
      rw [hsame, ← heq]
      exact hinfo

omit h howner in
theorem rowHeaders_eq (owner : ℕ → ℕ → Block) (rows columns : ℕ) : rowHeaders (cellGrid owner rows columns) =
    (List.range rows).map fun row => headerIds ((List.range columns).map fun column => (owner row column).cell) := by
  rw [rowHeaders, cellGrid, List.map_map]
  rfl

omit h howner in
theorem colHeaders_eq (owner : ℕ → ℕ → Block) {rows : ℕ} (columns : ℕ) (hrows : 0 < rows) :
    colHeaders (cellGrid owner rows columns) =
      (List.range columns).map fun column => headerIds ((List.range rows).map fun row => (owner row column).cell) := by
  obtain ⟨count, rfl⟩ := Nat.exists_eq_add_one.mpr hrows
  have hlength : ((cellGrid owner (count + 1) columns).head?.map List.length).getD 0 = columns := by
    simp [cellGrid, List.range_succ_eq_map]
  rw [colHeaders, hlength]
  refine List.map_congr_left fun column hcolumn => ?_
  rw [cellGrid, List.filterMap_map, ← List.filterMap_eq_map]
  congr 1
  refine List.filterMap_congr fun row _ => ?_
  show ((List.range columns).map fun column => (owner row column).cell)[column]? = _
  rw [List.getElem?_map, List.getElem?_range (List.mem_range.mp hcolumn)]
  rfl

theorem mem_row_headers {header : JsString} (hrow : row < rows.length) :
    header ∈ headerIds ((List.range columns).map fun column => (owner row column).cell) ↔
      ∃ block ∈ blocks, IsHeader block header ∧ block.CoversRow row := by
  rw [mem_headerIds]
  constructor
  · rintro ⟨cell, hcell, hheader⟩
    obtain ⟨column, hcolumn, rfl⟩ := List.mem_map.mp hcell
    obtain ⟨hmem, hcovers, -⟩ := howner row hrow column (List.mem_range.mp hcolumn)
    exact ⟨_, hmem, hheader, hcovers⟩
  · rintro ⟨block, hblock, hheader, hcovers⟩
    obtain ⟨-, hleft, -⟩ := corner_lt h hblock
    have hwidth := block.width_pos
    have howns := h.owner_eq howner hrow hleft hblock ⟨hcovers, le_refl _, by omega⟩
    refine ⟨block.cell, List.mem_map.mpr ⟨block.left, List.mem_range.mpr hleft, ?_⟩, hheader⟩
    rw [howns]

theorem mem_col_headers {header : JsString} (hcolumn : column < columns) :
    header ∈ headerIds ((List.range rows.length).map fun row => (owner row column).cell) ↔
      ∃ block ∈ blocks, IsHeader block header ∧ block.CoversColumn column := by
  rw [mem_headerIds]
  constructor
  · rintro ⟨cell, hcell, hheader⟩
    obtain ⟨row, hrow, rfl⟩ := List.mem_map.mp hcell
    obtain ⟨hmem, -, hcovers⟩ := howner row (List.mem_range.mp hrow) column hcolumn
    exact ⟨_, hmem, hheader, hcovers⟩
  · rintro ⟨block, hblock, hheader, hcovers⟩
    have htop := h.top_lt block hblock
    have hheight := block.height_pos
    have howns := h.owner_eq howner htop hcolumn hblock ⟨⟨le_refl _, by omega⟩, hcovers⟩
    refine ⟨block.cell, List.mem_map.mpr ⟨block.top, List.mem_range.mpr htop, ?_⟩, hheader⟩
    rw [howns]

theorem mem_actualHeaders {header : JsString} (hblock : block ∈ blocks) :
    header ∈ actualHeaders (cellGrid owner rows.length columns) (entryOf rows.length block).2 ↔
      IsReached blocks rows.length block header := by
  obtain ⟨htop, hleft, hright⟩ := corner_lt h hblock
  have hheight := block.height_pos
  have hwidth := block.width_pos
  have hstopCol : block.left + block.width - 1 + 1 = block.left + block.width := by omega
  have hstopRow : min (block.top + block.height) rows.length - 1 + 1 = min (block.top + block.height) rows.length := by
    omega
  rw [actualHeaders, List.flatten_append, List.mem_append, rowHeaders_eq, colHeaders_eq owner columns (by omega), entryOf,
    hstopCol, hstopRow, mem_slice_map_range (by omega), mem_slice_map_range (by omega)]
  constructor
  · rintro (⟨column, hcovers, hheader⟩ | ⟨row, ⟨hle, hlt⟩, hheader⟩)
    · obtain ⟨other, hother, hid, hcovers'⟩ := (mem_col_headers h howner (by omega)).mp hheader
      exact ⟨other, hother, hid, .inr ⟨column, hcovers, hcovers'⟩⟩
    · have hrow : row < rows.length := by omega
      obtain ⟨other, hother, hid, hcovers'⟩ := (mem_row_headers h howner hrow).mp hheader
      exact ⟨other, hother, hid, .inl ⟨row, hrow, ⟨hle, by omega⟩, hcovers'⟩⟩
  · rintro ⟨other, hother, hid, ⟨row, hrow, ⟨hle, hlt⟩, hcovers'⟩ | ⟨column, ⟨hle, hlt⟩, hcovers'⟩⟩
    · exact .inr ⟨row, ⟨hle, by omega⟩, (mem_row_headers h howner hrow).mpr ⟨other, hother, hid, hcovers'⟩⟩
    · exact .inl ⟨column, ⟨hle, hlt⟩, (mem_col_headers h howner (by omega)).mpr ⟨other, hother, hid, hcovers'⟩⟩

theorem mem_allHeaders {header : JsString} (hrows : 0 < rows.length) :
    header ∈ allHeaders (cellGrid owner rows.length columns) ↔ ∃ block ∈ blocks, IsHeader block header := by
  rw [allHeaders, List.mem_append, rowHeaders_eq, colHeaders_eq owner columns hrows]
  simp only [List.mem_flatten, List.mem_map, List.mem_range]
  constructor
  · rintro (⟨_, ⟨row, hrow, rfl⟩, hheader⟩ | ⟨_, ⟨column, hcolumn, rfl⟩, hheader⟩)
    · obtain ⟨block, hblock, hid, -⟩ := (mem_row_headers h howner hrow).mp hheader
      exact ⟨block, hblock, hid⟩
    · obtain ⟨block, hblock, hid, -⟩ := (mem_col_headers h howner hcolumn).mp hheader
      exact ⟨block, hblock, hid⟩
  · rintro ⟨block, hblock, hid⟩
    have htop := h.top_lt block hblock
    have hheight := block.height_pos
    exact .inl ⟨_, ⟨block.top, htop, rfl⟩,
      (mem_row_headers h howner htop).mpr ⟨block, hblock, hid, le_refl _, by omega⟩⟩

theorem checkHeaders_eq (hblock : block ∈ blocks) :
    checkHeaders (cellGrid owner rows.length columns) (entryOf rows.length block).2 =
      expected blocks rows.length block := by
  have hrows := Nat.zero_lt_of_lt (h.top_lt block hblock)
  refine List.filterMap_congr fun header _ => ?_
  by_cases hreached : IsReached blocks rows.length block header
  · rw [if_pos ((mem_actualHeaders h howner hblock).mpr hreached), if_pos hreached]
  · rw [if_neg fun hmem => hreached ((mem_actualHeaders h howner hblock).mp hmem), if_neg hreached,
      decide_eq_decide.mpr (mem_allHeaders h howner hrows)]
    rfl

end Owner

theorem expected_nil {blocks : List Block} {rows : ℕ} {block : Block} (hheaders : block.cell.headers.isSome = false) :
    expected blocks rows block = [] := by
  rw [expected, Option.isSome_eq_false_iff.mp hheaders |> Option.isNone_iff_eq_none.mp]
  rfl

theorem flatMap_filter {α β : Type} {p : α → Bool} {f : α → List β} (hnil : ∀ a, p a = false → f a = []) (l : List α) :
    l.flatMap f = (l.filter p).flatMap f := by
  induction l with
  | nil => rfl
  | cons a l ih =>
    cases hp : p a with
    | true => rw [List.filter_cons_of_pos hp, List.flatMap_cons, List.flatMap_cons, ih]
    | false => rw [List.filter_cons_of_neg (by simp [hp]), List.flatMap_cons, hnil a hp, List.nil_append, ih]

theorem verifyHeaderReferences_rectangular {children : List Node} {rows : List (List TableCellInternal)} {columns : ℕ}
    {blocks : List Block} (hrows : extractRows children = some rows) (h : Rectangular rows columns blocks)
    (hapart : NumbersApart blocks) :
    computeGrid children = some (grid blocks rows.length columns) ∧
      verifyHeaderReferences children = blocks.flatMap (expected blocks rows.length) := by
  obtain ⟨owner, howner⟩ := h.exists_owner
  have hgrid : computeGrid children = some (cellGrid owner rows.length columns) := by
    rw [computeGrid_rectangular hrows h, h.grid_eq howner]
    rfl
  refine ⟨computeGrid_rectangular hrows h, ?_⟩
  rw [verifyHeaderReferences, hgrid]
  show (compileBlockInfo (cellGrid owner rows.length columns)).flatMap _ = _
  rw [compileBlockInfo_eq h howner hapart, List.flatMap_map, flatMap_filter fun block hheaders => expected_nil hheaders]
  refine List.flatMap_congr fun block hblock => ?_
  exact checkHeaders_eq h howner (List.mem_of_mem_filter hblock)

def value (text : String) : PropValue := ⟨units text, true⟩

/-- A cell with an id, with headers, or over so many rows. -/
def cellNode (node : ℕ) (name : String) (id headers rowspan : Option PropValue) : Node :=
  .element node (some name) name ⟨rowspan, none, headers, id⟩ []

def plainAttributes : Attributes := ⟨none, none, none, none⟩

/-- A part of a table, or a row. -/
def structureNode (name : String) (children : List Node) : Node :=
  .element 0 (some name) name plainAttributes children

/-- A table of two columns, in which the first cell of the body spans two rows. -/
def headersTable : List Node :=
  [structureNode "thead" [structureNode "tr"
      [cellNode 1 "th" (some (value "a")) none none, cellNode 2 "th" (some (value "b")) none none]],
    structureNode "tbody" [structureNode "tr"
        [cellNode 3 "td" none (some (value "a")) (some (value "2")), cellNode 4 "td" none (some (value "a")) none],
      structureNode "tr" [cellNode 5 "td" none (some (value "c")) none]]]

def headersBlocks : List Block :=
  [⟨⟨true, none, some (units "a"), 1, 0⟩, 0, 0, 1, 1, by decide, by decide⟩,
    ⟨⟨true, none, some (units "b"), 2, 1⟩, 0, 1, 1, 1, by decide, by decide⟩,
    ⟨⟨false, some [units "a"], none, 3, 0⟩, 1, 0, 1, 2, by decide, by decide⟩,
    ⟨⟨false, some [units "a"], none, 4, 1⟩, 1, 1, 1, 1, by decide, by decide⟩,
    ⟨⟨false, some [units "c"], none, 5, 2⟩, 2, 1, 1, 1, by decide, by decide⟩]

theorem verifyHeaderReferences_headersTable :
    computeGrid headersTable = some (grid headersBlocks 3 2) ∧
      verifyHeaderReferences headersTable = headersBlocks.flatMap (expected headersBlocks 3) :=
  @verifyHeaderReferences_rectangular headersTable ((List.range 3).map (rowOf headersBlocks)) 2 headersBlocks (by decide)
    ⟨by decide, by decide, by decide, by decide, by decide, by decide, by decide⟩ (by unfold NumbersApart; decide)

end SonarJavascript.Rules.TableHeaders
