import SonarJavascript.Lib.StableSort

/-!
# Symbol highlighting

A variable is highlighted with its definitions and its references, without duplicates and sorted by their lines: the
first one is the declaration, the others are the references. Identifiers of one line stay in the order of the two
lists, the definitions first. The declaration is the earliest identifier if and only if the first one of them on the
first line is (`isHighlight_iff`).
-/

namespace SonarJavascript.Linter.SymbolHighlighting

@[ext]
structure Position where
  line : ℕ
  column : ℕ
  deriving DecidableEq

/-- The order of the text. -/
instance : LE Position where
  le a b := a.line < b.line ∨ a.line = b.line ∧ a.column ≤ b.column

instance (a b : Position) : Decidable (a ≤ b) :=
  inferInstanceAs (Decidable (_ ∨ _))

structure SourceLocation where
  start : Position
  «end» : Position
  deriving DecidableEq

/-- A node, with its key among the objects of the tree and the first offset of its type annotation. -/
structure Identifier where
  key : ℕ
  type : String
  loc : Option SourceLocation
  typeAnnotation : Option ℕ
  deriving DecidableEq

/-- An identifier that has a location. -/
structure Located where
  identifier : Identifier
  loc : SourceLocation
  eq : identifier.loc = some loc
  deriving DecidableEq

def locate (identifier : Identifier) : Option Located :=
  match h : identifier.loc with
  | none => none
  | some loc => some ⟨identifier, loc, h⟩

/-- The names of the definitions and the identifiers of the references. -/
structure Variable where
  defs : List Identifier
  references : List Identifier

structure Location where
  startLine : ℕ
  startCol : ℕ
  endLine : ℕ
  endCol : ℕ
  deriving DecidableEq

structure SymbolHighlight where
  declaration : Location
  references : List Location
  deriving DecidableEq

def convertLocation (loc : SourceLocation) : Location :=
  ⟨loc.start.line, loc.start.column, loc.end.line, loc.end.column⟩

/-- The location without the type annotation. -/
def identifierLocation (getLocFromIndex : ℕ → Position) (node : Located) : Location :=
  convertLocation
    { start := node.loc.start
      «end» :=
        match node.identifier.typeAnnotation with
        | some index => if node.identifier.type = "Identifier" then getLocFromIndex index else node.loc.end
        | none => node.loc.end }

/-- The sort is by the line alone, and stable. -/
def lineLe (a b : Located) : Bool := a.loc.start.line ≤ b.loc.start.line

def Variable.allRef (v : Variable) : List Located :=
  ((v.defs ++ v.references).eraseDups.filterMap locate).mergeSort lineLe

def addVariable (getLocFromIndex : ℕ → Position) (v : Variable) : Option SymbolHighlight :=
  match v.allRef with
  | [] => none
  | declaration :: references =>
    some ⟨identifierLocation getLocFromIndex declaration, references.map (identifierLocation getLocFromIndex)⟩

/-! ### What is highlighted -/

/-- The definitions, then the references. -/
def Variable.identifiers (v : Variable) : List Located := (v.defs ++ v.references).filterMap locate

/-- The declaration is an earliest identifier, and the references are the others, each of them once. -/
def IsHighlight (getLocFromIndex : ℕ → Position) (v : Variable) (highlight : SymbolHighlight) : Prop :=
  ∃ declaration others, (declaration :: others).Nodup ∧ (∀ node, node ∈ declaration :: others ↔ node ∈ v.identifiers) ∧
    (∀ node ∈ v.identifiers, declaration.loc.start ≤ node.loc.start) ∧
      highlight.declaration = identifierLocation getLocFromIndex declaration ∧
        highlight.references.Perm (others.map (identifierLocation getLocFromIndex))

/-- The first definition or reference on the first line that has one. -/
def Variable.firstOnFirstLine (v : Variable) : Option Located :=
  v.identifiers.find? (isLeast lineLe v.identifiers)

/-! ### The sorted identifiers -/

variable {v : Variable} {getLocFromIndex : ℕ → Position} {node : Located}

theorem locate_eq_some_iff {identifier : Identifier} : locate identifier = some node ↔ node.identifier = identifier := by
  obtain ⟨_, loc, heq⟩ := node
  unfold locate
  constructor
  · split
    · nofun
    · rintro ⟨⟩
      rfl
  · rintro rfl
    split
    · rename_i hnone
      exact nomatch heq.symm.trans hnone
    · rename_i hsome
      cases heq.symm.trans hsome
      rfl

theorem mem_allRef : node ∈ v.allRef ↔ node ∈ v.identifiers := by
  rw [Variable.allRef, List.mem_mergeSort, Variable.identifiers, List.mem_filterMap, List.mem_filterMap]
  simp only [List.mem_eraseDups]

theorem nodup_located : ((v.defs ++ v.references).eraseDups.filterMap locate).Nodup := by
  refine (nodup_eraseDups _).filterMap fun a b node ha hb => ?_
  rw [Option.mem_def, locate_eq_some_iff] at ha hb
  exact ha.symm.trans hb

theorem nodup_allRef : v.allRef.Nodup :=
  (List.mergeSort_perm _ lineLe).nodup_iff.mpr nodup_located

theorem head?_allRef : v.allRef.head? = v.firstOnFirstLine := by
  have hleast : isLeast lineLe ((v.defs ++ v.references).eraseDups.filterMap locate) = isLeast lineLe v.identifiers := by
    funext a
    refine Bool.eq_iff_iff.mpr ?_
    simp only [isLeast, List.all_eq_true, Variable.identifiers, List.mem_filterMap, List.mem_eraseDups]
  have htrans : ∀ a b c, lineLe a b → lineLe b c → lineLe a c := by
    intro a b c hab hbc
    exact decide_eq_true (Nat.le_trans (of_decide_eq_true hab) (of_decide_eq_true hbc))
  have htotal : ∀ a b, lineLe a b || lineLe b a := by
    intro a b
    simpa [lineLe] using Nat.le_total a.loc.start.line b.loc.start.line
  rw [Variable.allRef, head?_mergeSort htrans htotal nodup_located, hleast, Variable.firstOnFirstLine,
    List.find?_filterMap, find?_eraseDups, Variable.identifiers, List.find?_filterMap]

theorem addVariable_eq_some {highlight : SymbolHighlight} (h : addVariable getLocFromIndex v = some highlight) :
    ∃ declaration others, v.allRef = declaration :: others ∧
      highlight = ⟨identifierLocation getLocFromIndex declaration, others.map (identifierLocation getLocFromIndex)⟩ := by
  unfold addVariable at h
  split at h
  · cases h
  · rename_i declaration others hallRef
    exact ⟨declaration, others, hallRef, (Option.some.inj h).symm⟩

theorem start_eq {a b : Located} (h : identifierLocation getLocFromIndex a = identifierLocation getLocFromIndex b) :
    a.loc.start = b.loc.start := by
  have hline := congrArg Location.startLine h
  have hcolumn := congrArg Location.startCol h
  exact Position.ext hline hcolumn

/-! ### The declaration -/

theorem earliest_of_isHighlight {highlight : SymbolHighlight} (hadd : addVariable getLocFromIndex v = some highlight)
    (h : IsHighlight getLocFromIndex v highlight) :
    ∃ first, v.firstOnFirstLine = some first ∧ ∀ node ∈ v.identifiers, first.loc.start ≤ node.loc.start := by
  obtain ⟨declaration, others, -, -, hearliest, hdeclaration, -⟩ := h
  obtain ⟨first, rest, hallRef, rfl⟩ := addVariable_eq_some hadd
  refine ⟨first, by rw [← head?_allRef, hallRef]; rfl, fun node hnode => ?_⟩
  rw [start_eq hdeclaration]
  exact hearliest node hnode

/-- A variable is highlighted as it should be if and only if the first identifier on the first line is the earliest
one. -/
theorem isHighlight_iff (getLocFromIndex : ℕ → Position) (v : Variable) :
    (∃ highlight, addVariable getLocFromIndex v = some highlight ∧ IsHighlight getLocFromIndex v highlight) ↔
      ∃ first, v.firstOnFirstLine = some first ∧ ∀ node ∈ v.identifiers, first.loc.start ≤ node.loc.start := by
  constructor
  · rintro ⟨highlight, hadd, h⟩
    exact earliest_of_isHighlight hadd h
  · rintro ⟨first, hfirst, hearliest⟩
    rw [← head?_allRef] at hfirst
    obtain ⟨others, hallRef⟩ := List.head?_eq_some_iff.mp hfirst
    refine ⟨_, by rw [addVariable, hallRef], first, others, ?_, fun node => ?_, hearliest, rfl, List.Perm.refl _⟩
    · rw [← hallRef]
      exact nodup_allRef
    · rw [← hallRef]
      exact mem_allRef

/-- `x = 1; var x;` on one line: the definition stands before the reference in the list. -/
def usedBefore : Variable where
  defs := [⟨1, "Identifier", some ⟨⟨1, 11⟩, ⟨1, 12⟩⟩, none⟩]
  references := [⟨0, "Identifier", some ⟨⟨1, 0⟩, ⟨1, 1⟩⟩, none⟩]

/-- The declaration of `x` is reported at column 11, and `x` is used at column 0. -/
theorem usedBefore_declaration_later :
    ¬ ∀ v : Variable, v.identifiers ≠ [] →
      ∃ highlight, addVariable (fun _ => ⟨1, 0⟩) v = some highlight ∧ IsHighlight (fun _ => ⟨1, 0⟩) v highlight := by
  intro h
  obtain ⟨highlight, hadd, hhighlight⟩ := h usedBefore (by decide)
  obtain ⟨first, hfirst, hearliest⟩ := earliest_of_isHighlight hadd hhighlight
  obtain rfl : ⟨⟨1, "Identifier", some ⟨⟨1, 11⟩, ⟨1, 12⟩⟩, none⟩, ⟨⟨1, 11⟩, ⟨1, 12⟩⟩, rfl⟩ = first :=
    Option.some.inj hfirst
  exact absurd (hearliest ⟨⟨0, "Identifier", some ⟨⟨1, 0⟩, ⟨1, 1⟩⟩, none⟩, ⟨⟨1, 0⟩, ⟨1, 1⟩⟩, rfl⟩ (by decide))
    (by decide)

end SonarJavascript.Linter.SymbolHighlighting
