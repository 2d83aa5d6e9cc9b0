import SonarJavascript.Regex.Intersections
import SonarJavascript.Regex.Tokenizer

/-!
# Elements of character classes

The `Builder` of `helpers/regex/simplified-regex-character-class.ts`: the ranges that it adds for an element, and next
to them the code points that the element denotes in ECMAScript.
-/

namespace SonarJavascript.Regex

open OrderedTree

structure Flags where
  ignoreCase : Bool
  unicode : Bool
  unicodeSets : Bool
  deriving DecidableEq

inductive EscapeKind
  | digit | space | word
  deriving DecidableEq

/-- `Unvisited` are the elements that the builder has no case for: property escapes, and what the flag `v` allows. -/
inductive ClassElement
  | Character (value : ℕ) (le_max : value ≤ maxCodePoint)
  | CharacterClassRange (min max : ℕ) (le : min ≤ max) (le_max : max ≤ maxCodePoint)
  | CharacterSet (kind : EscapeKind) (negate : Bool)
  | Unvisited (contents : ℕ → Prop)

/-- The first code points of `toUpperCase()` and `toLowerCase()`. -/
structure CaseMapping where
  upperCase : ℕ → ℕ
  lowerCase : ℕ → ℕ

/-! ### The builder -/

def visitCharacterSet (unicode : Bool) : EscapeKind → Bool → List (ℕ × ℕ)
  | .digit, true => [(0x00, 0x2F), (0x3A, if unicode then 0xFF else maxCodePoint)]
  | .digit, false => [(0x30, 0x39)]
  | .space, true =>
    [(0x00, 0x08), (0x0E, 0x1F)] ++
      if unicode then
        [(0x21, 0x84), (0x86, 0x9F), (0xA1, 0x167F), (0x1681, 0x1FFF), (0x200B, 0x2027), (0x202A, 0x202E),
          (0x2030, 0x205E), (0x2060, 0x2FFF), (0x3001, maxCodePoint)]
      else [(0x21, maxCodePoint)]
  | .space, false =>
    [(0x09, 0x0D), (0x20, 0x20)] ++
      if unicode then
        [(0x85, 0x85), (0xA0, 0xA0), (0x1680, 0x1680), (0x2000, 0x200A), (0x2028, 0x2029), (0x202F, 0x202F),
          (0x205F, 0x205F), (0x3000, 0x3000)]
      else []
  | .word, true =>
    [(0x00, 0x2F), (0x3A, 0x40), (0x5B, 0x5E), (0x60, 0x60), (0x7B, if unicode then 0xB4 else maxCodePoint)]
  | .word, false => [(0x30, 0x39), (0x41, 0x5A), (0x5F, 0x5F), (0x61, 0x7A)]

/-- The ranges that `visit` passes on for an element. -/
def visit (flags : Flags) : ClassElement → List (ℕ × ℕ)
  | .Character value _ => [(value, value)]
  | .CharacterClassRange min max _ _ => [(min, max)]
  | .CharacterSet kind negate => visitCharacterSet flags.unicode kind negate
  | .Unvisited _ => []

def isAscii (c : ℕ) : Bool := c < 128

/-- What `addRange` of the builder adds to the class. -/
def caseRanges (mapping : CaseMapping) (flags : Flags) (range : ℕ × ℕ) : List (ℕ × ℕ) :=
  let upperCaseFrom := mapping.upperCase range.1
  let upperCaseTo := mapping.upperCase range.2
  let lowerCaseFrom := mapping.lowerCase upperCaseFrom
  let lowerCaseTo := mapping.lowerCase upperCaseTo
  if flags.ignoreCase = true ∧ lowerCaseFrom ≠ upperCaseFrom ∧ lowerCaseTo ≠ upperCaseTo ∧
      ((isAscii range.1 = true ∧ isAscii range.2 = true) ∨ flags.unicode = true) then
    [(upperCaseFrom, upperCaseTo), (lowerCaseFrom, lowerCaseTo)]
  else [range]

variable {E : Type} (R : OrderedTree ℕ (Option E))

/-- The element is also the value of its entries. -/
def add (mapping : CaseMapping) (flags : Flags) (contents : R.Tree) (element : ClassElement) (node : E) : R.Tree :=
  ((visit flags element).flatMap (caseRanges mapping flags)).foldl
    (fun contents range => addRange R contents range.1 range.2 node) contents

def addAll (mapping : CaseMapping) (flags : Flags) (elements : List (ClassElement × E)) : R.Tree :=
  elements.foldl (fun contents element => add R mapping flags contents element.1 element.2) R.createTree

/-! ### What elements denote -/

def EscapeKind.contains : EscapeKind → ℕ → Bool
  | .digit, cp => 0x30 ≤ cp && cp ≤ 0x39
  | .space, cp => isWhiteSpace cp
  | .word, cp =>
    (0x30 ≤ cp && cp ≤ 0x39) || (0x41 ≤ cp && cp ≤ 0x5A) || cp == 0x5F || (0x61 ≤ cp && cp ≤ 0x7A)

/-- Without `u` and `v` the characters are code units. -/
def lastCharacter (flags : Flags) : ℕ := if flags.unicode || flags.unicodeSets then maxCodePoint else 0xFFFF

/-- The code points of an element in ECMAScript, without regard to case. -/
def Denotes (flags : Flags) : ClassElement → ℕ → Prop
  | .Character value _, cp => cp = value
  | .CharacterClassRange min max _ _, cp => min ≤ cp ∧ cp ≤ max
  | .CharacterSet kind negate, cp => cp ≤ lastCharacter flags ∧ kind.contains cp ≠ negate
  | .Unvisited contents, cp => contents cp

/-- The code points of an element for the builder. -/
def Visited (flags : Flags) (element : ClassElement) (cp : ℕ) : Prop :=
  ∃ range ∈ visit flags element, range.1 ≤ cp ∧ cp ≤ range.2

/-! ### Ranges -/

variable {R} {mapping : CaseMapping} {flags : Flags} {element : ClassElement} {cp : ℕ}

theorem visitCharacterSet_valid (unicode : Bool) (kind : EscapeKind) (negate : Bool) :
    (∀ range ∈ visitCharacterSet unicode kind negate, range.1 ≤ range.2 ∧ range.2 ≤ maxCodePoint) ∧
      (visitCharacterSet unicode kind negate).Pairwise fun range next => range.2 < next.1 := by
  cases kind <;> cases negate <;> cases unicode <;> decide

theorem visit_valid (flags : Flags) (element : ClassElement) :
    ∀ range ∈ visit flags element, range.1 ≤ range.2 ∧ range.2 ≤ maxCodePoint := by
  cases element with
  | Character value h => simpa [visit] using h
  | CharacterClassRange min max hle hmax => simpa [visit] using ⟨hle, hmax⟩
  | CharacterSet kind negate => exact (visitCharacterSet_valid flags.unicode kind negate).1
  | Unvisited => nofun

theorem visit_pairwise (flags : Flags) (element : ClassElement) :
    (visit flags element).Pairwise fun range next => range.2 < next.1 := by
  cases element with
  | Character | CharacterClassRange => exact List.pairwise_singleton _ _
  | CharacterSet kind negate => exact (visitCharacterSet_valid flags.unicode kind negate).2
  | Unvisited => exact List.Pairwise.nil

theorem Visited.le_max (h : Visited flags element cp) : cp ≤ maxCodePoint := by
  obtain ⟨range, hrange, -, hle⟩ := h
  exact hle.trans (visit_valid flags element range hrange).2

/-- The calls for an element when case matters. -/
def rangesOf (flags : Flags) (element : ClassElement × E) : List (Range E) :=
  (visit flags element.1).pmap (fun range h => ⟨range.1, range.2, element.2, h.1, h.2⟩) (visit_valid flags element.1)

variable {elements : List (ClassElement × E)} {node : E} {range : Range E}

theorem mem_rangesOf : range ∈ rangesOf flags (element, node) ↔
    (range.fromCp, range.toCp) ∈ visit flags element ∧ range.element = node := by
  unfold rangesOf
  rw [List.mem_pmap]
  constructor
  · rintro ⟨span, hspan, rfl⟩
    exact ⟨hspan, rfl⟩
  · rintro ⟨hspan, rfl⟩
    exact ⟨_, hspan, rfl⟩

theorem visited_iff (element : ClassElement) (node : E) :
    Visited flags element cp ↔ ∃ range ∈ rangesOf flags (element, node), range.contains cp := by
  constructor
  · rintro ⟨span, hspan, hcontains⟩
    obtain ⟨hle, hmax⟩ := visit_valid flags element span hspan
    exact ⟨⟨span.1, span.2, node, hle, hmax⟩, mem_rangesOf.mpr ⟨hspan, rfl⟩, hcontains⟩
  · rintro ⟨range, hrange, hcontains⟩
    exact ⟨_, (mem_rangesOf.mp hrange).1, hcontains⟩

theorem rangesOf_pairwise (flags : Flags) (element : ClassElement × E) :
    (rangesOf flags element).Pairwise fun range next => range.toCp < next.fromCp := by
  unfold rangesOf
  refine (visit_pairwise flags element.1).pmap _ fun _ _ _ _ h => h

theorem apart_of_split {earlier later : List (Range E)} {element : ClassElement × E}
    (hsplit : rangesOf flags element = earlier ++ range :: later) :
    ∀ range' ∈ earlier, ∀ cp, ¬ (range'.contains cp ∧ range.contains cp) := by
  intro range' hrange' cp hboth
  have hpairwise := rangesOf_pairwise flags element
  rw [hsplit] at hpairwise
  have hlt := (List.pairwise_append.mp hpairwise).2.2 range' hrange' range List.mem_cons_self
  exact absurd (hboth.1.2.trans_lt hlt) (not_lt.mpr hboth.2.1)

/-- Where the builder leaves the ranges of the element as they are, the calls are those for the ranges. -/
theorem add_eq_of_same (hsame : ∀ range ∈ visit flags element, caseRanges mapping flags range = [range])
    (contents : R.Tree) (node : E) :
    add R mapping flags contents element node = (rangesOf flags (element, node)).foldl
      (fun contents range => addRange R contents range.fromCp range.toCp range.element) contents := by
  have hranges : (visit flags element).flatMap (caseRanges mapping flags) = visit flags element := by
    rw [List.flatMap_congr hsame, List.flatMap_singleton']
  unfold add rangesOf
  rw [hranges, List.foldl_pmap, ← List.foldl_attach]

theorem caseRanges_of_case (hcase : flags.ignoreCase = false) (range : ℕ × ℕ) :
    caseRanges mapping flags range = [range] := by
  simp [caseRanges, hcase]

theorem add_eq (hcase : flags.ignoreCase = false) (contents : R.Tree) (element : ClassElement) (node : E) :
    add R mapping flags contents element node = (rangesOf flags (element, node)).foldl
      (fun contents range => addRange R contents range.fromCp range.toCp range.element) contents :=
  add_eq_of_same (fun range _ => caseRanges_of_case hcase range) contents node

theorem contains_add_iff (hR : R.Lawful)
    (hsame : ∀ range ∈ visit flags element, caseRanges mapping flags range = [range]) (hmax : cp ≤ maxCodePoint) :
    contains R (add R mapping flags R.createTree element node) cp = true ↔ Visited flags element cp := by
  have hadd : add R mapping flags R.createTree element node = addRanges R (rangesOf flags (element, node)) :=
    add_eq_of_same hsame _ node
  rw [hadd]
  constructor
  · intro h
    rw [contains_eq_isSome, Option.isSome_iff_exists] at h
    obtain ⟨node', howner⟩ := h
    obtain ⟨range, hrange, -, hcontains⟩ := exists_of_owner_addRanges hR hmax howner
    exact (visited_iff element node).mpr ⟨range, hrange, hcontains⟩
  · intro h
    obtain ⟨range, hrange, hcontains⟩ := (visited_iff element node).mp h
    obtain ⟨earlier, later, hsplit⟩ := List.append_of_mem hrange
    rw [hsplit]
    exact contains_addRanges_of_apart hR (apart_of_split hsplit) hcontains

theorem addAll_eq (hcase : flags.ignoreCase = false) (elements : List (ClassElement × E)) :
    addAll R mapping flags elements = addRanges R (elements.flatMap (rangesOf flags)) := by
  unfold addAll addRanges
  rw [List.foldl_flatMap]
  congr 1
  funext contents element
  exact add_eq hcase contents element.1 element.2

end SonarJavascript.Regex
