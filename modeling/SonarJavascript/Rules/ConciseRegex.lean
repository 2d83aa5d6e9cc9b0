import SonarJavascript.Regex.CharSets
import Mathlib.Data.List.Perm.Basic

/-!
# Concise character classes (S6353)

The checks of character classes compare the texts and the kinds of the elements. `\d` and `\w` have the same characters
as the classes that they are suggested for, under any flags. `.` has them if and only if the flag `s` is set, which is
only asked of `[\s\S]` (`suggestions_exact_iff`).
-/

namespace SonarJavascript.Rules.ConciseRegex

open Regex

/-! ### Classes -/

/-- A character of a class. One that is written as a single unit stands for this unit. -/
structure Character where
  raw : JsString
  value : ℕ
  ne_nil : raw ≠ []
  value_eq : ∀ unit, raw = [unit] → value = unit

/-- `other` are property escapes, and what the flag `v` allows in a class. -/
inductive Element
  | Character (character : Character)
  | CharacterClassRange (min max : Character)
  | CharacterSet (kind : EscapeKind) (negate : Bool)
  | other (raw : JsString) (contents : Set ℕ)

def escapeRaw : EscapeKind → Bool → JsString
  | .digit, negate => units (if negate then "\\D" else "\\d")
  | .space, negate => units (if negate then "\\S" else "\\s")
  | .word, negate => units (if negate then "\\W" else "\\w")

namespace Element

def raw : Element → JsString
  | Character character => character.raw
  | CharacterClassRange min max => min.raw ++ units "-" ++ max.raw
  | CharacterSet kind negate => escapeRaw kind negate
  | other raw _ => raw

def isCharacterSet (kind : EscapeKind) (negate : Bool) : Element → Bool
  | CharacterSet kind' negate' => kind' = kind && negate' = negate
  | _ => false

def isRange (text : String) : Element → Bool
  | CharacterClassRange min max => (CharacterClassRange min max).raw = units text
  | _ => false

def isCharacter (text : String) : Element → Bool
  | Character character => character.raw = units text
  | _ => false

end Element

structure CharacterClass where
  negate : Bool
  elements : List Element

def CharacterClass.raw (node : CharacterClass) : JsString :=
  units (if node.negate then "[^" else "[") ++ node.elements.flatMap Element.raw ++ units "]"

/-! ### The checks -/

/-- What a report suggests. -/
inductive Shorthand
  | any
  | escape (kind : EscapeKind) (negate : Bool)
  deriving DecidableEq

def Shorthand.raw : Shorthand → JsString
  | any => units "."
  | escape kind negate => escapeRaw kind negate

def message (expected : Shorthand) (node : CharacterClass) : JsString :=
  units "Use concise character class syntax '" ++ expected.raw ++ units "' instead of '" ++ node.raw ++ units "'."

def checkBulkyAnyCharacterClass (node : CharacterClass) (flags : RegExpFlags) : Option Shorthand :=
  if node.negate = true ∨ node.elements.length ≠ 2 then none
  else
    let hasLowerEscapeW := node.elements.any (Element.isCharacterSet .word false)
    let hasUpperEscapeW := node.elements.any (Element.isCharacterSet .word true)
    let hasLowerEscapeD := node.elements.any (Element.isCharacterSet .digit false)
    let hasUpperEscapeD := node.elements.any (Element.isCharacterSet .digit true)
    let hasLowerEscapeS := node.elements.any (Element.isCharacterSet .space false)
    let hasUpperEscapeS := node.elements.any (Element.isCharacterSet .space true)
    if hasLowerEscapeW && hasUpperEscapeW || hasLowerEscapeD && hasUpperEscapeD ||
        hasLowerEscapeS && hasUpperEscapeS && flags.dotAll then
      some .any
    else none

def checkBulkyNumericCharacterClass (node : CharacterClass) : Option Shorthand :=
  match node.elements with
  | [element] => if element.isRange "0-9" then some (.escape .digit node.negate) else none
  | _ => none

def checkBulkyAlphaNumericCharacterClass (node : CharacterClass) : Option Shorthand :=
  if node.elements.length = 4 then
    let hasDigit := node.elements.any (Element.isRange "0-9")
    let hasLowerCase := node.elements.any (Element.isRange "a-z")
    let hasUpperCase := node.elements.any (Element.isRange "A-Z")
    let hasUnderscore := node.elements.any (Element.isCharacter "_")
    if hasDigit && hasLowerCase && hasUpperCase && hasUnderscore then some (.escape .word node.negate) else none
  else none

/-- `onCharacterClassEnter` -/
def suggestions (node : CharacterClass) (flags : RegExpFlags) : List Shorthand :=
  (checkBulkyAnyCharacterClass node flags).toList ++ (checkBulkyNumericCharacterClass node).toList ++
    (checkBulkyAlphaNumericCharacterClass node).toList

def reports (node : CharacterClass) (flags : RegExpFlags) : List JsString :=
  (suggestions node flags).map fun expected => message expected node

/-! ### What classes have -/

variable (folding : CaseFolding) (flags : RegExpFlags)

def Element.set : Element → Set ℕ
  | Character character => MaybeSimpleCaseFolding folding flags.toFlags { c | c = character.value }
  | CharacterClassRange min max =>
    MaybeSimpleCaseFolding folding flags.toFlags { c | min.value ≤ c ∧ c ≤ max.value }
  | CharacterSet kind negate => characterClassEscape folding flags.toFlags kind negate
  | other _ contents => contents

def CharacterClass.set (node : CharacterClass) : Set ℕ :=
  { c | ∃ element ∈ node.elements, c ∈ element.set folding flags }

/-- The class has the character. Under `v`, a negated class is the complement of its set. -/
def CharacterClass.Has (node : CharacterClass) (c : ℕ) : Prop :=
  if node.negate = true then
    if flags.unicodeSets = true then
      Hits folding flags.toFlags (CharacterComplement folding flags.toFlags (node.set folding flags)) c
    else ¬ Hits folding flags.toFlags (node.set folding flags) c
  else Hits folding flags.toFlags (node.set folding flags) c

def Shorthand.Has : Shorthand → ℕ → Prop
  | any, c => Hits folding flags.toFlags (dotSet folding flags) c
  | escape kind negate, c => Hits folding flags.toFlags (characterClassEscape folding flags.toFlags kind negate) c

/-- The class consists of an escape and its complement. -/
def CharacterClass.IsBoth (node : CharacterClass) (kind : EscapeKind) : Prop :=
  node.negate = false ∧ node.elements.length = 2 ∧ node.elements.any (Element.isCharacterSet kind false) = true ∧
    node.elements.any (Element.isCharacterSet kind true) = true

instance (node : CharacterClass) (kind : EscapeKind) : Decidable (node.IsBoth kind) :=
  inferInstanceAs (Decidable (_ ∧ _ ∧ _ ∧ _))

/-! ### Elements -/

variable {folding flags} {node : CharacterClass} {element : Element} {c : ℕ}

theorem mem_maybeSimpleCaseFolding {set : Set ℕ} : c ∈ MaybeSimpleCaseFolding folding flags.toFlags set ↔
    ∃ a ∈ set, (if folds flags.toFlags = true then folding.simpleFold a else a) = c := by
  rw [MaybeSimpleCaseFolding]
  split_ifs
  · exact Iff.rfl
  · simp

theorem set_of_isRange {text : String} {x y : ℕ} (htext : units text = [x, 45, y]) (h : element.isRange text = true) :
    element.set folding flags = MaybeSimpleCaseFolding folding flags.toFlags { c | x ≤ c ∧ c ≤ y } := by
  cases element with
  | CharacterClassRange min max =>
    have hraw : min.raw ++ [45] ++ max.raw = [x, 45, y] := by
      rw [← htext]
      exact of_decide_eq_true h
    have hmin := List.length_pos_of_ne_nil min.ne_nil
    have hmax := List.length_pos_of_ne_nil max.ne_nil
    have hlength := congrArg List.length hraw
    simp only [List.length_append, List.length_cons, List.length_nil] at hlength
    obtain ⟨a, ha⟩ := List.length_eq_one_iff.mp (by omega : min.raw.length = 1)
    obtain ⟨b, hb⟩ := List.length_eq_one_iff.mp (by omega : max.raw.length = 1)
    rw [ha, hb] at hraw
    obtain ⟨rfl, -, rfl, -⟩ : a = x ∧ 45 = 45 ∧ b = y ∧ True := by simpa using hraw
    rw [Element.set, min.value_eq a ha, max.value_eq b hb]
  | _ => cases h

theorem set_of_isCharacter {text : String} {x : ℕ} (htext : units text = [x]) (h : element.isCharacter text = true) :
    element.set folding flags = MaybeSimpleCaseFolding folding flags.toFlags { c | c = x } := by
  cases element with
  | Character character =>
    have hraw : character.raw = [x] := by
      rw [← htext]
      exact of_decide_eq_true h
    rw [Element.set, character.value_eq x hraw]
  | _ => cases h

theorem eq_of_isCharacterSet {kind : EscapeKind} {negate : Bool} (h : element.isCharacterSet kind negate = true) :
    element = .CharacterSet kind negate := by
  cases element with
  | CharacterSet kind' negate' =>
    obtain ⟨hkind, hnegate⟩ := (Bool.and_eq_true _ _).mp h
    rw [of_decide_eq_true hkind, of_decide_eq_true hnegate]
  | _ => cases h

/-- As many elements as there are tests, which exclude each other and of which each one is met, meet one of them. -/
theorem exists_test {α : Type} {tests : List (α → Bool)} {l : List α}
    (hexclude : tests.Pairwise fun p q => ∀ a, p a = true → q a = false) (hmet : ∀ p ∈ tests, l.any p = true)
    (hlength : l.length = tests.length) : ∀ a ∈ l, ∃ p ∈ tests, p a = true := by
  induction tests generalizing l with
  | nil =>
    rw [List.length_eq_zero_iff.mp hlength]
    simp
  | cons p tests ih =>
    obtain ⟨hp, htests⟩ := List.pairwise_cons.mp hexclude
    obtain ⟨hany, hmet⟩ := List.forall_mem_cons.mp hmet
    obtain ⟨first, hmem, hfirst⟩ := List.any_eq_true.mp hany
    obtain ⟨before, after, rfl⟩ := List.append_of_mem hmem
    have hrest : ∀ a ∈ before ++ after, ∃ p ∈ tests, p a = true := by
      refine ih htests (fun q hq => ?_) (by simp at hlength ⊢; omega)
      obtain ⟨a, ha, hqa⟩ := List.any_eq_true.mp (hmet q hq)
      have hne : a ≠ first := by
        rintro rfl
        rw [hp q hq a hfirst] at hqa
        cases hqa
      refine List.any_eq_true.mpr ⟨a, ?_, hqa⟩
      simpa [hne] using ha
    intro a ha
    by_cases heq : a = first
    · exact ⟨p, List.mem_cons_self, heq ▸ hfirst⟩
    · obtain ⟨q, hq, hqa⟩ := hrest a (by simpa [heq] using ha)
      exact ⟨q, List.mem_cons_of_mem _ hq, hqa⟩

theorem isRange_exclusive {text text' : String} (h : units text ≠ units text') (hrange : element.isRange text = true) :
    element.isRange text' = false := by
  cases element with
  | CharacterClassRange min max => exact decide_eq_false fun heq => h ((of_decide_eq_true hrange).symm.trans heq)
  | _ => cases hrange

theorem isRange_not_character {text text' : String} (hrange : element.isRange text = true) :
    element.isCharacter text' = false := by
  cases element with
  | CharacterClassRange min max => rfl
  | _ => cases hrange

/-! ### Classes of one folded set -/

section Lawful

variable (hfolding : folding.Lawful)
include hfolding

theorem has_iff_of_set_eq {set : Set ℕ} (h : node.set folding flags = MaybeSimpleCaseFolding folding flags.toFlags set)
    (hc : c ≤ lastCharacter flags.toFlags) :
    node.Has folding flags c ↔ (Hits folding flags.toFlags set c ↔ node.negate = false) := by
  rw [CharacterClass.Has, h]
  cases hnegate : node.negate with
  | false =>
    rw [if_neg (by decide), hits_maybeSimpleCaseFolding hfolding]
    simp
  | true =>
    rw [if_pos rfl]
    split_ifs with hsets
    · rw [hits_complement_folded hfolding hsets hc]
      simp
    · rw [hits_maybeSimpleCaseFolding hfolding]
      simp

end Lawful

variable (folding flags) in
theorem suggests_digit {shorthand : Shorthand} (h : shorthand ∈ checkBulkyNumericCharacterClass node) :
    shorthand = .escape .digit node.negate ∧
      node.set folding flags =
        MaybeSimpleCaseFolding folding flags.toFlags { c | EscapeKind.digit.contains c = true } := by
  unfold checkBulkyNumericCharacterClass at h
  split at h
  · rename_i element helements
    split_ifs at h with hrange
    · have hset : node.set folding flags = element.set folding flags := by
        ext c
        simp [CharacterClass.set, helements]
      refine ⟨(Option.some.inj h).symm, ?_⟩
      rw [hset, set_of_isRange (x := 48) (y := 57) rfl hrange]
      congr 1
      ext c
      simp [EscapeKind.contains]
    · cases h
  · cases h

/-- The tests of the elements of `[0-9a-zA-Z_]`, with what such an element stands for. -/
def wordParts : List ((Element → Bool) × Set ℕ) :=
  [(Element.isRange "0-9", { c | 48 ≤ c ∧ c ≤ 57 }), (Element.isRange "a-z", { c | 97 ≤ c ∧ c ≤ 122 }),
    (Element.isRange "A-Z", { c | 65 ≤ c ∧ c ≤ 90 }), (Element.isCharacter "_", { c | c = 95 })]

theorem set_of_wordPart : ∀ part ∈ wordParts, ∀ element : Element, part.1 element = true →
    element.set folding flags = MaybeSimpleCaseFolding folding flags.toFlags part.2 := by
  simp only [wordParts, List.forall_mem_cons]
  exact ⟨fun _ => set_of_isRange rfl, fun _ => set_of_isRange rfl, fun _ => set_of_isRange rfl,
    fun _ => set_of_isCharacter rfl, by simp⟩

theorem word_iff_part : EscapeKind.word.contains c = true ↔ ∃ part ∈ wordParts, c ∈ part.2 := by
  rw [word_contains_iff]
  simp only [wordParts, List.mem_cons, List.not_mem_nil, or_false, exists_eq_or_imp, exists_eq_left, Set.mem_ofPred_eq]
  omega

theorem wordParts_exclusive :
    (wordParts.map Prod.fst).Pairwise fun p q => ∀ element, p element = true → q element = false := by
  simp only [wordParts, List.map_cons, List.map_nil, List.pairwise_cons, List.forall_mem_cons]
  exact ⟨⟨fun _ => isRange_exclusive (by decide), fun _ => isRange_exclusive (by decide),
      fun _ => isRange_not_character, by simp⟩,
    ⟨fun _ => isRange_exclusive (by decide), fun _ => isRange_not_character, by simp⟩,
    ⟨fun _ => isRange_not_character, by simp⟩, by simp, List.Pairwise.nil⟩

variable (folding flags) in
theorem suggests_word {shorthand : Shorthand} (h : shorthand ∈ checkBulkyAlphaNumericCharacterClass node) :
    shorthand = .escape .word node.negate ∧
      node.set folding flags =
        MaybeSimpleCaseFolding folding flags.toFlags { c | EscapeKind.word.contains c = true } := by
  unfold checkBulkyAlphaNumericCharacterClass at h
  simp only at h
  split_ifs at h with hlength hall
  · refine ⟨(Option.some.inj h).symm, ?_⟩
    simp only [Bool.and_eq_true, and_assoc] at hall
    have hany : ∀ part ∈ wordParts, node.elements.any part.1 = true := by
      simp only [wordParts, List.forall_mem_cons]
      exact ⟨hall.1, hall.2.1, hall.2.2.1, hall.2.2.2, by simp⟩
    have hparts : ∀ element ∈ node.elements, ∃ p ∈ wordParts.map Prod.fst, p element = true :=
      exists_test wordParts_exclusive (List.forall_mem_map.mpr hany) hlength
    ext c
    rw [mem_maybeSimpleCaseFolding]
    constructor
    · rintro ⟨element, hmem, hc⟩
      obtain ⟨_, hp, helement⟩ := hparts element hmem
      obtain ⟨part, hpart, rfl⟩ := List.mem_map.mp hp
      rw [set_of_wordPart part hpart element helement, mem_maybeSimpleCaseFolding] at hc
      obtain ⟨a, ha, heq⟩ := hc
      exact ⟨a, word_iff_part.mpr ⟨part, hpart, ha⟩, heq⟩
    · rintro ⟨a, hword, heq⟩
      obtain ⟨part, hpart, ha⟩ := word_iff_part.mp hword
      obtain ⟨element, hmem, helement⟩ := List.any_eq_true.mp (hany part hpart)
      refine ⟨element, hmem, ?_⟩
      rw [set_of_wordPart part hpart element helement, mem_maybeSimpleCaseFolding]
      exact ⟨a, ha, heq⟩
  · cases h
  · cases h

/-! ### Classes of an escape and its complement -/

theorem suggests_any_iff : Shorthand.any ∈ checkBulkyAnyCharacterClass node flags ↔
    node.IsBoth .word ∨ node.IsBoth .digit ∨ (node.IsBoth .space ∧ flags.dotAll = true) := by
  unfold checkBulkyAnyCharacterClass CharacterClass.IsBoth
  by_cases hshape : node.negate = true ∨ node.elements.length ≠ 2
  · rw [if_pos hshape]
    refine iff_of_false (by simp) ?_
    rcases hshape with hnegate | hlength
    · simp [hnegate]
    · simp [hlength]
  · obtain ⟨hnegate, hlength⟩ := not_or.mp hshape
    rw [if_neg hshape]
    simp only [Bool.eq_false_iff.mpr hnegate, not_not.mp hlength, true_and, Option.mem_def, Option.ite_none_right_eq_some,
      Bool.or_eq_true, Bool.and_eq_true, and_true, or_assoc]

theorem eq_any_of_suggests {shorthand : Shorthand} (h : shorthand ∈ checkBulkyAnyCharacterClass node flags) :
    shorthand = .any := by
  unfold checkBulkyAnyCharacterClass at h
  simp only at h
  split_ifs at h
  · cases h
  · exact (Option.some.inj h).symm
  · cases h

section Lawful

variable (hfolding : folding.Lawful)
include hfolding

theorem has_of_isBoth {kind : EscapeKind} (h : node.IsBoth kind) (hc : c ≤ lastCharacter flags.toFlags) :
    node.Has folding flags c := by
  obtain ⟨hnegate, -, hset, hcomplement⟩ := h
  obtain ⟨lower, hlower, hlowerKind⟩ := List.any_eq_true.mp hset
  obtain ⟨upper, hupper, hupperKind⟩ := List.any_eq_true.mp hcomplement
  obtain rfl := eq_of_isCharacterSet hlowerKind
  obtain rfl := eq_of_isCharacterSet hupperKind
  rw [CharacterClass.Has, if_neg (by rw [hnegate]; decide)]
  have hall : Hits folding flags.toFlags (escapeSet folding flags.toFlags kind) c ∨ _ := hits_or_complement hfolding hc
  rcases hall with ⟨a, ha, heq⟩ | ⟨a, ha, heq⟩
  · exact ⟨a, ⟨_, hlower, ha⟩, heq⟩
  · exact ⟨a, ⟨_, hupper, ha⟩, heq⟩

/-! ### Suggestions -/

/-- A suggested shorthand has the characters of the class, unless it is `.` without the flag `s`. -/
theorem has_iff_of_suggested {shorthand : Shorthand} (h : shorthand ∈ suggestions node flags)
    (hany : shorthand = .any → flags.dotAll = true) (hc : c ≤ lastCharacter flags.toFlags) :
    shorthand.Has folding flags c ↔ node.Has folding flags c := by
  simp only [suggestions, List.mem_append, Option.mem_toList] at h
  rcases h with (h | h) | h
  · obtain rfl := eq_any_of_suggests h
    refine iff_of_true (hits_dotSet hfolding (hany rfl) hc) ?_
    rcases suggests_any_iff.mp h with hboth | hboth | hboth
    · exact has_of_isBoth hfolding hboth hc
    · exact has_of_isBoth hfolding hboth hc
    · exact has_of_isBoth hfolding hboth.1 hc
  · obtain ⟨rfl, hset⟩ := suggests_digit folding flags h
    rw [has_iff_of_set_eq hfolding hset hc, Shorthand.Has, hits_escape_digit hfolding node.negate hc,
      hits_digit_iff hfolding]
  · obtain ⟨rfl, hset⟩ := suggests_word folding flags h
    rw [has_iff_of_set_eq hfolding hset hc, Shorthand.Has, hits_escape_word hfolding node.negate hc,
      hits_word_iff hfolding]

theorem lineFeed_of_isBoth {kind : EscapeKind} (h : node.IsBoth kind) (hdotAll : flags.dotAll = false)
    (hsuggested : Shorthand.any ∈ suggestions node flags) :
    ¬ ∀ shorthand ∈ suggestions node flags, ∀ c ≤ lastCharacter flags.toFlags,
      (shorthand.Has folding flags c ↔ node.Has folding flags c) := by
  intro hexact
  have hmax : 0x0A ≤ lastCharacter flags.toFlags := by
    rw [lastCharacter]
    split_ifs <;> decide
  exact not_hits_dotSet hfolding hdotAll ((hexact .any hsuggested 0x0A hmax).mpr (has_of_isBoth hfolding h hmax))

/-- Every shorthand that is suggested has the characters of the class if and only if the flag `s` is set or the class
consists of no `\w` and `\W` and of no `\d` and `\D`. -/
theorem suggestions_exact_iff (node : CharacterClass) (flags : RegExpFlags) :
    (∀ shorthand ∈ suggestions node flags, ∀ c ≤ lastCharacter flags.toFlags,
      (shorthand.Has folding flags c ↔ node.Has folding flags c)) ↔
      flags.dotAll = true ∨ ¬ node.IsBoth .word ∧ ¬ node.IsBoth .digit := by
  constructor
  · intro h
    by_contra hnot
    simp only [not_or, not_and_or, not_not, Bool.not_eq_true] at hnot
    obtain ⟨hdotAll, hboth⟩ := hnot
    have hsuggested : Shorthand.any ∈ suggestions node flags := by
      simp only [suggestions, List.mem_append, Option.mem_toList]
      exact .inl (.inl (suggests_any_iff.mpr (hboth.imp_right .inl)))
    rcases hboth with hboth | hboth
    · exact lineFeed_of_isBoth hfolding hboth hdotAll hsuggested h
    · exact lineFeed_of_isBoth hfolding hboth hdotAll hsuggested h
  · intro h shorthand hsuggested c hc
    refine has_iff_of_suggested hfolding hsuggested ?_ hc
    rintro rfl
    rcases h with hdotAll | ⟨hword, hdigit⟩
    · exact hdotAll
    · simp only [suggestions, List.mem_append, Option.mem_toList] at hsuggested
      rcases hsuggested with (hany | hdigit') | hword'
      · rcases suggests_any_iff.mp hany with hboth | hboth | hboth
        · exact absurd hboth hword
        · exact absurd hboth hdigit
        · exact hboth.2
      · cases (suggests_digit folding flags hdigit').1
      · cases (suggests_word folding flags hword').1

end Lawful

/-- The case of the letters of ASCII, the long s and the Kelvin sign. -/
def latinFolding : CaseFolding where
  simpleFold c :=
    if 65 ≤ c ∧ c ≤ 90 then c + 32 else if c = 0x17F then 115 else if c = 0x212A then 107 else c
  toUppercase c := [if 97 ≤ c ∧ c ≤ 122 then c - 32 else if c = 0x17F then 83 else c]

theorem lawful_latinFolding : latinFolding.Lawful where
  simpleFold_ascii c hc := by
    simp only [latinFolding]
    split_ifs <;> omega
  simpleFold_outside c hc := by
    simp only [latinFolding]
    split_ifs <;> omega
  simpleFold_idem c := by
    simp only [latinFolding]
    split_ifs <;> omega
  simpleFold_le c hc := by
    simp only [latinFolding, maxCodePoint] at hc ⊢
    split_ifs <;> omega
  toUppercase_ascii c hc := by
    simp only [latinFolding, List.cons.injEq, and_true]
    split_ifs <;> omega

def noFlags : RegExpFlags := { ignoreCase := false, unicode := false, unicodeSets := false, dotAll := false }

/-- `[0-9]` -/
def digitClass : CharacterClass :=
  ⟨false, [.CharacterClassRange ⟨[48], 48, List.cons_ne_nil _ _, fun _ h => (List.cons.inj h).1⟩
    ⟨[57], 57, List.cons_ne_nil _ _, fun _ h => (List.cons.inj h).1⟩]⟩

/-- `[\w\W]` -/
def wordOrNot : CharacterClass := ⟨false, [.CharacterSet .word false, .CharacterSet .word true]⟩

theorem suggestions_exact_iff_digit :
    suggestions digitClass noFlags = [.escape .digit false] ∧ ∀ c ≤ lastCharacter noFlags.toFlags,
      ((Shorthand.escape .digit false).Has latinFolding noFlags c ↔ digitClass.Has latinFolding noFlags c) := by
  have hsuggestions : suggestions digitClass noFlags = [.escape .digit false] := by
    decide
  have hexact := (suggestions_exact_iff lawful_latinFolding digitClass noFlags).mpr (.inr ⟨by decide, by decide⟩)
  rw [hsuggestions] at hexact
  exact ⟨hsuggestions, hexact _ (List.mem_singleton_self _)⟩

/-- `.` is suggested for `[\w\W]`, which has the line feed. -/
theorem wordOrNot_not_exact :
    ¬ ∀ (node : CharacterClass) (flags : RegExpFlags), ∀ shorthand ∈ suggestions node flags,
      ∀ c ≤ lastCharacter flags.toFlags,
        (shorthand.Has latinFolding flags c ↔ node.Has latinFolding flags c) := by
  intro h
  exact lineFeed_of_isBoth lawful_latinFolding (show wordOrNot.IsBoth .word by decide) rfl (by decide)
    (h wordOrNot noFlags)

end SonarJavascript.Rules.ConciseRegex
