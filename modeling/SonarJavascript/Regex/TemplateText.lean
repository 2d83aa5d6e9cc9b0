import Mathlib.Algebra.Order.Group.Nat
import SonarJavascript.Regex.StringLiteral

/-!
# Static template texts

The text between the backticks of a template without substitutions. An escape is longer than what it stands
for, and does not lose a slash, so only a text without escapes is its own value.
-/

namespace SonarJavascript.Regex

open Utf16

/-- Line ends are normalized to `\n`, and `\0` is the only escape of digits. -/
def Element.ValidInTemplate : Element → Prop
  | .character c => c = 10 ∨ (Element.character c).Valid 96
  | .octal digits => digits = [48]
  | .lineContinuation terminator => terminator ∈ [[10], [lineSeparator], [paragraphSeparator]]
  | element => element.Valid 96

/-- A dollar sign is not followed by a brace, nor `\0` by a digit. -/
def Element.BeforeInTemplate (rest : JsString) (element : Element) : Prop :=
  element.Before rest ∧ (element = .character 36 → rest.head? ≠ some 123) ∧
    ∀ digits, element = .octal digits → ∀ c ∈ rest.head?, isDigit 10 c = false

def WellFormedTemplate : List Element → Prop
  | [] => True
  | element :: rest => element.ValidInTemplate ∧ element.BeforeInTemplate (bodyOf rest) ∧ WellFormedTemplate rest

structure TemplateText where
  elements : List Element
  wellFormed : WellFormedTemplate elements

namespace TemplateText

variable (text : TemplateText)

def raw : JsString := bodyOf text.elements

def cooked : JsString := valueOf text.elements

/-- The text of `a\n` between backticks. -/
def lineOfA : TemplateText where
  elements := [.character 97, .escape 110]
  wellFormed := by
    refine ⟨.inr ⟨by decide, by decide⟩, ⟨fun hhigh => ?_, fun h => ?_, fun digits h => ?_⟩,
      ⟨by decide, by decide, by decide⟩, ⟨fun hhigh => ?_, fun h => ?_, fun digits h => ?_⟩, trivial⟩
    · exact absurd hhigh (by decide)
    · cases h
    · cases h
    · exact absurd hhigh (by decide)
    · cases h
    · cases h

example : lineOfA.cooked = [97, 10] := by decide

end TemplateText

/-! ### Slashes -/

def slash : ℕ := 47

theorem not_slash_of_isDigit {c : ℕ} (h : isDigit 16 c = true) : c ≠ slash := by
  rintro rfl
  exact absurd h (by decide)

theorem count_digits {digits : JsString} (h : ∀ c ∈ digits, isDigit 16 c = true) : digits.count slash = 0 :=
  List.count_eq_zero.mpr fun hmem => not_slash_of_isDigit (h _ hmem) rfl

theorem count_encode_le_escaped (c : ℕ) : (encode c).count slash ≤ (Element.escaped c).count slash := by
  unfold Element.escaped
  split_ifs with hn hr ht hb hv hf
  · subst hn; decide
  · subst hr; decide
  · subst ht; decide
  · subst hb; decide
  · subst hv; decide
  · subst hf; decide
  · exact le_refl _

theorem Element.count_text_le {element : Element} (h : element.ValidInTemplate) :
    element.text.count slash ≤ element.value.count slash := by
  cases element with
  | character c => exact le_refl _
  | escape c =>
    rw [Element.text, List.count_cons_of_ne (by decide)]
    exact count_encode_le_escaped c
  | octal digits =>
    obtain rfl : digits = [48] := h
    decide
  | hex digits =>
    rw [Element.text, List.count_cons_of_ne (by decide), List.count_cons_of_ne (by decide), count_digits h.1]
    exact Nat.zero_le _
  | unicode digits =>
    rw [Element.text, List.count_cons_of_ne (by decide), List.count_cons_of_ne (by decide), count_digits h.1]
    exact Nat.zero_le _
  | codePoint digits =>
    rw [Element.text, List.count_cons_of_ne (by decide), List.count_cons_of_ne (by decide),
      List.count_cons_of_ne (by decide), List.count_append, count_digits h.1]
    exact Nat.zero_le _
  | lineContinuation terminator =>
    have hterminator : terminator.count slash = 0 := by
      simp only [Element.ValidInTemplate, List.mem_cons, List.not_mem_nil, or_false] at h
      rcases h with rfl | rfl | rfl <;> decide
    rw [Element.text, List.count_cons_of_ne (by decide), hterminator]
    exact Nat.zero_le _

/-! ### Lengths -/

def Element.IsCharacter : Element → Prop
  | .character _ => True
  | _ => False

theorem length_encode_le (c : ℕ) : (encode c).length ≤ 2 := by
  unfold encode
  split_ifs <;> simp

theorem length_escaped_le (c : ℕ) : (Element.escaped c).length ≤ (encode c).length := by
  have hpos : 1 ≤ (encode c).length := List.length_pos_iff.mpr encode_ne_nil
  unfold Element.escaped
  split_ifs <;> first | exact hpos | exact le_refl _

theorem Element.length_value_lt {element : Element} (h : element.ValidInTemplate) (hescape : ¬ element.IsCharacter) :
    element.value.length < element.text.length := by
  cases element with
  | character c => exact absurd trivial hescape
  | escape c => exact Nat.lt_succ_of_le (length_escaped_le c)
  | octal digits =>
    obtain rfl : digits = [48] := h
    decide
  | hex digits => exact Nat.succ_lt_succ (Nat.succ_pos _)
  | unicode digits => exact Nat.succ_lt_succ (Nat.succ_pos _)
  | codePoint digits =>
    refine lt_of_le_of_lt (length_encode_le _) ?_
    simp only [Element.text, List.length_cons, List.length_append]
    omega
  | lineContinuation terminator => exact Nat.succ_pos _

theorem Element.value_eq_text {element : Element} (h : element.IsCharacter) : element.value = element.text := by
  cases element with
  | character c => rfl
  | escape | octal | hex | unicode | codePoint | lineContinuation => exact h.elim

theorem Element.length_value_le {element : Element} (h : element.ValidInTemplate) :
    element.value.length ≤ element.text.length := by
  by_cases hcharacter : element.IsCharacter
  · exact le_of_eq (congrArg List.length (Element.value_eq_text hcharacter))
  · exact le_of_lt (Element.length_value_lt h hcharacter)

/-! ### Texts -/

theorem WellFormedTemplate.valid {elements : List Element} (h : WellFormedTemplate elements) :
    ∀ element ∈ elements, element.ValidInTemplate := by
  induction elements with
  | nil => exact nofun
  | cons element rest ih => exact List.forall_mem_cons.mpr ⟨h.1, ih h.2.2⟩

theorem count_bodyOf_le {elements : List Element} (h : ∀ element ∈ elements, element.ValidInTemplate) :
    (bodyOf elements).count slash ≤ (valueOf elements).count slash := by
  induction elements with
  | nil => exact le_refl _
  | cons element rest ih =>
    obtain ⟨helement, hrest⟩ := List.forall_mem_cons.mp h
    rw [bodyOf_cons, valueOf_cons, List.count_append, List.count_append]
    exact Nat.add_le_add (Element.count_text_le helement) (ih hrest)

theorem length_valueOf_le {elements : List Element} (h : ∀ element ∈ elements, element.ValidInTemplate) :
    (valueOf elements).length ≤ (bodyOf elements).length := by
  induction elements with
  | nil => exact le_refl _
  | cons element rest ih =>
    obtain ⟨helement, hrest⟩ := List.forall_mem_cons.mp h
    rw [bodyOf_cons, valueOf_cons, List.length_append, List.length_append]
    exact Nat.add_le_add (Element.length_value_le helement) (ih hrest)

theorem valueOf_eq_of_length_le {elements : List Element} (h : ∀ element ∈ elements, element.ValidInTemplate)
    (hlength : (bodyOf elements).length ≤ (valueOf elements).length) : valueOf elements = bodyOf elements := by
  induction elements with
  | nil => rfl
  | cons element rest ih =>
    obtain ⟨helement, hrest⟩ := List.forall_mem_cons.mp h
    rw [bodyOf_cons, valueOf_cons, List.length_append, List.length_append] at hlength
    have hle := length_valueOf_le hrest
    by_cases hcharacter : element.IsCharacter
    · rw [bodyOf_cons, valueOf_cons, Element.value_eq_text hcharacter]
      rw [Element.value_eq_text hcharacter] at hlength
      rw [ih hrest (by omega)]
    · have hlt := Element.length_value_lt helement hcharacter
      omega

namespace TemplateText

variable (text : TemplateText)

theorem count_raw_le : text.raw.count slash ≤ text.cooked.count slash :=
  count_bodyOf_le text.wellFormed.valid

theorem length_cooked_le : text.cooked.length ≤ text.raw.length :=
  length_valueOf_le text.wellFormed.valid

theorem length_cooked_lt (h : text.cooked ≠ text.raw) : text.cooked.length < text.raw.length := by
  by_contra hlength
  exact h (valueOf_eq_of_length_le text.wellFormed.valid (Nat.le_of_not_lt hlength))

end TemplateText

end SonarJavascript.Regex
