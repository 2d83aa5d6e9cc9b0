import Mathlib.Data.Set.Basic
import SonarJavascript.Regex.ClassElements

/-!
# Sets of characters

The sets that ECMAScript compiles classes and their escapes to, and when a set has a character: when one of its
members has the same canonical form. With the flags `v` and `i` the sets are folded and complements are taken among
the characters that are their own folding. What a complement has is what its set has not (`hits_complement_folded`,
`hits_complement_of_saturated`).
-/

namespace SonarJavascript.Regex

structure RegExpFlags extends Flags where
  dotAll : Bool
  deriving DecidableEq

/-- The simple case folding of a code point, and the code units that `toUpperCase` gives for one. -/
structure CaseFolding where
  simpleFold : ℕ → ℕ
  toUppercase : ℕ → List ℕ

/-- The tables of Unicode, as far as ASCII is concerned. A character outside ASCII is folded to a small letter, if to
a character of ASCII at all. -/
structure CaseFolding.Lawful (folding : CaseFolding) : Prop where
  simpleFold_ascii : ∀ c < 128, folding.simpleFold c = if 65 ≤ c ∧ c ≤ 90 then c + 32 else c
  simpleFold_outside : ∀ c ≥ 128, folding.simpleFold c < 128 → 97 ≤ folding.simpleFold c ∧ folding.simpleFold c ≤ 122
  simpleFold_idem : ∀ c, folding.simpleFold (folding.simpleFold c) = folding.simpleFold c
  simpleFold_le : ∀ c ≤ maxCodePoint, folding.simpleFold c ≤ maxCodePoint
  toUppercase_ascii : ∀ c < 128, folding.toUppercase c = [if 97 ≤ c ∧ c ≤ 122 then c - 32 else c]

variable (folding : CaseFolding) (flags : Flags)

def HasEitherUnicodeFlag : Bool := flags.unicode || flags.unicodeSets

/-- `Canonicalize`. Without `u` and `v`, a character is not changed to several units, nor into ASCII. -/
def canonicalize (c : ℕ) : ℕ :=
  if flags.ignoreCase = true then
    if HasEitherUnicodeFlag flags = true then folding.simpleFold c
    else
      match folding.toUppercase c with
      | [unit] => if 128 ≤ c ∧ unit < 128 then c else unit
      | _ => c
  else c

/-- The sets are folded. -/
def folds : Bool := flags.unicodeSets && flags.ignoreCase

def AllCharacters : Set ℕ :=
  { c | c ≤ lastCharacter flags ∧ (folds flags = true → folding.simpleFold c = c) }

def CharacterComplement (set : Set ℕ) : Set ℕ := { c | c ∈ AllCharacters folding flags ∧ c ∉ set }

def MaybeSimpleCaseFolding (set : Set ℕ) : Set ℕ :=
  if folds flags = true then { c | ∃ a ∈ set, folding.simpleFold a = c } else set

def WordCharacters : Set ℕ :=
  { c | EscapeKind.word.contains c = true ∨ EscapeKind.word.contains (canonicalize folding flags c) = true }

/-- A member of the set has the canonical form of the character. -/
def Hits (set : Set ℕ) (c : ℕ) : Prop := ∃ a ∈ set, canonicalize folding flags a = canonicalize folding flags c

def escapeSet (kind : EscapeKind) : Set ℕ :=
  match kind with
  | .word => MaybeSimpleCaseFolding folding flags (WordCharacters folding flags)
  | kind => { c | kind.contains c = true }

/-- `\d`, `\s` and `\w`, and their complements. -/
def characterClassEscape (kind : EscapeKind) (negate : Bool) : Set ℕ :=
  if negate then CharacterComplement folding flags (escapeSet folding flags kind) else escapeSet folding flags kind

/-- The set that `.` stands for. -/
def dotSet (flags : RegExpFlags) : Set ℕ :=
  { c | c ∈ AllCharacters folding flags.toFlags ∧ (flags.dotAll = false → c ∉ [0x0A, 0x0D, 0x2028, 0x2029]) }

/-! ### Canonical forms -/

variable {folding flags} {set : Set ℕ} {b c : ℕ}

theorem canonicalize_of_ne (h : flags.ignoreCase = false) : canonicalize folding flags c = c := by
  rw [canonicalize, if_neg (by rw [h]; decide)]

theorem canonicalize_unicode (hcase : flags.ignoreCase = true) (h : HasEitherUnicodeFlag flags = true) :
    canonicalize folding flags c = folding.simpleFold c := by
  rw [canonicalize, if_pos hcase, if_pos h]

variable (folding) in
theorem canonicalize_outside (hc : 128 ≤ c) (hcase : flags.ignoreCase = true)
    (h : HasEitherUnicodeFlag flags = false) : 128 ≤ canonicalize folding flags c := by
  rw [canonicalize, if_pos hcase, if_neg (by rw [h]; decide)]
  split
  · split_ifs <;> omega
  · exact hc

theorem canonicalize_folds (h : folds flags = true) : canonicalize folding flags c = folding.simpleFold c := by
  obtain ⟨hsets, hcase⟩ := (Bool.and_eq_true _ _).mp h
  exact canonicalize_unicode hcase (by rw [HasEitherUnicodeFlag, hsets, Bool.or_true])

theorem lastCharacter_folds (h : folds flags = true) : lastCharacter flags = maxCodePoint := by
  obtain ⟨hsets, -⟩ := (Bool.and_eq_true _ _).mp h
  rw [lastCharacter, if_pos (by rw [hsets, Bool.or_true])]

theorem word_contains_iff : EscapeKind.word.contains c = true ↔
    (48 ≤ c ∧ c ≤ 57) ∨ (65 ≤ c ∧ c ≤ 90) ∨ c = 95 ∨ (97 ≤ c ∧ c ≤ 122) := by
  simp [EscapeKind.contains, or_assoc]

section Lawful

variable (hfolding : folding.Lawful)
include hfolding

theorem canonicalize_ascii (hc : c < 128) (hcase : flags.ignoreCase = true) (h : HasEitherUnicodeFlag flags = false) :
    canonicalize folding flags c = if 97 ≤ c ∧ c ≤ 122 then c - 32 else c := by
  rw [canonicalize, if_pos hcase, if_neg (by rw [h]; decide), hfolding.toUppercase_ascii c hc]
  simp only
  rw [if_neg (by omega)]

theorem canonicalize_eq_iff (hb : b < 128) (hcapital : ¬ (65 ≤ b ∧ b ≤ 90)) (hsmall : ¬ (97 ≤ b ∧ b ≤ 122)) :
    canonicalize folding flags c = canonicalize folding flags b ↔ c = b := by
  refine ⟨fun h => ?_, fun h => by rw [h]⟩
  cases hcase : flags.ignoreCase with
  | false => rwa [canonicalize_of_ne hcase, canonicalize_of_ne hcase] at h
  | true =>
    cases hunicode : HasEitherUnicodeFlag flags with
    | true =>
      rw [canonicalize_unicode hcase hunicode, canonicalize_unicode hcase hunicode, hfolding.simpleFold_ascii b hb,
        if_neg hcapital] at h
      by_cases hc : c < 128
      · rw [hfolding.simpleFold_ascii c hc] at h
        split_ifs at h <;> omega
      · have hletter := hfolding.simpleFold_outside c (not_lt.mp hc) (by rw [h]; exact hb)
        omega
    | false =>
      rw [canonicalize_ascii hfolding hb hcase hunicode, if_neg hsmall] at h
      by_cases hc : c < 128
      · rw [canonicalize_ascii hfolding hc hcase hunicode] at h
        split_ifs at h <;> omega
      · have houtside := canonicalize_outside folding (not_lt.mp hc) hcase hunicode
        omega

theorem contains_canonicalize (h : EscapeKind.word.contains c = true) :
    EscapeKind.word.contains (canonicalize folding flags c) = true := by
  rw [word_contains_iff] at h ⊢
  cases hcase : flags.ignoreCase with
  | false => rwa [canonicalize_of_ne hcase]
  | true =>
    cases hunicode : HasEitherUnicodeFlag flags with
    | true =>
      rw [canonicalize_unicode hcase hunicode, hfolding.simpleFold_ascii c (by omega)]
      split_ifs <;> omega
    | false =>
      rw [canonicalize_ascii hfolding (by omega) hcase hunicode]
      split_ifs <;> omega

theorem mem_wordCharacters :
    c ∈ WordCharacters folding flags ↔ EscapeKind.word.contains (canonicalize folding flags c) = true :=
  ⟨fun h => h.elim (contains_canonicalize hfolding) id, Or.inr⟩

theorem canonicalize_idem (h : EscapeKind.word.contains (canonicalize folding flags c) = true) :
    canonicalize folding flags (canonicalize folding flags c) = canonicalize folding flags c := by
  cases hcase : flags.ignoreCase with
  | false => rw [canonicalize_of_ne hcase]
  | true =>
    cases hunicode : HasEitherUnicodeFlag flags with
    | true =>
      rw [canonicalize_unicode hcase hunicode, canonicalize_unicode hcase hunicode, hfolding.simpleFold_idem]
    | false =>
      rw [word_contains_iff] at h
      have hc : c < 128 := by
        by_contra hc
        have houtside := canonicalize_outside folding (not_lt.mp hc) hcase hunicode
        omega
      rw [canonicalize_ascii hfolding hc hcase hunicode] at h ⊢
      rw [canonicalize_ascii hfolding (by omega) hcase hunicode]
      split_ifs <;> omega

/-! ### What a set has -/

theorem hits_all (hc : c ≤ lastCharacter flags) : Hits folding flags (AllCharacters folding flags) c := by
  cases hfolds : folds flags with
  | true =>
    refine ⟨folding.simpleFold c, ⟨?_, fun _ => hfolding.simpleFold_idem c⟩, ?_⟩
    · rw [lastCharacter_folds hfolds] at hc ⊢
      exact hfolding.simpleFold_le c hc
    · rw [canonicalize_folds hfolds, canonicalize_folds hfolds, hfolding.simpleFold_idem]
  | false => exact ⟨c, ⟨hc, fun h => by rw [hfolds] at h; cases h⟩, rfl⟩

theorem hits_maybeSimpleCaseFolding :
    Hits folding flags (MaybeSimpleCaseFolding folding flags set) c ↔ Hits folding flags set c := by
  rw [MaybeSimpleCaseFolding]
  split_ifs with hfolds
  · have hfold : ∀ a, canonicalize folding flags (folding.simpleFold a) = canonicalize folding flags a := fun a => by
      rw [canonicalize_folds hfolds, canonicalize_folds hfolds, hfolding.simpleFold_idem]
    constructor
    · rintro ⟨_, ⟨a, ha, rfl⟩, heq⟩
      exact ⟨a, ha, (hfold a).symm.trans heq⟩
    · rintro ⟨a, ha, heq⟩
      exact ⟨_, ⟨a, ha, rfl⟩, (hfold a).trans heq⟩
  · exact Iff.rfl

theorem hits_or_complement (hc : c ≤ lastCharacter flags) :
    Hits folding flags set c ∨ Hits folding flags (CharacterComplement folding flags set) c := by
  obtain ⟨a, ha, heq⟩ := hits_all hfolding hc
  by_cases hset : a ∈ set
  · exact .inl ⟨a, hset, heq⟩
  · exact .inr ⟨a, ⟨ha, hset⟩, heq⟩

/-- The complement of a set that has each character with all others of its canonical form. -/
theorem hits_complement_of_saturated (hc : c ≤ lastCharacter flags)
    (hset : ∀ a ∈ set, ∀ b, canonicalize folding flags b = canonicalize folding flags a → b ∈ set) :
    Hits folding flags (CharacterComplement folding flags set) c ↔ ¬ Hits folding flags set c := by
  constructor
  · rintro ⟨a, ⟨-, hnot⟩, heq⟩ ⟨b, hb, heq'⟩
    exact hnot (hset b hb a (heq.trans heq'.symm))
  · exact (hits_or_complement hfolding hc).resolve_left

theorem hits_complement_folded (hsets : flags.unicodeSets = true) (hc : c ≤ lastCharacter flags) :
    Hits folding flags (CharacterComplement folding flags (MaybeSimpleCaseFolding folding flags set)) c ↔
      ¬ Hits folding flags set c := by
  refine ⟨?_, fun h => (hits_or_complement hfolding hc).resolve_left fun hhits =>
    h ((hits_maybeSimpleCaseFolding hfolding).mp hhits)⟩
  rintro ⟨a, ⟨⟨-, hall⟩, hnot⟩, heq⟩ ⟨b, hb, heq'⟩
  have hsame := heq'.trans heq.symm
  refine hnot ?_
  rw [MaybeSimpleCaseFolding]
  split_ifs with hfolds
  · rw [canonicalize_folds hfolds, canonicalize_folds hfolds, hall hfolds] at hsame
    exact ⟨b, hb, hsame⟩
  · have hcase : flags.ignoreCase = false := by
      rw [folds, hsets, Bool.true_and] at hfolds
      exact Bool.eq_false_iff.mpr hfolds
    rw [canonicalize_of_ne hcase, canonicalize_of_ne hcase] at hsame
    rwa [← hsame]

/-! ### Digits and words -/

theorem hits_digit_iff : Hits folding flags { c | EscapeKind.digit.contains c = true } c ↔
    EscapeKind.digit.contains c = true := by
  refine ⟨?_, fun h => ⟨c, h, rfl⟩⟩
  rintro ⟨a, ha, heq⟩
  have hdigit : 48 ≤ a ∧ a ≤ 57 := by simpa [EscapeKind.contains] using ha
  obtain rfl := (canonicalize_eq_iff hfolding (by omega) (by omega) (by omega)).mp heq.symm
  exact ha

/-- The word characters of ASCII have the same characters as all word characters. -/
theorem hits_word_iff : Hits folding flags { c | EscapeKind.word.contains c = true } c ↔
    EscapeKind.word.contains (canonicalize folding flags c) = true := by
  constructor
  · rintro ⟨a, ha, heq⟩
    rw [← heq]
    exact contains_canonicalize hfolding ha
  · exact fun h => ⟨_, h, canonicalize_idem hfolding h⟩

theorem hits_wordCharacters_iff : Hits folding flags (WordCharacters folding flags) c ↔
    EscapeKind.word.contains (canonicalize folding flags c) = true := by
  constructor
  · rintro ⟨a, ha, heq⟩
    rw [← heq]
    exact (mem_wordCharacters hfolding).mp ha
  · exact fun h => ⟨c, .inr h, rfl⟩

/-- `\d` and `\D`, `\w` and `\W`: the complement has what the set has not. -/
theorem hits_escape_digit (negate : Bool) (hc : c ≤ lastCharacter flags) :
    Hits folding flags (characterClassEscape folding flags .digit negate) c ↔
      ((EscapeKind.digit.contains c = true) ↔ negate = false) := by
  cases negate with
  | false =>
    rw [show characterClassEscape folding flags .digit false = { c | EscapeKind.digit.contains c = true } from rfl,
      hits_digit_iff hfolding]
    simp
  | true =>
    rw [show characterClassEscape folding flags .digit true =
        CharacterComplement folding flags { c | EscapeKind.digit.contains c = true } from rfl,
      hits_complement_of_saturated hfolding hc, hits_digit_iff hfolding]
    · simp
    · intro a ha b heq
      exact (hits_digit_iff hfolding).mp ⟨a, ha, heq.symm⟩

theorem hits_escape_word (negate : Bool) (hc : c ≤ lastCharacter flags) :
    Hits folding flags (characterClassEscape folding flags .word negate) c ↔
      ((EscapeKind.word.contains (canonicalize folding flags c) = true) ↔ negate = false) := by
  have hword : escapeSet folding flags .word = MaybeSimpleCaseFolding folding flags (WordCharacters folding flags) := rfl
  cases negate with
  | false =>
    rw [show characterClassEscape folding flags .word false = escapeSet folding flags .word from rfl, hword,
      hits_maybeSimpleCaseFolding hfolding, hits_wordCharacters_iff hfolding]
    simp
  | true =>
    rw [show characterClassEscape folding flags .word true =
      CharacterComplement folding flags (escapeSet folding flags .word) from rfl, hword]
    cases hsets : flags.unicodeSets with
    | true =>
      rw [hits_complement_folded hfolding hsets hc, hits_wordCharacters_iff hfolding]
      simp
    | false =>
      rw [MaybeSimpleCaseFolding, if_neg (by rw [folds, hsets, Bool.false_and]; decide),
        hits_complement_of_saturated hfolding hc, hits_wordCharacters_iff hfolding]
      · simp
      · intro a ha b heq
        rw [mem_wordCharacters hfolding] at ha ⊢
        rwa [heq]

/-! ### Any character -/

theorem hits_dotSet {flags : RegExpFlags} (h : flags.dotAll = true) (hc : c ≤ lastCharacter flags.toFlags) :
    Hits folding flags.toFlags (dotSet folding flags) c := by
  obtain ⟨a, ha, heq⟩ := hits_all hfolding hc
  exact ⟨a, ⟨ha, fun hdotAll => by rw [h] at hdotAll; cases hdotAll⟩, heq⟩

theorem not_hits_dotSet {flags : RegExpFlags} (h : flags.dotAll = false) :
    ¬ Hits folding flags.toFlags (dotSet folding flags) 0x0A := by
  rintro ⟨a, ⟨-, ha⟩, heq⟩
  obtain rfl := (canonicalize_eq_iff hfolding (by omega) (by omega) (by omega)).mp heq
  exact ha h (by decide)

end Lawful

end SonarJavascript.Regex
