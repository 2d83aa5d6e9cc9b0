import Mathlib.Data.List.Induction
import Mathlib.Data.List.TakeWhile
import Mathlib.Tactic.Ring
import SonarJavascript.Regex.StringLiteral

/-!
# Reading the elements of literals

Each turn of the tokenizer reads one element of the literal, with two exceptions: an octal escape of two digits from
4 on takes a third digit along, and a line continuation with one of the separators is read as the separator.
`tokenizeFrom_eq`: the tokens of a well-formed literal are those of `readElements`, the ones of slashes doubled.
-/

namespace SonarJavascript.Regex

open Utf16

/-! ### The readers -/

section Readers

variable {s rest : JsString} {pos : ℕ} {digits : JsString} {radix : ℕ}

theorem drop_after {text : JsString} (h : s.drop pos = text ++ rest) : s.drop (pos + text.length) = rest := by
  rw [← List.drop_drop, h, List.drop_left]

theorem drop_succ {c : ℕ} (h : s.drop pos = c :: rest) : s.drop (pos + 1) = rest := by
  rw [← List.drop_drop, h, List.drop_one, List.tail_cons]

theorem substring_eq {text : JsString} (h : s.drop pos = text ++ rest) :
    substring s pos (pos + text.length) = text := by
  unfold substring
  rw [Nat.min_eq_left (Nat.le_add_right _ _), Nat.max_eq_right (Nat.le_add_right _ _), Nat.add_sub_cancel_left, h,
    List.take_left]

variable (s rest pos) in
theorem next_encode {c : ℕ} (h : s.drop pos = encode c ++ rest) (hmax : c ≤ 0x10FFFF) (hseparate : Separate c rest) :
    next s pos = some (c, pos + (encode c).length) := by
  unfold next cp inc
  rw [h, decode_encode_append hmax hseparate, length_encode]
  rfl

theorem next_cons {c : ℕ} (h : s.drop pos = c :: rest) (hsmall : c < 0xD800) : next s pos = some (c, pos + 1) := by
  have hencode : encode c = [c] := encode_of_lt (by omega)
  have hhigh : isHigh c = false := by
    simp only [isHigh, Bool.and_eq_false_iff, decide_eq_false_iff_not]
    omega
  have := next_encode s rest pos (by rw [hencode]; exact h) (by omega)
    (fun hc => absurd hc (by rw [hhigh]; decide))
  rwa [hencode] at this

theorem fromCodePoint_natCast {c : ℕ} (h : c ≤ 0x10FFFF) : fromCodePoint (c : ℤ) = some (encode c) := by
  rw [fromCodePoint, if_pos (by omega), Int.toNat_natCast]

theorem isDigit_iff {c : ℕ} : isDigit radix c = true ↔ ∃ value, digit? c = some value ∧ value < radix := by
  simp [isDigit, Option.any_eq_true]

theorem digit_bounds {c : ℕ} (h : isDigit 16 c = true) :
    (48 ≤ c ∧ c ≤ 57) ∨ (97 ≤ c ∧ c ≤ 102) ∨ (65 ≤ c ∧ c ≤ 70) := by
  obtain ⟨value, hvalue, hlt⟩ := isDigit_iff.mp h
  unfold digit? at hvalue
  split_ifs at hvalue <;> (obtain rfl := Option.some.inj hvalue; omega)

theorem isDigit_mono {c : ℕ} (h : isDigit 8 c = true) : isDigit 16 c = true := by
  obtain ⟨value, hvalue, hlt⟩ := isDigit_iff.mp h
  exact isDigit_iff.mpr ⟨value, hvalue, by omega⟩

theorem isOctalDigit_iff {c : ℕ} : isOctalDigit (some c) = true ↔ 48 ≤ c ∧ c ≤ 55 := by
  simp [isOctalDigit]

theorem isDigit_of_isOctalDigit {c : ℕ} (h : isOctalDigit (some c) = true) : isDigit 8 c = true := by
  obtain ⟨hlow, hhigh⟩ := isOctalDigit_iff.mp h
  refine isDigit_iff.mpr ⟨c - 48, ?_, by omega⟩
  rw [digit?, if_pos ⟨hlow, by omega⟩]

theorem not_isWhiteSpace {c : ℕ} (h : isDigit 16 c = true) : isWhiteSpace c = false := by
  have := digit_bounds h
  simp only [isWhiteSpace, Bool.or_eq_false_iff, Bool.and_eq_false_iff, decide_eq_false_iff_not, List.mem_cons,
    List.not_mem_nil, or_false]
  omega

theorem parseInt_digits (hradix : radix = 8 ∨ radix = 16) (hdigits : ∀ c ∈ digits, isDigit radix c = true)
    (hne : digits ≠ []) : parseInt digits radix = some (numeral radix digits : ℤ) := by
  have hhex : ∀ c ∈ digits, isDigit 16 c = true := fun c hc => by
    rcases hradix with rfl | rfl
    · exact isDigit_mono (hdigits c hc)
    · exact hdigits c hc
  obtain ⟨first, tail, rfl⟩ := List.exists_cons_of_ne_nil hne
  have hfirst := digit_bounds (hhex first (by simp))
  have hspace : (first :: tail).dropWhile isWhiteSpace = first :: tail := by
    rw [List.dropWhile_cons_of_neg]
    rw [not_isWhiteSpace (hhex first (by simp))]
    decide
  have hradixMark : ¬ (radix = 16 ∧ ((first :: tail).take 2 = units "0x" ∨ (first :: tail).take 2 = units "0X")) := by
    have hunits : units "0x" = [48, 120] ∧ units "0X" = [48, 88] := by decide
    rw [hunits.1, hunits.2]
    rintro ⟨-, h⟩
    rcases tail with _ | ⟨second, tail⟩
    · simp at h
    · have hsecond := digit_bounds (hhex second (by simp))
      simp only [List.take_succ_cons, List.take_zero, List.cons.injEq, and_true] at h
      omega
  have hplus : ¬ ((first :: tail).head? = some 45 ∨ (first :: tail).head? = some 43) := by
    simp only [List.head?_cons, Option.some.injEq]
    omega
  have hminus : ¬ (first :: tail).head? = some 45 := fun h => hplus (.inl h)
  have htake : (first :: tail).takeWhile (isDigit radix) = first :: tail := List.takeWhile_eq_self_iff.mpr hdigits
  unfold parseInt
  simp only [hspace, if_neg hminus, if_neg hplus, if_neg hradixMark, htake, if_neg hne, Int.one_mul]

theorem indexOf_eq {unit : ℕ} (h : s.drop pos = digits ++ unit :: rest) (hnot : unit ∉ digits) :
    indexOf s unit pos = some (pos + digits.length) := by
  have hindex : (digits ++ unit :: rest).idxOf? unit = some digits.length := by
    induction digits generalizing s pos with
    | nil => simp [List.idxOf?_cons]
    | cons c digits ih =>
      have hne : (c == unit) = false := beq_eq_false_iff_ne.mpr fun hc => hnot (by simp [hc])
      rw [List.cons_append, List.idxOf?_cons, hne]
      simp [ih (show (digits ++ unit :: rest).drop 0 = _ from rfl) fun hmem => hnot (List.mem_cons_of_mem _ hmem)]
  rw [indexOf, h, hindex]
  rfl

theorem readUnicode_digits (h : s.drop pos = digits ++ rest) (hdigits : ∀ c ∈ digits, isDigit 16 c = true)
    (hlength : digits.length = 4) : readUnicode s pos = some ((numeral 16 digits : ℤ), pos + 4) := by
  have hne : digits ≠ [] := by rintro rfl; cases hlength
  obtain ⟨first, tail, rfl⟩ := List.exists_cons_of_ne_nil hne
  have hfirst := digit_bounds (hdigits first (by simp))
  have hbrace : ¬ (s.drop pos).head? = some 123 := by
    rw [h]
    simp only [List.cons_append, List.head?_cons, Option.some.injEq]
    omega
  unfold readUnicode UNICODE_ESCAPE_LENGTH
  rw [if_neg hbrace, ← hlength, substring_eq h, parseInt_digits (.inr rfl) hdigits hne]
  rfl

theorem readUnicode_braces (h : s.drop pos = 123 :: (digits ++ 125 :: rest))
    (hdigits : ∀ c ∈ digits, isDigit 16 c = true) (hne : digits ≠ []) :
    readUnicode s pos = some ((numeral 16 digits : ℤ), pos + digits.length + 2) := by
  have hdrop : s.drop (pos + 1) = digits ++ 125 :: rest := drop_succ h
  have hnot : 125 ∉ digits := fun hmem => by
    have := digit_bounds (hdigits 125 hmem)
    omega
  unfold readUnicode
  rw [h, List.head?_cons, if_pos rfl]
  simp only [indexOf_eq hdrop hnot, substring_eq hdrop, parseInt_digits (.inr rfl) hdigits hne, Option.map_some,
    Option.some.injEq, Prod.mk.injEq, true_and]
  omega

theorem readHex_digits (h : s.drop pos = digits ++ rest) (hdigits : ∀ c ∈ digits, isDigit 16 c = true)
    (hlength : digits.length = 2) : readHex s pos = some ((numeral 16 digits : ℤ), pos + 2) := by
  have hne : digits ≠ [] := by rintro rfl; cases hlength
  unfold readHex HEX_ESCAPE_LENGTH
  rw [← hlength, substring_eq h, parseInt_digits (.inr rfl) hdigits hne]
  rfl

theorem isOctalDigit_decode : isOctalDigit (decode rest) = isOctalDigit rest.head? := by
  rcases rest with _ | ⟨unit, _ | ⟨second, rest⟩⟩
  · rfl
  · rfl
  · rw [decode, List.head?_cons]
    split_ifs with hpair
    · simp only [isHigh, isLow, Bool.and_eq_true, decide_eq_true_eq] at hpair
      rw [Bool.eq_iff_iff, isOctalDigit_iff, isOctalDigit_iff]
      omega
    · rfl

theorem octalDigits_eq {n : ℕ} (h : s.drop pos = digits ++ rest)
    (hdigits : ∀ c ∈ digits, isOctalDigit (some c) = true) (hlength : digits.length ≤ n)
    (hlast : digits.length < n → isOctalDigit rest.head? = false) : octalDigits s pos n = digits := by
  induction n generalizing pos digits with
  | zero => exact (List.eq_nil_of_length_eq_zero (Nat.le_zero.mp hlength)).symm
  | succ n ih =>
    unfold octalDigits cp
    rw [h, isOctalDigit_decode]
    cases digits with
    | nil =>
      rw [List.nil_append, hlast (Nat.succ_pos n), if_neg Bool.false_ne_true]
    | cons c digits =>
      have hrest := ih (drop_succ h) (fun d hd => hdigits d (by simp [hd]))
        (by simpa using hlength) fun hlt => hlast (by simpa using hlt)
      rw [List.cons_append, List.head?_cons, if_pos (hdigits c (by simp)), hrest]
      rfl

theorem numeral_lt (hdigits : ∀ c ∈ digits, isDigit radix c = true) : numeral radix digits < radix ^ digits.length := by
  induction digits using List.reverseRecOn with
  | nil => simp [numeral]
  | append_singleton digits c ih =>
    obtain ⟨value, hvalue, hlt⟩ := isDigit_iff.mp (hdigits c (by simp))
    have hinit := ih fun d hd => hdigits d (by simp [hd])
    have hlast : numeral radix (digits ++ [c]) = numeral radix digits * radix + value := by
      simp [numeral, hvalue]
    rw [hlast, List.length_append, List.length_singleton, pow_succ]
    calc numeral radix digits * radix + value < numeral radix digits * radix + radix := by omega
      _ = (numeral radix digits + 1) * radix := by ring
      _ ≤ radix ^ digits.length * radix := Nat.mul_le_mul_right _ hinit

theorem readOctal_eq {first : ℕ} (h : s.drop pos = digits ++ rest)
    (hdigits : ∀ c ∈ first :: digits, isOctalDigit (some c) = true) (hlength : digits.length ≤ 2)
    (hlast : digits.length < 2 → isOctalDigit rest.head? = false) :
    readOctal s first pos = some ([numeral 8 (first :: digits)], pos + digits.length) := by
  have hfirst := isOctalDigit_iff.mp (hdigits first (by simp))
  have hsmall : numeral 8 (first :: digits) < 512 :=
    (numeral_lt fun c hc => isDigit_of_isOctalDigit (hdigits c hc)).trans_le
      (Nat.pow_le_pow_right (show 8 > 0 by decide) (show (first :: digits).length ≤ 3 by rw [List.length_cons]; omega))
  have hparse : parseInt (encode first ++ digits) 8 = some (numeral 8 (first :: digits) : ℤ) := by
    rw [encode_of_lt (by omega)]
    exact parseInt_digits (.inl rfl) (fun c hc => isDigit_of_isOctalDigit (hdigits c hc)) (List.cons_ne_nil _ _)
  unfold readOctal
  simp only [octalDigits_eq h (fun c hc => hdigits c (by simp [hc])) hlength hlast, hparse,
    fromCodePoint_natCast (show numeral 8 (first :: digits) ≤ 0x10FFFF by omega), Option.pure_def, Option.bind_eq_bind,
    Option.bind_some, encode_of_lt (show numeral 8 (first :: digits) < 0x10000 by omega)]

end Readers

/-! ### Elements -/

section Elements

variable {s rest : JsString} {pos quote : ℕ}

/-- The escape takes the digit after it along. -/
def Overreads (rest : JsString) : Element → Prop
  | .octal digits => (∃ first ∈ digits.head?, Element.maxDigits first = 2) ∧ digits.length = 2 ∧ isOctalDigit rest.head? = true
  | _ => False

/-- The line continuation is read as the separator. -/
def KeepsSeparator : Element → Prop
  | .lineContinuation terminator => terminator = [lineSeparator] ∨ terminator = [paragraphSeparator]
  | _ => False

theorem readEscape_of_escape {c : ℕ} (h : s.drop pos = encode c ++ rest) (hmax : c ≤ 0x10FFFF)
    (hoctal : isOctalDigit (some c) = false)
    (hmem : c ∉ [117, 120, 10, 13]) (hseparate : Separate c rest) :
    readEscape s pos = some (Element.escaped c, pos + (encode c).length) := by
  simp only [List.mem_cons, List.not_mem_nil, or_false, not_or] at hmem
  obtain ⟨hu, hx, hlf, hcr⟩ := hmem
  unfold readEscape Element.escaped CP_n CP_r CP_t CP_b CP_v CP_f CP_BACK_SLASH CP_CR CP_LF CP_u CP_x
  rw [next_encode _ _ _ h hmax hseparate]
  simp only [Option.pure_def, Option.bind_eq_bind, Option.bind_some, hu, hx, hlf, hcr, hoctal, if_false,
    Bool.false_eq_true, fromCodePoint_natCast hmax]
  split_ifs with hn hr ht hb hv hf hslash <;> first | rfl | skip
  subst hslash
  rfl

theorem readTokens_of_escape {text value : JsString} {last : ℕ} (h : s.drop pos = 92 :: text)
    (hread : readEscape s (pos + 1) = some (value, last)) :
    readTokens s pos = some (if value ≠ [] then [⟨value, (pos, last)⟩] else [], last) := by
  unfold readTokens CP_BACK_SLASH
  rw [next_cons h (by decide)]
  simp only [Option.bind_eq_bind, Option.bind_some, if_true, hread, Option.pure_def]

theorem readEscape_of_octal {first : ℕ} {digits : JsString} (h : s.drop pos = first :: (digits ++ rest))
    (hdigits : ∀ c ∈ first :: digits, isOctalDigit (some c) = true) (hlength : digits.length ≤ 2)
    (hlast : digits.length < 2 → isOctalDigit rest.head? = false) :
    readEscape s pos = some ([numeral 8 (first :: digits)], pos + digits.length + 1) := by
  have hfirst := isOctalDigit_iff.mp (hdigits first (by simp))
  have hread := readOctal_eq (drop_succ h) hdigits hlength hlast
  unfold readEscape CP_n CP_r CP_t CP_b CP_v CP_f CP_BACK_SLASH CP_CR CP_LF CP_u CP_x
  rw [next_cons h (by omega)]
  have hne : first ≠ 110 ∧ first ≠ 114 ∧ first ≠ 116 ∧ first ≠ 98 ∧ first ≠ 118 ∧ first ≠ 102 ∧ first ≠ 92 ∧
      first ≠ 13 ∧ first ≠ 10 ∧ first ≠ 117 ∧ first ≠ 120 := by omega
  simp only [Option.bind_eq_bind, Option.bind_some, hne, if_false, hdigits first (by simp), if_true, hread]
  rw [Nat.add_right_comm]

theorem readEscape_of_hex {digits : JsString} (h : s.drop pos = 120 :: (digits ++ rest))
    (hdigits : ∀ c ∈ digits, isDigit 16 c = true) (hlength : digits.length = 2) :
    readEscape s pos = some ([numeral 16 digits], pos + 3) := by
  have hsmall := numeral_lt hdigits
  rw [hlength] at hsmall
  have hread := readHex_digits (drop_succ h) hdigits hlength
  unfold readEscape CP_n CP_r CP_t CP_b CP_v CP_f CP_BACK_SLASH CP_CR CP_LF CP_u CP_x
  rw [next_cons h (by decide)]
  simp [hread, fromCodePoint_natCast (show numeral 16 digits ≤ 0x10FFFF by omega),
    encode_of_lt (show numeral 16 digits < 0x10000 by omega)]

theorem readEscape_of_unicode {digits : JsString} (h : s.drop pos = 117 :: (digits ++ rest))
    (hdigits : ∀ c ∈ digits, isDigit 16 c = true) (hlength : digits.length = 4) :
    readEscape s pos = some ([numeral 16 digits], pos + 5) := by
  have hsmall := numeral_lt hdigits
  rw [hlength] at hsmall
  have hread := readUnicode_digits (drop_succ h) hdigits hlength
  unfold readEscape CP_n CP_r CP_t CP_b CP_v CP_f CP_BACK_SLASH CP_CR CP_LF CP_u CP_x
  rw [next_cons h (by decide)]
  simp [hread, fromCodePoint_natCast (show numeral 16 digits ≤ 0x10FFFF by omega),
    encode_of_lt (show numeral 16 digits < 0x10000 by omega)]

theorem readEscape_of_codePoint {digits : JsString} (h : s.drop pos = 117 :: 123 :: (digits ++ 125 :: rest))
    (hdigits : ∀ c ∈ digits, isDigit 16 c = true) (hne : digits ≠ []) (hmax : numeral 16 digits ≤ 0x10FFFF) :
    readEscape s pos = some (encode (numeral 16 digits), pos + digits.length + 3) := by
  have hread := readUnicode_braces (drop_succ h) hdigits hne
  unfold readEscape CP_n CP_r CP_t CP_b CP_v CP_f CP_BACK_SLASH CP_CR CP_LF CP_u CP_x
  rw [next_cons h (by decide)]
  simp only [Option.bind_eq_bind, Option.bind_some, hread, fromCodePoint_natCast hmax, Option.pure_def]
  simp
  omega

theorem readEscape_of_terminator {terminator : JsString} (h : s.drop pos = terminator ++ rest)
    (hmem : terminator ∈ [[10], [13], [13, 10]]) (hlast : terminator = [13] → rest.head? ≠ some 10) :
    readEscape s pos = some ([], pos + terminator.length) := by
  unfold readEscape CP_n CP_r CP_t CP_b CP_v CP_f CP_BACK_SLASH CP_CR CP_LF CP_u CP_x
  simp only [List.mem_cons, List.not_mem_nil, or_false] at hmem
  rcases hmem with rfl | rfl | rfl
  · rw [next_cons h (by decide)]
    simp
  · have hcp : cp s (pos + 1) ≠ some 10 := by
      have hdrop : s.drop (pos + 1) = rest := drop_succ h
      have hne := hlast rfl
      rw [cp, hdrop]
      rcases rest with _ | ⟨unit, _ | ⟨second, rest⟩⟩
      · simp [decode]
      · simpa [decode] using hne
      · rw [decode]
        split_ifs with hpair
        · rw [ne_eq, Option.some.injEq]
          omega
        · simpa using hne
    rw [next_cons h (by decide)]
    simp [hcp]
  · have hcp : cp s (pos + 1) = some 10 := by
      rw [cp, drop_succ h]
      exact decode_cons (by decide)
    rw [next_cons h (by decide)]
    simp [hcp]

/-- The token of an element. -/
def tokenAt (pos : ℕ) (element : Element) : StringLiteralToken :=
  ⟨element.value, (pos, pos + element.text.length)⟩

/-- A slash has its token twice. -/
def double (s : JsString) (token : StringLiteralToken) : List StringLiteralToken :=
  if substring s token.range.1 token.range.2 = [47] then [token, token] else [token]

/-- The tokens of one element, with no token twice. -/
def tokensAt (pos : ℕ) (element : Element) : List StringLiteralToken :=
  if element.value = [] then [] else [tokenAt pos element]

theorem escaped_ne_nil {c : ℕ} : Element.escaped c ≠ [] := by
  unfold Element.escaped
  split_ifs <;> first | exact encode_ne_nil | simp

theorem double_of_ne {value text : JsString} {last : ℕ} (h : s.drop pos = text ++ rest)
    (hlast : last = pos + text.length) (hne : text ≠ [47]) :
    double s ⟨value, (pos, last)⟩ = [⟨value, (pos, last)⟩] := by
  rw [double, hlast, substring_eq h, if_neg hne]

theorem double_tokenAt {element : Element} (h : s.drop pos = element.text ++ rest) :
    double s (tokenAt pos element) =
      if element.text = [47] then [tokenAt pos element, tokenAt pos element] else [tokenAt pos element] := by
  rw [double, tokenAt, substring_eq h]

theorem readTokens_of_value {element : Element} (h : s.drop pos = element.text ++ rest)
    (hhead : element.text.head? = some 92)
    (hread : readEscape s (pos + 1) = some (element.value, pos + element.text.length)) :
    readTokens s pos = some ((tokensAt pos element).flatMap (double s), pos + element.text.length) := by
  obtain ⟨tail, htail⟩ : ∃ tail, element.text = 92 :: tail := List.head?_eq_some_iff.mp hhead
  have hdrop : s.drop pos = 92 :: (tail ++ rest) := by rw [h, htail, List.cons_append]
  rw [readTokens_of_escape hdrop hread]
  by_cases hvalue : element.value = []
  · rw [tokensAt, if_pos hvalue, if_neg (not_not.mpr hvalue)]
    rfl
  · have hslash : element.text ≠ [47] := by
      rw [htail]
      simp
    rw [tokensAt, if_neg hvalue, if_pos hvalue, List.flatMap_singleton, double_tokenAt h, if_neg hslash]
    rfl

/-- **One turn of the loop**, for the elements that are read as they should be. -/
theorem readTokens_eq {element : Element} (h : s.drop pos = element.text ++ rest) (hvalid : element.Valid quote)
    (hbefore : element.Before rest) (hover : ¬ Overreads rest element) (hkeeps : ¬ KeepsSeparator element) :
    readTokens s pos = some ((tokensAt pos element).flatMap (double s), pos + element.text.length) := by
  cases element with
  | character c =>
    obtain ⟨hmax, hmem⟩ := hvalid
    have hslash : c ≠ 92 := fun hc => hmem (by simp [hc])
    have htext : (encode c = [47]) ↔ c = 47 := by
      constructor
      · intro hc
        unfold encode at hc
        split_ifs at hc
        · simpa using hc
        · simp at hc
      · rintro rfl
        rfl
    have hne : (Element.character c).value ≠ [] := encode_ne_nil
    rw [tokensAt, if_neg hne, List.flatMap_singleton, double_tokenAt h]
    simp only [Element.text, htext]
    unfold readTokens CP_BACK_SLASH CP_FORWARD_SLASH
    rw [next_encode _ _ _ h hmax hbefore]
    simp only [Option.bind_eq_bind, Option.bind_some, hslash, if_false, fromCodePoint_natCast hmax, Option.pure_def]
    rfl
  | escape c =>
    obtain ⟨hmax, hoctal, hmem⟩ := hvalid
    have hdrop : s.drop (pos + 1) = encode c ++ rest := drop_succ h
    have hread := readEscape_of_escape hdrop hmax hoctal (fun hc => hmem (by simp at hc ⊢; omega)) hbefore
    refine readTokens_of_value h rfl ?_
    rw [hread, Element.text, List.length_cons, Element.value, Nat.add_right_comm, Nat.add_assoc]
  | octal digits =>
    obtain ⟨hdigits, first, hfirst, hlength⟩ := hvalid
    obtain ⟨tail, rfl⟩ : ∃ tail, digits = first :: tail := by
      rcases digits with _ | ⟨c, tail⟩
      · cases hfirst
      · obtain rfl := Option.some.inj hfirst
        exact ⟨tail, rfl⟩
    have hdrop : s.drop (pos + 1) = first :: (tail ++ rest) := drop_succ h
    have hmax : tail.length + 1 ≤ Element.maxDigits first := hlength
    have hthree : Element.maxDigits first ≤ 3 := by unfold Element.maxDigits; split_ifs <;> decide
    have hread := readEscape_of_octal hdrop hdigits (by omega) fun hlt => by
      by_cases hfull : tail.length + 1 < Element.maxDigits first
      · exact hbefore first rfl hfull
      · by_contra hnext
        refine hover ⟨⟨first, rfl, ?_⟩, ?_, by simpa using hnext⟩
        · unfold Element.maxDigits at hfull hmax ⊢
          split_ifs at hfull hmax ⊢ <;> omega
        · unfold Element.maxDigits at hfull hmax
          simp only [List.length_cons]
          split_ifs at hfull hmax <;> omega
    refine readTokens_of_value h rfl ?_
    rw [hread]
    simp only [Element.value, Element.text, List.length_cons, Option.some.injEq, Prod.mk.injEq, true_and]
    omega
  | hex digits =>
    have hdrop : s.drop (pos + 1) = 120 :: (digits ++ rest) := drop_succ h
    refine readTokens_of_value h rfl ?_
    rw [readEscape_of_hex hdrop hvalid.1 hvalid.2, Element.text, List.length_cons, List.length_cons, hvalid.2]
    rfl
  | unicode digits =>
    have hdrop : s.drop (pos + 1) = 117 :: (digits ++ rest) := drop_succ h
    refine readTokens_of_value h rfl ?_
    rw [readEscape_of_unicode hdrop hvalid.1 hvalid.2, Element.text, List.length_cons, List.length_cons, hvalid.2]
    rfl
  | codePoint digits =>
    obtain ⟨hdigits, hne, hmax⟩ := hvalid
    have hdrop : s.drop (pos + 1) = 117 :: 123 :: (digits ++ 125 :: rest) := by
      rw [drop_succ h]
      simp
    refine readTokens_of_value h rfl ?_
    rw [readEscape_of_codePoint hdrop hdigits hne hmax]
    simp only [Element.value, Element.text, List.length_cons, List.length_append, List.length_nil, Option.some.injEq,
      Prod.mk.injEq, true_and]
    omega
  | lineContinuation terminator =>
    have hdrop : s.drop (pos + 1) = terminator ++ rest := drop_succ h
    have hmem : terminator ∈ [[10], [13], [13, 10]] := by
      have hall : terminator ∈ [[10], [13], [13, 10], [lineSeparator], [paragraphSeparator]] := hvalid
      simp only [List.mem_cons, List.not_mem_nil, or_false] at hall ⊢
      have hnot : ¬ (terminator = [lineSeparator] ∨ terminator = [paragraphSeparator]) := hkeeps
      tauto
    refine readTokens_of_value h rfl ?_
    rw [readEscape_of_terminator hdrop hmem hbefore, Element.text, List.length_cons, Element.value, Nat.add_right_comm,
      Nat.add_assoc]

/-- What the tokenizer makes of the elements from a position on, with no token twice. -/
def readElements : ℕ → List Element → List StringLiteralToken
  | _, [] => []
  | pos, .octal [a, b] :: .character c :: rest =>
    if Element.maxDigits a = 2 ∧ isOctalDigit (some c) = true then
      ⟨[numeral 8 [a, b, c]], (pos, pos + 4)⟩ :: readElements (pos + 4) rest
    else tokenAt pos (.octal [a, b]) :: readElements (pos + 3) (.character c :: rest)
  | pos, .lineContinuation [unit] :: rest =>
    if unit = lineSeparator ∨ unit = paragraphSeparator then ⟨[unit], (pos, pos + 2)⟩ :: readElements (pos + 2) rest
    else readElements (pos + 2) rest
  | pos, element :: rest => tokensAt pos element ++ readElements (pos + element.text.length) rest

theorem readTokens_of_separator {unit : ℕ} (hunit : unit = lineSeparator ∨ unit = paragraphSeparator)
    (h : s.drop pos = 92 :: unit :: rest) :
    readTokens s pos = some (([⟨[unit], (pos, pos + 2)⟩] : List StringLiteralToken).flatMap (double s), pos + 2) := by
  have hmem : unit = 0x2028 ∨ unit = 0x2029 := hunit
  have hsmall : encode unit = [unit] := encode_of_lt (by omega)
  have hdrop : s.drop (pos + 1) = encode unit ++ rest := by
    rw [drop_succ h, hsmall]
    rfl
  have hoctal : isOctalDigit (some unit) = false := by
    rw [Bool.eq_false_iff, ne_eq, isOctalDigit_iff]
    omega
  have hread := readEscape_of_escape hdrop (by omega) hoctal (by simp; omega) (fun hhigh => by
    simp only [isHigh, Bool.and_eq_true, decide_eq_true_eq] at hhigh
    omega)
  have hescaped : Element.escaped unit = [unit] := by
    unfold Element.escaped
    rw [if_neg (by omega), if_neg (by omega), if_neg (by omega), if_neg (by omega), if_neg (by omega),
      if_neg (by omega), hsmall]
  have hdouble : double s ⟨[unit], (pos, pos + 2)⟩ = [⟨[unit], (pos, pos + 2)⟩] :=
    double_of_ne (show s.drop pos = [92, unit] ++ rest from h) rfl (by simp)
  rw [readTokens_of_escape h hread, hescaped, hsmall, List.flatMap_singleton, hdouble]
  rfl

theorem readTokens_of_third {a b c : ℕ} (hdigits : ∀ d ∈ [a, b, c], isOctalDigit (some d) = true)
    (h : s.drop pos = 92 :: a :: b :: c :: rest) :
    readTokens s pos =
      some (([⟨[numeral 8 [a, b, c]], (pos, pos + 4)⟩] : List StringLiteralToken).flatMap (double s), pos + 4) := by
  have hdrop : s.drop (pos + 1) = a :: ([b, c] ++ rest) := drop_succ h
  have hdouble : double s ⟨[numeral 8 [a, b, c]], (pos, pos + 4)⟩ = [⟨[numeral 8 [a, b, c]], (pos, pos + 4)⟩] :=
    double_of_ne (show s.drop pos = [92, a, b, c] ++ rest from h) rfl (by simp)
  rw [readTokens_of_escape h (readEscape_of_octal hdrop hdigits (by simp) (by simp)), List.flatMap_singleton, hdouble]
  rfl

/-! ### The loop -/

theorem tokenizeFrom_step {n last : ℕ} {tokens more : List StringLiteralToken} (hpos : pos < s.length)
    (hread : readTokens s pos = some (tokens, last)) (hrest : tokenizeFrom s n last = some more) :
    tokenizeFrom s (n + 1) pos = some (tokens ++ more) := by
  rw [tokenizeFrom, if_pos hpos]
  simp only [Option.bind_eq_bind, hread, Option.bind_some, hrest, Option.pure_def]

theorem character_of_digit {elements : List Element} (hwf : WellFormed quote elements)
    (hdigit : isOctalDigit (bodyOf elements).head? = true) :
    ∃ c rest, elements = .character c :: rest ∧ isOctalDigit (some c) = true := by
  rcases elements with _ | ⟨element, rest⟩
  · cases hdigit
  · have hbackslash : ∀ tail, element.text ≠ 92 :: tail := fun tail htail => by
      rw [bodyOf_cons, htail] at hdigit
      simp [isOctalDigit] at hdigit
    cases element with
    | character c =>
      refine ⟨c, rest, rfl, ?_⟩
      obtain ⟨⟨hmax, -⟩, hbefore, -⟩ := hwf
      rwa [bodyOf_cons, ← isOctalDigit_decode, Element.text, decode_encode_append hmax hbefore] at hdigit
    | escape | octal | hex | unicode | codePoint | lineContinuation => exact absurd rfl (hbackslash _)

section Regular

variable {elements : List Element} {a b c unit : ℕ} {element : Element}

theorem not_overreads_of_third (hwf : WellFormed quote (.character c :: elements))
    (hthird : ¬ (Element.maxDigits a = 2 ∧ isOctalDigit (some c) = true)) :
    ¬ Overreads (bodyOf (.character c :: elements)) (.octal [a, b]) := by
  rintro ⟨⟨first, hfirst, hmax⟩, -, hdigit⟩
  obtain rfl := Option.some.inj hfirst
  obtain ⟨c', rest', heq, hc⟩ := character_of_digit hwf hdigit
  obtain ⟨⟨⟩, rfl⟩ := List.cons.inj heq
  exact hthird ⟨hmax, hc⟩

theorem not_overreads_of_octal (hwf : WellFormed quote elements)
    (hoctal : ∀ a b c rest, element = .octal [a, b] → elements = .character c :: rest → False) :
    ¬ Overreads (bodyOf elements) element := fun hover => by
  cases element with
  | octal digits =>
    obtain ⟨-, hlength, hdigit⟩ := hover
    obtain ⟨c, rest', rfl, -⟩ := character_of_digit hwf hdigit
    rcases digits with _ | ⟨a, _ | ⟨b, _ | ⟨d, digits⟩⟩⟩
    · cases hlength
    · cases hlength
    · exact hoctal a b c rest' rfl rfl
    · simp at hlength
  | character | escape | hex | unicode | codePoint | lineContinuation => exact hover

theorem not_keepsSeparator_of_unit (hunit : ¬ (unit = lineSeparator ∨ unit = paragraphSeparator)) :
    ¬ KeepsSeparator (.lineContinuation [unit]) := fun hkeeps =>
  hunit (hkeeps.imp (fun h => (List.cons.inj h).1) fun h => (List.cons.inj h).1)

theorem not_keepsSeparator (hseparator : ∀ unit, element = .lineContinuation [unit] → False) :
    ¬ KeepsSeparator element := fun hkeeps => by
  cases element with
  | lineContinuation terminator =>
    rcases hkeeps with rfl | rfl
    · exact hseparator _ rfl
    · exact hseparator _ rfl
  | character | escape | hex | unicode | codePoint | octal => exact hkeeps

end Regular

theorem exists_turn {text : JsString} {n : ℕ} (h : s.drop pos = text ++ rest) (hne : text ≠ [])
    (hn : (text ++ rest).length ≤ n) : pos < s.length ∧ ∃ m, n = m + 1 ∧ rest.length ≤ m := by
  have hpos := List.length_pos_iff.mpr hne
  have hlength := congrArg List.length h
  rw [List.length_drop, List.length_append] at hlength
  rw [List.length_append] at hn
  exact ⟨by omega, n - 1, by omega, by omega⟩

theorem tokenizeFrom_eq (elements : List Element) (n pos : ℕ) (hwf : WellFormed quote elements)
    (h : s.drop pos = bodyOf elements) (hn : (bodyOf elements).length ≤ n) :
    tokenizeFrom s n pos = some ((readElements pos elements).flatMap (double s)) := by
  fun_induction readElements pos elements generalizing n with
  | case1 pos =>
    have hend : ¬ pos < s.length := by
      have := congrArg List.length h
      simp [bodyOf] at this
      omega
    rw [tokenizeFrom.eq_def]
    exact if_neg hend
  | case2 pos a b c rest hthird ih =>
    obtain ⟨⟨hdigits, -⟩, -, ⟨hmax, -⟩, -, hrest⟩ := hwf
    obtain ⟨hlow, hhigh⟩ := isOctalDigit_iff.mp hthird.2
    have htext : s.drop pos = [92, a, b, c] ++ bodyOf rest := by
      rw [h, bodyOf_cons, bodyOf_cons, Element.text, Element.text, encode_of_lt (by omega)]
      rfl
    rw [← h, htext] at hn
    obtain ⟨hpos, m, rfl, hm⟩ := exists_turn htext (List.cons_ne_nil _ _) hn
    have hall : ∀ d ∈ [a, b, c], isOctalDigit (some d) = true := by
      intro d hd
      simp only [List.mem_cons, List.not_mem_nil, or_false] at hd
      rcases hd with rfl | rfl | rfl
      · exact hdigits d (by simp)
      · exact hdigits d (by simp)
      · exact hthird.2
    rw [tokenizeFrom_step hpos (readTokens_of_third hall htext) (ih m hrest (drop_after htext) hm),
      ← List.flatMap_append]
    rfl
  | case3 pos a b c rest hthird ih =>
    obtain ⟨hvalid, hbefore, hrest⟩ := hwf
    rw [bodyOf_cons] at h hn
    obtain ⟨hpos, m, rfl, hm⟩ := exists_turn h (Element.text_ne_nil _) hn
    have hover : ¬ Overreads _ (.octal [a, b]) := not_overreads_of_third hrest hthird
    rw [tokenizeFrom_step hpos (readTokens_eq h hvalid hbefore hover nofun) (ih m hrest (drop_after h) hm),
      ← List.flatMap_append]
    rfl
  | case4 pos unit rest hunit ih =>
    obtain ⟨-, -, hrest⟩ := hwf
    rw [bodyOf_cons] at h hn
    obtain ⟨hpos, m, rfl, hm⟩ := exists_turn h (Element.text_ne_nil _) hn
    rw [tokenizeFrom_step hpos (readTokens_of_separator hunit h) (ih m hrest (drop_after h) hm),
      ← List.flatMap_append]
    rfl
  | case5 pos unit rest hunit ih =>
    obtain ⟨hvalid, hbefore, hrest⟩ := hwf
    rw [bodyOf_cons] at h hn
    obtain ⟨hpos, m, rfl, hm⟩ := exists_turn h (Element.text_ne_nil _) hn
    have hkeeps := not_keepsSeparator_of_unit hunit
    rw [tokenizeFrom_step hpos (readTokens_eq h hvalid hbefore nofun hkeeps) (ih m hrest (drop_after h) hm)]
    rfl
  | case6 pos element rest hoctal hseparator ih =>
    obtain ⟨hvalid, hbefore, hrest⟩ := hwf
    rw [bodyOf_cons] at h hn
    obtain ⟨hpos, m, rfl, hm⟩ := exists_turn h (Element.text_ne_nil _) hn
    have hover := not_overreads_of_octal hrest hoctal
    have hkeeps := not_keepsSeparator hseparator
    rw [tokenizeFrom_step hpos (readTokens_eq h hvalid hbefore hover hkeeps) (ih m hrest (drop_after h) hm),
      List.flatMap_append]

end Elements

end SonarJavascript.Regex
