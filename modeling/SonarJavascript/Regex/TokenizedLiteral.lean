import SonarJavascript.Regex.ReadElements

/-!
# The tokens of string literals

The ranges of the tokens are always in order, and only line continuations are left out. Their values are the value of
the literal if and only if no element is misread: `tokenized_iff`.
-/

namespace SonarJavascript.Regex

open Utf16

variable {quote pos : ℕ} {elements rest : List Element} {singles : List StringLiteralToken}

/-! ### Ranges -/

/-- The position is in a line continuation of the elements that begin at `pos`. -/
def InLineContinuation (pos : ℕ) (elements : List Element) (p : ℕ) : Prop :=
  ∃ before terminator after, elements = before ++ .lineContinuation terminator :: after ∧
    pos + (bodyOf before).length ≤ p ∧ p < pos + (bodyOf before).length + terminator.length + 1

/-- The ranges of tokens for the elements from `pos` on: in order, not empty, and with nothing but line
continuations between them. -/
structure Ranged (pos : ℕ) (elements : List Element) (singles : List StringLiteralToken) : Prop where
  increasing : singles.Pairwise fun token next => token.range.2 ≤ next.range.1
  inBounds : ∀ token ∈ singles, pos ≤ token.range.1 ∧ token.range.1 < token.range.2 ∧
    token.range.2 ≤ pos + (bodyOf elements).length
  gaps : ∀ p, pos ≤ p → p < pos + (bodyOf elements).length →
    (∀ token ∈ singles, ¬ (token.range.1 ≤ p ∧ p < token.range.2)) → InLineContinuation pos elements p

theorem InLineContinuation.append {first : List Element} {p : ℕ}
    (h : InLineContinuation (pos + (bodyOf first).length) rest p) : InLineContinuation pos (first ++ rest) p := by
  obtain ⟨before, terminator, after, rfl, hstart, hend⟩ := h
  refine ⟨first ++ before, terminator, after, by simp, ?_, ?_⟩ <;>
  · simp only [bodyOf, List.flatMap_append, List.length_append] at hstart hend ⊢
    omega

theorem Ranged.token (first : List Element) (value : JsString) {finish : ℕ}
    (hfinish : finish = pos + (bodyOf first).length) (hpos : pos < finish) (h : Ranged finish rest singles) :
    Ranged pos (first ++ rest) (⟨value, (pos, finish)⟩ :: singles) := by
  subst hfinish
  have hlength : (bodyOf (first ++ rest)).length = (bodyOf first).length + (bodyOf rest).length := by
    simp [bodyOf]
  refine ⟨List.pairwise_cons.mpr ⟨fun token htoken => (h.inBounds token htoken).1, h.increasing⟩, ?_, ?_⟩
  · intro token htoken
    rcases List.mem_cons.mp htoken with rfl | htoken
    · dsimp only
      omega
    · have := h.inBounds token htoken
      omega
  · intro p hstart hp hfree
    have hend : pos + (bodyOf first).length ≤ p := by
      have := hfree _ List.mem_cons_self
      dsimp only at this
      omega
    exact (h.gaps p hend (by omega) fun token htoken => hfree token (List.mem_cons_of_mem _ htoken)).append

theorem Ranged.skip {terminator : JsString} (h : Ranged (pos + (terminator.length + 1)) rest singles) :
    Ranged pos (.lineContinuation terminator :: rest) singles := by
  have hlength : (bodyOf (.lineContinuation terminator :: rest)).length =
      terminator.length + 1 + (bodyOf rest).length := by
    simp only [bodyOf_cons, Element.text, List.cons_append, List.length_cons, List.length_append]
    omega
  refine ⟨h.increasing, fun token htoken => ?_, fun p hpos hp hfree => ?_⟩
  · have := h.inBounds token htoken
    omega
  · by_cases hstart : pos + (terminator.length + 1) ≤ p
    · have hrest : InLineContinuation (pos + (bodyOf [.lineContinuation terminator]).length) rest p := by
        simpa [bodyOf, Element.text] using h.gaps p hstart (by omega) hfree
      exact hrest.append
    · exact ⟨[], terminator, rest, rfl, by simpa [bodyOf] using hpos, by simp [bodyOf]; omega⟩

theorem lineContinuation_of_value {element : Element} (h : element.value = []) :
    ∃ terminator, element = .lineContinuation terminator := by
  cases element with
  | lineContinuation terminator => exact ⟨terminator, rfl⟩
  | character c => exact absurd h encode_ne_nil
  | escape c => exact absurd h escaped_ne_nil
  | codePoint digits => exact absurd h encode_ne_nil
  | octal | hex | unicode => cases h

theorem ranged_readElements (pos : ℕ) (elements : List Element) :
    Ranged pos elements (readElements pos elements) := by
  fun_induction readElements pos elements with
  | case1 pos => exact ⟨List.Pairwise.nil, List.forall_mem_nil _, fun p hpos hp => by simp [bodyOf] at hp; omega⟩
  | case2 pos a b c rest hthird ih =>
    obtain ⟨hlow, hhigh⟩ := isOctalDigit_iff.mp hthird.2
    have hlength : (bodyOf [.octal [a, b], .character c]).length = 4 := by
      simp [bodyOf, Element.text, encode_of_lt (show c < 0x10000 by omega)]
    exact Ranged.token [.octal [a, b], .character c] _ (by rw [hlength]) (by omega) ih
  | case3 pos a b c rest hthird ih => exact Ranged.token [.octal [a, b]] _ (by simp [bodyOf]) (by simp [Element.text]) ih
  | case4 pos unit rest hunit ih =>
    exact Ranged.token [.lineContinuation [unit]] _ (by simp [bodyOf, Element.text]) (by omega) ih
  | case5 pos unit rest hunit ih => exact ih.skip
  | case6 pos element rest hoctal hseparator ih =>
    by_cases hvalue : element.value = []
    · obtain ⟨terminator, rfl⟩ := lineContinuation_of_value hvalue
      rw [tokensAt, if_pos hvalue]
      exact ih.skip
    · rw [tokensAt, if_neg hvalue]
      exact Ranged.token [element] _ (by simp [bodyOf]) (by have := element.length_text_pos; omega) ih

/-! ### Values -/

/-- No element of the literal is misread. -/
def Regular : List Element → Prop
  | [] => True
  | element :: rest => ¬ Overreads (bodyOf rest) element ∧ ¬ KeepsSeparator element ∧ Regular rest

def IsSeparator (unit : ℕ) : Prop := unit = lineSeparator ∨ unit = paragraphSeparator

def valuesOf (singles : List StringLiteralToken) : JsString := singles.flatMap (·.value)

theorem valuesOf_tokensAt (element : Element) :
    valuesOf (tokensAt pos element ++ singles) = element.value ++ valuesOf singles := by
  unfold tokensAt
  split_ifs with hvalue
  · rw [hvalue]
    rfl
  · rfl

theorem numeral_third_ne {a b c : ℕ} (ha : isOctalDigit (some a) = true) (hb : isOctalDigit (some b) = true)
    (hmax : Element.maxDigits a = 2) : numeral 8 [a, b, c] ≠ numeral 8 [a, b] := by
  have hfour : 51 < a := by
    unfold Element.maxDigits at hmax
    split_ifs at hmax <;> omega
  have hdigit : ∀ d, isOctalDigit (some d) = true → digit? d = some (d - 48) := fun d hd => by
    have := isOctalDigit_iff.mp hd
    rw [digit?, if_pos (by omega)]
  simp only [numeral, List.foldl_cons, List.foldl_nil, hdigit a ha, hdigit b hb, Option.getD_some]
  omega

theorem numeral_two_lt {a b : ℕ} (ha : isOctalDigit (some a) = true) (hb : isOctalDigit (some b) = true) :
    numeral 8 [a, b] < 64 :=
  numeral_lt fun c hc => isDigit_of_isOctalDigit (by
    simp only [List.mem_cons, List.not_mem_nil, or_false] at hc
    rcases hc with rfl | rfl
    · exact ha
    · exact hb)

theorem encode_of_separator {c unit : ℕ} {tail : JsString} (h : encode c = unit :: tail) (hunit : IsSeparator unit) :
    tail = [] := by
  have : unit = 0x2028 ∨ unit = 0x2029 := hunit
  unfold encode at h
  split_ifs at h
  · exact (List.cons.inj h).2.symm
  · have := (List.cons.inj h).1
    omega

theorem value_of_separator {element : Element} {unit : ℕ} {tail : JsString} (h : element.value = unit :: tail)
    (hunit : IsSeparator unit) : tail = [] := by
  cases element with
  | character c => exact encode_of_separator h hunit
  | codePoint digits => exact encode_of_separator h hunit
  | escape c =>
    simp only [Element.value, Element.escaped] at h
    split_ifs at h <;> first | exact (List.cons.inj h).2.symm | exact encode_of_separator h hunit
  | octal | hex | unicode => exact (List.cons.inj h).2.symm
  | lineContinuation => cases h

theorem separators_append_ne (hwf : WellFormed quote elements) (separators : JsString) (hne : separators ≠ [])
    (hall : ∀ unit ∈ separators, IsSeparator unit) :
    separators ++ valuesOf (readElements pos elements) ≠ valueOf elements := by
  fun_induction readElements pos elements generalizing separators with
  | case1 pos => simpa [valuesOf, valueOf] using hne
  | case2 pos a b c rest hthird ih =>
    obtain ⟨first, tail, rfl⟩ := List.exists_cons_of_ne_nil hne
    obtain ⟨⟨hdigits, -⟩, -⟩ := hwf
    intro heq
    have hfirst : first = numeral 8 [a, b] := (List.cons.inj heq).1
    have hlt := numeral_two_lt (hdigits a (by simp)) (hdigits b (by simp))
    have : first = 0x2028 ∨ first = 0x2029 := hall first (by simp)
    omega
  | case3 pos a b c rest hthird ih =>
    obtain ⟨first, tail, rfl⟩ := List.exists_cons_of_ne_nil hne
    obtain ⟨⟨hdigits, -⟩, -⟩ := hwf
    intro heq
    have hfirst : first = numeral 8 [a, b] := (List.cons.inj heq).1
    have hlt := numeral_two_lt (hdigits a (by simp)) (hdigits b (by simp))
    have : first = 0x2028 ∨ first = 0x2029 := hall first (by simp)
    omega
  | case4 pos unit rest hunit ih =>
    have := ih hwf.2.2 (separators ++ [unit]) (by simp) fun u hu => by
      rcases List.mem_append.mp hu with hu | hu
      · exact hall u hu
      · obtain rfl := List.mem_singleton.mp hu
        exact hunit
    rwa [List.append_assoc] at this
  | case5 pos unit rest hunit ih => exact ih hwf.2.2 separators hne hall
  | case6 pos element rest hoctal hseparator ih =>
    rw [valuesOf_tokensAt, valueOf_cons]
    rcases hvalue : element.value with _ | ⟨unit, tail⟩
    · exact ih hwf.2.2 separators hne hall
    · obtain ⟨first, more, rfl⟩ := List.exists_cons_of_ne_nil hne
      intro heq
      obtain ⟨rfl, heq⟩ := List.cons.inj heq
      have hfirst := hall first (by simp)
      obtain rfl := value_of_separator hvalue hfirst
      refine ih hwf.2.2 (more ++ [first]) (by simp) (fun u hu => hall u ?_) (by simpa using heq)
      simpa [or_comm] using hu

theorem valuesOf_readElements_iff (pos : ℕ) (hwf : WellFormed quote elements) :
    valuesOf (readElements pos elements) = valueOf elements ↔ Regular elements := by
  fun_induction readElements pos elements with
  | case1 pos => exact iff_of_true rfl trivial
  | case2 pos a b c rest hthird ih =>
    obtain ⟨⟨hdigits, -⟩, -, hrest⟩ := hwf
    refine iff_of_false (fun heq => ?_) fun hregular => hregular.1 ⟨⟨a, rfl, hthird.1⟩, rfl, ?_⟩
    · exact numeral_third_ne (hdigits a (by simp)) (hdigits b (by simp)) hthird.1 (List.cons.inj heq).1
    · have := isOctalDigit_iff.mp hthird.2
      rw [bodyOf_cons, Element.text, encode_of_lt (by omega)]
      exact hthird.2
  | case3 pos a b c rest hthird ih =>
    obtain ⟨-, -, hrest⟩ := hwf
    have hcons : ∀ n, (n :: valuesOf (readElements (pos + 3) (.character c :: rest)) =
        n :: valueOf (.character c :: rest)) ↔ Regular (.character c :: rest) := fun n => by
      rw [List.cons.injEq, eq_self_iff_true, true_and, ih hrest]
    exact (hcons _).trans ⟨fun h => ⟨not_overreads_of_third hrest hthird, id, h⟩, fun h => h.2.2⟩
  | case4 pos unit rest hunit ih =>
    obtain ⟨-, -, hrest⟩ := hwf
    refine iff_of_false ?_ fun hregular => hregular.2.1 (hunit.imp (fun h => by rw [h]) fun h => by rw [h])
    exact separators_append_ne hrest [unit] (by simp) fun u hu => by
      obtain rfl := List.mem_singleton.mp hu
      exact hunit
  | case5 pos unit rest hunit ih =>
    obtain ⟨-, -, hrest⟩ := hwf
    exact (ih hrest).trans ⟨fun h => ⟨id, not_keepsSeparator_of_unit hunit, h⟩, fun h => h.2.2⟩
  | case6 pos element rest hoctal hseparator ih =>
    obtain ⟨-, -, hrest⟩ := hwf
    rw [valuesOf_tokensAt, valueOf_cons, List.append_cancel_left_eq, ih hrest]
    exact ⟨fun h => ⟨not_overreads_of_octal hrest hoctal, not_keepsSeparator hseparator, h⟩, fun h => h.2.2⟩

/-! ### Literals -/

theorem flatMap_double_inj {s : JsString} {others : List StringLiteralToken}
    (h : singles.flatMap (double s) = others.flatMap (double s)) : singles = others := by
  have hcons : ∀ token, ∃ tail, double s token = token :: tail := fun token => by
    unfold double
    split_ifs <;> exact ⟨_, rfl⟩
  induction singles generalizing others with
  | nil =>
    rcases others with _ | ⟨token, others⟩
    · rfl
    · obtain ⟨tail, htail⟩ := hcons token
      rw [List.flatMap_cons, htail] at h
      cases h
  | cons token singles ih =>
    obtain ⟨tail, htail⟩ := hcons token
    rcases others with _ | ⟨other, others⟩
    · rw [List.flatMap_cons, htail] at h
      cases h
    · obtain ⟨tail', htail'⟩ := hcons other
      have htoken : token = other := by
        rw [List.flatMap_cons, List.flatMap_cons, htail, htail'] at h
        exact (List.cons.inj h).1
      subst htoken
      rw [List.flatMap_cons, List.flatMap_cons] at h
      rw [ih (List.append_cancel_left h)]

/-- The tokens are in order, leave out line continuations only, and have the value of the literal, when each slash
counts once. -/
def Tokenized (literal : StringLiteral) (tokens : List StringLiteralToken) : Prop :=
  ∃ singles, tokens = singles.flatMap (double literal.body) ∧ Ranged 0 literal.elements singles ∧
    valuesOf singles = literal.value

theorem tokenizeString_eq (literal : StringLiteral) :
    tokenizeString literal.body = some ((readElements 0 literal.elements).flatMap (double literal.body)) :=
  tokenizeFrom_eq literal.elements _ 0 literal.wellFormed rfl (Nat.le_refl _)

theorem regular_of_tokenized {literal : StringLiteral}
    (h : ∃ tokens, tokenizeString literal.body = some tokens ∧ Tokenized literal tokens) :
    Regular literal.elements := by
  obtain ⟨tokens, htokens, singles, rfl, -, hvalue⟩ := h
  rw [tokenizeString_eq, Option.some.injEq] at htokens
  obtain rfl := flatMap_double_inj htokens
  exact (valuesOf_readElements_iff 0 literal.wellFormed).mp hvalue

theorem tokenized_iff (literal : StringLiteral) :
    (∃ tokens, tokenizeString literal.body = some tokens ∧ Tokenized literal tokens) ↔ Regular literal.elements := by
  refine ⟨regular_of_tokenized, fun hregular => ⟨_, tokenizeString_eq literal, _, rfl, ?_, ?_⟩⟩
  · exact ranged_readElements 0 literal.elements
  · exact (valuesOf_readElements_iff 0 literal.wellFormed).mpr hregular

/-- `'\400'`, which is a space and a zero. -/
def fourHundred : StringLiteral where
  quote := 39
  elements := [.octal [52, 48], .character 48]
  quote_eq := .inr rfl
  wellFormed := by
    refine ⟨⟨by decide, 52, rfl, by decide⟩, fun first hfirst hlt => ?_, ⟨by decide, by decide⟩, fun h => ?_, trivial⟩
    · obtain rfl := Option.some.inj hfirst
      exact absurd hlt (by decide)
    · exact absurd h (by decide)

theorem fourHundred_not_tokenized :
    ¬ ∃ tokens, tokenizeString fourHundred.body = some tokens ∧ Tokenized fourHundred tokens := fun h =>
  (regular_of_tokenized h).1 ⟨⟨52, rfl, by decide⟩, rfl, by decide⟩

end SonarJavascript.Regex
